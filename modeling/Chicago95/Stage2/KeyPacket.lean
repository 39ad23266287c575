/-
# Chicago95.Stage2.KeyPacket — key packets, written and read again.

`pgp_key_to_pkt` works out the length of the body before it has the numbers: it counts 8 bytes where a key
begins with 6, and takes the five numbers after `d` to have four times the bytes of `n` together. A public
key therefore never has its length, and a private key has it where these two errors cancel.
-/
import Chicago95.Stage2.PgpPacket

namespace Chicago95.Stage2.Pgp

open Chicago95.Stage2.Mpi

/-- A key whose exponent fits `e_buf`. -/
structure SizedKey extends PgpKey where
  e_fits : rsa.e.pgpMpiToBytes.length ≤ eBufSize

/-- The numbers of a key that a packet has. -/
def numbers (isPrivate : UInt8) (rsa : PgpRsaKeyPair) : List Mpi :=
  [rsa.n, rsa.e] ++ if isPrivate ≠ 0 then [rsa.d, rsa.p, rsa.q, rsa.dp, rsa.dq, rsa.qinv] else []

/-- **The key comes back**, and its length is the one of the body. -/
def KeyRoundTrip (frame : HashFrame) (key : PgpKey) : Prop :=
  keyBodyLen key = (keyBody key).length ∧
    ∃ read, pgpKeyFromPkt frame (pgpKeyToPkt key) = .ok read ∧ read.key.version = key.version ∧
      read.key.timestamp = key.timestamp ∧ read.key.algo = key.algo ∧
      (read.key.isPrivate ≠ 0 ↔ key.isPrivate ≠ 0) ∧
      (numbers key.isPrivate read.key.rsa).map Mpi.val = (numbers key.isPrivate key.rsa).map Mpi.val

/-- The word of the digest that is written over the time. -/
def timeOf (digest : List UInt8) : Nat :=
  (digest.getD 20 0).toNat + (digest.getD 21 0).toNat * 2 ^ 8 + (digest.getD 22 0).toNat * 2 ^ 16 +
    (digest.getD 23 0).toNat * 2 ^ 24

/-- The digest that is written over the fields of a private key is what they hold. -/
def DigestAgrees (key : PgpKey) (digest : List UInt8) : Prop :=
  timeOf digest = key.timestamp.toNat ∧ digest.getD 24 0 = key.version ∧ digest.getD 25 0 = key.algo ∧
    digest.getD 26 0 ≠ 0

/-! ## The length -/

/-- The packet forms of the numbers after `d` have two bytes more than four times the one of `n`. -/
def LengthsCancel (rsa : PgpRsaKeyPair) : Prop :=
  rsa.p.byteLen + rsa.q.byteLen + rsa.dp.byteLen + rsa.dq.byteLen + rsa.qinv.byteLen = 4 * rsa.n.byteLen

theorem bodyLen_eq_iff (key : PgpKey) :
    keyBodyLen key = (keyBody key).length ↔ key.isPrivate ≠ 0 ∧ LengthsCancel key.rsa := by
  unfold keyBodyLen keyBody LengthsCancel
  by_cases hpriv : key.isPrivate ≠ 0
  · rw [if_pos hpriv, if_pos hpriv, and_iff_right hpriv]
    simp only [List.length_append, List.length_cons, List.length_nil, length_be32, length_toBytes]
    omega
  · rw [if_neg hpriv, if_neg hpriv, iff_false_right fun h => hpriv h.1]
    simp only [List.length_append, List.length_cons, List.length_nil, length_be32, length_toBytes]
    omega

theorem keyBodyLen_lt (key : PgpKey) : keyBodyLen key < 2 ^ 16 := by
  have hn := key.rsa.n.byteLen_le
  have he := key.rsa.e.byteLen_le
  have hd := key.rsa.d.byteLen_le
  unfold keyBodyLen
  simp only [length_toBytes]
  split <;> omega

/-! ## Reading -/

/-- A number that has been written and read. -/
def reread (a : Mpi) : Mpi := pgpMpiFromBytes a.pgpMpiToBytes

/-- All of a key's. -/
def rereadRsa (rsa : PgpRsaKeyPair) : PgpRsaKeyPair :=
  { n := reread rsa.n, e := reread rsa.e, d := reread rsa.d, p := reread rsa.p, q := reread rsa.q,
    dp := reread rsa.dp, dq := reread rsa.dq, qinv := reread rsa.qinv }

theorem readMpiOpt_toBytes (a : Mpi) (rest : List UInt8) :
    readMpiOpt (a.pgpMpiToBytes ++ rest) = .ok (reread a, rest) := by
  have hlen : ¬ (a.pgpMpiToBytes ++ rest).length < 2 := by
    rw [List.length_append, length_toBytes]
    omega
  unfold readMpiOpt
  rw [if_neg hlen, readMpi_toBytes]
  rfl

/-- The private part of a body. -/
def privateBody (rsa : PgpRsaKeyPair) : List UInt8 :=
  6 :: (rsa.d.pgpMpiToBytes ++ (rsa.p.pgpMpiToBytes ++ (rsa.q.pgpMpiToBytes ++ (rsa.dp.pgpMpiToBytes ++
    (rsa.dq.pgpMpiToBytes ++ (rsa.qinv.pgpMpiToBytes ++ []))))))

theorem readPrivate_written (rsa : PgpRsaKeyPair) :
    readPrivate { n := reread rsa.n, e := reread rsa.e } (privateBody rsa) = .ok (rereadRsa rsa) := by
  unfold readPrivate privateBody
  rw [byte_cons, ok_bind]
  dsimp only
  rw [need_of_le (by rw [List.length_append, length_toBytes]; omega), ok_bind, readMpi_toBytes, ok_bind]
  simp only [readMpiOpt_toBytes, ok_bind]
  rfl

theorem keyBody_private {key : PgpKey} (hpriv : key.isPrivate ≠ 0) :
    keyBody key = 4 :: (be32 key.timestamp.toNat ++ (key.algo :: (key.rsa.n.pgpMpiToBytes ++
      (key.rsa.e.pgpMpiToBytes ++ privateBody key.rsa)))) := by
  unfold keyBody privateBody
  rw [if_pos hpriv]
  simp only [List.append_assoc, List.cons_append, List.nil_append, List.append_nil]

/-- The digest that is taken of what has been read. -/
def rereadDigest (frame : HashFrame) (key : PgpKey) : List UInt8 :=
  fingerprintDigest frame key.timestamp { n := reread key.rsa.n, e := reread key.rsa.e }

theorem pgpKeyFromPkt_written (frame : HashFrame) {key : PgpKey} (hlen : keyBodyLen key = (keyBody key).length) :
    ∃ read, pgpKeyFromPkt frame (pgpKeyToPkt key) = .ok read ∧ read.key.rsa = rereadRsa key.rsa ∧
      read.key.timestamp = UInt32.ofNat (timeOf (rereadDigest frame key)) ∧
      read.key.version = (rereadDigest frame key).getD 24 0 ∧ read.key.algo = (rereadDigest frame key).getD 25 0 ∧
      read.key.isPrivate = (rereadDigest frame key).getD 26 0 := by
  have hpriv := ((bodyLen_eq_iff key).mp hlen).1
  have hmax := keyBodyLen_lt key
  have hpkt : pgpKeyToPkt key = 0x95 :: (be32 (keyBodyLen key) ++ (keyBody key ++ userIdPacket key)) := by
    unfold pgpKeyToPkt
    rw [if_pos hpriv]
    simp only [List.append_assoc, List.cons_append, List.nil_append]
  have hopen : openPacket (fun tag => decide (tag = 0x99) || decide (tag = 0x95)) (pgpKeyToPkt key) =
      .ok (0x95, keyBody key) := by
    rw [hpkt, openPacket_written (by decide) (by rw [hlen, keyBody_private hpriv]; exact Nat.succ_pos _)
      (by omega), if_neg (by rw [hlen, List.length_append]; omega), hlen, List.take_left]
  -- the body, field by field; none of the checks fails
  unfold pgpKeyFromPkt
  rw [hopen, ok_bind, keyBody_private hpriv]
  dsimp only
  rw [byte_cons, ok_bind]
  dsimp only
  rw [if_neg (by decide), need_of_le (by rw [List.length_append, length_be32]; omega), ok_bind,
    word_be32 key.timestamp.toNat_lt, ok_bind]
  dsimp only
  rw [need_of_le (by simp), ok_bind, byte_cons, ok_bind]
  dsimp only
  rw [readMpi_toBytes, ok_bind]
  dsimp only
  rw [readMpi_toBytes, ok_bind]
  dsimp only
  -- what is left is the private part
  rw [if_pos ⟨Or.inl rfl, List.cons_ne_nil _ _⟩, UInt32.ofNat_toNat]
  show ∃ read, (do
    let rsa ← readPrivate { n := reread key.rsa.n, e := reread key.rsa.e } (privateBody key.rsa)
    _) = Except.ok read ∧ _
  rw [readPrivate_written, ok_bind]
  exact ⟨_, rfl, rfl, rfl, rfl, rfl, rfl⟩

/-! ## The round trip -/

theorem val_reread_iff (a : Mpi) : (reread a).val = a.val ↔ a.Kept := val_fromBytes_toBytes_iff a

theorem toBytes_reread {a : Mpi} (h : a.Kept) : (reread a).pgpMpiToBytes = (mpiNormalize a).pgpMpiToBytes :=
  toBytes_congr (normal_fromBytes _) (normal_mpiNormalize a) (by
    rw [val_mpiNormalize]
    exact (val_reread_iff a).mpr h)

/-- The digest of a key's normalized numbers. -/
def keyDigest (frame : HashFrame) (key : PgpKey) : List UInt8 :=
  fingerprintDigest frame key.timestamp { n := mpiNormalize key.rsa.n, e := mpiNormalize key.rsa.e }

theorem fingerprintDigest_congr (frame : HashFrame) (timestamp : UInt32) {a b : PgpRsaKey}
    (hn : a.n.pgpMpiToBytes = b.n.pgpMpiToBytes) (he : a.e.pgpMpiToBytes = b.e.pgpMpiToBytes) :
    fingerprintDigest frame timestamp a = fingerprintDigest frame timestamp b := by
  unfold fingerprintDigest
  rw [hn, he]

theorem rereadDigest_eq (frame : HashFrame) {key : PgpKey} (hn : key.rsa.n.Kept) (he : key.rsa.e.Kept) :
    rereadDigest frame key = keyDigest frame key :=
  fingerprintDigest_congr frame key.timestamp (toBytes_reread hn) (toBytes_reread he)

theorem map_val_reread_iff (key : PgpKey) :
    (numbers key.isPrivate (rereadRsa key.rsa)).map Mpi.val = (numbers key.isPrivate key.rsa).map Mpi.val ↔
      ∀ a ∈ numbers key.isPrivate key.rsa, a.Kept := by
  have hmap : numbers key.isPrivate (rereadRsa key.rsa) = (numbers key.isPrivate key.rsa).map reread := by
    unfold numbers rereadRsa
    split <;> rfl
  rw [hmap, List.map_map, List.map_inj_left]
  refine forall₂_congr fun a _ => ?_
  rw [Function.comp_apply]
  exact val_reread_iff a

/-- **When a key comes back**: it is private, the lengths of its numbers make up for what the length leaves out,
each number keeps its highest limb, and the digest has the fields that it is written over. -/
theorem key_roundTrip_iff (frame : HashFrame) (key : SizedKey) :
    KeyRoundTrip frame key.toPgpKey ↔ key.isPrivate ≠ 0 ∧ LengthsCancel key.rsa ∧
      (∀ a ∈ numbers key.isPrivate key.rsa, a.Kept) ∧ DigestAgrees key.toPgpKey (keyDigest frame key.toPgpKey) := by
  have hfour : ∀ {digest : List UInt8} {time : UInt32},
      UInt32.ofNat (timeOf digest) = time ↔ timeOf digest = time.toNat := by
    intro digest time
    have hlt : timeOf digest < 2 ^ 32 := by
      have h0 := (digest.getD 20 0).toNat_lt
      have h1 := (digest.getD 21 0).toNat_lt
      have h2 := (digest.getD 22 0).toNat_lt
      have h3 := (digest.getD 23 0).toNat_lt
      unfold timeOf
      omega
    rw [← UInt32.toNat_inj, UInt32.toNat_ofNat_of_lt' hlt]
  unfold KeyRoundTrip
  constructor
  · rintro ⟨hlen, read, hread, hversion, htime, halgo, hflag, hval⟩
    obtain ⟨hpriv, hcancel⟩ := (bodyLen_eq_iff _).mp hlen
    obtain ⟨read', hread', hrsa, htime', hversion', halgo', hflag'⟩ := pgpKeyFromPkt_written frame hlen
    obtain rfl : read = read' := Except.ok.inj (hread.symm.trans hread')
    rw [hrsa, map_val_reread_iff] at hval
    -- the numbers are kept, so that the digest is the one of the key
    rw [rereadDigest_eq frame (hval _ (by simp [numbers])) (hval _ (by simp [numbers]))]
      at htime' hversion' halgo' hflag'
    rw [htime'] at htime
    rw [hversion'] at hversion
    rw [halgo'] at halgo
    rw [hflag'] at hflag
    exact ⟨hpriv, hcancel, hval, hfour.mp htime, hversion, halgo, hflag.mpr hpriv⟩
  · rintro ⟨hpriv, hcancel, hkept, htime, hversion, halgo, hflag⟩
    have hlen := (bodyLen_eq_iff key.toPgpKey).mpr ⟨hpriv, hcancel⟩
    obtain ⟨read, hread, hrsa, htime', hversion', halgo', hflag'⟩ := pgpKeyFromPkt_written frame hlen
    rw [rereadDigest_eq frame (hkept _ (by simp [numbers])) (hkept _ (by simp [numbers]))]
      at htime' hversion' halgo' hflag'
    refine ⟨hlen, read, hread, hversion'.trans hversion, htime'.trans (hfour.mpr htime), halgo'.trans halgo,
      ?_, ?_⟩
    · rw [hflag']
      exact iff_of_true hflag hpriv
    · rw [hrsa]
      exact (map_val_reread_iff _).mpr hkept

theorem public_refused (frame : HashFrame) {key : PgpKey} (hpublic : key.isPrivate = 0) (hid : key.userIdLen = 0) :
    pgpKeyFromPkt frame (pgpKeyToPkt key) = .error (.err pgpErrFormat) := by
  have hmax := keyBodyLen_lt key
  have hpkt : pgpKeyToPkt key = 0x99 :: (be32 (keyBodyLen key) ++ keyBody key) := by
    unfold pgpKeyToPkt userIdPacket
    rw [if_neg (not_not.mpr hpublic), if_neg (by omega), List.append_nil]
    rfl
  -- two bytes are missing
  have hshort : (keyBody key).length < keyBodyLen key := by
    unfold keyBody keyBodyLen
    rw [if_neg (not_not.mpr hpublic), if_neg (not_not.mpr hpublic)]
    simp only [List.length_append, List.length_cons, List.length_nil, length_be32]
    omega
  unfold pgpKeyFromPkt
  rw [hpkt, openPacket_written (by decide) (by omega) (by omega), if_pos hshort, error_bind]

/-- A public key with the exponent 65537 and a modulus of 2048 bits. -/
def publicKey : SizedKey :=
  { keyId := Vector.replicate 8 0, fingerprint := Vector.replicate 20 0, timestamp := 0, version := 4
    algo := 1, isPrivate := 0, userId := Vector.replicate 128 0, userIdLen := 0
    userIdLen_le := Nat.zero_le _
    rsa := { n := mpiOf (2 ^ 2048 - 1), e := pgpMpiSetU32 65537, d := pgpMpiZero, p := pgpMpiZero
             q := pgpMpiZero, dp := pgpMpiZero, dq := pgpMpiZero, qinv := pgpMpiZero }
    e_fits := by decide }

/-- A stack of zeros. -/
def zeroFrame : HashFrame := { buffer := Vector.replicate 64 0, stack := Vector.replicate 64 0 }

/-- **A key that is refused**, and whose length is not the one of its body. -/
theorem publicKey_refused : pgpKeyFromPkt zeroFrame (pgpKeyToPkt publicKey.toPgpKey) = .error (.err pgpErrFormat) ∧
      ¬ KeyRoundTrip zeroFrame publicKey.toPgpKey :=
  ⟨public_refused zeroFrame rfl rfl, fun h => ((bodyLen_eq_iff _).mp h.1).1 rfl⟩

end Chicago95.Stage2.Pgp
