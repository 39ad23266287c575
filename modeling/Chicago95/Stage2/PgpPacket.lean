/-
# Chicago95.Stage2.PgpPacket — the packets of `security/common/pgp/pgp.c`: keys and signatures.

The writers put a packet together byte by byte, with the length of its body worked out beforehand. The
readers go through the body with checks of what is left of it before each field; here a reader has the rest
of the body as a list, and `Stop.outside` is an access that is not in it. No position in a packet comes near
`2 ^ 32`, so that only the length of the body, which the packet gives, can wrap.
-/
import Chicago95.Stage2.PgpMpi
import Chicago95.Stage2.Pkcs1
import Chicago95.Stage2.Sha2

namespace Chicago95.Stage2.Pgp

open Chicago95.Stage2.Mpi

/-! ## Records -/

def pgpErrDecrypt : Int := -6
def pgpErrFormat : Int := -7

/-- `pgp_rsa_key_t` -/
structure PgpRsaKeyPair extends PgpRsaKey where
  d : Mpi
  p : Mpi
  q : Mpi
  dp : Mpi
  dq : Mpi
  qinv : Mpi

/-- `sizeof(key->user_id)` -/
def userIdSize : Nat := 128

/-- `pgp_key_t` -/
structure PgpKey where
  keyId : Vector UInt8 8
  fingerprint : Vector UInt8 20
  timestamp : UInt32
  version : UInt8
  algo : UInt8
  isPrivate : UInt8
  userId : Vector UInt8 128
  userIdLen : Nat
  userIdLen_le : userIdLen ≤ userIdSize
  rsa : PgpRsaKeyPair

/-- What a packet has of `pgp_signature_t`. -/
structure PgpSignature where
  version : UInt8
  sigType : UInt8
  hashAlgo : UInt8
  keyId : Vector UInt8 8
  timestamp : UInt32
  sigVal : Mpi

/-! ## Reading -/

/-- How a reader ends before its time: with an error code, with an access outside of what it reads or
writes, or not at all. -/
inductive Stop
  | err (code : Int)
  | outside
  | unfinished
  deriving DecidableEq

/-- Four bytes of a word, the highest first. -/
def be32 (x : Nat) : List UInt8 :=
  [UInt8.ofNat (x / 2 ^ 24), UInt8.ofNat (x / 2 ^ 16), UInt8.ofNat (x / 2 ^ 8), UInt8.ofNat x]

/-- `if (pos + n > body_end) return PGP_ERR_FORMAT;` -/
def need (n : Nat) (body : List UInt8) : Except Stop Unit :=
  if body.length < n then .error (.err pgpErrFormat) else .ok ()

/-- `buf[pos++]` -/
def byte : List UInt8 → Except Stop (UInt8 × List UInt8)
  | [] => .error .outside
  | b :: rest => .ok (b, rest)

/-- The next `n` bytes. -/
def takeBytes (n : Nat) (body : List UInt8) : Except Stop (List UInt8 × List UInt8) :=
  if body.length < n then .error .outside else .ok (body.take n, body.drop n)

/-- A word of four bytes. -/
def word (body : List UInt8) : Except Stop (UInt32 × List UInt8) := do
  let (bytes, rest) ← takeBytes 4 body
  .ok (UInt32.ofNat (bytes.foldl (fun x b => x * 256 + b.toNat) 0), rest)

/-- The tag and the body of a packet, which the readers of keys and signatures begin with. -/
def openPacket (accepts : UInt8 → Bool) (buf : List UInt8) : Except Stop (UInt8 × List UInt8) := do
  need 1 buf
  let (tag, rest) ← byte buf
  if accepts tag = false then .error (.err pgpErrFormat)
  need 4 rest
  let (bodyLen, rest) ← word rest
  let bodyEnd := (5 + bodyLen.toNat) % 2 ^ 32
  if buf.length < bodyEnd then .error (.err pgpErrFormat)
  if bodyEnd ≤ 5 then .error (.err pgpErrFormat)
  .ok (tag, rest.take (bodyEnd - 5))

/-- A number in a body. -/
def readMpi (body : List UInt8) : Except Stop (Mpi × List UInt8) := do
  need 2 body
  let bytes := (headerBits body + 7) / 8 + 2
  need bytes body
  let (number, rest) ← takeBytes bytes body
  .ok (pgpMpiFromBytes number, rest)

/-- One of the numbers of a private key that can be missing at the end. -/
def readMpiOpt (body : List UInt8) : Except Stop (Mpi × List UInt8) :=
  if body.length < 2 then .ok (pgpMpiZero, body) else readMpi body

/-! ## Signatures -/

def pgpSigToPkt (sig : PgpSignature) : List UInt8 :=
  let sigBuf := sig.sigVal.pgpMpiToBytes
  let bodyLen := 2 + 8 + 2 + sigBuf.length
  [0x89] ++ be32 bodyLen ++ [4, sig.sigType, sig.hashAlgo, 2] ++ be32 sig.timestamp.toNat ++
    sig.keyId.toList ++ sigBuf

def pgpSigFromPkt (buf : List UInt8) : Except Stop PgpSignature := do
  let (_, body) ← openPacket (fun tag => decide (tag = 0x89)) buf
  let (version, body) ← byte body
  if version ≠ 4 then .error (.err pgpErrFormat)
  need 1 body
  let (sigType, body) ← byte body
  need 1 body
  let (hashAlgo, body) ← byte body
  need 1 body
  let (hashStartLen, body) ← byte body
  need (hashStartLen.toNat + 8) body
  let (_, body) ← takeBytes hashStartLen.toNat body
  need 4 body
  let (timestamp, body) ← word body
  need 8 body
  let (keyId, body) ← takeBytes 8 body
  let (sigVal, _) ← readMpi body
  .ok { version := version, sigType := sigType, hashAlgo := hashAlgo,
        keyId := Vector.ofFn fun i => keyId.getD i 0, timestamp := timestamp, sigVal := sigVal }

/-! ## Keys -/

/-- `body_len` of `pgp_key_to_pkt`. -/
def keyBodyLen (key : PgpKey) : Nat :=
  let nLen := key.rsa.n.pgpMpiToBytes.length
  let bodyLen := 8 + nLen + key.rsa.e.pgpMpiToBytes.length
  if key.isPrivate ≠ 0 then bodyLen + (1 + key.rsa.d.pgpMpiToBytes.length + nLen * 4) else bodyLen

/-- The body that it writes. -/
def keyBody (key : PgpKey) : List UInt8 :=
  [4] ++ be32 key.timestamp.toNat ++ [key.algo] ++ key.rsa.n.pgpMpiToBytes ++ key.rsa.e.pgpMpiToBytes ++
    if key.isPrivate ≠ 0 then
      [6] ++ key.rsa.d.pgpMpiToBytes ++ key.rsa.p.pgpMpiToBytes ++ key.rsa.q.pgpMpiToBytes ++
        key.rsa.dp.pgpMpiToBytes ++ key.rsa.dq.pgpMpiToBytes ++ key.rsa.qinv.pgpMpiToBytes
    else []

/-- The user id, as a packet of its own. -/
def userIdPacket (key : PgpKey) : List UInt8 :=
  if 0 < key.userIdLen then [0xBD] ++ be32 key.userIdLen ++ key.userId.toList.take key.userIdLen else []

def pgpKeyToPkt (key : PgpKey) : List UInt8 :=
  [if key.isPrivate ≠ 0 then 0x95 else 0x99] ++ be32 (keyBodyLen key) ++ keyBody key ++ userIdPacket key

/-- What the stack holds where the hash context and the buffer of `sec_sha256_final` lie. -/
structure HashFrame where
  buffer : Vector UInt8 64
  stack : Vector UInt8 64

/-- The digest that `compute_fingerprint` takes of a key. -/
def fingerprintDigest (frame : HashFrame) (timestamp : UInt32) (rsa : PgpRsaKey) : List UInt8 :=
  let nBuf := rsa.n.pgpMpiToBytes
  let eBuf := rsa.e.pgpMpiToBytes
  let totalLen := 1 + 4 + nBuf.length + eBuf.length
  sha256Stream frame.buffer frame.stack
    [[0x99, UInt8.ofNat (totalLen / 2 ^ 8), UInt8.ofNat totalLen], 4 :: be32 timestamp.toNat, nBuf, eBuf]

/-- `sizeof(e_buf)` -/
def eBufSize : Nat := 8
def pgpFingerprintLen : Nat := 20

/-- The 32 bytes of a digest written to `key->fingerprint`: the last twelve go to `timestamp`, `version`,
`algo`, `is_private` and the beginning of `user_id`. -/
def putFingerprint (key : PgpKey) (digest : Nat → UInt8) : PgpKey :=
  { key with
    fingerprint := Vector.ofFn fun i => digest i
    timestamp := UInt32.ofNat ((digest 20).toNat + (digest 21).toNat * 2 ^ 8 + (digest 22).toNat * 2 ^ 16 +
      (digest 23).toNat * 2 ^ 24)
    version := digest 24
    algo := digest 25
    isPrivate := digest 26
    userId := Vector.ofFn fun i => if i.val < 5 then digest (27 + i) else key.userId[i] }

/-- What reading a key leaves: the key, and whether an array has been written past its end. -/
structure ReadKey where
  key : PgpKey
  overrun : Bool

/-- The components that only a private key has. -/
def readPrivate (pub : PgpRsaKey) (body : List UInt8) : Except Stop PgpRsaKeyPair := do
  let (_, body) ← byte body
  need 1 body
  let (d, body) ← readMpi body
  let (p, body) ← readMpiOpt body
  let (q, body) ← readMpiOpt body
  let (dp, body) ← readMpiOpt body
  let (dq, body) ← readMpiOpt body
  let (qinv, _) ← readMpiOpt body
  .ok { pub with d := d, p := p, q := q, dp := dp, dq := dq, qinv := qinv }

def pgpKeyFromPkt (frame : HashFrame) (buf : List UInt8) : Except Stop ReadKey := do
  let (tag, body) ← openPacket (fun tag => decide (tag = 0x99) || decide (tag = 0x95)) buf
  let isPrivate := tag = 0x95 ∨ tag = 0xBF
  let (version, body) ← byte body
  if version ≠ 4 then .error (.err pgpErrFormat)
  need 4 body
  let (timestamp, body) ← word body
  need 1 body
  let (algo, body) ← byte body
  let (n, body) ← readMpi body
  let (e, body) ← readMpi body
  let pub : PgpRsaKey := { n := n, e := e }
  let rsa ←
    if isPrivate ∧ body ≠ [] then readPrivate pub body
    else .ok { pub with d := pgpMpiZero, p := pgpMpiZero, q := pgpMpiZero, dp := pgpMpiZero,
                        dq := pgpMpiZero, qinv := pgpMpiZero }
  let key : PgpKey :=
    { keyId := Vector.replicate 8 0, fingerprint := Vector.replicate 20 0, timestamp := timestamp
      version := version, algo := algo, isPrivate := if isPrivate then 1 else 0
      userId := Vector.replicate 128 0, userIdLen := 0, userIdLen_le := Nat.zero_le _, rsa := rsa }
  let digest := fingerprintDigest frame timestamp pub
  let key := putFingerprint key fun i => digest.getD i 0
  .ok { key := { key with keyId := Vector.ofFn fun i => key.fingerprint.toList.getD (12 + i.val) 0 }
        overrun := decide (eBufSize < e.pgpMpiToBytes.length) || decide (pgpFingerprintLen < digest.length) }

/-! ## Readers on a body they find enough in -/

section Readers

variable {α β : Type}

@[simp] theorem ok_bind (x : α) (f : α → Except Stop β) : (Except.ok x >>= f) = f x := rfl

@[simp] theorem error_bind (e : Stop) (f : α → Except Stop β) : (Except.error e >>= f) = .error e := rfl

theorem bind_eq_ok {x : Except Stop α} {f : α → Except Stop β} {b : β} :
    (x >>= f) = .ok b ↔ ∃ a, x = .ok a ∧ f a = .ok b := by
  cases x with
  | error e => simp
  | ok a => simp

theorem guard_eq_ok {p : Prop} [Decidable p] {e : Stop} {f : α → Except Stop β} {k : Except Stop β} {b : β} :
    (if p then Except.error e >>= f else k) = .ok b ↔ ¬ p ∧ k = .ok b := by
  by_cases hp : p
  · simp [hp]
  · simp [hp]

theorem need_of_le {n : Nat} {body : List UInt8} (h : n ≤ body.length) : need n body = .ok () :=
  if_neg (Nat.not_lt.mpr h)

theorem need_of_lt {n : Nat} {body : List UInt8} (h : body.length < n) :
    need n body = .error (.err pgpErrFormat) := if_pos h

@[simp] theorem byte_cons (b : UInt8) (rest : List UInt8) : byte (b :: rest) = .ok (b, rest) := rfl

theorem takeBytes_append {n : Nat} {bytes rest : List UInt8} (h : bytes.length = n) :
    takeBytes n (bytes ++ rest) = .ok (bytes, rest) := by
  subst h
  unfold takeBytes
  rw [if_neg (by rw [List.length_append]; omega), List.take_left, List.drop_left]

theorem length_be32 (x : Nat) : (be32 x).length = 4 := rfl

theorem foldl_be32 (x : Nat) (hx : x < 2 ^ 32) : (be32 x).foldl (fun y b => y * 256 + b.toNat) 0 = x := by
  unfold be32
  simp only [List.foldl_cons, List.foldl_nil, UInt8.toNat_ofNat']
  omega

theorem be32_foldl (a b c d : UInt8) : be32 ([a, b, c, d].foldl (fun y b => y * 256 + b.toNat) 0) = [a, b, c, d] := by
  have ha := a.toNat_lt
  have hb := b.toNat_lt
  have hc := c.toNat_lt
  have hd := d.toNat_lt
  unfold be32
  simp only [List.foldl_cons, List.foldl_nil, List.cons.injEq, ← UInt8.toNat_inj, UInt8.toNat_ofNat',
    and_true]
  omega

theorem word_append {bytes rest : List UInt8} (h : bytes.length = 4) :
    word (bytes ++ rest) = .ok (UInt32.ofNat (bytes.foldl (fun x b => x * 256 + b.toNat) 0), rest) := by
  unfold word
  rw [takeBytes_append h]
  rfl

theorem word_be32 {x : Nat} (hx : x < 2 ^ 32) (rest : List UInt8) :
    word (be32 x ++ rest) = .ok (UInt32.ofNat x, rest) := by
  rw [word_append (length_be32 x), foldl_be32 x hx]

theorem word_eq_iff {bytes : List UInt8} (h : bytes.length = 4) {x : UInt32} :
    UInt32.ofNat (bytes.foldl (fun x b => x * 256 + b.toNat) 0) = x ↔ bytes = be32 x.toNat := by
  match bytes, h with
  | [a, b, c, d], _ =>
    have hlt : [a, b, c, d].foldl (fun x b => x * 256 + b.toNat) 0 < 2 ^ 32 := by
      have ha := a.toNat_lt
      have hb := b.toNat_lt
      have hc := c.toNat_lt
      have hd := d.toNat_lt
      simp only [List.foldl_cons, List.foldl_nil]
      omega
    constructor
    · intro hx
      rw [← hx, UInt32.toNat_ofNat_of_lt' hlt, be32_foldl]
    · intro hx
      rw [hx, foldl_be32 _ x.toNat_lt, UInt32.ofNat_toNat]

theorem openPacket_written {accepts : UInt8 → Bool} {tag : UInt8} (htag : accepts tag = true)
    {bodyLen : Nat} (hpos : 0 < bodyLen) (hmax : 5 + bodyLen < 2 ^ 32) (rest : List UInt8) :
    openPacket accepts (tag :: (be32 bodyLen ++ rest)) =
      if rest.length < bodyLen then .error (.err pgpErrFormat) else .ok (tag, rest.take bodyLen) := by
  have hword : (UInt32.ofNat bodyLen).toNat = bodyLen :=
    UInt32.toNat_ofNat_of_lt' (Nat.lt_of_le_of_lt (Nat.le_add_left _ _) hmax)
  have hlen : (tag :: (be32 bodyLen ++ rest)).length = 5 + rest.length := by
    rw [List.length_cons, List.length_append, length_be32]
    omega
  unfold openPacket
  rw [need_of_le (by rw [hlen]; omega), ok_bind, byte_cons, ok_bind]
  dsimp only
  rw [htag, if_neg (by decide), need_of_le (by rw [List.length_append, length_be32]; omega), ok_bind,
    word_be32 (by omega), ok_bind]
  dsimp only
  rw [hword, Nat.mod_eq_of_lt hmax, hlen, if_neg (Nat.not_le.mpr (by omega)), Nat.add_sub_cancel_left]
  by_cases hroom : rest.length < bodyLen
  · rw [if_pos (by omega), if_pos hroom]
    rfl
  · rw [if_neg (by omega), if_neg hroom]

theorem readMpi_toBytes (a : Mpi) (rest : List UInt8) :
    readMpi (a.pgpMpiToBytes ++ rest) = .ok (pgpMpiFromBytes a.pgpMpiToBytes, rest) := by
  have hbits : headerBits (a.pgpMpiToBytes ++ rest) = a.bitLen := headerBits_toBytes a
  have hlen : a.pgpMpiToBytes.length = (a.bitLen + 7) / 8 + 2 := length_toBytes a
  have hroom : a.pgpMpiToBytes.length ≤ (a.pgpMpiToBytes ++ rest).length := by
    rw [List.length_append]
    omega
  unfold readMpi
  rw [need_of_le (by omega), ok_bind, hbits]
  dsimp only
  rw [need_of_le (by omega), ok_bind, takeBytes_append hlen, ok_bind]

theorem readMpi_eq_ok_iff {body rest : List UInt8} {x : Mpi} : readMpi body = .ok (x, rest) ↔
      (headerBits body + 7) / 8 + 2 ≤ body.length ∧ pgpMpiFromBytes (body.take ((headerBits body + 7) / 8 + 2)) = x ∧
        body.drop ((headerBits body + 7) / 8 + 2) = rest := by
  unfold readMpi
  by_cases hroom : (headerBits body + 7) / 8 + 2 ≤ body.length
  · rw [need_of_le (by omega), ok_bind]
    dsimp only
    rw [need_of_le hroom, ok_bind]
    unfold takeBytes
    rw [if_neg (Nat.not_lt.mpr hroom), ok_bind, Except.ok.injEq, Prod.mk.injEq]
    simp only [hroom, true_and]
  · refine iff_of_false (fun h => ?_) fun h => hroom h.1
    by_cases htwo : 2 ≤ body.length
    · rw [need_of_le htwo, ok_bind] at h
      dsimp only at h
      rw [need_of_lt (Nat.lt_of_not_le hroom), error_bind] at h
      cases h
    · rw [need_of_lt (Nat.lt_of_not_le htwo), error_bind] at h
      cases h

theorem headerBits_lt (buf : List UInt8) : headerBits buf < 2 ^ 16 := by
  have h0 := (buf.getD 0 0).toNat_lt
  have h1 := (buf.getD 1 0).toNat_lt
  unfold headerBits
  omega

theorem headerBits_take {buf : List UInt8} {n : Nat} (hn : 2 ≤ n) : headerBits (buf.take n) = headerBits buf := by
  unfold headerBits
  simp only [List.getD_eq_getElem?_getD]
  rw [List.getElem?_take_of_lt (by omega), List.getElem?_take_of_lt (by omega)]

theorem readLen_take {body : List UInt8} (hroom : (headerBits body + 7) / 8 + 2 ≤ body.length) :
    readLen (body.take ((headerBits body + 7) / 8 + 2)) = (headerBits body + 7) / 8 := by
  have hbits := headerBits_lt body
  unfold readLen
  rw [headerBits_take (by omega), List.length_take]
  omega

end Readers

end Chicago95.Stage2.Pgp
