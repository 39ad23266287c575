/-
# Chicago95.Stage2.SigPacket — signature packets, written and read again.

`pgp_sig_to_pkt` gives the body 4 bytes less than it writes, and tells the reader that 2 bytes of a hash
stand before the time, which it does not write. `pgp_sig_from_pkt` takes the first half of the time for
these, and reads each field 2 bytes too far on; of `sig_val` it takes the first two bytes of the number for
its length.
-/
import Chicago95.Stage2.PgpPacket

namespace Chicago95.Stage2.Pgp

open Chicago95.Stage2.Mpi Chicago95.Lib.Digits

/-- **The signature comes back.** -/
def SigRoundTrip (sig : PgpSignature) : Prop :=
  ∃ sig', pgpSigFromPkt (pgpSigToPkt sig) = .ok sig' ∧ sig'.sigType = sig.sigType ∧
    sig'.hashAlgo = sig.hashAlgo ∧ sig'.timestamp = sig.timestamp ∧ sig'.keyId = sig.keyId ∧
    sig'.sigVal.val = sig.sigVal.val

/-- The two bytes that the packet form of a number begins with. -/
def countBytes (a : Mpi) : List UInt8 := [UInt8.ofNat (a.bitLen / 256), UInt8.ofNat a.bitLen]

/-- The bytes that are read for the time. -/
def timeRead (sig : PgpSignature) : List UInt8 :=
  (be32 sig.timestamp.toNat).drop 2 ++ sig.keyId.toList.take 2

/-- The bytes that are read for the key id. -/
def keyIdRead (sig : PgpSignature) : List UInt8 := sig.keyId.toList.drop 2 ++ countBytes sig.sigVal

/-- What is read of a packet besides the number. -/
def sigRead (sig : PgpSignature) (sigVal : Mpi) : PgpSignature :=
  { version := 4, sigType := sig.sigType, hashAlgo := sig.hashAlgo,
    keyId := Vector.ofFn fun i => (keyIdRead sig).getD i 0,
    timestamp := UInt32.ofNat ((timeRead sig).foldl (fun x b => x * 256 + b.toNat) 0), sigVal := sigVal }

section Packet

variable (sig : PgpSignature)

theorem length_timeRead : (timeRead sig).length = 4 := by
  unfold timeRead
  rw [List.length_append, List.length_drop, length_be32, List.length_take, Vector.length_toList]
  rfl

theorem length_keyIdRead : (keyIdRead sig).length = 8 := by
  unfold keyIdRead countBytes
  rw [List.length_append, List.length_drop, Vector.length_toList]
  rfl

theorem pgpSigToPkt_eq : pgpSigToPkt sig =
    0x89 :: (be32 (14 + sig.sigVal.byteLen) ++ (4 :: sig.sigType :: sig.hashAlgo :: 2 ::
      ((be32 sig.timestamp.toNat).take 2 ++ (timeRead sig ++ (keyIdRead sig ++ sig.sigVal.dataBytes))))) := by
  have hbody : 2 + 8 + 2 + sig.sigVal.pgpMpiToBytes.length = 14 + sig.sigVal.byteLen := by
    rw [length_toBytes]
    omega
  have hnumber : sig.sigVal.pgpMpiToBytes = countBytes sig.sigVal ++ sig.sigVal.dataBytes := rfl
  have htime : be32 sig.timestamp.toNat =
      (be32 sig.timestamp.toNat).take 2 ++ (be32 sig.timestamp.toNat).drop 2 :=
    (List.take_append_drop _ _).symm
  have hid : sig.keyId.toList = sig.keyId.toList.take 2 ++ sig.keyId.toList.drop 2 :=
    (List.take_append_drop _ _).symm
  unfold pgpSigToPkt timeRead keyIdRead
  dsimp only
  rw [hbody]
  conv_lhs => rw [hnumber, htime, hid]
  simp only [List.append_assoc, List.cons_append, List.nil_append]

theorem pgpSigFromPkt_written : pgpSigFromPkt (pgpSigToPkt sig) =
    if sig.sigVal.byteLen < 4 then .error (.err pgpErrFormat)
    else (readMpi (sig.sigVal.dataBytes.take (sig.sigVal.byteLen - 4))).map fun read => sigRead sig read.1 := by
  have hmax := sig.sigVal.byteLen_le
  have hhead : ((be32 sig.timestamp.toNat).take 2).length = 2 := rfl
  have htwo : UInt8.toNat 2 = 2 := rfl
  have htime := length_timeRead sig
  have hid := length_keyIdRead sig
  have hdata := length_dataBytes sig.sigVal
  obtain ⟨rest, hrest⟩ : ∃ rest, rest = (keyIdRead sig ++ sig.sigVal.dataBytes).take (4 + sig.sigVal.byteLen) :=
    ⟨_, rfl⟩
  have hlen : rest.length = 4 + sig.sigVal.byteLen := by
    rw [hrest, List.length_take, List.length_append, hid, hdata]
    omega
  -- what of the body is left after the head
  have htake : ∀ head : List UInt8, head.length = 2 →
      (4 :: sig.sigType :: sig.hashAlgo :: 2 :: (head ++ (timeRead sig ++
        (keyIdRead sig ++ sig.sigVal.dataBytes)))).take (14 + sig.sigVal.byteLen) =
      4 :: sig.sigType :: sig.hashAlgo :: 2 :: (head ++ (timeRead sig ++ rest)) := by
    intro head hhead
    have hsplit : 14 + sig.sigVal.byteLen = 10 + sig.sigVal.byteLen + 4 := by omega
    have hleft : 10 + sig.sigVal.byteLen - head.length - (timeRead sig).length = 4 + sig.sigVal.byteLen := by
      omega
    rw [hsplit]
    simp only [List.take_succ_cons]
    rw [List.take_append, List.take_append, List.take_of_length_le (by omega),
      List.take_of_length_le (by omega), hleft, hrest]
  rw [pgpSigToPkt_eq]
  unfold pgpSigFromPkt
  rw [openPacket_written (by decide) (by omega) (by omega), if_neg (by
    simp only [List.length_cons, List.length_append, hhead, htime, hid, hdata]
    omega), ok_bind, htake _ hhead]
  dsimp only
  rw [byte_cons, ok_bind]
  dsimp only
  rw [if_neg (by decide), need_of_le (by simp), ok_bind, byte_cons, ok_bind]
  dsimp only
  rw [need_of_le (by simp), ok_bind, byte_cons, ok_bind]
  dsimp only
  rw [need_of_le (by simp), ok_bind, byte_cons, ok_bind]
  dsimp only
  rw [htwo, need_of_le (by simp only [List.length_append, hhead, htime, hlen]; omega), ok_bind,
    takeBytes_append hhead, ok_bind]
  dsimp only
  rw [need_of_le (by rw [List.length_append, htime]; omega), ok_bind, word_append htime, ok_bind]
  dsimp only
  -- the key id takes eight of the `4 + byteLen` bytes that are left
  by_cases hshort : sig.sigVal.byteLen < 4
  · rw [if_pos hshort, need_of_lt (by omega)]
    rfl
  · have hsplit : rest = keyIdRead sig ++ sig.sigVal.dataBytes.take (sig.sigVal.byteLen - 4) := by
      rw [hrest, List.take_append, List.take_of_length_le (by omega), hid]
      congr 2
      omega
    rw [if_neg hshort, need_of_le (by omega), ok_bind, hsplit, takeBytes_append hid, ok_bind]
    dsimp only
    cases readMpi (sig.sigVal.dataBytes.take (sig.sigVal.byteLen - 4)) with
    | error e => rfl
    | ok read => rfl

end Packet

/-! ## The number -/

theorem byteLen_eq {a : Mpi} (hpos : 0 < a.count) : a.byteLen = 4 * (a.count - 1) +
    if a.limbs (a.count - 1) ≠ 0 then ((a.limbs (a.count - 1)).toNat.log2 + 8) / 8 else 0 := by
  unfold byteLen
  rw [bitLen_of_pos hpos]
  split <;> omega

theorem headerBits_dataBytes {a : Mpi} {k : Nat} (hlen : a.byteLen = 4 * (k + 1)) (hlimb : a.limbs k = 0) :
    headerBits a.dataBytes = 0 := by
  have hmax := a.byteLen_le
  have hbyte : ∀ i < 2, a.dataBytes.getD i 0 = 0 := by
    intro i hi
    have hk : limbOf a.byteLen i = k := by
      unfold limbOf
      omega
    have hi' : i < a.byteLen := by omega
    unfold dataBytes
    rw [List.getD_eq_getElem?_getD, List.getElem?_map, List.getElem?_range hi', Option.map_some,
      Option.getD_some, if_pos (limbOf_lt hmax hi'), hk, hlimb, UInt32.toNat_zero, Nat.zero_div]
    rfl
  unfold headerBits
  rw [hbyte 0 (by omega), hbyte 1 (by omega)]
  rfl

theorem val_read_iff {a : Mpi} (hroom : (headerBits a.dataBytes + 7) / 8 + 6 ≤ a.byteLen) :
    (pgpMpiFromBytes (a.dataBytes.take ((headerBits a.dataBytes + 7) / 8 + 2))).val = a.val ↔ a.val = 0 := by
  have hmax := a.byteLen_le
  have hcount := a.byteLen_le_count
  have hdata := length_dataBytes a
  have hread : readLen (a.dataBytes.take ((headerBits a.dataBytes + 7) / 8 + 2)) =
      (headerBits a.dataBytes + 7) / 8 := readLen_take (by omega)
  have hne : a.dataBytes.take ((headerBits a.dataBytes + 7) / 8 + 2) ≠ [] := by
    intro h
    have := congrArg List.length h
    rw [List.length_take, hdata, List.length_nil] at this
    omega
  have hlt := val_fromBytes_lt hne (by omega)
  rw [hread] at hlt
  have hbytes := byteLen_eq (a := a) (by omega)
  -- a limb that is not zero and lies above what is read
  have habove : ∀ k < a.count, ((headerBits a.dataBytes + 7) / 8 + 3) / 4 ≤ k → a.limbs k ≠ 0 →
      (pgpMpiFromBytes (a.dataBytes.take ((headerBits a.dataBytes + 7) / 8 + 2))).val < a.val := by
    intro k hk hle hlimb
    have hdigit : 0 < a.digit k := Nat.pos_of_ne_zero fun h => hlimb (UInt32.toNat_inj.mp h)
    calc (pgpMpiFromBytes (a.dataBytes.take ((headerBits a.dataBytes + 7) / 8 + 2))).val
        < (2 ^ 32) ^ (((headerBits a.dataBytes + 7) / 8 + 3) / 4) := hlt
      _ ≤ (2 ^ 32) ^ k := Nat.pow_le_pow_right (by decide) hle
      _ ≤ a.digit k * (2 ^ 32) ^ k := Nat.le_mul_of_pos_left _ hdigit
      _ ≤ a.val := digit_le_val a hk
  -- the bytes that are read end below the highest limb, or below the next one when that is zero
  by_cases htop : a.limbs (a.count - 1) ≠ 0
  · have hlog : (a.limbs (a.count - 1)).toNat.log2 < 32 :=
      (Nat.log2_lt fun h => htop (UInt32.toNat_inj.mp h)).mpr (a.limbs (a.count - 1)).toNat_lt
    rw [if_pos htop] at hbytes
    have hgt := habove (a.count - 1) (by omega) (by omega) htop
    exact iff_of_false (Nat.ne_of_lt hgt) (Nat.pos_iff_ne_zero.mp (Nat.lt_of_le_of_lt (Nat.zero_le _) hgt))
  · rw [if_neg htop] at hbytes
    by_cases hnext : a.limbs (a.count - 2) ≠ 0
    · have hgt := habove (a.count - 2) (by omega) (by omega) hnext
      exact iff_of_false (Nat.ne_of_lt hgt)
        (Nat.pos_iff_ne_zero.mp (Nat.lt_of_le_of_lt (Nat.zero_le _) hgt))
    · rw [headerBits_dataBytes (k := a.count - 2) (by omega) (not_not.mp hnext)] at hlt ⊢
      have hzero : (pgpMpiFromBytes (a.dataBytes.take ((0 + 7) / 8 + 2))).val = 0 := Nat.lt_one_iff.mp hlt
      rw [hzero]
      exact eq_comm

theorem readMpi_of_val_zero {a : Mpi} (hval : a.val = 0) :
    (headerBits a.dataBytes + 7) / 8 + 6 ≤ a.byteLen ↔ 3 ≤ a.count := by
  have hlimbs : ∀ k < a.count, a.limbs k = 0 := fun k hk =>
    UInt32.toNat_inj.mp ((value_eq_zero_iff (by decide)).mp hval k hk)
  have hcount := a.byteLen_le_count
  constructor
  · intro h
    have hbytes := byteLen_eq (a := a) (by omega)
    rw [if_neg (not_not.mpr (hlimbs _ (by omega)))] at hbytes
    omega
  · intro h
    have hbytes := byteLen_eq (a := a) (by omega)
    rw [if_neg (not_not.mpr (hlimbs _ (by omega)))] at hbytes
    rw [headerBits_dataBytes (k := a.count - 2) (by omega) (hlimbs _ (by omega))]
    omega

/-! ## The round trip -/

theorem drop_append_eq_iff {l c : List UInt8} (hc : c.length = 2) {k : Nat} (hl : l.length = 2 * (k + 1)) :
    l.drop 2 ++ c = l ↔ l = (List.replicate (k + 1) c).flatten := by
  constructor
  · intro h
    -- by induction, `l` ends with as many copies of `c` as fit
    have hstep : ∀ j, 2 * j ≤ l.length → l.drop (2 * j) ++ (List.replicate j c).flatten = l := by
      intro j
      induction j with
      | zero => intro _; simp
      | succ j ih =>
        intro hj
        have hdrop : l.drop (2 * j) = l.drop (2 * (j + 1)) ++ c := by
          conv_lhs => rw [← h]
          rw [List.drop_append, List.drop_drop, List.length_drop]
          rw [show 2 * j - (l.length - 2) = 0 by omega, show 2 + 2 * j = 2 * (j + 1) by omega]
          rfl
        rw [List.replicate_succ, List.flatten_cons, ← List.append_assoc, ← hdrop]
        exact ih (by omega)
    have hall := hstep (k + 1) (by omega)
    rw [← hl, List.drop_length, List.nil_append] at hall
    exact hall.symm
  · intro h
    rw [h]
    conv_lhs => rw [List.replicate_succ, List.flatten_cons, List.drop_append, hc, Nat.sub_self,
      List.drop_of_length_le (by omega), List.nil_append, List.drop_zero]
    rw [List.replicate_succ', List.flatten_append]
    simp

theorem read_eq_iff (sig : PgpSignature) : timeRead sig = be32 sig.timestamp.toNat ∧ keyIdRead sig = sig.keyId.toList ↔
      be32 sig.timestamp.toNat ++ sig.keyId.toList = (List.replicate 6 (countBytes sig.sigVal)).flatten := by
  have hlen : (be32 sig.timestamp.toNat ++ sig.keyId.toList).length = 2 * (5 + 1) := by
    rw [List.length_append, length_be32, Vector.length_toList]
  have hshift : timeRead sig ++ keyIdRead sig =
      (be32 sig.timestamp.toNat ++ sig.keyId.toList).drop 2 ++ countBytes sig.sigVal := by
    unfold timeRead keyIdRead
    rw [List.drop_append_of_le_length (by rw [length_be32]; omega), List.append_assoc, List.append_assoc,
      ← List.append_assoc _ _ (countBytes sig.sigVal), List.take_append_drop]
  rw [← drop_append_eq_iff rfl hlen, ← hshift]
  constructor
  · rintro ⟨htime, hid⟩
    rw [htime, hid]
  · intro h
    exact List.append_inj h (length_timeRead sig)

theorem keyId_eq_iff (sig : PgpSignature) :
    (Vector.ofFn fun i : Fin 8 => (keyIdRead sig).getD i 0) = sig.keyId ↔ keyIdRead sig = sig.keyId.toList := by
  have hlen := length_keyIdRead sig
  rw [← Vector.toList_inj]
  have hlist : (Vector.ofFn fun i : Fin 8 => (keyIdRead sig).getD i 0).toList = keyIdRead sig := by
    refine List.ext_getElem (by rw [Vector.length_toList, hlen]) fun i hi hi' => ?_
    rw [Vector.getElem_toList, Vector.getElem_ofFn, List.getD_eq_getElem?_getD, List.getElem?_eq_getElem hi',
      Option.getD_some]
  rw [hlist]

/-- **When a signature comes back**: the number is zero and has at least three limbs for it, and the time and
the key id are six times the two bytes of the number's length. -/
theorem sig_roundTrip_iff (sig : PgpSignature) : SigRoundTrip sig ↔ sig.sigVal.val = 0 ∧ 3 ≤ sig.sigVal.count ∧
      be32 sig.timestamp.toNat ++ sig.keyId.toList = (List.replicate 6 (countBytes sig.sigVal)).flatten := by
  have hdata := length_dataBytes sig.sigVal
  have hfields : ∀ sigVal, (sigRead sig sigVal).timestamp = sig.timestamp ∧
      (sigRead sig sigVal).keyId = sig.keyId ↔
        be32 sig.timestamp.toNat ++ sig.keyId.toList =
          (List.replicate 6 (countBytes sig.sigVal)).flatten := fun sigVal => by
    rw [← read_eq_iff]
    exact and_congr (word_eq_iff (length_timeRead sig)) (keyId_eq_iff sig)
  have hhead : ∀ n, 2 ≤ n → headerBits (sig.sigVal.dataBytes.take n) = headerBits sig.sigVal.dataBytes :=
    fun n hn => headerBits_take hn
  unfold SigRoundTrip
  rw [pgpSigFromPkt_written]
  constructor
  · rintro ⟨sig', hread, -, -, htime, hid, hval⟩
    -- what has been read tells that there was enough of the number
    by_cases hshort : sig.sigVal.byteLen < 4
    · rw [if_pos hshort] at hread
      cases hread
    rw [if_neg hshort] at hread
    rcases hmpi : readMpi (sig.sigVal.dataBytes.take (sig.sigVal.byteLen - 4)) with e | ⟨x, rest⟩
    · rw [hmpi] at hread
      cases hread
    rw [hmpi] at hread
    cases hread
    obtain ⟨hroom, hx, -⟩ := readMpi_eq_ok_iff.mp hmpi
    rw [List.length_take, hdata] at hroom
    have htwo : 2 ≤ sig.sigVal.byteLen - 4 := by omega
    rw [hhead _ htwo] at hroom hx
    rw [List.take_take, Nat.min_eq_left (by omega)] at hx
    have hzero := (val_read_iff (a := sig.sigVal) (by omega)).mp (by rw [hx]; exact hval)
    exact ⟨hzero, (readMpi_of_val_zero hzero).mp (by omega), (hfields x).mp ⟨htime, hid⟩⟩
  · rintro ⟨hzero, hcount, hrepeat⟩
    have hroom := (readMpi_of_val_zero hzero).mpr hcount
    have htwo : 2 ≤ sig.sigVal.byteLen - 4 := by omega
    have hmpi : readMpi (sig.sigVal.dataBytes.take (sig.sigVal.byteLen - 4)) = .ok (_, _) :=
      readMpi_eq_ok_iff.mpr ⟨by rw [hhead _ htwo, List.length_take, hdata]; omega, rfl, rfl⟩
    rw [if_neg (by omega), hmpi, hhead _ htwo, List.take_take, Nat.min_eq_left (by omega)]
    have hfield := (hfields (pgpMpiFromBytes (sig.sigVal.dataBytes.take
      ((headerBits sig.sigVal.dataBytes + 7) / 8 + 2)))).mpr hrepeat
    exact ⟨_, rfl, rfl, rfl, hfield.1, hfield.2, (val_read_iff hroom).mpr hzero⟩

/-- A signature whose number is 1. -/
def oneSig : PgpSignature :=
  { version := 4, sigType := 0, hashAlgo := 8, keyId := Vector.replicate 8 0, timestamp := 0
    sigVal := pgpMpiSetU32 1 }

/-- **A signature that is refused**: the body ends before the number. -/
theorem oneSig_refused : oneSig.version = 4 ∧ pgpSigFromPkt (pgpSigToPkt oneSig) = .error (.err pgpErrFormat) ∧
    ¬ SigRoundTrip oneSig := by
  have hread : pgpSigFromPkt (pgpSigToPkt oneSig) = .error (.err pgpErrFormat) := by
    rw [pgpSigFromPkt_written]
    exact if_pos (by decide)
  refine ⟨rfl, hread, ?_⟩
  rintro ⟨sig', h, -⟩
  rw [hread] at h
  cases h

end Chicago95.Stage2.Pgp
