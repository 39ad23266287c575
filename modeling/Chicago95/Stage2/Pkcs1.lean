/-
# Chicago95.Stage2.Pkcs1 — the signature check of `security/common/pgp/pgp.c`.

`rsa_pkcs1_verify_hash` raises the signature to the key's exponent and goes through the 256 bytes of the
result: `00 01`, bytes `FF` as long as there are any, `00`, the DER prefix, the hash. What it accepts is a
block of that form with any bytes after the hash (`checkBlock_iff`).
-/
import Chicago95.Stage2.Mpi

namespace Chicago95.Stage2

open Chicago95.Lib.Digits

/-! ## The code -/

def pgpRsaBytes : Nat := 256
def pgpOk : Int := 0
def pgpErrParam : Int := -2
def pgpErrSig : Int := -4

/-- What verifying uses of `pgp_rsa_key_t`. -/
structure PgpRsaKey where
  n : Mpi
  e : Mpi

def sha256DerPrefix : List UInt8 :=
  [0x30, 0x31, 0x30, 0x0D, 0x06, 0x09, 0x60, 0x86, 0x48, 0x01, 0x65, 0x03, 0x04, 0x02, 0x01, 0x05,
    0x00, 0x04, 0x20]

def sha512DerPrefix : List UInt8 :=
  [0x30, 0x51, 0x30, 0x0D, 0x06, 0x09, 0x60, 0x86, 0x48, 0x01, 0x65, 0x03, 0x04, 0x02, 0x03, 0x05,
    0x00, 0x04, 0x40]

def sha1DerPrefix : List UInt8 :=
  [0x30, 0x21, 0x30, 0x09, 0x06, 0x05, 0x2B, 0x0E, 0x03, 0x02, 0x1A, 0x05, 0x00, 0x04, 0x14]

/-- Byte `i` of `em`, as the loop of `rsa_pkcs1_verify_hash` fills it from `m`. -/
def emByte (m : Mpi) (i : Nat) : UInt8 :=
  let limb := (pgpRsaBytes - 1 - i) / 4
  if limb < m.count then UInt8.ofNat ((m.limbs limb).toNat / 2 ^ ((3 - i % 4) * 8)) else 0

/-- `while (pos < em_len && em[pos] == 0xFF) pos++;` with `left` for `em_len - pos`. -/
def skipPadding (em : Nat → UInt8) : Nat → Nat → Nat
  | 0, pos => pos
  | left + 1, pos => if em pos = 0xFF then skipPadding em left (pos + 1) else pos

/-- The loop that compares `em` with `bytes` from `pos` on: whether it gets through. -/
def sameBytes (em : Nat → UInt8) (pos : Nat) (bytes : List UInt8) : Bool :=
  decide (∀ i < bytes.length, em (pos + i) = bytes.getD i 0)

/-- The rest of `rsa_pkcs1_verify_hash`, from `em` on. -/
def checkBlock (em : Nat → UInt8) (hash der : List UInt8) : Int :=
  if em 0 ≠ 0x00 ∨ em 1 ≠ 0x01 then pgpErrSig
  else
    let pos := skipPadding em (pgpRsaBytes - 2) 2
    if pgpRsaBytes ≤ pos ∨ em pos ≠ 0x00 then pgpErrSig
    else if pgpRsaBytes < (pos + 1 + der.length + hash.length) % 2 ^ 32 then pgpErrSig
    else if sameBytes em (pos + 1) der = false then pgpErrSig
    else if sameBytes em (pos + 1 + der.length) hash = false then pgpErrSig
    else pgpOk

/-- `rsa_pkcs1_verify_hash`; `none` where `pgp_mpi_pow_mod` has not returned after `fuel` rounds of each
division. -/
def rsaPkcs1VerifyHash (fuel : Nat) (key : PgpRsaKey) (hash der : List UInt8) (sig : Mpi) : Option Int :=
  (Mpi.pgpMpiPowMod fuel Mpi.pgpMpiZero sig key.e key.n).map fun m => checkBlock (emByte m) hash der

def pgpRsaVerify (fuel : Nat) (key : PgpRsaKey) (hash : List UInt8) (sig : Mpi) : Option Int :=
  if hash.length = 32 then rsaPkcs1VerifyHash fuel key hash sha256DerPrefix sig
  else if hash.length = 64 then rsaPkcs1VerifyHash fuel key hash sha512DerPrefix sig
  else if hash.length = 20 then rsaPkcs1VerifyHash fuel key hash sha1DerPrefix sig
  else some pgpErrParam

/-! ## What is claimed -/

/-- The 256-byte big-endian encoding. -/
def encode (x : Nat) : List UInt8 :=
  (List.range' 0 pgpRsaBytes).map fun i => UInt8.ofNat (x / 256 ^ (pgpRsaBytes - 1 - i))

/-- `00 01`, `k` bytes `FF`, `00`, the DER prefix, the hash, and what follows it. -/
def layout (k : Nat) (der hash rest : List UInt8) : List UInt8 :=
  [0x00, 0x01] ++ (List.replicate k 0xFF ++ ([0x00] ++ (der ++ (hash ++ rest))))

/-- **The block that should be accepted**: padded to the full length, with the hash at the end. -/
def Exact (x : Nat) (hash der : List UInt8) : Prop :=
  3 + der.length + hash.length ≤ pgpRsaBytes ∧
    encode x = layout (pgpRsaBytes - 3 - der.length - hash.length) der hash []

/-- A block with bytes after the hash. -/
def Trailing (x : Nat) (hash der : List UInt8) : Prop :=
  ∃ k rest, rest ≠ [] ∧ encode x = layout k der hash rest

/-! ## The block -/

theorem emByte_eq (m : Mpi) {i : Nat} (hi : i < pgpRsaBytes) :
    emByte m i = UInt8.ofNat (m.val / 256 ^ (pgpRsaBytes - 1 - i)) := by
  have hpos : pgpRsaBytes - 1 - i = 4 * ((pgpRsaBytes - 1 - i) / 4) + (3 - i % 4) := by
    unfold pgpRsaBytes at *
    omega
  have hpow : 256 ^ (pgpRsaBytes - 1 - i) =
      (2 ^ 32) ^ ((pgpRsaBytes - 1 - i) / 4) * 2 ^ ((3 - i % 4) * 8) := by
    rw [show (256 : Nat) = 2 ^ 8 from rfl, ← pow_mul, ← pow_mul, ← pow_add]
    congr 1
    omega
  unfold emByte
  dsimp only
  rw [hpow, ← Nat.div_div_eq_div_mul]
  split
  · rename_i hlimb
    have hdigit : m.val / (2 ^ 32) ^ ((pgpRsaBytes - 1 - i) / 4) % 2 ^ 32 =
        (m.limbs ((pgpRsaBytes - 1 - i) / 4)).toNat := digit_of_value (fun k _ => m.digit_lt k) hlimb
    rw [← hdigit]
    generalize m.val / (2 ^ 32) ^ ((pgpRsaBytes - 1 - i) / 4) = x
    refine UInt8.toNat_inj.mp ?_
    rw [UInt8.toNat_ofNat', UInt8.toNat_ofNat']
    have hs : i % 4 = 0 ∨ i % 4 = 1 ∨ i % 4 = 2 ∨ i % 4 = 3 := by omega
    rcases hs with hs | hs | hs | hs <;> rw [hs] <;> norm_num <;> omega
  · rename_i hlimb
    have hzero : m.val / (2 ^ 32) ^ ((pgpRsaBytes - 1 - i) / 4) = 0 :=
      value_div (fun k _ => m.digit_lt k) (by omega) (by decide)
    rw [hzero, Nat.zero_div]
    rfl

theorem map_emByte (m : Mpi) : (List.range' 0 pgpRsaBytes).map (emByte m) = encode m.val :=
  List.map_congr_left fun i hi => emByte_eq m (by simpa using List.mem_range'_1.mp hi)

section Block

variable {em : Nat → UInt8} {hash der : List UInt8}

theorem getD_map_range' (em : Nat → UInt8) {p n i : Nat} (hi : i < n) :
    ((List.range' p n).map em).getD i 0 = em (p + i) := by
  simp [List.getD, hi]

theorem sameBytes_iff (em : Nat → UInt8) (pos : Nat) (bytes : List UInt8) :
    sameBytes em pos bytes = true ↔ (List.range' pos bytes.length).map em = bytes := by
  unfold sameBytes
  rw [decide_eq_true_iff]
  constructor
  · intro h
    refine List.ext_getElem (by simp) fun i _ hi => ?_
    have hget := h i hi
    simp only [List.getD, List.getElem?_eq_getElem hi, Option.getD_some] at hget
    simp only [List.getElem_map, List.getElem_range', Nat.one_mul]
    exact hget
  · intro h i hi
    rw [← getD_map_range' em hi, h]

theorem map_range'_append_iff {p n : Nat} {l₁ l₂ : List UInt8} : (List.range' p n).map em = l₁ ++ l₂ ↔
      l₁.length ≤ n ∧ (List.range' p l₁.length).map em = l₁ ∧
        (List.range' (p + l₁.length) (n - l₁.length)).map em = l₂ := by
  constructor
  · intro h
    have hlen := congrArg List.length h
    rw [List.length_map, List.length_range', List.length_append] at hlen
    have hsplit : List.range' p n = List.range' p l₁.length ++
        List.range' (p + l₁.length) (n - l₁.length) := by
      rw [List.range'_append_1]
      congr 1
      omega
    rw [hsplit, List.map_append] at h
    obtain ⟨h₁, h₂⟩ := List.append_inj h (by simp)
    exact ⟨by omega, h₁, h₂⟩
  · rintro ⟨hle, h₁, h₂⟩
    have hsplit : List.range' p n = List.range' p l₁.length ++
        List.range' (p + l₁.length) (n - l₁.length) := by
      rw [List.range'_append_1]
      congr 1
      omega
    rw [hsplit, List.map_append, h₁, h₂]

theorem skipPadding_spec (em : Nat → UInt8) : ∀ left pos,
    pos ≤ skipPadding em left pos ∧ skipPadding em left pos ≤ pos + left ∧
      (∀ i, pos ≤ i → i < skipPadding em left pos → em i = 0xFF) ∧
      (skipPadding em left pos < pos + left → em (skipPadding em left pos) ≠ 0xFF) := by
  intro left
  induction left with
  | zero =>
    intro pos
    exact ⟨Nat.le_refl _, Nat.le_refl _, fun i hlo hi => absurd hi (Nat.not_lt.mpr hlo),
      fun h => absurd h (Nat.lt_irrefl _)⟩
  | succ left ih =>
    intro pos
    unfold skipPadding
    split
    · rename_i hff
      obtain ⟨hle, hge, hall, hstop⟩ := ih (pos + 1)
      refine ⟨by omega, by omega, fun i hlo hi => ?_, fun h => hstop (by omega)⟩
      rcases Nat.eq_or_lt_of_le hlo with rfl | hlt
      · exact hff
      · exact hall i hlt hi
    · rename_i hne
      exact ⟨Nat.le_refl _, by omega, fun i hlo hi => absurd hi (Nat.not_lt.mpr hlo), fun _ => hne⟩

theorem layout_iff {k : Nat} {rest : List UInt8} : (List.range' 0 pgpRsaBytes).map em = layout k der hash rest ↔
      (em 0 = 0x00 ∧ em 1 = 0x01) ∧ (∀ i, 2 ≤ i → i < 2 + k → em i = 0xFF) ∧ em (2 + k) = 0x00 ∧
        (List.range' (3 + k) der.length).map em = der ∧ (List.range' (3 + k + der.length) hash.length).map em = hash ∧
        3 + k + der.length + hash.length ≤ pgpRsaBytes ∧ (List.range' (3 + k + der.length + hash.length)
          (pgpRsaBytes - (3 + k + der.length + hash.length))).map em = rest := by
  have htwo : (List.range' 0 2).map em = [0x00, 0x01] ↔ em 0 = 0x00 ∧ em 1 = 0x01 := by
    simp [List.range']
  have hone : ∀ p, (List.range' p 1).map em = [0x00] ↔ em p = 0x00 := by
    intro p
    simp [List.range']
  have hpad : (List.range' 2 k).map em = List.replicate k 0xFF ↔ ∀ i, 2 ≤ i → i < 2 + k → em i = 0xFF := by
    rw [List.eq_replicate_iff]
    simp only [List.length_map, List.length_range', List.mem_map, List.mem_range'_1, true_and]
    exact ⟨fun h i hlo hi => h _ ⟨i, ⟨hlo, hi⟩, rfl⟩, fun h b ⟨i, hi, hb⟩ => hb ▸ h i hi.1 hi.2⟩
  unfold layout
  simp only [map_range'_append_iff, List.length_cons, List.length_nil, List.length_replicate,
    Nat.zero_add, Nat.reduceAdd, htwo, hpad, hone]
  have h3 : 2 + k + 1 = 3 + k := by omega
  have hleft : pgpRsaBytes - 2 - k - 1 - der.length - hash.length =
      pgpRsaBytes - (3 + k + der.length + hash.length) := by omega
  rw [h3, hleft]
  constructor
  · rintro ⟨hle, hhead, hle', hff, hle'', hzero, hle3, hder, hle4, hhash, hrest⟩
    exact ⟨hhead, hff, hzero, hder, hhash, by omega, hrest⟩
  · rintro ⟨hhead, hff, hzero, hder, hhash, hle, hrest⟩
    exact ⟨by omega, hhead, by omega, hff, by omega, hzero, by omega, hder, by omega, hhash, hrest⟩

theorem checkBlock_iff (hsize : der.length + hash.length + 2 * pgpRsaBytes ≤ 2 ^ 32) : checkBlock em hash der = pgpOk ↔
      ∃ k rest, (List.range' 0 pgpRsaBytes).map em = layout k der hash rest := by
  have hok : pgpErrSig ≠ pgpOk := by decide
  have hbytes : pgpRsaBytes = 256 := rfl
  obtain ⟨hle, hge, hff, hstop⟩ := skipPadding_spec em (pgpRsaBytes - 2) 2
  unfold checkBlock
  dsimp only
  set pos := skipPadding em (pgpRsaBytes - 2) 2 with hpos
  rw [Nat.mod_eq_of_lt (by omega)]
  constructor
  · intro h
    split at h
    · exact absurd h hok
    rename_i hhead
    split at h
    · exact absurd h hok
    rename_i hzero
    split at h
    · exact absurd h hok
    rename_i hroom
    split at h
    · exact absurd h hok
    rename_i hder
    split at h
    · exact absurd h hok
    rename_i hhash
    rw [not_or, not_not, not_not] at hhead
    rw [not_or, not_not] at hzero
    rw [Bool.not_eq_false, sameBytes_iff] at hder hhash
    have hk : 3 + (pos - 2) = pos + 1 := by omega
    refine ⟨pos - 2, _, layout_iff.mpr ⟨hhead, fun i hlo hi => hff i hlo (by omega), ?_, ?_, ?_, by omega,
      rfl⟩⟩
    · rw [show 2 + (pos - 2) = pos by omega]
      exact hzero.2
    · rw [hk]
      exact hder
    · rw [hk]
      exact hhash
  · rintro ⟨k, rest, hlayout⟩
    obtain ⟨hhead, hpad, hzero, hder, hhash, hroom, -⟩ := layout_iff.mp hlayout
    -- the loop stops at the zero byte
    have hstopped : pos = 2 + k := by
      rcases Nat.lt_trichotomy pos (2 + k) with hlt | heq | hgt
      · exact absurd (hpad pos hle hlt) (hstop (by omega))
      · exact heq
      · have := hff (2 + k) (by omega) hgt
        rw [hzero] at this
        cases this
    have hpos1 : pos + 1 = 3 + k := by omega
    rw [if_neg (by simp [hhead.1, hhead.2]), if_neg (by rw [hstopped, hzero]; simp; omega),
      if_neg (by omega), hpos1, if_neg (by rw [(sameBytes_iff em _ der).mpr hder]; simp),
      if_neg (by rw [(sameBytes_iff em _ hash).mpr hhash]; simp)]

end Block

/-! ## Exactness -/

theorem replicate_inj {k k' : Nat} {l l' : List UInt8}
    (h : List.replicate k 0xFF ++ (0x00 :: l) = List.replicate k' 0xFF ++ (0x00 :: l')) : k = k' ∧ l = l' := by
  induction k generalizing k' with
  | zero =>
    cases k' with
    | zero => exact ⟨rfl, (List.cons.inj h).2⟩
    | succ k' => exact absurd (List.cons.inj h).1 (by decide)
  | succ k ih =>
    cases k' with
    | zero => exact absurd (List.cons.inj h).1 (by decide)
    | succ k' =>
      obtain ⟨hk, hl⟩ := ih (List.cons.inj h).2
      exact ⟨congrArg Nat.succ hk, hl⟩

theorem layout_inj {k k' : Nat} {hash der rest rest' : List UInt8}
    (h : layout k der hash rest = layout k' der hash rest') : k = k' ∧ rest = rest' := by
  unfold layout at h
  obtain ⟨hk, hl⟩ := replicate_inj (List.append_cancel_left h)
  exact ⟨hk, List.append_cancel_left (List.append_cancel_left hl)⟩

theorem length_layout (k : Nat) (der hash rest : List UInt8) :
    (layout k der hash rest).length = 3 + k + der.length + hash.length + rest.length := by
  unfold layout
  simp only [List.length_append, List.length_replicate, List.length_cons, List.length_nil]
  omega

theorem length_encode (x : Nat) : (encode x).length = pgpRsaBytes := by
  unfold encode
  rw [List.length_map, List.length_range']

theorem exact_iff {x : Nat} {hash der : List UInt8} : Exact x hash der ↔ ∃ k, encode x = layout k der hash [] := by
  constructor
  · rintro ⟨-, hblock⟩
    exact ⟨_, hblock⟩
  · rintro ⟨k, hblock⟩
    have hlen := congrArg List.length hblock
    rw [length_encode, length_layout, List.length_nil] at hlen
    refine ⟨by omega, ?_⟩
    rw [hblock, show pgpRsaBytes - 3 - der.length - hash.length = k by omega]

/-! ## Numbers to check at -/

/-- The number `x` in 64 limbs. -/
def mpiOf (x : Nat) : Mpi :=
  { limbs := fun i => UInt32.ofNat (x / (2 ^ 32) ^ i), count := pgpMpiMaxLimbs, count_le := Nat.le_refl _ }

/-- A key with the exponent `e`, and a modulus of 2048 bits. -/
def keyOf (e : UInt32) : PgpRsaKey := { n := mpiOf (2 ^ 2048 - 1), e := Mpi.pgpMpiSetU32 e }

/-- The bytes `1` to `20`, for a SHA-1 hash. -/
def someHash : List UInt8 := [1, 2, 3, 4, 5, 6, 7, 8, 9, 10, 11, 12, 13, 14, 15, 16, 17, 18, 19, 20]

/-- The block for that hash, as a number. -/
def paddedHash : Nat :=
  (layout 218 sha1DerPrefix someHash []).foldl (fun x byte => x * 256 + byte.toNat) 0

/-- The cube root of a block with 8 bytes `FF` and 210 bytes after the hash. -/
def forgedSig : Mpi :=
  mpiOf (0x32cbfd4a7adc7905583d75edab851cd700a52e579c736881966ed5653a9042ba41bb6ddc47a4e794c386d8b246 *
    2 ^ 320)

/-! ## The check -/

section Verify

variable {key : PgpRsaKey} {hash der : List UInt8} {sig : Mpi}

theorem verify_iff_layout (fuel : Nat) (hn : 1 < key.n.val) (hsig : sig.val < key.n.val)
    (hpow : sig.val ^ key.e.val < key.n.val) (hsize : der.length + hash.length + 2 * pgpRsaBytes ≤ 2 ^ 32) :
    rsaPkcs1VerifyHash fuel key hash der sig = some pgpOk ↔
      ∃ k rest, encode (sig.val ^ key.e.val % key.n.val) = layout k der hash rest := by
  obtain ⟨m, hm, hval⟩ := Mpi.powMod_val fuel Mpi.pgpMpiZero hn hsig hpow
  unfold rsaPkcs1VerifyHash
  rw [hm, Option.map_some, Option.some_inj, checkBlock_iff hsize, map_emByte, hval, Nat.mod_eq_of_lt hpow]

/-- **The check is exact but for the blocks with bytes after the hash**, where no power has to be reduced.
(`hsize` is what the callers promise: their prefixes and hashes have at most 83 bytes.) -/
theorem verify_exact_iff (fuel : Nat) (key : PgpRsaKey) (hash der : List UInt8) (sig : Mpi)
    (hn : 1 < key.n.val) (hsig : sig.val < key.n.val) (hpow : sig.val ^ key.e.val < key.n.val)
    (hsize : der.length + hash.length + 2 * pgpRsaBytes ≤ 2 ^ 32) :
    (rsaPkcs1VerifyHash fuel key hash der sig = some pgpOk ↔ Exact (sig.val ^ key.e.val % key.n.val) hash der) ↔
      ¬ Trailing (sig.val ^ key.e.val % key.n.val) hash der := by
  rw [verify_iff_layout fuel hn hsig hpow hsize, exact_iff]
  constructor
  · rintro hiff ⟨k, rest, hrest, hblock⟩
    obtain ⟨k', hexact⟩ := hiff.mp ⟨k, rest, hblock⟩
    exact hrest (layout_inj (hblock.symm.trans hexact)).2
  · intro htrailing
    constructor
    · rintro ⟨k, rest, hblock⟩
      refine ⟨k, ?_⟩
      by_cases hrest : rest = []
      · rw [hblock, hrest]
      · exact absurd ⟨k, rest, hrest, hblock⟩ htrailing
    · rintro ⟨k, hblock⟩
      exact ⟨k, [], hblock⟩

theorem paddedHash_exact : rsaPkcs1VerifyHash 0 (keyOf 1) someHash sha1DerPrefix (mpiOf paddedHash) = some pgpOk ↔
      Exact ((mpiOf paddedHash).val ^ (keyOf 1).e.val % (keyOf 1).n.val) someHash sha1DerPrefix := by
  refine (verify_exact_iff 0 (keyOf 1) someHash sha1DerPrefix (mpiOf paddedHash) (by decide +kernel)
    (by decide +kernel) (by decide +kernel) (by decide)).mpr ?_
  rintro ⟨k, rest, hrest, hblock⟩
  have hexact : encode ((mpiOf paddedHash).val ^ (keyOf 1).e.val % (keyOf 1).n.val) =
      layout 218 sha1DerPrefix someHash [] := by decide +kernel
  exact hrest (layout_inj (hblock.symm.trans hexact)).2

/-- **A signature without the key**: nothing is reduced under the exponent 3, and the 210 bytes after the
hash are not looked at. -/
theorem forged_signature : pgpRsaVerify 0 (keyOf 3) someHash forgedSig = some pgpOk ∧
      ¬ Exact (forgedSig.val ^ (keyOf 3).e.val % (keyOf 3).n.val) someHash sha1DerPrefix := by
  have hblock : encode (forgedSig.val ^ (keyOf 3).e.val % (keyOf 3).n.val) =
      layout 8 sha1DerPrefix someHash
        ((encode (forgedSig.val ^ (keyOf 3).e.val % (keyOf 3).n.val)).drop 46) := by decide +kernel
  have haccepted : rsaPkcs1VerifyHash 0 (keyOf 3) someHash sha1DerPrefix forgedSig = some pgpOk :=
    (verify_iff_layout 0 (by decide +kernel) (by decide +kernel) (by decide +kernel) (by decide)).mpr
      ⟨8, _, hblock⟩
  constructor
  · unfold pgpRsaVerify
    rw [if_neg (by decide), if_neg (by decide), if_pos (by decide)]
    exact haccepted
  · unfold Exact
    decide +kernel

end Verify

end Chicago95.Stage2
