/-
# Chicago95.Stage2.PgpMpi — the packet form of a number, in `security/common/pgp/pgp_mpi.c`.

`pgp_mpi_to_bytes` writes the number of bits in two bytes, and the bytes of the number after it;
`pgp_mpi_from_bytes` reads them. Both find the limb of byte `i` from the end of the bytes and its place in
the limb from the beginning (`3 - i % 4`), so that the two agree with each other in every limb that all
four bytes of are there. Of the highest limb only the upper bytes are written when the number of bytes is
not a multiple of 4, and these are zero: what comes back is the number less that limb, or less the lowest
byte of it (`val_fromBytes_toBytes_iff`).
-/
import Chicago95.Stage2.Mpi
import Mathlib.Data.Nat.Size

namespace Chicago95.Stage2.Mpi

open Chicago95.Lib.Digits Chicago95.Lib.Loop

/-! ## The code -/

/-- `bit_len` of `pgp_mpi_to_bytes`. -/
def bitLen (a : Mpi) : Nat :=
  if 0 < a.count then
    (a.count - 1) * 32 +
      if a.limbs (a.count - 1) ≠ 0 then (a.limbs (a.count - 1)).toNat.log2 + 1 else 0
  else 0

/-- `byte_len` of `pgp_mpi_to_bytes`. -/
def byteLen (a : Mpi) : Nat := (a.bitLen + 7) / 8

/-- `limb` of byte `i` of `len`. -/
def limbOf (len i : Nat) : Nat := (len - 1 - i) / 4

/-- `byte_in_limb` -/
def placeOf (i : Nat) : Nat := 3 - i % 4

/-- The bytes of the number, as `pgp_mpi_to_bytes` writes them. -/
def dataBytes (a : Mpi) : List UInt8 :=
  (List.range a.byteLen).map fun i =>
    if limbOf a.byteLen i < pgpMpiMaxLimbs then
      UInt8.ofNat ((a.limbs (limbOf a.byteLen i)).toNat / 2 ^ (placeOf i * 8))
    else 0

def pgpMpiToBytes (a : Mpi) : List UInt8 :=
  UInt8.ofNat (a.bitLen / 256) :: UInt8.ofNat a.bitLen :: a.dataBytes

/-- The loop that puts byte `i` of `len` into its limb, for the last `left` of them. -/
def fillLimbs (len : Nat) (bytes : Nat → UInt8) : Nat → (Nat → UInt32) → Nat → UInt32
  | 0, limbs => limbs
  | left + 1, limbs =>
    let i := len - (left + 1)
    if pgpMpiMaxLimbs ≤ limbOf len i then limbs
    else fillLimbs len bytes left
      (Function.update limbs (limbOf len i)
        (limbs (limbOf len i) ||| UInt32.ofNat ((bytes i).toNat * 2 ^ (placeOf i * 8))))

/-- `bit_len` of `pgp_mpi_from_bytes`. -/
def headerBits (buf : List UInt8) : Nat := (buf.getD 0 0).toNat * 256 + (buf.getD 1 0).toNat

/-- `len` of its loop, where `len - 2` is unsigned. -/
def readLen (buf : List UInt8) : Nat :=
  min ((buf.length + (2 ^ 32 - 2)) % 2 ^ 32) ((headerBits buf + 7) / 8)

/-- `pgp_mpi_from_bytes` of the bytes from `buf` on, of which there are `len`. -/
def pgpMpiFromBytes (buf : List UInt8) : Mpi :=
  if buf.length = 0 then pgpMpiZero
  else mpiNormalize
    { limbs := fillLimbs (readLen buf) (fun i => buf.getD (2 + i) 0) (readLen buf) fun _ => 0
      count := pgpMpiMaxLimbs
      count_le := Nat.le_refl _ }

/-! ## Lengths -/

theorem bitLen_of_pos {a : Mpi} (hpos : 0 < a.count) : a.bitLen = (a.count - 1) * 32 +
    if a.limbs (a.count - 1) ≠ 0 then (a.limbs (a.count - 1)).toNat.log2 + 1 else 0 := if_pos hpos

theorem bitLen_le (a : Mpi) : a.bitLen ≤ a.count * 32 := by
  unfold bitLen
  split
  · rename_i hpos
    have htop : (a.limbs (a.count - 1)).toNat.log2 < 32 := by
      rcases Nat.eq_zero_or_pos (a.limbs (a.count - 1)).toNat with h | h
      · rw [h]
        decide
      · exact (Nat.log2_lt (by omega)).mpr (a.limbs (a.count - 1)).toNat_lt
    have hcount : a.count * 32 = (a.count - 1) * 32 + 32 := by omega
    split <;> omega
  · omega

theorem bitLen_le_max (a : Mpi) : a.bitLen ≤ 2048 := by
  have h := a.bitLen_le
  have hc := a.count_le
  unfold pgpMpiMaxLimbs at hc
  omega

theorem byteLen_le (a : Mpi) : a.byteLen ≤ 256 := by
  have h := a.bitLen_le_max
  unfold byteLen
  omega

theorem length_dataBytes (a : Mpi) : a.dataBytes.length = a.byteLen := by
  unfold dataBytes
  rw [List.length_map, List.length_range]

theorem length_toBytes (a : Mpi) : a.pgpMpiToBytes.length = a.byteLen + 2 := by
  unfold pgpMpiToBytes
  rw [List.length_cons, List.length_cons, length_dataBytes]

theorem count_le_byteLen (a : Mpi) : (a.count - 1) * 4 ≤ a.byteLen := by
  unfold byteLen bitLen
  split <;> omega

theorem byteLen_le_count (a : Mpi) : a.byteLen ≤ a.count * 4 := by
  have h := a.bitLen_le
  unfold byteLen
  omega

/-! ## What the bytes hold -/

theorem limbOf_lt {len i : Nat} (hlen : len ≤ 256) (hi : i < len) : limbOf len i < pgpMpiMaxLimbs := by
  unfold limbOf pgpMpiMaxLimbs
  omega

theorem testBit_or_byte (x : UInt32) (b : UInt8) (c p : Nat) (hc : c < 4) :
    (x ||| UInt32.ofNat (b.toNat * 2 ^ (c * 8))).toNat.testBit p =
      (x.toNat.testBit p || (decide (p / 8 = c) && b.toNat.testBit (p % 8))) := by
  have hb : b.toNat < 2 ^ 8 := b.toNat_lt
  have hlt : b.toNat * 2 ^ (c * 8) < 2 ^ 32 := by
    calc b.toNat * 2 ^ (c * 8) < 2 ^ 8 * 2 ^ (c * 8) := (Nat.mul_lt_mul_right (Nat.two_pow_pos _)).mpr hb
      _ = 2 ^ (8 + c * 8) := (pow_add 2 8 (c * 8)).symm
      _ ≤ 2 ^ 32 := Nat.pow_le_pow_right (by omega) (by omega)
  rw [UInt32.toNat_or, UInt32.toNat_ofNat', Nat.mod_eq_of_lt hlt, Nat.testBit_or, Nat.mul_comm,
    Nat.testBit_two_pow_mul]
  congr 1
  by_cases hp : p / 8 = c
  · have hge : c * 8 ≤ p := by omega
    have hmod : p - c * 8 = p % 8 := by omega
    rw [hmod]
    simp [hp, hge]
  · rw [decide_eq_false hp, Bool.false_and]
    rcases Nat.lt_or_ge p (c * 8) with hlt | hge
    · rw [decide_eq_false (by omega), Bool.false_and]
    · have hhigh : b.toNat.testBit (p - c * 8) = false :=
        testBit_of_lt_two_pow hb (by omega)
      rw [hhigh, Bool.and_false]

/-- A byte among the last `left` that goes to place `c` of limb `k`. -/
def Holds (len left k c i : Nat) : Prop := len - left ≤ i ∧ i < len ∧ limbOf len i = k ∧ placeOf i = c

theorem testBit_fillLimbs {len : Nat} (hlen : len ≤ 256) (bytes : Nat → UInt8) (left : Nat)
    (hleft : left ≤ len) (limbs : Nat → UInt32) (k p : Nat) :
    (fillLimbs len bytes left limbs k).toNat.testBit p = true ↔ (limbs k).toNat.testBit p = true ∨
        ∃ i, Holds len left k (p / 8) i ∧ (bytes i).toNat.testBit (p % 8) = true := by
  -- the limbs hold what the bytes before have put there, so that they are arbitrary
  induction left generalizing limbs with
  | zero =>
    rw [fillLimbs]
    refine ⟨Or.inl, fun h => ?_⟩
    rcases h with h | ⟨i, ⟨hge, hlt, -, -⟩, -⟩
    · exact h
    · omega
  | succ left ih =>
    have hi : len - (left + 1) < len := by omega
    have hplace : placeOf (len - (left + 1)) < 4 := by
      unfold placeOf
      omega
    rw [fillLimbs, if_neg (Nat.not_le.mpr (limbOf_lt hlen hi)), ih (by omega)]
    constructor
    · rintro (h | ⟨i, ⟨hge, hrest⟩, hbit⟩)
      -- the first byte of the rest, or one behind it
      · by_cases hk : k = limbOf len (len - (left + 1))
        · subst hk
          rw [Function.update_self, testBit_or_byte _ _ _ _ hplace, Bool.or_eq_true, Bool.and_eq_true,
            decide_eq_true_iff] at h
          rcases h with h | ⟨hp, hbit⟩
          · exact Or.inl h
          · exact Or.inr ⟨_, ⟨Nat.le_refl _, hi, rfl, hp.symm⟩, hbit⟩
        · rw [Function.update_of_ne hk] at h
          exact Or.inl h
      · exact Or.inr ⟨i, ⟨by omega, hrest⟩, hbit⟩
    · rintro (h | ⟨i, ⟨hge, hlt, hk, hp⟩, hbit⟩)
      · refine Or.inl ?_
        by_cases hk : k = limbOf len (len - (left + 1))
        · subst hk
          rw [Function.update_self, testBit_or_byte _ _ _ _ hplace, h, Bool.true_or]
        · rw [Function.update_of_ne hk]
          exact h
      · by_cases hfirst : i = len - (left + 1)
        · subst hfirst
          subst hk
          refine Or.inl ?_
          rw [Function.update_self, testBit_or_byte _ _ _ _ hplace, hp, decide_eq_true rfl, Bool.true_and,
            hbit, Bool.or_true]
        · exact Or.inr ⟨i, ⟨by omega, hlt, hk, hp⟩, hbit⟩

theorem digit_le_val (a : Mpi) {k : Nat} (hk : k < a.count) : a.digit k * (2 ^ 32) ^ k ≤ a.val := by
  have hmono : value (2 ^ 32) a.digit (k + 1) ≤ a.val := value_mono hk
  rw [value_succ] at hmono
  omega

/-! ## Written and read again -/

theorem limbs_mpiNormalize (a : Mpi) : (mpiNormalize a).limbs = a.limbs := rfl

theorem limbs_fromBytes {buf : List UInt8} (hbuf : buf ≠ []) : (pgpMpiFromBytes buf).limbs =
    fillLimbs (readLen buf) (fun i => buf.getD (2 + i) 0) (readLen buf) fun _ => 0 := by
  have hlen : ¬ buf.length = 0 := fun h => hbuf (List.eq_nil_of_length_eq_zero h)
  unfold pgpMpiFromBytes
  rw [if_neg hlen, limbs_mpiNormalize]

theorem val_fromBytes {buf : List UInt8} (hbuf : buf ≠ []) :
    (pgpMpiFromBytes buf).val = value (2 ^ 32) (pgpMpiFromBytes buf).digit pgpMpiMaxLimbs := by
  have hlen : ¬ buf.length = 0 := fun h => hbuf (List.eq_nil_of_length_eq_zero h)
  unfold pgpMpiFromBytes
  rw [if_neg hlen, val_mpiNormalize]
  unfold val digit
  rw [limbs_mpiNormalize]

theorem val_fromBytes_lt {buf : List UInt8} (hbuf : buf ≠ []) (hlen : readLen buf ≤ 256) :
    (pgpMpiFromBytes buf).val < (2 ^ 32) ^ ((readLen buf + 3) / 4) := by
  have hzero : ∀ k, (readLen buf + 3) / 4 ≤ k → (pgpMpiFromBytes buf).digit k = 0 := by
    intro k hk
    refine Nat.eq_of_testBit_eq fun p => ?_
    rw [digit, limbs_fromBytes hbuf, Nat.zero_testBit]
    refine Bool.eq_false_iff.mpr fun h => ?_
    rcases (testBit_fillLimbs hlen _ _ (Nat.le_refl _) _ k p).mp h with h | ⟨i, ⟨-, hi, hlimb, -⟩, -⟩
    · simp at h
    · unfold limbOf at hlimb
      omega
  -- all limbs are counted, and the upper ones are zero
  rw [val_fromBytes hbuf, value_of_zero (m := (readLen buf + 3) / 4) (by unfold pgpMpiMaxLimbs; omega)
    fun k hk _ => hzero k hk]
  exact value_lt fun k _ => digit_lt _ k

theorem toBytes_ne_nil (a : Mpi) : a.pgpMpiToBytes ≠ [] := List.cons_ne_nil _ _

theorem headerBits_toBytes (a : Mpi) : headerBits a.pgpMpiToBytes = a.bitLen := by
  have hmax := a.bitLen_le_max
  unfold headerBits pgpMpiToBytes
  rw [List.getD_cons_zero, List.getD_cons_succ, List.getD_cons_zero, UInt8.toNat_ofNat', UInt8.toNat_ofNat']
  omega

theorem readLen_toBytes (a : Mpi) : readLen a.pgpMpiToBytes = a.byteLen := by
  have hlen := a.byteLen_le
  unfold readLen
  rw [headerBits_toBytes, length_toBytes]
  unfold byteLen at hlen ⊢
  omega

theorem testBit_fromBytes_toBytes (a : Mpi) (k p : Nat) :
    ((pgpMpiFromBytes a.pgpMpiToBytes).limbs k).toNat.testBit p = true ↔
      (∃ i, Holds a.byteLen a.byteLen k (p / 8) i) ∧ (a.limbs k).toNat.testBit p = true := by
  have hlen := a.byteLen_le
  have hdata : (fun i => a.pgpMpiToBytes.getD (2 + i) 0) = fun i => a.dataBytes.getD i 0 := by
    funext i
    rw [Nat.add_comm]
    rfl
  -- the writer takes bit `p` of limb `k` for the byte that the reader puts there
  have hbyte : ∀ i, i < a.byteLen → placeOf i = p / 8 → limbOf a.byteLen i = k →
      (a.dataBytes.getD i 0).toNat.testBit (p % 8) = (a.limbs k).toNat.testBit p := by
    intro i hi hplace hlimb
    unfold dataBytes
    rw [List.getD_eq_getElem?_getD, List.getElem?_map, List.getElem?_range hi, Option.map_some,
      Option.getD_some, if_pos (limbOf_lt hlen hi), testBit_ofNat_byte _ _ (Nat.mod_lt _ (by omega)), hlimb,
      hplace, Nat.testBit_div_two_pow, Nat.mod_add_div']
  rw [limbs_fromBytes a.toBytes_ne_nil, readLen_toBytes, hdata, testBit_fillLimbs hlen _ _ (Nat.le_refl _)]
  constructor
  · rintro (h | ⟨i, hholds, hbit⟩)
    · simp at h
    · refine ⟨⟨i, hholds⟩, ?_⟩
      rw [← hbyte i hholds.2.1 hholds.2.2.2 hholds.2.2.1]
      exact hbit
  · rintro ⟨⟨i, hholds⟩, hbit⟩
    refine Or.inr ⟨i, hholds, ?_⟩
    rw [hbyte i hholds.2.1 hholds.2.2.2 hholds.2.2.1]
    exact hbit

theorem exists_holds_iff (len k c : Nat) (hc : c < 4) :
    (∃ i, Holds len len k c i) ↔ k < len / 4 ∨ (k = len / 4 ∧ 3 - c < len % 4) := by
  unfold Holds limbOf placeOf
  constructor
  · rintro ⟨i, -, hi, hk, hplace⟩
    omega
  · rintro (hk | ⟨hk, hplace⟩)
    · refine ⟨len - 4 - 4 * k + (3 - c + 4 - (len - 4 - 4 * k) % 4) % 4, ?_⟩
      omega
    · exact ⟨3 - c, by omega⟩

theorem limbs_fromBytes_of_lt (a : Mpi) {k : Nat} (hk : k < a.byteLen / 4) :
    (pgpMpiFromBytes a.pgpMpiToBytes).limbs k = a.limbs k := by
  refine UInt32.toNat_inj.mp (Nat.eq_of_testBit_eq fun p => Bool.eq_iff_iff.mpr ?_)
  rw [testBit_fromBytes_toBytes]
  refine ⟨fun h => h.2, fun h => ⟨?_, h⟩⟩
  have hp : p < 32 := by
    by_contra hge
    rw [testBit_of_lt_two_pow (a.limbs k).toNat_lt (Nat.le_of_not_lt hge)] at h
    cases h
  exact (exists_holds_iff _ _ _ (by omega)).mpr (Or.inl hk)

theorem limbs_fromBytes_of_gt (a : Mpi) {k : Nat} (hk : a.byteLen < 4 * k) :
    (pgpMpiFromBytes a.pgpMpiToBytes).limbs k = 0 := by
  refine UInt32.toNat_inj.mp (Nat.eq_of_testBit_eq fun p => ?_)
  rw [UInt32.toNat_zero, Nat.zero_testBit]
  refine Bool.eq_false_iff.mpr fun h => ?_
  obtain ⟨⟨i, -, hi, hlimb, -⟩, -⟩ := (testBit_fromBytes_toBytes a k p).mp h
  unfold limbOf at hlimb
  omega

theorem limbs_fromBytes_top (a : Mpi) : ((pgpMpiFromBytes a.pgpMpiToBytes).limbs (a.byteLen / 4)).toNat =
      (a.limbs (a.byteLen / 4)).toNat / 2 ^ (8 * (4 - a.byteLen % 4)) * 2 ^ (8 * (4 - a.byteLen % 4)) := by
  refine Nat.eq_of_testBit_eq fun p => Bool.eq_iff_iff.mpr ?_
  rw [testBit_fromBytes_toBytes, Nat.mul_comm, Nat.testBit_two_pow_mul, Nat.testBit_div_two_pow,
    Bool.and_eq_true, decide_eq_true_iff]
  rcases Nat.lt_or_ge p 32 with hp | hp
  · rw [exists_holds_iff _ _ _ (by omega)]
    constructor
    · rintro ⟨hplace, hbit⟩
      have hle : 8 * (4 - a.byteLen % 4) ≤ p := by omega
      rw [Nat.sub_add_cancel hle]
      exact ⟨hle, hbit⟩
    · rintro ⟨hle, hbit⟩
      rw [Nat.sub_add_cancel hle] at hbit
      exact ⟨Or.inr ⟨rfl, by omega⟩, hbit⟩
  · have hhigh : ∀ q, 32 ≤ q → (a.limbs (a.byteLen / 4)).toNat.testBit q = false := fun q hq =>
      testBit_of_lt_two_pow (a.limbs _).toNat_lt hq
    rw [hhigh p hp]
    constructor
    · rintro ⟨-, h⟩
      cases h
    · rintro ⟨hle, h⟩
      rw [Nat.sub_add_cancel hle, hhigh p hp] at h
      cases h

/-! ## Normalized numbers -/

/-- The highest limb is not zero. -/
def Normal (a : Mpi) : Prop := a.count ≠ 0 → a.limbs (a.count - 1) ≠ 0

theorem normal_mpiNormalize (a : Mpi) : (mpiNormalize a).Normal := (normCount_spec a.limbs a.count).2

theorem normal_fromBytes (buf : List UInt8) : (pgpMpiFromBytes buf).Normal := by
  unfold pgpMpiFromBytes
  split
  · exact fun h => absurd rfl h
  · exact normal_mpiNormalize _

theorem bitLen_of_normal {a : Mpi} (h : a.Normal) : a.bitLen = a.val.size := by
  rcases Nat.eq_zero_or_pos a.count with hzero | hpos
  · unfold bitLen val
    rw [if_neg (by omega), hzero]
    rfl
  · have htop := h (by omega)
    have hne : (a.limbs (a.count - 1)).toNat ≠ 0 := fun hz => htop (UInt32.toNat_inj.mp hz)
    have hval : a.val = value (2 ^ 32) a.digit (a.count - 1) +
        (a.limbs (a.count - 1)).toNat * (2 ^ 32) ^ (a.count - 1) := by
      unfold val
      conv_lhs => rw [← Nat.sub_add_cancel hpos, value_succ]
      rfl
    have hlow : value (2 ^ 32) a.digit (a.count - 1) < (2 ^ 32) ^ (a.count - 1) :=
      value_lt fun i _ => a.digit_lt i
    have hpow : ∀ k, 2 ^ ((a.count - 1) * 32 + k) = 2 ^ k * (2 ^ 32) ^ (a.count - 1) := fun k => by
      rw [pow_add, Nat.mul_comm (a.count - 1) 32, pow_mul, Nat.mul_comm]
    -- the highest limb gives both bounds
    have hge : (a.count - 1) * 32 + (a.limbs (a.count - 1)).toNat.log2 < a.val.size := by
      rw [Nat.lt_size, hpow, hval]
      exact Nat.le_trans (Nat.mul_le_mul_right _ (Nat.log2_self_le hne)) (Nat.le_add_left _ _)
    have hle : a.val.size ≤ (a.count - 1) * 32 + ((a.limbs (a.count - 1)).toNat.log2 + 1) := by
      rw [Nat.size_le, hpow, hval]
      calc value (2 ^ 32) a.digit (a.count - 1) +
            (a.limbs (a.count - 1)).toNat * (2 ^ 32) ^ (a.count - 1)
          < ((a.limbs (a.count - 1)).toNat + 1) * (2 ^ 32) ^ (a.count - 1) := by
            rw [Nat.add_mul, Nat.one_mul]
            omega
        _ ≤ 2 ^ ((a.limbs (a.count - 1)).toNat.log2 + 1) * (2 ^ 32) ^ (a.count - 1) :=
            Nat.mul_le_mul_right _ Nat.lt_log2_self
    rw [bitLen_of_pos hpos, if_pos htop]
    omega

theorem toNat_limbs {a : Mpi} {k : Nat} (hk : k < a.count) : (a.limbs k).toNat = a.val / (2 ^ 32) ^ k % 2 ^ 32 :=
  (digit_of_value (fun i _ => a.digit_lt i) hk).symm

theorem toBytes_congr {a b : Mpi} (ha : a.Normal) (hb : b.Normal) (hval : a.val = b.val) :
    a.pgpMpiToBytes = b.pgpMpiToBytes := by
  have hbits : a.bitLen = b.bitLen := by rw [bitLen_of_normal ha, bitLen_of_normal hb, hval]
  have hlen : a.byteLen = b.byteLen := by
    unfold byteLen
    rw [hbits]
  have hdata : a.dataBytes = b.dataBytes := by
    have hacount := a.byteLen_le_count
    have hbcount := b.byteLen_le_count
    unfold dataBytes
    rw [← hlen]
    refine List.map_congr_left fun i hi => ?_
    have hi' := List.mem_range.mp hi
    have hlimb : limbOf a.byteLen i < a.count ∧ limbOf a.byteLen i < b.count := by
      unfold limbOf
      omega
    rw [toNat_limbs hlimb.1, toNat_limbs hlimb.2, hval]
  unfold pgpMpiToBytes
  rw [hbits, hdata]

/-! ## What comes back -/

/-- The number comes back: its bytes fill their limbs, or only the lowest byte of the highest limb is lost,
and is zero. -/
def Kept (a : Mpi) : Prop :=
  a.byteLen % 4 = 0 ∨ (a.byteLen % 4 = 3 ∧ (a.limbs (a.count - 1)).toNat % 256 = 0)

theorem top_bounds (a : Mpi) (hr : a.byteLen % 4 ≠ 0) :
    a.count = a.byteLen / 4 + 1 ∧ 0 < (a.limbs (a.byteLen / 4)).toNat ∧
      (a.limbs (a.byteLen / 4)).toNat < 2 ^ (8 * (a.byteLen % 4)) := by
  have hle := a.count_le_byteLen
  have hge := a.byteLen_le_count
  have hcount : a.count = a.byteLen / 4 + 1 := by omega
  have hbits : a.bitLen = a.byteLen / 4 * 32 +
      if a.limbs (a.byteLen / 4) ≠ 0 then (a.limbs (a.byteLen / 4)).toNat.log2 + 1 else 0 := by
    rw [bitLen_of_pos (by omega), show a.count - 1 = a.byteLen / 4 by omega]
  have hdef : a.byteLen = (a.bitLen + 7) / 8 := rfl
  split at hbits
  · rename_i htop
    refine ⟨hcount, Nat.pos_of_ne_zero fun h => htop (UInt32.toNat_inj.mp h), ?_⟩
    calc (a.limbs (a.byteLen / 4)).toNat < 2 ^ ((a.limbs (a.byteLen / 4)).toNat.log2 + 1) :=
          Nat.lt_log2_self
      _ ≤ 2 ^ (8 * (a.byteLen % 4)) := Nat.pow_le_pow_right (by omega) (by omega)
  · omega

theorem val_fromBytes_toBytes_full (a : Mpi) (hr : a.byteLen % 4 = 0) :
    (pgpMpiFromBytes a.pgpMpiToBytes).val = a.val := by
  have hlen := a.byteLen_le
  have hle := a.count_le_byteLen
  have hge := a.byteLen_le_count
  -- no limb is cut
  have hread : (pgpMpiFromBytes a.pgpMpiToBytes).val = value (2 ^ 32) a.digit (a.byteLen / 4) := by
    rw [val_fromBytes a.toBytes_ne_nil]
    refine (value_of_zero (by unfold pgpMpiMaxLimbs; omega) fun i hi _ => ?_).trans
      (value_congr fun i hi => ?_)
    · rcases Nat.lt_or_eq_of_le hi with hlt | heq
      · rw [digit, limbs_fromBytes_of_gt a (by omega)]
        rfl
      · rw [← heq, digit, limbs_fromBytes_top, hr, Nat.div_eq_of_lt (a.limbs _).toNat_lt, Nat.zero_mul]
    · rw [digit, limbs_fromBytes_of_lt a hi]
      rfl
  rw [hread]
  refine (value_of_zero (by omega) fun i hi hlt => ?_).symm
  -- a count that is too high by one: the limb above is zero
  have hdef : a.byteLen = (a.bitLen + 7) / 8 := rfl
  have hi' : i = a.count - 1 := by omega
  have hbits := bitLen_of_pos (a := a) (by omega)
  split at hbits
  · omega
  · rename_i htop
    rw [hi', digit, not_not.mp htop]
    rfl

theorem val_fromBytes_toBytes_iff (a : Mpi) : (pgpMpiFromBytes a.pgpMpiToBytes).val = a.val ↔ a.Kept := by
  unfold Kept
  by_cases hr : a.byteLen % 4 = 0
  · exact iff_of_true (val_fromBytes_toBytes_full a hr) (Or.inl hr)
  · obtain ⟨hcount, hpos, hlt⟩ := a.top_bounds hr
    have hlen := a.byteLen_le
    have hbelow : value (2 ^ 32) (pgpMpiFromBytes a.pgpMpiToBytes).digit (a.byteLen / 4) =
        value (2 ^ 32) a.digit (a.byteLen / 4) :=
      value_congr fun i hi => by rw [digit, limbs_fromBytes_of_lt a hi, digit]
    have hval : a.val = value (2 ^ 32) a.digit (a.byteLen / 4) +
        (a.limbs (a.byteLen / 4)).toNat * (2 ^ 32) ^ (a.byteLen / 4) := by
      unfold val
      rw [hcount, value_succ]
      rfl
    have hread : (pgpMpiFromBytes a.pgpMpiToBytes).val = value (2 ^ 32) a.digit (a.byteLen / 4) +
        (a.limbs (a.byteLen / 4)).toNat / 2 ^ (8 * (4 - a.byteLen % 4)) * 2 ^ (8 * (4 - a.byteLen % 4)) *
          (2 ^ 32) ^ (a.byteLen / 4) := by
      rw [val_fromBytes a.toBytes_ne_nil,
        value_of_zero (m := a.byteLen / 4 + 1) (by unfold pgpMpiMaxLimbs; omega) fun i hi _ => by
          rw [digit, limbs_fromBytes_of_gt a (by omega)]
          rfl,
        value_succ, hbelow, digit, limbs_fromBytes_top]
    have hpow : 0 < (2 ^ 32) ^ (a.byteLen / 4) := Nat.pow_pos (by omega)
    rw [hread, hval, Nat.add_left_cancel_iff, Nat.mul_left_inj hpow.ne', hcount, Nat.add_sub_cancel]
    -- a limb of `r` bytes whose lower `4 - r` are cleared
    generalize (a.limbs (a.byteLen / 4)).toNat = top at hpos hlt
    have hcases : a.byteLen % 4 = 1 ∨ a.byteLen % 4 = 2 ∨ a.byteLen % 4 = 3 := by omega
    rcases hcases with h | h | h <;> rw [h] at hlt ⊢ <;> norm_num at hlt ⊢ <;> omega

end Chicago95.Stage2.Mpi
