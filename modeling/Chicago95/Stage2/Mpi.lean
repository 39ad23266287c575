/-
# Chicago95.Stage2.Mpi — the multi-precision integers of `security/common/pgp/pgp_mpi.c`.

A number is an array of 64 limbs of 32 bits, the lowest first, and the count of those that are used; its
`val` is what these denote. Every function is kept as it computes, with what its result held before where
that can be read again, and with `fuel` for the rounds of the division loop, which need not end.
-/
import Chicago95.Lib.Digits
import Chicago95.Lib.Loop

namespace Chicago95.Stage2

open Chicago95.Lib.Digits Chicago95.Lib.Loop
open Function (update_of_ne update_self update)

def pgpMpiMaxLimbs : Nat := 64
def mpiTemp : Nat := 2 * pgpMpiMaxLimbs

/-- `pgp_mpi_t` -/
structure Mpi where
  limbs : Nat → UInt32
  count : Nat
  count_le : count ≤ pgpMpiMaxLimbs

namespace Mpi

/-! ## The code -/

def pgpMpiZero : Mpi := { limbs := fun _ => 0, count := 0, count_le := Nat.zero_le _ }

def pgpMpiSetU32 (v : UInt32) : Mpi :=
  { limbs := fun i => if i = 0 then v else 0
    count := if v = 0 then 0 else 1
    count_le := by split <;> decide }

/-- The loop of `mpi_normalize`. -/
def normCount (limbs : Nat → UInt32) : Nat → Nat
  | 0 => 0
  | n + 1 => if limbs n = 0 then normCount limbs n else n + 1

theorem normCount_le (limbs : Nat → UInt32) : ∀ n, normCount limbs n ≤ n
  | 0 => Nat.le_refl _
  | n + 1 => by
      unfold normCount
      split
      · exact Nat.le_succ_of_le (normCount_le limbs n)
      · exact Nat.le_refl _

def mpiNormalize (a : Mpi) : Mpi :=
  { a with count := normCount a.limbs a.count
           count_le := Nat.le_trans (normCount_le _ _) a.count_le }

/-- `for (i = 0; i < n; i++) dst[i] = src[i];` -/
def copyLimbs (dst src : Nat → UInt32) (n : Nat) : Nat → UInt32 := fun i => if i < n then src i else dst i

/-- The limbs of `a` are copied to `r`. -/
def assign (r a : Mpi) : Mpi := { a with limbs := copyLimbs r.limbs a.limbs a.count }

def pgpMpiIsZero (a : Mpi) : Bool := decide (∀ i < a.count, a.limbs i = 0)

/-- Whether a limb from `lo` on is not zero. -/
def hasLimb (a : Mpi) (lo : Nat) : Bool := !decide (∀ i < a.count, lo ≤ i → a.limbs i = 0)

/-- The last loop of `pgp_mpi_compare`, below limb `i`. -/
def compareBelow (a b : Mpi) : Nat → Int
  | 0 => 0
  | i + 1 =>
    if a.limbs i ≠ b.limbs i then (if b.limbs i < a.limbs i then 1 else -1) else compareBelow a b i

/-- `pgp_mpi_compare`. (Its first loops count an unsigned `i` down to the other number's `count`, and
would not end there with a count of 0 if they found nothing; no call here lets them.) -/
def pgpMpiCompare (a b : Mpi) : Int :=
  if b.count < a.count ∧ a.hasLimb b.count = true then 1
  else if a.count < b.count ∧ b.hasLimb a.count = true then -1
  else compareBelow a b (max a.count b.count)

/-- The number of limbs that `pgp_mpi_sub` goes through. -/
def subCount (a b : Mpi) : Nat :=
  if pgpMpiMaxLimbs ≤ max a.count b.count then pgpMpiMaxLimbs - 1 else max a.count b.count

theorem subCount_le (a b : Mpi) : subCount a b ≤ pgpMpiMaxLimbs := by
  unfold subCount
  split <;> omega

/-- `pgp_mpi_sub(r, a, b)` -/
def pgpMpiSub (r a b : Mpi) : Mpi :=
  let pass := fun i (st : (Nat → UInt32) × Nat) =>
    let diff : Int := (if i < a.count then ((a.limbs i).toNat : Int) else 0) -
      (if i < b.count then ((b.limbs i).toNat : Int) else 0) - st.2
    if diff < 0 then (update st.1 i (UInt32.ofNat (diff + 2 ^ 32).toNat), 1)
    else (update st.1 i (UInt32.ofNat diff.toNat), 0)
  mpiNormalize
    { limbs := (forEach (subCount a b) pass (r.limbs, 0)).1
      count := subCount a b
      count_le := subCount_le a b }

/-- The inner loop of `pgp_mpi_mul` for limb `i`, on `tmp` and the carry. -/
def mulRow (a b : Mpi) (i : Nat) (tmp : Nat → Nat) : (Nat → Nat) × Nat :=
  forEach (min b.count (mpiTemp - i)) (fun j st =>
    let sum := (st.1 (i + j) + (a.limbs i).toNat * (b.limbs j).toNat + st.2) % 2 ^ 64
    (update st.1 (i + j) (sum % 2 ^ 32), sum / 2 ^ 32)) (tmp, 0)

/-- Its outer loop. -/
def mulRows (a b : Mpi) (n : Nat) : Nat → Nat :=
  forEach n (fun i tmp =>
    let st := mulRow a b i tmp
    if st.2 ≠ 0 ∧ i + b.count < mpiTemp then update st.1 (i + b.count) st.2 else st.1) fun _ => 0

/-- `pgp_mpi_mul(r, a, b)` -/
def pgpMpiMul (r a b : Mpi) : Mpi :=
  let tmp := mulRows a b a.count
  let top := min (a.count + b.count) pgpMpiMaxLimbs
  mpiNormalize
    { limbs := copyLimbs r.limbs (fun i => UInt32.ofNat (tmp i)) top
      count := top
      count_le := Nat.min_le_right _ _ }

/-- `pgp_mpi_lshift(r, a, bits)` -/
def pgpMpiLshift (r a : Mpi) (bits : Nat) : Mpi :=
  let limbShift := bits / 32
  let top := min (a.count + limbShift + 1) pgpMpiMaxLimbs
  let pass := fun i (st : (Nat → UInt32) × Nat) =>
    let v := st.2 + if limbShift ≤ i ∧ i - limbShift < a.count then
      (a.limbs (i - limbShift)).toNat * 2 ^ (bits % 32) else 0
    (update st.1 i (UInt32.ofNat v), v / 2 ^ 32)
  mpiNormalize
    { limbs := (forEach top pass (r.limbs, 0)).1
      count := top
      count_le := Nat.min_le_right _ _ }

/-- `pgp_mpi_rshift(r, a, bits)`, whose loop counts down. -/
def pgpMpiRshift (r a : Mpi) (bits : Nat) : Mpi :=
  let limbShift := bits / 32
  let pass := fun k (st : (Nat → UInt32) × Nat) =>
    let i := a.count - 1 - k
    let shifted := UInt32.ofNat ((a.limbs i).toNat * 2 ^ 32 / 2 ^ (bits % 32))
    (if limbShift ≤ i then update st.1 (i - limbShift) (shifted ||| UInt32.ofNat st.2) else st.1,
      (a.limbs i).toNat / 2 ^ (bits % 32))
  mpiNormalize
    { limbs := (forEach a.count pass (r.limbs, 0)).1
      count := a.count - limbShift
      count_le := Nat.le_trans (Nat.sub_le _ _) a.count_le }

/-- The number of bits of a normalized number: `count * 32 - __builtin_clz(top limb)`. -/
def bitCount (a : Mpi) : Nat :=
  if 0 < a.count then a.count * 32 - (31 - (a.limbs (a.count - 1)).toNat.log2) else 0

/-- The loop of `pgp_mpi_div` on the remainder, for at most `fuel` rounds. -/
def divLoop (b : Mpi) : Nat → Mpi → Option Mpi
  | 0, _ => none
  | fuel + 1, a =>
    if b.bitCount ≤ a.bitCount then
      let shifted := pgpMpiLshift pgpMpiZero b (a.bitCount - b.bitCount)
      divLoop b fuel (if 0 ≤ pgpMpiCompare a shifted then pgpMpiSub a a shifted else a)
    else some a

/-- `pgp_mpi_div(NULL, rem, a, b)`; `none` where it has not returned. -/
def pgpMpiDiv (fuel : Nat) (rem a b : Mpi) : Option Mpi :=
  if b.pgpMpiIsZero then some pgpMpiZero
  else
    let tmpA := assign pgpMpiZero a
    let tmpB := assign pgpMpiZero b
    if pgpMpiCompare tmpA tmpB < 0 then some (mpiNormalize (assign rem tmpA))
    else
      let bTop := tmpB.limbs (tmpB.count - 1)
      if bTop = 0 then none
      else
        let shift := 31 - bTop.toNat.log2
        let tmpA := mpiNormalize (pgpMpiLshift tmpA tmpA shift)
        let tmpB := mpiNormalize (pgpMpiLshift tmpB tmpB shift)
        (divLoop tmpB fuel tmpA).map fun tmpA =>
          mpiNormalize (assign rem (pgpMpiRshift tmpA tmpA shift))

/-- `pgp_mpi_mod(r, a, m)`. What `tmp` holds before is not read, and is left out. -/
def pgpMpiMod (fuel : Nat) (r a m : Mpi) : Option Mpi :=
  (pgpMpiDiv fuel pgpMpiZero a m).map fun tmp => mpiNormalize (assign r tmp)

/-- The loop of `pgp_mpi_pow_mod` over the bits below `i`, from the highest. -/
def powLoop (fuel : Nat) (base exp m : Mpi) : Nat → Mpi → Option Mpi
  | 0, result => some result
  | i + 1, result => do
    let result ← pgpMpiMod fuel (pgpMpiMul result result result) (pgpMpiMul result result result) m
    if i / 32 < exp.count ∧ (exp.limbs (i / 32)).toNat.testBit (i % 32) = true then
      let result ← pgpMpiMod fuel (pgpMpiMul result result base) (pgpMpiMul result result base) m
      powLoop fuel base exp m i result
    else powLoop fuel base exp m i result

/-- `pgp_mpi_pow_mod(r, a, e, m)` -/
def pgpMpiPowMod (fuel : Nat) (r a e m : Mpi) : Option Mpi := do
  let base := mpiNormalize (assign pgpMpiZero a)
  let exp := mpiNormalize (assign pgpMpiZero e)
  let base ← pgpMpiMod fuel base base m
  let result ← powLoop fuel base exp m exp.bitCount (pgpMpiSetU32 1)
  pure (mpiNormalize (assign r result))

/-! ## Values -/

/-- The digits of a number. -/
def digit (a : Mpi) (i : Nat) : Nat := (a.limbs i).toNat

/-- The number that the limbs denote. -/
def val (a : Mpi) : Nat := value (2 ^ 32) a.digit a.count

theorem digit_lt (a : Mpi) (i : Nat) : a.digit i < 2 ^ 32 := (a.limbs i).toNat_lt

theorem val_lt (a : Mpi) : a.val < (2 ^ 32) ^ pgpMpiMaxLimbs :=
  Nat.lt_of_lt_of_le (value_lt fun i _ => a.digit_lt i) (Nat.pow_le_pow_right (by decide) a.count_le)

theorem normCount_spec (limbs : Nat → UInt32) (n : Nat) : (∀ i, normCount limbs n ≤ i → i < n → limbs i = 0) ∧
      (normCount limbs n ≠ 0 → limbs (normCount limbs n - 1) ≠ 0) := by
  induction n with
  | zero => exact ⟨fun i _ hi => absurd hi (Nat.not_lt_zero i), fun h => absurd rfl h⟩
  | succ n ih =>
    unfold normCount
    split
    · rename_i hzero
      refine ⟨fun i hle hi => ?_, ih.2⟩
      rcases Nat.lt_succ_iff_lt_or_eq.mp hi with hlt | rfl
      · exact ih.1 i hle hlt
      · exact hzero
    · rename_i hne
      exact ⟨fun i hle hi => by omega, fun _ => hne⟩

@[simp] theorem val_mpiNormalize (a : Mpi) : (mpiNormalize a).val = a.val :=
  (value_of_zero (normCount_le _ _) fun i hle hi => by
    show (a.limbs i).toNat = 0
    rw [(normCount_spec a.limbs a.count).1 i hle hi]
    rfl).symm

@[simp] theorem val_assign (r a : Mpi) : (assign r a).val = a.val :=
  value_congr fun i hi => by
    have hi' : i < a.count := hi
    simp [digit, assign, copyLimbs, hi']

theorem pgpMpiIsZero_iff (a : Mpi) : a.pgpMpiIsZero = true ↔ a.val = 0 := by
  unfold pgpMpiIsZero val
  rw [value_eq_zero_iff (by decide), decide_eq_true_iff]
  exact forall₂_congr fun i _ => (UInt32.toNat_inj (b := 0)).symm

@[simp] theorem val_setU32_one : (pgpMpiSetU32 1).val = 1 := by decide

/-- No limb is left from before above the count. -/
def Padded (a : Mpi) : Prop := ∀ i, a.count ≤ i → a.limbs i = 0

theorem padded_assign_zero (a : Mpi) : (assign pgpMpiZero a).Padded := by
  intro i hi
  have hi' : ¬ i < a.count := Nat.not_lt.mpr hi
  simp [assign, copyLimbs, hi', pgpMpiZero]

theorem Padded.val_eq {a : Mpi} (h : a.Padded) {n : Nat} (hn : a.count ≤ n) : value (2 ^ 32) a.digit n = a.val :=
  value_of_zero hn fun i hi _ => by simp [digit, h i hi]

theorem compareBelow_spec (a b : Mpi) (n : Nat) :
    (compareBelow a b n < 0 ↔ value (2 ^ 32) a.digit n < value (2 ^ 32) b.digit n) ∧
      (compareBelow a b n = 0 → value (2 ^ 32) a.digit n = value (2 ^ 32) b.digit n) := by
  induction n with
  | zero => exact ⟨by simp [compareBelow], fun _ => rfl⟩
  | succ n ih =>
    unfold compareBelow
    by_cases heq : a.limbs n = b.limbs n
    · rw [if_neg (by simpa using heq), value_succ, value_succ, show a.digit n = b.digit n by
        simp [digit, heq]]
      exact ⟨ih.1.trans (by omega), fun h => by rw [ih.2 h]⟩
    · rw [if_pos heq]
      by_cases hlt : b.limbs n < a.limbs n
      · have hval := value_lt_of_digit (g := a.digit) (fun i _ => b.digit_lt i) (Nat.lt_add_one n)
          (UInt32.lt_iff_toNat_lt.mp hlt) fun i hi hin => by omega
        rw [if_pos hlt]
        exact ⟨by constructor <;> intro h <;> omega, fun h => absurd h (by decide)⟩
      · have hlt' : a.limbs n < b.limbs n := by
          rw [UInt32.lt_iff_toNat_lt] at hlt ⊢
          have hne : (a.limbs n).toNat ≠ (b.limbs n).toNat := fun h => heq (UInt32.toNat_inj.mp h)
          omega
        have hval := value_lt_of_digit (g := b.digit) (fun i _ => a.digit_lt i) (Nat.lt_add_one n)
          (UInt32.lt_iff_toNat_lt.mp hlt') fun i hi hin => by omega
        rw [if_neg hlt]
        exact ⟨by constructor <;> intro h <;> [exact hval; decide], fun h => absurd h (by decide)⟩

theorem hasLimb_iff (a : Mpi) (lo : Nat) : a.hasLimb lo = true ↔ ∃ i, lo ≤ i ∧ i < a.count ∧ a.digit i ≠ 0 := by
  unfold hasLimb digit
  rw [Bool.not_eq_true', decide_eq_false_iff_not]
  constructor
  · intro h
    by_contra hnone
    refine h fun i hi hlo => ?_
    by_contra hne
    exact hnone ⟨i, hlo, hi, fun hzero => hne (UInt32.toNat_inj.mp hzero)⟩
  · rintro ⟨i, hlo, hi, hne⟩ hall
    rw [hall i hi hlo] at hne
    exact hne rfl

theorem val_lt_of_hasLimb {a b : Mpi} (hb : b.Padded) (h : a.hasLimb b.count = true) : b.val < a.val := by
  obtain ⟨i, hlo, hi, hne⟩ := (hasLimb_iff a b.count).mp h
  have hbi : b.val ≤ value (2 ^ 32) b.digit i := by rw [hb.val_eq hlo]
  have hlow : value (2 ^ 32) b.digit b.count < (2 ^ 32) ^ b.count := value_lt fun k _ => b.digit_lt k
  have hpow : (2 ^ 32) ^ b.count ≤ (2 ^ 32) ^ i := Nat.pow_le_pow_right (by decide) hlo
  have hstep : (2 ^ 32) ^ i ≤ value (2 ^ 32) a.digit (i + 1) := by
    rw [value_succ]
    have := Nat.le_mul_of_pos_left ((2 ^ 32) ^ i) (Nat.pos_of_ne_zero hne)
    omega
  have hmono : value (2 ^ 32) a.digit (i + 1) ≤ a.val := value_mono hi
  have hval : b.val = value (2 ^ 32) b.digit b.count := rfl
  omega

theorem pgpMpiCompare_lt_iff {a b : Mpi} (ha : a.Padded) (hb : b.Padded) : pgpMpiCompare a b < 0 ↔ a.val < b.val := by
  unfold pgpMpiCompare
  by_cases h1 : b.count < a.count ∧ a.hasLimb b.count = true
  · have := val_lt_of_hasLimb hb h1.2
    rw [if_pos h1]
    constructor <;> intro h <;> omega
  · rw [if_neg h1]
    by_cases h2 : a.count < b.count ∧ b.hasLimb a.count = true
    · have := val_lt_of_hasLimb ha h2.2
      rw [if_pos h2]
      constructor <;> intro h <;> omega
    · rw [if_neg h2, (compareBelow_spec a b _).1, ha.val_eq (Nat.le_max_left _ _),
        hb.val_eq (Nat.le_max_right _ _)]

/-! ## The product -/

/-- What `tmp` denotes. -/
abbrev tmpVal (tmp : Nat → Nat) : Nat := value (2 ^ 32) tmp mpiTemp

/-- `tmp` holds 32 bits at each place, and nothing from place `n` on. -/
def Low (tmp : Nat → Nat) (n : Nat) : Prop := (∀ i, tmp i < 2 ^ 32) ∧ ∀ i, n ≤ i → tmp i = 0

/-- A pass of the inner loop. -/
def mulRowPass (a b : Mpi) (i j : Nat) (st : (Nat → Nat) × Nat) : (Nat → Nat) × Nat :=
  let sum := (st.1 (i + j) + (a.limbs i).toNat * (b.limbs j).toNat + st.2) % 2 ^ 64
  (update st.1 (i + j) (sum % 2 ^ 32), sum / 2 ^ 32)

/-- Before pass `j` of the row of limb `i`, which found `tmp`. -/
structure RowInv (a b : Mpi) (i : Nat) (tmp : Nat → Nat) (j : Nat) (st : (Nat → Nat) × Nat) : Prop where
  low : Low st.1 (i + b.count)
  carry : st.2 < 2 ^ 32
  val : tmpVal st.1 + st.2 * (2 ^ 32) ^ (i + j) =
    tmpVal tmp + a.digit i * (2 ^ 32) ^ i * value (2 ^ 32) b.digit j

theorem RowInv.sum_lt {a b : Mpi} {i j : Nat} {tmp : Nat → Nat} {st : (Nat → Nat) × Nat}
    (h : RowInv a b i tmp j st) : st.1 (i + j) + (a.limbs i).toNat * (b.limbs j).toNat + st.2 < 2 ^ 64 := by
  have hprod : a.digit i * b.digit j ≤ (2 ^ 32 - 1) * (2 ^ 32 - 1) :=
    Nat.mul_le_mul (Nat.le_sub_one_of_lt (a.digit_lt i)) (Nat.le_sub_one_of_lt (b.digit_lt j))
  have hd := h.low.1 (i + j)
  have hc := h.carry
  rw [show (a.limbs i).toNat * (b.limbs j).toNat = a.digit i * b.digit j from rfl]
  omega

theorem place_lt {a b : Mpi} {i j : Nat} (hi : i < a.count) (hj : j ≤ b.count) : i + j < mpiTemp := by
  have ha := a.count_le
  have hb := b.count_le
  simp only [mpiTemp, pgpMpiMaxLimbs] at *
  omega

theorem RowInv.pass {a b : Mpi} {i j : Nat} {tmp : Nat → Nat} {st : (Nat → Nat) × Nat}
    (h : RowInv a b i tmp j st) (hi : i < a.count) (hj : j < b.count) :
    RowInv a b i tmp (j + 1) (mulRowPass a b i j st) := by
  obtain ⟨t, carry⟩ := st
  have hsum := h.sum_lt
  obtain ⟨⟨hdigits, hzero⟩, hcarry, heq⟩ := h
  dsimp only at hcarry heq hsum
  unfold mulRowPass
  dsimp only
  rw [Nat.mod_eq_of_lt hsum]
  rw [show (a.limbs i).toNat * (b.limbs j).toNat = a.digit i * b.digit j from rfl] at hsum ⊢
  set sum := t (i + j) + a.digit i * b.digit j + carry with hdef
  refine ⟨⟨fun k => ?_, fun k hk => ?_⟩, by dsimp only; omega, ?_⟩
  · dsimp only
    by_cases hk : k = i + j
    · subst hk
      rw [update_self]
      exact Nat.mod_lt _ (by decide)
    · rw [update_of_ne hk]
      exact hdigits k
  · dsimp only
    rw [update_of_ne (by omega)]
    exact hzero k hk
  · have hplace : i + j < mpiTemp := place_lt hi (Nat.le_of_lt hj)
    have hupdate := value_update (B := 2 ^ 32) (f := t) hplace (sum % 2 ^ 32)
    have hsplit : sum = sum % 2 ^ 32 + sum / 2 ^ 32 * 2 ^ 32 := by omega
    have hweight : sum * (2 ^ 32) ^ (i + j) = sum % 2 ^ 32 * (2 ^ 32) ^ (i + j) +
        sum / 2 ^ 32 * (2 ^ 32) ^ (i + (j + 1)) := by
      conv_lhs => rw [hsplit]
      rw [Nat.add_mul, ← Nat.add_assoc i j 1, pow_succ]
      ring
    have hexpand : sum * (2 ^ 32) ^ (i + j) = t (i + j) * (2 ^ 32) ^ (i + j) +
        a.digit i * (2 ^ 32) ^ i * (b.digit j * (2 ^ 32) ^ j) + carry * (2 ^ 32) ^ (i + j) := by
      rw [hdef, pow_add]
      ring
    dsimp only
    rw [value_succ, Nat.mul_add]
    unfold tmpVal at heq ⊢
    omega

theorem RowInv.start {a b : Mpi} {i : Nat} {tmp : Nat → Nat} (hlow : Low tmp (i + b.count)) :
    RowInv a b i tmp 0 (tmp, 0) :=
  ⟨hlow, Nat.two_pow_pos 32, by simp⟩

theorem mulRow_eq (a b : Mpi) {i : Nat} (hi : i < a.count) (tmp : Nat → Nat) :
    mulRow a b i tmp = forEach b.count (mulRowPass a b i) (tmp, 0) := by
  have hmin : min b.count (mpiTemp - i) = b.count := by
    have := place_lt (b := b) hi (Nat.le_refl _)
    omega
  unfold mulRow
  rw [hmin]
  rfl

theorem mulRow_spec (a b : Mpi) {i : Nat} (hi : i < a.count) {tmp : Nat → Nat}
    (hlow : Low tmp (i + b.count)) : RowInv a b i tmp b.count (mulRow a b i tmp) := by
  rw [mulRow_eq a b hi]
  exact forEach_induction (P := RowInv a b i tmp) (RowInv.start hlow) fun j st hj h => h.pass hi hj

/-- A pass of the outer loop. -/
def mulRowsPass (a b : Mpi) (i : Nat) (tmp : Nat → Nat) : Nat → Nat :=
  let st := mulRow a b i tmp
  if st.2 ≠ 0 ∧ i + b.count < mpiTemp then update st.1 (i + b.count) st.2 else st.1

/-- Before pass `n` of the outer loop. -/
structure RowsInv (a b : Mpi) (n : Nat) (tmp : Nat → Nat) : Prop where
  low : Low tmp (n + b.count)
  val : tmpVal tmp = value (2 ^ 32) a.digit n * b.val

theorem RowsInv.pass {a b : Mpi} {i : Nat} {tmp : Nat → Nat} (h : RowsInv a b i tmp) (hi : i < a.count) :
    RowsInv a b (i + 1) (mulRowsPass a b i tmp) := by
  obtain ⟨⟨hdigits, hzero⟩, hcarry, heq⟩ := mulRow_spec a b hi h.low
  have hplace : i + b.count < mpiTemp := place_lt hi (Nat.le_refl _)
  have hgoal : value (2 ^ 32) a.digit (i + 1) * b.val =
      tmpVal tmp + a.digit i * (2 ^ 32) ^ i * b.val := by
    rw [h.val, value_succ]
    ring
  unfold mulRowsPass
  dsimp only
  split
  · -- the carry goes where nothing is yet
    refine ⟨⟨fun k => ?_, fun k hk => ?_⟩, ?_⟩
    · by_cases hk : k = i + b.count
      · subst hk
        rw [update_self]
        exact hcarry
      · rw [update_of_ne hk]
        exact hdigits k
    · rw [update_of_ne (by omega)]
      exact hzero k (by omega)
    · have hupdate := value_update (B := 2 ^ 32) (f := (mulRow a b i tmp).1) hplace (mulRow a b i tmp).2
      rw [hzero _ (Nat.le_refl _), Nat.zero_mul, Nat.add_zero] at hupdate
      rw [hgoal]
      exact hupdate.trans heq
  · rename_i hnone
    have hcarry0 : (mulRow a b i tmp).2 = 0 := by
      by_contra hne
      exact hnone ⟨hne, hplace⟩
    rw [hcarry0, Nat.zero_mul, Nat.add_zero] at heq
    exact ⟨⟨hdigits, fun k hk => hzero k (by omega)⟩, heq.trans hgoal.symm⟩

theorem RowsInv.start (a b : Mpi) : RowsInv a b 0 fun _ => 0 := by
  refine ⟨⟨fun _ => Nat.two_pow_pos 32, fun _ _ => rfl⟩, ?_⟩
  rw [value_zero, Nat.zero_mul]
  exact (value_eq_zero_iff (by decide)).mpr fun _ _ => rfl

theorem mulRows_spec (a b : Mpi) : RowsInv a b a.count (mulRows a b a.count) :=
  forEach_induction (P := RowsInv a b) (RowsInv.start a b) fun _ _ hi h => h.pass hi

theorem val_mul_mod (r a b : Mpi) : (pgpMpiMul r a b).val = a.val * b.val % (2 ^ 32) ^ pgpMpiMaxLimbs := by
  obtain ⟨⟨hdigits, hzero⟩, hval⟩ := mulRows_spec a b
  have ha := a.count_le
  have hb := b.count_le
  have htop : min (a.count + b.count) pgpMpiMaxLimbs ≤ mpiTemp := by
    simp only [mpiTemp, pgpMpiMaxLimbs] at *
    omega
  have hcut : value (2 ^ 32) (mulRows a b a.count) (min (a.count + b.count) pgpMpiMaxLimbs) =
      tmpVal (mulRows a b a.count) % (2 ^ 32) ^ pgpMpiMaxLimbs := by
    have hlow : value (2 ^ 32) (mulRows a b a.count) (min (a.count + b.count) pgpMpiMaxLimbs) <
        (2 ^ 32) ^ min (a.count + b.count) pgpMpiMaxLimbs := value_lt fun i _ => hdigits i
    by_cases hcount : a.count + b.count ≤ pgpMpiMaxLimbs
    · rw [Nat.min_eq_left hcount] at htop hlow ⊢
      have heq : tmpVal (mulRows a b a.count) = value (2 ^ 32) (mulRows a b a.count) (a.count + b.count) :=
        value_of_zero htop fun i hi _ => hzero i hi
      rw [heq, Nat.mod_eq_of_lt (Nat.lt_of_lt_of_le hlow (Nat.pow_le_pow_right (by decide) hcount))]
    · rw [Nat.min_eq_right (by omega)] at htop hlow ⊢
      obtain ⟨q, hq⟩ := value_split (B := 2 ^ 32) (f := mulRows a b a.count) htop
      unfold tmpVal
      rw [hq, Nat.add_mul_mod_self_right, Nat.mod_eq_of_lt hlow]
  unfold pgpMpiMul
  rw [val_mpiNormalize]
  calc value (2 ^ 32) _ (min (a.count + b.count) pgpMpiMaxLimbs)
      = value (2 ^ 32) (mulRows a b a.count) (min (a.count + b.count) pgpMpiMaxLimbs) :=
        value_congr fun i hi => by
          simp only [digit, copyLimbs, hi, if_true]
          exact UInt32.toNat_ofNat_of_lt' (hdigits i)
    _ = tmpVal (mulRows a b a.count) % (2 ^ 32) ^ pgpMpiMaxLimbs := hcut
    _ = a.val * b.val % (2 ^ 32) ^ pgpMpiMaxLimbs := by rw [hval]; rfl

theorem val_mul (r a b : Mpi) (h : a.val * b.val < (2 ^ 32) ^ pgpMpiMaxLimbs) :
    (pgpMpiMul r a b).val = a.val * b.val := by
  rw [val_mul_mod, Nat.mod_eq_of_lt h]

/-! ## The remainder and the power -/

theorem mod_of_lt (fuel : Nat) (r : Mpi) {a m : Mpi} (h : a.val < m.val) :
    ∃ x, pgpMpiMod fuel r a m = some x ∧ x.val = a.val := by
  have hzero : m.pgpMpiIsZero = false := by
    rw [Bool.eq_false_iff]
    intro hz
    rw [(pgpMpiIsZero_iff m).mp hz] at h
    omega
  have hcompare : pgpMpiCompare (assign pgpMpiZero a) (assign pgpMpiZero m) < 0 := by
    rw [pgpMpiCompare_lt_iff (padded_assign_zero a) (padded_assign_zero m), val_assign, val_assign]
    exact h
  refine ⟨mpiNormalize (assign r (mpiNormalize (assign pgpMpiZero (assign pgpMpiZero a)))), ?_, by simp⟩
  unfold pgpMpiMod pgpMpiDiv
  simp only [hzero, hcompare, Bool.false_eq_true, if_false, if_true, Option.map_some]

theorem pow_lt_of_le {x e m j : Nat} (hm : 1 < m) (he : x ^ e < m) (hj : j ≤ e) : x ^ j < m := by
  rcases Nat.eq_zero_or_pos x with rfl | hx
  · rcases Nat.eq_zero_or_pos j with rfl | hj0
    · simpa using hm
    · rw [Nat.zero_pow hj0]
      omega
  · exact Nat.lt_of_le_of_lt (Nat.pow_le_pow_right hx hj) he

theorem bit_iff (a : Mpi) (i : Nat) :
    (i / 32 < a.count ∧ (a.limbs (i / 32)).toNat.testBit (i % 32) = true) ↔ a.val.testBit i = true := by
  by_cases hlt : i / 32 < a.count
  · have hdigit : a.val / (2 ^ 32) ^ (i / 32) % 2 ^ 32 = (a.limbs (i / 32)).toNat :=
      digit_of_value (fun k _ => a.digit_lt k) hlt
    have hi : i % 32 + 32 * (i / 32) = i := Nat.mod_add_div i 32
    rw [← hdigit, ← pow_mul, Nat.testBit_mod_two_pow, Nat.testBit_div_two_pow, hi]
    have hmod : i % 32 < 32 := Nat.mod_lt _ (by decide)
    simp [hlt, hmod]
  · have hpow : a.val < 2 ^ i := by
      have hval : a.val < (2 ^ 32) ^ a.count := value_lt fun k _ => a.digit_lt k
      rw [← pow_mul] at hval
      exact Nat.lt_of_lt_of_le hval (Nat.pow_le_pow_right (by decide) (by omega))
    rw [Nat.testBit_lt_two_pow hpow]
    simp [hlt]

theorem val_lt_bitCount (a : Mpi) : (mpiNormalize a).val < 2 ^ (mpiNormalize a).bitCount := by
  obtain ⟨-, htop⟩ := normCount_spec a.limbs a.count
  unfold bitCount
  rcases hcount : (mpiNormalize a).count with _ | k
  · have : (mpiNormalize a).val = 0 := by
      unfold val
      rw [hcount]
      rfl
    rw [this]
    exact Nat.two_pow_pos _
  · have hne : (mpiNormalize a).digit k ≠ 0 := by
      have hk : normCount a.limbs a.count = k + 1 := hcount
      rw [hk] at htop
      exact fun hzero => htop (Nat.succ_ne_zero k) (UInt32.toNat_inj.mp hzero)
    have hlow : value (2 ^ 32) (mpiNormalize a).digit k < (2 ^ 32) ^ k :=
      value_lt fun i _ => (mpiNormalize a).digit_lt i
    have hlog := Nat.lt_log2_self (n := (mpiNormalize a).digit k)
    have hlog32 : ((mpiNormalize a).digit k).log2 < 32 :=
      (Nat.log2_lt hne).mpr ((mpiNormalize a).digit_lt k)
    have hbits : (k + 1) * 32 - (31 - ((mpiNormalize a).digit k).log2) =
        (((mpiNormalize a).digit k).log2 + 1) + 32 * k := by omega
    rw [if_pos (Nat.succ_pos k), Nat.add_sub_cancel]
    show value (2 ^ 32) (mpiNormalize a).digit (mpiNormalize a).count <
      2 ^ ((k + 1) * 32 - (31 - ((mpiNormalize a).digit k).log2))
    rw [hbits, pow_add, pow_mul, hcount, value_succ]
    have hstep : ((mpiNormalize a).digit k + 1) * (2 ^ 32) ^ k ≤
        2 ^ (((mpiNormalize a).digit k).log2 + 1) * (2 ^ 32) ^ k := Nat.mul_le_mul_right _ hlog
    rw [Nat.add_mul, Nat.one_mul] at hstep
    omega

theorem powLoop_val (fuel : Nat) {base exp m : Mpi} (hm : 1 < m.val)
    (hpow : base.val ^ exp.val < m.val) : ∀ {i : Nat} {result : Mpi}, result.val = base.val ^ (exp.val / 2 ^ i) →
      ∃ x, powLoop fuel base exp m i result = some x ∧ x.val = base.val ^ exp.val := by
  have hmul : ∀ {r a b : Mpi} {j : Nat}, a.val * b.val = base.val ^ j → j ≤ exp.val →
      ∃ x, pgpMpiMod fuel (pgpMpiMul r a b) (pgpMpiMul r a b) m = some x ∧ x.val = base.val ^ j := by
    intro r a b j hj hle
    have hlt := pow_lt_of_le hm hpow hle
    have hval : (pgpMpiMul r a b).val = base.val ^ j := by
      rw [val_mul r a b (by rw [hj]; exact Nat.lt_trans hlt m.val_lt), hj]
    obtain ⟨x, hx, hxval⟩ := mod_of_lt fuel (pgpMpiMul r a b) (a := pgpMpiMul r a b) (m := m)
      (by rw [hval]; exact hlt)
    exact ⟨x, hx, hxval.trans hval⟩
  intro i
  induction i with
  | zero =>
    intro result hres
    exact ⟨result, rfl, by rw [hres, pow_zero, Nat.div_one]⟩
  | succ i ih =>
    intro result hres
    have hhalf : exp.val / 2 ^ (i + 1) = exp.val / 2 ^ i / 2 := by
      rw [pow_succ, Nat.div_div_eq_div_mul]
    have hle : exp.val / 2 ^ i ≤ exp.val := Nat.div_le_self _ _
    obtain ⟨sq, hsq, hsqval⟩ := hmul (r := result) (a := result) (b := result)
      (j := 2 * (exp.val / 2 ^ (i + 1))) (by rw [hres, ← pow_add]; congr 1; omega) (by omega)
    have hbit := (bit_iff exp i).trans (b := exp.val.testBit i = true) (c := exp.val / 2 ^ i % 2 = 1)
      (by rw [Nat.testBit_eq_decide_div_mod_eq, decide_eq_true_iff])
    unfold powLoop
    rw [hsq]
    dsimp only [Option.bind_eq_bind, Option.bind_some]
    by_cases hset : exp.val / 2 ^ i % 2 = 1
    · rw [if_pos (hbit.mpr hset)]
      obtain ⟨pr, hpr, hprval⟩ := hmul (r := sq) (a := sq) (b := base) (j := exp.val / 2 ^ i)
        (by rw [hsqval, ← pow_succ]; congr 1; omega) hle
      rw [hpr]
      exact ih hprval
    · rw [if_neg fun h => hset (hbit.mp h)]
      refine ih ?_
      rw [hsqval]
      congr 1
      omega

theorem powMod_val (fuel : Nat) (r : Mpi) {a e m : Mpi} (hm : 1 < m.val) (ha : a.val < m.val)
    (hpow : a.val ^ e.val < m.val) : ∃ x, pgpMpiPowMod fuel r a e m = some x ∧ x.val = a.val ^ e.val := by
  have hsmall : (mpiNormalize (assign pgpMpiZero a)).val < m.val := by simpa using ha
  obtain ⟨base, hbase, hbaseval⟩ := mod_of_lt fuel (mpiNormalize (assign pgpMpiZero a)) hsmall
  rw [val_mpiNormalize, val_assign] at hbaseval
  have hexp : (mpiNormalize (assign pgpMpiZero e)).val = e.val := by simp
  have hpow' : base.val ^ (mpiNormalize (assign pgpMpiZero e)).val < m.val := by
    rw [hbaseval, hexp]
    exact hpow
  -- above its highest bit the exponent is 0
  have hstart : (pgpMpiSetU32 1).val = base.val ^ ((mpiNormalize (assign pgpMpiZero e)).val /
      2 ^ (mpiNormalize (assign pgpMpiZero e)).bitCount) := by
    rw [Nat.div_eq_of_lt (val_lt_bitCount _)]
    rfl
  obtain ⟨x, hx, hxval⟩ := powLoop_val fuel hm hpow' hstart
  refine ⟨mpiNormalize (assign r x), ?_, by rw [val_mpiNormalize, val_assign, hxval, hbaseval, hexp]⟩
  unfold pgpMpiPowMod
  dsimp only [Option.bind_eq_bind]
  rw [hbase, Option.bind_some, hx, Option.bind_some]
  rfl

end Mpi

end Chicago95.Stage2
