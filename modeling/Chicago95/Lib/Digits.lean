/-
# Chicago95.Lib.Digits — numbers by their digits.

`value B f n` is the number whose `n` digits to the base `B` are `f 0`, …, `f (n - 1)`, the lowest first.
Three facts carry what is proved about arithmetic on digits:

* `value_update` — a digit that is written changes the value by its weight;
* `digit_of_value` — a digit is read off the value by a division;
* `value_lt_of_digit` — numbers compare as their highest different digits do.
-/
import Mathlib.Algebra.Order.Ring.Nat
import Mathlib.Data.List.Induction
import Mathlib.Logic.Function.Basic
import Mathlib.Tactic.Ring

namespace Chicago95.Lib.Digits

variable {B : Nat} {f g : Nat → Nat} {k m n : Nat}

/-- The number with the digits `f 0`, …, `f (n - 1)`. -/
def value (B : Nat) (f : Nat → Nat) : Nat → Nat
  | 0 => 0
  | n + 1 => value B f n + f n * B ^ n

@[simp] theorem value_zero (B : Nat) (f : Nat → Nat) : value B f 0 = 0 := rfl

theorem value_succ (B : Nat) (f : Nat → Nat) (n : Nat) : value B f (n + 1) = value B f n + f n * B ^ n := rfl

theorem value_congr (h : ∀ i < n, f i = g i) : value B f n = value B g n := by
  induction n with
  | zero => rfl
  | succ n ih => rw [value_succ, value_succ, ih fun i hi => h i (by omega), h n (by omega)]

theorem value_lt (h : ∀ i < n, f i < B) : value B f n < B ^ n := by
  induction n with
  | zero => exact Nat.one_pos
  | succ n ih =>
    have hrest := ih fun i hi => h i (by omega)
    have hdigit : (f n + 1) * B ^ n ≤ B * B ^ n := Nat.mul_le_mul_right _ (h n (by omega))
    rw [value_succ, pow_succ]
    calc value B f n + f n * B ^ n < B ^ n + f n * B ^ n := by omega
      _ = (f n + 1) * B ^ n := by ring
      _ ≤ B * B ^ n := hdigit
      _ = B ^ n * B := by ring

theorem value_split (hk : k ≤ n) : ∃ r, value B f n = value B f k + r * B ^ k := by
  induction n, hk using Nat.le_induction with
  | base => exact ⟨0, by simp⟩
  | succ n hkn ih =>
    obtain ⟨r, hr⟩ := ih
    obtain ⟨d, rfl⟩ := Nat.exists_eq_add_of_le hkn
    refine ⟨r + f (k + d) * B ^ d, ?_⟩
    rw [value_succ, hr, pow_add]
    ring

theorem value_mono (hk : k ≤ n) : value B f k ≤ value B f n := by
  obtain ⟨r, hr⟩ := value_split (B := B) (f := f) hk
  omega

theorem value_of_zero (hm : m ≤ n) (h : ∀ i, m ≤ i → i < n → f i = 0) : value B f n = value B f m := by
  induction n, hm using Nat.le_induction with
  | base => rfl
  | succ n hmn ih => rw [value_succ, h n hmn (by omega), ih fun i hi hin => h i hi (by omega)]; simp

/-- **A digit that is written** changes the value by its weight. -/
theorem value_update (hk : k < n) (x : Nat) :
    value B (Function.update f k x) n + f k * B ^ k = value B f n + x * B ^ k := by
  induction n with
  | zero => omega
  | succ n ih =>
    rw [value_succ, value_succ]
    by_cases hkn : k = n
    · subst hkn
      rw [Function.update_self,
        value_congr fun i hi => Function.update_of_ne (Nat.ne_of_lt hi) _ f]
      ring
    · rw [Function.update_of_ne (Ne.symm hkn)]
      have := ih (by omega)
      omega

/-- **A digit is read off the value.** -/
theorem digit_of_value (h : ∀ i < n, f i < B) (hk : k < n) : value B f n / B ^ k % B = f k := by
  obtain ⟨r, hr⟩ := value_split (B := B) (f := f) (show k + 1 ≤ n by omega)
  have hlow : value B f k < B ^ k := value_lt fun i hi => h i (by omega)
  have hform : value B f n = value B f k + B ^ k * (f k + B * r) := by
    rw [hr, value_succ, pow_succ]
    ring
  rw [hform, Nat.add_mul_div_left _ _ (by omega), Nat.div_eq_of_lt hlow, Nat.zero_add,
    Nat.add_mul_mod_self_left, Nat.mod_eq_of_lt (h k hk)]

/-- **The digits of a number** make up what of it they cover. -/
theorem value_digits (x : Nat) : value B (fun i => x / B ^ i % B) n = x % B ^ n := by
  induction n with
  | zero => rw [value_zero, pow_zero, Nat.mod_one]
  | succ n ih => rw [value_succ, ih, Nat.mod_pow_succ, Nat.mul_comm]

theorem value_div (h : ∀ i < n, f i < B) (hk : n ≤ k) (hB : 0 < B) : value B f n / B ^ k = 0 :=
  Nat.div_eq_of_lt (Nat.lt_of_lt_of_le (value_lt h) (Nat.pow_le_pow_right hB hk))

/-- **Numbers compare as their highest different digits.** -/
theorem value_lt_of_digit (hf : ∀ i < n, f i < B) (hk : k < n) (hlt : f k < g k)
    (hsame : ∀ i, k < i → i < n → f i = g i) : value B f n < value B g n := by
  induction n with
  | zero => omega
  | succ n ih =>
    rw [value_succ, value_succ]
    by_cases hkn : k = n
    · subst hkn
      have hlow : value B f k < B ^ k := value_lt fun i hi => hf i (by omega)
      have hdigit : (f k + 1) * B ^ k ≤ g k * B ^ k := Nat.mul_le_mul_right _ hlt
      have hexpand : (f k + 1) * B ^ k = f k * B ^ k + B ^ k := by ring
      omega
    · rw [hsame n (by omega) (by omega)]
      have := ih (fun i hi => hf i (by omega)) (by omega) fun i hi hin => hsame i hi (by omega)
      omega

theorem value_eq_zero_iff (hB : 0 < B) : value B f n = 0 ↔ ∀ i < n, f i = 0 := by
  induction n with
  | zero => simp
  | succ n ih =>
    rw [value_succ]
    constructor
    · intro h
      have hdigit : f n * B ^ n = 0 := by omega
      have hlow : ∀ i < n, f i = 0 := ih.mp (by omega)
      intro i hi
      rcases Nat.lt_succ_iff_lt_or_eq.mp hi with hlt | rfl
      · exact hlow i hlt
      · rcases Nat.mul_eq_zero.mp hdigit with hzero | hpow
        · exact hzero
        · have := Nat.pow_pos (n := i) hB
          omega
    · intro h
      rw [ih.mpr fun i hi => h i (by omega), h n (by omega)]
      simp

/-! ## Bits -/

theorem testBit_of_lt_two_pow {x w p : Nat} (hx : x < 2 ^ w) (hp : w ≤ p) : x.testBit p = false :=
  Nat.testBit_lt_two_pow (Nat.lt_of_lt_of_le hx (Nat.pow_le_pow_right (by omega) hp))

theorem testBit_ofNat_byte (n p : Nat) (hp : p < 8) : (UInt8.ofNat n).toNat.testBit p = n.testBit p := by
  rw [UInt8.toNat_ofNat', Nat.testBit_mod_two_pow, decide_eq_true hp, Bool.true_and]

/-! ## Bytes -/

/-- A number in `n` bytes, the highest first. -/
def bigEndian (n x : Nat) : List UInt8 := (List.range n).map fun j => UInt8.ofNat (x / 256 ^ (n - 1 - j))

/-- The number that bytes stand for, the highest first. -/
def ofBigEndian (bs : List UInt8) : Nat := bs.foldl (fun x b => 256 * x + b.toNat) 0

@[simp] theorem length_bigEndian (n x : Nat) : (bigEndian n x).length = n := by
  unfold bigEndian
  rw [List.length_map, List.length_range]

theorem ofBigEndian_concat (bs : List UInt8) (b : UInt8) :
    ofBigEndian (bs ++ [b]) = 256 * ofBigEndian bs + b.toNat := by
  unfold ofBigEndian
  rw [List.foldl_append, List.foldl_cons, List.foldl_nil]

theorem ofBigEndian_append (xs ys : List UInt8) :
    ofBigEndian (xs ++ ys) = ofBigEndian xs * 256 ^ ys.length + ofBigEndian ys := by
  induction ys using List.reverseRecOn with
  | nil => simp [ofBigEndian]
  | append_singleton ys b ih =>
    rw [← List.append_assoc, ofBigEndian_concat, ih, ofBigEndian_concat, List.length_append,
      List.length_singleton, pow_succ]
    ring

/-- **A byte is read off the number.** -/
theorem ofBigEndian_div (bs : List UInt8) {j : Nat} (hj : j < bs.length) :
    ofBigEndian bs / 256 ^ (bs.length - 1 - j) % 256 = (bs.getD j 0).toNat := by
  induction bs using List.reverseRecOn generalizing j with
  | nil => exact absurd hj (Nat.not_lt_zero j)
  | append_singleton bs b ih =>
    have hb := b.toNat_lt
    rw [List.length_append, List.length_singleton] at hj ⊢
    rw [ofBigEndian_concat, List.getD_eq_getElem?_getD, List.getElem?_append]
    split
    · rename_i hlt
      rw [show bs.length + 1 - 1 - j = (bs.length - 1 - j) + 1 by omega, pow_succ, Nat.mul_comm (256 ^ _),
        ← Nat.div_div_eq_div_mul, show (256 * ofBigEndian bs + b.toNat) / 256 = ofBigEndian bs by omega,
        ih hlt, List.getD_eq_getElem?_getD]
    · rw [show j - bs.length = 0 by omega, show bs.length + 1 - 1 - j = 0 by omega, pow_zero, Nat.div_one]
      show (256 * ofBigEndian bs + b.toNat) % 256 = b.toNat
      omega

theorem ofBigEndian_lt (bs : List UInt8) : ofBigEndian bs < 256 ^ bs.length := by
  induction bs using List.reverseRecOn with
  | nil => exact Nat.one_pos
  | append_singleton bs b ih =>
    have hb := b.toNat_lt
    rw [ofBigEndian_concat, List.length_append, List.length_singleton, pow_succ]
    omega

theorem bigEndian_ofBigEndian (bs : List UInt8) : bigEndian bs.length (ofBigEndian bs) = bs := by
  refine List.ext_getElem (length_bigEndian _ _) fun j hj hj' => ?_
  have hbyte := ofBigEndian_div bs hj'
  rw [List.getD_eq_getElem?_getD, List.getElem?_eq_getElem hj', Option.getD_some] at hbyte
  simp only [bigEndian, List.getElem_map, List.getElem_range]
  refine UInt8.toNat_inj.mp ?_
  rw [UInt8.toNat_ofNat']
  exact hbyte

theorem bigEndian_succ (n x : Nat) : bigEndian (n + 1) x = bigEndian n (x / 256) ++ [UInt8.ofNat x] := by
  unfold bigEndian
  rw [List.range_succ, List.map_append, List.map_singleton]
  refine congrArg₂ _ (List.map_congr_left fun j hj => ?_) ?_
  · have hlt := List.mem_range.mp hj
    rw [show n + 1 - 1 - j = (n - 1 - j) + 1 by omega, pow_succ', Nat.div_div_eq_div_mul]
  · rw [show n + 1 - 1 - n = 0 by omega, pow_zero, Nat.div_one]

theorem ofBigEndian_bigEndian (n x : Nat) : ofBigEndian (bigEndian n x) = x % 256 ^ n := by
  induction n generalizing x with
  | zero => exact (Nat.mod_one x).symm
  | succ n ih =>
    have hsplit : x % 256 ^ (n + 1) = x % 256 + 256 * (x / 256 % 256 ^ n) := by rw [pow_succ', Nat.mod_mul]
    rw [bigEndian_succ, ofBigEndian_concat, ih, UInt8.toNat_ofNat', hsplit]
    omega

end Chicago95.Lib.Digits
