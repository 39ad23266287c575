/-
# Chicago95.Lib.Lucas — primality by Lucas's test.

`prime_of_factors` is Mathlib's test with the prime factors of `p - 1` given as a list. The primes below are the
factors that a certificate of `2 ^ 255 - 19` needs, each certified by the ones before it; the powers are
evaluated in the ring modulo the prime.
-/
import Mathlib.Data.List.Prime
import Mathlib.NumberTheory.LucasPrimality
import Mathlib.Tactic.NormNum.Prime
import Mathlib.Tactic.ReduceModChar

namespace Chicago95.Lib.Lucas

/-- **Lucas's test**, over a factorisation of `p - 1` into primes. -/
theorem prime_of_factors {p : ℕ} (a : ZMod p) (factors : List ℕ) (hprime : ∀ q ∈ factors, q.Prime)
    (hprod : factors.prod = p - 1) (hone : a ^ (p - 1) = 1) (hne : ∀ q ∈ factors, a ^ ((p - 1) / q) ≠ 1) : p.Prime := by
  apply lucas_primality p a hone
  intro q hq hdvd
  rw [← hprod] at hdvd
  exact hne q (mem_list_primes_of_dvd_prod hq.prime (fun r hr => (hprime r hr).prime) hdvd)

theorem ofNat_ne_zero {p n : ℕ} [n.AtLeastTwo] (h : n < p) : (OfNat.ofNat n : ZMod p) ≠ 0 := by
  have htwo : 2 ≤ n := Nat.AtLeastTwo.prop
  rw [← Nat.cast_ofNat, Ne, ZMod.natCast_eq_zero_iff]
  show ¬ p ∣ n
  exact Nat.not_dvd_of_pos_of_lt (by omega) h

theorem ofNat_ne_one {p n : ℕ} [n.AtLeastTwo] (h : n < p) : (OfNat.ofNat n : ZMod p) ≠ 1 := by
  have htwo : 2 ≤ n := Nat.AtLeastTwo.prop
  intro heq
  have hcast : ((n : ℕ) : ZMod p) = ((1 : ℕ) : ZMod p) := by
    rw [Nat.cast_one]
    exact heq
  rw [ZMod.natCast_eq_natCast_iff', Nat.mod_eq_of_lt h, Nat.mod_eq_of_lt (by omega)] at hcast
  omega

theorem prime_2773320623 : Nat.Prime 2773320623 := by
  apply prime_of_factors (5 : ZMod 2773320623) [2, 2437, 569003]
  · simp only [List.forall_mem_cons]
    norm_num
  · norm_num
  · norm_num
    reduce_mod_char
  · simp only [List.forall_mem_cons]
    norm_num
    reduce_mod_char
    refine ⟨?_, ?_, ?_⟩ <;> exact ofNat_ne_one (by norm_num)

theorem prime_72106336199 : Nat.Prime 72106336199 := by
  apply prime_of_factors (7 : ZMod 72106336199) [2, 13, 2773320623]
  · simp only [List.forall_mem_cons]
    exact ⟨by norm_num, by norm_num, prime_2773320623, nofun⟩
  · norm_num
  · norm_num
    reduce_mod_char
  · simp only [List.forall_mem_cons]
    norm_num
    reduce_mod_char
    refine ⟨?_, ?_, ?_⟩ <;> exact ofNat_ne_one (by norm_num)

theorem prime_1919519569386763 : Nat.Prime 1919519569386763 := by
  apply prime_of_factors (2 : ZMod 1919519569386763) [2, 3, 7, 19, 47, 47, 127, 8574133]
  · simp only [List.forall_mem_cons]
    norm_num
  · norm_num
  · norm_num
    reduce_mod_char
  · simp only [List.forall_mem_cons]
    norm_num
    reduce_mod_char
    refine ⟨?_, ?_, ?_, ?_, ?_, ?_, ?_⟩ <;> exact ofNat_ne_one (by norm_num)

theorem prime_31757755568855353 : Nat.Prime 31757755568855353 := by
  apply prime_of_factors (10 : ZMod 31757755568855353) [2, 2, 2, 3, 31, 107, 223, 4153, 430751]
  · simp only [List.forall_mem_cons]
    norm_num
  · norm_num
  · norm_num
    reduce_mod_char
  · simp only [List.forall_mem_cons]
    norm_num
    reduce_mod_char
    refine ⟨?_, ?_, ?_, ?_, ?_, ?_, ?_⟩ <;> exact ofNat_ne_one (by norm_num)

theorem prime_35_digits : Nat.Prime 75445702479781427272750846543864801 := by
  apply prime_of_factors (7 : ZMod 75445702479781427272750846543864801)
    [2, 2, 2, 2, 2, 3, 3, 5, 5, 75707, 72106336199, 1919519569386763]
  · simp only [List.forall_mem_cons]
    exact ⟨by norm_num, by norm_num, by norm_num, by norm_num, by norm_num, by norm_num, by norm_num, by norm_num, by norm_num, by norm_num,
      prime_72106336199, prime_1919519569386763, nofun⟩
  · norm_num
  · norm_num
    reduce_mod_char
  · simp only [List.forall_mem_cons]
    norm_num
    reduce_mod_char
    refine ⟨?_, ?_, ?_, ?_, ?_, ?_⟩ <;> exact ofNat_ne_one (by norm_num)

theorem prime_71_digits : Nat.Prime 74058212732561358302231226437062788676166966415465897661863160754340907 := by
  apply prime_of_factors (2 : ZMod 74058212732561358302231226437062788676166966415465897661863160754340907)
    [2, 3, 353, 57467, 132049, 1923133, 31757755568855353, 75445702479781427272750846543864801]
  · simp only [List.forall_mem_cons]
    exact ⟨by norm_num, by norm_num, by norm_num, by norm_num, by norm_num, by norm_num,
      prime_31757755568855353, prime_35_digits, nofun⟩
  · norm_num
  · norm_num
    reduce_mod_char
  · simp only [List.forall_mem_cons]
    norm_num
    reduce_mod_char
    refine ⟨?_, ?_, ?_, ?_, ?_, ?_, ?_, ?_⟩ <;> exact ofNat_ne_one (by norm_num)

theorem prime_two_pow_255_sub_19 : Nat.Prime (2 ^ 255 - 19) := by
  apply prime_of_factors (2 : ZMod (2 ^ 255 - 19))
    [2, 2, 3, 65147, 74058212732561358302231226437062788676166966415465897661863160754340907]
  · simp only [List.forall_mem_cons]
    exact ⟨by norm_num, by norm_num, by norm_num, by norm_num, prime_71_digits, nofun⟩
  · norm_num
  · norm_num
    reduce_mod_char
  · simp only [List.forall_mem_cons]
    norm_num
    reduce_mod_char
    refine ⟨?_, ?_, ?_, ?_⟩ <;> exact ofNat_ne_one (by norm_num)


end Chicago95.Lib.Lucas
