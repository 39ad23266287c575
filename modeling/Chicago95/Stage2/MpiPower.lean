/-
# Chicago95.Stage2.MpiPower — when `pgp_mpi_pow_mod` raises to a power.

The loop squares and multiplies from the highest bit of the exponent, and reduces after each product. So a power is right
where each product on the way is shorter than a number and is reduced right (`PowFits`, `powMod_exact`). What a product
and its reduction owe is `MpiArith` and `MpiDivision`; here is what follows for a whole power, and for two of them, the
second undoing the first (`pow_undone`), which is what RSA needs.
-/
import Chicago95.Stage2.MpiDivision
import Mathlib.FieldTheory.Finite.Basic

namespace Chicago95.Stage2.Mpi

open Chicago95.Lib.Digits Chicago95.Lib.Loop

/-! ## The law and the condition -/

/-- What a power owes: it is there, in normal form, and is the power. -/
def PowLaw (a e m : Mpi) : Prop :=
  ∀ r : Mpi, ∃ fuel x, pgpMpiPowMod fuel r a e m = some x ∧ x.Normal ∧ x.val = a.val ^ e.val % m.val

/-- A product that is not cut off and is reduced right. -/
def MulFits (x y m : Nat) : Prop := x * y < (2 ^ 32) ^ pgpMpiMaxLimbs ∧ ModFits (x * y) m

/-- The round of bit `i`, from the power `x` by the bits above it. -/
structure RoundFits (a e m i x : Nat) : Prop where
  square : MulFits x x m
  multiply : e.testBit i = true → MulFits (x * x % m) (a % m) m

/-- Every reduction on the way to the power is one that the code gets right. -/
structure PowFits (a e m : Nat) : Prop where
  base : ModFits a m
  rounds : ∀ i < e.size, RoundFits a e m i (a ^ (e / 2 ^ (i + 1)) % m)

/-! ## More rounds change nothing -/

theorem divLoop_mono {b : Mpi} {fuel : Nat} : ∀ {fuel' : Nat} {a x : Mpi}, fuel ≤ fuel' →
    divLoop b fuel a = some x → divLoop b fuel' a = some x := by
  induction fuel with
  | zero =>
    intro fuel' a x _ h
    cases h
  | succ fuel ih =>
    intro fuel' a x hle h
    obtain ⟨k, rfl⟩ : ∃ k, fuel' = k + 1 := ⟨fuel' - 1, by omega⟩
    unfold divLoop at h ⊢
    split at h
    · rename_i hbits
      rw [if_pos hbits]
      exact ih (by omega) h
    · rename_i hbits
      rw [if_neg hbits]
      exact h

theorem mod_mono {fuel fuel' : Nat} (hle : fuel ≤ fuel') {r a m x : Mpi} (h : pgpMpiMod fuel r a m = some x) :
    pgpMpiMod fuel' r a m = some x := by
  obtain ⟨tmp, hdiv, rfl⟩ := Option.map_eq_some_iff.mp h
  refine Option.map_eq_some_iff.mpr ⟨tmp, ?_, rfl⟩
  unfold pgpMpiDiv at hdiv ⊢
  dsimp only at hdiv ⊢
  split at hdiv
  · rename_i hz
    rwa [if_pos hz]
  · rename_i hz
    rw [if_neg hz]
    split at hdiv
    · rename_i hcmp
      rwa [if_pos hcmp]
    · rename_i hcmp
      rw [if_neg hcmp]
      split at hdiv
      · cases hdiv
      · rename_i htop
        rw [if_neg htop]
        obtain ⟨y, hloop, rfl⟩ := Option.map_eq_some_iff.mp hdiv
        exact Option.map_eq_some_iff.mpr ⟨y, divLoop_mono hle hloop, rfl⟩

theorem powLoop_mono {fuel fuel' : Nat} (hle : fuel ≤ fuel') {base exp m : Mpi} {i : Nat} :
    ∀ {result x : Mpi}, powLoop fuel base exp m i result = some x → powLoop fuel' base exp m i result = some x := by
  induction i with
  | zero => exact fun h => h
  | succ i ih =>
    intro result x h
    unfold powLoop at h ⊢
    obtain ⟨sq, hsq, hrest⟩ := Option.bind_eq_some_iff.mp h
    refine Option.bind_eq_some_iff.mpr ⟨sq, mod_mono hle hsq, ?_⟩
    split at hrest
    · rename_i hbit
      rw [if_pos hbit]
      obtain ⟨pr, hpr, hrest⟩ := Option.bind_eq_some_iff.mp hrest
      exact Option.bind_eq_some_iff.mpr ⟨pr, mod_mono hle hpr, ih hrest⟩
    · rename_i hbit
      rw [if_neg hbit]
      exact ih hrest

theorem powMod_mono {fuel fuel' : Nat} (hle : fuel ≤ fuel') {r a e m x : Mpi} (h : pgpMpiPowMod fuel r a e m = some x) :
    pgpMpiPowMod fuel' r a e m = some x := by
  unfold pgpMpiPowMod at h ⊢
  obtain ⟨base, hbase, hrest⟩ := Option.bind_eq_some_iff.mp h
  obtain ⟨result, hresult, hx⟩ := Option.bind_eq_some_iff.mp hrest
  exact Option.bind_eq_some_iff.mpr ⟨base, mod_mono hle hbase,
    Option.bind_eq_some_iff.mpr ⟨result, powLoop_mono hle hresult, hx⟩⟩

/-! ## A round -/

theorem mulMod_of_fits {x y m : Mpi} (hm : m.Normal) (h0 : m.val ≠ 0) (h : MulFits x.val y.val m.val) (r : Mpi) :
    ∃ fuel z, pgpMpiMod fuel (pgpMpiMul r x y) (pgpMpiMul r x y) m = some z ∧ z.Normal ∧
      z.val = x.val * y.val % m.val := by
  have hval := val_mul r x y h.1
  obtain ⟨fuel, z, hz, hnormal, hzval⟩ := mod_of_fits (normal_mul r x y) hm h0 (by rw [hval]; exact h.2) (pgpMpiMul r x y)
  exact ⟨fuel, z, hz, hnormal, by rw [hzval, hval]⟩

theorem pow_bit (a e m i : Nat) : a ^ (e / 2 ^ i) % m =
      if e.testBit i = true then a ^ (e / 2 ^ (i + 1)) % m * (a ^ (e / 2 ^ (i + 1)) % m) % m * (a % m) % m
      else a ^ (e / 2 ^ (i + 1)) % m * (a ^ (e / 2 ^ (i + 1)) % m) % m := by
  have hhalf : e / 2 ^ (i + 1) = e / 2 ^ i / 2 := by
    rw [pow_succ, Nat.div_div_eq_div_mul]
  have hbit : e.testBit i = true ↔ e / 2 ^ i % 2 = 1 := by
    rw [Nat.testBit_eq_decide_div_mod_eq, decide_eq_true_iff]
  have hsquare : a ^ (e / 2 ^ (i + 1)) % m * (a ^ (e / 2 ^ (i + 1)) % m) % m = a ^ (2 * (e / 2 ^ i / 2)) % m := by
    rw [← Nat.mul_mod, ← pow_add, hhalf]
    congr 2
    omega
  rw [hsquare]
  split
  · rename_i hset
    rw [hbit] at hset
    rw [← Nat.mul_mod, ← pow_succ]
    congr 2
    omega
  · rename_i hclear
    rw [hbit] at hclear
    congr 2
    omega

theorem powLoop_of_fits {a e : Nat} {base exp m : Mpi} (hm : m.Normal) (h0 : m.val ≠ 0) (hbase : base.val = a % m.val)
    (hexp : exp.val = e) {i : Nat} : ∀ {result : Mpi}, result.Normal → result.val = a ^ (e / 2 ^ i) % m.val →
      (∀ j < i, RoundFits a e m.val j (a ^ (e / 2 ^ (j + 1)) % m.val)) →
      ∃ fuel x, powLoop fuel base exp m i result = some x ∧ x.Normal ∧ x.val = a ^ e % m.val := by
  induction i with
  | zero =>
    intro result hnormal hval _
    exact ⟨0, result, rfl, hnormal, by rw [hval, pow_zero, Nat.div_one]⟩
  | succ i ih =>
    intro result hnormal hval hfits
    have hround := hfits i (Nat.lt_succ_self i)
    have hstep := pow_bit a e m.val i
    rw [← hval] at hround hstep
    have hbit := bit_iff exp i
    rw [hexp] at hbit
    obtain ⟨f₁, sq, hsq, hsqnormal, hsqval⟩ := mulMod_of_fits hm h0 hround.square result
    by_cases hset : e.testBit i = true
    · have hmul := hround.multiply hset
      rw [← hsqval, ← hbase] at hmul
      obtain ⟨f₂, pr, hpr, hprnormal, hprval⟩ := mulMod_of_fits hm h0 hmul sq
      rw [if_pos hset, ← hsqval, ← hbase, ← hprval] at hstep
      obtain ⟨f₃, x, hx, hxval⟩ := ih hprnormal hstep.symm fun j hj => hfits j (by omega)
      refine ⟨max f₁ (max f₂ f₃), x, ?_, hxval⟩
      unfold powLoop
      refine Option.bind_eq_some_iff.mpr ⟨sq, mod_mono (Nat.le_max_left _ _) hsq, ?_⟩
      rw [if_pos (hbit.mpr hset)]
      exact Option.bind_eq_some_iff.mpr ⟨pr, mod_mono (by omega) hpr, powLoop_mono (by omega) hx⟩
    · rw [if_neg hset, ← hsqval] at hstep
      obtain ⟨f₂, x, hx, hxval⟩ := ih hsqnormal hstep.symm fun j hj => hfits j (by omega)
      refine ⟨max f₁ f₂, x, ?_, hxval⟩
      unfold powLoop
      refine Option.bind_eq_some_iff.mpr ⟨sq, mod_mono (Nat.le_max_left _ _) hsq, ?_⟩
      rw [if_neg fun h => hset (hbit.mp h)]
      exact powLoop_mono (Nat.le_max_right _ _) hx

theorem powLaw_of_fits {a e m : Mpi} (hm : m.Normal) (h1 : 1 < m.val)
    (h : PowFits a.val e.val m.val) : PowLaw a e m := by
  intro r
  have h0 : m.val ≠ 0 := by omega
  set base := mpiNormalize (assign pgpMpiZero a) with hb
  set exp := mpiNormalize (assign pgpMpiZero e) with he
  have hbaseval : base.val = a.val := by simp [hb]
  have hexpval : exp.val = e.val := by simp [he]
  obtain ⟨f₁, x, hx, -, hxval⟩ := mod_of_fits (normal_mpiNormalize _) hm h0 (by rw [← hb, hbaseval]; exact h.base) base
  rw [← hb, hbaseval] at hxval
  have hbits : exp.bitCount = e.val.size := by
    rw [Normal.bitCount_eq (normal_mpiNormalize _), hexpval]
  have hone : (pgpMpiSetU32 1).val = a.val ^ (e.val / 2 ^ e.val.size) % m.val := by
    rw [Nat.div_eq_of_lt (Nat.lt_size_self _), pow_zero, Nat.mod_eq_of_lt h1]
    rfl
  obtain ⟨f₂, y, hy, -, hyval⟩ := powLoop_of_fits hm h0 hxval hexpval (fun _ => by decide) hone h.rounds
  refine ⟨max f₁ f₂, mpiNormalize (assign r y), ?_, normal_mpiNormalize _, by rw [val_mpiNormalize, val_assign, hyval]⟩
  unfold pgpMpiPowMod
  refine Option.bind_eq_some_iff.mpr ⟨x, mod_mono (Nat.le_max_left _ _) hx, ?_⟩
  refine Option.bind_eq_some_iff.mpr ⟨y, ?_, rfl⟩
  rw [← he, hbits]
  exact powLoop_mono (Nat.le_max_right _ _) hy

/-! ## Two powers -/

theorem pow_succ_mul_modEq {p : Nat} (hp : p.Prime) (a k : Nat) : Nat.ModEq p (a ^ ((p - 1) * k + 1)) a := by
  have : Fact p.Prime := ⟨hp⟩
  rw [← ZMod.natCast_eq_natCast_iff, Nat.cast_pow]
  by_cases hzero : (a : ZMod p) = 0
  · rw [hzero, zero_pow (Nat.succ_ne_zero _)]
  · rw [pow_succ, pow_mul, ZMod.pow_card_sub_one_eq_one hzero, one_pow, one_mul]

theorem pow_undone {p q e d a : Nat} (hp : p.Prime) (hq : q.Prime) (hne : p ≠ q)
    (hinv : Nat.ModEq ((p - 1) * (q - 1)) (e * d) 1) (ha : a < p * q) : (a ^ e % (p * q)) ^ d % (p * q) = a := by
  have hp2 := hp.two_le
  have hq2 := hq.two_le
  -- 2 and 3 are the smallest pair
  have htwo : 1 < (p - 1) * (q - 1) := by
    rcases Nat.lt_or_gt_of_ne hne with h | h
    · exact Nat.lt_of_lt_of_le (show 1 < q - 1 by omega) (Nat.le_mul_of_pos_left _ (by omega))
    · exact Nat.lt_of_lt_of_le (show 1 < p - 1 by omega) (Nat.le_mul_of_pos_right _ (by omega))
  have hdiv := Nat.mod_add_div (e * d) ((p - 1) * (q - 1))
  rw [hinv, Nat.mod_eq_of_lt htwo] at hdiv
  set k := e * d / ((p - 1) * (q - 1)) with hk
  have hmodp : Nat.ModEq p (a ^ (e * d)) a := by
    rw [← hdiv, Nat.add_comm, Nat.mul_assoc]
    exact pow_succ_mul_modEq hp a _
  have hmodq : Nat.ModEq q (a ^ (e * d)) a := by
    rw [← hdiv, Nat.add_comm, Nat.mul_comm (p - 1), Nat.mul_assoc]
    exact pow_succ_mul_modEq hq a _
  have hboth := (Nat.modEq_and_modEq_iff_modEq_mul ((Nat.coprime_primes hp hq).mpr hne)).mp ⟨hmodp, hmodq⟩
  rw [← Nat.pow_mod, ← pow_mul]
  exact Nat.mod_eq_of_modEq hboth ha

/-- **What `pgp_mpi_pow_mod` gives where its reductions fit**: the power; and where the modulus is a product of two primes
and the second exponent inverts the first, the second power gives the first base back. -/
theorem powMod_exact {a e m : Mpi} (hm : m.Normal) (h1 : 1 < m.val) (h : PowFits a.val e.val m.val) : PowLaw a e m ∧
      ∀ (p q : Nat) (d : Mpi), p.Prime → q.Prime → p ≠ q → m.val = p * q →
        Nat.ModEq ((p - 1) * (q - 1)) (e.val * d.val) 1 → a.val < m.val → PowFits (a.val ^ e.val % m.val) d.val m.val →
        ∀ r s : Mpi, ∃ fuel x y, pgpMpiPowMod fuel r a e m = some x ∧ pgpMpiPowMod fuel s x d m = some y ∧
          y.Normal ∧ y.val = a.val := by
  refine ⟨powLaw_of_fits hm h1 h, fun p q d hp hq hne hpq hinv hlt hback r s => ?_⟩
  obtain ⟨f₁, x, hx, -, hxval⟩ := powLaw_of_fits hm h1 h r
  rw [← hxval] at hback
  obtain ⟨f₂, y, hy, hynormal, hyval⟩ := powLaw_of_fits hm h1 hback s
  refine ⟨max f₁ f₂, x, y, powMod_mono (Nat.le_max_left _ _) hx, powMod_mono (Nat.le_max_right _ _) hy, hynormal, ?_⟩
  rw [hyval, hxval, hpq]
  exact pow_undone hp hq hne hinv (hpq ▸ hlt)

/-- 1 to the 3rd modulo 15, twice. -/
theorem one_by_fifteen : ∃ fuel x y, pgpMpiPowMod fuel pgpMpiZero (pgpMpiSetU32 1) (pgpMpiSetU32 3) (pgpMpiSetU32 15) =
    some x ∧ pgpMpiPowMod fuel pgpMpiZero x (pgpMpiSetU32 3) (pgpMpiSetU32 15) = some y ∧ y.Normal ∧ y.val = 1 := by
  have hfits : PowFits 1 3 15 := by
    have hmul : MulFits 1 1 15 := ⟨by decide, Or.inl (by decide)⟩
    refine ⟨Or.inl (by decide), fun i _ => ?_⟩
    rw [one_pow]
    exact ⟨hmul, fun _ => hmul⟩
  have hnormal : (pgpMpiSetU32 15).Normal := fun _ => by decide
  exact (powMod_exact (a := pgpMpiSetU32 1) (e := pgpMpiSetU32 3) hnormal (by decide) hfits).2 3 5 (pgpMpiSetU32 3)
    Nat.prime_three Nat.prime_five (by decide) (by decide) (by decide) (by decide) hfits pgpMpiZero pgpMpiZero

/-- ⚠ 3 to the 1st modulo 2 is 0. -/
theorem three_mod_two : (pgpMpiPowMod 2 pgpMpiZero (pgpMpiSetU32 3) (pgpMpiSetU32 1) (pgpMpiSetU32 2)).map val = some 0 ∧
    ¬ PowLaw (pgpMpiSetU32 3) (pgpMpiSetU32 1) (pgpMpiSetU32 2) := by
  have hzero : (pgpMpiPowMod 2 pgpMpiZero (pgpMpiSetU32 3) (pgpMpiSetU32 1) (pgpMpiSetU32 2)).map val = some 0 := by
    decide
  refine ⟨hzero, fun h => ?_⟩
  obtain ⟨x, hx, hxval⟩ := Option.map_eq_some_iff.mp hzero
  obtain ⟨fuel, y, hy, -, hyval⟩ := h pgpMpiZero
  have hxy := powMod_mono (Nat.le_max_left 2 fuel) hx
  rw [powMod_mono (Nat.le_max_right 2 fuel) hy] at hxy
  rw [← Option.some.inj hxy, hyval] at hxval
  exact absurd hxval (by decide)

end Chicago95.Stage2.Mpi
