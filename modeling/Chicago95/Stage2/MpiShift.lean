/-
# Chicago95.Stage2.MpiShift — the shifts and the difference under the division of `pgp_mpi.c`.

What `pgp_mpi_lshift`, `pgp_mpi_sub` and `pgp_mpi_rshift` do to values, as far as the division uses them:

* a shift to the left is exact modulo `2^2048` (`val_lshift`), but in place it reads limbs it has already written: by
  less than 32 bits that makes no difference (`lshiftSelf_eq`), by more it shifts a number of one limb to 0
  (`val_lshiftSelf_one`);
* a difference is exact modulo `2^2016` (`val_sub`), limb 63 being left out;
* ⚠ a shift to the right by `s` puts the low `s` bits of each limb above the high bits of the next one
  (`val_rshift_swapped`). What comes out is the number shifted only where that is 0 (`eq_zero_of_rshift`).
-/
import Chicago95.Stage2.MpiArith

namespace Chicago95.Stage2.Mpi

open Chicago95.Lib.Digits Chicago95.Lib.Loop
open Function (update_of_ne update_self update)

/-! ## To the left -/

/-- What limb `i` of the result takes from the operand. -/
def lshiftTerm (a : Nat → UInt32) (count bits i : Nat) : Nat :=
  if bits / 32 ≤ i ∧ i - bits / 32 < count then (a (i - bits / 32)).toNat * 2 ^ (bits % 32) else 0

/-- The number of limbs of the result. -/
def lshiftTop (count bits : Nat) : Nat := min (count + bits / 32 + 1) pgpMpiMaxLimbs

theorem lshiftTop_le (a : Mpi) (bits : Nat) : lshiftTop a.count bits ≤ pgpMpiMaxLimbs := Nat.min_le_right _ _

/-- `pgp_mpi_lshift(a, a, bits)`, which reads the limbs it has written. -/
def lshiftSelf (a : Mpi) (bits : Nat) : Mpi :=
  let pass := fun i (st : (Nat → UInt32) × Nat) =>
    let v := st.2 + lshiftTerm st.1 a.count bits i
    (update st.1 i (UInt32.ofNat v), v / 2 ^ 32)
  mpiNormalize
    { limbs := (forEach (lshiftTop a.count bits) pass (a.limbs, 0)).1
      count := lshiftTop a.count bits
      count_le := lshiftTop_le a bits }

/-- A pass of `pgp_mpi_lshift`. -/
def lshiftPass (a : Mpi) (bits i : Nat) (st : (Nat → UInt32) × Nat) : (Nat → UInt32) × Nat :=
  let v := st.2 + lshiftTerm a.limbs a.count bits i
  (update st.1 i (UInt32.ofNat v), v / 2 ^ 32)

/-- Before pass `n`: the limbs written and the carry are the terms read. -/
structure LshiftInv (a : Mpi) (bits n : Nat) (st : (Nat → UInt32) × Nat) : Prop where
  carry : st.2 < 2 ^ 32
  val : value (2 ^ 32) (fun i => (st.1 i).toNat) n + st.2 * (2 ^ 32) ^ n =
    value (2 ^ 32) (lshiftTerm a.limbs a.count bits) n

theorem lshiftTerm_lt (a : Mpi) (bits i : Nat) : lshiftTerm a.limbs a.count bits i ≤ (2 ^ 32 - 1) * 2 ^ 31 := by
  unfold lshiftTerm
  split
  · refine Nat.mul_le_mul (Nat.le_sub_one_of_lt (a.digit_lt _)) (Nat.pow_le_pow_right (by decide) ?_)
    omega
  · exact Nat.zero_le _

theorem LshiftInv.pass {a : Mpi} {bits n : Nat} {st : (Nat → UInt32) × Nat} (h : LshiftInv a bits n st) :
    LshiftInv a bits (n + 1) (lshiftPass a bits n st) := by
  obtain ⟨limbs, carry⟩ := st
  obtain ⟨hcarry, hval⟩ := h
  have hterm := lshiftTerm_lt a bits n
  dsimp only at hcarry hval
  unfold lshiftPass
  dsimp only
  set v := carry + lshiftTerm a.limbs a.count bits n with hdef
  have hlow : value (2 ^ 32) (fun i => (update limbs n (UInt32.ofNat v) i).toNat) n =
      value (2 ^ 32) (fun i => (limbs i).toNat) n :=
    value_congr fun i hi => by rw [update_of_ne (Nat.ne_of_lt hi)]
  have hnew : (update limbs n (UInt32.ofNat v) n).toNat = v % 2 ^ 32 := by
    rw [update_self, UInt32.toNat_ofNat']
  have hsplit : v * (2 ^ 32) ^ n = v % 2 ^ 32 * (2 ^ 32) ^ n + v / 2 ^ 32 * (2 ^ 32) ^ (n + 1) := by
    conv_lhs => rw [show v = v % 2 ^ 32 + v / 2 ^ 32 * 2 ^ 32 by omega]
    rw [pow_succ]
    ring
  have hexpand : v * (2 ^ 32) ^ n =
      carry * (2 ^ 32) ^ n + lshiftTerm a.limbs a.count bits n * (2 ^ 32) ^ n := by
    rw [hdef]
    ring
  refine ⟨by dsimp only; omega, ?_⟩
  dsimp only
  rw [value_succ, value_succ, hlow, hnew]
  omega

theorem lshiftLoop_spec (r a : Mpi) (bits n : Nat) : LshiftInv a bits n (forEach n (lshiftPass a bits) (r.limbs, 0)) :=
  forEach_induction (P := LshiftInv a bits) ⟨Nat.two_pow_pos 32, by simp⟩ fun _ _ _ h => h.pass

theorem value_lshiftTerm (a : Mpi) (bits : Nat) {n : Nat} (hn : a.count + bits / 32 ≤ n) :
    value (2 ^ 32) (lshiftTerm a.limbs a.count bits) n = a.val * 2 ^ bits := by
  have hhigh : value (2 ^ 32) (lshiftTerm a.limbs a.count bits) n =
      value (2 ^ 32) (lshiftTerm a.limbs a.count bits) (bits / 32 + a.count) := by
    refine value_of_zero (by omega) fun i hi _ => if_neg ?_
    omega
  have hterms : ∀ c, c ≤ a.count → value (2 ^ 32) (lshiftTerm a.limbs a.count bits) (bits / 32 + c) =
      value (2 ^ 32) a.digit c * 2 ^ bits := by
    intro c
    induction c with
    | zero =>
      intro _
      rw [Nat.add_zero, value_zero, Nat.zero_mul, value_eq_zero_iff (by decide)]
      exact fun i hi => if_neg (by omega)
    | succ c ih =>
      intro hc
      have hterm : lshiftTerm a.limbs a.count bits (bits / 32 + c) = a.digit c * 2 ^ (bits % 32) := by
        unfold lshiftTerm digit
        rw [Nat.add_sub_cancel_left]
        exact if_pos ⟨Nat.le_add_right _ _, hc⟩
      have hbits : 2 ^ bits = 2 ^ (bits % 32) * (2 ^ 32) ^ (bits / 32) := by
        rw [← pow_mul, ← pow_add]
        congr 1
        omega
      rw [← Nat.add_assoc, value_succ, ih (by omega), hterm, value_succ, hbits, pow_add]
      ring
  rw [hhigh, hterms _ (Nat.le_refl _)]
  rfl

theorem val_lshift (r a : Mpi) (bits : Nat) :
    (pgpMpiLshift r a bits).val = a.val * 2 ^ bits % (2 ^ 32) ^ pgpMpiMaxLimbs := by
  set top := lshiftTop a.count bits with htop
  have hinv := lshiftLoop_spec r a bits top
  set st := forEach top (lshiftPass a bits) (r.limbs, 0) with hst
  have hval : (pgpMpiLshift r a bits).val = value (2 ^ 32) (fun i => (st.1 i).toNat) top :=
    val_mpiNormalize _
  have hlt : value (2 ^ 32) (fun i => (st.1 i).toNat) top < (2 ^ 32) ^ top := value_lt fun i _ => (st.1 i).toNat_lt
  obtain ⟨q, hq⟩ := value_split (B := 2 ^ 32) (f := lshiftTerm a.limbs a.count bits)
    (k := top) (n := a.count + bits / 32 + 1) (Nat.min_le_left _ _)
  rw [value_lshiftTerm a bits (Nat.le_succ _)] at hq
  have hmod : value (2 ^ 32) (fun i => (st.1 i).toNat) top = a.val * 2 ^ bits % (2 ^ 32) ^ top := by
    rw [hq, ← hinv.val, Nat.add_mul_mod_self_right, Nat.add_mul_mod_self_right, Nat.mod_eq_of_lt hlt]
  rw [hval, hmod]
  by_cases hfull : a.count + bits / 32 + 1 ≤ pgpMpiMaxLimbs
  · -- everything is there
    have heq : top = a.count + bits / 32 + 1 := Nat.min_eq_left hfull
    have hfits : a.val * 2 ^ bits < (2 ^ 32) ^ top := by
      have ha : a.val < (2 ^ 32) ^ a.count := value_lt fun i _ => a.digit_lt i
      calc a.val * 2 ^ bits < (2 ^ 32) ^ a.count * 2 ^ bits := Nat.mul_lt_mul_of_pos_right ha (Nat.two_pow_pos _)
        _ ≤ (2 ^ 32) ^ a.count * (2 ^ 32) ^ (bits / 32 + 1) := by
            refine Nat.mul_le_mul_left _ ?_
            rw [← pow_mul]
            exact Nat.pow_le_pow_right (by decide) (by omega)
        _ = (2 ^ 32) ^ top := by rw [← pow_add, heq, Nat.add_assoc]
    have hpow : (2 ^ 32) ^ top ≤ (2 ^ 32) ^ pgpMpiMaxLimbs :=
      Nat.pow_le_pow_right (by decide) (Nat.min_le_right _ _)
    rw [Nat.mod_eq_of_lt hfits, Nat.mod_eq_of_lt (Nat.lt_of_lt_of_le hfits hpow)]
  · rw [show top = pgpMpiMaxLimbs from Nat.min_eq_right (by omega)]

theorem normal_lshift (r a : Mpi) (bits : Nat) : (pgpMpiLshift r a bits).Normal := normal_mpiNormalize _

theorem lshiftSelf_eq (a : Mpi) {bits : Nat} (h : bits < 32) : lshiftSelf a bits = pgpMpiLshift a a bits := by
  have hzero : bits / 32 = 0 := Nat.div_eq_of_lt h
  have hrun : ∀ n, (∀ k, n ≤ k → (forEach n (lshiftPass a bits) (a.limbs, 0)).1 k = a.limbs k) ∧
      forEach n (fun i (st : (Nat → UInt32) × Nat) =>
        (update st.1 i (UInt32.ofNat (st.2 + lshiftTerm st.1 a.count bits i)),
          (st.2 + lshiftTerm st.1 a.count bits i) / 2 ^ 32)) (a.limbs, 0) =
        forEach n (lshiftPass a bits) (a.limbs, 0) := by
    intro n
    induction n with
    | zero => exact ⟨fun _ _ => rfl, rfl⟩
    | succ n ih =>
      obtain ⟨hsame, heq⟩ := ih
      have hterm : lshiftTerm (forEach n (lshiftPass a bits) (a.limbs, 0)).1 a.count bits n =
          lshiftTerm a.limbs a.count bits n := by
        unfold lshiftTerm
        rw [hzero, Nat.sub_zero, hsame n (Nat.le_refl n)]
      rw [forEach_succ, forEach_succ, heq, hterm]
      refine ⟨fun k hk => ?_, rfl⟩
      have hne : k ≠ n := by omega
      exact (update_of_ne hne _ _).trans (hsame k (by omega))
  unfold lshiftSelf
  simp only [(hrun _).2]
  rfl

theorem val_lshiftSelf_one_of_le {bits : Nat} (h : 32 ≤ bits) : (lshiftSelf (pgpMpiSetU32 1) bits).val = 0 := by
  have hone : 1 ≤ bits / 32 := (Nat.one_le_div_iff (by decide)).mpr h
  have hcount : (pgpMpiSetU32 1).count = 1 := rfl
  unfold lshiftSelf
  rw [val_mpiNormalize]
  refine (value_eq_zero_iff (by decide)).mpr ?_
  suffices hinv : ∀ n, ((forEach n (fun i (st : (Nat → UInt32) × Nat) =>
      (update st.1 i (UInt32.ofNat (st.2 + lshiftTerm st.1 (pgpMpiSetU32 1).count bits i)),
        (st.2 + lshiftTerm st.1 (pgpMpiSetU32 1).count bits i) / 2 ^ 32)) ((pgpMpiSetU32 1).limbs, 0)).2 = 0) ∧
      (0 < n → ∀ k, (forEach n (fun i (st : (Nat → UInt32) × Nat) =>
      (update st.1 i (UInt32.ofNat (st.2 + lshiftTerm st.1 (pgpMpiSetU32 1).count bits i)),
        (st.2 + lshiftTerm st.1 (pgpMpiSetU32 1).count bits i) / 2 ^ 32)) ((pgpMpiSetU32 1).limbs, 0)).1 k = 0) by
    intro i hi
    have hpos : 0 < lshiftTop (pgpMpiSetU32 1).count bits := Nat.lt_of_le_of_lt (Nat.zero_le i) hi
    have hlimb := (hinv (lshiftTop (pgpMpiSetU32 1).count bits)).2 hpos i
    simp only [digit, hlimb]
    rfl
  intro n
  induction n with
  | zero => exact ⟨rfl, fun h => absurd h (Nat.lt_irrefl 0)⟩
  | succ n ih =>
    obtain ⟨hcarry, hlimbs⟩ := ih
    rw [forEach_succ]
    set st := forEach n (fun i (st : (Nat → UInt32) × Nat) =>
      (update st.1 i (UInt32.ofNat (st.2 + lshiftTerm st.1 (pgpMpiSetU32 1).count bits i)),
        (st.2 + lshiftTerm st.1 (pgpMpiSetU32 1).count bits i) / 2 ^ 32)) ((pgpMpiSetU32 1).limbs, 0) with hst
    have hterm : lshiftTerm st.1 (pgpMpiSetU32 1).count bits n = 0 := by
      unfold lshiftTerm
      split
      · rename_i hin
        rw [hlimbs (by omega) _]
        simp
      · rfl
    dsimp only
    rw [hterm, hcarry]
    refine ⟨rfl, fun _ k => ?_⟩
    by_cases hk : k = n
    · subst hk
      rw [update_self]
      rfl
    · rw [update_of_ne hk]
      rcases Nat.eq_zero_or_pos n with rfl | hpos
      · rw [hst]
        exact if_neg hk
      · exact hlimbs hpos k

theorem val_lshiftSelf_one (bits : Nat) :
    (lshiftSelf (pgpMpiSetU32 1) bits).val = if bits < 32 then 2 ^ bits else 0 := by
  split
  · rename_i h
    have hlt : 2 ^ bits < (2 ^ 32) ^ pgpMpiMaxLimbs := by
      rw [← pow_mul]
      exact Nat.pow_lt_pow_right (by decide) (by unfold pgpMpiMaxLimbs; omega)
    rw [lshiftSelf_eq _ h, val_lshift, val_setU32_one, Nat.one_mul, Nat.mod_eq_of_lt hlt]
  · rename_i h
    exact val_lshiftSelf_one_of_le (Nat.not_lt.mp h)

/-! ## The difference -/

/-- A pass of `pgp_mpi_sub`. -/
def subPass (a b : Mpi) (i : Nat) (st : (Nat → UInt32) × Nat) : (Nat → UInt32) × Nat :=
  let diff : Int := (if i < a.count then ((a.limbs i).toNat : Int) else 0) -
    (if i < b.count then ((b.limbs i).toNat : Int) else 0) - st.2
  if diff < 0 then (update st.1 i (UInt32.ofNat (diff + 2 ^ 32).toNat), 1)
  else (update st.1 i (UInt32.ofNat diff.toNat), 0)

/-- Before pass `n`: the limbs written and the borrow are the difference of the limbs read. -/
structure SubInv (a b : Mpi) (n : Nat) (st : (Nat → UInt32) × Nat) : Prop where
  borrow : st.2 ≤ 1
  val : value (2 ^ 32) (fun i => (st.1 i).toNat) n + value (2 ^ 32) b.digitOr0 n =
    value (2 ^ 32) a.digitOr0 n + st.2 * (2 ^ 32) ^ n

theorem coe_digitOr0 (a : Mpi) (i : Nat) :
    (if i < a.count then ((a.limbs i).toNat : Int) else 0) = (a.digitOr0 i : Int) := by
  unfold digitOr0
  split <;> simp

theorem subPass_eq (a b : Mpi) (i : Nat) {st : (Nat → UInt32) × Nat} (hborrow : st.2 ≤ 1) :
    ∃ d c, subPass a b i st = (update st.1 i (UInt32.ofNat d), c) ∧ d < 2 ^ 32 ∧ c ≤ 1 ∧
      d + b.digitOr0 i + st.2 = a.digitOr0 i + c * 2 ^ 32 := by
  have ha := a.digitOr0_lt i
  have hb := b.digitOr0_lt i
  unfold subPass
  dsimp only
  rw [coe_digitOr0, coe_digitOr0]
  split
  · exact ⟨_, 1, rfl, by omega, by omega, by omega⟩
  · exact ⟨_, 0, rfl, by omega, by omega, by omega⟩

theorem SubInv.pass {a b : Mpi} {n : Nat} {st : (Nat → UInt32) × Nat} (h : SubInv a b n st) :
    SubInv a b (n + 1) (subPass a b n st) := by
  obtain ⟨d, c, heq, hd, hc, hdigit⟩ := subPass_eq a b n h.borrow
  have hval := h.val
  rw [heq]
  refine ⟨hc, ?_⟩
  have hlow : value (2 ^ 32) (fun i => (update st.1 n (UInt32.ofNat d) i).toNat) n =
      value (2 ^ 32) (fun i => (st.1 i).toNat) n :=
    value_congr fun i hi => by rw [update_of_ne (Nat.ne_of_lt hi)]
  have hnew : (update st.1 n (UInt32.ofNat d) n).toNat = d := by
    rw [update_self]
    exact UInt32.toNat_ofNat_of_lt' hd
  have hweight := congrArg (· * (2 ^ 32) ^ n) hdigit
  dsimp only at hweight ⊢
  rw [value_succ, value_succ, value_succ, hlow, hnew, pow_succ (2 ^ 32) n]
  rw [Nat.add_mul, Nat.add_mul, Nat.add_mul, Nat.mul_assoc c, Nat.mul_comm (2 ^ 32)] at hweight
  omega

theorem subLoop_spec (r a b : Mpi) (n : Nat) : SubInv a b n (forEach n (subPass a b) (r.limbs, 0)) :=
  forEach_induction (P := SubInv a b) ⟨Nat.zero_le _, by simp⟩ fun _ _ _ h => h.pass

theorem value_digitOr0_mod (a : Mpi) (n : Nat) : value (2 ^ 32) a.digitOr0 n = a.val % (2 ^ 32) ^ n := by
  have hlt : value (2 ^ 32) a.digitOr0 n < (2 ^ 32) ^ n := value_lt fun i _ => a.digitOr0_lt i
  obtain ⟨q, hq⟩ := value_split (B := 2 ^ 32) (f := a.digitOr0) (k := n) (n := max n a.count) (Nat.le_max_left _ _)
  rw [value_digitOr0 a (Nat.le_max_right _ _)] at hq
  rw [hq, Nat.add_mul_mod_self_right, Nat.mod_eq_of_lt hlt]

theorem sub_mod_of_borrow {a b c v P : Nat} (h : b ≤ a) (hv : v < P) (hc : c ≤ 1)
    (heq : v + b % P = a % P + c * P) : v = (a - b) % P := by
  have ha := Nat.div_add_mod a P
  have hb := Nat.div_add_mod b P
  have hle : b / P ≤ a / P := Nat.div_le_div_right h
  rcases Nat.le_one_iff_eq_zero_or_eq_one.mp hc with rfl | rfl
  · have hdiff : a - b = v + P * (a / P - b / P) := by
      rw [Nat.mul_sub]
      have := Nat.mul_le_mul_left P hle
      omega
    rw [hdiff, Nat.add_mul_mod_self_left, Nat.mod_eq_of_lt hv]
  · have hlt : b / P < a / P := by
      refine Nat.lt_of_le_of_ne hle fun hsame => ?_
      rw [hsame] at hb
      omega
    have hdiff : a - b = v + P * (a / P - b / P - 1) := by
      have hstep : P * (a / P - b / P - 1) + P = P * (a / P) - P * (b / P) := by
        rw [← Nat.mul_sub, ← Nat.mul_add_one, Nat.sub_add_cancel (by omega)]
      have := Nat.mul_le_mul_left P hlt
      rw [Nat.mul_add_one] at this
      omega
    rw [hdiff, Nat.add_mul_mod_self_left, Nat.mod_eq_of_lt hv]

theorem val_sub (r : Mpi) {a b : Mpi} (h : b.val ≤ a.val) :
    (pgpMpiSub r a b).val = (a.val - b.val) % (2 ^ 32) ^ (pgpMpiMaxLimbs - 1) := by
  set n := subCount a b with hn
  have hinv := subLoop_spec r a b n
  set st := forEach n (subPass a b) (r.limbs, 0) with hst
  have hval : (pgpMpiSub r a b).val = value (2 ^ 32) (fun i => (st.1 i).toNat) n := val_mpiNormalize _
  have hlt : value (2 ^ 32) (fun i => (st.1 i).toNat) n < (2 ^ 32) ^ n := value_lt fun i _ => (st.1 i).toNat_lt
  have heq := hinv.val
  rw [value_digitOr0_mod, value_digitOr0_mod] at heq
  rw [hval, sub_mod_of_borrow h hlt hinv.borrow heq]
  by_cases hfull : pgpMpiMaxLimbs ≤ max a.count b.count
  · rw [show n = pgpMpiMaxLimbs - 1 from if_pos hfull]
  · have hmax : n = max a.count b.count := if_neg hfull
    have hfits : a.val - b.val < (2 ^ 32) ^ n := by
      have ha : a.val < (2 ^ 32) ^ a.count := value_lt fun i _ => a.digit_lt i
      have hpow : (2 ^ 32) ^ a.count ≤ (2 ^ 32) ^ n := Nat.pow_le_pow_right (by decide) (by omega)
      omega
    have hpow : (2 ^ 32) ^ n ≤ (2 ^ 32) ^ (pgpMpiMaxLimbs - 1) := Nat.pow_le_pow_right (by decide) (by omega)
    rw [Nat.mod_eq_of_lt hfits, Nat.mod_eq_of_lt (Nat.lt_of_lt_of_le hfits hpow)]

theorem normal_sub (r a b : Mpi) : (pgpMpiSub r a b).Normal := normal_mpiNormalize _

/-! ## Comparison and length -/

theorem Normal.hasLimb {a b : Mpi} (ha : a.Normal) (h : b.count < a.count) : a.hasLimb b.count = true := by
  refine (hasLimb_iff a b.count).mpr ⟨a.count - 1, by omega, by omega, fun hzero => ?_⟩
  exact ha (by omega) (UInt32.toNat_inj.mp hzero)

theorem Normal.val_lt {a b : Mpi} (ha : a.Normal) (h : b.count < a.count) : b.val < a.val := by
  obtain ⟨i, hlo, hi, hne⟩ := (hasLimb_iff a b.count).mp (ha.hasLimb h)
  have hb : b.val < (2 ^ 32) ^ b.count := value_lt fun k _ => b.digit_lt k
  have hpow : (2 ^ 32) ^ b.count ≤ (2 ^ 32) ^ i := Nat.pow_le_pow_right (by decide) hlo
  have hstep : (2 ^ 32) ^ i ≤ value (2 ^ 32) a.digit (i + 1) := by
    rw [value_succ]
    have := Nat.le_mul_of_pos_left ((2 ^ 32) ^ i) (Nat.pos_of_ne_zero hne)
    omega
  have hmono : value (2 ^ 32) a.digit (i + 1) ≤ a.val := value_mono hi
  omega

theorem compare_lt_iff_of_normal {a b : Mpi} (ha : a.Normal) (hb : b.Normal) :
    pgpMpiCompare a b < 0 ↔ a.val < b.val := by
  unfold pgpMpiCompare
  rcases Nat.lt_trichotomy a.count b.count with hlt | heq | hgt
  · have := hb.val_lt hlt
    rw [if_neg (by omega), if_pos ⟨hlt, hb.hasLimb hlt⟩]
    constructor <;> intro h <;> omega
  · rw [if_neg (by omega), if_neg (by omega), (compareBelow_spec a b _).1, heq, Nat.max_self]
    unfold val
    rw [heq]
  · have := ha.val_lt hgt
    rw [if_pos ⟨hgt, ha.hasLimb hgt⟩]
    constructor <;> intro h <;> omega

theorem Normal.bitCount_eq {a : Mpi} (h : a.Normal) : a.bitCount = a.val.size := by
  rw [← bitLen_of_normal h]
  unfold bitCount bitLen
  by_cases hpos : 0 < a.count
  · have hlog : (a.limbs (a.count - 1)).toNat.log2 < 32 := by
      refine (Nat.log2_lt fun hzero => h (by omega) (UInt32.toNat_inj.mp hzero)).mpr (a.limbs _).toNat_lt
    rw [if_pos hpos, if_pos hpos, if_pos (h (by omega))]
    omega
  · rw [if_neg hpos, if_neg hpos]

/-! ## To the right -/

/-- ⚠ What `pgp_mpi_rshift` makes of limb `i`: its low bits above the high bits of the next one. -/
def swapped (a : Mpi) (s i : Nat) : Nat := a.digitOr0 i % 2 ^ s * 2 ^ (32 - s) + a.digitOr0 (i + 1) / 2 ^ s

/-- A pass of `pgp_mpi_rshift` by less than a limb. -/
def rshiftPass (a : Mpi) (s k : Nat) (st : (Nat → UInt32) × Nat) : (Nat → UInt32) × Nat :=
  let i := a.count - 1 - k
  let shifted := UInt32.ofNat ((a.limbs i).toNat * 2 ^ 32 / 2 ^ s)
  (update st.1 i (shifted ||| UInt32.ofNat st.2), (a.limbs i).toNat / 2 ^ s)

theorem two_pow_split {s : Nat} (hs : s ≤ 32) : 2 ^ s * 2 ^ (32 - s) = 2 ^ 32 := by
  rw [← pow_add, Nat.add_sub_cancel' hs]

theorem div_two_pow_lt {x s : Nat} (hs : s ≤ 32) (hx : x < 2 ^ 32) : x / 2 ^ s < 2 ^ (32 - s) := by
  rw [Nat.div_lt_iff_lt_mul (Nat.two_pow_pos s), Nat.mul_comm, two_pow_split hs]
  exact hx

theorem swapped_lt (a : Mpi) {s : Nat} (hs : s ≤ 32) (i : Nat) : a.swapped s i < 2 ^ 32 := by
  have hhigh : (a.digitOr0 i % 2 ^ s + 1) * 2 ^ (32 - s) ≤ 2 ^ s * 2 ^ (32 - s) :=
    Nat.mul_le_mul_right _ (Nat.mod_lt _ (Nat.two_pow_pos s))
  have hlow := div_two_pow_lt hs (a.digitOr0_lt (i + 1))
  rw [two_pow_split hs, Nat.add_mul, Nat.one_mul] at hhigh
  unfold swapped
  omega

theorem rshiftPass_toNat (a : Mpi) {s i carry : Nat} (hs : s < 32) (hi : i < a.count)
    (hcarry : carry = a.digitOr0 (i + 1) / 2 ^ s) :
    (UInt32.ofNat ((a.limbs i).toNat * 2 ^ 32 / 2 ^ s) ||| UInt32.ofNat carry).toNat = a.swapped s i := by
  have hlow : carry < 2 ^ (32 - s) := hcarry ▸ div_two_pow_lt (Nat.le_of_lt hs) (a.digitOr0_lt (i + 1))
  have hcarry32 : carry < 2 ^ 32 := Nat.lt_of_lt_of_le hlow (Nat.pow_le_pow_right (by decide) (by omega))
  have hdigit : a.digitOr0 i = (a.limbs i).toNat := if_pos hi
  have hshift : (a.limbs i).toNat * 2 ^ 32 / 2 ^ s % 2 ^ 32 = 2 ^ (32 - s) * ((a.limbs i).toNat % 2 ^ s) := by
    rw [← two_pow_split (Nat.le_of_lt hs), Nat.mul_left_comm, Nat.mul_div_cancel_left _ (Nat.two_pow_pos s),
      Nat.mul_mod_mul_right, Nat.mul_comm]
  rw [UInt32.toNat_or, UInt32.toNat_ofNat', UInt32.toNat_ofNat', hshift, Nat.mod_eq_of_lt hcarry32,
    ← Nat.two_pow_add_eq_or_of_lt hlow, hcarry]
  unfold swapped
  rw [hdigit, Nat.mul_comm]

theorem val_rshift_swapped (r a : Mpi) {s n : Nat} (hs : s < 32) (hn : a.count ≤ n) :
    (pgpMpiRshift r a s).val = value (2 ^ 32) (a.swapped s) n := by
  have hzero : s / 32 = 0 := Nat.div_eq_of_lt hs
  have hmod : s % 32 = s := Nat.mod_eq_of_lt hs
  have hrun : ∀ k, k ≤ a.count →
      (forEach k (rshiftPass a s) (r.limbs, 0)).2 = a.digitOr0 (a.count - k) / 2 ^ s ∧
        ∀ i, a.count - k ≤ i → i < a.count →
          ((forEach k (rshiftPass a s) (r.limbs, 0)).1 i).toNat = a.swapped s i := by
    intro k
    induction k with
    | zero =>
      refine fun _ => ⟨?_, fun i hlo hi => by omega⟩
      simp [digitOr0]
    | succ k ih =>
      intro hk
      obtain ⟨hcarry, hlimbs⟩ := ih (by omega)
      have hplace : a.count - 1 - k + 1 = a.count - k := by omega
      rw [forEach_succ]
      unfold rshiftPass
      dsimp only
      refine ⟨?_, fun i hlo hi => ?_⟩
      · rw [show a.count - (k + 1) = a.count - 1 - k by omega]
        unfold digitOr0
        rw [if_pos (by omega)]
      · by_cases heq : i = a.count - 1 - k
        · subst heq
          rw [update_self]
          exact rshiftPass_toNat a hs hi (by rw [hplace]; exact hcarry)
        · rw [update_of_ne heq]
          exact hlimbs i (by omega) hi
  have hloop : (pgpMpiRshift r a s).val =
      value (2 ^ 32) (fun i => ((forEach a.count (rshiftPass a s) (r.limbs, 0)).1 i).toNat) a.count := by
    unfold pgpMpiRshift
    rw [val_mpiNormalize]
    simp only [hzero, hmod, Nat.zero_le, if_true, Nat.sub_zero]
    rfl
  rw [hloop, value_congr fun i hi => (hrun a.count (Nat.le_refl _)).2 i (by omega) hi]
  refine (value_of_zero hn fun i hi _ => ?_).symm
  have hi0 : a.digitOr0 i = 0 := if_neg (by omega)
  have hi1 : a.digitOr0 (i + 1) = 0 := if_neg (by omega)
  unfold swapped
  rw [hi0, hi1, Nat.zero_mod, Nat.zero_mul, Nat.zero_div]

theorem digit_div {z s : Nat} (hs : s ≤ 32) :
    z / 2 ^ s % 2 ^ 32 = z % 2 ^ 32 / 2 ^ s + z / 2 ^ 32 % 2 ^ 32 % 2 ^ s * 2 ^ (32 - s) := by
  have hlow : z % 2 ^ 32 / 2 ^ s < 2 ^ (32 - s) := div_two_pow_lt hs (Nat.mod_lt _ (by decide))
  have hz : z / 2 ^ s = z % 2 ^ 32 / 2 ^ s + 2 ^ (32 - s) * (z / 2 ^ 32) := by
    conv_lhs => rw [← Nat.mod_add_div z (2 ^ 32)]
    rw [show 2 ^ 32 * (z / 2 ^ 32) = 2 ^ s * (2 ^ (32 - s) * (z / 2 ^ 32)) by
      rw [← Nat.mul_assoc, two_pow_split hs], Nat.add_mul_div_left _ _ (Nat.two_pow_pos s)]
  have hmod : z / 2 ^ 32 % 2 ^ 32 % 2 ^ s = z / 2 ^ 32 % 2 ^ s :=
    Nat.mod_mod_of_dvd _ (Nat.pow_dvd_pow 2 hs)
  have hsplit : ∀ w, w % 2 ^ 32 = w % 2 ^ (32 - s) + 2 ^ (32 - s) * (w / 2 ^ (32 - s) % 2 ^ s) := fun w => by
    rw [← Nat.mod_mul, Nat.mul_comm, two_pow_split hs]
  rw [hz, hmod, hsplit (z % 2 ^ 32 / 2 ^ s + 2 ^ (32 - s) * (z / 2 ^ 32)), Nat.add_mul_mod_self_left,
    Nat.mod_eq_of_lt hlow, Nat.add_mul_div_left _ _ (Nat.two_pow_pos _), Nat.div_eq_of_lt hlow, Nat.zero_add,
    Nat.mul_comm]

theorem digitOr0_eq (a : Mpi) (i : Nat) : a.digitOr0 i = a.val / (2 ^ 32) ^ i % 2 ^ 32 := by
  have h := digit_of_value (B := 2 ^ 32) (f := a.digitOr0) (k := i) (n := max a.count (i + 1))
    (fun i _ => a.digitOr0_lt i) (by omega)
  rw [value_digitOr0 a (Nat.le_max_left _ _)] at h
  exact h.symm

theorem parts_unique {p q x y w : Nat} (hx : x < w) (hy : y < w) (h : p * w + x = y + q * w) : p = q ∧ x = y := by
  have hp := congrArg (· / w) h
  have hm := congrArg (· % w) h
  simp only [Nat.mul_add_mod_self_right, Nat.add_mul_mod_self_right, Nat.mod_eq_of_lt hx, Nat.mod_eq_of_lt hy] at hm
  rw [hm, Nat.add_comm y] at h
  exact ⟨Nat.eq_of_mul_eq_mul_right (by omega) (Nat.add_right_cancel h), hm⟩

theorem eq_zero_of_rshift {r x : Mpi} {s ρ : Nat} (hs : s < 32) (hfits : ρ * 2 ^ s < (2 ^ 32) ^ pgpMpiMaxLimbs)
    (hx : x.val = ρ * 2 ^ s ∨ x.val = ρ * 2 ^ s % (2 ^ 32) ^ (pgpMpiMaxLimbs - 1))
    (hback : (pgpMpiRshift r x s).val = ρ) : ρ = 0 := by
  let y := fun i => ρ * 2 ^ s / (2 ^ 32) ^ i % 2 ^ 32
  have hy : ∀ i, y i < 2 ^ 32 := fun i => Nat.mod_lt _ (by decide)
  have hmax : pgpMpiMaxLimbs = 64 := rfl
  rw [hmax] at hfits hx
  -- the limbs that `x` shares with the number
  have hsame : ∀ i, i < 63 → x.digitOr0 i = y i := by
    intro i hi
    rw [digitOr0_eq]
    rcases hx with h | h
    · rw [h]
    · rw [h]
      obtain ⟨k, hk⟩ : ∃ k, 64 - 1 = i + (k + 1) := ⟨62 - i, by omega⟩
      rw [hk, pow_add, Nat.mod_mul_right_div_self, pow_succ' (2 ^ 32) k, Nat.mod_mod_of_dvd _ (Dvd.intro _ rfl)]
  have htop : x.digitOr0 63 = y 63 ∨ x.digitOr0 63 = 0 := by
    rw [digitOr0_eq]
    rcases hx with h | h
    · exact Or.inl (by rw [h])
    · refine Or.inr ?_
      rw [h, Nat.div_eq_of_lt (Nat.mod_lt _ (Nat.pow_pos (by decide))), Nat.zero_mod]
  -- what each limb of the result says
  have hparts : ∀ i, i < 64 → x.digitOr0 i % 2 ^ s = y (i + 1) % 2 ^ s ∧ x.digitOr0 (i + 1) / 2 ^ s = y i / 2 ^ s := by
    intro i hi
    have hdigit := digit_of_value (B := 2 ^ 32) (f := x.swapped s) (k := i) (n := 64)
      (fun i _ => x.swapped_lt (Nat.le_of_lt hs) i) hi
    rw [← val_rshift_swapped r x (n := 64) hs x.count_le, hback] at hdigit
    have hgoal : ρ / (2 ^ 32) ^ i % 2 ^ 32 = y i / 2 ^ s + y (i + 1) % 2 ^ s * 2 ^ (32 - s) := by
      have hz : ρ * 2 ^ s / (2 ^ 32) ^ i / 2 ^ s = ρ / (2 ^ 32) ^ i := by
        rw [Nat.div_div_eq_div_mul, Nat.mul_comm ((2 ^ 32) ^ i) (2 ^ s), ← Nat.div_div_eq_div_mul,
          Nat.mul_div_cancel _ (Nat.two_pow_pos s)]
      have hnext : ρ * 2 ^ s / (2 ^ 32) ^ (i + 1) = ρ * 2 ^ s / (2 ^ 32) ^ i / 2 ^ 32 := by
        rw [pow_succ, Nat.div_div_eq_div_mul]
      simp only [y]
      rw [← hz, digit_div (Nat.le_of_lt hs), hnext]
    refine parts_unique (div_two_pow_lt (Nat.le_of_lt hs) (x.digitOr0_lt _))
      (div_two_pow_lt (Nat.le_of_lt hs) (hy i)) (hdigit.symm.trans hgoal)
  have hlast : y 64 = 0 := by
    simp only [y]
    rw [Nat.div_eq_of_lt hfits, Nat.zero_mod]
  have hx64 : x.digitOr0 64 = 0 := if_neg (Nat.not_lt.mpr x.count_le)
  -- upwards: no limb has low bits
  have hlow : ∀ i, i < 64 → y i % 2 ^ s = 0 := by
    intro i
    induction i with
    | zero =>
      intro _
      simp only [y]
      rw [pow_zero, Nat.div_one, Nat.mod_mod_of_dvd _ (Nat.pow_dvd_pow 2 (Nat.le_of_lt hs)), Nat.mul_mod_left]
    | succ i ih =>
      intro hi
      rw [← (hparts i (by omega)).1, hsame i (by omega)]
      exact ih (by omega)
  -- downwards: no limb has high bits
  have hzero : ∀ k, k < 64 → y (63 - k) = 0 := by
    intro k
    induction k with
    | zero =>
      intro _
      have hhigh := (hparts 63 (by decide)).2
      rw [hx64, Nat.zero_div] at hhigh
      have hdiv := Nat.div_add_mod (y 63) (2 ^ s)
      rw [← hhigh, hlow 63 (by decide)] at hdiv
      simpa using hdiv.symm
    | succ k ih =>
      intro hk
      have hprev := ih (by omega)
      obtain ⟨j, hj⟩ : ∃ j, 63 - (k + 1) = j := ⟨_, rfl⟩
      have hj1 : 63 - k = j + 1 := by omega
      rw [hj1] at hprev
      have hnext : x.digitOr0 (j + 1) = 0 := by
        rcases Nat.lt_or_ge (j + 1) 63 with h | h
        · rw [hsame _ h, hprev]
        · obtain rfl : j = 62 := by omega
          rcases htop with h | h
          · rw [h, hprev]
          · exact h
      have hhigh := (hparts j (by omega)).2
      rw [hnext, Nat.zero_div] at hhigh
      have hdiv := Nat.div_add_mod (y j) (2 ^ s)
      rw [← hhigh, hlow j (by omega)] at hdiv
      rw [hj]
      simpa using hdiv.symm
  have hval := value_digits (B := 2 ^ 32) (n := 64) (ρ * 2 ^ s)
  rw [Nat.mod_eq_of_lt hfits, (value_eq_zero_iff (by decide)).mpr fun i hi => by
    have h := hzero (63 - i) (by omega)
    rwa [show 63 - (63 - i) = i by omega] at h] at hval
  exact (Nat.mul_eq_zero.mp hval.symm).resolve_right (Nat.ne_of_gt (Nat.two_pow_pos s))

end Chicago95.Stage2.Mpi
