/-
# Chicago95.Stage2.MpiDivision — when `pgp_mpi_div` divides.

The loop takes the divisor under the highest bit of what is left and subtracts it. ⚠ Where the divisor is the greater of
the two there, nothing changes and the loop does not end. What else goes wrong: the dividend is shifted out of its 64
limbs first, the difference leaves out limb 63, a bit of the quotient from 32 on is shifted to 0 in place, and at the
end the remainder comes back scrambled unless it is 0.
-/
import Chicago95.Stage2.MpiShift

namespace Chicago95.Stage2.Mpi

open Chicago95.Lib.Digits Chicago95.Lib.Loop

variable {ι : Type} [DecidableEq ι]

/-! ## The code -/

/-- A round of the loop of `pgp_mpi_div`, on `tmp_a` and `tmp_q`. -/
def divRound (b : Mpi) (st : Mpi × Mpi) : Mpi × Mpi :=
  let bits := st.1.bitCount - b.bitCount
  let shifted := pgpMpiLshift pgpMpiZero b bits
  let qbit := lshiftSelf (pgpMpiSetU32 1) bits
  if 0 ≤ pgpMpiCompare st.1 shifted then (pgpMpiSub st.1 st.1 shifted, pgpMpiAdd st.2 st.2 qbit) else st

/-- The loop, for at most `fuel` rounds. -/
def divRounds (b : Mpi) : Nat → Mpi × Mpi → Option (Mpi × Mpi)
  | 0, _ => none
  | fuel + 1, st => if b.bitCount ≤ st.1.bitCount then divRounds b fuel (divRound b st) else some st

/-- A result is copied to where it was asked for, and normalized. -/
def Store.put (m : Store ι) (l : Option ι) (x : Mpi) : Store ι :=
  match l with
  | none => m
  | some l => Function.update m l (mpiNormalize (assign (m l) x))

/-- `pgp_mpi_zero` where a result was asked for. -/
def Store.putZero (m : Store ι) (l : Option ι) : Store ι :=
  match l with
  | none => m
  | some l => Function.update m l pgpMpiZero

/-- `pgp_mpi_div(q, rem, a, b)` on variables, `none` where it has not returned. -/
def divAt (fuel : Nat) (q rem : Option ι) (a b : ι) (m : Store ι) : Option (Store ι) :=
  if (m b).pgpMpiIsZero then some ((m.putZero q).putZero rem)
  else
    let tmpA := assign pgpMpiZero (m a)
    let tmpB := assign pgpMpiZero (m b)
    if pgpMpiCompare tmpA tmpB < 0 then some ((m.put rem tmpA).putZero q)
    else
      let bTop := tmpB.limbs (tmpB.count - 1)
      if bTop = 0 then none
      else
        let shift := 31 - bTop.toNat.log2
        let tmpA := mpiNormalize (lshiftSelf tmpA shift)
        let tmpB := mpiNormalize (lshiftSelf tmpB shift)
        (divRounds tmpB fuel (tmpA, pgpMpiZero)).map fun st =>
          (m.put rem (pgpMpiRshift st.1 st.1 shift)).put q (mpiNormalize st.2)

/-! ## The law and the condition -/

/-- Quotient and remainder are where they were asked for, and nothing else has changed. -/
structure Divided (m m' : Store ι) (q rem : Option ι) (a b : Nat) : Prop where
  quotient : ∀ l, q = some l → (m' l).Normal ∧ (m' l).val = a / b
  remainder : ∀ l, rem = some l → (m' l).Normal ∧ (m' l).val = a % b
  others : ∀ l, q ≠ some l → rem ≠ some l → m' l = m l

/-- What the division of `a` by `b` owes: it ends with quotient and remainder, for every choice of the variables, and so
does `pgp_mpi_mod`. -/
def DivLaw (a b : Mpi) : Prop :=
  (∀ (ι : Type) [DecidableEq ι] (m : Store ι) (q rem : Option ι) (x y : ι), m x = a → m y = b →
    (q = none ∨ q ≠ rem) → ∃ fuel m', divAt fuel q rem x y m = some m' ∧ Divided m m' q rem a.val b.val) ∧
  ∀ r : Mpi, ∃ fuel x, pgpMpiMod fuel r a b = some x ∧ x.Normal ∧ x.val = a.val % b.val

/-- For each bit of the quotient `p`, the rest of the dividend is no longer than the divisor under that bit. -/
def Aligned (b p : Nat) : Prop := ∀ j, p.testBit j = true → p % 2 ^ (j + 1) * b < 2 ^ (j + b.size)

/-- The zeros above a number in its highest limb. -/
def lead (b : Nat) : Nat := (32 - b.size % 32) % 32

/-- The loop reaches 0 from `p` times the divisor `b`. -/
structure Drains (b p : Nat) : Prop where
  dividend : p * b * 2 ^ lead b < (2 ^ 32) ^ pgpMpiMaxLimbs
  aligned : Aligned b p
  first : (p - 2 ^ p.log2) * b * 2 ^ lead b < (2 ^ 32) ^ (pgpMpiMaxLimbs - 1)

/-- Where nothing is left to be scrambled: the remainder is right. -/
def ModFits (a b : Nat) : Prop := a < b ∨ b ∣ a ∧ Drains b (a / b)

/-- Which pairs are divided right: the quotient is one limb as well. -/
def DivFits (a b : Nat) : Prop := ModFits a b ∧ a / b < 2 ^ 32

/-! ## The bits of the quotient -/

theorem size_mul_of_aligned {b p : Nat} (hb : 0 < b) (hp : p ≠ 0) (h : Aligned b p) :
    (p * b).size = p.log2 + b.size := by
  have hself : p.testBit p.log2 = true := Nat.testBit_log2 hp
  have hmod : p % 2 ^ (p.log2 + 1) = p := Nat.mod_eq_of_lt Nat.lt_log2_self
  have hup := h p.log2 hself
  rw [hmod] at hup
  refine Nat.le_antisymm (Nat.size_le.mpr hup) ?_
  have hbpos : 0 < b.size := Nat.size_pos.mpr hb
  have hb' : 2 ^ (b.size - 1) ≤ b := Nat.lt_size.mp (by omega)
  have hlow : 2 ^ (p.log2 + b.size - 1) ≤ p * b := by
    rw [show p.log2 + b.size - 1 = p.log2 + (b.size - 1) by omega, pow_add]
    exact Nat.mul_le_mul (Nat.log2_self_le hp) hb'
  have := Nat.lt_size.mpr hlow
  omega

theorem mod_of_sub_two_pow {p d j : Nat} (hlo : 2 ^ d ≤ p) (hj : j ≤ d) : (p - 2 ^ d) % 2 ^ j = p % 2 ^ j := by
  obtain ⟨c, hc⟩ := Nat.pow_dvd_pow 2 hj
  have hp : p = p - 2 ^ d + 2 ^ j * c := by omega
  rw [congrArg (· % 2 ^ j) hp, Nat.add_mul_mod_self_left]

theorem testBit_sub_two_pow {p d j : Nat} (hlo : 2 ^ d ≤ p) (hhi : p < 2 ^ (d + 1)) (hj : j ≠ d) :
    (p - 2 ^ d).testBit j = p.testBit j := by
  rcases Nat.lt_or_gt_of_ne hj with h | h
  · have hmod := mod_of_sub_two_pow hlo (show j + 1 ≤ d from h)
    have hb : ∀ n : Nat, n.testBit j = (n % 2 ^ (j + 1)).testBit j := fun n => by
      rw [Nat.testBit_mod_two_pow]
      simp
    rw [hb, hmod, ← hb]
  · have hlt : 2 ^ (d + 1) ≤ 2 ^ j := Nat.pow_le_pow_right (by decide) h
    rw [Nat.testBit_lt_two_pow (by omega), Nat.testBit_lt_two_pow (by omega)]

theorem Aligned.of_sub {b p d : Nat} (hlo : 2 ^ d ≤ p) (hhi : p < 2 ^ (d + 1)) (htop : p * b < 2 ^ (d + b.size))
    (h : Aligned b (p - 2 ^ d)) : Aligned b p := by
  intro j hj
  by_cases hjd : j = d
  · subst hjd
    rw [Nat.mod_eq_of_lt hhi]
    exact htop
  · rw [← testBit_sub_two_pow hlo hhi hjd] at hj
    have hlt : j < d := by
      by_contra hge
      have hpow : 2 ^ (d + 1) ≤ 2 ^ j := Nat.pow_le_pow_right (by decide) (by omega)
      rw [Nat.testBit_lt_two_pow (by omega)] at hj
      cases hj
    have := h j hj
    rwa [mod_of_sub_two_pow hlo hlt] at this

theorem Aligned.sub {b p : Nat} (hp : p ≠ 0) (h : Aligned b p) : Aligned b (p - 2 ^ p.log2) := by
  have hlo := Nat.log2_self_le hp
  have hhi : p < 2 ^ (p.log2 + 1) := Nat.lt_log2_self
  intro j hj
  have hlt : j < p.log2 := by
    by_contra hge
    have hpow : 2 ^ p.log2 ≤ 2 ^ j := Nat.pow_le_pow_right (by decide) (by omega)
    rw [Nat.pow_succ] at hhi
    rw [Nat.testBit_lt_two_pow (by omega)] at hj
    cases hj
  rw [testBit_sub_two_pow hlo hhi (Nat.ne_of_lt hlt)] at hj
  rw [mod_of_sub_two_pow hlo hlt]
  exact h j hj

theorem size_mul_two_pow {b : Nat} (hb : 0 < b) (s : Nat) : (b * 2 ^ s).size = b.size + s := by
  rw [← Nat.shiftLeft_eq, Nat.size_shiftLeft (Nat.ne_of_gt hb)]

theorem aligned_shift {b : Nat} (hb : 0 < b) (s p : Nat) : Aligned (b * 2 ^ s) p ↔ Aligned b p := by
  refine forall₂_congr fun j _ => ?_
  rw [size_mul_two_pow hb, ← Nat.add_assoc, pow_add 2 (j + b.size), ← Nat.mul_assoc]
  exact Nat.mul_lt_mul_right (Nat.two_pow_pos s)

/-! ## A round -/

/-- The divisor as the loop has it. -/
structure Divisor (b : Mpi) (B : Nat) : Prop where
  normal : b.Normal
  val : b.val = B
  pos : 0 < B

/-- What is left and the quotient so far. -/
structure Rounds (st : Mpi × Mpi) (x q : Nat) : Prop where
  normal : st.1.Normal
  left : st.1.val = x
  quotient : st.2.val = q

theorem val_shifted {b : Mpi} {B x : Nat} (hb : Divisor b B) (hx : x < (2 ^ 32) ^ pgpMpiMaxLimbs)
    (hle : B.size ≤ x.size) (r : Mpi) : (pgpMpiLshift r b (x.size - B.size)).val = B * 2 ^ (x.size - B.size) := by
  have hsize : (B * 2 ^ (x.size - B.size)).size = x.size := by
    rw [size_mul_two_pow hb.pos]
    omega
  have hbound : x.size ≤ 32 * pgpMpiMaxLimbs := Nat.size_le.mpr (by rw [pow_mul]; exact hx)
  rw [val_lshift, hb.val, Nat.mod_eq_of_lt]
  rw [← pow_mul]
  exact Nat.size_le.mp (hsize.le.trans hbound)

theorem divRound_sub {b : Mpi} {B x q : Nat} {st : Mpi × Mpi} (hb : Divisor b B) (h : Rounds st x q)
    (hle : B.size ≤ x.size) (hsub : B * 2 ^ (x.size - B.size) ≤ x) :
    Rounds (divRound b st) ((x - B * 2 ^ (x.size - B.size)) % (2 ^ 32) ^ (pgpMpiMaxLimbs - 1))
      ((q + if x.size - B.size < 32 then 2 ^ (x.size - B.size) else 0) % (2 ^ 32) ^ pgpMpiMaxLimbs) := by
  have hx : x < (2 ^ 32) ^ pgpMpiMaxLimbs := h.left ▸ st.1.val_lt
  have hbits : st.1.bitCount - b.bitCount = x.size - B.size := by
    rw [h.normal.bitCount_eq, hb.normal.bitCount_eq, h.left, hb.val]
  have hshifted := val_shifted hb hx hle pgpMpiZero
  have hcmp : 0 ≤ pgpMpiCompare st.1 (pgpMpiLshift pgpMpiZero b (x.size - B.size)) := by
    have hlt := compare_lt_iff_of_normal h.normal (normal_lshift pgpMpiZero b (x.size - B.size))
    rw [hshifted, h.left] at hlt
    omega
  unfold divRound
  rw [hbits]
  simp only [hcmp, if_true]
  refine ⟨normal_sub _ _ _, ?_, ?_⟩
  · rw [val_sub _ (by rw [hshifted, h.left]; exact hsub), hshifted, h.left]
  · rw [val_add, val_lshiftSelf_one, h.quotient]

/-- ⚠ **A round that does nothing.** -/
theorem divRound_stuck {b : Mpi} {B x q : Nat} {st : Mpi × Mpi} (hb : Divisor b B) (h : Rounds st x q)
    (hle : B.size ≤ x.size) (hless : x < B * 2 ^ (x.size - B.size)) : divRound b st = st := by
  have hx : x < (2 ^ 32) ^ pgpMpiMaxLimbs := h.left ▸ st.1.val_lt
  have hbits : st.1.bitCount - b.bitCount = x.size - B.size := by
    rw [h.normal.bitCount_eq, hb.normal.bitCount_eq, h.left, hb.val]
  have hcmp : pgpMpiCompare st.1 (pgpMpiLshift pgpMpiZero b (x.size - B.size)) < 0 := by
    rw [compare_lt_iff_of_normal h.normal (normal_lshift _ _ _), val_shifted hb hx hle, h.left]
    exact hless
  unfold divRound
  rw [hbits]
  exact if_neg (by omega)

/-! ## The loop -/

/-- **What a run of the loop has done** when it ends with `x'` left and the quotient `q'`: it took the divisor `p` times
and dropped `k` times the weight of limb 63. -/
structure Ended (B x q x' q' p k : Nat) : Prop where
  split : x = p * B + k * (2 ^ 32) ^ (pgpMpiMaxLimbs - 1) + x'
  small : k = 0 ∨ x' < (2 ^ 32) ^ (pgpMpiMaxLimbs - 1)
  le : q' ≤ q + p
  quotient : q' = q + p → p < 2 ^ 32
  aligned : k = 0 → x' = 0 → Aligned B p
  first : k = 0 → x' = 0 → (p - 2 ^ p.log2) * B < (2 ^ 32) ^ (pgpMpiMaxLimbs - 1)

theorem Ended.cons {B x q x' q' p k : Nat} (hB : 0 < B) (hle : B.size ≤ x.size) (hsub : B * 2 ^ (x.size - B.size) ≤ x)
    (h : Ended B ((x - B * 2 ^ (x.size - B.size)) % (2 ^ 32) ^ (pgpMpiMaxLimbs - 1))
      ((q + if x.size - B.size < 32 then 2 ^ (x.size - B.size) else 0) % (2 ^ 32) ^ pgpMpiMaxLimbs) x' q' p k) :
    ∃ k', Ended B x q x' q' (p + 2 ^ (x.size - B.size)) k' := by
  set d := x.size - B.size with hd
  set P := (2 ^ 32) ^ (pgpMpiMaxLimbs - 1) with hP
  have hlt : (x - B * 2 ^ d) % P < P := Nat.mod_lt _ (Nat.pow_pos (by decide))
  have hdiv := Nat.mod_add_div (x - B * 2 ^ d) P
  generalize (x - B * 2 ^ d) % P = x₁ at h hlt hdiv
  generalize (x - B * 2 ^ d) / P = e at hdiv
  have hsplit := h.split
  rw [← hP] at hsplit
  have hq := h.le
  have hmod := Nat.mod_le (q + if d < 32 then 2 ^ d else 0) ((2 ^ 32) ^ pgpMpiMaxLimbs)
  have hpow := Nat.two_pow_pos d
  have hsum : x = (p + 2 ^ d) * B + (k + e) * P + x' := by
    rw [Nat.add_mul, Nat.add_mul, Nat.mul_comm (2 ^ d), Nat.mul_comm e]
    omega
  -- a multiple below the number has no bit above the one taken
  have hup : x < 2 ^ (d + B.size) :=
    Nat.lt_of_lt_of_le (Nat.lt_size_self x) (Nat.pow_le_pow_right (by decide) (by omega))
  have hhi : p + 2 ^ d < 2 ^ (d + 1) := by
    have hBpos := Nat.size_pos.mpr hB
    have hBsize : 2 ^ (B.size - 1) ≤ B := Nat.lt_size.mp (by omega)
    rw [show d + B.size = d + 1 + (B.size - 1) by omega, pow_add 2 (d + 1)] at hup
    by_contra hge
    have := Nat.mul_le_mul (Nat.not_lt.mp hge) hBsize
    omega
  have hclean : k + e = 0 → x' = 0 → k = 0 ∧ x = (p + 2 ^ d) * B ∧ x₁ = p * B := by
    intro hk hx'
    have hk0 : k = 0 := by omega
    simp only [hk, hx', Nat.zero_mul, Nat.add_zero] at hsum
    simp only [hk0, hx', Nat.zero_mul, Nat.add_zero] at hsplit
    exact ⟨hk0, hsum, hsplit⟩
  refine ⟨k + e, hsum, Or.inr (by omega), ?_, fun heq => ?_, fun hk hx' => ?_, fun hk hx' => ?_⟩
  · have hbit : (if d < 32 then 2 ^ d else 0) ≤ 2 ^ d := by
      split <;> omega
    omega
  · have hbit : d < 32 := by
      by_contra hge
      rw [if_neg hge] at hmod hq
      omega
    exact Nat.lt_of_lt_of_le hhi (Nat.pow_le_pow_right (by decide) hbit)
  · obtain ⟨hk0, hx, hrest⟩ := hclean hk hx'
    refine Aligned.of_sub (Nat.le_add_left _ _) hhi (hx ▸ hup) ?_
    rw [Nat.add_sub_cancel]
    exact h.aligned hk0 hx'
  · obtain ⟨hk0, hx, hrest⟩ := hclean hk hx'
    have hlog : (p + 2 ^ d).log2 = d :=
      (Nat.log2_eq_iff (by omega)).mpr ⟨Nat.le_add_left _ _, hhi⟩
    rw [hlog, Nat.add_sub_cancel, ← hrest]
    exact hlt

theorem divRounds_ended {b : Mpi} {B : Nat} (hb : Divisor b B) {fuel : Nat} :
    ∀ {st st' : Mpi × Mpi} {x q : Nat}, Rounds st x q → divRounds b fuel st = some st' →
      st'.1.Normal ∧ ∃ p k, Ended B x q st'.1.val st'.2.val p k := by
  induction fuel with
  | zero =>
    intro st st' x q _ hrun
    cases hrun
  | succ fuel ih =>
    intro st st' x q h hrun
    unfold divRounds at hrun
    rw [h.normal.bitCount_eq, hb.normal.bitCount_eq, h.left, hb.val] at hrun
    split at hrun
    · rename_i hle
      rcases Nat.lt_or_ge x (B * 2 ^ (x.size - B.size)) with hless | hsub
      · rw [divRound_stuck hb h hle hless] at hrun
        exact ih h hrun
      · obtain ⟨hnormal, p, k, hended⟩ := ih (divRound_sub hb h hle hsub) hrun
        obtain ⟨k', hcons⟩ := hended.cons hb.pos hle hsub
        exact ⟨hnormal, _, k', hcons⟩
    · obtain rfl := Option.some.inj hrun
      refine ⟨h.normal, 0, 0, ?_, Or.inl rfl, ?_, fun _ => Nat.two_pow_pos 32, fun _ _ j hj => ?_, fun _ _ => ?_⟩
      · rw [h.left]
        omega
      · rw [h.quotient]
        omega
      · simp at hj
      · rw [Nat.zero_sub, Nat.zero_mul]
        exact Nat.pow_pos (by decide)

theorem divRounds_of_aligned {b : Mpi} {B : Nat} (hb : Divisor b B) (p : Nat) :
    ∀ {st : Mpi × Mpi} {q : Nat}, Rounds st (p * B) q → Aligned B p →
      (p - 2 ^ p.log2) * B < (2 ^ 32) ^ (pgpMpiMaxLimbs - 1) →
      ∃ fuel st' q', divRounds b fuel st = some st' ∧ Rounds st' 0 q' ∧
        (p < 2 ^ 32 → q + p < (2 ^ 32) ^ pgpMpiMaxLimbs → q' = q + p) := by
  induction p using Nat.strong_induction_on with
  | _ p ih =>
    intro st q h halign hfirst
    rcases Nat.eq_zero_or_pos p with rfl | hpos
    · rw [Nat.zero_mul] at h
      refine ⟨1, st, q, ?_, h, fun _ _ => rfl⟩
      have hBpos := Nat.size_pos.mpr hb.pos
      unfold divRounds
      rw [h.normal.bitCount_eq, hb.normal.bitCount_eq, h.left, hb.val, Nat.size_zero, if_neg (by omega)]
    · have hne : p ≠ 0 := Nat.ne_of_gt hpos
      have hsize := size_mul_of_aligned hb.pos hne halign
      have hlo := Nat.log2_self_le hne
      have hle : B.size ≤ (p * B).size := by omega
      have hd : (p * B).size - B.size = p.log2 := by omega
      have hpow := Nat.two_pow_pos p.log2
      have hsub : B * 2 ^ ((p * B).size - B.size) ≤ p * B := by
        rw [hd, Nat.mul_comm]
        exact Nat.mul_le_mul_right _ hlo
      have hround := divRound_sub hb h hle hsub
      have hrest : p * B - B * 2 ^ p.log2 = (p - 2 ^ p.log2) * B := by
        rw [Nat.sub_mul, Nat.mul_comm B]
      rw [hd, hrest, Nat.mod_eq_of_lt hfirst] at hround
      have hnext : (p - 2 ^ p.log2 - 2 ^ (p - 2 ^ p.log2).log2) * B < (2 ^ 32) ^ (pgpMpiMaxLimbs - 1) :=
        Nat.lt_of_le_of_lt (Nat.mul_le_mul_right _ (Nat.sub_le _ _)) hfirst
      obtain ⟨fuel, st', q', hrun, hend, hquot⟩ := ih (p - 2 ^ p.log2) (by omega) hround (halign.sub hne) hnext
      refine ⟨fuel + 1, st', q', ?_, hend, fun hp hq => ?_⟩
      · unfold divRounds
        rw [h.normal.bitCount_eq, hb.normal.bitCount_eq, h.left, hb.val, if_pos hle]
        exact hrun
      · have hbit : p.log2 < 32 := (Nat.log2_lt hne).mpr hp
        rw [if_pos hbit, Nat.mod_eq_of_lt (by omega)] at hquot
        have := hquot (by omega) (by omega)
        omega

/-! ## Around the loop -/

theorem normal_assign (r : Mpi) {a : Mpi} (h : a.Normal) : (assign r a).Normal := by
  intro hne
  have hlt : a.count - 1 < a.count := Nat.sub_lt (Nat.pos_of_ne_zero hne) Nat.one_pos
  show copyLimbs r.limbs a.limbs a.count (a.count - 1) ≠ 0
  rw [copyLimbs, if_pos hlt]
  exact h hne

theorem normal_zero : pgpMpiZero.Normal := fun h => absurd rfl h

theorem val_zero : pgpMpiZero.val = 0 := rfl

theorem count_ne_zero {b : Mpi} (h : b.val ≠ 0) : b.count ≠ 0 := by
  intro hzero
  refine h ?_
  unfold val
  rw [hzero]
  rfl

theorem shift_eq {b : Mpi} (hb : b.Normal) (h0 : b.val ≠ 0) : 31 - (b.limbs (b.count - 1)).toNat.log2 = lead b.val := by
  have hcount := count_ne_zero h0
  have hlog : (b.limbs (b.count - 1)).toNat.log2 < 32 :=
    (Nat.log2_lt fun hz => hb hcount (UInt32.toNat_inj.mp hz)).mpr (b.limbs _).toNat_lt
  unfold lead
  rw [← bitLen_of_normal hb, bitLen_of_pos (Nat.pos_of_ne_zero hcount), if_pos (hb hcount)]
  omega

theorem shifted_lt {b : Mpi} (hb : b.Normal) (h0 : b.val ≠ 0) : b.val * 2 ^ lead b.val < (2 ^ 32) ^ pgpMpiMaxLimbs := by
  have hcount := count_ne_zero h0
  have hle := b.count_le
  have hlog : (b.limbs (b.count - 1)).toNat.log2 < 32 :=
    (Nat.log2_lt fun hz => hb hcount (UInt32.toNat_inj.mp hz)).mpr (b.limbs _).toNat_lt
  have hsize : (b.val * 2 ^ lead b.val).size ≤ 32 * pgpMpiMaxLimbs := by
    rw [size_mul_two_pow (Nat.pos_of_ne_zero h0), ← shift_eq hb h0, ← bitLen_of_normal hb,
      bitLen_of_pos (Nat.pos_of_ne_zero hcount), if_pos (hb hcount)]
    omega
  rw [← pow_mul]
  exact Nat.size_le.mp hsize

theorem lead_lt (b : Nat) : lead b < 32 := Nat.mod_lt _ (by decide)

/-- The numbers that the loop starts from. -/
def startOf (a : Mpi) (s : Nat) : Mpi := mpiNormalize (lshiftSelf (assign pgpMpiZero a) s)

theorem normal_startOf (a : Mpi) (s : Nat) : (startOf a s).Normal := normal_mpiNormalize _

theorem val_startOf (a : Mpi) {s : Nat} (hs : s < 32) :
    (startOf a s).val = a.val * 2 ^ s % (2 ^ 32) ^ pgpMpiMaxLimbs := by
  unfold startOf
  rw [val_mpiNormalize, lshiftSelf_eq _ hs, val_lshift, val_assign]

theorem divisor_startOf {b : Mpi} (hb : b.Normal) (h0 : b.val ≠ 0) :
    Divisor (startOf b (lead b.val)) (b.val * 2 ^ lead b.val) where
  normal := normal_startOf _ _
  val := by rw [val_startOf b (lead_lt _), Nat.mod_eq_of_lt (shifted_lt hb h0)]
  pos := Nat.mul_pos (Nat.pos_of_ne_zero h0) (Nat.two_pow_pos _)

theorem rounds_startOf (a : Mpi) {s : Nat} (hs : s < 32) :
    Rounds (startOf a s, pgpMpiZero) (a.val * 2 ^ s % (2 ^ 32) ^ pgpMpiMaxLimbs) 0 where
  normal := normal_startOf _ _
  left := val_startOf a hs
  quotient := val_zero

theorem divAt_of_lt {fuel : Nat} {q rem : Option ι} {x y : ι} {m : Store ι} (hx : (m x).Normal) (hy : (m y).Normal)
    (hlt : (m x).val < (m y).val) :
    divAt fuel q rem x y m = some ((m.put rem (assign pgpMpiZero (m x))).putZero q) := by
  have hzero : (m y).pgpMpiIsZero = false := by
    rw [Bool.eq_false_iff]
    intro hz
    rw [pgpMpiIsZero_iff] at hz
    omega
  have hcmp : pgpMpiCompare (assign pgpMpiZero (m x)) (assign pgpMpiZero (m y)) < 0 := by
    rw [compare_lt_iff_of_normal (normal_assign _ hx) (normal_assign _ hy), val_assign, val_assign]
    exact hlt
  unfold divAt
  simp only [hzero, hcmp, Bool.false_eq_true, if_false, if_true]

theorem divAt_of_le {fuel : Nat} {q rem : Option ι} {x y : ι} {m : Store ι} (hx : (m x).Normal) (hy : (m y).Normal)
    (h0 : (m y).val ≠ 0) (hle : (m y).val ≤ (m x).val) : divAt fuel q rem x y m =
      (divRounds (startOf (m y) (lead (m y).val)) fuel (startOf (m x) (lead (m y).val), pgpMpiZero)).map fun st =>
        (m.put rem (pgpMpiRshift st.1 st.1 (lead (m y).val))).put q (mpiNormalize st.2) := by
  have hzero : (m y).pgpMpiIsZero = false := by
    rw [Bool.eq_false_iff]
    intro hz
    exact h0 ((pgpMpiIsZero_iff _).mp hz)
  have hcmp : ¬ pgpMpiCompare (assign pgpMpiZero (m x)) (assign pgpMpiZero (m y)) < 0 := by
    rw [compare_lt_iff_of_normal (normal_assign _ hx) (normal_assign _ hy), val_assign, val_assign]
    omega
  have hyB : (assign pgpMpiZero (m y)).Normal := normal_assign _ hy
  have htop : (assign pgpMpiZero (m y)).limbs ((assign pgpMpiZero (m y)).count - 1) ≠ 0 :=
    hyB (count_ne_zero (by rwa [val_assign]))
  have hshift := shift_eq hyB (by rwa [val_assign])
  rw [val_assign] at hshift
  unfold divAt
  simp only [hzero, hcmp, htop, hshift, Bool.false_eq_true, if_false]
  rfl

/-! ## What is left in the variables -/

theorem put_of_ne {m : Store ι} {l : Option ι} {x : Mpi} {k : ι} (h : l ≠ some k) : m.put l x k = m k := by
  unfold Store.put
  cases l with
  | none => rfl
  | some l => exact Function.update_of_ne (fun hkl => h (congrArg some hkl.symm)) _ _

theorem put_self {m : Store ι} {x : Mpi} {k : ι} : (m.put (some k) x k).Normal ∧ (m.put (some k) x k).val = x.val := by
  have heq : m.put (some k) x k = mpiNormalize (assign (m k) x) := Function.update_self _ _ _
  rw [heq, val_mpiNormalize, val_assign]
  exact ⟨normal_mpiNormalize _, rfl⟩

theorem putZero_of_ne {m : Store ι} {l : Option ι} {k : ι} (h : l ≠ some k) : m.putZero l k = m k := by
  unfold Store.putZero
  cases l with
  | none => rfl
  | some l => exact Function.update_of_ne (fun hkl => h (congrArg some hkl.symm)) _ _

theorem putZero_self {m : Store ι} {k : ι} : m.putZero (some k) k = pgpMpiZero := Function.update_self _ _ _

omit [DecidableEq ι] in
theorem ne_some_of_apart {q rem : Option ι} (hq : q = none ∨ q ≠ rem) {l : ι} (hl : rem = some l) : q ≠ some l := by
  rcases hq with rfl | hne
  · simp
  · exact fun h => hne (h.trans hl.symm)

theorem divided_put {m : Store ι} {q rem : Option ι} (hq : q = none ∨ q ≠ rem) {x y : Mpi} {a b : Nat}
    (hrem : x.val = a % b) (hquot : y.val = a / b) : Divided m ((m.put rem x).put q y) q rem a b where
  quotient l hl := by
    subst hl
    exact ⟨put_self.1, put_self.2.trans hquot⟩
  remainder l hl := by
    rw [put_of_ne (ne_some_of_apart hq hl)]
    subst hl
    exact ⟨put_self.1, put_self.2.trans hrem⟩
  others l hql hrl := by rw [put_of_ne hql, put_of_ne hrl]

theorem divided_putZero {m : Store ι} {q rem : Option ι} (hq : q = none ∨ q ≠ rem) {x : Mpi} {a b : Nat}
    (hrem : x.val = a % b) (hquot : a / b = 0) : Divided m ((m.put rem x).putZero q) q rem a b where
  quotient l hl := by
    subst hl
    rw [putZero_self]
    exact ⟨normal_zero, hquot.symm⟩
  remainder l hl := by
    rw [putZero_of_ne (ne_some_of_apart hq hl)]
    subst hl
    exact ⟨put_self.1, put_self.2.trans hrem⟩
  others l hql hrl := by rw [putZero_of_ne hql, put_of_ne hrl]

/-! ## Right exactly where it fits -/

theorem val_rshift_zero {r x : Mpi} {s : Nat} (hs : s < 32) (hx : x.val = 0) : (pgpMpiRshift r x s).val = 0 := by
  rw [val_rshift_swapped r x hs (Nat.le_refl _), value_eq_zero_iff (by decide)]
  intro i _
  unfold swapped
  rw [digitOr0_eq, digitOr0_eq, hx]
  simp

theorem divRounds_of_drains {a b : Mpi} (hb : b.Normal) (h0 : b.val ≠ 0) (hdvd : b.val ∣ a.val)
    (h : Drains b.val (a.val / b.val)) :
    ∃ fuel st q, divRounds (startOf b (lead b.val)) fuel (startOf a (lead b.val), pgpMpiZero) = some st ∧
      Rounds st 0 q ∧ (a.val / b.val < 2 ^ 32 → q = a.val / b.val) := by
  obtain ⟨p, hp⟩ := hdvd
  have hdiv : a.val / b.val = p := by
    rw [hp, Nat.mul_div_cancel_left _ (Nat.pos_of_ne_zero h0)]
  rw [hdiv] at h ⊢
  have hstart := rounds_startOf a (lead_lt b.val)
  have hval : a.val * 2 ^ lead b.val = p * (b.val * 2 ^ lead b.val) := by
    rw [hp]
    ring
  have hdividend := h.dividend
  have hfirst := h.first
  rw [Nat.mul_assoc] at hdividend hfirst
  rw [hval, Nat.mod_eq_of_lt hdividend] at hstart
  obtain ⟨fuel, st, q, hrun, hend, hquot⟩ := divRounds_of_aligned (divisor_startOf hb h0) p hstart
    ((aligned_shift (Nat.pos_of_ne_zero h0) _ p).mpr h.aligned) hfirst
  refine ⟨fuel, st, q, hrun, hend, fun hsmall => ?_⟩
  have : 2 ^ 32 ≤ (2 ^ 32) ^ pgpMpiMaxLimbs := Nat.le_self_pow (by decide) _
  rw [hquot hsmall (by omega), Nat.zero_add]

theorem drains_of_divRounds {a b : Mpi} (hb : b.Normal) (h0 : b.val ≠ 0) {fuel : Nat} {st : Mpi × Mpi}
    (hrun : divRounds (startOf b (lead b.val)) fuel (startOf a (lead b.val), pgpMpiZero) = some st)
    (hquot : st.2.val = a.val / b.val) (hrem : (pgpMpiRshift st.1 st.1 (lead b.val)).val = a.val % b.val) :
    b.val ∣ a.val ∧ Drains b.val (a.val / b.val) ∧ a.val / b.val < 2 ^ 32 := by
  set s := lead b.val with hs
  have hpos := Nat.pos_of_ne_zero h0
  have hpow := Nat.two_pow_pos s
  obtain ⟨-, p, k, hended⟩ := divRounds_ended (divisor_startOf hb h0) (rounds_startOf a (lead_lt b.val)) hrun
  rw [← hs] at hended
  have hsplit := hended.split
  have hle := hended.le
  rw [Nat.zero_add, hquot] at hle
  have hM := Nat.mod_add_div (a.val * 2 ^ s) ((2 ^ 32) ^ pgpMpiMaxLimbs)
  generalize hA : a.val * 2 ^ s % (2 ^ 32) ^ pgpMpiMaxLimbs = A at hsplit hM
  generalize a.val * 2 ^ s / (2 ^ 32) ^ pgpMpiMaxLimbs = t at hM
  -- the quotient found is no more than the quotient
  have hp : p = a.val / b.val := by
    refine Nat.le_antisymm ((Nat.le_div_iff_mul_le hpos).mpr ?_) hle
    refine Nat.le_of_mul_le_mul_right ?_ hpow
    rw [Nat.mul_assoc]
    omega
  have hparts : a.val * 2 ^ s = p * (b.val * 2 ^ s) + a.val % b.val * 2 ^ s := by
    conv_lhs => rw [← Nat.div_add_mod a.val b.val, ← hp]
    ring
  have hrest : a.val % b.val * 2 ^ s =
      (2 ^ 32) ^ pgpMpiMaxLimbs * t + k * (2 ^ 32) ^ (pgpMpiMaxLimbs - 1) + st.1.val := by omega
  have hfits : a.val % b.val * 2 ^ s < (2 ^ 32) ^ pgpMpiMaxLimbs :=
    Nat.lt_of_le_of_lt (Nat.mul_le_mul_right _ (Nat.le_of_lt (Nat.mod_lt _ hpos))) (shifted_lt hb h0)
  have ht : t = 0 := by
    by_contra hne
    have := Nat.le_mul_of_pos_right ((2 ^ 32) ^ pgpMpiMaxLimbs) (Nat.pos_of_ne_zero hne)
    omega
  rw [ht, Nat.mul_zero, Nat.zero_add] at hrest
  have hzero : a.val % b.val = 0 := by
    refine eq_zero_of_rshift (lead_lt b.val) hfits ?_ hrem
    rcases hended.small with hk | hsmall
    · rw [hk, Nat.zero_mul, Nat.zero_add] at hrest
      exact Or.inl hrest.symm
    · refine Or.inr ?_
      rw [hrest, Nat.add_comm, Nat.add_mul_mod_self_right, Nat.mod_eq_of_lt hsmall]
  rw [hzero, Nat.zero_mul] at hrest hparts
  have hP : 0 < (2 ^ 32) ^ (pgpMpiMaxLimbs - 1) := Nat.pow_pos (by decide)
  have hk : k = 0 := by
    rcases Nat.mul_eq_zero.mp (show k * (2 ^ 32) ^ (pgpMpiMaxLimbs - 1) = 0 by omega) with h | h
    · exact h
    · omega
  have hx : st.1.val = 0 := by omega
  refine ⟨Nat.dvd_of_mod_eq_zero hzero, ?_⟩
  rw [← hp]
  refine ⟨⟨?_, (aligned_shift hpos s p).mp (hended.aligned hk hx), ?_⟩,
    hended.quotient (by rw [hquot, Nat.zero_add, hp])⟩
  · rw [Nat.mul_assoc, ← hs, ← show a.val * 2 ^ s = p * (b.val * 2 ^ s) by omega]
    have hA' : A < (2 ^ 32) ^ pgpMpiMaxLimbs := hA ▸ Nat.mod_lt _ (Nat.pow_pos (by decide))
    rw [ht, Nat.mul_zero, Nat.add_zero] at hM
    omega
  · rw [Nat.mul_assoc, ← hs]
    exact hended.first hk hx

/-! ## The remainder alone -/

theorem divRounds_fst (b : Mpi) (fuel : Nat) : ∀ st : Mpi × Mpi, (divRounds b fuel st).map (·.1) = divLoop b fuel st.1 := by
  induction fuel with
  | zero => exact fun _ => rfl
  | succ fuel ih =>
    intro st
    unfold divRounds divLoop
    split
    · rw [ih]
      unfold divRound
      dsimp only
      split <;> rfl
    · rfl

theorem mod_of_fits {a b : Mpi} (ha : a.Normal) (hb : b.Normal) (h0 : b.val ≠ 0) (h : ModFits a.val b.val) (r : Mpi) :
    ∃ fuel x, pgpMpiMod fuel r a b = some x ∧ x.Normal ∧ x.val = a.val % b.val := by
  by_cases hlt : a.val < b.val
  · obtain ⟨x, hx, hval⟩ := mod_of_lt 0 r hlt
    have hnormal : x.Normal := by
      unfold pgpMpiMod at hx
      obtain ⟨tmp, -, rfl⟩ := Option.map_eq_some_iff.mp hx
      exact normal_mpiNormalize _
    exact ⟨0, x, hx, hnormal, by rw [hval, Nat.mod_eq_of_lt hlt]⟩
  · obtain ⟨hdvd, hdrains⟩ := h.resolve_left hlt
    obtain ⟨fuel, st, q, hrun, hend, -⟩ := divRounds_of_drains hb h0 hdvd hdrains
    have hloop := divRounds_fst (startOf b (lead b.val)) fuel (startOf a (lead b.val), pgpMpiZero)
    rw [hrun, Option.map_some] at hloop
    have hzero : b.pgpMpiIsZero = false := by
      rw [Bool.eq_false_iff]
      exact fun hz => h0 ((pgpMpiIsZero_iff _).mp hz)
    have hcmp : ¬ pgpMpiCompare (assign pgpMpiZero a) (assign pgpMpiZero b) < 0 := by
      rw [compare_lt_iff_of_normal (normal_assign _ ha) (normal_assign _ hb), val_assign, val_assign]
      exact hlt
    have hbB : (assign pgpMpiZero b).Normal := normal_assign _ hb
    have htop : (assign pgpMpiZero b).limbs ((assign pgpMpiZero b).count - 1) ≠ 0 :=
      hbB (count_ne_zero (by rwa [val_assign]))
    have hshift := shift_eq hbB (by rwa [val_assign])
    rw [val_assign] at hshift
    have hloop' : divLoop (mpiNormalize (pgpMpiLshift (assign pgpMpiZero b) (assign pgpMpiZero b) (lead b.val))) fuel
        (mpiNormalize (pgpMpiLshift (assign pgpMpiZero a) (assign pgpMpiZero a) (lead b.val))) = some st.1 := by
      rw [← lshiftSelf_eq _ (lead_lt _), ← lshiftSelf_eq _ (lead_lt _)]
      exact hloop.symm
    refine ⟨fuel, mpiNormalize (assign r (mpiNormalize (assign pgpMpiZero (pgpMpiRshift st.1 st.1 (lead b.val))))), ?_,
      normal_mpiNormalize _, ?_⟩
    · unfold pgpMpiMod pgpMpiDiv
      simp only [hzero, hcmp, htop, hshift, hloop', Bool.false_eq_true, if_false, Option.map_some]
    · rw [val_mpiNormalize, val_assign, val_mpiNormalize, val_assign, val_rshift_zero (lead_lt _) hend.left,
        Nat.mod_eq_zero_of_dvd hdvd]

theorem divLaw_of_fits {a b : Mpi} (ha : a.Normal) (hb : b.Normal) (h0 : b.val ≠ 0) (h : DivFits a.val b.val) :
    DivLaw a b := by
  refine ⟨fun ι _ m q rem x y hx hy hq => ?_, mod_of_fits ha hb h0 h.1⟩
  subst hx hy
  by_cases hlt : (m x).val < (m y).val
  · refine ⟨0, _, divAt_of_lt ha hb hlt, divided_putZero hq ?_ (Nat.div_eq_of_lt hlt)⟩
    rw [val_assign, Nat.mod_eq_of_lt hlt]
  · obtain ⟨hdvd, hdrains⟩ := h.1.resolve_left hlt
    obtain ⟨fuel, st, quot, hrun, hend, hquot⟩ := divRounds_of_drains hb h0 hdvd hdrains
    refine ⟨fuel, _, ?_, divided_put hq (x := pgpMpiRshift st.1 st.1 (lead (m y).val)) (y := mpiNormalize st.2) ?_ ?_⟩
    · rw [divAt_of_le ha hb h0 (Nat.not_lt.mp hlt), hrun, Option.map_some]
    · rw [val_rshift_zero (lead_lt _) hend.left, Nat.mod_eq_zero_of_dvd hdvd]
    · rw [val_mpiNormalize, hend.quotient, hquot h.2]

/-- Four variables of their own. -/
def fourVars (a b : Mpi) : Store (Fin 4) := fun i => if i = 2 then a else if i = 3 then b else pgpMpiZero

theorem fits_of_divLaw {a b : Mpi} (ha : a.Normal) (hb : b.Normal) (h0 : b.val ≠ 0) (h : DivLaw a b) :
    DivFits a.val b.val := by
  by_cases hlt : a.val < b.val
  · exact ⟨Or.inl hlt, by rw [Nat.div_eq_of_lt hlt]; decide⟩
  · obtain ⟨fuel, m', hrun, hdone⟩ := h.1 (Fin 4) (fourVars a b) (some 0) (some 1) 2 3 rfl rfl (Or.inr (by decide))
    rw [divAt_of_le (m := fourVars a b) (x := 2) (y := 3) ha hb h0 (Nat.not_lt.mp hlt)] at hrun
    obtain ⟨st, hst, hm'⟩ := Option.map_eq_some_iff.mp hrun
    have hquot := (hdone.quotient 0 rfl).2
    have hrem := (hdone.remainder 1 rfl).2
    rw [← hm'] at hquot hrem
    rw [put_self.2, val_mpiNormalize] at hquot
    rw [put_of_ne (by decide), put_self.2] at hrem
    obtain ⟨hdvd, hdrains, hsmall⟩ := drains_of_divRounds hb h0 hst hquot hrem
    exact ⟨Or.inr ⟨hdvd, hdrains⟩, hsmall⟩

/-- **When `pgp_mpi_div` and `pgp_mpi_mod` are right**, for operands in normal form and a divisor that is not 0. -/
theorem div_iff {a b : Mpi} (ha : a.Normal) (hb : b.Normal) (h0 : b.val ≠ 0) : DivLaw a b ↔ DivFits a.val b.val :=
  ⟨fits_of_divLaw ha hb h0, divLaw_of_fits ha hb h0⟩

theorem six_by_three : DivLaw (pgpMpiSetU32 6) (pgpMpiSetU32 3) ↔ DivFits 6 3 :=
  div_iff (fun _ => by decide) (fun _ => by decide) (by decide)

/-- ⚠ 3 by 2 leaves 0. -/
theorem three_by_two : (pgpMpiMod 2 pgpMpiZero (pgpMpiSetU32 3) (pgpMpiSetU32 2)).map val = some 0 ∧
    ¬ DivLaw (pgpMpiSetU32 3) (pgpMpiSetU32 2) := by
  refine ⟨by decide, fun h => ?_⟩
  have hfits : DivFits 3 2 := fits_of_divLaw (fun _ => by decide) (fun _ => by decide) (by decide) h
  rcases hfits.1 with hlt | ⟨hdvd, -⟩
  · exact absurd hlt (by decide)
  · exact absurd hdvd (by decide)

end Chicago95.Stage2.Mpi
