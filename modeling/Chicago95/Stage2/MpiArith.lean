/-
# Chicago95.Stage2.MpiArith — sums and products of `pgp_mpi.c`, where result and operands may be one variable.

`pgp_mpi_add` writes limb `i` of its result after it has read limb `i` of both operands, and `pgp_mpi_mul` writes its
result when it has read everything; so it makes no difference which of the three pointers are equal. To say so, the two
functions are also written on a store of variables (`addAt`, `mulAt`), limb by limb as they read and write it, and there
they check every index against its array and every intermediate against its 64 bits. `arith_exact` is what they do for
every choice of the three variables: they refuse nothing, and leave the sum and the product modulo `2^2048`, normalized.
-/
import Chicago95.Stage2.PgpMpi

namespace Chicago95.Stage2.Mpi

open Chicago95.Lib.Digits Chicago95.Lib.Loop
open Function (update_of_ne update_self update_idem update_eq_self update)

/-! ## The sum -/

/-- The last limb that `pgp_mpi_add` writes in its loop. -/
def addTop (a b : Mpi) : Nat :=
  if pgpMpiMaxLimbs ≤ max a.count b.count then pgpMpiMaxLimbs - 1 else max a.count b.count

/-- A limb below the count, and 0 above it. -/
def digitOr0 (a : Mpi) (i : Nat) : Nat := if i < a.count then (a.limbs i).toNat else 0

/-- A pass of the loop of `pgp_mpi_add`, on the limbs of the result and the carry. -/
def addPass (a b : Mpi) (i : Nat) (st : (Nat → UInt32) × Nat) : (Nat → UInt32) × Nat :=
  let sum := st.2 + a.digitOr0 i + b.digitOr0 i
  (update st.1 i (UInt32.ofNat (sum % 2 ^ 32)), sum / 2 ^ 32)

/-- A carry that is left over has a limb of its own. -/
def addSpill (a b : Mpi) (carry : Nat) : Bool := decide (carry ≠ 0 ∧ addTop a b + 1 < pgpMpiMaxLimbs)

theorem addTop_lt (a b : Mpi) : addTop a b < pgpMpiMaxLimbs := by
  unfold addTop pgpMpiMaxLimbs
  split <;> omega

/-- `pgp_mpi_add(r, a, b)` -/
def pgpMpiAdd (r a b : Mpi) : Mpi :=
  let st := forEach (addTop a b + 1) (addPass a b) (r.limbs, 0)
  mpiNormalize
    (if h : addSpill a b st.2 = true then
      { limbs := update st.1 (addTop a b + 1) (UInt32.ofNat st.2)
        count := addTop a b + 2
        count_le := (of_decide_eq_true h).2 }
    else
      { limbs := st.1
        count := addTop a b + 1
        count_le := addTop_lt a b })

theorem digitOr0_lt (a : Mpi) (i : Nat) : a.digitOr0 i < 2 ^ 32 := by
  unfold digitOr0
  split
  · exact a.digit_lt i
  · exact Nat.two_pow_pos 32

theorem value_digitOr0 (a : Mpi) {n : Nat} (hn : a.count ≤ n) : value (2 ^ 32) a.digitOr0 n = a.val := by
  rw [value_of_zero hn fun i hi _ => by simp [digitOr0, Nat.not_lt.mpr hi]]
  exact value_congr fun i hi => by simp [digitOr0, digit, hi]

/-- Before pass `n`: the limbs written and the carry are the sum of the limbs read. -/
structure AddInv (a b : Mpi) (n : Nat) (st : (Nat → UInt32) × Nat) : Prop where
  carry : st.2 ≤ 1
  val : value (2 ^ 32) (fun i => (st.1 i).toNat) n + st.2 * (2 ^ 32) ^ n =
    value (2 ^ 32) a.digitOr0 n + value (2 ^ 32) b.digitOr0 n

theorem AddInv.pass {a b : Mpi} {n : Nat} {st : (Nat → UInt32) × Nat} (h : AddInv a b n st) :
    AddInv a b (n + 1) (addPass a b n st) := by
  obtain ⟨limbs, carry⟩ := st
  obtain ⟨hcarry, hval⟩ := h
  have ha := a.digitOr0_lt n
  have hb := b.digitOr0_lt n
  dsimp only at hcarry hval
  unfold addPass
  dsimp only
  set sum := carry + a.digitOr0 n + b.digitOr0 n with hdef
  refine ⟨by dsimp only; omega, ?_⟩
  have hlow : value (2 ^ 32) (fun i => (update limbs n (UInt32.ofNat (sum % 2 ^ 32)) i).toNat) n =
      value (2 ^ 32) (fun i => (limbs i).toNat) n :=
    value_congr fun i hi => by rw [update_of_ne (Nat.ne_of_lt hi)]
  have hnew : (update limbs n (UInt32.ofNat (sum % 2 ^ 32)) n).toNat = sum % 2 ^ 32 := by
    rw [update_self]
    exact UInt32.toNat_ofNat_of_lt' (Nat.mod_lt _ (by decide))
  have hsplit : sum * (2 ^ 32) ^ n = sum % 2 ^ 32 * (2 ^ 32) ^ n + sum / 2 ^ 32 * (2 ^ 32) ^ (n + 1) := by
    conv_lhs => rw [show sum = sum % 2 ^ 32 + sum / 2 ^ 32 * 2 ^ 32 by omega]
    rw [pow_succ]
    ring
  have hexpand : sum * (2 ^ 32) ^ n =
      carry * (2 ^ 32) ^ n + a.digitOr0 n * (2 ^ 32) ^ n + b.digitOr0 n * (2 ^ 32) ^ n := by
    rw [hdef]
    ring
  dsimp only
  rw [value_succ, value_succ, value_succ, hlow, hnew]
  omega

theorem addPass_carry (a b : Mpi) (i : Nat) (st : (Nat → UInt32) × Nat) :
    (addPass a b i st).2 = (st.2 + a.digitOr0 i + b.digitOr0 i) / 2 ^ 32 := rfl

theorem addLoop_spec (r a b : Mpi) (n : Nat) : AddInv a b n (forEach n (addPass a b) (r.limbs, 0)) :=
  forEach_induction (P := AddInv a b) ⟨Nat.zero_le _, by simp⟩ fun _ _ _ h => h.pass

theorem addLoop_carry (r a b : Mpi) (h : max a.count b.count < pgpMpiMaxLimbs) :
    (forEach (addTop a b + 1) (addPass a b) (r.limbs, 0)).2 = 0 := by
  have htop : addTop a b = max a.count b.count := if_neg (Nat.not_le.mpr h)
  have hinv := addLoop_spec r a b (addTop a b)
  have ha : a.digitOr0 (addTop a b) = 0 := by
    rw [htop]
    simp [digitOr0]
  have hb : b.digitOr0 (addTop a b) = 0 := by
    rw [htop]
    simp [digitOr0]
  have hcarry := hinv.carry
  rw [forEach_succ, addPass_carry, ha, hb]
  omega

theorem val_add (r a b : Mpi) : (pgpMpiAdd r a b).val = (a.val + b.val) % (2 ^ 32) ^ pgpMpiMaxLimbs := by
  have hinv := addLoop_spec r a b (addTop a b + 1)
  set st := forEach (addTop a b + 1) (addPass a b) (r.limbs, 0) with hst
  have hspill : addSpill a b st.2 = false := by
    rw [addSpill, decide_eq_false_iff_not]
    rintro ⟨hne, hroom⟩
    refine hne (addLoop_carry r a b ?_)
    unfold addTop at hroom
    split at hroom <;> omega
  have hlimbs : value (2 ^ 32) (fun i => (st.1 i).toNat) (addTop a b + 1) < (2 ^ 32) ^ (addTop a b + 1) :=
    value_lt fun i _ => (st.1 i).toNat_lt
  have hval : (pgpMpiAdd r a b).val = value (2 ^ 32) (fun i => (st.1 i).toNat) (addTop a b + 1) := by
    unfold pgpMpiAdd
    rw [val_mpiNormalize]
    simp only [← hst, hspill, Bool.false_eq_true, dif_neg, not_false_eq_true]
    rfl
  have hsum := hinv.val
  by_cases hfull : max a.count b.count < pgpMpiMaxLimbs
  · have htop : addTop a b = max a.count b.count := if_neg (Nat.not_le.mpr hfull)
    have hcarry := addLoop_carry r a b hfull
    rw [← hst] at hcarry
    rw [hcarry, value_digitOr0 a (by omega), value_digitOr0 b (by omega)] at hsum
    have hpow : (2 ^ 32) ^ (addTop a b + 1) ≤ (2 ^ 32) ^ pgpMpiMaxLimbs :=
      Nat.pow_le_pow_right (by decide) (addTop_lt a b)
    rw [hval, Nat.mod_eq_of_lt (by omega)]
    omega
  · have htop : addTop a b + 1 = pgpMpiMaxLimbs := by
      unfold addTop
      rw [if_pos (Nat.not_lt.mp hfull)]
      decide
    rw [htop, value_digitOr0 a a.count_le, value_digitOr0 b b.count_le] at hsum
    rw [htop] at hlimbs
    rw [hval, htop, ← hsum, Nat.add_mul_mod_self_right, Nat.mod_eq_of_lt hlimbs]

theorem normal_add (r a b : Mpi) : (pgpMpiAdd r a b).Normal := normal_mpiNormalize _

theorem normal_mul (r a b : Mpi) : (pgpMpiMul r a b).Normal := normal_mpiNormalize _

/-! ## On variables -/

/-- The variables of a program. -/
abbrev Store (ι : Type) := ι → Mpi

variable {ι : Type} [DecidableEq ι]

/-- `a->limbs[i]`, none outside the array. -/
def limbAt (a : Mpi) (i : Nat) : Option Nat := if i < pgpMpiMaxLimbs then some (a.limbs i).toNat else none

/-- `if (i < a->count) sum += a->limbs[i]` -/
def operandAt (a : Mpi) (i : Nat) : Option Nat := if i < a.count then a.limbAt i else some 0

/-- `tmp[i]`, none outside the array. -/
def tmpAt (tmp : Nat → Nat) (i : Nat) : Option Nat := if i < mpiTemp then some (tmp i) else none

/-- `tmp[i] = v`, none outside the array. -/
def setTmp (tmp : Nat → Nat) (i v : Nat) : Option (Nat → Nat) :=
  if i < mpiTemp then some (update tmp i v) else none

/-- A 64-bit intermediate, none where it overflows. -/
def word64 (x : Nat) : Option Nat := if x < 2 ^ 64 then some x else none

namespace Store

/-- `r->limbs[i] = v`, none outside the array. -/
def setLimb (m : Store ι) (r : ι) (i v : Nat) : Option (Store ι) :=
  if i < pgpMpiMaxLimbs then
    some (update m r { m r with limbs := update (m r).limbs i (UInt32.ofNat v) })
  else none

/-- `r->count = n`, none where that is more than the array. -/
def setCount (m : Store ι) (r : ι) (n : Nat) : Option (Store ι) :=
  if h : n ≤ pgpMpiMaxLimbs then some (update m r { m r with count := n, count_le := h }) else none

/-- `mpi_normalize(r)` -/
def normalize (m : Store ι) (r : ι) : Store ι := update m r (mpiNormalize (m r))

end Store

/-- A pass of the loop of `pgp_mpi_add`, which reads `a` and `b` as they are by then. -/
def addPassAt (r a b : ι) (i : Nat) (st : Store ι × Nat) : Option (Store ι × Nat) := do
  let x ← (st.1 a).operandAt i
  let y ← (st.1 b).operandAt i
  let sum ← word64 (st.2 + x + y)
  let m ← st.1.setLimb r i (sum % 2 ^ 32)
  some (m, sum / 2 ^ 32)

/-- `pgp_mpi_add(r, a, b)` on variables. -/
def addAt (r a b : ι) (m : Store ι) : Option (Store ι) := do
  let top := addTop (m a) (m b)
  let (m, carry) ← forEachM (top + 1) (addPassAt r a b) (m, 0)
  if carry ≠ 0 ∧ top + 1 < pgpMpiMaxLimbs then do
    let m ← m.setLimb r (top + 1) carry
    let m ← m.setCount r (top + 2)
    some (m.normalize r)
  else do
    let m ← m.setCount r (top + 1)
    some (m.normalize r)

/-- A pass of the inner loop of `pgp_mpi_mul`. -/
def mulPassAt (a b : Mpi) (i j : Nat) (st : (Nat → Nat) × Nat) : Option ((Nat → Nat) × Nat) := do
  let x ← a.limbAt i
  let y ← b.limbAt j
  let t ← tmpAt st.1 (i + j)
  let sum ← word64 (t + x * y + st.2)
  let tmp ← setTmp st.1 (i + j) (sum % 2 ^ 32)
  some (tmp, sum / 2 ^ 32)

/-- A pass of its outer loop. -/
def mulRowAt (a b : Mpi) (i : Nat) (tmp : Nat → Nat) : Option (Nat → Nat) := do
  let (tmp, carry) ← forEachM (min b.count (mpiTemp - i)) (mulPassAt a b i) (tmp, 0)
  if carry ≠ 0 ∧ i + b.count < mpiTemp then setTmp tmp (i + b.count) carry else some tmp

/-- A pass of its last loop. -/
def copyPassAt (r : ι) (tmp : Nat → Nat) (i : Nat) (m : Store ι) : Option (Store ι) := do
  let t ← tmpAt tmp i
  m.setLimb r i t

/-- `pgp_mpi_mul(r, a, b)` on variables; the operands are read before the result is written. -/
def mulAt (r a b : ι) (m : Store ι) : Option (Store ι) := do
  let tmp ← forEachM (m a).count (mulRowAt (m a) (m b)) fun _ => 0
  let top := min ((m a).count + (m b).count) pgpMpiMaxLimbs
  let m ← forEachM top (copyPassAt r tmp) m
  let m ← m.setCount r top
  some (m.normalize r)

/-! ## What the checks let through -/

/-- The variable `r` with other limbs. -/
def withLimbs (m : Store ι) (r : ι) (limbs : Nat → UInt32) : Store ι :=
  update m r { m r with limbs := limbs }

@[simp] theorem withLimbs_count (m : Store ι) (r l : ι) (limbs : Nat → UInt32) :
    (withLimbs m r limbs l).count = (m l).count := by
  unfold withLimbs
  by_cases h : l = r
  · subst h
    rw [update_self]
  · rw [update_of_ne h]

theorem withLimbs_setLimb (m : Store ι) (r : ι) (limbs : Nat → UInt32) {i : Nat} (v : Nat)
    (hi : i < pgpMpiMaxLimbs) : (withLimbs m r limbs).setLimb r i v =
      some (withLimbs m r (update limbs i (UInt32.ofNat v))) := by
  unfold Store.setLimb withLimbs
  rw [if_pos hi, update_self, update_idem]

theorem withLimbs_setCount (m : Store ι) (r : ι) (limbs : Nat → UInt32) {n : Nat} (hn : n ≤ pgpMpiMaxLimbs) :
    (withLimbs m r limbs).setCount r n =
      some (update m r { limbs := limbs, count := n, count_le := hn }) := by
  unfold Store.setCount withLimbs
  rw [dif_pos hn, update_self, update_idem]

theorem withLimbs_self (m : Store ι) (r : ι) : withLimbs m r (m r).limbs = m :=
  update_eq_self r m

theorem limbAt_withLimbs (m : Store ι) (r l : ι) {limbs : Nat → UInt32} {i : Nat}
    (hsame : limbs i = (m r).limbs i) (hi : i < pgpMpiMaxLimbs) :
    (withLimbs m r limbs l).limbAt i = some ((m l).limbs i).toNat := by
  unfold limbAt withLimbs
  rw [if_pos hi]
  by_cases h : l = r
  · subst h
    rw [update_self, ← hsame]
  · rw [update_of_ne h]

theorem operandAt_withLimbs (m : Store ι) (r l : ι) {limbs : Nat → UInt32} {i : Nat}
    (hsame : limbs i = (m r).limbs i) (hi : i < pgpMpiMaxLimbs) :
    (withLimbs m r limbs l).operandAt i = some ((m l).digitOr0 i) := by
  unfold operandAt digitOr0
  rw [withLimbs_count, limbAt_withLimbs m r l hsame hi]
  split <;> rfl

theorem addPassAt_eq (m : Store ι) (r a b : ι) {i : Nat} {st : (Nat → UInt32) × Nat}
    (hsame : st.1 i = (m r).limbs i) (hcarry : st.2 ≤ 1) (hi : i < pgpMpiMaxLimbs) :
    addPassAt r a b i (withLimbs m r st.1, st.2) =
      some (withLimbs m r (addPass (m a) (m b) i st).1, (addPass (m a) (m b) i st).2) := by
  have ha := (m a).digitOr0_lt i
  have hb := (m b).digitOr0_lt i
  have hword : word64 (st.2 + (m a).digitOr0 i + (m b).digitOr0 i) =
      some (st.2 + (m a).digitOr0 i + (m b).digitOr0 i) := if_pos (by omega)
  unfold addPassAt
  simp only [operandAt_withLimbs m r a hsame hi, operandAt_withLimbs m r b hsame hi, hword,
    withLimbs_setLimb m r st.1 _ hi, Option.bind_eq_bind, Option.bind_some]
  rfl

theorem addPass_of_ne (a b : Mpi) {i k : Nat} (st : (Nat → UInt32) × Nat) (h : k ≠ i) :
    (addPass a b i st).1 k = st.1 k := update_of_ne h _ _

theorem addAt_eq (r a b : ι) (m : Store ι) :
    addAt r a b m = some (update m r (pgpMpiAdd (m r) (m a) (m b))) := by
  set top := addTop (m a) (m b) with htop
  have hlt : top < pgpMpiMaxLimbs := addTop_lt _ _
  have hloop : forEachM (top + 1) (addPassAt r a b) (m, 0) =
      some (withLimbs m r (forEach (top + 1) (addPass (m a) (m b)) ((m r).limbs, 0)).1,
        (forEach (top + 1) (addPass (m a) (m b)) ((m r).limbs, 0)).2) := by
    -- the limbs from the counter on are those of before, whatever is aliased
    have hrun : ∀ n, n ≤ top + 1 →
        (∀ k, n ≤ k → (forEach n (addPass (m a) (m b)) ((m r).limbs, 0)).1 k = (m r).limbs k) ∧
          forEachM n (addPassAt r a b) (m, 0) =
            some (withLimbs m r (forEach n (addPass (m a) (m b)) ((m r).limbs, 0)).1,
              (forEach n (addPass (m a) (m b)) ((m r).limbs, 0)).2) := by
      intro n
      induction n with
      | zero => exact fun _ => ⟨fun _ _ => rfl, by rw [forEach_zero, withLimbs_self]; rfl⟩
      | succ n ih =>
        intro hn
        obtain ⟨hsame, heq⟩ := ih (by omega)
        have hpass := addPassAt_eq m r a b (i := n) (hsame n (Nat.le_refl n))
          (addLoop_spec (m r) (m a) (m b) n).carry (by omega)
        refine ⟨fun k hk => ?_, ?_⟩
        · rw [forEach_succ, addPass_of_ne _ _ _ (by omega)]
          exact hsame k (by omega)
        · unfold forEachM at heq ⊢
          rw [forEach_succ, heq, Option.bind_some, hpass, forEach_succ]
    exact (hrun _ (Nat.le_refl _)).2
  set st := forEach (top + 1) (addPass (m a) (m b)) ((m r).limbs, 0) with hst
  unfold addAt pgpMpiAdd
  simp only [← htop, ← hst, hloop, Option.bind_eq_bind, Option.bind_some]
  by_cases hspill : st.2 ≠ 0 ∧ top + 1 < pgpMpiMaxLimbs
  · have hflag : addSpill (m a) (m b) st.2 = true := decide_eq_true hspill
    rw [if_pos hspill, withLimbs_setLimb m r st.1 st.2 hspill.2, Option.bind_some,
      withLimbs_setCount m r _ (show top + 2 ≤ pgpMpiMaxLimbs by omega), Option.bind_some, dif_pos hflag]
    simp only [Store.normalize, update_self, update_idem, htop]
  · have hflag : ¬ addSpill (m a) (m b) st.2 = true := fun h => hspill (of_decide_eq_true h)
    rw [if_neg hspill, withLimbs_setCount m r _ (show top + 1 ≤ pgpMpiMaxLimbs by omega), Option.bind_some,
      dif_neg hflag]
    simp only [Store.normalize, update_self, update_idem, htop]

theorem mulRowAt_eq (a b : Mpi) {i : Nat} {tmp : Nat → Nat} (hi : i < a.count) (hlow : Low tmp (i + b.count)) :
    mulRowAt a b i tmp = some (mulRowsPass a b i tmp) := by
  have ha := a.count_le
  have hb := b.count_le
  have hmin : min b.count (mpiTemp - i) = b.count := by
    have := place_lt (b := b) hi (Nat.le_refl _)
    omega
  have hrow : forEachM b.count (mulPassAt a b i) (tmp, 0) = some (forEach b.count (mulRowPass a b i) (tmp, 0)) := by
    refine (forEachM_eq_some (P := RowInv a b i tmp) (RowInv.start hlow) fun j st hj h => ⟨?_, h.pass hi hj⟩).1
    have hx : a.limbAt i = some (a.limbs i).toNat := if_pos (Nat.lt_of_lt_of_le hi ha)
    have hy : b.limbAt j = some (b.limbs j).toNat := if_pos (Nat.lt_of_lt_of_le hj hb)
    have hplace : i + j < mpiTemp := place_lt hi (Nat.le_of_lt hj)
    have hsum := h.sum_lt
    unfold mulPassAt mulRowPass
    simp only [hx, hy, tmpAt, if_pos hplace, word64, if_pos hsum, setTmp, Nat.mod_eq_of_lt hsum,
      Option.bind_eq_bind, Option.bind_some]
  unfold mulRowAt mulRowsPass
  rw [hmin, hrow, mulRow_eq a b hi]
  simp only [Option.bind_eq_bind, Option.bind_some, setTmp]
  split
  · rename_i hspill
    rw [if_pos hspill.2]
  · rfl

theorem mulAt_eq (r a b : ι) (m : Store ι) :
    mulAt r a b m = some (update m r (pgpMpiMul (m r) (m a) (m b))) := by
  have hrows : forEachM (m a).count (mulRowAt (m a) (m b)) (fun _ => 0) =
      some (mulRows (m a) (m b) (m a).count) :=
    (forEachM_eq_some (P := RowsInv (m a) (m b)) (RowsInv.start _ _) fun i tmp hi h =>
      ⟨mulRowAt_eq (m a) (m b) hi h.low, h.pass hi⟩).1
  set top := min ((m a).count + (m b).count) pgpMpiMaxLimbs with htop
  have hle : top ≤ pgpMpiMaxLimbs := Nat.min_le_right _ _
  have hcopy : ∀ (tmp : Nat → Nat) (n : Nat), n ≤ top → forEachM n (copyPassAt r tmp) m =
      some (withLimbs m r (copyLimbs (m r).limbs (fun i => UInt32.ofNat (tmp i)) n)) := by
    intro tmp n
    induction n with
    | zero =>
      intro _
      rw [show copyLimbs (m r).limbs (fun i => UInt32.ofNat (tmp i)) 0 = (m r).limbs from
        funext fun i => if_neg (Nat.not_lt_zero i), withLimbs_self]
      rfl
    | succ n ih =>
      intro hn
      have hplace : n < mpiTemp := by
        simp only [mpiTemp, pgpMpiMaxLimbs] at *
        omega
      have hstep : update (copyLimbs (m r).limbs (fun i => UInt32.ofNat (tmp i)) n) n
          (UInt32.ofNat (tmp n)) = copyLimbs (m r).limbs (fun i => UInt32.ofNat (tmp i)) (n + 1) := by
        funext k
        by_cases hk : k = n
        · subst hk
          simp [copyLimbs]
        · have hiff : k < n + 1 ↔ k < n := by omega
          simp [copyLimbs, hk, hiff]
      have hprev := ih (by omega)
      unfold forEachM at hprev ⊢
      rw [forEach_succ, hprev, Option.bind_some, copyPassAt, tmpAt, if_pos hplace]
      simp only [Option.bind_eq_bind, Option.bind_some]
      rw [withLimbs_setLimb m r _ _ (by omega), hstep]
  unfold mulAt pgpMpiMul
  simp only [hrows, ← htop, hcopy _ top (Nat.le_refl _), withLimbs_setCount m r _ hle, Option.bind_eq_bind,
    Option.bind_some, Store.normalize, update_self, update_idem]

/-- **Addition and multiplication of variables**, equal or not: every index is inside its array and every intermediate
inside its word, nothing but the result is written, and the result is the sum and the product modulo `2^2048` in normal
form. -/
theorem arith_exact (r a b : ι) (m : Store ι) : ∃ sum product : Mpi,
      addAt r a b m = some (update m r sum) ∧ mulAt r a b m = some (update m r product) ∧
      sum.Normal ∧ product.Normal ∧ sum.val = ((m a).val + (m b).val) % 2 ^ (32 * pgpMpiMaxLimbs) ∧
      product.val = (m a).val * (m b).val % 2 ^ (32 * pgpMpiMaxLimbs) := by
  refine ⟨_, _, addAt_eq r a b m, mulAt_eq r a b m, normal_add _ _ _, normal_mul _ _ _, ?_, ?_⟩
  · rw [val_add, pow_mul]
  · rw [val_mul_mod, pow_mul]

end Chicago95.Stage2.Mpi
