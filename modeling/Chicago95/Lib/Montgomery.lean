/-
# Chicago95.Lib.Montgomery — the ladder on a Montgomery curve, by x-coordinates alone.

A point is a pair `(x : z)` that stands for `x / z`. `ladder` is the conditional-swap form, one step for each bit of
the scalar, the highest first. Two facts are used of it:

* `result_append_false_false` — a scalar whose two lowest bits are clear leaves a double;
* `isSquare_of_double` — the x-coordinate `u` of a double makes `u² + A u + 1` a square.
-/
import Mathlib.Algebra.Field.Basic
import Mathlib.Algebra.Group.Even
import Mathlib.Tactic.FieldSimp
import Mathlib.Tactic.LinearCombination
import Mathlib.Tactic.Ring

namespace Chicago95.Lib.Montgomery

/-! ## The bits of a scalar -/

/-- The `n` lowest bits of `k`, the highest first. -/
def bitsDown (k : Nat) : Nat → List Bool
  | 0 => []
  | n + 1 => k.testBit n :: bitsDown k n

theorem bitsDown_add_two (k n : Nat) : ∃ high, bitsDown k (n + 2) = high ++ [k.testBit 1, k.testBit 0] := by
  induction n with
  | zero => exact ⟨[], rfl⟩
  | succ n ih =>
    obtain ⟨high, hhigh⟩ := ih
    refine ⟨k.testBit (n + 2) :: high, ?_⟩
    show k.testBit (n + 2) :: bitsDown k (n + 2) = _
    rw [hhigh, List.cons_append]

/-! ## The ladder -/

section Ring

variable {F : Type*} [CommRing F]

/-- The two points of the ladder, and whether they stand in each other's place. -/
structure LadderState (F : Type*) where
  p2 : F × F
  p3 : F × F
  swap : Bool

/-- The two in their places, or each in the other's. -/
def cswap (swap : Bool) (s : LadderState F) : LadderState F :=
  if swap then { s with p2 := s.p3, p3 := s.p2 } else s

/-- The double of a point. -/
def double (a24 : F) (p : F × F) : F × F :=
  let aa := (p.1 + p.2) ^ 2
  let bb := (p.1 - p.2) ^ 2
  let e := aa - bb
  (aa * bb, e * (aa + a24 * e))

/-- The sum of two points whose difference has the x-coordinate `x1`. -/
def diffAdd (x1 : F) (p q : F × F) : F × F :=
  let da := (q.1 - q.2) * (p.1 + p.2)
  let cb := (q.1 + q.2) * (p.1 - p.2)
  ((da + cb) ^ 2, x1 * (da - cb) ^ 2)

/-- One step: swap as the bit differs from the one before it, then double one point and add the two. -/
def step (a24 x1 : F) (s : LadderState F) (bit : Bool) : LadderState F :=
  let t := cswap (s.swap ^^ bit) s
  { p2 := double a24 t.p2, p3 := diffAdd x1 t.p2 t.p3, swap := bit }

/-- The ladder starts at the neutral point and at `x1`. -/
def start (x1 : F) : LadderState F := { p2 := (1, 0), p3 := (x1, 1), swap := false }

def ladder (a24 x1 : F) (bits : List Bool) : LadderState F := bits.foldl (step a24 x1) (start x1)

/-- The point that the ladder returns. -/
def result (a24 x1 : F) (bits : List Bool) : F × F :=
  let s := ladder a24 x1 bits
  (cswap s.swap s).p2

theorem ladder_append (a24 x1 : F) (bits : List Bool) (bit : Bool) :
    ladder a24 x1 (bits ++ [bit]) = step a24 x1 (ladder a24 x1 bits) bit := by
  rw [ladder, List.foldl_append]
  rfl

theorem step_swap (a24 x1 : F) (s : LadderState F) (bit : Bool) : (step a24 x1 s bit).swap = bit := rfl

theorem step_false (a24 x1 : F) {s : LadderState F} (h : s.swap = false) :
    (step a24 x1 s false).p2 = double a24 s.p2 := by
  show double a24 (cswap (s.swap ^^ false) s).p2 = _
  rw [h]
  rfl

/-- **A scalar whose two lowest bits are clear** leaves a double. -/
theorem result_append_false_false (a24 x1 : F) (high : List Bool) :
    ∃ p, result a24 x1 (high ++ [false, false]) = double a24 p := by
  have hbits : high ++ [false, false] = (high ++ [false]) ++ [false] := by simp
  have hswap : (ladder a24 x1 (high ++ [false])).swap = false := by rw [ladder_append, step_swap]
  refine ⟨(ladder a24 x1 (high ++ [false])).p2, ?_⟩
  show (cswap (ladder a24 x1 (high ++ [false, false])).swap (ladder a24 x1 (high ++ [false, false]))).p2 = _
  rw [hbits, ladder_append, step_swap]
  exact step_false a24 x1 hswap

theorem double_sq (a24 : F) (p : F × F) :
    (double a24 p).1 ^ 2 + (4 * a24 + 2) * ((double a24 p).1 * (double a24 p).2) + (double a24 p).2 ^ 2 =
      (p.1 ^ 4 + 2 * (4 * a24 + 2) * p.1 ^ 3 * p.2 + 6 * p.1 ^ 2 * p.2 ^ 2 +
        2 * (4 * a24 + 2) * p.1 * p.2 ^ 3 + p.2 ^ 4) ^ 2 := by
  simp only [double]
  ring

end Ring

/-- **The x-coordinate of a double** makes `u² + A u + 1` a square. -/
theorem isSquare_of_double {F : Type*} [Field F] {a24 u : F} {p : F × F} (hz : (double a24 p).2 ≠ 0)
    (hu : (double a24 p).1 = u * (double a24 p).2) : IsSquare (u ^ 2 + (4 * a24 + 2) * u + 1) := by
  have hsq := double_sq a24 p
  set z := (double a24 p).2
  rw [hu] at hsq
  refine ⟨(p.1 ^ 4 + 2 * (4 * a24 + 2) * p.1 ^ 3 * p.2 + 6 * p.1 ^ 2 * p.2 ^ 2 +
    2 * (4 * a24 + 2) * p.1 * p.2 ^ 3 + p.2 ^ 4) / z, ?_⟩
  field_simp
  linear_combination hsq

end Chicago95.Lib.Montgomery
