/-
# Chicago95.Lib.WordExpr — expressions over the integers, and their arithmetic in words of 32 bits.

An expression has a value, with division truncated and a division by zero giving zero. A processor computes it in words
(`run`), and has no result where a quotient does not fit, which is so for a remainder too. Where every value on the way
fits in a word the result is the value (`run_of_fits`); the one thing that fitting values do not exclude is the remainder
of the least word by minus one, whose own value is zero (`run_of_not_remaindersFit`).
-/
import Mathlib

namespace Chicago95.Lib.WordExpr

inductive UnOp where
  | neg
  | pos
  | not
  deriving DecidableEq

inductive BinOp where
  | mul
  | div
  | mod
  | add
  | sub
  deriving DecidableEq

inductive Expr where
  | lit (n : Nat)
  | un (op : UnOp) (e : Expr)
  | bin (op : BinOp) (a b : Expr)
  deriving DecidableEq

/-! ## Values -/

def UnOp.value : UnOp → Int → Int
  | .neg, a => -a
  | .pos, a => a
  | .not, a => if a = 0 then 1 else 0

def BinOp.value : BinOp → Int → Int → Int
  | .mul, a, b => a * b
  | .div, a, b => if b = 0 then 0 else a.tdiv b
  | .mod, a, b => if b = 0 then 0 else a.tmod b
  | .add, a, b => a + b
  | .sub, a, b => a - b

def Expr.value : Expr → Int
  | .lit n => n
  | .un op e => op.value e.value
  | .bin op a b => op.value a.value b.value

def InWord (x : Int) : Prop := -2 ^ 31 ≤ x ∧ x < 2 ^ 31

instance (x : Int) : Decidable (InWord x) := inferInstanceAs (Decidable (_ ∧ _))

/-- The values of an expression and of all its parts fit in a word. -/
def Expr.Fits : Expr → Prop
  | .lit n => InWord n
  | .un op e => e.Fits ∧ InWord (op.value e.value)
  | .bin op a b => a.Fits ∧ b.Fits ∧ InWord (op.value a.value b.value)

instance Expr.decidableFits : (e : Expr) → Decidable e.Fits
  | .lit n => inferInstanceAs (Decidable (InWord n))
  | .un op e =>
    have := e.decidableFits
    inferInstanceAs (Decidable (e.Fits ∧ InWord (op.value e.value)))
  | .bin op a b =>
    have := a.decidableFits
    have := b.decidableFits
    inferInstanceAs (Decidable (a.Fits ∧ b.Fits ∧ InWord (op.value a.value b.value)))

/-- No remainder of the least word by minus one. -/
def Expr.RemaindersFit : Expr → Prop
  | .lit _ => True
  | .un _ e => e.RemaindersFit
  | .bin op a b => a.RemaindersFit ∧ b.RemaindersFit ∧ ¬(op = .mod ∧ a.value = -2 ^ 31 ∧ b.value = -1)

instance Expr.decidableRemaindersFit : (e : Expr) → Decidable e.RemaindersFit
  | .lit _ => inferInstanceAs (Decidable True)
  | .un _ e => e.decidableRemaindersFit
  | .bin op a b =>
    have := a.decidableRemaindersFit
    have := b.decidableRemaindersFit
    inferInstanceAs (Decidable (a.RemaindersFit ∧ b.RemaindersFit ∧ ¬(op = .mod ∧ a.value = -2 ^ 31 ∧ b.value = -1)))

/-! ## Words -/

def UnOp.run : UnOp → Int32 → Int32
  | .neg, a => -a
  | .pos, a => a
  | .not, a => if a ≠ 0 then 0 else 1

/-- `a / b` or `a % b` of the processor, which traps at the one quotient that does not fit. -/
def divide (f : Int32 → Int32 → Int32) (a b : Int32) : Option Int32 :=
  if a = Int32.minValue ∧ b = -1 then none else some (f a b)

def BinOp.run : BinOp → Int32 → Int32 → Option Int32
  | .mul, a, b => some (a * b)
  | .div, a, b => if b ≠ 0 then divide (· / ·) a b else some 0
  | .mod, a, b => if b ≠ 0 then divide (· % ·) a b else some 0
  | .add, a, b => some (a + b)
  | .sub, a, b => some (a - b)

def Expr.run : Expr → Option Int32
  | .lit n => some (Int32.ofNat n)
  | .un op e => e.run.map op.run
  | .bin op a b => a.run.bind fun x => b.run.bind (op.run x)

def BinOp.Traps (op : BinOp) (a b : Int32) : Prop := (op = .div ∨ op = .mod) ∧ a = Int32.minValue ∧ b = -1

/-- No quotient and no remainder of the least word by minus one. -/
def Expr.QuotientsFit : Expr → Prop
  | .lit _ => True
  | .un _ e => e.QuotientsFit
  | .bin op a b => a.QuotientsFit ∧ b.QuotientsFit ∧ ∀ x y, a.run = some x → b.run = some y → ¬op.Traps x y

theorem BinOp.run_eq_none_iff {op : BinOp} {a b : Int32} : op.run a b = none ↔ op.Traps a b := by
  have hdivide (f : Int32 → Int32 → Int32) :
      (if b ≠ 0 then divide f a b else some 0) = none ↔ a = Int32.minValue ∧ b = -1 := by
    by_cases hb : b ≠ 0
    · rw [if_pos hb, divide]
      split
      · rename_i htrap
        exact iff_of_true rfl htrap
      · rename_i hsafe
        exact iff_of_false (Option.some_ne_none _) hsafe
    · rw [if_neg hb]
      refine iff_of_false (Option.some_ne_none _) fun hand => hb ?_
      rw [hand.2]
      decide
  cases op with
  | mul | add | sub => exact iff_of_false (Option.some_ne_none _) fun htrap => absurd htrap.1 (by decide)
  | div => exact (hdivide _).trans ⟨fun hand => ⟨Or.inl rfl, hand⟩, fun htrap => htrap.2⟩
  | mod => exact (hdivide _).trans ⟨fun hand => ⟨Or.inr rfl, hand⟩, fun htrap => htrap.2⟩

theorem Expr.exists_run_iff {e : Expr} : (∃ v, e.run = some v) ↔ e.QuotientsFit := by
  induction e with
  | lit n => exact iff_of_true ⟨_, rfl⟩ trivial
  | un op e ih =>
    rw [QuotientsFit, ← ih, run]
    constructor
    · rintro ⟨v, hv⟩
      obtain ⟨x, hx, -⟩ := Option.map_eq_some_iff.mp hv
      exact ⟨x, hx⟩
    · rintro ⟨x, hx⟩
      exact ⟨_, by rw [hx]; rfl⟩
  | bin op a b iha ihb =>
    rw [QuotientsFit, ← iha, ← ihb, run]
    constructor
    · rintro ⟨v, hv⟩
      obtain ⟨x, hx, hv⟩ := Option.bind_eq_some_iff.mp hv
      obtain ⟨y, hy, hv⟩ := Option.bind_eq_some_iff.mp hv
      refine ⟨⟨x, hx⟩, ⟨y, hy⟩, fun x' y' hx' hy' htrap => ?_⟩
      rw [hx] at hx'
      rw [hy] at hy'
      cases hx'
      cases hy'
      rw [BinOp.run_eq_none_iff.mpr htrap] at hv
      cases hv
    · rintro ⟨⟨x, hx⟩, ⟨y, hy⟩, hsafe⟩
      obtain ⟨v, hv⟩ := Option.ne_none_iff_exists'.mp
        fun hnone => hsafe x y hx hy (BinOp.run_eq_none_iff.mp hnone)
      exact ⟨v, by rw [hx, Option.bind_some, hy]; exact hv⟩

/-! ## Where all values fit -/

theorem ofInt_eq_iff {x : Int} (hx : InWord x) (w : Int32) : Int32.ofInt x = w ↔ x = w.toInt := by
  rw [← Int32.toInt_inj, Int32.toInt_ofInt_of_le hx.1 hx.2]

theorem UnOp.run_ofInt {op : UnOp} {a : Int} (ha : InWord a) : op.run (Int32.ofInt a) = Int32.ofInt (op.value a) := by
  cases op with
  | neg => exact (Int32.ofInt_neg a).symm
  | pos => rfl
  | not =>
    have hzero : Int32.ofInt a = 0 ↔ a = 0 := ofInt_eq_iff ha 0
    rw [UnOp.run, UnOp.value]
    by_cases h : a = 0
    · rw [if_neg (not_not_intro (hzero.mpr h)), if_pos h]
      rfl
    · rw [if_pos fun h0 => h (hzero.mp h0), if_neg h]
      rfl

theorem BinOp.traps_ofInt_iff {op : BinOp} {a b : Int} (ha : InWord a) (hb : InWord b) :
    op.Traps (Int32.ofInt a) (Int32.ofInt b) ↔ (op = .div ∨ op = .mod) ∧ a = -2 ^ 31 ∧ b = -1 := by
  have hleast : Int32.ofInt a = Int32.minValue ↔ a = -2 ^ 31 := ofInt_eq_iff ha Int32.minValue
  have hone : Int32.ofInt b = -1 ↔ b = -1 := ofInt_eq_iff hb (-1)
  rw [Traps, hleast, hone]

theorem BinOp.run_ofInt {op : BinOp} {a b : Int} (ha : InWord a) (hb : InWord b)
    (hsafe : ¬op.Traps (Int32.ofInt a) (Int32.ofInt b)) :
    op.run (Int32.ofInt a) (Int32.ofInt b) = some (Int32.ofInt (op.value a b)) := by
  have hzero : Int32.ofInt b = 0 ↔ b = 0 := ofInt_eq_iff hb 0
  have hmax : Int32.maxValue.toInt = 2 ^ 31 - 1 := rfl
  have ha' : a ≤ Int32.maxValue.toInt := by
    rw [hmax]
    exact Int.le_sub_one_of_lt ha.2
  have hb' : b ≤ Int32.maxValue.toInt := by
    rw [hmax]
    exact Int.le_sub_one_of_lt hb.2
  cases op with
  | mul => exact congrArg some (Int32.ofInt_mul a b).symm
  | add => exact congrArg some (Int32.ofInt_add a b).symm
  | sub => exact congrArg some (Int32.ofInt_sub a b).symm
  | div =>
    rw [BinOp.run, BinOp.value]
    by_cases h : b = 0
    · rw [if_neg (not_not_intro (hzero.mpr h)), if_pos h]
      rfl
    · rw [if_pos fun h0 => h (hzero.mp h0), if_neg h, divide, if_neg fun hand => hsafe ⟨Or.inl rfl, hand⟩,
        Int32.ofInt_tdiv ha.1 ha' hb.1 hb']
  | mod =>
    rw [BinOp.run, BinOp.value]
    by_cases h : b = 0
    · rw [if_neg (not_not_intro (hzero.mpr h)), if_pos h]
      rfl
    · rw [if_pos fun h0 => h (hzero.mp h0), if_neg h, divide, if_neg fun hand => hsafe ⟨Or.inr rfl, hand⟩,
        Int32.ofInt_tmod ha.1 ha' hb.1 hb']

theorem Expr.Fits.inWord {e : Expr} (h : e.Fits) : InWord e.value := by
  cases e with
  | lit n => exact h
  | un op e => exact h.2
  | bin op a b => exact h.2.2

theorem BinOp.traps_of_inWord {op : BinOp} {a b : Int} (ha : InWord a) (hb : InWord b) (h : InWord (op.value a b)) :
    op.Traps (Int32.ofInt a) (Int32.ofInt b) ↔ op = .mod ∧ a = -2 ^ 31 ∧ b = -1 := by
  rw [traps_ofInt_iff ha hb]
  constructor
  · rintro ⟨rfl | rfl, rfl, rfl⟩
    · exact absurd h (by decide)
    · exact ⟨rfl, rfl, rfl⟩
  · exact fun hand => ⟨Or.inr hand.1, hand.2⟩

theorem Expr.run_of_fits {e : Expr} (hfits : e.Fits) (hrem : e.RemaindersFit) : e.run = some (Int32.ofInt e.value) := by
  induction e with
  | lit n => exact congrArg some Int32.ofInt_eq_ofNat.symm
  | un op e ih =>
    rw [run, ih hfits.1 hrem, Option.map_some, UnOp.run_ofInt hfits.1.inWord]
    rfl
  | bin op a b iha ihb =>
    obtain ⟨ha, hb, hword⟩ := hfits
    obtain ⟨hra, hrb, hsafe⟩ := hrem
    rw [run, iha ha hra, Option.bind_some, ihb hb hrb, Option.bind_some]
    exact BinOp.run_ofInt ha.inWord hb.inWord fun htrap =>
      hsafe ((BinOp.traps_of_inWord ha.inWord hb.inWord hword).mp htrap)

theorem Expr.run_of_not_remaindersFit {e : Expr} (hfits : e.Fits) (hrem : ¬e.RemaindersFit) : e.run = none := by
  induction e with
  | lit n => exact absurd trivial hrem
  | un op e ih => rw [run, ih hfits.1 hrem, Option.map_none]
  | bin op a b iha ihb =>
    obtain ⟨ha, hb, hword⟩ := hfits
    rw [run]
    by_cases hra : a.RemaindersFit
    · rw [run_of_fits ha hra, Option.bind_some]
      by_cases hrb : b.RemaindersFit
      · rw [run_of_fits hb hrb, Option.bind_some, BinOp.run_eq_none_iff,
          BinOp.traps_of_inWord ha.inWord hb.inWord hword]
        exact Decidable.byContradiction fun hsafe => hrem ⟨hra, hrb, hsafe⟩
      · rw [ihb hb hrb, Option.bind_none]
    · rw [iha ha hra, Option.bind_none]

end Chicago95.Lib.WordExpr
