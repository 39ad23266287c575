/-
# Chicago95.Stage2.MathParser — the `math` command of the shell and its recursive descent.

The parser computes while it reads. It is written here over what it computes with: words of the processor for the code
(`words`), expressions for the tree that a text stands for (`trees`). It never runs out of fuel and its position stays
inside the text (`trees_returns`); and what it computes in words is the arithmetic of that tree (`parse_words`).
-/
import Chicago95.Lib.WordExpr

namespace Chicago95.Stage2.MathParser

open Chicago95.Lib.WordExpr

/-- What the parser computes with; `none` is a trap. -/
structure Arithmetic (α : Type) where
  number : List UInt8 → α
  un : UnOp → α → α
  bin : BinOp → α → α → Option α

/-- The code: a number is `num * 10 + (c - '0')` from digit to digit. -/
def words : Arithmetic Int32 where
  number := fun ds => ds.foldl (fun num c => num * 10 + Int32.ofNat (c.toNat - 0x30)) 0
  un := UnOp.run
  bin := BinOp.run

def decimal (ds : List UInt8) : Nat := ds.foldl (fun num c => num * 10 + (c.toNat - 0x30)) 0

/-- The expression that a text stands for. -/
def trees : Arithmetic Expr where
  number := fun ds => .lit (decimal ds)
  un := .un
  bin := fun op a b => some (.bin op a b)

def isDigit (c : UInt8) : Bool := decide (0x30 ≤ c ∧ c ≤ 0x39)

def mulOp (c : UInt8) : Option BinOp :=
  if c = 0x2a then some .mul else if c = 0x2f then some .div else if c = 0x25 then some .mod else none

def addOp (c : UInt8) : Option BinOp := if c = 0x2b then some .add else if c = 0x2d then some .sub else none

section Parser

variable {α : Type} (A : Arithmetic α) (s : List UInt8)

/-- `while (pos < len && expr[pos] == ' ') pos++` -/
def skipSpaces (pos : Nat) : Nat := pos + ((s.drop pos).takeWhile (· == 0x20)).length

/-- The loop of `math_parse_term` and of `math_parse_expr`. -/
def chain (op : UInt8 → Option BinOp) (operand : Nat → Option (α × Nat)) : Nat → α → Nat → Option (α × Nat)
  | 0, _, _ => none
  | fuel + 1, left, pos =>
    if pos < s.length then
      let pos := skipSpaces s pos
      match s[pos]? with
      | none => some (left, pos)
      | some c =>
        match op c with
        | none => some (left, pos)
        | some o =>
          (operand (pos + 1)).bind fun right =>
            (A.bin o left right.1).bind fun left => chain op operand fuel left right.2
    else some (left, pos)

def mathParseTerm (factor : Nat → Option (α × Nat)) (pos : Nat) : Option (α × Nat) :=
  (factor pos).bind fun left => chain A s mulOp factor (s.length + 1) left.1 left.2

def mathParseExpr (factor : Nat → Option (α × Nat)) (pos : Nat) : Option (α × Nat) :=
  (mathParseTerm A s factor pos).bind fun left => chain A s addOp (mathParseTerm A s factor) (s.length + 1) left.1 left.2

def mathParseFactor : Nat → Nat → Option (α × Nat)
  | 0, _ => none
  | fuel + 1, start =>
    let pos := skipSpaces s start
    match s[pos]? with
    | none => some (A.number [], pos)
    | some c =>
      if c = 0x28 then
        (mathParseExpr A s (mathParseFactor fuel) (pos + 1)).map fun val =>
          let close := skipSpaces s val.2
          (val.1, if s[close]? = some 0x29 then close + 1 else close)
      else if c = 0x2d then (mathParseFactor fuel (pos + 1)).map fun val => (A.un .neg val.1, val.2)
      else if c = 0x2b then (mathParseFactor fuel (pos + 1)).map fun val => (A.un .pos val.1, val.2)
      else if c = 0x21 then (mathParseFactor fuel (pos + 1)).map fun val => (A.un .not val.1, val.2)
      else if isDigit c = true then
        let ds := (s.drop pos).takeWhile isDigit
        some (A.number ds, pos + ds.length)
      else some (A.number [], pos + 1)

/-- `math_parse_expr` from the start of a text, with its position at the end. -/
def parse : Option (α × Nat) := mathParseExpr A s (mathParseFactor A s (s.length + 1)) 0

/-! ## The parser ends, inside the text -/

theorem le_skipSpaces (pos : Nat) : pos ≤ skipSpaces s pos := Nat.le_add_right _ _

theorem skipSpaces_le {pos : Nat} (h : pos ≤ s.length) : skipSpaces s pos ≤ s.length := by
  have hle := (List.takeWhile_prefix (l := s.drop pos) (· == 0x20)).length_le
  rw [List.length_drop] at hle
  rw [skipSpaces]
  omega

/-- What is read from any position with less than `n` characters after it. -/
def Returns (n : Nat) (p : Nat → Option (α × Nat)) : Prop :=
  ∀ pos ≤ s.length, s.length - pos < n → ∃ r, p pos = some r ∧ pos ≤ r.2 ∧ r.2 ≤ s.length

variable {A s}

theorem returns_chain (htotal : ∀ op a b, ∃ c, A.bin op a b = some c) {op : UInt8 → Option BinOp}
    {operand : Nat → Option (α × Nat)} {n : Nat} (h : Returns s n operand) {fuel : Nat} (left : α) {pos : Nat}
    (hpos : pos ≤ s.length) (hfuel : s.length - pos < fuel) (hn : s.length - pos ≤ n) :
    ∃ r, chain A s op operand fuel left pos = some r ∧ pos ≤ r.2 ∧ r.2 ≤ s.length := by
  induction fuel generalizing left pos with
  | zero => exact absurd hfuel (Nat.not_lt_zero _)
  | succ fuel ih =>
    rw [chain]
    by_cases hmore : pos < s.length
    · have hle := le_skipSpaces s pos
      have hin := skipSpaces_le s hpos
      rw [if_pos hmore]
      dsimp only
      cases hc : s[skipSpaces s pos]? with
      | none => exact ⟨_, rfl, hle, hin⟩
      | some c =>
        dsimp only
        have hlt : skipSpaces s pos < s.length := (List.getElem?_eq_some_iff.mp hc).1
        cases op c with
        | none => exact ⟨_, rfl, hle, hin⟩
        | some o =>
          obtain ⟨right, hright, hafter, hend⟩ := h (skipSpaces s pos + 1) hlt (by omega)
          obtain ⟨v, hv⟩ := htotal o left right.1
          obtain ⟨r, hr, hrle, hrin⟩ := ih v hend (by omega) (by omega)
          refine ⟨r, ?_, by omega, hrin⟩
          dsimp only
          rw [hright, Option.bind_some, hv]
          exact hr
    · rw [if_neg hmore]
      exact ⟨_, rfl, Nat.le_refl _, hpos⟩

theorem returns_term (htotal : ∀ op a b, ∃ c, A.bin op a b = some c) {factor : Nat → Option (α × Nat)} {n : Nat}
    (h : Returns s n factor) : Returns s n (mathParseTerm A s factor) := by
  intro pos hpos hn
  obtain ⟨left, hleft, hle, hin⟩ := h pos hpos hn
  obtain ⟨r, hr, hrle, hrin⟩ := @returns_chain α A s htotal mulOp factor n h (s.length + 1) left.1 left.2 hin (by omega) (by omega)
  exact ⟨r, by rw [mathParseTerm, hleft]; exact hr, Nat.le_trans hle hrle, hrin⟩

theorem returns_expr (htotal : ∀ op a b, ∃ c, A.bin op a b = some c) {factor : Nat → Option (α × Nat)} {n : Nat}
    (h : Returns s n factor) : Returns s n (mathParseExpr A s factor) := by
  intro pos hpos hn
  obtain ⟨left, hleft, hle, hin⟩ := returns_term htotal h pos hpos hn
  obtain ⟨r, hr, hrle, hrin⟩ := @returns_chain α A s htotal addOp (mathParseTerm A s factor) n (returns_term htotal h)
    (s.length + 1) left.1 left.2 hin (by omega) (by omega)
  exact ⟨r, by rw [mathParseExpr, hleft]; exact hr, Nat.le_trans hle hrle, hrin⟩

theorem returns_factor (htotal : ∀ op a b, ∃ c, A.bin op a b = some c) (fuel : Nat) :
    Returns s fuel (mathParseFactor A s fuel) := by
  induction fuel with
  | zero => exact fun pos _ hn => absurd hn (Nat.not_lt_zero _)
  | succ fuel ih =>
    intro pos hpos hn
    have hle := le_skipSpaces s pos
    have hin := skipSpaces_le s hpos
    rw [mathParseFactor]
    dsimp only
    cases hc : s[skipSpaces s pos]? with
    | none => exact ⟨_, rfl, hle, hin⟩
    | some c =>
      have hlt : skipSpaces s pos < s.length := (List.getElem?_eq_some_iff.mp hc).1
      have hsign (op : UnOp) :
          ∃ r, ((mathParseFactor A s fuel (skipSpaces s pos + 1)).map fun val => (A.un op val.1, val.2)) = some r ∧
            pos ≤ r.2 ∧ r.2 ≤ s.length := by
        obtain ⟨val, hval, hvle, hvin⟩ := ih _ hlt (by omega)
        exact ⟨(A.un op val.1, val.2), by rw [hval]; rfl, by dsimp only; omega, hvin⟩
      dsimp only
      by_cases hparen : c = 0x28
      · obtain ⟨val, hval, hvle, hvin⟩ := returns_expr htotal ih _ hlt (by omega)
        have hclose := le_skipSpaces s val.2
        have hcloseIn := skipSpaces_le s hvin
        rw [if_pos hparen, hval]
        refine ⟨_, rfl, ?_, ?_⟩
        · dsimp only
          split <;> omega
        · dsimp only
          split
          · rename_i hat
            exact (List.getElem?_eq_some_iff.mp hat).1
          · exact hcloseIn
      · rw [if_neg hparen]
        by_cases hneg : c = 0x2d
        · rw [if_pos hneg]
          exact hsign .neg
        · rw [if_neg hneg]
          by_cases hplus : c = 0x2b
          · rw [if_pos hplus]
            exact hsign .pos
          · rw [if_neg hplus]
            by_cases hnot : c = 0x21
            · rw [if_pos hnot]
              exact hsign .not
            · rw [if_neg hnot]
              by_cases hdigit : isDigit c = true
              · have hds := (List.takeWhile_prefix (l := s.drop (skipSpaces s pos)) isDigit).length_le
                rw [List.length_drop] at hds
                rw [if_pos hdigit]
                exact ⟨_, rfl, by dsimp only; omega, by dsimp only; omega⟩
              · rw [if_neg hdigit]
                exact ⟨_, rfl, by dsimp only; omega, hlt⟩

theorem trees_returns (s : List UInt8) : ∃ r, parse trees s = some r ∧ r.2 ≤ s.length := by
  have htotal : ∀ op a b, ∃ c, trees.bin op a b = some c := fun _ _ _ => ⟨_, rfl⟩
  obtain ⟨r, hr, -, hin⟩ := returns_expr htotal (returns_factor (s := s) htotal (s.length + 1)) 0 (Nat.zero_le _)
    (Nat.lt_succ_self _)
  exact ⟨r, hr, hin⟩

end Parser

/-! ## The words are those of the tree -/

/-- What is computed in words, step for step, is the arithmetic of the tree that is read. -/
def Computes (p : Nat → Option (Int32 × Nat)) (q : Nat → Option (Expr × Nat)) : Prop :=
  ∀ pos, p pos = (q pos).bind fun r => r.1.run.map fun v => (v, r.2)

variable {s : List UInt8}

theorem computes_chain {op : UInt8 → Option BinOp} {p : Nat → Option (Int32 × Nat)} {q : Nat → Option (Expr × Nat)}
    (h : Computes p q) (fuel : Nat) (left : Expr) (pos : Nat) : (left.run.bind fun v => chain words s op p fuel v pos) =
      (chain trees s op q fuel left pos).bind fun r => r.1.run.map fun v => (v, r.2) := by
  have hstop (left : Expr) (pos : Nat) : (left.run.bind fun v => some (v, pos)) =
      (some (left, pos)).bind fun r => r.1.run.map fun v => (v, r.2) := by
    rw [Option.bind_some, Option.map_eq_bind]
    rfl
  induction fuel generalizing left pos with
  | zero =>
    rw [chain, Option.bind_none]
    exact Option.bind_fun_none _
  | succ fuel ih =>
    simp only [chain]
    by_cases hmore : pos < s.length
    · simp only [if_pos hmore]
      cases s[skipSpaces s pos]? with
      | none => exact hstop _ _
      | some c =>
        dsimp only
        cases op c with
        | none => exact hstop _ _
        | some o =>
          dsimp only
          rw [h]
          cases q (skipSpaces s pos + 1) with
          | none => exact Option.bind_fun_none _
          | some right =>
            refine Eq.trans ?_ (ih (.bin o left right.1) right.2)
            rw [Option.bind_some, Expr.run]
            cases left.run with
            | none => rfl
            | some x =>
              cases right.1.run with
              | none => rfl
              | some y => rfl
    · simp only [if_neg hmore]
      exact hstop _ _

theorem computes_term {p : Nat → Option (Int32 × Nat)} {q : Nat → Option (Expr × Nat)} (h : Computes p q) :
    Computes (mathParseTerm words s p) (mathParseTerm trees s q) := by
  intro pos
  rw [mathParseTerm, mathParseTerm, h]
  cases q pos with
  | none => rfl
  | some left =>
    refine Eq.trans ?_ (computes_chain h (s.length + 1) left.1 left.2)
    rw [Option.bind_some]
    cases left.1.run <;> rfl

theorem computes_expr {p : Nat → Option (Int32 × Nat)} {q : Nat → Option (Expr × Nat)} (h : Computes p q) :
    Computes (mathParseExpr words s p) (mathParseExpr trees s q) := by
  intro pos
  rw [mathParseExpr, mathParseExpr, computes_term h]
  cases mathParseTerm trees s q pos with
  | none => rfl
  | some left =>
    refine Eq.trans ?_ (computes_chain (computes_term h) (s.length + 1) left.1 left.2)
    rw [Option.bind_some]
    cases left.1.run <;> rfl

theorem words_number (ds : List UInt8) : words.number ds = Int32.ofNat (decimal ds) := by
  have hfold (n : Nat) : ds.foldl (fun num c => num * 10 + Int32.ofNat (c.toNat - 0x30)) (Int32.ofNat n) =
      Int32.ofNat (ds.foldl (fun num c => num * 10 + (c.toNat - 0x30)) n) := by
    induction ds generalizing n with
    | nil => rfl
    | cons c ds ih =>
      rw [List.foldl_cons, List.foldl_cons, ← ih, Int32.ofNat_add, Int32.ofNat_mul]
      rfl
  exact hfold 0

theorem computes_factor (fuel : Nat) : Computes (mathParseFactor words s fuel) (mathParseFactor trees s fuel) := by
  induction fuel with
  | zero => exact fun _ => rfl
  | succ fuel ih =>
    intro pos
    have hnumber (ds : List UInt8) (n : Nat) : some (words.number ds, n) =
        (some (trees.number ds, n)).bind fun r => r.1.run.map fun v => (v, r.2) := by
      rw [words_number]
      rfl
    have hsign (op : UnOp) (n : Nat) :
        ((mathParseFactor words s fuel n).map fun val => (words.un op val.1, val.2)) =
          ((mathParseFactor trees s fuel n).map fun val => (trees.un op val.1, val.2)).bind
            fun r => r.1.run.map fun v => (v, r.2) := by
      rw [ih]
      cases mathParseFactor trees s fuel n with
      | none => rfl
      | some val =>
        rw [Option.bind_some, Option.map_some, Option.bind_some]
        change _ = (val.1.run.map op.run).map _
        cases val.1.run <;> rfl
    simp only [mathParseFactor]
    cases s[skipSpaces s pos]? with
    | none => exact hnumber [] _
    | some c =>
      dsimp only
      by_cases hparen : c = 0x28
      · simp only [if_pos hparen]
        rw [computes_expr ih]
        cases mathParseExpr trees s (mathParseFactor trees s fuel) (skipSpaces s pos + 1) with
        | none => rfl
        | some val =>
          rw [Option.bind_some, Option.map_some, Option.bind_some]
          cases val.1.run <;> rfl
      · simp only [if_neg hparen]
        by_cases hneg : c = 0x2d
        · simp only [if_pos hneg]
          exact hsign .neg _
        · simp only [if_neg hneg]
          by_cases hplus : c = 0x2b
          · simp only [if_pos hplus]
            exact hsign .pos _
          · simp only [if_neg hplus]
            by_cases hnot : c = 0x21
            · simp only [if_pos hnot]
              exact hsign .not _
            · simp only [if_neg hnot]
              by_cases hdigit : isDigit c = true
              · simp only [if_pos hdigit]
                exact hnumber _ _
              · simp only [if_neg hdigit]
                exact hnumber [] _

theorem parse_words (s : List UInt8) : parse words s = (parse trees s).bind fun r => r.1.run.map fun v => (v, r.2) :=
  computes_expr (computes_factor (s.length + 1)) 0

end Chicago95.Stage2.MathParser
