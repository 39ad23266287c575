/-
# Chicago95.Stage2.MathRoundTrip — the `math` command reads back what is written.

`Renders` is the grammar: which texts are renderings of an expression, with any spaces, and with parentheses at least
where precedence and left associativity need them. The parser reads a rendering back to its expression, whatever stands
after it that cannot go on with it (`Renders.reads`): a chain of operators is read by a loop, so for a term and an
expression the statement is about the state of the loop behind it.
-/
import Mathlib
import Chicago95.Stage2.MathParser

namespace Chicago95.Stage2.MathParser

open Chicago95.Lib.WordExpr

/-! ## Renderings -/

inductive Level where
  | factor
  | term
  | expr

def unChar : UnOp → UInt8
  | .neg => 0x2d
  | .pos => 0x2b
  | .not => 0x21

def blanks (n : Nat) : List UInt8 := List.replicate n 0x20

inductive Renders : Level → Expr → List UInt8 → Prop where
  | number {ds : List UInt8} (hne : ds ≠ []) (hdigits : ∀ c ∈ ds, isDigit c = true) : Renders .factor (.lit (decimal ds)) ds
  | spaced {e : Expr} {u : List UInt8} : Renders .factor e u → Renders .factor e (0x20 :: u)
  | un (op : UnOp) {e : Expr} {u : List UInt8} : Renders .factor e u → Renders .factor (.un op e) (unChar op :: u)
  | paren {e : Expr} {u : List UInt8} (n : Nat) : Renders .expr e u → Renders .factor e (0x28 :: (u ++ (blanks n ++ [0x29])))
  | ofFactor {e : Expr} {u : List UInt8} : Renders .factor e u → Renders .term e u
  | mul {a b : Expr} {u v : List UInt8} {c : UInt8} {op : BinOp} (n : Nat) : Renders .term a u → mulOp c = some op →
      Renders .factor b v → Renders .term (.bin op a b) (u ++ (blanks n ++ c :: v))
  | ofTerm {e : Expr} {u : List UInt8} : Renders .term e u → Renders .expr e u
  | add {a b : Expr} {u v : List UInt8} {c : UInt8} {op : BinOp} (n : Nat) : Renders .expr a u → addOp c = some op →
      Renders .term b v → Renders .expr (.bin op a b) (u ++ (blanks n ++ c :: v))

/-! ## Positions -/

section Positions

variable {s : List UInt8}

theorem drop_after {pos : Nat} {u rest : List UInt8} (h : s.drop pos = u ++ rest) : s.drop (pos + u.length) = rest := by
  rw [← List.drop_drop, h, List.drop_left]

theorem length_of_drop {pos : Nat} {u : List UInt8} (h : s.drop pos = u) : s.length - pos = u.length := by
  rw [← h, List.length_drop]

theorem getElem?_of_drop {pos : Nat} {c : UInt8} {rest : List UInt8} (h : s.drop pos = c :: rest) : s[pos]? = some c := by
  have hat := congrArg (·[0]?) h
  rwa [List.getElem?_drop, Nat.add_zero] at hat

theorem skipSpaces_space {pos : Nat} {rest : List UInt8} (h : s.drop pos = 0x20 :: rest) :
    skipSpaces s pos = skipSpaces s (pos + 1) := by
  have hrest : s.drop (pos + 1) = rest := drop_after (u := [0x20]) h
  rw [skipSpaces, skipSpaces, h, hrest, List.takeWhile_cons_of_pos (by decide), List.length_cons]
  omega

theorem skipSpaces_blanks {pos n : Nat} {rest : List UInt8} (h : s.drop pos = blanks n ++ rest) :
    skipSpaces s pos = skipSpaces s (pos + n) := by
  induction n generalizing pos with
  | zero => rfl
  | succ n ih =>
    have hrest : s.drop (pos + 1) = blanks n ++ rest := drop_after (u := [0x20]) h
    rw [skipSpaces_space h, ih hrest, Nat.add_assoc, Nat.add_comm 1]

theorem skipSpaces_self {pos : Nat} {rest : List UInt8} (h : s.drop pos = rest) (hne : rest.head? ≠ some 0x20) :
    skipSpaces s pos = pos := by
  rw [skipSpaces, h]
  cases rest with
  | nil => rfl
  | cons c rest =>
    have hc : ¬(c == 0x20) = true := fun hc => hne (congrArg some (beq_iff_eq.mp hc))
    have htake : (c :: rest).takeWhile (· == 0x20) = [] := List.takeWhile_cons_of_neg hc
    rw [htake]
    rfl

theorem after_blanks {pos n : Nat} {c : UInt8} {rest : List UInt8} (h : s.drop pos = blanks n ++ c :: rest)
    (hc : c ≠ 0x20) : skipSpaces s pos = pos + n ∧ skipSpaces s (pos + n) = pos + n ∧ s[pos + n]? = some c ∧
      s.drop (pos + n + 1) = rest := by
  have hlength : (blanks n).length = n := List.length_replicate
  have hat : s.drop (pos + n) = c :: rest := by
    have hdrop := drop_after h
    rwa [hlength] at hdrop
  have hself := skipSpaces_self hat fun heq => hc (Option.some.inj heq)
  exact ⟨(skipSpaces_blanks h).trans hself, hself, getElem?_of_drop hat, drop_after (u := [c]) hat⟩

/-- No number goes on at a position. -/
def NotDigit (s : List UInt8) (pos : Nat) : Prop := ∀ c, s[pos]? = some c → isDigit c = false

/-- After spaces a loop does not go on at a position. -/
def Stops (s : List UInt8) (op : UInt8 → Option BinOp) (pos : Nat) : Prop :=
  ∀ c, s[skipSpaces s pos]? = some c → op c = none

theorem notDigit_blanks {pos n : Nat} {c : UInt8} {rest : List UInt8} (h : s.drop pos = blanks n ++ c :: rest)
    (hc : isDigit c = false) : NotDigit s pos := by
  intro d hd
  cases n with
  | zero =>
    rw [getElem?_of_drop h] at hd
    cases hd
    exact hc
  | succ n =>
    have hspace : s[pos]? = some 0x20 := getElem?_of_drop h
    rw [hspace] at hd
    cases hd
    decide

theorem stops_blanks {pos n : Nat} {c : UInt8} {rest : List UInt8} (h : s.drop pos = blanks n ++ c :: rest)
    (hc : c ≠ 0x20) {op : UInt8 → Option BinOp} (hop : op c = none) : Stops s op pos := by
  intro d hd
  obtain ⟨hskip, -, hat, -⟩ := after_blanks h hc
  rw [hskip, hat] at hd
  cases hd
  exact hop

end Positions

/-! ## The loops -/

section Loops

variable {s : List UInt8} {op : UInt8 → Option BinOp} {operand : Nat → Option (Expr × Nat)}

theorem chain_stop {k pos : Nat} {left : Expr} (h : Stops s op pos) (hk : 0 < k) :
    chain trees s op operand k left pos = some (left, skipSpaces s pos) := by
  obtain ⟨k, rfl⟩ := Nat.exists_eq_succ_of_ne_zero (Nat.ne_of_gt hk)
  rw [chain]
  by_cases hmore : pos < s.length
  · rw [if_pos hmore]
    dsimp only
    cases hc : s[skipSpaces s pos]? with
    | none => rfl
    | some c =>
      dsimp only
      rw [h c hc]
  · have hend : s.drop pos = [] := List.drop_of_length_le (Nat.not_lt.mp hmore)
    rw [if_neg hmore, skipSpaces_self hend (by decide)]

theorem chain_turn {k pos pos' : Nat} {left right : Expr} {c : UInt8} {o : BinOp}
    (hc : s[skipSpaces s pos]? = some c) (ho : op c = some o)
    (hright : operand (skipSpaces s pos + 1) = some (right, pos')) :
    chain trees s op operand (k + 1) left pos = chain trees s op operand k (.bin o left right) pos' := by
  have hmore : pos < s.length :=
    Nat.lt_of_le_of_lt (le_skipSpaces s pos) (List.getElem?_eq_some_iff.mp hc).1
  rw [chain, if_pos hmore]
  dsimp only
  rw [hc]
  dsimp only
  rw [ho]
  dsimp only
  rw [hright]
  rfl

end Loops

/-! ## Reading back -/

/-- What the parser does with a text that stands at a position: a factor is read to its end, a term and an expression up
to the state of their loops behind them. -/
def Reads (s : List UInt8) (e : Expr) (u : List UInt8) : Level → Prop
  | .factor => ∀ fuel pos rest, s.drop pos = u ++ rest → s.length - pos < fuel → NotDigit s (pos + u.length) →
      mathParseFactor trees s fuel pos = some (e, pos + u.length)
  | .term => ∀ fuel pos rest, s.drop pos = u ++ rest → s.length - pos < fuel → NotDigit s (pos + u.length) →
      ∃ k, s.length - (pos + u.length) < k ∧
        mathParseTerm trees s (mathParseFactor trees s fuel) pos =
          chain trees s mulOp (mathParseFactor trees s fuel) k e (pos + u.length)
  | .expr => ∀ fuel pos rest, s.drop pos = u ++ rest → s.length - pos < fuel → NotDigit s (pos + u.length) →
      Stops s mulOp (pos + u.length) →
      ∃ k, s.length - (pos + u.length) < k ∧
        mathParseExpr trees s (mathParseFactor trees s fuel) pos =
          chain trees s addOp (mathParseTerm trees s (mathParseFactor trees s fuel)) k e (skipSpaces s (pos + u.length))

variable {s : List UInt8}

theorem mulOp_char {c : UInt8} {o : BinOp} (h : mulOp c = some o) : isDigit c = false ∧ c ≠ 0x20 := by
  rw [mulOp] at h
  split at h
  · rename_i hc
    rw [hc]
    decide
  · split at h
    · rename_i hc
      rw [hc]
      decide
    · split at h
      · rename_i hc
        rw [hc]
        decide
      · cases h

theorem addOp_char {c : UInt8} {o : BinOp} (h : addOp c = some o) : isDigit c = false ∧ c ≠ 0x20 ∧ mulOp c = none := by
  rw [addOp] at h
  split at h
  · rename_i hc
    rw [hc]
    decide
  · split at h
    · rename_i hc
      rw [hc]
      decide
    · cases h

theorem reads_number {ds : List UInt8} (hne : ds ≠ []) (hdigits : ∀ c ∈ ds, isDigit c = true) :
    Reads s (.lit (decimal ds)) ds .factor := by
  intro fuel pos rest hat hfuel hafter
  obtain ⟨fuel, rfl⟩ := Nat.exists_eq_succ_of_ne_zero (Nat.ne_of_gt (Nat.lt_of_le_of_lt (Nat.zero_le _) hfuel))
  obtain ⟨c, cs, rfl⟩ := List.exists_cons_of_ne_nil hne
  have hc := hdigits c List.mem_cons_self
  have hother {d : UInt8} (hd : isDigit d = false) : c ≠ d := fun heq => by
    rw [heq, hd] at hc
    cases hc
  have hself : skipSpaces s pos = pos :=
    skipSpaces_self hat fun heq => hother (d := 0x20) (by decide) (Option.some.inj heq)
  have hrest : rest.takeWhile isDigit = [] := by
    cases rest with
    | nil => rfl
    | cons d rest =>
      have hd := hafter d (getElem?_of_drop (drop_after hat))
      exact List.takeWhile_cons_of_neg (by rw [hd]; exact Bool.false_ne_true)
  have hds : (s.drop pos).takeWhile isDigit = c :: cs := by
    rw [hat, List.takeWhile_append_of_pos hdigits, hrest, List.append_nil]
  rw [mathParseFactor, hself, getElem?_of_drop hat]
  dsimp only
  rw [if_neg (hother (by decide)), if_neg (hother (by decide)), if_neg (hother (by decide)), if_neg (hother (by decide)),
    if_pos hc, hds]
  rfl

theorem reads_spaced {e : Expr} {u : List UInt8} (h : Reads s e u .factor) : Reads s e (0x20 :: u) .factor := by
  intro fuel pos rest hat hfuel hafter
  obtain ⟨fuel, rfl⟩ := Nat.exists_eq_succ_of_ne_zero (Nat.ne_of_gt (Nat.lt_of_le_of_lt (Nat.zero_le _) hfuel))
  have hpos : pos + (0x20 :: u).length = pos + 1 + u.length := by
    rw [List.length_cons]
    omega
  have hrest : s.drop (pos + 1) = u ++ rest := drop_after (u := [0x20]) hat
  rw [hpos] at hafter ⊢
  rw [← h (fuel + 1) (pos + 1) rest hrest (by omega) hafter, mathParseFactor, mathParseFactor, skipSpaces_space hat]

theorem reads_un (op : UnOp) {e : Expr} {u : List UInt8} (h : Reads s e u .factor) :
    Reads s (.un op e) (unChar op :: u) .factor := by
  intro fuel pos rest hat hfuel hafter
  obtain ⟨fuel, rfl⟩ := Nat.exists_eq_succ_of_ne_zero (Nat.ne_of_gt (Nat.lt_of_le_of_lt (Nat.zero_le _) hfuel))
  have hpos : pos + (unChar op :: u).length = pos + 1 + u.length := by
    rw [List.length_cons]
    omega
  have hrest : s.drop (pos + 1) = u ++ rest := drop_after (u := [unChar op]) hat
  have hlt : s.length - pos = u.length + rest.length + 1 := by
    rw [length_of_drop hat, List.length_append, List.length_cons]
    omega
  have hself : skipSpaces s pos = pos := skipSpaces_self hat fun heq =>
    absurd (Option.some.inj heq) (by cases op <;> decide)
  rw [hpos] at hafter ⊢
  have hoperand := h fuel (pos + 1) rest hrest (by omega) hafter
  rw [mathParseFactor, hself, getElem?_of_drop hat]
  dsimp only
  rw [hoperand]
  cases op <;> rfl

theorem reads_paren {e : Expr} {u : List UInt8} (n : Nat) (h : Reads s e u .expr) :
    Reads s e (0x28 :: (u ++ (blanks n ++ [0x29]))) .factor := by
  intro fuel pos rest hat hfuel hafter
  obtain ⟨fuel, rfl⟩ := Nat.exists_eq_succ_of_ne_zero (Nat.ne_of_gt (Nat.lt_of_le_of_lt (Nat.zero_le _) hfuel))
  have hpos : pos + (0x28 :: (u ++ (blanks n ++ [0x29]))).length = pos + 1 + u.length + n + 1 := by
    simp only [List.length_cons, List.length_append, blanks, List.length_replicate, List.length_nil]
    omega
  have hinner : s.drop (pos + 1) = u ++ (blanks n ++ 0x29 :: rest) := by
    have hdrop : s.drop (pos + 1) = u ++ (blanks n ++ [0x29]) ++ rest := drop_after (u := [0x28]) hat
    rw [hdrop]
    simp only [List.append_assoc, List.singleton_append]
  have hbehind := drop_after hinner
  obtain ⟨hskip, hself, hclose, -⟩ := after_blanks hbehind (by decide)
  have hlt : s.length - pos ≠ 0 := by
    rw [length_of_drop hat]
    exact Nat.succ_ne_zero _
  obtain ⟨k, hk, hchain⟩ := h fuel (pos + 1) _ hinner (by omega) (notDigit_blanks hbehind (by decide))
    (stops_blanks hbehind (by decide) rfl)
  have hstop : Stops s addOp (skipSpaces s (pos + 1 + u.length)) := by
    intro d hd
    rw [hskip, hself, hclose] at hd
    cases hd
    rfl
  have hexpr : mathParseExpr trees s (mathParseFactor trees s fuel) (pos + 1) = some (e, pos + 1 + u.length + n) := by
    rw [hchain, chain_stop hstop (Nat.lt_of_le_of_lt (Nat.zero_le _) hk), hskip, hself]
  have hstart : skipSpaces s pos = pos := skipSpaces_self hat fun heq => absurd (Option.some.inj heq) (by decide)
  rw [mathParseFactor, hstart, getElem?_of_drop hat]
  dsimp only
  rw [if_pos rfl, hexpr, Option.map_some]
  dsimp only
  rw [hself, if_pos hclose, hpos]

theorem reads_ofFactor {e : Expr} {u : List UInt8} (h : Reads s e u .factor) : Reads s e u .term := by
  intro fuel pos rest hat hfuel hafter
  refine ⟨s.length + 1, by omega, ?_⟩
  rw [mathParseTerm, h fuel pos rest hat hfuel hafter]
  rfl

theorem drop_operator {pos n : Nat} {u v rest : List UInt8} {c : UInt8}
    (hat : s.drop pos = u ++ (blanks n ++ c :: v) ++ rest) (hc : c ≠ 0x20) :
    s.drop (pos + u.length) = blanks n ++ c :: (v ++ rest) ∧ s.drop (pos + u.length + n + 1) = v ++ rest ∧
      pos + (u ++ (blanks n ++ c :: v)).length = pos + u.length + n + 1 + v.length := by
  have hbehind : s.drop (pos + u.length) = blanks n ++ c :: (v ++ rest) := by
    rw [List.append_assoc] at hat
    rw [drop_after hat, List.append_assoc]
    rfl
  refine ⟨hbehind, (after_blanks hbehind hc).2.2.2, ?_⟩
  simp only [List.length_cons, List.length_append, blanks, List.length_replicate]
  omega

theorem reads_mul {a b : Expr} {u v : List UInt8} {c : UInt8} {op : BinOp} (n : Nat) (ha : Reads s a u .term)
    (hop : mulOp c = some op) (hb : Reads s b v .factor) : Reads s (.bin op a b) (u ++ (blanks n ++ c :: v)) .term := by
  intro fuel pos rest hat hfuel hafter
  obtain ⟨hdigit, hspace⟩ := mulOp_char hop
  obtain ⟨hbehind, hright, hpos⟩ := drop_operator hat hspace
  obtain ⟨hskip, -, hchar, -⟩ := after_blanks hbehind hspace
  have hleftAt : s.drop pos = u ++ (blanks n ++ c :: v ++ rest) := by rw [hat, List.append_assoc]
  obtain ⟨k, hk, hleft⟩ := ha fuel pos _ hleftAt hfuel (notDigit_blanks hbehind hdigit)
  have hlength := length_of_drop hbehind
  rw [List.length_append, List.length_cons] at hlength
  obtain ⟨k, rfl⟩ := Nat.exists_eq_succ_of_ne_zero (Nat.ne_of_gt (Nat.lt_of_le_of_lt (Nat.zero_le _) hk))
  rw [hpos] at hafter ⊢
  have hoperand := hb fuel (pos + u.length + n + 1) rest hright (by omega) hafter
  rw [← hskip] at hoperand hchar
  refine ⟨k, by omega, ?_⟩
  rw [hleft, chain_turn hchar hop hoperand, hskip]

theorem reads_ofTerm {e : Expr} {u : List UInt8} (h : Reads s e u .term) : Reads s e u .expr := by
  intro fuel pos rest hat hfuel hafter hstop
  obtain ⟨k, hk, hterm⟩ := h fuel pos rest hat hfuel hafter
  refine ⟨s.length + 1, by omega, ?_⟩
  rw [mathParseExpr, hterm, chain_stop hstop (Nat.lt_of_le_of_lt (Nat.zero_le _) hk)]
  rfl

theorem reads_add {a b : Expr} {u v : List UInt8} {c : UInt8} {op : BinOp} (n : Nat) (ha : Reads s a u .expr)
    (hop : addOp c = some op) (hb : Reads s b v .term) : Reads s (.bin op a b) (u ++ (blanks n ++ c :: v)) .expr := by
  intro fuel pos rest hat hfuel hafter hstop
  obtain ⟨hdigit, hspace, hmul⟩ := addOp_char hop
  obtain ⟨hbehind, hright, hpos⟩ := drop_operator hat hspace
  obtain ⟨hskip, hself, hchar, -⟩ := after_blanks hbehind hspace
  have hleftAt : s.drop pos = u ++ (blanks n ++ c :: v ++ rest) := by rw [hat, List.append_assoc]
  obtain ⟨k, hk, hleft⟩ := ha fuel pos _ hleftAt hfuel (notDigit_blanks hbehind hdigit) (stops_blanks hbehind hspace hmul)
  have hlength := length_of_drop hbehind
  rw [List.length_append, List.length_cons] at hlength
  obtain ⟨k, rfl⟩ := Nat.exists_eq_succ_of_ne_zero (Nat.ne_of_gt (Nat.lt_of_le_of_lt (Nat.zero_le _) hk))
  rw [hpos] at hafter hstop ⊢
  obtain ⟨j, hj, hterm⟩ := hb fuel (pos + u.length + n + 1) rest hright (by omega) hafter
  have hoperand := hterm.trans (chain_stop hstop (Nat.lt_of_le_of_lt (Nat.zero_le _) hj))
  rw [← hself] at hoperand hchar
  refine ⟨k, by omega, ?_⟩
  rw [hleft, hskip, chain_turn hchar hop hoperand, hself]

theorem Renders.reads {l : Level} {e : Expr} {u : List UInt8} (h : Renders l e u) : Reads s e u l := by
  induction h with
  | number hne hdigits => exact reads_number hne hdigits
  | spaced _ ih => exact reads_spaced ih
  | un op _ ih => exact reads_un op ih
  | paren n _ ih => exact reads_paren n ih
  | ofFactor _ ih => exact reads_ofFactor ih
  | mul n _ hop _ iha ihb => exact reads_mul n iha hop ihb
  | ofTerm _ ih => exact reads_ofTerm ih
  | add n _ hop _ iha ihb => exact reads_add n iha hop ihb

theorem parse_renders {e : Expr} {u : List UInt8} (h : Renders .expr e u) (n : Nat) :
    parse trees (u ++ blanks n) = some (e, (u ++ blanks n).length) := by
  have hlength : (u ++ blanks n).length = 0 + u.length + n := by
    rw [List.length_append, blanks, List.length_replicate, Nat.zero_add]
  have hbehind : (u ++ blanks n).drop (0 + u.length) = blanks n ++ [] := by
    rw [Nat.zero_add, List.drop_left, List.append_nil]
  have hskip : skipSpaces (u ++ blanks n) (0 + u.length) = 0 + u.length + n := by
    refine (skipSpaces_blanks hbehind).trans (skipSpaces_self (List.drop_of_length_le (Nat.le_of_eq hlength)) ?_)
    decide
  have hend : (u ++ blanks n)[0 + u.length + n]? = none := List.getElem?_eq_none_iff.mpr (Nat.le_of_eq hlength)
  have hself : skipSpaces (u ++ blanks n) (0 + u.length + n) = 0 + u.length + n :=
    skipSpaces_self (List.drop_of_length_le (Nat.le_of_eq hlength)) (by decide)
  have hstop (op : UInt8 → Option BinOp) {p : Nat} (hp : skipSpaces (u ++ blanks n) p = 0 + u.length + n) :
      Stops (u ++ blanks n) op p := by
    intro c hc
    rw [hp, hend] at hc
    cases hc
  have hdigit : NotDigit (u ++ blanks n) (0 + u.length) := by
    intro c hc
    cases n with
    | zero =>
      rw [Nat.add_zero] at hend
      rw [hend] at hc
      cases hc
    | succ n =>
      have hspace : (u ++ blanks (n + 1))[0 + u.length]? = some 0x20 := getElem?_of_drop hbehind
      rw [hspace] at hc
      cases hc
      decide
  obtain ⟨k, hk, hexpr⟩ := h.reads ((u ++ blanks n).length + 1) 0 (blanks n) rfl (Nat.lt_succ_self _) hdigit
    (hstop mulOp hskip)
  rw [hskip] at hexpr
  rw [parse, hexpr, chain_stop (hstop addOp hself) (Nat.lt_of_le_of_lt (Nat.zero_le _) hk), hself, hlength]

/-! ## A rendering of every expression -/

/-- The digits of a number below `2 ^ k`. -/
def digitsBelow : Nat → Nat → List UInt8
  | 0, n => [UInt8.ofNat (0x30 + n % 10)]
  | k + 1, n =>
    if n < 10 then [UInt8.ofNat (0x30 + n % 10)] else digitsBelow k (n / 10) ++ [UInt8.ofNat (0x30 + n % 10)]

def digits (n : Nat) : List UInt8 := digitsBelow (n.log2 + 1) n

theorem digit_spec (n : Nat) :
    isDigit (UInt8.ofNat (0x30 + n % 10)) = true ∧ (UInt8.ofNat (0x30 + n % 10)).toNat - 0x30 = n % 10 := by
  have hten : n % 10 < 10 := Nat.mod_lt n (by decide)
  revert hten
  generalize n % 10 = d
  intro hten
  decide +revert

theorem digitsBelow_spec {k n : Nat} (h : n < 2 ^ k) :
    digitsBelow k n ≠ [] ∧ (∀ c ∈ digitsBelow k n, isDigit c = true) ∧ decimal (digitsBelow k n) = n := by
  have hone {n : Nat} (hn : n < 10) : [UInt8.ofNat (0x30 + n % 10)] ≠ [] ∧
      (∀ c ∈ [UInt8.ofNat (0x30 + n % 10)], isDigit c = true) ∧ decimal [UInt8.ofNat (0x30 + n % 10)] = n := by
    refine ⟨List.cons_ne_nil _ _, fun c hc => ?_, ?_⟩
    · rw [List.mem_singleton.mp hc]
      exact (digit_spec n).1
    · have hvalue : decimal [UInt8.ofNat (0x30 + n % 10)] = 0 * 10 + ((UInt8.ofNat (0x30 + n % 10)).toNat - 0x30) := rfl
      rw [hvalue, (digit_spec n).2]
      omega
  induction k generalizing n with
  | zero => exact hone (by omega)
  | succ k ih =>
    rw [digitsBelow]
    by_cases hn : n < 10
    · rw [if_pos hn]
      exact hone hn
    · rw [Nat.pow_succ] at h
      obtain ⟨-, hall, hvalue⟩ := @ih (n / 10) (by omega)
      rw [if_neg hn]
      refine ⟨List.append_ne_nil_of_right_ne_nil _ (List.cons_ne_nil _ _), fun c hc => ?_, ?_⟩
      · rcases List.mem_append.mp hc with hc | hc
        · exact hall c hc
        · rw [List.mem_singleton.mp hc]
          exact (digit_spec n).1
      · rw [decimal, List.foldl_append, List.foldl_cons, List.foldl_nil, (digit_spec n).2]
        change decimal (digitsBelow k (n / 10)) * 10 + n % 10 = n
        rw [hvalue]
        omega

def binChar : BinOp → UInt8
  | .mul => 0x2a
  | .div => 0x2f
  | .mod => 0x25
  | .add => 0x2b
  | .sub => 0x2d

/-- Without spaces, and with the parentheses that are needed. -/
def render : Level → Expr → List UInt8
  | _, .lit n => digits n
  | _, .un op e => unChar op :: render .factor e
  | l, .bin op a b =>
    let sum := match op with
      | .add | .sub => true
      | .mul | .div | .mod => false
    let body := if sum then render .expr a ++ binChar op :: render .term b
      else render .term a ++ binChar op :: render .factor b
    match l with
    | .expr => body
    | .term => if sum then 0x28 :: (body ++ [0x29]) else body
    | .factor => 0x28 :: (body ++ [0x29])

theorem renders_render (e : Expr) (l : Level) : Renders l e (render l e) := by
  have hlift {e : Expr} {u : List UInt8} (h : Renders .factor e u) (l : Level) : Renders l e u := by
    cases l with
    | factor => exact h
    | term => exact .ofFactor h
    | expr => exact .ofTerm (.ofFactor h)
  induction e generalizing l with
  | lit n =>
    obtain ⟨hne, hdigits, hvalue⟩ := digitsBelow_spec (n.lt_log2_self)
    have hnumber := Renders.number hne hdigits
    rw [hvalue] at hnumber
    exact hlift hnumber l
  | un op e ih => exact hlift (.un op (ih .factor)) l
  | bin op a b iha ihb =>
    have hproduct (hop : mulOp (binChar op) = some op) :
        Renders .term (.bin op a b) (render .term a ++ binChar op :: render .factor b) :=
      .mul 0 (iha .term) hop (ihb .factor)
    have hsum (hop : addOp (binChar op) = some op) :
        Renders .expr (.bin op a b) (render .expr a ++ binChar op :: render .term b) :=
      .add 0 (iha .expr) hop (ihb .term)
    have hparen {u : List UInt8} (h : Renders .expr (.bin op a b) u) : Renders .factor (.bin op a b) (0x28 :: (u ++ [0x29])) :=
      .paren 0 h
    cases op with
    | mul | div | mod =>
      have hterm := hproduct rfl
      cases l with
      | expr => exact .ofTerm hterm
      | term => exact hterm
      | factor => exact hparen (.ofTerm hterm)
    | add | sub =>
      have hexpr := hsum rfl
      cases l with
      | expr => exact hexpr
      | term => exact .ofFactor (hparen hexpr)
      | factor => exact hparen hexpr

/-! ## The command -/

/-- The code meets an expression's text exactly where no remainder of the least word by minus one is taken; and any text
exactly where no such quotient or remainder is taken of the expression that it stands for, which every text does. -/
theorem math_iff (e : Expr) (u : List UInt8) (n : Nat) (s : List UInt8) : (Renders .expr e u → e.Fits →
      ((∃ v, parse words (u ++ blanks n) = some (v, (u ++ blanks n).length) ∧ v.toInt = e.value) ↔ e.RemaindersFit)) ∧
    ∃ e pos, parse trees s = some (e, pos) ∧
      ((∃ v pos, parse words s = some (v, pos) ∧ pos ≤ s.length) ↔ e.QuotientsFit) := by
  refine ⟨fun hrenders hfits => ?_, ?_⟩
  · rw [parse_words, parse_renders hrenders, Option.bind_some]
    constructor
    · rintro ⟨v, hv, -⟩
      refine Decidable.byContradiction fun hrem => ?_
      rw [Expr.run_of_not_remaindersFit hfits hrem] at hv
      cases hv
    · intro hrem
      have hword := hfits.inWord
      rw [Expr.run_of_fits hfits hrem]
      exact ⟨_, rfl, Int32.toInt_ofInt_of_le hword.1 hword.2⟩
  · obtain ⟨⟨e, pos⟩, hread, hin⟩ := trees_returns s
    refine ⟨e, pos, hread, ?_⟩
    rw [← Expr.exists_run_iff, parse_words, hread, Option.bind_some]
    constructor
    · rintro ⟨v, p, hv, -⟩
      obtain ⟨x, hx, -⟩ := Option.map_eq_some_iff.mp hv
      exact ⟨x, hx⟩
    · rintro ⟨x, hx⟩
      exact ⟨x, pos, by rw [hx]; rfl, hin⟩

namespace LeastWord

/-- `(1+2)*3` -/
def nine : Expr := .bin .mul (.bin .add (.lit 1) (.lit 2)) (.lit 3)

theorem nine_read : ∃ v, parse words [0x28, 0x31, 0x2b, 0x32, 0x29, 0x2a, 0x33, 0x20] = some (v, 8) ∧ v.toInt = 9 :=
  ((math_iff nine (render .expr nine) 1 []).1 (renders_render nine .expr) (by decide)).mpr (by decide)

/-- `(-2147483647-1)%-1` -/
def remainder : Expr := .bin .mod (.bin .sub (.un .neg (.lit 2147483647)) (.lit 1)) (.un .neg (.lit 1))

theorem remainder_traps :
    remainder.Fits ∧ remainder.value = 0 ∧ parse words (render .expr remainder ++ blanks 0) = none := by
  refine ⟨by decide, by decide, ?_⟩
  rw [parse_words, parse_renders (renders_render remainder .expr), Option.bind_some,
    Expr.run_of_not_remaindersFit (by decide) (by decide), Option.map_none]

end LeastWord

end Chicago95.Stage2.MathParser
