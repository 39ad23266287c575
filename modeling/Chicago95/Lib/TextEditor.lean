/-
# Chicago95.Lib.TextEditor — a text of several lines with a cursor in it.

The text is kept apart at the cursor: the lines above, the line with the cursor before and after it, the lines below. A
cursor outside the text cannot be built. Each operation says what becomes of the text and where the cursor is; an
operation that would take the text over a capacity leaves the text as it is.
-/
import Mathlib.Data.List.Basic
import Mathlib.Tactic.Common

namespace Chicago95.Lib.TextEditor

variable {α : Type*}

/-- A text of at least one line, with a cursor in one of them. -/
structure Text (α : Type*) where
  above : List (List α)
  left : List α
  right : List α
  below : List (List α)
  deriving DecidableEq

/-- How many lines a text may have, and how many elements a line. -/
structure Capacity where
  lines : Nat
  line : Nat

namespace Text

/-- The line with the cursor. -/
def line (t : Text α) : List α := t.left ++ t.right

def lines (t : Text α) : List (List α) := t.above ++ t.line :: t.below

def row (t : Text α) : Nat := t.above.length

def col (t : Text α) : Nat := t.left.length

/-- The cursor on a line, at a column or at the end of the line if that is shorter; on a line that is not there the
cursor does not go. -/
def goTo (t : Text α) (row col : Nat) : Text α :=
  match t.lines.drop row with
  | [] => t
  | w :: below => { above := t.lines.take row, left := w.take col, right := w.drop col, below := below }

/-! ## Operations -/

/-- A text with the cursor at its start. -/
def opened (first : List α) (rest : List (List α)) : Text α :=
  { above := [], left := [], right := first, below := rest }

/-- The text of a list of lines, or of one empty line, with the cursor at its start. -/
def ofLines : List (List α) → Text α
  | [] => opened [] []
  | first :: rest => opened first rest

def insert (cap : Capacity) (x : α) (t : Text α) : Text α :=
  if t.line.length < cap.line then { t with left := t.left ++ [x] } else t

/-- The line is split at the cursor, which goes to the start of the second half. -/
def split (cap : Capacity) (t : Text α) : Text α :=
  if t.lines.length < cap.lines then
    { above := t.above ++ [t.left], left := [], right := t.right, below := t.below }
  else t

/-- The next line is put after the line with the cursor. -/
def join (cap : Capacity) (t : Text α) : Text α :=
  match t.below with
  | [] => t
  | w :: below => if t.line.length + w.length ≤ cap.line then { t with right := t.right ++ w, below := below } else t

/-- The element after the cursor goes, or the end of the line. -/
def deleteForward (cap : Capacity) (t : Text α) : Text α :=
  match t.right with
  | [] => t.join cap
  | _ :: right => { t with right := right }

/-- The end of the line before the cursor's. -/
def previousEnd (t : Text α) : Text α := t.goTo (t.row - 1) ((t.above.getLast?).elim 0 List.length)

/-- The element before the cursor goes; at the start of a line the line is joined to the one before it. -/
def backspace (cap : Capacity) (t : Text α) : Text α :=
  if t.left = [] then
    if t.above = [] then t else t.previousEnd.join cap
  else { t with left := t.left.dropLast }

/-- What stands after the cursor in its line goes. -/
def kill (t : Text α) : Text α := { t with right := [] }

/-! ## Moves -/

def home (t : Text α) : Text α := { t with left := [], right := t.line }

def toEnd (t : Text α) : Text α := { t with left := t.line, right := [] }

def up (n : Nat) (t : Text α) : Text α := t.goTo (t.row - n) t.col

def down (n : Nat) (t : Text α) : Text α := t.goTo (min (t.row + n) (t.lines.length - 1)) t.col

def back (t : Text α) : Text α :=
  match t.left.getLast? with
  | some x => { t with left := t.left.dropLast, right := x :: t.right }
  | none => if t.above = [] then t else t.previousEnd

def forth (t : Text α) : Text α :=
  match t.right with
  | x :: right => { t with left := t.left ++ [x], right := right }
  | [] => if t.below = [] then t else t.goTo (t.row + 1) 0

/-! ## What the operations keep -/

theorem lines_ne_nil (t : Text α) : t.lines ≠ [] := List.append_ne_nil_of_right_ne_nil _ (List.cons_ne_nil _ _)

theorem lines_ofLines {ls : List (List α)} (h : ls ≠ []) : (ofLines ls).lines = ls := by
  cases ls with
  | nil => exact absurd rfl h
  | cons first rest => rfl

theorem row_ofLines (ls : List (List α)) : (ofLines ls).row = 0 := by cases ls <;> rfl

theorem col_ofLines (ls : List (List α)) : (ofLines ls).col = 0 := by cases ls <;> rfl

theorem lines_getElem?_row (t : Text α) : t.lines[t.row]? = some t.line := by
  rw [lines, row, List.getElem?_append_right (Nat.le_refl _), Nat.sub_self]
  rfl

theorem length_lines (t : Text α) : t.lines.length = t.row + 1 + t.below.length := by
  rw [lines, row, List.length_append, List.length_cons]
  omega

theorem length_lines_congr {t u : Text α} (habove : t.above.length = u.above.length)
    (hbelow : t.below.length = u.below.length) : t.lines.length = u.lines.length := by
  rw [length_lines, length_lines, row, row, habove, hbelow]

theorem col_le (t : Text α) : t.col ≤ t.line.length := by
  rw [line, col, List.length_append]
  exact Nat.le_add_right _ _

theorem goTo_spec (t : Text α) {r : Nat} {w : List α} (h : t.lines[r]? = some w) (c : Nat) :
    (t.goTo r c).lines = t.lines ∧ (t.goTo r c).row = r ∧ (t.goTo r c).col = min c w.length ∧ (t.goTo r c).line = w := by
  obtain ⟨hr, hw⟩ := List.getElem?_eq_some_iff.mp h
  have hdrop : t.lines.drop r = w :: t.lines.drop (r + 1) := by rw [List.drop_eq_getElem_cons hr, hw]
  have hgo : t.goTo r c = { above := t.lines.take r, left := w.take c, right := w.drop c, below := t.lines.drop (r + 1) } := by
    rw [goTo, hdrop]
  rw [hgo]
  refine ⟨?_, ?_, ?_, ?_⟩
  · change t.lines.take r ++ (w.take c ++ w.drop c) :: t.lines.drop (r + 1) = t.lines
    rw [List.take_append_drop, ← hdrop, List.take_append_drop]
  · exact List.length_take_of_le (Nat.le_of_lt hr)
  · exact List.length_take
  · exact List.take_append_drop c w

theorem join_nil (cap : Capacity) {t : Text α} (h : t.below = []) : t.join cap = t := by rw [join, h]

theorem join_cons (cap : Capacity) {t : Text α} {w : List α} {below : List (List α)} (h : t.below = w :: below) :
    t.join cap =
      if t.line.length + w.length ≤ cap.line then { t with right := t.right ++ w, below := below } else t := by
  rw [join, h]

theorem previousEnd_eq {t : Text α} {above : List (List α)} {w : List α} (h : t.above = above ++ [w]) :
    t.previousEnd = { above := above, left := w, right := [], below := t.line :: t.below } := by
  have hlines : t.lines = above ++ w :: t.line :: t.below := by rw [lines, h, List.append_assoc, List.singleton_append]
  have hrow : t.row - 1 = above.length := by
    rw [row, h, List.length_append, List.length_singleton, Nat.add_sub_cancel]
  rw [previousEnd, goTo, hrow, hlines, List.drop_left, List.take_left, h, List.getLast?_concat]
  dsimp only [Option.elim_some]
  rw [List.take_length, List.drop_length]

theorem backspace_eq (cap : Capacity) {t : Text α} {above : List (List α)} {w : List α} (hleft : t.left = [])
    (h : t.above = above ++ [w]) :
    t.backspace cap =
      if w.length + t.line.length ≤ cap.line then { above := above, left := w, right := t.line, below := t.below }
      else { above := above, left := w, right := [], below := t.line :: t.below } := by
  have hne : t.above ≠ [] := by
    rw [h]
    exact List.append_ne_nil_of_right_ne_nil _ (List.cons_ne_nil _ _)
  have hline : (line { above := above, left := w, right := [], below := t.line :: t.below }).length = w.length := by
    rw [line, List.append_nil]
  rw [backspace, if_pos hleft, if_neg hne, previousEnd_eq h, join_cons cap rfl, hline]
  rfl

end Text

end Chicago95.Lib.TextEditor
