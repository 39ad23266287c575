/-
# Chicago95.Lib.LineEditor — a line of text with a cursor in it, and the text that was killed last.

The line is kept apart at the cursor, so a cursor outside it cannot be built. A kill takes out a stretch beside the cursor
and keeps a clipped copy of it; where there is nothing to take out, the copy of the last kill stays. A yank puts the copy
in again, as far as the line has room.
-/
import Mathlib.Data.List.DropRight

namespace Chicago95.Lib.LineEditor

variable {α : Type*}

structure Line (α : Type*) where
  before : List α
  after : List α
  killed : List α
  deriving DecidableEq

namespace Line

def text (e : Line α) : List α := e.before ++ e.after

/-- A line with nothing in it. -/
def empty : Line α := { before := [], after := [], killed := [] }

/-! ## Moving -/

def goTo (n : Nat) (e : Line α) : Line α := { e with before := e.text.take n, after := e.text.drop n }

variable (blank : α → Bool)

/-- What stands before the word at the cursor's left, blanks after the word counted to it. -/
def beforeWord (e : Line α) : List α := (e.before.rdropWhile blank).rdropWhile fun x => !blank x

/-- What stands after the word at the cursor's right, blanks after the word counted to it. -/
def afterWord (e : Line α) : List α := (e.after.dropWhile fun x => !blank x).dropWhile blank

def wordLeft (e : Line α) : Line α := e.goTo (e.beforeWord blank).length

def wordRight (e : Line α) : Line α := e.goTo (e.text.length - (e.afterWord blank).length)

/-! ## Editing -/

def insert (cap : Nat) (x : α) (e : Line α) : Line α :=
  if e.text.length < cap then { e with before := e.before ++ [x] } else e

def backspace (e : Line α) : Line α := { e with before := e.before.dropLast }

def delete (e : Line α) : Line α := { e with after := e.after.tail }

/-- At most `keep` elements of a killed stretch are kept, and an empty stretch is none. -/
def kill (keep : Nat) (piece : List α) (e : Line α) : Line α :=
  if piece = [] then e else { e with killed := piece.take keep }

def killBefore (keep : Nat) (e : Line α) : Line α := { e.kill keep e.before with before := [] }

def killAfter (keep : Nat) (e : Line α) : Line α := { e.kill keep e.after with after := [] }

def killWord (keep : Nat) (e : Line α) : Line α :=
  { e.kill keep (e.before.drop (e.beforeWord blank).length) with before := e.beforeWord blank }

def yank (cap : Nat) (e : Line α) : Line α := { e with before := e.before ++ e.killed.take (cap - e.text.length) }

/-! ## What the operations leave -/

@[simp] theorem text_goTo (n : Nat) (e : Line α) : (e.goTo n).text = e.text := List.take_append_drop n e.text

@[simp] theorem killed_goTo (n : Nat) (e : Line α) : (e.goTo n).killed = e.killed := rfl

theorem goTo_length (e : Line α) : e.goTo e.before.length = e := by
  rw [goTo, text, List.take_left, List.drop_left]

theorem backspace_of_eq {e : Line α} (h : e.before = []) : e.backspace = e := by
  obtain ⟨before, after, killed⟩ := e
  subst h
  rfl

theorem delete_of_eq {e : Line α} (h : e.after = []) : e.delete = e := by
  obtain ⟨before, after, killed⟩ := e
  subst h
  rfl

theorem killBefore_of_ne {e : Line α} (h : e.before ≠ []) (keep : Nat) :
    e.killBefore keep = { before := [], after := e.after, killed := e.before.take keep } := by
  rw [killBefore, kill, if_neg h]

theorem killBefore_of_eq {e : Line α} (h : e.before = []) (keep : Nat) : e.killBefore keep = e := by
  obtain ⟨before, after, killed⟩ := e
  subst h
  rfl

theorem killAfter_of_ne {e : Line α} (h : e.after ≠ []) (keep : Nat) :
    e.killAfter keep = { before := e.before, after := [], killed := e.after.take keep } := by
  rw [killAfter, kill, if_neg h]

theorem killAfter_of_eq {e : Line α} (h : e.after = []) (keep : Nat) : e.killAfter keep = e := by
  obtain ⟨before, after, killed⟩ := e
  subst h
  rfl

theorem goTo_of_length_le {e : Line α} {n : Nat} (h : e.text.length ≤ n) : e.goTo n = e.goTo e.text.length := by
  rw [goTo, goTo, List.take_of_length_le h, List.drop_of_length_le h, List.take_length, List.drop_length]

theorem beforeWord_append (e : Line α) :
    e.beforeWord blank ++ e.before.drop (e.beforeWord blank).length = e.before := by
  have hprefix : e.beforeWord blank <+: e.before :=
    (List.rdropWhile_prefix _ _).trans (List.rdropWhile_prefix _ _)
  obtain ⟨w, hw⟩ := hprefix
  exact hw ▸ congrArg _ List.drop_left

theorem drop_beforeWord_ne_nil {e : Line α} (h : e.before ≠ []) : e.before.drop (e.beforeWord blank).length ≠ [] := by
  obtain ⟨v, x, hv⟩ := (List.eq_nil_or_concat' e.before).resolve_left h
  suffices hshort : (e.beforeWord blank).length ≤ v.length by
    refine List.length_pos_iff.mp ?_
    rw [List.length_drop, hv, List.length_append, List.length_singleton]
    omega
  have hdrop (p : α → Bool) (w : List α) : (w.rdropWhile p).length ≤ w.length := (List.rdropWhile_prefix p w).length_le
  rw [beforeWord, hv]
  by_cases hx : blank x = true
  · rw [List.rdropWhile_concat_pos _ _ _ hx]
    exact Nat.le_trans (hdrop _ _) (hdrop _ _)
  · have hnot : (!blank x) = true := by
      rw [Bool.not_eq_true] at hx
      rw [hx]
      rfl
    rw [List.rdropWhile_concat_neg _ _ _ hx, List.rdropWhile_concat_pos (fun x => !blank x) v x hnot]
    exact hdrop _ _

theorem killWord_of_ne {e : Line α} (h : e.before ≠ []) (keep : Nat) :
    e.killWord blank keep =
      { before := e.beforeWord blank
        after := e.after
        killed := (e.before.drop (e.beforeWord blank).length).take keep } := by
  rw [killWord, kill, if_neg (drop_beforeWord_ne_nil blank h)]

theorem killWord_of_eq {e : Line α} (h : e.before = []) (keep : Nat) : e.killWord blank keep = e := by
  obtain ⟨before, after, killed⟩ := e
  subst h
  rfl

end Line

end Chicago95.Lib.LineEditor
