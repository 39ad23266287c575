/-
# Chicago95.Stage2.NanoText — the editor is a text editor with a capacity.

An editor shows a text with a cursor when its table shows the lines and its row and column are those of the cursor
(`NanoState.Shows`). Each function on keys keeps this with the operation of the same name on the text, so it stays inside
the table; over a sequence of keys the same follows by induction (`runKeys_spec`).
-/
import Mathlib.Logic.Function.Iterate
import Chicago95.Lib.TextEditor
import Chicago95.Stage2.NanoLines

namespace Chicago95.Stage2.Nano

open Chicago95.Lib.Loop Chicago95.Lib.Cells Chicago95.Lib.TextEditor

/-- What fits in the table; the last place of a row is for the zero. -/
def capacity : Capacity := { lines := nanoMaxLines, line := nanoMaxLineLen - 1 }

/-- An editor with a text and a cursor. -/
structure NanoState.Shows (st : NanoState) (e : Text UInt8) : Prop where
  table : st.table.Shows e.lines
  numLines : st.numLines = e.lines.length
  row : st.cursorRow = e.row
  col : st.cursorCol = e.col

/-- A step that succeeds, shows the text it should, and leaves the help as it was. -/
def Steps (r : Option NanoState) (st : NanoState) (e : Text UInt8) : Prop :=
  ∃ st', r = some st' ∧ st'.Shows e ∧ st'.showHelp = st.showHelp

section Steps

variable {st : NanoState} {e : Text UInt8}

theorem NanoState.Shows.rowLt (h : st.Shows e) : st.cursorRow < nanoMaxLines := by
  rw [h.row]
  exact h.table.lt e.lines_getElem?_row

theorem NanoState.Shows.getLen (h : st.Shows e) : st.table.getLen st.cursorRow = some e.line.length := by
  rw [h.row]
  exact h.table.getLen e.lines_getElem?_row

theorem NanoState.Shows.steps (h : st.Shows e) : Steps (some st) st e := ⟨st, rfl, h, rfl⟩

/-! ## Changes within a line -/

theorem finishLine_spec {t t₁ : LineTable} {above below : List (List UInt8)} {v w : List UInt8}
    (h : t.Shows (above ++ w :: below)) (hsame : ∀ r, r ≠ above.length → t.SameLine t₁ r)
    (hv : Holds (t₁.char above.length) v) (hshort : v.length < nanoMaxLineLen) :
    ∃ u, ((t₁.setLen above.length v.length).bind fun t => t.setChar above.length v.length 0) = some u ∧
      u.Shows (above ++ v :: below) := by
  have hr := h.lineLt
  rw [LineTable.setLen_of_lt hr, Option.bind_some, LineTable.setChar_of_lt hr hshort]
  refine ⟨_, rfl, h.replace ⟨Function.update_self _ _ _, hshort, ?_, ?_⟩ fun s hs => (hsame s hs).trans ⟨?_, ?_⟩⟩
  · dsimp only
    rw [Function.update_self, Function.update_self]
  · dsimp only
    rw [Function.update_self]
    exact hv.congr fun i hi => Function.update_of_ne (Nat.ne_of_lt hi) _ _
  · exact Function.update_of_ne hs _ _
  · exact Function.update_of_ne hs _ _

theorem onLine_spec {t : LineTable} {r : Nat} (hr : r < nanoMaxLines) {f : (Nat → UInt8) → Option (Nat → UInt8)}
    {a : Nat → UInt8} (hf : f (t.char r) = some a) :
    ∃ u, t.onLine r f = some u ∧ u.char r = a ∧ ∀ s, s ≠ r → t.SameLine u s :=
  ⟨_, LineTable.onLine_of_lt hr hf, Function.update_self _ _ _, fun _ hs => ⟨rfl, Function.update_of_ne hs _ _⟩⟩

theorem nanoInsertChar_steps (h : st.Shows e) (c : UInt8) : Steps (nanoInsertChar c st) st (e.insert capacity c) := by
  rw [nanoInsertChar, if_neg (Nat.not_le.mpr h.rowLt), h.getLen, Option.bind_some]
  by_cases hfull : nanoMaxLineLen - 1 ≤ e.line.length
  · have hsame : e.insert capacity c = e := if_neg (Nat.not_lt.mpr hfull)
    rw [if_pos hfull, hsame]
    exact h.steps
  · have hinsert : e.insert capacity c = { e with left := e.left ++ [c] } := if_pos (Nat.not_le.mp hfull)
    have hlen : e.line.length = e.left.length + e.right.length := List.length_append
    have hroom : e.left.length + e.right.length + 1 < nanoMaxLineLen := by
      rw [← hlen]
      exact Nat.add_lt_of_lt_sub (Nat.not_le.mp hfull)
    have hrow : e.above.length < nanoMaxLines := h.table.lineLt
    have hcount : e.line.length - st.cursorCol = e.right.length := by
      rw [h.col, hlen]
      exact Nat.add_sub_cancel_left e.left.length e.right.length
    have hnew : (e.left ++ [c] ++ e.right).length = e.line.length + 1 := by
      simp only [List.length_append, List.length_singleton, hlen]
      omega
    obtain ⟨b, hins, hb⟩ := insertOne_spec (h.table.atLine.chars : Holds _ (e.left ++ e.right)) (Nat.le_refl _)
      (Nat.le_of_lt hroom) c
    obtain ⟨a, hslide, hput⟩ := Option.bind_eq_some_iff.mp hins
    obtain ⟨t₁, hon, ha, hother⟩ := onLine_spec (t := st.table)
      (f := fun a => slideUp nanoMaxLineLen a e.left.length e.right.length 1) hrow hslide
    rw [← ha] at hput
    obtain ⟨t₂, hset, hchars, hother'⟩ := onLine_spec (t := t₁) (f := fun a => put nanoMaxLineLen a e.left.length c) hrow hput
    rw [← hchars] at hb
    obtain ⟨u, hfinish, hu⟩ := finishLine_spec h.table (fun r hr => (hother r hr).trans (hother' r hr)) hb
      (by rw [hnew, hlen]; exact hroom)
    obtain ⟨t₃, hsetLen, hzero⟩ := Option.bind_eq_some_iff.mp hfinish
    rw [hnew] at hsetLen hzero
    have hrowEq : st.cursorRow = e.above.length := h.row
    have hcolEq : st.cursorCol = e.left.length := h.col
    rw [if_neg hfull, hinsert, hcount, hrowEq, hcolEq, hon, Option.bind_some,
      LineTable.setChar, hset, Option.bind_some, hsetLen, Option.bind_some, hzero, Option.map_some]
    refine ⟨_, rfl, ⟨hu, h.numLines.trans (Text.length_lines_congr rfl rfl), rfl, ?_⟩, rfl⟩
    have hcol : (e.left ++ [c]).length = e.left.length + 1 := List.length_append
    exact hcol.symm

theorem nanoInsertTab_steps (h : st.Shows e) :
    Steps (nanoInsertTab st) st ((fun e : Text UInt8 => e.insert capacity 0x20)^[nanoTabSize] e) := by
  unfold Steps nanoInsertTab
  exact forEachM_induction (P := fun k (st' : NanoState) => st'.Shows ((fun e : Text UInt8 => e.insert capacity 0x20)^[k] e) ∧
    st'.showHelp = st.showHelp) ⟨h, rfl⟩ fun k st' _ ⟨hshows, hhelp⟩ => by
      obtain ⟨st'', hins, hshows', hhelp'⟩ := nanoInsertChar_steps hshows 0x20
      refine ⟨st'', hins, ?_, hhelp'.trans hhelp⟩
      rw [Function.iterate_succ_apply']
      exact hshows'

theorem removeOne_spec {t : LineTable} {above below : List (List UInt8)} {v w : List UInt8} {x : UInt8}
    (h : t.Shows (above ++ (v ++ [x] ++ w) :: below)) :
    ∃ u, ((t.onLine above.length fun a => slideDown nanoMaxLineLen a v.length w.length 1).bind fun t =>
        (t.setLen above.length (v ++ w).length).bind fun t => t.setChar above.length (v ++ w).length 0) = some u ∧
      u.Shows (above ++ (v ++ w) :: below) := by
  have hshort := h.atLine.short
  rw [List.length_append, List.length_append, List.length_singleton] at hshort
  obtain ⟨a, hslide, ha⟩ := @removePiece_spec UInt8 nanoMaxLineLen w.length _ v [x] w h.atLine.chars (Nat.le_refl _)
    (by rw [List.length_singleton]; omega)
  obtain ⟨t₁, hon, hchars, hother⟩ := onLine_spec (t := t)
    (f := fun a => slideDown nanoMaxLineLen a v.length w.length 1) h.lineLt hslide
  rw [← hchars] at ha
  obtain ⟨u, hfinish, hu⟩ := finishLine_spec h hother ha (by rw [List.length_append]; omega)
  rw [hon, Option.bind_some, hfinish]
  exact ⟨u, rfl, hu⟩

/-! ## Changes of more than one line -/

theorem joinNext_steps (h : st.Shows e) : Steps (joinNext st) st (e.join capacity) := by
  have hcount : st.numLines = st.cursorRow + 1 + e.below.length := by rw [h.numLines, h.row, e.length_lines]
  cases hbelow : e.below with
  | nil =>
    rw [hbelow] at hcount
    rw [joinNext, if_neg (by rw [hcount]; exact Nat.lt_irrefl _), Text.join_nil capacity hbelow]
    exact h.steps
  | cons w below =>
    have hlines : e.lines = e.above ++ e.line :: w :: below := by rw [Text.lines, hbelow]
    have htable : st.table.Shows (e.above ++ e.line :: w :: below) := hlines ▸ h.table
    have hrow : st.cursorRow = e.above.length := h.row
    have hnum : st.numLines = (e.above ++ e.line :: w :: below).length := hlines ▸ h.numLines
    rw [hbelow, List.length_cons] at hcount
    rw [joinNext, if_pos (by omega), hrow, hnum, Text.join_cons capacity hbelow]
    by_cases hfit : e.line.length + w.length < nanoMaxLineLen
    · obtain ⟨u, hmerge, hu⟩ := LineTable.mergeNext_spec htable hfit
      have hjoined : e.above ++ (e.left ++ (e.right ++ w)) :: below = e.above ++ (e.line ++ w) :: below := by
        rw [Text.line, List.append_assoc]
      have hle : e.line.length + w.length ≤ capacity.line := Nat.le_sub_one_of_lt hfit
      rw [if_pos hle, hmerge, Option.map_some]
      exact ⟨_, rfl, ⟨hjoined ▸ hu, congrArg List.length hjoined.symm, rfl, h.col⟩, rfl⟩
    · have hover : ¬e.line.length + w.length ≤ capacity.line := fun hle => hfit (Nat.lt_of_le_pred (by decide) hle)
      rw [if_neg hover, LineTable.mergeNext_of_not htable hfit, Option.map_some]
      exact h.steps

theorem nanoDeleteForward_steps (h : st.Shows e) : Steps (nanoDeleteForward st) st (e.deleteForward capacity) := by
  rw [nanoDeleteForward, h.getLen, Option.bind_some]
  cases hright : e.right with
  | nil =>
    have hjoin : e.deleteForward capacity = e.join capacity := by rw [Text.deleteForward, hright]
    have hend : e.line.length ≤ st.cursorCol := by
      rw [h.col, Text.line, hright, List.append_nil]
      exact Nat.le_refl _
    rw [if_pos hend, hjoin]
    exact joinNext_steps h
  | cons x right =>
    have hdelete : e.deleteForward capacity = { e with right := right } := by rw [Text.deleteForward, hright]
    have hline : e.line = e.left ++ [x] ++ right := by rw [Text.line, hright, List.append_assoc]; rfl
    have hlen : e.line.length = e.left.length + right.length + 1 := by
      rw [hline]
      simp only [List.length_append, List.length_singleton]
      omega
    have hcol : st.cursorCol = e.left.length := h.col
    have hrow : st.cursorRow = e.above.length := h.row
    have htable : st.table.Shows (e.above ++ (e.left ++ [x] ++ right) :: e.below) := hline ▸ h.table
    obtain ⟨u, hremove, hu⟩ := removeOne_spec htable
    obtain ⟨t₁, hslide, hfinish⟩ := Option.bind_eq_some_iff.mp hremove
    obtain ⟨t₂, hsetLen, hzero⟩ := Option.bind_eq_some_iff.mp hfinish
    have hshorter : e.line.length - 1 = (e.left ++ right).length := by
      rw [hlen, List.length_append]
      rfl
    have hcount : (e.left ++ right).length - e.left.length = right.length := by
      rw [List.length_append]
      exact Nat.add_sub_cancel_left _ _
    rw [if_neg (by rw [hlen, hcol]; omega), hdelete, hshorter, hcol, hrow, hcount, hslide, Option.bind_some, hsetLen,
      Option.bind_some, hzero, Option.map_some]
    exact ⟨_, rfl, ⟨hu, h.numLines.trans (Text.length_lines_congr rfl rfl), rfl, rfl⟩, rfl⟩

theorem nanoDeleteChar_steps (h : st.Shows e) : Steps (nanoDeleteChar st) st (e.backspace capacity) := by
  have hrow : st.cursorRow = e.above.length := h.row
  have hcol : st.cursorCol = e.left.length := h.col
  rcases List.eq_nil_or_concat' e.left with hleft | ⟨left, x, hleft⟩
  · rcases List.eq_nil_or_concat' e.above with habove | ⟨above, w, habove⟩
    · have hstart : st.cursorCol = 0 ∧ st.cursorRow = 0 := by rw [hcol, hrow, hleft, habove]; exact ⟨rfl, rfl⟩
      rw [nanoDeleteChar, if_pos hstart, Text.backspace, if_pos hleft, if_pos habove]
      exact h.steps
    · have hlines : e.lines = above ++ w :: e.line :: e.below := by
        rw [Text.lines, habove, List.append_assoc, List.singleton_append]
      have htable : st.table.Shows (above ++ w :: e.line :: e.below) := hlines ▸ h.table
      have hnum : st.numLines = (above ++ w :: e.line :: e.below).length := hlines ▸ h.numLines
      have hzero : st.cursorCol = 0 := by rw [hcol, hleft]; rfl
      have hprev : st.cursorRow - 1 = above.length := by
        rw [hrow, habove, List.length_append, List.length_singleton, Nat.add_sub_cancel]
      have hnot : ¬(st.cursorCol = 0 ∧ st.cursorRow = 0) := fun hstart => by
        rw [hrow, habove, List.length_append, List.length_singleton] at hstart
        exact Nat.succ_ne_zero _ hstart.2
      have hlen : st.table.getLen above.length = some w.length := htable.getLen (getElem?_here _ _ _)
      rw [nanoDeleteChar, if_neg hnot, if_pos hzero]
      dsimp only
      rw [hprev, hlen, Option.bind_some, hnum, Text.backspace_eq capacity hleft habove]
      by_cases hfit : w.length + e.line.length < nanoMaxLineLen
      · obtain ⟨u, hmerge, hu⟩ := LineTable.mergeNext_spec htable hfit
        have hle : w.length + e.line.length ≤ capacity.line := Nat.le_sub_one_of_lt hfit
        rw [if_pos hle, hmerge, Option.map_some]
        exact ⟨_, rfl, ⟨hu, rfl, rfl, rfl⟩, rfl⟩
      · have hover : ¬w.length + e.line.length ≤ capacity.line := fun hle => hfit (Nat.lt_of_le_pred (by decide) hle)
        have hsame : above ++ (w ++ []) :: e.line :: e.below = above ++ w :: e.line :: e.below := by rw [List.append_nil]
        rw [if_neg hover, LineTable.mergeNext_of_not htable hfit, Option.map_some]
        exact ⟨_, rfl, ⟨hsame ▸ htable, congrArg List.length hsame.symm, rfl, rfl⟩, rfl⟩
  · have hline : e.line = left ++ [x] ++ e.right := by rw [Text.line, hleft]
    have hpos : ¬st.cursorCol = 0 := by
      rw [hcol, hleft, List.length_append, List.length_singleton]
      exact Nat.succ_ne_zero _
    have hback : e.backspace capacity = { e with left := left } := by
      rw [Text.backspace, if_neg (by rw [hleft]; exact List.append_ne_nil_of_right_ne_nil _ (List.cons_ne_nil _ _)), hleft,
        List.dropLast_concat]
    have htable : st.table.Shows (e.above ++ (left ++ [x] ++ e.right) :: e.below) := hline ▸ h.table
    obtain ⟨u, hremove, hu⟩ := removeOne_spec htable
    obtain ⟨t₁, hslide, hfinish⟩ := Option.bind_eq_some_iff.mp hremove
    obtain ⟨t₂, hsetLen, hzero⟩ := Option.bind_eq_some_iff.mp hfinish
    have hlen : e.line.length = (left ++ e.right).length + 1 := by
      rw [hline]
      simp only [List.length_append, List.length_singleton]
      omega
    have hshort : e.line.length < 2 ^ 32 := Nat.lt_trans (hline ▸ htable.atLine.short) (by decide)
    have hbefore : st.cursorCol - 1 = left.length := by
      rw [hcol, hleft, List.length_append, List.length_singleton, Nat.add_sub_cancel]
    have hcount : e.line.length - st.cursorCol = e.right.length := by
      rw [hcol, Text.line, List.length_append, Nat.add_sub_cancel_left]
    have hless : minus e.line.length 1 = (left ++ e.right).length := by
      rw [minus_of_le (by omega) hshort, hlen, Nat.add_sub_cancel]
    rw [nanoDeleteChar, if_neg (fun hstart => hpos hstart.1), if_neg hpos, h.getLen, Option.bind_some, hback, hcount,
      hbefore, hless, hrow, hslide, Option.bind_some, hsetLen, Option.bind_some, hzero, Option.map_some]
    exact ⟨_, rfl, ⟨hu, h.numLines.trans (Text.length_lines_congr rfl rfl), rfl, rfl⟩, rfl⟩

theorem nanoInsertNewline_steps (h : st.Shows e) : Steps (nanoInsertNewline st) st (e.split capacity) := by
  by_cases hfull : nanoMaxLines ≤ st.numLines
  · have hsame : e.split capacity = e := if_neg (Nat.not_lt.mpr (h.numLines ▸ hfull))
    rw [nanoInsertNewline, if_pos hfull, hsame]
    exact h.steps
  · have hroom : e.lines.length < nanoMaxLines := by
      rw [← h.numLines]
      exact Nat.not_le.mp hfull
    have hsplit : e.split capacity = { above := e.above ++ [e.left], left := [], right := e.right, below := e.below } :=
      if_pos hroom
    have hrow : st.cursorRow = e.above.length := h.row
    have hcol : st.cursorCol = e.left.length := h.col
    have hnum : st.numLines = (e.above ++ (e.left ++ e.right) :: e.below).length := h.numLines
    have hshort : e.line.length < 2 ^ 32 := Nat.lt_trans h.table.atLine.short (by decide)
    have hrest : minus e.line.length st.cursorCol = e.right.length := by
      rw [minus_of_le (h.col ▸ e.col_le) hshort, hcol, Text.line, List.length_append, Nat.add_sub_cancel_left]
    obtain ⟨u, hrun, hu⟩ := LineTable.split_spec (v := e.left) (w := e.right) h.table hroom
    obtain ⟨t₁, hmove, hrun⟩ := Option.bind_eq_some_iff.mp hrun
    obtain ⟨t₂, hcopy, hrun⟩ := Option.bind_eq_some_iff.mp hrun
    obtain ⟨t₃, hnext, hthis⟩ := Option.bind_eq_some_iff.mp hrun
    have htext : u.Shows ((e.above ++ [e.left]) ++ ([] ++ e.right) :: e.below) := by
      rw [List.append_assoc, List.singleton_append, List.nil_append]
      exact hu
    rw [nanoInsertNewline, if_neg hfull, h.getLen, Option.bind_some, hsplit]
    dsimp only
    rw [hrest, hcol, hrow, hnum, hmove, Option.bind_some, hcopy, Option.bind_some, hnext, Option.bind_some, hthis,
      Option.map_some]
    refine ⟨_, rfl, ⟨htext, ?_, ?_, rfl⟩, rfl⟩
    · dsimp only [Text.lines, Text.line]
      simp only [List.length_append, List.length_cons, List.length_nil]
      omega
    · dsimp only [Text.row]
      rw [List.length_append, List.length_singleton]

theorem killLine_steps (h : st.Shows e) : Steps (killLine st) st e.kill := by
  have hrow : st.cursorRow = e.above.length := h.row
  have hcol : st.cursorCol = e.left.length := h.col
  have hleft : Holds (st.table.char e.above.length) e.left := h.table.atLine.chars.left
  obtain ⟨u, hfinish, hu⟩ := finishLine_spec h.table (fun r _ => ⟨rfl, rfl⟩) hleft
    (Nat.lt_of_le_of_lt e.col_le h.table.atLine.short)
  obtain ⟨t₁, hsetLen, hzero⟩ := Option.bind_eq_some_iff.mp hfinish
  have htext : u.Shows (e.above ++ (e.left ++ []) :: e.below) := by
    rw [List.append_nil]
    exact hu
  rw [killLine, hrow, hcol, hsetLen, Option.bind_some, hzero, Option.map_some]
  exact ⟨_, rfl, ⟨htext, h.numLines.trans (Text.length_lines_congr rfl rfl), rfl, rfl⟩, rfl⟩

/-! ## Moves -/

theorem NanoState.Shows.moved {e' : Text UInt8} (h : st.Shows e) (hlines : e'.lines = e.lines) {row col : Nat}
    (hrow : row = e'.row) (hcol : col = e'.col) : ({ st with cursorRow := row, cursorCol := col } : NanoState).Shows e' :=
  ⟨hlines ▸ h.table, hlines ▸ h.numLines, hrow, hcol⟩

theorem atRow_steps (h : st.Shows e) (row : Nat) :
    Steps (atRow st row) st (e.goTo (min row (e.lines.length - 1)) e.col) := by
  have hpos : 0 < e.lines.length := List.length_pos_iff.mpr e.lines_ne_nil
  have hlast : minus st.numLines 1 = e.lines.length - 1 := by
    rw [h.numLines]
    exact minus_of_le hpos (Nat.lt_of_le_of_lt h.table.few (by decide))
  have hrow : (if st.numLines ≤ row then minus st.numLines 1 else row) = min row (e.lines.length - 1) := by
    rw [hlast, h.numLines]
    split <;> omega
  have hin : min row (e.lines.length - 1) < e.lines.length := by omega
  have hline := List.getElem?_eq_getElem hin
  obtain ⟨hlines, hat, hcol, -⟩ := e.goTo_spec hline e.col
  rw [atRow, nanoClampCursor]
  dsimp only
  rw [hrow, h.table.getLen hline, Option.map_some]
  refine ⟨_, rfl, h.moved hlines hat.symm ?_, rfl⟩
  rw [hcol, h.col]
  split <;> omega

theorem up_steps (h : st.Shows e) (n : Nat) : Steps (atRow st (st.cursorRow - n)) st (e.up n) := by
  have hstep := atRow_steps h (st.cursorRow - n)
  have hle : st.cursorRow - n ≤ e.lines.length - 1 := by
    rw [h.row, e.length_lines]
    omega
  rw [Nat.min_eq_left hle, h.row] at hstep
  rw [h.row]
  exact hstep

theorem pageUp_steps (h : st.Shows e) : Steps (pageUp st) st (e.up 24) := by
  have hrow : (if 24 ≤ st.cursorRow then st.cursorRow - 24 else 0) = st.cursorRow - 24 := by
    split <;> omega
  rw [pageUp, hrow]
  exact up_steps h 24

theorem previousRow_eq (row : Nat) : (if 0 < row then row - 1 else row) = row - 1 := by
  split <;> omega

theorem down_steps (h : st.Shows e) (n : Nat) : Steps (atRow st (st.cursorRow + n)) st (e.down n) := by
  have hstep := atRow_steps h (st.cursorRow + n)
  rw [h.row] at hstep ⊢
  exact hstep

theorem nextRow_steps (h : st.Shows e) :
    Steps (atRow st (if st.cursorRow < minus st.numLines 1 then st.cursorRow + 1 else st.cursorRow)) st (e.down 1) := by
  have hlast : minus st.numLines 1 = e.lines.length - 1 := by
    rw [h.numLines]
    exact minus_of_le (List.length_pos_iff.mpr e.lines_ne_nil) (Nat.lt_of_le_of_lt h.table.few (by decide))
  have hrow : (if st.cursorRow < e.lines.length - 1 then st.cursorRow + 1 else st.cursorRow) =
      min (e.row + 1) (e.lines.length - 1) := by
    have hcount := e.length_lines
    rw [h.row]
    split <;> omega
  have hstep := atRow_steps h (min (e.row + 1) (e.lines.length - 1))
  rw [Nat.min_assoc, Nat.min_self] at hstep
  rw [hlast, hrow]
  exact hstep

theorem home_steps (h : st.Shows e) : Steps (some { st with cursorCol := 0 }) st e.home := by
  have hlines : e.home.lines = e.lines := rfl
  exact ⟨_, rfl, h.moved hlines h.row rfl, rfl⟩

theorem atEnd_steps (h : st.Shows e) : Steps (atEnd st) st e.toEnd := by
  have hlines : e.toEnd.lines = e.lines := by
    change e.above ++ (e.line ++ []) :: e.below = e.above ++ e.line :: e.below
    rw [List.append_nil]
  rw [atEnd, h.getLen, Option.map_some]
  exact ⟨_, rfl, h.moved hlines h.row rfl, rfl⟩

theorem cursorLeft_steps (h : st.Shows e) : Steps (cursorLeft st) st e.back := by
  have hrow : st.cursorRow = e.above.length := h.row
  have hcol : st.cursorCol = e.left.length := h.col
  rcases List.eq_nil_or_concat' e.left with hleft | ⟨left, x, hleft⟩
  · have hzero : st.cursorCol = 0 := by rw [hcol, hleft]; rfl
    rw [cursorLeft, if_neg (Nat.not_lt.mpr (Nat.le_of_eq hzero)), Text.back, hleft, List.getLast?_nil]
    dsimp only
    rcases List.eq_nil_or_concat' e.above with habove | ⟨above, w, habove⟩
    · have hfirst : st.cursorRow = 0 := by rw [hrow, habove]; rfl
      rw [if_neg (Nat.not_lt.mpr (Nat.le_of_eq hfirst)), if_pos habove]
      exact h.steps
    · have hne : e.above ≠ [] := by
        rw [habove]
        exact List.append_ne_nil_of_right_ne_nil _ (List.cons_ne_nil _ _)
      have hlines : e.lines = above ++ w :: e.line :: e.below := by
        rw [Text.lines, habove, List.append_assoc, List.singleton_append]
      have hprev : st.cursorRow - 1 = above.length := by
        rw [hrow, habove, List.length_append, List.length_singleton, Nat.add_sub_cancel]
      have hlen : st.table.getLen above.length = some w.length :=
        h.table.getLen (by rw [hlines]; exact getElem?_here _ _ _)
      rw [if_pos (by rw [hrow]; exact List.length_pos_iff.mpr hne), if_neg hne, Text.previousEnd_eq habove, atEnd]
      dsimp only
      rw [hprev, hlen, Option.map_some]
      refine ⟨_, rfl, h.moved ?_ rfl rfl, rfl⟩
      rw [hlines]
      change above ++ (w ++ []) :: e.line :: e.below = above ++ w :: e.line :: e.below
      rw [List.append_nil]
  · have hpos : 0 < st.cursorCol := by
      rw [hcol, hleft, List.length_append, List.length_singleton]
      exact Nat.succ_pos _
    rw [cursorLeft, if_pos hpos, Text.back, hleft, List.getLast?_concat, List.dropLast_concat]
    refine ⟨_, rfl, h.moved ?_ h.row ?_, rfl⟩
    · change e.above ++ (left ++ x :: e.right) :: e.below = e.above ++ (e.left ++ e.right) :: e.below
      rw [hleft, List.append_assoc, List.singleton_append]
    · change st.cursorCol - 1 = left.length
      rw [hcol, hleft, List.length_append, List.length_singleton, Nat.add_sub_cancel]

theorem cursorRight_steps (h : st.Shows e) : Steps (cursorRight st) st e.forth := by
  have hcol : st.cursorCol = e.left.length := h.col
  have hlen : e.line.length = e.left.length + e.right.length := List.length_append
  rw [cursorRight, h.getLen, Option.map_some]
  cases hright : e.right with
  | cons x right =>
    rw [hright, List.length_cons] at hlen
    rw [if_pos (by omega), Text.forth, hright]
    refine ⟨_, rfl, h.moved ?_ h.row ?_, rfl⟩
    · change e.above ++ (e.left ++ [x] ++ right) :: e.below = e.above ++ (e.left ++ e.right) :: e.below
      rw [hright, List.append_assoc, List.singleton_append]
    · change st.cursorCol + 1 = (e.left ++ [x]).length
      rw [hcol, List.length_append, List.length_singleton]
  | nil =>
    rw [hright, List.length_nil] at hlen
    rw [if_neg (by omega), Text.forth, hright]
    dsimp only
    have hcount := e.length_lines
    by_cases hbelow : e.below = []
    · rw [hbelow, List.length_nil] at hcount
      rw [if_neg (by rw [h.numLines, h.row]; omega), if_pos hbelow]
      exact h.steps
    · have hpos := List.length_pos_iff.mpr hbelow
      have hin : e.row + 1 < e.lines.length := by omega
      obtain ⟨hlines, hat, hzero, -⟩ := e.goTo_spec (List.getElem?_eq_getElem hin) 0
      rw [if_pos (by rw [h.numLines, h.row]; exact hin), if_neg hbelow]
      refine ⟨_, rfl, h.moved hlines ?_ ?_, rfl⟩
      · rw [hat, h.row]
      · rw [hzero, Nat.zero_min]

end Steps

/-! ## Keys -/

/-- What a key asks for. -/
inductive Command
  | nothing | showHelp | home | toEnd | up (n : Nat) | down (n : Nat) | back | forth
  | kill | join | split | backspace | deleteForward | tab | insert (c : UInt8)
  deriving DecidableEq

/-- The command of a key; Ctrl+C, saving and leaving change no text. -/
def keyCommand (key : Int) : Command :=
  if key = 7 then .showHelp
  else if key = 1 ∨ key = keyHome then .home
  else if key = 5 ∨ key = keyEnd then .toEnd
  else if key = 21 ∨ key = keyPgup then .up 24
  else if key = 4 ∨ key = keyPgdn then .down 24
  else if key = keyUp then .up 1
  else if key = keyDown then .down 1
  else if key = keyLeft then .back
  else if key = keyRight then .forth
  else if key = 11 then .kill
  else if key = 10 then .join
  else if key = 13 then .split
  else if key = 8 ∨ key = 0x7F then .backspace
  else if key = keyDelete then .deleteForward
  else if key = 9 then .tab
  else if 32 ≤ key ∧ key < 127 then .insert (UInt8.ofNat key.toNat)
  else .nothing

/-- A command on a text; a tab is four blanks. -/
def Command.apply (e : Text UInt8) : Command → Text UInt8
  | nothing | showHelp => e
  | home => e.home
  | toEnd => e.toEnd
  | up n => e.up n
  | down n => e.down n
  | back => e.back
  | forth => e.forth
  | kill => e.kill
  | join => e.join capacity
  | split => e.split capacity
  | backspace => e.backspace capacity
  | deleteForward => e.deleteForward capacity
  | tab => (fun e : Text UInt8 => e.insert capacity 0x20)^[nanoTabSize] e
  | insert c => e.insert capacity c

/-- The reference editor: a text, and whether the help is shown. -/
structure Session where
  text : Text UInt8
  help : Bool

/-- A key closes the help, and is a command otherwise. -/
def Session.key (s : Session) (key : Int) : Session :=
  if s.help then { s with help := false }
  else
    match keyCommand key with
    | .showHelp => { s with help := true }
    | c => { s with text := c.apply s.text }

/-- The editor shows what the reference editor has. -/
structure NanoState.Follows (st : NanoState) (s : Session) : Prop where
  shows : st.Shows s.text
  help : st.showHelp = s.help

section Keys

variable {st : NanoState} {s : Session}

theorem Session.key_of_command {key : Int} {c : Command} (hhelp : s.help = false) (hcommand : keyCommand key = c)
    (hne : c ≠ .showHelp) : s.key key = { s with text := c.apply s.text } := by
  rw [Session.key, hhelp, if_neg Bool.false_ne_true, hcommand]
  cases c
  case showHelp => exact absurd rfl hne
  all_goals rfl

theorem Steps.follows {r : Option NanoState} {key : Int} (h : st.Follows s) (hhelp : s.help = false) (c : Command)
    (hcommand : keyCommand key = c) (hne : c ≠ .showHelp) (hr : Steps r st (c.apply s.text)) :
    ∃ st', r = some st' ∧ st'.Follows (s.key key) := by
  obtain ⟨st', hr, hshows, hsame⟩ := hr
  rw [Session.key_of_command hhelp hcommand hne]
  exact ⟨st', hr, hshows, hsame.trans h.help⟩

theorem keyCommand_of_printable {key : Int} (h : 32 ≤ key ∧ key < 127) :
    keyCommand key = .insert (UInt8.ofNat key.toNat) := by
  unfold keyCommand keyUp keyDown keyLeft keyRight keyHome keyEnd keyPgup keyPgdn keyDelete
  rw [if_neg (by omega), if_neg (by omega), if_neg (by omega), if_neg (by omega), if_neg (by omega), if_neg (by omega),
    if_neg (by omega), if_neg (by omega), if_neg (by omega), if_neg (by omega), if_neg (by omega), if_neg (by omega),
    if_neg (by omega), if_neg (by omega), if_neg (by omega), if_pos h]

theorem editKey_follows (h : st.Follows s) (hhelp : s.help = false) (key : Int) :
    ∃ st', editKey key st = some st' ∧ st'.Follows (s.key key) := by
  have hshows := h.shows
  have hdone {r : Option NanoState} (c : Command) (hcommand : keyCommand key = c) (hne : c ≠ .showHelp)
      (hr : Steps r st (c.apply s.text)) := Steps.follows h hhelp c hcommand hne hr
  unfold editKey
  by_cases hk : key = 24
  · rw [if_pos hk]
    exact hdone .nothing (by rw [hk]; rfl) (by decide)
      ⟨_, rfl, ⟨hshows.table, hshows.numLines, hshows.row, hshows.col⟩, rfl⟩
  rw [if_neg hk]
  by_cases hk : key = 7
  · rw [if_pos hk]
    refine ⟨_, rfl, ?_⟩
    rw [Session.key, hhelp, if_neg Bool.false_ne_true, hk]
    exact ⟨⟨hshows.table, hshows.numLines, hshows.row, hshows.col⟩, rfl⟩
  rw [if_neg hk]
  by_cases hk : key = 3
  · rw [if_pos hk]
    exact hdone .nothing (by rw [hk]; rfl) (by decide) hshows.steps
  rw [if_neg hk]
  by_cases hk : key = 1
  · rw [if_pos hk]
    exact hdone .home (by rw [hk]; rfl) (by decide) (home_steps hshows)
  rw [if_neg hk]
  by_cases hk : key = 5
  · rw [if_pos hk]
    exact hdone .toEnd (by rw [hk]; rfl) (by decide) (atEnd_steps hshows)
  rw [if_neg hk]
  by_cases hk : key = 21
  · rw [if_pos hk]
    exact hdone (.up 24) (by rw [hk]; rfl) (by decide) (pageUp_steps hshows)
  rw [if_neg hk]
  by_cases hk : key = 4
  · rw [if_pos hk]
    exact hdone (.down 24) (by rw [hk]; rfl) (by decide) (down_steps hshows 24)
  rw [if_neg hk]
  by_cases hk : key = 11
  · rw [if_pos hk]
    exact hdone .kill (by rw [hk]; rfl) (by decide) (killLine_steps hshows)
  rw [if_neg hk]
  by_cases hjoin : key = 10
  · rw [if_pos hjoin]
    exact hdone .join (by rw [hjoin]; rfl) (by decide) (joinNext_steps hshows)
  rw [if_neg hjoin]
  by_cases hk : key = keyUp
  · rw [if_pos hk]
    rw [previousRow_eq]
    exact hdone (.up 1) (by rw [hk]; rfl) (by decide) (up_steps hshows 1)
  rw [if_neg hk]
  by_cases hk : key = keyDown
  · rw [if_pos hk]
    exact hdone (.down 1) (by rw [hk]; rfl) (by decide) (nextRow_steps hshows)
  rw [if_neg hk]
  by_cases hk : key = keyLeft
  · rw [if_pos hk]
    exact hdone .back (by rw [hk]; rfl) (by decide) (cursorLeft_steps hshows)
  rw [if_neg hk]
  by_cases hk : key = keyRight
  · rw [if_pos hk]
    exact hdone .forth (by rw [hk]; rfl) (by decide) (cursorRight_steps hshows)
  rw [if_neg hk]
  by_cases hk : key = keyHome
  · rw [if_pos hk]
    exact hdone .home (by rw [hk]; rfl) (by decide) (home_steps hshows)
  rw [if_neg hk]
  by_cases hk : key = keyEnd
  · rw [if_pos hk]
    exact hdone .toEnd (by rw [hk]; rfl) (by decide) (atEnd_steps hshows)
  rw [if_neg hk]
  by_cases hk : key = keyPgup
  · rw [if_pos hk]
    exact hdone (.up 24) (by rw [hk]; rfl) (by decide) (pageUp_steps hshows)
  rw [if_neg hk]
  by_cases hk : key = keyPgdn
  · rw [if_pos hk]
    exact hdone (.down 24) (by rw [hk]; rfl) (by decide) (down_steps hshows 24)
  rw [if_neg hk]
  by_cases hsplit : key = 10 ∨ key = 13
  · rw [if_pos hsplit]
    exact hdone .split (by rw [hsplit.resolve_left hjoin]; rfl) (by decide) (nanoInsertNewline_steps hshows)
  rw [if_neg hsplit]
  by_cases hk : key = 8 ∨ key = 0x7F
  · rw [if_pos hk]
    exact hdone .backspace (by rcases hk with hk | hk <;> rw [hk] <;> rfl) (by decide) (nanoDeleteChar_steps hshows)
  rw [if_neg hk]
  by_cases hk : key = keyDelete
  · rw [if_pos hk]
    exact hdone .deleteForward (by rw [hk]; rfl) (by decide) (nanoDeleteForward_steps hshows)
  rw [if_neg hk]
  by_cases hk : key = 9
  · rw [if_pos hk]
    exact hdone .tab (by rw [hk]; rfl) (by decide) (nanoInsertTab_steps hshows)
  rw [if_neg hk]
  by_cases hk : 32 ≤ key ∧ key < 127
  · rw [if_pos hk]
    exact hdone (.insert (UInt8.ofNat key.toNat)) (keyCommand_of_printable hk) (by intro hc; cases hc)
      (nanoInsertChar_steps hshows _)
  rw [if_neg hk]
  have hreturn : ¬key = 13 := fun h13 => hsplit (Or.inr h13)
  exact hdone .nothing (by simp [keyCommand, *]) (by decide) hshows.steps

end Keys

end Chicago95.Stage2.Nano
