/-
# Chicago95.Stage2.NanoLines — what the editor's table of lines holds, and how moving lines changes it.

A table shows a list of lines when each of its first rows holds one of them, ended by a zero and shorter than a row. The
loops of the editor keep rows apart: each is characterized by the one row it writes (`HoldsLine`) and by the rows it
leaves (`SameLine`). From these come the two moves, and from them a join and a split of lines.
-/
import Mathlib
import Chicago95.Stage2.Nano

namespace Chicago95.Stage2.Nano

open Chicago95.Lib.Loop Chicago95.Lib.Cells
open Function (update_of_ne update_self update_apply update)

theorem minus_of_le {a b : Nat} (hle : b ≤ a) (ha : a < 2 ^ 32) : minus a b = a - b := by
  rw [minus, Nat.sub_add_comm hle, Nat.add_mod_right]
  exact Nat.mod_eq_of_lt (Nat.lt_of_le_of_lt (Nat.sub_le a b) ha)

theorem getElem?_here (above : List (List UInt8)) (w : List UInt8) (below : List (List UInt8)) :
    (above ++ w :: below)[above.length]? = some w := by
  rw [List.getElem?_append_right (Nat.le_refl _), Nat.sub_self, List.getElem?_cons_zero]

theorem getElem?_past (above : List (List UInt8)) (w : List UInt8) (below : List (List UInt8)) (k : Nat) :
    (above ++ w :: below)[above.length + k + 1]? = below[k]? := by
  rw [Nat.add_assoc, List.getElem?_append_right (Nat.le_add_right _ _), Nat.add_sub_cancel_left, List.getElem?_cons_succ]

namespace LineTable

/-- Row `r` holds a line, with its zero and its length. -/
structure HoldsLine (t : LineTable) (r : Nat) (w : List UInt8) : Prop where
  len : t.len r = w.length
  short : w.length < nanoMaxLineLen
  ended : t.char r w.length = 0
  chars : Holds (t.char r) w

/-- The first rows hold a list of lines. -/
structure Shows (t : LineTable) (ls : List (List UInt8)) : Prop where
  few : ls.length ≤ nanoMaxLines
  line : ∀ r w, ls[r]? = some w → t.HoldsLine r w

/-- A row that stays as it is. -/
def SameLine (t u : LineTable) (r : Nat) : Prop := u.len r = t.len r ∧ u.char r = t.char r

theorem HoldsLine.same {t u : LineTable} {r : Nat} {w : List UInt8} (h : t.HoldsLine r w) (hs : SameLine t u r) :
    u.HoldsLine r w := by
  refine ⟨hs.1.trans h.len, h.short, ?_, ?_⟩
  · rw [hs.2]
    exact h.ended
  · rw [hs.2]
    exact h.chars

theorem SameLine.trans {t u v : LineTable} {r : Nat} (h : SameLine t u r) (h' : SameLine u v r) : SameLine t v r :=
  ⟨h'.1.trans h.1, h'.2.trans h.2⟩

theorem Shows.lt {t : LineTable} {ls : List (List UInt8)} (h : t.Shows ls) {r : Nat} {w : List UInt8}
    (hr : ls[r]? = some w) : r < nanoMaxLines :=
  Nat.lt_of_lt_of_le (List.getElem?_eq_some_iff.mp hr).1 h.few

/-! ## Accesses -/

section Accesses

variable {t : LineTable} {r : Nat}

theorem getLen_of_lt (hr : r < nanoMaxLines) : t.getLen r = some (t.len r) := if_pos hr

theorem setLen_of_lt (hr : r < nanoMaxLines) (n : Nat) :
    t.setLen r n = some { t with len := update t.len r n } := if_pos hr

theorem getChar_of_lt (hr : r < nanoMaxLines) {c : Nat} (hc : c < nanoMaxLineLen) :
    t.getChar r c = some (t.char r c) := by
  rw [getChar, if_pos hr, get_of_lt hc]

theorem onLine_of_lt (hr : r < nanoMaxLines) {f : (Nat → UInt8) → Option (Nat → UInt8)} {a : Nat → UInt8}
    (hf : f (t.char r) = some a) : t.onLine r f = some { t with char := update t.char r a } := by
  rw [onLine, if_pos hr, hf]
  rfl

theorem setChar_of_lt (hr : r < nanoMaxLines) {c : Nat} (hc : c < nanoMaxLineLen) (x : UInt8) :
    t.setChar r c x = some { t with char := update t.char r (update (t.char r) c x) } :=
  onLine_of_lt hr (put_of_lt hc x)

theorem Shows.getLen {ls : List (List UInt8)} (h : t.Shows ls) {w : List UInt8} (hr : ls[r]? = some w) :
    t.getLen r = some w.length := by
  rw [getLen_of_lt (h.lt hr), (h.line r w hr).len]

end Accesses

/-! ## One line -/

theorem copyChars_spec (t : LineTable) {dst to' src from' n : Nat} (hne : src ≠ dst) (hdst : dst < nanoMaxLines)
    (hsrc : src < nanoMaxLines) (hto : to' + n ≤ nanoMaxLineLen) (hfrom : from' + n ≤ nanoMaxLineLen) :
    ∃ u, t.copyChars dst to' src from' n = some u ∧ (∀ r, u.len r = t.len r) ∧ (∀ r, r ≠ dst → u.char r = t.char r) ∧
      ∀ i, u.char dst i = if to' ≤ i ∧ i < to' + n then t.char src (from' + (i - to')) else t.char dst i :=
  forEachM_induction (n := n) (s := t)
    (P := fun k u => (∀ r, u.len r = t.len r) ∧ (∀ r, r ≠ dst → u.char r = t.char r) ∧
      ∀ i, u.char dst i = if to' ≤ i ∧ i < to' + k then t.char src (from' + (i - to')) else t.char dst i)
    ⟨fun _ => rfl, fun _ _ => rfl, fun i => (if_neg (by omega)).symm⟩ (fun k u hk ⟨hlen, hother, hrow⟩ => by
      rw [getChar_of_lt hsrc (by omega), Option.bind_some, setChar_of_lt hdst (by omega)]
      refine ⟨_, rfl, hlen, fun r hr => ?_, fun i => ?_⟩
      · exact (update_of_ne hr _ _).trans (hother r hr)
      · dsimp only
        rw [update_self, update_apply, hother src hne, hrow i]
        by_cases hi : i = to' + k
        · rw [if_pos hi, if_pos (by omega), hi, Nat.add_sub_cancel_left]
        · rw [if_neg hi]
          by_cases hin : to' ≤ i ∧ i < to' + k
          · rw [if_pos hin, if_pos (by omega)]
          · rw [if_neg hin, if_neg (by omega)])

theorem endLine_spec (t : LineTable) {r : Nat} {w : List UInt8} (hr : r < nanoMaxLines) (hw : w.length < nanoMaxLineLen)
    (hchars : Holds (t.char r) w) :
    ∃ u, t.endLine r w.length = some u ∧ u.HoldsLine r w ∧ ∀ s, s ≠ r → SameLine t u s := by
  rw [endLine, setChar_of_lt hr hw, Option.bind_some, setLen_of_lt hr]
  refine ⟨_, rfl, ⟨update_self _ _ _, hw, ?_, ?_⟩, fun s hs => ?_⟩
  · dsimp only
    rw [update_self, update_self]
  · dsimp only
    rw [update_self]
    exact hchars.congr fun i hi => update_of_ne (Nat.ne_of_lt hi) _ _
  · exact ⟨update_of_ne hs _ _, update_of_ne hs _ _⟩

theorem append_spec (t : LineTable) {dst src from' : Nat} {v w : List UInt8} (hne : src ≠ dst) (hdst : dst < nanoMaxLines)
    (hsrc : src < nanoMaxLines) (hv : Holds (t.char dst) v) (hw : Holds (fun i => t.char src (from' + i)) w)
    (hfit : v.length + w.length < nanoMaxLineLen) (hfrom : from' + w.length ≤ nanoMaxLineLen) :
    ∃ u, ((t.copyChars dst v.length src from' w.length).bind fun t => t.endLine dst (v.length + w.length)) = some u ∧
      u.HoldsLine dst (v ++ w) ∧ ∀ r, r ≠ dst → SameLine t u r := by
  obtain ⟨u, hcopy, hlen, hother, hrow⟩ := t.copyChars_spec hne hdst hsrc (Nat.le_of_lt hfit) hfrom
  have hchars : Holds (u.char dst) (v ++ w) := by
    refine (hv.congr fun i hi => ?_).append (hw.congr fun i hi => ?_)
    · rw [hrow i, if_neg (by omega)]
    · rw [hrow (v.length + i), if_pos (by omega), Nat.add_sub_cancel_left]
  have hshort : (v ++ w).length < nanoMaxLineLen := by rwa [List.length_append]
  obtain ⟨u', hend, hholds, hsame⟩ := u.endLine_spec hdst hshort hchars
  rw [List.length_append] at hend
  rw [hcopy, Option.bind_some, hend]
  exact ⟨u', rfl, hholds, fun r hr => SameLine.trans ⟨hlen r, hother r hr⟩ (hsame r hr)⟩

theorem moveLine_spec (t : LineTable) {dst src : Nat} {w : List UInt8} (hne : src ≠ dst) (hdst : dst < nanoMaxLines)
    (hsrc : src < nanoMaxLines) (h : t.HoldsLine src w) :
    ∃ u, t.moveLine dst src = some u ∧ u.HoldsLine dst w ∧ ∀ r, r ≠ dst → SameLine t u r := by
  have hpart : Holds (fun i => t.char src (0 + i)) w := by
    simp only [Nat.zero_add]
    exact h.chars
  have hspec := t.append_spec (v := []) hne hdst hsrc (fun i x hx => absurd hx (by simp)) hpart
    (by rw [List.length_nil, Nat.zero_add]; exact h.short) (by rw [Nat.zero_add]; exact Nat.le_of_lt h.short)
  rw [List.length_nil, Nat.zero_add, List.nil_append] at hspec
  rw [moveLine, getLen_of_lt hsrc, h.len]
  exact hspec

/-! ## Many lines -/

theorem moveUp_spec {t : LineTable} {ls : List (List UInt8)} {from' : Nat} (hfew : ls.length ≤ nanoMaxLines)
    (hone : 1 ≤ ls.length) (h : ∀ r w, from' < r → ls[r]? = some w → t.HoldsLine r w) :
    ∃ u, t.moveUp from' ls.length = some u ∧ (∀ r < from', SameLine t u r) ∧
      ∀ r w, from' ≤ r → ls[r + 1]? = some w → u.HoldsLine r w := by
  have hcount : minus ls.length 1 = ls.length - 1 := minus_of_le hone (Nat.lt_of_le_of_lt hfew (by decide))
  -- after `k` passes the first `k` of the lines have moved
  let moving (k : Nat) (u : LineTable) : Prop := (∀ r < from', SameLine t u r) ∧
    (∀ r w, from' ≤ r → r < from' + k → ls[r + 1]? = some w → u.HoldsLine r w) ∧
    ∀ r w, from' + k < r → ls[r]? = some w → u.HoldsLine r w
  obtain ⟨u, hrun, hbelow, hmoved, -⟩ : ∃ u, forEachM (ls.length - 1 - from')
      (fun k (t : LineTable) => t.moveLine (from' + k) (from' + k + 1)) t = some u ∧ moving (ls.length - 1 - from') u :=
    forEachM_induction (P := moving)
    ⟨fun _ _ => ⟨rfl, rfl⟩, fun r w hr hk => absurd hk (by omega), h⟩ (fun k u hk ⟨hbelow, hmoved, hahead⟩ => by
      have hin : from' + k + 1 < ls.length := by omega
      have hrow : from' + k + 1 < nanoMaxLines := Nat.lt_of_lt_of_le hin hfew
      obtain ⟨v, hmove, hline, hsame⟩ := u.moveLine_spec (Nat.succ_ne_self _) (Nat.lt_of_succ_lt hrow) hrow
        (hahead (from' + k + 1) _ (Nat.lt_succ_self _) (List.getElem?_eq_getElem hin))
      refine ⟨v, hmove, fun r hr => (hbelow r hr).trans (hsame r (by omega)), fun r w hr hlt hw => ?_, fun r w hr hw => ?_⟩
      · by_cases hlast : r = from' + k
        · subst hlast
          rw [List.getElem?_eq_getElem hin] at hw
          rw [← Option.some.inj hw]
          exact hline
        · exact (hmoved r w hr (by omega) hw).same (hsame r hlast)
      · exact (hahead r w (by omega) hw).same (hsame r (by omega)))
  refine ⟨u, ?_, hbelow, fun r w hr hw => hmoved r w hr ?_ hw⟩
  · rw [moveUp, hcount]
    exact hrun
  · have hlt := (List.getElem?_eq_some_iff.mp hw).1
    omega

theorem moveDown_spec {t : LineTable} {ls : List (List UInt8)} {from' : Nat} (hfew : ls.length < nanoMaxLines)
    (h : ∀ r w, ls[r]? = some w → t.HoldsLine r w) :
    ∃ u, t.moveDown from' ls.length = some u ∧ (∀ r < from', r < ls.length → SameLine t u r) ∧
      ∀ r w, from' ≤ r → ls[r]? = some w → u.HoldsLine (r + 1) w := by
  -- after `k` passes the last `k` of the lines have moved
  let moving (k : Nat) (u : LineTable) : Prop := (∀ r, r ≤ ls.length - k → r < ls.length → SameLine t u r) ∧
    ∀ r w, ls.length - k ≤ r → ls[r]? = some w → u.HoldsLine (r + 1) w
  obtain ⟨u, hrun, hbelow, hmoved⟩ : ∃ u, t.moveDown from' ls.length = some u ∧ moving (ls.length - from') u :=
    forEachM_induction (P := moving)
    ⟨fun _ _ _ => ⟨rfl, rfl⟩, fun r w hr hw => absurd (List.getElem?_eq_some_iff.mp hw).1 (by omega)⟩
    (fun k u hk ⟨hbelow, hmoved⟩ => by
      have hin : ls.length - k - 1 < ls.length := by omega
      have hline := (h _ _ (List.getElem?_eq_getElem hin)).same (hbelow _ (Nat.sub_le _ _) hin)
      have hrow : ls.length - k < nanoMaxLines := by omega
      obtain ⟨v, hmove, hheld, hsame⟩ := u.moveLine_spec (by omega) hrow (Nat.lt_of_le_of_lt (Nat.sub_le _ _) hrow) hline
      refine ⟨v, hmove, fun r hr hlt => (hbelow r (by omega) hlt).trans (hsame r (by omega)), fun r w hr hw => ?_⟩
      by_cases hfirst : r = ls.length - k - 1
      · subst hfirst
        rw [List.getElem?_eq_getElem hin] at hw
        rw [← Option.some.inj hw, Nat.sub_add_cancel (by omega)]
        exact hheld
      · exact (hmoved r w (by omega) hw).same (hsame _ (by omega)))
  refine ⟨u, hrun, fun r hr hlt => hbelow r (by omega) hlt, fun r w hr hw => hmoved r w ?_ hw⟩
  · have hlt := (List.getElem?_eq_some_iff.mp hw).1
    omega

/-! ## Lines changed, joined and split -/

section Edits

variable {t u : LineTable} {above below : List (List UInt8)} {v w : List UInt8}

theorem Shows.atLine (h : t.Shows (above ++ w :: below)) : t.HoldsLine above.length w :=
  h.line above.length w (getElem?_here above w below)

theorem Shows.lineLt (h : t.Shows (above ++ w :: below)) : above.length < nanoMaxLines := by
  have hfew := h.few
  rw [List.length_append, List.length_cons] at hfew
  omega

theorem Shows.replace (h : t.Shows (above ++ w :: below)) (hv : u.HoldsLine above.length v)
    (hsame : ∀ r, r ≠ above.length → SameLine t u r) : u.Shows (above ++ v :: below) := by
  refine ⟨?_, fun r x hr => ?_⟩
  · have hfew := h.few
    rw [List.length_append, List.length_cons] at hfew ⊢
    exact hfew
  · by_cases hat : r = above.length
    · subst hat
      rw [getElem?_here] at hr
      rw [← Option.some.inj hr]
      exact hv
    · refine (h.line r x ?_).same (hsame r hat)
      rcases Nat.lt_or_gt_of_ne hat with hlt | hgt
      · rw [List.getElem?_append_left hlt] at hr ⊢
        exact hr
      · obtain ⟨k, rfl⟩ := Nat.exists_eq_add_of_lt hgt
        rw [getElem?_past] at hr ⊢
        exact hr

theorem mergeNext_spec (h : t.Shows (above ++ v :: w :: below)) (hfit : v.length + w.length < nanoMaxLineLen) :
    ∃ u, mergeNext t (above ++ v :: w :: below).length above.length =
        some (some (u, (above ++ (v ++ w) :: below).length)) ∧ u.Shows (above ++ (v ++ w) :: below) := by
  have hnext : (above ++ v :: w :: below)[above.length + 1]? = some w := getElem?_past above v (w :: below) 0
  have hw := h.line _ w hnext
  have hpart : Holds (fun i => t.char (above.length + 1) (0 + i)) w := by
    simp only [Nat.zero_add]
    exact hw.chars
  obtain ⟨t₁, happend, hheld, hsame⟩ := t.append_spec (Nat.succ_ne_self above.length) h.lineLt (h.lt hnext)
    h.atLine.chars hpart hfit (by rw [Nat.zero_add]; exact Nat.le_of_lt hw.short)
  have hlength : 1 ≤ (above ++ v :: w :: below).length := by
    rw [List.length_append, List.length_cons]
    omega
  obtain ⟨t₂, hmove, hkept, hmoved⟩ := @moveUp_spec t₁ (above ++ v :: w :: below) (above.length + 1) h.few hlength
    fun r x hr hx => (h.line r x hx).same (hsame r (by omega))
  have hcount : minus (above ++ v :: w :: below).length 1 = (above ++ (v ++ w) :: below).length := by
    rw [minus_of_le hlength (Nat.lt_of_le_of_lt h.few (by decide))]
    simp only [List.length_append, List.length_cons]
    omega
  rw [Option.bind_eq_some_iff] at happend
  obtain ⟨t₀, hcopy, hend⟩ := happend
  refine ⟨t₂, ?_, ?_, fun r x hr => ?_⟩
  · rw [mergeNext, getLen_of_lt h.lineLt, h.atLine.len, Option.bind_some, h.getLen hnext, Option.bind_some, if_pos hfit,
      hcopy, Option.bind_some, hend, Option.bind_some, hmove, Option.map_some, hcount]
  · rw [← hcount, minus_of_le hlength (Nat.lt_of_le_of_lt h.few (by decide))]
    exact Nat.le_trans (Nat.sub_le _ _) h.few
  · rcases Nat.lt_trichotomy r above.length with hlt | rfl | hgt
    · rw [List.getElem?_append_left hlt] at hr
      refine ((h.line r x ?_).same (hsame r (by omega))).same (hkept r (by omega))
      rw [List.getElem?_append_left hlt, hr]
    · rw [List.getElem?_append_right (Nat.le_refl _), Nat.sub_self, List.getElem?_cons_zero] at hr
      rw [← Option.some.inj hr]
      exact hheld.same (hkept _ (Nat.lt_succ_self _))
    · refine hmoved r x hgt ?_
      obtain ⟨k, rfl⟩ := Nat.exists_eq_add_of_lt hgt
      rw [getElem?_past] at hr
      exact (getElem?_past above v (w :: below) (k + 1)).trans hr

theorem mergeNext_of_not (h : t.Shows (above ++ v :: w :: below)) (hfit : ¬v.length + w.length < nanoMaxLineLen)
    (numLines : Nat) : mergeNext t numLines above.length = some none := by
  have hnext : (above ++ v :: w :: below)[above.length + 1]? = some w := getElem?_past above v (w :: below) 0
  rw [mergeNext, getLen_of_lt h.lineLt, h.atLine.len, Option.bind_some, h.getLen hnext, Option.bind_some, if_neg hfit]

theorem split_spec (h : t.Shows (above ++ (v ++ w) :: below)) (hfew : (above ++ (v ++ w) :: below).length < nanoMaxLines) :
    ∃ u, ((t.moveDown (above.length + 1) (above ++ (v ++ w) :: below).length).bind fun t =>
        (t.copyChars (above.length + 1) 0 above.length v.length w.length).bind fun t =>
        (t.endLine (above.length + 1) w.length).bind fun t => t.endLine above.length v.length) = some u ∧
      u.Shows (above ++ v :: w :: below) := by
  have hlength : above.length + 1 ≤ (above ++ (v ++ w) :: below).length := by
    rw [List.length_append, List.length_cons]
    omega
  have hrow : above.length + 1 < nanoMaxLines := Nat.lt_of_le_of_lt hlength hfew
  obtain ⟨t₁, hmove, hkept, hmoved⟩ := @moveDown_spec t (above ++ (v ++ w) :: below) (above.length + 1) hfew h.line
  have hline := h.atLine.same (hkept _ (Nat.lt_succ_self _) hlength)
  have hshort := hline.short
  rw [List.length_append] at hshort
  obtain ⟨t₂, happend, hheld, hsame⟩ := t₁.append_spec (v := []) (Nat.ne_of_lt (Nat.lt_succ_self above.length)) hrow h.lineLt
    (fun i x hx => absurd hx (by simp)) hline.chars.right (by rw [List.length_nil, Nat.zero_add]; omega) (by omega)
  rw [List.length_nil, Nat.zero_add] at happend
  rw [List.nil_append] at hheld
  obtain ⟨t₃, hend, hfirst, hother⟩ := t₂.endLine_spec h.lineLt (w := v) (by omega)
    (hline.same (hsame _ (Nat.ne_of_lt (Nat.lt_succ_self _)))).chars.left
  obtain ⟨t₀, hcopy, hendNext⟩ := Option.bind_eq_some_iff.mp happend
  refine ⟨t₃, ?_, ?_, fun r x hr => ?_⟩
  · rw [hmove, Option.bind_some, hcopy, Option.bind_some, hendNext, Option.bind_some, hend]
  · rw [List.length_append, List.length_cons, List.length_cons]
    rw [List.length_append, List.length_cons] at hfew
    exact hfew
  · rcases Nat.lt_trichotomy r above.length with hlt | rfl | hgt
    · rw [List.getElem?_append_left hlt] at hr
      have hold : t.HoldsLine r x := h.line r x (by rw [List.getElem?_append_left hlt, hr])
      exact ((hold.same (hkept r (by omega) (by omega))).same (hsame r (by omega))).same (hother r (by omega))
    · rw [List.getElem?_append_right (Nat.le_refl _), Nat.sub_self, List.getElem?_cons_zero] at hr
      rw [← Option.some.inj hr]
      exact hfirst
    · obtain ⟨k, rfl⟩ := Nat.exists_eq_add_of_lt hgt
      rw [getElem?_past] at hr
      cases k with
      | zero =>
        rw [List.getElem?_cons_zero] at hr
        rw [← Option.some.inj hr]
        exact hheld.same (hother _ (Nat.succ_ne_self _))
      | succ k =>
        rw [List.getElem?_cons_succ] at hr
        have hmovedLine := hmoved (above.length + k + 1) x (by omega) ((getElem?_past above (v ++ w) below k).trans hr)
        exact (hmovedLine.same (hsame _ (by omega))).same (hother _ (by omega))

end Edits

end LineTable

end Chicago95.Stage2.Nano
