/-
# Chicago95.Stage2.NanoFiles — files into the editor and out of it, and whole sessions.

Loading cuts a file into lines at its newlines, keeps 256 of them and 199 characters of each (`nanoLoadFile_spec`).
Saving puts a newline between lines (`joinLines_spec`). Neither leaves the table, whatever the file system answers, and
so a session of loading and of keys does not (`session_follows`).
-/
import Chicago95.Stage2.NanoText

namespace Chicago95.Stage2.Nano

open Chicago95.Lib.Loop Chicago95.Lib.Cells Chicago95.Lib.TextEditor

variable {σ : Type} (V : Vfs σ)

/-! ## Loading -/

theorem readSectors_isSome (fd : Nat) {fuel : Nat} {tmpbuf : List UInt8} (s : σ) (hpos : 0 < fuel)
    (hfuel : nanoMaxText - 512 < tmpbuf.length + fuel) : ∃ r, readSectors V fd fuel tmpbuf s = some r := by
  induction fuel generalizing tmpbuf s with
  | zero => exact absurd hpos (Nat.lt_irrefl 0)
  | succ fuel ih =>
    rw [readSectors]
    by_cases hroom : tmpbuf.length < nanoMaxText - 512
    · rw [if_pos hroom]
      dsimp only
      by_cases hend : (V.vfsRead fd 512 s).1 ≠ 0 ∨ (V.vfsRead fd 512 s).2.1 = []
      · rw [if_pos hend]
        exact ⟨_, rfl⟩
      · have hread := List.length_pos_iff.mpr fun hnil => hend (Or.inr hnil)
        have hmax : nanoMaxText = 51200 := rfl
        rw [if_neg hend]
        refine ih _ (by omega) ?_
        rw [List.length_append, List.length_take]
        omega
    · rw [if_neg hroom]
      exact ⟨_, rfl⟩

/-- What the table keeps of a file. -/
def loadedLines (content : List UInt8) : List (List UInt8) :=
  ((content.splitOn newline).take nanoMaxLines).map fun w => w.take (nanoMaxLineLen - 1)

theorem loadedLines_ne_nil (content : List UInt8) : loadedLines content ≠ [] := by
  obtain ⟨w, ws, hsplit⟩ := List.exists_cons_of_ne_nil (List.splitOn_ne_nil newline content)
  rw [loadedLines, hsplit]
  exact List.cons_ne_nil _ _

theorem loadLine_spec {t : LineTable} {ls : List (List UInt8)} {tmpbuf : List UInt8} {start len : Nat} (h : t.Shows ls)
    (hroom : ls.length < nanoMaxLines) (hlen : len < nanoMaxLineLen) (hin : start + len ≤ tmpbuf.length) :
    ∃ u, loadLine t tmpbuf ls.length start len = some u ∧ u.Shows (ls ++ [(tmpbuf.drop start).take len]) := by
  let copied (k : Nat) (u : LineTable) : Prop :=
    (∀ r, r ≠ ls.length → t.SameLine u r) ∧ ∀ i < k, u.char ls.length i = tmpbuf.getD (start + i) 0
  obtain ⟨u, hrun, hsame, hchars⟩ : ∃ u, forEachM len
      (fun j (t : LineTable) => t.setChar ls.length j (tmpbuf.getD (start + j) 0)) t = some u ∧ copied len u :=
    forEachM_induction (P := copied) ⟨fun _ _ => ⟨rfl, rfl⟩, fun i hi => absurd hi (Nat.not_lt_zero i)⟩
      fun k u hk ⟨hsame, hchars⟩ => by
        refine ⟨_, LineTable.setChar_of_lt hroom (Nat.lt_trans hk hlen) _, fun r hr => ?_, fun i hi => ?_⟩
        · exact (hsame r hr).trans ⟨rfl, Function.update_of_ne hr _ _⟩
        · dsimp only
          rw [Function.update_self]
          rcases Nat.lt_succ_iff_lt_or_eq.mp hi with hlt | rfl
          · rw [Function.update_of_ne (Nat.ne_of_lt hlt), hchars i hlt]
          · exact Function.update_self _ _ _
  have hlength : ((tmpbuf.drop start).take len).length = len := by
    rw [List.length_take, List.length_drop]
    omega
  have hheld : Holds (u.char ls.length) ((tmpbuf.drop start).take len) := fun i x hx => by
    have hi : i < len := hlength ▸ (List.getElem?_eq_some_iff.mp hx).1
    rw [List.getElem?_take, if_pos hi, List.getElem?_drop] at hx
    rw [hchars i hi, List.getD_eq_getElem?_getD, hx]
    rfl
  obtain ⟨v, hend, hline, hother⟩ := u.endLine_spec hroom (by rw [hlength]; exact hlen) hheld
  rw [hlength] at hend
  refine ⟨v, ?_, ?_, fun r x hx => ?_⟩
  · rw [loadLine, hrun, Option.bind_some, hend]
  · rw [List.length_append, List.length_singleton]
    exact hroom
  · rw [List.getElem?_append] at hx
    split at hx
    · rename_i hlt
      exact ((h.line r x hx).same (hsame r (Nat.ne_of_lt hlt))).same (hother r (Nat.ne_of_lt hlt))
    · obtain ⟨hr, rfl⟩ : r = ls.length ∧ (tmpbuf.drop start).take len = x := by
        have hat := (List.getElem?_eq_some_iff.mp hx).1
        rw [List.length_singleton] at hat
        have hr : r = ls.length := by omega
        rw [hr, Nat.sub_self] at hx
        exact ⟨hr, Option.some.inj hx⟩
      rw [hr]
      exact hline

/-- The lines already found and those of the rest of the buffer, as far as the table goes. -/
def keptWith (done : List (List UInt8)) (rest : List UInt8) : List (List UInt8) :=
  (done ++ (rest.splitOn newline).map fun w => w.take (nanoMaxLineLen - 1)).take nanoMaxLines

theorem keptWith_full {done : List (List UInt8)} (h : done.length = nanoMaxLines) (rest : List UInt8) :
    keptWith done rest = done := List.take_left' h

theorem keptWith_line {w : List UInt8} (h : newline ∉ w) (done : List (List UInt8)) (rest : List UInt8) :
    keptWith done (w ++ newline :: rest) = keptWith (done ++ [w.take (nanoMaxLineLen - 1)]) rest := by
  rw [keptWith, List.splitOn_append_cons_self_of_not_mem h, List.map_cons, keptWith, List.append_assoc]
  rfl

theorem keptWith_last {w : List UInt8} (h : newline ∉ w) {done : List (List UInt8)} (hroom : done.length < nanoMaxLines) :
    keptWith done w = done ++ [w.take (nanoMaxLineLen - 1)] := by
  rw [keptWith, List.splitOn_eq_singleton h]
  refine List.take_of_length_le ?_
  rw [List.length_append]
  exact hroom

theorem loadLine_cut {t : LineTable} {ls : List (List UInt8)} {tmpbuf : List UInt8} {start i : Nat} (h : t.Shows ls)
    (hroom : ls.length < nanoMaxLines) (hstart : start ≤ i) (hi : i ≤ tmpbuf.length) :
    ∃ u, loadLine t tmpbuf ls.length start (if nanoMaxLineLen ≤ i - start then nanoMaxLineLen - 1 else i - start) =
        some u ∧ u.Shows (ls ++ [((tmpbuf.drop start).take (i - start)).take (nanoMaxLineLen - 1)]) := by
  have hlen : (if nanoMaxLineLen ≤ i - start then nanoMaxLineLen - 1 else i - start) =
      min (nanoMaxLineLen - 1) (i - start) := by
    split <;> omega
  have hmax : nanoMaxLineLen = 200 := rfl
  rw [hlen, List.take_take]
  exact loadLine_spec h hroom (by omega) (by omega)

theorem splitLines_spec {tmpbuf : List UInt8} {n : Nat} {ld : Loading} {done : List (List UInt8)} (hn : n ≤ tmpbuf.length)
    (hstart : ld.lineStart ≤ tmpbuf.length - n)
    (hline : newline ∉ (tmpbuf.drop ld.lineStart).take (tmpbuf.length - n - ld.lineStart))
    (hshows : ld.table.Shows done) (hcount : done.length = ld.numLines) :
    ∃ ld', splitLines tmpbuf (n + 1) ld = some ld' ∧ ld'.table.Shows (keptWith done (tmpbuf.drop ld.lineStart)) ∧
      ld'.numLines = (keptWith done (tmpbuf.drop ld.lineStart)).length := by
  induction n generalizing ld done with
  | zero =>
    -- the end of the buffer ends the last line
    rw [Nat.sub_zero] at hline hstart
    have hall : (tmpbuf.drop ld.lineStart).take (tmpbuf.length - ld.lineStart) = tmpbuf.drop ld.lineStart :=
      List.take_of_length_le (Nat.le_of_eq List.length_drop)
    rw [splitLines, Nat.sub_zero, if_pos (Or.inl rfl)]
    by_cases hfull : nanoMaxLines ≤ ld.numLines
    · rw [if_pos hfull, keptWith_full (Nat.le_antisymm hshows.few (hcount ▸ hfull))]
      exact ⟨ld, rfl, hshows, hcount.symm⟩
    · have hroom : done.length < nanoMaxLines := by
        rw [hcount]
        exact Nat.not_le.mp hfull
      obtain ⟨u, hload, hu⟩ := loadLine_cut hshows hroom hstart (Nat.le_refl tmpbuf.length)
      rw [hall] at hline hu
      rw [if_neg hfull, ← hcount]
      dsimp only
      rw [hload, keptWith_last hline hroom]
      refine ⟨_, rfl, hu, ?_⟩
      rw [List.length_append]
      rfl
  | succ n ih =>
    have hi : tmpbuf.length - (n + 1) < tmpbuf.length := by omega
    have hnext : tmpbuf.length - n = tmpbuf.length - (n + 1) + 1 := by omega
    rw [splitLines]
    by_cases hend : tmpbuf.length - (n + 1) = tmpbuf.length ∨ tmpbuf[tmpbuf.length - (n + 1)]? = some newline
    · have hchar := hend.resolve_left (Nat.ne_of_lt hi)
      have hrest : tmpbuf.drop ld.lineStart =
          (tmpbuf.drop ld.lineStart).take (tmpbuf.length - (n + 1) - ld.lineStart) ++
            newline :: tmpbuf.drop (tmpbuf.length - n) := by
        have hsplit := (List.take_append_drop (tmpbuf.length - (n + 1) - ld.lineStart) (tmpbuf.drop ld.lineStart)).symm
        rw [List.drop_drop, Nat.add_sub_cancel' hstart, List.drop_eq_getElem_cons hi, ← hnext] at hsplit
        rw [List.getElem?_eq_getElem hi] at hchar
        rwa [Option.some.inj hchar] at hsplit
      rw [if_pos hend]
      by_cases hfull : nanoMaxLines ≤ ld.numLines
      · rw [if_pos hfull, keptWith_full (Nat.le_antisymm hshows.few (hcount ▸ hfull))]
        exact ⟨ld, rfl, hshows, hcount.symm⟩
      · have hroom : done.length < nanoMaxLines := by
          rw [hcount]
          exact Nat.not_le.mp hfull
        obtain ⟨u, hload, hu⟩ := loadLine_cut hshows hroom hstart (Nat.le_of_lt hi)
        have hnothing : newline ∉ (tmpbuf.drop (tmpbuf.length - n)).take (tmpbuf.length - n - (tmpbuf.length - n)) := by
          rw [Nat.sub_self]
          exact List.not_mem_nil
        rw [if_neg hfull, ← hcount, hrest, keptWith_line hline]
        dsimp only
        rw [hload, ← hnext]
        exact ih (Nat.le_of_succ_le hn) (Nat.le_refl _) hnothing hu List.length_append
    · rw [if_neg hend]
      refine ih (Nat.le_of_succ_le hn) (by omega) (fun hmem => ?_) hshows hcount
      have hone : tmpbuf.length - n - ld.lineStart = tmpbuf.length - (n + 1) - ld.lineStart + 1 := by omega
      rw [hone, List.take_add_one, List.mem_append] at hmem
      rcases hmem with hmem | hmem
      · exact hline hmem
      · rw [Option.mem_toList, List.getElem?_drop, Nat.add_sub_cancel' hstart] at hmem
        exact hend (Or.inr hmem)

/-- The editor as loading leaves it. -/
structure Loaded (filename content : List UInt8) (st : NanoState) : Prop where
  shows : st.Shows (Text.ofLines (loadedLines content))
  help : st.showHelp = false
  unmodified : st.modified = false
  name : st.filename = nanoStrcpy filename 64

theorem emptyTable_spec (t : LineTable) : ∃ u, emptyTable t = some u ∧ u.Shows [[]] := by
  have hzero : 0 < nanoMaxLines := by decide
  rw [emptyTable, LineTable.setLen_of_lt hzero, Option.bind_some, LineTable.setChar_of_lt hzero (by decide)]
  refine ⟨_, rfl, by decide, fun r w hr => ?_⟩
  cases r with
  | succ r => cases hr
  | zero =>
    obtain rfl := Option.some.inj hr
    refine ⟨?_, by decide, ?_, holds_nil _⟩
    · dsimp only
      rw [Function.update_self]
      rfl
    · dsimp only
      rw [Function.update_self]
      exact Function.update_self _ _ _

theorem shows_ofLines {st : NanoState} {ls : List (List UInt8)} (hne : ls ≠ []) (htable : st.table.Shows ls)
    (hnum : st.numLines = ls.length) (hrow : st.cursorRow = 0) (hcol : st.cursorCol = 0) :
    st.Shows (Text.ofLines ls) := by
  refine ⟨?_, ?_, hrow.trans (Text.row_ofLines ls).symm, hcol.trans (Text.col_ofLines ls).symm⟩
  · rw [Text.lines_ofLines hne]
    exact htable
  · rw [Text.lines_ofLines hne]
    exact hnum

theorem nanoLoadFile_of_closed {filename : List UInt8} {s : σ} (st : NanoState)
    (hfd : (V.vfsOpen filename fdFlagRead s).1 < 0) :
    ∃ st', nanoLoadFile V filename st s = some (st', (V.vfsOpen filename fdFlagRead s).2) ∧ Loaded filename [] st' := by
  obtain ⟨t, hempty, ht⟩ := emptyTable_spec st.table
  rw [nanoLoadFile, hempty, Option.bind_some]
  dsimp only
  rw [if_pos hfd]
  exact ⟨_, rfl, shows_ofLines (List.cons_ne_nil _ _) ht rfl rfl rfl, rfl, rfl, rfl⟩

theorem nanoLoadFile_of_read {filename content : List UInt8} {s s' : σ} (st : NanoState)
    (hfd : ¬(V.vfsOpen filename fdFlagRead s).1 < 0)
    (hread : readSectors V (V.vfsOpen filename fdFlagRead s).1.toNat nanoMaxText [] (V.vfsOpen filename fdFlagRead s).2 =
      some (content, s')) : ∃ st', nanoLoadFile V filename st s =
        some (st', V.vfsClose (V.vfsOpen filename fdFlagRead s).1.toNat s') ∧ Loaded filename content st' := by
  obtain ⟨t, hempty, ht⟩ := emptyTable_spec st.table
  rw [nanoLoadFile, hempty, Option.bind_some]
  dsimp only
  rw [if_neg hfd, hread, Option.bind_some]
  dsimp only
  by_cases hnil : content = []
  · subst hnil
    rw [if_pos rfl]
    exact ⟨_, rfl, shows_ofLines (List.cons_ne_nil _ _) ht rfl rfl rfl, rfl, rfl, rfl⟩
  · have hline : newline ∉ (content.drop 0).take (content.length - content.length - 0) := by
      rw [Nat.sub_self]
      exact List.not_mem_nil
    have hnone : t.Shows [] := ⟨Nat.zero_le _, fun r w hr => absurd (List.getElem?_nil.symm.trans hr) (by simp)⟩
    obtain ⟨ld, hsplit, hld, hcount⟩ := @splitLines_spec content content.length
      { table := t, numLines := 0, lineStart := 0 } [] (Nat.le_refl content.length) (Nat.zero_le _) hline hnone rfl
    have hkept : keptWith [] content = loadedLines content := by
      rw [keptWith, List.nil_append, loadedLines, List.map_take]
    rw [List.drop_zero, hkept] at hld hcount
    have hpos : ld.numLines ≠ 0 := by
      rw [hcount]
      exact Nat.ne_of_gt (List.length_pos_iff.mpr (loadedLines_ne_nil content))
    rw [if_neg hnil, hsplit, Option.bind_some, if_neg hpos]
    exact ⟨_, rfl, shows_ofLines (loadedLines_ne_nil content) hld hcount rfl rfl, rfl, rfl, rfl⟩

theorem nanoLoadFile_loaded (filename : List UInt8) (st : NanoState) (s : σ) :
    ∃ st' s' content, nanoLoadFile V filename st s = some (st', s') ∧ Loaded filename content st' := by
  by_cases hfd : (V.vfsOpen filename fdFlagRead s).1 < 0
  · obtain ⟨st', hload, hloaded⟩ := nanoLoadFile_of_closed V st hfd
    exact ⟨st', _, [], hload, hloaded⟩
  · obtain ⟨⟨content, s'⟩, hread⟩ := @readSectors_isSome σ V (V.vfsOpen filename fdFlagRead s).1.toNat nanoMaxText []
      (V.vfsOpen filename fdFlagRead s).2 (by decide) (by decide)
    obtain ⟨st', hload, hloaded⟩ := nanoLoadFile_of_read V st hfd hread
    exact ⟨st', _, content, hload, hloaded⟩

/-! ## Saving -/

/-- A text with a newline between its lines. -/
def joined (ls : List (List UInt8)) : List UInt8 := [newline].intercalate ls

theorem joined_append (vs : List (List UInt8)) {ws : List (List UInt8)} (hne : ws ≠ []) :
    joined (vs ++ ws) = vs.flatMap (fun v => v ++ [newline]) ++ joined ws := by
  induction vs with
  | nil => rfl
  | cons v vs ih =>
    have hmore : vs ++ ws ≠ [] := List.append_ne_nil_of_right_ne_nil _ hne
    rw [joined] at ih
    rw [joined, List.cons_append, List.intercalate_cons_of_ne_nil hmore, ih, List.flatMap_cons]
    simp only [List.append_assoc]

theorem joinLine_spec {t : LineTable} {r : Nat} {w : List UInt8} (hr : r < nanoMaxLines) (h : t.HoldsLine r w) {m : Nat}
    (hm : m ≤ w.length) (tmpbuf : List UInt8) :
    forEachM m (fun c tmpbuf => (t.getChar r c).map fun x => tmpbuf ++ [x]) tmpbuf = some (tmpbuf ++ w.take m) := by
  obtain ⟨u, hrun, rfl⟩ : ∃ u, forEachM m (fun c tmpbuf => (t.getChar r c).map fun x => tmpbuf ++ [x]) tmpbuf = some u ∧
      u = tmpbuf ++ w.take m :=
    forEachM_induction (P := fun k u => u = tmpbuf ++ w.take k) (List.append_nil _).symm fun k u hk hu => by
      have hlt : k < w.length := Nat.lt_of_lt_of_le hk hm
      rw [LineTable.getChar_of_lt hr (Nat.lt_trans hlt h.short), Option.map_some,
        h.chars k _ (List.getElem?_eq_getElem hlt), hu]
      refine ⟨_, rfl, ?_⟩
      rw [List.append_assoc, List.take_succ_eq_append_getElem hlt]
  exact hrun

/-- The buffer after some of the lines: each with its newline, but for the last of the text. -/
def joinedPart (ls : List (List UInt8)) (l : Nat) : List UInt8 :=
  if l < ls.length then (ls.take l).flatMap fun w => w ++ [newline] else joined ls

theorem joinedPart_zero {ls : List (List UInt8)} (hne : ls ≠ []) : joinedPart ls 0 = [] :=
  if_pos (List.length_pos_iff.mpr hne)

theorem joinedPart_step {ls : List (List UInt8)} {l : Nat} {w : List UInt8} (hw : ls[l]? = some w) :
    (joinedPart ls l).length + w.length + (if l + 1 < ls.length then 1 else 0) ≤ (joined ls).length ∧
      joinedPart ls (l + 1) = joinedPart ls l ++ w ++ if l + 1 < ls.length then [newline] else [] := by
  obtain ⟨hl, hget⟩ := List.getElem?_eq_some_iff.mp hw
  have hdrop : ls.drop l = w :: ls.drop (l + 1) := by rw [List.drop_eq_getElem_cons hl, hget]
  have hall : joined ls = joinedPart ls l ++ joined (w :: ls.drop (l + 1)) := by
    have happend := joined_append (ls.take l) (List.cons_ne_nil w (ls.drop (l + 1)))
    rw [← hdrop, List.take_append_drop] at happend
    rw [joinedPart, if_pos hl, ← hdrop, happend]
  by_cases hmore : l + 1 < ls.length
  · have hrest : ls.drop (l + 1) ≠ [] := fun hnil => absurd (List.drop_eq_nil_iff.mp hnil) (Nat.not_le.mpr hmore)
    have hone : joined (w :: ls.drop (l + 1)) = w ++ [newline] ++ joined (ls.drop (l + 1)) := by
      have happend := joined_append [w] hrest
      rwa [List.flatMap_singleton, List.singleton_append] at happend
    rw [if_pos hmore, if_pos hmore]
    constructor
    · rw [hall, hone]
      simp only [List.length_append, List.length_singleton]
      omega
    · rw [joinedPart, joinedPart, if_pos hmore, if_pos hl, List.take_succ_eq_append_getElem hl, hget, List.flatMap_append,
        List.flatMap_singleton, List.append_assoc]
  · have hlast : ls.drop (l + 1) = [] := List.drop_of_length_le (Nat.not_lt.mp hmore)
    have hone : joined (w :: ls.drop (l + 1)) = w := by
      rw [hlast]
      exact List.intercalate_singleton
    rw [if_neg hmore, if_neg hmore, List.append_nil]
    constructor
    · rw [hall, hone, List.length_append]
      exact Nat.le_refl _
    · have hpart : joinedPart ls (l + 1) = joined ls := if_neg hmore
      rw [hpart, hall, hone]

theorem joinLines_spec {st : NanoState} {e : Text UInt8} (h : st.Shows e) :
    ∃ tmpbuf, joinLines st = some tmpbuf ∧ ((joined e.lines).length ≤ nanoMaxText - 2 → tmpbuf = joined e.lines) := by
  have hpos : 0 < e.lines.length := List.length_pos_iff.mpr e.lines_ne_nil
  have hlast : minus e.lines.length 1 = e.lines.length - 1 :=
    minus_of_le hpos (Nat.lt_of_le_of_lt h.table.few (by decide))
  have hwhole : joinedPart e.lines e.lines.length = joined e.lines := if_neg (Nat.lt_irrefl _)
  suffices hloop : ∃ tmpbuf, joinLines st = some tmpbuf ∧
      ((joined e.lines).length ≤ nanoMaxText - 2 → tmpbuf = joinedPart e.lines e.lines.length) by
    rwa [hwhole] at hloop
  unfold joinLines
  rw [h.numLines]
  refine forEachM_induction (P := fun l (tmpbuf : List UInt8) =>
    (joined e.lines).length ≤ nanoMaxText - 2 → tmpbuf = joinedPart e.lines l) (fun _ => (joinedPart_zero e.lines_ne_nil).symm)
    fun l tmpbuf hl hpart => ?_
  have hline := List.getElem?_eq_getElem hl
  have hrow := h.table.lt hline
  obtain ⟨hlength, hnext⟩ := joinedPart_step hline
  rw [h.table.getLen hline, Option.bind_some,
    joinLine_spec hrow (h.table.line l _ hline) (Nat.min_le_left _ (nanoMaxText - 2 - tmpbuf.length)), Option.map_some]
  refine ⟨_, rfl, fun hfits => ?_⟩
  have htmp := hpart hfits
  have hmax : nanoMaxText = 51200 := rfl
  rw [← htmp] at hlength hnext
  rw [Nat.min_eq_left (by omega), List.take_length, hnext, hlast]
  by_cases hmore : l + 1 < e.lines.length
  · rw [if_pos hmore] at hlength ⊢
    rw [if_pos]
    exact ⟨by omega, by rw [List.length_append]; omega⟩
  · rw [if_neg (fun hand => hmore (by omega)), if_neg hmore, List.append_nil]

theorem writeSectors_isSome (fd : Nat) {fuel : Nat} {rest : List UInt8} (s : σ) (hfuel : rest.length < fuel) :
    ∃ s', writeSectors V fd fuel rest s = some s' := by
  induction fuel generalizing rest s with
  | zero => exact absurd hfuel (Nat.not_lt_zero _)
  | succ fuel ih =>
    rw [writeSectors]
    by_cases hnil : rest = []
    · rw [if_pos hnil]
      exact ⟨s, rfl⟩
    · rw [if_neg hnil]
      dsimp only
      by_cases hfails : (V.vfsWrite fd (rest.take 512) s).1 ≠ 0
      · rw [if_pos hfails]
        exact ⟨_, rfl⟩
      · have hpos := List.length_pos_iff.mpr hnil
        rw [if_neg hfails]
        exact ih _ (by rw [List.length_drop]; omega)

theorem nanoSaveFile_shows {st : NanoState} {e : Text UInt8} (h : st.Shows e) (s : σ) :
    ∃ rc st' s', nanoSaveFile V st s = some (rc, st', s') ∧ st'.Shows e ∧ st'.showHelp = st.showHelp := by
  obtain ⟨tmpbuf, hjoin, -⟩ := joinLines_spec h
  rw [nanoSaveFile]
  by_cases hname : st.filename = []
  · rw [if_pos hname]
    exact ⟨_, _, _, rfl, h, rfl⟩
  · rw [if_neg hname, hjoin, Option.bind_some]
    dsimp only
    by_cases hfd : (V.vfsOpen st.filename (fdFlagWrite ||| fdFlagTruncate) s).1 < 0
    · rw [if_pos hfd]
      exact ⟨_, _, _, rfl, h, rfl⟩
    · obtain ⟨s', hwrite⟩ := writeSectors_isSome V (V.vfsOpen st.filename (fdFlagWrite ||| fdFlagTruncate) s).1.toNat
        (V.vfsOpen st.filename (fdFlagWrite ||| fdFlagTruncate) s).2 (Nat.lt_succ_self tmpbuf.length)
      rw [if_neg hfd, hwrite, Option.map_some]
      exact ⟨_, _, _, rfl, ⟨h.table, h.numLines, h.row, h.col⟩, rfl⟩

/-! ## Sessions -/

/-- One key after the other. -/
def handleKeys : List Int → NanoState → σ → Option (NanoState × σ)
  | [], st, s => some (st, s)
  | key :: keys, st, s => (nanoHandleKey V key st s).bind fun r => handleKeys keys r.1 r.2

theorem nanoHandleKey_follows {st : NanoState} {ref : Session} (h : st.Follows ref) (key : Int) (s : σ) :
    ∃ st' s', nanoHandleKey V key st s = some (st', s') ∧ st'.Follows (ref.key key) := by
  rw [nanoHandleKey, h.help]
  cases hhelp : ref.help with
  | true =>
    have hkey : ref.key key = { ref with help := false } := by rw [Session.key, hhelp, if_pos rfl]
    rw [if_pos rfl, hkey]
    exact ⟨_, s, rfl, ⟨h.shows.table, h.shows.numLines, h.shows.row, h.shows.col⟩, rfl⟩
  | false =>
    rw [if_neg Bool.false_ne_true]
    by_cases hsave : key = 15
    · have hnothing : keyCommand key = .nothing := by
        rw [hsave]
        rfl
      have hkey : ref.key key = { ref with text := ref.text } :=
        Session.key_of_command hhelp hnothing (by decide)
      obtain ⟨rc, st', s', hrun, hshows, hsame⟩ := nanoSaveFile_shows V h.shows s
      rw [if_pos hsave, hrun, Option.map_some, hkey]
      dsimp only
      split
      · exact ⟨_, _, rfl, ⟨hshows.table, hshows.numLines, hshows.row, hshows.col⟩, hsame.trans h.help⟩
      · exact ⟨_, _, rfl, hshows, hsame.trans h.help⟩
    · obtain ⟨st', hrun, hfollows⟩ := editKey_follows h hhelp key
      rw [if_neg hsave, hrun, Option.map_some]
      exact ⟨st', s, rfl, hfollows⟩

theorem handleKeys_follows {st : NanoState} {ref : Session} (h : st.Follows ref) (keys : List Int) (s : σ) :
    ∃ st' s', handleKeys V keys st s = some (st', s') ∧ st'.Follows (keys.foldl Session.key ref) := by
  induction keys generalizing st ref s with
  | nil => exact ⟨st, s, rfl, h⟩
  | cons key keys ih =>
    obtain ⟨st₁, s₁, hkey, hfollows⟩ := nanoHandleKey_follows V h key s
    rw [handleKeys, hkey, Option.bind_some]
    exact ih hfollows s₁

/-- The text of the table. -/
def NanoState.text (st : NanoState) : List (List UInt8) :=
  (List.range st.numLines).map fun r => (List.range (st.table.len r)).map (st.table.char r)

/-- The invariant of the editor. -/
structure NanoState.WellFormed (st : NanoState) : Prop where
  some_line : 1 ≤ st.numLines
  few_lines : st.numLines ≤ nanoMaxLines
  short : ∀ r < st.numLines, st.table.len r < nanoMaxLineLen
  ended : ∀ r < st.numLines, st.table.char r (st.table.len r) = 0
  row : st.cursorRow < st.numLines
  col : st.cursorCol ≤ st.table.len st.cursorRow

theorem NanoState.Shows.wellFormed {st : NanoState} {e : Text UInt8} (h : st.Shows e) : st.WellFormed := by
  have hheld {r : Nat} (hr : r < st.numLines) := h.table.line r _ (List.getElem?_eq_getElem (h.numLines ▸ hr))
  refine ⟨?_, ?_, fun r hr => ?_, fun r hr => ?_, ?_, ?_⟩
  · rw [h.numLines]
    exact List.length_pos_iff.mpr e.lines_ne_nil
  · rw [h.numLines]
    exact h.table.few
  · rw [(hheld hr).len]
    exact (hheld hr).short
  · rw [(hheld hr).len]
    exact (hheld hr).ended
  · rw [h.numLines, h.row]
    exact (List.getElem?_eq_some_iff.mp e.lines_getElem?_row).1
  · rw [h.col, h.row, (h.table.line _ _ e.lines_getElem?_row).len]
    exact e.col_le

theorem NanoState.Shows.text_eq {st : NanoState} {e : Text UInt8} (h : st.Shows e) : st.text = e.lines := by
  refine List.ext_getElem? fun r => ?_
  rw [NanoState.text, h.numLines, List.getElem?_map]
  by_cases hr : r < e.lines.length
  · have hheld := h.table.line r _ (List.getElem?_eq_getElem hr)
    rw [List.getElem?_range hr, Option.map_some, hheld.len, hheld.chars.map_range, List.getElem?_eq_getElem hr]
  · rw [List.getElem?_eq_none (by rw [List.length_range]; exact Nat.not_lt.mp hr), Option.map_none,
      List.getElem?_eq_none (Nat.not_lt.mp hr)]

/-- A session that opens a file and takes keys, whatever the file system answers, stays inside the table and keeps the
invariant; its text and its cursor are those of the reference editor on the same keys. -/
theorem session_follows (filename : List UInt8) (keys : List Int) (st : NanoState) (s : σ) :
    ∃ loaded s₁ st' s₂, nanoLoadFile V filename st s = some (loaded, s₁) ∧
      handleKeys V keys loaded s₁ = some (st', s₂) ∧ loaded.WellFormed ∧ st'.WellFormed ∧
      st'.text = (keys.foldl Session.key { text := Text.ofLines loaded.text, help := false }).text.lines ∧
      st'.cursorRow = (keys.foldl Session.key { text := Text.ofLines loaded.text, help := false }).text.row ∧
      st'.cursorCol = (keys.foldl Session.key { text := Text.ofLines loaded.text, help := false }).text.col := by
  obtain ⟨loaded, s₁, content, hload, hloaded⟩ := nanoLoadFile_loaded V filename st s
  have htext : loaded.text = loadedLines content :=
    hloaded.shows.text_eq.trans (Text.lines_ofLines (loadedLines_ne_nil content))
  obtain ⟨st', s₂, hrun, hfollows⟩ :=
    @handleKeys_follows σ V loaded { text := Text.ofLines (loadedLines content), help := false }
      ⟨hloaded.shows, hloaded.help⟩ keys s₁
  rw [← htext] at hfollows
  exact ⟨loaded, s₁, st', s₂, hload, hrun, hloaded.shows.wellFormed, hfollows.shows.wellFormed, hfollows.shows.text_eq,
    hfollows.shows.row, hfollows.shows.col⟩

end Chicago95.Stage2.Nano
