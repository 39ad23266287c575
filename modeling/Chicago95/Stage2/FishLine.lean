/-
# Chicago95.Stage2.FishLine — the shell's line editor, `fish_readline`.

The line stands in a buffer of 512 characters, the killed text in one of 256, and every write to them is checked. Whatever
keys are typed, no write leaves them and the editor follows a line with a cursor (`typed_follows`). It differs from the
reference editor in one place only: Ctrl-U at the start of a line takes nothing out, and loses the text killed before.
What the keys draw on the screen is left out, and so are the keys for history and completion.
-/
import Chicago95.Lib.Cells
import Chicago95.Lib.LineEditor

namespace Chicago95.Stage2.FishLine

open Chicago95.Lib.Cells Chicago95.Lib.LineEditor
open Function (update_of_ne update_self update)

/-- `FISH_MAX_CMD`, the size of the buffer. -/
def fishMaxCmd : Nat := 512

/-- The size of `kill_ring`. -/
def killRingSize : Nat := 256

/-- The local variables of `fish_readline`. -/
structure Readline where
  buf : Nat → UInt8
  pos : Nat
  cursor : Nat
  killRing : Nat → UInt8
  killRingLen : Nat
  killRingValid : Bool

inductive Key where
  | char (c : UInt8)
  | backspace
  | delete
  | left
  | right
  | home
  | «end»
  | ctrlLeft
  | ctrlRight
  | ctrlU
  | ctrlK
  | ctrlW
  | ctrlY
  deriving DecidableEq

/-- Both buffers hold anything before the first key. -/
def start (buf killRing : Nat → UInt8) : Option Readline :=
  (put fishMaxCmd buf 0 0).map fun buf =>
    { buf := buf, pos := 0, cursor := 0, killRing := killRing, killRingLen := 0, killRingValid := false }

def isSpace (c : UInt8) : Bool := c == 0x20

/-- `while (c > 0 && p(buf[c - 1])) c--` -/
def backWhile (p : UInt8 → Bool) (buf : Nat → UInt8) : Nat → Option Nat
  | 0 => some 0
  | c + 1 => (get fishMaxCmd buf c).bind fun x => if p x then backWhile p buf c else some (c + 1)

/-- `while (c < pos && p(buf[c])) c++`, with `pos - c` characters to go. -/
def onWhile (p : UInt8 → Bool) (buf : Nat → UInt8) : Nat → Nat → Option Nat
  | 0, c => some c
  | n + 1, c => (get fishMaxCmd buf c).bind fun x => if p x then onWhile p buf n (c + 1) else some c

namespace Readline

/-- The start of the word at the cursor's left. -/
def wordStart (st : Readline) : Option Nat :=
  (backWhile isSpace st.buf st.cursor).bind fun c => backWhile (fun x => !isSpace x) st.buf c

/-- The end of the word at the cursor's right. -/
def wordEnd (st : Readline) : Option Nat :=
  (onWhile (fun x => !isSpace x) st.buf (st.pos - st.cursor) st.cursor).bind fun c =>
    onWhile isSpace st.buf (st.pos - c) c

/-- `len` characters from `from` on into the kill ring, which takes 255 of them. -/
def keepKilled (st : Readline) (first len : Nat) : Option Readline :=
  let n := if 255 < len then 255 else len
  (copy killRingSize fishMaxCmd st.killRing 0 st.buf first n).bind fun ring =>
    (put killRingSize ring n 0).map fun ring => { st with killRing := ring, killRingLen := n, killRingValid := true }

/-- The gap that `len` killed characters leave is closed, and the line ended. -/
def closeGap (st : Readline) (first len : Nat) : Option Readline :=
  (slideDown fishMaxCmd st.buf first (st.pos - len - first) len).bind fun buf =>
    (put fishMaxCmd buf (st.pos - len) 0).map fun buf => { st with buf := buf, pos := st.pos - len }

def backspace (st : Readline) : Option Readline :=
  if 0 < st.cursor then
    (slideDown fishMaxCmd st.buf (st.cursor - 1) (st.pos - (st.cursor - 1)) 1).map fun buf =>
      { st with buf := buf, pos := st.pos - 1, cursor := st.cursor - 1 }
  else some st

def delete (st : Readline) : Option Readline :=
  if st.cursor < st.pos then
    (slideDown fishMaxCmd st.buf st.cursor (st.pos - 1 - st.cursor) 1).map fun buf =>
      { st with buf := buf, pos := st.pos - 1 }
  else some st

def ctrlU (st : Readline) : Option Readline :=
  if 0 < st.pos then
    let killed := st.cursor
    (st.keepKilled 0 killed).bind fun st => (st.closeGap 0 killed).map fun st => { st with cursor := 0 }
  else some st

def ctrlK (st : Readline) : Option Readline :=
  if st.cursor < st.pos then
    (st.keepKilled st.cursor (st.pos - st.cursor)).bind fun st =>
      (put fishMaxCmd st.buf st.cursor 0).map fun buf => { st with buf := buf, pos := st.cursor }
  else some st

def ctrlW (st : Readline) : Option Readline :=
  if 0 < st.cursor then
    st.wordStart.bind fun newCursor =>
      let del := st.cursor - newCursor
      (st.keepKilled newCursor del).bind fun st =>
        (st.closeGap newCursor del).map fun st => { st with cursor := newCursor }
  else some st

def ctrlY (st : Readline) : Option Readline :=
  if st.killRingValid = true ∧ 0 < st.killRingLen then
    let space := fishMaxCmd - 1 - st.pos
    let pasteLen := if space < st.killRingLen then space else st.killRingLen
    if 0 < pasteLen then
      (slideUp fishMaxCmd st.buf st.cursor (st.pos - st.cursor + 1) pasteLen).bind fun buf =>
        (copy fishMaxCmd killRingSize buf st.cursor st.killRing 0 pasteLen).bind fun buf =>
          (put fishMaxCmd buf (st.pos + pasteLen) 0).map fun buf =>
            { st with buf := buf, pos := st.pos + pasteLen, cursor := st.cursor + pasteLen }
    else some st
  else some st

def typeChar (st : Readline) (c : UInt8) : Option Readline :=
  if 0x20 ≤ c ∧ c < 0x7f ∧ st.pos < fishMaxCmd - 1 then
    (slideUp fishMaxCmd st.buf st.cursor (st.pos - st.cursor + 1) 1).bind fun buf =>
      (put fishMaxCmd buf st.cursor c).bind fun buf =>
        (put fishMaxCmd buf (st.pos + 1) 0).map fun buf =>
          { st with buf := buf, pos := st.pos + 1, cursor := st.cursor + 1 }
  else some st

/-- One turn of the loop in `fish_readline`. -/
def key (st : Readline) : Key → Option Readline
  | .char c => st.typeChar c
  | .backspace => st.backspace
  | .delete => st.delete
  | .left => some (if 0 < st.cursor then { st with cursor := st.cursor - 1 } else st)
  | .right => some (if st.cursor < st.pos then { st with cursor := st.cursor + 1 } else st)
  | .home => some { st with cursor := 0 }
  | .end => some (if st.cursor < st.pos then { st with cursor := st.pos } else st)
  | .ctrlLeft => if 0 < st.cursor then st.wordStart.map fun c => { st with cursor := c } else some st
  | .ctrlRight => if st.cursor < st.pos then st.wordEnd.map fun c => { st with cursor := c } else some st
  | .ctrlU => st.ctrlU
  | .ctrlK => st.ctrlK
  | .ctrlW => st.ctrlW
  | .ctrlY => st.ctrlY

/-- `KEY_ENTER`: the line and its length. -/
def enter (st : Readline) : Option ((Nat → UInt8) × Nat) :=
  (put fishMaxCmd st.buf st.pos 0).map fun buf => (buf, st.pos)

end Readline

/-- Keys typed one after the other. -/
def typed (keys : List Key) (st : Readline) : Option Readline := keys.foldlM Readline.key st

/-! ## The reference editor -/

/-- The line has room for one character less than the buffer, and one less than the kill ring is kept. -/
def follow (e : Line UInt8) : Key → Line UInt8
  | .char c => if 0x20 ≤ c ∧ c < 0x7f then e.insert (fishMaxCmd - 1) c else e
  | .backspace => e.backspace
  | .delete => e.delete
  | .left => e.goTo (e.before.length - 1)
  | .right => e.goTo (e.before.length + 1)
  | .home => e.goTo 0
  | .end => e.goTo e.text.length
  | .ctrlLeft => e.wordLeft isSpace
  | .ctrlRight => e.wordRight isSpace
  | .ctrlU => e.killBefore (killRingSize - 1)
  | .ctrlK => e.killAfter (killRingSize - 1)
  | .ctrlW => e.killWord isSpace (killRingSize - 1)
  | .ctrlY => e.yank (fishMaxCmd - 1)

/-- Ctrl-U with nothing before the cursor, but something after it. -/
def Slips (e : Line UInt8) (k : Key) : Prop := k = .ctrlU ∧ e.before = [] ∧ e.after ≠ []

instance (e : Line UInt8) (k : Key) : Decidable (Slips e k) := inferInstanceAs (Decidable (_ ∧ _ ∧ _))

/-- The editor that the code follows: where Ctrl-U slips, the killed text is lost. -/
def followCode (e : Line UInt8) (k : Key) : Line UInt8 := if Slips e k then { e with killed := [] } else follow e k

/-! ## The buffers hold the line -/

structure Shows (st : Readline) (e : Line UInt8) : Prop where
  text : Holds st.buf e.text
  pos : st.pos = e.text.length
  cursor : st.cursor = e.before.length
  room : e.text.length < fishMaxCmd
  ring : Holds st.killRing e.killed
  ringLen : st.killRingLen = e.killed.length
  kept : e.killed.length < killRingSize
  valid : e.killed ≠ [] → st.killRingValid = true

/-- The operation runs, and the buffers hold the line that it leaves. -/
def Steps (r : Option Readline) (e : Line UInt8) : Prop := ∃ st, r = some st ∧ Shows st e

theorem Shows.steps {st : Readline} {e : Line UInt8} (h : Shows st e) : Steps (some st) e := ⟨st, rfl, h⟩

theorem Shows.goTo {st : Readline} {e : Line UInt8} (h : Shows st e) {c : Nat} (hc : c ≤ e.text.length) :
    Shows { st with cursor := c } (e.goTo c) where
  text := by
    rw [Line.text_goTo]
    exact h.text
  pos := by
    rw [Line.text_goTo]
    exact h.pos
  cursor := (List.length_take_of_le hc).symm
  room := by
    rw [Line.text_goTo]
    exact h.room
  ring := h.ring
  ringLen := h.ringLen
  kept := h.kept
  valid := h.valid

theorem Shows.cursor_le {st : Readline} {e : Line UInt8} (h : Shows st e) : st.cursor ≤ st.pos := by
  rw [h.cursor, h.pos, Line.text, List.length_append]
  exact Nat.le_add_right _ _

theorem backWhile_spec {p : UInt8 → Bool} {buf : Nat → UInt8} {w : List UInt8} (h : Holds buf w)
    (hroom : w.length ≤ fishMaxCmd) : backWhile p buf w.length = some (w.rdropWhile p).length := by
  induction w using List.reverseRecOn with
  | nil => rfl
  | append_singleton v x ih =>
    have hx : buf v.length = x := h v.length x (by rw [List.getElem?_concat_length])
    rw [List.length_append, List.length_singleton] at hroom ⊢
    rw [backWhile, get_of_lt (Nat.lt_of_succ_le hroom), Option.bind_some, hx]
    by_cases hp : p x = true
    · rw [if_pos hp, List.rdropWhile_concat_pos _ _ _ hp]
      exact ih h.left (Nat.le_of_succ_le hroom)
    · rw [if_neg hp, List.rdropWhile_concat_neg _ _ _ hp, List.length_append]
      rfl

theorem onWhile_spec {p : UInt8 → Bool} {buf : Nat → UInt8} {w : List UInt8} {c : Nat}
    (h : Holds (fun i => buf (c + i)) w) (hroom : c + w.length ≤ fishMaxCmd) :
    onWhile p buf w.length c = some (c + (w.takeWhile p).length) := by
  induction w generalizing c with
  | nil => rfl
  | cons x w ih =>
    have hx : buf c = x := h 0 x rfl
    rw [List.length_cons] at hroom ⊢
    rw [onWhile, get_of_lt (by omega), Option.bind_some, hx]
    by_cases hp : p x = true
    · have hrest : Holds (fun i => buf (c + 1 + i)) w := fun i y hy => by
        have hat : buf (c + (i + 1)) = y := h (i + 1) y hy
        have hi : c + (i + 1) = c + 1 + i := by omega
        rw [hi] at hat
        exact hat
      rw [if_pos hp, List.takeWhile_cons_of_pos hp, List.length_cons, ih hrest (by omega), Nat.add_assoc,
        Nat.add_comm 1]
    · rw [if_neg hp, List.takeWhile_cons_of_neg hp]
      rfl

theorem Shows.wordStart {st : Readline} {e : Line UInt8} (h : Shows st e) :
    st.wordStart = some (e.beforeWord isSpace).length := by
  have hroom := h.room
  rw [Line.text, List.length_append] at hroom
  have hblank := List.rdropWhile_prefix isSpace e.before
  obtain ⟨w, hw⟩ := hblank
  have hheld : Holds st.buf (e.before.rdropWhile isSpace) := (hw ▸ h.text.left : Holds st.buf _).left
  have hle := congrArg List.length hw
  rw [List.length_append] at hle
  rw [Readline.wordStart, h.cursor, backWhile_spec h.text.left (by omega), Option.bind_some,
    backWhile_spec hheld (by omega)]
  rfl

theorem Shows.wordEnd {st : Readline} {e : Line UInt8} (h : Shows st e) :
    st.wordEnd = some (e.text.length - (e.afterWord isSpace).length) := by
  let word := e.after.takeWhile fun x => !isSpace x
  let rest := e.after.dropWhile fun x => !isSpace x
  have hword : word ++ rest = e.after := List.takeWhile_append_dropWhile
  have hrest : rest.takeWhile isSpace ++ e.afterWord isSpace = rest := List.takeWhile_append_dropWhile
  have hwordLength := congrArg List.length hword
  have hrestLength := congrArg List.length hrest
  have hroom := h.room
  have hright := h.text.right
  rw [Line.text] at hroom ⊢
  rw [List.length_append] at hwordLength hrestLength hroom ⊢
  have hfrom : st.pos - st.cursor = e.after.length := by
    rw [h.pos, h.cursor, Line.text, List.length_append, Nat.add_sub_cancel_left]
  have hto : st.pos - (e.before.length + word.length) = rest.length := by
    rw [h.pos, Line.text, List.length_append]
    omega
  have hheld : Holds (fun i => st.buf (e.before.length + word.length + i)) rest := fun i x hx => by
    have hat := (hword ▸ hright : Holds _ (word ++ rest)).right i x hx
    change st.buf (e.before.length + word.length + i) = x
    rw [Nat.add_assoc]
    exact hat
  rw [Readline.wordEnd, hfrom, h.cursor, onWhile_spec hright (Nat.le_of_lt hroom), Option.bind_some]
  change onWhile isSpace st.buf (st.pos - (e.before.length + word.length)) (e.before.length + word.length) = _
  rw [hto, onWhile_spec hheld (by omega)]
  exact congrArg some (by omega)

/-! ## Killing -/

theorem Shows.keepKilled {st : Readline} {e : Line UInt8} (h : Shows st e) {v piece w : List UInt8}
    (htext : e.text = v ++ piece ++ w) :
    ∃ st', st.keepKilled v.length piece.length = some st' ∧
      Shows st' { e with killed := piece.take (killRingSize - 1) } ∧ st'.cursor = st.cursor := by
  have hring : killRingSize = 256 := rfl
  have hroom := h.room
  have hlength := congrArg List.length htext
  rw [List.length_append, List.length_append] at hlength
  have hn : (if 255 < piece.length then 255 else piece.length) = (piece.take (killRingSize - 1)).length := by
    rw [List.length_take]
    split <;> omega
  have hkept : (piece.take (killRingSize - 1)).length ≤ 255 ∧ (piece.take (killRingSize - 1)).length ≤ piece.length := by
    rw [List.length_take]
    exact ⟨Nat.min_le_left _ _, Nat.min_le_right _ _⟩
  obtain ⟨ring, hcopy, hcells⟩ := @copy_spec UInt8 killRingSize fishMaxCmd st.killRing st.buf 0 v.length
    (piece.take (killRingSize - 1)).length (by omega) (by omega)
  refine ⟨{ st with
      killRing := update ring (piece.take (killRingSize - 1)).length 0
      killRingLen := (piece.take (killRingSize - 1)).length
      killRingValid := true }, ?_, ⟨h.text, h.pos, h.cursor, h.room, ?_, rfl, ?_, fun _ => rfl⟩, rfl⟩
  · rw [Readline.keepKilled, hn, hcopy, Option.bind_some, put_of_lt (by omega)]
    rfl
  · intro i x hx
    have hi : i < (piece.take (killRingSize - 1)).length := (List.getElem?_eq_some_iff.mp hx).1
    have hheld : st.buf (v.length + i) = x := by
      have hpiece : Holds (fun i => st.buf (v.length + i)) piece := (htext ▸ h.text).left.right
      change (piece.take (killRingSize - 1))[i]? = some x at hx
      rw [List.getElem?_take] at hx
      split at hx
      · exact hpiece i x hx
      · cases hx
    dsimp only
    rw [update_of_ne (Nat.ne_of_lt hi), hcells, if_pos (by omega), Nat.sub_zero]
    exact hheld
  · exact Nat.lt_succ_of_le hkept.1

theorem Shows.closeGap {st : Readline} {e : Line UInt8} (h : Shows st e) {v piece w : List UInt8}
    (htext : e.text = v ++ piece ++ w) (c : Nat) :
    ∃ st', (st.closeGap v.length piece.length).map (fun st => { st with cursor := c }) = some st' ∧
      Holds st'.buf (v ++ w) ∧ st'.pos = (v ++ w).length ∧ st'.cursor = c ∧ st'.killRing = st.killRing ∧
      st'.killRingLen = st.killRingLen ∧ st'.killRingValid = st.killRingValid := by
  have hroom := h.room
  have hlength := congrArg List.length htext
  rw [List.length_append, List.length_append] at hlength
  have hmoved : st.pos - piece.length - v.length = w.length := by
    rw [h.pos]
    omega
  have hend : st.pos - piece.length = (v ++ w).length := by
    rw [h.pos, List.length_append]
    omega
  obtain ⟨buf, hslide, hbuf⟩ := @removePiece_spec UInt8 fishMaxCmd w.length st.buf v piece w
    (htext ▸ h.text) (Nat.le_refl _) (by omega)
  refine ⟨{ st with buf := update buf (v ++ w).length 0, pos := (v ++ w).length, cursor := c }, ?_,
    hbuf.congr fun i hi => update_of_ne (Nat.ne_of_lt hi) _ _, rfl, rfl, rfl, rfl, rfl⟩
  rw [Readline.closeGap, hmoved, hend, hslide, Option.bind_some, put_of_lt (by rw [List.length_append]; omega)]
  rfl

theorem Shows.killed {st : Readline} {e : Line UInt8} (h : Shows st e) {v piece w : List UInt8}
    (htext : e.text = v ++ piece ++ w) :
    Steps ((st.keepKilled v.length piece.length).bind fun st =>
      (st.closeGap v.length piece.length).map fun st => { st with cursor := v.length })
      { before := v, after := w, killed := piece.take (killRingSize - 1) } := by
  have hroom := h.room
  have hlength := congrArg List.length htext
  rw [List.length_append, List.length_append] at hlength
  obtain ⟨st₁, hkeep, hst₁, -⟩ := h.keepKilled htext
  obtain ⟨st₂, hclose, hbuf, hpos, hcursor, hring, hlen, hvalid⟩ := hst₁.closeGap htext v.length
  refine ⟨st₂, by rw [hkeep]; exact hclose, hbuf, hpos, hcursor, ?_, hring ▸ hst₁.ring, hlen.trans hst₁.ringLen, hst₁.kept,
    fun hne => hvalid.trans (hst₁.valid hne)⟩
  change (v ++ w).length < fishMaxCmd
  rw [List.length_append]
  omega

theorem Shows.ctrlU {st : Readline} {e : Line UInt8} (h : Shows st e) : Steps st.ctrlU (followCode e .ctrlU) := by
  rw [Readline.ctrlU, h.pos]
  by_cases hempty : e.text = []
  · obtain ⟨hbefore, hafter⟩ := List.append_eq_nil_iff.mp hempty
    rw [if_neg (by rw [hempty]; decide), followCode, if_neg fun hslip => hslip.2.2 hafter, follow,
      Line.killBefore_of_eq hbefore]
    exact h.steps
  · have hkilled := @Shows.killed st e h [] e.before e.after rfl
    rw [if_pos (List.length_pos_iff.mpr hempty), h.cursor]
    refine (?_ : followCode e .ctrlU = _) ▸ hkilled
    by_cases hbefore : e.before = []
    · -- nothing is taken out, and the kill ring is cleared
      have hafter : e.after ≠ [] := fun hafter => hempty (List.append_eq_nil_iff.mpr ⟨hbefore, hafter⟩)
      rw [followCode, if_pos ⟨rfl, hbefore, hafter⟩, hbefore, List.take_nil]
    · rw [followCode, if_neg fun hslip => hbefore hslip.2.1, follow, Line.killBefore_of_ne hbefore]

theorem Shows.ctrlK {st : Readline} {e : Line UInt8} (h : Shows st e) :
    Steps st.ctrlK (e.killAfter (killRingSize - 1)) := by
  have hlength : st.pos - st.cursor = e.after.length := by
    rw [h.pos, h.cursor, Line.text, List.length_append, Nat.add_sub_cancel_left]
  rw [Readline.ctrlK]
  by_cases hafter : e.after = []
  · have hend : ¬st.cursor < st.pos := by
      rw [hafter, List.length_nil] at hlength
      omega
    rw [if_neg hend, Line.killAfter_of_eq hafter]
    exact h.steps
  · have hpos := List.length_pos_iff.mpr hafter
    have htext : e.text = e.before ++ e.after ++ [] := (List.append_nil _).symm
    have hroom := h.room
    rw [Line.text, List.length_append] at hroom
    obtain ⟨st₁, hkeep, hst₁, hcursor⟩ := h.keepKilled htext
    have hat := hcursor.trans h.cursor
    rw [if_pos (by omega), hlength, h.cursor, hkeep, Option.bind_some, hat, put_of_lt (by omega),
      Line.killAfter_of_ne hafter]
    refine ⟨{ st₁ with
      buf := update st₁.buf e.before.length 0
      pos := e.before.length
      cursor := e.before.length }, ?_, ?_, ?_, rfl, ?_, hst₁.ring, hst₁.ringLen, hst₁.kept, hst₁.valid⟩
    · rfl
    · rw [Line.text, List.append_nil]
      exact hst₁.text.left.congr fun i hi => update_of_ne (Nat.ne_of_lt hi) _ _
    · rw [Line.text, List.append_nil]
    · rw [Line.text, List.append_nil]
      exact Nat.lt_of_le_of_lt (Nat.le_add_right _ _) hroom

theorem Shows.ctrlW {st : Readline} {e : Line UInt8} (h : Shows st e) :
    Steps st.ctrlW (e.killWord isSpace (killRingSize - 1)) := by
  rw [Readline.ctrlW, h.cursor]
  by_cases hbefore : e.before = []
  · rw [if_neg (by rw [hbefore]; decide), Line.killWord_of_eq isSpace hbefore]
    exact h.steps
  · have hword := e.beforeWord_append isSpace
    have htext : e.text = e.beforeWord isSpace ++ e.before.drop (e.beforeWord isSpace).length ++ e.after := by
      rw [hword]
      rfl
    have hdel : e.before.length - (e.beforeWord isSpace).length =
        (e.before.drop (e.beforeWord isSpace).length).length := List.length_drop.symm
    rw [if_pos (List.length_pos_iff.mpr hbefore), h.wordStart, Option.bind_some, hdel,
      Line.killWord_of_ne isSpace hbefore]
    exact h.killed htext

/-! ## Putting in and taking out -/

theorem Shows.backspace {st : Readline} {e : Line UInt8} (h : Shows st e) : Steps st.backspace e.backspace := by
  rw [Readline.backspace, h.cursor, h.pos]
  rcases List.eq_nil_or_concat' e.before with hbefore | ⟨v, x, hbefore⟩
  · rw [Line.backspace_of_eq hbefore, if_neg (by rw [hbefore]; decide)]
    exact h.steps
  · have htext : e.text = v ++ [x] ++ e.after := by rw [Line.text, hbefore]
    have hroom := h.room
    have hlength := congrArg List.length htext
    have hbeforeLength := congrArg List.length hbefore
    rw [List.length_append, List.length_append, List.length_singleton] at hlength
    rw [List.length_append, List.length_singleton] at hbeforeLength
    obtain ⟨buf, hslide, hbuf⟩ := @removePiece_spec UInt8 fishMaxCmd (e.text.length - v.length) st.buf v [x] e.after
      (htext ▸ h.text) (by omega) (by rw [List.length_singleton]; omega)
    rw [List.length_singleton] at hslide
    rw [if_pos (by omega), hbeforeLength, Nat.add_sub_cancel, hslide, Line.backspace, hbefore, List.dropLast_concat]
    refine ⟨_, rfl, hbuf, ?_, rfl, ?_, h.ring, h.ringLen, h.kept, h.valid⟩
    · change e.text.length - 1 = (v ++ e.after).length
      rw [List.length_append]
      omega
    · change (v ++ e.after).length < fishMaxCmd
      rw [List.length_append]
      omega

theorem Shows.delete {st : Readline} {e : Line UInt8} (h : Shows st e) : Steps st.delete e.delete := by
  have hlength : e.text.length = e.before.length + e.after.length := List.length_append
  rw [Readline.delete, h.cursor, h.pos]
  cases hafter : e.after with
  | nil =>
    rw [hafter, List.length_nil] at hlength
    rw [Line.delete_of_eq hafter, if_neg (by omega)]
    exact h.steps
  | cons x w =>
    have htext : e.text = e.before ++ [x] ++ w := by
      rw [Line.text, hafter, List.append_assoc]
      rfl
    have hroom := h.room
    rw [hafter, List.length_cons] at hlength
    have hmoved : e.text.length - 1 - e.before.length = w.length := by omega
    obtain ⟨buf, hslide, hbuf⟩ := @removePiece_spec UInt8 fishMaxCmd w.length st.buf e.before [x] w
      (htext ▸ h.text) (Nat.le_refl _) (by rw [List.length_singleton]; omega)
    rw [List.length_singleton] at hslide
    rw [if_pos (by omega), hmoved, hslide, Line.delete, hafter, List.tail_cons]
    refine ⟨_, rfl, hbuf, ?_, rfl, ?_, h.ring, h.ringLen, h.kept, h.valid⟩
    · change e.text.length - 1 = (e.before ++ w).length
      rw [List.length_append]
      omega
    · change (e.before ++ w).length < fishMaxCmd
      rw [List.length_append]
      omega

theorem Shows.typeChar {st : Readline} {e : Line UInt8} (h : Shows st e) (c : UInt8) :
    Steps (st.typeChar c) (follow e (.char c)) := by
  have hlength : e.text.length = e.before.length + e.after.length := List.length_append
  have hmax : fishMaxCmd = 512 := rfl
  rw [Readline.typeChar, h.cursor, h.pos, follow, Line.insert]
  by_cases hprintable : 0x20 ≤ c ∧ c < 0x7f
  · rw [if_pos hprintable]
    by_cases hroom : e.text.length < fishMaxCmd - 1
    · obtain ⟨buf, hinsert, hbuf⟩ := @insertOne_spec UInt8 fishMaxCmd (e.text.length - e.before.length + 1) st.buf e.before
        e.after h.text (by omega) (by omega) c
      obtain ⟨slid, hslide, hput⟩ := Option.bind_eq_some_iff.mp hinsert
      rw [if_pos hroom, if_pos ⟨hprintable.1, hprintable.2, hroom⟩, hslide, Option.bind_some, hput, Option.bind_some,
        put_of_lt (by omega)]
      have hnew : (e.before ++ [c] ++ e.after).length = e.text.length + 1 := by
        rw [List.length_append, List.length_append, List.length_singleton]
        omega
      refine ⟨_, rfl, hbuf.congr fun i hi => update_of_ne (by omega) _ _, hnew.symm, ?_, ?_, h.ring, h.ringLen,
        h.kept, h.valid⟩
      · change e.before.length + 1 = (e.before ++ [c]).length
        rw [List.length_append, List.length_singleton]
      · change (e.before ++ [c] ++ e.after).length < fishMaxCmd
        omega
    · rw [if_neg hroom, if_neg fun hand => hroom hand.2.2]
      exact h.steps
  · rw [if_neg hprintable, if_neg fun hand => hprintable ⟨hand.1, hand.2.1⟩]
    exact h.steps

theorem Shows.ctrlY {st : Readline} {e : Line UInt8} (h : Shows st e) : Steps st.ctrlY (e.yank (fishMaxCmd - 1)) := by
  have hlength : e.text.length = e.before.length + e.after.length := List.length_append
  have hmax : fishMaxCmd = 512 := rfl
  have hring : killRingSize = 256 := rfl
  have hroom := h.room
  have hkept := h.kept
  let piece := e.killed.take (fishMaxCmd - 1 - e.text.length)
  have hpiece : piece.length = min (fishMaxCmd - 1 - e.text.length) e.killed.length := List.length_take
  have hpaste : (if fishMaxCmd - 1 - e.text.length < e.killed.length then fishMaxCmd - 1 - e.text.length
      else e.killed.length) = piece.length := by
    split <;> omega
  have hnothing (hnil : piece = []) : e.yank (fishMaxCmd - 1) = e := by
    change { e with before := e.before ++ piece } = e
    rw [hnil, List.append_nil]
  rw [Readline.ctrlY, h.ringLen, h.pos]
  dsimp only
  rw [hpaste]
  by_cases hnil : piece = []
  · have hnone : ¬0 < piece.length := by
      rw [hnil]
      decide
    rw [hnothing hnil, if_neg hnone, ite_self]
    exact h.steps
  · have hpos := List.length_pos_iff.mpr hnil
    have hsome : e.killed ≠ [] := fun hkilled => hnil (by simp only [piece, hkilled, List.take_nil])
    obtain ⟨slid, hslide, hslid⟩ := @slideUp_spec UInt8 fishMaxCmd st.buf e.before.length
      (e.text.length - e.before.length + 1) piece.length (by omega)
    obtain ⟨pasted, hcopy, hpasted⟩ := @copy_spec UInt8 fishMaxCmd killRingSize slid st.killRing e.before.length 0
      piece.length (by omega) (by omega)
    have hnew : (e.before ++ piece ++ e.after).length = e.text.length + piece.length := by
      rw [List.length_append, List.length_append]
      omega
    have hheld : Holds (update pasted (e.text.length + piece.length) 0) (e.before ++ piece ++ e.after) := by
      refine h.text.insert (fun i hi => ?_) (fun i x hx => ?_) fun i hi => ?_
      · rw [update_of_ne (by omega), hpasted, if_neg (by omega), hslid, if_neg (by omega)]
      · have hi := (List.getElem?_eq_some_iff.mp hx).1
        dsimp only
        rw [update_of_ne (by omega), hpasted, if_pos (by omega), Nat.zero_add, Nat.add_sub_cancel_left]
        rw [List.getElem?_take] at hx
        split at hx
        · exact h.ring i x hx
        · cases hx
      · rw [update_of_ne (by omega), hpasted, if_neg (by omega), hslid, if_pos (by omega)]
        exact congrArg st.buf (by omega)
    rw [if_pos ⟨h.valid hsome, List.length_pos_iff.mpr hsome⟩, if_pos hpos, h.cursor, hslide, Option.bind_some, hcopy,
      Option.bind_some, put_of_lt (by omega)]
    refine ⟨_, rfl, hheld, hnew.symm, List.length_append.symm, ?_, h.ring, rfl, h.kept, h.valid⟩
    change (e.before ++ piece ++ e.after).length < fishMaxCmd
    omega

/-! ## Whole runs -/

theorem Shows.goTo_cursor {st : Readline} {e : Line UInt8} (h : Shows st e) : e.goTo st.cursor = e := by
  rw [h.cursor]
  exact e.goTo_length

theorem Shows.key_of_ne {st : Readline} {e : Line UInt8} (h : Shows st e) {k : Key} (hk : k ≠ .ctrlU) :
    Steps (st.key k) (follow e k) := by
  have hle := h.cursor_le
  cases k with
  | ctrlU => exact absurd rfl hk
  | char c => exact h.typeChar c
  | backspace => exact h.backspace
  | delete => exact h.delete
  | ctrlK => exact h.ctrlK
  | ctrlW => exact h.ctrlW
  | ctrlY => exact h.ctrlY
  | home => exact (h.goTo (Nat.zero_le _)).steps
  | left =>
    rw [follow, ← h.cursor, Readline.key]
    by_cases hmoves : 0 < st.cursor
    · rw [if_pos hmoves]
      exact (h.goTo (by rw [← h.pos]; omega)).steps
    · have hzero : st.cursor - 1 = st.cursor := by omega
      rw [if_neg hmoves, hzero, h.goTo_cursor]
      exact h.steps
  | right =>
    rw [follow, ← h.cursor, Readline.key]
    by_cases hmoves : st.cursor < st.pos
    · rw [if_pos hmoves]
      exact (h.goTo (by rw [← h.pos]; exact hmoves)).steps
    · have hend : e.text.length = st.cursor := by
        rw [← h.pos]
        omega
      rw [if_neg hmoves, Line.goTo_of_length_le (by omega), hend, h.goTo_cursor]
      exact h.steps
  | «end» =>
    rw [follow, ← h.pos, Readline.key]
    by_cases hmoves : st.cursor < st.pos
    · rw [if_pos hmoves]
      exact (h.goTo (Nat.le_of_eq h.pos)).steps
    · have hend : st.pos = st.cursor := by omega
      rw [if_neg hmoves, hend, h.goTo_cursor]
      exact h.steps
  | ctrlLeft =>
    have hword := congrArg List.length (e.beforeWord_append isSpace)
    rw [List.length_append] at hword
    rw [follow, Line.wordLeft, Readline.key]
    by_cases hmoves : 0 < st.cursor
    · rw [if_pos hmoves, h.wordStart]
      refine (h.goTo ?_).steps
      rw [Line.text, List.length_append]
      omega
    · have hzero : (e.beforeWord isSpace).length = st.cursor := by
        rw [h.cursor] at hmoves ⊢
        omega
      rw [if_neg hmoves, hzero, h.goTo_cursor]
      exact h.steps
  | ctrlRight =>
    rw [follow, Line.wordRight, Readline.key]
    by_cases hmoves : st.cursor < st.pos
    · rw [if_pos hmoves, h.wordEnd]
      exact (h.goTo (Nat.sub_le _ _)).steps
    · have hend : e.text.length - (e.afterWord isSpace).length = st.cursor := by
        have hafter : e.after = [] := by
          refine List.length_eq_zero_iff.mp ?_
          have hlength : e.text.length = e.before.length + e.after.length := List.length_append
          rw [← h.pos, ← h.cursor] at hlength
          omega
        rw [Line.afterWord, hafter, ← h.pos]
        exact Nat.le_antisymm (Nat.not_lt.mp hmoves) hle
      rw [if_neg hmoves, hend, h.goTo_cursor]
      exact h.steps

theorem Shows.key {st : Readline} {e : Line UInt8} (h : Shows st e) (k : Key) : Steps (st.key k) (followCode e k) := by
  by_cases hk : k = .ctrlU
  · rw [hk]
    exact h.ctrlU
  · rw [followCode, if_neg fun hslip => hk hslip.1]
    exact h.key_of_ne hk

theorem start_spec (buf killRing : Nat → UInt8) : Steps (start buf killRing) Line.empty := by
  rw [start, put_of_lt (by decide)]
  exact ⟨_, rfl, holds_nil _, rfl, rfl, by decide, holds_nil _, rfl, by decide, fun hne => absurd rfl hne⟩

theorem typed_follows {keys : List Key} {st : Readline} {e : Line UInt8} (h : Shows st e) :
    Steps (typed keys st) (keys.foldl followCode e) := by
  induction keys generalizing st e with
  | nil => exact h.steps
  | cons k keys ih =>
    obtain ⟨st₁, hkey, hst₁⟩ := h.key k
    obtain ⟨st₂, hrun, hst₂⟩ := ih hst₁
    refine ⟨st₂, ?_, hst₂⟩
    rw [typed, List.foldlM_cons, hkey]
    exact hrun

/-- Enter answers the line, ended with a zero. -/
def Returns (st : Readline) (e : Line UInt8) : Prop :=
  ∃ buf, st.enter = some (buf, e.text.length) ∧ Holds buf e.text ∧ buf e.text.length = 0

theorem Shows.returns {st : Readline} {e : Line UInt8} (h : Shows st e) : Returns st e := by
  rw [Returns, Readline.enter, h.pos, put_of_lt h.room]
  exact ⟨_, rfl, h.text.congr fun i hi => update_of_ne (Nat.ne_of_lt hi) _ _, update_self _ _ _⟩

/-! ## When the line is that of the reference editor -/

/-- No Ctrl-U at the start of a line while there is killed text to lose. -/
def SparesKilled : Line UInt8 → List Key → Prop
  | _, [] => True
  | e, k :: keys => ¬(Slips e k ∧ e.killed ≠ []) ∧ SparesKilled (follow e k) keys

theorem foldl_followCode {e : Line UInt8} {keys : List Key} (h : SparesKilled e keys) :
    keys.foldl followCode e = keys.foldl follow e := by
  induction keys generalizing e with
  | nil => rfl
  | cons k keys ih =>
    have hkey : followCode e k = follow e k := by
      rw [followCode]
      by_cases hslip : Slips e k
      · -- with nothing killed before there is nothing to lose
        have hnone : e.killed = [] := Decidable.byContradiction fun hne => h.1 ⟨hslip, hne⟩
        rw [if_pos hslip, hslip.1, follow, Line.killBefore_of_eq hslip.2.1, ← hnone]
      · exact if_neg hslip
    rw [List.foldl_cons, List.foldl_cons, hkey]
    exact ih h.2

/-- Whatever keys are typed, the cursor stays in the line, the line in its buffer and the killed text in the kill ring; and
where the kill ring is spared, Enter answers the line of the reference editor. -/
theorem readline_follows (buf killRing : Nat → UInt8) (keys : List Key) :
    ∃ st, (start buf killRing).bind (typed keys) = some st ∧ st.cursor ≤ st.pos ∧ st.pos < fishMaxCmd ∧
      (SparesKilled Line.empty keys → Returns st (keys.foldl follow Line.empty)) := by
  obtain ⟨st₀, hstart, h₀⟩ := start_spec buf killRing
  obtain ⟨st, hrun, hst⟩ := @typed_follows keys st₀ Line.empty h₀
  refine ⟨st, ?_, hst.cursor_le, ?_, fun hspares => ?_⟩
  · rw [hstart]
    exact hrun
  · rw [hst.pos]
    exact hst.room
  · rw [← foldl_followCode hspares]
    exact hst.returns

namespace TwoWords

/-- `ab`, taken out with Ctrl-W, then `x`. -/
def keys : List Key := [.char 0x61, .char 0x62, .ctrlW, .char 0x78]

theorem keys_returned :
    ∃ st, (start (fun _ => 0) fun _ => 0).bind (typed (keys ++ [.ctrlY])) = some st ∧
      Returns st { before := [0x78, 0x61, 0x62], after := [], killed := [0x61, 0x62] } := by
  obtain ⟨st, hrun, -, -, hreturns⟩ := readline_follows (fun _ => 0) (fun _ => 0) (keys ++ [.ctrlY])
  exact ⟨st, hrun, hreturns ⟨by decide, by decide, by decide, by decide, by decide, trivial⟩⟩

def keysThenHome : List Key := keys ++ [.home, .ctrlU, .ctrlY]

/-- After Home and Ctrl-U nothing is left to put in again. -/
theorem killed_lost : ∃ st, (start (fun _ => 0) fun _ => 0).bind (typed keysThenHome) = some st ∧
      ¬Returns st (keysThenHome.foldl follow Line.empty) := by
  obtain ⟨st₀, hstart, h₀⟩ := start_spec (fun _ => 0) fun _ => 0
  obtain ⟨st, hrun, hst⟩ := @typed_follows keysThenHome st₀ Line.empty h₀
  refine ⟨st, by rw [hstart]; exact hrun, fun hreturns => ?_⟩
  obtain ⟨buf, henter, -⟩ := hst.returns
  obtain ⟨buf', henter', -⟩ := hreturns
  have hlength : (keysThenHome.foldl followCode Line.empty).text.length = (keysThenHome.foldl follow Line.empty).text.length :=
    (Prod.ext_iff.mp (Option.some.inj (henter.symm.trans henter'))).2
  exact absurd hlength (by decide)

end TwoWords

end Chicago95.Stage2.FishLine
