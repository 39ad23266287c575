/-
# Chicago95.Stage2.Nano — the text editor.

The editor keeps its text in a table of 256 lines of 200 characters, each ended by a zero, with their lengths beside it.
Lines are split and joined by moving whole lines up or down, character by character. Every access is checked against the
table: a function answers `none` where the source reads or writes outside it.
-/
import Mathlib
import Chicago95.Lib.Cells

namespace Chicago95.Stage2.Nano

open Chicago95.Lib.Loop Chicago95.Lib.Cells

def nanoMaxLines : Nat := 256
def nanoMaxLineLen : Nat := 200
def nanoMaxText : Nat := nanoMaxLines * nanoMaxLineLen
def nanoTabSize : Nat := 4

def fdFlagRead : UInt32 := 0x02
def fdFlagWrite : UInt32 := 0x04
def fdFlagTruncate : UInt32 := 0x10

def keyUp : Int := -2
def keyDown : Int := -3
def keyLeft : Int := -4
def keyRight : Int := -5
def keyHome : Int := -6
def keyEnd : Int := -7
def keyDelete : Int := -8
def keyPgup : Int := -9
def keyPgdn : Int := -10

/-- `'\n'` -/
def newline : UInt8 := 10

/-- Subtraction of 32-bit words. -/
def minus (a b : Nat) : Nat := (a + 2 ^ 32 - b) % 2 ^ 32

/-! ## The table of lines -/

/-- `lines` and `line_len`. -/
structure LineTable where
  char : Nat → Nat → UInt8
  len : Nat → Nat

namespace LineTable

def getLen (t : LineTable) (r : Nat) : Option Nat := if r < nanoMaxLines then some (t.len r) else none

def setLen (t : LineTable) (r n : Nat) : Option LineTable :=
  if r < nanoMaxLines then some { t with len := Function.update t.len r n } else none

def getChar (t : LineTable) (r c : Nat) : Option UInt8 :=
  if r < nanoMaxLines then get nanoMaxLineLen (t.char r) c else none

/-- A change of the characters of one line. -/
def onLine (t : LineTable) (r : Nat) (f : (Nat → UInt8) → Option (Nat → UInt8)) : Option LineTable :=
  if r < nanoMaxLines then (f (t.char r)).map fun a => { t with char := Function.update t.char r a } else none

def setChar (t : LineTable) (r c : Nat) (x : UInt8) : Option LineTable :=
  t.onLine r fun a => put nanoMaxLineLen a c x

/-- `for (i = 0; i < n; i++) lines[dst][at + i] = lines[src][from + i]` -/
def copyChars (t : LineTable) (dst to' src from' n : Nat) : Option LineTable :=
  forEachM n (fun i t => (t.getChar src (from' + i)).bind fun x => t.setChar dst (to' + i) x) t

/-- The end of a line is written, and its length noted. -/
def endLine (t : LineTable) (r n : Nat) : Option LineTable := (t.setChar r n 0).bind fun t => t.setLen r n

/-- One line over another, with its zero and its length. -/
def moveLine (t : LineTable) (dst src : Nat) : Option LineTable :=
  (t.getLen src).bind fun n => (t.copyChars dst 0 src 0 n).bind fun t => t.endLine dst n

/-- `for (i = from; i < num_lines - 1; i++)`: the lines after `from` move up by one. -/
def moveUp (t : LineTable) (from' numLines : Nat) : Option LineTable :=
  forEachM (minus numLines 1 - from') (fun k t => t.moveLine (from' + k) (from' + k + 1)) t

/-- `for (i = num_lines; i > from; i--)`: the lines from `from` on move down by one. -/
def moveDown (t : LineTable) (from' numLines : Nat) : Option LineTable :=
  forEachM (numLines - from') (fun k t => t.moveLine (numLines - k) (numLines - k - 1)) t

end LineTable

/-! ## The editor -/

/-- `nano_state_t` -/
structure NanoState where
  table : LineTable
  numLines : Nat
  cursorRow : Nat
  cursorCol : Nat
  viewTop : Nat
  viewLeft : Nat
  modified : Bool
  filename : List UInt8
  wantExit : Bool
  showHelp : Bool
  statusMsgTimer : Nat

def nanoClampCursor (st : NanoState) : Option NanoState :=
  let row := if st.numLines ≤ st.cursorRow then minus st.numLines 1 else st.cursorRow
  (st.table.getLen row).map fun len =>
    { st with cursorRow := row, cursorCol := if len < st.cursorCol then len else st.cursorCol }

def nanoInsertChar (c : UInt8) (st : NanoState) : Option NanoState :=
  if nanoMaxLines ≤ st.cursorRow then some st
  else (st.table.getLen st.cursorRow).bind fun len =>
    if nanoMaxLineLen - 1 ≤ len then some st
    else
      -- for (i = len; i > cursor_col; i--) line[i] = line[i - 1]
      (st.table.onLine st.cursorRow fun a => slideUp nanoMaxLineLen a st.cursorCol (len - st.cursorCol) 1).bind fun t =>
      (t.setChar st.cursorRow st.cursorCol c).bind fun t =>
      (t.setLen st.cursorRow (len + 1)).bind fun t =>
      (t.setChar st.cursorRow (len + 1) 0).map fun t =>
        { st with table := t, cursorCol := st.cursorCol + 1, modified := true }

def nanoInsertTab (st : NanoState) : Option NanoState := forEachM nanoTabSize (fun _ => nanoInsertChar 0x20) st

/-- The line after `row` is put at its end if both fit in one; the new number of lines, if they do. -/
def mergeNext (t : LineTable) (numLines row : Nat) : Option (Option (LineTable × Nat)) :=
  (t.getLen row).bind fun len => (t.getLen (row + 1)).bind fun nextLen =>
    if len + nextLen < nanoMaxLineLen then
      (t.copyChars row len (row + 1) 0 nextLen).bind fun t =>
      (t.endLine row (len + nextLen)).bind fun t =>
      (t.moveUp (row + 1) numLines).map fun t => some (t, minus numLines 1)
    else some none

def nanoDeleteChar (st : NanoState) : Option NanoState :=
  if st.cursorCol = 0 ∧ st.cursorRow = 0 then some st
  else if st.cursorCol = 0 then
    let prev := st.cursorRow - 1
    (st.table.getLen prev).bind fun prevLen =>
    (mergeNext st.table st.numLines prev).map fun merged =>
      let tn := merged.getD (st.table, st.numLines)
      { st with table := tn.1, numLines := tn.2, cursorRow := prev, cursorCol := prevLen, modified := true }
  else
    (st.table.getLen st.cursorRow).bind fun len =>
    -- for (i = cursor_col; i < len; i++) line[i - 1] = line[i]
    (st.table.onLine st.cursorRow fun a =>
      slideDown nanoMaxLineLen a (st.cursorCol - 1) (len - st.cursorCol) 1).bind fun t =>
    (t.setLen st.cursorRow (minus len 1)).bind fun t =>
    (t.setChar st.cursorRow (minus len 1) 0).map fun t =>
      { st with table := t, cursorCol := st.cursorCol - 1, modified := true }

/-- The next line is joined to the line with the cursor, if there is one and both fit. -/
def joinNext (st : NanoState) : Option NanoState :=
  if st.cursorRow + 1 < st.numLines then
    (mergeNext st.table st.numLines st.cursorRow).map fun merged =>
      match merged with
      | some (t, n) => { st with table := t, numLines := n, modified := true }
      | none => st
  else some st

def nanoDeleteForward (st : NanoState) : Option NanoState :=
  (st.table.getLen st.cursorRow).bind fun len =>
    if len ≤ st.cursorCol then joinNext st
    else
      -- for (i = cursor_col; i < len - 1; i++) line[i] = line[i + 1]
      (st.table.onLine st.cursorRow fun a =>
        slideDown nanoMaxLineLen a st.cursorCol (len - 1 - st.cursorCol) 1).bind fun t =>
      (t.setLen st.cursorRow (len - 1)).bind fun t =>
      (t.setChar st.cursorRow (len - 1) 0).map fun t => { st with table := t, modified := true }

def nanoInsertNewline (st : NanoState) : Option NanoState :=
  if nanoMaxLines ≤ st.numLines then some st
  else (st.table.getLen st.cursorRow).bind fun curLen =>
    let splitLen := minus curLen st.cursorCol
    let next := st.cursorRow + 1
    (st.table.moveDown next st.numLines).bind fun t =>
    (t.copyChars next 0 st.cursorRow st.cursorCol splitLen).bind fun t =>
    (t.endLine next splitLen).bind fun t =>
    (t.endLine st.cursorRow st.cursorCol).map fun t =>
      { st with
        table := t
        numLines := st.numLines + 1
        cursorRow := st.cursorRow + 1
        cursorCol := 0
        modified := true }

/-! ## Files -/

/-- What the calls of the file system do to its state; a read answers its status and what it has read. -/
structure Vfs (σ : Type) where
  vfsOpen : List UInt8 → UInt32 → σ → Int × σ
  vfsRead : Nat → Nat → σ → Int × List UInt8 × σ
  vfsWrite : Nat → List UInt8 → σ → Int × σ
  vfsClose : Nat → σ → σ

def nanoStrcpy (src : List UInt8) (max : Nat) : List UInt8 := src.take (max - 1)

section Files

variable {σ : Type}

/-- The sectors of a file, one after the other, into a buffer; `none` is a loop that does not end in so many turns. -/
def readSectors (V : Vfs σ) (fd : Nat) : Nat → List UInt8 → σ → Option (List UInt8 × σ)
  | 0, _, _ => none
  | fuel + 1, tmpbuf, s =>
    if tmpbuf.length < nanoMaxText - 512 then
      let r := V.vfsRead fd 512 s
      if r.1 ≠ 0 ∨ r.2.1 = [] then some (tmpbuf, r.2.2)
      else readSectors V fd fuel (tmpbuf ++ r.2.1.take (nanoMaxText - 1 - tmpbuf.length)) r.2.2
    else some (tmpbuf, s)

/-- The lines found so far, and where the next one starts. -/
structure Loading where
  table : LineTable
  numLines : Nat
  lineStart : Nat

/-- `for (j = 0; j < len; j++) lines[r][j] = tmpbuf[start + j]`, and the end of the line. -/
def loadLine (t : LineTable) (tmpbuf : List UInt8) (r start len : Nat) : Option LineTable :=
  (forEachM len (fun j (t : LineTable) => t.setChar r j (tmpbuf.getD (start + j) 0)) t).bind fun t => t.endLine r len

/-- The loop that splits the buffer into lines, with `n` of its characters and its end still to come. -/
def splitLines (tmpbuf : List UInt8) : Nat → Loading → Option Loading
  | 0, ld => some ld
  | n + 1, ld =>
    let i := tmpbuf.length - n
    if i = tmpbuf.length ∨ tmpbuf[i]? = some newline then
      if nanoMaxLines ≤ ld.numLines then some ld
      else
        let len := if nanoMaxLineLen ≤ i - ld.lineStart then nanoMaxLineLen - 1 else i - ld.lineStart
        (loadLine ld.table tmpbuf ld.numLines ld.lineStart len).bind fun t =>
          splitLines tmpbuf n { table := t, numLines := ld.numLines + 1, lineStart := i + 1 }
    else splitLines tmpbuf n ld

/-- One empty line. -/
def emptyTable (t : LineTable) : Option LineTable := (t.setLen 0 0).bind fun t => t.setChar 0 0 0

def nanoLoadFile (V : Vfs σ) (filename : List UInt8) (st : NanoState) (s : σ) : Option (NanoState × σ) :=
  (emptyTable st.table).bind fun t =>
    let st := {
      table := t
      numLines := 1
      cursorRow := 0
      cursorCol := 0
      viewTop := 0
      viewLeft := 0
      modified := false
      filename := nanoStrcpy filename 64
      wantExit := false
      showHelp := false
      statusMsgTimer := 0 : NanoState }
    let opened := V.vfsOpen filename fdFlagRead s
    if opened.1 < 0 then some (st, opened.2)
    else
      let fd := opened.1.toNat
      (readSectors V fd nanoMaxText [] opened.2).bind fun r =>
        let s := V.vfsClose fd r.2
        if r.1 = [] then some (st, s)
        else
          (splitLines r.1 (r.1.length + 1) { table := st.table, numLines := 0, lineStart := 0 }).bind fun ld =>
            if ld.numLines = 0 then (emptyTable ld.table).map fun t => ({ st with table := t, numLines := 1 }, s)
            else some ({ st with table := ld.table, numLines := ld.numLines }, s)

/-- The text of the table, as far as the buffer goes. -/
def joinLines (st : NanoState) : Option (List UInt8) :=
  forEachM st.numLines (fun l tmpbuf =>
    (st.table.getLen l).bind fun len =>
    (forEachM (min len (nanoMaxText - 2 - tmpbuf.length)) (fun c tmpbuf =>
      (st.table.getChar l c).map fun x => tmpbuf ++ [x]) tmpbuf).map fun tmpbuf =>
      if l < minus st.numLines 1 ∧ tmpbuf.length < nanoMaxText - 1 then tmpbuf ++ [newline] else tmpbuf) []

/-- The writes of a buffer, 512 bytes at a time, up to the first that fails. -/
def writeSectors (V : Vfs σ) (fd : Nat) : Nat → List UInt8 → σ → Option σ
  | 0, _, _ => none
  | fuel + 1, rest, s =>
    if rest = [] then some s
    else
      let r := V.vfsWrite fd (rest.take 512) s
      if r.1 ≠ 0 then some r.2 else writeSectors V fd fuel (rest.drop 512) r.2

/-- `nano_save_file`: its status, the editor and the file system. -/
def nanoSaveFile (V : Vfs σ) (st : NanoState) (s : σ) : Option (Int × NanoState × σ) :=
  if st.filename = [] then some (-1, st, s)
  else (joinLines st).bind fun tmpbuf =>
    let opened := V.vfsOpen st.filename (fdFlagWrite ||| fdFlagTruncate) s
    if opened.1 < 0 then some (-1, st, opened.2)
    else (writeSectors V opened.1.toNat (tmpbuf.length + 1) tmpbuf opened.2).map fun s =>
      (0, { st with modified := false }, V.vfsClose opened.1.toNat s)

/-! ## Keys -/

/-- The cursor on another line. -/
def atRow (st : NanoState) (row : Nat) : Option NanoState := nanoClampCursor { st with cursorRow := row }

/-- The cursor at the end of its line. -/
def atEnd (st : NanoState) : Option NanoState :=
  (st.table.getLen st.cursorRow).map fun len => { st with cursorCol := len }

def pageUp (st : NanoState) : Option NanoState :=
  atRow st (if 24 ≤ st.cursorRow then st.cursorRow - 24 else 0)

def pageDown (st : NanoState) : Option NanoState := atRow st (st.cursorRow + 24)

/-- Ctrl+K -/
def killLine (st : NanoState) : Option NanoState :=
  (st.table.setLen st.cursorRow st.cursorCol).bind fun t =>
    (t.setChar st.cursorRow st.cursorCol 0).map fun t => { st with table := t, modified := true }

def cursorLeft (st : NanoState) : Option NanoState :=
  if 0 < st.cursorCol then some { st with cursorCol := st.cursorCol - 1 }
  else if 0 < st.cursorRow then atEnd { st with cursorRow := st.cursorRow - 1 }
  else some st

def cursorRight (st : NanoState) : Option NanoState :=
  (st.table.getLen st.cursorRow).map fun len =>
    if st.cursorCol < len then { st with cursorCol := st.cursorCol + 1 }
    else if st.cursorRow + 1 < st.numLines then { st with cursorRow := st.cursorRow + 1, cursorCol := 0 }
    else st

/-- `nano_handle_key`, the keys that change the editor only. -/
def editKey (key : Int) (st : NanoState) : Option NanoState :=
  if key = 24 then some { st with wantExit := true }
  else if key = 7 then some { st with showHelp := true }
  else if key = 3 then some st
  else if key = 1 then some { st with cursorCol := 0 }
  else if key = 5 then atEnd st
  else if key = 21 then pageUp st
  else if key = 4 then pageDown st
  else if key = 11 then killLine st
  else if key = 10 then joinNext st
  else if key = keyUp then atRow st (if 0 < st.cursorRow then st.cursorRow - 1 else st.cursorRow)
  else if key = keyDown then
    atRow st (if st.cursorRow < minus st.numLines 1 then st.cursorRow + 1 else st.cursorRow)
  else if key = keyLeft then cursorLeft st
  else if key = keyRight then cursorRight st
  else if key = keyHome then some { st with cursorCol := 0 }
  else if key = keyEnd then atEnd st
  else if key = keyPgup then pageUp st
  else if key = keyPgdn then pageDown st
  else if key = 10 ∨ key = 13 then nanoInsertNewline st
  else if key = 8 ∨ key = 0x7F then nanoDeleteChar st
  else if key = keyDelete then nanoDeleteForward st
  else if key = 9 then nanoInsertTab st
  else if 32 ≤ key ∧ key < 127 then nanoInsertChar (UInt8.ofNat key.toNat) st
  else some st

/-- `nano_handle_key`: any key closes the help, and Ctrl+O saves. -/
def nanoHandleKey (V : Vfs σ) (key : Int) (st : NanoState) (s : σ) : Option (NanoState × σ) :=
  if st.showHelp then some ({ st with showHelp := false }, s)
  else if key = 15 then
    (nanoSaveFile V st s).map fun r =>
      if r.1 = 0 then ({ r.2.1 with statusMsgTimer := 3 }, r.2.2) else (r.2.1, r.2.2)
  else (editKey key st).map fun st => (st, s)

end Files

end Chicago95.Stage2.Nano
