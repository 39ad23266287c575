/-
# Chicago95.Stage2.NanoRoundTrip — which files survive being opened and saved.

The file system here does what it is asked to: reads and writes are exact, and a truncating open empties the file; some
writes may be refused. A file read and saved again is the join of the lines that loading has kept. That is the file itself
exactly when loading has cut nothing, neither at the buffer's end nor at the last line nor at the end of a line
(`joined_loaded_iff`). A write that is refused ends the save, which answers success all the same (`midway_iff`).
-/
import Mathlib
import Chicago95.Lib.PathNames
import Chicago95.Stage2.NanoFiles

namespace Chicago95.Stage2.Nano

open Chicago95.Lib.Loop Chicago95.Lib.Cells Chicago95.Lib.TextEditor
open Function (update_of_ne update_self update_idem update_eq_self update)
open Chicago95.Lib.PathNames (of_mem_splitOn)

/-! ## The file system -/

/-- Files by their names, the open file with its position, and which of the writes are refused. -/
structure Disk where
  files : List UInt8 → Option (List UInt8)
  name : List UInt8
  pos : Nat
  writes : Nat
  refuses : Nat → Bool

/-- The bytes of the open file. -/
def Disk.content (d : Disk) : List UInt8 := (d.files d.name).getD []

/-- Exact reads and writes; a truncating open empties the file. -/
def exactVfs : Vfs Disk where
  vfsOpen name flags d :=
    match d.files name with
    | none => (-1, d)
    | some _ => (0, { d with
        files := if flags &&& fdFlagTruncate ≠ 0 then update d.files name (some []) else d.files
        name := name
        pos := 0 })
  vfsRead _ n d := (0, (d.content.drop d.pos).take n, { d with pos := d.pos + min n (d.content.length - d.pos) })
  vfsWrite _ bytes d :=
    if d.refuses d.writes then (-1, { d with writes := d.writes + 1 })
    else (0, { d with
      files := update d.files d.name
        (some (d.content.take d.pos ++ bytes ++ d.content.drop (d.pos + bytes.length)))
      pos := d.pos + bytes.length
      writes := d.writes + 1 })
  vfsClose _ d := d

/-! ## Reading and writing a whole file -/

theorem readSectors_exact (fd : Nat) {fuel k : Nat} {d : Disk} (hk : k ≤ 99) (hpos : d.pos = (d.content.take (512 * k)).length)
    (hfuel : 99 < k + fuel) :
    ∃ p, readSectors exactVfs fd fuel (d.content.take (512 * k)) d =
      some (d.content.take (nanoMaxText - 512), { d with pos := p }) := by
  have hmax : nanoMaxText = 51200 := rfl
  induction fuel generalizing k d with
  | zero => omega
  | succ fuel ih =>
    have hlength : (d.content.take (512 * k)).length = min (512 * k) d.content.length := List.length_take
    rw [readSectors]
    by_cases hroom : (d.content.take (512 * k)).length < nanoMaxText - 512
    · rw [if_pos hroom]
      have hread : exactVfs.vfsRead fd 512 d =
          (0, (d.content.drop d.pos).take 512, { d with pos := d.pos + min 512 (d.content.length - d.pos) }) := rfl
      dsimp only
      rw [hread]
      dsimp only
      by_cases hend : (d.content.drop d.pos).take 512 = []
      · -- nothing is left, and what was read is the whole file
        have hall : d.content.length ≤ d.pos := by
          rcases List.take_eq_nil_iff.mp hend with h512 | hdrop
          · exact absurd h512 (by decide)
          · exact List.drop_eq_nil_iff.mp hdrop
        rw [if_pos (Or.inr hend), List.take_of_length_le (by omega), List.take_of_length_le (by omega)]
        exact ⟨_, rfl⟩
      · have hmore : d.pos < d.content.length := by
          refine Nat.lt_of_not_le fun hle => hend ?_
          rw [List.drop_eq_nil_of_le hle, List.take_nil]
        have hat : d.pos = 512 * k := by omega
        have hnext : d.content.take (512 * k) ++
            ((d.content.drop d.pos).take 512).take (nanoMaxText - 1 - (d.content.take (512 * k)).length) =
              d.content.take (512 * (k + 1)) := by
          rw [List.take_take, Nat.min_eq_right (by omega), hat, ← List.take_add]
          rfl
        rw [if_neg (fun hor => hor.elim (fun hne => hne rfl) hend), hnext]
        obtain ⟨p, hrun⟩ := ih (d := { d with pos := d.pos + min 512 (d.content.length - d.pos) }) (k := k + 1) (by omega)
          (by
            rw [List.length_take]
            change d.pos + min 512 (d.content.length - d.pos) = min (512 * (k + 1)) d.content.length
            omega) (by omega)
        exact ⟨p, hrun⟩
    · have hfull : 512 * k = nanoMaxText - 512 := by omega
      rw [if_neg hroom, hfull]
      exact ⟨d.pos, rfl⟩

theorem writeSectors_exact (fd : Nat) {fuel : Nat} {rest done : List UInt8} {d : Disk} (hfuel : rest.length < fuel)
    (hfile : d.files d.name = some done) (hpos : d.pos = done.length) (haccepts : ∀ k, d.refuses k = false) :
    ∃ d', writeSectors exactVfs fd fuel rest d = some d' ∧ d'.files = update d.files d.name (some (done ++ rest)) := by
  induction fuel generalizing rest done d with
  | zero => exact absurd hfuel (Nat.not_lt_zero _)
  | succ fuel ih =>
    rw [writeSectors]
    by_cases hnil : rest = []
    · rw [if_pos hnil, hnil, List.append_nil, ← hfile, update_eq_self]
      exact ⟨d, rfl, rfl⟩
    · have hcontent : d.content = done := by rw [Disk.content, hfile]; rfl
      have hwrite : exactVfs.vfsWrite fd (rest.take 512) d =
          (0, { d with
            files := update d.files d.name (some (done ++ rest.take 512))
            pos := d.pos + (rest.take 512).length
            writes := d.writes + 1 }) := by
        change (if d.refuses d.writes then _ else _) = _
        rw [if_neg (by rw [haccepts]; exact Bool.false_ne_true), hcontent, hpos, List.take_length,
          List.drop_of_length_le (Nat.le_add_right _ _), List.append_nil]
      have hlength := List.length_pos_iff.mpr hnil
      rw [if_neg hnil, hwrite]
      dsimp only
      rw [if_neg (fun hne => hne rfl)]
      obtain ⟨d', hrun, hfiles⟩ := @ih (rest.drop 512) (done ++ rest.take 512)
        { d with
          files := update d.files d.name (some (done ++ rest.take 512))
          pos := d.pos + (rest.take 512).length
          writes := d.writes + 1 }
        (by rw [List.length_drop]; omega) (update_self _ _ _)
        (by rw [List.length_append, ← hpos]) haccepts
      refine ⟨d', hrun, ?_⟩
      rw [hfiles]
      dsimp only
      rw [update_idem, List.append_assoc, List.take_append_drop]

/-! ## What the text of a file comes back as -/

theorem length_joined {ls : List (List UInt8)} (hne : ls ≠ []) :
    (joined ls).length + 1 = (ls.map fun w => w.length + 1).sum := by
  induction ls with
  | nil => exact absurd rfl hne
  | cons w ws ih =>
    rw [List.map_cons, List.sum_cons]
    by_cases hnil : ws = []
    · subst hnil
      rw [joined, List.intercalate_singleton]
      rfl
    · rw [joined, List.intercalate_cons_of_ne_nil hnil]
      have hws := ih hnil
      rw [joined] at hws
      rw [← hws]
      simp only [List.length_append, List.length_singleton]
      omega

theorem sum_cut_le (ls : List (List UInt8)) (n k : Nat) :
    (((ls.take n).map fun w => w.take k).map fun w => w.length + 1).sum ≤ (ls.map fun w => w.length + 1).sum := by
  induction ls generalizing n with
  | nil =>
    rw [List.take_nil]
    exact Nat.zero_le _
  | cons w ws ih =>
    cases n with
    | zero => exact Nat.zero_le _
    | succ n =>
      rw [List.take_succ_cons, List.map_cons, List.map_cons, List.sum_cons, List.map_cons, List.sum_cons,
        List.length_take]
      exact Nat.add_le_add (Nat.succ_le_succ (Nat.min_le_right _ _)) (ih n)

theorem length_joined_loaded_le (content : List UInt8) : (joined (loadedLines content)).length ≤ content.length := by
  have hall : joined (content.splitOn newline) = content := List.intercalate_splitOn newline
  have hfull := length_joined (List.splitOn_ne_nil newline content)
  have hcut := length_joined (loadedLines_ne_nil content)
  have hsum : ((loadedLines content).map fun w => w.length + 1).sum ≤
      ((content.splitOn newline).map fun w => w.length + 1).sum := sum_cut_le _ _ _
  rw [hall] at hfull
  omega

/-- What loading cuts nothing off. -/
structure Fits (content : List UInt8) : Prop where
  total : content.length ≤ nanoMaxText - 512
  lines : (content.splitOn newline).length ≤ nanoMaxLines
  line : ∀ w ∈ content.splitOn newline, w.length < nanoMaxLineLen

theorem loadedLines_eq_iff (content : List UInt8) : loadedLines content = content.splitOn newline ↔
      (content.splitOn newline).length ≤ nanoMaxLines ∧ ∀ w ∈ content.splitOn newline, w.length < nanoMaxLineLen := by
  have hmax : nanoMaxLineLen = 200 := rfl
  constructor
  · intro heq
    have hfew : (content.splitOn newline).length ≤ nanoMaxLines := by
      have hlength := congrArg List.length heq
      rw [loadedLines, List.length_map, List.length_take] at hlength
      omega
    refine ⟨hfew, fun w hw => ?_⟩
    rw [loadedLines, List.take_of_length_le hfew] at heq
    have hcut : w.take (nanoMaxLineLen - 1) = w := by
      have hid := heq.trans (List.map_id _).symm
      exact List.map_inj_left.mp hid w hw
    have hlength := congrArg List.length hcut
    rw [List.length_take] at hlength
    omega
  · rintro ⟨hfew, hshort⟩
    rw [loadedLines, List.take_of_length_le hfew]
    refine (List.map_congr_left fun w hw => ?_).trans (List.map_id _)
    exact List.take_of_length_le (by have := hshort w hw; omega)

theorem joined_loaded_iff (content : List UInt8) :
    joined (loadedLines (content.take (nanoMaxText - 512))) = content ↔ Fits content := by
  constructor
  · intro heq
    have htotal : content.length ≤ nanoMaxText - 512 := by
      have hle := length_joined_loaded_le (content.take (nanoMaxText - 512))
      rw [heq, List.length_take] at hle
      omega
    rw [List.take_of_length_le htotal] at heq
    have hclean : ∀ w ∈ loadedLines content, newline ∉ w := by
      intro w hw
      obtain ⟨v, hv, rfl⟩ := List.mem_map.mp hw
      exact fun hmem => (of_mem_splitOn (List.mem_of_mem_take hv)).1 (List.mem_of_mem_take hmem)
    have hlines : loadedLines content = content.splitOn newline := by
      have hsplit := List.splitOn_intercalate newline hclean (loadedLines_ne_nil content)
      rw [← hsplit]
      exact congrArg _ heq
    obtain ⟨hfew, hshort⟩ := (loadedLines_eq_iff content).mp hlines
    exact ⟨htotal, hfew, hshort⟩
  · rintro ⟨htotal, hfew, hshort⟩
    rw [List.take_of_length_le htotal, (loadedLines_eq_iff content).mpr ⟨hfew, hshort⟩]
    exact List.intercalate_splitOn newline

/-! ## Opening and saving -/

/-- Opening a file and saving it without an edit leaves it as it was, or the save is refused. -/
def Survives (name content : List UInt8) (st : NanoState) (d : Disk) : Prop :=
  ∃ st₁ d₁ rc st₂ d₂, nanoLoadFile exactVfs name st d = some (st₁, d₁) ∧
    nanoSaveFile exactVfs st₁ d₁ = some (rc, st₂, d₂) ∧ (rc ≠ 0 ∨ d₂.files name = some content)

theorem exactVfs_open_read {name content : List UInt8} {d : Disk} (hfile : d.files name = some content) :
    exactVfs.vfsOpen name fdFlagRead d = (0, { d with name := name, pos := 0 }) := by
  change (match d.files name with | none => _ | some _ => _) = _
  rw [hfile]
  rfl

theorem exactVfs_open_write {name content : List UInt8} {d : Disk} (hfile : d.files name = some content) :
    exactVfs.vfsOpen name (fdFlagWrite ||| fdFlagTruncate) d =
      (0, { d with files := update d.files name (some []), name := name, pos := 0 }) := by
  change (match d.files name with | none => _ | some _ => _) = _
  rw [hfile]
  rfl

theorem exactVfs_open_none {name : List UInt8} {d : Disk} (hfile : d.files name = none) (flags : UInt32) :
    exactVfs.vfsOpen name flags d = (-1, d) := by
  change (match d.files name with | none => _ | some _ => _) = _
  rw [hfile]

theorem load_exact {name content : List UInt8} {d : Disk} (hfile : d.files name = some content) (st : NanoState) :
    ∃ st₁ p, nanoLoadFile exactVfs name st d = some (st₁, { d with name := name, pos := p }) ∧
      Loaded name (content.take (nanoMaxText - 512)) st₁ := by
  have hopen := exactVfs_open_read hfile
  have hcontent : Disk.content { d with name := name, pos := 0 } = content := by
    change (d.files name).getD [] = content
    rw [hfile]
    rfl
  obtain ⟨p, hread⟩ := @readSectors_exact 0 nanoMaxText 0 { d with name := name, pos := 0 } (Nat.zero_le _) rfl (by decide)
  rw [hcontent, Nat.mul_zero, List.take_zero] at hread
  have hfd : ¬(exactVfs.vfsOpen name fdFlagRead d).1 < 0 := by
    rw [hopen]
    exact Int.lt_irrefl 0
  obtain ⟨st₁, hload, hloaded⟩ := @nanoLoadFile_of_read Disk exactVfs name (content.take (nanoMaxText - 512)) d
    { d with name := name, pos := p } st hfd (by rw [hopen]; exact hread)
  exact ⟨st₁, p, hload, hloaded⟩

theorem save_exact {st : NanoState} {d : Disk} {tmpbuf old : List UInt8} (hname : st.filename ≠ [])
    (hfile : d.files st.filename = some old) (hjoin : joinLines st = some tmpbuf) (haccepts : ∀ k, d.refuses k = false) :
    ∃ st₂ d₂, nanoSaveFile exactVfs st d = some (0, st₂, d₂) ∧
      d₂.files = update d.files st.filename (some tmpbuf) := by
  obtain ⟨d₂, hwrite, hfiles⟩ := @writeSectors_exact 0 (tmpbuf.length + 1) tmpbuf []
    { d with files := update d.files st.filename (some []), name := st.filename, pos := 0 }
    (Nat.lt_succ_self _) (update_self _ _ _) rfl haccepts
  rw [nanoSaveFile, if_neg hname, hjoin, Option.bind_some, exactVfs_open_write hfile]
  dsimp only
  rw [if_neg (Int.lt_irrefl 0), Int.toNat_zero, hwrite]
  refine ⟨_, _, rfl, ?_⟩
  change d₂.files = _
  rw [hfiles]
  dsimp only
  rw [update_idem, List.nil_append]

theorem survives_iff {name content : List UInt8} {d : Disk} (hfile : d.files name = some content)
    (haccepts : ∀ k, d.refuses k = false) (st : NanoState) :
    Survives name content st d ↔ name = [] ∨ 64 ≤ name.length ∨ Fits content := by
  obtain ⟨st₁, p, hload, hloaded⟩ := load_exact hfile st
  obtain ⟨tmpbuf, hjoin, htext⟩ := joinLines_spec hloaded.shows
  rw [Text.lines_ofLines (loadedLines_ne_nil _)] at htext
  have hbuffer : tmpbuf = joined (loadedLines (content.take (nanoMaxText - 512))) := by
    refine htext (Nat.le_trans (length_joined_loaded_le _) ?_)
    rw [List.length_take]
    have hmax : nanoMaxText = 51200 := rfl
    omega
  have hfilename : st₁.filename = name.take 63 := hloaded.name
  by_cases hempty : name = []
  · refine iff_of_true ⟨st₁, { d with name := name, pos := p }, -1, st₁, { d with name := name, pos := p }, hload, ?_,
      Or.inl (by decide)⟩ (Or.inl hempty)
    rw [nanoSaveFile, if_pos (by rw [hfilename, hempty, List.take_nil])]
  · have hname : st₁.filename ≠ [] := by
      rw [hfilename]
      exact fun hnil => (List.take_eq_nil_iff.mp hnil).elim (by decide) hempty
    by_cases hlong : 64 ≤ name.length
    · -- the name is cut, and the save is to another file or to none
      refine iff_of_true ?_ (Or.inr (Or.inl hlong))
      have hother : name ≠ st₁.filename := fun heq => by
        have hlength := congrArg List.length heq
        rw [hfilename, List.length_take] at hlength
        omega
      cases hthere : d.files st₁.filename with
      | none =>
        refine ⟨st₁, { d with name := name, pos := p }, -1, st₁, { d with name := name, pos := p }, hload, ?_,
          Or.inl (by decide)⟩
        have hopen := @exactVfs_open_none st₁.filename { d with name := name, pos := p } hthere
        rw [nanoSaveFile, if_neg hname, hjoin, Option.bind_some, hopen]
        rfl
      | some old =>
        obtain ⟨st₂, d₂, hsave, hfiles⟩ := @save_exact st₁ { d with name := name, pos := p } tmpbuf old hname hthere hjoin
          haccepts
        refine ⟨st₁, _, 0, st₂, d₂, hload, hsave, Or.inr ?_⟩
        rw [hfiles, update_of_ne hother]
        exact hfile
    · have hsame : st₁.filename = name := by
        rw [hfilename]
        exact List.take_of_length_le (Nat.le_of_lt_succ (Nat.not_le.mp hlong))
      obtain ⟨st₂, d₂, hsave, hfiles⟩ := @save_exact st₁ { d with name := name, pos := p } tmpbuf content hname
        (hsame ▸ hfile) hjoin haccepts
      have hafter : d₂.files name = some tmpbuf := by
        rw [hfiles, hsame]
        exact update_self _ _ _
      rw [or_iff_right hempty, or_iff_right hlong, ← joined_loaded_iff, ← hbuffer]
      constructor
      · rintro ⟨st₁', d₁', rc, st₂', d₂', hload', hsave', hkept⟩
        rw [hload] at hload'
        cases hload'
        rw [hsave] at hsave'
        cases hsave'
        rcases hkept with hne | hkept
        · exact absurd rfl hne
        · rw [hafter] at hkept
          exact Option.some.inj hkept
      · intro heq
        exact ⟨st₁, _, 0, st₂, d₂, hload, hsave, Or.inr (heq ▸ hafter)⟩

/-! ## A save that stops midway -/

/-- A save whose file opens, but one of whose writes is refused. -/
def StopsMidway (st : NanoState) (d : Disk) : Prop :=
  st.filename ≠ [] ∧ (∃ old, d.files st.filename = some old) ∧
    ∃ tmpbuf, joinLines st = some tmpbuf ∧ ∃ k, 512 * k < tmpbuf.length ∧ d.refuses (d.writes + k) = true

/-- The save answers an error, and the buffer is marked modified as before. -/
def Reported (st : NanoState) (d : Disk) : Prop :=
  ∃ rc st' d', nanoSaveFile exactVfs st d = some (rc, st', d') ∧ rc ≠ 0 ∧ st'.modified = st.modified

theorem stopsMidway_success {st : NanoState} {d : Disk} (h : StopsMidway st d) :
    ∃ st' d', nanoSaveFile exactVfs st d = some (0, st', d') ∧ st'.modified = false := by
  obtain ⟨hname, ⟨old, hfile⟩, tmpbuf, hjoin, -⟩ := h
  obtain ⟨d', hwrite⟩ := @writeSectors_isSome Disk exactVfs 0 (tmpbuf.length + 1) tmpbuf
    { d with files := update d.files st.filename (some []), name := st.filename, pos := 0 } (Nat.lt_succ_self _)
  rw [nanoSaveFile, if_neg hname, hjoin, Option.bind_some, exactVfs_open_write hfile]
  dsimp only
  rw [if_neg (Int.lt_irrefl 0), Int.toNat_zero, hwrite]
  exact ⟨_, _, rfl, rfl⟩

theorem midway_iff (st : NanoState) (d : Disk) : (StopsMidway st d → Reported st d) ↔ ¬StopsMidway st d := by
  constructor
  · intro hreported hmidway
    obtain ⟨rc, st', d', hsave, hrc, -⟩ := hreported hmidway
    obtain ⟨st'', d'', hzero, -⟩ := stopsMidway_success hmidway
    rw [hzero] at hsave
    cases hsave
    exact hrc rfl
  · exact fun hnot hmidway => absurd hmidway hnot

/-- A file survives being opened and saved exactly when it fits or is not saved to; no save that stops midway is reported. -/
theorem nano_keepsText_iff (name content : List UInt8) (st : NanoState) (d : Disk) :
    (d.files name = some content → (∀ k, d.refuses k = false) →
      (Survives name content st d ↔ name = [] ∨ 64 ≤ name.length ∨ Fits content)) ∧
    ((StopsMidway st d → Reported st d) ↔ ¬StopsMidway st d) :=
  ⟨fun hfile haccepts => survives_iff hfile haccepts st, midway_iff st d⟩

namespace OneFile

/-- A disk with one file, `a`. -/
def disk (content : List UInt8) (refuses : Nat → Bool) : Disk where
  files := fun name => if name = [0x61] then some content else none
  name := []
  pos := 0
  writes := 0
  refuses := refuses

/-- The editor before it is started, but for one character of text and a file name. -/
def state (filename : List UInt8) : NanoState where
  table := { char := fun _ _ => 0x61, len := fun r => if r = 0 then 1 else 0 }
  numLines := 1
  cursorRow := 0
  cursorCol := 0
  viewTop := 0
  viewLeft := 0
  modified := true
  filename := filename
  wantExit := false
  showHelp := false
  statusMsgTimer := 0

theorem short_survives : Survives [0x61] [0x68, 0x69, newline] (state []) (disk [0x68, 0x69, newline] fun _ => false) :=
  ((nano_keepsText_iff [0x61] [0x68, 0x69, newline] (state []) (disk [0x68, 0x69, newline] fun _ => false)).1 rfl
    fun _ => rfl).mpr (Or.inr (Or.inr ⟨by decide, by decide, by decide⟩))

theorem midway : StopsMidway (state [0x61]) (disk [] fun _ => true) :=
  ⟨List.cons_ne_nil _ _, ⟨[], rfl⟩, [0x61], by decide, 0, by decide, rfl⟩

/-- A line of 200 characters loses one, and a save whose first write is refused answers success. -/
theorem long_cut :
    ¬Survives [0x61] (List.replicate 200 0x61) (state []) (disk (List.replicate 200 0x61) fun _ => false) ∧
    StopsMidway (state [0x61]) (disk [] fun _ => true) ∧ ¬Reported (state [0x61]) (disk [] fun _ => true) := by
  refine ⟨fun h => ?_, midway, fun h => (midway_iff _ _).mp (fun _ => h) midway⟩
  have hfits := (@survives_iff [0x61] (List.replicate 200 0x61) (disk (List.replicate 200 0x61) fun _ => false) rfl
    (fun _ => rfl) (state [])).mp h
  rcases hfits with hname | hlong | hfits
  · exact List.cons_ne_nil _ _ hname
  · exact absurd hlong (by decide)
  · have hone : newline ∉ List.replicate 200 (0x61 : UInt8) := fun hmem =>
      absurd (List.eq_of_mem_replicate hmem) (by decide)
    have hline := hfits.line (List.replicate 200 0x61) (by
      rw [List.splitOn_eq_singleton hone]
      exact List.mem_singleton_self _)
    rw [List.length_replicate] at hline
    exact Nat.lt_irrefl _ hline

end OneFile

end Chicago95.Stage2.Nano
