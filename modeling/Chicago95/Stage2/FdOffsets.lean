/-
# Chicago95.Stage2.FdOffsets — where the descriptors of `fs/brainvfs.c` read and write.

A descriptor has a position, and so has the file that its file system opened for it; a read and a write go to
the file's own, and both then go on by what was read or written. `vfs_tell` reports the descriptor's. The file
systems are a parameter here, with their states and what an operation does to the positions of their files
(`Backends`).
-/
import Mathlib
import Chicago95.Stage2.PathDispatch

namespace Chicago95.Stage2

open Chicago95.Lib.Transition
open Function (update_of_ne update_self update_eq_self update)

/-! ## The code -/

def fdFlagOpen : UInt8 := 0x01
def fdFlagRead : UInt8 := 0x02
def fdFlagWrite : UInt8 := 0x04
def fdFlagAppend : UInt8 := 0x08

/-- What these functions call of `vfs_ops_t`, `none` for a null pointer. -/
structure FsOps (σ : Type*) where
  «open» : Option (List Char → UInt32 → σ → Int × σ)
  read : Option (Int → UInt32 → σ → Int × List UInt8 × UInt32 × σ)
  write : Option (Int → List UInt8 → UInt32 → σ → Int × σ)

/-- `vfs_fd_t`, but for its path, which nothing reads. -/
structure FdEntry where
  id : UInt32
  flags : UInt8
  position : UInt32
  size : UInt32
  mountIdx : Nat
  fsHandle : Int
  inUse : Bool

/-- The descriptors, and the file systems with their open files. -/
structure FdState (σ : Type*) where
  fds : Nat → FdEntry
  fdCount : UInt32
  nextFd : UInt32
  files : σ

/-- What `vfs_open` keeps of the flags. -/
def openFlags (flags : UInt32) : UInt8 :=
  fdFlagOpen ||| (if flags &&& 0x02 ≠ 0 then fdFlagRead else 0) |||
    (if flags &&& 0x04 ≠ 0 then fdFlagWrite else 0) ||| (if flags &&& 0x08 ≠ 0 then fdFlagAppend else 0)

/-- The position `vfs_seek` computes, `none` where it returns -1. -/
def seekPosition (fd : FdEntry) (offset : Int32) (whence : UInt32) : Option UInt32 :=
  if whence = 0 then some offset.toUInt32
  else if whence = 1 then some (fd.position + offset.toUInt32)
  else if whence = 2 then some (fd.size + offset.toUInt32)
  else none

namespace FdState

variable {σ : Type*}

/-- `vfs_get_fd`: the number of the slot. -/
def vfsGetFd (s : FdState σ) (id : UInt32) : Option Nat :=
  (List.range brainvfsMaxFds).find? fun i => (s.fds i).inUse && decide ((s.fds i).id = id)

/-- The descriptor in slot `i` at another position. -/
def setPosition (s : FdState σ) (i : Nat) (position : UInt32) : FdState σ :=
  { s with fds := update s.fds i { s.fds i with position := position } }

/-- `vfs_open` of a path, by the table of mounts and the operations of each. -/
def vfsOpen (table : VfsState) (ops : Nat → FsOps σ) (s : FdState σ) (path : List Char) (flags : UInt32) :
    Int × FdState σ :=
  if table.initialized = false then (-1, s)
  else
    match table.vfsResolvePath path 256 with
    | none => (-1, s)
    | some (mnt, rel) =>
      match (List.range brainvfsMaxFds).find? fun i => !(s.fds i).inUse with
      | none => (-1, s)
      | some k =>
        let opened : Int × σ :=
          match (ops mnt).open with
          | none => (-1, s.files)
          | some f => f rel flags s.files
        if opened.1 < 0 ∧ flags &&& 0x04 = 0 then (-1, { s with files := opened.2 })
        else
          (s.nextFd.toInt32.toInt,
            { fds := update s.fds k
                { id := s.nextFd, flags := openFlags flags, position := 0, size := (s.fds k).size,
                  mountIdx := mnt, fsHandle := opened.1, inUse := true }
              fdCount := s.fdCount + 1
              nextFd := s.nextFd + 1
              files := opened.2 })

/-- `vfs_read`: the result, the bytes in the buffer, `*out` where it is stored, the state. -/
def vfsRead (ops : Nat → FsOps σ) (s : FdState σ) (id len : UInt32) :
    Int × List UInt8 × Option UInt32 × FdState σ :=
  match s.vfsGetFd id with
  | none => (-1, [], none, s)
  | some i =>
    let fd := s.fds i
    if fd.flags &&& fdFlagRead = 0 then (-1, [], none, s)
    else
      match (ops fd.mountIdx).read with
      | none => (0, [], some 0, s)
      | some f =>
        let (r, bytes, out, files) := f fd.fsHandle len s.files
        let s := { s with files := files }
        (r, bytes, some out, if r = 0 then s.setPosition i (fd.position + out) else s)

def vfsWrite (ops : Nat → FsOps σ) (s : FdState σ) (id : UInt32) (buf : List UInt8) (len : UInt32) :
    Int × FdState σ :=
  match s.vfsGetFd id with
  | none => (-1, s)
  | some i =>
    let fd := s.fds i
    if fd.flags &&& fdFlagWrite = 0 then (-1, s)
    else
      match (ops fd.mountIdx).write with
      | none => (0, s)
      | some f =>
        let (r, files) := f fd.fsHandle buf len s.files
        let s := { s with files := files }
        (r, if r = 0 then s.setPosition i (fd.position + len) else s)

def vfsSeek (s : FdState σ) (id : UInt32) (offset : Int32) (whence : UInt32) : Int × FdState σ :=
  match s.vfsGetFd id with
  | none => (-1, s)
  | some i =>
    match seekPosition (s.fds i) offset whence with
    | none => (-1, s)
    | some newPos => (0, s.setPosition i newPos)

/-- `vfs_tell`: what it stores, `none` where it returns -1. -/
def vfsTell (s : FdState σ) (id : UInt32) : Option UInt32 :=
  (s.vfsGetFd id).map fun i => (s.fds i).position

end FdState

/-- A call on the descriptors. -/
inductive FdCall where
  | open (path : List Char) (flags : UInt32)
  | read (id len : UInt32)
  | write (id : UInt32) (buf : List UInt8) (len : UInt32)
  | seek (id : UInt32) (offset : Int32) (whence : UInt32)
  | tell (id : UInt32)

namespace FdState

variable {σ : Type*}

/-- One call. -/
def next (table : VfsState) (ops : Nat → FsOps σ) (s : FdState σ) : FdCall → FdState σ
  | .open path flags => (s.vfsOpen table ops path flags).2
  | .read id len => (s.vfsRead ops id len).2.2.2
  | .write id buf len => (s.vfsWrite ops id buf len).2
  | .seek id offset whence => (s.vfsSeek id offset whence).2
  | .tell _ => s

end FdState

/-! ## The file systems -/

/-- An open file of a file system: its own position, the size of the file, and whether writes go to the end. -/
structure BackendFile where
  pos : UInt32
  size : UInt32
  appends : Bool

namespace BackendFile

/-- Where a write starts. -/
def writeStart (file : BackendFile) : UInt32 := if file.appends then file.size else file.pos

/-- What only the operations on the file itself change. -/
def stand (file : BackendFile) : UInt32 × Bool := (file.pos, file.appends)

end BackendFile

/-- **What a file system does**: an open gives a number that was free and a file at its front, which appends only when
asked to; what is read, and what is written, is passed by; a failure moves nothing; and no file is moved by what
is done to another. -/
structure Backends {σ : Type*} (ops : Nat → FsOps σ) (view : Nat → Int → σ → Option BackendFile) : Prop where
  negative : ∀ m h s, h < 0 → view m h s = none
  opened : ∀ m f, (ops m).open = some f → ∀ path flags s, 0 ≤ (f path flags s).1 →
    view m (f path flags s).1 s = none ∧
      ∃ file, view m (f path flags s).1 (f path flags s).2 = some file ∧ file.pos = 0 ∧
        (file.appends = true → flags &&& 0x08 ≠ 0)
  open_others : ∀ m f, (ops m).open = some f → ∀ path flags s m' h', ¬ (m' = m ∧ h' = (f path flags s).1) →
    (view m' h' (f path flags s).2).map BackendFile.stand = (view m' h' s).map BackendFile.stand
  read : ∀ m f, (ops m).read = some f → ∀ h len s,
    (view m h (f h len s).2.2.2).map BackendFile.stand = (view m h s).map fun file =>
      (if (f h len s).1 = 0 then file.pos + (f h len s).2.2.1 else file.pos, file.appends)
  read_others : ∀ m f, (ops m).read = some f → ∀ h len s m' h', ¬ (m' = m ∧ h' = h) →
    (view m' h' (f h len s).2.2.2).map BackendFile.stand = (view m' h' s).map BackendFile.stand
  write : ∀ m f, (ops m).write = some f → ∀ h buf len s,
    (view m h (f h buf len s).2).map BackendFile.stand = (view m h s).map fun file =>
      (if (f h buf len s).1 = 0 then file.writeStart + len else file.pos, file.appends)
  write_others : ∀ m f, (ops m).write = some f → ∀ h buf len s m' h', ¬ (m' = m ∧ h' = h) →
    (view m' h' (f h buf len s).2).map BackendFile.stand = (view m' h' s).map BackendFile.stand

/-! ## What the calls are to do -/

/-- The offset a seek asks for. -/
def seekTarget (position size : UInt32) (offset : Int32) (whence : UInt32) : Option Int :=
  if whence = 0 then some offset.toInt
  else if whence = 1 then some (position.toNat + offset.toInt)
  else if whence = 2 then some (size.toNat + offset.toInt)
  else none

namespace FdState

variable {σ : Type*} (ops : Nat → FsOps σ) (view : Nat → Int → σ → Option BackendFile)

/-- The file behind the descriptor in slot `i`. -/
def fileOf (s : FdState σ) (i : Nat) : Option BackendFile := view (s.fds i).mountIdx (s.fds i).fsHandle s.files

/-- **A call keeps the contract**: a read and a write start where `vfs_tell` says, one to append at the end of the
file; after a seek, `vfs_tell` says the offset that was asked for, and the file is there. -/
def AtPosition (s : FdState σ) (call : FdCall) (t : FdState σ) : Prop :=
  match call with
  | .open _ _ => True
  | .read id _ => ∀ i, s.vfsGetFd id = some i → (s.fds i).flags &&& fdFlagRead ≠ 0 →
      (ops (s.fds i).mountIdx).read.isSome → ∀ file, s.fileOf view i = some file → s.vfsTell id = some file.pos
  | .write id _ _ => ∀ i, s.vfsGetFd id = some i → (s.fds i).flags &&& fdFlagWrite ≠ 0 →
      (ops (s.fds i).mountIdx).write.isSome → ∀ file, s.fileOf view i = some file →
      s.vfsTell id = some file.writeStart ∧
        ((s.fds i).flags &&& fdFlagAppend ≠ 0 → file.writeStart = file.size)
  | .seek id offset whence => ∀ i, s.vfsGetFd id = some i → ∀ file, s.fileOf view i = some file →
      ∀ target, seekTarget (s.fds i).position file.size offset whence = some target →
        (t.vfsTell id).map (fun pos => (pos.toNat : Int)) = some target ∧
          (t.fileOf view i).map (fun file => (file.pos.toNat : Int)) = some target
  | .tell _ => True

/-- **Where it does**: a descriptor to append stands at the end of its file when it is written; and a seek asks for
where the descriptor stands, counting from the end only when the descriptor has the size of the file. -/
def Tracked (s : FdState σ) (call : FdCall) : Prop :=
  match call with
  | .write id _ _ => ∀ i, s.vfsGetFd id = some i → (s.fds i).flags &&& fdFlagWrite ≠ 0 →
      (ops (s.fds i).mountIdx).write.isSome → ∀ file, s.fileOf view i = some file →
      (s.fds i).flags &&& fdFlagAppend ≠ 0 → (s.fds i).position = file.size
  | .seek id offset whence => ∀ i, s.vfsGetFd id = some i → ∀ file, s.fileOf view i = some file →
      ∀ target, seekTarget (s.fds i).position file.size offset whence = some target →
        target = (s.fds i).position.toNat ∧ (whence = 2 → (s.fds i).size = file.size)
  | _ => True

/-- Each descriptor of a file has the file to itself and stands where the file stands. -/
def Synced (s : FdState σ) : Prop :=
  ∀ i, (s.fds i).inUse = true → 0 ≤ (s.fds i).fsHandle →
    (∃ file, s.fileOf view i = some file ∧ file.pos = (s.fds i).position ∧
      (file.appends = true → (s.fds i).flags &&& fdFlagAppend ≠ 0)) ∧
    ∀ j, (s.fds j).inUse = true → (s.fds j).mountIdx = (s.fds i).mountIdx →
      (s.fds j).fsHandle = (s.fds i).fsHandle → j = i

variable {ops view} {s t : FdState σ} {i : Nat}

/-! ## Slots -/

theorem inUse_of_getFd {id : UInt32} (h : s.vfsGetFd id = some i) : (s.fds i).inUse = true := by
  have hfound := List.find?_some h
  rw [Bool.and_eq_true] at hfound
  exact hfound.1

theorem vfsTell_of_getFd {id : UInt32} (h : s.vfsGetFd id = some i) : s.vfsTell id = some (s.fds i).position := by
  unfold vfsTell
  rw [h, Option.map_some]

theorem setPosition_fds (s : FdState σ) (i : Nat) (position : UInt32) (j : Nat) :
    ((s.setPosition i position).fds j).inUse = (s.fds j).inUse ∧
      ((s.setPosition i position).fds j).mountIdx = (s.fds j).mountIdx ∧
      ((s.setPosition i position).fds j).fsHandle = (s.fds j).fsHandle ∧
      ((s.setPosition i position).fds j).flags = (s.fds j).flags ∧
      ((s.setPosition i position).fds j).id = (s.fds j).id ∧
      ((s.setPosition i position).fds j).size = (s.fds j).size := by
  by_cases hj : j = i
  · subst hj
    simp [setPosition]
  · simp [setPosition, update_of_ne hj]

@[simp] theorem setPosition_position (s : FdState σ) (i : Nat) (position : UInt32) :
    ((s.setPosition i position).fds i).position = position := by
  simp [setPosition]

theorem setPosition_of_ne (s : FdState σ) (position : UInt32) {i j : Nat} (h : j ≠ i) :
    (s.setPosition i position).fds j = s.fds j := update_of_ne h _ _

theorem getFd_setPosition (s : FdState σ) (i : Nat) (position id : UInt32) :
    (s.setPosition i position).vfsGetFd id = s.vfsGetFd id := by
  unfold vfsGetFd
  congr 1
  funext j
  obtain ⟨hinUse, -, -, -, hid, -⟩ := setPosition_fds s i position j
  rw [hinUse, hid]

/-! ## Files -/

theorem handle_nonneg (hB : Backends ops view) {file : BackendFile} (h : s.fileOf view i = some file) :
    0 ≤ (s.fds i).fsHandle := by
  by_contra hneg
  unfold fileOf at h
  rw [hB.negative _ _ _ (Int.not_le.mp hneg)] at h
  cases h

theorem Synced.pos_eq (hs : s.Synced view) (hB : Backends ops view) (hi : (s.fds i).inUse = true)
    {file : BackendFile} (h : s.fileOf view i = some file) :
    file.pos = (s.fds i).position ∧ (file.appends = true → (s.fds i).flags &&& fdFlagAppend ≠ 0) := by
  obtain ⟨⟨file', hfile', hpos⟩, -⟩ := hs i hi (handle_nonneg hB h)
  rw [h] at hfile'
  cases hfile'
  exact hpos

theorem Synced.of_stand (hs : s.Synced view)
    (hfds : ∀ j, (t.fds j).inUse = (s.fds j).inUse ∧ (t.fds j).mountIdx = (s.fds j).mountIdx ∧
      (t.fds j).fsHandle = (s.fds j).fsHandle ∧ (t.fds j).flags = (s.fds j).flags)
    (hstand : ∀ j, (s.fds j).inUse = true → 0 ≤ (s.fds j).fsHandle → ∀ file, s.fileOf view j = some file →
      (t.fileOf view j).map BackendFile.stand = some ((t.fds j).position, file.appends)) : t.Synced view := by
  intro j hinUse hhandle
  rw [(hfds j).1] at hinUse
  rw [(hfds j).2.2.1] at hhandle
  obtain ⟨⟨file, hfile, -, happends⟩, hown⟩ := hs j hinUse hhandle
  obtain ⟨file', hfile', hstand'⟩ := Option.map_eq_some_iff.mp (hstand j hinUse hhandle file hfile)
  have hpos : file'.pos = (t.fds j).position := congrArg Prod.fst hstand'
  have happ : file'.appends = file.appends := congrArg Prod.snd hstand'
  refine ⟨⟨file', hfile', hpos, ?_⟩, ?_⟩
  · rw [happ, (hfds j).2.2.2]
    exact happends
  · intro k hk hmount hhandle'
    rw [(hfds k).1] at hk
    rw [(hfds k).2.1, (hfds j).2.1] at hmount
    rw [(hfds k).2.2.1, (hfds j).2.2.1] at hhandle'
    exact hown k hk hmount hhandle'

theorem Synced.stand_eq (hs : s.Synced view) (hB : Backends ops view) (hi : (s.fds i).inUse = true)
    {file : BackendFile} (h : s.fileOf view i = some file) :
    (view (s.fds i).mountIdx (s.fds i).fsHandle s.files).map BackendFile.stand =
      some ((s.fds i).position, file.appends) := by
  rw [show view _ _ s.files = some file from h, Option.map_some, ← (hs.pos_eq hB hi h).1]
  rfl

theorem Synced.moved (hs : s.Synced view) (hB : Backends ops view) (hi : (s.fds i).inUse = true) {files : σ}
    {p : UInt32}
    (hself : ∀ file, s.fileOf view i = some file →
      (view (s.fds i).mountIdx (s.fds i).fsHandle files).map BackendFile.stand = some (p, file.appends))
    (hothers : ∀ m h, ¬ (m = (s.fds i).mountIdx ∧ h = (s.fds i).fsHandle) →
      (view m h files).map BackendFile.stand = (view m h s.files).map BackendFile.stand) :
    (({ s with files := files } : FdState σ).setPosition i p).Synced view := by
  have hfds := setPosition_fds ({ s with files := files } : FdState σ) i p
  refine hs.of_stand (fun j => ⟨(hfds j).1, (hfds j).2.1, (hfds j).2.2.1, (hfds j).2.2.2.1⟩) ?_
  intro j hinUse hhandle file hfile
  by_cases hj : j = i
  · subst hj
    rw [setPosition_position]
    unfold fileOf
    rw [(hfds j).2.1, (hfds j).2.2.1]
    exact hself file hfile
  · have hother : ¬ ((s.fds j).mountIdx = (s.fds i).mountIdx ∧ (s.fds j).fsHandle = (s.fds i).fsHandle) := by
      rintro ⟨hmount, hsame⟩
      exact hj ((hs j hinUse hhandle).2 i hi hmount.symm hsame.symm).symm
    rw [setPosition_of_ne _ _ hj]
    unfold fileOf
    rw [setPosition_of_ne _ _ hj]
    exact (hothers _ _ hother).trans (hs.stand_eq hB hinUse hfile)

theorem Synced.added (hs : s.Synced view) (hB : Backends ops view) {k : Nat} (hfree : (s.fds k).inUse = false)
    {fd : FdEntry} {files : σ} {count nextId : UInt32}
    (hfile : 0 ≤ fd.fsHandle → view fd.mountIdx fd.fsHandle s.files = none ∧
      ∃ file, view fd.mountIdx fd.fsHandle files = some file ∧ file.pos = fd.position ∧
        (file.appends = true → fd.flags &&& fdFlagAppend ≠ 0))
    (hothers : ∀ m h, ¬ (m = fd.mountIdx ∧ h = fd.fsHandle) →
      (view m h files).map BackendFile.stand = (view m h s.files).map BackendFile.stand) :
    ({ fds := update s.fds k fd, fdCount := count, nextFd := nextId, files := files } : FdState σ).Synced
      view := by
  have hdistinct : ∀ j, (s.fds j).inUse = true → 0 ≤ (s.fds j).fsHandle →
      ¬ ((s.fds j).mountIdx = fd.mountIdx ∧ (s.fds j).fsHandle = fd.fsHandle) := by
    rintro j hinUse hhandle ⟨hmount, hsame⟩
    obtain ⟨⟨file, hold, -⟩, -⟩ := hs j hinUse hhandle
    unfold fileOf at hold
    rw [hsame] at hhandle
    rw [hmount, hsame, (hfile hhandle).1] at hold
    cases hold
  intro j hinUse hhandle
  by_cases hj : j = k
  · subst hj
    simp only [update_self] at hinUse hhandle ⊢
    refine ⟨?_, fun l hl hmount hsame => ?_⟩
    · obtain ⟨file, hfile, hpos⟩ := (hfile hhandle).2
      refine ⟨file, ?_, hpos⟩
      unfold fileOf
      simp only [update_self]
      exact hfile
    · by_contra hne
      rw [update_of_ne hne] at hl hmount hsame
      exact hdistinct l hl (hsame ▸ hhandle) ⟨hmount, hsame⟩
  · simp only [update_of_ne hj] at hinUse hhandle ⊢
    obtain ⟨⟨file, hold, hpos, happends⟩, hown⟩ := hs j hinUse hhandle
    have hstand := (hothers _ _ (hdistinct j hinUse hhandle)).trans (hs.stand_eq hB hinUse hold)
    obtain ⟨file', hfile', hstand'⟩ := Option.map_eq_some_iff.mp hstand
    refine ⟨⟨file', ?_, congrArg Prod.fst hstand', ?_⟩, fun l hl hmount hsame => ?_⟩
    · unfold fileOf
      simp only [update_of_ne hj]
      exact hfile'
    · rw [show file'.appends = file.appends from congrArg Prod.snd hstand']
      exact happends
    · by_cases hl' : l = k
      · subst hl'
        rw [update_self] at hmount hsame
        exact absurd ⟨hmount.symm, hsame.symm⟩ (hdistinct j hinUse hhandle)
      · rw [update_of_ne hl'] at hl hmount hsame
        exact hown l hl hmount hsame

theorem openFlags_append {flags : UInt32} (h : flags &&& 0x08 ≠ 0) : openFlags flags &&& fdFlagAppend ≠ 0 := by
  unfold openFlags
  rw [if_pos h]
  split <;> split <;> decide

theorem setPosition_self (s : FdState σ) (i : Nat) : s.setPosition i (s.fds i).position = s := by
  unfold setPosition
  rw [update_eq_self]

/-! ## One call -/

theorem synced_open (hB : Backends ops view) (hs : s.Synced view) (table : VfsState) (path : List Char)
    (flags : UInt32) : (s.vfsOpen table ops path flags).2.Synced view := by
  unfold vfsOpen
  split
  · exact hs
  split
  · exact hs
  rename_i mnt rel _
  split
  · exact hs
  rename_i k hk
  have hfree : (s.fds k).inUse = false := by simpa using List.find?_some hk
  cases hop : (ops mnt).open with
  | none =>
    dsimp only
    split
    · exact hs
    · exact hs.added hB hfree (fun h => absurd h (show ¬ (0 : Int) ≤ -1 by decide)) fun _ _ _ => rfl
  | some f =>
    have hothers := hB.open_others mnt f hop rel flags s.files
    dsimp only
    split
    · rename_i hrefused
      refine hs.of_stand (fun _ => ⟨rfl, rfl, rfl, rfl⟩) fun j hinUse hhandle file hfile => ?_
      refine (hothers _ _ fun h => ?_).trans ?_
      · rw [h.2] at hhandle
        omega
      · exact hs.stand_eq hB hinUse hfile
    · refine hs.added hB hfree (fun hpos => ?_) hothers
      obtain ⟨hnew, file, hfile, hfront, happends⟩ := hB.opened mnt f hop rel flags s.files hpos
      refine ⟨hnew, file, hfile, hfront, fun h => ?_⟩
      exact openFlags_append (happends h)

theorem synced_read (hB : Backends ops view) (hs : s.Synced view) (id len : UInt32) :
    (s.vfsRead ops id len).2.2.2.Synced view := by
  unfold vfsRead
  split
  · exact hs
  rename_i i hget
  dsimp only
  split
  · exact hs
  split
  · exact hs
  rename_i f hf
  have hself := hB.read _ f hf (s.fds i).fsHandle len s.files
  have hothers := hB.read_others _ f hf (s.fds i).fsHandle len s.files
  have hinUse := inUse_of_getFd hget
  split
  · rename_i hr
    refine hs.moved hB hinUse (fun file hfile => ?_) hothers
    rw [hself, show view _ _ s.files = some file from hfile, Option.map_some, if_pos hr, (hs.pos_eq hB hinUse hfile).1]
  · rename_i hr
    have hmoved := hs.moved hB hinUse (p := (s.fds i).position) (fun file hfile => ?_) hothers
    · exact (setPosition_self ({ s with files := _ } : FdState σ) i) ▸ hmoved
    rw [hself, show view _ _ s.files = some file from hfile, Option.map_some, if_neg hr, (hs.pos_eq hB hinUse hfile).1]

theorem synced_write (hB : Backends ops view) (hs : s.Synced view) (id : UInt32) (buf : List UInt8) (len : UInt32)
    (hstart : ∀ i, s.vfsGetFd id = some i → (s.fds i).flags &&& fdFlagWrite ≠ 0 →
      (ops (s.fds i).mountIdx).write.isSome → ∀ file, s.fileOf view i = some file →
      file.writeStart = (s.fds i).position) : (s.vfsWrite ops id buf len).2.Synced view := by
  unfold vfsWrite
  split
  · exact hs
  rename_i i hget
  dsimp only
  split
  · exact hs
  rename_i hflag
  split
  · exact hs
  rename_i f hf
  have hself := hB.write _ f hf (s.fds i).fsHandle buf len s.files
  have hothers := hB.write_others _ f hf (s.fds i).fsHandle buf len s.files
  have hinUse := inUse_of_getFd hget
  split
  · rename_i hr
    refine hs.moved hB hinUse (fun file hfile => ?_) hothers
    rw [hself, show view _ _ s.files = some file from hfile, Option.map_some, if_pos hr,
      hstart i hget hflag (by rw [hf]; rfl) file hfile]
  · rename_i hr
    have hmoved := hs.moved hB hinUse (p := (s.fds i).position) (fun file hfile => ?_) hothers
    · exact (setPosition_self ({ s with files := _ } : FdState σ) i) ▸ hmoved
    rw [hself, show view _ _ s.files = some file from hfile, Option.map_some, if_neg hr, (hs.pos_eq hB hinUse hfile).1]

/-! ## What a seek asks for -/

theorem toUInt32_cast (offset : Int32) : (offset.toUInt32.toNat : Int) = offset.toInt % 2 ^ 32 := by
  have hcond : offset.toInt = _ := BitVec.toInt_eq_toNat_cond offset.toUInt32.toBitVec
  rw [UInt32.toNat_toBitVec] at hcond
  have hlt := offset.toUInt32.toNat_lt
  split at hcond <;> omega

theorem add_toUInt32_cast (n : UInt32) (offset : Int32) :
    ((n + offset.toUInt32).toNat : Int) = (n.toNat + offset.toInt) % 2 ^ 32 := by
  have hoffset := toUInt32_cast offset
  rw [UInt32.toNat_add]
  omega

theorem seek_iff (fd : FdEntry) {size pos : UInt32} (hpos : pos = fd.position) {offset : Int32} {whence : UInt32}
    {target : Int} (h : seekTarget fd.position size offset whence = some target) :
    ∃ newPos, seekPosition fd offset whence = some newPos ∧
      (((newPos.toNat : Int) = target ∧ (pos.toNat : Int) = target) ↔
        (target = fd.position.toNat ∧ (whence = 2 → fd.size = size))) := by
  subst hpos
  have hposition := fd.position.toNat_lt
  unfold seekTarget at h
  unfold seekPosition
  split at h
  · rename_i h0
    cases h
    refine ⟨offset.toUInt32, if_pos h0, ?_⟩
    have hcast := toUInt32_cast offset
    have hne : whence ≠ 2 := by rw [h0]; decide
    simp only [hne, false_implies, and_true]
    omega
  rename_i h0
  split at h
  · rename_i h1
    cases h
    refine ⟨fd.position + offset.toUInt32, by rw [if_neg h0, if_pos h1], ?_⟩
    have hcast := add_toUInt32_cast fd.position offset
    have hne : whence ≠ 2 := by rw [h1]; decide
    simp only [hne, false_implies, and_true]
    omega
  rename_i h1
  split at h
  · rename_i h2
    cases h
    refine ⟨fd.size + offset.toUInt32, by rw [if_neg h0, if_neg h1, if_pos h2], ?_⟩
    have hcast := add_toUInt32_cast fd.size offset
    have hsize := fd.size.toNat_lt
    have hsize' := size.toNat_lt
    simp only [h2, true_implies, ← UInt32.toNat_inj]
    omega
  · cases h

theorem seekTarget_of_position {fd : FdEntry} {offset : Int32} {whence newPos : UInt32}
    (h : seekPosition fd offset whence = some newPos) (size : UInt32) :
    ∃ target, seekTarget fd.position size offset whence = some target := by
  rw [← Option.isSome_iff_exists]
  have hsome : (seekPosition fd offset whence).isSome = true := by rw [h]; rfl
  revert hsome
  unfold seekPosition seekTarget
  split_ifs <;> simp

/-! ## Runs -/

theorem writeStart_iff {file : BackendFile} {p : UInt32} {A : Prop} (hpos : file.pos = p)
    (happends : file.appends = true → A) :
    (p = file.writeStart ∧ (A → file.writeStart = file.size)) ↔ (A → p = file.size) := by
  subst hpos
  unfold BackendFile.writeStart
  cases hmode : file.appends with
  | false => simp
  | true =>
    have hA : A := happends hmode
    simp [hA]

theorem seek_state {id : UInt32} {offset : Int32} {whence newPos : UInt32} (hget : s.vfsGetFd id = some i)
    (hnew : seekPosition (s.fds i) offset whence = some newPos) :
    (s.vfsSeek id offset whence).2 = s.setPosition i newPos := by
  unfold vfsSeek
  rw [hget]
  dsimp only
  rw [hnew]

theorem fileOf_setPosition (s : FdState σ) (i : Nat) (position : UInt32) (j : Nat) :
    (s.setPosition i position).fileOf view j = s.fileOf view j := by
  obtain ⟨-, hmount, hhandle, -⟩ := setPosition_fds s i position j
  unfold fileOf
  rw [hmount, hhandle]
  rfl

variable (table : VfsState)

theorem atPosition_iff (hB : Backends ops view) (hs : s.Synced view) (call : FdCall) :
    s.AtPosition ops view call (s.next table ops call) ↔ s.Tracked ops view call := by
  cases call with
  | «open» path flags => exact Iff.rfl
  | tell id => exact Iff.rfl
  | read id len =>
    refine iff_of_true (fun i hget _ _ file hfile => ?_) trivial
    rw [vfsTell_of_getFd hget, (hs.pos_eq hB (inUse_of_getFd hget) hfile).1]
  | write id buf len =>
    refine forall_congr' fun i => forall_congr' fun hget => forall_congr' fun _ => forall_congr' fun _ =>
      forall_congr' fun file => forall_congr' fun hfile => ?_
    obtain ⟨hpos, happends⟩ := hs.pos_eq hB (inUse_of_getFd hget) hfile
    rw [vfsTell_of_getFd hget, Option.some_inj]
    exact writeStart_iff hpos happends
  | seek id offset whence =>
    refine forall_congr' fun i => forall_congr' fun hget => forall_congr' fun file => forall_congr' fun hfile =>
      forall_congr' fun target => forall_congr' fun htarget => ?_
    obtain ⟨hpos, -⟩ := hs.pos_eq hB (inUse_of_getFd hget) hfile
    obtain ⟨newPos, hnew, hiff⟩ := seek_iff (s.fds i) hpos htarget
    have hstate : s.next table ops (.seek id offset whence) = s.setPosition i newPos := seek_state hget hnew
    rw [hstate, fileOf_setPosition, hfile, vfsTell_of_getFd ((getFd_setPosition ..).trans hget),
      setPosition_position, Option.map_some, Option.map_some, Option.some_inj, Option.some_inj]
    exact hiff

theorem synced_next (hB : Backends ops view) (hs : s.Synced view) (call : FdCall)
    (hcall : s.AtPosition ops view call (s.next table ops call)) : (s.next table ops call).Synced view := by
  cases call with
  | «open» path flags => exact synced_open hB hs table path flags
  | tell id => exact hs
  | read id len => exact synced_read hB hs id len
  | write id buf len =>
    refine synced_write hB hs id buf len fun i hget hflag hop file hfile => ?_
    have htell := (hcall i hget hflag hop file hfile).1
    rw [vfsTell_of_getFd hget, Option.some_inj] at htell
    exact htell.symm
  | seek id offset whence =>
    show (s.vfsSeek id offset whence).2.Synced view
    cases hget : s.vfsGetFd id with
    | none =>
      unfold vfsSeek
      rw [hget]
      exact hs
    | some i =>
      cases hnew : seekPosition (s.fds i) offset whence with
      | none =>
        unfold vfsSeek
        rw [hget]
        dsimp only
        rw [hnew]
        exact hs
      | some newPos =>
        have hinUse := inUse_of_getFd hget
        have hstate := seek_state hget hnew
        rw [hstate]
        refine @Synced.moved _ _ _ s _ hs hB hinUse s.files _ (fun file hfile => ?_) fun _ _ _ => rfl
        obtain ⟨target, htarget⟩ := seekTarget_of_position hnew file.size
        have hthere := hcall i hget file hfile target htarget
        rw [show s.next table ops (.seek id offset whence) = s.setPosition i newPos from hstate,
          fileOf_setPosition, hfile, vfsTell_of_getFd ((getFd_setPosition ..).trans hget), setPosition_position,
          Option.map_some, Option.map_some, Option.some_inj, Option.some_inj] at hthere
        have hsame : file.pos = newPos := UInt32.toNat_inj.mp (by omega)
        rw [show view _ _ s.files = some file from hfile, Option.map_some, ← hsame]
        rfl

/-- **A run keeps the contract exactly when all its calls are tracked.** -/
theorem offsets_iff (hB : Backends ops view) (hs : s.Synced view) {run : List (FdCall × FdState σ)}
    (hrun : Trace (fun s call t => t = s.next table ops call) s run) :
    AllSteps (AtPosition ops view) s run ↔ Guarded (Tracked ops view) s run := by
  refine hrun.allSteps_iff_guarded (J := Synced view) ?_ ?_ hs
  · rintro s call t hs rfl
    exact atPosition_iff table hB hs call
  · rintro s call t hs rfl hcall
    exact synced_next table hB hs call hcall

/-! ## The size a descriptor has -/

theorem size_next (s : FdState σ) (call : FdCall) (j : Nat) :
    ((s.next table ops call).fds j).size = (s.fds j).size := by
  have hset := fun (s : FdState σ) i position => (setPosition_fds s i position j).2.2.2.2.2
  cases call with
  | tell id => rfl
  | read id len =>
    show ((s.vfsRead ops id len).2.2.2.fds j).size = _
    unfold vfsRead
    split
    · rfl
    dsimp only
    split
    · rfl
    split
    · rfl
    split
    · exact hset _ _ _
    · rfl
  | write id buf len =>
    show ((s.vfsWrite ops id buf len).2.fds j).size = _
    unfold vfsWrite
    split
    · rfl
    dsimp only
    split
    · rfl
    split
    · rfl
    split
    · exact hset _ _ _
    · rfl
  | seek id offset whence =>
    show ((s.vfsSeek id offset whence).2.fds j).size = _
    unfold vfsSeek
    split
    · rfl
    split
    · rfl
    · exact hset _ _ _
  | «open» path flags =>
    show ((s.vfsOpen table ops path flags).2.fds j).size = _
    unfold vfsOpen
    split
    · rfl
    split
    · rfl
    split
    · rfl
    rename_i k _
    extract_lets opened
    split
    · rfl
    · by_cases hj : j = k
      · subst hj
        dsimp only
        rw [update_self]
      · dsimp only
        rw [update_of_ne hj]

/-- A seek from the end of the file counts from 0, whatever the file's size is. -/
theorem size_run {run : List (FdCall × FdState σ)}
    (hrun : Trace (fun s call t => t = s.next table ops call) s run) (hs : ∀ j, (s.fds j).size = 0) :
    AllStates (fun t => ∀ i offset, seekPosition (t.fds i) offset 2 = some offset.toUInt32) s run := by
  refine hrun.allSteps_of_invariant (I := fun s => ∀ j, (s.fds j).size = 0) ?_ hs
  rintro s call t hs rfl
  have ht : ∀ j, ((s.next table ops call).fds j).size = 0 := fun j => (size_next table s call j).trans (hs j)
  refine ⟨ht, fun i offset => ?_⟩
  unfold seekPosition
  rw [if_neg (by decide), if_neg (by decide), if_pos rfl, ht i, UInt32.zero_add]

end FdState

/-! ## A file system of one file -/

/-- One file, which can be open once. -/
structure OneFile where
  data : List UInt8
  isOpen : Bool
  file : BackendFile

namespace OneFile

/-- An open of the one mount that has the file. -/
def openFile (mnt : Nat) (_path : List Char) (flags : UInt32) (s : OneFile) : Int × OneFile :=
  if mnt ≠ 0 ∨ s.isOpen = true then (-1, s)
  else
    (0, { s with
      isOpen := true
      file := { pos := 0, size := UInt32.ofNat s.data.length, appends := decide (flags &&& 0x08 ≠ 0) } })

/-- Reads up to `len` bytes from the position on. -/
def readFile (mnt : Nat) (h : Int) (len : UInt32) (s : OneFile) : Int × List UInt8 × UInt32 × OneFile :=
  if mnt = 0 ∧ h = 0 ∧ s.isOpen = true then
    let bytes := (s.data.drop s.file.pos.toNat).take len.toNat
    let out := UInt32.ofNat bytes.length
    (0, bytes, out, { s with file := { s.file with pos := s.file.pos + out } })
  else (-1, [], 0, s)

/-- Writes the bytes of `buf` over those from the start of the write on. -/
def writeFile (mnt : Nat) (h : Int) (buf : List UInt8) (len : UInt32) (s : OneFile) : Int × OneFile :=
  if mnt = 0 ∧ h = 0 ∧ s.isOpen = true then
    let start := s.file.writeStart
    let data := s.data.take start.toNat ++ buf.take len.toNat ++ s.data.drop (start.toNat + len.toNat)
    (0, { s with
      data := data
      file := { s.file with pos := start + len, size := UInt32.ofNat data.length } })
  else (-1, s)

/-- The operations of a mount. -/
def ops (mnt : Nat) : FsOps OneFile where
  «open» := some (openFile mnt)
  read := some (readFile mnt)
  write := some (writeFile mnt)

/-- The file when it is open. -/
def view (mnt : Nat) (h : Int) (s : OneFile) : Option BackendFile :=
  if mnt = 0 ∧ h = 0 ∧ s.isOpen = true then some s.file else none

theorem view_of_open {s : OneFile} (h : s.isOpen = true) (m : Nat) (n : Int) :
    view m n s = if m = 0 ∧ n = 0 then some s.file else none := by
  simp only [view, h, and_true]

theorem view_of_closed {s : OneFile} (h : s.isOpen = false) (m : Nat) (n : Int) : view m n s = none := by
  simp only [view, h, Bool.false_eq_true, and_false, if_false]

theorem view_others {s t : OneFile} {m m' : Nat} {h h' : Int} (hfile : m = 0 ∧ h = 0 ∧ s.isOpen = true)
    (ht : t.isOpen = true) (hother : ¬ (m' = m ∧ h' = h)) :
    (view m' h' t).map BackendFile.stand = (view m' h' s).map BackendFile.stand := by
  obtain ⟨rfl, rfl, hs⟩ := hfile
  rw [view_of_open ht, view_of_open hs, if_neg hother, if_neg hother]

theorem backends : Backends ops view where
  negative := by
    intro m h s hneg
    exact if_neg (by omega)
  opened := by
    rintro m _ ⟨⟩ path flags s hpos
    unfold openFile at hpos ⊢
    by_cases hbusy : m ≠ 0 ∨ s.isOpen = true
    · rw [if_pos hbusy] at hpos
      exact absurd hpos (show ¬ (0 : Int) ≤ -1 by decide)
    · rw [if_neg hbusy]
      obtain ⟨hm, hclosed⟩ := not_or.mp hbusy
      exact ⟨view_of_closed (Bool.eq_false_iff.mpr hclosed) _ _, _, if_pos ⟨not_not.mp hm, rfl, rfl⟩, rfl,
        fun h => of_decide_eq_true h⟩
  open_others := by
    rintro m _ ⟨⟩ path flags s m' h' hother
    unfold openFile at hother ⊢
    by_cases hbusy : m ≠ 0 ∨ s.isOpen = true
    · rw [if_pos hbusy]
    · rw [if_neg hbusy] at hother ⊢
      obtain ⟨hm, hclosed⟩ := not_or.mp hbusy
      rw [view_of_closed (Bool.eq_false_iff.mpr hclosed), view_of_open rfl, if_neg]
      rintro ⟨hm', hh'⟩
      exact hother ⟨hm'.trans (not_not.mp hm).symm, hh'⟩
  read := by
    rintro m _ ⟨⟩ h len s
    unfold readFile view
    split
    · rfl
    · rfl
  read_others := by
    rintro m _ ⟨⟩ h len s m' h' hother
    unfold readFile
    split
    · rename_i hfile
      exact view_others hfile hfile.2.2 hother
    · rfl
  write := by
    rintro m _ ⟨⟩ h buf len s
    unfold writeFile view
    split
    · rfl
    · rfl
  write_others := by
    rintro m _ ⟨⟩ h buf len s m' h' hother
    unfold writeFile
    split
    · rename_i hfile
      exact view_others hfile hfile.2.2 hother
    · rfl

/-- A table with one mount, at the root, and no descriptor. -/
def table : VfsState :=
  (vfsInit.vfsMount { mountPath := some ['/'], fsName := some ['f'], drive := 0, fatWidth := 0, ops := none }).2

/-- No descriptor is open, and the file has the bytes 10, 11 and so on up to 17. -/
def booted : FdState OneFile :=
  { fds := fun _ => { id := 0, flags := 0, position := 0, size := 0, mountIdx := 0, fsHandle := 0, inUse := false }
    fdCount := 0
    nextFd := 3
    files := { data := [10, 11, 12, 13, 14, 15, 16, 17], isOpen := false,
               file := { pos := 0, size := 0, appends := false } } }

theorem booted_synced : booted.Synced view := by
  intro i hinUse
  cases hinUse

/-- The state after the calls. -/
def after (calls : List FdCall) : FdState OneFile := calls.foldl (FdState.next table ops) booted

/-- A run that writes two bytes, asks for where it is and reads on. -/
theorem kept_there : AllSteps (FdState.AtPosition ops view) booted (traceOf (FdState.next table ops) booted
      [.open ['/', 'a'] 0x06, .write 3 [1, 2] 2, .seek 3 0 1, .read 3 4]) := by
  refine (FdState.offsets_iff table backends booted_synced (trace_traceOf _ _ _)).mpr ?_
  have hget : (after [.open ['/', 'a'] 0x06]).vfsGetFd 3 = some 0 := by decide
  have hget' : (after [.open ['/', 'a'] 0x06, .write 3 [1, 2] 2]).vfsGetFd 3 = some 0 := by decide
  refine ⟨trivial, fun i hi _ _ file _ happend => ?_, fun i hi file _ target htarget => ?_, trivial, trivial⟩
  · cases hget.symm.trans hi
    exact absurd happend (by decide)
  · cases hget'.symm.trans hi
    cases htarget
    exact ⟨by decide, fun h => absurd h (by decide)⟩

/-- After a seek to 5, `vfs_tell` says 5, and a read gets the bytes from the front. -/
theorem seek_unseen : (after [.open ['/', 'a'] 0x02, .seek 3 5 0]).vfsTell 3 = some 5 ∧
      ((after [.open ['/', 'a'] 0x02, .seek 3 5 0]).vfsRead ops 3 2).2.1 = [10, 11] ∧
      ¬ AllSteps (FdState.AtPosition ops view) booted (traceOf (FdState.next table ops) booted
        [.open ['/', 'a'] 0x02, .seek 3 5 0, .read 3 2]) := by
  refine ⟨by decide, by decide, fun h => ?_⟩
  have hseek := (h.2.1 0 (by decide) _ rfl 5 (by decide)).2
  exact absurd hseek (by decide)

end OneFile

end Chicago95.Stage2
