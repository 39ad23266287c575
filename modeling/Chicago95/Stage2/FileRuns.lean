/-
# Chicago95.Stage2.FileRuns — an open file under writes, seeks and reads.

What a file is for is an array of bytes with a position (`ByteFile`). Histories of calls on an open file,
on a volume with a table in memory, are watched by such an array: a write that returns 0 stores all its
bytes there and moves the position past them.
-/
import Chicago95.Stage2.FileBytes

namespace Chicago95.Stage2

open Chicago95.Lib.Transition

/-! ## Byte arrays with a position -/

/-- A file as its users see it. -/
structure ByteFile where
  bytes : Nat → UInt8
  size : Nat
  position : Nat

namespace ByteFile

/-- All bytes are stored, and the position is moved past them. -/
def write (f : ByteFile) (buf : Nat → UInt8) (len : Nat) : ByteFile :=
  { bytes := overlay f.bytes f.position buf 0 len, size := max f.size (f.position + len),
    position := f.position + len }

/-- How many bytes a read gets: those there are, up to the length. -/
def readCount (f : ByteFile) (len : Nat) : Nat := min len (f.size - f.position)

/-- The position past a read. -/
def read (f : ByteFile) (len : Nat) : ByteFile := { f with position := f.position + f.readCount len }

/-- The position moved. -/
def seek (f : ByteFile) (offset : Nat) : ByteFile := { f with position := offset }

end ByteFile

/-! ## Histories -/

/-- An open file on a volume, its clusters in order, and the array it stands for. -/
structure FileRuns where
  fs : Fs
  file : File
  chain : List Nat
  array : ByteFile

/-- A call on the file, with the caller's buffer. -/
inductive FileCall where
  | write (buf : Nat → UInt8) (len : Nat)
  | seek (offset : Nat)
  | read (buf : Nat → UInt8) (len : Nat)

namespace FileRuns

/-- One call. -/
def next (s : FileRuns) : FileCall → FileRuns
  | .write buf len =>
    let r := s.fs.fileWrite s.file buf len
    { fs := r.2.fs, file := r.2.file, chain := s.chain ++ r.2.taken,
      array := if r.1 = 0 then s.array.write buf len else s.array }
  | .seek offset => { s with file := s.file.fileSeek offset, array := s.array.seek offset }
  | .read buf len =>
    let r := s.fs.fileRead s.file buf len
    { s with fs := r.2.fs, file := r.2.file, array := s.array.read len }

/-- Lengths are 32-bit, and offsets in the file. -/
def Allowed (s : FileRuns) : FileCall → Prop
  | .write _ len => len < 2 ^ 32
  | .seek offset => offset ≤ s.array.size
  | .read _ len => len < 2 ^ 32

/-- One step of a history. -/
def Step (s : FileRuns) (call : FileCall) (t : FileRuns) : Prop := s.Allowed call ∧ t = s.next call

/-- The file has the array's bytes, size and position. -/
structure AsArray (s : FileRuns) : Prop where
  position : s.file.position = s.array.position
  size : s.file.fileSize = s.array.size
  stored : Stored s.fs s.chain s.array.bytes s.array.size

/-- A read returns the array's bytes from the position on. -/
def ReadRight (s : FileRuns) : FileCall → Prop
  | .read buf len =>
    (s.fs.fileRead s.file buf len).2.done = s.array.readCount len ∧
      ∀ i, i < s.array.readCount len →
        (s.fs.fileRead s.file buf len).2.buf i = s.array.bytes (s.array.position + i)
  | _ => True

/-- **What one step of a history shows.** -/
def Behaves (s : FileRuns) (call : FileCall) (t : FileRuns) : Prop := s.ReadRight call ∧ t.AsArray

/-- A write that stays below the end of the cluster with the last byte. -/
def WritesInside (s : FileRuns) (len : Nat) : Prop :=
  s.file.position < s.file.fileSize ∧ s.file.AtCursor s.chain ∧
    (s.file.position + len - 1) / 512 ≤ (s.file.fileSize - 1) / 512

/-- A write of a cluster at most at the end of full clusters, with the last one current and a free one to
take. -/
def WritesAtEnd (s : FileRuns) (len : Nat) : Prop :=
  s.file.position = s.file.fileSize ∧ s.file.fileSize = 512 * s.chain.length ∧ len ≤ 512 ∧
    s.file.currentCluster = s.chain.getLastD 0 ∧
    ∃ c, 2 ≤ c ∧ c < s.fs.mount.totalClusters ∧ s.fs.mount.entry c = 0

/-- **The condition on a call**: memory for pages does not run out, and a read or write that moves bytes is
made at the position's cluster, a write within the clusters there are or of a new one. -/
def InPlace (s : FileRuns) : FileCall → Prop
  | .write _ len =>
    s.file.mode = 0 ∨ len = 0 ∨ (s.fs.Ready ∧ (s.WritesInside len ∨ s.WritesAtEnd len))
  | .seek _ => True
  | .read _ len =>
    len = 0 ∨ s.file.fileSize ≤ s.file.position ∨ (s.fs.Ready ∧ s.file.AtCursor s.chain)

/-! ## The invariant -/

/-- What a history in place keeps. -/
structure Inv (s : FileRuns) : Prop where
  volume : OnVolume s.fs s.chain
  array : s.AsArray
  first : s.file.firstCluster = s.chain.headD 0
  isOpen : s.file.isOpen = true
  within : s.array.position ≤ s.array.size

/-- A file as `brainfs_file_open` leaves it: at its first cluster, at position 0. -/
structure Opened (s : FileRuns) : Prop extends Inv s where
  current : s.file.currentCluster = s.file.firstCluster
  atStart : s.file.position = 0

variable {s : FileRuns}

/-! ## One step -/

theorem read_step (h : s.Inv) {buf : Nat → UInt8} {len : Nat} (hlen : len < 2 ^ 32)
    (hplace : s.InPlace (.read buf len)) :
    (s.next (.read buf len)).Inv ∧ s.Behaves (.read buf len) (s.next (.read buf len)) := by
  have hcall : s.fs.fileRead s.file buf len = (0, Transfer.readLoop len len
      { fs := s.fs, file := s.file, buf := buf, done := 0, taken := [] }) := by
    unfold Fs.fileRead
    rw [h.isOpen, h.volume.found]
    rfl
  have hto : ReadTo s.array.bytes { fs := s.fs, file := s.file, buf := buf, done := 0, taken := [] }
      (s.array.readCount len) (s.fs.fileRead s.file buf len).2 := by
    rw [hcall]
    have hcount : s.array.readCount len = min (len - 0) (s.file.fileSize - s.file.position) := by
      rw [h.array.size, h.array.position]
      rfl
    rw [hcount]
    by_cases hmoves : 0 < len ∧ s.file.position < s.file.fileSize
    · rcases hplace with h0 | hend | ⟨hr, hc⟩
      · omega
      · omega
      · refine Transfer.readLoop_spec hlen h.volume ?_ hr (Nat.le_refl _) fun _ _ => hc
        show Stored s.fs s.chain s.array.bytes s.file.fileSize
        rw [h.array.size]
        exact h.array.stored
    · rw [show min (len - 0) (s.file.fileSize - s.file.position) = 0 by omega]
      have hstop : Transfer.readLoop len len
          { fs := s.fs, file := s.file, buf := buf, done := 0, taken := [] }
          = { fs := s.fs, file := s.file, buf := buf, done := 0, taken := [] } := by
        cases len with
        | zero => rfl
        | succ n =>
          unfold Transfer.readLoop
          rw [if_neg hmoves]
      rw [hstop]
      exact Transfer.readTo_zero _
  obtain ⟨c, hfile⟩ := hto.file
  have harray : (s.next (.read buf len)).AsArray := by
    refine ⟨?_, ?_, hto.fs.stored h.array.stored⟩
    · show (s.fs.fileRead s.file buf len).2.file.position = _
      rw [hfile]
      exact congrArg (· + s.array.readCount len) h.array.position
    · show (s.fs.fileRead s.file buf len).2.file.fileSize = _
      rw [hfile]
      exact h.array.size
  refine ⟨⟨hto.fs.onVolume h.volume, harray, ?_, ?_, ?_⟩, ⟨hto.done.trans (Nat.zero_add _),
    fun i hi => ?_⟩, harray⟩
  · show (s.fs.fileRead s.file buf len).2.file.firstCluster = _
    rw [hfile]
    exact h.first
  · show (s.fs.fileRead s.file buf len).2.file.isOpen = true
    rw [hfile]
    exact h.isOpen
  · show s.array.position + s.array.readCount len ≤ s.array.size
    have hwithin := h.within
    unfold ByteFile.readCount
    omega
  · rw [hto.buf i, if_pos ⟨Nat.zero_le i, by omega⟩, h.array.position]
    rfl

theorem seek_step (h : s.Inv) {offset : Nat} (hin : offset ≤ s.array.size) :
    (s.next (.seek offset)).Inv ∧ s.Behaves (.seek offset) (s.next (.seek offset)) := by
  have harray : (s.next (.seek offset)).AsArray := ⟨rfl, h.array.size, h.array.stored⟩
  exact ⟨⟨h.volume, harray, h.first, h.isOpen, hin⟩, trivial, harray⟩

theorem fileWrite_eq {fs : Fs} {file : File} (hopen : file.isOpen = true) (hfound : fs.findMount = true)
    (hmode : file.mode ≠ 0) (buf : Nat → UInt8) (len : Nat) :
    fs.fileWrite file buf len = (0, Transfer.writeLoop len len
      { fs := fs, file := file, buf := buf, done := 0, taken := [] }) := by
  unfold Fs.fileWrite
  rw [hopen, hfound]
  simp only [Bool.true_eq_false, hmode, false_or, if_false]

theorem Inv.of_write (h : s.Inv) {buf : Nat → UInt8} {len : Nat} {t : Transfer}
    (hcall : s.fs.fileWrite s.file buf len = (0, t)) (hvolume : OnVolume t.fs (s.chain ++ t.taken))
    (hposition : t.file.position = s.file.position + len)
    (hsize : t.file.fileSize = max s.file.fileSize (s.file.position + len))
    (hfirst : t.file.firstCluster = (s.chain ++ t.taken).headD 0) (hopen : t.file.isOpen = true)
    (hstored : Stored t.fs (s.chain ++ t.taken) (overlay s.array.bytes s.file.position buf 0 len)
      (max s.file.fileSize (s.file.position + len))) : (s.next (.write buf len)).Inv := by
  have hnext : s.next (.write buf len) = { fs := t.fs, file := t.file, chain := s.chain ++ t.taken,
                                           array := s.array.write buf len } := by
    simp only [next, hcall, if_true]
  rw [h.array.size, h.array.position] at hstored hsize
  rw [h.array.position] at hposition
  rw [hnext]
  exact ⟨hvolume, ⟨hposition, hsize, hstored⟩, hfirst, hopen, Nat.le_max_right _ _⟩

theorem write_step (h : s.Inv) {buf : Nat → UInt8} {len : Nat} (hplace : s.InPlace (.write buf len)) :
    (s.next (.write buf len)).Inv ∧ s.Behaves (.write buf len) (s.next (.write buf len)) := by
  suffices hinv : (s.next (.write buf len)).Inv from ⟨hinv, trivial, hinv.array⟩
  by_cases hmode : s.file.mode = 0
  · -- refused
    have hcall : s.fs.fileWrite s.file buf len
        = (-2, { fs := s.fs, file := s.file, buf := buf, done := 0, taken := [] }) := by
      unfold Fs.fileWrite
      rw [if_pos (Or.inr hmode)]
    have hnext : s.next (.write buf len) = s := by
      simp only [next, hcall, List.append_nil]
      rfl
    rw [hnext]
    exact h
  have hcall := fileWrite_eq h.isOpen h.volume.found hmode buf len
  have hstored : Stored s.fs s.chain s.array.bytes s.file.fileSize := by
    rw [h.array.size]
    exact h.array.stored
  rcases Nat.eq_zero_or_pos len with rfl | hpos
  · have hwithin := h.within
    rw [← h.array.size, ← h.array.position] at hwithin
    have hmax : max s.file.fileSize (s.file.position + 0) = s.file.fileSize := by omega
    refine h.of_write hcall ?_ rfl hmax.symm ?_ h.isOpen ?_
    · exact (List.append_nil s.chain).symm ▸ h.volume
    · exact (List.append_nil s.chain).symm ▸ h.first
    · rw [overlay_zero, hmax]
      exact (List.append_nil s.chain).symm ▸ hstored
  rcases hplace with h0 | h0 | ⟨hr, ⟨hp, hc, hreach⟩ | ⟨hp, hfull, hfits, hcur, hfree⟩⟩
  · exact absurd h0 hmode
  · omega
  · have hto := Transfer.writeLoop_inside
      (s := { fs := s.fs, file := s.file, buf := buf, done := 0, taken := [] })
      h.volume hstored hr hpos (Nat.le_refl len) hp hc hreach
    obtain ⟨c, hfile⟩ := hto.file
    have hchain : s.chain ++ (Transfer.writeLoop len len
        { fs := s.fs, file := s.file, buf := buf, done := 0, taken := [] }).taken = s.chain := by
      rw [hto.taken, List.append_nil]
    refine h.of_write hcall ?_ (by rw [hfile]; rfl) (by rw [hfile]; rfl) ?_ (by rw [hfile]; exact h.isOpen)
      ?_
    · rw [hchain]
      exact h.volume.of_mount hto.mount
    · rw [hchain, hfile]
      exact h.first
    · rw [hchain]
      exact hto.stored
  · obtain ⟨n, rfl⟩ := Nat.exists_eq_succ_of_ne_zero (Nat.pos_iff_ne_zero.mp hpos)
    obtain ⟨c, hto⟩ := Transfer.writeLoop_append
      (s := { fs := s.fs, file := s.file, buf := buf, done := 0, taken := [] })
      h.volume hstored hr hpos hfits hp hfull hcur h.first hfree n
    have hmax : max s.file.fileSize (s.file.position + (n + 1)) = s.file.position + (n + 1) := by omega
    refine h.of_write hcall ?_ (by rw [hto.file]; rfl) (by rw [hto.file, hmax]; rfl) ?_
      (by rw [hto.file]; exact h.isOpen) ?_
    · rw [hto.taken]
      exact hto.volume
    · rw [hto.taken, hto.file]
      rfl
    · rw [hto.taken, hmax]
      exact hto.stored

/-- A volume of free clusters with a 16-bit table. -/
def freeVolume : Fs :=
  { mount := (brainfsMount 0 16).withTable FatChains.freeTable, space := fun _ => none, supply := fun _ => true }

/-- An empty file, open for writing. -/
def emptyFile : FileRuns :=
  { fs := freeVolume, chain := [],
    file := { firstCluster := 0, currentCluster := 0, fileSize := 0, position := 0, mode := 2,
              isOpen := true },
    array := { bytes := fun _ => 0, size := 0, position := 0 } }

theorem emptyFile_opened : emptyFile.Opened where
  volume :=
    { clusterSize := rfl, total := rfl, table := rfl, width := by decide, found := rfl,
      range := fun c hc => absurd hc List.not_mem_nil, nodup := List.nodup_nil,
      linked := ⟨fun i c d hc => by simp [emptyFile] at hc, fun i c hc => by simp [emptyFile] at hc⟩ }
  array := ⟨rfl, rfl, Nat.le_refl 0, fun p c hp => absurd hp (Nat.not_lt_zero p)⟩
  first := rfl
  isOpen := rfl
  within := Nat.le_refl 0
  current := rfl
  atStart := rfl

/-- Ones. -/
def onesBuffer : Nat → UInt8 := fun _ => 1

end FileRuns

end Chicago95.Stage2
