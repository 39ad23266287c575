/-
# Chicago95.Stage2.Brainfs — clusters, directories and files of `brainfs_core.c`.

A cluster's bytes are in a page of memory of its own, mapped at the cluster's address; a cluster without a
page gets a zeroed one when it is first touched. Whether a page can be had and mapped is the business of
the page manager and of the page tables: `supply` lists the outcomes of the coming attempts.
-/
import Chicago95.Stage2.FatChains
import Chicago95.Stage2.Vmm

namespace Chicago95.Stage2

/-! ## The cluster space -/

/-- A mounted volume with the pages of its clusters, and whether the coming attempts to get a page for a
cluster succeed. -/
structure Fs where
  mount : Mount
  space : Nat → Option (Nat → UInt8)
  supply : Nat → Bool

/-- The volume's cluster size in bytes. -/
def Mount.clusterSize (m : Mount) : Nat := 512 * m.sectorsPerCluster

namespace Fs

/-- `pmm_alloc_page`, a page of zeros, and `vmm_cluster_map`: whether they succeed. -/
def back (fs : Fs) (cluster : Nat) : Bool × Fs :=
  if fs.supply 0 = true ∧ cluster < clusterMapMax then
    (true, { fs with space := Function.update fs.space cluster (some fun _ => 0),
                     supply := fun n => fs.supply (n + 1) })
  else (false, { fs with supply := fun n => fs.supply (n + 1) })

/-- `vmm_cluster_phys`, and `vmm_cluster_resolve` where it gives none. -/
def resolve (fs : Fs) (cluster : Nat) : Bool × Fs :=
  if (fs.space cluster).isSome = true then (true, fs) else fs.back cluster

/-- The byte of a cluster. -/
def byteAt (fs : Fs) (cluster offset : Nat) : UInt8 := ((fs.space cluster).getD fun _ => 0) offset

/-- `brainfs_cluster_read` into `buf + dst`; what it leaves in the buffer. -/
def clusterRead (fs : Fs) (cluster : Nat) (buf : Nat → UInt8) (dst offset len : Nat) :
    (Nat → UInt8) × Fs :=
  let size := fs.mount.clusterSize
  if size ≤ offset then (buf, fs)
  else
    let len := if size < (offset + len) % 2 ^ 32 then size - offset else len
    let r := fs.resolve cluster
    if r.1 = false then (buf, r.2)
    else
      (fun i => if dst ≤ i ∧ i < dst + len then r.2.byteAt cluster (offset + (i - dst)) else buf i, r.2)

/-- `brainfs_cluster_write` from `buf + src`. -/
def clusterWrite (fs : Fs) (cluster : Nat) (buf : Nat → UInt8) (src offset len : Nat) : Fs :=
  let size := fs.mount.clusterSize
  if size ≤ offset then fs
  else
    let len := if size < (offset + len) % 2 ^ 32 then size - offset else len
    let r := fs.resolve cluster
    if r.1 = false then r.2
    else
      { r.2 with space := Function.update r.2.space cluster (some fun i =>
          if offset ≤ i ∧ i < offset + len then buf (src + (i - offset))
          else r.2.byteAt cluster i) }

/-- `brainfs_fat_alloc_cluster`: the first free cluster, marked as the end of a chain and given a page. -/
def fatAllocCluster (fs : Fs) : Option Nat × Fs :=
  match (List.range fs.mount.totalClusters).find? fun c => decide (2 ≤ c) && fs.mount.fatIsFree c with
  | some c => (some c, ({ fs with mount := fs.mount.startChain c }.back c).2)
  | none => (none, fs)

/-- The loop of `brainfs_fat_free_chain`. -/
def freeLoop : Nat → Fs → Nat → Fs
  | 0, fs, _ => fs
  | fuel + 1, fs, current =>
    if 2 ≤ current ∧ current < fs.mount.totalClusters then
      let entry := fs.mount.entry current
      let fs' : Fs := { fs with mount := fs.mount.fatWriteEntry current 0,
                                space := Function.update fs.space current none }
      if fatIsEocValue fs.mount.fatWidth entry = true then fs' else freeLoop fuel fs' (entry % 2 ^ 32)
    else fs

/-- `brainfs_fat_free_chain` -/
def fatFreeChain (fs : Fs) (startCluster : Nat) : Fs :=
  freeLoop (fs.mount.totalClusters + 1) fs startCluster

def brainfsClusterSize : Nat := 4096

/-- `brainfs_dir_create`: a cluster of zeros is allocated. The directory entry it makes up is not written
anywhere. -/
def dirCreate (fs : Fs) : Option Nat × Fs :=
  match fs.fatAllocCluster with
  | (none, fs) => (none, fs)
  | (some c, fs) => (some c, fs.clusterWrite c (fun _ => 0) 0 0 brainfsClusterSize)

/-- `find_mount(0)` -/
def findMount (fs : Fs) : Bool := fs.mount.mounted && decide (fs.mount.drive = 0)

end Fs

/-! ## Files -/

/-- `brainfs_file_t` -/
structure File where
  firstCluster : Nat
  currentCluster : Nat
  fileSize : Nat
  position : Nat
  mode : Nat
  isOpen : Bool

/-- Where a read or a write has got to: `done` bytes of the buffer. -/
structure Transfer where
  fs : Fs
  file : File
  buf : Nat → UInt8
  done : Nat
  taken : List Nat

namespace Transfer

/-- One pass of the loop of `brainfs_file_read` of `len` bytes; whether the loop goes on. -/
def readPass (len : Nat) (s : Transfer) : Bool × Transfer :=
  let size := s.fs.mount.clusterSize
  let offset := s.file.position % size
  let most := min (size - offset) (len - s.done)
  let n := if s.file.fileSize < (s.file.position + most) % 2 ^ 32
    then s.file.fileSize - s.file.position else most
  let r := s.fs.clusterRead s.file.currentCluster s.buf s.done offset n
  let position := (s.file.position + n) % 2 ^ 32
  let t := { s with fs := r.2, buf := r.1, done := s.done + n,
                    file := { s.file with position := position } }
  if position % size = 0 ∧ position < s.file.fileSize then
    let next := r.2.mount.fatNextCluster s.file.currentCluster
    if next = 0 then (false, t)
    else (true, { t with fs := (r.2.resolve next).2, file := { t.file with currentCluster := next } })
  else (true, t)

/-- The loop of `brainfs_file_read`; a pass reads a byte at least. -/
def readLoop (len : Nat) : Nat → Transfer → Transfer
  | 0, s => s
  | fuel + 1, s =>
    if s.done < len ∧ s.file.position < s.file.fileSize then
      let r := s.readPass len
      if r.1 = true then readLoop len fuel r.2 else r.2
    else s

/-- The cluster a pass of `brainfs_file_write` writes to: the current one, or a new one linked after it. -/
def room (s : Transfer) : Option Transfer :=
  if s.file.currentCluster = 0 ∨ s.file.fileSize ≤ s.file.position then
    match s.fs.fatAllocCluster with
    | (none, _) => none
    | (some c, fs) =>
      if s.file.firstCluster = 0 then
        some { s with fs := fs, taken := s.taken ++ [c],
                      file := { s.file with firstCluster := c, currentCluster := c } }
      else
        let mount := (fs.mount.fatWriteEntry s.file.currentCluster c).fatWriteEntry c
          (linkEoc fs.mount.fatWidth)
        some { s with fs := { fs with mount := mount }, taken := s.taken ++ [c],
                      file := { s.file with currentCluster := c } }
  else some s

/-- One pass of the loop of `brainfs_file_write` of `len` bytes; whether the loop goes on. -/
def writePass (len : Nat) (s : Transfer) : Bool × Transfer :=
  let size := s.fs.mount.clusterSize
  let offset := s.file.position % size
  let n := min (size - offset) (len - s.done)
  match s.room with
  | none => (false, s)
  | some s =>
    let fs := s.fs.clusterWrite s.file.currentCluster s.buf s.done offset n
    let position := (s.file.position + n) % 2 ^ 32
    let file := { s.file with position := position, fileSize := max s.file.fileSize position }
    let t := { s with fs := fs, done := s.done + n, file := file }
    if position % size = 0 then
      let next := fs.mount.fatNextCluster s.file.currentCluster
      if next = 0 then (false, t)
      else (true, { t with file := { file with currentCluster := next } })
    else (true, t)

/-- The loop of `brainfs_file_write`; a pass writes a byte at least. -/
def writeLoop (len : Nat) : Nat → Transfer → Transfer
  | 0, s => s
  | fuel + 1, s =>
    if s.done < len then
      let r := s.writePass len
      if r.1 = true then writeLoop len fuel r.2 else r.2
    else s

end Transfer

namespace Fs

/-- `brainfs_file_read`: the result, and where it got to (`done` is `*out_len`). -/
def fileRead (fs : Fs) (file : File) (buf : Nat → UInt8) (len : Nat) : Int × Transfer :=
  let s : Transfer := { fs := fs, file := file, buf := buf, done := 0, taken := [] }
  if file.isOpen = false then (-2, s)
  else if fs.findMount = false then (-2, s)
  else (0, s.readLoop len len)

/-- `brainfs_file_write` -/
def fileWrite (fs : Fs) (file : File) (buf : Nat → UInt8) (len : Nat) : Int × Transfer :=
  let s : Transfer := { fs := fs, file := file, buf := buf, done := 0, taken := [] }
  if file.isOpen = false ∨ file.mode = 0 then (-2, s)
  else if fs.findMount = false then (-2, s)
  else (0, s.writeLoop len len)

end Fs

/-- `brainfs_file_seek` -/
def File.fileSeek (file : File) (offset : Nat) : File := { file with position := offset }

end Chicago95.Stage2
