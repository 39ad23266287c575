/-
# Chicago95.Stage2.Mounts — the mounts of `brainfs_core.c` and the clusters they share.

`brainfs_mount` fills the slot that `mount_count` names; `brainfs_umount` clears the slot it finds and
lowers the count. A cluster's page is found by the cluster's number alone, so that every mount reads and
writes the same clusters; `brainfs_file_read` and `brainfs_file_write` work on the mount of drive 0,
whichever mount the file is of. `brainfs_umount` unmaps the pages of all clusters of the volume: `stray`
counts those, which are then mapped nowhere and have not been given back to the page manager, as
`brainfs_fat_free_chain` gives back each page that it unmaps.
-/
import Chicago95.Stage2.Directories
import Chicago95.Stage2.FileBytes

namespace Chicago95.Stage2

open Chicago95.Lib.Counting Chicago95.Lib.Transition
open Function (update_of_ne update_self update_eq_self update)

/-! ## The code -/

def brainfsMaxMounts : Nat := 4

/-- `brainfs_state_t` with the handles of each mount, the pages of the clusters, whether the coming attempts
to get a page succeed, and the number of pages that unmounting has lost. -/
structure Bfs where
  mounts : Nat → Mount
  mountCount : Nat
  openFiles : Nat → List File
  space : Nat → Option (Nat → UInt8)
  supply : Nat → Bool
  stray : Nat

namespace Bfs

/-- A slot of static storage. -/
def emptyMount : Mount :=
  { drive := 0, mounted := false, fatWidth := 0, sectorsPerCluster := 0, totalClusters := 0, table := none,
    rootCluster := 0 }

/-- `brainfs_init` -/
def init (supply : Nat → Bool) : Bfs :=
  { mounts := fun _ => emptyMount, mountCount := 0
    openFiles := fun _ => (Volume.mounted 0 0 (fun _ => none) supply).openFiles.map fun f =>
      { f with isOpen := false }
    space := fun _ => none, supply := supply, stray := 0 }

def findMount (s : Bfs) (drive : Nat) : Option Nat :=
  (List.range brainfsMaxMounts).find? fun i => (s.mounts i).mounted && decide ((s.mounts i).drive = drive)

/-- `for (...) mnt->open_files[i].open = 0;` -/
def closeAll (s : Bfs) (i : Nat) : Nat → List File :=
  update s.openFiles i ((s.openFiles i).map fun f => { f with isOpen := false })

/-- `brainfs_mount`; the table pointer and the root cluster of the slot are left as they are. -/
def mount (s : Bfs) (drive width : Nat) : Int × Bfs :=
  if brainfsMaxMounts ≤ s.mountCount then (-1, s)
  else
    let old := s.mounts s.mountCount
    (0, { s with
      mounts := update s.mounts s.mountCount
        { brainfsMount drive width with table := old.table, rootCluster := old.rootCluster }
      openFiles := s.closeAll s.mountCount
      mountCount := s.mountCount + 1 })

/-- `vmm_cluster_unmap`: nothing has the number of the page any more. -/
def vmmClusterUnmap (s : Bfs) (c : Nat) : Bfs :=
  { s with space := update s.space c none, stray := s.stray + 1 }

/-- A pass of the loop of `brainfs_umount`. -/
def unmapPass (s : Bfs) (c : Nat) : Bfs := if (s.space c).isSome = true then s.vmmClusterUnmap c else s

/-- `brainfs_umount` -/
def umount (s : Bfs) (drive : Nat) : Int × Bfs :=
  match s.findMount drive with
  | none => (-1, s)
  | some i =>
    let s := (List.range' 2 ((s.mounts i).totalClusters - 2)).foldl unmapPass s
    (0, { s with
      mounts := update s.mounts i { s.mounts i with mounted := false }
      openFiles := s.closeAll i
      mountCount := s.mountCount - 1 })

/-- The volume in a slot. -/
def volume (s : Bfs) (k : Nat) : Volume :=
  { fs := { mount := s.mounts k, space := s.space, supply := s.supply }, openFiles := s.openFiles k }

/-- What is left when a function has worked on the volume in a slot. -/
def put (s : Bfs) (k : Nat) (v : Volume) : Bfs :=
  { s with mounts := update s.mounts k v.fs.mount, space := v.fs.space, supply := v.fs.supply
           openFiles := update s.openFiles k v.openFiles }

/-- A function of the volume in slot `k`; where it has not returned, nothing is known to be done. -/
def onVolume (s : Bfs) (k : Nat) (f : Volume → Option (Int × Volume)) : Bfs :=
  match f (s.volume k) with
  | some r => s.put k r.2
  | none => s

/-- `brainfs_file_read` and `brainfs_file_write` of handle `h` of the mount in slot `k`: they work on the
volume that `find_mount(0)` finds. -/
def onFile (s : Bfs) (k h : Nat) (f : Fs → File → Transfer) : Bfs :=
  match (s.openFiles k)[h]?, s.findMount 0 with
  | some file, some i =>
    let r := f (s.volume i).fs file
    let s := s.put i { s.volume i with fs := r.fs }
    { s with openFiles := update s.openFiles k ((s.openFiles k).set h r.file) }
  | _, _ => s

end Bfs

/-- The calls, on the mount in slot `k` and its handle `h`. -/
inductive BfsCall where
  | mount (drive width : Nat)
  | umount (drive : Nat)
  | clusterRead (k c : Nat) (buf : Nat → UInt8) (offset len : Nat)
  | clusterWrite (k c : Nat) (buf : Nat → UInt8) (offset len : Nat)
  | fileOpen (k : Nat) (path : Name) (mode : Nat)
  | fileRead (k h : Nat) (buf : Nat → UInt8) (len : Nat)
  | fileWrite (k h : Nat) (buf : Nat → UInt8) (len : Nat)
  | fileCreate (k : Nat) (path : Name)
  | fileDelete (k : Nat) (path : Name)
  | fileExists (k : Nat) (path : Name)

namespace Bfs

section

variable (fuel : Nat) (stack : Nat → UInt8)

/-- One call. -/
def next (s : Bfs) : BfsCall → Bfs
  | .mount drive width => (s.mount drive width).2
  | .umount drive => (s.umount drive).2
  | .clusterRead k c buf offset len =>
    s.onVolume k fun v => some (0, { v with fs := (v.fs.clusterRead c buf 0 offset len).2 })
  | .clusterWrite k c buf offset len =>
    s.onVolume k fun v => some (0, { v with fs := v.fs.clusterWrite c buf 0 offset len })
  | .fileOpen k path mode => s.onVolume k fun v => v.fileOpen fuel stack path mode
  | .fileRead k h buf len => s.onFile k h fun fs file => (fs.fileRead file buf len).2
  | .fileWrite k h buf len => s.onFile k h fun fs file => (fs.fileWrite file buf len).2
  | .fileCreate k path => s.onVolume k fun v => some (v.fileCreate path)
  | .fileDelete k path => s.onVolume k fun v => v.fileDelete fuel stack path
  | .fileExists k path => s.onVolume k fun v => v.fileExists fuel stack path

end

/-! ## What is claimed -/

/-- The slots that are mounted. -/
def Mounted (s : Bfs) (i : Nat) : Prop := i < brainfsMaxMounts ∧ (s.mounts i).mounted = true

/-- The number of slots that are mounted. -/
def mountedCount (s : Bfs) : Nat := countBelow brainfsMaxMounts fun i => (s.mounts i).mounted

/-- What `brainfs_cluster_read` of a whole cluster gives in a buffer of zeros. -/
def reads (s : Bfs) (k c : Nat) : Nat → UInt8 :=
  ((s.volume k).fs.clusterRead c (fun _ => 0) 0 0 (s.mounts k).clusterSize).1

/-- The slot that a call writes to. -/
def writer : BfsCall → Option Nat
  | .clusterWrite k _ _ _ _ => some k
  | .fileWrite k _ _ _ => some k
  | _ => none

/-- **Mounts that are apart**, over one call: the count is the number of mounts; a mount overwrites none that
is mounted; a write changes no other mount, nor what it reads; an unmount loses no page. -/
structure Sound (s : Bfs) (call : BfsCall) (t : Bfs) : Prop where
  counted : t.mountCount = t.mountedCount
  kept : ∀ drive width, call = .mount drive width → ∀ i, s.Mounted i →
    t.mounts i = s.mounts i ∧ t.openFiles i = s.openFiles i
  isolated : ∀ k, writer call = some k → ∀ j, s.Mounted j → j ≠ k →
    t.mounts j = s.mounts j ∧ ∀ c, t.reads j c = s.reads j c
  returned : ∀ drive, call = .umount drive → t.stray = s.stray

/-- Slot `k` is the only one that is mounted, if any is. -/
def Alone (s : Bfs) (k : Nat) : Prop := ∀ j, s.Mounted j → j = k

/-- **The condition on a call**: a mount finds its slot free; a volume is unmounted while none of its clusters
has a page; a volume is written to while it is the only one, or nothing is written. -/
def Fits (s : Bfs) : BfsCall → Prop
  | .mount _ _ => s.mountCount < brainfsMaxMounts → (s.mounts s.mountCount).mounted = false
  | .umount drive => ∀ i, s.findMount drive = some i →
      ∀ c, 2 ≤ c → c < (s.mounts i).totalClusters → s.space c = none
  | .clusterWrite k _ _ offset len => s.Alone k ∨ (s.mounts k).clusterSize ≤ offset ∨ len = 0
  | .fileWrite k h _ len => s.Alone k ∨ len = 0 ∨ s.findMount 0 = none ∨
      ∀ file, (s.openFiles k)[h]? = some file → file.isOpen = false ∨ file.mode = 0
  | _ => True

/-! ## What the functions leave of a mount -/

end Bfs

namespace Fs

variable {fs : Fs}

theorem clusterRead_mount (fs : Fs) (c : Nat) (buf : Nat → UInt8) (dst offset len : Nat) :
    (fs.clusterRead c buf dst offset len).2.mount = fs.mount := by
  unfold clusterRead
  dsimp only
  split
  · rfl
  · split <;> exact fs.resolve_mount c

theorem dirCreate_mount (ht : fs.mount.table = none) : fs.dirCreate.2.mount = fs.mount := by
  unfold dirCreate fatAllocCluster
  cases (List.range fs.mount.totalClusters).find? fun c => decide (2 ≤ c) && fs.mount.fatIsFree c with
  | none => rfl
  | some c =>
    dsimp only
    rw [clusterWrite_mount, back_mount]
    exact Mount.fatWriteEntry_of_none ht c _

theorem dirFind_mounted (fuel : Nat) (stack : Nat → UInt8) (name : Name) (hroot : fs.mount.rootCluster = 0) :
    fs.dirFind fuel stack fs.mount.rootCluster name = none ∨
      fs.dirFind fuel stack fs.mount.rootCluster name = some (none, fs) := by
  unfold dirFind
  rw [hroot]
  cases fuel with
  | zero => exact Or.inl rfl
  | succ fuel => exact Or.inr rfl

end Fs

namespace Transfer

theorem readPass_mount (len : Nat) (s : Transfer) : (s.readPass len).2.fs.mount = s.fs.mount := by
  unfold readPass
  dsimp only
  split_ifs <;> simp only [Fs.resolve_mount, Fs.clusterRead_mount]

theorem readLoop_mount (len : Nat) : ∀ (fuel : Nat) (s : Transfer), (s.readLoop len fuel).fs.mount = s.fs.mount := by
  intro fuel
  induction fuel with
  | zero => intro s; rfl
  | succ fuel ih =>
    intro s
    unfold readLoop
    split
    · dsimp only
      split
      · rw [ih, readPass_mount]
      · exact readPass_mount len s
    · rfl

end Transfer

namespace Bfs

variable {s t : Bfs} {k : Nat}

/-- Nothing of the mounts has changed. -/
structure SameMounts (s t : Bfs) : Prop where
  mounts : t.mounts = s.mounts
  count : t.mountCount = s.mountCount

/-- What every history keeps: no slot has a table or a directory, a mount is as `brainfs_mount` makes it. -/
structure Plain (s : Bfs) : Prop where
  table : ∀ i, (s.mounts i).table = none
  root : ∀ i, (s.mounts i).rootCluster = 0
  mounted : ∀ i, s.Mounted i → ∃ drive width, s.mounts i = brainfsMount drive width

theorem put_same {v : Volume} (h : v.fs.mount = s.mounts k) : SameMounts s (s.put k v) := by
  refine ⟨?_, rfl⟩
  unfold put
  dsimp only
  rw [h, update_eq_self]

theorem onVolume_same {f : Volume → Option (Int × Volume)}
    (h : ∀ r, f (s.volume k) = some r → r.2.fs.mount = s.mounts k) : SameMounts s (s.onVolume k f) := by
  unfold onVolume
  cases hf : f (s.volume k) with
  | none => exact ⟨rfl, rfl⟩
  | some r => exact put_same (h r hf)

theorem findMount_mounted {drive i : Nat} (h : s.findMount drive = some i) : s.Mounted i := by
  refine ⟨List.mem_range.mp (List.mem_of_find?_eq_some h), ?_⟩
  have hfound := List.find?_some h
  simp only [Bool.and_eq_true] at hfound
  exact hfound.1

theorem onFile_same {h : Nat} {f : Fs → File → Transfer}
    (hf : ∀ i file, s.findMount 0 = some i → (f (s.volume i).fs file).fs.mount = s.mounts i) :
    SameMounts s (s.onFile k h f) := by
  unfold onFile
  split
  · rename_i file i _ hfound
    exact ⟨(put_same (v := { s.volume i with fs := _ }) (hf i file hfound)).mounts, rfl⟩
  · exact ⟨rfl, rfl⟩

theorem next_same (hs : s.Plain) (fuel : Nat) (stack : Nat → UInt8) {call : BfsCall}
    (hmount : ∀ drive width, call ≠ .mount drive width) (humount : ∀ drive, call ≠ .umount drive) :
    SameMounts s (s.next fuel stack call) := by
  have hdir : ∀ k name, (s.volume k).fs.dirFind fuel stack (s.volume k).fs.mount.rootCluster name = none ∨
      (s.volume k).fs.dirFind fuel stack (s.volume k).fs.mount.rootCluster name =
        some (none, (s.volume k).fs) :=
    fun k name => Fs.dirFind_mounted fuel stack name (hs.root k)
  unfold next
  cases call with
  | mount drive width => exact absurd rfl (hmount drive width)
  | umount drive => exact absurd rfl (humount drive)
  | clusterRead k c buf offset len =>
    refine onVolume_same fun r hr => ?_
    cases hr
    exact Fs.clusterRead_mount _ _ _ _ _ _
  | clusterWrite k c buf offset len =>
    refine onVolume_same fun r hr => ?_
    cases hr
    exact Fs.clusterWrite_mount _ _ _ _ _ _
  | fileOpen k path mode =>
    refine onVolume_same fun r hr => ?_
    unfold Volume.fileOpen at hr
    split at hr
    · cases hr
      rfl
    · rcases hdir k path with hfind | hfind <;> rw [hfind] at hr <;> cases hr
      rfl
  | fileRead k h buf len =>
    refine onFile_same fun i file _ => ?_
    unfold Fs.fileRead
    dsimp only
    split
    · rfl
    · split
      · rfl
      · exact Transfer.readLoop_mount len len _
  | fileWrite k h buf len =>
    refine onFile_same fun i file hfound => ?_
    obtain ⟨drive, width, hmnt⟩ := hs.mounted i (findMount_mounted hfound)
    unfold Fs.fileWrite
    dsimp only
    split
    · rfl
    · split
      · rfl
      · cases len with
        | zero => rfl
        | succ len =>
          exact (Transfer.writeLoop_of_none
            (s := { fs := (s.volume i).fs, file := file, buf := buf, done := 0, taken := [] }) hmnt
            (Nat.succ_pos len) len).1
  | fileCreate k path =>
    refine onVolume_same fun r hr => ?_
    cases hr
    have htable : (s.volume k).fs.mount.table = none := hs.table k
    exact Fs.dirCreate_mount htable
  | fileDelete k path =>
    refine onVolume_same fun r hr => ?_
    unfold Volume.fileDelete Fs.dirDelete at hr
    rcases hdir k (afterSlash path) with hfind | hfind <;> rw [hfind] at hr <;> cases hr
    rfl
  | fileExists k path =>
    refine onVolume_same fun r hr => ?_
    unfold Volume.fileExists at hr
    rcases hdir k (afterSlash path) with hfind | hfind <;> rw [hfind] at hr <;> cases hr
    rfl

/-! ## What is read -/

theorem reads_eq (s : Bfs) (k c : Nat) :
    s.reads k c = fun i => if i < (s.mounts k).clusterSize then (s.volume k).fs.byteAt c i else 0 := by
  have hsame := (s.volume k).fs.resolve_sameBytes c
  have hlen : (if (s.mounts k).clusterSize < (0 + (s.mounts k).clusterSize) % 2 ^ 32 then
      (s.mounts k).clusterSize - 0 else (s.mounts k).clusterSize) = (s.mounts k).clusterSize := by
    split <;> rfl
  have hsize : (s.volume k).fs.mount.clusterSize = (s.mounts k).clusterSize := rfl
  unfold reads Fs.clusterRead
  dsimp only
  rw [hsize, hlen]
  funext i
  split
  · rename_i hzero
    rw [if_neg (by omega)]
  · split
    · rename_i hfail
      -- only a cluster without a page cannot be resolved
      have hnone : ((s.volume k).fs.space c).isSome ≠ true := by
        intro hback
        rw [Fs.resolve_of_backed hback] at hfail
        cases hfail
      unfold Fs.byteAt
      rw [Option.not_isSome_iff_eq_none.mp hnone]
      split <;> rfl
    · simp only [Nat.zero_le, true_and, Nat.zero_add, Nat.sub_zero, hsame.byteAt]

theorem reads_congr (h : SameMounts s t) (hbytes : ∀ c o, (t.volume k).fs.byteAt c o =
    (s.volume k).fs.byteAt c o) (c : Nat) : t.reads k c = s.reads k c := by
  rw [reads_eq, reads_eq, h.mounts]
  funext i
  rw [hbytes]

theorem byteAt_of_space {fs fs' : Fs} (h : fs'.space = fs.space) (c o : Nat) : fs'.byteAt c o = fs.byteAt c o := by
  unfold Fs.byteAt
  rw [h]

theorem clusterWrite_nothing (fs : Fs) (c : Nat) (buf : Nat → UInt8) {offset len : Nat}
    (h : fs.mount.clusterSize ≤ offset ∨ len = 0) (d o : Nat) :
    (fs.clusterWrite c buf 0 offset len).byteAt d o = fs.byteAt d o := by
  have hsame := fs.resolve_sameBytes c
  unfold Fs.clusterWrite
  dsimp only
  split
  · rfl
  · rename_i hlt
    rcases h with h | rfl
    · exact absurd h hlt
    · split
      · exact hsame.byteAt d o
      · have hfit : ¬ fs.mount.clusterSize < (offset + 0) % 2 ^ 32 := by
          have := Nat.mod_le (offset + 0) (2 ^ 32)
          omega
        rw [← hsame.byteAt d o]
        by_cases hd : d = c
        · subst hd
          rw [if_neg hfit]
          simp only [Fs.byteAt, update_self, Option.getD_some]
          rw [if_neg (by omega)]
        · exact congrArg (fun page : Option (Nat → UInt8) => (page.getD fun _ => 0) o)
            (update_of_ne hd _ _)

theorem fileWrite_nothing (fs : Fs) (file : File) (buf : Nat → UInt8) {len : Nat}
    (h : len = 0 ∨ file.isOpen = false ∨ file.mode = 0) : (fs.fileWrite file buf len).2.fs = fs := by
  unfold Fs.fileWrite
  dsimp only
  split
  · rfl
  · rename_i hopen
    split
    · rfl
    · rcases h with rfl | h
      · rfl
      · exact absurd h hopen

/-! ## One step -/

/-- What a history whose calls all meet the condition keeps. -/
structure Inv (s : Bfs) : Prop extends Plain s where
  counted : s.mountCount = s.mountedCount

theorem Inv.of_same (hs : s.Inv) (h : SameMounts s t) : t.Inv where
  table := by
    rw [h.mounts]
    exact hs.table
  root := by
    rw [h.mounts]
    exact hs.root
  mounted i hi := by
    unfold Mounted at hi
    rw [h.mounts] at hi ⊢
    exact hs.mounted i hi
  counted := by
    unfold mountedCount
    rw [h.count, h.mounts]
    exact hs.counted

theorem Plain.write (hs : s.Plain) {i : Nat} {m : Mount} (h : t.mounts = update s.mounts i m)
    (htable : m.table = none) (hroot : m.rootCluster = 0)
    (hmounted : m.mounted = true → ∃ drive width, m = brainfsMount drive width) : t.Plain := by
  have hslot : ∀ j, t.mounts j = m ∧ j = i ∨ t.mounts j = s.mounts j ∧ j ≠ i := by
    intro j
    rw [h]
    by_cases hj : j = i
    · rw [hj, update_self]
      exact Or.inl ⟨rfl, rfl⟩
    · rw [update_of_ne hj]
      exact Or.inr ⟨rfl, hj⟩
  refine ⟨fun j => ?_, fun j => ?_, fun j hj => ?_⟩
  · rcases hslot j with ⟨hm, -⟩ | ⟨hm, -⟩ <;> rw [hm]
    · exact htable
    · exact hs.table j
  · rcases hslot j with ⟨hm, -⟩ | ⟨hm, -⟩ <;> rw [hm]
    · exact hroot
    · exact hs.root j
  · unfold Mounted at hj
    rcases hslot j with ⟨hm, -⟩ | ⟨hm, -⟩ <;> rw [hm] at hj ⊢
    · exact hmounted hj.2
    · exact hs.mounted j hj

theorem step_mount (hs : s.Inv) (drive width : Nat) (hfits : s.Fits (.mount drive width)) :
    (s.mount drive width).2.Inv ∧ s.Sound (.mount drive width) (s.mount drive width).2 := by
  have hsound : ∀ {t : Bfs}, t.Inv → (∀ i, s.Mounted i → t.mounts i = s.mounts i ∧
      t.openFiles i = s.openFiles i) → t.Inv ∧ s.Sound (.mount drive width) t := by
    intro t ht hkept
    exact ⟨ht, ht.counted, fun _ _ _ => hkept, fun _ h => (by cases h), fun _ h => (by cases h)⟩
  unfold mount
  split
  · exact hsound hs fun _ _ => ⟨rfl, rfl⟩
  · rename_i hroom
    have hslot : s.mountCount < brainfsMaxMounts := Nat.lt_of_not_le hroom
    have hfree := hfits hslot
    have hnew : ∀ old : Mount, old.table = none → old.rootCluster = 0 →
        { brainfsMount drive width with table := old.table, rootCluster := old.rootCluster } =
          brainfsMount drive width := by
      intro old htable hroot
      rw [htable, hroot]
      rfl
    dsimp only
    rw [hnew _ (hs.table _) (hs.root _)]
    refine hsound ⟨hs.toPlain.write rfl rfl rfl fun _ => ⟨drive, width, rfl⟩, ?_⟩ fun i hi => ?_
    · have hcount := countBelow_update_entry Mount.mounted s.mounts hslot (brainfsMount drive width)
      have hcounted := hs.counted
      unfold mountedCount at hcounted ⊢
      rw [hfree, show (brainfsMount drive width).mounted = true from rfl] at hcount
      simp only [Bool.toNat_false, Bool.toNat_true] at hcount
      dsimp only
      omega
    · have hne : i ≠ s.mountCount := by
        rintro rfl
        have hmounted := hi.2
        rw [hfree] at hmounted
        cases hmounted
      exact ⟨update_of_ne hne _ _, update_of_ne hne _ _⟩

theorem foldl_unmapPass {l : List Nat} (h : ∀ c ∈ l, s.space c = none) : l.foldl unmapPass s = s := by
  induction l with
  | nil => rfl
  | cons c rest ih =>
    have hpass : s.unmapPass c = s := by
      unfold unmapPass
      rw [h c List.mem_cons_self]
      rfl
    rw [List.foldl_cons, hpass]
    exact ih fun d hd => h d (List.mem_cons_of_mem _ hd)

theorem step_umount (hs : s.Inv) (drive : Nat) (hfits : s.Fits (.umount drive)) :
    (s.umount drive).2.Inv ∧ s.Sound (.umount drive) (s.umount drive).2 := by
  have hsound : ∀ {t : Bfs}, t.Inv → t.stray = s.stray → t.Inv ∧ s.Sound (.umount drive) t := by
    intro t ht hstray
    exact ⟨ht, ht.counted, fun _ _ h => (by cases h), fun _ h => (by cases h), fun _ _ => hstray⟩
  unfold umount
  cases hfound : s.findMount drive with
  | none => exact hsound hs rfl
  | some i =>
    have hmounted := findMount_mounted hfound
    have hclear := hfits i hfound
    dsimp only
    rw [foldl_unmapPass (s := s) fun c hc => by
      have := List.mem_range'_1.mp hc
      exact hclear c (by omega) (by omega)]
    refine hsound ⟨hs.toPlain.write rfl (hs.table i) (hs.root i) fun h => (by cases h), ?_⟩ rfl
    have hcount := countBelow_update_entry Mount.mounted s.mounts hmounted.1
      { s.mounts i with mounted := false }
    have hcounted := hs.counted
    unfold mountedCount at hcounted ⊢
    rw [hmounted.2] at hcount
    simp only [Bool.toNat_false, Bool.toNat_true] at hcount
    dsimp only
    omega

theorem write_isolated (fuel : Nat) (stack : Nat → UInt8) {call : BfsCall}
    (hfits : s.Fits call) {j : Nat} (hwriter : writer call = some k) (hj : s.Mounted j) (hne : j ≠ k)
    (hsame : SameMounts s (s.next fuel stack call)) (c : Nat) : (s.next fuel stack call).reads j c = s.reads j c := by
  cases call with
  | clusterWrite _ c' buf offset len =>
    cases hwriter
    rcases hfits with halone | hnothing
    · exact absurd (halone j hj) hne
    · exact reads_congr (k := j) hsame
        (fun d o => clusterWrite_nothing (s.volume k).fs c' buf hnothing d o) c
  | fileWrite _ h buf len =>
    cases hwriter
    refine reads_congr hsame (fun d o => byteAt_of_space ?_ d o) c
    show (s.onFile k h fun fs file => (fs.fileWrite file buf len).2).space = s.space
    unfold onFile
    split
    · rename_i file i hfile hfound
      have hnothing : len = 0 ∨ file.isOpen = false ∨ file.mode = 0 := by
        rcases hfits with halone | hlen | hnone | hclosed
        · exact absurd (halone j hj) hne
        · exact Or.inl hlen
        · rw [hnone] at hfound
          cases hfound
        · exact Or.inr (hclosed file hfile)
      show ((s.volume i).fs.fileWrite file buf len).2.fs.space = s.space
      rw [fileWrite_nothing _ _ _ hnothing]
      rfl
    · rfl
  | _ => cases hwriter

theorem step_sound (hs : s.Inv) (fuel : Nat) (stack : Nat → UInt8) (call : BfsCall)
    (hfits : s.Fits call) : (s.next fuel stack call).Inv ∧ s.Sound call (s.next fuel stack call) := by
  by_cases hmount : ∃ drive width, call = .mount drive width
  · obtain ⟨drive, width, rfl⟩ := hmount
    exact step_mount hs drive width hfits
  by_cases humount : ∃ drive, call = .umount drive
  · obtain ⟨drive, rfl⟩ := humount
    exact step_umount hs drive hfits
  have hsame := next_same hs.toPlain fuel stack (fun drive width h => hmount ⟨drive, width, h⟩)
    fun drive h => humount ⟨drive, h⟩
  have hinv := hs.of_same hsame
  refine ⟨hinv, hinv.counted, fun drive width h => absurd ⟨drive, width, h⟩ hmount,
    fun k hwriter j hj hne => ⟨by rw [hsame.mounts], ?_⟩, fun drive h => absurd ⟨drive, h⟩ humount⟩
  exact write_isolated fuel stack hfits hwriter hj hne hsame

/-! ## Whole histories -/

theorem inv_init (supply : Nat → Bool) : (init supply).Inv where
  table _ := rfl
  root _ := rfl
  mounted _ h := (by cases h.2)
  counted := rfl

theorem umount_found {drive i : Nat} (h : s.findMount drive = some i) :
    (s.umount drive).2.mounts = update s.mounts i { s.mounts i with mounted := false } ∧
      (s.umount drive).2.mountCount = s.mountCount - 1 := by
  have hloop : ∀ (l : List Nat) (s : Bfs),
      (l.foldl unmapPass s).mounts = s.mounts ∧ (l.foldl unmapPass s).mountCount = s.mountCount := by
    intro l
    induction l with
    | nil => intro s; exact ⟨rfl, rfl⟩
    | cons c rest ih =>
      intro s
      have hpass : (s.unmapPass c).mounts = s.mounts ∧ (s.unmapPass c).mountCount = s.mountCount := by
        unfold unmapPass
        split <;> exact ⟨rfl, rfl⟩
      rw [List.foldl_cons, (ih _).1, (ih _).2]
      exact hpass
  obtain ⟨hmounts, hcount⟩ := hloop (List.range' 2 ((s.mounts i).totalClusters - 2)) s
  unfold umount
  rw [h]
  dsimp only
  rw [hmounts, hcount]
  exact ⟨rfl, rfl⟩

theorem alone_of_umount {drive : Nat} (h : s.findMount drive = some 1)
    (hslots : ∀ j < brainfsMaxMounts, (s.mounts j).mounted = true → j ≤ 1) : (s.umount drive).2.Alone 0 := by
  rintro j ⟨hj, hmounted⟩
  rw [(umount_found h).1] at hmounted
  by_cases hone : j = 1
  · rw [hone, update_self] at hmounted
    cases hmounted
  · rw [update_of_ne hone] at hmounted
    have := hslots j hj hmounted
    omega

theorem mount_overwrites {drive width : Nat} (h : s.Mounted s.mountCount)
    (hdrive : (s.mounts s.mountCount).drive ≠ drive) : ¬ s.Sound (.mount drive width) (s.mount drive width).2 := by
  intro hsound
  have hkept := congrArg Mount.drive (hsound.kept drive width rfl _ h).1
  unfold mount at hkept
  rw [if_neg (Nat.not_le.mpr h.1)] at hkept
  dsimp only at hkept
  rw [update_self] at hkept
  exact hdrive hkept.symm

theorem umount_then_mount (fuel : Nat) (stack : Nat → UInt8) {drive drive' width : Nat}
    (h : s.findMount drive = some 0) (hcount : s.mountCount = 2) (hmounted : (s.mounts 1).mounted = true)
    (hdrive : (s.mounts 1).drive ≠ drive') :
    ¬ AllSteps Sound s (traceOf (next fuel stack) s [.umount drive, .mount drive' width]) := by
  rintro ⟨-, hsound, -⟩
  obtain ⟨hmounts, hless⟩ := umount_found h
  rw [hcount] at hless
  have hslot : (s.umount drive).2.mounts 1 = s.mounts 1 := by
    rw [hmounts]
    exact update_of_ne (by decide) _ _
  refine mount_overwrites ?_ ?_ hsound
  · show (s.umount drive).2.Mounted (s.umount drive).2.mountCount
    rw [hless]
    exact ⟨by decide, by rw [hslot]; exact hmounted⟩
  · show ((s.umount drive).2.mounts (s.umount drive).2.mountCount).drive ≠ drive'
    rw [hless, hslot]
    exact hdrive

end Bfs

end Chicago95.Stage2
