/-
# Chicago95.Stage2.Directories — names and directory entries of `brainfs_core.c`.

A directory is a chain of clusters, each an array of entries of 32 bytes. An entry whose name begins with
the byte 0 ends the directory, one whose name begins with `E5` is skipped. Names are compared as the eleven
characters that `make_short_name` makes of them.
-/
import Chicago95.Stage2.FatRuns

namespace Chicago95.Stage2

open Chicago95.Lib.Chain

/-! ## Names -/

/-- A string, without the 0 that ends it. -/
abbrev Name := List UInt8

/-- `if (c >= 'a' && c <= 'z') c -= 32;` -/
def upper (c : UInt8) : UInt8 := if 0x61 ≤ c ∧ c ≤ 0x7A then c - 32 else c

def makeShortName (name : Name) : List UInt8 :=
  let base := (name.takeWhile fun c => c ≠ 0x2E).take 8
  let ext := ((name.dropWhile fun c => c ≠ 0x2E).drop 1).take 3
  base.map upper ++ List.replicate (8 - base.length) 0x20 ++
    (ext.map upper ++ List.replicate (3 - ext.length) 0x20)

/-- `while (*name && *name != '/') name++; if (*name == '/') name++;` -/
def afterSlash (path : Name) : Name := (path.dropWhile fun c => c ≠ 0x2F).drop 1

/-! ## Entries -/

/-- What is used of `brainfs_dir_entry_t`: the eleven characters of name and extension, the two halves of
the first cluster's number, the size. -/
structure DirEntry where
  name : List UInt8
  firstCluster : Nat
  fileSize : Nat

/-- `name[0]` -/
def DirEntry.first (e : DirEntry) : UInt8 := e.name.headD 0

/-- `dir[i]` of a cluster in a buffer. -/
def entryAt (buf : Nat → UInt8) (i : Nat) : DirEntry :=
  { name := (List.range 11).map fun j => buf (32 * i + j)
    firstCluster := ((buf (32 * i + 21)).toNat * 2 ^ 8 + (buf (32 * i + 20)).toNat) * 2 ^ 16 +
      ((buf (32 * i + 27)).toNat * 2 ^ 8 + (buf (32 * i + 26)).toNat)
    fileSize := (((buf (32 * i + 31)).toNat * 2 ^ 8 + (buf (32 * i + 30)).toNat) * 2 ^ 8 +
      (buf (32 * i + 29)).toNat) * 2 ^ 8 + (buf (32 * i + 28)).toNat }

def Mount.entriesPerCluster (m : Mount) : Nat := m.clusterSize / 32

/-- The loop of `brainfs_dir_find` over the entries of a cluster: the entry it finds, that the directory has
ended, or that it goes on. -/
def scan (shortName : List UInt8) : List DirEntry → Option (Option DirEntry)
  | [] => none
  | e :: rest =>
    if e.first = 0 then some none
    else if e.first = 0xE5 then scan shortName rest
    else if e.name = shortName then some (some e)
    else scan shortName rest

namespace Fs

section

variable (fuel : Nat) (stack : Nat → UInt8)

/-- The loop of `brainfs_dir_find` from a cluster on, for at most `fuel` clusters. -/
def dirFindLoop (shortName : List UInt8) : Nat → Fs → Nat → Option (Option DirEntry × Fs)
  | 0, _, _ => none
  | fuel + 1, fs, cluster =>
    if cluster = 0 then some (none, fs)
    else
      let r := fs.clusterRead cluster stack 0 0 brainfsClusterSize
      match scan shortName ((List.range fs.mount.entriesPerCluster).map (entryAt r.1)) with
      | some found => some (found, r.2)
      | none => dirFindLoop shortName fuel r.2 (r.2.mount.fatNextCluster cluster)

/-- `brainfs_dir_find`, and what it leaves; `none` where it has not returned. -/
def dirFind (fs : Fs) (dirCluster : Nat) (name : Name) : Option (Option DirEntry × Fs) :=
  dirFindLoop stack (makeShortName name) fuel fs dirCluster

/-- `brainfs_dir_delete` -/
def dirDelete (fs : Fs) (parentCluster : Nat) (name : Name) : Option (Int × Fs) :=
  (fs.dirFind fuel stack parentCluster name).map fun r =>
    match r.1 with
    | none => (-1, r.2)
    | some e => (0, if 2 ≤ e.firstCluster then r.2.fatFreeChain e.firstCluster else r.2)

end

end Fs

/-! ## Files -/

/-- A mounted volume and its `open_files`. -/
structure Volume where
  fs : Fs
  openFiles : List File

namespace Volume

/-- A mount as `brainfs_mount` sets it up: none of the `BRAINFS_MAX_OPEN_FILES` is open. -/
def mounted (drive width : Nat) (space : Nat → Option (Nat → UInt8)) (supply : Nat → Bool) : Volume :=
  { fs := { mount := brainfsMount drive width, space := space, supply := supply }
    openFiles := List.replicate 32
      { firstCluster := 0, currentCluster := 0, fileSize := 0, position := 0, mode := 0, isOpen := false } }

section

variable (fuel : Nat) (stack : Nat → UInt8)

/-- `brainfs_file_open` -/
def fileOpen (v : Volume) (path : Name) (mode : Nat) : Option (Int × Volume) :=
  match v.openFiles.findIdx? fun f => !f.isOpen with
  | none => some (-1, v)
  | some i =>
    (v.fs.dirFind fuel stack v.fs.mount.rootCluster path).map fun r =>
      match r.1 with
      | none => (-1, { v with fs := r.2 })
      | some e =>
        let file : File :=
          { firstCluster := e.firstCluster, currentCluster := e.firstCluster, fileSize := e.fileSize,
            position := 0, mode := mode, isOpen := true }
        (0, { fs := if 2 ≤ e.firstCluster then (r.2.resolve e.firstCluster).2 else r.2
              openFiles := v.openFiles.set i file })

/-- `brainfs_file_create`. The name after the slash goes into the entry that is not written. -/
def fileCreate (v : Volume) (_path : Name) : Int × Volume :=
  let r := v.fs.dirCreate
  (if r.1.isSome = true then 0 else -1, { v with fs := r.2 })

/-- `brainfs_file_delete` -/
def fileDelete (v : Volume) (path : Name) : Option (Int × Volume) :=
  (v.fs.dirDelete fuel stack v.fs.mount.rootCluster (afterSlash path)).map fun r =>
    (r.1, { v with fs := r.2 })

/-- `brainfs_file_exists` -/
def fileExists (v : Volume) (path : Name) : Option (Int × Volume) :=
  (v.fs.dirFind fuel stack v.fs.mount.rootCluster (afterSlash path)).map fun r =>
    (if r.1.isSome = true then 1 else 0, { v with fs := r.2 })

end

end Volume

/-! ## Directories in order -/

/-- The entries in use: those before the end that are not skipped. -/
def live (l : List DirEntry) : List DirEntry :=
  (l.takeWhile fun e => e.first ≠ 0).filter fun e => e.first ≠ 0xE5

theorem scan_append (shortName : List UInt8) (l₁ l₂ : List DirEntry) :
    scan shortName (l₁ ++ l₂) = (scan shortName l₁).or (scan shortName l₂) := by
  induction l₁ with
  | nil => rfl
  | cons e rest ih =>
    simp only [List.cons_append, scan]
    split
    · rfl
    · split
      · exact ih
      · split
        · rfl
        · exact ih

theorem scan_getD (shortName : List UInt8) (l : List DirEntry) :
    (scan shortName l).getD none = (live l).find? fun e => decide (e.name = shortName) := by
  induction l with
  | nil => rfl
  | cons e rest ih =>
    unfold live at ih ⊢
    simp only [scan]
    by_cases hend : e.first = 0
    · rw [if_pos hend, List.takeWhile_cons_of_neg (by simpa using hend)]
      rfl
    · rw [if_neg hend, List.takeWhile_cons_of_pos (by simpa using hend)]
      by_cases hskip : e.first = 0xE5
      · rw [if_pos hskip, List.filter_cons_of_neg (by simpa using hskip), ih]
      · rw [if_neg hskip, List.filter_cons_of_pos (by simpa using hskip)]
        by_cases hname : e.name = shortName
        · rw [if_pos hname, List.find?_cons_of_pos (by simpa using hname)]
          rfl
        · rw [if_neg hname, List.find?_cons_of_neg (by simpa using hname), ih]

theorem entryAt_congr {buf buf' : Nat → UInt8} {i : Nat}
    (h : ∀ o, o < 32 * (i + 1) → buf' o = buf o) : entryAt buf' i = entryAt buf i := by
  unfold entryAt
  rw [h _ (by omega), h _ (by omega), h _ (by omega), h _ (by omega), h _ (by omega), h _ (by omega),
    h _ (by omega), h _ (by omega)]
  congr 1
  refine List.map_congr_left fun j hj => h _ ?_
  have := List.mem_range.mp hj
  omega

/-- The entries of a cluster. -/
def Fs.clusterEntries (fs : Fs) (cluster : Nat) : List DirEntry :=
  (List.range fs.mount.entriesPerCluster).map (entryAt (fs.byteAt cluster))

/-- The entries in use of a directory with the clusters `chain`. -/
def Fs.entries (fs : Fs) (chain : List Nat) : List DirEntry := live (chain.flatMap fs.clusterEntries)

/-- **A directory that can be walked**: its clusters are linked, have pages, and fit the buffer. -/
structure Walkable (fs : Fs) (chain : List Nat) : Prop where
  root : fs.mount.rootCluster = chain.headD 0
  visits : Visits fs.mount.fatNextCluster chain
  two_le : ∀ c ∈ chain, 2 ≤ c
  backed : ∀ c ∈ chain, (fs.space c).isSome = true
  size : fs.mount.clusterSize ≤ Fs.brainfsClusterSize

theorem Fs.resolve_of_backed {fs : Fs} {c : Nat} (h : (fs.space c).isSome = true) :
    fs.resolve c = (true, fs) := if_pos h

theorem Fs.clusterRead_whole {fs : Fs} {c : Nat} (hback : (fs.space c).isSome = true)
    (hsize : fs.mount.clusterSize ≤ brainfsClusterSize) (stack : Nat → UInt8) :
    (fs.clusterRead c stack 0 0 brainfsClusterSize).2 = fs ∧ ∀ o < fs.mount.clusterSize,
        (fs.clusterRead c stack 0 0 brainfsClusterSize).1 o = fs.byteAt c o := by
  unfold clusterRead
  simp only [resolve_of_backed hback, Bool.true_eq_false, if_false]
  split
  · exact ⟨rfl, fun o ho => absurd ho (by omega)⟩
  · refine ⟨rfl, fun o ho => ?_⟩
    unfold brainfsClusterSize at *
    dsimp only
    rw [if_pos ⟨Nat.zero_le _, by split <;> omega⟩]
    simp

namespace Walkable

variable {fs : Fs} {chain : List Nat}

theorem loop_eq (stack : Nat → UInt8) (shortName : List UInt8)
    (hsize : fs.mount.clusterSize ≤ Fs.brainfsClusterSize) : ∀ {chain : List Nat} {fuel : Nat},
    Visits fs.mount.fatNextCluster chain → (∀ c ∈ chain, c ≠ 0) →
      (∀ c ∈ chain, (fs.space c).isSome = true) → chain.length < fuel →
      Fs.dirFindLoop stack shortName fuel fs (chain.headD 0) =
        some ((scan shortName (chain.flatMap fs.clusterEntries)).getD none, fs) := by
  intro chain
  induction chain with
  | nil =>
    intro fuel _ _ _ hfuel
    obtain ⟨fuel, rfl⟩ := Nat.exists_eq_succ_of_ne_zero (Nat.ne_of_gt hfuel)
    rfl
  | cons c rest ih =>
    intro fuel hvisits hne hback hfuel
    obtain ⟨fuel, rfl⟩ := Nat.exists_eq_succ_of_ne_zero (Nat.ne_of_gt (Nat.zero_lt_of_lt hfuel))
    obtain ⟨hfs, hread⟩ := Fs.clusterRead_whole (hback c List.mem_cons_self) hsize stack
    have hcluster : (List.range fs.mount.entriesPerCluster).map
        (entryAt (fs.clusterRead c stack 0 0 Fs.brainfsClusterSize).1) = fs.clusterEntries c := by
      refine List.map_congr_left fun i hi => entryAt_congr fun o ho => hread o ?_
      have := List.mem_range.mp hi
      unfold Mount.entriesPerCluster at this
      omega
    have hnext : fs.mount.fatNextCluster c = rest.headD 0 := by
      cases rest with
      | nil => exact hvisits
      | cons d rest => exact hvisits.1
    rw [List.headD_cons, Fs.dirFindLoop, if_neg (hne c List.mem_cons_self)]
    dsimp only
    rw [hcluster, hfs, hnext, List.flatMap_cons, scan_append]
    cases hscan : scan shortName (fs.clusterEntries c) with
    | some found => rfl
    | none =>
      exact ih hvisits.tail (fun d hd => hne d (List.mem_cons_of_mem _ hd))
        (fun d hd => hback d (List.mem_cons_of_mem _ hd)) (Nat.lt_of_succ_lt_succ hfuel)

theorem dirFind_eq (h : Walkable fs chain) {fuel : Nat} (hfuel : chain.length < fuel)
    (stack : Nat → UInt8) (name : Name) : fs.dirFind fuel stack fs.mount.rootCluster name =
      some ((fs.entries chain).find? fun e => decide (e.name = makeShortName name), fs) := by
  unfold Fs.dirFind Fs.entries
  rw [h.root, loop_eq stack _ h.size h.visits (fun c hc => Nat.ne_of_gt (Nat.zero_lt_of_lt (h.two_le c hc)))
    h.backed hfuel, scan_getD]

end Walkable

/-! ## What leaves a directory as it is -/

namespace Mount

@[simp] theorem fatWriteEntry_rootCluster (m : Mount) (c v : Nat) :
    (m.fatWriteEntry c v).rootCluster = m.rootCluster := by
  unfold fatWriteEntry
  split
  · rfl
  · split <;> rfl

@[simp] theorem fatWriteEntry_clusterSize (m : Mount) (c v : Nat) :
    (m.fatWriteEntry c v).clusterSize = m.clusterSize := by
  unfold fatWriteEntry
  split
  · rfl
  · split <;> rfl

theorem entry_write_cases (m : Mount) (c v : Nat) :
    (m.fatWriteEntry c v).entry c = v ∨ (m.fatWriteEntry c v).entry c = m.entry c := by
  rcases ht : m.table.isSome with _ | _
  · right
    rw [fatWriteEntry_of_none (Option.not_isSome_iff_eq_none.mp (by rw [ht]; exact Bool.false_ne_true))]
  · by_cases hc : c < m.totalClusters
    · exact Or.inl (entry_write_self ht hc v)
    · right
      unfold fatWriteEntry
      rw [if_pos (Nat.le_of_not_lt hc)]

end Mount

/-- The volume is the same for a directory with the clusters `chain`. -/
structure SameDir (chain : List Nat) (fs fs' : Fs) : Prop where
  root : fs'.mount.rootCluster = fs.mount.rootCluster
  width : fs'.mount.fatWidth = fs.mount.fatWidth
  size : fs'.mount.clusterSize = fs.mount.clusterSize
  entry : ∀ c ∈ chain, fs'.mount.entry c = fs.mount.entry c
  space : ∀ c ∈ chain, fs'.space c = fs.space c

namespace SameDir

variable {fs fs' fs'' : Fs} {chain : List Nat}

theorem refl (chain : List Nat) (fs : Fs) : SameDir chain fs fs :=
  ⟨rfl, rfl, rfl, fun _ _ => rfl, fun _ _ => rfl⟩

theorem trans (h : SameDir chain fs fs') (h' : SameDir chain fs' fs'') : SameDir chain fs fs'' :=
  ⟨h'.root.trans h.root, h'.width.trans h.width, h'.size.trans h.size,
    fun c hc => (h'.entry c hc).trans (h.entry c hc), fun c hc => (h'.space c hc).trans (h.space c hc)⟩

theorem walkable (h : SameDir chain fs fs') (hw : Walkable fs chain) : Walkable fs' chain where
  root := h.root.trans hw.root
  visits := hw.visits.congr fun c hc => Mount.fatNextCluster_congr h.width (h.entry c hc)
  two_le := hw.two_le
  backed c hc := by
    rw [h.space c hc]
    exact hw.backed c hc
  size := by
    rw [h.size]
    exact hw.size

theorem entries_eq (h : SameDir chain fs fs') : fs'.entries chain = fs.entries chain := by
  unfold Fs.entries
  congr 1
  refine List.flatMap_congr fun c hc => ?_
  unfold Fs.clusterEntries Mount.entriesPerCluster
  rw [h.size]
  refine List.map_congr_left fun i _ => entryAt_congr fun o _ => ?_
  unfold Fs.byteAt
  rw [h.space c hc]

theorem of_mount (hm : fs'.mount = fs.mount) (hs : ∀ c ∈ chain, fs'.space c = fs.space c) : SameDir chain fs fs' := by
  refine ⟨?_, ?_, ?_, fun c _ => ?_, hs⟩ <;> rw [hm]

theorem back {c : Nat} (hc : c ∉ chain) : SameDir chain fs (fs.back c).2 := by
  refine of_mount (fs.back_mount c) fun _ hd => ?_
  have hne := ne_of_mem_of_not_mem hd hc
  unfold Fs.back
  split
  · exact Function.update_of_ne hne _ _
  · rfl

theorem resolve {c : Nat} (hback : ∀ d ∈ chain, (fs.space d).isSome = true) : SameDir chain fs (fs.resolve c).2 := by
  by_cases hc : c ∈ chain
  · rw [Fs.resolve_of_backed (hback c hc)]
    exact refl chain fs
  · unfold Fs.resolve
    split
    · exact refl chain fs
    · exact back hc

theorem clusterWrite {c : Nat} (hc : c ∉ chain) (hback : ∀ d ∈ chain, (fs.space d).isSome = true)
    (buf : Nat → UInt8) (src offset len : Nat) : SameDir chain fs (fs.clusterWrite c buf src offset len) := by
  refine of_mount (fs.clusterWrite_mount c buf src offset len) fun d hd => ?_
  have hne : d ≠ c := ne_of_mem_of_not_mem hd hc
  have hspace := (resolve (c := c) hback).space d hd
  unfold Fs.clusterWrite
  dsimp only
  split
  · rfl
  · split
    · exact hspace
    · exact (Function.update_of_ne hne _ _).trans hspace

theorem fatWriteEntry {c : Nat} (hc : c ∉ chain) (v : Nat) :
    SameDir chain fs { fs with mount := fs.mount.fatWriteEntry c v } where
  root := Mount.fatWriteEntry_rootCluster _ _ _
  width := Mount.fatWriteEntry_fatWidth _ _ _
  size := Mount.fatWriteEntry_clusterSize _ _ _
  entry _ hd := Mount.entry_write_of_ne _ (ne_of_mem_of_not_mem hd hc) v
  space _ _ := rfl

theorem dirCreate (hused : ∀ c ∈ chain, fs.mount.entry c ≠ 0)
    (hback : ∀ d ∈ chain, (fs.space d).isSome = true) : SameDir chain fs fs.dirCreate.2 := by
  unfold Fs.dirCreate Fs.fatAllocCluster
  cases hfind : (List.range fs.mount.totalClusters).find?
      fun c => decide (2 ≤ c) && fs.mount.fatIsFree c with
  | none => exact refl chain fs
  | some c =>
    have hfree := List.find?_some hfind
    simp only [Bool.and_eq_true, decide_eq_true_eq, Mount.fatIsFree] at hfree
    have hc : c ∉ chain := fun hmem => hused c hmem hfree.2
    have halloc : SameDir chain fs ({ fs with mount := fs.mount.startChain c }.back c).2 :=
      (fatWriteEntry hc (allocEoc fs.mount.fatWidth)).trans (back hc)
    dsimp only
    refine halloc.trans (clusterWrite hc (fun d hd => ?_) _ _ _ _)
    rw [halloc.space d hd]
    exact hback d hd

theorem freeLoop (apart : Nat → Prop) (hzero : apart 0) (hapart : ∀ c, apart c → c ∉ chain) :
    ∀ (fuel : Nat) {fs : Fs} {current : Nat}, apart current → (∀ c, apart c → 2 ≤ c → c < fs.mount.totalClusters →
        fatIsEocValue fs.mount.fatWidth (fs.mount.entry c) = false → apart (fs.mount.entry c % 2 ^ 32)) →
      SameDir chain fs (Fs.freeLoop fuel fs current) := by
  intro fuel
  induction fuel with
  | zero => intro fs _ _ _; exact refl chain fs
  | succ fuel ih =>
    intro fs current hcur hclosed
    unfold Fs.freeLoop
    split
    · rename_i hrange
      have hne : ∀ d ∈ chain, d ≠ current := fun d hd => ne_of_mem_of_not_mem hd (hapart current hcur)
      have hpass : SameDir chain fs { fs with mount := fs.mount.fatWriteEntry current 0,
                                              space := Function.update fs.space current none } :=
        ⟨Mount.fatWriteEntry_rootCluster _ _ _, Mount.fatWriteEntry_fatWidth _ _ _,
          Mount.fatWriteEntry_clusterSize _ _ _, fun d hd => Mount.entry_write_of_ne _ (hne d hd) 0,
          fun d hd => Function.update_of_ne (hne d hd) _ _⟩
      dsimp only
      split
      · exact hpass
      · rename_i heoc
        refine hpass.trans (ih (hclosed current hcur hrange.1 hrange.2 (by simpa using heoc)) ?_)
        intro c hc hlo hhi hne
        simp only [Mount.fatWriteEntry_fatWidth, Mount.fatWriteEntry_totalClusters] at hhi hne ⊢
        by_cases heq : c = current
        · subst heq
          rcases Mount.entry_write_cases fs.mount c 0 with hw | hw
          · rw [hw]
            exact hzero
          · rw [hw] at hne ⊢
            exact hclosed c hc hlo hhi hne
        · rw [Mount.entry_write_of_ne _ heq] at hne ⊢
          exact hclosed c hc hlo hhi hne
    · exact refl chain fs

end SameDir

/-! ## Directories and the chains of their files -/

/-- Cluster `d` is on the chain from cluster `c`. -/
inductive Reaches (m : Mount) : Nat → Nat → Prop
  | here {c : Nat} : 2 ≤ c → c < m.totalClusters → Reaches m c c
  | next {c d : Nat} : 2 ≤ c → c < m.totalClusters → Reaches m (m.fatNextCluster c) d → Reaches m c d

/-- **A directory in order**: it can be walked, its clusters are in use in the table, no file's chain comes to
them, and what the table writes for a new cluster leads nowhere. -/
structure Directory (fs : Fs) (chain : List Nat) : Prop extends Walkable fs chain where
  used : ∀ c ∈ chain, fs.mount.entry c ≠ 0
  apart : ∀ e ∈ fs.entries chain, ∀ d, Reaches fs.mount e.firstCluster d → d ∉ chain
  mark : fatIsEocValue fs.mount.fatWidth (allocEoc fs.mount.fatWidth) = true ∨
    fs.mount.totalClusters ≤ allocEoc fs.mount.fatWidth

namespace Reaches

variable {m : Mount} {c d : Nat}

theorem lt (h : Reaches m c d) : 2 ≤ c ∧ c < m.totalClusters := by
  cases h with
  | here hlo hhi => exact ⟨hlo, hhi⟩
  | next hlo hhi _ => exact ⟨hlo, hhi⟩

theorem of_startChain (hfree : m.entry c = 0)
    (hmark : fatIsEocValue m.fatWidth (allocEoc m.fatWidth) = true ∨ m.totalClusters ≤ allocEoc m.fatWidth)
    {x : Nat} (h : Reaches (m.startChain c) x d) : Reaches m x d := by
  have hstop : ∀ y, ¬ Reaches (m.startChain c) ((m.startChain c).fatNextCluster c) y := by
    intro y hy
    have hrange := hy.lt
    rw [Mount.startChain_totalClusters] at hrange
    unfold Mount.fatNextCluster at hrange
    rw [Mount.startChain_fatWidth] at hrange
    rcases Mount.entry_write_cases m c (allocEoc m.fatWidth) with hw | hw
    · unfold Mount.startChain at hrange
      rw [hw] at hrange
      split at hrange
      · omega
      · rename_i heoc
        rcases hmark with hmark | hmark
        · exact heoc hmark
        · have hsmall : allocEoc m.fatWidth < 2 ^ 32 ∨
              fatIsEocValue m.fatWidth (allocEoc m.fatWidth) = true := by
            unfold allocEoc fatIsEocValue
            split <;> simp
          rcases hsmall with hsmall | hsmall
          · rw [Nat.mod_eq_of_lt hsmall] at hrange
            omega
          · exact heoc hsmall
    · unfold Mount.startChain at hrange
      rw [hw, hfree] at hrange
      split at hrange <;> omega
  induction h with
  | here hlo hhi => exact here hlo (by rwa [Mount.startChain_totalClusters] at hhi)
  | @next x d hlo hhi hrest ih =>
    rw [Mount.startChain_totalClusters] at hhi
    by_cases hx : x = c
    · subst hx
      exact absurd hrest (hstop d)
    · refine next hlo hhi ?_
      rw [Mount.fatNextCluster_congr Mount.startChain_fatWidth (Mount.entry_startChain hx)] at ih
      exact ih

end Reaches

namespace Directory

variable {fs fs' : Fs} {chain : List Nat}

theorem range (h : Directory fs chain) {c : Nat} (hc : c ∈ chain) : 2 ≤ c ∧ c < fs.mount.totalClusters := by
  refine ⟨h.two_le c hc, Nat.lt_of_not_le fun hle => h.used c hc ?_⟩
  unfold Mount.entry Mount.fatReadEntry
  rw [if_pos hle]
  rfl

theorem of_same (h : Directory fs chain) (hs : SameDir chain fs fs')
    (htotal : fs'.mount.totalClusters = fs.mount.totalClusters)
    (hreach : ∀ c d, Reaches fs'.mount c d → Reaches fs.mount c d) : Directory fs' chain where
  toWalkable := hs.walkable h.toWalkable
  used c hc := by
    rw [hs.entry c hc]
    exact h.used c hc
  apart e he d hd := by
    rw [hs.entries_eq] at he
    exact h.apart e he d (hreach _ _ hd)
  mark := by
    rw [hs.width, htotal]
    exact h.mark

theorem resolve (h : Directory fs chain) (c : Nat) : Directory (fs.resolve c).2 chain := by
  refine h.of_same (SameDir.resolve h.backed) ?_ fun _ _ hd => ?_
  · rw [fs.resolve_mount c]
  · rwa [fs.resolve_mount c] at hd

theorem dirCreate (h : Directory fs chain) : Directory fs.dirCreate.2 chain := by
  have hsame := SameDir.dirCreate h.used h.backed
  have hmount : fs.dirCreate.2.mount = fs.mount ∨
      ∃ c, fs.mount.entry c = 0 ∧ fs.dirCreate.2.mount = fs.mount.startChain c := by
    unfold Fs.dirCreate Fs.fatAllocCluster
    cases hfind : (List.range fs.mount.totalClusters).find?
        fun c => decide (2 ≤ c) && fs.mount.fatIsFree c with
    | none => exact Or.inl rfl
    | some c =>
      have hfree := List.find?_some hfind
      simp only [Bool.and_eq_true, decide_eq_true_eq, Mount.fatIsFree] at hfree
      exact Or.inr ⟨c, hfree.2, (Fs.clusterWrite_mount _ _ _ _ _ _).trans (Fs.back_mount _ _)⟩
  rcases hmount with hmount | ⟨c, hfree, hmount⟩
  · refine h.of_same hsame ?_ fun _ _ hd => ?_
    · rw [hmount]
    · rwa [hmount] at hd
  · refine h.of_same hsame ?_ fun _ _ hd => ?_
    · rw [hmount, Mount.startChain_totalClusters]
    · rw [hmount] at hd
      exact hd.of_startChain hfree h.mark

theorem fatFreeChain (h : Directory fs chain) {e : DirEntry} (he : e ∈ fs.entries chain) :
    SameDir chain fs (fs.fatFreeChain e.firstCluster) := by
  refine SameDir.freeLoop (fun c => ∀ d, Reaches fs.mount c d → d ∉ chain) ?_ ?_ _ (h.apart e he) ?_
  · intro d hd
    exact absurd hd.lt.1 (by decide)
  · intro c hc hmem
    exact hc c (.here (h.range hmem).1 (h.range hmem).2) hmem
  · intro c hc hlo hhi heoc d hd
    refine hc d (.next hlo hhi ?_)
    unfold Mount.fatNextCluster
    rwa [if_neg (by rw [heoc]; exact Bool.false_ne_true)]

/-- **Every volume that `brainfs_mount` sets up** is in order: it has no directory. -/
theorem mounted (drive width : Nat) (space : Nat → Option (Nat → UInt8)) (supply : Nat → Bool) :
    Directory (Volume.mounted drive width space supply).fs [] where
  root := rfl
  visits := trivial
  two_le c hc := absurd hc List.not_mem_nil
  backed c hc := absurd hc List.not_mem_nil
  size := show 512 * 1 ≤ 4096 by decide
  used c hc := absurd hc List.not_mem_nil
  apart e he := absurd he List.not_mem_nil
  mark := by
    show fatIsEocValue width (allocEoc width) = true ∨ 1024 ≤ allocEoc width
    unfold allocEoc fatIsEocValue
    split <;> simp

end Directory

end Chicago95.Stage2
