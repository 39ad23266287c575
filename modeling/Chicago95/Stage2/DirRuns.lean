/-
# Chicago95.Stage2.DirRuns — creating, deleting, opening and looking for files, over whole histories.

What is claimed of every history (`Sound`): a file that was created is there, and can be opened, until it is
deleted; a file that was deleted is not there; a call on one name changes nothing about another; and the
clusters of a file that was deleted are on no chain of the directory.
-/
import Chicago95.Stage2.Directories

namespace Chicago95.Stage2

open Chicago95.Lib.Chain Chicago95.Lib.Transition

/-! ## One call -/

namespace Volume

/-- The entries in use of the root directory. -/
def entries (fuel : Nat) (v : Volume) : List DirEntry :=
  v.fs.entries (follow v.fs.mount.fatNextCluster fuel v.fs.mount.rootCluster)

/-- An entry has that name. -/
def lists (fuel : Nat) (v : Volume) (name : Name) : Bool :=
  (v.entries fuel).any fun e => decide (e.name = makeShortName name)

/-- The handles of `open_files` that are not in use. -/
def freeHandles (v : Volume) : Nat := v.openFiles.countP fun f => !f.isOpen

variable {v : Volume} {chain : List Nat} {fuel : Nat}

theorem entries_eq (h : Walkable v.fs chain) (hfuel : chain.length < fuel) : v.entries fuel = v.fs.entries chain := by
  unfold entries
  rw [h.root, h.visits.follow_eq (fun c hc => Nat.ne_of_gt (Nat.zero_lt_of_lt (h.two_le c hc)))
    (Nat.le_of_lt hfuel)]

theorem entries_of_same {v' : Volume} (h : Walkable v.fs chain) (hs : SameDir chain v.fs v'.fs)
    (hfuel : chain.length < fuel) : v'.entries fuel = v.entries fuel := by
  rw [entries_eq h hfuel, entries_eq (hs.walkable h) hfuel, hs.entries_eq]

theorem find_entries (h : Walkable v.fs chain) (hfuel : chain.length < fuel) (stack : Nat → UInt8)
    (name : Name) : ∃ found, v.fs.dirFind fuel stack v.fs.mount.rootCluster name = some (found, v.fs) ∧
      found.isSome = v.lists fuel name ∧ ∀ e, found = some e → e ∈ v.fs.entries chain := by
  refine ⟨_, h.dirFind_eq hfuel stack name, ?_, fun e he => List.mem_of_find?_eq_some he⟩
  unfold lists
  rw [entries_eq h hfuel, List.isSome_find?]

theorem fileExists_eq (h : Walkable v.fs chain) (hfuel : chain.length < fuel) (stack : Nat → UInt8)
    (path : Name) : v.fileExists fuel stack path =
      some (if v.lists fuel (afterSlash path) = true then 1 else 0, v) := by
  obtain ⟨found, hfind, hsome, -⟩ := find_entries h hfuel stack (afterSlash path)
  unfold fileExists
  rw [hfind, Option.map_some]
  dsimp only
  rw [hsome]

theorem fileOpen_spec (h : Directory v.fs chain) (hfuel : chain.length < fuel) (stack : Nat → UInt8)
    (path : Name) (mode : Nat) : ∃ v', v.fileOpen fuel stack path mode =
        some (if 0 < v.freeHandles ∧ v.lists fuel path = true then 0 else -1, v') ∧
      Directory v'.fs chain ∧ SameDir chain v.fs v'.fs ∧
      v'.freeHandles = if 0 < v.freeHandles ∧ v.lists fuel path = true then v.freeHandles - 1 else v.freeHandles := by
  obtain ⟨found, hfind, hsome, -⟩ := find_entries h.toWalkable hfuel stack path
  unfold fileOpen
  cases hfree : v.openFiles.findIdx? fun f => !f.isOpen with
  | none =>
    have hnone : ¬ 0 < v.freeHandles := by
      unfold freeHandles
      rw [List.findIdx?_eq_none_iff] at hfree
      rw [List.countP_pos_iff]
      rintro ⟨f, hf, hopen⟩
      rw [hfree f hf] at hopen
      cases hopen
    simp only [hnone, false_and, if_false]
    exact ⟨v, rfl, h, SameDir.refl chain v.fs, rfl⟩
  | some i =>
    obtain ⟨hi, hopen, -⟩ := List.findIdx?_eq_some_iff_getElem.mp hfree
    have hpos : 0 < v.freeHandles := List.countP_pos_iff.mpr ⟨_, List.getElem_mem hi, hopen⟩
    simp only [hfind, Option.map_some, hpos, true_and, ← hsome]
    cases found with
    | none => exact ⟨_, rfl, h, SameDir.refl chain v.fs, rfl⟩
    | some e =>
      refine ⟨_, rfl, ?_, ?_, ?_⟩
      · dsimp only
        split
        · exact h.resolve e.firstCluster
        · exact h
      · dsimp only
        split
        · exact SameDir.resolve h.backed
        · exact SameDir.refl chain v.fs
      · unfold freeHandles
        simp [List.countP_set, hi, hopen]

theorem fileCreate_spec (h : Directory v.fs chain) (path : Name) :
    (v.fs.mount.fatCountFree = 0 ∧ v.fileCreate path = (-1, v)) ∨
    ∃ v', 0 < v.fs.mount.fatCountFree ∧ v.fileCreate path = (0, v') ∧ Directory v'.fs chain ∧
      SameDir chain v.fs v'.fs ∧ v'.freeHandles = v.freeHandles := by
  have hdir := h.dirCreate
  have hsame := SameDir.dirCreate h.used h.backed
  unfold fileCreate
  unfold Mount.fatCountFree
  cases hfind : (List.range v.fs.mount.totalClusters).find?
      fun c => decide (2 ≤ c) && v.fs.mount.fatIsFree c with
  | none =>
    refine Or.inl ⟨?_, ?_⟩
    · rw [List.countP_eq_zero]
      exact fun c hc => by simpa using List.find?_eq_none.mp hfind c hc
    · unfold Fs.dirCreate Fs.fatAllocCluster
      rw [hfind]
      rfl
  | some c =>
    have hresult : v.fs.dirCreate.1 = some c := by
      unfold Fs.dirCreate Fs.fatAllocCluster
      rw [hfind]
    refine Or.inr ⟨{ v with fs := v.fs.dirCreate.2 }, ?_, ?_, hdir, hsame, rfl⟩
    · have hfree := List.find?_some hfind
      exact List.countP_pos_iff.mpr ⟨c, List.mem_of_find?_eq_some hfind, hfree⟩
    · dsimp only
      rw [hresult]
      rfl

theorem fileDelete_spec (h : Directory v.fs chain) (hfuel : chain.length < fuel) (stack : Nat → UInt8) (path : Name) :
    (v.lists fuel (afterSlash path) = false ∧ v.fileDelete fuel stack path = some (-1, v)) ∨
    ∃ v', v.lists fuel (afterSlash path) = true ∧ v.fileDelete fuel stack path = some (0, v') ∧
      SameDir chain v.fs v'.fs := by
  obtain ⟨found, hfind, hsome, hmem⟩ := find_entries h.toWalkable hfuel stack (afterSlash path)
  unfold fileDelete Fs.dirDelete
  rw [hfind, ← hsome]
  cases found with
  | none => exact Or.inl ⟨rfl, rfl⟩
  | some e =>
    refine Or.inr ⟨_, rfl, rfl, ?_⟩
    dsimp only
    split
    · exact h.fatFreeChain (hmem e rfl)
    · exact SameDir.refl chain v.fs

end Volume

/-! ## Histories -/

/-- A volume, and for each path whether the last call on it that returned 0 created its file or deleted
it. -/
structure DirRuns where
  volume : Volume
  marks : Name → Option Bool

/-- A call on a path. -/
inductive DirCall where
  | create (path : Name)
  | delete (path : Name)
  | openFile (path : Name) (mode : Nat)
  | query (path : Name)

/-- The path of a call. -/
def DirCall.path : DirCall → Name
  | create path => path
  | delete path => path
  | openFile path _ => path
  | query path => path

namespace DirRuns

/-- Before the first call. -/
def start (v : Volume) : DirRuns := { volume := v, marks := fun _ => none }

section

variable (fuel : Nat) (stack : Nat → UInt8)

/-- What a call returns and leaves; `none` where it has not returned. -/
def outcome (s : DirRuns) : DirCall → Option (Int × Volume)
  | .create path => some (s.volume.fileCreate path)
  | .delete path => s.volume.fileDelete fuel stack path
  | .openFile path mode => s.volume.fileOpen fuel stack path mode
  | .query path => s.volume.fileExists fuel stack path

/-- The marks after a call that returned `result`. -/
def marksAfter (s : DirRuns) (call : DirCall) (result : Int) : Name → Option Bool :=
  match call with
  | .create path => if result = 0 then Function.update s.marks path (some true) else s.marks
  | .delete path => if result = 0 then Function.update s.marks path (some false) else s.marks
  | _ => s.marks

/-- One call. -/
def next (s : DirRuns) (call : DirCall) : DirRuns :=
  match s.outcome fuel stack call with
  | some r => { volume := r.2, marks := s.marksAfter call r.1 }
  | none => s

/-- What `brainfs_file_exists` returns for a path. -/
def existsResult (s : DirRuns) (path : Name) : Option Int :=
  (s.volume.fileExists fuel stack path).map Prod.fst

/-- `brainfs_file_open` succeeds for a path. -/
def Opens (s : DirRuns) (path : Name) : Prop :=
  ∀ mode, (s.volume.fileOpen fuel stack path mode).map Prod.fst = some 0

/-- **A consistent directory**, over one call: it returns; what was created is there and can be opened; what
was deleted is not there; other names are as before; no chain of the directory comes to the clusters of a
file that was deleted. -/
structure Sound (s : DirRuns) (call : DirCall) (t : DirRuns) : Prop where
  returns : (s.outcome fuel stack call).isSome = true
  created : ∀ path, t.marks path = some true →
    t.existsResult fuel stack path = some 1 ∧ t.Opens fuel stack path
  deleted : ∀ path, t.marks path = some false → t.existsResult fuel stack path = some 0
  others : ∀ path, path ≠ call.path → t.existsResult fuel stack path = s.existsResult fuel stack path
  unreachable : ∀ path, call = .delete path → (s.outcome fuel stack call).map Prod.fst = some 0 →
    ∀ e, ((s.volume.entries fuel).find? fun e =>
      decide (e.name = makeShortName (afterSlash path))) = some e →
    ∀ d, Reaches s.volume.fs.mount e.firstCluster d →
    ∀ e' ∈ t.volume.entries fuel, ¬ Reaches t.volume.fs.mount e'.firstCluster d

end

/-- **The condition on a call**: a file is created where no cluster is free, or where it is there already
under both names, and a handle is free; a file is deleted that is not there; and while a file that was
created is not yet deleted, a call that opens a file leaves a handle free. -/
def Fits (fuel : Nat) (s : DirRuns) : DirCall → Prop
  | .create path => s.volume.fs.mount.fatCountFree = 0 ∨
      (s.volume.lists fuel (afterSlash path) = true ∧ s.volume.lists fuel path = true ∧
        0 < s.volume.freeHandles)
  | .delete path => s.volume.lists fuel (afterSlash path) = false
  | .openFile path _ => (∃ made, s.marks made = some true) → s.volume.lists fuel path = true →
      1 < s.volume.freeHandles
  | .query _ => True

/-- What a sound history keeps: the directory, and that what was created is there. -/
structure Inv (fuel : Nat) (chain : List Nat) (s : DirRuns) : Prop where
  dir : Directory s.volume.fs chain
  created : ∀ path, s.marks path = some true → s.volume.lists fuel (afterSlash path) = true ∧
    s.volume.lists fuel path = true ∧ 0 < s.volume.freeHandles
  deleted : ∀ path, s.marks path ≠ some false

variable {fuel : Nat} {stack : Nat → UInt8} {s t : DirRuns} {chain : List Nat}

theorem existsResult_eq (h : Walkable s.volume.fs chain) (hfuel : chain.length < fuel) (path : Name) :
    s.existsResult fuel stack path = some (if s.volume.lists fuel (afterSlash path) = true then 1 else 0) := by
  unfold existsResult
  rw [Volume.fileExists_eq h hfuel]
  rfl

theorem opens_iff (h : Directory s.volume.fs chain) (hfuel : chain.length < fuel) (path : Name) :
    s.Opens fuel stack path ↔ 0 < s.volume.freeHandles ∧ s.volume.lists fuel path = true := by
  have hresult : ∀ mode, (s.volume.fileOpen fuel stack path mode).map Prod.fst =
      some (if 0 < s.volume.freeHandles ∧ s.volume.lists fuel path = true then 0 else -1) := by
    intro mode
    obtain ⟨v', hopen, -⟩ := Volume.fileOpen_spec h hfuel stack path mode
    rw [hopen]
    rfl
  unfold Opens
  simp only [hresult, forall_const]
  split <;> simp_all

theorem created_iff (h : Directory t.volume.fs chain) (hfuel : chain.length < fuel) (path : Name) :
    (t.existsResult fuel stack path = some 1 ∧ t.Opens fuel stack path) ↔
      t.volume.lists fuel (afterSlash path) = true ∧ t.volume.lists fuel path = true ∧ 0 < t.volume.freeHandles := by
  rw [existsResult_eq h.toWalkable hfuel, opens_iff h hfuel]
  constructor
  · rintro ⟨hthere, hfree, hlists⟩
    refine ⟨?_, hlists, hfree⟩
    by_contra hnot
    rw [if_neg hnot] at hthere
    cases hthere
  · rintro ⟨hthere, hlists, hfree⟩
    exact ⟨by rw [if_pos hthere], hfree, hlists⟩

theorem sound_iff_created (stack : Nat → UInt8) (t : DirRuns) (hs : s.Inv fuel chain)
    (hfuel : chain.length < fuel) {call : DirCall} {r : Int}
    (hout : s.outcome fuel stack call = some (r, t.volume)) (hdir : Directory t.volume.fs chain)
    (hsame : SameDir chain s.volume.fs t.volume.fs) (hdeleted : ∀ path, t.marks path ≠ some false)
    (hdel : ∀ path, call = .delete path → r ≠ 0) : (s.Sound fuel stack call t ↔ ∀ path, t.marks path = some true →
      s.volume.lists fuel (afterSlash path) = true ∧ s.volume.lists fuel path = true ∧ 0 < t.volume.freeHandles) ∧
      (s.Sound fuel stack call t → t.Inv fuel chain) := by
  have hlists : ∀ name, t.volume.lists fuel name = s.volume.lists fuel name := by
    intro name
    unfold Volume.lists
    rw [Volume.entries_of_same hs.dir.toWalkable hsame hfuel]
  have hiff : s.Sound fuel stack call t ↔ ∀ path, t.marks path = some true →
      s.volume.lists fuel (afterSlash path) = true ∧ s.volume.lists fuel path = true ∧
        0 < t.volume.freeHandles := by
    constructor
    · intro h path hmark
      have hcreated := (created_iff hdir hfuel path).mp (h.created path hmark)
      rwa [hlists, hlists] at hcreated
    · intro h
      refine ⟨by rw [hout]; rfl, fun path hmark => (created_iff hdir hfuel path).mpr ?_,
        fun path hmark => absurd hmark (hdeleted path), fun path _ => ?_, fun path hcall hzero => ?_⟩
      · rw [hlists, hlists]
        exact h path hmark
      · rw [existsResult_eq hdir.toWalkable hfuel, existsResult_eq hs.dir.toWalkable hfuel, hlists]
      · rw [hout, Option.map_some, Option.some_inj] at hzero
        exact absurd hzero (hdel path hcall)
  refine ⟨hiff, fun h => ⟨hdir, fun path hmark => ?_, hdeleted⟩⟩
  rw [hlists, hlists]
  exact hiff.mp h path hmark

/-! ## One step -/

theorem next_of_outcome {call : DirCall} {r : Int} {v : Volume} (h : s.outcome fuel stack call = some (r, v)) :
    (s.next fuel stack call).volume = v ∧ (s.next fuel stack call).marks = s.marksAfter call r := by
  unfold next
  rw [h]
  exact ⟨rfl, rfl⟩

/-- What a step lemma says of a call. -/
abbrev StepIff (fuel : Nat) (stack : Nat → UInt8) (chain : List Nat) (s : DirRuns) (call : DirCall) :
    Prop :=
  (s.Sound fuel stack call (s.next fuel stack call) ↔ s.Fits fuel call) ∧
    (s.Sound fuel stack call (s.next fuel stack call) → (s.next fuel stack call).Inv fuel chain)

theorem step_unmarked (hs : s.Inv fuel chain) (hfuel : chain.length < fuel) {call : DirCall} {r : Int}
    {v : Volume} (hout : s.outcome fuel stack call = some (r, v)) (hdir : Directory v.fs chain)
    (hsame : SameDir chain s.volume.fs v.fs) (hmarks : s.marksAfter call r = s.marks)
    (hdel : ∀ path, call = .delete path → r ≠ 0)
    (hfits : s.Fits fuel call ↔ ((∃ made, s.marks made = some true) → 0 < v.freeHandles)) :
    StepIff fuel stack chain s call := by
  obtain ⟨hvolume, hnext⟩ := next_of_outcome hout
  rw [hmarks] at hnext
  obtain ⟨hiff, hinv⟩ := sound_iff_created stack (s.next fuel stack call) hs hfuel
    (by rw [hvolume]; exact hout) (by rw [hvolume]; exact hdir) (by rw [hvolume]; exact hsame)
    (by rw [hnext]; exact hs.deleted) hdel
  refine ⟨hiff.trans ?_, hinv⟩
  rw [hfits, hnext, hvolume]
  constructor
  · rintro h ⟨made, hmade⟩
    exact (h made hmade).2.2
  · intro h path hmark
    obtain ⟨hthere, hlists, -⟩ := hs.created path hmark
    exact ⟨hthere, hlists, h ⟨path, hmark⟩⟩

theorem step_create (hs : s.Inv fuel chain) (hfuel : chain.length < fuel) (path : Name) :
    StepIff fuel stack chain s (.create path) := by
  rcases Volume.fileCreate_spec hs.dir path with ⟨hfull, hcall⟩ | ⟨v, hroom, hcall, hdir, hsame, hfree⟩
  · refine step_unmarked hs hfuel (congrArg some hcall) hs.dir (SameDir.refl chain _) rfl
      (fun _ h => (by cases h)) (iff_of_true (Or.inl hfull) ?_)
    rintro ⟨made, hmade⟩
    exact (hs.created made hmade).2.2
  · have hout : s.outcome fuel stack (.create path) = some (0, v) := congrArg some hcall
    obtain ⟨hvolume, hnext⟩ := next_of_outcome hout
    have hmarks : (s.next fuel stack (.create path)).marks =
        Function.update s.marks path (some true) := hnext
    obtain ⟨hiff, hinv⟩ := sound_iff_created stack (s.next fuel stack (.create path)) hs hfuel
      (by rw [hvolume]; exact hout) (by rw [hvolume]; exact hdir) (by rw [hvolume]; exact hsame)
      (fun p => by
        rw [hmarks]
        by_cases hp : p = path
        · rw [hp, Function.update_self]
          simp
        · rw [Function.update_of_ne hp]
          exact hs.deleted p)
      (fun _ h => (by cases h))
    refine ⟨hiff.trans ?_, hinv⟩
    rw [hmarks, hvolume, hfree]
    constructor
    · intro h
      exact Or.inr (h path (Function.update_self ..))
    · intro h p hmark
      by_cases hp : p = path
      · rw [hp]
        rcases h with hfull | hthere
        · omega
        · exact hthere
      · rw [Function.update_of_ne hp] at hmark
        exact hs.created p hmark

theorem step_delete (hs : s.Inv fuel chain) (hfuel : chain.length < fuel) (path : Name) :
    StepIff fuel stack chain s (.delete path) := by
  rcases Volume.fileDelete_spec hs.dir hfuel stack path with ⟨hnone, hcall⟩ | ⟨v, hsome, hcall, hsame⟩
  · refine step_unmarked hs hfuel hcall hs.dir (SameDir.refl chain _) rfl
      (fun _ _ => by decide) (iff_of_true hnone ?_)
    rintro ⟨made, hmade⟩
    exact (hs.created made hmade).2.2
  · have hout : s.outcome fuel stack (.delete path) = some (0, v) := hcall
    obtain ⟨hvolume, hnext⟩ := next_of_outcome hout
    have hmarks : (s.next fuel stack (.delete path)).marks =
        Function.update s.marks path (some false) := hnext
    have hunsound : ¬ s.Sound fuel stack (.delete path) (s.next fuel stack (.delete path)) := by
      intro h
      have hgone := h.deleted path (by rw [hmarks, Function.update_self])
      rw [existsResult_eq (by rw [hvolume]; exact hsame.walkable hs.dir.toWalkable) hfuel, hvolume] at hgone
      have hlists : v.lists fuel (afterSlash path) = true := by
        unfold Volume.lists at hsome ⊢
        rwa [Volume.entries_of_same hs.dir.toWalkable hsame hfuel]
      rw [if_pos hlists] at hgone
      cases hgone
    refine ⟨iff_of_false hunsound ?_, fun h => absurd h hunsound⟩
    show ¬ s.volume.lists fuel (afterSlash path) = false
    rw [hsome]
    exact fun hfalse => (by cases hfalse)

theorem step_openFile (hs : s.Inv fuel chain) (hfuel : chain.length < fuel) (path : Name) (mode : Nat) :
    StepIff fuel stack chain s (.openFile path mode) := by
  obtain ⟨v, hcall, hdir, hsame, hfree⟩ := Volume.fileOpen_spec hs.dir hfuel stack path mode
  refine step_unmarked hs hfuel hcall hdir hsame rfl (fun _ h => (by cases h)) ?_
  show ((∃ made, s.marks made = some true) → s.volume.lists fuel path = true → 1 < s.volume.freeHandles) ↔ _
  rw [hfree]
  refine forall_congr' fun ⟨made, hmade⟩ => ?_
  obtain ⟨-, -, hpos⟩ := hs.created made hmade
  by_cases hlists : s.volume.lists fuel path = true
  · rw [if_pos ⟨hpos, hlists⟩]
    simp only [hlists, forall_const]
    omega
  · rw [if_neg fun h => hlists h.2]
    exact iff_of_true (fun h => absurd h hlists) hpos

theorem step_query (hs : s.Inv fuel chain) (hfuel : chain.length < fuel) (path : Name) :
    StepIff fuel stack chain s (.query path) := by
  refine step_unmarked hs hfuel (Volume.fileExists_eq hs.dir.toWalkable hfuel stack path) hs.dir
    (SameDir.refl chain _) rfl (fun _ h => (by cases h)) (iff_of_true trivial ?_)
  rintro ⟨made, hmade⟩
  exact (hs.created made hmade).2.2

theorem step_iff (hs : s.Inv fuel chain) (hfuel : chain.length < fuel) (call : DirCall) :
    StepIff fuel stack chain s call := by
  cases call with
  | create path => exact step_create hs hfuel path
  | delete path => exact step_delete hs hfuel path
  | openFile path mode => exact step_openFile hs hfuel path mode
  | query path => exact step_query hs hfuel path

/-! ## Whole histories -/

/-- A FAT16 volume whose directory, cluster 2, has one entry: `AAAAAAAA`, at cluster 3. -/
def oneFile : Volume :=
  { fs :=
      { mount :=
          { drive := 0, mounted := true, fatWidth := 16, sectorsPerCluster := 1, totalClusters := 1024,
            table := some fun c => if c = 2 ∨ c = 3 then 0xFFF8 else 0, rootCluster := 2 }
        space := fun c => if c = 2 then some fun o =>
          if o < 8 then 0x41 else if o < 11 then 0x20 else if o = 26 then 3 else 0
        else none
        supply := fun _ => true }
    openFiles := (Volume.mounted 0 16 (fun _ => none) fun _ => true).openFiles }

theorem directory_oneFile : Directory oneFile.fs [2] where
  root := rfl
  visits := show oneFile.fs.mount.fatNextCluster 2 = 0 by decide
  two_le := by decide
  backed := by decide
  size := by decide
  used := by decide
  apart e he d hd := by
    have hfirst : ∀ e ∈ oneFile.fs.entries [2], e.firstCluster = 3 := by decide
    rw [hfirst e he] at hd
    cases hd with
    | here => decide
    | next _ _ hrest => exact absurd hrest.lt.1 (by decide)
  mark := by decide

/-- `AAAAAAAA/AAAAAAAA`: eight characters before the slash, and the same after it. -/
def twiceA : Name := List.replicate 8 0x41 ++ 0x2F :: List.replicate 8 0x41

end DirRuns

end Chicago95.Stage2
