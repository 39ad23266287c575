/-
# Chicago95.Stage2.FatRuns — allocating and freeing clusters on a mounted volume.

Which clusters are in use is recorded in the table alone. A volume as `brainfs_mount` sets it up has no
table in memory: every entry reads as free, every write is dropped, and nothing in the sources ever loads
one. So every allocation returns cluster 2, and the count of free clusters stays what it was.
-/
import Chicago95.Stage2.Brainfs

namespace Chicago95.Stage2

open Chicago95.Lib.Transition

/-! ## A volume without a table -/

theorem Fs.fatAllocCluster_of_none {fs : Fs} (ht : fs.mount.table = none) (htotal : 2 < fs.mount.totalClusters) :
    ∃ fs', fs.fatAllocCluster = (some 2, fs') ∧ fs'.mount = fs.mount := by
  have hfind : (List.range fs.mount.totalClusters).find?
      (fun c => decide (2 ≤ c) && fs.mount.fatIsFree c) = some 2 := by
    rw [List.find?_range_eq_some]
    refine ⟨?_, List.mem_range.mpr htotal, fun j hj => ?_⟩
    · simp [Mount.fatIsFree, Mount.entry_of_none ht]
    · simp [Nat.not_le.mpr hj]
  unfold Fs.fatAllocCluster
  rw [hfind]
  refine ⟨_, rfl, ?_⟩
  rw [Mount.startChain, Mount.fatWriteEntry_of_none ht]
  unfold Fs.back
  split <;> rfl

theorem Fs.back_mount (fs : Fs) (c : Nat) : (fs.back c).2.mount = fs.mount := by
  unfold Fs.back
  split <;> rfl

theorem Fs.resolve_mount (fs : Fs) (c : Nat) : (fs.resolve c).2.mount = fs.mount := by
  unfold Fs.resolve
  split
  · rfl
  · exact fs.back_mount c

theorem Fs.clusterWrite_mount (fs : Fs) (c : Nat) (buf : Nat → UInt8) (src offset len : Nat) :
    (fs.clusterWrite c buf src offset len).mount = fs.mount := by
  unfold Fs.clusterWrite
  dsimp only
  split
  · rfl
  · split
    · exact fs.resolve_mount c
    · exact fs.resolve_mount c

theorem Fs.freeLoop_mount : ∀ (fuel : Nat) {fs : Fs} (current : Nat), fs.mount.table = none →
    (Fs.freeLoop fuel fs current).mount = fs.mount := by
  intro fuel
  induction fuel with
  | zero => intro fs current _; rfl
  | succ fuel ih =>
    intro fs current ht
    unfold Fs.freeLoop
    split
    · simp only [Mount.fatWriteEntry_of_none ht]
      split
      · rfl
      · rw [ih]
        exact ht
    · rfl

namespace Transfer

variable {s : Transfer}

/-- A write takes a cluster. -/
def NeedsCluster (s : Transfer) : Prop :=
  s.file.currentCluster = 0 ∨ s.file.fileSize ≤ s.file.position

theorem room_of_none (ht : s.fs.mount.table = none) (htotal : 2 < s.fs.mount.totalClusters) :
    (¬ s.NeedsCluster ∧ s.room = some s) ∨
    ∃ t, s.NeedsCluster ∧ s.room = some t ∧ t.fs.mount = s.fs.mount ∧ t.taken = s.taken ++ [2] ∧
      t.file.position = s.file.position ∧ t.done = s.done := by
  unfold room
  by_cases hneeds : s.file.currentCluster = 0 ∨ s.file.fileSize ≤ s.file.position
  · obtain ⟨fs', halloc, hmount⟩ := Fs.fatAllocCluster_of_none ht htotal
    right
    rw [if_pos hneeds, halloc]
    dsimp only
    split
    · exact ⟨_, hneeds, rfl, hmount, rfl, rfl, rfl⟩
    · refine ⟨_, hneeds, rfl, ?_, rfl, rfl, rfl⟩
      simp only [hmount, Mount.fatWriteEntry_of_none ht]
  · exact Or.inl ⟨hneeds, if_neg hneeds⟩

theorem writePass_of_none {drive width : Nat} (hm : s.fs.mount = brainfsMount drive width) {len : Nat}
    (hlen : s.done < len) : (s.writePass len).2.fs.mount = s.fs.mount ∧
    ((s.writePass len).1 = true → (s.writePass len).2.done = len) ∧
    (s.writePass len).2.taken = if s.file.currentCluster = 0 ∨ s.file.fileSize ≤ s.file.position
      then s.taken ++ [2] else s.taken := by
  have ht : s.fs.mount.table = none := by rw [hm]; rfl
  have htotal : 2 < s.fs.mount.totalClusters := by rw [hm]; exact show 2 < 1024 by decide
  have hsize : s.fs.mount.clusterSize = 512 := by rw [hm]; rfl
  have hpass : ∃ t : Transfer, s.room = some t ∧ t.fs.mount = s.fs.mount ∧
      t.file.position = s.file.position ∧ t.done = s.done ∧
      t.taken = if s.file.currentCluster = 0 ∨ s.file.fileSize ≤ s.file.position
        then s.taken ++ [2] else s.taken := by
    rcases room_of_none ht htotal with ⟨hneeds, hroom⟩ | ⟨t, hneeds, hroom, hmount, htaken, hpos, hdone⟩
    · exact ⟨s, hroom, rfl, rfl, rfl, (if_neg hneeds).symm⟩
    · exact ⟨t, hroom, hmount, hpos, hdone, htaken.trans (if_pos hneeds).symm⟩
  obtain ⟨t, hroom, hmount, hpos, hdone, htaken⟩ := hpass
  unfold writePass
  simp only [hroom, hsize]
  have hnext : ∀ c, (t.fs.clusterWrite t.file.currentCluster t.buf t.done
      (s.file.position % 512) (min (512 - s.file.position % 512) (len - s.done))).mount.fatNextCluster c
      = 0 := fun c => by
    rw [Fs.clusterWrite_mount, hmount]
    exact Mount.fatNextCluster_of_none ht c
  rw [hnext, if_pos rfl]
  split
  · refine ⟨?_, fun hf => absurd hf Bool.false_ne_true, htaken⟩
    exact (Fs.clusterWrite_mount _ _ _ _ _ _).trans hmount
  · -- the end of a cluster was not reached, so the buffer's was
    next hend =>
    refine ⟨(Fs.clusterWrite_mount _ _ _ _ _ _).trans hmount, fun _ => ?_, htaken⟩
    rw [hpos] at hend
    rw [hdone]
    dsimp only
    omega

theorem writeLoop_of_none {drive width : Nat} (hm : s.fs.mount = brainfsMount drive width) {len : Nat}
    (hlen : s.done < len) (fuel : Nat) : (s.writeLoop len (fuel + 1)).fs.mount = s.fs.mount ∧
    (s.writeLoop len (fuel + 1)).taken = if s.file.currentCluster = 0 ∨ s.file.fileSize ≤ s.file.position
        then s.taken ++ [2] else s.taken := by
  obtain ⟨hmount, hdone, htaken⟩ := writePass_of_none hm hlen
  have hloop : s.writeLoop len (fuel + 1) = (s.writePass len).2 := by
    show (if s.done < len then
      (if (s.writePass len).1 = true then (s.writePass len).2.writeLoop len fuel
        else (s.writePass len).2) else s) = _
    rw [if_pos hlen]
    split
    · next hgo =>
      cases fuel with
      | zero => rfl
      | succ fuel =>
        show (if (s.writePass len).2.done < len then _ else (s.writePass len).2) = _
        rw [if_neg (by rw [hdone hgo]; exact Nat.lt_irrefl len)]
    · rfl
  rw [hloop]
  exact ⟨hmount, htaken⟩

end Transfer

/-! ## Histories -/

/-- The volume, with the chains allocated on it and not yet freed. -/
structure FatRuns where
  fs : Fs
  chains : List (List Nat)

/-- A call; a write is of any file and buffer. -/
inductive FatCall where
  | alloc
  | freeChain (startCluster : Nat)
  | write (file : File) (buf : Nat → UInt8) (len : Nat)
  | dirCreate

namespace FatRuns

/-- From `brainfs_init` and `brainfs_mount`; no cluster has a page. -/
def start (drive width : Nat) (supply : Nat → Bool) : FatRuns :=
  { fs := { mount := brainfsMount drive width, space := fun _ => none, supply := supply }, chains := [] }

/-- The clusters that `brainfs_fat_alloc_cluster` returns in a call, in order, and what it leaves. -/
def outcome (s : FatRuns) : FatCall → List Nat × Fs
  | .alloc => (s.fs.fatAllocCluster.1.toList, s.fs.fatAllocCluster.2)
  | .freeChain c => ([], s.fs.fatFreeChain c)
  | .write file buf len =>
    ((s.fs.fileWrite file buf len).2.taken, (s.fs.fileWrite file buf len).2.fs)
  | .dirCreate => (s.fs.dirCreate.1.toList, s.fs.dirCreate.2)

/-- The chains after a call: allocated clusters are chains of their own, or continue the file's. -/
def chainsAfter (s : FatRuns) : FatCall → List (List Nat)
  | .alloc => (s.outcome .alloc).1.map (fun c => [c]) ++ s.chains
  | .freeChain c => s.chains.filter fun l => decide (l.head? ≠ some c)
  | .write file buf len =>
    let taken := (s.outcome (.write file buf len)).1
    if taken = [] then s.chains
    else if file.firstCluster = 0 then taken :: s.chains
    else s.chains.map fun l => if l.getLast? = some file.currentCluster then l ++ taken else l
  | .dirCreate => (s.outcome .dirCreate).1.map (fun c => [c]) ++ s.chains

/-- One call. -/
def next (s : FatRuns) (call : FatCall) : FatRuns :=
  { fs := (s.outcome call).2, chains := s.chainsAfter call }

/-- Files are at a cluster of the volume, or at none. -/
def Allowed (s : FatRuns) : FatCall → Prop
  | .write file _ len => file.currentCluster < s.fs.mount.totalClusters ∧ len < 2 ^ 32
  | _ => True

/-- One step of a history. -/
def Step (s : FatRuns) (call : FatCall) (t : FatRuns) : Prop := s.Allowed call ∧ t = s.next call

/-- The length of the chain that begins at a cluster. -/
def chainLength (s : FatRuns) (c : Nat) : Nat :=
  ((s.chains.find? fun l => decide (l.head? = some c)).getD []).length

/-- **Safe allocation.** The clusters a call is given are clusters of the volume, all different, and in no
chain; each lowers the count of free clusters by one, and freeing raises it by the chain's length. -/
def AllocSafe (s : FatRuns) (call : FatCall) (t : FatRuns) : Prop :=
  (s.outcome call).1.Nodup ∧
  (∀ c ∈ (s.outcome call).1, 2 ≤ c ∧ c < s.fs.mount.totalClusters ∧ ∀ l ∈ s.chains, c ∉ l) ∧
  t.fs.mount.fatCountFree + (s.outcome call).1.length =
    s.fs.mount.fatCountFree + match call with
      | .freeChain c => s.chainLength c
      | _ => 0

/-- **The condition on a call**: it allocates no cluster. -/
def NoAlloc (s : FatRuns) : FatCall → Prop
  | .alloc => False
  | .freeChain _ => True
  | .write file _ len =>
    file.isOpen = false ∨ file.mode = 0 ∨ s.fs.findMount = false ∨ len = 0 ∨
      (file.currentCluster ≠ 0 ∧ file.position < file.fileSize)
  | .dirCreate => False

variable {s : FatRuns} {drive width : Nat}

/-! ## One step -/

theorem outcome_of_none (hm : s.fs.mount = brainfsMount drive width) (call : FatCall) :
    (s.outcome call).2.mount = s.fs.mount ∧ ((s.outcome call).1 = [] ↔ s.NoAlloc call) := by
  have ht : s.fs.mount.table = none := by rw [hm]; rfl
  have htotal : 2 < s.fs.mount.totalClusters := by rw [hm]; exact show 2 < 1024 by decide
  obtain ⟨fs', halloc, hmount⟩ := Fs.fatAllocCluster_of_none ht htotal
  cases call with
  | alloc =>
    simp only [outcome, halloc]
    exact ⟨hmount, iff_of_false (List.cons_ne_nil _ _) id⟩
  | freeChain c => exact ⟨Fs.freeLoop_mount _ c ht, iff_of_true rfl trivial⟩
  | dirCreate =>
    simp only [outcome, Fs.dirCreate, halloc]
    exact ⟨(Fs.clusterWrite_mount _ _ _ _ _ _).trans hmount, iff_of_false (List.cons_ne_nil _ _) id⟩
  | write file buf len =>
    unfold NoAlloc
    simp only [outcome, Fs.fileWrite]
    by_cases hclosed : file.isOpen = false ∨ file.mode = 0
    · rw [if_pos hclosed]
      exact ⟨rfl, iff_of_true rfl (hclosed.elim Or.inl fun h => Or.inr (Or.inl h))⟩
    · rw [if_neg hclosed]
      by_cases hmnt : s.fs.findMount = false
      · rw [if_pos hmnt]
        exact ⟨rfl, iff_of_true rfl (Or.inr (Or.inr (Or.inl hmnt)))⟩
      · rw [if_neg hmnt]
        obtain ⟨hopen, hmode⟩ := not_or.mp hclosed
        simp only [hopen, hmode, hmnt, Bool.true_eq_false, false_or]
        rcases Nat.eq_zero_or_pos len with rfl | hpos
        · exact ⟨rfl, iff_of_true rfl (Or.inl rfl)⟩
        · obtain ⟨n, rfl⟩ := Nat.exists_eq_succ_of_ne_zero (Nat.pos_iff_ne_zero.mp hpos)
          have hloop := Transfer.writeLoop_of_none
            (s := { fs := s.fs, file := file, buf := buf, done := 0, taken := [] }) hm
            (show 0 < n + 1 from hpos) n
          refine ⟨hloop.1, ?_⟩
          rw [hloop.2]
          split
          · next hneeds =>
            refine iff_of_false (List.cons_ne_nil _ _) ?_
            rintro (hzero | hkept)
            · exact absurd hzero (Nat.succ_ne_zero n)
            · rcases hneeds with h0 | hle
              · exact hkept.1 h0
              · exact absurd hkept.2 (Nat.not_lt.mpr hle)
          · next hneeds =>
            obtain ⟨h0, hlt⟩ := not_or.mp hneeds
            exact iff_of_true rfl (Or.inr ⟨h0, Nat.lt_of_not_le hlt⟩)

theorem step_iff (hm : s.fs.mount = brainfsMount drive width) (hc : s.chains = []) {call : FatCall}
    {t : FatRuns} (hst : s.Step call t) : s.AllocSafe call t ↔ s.NoAlloc call := by
  obtain ⟨_, rfl⟩ := hst
  obtain ⟨hmount, htaken⟩ := outcome_of_none hm call
  have hfree : ∀ c, s.chainLength c = 0 := fun c => by simp [chainLength, hc]
  have hcount : (s.next call).fs.mount.fatCountFree = s.fs.mount.fatCountFree := by
    simp only [next, hmount]
  rw [← htaken]
  constructor
  · rintro ⟨_, _, hdrop⟩
    rw [hcount] at hdrop
    refine List.eq_nil_of_length_eq_zero ?_
    cases call with
    | freeChain c => rfl
    | alloc => dsimp only at hdrop; omega
    | write file buf len => dsimp only at hdrop; omega
    | dirCreate => dsimp only at hdrop; omega
  · intro hnil
    refine ⟨by rw [hnil]; exact List.nodup_nil, fun c hmem => ?_, ?_⟩
    · rw [hnil] at hmem
      exact absurd hmem List.not_mem_nil
    · rw [hcount, hnil]
      cases call with
      | freeChain c => simp only [hfree, List.length_nil]
      | alloc => rfl
      | write file buf len => rfl
      | dirCreate => rfl

theorem next_kept (hm : s.fs.mount = brainfsMount drive width) (hc : s.chains = []) {call : FatCall}
    (hno : s.NoAlloc call) : (s.next call).fs.mount = brainfsMount drive width ∧ (s.next call).chains = [] := by
  obtain ⟨hmount, htaken⟩ := outcome_of_none hm call
  refine ⟨hmount.trans hm, ?_⟩
  have hnil := htaken.mpr hno
  cases call with
  | freeChain c => simp [next, chainsAfter, hc]
  | alloc => simp only [next, chainsAfter, hnil, hc, List.map_nil, List.append_nil]
  | write file buf len => simp only [next, chainsAfter, hnil, if_true, hc]
  | dirCreate => simp only [next, chainsAfter, hnil, hc, List.map_nil, List.append_nil]

/-- **Allocation over whole histories** of a volume just mounted: safe throughout exactly when no call
allocates. -/
theorem allocSafe_run_iff (drive width : Nat) (supply : Nat → Bool) {tr : List (FatCall × FatRuns)}
    (htr : Trace Step (start drive width supply) tr) : AllSteps AllocSafe (start drive width supply) tr ↔
      Guarded NoAlloc (start drive width supply) tr := by
  refine htr.allSteps_iff_guarded
    (J := fun (s : FatRuns) => s.fs.mount = brainfsMount drive width ∧ s.chains = []) ?_ ?_ ⟨rfl, rfl⟩
  · intro s call t hs hst
    exact step_iff hs.1 hs.2 hst
  · intro s call t hs hst hsafe
    rw [hst.2]
    exact next_kept hs.1 hs.2 ((step_iff hs.1 hs.2 hst).mp hsafe)

/-! ## Two allocations -/

/-- Freeing on a fresh volume changes nothing. -/
theorem free_safe : AllSteps AllocSafe (start 0 16 fun _ => true)
      (traceOf next (start 0 16 fun _ => true) [.freeChain 2, .freeChain 5]) := by
  have hfree : ∀ (s : FatRuns) c, s.Allowed (.freeChain c) := fun s c => trivial
  exact (allocSafe_run_iff 0 16 (fun _ => true) (.cons ⟨hfree _ 2, rfl⟩ (.cons ⟨hfree _ 5, rfl⟩
    (.nil _)))).mpr ⟨trivial, trivial, trivial⟩

/-- Two allocations: the count of free clusters is what it was. -/
theorem alloc_twice : ¬ ∀ (drive width : Nat) (supply : Nat → Bool) (tr : List (FatCall × FatRuns)),
        Trace Step (start drive width supply) tr → AllSteps AllocSafe (start drive width supply) tr := by
  intro hall
  have halloc : ∀ s : FatRuns, s.Allowed .alloc := fun s => trivial
  have htr : Trace Step (start 0 16 fun _ => true)
      (traceOf next (start 0 16 fun _ => true) [.alloc, .alloc]) :=
    .cons ⟨halloc _, rfl⟩ (.cons ⟨halloc _, rfl⟩ (.nil _))
  exact ((allocSafe_run_iff 0 16 (fun _ => true) htr).mp (hall 0 16 _ _ htr)).1

end FatRuns

end Chicago95.Stage2
