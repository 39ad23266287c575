/-
# Chicago95.Stage2.Brainvfs — the mount table of `fs/brainvfs.c`.

`vfs_mount` fills the slot number `mount_count` and counts it; `vfs_umount` clears the slot of a path and
counts down; `vfs_get_mount` looks in the slots below `mount_count` for the active one whose path is a
prefix of the path given, with the most slashes, the last of those that have equally many.
-/
import Chicago95.Lib.Counting
import Chicago95.Lib.Loop
import Chicago95.Lib.Transition

namespace Chicago95.Stage2

open Chicago95.Lib.Counting Chicago95.Lib.Loop Chicago95.Lib.Transition
open Function (update_of_ne update_self update)

/-! ## The table -/

def brainvfsMaxMounts : Nat := 8
def brainvfsMaxFds : Nat := 64
def vfsFlagMounted : UInt32 := 0x08

/-- The members of `vfs_ops_t`. -/
inductive VfsOp where
  | open | close | read | write | seek | tell | truncate
  | stat | mkdir | rmdir | readdir | rename | unlink | sync

/-- `vfs_ops_t`: the address of each operation, `none` for a null pointer. -/
abbrev VfsOps := VfsOp → Option Nat

/-- `vfs_mount_t`. (Nothing sets `fs_context`.) -/
structure VfsMount where
  mountPath : List Char
  fsName : List Char
  drive : UInt8
  fatWidth : UInt8
  flags : UInt32
  ops : VfsOps
  active : Bool

/-- What unmounting reads of `vfs_fd_t`. -/
structure VfsFd where
  id : Nat
  mountIdx : Nat
  inUse : Bool

/-- `vfs_state_t` -/
structure VfsState where
  mounts : Nat → VfsMount
  mountCount : Nat
  fds : Nat → VfsFd
  fdCount : Nat
  nextFd : Nat
  initialized : Bool

/-- A slot or a descriptor as the loader's image has it. -/
def VfsMount.zero : VfsMount :=
  { mountPath := [], fsName := [], drive := 0, fatWidth := 0, flags := 0, ops := fun _ => none,
    active := false }

/-- `vfs_init` on the loader's image, in which the table is all zeros. -/
def vfsInit : VfsState :=
  { mounts := fun _ => .zero
    mountCount := 0
    fds := fun _ => { id := 0, mountIdx := 0, inUse := false }
    fdCount := 0
    nextFd := 3
    initialized := true }

/-- The arguments of `vfs_mount`; `none` for a null pointer. -/
structure MountArgs where
  mountPath : Option (List Char)
  fsName : Option (List Char)
  drive : UInt8
  fatWidth : UInt8
  ops : Option VfsOps

def vfsPathDepth (path : List Char) : Nat := path.count '/'

/-- What `vfs_mount` stores of a path: its first 127 characters. -/
def storedPath (path : List Char) : List Char := path.take 127

namespace VfsState

/-- The slot is active and has exactly this path. -/
def matchesPath (s : VfsState) (path : List Char) (i : Nat) : Bool :=
  (s.mounts i).active && decide ((s.mounts i).mountPath = path)

/-- What `vfs_mount` puts in a slot. -/
def fillSlot (old : VfsMount) (path name : List Char) (args : MountArgs) : VfsMount :=
  { mountPath := storedPath path
    fsName := name.take 31
    drive := args.drive
    fatWidth := args.fatWidth
    flags := vfsFlagMounted
    ops := args.ops.getD old.ops
    active := true }

def vfsMount (s : VfsState) (args : MountArgs) : Int × VfsState :=
  match args.mountPath, args.fsName with
  | some path, some name =>
    if brainvfsMaxMounts ≤ s.mountCount then (-1, s)
    else if (List.range s.mountCount).any (s.matchesPath path) = true then (-1, s)
    else
      (0, { s with
        mounts := update s.mounts s.mountCount
          (fillSlot (s.mounts s.mountCount) path name args)
        mountCount := s.mountCount + 1 })
  | _, _ => (-1, s)

/-- `vfs_close`, but for the call of the file system's own `close`. -/
def vfsClose (s : VfsState) (id : Nat) : VfsState :=
  match (List.range brainvfsMaxFds).find? fun i => (s.fds i).inUse && decide ((s.fds i).id = id) with
  | none => s
  | some i =>
    { s with fds := update s.fds i { s.fds i with inUse := false }
             fdCount := s.fdCount - 1 }

/-- `vfs_umount`, but for the call of the file system's `sync`. -/
def vfsUmount (s : VfsState) (mountPath : Option (List Char)) : Int × VfsState :=
  match mountPath with
  | none => (-1, s)
  | some path =>
    match (List.range s.mountCount).find? (s.matchesPath path) with
    | none => (-1, s)
    | some i =>
      let s := forEach brainvfsMaxFds (fun fd s =>
        if (s.fds fd).inUse = true ∧ (s.fds fd).mountIdx = i then s.vfsClose (s.fds fd).id else s) s
      (0, { s with mounts := update s.mounts i { s.mounts i with active := false }
                   mountCount := s.mountCount - 1 })

/-- `vfs_get_mount`: the number of the slot. -/
def vfsGetMount (s : VfsState) (path : Option (List Char)) : Option Nat :=
  match path with
  | none => none
  | some path =>
    (lastBest (fun i => (s.mounts i).active && (s.mounts i).mountPath.isPrefixOf path)
      (fun i => vfsPathDepth (s.mounts i).mountPath) s.mountCount).1

/-! ## What the table promises -/

/-- Slot `i` is there and active. -/
def Active (s : VfsState) (i : Nat) : Prop := i < brainvfsMaxMounts ∧ (s.mounts i).active = true

/-- **The table is in order.** -/
structure Sound (s : VfsState) : Prop where
  /-- The count is the number of active slots. -/
  counted : s.mountCount = countBelow brainvfsMaxMounts fun i => (s.mounts i).active
  /-- No two active slots have the same path. -/
  distinct : ∀ i j, s.Active i → s.Active j → (s.mounts i).mountPath = (s.mounts j).mountPath → i = j
  /-- An active slot is found by each path that is stored as its own. -/
  found : ∀ i, s.Active i → ∀ path, storedPath path = (s.mounts i).mountPath →
    s.vfsGetMount (some path) = some i

end VfsState

/-- The two calls. -/
inductive MountCall where
  | mount (args : MountArgs)
  | umount (mountPath : Option (List Char))

namespace VfsState

/-- One call. -/
def next (s : VfsState) : MountCall → VfsState
  | .mount args => (s.vfsMount args).2
  | .umount path => (s.vfsUmount path).2

/-- What a call keeps: the table is in order after it, and a mount overwrites no active slot and, when it
is given no operations, has none. -/
def CallSound (s : VfsState) (call : MountCall) (t : VfsState) : Prop :=
  t.Sound ∧
    match call with
    | .umount _ => True
    | .mount args =>
      (∀ i, s.Active i → t.mounts i = s.mounts i) ∧
        ((s.vfsMount args).1 = 0 → args.ops = none →
          ∀ i, t.Active i → ¬ s.Active i → ∀ op, (t.mounts i).ops op = none)

/-- The calls that keep a table in order. -/
def Safe (s : VfsState) : MountCall → Prop
  | .mount args =>
    (s.vfsMount args).1 = 0 → ∀ path, args.mountPath = some path →
      (∀ i, s.Active i → ¬(storedPath path <+: (s.mounts i).mountPath ∧
        vfsPathDepth (storedPath path) = vfsPathDepth (s.mounts i).mountPath)) ∧
      (args.ops = none → ∀ op, (s.mounts s.mountCount).ops op = none)
  | .umount path =>
    ∀ p, path = some p → ∀ i, (List.range s.mountCount).find? (s.matchesPath p) = some i →
      i + 1 = s.mountCount

/-! ## What the calls do -/

section

variable {s : VfsState}

theorem vfsGetMount_iff (path : List Char) (i : Nat) : s.vfsGetMount (some path) = some i ↔
      i < s.mountCount ∧ ((s.mounts i).active = true ∧ (s.mounts i).mountPath <+: path) ∧
        ∀ k, k < s.mountCount → (s.mounts k).active = true → (s.mounts k).mountPath <+: path →
          vfsPathDepth (s.mounts k).mountPath < vfsPathDepth (s.mounts i).mountPath ∨
            vfsPathDepth (s.mounts k).mountPath = vfsPathDepth (s.mounts i).mountPath ∧ k ≤ i := by
  unfold vfsGetMount
  simp only [lastBest_iff, Bool.and_eq_true, List.isPrefixOf_iff_prefix, and_imp]

theorem vfsMount_cases (s : VfsState) (args : MountArgs) :
    s.vfsMount args = (-1, s) ∨
    ∃ path name, args.mountPath = some path ∧ s.mountCount < brainvfsMaxMounts ∧
      s.vfsMount args = (0, { s with
        mounts := update s.mounts s.mountCount
          (fillSlot (s.mounts s.mountCount) path name args)
        mountCount := s.mountCount + 1 }) := by
  unfold vfsMount
  rcases args.mountPath with _ | path
  · exact Or.inl rfl
  · rcases args.fsName with _ | name
    · exact Or.inl rfl
    · dsimp only
      by_cases hfull : brainvfsMaxMounts ≤ s.mountCount
      · exact Or.inl (if_pos hfull)
      · rw [if_neg hfull]
        by_cases hdup : (List.range s.mountCount).any (s.matchesPath path) = true
        · exact Or.inl (if_pos hdup)
        · exact Or.inr ⟨path, name, rfl, Nat.lt_of_not_le hfull, if_neg hdup⟩

theorem vfsClose_mounts (s : VfsState) (id : Nat) :
    (s.vfsClose id).mounts = s.mounts ∧ (s.vfsClose id).mountCount = s.mountCount := by
  unfold vfsClose
  split <;> exact ⟨rfl, rfl⟩

theorem vfsUmount_cases (s : VfsState) (mountPath : Option (List Char)) :
    (s.vfsUmount mountPath = (-1, s) ∧
      ∀ p, mountPath = some p → (List.range s.mountCount).find? (s.matchesPath p) = none) ∨
    ∃ p i, mountPath = some p ∧ (List.range s.mountCount).find? (s.matchesPath p) = some i ∧
      (s.vfsUmount mountPath).2.mounts =
        update s.mounts i { s.mounts i with active := false } ∧
      (s.vfsUmount mountPath).2.mountCount = s.mountCount - 1 := by
  unfold vfsUmount
  rcases mountPath with _ | p
  · exact Or.inl ⟨rfl, fun p hp => by cases hp⟩
  · dsimp only
    rcases hfind : (List.range s.mountCount).find? (s.matchesPath p) with _ | i
    · refine Or.inl ⟨rfl, fun q hq => ?_⟩
      rw [← Option.some.inj hq]
      exact hfind
    · refine Or.inr ⟨p, i, rfl, hfind, ?_⟩
      have hloop : ∀ n, (forEach n (fun fd s =>
          if (s.fds fd).inUse = true ∧ (s.fds fd).mountIdx = i then s.vfsClose (s.fds fd).id else s)
          s).mounts = s.mounts ∧ (forEach n (fun fd s =>
          if (s.fds fd).inUse = true ∧ (s.fds fd).mountIdx = i then s.vfsClose (s.fds fd).id else s)
          s).mountCount = s.mountCount := fun n => by
        refine forEach_preserves (P := fun t : VfsState => t.mounts = s.mounts ∧
          t.mountCount = s.mountCount) ⟨rfl, rfl⟩ fun fd t _ ht => ?_
        split
        · obtain ⟨hm, hc⟩ := t.vfsClose_mounts (t.fds fd).id
          exact ⟨hm.trans ht.1, hc.trans ht.2⟩
        · exact ht
      obtain ⟨hm, hc⟩ := hloop brainvfsMaxFds
      dsimp only
      rw [hm, hc]
      exact ⟨rfl, rfl⟩

/-! ## Tables in order -/

/-- The paths in the table are short enough to be stored. -/
def Short (s : VfsState) : Prop :=
  ∀ i, s.Active i → storedPath (s.mounts i).mountPath = (s.mounts i).mountPath

theorem Sound.active_iff (h : s.Sound) (hshort : s.Short) {i : Nat} : s.Active i ↔ i < s.mountCount := by
  have hbelow : ∀ k, s.Active k → k < s.mountCount := fun k hk =>
    ((vfsGetMount_iff _ k).mp (h.found k hk _ (hshort k hk))).1
  refine ⟨hbelow i, fun hi => ?_⟩
  have hle : s.mountCount ≤ brainvfsMaxMounts := h.counted ▸ countBelow_le _ _
  -- every slot that is counted lies below the count, so all of those are active
  have hall : countBelow s.mountCount (fun k => (s.mounts k).active) = s.mountCount := by
    have hclear : countBelow brainvfsMaxMounts
        (fun k => (s.mounts k).active && decide (k < brainvfsMaxMounts)) =
          countBelow s.mountCount fun k => (s.mounts k).active && decide (k < brainvfsMaxMounts) :=
      countBelow_of_clear hle fun k hk => ?_
    · have hcongr : ∀ n, n ≤ brainvfsMaxMounts →
          countBelow n (fun k => (s.mounts k).active && decide (k < brainvfsMaxMounts)) =
            countBelow n fun k => (s.mounts k).active := fun n hn => by
        refine List.countP_congr fun k hk => ?_
        have hk' := List.mem_range.mp hk
        simp only [Bool.and_eq_true, decide_eq_true_eq]
        exact ⟨And.left, fun ha => ⟨ha, by omega⟩⟩
      rw [hcongr _ (Nat.le_refl _), hcongr _ hle] at hclear
      rw [← hclear]
      exact h.counted.symm
    · rcases hact : (s.mounts k).active && decide (k < brainvfsMaxMounts) with _ | _
      · rfl
      · simp only [Bool.and_eq_true, decide_eq_true_eq] at hact
        exact absurd (hbelow k ⟨hact.2, hact.1⟩) (Nat.not_lt.mpr hk)
  exact ⟨by omega, (countBelow_eq_iff _ _).mp hall i hi⟩

theorem depth_mono {p q path : List Char} (hp : storedPath p = p) (hpre : p <+: path)
    (hq : storedPath path = q) : p <+: q ∧ vfsPathDepth p ≤ vfsPathDepth q := by
  have hlen : p.length ≤ 127 := by
    rw [← hp]
    exact List.length_take_le 127 p
  have hpq : p <+: q := by
    rw [← hq]
    exact List.prefix_take_iff.mpr ⟨hpre, hlen⟩
  exact ⟨hpq, hpq.sublist.count_le '/'⟩

theorem Sound.best (h : s.Sound) (hshort : s.Short) {i : Nat} (hi : i < s.mountCount)
    {path : List Char} (hpath : storedPath path = (s.mounts i).mountPath) :
    ∀ k, k < s.mountCount → (s.mounts k).mountPath <+: path →
      vfsPathDepth (s.mounts k).mountPath < vfsPathDepth (s.mounts i).mountPath ∨
        vfsPathDepth (s.mounts k).mountPath = vfsPathDepth (s.mounts i).mountPath ∧ k ≤ i := by
  have hbest := ((vfsGetMount_iff _ i).mp
    (h.found i ((h.active_iff hshort).mpr hi) path hpath)).2.2
  exact fun k hk hpre => hbest k hk ((h.active_iff hshort).mpr hk).2 hpre

/-! ## One call -/

/-- The table after a mount that was not refused. -/
def mounted (s : VfsState) (path name : List Char) (args : MountArgs) : VfsState :=
  { s with
    mounts := update s.mounts s.mountCount
      (fillSlot (s.mounts s.mountCount) path name args)
    mountCount := s.mountCount + 1 }

section

variable {path name : List Char} {args : MountArgs}

theorem mounted_self : (s.mounted path name args).mounts s.mountCount =
    fillSlot (s.mounts s.mountCount) path name args := update_self ..

theorem mounted_of_lt {i : Nat} (hi : i < s.mountCount) :
    (s.mounted path name args).mounts i = s.mounts i := update_of_ne (by omega) ..

theorem mounted_active_iff (h : s.Sound) (hshort : s.Short) (hroom : s.mountCount < brainvfsMaxMounts)
    {i : Nat} : (s.mounted path name args).Active i ↔ i < s.mountCount + 1 := by
  unfold Active
  by_cases hi : i = s.mountCount
  · subst hi
    rw [mounted_self]
    exact iff_of_true ⟨hroom, rfl⟩ (Nat.lt_succ_self _)
  · have hold : (s.mounted path name args).mounts i = s.mounts i := update_of_ne hi ..
    rw [hold]
    exact (h.active_iff hshort).trans (by omega)

/-- **A mount that takes over no path** leaves the table in order. -/
theorem Sound.mounted (h : s.Sound) (hshort : s.Short) (hroom : s.mountCount < brainvfsMaxMounts)
    (hsafe : ∀ i, s.Active i → ¬(storedPath path <+: (s.mounts i).mountPath ∧
      vfsPathDepth (storedPath path) = vfsPathDepth (s.mounts i).mountPath)) :
    (s.mounted path name args).Sound where
  counted := by
    have hcount := countBelow_update_entry VfsMount.active s.mounts hroom
      (fillSlot (s.mounts s.mountCount) path name args)
    have hfree : (s.mounts s.mountCount).active = false := by
      rcases hact : (s.mounts s.mountCount).active with _ | _
      · rfl
      · exact absurd ((h.active_iff hshort).mp ⟨hroom, hact⟩) (Nat.lt_irrefl _)
    have hfilled : (fillSlot (s.mounts s.mountCount) path name args).active = true := rfl
    simp only [hfree, hfilled, Bool.toNat_false, Bool.toNat_true] at hcount
    rw [← h.counted] at hcount
    exact hcount.symm
  distinct i j hi hj heq := by
    have hi' := (mounted_active_iff h hshort hroom).mp hi
    have hj' := (mounted_active_iff h hshort hroom).mp hj
    rcases Nat.lt_succ_iff_lt_or_eq.mp hi' with hi | rfl
    · rcases Nat.lt_succ_iff_lt_or_eq.mp hj' with hj | rfl
      · rw [mounted_of_lt hi, mounted_of_lt hj] at heq
        exact h.distinct i j ((h.active_iff hshort).mpr hi) ((h.active_iff hshort).mpr hj) heq
      · rw [mounted_of_lt hi, mounted_self] at heq
        refine absurd ⟨?_, ?_⟩ (hsafe i ((h.active_iff hshort).mpr hi)) <;> rw [heq]
        · exact List.prefix_refl _
        · rfl
    · rcases Nat.lt_succ_iff_lt_or_eq.mp hj' with hj | rfl
      · rw [mounted_of_lt hj, mounted_self] at heq
        refine absurd ⟨?_, ?_⟩ (hsafe j ((h.active_iff hshort).mpr hj)) <;> rw [← heq]
        · exact List.prefix_refl _
        · rfl
      · rfl
  found i hi p hp := by
    have hi' := (mounted_active_iff h hshort hroom).mp hi
    refine (vfsGetMount_iff p i).mpr ⟨hi', ⟨hi.2, ?_⟩, fun k hk _ hpre => ?_⟩
    · rw [← hp]
      exact List.take_prefix 127 p
    rcases Nat.lt_succ_iff_lt_or_eq.mp hk with hk | rfl
    · rcases Nat.lt_succ_iff_lt_or_eq.mp hi' with hi | rfl
      · rw [mounted_of_lt hi] at hp ⊢
        rw [mounted_of_lt hk] at hpre ⊢
        exact h.best hshort hi hp k hk hpre
      · -- an older path with the same continuation is no deeper
        have hstored := hshort k ((h.active_iff hshort).mpr hk)
        rw [mounted_of_lt hk] at hpre ⊢
        have hle := (depth_mono hstored hpre hp).2
        omega
    · rcases Nat.lt_succ_iff_lt_or_eq.mp hi' with hi | rfl
      · rw [mounted_of_lt hi] at hp ⊢
        rw [mounted_self] at hpre ⊢
        have hstored : storedPath (storedPath path) = storedPath path := by
          simp [storedPath, List.take_take]
        obtain ⟨hpq, hle⟩ := depth_mono hstored hpre hp
        have hne := fun heq => hsafe i ((h.active_iff hshort).mpr hi) ⟨hpq, heq⟩
        exact Or.inl (Nat.lt_of_le_of_ne hle hne)
      · exact Or.inr ⟨rfl, Nat.le_refl _⟩

end

theorem Sound.unmounted {t : VfsState} (h : s.Sound) (hshort : s.Short) {i : Nat}
    (hi : i + 1 = s.mountCount)
    (hmounts : t.mounts = update s.mounts i { s.mounts i with active := false })
    (hcount : t.mountCount = s.mountCount - 1) : t.Sound := by
  have hact : s.Active i := (h.active_iff hshort).mpr (by omega)
  have hother : ∀ k, k ≠ i → t.mounts k = s.mounts k := fun k hk => by
    rw [hmounts, update_of_ne hk]
  have hgone : (t.mounts i).active = false := by rw [hmounts, update_self]
  have hlt : ∀ k, t.Active k → k < i := fun k hk => by
    have hne : k ≠ i := by
      rintro rfl
      rw [hk.2] at hgone
      cases hgone
    have := (h.active_iff hshort).mp ⟨hk.1, by rw [← hother k hne]; exact hk.2⟩
    omega
  have hsact : ∀ k, k < i → s.Active k := fun k hk => (h.active_iff hshort).mpr (by omega)
  constructor
  · have hupdate := countBelow_update_entry VfsMount.active s.mounts hact.1
      { s.mounts i with active := false }
    rw [← hmounts, hact.2] at hupdate
    rw [hcount, h.counted]
    simp only [Bool.toNat_false, Bool.toNat_true] at hupdate
    omega
  · intro a b ha hb heq
    rw [hother a (Nat.ne_of_lt (hlt a ha)), hother b (Nat.ne_of_lt (hlt b hb))] at heq
    exact h.distinct a b (hsact a (hlt a ha)) (hsact b (hlt b hb)) heq
  · intro a ha p hp
    have ha' := hlt a ha
    rw [hother a (Nat.ne_of_lt ha')] at hp
    refine (vfsGetMount_iff p a).mpr ⟨by omega, ⟨ha.2, ?_⟩, fun k hk _ hpre => ?_⟩
    · rw [hother a (Nat.ne_of_lt ha'), ← hp]
      exact List.take_prefix 127 p
    · rw [hother k (by omega)] at hpre ⊢
      rw [hother a (by omega)]
      exact h.best hshort (by omega) hp k (by omega) hpre

theorem Short.next (hshort : s.Short) (call : MountCall) : (s.next call).Short := by
  cases call with
  | mount args =>
    simp only [VfsState.next]
    rcases s.vfsMount_cases args with heq | ⟨path, name, _, _, heq⟩
    · rw [heq]
      exact hshort
    · rw [heq]
      intro i hi
      by_cases hic : i = s.mountCount
      · subst hic
        simp [fillSlot, storedPath, List.take_take]
      · simp only [update_of_ne hic]
        refine hshort i ⟨hi.1, ?_⟩
        have hact := hi.2
        simpa only [update_of_ne hic] using hact
  | umount path =>
    simp only [VfsState.next]
    rcases s.vfsUmount_cases path with ⟨heq, _⟩ | ⟨p, i, _, _, hmounts, _⟩
    · rw [heq]
      exact hshort
    · intro k hk
      have hact := hk.2
      rw [hmounts] at hact ⊢
      by_cases hki : k = i
      · subst hki
        rw [update_self] at hact
        cases hact
      · rw [update_of_ne hki] at hact ⊢
        exact hshort k ⟨hk.1, hact⟩

theorem callSound_iff (h : s.Sound) (hshort : s.Short) (call : MountCall) :
    s.CallSound call (s.next call) ↔ s.Safe call := by
  cases call with
  | mount args =>
    rcases s.vfsMount_cases args with heq | ⟨path, name, hpath, hroom, heq⟩
    · -- refused
      have hnext : s.next (.mount args) = s := by
        show (s.vfsMount args).2 = s
        rw [heq]
      refine iff_of_true ⟨by rwa [hnext], fun i _ => by rw [hnext], fun hok => ?_⟩ fun hok => ?_
      all_goals
        rw [heq] at hok
        cases hok
    · have hnext : s.next (.mount args) = s.mounted path name args := by
        show (s.vfsMount args).2 = _
        rw [heq]
        rfl
      have hnew : ¬ s.Active s.mountCount := fun hact =>
        Nat.lt_irrefl _ ((h.active_iff hshort).mp hact)
      unfold CallSound
      rw [hnext]
      constructor
      · rintro ⟨hsound, _, hops⟩ _ p hp
        obtain rfl : path = p := Option.some.inj (hpath.symm.trans hp)
        refine ⟨fun i hi hcon => ?_, fun hnone op => ?_⟩
        · -- the new slot would be found for the older one's path
          have hlt := (h.active_iff hshort).mp hi
          have hact : (s.mounted path name args).Active i :=
            (mounted_active_iff h hshort hroom).mpr (Nat.lt_succ_of_lt hlt)
          have hown : storedPath (s.mounts i).mountPath =
              ((s.mounted path name args).mounts i).mountPath := by
            rw [mounted_of_lt hlt]
            exact hshort i hi
          have hbest := ((vfsGetMount_iff _ i).mp (hsound.found i hact _ hown)).2.2 s.mountCount
            (Nat.lt_succ_self _)
          rw [mounted_self, mounted_of_lt hlt] at hbest
          rcases hbest rfl hcon.1 with hless | ⟨_, hle⟩
          · exact absurd hcon.2 (Nat.ne_of_lt hless)
          · omega
        · have hact : (s.mounted path name args).Active s.mountCount :=
            (mounted_active_iff h hshort hroom).mpr (Nat.lt_succ_self _)
          have hslot := hops (by rw [heq]) hnone s.mountCount hact hnew op
          rw [mounted_self] at hslot
          simpa only [fillSlot, hnone, Option.getD_none] using hslot
      · intro hsafe
        obtain ⟨hfresh, hops⟩ := hsafe (by rw [heq]) path hpath
        refine ⟨h.mounted hshort hroom hfresh,
          fun i hi => mounted_of_lt ((h.active_iff hshort).mp hi), fun _ hnone i hi hni op => ?_⟩
        have hlt := (mounted_active_iff h hshort hroom).mp hi
        have hge : ¬ i < s.mountCount := fun hlt' => hni ((h.active_iff hshort).mpr hlt')
        obtain rfl : i = s.mountCount := by omega
        rw [mounted_self]
        simpa only [fillSlot, hnone, Option.getD_none] using hops hnone op
  | umount mountPath =>
    unfold CallSound Safe
    simp only [and_true, VfsState.next]
    rcases s.vfsUmount_cases mountPath with ⟨heq, hnone⟩ | ⟨p, i, hp, hfind, hmounts, hcount⟩
    · rw [heq]
      refine iff_of_true h fun p hp i hfind => ?_
      rw [hnone p hp] at hfind
      cases hfind
    · have hi : i < s.mountCount := List.mem_range.mp (List.mem_of_find?_eq_some hfind)
      constructor
      · intro hsound q hq k hk
        obtain rfl : p = q := Option.some.inj (hp.symm.trans hq)
        obtain rfl : i = k := Option.some.inj (hfind.symm.trans hk)
        refine Decidable.byContradiction fun hne => ?_
        -- the last slot is active still, and out of reach
        have hlast : s.Active (s.mountCount - 1) := (h.active_iff hshort).mpr (by omega)
        have hact : (s.vfsUmount mountPath).2.Active (s.mountCount - 1) := by
          refine ⟨hlast.1, ?_⟩
          rw [hmounts, update_of_ne (by omega)]
          exact hlast.2
        have hlt := (hsound.active_iff (hshort.next (.umount mountPath))).mp hact
        rw [hcount] at hlt
        exact absurd hlt (Nat.lt_irrefl _)
      · intro hsafe
        exact h.unmounted hshort (hsafe p hp i hfind) hmounts hcount

end

/-! ## Whole runs -/

theorem sound_vfsInit : vfsInit.Sound where
  counted := rfl
  distinct i j hi := by cases hi.2
  found i hi := by cases hi.2

/-- **The mount table over whole runs.** From `vfs_init`, every call of a run keeps the table's promises
exactly when every call is safe. -/
theorem mountTable_run {tr : List (MountCall × VfsState)} (htr : Trace (fun s call t => t = s.next call) vfsInit tr) :
    AllSteps (fun s call t => s.CallSound call t) vfsInit tr ↔ Guarded (fun s call => s.Safe call) vfsInit tr := by
  refine htr.allSteps_iff_guarded (J := fun s => s.Sound ∧ s.Short) ?_ ?_ ⟨sound_vfsInit, ?_⟩
  · rintro s call _ ⟨hsound, hshort⟩ rfl
    exact callSound_iff hsound hshort call
  · rintro s call _ ⟨_, hshort⟩ rfl hcall
    exact ⟨hcall.1, hshort.next call⟩
  · intro i hi
    cases hi.2

/-- A mount of `path` with an operation table. -/
def mountOf (path : List Char) : MountCall :=
  .mount
    { mountPath := some path, fsName := some [], drive := 0, fatWidth := 16, ops := some fun _ => none }

/-- The table after `/a` and `/b` have been mounted and `/a` unmounted. -/
def holeTable : VfsState :=
  [mountOf ['/', 'a'], mountOf ['/', 'b'], .umount (some ['/', 'a'])].foldl next vfsInit

/-- The mount of `/b` is out of reach there, and the next mount overwrites it. -/
theorem mount_overwritten : holeTable.Active 1 ∧ holeTable.vfsGetMount (some ['/', 'b']) = none ∧
      ((holeTable.next (mountOf ['/', 'c'])).mounts 1).mountPath = ['/', 'c'] ∧
      ¬ ∀ tr : List (MountCall × VfsState), Trace (fun s call t => t = s.next call) vfsInit tr →
        AllSteps (fun s call t => s.CallSound call t) vfsInit tr := by
  have hact : holeTable.Active 1 := ⟨by decide, by decide +kernel⟩
  have hlost : holeTable.vfsGetMount (some ['/', 'b']) = none := by decide +kernel
  refine ⟨hact, hlost, by decide +kernel, fun hall => ?_⟩
  have hrun := hall _ (trace_traceOf next vfsInit
    [mountOf ['/', 'a'], mountOf ['/', 'b'], .umount (some ['/', 'a'])])
  have hsound : holeTable.Sound :=
    (AllSteps.traceOf_at [mountOf ['/', 'a'], mountOf ['/', 'b']] hrun).1
  have hfound := hsound.found 1 hact ['/', 'b'] (by decide +kernel)
  rw [hlost] at hfound
  cases hfound

/-- The root is mounted, then a directory below it, and both are unmounted again. -/
theorem nested_mounts : AllSteps (fun s call t => s.CallSound call t) vfsInit
        (traceOf next vfsInit [mountOf ['/'], mountOf ['/', 'a', '/', 'b'],
          .umount (some ['/', 'a', '/', 'b']), .umount (some ['/'])]) ↔ Guarded (fun s call => s.Safe call) vfsInit
        (traceOf next vfsInit [mountOf ['/'], mountOf ['/', 'a', '/', 'b'],
          .umount (some ['/', 'a', '/', 'b']), .umount (some ['/'])]) :=
  mountTable_run (trace_traceOf next vfsInit _)

end VfsState

end Chicago95.Stage2
