/-
# Chicago95.Stage2.PathDispatch — which mount a path goes to, and what is left of it.

`vfs_get_mount` compares a path with the mount paths letter by letter and orders the matches by their slashes,
then by their slots; `vfs_resolve_path` copies what follows the mount path and takes one slash off its front.
A path is meant name by name: it goes to the mount with the most of its names, and the names that are left are
what the file system gets (`Dispatched`).
-/
import Chicago95.Lib.Paths
import Chicago95.Stage2.Brainvfs

namespace Chicago95.Stage2

open Chicago95.Lib.Paths Chicago95.Lib.Loop

namespace VfsState

/-! ## The code -/

/-- What `vfs_resolve_path` leaves in `rel_path` of what follows the mount path. -/
def relPath (rest : List Char) (relMax : UInt32) : List Char :=
  let rel := rest.take (relMax - 1).toNat
  if rel.head? = some '/' then rel.tail else rel

/-- `vfs_resolve_path`: the number of the slot, and the path in it; `none` where it returns -1. -/
def vfsResolvePath (s : VfsState) (fullPath : List Char) (relMax : UInt32) : Option (Nat × List Char) :=
  (s.vfsGetMount (some fullPath)).map fun i =>
    (i, relPath (fullPath.drop (s.mounts i).mountPath.length) relMax)

/-! ## What it is to do -/

/-- The names of the mount's path are names at the front of the path. -/
def NamesMatch (s : VfsState) (path : List Char) (i : Nat) : Prop :=
  s.Active i ∧ names '/' (s.mounts i).mountPath <+: names '/' path

/-- Of the mounts that match, none has more names. -/
def LongestMatch (s : VfsState) (path : List Char) (i : Nat) : Prop :=
  s.NamesMatch path i ∧ ∀ j, s.NamesMatch path j →
    (names '/' (s.mounts j).mountPath).length ≤ (names '/' (s.mounts i).mountPath).length

/-- **A path goes where its names say**: to no mount when none matches, otherwise to the longest match, with
the names that are left, no slash in front of them, in a string that fits its buffer. -/
structure Dispatched (s : VfsState) (path : List Char) (relMax : UInt32) : Prop where
  nowhere : s.vfsGetMount (some path) = none → ∀ j, ¬ s.NamesMatch path j
  somewhere : ∀ i, s.vfsGetMount (some path) = some i → s.LongestMatch path i
  resolved : ∀ i rel, s.vfsResolvePath path relMax = some (i, rel) →
    names '/' rel = (names '/' path).drop (names '/' (s.mounts i).mountPath).length ∧
      rel.head? ≠ some '/' ∧ rel.length < relMax.toNat

/-- What the code takes for a match: letters, in the slots that are counted. -/
def LettersMatch (s : VfsState) (path : List Char) (i : Nat) : Prop :=
  i < s.mountCount ∧ (s.mounts i).active = true ∧ (s.mounts i).mountPath <+: path

/-- What follows the mount path fits the buffer but for slashes, and does not begin with two. -/
def RestFits (rest : List Char) (relMax : UInt32) : Prop :=
  relMax ≠ 0 ∧ (∀ c ∈ rest.drop (relMax.toNat - 1), c = '/') ∧ ¬ ['/', '/'] <+: rest.take (relMax.toNat - 1)

/-- **Where it does**: no mount matches, by names or by letters; or a longest match is also a match of letters
in a slot that is counted, every other match of letters has fewer slashes, or as many in an earlier slot, and
what follows fits. -/
def DispatchFits (s : VfsState) (path : List Char) (relMax : UInt32) : Prop :=
  (∀ j, ¬ s.NamesMatch path j ∧ ¬ s.LettersMatch path j) ∨
  ∃ i, s.LongestMatch path i ∧ s.LettersMatch path i ∧
    (∀ j, s.LettersMatch path j → vfsPathDepth (s.mounts j).mountPath < vfsPathDepth (s.mounts i).mountPath ∨
      vfsPathDepth (s.mounts j).mountPath = vfsPathDepth (s.mounts i).mountPath ∧ j ≤ i) ∧
    RestFits (path.drop (s.mounts i).mountPath.length) relMax

section

variable {s : VfsState} {path : List Char}

/-! ## The mount -/

theorem getMount_eq_some (i : Nat) :
    s.vfsGetMount (some path) = some i ↔ s.LettersMatch path i ∧ ∀ j, s.LettersMatch path j →
      vfsPathDepth (s.mounts j).mountPath < vfsPathDepth (s.mounts i).mountPath ∨
        vfsPathDepth (s.mounts j).mountPath = vfsPathDepth (s.mounts i).mountPath ∧ j ≤ i := by
  rw [vfsGetMount_iff]
  unfold LettersMatch
  constructor
  · rintro ⟨hi, hmatch, hbest⟩
    exact ⟨⟨hi, hmatch⟩, fun j hj => hbest j hj.1 hj.2.1 hj.2.2⟩
  · rintro ⟨⟨hi, hmatch⟩, hbest⟩
    exact ⟨hi, hmatch, fun j hj hact hpre => hbest j ⟨hj, hact, hpre⟩⟩

theorem getMount_eq_none : s.vfsGetMount (some path) = none ↔ ∀ j, ¬ s.LettersMatch path j := by
  constructor
  · intro hnone j hj
    unfold vfsGetMount at hnone
    rcases lastBest_spec (fun i => (s.mounts i).active && (s.mounts i).mountPath.isPrefixOf path)
      (fun i => vfsPathDepth (s.mounts i).mountPath) s.mountCount with ⟨-, -, hall⟩ | ⟨i, hsome, -⟩
    · have hfalse := hall j hj.1
      rw [hj.2.1, Bool.true_and, ← Bool.not_eq_true, List.isPrefixOf_iff_prefix] at hfalse
      exact hfalse hj.2.2
    · dsimp only at hnone
      rw [hsome] at hnone
      cases hnone
  · intro hall
    cases hget : s.vfsGetMount (some path) with
    | none => rfl
    | some i => exact absurd ((getMount_eq_some i).mp hget).1 (hall i)

/-! ## What is left of the path -/

theorem names_relPath (rest : List Char) (relMax : UInt32) :
    names '/' (relPath rest relMax) = names '/' (rest.take (relMax - 1).toNat) := by
  unfold relPath
  dsimp only
  split
  · rename_i hhead
    obtain ⟨tail, htail⟩ := List.head?_eq_some_iff.mp hhead
    rw [htail, List.tail_cons, names_cons_sep]
  · rfl

theorem relPath_head (rest : List Char) (relMax : UInt32) :
    (relPath rest relMax).head? ≠ some '/' ↔ ¬ ['/', '/'] <+: rest.take (relMax - 1).toNat := by
  unfold relPath
  dsimp only
  rcases rest.take (relMax - 1).toNat with _ | ⟨a, _ | ⟨b, tail⟩⟩
  · simp
  · by_cases ha : a = '/' <;> simp [ha, List.prefix_cons_iff]
  · by_cases ha : a = '/'
    · rw [if_pos (by rw [ha]; rfl), ha, List.tail_cons, List.head?_cons, List.cons_prefix_cons, List.cons_prefix_cons]
      simp [eq_comm]
    · rw [if_neg (by simpa using ha), List.head?_cons, List.cons_prefix_cons]
      simp [ha, Ne.symm ha]

theorem rest_iff {m : List Char} (hletters : m <+: path) (hnames : names '/' m <+: names '/' path) (relMax : UInt32) :
    (names '/' (relPath (path.drop m.length) relMax) = (names '/' path).drop (names '/' m).length ∧
        (relPath (path.drop m.length) relMax).head? ≠ some '/' ∧
        (relPath (path.drop m.length) relMax).length < relMax.toNat) ↔ RestFits (path.drop m.length) relMax := by
  obtain ⟨rest, rfl⟩ := hletters
  rw [List.drop_left, names_go_on hnames, List.drop_left, names_relPath, relPath_head]
  unfold RestFits
  by_cases hzero : relMax = 0
  · subst hzero
    exact iff_of_false (fun h => Nat.not_lt_zero _ h.2.2) fun h => h.1 rfl
  have hpos : 1 ≤ relMax.toNat := by
    rw [Nat.one_le_iff_ne_zero]
    exact fun h => hzero (UInt32.toNat_inj.mp h)
  have hsub : (relMax - 1).toNat = relMax.toNat - 1 := UInt32.toNat_sub_of_le relMax 1 (UInt32.le_iff_toNat_le.mpr hpos)
  have hlength : (relPath rest relMax).length < relMax.toNat := by
    have htake : (rest.take (relMax - 1).toNat).length < relMax.toNat := by
      rw [List.length_take, hsub]
      omega
    unfold relPath
    dsimp only
    split
    · rw [List.length_tail]
      omega
    · exact htake
  have hcut : names '/' (rest.take (relMax.toNat - 1)) = names '/' rest ↔
      ∀ c ∈ rest.drop (relMax.toNat - 1), c = '/' := by
    rw [← names_append_eq_iff (rest.take (relMax.toNat - 1)), List.take_append_drop, eq_comm]
  rw [hsub, hcut]
  exact ⟨fun h => ⟨hzero, h.1, h.2.1⟩, fun h => ⟨h.2.1, h.2.2, hlength⟩⟩

/-! ## Where a path is dispatched right -/

theorem resolvePath_eq_some {i : Nat} {rel : List Char} {relMax : UInt32} :
    s.vfsResolvePath path relMax = some (i, rel) ↔ s.vfsGetMount (some path) = some i ∧
      relPath (path.drop (s.mounts i).mountPath.length) relMax = rel := by
  unfold vfsResolvePath
  rw [Option.map_eq_some_iff]
  constructor
  · rintro ⟨j, hj, heq⟩
    obtain ⟨rfl, rfl⟩ := Prod.mk.inj heq
    exact ⟨hj, rfl⟩
  · rintro ⟨hi, rfl⟩
    exact ⟨i, hi, rfl⟩

/-- **Where a path goes right**, in a table that any mounts and unmounts have left. -/
theorem dispatched_iff (s : VfsState) (path : List Char) (relMax : UInt32) :
    s.Dispatched path relMax ↔ s.DispatchFits path relMax := by
  constructor
  · intro h
    cases hget : s.vfsGetMount (some path) with
    | none => exact Or.inl fun j => ⟨h.nowhere hget j, getMount_eq_none.mp hget j⟩
    | some i =>
      have hlongest := h.somewhere i hget
      obtain ⟨hletters, hbest⟩ := (getMount_eq_some i).mp hget
      refine Or.inr ⟨i, hlongest, hletters, hbest, ?_⟩
      exact (rest_iff hletters.2.2 hlongest.1.2 relMax).mp
        (h.resolved i _ (resolvePath_eq_some.mpr ⟨hget, rfl⟩))
  · rintro (hnone | ⟨i, hlongest, hletters, hbest, hfits⟩)
    · have hget : s.vfsGetMount (some path) = none := getMount_eq_none.mpr fun j => (hnone j).2
      refine ⟨fun _ j => (hnone j).1, fun i hi => ?_, fun i rel hres => ?_⟩
      · rw [hget] at hi
        cases hi
      · rw [resolvePath_eq_some, hget] at hres
        cases hres.1
    · have hget := (getMount_eq_some i).mpr ⟨hletters, hbest⟩
      refine ⟨fun hnone => ?_, fun j hj => ?_, fun j rel hres => ?_⟩
      · rw [hget] at hnone
        cases hnone
      · obtain rfl : i = j := Option.some.inj (hget.symm.trans hj)
        exact hlongest
      · obtain ⟨hj, rfl⟩ := resolvePath_eq_some.mp hres
        obtain rfl : i = j := Option.some.inj (hget.symm.trans hj)
        exact (rest_iff hletters.2.2 hlongest.1.2 relMax).mpr hfits

end

/-! ## Tables and paths in order -/

/-- Every name with one slash before it, and none behind. -/
def Plain (path : List Char) : Prop := path = (names '/' path).flatMap fun name => '/' :: name

/-- **A table in order**: the active slots are counted, the mount paths are `/` or plain, and `/` comes before
the mounts of one name. -/
structure Orderly (s : VfsState) : Prop where
  counted : ∀ i, s.Active i ↔ i < s.mountCount ∧ (s.mounts i).active = true
  plain : ∀ i, s.Active i → (s.mounts i).mountPath = ['/'] ∨
    (s.mounts i).mountPath ≠ [] ∧ Plain (s.mounts i).mountPath
  rootFirst : ∀ i j, s.Active i → s.Active j → (s.mounts i).mountPath = ['/'] →
    (names '/' (s.mounts j).mountPath).length = 1 → i < j

theorem depth_of_plain {m : List Char} (h : Plain m) : vfsPathDepth m = (names '/' m).length := by
  have hcount : ∀ l : List (List Char), (∀ name ∈ l, '/' ∉ name) →
      (l.flatMap fun name => '/' :: name).count '/' = l.length := by
    intro l
    induction l with
    | nil => exact fun _ => rfl
    | cons name l ih =>
      intro hl
      rw [List.flatMap_cons, List.count_append, List.count_cons_self,
        List.count_eq_zero.mpr (hl name List.mem_cons_self), ih fun n hn => hl n (List.mem_cons_of_mem _ hn),
        List.length_cons, Nat.zero_add, Nat.add_comm]
  have hnames := hcount (names '/' m) fun name hname => (names_spec hname).2
  rwa [← h] at hnames

theorem names_ne_nil {m : List Char} (hne : m ≠ []) (h : Plain m) : names '/' m ≠ [] := by
  intro hnil
  unfold Plain at h
  rw [hnil] at h
  exact hne h

/-- A plain path, perhaps with a slash behind it. -/
def PlainPath (path : List Char) : Prop :=
  ∃ tail, (tail = [] ∨ tail = ['/']) ∧ path = ((names '/' path).flatMap fun name => '/' :: name) ++ tail

theorem PlainPath.rest {m path : List Char} (h : PlainPath path) (hm : m = ['/'] ∨ Plain m)
    (hletters : m <+: path) (hnames : names '/' m <+: names '/' path) : ¬ ['/', '/'] <+: path.drop m.length := by
  obtain ⟨tail, htail, hpath⟩ := h
  have hname : ∀ name ∈ names '/' path, ∃ a rest, name = a :: rest ∧ a ≠ '/' := fun name hmem => by
    obtain ⟨hne, hsep⟩ := names_spec hmem
    obtain ⟨a, rest, rfl⟩ := List.exists_cons_of_ne_nil hne
    exact ⟨a, rest, rfl, fun ha => hsep (ha ▸ List.mem_cons_self)⟩
  rcases hm with rfl | hm
  · rcases hl : names '/' path with _ | ⟨name, l⟩
    · rw [hl] at hpath
      rcases htail with rfl | rfl <;> rw [hpath] <;> simp
    · obtain ⟨a, rest, rfl, ha⟩ := hname name (hl ▸ List.mem_cons_self)
      rw [hl, List.flatMap_cons] at hpath
      rw [hpath]
      simp [List.cons_prefix_cons, Ne.symm ha]
  · obtain ⟨t, ht⟩ := hnames
    have hdrop : path.drop m.length = (t.flatMap fun name => '/' :: name) ++ tail := by
      rw [← ht, List.flatMap_append, ← hm, List.append_assoc] at hpath
      rw [hpath, List.drop_left]
    rw [hdrop]
    rcases t with _ | ⟨name, t⟩
    · rcases htail with rfl | rfl <;> simp
    · obtain ⟨a, rest, rfl, ha⟩ := hname name (by rw [← ht]; simp)
      simp [List.cons_prefix_cons, Ne.symm ha]

theorem PlainPath.letters {m path : List Char} (h : PlainPath path) (hne : path ≠ [])
    (hm : m = ['/'] ∨ Plain m) (hnames : names '/' m <+: names '/' path) : m <+: path := by
  obtain ⟨tail, htail, hpath⟩ := h
  rcases hm with rfl | hm
  · rcases hl : names '/' path with _ | ⟨name, l⟩
    · rw [hl] at hpath
      rcases htail with rfl | rfl
      · exact absurd hpath hne
      · rw [hpath]
        exact List.prefix_refl _
    · rw [hl, List.flatMap_cons] at hpath
      rw [hpath]
      simp [List.cons_prefix_cons]
  · obtain ⟨t, ht⟩ := hnames
    rw [← ht, List.flatMap_append, ← hm, List.append_assoc] at hpath
    rw [hpath]
    exact List.prefix_append _ _

/-- **In a table in order** a plain path goes right when no mount path ends in the middle of one of its names. -/
theorem Orderly.fits {s : VfsState} (h : s.Orderly) {path : List Char} {relMax : UInt32} (hpath : PlainPath path)
    (hne : path ≠ []) (hfits : path.length < relMax.toNat) (hcount : s.mountCount ≤ brainvfsMaxMounts)
    (hwhole : ∀ i, s.Active i → (s.mounts i).mountPath <+: path →
      names '/' (s.mounts i).mountPath <+: names '/' path) : s.DispatchFits path relMax := by
  have hform : ∀ i, s.Active i → (s.mounts i).mountPath = ['/'] ∨ Plain (s.mounts i).mountPath := fun i hi =>
    (h.plain i hi).imp_right And.right
  have hactive : ∀ i, s.LettersMatch path i → s.Active i := fun i hi => ⟨by have := hi.1; omega, hi.2.1⟩
  have hiff : ∀ i, s.NamesMatch path i ↔ s.LettersMatch path i := fun i =>
    ⟨fun hi => ⟨((h.counted i).mp hi.1).1, hi.1.2, hpath.letters hne (hform i hi.1) hi.2⟩,
      fun hi => ⟨hactive i hi, hwhole i (hactive i hi) hi.2.2⟩⟩
  cases hget : s.vfsGetMount (some path) with
  | none => exact Or.inl fun j => ⟨fun hj => getMount_eq_none.mp hget j ((hiff j).mp hj), getMount_eq_none.mp hget j⟩
  | some i =>
    obtain ⟨hletters, hbest⟩ := (getMount_eq_some i).mp hget
    have hi := (hiff i).mpr hletters
    refine Or.inr ⟨i, ⟨hi, fun j hj => ?_⟩, hletters, hbest, ?_, ?_, ?_⟩
    · have hdepth := hbest j ((hiff j).mp hj)
      rcases h.plain j hj.1 with hroot | ⟨hjne, hplain⟩
      · rw [hroot]
        exact Nat.zero_le _
      rw [depth_of_plain hplain] at hdepth
      rcases h.plain i hi.1 with hroot | ⟨-, hplain'⟩
      -- the root has as many slashes as a mount of one name, but comes before it
      · have hpos := List.length_pos_iff.mpr (names_ne_nil hjne hplain)
        have hone : vfsPathDepth (s.mounts i).mountPath = 1 := by rw [hroot]; rfl
        rw [hone] at hdepth
        have := h.rootFirst i j hi.1 hj.1 hroot (by omega)
        omega
      · rw [depth_of_plain hplain'] at hdepth
        omega
    · rintro rfl
      exact Nat.not_lt_zero _ hfits
    · intro c hc
      have hlong : (path.drop (s.mounts i).mountPath.length).length ≤ relMax.toNat - 1 := by
        rw [List.length_drop]
        omega
      rw [List.drop_eq_nil_of_le hlong] at hc
      exact absurd hc List.not_mem_nil
    · exact fun hpre => hpath.rest (hform i hi.1) hletters.2.2 hi.2 (hpre.trans (List.take_prefix _ _))

/-- A mount at a path. -/
def mountAt (path : String) : MountCall :=
  .mount { mountPath := some path.toList, fsName := some "brainfs".toList, drive := 0, fatWidth := 16, ops := none }

/-- `/boot` is taken for a mount of `/bootx/a`. -/
theorem dispatch_mid_name : ¬ ([mountAt "/", mountAt "/boot"].foldl next vfsInit).Dispatched "/bootx/a".toList 512 := by
  intro h
  have hlongest := h.somewhere 1 (by decide)
  exact absurd hlongest.1.2 (by decide)

end VfsState

end Chicago95.Stage2
