/-
# Chicago95.Kernel.VfsResolve — `vfs_resolve` against the names between the slashes.

What a path means does not depend on how it is read: its names, the empty ones left out, are followed from the root, `.`
staying, `..` going to the parent, and any other name going to the child of a directory that has it (`Walks`).
-/
import Chicago95.Kernel.VfsNames
import Mathlib.Data.List.Induction

namespace Chicago95.Kernel.Vfs

open Chicago95.Lib.Paths

variable {v : Vfs}

/-! ## What a path means -/

/-- Where one name leads. -/
def Leads (v : Vfs) (n : Nat) (name : Name) (m : Nat) : Prop :=
  if name = ['.'] then m = n
  else if name = ['.', '.'] then m = (v.nodes n).parent.getD n
  else (v.nodes n).type = .dir ∧ m ∈ (v.nodes n).children ∧ (v.nodes m).name = name

/-- Where names lead, one after the other. -/
inductive Walks (v : Vfs) : Nat → List Name → Nat → Prop
  | nil (n : Nat) : Walks v n [] n
  | cons {n m k : Nat} {name : Name} {rest : List Name} : v.Leads n name m → Walks v m rest k → Walks v n (name :: rest) k

/-- A tree of directories whose names are shorter than 64 characters. -/
structure DirTree (v : Vfs) : Prop where
  names : v.Names
  short : ∀ n, (v.nodes n).name.length < vfsNameLen

/-- `vfs_resolve` returns the node that the names of the path lead to, and `NULL` if they lead nowhere. -/
def ResolveLaw (path : Name) : Prop :=
  ∀ v : Vfs, v.DirTree → ∀ n, v.vfsResolve path = some n ↔ v.Walks v.root (names '/' path) n

/-! ## Where the names fit -/

theorem follow_iff (h : v.DirTree) {n m : Nat} (hn : v.Reach n) {name : Name} (hdot : name ≠ ['.']) :
    v.follow n name = some m ↔ v.Leads n name m := by
  have hlive := h.names.linked.reach_live hn
  unfold follow Leads
  rw [if_neg hdot]
  split
  · rw [Option.some.injEq, eq_comm]
  · constructor
    · exact vfsFindChild_some
    · rintro ⟨hdir, hmem, rfl⟩
      exact h.names.distinct.vfsFindChild hlive hdir hmem

theorem walk_iff (h : v.DirTree) {path : List Name} : ∀ {n k : Nat}, v.Reach n →
    (v.walk n (path.filter fun name => decide (name ≠ ['.'])) = some k ↔ v.Walks n path k) := by
  induction path with
  | nil =>
    intro n k _
    constructor
    · intro hk
      obtain rfl := Option.some.inj hk
      exact .nil n
    · rintro ⟨⟩
      rfl
  | cons name path ih =>
    intro n k hn
    by_cases hdot : name = ['.']
    · rw [List.filter_cons_of_neg (by simp [hdot]), ih hn]
      constructor
      · exact .cons (by rw [Leads, if_pos hdot])
      · rintro (_ | ⟨hlead, hrest⟩)
        rw [Leads, if_pos hdot] at hlead
        exact hlead ▸ hrest
    · rw [List.filter_cons_of_pos (by simpa using hdot), walk]
      constructor
      · intro hk
        rcases Option.eq_none_or_eq_some (v.follow n name) with hf | ⟨m, hf⟩
        · rw [hf] at hk
          cases hk
        · rw [hf] at hk
          exact .cons ((follow_iff h hn hdot).mp hf) ((ih (h.names.linked.reach_follow hn hf)).mp hk)
      · rintro (_ | ⟨hlead, hrest⟩)
        have hf := (follow_iff h hn hdot).mpr hlead
        rw [hf]
        exact (ih (h.names.linked.reach_follow hn hf)).mpr hrest

theorem resolveLaw_of_fits {path : Name} (hfit : ∀ name ∈ names '/' path, name.length < vfsNameLen) :
    ResolveLaw path := by
  intro v h n
  have hcomp : components '/' (vfsNameLen - 1) path = names '/' path :=
    components_eq_names (by decide) path fun name hname => Nat.le_sub_one_of_lt (hfit name hname)
  rw [vfsResolve_eq, steps, hcomp]
  exact walk_iff h .root

/-! ## A tree for names -/

/-- A tree without files. -/
structure AllDirs (v : Vfs) : Prop where
  tree : v.DirTree
  dirs : ∀ n, v.Live n → (v.nodes n).type = .dir

theorem allDirs_vfsInit : vfsInit.AllDirs := by
  have hlive : ∀ n, vfsInit.Live n → n = 1 := fun n hn => by
    have hlt : n < 2 := hn.2.1
    have hpos := hn.1
    omega
  have hnode : ∀ n, (vfsInit.nodes n).children = [] := fun n => by
    show (Function.update (fun _ => ({} : VfsNode)) 1 _ n).children = []
    rw [Function.update_apply]
    split <;> rfl
  refine ⟨⟨⟨⟨by decide, rfl, ?_, ?_, ?_⟩, ?_⟩, ?_⟩, ?_⟩
  · intro d c _ hc
    rw [hnode] at hc
    exact absurd hc List.not_mem_nil
  · intro d _
    rw [hnode]
    exact List.nodup_nil
  · intro n hn
    cases hn
  · intro d _
    rw [hnode]
    exact List.nodup_nil
  · intro n
    show (Function.update (fun _ => ({} : VfsNode)) 1 _ n).name.length < _
    rw [Function.update_apply]
    split <;> decide
  · intro n hn
    rw [hlive n hn]
    rfl

theorem AllDirs.attachNew (h : v.AllDirs) {d : Nat} (hd : v.Live d) {name : Name} (hshort : name.length < vfsNameLen)
    (hnew : ∀ c ∈ (v.nodes d).children, (v.nodes c).name ≠ name) (data : Nat) :
    ((v.grown { name := name, type := .dir } data).link d v.nextNode).AllDirs where
  tree :=
    { names :=
        { linked := h.tree.names.linked.attachNew hd rfl data
          distinct := h.tree.names.linked.distinct_attachNew h.tree.names.distinct hd rfl data hnew }
      short := fun n => by
        rw [link_name]
        by_cases hn : n = v.nextNode
        · rw [hn, grown_node_new]
          exact hshort
        · rw [grown_node_of_ne v _ data hn]
          exact h.tree.short n }
  dirs := fun n hn => by
    rw [link_node]
    rcases (h.tree.names.linked.live_grown { name := name, type := .dir } data n).mp hn with hold | rfl
    · rw [grown_node_of_live hold]
      exact h.dirs n hold
    · rw [grown_node_new]

theorem exists_tree (path : List Name) (hshort : ∀ name ∈ path, name.length < vfsNameLen) :
    ∃ v : Vfs, v.AllDirs ∧ ∃ n, v.walk v.root path = some n := by
  induction path using List.reverseRecOn with
  | nil => exact ⟨vfsInit, allDirs_vfsInit, _, rfl⟩
  | append_singleton path name ih =>
    obtain ⟨v, h, n, hn⟩ := ih fun m hm => hshort m (List.mem_append_left _ hm)
    have hlinked := h.tree.names.linked
    have hlive := hlinked.reach_live (hlinked.reach_walk .root hn)
    rcases Option.eq_none_or_eq_some (v.follow n name) with hnone | ⟨m, hm⟩
    · -- the name is missing: a directory is made for it
      have hdots : name ≠ ['.', '.'] := fun hdots => by
        rw [follow, if_pos hdots] at hnone
        cases hnone
      have hdir := h.dirs n hlive
      have hnew : ∀ c ∈ (v.nodes n).children, (v.nodes c).name ≠ name := fun c hc heq => by
        rw [follow, if_neg hdots, ← heq, h.tree.names.distinct.vfsFindChild hlive hdir hc] at hnone
        cases hnone
      have hgrown := h.attachNew hlive (hshort name (by simp)) hnew v.nextData
      have hw := hgrown.tree.names.distinct
      refine ⟨_, hgrown, v.nextNode, ?_⟩
      have hwalk := hlinked.walk_attachNew hlive hw .root hn
      have hfollow := hlinked.follow_attachNew hlive hw hdir hdots
      rw [walk_append, link_root]
      show (((v.grown _ _).link n v.nextNode).walk v.root path).bind _ = _
      rw [hwalk, Option.bind_some, hfollow]
    · exact ⟨v, h, m, by rw [walk_append, hn, Option.bind_some, hm]⟩

/-! ## And only there -/

theorem length_components_lt (path name : Name) (h : name ∈ steps path) : name.length < vfsNameLen := by
  have hmem := (List.mem_filter.mp h).1
  unfold components at hmem
  have hsplit : ∀ (fuel : Nat) (p : Name), name ∈ split '/' (vfsNameLen - 1) fuel p → name.length < vfsNameLen := by
    intro fuel
    induction fuel with
    | zero => exact fun _ hp => absurd hp List.not_mem_nil
    | succ fuel ih =>
      intro p hp
      rw [split] at hp
      split at hp
      · exact absurd hp List.not_mem_nil
      · rcases List.mem_cons.mp hp with rfl | hp
        · have hle : (component '/' (vfsNameLen - 1) p).length ≤ vfsNameLen - 1 := List.length_take_le _ _
          have h64 : vfsNameLen = 64 := rfl
          omega
        · exact ih _ hp
  exact hsplit _ _ hmem

theorem Walks.length_lt (h : v.DirTree) {path : List Name} {n k : Nat} (hw : v.Walks n path k) :
    ∀ name ∈ path, name.length < vfsNameLen := by
  induction hw with
  | nil => exact fun _ hname => absurd hname List.not_mem_nil
  | @cons n m k name rest hlead _ ih =>
    intro name' hname'
    rcases List.mem_cons.mp hname' with rfl | hrest
    · unfold Leads at hlead
      split at hlead
      · next hdot =>
          rw [hdot]
          decide
      · split at hlead
        · next hdots =>
            rw [hdots]
            decide
        · rw [← hlead.2.2]
          exact h.short m
    · exact ih name' hrest

/-- **When a path resolves to what its names mean**, in every tree: exactly if no name is longer than 63 characters. -/
theorem resolve_iff (path : Name) : ResolveLaw path ↔ ∀ name ∈ names '/' path, name.length < vfsNameLen := by
  refine ⟨fun h => ?_, resolveLaw_of_fits⟩
  obtain ⟨v, hv, n, hn⟩ := exists_tree (steps path) (length_components_lt path)
  rw [← vfsResolve_eq] at hn
  exact Walks.length_lt hv.tree ((h v hv.tree n).mp hn)

/-- A directory named by 63 letters, and in it one named by a single letter. -/
def twoDirs : Vfs :=
  let v := (vfsInit.grown { name := List.replicate 63 'a', type := .dir } 1).link 1 2
  (v.grown { name := ['a'], type := .dir } 1).link 2 3

theorem dirTree_twoDirs : twoDirs.DirTree := by
  have hfirst : ((vfsInit.grown { name := List.replicate 63 'a', type := .dir } 1).link 1 2).AllDirs :=
    allDirs_vfsInit.attachNew (by decide) (by decide) (fun c hc => absurd hc List.not_mem_nil) 1
  have hchildren : (((vfsInit.grown { name := List.replicate 63 'a', type := .dir } 1).link 1 2).nodes 2).children = [] := by
    decide
  have hsecond : twoDirs.AllDirs := hfirst.attachNew (by decide) (by decide) (fun c hc => ?_) 1
  · exact hsecond.tree
  · exact absurd (hchildren ▸ hc) List.not_mem_nil

/-- ⚠ A name of 64 letters leads to the inner one. -/
theorem sixtyFour_letters :
    twoDirs.DirTree ∧ twoDirs.vfsResolve (List.replicate 64 'a') = some 3 ∧ ¬ ResolveLaw (List.replicate 64 'a') := by
  have hresolve : twoDirs.vfsResolve (List.replicate 64 'a') = some 3 := by decide
  refine ⟨dirTree_twoDirs, hresolve, fun h => ?_⟩
  have hwalks := (h twoDirs dirTree_twoDirs 3).mp hresolve
  exact absurd (hwalks.length_lt dirTree_twoDirs (List.replicate 64 'a') (by decide)) (by decide)

end Chicago95.Kernel.Vfs
