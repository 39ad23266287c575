/-
# Chicago95.Kernel.VfsTree — the links of the node tree.

`Linked` is what keeps parent pointers and child lists in step: the children of a live directory are live,
point back to it and stand in its list once. Creating, attaching and unlinking keep it, and a path never
leads out of the live nodes. Nothing here asks for different names.
-/
import Chicago95.Kernel.Vfs
import Mathlib.Data.List.Nodup

namespace Chicago95.Kernel

open Chicago95.Lib.Paths

namespace Vfs

variable {v : Vfs}

/-- Parent pointers and child lists agree on the live nodes. -/
structure Linked (v : Vfs) : Prop where
  root : v.Live v.root
  rootParent : (v.nodes v.root).parent = none
  child : ∀ d c, v.Live d → c ∈ (v.nodes d).children → v.Live c ∧ (v.nodes c).parent = some d
  nodup : ∀ d, v.Live d → (v.nodes d).children.Nodup
  freed : ∀ n, v.freedNode n = true → n < v.nextNode

/-! ## Where a path leads -/

/-- The nodes below the root. -/
inductive Reach (v : Vfs) : Nat → Prop
  | root : Reach v v.root
  | child {d c : Nat} : Reach v d → c ∈ (v.nodes d).children → Reach v c

theorem Linked.reach_live (h : v.Linked) {n : Nat} (hn : v.Reach n) : v.Live n := by
  induction hn with
  | root => exact h.root
  | child _ hc ih => exact (h.child _ _ ih hc).1

theorem vfsFindChild_some {d c : Nat} {name : Name} (h : v.vfsFindChild d name = some c) :
    (v.nodes d).type = .dir ∧ c ∈ (v.nodes d).children ∧ (v.nodes c).name = name := by
  unfold vfsFindChild at h
  split at h
  · next hdir =>
      exact ⟨hdir, List.mem_of_find?_eq_some h, by simpa using List.find?_some h⟩
  · cases h

theorem Linked.reach_follow (h : v.Linked) {n m : Nat} {name : Name} (hn : v.Reach n)
    (hm : v.follow n name = some m) : v.Reach m := by
  unfold follow at hm
  split at hm
  · -- `..`: the parent of a node that was reached as a child is the directory it was reached in
    obtain rfl : (v.nodes n).parent.getD n = m := by simpa using hm
    cases hn with
    | root =>
      rw [h.rootParent]
      exact .root
    | child hd hc =>
      rw [(h.child _ _ (h.reach_live hd) hc).2]
      exact hd
  · exact .child hn (vfsFindChild_some hm).2.1

theorem Linked.reach_walk (h : v.Linked) : ∀ {names : List Name} {n m : Nat}, v.Reach n →
    v.walk n names = some m → v.Reach m := by
  intro names
  induction names with
  | nil =>
    intro n m hn hm
    obtain rfl : n = m := by simpa [walk] using hm
    exact hn
  | cons name names ih =>
    intro n m hn hm
    rw [walk] at hm
    rcases Option.eq_none_or_eq_some (v.follow n name) with hf | ⟨next, hf⟩
    · rw [hf] at hm
      cases hm
    · rw [hf] at hm
      exact ih (h.reach_follow hn hf) hm

theorem Linked.resolve_reach (h : v.Linked) {path : Name} {n : Nat} (hn : v.vfsResolve path = some n) : v.Reach n := by
  rw [vfsResolve_eq] at hn
  exact h.reach_walk .root hn

theorem Linked.resolve_live (h : v.Linked) {path : Name} {n : Nat}
    (hn : v.vfsResolve path = some n) : v.Live n := h.reach_live (h.resolve_reach hn)

theorem walk_of_follow {w : Vfs} {P : Nat → Prop}
    (hfollow : ∀ n name m, P n → v.follow n name = some m → w.follow n name = some m ∧ P m) :
    ∀ {names : List Name} {n m : Nat}, P n → v.walk n names = some m → w.walk n names = some m := by
  intro names
  induction names with
  | nil => intro n m _ hm; exact hm
  | cons name names ih =>
    intro n m hn hm
    rw [walk] at hm
    rcases Option.eq_none_or_eq_some (v.follow n name) with hf | ⟨next, hf⟩
    · rw [hf] at hm
      cases hm
    · rw [hf] at hm
      obtain ⟨hw, hnext⟩ := hfollow n name next hn hf
      rw [walk, hw]
      exact ih hnext hm

/-! ## A new node -/

theorem Linked.next_pos (h : v.Linked) : 0 < v.nextNode := by
  have hroot := h.root
  have hlt := hroot.2.1
  omega

theorem Linked.live_grown (h : v.Linked) (node : VfsNode) (data n : Nat) :
    (v.grown node data).Live n ↔ v.Live n ∨ n = v.nextNode := by
  have hpos := h.next_pos
  have hnew : v.freedNode v.nextNode = false := by
    by_contra hf
    have hlt := h.freed v.nextNode (by simpa using hf)
    omega
  unfold Live grown
  dsimp only
  constructor
  · rintro ⟨h0, hlt, hf⟩
    by_cases hn : n = v.nextNode
    · exact Or.inr hn
    · exact Or.inl ⟨h0, by omega, hf⟩
  · rintro (⟨h0, hlt, hf⟩ | rfl)
    · exact ⟨h0, by omega, hf⟩
    · exact ⟨hpos, by omega, hnew⟩

theorem grown_node_new (v : Vfs) (node : VfsNode) (data : Nat) :
    (v.grown node data).nodes v.nextNode = node := Function.update_self ..

theorem grown_node_of_ne (v : Vfs) (node : VfsNode) (data : Nat) {n : Nat} (hn : n ≠ v.nextNode) :
    (v.grown node data).nodes n = v.nodes n := Function.update_of_ne hn ..

theorem grown_node_of_live {node : VfsNode} {data n : Nat} (hn : v.Live n) : (v.grown node data).nodes n = v.nodes n :=
  v.grown_node_of_ne node data (Nat.ne_of_lt hn.2.1)

theorem Linked.next_not_child (h : v.Linked) {d : Nat} (hd : v.Live d) :
    v.nextNode ∉ (v.nodes d).children := fun hmem =>
  absurd (h.child d _ hd hmem).1.2.1 (Nat.lt_irrefl _)

theorem Linked.grown (h : v.Linked) {node : VfsNode} (hnode : node.children = []) (data : Nat) :
    (v.grown node data).Linked where
  root := (h.live_grown node data _).mpr (Or.inl h.root)
  rootParent := by
    show ((v.grown node data).nodes v.root).parent = none
    rw [grown_node_of_live h.root]
    exact h.rootParent
  child := fun d c hd hc => by
    rcases (h.live_grown node data d).mp hd with hold | rfl
    · rw [grown_node_of_live hold] at hc
      obtain ⟨hlive, hparent⟩ := h.child d c hold hc
      rw [grown_node_of_live hlive]
      exact ⟨(h.live_grown node data c).mpr (Or.inl hlive), hparent⟩
    · rw [grown_node_new, hnode] at hc
      exact absurd hc List.not_mem_nil
  nodup := fun d hd => by
    rcases (h.live_grown node data d).mp hd with hold | rfl
    · rw [grown_node_of_live hold]
      exact h.nodup d hold
    · rw [grown_node_new, hnode]
      exact List.nodup_nil
  freed := fun n hn => Nat.lt_succ_of_lt (h.freed n hn)

/-! ## Attaching -/

@[simp] theorem link_root (v : Vfs) (d c : Nat) : (v.link d c).root = v.root := rfl
@[simp] theorem link_nextNode (v : Vfs) (d c : Nat) : (v.link d c).nextNode = v.nextNode := rfl
@[simp] theorem link_freedNode (v : Vfs) (d c : Nat) : (v.link d c).freedNode = v.freedNode := rfl

theorem link_node (v : Vfs) (d c n : Nat) : (v.link d c).nodes n =
    { v.nodes n with
      parent := if n = c then some d else (v.nodes n).parent
      children := if n = d then (v.nodes d).children ++ [c] else (v.nodes n).children } := by
  unfold link set
  simp only [Function.update_apply]
  by_cases hd : n = d
  · subst hd
    by_cases hc : n = c
    · simp only [hc, if_true]
    · simp only [hc, if_true, if_false]
  · by_cases hc : n = c
    · subst hc
      simp only [hd, if_true, if_false]
    · simp only [hd, hc, if_false]

/-- `c` is in no child list of a live directory. -/
def Loose (v : Vfs) (c : Nat) : Prop := ∀ d, v.Live d → c ∉ (v.nodes d).children

theorem Linked.link (h : v.Linked) {d c : Nat} (hd : v.Live d) (hc : v.Live c) (hroot : c ≠ v.root)
    (hloose : v.Loose c) : (v.link d c).Linked where
  root := h.root
  rootParent := by
    rw [link_root, link_node, if_neg hroot.symm]
    exact h.rootParent
  child := fun e n he hn => by
    simp only [link_node] at hn ⊢
    have hold : n ∈ (v.nodes e).children → v.Live n ∧
        (if n = c then some d else (v.nodes n).parent) = some e := fun hmem => by
      obtain ⟨hlive, hparent⟩ := h.child e n he hmem
      rw [if_neg fun heq : n = c => hloose e he (heq ▸ hmem)]
      exact ⟨hlive, hparent⟩
    by_cases hed : e = d
    · subst hed
      rw [if_pos rfl] at hn
      rcases List.mem_append.mp hn with hmem | hmem
      · exact hold hmem
      · obtain rfl := List.mem_singleton.mp hmem
        rw [if_pos rfl]
        exact ⟨hc, rfl⟩
    · rw [if_neg hed] at hn
      exact hold hn
  nodup := fun e he => by
    simp only [link_node]
    by_cases hed : e = d
    · subst hed
      rw [if_pos rfl]
      refine List.nodup_append.mpr ⟨h.nodup e he, List.nodup_singleton c, ?_⟩
      intro a ha b hb heq
      obtain rfl := List.mem_singleton.mp hb
      exact hloose e he (heq ▸ ha)
    · rw [if_neg hed]
      exact h.nodup e he
  freed := h.freed

theorem Linked.attachNew (h : v.Linked) {d : Nat} (hd : v.Live d) {node : VfsNode} (hnode : node.children = [])
    (data : Nat) : ((v.grown node data).link d v.nextNode).Linked := by
  have hroot : v.nextNode ≠ v.root := fun heq => absurd h.root.2.1 (by omega)
  refine (h.grown hnode data).link ((h.live_grown _ _ _).mpr (Or.inl hd))
    ((h.live_grown _ _ _).mpr (Or.inr rfl)) hroot ?_
  intro e he hmem
  rcases (h.live_grown _ _ _).mp he with hold | rfl
  · rw [grown_node_of_live hold] at hmem
    exact h.next_not_child hold hmem
  · rw [grown_node_new, hnode] at hmem
    exact absurd hmem List.not_mem_nil

theorem Linked.created (h : v.Linked) {d : Nat} (hd : v.Live d) {name : Name} {type : VfsType}
    {g : Grant} {ok : Bool} {w : Vfs} (hw : v.Created d name type g ok w) : w.Linked := by
  cases hw with
  | refused => exact h
  | leaked hnew => exact h.grown hnew.children _
  | attached hnew _ _ => exact h.attachNew hd hnew.children _

/-! ## Unlinking -/

@[simp] theorem freeNode_nodes (v : Vfs) (c : Nat) : (v.freeNode c).nodes = v.nodes := by
  unfold freeNode
  split <;> rfl

@[simp] theorem freeNode_root (v : Vfs) (c : Nat) : (v.freeNode c).root = v.root := by
  unfold freeNode
  split <;> rfl

@[simp] theorem freeNode_nextNode (v : Vfs) (c : Nat) : (v.freeNode c).nextNode = v.nextNode := by
  unfold freeNode
  split <;> rfl

@[simp] theorem freeNode_freedNode (v : Vfs) (c : Nat) :
    (v.freeNode c).freedNode = Function.update v.freedNode c true := by
  unfold freeNode
  split <;> rfl

theorem live_removeChild (v : Vfs) (d : Nat) (name : Name) (c n : Nat) :
    (v.removeChild d name c).Live n ↔ v.Live n ∧ n ≠ c := by
  unfold Live removeChild set
  simp only [freeNode_nextNode, freeNode_freedNode, Function.update_apply]
  by_cases hn : n = c
  · simp [hn]
  · simp [hn]

theorem removeChild_node (v : Vfs) (d : Nat) (name : Name) (c n : Nat) :
    (v.removeChild d name c).nodes n =
      { v.nodes n with
        children := if n = d then
            (v.nodes d).children.eraseP fun m => decide ((v.nodes m).name = name)
          else (v.nodes n).children } := by
  unfold removeChild set
  simp only [freeNode_nodes, Function.update_apply]
  by_cases hn : n = d
  · subst hn
    simp only [if_true]
  · simp only [hn, if_false]

theorem mem_eraseP_of_find? {l : List Nat} {p : Nat → Bool} {c : Nat} (hf : l.find? p = some c)
    (hl : l.Nodup) (n : Nat) : n ∈ l.eraseP p ↔ n ∈ l ∧ n ≠ c := by
  obtain ⟨hp, pre, post, rfl, hpre⟩ := List.find?_eq_some_iff_append.mp hf
  have herase : (pre ++ c :: post).eraseP p = pre ++ post := by
    rw [List.eraseP_append_right _ (fun b hb => by simpa using hpre b hb), List.eraseP_cons_of_pos hp]
  rw [herase]
  have hnodup := List.nodup_middle.mp hl
  obtain ⟨hc, _⟩ := List.nodup_cons.mp hnodup
  simp only [List.mem_append, List.mem_cons]
  constructor
  · intro hn
    exact ⟨by tauto, fun heq => hc (heq ▸ List.mem_append.mpr hn)⟩
  · rintro ⟨hn, hne⟩
    tauto

theorem Linked.removeChild (h : v.Linked) {d : Nat} {name : Name} {c : Nat} (hd : v.Live d)
    (hf : ((v.nodes d).children.find? fun m => decide ((v.nodes m).name = name)) = some c) :
    (v.removeChild d name c).Linked := by
  have hmem : c ∈ (v.nodes d).children := List.mem_of_find?_eq_some hf
  obtain ⟨hlive, hparent⟩ := h.child d c hd hmem
  have hroot : v.root ≠ c := fun heq => by
    have hnone := h.rootParent
    rw [heq, hparent] at hnone
    cases hnone
  -- no other directory has the freed child, and its own has it no longer
  have hchildren : ∀ e n, v.Live e → n ∈ ((v.removeChild d name c).nodes e).children →
      n ∈ (v.nodes e).children ∧ n ≠ c := by
    intro e n he hn
    rw [removeChild_node] at hn
    dsimp only at hn
    by_cases hed : e = d
    · subst hed
      rw [if_pos rfl] at hn
      exact (mem_eraseP_of_find? hf (h.nodup e he) n).mp hn
    · rw [if_neg hed] at hn
      refine ⟨hn, fun heq => hed ?_⟩
      have hother := (h.child e n he hn).2
      rw [heq, hparent] at hother
      exact (Option.some.inj hother).symm
  refine ⟨?_, ?_, fun e n he hn => ?_, fun e he => ?_, fun n hn => ?_⟩
  · have hr : (v.removeChild d name c).root = v.root := freeNode_root v c
    rw [hr]
    exact (live_removeChild v d name c _).mpr ⟨h.root, hroot⟩
  · have hr : (v.removeChild d name c).root = v.root := freeNode_root v c
    rw [hr, removeChild_node]
    exact h.rootParent
  · obtain ⟨he, _⟩ := (live_removeChild v d name c e).mp he
    obtain ⟨hn, hne⟩ := hchildren e n he hn
    obtain ⟨hnlive, hnparent⟩ := h.child e n he hn
    rw [removeChild_node]
    exact ⟨(live_removeChild v d name c n).mpr ⟨hnlive, hne⟩, hnparent⟩
  · obtain ⟨he, _⟩ := (live_removeChild v d name c e).mp he
    rw [removeChild_node]
    dsimp only
    split
    · exact (h.nodup d hd).sublist List.eraseP_sublist
    · exact h.nodup e he
  · have hfreed : (v.removeChild d name c).freedNode = Function.update v.freedNode c true :=
      freeNode_freedNode v c
    have hnext : (v.removeChild d name c).nextNode = v.nextNode := freeNode_nextNode v c
    rw [hfreed, Function.update_apply] at hn
    rw [hnext]
    split at hn
    · next heq => exact heq ▸ hlive.2.1
    · exact h.freed n hn

theorem Linked.unlinks_live (h : v.Linked) {path : Name} {d : Nat} {name : Name} {c : Nat}
    (hu : v.Unlinks path d name c) : v.Live d := by
  obtain ⟨node, hnode, hparent, _⟩ := hu.resolved
  cases h.resolve_reach hnode with
  | root =>
    rw [h.rootParent] at hparent
    cases hparent
  | child hd hc =>
    rw [(h.child _ _ (h.reach_live hd) hc).2] at hparent
    obtain rfl := Option.some.inj hparent
    exact h.reach_live hd

/-! ## The tree of the kernel -/

theorem linked_of_forall_lt (hfreed : ∀ n, v.freedNode n = false)
    (h : v.Live v.root ∧ (v.nodes v.root).parent = none ∧
      ∀ d < v.nextNode, (v.nodes d).children.Nodup ∧
        ∀ c ∈ (v.nodes d).children, v.Live c ∧ (v.nodes c).parent = some d) : v.Linked where
  root := h.1
  rootParent := h.2.1
  child := fun d c hd hc => (h.2.2 d hd.2.1).2 c hc
  nodup := fun d hd => (h.2.2 d hd.2.1).1
  freed := fun n hn => absurd hn (by rw [hfreed]; decide)

theorem boot_freedNode (dev proc tmp : Bool) (n : Nat) : (boot dev proc tmp).freedNode n = false := by
  cases dev <;> cases proc <;> cases tmp <;> rfl

theorem linked_boot (dev proc tmp : Bool) : (boot dev proc tmp).Linked := by
  refine linked_of_forall_lt (boot_freedNode dev proc tmp) ?_
  revert dev proc tmp
  decide +kernel

end Vfs

end Chicago95.Kernel
