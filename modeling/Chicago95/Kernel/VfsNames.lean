/-
# Chicago95.Kernel.VfsNames — the name space of the node tree over whole histories.

A history of `vfs_open`, `vfs_mkdir`, `vfs_unlink` and `vfs_mount` starts from the tree of the `init`
functions; in between a driver may make the top node of a file system it is going to mount. A step is
sound when afterwards every directory's children have different names and point back to it, and when the
path of a call that reported success resolves to the node it made or mounted.
-/
import Chicago95.Kernel.VfsTree
import Chicago95.Lib.Transition

namespace Chicago95.Kernel

open Chicago95.Lib.Transition Chicago95.Lib.Paths

namespace Vfs

variable {v w : Vfs}

/-! ## Different names -/

/-- The children of each live directory have different names. -/
def Distinct (v : Vfs) : Prop :=
  ∀ d, v.Live d → ((v.nodes d).children.map fun c => (v.nodes c).name).Nodup

theorem Distinct.eq_of_name (h : v.Distinct) {d a b : Nat} (hd : v.Live d)
    (ha : a ∈ (v.nodes d).children) (hb : b ∈ (v.nodes d).children)
    (hname : (v.nodes a).name = (v.nodes b).name) : a = b :=
  List.inj_on_of_nodup_map (h d hd) ha hb hname

theorem Distinct.vfsFindChild (h : v.Distinct) {d c : Nat} (hd : v.Live d)
    (hdir : (v.nodes d).type = .dir) (hc : c ∈ (v.nodes d).children) : v.vfsFindChild d (v.nodes c).name = some c := by
  rw [Vfs.vfsFindChild, if_pos hdir]
  have hsome : ((v.nodes d).children.find? fun m =>
      decide ((v.nodes m).name = (v.nodes c).name)).isSome :=
    List.find?_isSome.mpr ⟨c, hc, by simp⟩
  obtain ⟨m, hm⟩ := Option.isSome_iff_exists.mp hsome
  have hname : (v.nodes m).name = (v.nodes c).name := by simpa using List.find?_some hm
  rw [hm, h.eq_of_name hd (List.mem_of_find?_eq_some hm) hc hname]

theorem Distinct.follow (hw : w.Distinct) {n m : Nat} {name : Name} (hn : w.Live n)
    (htype : (w.nodes n).type = (v.nodes n).type) (hparent : (w.nodes n).parent = (v.nodes n).parent)
    (hchild : ∀ c ∈ (v.nodes n).children, c ∈ (w.nodes n).children ∧ (w.nodes c).name = (v.nodes c).name)
    (hm : v.follow n name = some m) : w.follow n name = some m := by
  unfold Vfs.follow at hm ⊢
  split at hm
  · next hdots => rw [if_pos hdots, hparent, hm]
  · next hdots =>
      rw [if_neg hdots]
      obtain ⟨hdir, hmem, hname⟩ := vfsFindChild_some hm
      obtain ⟨hmem', hname'⟩ := hchild m hmem
      have hfind := hw.vfsFindChild hn (htype.trans hdir) hmem'
      rwa [hname', hname] at hfind

/-! ## Creating -/

theorem Linked.distinct_grown (h : v.Linked) (hv : v.Distinct) {node : VfsNode}
    (hnode : node.children = []) (data : Nat) : (v.grown node data).Distinct := by
  intro d hd
  rcases (h.live_grown node data d).mp hd with hold | rfl
  · rw [grown_node_of_live hold]
    have hnames : ((v.nodes d).children.map fun c => ((v.grown node data).nodes c).name)
        = (v.nodes d).children.map fun c => (v.nodes c).name :=
      List.map_congr_left fun c hc => by rw [grown_node_of_live (h.child d c hold hc).1]
    rw [hnames]
    exact hv d hold
  · rw [grown_node_new, hnode]
    exact List.nodup_nil

theorem link_name (v : Vfs) (d c n : Nat) : ((v.link d c).nodes n).name = (v.nodes n).name := by
  rw [link_node]

theorem Distinct.link (hv : v.Distinct) {d c : Nat} (hd : v.Live d)
    (hname : ∀ m ∈ (v.nodes d).children, (v.nodes m).name ≠ (v.nodes c).name) : (v.link d c).Distinct := by
  intro e he
  simp only [link_name]
  rw [link_node]
  dsimp only
  split
  · next heq =>
      rw [List.map_append, List.map_singleton, List.nodup_append]
      refine ⟨hv d hd, by simp, ?_⟩
      intro a ha b hb hab
      obtain ⟨m, hm, rfl⟩ := List.mem_map.mp ha
      exact hname m hm (hab.trans (List.mem_singleton.mp hb))
  · exact hv e he

theorem attached_node {d : Nat} (hd : v.Live d) (node : VfsNode) (data : Nat)
    {n : Nat} (hn : v.Live n) : ((v.grown node data).link d v.nextNode).nodes n =
      { v.nodes n with
        children := if n = d then (v.nodes d).children ++ [v.nextNode] else (v.nodes n).children } := by
  have hne : n ≠ v.nextNode := Nat.ne_of_lt hn.2.1
  rw [link_node, grown_node_of_live hn, grown_node_of_live hd, if_neg hne]

theorem Linked.distinct_attachNew (h : v.Linked) (hv : v.Distinct) {d : Nat} (hd : v.Live d) {node : VfsNode}
    (hnode : node.children = []) (data : Nat) (hname : ∀ c ∈ (v.nodes d).children, (v.nodes c).name ≠ node.name) :
    ((v.grown node data).link d v.nextNode).Distinct := by
  refine (h.distinct_grown hv hnode data).link ((h.live_grown node data d).mpr (Or.inl hd)) ?_
  intro m hm
  rw [grown_node_of_live hd] at hm
  rw [grown_node_of_live (h.child d m hd hm).1, grown_node_new]
  exact hname m hm

theorem Linked.walk_attachNew (h : v.Linked) {d : Nat} (hd : v.Live d) {node : VfsNode} {data : Nat}
    (hw : ((v.grown node data).link d v.nextNode).Distinct) {names : List Name} {n m : Nat} (hn : v.Reach n)
    (hm : v.walk n names = some m) : ((v.grown node data).link d v.nextNode).walk n names = some m := by
  refine walk_of_follow (P := v.Reach) ?_ hn hm
  intro n name m hn hm
  have hnlive := h.reach_live hn
  have hnode := attached_node hd node data hnlive
  have hlive : ((v.grown node data).link d v.nextNode).Live n := (h.live_grown node data n).mpr (Or.inl hnlive)
  refine ⟨hw.follow hlive (by rw [hnode]) (by rw [hnode]) ?_ hm, h.reach_follow hn hm⟩
  intro c hc
  rw [hnode, attached_node hd node data (h.child n c hnlive hc).1]
  refine ⟨?_, rfl⟩
  dsimp only
  split
  · next heq => exact List.mem_append_left _ (heq ▸ hc)
  · exact hc

theorem Linked.follow_attachNew (h : v.Linked) {d : Nat} (hd : v.Live d) {node : VfsNode} {data : Nat}
    (hw : ((v.grown node data).link d v.nextNode).Distinct) (hdir : (v.nodes d).type = .dir)
    (hdots : node.name ≠ ['.', '.']) :
    ((v.grown node data).link d v.nextNode).follow d node.name = some v.nextNode := by
  have hchild := attached_node hd node data hd
  have hfind := hw.vfsFindChild (d := d) (c := v.nextNode) ((h.live_grown node data d).mpr (Or.inl hd))
    (by rw [hchild]; exact hdir) (by rw [hchild, if_pos rfl]; simp)
  rw [link_name, grown_node_new] at hfind
  rw [Vfs.follow, if_neg hdots, hfind]

theorem Linked.attached (h : v.Linked) (hv : v.Distinct) {path : Name} {d : Nat} {type : VfsType}
    {node : VfsNode} {data : Nat} (hd : v.vfsResolve (parentPath path) = some d)
    (hnode : v.NewNode (childName path) type node data) (hdir : (v.nodes d).type = .dir)
    (hlands : Lands path) (hdots : childName path ≠ ['.', '.'])
    (hname : ∀ c ∈ (v.nodes d).children, (v.nodes c).name ≠ childName path) :
    ((v.grown node data).link d v.nextNode).Distinct ∧
      ((v.grown node data).link d v.nextNode).vfsResolve path = some v.nextNode := by
  have hdlive := h.resolve_live hd
  have hnew : node.name = childName path := by
    rw [hnode.name]
    exact List.take_of_length_le (List.length_take_le ..)
  rw [← hnew] at hdots hname
  have hw := h.distinct_attachNew hv hdlive hnode.children data hname
  refine ⟨hw, ?_⟩
  -- the walk to the directory is the one of before, and there the new child is found
  rw [vfsResolve_eq] at hd
  have hwalk := h.walk_attachNew hdlive hw .root hd
  rw [vfsResolve_eq, hlands, walk_append, ← hnew]
  show ((((v.grown node data).link d v.nextNode).walk v.root (steps (parentPath path))).bind _) = _
  rw [hwalk, Option.bind_some, h.follow_attachNew hdlive hw hdir hdots]

/-! ## Unlinking -/

theorem Distinct.removeChild (hv : v.Distinct) (d : Nat) (name : Name) (c : Nat) :
    (v.removeChild d name c).Distinct := by
  intro e he
  obtain ⟨hlive, _⟩ := (live_removeChild v d name c e).mp he
  have hnames : ∀ n, ((v.removeChild d name c).nodes n).name = (v.nodes n).name := fun n => by
    rw [removeChild_node]
  simp only [hnames]
  rw [removeChild_node]
  dsimp only
  split
  · next heq => exact (heq ▸ hv e hlive).sublist (List.Sublist.map _ List.eraseP_sublist)
  · exact hv e hlive

/-! ## Mounting -/

theorem relink_node (v : Vfs) (old c n : Nat) : (v.relink old c).nodes n =
    { v.nodes n with
      parent := if n = c then some v.root else (v.nodes n).parent
      children := if n = v.root then (v.nodes v.root).children.replace old c
        else (v.nodes n).children } := by
  unfold relink set
  simp only [Function.update_apply]
  by_cases hd : n = v.root
  · subst hd
    by_cases hc : v.root = c
    · simp only [← hc, if_true]
    · simp only [hc, if_true, if_false]
  · by_cases hc : n = c
    · subst hc
      simp only [hd, if_true, if_false]
    · simp only [hd, hc, if_false]

theorem replace_of_mem {l : List Nat} {a b : Nat} (hl : l.Nodup) (ha : a ∈ l) :
    ∃ pre post, l = pre ++ a :: post ∧ l.replace a b = pre ++ b :: post ∧ a ∉ pre ++ post := by
  obtain ⟨pre, post, rfl⟩ := List.append_of_mem ha
  have hnot := (List.nodup_cons.mp (List.nodup_middle.mp hl)).1
  refine ⟨pre, post, rfl, ?_, hnot⟩
  rw [List.replace_append_right fun hm => hnot (List.mem_append_left _ hm)]
  simp

/-- The condition under which a node may be mounted over `old`: it hangs nowhere else, and no child that
stays has its name. -/
structure MountsOver (v : Vfs) (old c : Nat) : Prop where
  root : c ≠ v.root
  loose : ∀ d, v.Live d → c ∈ (v.nodes d).children → d = v.root ∧ c = old
  name : ∀ m ∈ (v.nodes v.root).children, (v.nodes m).name = (v.nodes c).name → m = old

theorem Linked.relink (h : v.Linked) (hv : v.Distinct) {old c : Nat}
    (hold : old ∈ (v.nodes v.root).children) (hc : v.Live c) (hm : v.MountsOver old c) :
    (v.relink old c).Linked ∧ (v.relink old c).Distinct ∧ c ∈ ((v.relink old c).nodes v.root).children := by
  obtain ⟨pre, post, hlist, hreplace, hnot⟩ := replace_of_mem (b := c) (h.nodup _ h.root) hold
  have hkept : ∀ m, m ∈ pre ++ post → m ∈ (v.nodes v.root).children ∧ m ≠ c ∧ m ≠ old := by
    intro m hmem
    have hchild : m ∈ (v.nodes v.root).children := by
      rw [hlist]
      simp only [List.mem_append, List.mem_cons] at hmem ⊢
      tauto
    have hne : m ≠ old := fun heq => hnot (heq ▸ hmem)
    exact ⟨hchild, fun heq => hne (heq.trans (hm.loose _ h.root (heq ▸ hchild)).2), hne⟩
  have hchildren : ∀ e, ((v.relink old c).nodes e).children =
      if e = v.root then pre ++ c :: post else (v.nodes e).children := fun e => by
    rw [relink_node, hreplace]
  have hparent : ∀ n, ((v.relink old c).nodes n).parent =
      if n = c then some v.root else (v.nodes n).parent := fun n => by rw [relink_node]
  have hname : ∀ n, ((v.relink old c).nodes n).name = (v.nodes n).name := fun n => by rw [relink_node]
  have hsub : (pre ++ post).Sublist (v.nodes v.root).children := by
    rw [hlist]
    exact List.Sublist.append_left (List.sublist_cons_self _ _) _
  have hmemRoot : ∀ n, n ∈ pre ++ c :: post ↔ n = c ∨ n ∈ pre ++ post := fun n => by
    simp only [List.mem_append, List.mem_cons]
    tauto
  refine ⟨⟨h.root, ?_, fun e n he hn => ?_, fun e he => ?_, h.freed⟩, fun e he => ?_, ?_⟩
  · show ((v.relink old c).nodes v.root).parent = none
    rw [hparent, if_neg hm.root.symm]
    exact h.rootParent
  · rw [hchildren] at hn
    rw [hparent]
    by_cases her : e = v.root
    · subst her
      rw [if_pos rfl] at hn
      rcases (hmemRoot n).mp hn with rfl | hn
      · rw [if_pos rfl]
        exact ⟨hc, rfl⟩
      · obtain ⟨hchild, hne, _⟩ := hkept n hn
        rw [if_neg hne]
        exact h.child _ n he hchild
    · rw [if_neg her] at hn
      rw [if_neg fun heq : n = c => her (hm.loose e he (heq ▸ hn)).1]
      exact h.child e n he hn
  · rw [hchildren]
    split
    · exact List.nodup_middle.mpr (List.nodup_cons.mpr
        ⟨fun hmem => (hkept c hmem).2.1 rfl, (h.nodup _ h.root).sublist hsub⟩)
    · exact h.nodup e he
  · simp only [hname]
    rw [hchildren]
    split
    · rw [List.map_append, List.map_cons, List.nodup_middle, ← List.map_append, List.nodup_cons]
      refine ⟨fun hmem => ?_, (hv _ h.root).sublist (hsub.map _)⟩
      obtain ⟨m, hpre, hsame⟩ := List.mem_map.mp hmem
      obtain ⟨hchild, _, hne⟩ := hkept m hpre
      exact hne (hm.name m hchild hsame)
    · exact hv e he
  · rw [hchildren, if_pos rfl]
    exact (hmemRoot c).mpr (Or.inl rfl)

/-! ## The calls -/

/-- The calls of a history. `make` is a driver making the top node of a file system, to be mounted. -/
inductive VfsCall
  | openPath (path : Name) (creat : Bool) (g : Grant)
  | mkdir (path : Name) (g : Grant)
  | unlink (path : Name)
  | mount (path : Name) (fsRoot : Nat)
  | make (name : Name) (type : VfsType) (ops : VfsOps) (granted : Bool)

/-- The path a call is given. -/
def VfsCall.path : VfsCall → Name
  | .openPath path _ _ => path
  | .mkdir path _ => path
  | .unlink path => path
  | .mount path _ => path
  | .make _ _ _ _ => []

/-- The state after a call. -/
def next (v : Vfs) : VfsCall → Vfs
  | .openPath path creat g => (v.vfsOpen path creat g).2
  | .mkdir path g => (v.vfsMkdir path g).2
  | .unlink path => (v.vfsUnlink path).2
  | .mount path fsRoot => (v.vfsMount path fsRoot).2
  | .make name type ops granted => (v.vfsNewNode name type ops granted).2

/-- The node that a call reports to have made or mounted, or to have found there. -/
def reported (v : Vfs) : VfsCall → Option Nat
  | .openPath path creat g =>
    match v.vfsResolve path with
    | some n => some n
    | none => (v.vfsOpen path creat g).1.map fun _ => v.nextNode
  | .mkdir path g => if (v.vfsMkdir path g).1 then some v.nextNode else none
  | .mount path fsRoot => if (v.vfsMount path fsRoot).1 then some fsRoot else none
  | _ => none

/-- What the callers see to: `parent_path` fits its buffer, and what is mounted is a node. -/
def Allowed (v : Vfs) : VfsCall → Prop
  | .openPath path _ _ => (parentPath path).length < vfsPathLen
  | .mkdir path _ => (parentPath path).length < vfsPathLen
  | .mount _ fsRoot => v.Live fsRoot
  | _ => True

/-- One call of a history. -/
def Step (v : Vfs) (call : VfsCall) (w : Vfs) : Prop := v.Allowed call ∧ w = v.next call

/-- What the name space promises after a call. -/
structure Sound (v : Vfs) (call : VfsCall) (w : Vfs) : Prop where
  names : w.Distinct
  parents : ∀ d c, w.Live d → c ∈ (w.nodes d).children → (w.nodes c).parent = some d
  resolves : ∀ n, v.reported call = some n → w.vfsResolve call.path = some n

/-! ## When a call keeps the name space -/

/-- The condition for mounting `c` at `path`: it hangs nowhere but at the place it takes, the path names
nothing but it, and no child that stays has its name. -/
structure Mountable (v : Vfs) (path : Name) (c : Nat) : Prop where
  root : c ≠ v.root
  loose : ∀ d, v.Live d → c ∈ (v.nodes d).children →
    d = v.root ∧ v.vfsFindChild v.root (pathComponent (pathSkipSlashes path)) = some c
  name : ∀ m ∈ (v.nodes v.root).children, (v.nodes m).name = (v.nodes c).name →
    v.vfsFindChild v.root (pathComponent (pathSkipSlashes path)) = some m
  lands : steps path = [(v.nodes c).name]
  dots : (v.nodes c).name ≠ ['.', '.']

/-- The condition of each call. -/
def Clean (v : Vfs) : VfsCall → Prop
  | .openPath path creat g =>
    v.vfsResolve path = none → creat = true →
      ∀ d, v.vfsResolve (parentPath path) = some d → v.Admits d g → Lands path
  | .mkdir path g =>
    ∀ d, v.vfsResolve (parentPath path) = some d → v.Admits d g →
      Lands path ∧ childName path ≠ ['.', '.'] ∧
        ∀ c ∈ (v.nodes d).children, (v.nodes c).name ≠ childName path
  | .mount path fsRoot =>
    pathSkipSlashes path ≠ [] →
      ((v.vfsFindChild v.root (pathComponent (pathSkipSlashes path))).isSome = true ∨
        (v.nodes v.root).children.length < vfsMaxChildren) → v.Mountable path fsRoot
  | _ => True

/-! ## One step -/

/-- What all histories keep. -/
structure Names (v : Vfs) : Prop where
  linked : v.Linked
  distinct : v.Distinct

theorem Names.sound (h : w.Names) {call : VfsCall}
    (hr : ∀ n, v.reported call = some n → w.vfsResolve call.path = some n) : v.Sound call w :=
  ⟨h.distinct, fun d c hd hc => (h.linked.child d c hd hc).2, hr⟩

theorem Names.created_false (h : v.Names) {d : Nat} {name : Name} {type : VfsType} {g : Grant}
    (hd : v.Live d) (hw : v.Created d name type g false w) : w.Names := by
  refine ⟨h.linked.created hd hw, ?_⟩
  cases hw with
  | refused => exact h.distinct
  | leaked hnew => exact h.linked.distinct_grown h.distinct hnew.children _

theorem Names.created_true (h : v.Names) {path : Name} {d : Nat} {type : VfsType} {g : Grant}
    (hd : v.vfsResolve (parentPath path) = some d) (hw : v.Created d (childName path) type g true w)
    (hclean : v.Admits d g → Lands path ∧ childName path ≠ ['.', '.'] ∧
      ∀ c ∈ (v.nodes d).children, (v.nodes c).name ≠ childName path) :
    w.Names ∧ w.vfsResolve path = some v.nextNode := by
  have hlive := h.linked.resolve_live hd
  have hlinked := h.linked.created hlive hw
  cases hw with
  | attached hnew hadmits _ =>
    have had := hadmits (Nat.ne_of_lt hlive.2.1)
    obtain ⟨hlands, hdots, hname⟩ := hclean had
    obtain ⟨hdistinct, hresolve⟩ :=
      h.linked.attached h.distinct hd hnew had.type hlands hdots hname
    exact ⟨⟨hlinked, hdistinct⟩, hresolve⟩

theorem name_free {path : Name} {d : Nat} (hpath : v.vfsResolve path = none)
    (hd : v.vfsResolve (parentPath path) = some d) (hdir : (v.nodes d).type = .dir) (hlands : Lands path) :
    childName path ≠ ['.', '.'] ∧ ∀ c ∈ (v.nodes d).children, (v.nodes c).name ≠ childName path := by
  rw [vfsResolve_eq] at hd
  rw [vfsResolve_eq, hlands, walk_append, hd, Option.bind_some, Vfs.follow] at hpath
  split at hpath
  · cases hpath
  · next hdots =>
      rw [Vfs.vfsFindChild, if_pos hdir] at hpath
      exact ⟨hdots, fun c hc => by simpa using List.find?_eq_none.mp hpath c hc⟩

theorem sound_open (h : v.Names) {path : Name} {creat : Bool} {g : Grant} (hclean : v.Clean (.openPath path creat g)) :
    (v.next (.openPath path creat g)).Names ∧ v.Sound (.openPath path creat g) (v.next (.openPath path creat g)) := by
  have hnext : v.next (.openPath path creat g) = (v.vfsOpen path creat g).2 := rfl
  rcases v.vfsOpen_cases path creat g with
    ⟨n, hn, hopen⟩ | hopen | ⟨d, ok, w, hnone, hcreat, hd, hw, hopen⟩
  · rw [hnext, hopen]
    refine ⟨h, h.sound fun m hm => ?_⟩
    rw [reported, hn] at hm
    exact hn.trans hm
  · rw [hnext, hopen]
    refine ⟨h, h.sound fun m hm => ?_⟩
    rw [reported, hopen] at hm
    split at hm
    · next n hn => exact hn.trans hm
    · cases hm
  · rw [hnext, hopen]
    cases ok with
    | false =>
      have hnames := h.created_false (h.linked.resolve_live hd) hw
      refine ⟨hnames, hnames.sound fun m hm => ?_⟩
      rw [reported, hnone, hopen] at hm
      cases hm
    | true =>
      obtain ⟨hnames, hresolve⟩ := h.created_true hd hw fun hadmits => by
        have hlands := hclean hnone hcreat d hd hadmits
        exact ⟨hlands, name_free hnone hd hadmits.type hlands⟩
      refine ⟨hnames, hnames.sound fun m hm => ?_⟩
      rw [reported, hnone] at hm
      obtain ⟨_, _, rfl⟩ := Option.map_eq_some_iff.mp hm
      exact hresolve

theorem sound_mkdir (h : v.Names) {path : Name} {g : Grant} (hclean : v.Clean (.mkdir path g)) :
    (v.next (.mkdir path g)).Names ∧ v.Sound (.mkdir path g) (v.next (.mkdir path g)) := by
  have hnext : v.next (.mkdir path g) = (v.vfsMkdir path g).2 := rfl
  rcases v.vfsMkdir_cases path g with hmk | ⟨d, ok, w, hd, hw, hmk⟩
  · rw [hnext, hmk]
    refine ⟨h, h.sound fun m hm => ?_⟩
    rw [reported, hmk] at hm
    cases hm
  · rw [hnext, hmk]
    cases ok with
    | false =>
      have hnames := h.created_false (h.linked.resolve_live hd) hw
      refine ⟨hnames, hnames.sound fun m hm => ?_⟩
      rw [reported, hmk] at hm
      cases hm
    | true =>
      obtain ⟨hnames, hresolve⟩ := h.created_true hd hw (hclean d hd)
      refine ⟨hnames, hnames.sound fun m hm => ?_⟩
      rw [reported, hmk] at hm
      obtain rfl := Option.some.inj hm
      exact hresolve

theorem sound_unlink (h : v.Names) (path : Name) :
    (v.next (.unlink path)).Names ∧ v.Sound (.unlink path) (v.next (.unlink path)) := by
  have hnames : (v.next (.unlink path)).Names := by
    have hnext : v.next (.unlink path) = (v.vfsUnlink path).2 := rfl
    rcases v.vfsUnlink_cases path with ⟨hun, _⟩ | ⟨d, name, c, hu, hun⟩
    · rw [hnext, hun]
      exact h
    · rw [hnext, hun]
      exact ⟨h.linked.removeChild (h.linked.unlinks_live hu) hu.found,
        h.distinct.removeChild d name c⟩
  exact ⟨hnames, hnames.sound fun m hm => nomatch hm⟩

theorem sound_make (h : v.Names) (name : Name) (type : VfsType) (ops : VfsOps) (granted : Bool) :
    (v.next (.make name type ops granted)).Names ∧
      v.Sound (.make name type ops granted) (v.next (.make name type ops granted)) := by
  have hnames : (v.next (.make name type ops granted)).Names := by
    cases granted with
    | false => exact h
    | true =>
      have hchildren : ({ name := name.take (vfsNameLen - 1), type := type, ops := ops } :
          VfsNode).children = [] := rfl
      exact ⟨h.linked.grown hchildren v.nextData, h.linked.distinct_grown h.distinct hchildren v.nextData⟩
  exact ⟨hnames, hnames.sound fun m hm => nomatch hm⟩

theorem vfsMount_cases (v : Vfs) (path : Name) (c : Nat) : v.vfsMount path c = (false, v) ∨
    (pathSkipSlashes path ≠ [] ∧ ∃ old, v.vfsFindChild v.root (pathComponent (pathSkipSlashes path)) = some old ∧
        v.vfsMount path c = (true, v.relink old c)) ∨ (pathSkipSlashes path ≠ [] ∧
      v.vfsFindChild v.root (pathComponent (pathSkipSlashes path)) = none ∧
        (v.nodes v.root).type = .dir ∧ (v.nodes v.root).children.length < vfsMaxChildren ∧
          v.vfsMount path c = (true, v.link v.root c)) := by
  unfold vfsMount
  by_cases hpath : pathSkipSlashes path = []
  · exact Or.inl (if_pos hpath)
  rw [if_neg hpath]
  rcases Option.eq_none_or_eq_some
    (v.vfsFindChild v.root (pathComponent (pathSkipSlashes path))) with hf | ⟨old, hf⟩
  · rw [hf]
    rcases v.vfsAttachChild_cases v.root c with ha | ⟨hdir, hroom, ha⟩
    · exact Or.inl ha
    · exact Or.inr (Or.inr ⟨hpath, rfl, hdir, hroom, ha⟩)
  · rw [hf]
    exact Or.inr (Or.inl ⟨hpath, old, rfl, rfl⟩)

theorem Mountable.resolve {path : Name} {c : Nat} (hm : v.Mountable path c) (hw : w.Names)
    (hdir : (w.nodes w.root).type = .dir)
    (hname : (w.nodes c).name = (v.nodes c).name) (hc : c ∈ (w.nodes w.root).children) :
    w.vfsResolve path = some c := by
  have hfind := hw.distinct.vfsFindChild hw.linked.root hdir hc
  rw [hname] at hfind
  rw [vfsResolve_eq, hm.lands, walk, follow, if_neg hm.dots, hfind]
  rfl

theorem sound_mount (h : v.Names) {path : Name} {c : Nat} (hc : v.Live c) (hclean : v.Clean (.mount path c)) :
    (v.next (.mount path c)).Names ∧ v.Sound (.mount path c) (v.next (.mount path c)) := by
  have hnext : v.next (.mount path c) = (v.vfsMount path c).2 := rfl
  have hreported : ∀ w, w.Names → v.vfsMount path c = (true, w) → w.vfsResolve path = some c →
      v.Sound (.mount path c) w := by
    intro w hw hmount hresolve
    refine hw.sound fun m hm => ?_
    rw [reported, hmount] at hm
    obtain rfl := Option.some.inj hm
    exact hresolve
  rcases v.vfsMount_cases path c with
    hmount | ⟨hpath, old, hf, hmount⟩ | ⟨hpath, hf, hdir, hroom, hmount⟩
  · rw [hnext, hmount]
    refine ⟨h, h.sound fun m hm => ?_⟩
    rw [reported, hmount] at hm
    cases hm
  · -- over the child `old`
    have hm := hclean hpath (Or.inl (by rw [hf]; rfl))
    obtain ⟨hdir, hold, _⟩ := vfsFindChild_some hf
    have hover : v.MountsOver old c :=
      ⟨hm.root, fun d hd hmem => by
        obtain ⟨hroot, hfc⟩ := hm.loose d hd hmem
        exact ⟨hroot, Option.some.inj (hfc.symm.trans hf)⟩,
        fun m hmem hname => Option.some.inj ((hm.name m hmem hname).symm.trans hf)⟩
    obtain ⟨hlinked, hdistinct, hmem⟩ := h.linked.relink h.distinct hold hc hover
    have hnames : (v.relink old c).Names := ⟨hlinked, hdistinct⟩
    rw [hnext, hmount]
    refine ⟨hnames, hreported _ hnames hmount (hm.resolve hnames ?_ ?_ hmem)⟩
    · show ((v.relink old c).nodes v.root).type = .dir
      rw [relink_node]
      exact hdir
    · rw [relink_node]
  · -- behind the root's children
    have hm := hclean hpath (Or.inr hroom)
    have hloose : v.Loose c := fun d hd hmem => by
      obtain ⟨_, hfc⟩ := hm.loose d hd hmem
      rw [hf] at hfc
      cases hfc
    have hfree : ∀ m ∈ (v.nodes v.root).children, (v.nodes m).name ≠ (v.nodes c).name :=
      fun m hmem hname => by
        have hfm := hm.name m hmem hname
        rw [hf] at hfm
        cases hfm
    have hnames : (v.link v.root c).Names :=
      ⟨h.linked.link h.linked.root hc hm.root hloose, h.distinct.link h.linked.root hfree⟩
    rw [hnext, hmount]
    refine ⟨hnames, hreported _ hnames hmount (hm.resolve hnames ?_ ?_ ?_)⟩
    · show ((v.link v.root c).nodes v.root).type = .dir
      rw [link_node]
      exact hdir
    · rw [link_node]
    · show c ∈ ((v.link v.root c).nodes v.root).children
      rw [link_node, if_pos rfl]
      exact List.mem_append_right _ (List.mem_singleton.mpr rfl)

theorem sound_step (h : v.Names) {call : VfsCall} (hst : v.Step call w) (hclean : v.Clean call) :
    w.Names ∧ v.Sound call w := by
  obtain ⟨hallowed, rfl⟩ := hst
  cases call with
  | openPath path creat g => exact sound_open h hclean
  | mkdir path g => exact sound_mkdir h hclean
  | unlink path => exact sound_unlink h path
  | mount path c => exact sound_mount h hallowed hclean
  | make name type ops granted => exact sound_make h name type ops granted

/-! ## Histories -/

theorem names_boot (dev proc tmp : Bool) : (boot dev proc tmp).Names := by
  refine ⟨linked_boot dev proc tmp, fun d hd => ?_⟩
  have hcheck : ∀ dev proc tmp : Bool, ∀ d < (boot dev proc tmp).nextNode,
      (((boot dev proc tmp).nodes d).children.map fun c => ((boot dev proc tmp).nodes c).name).Nodup := by
    decide +kernel
  exact hcheck dev proc tmp d hd.2.1

/-- **The name space over whole histories.** Where every call meets its condition, after every call all
directories have different names and right parents, and a path that was reported made resolves to the new
node. -/
theorem sound_run (dev proc tmp : Bool) {tr : List (VfsCall × Vfs)}
    (htr : Trace Step (boot dev proc tmp) tr) (hclean : Guarded Clean (boot dev proc tmp) tr) :
    AllSteps Sound (boot dev proc tmp) tr :=
  htr.allSteps_of_guarded (I := Names) (Q := Sound) (fun _ _ _ hs hst hg => sound_step hs hst hg)
    (names_boot dev proc tmp) hclean

/-! ## A directory made twice -/

/-- `/tmp/a` and `/tmp/d` -/
def tmpA : Name := ['/', 't', 'm', 'p', '/', 'a']
def tmpD : Name := ['/', 't', 'm', 'p', '/', 'd']

/-- A file and a directory are made under `/tmp`, and the file is unlinked. -/
theorem tmpA_tmpD_sound : AllSteps Sound (boot true true true) (traceOf next (boot true true true)
      [.openPath tmpA true plenty, .mkdir tmpD plenty, .unlink tmpA]) := by
  refine sound_run true true true (.cons ⟨?_, rfl⟩ (.cons ⟨?_, rfl⟩ (.cons ⟨trivial, rfl⟩ (.nil _))))
    ⟨fun _ _ _ _ _ => ?_, fun d hd _ => ⟨?_, ?_, ?_⟩, trivial, trivial⟩
  · show (parentPath tmpA).length < vfsPathLen
    decide
  · show (parentPath tmpD).length < vfsPathLen
    decide
  · decide +kernel
  · decide +kernel
  · decide +kernel
  · have htmp : ((boot true true true).next (.openPath tmpA true plenty)).vfsResolve (parentPath tmpD)
        = some 13 := by decide +kernel
    obtain rfl := Option.some.inj (htmp.symm.trans hd)
    decide +kernel

/-- `vfs_mkdir("/tmp/d")` twice: both calls report success, and `/tmp` has two children named `d`. -/
theorem mkdir_tmpD_twice : ¬ ∀ (dev proc tmp : Bool) (tr : List (VfsCall × Vfs)), Trace Step (boot dev proc tmp) tr →
        AllSteps Sound (boot dev proc tmp) tr := by
  intro hall
  have hmkdir : ∀ v : Vfs, v.Allowed (.mkdir tmpD plenty) := fun v =>
    show (parentPath tmpD).length < vfsPathLen by decide
  have htr : Trace Step (boot true true true) (traceOf next (boot true true true)
      [.mkdir tmpD plenty, .mkdir tmpD plenty]) :=
    .cons ⟨hmkdir _, rfl⟩ (.cons ⟨hmkdir _, rfl⟩ (.nil _))
  obtain ⟨_, htwice, _⟩ := hall true true true _ htr
  have hlive : (((boot true true true).next (.mkdir tmpD plenty)).next (.mkdir tmpD plenty)).Live 13 := by
    decide +kernel
  exact absurd (htwice.names 13 hlive) (by decide +kernel)

end Vfs

end Chicago95.Kernel
