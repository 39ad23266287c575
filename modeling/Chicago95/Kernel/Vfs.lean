/-
# Chicago95.Kernel.Vfs — the node tree of `vfs.c`: `tmpfs`, mounting and path resolution.

Nodes and data buffers are numbered in the order `kmalloc` hands them out and no number is given twice, so
that a pointer kept across a `kfree` stays recognisable as one: `freedNode` and `freedData` say what has
been passed to `kfree`. Address `0` is `NULL`. Whether an allocation succeeds is an input (`Grant`).
-/
import Chicago95.Lib.Paths
import Mathlib.Algebra.Group.Nat.Defs
import Mathlib.Logic.Function.Basic

namespace Chicago95.Kernel

open Chicago95.Lib.Paths

/-! ## Nodes -/

/-- `VFS_NAME_LEN`, `VFS_PATH_LEN`, `VFS_MAX_CHILDREN` -/
def vfsNameLen : Nat := 64
def vfsPathLen : Nat := 256
def vfsMaxChildren : Nat := 128

/-- `VFS_FILE` to `VFS_SYMLINK` -/
inductive VfsType
  | file | dir | chardev | blockdev | symlink
  deriving DecidableEq, Repr

/-- The operation tables, by their `create`, `mkdir` and `unlink`: the default ones or those of `tmpfs`. -/
inductive VfsOps
  | dev | tmp
  deriving DecidableEq, Repr

/-- A name or a path, without its closing zero. -/
abbrev Name := List Char

/-- `vfs_node_t`; `implData` is the number of the data buffer. -/
structure VfsNode where
  name : Name := []
  type : VfsType := .file
  length : Nat := 0
  ops : VfsOps := .dev
  parent : Option Nat := none
  children : List Nat := []
  implData : Option Nat := none
  deriving DecidableEq, Repr

/-- The nodes, with `vfs_root` and what has been handed out and freed. -/
structure Vfs where
  root : Nat
  nodes : Nat → VfsNode
  nextNode : Nat
  nextData : Nat
  freedNode : Nat → Bool
  freedData : Nat → Bool

/-- Whether the allocations of one new node succeed: the node itself and its first buffer. -/
structure Grant where
  node : Bool
  data : Bool
  deriving DecidableEq, Repr

/-- All the memory a node needs. -/
def plenty : Grant := { node := true, data := true }

namespace Vfs

/-- `*n = node` -/
def set (v : Vfs) (n : Nat) (node : VfsNode) : Vfs :=
  { v with nodes := Function.update v.nodes n node }

/-- `n` has been handed out and not been freed. -/
def Live (v : Vfs) (n : Nat) : Prop := 0 < n ∧ n < v.nextNode ∧ v.freedNode n = false

instance (v : Vfs) (n : Nat) : Decidable (v.Live n) := inferInstanceAs (Decidable (_ ∧ _))

/-! ## Helpers -/

def vfsNewNode (v : Vfs) (name : Name) (type : VfsType) (ops : VfsOps) (granted : Bool) :
    Option Nat × Vfs :=
  if granted then
    (some v.nextNode,
      { v with
        nodes := Function.update v.nodes v.nextNode
          { name := name.take (vfsNameLen - 1), type := type, ops := ops }
        nextNode := v.nextNode + 1 })
  else (none, v)

def vfsFindChild (v : Vfs) (dir : Nat) (name : Name) : Option Nat :=
  if (v.nodes dir).type = .dir then
    (v.nodes dir).children.find? fun c => decide ((v.nodes c).name = name)
  else none

/-- The two stores of `vfs_attach_child`: the child's parent, and the child behind the others. -/
def link (v : Vfs) (dir child : Nat) : Vfs :=
  let v := v.set child { v.nodes child with parent := some dir }
  v.set dir { v.nodes dir with children := (v.nodes dir).children ++ [child] }

def vfsAttachChild (v : Vfs) (dir child : Nat) : Bool × Vfs :=
  if (v.nodes dir).type ≠ .dir then (false, v)
  else if vfsMaxChildren ≤ (v.nodes dir).children.length then (false, v)
  else (true, v.link dir child)

/-! ## `tmpfs` -/

/-- `tmpfs_create_node`. Without a buffer the file is made all the same. -/
def tmpfsCreateNode (v : Vfs) (name : Name) (type : VfsType) (g : Grant) : Option Nat × Vfs :=
  match v.vfsNewNode name type .dev g.node with
  | (none, v) => (none, v)
  | (some n, v) =>
    if type = .file ∧ g.data = true then
      (some n, { v.set n { v.nodes n with implData := some v.nextData, length := 0 } with
        nextData := v.nextData + 1 })
    else (some n, v)

/-- `tmpfs_create`, and `tmpfs_mkdir` for a directory. A node that cannot be attached is left behind. -/
def tmpfsCreate (v : Vfs) (dir : Nat) (name : Name) (type : VfsType) (g : Grant) : Bool × Vfs :=
  match v.tmpfsCreateNode name type g with
  | (none, v) => (false, v)
  | (some child, v) => v.vfsAttachChild dir child

/-- `kfree(child)`, and its data before it when it is a file. -/
def freeNode (v : Vfs) (child : Nat) : Vfs :=
  let v := match (v.nodes child).type, (v.nodes child).implData with
    | .file, some b => { v with freedData := Function.update v.freedData b true }
    | _, _ => v
  { v with freedNode := Function.update v.freedNode child true }

/-- The end of `tmpfs_unlink`: `child`, the first of that name, is freed and the others move up. -/
def removeChild (v : Vfs) (dir : Nat) (name : Name) (child : Nat) : Vfs :=
  (v.freeNode child).set dir { v.nodes dir with
    children := (v.nodes dir).children.eraseP fun c => decide ((v.nodes c).name = name) }

def tmpfsUnlink (v : Vfs) (dir : Nat) (name : Name) : Bool × Vfs :=
  match (v.nodes dir).children.find? fun c => decide ((v.nodes c).name = name) with
  | none => (false, v)
  | some child => (true, v.removeChild dir name child)

/-! ## Paths -/

/-- `path_skip_slashes`, and the loop that copies one component, which stops at 63 characters. -/
def pathSkipSlashes (p : Name) : Name := skip '/' p
def pathComponent (p : Name) : Name := component '/' (vfsNameLen - 1) p

/-- The loop of `vfs_resolve`, from the node `current` on. -/
def resolveLoop (v : Vfs) : Nat → Nat → Name → Option Nat
  | 0, current, _ => some current
  | fuel + 1, current, p =>
    if p = [] then some current
    else
      let name := pathComponent p
      let p := pathSkipSlashes (p.drop name.length)
      if name = ['.'] then resolveLoop v fuel current p
      else if name = ['.', '.'] then
        resolveLoop v fuel ((v.nodes current).parent.getD current) p
      else if (v.nodes current).type ≠ .dir then none
      else
        match v.vfsFindChild current name with
        | none => none
        | some found => resolveLoop v fuel found p

def vfsResolve (v : Vfs) (path : Name) : Option Nat :=
  v.resolveLoop path.length v.root (pathSkipSlashes path)

/-- `parent_path` as `vfs_open` and `vfs_mkdir` cut it off at the last slash. -/
def parentPath (path : Name) : Name := if '/' ∈ path then front '/' path else ['/']

/-- `child_name` (`dir_name`): what follows the last slash, at most 63 characters of it. -/
def childName (path : Name) : Name := (lastName '/' path).take (vfsNameLen - 1)

/-! ## The operations -/

/-- `parent->ops->create` and `parent->ops->mkdir` -/
def opsCreate (v : Vfs) (parent : Nat) (name : Name) (type : VfsType) (g : Grant) : Bool × Vfs :=
  match (v.nodes parent).ops with
  | .dev => (false, v)
  | .tmp => v.tmpfsCreate parent name type g

/-- `parent->ops->unlink` -/
def opsUnlink (v : Vfs) (parent : Nat) (name : Name) : Bool × Vfs :=
  match (v.nodes parent).ops with
  | .dev => (false, v)
  | .tmp => v.tmpfsUnlink parent name

/-- `vfs_open`, with `creat` for `flags & O_CREAT`. -/
def vfsOpen (v : Vfs) (path : Name) (creat : Bool) (g : Grant) : Option Nat × Vfs :=
  match v.vfsResolve path with
  | some node => (some node, v)
  | none =>
    if creat then
      match v.vfsResolve (parentPath path) with
      | none => (none, v)
      | some parent =>
        match v.opsCreate parent (childName path) .file g with
        | (false, v) => (none, v)
        | (true, v) => (v.vfsFindChild parent (childName path), v)
    else (none, v)

def vfsMkdir (v : Vfs) (path : Name) (g : Grant) : Bool × Vfs :=
  match v.vfsResolve (parentPath path) with
  | none => (false, v)
  | some parent =>
    if (v.nodes parent).type ≠ .dir then (false, v)
    else v.opsCreate parent (childName path) .dir g

def vfsUnlink (v : Vfs) (path : Name) : Bool × Vfs :=
  match v.vfsResolve path with
  | none => (false, v)
  | some node =>
    match (v.nodes node).parent with
    | none => (false, v)
    | some parent => v.opsUnlink parent (v.nodes node).name

/-- The stores of `vfs_mount` over an existing child: the mounted node's parent, then its place. -/
def relink (v : Vfs) (existing fsRoot : Nat) : Vfs :=
  let v := v.set fsRoot { v.nodes fsRoot with parent := some v.root }
  v.set v.root { v.nodes v.root with
    children := (v.nodes v.root).children.replace existing fsRoot }

def vfsMount (v : Vfs) (path : Name) (fsRoot : Nat) : Bool × Vfs :=
  if pathSkipSlashes path = [] then (false, v)
  else
    match v.vfsFindChild v.root (pathComponent (pathSkipSlashes path)) with
    | some existing => (true, v.relink existing fsRoot)
    | none => v.vfsAttachChild v.root fsRoot

/-! ## The initial tree -/

def vfsInit : Vfs :=
  { root := 1
    nodes := Function.update (fun _ => {}) 1 { name := ['/'], type := .dir }
    nextNode := 2
    nextData := 1
    freedNode := fun _ => false
    freedData := fun _ => false }

/-- The entries `devfs_init` and `procfs_init` make, each attached to the directory as it is made. -/
def addEntries (v : Vfs) (dir : Nat) : List (Name × VfsType) → Vfs
  | [] => v
  | (name, type) :: rest =>
    match v.vfsNewNode name type .dev true with
    | (none, v) => v.addEntries dir rest
    | (some n, v) => (v.vfsAttachChild dir n).2.addEntries dir rest

/-- A file system of the kernel: its top directory with its entries, then attached to the root. -/
def initFs (v : Vfs) (name : Name) (ops : VfsOps) (entries : List (Name × VfsType)) (granted : Bool) :
    Vfs :=
  match v.vfsNewNode name .dir ops granted with
  | (none, v) => v
  | (some top, v) => (v.addEntries top entries).link v.root top

def devfsInit (v : Vfs) (granted : Bool) : Vfs :=
  v.initFs ['d', 'e', 'v'] .dev
    [(['n', 'u', 'l', 'l'], .chardev), (['z', 'e', 'r', 'o'], .chardev),
      (['c', 'o', 'n', 's', 'o', 'l', 'e'], .chardev), (['t', 't', 'y'], .chardev),
      (['s', 'd', 'a'], .blockdev), (['n', 'v', 'm', 'e', '0'], .blockdev)] granted

def procfsInit (v : Vfs) (granted : Bool) : Vfs :=
  v.initFs ['p', 'r', 'o', 'c'] .dev
    [(['m', 'e', 'm', 'i', 'n', 'f', 'o'], .file), (['c', 'p', 'u', 'i', 'n', 'f', 'o'], .file),
      (['s', 'e', 'l', 'f'], .file)] granted

def tmpfsInit (v : Vfs) (granted : Bool) : Vfs := v.initFs ['t', 'm', 'p'] .tmp [] granted

/-- The tree once the four `init` functions have run; each of the last three stops when the node of its
top directory cannot be had. -/
def boot (dev proc tmp : Bool) : Vfs := ((vfsInit.devfsInit dev).procfsInit proc).tmpfsInit tmp

/-! ## Following a path

`vfs_resolve` reads a component and goes there before it reads the next. The components do not depend on
the tree, so it comes to walking the list of them. -/

/-- The names `vfs_resolve` looks up on a path: its components but for `.`. -/
def steps (path : Name) : List Name :=
  (components '/' (vfsNameLen - 1) path).filter fun name => decide (name ≠ ['.'])

/-- Where one name leads from a node. -/
def follow (v : Vfs) (current : Nat) (name : Name) : Option Nat :=
  if name = ['.', '.'] then some ((v.nodes current).parent.getD current)
  else v.vfsFindChild current name

/-- Where a list of names leads. -/
def walk (v : Vfs) : Nat → List Name → Option Nat
  | current, [] => some current
  | current, name :: names =>
    match v.follow current name with
    | none => none
    | some next => walk v next names

theorem walk_append (v : Vfs) (names : List Name) (name : Name) (current : Nat) :
    v.walk current (names ++ [name]) = (v.walk current names).bind fun n => v.follow n name := by
  induction names generalizing current with
  | nil =>
    simp only [List.nil_append, walk, Option.bind_some]
    cases v.follow current name with
    | none => rfl
    | some next => rfl
  | cons first names ih =>
    simp only [List.cons_append, walk]
    cases v.follow current first with
    | none => rfl
    | some next => exact ih next

theorem resolveLoop_eq (v : Vfs) : ∀ (fuel current : Nat) (p : Name), v.resolveLoop fuel current p =
    v.walk current ((split '/' (vfsNameLen - 1) fuel p).filter fun name => decide (name ≠ ['.'])) := by
  intro fuel
  induction fuel with
  | zero => intro current p; rfl
  | succ fuel ih =>
    intro current p
    rw [resolveLoop, split]
    by_cases hp : p = []
    · rw [if_pos hp, if_pos hp]
      rfl
    · rw [if_neg hp, if_neg hp]
      have hrest : pathSkipSlashes (p.drop (pathComponent p).length) = rest '/' (vfsNameLen - 1) p :=
        rfl
      simp only [hrest, ih]
      have hname : pathComponent p = component '/' (vfsNameLen - 1) p := rfl
      rw [hname]
      by_cases hdot : component '/' (vfsNameLen - 1) p = ['.']
      · rw [if_pos hdot, List.filter_cons_of_neg (by simp [hdot])]
      · rw [if_neg hdot, List.filter_cons_of_pos (by simp [hdot]), walk, follow]
        split
        · rfl
        · split
          · next hfile => rw [vfsFindChild, if_neg hfile]
          · rfl

theorem vfsResolve_eq (v : Vfs) (path : Name) : v.vfsResolve path = v.walk v.root (steps path) :=
  resolveLoop_eq v _ _ _

/-- The path's names are those of its parent path and then the name that is created: what makes the new
child be found under the path. -/
def Lands (path : Name) : Prop := steps path = steps (parentPath path) ++ [childName path]

instance (path : Name) : Decidable (Lands path) := inferInstanceAs (Decidable (_ = _))

/-! ## What the operations do -/

/-- The state after a node has been handed out, with `data` the next buffer number. -/
def grown (v : Vfs) (node : VfsNode) (data : Nat) : Vfs :=
  { v with
    nodes := Function.update v.nodes v.nextNode node
    nextNode := v.nextNode + 1
    nextData := data }

/-- What `tmpfs_create_node` puts into a node. -/
structure NewNode (v : Vfs) (name : Name) (type : VfsType) (node : VfsNode) (data : Nat) : Prop where
  name : node.name = name.take (vfsNameLen - 1)
  type : node.type = type
  ops : node.ops = .dev
  children : node.children = []
  implData : (node.implData = none ∧ data = v.nextData) ∨
    (node.implData = some v.nextData ∧ data = v.nextData + 1)

/-- `create` and `mkdir` have what they need in `dir`: the operations of `tmpfs`, a directory with room, and
memory for the node. -/
structure Admits (v : Vfs) (dir : Nat) (g : Grant) : Prop where
  ops : (v.nodes dir).ops = .tmp
  type : (v.nodes dir).type = .dir
  room : (v.nodes dir).children.length < vfsMaxChildren
  memory : g.node = true

/-- The outcomes of `create` and `mkdir`: nothing, a node left behind, or a new child. -/
inductive Created (v : Vfs) (dir : Nat) (name : Name) (type : VfsType) (g : Grant) : Bool → Vfs → Prop
  | refused : Created v dir name type g false v
  | leaked {node : VfsNode} {data : Nat} :
      v.NewNode name type node data → Created v dir name type g false (v.grown node data)
  | attached {node : VfsNode} {data : Nat} :
      v.NewNode name type node data → (dir ≠ v.nextNode → v.Admits dir g) →
        ((v.grown node data).nodes dir).type = .dir →
          Created v dir name type g true ((v.grown node data).link dir v.nextNode)

theorem tmpfsCreateNode_cases (v : Vfs) (name : Name) (type : VfsType) (g : Grant) :
    v.tmpfsCreateNode name type g = (none, v) ∨ ∃ node data, v.NewNode name type node data ∧ g.node = true ∧
      v.tmpfsCreateNode name type g = (some v.nextNode, v.grown node data) := by
  unfold tmpfsCreateNode vfsNewNode
  by_cases hg : g.node = true
  · refine Or.inr ?_
    simp only [hg, if_true]
    by_cases hfile : type = .file ∧ g.data = true
    · rw [if_pos hfile]
      refine ⟨{ name := name.take (vfsNameLen - 1), type := type, implData := some v.nextData },
        v.nextData + 1, ⟨rfl, rfl, rfl, rfl, Or.inr ⟨rfl, rfl⟩⟩, trivial, ?_⟩
      simp only [set, grown, Function.update_self, Function.update_idem]
    · rw [if_neg hfile]
      exact ⟨_, v.nextData, ⟨rfl, rfl, rfl, rfl, Or.inl ⟨rfl, rfl⟩⟩, trivial, rfl⟩
  · exact Or.inl (by simp only [hg, Bool.false_eq_true, if_false])

theorem vfsAttachChild_cases (v : Vfs) (dir child : Nat) : v.vfsAttachChild dir child = (false, v) ∨
    ((v.nodes dir).type = .dir ∧ (v.nodes dir).children.length < vfsMaxChildren ∧
      v.vfsAttachChild dir child = (true, v.link dir child)) := by
  unfold vfsAttachChild
  by_cases hdir : (v.nodes dir).type ≠ .dir
  · exact Or.inl (if_pos hdir)
  · rw [if_neg hdir]
    split
    · exact Or.inl rfl
    · next hroom => exact Or.inr ⟨not_not.mp hdir, Nat.lt_of_not_le hroom, rfl⟩

theorem opsCreate_created (v : Vfs) (dir : Nat) (name : Name) (type : VfsType) (g : Grant) :
    Created v dir name type g (v.opsCreate dir name type g).1 (v.opsCreate dir name type g).2 := by
  unfold opsCreate
  split
  · exact .refused
  · next hops =>
      unfold tmpfsCreate
      rcases v.tmpfsCreateNode_cases name type g with h | ⟨node, data, hnew, hg, h⟩
      · rw [h]
        exact .refused
      · rw [h]
        rcases (v.grown node data).vfsAttachChild_cases dir v.nextNode with ha | ⟨hdir, hroom, ha⟩
        · dsimp only
          rw [ha]
          exact .leaked hnew
        · dsimp only
          rw [ha]
          refine .attached hnew (fun hne => ?_) hdir
          have hnode : (v.grown node data).nodes dir = v.nodes dir := Function.update_of_ne hne ..
          rw [hnode] at hdir hroom
          exact ⟨hops, hdir, hroom, hg⟩

theorem vfsOpen_cases (v : Vfs) (path : Name) (creat : Bool) (g : Grant) :
    (∃ n, v.vfsResolve path = some n ∧ v.vfsOpen path creat g = (some n, v)) ∨ v.vfsOpen path creat g = (none, v) ∨
    ∃ parent ok w, v.vfsResolve path = none ∧ creat = true ∧ v.vfsResolve (parentPath path) = some parent ∧
      Created v parent (childName path) .file g ok w ∧
      v.vfsOpen path creat g = (if ok then w.vfsFindChild parent (childName path) else none, w) := by
  unfold vfsOpen
  rcases Option.eq_none_or_eq_some (v.vfsResolve path) with hpath | ⟨n, hpath⟩
  · rw [hpath]
    cases creat with
    | false => exact Or.inr (Or.inl rfl)
    | true =>
      rcases Option.eq_none_or_eq_some (v.vfsResolve (parentPath path)) with hp | ⟨parent, hp⟩
      · exact Or.inr (Or.inl (by simp only [hp, if_true]))
      · refine Or.inr (Or.inr ⟨parent, _, _, rfl, rfl, hp, v.opsCreate_created parent _ _ g, ?_⟩)
        simp only [hp, if_true]
        rcases v.opsCreate parent (childName path) .file g with ⟨ok, w⟩
        cases ok with
        | false => rfl
        | true => rfl
  · exact Or.inl ⟨n, hpath, by rw [hpath]⟩

theorem vfsMkdir_cases (v : Vfs) (path : Name) (g : Grant) : v.vfsMkdir path g = (false, v) ∨
    ∃ parent ok w, v.vfsResolve (parentPath path) = some parent ∧
      Created v parent (childName path) .dir g ok w ∧ v.vfsMkdir path g = (ok, w) := by
  unfold vfsMkdir
  rcases Option.eq_none_or_eq_some (v.vfsResolve (parentPath path)) with hp | ⟨parent, hp⟩
  · exact Or.inl (by rw [hp])
  · rw [hp]
    dsimp only
    split
    · exact Or.inl rfl
    · exact Or.inr ⟨parent, _, _, rfl, v.opsCreate_created parent _ _ g, rfl⟩

/-- The child that `vfs_unlink` frees: of the resolved node's parent, the first child of its name. -/
structure Unlinks (v : Vfs) (path : Name) (dir : Nat) (name : Name) (child : Nat) : Prop where
  resolved : ∃ node, v.vfsResolve path = some node ∧ (v.nodes node).parent = some dir ∧
    (v.nodes node).name = name
  ops : (v.nodes dir).ops = .tmp
  found : ((v.nodes dir).children.find? fun c => decide ((v.nodes c).name = name)) = some child

theorem vfsUnlink_cases (v : Vfs) (path : Name) :
    (v.vfsUnlink path = (false, v) ∧ ∀ dir name child, ¬ v.Unlinks path dir name child) ∨
    ∃ dir name child, v.Unlinks path dir name child ∧ v.vfsUnlink path = (true, v.removeChild dir name child) := by
  unfold vfsUnlink
  rcases Option.eq_none_or_eq_some (v.vfsResolve path) with hpath | ⟨node, hpath⟩
  · refine Or.inl ⟨by rw [hpath], fun dir name child hu => ?_⟩
    obtain ⟨node, hnode, _⟩ := hu.resolved
    rw [hpath] at hnode
    cases hnode
  rw [hpath]
  dsimp only
  rcases Option.eq_none_or_eq_some (v.nodes node).parent with hp | ⟨dir, hp⟩
  · refine Or.inl ⟨by rw [hp], fun dir name child hu => ?_⟩
    obtain ⟨node', hnode, hparent, _⟩ := hu.resolved
    obtain rfl := Option.some.inj (hpath.symm.trans hnode)
    rw [hp] at hparent
    cases hparent
  rw [hp]
  dsimp only
  have hsame : ∀ dir' name child, v.Unlinks path dir' name child →
      dir' = dir ∧ name = (v.nodes node).name := by
    intro dir' name child hu
    obtain ⟨node', hnode, hparent, hname⟩ := hu.resolved
    obtain rfl := Option.some.inj (hpath.symm.trans hnode)
    exact ⟨Option.some.inj (hparent.symm.trans hp), hname.symm⟩
  unfold opsUnlink
  split
  · next hops =>
      refine Or.inl ⟨rfl, fun dir' name child hu => ?_⟩
      obtain ⟨rfl, _⟩ := hsame dir' name child hu
      have htmp := hu.ops
      rw [hops] at htmp
      cases htmp
  · next hops =>
      unfold tmpfsUnlink
      rcases Option.eq_none_or_eq_some ((v.nodes dir).children.find? fun c =>
        decide ((v.nodes c).name = (v.nodes node).name)) with hf | ⟨child, hf⟩
      · refine Or.inl ⟨by rw [hf], fun dir' name child hu => ?_⟩
        obtain ⟨rfl, rfl⟩ := hsame dir' name child hu
        have hfound := hu.found
        rw [hf] at hfound
        cases hfound
      · exact Or.inr ⟨dir, _, child, ⟨⟨node, hpath, hp, rfl⟩, hops, hf⟩, by rw [hf]⟩

theorem Unlinks.unique {v : Vfs} {path : Name} {d d' : Nat} {name name' : Name} {c c' : Nat}
    (h : v.Unlinks path d name c) (h' : v.Unlinks path d' name' c') : c = c' := by
  obtain ⟨node, hnode, hparent, hname⟩ := h.resolved
  obtain ⟨node', hnode', hparent', hname'⟩ := h'.resolved
  obtain rfl := Option.some.inj (hnode.symm.trans hnode')
  obtain rfl := Option.some.inj (hparent.symm.trans hparent')
  obtain rfl := hname.symm.trans hname'
  exact Option.some.inj (h.found.symm.trans h'.found)

end Vfs

end Chicago95.Kernel
