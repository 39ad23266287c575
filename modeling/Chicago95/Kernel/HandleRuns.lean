/-
# Chicago95.Kernel.HandleRuns — dangling descriptors over whole histories.

A history is any order of `vfs_open`, `vfs_mkdir`, `vfs_unlink`, the `vfs_fd_*` functions, `sys_pipe` and
writes through a descriptor, from the tree of the `init` functions and an empty table. The rest of the
kernel may change anything but the table in between (`elsewhere`): process tables, the current process.
-/
import Chicago95.Kernel.VfsHandles

namespace Chicago95.Kernel

open Chicago95.Lib.Transition

/-! ## What the table operations leave -/

theorem vfsFdAlloc_entry (g : FdTable) (node flags : Nat) (i : Fin 1024) :
    (vfsFdAlloc g node flags).2 i = g i ∨ ((vfsFdAlloc g node flags).2 i).node = node := by
  rcases vfsFdAlloc_cases g node flags with h | ⟨j, _, h⟩
  · rw [h]
    exact Or.inl rfl
  · rw [h]
    dsimp only
    by_cases hij : i = j
    · subst hij
      rw [Function.update_self]
      exact Or.inr rfl
    · rw [Function.update_of_ne hij]
      exact Or.inl rfl

theorem vfsFdAlloc_takes {g : FdTable} {i : Fin 1024} (hi : (g i).inUse = false) (node flags : Nat) :
    ∃ j, ((vfsFdAlloc g node flags).2 j).inUse = true ∧ ((vfsFdAlloc g node flags).2 j).node = node := by
  unfold vfsFdAlloc
  rcases Option.eq_none_or_eq_some ((List.finRange 1024).find? fun j => !(g j).inUse) with h | ⟨j, h⟩
  · have hall := List.find?_eq_none.mp h i (List.mem_finRange i)
    rw [hi] at hall
    exact absurd rfl hall
  · rw [h]
    refine ⟨j, ?_⟩
    dsimp only
    rw [Function.update_self]
    exact ⟨rfl, rfl⟩

theorem vfsFdDup_entry (g : FdTable) (fd : Int) (i : Fin 1024) : (vfsFdDup g fd).2 i = g i ∨
      ∃ j, (g j).inUse = true ∧ ((vfsFdDup g fd).2 i).node = (g j).node := by
  unfold vfsFdDup
  split
  · next hfd =>
      by_cases hu : (g ⟨fd.toNat, by omega⟩).inUse = true
      · simp only [hu, if_true]
        rcases vfsFdAlloc_cases g (g ⟨fd.toNat, by omega⟩).node (g ⟨fd.toNat, by omega⟩).flags with
          h | ⟨j, _, h⟩
        · rw [h]
          exact Or.inl rfl
        · rw [h]
          dsimp only
          rw [Function.update_self, Function.update_idem]
          by_cases hij : i = j
          · subst hij
            rw [Function.update_self]
            exact Or.inr ⟨_, hu, rfl⟩
          · rw [Function.update_of_ne hij]
            exact Or.inl rfl
      · simp only [hu]
        exact Or.inl rfl
  · exact Or.inl rfl

theorem sysPipe_entry (k : KState) (pipefdPtr : Nat) (nodes : Option (Nat × Nat)) (i : Fin 1024) :
    (sysPipe k pipefdPtr nodes).2.globalFdTable i = k.globalFdTable i ∨ ∃ r w, nodes = some (r, w) ∧
        (((sysPipe k pipefdPtr nodes).2.globalFdTable i).node = r ∨
          ((sysPipe k pipefdPtr nodes).2.globalFdTable i).node = w) := by
  unfold sysPipe
  split
  · exact Or.inl rfl
  split
  · exact Or.inl rfl
  split
  · exact Or.inl rfl
  · next nodeR nodeW =>
      split
      · exact Or.inl rfl
      · rcases vfsFdAlloc_cases k.globalFdTable nodeR oRdonly with h | ⟨a, _, h⟩
        · rw [h]
          exact Or.inl rfl
        · have hfirst := vfsFdAlloc_entry k.globalFdTable nodeR oRdonly i
          rw [h] at hfirst
          rw [h]
          dsimp only at hfirst ⊢
          have hsecond := vfsFdAlloc_entry
            (Function.update k.globalFdTable a (takenEntry nodeR oRdonly)) nodeW oWronly i
          rcases vfsFdAlloc_cases (Function.update k.globalFdTable a (takenEntry nodeR oRdonly))
            nodeW oWronly with h' | ⟨b, _, h'⟩
          · rw [h']
            rcases hfirst with hfirst | hfirst
            · exact Or.inl hfirst
            · exact Or.inr ⟨nodeR, nodeW, rfl, Or.inl hfirst⟩
          · rw [h'] at hsecond ⊢
            simp only [KState.setFd_globalFdTable]
            rcases hsecond with hsecond | hsecond
            · rcases hfirst with hfirst | hfirst
              · exact Or.inl (hsecond.trans hfirst)
              · exact Or.inr ⟨nodeR, nodeW, rfl, Or.inl ((congrArg FdEntry.node hsecond).trans hfirst)⟩
            · exact Or.inr ⟨nodeR, nodeW, rfl, Or.inr hsecond⟩

/-! ## The system -/

/-- The node tree, and the kernel with its `global_fd_table`. -/
structure Handles where
  vfs : Vfs
  kernel : KState

/-- The calls of a history. `granted` and the `Grant`s say which allocations succeed. -/
inductive HandleCall
  | openPath (path : Name) (creat : Bool) (g : Grant)
  | mkdir (path : Name) (g : Grant)
  | unlink (path : Name)
  | fdAlloc (node flags : Nat)
  | fdDup (fd : Int)
  | fdClose (fd : Int)
  | pipe (pipefdPtr : Nat) (gr gw : Grant) (buf : Bool)
  | write (fd : Fin 1024) (off len : Nat) (granted : Bool)
  | elsewhere (k : KState)

namespace Handles

/-- `global_fd_table` -/
def fds (s : Handles) : FdTable := s.kernel.globalFdTable

/-- `global_fd_table = g` -/
def setFds (s : Handles) (g : FdTable) : Handles := { s with kernel := s.kernel.setGlobalFds g }

/-- `sys_pipe` with the nodes it makes. -/
def sysPipe (s : Handles) (pipefdPtr : Nat) (gr gw : Grant) (buf : Bool) : Handles :=
  if s.kernel.currentProcess.isNone ∨ syscallValidateUserPtr s.kernel pipefdPtr 8 = false then s
  else
    { vfs := (s.vfs.pipeNodes gr gw buf).2
      kernel := (Kernel.sysPipe s.kernel pipefdPtr (s.vfs.pipeNodes gr gw buf).1).2 }

/-- The state after a call. -/
def next (s : Handles) : HandleCall → Handles
  | .openPath path creat g => { s with vfs := (s.vfs.vfsOpen path creat g).2 }
  | .mkdir path g => { s with vfs := (s.vfs.vfsMkdir path g).2 }
  | .unlink path => { s with vfs := (s.vfs.vfsUnlink path).2 }
  | .fdAlloc node flags => s.setFds (vfsFdAlloc s.fds node flags).2
  | .fdDup fd => s.setFds (vfsFdDup s.fds fd).2
  | .fdClose fd => s.setFds (vfsFdClose s.fds fd).2
  | .pipe pipefdPtr gr gw buf => s.sysPipe pipefdPtr gr gw buf
  | .write fd off len granted => { s with vfs := s.vfs.vfsWrite (s.fds fd).node off len granted }
  | .elsewhere k => { s with kernel := k }

/-- What the callers see to: paths fit their buffer, a descriptor is allocated for a pointer that
`vfs_new_node` once gave, writes go through an open descriptor, and the table is touched by nobody else. -/
def Allowed (s : Handles) : HandleCall → Prop
  | .openPath path _ _ => (Vfs.parentPath path).length < vfsPathLen
  | .mkdir path _ => (Vfs.parentPath path).length < vfsPathLen
  | .fdAlloc node _ => 0 < node ∧ node < s.vfs.nextNode
  | .write fd _ _ _ => (s.fds fd).inUse = true
  | .elsewhere k => k.globalFdTable = s.fds
  | _ => True

/-- One call of a history. -/
def Step (s : Handles) (call : HandleCall) (t : Handles) : Prop := s.Allowed call ∧ t = s.next call

/-- The state the histories start in: the tree as the `init` functions leave it, no descriptor. -/
def start (dev proc tmp : Bool) (k : KState) : Handles :=
  { vfs := .boot dev proc tmp, kernel := k.setGlobalFds fun _ => {} }

/-- Every descriptor in use points to a node that has not been freed, nor has a file's buffer. -/
def NoDangling (s : Handles) : Prop := ∀ i, (s.fds i).inUse = true → s.vfs.Sane (s.fds i).node

/-- The condition of each call: an unlink frees no node that a descriptor points to, a descriptor is
allocated for a node that is still there, and a write that takes a new buffer takes it away from no other
open file. -/
def Spared (s : Handles) : HandleCall → Prop
  | .unlink path => ∀ dir name child, s.vfs.Unlinks path dir name child →
      ∀ i, (s.fds i).inUse = true → (s.fds i).node ≠ child
  | .fdAlloc node _ => (∃ i, (s.fds i).inUse = false) → s.vfs.Sane node
  | .write fd off len granted => s.vfs.Grows (s.fds fd).node off len granted →
      ∀ i, (s.fds i).inUse = true → (s.fds i).node ≠ (s.fds fd).node →
        (s.vfs.nodes (s.fds i).node).type = .file →
          ∀ b, (s.vfs.nodes (s.fds fd).node).implData = some b →
            (s.vfs.nodes (s.fds i).node).implData ≠ some b
  | _ => True

/-! ## One step -/

variable {s t : Handles}

/-- What all histories keep. -/
structure Inv (s : Handles) : Prop where
  linked : s.vfs.Linked
  buffers : s.vfs.Buffers
  held : ∀ i, (s.fds i).inUse = true → 0 < (s.fds i).node ∧ (s.fds i).node < s.vfs.nextNode

theorem Inv.spares (h : s.Inv) {v : Vfs} {k : KState} (hv : s.vfs.Spares v)
    (hk : ∀ i, k.globalFdTable i = s.fds i ∨ (0 < (k.globalFdTable i).node ∧
      (k.globalFdTable i).node < v.nextNode ∧ v.Sane (k.globalFdTable i).node)) :
    (Handles.mk v k).Inv ∧ (s.NoDangling → (Handles.mk v k).NoDangling) := by
  refine ⟨⟨hv.linked, hv.buffers, fun i hi => ?_⟩, fun hn i hi => ?_⟩
  · simp only [fds] at hi ⊢
    rcases hk i with heq | ⟨hpos, hlt, _⟩
    · rw [heq] at hi ⊢
      exact ⟨(h.held i hi).1, Nat.lt_of_lt_of_le (h.held i hi).2 hv.next⟩
    · exact ⟨hpos, hlt⟩
  · simp only [fds] at hi ⊢
    rcases hk i with heq | ⟨_, _, hsane⟩
    · rw [heq] at hi ⊢
      exact hv.sane _ (h.held i hi).2 (hn i hi)
    · exact hsane

theorem Inv.setFds (h : s.Inv) {g : FdTable} (hg : ∀ i, (g i).inUse = true →
    (∃ j, (s.fds j).inUse = true ∧ (g i).node = (s.fds j).node) ∨
      (0 < (g i).node ∧ (g i).node < s.vfs.nextNode)) : (s.setFds g).Inv := by
  refine ⟨h.linked, h.buffers, fun i hi => ?_⟩
  show 0 < (g i).node ∧ (g i).node < s.vfs.nextNode
  rcases hg i hi with ⟨j, hj, hnode⟩ | hnew
  · rw [hnode]
    exact h.held j hj
  · exact hnew

theorem noDangling_setFds (s : Handles) (g : FdTable) : (s.setFds g).NoDangling ↔
    ∀ i, (g i).inUse = true → s.vfs.Sane (g i).node := Iff.rfl

theorem inv_fdClose (h : s.Inv) (fd : Int) :
    (s.next (.fdClose fd)).Inv ∧ (s.NoDangling → (s.next (.fdClose fd)).NoDangling) := by
  have hentry : ∀ i, ((vfsFdClose s.fds fd).2 i).inUse = true →
      (vfsFdClose s.fds fd).2 i = s.fds i := by
    intro i hi
    by_cases hfd : (i.val : Int) = fd
    · rw [(vfsFdClose_entry s.fds fd i).1 hfd] at hi
      cases hi
    · exact (vfsFdClose_entry s.fds fd i).2 hfd
  refine ⟨h.setFds fun i hi => ?_, fun hn i hi => ?_⟩
  · have heq := hentry i hi
    rw [heq] at hi
    exact Or.inl ⟨i, hi, by rw [heq]⟩
  · have heq := hentry i hi
    show s.vfs.Sane ((vfsFdClose s.fds fd).2 i).node
    have hi' : ((vfsFdClose s.fds fd).2 i).inUse = true := hi
    rw [heq] at hi' ⊢
    exact hn i hi'

theorem inv_fdDup (h : s.Inv) (fd : Int) :
    (s.next (.fdDup fd)).Inv ∧ (s.NoDangling → (s.next (.fdDup fd)).NoDangling) := by
  have hentry : ∀ i, ((vfsFdDup s.fds fd).2 i).inUse = true →
      ∃ j, (s.fds j).inUse = true ∧ ((vfsFdDup s.fds fd).2 i).node = (s.fds j).node := by
    intro i hi
    rcases vfsFdDup_entry s.fds fd i with heq | hj
    · rw [heq] at hi
      exact ⟨i, hi, by rw [heq]⟩
    · exact hj
  refine ⟨h.setFds fun i hi => Or.inl (hentry i hi), fun hn i hi => ?_⟩
  obtain ⟨j, hj, hnode⟩ := hentry i hi
  show s.vfs.Sane ((vfsFdDup s.fds fd).2 i).node
  rw [hnode]
  exact hn j hj

theorem fdAlloc_iff (h : s.Inv) (hn : s.NoDangling) {node flags : Nat} (hallowed : s.Allowed (.fdAlloc node flags)) :
    (s.next (.fdAlloc node flags)).Inv ∧
      ((s.next (.fdAlloc node flags)).NoDangling ↔ s.Spared (.fdAlloc node flags)) := by
  have hentry := vfsFdAlloc_entry s.fds node flags
  have hnext : s.next (.fdAlloc node flags) = s.setFds (vfsFdAlloc s.fds node flags).2 := rfl
  rw [hnext, noDangling_setFds]
  refine ⟨h.setFds fun i hi => ?_, fun ht => ?_, fun hs i hi => ?_⟩
  · rcases hentry i with heq | hnode
    · rw [heq] at hi ⊢
      exact Or.inl ⟨i, hi, rfl⟩
    · rw [hnode]
      exact Or.inr hallowed
  · rintro ⟨i, hi⟩
    obtain ⟨j, hj, hnode⟩ := vfsFdAlloc_takes hi node flags
    have hsane := ht j hj
    rwa [hnode] at hsane
  · rcases vfsFdAlloc_cases s.fds node flags with hfull | ⟨j, hfree, _⟩
    · rw [hfull] at hi ⊢
      exact hn i hi
    · rcases hentry i with heq | hnode
      · rw [heq] at hi ⊢
        exact hn i hi
      · rw [hnode]
        exact hs ⟨j, hfree⟩

theorem inv_pipe (h : s.Inv) (pipefdPtr : Nat) (gr gw : Grant) (buf : Bool) : (s.next (.pipe pipefdPtr gr gw buf)).Inv ∧
      (s.NoDangling → (s.next (.pipe pipefdPtr gr gw buf)).NoDangling) := by
  have hnext : s.next (.pipe pipefdPtr gr gw buf) = s.sysPipe pipefdPtr gr gw buf := rfl
  rw [hnext, sysPipe]
  split
  · exact ⟨h, id⟩
  · obtain ⟨hspares, hnodes⟩ := h.linked.spares_pipeNodes h.buffers gr gw buf
    refine h.spares hspares fun i => ?_
    rcases sysPipe_entry s.kernel pipefdPtr (s.vfs.pipeNodes gr gw buf).1 i with
      heq | ⟨r, w, hsome, hnode⟩
    · exact Or.inl heq
    · exact Or.inr (hnodes r w hsome _ hnode)

theorem unlink_iff (h : s.Inv) (hn : s.NoDangling) (path : Name) :
    (s.next (.unlink path)).Inv ∧ ((s.next (.unlink path)).NoDangling ↔ s.Spared (.unlink path)) := by
  have hnext : s.next (.unlink path) = Handles.mk (s.vfs.vfsUnlink path).2 s.kernel := rfl
  rcases s.vfs.vfsUnlink_cases path with ⟨hun, hnone⟩ | ⟨d, name, c, hu, hun⟩
  · rw [hnext, hun]
    exact ⟨h, iff_of_true hn fun d name c hu => absurd hu (hnone d name c)⟩
  · rw [hnext, hun]
    have hd := h.linked.unlinks_live hu
    obtain ⟨hbuf, hgone, hsane⟩ := h.linked.buffers_removeChild h.buffers hd hu.found
    have hnextNode : (s.vfs.removeChild d name c).nextNode = s.vfs.nextNode :=
      Vfs.freeNode_nextNode s.vfs c
    refine ⟨⟨h.linked.removeChild hd hu.found, hbuf, fun i hi => ?_⟩, fun ht => ?_, fun hs i hi => ?_⟩
    · show 0 < (s.fds i).node ∧ (s.fds i).node < (s.vfs.removeChild d name c).nextNode
      rw [hnextNode]
      exact h.held i hi
    · intro d' name' c' hu' i hi heq
      obtain rfl := hu.unique hu'
      exact hgone (heq ▸ ht i hi)
    · exact hsane _ (h.held i hi).2 (hs d name c hu i hi) (hn i hi)

theorem write_iff (h : s.Inv) (hn : s.NoDangling) {fd : Fin 1024} {off len : Nat} {granted : Bool}
    (hfd : s.Allowed (.write fd off len granted)) : (s.next (.write fd off len granted)).Inv ∧
      ((s.next (.write fd off len granted)).NoDangling ↔ s.Spared (.write fd off len granted)) := by
  have hnext : s.next (.write fd off len granted) =
      Handles.mk (s.vfs.vfsWrite (s.fds fd).node off len granted) s.kernel := rfl
  rw [hnext, Vfs.vfsWrite_eq]
  by_cases hg : s.vfs.Grows (s.fds fd).node off len granted
  · rw [if_pos hg]
    obtain ⟨hlinked, hbuf, hsane⟩ :=
      h.linked.buffers_regrow h.buffers (h.held fd hfd).2 ((off + len) % 2 ^ 64 % 2 ^ 32)
    refine ⟨⟨hlinked, hbuf, h.held⟩, fun ht _ i hi => ?_, fun hs i hi => ?_⟩
    · exact (hsane _ (hn i hi)).mp (ht i hi)
    · exact (hsane _ (hn i hi)).mpr (hs hg i hi)
  · rw [if_neg hg]
    exact ⟨h, iff_of_true hn fun hg' => absurd hg' hg⟩

theorem step_iff (h : s.Inv) (hn : s.NoDangling) {call : HandleCall} (hst : s.Step call t) :
    t.Inv ∧ (t.NoDangling ↔ s.Spared call) := by
  obtain ⟨hallowed, rfl⟩ := hst
  cases call with
  | openPath path creat g =>
    obtain ⟨hi, ht⟩ := h.spares (k := s.kernel)
      (Vfs.spares_vfsOpen h.linked h.buffers path creat g) fun i => Or.inl rfl
    exact ⟨hi, iff_of_true (ht hn) trivial⟩
  | mkdir path g =>
    obtain ⟨hi, ht⟩ := h.spares (k := s.kernel)
      (Vfs.spares_vfsMkdir h.linked h.buffers path g) fun i => Or.inl rfl
    exact ⟨hi, iff_of_true (ht hn) trivial⟩
  | unlink path => exact unlink_iff h hn path
  | fdAlloc node flags => exact fdAlloc_iff h hn hallowed
  | fdDup fd => exact ⟨(inv_fdDup h fd).1, iff_of_true ((inv_fdDup h fd).2 hn) trivial⟩
  | fdClose fd => exact ⟨(inv_fdClose h fd).1, iff_of_true ((inv_fdClose h fd).2 hn) trivial⟩
  | pipe pipefdPtr gr gw buf =>
    obtain ⟨hi, ht⟩ := inv_pipe h pipefdPtr gr gw buf
    exact ⟨hi, iff_of_true (ht hn) trivial⟩
  | write fd off len granted => exact write_iff h hn hallowed
  | elsewhere k =>
    obtain ⟨hi, ht⟩ := h.spares (k := k) (.refl h.linked h.buffers) fun i =>
      Or.inl (congrFun hallowed i)
    exact ⟨hi, iff_of_true (ht hn) trivial⟩

/-! ## Histories -/

theorem inv_start (dev proc tmp : Bool) (k : KState) : (start dev proc tmp k).Inv :=
  ⟨Vfs.linked_boot dev proc tmp, Vfs.buffers_boot dev proc tmp, fun _ hi => nomatch hi⟩

theorem noDangling_start (dev proc tmp : Bool) (k : KState) : (start dev proc tmp k).NoDangling :=
  fun _ hi => nomatch hi

/-- **Descriptors over whole histories.** None ever dangles exactly when every call meets its
condition. -/
theorem noDangling_run_iff (dev proc tmp : Bool) (k : KState) {tr : List (HandleCall × Handles)}
    (htr : Trace Step (start dev proc tmp k) tr) :
    AllStates NoDangling (start dev proc tmp k) tr ↔ Guarded Spared (start dev proc tmp k) tr := by
  refine htr.allSteps_iff_guarded (J := fun (s : Handles) => s.Inv ∧ s.NoDangling) ?_ ?_
    ⟨inv_start dev proc tmp k, noDangling_start dev proc tmp k⟩
  · intro s call t hs hst
    exact (step_iff hs.1 hs.2 hst).2
  · intro s call t hs hst ht
    exact ⟨(step_iff hs.1 hs.2 hst).1, ht⟩

/-! ## A file unlinked while it is open -/

/-- `/tmp/a` and `/tmp/b` -/
def fileA : Name := ['/', 't', 'm', 'p', '/', 'a']
def fileB : Name := ['/', 't', 'm', 'p', '/', 'b']

/-- The tree with everything in it, no process running. -/
def quiet : Handles := start true true true .bare

/-- `/tmp/a` made, and a descriptor allocated for its node. -/
def opened : Handles := (quiet.next (.openPath fileA true plenty)).next (.fdAlloc 14 0)

theorem quiet_fds (i : Fin 1024) : (quiet.fds i).inUse = false := rfl

theorem next_fdAlloc (s : Handles) (node flags : Nat) :
    s.next (.fdAlloc node flags) = s.setFds (vfsFdAlloc s.fds node flags).2 := rfl

theorem fds_setFds (s : Handles) (g : FdTable) : (s.setFds g).fds = g := rfl

theorem fds_openPath (s : Handles) (path : Name) (creat : Bool) (g : Grant) :
    (s.next (.openPath path creat g)).fds = s.fds := rfl

theorem fds_unlink (s : Handles) (path : Name) : (s.next (.unlink path)).fds = s.fds := rfl

theorem opened_fds : opened.fds = (vfsFdAlloc quiet.fds 14 0).2 := by
  rw [opened, next_fdAlloc, fds_setFds, fds_openPath]

theorem opened_entry {i : Fin 1024} (hi : (opened.fds i).inUse = true) : (opened.fds i).node = 14 := by
  rw [opened_fds] at hi ⊢
  rcases vfsFdAlloc_entry quiet.fds 14 0 i with hold | hnode
  · rw [hold, quiet_fds] at hi
    cases hi
  · exact hnode

theorem openPath_allowed (s : Handles) {path : Name} (h : (Vfs.parentPath path).length < vfsPathLen) :
    s.Allowed (.openPath path true plenty) := h

theorem fdAlloc_allowed : (quiet.next (.openPath fileA true plenty)).Allowed (.fdAlloc 14 0) :=
  show 0 < 14 ∧ 14 < (quiet.next (.openPath fileA true plenty)).vfs.nextNode by decide +kernel

theorem fdAlloc_spared : (quiet.next (.openPath fileA true plenty)).Spared (.fdAlloc 14 0) := by
  intro _
  refine ⟨by decide +kernel, fun _ b hb => ?_⟩
  have hdata : ((quiet.next (.openPath fileA true plenty)).vfs.nodes 14).implData = some 1 := by
    decide +kernel
  obtain rfl := Option.some.inj (hdata.symm.trans hb)
  decide +kernel

/-- The tree with both files. -/
def bothFiles : Vfs := (opened.next (.openPath fileB true plenty)).vfs

theorem bothFiles_unlinks {dir : Nat} {name : Name} {child : Nat}
    (hu : bothFiles.Unlinks fileB dir name child) : child = 15 := by
  have hself : bothFiles.Unlinks fileB 13 ['b'] 15 := by
    have hresolve : bothFiles.vfsResolve fileB = some 15 := by decide +kernel
    have hparent : (bothFiles.nodes 15).parent = some 13 := by decide +kernel
    exact ⟨⟨15, hresolve, hparent, by decide +kernel⟩, by decide +kernel, by decide +kernel⟩
  exact hu.unique hself

theorem unlink_spared : (opened.next (.openPath fileB true plenty)).Spared (.unlink fileB) := by
  intro dir name child hu i hi heq
  have hchild := bothFiles_unlinks hu
  rw [fds_openPath] at hi heq
  have hnode := opened_entry hi
  omega

/-- A second file is made and unlinked while the descriptor points to the first. -/
theorem fileB_noDangling : AllStates NoDangling quiet (traceOf next quiet
      [.openPath fileA true plenty, .fdAlloc 14 0, .openPath fileB true plenty, .unlink fileB]) := by
  refine (noDangling_run_iff true true true .bare (.cons ⟨?_, rfl⟩ (.cons ⟨fdAlloc_allowed, rfl⟩
    (.cons ⟨?_, rfl⟩ (.cons ⟨?_, rfl⟩ (.nil _)))))).mpr
    ⟨trivial, fdAlloc_spared, trivial, unlink_spared, trivial⟩
  · exact openPath_allowed _ (by decide)
  · exact openPath_allowed _ (by decide)
  · exact trivial

/-- `/tmp/a` is opened and unlinked: its node is freed, and the descriptor still points to it. -/
theorem fileA_unlinked_dangles : ¬ ∀ (dev proc tmp : Bool) (k : KState) (tr : List (HandleCall × Handles)),
        Trace Step (start dev proc tmp k) tr → AllStates NoDangling (start dev proc tmp k) tr := by
  intro hall
  have hfirst : quiet.Allowed (.openPath fileA true plenty) := openPath_allowed _ (by decide)
  have hlast : opened.Allowed (.unlink fileA) := trivial
  have htr : Trace Step quiet (traceOf next quiet
      [.openPath fileA true plenty, .fdAlloc 14 0, .unlink fileA]) :=
    .cons ⟨hfirst, rfl⟩ (.cons ⟨fdAlloc_allowed, rfl⟩ (.cons ⟨hlast, rfl⟩ (.nil _)))
  obtain ⟨_, _, hdangling, _⟩ := hall true true true .bare _ htr
  have hnone : (opened.next (.unlink fileA)).NoDangling := hdangling
  obtain ⟨j, hj, hnode⟩ := vfsFdAlloc_takes (quiet_fds 0) 14 0
  rw [← opened_fds, ← fds_unlink opened fileA] at hj hnode
  have hsane := hnone j hj
  have hfreed : (opened.next (.unlink fileA)).vfs.freedNode 14 = true := by decide +kernel
  rw [hnode] at hsane
  exact absurd (hsane.1.symm.trans hfreed) (by decide)

end Handles

end Chicago95.Kernel
