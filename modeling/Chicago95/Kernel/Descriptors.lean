/-
# Chicago95.Kernel.Descriptors — the two descriptor tables of `vfs.c` and `syscall.c`.

A process's `fd_table` holds indices into `global_fd_table`; the global entries carry the open file, and
`in_use` is all there is to say whether an entry is taken: there is no reference count.
-/
import Chicago95.Kernel.ProcessTable

namespace Chicago95.Kernel

open Chicago95.Lib.Loop

/-! ## `vfs_fd_*` -/

/-- `global_fd_table` -/
abbrev FdTable := Fin 1024 → FdEntry

/-- A global entry that has just been taken. -/
def takenEntry (node flags : Nat) : FdEntry :=
  { inUse := true, node := node, flags := flags, offset := 0 }

/-- `vfs_fd_alloc`: the first entry not in use, or `none` for `-1`. -/
def vfsFdAlloc (g : FdTable) (node flags : Nat) : Option (Fin 1024) × FdTable :=
  match (List.finRange 1024).find? fun i => !(g i).inUse with
  | none => (none, g)
  | some i => (some i, Function.update g i (takenEntry node flags))

def vfsFdClose (g : FdTable) (fd : Int) : Int × FdTable :=
  if h : 0 ≤ fd ∧ fd < 1024 then
    let i : Fin 1024 := ⟨fd.toNat, by omega⟩
    if (g i).inUse then
      (0, Function.update g i { g i with inUse := false, node := 0, offset := 0 })
    else (-1, g)
  else (-1, g)

def vfsFdDup (g : FdTable) (oldfd : Int) : Option (Fin 1024) × FdTable :=
  if h : 0 ≤ oldfd ∧ oldfd < 1024 then
    let old : Fin 1024 := ⟨oldfd.toNat, by omega⟩
    if (g old).inUse then
      match vfsFdAlloc g (g old).node (g old).flags with
      | (none, g) => (none, g)
      | (some new, g) => (some new, Function.update g new { g new with offset := (g old).offset })
    else (none, g)
  else (none, g)

/-! ## The system calls -/

/-- The first entry of a process's table that is `-1`. -/
def findFreeFd (t : Fin 16 → Int) : Option (Fin 16) :=
  (List.finRange 16).find? fun i => decide (t i = -1)

/-- `proc->fd_table[fd] = v` -/
def KState.setFd (k : KState) (c : Slot) (fd : Fin 16) (v : Int) : KState :=
  k.setProcess c { k.processes c with fdTable := Function.update (k.processes c).fdTable fd v }

/-- `global_fd_table = g` -/
def KState.setGlobalFds (k : KState) (g : FdTable) : KState := { k with globalFdTable := g }

/-- `sys_open`, from the result of `vfs_open` on. -/
def sysOpen (k : KState) (opened : Option Nat) (flags : Nat) : Int × KState :=
  match k.currentProcess with
  | none => (-1, k)
  | some c =>
    match opened with
    | none => (-1, k)
    | some node =>
      match findFreeFd (k.processes c).fdTable with
      | none => (-1, k)
      | some slot =>
        match vfsFdAlloc k.globalFdTable node (flags % 2 ^ 32) with
        | (none, _) => (-1, k)
        | (some i, g) => ((slot.val : Int), (k.setGlobalFds g).setFd c slot (i.val : Int))

def sysDup (k : KState) (oldfd : Nat) : Int × KState :=
  match k.currentProcess with
  | none => (-1, k)
  | some c =>
    if h : oldfd < 16 then
      let oldVfsFd := (k.processes c).fdTable ⟨oldfd, h⟩
      if oldVfsFd < 0 then (-1, k)
      else
        match findFreeFd (k.processes c).fdTable with
        | none => (-1, k)
        | some slot =>
          match vfsFdDup k.globalFdTable oldVfsFd with
          | (none, _) => (-1, k)
          | (some i, g) => ((slot.val : Int), (k.setGlobalFds g).setFd c slot (i.val : Int))
    else (-1, k)

/-- `O_RDONLY`, `O_WRONLY` -/
def oRdonly : Nat := 0
def oWronly : Nat := 1

/-- The two free entries `sys_pipe` looks for: the first, and the next one after it. -/
def findTwoFreeFds (t : Fin 16 → Int) : Option (Fin 16 × Fin 16) :=
  match (List.finRange 16).filter fun i => decide (t i = -1) with
  | rd :: wr :: _ => some (rd, wr)
  | _ => none

/-- `sys_pipe`. `nodes` are the read and write nodes, `none` when one of them or the buffer could not be
allocated. -/
def sysPipe (k : KState) (pipefdPtr : Nat) (nodes : Option (Nat × Nat)) : Int × KState :=
  match k.currentProcess with
  | none => (-1, k)
  | some c =>
    if syscallValidateUserPtr k pipefdPtr 8 = false then (-1, k)
    else
      match nodes with
      | none => (-1, k)
      | some (nodeR, nodeW) =>
        match findTwoFreeFds (k.processes c).fdTable with
        | none => (-1, k)
        | some (rd, wr) =>
          match vfsFdAlloc k.globalFdTable nodeR oRdonly with
          | (none, _) => (-1, k)
          | (some rfd, g) =>
            match vfsFdAlloc g nodeW oWronly with
            | (none, g) => (-1, k.setGlobalFds g)
            | (some wfd, g) =>
              (0, ((k.setGlobalFds g).setFd c rd (rfd.val : Int)).setFd c wr
                (wfd.val : Int))

def sysClose (k : KState) (fd : Nat) : Int × KState :=
  match k.currentProcess with
  | none => (-1, k)
  | some c =>
    if h : fd < 16 then
      let vfsFd := (k.processes c).fdTable ⟨fd, h⟩
      if vfsFd < 0 then (-1, k)
      else (0, (k.setGlobalFds (vfsFdClose k.globalFdTable vfsFd).2).setFd c ⟨fd, h⟩ (-1))
    else (-1, k)

/-- One pass of the closing loop of `sys_exit`. -/
def closeFd (c : Slot) (i : Nat) (k : KState) : KState :=
  if h : i < 16 then
    let vfsFd := (k.processes c).fdTable ⟨i, h⟩
    if 0 ≤ vfsFd then
      (k.setGlobalFds (vfsFdClose k.globalFdTable vfsFd).2).setFd c ⟨i, h⟩ (-1)
    else k
  else k

/-- `sys_exit`: close all descriptors of the caller, then exit. -/
def sysExit (L : Layout) (k : KState) (code : Int) : Control × KState :=
  let k := match k.currentProcess with
    | none => k
    | some c => forEach 16 (closeFd c) k
  processExit L k code

/-! ## What the operations do to the tables -/

theorem vfsFdAlloc_cases (g : FdTable) (node flags : Nat) : vfsFdAlloc g node flags = (none, g) ∨
    ∃ i, (g i).inUse = false ∧ vfsFdAlloc g node flags = (some i, Function.update g i (takenEntry node flags)) := by
  unfold vfsFdAlloc
  cases h : (List.finRange 1024).find? fun i => !(g i).inUse with
  | none => exact Or.inl rfl
  | some i =>
    refine Or.inr ⟨i, ?_, rfl⟩
    simpa using List.find?_some h

theorem findFreeFd_eq {t : Fin 16 → Int} {slot : Fin 16} (h : findFreeFd t = some slot) : t slot = -1 := by
  simpa using List.find?_some h

theorem findTwoFreeFds_eq {t : Fin 16 → Int} {rd wr : Fin 16} (h : findTwoFreeFds t = some (rd, wr)) :
    t rd = -1 ∧ t wr = -1 ∧ rd < wr := by
  unfold findTwoFreeFds at h
  split at h
  · rename_i rd' wr' rest hfree
    obtain ⟨rfl, rfl⟩ := Prod.mk.inj (Option.some.inj h)
    have hmem : ∀ i, i ∈ rd' :: wr' :: rest → t i = -1 := fun i hi => by
      rw [← hfree] at hi
      simpa using (List.mem_filter.mp hi).2
    have hsorted := (List.pairwise_lt_finRange 16).filter fun i => decide (t i = -1)
    rw [hfree] at hsorted
    exact ⟨hmem rd' (by simp), hmem wr' (by simp), List.rel_of_pairwise_cons hsorted (by simp)⟩
  · cases h

theorem vfsFdClose_entry (g : FdTable) (fd : Int) (i : Fin 1024) :
    ((i.val : Int) = fd → ((vfsFdClose g fd).2 i).inUse = false) ∧
    ((i.val : Int) ≠ fd → (vfsFdClose g fd).2 i = g i) := by
  unfold vfsFdClose
  by_cases h : 0 ≤ fd ∧ fd < 1024
  · rw [dif_pos h]
    by_cases hu : (g ⟨fd.toNat, by omega⟩).inUse = true
    · simp only [hu, if_true]
      refine ⟨fun hi => ?_, fun hi => ?_⟩
      · have hi' : i = ⟨fd.toNat, by omega⟩ := Fin.ext (by simp only; omega)
        rw [hi', Function.update_self]
      · refine Function.update_of_ne (fun heq => hi ?_) _ _
        rw [heq]
        simp only
        omega
    · simp only [hu]
      refine ⟨fun hi => ?_, fun _ => rfl⟩
      have hi' : i = ⟨fd.toNat, by omega⟩ := Fin.ext (by simp only; omega)
      rw [hi']
      simpa using hu
  · rw [dif_neg h]
    refine ⟨fun hi => ?_, fun _ => rfl⟩
    have hlt := i.isLt
    omega

theorem vfsFdDup_cases (g : FdTable) (oldfd : Int) : (vfsFdDup g oldfd).1 = none ∨
    ∃ i e, (g i).inUse = false ∧ e.inUse = true ∧ vfsFdDup g oldfd = (some i, Function.update g i e) := by
  unfold vfsFdDup
  by_cases h : 0 ≤ oldfd ∧ oldfd < 1024
  · rw [dif_pos h]
    by_cases hu : (g ⟨oldfd.toNat, by omega⟩).inUse = true
    · simp only [hu, if_true]
      rcases vfsFdAlloc_cases g (g ⟨oldfd.toNat, by omega⟩).node (g ⟨oldfd.toNat, by omega⟩).flags with
        ha | ⟨i, hi, ha⟩
      · exact Or.inl (by rw [ha])
      · simp only [ha, Function.update_idem]
        exact Or.inr ⟨i, _, hi, by simp [takenEntry], rfl⟩
    · exact Or.inl (by simp [hu])
  · exact Or.inl (by rw [dif_neg h])

namespace KState

@[simp] theorem setFd_globalFdTable (k : KState) (c : Slot) (fd : Fin 16) (v : Int) :
    (k.setFd c fd v).globalFdTable = k.globalFdTable := rfl
@[simp] theorem setFd_currentProcess (k : KState) (c : Slot) (fd : Fin 16) (v : Int) :
    (k.setFd c fd v).currentProcess = k.currentProcess := rfl
@[simp] theorem setGlobalFds_globalFdTable (k : KState) (g : FdTable) : (k.setGlobalFds g).globalFdTable = g := rfl
@[simp] theorem setGlobalFds_currentProcess (k : KState) (g : FdTable) :
    (k.setGlobalFds g).currentProcess = k.currentProcess := rfl
@[simp] theorem setGlobalFds_processes (k : KState) (g : FdTable) : (k.setGlobalFds g).processes = k.processes := rfl

@[simp] theorem setFd_fdTable_self (k : KState) (c : Slot) (fd : Fin 16) (v : Int) :
    ((k.setFd c fd v).processes c).fdTable = Function.update (k.processes c).fdTable fd v := by
  simp [setFd]

theorem setFd_processes_of_ne (k : KState) {c j : Slot} (fd : Fin 16) (v : Int) (h : j ≠ c) :
    (k.setFd c fd v).processes j = k.processes j := by
  simp [setFd, h]

@[simp] theorem setFd_state (k : KState) (c : Slot) (fd : Fin 16) (v : Int) (j : Slot) :
    ((k.setFd c fd v).processes j).state = (k.processes j).state := by
  by_cases h : j = c
  · subst h; simp [setFd]
  · rw [setFd_processes_of_ne k fd v h]

end KState

end Chicago95.Kernel
