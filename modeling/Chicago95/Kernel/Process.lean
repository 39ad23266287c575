/-
# Chicago95.Kernel.Process — the process manager of `process.c` and the context switch of `isr.asm`.

The kernel state is the process table, the current slot, the timer, the CPU (registers and the words
of the kernel's own stacks), physical memory with its page manager, and the global descriptor table.
Every function of `process.c` that changes it is a function on `KState` here.

Conventions.
-/
import Mathlib
import Chicago95.Lib.X86
import Chicago95.Kernel.Vmm

namespace Chicago95.Kernel

open Chicago95.Lib.X86

/-! ## The process table -/

/-- A slot of `processes[MAX_PROCESSES]`. -/
abbrev Slot := Fin 64

/-- Slots 0 and 1, the first two to be filled. -/
def firstSlot : Slot := ⟨0, Nat.succ_pos 63⟩
def secondSlot : Slot := ⟨1, Nat.succ_lt_succ (Nat.succ_pos 62)⟩

def processNameLen : Nat := 32
def processStackSize : Nat := 16 * 1024
def processUserStack : Nat := 64 * 1024
def processHeapSize : Nat := 256 * 1024

/-- `proc_state_t` -/
inductive ProcState where
  | unused | ready | running | blocked | zombie
  deriving DecidableEq, Repr

/-- `proc_ring_t` -/
inductive Ring where
  | ring0 | ring3
  deriving DecidableEq, Repr

/-- `process_context_t` -/
structure ProcessContext where
  r15 : Nat := 0
  r14 : Nat := 0
  r13 : Nat := 0
  r12 : Nat := 0
  r11 : Nat := 0
  r10 : Nat := 0
  r9 : Nat := 0
  r8 : Nat := 0
  rbp : Nat := 0
  rdi : Nat := 0
  rsi : Nat := 0
  rdx : Nat := 0
  rcx : Nat := 0
  rbx : Nat := 0
  rax : Nat := 0
  rip : Nat := 0
  cs : Nat := 0
  rflags : Nat := 0
  rsp : Nat := 0
  ss : Nat := 0

/-- `KERNEL_CS`, `KERNEL_DS`, `USER_CS`, `USER_DS` -/
def kernelCs : Nat := 0x08
def kernelDs : Nat := 0x10
def userCs : Nat := 0x1B
def userDs : Nat := 0x23

/-- `process_t`. The defaults are what `memset(proc, 0, sizeof(process_t))` leaves. -/
structure Process where
  pid : Int := 0
  ppid : Int := 0
  state : ProcState := .unused
  ring : Ring := .ring0
  name : List UInt8 := []
  /-- PML4 physical address (0 = kernel shared) -/
  cr3 : Nat := 0
  /-- Kernel-mode stack (top) -/
  kernelStack : Nat := 0
  /-- User-mode stack (top) -/
  userStack : Nat := 0
  userHeap : Nat := 0
  userHeapEnd : Nat := 0
  brk : Nat := 0
  entryPoint : Nat := 0
  exitCode : Int := 0
  /-- For sleeping processes -/
  wakeTime : Nat := 0
  context : ProcessContext := {}
  /-- Saved kernel RSP for context switch -/
  savedRsp : Nat := 0
  fdTable : Fin 16 → Int := fun _ => 0
  cwd : List UInt8 := []

/-- `vfs_fd_entry_t`; `node` is the node's address, `0` for `NULL`. -/
structure FdEntry where
  node : Nat := 0
  flags : Nat := 0
  offset : Nat := 0
  inUse : Bool := false

/-! ## Link-time layout -/

/-- The virtual address the kernel image is linked at. -/
def kernelImageBase : Nat := 0xFFFFFFFF80000000 + 0x200000

/-- Addresses fixed at link time, with what the linker script and C guarantee of them: the stacks
array and the code lie in the image, inside the address space, and distinct objects do not overlap. -/
structure Layout where
  /-- `&kernel_stacks[0][0]` -/
  kernelStacks : Nat
  /-- `process_trampoline` -/
  processTrampoline : Nat
  /-- `&processes[i].saved_rsp` -/
  savedRspAddr : Slot → Nat
  kernelStacks_ge : kernelImageBase ≤ kernelStacks
  kernelStacks_end : kernelStacks + 64 * processStackSize ≤ 2 ^ 64
  kernelStacks_align : 16 ∣ kernelStacks
  trampoline_ge : kernelImageBase ≤ processTrampoline
  savedRspAddr_outside : ∀ i,
    savedRspAddr i < kernelStacks ∨ kernelStacks + 64 * processStackSize ≤ savedRspAddr i

/-- One possible link map: the stacks array a megabyte into the image, the process table after it. -/
def sampleLayout : Layout where
  kernelStacks := 0xFFFFFFFF80300000
  processTrampoline := 0xFFFFFFFF80201000
  savedRspAddr i := 0xFFFFFFFF80400000 + 512 * i.val
  kernelStacks_ge := by decide
  kernelStacks_end := by decide
  kernelStacks_align := by decide
  trampoline_ge := by decide
  savedRspAddr_outside i := Or.inr (by simp only [processStackSize]; omega)

/-- `&kernel_stacks[pid][PROCESS_STACK_SIZE / 8]` -/
def Layout.stackTop (L : Layout) (pid : Slot) : Nat :=
  L.kernelStacks + (pid.val + 1) * processStackSize

/-- The kernel state. -/
structure KState where
  vm : Vm
  /-- The CR3 register. -/
  cr3 : Nat
  cpu : Cpu
  processes : Slot → Process
  currentProcess : Option Slot
  timerTicks : Nat
  /-- `tss.rsp0` -/
  tssRsp0 : Nat
  /-- `global_fd_table[VFS_MAX_FDS * MAX_PROCESSES]` -/
  globalFdTable : Fin 1024 → FdEntry

namespace KState

/-- A machine with no memory to manage: page 0 is the only page, and it is taken. -/
def bare : KState where
  vm := { mem := fun _ _ => 0, pmm := { bitmap := fun _ => true, totalPages := 1, usedPages := 1 } }
  cr3 := 0
  cpu := { reg := fun _ => 0, rip := 0, rflags := 0x202, mem := fun _ => 0 }
  processes := fun _ => {}
  currentProcess := none
  timerTicks := 0
  tssRsp0 := 0
  globalFdTable := fun _ => {}

/-- Replace one process-table entry. -/
def setProcess (k : KState) (i : Slot) (p : Process) : KState :=
  { k with processes := Function.update k.processes i p }

/-- `current_process` as the source's `int`. -/
def currentPid (k : KState) : Int :=
  match k.currentProcess with
  | some c => (c.val : Int)
  | none => -1

end KState

/-! ## Initialisation and creation -/

def processInit (k : KState) : KState :=
  { k with
    processes := fun _ => { pid := -1, state := .unused, savedRsp := 0, cwd := [0x2F],
                            fdTable := fun _ => -1 }
    currentProcess := none }

/-- The slot search of `process_create` and `process_fork`: the first unused entry. -/
def findUnused (procs : Slot → Process) : Option Slot :=
  (List.finRange 64).find? fun i => decide ((procs i).state = .unused)

/-- The mapping loops of `process_create`: a zeroed page at `base`, `base + 4096`, … until `count`
pages are mapped or no page is left. -/
def mapFreshPages (cr3 flags : Nat) : Nat → Nat → Vm → Vm
  | _, 0, s => s
  | base, count + 1, s =>
    let (page, s) := s.allocPage
    if page = 0 then s
    else
      mapFreshPages cr3 flags (base + pageSize) count
        (vmmMapPage (s.zeroPage page) cr3 base page flags)

/-- The address-space part of `process_create`: the new PML4 (or 0), with the user stack and heap
ranges mapped into it. -/
def createAddressSpace (vm : Vm) (cr3 userStack userHeap : Nat) : Nat × Vm :=
  let (pml4, vm) := vmmCreateAddressSpace vm cr3
  if pml4 = 0 then (0, vm)
  else
    let vm := mapFreshPages pml4 (pml4Rw ||| pml4User) (userStack - processUserStack)
      (processUserStack / pageSize) vm
    let vm := mapFreshPages pml4 (pml4Rw ||| pml4User) userHeap (processHeapSize / pageSize) vm
    (pml4, vm)

/-- The initial kernel stack, written downwards from the top exactly in the source's order: six zeros,
then the address of `process_trampoline`. -/
def initialStack (L : Layout) (top : Nat) (c : Cpu) : Cpu :=
  let c := c.setMem (top - 8) 0                       -- r15 = 0
  let c := c.setMem (top - 16) 0                      -- r14 = 0
  let c := c.setMem (top - 24) 0                      -- r13 = 0
  let c := c.setMem (top - 32) 0                      -- r12 = 0
  let c := c.setMem (top - 40) 0                      -- rbx = 0
  let c := c.setMem (top - 48) 0                      -- rbp = 0
  c.setMem (top - 56) L.processTrampoline             -- return address

/-- The initial `context` of a process. -/
def initialContext (entry kernelStack userStack : Nat) : Ring → ProcessContext
  | .ring0 => { rip := entry, rflags := 0x202, cs := kernelCs, ss := kernelDs, rsp := kernelStack }
  | .ring3 => { rip := entry, rflags := 0x202, cs := userCs, ss := userDs, rsp := userStack }

/-- The table entry `process_create` fills in, once its slot and its PML4 are known. -/
def freshProcess (L : Layout) (ppid : Int) (pid : Slot) (cr3 entry : Nat) (name : List UInt8)
    (ring : Ring) : Process :=
  let kernelStack := L.stackTop pid
  let userStack := kernelStack - processUserStack
  let userHeap := userStack - processHeapSize
  { pid := (pid.val : Int)
    ppid := ppid
    state := .ready
    ring := ring
    cwd := [0x2F]
    name := (name.takeWhile (· ≠ 0)).take (processNameLen - 1)
    kernelStack := kernelStack
    userStack := userStack
    userHeap := userHeap
    userHeapEnd := userHeap
    brk := userHeap
    entryPoint := entry
    cr3 := cr3
    context := initialContext entry kernelStack userStack ring
    savedRsp := kernelStack - 56 }

/-- `process_create`: the pid, or `-1` when the table is full. -/
def processCreate (L : Layout) (k : KState) (entry : Nat) (name : List UInt8) (ring : Ring) :
    Int × KState :=
  match findUnused k.processes with
  | none => (-1, k)
  | some pid =>
    let userStack := L.stackTop pid - processUserStack
    let userHeap := userStack - processHeapSize
    let (cr3, vm) := createAddressSpace k.vm k.cr3 userStack userHeap
    let cpu := initialStack L (L.stackTop pid) k.cpu
    ((pid.val : Int),
      { k with vm := vm, cpu := cpu }.setProcess pid
        (freshProcess L k.currentPid pid cr3 entry name ring))

/-- The table entry `process_fork` makes of the parent's, once the child's slot and PML4 are known. -/
def forkedProcess (parent : Process) (ppid : Int) (pid : Slot) (cr3 : Nat) : Process :=
  { parent with
    pid := (pid.val : Int)
    ppid := ppid
    state := .ready
    exitCode := 0
    cr3 := cr3
    context := { parent.context with rax := 0 } }

/-- The address-space part of `process_fork`: nothing when the parent has none, else a new PML4 (or 0)
with the parent's lower half cloned into it. -/
def forkAddressSpace (vm : Vm) (cr3 parentCr3 : Nat) : Nat × Vm :=
  if parentCr3 = 0 then (0, vm)
  else
    let (pml4, vm) := vmmCreateAddressSpace vm cr3
    if pml4 = 0 then (0, vm) else (pml4, vmmCloneAddressSpace vm pml4 parentCr3)

/-- `process_fork`: the child's pid, or `-1`. -/
def processFork (k : KState) : Int × KState :=
  match k.currentProcess with
  | none => (-1, k)
  | some c =>
    match findUnused k.processes with
    | none => (-1, k)
    | some pid =>
      let parent := k.processes c
      let (cr3, vm) := forkAddressSpace k.vm k.cr3 parent.cr3
      ((pid.val : Int),
        { k with vm := vm }.setProcess pid (forkedProcess parent (c.val : Int) pid cr3))

/-! ## Context switch -/

/-- `context_switch(old_rsp, new_rsp)` of `isr.asm`, with `rdi = old_rsp` and `rsi = new_rsp`. -/
def contextSwitch : List Instr :=
  [ .push .rbp, .push .rbx, .push .r12, .push .r13, .push .r14, .push .r15,
    .store .rdi 0 .rsp,
    .mov .rsp .rsi,
    .pop .r15, .pop .r14, .pop .r13, .pop .r12, .pop .rbx, .pop .rbp,
    .ret ]

/-- The inline assembly of `process_scheduler` for the first schedule: no previous process, just load
the new RSP. -/
def firstSwitch (newRsp : Nat) : List Instr :=
  [ .movImm .rsp newRsp,
    .pop .r15, .pop .r14, .pop .r13, .pop .r12, .pop .rbx, .pop .rbp,
    .ret ]

/-! ## The scheduler -/

/-- What becomes of the caller of a scheduling function: it goes on, or the CPU continues the saved
context of another process. -/
inductive Control where
  | returned
  | switched (next : Slot)
  deriving DecidableEq, Repr

/-- A sleeper whose time has come. -/
def Process.due (p : Process) (now : Nat) : Bool :=
  decide (p.state = .blocked) && decide (0 < p.wakeTime) && decide (p.wakeTime ≤ now)

/-- The wake-up loop of `process_scheduler`. -/
def wakeSleepers (now : Nat) (procs : Slot → Process) : Slot → Process := fun i =>
  if (procs i).due now then { procs i with state := .ready, wakeTime := 0 } else procs i

/-- The round-robin search: the first ready entry after `start`, with `start` itself last. -/
def nextReady (procs : Slot → Process) (start : Nat) : Option Slot :=
  ((List.range 64).map fun i => Fin.ofNat 64 (start + 1 + i)).find? fun idx =>
    decide ((procs idx).state = .ready)

/-- Mark current as READY. -/
def markReady (k : KState) : KState :=
  match k.currentProcess with
  | none => k
  | some c =>
    if (k.processes c).state = .running then
      k.setProcess c { k.processes c with state := .ready }
    else k

/-- Make `next` the current process: its state, its address space, its stack in the TSS. -/
def activate (k : KState) (next : Slot) : KState :=
  { k.setProcess next { k.processes next with state := .running } with
    currentProcess := some next
    cr3 := if (k.processes next).cr3 ≠ 0 then (k.processes next).cr3 else k.cr3
    tssRsp0 := (k.processes next).kernelStack }

/-- The register switch at the end of `process_scheduler`, from `prev` to the stack `newRsp`. -/
def switchRegisters (L : Layout) (k : KState) (prev : Option Slot) (newRsp : Nat) : KState :=
  match prev with
  | none => { k with cpu := k.cpu.run (firstSwitch newRsp) }
  | some c =>
    let cpu := ((k.cpu.setReg .rdi (L.savedRspAddr c)).setReg .rsi newRsp).run contextSwitch
    { k with cpu := cpu }.setProcess c { k.processes c with savedRsp := cpu.mem (L.savedRspAddr c) }

/-- The part of `process_scheduler` that runs once `next` is chosen. -/
def switchTo (L : Layout) (k : KState) (next : Slot) : KState :=
  let prev := k.currentProcess
  let k := activate (markReady k) next
  switchRegisters L k prev (k.processes next).savedRsp

/-- The state after the wake-up loop. -/
def KState.woken (k : KState) : KState :=
  { k with processes := wakeSleepers k.timerTicks k.processes }

/-- `start`: the slot the round-robin search starts from. -/
def KState.schedStart (k : KState) : Nat :=
  match k.currentProcess with
  | some c => c.val
  | none => 0

def processScheduler (L : Layout) (k : KState) : Control × KState :=
  match nextReady k.woken.processes k.schedStart with
  | none => (.returned, k.woken)                              -- No process to switch to
  | some next =>
    if k.currentProcess = some next then (.returned, k.woken)   -- Already running this one
    else (.switched next, switchTo L k.woken next)

def processYield (L : Layout) (k : KState) : Control × KState := processScheduler L k

def processExit (L : Layout) (k : KState) (code : Int) : Control × KState :=
  match k.currentProcess with
  | none => (.returned, k)
  | some c =>
    if (k.processes c).pid = 0 then (.returned, k)    -- Can't kill init
    else
      let proc := k.processes c
      let vm := if proc.cr3 = 0 then k.vm else vmmDestroyAddressSpace k.vm proc.cr3
      processYield L
        ({ k with vm := vm }.setProcess c
          { proc with cr3 := 0, state := .zombie, exitCode := code })

def processSleep (L : Layout) (k : KState) (ms : Nat) : Control × KState :=
  match k.currentProcess with
  | none => (.returned, k)
  | some c =>
    processYield L
      (k.setProcess c
        { k.processes c with wakeTime := (k.timerTicks + ms) % 2 ^ 64, state := .blocked })

def processWake (k : KState) (pid : Int) : KState :=
  if h : 0 ≤ pid ∧ pid < 64 then
    let i : Slot := ⟨pid.toNat, by omega⟩
    if (k.processes i).state = .blocked then
      k.setProcess i { k.processes i with state := .ready }
    else k
  else k

end Chicago95.Kernel
