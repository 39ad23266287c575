/-
# Chicago95.Kernel.SyscallEntry — the entry stub of `isr.asm`, instruction by instruction.

`syscall_entry` parks the user's stack pointer in one global word, switches to one global stack, builds
a `syscall_frame_t` of twenty quadwords at its top, and calls `syscall_handler`; on the way out it loads
the registers back from the frame and executes `SYSRETQ`.

This module says what the two halves do to a CPU, for any register contents:

* `run_entry` — the frame the prologue leaves (`SyscallFrame.ofUser`), and where;
* `run_exit` — what the epilogue returns to, read off whatever frame it finds.
-/
import Chicago95.Lib.X86

namespace Chicago95.Kernel.Entry

open Chicago95.Lib.X86

/-! ## The image -/

/-- Where the linker puts the stub's data: the top of `_syscall_kstack`, the word
`_syscall_user_rsp_save`, and the code addresses the stub mentions. -/
structure EntryImage where
  kstackTop : Nat
  userRspSave : Nat
  /-- the address of `syscall_entry`, in `MSR_LSTAR` -/
  entry : Nat
  /-- the address of `syscall_handler` -/
  handler : Nat
  /-- the address after `call syscall_handler` -/
  handlerReturn : Nat
  /-- `resb 0x4000` -/
  room : 0x4000 ≤ kstackTop
  /-- the saved stack pointer is not on the stack -/
  saveOutside : userRspSave + 8 ≤ kstackTop - 0x4000 ∨ kstackTop ≤ userRspSave

/-- `_syscall_kstack` -/
def EntryImage.kstack (I : EntryImage) : Nat := I.kstackTop - 0x4000

/-- The address every `syscall_frame_t` is built at. -/
def EntryImage.frame (I : EntryImage) : Nat := I.kstackTop - 160

/-- `syscall_frame_t`, in the order of its fields. -/
structure SyscallFrame where
  r15 : Nat
  r14 : Nat
  r13 : Nat
  r12 : Nat
  r11 : Nat
  r10 : Nat
  r9 : Nat
  r8 : Nat
  rbp : Nat
  rdi : Nat
  rsi : Nat
  rdx : Nat
  rcx : Nat
  rbx : Nat
  rax : Nat
  rip : Nat
  cs : Nat
  rflags : Nat
  rsp : Nat
  ss : Nat

/-- The twenty quadwords of a frame, lowest address first. -/
def SyscallFrame.words (f : SyscallFrame) : List Nat :=
  [f.r15, f.r14, f.r13, f.r12, f.r11, f.r10, f.r9, f.r8, f.rbp, f.rdi, f.rsi, f.rdx, f.rcx, f.rbx,
    f.rax, f.rip, f.cs, f.rflags, f.rsp, f.ss]

/-- The registers of a user process; at a `SYSCALL`, `rip` is the address after it. -/
structure UserContext where
  reg : Reg → Nat
  rip : Nat
  rflags : Nat

/-- The user context of a CPU in user mode. -/
def UserContext.ofCpu (c : Cpu) : UserContext := ⟨c.reg, c.rip, c.rflags⟩

/-- The CPU running in this context over a memory. -/
def UserContext.load (u : UserContext) (mem : Nat → Nat) : Cpu := ⟨u.reg, u.rip, u.rflags, mem⟩

/-! ## The code -/

/-- The `SYSCALL` instruction, `rip` being the address after it: `rcx ← rip`, `r11 ← rflags`, the
interrupt flag masked (`SFMASK = 0x200`), control to `MSR_LSTAR`. -/
def syscallInstr (I : EntryImage) (c : Cpu) : Cpu :=
  { (c.setReg .rcx c.rip).setReg .r11 c.rflags with
    rip := I.entry, rflags := c.rflags &&& 0xFFFFFFFFFFFFFDFF }

/-- `syscall_entry` up to and including `call syscall_handler`. -/
def syscallEntry (I : EntryImage) : List Instr :=
  [ .storeAbs I.userRspSave .rsp,
    .movImm .rsp I.kstackTop,
    .subImm .rsp 160,
    .storeImm .rsp 152 0,
    .loadAbs .r15 I.userRspSave,
    .store .rsp 144 .r15,
    .store .rsp 136 .r11,
    .storeImm .rsp 128 0x08,
    .store .rsp 120 .rcx,
    .store .rsp 112 .rax,
    .store .rsp 104 .rbx,
    .storeImm .rsp 96 0,
    .store .rsp 88 .rdx,
    .store .rsp 80 .rsi,
    .store .rsp 72 .rdi,
    .store .rsp 64 .rbp,
    .store .rsp 56 .r8,
    .store .rsp 48 .r9,
    .store .rsp 40 .r10,
    .storeImm .rsp 32 0,
    .store .rsp 24 .r12,
    .store .rsp 16 .r13,
    .store .rsp 8 .r14,
    .store .rsp 0 .r15,
    .mov .rdi .rsp,
    .call I.handler I.handlerReturn ]

/-- The rest of `syscall_entry`, after the handler has returned. -/
def syscallExit : List Instr :=
  [ .load .rcx .rsp 120,
    .load .r11 .rsp 136,
    .load .r15 .rsp 0,
    .load .r14 .rsp 8,
    .load .r13 .rsp 16,
    .load .r12 .rsp 24,
    .load .r10 .rsp 40,
    .load .r9 .rsp 48,
    .load .r8 .rsp 56,
    .load .rbp .rsp 64,
    .load .rdi .rsp 72,
    .load .rsi .rsp 80,
    .load .rdx .rsp 88,
    .load .rbx .rsp 104,
    .load .rax .rsp 112,
    .load .rsp .rsp 144,
    .sysretq ]

/-- From user mode into `syscall_handler`. -/
def enterKernel (I : EntryImage) (c : Cpu) : Cpu := (syscallInstr I c).run (syscallEntry I)

/-- From the `ret` of `syscall_handler` back to user mode. -/
def leaveKernel (I : EntryImage) (c : Cpu) : Cpu :=
  (c.setReg .rsp (I.frame - 8)).run (.ret :: syscallExit)

/-! ## The prologue -/

/-- The frame the prologue builds for a process at its `SYSCALL`. -/
def SyscallFrame.ofUser (u : UserContext) : SyscallFrame where
  r15 := u.reg .rsp                       -- not `u.reg .r15`
  r14 := u.reg .r14
  r13 := u.reg .r13
  r12 := u.reg .r12
  r11 := 0
  r10 := u.reg .r10
  r9 := u.reg .r9
  r8 := u.reg .r8
  rbp := u.reg .rbp
  rdi := u.reg .rdi
  rsi := u.reg .rsi
  rdx := u.reg .rdx
  rcx := 0
  rbx := u.reg .rbx
  rax := u.reg .rax
  rip := u.rip
  cs := 0x08
  rflags := u.rflags
  rsp := u.reg .rsp
  ss := 0

theorem run_entry (I : EntryImage) (c : Cpu) : (enterKernel I c).reg .rsp = I.frame - 8 ∧
    (enterKernel I c).mem (I.frame - 8) = I.handlerReturn ∧
    Stored (enterKernel I c).mem I.frame (SyscallFrame.ofUser (.ofCpu c)).words := by
  obtain ⟨F, hF⟩ : ∃ F, F + 8 + 160 = I.kstackTop := ⟨I.kstackTop - 168, by have := I.room; omega⟩
  have hframe : I.frame = F + 8 := by unfold EntryImage.frame; omega
  have hsub : I.kstackTop - 160 = F + 8 := by omega
  have hsave : I.userRspSave ≠ F + 160 := by
    rcases I.saveOutside with h | h <;> have := I.room <;> omega
  rw [hframe]
  refine ⟨?_, ?_, ?_⟩
  · simp [enterKernel, syscallEntry, Cpu.run, Cpu.step, hsub]
  · simp [enterKernel, syscallEntry, Cpu.run, Cpu.step, hsub]
  · simp [enterKernel, syscallEntry, syscallInstr, Cpu.run, Cpu.step, hsub, SyscallFrame.words,
      SyscallFrame.ofUser, UserContext.ofCpu, Nat.add_assoc, hsave]

/-! ## The epilogue -/

/-- The register contents the epilogue loads from a frame. -/
def SyscallFrame.userReg (f : SyscallFrame) : Reg → Nat
  | .rax => f.rax
  | .rbx => f.rbx
  | .rcx => f.rip
  | .rdx => f.rdx
  | .rsi => f.rsi
  | .rdi => f.rdi
  | .rbp => f.rbp
  | .rsp => f.rsp
  | .r8 => f.r8
  | .r9 => f.r9
  | .r10 => f.r10
  | .r11 => f.rflags
  | .r12 => f.r12
  | .r13 => f.r13
  | .r14 => f.r14
  | .r15 => f.r15

theorem run_exit {I : EntryImage} {c : Cpu} {f : SyscallFrame} (h : Stored c.mem I.frame f.words) :
    (leaveKernel I c).rip = f.rip ∧ (leaveKernel I c).rflags = f.rflags ∧
      ∀ r, (leaveKernel I c).reg r = f.userReg r := by
  obtain ⟨F, hF⟩ : ∃ F, F + 8 = I.frame := ⟨I.frame - 8, by
    have := I.room
    unfold EntryImage.frame
    omega⟩
  have hsub : I.frame - 8 = F := by omega
  rw [← hF] at h
  simp only [SyscallFrame.words, stored_cons, stored_nil, Nat.add_assoc, Nat.reduceAdd] at h
  refine ⟨?_, ?_, fun r => ?_⟩
  · simp [leaveKernel, syscallExit, Cpu.run, Cpu.step, hsub, Nat.add_assoc, h]
  · simp [leaveKernel, syscallExit, Cpu.run, Cpu.step, hsub, Nat.add_assoc, h]
  · cases r <;> simp [leaveKernel, syscallExit, Cpu.run, Cpu.step, hsub, Nat.add_assoc, h,
      SyscallFrame.userReg]

theorem entry_exit_r15 (I : EntryImage) (c : Cpu) : (leaveKernel I (enterKernel I c)).reg .r15 = c.reg .rsp := by
  obtain ⟨_, _, hframe⟩ := run_entry I c
  rw [(run_exit hframe).2.2 .r15]
  rfl

end Chicago95.Kernel.Entry
