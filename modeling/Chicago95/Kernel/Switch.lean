/-
# Chicago95.Kernel.Switch — the stack frame of `context_switch`, pushed and popped.

`context_switch` leaves seven words on the stack it switches away from (six callee-saved registers below
the return address) and takes seven words off the stack it switches to, in the same layout. This module
says so once, for any CPU state; who is switched to, and whether the words there are its own, is the
business of the modules above.
-/
import Chicago95.Kernel.ProcessTable

namespace Chicago95.Kernel

open Chicago95.Lib.X86

/-! ## The frame -/

/-- The registers `context_switch` saves, in the order they lie from `saved_rsp` upwards. -/
def calleeSaved : List Reg := [.r15, .r14, .r13, .r12, .rbx, .rbp]

/-- The seven words a switched-out process has at its `saved_rsp`. -/
structure SavedFrame where
  r15 : Nat
  r14 : Nat
  r13 : Nat
  r12 : Nat
  rbx : Nat
  rbp : Nat
  /-- the return address -/
  ret : Nat
  deriving DecidableEq

namespace SavedFrame

/-- The six register words. -/
def regs (f : SavedFrame) : List Nat := [f.r15, f.r14, f.r13, f.r12, f.rbx, f.rbp]

/-- All seven words, lowest address first. -/
def words (f : SavedFrame) : List Nat := f.regs ++ [f.ret]

/-- The frame that lies at `a`. -/
def readAt (mem : Nat → Nat) (a : Nat) : SavedFrame :=
  { r15 := mem a, r14 := mem (a + 8), r13 := mem (a + 16), r12 := mem (a + 24),
    rbx := mem (a + 32), rbp := mem (a + 40), ret := mem (a + 48) }

theorem stored_readAt (mem : Nat → Nat) (a : Nat) : Stored mem a (readAt mem a).words := by
  simp [words, regs, readAt, Nat.add_assoc]

/-- The frame a process is owed when it is about to call `context_switch` on `c`, the return address
being on top of its stack. -/
def ofCpu (c : Cpu) : SavedFrame :=
  { r15 := c.reg .r15, r14 := c.reg .r14, r13 := c.reg .r13, r12 := c.reg .r12,
    rbx := c.reg .rbx, rbp := c.reg .rbp, ret := c.mem (c.reg .rsp) }

/-- What a process built by `process_create` should start from: cleared registers, at the
trampoline. -/
def fresh (L : Layout) : SavedFrame :=
  { r15 := 0, r14 := 0, r13 := 0, r12 := 0, rbx := 0, rbp := 0, ret := L.processTrampoline }

end SavedFrame

/-- The CPU goes on from the frame `f` found at `rsp`: all seven words consumed, each in its place. -/
structure ResumesWith (c : Cpu) (rsp : Nat) (f : SavedFrame) : Prop where
  regs_eq : calleeSaved.map c.reg = f.regs
  rip_eq : c.rip = f.ret
  rsp_eq : c.reg .rsp = rsp + 56

theorem ResumesWith.unique {c : Cpu} {rsp : Nat} {f g : SavedFrame} (hf : ResumesWith c rsp f)
    (hg : ResumesWith c rsp g) : f = g := by
  have hregs : f.regs = g.regs := hf.regs_eq.symm.trans hg.regs_eq
  have hret : f.ret = g.ret := hf.rip_eq.symm.trans hg.rip_eq
  cases f
  cases g
  simp_all [SavedFrame.regs]

/-! ## Restoring -/

/-- The second half of `context_switch`: six pops and `ret`. -/
def restoreFrame : List Instr := calleeSaved.map .pop ++ [.ret]

theorem run_restore {c : Cpu} {f : SavedFrame} (h : Stored c.mem (c.reg .rsp) f.words) :
    ResumesWith (c.run restoreFrame) (c.reg .rsp) f ∧ (c.run restoreFrame).mem = c.mem := by
  obtain ⟨hr15, hr14, hr13, hr12, hrbx, hrbp, hret, _⟩ := h
  have hregs : Stored c.mem (c.reg .rsp) f.regs :=
    ⟨hr15, hr14, hr13, hr12, hrbx, hrbp, trivial⟩
  obtain ⟨hvals, hsp, _, hmem⟩ := run_pops calleeSaved f.regs c (by decide) (by decide) rfl hregs
  have hlen : c.reg .rsp + 8 * f.regs.length = c.reg .rsp + 48 := rfl
  rw [hlen] at hsp
  rw [restoreFrame, Cpu.run_append]
  refine ⟨⟨?_, ?_, ?_⟩, ?_⟩
  · simpa [Cpu.run_cons, Cpu.step, calleeSaved] using hvals
  · simpa [Cpu.run_cons, Cpu.step, hsp, hmem, Nat.add_assoc] using hret
  · simp [Cpu.run_cons, Cpu.step, hsp, Nat.add_assoc]
  · simp [Cpu.run_cons, Cpu.step, hmem]

theorem run_restore_mem (c : Cpu) : (c.run restoreFrame).mem = c.mem :=
  (run_restore (SavedFrame.stored_readAt c.mem (c.reg .rsp))).2

theorem run_firstSwitch_eq (c : Cpu) (newRsp : Nat) :
    c.run (firstSwitch newRsp) = (c.setReg .rsp newRsp).run restoreFrame := by
  have hcode : firstSwitch newRsp = .movImm .rsp newRsp :: restoreFrame := rfl
  rw [hcode, Cpu.run_cons, Cpu.step]

theorem run_firstSwitch {c : Cpu} {newRsp : Nat} {f : SavedFrame}
    (h : Stored c.mem newRsp f.words) : ResumesWith (c.run (firstSwitch newRsp)) newRsp f := by
  have hset : (c.setReg .rsp newRsp).reg .rsp = newRsp := Cpu.setReg_reg_self c .rsp newRsp
  have hstored : Stored (c.setReg .rsp newRsp).mem ((c.setReg .rsp newRsp).reg .rsp) f.words := by
    rw [hset]
    exact h
  have hr := (run_restore hstored).1
  rw [hset] at hr
  rw [run_firstSwitch_eq]
  exact hr

theorem run_firstSwitch_mem (c : Cpu) (newRsp : Nat) : (c.run (firstSwitch newRsp)).mem = c.mem := by
  rw [run_firstSwitch_eq, run_restore_mem, Cpu.setReg_mem]

/-! ## Saving -/

/-- The CPU after the six pushes. -/
def pushedCpu (c : Cpu) : Cpu := c.run (calleeSaved.reverse.map .push)

/-- The CPU after the first half of `context_switch`: the frame pushed, `rsp` stored through
`old_rsp`, and the new stack loaded. -/
def savedCpu (c : Cpu) : Cpu :=
  ((pushedCpu c).setMem ((pushedCpu c).reg .rdi) ((pushedCpu c).reg .rsp)).setReg .rsp
    ((pushedCpu c).reg .rsi)

theorem run_contextSwitch_eq (c : Cpu) : c.run contextSwitch = (savedCpu c).run restoreFrame := by
  have hcode : contextSwitch = calleeSaved.reverse.map .push ++
      (.store .rdi 0 .rsp :: .mov .rsp .rsi :: restoreFrame) := rfl
  rw [hcode, Cpu.run_append, Cpu.run_cons, Cpu.run_cons]
  rfl

theorem run_contextSwitch_mem (c : Cpu) : (c.run contextSwitch).mem = (savedCpu c).mem := by
  rw [run_contextSwitch_eq, run_restore_mem]

theorem pushedCpu_regs (c : Cpu) : (pushedCpu c).reg .rsp = c.reg .rsp - 48 ∧ (pushedCpu c).reg .rdi = c.reg .rdi ∧
      (pushedCpu c).reg .rsi = c.reg .rsi := by
  simp [pushedCpu, calleeSaved, Cpu.run, Cpu.step, Nat.sub_sub]

theorem pushedCpu_frame {c : Cpu} (hroom : 48 ≤ c.reg .rsp) :
    Stored (pushedCpu c).mem (c.reg .rsp - 48) (calleeSaved.map c.reg) ∧
    ∀ a, a < c.reg .rsp - 48 ∨ c.reg .rsp ≤ a → (pushedCpu c).mem a = c.mem a := by
  obtain ⟨hsp, hst, _, hframe⟩ := run_pushes calleeSaved c (by decide) hroom
  rw [hsp] at hst
  exact ⟨hst, hframe⟩

theorem savedCpu_mem (c : Cpu) :
    (savedCpu c).mem = Function.update (pushedCpu c).mem (c.reg .rdi) (c.reg .rsp - 48) := by
  obtain ⟨hsp, hdi, _⟩ := pushedCpu_regs c
  rw [savedCpu, Cpu.setReg_mem, hsp, hdi, Cpu.setMem]

theorem run_contextSwitch_saves (c : Cpu) : (c.run contextSwitch).mem (c.reg .rdi) = c.reg .rsp - 48 := by
  rw [run_contextSwitch_mem, savedCpu_mem, Function.update_self]

theorem run_contextSwitch_outside {c : Cpu} {a : Nat} (hroom : 48 ≤ c.reg .rsp)
    (ha : a < c.reg .rsp - 48 ∨ c.reg .rsp ≤ a) (hne : a ≠ c.reg .rdi) : (c.run contextSwitch).mem a = c.mem a := by
  rw [run_contextSwitch_mem, savedCpu_mem, Function.update_of_ne hne]
  exact (pushedCpu_frame hroom).2 a ha

theorem run_contextSwitch_frame {c : Cpu} (hroom : 48 ≤ c.reg .rsp)
    (hout : c.reg .rdi < c.reg .rsp - 48 ∨ c.reg .rsp + 8 ≤ c.reg .rdi) :
    Stored (c.run contextSwitch).mem (c.reg .rsp - 48) (SavedFrame.ofCpu c).words := by
  -- the six pushed words survive the store through `old_rsp`
  have hkeep : Stored (c.run contextSwitch).mem (c.reg .rsp - 48) (calleeSaved.map c.reg) := by
    refine (pushedCpu_frame hroom).1.congr fun x hx hlt => ?_
    have hlt' : x < c.reg .rsp - 48 + 48 := hlt
    rw [run_contextSwitch_mem, savedCpu_mem, Function.update_of_ne (by omega)]
  obtain ⟨h1, h2, h3, h4, h5, h6, _⟩ := hkeep
  have hret : (c.run contextSwitch).mem (c.reg .rsp) = c.mem (c.reg .rsp) :=
    run_contextSwitch_outside hroom (Or.inr (Nat.le_refl _)) (by omega)
  refine ⟨h1, h2, h3, h4, h5, h6, ?_, trivial⟩
  have haddr : c.reg .rsp - 48 + 8 + 8 + 8 + 8 + 8 + 8 = c.reg .rsp := by omega
  rw [haddr]
  exact hret

theorem run_contextSwitch_resumes {c : Cpu} {f : SavedFrame}
    (h : Stored (c.run contextSwitch).mem (c.reg .rsi) f.words) : ResumesWith (c.run contextSwitch) (c.reg .rsi) f := by
  obtain ⟨_, _, hsi⟩ := pushedCpu_regs c
  have hrsp : (savedCpu c).reg .rsp = c.reg .rsi := by
    rw [savedCpu, Cpu.setReg_reg_self, hsi]
  rw [run_contextSwitch_mem, ← hrsp] at h
  rw [run_contextSwitch_eq, ← hrsp]
  exact (run_restore h).1

/-! ## The switch of `process_scheduler` -/

theorem switchedCpu_saved {L : Layout} {k : KState} {c : Slot} (hc : k.currentProcess = some c)
    (next : Slot) : (switchedCpu L k next).mem (L.savedRspAddr c) = k.cpu.reg .rsp - 48 := by
  have h := run_contextSwitch_saves
    ((k.cpu.setReg .rdi (L.savedRspAddr c)).setReg .rsi (k.processes next).savedRsp)
  simpa [switchedCpu, hc] using h

theorem switchedRsp_current {L : Layout} {k : KState} {c : Slot} (hc : k.currentProcess = some c)
    (next : Slot) : switchedRsp L k next c = k.cpu.reg .rsp - 48 := by
  rw [switchedRsp, if_pos hc, switchedCpu_saved hc]

theorem switchedRsp_of_ne {L : Layout} {k : KState} {i : Slot} (hi : k.currentProcess ≠ some i)
    (next : Slot) : switchedRsp L k next i = (k.processes i).savedRsp := by
  rw [switchedRsp, if_neg hi]

end Chicago95.Kernel
