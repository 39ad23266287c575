/-
# Chicago95.Lib.X86 — a straight-line x86-64 fragment: sixteen registers, a word memory, moves,
pushes and pops.

The fragment covers what hand-written kernel entry code uses between two control transfers: no
branches, 64-bit operands, memory accessed one aligned quadword at a time. Addresses and register
contents are naturals; the stack grows down and nothing here wraps, so the lemmas carry the room they
need (`8 * n ≤ rsp`) explicitly.
-/
import Mathlib.Logic.Function.Basic
import Mathlib.Tactic.Common

namespace Chicago95.Lib.X86

/-! ## The machine -/

/-- The general-purpose registers. -/
inductive Reg where
  | rax | rbx | rcx | rdx | rsi | rdi | rbp | rsp
  | r8 | r9 | r10 | r11 | r12 | r13 | r14 | r15
  deriving DecidableEq, Repr

/-- Register file, instruction pointer, flags, and the quadword held at each (aligned) address. -/
structure Cpu where
  reg : Reg → Nat
  rip : Nat
  rflags : Nat
  mem : Nat → Nat

/-- The instructions of the fragment, in Intel operand order (destination first). -/
inductive Instr where
  | push (src : Reg)
  | pop (dst : Reg)
  /-- `mov dst, src` -/
  | mov (dst src : Reg)
  /-- `mov dst, imm` -/
  | movImm (dst : Reg) (imm : Nat)
  /-- `mov dst, [base + off]` -/
  | load (dst base : Reg) (off : Nat)
  /-- `mov [base + off], src` -/
  | store (base : Reg) (off : Nat) (src : Reg)
  /-- `mov qword [base + off], imm` -/
  | storeImm (base : Reg) (off imm : Nat)
  /-- `mov dst, [rel addr]` -/
  | loadAbs (dst : Reg) (addr : Nat)
  /-- `mov [rel addr], src` -/
  | storeAbs (addr : Nat) (src : Reg)
  /-- `sub dst, imm` -/
  | subImm (dst : Reg) (imm : Nat)
  /-- `call target`, with the address of the next instruction. -/
  | call (target next : Nat)
  | ret
  /-- `REX.W sysret`: `rip ← rcx`, `rflags ← r11`. -/
  | sysretq
  deriving DecidableEq, Repr

namespace Cpu

/-- Write one register. -/
def setReg (c : Cpu) (r : Reg) (v : Nat) : Cpu := { c with reg := Function.update c.reg r v }

/-- Write one quadword. -/
def setMem (c : Cpu) (a v : Nat) : Cpu := { c with mem := Function.update c.mem a v }

@[simp] theorem setReg_mem (c : Cpu) (r : Reg) (v : Nat) : (c.setReg r v).mem = c.mem := rfl
@[simp] theorem setReg_rip (c : Cpu) (r : Reg) (v : Nat) : (c.setReg r v).rip = c.rip := rfl
@[simp] theorem setReg_rflags (c : Cpu) (r : Reg) (v : Nat) : (c.setReg r v).rflags = c.rflags := rfl
@[simp] theorem setMem_reg (c : Cpu) (a v : Nat) : (c.setMem a v).reg = c.reg := rfl
@[simp] theorem setMem_rip (c : Cpu) (a v : Nat) : (c.setMem a v).rip = c.rip := rfl
@[simp] theorem setMem_rflags (c : Cpu) (a v : Nat) : (c.setMem a v).rflags = c.rflags := rfl

@[simp] theorem setReg_reg_self (c : Cpu) (r : Reg) (v : Nat) : (c.setReg r v).reg r = v := by
  simp [setReg]

@[simp] theorem setReg_reg_ne (c : Cpu) {r r' : Reg} (v : Nat) (h : r' ≠ r) : (c.setReg r v).reg r' = c.reg r' := by
  simp [setReg, h]

@[simp] theorem setMem_mem_self (c : Cpu) (a v : Nat) : (c.setMem a v).mem a = v := by
  simp [setMem]

@[simp] theorem setMem_mem_ne (c : Cpu) {a a' : Nat} (v : Nat) (h : a' ≠ a) : (c.setMem a v).mem a' = c.mem a' := by
  simp [setMem, h]

/-- One instruction. -/
def step (c : Cpu) : Instr → Cpu
  | .push src =>
    let v := c.reg src
    let c := c.setReg .rsp (c.reg .rsp - 8)
    c.setMem (c.reg .rsp) v
  | .pop dst =>
    let v := c.mem (c.reg .rsp)
    (c.setReg .rsp (c.reg .rsp + 8)).setReg dst v
  | .mov dst src => c.setReg dst (c.reg src)
  | .movImm dst imm => c.setReg dst imm
  | .load dst base off => c.setReg dst (c.mem (c.reg base + off))
  | .store base off src => c.setMem (c.reg base + off) (c.reg src)
  | .storeImm base off imm => c.setMem (c.reg base + off) imm
  | .loadAbs dst addr => c.setReg dst (c.mem addr)
  | .storeAbs addr src => c.setMem addr (c.reg src)
  | .subImm dst imm => c.setReg dst (c.reg dst - imm)
  | .call target next =>
    let c := c.setReg .rsp (c.reg .rsp - 8)
    { c.setMem (c.reg .rsp) next with rip := target }
  | .ret => { c.setReg .rsp (c.reg .rsp + 8) with rip := c.mem (c.reg .rsp) }
  | .sysretq => { c with rip := c.reg .rcx, rflags := c.reg .r11 }

/-- A straight-line sequence. -/
def run (c : Cpu) (code : List Instr) : Cpu := code.foldl step c

@[simp] theorem run_nil (c : Cpu) : c.run [] = c := rfl

theorem run_cons (c : Cpu) (i : Instr) (code : List Instr) : c.run (i :: code) = (c.step i).run code := rfl

theorem run_append (c : Cpu) (code code' : List Instr) : c.run (code ++ code') = (c.run code).run code' :=
  List.foldl_append

end Cpu

/-! ## Values laid out in consecutive quadwords -/

/-- The quadwords from `a` upwards hold `vs`. -/
def Stored (mem : Nat → Nat) : Nat → List Nat → Prop
  | _, [] => True
  | a, v :: vs => mem a = v ∧ Stored mem (a + 8) vs

@[simp] theorem stored_nil (mem : Nat → Nat) (a : Nat) : Stored mem a [] := trivial

@[simp] theorem stored_cons (mem : Nat → Nat) (a v : Nat) (vs : List Nat) :
    Stored mem a (v :: vs) ↔ mem a = v ∧ Stored mem (a + 8) vs := Iff.rfl

theorem Stored.congr {mem mem' : Nat → Nat} :
    ∀ {vs : List Nat} {a : Nat}, Stored mem a vs →
      (∀ x, a ≤ x → x < a + 8 * vs.length → mem' x = mem x) → Stored mem' a vs
  | [], _, _, _ => trivial
  | v :: vs, a, h, hag => by
      refine ⟨?_, Stored.congr h.2 fun x hx hlt => hag x (by omega) ?_⟩
      · rw [hag a (Nat.le_refl a) (by simp only [List.length_cons]; omega)]
        exact h.1
      · simp only [List.length_cons] at hlt ⊢
        omega

theorem stored_append (mem : Nat → Nat) (vs ws : List Nat) :
    ∀ a, Stored mem a (vs ++ ws) ↔ Stored mem a vs ∧ Stored mem (a + 8 * vs.length) ws := by
  induction vs with
  | nil => intro a; simp
  | cons v vs ih =>
    intro a
    have haddr : a + 8 + 8 * vs.length = a + 8 * (vs.length + 1) := by omega
    simp only [List.cons_append, stored_cons, ih, haddr, List.length_cons, and_assoc]

/-! ## Pushes and pops -/

/-- **Pushes.** Pushing `rs.reverse` one after another leaves the values of `rs` in order from the
new stack pointer upwards, moves `rsp` down by eight bytes each, and touches nothing else. -/
theorem run_pushes :
    ∀ (rs : List Reg) (c : Cpu), .rsp ∉ rs → 8 * rs.length ≤ c.reg .rsp →
      let c' := c.run (rs.reverse.map .push)
      c'.reg .rsp = c.reg .rsp - 8 * rs.length ∧
      Stored c'.mem (c'.reg .rsp) (rs.map c.reg) ∧
      (∀ r, r ≠ .rsp → c'.reg r = c.reg r) ∧
      (∀ a, a < c.reg .rsp - 8 * rs.length ∨ c.reg .rsp ≤ a → c'.mem a = c.mem a) := by
  intro rs
  induction rs with
  | nil => intro c _ _; simp
  | cons r rs ih =>
    intro c hmem hroom
    simp only [List.mem_cons, not_or] at hmem
    simp only [List.length_cons] at hroom
    obtain ⟨hsp, hst, hreg, hframe⟩ := ih c hmem.2 (by omega)
    simp only [List.reverse_cons, List.map_append, List.map_cons, List.map_nil, Cpu.run_append]
    set d := c.run (rs.reverse.map .push) with hd
    have hrsp : d.reg .rsp - 8 ≠ d.reg .rsp := by omega
    refine ⟨?_, ?_, ?_, ?_⟩
    · simp only [Cpu.run_cons, Cpu.run_nil, Cpu.step, Cpu.setMem_reg, Cpu.setReg_reg_self, hsp,
        List.length_cons]
      omega
    · simp only [Cpu.run_cons, Cpu.run_nil, Cpu.step, Cpu.setMem_reg, Cpu.setReg_reg_self,
        Cpu.setMem_mem_self, stored_cons]
      refine ⟨hreg r (Ne.symm hmem.1), ?_⟩
      have hback : d.reg .rsp - 8 + 8 = d.reg .rsp := by omega
      rw [hback]
      refine hst.congr fun x hx _ => ?_
      rw [Cpu.setMem_mem_ne _ _ (by omega), Cpu.setReg_mem]
    · intro r' hr'
      simp only [Cpu.run_cons, Cpu.run_nil, Cpu.step, Cpu.setMem_reg]
      rw [Cpu.setReg_reg_ne _ _ hr', hreg r' hr']
    · intro a ha
      simp only [Cpu.run_cons, Cpu.run_nil, Cpu.step, Cpu.setReg_reg_self]
      rw [Cpu.setMem_mem_ne _ _ (by simp only [List.length_cons] at ha; omega), Cpu.setReg_mem,
        hframe a (by simp only [List.length_cons] at ha; omega)]

/-- **Pops.** Popping distinct registers reads back the values stored from `rsp` upwards, in order,
moves `rsp` up by eight bytes each, and leaves the memory alone. -/
theorem run_pops :
    ∀ (rs : List Reg) (vs : List Nat) (c : Cpu), .rsp ∉ rs → rs.Nodup → rs.length = vs.length →
      Stored c.mem (c.reg .rsp) vs →
      let c' := c.run (rs.map .pop)
      rs.map c'.reg = vs ∧
      c'.reg .rsp = c.reg .rsp + 8 * vs.length ∧
      (∀ r, r ≠ .rsp → r ∉ rs → c'.reg r = c.reg r) ∧ c'.mem = c.mem := by
  intro rs
  induction rs with
  | nil =>
    intro vs c _ _ hlen _
    obtain rfl : vs = [] := List.eq_nil_of_length_eq_zero hlen.symm
    simp
  | cons r rs ih =>
    intro vs c hmem hnd hlen hst
    obtain ⟨v, vs, rfl⟩ := List.exists_cons_of_length_eq_add_one hlen.symm
    simp only [List.mem_cons, not_or] at hmem
    simp only [List.length_cons, Nat.add_right_cancel_iff] at hlen
    have hne : Reg.rsp ≠ r := hmem.1
    set d := c.step (.pop r) with hd
    have hdsp : d.reg .rsp = c.reg .rsp + 8 := by
      simp [hd, Cpu.step, hne]
    have hdmem : d.mem = c.mem := rfl
    have hdr : d.reg r = v := by
      simpa [hd, Cpu.step] using hst.1
    have hdother : ∀ r', r' ≠ .rsp → r' ≠ r → d.reg r' = c.reg r' := by
      intro r' h1 h2
      simp [hd, Cpu.step, h1, h2]
    obtain ⟨hvals, hsp, hreg, hm⟩ := ih vs d hmem.2 (List.nodup_cons.mp hnd).2 hlen
      (by rw [hdmem, hdsp]; exact hst.2)
    simp only [List.map_cons, Cpu.run_cons, ← hd]
    refine ⟨?_, ?_, ?_, ?_⟩
    · rw [hvals, hreg r (Ne.symm hne) (List.nodup_cons.mp hnd).1, hdr]
    · rw [hsp, hdsp, List.length_cons]
      omega
    · intro r' h1 h2
      simp only [List.mem_cons, not_or] at h2
      rw [hreg r' h1 h2.2, hdother r' h1 h2.1]
    · rw [hm, hdmem]

end Chicago95.Lib.X86
