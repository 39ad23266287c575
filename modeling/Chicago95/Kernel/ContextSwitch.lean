/-
# Chicago95.Kernel.ContextSwitch — does every process resume where it left off?

A process that is switched to should find at its `saved_rsp`, inside its own kernel stack, exactly the
frame it is owed: its own registers and return address if it was switched out, cleared registers at
`process_trampoline` if it is new. The state is extended with that expectation (`frame`) and with how
the frame came about (`origin`).
-/
import Chicago95.Kernel.KernelStacks

namespace Chicago95.Kernel

open Chicago95.Lib.Transition Chicago95.Lib.X86
open Function (update_of_ne update_self update)

/-- How the frame at a process's `saved_rsp` came about. -/
inductive FrameOrigin where
  | created
  | forked
  /-- switched out by `context_switch` on the process's own kernel stack -/
  | ownStack
  /-- switched out by `context_switch` on another stack -/
  | otherStack
  deriving DecidableEq

/-- The seven words at `rsp` lie in the stack below `top`. -/
def OwnWindow (top rsp : Nat) : Prop := top - processStackSize ≤ rsp ∧ rsp + 56 ≤ top

instance (top rsp : Nat) : Decidable (OwnWindow top rsp) := inferInstanceAs (Decidable (_ ∧ _))

/-- The kernel state, with the frame each process is owed. -/
structure Contexts where
  kernel : KState
  origin : Slot → FrameOrigin
  frame : Slot → SavedFrame

namespace Contexts

/-- The current process, if there is one, has been switched out on the CPU `cpu`. -/
def switchedOut (L : Layout) (s : Contexts) (cpu : Cpu) (k : KState) : Contexts :=
  match s.kernel.currentProcess with
  | none => { s with kernel := k }
  | some c =>
    { kernel := k
      origin := update s.origin c
        (if OwnWindow (L.stackTop c) (cpu.reg .rsp - 48) then .ownStack else .otherStack)
      frame := update s.frame c (SavedFrame.ofCpu cpu) }

/-- `process_create` has made a process in slot `i`. -/
def created (L : Layout) (s : Contexts) (i : Slot) (k : KState) : Contexts :=
  { kernel := k
    origin := update s.origin i .created
    frame := update s.frame i (SavedFrame.fresh L) }

/-- `process_fork` has made a copy of the current process in slot `i`: it is owed its parent's frame. -/
def forked (L : Layout) (s : Contexts) (i : Slot) (k : KState) : Contexts :=
  { kernel := k
    origin := update s.origin i .forked
    frame := update s.frame i
      (s.kernel.currentProcess.elim (SavedFrame.fresh L) s.frame) }

/-- A call, with what it means for the frames. -/
def next (L : Layout) (s : Contexts) (l : CallOn) : Contexts :=
  let k := s.kernel.onCpu l.1
  let k' := (l.2.exec L k).2
  match l.2.filledSlot k with
  | some i =>
    match l.2 with
    | .fork => s.forked L i k'
    | _ => s.created L i k'
  | none =>
    match l.2.target k with
    | some _ => s.switchedOut L l.1 k'
    | none => { s with kernel := k' }

/-- What the running code can have done to the CPU when it makes its next call. -/
structure Computes (L : Layout) (k : KState) (cpu : Cpu) : Prop where
  room : 48 ≤ cpu.reg .rsp
  stack : (∃ c, k.currentProcess = some c ∧
      OwnWindow (k.processes c).kernelStack (cpu.reg .rsp - 48)) ∨
    cpu.reg .rsp + 8 ≤ L.kernelStacks ∨
    L.kernelStacks + 64 * processStackSize + 48 ≤ cpu.reg .rsp
  mem_eq : ∀ a, L.kernelStacks ≤ a → a < L.kernelStacks + 64 * processStackSize →
    (∀ c, k.currentProcess = some c → ¬ OnStack (k.processes c).kernelStack a) →
    cpu.mem a = k.cpu.mem a

/-- One step: the running code computes, then makes a call. -/
def Step (L : Layout) (s : Contexts) (l : CallOn) (t : Contexts) : Prop :=
  Computes L s.kernel l.1 ∧ t = s.next L l

/-- If the step switches to a process, that process goes on from the frame it is owed, all seven words
of it on its own kernel stack. -/
def ResumesOwnFrame (L : Layout) (s : Contexts) (l : CallOn) (t : Contexts) : Prop :=
  ∀ n, l.2.target (s.kernel.onCpu l.1) = some n →
    ResumesWith t.kernel.cpu (s.kernel.processes n).savedRsp (s.frame n) ∧
      OwnWindow (L.stackTop n) (s.kernel.processes n).savedRsp

/-- If the call switches to a process, `context_switch` switched that process out, on its own stack. -/
def SwitchesToSwitchedOut (s : Contexts) (l : CallOn) : Prop :=
  ∀ n, l.2.target (s.kernel.onCpu l.1) = some n → s.origin n = .ownStack

/-! ## The invariant -/

/-- The words `process_create` leaves, lowest address first, as the pops will take them. -/
def createdFrame (L : Layout) : SavedFrame :=
  { r15 := L.processTrampoline, r14 := 0, r13 := 0, r12 := 0, rbx := 0, rbp := 0, ret := 0 }

/-- What is at one process's `saved_rsp`, by origin; a running process's own frame has been consumed. -/
def FrameKept (L : Layout) (mem : Nat → Nat) (running : Prop) (i : Slot) (p : Process)
    (f : SavedFrame) : FrameOrigin → Prop
  | .created => p.kernelStack = L.stackTop i ∧ p.savedRsp = L.stackTop i - 56 ∧
      f = SavedFrame.fresh L ∧ Stored mem (L.stackTop i - 56) (createdFrame L).words
  | .forked => ¬ OwnWindow (L.stackTop i) p.savedRsp
  | .ownStack => p.kernelStack = L.stackTop i ∧ OwnWindow (L.stackTop i) p.savedRsp ∧
      (running ∨ Stored mem p.savedRsp f.words)
  | .otherStack => p.kernelStack = L.stackTop i ∧ ¬ OwnWindow (L.stackTop i) p.savedRsp

/-- The frames of all processes are as their origins say, and whoever runs was resumed from its own. -/
structure FramesKept (L : Layout) (s : Contexts) : Prop where
  numbered : WellNumbered s.kernel
  current_own : ∀ c, s.kernel.currentProcess = some c → s.origin c = .ownStack
  kept : ∀ i : Slot, (s.kernel.processes i).state ≠ .unused →
    FrameKept L s.kernel.cpu.mem (s.kernel.currentProcess = some i) i (s.kernel.processes i)
      (s.frame i) (s.origin i)

theorem framesKept_boot (L : Layout) (k : KState) (origin : Slot → FrameOrigin)
    (frame : Slot → SavedFrame) : FramesKept L ⟨processInit k, origin, frame⟩ where
  numbered := wellNumbered_processInit k
  current_own := fun _ h => nomatch h
  kept := fun _ h => absurd rfl h

theorem FrameKept.congr {L : Layout} {mem mem' : Nat → Nat} {running running' : Prop} {i : Slot}
    {p p' : Process} {f : SavedFrame} {o : FrameOrigin} (h : FrameKept L mem running i p f o)
    (hstack : p'.kernelStack = p.kernelStack) (hrsp : p'.savedRsp = p.savedRsp) (hrun : running → running')
    (hmem : ¬ running → ∀ a, OnStack (L.stackTop i) a → mem' a = mem a) (hcreated : running → o ≠ .created) :
    FrameKept L mem' running' i p' f o := by
  have htop := stackTop_ge L i
  have hstored : ∀ {a vs}, OwnWindow (L.stackTop i) a → vs.length = 7 → ¬ running →
      Stored mem a vs → Stored mem' a vs := by
    intro a vs hw hlen hnr hst
    refine hst.congr fun x hx hlt => hmem hnr x ?_
    obtain ⟨hlo, hhi⟩ := hw
    simp only [OnStack]
    omega
  cases o with
  | created =>
    obtain ⟨h1, h2, h3, h4⟩ := h
    refine ⟨hstack.trans h1, hrsp.trans h2, h3, hstored ?_ rfl (fun hr => hcreated hr rfl) h4⟩
    simp only [OwnWindow, processStackSize] at htop ⊢
    omega
  | forked =>
    simp only [FrameKept, hrsp] at h ⊢
    exact h
  | ownStack =>
    obtain ⟨h1, h2, h3⟩ := h
    refine ⟨hstack.trans h1, hrsp ▸ h2, ?_⟩
    by_cases hr : running
    · exact Or.inl (hrun hr)
    · rcases h3 with hr' | hst
      · exact absurd hr' hr
      · rw [hrsp]
        exact Or.inr (hstored h2 rfl hr hst)
  | otherStack =>
    simp only [FrameKept, hrsp, hstack] at h ⊢
    exact h

theorem FrameKept.kernelStack_eq {L : Layout} {mem : Nat → Nat} {running : Prop} {i : Slot}
    {p : Process} {f : SavedFrame} {o : FrameOrigin} (h : FrameKept L mem running i p f o)
    (ho : o ≠ .forked) : p.kernelStack = L.stackTop i := by
  cases o with
  | created => exact h.1
  | forked => exact absurd rfl ho
  | ownStack => exact h.1
  | otherStack => exact h.1

/-! ## Other processes' stacks are left alone -/

section Step

variable {L : Layout} {s : Contexts} {cpu : Cpu}

theorem FramesKept.current_stack (h : FramesKept L s) {c : Slot}
    (hc : s.kernel.currentProcess = some c) : (s.kernel.processes c).kernelStack = L.stackTop c := by
  refine (h.kept c (h.numbered.current_live c hc)).kernelStack_eq ?_
  rw [h.current_own c hc]
  decide

theorem onStack_inStacks (L : Layout) {i : Slot} {a : Nat} (ha : OnStack (L.stackTop i) a) :
    L.kernelStacks ≤ a ∧ a < L.kernelStacks + 64 * processStackSize := by
  obtain ⟨hlo, hhi⟩ := ha
  have hi := i.isLt
  simp only [Layout.stackTop, processStackSize] at hlo hhi ⊢
  omega

theorem computes_mem (h : FramesKept L s) (hcpu : Computes L s.kernel cpu) {i : Slot}
    (hi : s.kernel.currentProcess ≠ some i) {a : Nat} (ha : OnStack (L.stackTop i) a) :
    cpu.mem a = s.kernel.cpu.mem a := by
  obtain ⟨hlo, hhi⟩ := onStack_inStacks L ha
  refine hcpu.mem_eq a hlo hhi fun c hc hown => ?_
  have hci : c ≠ i := fun heq => hi (heq ▸ hc)
  rw [h.current_stack hc] at hown
  exact stackTop_disjoint L hci a ⟨hown, ha⟩

theorem switchedCpu_mem (h : FramesKept L s) (hcpu : Computes L s.kernel cpu) {k' : KState}
    (hk' : SameContexts (s.kernel.onCpu cpu) k') (n : Slot) {i : Slot}
    (hi : s.kernel.currentProcess ≠ some i) {a : Nat} (ha : OnStack (L.stackTop i) a) :
    (switchedCpu L k' n).mem a = s.kernel.cpu.mem a := by
  rw [← computes_mem h hcpu hi ha]
  have hcpu' : k'.cpu = cpu := hk'.cpu_eq
  have hcur : k'.currentProcess = s.kernel.currentProcess := hk'.current_eq
  rcases Option.eq_none_or_eq_some s.kernel.currentProcess with hc | ⟨c, hc⟩
  · simp only [switchedCpu, hcur, hc, run_firstSwitch_mem, hcpu']
  · simp only [switchedCpu, hcur, hc, hcpu']
    obtain ⟨hlo, hhi⟩ := onStack_inStacks L ha
    have hci : c ≠ i := fun heq => hi (heq ▸ hc)
    -- the 48 bytes pushed are on the caller's own stack, or on none
    have hpush : a < cpu.reg .rsp - 48 ∨ cpu.reg .rsp ≤ a := by
      rcases hcpu.stack with ⟨c', hc', hlo', hhi'⟩ | hoff | hoff
      · obtain rfl : c' = c := Option.some.inj (hc'.symm.trans hc)
        rw [h.current_stack hc] at hlo' hhi'
        by_contra hin
        refine stackTop_disjoint L hci a ⟨⟨?_, ?_⟩, ha⟩ <;> omega
      · right; omega
      · left; omega
    have hslot := L.savedRspAddr_outside c
    have hregs : ((cpu.setReg .rdi (L.savedRspAddr c)).setReg .rsi
        (k'.processes n).savedRsp).reg .rsp = cpu.reg .rsp := by simp
    have hrdi : ((cpu.setReg .rdi (L.savedRspAddr c)).setReg .rsi
        (k'.processes n).savedRsp).reg .rdi = L.savedRspAddr c := by simp
    rw [run_contextSwitch_outside]
    · rfl
    · rw [hregs]; exact hcpu.room
    · rw [hregs]; exact hpush
    · rw [hrdi]; omega

/-! ## One switch -/

theorem switch_resumes (h : FramesKept L s) (hcpu : Computes L s.kernel cpu) {k' : KState}
    (hk' : SameContexts (s.kernel.onCpu cpu) k') {n : Slot} (hn : s.kernel.currentProcess ≠ some n) {f : SavedFrame}
    (hwin : OwnWindow (L.stackTop n) (s.kernel.processes n).savedRsp)
    (hst : Stored s.kernel.cpu.mem (s.kernel.processes n).savedRsp f.words) :
    ResumesWith (switchedCpu L k' n) (s.kernel.processes n).savedRsp f := by
  have hrsp : (k'.processes n).savedRsp = (s.kernel.processes n).savedRsp := hk'.savedRsp_eq n
  have hcur : k'.currentProcess = s.kernel.currentProcess := hk'.current_eq
  have hkept : Stored (switchedCpu L k' n).mem (s.kernel.processes n).savedRsp f.words := by
    refine hst.congr fun x hx hlt => switchedCpu_mem h hcpu hk' n hn ?_
    have hlt' : x < (s.kernel.processes n).savedRsp + 56 := hlt
    obtain ⟨hlo, hhi⟩ := hwin
    exact ⟨by omega, by omega⟩
  rw [← hrsp] at hkept ⊢
  rcases Option.eq_none_or_eq_some s.kernel.currentProcess with hc | ⟨c, hc⟩
  · simp only [switchedCpu, hcur, hc] at hkept ⊢
    rw [run_firstSwitch_mem] at hkept
    exact run_firstSwitch hkept
  · simp only [switchedCpu, hcur, hc] at hkept ⊢
    have hrsi : ((k'.cpu.setReg .rdi (L.savedRspAddr c)).setReg .rsi
        (k'.processes n).savedRsp).reg .rsi = (k'.processes n).savedRsp := by simp
    have hres := run_contextSwitch_resumes (f := f)
      (c := (k'.cpu.setReg .rdi (L.savedRspAddr c)).setReg .rsi (k'.processes n).savedRsp)
    rw [hrsi] at hres
    exact hres hkept

theorem createdFrame_ne_fresh (L : Layout) : createdFrame L ≠ SavedFrame.fresh L := by
  intro heq
  have hret : (createdFrame L).ret = (SavedFrame.fresh L).ret := by rw [heq]
  have htr : (0 : Nat) = L.processTrampoline := hret
  have hge := L.trampoline_ge
  simp only [kernelImageBase] at hge
  omega

theorem switch_iff (h : FramesKept L s) (hcpu : Computes L s.kernel cpu) {k' : KState}
    (hk' : SameContexts (s.kernel.onCpu cpu) k') {n : Slot}
    (hn : s.kernel.currentProcess ≠ some n) (hlive : (s.kernel.processes n).state ≠ .unused) :
    (ResumesWith (switchedCpu L k' n) (s.kernel.processes n).savedRsp (s.frame n) ∧
      OwnWindow (L.stackTop n) (s.kernel.processes n).savedRsp) ↔ s.origin n = .ownStack := by
  have hkept := h.kept n hlive
  cases ho : s.origin n with
  | created =>
    rw [ho] at hkept
    obtain ⟨_, hsaved, hframe, hst⟩ := hkept
    refine iff_of_false ?_ (by decide)
    rintro ⟨hres, hwin⟩
    rw [← hsaved] at hst
    have hactual := switch_resumes h hcpu hk' hn hwin hst
    exact createdFrame_ne_fresh L ((hactual.unique hres).trans hframe)
  | forked =>
    rw [ho] at hkept
    exact iff_of_false (fun hboth => hkept hboth.2) (by decide)
  | otherStack =>
    rw [ho] at hkept
    exact iff_of_false (fun hboth => hkept.2 hboth.2) (by decide)
  | ownStack =>
    rw [ho] at hkept
    obtain ⟨_, hwin, hrun | hst⟩ := hkept
    · exact absurd hrun hn
    · exact iff_of_true ⟨switch_resumes h hcpu hk' hn hwin hst, hwin⟩ rfl

/-! ## One call -/

theorem FramesKept.of_entries (h : FramesKept L s) {k' : KState} (hnum : WellNumbered k')
    (hcur : k'.currentProcess = s.kernel.currentProcess)
    (hentry : ∀ j, (k'.processes j).state ≠ .unused → (s.kernel.processes j).state ≠ .unused ∧
      (k'.processes j).kernelStack = (s.kernel.processes j).kernelStack ∧
      (k'.processes j).savedRsp = (s.kernel.processes j).savedRsp)
    (hmem : ∀ i, s.kernel.currentProcess ≠ some i →
      ∀ a, OnStack (L.stackTop i) a → k'.cpu.mem a = s.kernel.cpu.mem a) :
    FramesKept L { s with kernel := k' } where
  numbered := hnum
  current_own := fun c hc => h.current_own c (hcur ▸ hc)
  kept := fun j hj => by
    obtain ⟨hlive, hstack, hrsp⟩ := hentry j hj
    refine (h.kept j hlive).congr hstack hrsp (fun hr => hcur.trans hr) (fun hnr => hmem j hnr) ?_
    intro hr
    rw [h.current_own j hr]
    decide

theorem wellNumbered_onCpu {k : KState} (h : WellNumbered k) (cpu : Cpu) : WellNumbered (k.onCpu cpu) :=
  ⟨h.current_live, h.pid_eq, h.ppid_ne⟩

theorem stored_initialStack (L : Layout) (i : Slot) (c : Cpu) :
    Stored (initialStack L (L.stackTop i) c).mem (L.stackTop i - 56) (createdFrame L).words := by
  have htop := stackTop_ge L i
  simp only [processStackSize] at htop
  obtain ⟨t, ht⟩ : ∃ t, L.stackTop i = t + 56 := ⟨L.stackTop i - 56, by omega⟩
  rw [ht]
  simp [SavedFrame.words, SavedFrame.regs, createdFrame, initialStack, Cpu.setMem,
    Nat.add_assoc]

theorem initialStack_mem (L : Layout) {i : Slot} (c : Cpu) {a : Nat}
    (ha : ¬ OnStack (L.stackTop i) a) : (initialStack L (L.stackTop i) c).mem a = c.mem a := by
  have htop := stackTop_ge L i
  simp only [OnStack, processStackSize] at ha htop
  simp only [initialStack]
  simp (disch := omega) only [Cpu.setMem_mem_ne]

theorem FramesKept.made (h : FramesKept L s) (hcpu : Computes L s.kernel cpu) {k' : KState}
    {i : Slot} {p : Process} {o : FrameOrigin} {f : SavedFrame}
    (hfree : (s.kernel.processes i).state = .unused) (hnum : WellNumbered k')
    (hcur : k'.currentProcess = s.kernel.currentProcess)
    (hprocs : k'.processes = update s.kernel.processes i p)
    (hmem : ∀ a, ¬ OnStack (L.stackTop i) a → k'.cpu.mem a = cpu.mem a)
    (hnew : FrameKept L k'.cpu.mem False i p f o) :
    FramesKept L { kernel := k', origin := update s.origin i o,
                   frame := update s.frame i f } := by
  have hci : ∀ c, s.kernel.currentProcess = some c → c ≠ i := by
    rintro c hc rfl
    exact h.numbered.current_live c hc hfree
  refine ⟨hnum, fun c hc => ?_, fun j hj => ?_⟩
  · rw [hcur] at hc
    simpa [hci c hc] using h.current_own c hc
  · by_cases hji : j = i
    · subst hji
      simp only [hprocs, update_self]
      refine hnew.congr rfl rfl (fun hr => hr.elim) (fun _ _ _ => rfl) fun hr => hr.elim
    · simp only [hprocs, update_of_ne hji] at hj ⊢
      refine (h.kept j hj).congr rfl rfl (fun hr => hcur.trans hr) (fun hnr a ha => ?_) fun hr => ?_
      · rw [hmem a fun hai => stackTop_disjoint L hji a ⟨ha, hai⟩]
        exact computes_mem h hcpu hnr ha
      · rw [h.current_own j hr]
        decide

theorem FramesKept.create (h : FramesKept L s) (hcpu : Computes L s.kernel cpu) {entry : Nat}
    {name : List UInt8} {ring : Ring} : FramesKept L (s.next L (cpu, .create entry name ring)) := by
  have hnum := Call.exec_wellNumbered (L := L) (wellNumbered_onCpu h.numbered cpu)
    (.create entry name ring)
  rcases processCreate_cases L (s.kernel.onCpu cpu) entry name ring with
    ⟨hno, hcr⟩ | ⟨pid, hfree, hcr⟩
  · have hnext : s.next L (cpu, .create entry name ring) = { s with kernel := s.kernel.onCpu cpu } := by
      simp only [next, Call.filledSlot, hno, Call.target, Call.exec, hcr]
    rw [hnext]
    refine h.of_entries (wellNumbered_onCpu h.numbered cpu) rfl (fun j hj => ⟨hj, rfl, rfl⟩) ?_
    exact fun i hi a ha => computes_mem h hcpu hi ha
  · simp only [Call.exec, hcr] at hnum
    simp only [next, Call.filledSlot, hfree, Call.exec, hcr, created]
    refine h.made hcpu (findUnused_some hfree) hnum rfl rfl ?_ ⟨rfl, rfl, rfl, ?_⟩
    · exact fun a ha => initialStack_mem L cpu ha
    · exact stored_initialStack L pid cpu

theorem FramesKept.fork (h : FramesKept L s) (hcpu : Computes L s.kernel cpu) :
    FramesKept L (s.next L (cpu, .fork)) := by
  have hnum := Call.exec_wellNumbered (L := L) (wellNumbered_onCpu h.numbered cpu) .fork
  rcases processFork_cases (s.kernel.onCpu cpu) with ⟨hno, hfk⟩ | ⟨c, pid, hc, hfree, hfk⟩
  · have hnone : Call.fork.filledSlot (s.kernel.onCpu cpu) = none := by
      rcases hno with hno | hno
      · rw [Call.filledSlot, hno]; rfl
      · rw [Call.filledSlot, hno]
        cases (s.kernel.onCpu cpu).currentProcess <;> rfl
    have hnext : s.next L (cpu, .fork) = { s with kernel := s.kernel.onCpu cpu } := by
      simp only [next, hnone, Call.target, Call.exec, hfk]
    rw [hnext]
    refine h.of_entries (wellNumbered_onCpu h.numbered cpu) rfl (fun j hj => ⟨hj, rfl, rfl⟩) ?_
    exact fun i hi a ha => computes_mem h hcpu hi ha
  · have hsome : Call.fork.filledSlot (s.kernel.onCpu cpu) = some pid := by
      rw [Call.filledSlot, hc, Option.bind_some, hfree]
    have hc' : s.kernel.currentProcess = some c := hc
    have hun := findUnused_some hfree
    have hcp : c ≠ pid := fun heq => h.numbered.current_live c hc' (heq ▸ hun)
    simp only [Call.exec, hfk] at hnum
    simp only [next, hsome, Call.exec, hfk, forked]
    refine h.made hcpu (findUnused_some hfree) hnum rfl rfl (fun _ _ => rfl) ?_
    -- the parent was resumed from its own stack, which is not the child's
    have hparent := h.kept c (h.numbered.current_live c hc')
    rw [h.current_own c hc'] at hparent
    obtain ⟨_, ⟨hlo, hhi⟩, _⟩ := hparent
    rintro ⟨hlo', hhi'⟩
    refine stackTop_disjoint L hcp (s.kernel.processes c).savedRsp ⟨⟨hlo, by omega⟩, ?_⟩
    simp only [forkedProcess, KState.onCpu] at hlo' hhi'
    exact ⟨hlo', by omega⟩

theorem switchedOut_kernel (L : Layout) (s : Contexts) (cpu : Cpu) (k : KState) :
    (s.switchedOut L cpu k).kernel = k := by
  unfold switchedOut
  cases s.kernel.currentProcess <;> rfl

theorem FramesKept.previous (h : FramesKept L s) (hcpu : Computes L s.kernel cpu) {k' : KState}
    (hk' : SameContexts (s.kernel.onCpu cpu) k') {c n : Slot}
    (hc : s.kernel.currentProcess = some c) (hready : (k'.processes n).state = .ready)
    (running : Prop) {o : FrameOrigin}
    (ho : o = if OwnWindow (L.stackTop c) (cpu.reg .rsp - 48) then .ownStack else .otherStack) :
    FrameKept L (switchTo L k' n).cpu.mem running c ((switchTo L k' n).processes c) (SavedFrame.ofCpu cpu) o := by
  have hcur : k'.currentProcess = some c := hk'.current_eq.trans hc
  have hcpu' : k'.cpu = cpu := hk'.cpu_eq
  have hrsp : ((switchTo L k' n).processes c).savedRsp = cpu.reg .rsp - 48 := by
    rw [switchTo_processes, ← hcpu']
    exact switchedRsp_current hcur n
  have hst : ((switchTo L k' n).processes c).kernelStack = L.stackTop c :=
    ((switchTo_sameIdentity L hready c).trans (hk'.identity c)).kernelStack_eq.trans
      (h.current_stack hc)
  by_cases hwin : OwnWindow (L.stackTop c) (cpu.reg .rsp - 48)
  · rw [if_pos hwin] at ho
    subst ho
    refine ⟨hst, hrsp ▸ hwin, Or.inr ?_⟩
    have hroom := hcpu.room
    have hslot := L.savedRspAddr_outside c
    have hlo : L.kernelStacks ≤ cpu.reg .rsp - 48 ∧ cpu.reg .rsp + 8 ≤
        L.kernelStacks + 64 * processStackSize := by
      obtain ⟨hlo, hhi⟩ := hwin
      have hi := c.isLt
      simp only [Layout.stackTop, processStackSize] at hlo hhi ⊢
      omega
    have hframe := run_contextSwitch_frame
      (c := (cpu.setReg .rdi (L.savedRspAddr c)).setReg .rsi (k'.processes n).savedRsp)
      (by simpa using hroom) (by simp; omega)
    rw [hrsp, switchTo_cpu]
    simp only [switchedCpu, hcur, hcpu']
    simpa [SavedFrame.ofCpu] using hframe
  · rw [if_neg hwin] at ho
    subst ho
    exact ⟨hst, hrsp ▸ hwin⟩

theorem FramesKept.switched (h : FramesKept L s) (hcpu : Computes L s.kernel cpu) {k' : KState}
    (hk' : SameContexts (s.kernel.onCpu cpu) k') {n : Slot}
    (hn : s.kernel.currentProcess ≠ some n) (hready : (k'.processes n).state = .ready)
    (hnum : WellNumbered (switchTo L k' n)) (hown : s.origin n = .ownStack) :
    FramesKept L (s.switchedOut L cpu (switchTo L k' n)) := by
  have hcur : k'.currentProcess = s.kernel.currentProcess := hk'.current_eq
  have hlive : ∀ j, ((switchTo L k' n).processes j).state ≠ .unused →
      (s.kernel.processes j).state ≠ .unused := fun j hj hun =>
    hj (((switchTo_sameIdentity L hready j).trans (hk'.identity j)).unused_iff.mpr hun)
  have hstack : ∀ j, ((switchTo L k' n).processes j).kernelStack =
      (s.kernel.processes j).kernelStack := fun j =>
    ((switchTo_sameIdentity L hready j).trans (hk'.identity j)).kernelStack_eq
  -- everybody but the previous process keeps its frame; the one switched to has consumed it
  have hothers : ∀ j, s.kernel.currentProcess ≠ some j →
      ((switchTo L k' n).processes j).state ≠ .unused →
      FrameKept L (switchTo L k' n).cpu.mem ((switchTo L k' n).currentProcess = some j) j
        ((switchTo L k' n).processes j) (s.frame j) (s.origin j) := by
    intro j hj hlj
    refine (h.kept j (hlive j hlj)).congr (hstack j) ?_ (fun hr => absurd hr hj) (fun _ a ha => ?_)
      fun hr => absurd hr hj
    · rw [switchTo_processes]
      exact (switchedRsp_of_ne (by rw [hcur]; exact hj) n).trans (hk'.savedRsp_eq j)
    · rw [switchTo_cpu]
      exact switchedCpu_mem h hcpu hk' n hj ha
  rcases Option.eq_none_or_eq_some s.kernel.currentProcess with hc | ⟨c, hc⟩
  · simp only [switchedOut, hc]
    refine ⟨hnum, fun d hd => ?_, fun j hj => hothers j (by rw [hc]; nofun) hj⟩
    obtain rfl : n = d := by simpa using hd
    exact hown
  · obtain ⟨o, ho⟩ : ∃ o, o = if OwnWindow (L.stackTop c) (cpu.reg .rsp - 48) then
        FrameOrigin.ownStack else FrameOrigin.otherStack := ⟨_, rfl⟩
    simp only [switchedOut, hc, ← ho]
    have hcn : c ≠ n := fun heq => hn (heq ▸ hc)
    refine ⟨hnum, fun d hd => ?_, fun j hj => ?_⟩
    · obtain rfl : n = d := by simpa using hd
      simpa [Ne.symm hcn] using hown
    · by_cases hjc : j = c
      · subst hjc
        simp only [update_self]
        exact h.previous hcpu hk' hc hready _ ho
      · simp only [update_of_ne hjc]
        refine hothers j (fun heq => hjc ?_) hj
        exact Option.some.inj (heq.symm.trans hc)

theorem next_step (h : FramesKept L s) {l : CallOn} (hcpu : Computes L s.kernel l.1) :
    (ResumesOwnFrame L s l (s.next L l) ↔ SwitchesToSwitchedOut s l) ∧
    (ResumesOwnFrame L s l (s.next L l) → FramesKept L (s.next L l)) := by
  obtain ⟨cpu, call⟩ := l
  have hnum' := wellNumbered_onCpu h.numbered cpu
  have hnum := Call.exec_wellNumbered (L := L) hnum' call
  -- a call without a target resumes nobody
  have hquiet : call.target (s.kernel.onCpu cpu) = none → FramesKept L (s.next L (cpu, call)) →
      (ResumesOwnFrame L s (cpu, call) (s.next L (cpu, call)) ↔
        SwitchesToSwitchedOut s (cpu, call)) ∧
      (ResumesOwnFrame L s (cpu, call) (s.next L (cpu, call)) →
        FramesKept L (s.next L (cpu, call))) := by
    intro ht hk
    refine ⟨iff_of_true (fun n hn => ?_) fun n hn => ?_, fun _ => hk⟩
    all_goals
      simp only [ht] at hn
      cases hn
  rcases Option.eq_none_or_eq_some (call.filledSlot (s.kernel.onCpu cpu)) with hf | ⟨i, hf⟩
  · rcases Option.eq_none_or_eq_some (call.reapedSlot (s.kernel.onCpu cpu)) with hr | ⟨i, hr⟩
    · obtain ⟨k', hk', ⟨ht, hx⟩ | ⟨n, ht, hn, hready, hx⟩⟩ :=
        Call.exec_of_neither (L := L) hnum'.current_live hf hr
      · refine hquiet ht ?_
        rw [hx] at hnum
        simp only [next, hf, ht, hx]
        refine h.of_entries hnum hk'.current_eq (fun j hj => ⟨?_, ?_, hk'.savedRsp_eq j⟩) ?_
        · exact fun hun => hj ((hk'.identity j).unused_iff.mpr hun)
        · exact (hk'.identity j).kernelStack_eq
        · intro i hi a ha
          rw [hk'.cpu_eq]
          exact computes_mem h hcpu hi ha
      · have hlive : (s.kernel.processes n).state ≠ .unused := fun hun => by
          have := (hk'.identity n).unused_iff.mpr hun
          rw [hready] at this
          cases this
        have hiff := switch_iff h hcpu hk' hn hlive
        rw [hx] at hnum
        have hnext : s.next L (cpu, call) = s.switchedOut L cpu (switchTo L k' n) := by
          simp only [next, hf, ht, hx]
        have hres : ResumesOwnFrame L s (cpu, call) (s.next L (cpu, call)) ↔
            s.origin n = .ownStack := by
          rw [← hiff, ResumesOwnFrame]
          simp only [ht, hnext, switchedOut_kernel, switchTo_cpu, Option.some.injEq]
          exact ⟨fun hall => hall n rfl, fun hone m hm => hm ▸ hone⟩
        have hguard : SwitchesToSwitchedOut s (cpu, call) ↔ s.origin n = .ownStack := by
          simp only [SwitchesToSwitchedOut, ht, Option.some.injEq]
          exact ⟨fun hall => hall n rfl, fun hone m hm => hm ▸ hone⟩
        refine ⟨hres.trans hguard.symm, fun hq => ?_⟩
        rw [hnext]
        exact h.switched hcpu hk' hn hready hnum (hres.mp hq)
    · obtain ⟨c, _, _, hz, hx⟩ := Call.exec_of_reaped (L := L) hr
      refine hquiet (Call.target_of_reaped hr) ?_
      rw [hx] at hnum
      simp only [next, hf, Call.target_of_reaped hr, hx]
      refine h.of_entries hnum rfl (fun j hj => ?_) fun i hi a ha => computes_mem h hcpu hi ha
      by_cases hji : j = i
      · subst hji; simp at hj
      · rw [KState.setProcess_processes_of_ne _ _ hji] at hj ⊢
        exact ⟨hj, rfl, rfl⟩
  · cases call with
    | create entry name ring => exact hquiet rfl (h.create hcpu)
    | fork => exact hquiet rfl (h.fork hcpu)
    | _ => cases hf

end Step

/-! ## Runs -/

/-- **Context switches, over whole runs.** From any state whose frames are kept (in particular from
`process_init`, see `framesKept_boot`), a run resumes every process it switches to from exactly the
frame it is owed, on its own kernel stack, if and only if it switches only to processes that
`context_switch` switched out on their own stack. -/
theorem resumesOwnFrame_iff (L : Layout) {s : Contexts} {tr : List (CallOn × Contexts)}
    (h : FramesKept L s) (htr : Trace (Step L) s tr) :
    AllSteps (ResumesOwnFrame L) s tr ↔ Guarded SwitchesToSwitchedOut s tr := by
  refine htr.allSteps_iff_guarded (J := FramesKept L) ?_ ?_ h
  · rintro s l _ hs ⟨hcpu, rfl⟩
    exact (next_step hs hcpu).1
  · rintro s l _ hs ⟨hcpu, rfl⟩
    exact (next_step hs hcpu).2

/-- Two processes, 0 running and 1 switched out on its own stack, all of whose words hold one code
address. -/
def twoProcesses (L : Layout) : Contexts where
  kernel :=
    { KState.bare with
      cpu := { reg := fun _ => L.stackTop firstSlot - 64, rip := 0x401000, rflags := 0x202,
               mem := fun _ => 0x401000 }
      processes := fun i =>
        if i.val = 0 then
          { pid := 0, ppid := -1, state := .running, kernelStack := L.stackTop firstSlot,
            savedRsp := L.stackTop firstSlot - 56 }
        else if i.val = 1 then
          { pid := 1, ppid := 0, state := .ready, kernelStack := L.stackTop secondSlot,
            savedRsp := L.stackTop secondSlot - 56 }
        else {}
      currentProcess := some firstSlot }
  origin := fun _ => .ownStack
  frame := fun _ => { r15 := 0x401000, r14 := 0x401000, r13 := 0x401000, r12 := 0x401000,
                      rbx := 0x401000, rbp := 0x401000, ret := 0x401000 }

theorem twoProcesses_live {L : Layout} {i : Slot}
    (h : ((twoProcesses L).kernel.processes i).state ≠ .unused) : i = 0 ∨ i = 1 := by
  by_cases h0 : i.val = 0
  · exact Or.inl (Fin.ext h0)
  · by_cases h1 : i.val = 1
    · exact Or.inr (Fin.ext h1)
    · have hi : (twoProcesses L).kernel.processes i = {} := (if_neg h0).trans (if_neg h1)
      rw [hi] at h
      exact absurd rfl h

theorem framesKept_twoProcesses : FramesKept sampleLayout (twoProcesses sampleLayout) where
  numbered :=
    { current_live := fun c hc => by
        obtain rfl : 0 = c := Option.some.inj hc
        decide
      pid_eq := fun i hi => by rcases twoProcesses_live hi with rfl | rfl <;> rfl
      ppid_ne := fun i hi => by rcases twoProcesses_live hi with rfl | rfl <;> decide }
  current_own := fun _ _ => rfl
  kept := fun i hi => by
    rcases twoProcesses_live hi with rfl | rfl
    · exact ⟨rfl, by decide, Or.inl rfl⟩
    · exact ⟨rfl, by decide, Or.inr ⟨rfl, rfl, rfl, rfl, rfl, rfl, rfl, trivial⟩⟩

theorem computes_twoProcesses :
    Computes sampleLayout (twoProcesses sampleLayout).kernel
      (twoProcesses sampleLayout).kernel.cpu where
  room := by decide
  stack := Or.inl ⟨0, rfl, by decide⟩
  mem_eq := fun _ _ _ _ => rfl

/-- The trace of a single call on the CPU as it is. -/
def oneCall (L : Layout) (s : Contexts) (call : Call) : List (CallOn × Contexts) :=
  [((s.kernel.cpu, call), s.next L (s.kernel.cpu, call))]

/-- Process 0 yields to process 1, which resumes where it left off. -/
theorem yield_resumes : AllSteps (ResumesOwnFrame sampleLayout) (twoProcesses sampleLayout)
      (oneCall sampleLayout (twoProcesses sampleLayout) .yield) := by
  have htr : Trace (Step sampleLayout) (twoProcesses sampleLayout)
      (oneCall sampleLayout (twoProcesses sampleLayout) .yield) :=
    .cons ⟨computes_twoProcesses, rfl⟩ (.nil _)
  have hguard : Guarded SwitchesToSwitchedOut (twoProcesses sampleLayout)
      (oneCall sampleLayout (twoProcesses sampleLayout) .yield) :=
    ⟨fun _ _ => rfl, trivial⟩
  exact (resumesOwnFrame_iff sampleLayout framesKept_twoProcesses htr).mpr hguard

/-- Right after `process_init`. -/
def boot (L : Layout) (k : KState) : Contexts :=
  ⟨processInit k, fun _ => .created, fun _ => SavedFrame.fresh L⟩

/-- The first process ever scheduled does not start at the trampoline: `ret` takes the word meant for
`r15`, a zero. -/
theorem created_process_resumes_at_zero : ¬ ∀ (L : Layout) (k : KState) (tr : List (CallOn × Contexts)),
      Trace (Step L) (boot L k) tr → AllSteps (ResumesOwnFrame L) (boot L k) tr := by
  intro hall
  let k : KState := { KState.bare with cpu := { KState.bare.cpu with reg := fun _ => 0x9000 } }
  let create : CallOn := (k.cpu, .create 0x400000 [] .ring0)
  let s₁ : Contexts := (boot sampleLayout k).next sampleLayout create
  let s₂ : Contexts := s₁.next sampleLayout (s₁.kernel.cpu, .scheduler)
  have hboot : Computes sampleLayout (boot sampleLayout k).kernel k.cpu :=
    { room := by decide
      stack := Or.inr (Or.inl (by decide))
      mem_eq := fun _ _ _ _ => rfl }
  have hcreated : Computes sampleLayout s₁.kernel s₁.kernel.cpu :=
    { room := by decide
      stack := Or.inr (Or.inl (by decide))
      mem_eq := fun _ _ _ _ => rfl }
  have h := hall sampleLayout k [(create, s₁), ((s₁.kernel.cpu, .scheduler), s₂)]
    (.cons ⟨hboot, rfl⟩ (.cons ⟨hcreated, rfl⟩ (.nil _)))
  have hres := (h.2.1 0 (by decide)).1.rip_eq
  exact absurd hres (by decide)

end Contexts

end Chicago95.Kernel
