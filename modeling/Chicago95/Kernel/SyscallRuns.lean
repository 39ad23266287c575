/-
# Chicago95.Kernel.SyscallRuns — several processes on one syscall stack.

Any number of processes run user code, enter the kernel through `syscall_entry`, block there (a handler
such as `sys_wait`, `sys_sleep` or `sys_yield` reaches `context_switch`), are resumed, and return. There
is one memory; every entry builds its frame at the same address of the same stack.
-/
import Chicago95.Lib.Transition
import Chicago95.Kernel.SyscallEntry

namespace Chicago95.Kernel.Entry

open Chicago95.Lib.X86 Chicago95.Lib.Transition
open Function (update_of_ne update_self update)

/-! ## States and steps -/

/-- Where a process is. -/
inductive Mode where
  | user
  /-- in a system call made from this context -/
  | inCall (caller : UserContext)
  /-- resumed on a stack that is no longer its own -/
  | derailed

/-- The CPU, who has it, where everyone is, and what was kept of those who were switched out: their
user context, or their stack pointer and the memory as it was. -/
structure EntryState where
  cpu : Cpu
  running : Nat
  mode : Nat → Mode
  context : Nat → UserContext
  savedRsp : Nat → Nat
  savedMem : Nat → Nat → Nat

/-- What happens next. -/
inductive Action where
  | compute
  | syscall
  | work
  | switchTo (next : Nat)
  | sysret
  | derailed
  deriving DecidableEq

/-- Addresses on the syscall stack, and the word beside it. -/
def EntryImage.Owns (I : EntryImage) (a : Nat) : Prop :=
  (I.kstack ≤ a ∧ a < I.kstackTop) ∨ a = I.userRspSave

/-- The running process may be switched out: it is in user mode, or its handler is somewhere on the
syscall stack below the return address. -/
def EntryState.CanPark (I : EntryImage) (s : EntryState) : Prop :=
  s.mode s.running = .user ∨
    ∃ u, s.mode s.running = .inCall u ∧
      I.kstack ≤ s.cpu.reg .rsp ∧ s.cpu.reg .rsp ≤ I.frame - 8

/-- The running process is switched out. -/
def EntryState.park (s : EntryState) : EntryState :=
  { s with
    context := update s.context s.running (.ofCpu s.cpu)
    savedRsp := update s.savedRsp s.running (s.cpu.reg .rsp)
    savedMem := update s.savedMem s.running s.cpu.mem }

/-- The running process makes a system call. -/
def EntryState.entered (I : EntryImage) (s : EntryState) : EntryState :=
  { s with
    cpu := enterKernel I s.cpu
    mode := update s.mode s.running (.inCall (.ofCpu s.cpu)) }

/-- The running process returns from its system call. -/
def EntryState.returned (I : EntryImage) (s : EntryState) : EntryState :=
  { s with
    cpu := leaveKernel I s.cpu
    mode := update s.mode s.running .user }

@[simp] theorem entered_cpu (I : EntryImage) (s : EntryState) : (s.entered I).cpu = enterKernel I s.cpu := rfl

@[simp] theorem returned_cpu (I : EntryImage) (s : EntryState) : (s.returned I).cpu = leaveKernel I s.cpu := rfl

/-- The running process is switched out and `next` goes on with `cpu`. -/
def EntryState.switched (s : EntryState) (next : Nat) (cpu : Cpu) : EntryState :=
  { s.park with cpu := cpu, running := next }

/-- The handler of `p` finds its quadwords, from its stack pointer up to the frame, as it left them. -/
def EntryState.StackIntact (I : EntryImage) (s : EntryState) (p : Nat) : Prop :=
  ∀ k, s.savedRsp p + 8 * k < I.frame →
    s.cpu.mem (s.savedRsp p + 8 * k) = s.savedMem p (s.savedRsp p + 8 * k)

/-- One step of the system. -/
inductive EntryStep (I : EntryImage) : EntryState → Action → EntryState → Prop
  | compute {s : EntryState} {cpu : Cpu} : s.mode s.running = .user →
      (∀ a, I.Owns a → cpu.mem a = s.cpu.mem a) →
      EntryStep I s .compute { s with cpu := cpu }
  | syscall {s : EntryState} : s.mode s.running = .user →
      EntryStep I s .syscall (s.entered I)
  | work {s : EntryState} {cpu : Cpu} {u : UserContext} : s.mode s.running = .inCall u →
      (∀ a, I.frame - 8 ≤ a → a < I.kstackTop → a ≠ I.frame + 112 → cpu.mem a = s.cpu.mem a) →
      EntryStep I s .work { s with cpu := cpu }
  | toUser {s : EntryState} {next : Nat} : s.CanPark I → next ≠ s.running →
      s.mode next = .user →
      EntryStep I s (.switchTo next) (s.switched next ((s.context next).load s.cpu.mem))
  | toCall {s : EntryState} {next : Nat} {cpu : Cpu} {u : UserContext} : s.CanPark I →
      next ≠ s.running → s.mode next = .inCall u → s.StackIntact I next → cpu.mem = s.cpu.mem →
      EntryStep I s (.switchTo next) (s.switched next cpu)
  | toDamaged {s : EntryState} {next : Nat} {cpu : Cpu} {u : UserContext} : s.CanPark I →
      next ≠ s.running → s.mode next = .inCall u → ¬ s.StackIntact I next →
      EntryStep I s (.switchTo next)
        { s.switched next cpu with mode := update s.mode next .derailed }
  | toDerailed {s : EntryState} {next : Nat} {cpu : Cpu} : s.CanPark I →
      next ≠ s.running → s.mode next = .derailed →
      EntryStep I s (.switchTo next) (s.switched next cpu)
  | sysret {s : EntryState} {u : UserContext} : s.mode s.running = .inCall u →
      EntryStep I s .sysret (s.returned I)
  | derailed {s t : EntryState} : s.mode s.running = .derailed → EntryStep I s .derailed t

/-! ## The property -/

/-- Back in user mode in the caller's own context, `rax`, `rcx` and `r11` excepted. -/
structure ReturnsTo (c : Cpu) (u : UserContext) : Prop where
  rip : c.rip = u.rip
  rflags : c.rflags = u.rflags
  reg : ∀ r, r ≠ .rax → r ≠ .rcx → r ≠ .r11 → c.reg r = u.reg r

/-- **Frame isolation**, of one step: a return is to the caller's own context, and nobody is resumed on
an overwritten stack. -/
def ReturnsOwn (s : EntryState) (a : Action) (t : EntryState) : Prop :=
  (a = .sysret → ∀ u, s.mode s.running = .inCall u → ReturnsTo t.cpu u) ∧
    ∀ p, t.mode p ≠ .derailed

/-- Before a `SYSCALL`: the scratch register holds what it is overwritten with, and no other process is
inside a call. -/
def CallsAlone (s : EntryState) (a : Action) : Prop :=
  a = .syscall →
    s.cpu.reg .r15 = s.cpu.reg .rsp ∧ ∀ p, p ≠ s.running → ∀ u, s.mode p ≠ .inCall u

/-- Everyone is in user mode. -/
def AllUser (s : EntryState) : Prop := ∀ p, s.mode p = .user

/-! ## The frame of a caller -/

/-- The frame of a caller is on the stack, whatever its `rax` slot holds by now. -/
def FrameOf (I : EntryImage) (mem : Nat → Nat) (u : UserContext) : Prop :=
  ∃ rax, Stored mem I.frame { SyscallFrame.ofUser u with rax := rax }.words

theorem EntryImage.frame_add (I : EntryImage) : I.frame + 160 = I.kstackTop := by
  have := I.room
  unfold EntryImage.frame
  omega

theorem FrameOf.congr {I : EntryImage} {mem mem' : Nat → Nat} {u : UserContext} (h : FrameOf I mem u)
    (hag : ∀ a, I.frame ≤ a → a < I.kstackTop → a ≠ I.frame + 112 → mem' a = mem a) : FrameOf I mem' u := by
  obtain ⟨rax, hst⟩ := h
  have htop := I.frame_add
  refine ⟨mem' (I.frame + 112), ?_⟩
  -- fourteen words, the `rax` slot, five words
  have hsplit : ∀ v, { SyscallFrame.ofUser u with rax := v }.words =
      ({ SyscallFrame.ofUser u with rax := v }.words.take 14) ++
        v :: ({ SyscallFrame.ofUser u with rax := v }.words.drop 15) := fun v => rfl
  rw [hsplit, stored_append, stored_cons] at hst ⊢
  obtain ⟨hlow, _, hhigh⟩ := hst
  refine ⟨hlow.congr fun x hx hlt => hag x hx ?_ ?_, rfl, hhigh.congr fun x hx hlt => hag x ?_ ?_ ?_⟩
  all_goals
    simp only [SyscallFrame.words, List.take, List.drop, List.length_cons, List.length_nil] at hx hlt
    omega

theorem FrameOf.returnsTo {I : EntryImage} {c : Cpu} {u : UserContext} (h : FrameOf I c.mem u)
    (hr15 : u.reg .r15 = u.reg .rsp) : ReturnsTo (leaveKernel I c) u := by
  obtain ⟨rax, hst⟩ := h
  obtain ⟨hrip, hrflags, hreg⟩ := run_exit hst
  refine ⟨hrip, hrflags, fun r hrax hrcx hr11 => ?_⟩
  rw [hreg r]
  cases r
  case rax => exact absurd rfl hrax
  case rcx => exact absurd rfl hrcx
  case r11 => exact absurd rfl hr11
  case r15 => exact hr15.symm
  all_goals rfl

/-! ## The invariant -/

/-- At most one process is inside a call; its frame is in place, and if it is switched out, so is the
stack of its handler. -/
structure Sound (I : EntryImage) (s : EntryState) : Prop where
  frame : ∀ p u, s.mode p = .inCall u → u.reg .r15 = u.reg .rsp ∧ FrameOf I s.cpu.mem u
  alone : ∀ p q u w, s.mode p = .inCall u → s.mode q = .inCall w → p = q
  kept : ∀ p u, s.mode p = .inCall u → p ≠ s.running →
    I.kstack ≤ s.savedRsp p ∧ s.StackIntact I p
  onStack : ∀ p, s.mode p ≠ .derailed

theorem AllUser.sound {I : EntryImage} {s : EntryState} (h : AllUser s) : Sound I s where
  frame p u hp := by rw [h p] at hp; cases hp
  alone p q u w hp := by rw [h p] at hp; cases hp
  kept p u hp := by rw [h p] at hp; cases hp
  onStack p hp := by rw [h p] at hp; cases hp

theorem Sound.compute {I : EntryImage} {s : EntryState} {cpu : Cpu} (h : Sound I s)
    (hcpu : ∀ a, I.Owns a → cpu.mem a = s.cpu.mem a) : Sound I { s with cpu := cpu } where
  frame p u hp := by
    obtain ⟨hr15, hframe⟩ := h.frame p u hp
    refine ⟨hr15, hframe.congr fun a hle hlt _ => hcpu a (Or.inl ⟨?_, hlt⟩)⟩
    have := I.frame_add
    unfold EntryImage.kstack
    omega
  alone := h.alone
  kept p u hp hne := by
    obtain ⟨hle, hintact⟩ := h.kept p u hp hne
    refine ⟨hle, fun k (hk : s.savedRsp p + 8 * k < I.frame) => ?_⟩
    show cpu.mem (s.savedRsp p + 8 * k) = s.savedMem p (s.savedRsp p + 8 * k)
    rw [← hintact k hk]
    have := I.frame_add
    exact hcpu _ (Or.inl ⟨by omega, by omega⟩)
  onStack := h.onStack

theorem Sound.syscall {I : EntryImage} {s : EntryState} (h : Sound I s) (hr15 : s.cpu.reg .r15 = s.cpu.reg .rsp)
    (halone : ∀ p, p ≠ s.running → ∀ u, s.mode p ≠ .inCall u) : Sound I (s.entered I) := by
  have honly : ∀ p u, update s.mode s.running (.inCall (.ofCpu s.cpu)) p = .inCall u →
      p = s.running ∧ u = .ofCpu s.cpu := by
    intro p u hp
    by_cases hpr : p = s.running
    · rw [hpr, update_self] at hp
      exact ⟨hpr, (Mode.inCall.inj hp).symm⟩
    · rw [update_of_ne hpr] at hp
      exact absurd hp (halone p hpr u)
  refine ⟨fun p u hp => ?_, fun p q u w hp hq => ?_, fun p u hp hne => ?_, fun p hp => ?_⟩
  · obtain ⟨_, rfl⟩ := honly p u hp
    exact ⟨hr15, _, (run_entry I s.cpu).2.2⟩
  · rw [(honly p u hp).1, (honly q w hq).1]
  · exact absurd (honly p u hp).1 hne
  · by_cases hpr : p = s.running
    · change update s.mode s.running _ p = _ at hp
      rw [hpr, update_self] at hp
      cases hp
    · change update s.mode s.running _ p = _ at hp
      rw [update_of_ne hpr] at hp
      exact h.onStack p hp

theorem Sound.work {I : EntryImage} {s : EntryState} {cpu : Cpu} {u : UserContext} (h : Sound I s)
    (hrun : s.mode s.running = .inCall u)
    (hcpu : ∀ a, I.frame - 8 ≤ a → a < I.kstackTop → a ≠ I.frame + 112 →
      cpu.mem a = s.cpu.mem a) : Sound I { s with cpu := cpu } where
  frame p u' hp := by
    obtain ⟨hr15, hframe⟩ := h.frame p u' hp
    exact ⟨hr15, hframe.congr fun a hle hlt hne => hcpu a (by omega) hlt hne⟩
  alone := h.alone
  kept p u' hp hne := absurd (h.alone p s.running u' u hp hrun) hne
  onStack := h.onStack

theorem Sound.switch {I : EntryImage} {s : EntryState} {next : Nat} {cpu : Cpu} (h : Sound I s)
    (hpark : s.CanPark I) (hcpu : cpu.mem = s.cpu.mem) :
    Sound I (s.switched next cpu) where
  frame p u hp := by
    show _ ∧ FrameOf I cpu.mem u
    rw [hcpu]
    exact h.frame p u hp
  alone := h.alone
  kept p u hp _ := by
    simp only [EntryState.StackIntact, EntryState.switched, EntryState.park, hcpu]
    by_cases hpr : p = s.running
    · -- just switched out: its stack is the memory as it is
      subst hpr
      rw [update_self, update_self]
      refine ⟨?_, fun _ _ => rfl⟩
      rcases hpark with huser | ⟨_, _, hle, _⟩
      · rw [show s.mode s.running = .inCall u from hp] at huser
        cases huser
      · exact hle
    · rw [update_of_ne hpr, update_of_ne hpr]
      exact h.kept p u hp hpr
  onStack := h.onStack

theorem Sound.sysret {I : EntryImage} {s : EntryState} {u : UserContext} (h : Sound I s)
    (hrun : s.mode s.running = .inCall u) : Sound I (s.returned I) := by
  refine AllUser.sound fun p => ?_
  show update s.mode s.running .user p = .user
  by_cases hpr : p = s.running
  · rw [hpr, update_self]
  · rw [update_of_ne hpr]
    rcases hm : s.mode p with _ | w | _
    · rfl
    · exact absurd (h.alone p s.running w u hm hrun) hpr
    · exact absurd hm (h.onStack p)

/-! ## Runs -/

theorem sound_step {I : EntryImage} {s t : EntryState} {a : Action} (h : Sound I s)
    (hstep : EntryStep I s a t) (hguard : CallsAlone s a) : Sound I t ∧ ReturnsOwn s a t := by
  have hQ : Sound I t → (a = .sysret → ∀ u, s.mode s.running = .inCall u → ReturnsTo t.cpu u) →
      Sound I t ∧ ReturnsOwn s a t := fun ht hret => ⟨ht, hret, ht.onStack⟩
  cases hstep with
  | compute _ hcpu => exact hQ (h.compute hcpu) (by intro ha; cases ha)
  | syscall _ =>
    obtain ⟨hr15, halone⟩ := hguard rfl
    exact hQ (h.syscall hr15 halone) (by intro ha; cases ha)
  | work hrun hcpu => exact hQ (h.work hrun hcpu) (by intro ha; cases ha)
  | toUser hpark _ _ => exact hQ (h.switch hpark rfl) (by intro ha; cases ha)
  | toCall hpark _ _ _ hcpu => exact hQ (h.switch hpark hcpu) (by intro ha; cases ha)
  | toDamaged _ hne hnext hdamaged => exact absurd (h.kept _ _ hnext hne).2 hdamaged
  | toDerailed _ _ hnext => exact absurd hnext (h.onStack _)
  | sysret hrun =>
    refine hQ (h.sysret hrun) fun _ u hu => ?_
    obtain ⟨hr15, hframe⟩ := h.frame _ u hu
    exact hframe.returnsTo hr15
  | derailed hrun => exact absurd hrun (h.onStack _)

/-- **Runs return everyone's own context**, if every `SYSCALL` is made with `r15 = rsp` and while no
other process is inside a system call. -/
theorem runs_return_own {I : EntryImage} {s : EntryState} {tr : List (Action × EntryState)}
    (htr : Trace (EntryStep I) s tr) (hstart : AllUser s) (hguard : Guarded CallsAlone s tr) :
    AllSteps ReturnsOwn s tr :=
  htr.allSteps_of_guarded (Q := ReturnsOwn) (fun _ _ _ h hst hg => sound_step h hst hg)
    hstart.sound hguard

/-! ## Two processes -/

theorem sampleImage_room : 0x4000 ≤ 0xFFFFFFFF80308000 := by decide

theorem sampleImage_save : 0xFFFFFFFF80300000 + 8 ≤ 0xFFFFFFFF80308000 - 0x4000 := by decide

/-- A link of the stub: its stack tops out at `0xFFFFFFFF80308000`. -/
def sampleImage : EntryImage where
  kstackTop := 0xFFFFFFFF80308000
  userRspSave := 0xFFFFFFFF80300000
  entry := 0xFFFFFFFF80200100
  handler := 0xFFFFFFFF80210000
  handlerReturn := 0xFFFFFFFF80200180
  room := sampleImage_room
  saveOutside := Or.inl sampleImage_save

/-- User code at `rip`, with a stack pointer and the register the stub misses. -/
def userAt (rip rsp r15 : Nat) : UserContext where
  reg r := if r = .rsp then rsp else if r = .r15 then r15 else 0
  rip := rip
  rflags := 0x202

/-- Process 0 runs in the given context; every other one is ready to run at `0x500000`. -/
def usersWith (u : UserContext) : EntryState where
  cpu := u.load fun _ => 0
  running := 0
  mode _ := .user
  context _ := userAt 0x500000 0x9000 0x9000
  savedRsp _ := 0
  savedMem _ _ := 0

/-- Process 0 runs at `0x400000`, its stack pointer also in `r15`. -/
def twoUsers : EntryState := usersWith (userAt 0x400000 0x7000 0x7000)

/-- Process 0 enters the kernel and yields to process 1. -/
def yielded : EntryState :=
  (twoUsers.entered sampleImage).switched 1
    ((userAt 0x500000 0x9000 0x9000).load (twoUsers.entered sampleImage).cpu.mem)

/-- Process 1 makes a system call of its own, returns, and process 0 is resumed. -/
def resumed : EntryState :=
  ((yielded.entered sampleImage).returned sampleImage).switched 0
    ((yielded.entered sampleImage).returned sampleImage).cpu

theorem step_yielded : EntryStep sampleImage (twoUsers.entered sampleImage) (.switchTo 1) yielded :=
  .toUser (Or.inr ⟨_, rfl, by decide, by decide⟩) (by decide) rfl

theorem step_resumed : EntryStep sampleImage ((yielded.entered sampleImage).returned sampleImage) (.switchTo 0)
      resumed := by
  refine .toCall (Or.inl rfl) (by decide) (u := .ofCpu twoUsers.cpu) rfl ?_ rfl
  intro k hk
  have hsaved : ((yielded.entered sampleImage).returned sampleImage).savedRsp 0
      = sampleImage.frame - 8 := by decide
  rw [hsaved] at hk ⊢
  obtain rfl : k = 0 := by omega
  decide

theorem overwritten_frame : ∃ tr, Trace (EntryStep sampleImage) twoUsers tr ∧ ¬ AllSteps ReturnsOwn twoUsers tr := by
  refine ⟨[(.syscall, _), (.switchTo 1, _), (.syscall, _), (.sysret, _), (.switchTo 0, _),
    (.sysret, _)],
    .cons (.syscall rfl) (.cons step_yielded (.cons (.syscall rfl) (.cons
      (.sysret (u := .ofCpu yielded.cpu) rfl) (.cons step_resumed (.cons
        (.sysret (u := .ofCpu twoUsers.cpu) rfl) (.nil _)))))), ?_⟩
  rintro ⟨_, _, _, _, _, hlast, _⟩
  have hrip : (resumed.returned sampleImage).cpu.rip = 0x400000 :=
    (hlast.1 rfl (.ofCpu twoUsers.cpu) rfl).rip
  exact absurd hrip (by decide)

theorem lone_call_loses_r15 {I : EntryImage} {s : EntryState} (huser : s.mode s.running = .user)
    (hne : s.cpu.reg .r15 ≠ s.cpu.reg .rsp) : ∃ tr, Trace (EntryStep I) s tr ∧ ¬ AllSteps ReturnsOwn s tr := by
  have hmode : (s.entered I).mode (s.entered I).running = .inCall (.ofCpu s.cpu) :=
    update_self ..
  refine ⟨[(.syscall, _), (.sysret, _)], .cons (.syscall huser) (.cons (.sysret hmode) (.nil _)), ?_⟩
  rintro ⟨_, hlast, _⟩
  have hr15 := (hlast.1 rfl _ hmode).reg .r15 (by decide) (by decide) (by decide)
  rw [returned_cpu, entered_cpu, entry_exit_r15] at hr15
  exact hne hr15.symm

/-- Frame isolation fails for one process alone, and for two that both keep `r15 = rsp`. -/
theorem frames_not_isolated : (AllUser (usersWith (userAt 0x400000 0x7000 1)) ∧
      ∃ tr, Trace (EntryStep sampleImage) (usersWith (userAt 0x400000 0x7000 1)) tr ∧
        ¬ AllSteps ReturnsOwn (usersWith (userAt 0x400000 0x7000 1)) tr) ∧ (AllUser twoUsers ∧
      ∃ tr, Trace (EntryStep sampleImage) twoUsers tr ∧ ¬ AllSteps ReturnsOwn twoUsers tr) :=
  ⟨⟨fun _ => rfl, lone_call_loses_r15 rfl (by decide)⟩, fun _ => rfl, overwritten_frame⟩

/-- Process 0 yields to process 1, which only computes, and is resumed. -/
theorem yield_returns_own : AllSteps ReturnsOwn twoUsers
      [(.syscall, twoUsers.entered sampleImage), (.switchTo 1, yielded), (.switchTo 0, yielded.switched 0 yielded.cpu),
        (.sysret, (yielded.switched 0 yielded.cpu).returned sampleImage)] := by
  refine runs_return_own (I := sampleImage) (.cons (.syscall rfl) (.cons step_yielded (.cons
    (.toCall (Or.inl rfl) (by decide) (u := .ofCpu twoUsers.cpu) rfl ?_ rfl) (.cons
      (.sysret (u := .ofCpu twoUsers.cpu) rfl) (.nil _))))) (fun _ => rfl) ?_
  · intro k _
    rfl
  · refine ⟨fun _ => ⟨rfl, fun p _ u hp => ?_⟩, ?_, ?_, ?_, trivial⟩
    · cases hp
    all_goals
      intro ha
      cases ha

end Chicago95.Kernel.Entry
