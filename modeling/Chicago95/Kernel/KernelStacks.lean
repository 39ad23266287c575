/-
# Chicago95.Kernel.KernelStacks — are the kernel stacks kept apart?

Each slot has its own stack in `kernel_stacks`, and `process_create` gives it to the process. A run keeps
the stacks of all processes disjoint, and every `saved_rsp` in its own stack, **exactly when**
-/
import Chicago95.Lib.Transition
import Chicago95.Kernel.Switch

namespace Chicago95.Kernel

open Chicago95.Lib.Transition Chicago95.Lib.X86

/-- `a` is one of the `PROCESS_STACK_SIZE` bytes below `top`. -/
def OnStack (top a : Nat) : Prop := top - processStackSize ≤ a ∧ a < top

/-- The kernel stacks of different processes are disjoint, and each one's saved stack pointer lies in its
own. -/
structure StacksApart (k : KState) : Prop where
  disjoint : ∀ i j : Slot, i ≠ j → (k.processes i).state ≠ .unused →
    (k.processes j).state ≠ .unused →
    ∀ a, ¬ (OnStack (k.processes i).kernelStack a ∧ OnStack (k.processes j).kernelStack a)
  saved_own : ∀ i : Slot, (k.processes i).state ≠ .unused →
    OnStack (k.processes i).kernelStack (k.processes i).savedRsp

/-- A call on the CPU its caller has by then. -/
def callOn (L : Layout) (k : KState) (l : CallOn) : KState := (l.2.exec L (k.onCpu l.1)).2

/-- A fork is refused, and a switch happens on the caller's own stack, 48 bytes above its end at least. -/
def SwitchesOnOwnStack (L : Layout) (k : KState) (l : CallOn) : Prop :=
  match l.2 with
  | .fork => l.2.filledSlot (k.onCpu l.1) = none
  | _ => l.2.target (k.onCpu l.1) ≠ none →
      ∀ c, k.currentProcess = some c → OnStack (L.stackTop c) (l.1.reg .rsp - 48)

/-! ## The invariant -/

theorem stackTop_ge (L : Layout) (i : Slot) : processStackSize ≤ L.stackTop i := by
  unfold Layout.stackTop processStackSize
  omega

theorem stackTop_disjoint (L : Layout) {i j : Slot} (hij : i ≠ j) (a : Nat) :
    ¬ (OnStack (L.stackTop i) a ∧ OnStack (L.stackTop j) a) := by
  rintro ⟨⟨h1, h2⟩, h3, h4⟩
  have hne : i.val ≠ j.val := fun h => hij (Fin.ext h)
  simp only [Layout.stackTop, processStackSize] at h1 h2 h3 h4
  omega

/-- Every process has its slot's own stack, and its saved stack pointer lies there. -/
structure StacksOwn (L : Layout) (k : KState) : Prop where
  numbered : WellNumbered k
  stack_eq : ∀ i : Slot, (k.processes i).state ≠ .unused → (k.processes i).kernelStack = L.stackTop i
  saved_own : ∀ i : Slot, (k.processes i).state ≠ .unused →
    OnStack (L.stackTop i) (k.processes i).savedRsp

theorem stacksOwn_processInit (L : Layout) (k : KState) : StacksOwn L (processInit k) where
  numbered := wellNumbered_processInit k
  stack_eq := fun _ h => absurd rfl h
  saved_own := fun _ h => absurd rfl h

theorem StacksOwn.apart {L : Layout} {k : KState} (h : StacksOwn L k) : StacksApart k where
  disjoint := fun i j hij hi hj a => by
    rw [h.stack_eq i hi, h.stack_eq j hj]
    exact stackTop_disjoint L hij a
  saved_own := fun i hi => by
    rw [h.stack_eq i hi]
    exact h.saved_own i hi

theorem StacksOwn.onCpu {L : Layout} {k : KState} (h : StacksOwn L k) (cpu : Cpu) : StacksOwn L (k.onCpu cpu) :=
  ⟨⟨h.numbered.current_live, h.numbered.pid_eq, h.numbered.ppid_ne⟩, h.stack_eq, h.saved_own⟩

theorem StacksOwn.of_entries {L : Layout} {k k' : KState} (h : StacksOwn L k)
    (hnum : WellNumbered k') (hid : ∀ j, (k'.processes j).SameIdentity (k.processes j))
    (hrsp : ∀ j, (k'.processes j).state ≠ .unused →
      (k'.processes j).savedRsp = (k.processes j).savedRsp ∨
        OnStack (L.stackTop j) (k'.processes j).savedRsp) :
    StacksOwn L k' where
  numbered := hnum
  stack_eq := fun j hj => by
    rw [(hid j).kernelStack_eq]
    exact h.stack_eq j fun hun => hj ((hid j).unused_iff.mpr hun)
  saved_own := fun j hj => by
    rcases hrsp j hj with heq | hown
    · rw [heq]
      exact h.saved_own j fun hun => hj ((hid j).unused_iff.mpr hun)
    · exact hown

/-! ## One call -/

theorem create_stacksOwn {L : Layout} {k : KState} (h : StacksOwn L k) (entry : Nat) (name : List UInt8) (ring : Ring) :
    StacksOwn L ((Call.create entry name ring).exec L k).2 := by
  have hnum := Call.exec_wellNumbered (L := L) h.numbered (.create entry name ring)
  rcases processCreate_cases L k entry name ring with ⟨_, hcr⟩ | ⟨pid, _, hcr⟩
  · simp only [Call.exec, hcr]
    exact h
  · simp only [Call.exec, hcr] at hnum ⊢
    refine ⟨hnum, fun j hj => ?_, fun j hj => ?_⟩
    · by_cases hji : j = pid
      · subst hji; simp [freshProcess]
      · rw [KState.setProcess_processes_of_ne _ _ hji] at hj ⊢
        exact h.stack_eq j hj
    · by_cases hji : j = pid
      · subst hji
        rw [KState.setProcess_processes_self]
        have hge := stackTop_ge L j
        simp only [freshProcess, OnStack, processStackSize] at hge ⊢
        omega
      · rw [KState.setProcess_processes_of_ne _ _ hji] at hj ⊢
        exact h.saved_own j hj

theorem fork_not_apart {L : Layout} {k : KState} (h : StacksOwn L k) {i : Slot}
    (hf : Call.fork.filledSlot k = some i) : ¬ StacksApart (Call.fork.exec L k).2 := by
  obtain ⟨c, hc, hfree⟩ := Option.bind_eq_some_iff.mp hf
  have hun := findUnused_some hfree
  have hlive := h.numbered.current_live c hc
  have hci : c ≠ i := fun heq => hlive (heq ▸ hun)
  rcases processFork_cases k with ⟨hno, _⟩ | ⟨c', pid, hc', hpid, hfk⟩
  · rcases hno with hno | hno
    · rw [hno] at hc; cases hc
    · rw [hno] at hfree; cases hfree
  · obtain rfl : pid = i := Option.some.inj (hpid.symm.trans hfree)
    obtain rfl : c' = c := Option.some.inj (hc'.symm.trans hc)
    intro happ
    simp only [Call.exec, hfk] at happ
    -- the last byte below the parent's `kernel_stack` belongs to both
    have htop := stackTop_ge L c'
    have hbyte : OnStack (k.processes c').kernelStack ((k.processes c').kernelStack - 1) := by
      rw [h.stack_eq c' hlive, OnStack]
      simp only [processStackSize] at htop ⊢
      omega
    refine happ.disjoint c' pid hci ?_ ?_ ((k.processes c').kernelStack - 1) ⟨?_, ?_⟩
    · simpa [hci] using hlive
    · simp [forkedProcess]
    · simpa [hci] using hbyte
    · simpa [forkedProcess] using hbyte

theorem switch_stacksOwn {L : Layout} {k : KState} {n : Slot} (h : StacksOwn L k)
    (hnum : WellNumbered (switchTo L k n)) (hready : (k.processes n).state = .ready)
    (hown : ∀ c, k.currentProcess = some c → OnStack (L.stackTop c) (k.cpu.reg .rsp - 48)) :
    StacksOwn L (switchTo L k n) := by
  refine h.of_entries hnum (switchTo_sameIdentity L hready) fun j _ => ?_
  rw [switchTo_processes]
  by_cases hj : k.currentProcess = some j
  · right
    rw [switchedRsp_current hj]
    exact hown j hj
  · left
    exact switchedRsp_of_ne hj n

theorem switch_apart_iff {L : Layout} {k : KState} {n : Slot} (h : StacksOwn L k)
    (hnum : WellNumbered (switchTo L k n)) (hready : (k.processes n).state = .ready) : StacksApart (switchTo L k n) ↔
      ∀ c, k.currentProcess = some c → OnStack (L.stackTop c) (k.cpu.reg .rsp - 48) := by
  refine ⟨fun happ c hc => ?_, fun hown => (switch_stacksOwn h hnum hready hown).apart⟩
  have hlive := h.numbered.current_live c hc
  have hid := switchTo_sameIdentity L hready c
  have hsaved := happ.saved_own c fun hun => hlive (hid.unused_iff.mp hun)
  rw [hid.kernelStack_eq, h.stack_eq c hlive] at hsaved
  rwa [switchTo_processes, switchedRsp_current hc] at hsaved

theorem reschedule_step {L : Layout} {k : KState} (h : StacksOwn L k) {call : Call} (hf : call.filledSlot k = none) :
    (StacksApart (call.exec L k).2 ↔ (call.target k ≠ none →
        ∀ c, k.currentProcess = some c → OnStack (L.stackTop c) (k.cpu.reg .rsp - 48))) ∧
    (StacksApart (call.exec L k).2 → StacksOwn L (call.exec L k).2) := by
  have hnum := Call.exec_wellNumbered (L := L) h.numbered call
  have hkept : StacksOwn L (call.exec L k).2 → call.target k = none →
      (StacksApart (call.exec L k).2 ↔
        (call.target k ≠ none →
          ∀ c, k.currentProcess = some c → OnStack (L.stackTop c) (k.cpu.reg .rsp - 48))) ∧
      (StacksApart (call.exec L k).2 → StacksOwn L (call.exec L k).2) :=
    fun hown ht => ⟨⟨fun _ hne => absurd ht hne, fun _ => hown.apart⟩, fun _ => hown⟩
  rcases Option.eq_none_or_eq_some (call.reapedSlot k) with hr | ⟨i, hr⟩
  · obtain ⟨k', hk', ⟨ht, hx⟩ | ⟨n, ht, hne, hready, hx⟩⟩ :=
      Call.exec_of_neither (L := L) h.numbered.current_live hf hr
    · refine hkept ?_ ht
      rw [hx] at hnum ⊢
      exact h.of_entries hnum hk'.identity fun j _ => Or.inl (hk'.savedRsp_eq j)
    · have hown' : StacksOwn L k' :=
        h.of_entries (h.numbered.of_sameContexts hk') hk'.identity
          fun j _ => Or.inl (hk'.savedRsp_eq j)
      rw [hx] at hnum ⊢
      have hiff := switch_apart_iff hown' hnum hready
      have hto := switch_stacksOwn hown' hnum hready
      rw [hk'.current_eq, hk'.cpu_eq] at hiff hto
      exact ⟨hiff.trans ⟨fun ho _ => ho, fun ho => ho (by rw [ht]; nofun)⟩,
        fun happ => hto (hiff.mp happ)⟩
  · obtain ⟨c, _, _, hz, hx⟩ := Call.exec_of_reaped (L := L) hr
    refine hkept ?_ (Call.target_of_reaped hr)
    rw [hx] at hnum ⊢
    refine ⟨hnum, fun j hj => ?_, fun j hj => ?_⟩
    all_goals
      by_cases hji : j = i
      · subst hji; simp at hj
      · rw [KState.setProcess_processes_of_ne _ _ hji] at hj ⊢
        first
          | exact h.stack_eq j hj
          | exact h.saved_own j hj

theorem callOn_step {L : Layout} {k : KState} (h : StacksOwn L k) (l : CallOn) :
    (StacksApart (callOn L k l) ↔ SwitchesOnOwnStack L k l) ∧
    (StacksApart (callOn L k l) → StacksOwn L (callOn L k l)) := by
  obtain ⟨cpu, call⟩ := l
  have hon := h.onCpu cpu
  cases call with
  | create entry name ring =>
    have hown := create_stacksOwn hon entry name ring
    exact ⟨⟨fun _ hne => absurd rfl hne, fun _ => hown.apart⟩, fun _ => hown⟩
  | fork =>
    rcases Option.eq_none_or_eq_some (Call.fork.filledSlot k) with hf | ⟨i, hf⟩
    · have hf' : Call.fork.filledSlot (k.onCpu cpu) = none := hf
      have hown := (reschedule_step hon hf').2
      have happ := (reschedule_step hon hf').1.mpr fun hne => absurd rfl hne
      exact ⟨⟨fun _ => hf, fun _ => happ⟩, hown⟩
    · have hnot := fork_not_apart hon (i := i) hf
      refine ⟨⟨fun happ => absurd happ hnot, fun hg => ?_⟩, fun happ => absurd happ hnot⟩
      have hg' : Call.fork.filledSlot k = none := hg
      rw [hf] at hg'
      cases hg'
  | _ =>
    refine reschedule_step hon ?_
    rfl

/-! ## Runs -/

/-- **Kernel stacks, over whole runs.** From `process_init`, in any sequence of calls, each on whatever
CPU its caller has by then, the kernel stacks stay disjoint and every `saved_rsp` in its own stack
throughout if and only if no fork succeeds and every switch happens on the caller's own stack. -/
theorem stacksApart_iff (L : Layout) (k : KState) (calls : List CallOn) :
    AllStates StacksApart (processInit k) (traceOf (callOn L) (processInit k) calls) ↔
      Guarded (SwitchesOnOwnStack L) (processInit k) (traceOf (callOn L) (processInit k) calls) := by
  refine Trace.allSteps_iff_guarded (J := StacksOwn L) ?_ ?_
    (trace_traceOf (callOn L) (processInit k) calls) (stacksOwn_processInit L k)
  · rintro s l _ hs rfl
    exact (callOn_step hs l).1
  · rintro s l _ hs rfl
    exact (callOn_step hs l).2

/-- The first fork gives two processes one kernel stack. -/
theorem fork_shares_stack : ¬ ∀ (L : Layout) (k : KState) (calls : List CallOn),
      AllStates StacksApart (processInit k) (traceOf (callOn L) (processInit k) calls) := by
  intro hall
  let cpu := KState.bare.cpu
  have h := AllSteps.traceOf_at [(cpu, .create 0x400000 [] .ring0), (cpu, .scheduler)]
    (hall sampleLayout KState.bare (_ ++ [(cpu, .fork)]))
  refine h.disjoint 0 1 (by decide) (by decide) (by decide)
    (sampleLayout.stackTop 0 - 1) ⟨?_, ?_⟩
  · exact ⟨by decide, by decide⟩
  · exact ⟨by decide, by decide⟩

end Chicago95.Kernel
