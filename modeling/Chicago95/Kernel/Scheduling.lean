/-
# Chicago95.Kernel.Scheduling — who runs, and in which state.

The process that has the CPU should be `processes[current_process]`, RUNNING, and the only RUNNING
entry. A run keeps this **exactly when** nobody exits or goes to sleep as the last runnable process:
`process_exit` and `process_sleep` first mark the caller ZOMBIE or BLOCKED and then call the scheduler,
and the scheduler, when it finds nobody else READY, returns to that very caller.
-/
import Chicago95.Lib.Transition
import Chicago95.Kernel.ProcessTable

namespace Chicago95.Kernel

open Chicago95.Lib.Transition

/-- The kernel state, and the process that has the CPU (`none` for the boot code). -/
structure Sched where
  kernel : KState
  holder : Option Slot

namespace Sched

/-- Right after `process_init`: the boot code runs, no process does. -/
def boot (k : KState) : Sched := ⟨processInit k, none⟩

/-- A call by the holder: control comes back to it, or goes to the process switched to. -/
def next (L : Layout) (s : Sched) (call : Call) : Sched :=
  match call.exec L s.kernel with
  | (.returned, k) => ⟨k, s.holder⟩
  | (.switched n, k) => ⟨k, some n⟩

/-- Control is with `processes[current_process]`, it is RUNNING, and nobody else is. -/
def ControlIsRunning (s : Sched) : Prop :=
  ∀ c, s.holder = some c →
    s.kernel.currentProcess = some c ∧ (s.kernel.processes c).state = .running ∧
      ∀ j, j ≠ c → (s.kernel.processes j).state ≠ .running

/-- A process that exits, or goes to sleep, leaves another one behind that can run: READY, or a sleeper
whose time has come. (The process with pid 0 does not exit at all.) -/
def LeavesSomeoneRunnable (s : Sched) : Call → Prop
  | .exit _ => ∀ c, s.kernel.currentProcess = some c → (s.kernel.processes c).pid ≠ 0 →
      OtherReady s.kernel
  | .sleep _ => ∀ c, s.kernel.currentProcess = some c → OtherReady s.kernel
  | _ => True

/-! ## The scheduler on states where only the caller may be running -/

/-- No entry but the current one is RUNNING. -/
def OnlyCurrentRuns (k : KState) : Prop :=
  ∀ j, k.currentProcess ≠ some j → (k.processes j).state ≠ .running

theorem woken_running_iff (k : KState) (i : Slot) :
    (k.woken.processes i).state = .running ↔ (k.processes i).state = .running := by
  rw [woken_processes]
  by_cases h : (k.processes i).due k.timerTicks = true
  · have hb : (k.processes i).state = .blocked := by
      simp only [Process.due, Bool.and_eq_true, decide_eq_true_eq] at h
      exact h.1.1
    simp [h, hb]
  · simp [h]

theorem switchTo_running {L : Layout} {k : KState} (honly : OnlyCurrentRuns k) (next j : Slot) :
    ((switchTo L k.woken next).processes j).state = .running ↔ j = next := by
  rw [switchTo_processes]
  simp only [switchedState]
  by_cases hj : j = next
  · simp [hj]
  · simp only [hj, iff_false]
    by_cases hc : k.currentProcess = some j
    · by_cases hrun : (k.woken.processes j).state = .running <;> simp [hc, hrun]
    · have hne : (k.woken.processes j).state ≠ .running := fun h =>
        honly j hc ((woken_running_iff k j).mp h)
      simp [hne]

/-- What the invariant step needs of a state: control and `current_process` agree, the property holds,
and before the first switch nobody runs. -/
structure Inv (s : Sched) : Prop where
  holder_eq : s.holder = s.kernel.currentProcess
  running : ControlIsRunning s
  idle : s.holder = none → ∀ j, (s.kernel.processes j).state ≠ .running

theorem Inv.onlyCurrentRuns {s : Sched} (h : Inv s) : OnlyCurrentRuns s.kernel := by
  intro j hj
  rcases Option.eq_none_or_eq_some s.holder with hc | ⟨c, hc⟩
  · exact h.idle hc j
  · obtain ⟨hcur, _, hother⟩ := h.running c hc
    exact hother j fun heq => hj (by rw [hcur, heq])

theorem inv_boot (k : KState) : Inv (boot k) where
  holder_eq := rfl
  running := fun _ h => nomatch h
  idle := fun _ _ h => nomatch h

theorem scheduler_step {L : Layout} {k : KState} (honly : OnlyCurrentRuns k) :
    (OtherReady k → ∃ n k', processScheduler L k = (.switched n, k') ∧ Inv ⟨k', some n⟩) ∧
    (¬ OtherReady k → processScheduler L k = (.returned, k.woken)) := by
  rcases processScheduler_cases L k with ⟨hno, h⟩ | ⟨hyes, n, _, _, h⟩
  · exact ⟨fun hyes => absurd hyes hno, fun _ => h⟩
  · refine ⟨fun _ => ⟨n, _, h, ?_, ?_, ?_⟩, fun hno => absurd hyes hno⟩
    · simp
    · intro c hc
      obtain rfl : n = c := Option.some.inj hc
      refine ⟨switchTo_currentProcess L _ n, (switchTo_running honly n n).mpr rfl, ?_⟩
      exact fun j hj hrun => hj ((switchTo_running honly n j).mp hrun)
    · intro hnone
      cases hnone

/-! ## One call -/

theorem Inv.of_states {s : Sched} {k : KState} (h : Inv s)
    (hcur : k.currentProcess = s.kernel.currentProcess)
    (hstate : ∀ j, (k.processes j).state = .running ↔ (s.kernel.processes j).state = .running) :
    Inv ⟨k, s.holder⟩ where
  holder_eq := h.holder_eq.trans hcur.symm
  running := by
    intro c hc
    obtain ⟨hcc, hrun, hother⟩ := h.running c hc
    refine ⟨hcur.trans hcc, (hstate c).mpr hrun, fun j hj hj' => hother j hj ((hstate j).mp hj')⟩
  idle := fun hnone j hj => h.idle hnone j ((hstate j).mp hj)

theorem running_setProcess {k : KState} {i : Slot} {p : Process}
    (hold : (k.processes i).state ≠ .running) (hnew : p.state ≠ .running) (j : Slot) :
    ((k.setProcess i p).processes j).state = .running ↔ (k.processes j).state = .running := by
  by_cases hj : j = i
  · subst hj; simp [hold, hnew]
  · simp [hj]

theorem Inv.scheduler {L : Layout} {s : Sched} (h : Inv s) : Inv (s.next L .scheduler) := by
  have hstep := scheduler_step (L := L) h.onlyCurrentRuns
  by_cases ho : OtherReady s.kernel
  · obtain ⟨n, k', heq, hinv⟩ := hstep.1 ho
    have hnext : s.next L .scheduler = ⟨k', some n⟩ := by simp only [next, Call.exec, heq]
    rw [hnext]
    exact hinv
  · have hnext : s.next L .scheduler = ⟨s.kernel.woken, s.holder⟩ := by
      simp only [next, Call.exec, hstep.2 ho]
    rw [hnext]
    exact h.of_states rfl (woken_running_iff s.kernel)

theorem gave_up {L : Layout} {s : Sched} (h : Inv s) (call : Call) {c : Slot} {k : KState}
    (hc : s.kernel.currentProcess = some c) (hexec : call.exec L s.kernel = processScheduler L k)
    (hcur : k.currentProcess = some c) (hready : OtherReady k ↔ OtherReady s.kernel)
    (hself : (k.processes c).state ≠ .running)
    (hother : ∀ j, j ≠ c → (k.processes j).state = (s.kernel.processes j).state) :
    (ControlIsRunning (s.next L call) ↔ OtherReady s.kernel) ∧
    (ControlIsRunning (s.next L call) → Inv (s.next L call)) := by
  have honly : OnlyCurrentRuns k := by
    intro j hj
    have hjc : j ≠ c := fun heq => hj (by rw [hcur, heq])
    rw [hother j hjc]
    exact h.onlyCurrentRuns j fun heq => hj (by rw [hcur, ← hc, heq])
  have hstep := scheduler_step (L := L) honly
  by_cases ho : OtherReady k
  · obtain ⟨n, k', heq, hinv⟩ := hstep.1 ho
    have hnext : s.next L call = ⟨k', some n⟩ := by simp only [next, hexec, heq]
    rw [hnext]
    exact ⟨⟨fun _ => hready.mp ho, fun _ => hinv.running⟩, fun _ => hinv⟩
  · have hnext : s.next L call = ⟨k.woken, s.holder⟩ := by simp only [next, hexec, hstep.2 ho]
    have hnot : ¬ ControlIsRunning (s.next L call) := by
      intro hrun
      rw [hnext] at hrun
      obtain ⟨_, hstate, _⟩ := hrun c (h.holder_eq.trans hc)
      exact hself ((woken_running_iff k c).mp hstate)
    exact ⟨⟨fun hrun => absurd hrun hnot, fun hs => absurd (hready.mpr hs) ho⟩,
      fun hrun => absurd hrun hnot⟩

theorem otherReady_congr {k k' : KState} {c : Slot} (hc : k.currentProcess = some c)
    (hc' : k'.currentProcess = some c) (hticks : k'.timerTicks = k.timerTicks)
    (h : ∀ j, j ≠ c → k'.processes j = k.processes j) : OtherReady k' ↔ OtherReady k := by
  have hiff : ∀ j, some c ≠ some j → j ≠ c := fun j hj heq => hj (by rw [heq])
  simp only [OtherReady, hc, hc', hticks]
  refine exists_congr fun j => and_congr_right fun hj => ?_
  rw [h j (hiff j hj)]

theorem exit_step {L : Layout} {s : Sched} (h : Inv s) (code : Int) :
    (ControlIsRunning (s.next L (.exit code)) ↔ LeavesSomeoneRunnable s (.exit code)) ∧
    (ControlIsRunning (s.next L (.exit code)) → Inv (s.next L (.exit code))) := by
  rcases processExit_cases L s.kernel code with ⟨hrefused, hexit⟩ | ⟨c, hc, hpid, hexit⟩
  · have hnext : s.next L (.exit code) = s := by simp only [next, Call.exec, hexit]
    rw [hnext]
    refine ⟨⟨fun _ c hc hpid => ?_, fun _ => h.running⟩, fun _ => h⟩
    rcases hrefused with hnone | ⟨c', hc', hpid'⟩
    · rw [hnone] at hc; cases hc
    · rw [hc'] at hc; cases hc; exact absurd hpid' hpid
  · have hother : ∀ j, j ≠ c → (exiting s.kernel c code).processes j = s.kernel.processes j :=
      fun j hj => by simp [exiting, hj]
    have hready : OtherReady (exiting s.kernel c code) ↔ OtherReady s.kernel :=
      otherReady_congr hc hc rfl hother
    have hgave := gave_up (L := L) h (.exit code) hc hexit hc hready
      (by simp [exiting]) fun j hj => by rw [hother j hj]
    refine ⟨hgave.1.trans ⟨fun ho _ _ _ => ho, fun hl => hl c hc hpid⟩, hgave.2⟩

theorem sleep_step {L : Layout} {s : Sched} (h : Inv s) (ms : Nat) :
    (ControlIsRunning (s.next L (.sleep ms)) ↔ LeavesSomeoneRunnable s (.sleep ms)) ∧
    (ControlIsRunning (s.next L (.sleep ms)) → Inv (s.next L (.sleep ms))) := by
  rcases processSleep_cases L s.kernel ms with ⟨hnone, hsleep⟩ | ⟨c, hc, hsleep⟩
  · have hnext : s.next L (.sleep ms) = s := by simp only [next, Call.exec, hsleep]
    rw [hnext]
    refine ⟨⟨fun _ c hc => ?_, fun _ => h.running⟩, fun _ => h⟩
    rw [hnone] at hc
    cases hc
  · have hother : ∀ j, j ≠ c → (sleeping s.kernel c ms).processes j = s.kernel.processes j :=
      fun j hj => by simp [sleeping, hj]
    have hready : OtherReady (sleeping s.kernel c ms) ↔ OtherReady s.kernel :=
      otherReady_congr hc hc rfl hother
    have hgave := gave_up (L := L) h (.sleep ms) hc hsleep hc hready
      (by simp [sleeping]) fun j hj => by rw [hother j hj]
    exact ⟨hgave.1.trans ⟨fun ho _ _ => ho, fun hl => hl c hc⟩, hgave.2⟩

theorem Inv.create {L : Layout} {s : Sched} (h : Inv s) (entry : Nat) (name : List UInt8)
    (ring : Ring) : Inv (s.next L (.create entry name ring)) := by
  rcases processCreate_cases L s.kernel entry name ring with ⟨_, hcr⟩ | ⟨pid, hfree, hcr⟩
  · have hnext : s.next L (.create entry name ring) = s := by simp only [next, Call.exec, hcr]
    rw [hnext]
    exact h
  · simp only [next, Call.exec, hcr]
    refine h.of_states rfl (running_setProcess ?_ (by simp [freshProcess]))
    have hun := findUnused_some hfree
    simp [hun]

theorem Inv.fork {L : Layout} {s : Sched} (h : Inv s) : Inv (s.next L .fork) := by
  rcases processFork_cases s.kernel with ⟨_, hf⟩ | ⟨c, pid, _, hfree, hf⟩
  · have hnext : s.next L .fork = s := by simp only [next, Call.exec, hf]
    rw [hnext]
    exact h
  · simp only [next, Call.exec, hf]
    refine h.of_states rfl (running_setProcess ?_ (by simp [forkedProcess]))
    have hun := findUnused_some hfree
    simp [hun]

theorem Inv.wake {L : Layout} {s : Sched} (h : Inv s) (pid : Int) : Inv (s.next L (.wake pid)) := by
  rcases processWake_cases s.kernel pid with hw | ⟨i, _, hb, hw⟩
  · have hnext : s.next L (.wake pid) = s := by simp only [next, Call.exec, hw]
    rw [hnext]
    exact h
  · simp only [next, Call.exec, hw]
    exact h.of_states rfl (running_setProcess (by simp [hb]) (by simp))

theorem Inv.wait {L : Layout} {s : Sched} (h : Inv s) (statusPtr : Nat) : Inv (s.next L (.wait statusPtr)) := by
  rcases sysWaitPass_cases s.kernel statusPtr with
    ⟨c, i, _, _, hz, hw⟩ | ⟨c, _, hw⟩ | hw
  · simp only [next, Call.exec, hw]
    exact h.of_states rfl (running_setProcess (by simp [hz]) (by simp))
  · have hnext : s.next L (.wait statusPtr) = s.next L .scheduler := by
      simp only [next, Call.exec, hw, processYield]
    rw [hnext]
    exact h.scheduler
  · have hnext : s.next L (.wait statusPtr) = s := by simp only [next, Call.exec, hw]
    rw [hnext]
    exact h

theorem next_step {L : Layout} {s : Sched} (h : Inv s) (call : Call) :
    (ControlIsRunning (s.next L call) ↔ LeavesSomeoneRunnable s call) ∧
    (ControlIsRunning (s.next L call) → Inv (s.next L call)) := by
  have htotal : ∀ {call : Call}, Inv (s.next L call) → LeavesSomeoneRunnable s call →
      (ControlIsRunning (s.next L call) ↔ LeavesSomeoneRunnable s call) ∧
      (ControlIsRunning (s.next L call) → Inv (s.next L call)) :=
    fun hinv hl => ⟨⟨fun _ => hl, fun _ => hinv.running⟩, fun _ => hinv⟩
  cases call with
  | create entry name ring => exact htotal (h.create entry name ring) trivial
  | fork => exact htotal h.fork trivial
  | scheduler => exact htotal h.scheduler trivial
  | yield => exact htotal h.scheduler trivial
  | sleep ms => exact sleep_step h ms
  | wake pid => exact htotal (h.wake pid) trivial
  | exit code => exact exit_step h code
  | wait statusPtr => exact htotal (h.wait statusPtr) trivial
  | tick => exact htotal (h.of_states rfl fun _ => Iff.rfl) trivial

/-! ## Runs -/

/-- **Who runs, over whole runs.** From `process_init`, any sequence of calls leaves the CPU, after
every call, with `processes[current_process]`, RUNNING and alone in being so, if and only if no process
exits or sleeps as the last one that can run. -/
theorem controlIsRunning_iff (L : Layout) (k : KState) (calls : List Call) :
    AllStates ControlIsRunning (boot k) (traceOf (next L) (boot k) calls) ↔
      Guarded LeavesSomeoneRunnable (boot k) (traceOf (next L) (boot k) calls) := by
  refine Trace.allSteps_iff_guarded (J := Inv) ?_ ?_ (trace_traceOf (next L) (boot k) calls)
    (inv_boot k)
  · rintro s call _ hinv rfl
    exact (next_step hinv call).1
  · rintro s call _ hinv rfl
    exact (next_step hinv call).2

/-- A process alone in the system goes to sleep: `process_sleep` returns to it while it is BLOCKED. -/
theorem sleep_returns_blocked : ¬ ∀ (L : Layout) (k : KState) (calls : List Call),
      AllStates ControlIsRunning (boot k) (traceOf (next L) (boot k) calls) := by
  intro hall
  have h := AllSteps.traceOf_at [.create 0x400000 [] .ring0, .scheduler]
    (hall sampleLayout KState.bare (_ ++ [.sleep 100]))
  obtain ⟨_, hstate, _⟩ := h 0 (by decide)
  exact absurd hstate (by decide)

end Sched

end Chicago95.Kernel
