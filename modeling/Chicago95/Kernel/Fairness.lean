/-
# Chicago95.Kernel.Fairness — how long a READY process waits.

`process_scheduler` looks at the slots behind the current one, round the table: `nextReady` is `RoundRobin.pick`. Between
two of its calls anything may happen to the table (`Event`), as nothing but a switch moves `current_process`. A switch to
another process brings the search nearer to one that stays READY, so the way to it is the measure of the run
(`switches_of_staysReady`), and 64 switches are enough (`made_current_within`).
-/
import Chicago95.Lib.RoundRobin
import Chicago95.Kernel.ProcessTable

namespace Chicago95.Kernel

open Chicago95.Lib.RoundRobin Chicago95.Lib.X86

namespace Fairness

/-- What happens: the scheduler is called on a CPU, a process is created or woken, or the state changes in any other way,
`current_process` apart. -/
inductive Event
  | scheduler (cpu : Cpu)
  | create (entry : Nat) (name : List UInt8) (ring : Ring)
  | wake (pid : Int)
  | change (f : KState → KState)

/-- What an event does. -/
def Event.exec (L : Layout) (k : KState) : Event → Control × KState
  | .scheduler cpu => processScheduler L (k.onCpu cpu)
  | .create entry name ring => (.returned, (processCreate L k entry name ring).2)
  | .wake pid => (.returned, processWake k pid)
  | .change f => (.returned, { f k with currentProcess := k.currentProcess })

/-- The processes made current in a run, one for each actual switch. -/
def switches (L : Layout) : KState → List Event → List Slot
  | _, [] => []
  | k, e :: es =>
    match e.exec L k with
    | (.returned, k') => switches L k' es
    | (.switched n, k') => n :: switches L k' es

/-- `p` is READY in every state, until it is made current. -/
def StaysReady (L : Layout) (p : Slot) : KState → List Event → Prop
  | k, [] => (k.processes p).state = .ready
  | k, e :: es =>
    (k.processes p).state = .ready ∧ ((e.exec L k).1 = .switched p ∨ StaysReady L p (e.exec L k).2 es)

/-! ## One event -/

theorem current_of_switched {L : Layout} {k : KState} {e : Event} {n : Slot} (h : (e.exec L k).1 = .switched n) :
    (e.exec L k).2.currentProcess = some n := by
  cases e with
  | scheduler cpu =>
    simp only [Event.exec] at h ⊢
    rcases processScheduler_cases L (k.onCpu cpu) with ⟨_, hs⟩ | ⟨_, m, _, _, hs⟩
    · rw [hs] at h
      cases h
    · rw [hs] at h ⊢
      obtain rfl : m = n := Control.switched.inj h
      exact switchTo_currentProcess L _ m
  | create entry name ring => cases h
  | wake pid => cases h
  | change f => cases h

theorem current_of_returned {L : Layout} {k : KState} {e : Event} (h : (e.exec L k).1 = .returned) :
    (e.exec L k).2.currentProcess = k.currentProcess := by
  cases e with
  | scheduler cpu =>
    simp only [Event.exec] at h ⊢
    rcases processScheduler_cases L (k.onCpu cpu) with ⟨_, hs⟩ | ⟨_, m, _, _, hs⟩
    · rw [hs]
      rfl
    · rw [hs] at h
      cases h
  | create entry name ring =>
    simp only [Event.exec]
    rcases processCreate_cases L k entry name ring with ⟨_, hc⟩ | ⟨pid, _, hc⟩
    · rw [hc]
    · rw [hc]
      rfl
  | wake pid =>
    simp only [Event.exec]
    rcases processWake_cases k pid with hw | ⟨i, _, _, hw⟩
    · rw [hw]
    · rw [hw]
      rfl
  | change f => rfl

theorem gap_of_switched {L : Layout} {k : KState} {e : Event} {n p : Slot} (h : (e.exec L k).1 = .switched n)
    (hp : (k.processes p).state = .ready) (hne : n ≠ p) : gap (e.exec L k).2.schedStart p < gap k.schedStart p := by
  have hcur := current_of_switched h
  have hstart : (e.exec L k).2.schedStart = n.val := by rw [KState.schedStart, hcur]
  rw [hstart]
  cases e with
  | scheduler cpu =>
    have hready : ((k.onCpu cpu).woken.processes p).state = .ready := (woken_ready_iff _ p).2 (.inl hp)
    have hnext : nextReady (k.onCpu cpu).woken.processes k.schedStart = some n := by
      simp only [Event.exec] at h
      rcases processScheduler_search L (k.onCpu cpu) with ⟨_, hs⟩ | ⟨c, _, _, hs⟩ | ⟨m, _, hm, hs⟩
      · rw [hs] at h
        cases h
      · rw [hs] at h
        cases h
      · rw [hs] at h
        obtain rfl : m = n := Control.switched.inj h
        exact hm
    exact gap_pick_lt (P := fun i => decide (((k.onCpu cpu).woken.processes i).state = .ready)) hnext
      (decide_eq_true hready) hne
  | create entry name ring => cases h
  | wake pid => cases h
  | change f => cases h

/-! ## Runs -/

theorem switches_of_returned {L : Layout} {k : KState} {e : Event} (h : (e.exec L k).1 = .returned) (es : List Event) :
    switches L k (e :: es) = switches L (e.exec L k).2 es := by
  rw [switches]
  cases hexec : e.exec L k with
  | mk c k' =>
    rw [hexec] at h
    obtain rfl : c = .returned := h
    rfl

theorem switches_of_switched {L : Layout} {k : KState} {e : Event} {n : Slot} (h : (e.exec L k).1 = .switched n)
    (es : List Event) : switches L k (e :: es) = n :: switches L (e.exec L k).2 es := by
  rw [switches]
  cases hexec : e.exec L k with
  | mk c k' =>
    rw [hexec] at h
    obtain rfl : c = .switched n := h
    rfl

theorem switches_of_staysReady {L : Layout} {p : Slot} (es : List Event) {k : KState} (h : StaysReady L p k es) :
    (switches L k es).length ≤ gap k.schedStart p ∨ p ∈ (switches L k es).take (gap k.schedStart p + 1) := by
  induction es generalizing k with
  | nil => exact .inl (Nat.zero_le _)
  | cons e es ih =>
    obtain ⟨hready, h⟩ := h
    cases hexec : (e.exec L k).1 with
    | returned =>
      have hstart : (e.exec L k).2.schedStart = k.schedStart := by
        rw [KState.schedStart, KState.schedStart, current_of_returned hexec]
      rw [hexec] at h
      have htail := ih (h.resolve_left fun he => by cases he)
      rwa [switches_of_returned hexec, ← hstart]
    | switched n =>
      rw [switches_of_switched hexec]
      by_cases hne : n = p
      · exact .inr (by simp [hne])
      · have hlt := gap_of_switched hexec hready hne
        rw [hexec] at h
        rcases ih (h.resolve_left fun he => hne (Control.switched.inj he)) with hle | hmem
        · refine .inl ?_
          rw [List.length_cons]
          omega
        · refine .inr (List.mem_cons_of_mem n ?_)
          exact List.take_subset_take_left _ hlt hmem

/-- A process that stays READY is made current by one of the first 64 switches. -/
theorem made_current_within (L : Layout) (p : Slot) (k : KState) (es : List Event) (h : StaysReady L p k es) :
    (switches L k es).length < 64 ∨ p ∈ (switches L k es).take 64 := by
  have hgap := gap_lt k.schedStart p
  rcases switches_of_staysReady es h with hle | hmem
  · exact .inl (by omega)
  · exact .inr (List.take_subset_take_left _ hgap hmem)

/-- Two processes that can run, and none that does. -/
def twoReady : KState :=
  { KState.bare with
    processes := fun i =>
      if i = firstSlot ∨ i = secondSlot then { KState.bare.processes i with state := .ready } else KState.bare.processes i }

theorem first_made_current : (switches sampleLayout twoReady [.scheduler twoReady.cpu, .change id]).length < 64 ∨
      firstSlot ∈ (switches sampleLayout twoReady [.scheduler twoReady.cpu, .change id]).take 64 :=
  made_current_within sampleLayout firstSlot twoReady _
    ⟨by decide, .inr ⟨by decide, .inr (by unfold StaysReady; decide)⟩⟩

end Fairness

end Chicago95.Kernel
