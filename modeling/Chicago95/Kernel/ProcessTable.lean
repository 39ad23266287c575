/-
# Chicago95.Kernel.ProcessTable — what each process-manager call does to the process table.

One inversion lemma per call, saying everything the call can do to the table, the current slot and the
rest of the state; the invariants of the later modules are case analyses over these and never unfold
a call again.
-/
import Chicago95.Kernel.Calls

namespace Chicago95.Kernel

open Chicago95.Lib.X86

namespace KState

@[simp] theorem setProcess_processes_self (k : KState) (i : Slot) (p : Process) :
    (k.setProcess i p).processes i = p := by
  simp [setProcess]

@[simp] theorem setProcess_processes_of_ne (k : KState) {i j : Slot} (p : Process) (h : j ≠ i) :
    (k.setProcess i p).processes j = k.processes j := by
  simp [setProcess, h]

@[simp] theorem setProcess_vm (k : KState) (i : Slot) (p : Process) : (k.setProcess i p).vm = k.vm := rfl
@[simp] theorem setProcess_cr3 (k : KState) (i : Slot) (p : Process) : (k.setProcess i p).cr3 = k.cr3 := rfl
@[simp] theorem setProcess_cpu (k : KState) (i : Slot) (p : Process) : (k.setProcess i p).cpu = k.cpu := rfl
@[simp] theorem setProcess_currentProcess (k : KState) (i : Slot) (p : Process) :
    (k.setProcess i p).currentProcess = k.currentProcess := rfl
@[simp] theorem setProcess_timerTicks (k : KState) (i : Slot) (p : Process) :
    (k.setProcess i p).timerTicks = k.timerTicks := rfl
@[simp] theorem setProcess_globalFdTable (k : KState) (i : Slot) (p : Process) :
    (k.setProcess i p).globalFdTable = k.globalFdTable := rfl

end KState

/-! ## The slot search -/

theorem findUnused_some {procs : Slot → Process} {i : Slot} (h : findUnused procs = some i) :
    (procs i).state = .unused := by
  simpa using List.find?_some h

/-! ## Create and fork -/

theorem processCreate_cases (L : Layout) (k : KState) (entry : Nat) (name : List UInt8)
    (ring : Ring) :
    (findUnused k.processes = none ∧ processCreate L k entry name ring = (-1, k)) ∨
    ∃ pid, findUnused k.processes = some pid ∧
      processCreate L k entry name ring =
        ((pid.val : Int),
          { k with
            vm := (createAddressSpace k.vm k.cr3 (L.stackTop pid - processUserStack)
              (L.stackTop pid - processUserStack - processHeapSize)).2
            cpu := initialStack L (L.stackTop pid) k.cpu }.setProcess pid
            (freshProcess L k.currentPid pid
              (createAddressSpace k.vm k.cr3 (L.stackTop pid - processUserStack)
                (L.stackTop pid - processUserStack - processHeapSize)).1 entry name ring)) := by
  unfold processCreate
  cases h : findUnused k.processes with
  | none => exact Or.inl ⟨rfl, rfl⟩
  | some pid => exact Or.inr ⟨pid, rfl, rfl⟩

theorem processFork_cases (k : KState) :
    ((k.currentProcess = none ∨ findUnused k.processes = none) ∧ processFork k = (-1, k)) ∨
    ∃ c pid, k.currentProcess = some c ∧ findUnused k.processes = some pid ∧
      processFork k =
        ((pid.val : Int),
          { k with vm := (forkAddressSpace k.vm k.cr3 (k.processes c).cr3).2 }.setProcess pid
            (forkedProcess (k.processes c) (c.val : Int) pid
              (forkAddressSpace k.vm k.cr3 (k.processes c).cr3).1)) := by
  unfold processFork
  cases hc : k.currentProcess with
  | none => exact Or.inl ⟨Or.inl rfl, rfl⟩
  | some c =>
    cases h : findUnused k.processes with
    | none => exact Or.inl ⟨Or.inr rfl, rfl⟩
    | some pid => exact Or.inr ⟨c, pid, rfl, rfl, rfl⟩

/-! ## The scheduler -/

@[simp] theorem woken_currentProcess (k : KState) : k.woken.currentProcess = k.currentProcess := rfl
@[simp] theorem woken_cpu (k : KState) : k.woken.cpu = k.cpu := rfl
@[simp] theorem woken_vm (k : KState) : k.woken.vm = k.vm := rfl
@[simp] theorem woken_cr3 (k : KState) : k.woken.cr3 = k.cr3 := rfl
@[simp] theorem woken_globalFdTable (k : KState) : k.woken.globalFdTable = k.globalFdTable := rfl

theorem woken_processes (k : KState) (i : Slot) :
    k.woken.processes i =
      if (k.processes i).due k.timerTicks then
        { k.processes i with state := .ready, wakeTime := 0 }
      else k.processes i := rfl

theorem woken_ready_iff (k : KState) (i : Slot) : (k.woken.processes i).state = .ready ↔
      (k.processes i).state = .ready ∨ (k.processes i).due k.timerTicks = true := by
  rw [woken_processes]
  by_cases h : (k.processes i).due k.timerTicks = true <;> simp [h]

theorem nextReady_some {procs : Slot → Process} {start : Nat} {i : Slot}
    (h : nextReady procs start = some i) : (procs i).state = .ready := by
  simpa using List.find?_some h

theorem mem_roundRobin (start : Nat) (i : Slot) : i ∈ (List.range 64).map fun j => Fin.ofNat 64 (start + 1 + j) := by
  refine List.mem_map.mpr ⟨(i.val + 64 - (start + 1) % 64) % 64, ?_, ?_⟩
  · exact List.mem_range.mpr (Nat.mod_lt _ (by decide))
  · apply Fin.ext
    have hi := i.isLt
    simp only [Fin.ofNat]
    omega

theorem nextReady_none {procs : Slot → Process} {start : Nat} (h : nextReady procs start = none)
    (i : Slot) : (procs i).state ≠ .ready := by
  simpa using List.find?_eq_none.mp h i (mem_roundRobin start i)

theorem nextReady_eq_start {procs : Slot → Process} {c : Slot} (h : nextReady procs c.val = some c)
    (i : Slot) (hi : i ≠ c) : (procs i).state ≠ .ready := by
  obtain ⟨_, as, bs, hsplit, hbefore⟩ := List.find?_eq_some_iff_append.mp h
  -- the list of visited slots is duplicate-free with `c` at its end
  have hlist : (List.range 64).map (fun j => Fin.ofNat 64 (c.val + 1 + j))
      = ((List.range 63).map fun j => Fin.ofNat 64 (c.val + 1 + j)) ++ [c] := by
    rw [List.range_succ, List.map_append]
    congr 1
    simp only [List.map_cons, List.map_nil, List.cons.injEq, and_true]
    apply Fin.ext
    have hc := c.isLt
    simp only [Fin.ofNat]
    omega
  have hnot : c ∉ (List.range 63).map fun j => Fin.ofNat 64 (c.val + 1 + j) := by
    intro hmem
    obtain ⟨j, hj, hjc⟩ := List.mem_map.mp hmem
    have hjlt := List.mem_range.mp hj
    have hval := congrArg Fin.val hjc
    have hc := c.isLt
    simp only [Fin.ofNat] at hval
    omega
  have hmem : i ∈ as := by
    have hall := mem_roundRobin c.val i
    rw [hlist] at hall hsplit
    -- `c` occurs only at the end, so `as` is everything before it
    have has : as = (List.range 63).map fun j => Fin.ofNat 64 (c.val + 1 + j) := by
      rcases List.append_eq_append_iff.mp hsplit with ⟨w, hw1, hw2⟩ | ⟨w, hw1, hw2⟩
      · cases w with
        | nil => simpa using hw1
        | cons x w =>
          have : w ++ c :: bs = [] := by simpa using (List.cons.inj hw2).2.symm
          simp at this
      · cases w with
        | nil => simpa using hw1.symm
        | cons x w =>
          have hx : x = c := by simpa using (List.cons.inj hw2).1.symm
          exact absurd (by rw [hw1, hx]; simp) hnot
    rw [has]
    rcases List.mem_append.mp hall with h | h
    · exact h
    · exact absurd (List.mem_singleton.mp h) hi
  simpa using hbefore i hmem

theorem processScheduler_search (L : Layout) (k : KState) : (nextReady k.woken.processes k.schedStart = none ∧
      processScheduler L k = (.returned, k.woken)) ∨
    (∃ c, k.currentProcess = some c ∧ nextReady k.woken.processes k.schedStart = some c ∧
      processScheduler L k = (.returned, k.woken)) ∨ ∃ next, k.currentProcess ≠ some next ∧
      nextReady k.woken.processes k.schedStart = some next ∧
      processScheduler L k = (.switched next, switchTo L k.woken next) := by
  rcases Option.eq_none_or_eq_some (nextReady k.woken.processes k.schedStart) with h | ⟨next, h⟩
  · exact Or.inl ⟨h, by simp only [processScheduler, h]⟩
  · by_cases hc : k.currentProcess = some next
    · exact Or.inr (Or.inl ⟨next, hc, h, by simp only [processScheduler, h, hc, if_true]⟩)
    · exact Or.inr (Or.inr ⟨next, hc, h, by simp only [processScheduler, h, hc, if_false]⟩)

/-- Some process other than the current one is ready, or is a sleeper whose time has come. -/
def OtherReady (k : KState) : Prop :=
  ∃ j, k.currentProcess ≠ some j ∧
    ((k.processes j).state = .ready ∨ (k.processes j).due k.timerTicks = true)

theorem processScheduler_cases (L : Layout) (k : KState) :
    (¬ OtherReady k ∧ processScheduler L k = (.returned, k.woken)) ∨
    (OtherReady k ∧ ∃ next, k.currentProcess ≠ some next ∧ (k.woken.processes next).state = .ready ∧
      processScheduler L k = (.switched next, switchTo L k.woken next)) := by
  rcases processScheduler_search L k with ⟨hnone, h⟩ | ⟨c, hc, hself, h⟩ | ⟨next, hc, hsome, h⟩
  · refine Or.inl ⟨?_, h⟩
    rintro ⟨j, _, hj⟩
    exact nextReady_none hnone j ((woken_ready_iff k j).mpr hj)
  · refine Or.inl ⟨?_, h⟩
    rintro ⟨j, hjc, hj⟩
    have hstart : k.schedStart = c.val := by simp [KState.schedStart, hc]
    rw [hstart] at hself
    have hne : j ≠ c := fun heq => hjc (by rw [hc, heq])
    exact nextReady_eq_start hself j hne ((woken_ready_iff k j).mpr hj)
  · have hready := nextReady_some hsome
    exact Or.inr ⟨⟨next, hc, (woken_ready_iff k next).mp hready⟩, next, hc, hready, h⟩

/-- The process the round robin picks: the first READY entry after the current one, sleepers whose time
has come included, unless the search only finds the current one itself. -/
def pick (k : KState) : Option Slot :=
  (nextReady k.woken.processes k.schedStart).filter fun n => decide (k.currentProcess ≠ some n)

theorem processScheduler_pick (L : Layout) (k : KState) :
    (pick k = none ∧ processScheduler L k = (.returned, k.woken)) ∨
    ∃ n, pick k = some n ∧ k.currentProcess ≠ some n ∧ (k.woken.processes n).state = .ready ∧
      processScheduler L k = (.switched n, switchTo L k.woken n) := by
  rcases processScheduler_search L k with ⟨hnone, h⟩ | ⟨c, hc, hself, h⟩ | ⟨n, hc, hsome, h⟩
  · exact Or.inl ⟨by simp [pick, hnone], h⟩
  · exact Or.inl ⟨by simp [pick, hself, hc], h⟩
  · exact Or.inr ⟨n, by simp [pick, hsome, hc], hc, nextReady_some hsome, h⟩

/-! ## The switch -/

/-- The state entry `i` has after a switch to `next`. -/
def switchedState (k : KState) (next i : Slot) : ProcState :=
  if i = next then .running
  else if k.currentProcess = some i ∧ (k.processes i).state = .running then .ready
  else (k.processes i).state

theorem markReady_eq (k : KState) :
    ∃ procs, markReady k = { k with processes := procs } ∧ ∀ i, procs i =
      { k.processes i with
        state := if k.currentProcess = some i ∧ (k.processes i).state = .running then .ready
          else (k.processes i).state } := by
  rcases Option.eq_none_or_eq_some k.currentProcess with hc | ⟨c, hc⟩
  · have hk : markReady k = k := by simp only [markReady, hc]
    exact ⟨k.processes, hk, fun i => by simp [hc]⟩
  · by_cases hrun : (k.processes c).state = .running
    · have hk : markReady k = k.setProcess c { k.processes c with state := .ready } := by
        simp only [markReady, hc, hrun, if_true]
      refine ⟨_, hk, fun i => ?_⟩
      by_cases hi : i = c
      · subst hi; simp [hc, hrun]
      · have hci : c ≠ i := Ne.symm hi
        simp [hc, hi, hci]
    · have hk : markReady k = k := by simp only [markReady, hc, hrun, if_false]
      refine ⟨k.processes, hk, fun i => ?_⟩
      by_cases hi : i = c
      · subst hi; simp [hrun]
      · have hci : c ≠ i := Ne.symm hi
        simp [hc, hci]

theorem activate_markReady (k : KState) (next : Slot) :
    ∃ procs, activate (markReady k) next =
      { k with
        processes := procs
        currentProcess := some next
        cr3 := if (k.processes next).cr3 ≠ 0 then (k.processes next).cr3 else k.cr3
        tssRsp0 := (k.processes next).kernelStack } ∧
      ∀ i, procs i = { k.processes i with state := switchedState k next i } := by
  obtain ⟨procs, hk, hprocs⟩ := markReady_eq k
  have hcr3 : (procs next).cr3 = (k.processes next).cr3 := by rw [hprocs next]
  have hstack : (procs next).kernelStack = (k.processes next).kernelStack := by rw [hprocs next]
  refine ⟨Function.update procs next { procs next with state := .running }, ?_, fun i => ?_⟩
  · rw [hk, activate, ← hcr3, ← hstack]
    rfl
  · by_cases hi : i = next
    · subst hi; simp [switchedState, hprocs i]
    · simp [switchedState, hi, hprocs i]

/-- The register context the CPU continues with after a switch to `next`. -/
def switchedCpu (L : Layout) (k : KState) (next : Slot) : Cpu :=
  match k.currentProcess with
  | none => k.cpu.run (firstSwitch (k.processes next).savedRsp)
  | some c =>
    ((k.cpu.setReg .rdi (L.savedRspAddr c)).setReg .rsi (k.processes next).savedRsp).run
      contextSwitch

/-- The saved stack pointer entry `i` has after a switch to `next`. -/
def switchedRsp (L : Layout) (k : KState) (next i : Slot) : Nat :=
  if k.currentProcess = some i then (switchedCpu L k next).mem (L.savedRspAddr i)
  else (k.processes i).savedRsp

theorem switchTo_eq (L : Layout) (k : KState) (next : Slot) :
    ∃ procs, switchTo L k next =
      { k with
        processes := procs
        currentProcess := some next
        cr3 := if (k.processes next).cr3 ≠ 0 then (k.processes next).cr3 else k.cr3
        tssRsp0 := (k.processes next).kernelStack
        cpu := switchedCpu L k next } ∧
      ∀ i, procs i =
        { k.processes i with
          state := switchedState k next i
          savedRsp := switchedRsp L k next i } := by
  obtain ⟨procs, hk, hprocs⟩ := activate_markReady k next
  unfold switchTo
  simp only [hk]
  have hrsp : (procs next).savedRsp = (k.processes next).savedRsp := by rw [hprocs next]
  rw [hrsp]
  unfold switchRegisters switchedRsp switchedCpu
  cases hc : k.currentProcess with
  | none => exact ⟨procs, rfl, fun i => by rw [hprocs i]; simp⟩
  | some c =>
    refine ⟨_, rfl, fun i => ?_⟩
    by_cases hi : i = c
    · subst hi; simp [hprocs i]
    · have hci : c ≠ i := Ne.symm hi
      simp [hi, hci, hprocs i]

theorem switchTo_processes (L : Layout) (k : KState) (next i : Slot) :
    (switchTo L k next).processes i =
      { k.processes i with
        state := switchedState k next i
        savedRsp := switchedRsp L k next i } := by
  obtain ⟨procs, hk, hprocs⟩ := switchTo_eq L k next
  rw [hk]
  exact hprocs i

@[simp] theorem switchTo_currentProcess (L : Layout) (k : KState) (next : Slot) :
    (switchTo L k next).currentProcess = some next := by
  obtain ⟨procs, hk, _⟩ := switchTo_eq L k next
  rw [hk]

@[simp] theorem switchTo_vm (L : Layout) (k : KState) (next : Slot) : (switchTo L k next).vm = k.vm := by
  obtain ⟨procs, hk, _⟩ := switchTo_eq L k next
  rw [hk]

@[simp] theorem switchTo_cpu (L : Layout) (k : KState) (next : Slot) :
    (switchTo L k next).cpu = switchedCpu L k next := by
  obtain ⟨procs, hk, _⟩ := switchTo_eq L k next
  rw [hk]

@[simp] theorem switchTo_timerTicks (L : Layout) (k : KState) (next : Slot) :
    (switchTo L k next).timerTicks = k.timerTicks := by
  obtain ⟨procs, hk, _⟩ := switchTo_eq L k next
  rw [hk]

@[simp] theorem switchTo_globalFdTable (L : Layout) (k : KState) (next : Slot) :
    (switchTo L k next).globalFdTable = k.globalFdTable := by
  obtain ⟨procs, hk, _⟩ := switchTo_eq L k next
  rw [hk]

@[simp] theorem switchTo_cr3 (L : Layout) (k : KState) (next : Slot) : (switchTo L k next).cr3 =
      if (k.processes next).cr3 ≠ 0 then (k.processes next).cr3 else k.cr3 := by
  obtain ⟨procs, hk, _⟩ := switchTo_eq L k next
  rw [hk]

theorem woken_entry (k : KState) (i : Slot) :
    ∃ st wt, k.woken.processes i = { k.processes i with state := st, wakeTime := wt } ∧
      (st = .unused ↔ (k.processes i).state = .unused) ∧
      (st = .zombie ↔ (k.processes i).state = .zombie) := by
  rw [woken_processes]
  by_cases h : (k.processes i).due k.timerTicks = true
  · have hb : (k.processes i).state = .blocked := by
      simp only [Process.due, Bool.and_eq_true, decide_eq_true_eq] at h
      exact h.1.1
    refine ⟨.ready, 0, by rw [if_pos h], ?_, ?_⟩ <;> simp [hb]
  · exact ⟨(k.processes i).state, (k.processes i).wakeTime, by rw [if_neg h], Iff.rfl, Iff.rfl⟩

theorem switchedState_eq_iff {k : KState} {next : Slot} (hready : (k.processes next).state = .ready)
    (i : Slot) {st : ProcState} (hrun : st ≠ .running) (hst : st ≠ .ready) :
    switchedState k next i = st ↔ (k.processes i).state = st := by
  unfold switchedState
  by_cases hi : i = next
  · subst hi
    rw [if_pos rfl, hready]
    exact ⟨fun h => absurd h.symm hrun, fun h => absurd h.symm hst⟩
  · rw [if_neg hi]
    by_cases hc : k.currentProcess = some i ∧ (k.processes i).state = .running
    · rw [if_pos hc, hc.2]
      exact ⟨fun h => absurd h.symm hst, fun h => absurd h.symm hrun⟩
    · rw [if_neg hc]

theorem processScheduler_entry (L : Layout) (k : KState) (i : Slot) :
    ∃ st wt rsp, (processScheduler L k).2.processes i =
        { k.processes i with state := st, wakeTime := wt, savedRsp := rsp } ∧
      (st = .unused ↔ (k.processes i).state = .unused) ∧
      (st = .zombie ↔ (k.processes i).state = .zombie) := by
  obtain ⟨st, wt, hw, hun, hz⟩ := woken_entry k i
  have hst : (k.woken.processes i).state = st := by rw [hw]
  rcases processScheduler_cases L k with ⟨_, h⟩ | ⟨_, next, _, hready, h⟩
  · rw [h]
    exact ⟨st, wt, (k.processes i).savedRsp, hw, hun, hz⟩
  · rw [h, switchTo_processes]
    refine ⟨switchedState k.woken next i, wt, switchedRsp L k.woken next i, by rw [hw], ?_, ?_⟩
    · rw [switchedState_eq_iff hready i (by decide) (by decide), hst, hun]
    · rw [switchedState_eq_iff hready i (by decide) (by decide), hst, hz]

@[simp] theorem processScheduler_vm (L : Layout) (k : KState) : (processScheduler L k).2.vm = k.vm := by
  rcases processScheduler_cases L k with ⟨_, h⟩ | ⟨_, next, _, _, h⟩ <;> rw [h] <;> simp

@[simp] theorem processScheduler_globalFdTable (L : Layout) (k : KState) :
    (processScheduler L k).2.globalFdTable = k.globalFdTable := by
  rcases processScheduler_cases L k with ⟨_, h⟩ | ⟨_, next, _, _, h⟩ <;> rw [h] <;> simp

/-! ## Exit, sleep, wake -/

/-- The state `process_exit` hands to the scheduler. -/
def exiting (k : KState) (c : Slot) (code : Int) : KState :=
  { k with
    vm := if (k.processes c).cr3 = 0 then k.vm
      else vmmDestroyAddressSpace k.vm (k.processes c).cr3 }.setProcess c
    { k.processes c with cr3 := 0, state := .zombie, exitCode := code }

theorem processExit_cases (L : Layout) (k : KState) (code : Int) :
    ((k.currentProcess = none ∨ ∃ c, k.currentProcess = some c ∧ (k.processes c).pid = 0) ∧
      processExit L k code = (.returned, k)) ∨ ∃ c, k.currentProcess = some c ∧ (k.processes c).pid ≠ 0 ∧
      processExit L k code = processScheduler L (exiting k c code) := by
  rcases Option.eq_none_or_eq_some k.currentProcess with hc | ⟨c, hc⟩
  · exact Or.inl ⟨Or.inl hc, by simp only [processExit, hc]⟩
  · by_cases hpid : (k.processes c).pid = 0
    · exact Or.inl ⟨Or.inr ⟨c, hc, hpid⟩, by simp only [processExit, hc, hpid, if_true]⟩
    · exact Or.inr ⟨c, hc, hpid, by
        simp only [processExit, processYield, exiting, hc, hpid, if_false]⟩

/-- The state `process_sleep` hands to the scheduler. -/
def sleeping (k : KState) (c : Slot) (ms : Nat) : KState :=
  k.setProcess c
    { k.processes c with wakeTime := (k.timerTicks + ms) % 2 ^ 64, state := .blocked }

theorem processSleep_cases (L : Layout) (k : KState) (ms : Nat) :
    (k.currentProcess = none ∧ processSleep L k ms = (.returned, k)) ∨ ∃ c, k.currentProcess = some c ∧
      processSleep L k ms = processScheduler L (sleeping k c ms) := by
  unfold processSleep
  cases hc : k.currentProcess with
  | none => exact Or.inl ⟨rfl, rfl⟩
  | some c => exact Or.inr ⟨c, rfl, rfl⟩

theorem processWake_cases (k : KState) (pid : Int) :
    processWake k pid = k ∨
    ∃ i : Slot, (i.val : Int) = pid ∧ (k.processes i).state = .blocked ∧
      processWake k pid = k.setProcess i { k.processes i with state := .ready } := by
  unfold processWake
  by_cases h : 0 ≤ pid ∧ pid < 64
  · rw [dif_pos h]
    by_cases hb : (k.processes ⟨pid.toNat, by omega⟩).state = .blocked
    · exact Or.inr ⟨⟨pid.toNat, by omega⟩, by simp only; omega, hb, by simp [hb]⟩
    · exact Or.inl (by simp [hb])
  · rw [dif_neg h]
    exact Or.inl rfl

/-! ## `sys_wait` -/

theorem findZombieChild_some {procs : Slot → Process} {mypid : Int} {i : Slot}
    (h : findZombieChild procs mypid = some i) : (procs i).ppid = mypid ∧ (procs i).state = .zombie := by
  simpa using List.find?_some h

theorem sysWaitPass_cases (k : KState) (statusPtr : Nat) :
    (∃ c i, k.currentProcess = some c ∧
      (k.processes i).ppid = (k.processes c).pid ∧ (k.processes i).state = .zombie ∧
      sysWaitPass k statusPtr =
        (.reaped i (k.processes i).pid (storedStatus k statusPtr i),
          k.setProcess i { k.processes i with state := .unused })) ∨
    (∃ c, k.currentProcess = some c ∧ sysWaitPass k statusPtr = (.retry, k)) ∨
    sysWaitPass k statusPtr = (.failed, k) := by
  rcases Option.eq_none_or_eq_some k.currentProcess with hc | ⟨c, hc⟩
  · exact Or.inr (Or.inr (by simp only [sysWaitPass, hc]))
  · rcases Option.eq_none_or_eq_some (findZombieChild k.processes (k.processes c).pid) with
      hz | ⟨i, hz⟩
    · by_cases hl : hasLiveChild k.processes (k.processes c).pid = true
      · exact Or.inr (Or.inl ⟨c, hc, by simp only [sysWaitPass, hc, hz, hl, if_true]⟩)
      · exact Or.inr (Or.inr (by simp only [sysWaitPass, hc, hz, hl]; rfl))
    · obtain ⟨hpp, hst⟩ := findZombieChild_some hz
      exact Or.inl ⟨c, i, hc, hpp, hst, by simp only [sysWaitPass, hc, hz]⟩

/-! ## What a call does to identities

Every call fills one free entry, frees one zombie entry, or leaves every entry's identity alone. -/

/-- What stays with a process for as long as it occupies its entry. -/
structure Process.SameIdentity (p q : Process) : Prop where
  pid_eq : p.pid = q.pid
  ppid_eq : p.ppid = q.ppid
  fdTable_eq : p.fdTable = q.fdTable
  kernelStack_eq : p.kernelStack = q.kernelStack
  unused_iff : p.state = .unused ↔ q.state = .unused

theorem Process.SameIdentity.refl (p : Process) : p.SameIdentity p := ⟨rfl, rfl, rfl, rfl, Iff.rfl⟩

theorem Process.SameIdentity.trans {p q r : Process} (h : p.SameIdentity q) (h' : q.SameIdentity r) :
    p.SameIdentity r :=
  ⟨h.pid_eq.trans h'.pid_eq, h.ppid_eq.trans h'.ppid_eq, h.fdTable_eq.trans h'.fdTable_eq,
    h.kernelStack_eq.trans h'.kernelStack_eq, h.unused_iff.trans h'.unused_iff⟩

theorem setProcess_sameIdentity {k : KState} {i : Slot} {p : Process} (h : p.SameIdentity (k.processes i)) (j : Slot) :
    ((k.setProcess i p).processes j).SameIdentity (k.processes j) := by
  by_cases hj : j = i
  · subst hj; simpa using h
  · simpa [hj] using Process.SameIdentity.refl (k.processes j)

/-- The entry a call fills with a new process. -/
def Call.filledSlot (k : KState) : Call → Option Slot
  | .create _ _ _ => findUnused k.processes
  | .fork => k.currentProcess.bind fun _ => findUnused k.processes
  | _ => none

/-- The entry a call frees. -/
def Call.reapedSlot (k : KState) : Call → Option Slot
  | .wait statusPtr =>
    match (sysWaitPass k statusPtr).1 with
    | .reaped i _ _ => some i
    | _ => none
  | _ => none

theorem Call.exec_of_filled {L : Layout} {k : KState} {call : Call} {i : Slot} (h : call.filledSlot k = some i) :
    (k.processes i).state = .unused ∧ ∃ p : Process, (call.exec L k).2.processes = Function.update k.processes i p ∧
      p.pid = i.val ∧ p.ppid = k.currentPid ∧ p.state = .ready ∧
      (call.exec L k).2.currentProcess = k.currentProcess := by
  cases call with
  | create entry name ring =>
    refine ⟨findUnused_some h, ?_⟩
    rcases processCreate_cases L k entry name ring with ⟨hno, _⟩ | ⟨pid, hpid, hcr⟩
    · rw [filledSlot, hno] at h; cases h
    · obtain rfl : pid = i := Option.some.inj (hpid.symm.trans h)
      simp only [exec, hcr]
      exact ⟨_, rfl, rfl, rfl, rfl, rfl⟩
  | fork =>
    obtain ⟨c, hc, hfree⟩ := Option.bind_eq_some_iff.mp h
    refine ⟨findUnused_some hfree, ?_⟩
    rcases processFork_cases k with ⟨hno, _⟩ | ⟨c', pid, hc', hpid, hf⟩
    · rcases hno with hno | hno
      · rw [hno] at hc; cases hc
      · rw [hno] at hfree; cases hfree
    · obtain rfl : pid = i := Option.some.inj (hpid.symm.trans hfree)
      simp only [exec, hf]
      exact ⟨_, rfl, rfl, by simp [KState.currentPid, hc', forkedProcess], rfl, rfl⟩
  | _ => cases h

theorem Call.exec_of_reaped {L : Layout} {k : KState} {call : Call} {i : Slot}
    (h : call.reapedSlot k = some i) :
    ∃ c, k.currentProcess = some c ∧ (k.processes i).ppid = (k.processes c).pid ∧
      (k.processes i).state = .zombie ∧
      call.exec L k = (.returned, k.setProcess i { k.processes i with state := .unused }) := by
  cases call with
  | wait statusPtr =>
    rcases sysWaitPass_cases k statusPtr with ⟨c, j, hc, hpp, hz, hw⟩ | ⟨c, _, hw⟩ | hw
    · rw [reapedSlot, hw] at h
      obtain rfl : j = i := Option.some.inj h
      exact ⟨c, hc, hpp, hz, by simp only [exec, hw]⟩
    · rw [reapedSlot, hw] at h; cases h
    · rw [reapedSlot, hw] at h; cases h
  | _ => cases h

/-- The current process occupies its entry, and every process carries its slot's number and not its
own as that of its creator. -/
structure WellNumbered (k : KState) : Prop where
  current_live : ∀ c, k.currentProcess = some c → (k.processes c).state ≠ .unused
  pid_eq : ∀ i : Slot, (k.processes i).state ≠ .unused → (k.processes i).pid = i.val
  ppid_ne : ∀ i : Slot, (k.processes i).state ≠ .unused → (k.processes i).ppid ≠ i.val

theorem wellNumbered_processInit (k : KState) : WellNumbered (processInit k) where
  current_live := fun _ h => nomatch h
  pid_eq := fun _ h => absurd rfl h
  ppid_ne := fun _ h => absurd rfl h

/-- The process a call switches to. -/
def Call.target (k : KState) : Call → Option Slot
  | .scheduler => pick k
  | .yield => pick k
  | .sleep ms => k.currentProcess.bind fun c => pick (sleeping k c ms)
  | .exit code => k.currentProcess.bind fun c =>
    if (k.processes c).pid = 0 then none else pick (exiting k c code)
  | .wait statusPtr =>
    match (sysWaitPass k statusPtr).1 with
    | .retry => pick k
    | _ => none
  | _ => none

/-- The process is neither a free entry nor a zombie. -/
def Process.Alive (p : Process) : Prop := p.state ≠ .unused ∧ p.state ≠ .zombie

/-- The process in slot `i` can still run: it has the CPU, or it is alive. -/
def Live (k : KState) (i : Slot) : Prop := k.currentProcess = some i ∨ (k.processes i).Alive

/-- Two states that differ at most in how far processes are from running: identities, saved stack
pointers, the CPU, the current process and the descriptor table agree, and nobody else dies or
revives. -/
structure SameContexts (k k' : KState) : Prop where
  current_eq : k'.currentProcess = k.currentProcess
  cpu_eq : k'.cpu = k.cpu
  globalFdTable_eq : k'.globalFdTable = k.globalFdTable
  identity : ∀ j, (k'.processes j).SameIdentity (k.processes j)
  savedRsp_eq : ∀ j, (k'.processes j).savedRsp = (k.processes j).savedRsp
  alive_iff : ∀ j, k.currentProcess ≠ some j → ((k'.processes j).Alive ↔ (k.processes j).Alive)

theorem SameContexts.refl (k : KState) : SameContexts k k :=
  ⟨rfl, rfl, rfl, fun _ => .refl _, fun _ => rfl, fun _ _ => Iff.rfl⟩

theorem SameContexts.live_iff {k k' : KState} (h : SameContexts k k') (j : Slot) : Live k' j ↔ Live k j := by
  by_cases hj : k.currentProcess = some j
  · exact iff_of_true (Or.inl (h.current_eq.trans hj)) (Or.inl hj)
  · simp only [Live, h.current_eq, hj, false_or]
    exact h.alive_iff j hj

theorem SameContexts.trans {k k' k'' : KState} (h : SameContexts k k') (h' : SameContexts k' k'') :
    SameContexts k k'' where
  current_eq := h'.current_eq.trans h.current_eq
  cpu_eq := h'.cpu_eq.trans h.cpu_eq
  globalFdTable_eq := h'.globalFdTable_eq.trans h.globalFdTable_eq
  identity := fun j => (h'.identity j).trans (h.identity j)
  savedRsp_eq := fun j => (h'.savedRsp_eq j).trans (h.savedRsp_eq j)
  alive_iff := fun j hj =>
    (h'.alive_iff j (by rw [h.current_eq]; exact hj)).trans (h.alive_iff j hj)

theorem sameContexts_setProcess {k : KState} {i : Slot} {p : Process}
    (h : p.SameIdentity (k.processes i)) (hrsp : p.savedRsp = (k.processes i).savedRsp)
    (halive : k.currentProcess ≠ some i → (p.Alive ↔ (k.processes i).Alive)) :
    SameContexts k (k.setProcess i p) where
  current_eq := rfl
  cpu_eq := rfl
  globalFdTable_eq := rfl
  identity := setProcess_sameIdentity h
  savedRsp_eq := fun j => by
    by_cases hj : j = i
    · subst hj; simpa using hrsp
    · simp [hj]
  alive_iff := fun j hcur => by
    by_cases hj : j = i
    · subst hj; simpa using halive hcur
    · simp [hj]

theorem sameContexts_woken (k : KState) : SameContexts k k.woken where
  current_eq := rfl
  cpu_eq := rfl
  globalFdTable_eq := rfl
  identity := fun j => by
    obtain ⟨st, wt, h, hun, _⟩ := woken_entry k j
    rw [h]
    exact ⟨rfl, rfl, rfl, rfl, hun⟩
  savedRsp_eq := fun j => by
    obtain ⟨st, wt, h, _, _⟩ := woken_entry k j
    rw [h]
  alive_iff := fun j _ => by
    obtain ⟨st, wt, h, hun, hz⟩ := woken_entry k j
    rw [h]
    exact and_congr (not_congr hun) (not_congr hz)

/-- The call returns to its caller or switches to its target, from a state with the same contexts. -/
def Call.Reschedules (L : Layout) (k : KState) (call : Call) : Prop :=
  ∃ k', SameContexts k k' ∧
    ((call.target k = none ∧ call.exec L k = (.returned, k')) ∨
      ∃ n, call.target k = some n ∧ k.currentProcess ≠ some n ∧
        (k'.processes n).state = .ready ∧ call.exec L k = (.switched n, switchTo L k' n))

theorem Call.exec_of_neither {L : Layout} {k : KState} {call : Call}
    (hlive : ∀ c, k.currentProcess = some c → (k.processes c).state ≠ .unused)
    (hf : call.filledSlot k = none) (hr : call.reapedSlot k = none) : call.Reschedules L k := by
  -- a call that changes nothing, and a call of the scheduler from a state with the same contexts
  have hsame : call.target k = none → call.exec L k = (.returned, k) → call.Reschedules L k :=
    fun ht hx => ⟨k, .refl k, Or.inl ⟨ht, hx⟩⟩
  have hsched : ∀ k₁, SameContexts k k₁ → call.target k = pick k₁ →
      call.exec L k = processScheduler L k₁ → call.Reschedules L k := by
    intro k₁ h₁ ht hx
    refine ⟨k₁.woken, h₁.trans (sameContexts_woken k₁), ?_⟩
    rcases processScheduler_pick L k₁ with ⟨hp, h⟩ | ⟨n, hp, hc, hready, h⟩
    · exact Or.inl ⟨ht.trans hp, hx.trans h⟩
    · exact Or.inr ⟨n, ht.trans hp, h₁.current_eq ▸ hc, hready, hx.trans h⟩
  cases call with
  | create entry name ring =>
    rcases processCreate_cases L k entry name ring with ⟨_, hcr⟩ | ⟨pid, hpid, _⟩
    · exact hsame rfl (by simp only [exec, hcr])
    · rw [filledSlot, hpid] at hf; cases hf
  | fork =>
    rcases processFork_cases k with ⟨_, hfk⟩ | ⟨c, pid, hc, hpid, _⟩
    · exact hsame rfl (by simp only [exec, hfk])
    · rw [filledSlot, hc, Option.bind_some, hpid] at hf; cases hf
  | scheduler => exact hsched k (.refl k) rfl rfl
  | yield => exact hsched k (.refl k) rfl rfl
  | sleep ms =>
    rcases processSleep_cases L k ms with ⟨hc, hs⟩ | ⟨c, hc, hs⟩
    · exact hsame (by simp [target, hc]) hs
    · refine hsched (sleeping k c ms) (sameContexts_setProcess ?_ rfl fun hne => absurd hc hne)
        (by simp [target, hc]) hs
      exact ⟨rfl, rfl, rfl, rfl, by simp [hlive c hc]⟩
  | wake pid =>
    rcases processWake_cases k pid with hw | ⟨i, _, hb, hw⟩
    · exact hsame rfl (by simp only [exec, hw])
    · have hset := sameContexts_setProcess (k := k) (i := i)
        (p := { k.processes i with state := .ready }) ⟨rfl, rfl, rfl, rfl, by simp [hb]⟩ rfl
        fun _ => by simp [Process.Alive, hb]
      exact ⟨_, hset, Or.inl ⟨rfl, by simp only [exec, hw]⟩⟩
  | exit code =>
    rcases processExit_cases L k code with ⟨hno, hx⟩ | ⟨c, hc, hpid, hx⟩
    · refine hsame ?_ hx
      rcases hno with hc | ⟨c, hc, hpid⟩
      · simp [target, hc]
      · simp [target, hc, hpid]
    · refine hsched (exiting k c code) ?_ (by simp [target, hc, hpid]) hx
      have hset := sameContexts_setProcess (k := k) (i := c)
        (p := { k.processes c with cr3 := 0, state := .zombie, exitCode := code })
        ⟨rfl, rfl, rfl, rfl, by simp [hlive c hc]⟩ rfl fun hne => absurd hc hne
      exact ⟨hset.current_eq, hset.cpu_eq, hset.globalFdTable_eq, hset.identity,
        hset.savedRsp_eq, hset.alive_iff⟩
  | wait statusPtr =>
    rcases sysWaitPass_cases k statusPtr with ⟨c, j, _, _, _, hw⟩ | ⟨c, _, hw⟩ | hw
    · rw [reapedSlot, hw] at hr; cases hr
    · exact hsched k (.refl k) (by simp only [target, hw])
        (by simp only [exec, hw, processYield])
    · exact hsame (by simp only [target, hw]) (by simp only [exec, hw])
  | tick =>
    exact ⟨{ k with timerTicks := (k.timerTicks + 1) % 2 ^ 64 },
      ⟨rfl, rfl, rfl, fun _ => .refl _, fun _ => rfl, fun _ _ => Iff.rfl⟩, Or.inl ⟨rfl, rfl⟩⟩

theorem switchTo_sameIdentity (L : Layout) {k : KState} {n : Slot}
    (hready : (k.processes n).state = .ready) (j : Slot) :
    ((switchTo L k n).processes j).SameIdentity (k.processes j) := by
  rw [switchTo_processes]
  exact ⟨rfl, rfl, rfl, rfl, switchedState_eq_iff hready j (by decide) (by decide)⟩

theorem Call.exec_sameIdentity {L : Layout} {k : KState} {call : Call}
    (hlive : ∀ c, k.currentProcess = some c → (k.processes c).state ≠ .unused)
    (hf : call.filledSlot k = none) (hr : call.reapedSlot k = none) :
    (∀ j, ((call.exec L k).2.processes j).SameIdentity (k.processes j)) ∧
    (∀ d, (call.exec L k).2.currentProcess = some d → ((call.exec L k).2.processes d).state ≠ .unused) := by
  obtain ⟨k', hk', ⟨_, hx⟩ | ⟨n, _, _, hready, hx⟩⟩ := exec_of_neither (L := L) hlive hf hr
  · rw [hx]
    refine ⟨hk'.identity, fun d hd hun => hlive d (hk'.current_eq ▸ hd) ?_⟩
    exact (hk'.identity d).unused_iff.mp hun
  · rw [hx]
    refine ⟨fun j => (switchTo_sameIdentity L hready j).trans (hk'.identity j), fun d hd => ?_⟩
    obtain rfl : n = d := by simpa using hd
    simp [switchTo_processes, switchedState]

theorem Call.target_of_reaped {k : KState} {call : Call} {i : Slot}
    (h : call.reapedSlot k = some i) : call.target k = none := by
  cases call with
  | wait statusPtr =>
    rcases sysWaitPass_cases k statusPtr with ⟨_, _, _, _, _, hw⟩ | ⟨_, _, hw⟩ | hw
    · simp only [target, hw]
    · rw [reapedSlot, hw] at h; cases h
    · rw [reapedSlot, hw] at h; cases h
  | _ => cases h

theorem WellNumbered.of_sameIdentity {k k' : KState} (h : WellNumbered k)
    (hid : ∀ j, (k'.processes j).SameIdentity (k.processes j))
    (hcur : ∀ d, k'.currentProcess = some d → (k'.processes d).state ≠ .unused) :
    WellNumbered k' where
  current_live := hcur
  pid_eq := fun j hj =>
    (hid j).pid_eq.trans (h.pid_eq j fun hun => hj ((hid j).unused_iff.mpr hun))
  ppid_ne := fun j hj => by
    rw [(hid j).ppid_eq]
    exact h.ppid_ne j fun hun => hj ((hid j).unused_iff.mpr hun)

theorem WellNumbered.of_sameContexts {k k' : KState} (h : WellNumbered k) (hk' : SameContexts k k') : WellNumbered k' :=
  h.of_sameIdentity hk'.identity fun d hd hun =>
    h.current_live d (hk'.current_eq ▸ hd) ((hk'.identity d).unused_iff.mp hun)

theorem Call.exec_wellNumbered {L : Layout} {k : KState} (h : WellNumbered k) (call : Call) :
    WellNumbered (call.exec L k).2 := by
  rcases Option.eq_none_or_eq_some (call.filledSlot k) with hf | ⟨i, hf⟩
  · rcases Option.eq_none_or_eq_some (call.reapedSlot k) with hr | ⟨i, hr⟩
    · obtain ⟨hid, hcur⟩ := exec_sameIdentity (L := L) h.current_live hf hr
      exact h.of_sameIdentity hid hcur
    · obtain ⟨c, hc, hpp, hz, hx⟩ := exec_of_reaped (L := L) hr
      rw [hx]
      -- a process is not its own creator, so nobody frees its own entry
      have hci : c ≠ i := by
        rintro rfl
        have hun : (k.processes c).state ≠ .unused := by rw [hz]; decide
        exact h.ppid_ne c hun (hpp.trans (h.pid_eq c hun))
      refine ⟨fun d hd => ?_, fun j hj => ?_, fun j hj => ?_⟩
      · obtain rfl : c = d := Option.some.inj (hc.symm.trans hd)
        simpa [hci] using h.current_live c hc
      · by_cases hji : j = i
        · subst hji; simp at hj
        · rw [KState.setProcess_processes_of_ne _ _ hji] at hj ⊢
          exact h.pid_eq j hj
      · by_cases hji : j = i
        · subst hji; simp at hj
        · rw [KState.setProcess_processes_of_ne _ _ hji] at hj ⊢
          exact h.ppid_ne j hj
  · obtain ⟨hun, p, hprocs, hpid, hppid, hst, hcur⟩ := exec_of_filled (L := L) hf
    have hci : ∀ c, k.currentProcess = some c → c ≠ i := by
      rintro c hc rfl
      exact h.current_live c hc hun
    refine ⟨fun d hd => ?_, fun j hj => ?_, fun j hj => ?_⟩
    · rw [hcur] at hd
      rw [hprocs, Function.update_of_ne (hci d hd)]
      exact h.current_live d hd
    · rw [hprocs] at hj ⊢
      by_cases hji : j = i
      · subst hji; simpa using hpid
      · rw [Function.update_of_ne hji] at hj ⊢
        exact h.pid_eq j hj
    · rw [hprocs] at hj ⊢
      by_cases hji : j = i
      · subst hji
        rw [Function.update_self, hppid]
        rcases Option.eq_none_or_eq_some k.currentProcess with hc | ⟨c, hc⟩
        · simp only [KState.currentPid, hc]; omega
        · have hne := hci c hc
          simp only [KState.currentPid, hc]
          exact fun heq => hne (Fin.ext (by exact_mod_cast heq))
      · rw [Function.update_of_ne hji] at hj ⊢
        exact h.ppid_ne j hj

/-! ## What a call does to the descriptors -/

theorem switchTo_alive_iff (L : Layout) {k : KState} {n : Slot} (hready : (k.processes n).state = .ready) (j : Slot) :
    ((switchTo L k n).processes j).Alive ↔ (k.processes j).Alive := by
  rw [switchTo_processes]
  exact and_congr (not_congr (switchedState_eq_iff hready j (by decide) (by decide)))
    (not_congr (switchedState_eq_iff hready j (by decide) (by decide)))

theorem Call.exec_descriptors {L : Layout} {k : KState} (h : WellNumbered k) (call : Call) :
    (call.exec L k).2.globalFdTable = k.globalFdTable ∧ ∀ j, call.filledSlot k ≠ some j →
      ((call.exec L k).2.processes j).fdTable = (k.processes j).fdTable ∧ (Live (call.exec L k).2 j → Live k j) ∧
      (k.currentProcess ≠ some j → Live k j → Live (call.exec L k).2 j) := by
  rcases Option.eq_none_or_eq_some (call.filledSlot k) with hf | ⟨i, hf⟩
  · rcases Option.eq_none_or_eq_some (call.reapedSlot k) with hr | ⟨i, hr⟩
    · obtain ⟨k', hk', ⟨_, hx⟩ | ⟨n, _, hn, hready, hx⟩⟩ :=
        exec_of_neither (L := L) h.current_live hf hr
      · rw [hx]
        refine ⟨hk'.globalFdTable_eq, fun j _ => ⟨(hk'.identity j).fdTable_eq, ?_, fun _ => ?_⟩⟩
        · exact (hk'.live_iff j).mp
        · exact (hk'.live_iff j).mpr
      · rw [hx]
        have hglobal : (switchTo L k' n).globalFdTable = k.globalFdTable := by
          rw [switchTo_globalFdTable, hk'.globalFdTable_eq]
        have hid := fun j => (switchTo_sameIdentity L hready j).trans (hk'.identity j)
        have halive : (k'.processes n).Alive := by simp [Process.Alive, hready]
        refine ⟨hglobal, fun j _ => ⟨(hid j).fdTable_eq, fun hl => ?_, fun hj hl => ?_⟩⟩
        · rw [← hk'.live_iff]
          rcases hl with hcur | hl
          · obtain rfl : n = j := by simpa using hcur
            exact Or.inr halive
          · exact Or.inr ((switchTo_alive_iff L hready j).mp hl)
        · rcases (hk'.live_iff j).mpr hl with hcur | hl
          · exact absurd (hk'.current_eq ▸ hcur) hj
          · exact Or.inr ((switchTo_alive_iff L hready j).mpr hl)
    · obtain ⟨c, hc, _, hz, hx⟩ := exec_of_reaped (L := L) hr
      rw [hx]
      refine ⟨rfl, fun j _ => ?_⟩
      by_cases hji : j = i
      · subst hji
        refine ⟨by simp, fun hl => ?_, fun hj hl => ?_⟩
        · rcases hl with hcur | hl
          · exact Or.inl hcur
          · simp [Process.Alive] at hl
        · rcases hl with hcur | hl
          · exact absurd hcur hj
          · exact absurd hz hl.2
      · have hsame : ∀ p, ((k.setProcess i p).processes j) = k.processes j := fun p =>
          KState.setProcess_processes_of_ne k p hji
        simp only [Live, hsame]
        exact ⟨trivial, id, fun _ => id⟩
  · obtain ⟨_, p, hprocs, _, _, _, hcur⟩ := exec_of_filled (L := L) hf
    refine ⟨?_, fun j hj => ?_⟩
    · cases call with
      | create entry name ring =>
        rcases processCreate_cases L k entry name ring with ⟨_, hx⟩ | ⟨_, _, hx⟩
        all_goals simp only [exec, hx, KState.setProcess_globalFdTable]
      | fork =>
        rcases processFork_cases k with ⟨_, hx⟩ | ⟨_, _, _, _, hx⟩
        all_goals simp only [exec, hx, KState.setProcess_globalFdTable]
      | _ => cases hf
    · have hji : j ≠ i := fun heq => hj (by rw [hf, heq])
      simp only [Live, hprocs, hcur, Function.update_of_ne hji]
      exact ⟨trivial, id, fun _ => id⟩

end Chicago95.Kernel
