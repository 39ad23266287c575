/-
# Chicago95.Kernel.Calls — `sys_wait`, and the calls a run is made of.

A run of the system is a sequence of calls, each made by whoever has the CPU. `Call.exec` gives the
state after a call and says whether control comes back to the caller.

`sys_wait` loops: scan the table, and yield when there is a live child but no zombie. One pass of the
loop is one call here, since other processes run between two passes.
-/
import Chicago95.Kernel.Process

namespace Chicago95.Kernel

open Chicago95.Lib.X86

/-! ## `sys_wait` -/

def syscallValidateUserPtr (k : KState) (addr len : Nat) : Bool :=
  if addr = 0 then false
  else
    match k.currentProcess with
    | none => false
    | some c =>
      let stop := (addr + len) % 2 ^ 64
      if stop < addr then false                          -- overflow check
      else if 0x0000800000000000 ≤ addr then false
      else if 0x0000800000000000 ≤ stop then false
      else if (k.processes c).cr3 = 0 then true
      else
        -- every page of the range is mapped in the process's address space
        let stop := if stop ≤ addr then addr + 1 else stop
        (List.range ((stop - pageOf addr + 0xFFF) / 0x1000)).all fun i =>
          vmmTranslate k.vm.mem (k.processes c).cr3 (pageOf addr + i * 0x1000) != 0

/-- What one pass of `sys_wait` ends in. -/
inductive WaitResult where
  /-- A zombie child was found: its slot, its pid, and the exit status stored through `status_ptr`. -/
  | reaped (child : Slot) (pid : Int) (status : Option Int)
  /-- Live children only: the pass is followed by a yield and another pass. -/
  | retry
  /-- `-1`: no current process, or no children. -/
  | failed
  deriving DecidableEq, Repr

/-- The first zombie entry whose `ppid` is `mypid`. -/
def findZombieChild (procs : Slot → Process) (mypid : Int) : Option Slot :=
  (List.finRange 64).find? fun i =>
    decide ((procs i).ppid = mypid) && decide ((procs i).state = .zombie)

/-- `found`: some entry that is neither unused nor a zombie has `ppid = mypid`. -/
def hasLiveChild (procs : Slot → Process) (mypid : Int) : Bool :=
  (List.finRange 64).any fun i =>
    decide ((procs i).ppid = mypid) && decide ((procs i).state ≠ .unused) &&
      decide ((procs i).state ≠ .zombie)

/-- The exit status of `i` as stored through `status_ptr`, if the pointer is good. -/
def storedStatus (k : KState) (statusPtr : Nat) (i : Slot) : Option Int :=
  if statusPtr ≠ 0 ∧ syscallValidateUserPtr k statusPtr 4 = true then some (k.processes i).exitCode
  else none

/-- One pass of the loop of `sys_wait`. -/
def sysWaitPass (k : KState) (statusPtr : Nat) : WaitResult × KState :=
  match k.currentProcess with
  | none => (.failed, k)
  | some c =>
    let mypid := (k.processes c).pid
    match findZombieChild k.processes mypid with
    | some i =>
      (.reaped i (k.processes i).pid (storedStatus k statusPtr i),
        k.setProcess i { k.processes i with state := .unused })
    | none => if hasLiveChild k.processes mypid then (.retry, k) else (.failed, k)

/-! ## The calls a run is made of -/

/-- The entry points of the process manager with `sys_wait`, and the timer interrupt's own effect. -/
inductive Call where
  | create (entry : Nat) (name : List UInt8) (ring : Ring)
  | fork
  | scheduler
  | yield
  | sleep (ms : Nat)
  | wake (pid : Int)
  | exit (code : Int)
  /-- One pass of `sys_wait`, with the yield that follows a fruitless one. -/
  | wait (statusPtr : Nat)
  /-- `timer_ticks++` -/
  | tick

/-- One call, made by whoever has the CPU: what becomes of the caller, and the state afterwards. -/
def Call.exec (L : Layout) (k : KState) : Call → Control × KState
  | .create entry name ring => (.returned, (processCreate L k entry name ring).2)
  | .fork => (.returned, (processFork k).2)
  | .scheduler => processScheduler L k
  | .yield => processYield L k
  | .sleep ms => processSleep L k ms
  | .wake pid => (.returned, processWake k pid)
  | .exit code => processExit L k code
  | .wait statusPtr =>
    match sysWaitPass k statusPtr with
    | (.retry, k) => processYield L k
    | (_, k) => (.returned, k)
  | .tick => (.returned, { k with timerTicks := (k.timerTicks + 1) % 2 ^ 64 })

/-- A call together with the CPU its caller makes it on: between two calls the running code computes, and
arrives at the next one with registers and memory of its own making. -/
abbrev CallOn := Cpu × Call

/-- The state a call is made in. -/
def KState.onCpu (k : KState) (cpu : Cpu) : KState := { k with cpu := cpu }

end Chicago95.Kernel
