/-
# Chicago95.Kernel.UserHeap — the heap of a process under `sys_brk` and `sys_sbrk`.

Three fields describe the heap: `user_heap`, where it starts, `brk`, where it ends, and `user_heap_end`, up
to where the calls believe it mapped. `process_create` maps the first 256 KB and leaves `user_heap_end` at
the start, so the first growth with a page to spare maps over pages that are mapped already, whose frames
are lost. A history here is any order of the two calls right after `process_create`.
-/
import Chicago95.Kernel.ProcessTable
import Chicago95.Kernel.UserMemory
import Chicago95.Lib.Transition

namespace Chicago95.Kernel

open Chicago95.Lib.Transition

/-- The calls of a history. -/
inductive HeapCall where
  | brk (addr : Nat)
  | sbrk (increment : Nat)
  deriving DecidableEq, Repr

/-- What the call returns, and the state after it. -/
def HeapCall.exec (k : KState) : HeapCall → Int × KState
  | .brk addr => sysBrk k addr
  | .sbrk increment => sysSbrk k increment

/-- The argument is a 64-bit word. -/
def HeapCall.IsWord : HeapCall → Prop
  | .brk addr => addr < 2 ^ 64
  | .sbrk increment => increment < 2 ^ 64

namespace UserHeap

/-- One call of a history. -/
def Step (s : KState) (call : HeapCall) (t : KState) : Prop := call.IsWord ∧ t = (call.exec s).2

/-- The state in which the process just made in slot `c` runs. -/
def built (L : Layout) (k : KState) (entry : Nat) (name : List UInt8) (ring : Ring) (c : Slot) : KState :=
  { (processCreate L k entry name ring).2 with currentProcess := some c }

variable {c : Slot} {s t : KState}

/-- Where `x` is mapped to in the address space of process `c`, `0` if nowhere. -/
def translate (c : Slot) (s : KState) (x : Nat) : Nat :=
  vmmTranslate s.vm.mem (s.processes c).cr3 x

/-- `f` is a frame that some address of process `c` is mapped to. -/
def MappedFrame (c : Slot) (s : KState) (f : Nat) : Prop :=
  ∃ x, translate c s x ≠ 0 ∧ f = pageOf (translate c s x)

/-- `x` lies in a page of the heap: one that has an address from `user_heap` up to the break. -/
def HeapPage (p : Process) (x : Nat) : Prop :=
  p.userHeap ≤ x ∧ ∃ y, p.userHeap ≤ y ∧ y < p.brk ∧ x / pageSize = y / pageSize

/-- **What the heap promises after a call.** -/
structure HeapSound (c : Slot) (s : KState) (call : HeapCall) (t : KState) : Prop where
  start : (t.processes c).userHeap ≤ (t.processes c).brk
  mapped : ∀ x, HeapPage (t.processes c) x → translate c t x ≠ 0
  kept : ∀ x, HeapPage (s.processes c) x → HeapPage (t.processes c) x →
    translate c t x = translate c s x ∧
      t.vm.mem (pageOf (translate c s x)) = s.vm.mem (pageOf (translate c s x))
  moved : ∀ n, call = .sbrk n → (call.exec s).1 ≠ -1 →
    (call.exec s).1 = toInt64 (s.processes c).brk ∧
      (t.processes c).brk = ((s.processes c).brk + n) % 2 ^ 64
  failed : (call.exec s).1 = -1 →
    (t.processes c).brk = (s.processes c).brk ∧ ∀ x, translate c t x = translate c s x
  freed : ∀ f, MappedFrame c s f → ¬ MappedFrame c t f → t.vm.pmm.Free f

/-- **The condition of each call.** A `brk` beyond `user_heap_end` finds no page to map, and what it adds
is mapped already. -/
def Settled (c : Slot) (s : KState) : HeapCall → Prop
  | .brk addr =>
    (s.processes c).userHeapEnd < addr → addr - (s.processes c).userHeap ≤ brkLimit →
      s.vm.pmm.pmmAllocPage.1 = 0 ∧ addr + 0xFFF < 2 ^ 64 ∧
        ∀ x, (s.processes c).userHeapEnd ≤ x → x < pageUp addr → translate c s x ≠ 0
  | .sbrk n =>
    n ≠ 0 → pageSize ∣ ((s.processes c).brk + n) % 2 ^ 64 ∧
      (s.processes c).userHeap ≤ ((s.processes c).brk + n) % 2 ^ 64 ∧
        ((s.processes c).brk + n) % 2 ^ 64 ≤ pageUp (s.processes c).brk ∧
          ∀ x, (s.processes c).userHeapEnd ≤ x → x < ((s.processes c).brk + n) % 2 ^ 64 →
            translate c s x ≠ 0

/-! ## What all histories keep -/

/-- The break lies between the two ends, and everything between those is mapped. -/
structure Inv (c : Slot) (s : KState) : Prop where
  current : s.currentProcess = some c
  start : (s.processes c).userHeap ≤ (s.processes c).brk
  stop : (s.processes c).brk ≤ (s.processes c).userHeapEnd
  below : (s.processes c).userHeapEnd + pageSize ≤ 2 ^ 64
  whole : pageSize ∣ (s.processes c).userHeapEnd ∨
    (s.processes c).userHeapEnd = (s.processes c).userHeap
  mapped : ∀ x, (s.processes c).userHeap ≤ x → x < (s.processes c).userHeapEnd → translate c s x ≠ 0

theorem Inv.heapPage_lt (h : Inv c s) {x : Nat} (hx : HeapPage (s.processes c) x) :
    x < (s.processes c).userHeapEnd := by
  obtain ⟨_, y, hy, hlt, hpage⟩ := hx
  have hstop := h.stop
  rcases h.whole with ⟨q, hq⟩ | heq
  · simp only [pageSize] at hq hpage
    omega
  · omega

theorem Inv.heapPage_mapped (h : Inv c s) {x : Nat} (hx : HeapPage (s.processes c) x) :
    translate c s x ≠ 0 := h.mapped x hx.1 (h.heapPage_lt hx)

theorem toInt64_ne {n : Nat} (h : n + pageSize ≤ 2 ^ 64) : toInt64 n ≠ -1 := by
  simp only [pageSize] at h
  unfold toInt64
  split <;> omega

/-- A state that differs from `s` in nothing but `brk`, `user_heap_end` and the page manager. -/
structure Rebroken (c : Slot) (s t : KState) (brk stop : Nat) : Prop where
  current : t.currentProcess = some c
  process : t.processes c = { s.processes c with brk := brk, userHeapEnd := stop }
  mem : t.vm.mem = s.vm.mem

theorem Rebroken.translate {brk stop : Nat} (h : Rebroken c s t brk stop) (x : Nat) :
    translate c t x = translate c s x := by
  rw [UserHeap.translate, UserHeap.translate, h.process, h.mem]

theorem Inv.rebroken (h : Inv c s) {call : HeapCall} {brk stop : Nat} (ht : Rebroken c s t brk stop)
    (hlo : (s.processes c).userHeap ≤ brk) (hhi : brk ≤ stop) (hbelow : stop + pageSize ≤ 2 ^ 64)
    (hwhole : pageSize ∣ stop ∨ stop = (s.processes c).userHeap)
    (hmapped : ∀ x, (s.processes c).userHeapEnd ≤ x → x < stop → UserHeap.translate c s x ≠ 0)
    (hmoved : ∀ n, call = .sbrk n → (call.exec s).1 = toInt64 (s.processes c).brk ∧
      brk = ((s.processes c).brk + n) % 2 ^ 64) (hfailed : (call.exec s).1 = -1 → brk = (s.processes c).brk) :
    Inv c t ∧ HeapSound c s call t := by
  have hinv : Inv c t := by
    refine ⟨ht.current, ?_, ?_, ?_, ?_, fun x hx hlt => ?_⟩
    · rw [ht.process]
      exact hlo
    · rw [ht.process]
      exact hhi
    · rw [ht.process]
      exact hbelow
    · rw [ht.process]
      exact hwhole
    · rw [ht.process] at hx hlt
      rw [ht.translate]
      rcases Nat.lt_or_ge x (s.processes c).userHeapEnd with hold | hnew
      · exact h.mapped x hx hold
      · exact hmapped x hnew hlt
  refine ⟨hinv, hinv.start, fun x hx => hinv.heapPage_mapped hx, fun x _ _ => ?_, fun n hn _ => ?_,
    fun hr => ?_, fun f ⟨x, hx, hf⟩ hnone => ?_⟩
  · exact ⟨ht.translate x, by rw [ht.mem]⟩
  · rw [ht.process]
    exact hmoved n hn
  · rw [ht.process]
    exact ⟨hfailed hr, ht.translate⟩
  · rw [← ht.translate] at hx hf
    exact absurd ⟨x, hx, hf⟩ hnone

theorem Inv.unchanged (h : Inv c s) {call : HeapCall}
    (hcall : ∀ n, call = .sbrk n → n = 0 ∧ (call.exec s).1 = toInt64 (s.processes c).brk) :
    Inv c s ∧ HeapSound c s call s := by
  have hlt := h.below
  have hstop := h.stop
  refine h.rebroken ⟨h.current, rfl, rfl⟩ h.start h.stop h.below h.whole (fun x hle hx => ?_)
    (fun n hn => ?_) fun _ => rfl
  · exact absurd hx (Nat.not_lt.mpr hle)
  · obtain ⟨rfl, hres⟩ := hcall n hn
    refine ⟨hres, ?_⟩
    simp only [pageSize] at hlt
    rw [Nat.add_zero, Nat.mod_eq_of_lt (by omega)]

/-! ## The two calls -/

theorem sound_brk (h : Inv c s) {addr : Nat} (hset : Settled c s (.brk addr)) :
    Inv c (sysBrk s addr).2 ∧ HeapSound c s (.brk addr) (sysBrk s addr).2 := by
  have hnone : ∀ n, HeapCall.brk addr = .sbrk n →
      n = 0 ∧ ((HeapCall.brk addr).exec s).1 = toInt64 (s.processes c).brk := fun n hn => nomatch hn
  have hexec : (HeapCall.brk addr).exec s = sysBrk s addr := rfl
  have hres := hexec
  unfold sysBrk at hres ⊢
  rw [h.current] at hres ⊢
  dsimp only at hres ⊢
  by_cases hzero : addr = 0
  · rw [if_pos hzero]
    exact h.unchanged hnone
  rw [if_neg hzero] at hres ⊢
  by_cases hlow : addr < (s.processes c).userHeap
  · rw [if_pos hlow]
    exact h.unchanged hnone
  rw [if_neg hlow] at hres ⊢
  by_cases hlimit : brkLimit < addr - (s.processes c).userHeap
  · rw [if_pos hlimit]
    exact h.unchanged hnone
  rw [if_neg hlimit] at hres ⊢
  by_cases hgrow : (s.processes c).userHeapEnd < addr
  · -- the loop finds no page, and what the break moves over is mapped
    obtain ⟨hnull, hwrap, hmapped⟩ := hset hgrow (Nat.le_of_not_lt hlimit)
    rw [if_pos hgrow] at hres ⊢
    obtain ⟨hle, hlt⟩ := pageUp_bounds hwrap
    have hup := pageUp_lt addr
    have hdvd := dvd_pageUp addr
    obtain ⟨_, hmem, _⟩ := mapZeroed_of_null hnull (s.processes c).cr3 userPage
      (pagesFrom (s.processes c).userHeapEnd (pageUp addr))
    refine h.rebroken (⟨rfl, ?_, hmem⟩ : Rebroken c s _ addr (pageUp addr)) (Nat.le_of_not_lt hlow) hle
      ?_ (Or.inl hdvd) hmapped (fun n hn => nomatch hn) fun hr => ?_
    · simp only [KState.setProcess, Function.update_self]
    · obtain ⟨q, hq⟩ := hdvd
      simp only [pageSize] at hq ⊢
      omega
    · rw [hres] at hr
      exact absurd hr (toInt64_ne (by simp only [pageSize]; omega))
  · rw [if_neg hgrow] at hres ⊢
    have hbelow := h.below
    have hfields : Rebroken c s (s.setProcess c { s.processes c with brk := addr }) addr
        (s.processes c).userHeapEnd := by
      refine ⟨h.current, ?_, rfl⟩
      simp only [KState.setProcess, Function.update_self]
    refine h.rebroken hfields
      (Nat.le_of_not_lt hlow) (Nat.le_of_not_lt hgrow) hbelow h.whole
      (fun x hle hx => absurd hx (Nat.not_lt.mpr hle)) (fun n hn => nomatch hn) fun hr => ?_
    rw [hres] at hr
    exact absurd hr (toInt64_ne (by omega))

theorem sound_sbrk (h : Inv c s) {n : Nat} (hset : Settled c s (.sbrk n)) :
    Inv c (sysSbrk s n).2 ∧ HeapSound c s (.sbrk n) (sysSbrk s n).2 := by
  have hexec : (HeapCall.sbrk n).exec s = sysSbrk s n := rfl
  have hres := hexec
  unfold sysSbrk at hres ⊢
  rw [h.current] at hres ⊢
  dsimp only at hres ⊢
  by_cases hzero : n = 0
  · rw [if_pos hzero] at hres ⊢
    refine h.unchanged fun m hm => ?_
    obtain rfl := HeapCall.sbrk.inj hm
    exact ⟨hzero, by rw [hres]⟩
  obtain ⟨hdvd, hlow, hroom, hmapped⟩ := hset hzero
  -- the new break is where it was asked for, and the loop has nothing to do
  have hnew : pageUp (((s.processes c).brk + n) % 2 ^ 64) = ((s.processes c).brk + n) % 2 ^ 64 :=
    pageUp_of_dvd hdvd (Nat.mod_lt _ (by decide))
  rw [if_neg hzero, hnew, pagesFrom_of_le hroom] at hres ⊢
  simp only [mapZeroed] at hres ⊢
  have hbelow := h.below
  have hstop := h.stop
  have hnewlt : ((s.processes c).brk + n) % 2 ^ 64 < 2 ^ 64 := Nat.mod_lt _ (by decide)
  have hmoved : ∀ m, HeapCall.sbrk n = .sbrk m → ((HeapCall.sbrk n).exec s).1
      = toInt64 (s.processes c).brk ∧
        ((s.processes c).brk + n) % 2 ^ 64 = ((s.processes c).brk + m) % 2 ^ 64 := fun m hm => by
    obtain rfl := HeapCall.sbrk.inj hm
    exact ⟨by rw [hres], rfl⟩
  have hfailed : ((HeapCall.sbrk n).exec s).1 = -1 →
      ((s.processes c).brk + n) % 2 ^ 64 = (s.processes c).brk := fun hr => by
    rw [hres] at hr
    exact absurd hr (toInt64_ne (by omega))
  by_cases hend : (s.processes c).userHeapEnd < ((s.processes c).brk + n) % 2 ^ 64
  · rw [if_pos hend]
    refine h.rebroken ⟨rfl, ?_, rfl⟩ hlow (Nat.le_refl _) ?_ (Or.inl hdvd) hmapped hmoved hfailed
    · simp only [KState.setProcess, Function.update_self]
    · obtain ⟨q, hq⟩ := hdvd
      simp only [pageSize] at hq ⊢
      omega
  · rw [if_neg hend]
    refine h.rebroken ⟨rfl, ?_, rfl⟩ hlow (Nat.le_of_not_lt hend) hbelow h.whole
      (fun x hle hx => absurd hx (Nat.not_lt.mpr hle)) hmoved hfailed
    simp only [KState.setProcess, Function.update_self]

theorem sound_step (h : Inv c s) {call : HeapCall} (hst : Step s call t) (hset : Settled c s call) :
    Inv c t ∧ HeapSound c s call t := by
  obtain ⟨_, rfl⟩ := hst
  cases call with
  | brk addr => exact sound_brk h hset
  | sbrk n => exact sound_sbrk h hset

/-! ## Histories -/

theorem built_process (L : Layout) (k : KState) (entry : Nat) (name : List UInt8) (ring : Ring)
    {c : Slot} (hnew : (processCreate L k entry name ring).1 = (c.val : Int)) :
    ∃ cr3, (built L k entry name ring c).processes c = freshProcess L k.currentPid c cr3 entry name ring := by
  rcases processCreate_cases L k entry name ring with ⟨_, hfull⟩ | ⟨pid, _, hpid⟩
  · rw [hfull] at hnew
    dsimp only at hnew
    omega
  · rw [hpid] at hnew
    have hval : pid.val = c.val := by
      dsimp only at hnew
      omega
    obtain rfl : pid = c := Fin.ext hval
    rw [built, hpid]
    simp only [KState.setProcess, Function.update_self]
    exact ⟨_, rfl⟩

theorem inv_built (L : Layout) (k : KState) (entry : Nat) (name : List UInt8) (ring : Ring) {c : Slot}
    (hnew : (processCreate L k entry name ring).1 = (c.val : Int)) : Inv c (built L k entry name ring c) := by
  obtain ⟨cr3, hp⟩ := built_process L k entry name ring hnew
  refine ⟨rfl, ?_, ?_, ?_, Or.inr ?_, fun x hx hlt => ?_⟩
  · rw [hp]
    exact Nat.le_refl _
  · rw [hp]
    exact Nat.le_refl _
  · rw [hp]
    show L.stackTop c - processUserStack - processHeapSize + pageSize ≤ 2 ^ 64
    have hend := L.kernelStacks_end
    have hlo := L.kernelStacks_ge
    have hc := c.isLt
    simp only [Layout.stackTop, processStackSize, processUserStack, processHeapSize, pageSize,
      kernelImageBase] at hend hlo ⊢
    omega
  · rw [hp]
    rfl
  · rw [hp] at hx hlt
    exact absurd hlt (Nat.not_lt.mpr hx)

/-- **The heap over whole histories** of the two calls right after `process_create`. Where every call meets
its condition, the heap keeps its promise after every call. -/
theorem heap_run (L : Layout) (k : KState) (entry : Nat) (name : List UInt8) (ring : Ring) {c : Slot}
    (hnew : (processCreate L k entry name ring).1 = (c.val : Int)) {tr : List (HeapCall × KState)}
    (htr : Trace Step (built L k entry name ring c) tr) (hset : Guarded (Settled c) (built L k entry name ring c) tr) :
    AllSteps (HeapSound c) (built L k entry name ring c) tr :=
  htr.allSteps_of_guarded (I := Inv c) (Q := HeapSound c)
    (fun _ _ _ hs hst hg => sound_step hs hst hg) (inv_built L k entry name ring hnew) hset

/-! ## A machine without free pages -/

/-- The first process of a machine that has no page left: it shares the kernel's address space. -/
def crowded : KState := built sampleLayout .bare 0 [] .ring3 firstSlot

/-- Where its heap starts. -/
def crowdedHeap : Nat := 0xFFFFFFFF802B4000

theorem crowded_new : (processCreate sampleLayout .bare 0 [] .ring3).1 = (firstSlot.val : Int) := rfl

theorem crowded_heap : (crowded.processes firstSlot).userHeap = crowdedHeap ∧
    (crowded.processes firstSlot).brk = crowdedHeap ∧ (crowded.processes firstSlot).userHeapEnd = crowdedHeap ∧
        (crowded.processes firstSlot).cr3 = 0 := ⟨rfl, rfl, rfl, rfl⟩

/-- The state after `brk` has gone up two pages. -/
def crowdedUp : KState := ((HeapCall.brk (crowdedHeap + 0x2000)).exec crowded).2

theorem crowdedUp_heap : (crowdedUp.processes firstSlot).userHeap = crowdedHeap ∧
    (crowdedUp.processes firstSlot).brk = crowdedHeap + 0x2000 ∧
      (crowdedUp.processes firstSlot).userHeapEnd = crowdedHeap + 0x2000 := by
  decide

theorem crowded_settled_up : Settled firstSlot crowded (.brk (crowdedHeap + 0x2000)) := by
  obtain ⟨_, _, hend, hcr3⟩ := crowded_heap
  intro _ _
  refine ⟨by decide, by decide, fun x hx _ => ?_⟩
  rw [hend] at hx
  rw [translate, hcr3, vmmTranslate, if_pos rfl]
  simp only [crowdedHeap] at hx
  omega

theorem crowdedUp_settled_down : Settled firstSlot crowdedUp (.sbrk (2 ^ 64 - 0x1000)) := by
  obtain ⟨hheap, hbrk, hend⟩ := crowdedUp_heap
  intro _
  rw [hheap, hbrk, hend]
  refine ⟨by decide, by decide, by decide, fun x hx hlt => ?_⟩
  simp only [crowdedHeap] at hx hlt
  omega

/-- The break goes up two pages, which the shared address space has, and down one. -/
theorem crowded_sound : AllSteps (HeapSound firstSlot) crowded (traceOf (fun s call => (HeapCall.exec s call).2) crowded
      [.brk (crowdedHeap + 0x2000), .sbrk (2 ^ 64 - 0x1000)]) := by
  refine heap_run sampleLayout .bare 0 [] .ring3 crowded_new
    (.cons ⟨?_, rfl⟩ (.cons ⟨?_, rfl⟩ (.nil _)))
    ⟨crowded_settled_up, crowdedUp_settled_down, trivial⟩
  · show crowdedHeap + 0x2000 < 2 ^ 64
    decide
  · show 2 ^ 64 - 0x1000 < 2 ^ 64
    decide

/-- `sbrk(-4096)` on the empty heap: the break falls below `user_heap`. -/
theorem crowded_sbrk_below : ¬ ∀ (L : Layout) (k : KState) (entry : Nat) (name : List UInt8) (ring : Ring) (c : Slot)
        (tr : List (HeapCall × KState)), (processCreate L k entry name ring).1 = (c.val : Int) →
          Trace Step (built L k entry name ring c) tr → AllSteps (HeapSound c) (built L k entry name ring c) tr := by
  intro hall
  have hword : (HeapCall.sbrk (2 ^ 64 - 0x1000)).IsWord := show 2 ^ 64 - 0x1000 < 2 ^ 64 by decide
  have htr : Trace Step crowded (traceOf (fun s call => (HeapCall.exec s call).2) crowded
      [.sbrk (2 ^ 64 - 0x1000)]) := .cons ⟨hword, rfl⟩ (.nil _)
  obtain ⟨hsound, _⟩ := hall sampleLayout .bare 0 [] .ring3 firstSlot _ crowded_new htr
  exact absurd hsound.start (by decide)

end UserHeap

end Chicago95.Kernel
