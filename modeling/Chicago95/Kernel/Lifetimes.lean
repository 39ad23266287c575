/-
# Chicago95.Kernel.Lifetimes — the pages of a process from its creation to its exit.

Frame ownership over process lifetimes has two halves: `process_exit` releases no page that another
process still maps or uses as a table, and once every process made since some starting point has
exited, as many pages are free as there were then. A run is watched by a ghost that remembers which
slots were filled since the start and not yet left (`fresh`), and how many pages came back from
processes that were there before it (`released`).
-/
import Chicago95.Lib.Transition
import Chicago95.Kernel.AddressSpaces

namespace Chicago95.Kernel

open Chicago95.Lib.Transition Chicago95.Lib.Loop Chicago95.Lib.Counting
open Function (update_of_ne update_self)

/-- The kernel with the ghost: `fresh i`, the process in slot `i` was made since the start and has not
exited; `released`, the pages given back by exits of older processes. -/
structure Lifetimes where
  kernel : KState
  fresh : Slot → Bool
  released : Nat

namespace Lifetimes

/-- `pmm_get_free_pages()` -/
def freePages (s : Lifetimes) : Nat := s.kernel.vm.pmm.pmmGetFreePages

/-- The run so far with one more call. -/
def next (L : Layout) (s : Lifetimes) (call : Call) : Lifetimes :=
  let k := (call.exec L s.kernel).2
  { kernel := k
    fresh := fun i =>
      if call.filledSlot s.kernel = some i then true
      else if call.leavingSlot s.kernel = some i then false
      else s.fresh i
    released := s.released +
      match call.leavingSlot s.kernel with
      | some c => if s.fresh c then 0 else k.vm.pmm.pmmGetFreePages - s.freePages
      | none => 0 }

/-- A starting point: nobody is fresh yet. -/
def start (k : KState) : Lifetimes := ⟨k, fun _ => false, 0⟩

/-- **Frame ownership** of one call. -/
structure FramesKept (atStart : Nat) (s : Lifetimes) (call : Call) (t : Lifetimes) : Prop where
  apart : ∀ f, ¬ s.kernel.vm.pmm.Free f → t.kernel.vm.pmm.Free f →
    ∀ i, call.leavingSlot s.kernel ≠ some i → s.kernel.roots i ≠ 0 →
      ¬ UsedBy s.kernel.vm.mem (s.kernel.roots i) f
  kernelHalf : ∀ f, ¬ s.kernel.vm.pmm.Free f → t.kernel.vm.pmm.Free f →
    ¬ PageIn s.kernel.vm.mem s.kernel.cr3 halfEntries 512 f
  balanced : (∀ i, t.fresh i = false) → t.freePages = atStart + t.released

/-! ## The invariant -/

/-- The slots of fresh processes with an address space. -/
def freshRoots (s : Lifetimes) : Nat :=
  (List.finRange 64).countP fun i => s.fresh i && decide (s.kernel.roots i ≠ 0)

/-- What a run keeps: pages typed and counted, fresh processes in their slots with nothing in their
lower halves, and one page out for each fresh address space. -/
structure Inv (atStart : Nat) (s : Lifetimes) : Prop where
  owned : ∃ roles, Owned roles s.kernel.vm s.kernel.cr3 s.kernel.roots
  accounted : s.kernel.vm.pmm.Accounted
  inSlot : ∀ i, s.fresh i = true → (s.kernel.processes i).Alive
  empty : ∀ i, s.fresh i = true → s.kernel.roots i ≠ 0 →
    ∀ j, j < 256 → isPresent (s.kernel.vm.mem (s.kernel.roots i) j) = false
  balance : s.freePages + freshRoots s = atStart + s.released

theorem inv_start {k : KState} {roles : Nat → Option Role} (ho : Owned roles k.vm k.cr3 k.roots)
    (hacc : k.vm.pmm.Accounted) : Inv k.vm.pmm.pmmGetFreePages (start k) where
  owned := ⟨roles, ho⟩
  accounted := hacc
  inSlot := fun _ h => nomatch h
  empty := fun _ h => nomatch h
  balance := by
    have hzero : freshRoots (start k) = 0 := List.countP_eq_zero.mpr fun i _ => by simp [start]
    rw [hzero]
    rfl

theorem exec_alive {L : Layout} {k : KState} {call : Call} {j : Slot}
    (hj : (k.processes j).Alive) (hl : call.leavingSlot k ≠ some j) :
    ((call.exec L k).2.processes j).Alive ∧ call.filledSlot k ≠ some j := by
  have hfj : call.filledSlot k ≠ some j := fun hf => hj.1 (Call.exec_of_filled (L := L) hf).1
  refine ⟨?_, hfj⟩
  -- the scheduler kills nobody
  have hsched : ∀ k₁ : KState, (k₁.processes j).Alive →
      ((processScheduler L k₁).2.processes j).Alive := by
    rintro k₁ ⟨hun, hz⟩
    obtain ⟨st, wt, rsp, heq, hun', hz'⟩ := processScheduler_entry L k₁ j
    rw [heq]
    exact ⟨fun h => hun (hun'.mp h), fun h => hz (hz'.mp h)⟩
  have hset : ∀ (i : Slot) (p : Process), (i = j → p.Alive) →
      ((k.setProcess i p).processes j).Alive := by
    intro i p hp
    by_cases hij : i = j
    · subst hij
      simpa using hp rfl
    · rw [KState.setProcess_processes_of_ne _ _ (Ne.symm hij)]
      exact hj
  rcases Option.eq_none_or_eq_some (call.filledSlot k) with hf | ⟨i, hf⟩
  · cases call with
    | create entry name ring =>
      rcases processCreate_cases L k entry name ring with ⟨_, hcr⟩ | ⟨pid, hpid, _⟩
      · simpa only [Call.exec, hcr] using hj
      · rw [Call.filledSlot, hpid] at hf
        cases hf
    | fork =>
      rcases processFork_cases k with ⟨_, hfk⟩ | ⟨c, pid, hc, hpid, _⟩
      · simpa only [Call.exec, hfk] using hj
      · rw [Call.filledSlot, hc, Option.bind_some, hpid] at hf
        cases hf
    | scheduler => exact hsched k hj
    | yield => exact hsched k hj
    | sleep ms =>
      rcases processSleep_cases L k ms with ⟨_, hs⟩ | ⟨c, _, hs⟩
      · simpa only [Call.exec, hs] using hj
      · simp only [Call.exec, hs]
        exact hsched _ (hset c _ fun _ => by simp [Process.Alive])
    | wake pid =>
      rcases processWake_cases k pid with hw | ⟨i, _, _, hw⟩
      · simpa only [Call.exec, hw] using hj
      · simp only [Call.exec, hw]
        exact hset i _ fun _ => by simp [Process.Alive]
    | exit code =>
      rcases processExit_cases L k code with ⟨_, hx⟩ | ⟨c, hc, hpid, hx⟩
      · simpa only [Call.exec, hx] using hj
      · have hcj : c ≠ j := fun heq => hl (by subst heq; simp [Call.leavingSlot, hc, hpid])
        simp only [Call.exec, hx]
        refine hsched _ ?_
        rw [exiting, KState.setProcess_processes_of_ne _ _ (Ne.symm hcj)]
        exact hj
    | wait statusPtr =>
      rcases sysWaitPass_cases k statusPtr with ⟨c, i, _, _, hz, hw⟩ | ⟨c, _, hw⟩ | hw
      · simp only [Call.exec, hw]
        exact hset i _ fun hij => absurd (hij ▸ hz) hj.2
      · simp only [Call.exec, hw]
        exact hsched k hj
      · simpa only [Call.exec, hw] using hj
    | tick => exact hj
  · obtain ⟨_, p, hprocs, _⟩ := Call.exec_of_filled (L := L) hf
    rw [hprocs, update_of_ne fun heq => hfj (by rw [hf, heq])]
    exact hj

theorem leavingSlot_of_filled {k : KState} {call : Call} {i : Slot}
    (hf : call.filledSlot k = some i) : call.leavingSlot k = none := by
  cases call <;> first | rfl | cases hf

theorem vmmDestroyAddressSpace_of_empty {s : Vm} {root : Nat} (hroot : root ≠ 0)
    (hempty : ∀ j, j < 256 → isPresent (s.mem root j) = false) : vmmDestroyAddressSpace s root = s.freePage root := by
  unfold vmmDestroyAddressSpace
  rw [if_neg hroot, forEach_eq_self fun i hi => by rw [hempty i hi]; rfl]

theorem freshRoots_single {s t : Lifetimes} (i : Slot) (hfresh : ∀ j, j ≠ i → t.fresh j = s.fresh j)
    (hroots : ∀ j, j ≠ i → t.kernel.roots j = s.kernel.roots j) :
    freshRoots t + (s.fresh i && decide (s.kernel.roots i ≠ 0)).toNat
      = freshRoots s + (t.fresh i && decide (t.kernel.roots i ≠ 0)).toNat :=
  countP_single (List.nodup_finRange 64) (List.mem_finRange i)
    (p := fun j => t.fresh j && decide (t.kernel.roots j ≠ 0))
    (q := fun j => s.fresh j && decide (s.kernel.roots j ≠ 0)) fun j hj => by
      rw [hfresh j hj, hroots j hj]

/-! ## One call -/

section

variable {L : Layout} {atStart : Nat} {s : Lifetimes} {call : Call}

theorem keep_step (h : Inv atStart s) (hf : call.filledSlot s.kernel = none) (hl : call.leavingSlot s.kernel = none) :
    (s.next L call).freePages + freshRoots (s.next L call) = atStart + (s.next L call).released ∧
    (∀ i, (s.next L call).fresh i = true → (s.next L call).kernel.roots i ≠ 0 → ∀ j, j < 256 →
      isPresent ((s.next L call).kernel.vm.mem ((s.next L call).kernel.roots i) j) = false) ∧
    ∀ f, ¬ s.kernel.vm.pmm.Free f → ¬ (s.next L call).kernel.vm.pmm.Free f := by
  obtain ⟨hvm, hroots, _⟩ := Call.exec_spaces_of_neither (L := L) hf hl
  have hfresh : (s.next L call).fresh = s.fresh := by
    funext i
    simp [next, hf, hl]
  have hkernel : (s.next L call).kernel = (call.exec L s.kernel).2 := rfl
  have hcount : freshRoots (s.next L call) = freshRoots s := by
    simp only [freshRoots, hfresh, hkernel, hroots]
  refine ⟨?_, fun i => ?_, fun f => ?_⟩
  · have hrel : (s.next L call).released = s.released := by simp [next, hl]
    rw [hcount, hrel, freePages, hkernel, hvm]
    exact h.balance
  · rw [hfresh, hkernel, hvm, hroots]
    exact h.empty i
  · rw [hkernel, hvm]
    exact id

theorem fill_step (h : Inv atStart s) (hg : call.MapsNothing s.kernel) {i : Slot}
    (hf : call.filledSlot s.kernel = some i) :
    (s.next L call).freePages + freshRoots (s.next L call) = atStart + (s.next L call).released ∧
    (∀ i, (s.next L call).fresh i = true → (s.next L call).kernel.roots i ≠ 0 → ∀ j, j < 256 →
      isPresent ((s.next L call).kernel.vm.mem ((s.next L call).kernel.roots i) j) = false) ∧
    ∀ f, ¬ s.kernel.vm.pmm.Free f → ¬ (s.next L call).kernel.vm.pmm.Free f := by
  obtain ⟨roles, ho⟩ := h.owned
  have hl := leavingSlot_of_filled hf
  obtain ⟨p, hp, hroots, _⟩ := Call.exec_spaces_of_filled (L := L) ho h.accounted hg hf
  have hkernel : (s.next L call).kernel = (call.exec L s.kernel).2 := rfl
  have hrel : (s.next L call).released = s.released := by simp [next, hl]
  have hself : (s.next L call).fresh i = true := by simp [next, hf]
  have hother : ∀ j, j ≠ i → (s.next L call).fresh j = s.fresh j := by
    intro j hj
    simp [next, hf, hl, Ne.symm hj]
  -- the slot was unused, so nobody fresh was in it
  have hold : s.fresh i = false := by
    rcases hb : s.fresh i with _ | _
    · rfl
    · exact absurd (Call.exec_of_filled (L := L) hf).1 (h.inSlot i hb).1
  have hcount := freshRoots_single (s := s) (t := s.next L call) i hother fun j hj => by
    rw [hkernel, hroots, update_of_ne hj]
  rw [hself, hold, hkernel, hroots, update_self] at hcount
  have hbal := h.balance
  rcases hp with ⟨rfl, hvm⟩ | ⟨hp, hnew⟩
  · have hcount' : freshRoots (s.next L call) = freshRoots s := by simpa using hcount
    refine ⟨?_, fun j hj hr => ?_, fun f => ?_⟩
    · rw [hcount', hrel, freePages, hkernel, hvm]
      exact hbal
    · rw [hkernel, hroots] at hr
      by_cases hji : j = i
      · subst hji
        simp at hr
      · rw [update_of_ne hji] at hr
        rw [hkernel, hroots, hvm, update_of_ne hji]
        exact h.empty j ((hother j hji) ▸ hj) hr
    · rw [hkernel, hvm]
      exact id
  · obtain ⟨howned, hkept, hlow, hnone⟩ := ho.create (i := i) hnew hp
    have hcount' : freshRoots (s.next L call) = freshRoots s + 1 := by simpa [hp] using hcount
    rcases vmmCreateAddressSpace_cases s.kernel.vm s.kernel.cr3 with ⟨_, heq⟩ | ⟨_, u, heq, hpmm, _⟩
    · exact absurd (congrArg Prod.fst (heq.symm.trans hnew)).symm hp
    · obtain ⟨hpa, hu⟩ := Prod.mk.inj (heq.symm.trans hnew)
      rw [hu] at hpmm
      refine ⟨?_, fun j hj hr => ?_, fun f hf' => ?_⟩
      · have hacc : (call.exec L s.kernel).2.vm.pmm.Accounted := by
          rw [hpmm]
          exact h.accounted.pmmAllocPage ho.nullTaken
        rw [hcount', hrel, freePages, hkernel, hacc.pmmGetFreePages, hpmm, Vm.allocPage_pmm]
        rw [freePages, h.accounted.pmmGetFreePages] at hbal
        rcases s.kernel.vm.pmm.pmmAllocPage_freeCount ho.nullTaken with ⟨hno, _⟩ | ⟨_, hcnt, _⟩
        · rw [Vm.allocPage_fst, hno] at hpa
          exact absurd hpa.symm hp
        · omega
      · rw [hkernel, hroots] at hr
        by_cases hji : j = i
        · subst hji
          rw [hkernel, hroots, update_self]
          intro l hl'
          rw [hlow l hl']
          rfl
        · rw [update_of_ne hji] at hr
          rw [hkernel, hroots, update_of_ne hji]
          have hne : s.kernel.roots j ≠ p := by
            intro heq'
            have htop := ho.top j hr
            rw [heq', hnone] at htop
            cases htop
          rw [hkept _ hne]
          exact h.empty j ((hother j hji) ▸ hj) hr
      · rw [hkernel, hpmm, Vm.allocPage_pmm, Pmm.free_pmmAllocPage_iff]
        exact fun hft => hf' hft.1

theorem leave_step (h : Inv atStart s) {c : Slot} (hl : call.leavingSlot s.kernel = some c) :
    (s.next L call).freePages + freshRoots (s.next L call) = atStart + (s.next L call).released ∧
    (∀ i, (s.next L call).fresh i = true → (s.next L call).kernel.roots i ≠ 0 → ∀ j, j < 256 →
      isPresent ((s.next L call).kernel.vm.mem ((s.next L call).kernel.roots i) j) = false) ∧
    ∀ roles, Owned roles s.kernel.vm s.kernel.cr3 s.kernel.roots →
      ∀ f, ¬ s.kernel.vm.pmm.Free f → (s.next L call).kernel.vm.pmm.Free f →
        Role.InSpace (s.kernel.roots c) (roles f) ∧ s.kernel.roots c ≠ 0 := by
  obtain ⟨roles, ho⟩ := h.owned
  obtain ⟨hvm, hroots, _⟩ := Call.exec_spaces_of_leaving (L := L) hl
  have hf : call.filledSlot s.kernel = none := by
    rcases Option.eq_none_or_eq_some (call.filledSlot s.kernel) with hf | ⟨i, hf⟩
    · exact hf
    · rw [leavingSlot_of_filled hf] at hl
      cases hl
  have hkernel : (s.next L call).kernel = (call.exec L s.kernel).2 := rfl
  have hself : (s.next L call).fresh c = false := by simp [next, hf, hl]
  have hother : ∀ j, j ≠ c → (s.next L call).fresh j = s.fresh j := by
    intro j hj
    simp [next, hf, hl, Ne.symm hj]
  have hrel : (s.next L call).released = s.released +
      if s.fresh c then 0 else (s.next L call).freePages - s.freePages := by
    simp [next, hl, freePages]
  have hcount := freshRoots_single (s := s) (t := s.next L call) c hother fun j hj => by
    rw [hkernel, hroots, update_of_ne hj]
  rw [hself, Bool.false_and, Bool.toNat_false] at hcount
  have hbal := h.balance
  have hmem : (call.exec L s.kernel).2.vm.mem = s.kernel.vm.mem := by
    rw [hvm]
    split
    · rfl
    · rename_i hc
      exact (ho.releases_destroy hc).1.mem_eq
  -- what came back, depending on whose pages they were
  have hgain : (s.next L call).freePages + freshRoots (s.next L call)
      = atStart + (s.next L call).released := by
    rw [hrel]
    by_cases hc : s.kernel.roots c = 0
    · have hsame : (s.next L call).freePages = s.freePages := by
        rw [freePages, hkernel, hvm, if_pos hc]
        rfl
      have hcount' : freshRoots (s.next L call) = freshRoots s := by simpa [hc] using hcount
      rw [hsame, hcount']
      split <;> omega
    · rcases hb : s.fresh c with _ | _
      · have hcount' : freshRoots (s.next L call) = freshRoots s := by simpa [hb] using hcount
        have hgrow : s.freePages ≤ (s.next L call).freePages := by
          have hdestroy := (ho.releases_destroy hc).1
          have hle := Pmm.freeCount_le hdestroy.total_eq hdestroy.free
          rw [freePages, freePages, hkernel, hvm, if_neg hc, h.accounted.pmmGetFreePages,
            (hdestroy.accounted h.accounted).pmmGetFreePages]
          exact hle
        rw [hcount', if_neg Bool.false_ne_true]
        omega
      · have hcount' : freshRoots (s.next L call) + 1 = freshRoots s := by
          simpa [hb, hc] using hcount
        have hone : (s.next L call).freePages = s.freePages + 1 := by
          have hacc := h.accounted.pmmFreePage (s.kernel.roots c)
          have hvm' : (call.exec L s.kernel).2.vm = s.kernel.vm.freePage (s.kernel.roots c) := by
            rw [hvm, if_neg hc, vmmDestroyAddressSpace_of_empty hc (h.empty c hb hc)]
          rw [freePages, hkernel, hvm', Vm.freePage_pmm, hacc.pmmGetFreePages, freePages,
            h.accounted.pmmGetFreePages, Pmm.freeCount_pmmFreePage (ho.taken c hc)]
        rw [if_pos rfl]
        omega
  refine ⟨hgain, fun j hj hr => ?_, fun roles' ho' f hf' ht => ?_⟩
  · by_cases hjc : j = c
    · subst hjc
      rw [hself] at hj
      cases hj
    · rw [hkernel, hroots, update_of_ne hjc] at hr ⊢
      rw [hmem]
      exact h.empty j ((hother j hjc) ▸ hj) hr
  · rw [hkernel, hvm] at ht
    by_cases hc : s.kernel.roots c = 0
    · rw [if_pos hc] at ht
      exact absurd ht hf'
    · rw [if_neg hc] at ht
      rcases (ho'.releases_destroy hc).1.freed f ht with hft | hin
      · exact absurd hft hf'
      · exact ⟨hin, hc⟩

theorem next_step (h : Inv atStart s) (hg : call.MapsNothing s.kernel) :
    Inv atStart (s.next L call) ∧ FramesKept atStart s call (s.next L call) := by
  obtain ⟨roles, ho⟩ := h.owned
  obtain ⟨howned, hacc⟩ := Call.exec_owned (L := L) ho h.accounted hg
  have halive : ∀ i, (s.next L call).fresh i = true →
      ((s.next L call).kernel.processes i).Alive := by
    intro i hi
    by_cases hf : call.filledSlot s.kernel = some i
    · obtain ⟨_, p, hprocs, _, _, hst, _⟩ := Call.exec_of_filled (L := L) hf
      show ((call.exec L s.kernel).2.processes i).Alive
      rw [hprocs, update_self]
      simp [Process.Alive, hst]
    · by_cases hl : call.leavingSlot s.kernel = some i
      · simp [next, hf, hl] at hi
      · have hold : s.fresh i = true := by simpa [next, hf, hl] using hi
        exact (exec_alive (L := L) (h.inSlot i hold) hl).1
  -- it remains to look at the three kinds of calls
  have hmain : ((s.next L call).freePages + freshRoots (s.next L call)
        = atStart + (s.next L call).released) ∧
      (∀ i, (s.next L call).fresh i = true → (s.next L call).kernel.roots i ≠ 0 → ∀ j, j < 256 →
        isPresent ((s.next L call).kernel.vm.mem ((s.next L call).kernel.roots i) j) = false) ∧
      ∀ f, ¬ s.kernel.vm.pmm.Free f → (s.next L call).kernel.vm.pmm.Free f →
        ∃ c, call.leavingSlot s.kernel = some c ∧
          Role.InSpace (s.kernel.roots c) (roles f) ∧ s.kernel.roots c ≠ 0 := by
    rcases Option.eq_none_or_eq_some (call.filledSlot s.kernel) with hf | ⟨i, hf⟩
    · rcases Option.eq_none_or_eq_some (call.leavingSlot s.kernel) with hl | ⟨c, hl⟩
      · obtain ⟨hbal, hempty, hfree⟩ := keep_step (L := L) h hf hl
        exact ⟨hbal, hempty, fun f hf' ht => absurd ht (hfree f hf')⟩
      · obtain ⟨hbal, hempty, hfree⟩ := leave_step (L := L) h hl
        exact ⟨hbal, hempty, fun f hf' ht => ⟨c, hl, hfree roles ho f hf' ht⟩⟩
    · obtain ⟨hbal, hempty, hfree⟩ := fill_step (L := L) h hg hf
      exact ⟨hbal, hempty, fun f hf' ht => absurd ht (hfree f hf')⟩
  obtain ⟨hbal, hempty, hfreed⟩ := hmain
  refine ⟨⟨howned, hacc, halive, hempty, hbal⟩, ⟨fun f hf' ht i hi hr hused => ?_,
    fun f hf' ht hk => ?_, fun hnone => ?_⟩⟩
  · obtain ⟨c, hl, ⟨h', p, j, hrole⟩, hc⟩ := hfreed f hf' ht
    rcases ho.usedBy hr hused with ⟨_, _, _, hrole'⟩ | hkern
    · rw [hrole] at hrole'
      have heq := (Role.node.inj (Option.some.inj hrole')).1
      exact hi (by rw [hl, ho.inj c i hc heq])
    · rw [hrole] at hkern
      cases hkern
  · obtain ⟨c, _, ⟨h', p, j, hrole⟩, _⟩ := hfreed f hf' ht
    have hkern := ho.kernel _ (Or.inl rfl) f hk
    rw [hrole] at hkern
    cases hkern
  · have hzero : freshRoots (s.next L call) = 0 :=
      List.countP_eq_zero.mpr fun i _ => by simp [hnone i]
    rw [hzero] at hbal
    exact hbal

end

/-- **Frame ownership over whole runs.** From any state with its pages typed and counted, in every run
whose creates map no page and whose forks clone none, no exit releases a page of another address
space, and the free pages are back at their starting value whenever every process made since has
exited. -/
theorem framesKept_run (L : Layout) {k : KState} {roles : Nat → Option Role}
    (ho : Owned roles k.vm k.cr3 k.roots) (hacc : k.vm.pmm.Accounted) (calls : List Call)
    (hg : Guarded (fun s call => call.MapsNothing s.kernel) (start k) (traceOf (next L) (start k) calls)) :
    AllSteps (FramesKept k.vm.pmm.pmmGetFreePages) (start k) (traceOf (next L) (start k) calls) := by
  refine (trace_traceOf (next L) (start k) calls).allSteps_of_guarded
    (I := Inv k.vm.pmm.pmmGetFreePages) ?_ (inv_start ho hacc) hg
  rintro s call _ hs rfl hmaps
  exact next_step hs hmaps

/-- The first process runs in the kernel's address space; page 0 is taken, the next `n` are free. -/
def smallMachine (n : Nat) : KState :=
  { KState.bare with
    vm := { mem := fun _ _ => 0
            pmm := { bitmap := fun i => decide (i = 0), totalPages := n + 1, usedPages := 1 } }
    processes := fun i => if i.val = 0 then { pid := 0, ppid := -1, state := .running } else {}
    currentProcess := some firstSlot }

theorem smallMachine_roots (n : Nat) (i : Slot) : (smallMachine n).roots i = 0 := by
  show (if i.val = 0 then _ else _ : Process).cr3 = 0
  split <;> rfl

theorem owned_smallMachine (n : Nat) :
    Owned (fun t => if t = 0 then some .kernel else none) (smallMachine n).vm (smallMachine n).cr3
      (smallMachine n).roots where
  nullTaken := by
    rintro ⟨i, _, hb, h0⟩
    have hi : i ≠ 0 := by simpa [smallMachine] using hb
    simp only [pageSize] at h0
    omega
  null r := by
    rintro ⟨_, _, _, h⟩
    cases h
  free t := by
    rintro ⟨i, _, hb, rfl⟩
    have hi : i ≠ 0 := by simpa [smallMachine] using hb
    rw [if_neg (by simp only [pageSize]; omega)]
  top i hi := absurd (smallMachine_roots n i) hi
  taken i hi := absurd (smallMachine_roots n i) hi
  inj i _ hi := absurd (smallMachine_roots n i) hi
  child t r h p i j ht := by split at ht <;> cases ht
  small t r h p i j ht := by split at ht <;> cases ht
  kernel q _ f hf := absurd hf (not_pageIn_of_empty fun _ _ _ => isPresent_zero)
  register := Or.inr (Or.inl rfl)

/-- With one page free, a process is created, run and exits. -/
theorem created_process_kept : AllSteps (FramesKept 1) (start (smallMachine 1))
      (traceOf (next sampleLayout) (start (smallMachine 1)) [.create 0x400000 [] .ring3, .yield, .exit 0]) :=
  framesKept_run sampleLayout (owned_smallMachine 1) (by decide) _
    ⟨Or.inr (by decide), trivial, trivial, trivial⟩

/-- With two pages free, the page mapped for its stack does not come back. -/
theorem created_stack_lost : ¬ ∀ (L : Layout) (k : KState) (roles : Nat → Option Role), Owned roles k.vm k.cr3 k.roots →
      k.vm.pmm.Accounted → ∀ calls : List Call, AllSteps (FramesKept k.vm.pmm.pmmGetFreePages) (start k)
          (traceOf (next L) (start k) calls) := by
  intro hall
  have h := AllSteps.traceOf_at [Call.create 0x400000 [] .ring3, .yield]
    (hall sampleLayout (smallMachine 2) _ (owned_smallMachine 2) (by decide)
      ([.create 0x400000 [] .ring3, .yield] ++ [.exit 0]))
  have hlost := h.balanced (by decide)
  exact absurd hlost (by decide +kernel)

/-- Both pages are free before. -/
example : (start (smallMachine 2)).freePages = 2 := by decide +kernel

end Lifetimes

end Chicago95.Kernel
