/-
# Chicago95.Kernel.AddressSpaces — what each process-manager call does to the address spaces.

A call creates an address space for the entry it fills, destroys the one of the process that exits, or
leaves all of them alone; it may load CR3 with the address space of the process it switches to. That
is the whole effect on pages of `process_create` and `process_fork` only where they map and clone
nothing (`MapsNothing`): then the typing of pages (`Owned`) survives every call.
-/
import Chicago95.Kernel.ProcessTable
import Chicago95.Kernel.Ownership
import Chicago95.Kernel.Clone

namespace Chicago95.Kernel

open Chicago95.Lib.Loop
open Function (update_of_ne update_eq_self update)

/-- The address space of each slot. -/
def KState.roots (k : KState) : Slot → Nat := fun i => (k.processes i).cr3

/-- CR3 stays, or is loaded with the address space of some slot. -/
def KState.Loads (k : KState) (reg : Nat) : Prop :=
  reg = k.cr3 ∨ ∃ i, k.roots i ≠ 0 ∧ k.roots i = reg

/-! ## The scheduler -/

@[simp] theorem setProcess_roots (k : KState) (i : Slot) (p : Process) :
    (k.setProcess i p).roots = update k.roots i p.cr3 := by
  funext j
  by_cases hj : j = i
  · subst hj
    simp [KState.roots]
  · simp [KState.roots, hj]

theorem processScheduler_roots (L : Layout) (k : KState) : (processScheduler L k).2.roots = k.roots := by
  funext i
  obtain ⟨_, _, _, h, _⟩ := processScheduler_entry L k i
  simp only [KState.roots, h]

theorem processScheduler_loads (L : Layout) (k : KState) : k.Loads (processScheduler L k).2.cr3 := by
  rcases processScheduler_cases L k with ⟨_, h⟩ | ⟨_, next, _, _, h⟩
  · rw [h]
    exact Or.inl rfl
  · obtain ⟨_, _, hw, _⟩ := woken_entry k next
    have hroot : (k.woken.processes next).cr3 = k.roots next := by rw [hw]; rfl
    rw [h, switchTo_cr3, hroot]
    by_cases hz : k.roots next = 0
    · rw [if_neg (by simp [hz])]
      exact Or.inl rfl
    · rw [if_pos hz]
      exact Or.inr ⟨next, hz, rfl⟩

theorem setProcess_roots_of_eq {k : KState} {i : Slot} {p : Process}
    (hp : p.cr3 = (k.processes i).cr3) : (k.setProcess i p).roots = k.roots := by
  rw [setProcess_roots, hp]
  exact update_eq_self i k.roots

/-! ## What a call does -/

/-- The process a call takes out of the system. -/
def Call.leavingSlot (k : KState) : Call → Option Slot
  | .exit _ => k.currentProcess.bind fun c => if (k.processes c).pid = 0 then none else some c
  | _ => none

theorem Call.exec_spaces_of_neither {L : Layout} {k : KState} {call : Call}
    (hf : call.filledSlot k = none) (hl : call.leavingSlot k = none) :
    (call.exec L k).2.vm = k.vm ∧ (call.exec L k).2.roots = k.roots ∧ k.Loads (call.exec L k).2.cr3 := by
  -- a call of the scheduler from a state with the same memory and address spaces
  have hsched : ∀ k₁ : KState, k₁.vm = k.vm → k₁.roots = k.roots → k₁.cr3 = k.cr3 →
      (processScheduler L k₁).2.vm = k.vm ∧ (processScheduler L k₁).2.roots = k.roots ∧
        k.Loads (processScheduler L k₁).2.cr3 := by
    intro k₁ hvm hroots hcr3
    have hload := processScheduler_loads L k₁
    rw [KState.Loads, hroots, hcr3] at hload
    exact ⟨(processScheduler_vm L k₁).trans hvm, (processScheduler_roots L k₁).trans hroots, hload⟩
  cases call with
  | create entry name ring =>
    rcases processCreate_cases L k entry name ring with ⟨_, hcr⟩ | ⟨pid, hpid, _⟩
    · simp only [exec, hcr]
      exact ⟨trivial, trivial, Or.inl rfl⟩
    · rw [filledSlot, hpid] at hf
      cases hf
  | fork =>
    rcases processFork_cases k with ⟨_, hfk⟩ | ⟨c, pid, hc, hpid, _⟩
    · simp only [exec, hfk]
      exact ⟨trivial, trivial, Or.inl rfl⟩
    · rw [filledSlot, hc, Option.bind_some, hpid] at hf
      cases hf
  | scheduler => exact hsched k rfl rfl rfl
  | yield => exact hsched k rfl rfl rfl
  | sleep ms =>
    rcases processSleep_cases L k ms with ⟨_, hs⟩ | ⟨c, _, hs⟩
    · simp only [exec, hs]
      exact ⟨trivial, trivial, Or.inl rfl⟩
    · simp only [exec, hs]
      exact hsched _ rfl (setProcess_roots_of_eq rfl) rfl
  | wake pid =>
    rcases processWake_cases k pid with hw | ⟨i, _, _, hw⟩
    · simp only [exec, hw]
      exact ⟨trivial, trivial, Or.inl rfl⟩
    · simp only [exec, hw]
      exact ⟨rfl, setProcess_roots_of_eq rfl, Or.inl rfl⟩
  | exit code =>
    rcases processExit_cases L k code with ⟨_, hx⟩ | ⟨c, hc, hpid, _⟩
    · simp only [exec, hx]
      exact ⟨trivial, trivial, Or.inl rfl⟩
    · simp [leavingSlot, hc, hpid] at hl
  | wait statusPtr =>
    rcases sysWaitPass_cases k statusPtr with ⟨c, i, _, _, _, hw⟩ | ⟨c, _, hw⟩ | hw
    · simp only [exec, hw]
      exact ⟨rfl, setProcess_roots_of_eq rfl, Or.inl rfl⟩
    · simp only [exec, hw]
      exact hsched k rfl rfl rfl
    · simp only [exec, hw]
      exact ⟨trivial, trivial, Or.inl rfl⟩
  | tick => exact ⟨rfl, rfl, Or.inl rfl⟩

theorem Call.exec_spaces_of_leaving {L : Layout} {k : KState} {call : Call} {c : Slot}
    (hl : call.leavingSlot k = some c) : (call.exec L k).2.vm =
        (if k.roots c = 0 then k.vm else vmmDestroyAddressSpace k.vm (k.roots c)) ∧
      (call.exec L k).2.roots = update k.roots c 0 ∧ ((call.exec L k).2.cr3 = k.cr3 ∨
        ∃ i, i ≠ c ∧ k.roots i ≠ 0 ∧ k.roots i = (call.exec L k).2.cr3) := by
  cases call with
  | exit code =>
    rcases processExit_cases L k code with ⟨hno, _⟩ | ⟨c', hc, hpid, hx⟩
    · rcases hno with hc | ⟨c', hc, hpid⟩
      · simp [leavingSlot, hc] at hl
      · simp [leavingSlot, hc, hpid] at hl
    · obtain rfl : c' = c := by simpa [leavingSlot, hc, hpid] using hl
      have hroots : (exiting k c' code).roots = update k.roots c' 0 :=
        setProcess_roots _ _ _
      simp only [exec, hx]
      refine ⟨processScheduler_vm .., (processScheduler_roots ..).trans hroots, ?_⟩
      rcases processScheduler_loads L (exiting k c' code) with heq | ⟨i, hi, heq⟩
      · exact Or.inl heq
      · rw [hroots] at hi heq
        have hic : i ≠ c' := by
          rintro rfl
          simp at hi
        rw [update_of_ne hic] at hi heq
        exact Or.inr ⟨i, hic, hi, heq⟩
  | _ => cases hl

/-! ## Calls that map nothing -/

/-- The call maps no page into a new address space and clones none: `process_create` fills no entry
or finds at most the page of the new PML4, and `process_fork` fills no entry, has a parent without an
address space or with nothing in its lower half, or finds at most one page. -/
def Call.MapsNothing (k : KState) : Call → Prop
  | .create _ _ _ => findUnused k.processes = none ∨ k.vm.pmm.pmmGetFreePages ≤ 1
  | .fork => ∀ c, k.currentProcess = some c → findUnused k.processes = none ∨ k.roots c = 0 ∨
      (∀ i, i < 256 → isPresent (k.vm.mem (k.roots c) i) = false) ∨
      k.vm.pmm.pmmGetFreePages ≤ 1
  | _ => True

theorem allocPage_eq_self {s : Vm} (h : ∀ t, ¬ s.pmm.Free t) : s.allocPage = (0, s) := by
  unfold Vm.allocPage
  rcases s.pmm.pmmAllocPage_cases with ⟨_, heq⟩ | ⟨i, hi, hb, _⟩
  · rw [heq]
  · exact absurd ⟨i, hi, hb, rfl⟩ (h (i * pageSize))

theorem mapFreshPages_of_none {s : Vm} (h : ∀ t, ¬ s.pmm.Free t) (cr3 flags base count : Nat) :
    mapFreshPages cr3 flags base count s = s := by
  cases count with
  | zero => rfl
  | succ n => simp only [mapFreshPages, allocPage_eq_self h, if_true]

theorem vmmCloneAddressSpace_of_none {s : Vm} (h : ∀ t, ¬ s.pmm.Free t) (dst src : Nat) :
    vmmCloneAddressSpace s dst src = s := by
  unfold vmmCloneAddressSpace
  split
  · rfl
  · refine forEach_eq_self fun i _ => ?_
    unfold clonePml4Entry
    split
    · rfl
    · simp only [cloneTable, allocPage_eq_self h, if_true]

theorem not_free_of_create {s s' : Vm} {reg p : Nat} (h0 : ¬ s.pmm.Free 0)
    (hscarce : s.pmm.freeCount ≤ 1) (hnew : vmmCreateAddressSpace s reg = (p, s')) (hp : p ≠ 0)
    (t : Nat) : ¬ s'.pmm.Free t := by
  rcases vmmCreateAddressSpace_cases s reg with ⟨_, heq⟩ | ⟨_, u, heq, hpmm, _⟩
  · rw [heq] at hnew
    exact absurd (congrArg Prod.fst hnew).symm hp
  · obtain ⟨_, rfl⟩ := Prod.mk.inj (heq.symm.trans hnew)
    rw [hpmm]
    rcases s.pmm.pmmAllocPage_freeCount h0 with ⟨hno, hzero⟩ | ⟨_, hcount, _⟩
    · rw [Vm.allocPage_pmm, hno]
      exact Pmm.not_free_of_freeCount hzero t
    · exact Pmm.not_free_of_freeCount (by rw [Vm.allocPage_pmm]; omega) t

theorem createAddressSpace_of_scarce {s : Vm} {reg : Nat} (h0 : ¬ s.pmm.Free 0)
    (hscarce : s.pmm.freeCount ≤ 1) (userStack userHeap : Nat) :
    createAddressSpace s reg userStack userHeap = vmmCreateAddressSpace s reg := by
  obtain ⟨p, s', hnew⟩ : ∃ p s', vmmCreateAddressSpace s reg = (p, s') := ⟨_, _, rfl⟩
  unfold createAddressSpace
  rw [hnew]
  rcases Nat.eq_zero_or_pos p with rfl | hp
  · rfl
  · have hp0 : p ≠ 0 := Nat.pos_iff_ne_zero.mp hp
    have hnone := not_free_of_create h0 hscarce hnew hp0
    simp only [if_neg hp0, mapFreshPages_of_none hnone]

theorem Call.exec_spaces_of_filled {L : Layout} {k : KState} {call : Call} {i : Slot}
    {roles : Nat → Option Role} (ho : Owned roles k.vm k.cr3 k.roots)
    (hacc : k.vm.pmm.Accounted) (hg : call.MapsNothing k) (hf : call.filledSlot k = some i) :
    ∃ p, ((p = 0 ∧ (call.exec L k).2.vm = k.vm) ∨
        (p ≠ 0 ∧ vmmCreateAddressSpace k.vm k.cr3 = (p, (call.exec L k).2.vm))) ∧
      (call.exec L k).2.roots = update k.roots i p ∧ (call.exec L k).2.cr3 = k.cr3 := by
  have hnull : ∀ {p : Nat} {vm : Vm}, vmmCreateAddressSpace k.vm k.cr3 = (p, vm) →
      (p = 0 ∧ vm = k.vm) ∨ (p ≠ 0 ∧ vmmCreateAddressSpace k.vm k.cr3 = (p, vm)) := by
    intro p vm hnew
    rcases vmmCreateAddressSpace_cases k.vm k.cr3 with ⟨hz, heq⟩ | ⟨hz, u, heq, _⟩
    · obtain ⟨rfl, rfl⟩ := Prod.mk.inj (heq.symm.trans hnew)
      refine Or.inl ⟨rfl, ?_⟩
      rcases k.vm.pmm.pmmAllocPage_freeCount ho.nullTaken with ⟨hno, _⟩ | ⟨hne, _⟩
      · unfold Vm.allocPage
        rw [hno]
      · exact absurd hz hne
    · obtain ⟨rfl, rfl⟩ := Prod.mk.inj (heq.symm.trans hnew)
      exact Or.inr ⟨hz, hnew⟩
  cases call with
  | create entry name ring =>
    rcases processCreate_cases L k entry name ring with ⟨hno, _⟩ | ⟨pid, hpid, hcr⟩
    · rw [filledSlot, hno] at hf
      cases hf
    · obtain rfl : pid = i := Option.some.inj (hpid.symm.trans hf)
      have hscarce : k.vm.pmm.freeCount ≤ 1 := by
        rcases hg with hno | hle
        · rw [hno] at hpid
          cases hpid
        · rwa [hacc.pmmGetFreePages] at hle
      simp only [exec, hcr, createAddressSpace_of_scarce ho.nullTaken hscarce]
      exact ⟨_, hnull rfl, setProcess_roots .., rfl⟩
  | fork =>
    rcases processFork_cases k with ⟨hno, _⟩ | ⟨c, pid, hc, hpid, hfk⟩
    · rw [filledSlot] at hf
      rcases hno with hno | hno <;> simp [hno] at hf
    · obtain rfl : pid = i := by simpa [filledSlot, hc, hpid] using hf
      simp only [exec, hfk]
      by_cases hroot : (k.processes c).cr3 = 0
      · simp only [forkAddressSpace, hroot, if_true]
        exact ⟨0, Or.inl ⟨rfl, rfl⟩, setProcess_roots .., rfl⟩
      · obtain ⟨p, vm, hnew⟩ : ∃ p vm, vmmCreateAddressSpace k.vm k.cr3 = (p, vm) := ⟨_, _, rfl⟩
        have hfork : forkAddressSpace k.vm k.cr3 (k.processes c).cr3 = (p, vm) := by
          unfold forkAddressSpace
          rw [if_neg hroot, hnew]
          rcases Nat.eq_zero_or_pos p with rfl | hp
          · rcases hnull hnew with ⟨_, rfl⟩ | ⟨hne, _⟩
            · rfl
            · exact absurd rfl hne
          · have hp0 : p ≠ 0 := Nat.pos_iff_ne_zero.mp hp
            simp only [if_neg hp0]
            -- nothing to clone, or no page to clone with
            have hclone : vmmCloneAddressSpace vm p (k.processes c).cr3 = vm := by
              rcases hg c hc with hno | hz | hempty | hle
              · rw [hno] at hpid
                cases hpid
              · exact absurd hz hroot
              · obtain ⟨_, hkept, _, hnone⟩ := ho.create (i := pid) hnew hp0
                have hne : (k.processes c).cr3 ≠ p := by
                  intro heq
                  have htop := ho.top c hroot
                  rw [KState.roots, heq, hnone] at htop
                  cases htop
                refine Cloning.vmmCloneAddressSpace_of_empty fun j hj => ?_
                rw [hkept _ hne]
                exact hempty j hj
              · rw [hacc.pmmGetFreePages] at hle
                exact vmmCloneAddressSpace_of_none
                  (not_free_of_create ho.nullTaken hle hnew hp0) p _
            rw [hclone]
        simp only [hfork]
        exact ⟨p, hnull hnew, setProcess_roots .., rfl⟩
  | _ => cases hf

/-! ## The typing of pages across a call -/

namespace Owned

variable {roles : Nat → Option Role} {s : Vm} {reg : Nat} {roots : Slot → Nat}

theorem load (ho : Owned roles s reg roots) {reg' : Nat}
    (hreg : reg' = reg ∨ ∃ i, roots i ≠ 0 ∧ roots i = reg') : Owned roles s reg' roots := by
  rcases hreg with rfl | ⟨i, hi, rfl⟩
  · exact ho
  · refine { ho with kernel := fun q hq => ho.kernel q ?_, register := ?_ }
    · rcases hq with rfl | hq
      · exact Or.inr ⟨i, hi, rfl⟩
      · exact Or.inr hq
    · exact Or.inr (Or.inr (ho.top i hi))

theorem forget (ho : Owned roles s reg roots) (i : Slot) : Owned roles s reg (update roots i 0) := by
  have hold : ∀ {j : Slot}, update roots i 0 j ≠ 0 →
      update roots i 0 j = roots j ∧ roots j ≠ 0 := by
    intro j hj
    by_cases hji : j = i
    · subst hji
      simp at hj
    · rw [update_of_ne hji] at hj ⊢
      exact ⟨rfl, hj⟩
  refine { ho with top := fun j hj => ?_, taken := fun j hj => ?_, inj := fun j l hj hjl => ?_,
                   kernel := fun q hq => ho.kernel q ?_ }
  · obtain ⟨heq, hj⟩ := hold hj
    rw [heq]
    exact ho.top j hj
  · obtain ⟨heq, hj⟩ := hold hj
    rw [heq]
    exact ho.taken j hj
  · obtain ⟨heq, hj'⟩ := hold hj
    obtain ⟨heq', _⟩ := hold (hjl ▸ hj)
    exact ho.inj j l hj' (heq.symm.trans (hjl.trans heq'))
  · rcases hq with rfl | ⟨j, hj, rfl⟩
    · exact Or.inl rfl
    · obtain ⟨heq, hj'⟩ := hold hj
      exact Or.inr ⟨j, hj', heq.symm⟩

end Owned

theorem Call.exec_owned {L : Layout} {k : KState} {call : Call} {roles : Nat → Option Role}
    (ho : Owned roles k.vm k.cr3 k.roots) (hacc : k.vm.pmm.Accounted) (hg : call.MapsNothing k) :
    (∃ roles', Owned roles' (call.exec L k).2.vm (call.exec L k).2.cr3 (call.exec L k).2.roots) ∧
      (call.exec L k).2.vm.pmm.Accounted := by
  rcases Option.eq_none_or_eq_some (call.filledSlot k) with hf | ⟨i, hf⟩
  · rcases Option.eq_none_or_eq_some (call.leavingSlot k) with hl | ⟨c, hl⟩
    · obtain ⟨hvm, hroots, hload⟩ := exec_spaces_of_neither (L := L) hf hl
      rw [hvm, hroots]
      exact ⟨⟨roles, ho.load hload⟩, hacc⟩
    · obtain ⟨hvm, hroots, hload⟩ := exec_spaces_of_leaving (L := L) hl
      rw [hvm, hroots]
      have hload' : (call.exec L k).2.cr3 = k.cr3 ∨
          ∃ i, update k.roots c 0 i ≠ 0 ∧
            update k.roots c 0 i = (call.exec L k).2.cr3 := by
        rcases hload with heq | ⟨i, hic, hi, heq⟩
        · exact Or.inl heq
        · refine Or.inr ⟨i, ?_⟩
          rw [update_of_ne hic]
          exact ⟨hi, heq⟩
      by_cases hc : k.roots c = 0
      · rw [if_pos hc]
        exact ⟨⟨roles, (ho.forget c).load hload'⟩, hacc⟩
      · rw [if_neg hc]
        exact ⟨⟨_, (ho.destroy hc).load hload'⟩, (ho.releases_destroy hc).1.accounted hacc⟩
  · obtain ⟨p, hp, hroots, hcr3⟩ := exec_spaces_of_filled (L := L) ho hacc hg hf
    rw [hroots, hcr3]
    rcases hp with ⟨rfl, hvm⟩ | ⟨hp, hnew⟩
    · rw [hvm]
      exact ⟨⟨roles, ho.forget i⟩, hacc⟩
    · refine ⟨⟨_, (ho.create hnew hp).1⟩, ?_⟩
      rcases vmmCreateAddressSpace_cases k.vm k.cr3 with ⟨_, heq⟩ | ⟨_, u, heq, hpmm, _⟩
      · exact absurd (congrArg Prod.fst (heq.symm.trans hnew)).symm hp
      · obtain ⟨_, hu⟩ := Prod.mk.inj (heq.symm.trans hnew)
        rw [← hu, hpmm]
        exact hacc.pmmAllocPage ho.nullTaken

end Chicago95.Kernel
