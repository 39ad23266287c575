/-
# Chicago95.Kernel.KernelHalf — who may change the kernel half of an address space.

Entries 256–511 of every PML4 are copies of the kernel's, so the tables below them are shared by all
processes. `process_create`, the memory system calls and `sys_exec` compute the addresses they map and unmap
from arguments, from file contents and from the address of a kernel stack, and none of them asks which half
an address lies in.
-/
import Chicago95.Kernel.Mapping
import Chicago95.Kernel.Exec

namespace Chicago95.Kernel

open Chicago95.Lib.Transition Chicago95.Lib.Bitmap

/-! ## Tables in use -/

/-- `f` is the PML4 or a table of an address space in use, or of the one CR3 holds. -/
def TableInUse (mem : PhysMem) (reg : Nat) (roots : Slot → Nat) (f : Nat) : Prop :=
  ∃ q, RootOf reg roots q ∧ (f = q ∨ ∃ h, TableIn mem q 0 512 h f)

/-- No kernel half is read off page `f`. -/
def OffHalf (mem : PhysMem) (reg : Nat) (roots : Slot → Nat) (f : Nat) : Prop :=
  ∀ q, RootOf reg roots q → f ≠ q ∧ ∀ h, ¬ TableIn mem q halfEntries 512 h f

/-- The loader may be told to fill page `a` of the address space at `root`: one of the lower half, or a page
of the kernel half that is no table, or one that is not mapped when there is no page to map. -/
def Loadable (s : Vm) (reg : Nat) (roots : Slot → Nat) (root a : Nat) : Prop :=
  pml4Idx a < halfEntries ∨ (vmmTranslate s.mem root a = 0 → ∀ t, ¬ s.pmm.Free t) ∧
    (vmmTranslate s.mem root a ≠ 0 → OffHalf s.mem reg roots (pageOf (vmmTranslate s.mem root a)))

theorem tableIn_mono {mem : PhysMem} {root lo hi lo' hi' h t : Nat} (hlo : lo' ≤ lo) (hhi : hi ≤ hi')
    (ht : TableIn mem root lo hi h t) : TableIn mem root lo' hi' h t := by
  induction ht with
  | pdpt hl hh hp => exact .pdpt (Nat.le_trans hlo hl) (Nat.lt_of_lt_of_le hh hhi) hp
  | next _ hj hp hh ih => exact .next ih hj hp hh

theorem offHalf_of_not_inUse {mem : PhysMem} {reg f : Nat} {roots : Slot → Nat}
    (hf : ¬ TableInUse mem reg roots f) : OffHalf mem reg roots f := fun q hq =>
  ⟨fun heq => hf ⟨q, hq, Or.inl heq⟩, fun h ht =>
    hf ⟨q, hq, Or.inr ⟨h, tableIn_mono (Nat.zero_le _) (Nat.le_refl _) ht⟩⟩⟩

theorem OffHalf.of_halfEq {mem mem' : PhysMem} {reg f : Nat} {roots : Slot → Nat}
    (hf : OffHalf mem reg roots f) (he : HalfEq (RootOf reg roots) mem mem') : OffHalf mem' reg roots f := fun q hq =>
  ⟨(hf q hq).1, fun h ht => (hf q hq).2 h (tableIn_of_congr (he q hq).1 (he q hq).2 ht)⟩

namespace Owned

variable {roles roles' : Nat → Option Role} {s s' : Vm} {reg r a f : Nat} {roots : Slot → Nat}

theorem offHalf (ho : Owned roles s reg roots) (hframe : IsFrame (roles f)) (hfree : ¬ s.pmm.Free f) :
    OffHalf s.mem reg roots f := by
  have hkernel : roles f ≠ some .kernel := fun hk => by
    rw [hk] at hframe
    cases hframe
  refine fun q hq => ⟨?_, fun h ht => hkernel (ho.kernel q hq f (Or.inl ⟨h, ht⟩))⟩
  rintro rfl
  rcases ho.role_of_root hq with hfree' | hk | htop
  · exact hfree hfree'
  · exact hkernel hk
  · rw [htop] at hframe
    cases hframe

theorem trim (ho : Owned roles s reg roots) : ∃ roles', Owned roles' s reg roots ∧
      ∀ f, ¬ TableInUse s.mem reg roots f → ∀ r h p i, roles' f ≠ some (.node r (h + 1) p i) := by
  classical
  -- a table of the tree at `r`, where `r` is a PML4 in use
  let Kept : Nat → Nat → Prop := fun r t => roles r = some (.top r) ∧ RootOf reg roots r ∧
    (t = r ∨ ∃ h, TableIn s.mem r 0 halfEntries h t)
  let Lost : Nat → Prop := fun t => ∃ r h p i, roles t = some (.node r (h + 1) p i) ∧ ¬ Kept r t
  let roles' : Nat → Option Role := fun t => if Lost t then none else roles t
  have hold : ∀ {t x}, roles' t = some x → roles t = some x ∧ ¬ Lost t := by
    intro t x ht
    by_cases hl : Lost t
    · simp [roles', hl] at ht
    · exact ⟨by simpa [roles', hl] using ht, hl⟩
  have hstay : ∀ {t x}, roles t = some x → (∀ r h p i, x = .node r (h + 1) p i → Kept r t) →
      roles' t = some x := by
    intro t x ht hkept
    have hl : ¬ Lost t := by
      rintro ⟨r, h, p, i, ht', hno⟩
      rw [ht] at ht'
      exact hno (hkept r h p i (Option.some.inj ht'))
    simp only [roles', if_neg hl, ht]
  have htop : ∀ q, RootOf reg roots q → roles q = some (.top q) → roles' q = some (.top q) := by
    intro q hq ht
    refine hstay ht fun r h p i hx => ?_
    obtain ⟨rfl, -⟩ : q = r ∧ 4 = h + 1 ∧ 0 = p ∧ 0 = i := by simpa [Role.top] using hx
    exact ⟨ht, hq, Or.inl rfl⟩
  have hkernel : ∀ {t}, roles t = some .kernel → roles' t = some .kernel := by
    intro t ht
    refine hstay ht fun r h p i hx => ?_
    cases hx
  have hkeep : ∀ {t r h p i}, roles' t = some (.node r (h + 1) p i) → Kept r t := by
    intro t r h p i ht
    obtain ⟨ht', hl⟩ := hold ht
    by_contra hno
    exact hl ⟨r, h, p, i, ht', hno⟩
  refine ⟨roles', { ho with null := ?_, free := fun t ht => ?_, top := fun i hi => ?_,
                            child := fun t r h p i j ht hj hpr => ?_,
                            small := fun t r h p i j ht hj hpr => ?_,
                            kernel := fun q hq f hf => ?_, register := ?_ }, fun f hf r h p i hrole => ?_⟩
  · rintro r ⟨h, p, i, h0⟩
    exact ho.null r ⟨h, p, i, (hold h0).1⟩
  · simp only [roles', ho.free t ht, ite_self]
  · exact htop _ (Or.inr ⟨i, hi, rfl⟩) (ho.top i hi)
  · -- the child of a table that is reached is reached
    have ht' := (hold ht).1
    refine hstay (ho.child t r h p i j ht' hj hpr) fun r' h' p' i' hx => ?_
    obtain ⟨rfl, rfl, -⟩ : r = r' ∧ h = h' + 1 ∧ t = p' ∧ j = i' := by simpa using hx
    obtain ⟨hr, hq, hreach⟩ := hkeep ht
    refine ⟨hr, hq, Or.inr ?_⟩
    rcases hreach with rfl | ⟨h₁, hin⟩
    · rw [hr] at ht'
      obtain ⟨-, hh, -⟩ : t = t ∧ 4 = h' + 1 + 1 ∧ 0 = p ∧ 0 = i := by simpa [Role.top] using ht'
      rw [← hh] at hj
      exact ⟨3, .pdpt (Nat.zero_le j) hj hpr⟩
    · obtain ⟨hle, p₁, i₁, ht₁⟩ := ho.table hr hin
      rw [ht'] at ht₁
      obtain ⟨-, rfl, -⟩ : r = r ∧ h' + 1 + 1 = h₁ ∧ p = p₁ ∧ i = i₁ := by simpa using ht₁
      rw [lowerEntries, if_neg (by omega)] at hj
      exact ⟨h' + 1, .next hin hj hpr (ho.small t r h' p i j ht' (by
        rw [lowerEntries, if_neg (by omega)]
        exact hj) hpr)⟩
  · exact ho.small t r h p i j (hold ht).1 hj hpr
  · exact hkernel (ho.kernel q hq f hf)
  · rcases ho.register with hreg | hk | hreg
    · exact Or.inl hreg
    · exact Or.inr (Or.inl (hkernel hk))
    · exact Or.inr (Or.inr (htop reg (Or.inl rfl) hreg))
  · obtain ⟨_, hq, hreach⟩ := hkeep hrole
    rcases hreach with heq | ⟨h₁, hin⟩
    · exact hf ⟨r, hq, Or.inl heq⟩
    · exact hf ⟨r, hq, Or.inr ⟨h₁, tableIn_mono (Nat.le_refl _) (by decide) hin⟩⟩

/-! ## The loader -/

theorem copySegment (ho : Owned roles s reg roots) (image : Nat → UInt8) (ph : Elf64Phdr) (page : Nat) {phys : Nat}
    (hnode : ∀ r h p i, roles (pageOf phys) ≠ some (.node r (h + 1) p i))
    (hoff : OffHalf s.mem reg roots (pageOf phys)) :
    Grown reg roots roles roles s (copySegment image ph page phys s) := by
  obtain ⟨hpmm, hmem⟩ := copySegment_writes ph image s page phys
  have hhalf : HalfEq (RootOf reg roots) s.mem (Kernel.copySegment image ph page phys s).mem := by
    refine fun q hq => ⟨fun i _ _ => ?_, fun h t ht => hmem t fun heq => ?_⟩
    · rw [hmem q (hoff q hq).1.symm]
    · exact (hoff q hq).2 h (heq ▸ ht)
  refine ⟨ho.write hpmm hmem hnode hhalf, fun _ _ => rfl, fun t ht => ?_, hhalf, fun hacc => ?_⟩
  · rwa [hpmm] at ht
  · rwa [hpmm]

theorem loadPage (ho : Owned roles s reg roots) (hreg : ¬ s.pmm.Free reg) {c : Slot} (hc : roots c ≠ 0)
    (ha : Loadable s reg roots (roots c) a) (image : Nat → UInt8) (ph : Elf64Phdr) :
    ∃ roles', Grown reg roots roles roles' s (loadPage (roots c) image ph a s).2 := by
  have htop := ho.top c hc
  unfold Kernel.loadPage
  dsimp only
  by_cases hz : vmmTranslate s.mem (roots c) a = 0
  · rw [if_pos hz, Vm.allocPage_fst]
    by_cases hpage : s.pmm.pmmAllocPage.1 = 0
    · rw [if_pos hpage, ho.allocPage_null hpage]
      exact ⟨roles, .refl ho⟩
    rw [if_neg hpage]
    dsimp only
    have hfree := Pmm.free_of_pmmAllocPage hpage
    rcases Nat.lt_or_ge (pml4Idx a) halfEntries with hlow | hhigh
    · -- a fresh page; nothing else is on it
      obtain ⟨roles₁, hg₁, hframe, hnotfree⟩ := ho.map hreg htop hlow hpage (pml4Rw ||| pml4User)
      have hpg := pageOf_of_dvd hfree.dvd
      refine ⟨roles₁, hg₁.trans (hg₁.owned.copySegment image ph a ?_ ?_)⟩
      · rw [hpg]
        exact hframe.not_table
      · rw [hpg]
        exact hg₁.owned.offHalf hframe hnotfree
    · exact absurd hfree ((ha.resolve_left (Nat.not_lt.mpr hhigh)).1 hz _)
  · rw [if_neg hz]
    dsimp only
    refine ⟨roles, ?_⟩
    rcases Nat.lt_or_ge (pml4Idx a) halfEntries with hlow | hhigh
    · rw [vmmTranslate, if_neg hc] at hz ⊢
      obtain ⟨_, _, _, _, _, _, _, hpg, _, hleaf⟩ := ho.walk htop hlow hz
      have hframe : IsFrame (roles (pageOf (pageWalk s.mem (roots c) a))) := by
        rw [hpg, hleaf]
        exact .node _ _ _
      refine ho.copySegment image ph a hframe.not_table (ho.offHalf hframe ?_)
      rw [hpg]
      exact ho.not_free hleaf
    · refine ho.copySegment image ph a (fun r h p i hrole => ?_) ((ha.resolve_left (Nat.not_lt.mpr hhigh)).2 hz)
      rw [vmmTranslate, if_neg hc] at hz hrole
      have hk := ho.kernel (roots c) (Or.inr ⟨c, hc, rfl⟩) _
        (Or.inr ⟨a, hhigh, pml4Idx_lt a, hz, rfl⟩)
      rw [hk] at hrole
      cases hrole

theorem loadable {c : Slot} (hc : roots c ≠ 0) {b : Nat} (hg : Grown reg roots roles roles' s s')
    (hb : Loadable s reg roots (roots c) b) : Loadable s' reg roots (roots c) b := by
  rcases Nat.lt_or_ge (pml4Idx b) halfEntries with hlow | hhigh
  · exact Or.inl hlow
  obtain ⟨hnone, hoff⟩ := hb.resolve_left (Nat.not_lt.mpr hhigh)
  have hsame : vmmTranslate s'.mem (roots c) b = vmmTranslate s.mem (roots c) b := by
    rw [vmmTranslate, vmmTranslate, if_neg hc, if_neg hc]
    exact hg.half.pageWalk (Or.inr ⟨c, hc, rfl⟩) hhigh
  unfold Loadable
  rw [hsame]
  exact Or.inr ⟨fun hz t => hg.not_free (hnone hz t), fun hz => (hoff hz).of_halfEq hg.half⟩

theorem loadPages (hreg : ¬ s.pmm.Free reg) {c : Slot} (hc : roots c ≠ 0) (image : Nat → UInt8)
    {l : List (Elf64Phdr × Nat)} (ho : Owned roles s reg roots) (hl : ∀ x ∈ l, Loadable s reg roots (roots c) x.2) :
    ∃ roles', Grown reg roots roles roles' s (loadPages (roots c) image l s).2 := by
  induction l generalizing s roles with
  | nil => exact ⟨roles, .refl ho⟩
  | cons x rest ih =>
    obtain ⟨roles₁, hg₁⟩ := ho.loadPage hreg hc (hl x List.mem_cons_self) image x.1
    rw [Kernel.loadPages]
    generalize Kernel.loadPage (roots c) image x.1 x.2 s = pass at hg₁ ⊢
    obtain ⟨_ | _, s₁⟩ := pass
    · exact ⟨roles₁, hg₁⟩
    · obtain ⟨roles₂, hg₂⟩ := ih (hg₁.not_free hreg) hg₁.owned fun y hy =>
        loadable hc hg₁ (hl y (List.mem_cons_of_mem x hy))
      exact ⟨roles₂, hg₁.trans hg₂⟩

theorem loadPages_zero (hreg : ¬ s.pmm.Free reg) (image : Nat → UInt8) {l : List (Elf64Phdr × Nat)}
    (ho : Owned roles s reg roots)
    (hl : ∀ x ∈ l, x.2 ≠ 0 → (∀ r h p i, roles (pageOf x.2) ≠ some (.node r (h + 1) p i)) ∧
      OffHalf s.mem reg roots (pageOf x.2)) : Grown reg roots roles roles s (Kernel.loadPages 0 image l s).2 := by
  induction l generalizing s with
  | nil => exact .refl ho
  | cons x rest ih =>
    have hpass : Grown reg roots roles roles s (Kernel.loadPage 0 image x.1 x.2 s).2 := by
      unfold Kernel.loadPage
      rw [vmmTranslate, if_pos rfl]
      dsimp only
      by_cases hz : x.2 = 0
      · rw [if_pos hz, Vm.allocPage_fst]
        by_cases hpage : s.pmm.pmmAllocPage.1 = 0
        · rw [if_pos hpage, ho.allocPage_null hpage]
          exact .refl ho
        obtain ⟨hg, hnone, hnotfree, hdvd⟩ := ho.fresh hreg hpage
        have hframe : IsFrame (roles (pageOf s.pmm.pmmAllocPage.1)) := by
          rw [pageOf_of_dvd hdvd, hnone]
          exact .none
        rw [if_neg hpage]
        dsimp only
        rw [vmmMapPage, if_pos rfl]
        refine hg.trans (hg.owned.copySegment image x.1 x.2 hframe.not_table (hg.owned.offHalf hframe ?_))
        rwa [pageOf_of_dvd hdvd]
      · rw [if_neg hz]
        dsimp only
        obtain ⟨hnode, hoff⟩ := hl x List.mem_cons_self hz
        exact ho.copySegment image x.1 x.2 hnode hoff
    rw [Kernel.loadPages]
    generalize Kernel.loadPage 0 image x.1 x.2 s = pass at hpass ⊢
    obtain ⟨_ | _, s₁⟩ := pass
    · exact hpass
    · refine hpass.trans (ih (hpass.not_free hreg) hpass.owned fun y hy hz => ?_)
      obtain ⟨hnode, hoff⟩ := hl y (List.mem_cons_of_mem x hy) hz
      exact ⟨hnode, hoff.of_halfEq hpass.half⟩

theorem kmallocPages (ho : Owned roles s reg roots) (hreg : ¬ s.pmm.Free reg) (fits : Bool) (n : Nat) :
    Grown reg roots roles roles s { s with pmm := (kmallocPages fits n s.pmm).2 } := by
  have hsame : Grown reg roots roles roles s { s with pmm := s.pmm } := .refl ho
  unfold Kernel.kmallocPages
  split
  · exact hsame
  split
  · exact hsame
  · obtain ⟨hfree, hused, hacc⟩ := s.pmm.pmmAllocPages_takes (KHeap.pagesFor (KHeap.alignUp n))
    exact ⟨ho.take hfree hused hreg, fun _ _ => rfl, hfree, .refl _ _, hacc⟩

end Owned

/-! ## The calls -/

/-- The calls that touch address spaces, and the rest of the process manager. -/
inductive SpaceCall where
  /-- `process_create` of a `RING3` process. -/
  | create (entry : Nat) (name : List UInt8)
  | brk (addr : Nat)
  | sbrk (increment : Nat)
  | mmap (addr length : Nat)
  | munmap (addr length : Nat)
  | exec (file : Option ExecFile) (fits : Bool)
  | other (call : Call)

namespace SpaceCall

/-- The state after a call. -/
def next (L : Layout) (k : KState) : SpaceCall → KState
  | .create entry name => (processCreate L k entry name .ring3).2
  | .brk addr => (sysBrk k addr).2
  | .sbrk increment => (sysSbrk k increment).2
  | .mmap addr length => (sysMmap k addr length).2
  | .munmap addr length => (sysMunmap k addr length).2
  | .exec file fits => (sysExec k file fits).2
  | .other call => (call.exec L k).2

/-- Where `sys_mmap` maps. -/
def mmapStart (p : Process) (addr : Nat) : Nat :=
  if addr = 0 then (p.userHeapEnd + 0x100000) % 2 ^ 64 else addr

/-- The addresses a memory system call of process `p` goes through to map them. -/
def maps (p : Process) : SpaceCall → List Nat
  | .brk addr =>
    if p.userHeap ≤ addr ∧ addr - p.userHeap ≤ brkLimit ∧ p.userHeapEnd < addr then
      pagesFrom p.userHeapEnd (pageUp addr)
    else []
  | .sbrk increment =>
    if increment = 0 then []
    else pagesFrom (pageUp p.brk) (pageUp ((p.brk + increment) % 2 ^ 64))
  | .mmap addr length =>
    if p.cr3 = 0 ∨ length = 0 then []
    else pagesFrom (mmapStart p addr) ((mmapStart p addr + pageUp length) % 2 ^ 64)
  | _ => []

/-- The addresses it goes through to unmap them, after that. -/
def unmaps (s : Vm) (p : Process) : SpaceCall → List Nat
  | .mmap addr length =>
    match (mapZeroed p.cr3 userPage (maps p (.mmap addr length)) s).1 with
    | [] => []
    | a :: _ => pagesFrom (mmapStart p addr) a
  | .munmap addr length =>
    if p.cr3 = 0 then [] else pagesFrom addr ((addr + pageUp length) % 2 ^ 64)
  | _ => []

/-- The pages a call hands to `pmm_free_page`. -/
def freed (k : KState) (call : SpaceCall) : List Nat :=
  match k.currentProcess with
  | none => []
  | some c =>
    unmapFreed (k.roots c) (call.unmaps k.vm (k.processes c))
      (mapZeroed (k.roots c) userPage (call.maps (k.processes c)) k.vm).2

/-- One of the four memory system calls. -/
def IsMemory : SpaceCall → Prop
  | .brk _ | .sbrk _ | .mmap _ _ | .munmap _ _ => True
  | _ => False

end SpaceCall

/-! ## What is promised, and when -/

/-- **Kernel-half protection** of one call. -/
structure HalfKept (k t : KState) (freed : List Nat) : Prop where
  walk : ∀ q, k.Loads q → ∀ v, halfEntries ≤ pml4Idx v →
    pageWalk t.vm.mem q v = pageWalk k.vm.mem q v
  freed : ∀ f ∈ freed, ∀ q, k.Loads q → ¬ Mapped k.vm.mem q halfEntries 512 f

/-- The promise is made for the calls the kernel offers, not for the rest of the process manager. -/
def HalfSound (k : KState) (call : SpaceCall) (t : KState) : Prop :=
  (∀ c, call ≠ .other c) → HalfKept k t (call.freed k)

/-- **The condition of each call.** Creation has no page beyond the new PML4. -/
def Confined (k : KState) : SpaceCall → Prop
  | .create _ _ =>
    findUnused k.processes = none ∨ k.vm.pmm.pmmGetFreePages ≤ 1 ∧ ¬ k.vm.pmm.Free k.cr3
  | .munmap addr length => ∀ c, k.currentProcess = some c →
      ∀ a ∈ (SpaceCall.munmap addr length).unmaps k.vm (k.processes c),
        pml4Idx a < halfEntries ∨ vmmTranslate k.vm.mem (k.roots c) a = 0
  | .exec file _ => ∀ c f, k.currentProcess = some c → (k.processes c).pid ≠ 0 → file = some f →
      f.Accepted → ¬ k.vm.pmm.Free k.cr3 ∧ ∀ x ∈ f.passes,
        if k.roots c = 0 then x.2 ≠ 0 → ¬ TableInUse k.vm.mem k.cr3 k.roots (pageOf x.2)
        else Loadable k.vm k.cr3 k.roots (k.roots c) x.2
  | .other call => call.MapsNothing k
  | call => ∀ c, k.currentProcess = some c →
      call.maps (k.processes c) = [] ∨ (∀ t, ¬ k.vm.pmm.Free t) ∨ ¬ k.vm.pmm.Free k.cr3 ∧
        (k.roots c = 0 ∨ ∀ a ∈ call.maps (k.processes c), pml4Idx a < halfEntries)

/-! ## The memory system calls -/

section

variable {L : Layout} {k : KState} {roles : Nat → Option Role} {call : SpaceCall} {c : Slot}

theorem next_of_memory (hm : call.IsMemory) (hc : k.currentProcess = some c) :
    (call.next L k).vm = unmapPages (k.roots c) (call.unmaps k.vm (k.processes c))
        (mapZeroed (k.roots c) userPage (call.maps (k.processes c)) k.vm).2 ∧
      (call.next L k).roots = k.roots ∧ (call.next L k).cr3 = k.cr3 := by
  cases call with
  | brk addr =>
    simp only [SpaceCall.next, sysBrk, hc, SpaceCall.maps, SpaceCall.unmaps, unmapPages]
    by_cases hzero : addr = 0
    · rw [if_pos hzero, if_neg (by omega)]
      exact ⟨rfl, rfl, rfl⟩
    rw [if_neg hzero]
    by_cases hlow : addr < (k.processes c).userHeap
    · rw [if_pos hlow, if_neg (by omega)]
      exact ⟨rfl, rfl, rfl⟩
    rw [if_neg hlow]
    by_cases hlimit : brkLimit < addr - (k.processes c).userHeap
    · rw [if_pos hlimit, if_neg (by omega)]
      exact ⟨rfl, rfl, rfl⟩
    rw [if_neg hlimit]
    by_cases hgrow : (k.processes c).userHeapEnd < addr
    · rw [if_pos hgrow, if_pos (by omega)]
      exact ⟨rfl, setProcess_roots_of_eq rfl, rfl⟩
    · rw [if_neg hgrow, if_neg (by omega)]
      exact ⟨rfl, setProcess_roots_of_eq rfl, rfl⟩
  | sbrk n =>
    simp only [SpaceCall.next, sysSbrk, hc, SpaceCall.maps, SpaceCall.unmaps, unmapPages]
    by_cases hzero : n = 0
    · rw [if_pos hzero, if_pos hzero]
      exact ⟨rfl, rfl, rfl⟩
    rw [if_neg hzero, if_neg hzero]
    show _ = (mapZeroed (k.processes c).cr3 _ _ _).2 ∧ _
    generalize mapZeroed (k.processes c).cr3 userPage _ k.vm = mapped
    obtain ⟨_ | ⟨a, rest⟩, vm⟩ := mapped
    · exact ⟨rfl, setProcess_roots_of_eq rfl, rfl⟩
    · exact ⟨rfl, rfl, rfl⟩
  | mmap addr length =>
    simp only [SpaceCall.next, sysMmap, hc, SpaceCall.maps, SpaceCall.unmaps, SpaceCall.mmapStart, pageUp]
    show _ = unmapPages (k.processes c).cr3 _ (mapZeroed (k.processes c).cr3 _ _ _).2 ∧ _
    by_cases hroot : (k.processes c).cr3 = 0
    · rw [if_pos hroot, if_pos (Or.inl hroot)]
      exact ⟨rfl, rfl, rfl⟩
    by_cases hlen : length = 0
    · rw [if_neg hroot, if_pos hlen, if_pos (Or.inr hlen)]
      exact ⟨rfl, rfl, rfl⟩
    rw [if_neg hroot, if_neg hlen, if_neg (not_or.mpr ⟨hroot, hlen⟩)]
    generalize mapZeroed (k.processes c).cr3 userPage _ k.vm = mapped
    obtain ⟨_ | ⟨a, rest⟩, vm⟩ := mapped
    · exact ⟨rfl, rfl, rfl⟩
    · exact ⟨rfl, rfl, rfl⟩
  | munmap addr length =>
    simp only [SpaceCall.next, sysMunmap, hc, SpaceCall.maps, SpaceCall.unmaps, mapZeroed]
    show _ = unmapPages (k.processes c).cr3 _ _ ∧ _
    by_cases hroot : (k.processes c).cr3 = 0
    · rw [if_pos hroot, if_pos hroot]
      exact ⟨rfl, rfl, rfl⟩
    · rw [if_neg hroot, if_neg hroot]
      exact ⟨rfl, rfl, rfl⟩
  | _ => exact hm.elim

theorem mapZeroed_suffix (cr3 flags : Nat) (l : List Nat) (s : Vm) : (mapZeroed cr3 flags l s).1 <:+ l := by
  induction l generalizing s with
  | nil => exact List.suffix_refl _
  | cons a rest ih =>
    rw [mapZeroed]
    dsimp only
    split
    · exact List.suffix_refl _
    · exact (ih _).trans (List.suffix_cons a rest)

theorem mem_pagesFrom {start stop x : Nat} : x ∈ pagesFrom start stop ↔
    ∃ i, i < (stop - start + 0xFFF) / pageSize ∧ start + i * pageSize = x := by
  simp [pagesFrom]

theorem pagesFrom_subset {start stop a : Nat} (ha : a ∈ pagesFrom start stop) :
    pagesFrom start a ⊆ pagesFrom start stop := by
  obtain ⟨n, hn, rfl⟩ := mem_pagesFrom.mp ha
  intro x hx
  obtain ⟨i, hi, rfl⟩ := mem_pagesFrom.mp hx
  refine mem_pagesFrom.mpr ⟨i, ?_, rfl⟩
  simp only [pageSize] at hi hn ⊢
  omega

theorem pagesFrom_head {start stop a : Nat} {l : List Nat} (h : pagesFrom start stop = a :: l) : a = start := by
  unfold pagesFrom at h
  generalize (stop - start + 0xFFF) / pageSize = n at h
  cases n with
  | zero => cases h
  | succ n =>
    rw [List.range_succ_eq_map, List.map_cons, Nat.zero_mul, Nat.add_zero] at h
    exact (List.cons.inj h).1.symm

theorem unmaps_mmap {s : Vm} {p : Process} {addr length x : Nat} (hx : x ∈ (SpaceCall.mmap addr length).unmaps s p) :
    x ∈ (SpaceCall.mmap addr length).maps p ∧ s.pmm.pmmAllocPage.1 ≠ 0 := by
  have hsuffix := mapZeroed_suffix p.cr3 userPage ((SpaceCall.mmap addr length).maps p) s
  have hnull := fun h => (mapZeroed_of_null (s := s) h p.cr3 userPage
    ((SpaceCall.mmap addr length).maps p)).1
  rw [SpaceCall.unmaps] at hx
  rw [SpaceCall.maps] at hx hsuffix hnull ⊢
  by_cases hcond : p.cr3 = 0 ∨ length = 0
  · rw [if_pos hcond] at hx
    exact nomatch hx
  rw [if_neg hcond] at hx hsuffix hnull ⊢
  generalize (mapZeroed p.cr3 userPage _ s).1 = left at hx hsuffix hnull
  cases left with
  | nil => exact nomatch hx
  | cons a rest =>
    refine ⟨pagesFrom_subset (hsuffix.subset List.mem_cons_self) hx, fun hz => ?_⟩
    dsimp only at hx
    rw [pagesFrom_head (hnull hz).symm, pagesFrom_of_le (Nat.le_refl _)] at hx
    exact nomatch hx

theorem kept_of_memory (ho : Owned roles k.vm k.cr3 k.roots) (hm : call.IsMemory)
    (hg : Confined k call) (hc : k.currentProcess = some c) : Kept k.cr3 k.roots k.vm (call.next L k).vm ∧
      ∀ f ∈ call.freed k, ∀ q, k.Loads q → ¬ Mapped k.vm.mem q halfEntries 512 f := by
  obtain ⟨hvm, _, _⟩ := next_of_memory (L := L) hm hc
  -- first the mapping
  obtain ⟨roles₁, hg₁⟩ : ∃ roles₁, Grown k.cr3 k.roots roles roles₁ k.vm
      (mapZeroed (k.roots c) userPage (call.maps (k.processes c)) k.vm).2 := by
    have hmaps : call.maps (k.processes c) = [] ∨ (∀ t, ¬ k.vm.pmm.Free t) ∨
        ¬ k.vm.pmm.Free k.cr3 ∧
          (k.roots c = 0 ∨ ∀ a ∈ call.maps (k.processes c), pml4Idx a < halfEntries) := by
      cases call with
      | munmap addr length => exact Or.inl rfl
      | brk _ => exact hg c hc
      | sbrk _ => exact hg c hc
      | mmap _ _ => exact hg c hc
      | _ => exact hm.elim
    rcases hmaps with hnil | hnone | ⟨hreg, hlow⟩
    · rw [hnil]
      exact ⟨roles, .refl ho⟩
    · cases call.maps (k.processes c) with
      | nil => exact ⟨roles, .refl ho⟩
      | cons a rest =>
        have hzero : k.vm.allocPage = (0, k.vm) := allocPage_eq_self hnone
        rw [mapZeroed, hzero]
        exact ⟨roles, .refl ho⟩
    · refine ho.mapZeroed hreg userPage ?_
      rcases Nat.eq_zero_or_pos (k.roots c) with hz | hpos
      · exact Or.inl hz
      · have hne := Nat.pos_iff_ne_zero.mp hpos
        exact Or.inr ⟨ho.top c hne, hlow.resolve_left hne⟩
  -- then the unmapping
  have hunmaps : call.unmaps k.vm (k.processes c) = [] ∨ k.roots c ≠ 0 ∧
      ∀ a ∈ call.unmaps k.vm (k.processes c), pml4Idx a < halfEntries ∨
        vmmTranslate k.vm.mem (k.roots c) a = 0 := by
    cases call with
    | munmap addr length =>
      by_cases hz : k.roots c = 0
      · exact Or.inl (if_pos hz)
      · exact Or.inr ⟨hz, hg c hc⟩
    | mmap addr length =>
      by_cases hz : k.roots c = 0
      · refine Or.inl ?_
        have hmaps : (SpaceCall.mmap addr length).maps (k.processes c) = [] := if_pos (Or.inl hz)
        rw [SpaceCall.unmaps, hmaps]
        rfl
      · refine Or.inr ⟨hz, fun a ha => Or.inl ?_⟩
        obtain ⟨hmem, hpage⟩ := unmaps_mmap ha
        rcases hg c hc with hnil | hnone | ⟨_, hroot | hlow⟩
        · rw [hnil] at hmem
          cases hmem
        · exact absurd (Pmm.free_of_pmmAllocPage hpage) (hnone _)
        · exact absurd hroot hz
        · exact hlow a hmem
    | brk _ => exact Or.inl rfl
    | sbrk _ => exact Or.inl rfl
    | _ => exact hm.elim
  rw [hvm, SpaceCall.freed, hc]
  dsimp only
  rcases hunmaps with hnil | ⟨hne, hlow⟩
  · rw [hnil]
    refine ⟨hg₁.kept, fun f hf => ?_⟩
    cases hf
  · obtain ⟨hkept, hfreed⟩ := hg₁.owned.unmapPages hne fun a ha => by
      rcases Nat.lt_or_ge (pml4Idx a) halfEntries with hlt | hge
      · exact Or.inl hlt
      · refine Or.inr ?_
        have hzero := (hlow a ha).resolve_left (Nat.not_lt.mpr hge)
        rw [vmmTranslate, if_neg hne] at hzero ⊢
        rw [hg₁.half.pageWalk (Or.inr ⟨c, hne, rfl⟩) hge]
        exact hzero
    exact ⟨hg₁.kept.trans hkept, fun f hf q hq hmapped => hfreed f hf q hq (hg₁.half.mapped hq hmapped)⟩

/-! ## The other two -/

theorem sysExec_cases (k : KState) (file : Option ExecFile) (fits : Bool) :
    (sysExec k file fits).2.roots = k.roots ∧ (sysExec k file fits).2.cr3 = k.cr3 ∧
      ((sysExec k file fits).2.vm = k.vm ∨
        ∃ c f, k.currentProcess = some c ∧ (k.processes c).pid ≠ 0 ∧ file = some f ∧ f.Accepted ∧
          ((sysExec k file fits).2.vm = { k.vm with pmm := (kmallocPages fits f.length k.vm.pmm).2 } ∨
            ∃ image, (sysExec k file fits).2.vm = (loadPages (k.roots c) image f.passes
              { k.vm with pmm := (kmallocPages fits f.length k.vm.pmm).2 }).2)) := by
  unfold sysExec
  rcases hc : k.currentProcess with _ | c
  · exact ⟨rfl, rfl, Or.inl rfl⟩
  dsimp only
  by_cases hpid : (k.processes c).pid = 0
  · rw [if_pos hpid]
    exact ⟨rfl, rfl, Or.inl rfl⟩
  rw [if_neg hpid]
  rcases file with _ | f
  · exact ⟨rfl, rfl, Or.inl rfl⟩
  dsimp only
  rcases hbytes : f.header with _ | bytes
  · exact ⟨rfl, rfl, Or.inl rfl⟩
  dsimp only
  by_cases hvalid : elfValidate (elfHeader bytes) = true
  · have hacc : f.Accepted := ⟨bytes, hbytes, hvalid⟩
    rw [if_pos hvalid]
    obtain ⟨ok, pmm, hk⟩ : ∃ ok pmm, kmallocPages fits f.length k.vm.pmm = (ok, pmm) := ⟨_, _, rfl⟩
    -- a return after `kmalloc` and before the loops
    have hbuffer : ∀ t : KState, t.roots = k.roots → t.cr3 = k.cr3 → t.vm = { k.vm with pmm := pmm } →
        t.roots = k.roots ∧ t.cr3 = k.cr3 ∧ (t.vm = k.vm ∨ ∃ c' f', some c = some c' ∧
          (k.processes c').pid ≠ 0 ∧ some f = some f' ∧ f'.Accepted ∧
            (t.vm = { k.vm with pmm := (kmallocPages fits f'.length k.vm.pmm).2 } ∨
              ∃ image, t.vm = (loadPages (k.roots c') image f'.passes
                { k.vm with pmm := (kmallocPages fits f'.length k.vm.pmm).2 }).2)) :=
      fun t hr hq hvm =>
        ⟨hr, hq, Or.inr ⟨c, f, rfl, hpid, rfl, hacc, Or.inl (by rw [hvm, hk])⟩⟩
    rw [hk]
    dsimp only
    cases ok with
    | false => exact hbuffer _ rfl rfl rfl
    | true =>
    rw [if_neg (by decide)]
    rcases himage : f.image with _ | image
    · exact hbuffer _ rfl rfl rfl
    dsimp only
    by_cases hbig : f.length < ((elfHeader bytes).ePhoff
        + (elfHeader bytes).ePhnum * (elfHeader bytes).ePhentsize) % 2 ^ 64
    · rw [if_pos hbig]
      exact hbuffer _ rfl rfl rfl
    rw [if_neg hbig]
    have hpasses : f.passes = (elfHeader bytes).passes image f.length := by
      rw [ExecFile.passes, hbytes, himage]
      exact if_neg hbig
    have hload : ∃ image', (loadPages (k.processes c).cr3 image ((elfHeader bytes).passes image f.length)
        { k.vm with pmm := pmm }).2 = (loadPages (k.roots c) image' f.passes
          { k.vm with pmm := (kmallocPages fits f.length k.vm.pmm).2 }).2 :=
      ⟨image, by rw [hpasses, hk]; rfl⟩
    generalize loadPages (k.processes c).cr3 image ((elfHeader bytes).passes image f.length)
      { k.vm with pmm := pmm } = loaded at hload
    obtain ⟨_ | _, vm⟩ := loaded
    · exact ⟨rfl, rfl, Or.inr ⟨c, f, rfl, hpid, rfl, hacc, Or.inr hload⟩⟩
    · exact ⟨setProcess_roots_of_eq rfl, rfl, Or.inr ⟨c, f, rfl, hpid, rfl, hacc, Or.inr hload⟩⟩
  · rw [if_neg hvalid]
    exact ⟨rfl, rfl, Or.inl rfl⟩

theorem kept_of_exec (ho : Owned roles k.vm k.cr3 k.roots) {file : Option ExecFile} {fits : Bool}
    (hg : Confined k (.exec file fits)) : Kept k.cr3 k.roots k.vm (sysExec k file fits).2.vm := by
  obtain ⟨_, _, hvm | ⟨c, f, hc, hpid, hf, hacc, hvm⟩⟩ := sysExec_cases k file fits
  · rw [hvm]
    exact .refl ho
  obtain ⟨hreg, hpasses⟩ := hg c f hc hpid hf hacc
  rcases hvm with hvm | ⟨image, hvm⟩
  · rw [hvm]
    exact (ho.kmallocPages hreg fits f.length).kept
  rw [hvm]
  by_cases hz : k.roots c = 0
  · -- pages without a use lose their roles, so that what is written is no table of any tree
    obtain ⟨roles', ho', htrim⟩ := ho.trim
    have hbuffer := ho'.kmallocPages hreg fits f.length
    rw [hz]
    refine (hbuffer.trans (hbuffer.owned.loadPages_zero (hbuffer.not_free hreg) image fun x hx hx0 => ?_)).kept
    have hnot := hpasses x hx
    rw [if_pos hz] at hnot
    exact ⟨htrim _ (hnot hx0), offHalf_of_not_inUse (hnot hx0)⟩
  · have hbuffer := ho.kmallocPages hreg fits f.length
    have hpages : ∀ x ∈ f.passes, Loadable { k.vm with pmm := (kmallocPages fits f.length k.vm.pmm).2 }
        k.cr3 k.roots (k.roots c) x.2 := fun x hx => by
      have hload := hpasses x hx
      rw [if_neg hz] at hload
      exact Owned.loadable hz hbuffer hload
    obtain ⟨_, hload⟩ := hbuffer.owned.loadPages (hbuffer.not_free hreg) hz image hpages
    exact (hbuffer.trans hload).kept

theorem half_of_create (ho : Owned roles k.vm k.cr3 k.roots) (hacc : k.vm.pmm.Accounted) {entry : Nat}
    {name : List UInt8} (hg : Confined k (.create entry name)) :
    HalfEq (RootOf k.cr3 k.roots) k.vm.mem (processCreate L k entry name .ring3).2.vm.mem := by
  rcases processCreate_cases L k entry name .ring3 with ⟨_, hfull⟩ | ⟨pid, hpid, _⟩
  · rw [hfull]
    exact .refl _ _
  obtain ⟨hscarce, hreg⟩ : k.vm.pmm.pmmGetFreePages ≤ 1 ∧ ¬ k.vm.pmm.Free k.cr3 :=
    hg.resolve_left fun hnone => by
      rw [hpid] at hnone
      cases hnone
  have hnothing : Call.MapsNothing k (.create entry name .ring3) := Or.inr hscarce
  obtain ⟨p, hvm, _, _⟩ := Call.exec_spaces_of_filled (L := L) ho hacc hnothing hpid
  rcases hvm with ⟨_, hvm⟩ | ⟨hp, hnew⟩
  · rw [show (processCreate L k entry name .ring3).2.vm = k.vm from hvm]
    exact .refl _ _
  · -- the one page that changes is the new PML4, which was free
    obtain ⟨_, hother, _, hnone⟩ := ho.create (i := pid) hnew hp
    refine ho.halfEq (fun t ht => hother t fun heq => ?_) fun q hq i _ _ => ?_
    · rw [heq, hnone] at ht
      cases ht
    · have hne : q ≠ p := by
        rcases vmmCreateAddressSpace_cases k.vm k.cr3 with ⟨_, heq⟩ | ⟨hpage, _, heq, _⟩
        · rw [heq] at hnew
          exact absurd (congrArg Prod.fst hnew).symm hp
        · obtain ⟨rfl, _⟩ := Prod.mk.inj (heq.symm.trans hnew)
          have hfree := Pmm.free_of_pmmAllocPage hpage
          rintro rfl
          rcases hq with hq | ⟨j, hj, hq⟩
          · exact hreg (hq ▸ hfree)
          · exact (ho.taken j hj).not_free (hq ▸ hfree)
      exact congrFun (hother q hne) i

theorem freed_eq_nil (k : KState) {call : SpaceCall} (h : ∀ s p, call.unmaps s p = []) : call.freed k = [] := by
  unfold SpaceCall.freed
  split
  · rfl
  · rw [h]
    rfl

/-! ## Runs -/

/-- What a run keeps: the pages typed and counted. -/
structure PagesTyped (k : KState) : Prop where
  owned : ∃ roles, Owned roles k.vm k.cr3 k.roots
  accounted : k.vm.pmm.Accounted

theorem half_step (h : PagesTyped k) (hg : Confined k call) :
    PagesTyped (call.next L k) ∧ HalfSound k call (call.next L k) := by
  obtain ⟨⟨roles, ho⟩, hacc⟩ := h
  have hkept : ∀ {t : KState} (freed : List Nat), Kept k.cr3 k.roots k.vm t.vm → t.roots = k.roots →
      t.cr3 = k.cr3 → (∀ f ∈ freed, ∀ q, k.Loads q → ¬ Mapped k.vm.mem q halfEntries 512 f) →
        PagesTyped t ∧ HalfKept k t freed := by
    intro t freed hk hroots hcr3 hfreed
    obtain ⟨⟨roles', ho'⟩, hhalf, hcount⟩ := hk
    refine ⟨⟨⟨roles', ?_⟩, hcount hacc⟩, ⟨fun q hq v hv => hhalf.pageWalk hq hv, hfreed⟩⟩
    rw [hroots, hcr3]
    exact ho'
  have hmemory : call.IsMemory → PagesTyped (call.next L k) ∧ HalfSound k call (call.next L k) := by
    intro hm
    rcases hc : k.currentProcess with _ | c
    · have hsame : call.next L k = k ∧ call.freed k = [] := by
        refine ⟨?_, by rw [SpaceCall.freed, hc]⟩
        cases call with
        | brk _ => simp only [SpaceCall.next, sysBrk, hc]
        | sbrk _ => simp only [SpaceCall.next, sysSbrk, hc]
        | mmap _ _ => simp only [SpaceCall.next, sysMmap, hc]
        | munmap _ _ => simp only [SpaceCall.next, sysMunmap, hc]
        | _ => exact hm.elim
      rw [hsame.1]
      obtain ⟨ht, hs⟩ := hkept [] (.refl ho) rfl rfl fun f hf => nomatch hf
      exact ⟨ht, fun _ => by rwa [hsame.2]⟩
    · obtain ⟨hk, hfreed⟩ := kept_of_memory (L := L) ho hm hg hc
      obtain ⟨_, hroots, hcr3⟩ := next_of_memory (L := L) hm hc
      obtain ⟨ht, hs⟩ := hkept _ hk hroots hcr3 hfreed
      exact ⟨ht, fun _ => hs⟩
  cases call with
  | create entry name =>
    have hhalf := half_of_create (L := L) ho hacc hg
    have hnothing : Call.MapsNothing k (.create entry name .ring3) := hg.imp_right And.left
    obtain ⟨hroles, hcount⟩ := Call.exec_owned (L := L) ho hacc hnothing
    refine ⟨⟨hroles, hcount⟩, fun _ => ⟨fun q hq v hv => hhalf.pageWalk hq hv, fun f hf => ?_⟩⟩
    rw [freed_eq_nil k fun _ _ => rfl] at hf
    exact nomatch hf
  | exec file fits =>
    obtain ⟨hroots, hcr3, _⟩ := sysExec_cases k file fits
    obtain ⟨ht, hs⟩ := hkept [] (kept_of_exec ho hg) hroots hcr3 fun f hf => nomatch hf
    refine ⟨ht, fun _ => ?_⟩
    rw [freed_eq_nil k fun _ _ => rfl]
    exact hs
  | other call =>
    obtain ⟨hroles, hcount⟩ := Call.exec_owned (L := L) ho hacc hg
    exact ⟨⟨hroles, hcount⟩, fun hno => absurd rfl (hno call)⟩
  | brk _ => exact hmemory trivial
  | sbrk _ => exact hmemory trivial
  | mmap _ _ => exact hmemory trivial
  | munmap _ _ => exact hmemory trivial

end

/-- **Kernel-half protection over whole runs** of the calls, from any state with its pages typed and
counted: where every call meets its condition, every call leaves the kernel half as it was. -/
theorem kernelHalf_run (L : Layout) {k : KState} {roles : Nat → Option Role}
    (ho : Owned roles k.vm k.cr3 k.roots) (hacc : k.vm.pmm.Accounted) (calls : List SpaceCall)
    (hg : Guarded Confined k (traceOf (fun k call => call.next L k) k calls)) :
    AllSteps HalfSound k (traceOf (fun k call => call.next L k) k calls) := by
  refine (trace_traceOf (fun k call => SpaceCall.next L k call) k calls).allSteps_of_guarded
    (I := PagesTyped) ?_ ⟨⟨roles, ho⟩, hacc⟩ hg
  rintro s call _ hs rfl hconf
  exact half_step hs hconf

/-! ## One process with a kernel half -/

/-- The image base is mapped through the tables at `0x2000`, `0x3000` and `0x4000` to the frame `0x5000`. -/
def halfMem : PhysMem := fun t i =>
  if t = 0x1000 ∧ i = 511 then tableEntry 0x2000
  else if t = 0x2000 ∧ i = 510 then tableEntry 0x3000
  else if t = 0x3000 ∧ i = 1 then tableEntry 0x4000
  else if t = 0x4000 ∧ i = 0 then tableEntry 0x5000
  else 0

/-- Process 1 runs, its PML4 at `0x1000` in CR3; the pages from `0x6000` to `0x9000` are free. -/
def halfMachine : KState :=
  { KState.bare with
    vm := { mem := halfMem
            pmm := { bitmap := fun i => decide (i < 6), totalPages := 10, usedPages := 6 } }
    cr3 := 0x1000
    processes := fun i => if i.val = 1 then { pid := 1, cr3 := 0x1000, state := .running } else {}
    currentProcess := some secondSlot }

def halfRoles (t : Nat) : Option Role :=
  if t = 0x1000 then some (.top 0x1000)
  else if t = 0x2000 ∨ t = 0x3000 ∨ t = 0x4000 ∨ t = 0x5000 then some .kernel
  else none

theorem halfMachine_roots (i : Slot) : halfMachine.roots i = if i = secondSlot then 0x1000 else 0 := by
  show (if i.val = 1 then _ else _ : Process).cr3 = _
  by_cases hi : i.val = 1
  · rw [if_pos hi, if_pos (Fin.ext hi)]
  · rw [if_neg hi, if_neg fun h => hi (by rw [h]; rfl)]

theorem halfMem_present {t i : Nat} (hp : isPresent (halfMem t i) = true) :
    t < 0x5000 ∧ 0x1000 ≤ t ∧ pageOf (halfMem t i) = t + 0x1000 ∧ isHuge (halfMem t i) = false := by
  unfold halfMem at hp ⊢
  by_cases h1 : t = 0x1000 ∧ i = 511
  · rw [if_pos h1, h1.1]
    decide
  by_cases h2 : t = 0x2000 ∧ i = 510
  · rw [if_neg h1, if_pos h2, h2.1]
    decide
  by_cases h3 : t = 0x3000 ∧ i = 1
  · rw [if_neg h1, if_neg h2, if_pos h3, h3.1]
    decide
  by_cases h4 : t = 0x4000 ∧ i = 0
  · rw [if_neg h1, if_neg h2, if_neg h3, if_pos h4, h4.1]
    decide
  · rw [if_neg h1, if_neg h2, if_neg h3, if_neg h4] at hp
    cases hp

theorem halfMem_pages {f : Nat} (hf : PageIn halfMem 0x1000 halfEntries 512 f) :
    f = 0x2000 ∨ f = 0x3000 ∨ f = 0x4000 ∨ f = 0x5000 := by
  rcases hf with ⟨h, ht⟩ | ⟨v, _, _, hw, rfl⟩
  · induction ht with
    | pdpt _ _ hp =>
      obtain ⟨_, _, hpage, _⟩ := halfMem_present hp
      omega
    | next _ _ hp _ _ =>
      obtain ⟨_, _, hpage, _⟩ := halfMem_present hp
      omega
  · unfold pageWalk at hw ⊢
    rcases hp3 : isPresent (halfMem 0x1000 (pml4Idx v)) with _ | _
    · simp [hp3] at hw
    obtain ⟨_, _, h3, _⟩ := halfMem_present hp3
    simp only [hp3, h3, Bool.not_true, Bool.false_eq_true, if_false] at hw ⊢
    rcases hp2 : isPresent (halfMem (0x1000 + 0x1000) (pdptIdx v)) with _ | _
    · simp [hp2] at hw
    obtain ⟨_, _, h2, hh2⟩ := halfMem_present hp2
    simp only [hp2, h2, hh2, Bool.not_true, Bool.false_eq_true, if_false] at hw ⊢
    rcases hp1 : isPresent (halfMem (0x1000 + 0x1000 + 0x1000) (pdIdx v)) with _ | _
    · simp [hp1] at hw
    obtain ⟨_, _, h1, hh1⟩ := halfMem_present hp1
    simp only [hp1, h1, hh1, Bool.not_true, Bool.false_eq_true, if_false] at hw ⊢
    rcases hp0 : isPresent (halfMem (0x1000 + 0x1000 + 0x1000 + 0x1000) (ptIdx v)) with _ | _
    · simp [hp0] at hw
    obtain ⟨_, _, h0, _⟩ := halfMem_present hp0
    simp only [Bool.not_true, Bool.false_eq_true, if_false, h0]
    rw [pageOf_or (by decide) (Nat.mod_lt _ (by decide))]
    decide

theorem owned_halfMachine : Owned halfRoles halfMachine.vm halfMachine.cr3 halfMachine.roots := by
  have hroot : ∀ i, halfMachine.roots i ≠ 0 → halfMachine.roots i = 0x1000 ∧ i = secondSlot := by
    intro i hi
    rw [halfMachine_roots] at hi ⊢
    split at hi
    · rename_i h
      exact ⟨if_pos h, h⟩
    · exact absurd rfl hi
  have hfree : ∀ t, halfMachine.vm.pmm.Free t → 0x6000 ≤ t := by
    rintro t ⟨i, _, hb, rfl⟩
    have hi : 6 ≤ i := by simpa [halfMachine] using hb
    show 0x6000 ≤ i * 4096
    omega
  have hnode : ∀ {t r h p i}, halfRoles t = some (.node r h p i) → t = 0x1000 ∧ h = 4 := by
    intro t r h p i ht
    unfold halfRoles at ht
    split at ht
    · rename_i h1
      exact ⟨h1, by simpa [Role.top, eq_comm] using (Role.node.inj (Option.some.inj ht)).2.1⟩
    · split at ht <;> cases ht
  -- entry 511, the only one of the PML4, is not in the lower half
  have hlower : ∀ {t r h p i j}, halfRoles t = some (.node r h p i) → j < lowerEntries h →
      isPresent (halfMem t j) = false := by
    intro t r h p i j ht hj
    obtain ⟨rfl, rfl⟩ := hnode ht
    have hj' : j < 256 := hj
    unfold halfMem
    rw [if_neg (by omega), if_neg (by omega), if_neg (by omega), if_neg (by omega)]
    rfl
  refine ⟨fun h0 => absurd (hfree 0 h0) (by decide), fun r => ?_, fun t ht => ?_, fun i hi => ?_,
    fun i hi => ?_, fun i j hi hij => ?_, fun t r h p i j ht hj hpr => ?_,
    fun t r h p i j ht hj hpr => ?_, fun q hq f hf => ?_, Or.inr (Or.inr rfl)⟩
  · rintro ⟨_, _, _, h⟩
    exact absurd (hnode h).1 (by decide)
  · have hge := hfree t ht
    unfold halfRoles
    rw [if_neg (by omega), if_neg (by omega)]
  · rw [(hroot i hi).1]
    rfl
  · rw [(hroot i hi).1]
    exact ⟨1, by decide, by decide, by decide⟩
  · rw [(hroot i hi).2, (hroot j (hij ▸ hi)).2]
  · rw [show halfMachine.vm.mem = halfMem from rfl, hlower ht hj] at hpr
    cases hpr
  · rw [show halfMachine.vm.mem = halfMem from rfl, hlower ht hj] at hpr
    cases hpr
  · have hq' : q = 0x1000 := by
      rcases hq with rfl | ⟨i, hi, rfl⟩
      · rfl
      · exact (hroot i hi).1
    subst hq'
    have hpages := halfMem_pages hf
    unfold halfRoles
    rw [if_neg (by omega), if_pos hpages]

/-- The process maps a page at `0x400000` and gives it back. -/
theorem halfMachine_kept :
    AllSteps HalfSound halfMachine (traceOf (fun k call => SpaceCall.next sampleLayout k call) halfMachine
      [.mmap 0x400000 0x1000, .munmap 0x400000 0x1000]) := by
  refine kernelHalf_run sampleLayout owned_halfMachine (by decide) _ ⟨?_, ?_, trivial⟩
  · intro c hc
    obtain rfl : secondSlot = c := Option.some.inj hc
    refine Or.inr (Or.inr ⟨?_, Or.inr fun a ha => ?_⟩)
    · rintro ⟨i, _, hb, h⟩
      have hi : 6 ≤ i := by simpa [halfMachine] using hb
      have hreg : 0x1000 = i * 4096 := h
      omega
    · have hmaps : (SpaceCall.mmap 0x400000 0x1000).maps (halfMachine.processes secondSlot) = [0x400000] := by
        decide
      rw [hmaps, List.mem_singleton] at ha
      rw [ha]
      decide
  · intro c hc a ha
    have hnow : (SpaceCall.next sampleLayout halfMachine (.mmap 0x400000 0x1000)).currentProcess
        = some secondSlot := by decide
    obtain rfl : secondSlot = c := Option.some.inj (hnow.symm.trans hc)
    have hunmaps : (SpaceCall.munmap 0x400000 0x1000).unmaps
        (SpaceCall.next sampleLayout halfMachine (.mmap 0x400000 0x1000)).vm
        ((SpaceCall.next sampleLayout halfMachine (.mmap 0x400000 0x1000)).processes secondSlot)
          = [0x400000] := by decide
    rw [hunmaps, List.mem_singleton] at ha
    rw [ha]
    exact Or.inl (by decide)

/-- `munmap` of the image base unmaps a page that every process shares. -/
theorem image_unmapped : ¬ ∀ (L : Layout) (k : KState) (roles : Nat → Option Role) (calls : List SpaceCall),
        Owned roles k.vm k.cr3 k.roots → k.vm.pmm.Accounted →
          AllSteps HalfSound k (traceOf (fun k call => SpaceCall.next L k call) k calls) := by
  intro hall
  obtain ⟨hsound, _⟩ := hall sampleLayout halfMachine halfRoles [.munmap kernelImageBase 0x1000]
    owned_halfMachine (by decide)
  have hwalk := (hsound fun c => nofun).walk 0x1000 (Or.inl rfl) kernelImageBase (by decide)
  exact absurd hwalk (by decide +kernel)

end Chicago95.Kernel
