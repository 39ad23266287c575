/-
# Chicago95.Kernel.UserPointers — `syscall_validate_user_ptr` against the page tables and `process_create`.

A pointer is good if its range is below 2^47 and `vmm_translate` finds something for each of its pages.
`validate_iff` says this byte by byte.

⚠ `vmm_translate` looks at the present bits only. A page whose entries lack the user bit is good for it, and so is one
that a large page maps.
-/
import Chicago95.Kernel.ProcessTable

namespace Chicago95.Kernel

/-! ## The loop -/

theorem all_pages_iff {addr stop : Nat} (h : addr < stop) (P : Nat → Bool) :
    ((List.range ((stop - pageOf addr + 0xFFF) / 0x1000)).all fun i => P (pageOf addr + i * 0x1000)) = true ↔
      ∀ b, addr ≤ b → b < stop → P (pageOf b) = true := by
  rw [List.all_eq_true]
  simp only [pageOf, pageSize]
  constructor
  · intro hall b hb hstop
    have hi := hall ((b / 4096 - addr / 4096)) (List.mem_range.mpr (by omega))
    rwa [show addr / 4096 * 4096 + (b / 4096 - addr / 4096) * 4096 = b / 4096 * 4096 by omega] at hi
  · intro hall i hi
    have hi := List.mem_range.mp hi
    -- the first page by its byte `addr`, each other by its first byte
    by_cases hzero : i = 0
    · have hfirst := hall addr (Nat.le_refl _) h
      rwa [show addr / 4096 * 4096 + i * 4096 = addr / 4096 * 4096 by omega]
    · have hpage := hall (addr / 4096 * 4096 + i * 4096) (by omega) (by omega)
      rwa [show (addr / 4096 * 4096 + i * 4096) / 4096 * 4096 = addr / 4096 * 4096 + i * 4096 by omega] at hpage

variable {k : KState} {c : Slot}

theorem validate_iff (hc : k.currentProcess = some c) (hcr3 : (k.processes c).cr3 ≠ 0) {addr len : Nat}
    (haddr : addr < 2 ^ 64) (hlen : len < 2 ^ 64) : syscallValidateUserPtr k addr len = true ↔
      addr ≠ 0 ∧ addr + len < 2 ^ 47 ∧
        ∀ b, addr ≤ b → b < addr + max len 1 → pageWalk k.vm.mem (k.processes c).cr3 (pageOf b) ≠ 0 := by
  unfold syscallValidateUserPtr
  by_cases hzero : addr = 0
  · rw [if_pos hzero]
    exact iff_of_false (by decide) fun h => h.1 hzero
  · rw [if_neg hzero]
    simp only [hc]
    by_cases hbound : addr + len < 2 ^ 47
    · have hmod : (addr + len) % 2 ^ 64 = addr + len := Nat.mod_eq_of_lt (by omega)
      rw [hmod, if_neg (by omega), if_neg (by omega), if_neg (by omega), if_neg hcr3]
      have hstop : (if addr + len ≤ addr then addr + 1 else addr + len) = addr + max len 1 := by
        split <;> omega
      rw [hstop, all_pages_iff (by omega) fun a => vmmTranslate k.vm.mem (k.processes c).cr3 a != 0]
      simp only [vmmTranslate, if_neg hcr3, bne_iff_ne]
      exact ⟨fun h => ⟨hzero, hbound, h⟩, fun h => h.2.2⟩
    · refine iff_of_false ?_ fun h => hbound h.2.1
      split
      · decide
      · split
        · decide
        · rw [if_pos (by omega)]
          decide

/-! ## What is owed -/

/-- `e & PML4_USER` -/
def isUser (e : Nat) : Bool := e.testBit 2

/-- The entries of `v` at all four levels are there and have the user bit. -/
def UserMapped (mem : PhysMem) (cr3 v : Nat) : Prop :=
  let pml4e := mem cr3 (pml4Idx v)
  let pdpte := mem (pageOf pml4e) (pdptIdx v)
  let pde := mem (pageOf pdpte) (pdIdx v)
  let pte := mem (pageOf pde) (ptIdx v)
  (isPresent pml4e = true ∧ isUser pml4e = true) ∧
    (isPresent pdpte = true ∧ isUser pdpte = true ∧ isHuge pdpte = false) ∧
      (isPresent pde = true ∧ isUser pde = true ∧ isHuge pde = false) ∧ isPresent pte = true ∧ isUser pte = true

instance (mem : PhysMem) (cr3 v : Nat) : Decidable (UserMapped mem cr3 v) := by
  unfold UserMapped
  infer_instance

/-- A buffer that begins in a range and ends in it. -/
def Inside (base size addr len : Nat) : Prop := base ≤ addr ∧ addr < base + size ∧ addr + len ≤ base + size

/-- `proc->user_stack - PROCESS_USER_STACK`, where `process_create` begins to map the stack. -/
def stackBase (p : Process) : Nat := (p.userStack + 2 ^ 64 - processUserStack) % 2 ^ 64

/-- What is owed to the current process `c`: a good buffer is the user's, and those in the ranges that `process_create`
sets up are good. -/
structure Validates (k : KState) (c : Slot) : Prop where
  safe : ∀ addr len, addr < 2 ^ 64 → len < 2 ^ 64 → syscallValidateUserPtr k addr len = true →
    ∀ b, addr ≤ b → b < addr + len → b < 2 ^ 47 ∧ UserMapped k.vm.mem (k.processes c).cr3 b
  stack : ∀ addr len, Inside (stackBase (k.processes c)) processUserStack addr len →
    syscallValidateUserPtr k addr len = true
  heap : ∀ addr len, Inside (k.processes c).userHeap processHeapSize addr len → syscallValidateUserPtr k addr len = true

/-- No page below 2^47 is translated but for the user. -/
def UserOnly (mem : PhysMem) (cr3 : Nat) : Prop :=
  ∀ v, v < 2 ^ 47 → pageSize ∣ v → pageWalk mem cr3 v ≠ 0 → UserMapped mem cr3 v

/-- A range of user space all of whose pages are translated. -/
def Reachable (mem : PhysMem) (cr3 base size : Nat) : Prop :=
  base ≠ 0 ∧ base + size < 2 ^ 47 ∧ ∀ b, base ≤ b → b < base + size → pageWalk mem cr3 (pageOf b) ≠ 0

/-! ## When it is kept -/

theorem userMapped_pageOf (mem : PhysMem) (cr3 v : Nat) : UserMapped mem cr3 (pageOf v) ↔ UserMapped mem cr3 v := by
  have hidx : pml4Idx (pageOf v) = pml4Idx v ∧ pdptIdx (pageOf v) = pdptIdx v ∧ pdIdx (pageOf v) = pdIdx v ∧
      ptIdx (pageOf v) = ptIdx v := by
    unfold pml4Idx pdptIdx pdIdx ptIdx pageOf pageSize
    omega
  unfold UserMapped
  rw [hidx.1, hidx.2.1, hidx.2.2.1, hidx.2.2.2]

theorem safe_iff (hc : k.currentProcess = some c) (hcr3 : (k.processes c).cr3 ≠ 0) :
    (∀ addr len, addr < 2 ^ 64 → len < 2 ^ 64 → syscallValidateUserPtr k addr len = true →
      ∀ b, addr ≤ b → b < addr + len → b < 2 ^ 47 ∧ UserMapped k.vm.mem (k.processes c).cr3 b) ↔
      UserOnly k.vm.mem (k.processes c).cr3 := by
  constructor
  · intro h v hv hdvd hwalk
    obtain ⟨n, rfl⟩ := hdvd
    simp only [pageSize] at *
    -- a byte of the page, and not the null pointer
    obtain ⟨addr, hne, hlo, hhi⟩ : ∃ addr, addr ≠ 0 ∧ 4096 * n ≤ addr ∧ addr ≤ 4096 * n + 1 :=
      ⟨4096 * n + 1, by omega, by omega, by omega⟩
    have hpage : pageOf addr = 4096 * n := by
      unfold pageOf pageSize
      omega
    have hgood : syscallValidateUserPtr k addr 1 = true :=
      (validate_iff hc hcr3 (by omega) (by decide)).mpr ⟨hne, by omega, fun b hb hb' => by
        obtain rfl : b = addr := by omega
        rw [hpage]
        exact hwalk⟩
    have huser := (h addr 1 (by omega) (by decide) hgood addr (Nat.le_refl _) (Nat.lt_succ_self _)).2
    rwa [← userMapped_pageOf, hpage] at huser
  · intro h addr len haddr hlen hgood b hlo hhi
    obtain ⟨-, hbound, hpages⟩ := (validate_iff hc hcr3 haddr hlen).mp hgood
    refine ⟨by omega, (userMapped_pageOf _ _ _).mp (h (pageOf b) ?_ (dvd_pageOf b) (hpages b hlo (by omega)))⟩
    unfold pageOf pageSize
    omega

theorem inside_iff (hc : k.currentProcess = some c) (hcr3 : (k.processes c).cr3 ≠ 0) {base size : Nat}
    (hsize : 0 < size) (hbase : base < 2 ^ 64) (hlen : size < 2 ^ 64) :
    (∀ addr len, Inside base size addr len → syscallValidateUserPtr k addr len = true) ↔
      Reachable k.vm.mem (k.processes c).cr3 base size := by
  constructor
  · intro h
    obtain ⟨hne, hbound, hpages⟩ := (validate_iff hc hcr3 hbase hlen).mp
      (h base size ⟨Nat.le_refl _, by omega, Nat.le_refl _⟩)
    exact ⟨hne, hbound, fun b hlo hhi => hpages b hlo (by omega)⟩
  · rintro ⟨hne, hbound, hpages⟩ addr len ⟨hlo, hhi, hend⟩
    exact (validate_iff hc hcr3 (by omega) (by omega)).mpr
      ⟨by omega, by omega, fun b hb hb' => hpages b (by omega) (by omega)⟩

theorem processCreate_ranges {L : Layout} {k₀ : KState} {entry : Nat} {name : List UInt8} {ring : Ring}
    (h : (processCreate L k₀ entry name ring).1 = (c.val : Int)) :
    ((processCreate L k₀ entry name ring).2.processes c).userStack = L.stackTop c - processUserStack ∧
      ((processCreate L k₀ entry name ring).2.processes c).userHeap =
        L.stackTop c - processUserStack - processHeapSize := by
  rcases processCreate_cases L k₀ entry name ring with ⟨-, hx⟩ | ⟨pid, -, hx⟩
  · rw [hx] at h
    dsimp only at h
    omega
  · rw [hx] at h ⊢
    obtain rfl : pid = c := Fin.ext (by dsimp only at h; omega)
    simp [freshProcess]

theorem created_refused {L : Layout} (hstack : (k.processes c).userStack = L.stackTop c - processUserStack)
    (hheap : (k.processes c).userHeap = L.stackTop c - processUserStack - processHeapSize) {addr len : Nat}
    (h : Inside (stackBase (k.processes c)) processUserStack addr len ∨
      Inside (k.processes c).userHeap processHeapSize addr len) : syscallValidateUserPtr k addr len = false := by
  have hge := L.kernelStacks_ge
  have hend := L.kernelStacks_end
  have hslot := c.isLt
  have haddr : 0x0000800000000000 ≤ addr := by
    unfold stackBase Inside at h
    unfold Layout.stackTop at hstack hheap
    unfold kernelImageBase at hge
    rw [hstack, hheap] at h
    simp only [processUserStack, processHeapSize, processStackSize] at h hend
    omega
  unfold syscallValidateUserPtr
  split
  · rfl
  · split
    · rfl
    · dsimp only
      rw [ite_self]

/-- **User pointers**: what is owed holds exactly if no page below 2^47 is translated but for the user and the two ranges
are in user space and translated. Of a process that `process_create` made it never holds. -/
theorem validates_iff (hc : k.currentProcess = some c) (hcr3 : (k.processes c).cr3 ≠ 0)
    (hheap : (k.processes c).userHeap < 2 ^ 64) : (Validates k c ↔ UserOnly k.vm.mem (k.processes c).cr3 ∧
        Reachable k.vm.mem (k.processes c).cr3 (stackBase (k.processes c)) processUserStack ∧
        Reachable k.vm.mem (k.processes c).cr3 (k.processes c).userHeap processHeapSize) ∧
      ∀ L k₀ entry name ring, (processCreate L k₀ entry name ring).1 = (c.val : Int) →
        (k.processes c).userStack = ((processCreate L k₀ entry name ring).2.processes c).userStack →
        (k.processes c).userHeap = ((processCreate L k₀ entry name ring).2.processes c).userHeap → ¬ Validates k c := by
  have hbase : stackBase (k.processes c) < 2 ^ 64 := Nat.mod_lt _ (by decide)
  refine ⟨⟨fun h => ?_, fun h => ?_⟩, fun L k₀ entry name ring hpid hstack hheap' h => ?_⟩
  · exact ⟨(safe_iff hc hcr3).mp h.safe, (inside_iff hc hcr3 (by decide) hbase (by decide)).mp h.stack,
      (inside_iff hc hcr3 (by decide) hheap (by decide)).mp h.heap⟩
  · exact ⟨(safe_iff hc hcr3).mpr h.1, (inside_iff hc hcr3 (by decide) hbase (by decide)).mpr h.2.1,
      (inside_iff hc hcr3 (by decide) hheap (by decide)).mpr h.2.2⟩
  · obtain ⟨hs, hh⟩ := processCreate_ranges hpid
    have hinside : Inside (k.processes c).userHeap processHeapSize (k.processes c).userHeap 1 := by
      unfold Inside processHeapSize
      omega
    have hgood := h.heap _ _ hinside
    rw [created_refused (hstack.trans hs) (hheap'.trans hh) (Or.inr hinside)] at hgood
    cases hgood

/-- Every address is the user's and the ranges are low. -/
def lowRanges : KState :=
  { KState.bare with
    vm := { KState.bare.vm with mem := fun _ _ => 0x1007 }
    processes := fun _ => { cr3 := 0x1000, userStack := 0x800000, userHeap := 0x400000, state := .running }
    currentProcess := some firstSlot }

theorem lowRanges_mapped (v : Nat) : pageWalk lowRanges.vm.mem 0x1000 v ≠ 0 ∧ UserMapped lowRanges.vm.mem 0x1000 v := by
  have hmem : ∀ t i, lowRanges.vm.mem t i = 0x1007 := fun _ _ => rfl
  have hpresent : isPresent 0x1007 = true := rfl
  have hsmall : isHuge 0x1007 = false := rfl
  unfold pageWalk UserMapped
  simp only [hmem, hpresent, hsmall, Bool.not_true, Bool.false_eq_true, if_false]
  exact ⟨fun h => absurd (Nat.or_eq_zero_iff.mp h).1 (by decide), by decide⟩

theorem lowRanges_validates : Validates lowRanges firstSlot :=
  (validates_iff rfl (by decide) (by decide)).1.mpr
    ⟨fun v _ _ _ => (lowRanges_mapped v).2, ⟨by decide, by decide, fun b _ _ => (lowRanges_mapped _).1⟩,
      ⟨by decide, by decide, fun b _ _ => (lowRanges_mapped _).1⟩⟩

/-- A hundred pages are free. -/
def manyPages : KState :=
  { KState.bare with
    vm := { mem := fun _ _ => 0, pmm := { bitmap := fun i => decide (i = 0), totalPages := 101, usedPages := 1 } } }

/-- A process is made there, and runs. -/
def made : KState :=
  { (processCreate sampleLayout manyPages 0x400000 [] .ring3).2 with currentProcess := some firstSlot }

/-- One page, mapped for the kernel only. -/
def kernelPage : KState :=
  { KState.bare with
    vm :=
      { KState.bare.vm with
        mem := fun t _ =>
          if t = 0x1000 then 0x2007 else if t = 0x2000 then 0x3007 else if t = 0x3000 then 0x4007 else 0x5003 }
    processes := fun _ => { cr3 := 0x1000, state := .running }
    currentProcess := some firstSlot }

/-- ⚠ The first byte of a new process's heap is refused, and a page of the kernel's is good. -/
theorem made_heap_refused :
    ((made.processes firstSlot).cr3 ≠ 0 ∧ syscallValidateUserPtr made (made.processes firstSlot).userHeap 1 = false ∧
        ¬ Validates made firstSlot) ∧
      syscallValidateUserPtr kernelPage 0x1000 1 = true ∧ ¬ UserMapped kernelPage.vm.mem 0x1000 0x1000 := by
  have hpid : (processCreate sampleLayout manyPages 0x400000 [] .ring3).1 = (firstSlot.val : Int) := by decide
  have hmade : made.processes = (processCreate sampleLayout manyPages 0x400000 [] .ring3).2.processes := rfl
  obtain ⟨hstack, hheap⟩ := processCreate_ranges hpid
  rw [← hmade] at hstack hheap
  have hinside : Inside (made.processes firstSlot).userHeap processHeapSize (made.processes firstSlot).userHeap 1 := by
    unfold Inside processHeapSize
    omega
  have hrefused := created_refused (k := made) (L := sampleLayout) hstack hheap (Or.inr hinside)
  refine ⟨⟨by decide, hrefused, fun h => ?_⟩, by decide, by decide⟩
  have hgood := h.heap _ _ hinside
  rw [hrefused] at hgood
  cases hgood

end Chicago95.Kernel
