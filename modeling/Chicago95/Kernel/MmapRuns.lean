/-
# Chicago95.Kernel.MmapRuns — when `sys_mmap` makes a region whole or leaves no trace.

`sys_mmap` maps page after page and asks nobody what is there already: not the address space for pages that are mapped,
not a record of the regions it chose itself, not `vmm_map_page` whether there was a page for a table. Its sizes wrap.
When a page is missing it unmaps and frees what it went through, whatever was mapped there before the call, and the
tables it had made stay.
-/
import Chicago95.Kernel.KernelHalf
import Chicago95.Kernel.UserPages

namespace Chicago95.Kernel

open Chicago95.Lib.Transition Chicago95.Kernel.Paging

/-! ## What is promised -/

/-- A region returned for `addr == 0`, with the slot of the process that got it. -/
structure Region where
  owner : Slot
  start : Nat
  length : Nat

/-- An address of the region. -/
def Region.Has (g : Region) (v : Nat) : Prop := g.start ≤ v ∧ v < g.start + g.length

/-- The machine, and the regions returned so far. -/
structure MmapState where
  kernel : KState
  regions : List Region

/-- The region a call returns for `addr == 0`. -/
def SpaceCall.region (k : KState) : SpaceCall → List Region
  | .mmap addr length =>
    match k.currentProcess with
    | none => []
    | some c =>
      if addr = 0 ∧ (sysMmap k addr length).1 ≠ -1 then [⟨c, mmapStart (k.processes c) addr, length⟩] else []
  | _ => []

/-- The state after a call. -/
def MmapState.next (L : Layout) (m : MmapState) (call : SpaceCall) : MmapState :=
  ⟨call.next L m.kernel, call.region m.kernel ++ m.regions⟩

/-- Region `g` is on fresh frames: free before, zeroed, each mapped for one page of one process; and every page that
was mapped before, in any process, has the frame it had. -/
structure RegionMade (k t : KState) (g : Region) : Prop where
  fresh : ∀ v, g.Has v → ∃ f, k.vm.pmm.Free f ∧ vmmTranslate t.vm.mem (k.roots g.owner) v = f + v % pageSize ∧
    (∀ j, t.vm.mem f j = 0) ∧ ∀ i, k.roots i ≠ 0 → ∀ w, vmmTranslate t.vm.mem (k.roots i) w ≠ 0 →
      pageOf (vmmTranslate t.vm.mem (k.roots i) w) = f → i = g.owner ∧ pageNumber w = pageNumber v
  kept : ∀ i, k.roots i ≠ 0 → ∀ w, vmmTranslate k.vm.mem (k.roots i) w ≠ 0 →
    vmmTranslate t.vm.mem (k.roots i) w = vmmTranslate k.vm.mem (k.roots i) w

/-- Every translation and every free page is as before. -/
structure Untouched (k t : KState) : Prop where
  rest : t = { k with vm := t.vm }
  translate : ∀ i, k.roots i ≠ 0 → ∀ v, vmmTranslate t.vm.mem (k.roots i) v = vmmTranslate k.vm.mem (k.roots i) v
  free : ∀ p, t.vm.pmm.Free p ↔ k.vm.pmm.Free p

/-- A region the kernel chose lies off the heap and off what is left of the regions it chose before. -/
structure RegionApart (m : MmapState) (g : Region) : Prop where
  heap : ∀ v, g.Has v → ¬((m.kernel.processes g.owner).userHeap ≤ v ∧ v < (m.kernel.processes g.owner).userHeapEnd)
  regions : ∀ e ∈ m.regions, e.owner = g.owner → ∀ v, e.Has v →
    vmmTranslate m.kernel.vm.mem (m.kernel.roots g.owner) v ≠ 0 → ¬ g.Has v

/-- **Atomicity of `sys_mmap`.** -/
def MmapSound (m : MmapState) (addr length : Nat) : Prop :=
  ((sysMmap m.kernel addr length).1 = -1 → Untouched m.kernel (sysMmap m.kernel addr length).2) ∧
  ((sysMmap m.kernel addr length).1 ≠ -1 → ∃ g : Region, m.kernel.currentProcess = some g.owner ∧ g.length = length ∧
    g.start < 2 ^ 64 ∧ (sysMmap m.kernel addr length).1 = toInt64 g.start ∧
    RegionMade m.kernel (sysMmap m.kernel addr length).2 g ∧ if addr = 0 then RegionApart m g else g.start = addr)

/-! ## The condition -/

/-- Where `sys_mmap` maps, if the sum does not wrap. -/
def mmapChosen (p : Process) (addr : Nat) : Nat := if addr = 0 then p.userHeapEnd + 0x100000 else addr

/-- There is a page for each address of the range and for each table missing, the range covers the region, and none of
its pages is mapped. -/
def RangeFits (s : Vm) (root start length : Nat) (l : List Nat) : Prop :=
  l.length + tablesMissing s.mem root l ≤ s.pmm.freeCount ∧ start % pageSize + length ≤ l.length * pageSize ∧
    ∀ a ∈ l, vmmTranslate s.mem root a = 0

/-- There are too few pages for the range, and for those that there are, all tables; none of their addresses is
mapped. -/
def RangeFails (s : Vm) (root : Nat) (l : List Nat) : Prop :=
  s.pmm.freeCount < l.length ∧
    ∀ a ∈ l.take s.pmm.freeCount, missing s.mem root a = 0 ∧ vmmTranslate s.mem root a = 0

/-- **The condition of `sys_mmap`**, for a process with an address space that asks for something. -/
def MmapFits (k : KState) (addr length : Nat) : Prop :=
  ∀ c, k.currentProcess = some c → k.roots c ≠ 0 → length ≠ 0 →
    let start := mmapChosen (k.processes c) addr
    let range := pagesFrom start (start + pageUp length)
    SpaceCall.mmapStart (k.processes c) addr = 2 ^ 64 - 1 ∨
      length + 0xFFF < 2 ^ 64 ∧ start + pageUp length < 2 ^ 64 ∧
        (k.vm.pmm.freeCount = 0 ∨ start + pageUp length ≤ 2 ^ 47 ∧
          (RangeFits k.vm (k.roots c) start length range ∨ RangeFails k.vm (k.roots c) range))

/-! ## Ranges of pages -/

section

variable {start n a v : Nat}

theorem pagesFrom_eq (start n : Nat) :
    pagesFrom start (start + n * pageSize) = (List.range n).map fun i => start + i * pageSize := by
  have hcount : (start + n * pageSize - start + 0xFFF) / pageSize = n := by
    simp only [pageSize]
    omega
  rw [pagesFrom, hcount]

theorem length_pagesFrom (start n : Nat) : (pagesFrom start (start + n * pageSize)).length = n := by
  rw [pagesFrom_eq, List.length_map, List.length_range]

theorem take_pagesFrom {j : Nat} (hj : j ≤ n) :
    (pagesFrom start (start + n * pageSize)).take j = pagesFrom start (start + j * pageSize) := by
  rw [pagesFrom_eq, pagesFrom_eq, ← List.map_take, List.take_range, Nat.min_eq_left hj]

theorem drop_pagesFrom {j : Nat} (hj : j < n) :
    ∃ l, (pagesFrom start (start + n * pageSize)).drop j = (start + j * pageSize) :: l := by
  rw [pagesFrom_eq, List.drop_eq_getElem_cons (by rw [List.length_map, List.length_range]; exact hj)]
  exact ⟨_, by rw [List.getElem_map, List.getElem_range]⟩

theorem pml4Idx_of_mem_pagesFrom (hend : start + n * pageSize ≤ 2 ^ 47)
    (ha : a ∈ pagesFrom start (start + n * pageSize)) : pml4Idx a < halfEntries := by
  rw [pagesFrom_eq, List.mem_map] at ha
  obtain ⟨i, hi, rfl⟩ := ha
  rw [List.mem_range] at hi
  simp only [pml4Idx, halfEntries, pageSize] at hend ⊢
  omega

theorem nodup_pagesFrom (hend : start + n * pageSize ≤ 2 ^ 47) :
    ((pagesFrom start (start + n * pageSize)).map pageNumber).Nodup := by
  rw [pagesFrom_eq, List.map_map]
  refine List.Nodup.map_on (fun i hi j hj he => ?_) List.nodup_range
  rw [List.mem_range] at hi hj
  simp only [Function.comp_apply, pageNumber, pageSize] at he hend
  omega

theorem exists_page {length : Nat} (hcover : start % pageSize + length ≤ n * pageSize) (hlo : start ≤ v)
    (hhi : v < start + length) : ∃ a ∈ pagesFrom start (start + n * pageSize), pageNumber v = pageNumber a := by
  refine ⟨start + (v / pageSize - start / pageSize) * pageSize, ?_, ?_⟩
  · rw [pagesFrom_eq, List.mem_map]
    refine ⟨_, List.mem_range.2 ?_, rfl⟩
    simp only [pageSize] at hcover ⊢
    omega
  · have hpage : v / pageSize = (start + (v / pageSize - start / pageSize) * pageSize) / pageSize := by
      simp only [pageSize] at hcover ⊢
      omega
    rw [pageNumber, pageNumber, ← hpage]

end

theorem mapZeroed_append {cr3 flags : Nat} {l l' : List Nat} {s s' : Vm} (h : mapZeroed cr3 flags l s = ([], s')) :
    mapZeroed cr3 flags (l ++ l') s = mapZeroed cr3 flags l' s' := by
  induction l generalizing s with
  | nil =>
    obtain rfl : s = s' := congrArg Prod.snd h
    rfl
  | cons a l ih =>
    rw [mapZeroed] at h
    rw [List.cons_append, mapZeroed]
    dsimp only at h ⊢
    by_cases hpage : s.allocPage.1 = 0
    · rw [if_pos hpage] at h
      cases h
    · rw [if_neg hpage] at h ⊢
      exact ih h

/-! ## One call -/

section

variable {k : KState} {m : MmapState} {roles roles' : Nat → Option Role} {c : Slot} {addr length : Nat} {s' : Vm}
  {l : List Nat} {g : Region}

theorem Untouched.refl (k : KState) : Untouched k k := ⟨rfl, fun _ _ _ => rfl, fun _ => Iff.rfl⟩

theorem mmapSound_of_eq (h : sysMmap m.kernel addr length = (-1, m.kernel)) : MmapSound m addr length := by
  rw [MmapSound, h]
  exact ⟨fun _ => .refl _, fun hne => absurd rfl hne⟩

theorem mmapStart_eq {p : Process} (h : mmapChosen p addr < 2 ^ 64) :
    SpaceCall.mmapStart p addr = mmapChosen p addr := by
  unfold mmapChosen at h
  unfold SpaceCall.mmapStart mmapChosen
  split
  · rename_i hzero
    rw [if_pos hzero] at h
    exact Nat.mod_eq_of_lt h
  · rfl

/-- What the call does past its arithmetic: map `n` pages from `start` on, or roll back. -/
def mmapRange (k : KState) (root start n : Nat) : Int × KState :=
  match mapZeroed root userPage (pagesFrom start (start + n * pageSize)) k.vm with
  | ([], vm) => (toInt64 start, { k with vm := vm })
  | (a :: _, vm) => (-1, { k with vm := unmapPages root (pagesFrom start a) vm })

theorem sysMmap_eq {n : Nat} (hc : k.currentProcess = some c) (hroot : k.roots c ≠ 0) (hlen : length ≠ 0)
    (hn : pageUp length = n * pageSize) (hend : mmapChosen (k.processes c) addr + n * pageSize < 2 ^ 64) :
    sysMmap k addr length = mmapRange k (k.roots c) (mmapChosen (k.processes c) addr) n := by
  have hroot' : (k.processes c).cr3 ≠ 0 := hroot
  have hstart : SpaceCall.mmapStart (k.processes c) addr = mmapChosen (k.processes c) addr := mmapStart_eq (by omega)
  rw [SpaceCall.mmapStart] at hstart
  have hsize : (length + 0xFFF) % 2 ^ 64 / pageSize * pageSize = n * pageSize := hn
  unfold sysMmap mmapRange
  rw [hc]
  dsimp only
  rw [if_neg hroot', if_neg hlen, hstart, hsize, Nat.mod_eq_of_lt hend]
  rfl

theorem sysMmap_of_last (hc : k.currentProcess = some c) (hroot : k.roots c ≠ 0) (hlen : length ≠ 0)
    (hlast : SpaceCall.mmapStart (k.processes c) addr = 2 ^ 64 - 1) : sysMmap k addr length = (-1, k) := by
  have hroot' : (k.processes c).cr3 ≠ 0 := hroot
  rw [SpaceCall.mmapStart] at hlast
  have hsize : (length + 0xFFF) % 2 ^ 64 / pageSize * pageSize = pageUp length := rfl
  have hstop : pagesFrom (2 ^ 64 - 1) ((2 ^ 64 - 1 + pageUp length) % 2 ^ 64) = [] := by
    have hlt := pageUp_lt length
    exact pagesFrom_of_le (by omega)
  unfold sysMmap
  rw [hc]
  dsimp only
  rw [if_neg hroot', if_neg hlen, hlast, hsize, hstop, mapZeroed, ← hc]
  rfl

theorem RangeMapped.regionMade (ho : Owned roles k.vm k.cr3 k.roots) (hc : k.roots g.owner ≠ 0)
    (h : RangeMapped roles roles' k.cr3 k.roots g.owner k.vm s' l) (hlow : ∀ a ∈ l, pml4Idx a < halfEntries)
    (hcover : ∀ v, g.Has v → ∃ a ∈ l, pageNumber v = pageNumber a)
    (hzero : ∀ a ∈ l, vmmTranslate k.vm.mem (k.roots g.owner) a = 0) : RegionMade k { k with vm := s' } g where
  fresh v hv := by
    obtain ⟨a, ha, hva⟩ := hcover v hv
    obtain ⟨f, hfree, -, hzeroed, hwalk⟩ := h.fresh a ha
    have hf0 : f ≠ 0 := fun h0 => ho.nullTaken (h0 ▸ hfree)
    have hself := hwalk v hva
    refine ⟨f, hfree, ?_, hzeroed, fun i hi w hw hframe => ?_⟩
    · rw [vmmTranslate, if_neg hc]
      obtain ⟨d, hd⟩ := hfree.dvd
      rw [hself, hd]
      exact (Nat.two_pow_add_eq_or_of_lt (i := 12) (Nat.mod_lt _ (by decide)) d).symm
    · rw [vmmTranslate, if_neg hi] at hw hframe
      have hlow' : pml4Idx v < halfEntries := by
        rw [pml4Idx_of_pageNumber hva]
        exact hlow a ha
      have hsame := h.grown.owned.frame_unique hc hi hlow' (by rw [hself]; exact frame_ne_zero hf0 v) hw
        (by rw [hself, pageOf_frame hfree.dvd, hframe])
      exact ⟨hsame.1.symm, hsame.2.symm⟩
  kept i hi w hw := by
    rw [vmmTranslate, if_neg hi] at hw ⊢
    rw [vmmTranslate, if_neg hi]
    refine h.others i hi w ?_
    rintro rfl a ha hwa
    have hz := hzero a ha
    rw [vmmTranslate, if_neg hi] at hz
    exact hw (ho.pageWalk_eq_zero (ho.top _ hi) (hlow a ha) hwa hz)

theorem RangeMapped.untouched (ho : Owned roles k.vm k.cr3 k.roots) (hc : k.roots c ≠ 0)
    (h : RangeMapped roles roles' k.cr3 k.roots c k.vm s' l) (hlow : ∀ a ∈ l, pml4Idx a < halfEntries)
    (hnodup : (l.map pageNumber).Nodup) (hzero : ∀ a ∈ l, vmmTranslate k.vm.mem (k.roots c) a = 0)
    (htables : tablesMissing k.vm.mem (k.roots c) l = 0) :
    Untouched k { k with vm := unmapPages (k.roots c) l s' } := by
  have hframe : ∀ a ∈ l, ∃ f, k.vm.pmm.Free f ∧ s'.pmm.Used f ∧ pageWalk s'.mem (k.roots c) a ≠ 0 ∧
      pageOf (pageWalk s'.mem (k.roots c) a) = f := fun a ha => by
    obtain ⟨f, hfree, hused, -, hwalk⟩ := h.fresh a ha
    have hf0 : f ≠ 0 := fun h0 => ho.nullTaken (h0 ▸ hfree)
    rw [hwalk a rfl]
    exact ⟨f, hfree, hused, frame_ne_zero hf0 a, pageOf_frame hfree.dvd a⟩
  have hback := h.grown.owned.unmapRange hc hlow hnodup
    (fun a ha => by
      obtain ⟨f, -, -, hne, -⟩ := hframe a ha
      exact hne)
    (fun a ha => by
      obtain ⟨f, -, hused, -, he⟩ := hframe a ha
      rwa [he])
  refine ⟨rfl, fun i hi w => ?_, fun p => ?_⟩
  · rw [vmmTranslate, vmmTranslate, if_neg hi, if_neg hi]
    by_cases hw : i = c ∧ ∃ a ∈ l, pageNumber w = pageNumber a
    · obtain ⟨rfl, a, ha, hwa⟩ := hw
      have hz := hzero a ha
      rw [vmmTranslate, if_neg hi] at hz
      rw [ho.pageWalk_eq_zero (ho.top i hi) (hlow a ha) hwa hz]
      exact hback.gone a ha w hwa
    · have hoff : i = c → ∀ a ∈ l, pageNumber w ≠ pageNumber a := fun hic a ha he => hw ⟨hic, a, ha, he⟩
      exact (hback.others i hi w hoff).trans (h.others i hi w hoff)
  · refine (hback.freed p).trans ⟨?_, fun hp => h.taken htables p hp⟩
    rintro (hp | ⟨a, ha, rfl⟩)
    · exact h.grown.free p hp
    · obtain ⟨f, hfree, -, -, he⟩ := hframe a ha
      rwa [he]

theorem mapZeroed_of_none {s : Vm} {cr3 flags : Nat} (hnone : s.pmm.freeCount = 0) (l : List Nat) :
    mapZeroed cr3 flags l s = (l, s) := by
  have halloc : s.allocPage = (0, s) := allocPage_eq_self (Pmm.not_free_of_freeCount hnone)
  cases l with
  | nil => rfl
  | cons a l =>
    rw [mapZeroed, halloc]
    rfl

theorem mmapSound_of_rangeFits {start n : Nat} (ho : Owned roles m.kernel.vm m.kernel.cr3 m.kernel.roots)
    (hreg : ¬ m.kernel.vm.pmm.Free m.kernel.cr3) (hc : m.kernel.currentProcess = some c) (hroot : m.kernel.roots c ≠ 0)
    (hstart : mmapChosen (m.kernel.processes c) addr = start) (htop : start + n * pageSize ≤ 2 ^ 47)
    (hrun : sysMmap m.kernel addr length = mmapRange m.kernel (m.kernel.roots c) start n)
    (hfits : RangeFits m.kernel.vm (m.kernel.roots c) start length (pagesFrom start (start + n * pageSize))) :
    MmapSound m addr length := by
  obtain ⟨hroom, hcover, hzero⟩ := hfits
  have hlow : ∀ a ∈ pagesFrom start (start + n * pageSize), pml4Idx a < halfEntries := fun a ha =>
    pml4Idx_of_mem_pagesFrom htop ha
  obtain ⟨roles', s', hmap, hrange⟩ := ho.mapRange hreg hroot hlow (nodup_pagesFrom htop) hroom userPage
  rw [length_pagesFrom] at hcover
  rw [mmapRange, hmap] at hrun
  dsimp only at hrun
  have hvalue : toInt64 start ≠ -1 := by
    rw [toInt64, if_pos (by omega)]
    omega
  have hpages : ∀ v, Region.Has ⟨c, start, length⟩ v →
      ∃ a ∈ pagesFrom start (start + n * pageSize), pageNumber v = pageNumber a := fun v hv =>
    exists_page hcover hv.1 hv.2
  rw [MmapSound, hrun]
  refine ⟨fun h => absurd h hvalue, fun _ => ⟨⟨c, start, length⟩, hc, rfl, by dsimp only; omega, rfl,
    hrange.regionMade ho hroot hlow hpages hzero, ?_⟩⟩
  split
  · rename_i haddr
    rw [mmapChosen, if_pos haddr] at hstart
    refine ⟨fun v hv hheap => ?_, fun e _ _ v _ hmapped hv => ?_⟩
    · have hlo : start ≤ v := hv.1
      have hhi : v < (m.kernel.processes c).userHeapEnd := hheap.2
      omega
    · -- what is still mapped is none of the pages mapped now
      obtain ⟨a, ha, hva⟩ := hpages v hv
      have hz := hzero a ha
      rw [vmmTranslate, if_neg hroot] at hz hmapped
      exact hmapped (ho.pageWalk_eq_zero (ho.top c hroot) (hlow a ha) hva hz)
  · rename_i haddr
    rw [mmapChosen, if_neg haddr] at hstart
    exact hstart.symm

theorem mmapSound_of_rangeFails {start n : Nat} (ho : Owned roles m.kernel.vm m.kernel.cr3 m.kernel.roots)
    (hreg : ¬ m.kernel.vm.pmm.Free m.kernel.cr3) (hroot : m.kernel.roots c ≠ 0) (htop : start + n * pageSize ≤ 2 ^ 47)
    (hrun : sysMmap m.kernel addr length = mmapRange m.kernel (m.kernel.roots c) start n)
    (hfails : RangeFails m.kernel.vm (m.kernel.roots c) (pagesFrom start (start + n * pageSize))) :
    MmapSound m addr length := by
  obtain ⟨hfew, hready⟩ := hfails
  rw [length_pagesFrom] at hfew
  generalize hcount : m.kernel.vm.pmm.freeCount = count at *
  have htake : (pagesFrom start (start + n * pageSize)).take count = pagesFrom start (start + count * pageSize) :=
    take_pagesFrom (Nat.le_of_lt hfew)
  obtain ⟨rest, hdrop⟩ : ∃ l, (pagesFrom start (start + n * pageSize)).drop count = (start + count * pageSize) :: l :=
    drop_pagesFrom hfew
  rw [htake] at hready
  -- the pages there are go to the first addresses, and none to a table
  have htop' : start + count * pageSize ≤ 2 ^ 47 :=
    Nat.le_trans (Nat.add_le_add_left (Nat.mul_le_mul_right pageSize (Nat.le_of_lt hfew)) start) htop
  have hlow : ∀ a ∈ pagesFrom start (start + count * pageSize), pml4Idx a < halfEntries := fun a ha =>
    pml4Idx_of_mem_pagesFrom htop' ha
  have htables := tablesMissing_eq_zero fun a ha => (hready a ha).1
  obtain ⟨roles', s', hmap, hrange⟩ := ho.mapRange hreg hroot hlow (nodup_pagesFrom htop')
    (by rw [htables, length_pagesFrom, hcount, Nat.add_zero]) userPage
  have hspent := hrange.spent
  rw [htables, length_pagesFrom, hcount] at hspent
  -- the next one finds no page
  rw [mmapRange, ← List.take_append_drop count (pagesFrom start (start + n * pageSize)), htake, hdrop,
    mapZeroed_append hmap, mapZeroed_of_none (by omega)] at hrun
  dsimp only at hrun
  rw [MmapSound, hrun]
  exact ⟨fun _ => hrange.untouched ho hroot hlow (nodup_pagesFrom htop') (fun a ha => (hready a ha).2) htables,
    fun hne => absurd rfl hne⟩

theorem mmapSound_of_fits (ho : Owned roles m.kernel.vm m.kernel.cr3 m.kernel.roots)
    (hconf : Confined m.kernel (.mmap addr length)) (hfits : MmapFits m.kernel addr length) :
    MmapSound m addr length := by
  rcases hc : m.kernel.currentProcess with _ | c
  · exact mmapSound_of_eq (by simp only [sysMmap, hc])
  by_cases hroot : m.kernel.roots c = 0
  · have hroot' : (m.kernel.processes c).cr3 = 0 := hroot
    exact mmapSound_of_eq (by simp only [sysMmap, hc, hroot', if_true])
  by_cases hlen : length = 0
  · exact mmapSound_of_eq (by simp only [sysMmap, hc, hlen, if_true, ite_self])
  rcases hfits c hc hroot hlen with hlast | ⟨hwrap, hend, hcase⟩
  · exact mmapSound_of_eq (sysMmap_of_last hc hroot hlen hlast)
  obtain ⟨n, hn⟩ : ∃ n, pageUp length = n * pageSize := ⟨_, rfl⟩
  have hsize := (pageUp_bounds hwrap).1
  rw [hn] at hend hcase hsize
  have hpos : 0 < n := by
    simp only [pageSize] at hsize
    omega
  have hrun := sysMmap_eq hc hroot hlen hn hend
  have hmaps := hconf c hc
  have hroot' : (m.kernel.processes c).cr3 ≠ 0 := hroot
  rw [SpaceCall.maps, if_neg (not_or.2 ⟨hroot', hlen⟩), mmapStart_eq (by omega), hn, Nat.mod_eq_of_lt hend] at hmaps
  generalize hstart : mmapChosen (m.kernel.processes c) addr = start at *
  by_cases hnone : m.kernel.vm.pmm.freeCount = 0
  · -- nothing is mapped, so there is nothing to roll back
    obtain ⟨rest, hfirst⟩ : ∃ l, (pagesFrom start (start + n * pageSize)).drop 0 = (start + 0 * pageSize) :: l :=
      drop_pagesFrom hpos
    rw [List.drop_zero, Nat.zero_mul, Nat.add_zero] at hfirst
    rw [mmapRange, mapZeroed_of_none hnone, hfirst] at hrun
    dsimp only at hrun
    rw [pagesFrom_of_le (Nat.le_refl start)] at hrun
    exact mmapSound_of_eq hrun
  obtain ⟨htop, hcase⟩ := hcase.resolve_left hnone
  have hreg : ¬ m.kernel.vm.pmm.Free m.kernel.cr3 := by
    rcases hmaps with hnil | hfull | ⟨hreg, -⟩
    · have hlength := length_pagesFrom start n
      rw [hnil, List.length_nil] at hlength
      omega
    · obtain ⟨t, ht⟩ := Pmm.exists_free_of_freeCount (Nat.pos_of_ne_zero hnone)
      exact absurd ht (hfull t)
    · exact hreg
  rcases hcase with hfits | hfails
  · exact mmapSound_of_rangeFits ho hreg hc hroot hstart htop hrun hfits
  · exact mmapSound_of_rangeFails ho hreg hroot htop hrun hfails

end

/-! ## Runs -/

/-- The promise is `sys_mmap`'s. -/
def MmapLaw (m : MmapState) (call : SpaceCall) (_ : MmapState) : Prop :=
  ∀ addr length, call = .mmap addr length → MmapSound m addr length

/-- Calls keep kernel halves alone, and `sys_mmap` meets its condition. -/
def MmapGuard (m : MmapState) (call : SpaceCall) : Prop :=
  Confined m.kernel call ∧ ∀ addr length, call = .mmap addr length → MmapFits m.kernel addr length

/-- **Atomicity of `sys_mmap` over whole runs** of the calls, from any state with its pages typed and counted: where
every call meets its condition, every `sys_mmap` makes its region or leaves everything as it was. -/
theorem mmap_run (L : Layout) {m : MmapState} {roles : Nat → Option Role}
    (ho : Owned roles m.kernel.vm m.kernel.cr3 m.kernel.roots) (hacc : m.kernel.vm.pmm.Accounted)
    (calls : List SpaceCall) (hg : Guarded MmapGuard m (traceOf (MmapState.next L) m calls)) :
    AllSteps MmapLaw m (traceOf (MmapState.next L) m calls) := by
  refine (trace_traceOf (MmapState.next L) m calls).allSteps_of_guarded (I := fun m => PagesTyped m.kernel) ?_
    ⟨⟨roles, ho⟩, hacc⟩ hg
  rintro m call _ hm rfl ⟨hconf, hfits⟩
  refine ⟨(half_step (L := L) hm hconf).1, ?_⟩
  rintro addr length rfl
  obtain ⟨⟨roles, ho⟩, -⟩ := hm
  exact mmapSound_of_fits ho hconf (hfits addr length rfl)

/-! ## One process with nothing mapped -/

/-- Process 1 runs, its PML4 at `0x1000` in CR3 and empty; the `n` pages from `0x2000` on are free. -/
def userMachine (n : Nat) : KState :=
  { KState.bare with
    vm := { mem := fun _ _ => 0
            pmm := { bitmap := fun i => decide (i < 2), totalPages := n + 2, usedPages := 2 } }
    cr3 := 0x1000
    processes := fun i => if i.val = 1 then { pid := 1, cr3 := 0x1000, state := .running } else {}
    currentProcess := some secondSlot }

theorem userMachine_roots (n : Nat) (i : Slot) : (userMachine n).roots i = if i = secondSlot then 0x1000 else 0 := by
  show (if i.val = 1 then _ else _ : Process).cr3 = _
  by_cases hi : i.val = 1
  · rw [if_pos hi, if_pos (Fin.ext hi)]
  · rw [if_neg hi, if_neg fun h => hi (by rw [h]; rfl)]

theorem owned_userMachine (n : Nat) :
    Owned (fun t => if t = 0x1000 then some (.top 0x1000) else none) (userMachine n).vm (userMachine n).cr3
      (userMachine n).roots := by
  have hroot : ∀ i, (userMachine n).roots i ≠ 0 → (userMachine n).roots i = 0x1000 ∧ i = secondSlot := by
    intro i hi
    rw [userMachine_roots] at hi ⊢
    split at hi
    · rename_i h
      exact ⟨if_pos h, h⟩
    · exact absurd rfl hi
  have hfree : ∀ t, (userMachine n).vm.pmm.Free t → 0x2000 ≤ t := by
    rintro t ⟨i, _, hb, rfl⟩
    have hi : ¬ i < 2 := of_decide_eq_false hb
    show 0x2000 ≤ i * 4096
    omega
  refine ⟨fun h0 => absurd (hfree 0 h0) (by decide), fun r => ?_, fun t ht => ?_, fun i hi => ?_, fun i hi => ?_,
    fun i j hi hij => ?_, fun t r h p i j _ _ hpr => ?_, fun t r h p i j _ _ hpr => ?_, fun q _ f hf => ?_,
    Or.inr (Or.inr rfl)⟩
  · rintro ⟨_, _, _, h⟩
    cases h
  · have hge := hfree t ht
    exact if_neg (by omega)
  · rw [(hroot i hi).1]
    rfl
  · rw [(hroot i hi).1]
    exact ⟨1, Nat.lt_of_lt_of_le (by decide) (Nat.le_add_left 2 n), rfl, rfl⟩
  · rw [(hroot i hi).2, (hroot j (hij ▸ hi)).2]
  · have hzero : isPresent 0 = true := hpr
    cases hzero
  · have hzero : isPresent 0 = true := hpr
    cases hzero
  · exact absurd hf (not_pageIn_of_empty fun _ _ _ => isPresent_zero)

/-- The process gets a region, gives it back and gets it again. -/
theorem userMachine_mmap :
    AllSteps MmapLaw ⟨userMachine 5, []⟩ (traceOf (MmapState.next sampleLayout) ⟨userMachine 5, []⟩
      [.mmap 0 0x1000, .munmap 0x100000 0x1000, .mmap 0 0x1000]) := by
  have hreg : ∀ {k : KState}, k.vm.pmm.bitmap 1 = true → ¬ k.vm.pmm.Free 0x1000 := by
    rintro k htaken ⟨i, _, hb, hi⟩
    obtain rfl : 1 = i := Pmm.mul_pageSize_inj (i := 1) hi
    rw [htaken] at hb
    cases hb
  refine mmap_run sampleLayout (m := ⟨userMachine 5, []⟩) (owned_userMachine 5) (by decide) _
    ⟨⟨?_, ?_⟩, ⟨?_, nofun⟩, ⟨?_, ?_⟩, trivial⟩
  · intro c hc
    obtain rfl : secondSlot = c := Option.some.inj hc
    exact Or.inr (Or.inr ⟨hreg (by decide), Or.inr (by decide)⟩)
  · rintro _ _ ⟨⟩ c hc _ _
    obtain rfl : secondSlot = c := Option.some.inj hc
    exact Or.inr ⟨by decide, by decide, Or.inr ⟨by decide, Or.inl ⟨by decide, by decide, by decide⟩⟩⟩
  · intro c hc
    obtain rfl : secondSlot = c := Option.some.inj ((by decide : some secondSlot = _).trans hc)
    refine fun a ha => Or.inl ?_
    revert a
    decide
  · intro c hc
    obtain rfl : secondSlot = c := Option.some.inj ((by decide : some secondSlot = _).trans hc)
    exact Or.inr (Or.inr ⟨hreg (by decide +kernel), Or.inr (by decide +kernel)⟩)
  · rintro _ _ ⟨⟩ c hc _ _
    obtain rfl : secondSlot = c := Option.some.inj ((by decide : some secondSlot = _).trans hc)
    exact Or.inr ⟨by decide, by decide, Or.inr ⟨by decide,
      Or.inl ⟨by decide +kernel, by decide +kernel, by decide +kernel⟩⟩⟩

/-- Asked again, `sys_mmap` returns the same region, and the frame that was there is lost. -/
theorem region_returned_twice : ¬ ∀ (L : Layout) (m : MmapState) (roles : Nat → Option Role) (calls : List SpaceCall),
        Owned roles m.kernel.vm m.kernel.cr3 m.kernel.roots → m.kernel.vm.pmm.Accounted →
          AllSteps MmapLaw m (traceOf (MmapState.next L) m calls) := by
  intro hall
  have h := AllSteps.traceOf_at [SpaceCall.mmap 0 0x1000] (hall sampleLayout ⟨userMachine 5, []⟩ _
    ([.mmap 0 0x1000] ++ [.mmap 0 0x1000]) (owned_userMachine 5) (by decide))
  obtain ⟨-, hmade⟩ := h 0 0x1000 rfl
  obtain ⟨g, -, -, -, -, hregion, -⟩ := hmade (by decide)
  have hkept := hregion.kept secondSlot (by decide +kernel) 0x100000 (by decide +kernel)
  exact absurd hkept (by decide +kernel)

end Chicago95.Kernel
