/-
# Chicago95.Kernel.Clone — what `vmm_clone_address_space` shares.

`process_fork` gives the child a fresh PML4 and has `vmm_clone_address_space` copy entries 0–255 into
it. A copy is *isolated* (`Isolated`) when every lower-half address has its own frame with the
parent's contents and the two trees have no table in common.
-/
import Chicago95.Kernel.PageTree

namespace Chicago95.Kernel.Cloning

open Chicago95.Lib.Loop

/-! ## The lower half of an address space -/

/-- The first virtual address above PML4 entry 255. -/
def halfBoundary : Nat := 2 ^ 47

/-- A table reached from `root` through entries 0–255, with its height. -/
abbrev LowerTable (mem : PhysMem) (root : Nat) : Nat → Nat → Prop := TableIn mem root 0 halfEntries

/-- A 4 KB frame mapped through entries 0–255. -/
def LowerFrame (mem : PhysMem) (root f : Nat) : Prop :=
  ∃ pt l, LowerTable mem root 1 pt ∧ l < 512 ∧ isPresent (mem pt l) = true ∧ f = pageOf (mem pt l)

/-- `f` is the PML4, a table or a frame of the lower half. -/
def InUse (mem : PhysMem) (root f : Nat) : Prop :=
  f = root ∨ (∃ k, LowerTable mem root k f) ∨ LowerFrame mem root f

/-- Entry `j` of page `t` is a present entry of the lower half. -/
def LowerEntry (mem : PhysMem) (root t j : Nat) : Prop :=
  isPresent (mem t j) = true ∧
    ((t = root ∧ j < 256) ∨ ∃ k, LowerTable mem root k t ∧ j < 512)

/-- The lower half is a four-level tree without huge pages: its pages are taken, and each is linked
once, never the root. -/
structure WellFormed (s : Vm) (root : Nat) : Prop where
  noHuge : ∀ k t j, LowerTable s.mem root (k + 2) t → j < 512 → isPresent (s.mem t j) = true →
    isHuge (s.mem t j) = false
  taken : ∀ f, InUse s.mem root f → s.pmm.Used f
  notRoot : ∀ t j, LowerEntry s.mem root t j → pageOf (s.mem t j) ≠ root
  once : ∀ t j t' j', LowerEntry s.mem root t j → LowerEntry s.mem root t' j' →
    pageOf (s.mem t j) = pageOf (s.mem t' j') → t = t' ∧ j = j'

/-- Tables and frames linked through the first `n` entries of `t`, `k` table levels above the
frames. -/
def linkedPages (mem : PhysMem) : Nat → Nat → Nat → Nat
  | 0, n, t => (List.range n).countP fun l => isPresent (mem t l)
  | k + 1, n, t =>
    ((List.range n).map fun j =>
      if isPresent (mem t j) then linkedPages mem k 512 (pageOf (mem t j)) + 1 else 0).sum

/-- What a fork hands to the clone: a fresh copy, a well-formed source, and enough pages. -/
structure CloneInput (s : Vm) (dst src : Nat) : Prop where
  nullTaken : ¬ s.pmm.Free 0
  dstUsed : s.pmm.Used dst
  srcUsed : s.pmm.Used src
  dst_ne_zero : dst ≠ 0
  src_ne_zero : src ≠ 0
  dst_ne_src : dst ≠ src
  dstEmpty : ∀ i, i < 256 → isPresent (s.mem dst i) = false
  source : WellFormed s src
  enough : linkedPages s.mem 3 256 src ≤ s.pmm.freeCount

/-- **Fork isolation**, of the copy `dst` in `s'` from the source `src` as it was in `s`. -/
structure Isolated (s s' : Vm) (dst src : Nat) : Prop where
  copied : ∀ v, v < halfBoundary → vmmTranslate s.mem src v ≠ 0 →
    vmmTranslate s'.mem dst v ≠ 0 ∧
    ¬ InUse s.mem src (pageOf (vmmTranslate s'.mem dst v)) ∧
    ∀ i, i < 512 → s'.mem (pageOf (vmmTranslate s'.mem dst v)) i
      = s.mem (pageOf (vmmTranslate s.mem src v)) i
  unmapped : ∀ v, v < halfBoundary → vmmTranslate s.mem src v = 0 →
    vmmTranslate s'.mem dst v = 0
  apart : ∀ k l t, LowerTable s'.mem src k t → ¬ LowerTable s'.mem dst l t

theorem pml4Idx_lt_of_lower {v : Nat} (h : v < halfBoundary) : pml4Idx v < 256 := by
  have hv : v < 2 ^ 47 := h
  unfold pml4Idx
  omega

theorem not_lowerTable_of_empty {mem : PhysMem} {root : Nat}
    (h : ∀ i, i < 256 → isPresent (mem root i) = false) {k t : Nat} : ¬ LowerTable mem root k t :=
  not_tableIn_of_empty fun i _ hi => h i hi

theorem vmmTranslate_of_empty {mem : PhysMem} {root v : Nat} (hroot : root ≠ 0)
    (h : ∀ i, i < 256 → isPresent (mem root i) = false) (hv : v < halfBoundary) : vmmTranslate mem root v = 0 := by
  unfold vmmTranslate
  rw [if_neg hroot, pageWalk_of_empty (h _ (pml4Idx_lt_of_lower hv))]

/-! ## What a clone may write -/

/-- `s'` comes from `s` by allocating pages and writing only to them and to `w`. -/
structure Grows (w : Nat) (s s' : Vm) : Prop where
  used : ∀ t, s.pmm.Used t → s'.pmm.Used t
  kept : ∀ t, s.pmm.Used t → t ≠ w → s'.mem t = s.mem t

theorem Grows.refl (w : Nat) (s : Vm) : Grows w s s := ⟨fun _ h => h, fun _ _ _ => rfl⟩

theorem Grows.trans {w : Nat} {s t u : Vm} (h : Grows w s t) (h' : Grows w t u) : Grows w s u where
  used p hp := h'.used p (h.used p hp)
  kept p hp hne := (h'.kept p (h.used p hp) hne).trans (h.kept p hp hne)

theorem grows_setEntry (w i v : Nat) (s : Vm) : Grows w s (s.setEntry w i v) where
  used _ hp := hp
  kept _ _ hne := s.setEntry_mem_page_of_ne hne

theorem grows_allocPage (w : Nat) (s : Vm) : Grows w s s.allocPage.2 where
  used _ hp := hp.pmmAllocPage
  kept _ _ _ := rfl

theorem ne_allocPage {s : Vm} {t : Nat} (ht : s.pmm.Used t) (hpage : s.allocPage.1 ≠ 0) : t ≠ s.allocPage.1 := by
  rintro rfl
  exact ht.not_free (Pmm.free_of_pmmAllocPage hpage)

theorem grows_of_allocPage {w : Nat} {s s' : Vm} (hpage : s.allocPage.1 ≠ 0)
    (h : Grows s.allocPage.1 s.allocPage.2 s') : Grows w s s' where
  used t ht := h.used t ht.pmmAllocPage
  kept t ht _ := h.kept t ht.pmmAllocPage (ne_allocPage ht hpage)

/-- The state in which `cloneTable` starts on the level below. -/
def linked (s : Vm) (src dst idx : Nat) : Vm :=
  (s.allocPage.2.zeroPage s.allocPage.1).setEntry dst idx
    (tableEntry (pageOf ((s.allocPage.2.zeroPage s.allocPage.1).mem src idx)))

theorem grows_linked {s : Vm} (hpage : s.allocPage.1 ≠ 0) (src dst idx : Nat) : Grows dst s (linked s src dst idx) := by
  have hzero : Grows s.allocPage.1 s.allocPage.2 (s.allocPage.2.zeroPage s.allocPage.1) :=
    ⟨fun _ h => h, fun _ _ hne => Vm.zeroPage_mem_of_ne _ hne⟩
  exact (grows_of_allocPage hpage hzero).trans (grows_setEntry ..)

theorem cloneTable_cases (inner : Nat → Nat → Vm → Vm) (src dst idx : Nat) (s : Vm) :
    (s.allocPage.1 = 0 ∧ cloneTable inner src dst idx s = s.allocPage.2) ∨ (s.allocPage.1 ≠ 0 ∧ ∃ table,
      cloneTable inner src dst idx s = inner table s.allocPage.1 (linked s src dst idx)) := by
  by_cases hpage : s.allocPage.1 = 0
  · exact Or.inl ⟨hpage, by simp only [cloneTable, hpage, if_true]⟩
  · exact Or.inr ⟨hpage, _, by simp only [cloneTable, if_neg hpage]; rfl⟩

theorem grows_cloneTable {inner : Nat → Nat → Vm → Vm}
    (hinner : ∀ a w s, Grows w s (inner a w s)) (src dst idx : Nat) (s : Vm) :
    Grows dst s (cloneTable inner src dst idx s) := by
  rcases cloneTable_cases inner src dst idx s with ⟨_, h⟩ | ⟨hpage, table, h⟩
  · rw [h]
    exact grows_allocPage ..
  · rw [h]
    have hlinked := grows_linked hpage src dst idx
    have hbelow := hinner table s.allocPage.1 (linked s src dst idx)
    refine ⟨fun t ht => hbelow.used t (hlinked.used t ht), fun t ht hne => ?_⟩
    rw [hbelow.kept t (hlinked.used t ht) (ne_allocPage ht hpage), hlinked.kept t ht hne]

theorem grows_clonePt (srcPt dstPt : Nat) (s : Vm) : Grows dstPt s (clonePt srcPt dstPt s) := by
  refine forEach_preserves (Grows.refl dstPt s) fun l t _ hst => hst.trans ?_
  unfold clonePtEntry
  split
  · exact Grows.refl ..
  · dsimp only
    split
    · exact grows_allocPage ..
    · rename_i hpage
      refine (grows_of_allocPage hpage ?_).trans (grows_setEntry ..)
      exact ⟨fun _ h => h, fun _ _ hne => Vm.copyPage_mem_of_ne _ hne⟩

theorem grows_clonePd (srcPd dstPd : Nat) (s : Vm) : Grows dstPd s (clonePd srcPd dstPd s) := by
  refine forEach_preserves (Grows.refl dstPd s) fun k t _ hst => hst.trans ?_
  unfold clonePdEntry
  split
  · exact Grows.refl ..
  · split
    · exact grows_setEntry ..
    · exact grows_cloneTable grows_clonePt ..

theorem grows_clonePdpt (srcPdpt dstPdpt : Nat) (s : Vm) : Grows dstPdpt s (clonePdpt srcPdpt dstPdpt s) := by
  refine forEach_preserves (Grows.refl dstPdpt s) fun j t _ hst => hst.trans ?_
  unfold clonePdptEntry
  split
  · exact Grows.refl ..
  · split
    · exact grows_setEntry ..
    · exact grows_cloneTable grows_clonePd ..

theorem grows_clonePml4Entry (src dst i : Nat) (s : Vm) : Grows dst s (clonePml4Entry src dst i s) := by
  unfold clonePml4Entry
  split
  · exact Grows.refl ..
  · exact grows_cloneTable grows_clonePdpt ..

/-! ## The shared PDPT -/

theorem clonePml4Entry_other {s : Vm} {src dst i i' : Nat} (hdst : s.pmm.Used dst) (hne : i' ≠ i) :
    (clonePml4Entry src dst i s).mem dst i' = s.mem dst i' := by
  unfold clonePml4Entry
  split
  · rfl
  · rcases cloneTable_cases clonePdpt src dst i s with ⟨_, h⟩ | ⟨hpage, table, h⟩
    · rw [h, Vm.allocPage_mem]
    · have hlinked := grows_linked hpage src dst i
      rw [h, (grows_clonePdpt table _ _).kept dst (hlinked.used dst hdst) (ne_allocPage hdst hpage)]
      unfold linked
      rw [Vm.setEntry_mem_of_ne _ (fun heq => hne heq.2),
        Vm.zeroPage_mem_of_ne _ (ne_allocPage hdst hpage), Vm.allocPage_mem]

theorem clonePml4Entry_links {s : Vm} {src dst i : Nat} (hdst : s.pmm.Used dst)
    (hsrc : s.pmm.Used src) (hp : isPresent (s.mem src i) = true) (hpage : s.allocPage.1 ≠ 0) :
    (clonePml4Entry src dst i s).mem dst i = tableEntry (pageOf (s.mem src i)) := by
  unfold clonePml4Entry
  rw [if_neg (by rw [hp]; exact Bool.false_ne_true)]
  rcases cloneTable_cases clonePdpt src dst i s with ⟨hzero, _⟩ | ⟨_, table, h⟩
  · exact absurd hzero hpage
  · have hlinked := grows_linked hpage src dst i
    rw [h, (grows_clonePdpt table _ _).kept dst (hlinked.used dst hdst) (ne_allocPage hdst hpage)]
    unfold linked
    rw [Vm.setEntry_mem_self, Vm.zeroPage_mem_of_ne _ (ne_allocPage hsrc hpage), Vm.allocPage_mem]

/-- Where the clone's outer loop stands: either nothing was present so far and nothing happened, or
some entry already passed is linked to the source's PDPT. -/
def PassedTo (s : Vm) (dst src i : Nat) (s' : Vm) : Prop :=
  (s' = s ∧ ∀ j, j < i → isPresent (s.mem src j) = false) ∨
  (Grows dst s s' ∧ ∃ j, j < i ∧ isPresent (s.mem src j) = true ∧
    s'.mem dst j = tableEntry (pageOf (s.mem src j)))

theorem passedTo_step {s s' : Vm} {dst src i t : Nat} (h0 : ¬ s.pmm.Free 0)
    (hdst : s.pmm.Used dst) (hsrc : s.pmm.Used src) (hfree : s.pmm.Free t)
    (h : PassedTo s dst src i s') : PassedTo s dst src (i + 1) (clonePml4Entry src dst i s') := by
  rcases h with ⟨rfl, hempty⟩ | ⟨hgrows, j, hji, hp, hlink⟩
  · rcases hp : isPresent (s'.mem src i) with _ | _
    · refine Or.inl ⟨by simp [clonePml4Entry, hp], fun j hj => ?_⟩
      rcases Nat.lt_succ_iff_lt_or_eq.mp hj with hlt | rfl
      · exact hempty j hlt
      · exact hp
    · have hpage : s'.allocPage.1 ≠ 0 := Pmm.pmmAllocPage_ne_zero h0 hfree
      exact Or.inr ⟨grows_clonePml4Entry .., i, Nat.lt_succ_self i, hp,
        clonePml4Entry_links hdst hsrc hp hpage⟩
  · refine Or.inr ⟨hgrows.trans (grows_clonePml4Entry ..), j, by omega, hp, ?_⟩
    rw [clonePml4Entry_other (hgrows.used dst hdst) (by omega), hlink]

theorem exists_shared_pdpt {s : Vm} {dst src i t : Nat} (h0 : ¬ s.pmm.Free 0)
    (hdst : s.pmm.Used dst) (hsrc : s.pmm.Used src) (hdst0 : dst ≠ 0) (hsrc0 : src ≠ 0)
    (hne : dst ≠ src) (hfree : s.pmm.Free t) (hi : i < 256) (hp : isPresent (s.mem src i) = true) :
    ∃ pdpt, LowerTable (vmmCloneAddressSpace s dst src).mem src 3 pdpt ∧
      LowerTable (vmmCloneAddressSpace s dst src).mem dst 3 pdpt := by
  unfold vmmCloneAddressSpace
  rw [if_neg (by rintro (h | h); exacts [hdst0 h, hsrc0 h])]
  have hloop : PassedTo s dst src 256 (forEach 256 (clonePml4Entry src dst) s) := by
    apply forEach_induction (P := PassedTo s dst src)
    · exact Or.inl ⟨rfl, fun j hj => absurd hj (Nat.not_lt_zero j)⟩
    · intro j s' _ h
      exact passedTo_step h0 hdst hsrc hfree h
  rcases hloop with ⟨_, hempty⟩ | ⟨hgrows, j, hj, hpj, hlink⟩
  · exact absurd hp (by rw [hempty i hi]; exact Bool.false_ne_true)
  · have hsrcRow := hgrows.kept src hsrc hne.symm
    refine ⟨pageOf (s.mem src j), ?_, ?_⟩
    · have h : LowerTable (forEach 256 (clonePml4Entry src dst) s).mem src 3 _ :=
        .pdpt (Nat.zero_le _) hj (by rw [hsrcRow]; exact hpj)
      rwa [hsrcRow] at h
    · have h : LowerTable (forEach 256 (clonePml4Entry src dst) s).mem dst 3 _ :=
        .pdpt (Nat.zero_le _) hj (by rw [hlink]; exact isPresent_tableEntry _)
      rwa [hlink, pageOf_tableEntry (dvd_pageOf _)] at h

/-! ## When the copy is isolated -/

theorem linkedPages_pos {mem : PhysMem} {k n t i : Nat} (hi : i < n)
    (hp : isPresent (mem t i) = true) : 0 < linkedPages mem (k + 1) n t := by
  show 0 < List.sum _
  rw [List.sum_pos_iff_exists_pos_nat]
  refine ⟨_, List.mem_map.mpr ⟨i, List.mem_range.mpr hi, rfl⟩, ?_⟩
  rw [if_pos hp]
  exact Nat.succ_pos _

theorem vmmCloneAddressSpace_of_empty {s : Vm} {dst src : Nat} (h : ∀ i, i < 256 → isPresent (s.mem src i) = false) :
    vmmCloneAddressSpace s dst src = s := by
  unfold vmmCloneAddressSpace
  split
  · rfl
  · refine forEach_eq_self fun i hi => ?_
    unfold clonePml4Entry
    rw [if_pos (by rw [h i hi]; rfl)]

/-- **Fork isolation holds exactly where there is nothing to copy**: after a clone with enough free
pages, the copy is isolated from the source iff no PML4 entry 0–255 of the source is present. -/
theorem isolated_iff {s : Vm} {dst src : Nat} (h : CloneInput s dst src) :
    Isolated s (vmmCloneAddressSpace s dst src) dst src ↔ ∀ i, i < 256 → isPresent (s.mem src i) = false := by
  constructor
  · intro hiso i hi
    rcases hp : isPresent (s.mem src i) with _ | _
    · rfl
    · have hpos : 0 < s.pmm.freeCount := Nat.lt_of_lt_of_le (linkedPages_pos hi hp) h.enough
      obtain ⟨t, hfree⟩ := Pmm.exists_free_of_freeCount hpos
      obtain ⟨pdpt, hofSrc, hofDst⟩ := exists_shared_pdpt h.nullTaken h.dstUsed h.srcUsed
        h.dst_ne_zero h.src_ne_zero h.dst_ne_src hfree hi hp
      exact absurd hofDst (hiso.apart _ _ _ hofSrc)
  · intro hempty
    rw [vmmCloneAddressSpace_of_empty hempty]
    refine ⟨fun v hv hmap => ?_, fun v hv _ => ?_, fun _ _ _ ht => ?_⟩
    · exact absurd (vmmTranslate_of_empty h.src_ne_zero hempty hv) hmap
    · exact vmmTranslate_of_empty h.dst_ne_zero h.dstEmpty hv
    · exact absurd ht (not_lowerTable_of_empty hempty)

/-! ## A copy of one page -/

/-- One page mapped at address 0: PML4 `0x1000`, PDPT `0x2000`, PD `0x3000`, PT `0x4000`, frame
`0x5000`. -/
def onePageMem : PhysMem := fun t i =>
  if i = 0 then
    if t = 0x1000 then 0x2007
    else if t = 0x2000 then 0x3007
    else if t = 0x3000 then 0x4007
    else if t = 0x4000 then 0x5007
    else 0
  else 0

/-- Sixteen pages, the first eight taken: those of `onePageMem` and two fresh PML4s, `0x6000` and
`0x7000`. -/
def onePageVm : Vm where
  mem := onePageMem
  pmm := { bitmap := fun i => decide (i < 8), totalPages := 16, usedPages := 8 }

theorem onePageVm_used {i : Nat} (hi : i < 8) : onePageVm.pmm.Used (i * pageSize) :=
  ⟨i, Nat.lt_trans hi (by decide), decide_eq_true hi, rfl⟩

theorem onePageMem_present {t j : Nat} (h : isPresent (onePageMem t j) = true) :
    j = 0 ∧ (t = 0x1000 ∨ t = 0x2000 ∨ t = 0x3000 ∨ t = 0x4000) := by
  unfold onePageMem at h
  split at h
  · rename_i hj
    refine ⟨hj, ?_⟩
    by_contra hnot
    simp only [not_or] at hnot
    obtain ⟨h1, h2, h3, h4⟩ := hnot
    rw [if_neg h1, if_neg h2, if_neg h3, if_neg h4] at h
    exact Bool.false_ne_true h
  · exact absurd h Bool.false_ne_true

theorem onePageMem_lowerTable {k t : Nat} (h : LowerTable onePageMem 0x1000 k t) :
    (k = 3 ∧ t = 0x2000) ∨ (k = 2 ∧ t = 0x3000) ∨ (k = 1 ∧ t = 0x4000) := by
  induction h with
  | pdpt _ _ hp =>
    obtain ⟨rfl, _⟩ := onePageMem_present hp
    exact Or.inl ⟨rfl, by decide⟩
  | next _ _ hp _ ih =>
    obtain ⟨rfl, _⟩ := onePageMem_present hp
    rcases ih with ⟨hk, rfl⟩ | ⟨hk, rfl⟩ | ⟨hk, _⟩
    · exact Or.inr (Or.inl ⟨by omega, by decide⟩)
    · exact Or.inr (Or.inr ⟨by omega, by decide⟩)
    · omega

theorem onePageMem_lowerEntry {t j : Nat} (h : LowerEntry onePageMem 0x1000 t j) :
    j = 0 ∧ pageOf (onePageMem t j) = t + pageSize ∧ 0x1000 ≤ t := by
  obtain ⟨rfl, rfl | rfl | rfl | rfl⟩ := onePageMem_present h.1 <;> decide

theorem onePageVm_wellFormed : WellFormed onePageVm 0x1000 where
  noHuge k t j ht _ hp := by
    obtain ⟨rfl, _⟩ := onePageMem_present hp
    rcases onePageMem_lowerTable ht with ⟨_, rfl⟩ | ⟨_, rfl⟩ | ⟨_, rfl⟩ <;> decide
  taken f hf := by
    rcases hf with rfl | ⟨k, hk⟩ | ⟨pt, l, hpt, _, hp, rfl⟩
    · exact onePageVm_used (i := 1) (by decide)
    · rcases onePageMem_lowerTable hk with ⟨_, rfl⟩ | ⟨_, rfl⟩ | ⟨_, rfl⟩
      · exact onePageVm_used (i := 2) (by decide)
      · exact onePageVm_used (i := 3) (by decide)
      · exact onePageVm_used (i := 4) (by decide)
    · obtain ⟨rfl, _⟩ := onePageMem_present hp
      rcases onePageMem_lowerTable hpt with ⟨_, rfl⟩ | ⟨_, rfl⟩ | ⟨_, rfl⟩
      · exact onePageVm_used (i := 3) (by decide)
      · exact onePageVm_used (i := 4) (by decide)
      · exact onePageVm_used (i := 5) (by decide)
  notRoot t j h := by
    obtain ⟨_, hnext, hle⟩ := onePageMem_lowerEntry h
    have hpos : 0 < pageSize := by decide
    show pageOf (onePageMem t j) ≠ 0x1000
    omega
  once t j t' j' h h' heq := by
    obtain ⟨hj, hnext, _⟩ := onePageMem_lowerEntry h
    obtain ⟨hj', hnext', _⟩ := onePageMem_lowerEntry h'
    change pageOf (onePageMem t j) = pageOf (onePageMem t' j') at heq
    omega

theorem onePageMem_empty {root : Nat} (h : 0x5000 ≤ root) (i : Nat) : isPresent (onePageMem root i) = false := by
  rcases hp : isPresent (onePageMem root i) with _ | _
  · rfl
  · have := onePageMem_present hp
    omega

theorem onePageVm_cloneInput : CloneInput onePageVm 0x6000 0x1000 where
  nullTaken := (onePageVm_used (i := 0) (by decide)).not_free
  dstUsed := onePageVm_used (i := 6) (by decide)
  srcUsed := onePageVm_used (i := 1) (by decide)
  dst_ne_zero := by decide
  src_ne_zero := by decide
  dst_ne_src := by decide
  dstEmpty i _ := onePageMem_empty (by decide) i
  source := onePageVm_wellFormed
  enough := by decide +kernel

/-- Copying an address space with a single page, eight pages being free, does not isolate it. -/
theorem onePageVm_not_isolated : CloneInput onePageVm 0x6000 0x1000 ∧
      ¬ Isolated onePageVm (vmmCloneAddressSpace onePageVm 0x6000 0x1000) 0x6000 0x1000 := by
  refine ⟨onePageVm_cloneInput, fun hiso => ?_⟩
  have hin := onePageVm_cloneInput
  obtain ⟨pdpt, hofSrc, hofDst⟩ := exists_shared_pdpt hin.nullTaken hin.dstUsed hin.srcUsed
    hin.dst_ne_zero hin.src_ne_zero hin.dst_ne_src (t := 8 * pageSize)
    ⟨8, by decide, by decide, rfl⟩ (i := 0) (by decide) (by decide)
  exact hiso.apart _ _ _ hofSrc hofDst

/-- Copying the empty address space `0x7000` does. -/
theorem emptySpace_isolated : Isolated onePageVm (vmmCloneAddressSpace onePageVm 0x6000 0x7000) 0x6000 0x7000 := by
  have hempty : ∀ i, i < 256 → isPresent (onePageVm.mem 0x7000 i) = false :=
    fun i _ => onePageMem_empty (by decide) i
  have hroot : WellFormed onePageVm 0x7000 := by
    refine ⟨fun k t j ht => absurd ht (not_lowerTable_of_empty hempty), ?_, ?_, ?_⟩
    · rintro f (rfl | ⟨k, hk⟩ | ⟨pt, _, hpt, _⟩)
      · exact onePageVm_used (i := 7) (by decide)
      · exact absurd hk (not_lowerTable_of_empty hempty)
      · exact absurd hpt (not_lowerTable_of_empty hempty)
    · rintro t j ⟨hp, ⟨rfl, hj⟩ | ⟨k, hk, _⟩⟩
      · exact absurd hp (by rw [hempty j hj]; exact Bool.false_ne_true)
      · exact absurd hk (not_lowerTable_of_empty hempty)
    · rintro t j t' j' ⟨hp, ⟨rfl, hj⟩ | ⟨k, hk, _⟩⟩
      · exact absurd hp (by rw [hempty j hj]; exact Bool.false_ne_true)
      · exact absurd hk (not_lowerTable_of_empty hempty)
  have hin : CloneInput onePageVm 0x6000 0x7000 :=
    { onePageVm_cloneInput with
      srcUsed := onePageVm_used (i := 7) (by decide)
      src_ne_zero := by decide
      dst_ne_src := by decide
      source := hroot
      enough := by decide +kernel }
  exact (isolated_iff hin).mpr hempty

end Chicago95.Kernel.Cloning
