/-
# Chicago95.Stage2.PmmRuns — the loader's page manager over whole histories.

As with the kernel's manager, a history is watched by a ghost list of the runs that are allocated: an
allocation adds the run it returns, a release cuts its pages out, and callers release only pages that are
allocated. The loader counts free pages where the kernel counts used ones; `books` reads the one as the
other, and the kernel's invariant of bitmap, counter and allocated runs (`Kernel.PageRuns.Inv`) carries
over with its two step lemmas.
-/
import Chicago95.Kernel.PmmRuns
import Chicago95.Stage2.E820

namespace Chicago95.Stage2

open Chicago95.Lib.Counting Chicago95.Lib.Bitmap Chicago95.Lib.Transition
open Chicago95.Kernel (InRun cut)

/-- The page manager with the runs that are allocated: first page and length. -/
structure PageRuns where
  pmm : Pmm
  live : List (Nat × Nat)

/-- The calls of the manager's interface. -/
inductive PageCall where
  | allocPage
  | allocPages (count : UInt32)
  | allocDma (size : UInt32)
  | freePage (pointer : UInt32)
  | freePages (pointer : UInt32) (count : UInt32)

namespace PageRuns

/-- Page `i` is allocated. -/
def Owns (s : PageRuns) (i : Nat) : Prop := ∃ r ∈ s.live, InRun r i

/-- A run of `count` pages was returned, unless the result is null. -/
def allocated (s : PageRuns) (count : Nat) (result : UInt32 × Pmm) : PageRuns :=
  { pmm := result.2
    live := if result.1 = 0 then s.live else (result.1.toNat / pageSize, count) :: s.live }

/-- One call. -/
def next (s : PageRuns) : PageCall → PageRuns
  | .allocPage => s.allocated 1 s.pmm.pmmAllocPage
  | .allocPages count => s.allocated count.toNat (s.pmm.pmmAllocPages count)
  | .allocDma size => s.allocated (Pmm.dmaCount size) (s.pmm.pmmAllocDma size)
  | .freePage pointer =>
    { pmm := s.pmm.pmmFreePage pointer, live := s.live.flatMap (cut (pointer.toNat / pageSize) 1) }
  | .freePages pointer count =>
    { pmm := s.pmm.pmmFreePages pointer count
      live := s.live.flatMap (cut (pointer.toNat / pageSize) count.toNat) }

/-- `count` pages from the pointer on are allocated. -/
def OwnsRange (s : PageRuns) (pointer : UInt32) (count : Nat) : Prop :=
  pointer.toNat % pageSize = 0 ∧
    ∀ i, pointer.toNat / pageSize ≤ i → i < pointer.toNat / pageSize + count → s.Owns i

/-- Only ranges that are allocated are given back. -/
def Allowed (s : PageRuns) : PageCall → Prop
  | .freePage pointer => s.OwnsRange pointer 1
  | .freePages pointer count => s.OwnsRange pointer count.toNat
  | _ => True

/-- The lowest run of `n` clear pages below page `lim`, if there is one, begins below 4 GB. -/
def Reachable (s : PageRuns) (lim n : Nat) : Prop :=
  ∀ first, LowestRun s.pmm.bitmap lim n first → first * pageSize < 2 ^ 32

/-- An allocation finds its run, if any, below 4 GB. -/
def Addressable (s : PageRuns) : PageCall → Prop
  | .allocPage => s.Reachable s.pmm.totalPages 1
  | .allocPages count => s.Reachable s.pmm.totalPages count.toNat
  | _ => True

/-- One step of a history. -/
def Step (s : PageRuns) (call : PageCall) (t : PageRuns) : Prop := s.Allowed call ∧ t = s.next call

/-- **The state of the manager** that `pmm_init` left as `init`. -/
structure PagesSound (init : Pmm) (s : PageRuns) : Prop where
  total_eq : s.pmm.totalPages = init.totalPages
  counted : s.pmm.freeCount = countBelow s.pmm.totalPages fun i => !s.pmm.bitmap i
  apart : s.live.Pairwise fun r q => ∀ i, ¬(InRun r i ∧ InRun q i)
  owned : ∀ i, s.Owns i →
    0 < i ∧ i < init.totalPages ∧ init.bitmap i = false ∧ s.pmm.bitmap i = true

/-- What an allocation of `n` pages answers: null, or the address of a run of pages that lie above page 0
and below page `lim`, that `pmm_init` did not reserve, and that are not allocated. -/
def AnswersFresh (init : Pmm) (s : PageRuns) (n lim : Nat) (result : UInt32) : Prop :=
  result = 0 ∨ ∃ first, result.toNat = first * pageSize ∧ 0 < first ∧ first + n ≤ lim ∧
    ∀ i, first ≤ i → i < first + n → init.bitmap i = false ∧ ¬ s.Owns i

/-- The answers of the three allocators. DMA runs lie below 16 MB. -/
def AllocSound (init : Pmm) (s : PageRuns) : PageCall → Prop
  | .allocPage => AnswersFresh init s 1 init.totalPages s.pmm.pmmAllocPage.1
  | .allocPages count =>
    AnswersFresh init s count.toNat init.totalPages (s.pmm.pmmAllocPages count).1
  | .allocDma size =>
    AnswersFresh init s (Pmm.dmaCount size) (min init.totalPages (pmmDmaLimit / pageSize))
      (s.pmm.pmmAllocDma size).1
  | _ => True

/-! ## The books -/

/-- The manager as one that counts used pages. -/
def books (p : Pmm) : Kernel.Pmm :=
  { bitmap := p.bitmap, totalPages := p.totalPages, usedPages := p.totalPages - p.freeCount }

/-- The history's state in those terms. -/
def ledger (s : PageRuns) : Kernel.PageRuns := { pmm := books s.pmm, live := s.live }

/-- What a history keeps. -/
structure Inv (init : Pmm) (s : PageRuns) : Prop where
  ledger : Kernel.PageRuns.Inv (books init) s.ledger
  accounted : s.pmm.Accounted
  init_null : init.bitmap 0 = true
  null : s.pmm.bitmap 0 = true
  max : s.pmm.totalPages ≤ pmmMaxPages

section

variable {init : Pmm} {s : PageRuns}

theorem Inv.total_eq (h : Inv init s) : s.pmm.totalPages = init.totalPages := h.ledger.sound.total_eq

theorem Inv.owned (h : Inv init s) {i : Nat} (hi : s.Owns i) :
    0 < i ∧ i < init.totalPages ∧ init.bitmap i = false ∧ s.pmm.bitmap i = true := by
  obtain ⟨hlt, hfree, hused⟩ := h.ledger.sound.owned i hi
  refine ⟨Nat.pos_of_ne_zero ?_, hlt, hfree, hused⟩
  rintro rfl
  have hzero : init.bitmap 0 = false := hfree
  rw [h.init_null] at hzero
  cases hzero

theorem Inv.pagesSound (h : Inv init s) : PagesSound init s where
  total_eq := h.total_eq
  counted := h.accounted.freeCount_eq
  apart := h.ledger.sound.apart
  owned _ hi := h.owned hi

theorem Inv.cleared (h : Inv init s) {i : Nat} (hi : i < s.pmm.totalPages)
    (hb : s.pmm.bitmap i = false) : init.bitmap i = false :=
  h.ledger.cleared i (Nat.lt_of_lt_of_eq hi h.total_eq) hb

/-! ## One step -/

theorem inv_take (h : Inv init s) {n t : Nat} (hrun : ClearRun s.pmm.bitmap s.pmm.totalPages n t) :
    Inv init { pmm := s.pmm.take t n, live := (t, n) :: s.live } := by
  have hcount := countBelow_fill_true hrun
  have hle := countBelow_le (fill s.pmm.bitmap t n true) s.pmm.totalPages
  have hacc := h.accounted
  unfold Pmm.Accounted at hacc
  have hbooks : books (s.pmm.take t n) = (books s.pmm).take t n := by
    simp only [books, Pmm.take, Kernel.Pmm.take, Kernel.Pmm.mk.injEq, true_and]
    omega
  refine ⟨?_, ?_, h.init_null, ?_, h.max⟩
  · unfold PageRuns.ledger
    rw [hbooks]
    exact Kernel.PageRuns.inv_take h.ledger hrun
  · show s.pmm.freeCount - n + countBelow s.pmm.totalPages (fill s.pmm.bitmap t n true) =
      s.pmm.totalPages
    omega
  · show (if t ≤ 0 ∧ 0 < t + n then true else s.pmm.bitmap 0) = true
    rw [h.null, ite_self]

theorem inv_release (h : Inv init s) {a n : Nat} (hown : ∀ i, a ≤ i → i < a + n → s.Owns i) :
    Inv init { pmm := s.pmm.release a n, live := s.live.flatMap (cut a n) } := by
  have hcount : countBelow s.pmm.totalPages (fill s.pmm.bitmap a n false) + n =
      countBelow s.pmm.totalPages s.pmm.bitmap := by
    rcases Nat.eq_zero_or_pos n with rfl | hn
    · rw [fill_zero, Nat.add_zero]
    · have hlast := (h.owned (hown (a + n - 1) (by omega) (by omega))).2.1
      have htotal := h.total_eq
      exact countBelow_fill_false (by omega) fun j hj hj' => (h.owned (hown j hj hj')).2.2.2
  have hacc := h.accounted
  unfold Pmm.Accounted at hacc
  have hbooks : books (s.pmm.release a n) = (books s.pmm).release a n := by
    simp only [books, Pmm.release, Kernel.Pmm.release, Kernel.Pmm.mk.injEq, true_and]
    omega
  refine ⟨?_, ?_, h.init_null, ?_, h.max⟩
  · unfold PageRuns.ledger
    rw [hbooks]
    exact Kernel.PageRuns.inv_release h.ledger hown
  · show s.pmm.freeCount + n + countBelow s.pmm.totalPages (fill s.pmm.bitmap a n false) =
      s.pmm.totalPages
    omega
  · -- page 0 is not allocated
    refine (fill_of_not_mem fun hin => ?_).trans h.null
    exact Nat.lt_irrefl 0 (h.owned (hown 0 hin.1 hin.2)).1

theorem inv_forget (h : Inv init s) (a n : Nat) :
    Inv init { pmm := s.pmm, live := s.live.flatMap (cut a n) } where
  ledger :=
    { sound :=
        { total_eq := h.ledger.sound.total_eq
          counted := h.ledger.sound.counted
          apart := Kernel.PageRuns.apart_cut a n h.ledger.sound.apart
          owned := fun i hi =>
            h.ledger.sound.owned i (Kernel.PageRuns.owns_cut_iff (s := s.ledger) |>.mp hi).1 }
      cleared := h.ledger.cleared
      null := h.ledger.null }
  accounted := h.accounted
  init_null := h.init_null
  null := h.null
  max := h.max

theorem alloc_step (h : Inv init s) {n lim : Nat} {result : UInt32 × Pmm}
    (hlim : lim ≤ s.pmm.totalPages) (hreach : s.Reachable lim n)
    (hcases : (∃ t, 0 < t ∧ LowestRun s.pmm.bitmap lim n t ∧
        result = (toPointer (t * pageSize), s.pmm.take t n)) ∨ result = (0, s.pmm)) :
    Inv init (s.allocated n result) ∧ AnswersFresh init s n lim result.1 := by
  have hps : 0 < pageSize := by decide
  rcases hcases with ⟨t, ht, hrun, rfl⟩ | rfl
  · have hclear : ClearRun s.pmm.bitmap s.pmm.totalPages n t :=
      ⟨Nat.le_trans hrun.1.1 hlim, hrun.1.2⟩
    have hptr := toNat_toPointer (hreach t hrun)
    have hne : toPointer (t * pageSize) ≠ 0 := by
      intro hzero
      rw [hzero] at hptr
      exact Nat.mul_ne_zero (by omega) (by omega) hptr.symm
    refine ⟨?_, Or.inr ⟨t, hptr, ht, hrun.1.1, fun i hi hi' => ⟨?_, fun hown => ?_⟩⟩⟩
    · unfold allocated
      rw [if_neg hne, hptr, Nat.mul_div_cancel t hps]
      exact inv_take h hclear
    · exact h.cleared (Nat.lt_of_lt_of_le hi' hclear.1) (hrun.1.2 i hi hi')
    · -- an allocated page is used
      have hused := (h.owned hown).2.2.2
      rw [hrun.1.2 i hi hi'] at hused
      cases hused
  · exact ⟨h, Or.inl rfl⟩

theorem Inv.ownsRange (h : Inv init s) {pointer : UInt32} {n : Nat} (hn : 0 < n) (hown : s.OwnsRange pointer n) :
    0 < pointer.toNat / pageSize ∧ pointer.toNat / pageSize + n ≤ s.pmm.totalPages := by
  have hfirst := h.owned (hown.2 _ (Nat.le_refl _) (by omega))
  have hlast := h.owned (hown.2 (pointer.toNat / pageSize + (n - 1)) (by omega) (by omega))
  rw [h.total_eq]
  omega

theorem dma_reachable (s : PageRuns) {n : Nat} (hn : 0 < n) : s.Reachable s.pmm.dmaLimit n := by
  intro first hrun
  have hle := hrun.1.1
  have hlimit : s.pmm.dmaLimit ≤ pmmDmaLimit / pageSize := Nat.min_le_left _ _
  have h4096 : pmmDmaLimit / pageSize = 4096 := by decide
  have hlt : first < 4096 := by omega
  calc first * pageSize < 4096 * pageSize := Nat.mul_lt_mul_of_pos_right hlt (by decide)
    _ ≤ 2 ^ 32 := by decide

theorem pages_step (h : Inv init s) {call : PageCall} (hallow : s.Allowed call)
    (hreach : s.Addressable call) : Inv init (s.next call) ∧ AllocSound init s call := by
  cases call with
  | allocPage =>
    simp only [next, AllocSound, ← h.total_eq]
    refine alloc_step h (Nat.le_refl _) hreach ?_
    exact (Pmm.pmmAllocPage_cases h.null h.max).imp_right And.right
  | allocPages count =>
    simp only [next, AllocSound, ← h.total_eq]
    refine alloc_step h (Nat.le_refl _) hreach ?_
    rcases Nat.eq_zero_or_pos count.toNat with hz | hpos
    · refine Or.inr ?_
      unfold Pmm.pmmAllocPages
      rw [if_pos (UInt32.toNat_inj.mp hz)]
    · exact (Pmm.pmmAllocPages_cases h.null h.max count hpos).imp_right And.right
  | allocDma size =>
    simp only [next, AllocSound, ← h.total_eq, Nat.min_comm s.pmm.totalPages]
    rcases Nat.eq_zero_or_pos (Pmm.dmaCount size) with hz | hpos
    · have hnull : s.pmm.pmmAllocDma size = (0, s.pmm) := by
        unfold Pmm.pmmAllocDma
        rw [hz]
        rfl
      rw [hnull]
      exact ⟨h, Or.inl rfl⟩
    · refine alloc_step h (Nat.min_le_right _ _) (s.dma_reachable hpos) ?_
      exact (Pmm.pmmAllocDma_cases h.null h.max hpos).imp_right And.right
  | freePage pointer =>
    refine ⟨?_, trivial⟩
    by_cases hlow : pointer.toNat < 2 ^ 31
    · obtain ⟨hpos, hle⟩ := h.ownsRange Nat.one_pos hallow
      have htaken := (h.owned (hallow.2 _ (Nat.le_refl _) (Nat.lt_succ_self _))).2.2.2
      simp only [next, Pmm.pmmFreePage_eq hlow hallow.1 hpos hle htaken]
      exact inv_release h hallow.2
    · simp only [next, Pmm.pmmFreePage_high hlow h.max]
      exact inv_forget h _ _
  | freePages pointer count =>
    refine ⟨?_, trivial⟩
    by_cases hlow : pointer.toNat < 2 ^ 31
    · rcases Nat.eq_zero_or_pos count.toNat with hz | hn
      · -- nothing is given back
        have hsame : s.pmm.pmmFreePages pointer count = s.pmm := by
          unfold Pmm.pmmFreePages
          simp only [hz, Pmm.releaseFrom, ite_self]
        simp only [next, hsame, hz]
        exact inv_forget h _ _
      · obtain ⟨hpos, hle⟩ := h.ownsRange hn hallow
        simp only [next, Pmm.pmmFreePages_eq hlow hallow.1 hpos hle fun j hj hj' =>
          (h.owned (hallow.2 j hj hj')).2.2.2]
        exact inv_release h hallow.2
    · simp only [next, Pmm.pmmFreePages_high hlow h.max]
      exact inv_forget h _ _

end

/-! ## Whole runs -/

/-- Right after `pmm_init`: nothing is allocated. -/
def start (e820 : List MemE820Entry) : PageRuns := ⟨Pmm.pmmInit e820, []⟩

theorem start_pmm (e820 : List MemE820Entry) : (start e820).pmm = Pmm.pmmInit e820 := by
  unfold start
  dsimp only

theorem inv_of_ready {total : Nat} {p : Pmm} (h : Pmm.Ready total p) (hnull : p.bitmap 0 = true)
    (hmax : total ≤ pmmMaxPages) : Inv p ⟨p, []⟩ := by
  have hacc := h.accounted
  refine ⟨⟨⟨rfl, ?_, .nil, ?_⟩, fun _ _ hb => hb, fun _ => hnull⟩, hacc, hnull, hnull, ?_⟩
  · unfold Pmm.Accounted at hacc
    show p.totalPages - p.freeCount = countBelow p.totalPages p.bitmap
    omega
  · rintro i ⟨r, hr, _⟩
    cases hr
  · show p.totalPages ≤ pmmMaxPages
    rw [h.total_eq]
    exact hmax

theorem inv_start (e820 : List MemE820Entry) : Inv (Pmm.pmmInit e820) (start e820) :=
  inv_of_ready (Pmm.ready_pmmInit e820) (Pmm.pmmInit_zero e820) (Pmm.pmmTotalPages_le e820)

/-- **The loader's page manager over whole runs.** From `pmm_init` on any memory map, along every history
of allocations that begin below 4 GB and of releases of allocated ranges, the counter counts the clear
bits, the allocated runs are disjoint, every answer is fresh, DMA runs lie below 16 MB, and neither page 0
nor a page that `pmm_init` left reserved is ever handed out. -/
theorem pagesSound_history (e820 : List MemE820Entry) {tr : List (PageCall × PageRuns)}
    (htr : Trace Step (start e820) tr) (hreach : Guarded (fun s call => s.Addressable call) (start e820) tr) :
    PagesSound (Pmm.pmmInit e820) (start e820) ∧
      AllSteps (fun s call t => PagesSound (Pmm.pmmInit e820) t ∧ AllocSound (Pmm.pmmInit e820) s call)
        (start e820) tr := by
  refine ⟨(inv_start e820).pagesSound, ?_⟩
  refine htr.allSteps_of_guarded (I := Inv (Pmm.pmmInit e820)) ?_ (inv_start e820) hreach
  rintro s call _ hs ⟨hallow, rfl⟩ hreach
  obtain ⟨hinv, hanswer⟩ := pages_step hs hallow hreach
  exact ⟨hinv, hinv.pagesSound, hanswer⟩

theorem reachable_of_le {s : PageRuns} (h : s.pmm.totalPages ≤ 2 ^ 20) {n : Nat} (hn : 0 < n) :
    s.Reachable s.pmm.totalPages n := by
  intro first hrun
  have hle := hrun.1.1
  have hlt : first < 2 ^ 20 := by omega
  exact Nat.mul_lt_mul_of_pos_right hlt (by decide)

/-- Four pages of memory from 64 KB on. -/
def smallMap : List MemE820Entry := [{ base := 0x10000, len := 0x4000, type := e820TypeUsable }]

/-- A page and a DMA buffer are allocated, the page is given back, and three pages do not fit. -/
theorem smallMap_sound : PagesSound (Pmm.pmmInit smallMap) (start smallMap) ∧
      AllSteps (fun s call t => PagesSound (Pmm.pmmInit smallMap) t ∧
          AllocSound (Pmm.pmmInit smallMap) s call) (start smallMap) (traceOf next (start smallMap)
          [.allocPage, .allocDma 0x1800, .freePage 0x10000, .allocPages 3]) := by
  have hlive : (((start smallMap).next .allocPage).next (.allocDma 0x1800)).live =
      [(17, 2), (16, 1)] := by decide +kernel
  refine pagesSound_history smallMap
    (.cons ⟨trivial, rfl⟩ (.cons ⟨trivial, rfl⟩ (.cons ⟨⟨by decide, fun i hi hi' => ?_⟩, rfl⟩
      (.cons ⟨trivial, rfl⟩ (.nil _)))))
    ⟨reachable_of_le (by decide) (by decide), trivial, trivial,
      reachable_of_le (by decide +kernel) (by decide), trivial⟩
  refine ⟨(16, 1), ?_, hi, hi'⟩
  rw [hlive]
  exact List.mem_cons_of_mem _ (List.mem_singleton.mpr rfl)

/-- Memory from the second page above 4 GB on. -/
def highMap : List MemE820Entry := [{ base := 0x100001000, len := 0x4000, type := e820TypeUsable }]

theorem highMap_lowest : LowestRun (Pmm.pmmInit highMap).bitmap (Pmm.pmmInit highMap).totalPages 1 0x100001 := by
  have htotal : (Pmm.pmmInit highMap).totalPages = 0x100005 := by
    rw [(Pmm.ready_pmmInit highMap).total_eq]
    decide
  have hfrees : ∀ i, (∃ e ∈ highMap, e.Frees i) ↔ 0x100001 ≤ i ∧ i < 0x100005 := fun i => by
    have hstart : Pmm.freeStart 0x100001000 = 0x100001 := by decide
    have hend : Pmm.freeEnd 0x100001000 0x4000 = 0x100005 := by decide
    simp only [highMap, List.mem_singleton, exists_eq_left, MemE820Entry.Frees, true_and]
    show Pmm.freeStart 0x100001000 ≤ i ∧ i < Pmm.freeEnd 0x100001000 0x4000 ↔ _
    rw [hstart, hend]
  refine ⟨⟨by rw [htotal]; decide, fun i hi hi' => ?_⟩, fun t ht hrun => ?_⟩
  · refine pmmInit_free ?_ ?_ (fun e he hres => ?_) ((hfrees i).mpr ⟨hi, by omega⟩)
    · rw [← (Pmm.ready_pmmInit highMap).total_eq, htotal]
      omega
    · -- the fixed regions end at 1 MB
      rintro ⟨r, hr, a, _, ha, rfl⟩
      have hbound : ∀ r ∈ Pmm.biosRegions ++ Pmm.loaderRegions, r.2 ≤ 0x100000 := by decide
      have := hbound r hr
      unfold pageSize at hi
      omega
    · obtain rfl := List.mem_singleton.mp he
      exact hres.1 rfl
  · have hclear := hrun.2 t (Nat.le_refl t) (Nat.lt_succ_self t)
    have hused : (Pmm.pmmInit highMap).bitmap t = true := by
      refine pmmInit_used fun e he hf => ?_
      have := (hfrees t).mp ⟨e, he, hf⟩
      omega
    rw [hclear] at hused
    cases hused

/-- The page at 4 GB and 4 KB is handed out as page 1, which `pmm_init` reserves for the loader. -/
theorem high_page_aliased : (Pmm.pmmInit highMap).pmmAllocPage.1 = 0x1000 ∧ (Pmm.pmmInit highMap).bitmap 1 = true ∧
      ¬ ∀ (e820 : List MemE820Entry) (tr : List (PageCall × PageRuns)), Trace Step (start e820) tr →
        AllSteps (fun s call t => PagesSound (Pmm.pmmInit e820) t ∧
          AllocSound (Pmm.pmmInit e820) s call) (start e820) tr := by
  have hpmm := start_pmm highMap
  have hinv := inv_start highMap
  have hnull := hinv.null
  have hmax := hinv.max
  rw [hpmm] at hnull hmax
  have hresult : (Pmm.pmmInit highMap).pmmAllocPage.1 = 0x1000 := by
    rcases Pmm.pmmAllocPage_cases hnull hmax with ⟨t, _, hrun, h⟩ | ⟨hnone, _⟩
    · obtain rfl : t = 0x100001 := hrun.unique highMap_lowest
      rw [h]
      decide
    · exact absurd highMap_lowest.1 (hnone _)
  have hused : (Pmm.pmmInit highMap).bitmap 1 = true :=
    pmmInit_occupied ⟨(0x0600, 0x7C00), by decide, 0x1000, by decide, by decide, by decide⟩
  refine ⟨hresult, hused, fun hall => ?_⟩
  have hsound := (hall highMap _ (.cons ⟨trivial, rfl⟩ (.nil _) :
    Trace Step (start highMap) [(.allocPage, (start highMap).next .allocPage)])).1.2
  unfold AllocSound at hsound
  rw [hpmm, hresult] at hsound
  rcases hsound with hzero | ⟨first, hfirst, _, _, hfresh⟩
  · cases hzero
  · have h4096 : (0x1000 : UInt32).toNat = 4096 := rfl
    rw [h4096] at hfirst
    unfold pageSize at hfirst
    have hfree := (hfresh 1 (by omega) (by omega)).1
    rw [hused] at hfree
    cases hfree

end PageRuns

end Chicago95.Stage2
