/-
# Chicago95.Kernel.PmmRuns — the page manager over whole histories of allocations and releases.

`pmm_alloc_pages` looks for the lowest run of clear bits long enough and sets them; `pmm_free_page` and
`pmm_free_pages` clear bits. Which runs are allocated is nowhere recorded, so a run of the manager is
watched by a ghost list of them: an allocation adds the run it returns, a release cuts its pages out
(`cut`), and callers release only pages that are allocated.
-/
import Chicago95.Lib.Transition
import Chicago95.Kernel.E820

namespace Chicago95.Kernel

open Chicago95.Lib.Counting Chicago95.Lib.Loop Chicago95.Lib.Bitmap Chicago95.Lib.Transition

namespace Pmm

/-! ## Runs of pages -/

def pmmFindContiguous (p : Pmm) (count : Nat) : Option Nat :=
  scanRun p.bitmap count p.totalPages 0 0 0

def pmmAllocPages (p : Pmm) (count : Nat) : Nat × Pmm :=
  if count = 0 then (0, p)
  else if count = 1 then p.pmmAllocPage
  else
    match p.pmmFindContiguous count with
    | none => (0, p)
    | some start =>
      (start * pageSize,
        forEach count (fun i p =>
          { p with bitmap := Function.update p.bitmap (start + i) true,
                   usedPages := p.usedPages + 1 }) p)

def pmmFreePages (p : Pmm) (addr count : Nat) : Pmm :=
  let pg := addr / pageSize
  forEach count (fun i p =>
    if pg + i < p.totalPages ∧ p.bitmap (pg + i) = true then
      { p with bitmap := Function.update p.bitmap (pg + i) false, usedPages := p.usedPages - 1 }
    else p) p

/-- The manager with `n` pages from `s` on taken. -/
def take (p : Pmm) (s n : Nat) : Pmm :=
  { p with bitmap := fill p.bitmap s n true, usedPages := p.usedPages + n }

/-- The manager with `n` pages from `s` on given back. -/
def release (p : Pmm) (s n : Nat) : Pmm :=
  { p with bitmap := fill p.bitmap s n false, usedPages := p.usedPages - n }

@[simp] theorem take_totalPages (p : Pmm) (s n : Nat) : (p.take s n).totalPages = p.totalPages := rfl
@[simp] theorem release_totalPages (p : Pmm) (s n : Nat) : (p.release s n).totalPages = p.totalPages := rfl

theorem take_loop (p : Pmm) (s n : Nat) :
    forEach n (fun i p =>
      { p with bitmap := Function.update p.bitmap (s + i) true,
               usedPages := p.usedPages + 1 }) p = p.take s n := by
  induction n with
  | zero => simp [take]
  | succ n ih =>
    rw [forEach_succ, ih]
    simp only [take, fill_succ, Nat.add_assoc]

theorem release_loop (p : Pmm) {s n : Nat} (hle : s + n ≤ p.totalPages)
    (h : ∀ i, s ≤ i → i < s + n → p.bitmap i = true) :
    forEach n (fun i p =>
      if s + i < p.totalPages ∧ p.bitmap (s + i) = true then
        { p with bitmap := Function.update p.bitmap (s + i) false, usedPages := p.usedPages - 1 }
      else p) p = p.release s n := by
  induction n with
  | zero => simp [release]
  | succ n ih =>
    have hbit : fill p.bitmap s n false (s + n) = true := by
      rw [fill_of_not_mem (by omega)]
      exact h _ (by omega) (by omega)
    have hcond : s + n < (p.release s n).totalPages ∧ (p.release s n).bitmap (s + n) = true :=
      ⟨by rw [release_totalPages]; omega, hbit⟩
    rw [forEach_succ, ih (by omega) fun i hi hi' => h i hi (by omega), if_pos hcond]
    simp only [release, fill_succ]
    rfl

theorem pmmFreePages_eq (p : Pmm) {addr n : Nat} (hle : addr / pageSize + n ≤ p.totalPages)
    (h : ∀ i, addr / pageSize ≤ i → i < addr / pageSize + n → p.bitmap i = true) :
    p.pmmFreePages addr n = p.release (addr / pageSize) n := p.release_loop hle h

theorem pmmFreePage_eq (p : Pmm) {addr : Nat} (hle : addr / pageSize < p.totalPages)
    (h : p.bitmap (addr / pageSize) = true) : p.pmmFreePage addr = p.release (addr / pageSize) 1 := by
  simp only [pmmFreePage, if_pos (And.intro hle h), release, fill_succ, fill_zero, Nat.add_zero]

theorem pmmAllocPages_cases (p : Pmm) {n : Nat} (hn : 0 < n) : (∃ s, LowestRun p.bitmap p.totalPages n s ∧
      p.pmmAllocPages n = (s * pageSize, p.take s n)) ∨
    ((∀ s, ¬ ClearRun p.bitmap p.totalPages n s) ∧ p.pmmAllocPages n = (0, p)) := by
  unfold pmmAllocPages
  rw [if_neg (Nat.pos_iff_ne_zero.mp hn)]
  by_cases h1 : n = 1
  · subst h1
    rw [if_pos rfl]
    rcases p.pmmAllocPage_cases with ⟨hnone, h⟩ | ⟨i, hi, hb, hlow, h⟩
    · refine Or.inr ⟨fun s hs => hnone (s * pageSize) ⟨s, ?_, ?_, rfl⟩, h⟩
      · exact hs.1
      · exact hs.2 s (Nat.le_refl s) (Nat.lt_succ_self s)
    · refine Or.inl ⟨i, ⟨⟨hi, fun j hj hj' => ?_⟩, fun t ht hrun => ?_⟩, ?_⟩
      · obtain rfl : j = i := by omega
        exact hb
      · have hclear := hrun.2 t (Nat.le_refl t) (Nat.lt_succ_self t)
        rw [hlow t ht] at hclear
        cases hclear
      · rw [h]
        simp only [take, fill_succ, fill_zero, Nat.add_zero]
  · rw [if_neg h1]
    rcases scanRun_spec (Nat.zero_add p.totalPages) (show Lib.Bitmap.Scanned p.bitmap p.totalPages n 0 0 0 from scanned_zero hn) with
      ⟨s, hs, h⟩ | ⟨hnone, h⟩
    · exact Or.inl ⟨s, hs, by simp only [pmmFindContiguous, h, take_loop]⟩
    · exact Or.inr ⟨hnone, by simp only [pmmFindContiguous, h]⟩

theorem pmmAllocPage_eq_pages (p : Pmm) : p.pmmAllocPage = p.pmmAllocPages 1 := by
  simp [pmmAllocPages]

theorem countBelow_add_freeCount (p : Pmm) : countBelow p.totalPages p.bitmap + p.freeCount = p.totalPages := by
  have h := List.length_eq_countP_add_countP (p := p.bitmap) (l := List.range p.totalPages)
  rw [List.length_range] at h
  simp only [countBelow, freeCount]
  simp at h
  exact h.symm

theorem pmmAllocPages_takes (p : Pmm) (n : Nat) :
    (∀ t, (p.pmmAllocPages n).2.Free t → p.Free t) ∧ (∀ t, p.Used t → (p.pmmAllocPages n).2.Used t) ∧
      (p.Accounted → (p.pmmAllocPages n).2.Accounted) := by
  rcases Nat.eq_zero_or_pos n with rfl | hn
  · exact ⟨fun t ht => ht, fun t ht => ht, fun h => h⟩
  rcases p.pmmAllocPages_cases hn with ⟨s, ⟨hrun, _⟩, h⟩ | ⟨_, h⟩
  · rw [h]
    refine ⟨?_, ?_, fun hacc => ?_⟩
    · rintro t ⟨i, hi, hb, rfl⟩
      refine ⟨i, hi, ?_, rfl⟩
      by_cases hin : s ≤ i ∧ i < s + n
      · exact hrun.2 i hin.1 hin.2
      · exact (fill_of_not_mem hin).symm.trans hb
    · rintro t ⟨i, hi, hb, rfl⟩
      refine ⟨i, hi, ?_, rfl⟩
      by_cases hin : s ≤ i ∧ i < s + n
      · exact fill_of_mem hin
      · exact (fill_of_not_mem hin).trans hb
    · have hcount := countBelow_fill_true hrun
      have hold := p.countBelow_add_freeCount
      have hnew := (p.take s n).countBelow_add_freeCount
      simp only [Accounted, take] at hacc hnew ⊢
      omega
  · rw [h]
    exact ⟨fun t ht => ht, fun t ht => ht, fun h => h⟩
end Pmm

/-! ## Histories -/

/-- Page `i` lies in the run: its first page and its length. -/
def InRun (r : Nat × Nat) (i : Nat) : Prop := r.1 ≤ i ∧ i < r.1 + r.2

/-- What is left of a run when `n` pages from `s` on are given back: what lies before and after. -/
def cut (s n : Nat) (r : Nat × Nat) : List (Nat × Nat) :=
  [(r.1, min r.2 (s - r.1)), (max r.1 (s + n), r.1 + r.2 - max r.1 (s + n))]

/-- The page manager with the runs that are allocated. -/
structure PageRuns where
  pmm : Pmm
  live : List (Nat × Nat)

/-- The calls of the manager's interface. -/
inductive PageCall where
  | allocPage
  | allocPages (count : Nat)
  | freePage (addr : Nat)
  | freePages (addr count : Nat)

namespace PageRuns

/-- Page `i` is allocated. -/
def Owns (s : PageRuns) (i : Nat) : Prop := ∃ r ∈ s.live, InRun r i

/-- A run of `count` pages was returned, unless the result is null. -/
def allocated (s : PageRuns) (count : Nat) (result : Nat × Pmm) : PageRuns :=
  { pmm := result.2
    live := if result.1 = 0 then s.live else (result.1 / pageSize, count) :: s.live }

/-- One call. -/
def next (s : PageRuns) : PageCall → PageRuns
  | .allocPage => s.allocated 1 s.pmm.pmmAllocPage
  | .allocPages count => s.allocated count (s.pmm.pmmAllocPages count)
  | .freePage addr => { pmm := s.pmm.pmmFreePage addr, live := s.live.flatMap (cut (addr / pageSize) 1) }
  | .freePages addr count =>
    { pmm := s.pmm.pmmFreePages addr count
      live := s.live.flatMap (cut (addr / pageSize) count) }

/-- Only pages that are allocated are given back. -/
def Allowed (s : PageRuns) : PageCall → Prop
  | .freePage addr => s.Owns (addr / pageSize)
  | .freePages addr count => ∀ i, addr / pageSize ≤ i → i < addr / pageSize + count → s.Owns i
  | _ => True

/-- One step of a history. -/
def Step (s : PageRuns) (call : PageCall) (t : PageRuns) : Prop := s.Allowed call ∧ t = s.next call

/-- **The state of the manager.** The counter counts the set bits, and the allocated runs are pairwise
disjoint, below `pmm_total_pages`, and made of pages that are taken now and were free at the start. -/
structure PagesSound (init : Pmm) (s : PageRuns) : Prop where
  total_eq : s.pmm.totalPages = init.totalPages
  counted : s.pmm.usedPages = countBelow s.pmm.totalPages s.pmm.bitmap
  apart : s.live.Pairwise fun r q => ∀ i, ¬(InRun r i ∧ InRun q i)
  owned : ∀ i, s.Owns i →
    i < init.totalPages ∧ init.bitmap i = false ∧ s.pmm.bitmap i = true

/-- An allocation of `n` pages answers with the lowest run of `n` clear pages, and with null exactly
when there is none. -/
def AnswersLowest (s : PageRuns) (n result : Nat) : Prop :=
  (∀ t, LowestRun s.pmm.bitmap s.pmm.totalPages n t → result = t * pageSize) ∧
  (result = 0 ↔ ∀ t, ¬ ClearRun s.pmm.bitmap s.pmm.totalPages n t)

/-- What the call returns, for the two allocations. -/
def AllocExact (s : PageRuns) : PageCall → Prop
  | .allocPage => s.AnswersLowest 1 s.pmm.pmmAllocPage.1
  | .allocPages n => 0 < n → s.AnswersLowest n (s.pmm.pmmAllocPages n).1
  | _ => True

/-- What a history keeps besides: a clear bit was clear at the start, and page 0 is never clear. -/
structure Inv (init : Pmm) (s : PageRuns) : Prop where
  sound : PagesSound init s
  cleared : ∀ i, i < init.totalPages → s.pmm.bitmap i = false → init.bitmap i = false
  null : 0 < init.totalPages → init.bitmap 0 = true

section

variable {init : Pmm} {s : PageRuns}

theorem mem_cut_iff {a n i : Nat} {r : Nat × Nat} :
    (∃ q ∈ cut a n r, InRun q i) ↔ InRun r i ∧ ¬(a ≤ i ∧ i < a + n) := by
  simp only [cut, List.mem_cons, List.not_mem_nil, or_false, exists_eq_or_imp, exists_eq_left,
    InRun]
  omega

theorem owns_cut_iff {a n i : Nat} : (∃ q ∈ s.live.flatMap (cut a n), InRun q i) ↔ s.Owns i ∧ ¬(a ≤ i ∧ i < a + n) := by
  constructor
  · rintro ⟨q, hq, hi⟩
    obtain ⟨r, hr, hqr⟩ := List.mem_flatMap.mp hq
    obtain ⟨hri, hout⟩ := mem_cut_iff.mp ⟨q, hqr, hi⟩
    exact ⟨⟨r, hr, hri⟩, hout⟩
  · rintro ⟨⟨r, hr, hi⟩, hout⟩
    obtain ⟨q, hq, hqi⟩ := mem_cut_iff.mpr ⟨hi, hout⟩
    exact ⟨q, List.mem_flatMap.mpr ⟨r, hr, hq⟩, hqi⟩

theorem apart_cut (a n : Nat) {l : List (Nat × Nat)} (h : l.Pairwise fun r q => ∀ i, ¬(InRun r i ∧ InRun q i)) :
    (l.flatMap (cut a n)).Pairwise fun r q => ∀ i, ¬(InRun r i ∧ InRun q i) := by
  rw [List.pairwise_flatMap]
  refine ⟨fun r _ => ?_, h.imp fun hrq x hx y hy i hi => ?_⟩
  · simp only [cut, List.pairwise_cons, List.mem_singleton, forall_eq, List.not_mem_nil,
      false_implies, implies_true, List.Pairwise.nil, and_true, InRun]
    omega
  · exact hrq i ⟨(mem_cut_iff.mp ⟨x, hx, hi.1⟩).1, (mem_cut_iff.mp ⟨y, hy, hi.2⟩).1⟩

theorem inv_take (h : Inv init s) {n t : Nat} (hrun : ClearRun s.pmm.bitmap s.pmm.totalPages n t) :
    Inv init { pmm := s.pmm.take t n, live := (t, n) :: s.live } where
  sound :=
    { total_eq := h.sound.total_eq
      counted := by
        have hcount := countBelow_fill_true hrun
        show s.pmm.usedPages + n = countBelow s.pmm.totalPages (fill s.pmm.bitmap t n true)
        rw [hcount, h.sound.counted]
      apart := by
        refine List.pairwise_cons.mpr ⟨fun q hq i hi => ?_, h.sound.apart⟩
        -- a page of the new run was clear, one of an older run is taken
        have htaken := (h.sound.owned i ⟨q, hq, hi.2⟩).2.2
        rw [hrun.2 i hi.1.1 hi.1.2] at htaken
        cases htaken
      owned := by
        rintro i ⟨r, hr, hi⟩
        rcases List.mem_cons.mp hr with rfl | hr
        · have hlt : i < init.totalPages := by
            have := hrun.1
            rw [← h.sound.total_eq]
            exact Nat.lt_of_lt_of_le hi.2 this
          exact ⟨hlt, h.cleared i hlt (hrun.2 i hi.1 hi.2), fill_of_mem hi⟩
        · obtain ⟨hlt, hfree, htaken⟩ := h.sound.owned i ⟨r, hr, hi⟩
          refine ⟨hlt, hfree, ?_⟩
          show fill s.pmm.bitmap t n true i = true
          by_cases hin : t ≤ i ∧ i < t + n
          · exact fill_of_mem hin
          · rw [fill_of_not_mem hin]
            exact htaken }
  cleared i hi hb := by
    refine h.cleared i hi ?_
    by_cases hin : t ≤ i ∧ i < t + n
    · have : fill s.pmm.bitmap t n true i = true := fill_of_mem hin
      rw [show fill s.pmm.bitmap t n true i = false from hb] at this
      cases this
    · exact (fill_of_not_mem hin).symm.trans hb
  null := h.null

theorem inv_release (h : Inv init s) {a n : Nat} (hown : ∀ i, a ≤ i → i < a + n → s.Owns i) :
    Inv init { pmm := s.pmm.release a n, live := s.live.flatMap (cut a n) } where
  sound :=
    { total_eq := h.sound.total_eq
      counted := by
        rcases Nat.eq_zero_or_pos n with rfl | hn
        · simpa [Pmm.release] using h.sound.counted
        · have hlast := (h.sound.owned (a + n - 1) (hown _ (by omega) (by omega))).1
          have hle : a + n ≤ s.pmm.totalPages := by
            rw [h.sound.total_eq]
            omega
          have hcount := countBelow_fill_false hle fun j hj hj' =>
            (h.sound.owned j (hown j hj hj')).2.2
          have hold := h.sound.counted
          show s.pmm.usedPages - n = countBelow s.pmm.totalPages (fill s.pmm.bitmap a n false)
          omega
      apart := apart_cut a n h.sound.apart
      owned := by
        intro i hi
        obtain ⟨hown', hout⟩ := owns_cut_iff.mp hi
        obtain ⟨hlt, hfree, htaken⟩ := h.sound.owned i hown'
        refine ⟨hlt, hfree, ?_⟩
        show fill s.pmm.bitmap a n false i = true
        rw [fill_of_not_mem hout]
        exact htaken }
  cleared i hi hb := by
    by_cases hin : a ≤ i ∧ i < a + n
    · exact (h.sound.owned i (hown i hin.1 hin.2)).2.1
    · exact h.cleared i hi ((fill_of_not_mem hin).symm.trans hb)
  null := h.null

theorem alloc_step (h : Inv init s) {n : Nat} (hn : 0 < n) : Inv init (s.allocated n (s.pmm.pmmAllocPages n)) ∧
      s.AnswersLowest n (s.pmm.pmmAllocPages n).1 := by
  have hps : 0 < pageSize := by decide
  rcases s.pmm.pmmAllocPages_cases hn with ⟨t, hrun, heq⟩ | ⟨hnone, heq⟩
  · -- page 0 is not clear, so the run begins above it
    have hle := hrun.1.1
    have ht : t ≠ 0 := by
      rintro rfl
      have htot : 0 < init.totalPages := by
        rw [← h.sound.total_eq]
        omega
      have hclear := h.cleared 0 htot (hrun.1.2 0 (Nat.le_refl 0) (by omega))
      rw [h.null htot] at hclear
      cases hclear
    have hne : t * pageSize ≠ 0 := Nat.mul_ne_zero ht (Nat.pos_iff_ne_zero.mp hps)
    rw [heq]
    refine ⟨?_, fun u hu => by rw [hrun.unique hu], ?_⟩
    · simp only [allocated, if_neg hne, Nat.mul_div_cancel t hps]
      exact inv_take h hrun.1
    · exact iff_of_false hne fun hall => hall t hrun.1
  · rw [heq]
    refine ⟨?_, fun u hu => absurd hu.1 (hnone u), iff_of_true rfl hnone⟩
    simp only [allocated, if_true]
    exact h

theorem pages_step (h : Inv init s) {call : PageCall} (hallow : s.Allowed call) :
    Inv init (s.next call) ∧ s.AllocExact call := by
  cases call with
  | allocPage =>
    simp only [next, AllocExact, Pmm.pmmAllocPage_eq_pages]
    exact alloc_step h Nat.one_pos
  | allocPages n =>
    rcases Nat.eq_zero_or_pos n with rfl | hn
    · refine ⟨?_, fun hlt => absurd hlt (Nat.lt_irrefl 0)⟩
      simp only [next, allocated, Pmm.pmmAllocPages, if_true]
      exact h
    · obtain ⟨hinv, hans⟩ := alloc_step h hn
      exact ⟨hinv, fun _ => hans⟩
  | freePage addr =>
    obtain ⟨hlt, _, htaken⟩ := h.sound.owned _ hallow
    refine ⟨?_, trivial⟩
    simp only [next]
    rw [Pmm.pmmFreePage_eq _ (by rwa [h.sound.total_eq]) htaken]
    refine inv_release h fun i hi hi' => ?_
    obtain rfl : i = addr / pageSize := by omega
    exact hallow
  | freePages addr n =>
    refine ⟨?_, trivial⟩
    have hrel : s.pmm.pmmFreePages addr n = s.pmm.release (addr / pageSize) n := by
      rcases Nat.eq_zero_or_pos n with rfl | hn
      · simp [Pmm.pmmFreePages, Pmm.release]
      · refine s.pmm.pmmFreePages_eq ?_ fun i hi hi' => (h.sound.owned i (hallow i hi hi')).2.2
        have hlast := (h.sound.owned _ (hallow (addr / pageSize + (n - 1))
          (Nat.le_add_right _ _) (Nat.add_lt_add_left (Nat.sub_lt hn Nat.one_pos) _))).1
        rw [h.sound.total_eq]
        omega
    simp only [next, hrel]
    exact inv_release h hallow

end

/-- Right after `pmm_init`: nothing is allocated. -/
def start (e820 : Nat → E820Entry) : PageRuns := ⟨pmmInit e820, []⟩

theorem inv_start (e820 : Nat → E820Entry) : Inv (pmmInit e820) (start e820) where
  sound :=
    { total_eq := rfl
      counted := pmmInit_used e820
      apart := .nil
      owned := by
        rintro i ⟨r, hr, _⟩
        cases hr }
  cleared i _ hb := hb
  null htot := by
    rcases hb : (pmmInit e820).bitmap 0 with _ | _
    · have hpage := ((pmmInit_bitmap_iff e820 htot).mp hb).1
      exact absurd hpage (by decide)
    · rfl

/-- **The page manager over whole runs.** From `pmm_init` on any memory map, along every history that
gives back only allocated pages, the counter, the bitmap and the allocated runs stay in step, and
every allocation answers with the lowest run of clear pages, or with null when there is none. -/
theorem pagesSound_run (e820 : Nat → E820Entry) {tr : List (PageCall × PageRuns)} (htr : Trace Step (start e820) tr) :
    AllSteps (fun s call t => PagesSound (pmmInit e820) t ∧ s.AllocExact call) (start e820) tr := by
  refine htr.allSteps_of_invariant (I := Inv (pmmInit e820)) ?_ (inv_start e820)
  rintro s call _ hs ⟨hallow, rfl⟩
  obtain ⟨hinv, hexact⟩ := pages_step hs hallow
  exact ⟨hinv, hinv.sound, hexact⟩

/-- Four pages of memory above the first megabyte. -/
def fourPages : Nat → E820Entry := fun i =>
  if i = 0 then { base := 0x100000, length := 0x4000, type := 1 }
  else { base := 0, length := 0, type := 0 }

theorem fourPages_lowest : LowestRun (pmmInit fourPages).bitmap (pmmInit fourPages).totalPages 1 256 := by
  have htotal : 256 < pmmTotalPages fourPages := by decide
  refine ⟨⟨htotal, fun i hi hi' => ?_⟩, fun t ht hrun => ?_⟩
  · obtain rfl : i = 256 := by omega
    rw [pmmInit_bitmap_iff fourPages htotal]
    refine ⟨by decide, 0, by decide, 0x100000, 0x4000, by decide, ?_, ?_⟩ <;> decide
  · have hclear := hrun.2 t (Nat.le_refl t) (Nat.lt_succ_self t)
    have hpage := ((pmmInit_bitmap_iff fourPages (Nat.lt_trans ht htotal)).mp hclear).1
    have h256 : pmmMemStart / pageSize = 256 := rfl
    omega

/-- A page is allocated and given back, and then two are allocated. -/
theorem fourPages_sound :
    AllSteps (fun s call t => PagesSound (pmmInit fourPages) t ∧ s.AllocExact call) (start fourPages)
      (traceOf next (start fourPages) [.allocPage, .freePage 0x100000, .allocPages 2]) := by
  refine pagesSound_run fourPages
    (.cons ⟨trivial, rfl⟩ (.cons ⟨⟨(256, 1), ?_, by decide, by decide⟩, rfl⟩
      (.cons ⟨trivial, rfl⟩ (.nil _))))
  have hexact := (pages_step (inv_start fourPages) (show (start fourPages).Allowed .allocPage from trivial)).2
  have hresult : (pmmInit fourPages).pmmAllocPage.1 = 256 * pageSize := hexact.1 _ fourPages_lowest
  have hlive : ((start fourPages).next .allocPage).live = [(256, 1)] := by
    simp only [next, allocated, start, hresult]
    decide
  rw [hlive]
  exact List.mem_singleton.mpr rfl

end PageRuns

end Chicago95.Kernel
