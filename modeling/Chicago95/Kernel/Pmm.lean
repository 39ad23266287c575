/-
# Chicago95.Kernel.Pmm — the physical page manager of `kmalloc.c`.

One bitmap bit per physical page (`true` = in use), a page count, and a running count of used pages.
`pmm_alloc_page` takes the lowest free page, `pmm_free_page` clears the bit of a page that is in
range and in use and ignores any other address. `0` is the null pointer throughout.
-/
import Chicago95.Lib.Counting
import Mathlib.Algebra.Group.Nat.Defs
import Mathlib.Tactic.Common

namespace Chicago95.Kernel

open Chicago95.Lib.Counting
open Function (update_of_ne update_self update)

def pageSize : Nat := 4096

/-- `pmm_bitmap`, `pmm_total_pages`, `pmm_used_pages`. -/
structure Pmm where
  bitmap : Nat → Bool
  totalPages : Nat
  usedPages : Nat

namespace Pmm

/-- `pmm_alloc_page`: the lowest clear bit, set and counted; the page's address, or `0`. -/
def pmmAllocPage (p : Pmm) : Nat × Pmm :=
  match (List.range p.totalPages).find? (fun i => !p.bitmap i) with
  | some i =>
    (i * pageSize,
      { p with bitmap := update p.bitmap i true, usedPages := p.usedPages + 1 })
  | none => (0, p)

def pmmFreePage (p : Pmm) (addr : Nat) : Pmm :=
  let pg := addr / pageSize
  if pg < p.totalPages ∧ p.bitmap pg = true then
    { p with bitmap := update p.bitmap pg false, usedPages := p.usedPages - 1 }
  else p

def pmmGetFreePages (p : Pmm) : Nat := p.totalPages - p.usedPages

/-- `t` is the address of a page the manager would still hand out. -/
def Free (p : Pmm) (t : Nat) : Prop :=
  ∃ i, i < p.totalPages ∧ p.bitmap i = false ∧ t = i * pageSize

/-- `t` is the address of a page that is managed and taken. -/
def Used (p : Pmm) (t : Nat) : Prop :=
  ∃ i, i < p.totalPages ∧ p.bitmap i = true ∧ t = i * pageSize

/-- The number of pages still free. -/
def freeCount (p : Pmm) : Nat := (List.range p.totalPages).countP fun i => !p.bitmap i

theorem mul_pageSize_inj {i j : Nat} (h : i * pageSize = j * pageSize) : i = j :=
  Nat.eq_of_mul_eq_mul_right (by decide) h

theorem Used.not_free {p : Pmm} {t : Nat} (h : p.Used t) : ¬ p.Free t := by
  rintro ⟨j, _, hj, hjt⟩
  obtain ⟨i, _, hi, hit⟩ := h
  have hij : i = j := mul_pageSize_inj (hit.symm.trans hjt)
  rw [hij, hj] at hi
  exact Bool.false_ne_true hi

theorem Used.dvd {p : Pmm} {t : Nat} (h : p.Used t) : pageSize ∣ t := by
  obtain ⟨i, _, _, rfl⟩ := h
  exact Nat.dvd_mul_left _ _

theorem Free.dvd {p : Pmm} {t : Nat} (h : p.Free t) : pageSize ∣ t := by
  obtain ⟨i, _, _, rfl⟩ := h
  exact Nat.dvd_mul_left _ _

/-! ## Allocation -/

theorem pmmAllocPage_cases (p : Pmm) :
    ((∀ t, ¬ p.Free t) ∧ p.pmmAllocPage = (0, p)) ∨
    ∃ i, i < p.totalPages ∧ p.bitmap i = false ∧ (∀ j, j < i → p.bitmap j = true) ∧
      p.pmmAllocPage =
        (i * pageSize,
          { p with bitmap := update p.bitmap i true, usedPages := p.usedPages + 1 }) := by
  unfold pmmAllocPage
  cases h : (List.range p.totalPages).find? (fun i => !p.bitmap i) with
  | none =>
    refine Or.inl ⟨?_, rfl⟩
    rintro t ⟨i, hi, hb, _⟩
    rw [List.find?_eq_none] at h
    exact h i (List.mem_range.mpr hi) (by simp [hb])
  | some i =>
    obtain ⟨hb, as, bs, hsplit, hbefore⟩ := List.find?_eq_some_iff_append.mp h
    have hmem : i ∈ List.range p.totalPages := List.mem_of_find?_eq_some h
    refine Or.inr ⟨i, List.mem_range.mp hmem, by simpa using hb, fun j hj => ?_, rfl⟩
    -- the part of the range before `i` is exactly the smaller indices
    have hlen : as.length = i := by
      have hget : (List.range p.totalPages)[as.length]? = some i := by
        rw [hsplit]; simp
      exact (List.getElem?_range (by
        have := congrArg List.length hsplit
        simp only [List.length_range, List.length_append, List.length_cons] at this
        omega)).symm.trans hget |> Option.some.inj
    have hjas : j ∈ as := by
      have hjlt : j < as.length := by omega
      have hget : (List.range p.totalPages)[j]? = some j :=
        List.getElem?_range (by have := List.mem_range.mp hmem; omega)
      rw [hsplit, List.getElem?_append_left hjlt] at hget
      exact List.mem_of_getElem? hget
    simpa using hbefore j hjas

theorem pmmAllocPage_totalPages (p : Pmm) : p.pmmAllocPage.2.totalPages = p.totalPages := by
  rcases p.pmmAllocPage_cases with ⟨_, h⟩ | ⟨i, _, _, _, h⟩ <;> rw [h]

theorem free_of_pmmAllocPage {p : Pmm} (h : p.pmmAllocPage.1 ≠ 0) : p.Free p.pmmAllocPage.1 := by
  rcases p.pmmAllocPage_cases with ⟨_, h'⟩ | ⟨i, hi, hb, _, h'⟩
  · rw [h'] at h; exact absurd rfl h
  · rw [h']; exact ⟨i, hi, hb, rfl⟩

theorem free_pmmAllocPage_iff (p : Pmm) (t : Nat) : p.pmmAllocPage.2.Free t ↔ p.Free t ∧ t ≠ p.pmmAllocPage.1 := by
  rcases p.pmmAllocPage_cases with ⟨hnone, h⟩ | ⟨i, hi, hb, _, h⟩
  · rw [h]
    exact ⟨fun ht => absurd ht (hnone t), fun ht => ht.1⟩
  · rw [h]
    constructor
    · rintro ⟨j, hj, hbj, rfl⟩
      have hne : j ≠ i := by
        rintro rfl
        simp at hbj
      refine ⟨⟨j, hj, by simpa [hne] using hbj, rfl⟩, fun heq => hne (mul_pageSize_inj heq)⟩
    · rintro ⟨⟨j, hj, hbj, rfl⟩, hne⟩
      have hji : j ≠ i := fun heq => hne (by rw [heq])
      exact ⟨j, hj, by simpa [hji] using hbj, rfl⟩

theorem used_pmmAllocPage {p : Pmm} (h : p.pmmAllocPage.1 ≠ 0) : p.pmmAllocPage.2.Used p.pmmAllocPage.1 := by
  rcases p.pmmAllocPage_cases with ⟨_, h'⟩ | ⟨i, hi, _, _, h'⟩
  · rw [h'] at h; exact absurd rfl h
  · rw [h']; exact ⟨i, hi, by simp, rfl⟩

theorem Used.pmmAllocPage {p : Pmm} {t : Nat} (h : p.Used t) : p.pmmAllocPage.2.Used t := by
  obtain ⟨j, hj, hb, rfl⟩ := h
  rcases p.pmmAllocPage_cases with ⟨_, h'⟩ | ⟨i, _, _, _, h'⟩
  · rw [h']; exact ⟨j, hj, hb, rfl⟩
  · rw [h']
    refine ⟨j, hj, ?_, rfl⟩
    by_cases hji : j = i
    · simp [hji]
    · simpa [hji] using hb

theorem pmmAllocPage_ne_zero {p : Pmm} (h0 : ¬ p.Free 0) {t : Nat} (ht : p.Free t) : p.pmmAllocPage.1 ≠ 0 := by
  rcases p.pmmAllocPage_cases with ⟨hnone, _⟩ | ⟨i, hi, hb, _, h'⟩
  · exact absurd ht (hnone t)
  · rw [h']
    intro hzero
    exact h0 ⟨i, hi, hb, hzero.symm⟩

/-! ## Release -/

theorem pmmFreePage_totalPages (p : Pmm) (a : Nat) : (p.pmmFreePage a).totalPages = p.totalPages := by
  unfold pmmFreePage
  dsimp only
  split <;> rfl

theorem pmmFreePage_of_used {p : Pmm} {t : Nat} (h : p.Used t) :
    p.pmmFreePage t =
      { p with bitmap := update p.bitmap (t / pageSize) false,
               usedPages := p.usedPages - 1 } := by
  obtain ⟨i, hi, hb, rfl⟩ := h
  have hdiv : i * pageSize / pageSize = i := Nat.mul_div_cancel i (by decide)
  simp [pmmFreePage, hdiv, hi, hb]

theorem Used.free_pmmFreePage {p : Pmm} {t a : Nat} (h : p.Used t)
    (ha : t = a / pageSize * pageSize) : (p.pmmFreePage a).Free t := by
  obtain ⟨i, hi, hb, rfl⟩ := h
  obtain rfl : i = a / pageSize := mul_pageSize_inj ha
  exact ⟨a / pageSize, by rwa [pmmFreePage_totalPages], by simp [pmmFreePage, hi, hb], rfl⟩

theorem Free.pmmFreePage {p : Pmm} {t : Nat} (h : p.Free t) (a : Nat) : (p.pmmFreePage a).Free t := by
  obtain ⟨i, hi, hb, rfl⟩ := h
  unfold Pmm.pmmFreePage
  dsimp only
  split
  · refine ⟨i, hi, ?_, rfl⟩
    by_cases hia : i = a / pageSize
    · simp [hia]
    · simpa [hia] using hb
  · exact ⟨i, hi, hb, rfl⟩

theorem free_of_pmmFreePage {p : Pmm} {t a : Nat} (h : (p.pmmFreePage a).Free t) :
    p.Free t ∨ t = a / pageSize * pageSize := by
  obtain ⟨i, hi, hb, rfl⟩ := h
  unfold Pmm.pmmFreePage at hi hb
  dsimp only at hi hb
  split at hb
  · rename_i hcond
    rw [if_pos hcond] at hi
    by_cases hia : i = a / pageSize
    · exact Or.inr (by rw [hia])
    · exact Or.inl ⟨i, hi, by simpa [hia] using hb, rfl⟩
  · rename_i hcond
    rw [if_neg hcond] at hi
    exact Or.inl ⟨i, hi, hb, rfl⟩

theorem Used.pmmFreePage_of_ne {p : Pmm} {t a : Nat} (h : p.Used t)
    (hne : t ≠ a / pageSize * pageSize) : (p.pmmFreePage a).Used t := by
  obtain ⟨i, hi, hb, rfl⟩ := h
  unfold Pmm.pmmFreePage
  dsimp only
  split
  · have hia : i ≠ a / pageSize := fun heq => hne (by rw [heq])
    exact ⟨i, hi, by simpa [hia] using hb, rfl⟩
  · exact ⟨i, hi, hb, rfl⟩

/-! ## The page counts -/

/-- Every page is counted once, as used or as free. -/
def Accounted (p : Pmm) : Prop := p.usedPages + p.freeCount = p.totalPages

instance (p : Pmm) : Decidable p.Accounted :=
  inferInstanceAs (Decidable (p.usedPages + p.freeCount = p.totalPages))

theorem Accounted.pmmGetFreePages {p : Pmm} (h : p.Accounted) : p.pmmGetFreePages = p.freeCount := by
  unfold Accounted at h
  unfold Pmm.pmmGetFreePages
  omega

theorem countP_update (bm : Nat → Bool) {i n : Nat} (hi : i < n) (b : Bool) :
    (List.range n).countP (fun j => !update bm i b j) + (!bm i).toNat
      = (List.range n).countP (fun j => !bm j) + (!b).toNat := by
  have h := countP_single (List.nodup_range (n := n)) (List.mem_range.mpr hi)
    (p := fun j => !update bm i b j) (q := fun j => !bm j)
    fun j hj => by rw [update_of_ne hj]
  rwa [update_self] at h

theorem exists_free_of_freeCount {p : Pmm} (h : 0 < p.freeCount) : ∃ t, p.Free t := by
  obtain ⟨i, hi, hb⟩ := List.countP_pos_iff.mp h
  exact ⟨i * pageSize, i, List.mem_range.mp hi, by simpa using hb, rfl⟩

theorem not_free_of_freeCount {p : Pmm} (h : p.freeCount = 0) (t : Nat) : ¬ p.Free t := by
  rintro ⟨i, hi, hb, _⟩
  exact List.countP_eq_zero.mp h i (List.mem_range.mpr hi) (by simp [hb])

theorem freeCount_le {p q : Pmm} (htotal : q.totalPages = p.totalPages)
    (h : ∀ t, p.Free t → q.Free t) : p.freeCount ≤ q.freeCount := by
  unfold freeCount
  rw [htotal]
  refine List.countP_mono_left fun i hi hb => ?_
  obtain ⟨j, _, hj, heq⟩ := h (i * pageSize) ⟨i, List.mem_range.mp hi, by simpa using hb, rfl⟩
  rw [mul_pageSize_inj heq, hj]
  rfl

theorem pmmAllocPage_freeCount (p : Pmm) (h0 : ¬ p.Free 0) : (p.pmmAllocPage = (0, p) ∧ p.freeCount = 0) ∨
    (p.pmmAllocPage.1 ≠ 0 ∧ p.pmmAllocPage.2.freeCount + 1 = p.freeCount ∧
      p.pmmAllocPage.2.usedPages = p.usedPages + 1) := by
  rcases p.pmmAllocPage_cases with ⟨hnone, h⟩ | ⟨i, hi, hb, _, h⟩
  · refine Or.inl ⟨h, ?_⟩
    rcases Nat.eq_zero_or_pos p.freeCount with hz | hpos
    · exact hz
    · obtain ⟨t, ht⟩ := exists_free_of_freeCount hpos
      exact absurd ht (hnone t)
  · have hcount := countP_update p.bitmap hi true
    rw [hb] at hcount
    refine Or.inr ⟨pmmAllocPage_ne_zero h0 ⟨i, hi, hb, rfl⟩, ?_, ?_⟩
    · rw [h]
      exact hcount
    · rw [h]

theorem Accounted.pmmAllocPage {p : Pmm} (h : p.Accounted) (h0 : ¬ p.Free 0) : p.pmmAllocPage.2.Accounted := by
  rcases p.pmmAllocPage_freeCount h0 with ⟨heq, _⟩ | ⟨_, hf, hu⟩
  · rw [heq]
    exact h
  · unfold Accounted at h ⊢
    rw [pmmAllocPage_totalPages]
    omega

theorem freeCount_pmmFreePage {p : Pmm} {t : Nat} (h : p.Used t) : (p.pmmFreePage t).freeCount = p.freeCount + 1 := by
  rw [pmmFreePage_of_used h]
  obtain ⟨i, hi, hb, rfl⟩ := h
  have hcount := countP_update p.bitmap hi false
  rw [hb] at hcount
  rw [Nat.mul_div_cancel i (by decide)]
  exact hcount

theorem Accounted.pmmFreePage {p : Pmm} (h : p.Accounted) (a : Nat) : (p.pmmFreePage a).Accounted := by
  by_cases hcond : a / pageSize < p.totalPages ∧ p.bitmap (a / pageSize) = true
  · have hcount := countP_update p.bitmap hcond.1 false
    rw [hcond.2] at hcount
    have heq : p.pmmFreePage a =
        { p with bitmap := update p.bitmap (a / pageSize) false,
                 usedPages := p.usedPages - 1 } := by
      simp only [Pmm.pmmFreePage, if_pos hcond]
    -- a set bit is a page counted as used
    have hle : p.freeCount < p.totalPages := by
      have hlen : (List.range p.totalPages).countP (fun j =>
          !update p.bitmap (a / pageSize) false j) ≤ p.totalPages := by
        simpa using List.countP_le_length (l := List.range p.totalPages)
          (p := fun j => !update p.bitmap (a / pageSize) false j)
      simp only [Bool.not_true, Bool.toNat_false, Bool.not_false, Bool.toNat_true] at hcount
      unfold freeCount
      omega
    unfold Accounted at h ⊢
    rw [heq]
    simp only [freeCount, Bool.not_true, Bool.toNat_false, Bool.not_false, Bool.toNat_true]
      at h hcount hle ⊢
    omega
  · rw [show p.pmmFreePage a = p by simp only [Pmm.pmmFreePage, if_neg hcond]]
    exact h

end Pmm

end Chicago95.Kernel
