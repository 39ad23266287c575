/-
# Chicago95.Stage2.E820 — the bitmap `pmm_init` makes of a memory map.

Usable entries free the whole pages inside them and the others reserve every page they touch, so that a
page on the border of two entries should end up used. `OrderIndependent` maps give the same bitmap in
whatever order their entries are listed, and `Covered` ones leave every page used that an entry which is
not usable, the BIOS or the loader touches.
-/
import Chicago95.Stage2.Pmm
import Mathlib.Data.List.Induction

namespace Chicago95.Stage2

open Chicago95.Lib.Loop Chicago95.Lib.Bitmap

/-! ## What an entry does to a page -/

namespace MemE820Entry

/-- The pages a usable entry frees. -/
def Frees (e : MemE820Entry) (i : Nat) : Prop :=
  e.type = e820TypeUsable ∧ Pmm.freeStart e.base.toNat ≤ i ∧ i < Pmm.freeEnd e.base.toNat e.len.toNat

/-- The pages any other entry reserves. -/
def Reserves (e : MemE820Entry) (i : Nat) : Prop :=
  e.type ≠ e820TypeUsable ∧ Pmm.reserveStart e.base.toNat ≤ i ∧
    i < Pmm.reserveEnd e.base.toNat e.len.toNat

/-- A byte of the entry lies in page `i`. -/
def Touches (e : MemE820Entry) (i : Nat) : Prop :=
  ∃ a, e.base.toNat ≤ a ∧ a < e.base.toNat + e.len.toNat ∧ a / pageSize = i

end MemE820Entry

/-- A byte of the regions of phases 4 to 6 lies in page `i`. -/
def Occupied (i : Nat) : Prop :=
  ∃ r ∈ Pmm.biosRegions ++ Pmm.loaderRegions, ∃ a, r.1 ≤ a ∧ a < r.2 ∧ a / pageSize = i

/-- The bitmap depends on the set of entries alone. -/
def OrderIndependent (e820 : List MemE820Entry) : Prop :=
  ∀ other : List MemE820Entry, (∀ e, e ∈ other ↔ e ∈ e820) →
    (Pmm.pmmInit other).bitmap = (Pmm.pmmInit e820).bitmap

/-- Every page that an entry which is not usable touches, or one of the fixed regions, is used. -/
def Covered (e820 : List MemE820Entry) : Prop :=
  ∀ i, i < pmmMaxPages →
    (∃ e ∈ e820, e.type ≠ e820TypeUsable ∧ e.Touches i) ∨ Occupied i →
    (Pmm.pmmInit e820).bitmap i = true

/-- No page below the end of memory and outside the fixed regions that a usable entry frees is reserved
by, or shares a byte with, an entry that is not usable. -/
def Unmixed (e820 : List MemE820Entry) : Prop :=
  ∀ i, i < Pmm.pmmTotalPages e820 → ¬ Occupied i → ∀ u ∈ e820, u.Frees i →
    ∀ r ∈ e820, ¬ r.Reserves i ∧ ¬(r.type ≠ e820TypeUsable ∧ r.Touches i)

namespace Pmm

section

variable {p : Pmm} {i total : Nat} {e : MemE820Entry}

theorem fill_range (p : Pmm) {start stop : Nat} {b : Bool} (hi : i < p.totalPages) :
    fill p.bitmap start (min stop p.totalPages - start) b i = if start ≤ i ∧ i < stop then b else p.bitmap i := by
  unfold fill
  by_cases h : start ≤ i ∧ i < stop
  · rw [if_pos h, if_pos (by omega)]
  · rw [if_neg h, if_neg (by omega)]

theorem applyEntry_of_frees (hi : i < p.totalPages) (h : e.Frees i) : (p.applyEntry e).bitmap i = false := by
  unfold applyEntry
  rw [if_pos h.1, pmmFreeRange_bitmap, fill_range p hi, if_pos h.2]

theorem applyEntry_of_reserves (hi : i < p.totalPages) (h : e.Reserves i) : (p.applyEntry e).bitmap i = true := by
  unfold applyEntry
  rw [if_neg h.1, pmmReserveRange_bitmap, fill_range p hi, if_pos h.2]

theorem applyEntry_used (hi : i < p.totalPages) (h : ¬ e.Frees i) (hp : p.bitmap i = true) :
    (p.applyEntry e).bitmap i = true := by
  unfold applyEntry
  split
  · rename_i htype
    rw [pmmFreeRange_bitmap, fill_range p hi, if_neg fun hr => h ⟨htype, hr⟩, hp]
  · rw [pmmReserveRange_bitmap, fill_range p hi, hp, ite_self]

theorem applyEntry_free (hi : i < p.totalPages) (h : ¬ e.Reserves i) (hp : p.bitmap i = false) :
    (p.applyEntry e).bitmap i = false := by
  unfold applyEntry
  split
  · rw [pmmFreeRange_bitmap, fill_range p hi, hp, ite_self]
  · rename_i htype
    rw [pmmReserveRange_bitmap, fill_range p hi, if_neg fun hr => h ⟨htype, hr⟩, hp]

end

/-! ## What the pass over the map does -/

/-- The manager after phase 3. -/
def afterEntries (e820 : List MemE820Entry) (total : Nat) : Pmm :=
  e820.foldl applyEntry { bitmap := fun _ => true, totalPages := total, freeCount := 0, reservedPages := 0 }

theorem afterEntries_totalPages (e820 : List MemE820Entry) (total : Nat) :
    (afterEntries e820 total).totalPages = total :=
  (foldl_preserves (fun _ e hp => hp.applyEntry e) e820 (ready_allUsed total)).total_eq

theorem afterEntries_concat (e820 : List MemE820Entry) (e : MemE820Entry) (total : Nat) :
    afterEntries (e820 ++ [e]) total = (afterEntries e820 total).applyEntry e := by
  unfold afterEntries
  rw [List.foldl_append]
  rfl

section

variable {total i : Nat}

theorem afterEntries_used (hi : i < total) : ∀ {e820 : List MemE820Entry},
    (∀ e ∈ e820, ¬ e.Frees i) → (afterEntries e820 total).bitmap i = true := by
  intro e820
  induction e820 using List.reverseRecOn with
  | nil => intro _; rfl
  | append_singleton l e ih =>
    intro h
    rw [afterEntries_concat]
    refine applyEntry_used (by rwa [afterEntries_totalPages]) (h e (by simp)) ?_
    exact ih fun e' he' => h e' (List.mem_append_left _ he')

theorem afterEntries_free (hi : i < total) : ∀ {e820 : List MemE820Entry},
    (∀ e ∈ e820, ¬ e.Reserves i) → (∃ e ∈ e820, e.Frees i) → (afterEntries e820 total).bitmap i = false := by
  intro e820
  induction e820 using List.reverseRecOn with
  | nil => rintro _ ⟨e, he, _⟩; cases he
  | append_singleton l e ih =>
    rintro hnone ⟨u, hu, hfrees⟩
    have htotal : i < (afterEntries l total).totalPages := by rwa [afterEntries_totalPages]
    rw [afterEntries_concat]
    rcases List.mem_append.mp hu with hul | hue
    · refine applyEntry_free htotal (hnone e (by simp)) ?_
      exact ih (fun e' he' => hnone e' (List.mem_append_left _ he')) ⟨u, hul, hfrees⟩
    · obtain rfl := List.mem_singleton.mp hue
      exact applyEntry_of_frees htotal hfrees

end

/-! ## The fixed regions -/

theorem reserve_region {first stop i : Nat} (hlt : first < stop) (hstop : stop ≤ 2 ^ 32) :
    (reserveStart first ≤ i ∧ i < reserveEnd first (stop - first)) ↔ ∃ a, first ≤ a ∧ a < stop ∧ a / pageSize = i := by
  unfold reserveStart reserveEnd pageSize
  constructor
  · rintro ⟨hlo, hhi⟩
    refine ⟨max first (i * 4096), ?_, ?_, ?_⟩ <;> omega
  · rintro ⟨a, hlo, hhi, rfl⟩
    omega

theorem regions_bounds : ∀ r ∈ biosRegions ++ loaderRegions, r.1 < r.2 ∧ r.2 ≤ 2 ^ 32 := by
  decide

theorem reserveRegions_bitmap {i : Nat} : ∀ (l : List (Nat × Nat)) {p : Pmm}, i < p.totalPages →
    (∀ r ∈ l, r.1 < r.2 ∧ r.2 ≤ 2 ^ 32) →
    ((l.foldl (fun p r => p.pmmReserveRange r.1 (r.2 - r.1)) p).bitmap i = true ↔
      (∃ r ∈ l, ∃ a, r.1 ≤ a ∧ a < r.2 ∧ a / pageSize = i) ∨ p.bitmap i = true)
  | [], p, _, _ => by simp
  | r :: l, p, hi, hl => by
      have hr := hl r List.mem_cons_self
      rw [List.foldl_cons, reserveRegions_bitmap l (by rwa [pmmReserveRange_totalPages])
        fun r' hr' => hl r' (List.mem_cons_of_mem _ hr')]
      rw [pmmReserveRange_bitmap, fill_range p hi]
      have hregion := reserve_region (i := i) hr.1 hr.2
      simp only [List.mem_cons, or_and_right, exists_or, exists_eq_left, ← hregion]
      by_cases htouch : reserveStart r.1 ≤ i ∧ i < reserveEnd r.1 (r.2 - r.1)
      · rw [if_pos htouch]
        exact iff_of_true (Or.inr rfl) (Or.inl (Or.inl htouch))
      · rw [if_neg htouch]
        exact or_congr (or_iff_right htouch).symm Iff.rfl

theorem pmmInit_eq (e820 : List MemE820Entry) :
    pmmInit e820 = ((biosRegions ++ loaderRegions).foldl (fun p r => p.pmmReserveRange r.1 (r.2 - r.1))
      (afterEntries e820 (pmmTotalPages e820))).reservePage 0 := by
  unfold pmmInit afterEntries
  rfl

theorem pmmInit_used_iff (e820 : List MemE820Entry) {i : Nat} (hi : i < pmmTotalPages e820) :
    (pmmInit e820).bitmap i = true ↔ Occupied i ∨ (afterEntries e820 (pmmTotalPages e820)).bitmap i = true := by
  have hregions := reserveRegions_bitmap (biosRegions ++ loaderRegions)
    (p := afterEntries e820 (pmmTotalPages e820)) (by rwa [afterEntries_totalPages]) regions_bounds
  rw [pmmInit_eq, reservePage_bitmap]
  by_cases hi0 : i = 0
  · subst hi0
    rw [Function.update_self]
    exact iff_of_true rfl (Or.inl ⟨(0x00000, 0x00400), by decide, 0, by decide, by decide, by decide⟩)
  · rw [Function.update_of_ne hi0]
    exact hregions

/-! ## The extent of memory -/

theorem foldl_highest_le_iff (x : Nat) : ∀ (e820 : List MemE820Entry) (highest : Nat),
    e820.foldl (fun highest e =>
      let stop := (e.base.toNat + e.len.toNat) % 2 ^ 64
      if highest < stop then stop else highest) highest ≤ x ↔
      highest ≤ x ∧ ∀ e ∈ e820, (e.base.toNat + e.len.toNat) % 2 ^ 64 ≤ x
  | [], highest => by simp
  | e :: l, highest => by
      rw [List.foldl_cons, foldl_highest_le_iff x l]
      simp only [List.forall_mem_cons]
      generalize (e.base.toNat + e.len.toNat) % 2 ^ 64 = stop
      split <;> constructor <;> rintro ⟨h1, h2⟩
      · exact ⟨by omega, h1, h2⟩
      · exact ⟨h2.1, h2.2⟩
      · exact ⟨h1, by omega, h2⟩
      · exact ⟨h1, h2.2⟩

theorem pmmTotalPages_congr {e820 other : List MemE820Entry} (h : ∀ e, e ∈ other ↔ e ∈ e820) :
    pmmTotalPages other = pmmTotalPages e820 := by
  have hle : ∀ x, highestAddr other ≤ x ↔ highestAddr e820 ≤ x := fun x => by
    unfold highestAddr
    rw [foldl_highest_le_iff, foldl_highest_le_iff]
    simp only [h]
  have heq : highestAddr other = highestAddr e820 :=
    Nat.le_antisymm ((hle _).mpr (Nat.le_refl _)) ((hle _).mp (Nat.le_refl _))
  unfold pmmTotalPages
  rw [heq]

end Pmm

/-! ## Which maps are safe -/

section

variable {e820 other : List MemE820Entry} {i : Nat}

theorem pmmInit_past_end (h : Pmm.pmmTotalPages e820 ≤ i) : (Pmm.pmmInit e820).bitmap i = true :=
  (Pmm.ready_pmmInit e820).past_end i h

theorem pmmInit_occupied (h : Occupied i) : (Pmm.pmmInit e820).bitmap i = true := by
  rcases Nat.lt_or_ge i (Pmm.pmmTotalPages e820) with hlt | hge
  · exact (Pmm.pmmInit_used_iff e820 hlt).mpr (Or.inl h)
  · exact pmmInit_past_end hge

theorem pmmInit_used (h : ∀ e ∈ e820, ¬ e.Frees i) : (Pmm.pmmInit e820).bitmap i = true := by
  rcases Nat.lt_or_ge i (Pmm.pmmTotalPages e820) with hlt | hge
  · exact (Pmm.pmmInit_used_iff e820 hlt).mpr (Or.inr (Pmm.afterEntries_used hlt h))
  · exact pmmInit_past_end hge

theorem pmmInit_free (hlt : i < Pmm.pmmTotalPages e820) (hocc : ¬ Occupied i)
    (hnone : ∀ e ∈ e820, ¬ e.Reserves i) (h : ∃ e ∈ e820, e.Frees i) : (Pmm.pmmInit e820).bitmap i = false := by
  rcases hb : (Pmm.pmmInit e820).bitmap i with _ | _
  · rfl
  · rcases (Pmm.pmmInit_used_iff e820 hlt).mp hb with hocc' | hused
    · exact absurd hocc' hocc
    · rw [Pmm.afterEntries_free hlt hnone h] at hused
      cases hused

theorem mem_concat_iff {e : MemE820Entry} (he : e ∈ e820) : ∀ e', e' ∈ e820 ++ [e] ↔ e' ∈ e820 := by
  intro e'
  rw [List.mem_append, List.mem_singleton]
  exact ⟨fun h => h.elim id fun h' => h' ▸ he, Or.inl⟩

theorem pmmInit_concat_frees {u : MemE820Entry} (hu : u ∈ e820) (hlt : i < Pmm.pmmTotalPages e820)
    (hocc : ¬ Occupied i) (h : u.Frees i) : (Pmm.pmmInit (e820 ++ [u])).bitmap i = false := by
  have htotal := Pmm.pmmTotalPages_congr (mem_concat_iff hu)
  rcases hb : (Pmm.pmmInit (e820 ++ [u])).bitmap i with _ | _
  · rfl
  · rcases (Pmm.pmmInit_used_iff (e820 ++ [u]) (by rwa [htotal])).mp hb with hocc' | hused
    · exact absurd hocc' hocc
    · rw [Pmm.afterEntries_concat, Pmm.applyEntry_of_frees
        (by rwa [Pmm.afterEntries_totalPages, htotal]) h] at hused
      cases hused

theorem pmmInit_concat_reserves {r : MemE820Entry} (hr : r ∈ e820)
    (hlt : i < Pmm.pmmTotalPages e820) (h : r.Reserves i) : (Pmm.pmmInit (e820 ++ [r])).bitmap i = true := by
  have htotal := Pmm.pmmTotalPages_congr (mem_concat_iff hr)
  refine (Pmm.pmmInit_used_iff (e820 ++ [r]) (by rwa [htotal])).mpr (Or.inr ?_)
  rw [Pmm.afterEntries_concat]
  exact Pmm.applyEntry_of_reserves (by rwa [Pmm.afterEntries_totalPages, htotal]) h

theorem Unmixed.bitmap_congr (h : Unmixed e820) (hset : ∀ e, e ∈ other ↔ e ∈ e820) :
    (Pmm.pmmInit other).bitmap i = (Pmm.pmmInit e820).bitmap i := by
  have htotal := Pmm.pmmTotalPages_congr hset
  rcases Nat.lt_or_ge i (Pmm.pmmTotalPages e820) with hlt | hge
  · by_cases hocc : Occupied i
    · rw [pmmInit_occupied hocc, pmmInit_occupied hocc]
    · by_cases hfree : ∃ u ∈ e820, u.Frees i
      · obtain ⟨u, hu, hfrees⟩ := hfree
        have hnone : ∀ r ∈ e820, ¬ r.Reserves i := fun r hr => (h i hlt hocc u hu hfrees r hr).1
        rw [pmmInit_free hlt hocc hnone ⟨u, hu, hfrees⟩]
        exact pmmInit_free (by rwa [htotal]) hocc (fun r hr => hnone r ((hset r).mp hr))
          ⟨u, (hset u).mpr hu, hfrees⟩
      · have hused : ∀ e ∈ e820, ¬ e.Frees i := fun e he hf => hfree ⟨e, he, hf⟩
        rw [pmmInit_used hused, pmmInit_used fun e he => hused e ((hset e).mp he)]
  · rw [pmmInit_past_end hge, pmmInit_past_end (by rwa [htotal])]

theorem Unmixed.covered (h : Unmixed e820) : Covered e820 := by
  rintro i _ (⟨r, hr, htype, htouch⟩ | hocc)
  · rcases Nat.lt_or_ge i (Pmm.pmmTotalPages e820) with hlt | hge
    · by_cases hocc : Occupied i
      · exact pmmInit_occupied hocc
      · exact pmmInit_used fun u hu hfrees => (h i hlt hocc u hu hfrees r hr).2 ⟨htype, htouch⟩
    · exact pmmInit_past_end hge
  · exact pmmInit_occupied hocc

end

/-- **Which maps are safe.** The bitmap depends on the set of entries alone, with everything that is not
usable marked used, exactly when no page that a usable entry frees is reserved or touched by another
entry. -/
theorem orderIndependent_covered_iff (e820 : List MemE820Entry) :
    OrderIndependent e820 ∧ Covered e820 ↔ Unmixed e820 := by
  constructor
  · rintro ⟨horder, hcovered⟩ i hlt hocc u hu hfrees r hr
    -- the order in which the usable entry comes last
    have hfree := pmmInit_concat_frees hu hlt hocc hfrees
    rw [horder _ (mem_concat_iff hu)] at hfree
    refine ⟨fun hres => ?_, fun htouch => ?_⟩
    · have hused := pmmInit_concat_reserves hr hlt hres
      rw [horder _ (mem_concat_iff hr), hfree] at hused
      cases hused
    · have hmax := Nat.lt_of_lt_of_le hlt (Pmm.pmmTotalPages_le e820)
      have hused := hcovered i hmax (Or.inl ⟨r, hr, htouch⟩)
      rw [hfree] at hused
      cases hused
  · intro h
    exact ⟨fun other hset => funext fun i => h.bitmap_congr hset, h.covered⟩

/-- Sixteen kilobytes of memory from 64 KB on. -/
def usableEntry : MemE820Entry := { base := 0x10000, len := 0x4000, type := e820TypeUsable }

/-- One page in the middle of them that is reserved. -/
def reservedEntry : MemE820Entry := { base := 0x11000, len := 0x1000, type := 2 }

/-- Listed before the usable entry, the reserved one is undone; listed after it, it is not. -/
theorem reserved_page_freed : (Pmm.pmmInit [usableEntry, reservedEntry]).bitmap 17 = true ∧
      (Pmm.pmmInit [reservedEntry, usableEntry]).bitmap 17 = false ∧
      ¬ ∀ e820 : List MemE820Entry, OrderIndependent e820 ∧ Covered e820 := by
  have hfreed : (Pmm.pmmInit [reservedEntry, usableEntry]).bitmap 17 = false := by decide
  refine ⟨by decide, hfreed, fun hall => ?_⟩
  have hused := (hall [reservedEntry, usableEntry]).2 17 (by decide)
    (Or.inl ⟨reservedEntry, by simp, by decide, 0x11000, by decide, by decide, by decide⟩)
  rw [hfreed] at hused
  cases hused

end Chicago95.Stage2
