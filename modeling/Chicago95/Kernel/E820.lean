/-
# Chicago95.Kernel.E820 — the memory map the page manager starts from.

`pmm_init` reads the BIOS memory map (up to 256 entries, ended by an all-zero one), takes the highest
end as the extent of memory, marks every page used, clears the pages of each available entry above
1 MB, and counts what is left.
-/
import Chicago95.Kernel.Pmm
import Chicago95.Lib.Bitmap

namespace Chicago95.Kernel

open Chicago95.Lib.Counting Chicago95.Lib.Loop Chicago95.Lib.Bitmap

/-! ## The map and `pmm_init` -/

/-- `e820_entry_t` -/
structure E820Entry where
  base : UInt64
  length : UInt64
  type : UInt32
  acpi : UInt32 := 0

def e820Avail : UInt32 := 1
def e820Max : Nat := 256
def pmmMaxPages : Nat := 64 * 1024 * 1024 * 1024 / pageSize
def pmmMemStart : Nat := 0x100000

/-- The number of entries: all before the first with neither base nor length. -/
def e820Count (e820 : Nat → E820Entry) : Nat :=
  ((List.range e820Max).find? fun i => (e820 i).base == 0 && (e820 i).length == 0).getD e820Max

def pmmMemEnd (e820 : Nat → E820Entry) : Nat :=
  forEach (e820Count e820) (fun i memEnd =>
    let stop := ((e820 i).base.toNat + (e820 i).length.toNat) % 2 ^ 64
    if memEnd < stop then stop else memEnd) 0

def pmmTotalPages (e820 : Nat → E820Entry) : Nat :=
  if pmmMaxPages < pmmMemEnd e820 / pageSize then pmmMaxPages else pmmMemEnd e820 / pageSize

/-- `start` and `len` of an entry, clamped below `pmm_mem_start`; `none` for an entry that is skipped.
(The subtraction does not borrow: an entry that is not skipped reaches past `pmm_mem_start`.) -/
def E820Entry.clamped (e : E820Entry) : Option (Nat × Nat) :=
  if e.type ≠ e820Avail then none
  else if e.base.toNat < pmmMemStart then
    if (e.base.toNat + e.length.toNat) % 2 ^ 64 ≤ pmmMemStart then none
    else some (pmmMemStart, e.length.toNat - (pmmMemStart - e.base.toNat))
  else some (e.base.toNat, e.length.toNat)

/-- The bits an entry clears. -/
def clearEntry (total : Nat) (e : E820Entry) (bm : Nat → Bool) : Nat → Bool :=
  match e.clamped with
  | none => bm
  | some (start, len) =>
    forEach (len / pageSize) (fun j bm =>
      if start / pageSize + j < total then Function.update bm (start / pageSize + j) false
      else bm) bm

def pmmInit (e820 : Nat → E820Entry) : Pmm :=
  let total := pmmTotalPages e820
  let bitmap := forEach (e820Count e820) (fun i => clearEntry total (e820 i)) fun _ => true
  let bitmap := forEach (pmmMemStart / pageSize) (fun i bm =>
    if i < total then Function.update bm i true else bm) bitmap
  { bitmap := bitmap
    totalPages := total
    usedPages := forEach total (fun i used => if bitmap i then used + 1 else used) 0 }

/-! ## Which pages are free -/

theorem forEach_count (flag : Nat → Bool) (n : Nat) :
    forEach n (fun i used => if flag i then used + 1 else used) 0 = countBelow n flag := by
  induction n with
  | zero => rfl
  | succ n ih =>
    rw [forEach_succ, ih]
    simp only [countBelow, List.range_succ, List.countP_append, List.countP_singleton]
    rcases flag n with _ | _ <;> simp

/-- The pages an entry clears, below `total`. -/
def E820Entry.Clears (e : E820Entry) (i : Nat) : Prop :=
  ∃ start len, e.clamped = some (start, len) ∧
    start / pageSize ≤ i ∧ i < start / pageSize + len / pageSize

theorem clearEntry_eq_false_iff (total : Nat) (e : E820Entry) (bm : Nat → Bool) (i : Nat) :
    clearEntry total e bm i = false ↔ bm i = false ∨ i < total ∧ e.Clears i := by
  unfold clearEntry E820Entry.Clears
  rcases e.clamped with _ | ⟨start, len⟩
  · simp
  · simp only [Option.some.injEq, Prod.mk.injEq]
    have hloop : ∀ n, forEach n (fun j bm =>
        if start / pageSize + j < total then Function.update bm (start / pageSize + j) false
        else bm) bm i = false ↔
          bm i = false ∨ i < total ∧ start / pageSize ≤ i ∧ i < start / pageSize + n := by
      intro n
      induction n with
      | zero =>
        rw [forEach_zero]
        exact ⟨Or.inl, fun h => h.elim id fun h' => absurd h' (by omega)⟩
      | succ n ih =>
        rw [forEach_succ]
        by_cases ht : start / pageSize + n < total
        · rw [if_pos ht]
          by_cases hi : i = start / pageSize + n
          · subst hi
            simp [ht]
          · rw [Function.update_of_ne hi, ih]
            exact or_congr Iff.rfl (by omega)
        · rw [if_neg ht, ih]
          exact or_congr Iff.rfl (by omega)
    rw [hloop]
    constructor
    · rintro (h | ⟨h, h1, h2⟩)
      · exact Or.inl h
      · exact Or.inr ⟨h, start, len, ⟨rfl, rfl⟩, h1, h2⟩
    · rintro (h | ⟨h, _, _, ⟨rfl, rfl⟩, h1, h2⟩)
      · exact Or.inl h
      · exact Or.inr ⟨h, h1, h2⟩

theorem pmmInit_bitmap_iff (e820 : Nat → E820Entry) {i : Nat} (hi : i < pmmTotalPages e820) :
    (pmmInit e820).bitmap i = false ↔ pmmMemStart / pageSize ≤ i ∧ ∃ k, k < e820Count e820 ∧ (e820 k).Clears i := by
  have hcleared : ∀ n, forEach n (fun k => clearEntry (pmmTotalPages e820) (e820 k))
      (fun _ => true) i = false ↔ ∃ k, k < n ∧ (e820 k).Clears i := by
    intro n
    induction n with
    | zero => simp
    | succ n ih =>
      rw [forEach_succ, clearEntry_eq_false_iff, ih]
      constructor
      · rintro (⟨k, hk, hc⟩ | ⟨_, hc⟩)
        · exact ⟨k, by omega, hc⟩
        · exact ⟨n, by omega, hc⟩
      · rintro ⟨k, hk, hc⟩
        rcases Nat.lt_succ_iff_lt_or_eq.mp hk with hk | rfl
        · exact Or.inl ⟨k, hk, hc⟩
        · exact Or.inr ⟨hi, hc⟩
  have hkept : ∀ (bm : Nat → Bool) n, forEach n (fun i bm =>
      if i < pmmTotalPages e820 then Function.update bm i true else bm) bm i = false ↔
        n ≤ i ∧ bm i = false := by
    intro bm n
    induction n with
    | zero => simp
    | succ n ih =>
      rw [forEach_succ]
      by_cases ht : n < pmmTotalPages e820
      · rw [if_pos ht]
        by_cases hin : i = n
        · subst hin
          rw [Function.update_self]
          exact ⟨nofun, fun h => absurd h.1 (Nat.not_succ_le_self i)⟩
        · rw [Function.update_of_ne hin, ih]
          exact and_congr (by omega) Iff.rfl
      · rw [if_neg ht, ih]
        exact and_congr (by omega) Iff.rfl
  simp only [pmmInit, hkept, hcleared]

theorem pmmInit_used (e820 : Nat → E820Entry) :
    (pmmInit e820).usedPages = countBelow (pmmTotalPages e820) (pmmInit e820).bitmap := by
  simp only [pmmInit, forEach_count]

/-! ## Safety of the map -/

/-- The physical address the linker script loads the kernel at. -/
def kernelLoadAddr : Nat := 0x200000

/-- Byte `a` lies in the entry. -/
def E820Entry.Covers (e : E820Entry) (a : Nat) : Prop :=
  e.base.toNat ≤ a ∧ a < e.base.toNat + e.length.toNat

/-- Byte `a` lies in an available entry of the map. -/
def Available (e820 : Nat → E820Entry) (a : Nat) : Prop :=
  ∃ k, k < e820Count e820 ∧ (e820 k).type = e820Avail ∧ (e820 k).Covers a

/-- Byte `a` lies in an entry that is not available. -/
def Unavailable (e820 : Nat → E820Entry) (a : Nat) : Prop :=
  ∃ k, k < e820Count e820 ∧ (e820 k).type ≠ e820Avail ∧ (e820 k).Covers a

/-- **E820 safety**, with the kernel image ending at `imageEnd`: every byte of a page left free is
available, not claimed by another entry, and not part of the kernel image. -/
def E820Safe (e820 : Nat → E820Entry) (imageEnd : Nat) : Prop :=
  ∀ i, i < pmmTotalPages e820 → (pmmInit e820).bitmap i = false →
    ∀ a, i * pageSize ≤ a → a < (i + 1) * pageSize →
      Available e820 a ∧ ¬ Unavailable e820 a ∧ ¬(kernelLoadAddr ≤ a ∧ a < imageEnd)

/-- The half-open ranges have no byte in common. -/
def RangesApart (a b c d : Nat) : Prop := b ≤ a ∨ d ≤ c ∨ b ≤ c ∨ d ≤ a

theorem rangesApart_iff (a b c d : Nat) : RangesApart a b c d ↔ ∀ x, a ≤ x → x < b → ¬(c ≤ x ∧ x < d) := by
  unfold RangesApart
  constructor
  · intro h x hax hxb
    omega
  · intro h
    have := h (max a c)
    omega

/-- The available entry `e` is open to none of it, its pages ending at `stop`: the page its base lies
in is available from its first byte on, and the pages meet no other kind of entry and not the
kernel. -/
def E820Entry.Clean (e820 : Nat → E820Entry) (imageEnd : Nat) (e : E820Entry) : Prop :=
  ∀ start len, e.clamped = some (start, len) →
    let first := start / pageSize
    let stop := min (first + len / pageSize) (pmmTotalPages e820)
    first < stop →
      (∀ a, first * pageSize ≤ a → a < start → Available e820 a) ∧
      (∀ k, k < e820Count e820 → (e820 k).type ≠ e820Avail →
        RangesApart (first * pageSize) (stop * pageSize)
          (e820 k).base.toNat ((e820 k).base.toNat + (e820 k).length.toNat)) ∧
      RangesApart (first * pageSize) (stop * pageSize) kernelLoadAddr imageEnd

theorem E820Entry.clamped_spec {e : E820Entry} {start len : Nat} (h : e.clamped = some (start, len)) :
    e.type = e820Avail ∧ pmmMemStart ≤ start ∧ e.base.toNat ≤ start ∧ start + len = e.base.toNat + e.length.toNat := by
  unfold clamped at h
  have hb := e.base.toNat_lt
  have hl := e.length.toNat_lt
  split at h
  · cases h
  · rename_i ht
    have htype : e.type = e820Avail := Classical.not_not.mp ht
    split at h
    · split at h
      · cases h
      · obtain ⟨rfl, rfl⟩ := Prod.mk.inj (Option.some.inj h)
        exact ⟨htype, Nat.le_refl _, by omega, by omega⟩
    · obtain ⟨rfl, rfl⟩ := Prod.mk.inj (Option.some.inj h)
      exact ⟨htype, by omega, Nat.le_refl _, rfl⟩

theorem page_of_byte (a : Nat) : a / pageSize * pageSize ≤ a ∧ a < (a / pageSize + 1) * pageSize := by
  simp only [pageSize]
  omega

/-- **Which maps are safe.** Exactly those whose available entries are all clean. -/
theorem e820Safe_iff (e820 : Nat → E820Entry) (imageEnd : Nat) :
    E820Safe e820 imageEnd ↔ ∀ k, k < e820Count e820 → (e820 k).Clean e820 imageEnd := by
  constructor
  · intro hsafe k hk start len hc
    obtain ⟨_, hstart, _, _⟩ := E820Entry.clamped_spec hc
    simp only
    intro hne
    -- every page of the entry is free, so every byte of it is safe
    have hbyte : ∀ a, start / pageSize * pageSize ≤ a →
        a < min (start / pageSize + len / pageSize) (pmmTotalPages e820) * pageSize →
        Available e820 a ∧ ¬ Unavailable e820 a ∧ ¬(kernelLoadAddr ≤ a ∧ a < imageEnd) := by
      intro a ha ha'
      obtain ⟨hlo, hhi⟩ := page_of_byte a
      have hpage : start / pageSize ≤ a / pageSize ∧
          a / pageSize < start / pageSize + len / pageSize ∧
          a / pageSize < pmmTotalPages e820 := by
        simp only [pageSize] at ha ha' ⊢
        omega
      refine hsafe (a / pageSize) hpage.2.2 ?_ a hlo hhi
      rw [pmmInit_bitmap_iff e820 hpage.2.2]
      refine ⟨?_, k, hk, start, len, hc, hpage.1, hpage.2.1⟩
      exact Nat.le_trans (Nat.div_le_div_right hstart) hpage.1
    refine ⟨fun a ha ha' => (hbyte a ha ?_).1, fun r hr htype => ?_, ?_⟩
    · simp only [pageSize] at hne ha' ⊢
      omega
    · rw [rangesApart_iff]
      exact fun a ha ha' hcov => (hbyte a ha ha').2.1 ⟨r, hr, htype, hcov⟩
    · rw [rangesApart_iff]
      exact fun a ha ha' hcov => (hbyte a ha ha').2.2 hcov
  · intro hclean i hi hfree a ha ha'
    obtain ⟨_, k, hk, start, len, hc, hlo, hhi⟩ := (pmmInit_bitmap_iff e820 hi).mp hfree
    obtain ⟨htype, _, hbase, hend⟩ := E820Entry.clamped_spec hc
    obtain ⟨hhead, hother, hkernel⟩ := hclean k hk start len hc (by omega)
    have hin : start / pageSize * pageSize ≤ a ∧
        a < min (start / pageSize + len / pageSize) (pmmTotalPages e820) * pageSize := by
      simp only [pageSize] at ha ha' hlo hhi ⊢
      omega
    refine ⟨?_, ?_, (rangesApart_iff ..).mp hkernel a hin.1 hin.2⟩
    · rcases Nat.lt_or_ge a start with hlt | hge
      · exact hhead a hin.1 hlt
      · refine ⟨k, hk, htype, by omega, ?_⟩
        have hlt : a < start + len := by
          have h := hin.2
          simp only [pageSize] at h
          omega
        omega
    · rintro ⟨r, hr, hrtype, hcov⟩
      exact (rangesApart_iff ..).mp (hother r hr hrtype) a hin.1 hin.2 hcov

/-- A machine with its memory from 1 MB to 4 MB available. -/
def plainMap : Nat → E820Entry := fun i =>
  if i = 0 then { base := 0x100000, length := 0x300000, type := 1 }
  else { base := 0, length := 0, type := 0 }

/-- The page the kernel is loaded at is free. -/
theorem kernel_page_free : ¬ ∀ (e820 : Nat → E820Entry) (imageEnd : Nat), E820Safe e820 imageEnd := by
  intro hall
  have htotal : 512 < pmmTotalPages plainMap := by decide
  have hfree : (pmmInit plainMap).bitmap 512 = false := by
    rw [pmmInit_bitmap_iff plainMap htotal]
    refine ⟨by decide, 0, by decide, 0x100000, 0x300000, by decide, ?_, ?_⟩ <;> decide
  have h := hall plainMap 0x201000 512 htotal hfree 0x200000 (by decide) (by decide)
  exact h.2.2 (by decide)

end Chicago95.Kernel
