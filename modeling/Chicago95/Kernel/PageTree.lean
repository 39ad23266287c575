/-
# Chicago95.Kernel.PageTree — the pages an address space is made of.

An address space is the tree of tables below a PML4. `TableIn` collects the tables reached through a
range of PML4 entries, `Mapped` the 4 KB frames its addresses translate to, huge pages included, and
`PageIn` both. Entries 0–255 are the lower half, which belongs to a process; entries 256–511 are the
kernel half, which every address space is given a copy of.
-/
import Chicago95.Kernel.Vmm

namespace Chicago95.Kernel

/-- A table reached from `root` through PML4 entries `lo`, …, `hi - 1`, with its height above the
frames: 3 for a PDPT, 2 for a PD, 1 for a PT. -/
inductive TableIn (mem : PhysMem) (root lo hi : Nat) : Nat → Nat → Prop
  | pdpt {i : Nat} : lo ≤ i → i < hi → isPresent (mem root i) = true →
      TableIn mem root lo hi 3 (pageOf (mem root i))
  | next {h t j : Nat} : TableIn mem root lo hi (h + 2) t → j < 512 →
      isPresent (mem t j) = true → isHuge (mem t j) = false →
      TableIn mem root lo hi (h + 1) (pageOf (mem t j))

/-- A frame that some address of PML4 entries `lo`, …, `hi - 1` translates into. -/
def Mapped (mem : PhysMem) (root lo hi f : Nat) : Prop :=
  ∃ v, lo ≤ pml4Idx v ∧ pml4Idx v < hi ∧ pageWalk mem root v ≠ 0 ∧ f = pageOf (pageWalk mem root v)

/-- A table or a frame of that part of the address space. -/
def PageIn (mem : PhysMem) (root lo hi f : Nat) : Prop :=
  (∃ h, TableIn mem root lo hi h f) ∨ Mapped mem root lo hi f

/-- `f` is the PML4, a table or a frame of the address space at `root`. -/
def UsedBy (mem : PhysMem) (root f : Nat) : Prop := f = root ∨ PageIn mem root 0 512 f

/-- The number of PML4 entries of a half. -/
def halfEntries : Nat := 256

theorem pml4Idx_lt (v : Nat) : pml4Idx v < 512 := Nat.mod_lt _ (by decide)
theorem pdptIdx_lt (v : Nat) : pdptIdx v < 512 := Nat.mod_lt _ (by decide)
theorem pdIdx_lt (v : Nat) : pdIdx v < 512 := Nat.mod_lt _ (by decide)
theorem ptIdx_lt (v : Nat) : ptIdx v < 512 := Nat.mod_lt _ (by decide)

/-! ## A range of entries and its parts -/

section

variable {mem mem' : PhysMem} {root lo mid hi h t f v : Nat}

theorem tableIn_split (ht : TableIn mem root lo hi h t) (mid : Nat) :
    TableIn mem root lo mid h t ∨ TableIn mem root mid hi h t := by
  induction ht with
  | @pdpt i hlo hhi hp =>
    rcases Nat.lt_or_ge i mid with hi' | hi'
    · exact Or.inl (.pdpt hlo hi' hp)
    · exact Or.inr (.pdpt hi' hhi hp)
  | next _ hj hp hh ih =>
    rcases ih with ih | ih
    · exact Or.inl (.next ih hj hp hh)
    · exact Or.inr (.next ih hj hp hh)

theorem pageIn_split (hf : PageIn mem root lo hi f) (mid : Nat) :
    PageIn mem root lo mid f ∨ PageIn mem root mid hi f := by
  rcases hf with ⟨h, ht⟩ | ⟨v, hlo, hhi, hw, hfv⟩
  · rcases tableIn_split ht mid with ht | ht
    · exact Or.inl (Or.inl ⟨h, ht⟩)
    · exact Or.inr (Or.inl ⟨h, ht⟩)
  · rcases Nat.lt_or_ge (pml4Idx v) mid with hv | hv
    · exact Or.inl (Or.inr ⟨v, hlo, hv, hw, hfv⟩)
    · exact Or.inr (Or.inr ⟨v, hv, hhi, hw, hfv⟩)

/-! ## Memory that agrees on the tables -/

theorem tableIn_of_congr (hroot : ∀ i, lo ≤ i → i < hi → mem' root i = mem root i)
    (htables : ∀ h t, TableIn mem root lo hi h t → mem' t = mem t)
    (ht : TableIn mem' root lo hi h t) : TableIn mem root lo hi h t := by
  induction ht with
  | pdpt hlo hhi hp =>
    rw [hroot _ hlo hhi] at hp ⊢
    exact .pdpt hlo hhi hp
  | next _ hj hp hh ih =>
    rw [htables _ _ ih] at hp hh ⊢
    exact .next ih hj hp hh

theorem pageWalk_congr (hlo : lo ≤ pml4Idx v) (hhi : pml4Idx v < hi)
    (hroot : mem' root (pml4Idx v) = mem root (pml4Idx v))
    (htables : ∀ h t, TableIn mem root lo hi h t → mem' t = mem t) : pageWalk mem' root v = pageWalk mem root v := by
  unfold pageWalk
  rw [hroot]
  rcases hp3 : isPresent (mem root (pml4Idx v)) with _ | _
  · rfl
  · have h3 := TableIn.pdpt hlo hhi hp3
    simp only [Bool.not_true, Bool.false_eq_true, if_false, htables _ _ h3]
    rcases hp2 : isPresent (mem (pageOf (mem root (pml4Idx v))) (pdptIdx v)) with _ | _
    · rfl
    · rcases hh2 : isHuge (mem (pageOf (mem root (pml4Idx v))) (pdptIdx v)) with _ | _
      · have h2 := TableIn.next h3 (pdptIdx_lt v) hp2 hh2
        simp only [Bool.not_true, Bool.false_eq_true, if_false, htables _ _ h2]
        generalize mem (pageOf (mem root (pml4Idx v))) (pdptIdx v) = e2 at h2 ⊢
        rcases hp1 : isPresent (mem (pageOf e2) (pdIdx v)) with _ | _
        · rfl
        · rcases hh1 : isHuge (mem (pageOf e2) (pdIdx v)) with _ | _
          · have h1 := TableIn.next h2 (pdIdx_lt v) hp1 hh1
            simp only [Bool.not_true, Bool.false_eq_true, if_false, htables _ _ h1]
          · rfl
      · rfl

theorem mapped_of_congr (hroot : ∀ i, lo ≤ i → i < hi → mem' root i = mem root i)
    (htables : ∀ h t, TableIn mem root lo hi h t → mem' t = mem t)
    (hf : Mapped mem' root lo hi f) : Mapped mem root lo hi f := by
  obtain ⟨v, hlo, hhi, hw, hfv⟩ := hf
  rw [pageWalk_congr hlo hhi (hroot _ hlo hhi) htables] at hw hfv
  exact ⟨v, hlo, hhi, hw, hfv⟩

theorem pageIn_of_congr (hroot : ∀ i, lo ≤ i → i < hi → mem' root i = mem root i)
    (htables : ∀ h t, TableIn mem root lo hi h t → mem' t = mem t)
    (hf : PageIn mem' root lo hi f) : PageIn mem root lo hi f := by
  rcases hf with ⟨h, ht⟩ | hm
  · exact Or.inl ⟨h, tableIn_of_congr hroot htables ht⟩
  · exact Or.inr (mapped_of_congr hroot htables hm)

theorem pageIn_of_root {root' : Nat} (hroot : ∀ i, lo ≤ i → i < hi → mem root' i = mem root i)
    (hf : PageIn mem root' lo hi f) : PageIn mem root lo hi f := by
  have htable : ∀ {h t : Nat}, TableIn mem root' lo hi h t → TableIn mem root lo hi h t := by
    intro h t ht
    induction ht with
    | pdpt hlo hhi hp =>
      rw [hroot _ hlo hhi] at hp ⊢
      exact .pdpt hlo hhi hp
    | next _ hj hp hh ih => exact .next ih hj hp hh
  rcases hf with ⟨h, ht⟩ | ⟨v, hlo, hhi, hw, hfv⟩
  · exact Or.inl ⟨h, htable ht⟩
  · have hwalk : pageWalk mem root' v = pageWalk mem root v := by
      unfold pageWalk
      rw [hroot _ hlo hhi]
    rw [hwalk] at hw hfv
    exact Or.inr ⟨v, hlo, hhi, hw, hfv⟩

/-! ## Empty ranges -/

theorem not_tableIn_of_empty (hempty : ∀ i, lo ≤ i → i < hi → isPresent (mem root i) = false) :
    ¬ TableIn mem root lo hi h t := by
  intro ht
  induction ht with
  | pdpt hlo hhi hp => exact Bool.false_ne_true ((hempty _ hlo hhi).symm.trans hp)
  | next _ _ _ _ ih => exact ih

theorem pageWalk_of_empty (hv : isPresent (mem root (pml4Idx v)) = false) : pageWalk mem root v = 0 := by
  unfold pageWalk
  rw [if_pos (by rw [hv]; rfl)]

theorem not_pageIn_of_empty (hempty : ∀ i, lo ≤ i → i < hi → isPresent (mem root i) = false) :
    ¬ PageIn mem root lo hi f := by
  rintro (⟨h, ht⟩ | ⟨v, hlo, hhi, hw, _⟩)
  · exact not_tableIn_of_empty hempty ht
  · exact hw (pageWalk_of_empty (hempty _ hlo hhi))

end

end Chicago95.Kernel
