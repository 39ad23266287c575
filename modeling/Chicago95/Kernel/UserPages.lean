/-
# Chicago95.Kernel.UserPages — ranges of user pages, mapped and unmapped.

What the loops of the memory system calls do to every translation and to the free pages, when there is a page for each
address of the range and one for each table its paths lack (`tablesMissing`).
-/
import Chicago95.Kernel.LowerHalf
import Mathlib.Data.Finset.Union
import Mathlib.Data.Finset.Card

namespace Chicago95.Kernel

open Chicago95.Lib.Radix Chicago95.Kernel.Paging

/-! ## The tables a range needs -/

/-- The tables on the path of an address. -/
def tablePaths (v : Nat) : Finset (List (Fin 512)) := [pdptPath v, pdPath v, ptPath v].toFinset

/-- How many tables are missing on the paths of a range, a table that several need counted once. -/
def tablesMissing (mem : PhysMem) (root : Nat) (l : List Nat) : Nat :=
  ((l.toFinset.biUnion tablePaths).filter fun p => tableAt mem root p = none).card

section

variable {mem mem' : PhysMem} {root v a : Nat} {l : List Nat} {q : List (Fin 512)}

theorem suffix_of_mem_tablePaths (hq : q ∈ tablePaths v) : q <:+ ptPath v := by
  have hpd : pdPath v <:+ ptPath v := List.suffix_cons _ _
  simp only [tablePaths, List.mem_toFinset, List.mem_cons, List.not_mem_nil, or_false] at hq
  rcases hq with rfl | rfl | rfl
  · exact (List.suffix_cons _ _).trans hpd
  · exact hpd
  · exact List.suffix_refl _

theorem mem_tablePaths {i : Fin 512} (hq : i :: q <:+ ptPath v) : i :: q ∈ tablePaths v := by
  simp only [tablePaths, List.mem_toFinset, List.mem_cons, List.not_mem_nil, or_false]
  rcases cons_suffix_ptPath hq with h | h | h <;> simp [h]

theorem ne_nil_of_mem_tablePaths (hq : q ∈ tablePaths v) : q ≠ [] := by
  rintro rfl
  simp [tablePaths, ptPath, pdPath, pdptPath] at hq

theorem card_filter_tablePaths (mem : PhysMem) (root v : Nat) :
    ((tablePaths v).filter fun p => tableAt mem root p = none).card = missing mem root v := by
  have hnodup : [pdptPath v, pdPath v, ptPath v].Nodup := by simp [ptPath, pdPath, pdptPath]
  have hlist : (tablePaths v).filter (fun p => tableAt mem root p = none) =
      ([pdptPath v, pdPath v, ptPath v].filter fun p => (tableAt mem root p).isNone).toFinset := by
    ext p
    simp [tablePaths]
  rw [hlist, List.toFinset_card_of_nodup (hnodup.filter _), missing, List.countP_eq_length_filter]

@[simp] theorem tablesMissing_nil : tablesMissing mem root [] = 0 := rfl

theorem tablesMissing_singleton : tablesMissing mem root [a] = missing mem root a := by
  rw [← card_filter_tablePaths]
  simp [tablesMissing]

theorem missing_le_tablesMissing (ha : a ∈ l) : missing mem root a ≤ tablesMissing mem root l := by
  rw [← card_filter_tablePaths]
  refine Finset.card_le_card (Finset.filter_subset_filter _ fun q hq => ?_)
  exact Finset.mem_biUnion.2 ⟨a, List.mem_toFinset.2 ha, hq⟩

theorem tablesMissing_eq_zero (h : ∀ a ∈ l, missing mem root a = 0) : tablesMissing mem root l = 0 := by
  refine Finset.card_eq_zero.2 (Finset.filter_eq_empty_iff.2 fun q hq hnone => ?_)
  obtain ⟨a, ha, hqa⟩ := Finset.mem_biUnion.1 hq
  obtain ⟨i, q, rfl⟩ := List.exists_cons_of_ne_nil (ne_nil_of_mem_tablePaths hqa)
  have hpos := missing_pos (suffix_of_mem_tablePaths hqa) hnone
  rw [h a (List.mem_toFinset.1 ha)] at hpos
  exact absurd hpos (Nat.lt_irrefl 0)

theorem tablesMissing_cons (hmade : ∀ b ∈ l, ∀ q ∈ tablePaths b,
    (tableAt mem' root q = none ↔ tableAt mem root q = none ∧ q ∉ tablePaths a)) :
    tablesMissing mem root (a :: l) = missing mem root a + tablesMissing mem' root l := by
  have hsplit : ((a :: l).toFinset.biUnion tablePaths).filter (fun p => tableAt mem root p = none) =
      (tablePaths a).filter (fun p => tableAt mem root p = none) ∪
        (l.toFinset.biUnion tablePaths).filter (fun p => tableAt mem' root p = none) := by
    ext q
    simp only [List.toFinset_cons, Finset.biUnion_insert, Finset.mem_filter, Finset.mem_union, Finset.mem_biUnion,
      List.mem_toFinset]
    constructor
    · rintro ⟨hq | ⟨b, hb, hq⟩, hnone⟩
      · exact Or.inl ⟨hq, hnone⟩
      · by_cases hqa : q ∈ tablePaths a
        · exact Or.inl ⟨hqa, hnone⟩
        · exact Or.inr ⟨⟨b, hb, hq⟩, (hmade b hb q hq).2 ⟨hnone, hqa⟩⟩
    · rintro (⟨hq, hnone⟩ | ⟨⟨b, hb, hq⟩, hnone⟩)
      · exact ⟨Or.inl hq, hnone⟩
      · exact ⟨Or.inr ⟨b, hb, hq⟩, ((hmade b hb q hq).1 hnone).1⟩
  have hdisj : Disjoint ((tablePaths a).filter (fun p => tableAt mem root p = none))
      ((l.toFinset.biUnion tablePaths).filter (fun p => tableAt mem' root p = none)) := by
    refine Finset.disjoint_left.2 fun q hq hq' => ?_
    obtain ⟨hq, hnone⟩ := Finset.mem_filter.1 hq'
    obtain ⟨b, hb, hqb⟩ := Finset.mem_biUnion.1 hq
    rename_i hqa
    exact ((hmade b (List.mem_toFinset.1 hb) q hqb).1 hnone).2 (Finset.mem_filter.1 hqa).1
  rw [tablesMissing, hsplit, Finset.card_union_of_disjoint hdisj, card_filter_tablePaths]
  rfl

end

/-! ## A range mapped -/

/-- The addresses of `l` are mapped to zeroed frames that were free, in the lower half of slot `c`; a page was taken for
each of them and for each table missing, and nothing else happened. -/
structure RangeMapped (roles roles' : Nat → Option Role) (reg : Nat) (roots : Slot → Nat) (c : Slot) (s s' : Vm)
    (l : List Nat) : Prop where
  grown : Grown reg roots roles roles' s s'
  tables : TablesOnly roles (roots c) s s'
  fresh : ∀ a ∈ l, ∃ f, s.pmm.Free f ∧ s'.pmm.Used f ∧ (∀ j, s'.mem f j = 0) ∧
    ∀ w, pageNumber w = pageNumber a → pageWalk s'.mem (roots c) w = f ||| w % pageSize
  others : ∀ i, roots i ≠ 0 → ∀ w, (i = c → ∀ a ∈ l, pageNumber w ≠ pageNumber a) →
    pageWalk s'.mem (roots i) w = pageWalk s.mem (roots i) w
  spent : s'.pmm.freeCount + l.length + tablesMissing s.mem (roots c) l = s.pmm.freeCount
  /-- Without a table to make, every page taken is a frame. -/
  taken : tablesMissing s.mem (roots c) l = 0 → ∀ t, s.pmm.Free t →
    s'.pmm.Free t ∨ ∃ a ∈ l, t = pageOf (pageWalk s'.mem (roots c) a)

theorem pageOf_frame {f : Nat} (hf : pageSize ∣ f) (w : Nat) : pageOf (f ||| w % pageSize) = f :=
  pageOf_or hf (Nat.mod_lt _ (by decide))

theorem frame_ne_zero {f : Nat} (hf : f ≠ 0) (w : Nat) : f ||| w % pageSize ≠ 0 :=
  fun h => hf (Nat.or_eq_zero_iff.1 h).1

namespace RangeMapped

variable {roles roles₁ roles₂ : Nat → Option Role} {reg a : Nat} {roots : Slot → Nat} {c : Slot} {s s₁ s₂ : Vm}
  {l : List Nat}

theorem nil (ho : Owned roles s reg roots) (c : Slot) : RangeMapped roles roles reg roots c s s [] :=
  ⟨.refl ho, .refl _ _ _, fun _ ha => (List.not_mem_nil ha).elim, fun _ _ _ _ => rfl, rfl, fun _ _ ht => Or.inl ht⟩

theorem cons (ho : Owned roles s reg roots) (hc : roots c ≠ 0) (h : RangeMapped roles roles₁ reg roots c s s₁ [a])
    (h' : RangeMapped roles₁ roles₂ reg roots c s₁ s₂ l) (ha : pml4Idx a < halfEntries)
    (hnew : ∀ b ∈ l, pageNumber a ≠ pageNumber b)
    (hmissing : tablesMissing s.mem (roots c) (a :: l) = missing s.mem (roots c) a + tablesMissing s₁.mem (roots c) l) :
    RangeMapped roles roles₂ reg roots c s s₂ (a :: l) := by
  -- the page of `a` is not touched any more, and neither is its frame
  have hstay : ∀ w, pageNumber w = pageNumber a → pageWalk s₂.mem (roots c) w = pageWalk s₁.mem (roots c) w :=
    fun w hw => h'.others c hc w fun _ b hb he => hnew b hb (hw.symm.trans he)
  refine ⟨h.grown.trans h'.grown, h.tables.trans h.grown h'.tables, fun b hb => ?_, fun i hi w hw => ?_, ?_,
    fun hnone t ht => ?_⟩
  · rcases List.mem_cons.1 hb with rfl | hb
    · obtain ⟨f, hfree, hused, hzero, hwalk⟩ := h.fresh b List.mem_cons_self
      have hf0 : f ≠ 0 := fun h0 => ho.nullTaken (h0 ▸ hfree)
      obtain ⟨p, i, hrole⟩ := h.grown.owned.frame_role (h.grown.owned.top c hc) ha
        (by rw [hwalk b rfl]; exact frame_ne_zero hf0 b)
      rw [hwalk b rfl, pageOf_frame hfree.dvd] at hrole
      have hsame := h'.tables.mem f hused.not_free fun d q j he => by
        rw [hrole] at he
        cases he
      exact ⟨f, hfree, h'.tables.used f hused, fun j => by rw [hsame, hzero], fun w hw => by rw [hstay w hw, hwalk w hw]⟩
    · obtain ⟨f, hfree, hrest⟩ := h'.fresh b hb
      exact ⟨f, h.grown.free f hfree, hrest⟩
  · rw [h'.others i hi w fun hic b hb => hw hic b (List.mem_cons_of_mem a hb),
      h.others i hi w fun hic b hb => hw hic b (List.mem_singleton.1 hb ▸ List.mem_cons_self)]
  · have hspent := h.spent
    rw [tablesMissing_singleton, List.length_singleton] at hspent
    have hspent' := h'.spent
    rw [hmissing, List.length_cons]
    omega
  · rw [hmissing] at hnone
    have hone : tablesMissing s.mem (roots c) [a] = 0 := by
      rw [tablesMissing_singleton]
      omega
    rcases h.taken hone t ht with hfree | ⟨b, hb, rfl⟩
    · rcases h'.taken (by omega) t hfree with hfree | ⟨b, hb, heq⟩
      · exact Or.inl hfree
      · exact Or.inr ⟨b, List.mem_cons_of_mem a hb, heq⟩
    · obtain rfl := List.mem_singleton.1 hb
      exact Or.inr ⟨b, List.mem_cons_self, by rw [hstay b rfl]⟩

end RangeMapped

theorem missing_congr {mem mem' : PhysMem} {root v : Nat}
    (h : ∀ q, q <:+ ptPath v → tableAt mem' root q = tableAt mem root q) :
    missing mem' root v = missing mem root v := by
  have hpd : pdPath v <:+ ptPath v := List.suffix_cons _ _
  simp only [missing, List.countP_cons, List.countP_nil, h _ (List.suffix_refl _), h _ hpd,
    h _ ((List.suffix_cons _ _).trans hpd)]

namespace Owned

variable {roles roles' : Nat → Option Role} {s s' : Vm} {reg r a : Nat} {roots : Slot → Nat} {c : Slot}

theorem mapWalk (ho : Owned roles s reg roots) (hreg : ¬ s.pmm.Free reg) (hr : roles r = some (.top r))
    (ha : pml4Idx a < halfEntries) {f flags : Nat} (hf : pageSize ∣ f) (hroom : missing s.mem r a ≤ s.pmm.freeCount)
    (hrun : vmmMapPage s r a f flags = s') (ho' : Owned roles' s' reg roots) (hr' : roles' r = some (.top r)) :
    (∀ w, pageNumber w = pageNumber a → pageWalk s'.mem r w = f ||| w % pageSize) ∧
    (∀ w, pml4Idx w < halfEntries → pageNumber w ≠ pageNumber a → pageWalk s'.mem r w = pageWalk s.mem r w) ∧
    (∀ b, pml4Idx b < halfEntries → ∀ q ∈ tablePaths b,
      (tableAt s'.mem r q = none ↔ tableAt s.mem r q = none ∧ q ∉ tablePaths a)) ∧
    s'.pmm.freeCount + missing s.mem r a = s.pmm.freeCount := by
  have hmissing : missing (lowerHalf s r).mem r a = missing s.mem r a :=
    missing_congr fun q hq => ho.tableAt_lowerHalf hr ha hq
  have hlower := (ho.mapPage hreg hr ha f flags).1
  rcases (ho.addressSpace hr).map (ho.noHuge hr a) f flags with ⟨hfew, -⟩ | ⟨s₂, pt, made, hmap⟩
  · rw [hmissing] at hfew
    exact absurd hfew (Nat.not_lt.2 hroom)
  rw [hlower, hrun] at hmap
  have hwalk : ∀ w, pml4Idx w < halfEntries →
      pageWalk s'.mem r w = pageWalk (s₂.setEntry pt (ptIdx a) (mapEntry f flags)).mem r w := fun w hw => by
    rw [← ho'.pageWalk_lowerHalf hr' hw, hmap]
  refine ⟨fun w hw => ?_, fun w hlow hw => ?_, fun b hb q hq => ?_, ?_⟩
  · obtain ⟨hidx, hpath⟩ := List.cons.inj (pagePath_eq_iff.2 hw)
    have hidx' : ptIdx w = ptIdx a := congrArg Fin.val hidx
    have hpt : tableAt s₂.mem r (ptPath w) = some pt := by rw [hpath, made.walk]
    rw [hwalk w (by rw [pml4Idx_of_pageNumber hw]; exact ha), ← hidx', pageWalk_leaf made.space hpt,
      if_pos (isPresent_mapEntry f flags), pageOf_mapEntry, pageOf_of_dvd hf]
  · rw [hwalk w hlow, pageWalk_setEntry_of_ne made.space made.walk hw, made.same, ho.pageWalk_lowerHalf hr hlow]
  · have hq' := suffix_of_mem_tablePaths hq
    rw [← ho'.tableAt_lowerHalf hr' hb hq', hmap, walk_setEntry made.space made.walk q]
    by_cases hqa : q ∈ tablePaths a
    · refine iff_of_false (fun hstop => ?_) fun h => h.2 hqa
      have hpt : tableAt s₂.mem r (ptPath a) = none :=
        walk_none_of_suffix hstop (suffix_of_mem_tablePaths hqa)
      rw [made.walk] at hpt
      cases hpt
    · have hoff : ¬ q <:+ ptPath a := fun hsuffix => by
        rcases q with _ | ⟨i, q⟩
        · exact ne_nil_of_mem_tablePaths hq rfl
        · exact hqa (mem_tablePaths hsuffix)
      rw [made.others q hoff, ho.tableAt_lowerHalf hr hb hq']
      exact (and_iff_left hqa).symm
  · have hspent := made.spent
    have hpmm : (lowerHalf s' r).pmm = s₂.pmm := by
      rw [hmap]
      rfl
    rw [hmissing, ← hpmm] at hspent
    exact hspent

theorem mapPage_pmm (hr0 : r ≠ 0) (hmissing : missing s.mem r a = 0) (f flags : Nat) :
    (vmmMapPage s r a f flags).pmm = s.pmm := by
  rcases hpt : tableAt s.mem r (ptPath a) with _ | pt
  · have hpos := missing_pos (List.suffix_refl _) hpt
    omega
  · rw [vmmMapPage_of_walk hr0 hpt]
    rfl

theorem mapOne (ho : Owned roles s reg roots) (hreg : ¬ s.pmm.Free reg) (hc : roots c ≠ 0)
    (ha : pml4Idx a < halfEntries) (hroom : missing s.mem (roots c) a < s.pmm.freeCount) (flags : Nat) :
    s.pmm.pmmAllocPage.1 ≠ 0 ∧ ∃ roles' s', vmmMapPage (s.allocPage.2.zeroPage s.pmm.pmmAllocPage.1) (roots c) a
        s.pmm.pmmAllocPage.1 flags = s' ∧ RangeMapped roles roles' reg roots c s s' [a] ∧
      (∀ b, pml4Idx b < halfEntries → ∀ q ∈ tablePaths b, (tableAt s'.mem (roots c) q = none ↔
        tableAt s.mem (roots c) q = none ∧ q ∉ tablePaths a)) ∧
      ∀ w, pageNumber w = pageNumber a → pageWalk s'.mem (roots c) w = s.pmm.pmmAllocPage.1 ||| w % pageSize := by
  have htop := ho.top c hc
  rcases s.pmm.pmmAllocPage_freeCount ho.nullTaken with ⟨-, hzero⟩ | ⟨hpage, hcount, -⟩
  · omega
  refine ⟨hpage, ?_⟩
  have hfree := Pmm.free_of_pmmAllocPage hpage
  have hused := Pmm.used_pmmAllocPage hpage
  have hleft := Pmm.free_pmmAllocPage_iff s.pmm
  obtain ⟨hg₀, hnone, hnotfree, hdvd⟩ := ho.fresh hreg hpage
  obtain ⟨roles', hg, -, -⟩ := ho.map hreg htop ha hpage flags
  -- the page is taken and zeroed; no table notices
  have hstart : TablesOnly roles (roots c) s (s.allocPage.2.zeroPage s.pmm.pmmAllocPage.1) :=
    ⟨fun u hu _ => Vm.zeroPage_mem_of_ne _ fun he => hu (he ▸ hfree), fun _ hu => Pmm.Used.pmmAllocPage hu⟩
  have hzeroed : ∀ j, (s.allocPage.2.zeroPage s.pmm.pmmAllocPage.1).mem s.pmm.pmmAllocPage.1 j = 0 :=
    fun j => Vm.zeroPage_mem_self ..
  have htables : ∀ t r h p i, roles t = some (.node r (h + 1) p i) →
      (s.allocPage.2.zeroPage s.pmm.pmmAllocPage.1).mem t = s.mem t := fun t r h p i ht =>
    Vm.zeroPage_mem_of_ne _ fun he => by
      rw [he, hnone] at ht
      cases ht
  have hpmm₀ : (s.allocPage.2.zeroPage s.pmm.pmmAllocPage.1).pmm = s.pmm.pmmAllocPage.2 := rfl
  rw [← hpmm₀] at hcount hused hleft
  generalize s.allocPage.2.zeroPage s.pmm.pmmAllocPage.1 = s₀ at *
  generalize s.pmm.pmmAllocPage.1 = f at *
  have hpaths : ∀ b, pml4Idx b < halfEntries → ∀ q, q <:+ ptPath b →
      tableAt s₀.mem (roots c) q = tableAt s.mem (roots c) q := fun b hb q hq =>
    ho.tableAt_congr htop hb (fun t => htables t _) hq
  have hmissing : missing s₀.mem (roots c) a = missing s.mem (roots c) a := missing_congr (hpaths a ha)
  -- then it is mapped
  have ho₀ := hg₀.owned
  have honly := (ho₀.mapPage (hg₀.not_free hreg) htop ha f flags).2
  have htablesOnly := hstart.trans hg₀ honly
  have hcomplete := fun hz => mapPage_pmm hc (hmissing.trans hz) f flags
  generalize hrun : vmmMapPage s₀ (roots c) a f flags = s₁ at *
  obtain ⟨hself, hothers, hnewPaths, hspent⟩ := ho₀.mapWalk (hg₀.not_free hreg) htop ha hdvd (by omega) hrun hg.owned
    (hg.owned.top c hc)
  refine ⟨roles', s₁, rfl, ⟨hg, htablesOnly, fun b hb => ?_, fun i hi w hw => ?_, ?_, fun hz t ht => ?_⟩,
    fun b hb q hq => ?_, hself⟩
  · obtain rfl := List.mem_singleton.1 hb
    have hkept := honly.mem f hnotfree fun h p i he => by
      rw [hnone] at he
      cases he
    exact ⟨f, hfree, honly.used f hused, fun j => by rw [hkept, hzeroed], hself⟩
  · rcases Nat.lt_or_ge (pml4Idx w) halfEntries with hlow | hhigh
    · by_cases hic : i = c
      · subst hic
        rw [hothers w hlow (hw rfl a List.mem_cons_self), ho.pageWalk_same htop hlow fun t => htables t _]
      · refine ho.pageWalk_same (ho.top i hi) hlow fun t h p j hrole => ?_
        refine htablesOnly.mem t (ho.not_free hrole) fun h' p' j' he => hic (ho.inj i c hi ?_)
        rw [hrole] at he
        exact (Role.node.inj (Option.some.inj he)).1
    · exact hg.half.pageWalk (Or.inr ⟨i, hi, rfl⟩) hhigh
  · rw [hmissing] at hspent
    rw [tablesMissing_singleton, List.length_singleton]
    omega
  · rw [tablesMissing_singleton] at hz
    rw [hcomplete hz]
    by_cases he : t = f
    · exact Or.inr ⟨a, List.mem_cons_self, by rw [hself a rfl, pageOf_frame hdvd, he]⟩
    · exact Or.inl ((hleft t).2 ⟨ht, he⟩)
  · rw [hnewPaths b hb q hq, hpaths b hb q (suffix_of_mem_tablePaths hq)]

theorem mapRange (ho : Owned roles s reg roots) (hreg : ¬ s.pmm.Free reg) (hc : roots c ≠ 0) {l : List Nat}
    (hlow : ∀ a ∈ l, pml4Idx a < halfEntries) (hnodup : (l.map pageNumber).Nodup)
    (hroom : l.length + tablesMissing s.mem (roots c) l ≤ s.pmm.freeCount) (flags : Nat) :
    ∃ roles' s', Kernel.mapZeroed (roots c) flags l s = ([], s') ∧ RangeMapped roles roles' reg roots c s s' l := by
  induction l generalizing s roles with
  | nil => exact ⟨roles, s, rfl, .nil ho c⟩
  | cons a l ih =>
    have hmissing : missing s.mem (roots c) a ≤ tablesMissing s.mem (roots c) (a :: l) :=
      missing_le_tablesMissing List.mem_cons_self
    rw [List.length_cons] at hroom
    obtain ⟨hpage, roles₁, s₁, hrun, hone, hpaths, -⟩ := ho.mapOne hreg hc (hlow a List.mem_cons_self)
      (by omega) flags
    have hlow' : ∀ b ∈ l, pml4Idx b < halfEntries := fun b hb => hlow b (List.mem_cons_of_mem a hb)
    rw [List.map_cons, List.nodup_cons] at hnodup
    have hsplit : tablesMissing s.mem (roots c) (a :: l) =
        missing s.mem (roots c) a + tablesMissing s₁.mem (roots c) l :=
      tablesMissing_cons fun b hb => hpaths b (hlow' b hb)
    have hspent := hone.spent
    rw [tablesMissing_singleton, List.length_singleton] at hspent
    obtain ⟨roles₂, s₂, hrest, hrange⟩ := ih hone.grown.owned (hone.grown.not_free hreg) hlow' hnodup.2 (by omega)
    refine ⟨roles₂, s₂, ?_, hone.cons ho hc hrange (hlow a List.mem_cons_self) (fun b hb he => ?_) hsplit⟩
    · rw [Kernel.mapZeroed]
      dsimp only
      rw [Vm.allocPage_fst, if_neg hpage, hrun, hrest]
    · exact hnodup.1 (List.mem_map.2 ⟨b, hb, he.symm⟩)

end Owned

/-! ## A range unmapped -/

/-- The addresses of `l` lost their frames in the lower half of slot `c`, the frames are free, and nothing else
happened. -/
structure RangeUnmapped (reg : Nat) (roots : Slot → Nat) (c : Slot) (s s' : Vm) (l : List Nat) : Prop where
  owned : ∃ roles, Owned roles s' reg roots
  gone : ∀ a ∈ l, ∀ w, pageNumber w = pageNumber a → pageWalk s'.mem (roots c) w = 0
  others : ∀ i, roots i ≠ 0 → ∀ w, (i = c → ∀ a ∈ l, pageNumber w ≠ pageNumber a) →
    pageWalk s'.mem (roots i) w = pageWalk s.mem (roots i) w
  freed : ∀ t, s'.pmm.Free t ↔ s.pmm.Free t ∨ ∃ a ∈ l, t = pageOf (pageWalk s.mem (roots c) a)
  used : ∀ t, s.pmm.Used t → (∀ a ∈ l, t ≠ pageOf (pageWalk s.mem (roots c) a)) → s'.pmm.Used t

namespace Owned

variable {roles : Nat → Option Role} {s : Vm} {reg a : Nat} {roots : Slot → Nat} {c : Slot}

theorem unmapOne (ho : Owned roles s reg roots) (hc : roots c ≠ 0) (ha : pml4Idx a < halfEntries)
    (hw : pageWalk s.mem (roots c) a ≠ 0) (hused : s.pmm.Used (pageOf (pageWalk s.mem (roots c) a))) :
    RangeUnmapped reg roots c s ((vmmUnmapPage s (roots c) a).freePage (pageOf (pageWalk s.mem (roots c) a))) [a] := by
  have htop := ho.top c hc
  have htranslate : vmmTranslate s.mem (roots c) a = pageWalk s.mem (roots c) a := if_neg hc
  obtain ⟨hkept, -⟩ := ho.unmap htop ha (by rwa [htranslate])
  rw [htranslate] at hkept
  obtain ⟨pt, hpt⟩ := ho.exists_table htop ha hw
  have hrun := vmmUnmapPage_of_walk hc hpt
  rw [hrun] at hkept ⊢
  obtain ⟨h, p, i, hrole⟩ := ho.role_of_path htop ha (List.suffix_refl _) hpt
  have hspace := ho.addressSpace htop
  have hpt' := (ho.tableAt_lowerHalf htop ha (List.suffix_refl _)).trans hpt
  have hne : pt ≠ roots c := ho.table_ne_root htop hpt'
  -- the entry that is cleared is no word of the kernel half
  obtain ⟨roles₁, ho₁⟩ := hkept.owned
  have hwalk : ∀ w, pml4Idx w < halfEntries →
      pageWalk ((s.setEntry pt (ptIdx a) 0).freePage (pageOf (pageWalk s.mem (roots c) a))).mem (roots c) w =
        pageWalk ((lowerHalf s (roots c)).setEntry pt (ptIdx a) 0).mem (roots c) w := fun w hlow => by
    rw [← ho₁.pageWalk_lowerHalf (ho₁.top c hc) hlow, setEntry_lowerHalf fun h => hne h.1]
    rfl
  refine ⟨⟨roles₁, ho₁⟩, fun b hb w hwa => ?_, fun j hj w hwa => ?_, fun t => ?_, fun t ht hta => ?_⟩
  · obtain rfl := List.mem_singleton.1 hb
    obtain ⟨hidx, hpath⟩ := List.cons.inj (pagePath_eq_iff.2 hwa)
    have hidx' : ptIdx w = ptIdx b := congrArg Fin.val hidx
    rw [hwalk w (by rw [pml4Idx_of_pageNumber hwa]; exact ha), ← hidx',
      pageWalk_leaf hspace (by rw [hpath, hpt']), isPresent_zero]
    rfl
  · rcases Nat.lt_or_ge (pml4Idx w) halfEntries with hlow | hhigh
    · by_cases hjc : j = c
      · subst hjc
        rw [hwalk w hlow, pageWalk_setEntry_of_ne hspace hpt' (hwa rfl a List.mem_cons_self),
          ho.pageWalk_lowerHalf htop hlow]
      · refine ho.pageWalk_same (ho.top j hj) hlow fun t h' p' i' ht => ?_
        refine Vm.setEntry_mem_page_of_ne _ fun he => hjc (ho.inj j c hj ?_)
        rw [he, hrole] at ht
        exact (Role.node.inj (Option.some.inj ht)).1.symm
    · exact hkept.half.pageWalk (Or.inr ⟨j, hj, rfl⟩) hhigh
  · have hpage : pageOf (pageWalk s.mem (roots c) a) / pageSize * pageSize = pageOf (pageWalk s.mem (roots c) a) :=
      Nat.div_mul_cancel (dvd_pageOf _)
    simp only [List.mem_singleton, exists_eq_left]
    constructor
    · intro ht
      rcases Pmm.free_of_pmmFreePage ht with hfree | he
      · exact Or.inl hfree
      · exact Or.inr (he.trans hpage)
    · rintro (hfree | rfl)
      · exact hfree.pmmFreePage _
      · exact hused.free_pmmFreePage hpage.symm
  · refine ht.pmmFreePage_of_ne ?_
    rw [Nat.div_mul_cancel (dvd_pageOf _)]
    exact hta a List.mem_cons_self

theorem unmapRange (ho : Owned roles s reg roots) (hc : roots c ≠ 0) {l : List Nat}
    (hlow : ∀ a ∈ l, pml4Idx a < halfEntries) (hnodup : (l.map pageNumber).Nodup)
    (hw : ∀ a ∈ l, pageWalk s.mem (roots c) a ≠ 0) (hused : ∀ a ∈ l, s.pmm.Used (pageOf (pageWalk s.mem (roots c) a))) :
    RangeUnmapped reg roots c s (Kernel.unmapPages (roots c) l s) l := by
  induction l generalizing s roles with
  | nil =>
    exact ⟨⟨roles, ho⟩, fun _ ha => (List.not_mem_nil ha).elim, fun _ _ _ _ => rfl,
      fun t => by simp [Kernel.unmapPages], fun _ ht _ => ht⟩
  | cons a l ih =>
    have ha := List.mem_cons_self (a := a) (l := l)
    have hl : ∀ b ∈ l, b ∈ a :: l := fun b hb => List.mem_cons_of_mem a hb
    rw [List.map_cons, List.nodup_cons] at hnodup
    have hnew : ∀ b ∈ l, pageNumber b ≠ pageNumber a := fun b hb he => hnodup.1 (List.mem_map.2 ⟨b, hb, he⟩)
    have hone := ho.unmapOne hc (hlow a ha) (hw a ha) (hused a ha)
    have htranslate : vmmTranslate s.mem (roots c) a = pageWalk s.mem (roots c) a := if_neg hc
    rw [Kernel.unmapPages, htranslate, if_neg (hw a ha)]
    generalize (vmmUnmapPage s (roots c) a).freePage (pageOf (pageWalk s.mem (roots c) a)) = s₁ at hone ⊢
    obtain ⟨roles₁, ho₁⟩ := hone.owned
    -- the other pages keep their frames, which are other frames
    have hstay : ∀ b ∈ l, pageWalk s₁.mem (roots c) b = pageWalk s.mem (roots c) b := fun b hb =>
      hone.others c hc b fun _ d hd => List.mem_singleton.1 hd ▸ hnew b hb
    have hframe : ∀ b ∈ l, pageOf (pageWalk s.mem (roots c) b) ≠ pageOf (pageWalk s.mem (roots c) a) := fun b hb he =>
      hnew b hb (ho.frame_unique hc hc (hlow b (hl b hb)) (hw b (hl b hb)) (hw a ha) he).2
    have hrest := ih ho₁ (fun b hb => hlow b (hl b hb)) hnodup.2 (fun b hb => by rw [hstay b hb]; exact hw b (hl b hb))
      fun b hb => by
        rw [hstay b hb]
        exact hone.used _ (hused b (hl b hb)) fun d hd => List.mem_singleton.1 hd ▸ hframe b hb
    refine ⟨hrest.owned, fun b hb w hwb => ?_, fun i hi w hwa => ?_, fun t => ?_, fun t ht hta => ?_⟩
    · by_cases hwl : ∃ d ∈ l, pageNumber w = pageNumber d
      · obtain ⟨d, hd, hwd⟩ := hwl
        exact hrest.gone d hd w hwd
      · rcases List.mem_cons.1 hb with rfl | hb
        · rw [hrest.others c hc w fun _ d hd he => hwl ⟨d, hd, he⟩]
          exact hone.gone b List.mem_cons_self w hwb
        · exact absurd ⟨b, hb, hwb⟩ hwl
    · rw [hrest.others i hi w fun hic d hd => hwa hic d (hl d hd),
        hone.others i hi w fun hic d hd => List.mem_singleton.1 hd ▸ hwa hic a ha]
    · rw [hrest.freed, hone.freed, or_assoc]
      refine or_congr_right ?_
      simp only [List.mem_cons, List.not_mem_nil, or_false, exists_eq_or_imp, exists_eq_left]
      refine or_congr_right (exists_congr fun b => and_congr_right fun hb => ?_)
      rw [hstay b hb]
    · refine hrest.used t (hone.used t ht fun d hd => List.mem_singleton.1 hd ▸ hta a ha) fun b hb => ?_
      rw [hstay b hb]
      exact hta b (hl b hb)

end Owned

end Chicago95.Kernel
