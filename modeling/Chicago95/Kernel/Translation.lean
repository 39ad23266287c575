/-
# Chicago95.Kernel.Translation — what `vmm_map_page` and `vmm_unmap_page` do to `vmm_translate`.

The tables of an address space are a tree (`Lib.Radix`) as soon as no two of them share a page. `vmm_map_page` goes down
the path of its address; a table that is missing on it is made of a zeroed page, which no address gets a translation from
(`AddressSpace.nextTable`), and the entry at the end of the path belongs to the addresses of one page (`pageWalk_leaf`).
-/
import Chicago95.Lib.Radix
import Chicago95.Kernel.PageTree

namespace Chicago95.Kernel.Paging

open Chicago95.Lib.Radix

/-! ## Paths -/

/-- Where an entry of a table at a depth leads: nothing hangs below a page table. -/
def child : Nat → Nat → Option Nat
  | 0, e => if isPresent e then some (pageOf e) else none
  | 1, e | 2, e => if isPresent e && !isHuge e then some (pageOf e) else none
  | _ + 3, _ => none

/-- The words of a table. -/
def entries (mem : PhysMem) (t : Nat) (i : Fin 512) : Nat := mem t i

/-- The table a path of indices leads to. -/
abbrev tableAt (mem : PhysMem) (root : Nat) (p : List (Fin 512)) : Option Nat := walk child (entries mem) root p

/-- The path of an address to its PDPT, to its PD, to its PT and to its entry there, last index first. -/
def pdptPath (v : Nat) : List (Fin 512) := [⟨pml4Idx v, pml4Idx_lt v⟩]
def pdPath (v : Nat) : List (Fin 512) := ⟨pdptIdx v, pdptIdx_lt v⟩ :: pdptPath v
def ptPath (v : Nat) : List (Fin 512) := ⟨pdIdx v, pdIdx_lt v⟩ :: pdPath v
def pagePath (v : Nat) : List (Fin 512) := ⟨ptIdx v, ptIdx_lt v⟩ :: ptPath v

/-- The page of an address. The tables read 48 bits of it, which tell canonical addresses apart. -/
def pageNumber (v : Nat) : Nat := v / pageSize % 2 ^ 36

/-- A 64-bit address whose upper bits repeat bit 47. -/
def Canonical (v : Nat) : Prop := v < 2 ^ 47 ∨ 2 ^ 64 - 2 ^ 47 ≤ v ∧ v < 2 ^ 64

theorem pagePath_eq_iff {v w : Nat} : pagePath v = pagePath w ↔ pageNumber v = pageNumber w := by
  simp only [pagePath, ptPath, pdPath, pdptPath, List.cons.injEq, Fin.mk.injEq, and_true, pml4Idx, pdptIdx, pdIdx,
    ptIdx, pageNumber, pageSize]
  omega

theorem child_of_absent {d e : Nat} (h : isPresent e = false) : child d e = none := by
  match d with
  | 0 | 1 | 2 => simp [child, h]
  | _ + 3 => rfl

theorem child_tableEntry {d n : Nat} (hd : d ≤ 2) (hn : pageSize ∣ n) : child d (tableEntry n) = some n := by
  match d with
  | 0 | 1 | 2 => simp [child, pageOf_tableEntry hn, isHuge_tableEntry hn]

theorem of_child {d e n : Nat} (h : child d e = some n) :
    isPresent e = true ∧ pageOf e = n ∧ (d ≠ 0 → isHuge e = false) := by
  match d with
  | 0 =>
    simp only [child, Option.ite_none_right_eq_some, Option.some.injEq] at h
    exact ⟨h.1, h.2, fun h0 => absurd rfl h0⟩
  | 1 | 2 =>
    simp only [child, Option.ite_none_right_eq_some, Option.some.injEq, Bool.and_eq_true, Bool.not_eq_true'] at h
    exact ⟨h.1.1, h.2, fun _ => h.1.2⟩
  | _ + 3 => cases h

theorem suffix_pagePath_iff {v : Nat} {i : Fin 512} {p : List (Fin 512)} :
    i :: p <:+ pagePath v ↔ (i = ⟨ptIdx v, ptIdx_lt v⟩ ∧ p = ptPath v) ∨ (i = ⟨pdIdx v, pdIdx_lt v⟩ ∧ p = pdPath v) ∨
      (i = ⟨pdptIdx v, pdptIdx_lt v⟩ ∧ p = pdptPath v) ∨ (i = ⟨pml4Idx v, pml4Idx_lt v⟩ ∧ p = []) := by
  simp only [pagePath, ptPath, pdPath, pdptPath, List.suffix_cons_iff, List.suffix_nil, reduceCtorEq, or_false,
    List.cons.injEq]

theorem pageWalk_eq (mem : PhysMem) (root v : Nat) :
    pageWalk mem root v =
      match tableAt mem root (pdptPath v) with
      | none => 0
      | some pdpt =>
        let pdpte := mem pdpt (pdptIdx v)
        if isPresent pdpte && isHuge pdpte then pdpte / 2 ^ 29 * 2 ^ 29 ||| v % 2 ^ 30
        else
          match tableAt mem root (pdPath v) with
          | none => 0
          | some pd =>
            let pde := mem pd (pdIdx v)
            if isPresent pde && isHuge pde then pde / 2 ^ 21 * 2 ^ 21 ||| v % 2 ^ 21
            else
              match tableAt mem root (ptPath v) with
              | none => 0
              | some pt =>
                let pte := mem pt (ptIdx v)
                if isPresent pte then pageOf pte ||| v % pageSize else 0 := by
  unfold pageWalk
  dsimp only
  have h4 : tableAt mem root (pdptPath v) = child 0 (mem root (pml4Idx v)) := rfl
  rcases hp4 : isPresent (mem root (pml4Idx v)) with _ | _
  · simp [h4, child, hp4]
  have hpdpt : tableAt mem root (pdptPath v) = some (pageOf (mem root (pml4Idx v))) := by simp [h4, child, hp4]
  rw [hpdpt]
  generalize pageOf (mem root (pml4Idx v)) = pdpt at *
  have h3 : tableAt mem root (pdPath v) = child 1 (mem pdpt (pdptIdx v)) := walk_step hpdpt _
  rcases hp3 : isPresent (mem pdpt (pdptIdx v)) with _ | _
  · simp [h3, child, hp3]
  rcases hh3 : isHuge (mem pdpt (pdptIdx v)) with _ | _
  swap
  · simp [hp3, hh3]
  have hpd : tableAt mem root (pdPath v) = some (pageOf (mem pdpt (pdptIdx v))) := by simp [h3, child, hp3, hh3]
  rw [hpd]
  generalize pageOf (mem pdpt (pdptIdx v)) = pd at *
  have h2 : tableAt mem root (ptPath v) = child 2 (mem pd (pdIdx v)) := walk_step hpd _
  rcases hp2 : isPresent (mem pd (pdIdx v)) with _ | _
  · simp [h2, child, hp3, hh3, hp2]
  rcases hh2 : isHuge (mem pd (pdIdx v)) with _ | _
  · rcases hp1 : isPresent (mem (pageOf (mem pd (pdIdx v))) (ptIdx v)) with _ | _
    · simp [h2, child, hp3, hh3, hp2, hh2, hp1]
    · simp [h2, child, hp3, hh3, hp2, hh2, hp1]
  · simp [hp3, hh3, hp2, hh2]

/-! ## Address spaces -/

/-- A well-formed address space: no two of its tables share a page, and none of them is free. -/
structure AddressSpace (s : Vm) (root : Nat) : Prop where
  root_ne : root ≠ 0
  distinct : ∀ p q t, tableAt s.mem root p = some t → tableAt s.mem root q = some t → p = q
  taken : ∀ p t, tableAt s.mem root p = some t → ¬ s.pmm.Free t
  nullTaken : ¬ s.pmm.Free 0

/-- The path of `v` passes no huge page. -/
def NoHuge (mem : PhysMem) (root v : Nat) : Prop :=
  ∀ p i t, i :: p <:+ ptPath v → p ≠ [] → tableAt mem root p = some t → isPresent (mem t i) = true →
    isHuge (mem t i) = false

/-- How many tables are missing on the path of `v`. -/
def missing (mem : PhysMem) (root v : Nat) : Nat :=
  [pdptPath v, pdPath v, ptPath v].countP fun p => (tableAt mem root p).isNone

section

variable {mem mem' : PhysMem} {root v w t n : Nat} {p : List (Fin 512)} {i : Fin 512}
  {place : Nat → Option (List (Fin 512))}

theorem exists_suffix (hp : p <:+ ptPath v) : ∃ i, i :: p <:+ pagePath v := by
  obtain ⟨a, ha⟩ := hp
  rcases List.eq_nil_or_concat a with rfl | ⟨a, i, rfl⟩
  · exact ⟨⟨ptIdx v, ptIdx_lt v⟩, by rw [← List.nil_append p, ha]; exact List.suffix_refl _⟩
  · refine ⟨i, ⟨⟨ptIdx v, ptIdx_lt v⟩ :: a, ?_⟩⟩
    rw [pagePath, ← ha]
    simp

theorem not_huge_of_walk {u : Nat} (hu : tableAt mem root (i :: p) = some u) (ht : tableAt mem root p = some t)
    (hp : p ≠ []) : isHuge (mem t i) = false := by
  have hstep : tableAt mem root (i :: p) = child p.length (mem t i) := walk_step ht i
  rw [hstep] at hu
  exact (of_child hu).2.2 fun h0 => hp (List.eq_nil_of_length_eq_zero h0)

theorem pageWalk_of_walk {pt : Nat} (hpt : tableAt mem root (ptPath v) = some pt) :
    pageWalk mem root v = if isPresent (mem pt (ptIdx v)) then pageOf (mem pt (ptIdx v)) ||| v % pageSize else 0 := by
  obtain ⟨pd, hpd, -⟩ := of_walk_cons hpt
  obtain ⟨pdpt, hpdpt, -⟩ := of_walk_cons hpd
  have hh3 := not_huge_of_walk (i := ⟨pdptIdx v, pdptIdx_lt v⟩) (p := pdptPath v) hpd hpdpt (List.cons_ne_nil _ _)
  have hh2 := not_huge_of_walk (i := ⟨pdIdx v, pdIdx_lt v⟩) (p := pdPath v) hpt hpd (List.cons_ne_nil _ _)
  dsimp only at hh3 hh2
  rw [pageWalk_eq]
  simp only [hpdpt, hpd, hpt, hh3, hh2, Bool.and_false, Bool.false_eq_true, if_false]

theorem pageWalk_of_absent (ht : tableAt mem root p = some t) (hp : i :: p <:+ pagePath v)
    (habsent : isPresent (mem t i) = false) : pageWalk mem root v = 0 := by
  have hstop : tableAt mem root (i :: p) = none := (walk_step ht i).trans (child_of_absent habsent)
  rcases suffix_pagePath_iff.1 hp with ⟨rfl, rfl⟩ | ⟨rfl, rfl⟩ | ⟨rfl, rfl⟩ | ⟨rfl, rfl⟩
  · -- the entry of the page table
    dsimp only at habsent
    rw [pageWalk_of_walk ht, habsent]
    rfl
  · obtain ⟨pdpt, hpdpt, -⟩ := of_walk_cons ht
    have hh3 := not_huge_of_walk (i := ⟨pdptIdx v, pdptIdx_lt v⟩) (p := pdptPath v) ht hpdpt (List.cons_ne_nil _ _)
    have hstop' : tableAt mem root (ptPath v) = none := hstop
    dsimp only at hh3 habsent
    rw [pageWalk_eq]
    simp [hpdpt, ht, hh3, habsent, hstop']
  · have hstop' : tableAt mem root (pdPath v) = none := hstop
    rw [pageWalk_eq]
    simp [ht, habsent, hstop']
  · have hstop' : tableAt mem root (pdptPath v) = none := hstop
    rw [pageWalk_eq]
    simp [hstop']

theorem pageWalk_of_same (h : Placed child (entries mem) root place)
    (hsame : ∀ u q j, place u = some q → j :: q <:+ pagePath w → mem' u j = mem u j) :
    pageWalk mem' root w = pageWalk mem root w := by
  have hwalk : ∀ q, q <:+ pagePath w → tableAt mem' root q = tableAt mem root q := fun q hq =>
    h.walk_congr fun u r j hu hj => hsame u r j hu (hj.trans hq)
  have hentry : ∀ {q u} (j : Fin 512), tableAt mem root q = some u → j :: q <:+ pagePath w → mem' u j = mem u j :=
    fun j hu hj => hsame _ _ j (h.place_of_walk hu) hj
  have hpt : ptPath w <:+ pagePath w := List.suffix_cons _ _
  have hpd : pdPath w <:+ pagePath w := (List.suffix_cons _ _).trans hpt
  have hpdpt : pdptPath w <:+ pagePath w := (List.suffix_cons _ _).trans hpd
  rw [pageWalk_eq, pageWalk_eq, hwalk _ hpdpt, hwalk _ hpd, hwalk _ hpt]
  rcases h3 : tableAt mem root (pdptPath w) with _ | pdpt
  · rfl
  have e3 : mem' pdpt (pdptIdx w) = mem pdpt (pdptIdx w) := hentry ⟨pdptIdx w, pdptIdx_lt w⟩ h3 hpd
  dsimp only
  rw [e3]
  rcases h2 : tableAt mem root (pdPath w) with _ | pd
  · rfl
  have e2 : mem' pd (pdIdx w) = mem pd (pdIdx w) := hentry ⟨pdIdx w, pdIdx_lt w⟩ h2 hpt
  dsimp only
  rw [e2]
  rcases h1 : tableAt mem root (ptPath w) with _ | pt
  · rfl
  have e1 : mem' pt (ptIdx w) = mem pt (ptIdx w) := hentry ⟨ptIdx w, ptIdx_lt w⟩ h1 (List.suffix_refl _)
  dsimp only
  rw [e1]

theorem pageWalk_of_link (h : Placed child (entries mem) root place) (ht : tableAt mem root p = some t)
    (hlen : p.length ≤ 2) (hold : isPresent (mem t i) = false) (hn : place n = none)
    (hnew : tableAt mem' root (i :: p) = some n) (hzero : ∀ j, mem' n j = 0)
    (hsame : ∀ u j, u ≠ n → ¬(u = t ∧ j = i.val) → mem' u j = mem u j) :
    pageWalk mem' root w = pageWalk mem root w := by
  by_cases hpath : i :: p <:+ pagePath w
  · have hpt : i :: p <:+ ptPath w := by
      rcases suffix_pagePath_iff.1 hpath with ⟨-, rfl⟩ | ⟨rfl, rfl⟩ | ⟨rfl, rfl⟩ | ⟨rfl, rfl⟩
      · exact absurd hlen (by simp [ptPath, pdPath, pdptPath])
      · exact List.suffix_refl _
      · exact List.suffix_cons _ _
      · exact (List.suffix_cons _ _).trans (List.suffix_cons _ _)
    obtain ⟨j, hj⟩ := exists_suffix hpt
    rw [pageWalk_of_absent ht hpath hold, pageWalk_of_absent hnew hj (by rw [hzero]; rfl)]
  · refine pageWalk_of_same h fun u q j hu hq => hsame u j ?_ ?_
    · rintro rfl
      rw [hn] at hu
      cases hu
    · rintro ⟨rfl, hj⟩
      obtain rfl := Option.some.inj ((h.place_of_walk ht).symm.trans hu)
      obtain rfl := Fin.ext hj
      exact hpath hq

end

/-! ## One level down -/

/-- What finding, or making, the table behind entry `i` of the one at `p` leaves, for an address on whose path it is. -/
structure Reaches (s s' : Vm) (root v : Nat) (i : Fin 512) (p : List (Fin 512)) (n : Nat) : Prop where
  space : AddressSpace s' root
  walk : tableAt s'.mem root (i :: p) = some n
  same : ∀ w, pageWalk s'.mem root w = pageWalk s.mem root w
  noHuge : NoHuge s.mem root v → NoHuge s'.mem root v
  others : ∀ q, q ≠ i :: p → tableAt s'.mem root q = tableAt s.mem root q
  /-- Every page taken is a table less to be made. -/
  budget : ∃ k, s'.pmm.freeCount + k = s.pmm.freeCount ∧ missing s'.mem root v + k = missing s.mem root v

theorem cons_suffix_ptPath {v : Nat} {i : Fin 512} {p : List (Fin 512)} (hp : i :: p <:+ ptPath v) :
    i :: p = ptPath v ∨ i :: p = pdPath v ∨ i :: p = pdptPath v := by
  simpa only [ptPath, pdPath, pdptPath, List.suffix_cons_iff, List.suffix_nil, reduceCtorEq, or_false] using hp

theorem missing_pos {mem : PhysMem} {root v : Nat} {i : Fin 512} {p : List (Fin 512)} (hp : i :: p <:+ ptPath v)
    (hnone : tableAt mem root (i :: p) = none) : 0 < missing mem root v := by
  refine List.countP_pos_iff.2 ⟨i :: p, ?_, by rw [hnone]; rfl⟩
  rcases cons_suffix_ptPath hp with h | h | h <;> rw [h] <;> simp

theorem missing_of_walk {mem mem' : PhysMem} {root v n : Nat} {i : Fin 512} {p : List (Fin 512)}
    (hp : i :: p <:+ ptPath v) (hnone : tableAt mem root (i :: p) = none) (hnew : tableAt mem' root (i :: p) = some n)
    (hsame : ∀ q, q ≠ i :: p → tableAt mem' root q = tableAt mem root q) :
    missing mem' root v + 1 = missing mem root v := by
  have hpd : pdPath v ≠ ptPath v := by simp [ptPath, pdPath, pdptPath]
  have hpdpt : pdptPath v ≠ ptPath v := by simp [ptPath, pdPath, pdptPath]
  have hpdpt' : pdptPath v ≠ pdPath v := by simp [pdPath, pdptPath]
  simp only [missing, List.countP_cons, List.countP_nil]
  rcases cons_suffix_ptPath hp with h | h | h
  · rw [h] at hnone hnew hsame
    rw [hnone, hnew, hsame _ hpd, hsame _ hpdpt]
    simp only [Option.isNone_none, Option.isNone_some, Bool.false_eq_true, if_true, if_false]
    omega
  · rw [h] at hnone hnew hsame
    rw [hnone, hnew, hsame _ hpd.symm, hsame _ hpdpt']
    simp only [Option.isNone_none, Option.isNone_some, Bool.false_eq_true, if_true, if_false]
    omega
  · rw [h] at hnone hnew hsame
    rw [hnone, hnew, hsame _ hpdpt.symm, hsame _ hpdpt'.symm]
    simp only [Option.isNone_none, Option.isNone_some, Bool.false_eq_true, if_true, if_false]

theorem AddressSpace.nextTable {s : Vm} {root v t : Nat} {p : List (Fin 512)} {i : Fin 512} (h : AddressSpace s root)
    (hp : i :: p <:+ ptPath v) (hhuge : NoHuge s.mem root v) (ht : tableAt s.mem root p = some t) :
    (∃ s', vmmNextTable s t i = (none, s') ∧ s'.mem = s.mem ∧ s.pmm.freeCount < missing s.mem root v) ∨
    ∃ n s', vmmNextTable s t i = (some n, s') ∧ Reaches s s' root v i p n := by
  have hlen : p.length ≤ 2 := by
    have hle := hp.length_le
    simp only [List.length_cons, ptPath, pdPath, pdptPath, List.length_nil] at hle
    omega
  rcases hpresent : isPresent (s.mem t i) with _ | _
  · have hnone : tableAt s.mem root (i :: p) = none := (walk_step ht i).trans (child_of_absent hpresent)
    rcases s.pmm.pmmAllocPage_freeCount h.nullTaken with ⟨halloc, hzero⟩ | ⟨hne, hcount, -⟩
    · refine .inl ⟨s, ?_, rfl, hzero ▸ missing_pos hp hnone⟩
      simp only [vmmNextTable, hpresent, Bool.false_eq_true, if_false, Vm.allocPage, halloc, if_true]
    · refine .inr ?_
      have hfree := Pmm.free_of_pmmAllocPage hne
      obtain ⟨place, hplaced, hplace⟩ := Placed.of_walk_inj h.distinct
      generalize hpage : s.pmm.pmmAllocPage.1 = n at *
      have hdvd := hfree.dvd
      have hnplace : place n = none := by
        rcases hpl : place n with _ | q
        · rfl
        · exact absurd hfree (h.taken q n ((hplace n q).1 hpl))
      have hne_of : ∀ {q u}, tableAt s.mem root q = some u → u ≠ n := by
        rintro q u hu rfl
        rw [(hplace u q).2 hu] at hnplace
        cases hnplace
      have htn := hne_of ht
      -- the state with the new table linked
      generalize hs' : (s.allocPage.2.zeroPage n).setEntry t i (tableEntry n) = s'
      have hrun : vmmNextTable s t i = (some n, s') := by
        simp only [vmmNextTable, hpresent, Bool.false_eq_true, if_false]
        rw [Vm.allocPage_fst, hpage, if_neg hne, hs', ← hs', Vm.setEntry_mem_self, pageOf_tableEntry hdvd]
      have hself : s'.mem t i = tableEntry n := by rw [← hs', Vm.setEntry_mem_self]
      have hzero : ∀ j, s'.mem n j = 0 := fun j => by
        rw [← hs', Vm.setEntry_mem_page_of_ne _ htn.symm, Vm.zeroPage_mem_self]
      have hmem : ∀ u j, u ≠ n → ¬(u = t ∧ j = i.val) → s'.mem u j = s.mem u j := fun u j hu hj => by
        rw [← hs', Vm.setEntry_mem_of_ne _ hj, Vm.zeroPage_mem_of_ne _ hu, Vm.allocPage_mem]
      have hpmm : s'.pmm = s.pmm.pmmAllocPage.2 := by rw [← hs']; rfl
      have hchild : child p.length (s'.mem t i) = some n := by rw [hself, child_tableEntry hlen hdvd]
      have hentries : ∀ u (j : Fin 512), u ≠ n → ¬(u = t ∧ j = i) → entries s'.mem u j = entries s.mem u j :=
        fun u j hu hj => hmem u j hu fun ⟨hut, hji⟩ => hj ⟨hut, Fin.ext hji⟩
      have hleads : ∀ u, child p.length (entries s'.mem t i) = some u → u = n := fun u hu =>
        (Option.some.inj (hchild.symm.trans hu)).symm
      have hempty : ∀ j, child (p.length + 1) (entries s'.mem n j) = none := fun j =>
        child_of_absent (by rw [entries, hzero]; rfl)
      have hpl := (hplace t p).2 ht
      have hlink := hplaced.link hpl hnplace hentries hleads hempty
      have hother : ∀ q, q ≠ i :: p → tableAt s'.mem root q = tableAt s.mem root q := fun q hq =>
        hplaced.walk_link_of_ne (walk_unique ht) hpl hnplace (child_of_absent hpresent) hentries hleads hempty hq
      have hpself : p ≠ i :: p := fun he => by
        have := congrArg List.length he
        simp at this
      have hnew : tableAt s'.mem root (i :: p) = some n :=
        (walk_step ((hother p hpself).trans ht) i).trans hchild
      refine ⟨n, s', hrun, ⟨h.root_ne, fun _ _ _ ha hb => hlink.walk_inj ha hb, fun q u hu hfree' => ?_, fun h0 => ?_⟩,
        hnew, fun w => ?_, fun _ q j u hq hqne hu hpr => ?_, hother, 1, ?_, ?_⟩
      · rw [hpmm, Pmm.free_pmmAllocPage_iff, hpage] at hfree'
        by_cases hq : q = i :: p
        · rw [hq, hnew] at hu
          exact hfree'.2 (Option.some.inj hu).symm
        · exact h.taken q u ((hother q hq).symm.trans hu) hfree'.1
      · rw [hpmm, Pmm.free_pmmAllocPage_iff] at h0
        exact h.nullTaken h0.1
      · exact pageWalk_of_link hplaced ht hlen hpresent hnplace hnew hzero hmem
      · by_cases hqp : q = i :: p
        · rw [hqp, hnew] at hu
          obtain rfl := Option.some.inj hu
          rw [hzero] at hpr
          cases hpr
        · rw [hother q hqp] at hu
          by_cases hentry : u = t ∧ j = i
          · obtain ⟨rfl, rfl⟩ := hentry
            rw [hself, isHuge_tableEntry hdvd]
          · have heq : s'.mem u j = s.mem u j := hentries u j (hne_of hu) hentry
            rw [heq] at hpr ⊢
            exact hhuge q j u hq hqne hu hpr
      · rw [hpmm]
        exact hcount
      · exact missing_of_walk hp hnone hnew hother
  · refine .inr ⟨pageOf (s.mem t i), s, by rw [vmmNextTable, if_pos hpresent], h, ?_, fun _ => rfl, fun hn => hn,
      fun _ _ => rfl, 0, rfl, rfl⟩
    have hstep : tableAt s.mem root (i :: p) = child p.length (s.mem t i) := walk_step ht i
    rw [hstep]
    match p, hlen with
    | [], _ => simp [child, hpresent]
    | [a], _ => simp [child, hpresent, hhuge [a] i t hp (List.cons_ne_nil _ _) ht hpresent]
    | [a, b], _ => simp [child, hpresent, hhuge [a, b] i t hp (List.cons_ne_nil _ _) ht hpresent]

/-! ## The entry of a page -/

section

variable {s : Vm} {root v w pt e : Nat}

theorem walk_setEntry (h : AddressSpace s root) (hpt : tableAt s.mem root (ptPath v) = some pt) (q : List (Fin 512)) :
    tableAt (s.setEntry pt (ptIdx v) e).mem root q = tableAt s.mem root q := by
  obtain ⟨place, hplaced, hplace⟩ := Placed.of_walk_inj h.distinct
  by_cases hq : pagePath v <:+ q
  · have hstop : ∀ mem, tableAt mem root (ptPath v) = some pt → tableAt mem root (pagePath v) = none :=
      fun mem hmem => walk_step hmem _
    have haway : tableAt (s.setEntry pt (ptIdx v) e).mem root (ptPath v) = some pt := by
      refine (hplaced.walk_congr fun u r j hu hj => Vm.setEntry_mem_of_ne _ ?_).trans hpt
      rintro ⟨rfl, -⟩
      obtain rfl := Option.some.inj (((hplace u _).2 hpt).symm.trans hu)
      exact absurd hj.length_le (by simp)
    exact (walk_none_of_suffix (hstop _ haway) hq).trans (walk_none_of_suffix (hstop _ hpt) hq).symm
  · refine hplaced.walk_congr fun u r j hu hj => Vm.setEntry_mem_of_ne _ ?_
    rintro ⟨rfl, hji⟩
    obtain rfl := Option.some.inj (((hplace u _).2 hpt).symm.trans hu)
    have hj' : j = ⟨ptIdx v, ptIdx_lt v⟩ := Fin.ext hji
    rw [hj'] at hj
    exact hq hj

theorem AddressSpace.setEntry (h : AddressSpace s root) (hpt : tableAt s.mem root (ptPath v) = some pt) :
    AddressSpace (s.setEntry pt (ptIdx v) e) root where
  root_ne := h.root_ne
  distinct p q t hp hq := h.distinct p q t ((walk_setEntry h hpt p).symm.trans hp) ((walk_setEntry h hpt q).symm.trans hq)
  taken p t hp := h.taken p t ((walk_setEntry h hpt p).symm.trans hp)
  nullTaken := h.nullTaken

theorem pageWalk_setEntry_of_ne (h : AddressSpace s root) (hpt : tableAt s.mem root (ptPath v) = some pt)
    (hw : pageNumber w ≠ pageNumber v) : pageWalk (s.setEntry pt (ptIdx v) e).mem root w = pageWalk s.mem root w := by
  obtain ⟨place, hplaced, hplace⟩ := Placed.of_walk_inj h.distinct
  refine pageWalk_of_same hplaced fun u q j hu hj => Vm.setEntry_mem_of_ne _ ?_
  rintro ⟨rfl, hji⟩
  obtain rfl := Option.some.inj (((hplace u _).2 hpt).symm.trans hu)
  have hj' : j = ⟨ptIdx v, ptIdx_lt v⟩ := Fin.ext hji
  subst hj'
  have hpath : pagePath v = pagePath w := hj.eq_of_length (by simp [pagePath, ptPath, pdPath, pdptPath])
  exact hw (pagePath_eq_iff.1 hpath).symm

theorem pageWalk_leaf (h : AddressSpace s root) (hpt : tableAt s.mem root (ptPath v) = some pt) :
    pageWalk (s.setEntry pt (ptIdx v) e).mem root v = if isPresent e then pageOf e ||| v % pageSize else 0 := by
  rw [pageWalk_of_walk ((walk_setEntry h hpt _).trans hpt), Vm.setEntry_mem_self]

end

/-! ## Mapping -/

/-- The entry `vmm_map_page` writes. -/
def mapEntry (phys flags : Nat) : Nat := pageOf phys ||| offsetOf flags ||| pml4Present

theorem isPresent_mapEntry (phys flags : Nat) : isPresent (mapEntry phys flags) = true := by
  simp [mapEntry, isPresent, pml4Present]

theorem pageOf_mapEntry (phys flags : Nat) : pageOf (mapEntry phys flags) = pageOf phys := by
  rw [mapEntry, Nat.or_assoc]
  exact pageOf_or (dvd_pageOf phys) (Nat.or_lt_two_pow (n := 12) (offsetOf_lt flags) (by decide))

/-- What `vmm_map_page` leaves when the tables on the path of its address are there, before it writes the entry. -/
structure PathMade (s s' : Vm) (root v pt : Nat) : Prop where
  space : AddressSpace s' root
  walk : tableAt s'.mem root (ptPath v) = some pt
  same : ∀ w, pageWalk s'.mem root w = pageWalk s.mem root w
  others : ∀ q, ¬ q <:+ ptPath v → tableAt s'.mem root q = tableAt s.mem root q
  spent : s'.pmm.freeCount + missing s.mem root v = s.pmm.freeCount

theorem missing_eq_zero {mem : PhysMem} {root v pt : Nat} (hpt : tableAt mem root (ptPath v) = some pt) :
    missing mem root v = 0 := by
  obtain ⟨pd, hpd, -⟩ := of_walk_cons hpt
  obtain ⟨pdpt, hpdpt, -⟩ := of_walk_cons hpd
  have hw₂ : tableAt mem root (pdPath v) = some pd := hpd
  have hw₃ : tableAt mem root (pdptPath v) = some pdpt := hpdpt
  simp only [missing, List.countP_cons, List.countP_nil, hpt, hw₂, hw₃, Option.isNone_some, Bool.false_eq_true, if_false]

theorem AddressSpace.map {s : Vm} {root v : Nat} (h : AddressSpace s root) (hhuge : NoHuge s.mem root v)
    (phys flags : Nat) : (s.pmm.freeCount < missing s.mem root v ∧
      ∀ w, pageWalk (vmmMapPage s root v phys flags).mem root w = pageWalk s.mem root w) ∨
    ∃ s' pt, PathMade s s' root v pt ∧
      vmmMapPage s root v phys flags = s'.setEntry pt (ptIdx v) (mapEntry phys flags) := by
  have hpd : pdPath v <:+ ptPath v := List.suffix_cons _ _
  have hpdpt : pdptPath v <:+ ptPath v := (List.suffix_cons _ _).trans hpd
  rw [vmmMapPage, if_neg h.root_ne]
  rcases h.nextTable (i := ⟨pml4Idx v, pml4Idx_lt v⟩) hpdpt hhuge walk_nil with ⟨s₁, h₁, hm, hfew⟩ | ⟨pdpt, s₁, h₁, r₁⟩
  · rw [h₁]
    exact .inl ⟨hfew, fun w => by rw [hm]⟩
  obtain ⟨k₁, hf₁, hm₁⟩ := r₁.budget
  have hh₁ := r₁.noHuge hhuge
  rw [h₁]
  dsimp only
  rcases r₁.space.nextTable (i := ⟨pdptIdx v, pdptIdx_lt v⟩) hpd hh₁ r₁.walk with ⟨s₂, h₂, hm, hfew⟩ | ⟨pd, s₂, h₂, r₂⟩
  · rw [h₂]
    exact .inl ⟨by omega, fun w => by rw [hm, r₁.same]⟩
  obtain ⟨k₂, hf₂, hm₂⟩ := r₂.budget
  have hh₂ := r₂.noHuge hh₁
  rw [h₂]
  dsimp only
  rcases r₂.space.nextTable (i := ⟨pdIdx v, pdIdx_lt v⟩) (List.suffix_refl _) hh₂ r₂.walk with
    ⟨s₃, h₃, hm, hfew⟩ | ⟨pt, s₃, h₃, r₃⟩
  · rw [h₃]
    exact .inl ⟨by omega, fun w => by rw [hm, r₂.same, r₁.same]⟩
  obtain ⟨k₃, hf₃, hm₃⟩ := r₃.budget
  rw [h₃]
  -- all three are there now
  have hall := missing_eq_zero (v := v) r₃.walk
  refine .inr ⟨s₃, pt, ⟨r₃.space, r₃.walk, fun w => by rw [r₃.same, r₂.same, r₁.same], fun q hq => ?_, by omega⟩, rfl⟩
  rw [r₃.others q fun he => hq (he ▸ List.suffix_refl _), r₂.others q fun he => hq (he ▸ hpd),
    r₁.others q fun he => hq (he ▸ hpdpt)]

theorem vmmMapPage_of_walk {s : Vm} {root v pt : Nat} (hroot : root ≠ 0)
    (hpt : tableAt s.mem root (ptPath v) = some pt) (phys flags : Nat) :
    vmmMapPage s root v phys flags = s.setEntry pt (ptIdx v) (mapEntry phys flags) := by
  obtain ⟨pd, hpd, hpt'⟩ := of_walk_cons hpt
  obtain ⟨pdpt, hpdpt, hpd'⟩ := of_walk_cons hpd
  have hpdpt' : child 0 (s.mem root (pml4Idx v)) = some pdpt := hpdpt
  obtain ⟨hp4, rfl, -⟩ := of_child hpdpt'
  obtain ⟨hp3, rfl, -⟩ := of_child hpd'
  obtain ⟨hp2, rfl, -⟩ := of_child hpt'
  simp only [entries] at hp3 hp2
  simp only [vmmMapPage, vmmNextTable, hroot, hp4, hp3, hp2, if_false, if_true, entries, mapEntry]

theorem vmmUnmapPage_of_walk {s : Vm} {root v pt : Nat} (hroot : root ≠ 0)
    (hpt : tableAt s.mem root (ptPath v) = some pt) : vmmUnmapPage s root v = s.setEntry pt (ptIdx v) 0 := by
  obtain ⟨pd, hpd, hpt'⟩ := of_walk_cons hpt
  obtain ⟨pdpt, hpdpt, hpd'⟩ := of_walk_cons hpd
  have hpdpt' : child 0 (s.mem root (pml4Idx v)) = some pdpt := hpdpt
  obtain ⟨hp4, rfl, -⟩ := of_child hpdpt'
  obtain ⟨hp3, rfl, -⟩ := of_child hpd'
  obtain ⟨hp2, rfl, -⟩ := of_child hpt'
  simp only [entries] at hp3 hp2
  simp only [vmmUnmapPage, hroot, hp4, hp3, hp2, if_false, Bool.not_true, Bool.false_eq_true, entries]

/-- **Mapping a page, and unmapping it.** In a well-formed address space whose path to `virt` has no huge page, and with
a free page for every missing table, `virt` is translated to its frame and no other page to anything else; after
`vmm_unmap_page` it has no translation, and the others the one from before. With fewer free pages no translation
changes. -/
theorem mapping_frames {s : Vm} {cr3 virt : Nat} (h : AddressSpace s cr3) (hhuge : NoHuge s.mem cr3 virt)
    (phys flags : Nat) : (missing s.mem cr3 virt ≤ s.pmm.freeCount →
      vmmTranslate (vmmMapPage s cr3 virt phys flags).mem cr3 virt = pageOf phys + virt % pageSize ∧
      (∀ w, pageNumber w ≠ pageNumber virt →
        vmmTranslate (vmmMapPage s cr3 virt phys flags).mem cr3 w = vmmTranslate s.mem cr3 w) ∧
      vmmTranslate (vmmUnmapPage (vmmMapPage s cr3 virt phys flags) cr3 virt).mem cr3 virt = 0 ∧
      ∀ w, pageNumber w ≠ pageNumber virt →
        vmmTranslate (vmmUnmapPage (vmmMapPage s cr3 virt phys flags) cr3 virt).mem cr3 w = vmmTranslate s.mem cr3 w) ∧
    (s.pmm.freeCount < missing s.mem cr3 virt →
      ∀ w, vmmTranslate (vmmMapPage s cr3 virt phys flags).mem cr3 w = vmmTranslate s.mem cr3 w) := by
  have htranslate : ∀ mem w, vmmTranslate mem cr3 w = pageWalk mem cr3 w := fun mem w => by
    rw [vmmTranslate, if_neg h.root_ne]
  simp only [htranslate]
  rcases h.map hhuge phys flags with ⟨hfew, hsame⟩ | ⟨s', pt, ⟨hspace, hpt, hsame, -, hspent⟩, hmap⟩
  · exact ⟨fun hle => absurd hfew (Nat.not_lt.2 hle), fun _ => hsame⟩
  refine ⟨fun _ => ?_, fun hfew => absurd hfew (by omega)⟩
  have hspace' := hspace.setEntry (e := mapEntry phys flags) hpt
  have hpt' := (walk_setEntry (e := mapEntry phys flags) hspace hpt _).trans hpt
  rw [hmap, vmmUnmapPage_of_walk h.root_ne hpt']
  refine ⟨?_, fun w hw => ?_, ?_, fun w hw => ?_⟩
  · rw [pageWalk_leaf hspace hpt, if_pos (isPresent_mapEntry phys flags), pageOf_mapEntry]
    obtain ⟨k, hk⟩ := dvd_pageOf phys
    rw [hk]
    exact (Nat.two_pow_add_eq_or_of_lt (i := 12) (Nat.mod_lt _ (by decide)) k).symm
  · rw [pageWalk_setEntry_of_ne hspace hpt hw, hsame]
  · rw [pageWalk_leaf hspace' hpt', isPresent_zero]
    rfl
  · rw [pageWalk_setEntry_of_ne hspace' hpt' hw, pageWalk_setEntry_of_ne hspace hpt hw, hsame]

/-- An empty PML4 in page 1, and six free pages. -/
def emptySpace : Vm :=
  { mem := fun _ _ => 0, pmm := { bitmap := fun i => decide (i < 2), totalPages := 8, usedPages := 2 } }

theorem tableAt_emptySpace {p : List (Fin 512)} {t : Nat} (h : tableAt emptySpace.mem 0x1000 p = some t) :
    p = [] ∧ t = 0x1000 := by
  cases p with
  | nil => exact ⟨rfl, (Option.some.inj h).symm⟩
  | cons i p =>
    obtain ⟨u, _, hchild⟩ := of_walk_cons h
    have hp : isPresent 0 = true := (of_child hchild).1
    rw [isPresent_zero] at hp
    cases hp

theorem addressSpace_emptySpace : AddressSpace emptySpace 0x1000 where
  root_ne := by decide
  distinct _ _ _ hp hq := (tableAt_emptySpace hp).1.trans (tableAt_emptySpace hq).1.symm
  taken p t hp := by
    rw [(tableAt_emptySpace hp).2]
    rintro ⟨i, _, hi, hit⟩
    obtain rfl : i = 1 := by
      simp only [pageSize] at hit
      omega
    cases hi
  nullTaken := by
    rintro ⟨i, _, hi, hit⟩
    obtain rfl : i = 0 := by
      simp only [pageSize] at hit
      omega
    cases hi

theorem mapped_emptySpace : vmmTranslate (vmmMapPage emptySpace 0x1000 0x400123 0x5000 7).mem 0x1000 0x400123 = 0x5123 ∧
      vmmTranslate (vmmUnmapPage (vmmMapPage emptySpace 0x1000 0x400123 0x5000 7) 0x1000 0x400123).mem 0x1000
        0x400123 = 0 := by
  have hhuge : NoHuge emptySpace.mem 0x1000 0x400123 := fun _ _ _ _ hne ht _ => absurd (tableAt_emptySpace ht).1 hne
  have h := (mapping_frames addressSpace_emptySpace hhuge 0x5000 7).1 (by decide)
  exact ⟨h.1, h.2.2.1⟩

end Chicago95.Kernel.Paging
