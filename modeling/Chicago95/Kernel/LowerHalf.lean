/-
# Chicago95.Kernel.LowerHalf — the lower half of an address space, by itself.

`Kernel.Mapping` says which pages an address space is made of, `Kernel.Translation` what its tables translate. Here the
two meet. Kernel halves are shared between PML4s, and within one nothing keeps two entries from leading to one table, so
a whole address space need not be a tree; its lower half is. With the upper half of the PML4 blanked out (`lowerHalf`)
typed pages are a well-formed address space without huge pages (`Owned.addressSpace`), and the functions that work on
addresses of the lower half do not notice the blank (`Owned.pageWalk_lowerHalf`, `Owned.mapPage`).
-/
import Chicago95.Kernel.Mapping
import Chicago95.Kernel.Translation

namespace Chicago95.Kernel

open Chicago95.Lib.Radix Chicago95.Kernel.Paging

/-- The address space at `r` without its kernel half. -/
def lowerHalf (s : Vm) (r : Nat) : Vm :=
  { s with mem := fun t i => if t = r ∧ halfEntries ≤ i then 0 else s.mem t i }

section

variable {s : Vm} {r t i e a : Nat}

theorem lowerHalf_mem_of_ne (ht : t ≠ r) : (lowerHalf s r).mem t = s.mem t :=
  funext fun _ => if_neg fun h => ht h.1

theorem lowerHalf_mem_low (hi : i < halfEntries) : (lowerHalf s r).mem t i = s.mem t i :=
  if_neg fun h => absurd hi (Nat.not_lt.2 h.2)

theorem lowerHalf_mem_high (hi : halfEntries ≤ i) : (lowerHalf s r).mem r i = 0 := if_pos ⟨rfl, hi⟩

theorem setEntry_lowerHalf (h : ¬(t = r ∧ halfEntries ≤ i)) :
    (lowerHalf s r).setEntry t i e = lowerHalf (s.setEntry t i e) r := by
  refine congrArg (Vm.mk · s.pmm) (funext fun t' => funext fun i' => ?_)
  by_cases hentry : t' = t ∧ i' = i
  · obtain ⟨rfl, rfl⟩ := hentry
    rw [if_neg h]
    exact (Vm.setEntry_mem_self ..).trans (Vm.setEntry_mem_self ..).symm
  · have hold : ((lowerHalf s r).setEntry t i e).mem t' i' = (lowerHalf s r).mem t' i' := Vm.setEntry_mem_of_ne _ hentry
    have hnew : (s.setEntry t i e).mem t' i' = s.mem t' i' := Vm.setEntry_mem_of_ne _ hentry
    rw [hnew]
    exact hold

theorem zeroPage_lowerHalf : (lowerHalf s r).zeroPage a = lowerHalf (s.zeroPage a) r := by
  refine congrArg (Vm.mk · s.pmm) (funext fun t' => funext fun i' => ?_)
  by_cases hpage : t' = a
  · subst hpage
    rw [Vm.zeroPage_mem_self, ite_self]
    exact Vm.zeroPage_mem_self ..
  · have hold : ((lowerHalf s r).zeroPage a).mem t' = (lowerHalf s r).mem t' := Vm.zeroPage_mem_of_ne _ hpage
    rw [Vm.zeroPage_mem_of_ne _ hpage]
    exact congrFun hold i'

theorem vmmNextTable_lowerHalf (h : ¬(t = r ∧ halfEntries ≤ i)) :
    vmmNextTable (lowerHalf s r) t i = ((vmmNextTable s t i).1, lowerHalf (vmmNextTable s t i).2 r) := by
  have hentry : (lowerHalf s r).mem t i = s.mem t i := if_neg h
  unfold vmmNextTable
  rw [hentry]
  by_cases hpr : isPresent (s.mem t i) = true
  · rw [if_pos hpr, if_pos hpr]
  rw [if_neg hpr, if_neg hpr]
  have halloc : (lowerHalf s r).allocPage = (s.allocPage.1, lowerHalf s.allocPage.2 r) := rfl
  rw [halloc]
  dsimp only
  by_cases hpage : s.allocPage.1 = 0
  · rw [if_pos hpage, if_pos hpage]
  · rw [if_neg hpage, if_neg hpage, zeroPage_lowerHalf, setEntry_lowerHalf h]
    have hself : ∀ s' : Vm, (lowerHalf s' r).mem t i = s'.mem t i := fun _ => if_neg h
    rw [hself]

theorem vmmNextTable_mem_of_ne {u : Nat} (ht : u ≠ t) (hfree : ¬ s.pmm.Free u) :
    (vmmNextTable s t i).2.mem u = s.mem u := by
  unfold vmmNextTable
  split
  · rfl
  dsimp only
  rw [Vm.allocPage_fst]
  by_cases hpage : s.pmm.pmmAllocPage.1 = 0
  · rw [if_pos hpage]
    rfl
  · rw [if_neg hpage]
    dsimp only
    have hne : u ≠ s.pmm.pmmAllocPage.1 := fun he => hfree (he ▸ Pmm.free_of_pmmAllocPage hpage)
    rw [Vm.setEntry_mem_page_of_ne _ ht, Vm.zeroPage_mem_of_ne _ hne]
    rfl

theorem vmmNextTable_used {u : Nat} (hu : s.pmm.Used u) : (vmmNextTable s t i).2.pmm.Used u := by
  unfold vmmNextTable
  split
  · exact hu
  dsimp only
  split
  · exact hu.pmmAllocPage
  · exact hu.pmmAllocPage

end

theorem pml4Idx_of_pageNumber {v w : Nat} (h : pageNumber v = pageNumber w) : pml4Idx v = pml4Idx w := by
  simp only [pageNumber, pml4Idx, pageSize] at *
  omega

theorem pageWalk_of_missing {mem : PhysMem} {root v : Nat} (hhuge : NoHuge mem root v)
    (hpt : tableAt mem root (ptPath v) = none) : pageWalk mem root v = 0 := by
  have hpd' : pdPath v <:+ ptPath v := List.suffix_cons _ _
  rw [pageWalk_eq, hpt]
  rcases h3 : tableAt mem root (pdptPath v) with _ | pdpt
  · rfl
  have hh3 := hhuge (pdptPath v) ⟨pdptIdx v, pdptIdx_lt v⟩ pdpt hpd' (List.cons_ne_nil _ _) h3
  dsimp only at hh3 ⊢
  rcases hp3 : isPresent (mem pdpt (pdptIdx v)) with _ | _
  · rcases h2 : tableAt mem root (pdPath v) with _ | pd
    · simp
    · have hstop : tableAt mem root (pdPath v) = child 1 (mem pdpt (pdptIdx v)) := walk_step h3 _
      rw [h2, child_of_absent hp3] at hstop
      cases hstop
  rw [hh3 hp3]
  rcases h2 : tableAt mem root (pdPath v) with _ | pd
  · simp
  have hh2 := hhuge (pdPath v) ⟨pdIdx v, pdIdx_lt v⟩ pd (List.suffix_refl _) (List.cons_ne_nil _ _) h2
  dsimp only at hh2 ⊢
  rcases hp2 : isPresent (mem pd (pdIdx v)) with _ | _
  · simp
  · rw [hh2 hp2]
    simp

namespace Owned

variable {roles : Nat → Option Role} {s : Vm} {reg r v w t : Nat} {roots : Slot → Nat} {p q : List (Fin 512)}

/-! ## A typed lower half is a tree -/

theorem role_of_walk (ho : Owned roles s reg roots) (hr : roles r = some (.top r)) :
    ∀ {p : List (Fin 512)} {t : Nat}, tableAt (lowerHalf s r).mem r p = some t →
      p.length ≤ 3 ∧ ∃ u i, roles t = some (.node r (4 - p.length) u i) ∧
        ∀ j q, p = j :: q → i = j.val ∧ tableAt (lowerHalf s r).mem r q = some u := by
  intro p
  induction p with
  | nil =>
    intro t ht
    obtain rfl := Option.some.inj ht
    exact ⟨by decide, 0, 0, hr, fun _ _ he => nomatch he⟩
  | cons j q ih =>
    intro t ht
    obtain ⟨u, hu, hchild⟩ := of_walk_cons ht
    obtain ⟨hlen, u', i', hrole, -⟩ := ih hu
    obtain ⟨hpr, hpage, -⟩ := of_child hchild
    have hdepth : q.length ≤ 2 := by
      by_contra hdeep
      obtain ⟨d, hd⟩ : ∃ d, q.length = d + 3 := ⟨q.length - 3, by omega⟩
      rw [hd] at hchild
      cases hchild
    have hheight : 4 - q.length = (4 - (j :: q).length) + 1 := by
      rw [List.length_cons]
      omega
    -- the upper entries of the PML4 are blank; no other table has such entries
    have hj : j.val < lowerEntries ((4 - (j :: q).length) + 1) ∧ s.mem u j = entries (lowerHalf s r).mem u j := by
      by_cases hur : u = r
      · subst hur
        rcases Nat.lt_or_ge j.val halfEntries with hlow | hhigh
        · refine ⟨Nat.lt_of_lt_of_le hlow ?_, (lowerHalf_mem_low hlow).symm⟩
          unfold lowerEntries
          split <;> decide
        · rw [entries, lowerHalf_mem_high hhigh] at hpr
          cases hpr
      · refine ⟨?_, (congrFun (lowerHalf_mem_of_ne hur) j.val).symm⟩
        have hq : q.length ≠ 0 := by
          intro hz
          obtain rfl := List.eq_nil_of_length_eq_zero hz
          exact hur (Option.some.inj hu).symm
        rw [lowerEntries, if_neg (by rw [List.length_cons]; omega)]
        exact j.isLt
    rw [hheight] at hrole
    rw [← hj.2] at hpr hpage
    have hchildrole := ho.child u r _ u' i' j.val hrole hj.1 hpr
    rw [hpage] at hchildrole
    refine ⟨by rw [List.length_cons]; omega, u, j.val, hchildrole, fun j' q' he => ?_⟩
    obtain ⟨rfl, rfl⟩ := List.cons.inj he
    exact ⟨rfl, hu⟩

theorem addressSpace (ho : Owned roles s reg roots) (hr : roles r = some (.top r)) :
    AddressSpace (lowerHalf s r) r where
  root_ne := by
    rintro rfl
    exact ho.null 0 ⟨_, _, _, hr⟩
  distinct p := by
    induction p with
    | nil =>
      intro q t hp hq
      obtain ⟨-, u, i, hrole, -⟩ := ho.role_of_walk hr hp
      obtain ⟨hlen, u', i', hrole', -⟩ := ho.role_of_walk hr hq
      rw [hrole] at hrole'
      have hheight := (Role.node.inj (Option.some.inj hrole')).2.1
      rw [List.length_nil] at hheight
      exact (List.eq_nil_of_length_eq_zero (by omega)).symm
    | cons j p ih =>
      intro q t hp hq
      obtain ⟨hlen, u, i, hrole, hlast⟩ := ho.role_of_walk hr hp
      obtain ⟨hlen', u', i', hrole', hlast'⟩ := ho.role_of_walk hr hq
      rw [hrole] at hrole'
      obtain ⟨-, hheight, rfl, rfl⟩ := Role.node.inj (Option.some.inj hrole')
      rw [List.length_cons] at hheight hlen
      cases q with
      | nil =>
        rw [List.length_nil] at hheight
        omega
      | cons j' q =>
        obtain ⟨hj, hu⟩ := hlast j p rfl
        obtain ⟨hj', hu'⟩ := hlast' j' q rfl
        rw [ih q u hu hu', Fin.ext (hj.symm.trans hj')]
  taken p t hp := by
    obtain ⟨-, u, i, hrole, -⟩ := ho.role_of_walk hr hp
    exact ho.not_free hrole
  nullTaken := ho.nullTaken

theorem noHuge (ho : Owned roles s reg roots) (hr : roles r = some (.top r)) (v : Nat) :
    NoHuge (lowerHalf s r).mem r v := by
  intro p i t hp hne ht hpr
  obtain ⟨-, u, j, hrole, -⟩ := ho.role_of_walk hr ht
  have hlen : p.length ≤ 2 := by
    have hle := hp.length_le
    simp only [List.length_cons, ptPath, pdPath, pdptPath, List.length_nil] at hle
    omega
  have hpos : 0 < p.length := List.length_pos_of_ne_nil hne
  have htr : t ≠ r := by
    rintro rfl
    rw [hr] at hrole
    have hheight : 4 = 4 - p.length := (Role.node.inj (Option.some.inj hrole)).2.1
    omega
  obtain ⟨h, hh⟩ : ∃ h, 4 - p.length = h + 2 := ⟨2 - p.length, by omega⟩
  rw [lowerHalf_mem_of_ne htr] at hpr ⊢
  rw [hh] at hrole
  refine ho.small t r h u j i.val hrole ?_ hpr
  rw [lowerEntries, if_neg (by omega)]
  exact i.isLt

/-! ## Addresses of the lower half -/

theorem tableAt_lowerHalf (ho : Owned roles s reg roots) (hr : roles r = some (.top r)) (hv : pml4Idx v < halfEntries) :
    ∀ {q : List (Fin 512)}, q <:+ ptPath v → tableAt (lowerHalf s r).mem r q = tableAt s.mem r q := by
  intro q
  induction q with
  | nil => intro _; rfl
  | cons i q ih =>
    intro hq
    have hrest := ih ((List.suffix_cons i q).trans hq)
    change (tableAt (lowerHalf s r).mem r q).bind _ = (tableAt s.mem r q).bind _
    rw [hrest]
    rcases hwalk : tableAt s.mem r q with _ | t
    · rfl
    · rw [hwalk] at hrest
      show Paging.child q.length ((lowerHalf s r).mem t i) = Paging.child q.length (s.mem t i)
      by_cases htr : t = r
      · subst htr
        obtain rfl : q = [] := (ho.addressSpace hr).distinct q [] t hrest rfl
        have hpath : [i] <:+ pagePath v := hq.trans (List.suffix_cons _ _)
        rcases suffix_pagePath_iff.1 hpath with ⟨-, he⟩ | ⟨-, he⟩ | ⟨-, he⟩ | ⟨rfl, -⟩
        · cases he
        · cases he
        · cases he
        · rw [lowerHalf_mem_low hv]
      · rw [lowerHalf_mem_of_ne htr]

theorem role_of_path (ho : Owned roles s reg roots) (hr : roles r = some (.top r)) (hv : pml4Idx v < halfEntries)
    (hq : q <:+ ptPath v) (ht : tableAt s.mem r q = some t) : ∃ h u i, roles t = some (.node r (h + 1) u i) := by
  rw [← ho.tableAt_lowerHalf hr hv hq] at ht
  obtain ⟨hlen, u, i, hrole, -⟩ := ho.role_of_walk hr ht
  exact ⟨3 - q.length, u, i, by rw [hrole]; congr 2; omega⟩

theorem table_ne_root (ho : Owned roles s reg roots) (hr : roles r = some (.top r)) {i : Fin 512}
    (ht : tableAt (lowerHalf s r).mem r (i :: q) = some t) : t ≠ r := by
  rintro rfl
  cases (ho.addressSpace hr).distinct (i :: q) [] t ht rfl

theorem pageWalk_lowerHalf (ho : Owned roles s reg roots) (hr : roles r = some (.top r))
    (hv : pml4Idx v < halfEntries) : pageWalk (lowerHalf s r).mem r v = pageWalk s.mem r v := by
  have hpd' : pdPath v <:+ ptPath v := List.suffix_cons _ _
  have hpdpt' : pdptPath v <:+ ptPath v := (List.suffix_cons _ _).trans hpd'
  have hmem : ∀ {i q t}, tableAt s.mem r (i :: q) = some t → i :: q <:+ ptPath v →
      (lowerHalf s r).mem t = s.mem t := fun ht hq =>
    lowerHalf_mem_of_ne (ho.table_ne_root hr ((ho.tableAt_lowerHalf hr hv hq).trans ht))
  rw [pageWalk_eq, pageWalk_eq, ho.tableAt_lowerHalf hr hv hpdpt', ho.tableAt_lowerHalf hr hv hpd',
    ho.tableAt_lowerHalf hr hv (List.suffix_refl _)]
  rcases h3 : tableAt s.mem r (pdptPath v) with _ | pdpt
  · rfl
  dsimp only
  rw [hmem h3 hpdpt']
  rcases h2 : tableAt s.mem r (pdPath v) with _ | pd
  · rfl
  dsimp only
  rw [hmem h2 hpd']
  rcases h1 : tableAt s.mem r (ptPath v) with _ | pt
  · rfl
  dsimp only
  rw [hmem h1 (List.suffix_refl _)]

theorem exists_table (ho : Owned roles s reg roots) (hr : roles r = some (.top r)) (hv : pml4Idx v < halfEntries)
    (hw : pageWalk s.mem r v ≠ 0) : ∃ pt, tableAt s.mem r (ptPath v) = some pt := by
  rcases hpt : tableAt s.mem r (ptPath v) with _ | pt
  · rw [← ho.tableAt_lowerHalf hr hv (List.suffix_refl _)] at hpt
    rw [← ho.pageWalk_lowerHalf hr hv, pageWalk_of_missing (ho.noHuge hr v) hpt] at hw
    exact absurd rfl hw
  · exact ⟨pt, rfl⟩

theorem frame_role (ho : Owned roles s reg roots) (hr : roles r = some (.top r)) (hv : pml4Idx v < halfEntries)
    (hw : pageWalk s.mem r v ≠ 0) : ∃ p i, roles (pageOf (pageWalk s.mem r v)) = some (.node r 0 p i) := by
  obtain ⟨_, _, _, _, _, _, _, hframe, _, hleaf⟩ := ho.walk hr hv hw
  exact ⟨_, _, by rw [hframe, hleaf]⟩

theorem pageWalk_eq_zero (ho : Owned roles s reg roots) (hr : roles r = some (.top r)) (hv : pml4Idx v < halfEntries)
    (hvw : pageNumber w = pageNumber v) (hz : pageWalk s.mem r v = 0) : pageWalk s.mem r w = 0 := by
  by_contra hw
  have hlow : pml4Idx w < halfEntries := by
    rw [pml4Idx_of_pageNumber hvw]
    exact hv
  obtain ⟨hidx, hpath⟩ := List.cons.inj (pagePath_eq_iff.2 hvw)
  have hidx' : ptIdx w = ptIdx v := congrArg Fin.val hidx
  obtain ⟨pt, hpt⟩ := ho.exists_table hr hlow hw
  obtain ⟨p, i, hframe⟩ := ho.frame_role hr hlow hw
  rw [pageWalk_of_walk hpt] at hw hframe
  rw [pageWalk_of_walk (hpath ▸ hpt), ← hidx'] at hz
  split at hw
  · rename_i hpr
    rw [if_pos hpr] at hz hframe
    rw [pageOf_or (dvd_pageOf _) (Nat.mod_lt _ (by decide)), (Nat.or_eq_zero_iff.1 hz).1] at hframe
    exact ho.null r ⟨_, _, _, hframe⟩
  · exact hw rfl

theorem frame_unique (ho : Owned roles s reg roots) {i j : Slot} (hi : roots i ≠ 0) (hj : roots j ≠ 0)
    (hv : pml4Idx v < halfEntries) (hwv : pageWalk s.mem (roots i) v ≠ 0) (hww : pageWalk s.mem (roots j) w ≠ 0)
    (heq : pageOf (pageWalk s.mem (roots i) v) = pageOf (pageWalk s.mem (roots j) w)) :
    i = j ∧ pageNumber v = pageNumber w := by
  have hlow : ∀ h, h ≠ 4 → ∀ l, l < 512 → l < lowerEntries h := fun h hh l hl => by
    rw [lowerEntries, if_neg hh]
    exact hl
  obtain ⟨pd, pt, hp3, hp2, hpd, -, -, hframe, hpt, hleaf⟩ := ho.walk (ho.top i hi) hv hwv
  have h3 := ho.child _ _ _ _ _ _ (ho.top i hi) hv hp3
  have h2 := ho.child _ _ _ _ _ _ h3 (hlow 3 (by decide) _ (pdptIdx_lt v)) hp2
  rw [← hpd] at h2
  rcases Nat.lt_or_ge (pml4Idx w) halfEntries with hw | hw
  · obtain ⟨pd', pt', hp3', hp2', hpd', -, -, hframe', hpt', hleaf'⟩ := ho.walk (ho.top j hj) hw hww
    have h3' := ho.child _ _ _ _ _ _ (ho.top j hj) hw hp3'
    have h2' := ho.child _ _ _ _ _ _ h3' (hlow 3 (by decide) _ (pdptIdx_lt w)) hp2'
    rw [← hpd'] at h2'
    rw [hframe, hframe'] at heq
    rw [heq, hleaf'] at hleaf
    obtain ⟨hroot, -, rfl, hidx1⟩ := Role.node.inj (Option.some.inj hleaf)
    rw [hpt'] at hpt
    obtain ⟨-, -, rfl, hidx2⟩ := Role.node.inj (Option.some.inj hpt)
    rw [h2'] at h2
    obtain ⟨-, -, hpdpt, hidx3⟩ := Role.node.inj (Option.some.inj h2)
    rw [← hpdpt, h3'] at h3
    obtain ⟨-, -, -, hidx4⟩ := Role.node.inj (Option.some.inj h3)
    refine ⟨(ho.inj j i hj hroot).symm, pagePath_eq_iff.1 ?_⟩
    simp only [pagePath, ptPath, pdPath, pdptPath, hidx1, hidx2, hidx3, hidx4]
  · -- a frame of a kernel half is the kernel's
    have hkernel := ho.kernel (roots j) (Or.inr ⟨j, hj, rfl⟩) _ (Or.inr ⟨w, hw, pml4Idx_lt w, hww, rfl⟩)
    rw [← heq, hframe, hleaf] at hkernel
    cases hkernel

/-! ## Translations that stay -/

theorem tableAt_congr {mem' : PhysMem} (ho : Owned roles s reg roots) (hr : roles r = some (.top r))
    (hv : pml4Idx v < halfEntries) (hsame : ∀ t h p i, roles t = some (.node r (h + 1) p i) → mem' t = s.mem t) :
    ∀ {q : List (Fin 512)}, q <:+ ptPath v → tableAt mem' r q = tableAt s.mem r q := by
  intro q
  induction q with
  | nil => intro _; rfl
  | cons i q ih =>
    intro hq
    have hq' := (List.suffix_cons i q).trans hq
    change (tableAt mem' r q).bind _ = (tableAt s.mem r q).bind _
    rw [ih hq']
    rcases ht : tableAt s.mem r q with _ | t
    · rfl
    · obtain ⟨h, u, l, hrole⟩ := ho.role_of_path hr hv hq' ht
      change Paging.child q.length (mem' t i) = Paging.child q.length (s.mem t i)
      rw [hsame t h u l hrole]

theorem pageWalk_same {mem' : PhysMem} (ho : Owned roles s reg roots) (hr : roles r = some (.top r))
    (hv : pml4Idx v < halfEntries) (hsame : ∀ t h p i, roles t = some (.node r (h + 1) p i) → mem' t = s.mem t) :
    pageWalk mem' r v = pageWalk s.mem r v := by
  refine pageWalk_congr (Nat.zero_le _) hv (by rw [hsame r 3 0 0 hr]) fun h t ht => ?_
  obtain ⟨-, p, i, hrole⟩ := ho.table hr ht
  cases ht with
  | pdpt _ _ _ => exact hsame _ 2 p i hrole
  | next _ _ _ _ => exact hsame _ _ p i hrole

end Owned

/-! ## Mapping -/

/-- `s'` comes from `s` by taking pages, and writing only those and tables of the lower half at `r`. -/
structure TablesOnly (roles : Nat → Option Role) (r : Nat) (s s' : Vm) : Prop where
  mem : ∀ u, ¬ s.pmm.Free u → (∀ h p i, roles u ≠ some (.node r (h + 1) p i)) → s'.mem u = s.mem u
  used : ∀ u, s.pmm.Used u → s'.pmm.Used u

namespace TablesOnly

variable {roles roles' : Nat → Option Role} {s s' s'' : Vm} {r reg : Nat} {roots : Slot → Nat}

theorem refl (roles : Nat → Option Role) (r : Nat) (s : Vm) : TablesOnly roles r s s := ⟨fun _ _ _ => rfl, fun _ h => h⟩

theorem trans (h : TablesOnly roles r s s') (hg : Grown reg roots roles roles' s s')
    (h' : TablesOnly roles' r s' s'') : TablesOnly roles r s s'' where
  mem u hu hrole := by
    refine (h'.mem u (hg.not_free hu) fun d p i => ?_).trans (h.mem u hu hrole)
    rw [hg.roles_eq u hu]
    exact hrole d p i
  used u hu := h'.used u (h.used u hu)

end TablesOnly

namespace Owned

variable {roles : Nat → Option Role} {s : Vm} {reg r v t h p i j : Nat} {roots : Slot → Nat}

theorem nextTable_lowerHalf (ho : Owned roles s reg roots) (hreg : ¬ s.pmm.Free reg) (hr : roles r = some (.top r))
    (ht : roles t = some (.node r (h + 2) p i)) (hj : j < lowerEntries (h + 2)) :
    vmmNextTable (lowerHalf s r) t j = ((vmmNextTable s t j).1, lowerHalf (vmmNextTable s t j).2 r) ∧
      TablesOnly roles r s (vmmNextTable s t j).2 ∧ ∃ roles', Grown reg roots roles roles' s (vmmNextTable s t j).2 ∧
        ∀ n, (vmmNextTable s t j).1 = some n → roles' n = some (.node r (h + 1) t j) := by
  refine ⟨vmmNextTable_lowerHalf ?_, ⟨fun u hu hrole => ?_, fun u hu => vmmNextTable_used hu⟩, ho.nextTable hreg ht hj⟩
  · rintro ⟨rfl, hhigh⟩
    rw [hr] at ht
    obtain ⟨-, hh, -⟩ := Role.node.inj (Option.some.inj ht)
    rw [← hh] at hj
    exact absurd hj (Nat.not_lt.2 hhigh)
  · refine vmmNextTable_mem_of_ne ?_ hu
    rintro rfl
    exact hrole (h + 1) p i ht

theorem mapPage (ho : Owned roles s reg roots) (hreg : ¬ s.pmm.Free reg) (hr : roles r = some (.top r))
    (hv : pml4Idx v < halfEntries) (phys flags : Nat) :
    vmmMapPage (lowerHalf s r) r v phys flags = lowerHalf (vmmMapPage s r v phys flags) r ∧
      TablesOnly roles r s (vmmMapPage s r v phys flags) := by
  have hr0 : r ≠ 0 := by
    rintro rfl
    exact ho.null 0 ⟨_, _, _, hr⟩
  have hlow : ∀ h j, h ≠ 4 → j < 512 → j < lowerEntries h := fun h j hh hj => by
    rw [lowerEntries, if_neg hh]
    exact hj
  unfold vmmMapPage
  rw [if_neg hr0, if_neg hr0]
  obtain ⟨he₁, ht₁, roles₁, hg₁, hn₁⟩ := ho.nextTable_lowerHalf hreg hr hr hv
  rw [he₁]
  generalize vmmNextTable s r (pml4Idx v) = x₁ at ht₁ hg₁ hn₁ ⊢
  obtain ⟨_ | pdpt, s₁⟩ := x₁
  · exact ⟨rfl, ht₁⟩
  have hr₁ := hg₁.role ho hr
  have hpdpt := hn₁ pdpt rfl
  dsimp only at ht₁ hg₁ ⊢
  obtain ⟨he₂, ht₂, roles₂, hg₂, hn₂⟩ := hg₁.owned.nextTable_lowerHalf (hg₁.not_free hreg) hr₁ hpdpt
    (hlow 3 _ (by decide) (pdptIdx_lt v))
  rw [he₂]
  have htables := ht₁.trans hg₁ ht₂
  have hr₂ := hg₂.role hg₁.owned hr₁
  have hg₁₂ := hg₁.trans hg₂
  generalize vmmNextTable s₁ pdpt (pdptIdx v) = x₂ at htables hg₁₂ hn₂ ⊢
  obtain ⟨_ | pd, s₂⟩ := x₂
  · exact ⟨rfl, htables⟩
  have hpd := hn₂ pd rfl
  dsimp only at htables hg₁₂ ⊢
  obtain ⟨he₃, ht₃, roles₃, hg₃, hn₃⟩ := hg₁₂.owned.nextTable_lowerHalf (hg₁₂.not_free hreg) hr₂ hpd
    (hlow 2 _ (by decide) (pdIdx_lt v))
  rw [he₃]
  have hall := htables.trans hg₁₂ ht₃
  have hr₃ := hg₃.role hg₁₂.owned hr₂
  have hg := hg₁₂.trans hg₃
  generalize vmmNextTable s₂ pd (pdIdx v) = x₃ at hall hg hn₃ ⊢
  obtain ⟨_ | pt, s₃⟩ := x₃
  · exact ⟨rfl, hall⟩
  have hpt := hn₃ pt rfl
  dsimp only at hall hg ⊢
  refine ⟨setEntry_lowerHalf ?_, hall.trans hg ⟨fun u hu hrole => ?_, fun u hu => hu⟩⟩
  · rintro ⟨rfl, -⟩
    rw [hr₃] at hpt
    cases hpt
  · refine Vm.setEntry_mem_page_of_ne _ ?_
    rintro rfl
    exact hrole 0 pd (pdIdx v) hpt

end Owned

end Chicago95.Kernel
