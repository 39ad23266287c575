/-
# Chicago95.Kernel.Ownership — which address space every page belongs to.

The code keeps no record of what a page is used for; the bitmap of the page manager is all there is.
The invariant behind its page-table code is a typing of physical memory: a ghost map gives each page a
`Role`, either a node of one process's lower half, with its height and the entry it hangs from, or a
part of the kernel half. `Owned` says that the page tables respect the map: a free page has no role, an
entry of a node links a node whose recorded parent is that entry, and whatever the kernel half of an
address space reaches has the kernel's role.
-/
import Chicago95.Kernel.PageTree
import Chicago95.Kernel.Process

namespace Chicago95.Kernel

open Chicago95.Lib.Loop
open Function (update_of_ne update_self update)

/-! ## Roles -/

/-- What a page is for: a node of the lower half at `root`, of the given height (4 for the PML4, 0 for a
frame), linked by entry `idx` of the page `parent`; or a part of the kernel half. -/
inductive Role where
  | node (root height parent idx : Nat)
  | kernel
  deriving DecidableEq

/-- The role of a PML4; nothing links it. -/
def Role.top (root : Nat) : Role := .node root 4 0 0

/-- The page belongs to the lower half at `root`. -/
def Role.InSpace (root : Nat) (role : Option Role) : Prop :=
  ∃ h p i, role = some (.node root h p i)

/-- The entries of a node that belong to the lower half. -/
def lowerEntries (height : Nat) : Nat := if height = 4 then halfEntries else 512

/-- The page tables respect `roles`. `reg` is the CR3 register, `roots` the address space of each
slot, 0 for none. -/
structure Owned (roles : Nat → Option Role) (s : Vm) (reg : Nat) (roots : Slot → Nat) : Prop where
  nullTaken : ¬ s.pmm.Free 0
  null : ∀ r, ¬ Role.InSpace r (roles 0)
  free : ∀ t, s.pmm.Free t → roles t = none
  top : ∀ i, roots i ≠ 0 → roles (roots i) = some (.top (roots i))
  taken : ∀ i, roots i ≠ 0 → s.pmm.Used (roots i)
  inj : ∀ i j, roots i ≠ 0 → roots i = roots j → i = j
  child : ∀ t r h p i j, roles t = some (.node r (h + 1) p i) → j < lowerEntries (h + 1) →
    isPresent (s.mem t j) = true → roles (pageOf (s.mem t j)) = some (.node r h t j)
  small : ∀ t r h p i j, roles t = some (.node r (h + 2) p i) → j < lowerEntries (h + 2) →
    isPresent (s.mem t j) = true → isHuge (s.mem t j) = false
  kernel : ∀ q, (q = reg ∨ ∃ i, roots i ≠ 0 ∧ roots i = q) → ∀ f,
    PageIn s.mem q halfEntries 512 f → roles f = some .kernel
  register : s.pmm.Free reg ∨ roles reg = some .kernel ∨ roles reg = some (.top reg)

namespace Owned

variable {roles : Nat → Option Role} {s s' : Vm} {reg r h t f v : Nat} {roots : Slot → Nat}

theorem not_free (ho : Owned roles s reg roots) {x : Role} (ht : roles t = some x) : ¬ s.pmm.Free t := by
  intro hf
  rw [ho.free t hf] at ht
  cases ht

/-! ## The pages of a lower half -/

theorem table (ho : Owned roles s reg roots) (hr : roles r = some (.top r))
    (ht : TableIn s.mem r 0 halfEntries h t) : h ≤ 3 ∧ ∃ p i, roles t = some (.node r h p i) := by
  induction ht with
  | pdpt _ hi hp => exact ⟨Nat.le_refl 3, _, _, ho.child _ _ _ _ _ _ hr hi hp⟩
  | next _ hj hp _ ih =>
    obtain ⟨hle, p, i, hrole⟩ := ih
    refine ⟨by omega, _, _, ho.child _ _ _ _ _ _ hrole ?_ hp⟩
    rw [lowerEntries, if_neg (by omega)]
    exact hj

theorem walk (ho : Owned roles s reg roots) (hr : roles r = some (.top r))
    (hv : pml4Idx v < halfEntries) (hw : pageWalk s.mem r v ≠ 0) : ∃ pd pt, isPresent (s.mem r (pml4Idx v)) = true ∧
      isPresent (s.mem (pageOf (s.mem r (pml4Idx v))) (pdptIdx v)) = true ∧
      pd = pageOf (s.mem (pageOf (s.mem r (pml4Idx v))) (pdptIdx v)) ∧
      isPresent (s.mem pd (pdIdx v)) = true ∧ pt = pageOf (s.mem pd (pdIdx v)) ∧
      pageOf (pageWalk s.mem r v) = pageOf (s.mem pt (ptIdx v)) ∧ roles pt = some (.node r 1 pd (pdIdx v)) ∧
      roles (pageOf (s.mem pt (ptIdx v))) = some (.node r 0 pt (ptIdx v)) := by
  have hlow : ∀ h, h ≠ 4 → ∀ j, j < 512 → j < lowerEntries h := fun h hh j hj => by
    rw [lowerEntries, if_neg hh]
    exact hj
  unfold pageWalk at hw ⊢
  rcases hp3 : isPresent (s.mem r (pml4Idx v)) with _ | _
  · simp [hp3] at hw
  · have h3 := ho.child _ _ _ _ _ _ hr hv hp3
    simp only [hp3, Bool.not_true, Bool.false_eq_true, if_false] at hw ⊢
    rcases hp2 : isPresent (s.mem (pageOf (s.mem r (pml4Idx v))) (pdptIdx v)) with _ | _
    · simp [hp2] at hw
    · have hlt2 := hlow 3 (by decide) _ (pdptIdx_lt v)
      have h2 := ho.child _ _ _ _ _ _ h3 hlt2 hp2
      have hh2 := ho.small _ _ _ _ _ _ h3 hlt2 hp2
      simp only [hp2, hh2, Bool.not_true, Bool.false_eq_true, if_false] at hw ⊢
      generalize pageOf (s.mem (pageOf (s.mem r (pml4Idx v))) (pdptIdx v)) = pd at h2 hw ⊢
      rcases hp1 : isPresent (s.mem pd (pdIdx v)) with _ | _
      · simp [hp1] at hw
      · have hlt1 := hlow 2 (by decide) _ (pdIdx_lt v)
        have h1 := ho.child _ _ _ _ _ _ h2 hlt1 hp1
        have hh1 := ho.small _ _ _ _ _ _ h2 hlt1 hp1
        simp only [hp1, hh1, Bool.not_true, Bool.false_eq_true, if_false] at hw ⊢
        rcases hp0 : isPresent (s.mem (pageOf (s.mem pd (pdIdx v))) (ptIdx v)) with _ | _
        · simp [hp0] at hw
        · have h0 := ho.child _ _ _ _ _ _ h1 (hlow 1 (by decide) _ (ptIdx_lt v)) hp0
          refine ⟨pd, _, trivial, trivial, rfl, hp1, rfl, ?_, h1, h0⟩
          simp only [Bool.not_true, Bool.false_eq_true, if_false]
          exact pageOf_or (dvd_pageOf _) (Nat.mod_lt _ (by decide))

theorem usedBy (ho : Owned roles s reg roots) {i : Slot} (hi : roots i ≠ 0) (hf : UsedBy s.mem (roots i) f) :
    Role.InSpace (roots i) (roles f) ∨ roles f = some .kernel := by
  have htop := ho.top i hi
  rcases hf with rfl | hf
  · exact Or.inl ⟨_, _, _, htop⟩
  · rcases pageIn_split hf halfEntries with hlow | hhigh
    · rcases hlow with ⟨h, ht⟩ | ⟨v, _, hv, hw, rfl⟩
      · obtain ⟨_, p, j, hrole⟩ := ho.table htop ht
        exact Or.inl ⟨_, _, _, hrole⟩
      · obtain ⟨_, _, _, _, _, _, _, hpage, _, hrole⟩ := ho.walk htop hv hw
        rw [hpage]
        exact Or.inl ⟨_, _, _, hrole⟩
    · exact Or.inr (ho.kernel _ (Or.inr ⟨i, hi, rfl⟩) f hhigh)

end Owned

/-! ## Creating an address space -/

theorem vmmCreateAddressSpace_cases (s : Vm) (reg : Nat) :
    (s.allocPage.1 = 0 ∧ vmmCreateAddressSpace s reg = (0, s.allocPage.2)) ∨
    (s.allocPage.1 ≠ 0 ∧ ∃ s', vmmCreateAddressSpace s reg = (s.allocPage.1, s') ∧
      s'.pmm = s.allocPage.2.pmm ∧ (∀ t, t ≠ s.allocPage.1 → s'.mem t = s.mem t) ∧
      (∀ j, j < 256 → s'.mem s.allocPage.1 j = 0) ∧ ∀ j, j < 256 → s'.mem s.allocPage.1 (256 + j)
        = if reg = s.allocPage.1 then 0 else s.mem reg (256 + j)) := by
  rcases Nat.eq_zero_or_pos s.allocPage.1 with hpage | hpage
  · exact Or.inl ⟨hpage, by simp only [vmmCreateAddressSpace, hpage, if_true]⟩
  · have hne : s.allocPage.1 ≠ 0 := Nat.pos_iff_ne_zero.mp hpage
    refine Or.inr ⟨hne, _, by simp only [vmmCreateAddressSpace, if_neg hne]; rfl, ?_⟩
    -- before pass `n` the first `n` entries of the kernel half are copied, the others still clear
    have hloop := forEach_induction (n := 256)
      (P := fun n (u : Vm) => u.pmm = s.allocPage.2.pmm ∧
        (∀ t, t ≠ s.allocPage.1 → u.mem t = s.mem t) ∧
        (∀ j, j < 256 → u.mem s.allocPage.1 j = 0) ∧
        (∀ j, j < n → u.mem s.allocPage.1 (256 + j)
          = if reg = s.allocPage.1 then 0 else s.mem reg (256 + j)) ∧
        ∀ j, n ≤ j → u.mem s.allocPage.1 (256 + j) = 0)
      (f := fun j u => u.setEntry s.allocPage.1 (256 + j) (u.mem reg (256 + j)))
      (s := s.allocPage.2.zeroPage s.allocPage.1) ?_ ?_
    · exact ⟨hloop.1, hloop.2.1, hloop.2.2.1, hloop.2.2.2.1⟩
    · refine ⟨rfl, fun t ht => by rw [Vm.zeroPage_mem_of_ne _ ht]; rfl, fun j _ => ?_, ?_, ?_⟩
      · exact Vm.zeroPage_mem_self ..
      · exact fun j hj => absurd hj (Nat.not_lt_zero j)
      · exact fun j _ => Vm.zeroPage_mem_self ..
    · rintro n u hn ⟨hpmm, hother, hlow, hdone, htodo⟩
      refine ⟨hpmm, fun t ht => ?_, fun j hj => ?_, fun j hj => ?_, fun j hj => ?_⟩
      · rw [Vm.setEntry_mem_page_of_ne _ ht]
        exact hother t ht
      · rw [Vm.setEntry_mem_of_ne _ (by omega)]
        exact hlow j hj
      · by_cases hjn : j = n
        · subst hjn
          rw [Vm.setEntry_mem_self]
          by_cases hreg : reg = s.allocPage.1
          · rw [if_pos hreg, hreg]
            exact htodo j (Nat.le_refl j)
          · rw [if_neg hreg, hother reg hreg]
        · rw [Vm.setEntry_mem_of_ne _ (by omega)]
          exact hdone j (by omega)
      · rw [Vm.setEntry_mem_of_ne _ (by omega)]
        exact htodo j (by omega)

namespace Owned

variable {roles : Nat → Option Role} {s s' : Vm} {reg r h t f v : Nat} {roots : Slot → Nat}

theorem inj_update (hinj : ∀ j l, roots j ≠ 0 → roots j = roots l → j = l) {i : Slot} {p : Nat} (hp : p ≠ 0)
    (hnew : ∀ j, roots j ≠ 0 → roots j ≠ p) (j l : Slot) (hj : update roots i p j ≠ 0)
    (hjl : update roots i p j = update roots i p l) : j = l := by
  by_cases hji : j = i <;> by_cases hli : l = i
  · exact hji.trans hli.symm
  · subst hji
    rw [update_self, update_of_ne hli] at hjl
    exact absurd hjl.symm (hnew l (by rw [← hjl]; exact hp))
  · subst hli
    rw [update_self, update_of_ne hji] at hjl
    rw [update_of_ne hji] at hj
    exact absurd hjl (hnew j hj)
  · rw [update_of_ne hji] at hj hjl
    rw [update_of_ne hli] at hjl
    exact hinj j l hj hjl

theorem node_of_update {mem : Nat → Nat → Nat} {p q l j : Nat} (hlow : ∀ j, j < 256 → mem p j = 0)
    (ht : update roles p (some (.top p)) t = some (.node r h q l)) (hj : j < lowerEntries h)
    (hpr : isPresent (mem t j) = true) : t ≠ p ∧ roles t = some (.node r h q l) := by
  by_cases htp : t = p
  · subst htp
    rw [update_self] at ht
    obtain ⟨-, hh, -⟩ : t = r ∧ 4 = h ∧ 0 = q ∧ 0 = l := by simpa [Role.top] using ht
    rw [← hh] at hj
    rw [hlow j hj] at hpr
    exact absurd hpr Bool.false_ne_true
  · rw [update_of_ne htp] at ht
    exact ⟨htp, ht⟩

theorem pageIn_copied {mem mem' : Nat → Nat → Nat} {p : Nat} (hother : ∀ t, t ≠ p → mem' t = mem t)
    (hhigh : ∀ j, j < 256 → mem' p (256 + j) = if reg = p then 0 else mem reg (256 + j))
    (hf : PageIn mem' p halfEntries 512 f) : reg ≠ p ∧ PageIn mem' reg halfEntries 512 f := by
  have hentry : ∀ j, halfEntries ≤ j → j < 512 → mem' p j = if reg = p then 0 else mem reg j := by
    intro j hlo hj
    obtain ⟨d, rfl⟩ := Nat.exists_eq_add_of_le hlo
    have hd : d < 256 := by
      change 256 + d < 512 at hj
      omega
    exact hhigh d hd
  by_cases hreg : reg = p
  · refine absurd hf (not_pageIn_of_empty fun j hlo hj => ?_)
    rw [hentry j hlo hj, if_pos hreg]
    rfl
  · refine ⟨hreg, pageIn_of_root (fun j hlo hj => ?_) hf⟩
    rw [hentry j hlo hj, if_neg hreg, hother reg hreg]

theorem create (ho : Owned roles s reg roots) {i : Slot} {p : Nat}
    (hnew : vmmCreateAddressSpace s reg = (p, s')) (hp : p ≠ 0) :
    Owned (update roles p (some (.top p))) s' reg (update roots i p) ∧
      (∀ t, t ≠ p → s'.mem t = s.mem t) ∧ (∀ j, j < 256 → s'.mem p j = 0) ∧ roles p = none := by
  rcases vmmCreateAddressSpace_cases s reg with ⟨_, heq⟩ | ⟨hpage, u, heq, hpmm, hother, hlow, hhigh⟩
  · rw [heq] at hnew
    exact absurd (congrArg Prod.fst hnew).symm hp
  · obtain ⟨hpa, rfl⟩ := Prod.mk.inj (heq.symm.trans hnew)
    rw [hpa] at hother hlow hhigh
    rw [Vm.allocPage_fst] at hpa
    have hfree : s.pmm.Free p := hpa ▸ Pmm.free_of_pmmAllocPage (hpa.trans_ne hp)
    have hused : u.pmm.Used p := by
      rw [hpmm, ← hpa]
      exact Pmm.used_pmmAllocPage (hpa.trans_ne hp)
    have hfree' : ∀ t, u.pmm.Free t → s.pmm.Free t ∧ t ≠ p := fun t ht => by
      rw [hpmm, Vm.allocPage_pmm, Pmm.free_pmmAllocPage_iff, hpa] at ht
      exact ht
    have hnone : roles p = none := ho.free p hfree
    have hroot : ∀ j, roots j ≠ 0 → roots j ≠ p := fun j hj heq => by
      have := ho.top j hj
      rw [heq, hnone] at this
      cases this
    have hrole : ∀ {t : Nat} {x : Role}, roles t = some x → t ≠ p := fun ht heq => by
      rw [heq, hnone] at ht
      cases ht
    have hkeep : ∀ {t : Nat} {x : Role}, roles t = some x →
        update roles p (some (.top p)) t = some x := fun ht => by
      rwa [update_of_ne (hrole ht)]
    -- the kernel half reached through a page other than the new one is the old one
    have hpages : ∀ q, (q = reg ∨ ∃ j, roots j ≠ 0 ∧ roots j = q) → q ≠ p → ∀ f,
        PageIn u.mem q halfEntries 512 f → roles f = some .kernel := by
      intro q hq hqp f hf
      refine ho.kernel q hq f (pageIn_of_congr (fun j _ _ => by rw [hother q hqp]) ?_ hf)
      intro h t ht
      exact hother t (hrole (ho.kernel q hq t (Or.inl ⟨h, ht⟩)))
    refine ⟨⟨fun h0 => ho.nullTaken (hfree' 0 h0).1, fun r => ?_, fun t ht => ?_, fun j hj => ?_, fun j hj => ?_,
      fun j l hj hjl => ?_, fun t r h q l j ht hj hpr => ?_, fun t r h q l j ht hj hpr => ?_,
      fun q hq f hf => ?_, ?_⟩, hother, hlow, hnone⟩
    · rw [update_of_ne hp.symm]
      exact ho.null r
    · obtain ⟨hft, htp⟩ := hfree' t ht
      rw [update_of_ne htp]
      exact ho.free t hft
    · by_cases hji : j = i
      · subst hji
        simp
      · rw [update_of_ne hji] at hj ⊢
        exact hkeep (ho.top j hj)
    · by_cases hji : j = i
      · subst hji
        rw [update_self]
        exact hused
      · rw [update_of_ne hji] at hj ⊢
        have htaken := (ho.taken j hj).pmmAllocPage
        rwa [hpmm]
    · exact inj_update ho.inj hp hroot j l hj hjl
    · obtain ⟨htp, ht⟩ := node_of_update hlow ht hj hpr
      rw [hother t htp] at hpr ⊢
      exact hkeep (ho.child t r h q l j ht hj hpr)
    · obtain ⟨htp, ht⟩ := node_of_update hlow ht hj hpr
      rw [hother t htp] at hpr ⊢
      exact ho.small t r h q l j ht hj hpr
    · apply hkeep
      by_cases hqp : q = p
      · subst hqp
        obtain ⟨hreg, hf⟩ := pageIn_copied hother hhigh hf
        exact hpages reg (Or.inl rfl) hreg f hf
      · refine hpages q ?_ hqp f hf
        rcases hq with rfl | ⟨j, hj, rfl⟩
        · exact Or.inl rfl
        · have hji : j ≠ i := fun heq => by
            rw [heq, update_self] at hqp
            exact hqp rfl
          rw [update_of_ne hji] at hj ⊢
          exact Or.inr ⟨j, hj, rfl⟩
    · by_cases hreg : reg = p
      · subst hreg
        exact Or.inr (Or.inr (by simp))
      · rw [update_of_ne hreg]
        rcases ho.register with hf | hk
        · left
          rw [hpmm, Vm.allocPage_pmm, Pmm.free_pmmAllocPage_iff, hpa]
          exact ⟨hf, hreg⟩
        · exact Or.inr hk

end Owned

/-! ## Releasing pages -/

/-- `s'` comes from `s` by releasing pages of `P` only. -/
structure Releases (P : Nat → Prop) (s s' : Vm) : Prop where
  mem_eq : s'.mem = s.mem
  total_eq : s'.pmm.totalPages = s.pmm.totalPages
  freed : ∀ t, s'.pmm.Free t → s.pmm.Free t ∨ P t
  free : ∀ t, s.pmm.Free t → s'.pmm.Free t
  used : ∀ t, s.pmm.Used t → s'.pmm.Used t ∨ s'.pmm.Free t ∧ P t
  accounted : s.pmm.Accounted → s'.pmm.Accounted

theorem Releases.refl (P : Nat → Prop) (s : Vm) : Releases P s s :=
  ⟨rfl, rfl, fun _ => Or.inl, fun _ => id, fun _ => Or.inl, id⟩

theorem Releases.trans {P : Nat → Prop} {s t u : Vm} (h : Releases P s t) (h' : Releases P t u) :
    Releases P s u where
  mem_eq := h'.mem_eq.trans h.mem_eq
  total_eq := h'.total_eq.trans h.total_eq
  freed x hx := (h'.freed x hx).elim (h.freed x) Or.inr
  free x hx := h'.free x (h.free x hx)
  used x hx := by
    rcases h.used x hx with hu | ⟨hf, hP⟩
    · exact h'.used x hu
    · exact Or.inr ⟨h'.free x hf, hP⟩
  accounted hx := h'.accounted (h.accounted hx)

theorem releases_freePage {P : Nat → Prop} {a : Nat} (ha : P (pageOf a)) (s : Vm) :
    Releases P s (s.freePage a) where
  mem_eq := rfl
  total_eq := Pmm.pmmFreePage_totalPages ..
  freed t ht := by
    rcases Pmm.free_of_pmmFreePage ht with hf | rfl
    · exact Or.inl hf
    · exact Or.inr ha
  free t ht := ht.pmmFreePage a
  used t ht := by
    by_cases hta : t = pageOf a
    · exact Or.inr ⟨ht.free_pmmFreePage hta, hta ▸ ha⟩
    · exact Or.inl (ht.pmmFreePage_of_ne hta)
  accounted h := h.pmmFreePage a

/-! ## Destroying an address space -/

/-- The roles left when the address space at `root` is gone. -/
def without (root : Nat) (roles : Nat → Option Role) (t : Nat) : Option Role :=
  match roles t with
  | some (.node r h p i) => if r = root then none else some (.node r h p i)
  | x => x

theorem without_eq {roles : Nat → Option Role} {root t : Nat}
    (ht : ¬ Role.InSpace root (roles t)) : without root roles t = roles t := by
  unfold without
  rcases hrole : roles t with _ | ⟨r, h, p, i⟩ | _
  · rfl
  · have hne : r ≠ root := by
      rintro rfl
      exact ht ⟨h, p, i, hrole⟩
    simp only [if_neg hne]
  · rfl

theorem without_inSpace {roles : Nat → Option Role} {root t : Nat}
    (ht : Role.InSpace root (roles t)) : without root roles t = none := by
  obtain ⟨h, p, i, hrole⟩ := ht
  simp only [without, hrole, if_true]

theorem without_some {roles : Nat → Option Role} {root t : Nat} {x : Role}
    (ht : without root roles t = some x) : roles t = some x := by
  by_cases hin : Role.InSpace root (roles t)
  · rw [without_inSpace hin] at ht
    cases ht
  · rwa [without_eq hin] at ht

namespace Owned

variable {roles : Nat → Option Role} {s s' : Vm} {reg r h t f v p i : Nat} {roots : Slot → Nat}

theorem releases_pt (ho : Owned roles s reg roots) (hmem : s'.mem = s.mem)
    (hpt : roles (pageOf t) = some (.node r 1 p i)) :
    Releases (fun t => Role.InSpace r (roles t)) s' (vmmDestroyPt (pageOf t) s') := by
  have hloop : Releases (fun t => Role.InSpace r (roles t)) s' (forEach 512 (fun l s =>
      if isPresent (s.mem (pageOf t) l) then s.freePage (pageOf (s.mem (pageOf t) l)) else s) s') := by
    refine forEach_preserves (.refl _ _) fun l u hl hu => hu.trans ?_
    split
    · rename_i hp
      rw [hu.mem_eq, hmem] at hp ⊢
      refine releases_freePage ?_ u
      rw [pageOf_of_dvd (dvd_pageOf _)]
      exact ⟨_, _, _, ho.child _ _ _ _ _ _ hpt hl hp⟩
    · exact .refl _ _
  refine hloop.trans (releases_freePage ?_ _)
  rw [pageOf_of_dvd (dvd_pageOf _)]
  exact ⟨_, _, _, hpt⟩

theorem releases_pd (ho : Owned roles s reg roots) (hmem : s'.mem = s.mem)
    (hpd : roles (pageOf t) = some (.node r 2 p i)) :
    Releases (fun t => Role.InSpace r (roles t)) s' (vmmDestroyPd (pageOf t) s') := by
  have hloop : Releases (fun t => Role.InSpace r (roles t)) s' (forEach 512 (fun k s =>
      if !isPresent (s.mem (pageOf t) k) then s
      else if isHuge (s.mem (pageOf t) k) then s
      else vmmDestroyPt (pageOf (s.mem (pageOf t) k)) s) s') := by
    refine forEach_preserves (.refl _ _) fun k u hk hu => hu.trans ?_
    have hmem' : u.mem = s.mem := hu.mem_eq.trans hmem
    rw [hmem']
    rcases hp : isPresent (s.mem (pageOf t) k) with _ | _
    · exact .refl _ _
    · have hrole := ho.child _ _ _ _ _ _ hpd hk hp
      rw [ho.small _ _ _ _ _ _ hpd hk hp]
      exact ho.releases_pt hmem' hrole
  refine hloop.trans (releases_freePage ?_ _)
  rw [pageOf_of_dvd (dvd_pageOf _)]
  exact ⟨_, _, _, hpd⟩

theorem releases_pdpt (ho : Owned roles s reg roots) (hmem : s'.mem = s.mem)
    (hpdpt : roles (pageOf t) = some (.node r 3 p i)) :
    Releases (fun t => Role.InSpace r (roles t)) s' (vmmDestroyPdpt (pageOf t) s') := by
  have hloop : Releases (fun t => Role.InSpace r (roles t)) s' (forEach 512 (fun j s =>
      if !isPresent (s.mem (pageOf t) j) then s
      else if isHuge (s.mem (pageOf t) j) then s
      else vmmDestroyPd (pageOf (s.mem (pageOf t) j)) s) s') := by
    refine forEach_preserves (.refl _ _) fun j u hj hu => hu.trans ?_
    have hmem' : u.mem = s.mem := hu.mem_eq.trans hmem
    rw [hmem']
    rcases hp : isPresent (s.mem (pageOf t) j) with _ | _
    · exact .refl _ _
    · have hrole := ho.child _ _ _ _ _ _ hpdpt hj hp
      rw [ho.small _ _ _ _ _ _ hpdpt hj hp]
      exact ho.releases_pd hmem' hrole
  refine hloop.trans (releases_freePage ?_ _)
  rw [pageOf_of_dvd (dvd_pageOf _)]
  exact ⟨_, _, _, hpdpt⟩

theorem releases_destroy (ho : Owned roles s reg roots) {c : Slot} (hc : roots c ≠ 0) :
    Releases (fun t => Role.InSpace (roots c) (roles t)) s (vmmDestroyAddressSpace s (roots c)) ∧
      (vmmDestroyAddressSpace s (roots c)).pmm.Free (roots c) := by
  have htop := ho.top c hc
  have hloop : Releases (fun t => Role.InSpace (roots c) (roles t)) s (forEach 256 (fun i s =>
      if !isPresent (s.mem (roots c) i) then s
      else vmmDestroyPdpt (pageOf (s.mem (roots c) i)) s) s) := by
    refine forEach_preserves (.refl _ _) fun i u hi hu => hu.trans ?_
    rw [hu.mem_eq]
    rcases hp : isPresent (s.mem (roots c) i) with _ | _
    · exact .refl _ _
    · exact ho.releases_pdpt hu.mem_eq (ho.child _ _ _ _ _ _ htop hi hp)
  have hpage : pageOf (roots c) = roots c := pageOf_of_dvd (ho.taken c hc).dvd
  unfold vmmDestroyAddressSpace
  rw [if_neg hc]
  refine ⟨hloop.trans (releases_freePage ?_ _), ?_⟩
  · rw [hpage]
    exact ⟨_, _, _, htop⟩
  · rcases hloop.used _ (ho.taken c hc) with hu | ⟨hf, _⟩
    · exact hu.free_pmmFreePage hpage.symm
    · exact hf.pmmFreePage _

theorem destroy (ho : Owned roles s reg roots) {c : Slot} (hc : roots c ≠ 0) :
    Owned (without (roots c) roles) (vmmDestroyAddressSpace s (roots c)) reg (update roots c 0) := by
  obtain ⟨hrel, hfree⟩ := ho.releases_destroy hc
  have hmem := hrel.mem_eq
  generalize vmmDestroyAddressSpace s (roots c) = u at *
  -- another slot's address space is untouched
  have hother : ∀ i, update roots c 0 i ≠ 0 →
      i ≠ c ∧ update roots c 0 i = roots i ∧ roots i ≠ 0 ∧ roots i ≠ roots c := by
    intro i hi
    by_cases hic : i = c
    · subst hic
      simp at hi
    · rw [update_of_ne hic] at hi ⊢
      exact ⟨hic, rfl, hi, fun heq => hic (ho.inj i c hi heq)⟩
  have hkeep : ∀ {t r h p i}, roles t = some (.node r h p i) → r ≠ roots c →
      without (roots c) roles t = some (.node r h p i) := by
    intro t r h p i ht hr
    rw [without_eq, ht]
    rintro ⟨h', p', i', ht'⟩
    rw [ht] at ht'
    exact hr (Role.node.inj (Option.some.inj ht')).1
  have hkernel : ∀ {t}, roles t = some .kernel → without (roots c) roles t = some .kernel := by
    intro t ht
    rw [without_eq, ht]
    rintro ⟨_, _, _, ht'⟩
    rw [ht] at ht'
    cases ht'
  have hne : ∀ {t r h p i}, without (roots c) roles t = some (.node r h p i) → r ≠ roots c := by
    rintro t _ h p i ht rfl
    have hrole := without_some ht
    rw [without_inSpace ⟨_, _, _, hrole⟩] at ht
    cases ht
  refine ⟨fun h0 => ?_, ?_, fun t ht => ?_, fun i hi => ?_, fun i hi => ?_, fun i j hi hij => ?_,
    fun t r h p i j ht hj hp => ?_, fun t r h p i j ht hj hp => ?_, fun q hq f hf => ?_, ?_⟩
  · rcases hrel.freed 0 h0 with hf | hin
    · exact ho.nullTaken hf
    · exact ho.null _ hin
  · rintro r ⟨h, p, i, hrole⟩
    exact ho.null r ⟨h, p, i, without_some hrole⟩
  · rcases hrel.freed t ht with hf | hin
    · have hnone := ho.free t hf
      rw [without_eq, hnone]
      rintro ⟨_, _, _, ht'⟩
      rw [hnone] at ht'
      cases ht'
    · exact without_inSpace hin
  · obtain ⟨_, heq, hi', hri⟩ := hother i hi
    rw [heq]
    exact hkeep (ho.top i hi') hri
  · obtain ⟨_, heq, hi', hri⟩ := hother i hi
    rw [heq]
    rcases hrel.used _ (ho.taken i hi') with hu | ⟨_, h, p, j, hin⟩
    · exact hu
    · rw [ho.top i hi'] at hin
      exact absurd (Role.node.inj (Option.some.inj hin)).1 hri
  · obtain ⟨_, heq, hi', _⟩ := hother i hi
    obtain ⟨_, heq', _, _⟩ := hother j (hij ▸ hi)
    exact ho.inj i j hi' (heq.symm.trans (hij.trans heq'))
  · rw [hmem] at hp ⊢
    exact hkeep (ho.child t r h p i j (without_some ht) hj hp) (hne ht)
  · rw [hmem] at hp ⊢
    exact ho.small t r h p i j (without_some ht) hj hp
  · rw [hmem] at hf
    refine hkernel (ho.kernel q ?_ f hf)
    rcases hq with rfl | ⟨i, hi, rfl⟩
    · exact Or.inl rfl
    · obtain ⟨_, heq, hi', _⟩ := hother i hi
      exact Or.inr ⟨i, hi', heq.symm⟩
  · rcases ho.register with hf | hk | ht
    · exact Or.inl (hrel.free _ hf)
    · exact Or.inr (Or.inl (hkernel hk))
    · by_cases hrc : reg = roots c
      · rw [hrc]
        exact Or.inl hfree
      · exact Or.inr (Or.inr (hkeep ht hrc))

end Owned

end Chicago95.Kernel
