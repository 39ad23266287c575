/-
# Chicago95.Kernel.Mapping — mapping and unmapping in a lower half.

What `vmm_map_page` and `vmm_unmap_page` do to typed pages (`Owned`) when the address lies in the lower half:
the tables they add and the frame they link become nodes of that address space, and the frame that is
unmapped and freed stops being one. The kernel half is not read or written on the way: every entry and every
table that its translations pass stays as it was (`HalfEq`).
-/
import Chicago95.Kernel.AddressSpaces
import Chicago95.Kernel.UserMemory

namespace Chicago95.Kernel

open Function (update_of_ne update_self update)

/-! ## The words a kernel half is made of -/

/-- CR3, or an address space in use. -/
def RootOf (reg : Nat) (roots : Slot → Nat) (q : Nat) : Prop := q = reg ∨ ∃ i, roots i ≠ 0 ∧ roots i = q

/-- The kernel halves of the roots in `Q` read the same words in both memories. -/
def HalfEq (Q : Nat → Prop) (mem mem' : PhysMem) : Prop :=
  ∀ q, Q q → (∀ i, halfEntries ≤ i → i < 512 → mem' q i = mem q i) ∧
    ∀ h t, TableIn mem q halfEntries 512 h t → mem' t = mem t

namespace HalfEq

variable {Q : Nat → Prop} {mem mem' mem'' : PhysMem} {q h t f v : Nat}

theorem refl (Q : Nat → Prop) (mem : PhysMem) : HalfEq Q mem mem :=
  fun _ _ => ⟨fun _ _ _ => rfl, fun _ _ _ => rfl⟩

theorem tableIn (he : HalfEq Q mem mem') (hq : Q q) (ht : TableIn mem q halfEntries 512 h t) :
    TableIn mem' q halfEntries 512 h t := by
  obtain ⟨hroot, htables⟩ := he q hq
  induction ht with
  | pdpt hlo hhi hp =>
    rw [← hroot _ hlo hhi] at hp ⊢
    exact .pdpt hlo hhi hp
  | next ht hj hp hh ih =>
    rw [← htables _ _ ht] at hp hh ⊢
    exact .next ih hj hp hh

theorem trans (he : HalfEq Q mem mem') (he' : HalfEq Q mem' mem'') : HalfEq Q mem mem'' := by
  intro q hq
  obtain ⟨hroot, htables⟩ := he q hq
  obtain ⟨hroot', htables'⟩ := he' q hq
  refine ⟨fun i hlo hhi => (hroot' i hlo hhi).trans (hroot i hlo hhi), fun h t ht => ?_⟩
  exact (htables' h t (he.tableIn hq ht)).trans (htables h t ht)

theorem pageWalk (he : HalfEq Q mem mem') (hq : Q q) (hv : halfEntries ≤ pml4Idx v) :
    pageWalk mem' q v = pageWalk mem q v :=
  pageWalk_congr hv (pml4Idx_lt v) ((he q hq).1 _ hv (pml4Idx_lt v)) (he q hq).2

theorem mapped (he : HalfEq Q mem mem') (hq : Q q) (hf : Mapped mem q halfEntries 512 f) :
    Mapped mem' q halfEntries 512 f := by
  obtain ⟨v, hlo, hhi, hw, hfv⟩ := hf
  rw [← he.pageWalk hq hlo] at hw hfv
  exact ⟨v, hlo, hhi, hw, hfv⟩

theorem pageIn (he : HalfEq Q mem mem') (hq : Q q) (hf : PageIn mem' q halfEntries 512 f) :
    PageIn mem q halfEntries 512 f :=
  pageIn_of_congr (he q hq).1 (he q hq).2 hf

end HalfEq

namespace Owned

variable {roles : Nat → Option Role} {s s' : Vm} {reg r h p i j t f v : Nat} {roots : Slot → Nat}

theorem halfEq (ho : Owned roles s reg roots) (hkernel : ∀ t, roles t = some .kernel → s'.mem t = s.mem t)
    (hroot : ∀ q, RootOf reg roots q → ∀ i, halfEntries ≤ i → i < 512 → s'.mem q i = s.mem q i) :
    HalfEq (RootOf reg roots) s.mem s'.mem :=
  fun q hq => ⟨hroot q hq, fun h t ht => hkernel t (ho.kernel q hq t (Or.inl ⟨h, ht⟩))⟩

theorem role_of_root (ho : Owned roles s reg roots) {q : Nat} (hq : RootOf reg roots q) :
    s.pmm.Free q ∨ roles q = some .kernel ∨ roles q = some (.top q) := by
  rcases hq with rfl | ⟨i, hi, rfl⟩
  · exact ho.register
  · exact Or.inr (Or.inr (ho.top i hi))

/-! ## Elementary changes -/

theorem write (ho : Owned roles s reg roots) (hpmm : s'.pmm = s.pmm)
    (hmem : ∀ t, t ≠ f → s'.mem t = s.mem t) (hnode : ∀ r h p i, roles f ≠ some (.node r (h + 1) p i))
    (hhalf : HalfEq (RootOf reg roots) s.mem s'.mem) : Owned roles s' reg roots where
  nullTaken := by rw [hpmm]; exact ho.nullTaken
  null := ho.null
  free t := by rw [hpmm]; exact ho.free t
  top := ho.top
  taken i hi := by rw [hpmm]; exact ho.taken i hi
  inj := ho.inj
  child t r h p i j ht hj hpr := by
    have hne : t ≠ f := fun heq => hnode r h p i (heq ▸ ht)
    rw [hmem t hne] at hpr ⊢
    exact ho.child t r h p i j ht hj hpr
  small t r h p i j ht hj hpr := by
    have hne : t ≠ f := fun heq => hnode r (h + 1) p i (heq ▸ ht)
    rw [hmem t hne] at hpr ⊢
    exact ho.small t r h p i j ht hj hpr
  kernel q hq f hf := ho.kernel q hq f (hhalf.pageIn hq hf)
  register := by rw [hpmm]; exact ho.register

theorem halfEq_setEntry (ho : Owned roles s reg roots) (ht : roles t = some (.node r (h + 1) p i))
    (hj : j < lowerEntries (h + 1)) : HalfEq (RootOf reg roots) s.mem (s.setEntry t j v).mem := by
  refine ho.halfEq (fun u hu => ?_) fun q hq l hlo _ => ?_
  · have hne : u ≠ t := by
      rintro rfl
      rw [ht] at hu
      cases hu
    exact Vm.setEntry_mem_page_of_ne s hne
  · refine Vm.setEntry_mem_of_ne s fun ⟨hqt, hlj⟩ => ?_
    -- the only root among the nodes is a PML4, whose lower entries end at 256
    subst hqt hlj
    rcases ho.role_of_root hq with hfree | hk | htop
    · exact ho.not_free ht hfree
    · rw [ht] at hk
      cases hk
    · rw [ht] at htop
      obtain ⟨-, hh, -⟩ : r = q ∧ h + 1 = 4 ∧ p = 0 ∧ i = 0 := by simpa [Role.top] using htop
      rw [hh] at hj
      exact absurd hj (Nat.not_lt.mpr hlo)

theorem setEntry (ho : Owned roles s reg roots) (ht : roles t = some (.node r (h + 1) p i))
    (hj : j < lowerEntries (h + 1))
    (hv : isPresent v = true → roles (pageOf v) = some (.node r h t j))
    (hsmall : h ≠ 0 → isPresent v = true → isHuge v = false) :
    Owned roles (s.setEntry t j v) reg roots where
  nullTaken := ho.nullTaken
  null := ho.null
  free := ho.free
  top := ho.top
  taken := ho.taken
  inj := ho.inj
  child t' r' h' p' i' j' ht' hj' hpr := by
    by_cases heq : t' = t ∧ j' = j
    · obtain ⟨rfl, rfl⟩ := heq
      rw [ht] at ht'
      obtain ⟨rfl, hh, -⟩ : r = r' ∧ h = h' ∧ p = p' ∧ i = i' := by simpa using ht'
      rw [Vm.setEntry_mem_self] at hpr ⊢
      rw [← hh]
      exact hv hpr
    · rw [Vm.setEntry_mem_of_ne s heq] at hpr ⊢
      exact ho.child t' r' h' p' i' j' ht' hj' hpr
  small t' r' h' p' i' j' ht' hj' hpr := by
    by_cases heq : t' = t ∧ j' = j
    · obtain ⟨rfl, rfl⟩ := heq
      rw [ht] at ht'
      obtain ⟨-, hh, -⟩ : r = r' ∧ h = h' + 1 ∧ p = p' ∧ i = i' := by simpa using ht'
      rw [Vm.setEntry_mem_self] at hpr ⊢
      exact hsmall (by omega) hpr
    · rw [Vm.setEntry_mem_of_ne s heq] at hpr ⊢
      exact ho.small t' r' h' p' i' j' ht' hj' hpr
  kernel q hq f hf := ho.kernel q hq f ((ho.halfEq_setEntry ht hj).pageIn hq hf)
  register := ho.register

theorem adopt (ho : Owned roles s reg roots) (hnone : roles f = none) (hfree : ¬ s.pmm.Free f)
    (hf : f ≠ 0) (hempty : h = 0 ∨ ∀ j, isPresent (s.mem f j) = false) :
    Owned (update roles f (some (.node r h p i))) s reg roots := by
  have hne : ∀ {t : Nat} {x : Role}, roles t = some x → t ≠ f := fun ht heq => by
    rw [heq, hnone] at ht
    cases ht
  have hkeep : ∀ {t : Nat} {x : Role}, roles t = some x →
      update roles f (some (.node r h p i)) t = some x := fun ht => by
    rwa [update_of_ne (hne ht)]
  -- the new node links nothing
  have hnode : ∀ {r' h' p' i' t j}, update roles f (some (.node r h p i)) t
      = some (.node r' (h' + 1) p' i') → isPresent (s.mem t j) = true →
        roles t = some (.node r' (h' + 1) p' i') := by
    intro r' h' p' i' t j ht hpr
    by_cases htf : t = f
    · subst htf
      rw [update_self] at ht
      obtain ⟨-, hh, -⟩ : r = r' ∧ h = h' + 1 ∧ p = p' ∧ i = i' := by simpa using ht
      rcases hempty with hz | hno
      · omega
      · rw [hno j] at hpr
        cases hpr
    · rwa [update_of_ne htf] at ht
  refine { ho with null := fun r' => ?_, free := fun t ht => ?_, top := fun i hi => hkeep (ho.top i hi),
                   child := fun t r' h' p' i' j ht hj hpr => ?_,
                   small := fun t r' h' p' i' j ht hj hpr => ?_,
                   kernel := fun q hq f hf => hkeep (ho.kernel q hq f hf), register := ?_ }
  · rw [update_of_ne hf.symm]
    exact ho.null r'
  · have htf : t ≠ f := fun heq => hfree (heq ▸ ht)
    rw [update_of_ne htf]
    exact ho.free t ht
  · exact hkeep (ho.child t r' h' p' i' j (hnode ht hpr) hj hpr)
  · exact ho.small t r' h' p' i' j (hnode ht hpr) hj hpr
  · rcases ho.register with hreg | hk | htop
    · exact Or.inl hreg
    · exact Or.inr (Or.inl (hkeep hk))
    · exact Or.inr (Or.inr (hkeep htop))

theorem take (ho : Owned roles s reg roots) {pmm : Pmm} (hfree : ∀ t, pmm.Free t → s.pmm.Free t)
    (hused : ∀ t, s.pmm.Used t → pmm.Used t) (hreg : ¬ s.pmm.Free reg) :
    Owned roles { s with pmm := pmm } reg roots :=
  { ho with nullTaken := fun h0 => ho.nullTaken (hfree 0 h0), free := fun t ht => ho.free t (hfree t ht),
            taken := fun i hi => hused _ (ho.taken i hi),
            register := Or.inr (ho.register.resolve_left hreg) }

theorem release (ho : Owned roles s reg roots) (hf : roles f = some (.node r 0 p i))
    (hentry : isPresent (s.mem p i) = false) (hdvd : pageSize ∣ f) :
    Owned (update roles f none) (s.freePage f) reg roots := by
  have hpage : f / pageSize * pageSize = f := Nat.div_mul_cancel hdvd
  have hfreed : ∀ t, (s.freePage f).pmm.Free t → s.pmm.Free t ∨ t = f := fun t ht => by
    have hcases := Pmm.free_of_pmmFreePage ht
    rwa [hpage] at hcases
  have hne : ∀ {t : Nat} {x : Role}, roles t = some x → x ≠ .node r 0 p i → t ≠ f :=
    fun ht hx heq => by
      rw [heq, hf] at ht
      exact hx (Option.some.inj ht).symm
  have hkeep : ∀ {t : Nat} {x : Role}, roles t = some x → x ≠ .node r 0 p i →
      update roles f none t = some x := fun ht hx => by
    rwa [update_of_ne (hne ht hx)]
  have hold : ∀ {t : Nat} {x : Role}, update roles f none t = some x → roles t = some x := by
    intro t x ht
    by_cases htf : t = f
    · rw [htf, update_self] at ht
      cases ht
    · rwa [update_of_ne htf] at ht
  have htop : ∀ q, Role.top q ≠ .node r 0 p i := fun q h => by simp [Role.top] at h
  refine ⟨fun h0 => ?_, fun r' h0 => ?_, fun t ht => ?_,
    fun i hi => hkeep (ho.top i hi) (htop _), fun i hi => ?_, ho.inj,
    fun t r' h' p' i' j ht hj hpr => ?_, fun t r' h' p' i' j ht hj hpr => ?_,
    fun q hq f hf => hkeep (ho.kernel q hq f hf) (by simp), ?_⟩
  · rcases hfreed 0 h0 with h0 | rfl
    · exact ho.nullTaken h0
    · exact ho.null r ⟨_, _, _, hf⟩
  · obtain ⟨h', p', i', h0⟩ := h0
    exact ho.null r' ⟨h', p', i', hold h0⟩
  · rcases hfreed t ht with ht | rfl
    · have htf : t ≠ f := fun heq => ho.not_free hf (heq ▸ ht)
      rw [update_of_ne htf]
      exact ho.free t ht
    · rw [update_self]
  · refine (ho.taken i hi).pmmFreePage_of_ne ?_
    rw [hpage]
    exact hne (ho.top i hi) (htop _)
  · -- an entry that links the frame would be the one that is cleared
    have hchild := ho.child t r' h' p' i' j (hold ht) hj hpr
    refine hkeep hchild fun heq => ?_
    obtain ⟨-, -, rfl, rfl⟩ : r' = r ∧ h' = 0 ∧ t = p ∧ j = i := by simpa using heq
    rw [Vm.freePage_mem, hentry] at hpr
    cases hpr
  · exact ho.small t r' h' p' i' j (hold ht) hj hpr
  · rcases ho.register with hreg | hk | hreg
    · exact Or.inl (hreg.pmmFreePage f)
    · exact Or.inr (Or.inl (hkeep hk (by simp)))
    · exact Or.inr (Or.inr (hkeep hreg (htop _)))

end Owned

/-! ## Taking and mapping pages -/

/-- The role of a page that holds no table: none, or that of a frame of a lower half. -/
inductive IsFrame : Option Role → Prop
  | none : IsFrame none
  | node (r p i : Nat) : IsFrame (some (.node r 0 p i))

theorem IsFrame.not_table {x : Option Role} (hx : IsFrame x) (r h p i : Nat) : x ≠ some (.node r (h + 1) p i) := by
  rintro rfl
  cases hx

/-- `s'` comes from `s` by taking pages and giving them roles. -/
structure Grown (reg : Nat) (roots : Slot → Nat) (roles roles' : Nat → Option Role) (s s' : Vm) :
    Prop where
  owned : Owned roles' s' reg roots
  roles_eq : ∀ f, ¬ s.pmm.Free f → roles' f = roles f
  free : ∀ f, s'.pmm.Free f → s.pmm.Free f
  half : HalfEq (RootOf reg roots) s.mem s'.mem
  accounted : s.pmm.Accounted → s'.pmm.Accounted

namespace Grown

variable {roles roles' roles'' : Nat → Option Role} {s s' s'' : Vm} {reg t : Nat} {roots : Slot → Nat}

theorem refl (ho : Owned roles s reg roots) : Grown reg roots roles roles s s :=
  ⟨ho, fun _ _ => rfl, fun _ hf => hf, .refl _ _, fun h => h⟩

theorem trans (hg : Grown reg roots roles roles' s s') (hg' : Grown reg roots roles' roles'' s' s'') :
    Grown reg roots roles roles'' s s'' where
  owned := hg'.owned
  roles_eq f hf := (hg'.roles_eq f fun hf' => hf (hg.free f hf')).trans (hg.roles_eq f hf)
  free f hf := hg.free f (hg'.free f hf)
  half := hg.half.trans hg'.half
  accounted h := hg'.accounted (hg.accounted h)

theorem not_free (hg : Grown reg roots roles roles' s s') (ht : ¬ s.pmm.Free t) : ¬ s'.pmm.Free t :=
  fun ht' => ht (hg.free t ht')

theorem role (hg : Grown reg roots roles roles' s s') (ho : Owned roles s reg roots) {x : Role}
    (ht : roles t = some x) : roles' t = some x := (hg.roles_eq t (ho.not_free ht)).trans ht

end Grown

namespace Owned

variable {roles : Nat → Option Role} {s : Vm} {reg r h p i j t f v : Nat} {roots : Slot → Nat}

theorem fresh (ho : Owned roles s reg roots) (hreg : ¬ s.pmm.Free reg) (hpage : s.pmm.pmmAllocPage.1 ≠ 0) :
    Grown reg roots roles roles s (s.allocPage.2.zeroPage s.pmm.pmmAllocPage.1) ∧ roles s.pmm.pmmAllocPage.1 = none ∧
      ¬ (s.allocPage.2.zeroPage s.pmm.pmmAllocPage.1).pmm.Free s.pmm.pmmAllocPage.1 ∧
      pageSize ∣ s.pmm.pmmAllocPage.1 := by
  have hfree := Pmm.free_of_pmmAllocPage hpage
  have hnone := ho.free _ hfree
  have hroot : ∀ q, RootOf reg roots q → q ≠ s.pmm.pmmAllocPage.1 := by
    rintro q (rfl | ⟨i, hi, rfl⟩) heq
    · exact hreg (heq ▸ hfree)
    · exact ho.not_free (ho.top i hi) (heq ▸ hfree)
  have htake : Owned roles s.allocPage.2 reg roots :=
    ho.take (fun t ht => ((Pmm.free_pmmAllocPage_iff _ _).mp ht).1) (fun _ => Pmm.Used.pmmAllocPage) hreg
  have hhalf : HalfEq (RootOf reg roots) s.mem (s.allocPage.2.zeroPage s.pmm.pmmAllocPage.1).mem := by
    refine ho.halfEq (fun t ht => Vm.zeroPage_mem_of_ne _ fun heq => ?_) fun q hq i _ _ => ?_
    · rw [heq, hnone] at ht
      cases ht
    · rw [Vm.zeroPage_mem_of_ne _ (hroot q hq)]
      rfl
  have hnotfree : ¬ s.pmm.pmmAllocPage.2.Free s.pmm.pmmAllocPage.1 := fun h =>
    ((Pmm.free_pmmAllocPage_iff _ _).mp h).2 rfl
  refine ⟨⟨htake.write rfl (fun t ht => Vm.zeroPage_mem_of_ne _ ht) (fun r h p i hrole => ?_) hhalf,
    fun _ _ => rfl, fun t ht => ((Pmm.free_pmmAllocPage_iff _ _).mp ht).1, hhalf,
    fun hacc => hacc.pmmAllocPage ho.nullTaken⟩, hnone, hnotfree, hfree.dvd⟩
  rw [hnone] at hrole
  cases hrole

theorem allocPage_null (ho : Owned roles s reg roots) (hpage : s.pmm.pmmAllocPage.1 = 0) : s.allocPage = (0, s) :=
  allocPage_eq_self fun _ ht => Pmm.pmmAllocPage_ne_zero ho.nullTaken ht hpage

theorem nextTable (ho : Owned roles s reg roots) (hreg : ¬ s.pmm.Free reg)
    (ht : roles t = some (.node r (h + 2) p i)) (hj : j < lowerEntries (h + 2)) :
    ∃ roles', Grown reg roots roles roles' s (vmmNextTable s t j).2 ∧
      ∀ n, (vmmNextTable s t j).1 = some n → roles' n = some (.node r (h + 1) t j) := by
  unfold vmmNextTable
  by_cases hpr : isPresent (s.mem t j) = true
  · rw [if_pos hpr]
    refine ⟨roles, .refl ho, fun n hn => ?_⟩
    obtain rfl : pageOf (s.mem t j) = n := Option.some.inj hn
    exact ho.child t r (h + 1) p i j ht hj hpr
  · rw [if_neg hpr]
    by_cases hpage : s.pmm.pmmAllocPage.1 = 0
    · rw [ho.allocPage_null hpage]
      exact ⟨roles, .refl ho, fun n hn => nomatch hn⟩
    · obtain ⟨hgrown, hnone, hnotfree, hdvd⟩ := ho.fresh hreg hpage
      have hold : s.pmm.Free s.pmm.pmmAllocPage.1 := Pmm.free_of_pmmAllocPage hpage
      dsimp only
      rw [Vm.allocPage_fst, if_neg hpage]
      generalize s.pmm.pmmAllocPage.1 = page at *
      have hne : t ≠ page := by
        rintro rfl
        rw [hnone] at ht
        cases ht
      -- the new table gets its role, then the entry that links it
      have hadopt := hgrown.owned.adopt (r := r) (h := h + 1) (p := t) (i := j) hnone hnotfree hpage
        (Or.inr fun l => by rw [Vm.zeroPage_mem_self]; rfl)
      have ht' : update roles page (some (.node r (h + 1) t j)) t
          = some (.node r (h + 2) p i) := by rwa [update_of_ne hne]
      have hset := hadopt.setEntry (v := tableEntry page) ht' hj
        (fun _ => by rw [pageOf_tableEntry hdvd, update_self])
        (fun _ _ => isHuge_tableEntry hdvd)
      have hhalf := hadopt.halfEq_setEntry (v := tableEntry page) ht' hj
      refine ⟨_, ⟨hset, fun f hf => ?_, hgrown.free, hgrown.half.trans hhalf, hgrown.accounted⟩,
        fun n hn => ?_⟩
      · have hfp : f ≠ page := by
          rintro rfl
          exact hf hold
        rw [update_of_ne hfp]
      · rw [Vm.setEntry_mem_self, pageOf_tableEntry hdvd] at hn
        obtain rfl := Option.some.inj hn
        rw [update_self]

theorem pageOf_frameEntry (hdvd : pageSize ∣ f) (flags : Nat) :
    pageOf (pageOf f ||| offsetOf flags ||| pml4Present) = f := by
  rw [pageOf_of_dvd hdvd, Nat.or_assoc]
  exact pageOf_or hdvd (Nat.or_lt_two_pow (n := 12) (offsetOf_lt flags) (by decide))

theorem map (ho : Owned roles s reg roots) (hreg : ¬ s.pmm.Free reg) (hr : roles r = some (.top r))
    (hv : pml4Idx v < halfEntries) (hpage : s.pmm.pmmAllocPage.1 ≠ 0) (flags : Nat) :
    ∃ roles', Grown reg roots roles roles' s
        (vmmMapPage (s.allocPage.2.zeroPage s.pmm.pmmAllocPage.1) r v s.pmm.pmmAllocPage.1 flags) ∧
      IsFrame (roles' s.pmm.pmmAllocPage.1) ∧
      ¬ (vmmMapPage (s.allocPage.2.zeroPage s.pmm.pmmAllocPage.1) r v s.pmm.pmmAllocPage.1
        flags).pmm.Free s.pmm.pmmAllocPage.1 := by
  obtain ⟨hg₀, hnone, hnotfree, hdvd⟩ := ho.fresh hreg hpage
  have hold : s.pmm.Free s.pmm.pmmAllocPage.1 := Pmm.free_of_pmmAllocPage hpage
  generalize s.allocPage.2.zeroPage s.pmm.pmmAllocPage.1 = s₀ at *
  generalize s.pmm.pmmAllocPage.1 = f at *
  have hr0 : r ≠ 0 := by
    rintro rfl
    exact ho.null 0 ⟨_, _, _, hr⟩
  have hlow : ∀ h j, h ≠ 4 → j < 512 → j < lowerEntries h := fun h j hh hj => by
    rw [lowerEntries, if_neg hh]
    exact hj
  unfold vmmMapPage
  rw [if_neg hr0]
  obtain ⟨roles₁, hg₁, hn₁⟩ := hg₀.owned.nextTable (hg₀.not_free hreg) hr hv
  generalize vmmNextTable s₀ r (pml4Idx v) = x₁ at hg₁ hn₁ ⊢
  obtain ⟨_ | pdpt, s₁⟩ := x₁
  · refine ⟨roles₁, hg₀.trans hg₁, ?_, hg₁.not_free hnotfree⟩
    rw [hg₁.roles_eq f hnotfree, hnone]
    exact .none
  obtain ⟨roles₂, hg₂, hn₂⟩ := hg₁.owned.nextTable (hg₁.not_free (hg₀.not_free hreg)) (hn₁ pdpt rfl)
    (hlow 3 _ (by decide) (pdptIdx_lt v))
  have hg₁₂ := hg₁.trans hg₂
  dsimp only at hg₁₂ hn₂ ⊢
  generalize vmmNextTable s₁ pdpt (pdptIdx v) = x₂ at hg₁₂ hn₂ ⊢
  obtain ⟨_ | pd, s₂⟩ := x₂
  · refine ⟨roles₂, hg₀.trans hg₁₂, ?_, hg₁₂.not_free hnotfree⟩
    rw [hg₁₂.roles_eq f hnotfree, hnone]
    exact .none
  obtain ⟨roles₃, hg₃, hn₃⟩ := hg₁₂.owned.nextTable (hg₁₂.not_free (hg₀.not_free hreg)) (hn₂ pd rfl)
    (hlow 2 _ (by decide) (pdIdx_lt v))
  have hg := hg₁₂.trans hg₃
  dsimp only at hg hn₃ ⊢
  generalize vmmNextTable s₂ pd (pdIdx v) = x₃ at hg hn₃ ⊢
  obtain ⟨_ | pt, s₃⟩ := x₃
  · refine ⟨roles₃, hg₀.trans hg, ?_, hg.not_free hnotfree⟩
    rw [hg.roles_eq f hnotfree, hnone]
    exact .none
  -- the frame still has no role; it gets the one of the entry that is written
  have hpt := hn₃ pt rfl
  have hnone₃ : roles₃ f = none := (hg.roles_eq f hnotfree).trans hnone
  have hf0 : f ≠ 0 := fun heq => ho.nullTaken (heq ▸ hold)
  have hne : pt ≠ f := by
    rintro rfl
    rw [hnone₃] at hpt
    cases hpt
  have hadopt := hg.owned.adopt (r := r) (h := 0) (p := pt) (i := ptIdx v) hnone₃ (hg.not_free hnotfree) hf0
    (Or.inl rfl)
  have hpt' : update roles₃ f (some (.node r 0 pt (ptIdx v))) pt
      = some (.node r 1 pd (pdIdx v)) := by rwa [update_of_ne hne]
  have hidx := hlow 1 _ (by decide) (ptIdx_lt v)
  have hall := hg₀.trans hg
  refine ⟨_, ⟨hadopt.setEntry hpt' hidx (fun _ => ?_) (fun h0 => absurd rfl h0), fun u hu => ?_, hall.free,
    hall.half.trans (hadopt.halfEq_setEntry hpt' hidx), hall.accounted⟩, ?_,
    hg.not_free hnotfree⟩
  · rw [pageOf_frameEntry hdvd, update_self]
  · have huf : u ≠ f := fun heq => hu (heq ▸ hold)
    rw [update_of_ne huf]
    exact hall.roles_eq u hu
  · rw [update_self]
    exact .node r pt (ptIdx v)

theorem mapZeroed (hreg : ¬ s.pmm.Free reg) (flags : Nat) {l : List Nat} (ho : Owned roles s reg roots)
    (hr : r = 0 ∨ roles r = some (.top r) ∧ ∀ a ∈ l, pml4Idx a < halfEntries) :
    ∃ roles', Grown reg roots roles roles' s (mapZeroed r flags l s).2 := by
  induction l generalizing s roles with
  | nil => exact ⟨roles, .refl ho⟩
  | cons a rest ih =>
    rw [Kernel.mapZeroed]
    dsimp only
    rw [Vm.allocPage_fst]
    by_cases hpage : s.pmm.pmmAllocPage.1 = 0
    · rw [if_pos hpage, ho.allocPage_null hpage]
      exact ⟨roles, .refl ho⟩
    rw [if_neg hpage]
    obtain ⟨roles₁, hg₁⟩ : ∃ roles₁, Grown reg roots roles roles₁ s (vmmMapPage
        (s.allocPage.2.zeroPage s.pmm.pmmAllocPage.1) r a s.pmm.pmmAllocPage.1 flags) := by
      rcases hr with rfl | ⟨htop, hlow⟩
      · exact ⟨roles, (ho.fresh hreg hpage).1⟩
      · obtain ⟨roles₁, hg₁, _, _⟩ := ho.map hreg htop (hlow a List.mem_cons_self) hpage flags
        exact ⟨roles₁, hg₁⟩
    have hr₁ : r = 0 ∨ roles₁ r = some (.top r) ∧ ∀ b ∈ rest, pml4Idx b < halfEntries := by
      rcases hr with hz | ⟨htop, hlow⟩
      · exact Or.inl hz
      · exact Or.inr ⟨hg₁.role ho htop, fun b hb => hlow b (List.mem_cons_of_mem a hb)⟩
    obtain ⟨roles₂, hg₂⟩ := ih (hg₁.not_free hreg) hg₁.owned hr₁
    exact ⟨roles₂, hg₁.trans hg₂⟩

end Owned

/-! ## Unmapping -/

/-- `s'` comes from `s` with its pages typed, its kernel halves the same and its counts in step. -/
structure Kept (reg : Nat) (roots : Slot → Nat) (s s' : Vm) : Prop where
  owned : ∃ roles, Owned roles s' reg roots
  half : HalfEq (RootOf reg roots) s.mem s'.mem
  accounted : s.pmm.Accounted → s'.pmm.Accounted

theorem Kept.refl {roles : Nat → Option Role} {s : Vm} {reg : Nat} {roots : Slot → Nat}
    (ho : Owned roles s reg roots) : Kept reg roots s s := ⟨⟨roles, ho⟩, .refl _ _, fun h => h⟩

theorem Kept.trans {s s' s'' : Vm} {reg : Nat} {roots : Slot → Nat} (hk : Kept reg roots s s')
    (hk' : Kept reg roots s' s'') : Kept reg roots s s'' :=
  ⟨hk'.owned, hk.half.trans hk'.half, fun h => hk'.accounted (hk.accounted h)⟩

theorem Grown.kept {roles roles' : Nat → Option Role} {s s' : Vm} {reg : Nat} {roots : Slot → Nat}
    (hg : Grown reg roots roles roles' s s') : Kept reg roots s s' :=
  ⟨⟨roles', hg.owned⟩, hg.half, hg.accounted⟩

/-- The pages that `unmapPages` hands to `pmm_free_page`. -/
def unmapFreed (cr3 : Nat) : List Nat → Vm → List Nat
  | [], _ => []
  | a :: rest, s =>
    let phys := vmmTranslate s.mem cr3 a
    if phys = 0 then unmapFreed cr3 rest s
    else pageOf phys :: unmapFreed cr3 rest ((vmmUnmapPage s cr3 a).freePage (pageOf phys))

namespace Owned

variable {roles : Nat → Option Role} {s : Vm} {reg r v : Nat} {roots : Slot → Nat}

theorem not_mapped_of_node (ho : Owned roles s reg roots) {f h p i : Nat}
    (hf : roles f = some (.node r h p i)) {q : Nat} (hq : RootOf reg roots q) : ¬ Mapped s.mem q halfEntries 512 f := by
  intro hm
  have hk := ho.kernel q hq f (Or.inr hm)
  rw [hf] at hk
  cases hk

theorem unmap (ho : Owned roles s reg roots) (hr : roles r = some (.top r))
    (hv : pml4Idx v < halfEntries) (hw : vmmTranslate s.mem r v ≠ 0) :
    Kept reg roots s ((vmmUnmapPage s r v).freePage (pageOf (vmmTranslate s.mem r v))) ∧
      ∃ p i, roles (pageOf (vmmTranslate s.mem r v)) = some (.node r 0 p i) := by
  have hr0 : r ≠ 0 := by
    rintro rfl
    exact ho.null 0 ⟨_, _, _, hr⟩
  rw [vmmTranslate, if_neg hr0] at hw ⊢
  obtain ⟨pd, pt, hp3, hp2, hpd, hp1, hpt, hframe, hrole, hleaf⟩ := ho.walk hr hv hw
  have hunmap : vmmUnmapPage s r v = s.setEntry pt (ptIdx v) 0 := by
    unfold vmmUnmapPage
    dsimp only
    rw [if_neg hr0, hp3, hp2, ← hpd, hp1, ← hpt]
    rfl
  rw [hframe, hunmap]
  have hidx : ptIdx v < lowerEntries (0 + 1) := ptIdx_lt v
  have hset := ho.setEntry (v := 0) hrole hidx (fun h => nomatch h) (fun h0 => absurd rfl h0)
  have hempty : isPresent ((s.setEntry pt (ptIdx v) 0).mem pt (ptIdx v)) = false := by
    rw [Vm.setEntry_mem_self]
    rfl
  exact ⟨⟨⟨_, hset.release hleaf hempty (dvd_pageOf _)⟩, ho.halfEq_setEntry hrole hidx,
    fun hacc => hacc.pmmFreePage _⟩, _, _, hleaf⟩

theorem unmapPages (ho : Owned roles s reg roots) {c : Slot} (hc : roots c ≠ 0) {l : List Nat}
    (hl : ∀ a ∈ l, pml4Idx a < halfEntries ∨ vmmTranslate s.mem (roots c) a = 0) :
    Kept reg roots s (unmapPages (roots c) l s) ∧
      ∀ f ∈ unmapFreed (roots c) l s, ∀ q, RootOf reg roots q → ¬ Mapped s.mem q halfEntries 512 f := by
  induction l generalizing s roles with
  | nil => exact ⟨.refl ho, fun f hf => nomatch hf⟩
  | cons a rest ih =>
    rw [Kernel.unmapPages, unmapFreed]
    have hrest : ∀ b ∈ rest, b ∈ a :: rest := fun b hb => List.mem_cons_of_mem a hb
    by_cases hz : vmmTranslate s.mem (roots c) a = 0
    · rw [if_pos hz, if_pos hz]
      exact ih ho fun b hb => hl b (hrest b hb)
    rw [if_neg hz, if_neg hz]
    have hlow := (hl a List.mem_cons_self).resolve_right hz
    obtain ⟨hkept, p, i, hleaf⟩ := ho.unmap (ho.top c hc) hlow hz
    obtain ⟨roles₁, ho₁⟩ := hkept.owned
    -- an address of the kernel half that was not mapped is still not mapped
    have hnext := ih ho₁ fun b hb => by
      rcases Nat.lt_or_ge (pml4Idx b) halfEntries with hb' | hb'
      · exact Or.inl hb'
      · refine Or.inr ?_
        have hzero := (hl b (hrest b hb)).resolve_left (Nat.not_lt.mpr hb')
        rw [vmmTranslate, if_neg hc] at hzero ⊢
        rw [hkept.half.pageWalk (Or.inr ⟨c, hc, rfl⟩) hb']
        exact hzero
    refine ⟨hkept.trans hnext.1, fun f hf q hq hm => ?_⟩
    rcases List.mem_cons.mp hf with rfl | hf
    · exact ho.not_mapped_of_node hleaf hq hm
    · exact hnext.2 f hf q hq (hkept.half.mapped hq hm)

end Owned

end Chicago95.Kernel
