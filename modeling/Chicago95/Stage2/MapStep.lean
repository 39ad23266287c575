/-
# Chicago95.Stage2.MapStep — one call of `vmm_map_page`, exactly.

With pages to spare for three tables a call fails in two ways: the page is present, or an entry on the way to it is
present and leads nowhere (`Refuses`). It then leaves everything as it was (`mapPage_cases`).
-/
import Chicago95.Stage2.Clusters

namespace Chicago95.Stage2.Vmm

open Chicago95.Lib.Radix

/-! ## When a page is refused -/

/-- There are pages for three tables. -/
def Spare (s : Vmm) : Prop :=
  ∃ a b c rest, s.supply = a :: b :: c :: rest ∧ a ≠ 0 ∧ b ≠ 0 ∧ c ≠ 0

/-- Entry `i` of the table that the path leads to is present and leads nowhere. -/
def Dead (s : Vmm) (q : List (Fin 512)) (i : Fin 512) : Prop :=
  ∃ t, s.walk q = some t ∧ (s.mem t i).present = true ∧ child q.length (s.mem t i) = none

/-- **Pages that are not mapped**: those that are already, and those below an entry that leads nowhere. -/
def Refuses (s : Vmm) (v : UInt64) : Prop :=
  s.vmmIsMapped v = true ∨ s.Dead [] (index 39 v) ∨ s.Dead (pdptPath v) (index 30 v) ∨
    s.Dead (pdPath v) (index 21 v)

theorem getTable_present {s : Vmm} {d t : Nat} {i : Fin 512} (hd : d ≤ 2) (h : (s.mem t i).present = true) :
    getTable (d != 0) s t i true = (child d (s.mem t i), s) := by
  have hsame : getTable (d != 0) s t i true = getTable (d != 0) s t i false := by
    unfold getTable
    rw [h]
    rfl
  rw [hsame, getTable_lookup s hd t i]

theorem getTable_absent {s : Vmm} {b : Bool} {t n : Nat} {i : Fin 512} {rest : List Nat}
    (h : (s.mem t i).present = false) (hsupply : s.supply = n :: rest) (hn : n ≠ 0) :
    getTable b s t i true = (some n, s.linked t i n rest) := by
  unfold getTable vmmAllocTable pmmAllocPage
  simp only [h, hsupply, Bool.false_eq_true, if_false, if_true, if_neg hn]
  rfl

/-- The last step of `vmm_map_page`. -/
def mapAt (s : Vmm) (pt : Nat) (v p flags : UInt64) : Int × Vmm :=
  if (s.mem pt (index 12 v)).present then (-2, s)
  else (0, s.setEntry pt (index 12 v) (mapEntry (s.mem pt (index 12 v)) p flags))

/-- `vmm_map_page` from the PD on. -/
def mapFromPd (s : Vmm) (pd : Nat) (v p flags : UInt64) : Int × Vmm :=
  match s.vmmGetPt pd v true with
  | (none, s) => (-1, s)
  | (some pt, s) => s.mapAt pt v p flags

/-- `vmm_map_page` from the PDPT on. -/
def mapFromPdpt (s : Vmm) (pdpt : Nat) (v p flags : UInt64) : Int × Vmm :=
  match s.vmmGetPd pdpt v true with
  | (none, s) => (-1, s)
  | (some pd, s) => s.mapFromPd pd v p flags

theorem vmmMapPage_eq (s : Vmm) (v p flags : UInt64) :
    s.vmmMapPage v p flags = match s.vmmGetPdpt vmmPml4 v true with
      | (none, s) => (-1, s)
      | (some pdpt, s) => s.mapFromPdpt pdpt v p flags := rfl

section

variable {s : Vmm} {place : Nat → Option (List (Fin 512))} {v : UInt64} (p flags : UInt64)

theorem mapFromPd_absent {pd n : Nat} {rest : List Nat} (h : (s.mem pd (index 21 v)).present = false)
    (hsupply : s.supply = n :: rest) (hn : n ≠ 0) (hne : pd ≠ n) : (s.mapFromPd pd v p flags).1 = 0 := by
  unfold mapFromPd vmmGetPt
  rw [getTable_absent h hsupply hn]
  dsimp only
  unfold mapAt
  rw [linked_mem_new hne]
  rfl

theorem mapFromPdpt_absent {pdpt n m : Nat} {rest : List Nat} (h : (s.mem pdpt (index 30 v)).present = false)
    (hsupply : s.supply = n :: m :: rest) (hn : n ≠ 0) (hm : m ≠ 0) (hne : pdpt ≠ n) (hne' : n ≠ m) :
    (s.mapFromPdpt pdpt v p flags).1 = 0 := by
  unfold mapFromPdpt vmmGetPd
  rw [getTable_absent h hsupply hn]
  dsimp only
  refine mapFromPd_absent p flags ?_ rfl hm hne'
  rw [linked_mem_new hne]

theorem walk_of_absent {q : List (Fin 512)} {t : Nat} {i : Fin 512} (hq : s.walk q = some t)
    (h : (s.mem t i).present = false) : s.walk (i :: q) = none ∧ ¬ s.Dead q i := by
  constructor
  · rw [walk_step hq]
    exact child_of_not_present h
  · rintro ⟨u, hu, hpresent, -⟩
    obtain rfl := Option.some.inj (hu.symm.trans hq)
    rw [h] at hpresent
    cases hpresent

theorem not_dead_of_walk_none {q : List (Fin 512)} {i : Fin 512} (hq : s.walk q = none) : ¬ s.Dead q i := by
  rintro ⟨t, ht, -⟩
  rw [hq] at ht
  cases ht

theorem not_dead_of_child {q : List (Fin 512)} {t u : Nat} {i : Fin 512} (hq : s.walk q = some t)
    (h : child q.length (s.mem t i) = some u) : ¬ s.Dead q i := by
  rintro ⟨t', ht', -, hnone⟩
  obtain rfl := Option.some.inj (ht'.symm.trans hq)
  rw [h] at hnone
  cases hnone

theorem not_mapped_of_walk_none (h : s.walk (ptPath v) = none) : ¬ s.vmmIsMapped v = true := by
  rw [vmmIsMapped_eq, h]
  exact Bool.false_ne_true

theorem mapPage_cases (h : Ready s place) (hspare : s.Spare) :
    (s.Refuses v ∧ (s.vmmMapPage v p flags).1 ≠ 0 ∧ (s.vmmMapPage v p flags).2 = s) ∨
      (¬ s.Refuses v ∧ (s.vmmMapPage v p flags).1 = 0) := by
  obtain ⟨a, b, c, rest, hsupply, ha, hb, hc⟩ := hspare
  have hfresh : ∀ {u r}, place u = some r → u ≠ a := by
    rintro u r hu rfl
    rw [h.fresh u (by simp [hsupply]) ha] at hu
    cases hu
  have hdistinct := h.distinct
  rw [hsupply] at hdistinct
  have hab : a ≠ b := fun hab => ha ((List.pairwise_cons.mp hdistinct).1 b (by simp) hab)
  have hbc : b ≠ c := fun hbc =>
    hb ((List.pairwise_cons.mp (List.pairwise_cons.mp hdistinct).2).1 c (by simp) hbc)
  have hroot : s.walk [] = some vmmPml4 := rfl
  rw [vmmMapPage_eq]
  unfold vmmGetPdpt
  -- the entry of the PML4
  rcases h39 : (s.mem vmmPml4 (index 39 v)).present with _ | _
  · obtain ⟨hwalk, hdead⟩ := walk_of_absent hroot h39
    refine Or.inr ⟨?_, ?_⟩
    · rintro (hmapped | hdead' | hdead' | hdead')
      · exact not_mapped_of_walk_none (walk_pt_of_none (walk_pd_of_none hwalk)) hmapped
      · exact hdead hdead'
      · exact not_dead_of_walk_none hwalk hdead'
      · exact not_dead_of_walk_none (walk_pd_of_none hwalk) hdead'
    · rw [getTable_absent h39 hsupply ha]
      dsimp only
      refine mapFromPdpt_absent p flags ?_ rfl hb hc hab hbc
      rw [linked_mem_new (hfresh h.placed.root_eq)]
  rw [show getTable false s vmmPml4 (index 39 v) true = _ from getTable_present (d := 0) (by omega) h39]
  rcases hpdpt : child 0 (s.mem vmmPml4 (index 39 v)) with _ | pdpt
  · exact Or.inl ⟨Or.inr (Or.inl ⟨_, hroot, h39, hpdpt⟩), show (-1 : Int) ≠ 0 by decide, rfl⟩
  dsimp only
  have hwalk3 : s.walk (pdptPath v) = some pdpt := (walk_step hroot _).trans hpdpt
  have halive3 : ¬ s.Dead [] (index 39 v) := not_dead_of_child hroot hpdpt
  unfold mapFromPdpt vmmGetPd
  -- the entry of the PDPT
  rcases h30 : (s.mem pdpt (index 30 v)).present with _ | _
  · obtain ⟨hwalk, hdead⟩ := walk_of_absent hwalk3 h30
    refine Or.inr ⟨?_, ?_⟩
    · rintro (hmapped | hdead' | hdead' | hdead')
      · exact not_mapped_of_walk_none (walk_pt_of_none hwalk) hmapped
      · exact halive3 hdead'
      · exact hdead hdead'
      · exact not_dead_of_walk_none hwalk hdead'
    · rw [getTable_absent h30 hsupply ha]
      dsimp only
      refine mapFromPd_absent p flags ?_ rfl hb hab
      rw [linked_mem_new (hfresh (h.place_of_walk hwalk3))]
  rw [show getTable true s pdpt (index 30 v) true = _ from getTable_present (d := 1) (by omega) h30]
  rcases hpd : child 1 (s.mem pdpt (index 30 v)) with _ | pd
  · exact Or.inl ⟨Or.inr (Or.inr (Or.inl ⟨_, hwalk3, h30, hpd⟩)), show (-1 : Int) ≠ 0 by decide, rfl⟩
  dsimp only
  have hwalk2 : s.walk (pdPath v) = some pd := (walk_step hwalk3 _).trans hpd
  have halive2 : ¬ s.Dead (pdptPath v) (index 30 v) := not_dead_of_child hwalk3 hpd
  -- the entry of the PD
  rcases h21 : (s.mem pd (index 21 v)).present with _ | _
  · obtain ⟨hwalk, hdead⟩ := walk_of_absent hwalk2 h21
    refine Or.inr ⟨?_, mapFromPd_absent p flags h21 hsupply ha (hfresh (h.place_of_walk hwalk2))⟩
    rintro (hmapped | hdead' | hdead' | hdead')
    · exact not_mapped_of_walk_none hwalk hmapped
    · exact halive3 hdead'
    · exact halive2 hdead'
    · exact hdead hdead'
  unfold mapFromPd vmmGetPt
  rw [show getTable true s pd (index 21 v) true = _ from getTable_present (d := 2) (by omega) h21]
  rcases hpt : child 2 (s.mem pd (index 21 v)) with _ | pt
  · exact Or.inl ⟨Or.inr (Or.inr (Or.inr ⟨_, hwalk2, h21, hpt⟩)), show (-1 : Int) ≠ 0 by decide, rfl⟩
  dsimp only
  have hwalk1 : s.walk (ptPath v) = some pt := (walk_step hwalk2 _).trans hpt
  have hmapped : s.vmmIsMapped v = (s.mem pt (index 12 v)).present := by
    rw [vmmIsMapped_eq, hwalk1]
    rfl
  unfold mapAt
  -- the page
  rcases h12 : (s.mem pt (index 12 v)).present with _ | _
  · refine Or.inr ⟨?_, rfl⟩
    rintro (hmapped' | hdead' | hdead' | hdead')
    · rw [hmapped, h12] at hmapped'
      cases hmapped'
    · exact halive3 hdead'
    · exact halive2 hdead'
    · exact not_dead_of_child hwalk2 hpt hdead'
  · exact Or.inl ⟨Or.inl (hmapped.trans h12), show (-2 : Int) ≠ 0 by decide, rfl⟩

end

/-! ## The tables that are made -/

theorem Obtains.unseen {s s' : Vmm} {place place' : Nat → Option (List (Fin 512))} {t n : Nat} {i : Fin 512}
    {r : List (Fin 512)} (h : Obtains s s' place place' t n i r) (hready : Ready s place) (hplace : place t = some r)
    (hr : r.length ≤ 2) {w : UInt64} (hpath : ∀ q ∈ [pdptPath w, pdPath w, ptPath w], q ≠ i :: r)
    (hgigabyte : ¬(r = pdptPath w ∧ i = index 39 w)) (hmegabytes : ¬(r = pdPath w ∧ i = index 30 w)) :
    s'.source w = s.source w ∧ s'.vmmGetPhysical w = s.vmmGetPhysical w := by
  -- an entry of a table of the address
  have hkept : ∀ {u q j}, s.walk q = some u → ¬(r = q ∧ i = j) → s'.mem u j = s.mem u j := by
    intro u q j hu hne
    have hu' := hready.place_of_walk hu
    refine h.kept u j (by simp [hu']) (Or.inl ?_)
    rintro ⟨rfl, rfl⟩
    exact hne ⟨Option.some.inj (hplace.symm.trans hu'), rfl⟩
  have h3 := h.walk_ne _ (hpath (pdptPath w) (by simp))
  have h2 := h.walk_ne _ (hpath (pdPath w) (by simp))
  have h1 := h.walk_ne _ (hpath (ptPath w) (by simp))
  have hsource : s'.source w = s.source w := by
    unfold source
    rw [h3, h2, h1]
    rcases hw3 : s.walk (pdptPath w) with _ | pdpt
    · rfl
    · dsimp only
      rw [hkept hw3 hgigabyte]
      rcases hw2 : s.walk (pdPath w) with _ | pd
      · rfl
      · dsimp only
        rw [hkept hw2 hmegabytes]
  refine ⟨hsource, ?_⟩
  rw [vmmGetPhysical_eq, vmmGetPhysical_eq, hsource]
  rcases hsrc : s.source w with _ | src
  · simp only [Option.map_none]
  · cases src with
    | gigabyte e => simp only [Option.map_some, Option.getD_some, physicalFrom]
    | megabytes e => simp only [Option.map_some, Option.getD_some, physicalFrom]
    | page u =>
      simp only [Option.map_some, Option.getD_some, physicalFrom]
      rw [hkept (j := index 12 w) (walk_of_source_page hsrc)]
      rintro ⟨rfl, -⟩
      simp at hr

theorem entry_of_get {s s' : Vmm} {d t n : Nat} {i : Fin 512} (hd : d ≤ 2)
    (hget : getTable (d != 0) s t i true = (some n, s')) (hne : t ≠ n) :
    (∃ u, child d (s.mem t i) = some u ∧ s'.mem t i = s.mem t i) ∨
      s'.mem t i = (s.mem t i).link (s.supply.headD 0) := by
  rcases getTable_some hd hget with ⟨rfl, hchild⟩ | ⟨rest, hsupply, -, -, rfl⟩
  · exact Or.inl ⟨n, hchild, rfl⟩
  · refine Or.inr ?_
    rw [linked_mem_self hne, hsupply]
    rfl

/-- **The way to a page's table**, made where it was missing: the states after each of the three tables. -/
structure Made (s s₁ s₂ s₃ : Vmm) (v : UInt64) (pdpt pd pt : Nat)
    (place place₁ place₂ place₃ : Nat → Option (List (Fin 512))) : Prop where
  ready : Ready s place
  first : Obtains s s₁ place place₁ vmmPml4 pdpt (index 39 v) []
  second : Obtains s₁ s₂ place₁ place₂ pdpt pd (index 30 v) (pdptPath v)
  third : Obtains s₂ s₃ place₂ place₃ pd pt (index 21 v) (pdPath v)
  getPd : getTable (1 != 0) s₁ pdpt (index 30 v) true = (some pd, s₂)
  getPt : getTable (2 != 0) s₂ pd (index 21 v) true = (some pt, s₃)

theorem made_of_map {s : Vmm} {place : Nat → Option (List (Fin 512))} {v p flags : UInt64} (h : Ready s place)
    (hmap : (s.vmmMapPage v p flags).1 = 0) :
    ∃ s₁ s₂ s₃ pdpt pd pt place₁ place₂ place₃, Made s s₁ s₂ s₃ v pdpt pd pt place place₁ place₂ place₃ ∧
      (s.vmmMapPage v p flags).2 = s₃.setEntry pt (index 12 v) (mapEntry (s₃.mem pt (index 12 v)) p flags) := by
  rw [vmmMapPage_eq] at hmap ⊢
  rcases hget₁ : s.vmmGetPdpt vmmPml4 v true with ⟨_ | pdpt, s₁⟩
  · rw [hget₁] at hmap
    exact absurd hmap (show (-1 : Int) ≠ 0 by decide)
  rw [hget₁] at hmap
  have h₁ := obtains_of_getTable (p := []) h (by simp) h.placed.root_eq (walk_unique rfl) hget₁
  have hwalk₁ : s₁.walk (pdptPath v) = some pdpt := by simpa using h₁.walk_self rfl
  dsimp only at hmap ⊢
  unfold mapFromPdpt at hmap ⊢
  rcases hget₂ : s₁.vmmGetPd pdpt v true with ⟨_ | pd, s₂⟩
  · rw [hget₂] at hmap
    exact absurd hmap (show (-1 : Int) ≠ 0 by decide)
  rw [hget₂] at hmap
  have h₂ := obtains_of_getTable (p := pdptPath v) h₁.ready (by simp) h₁.place_self (walk_unique hwalk₁) hget₂
  dsimp only at hmap ⊢
  unfold mapFromPd at hmap ⊢
  rcases hget₃ : s₂.vmmGetPt pd v true with ⟨_ | pt, s₃⟩
  · rw [hget₃] at hmap
    exact absurd hmap (show (-1 : Int) ≠ 0 by decide)
  rw [hget₃] at hmap
  have h₃ := obtains_of_getTable (p := pdPath v) h₂.ready (by simp) h₂.place_self (h₂.walk_unique hwalk₁) hget₃
  dsimp only at hmap ⊢
  unfold mapAt at hmap ⊢
  split at hmap
  · exact absurd hmap (show (-2 : Int) ≠ 0 by decide)
  · rename_i habsent
    rw [if_neg habsent]
    exact ⟨s₁, s₂, s₃, pdpt, pd, pt, _, _, _, ⟨h, h₁, h₂, h₃, hget₂, hget₃⟩, rfl⟩

namespace Made

variable {s s₁ s₂ s₃ : Vmm} {v w : UInt64} {pdpt pd pt : Nat}
  {place place₁ place₂ place₃ : Nat → Option (List (Fin 512))}

theorem of_pdpt (h : Made s s₁ s₂ s₃ v pdpt pd pt place place₁ place₂ place₃) {t : Nat}
    (ht : s.walk (pdptPath v) = some t) : s₁ = s ∧ pdpt = t := h.first.same t rfl ht

theorem of_pd (h : Made s s₁ s₂ s₃ v pdpt pd pt place place₁ place₂ place₃) {t : Nat}
    (ht : s.walk (pdPath v) = some t) : s₂ = s ∧ pd = t := by
  obtain ⟨u, hu, -⟩ := of_walk_cons ht
  obtain ⟨rfl, rfl⟩ := h.of_pdpt hu
  exact h.second.same t hu ht

theorem of_pt (h : Made s s₁ s₂ s₃ v pdpt pd pt place place₁ place₂ place₃) {t : Nat}
    (ht : s.walk (ptPath v) = some t) : s₃ = s ∧ pt = t := by
  obtain ⟨u, hu, -⟩ := of_walk_cons ht
  obtain ⟨rfl, rfl⟩ := h.of_pd hu
  exact h.third.same t hu ht

theorem walk_pt (h : Made s s₁ s₂ s₃ v pdpt pd pt place place₁ place₂ place₃) {t : Nat}
    (ht : s₃.walk (ptPath v) = some t) : t = pt := by
  have hpdpt : s₁.walk (pdptPath v) = some pdpt := by simpa using h.first.walk_self rfl
  obtain ⟨u, hu, -⟩ := of_walk_cons ht
  rw [h.third.walk_ne _ (by simp)] at hu
  obtain rfl := h.second.walk_unique hpdpt u hu
  exact h.third.walk_unique hu t ht

theorem far (h : Made s s₁ s₂ s₃ v pdpt pd pt place place₁ place₂ place₃) (hw : index 39 w ≠ index 39 v) :
    s₃.vmmGetPhysical w = s.vmmGetPhysical w := by
  have h₁ := (h.first.unseen h.ready h.ready.placed.root_eq (w := w) (by simp) (by simpa [pdPath] using hw) (by simp)
    (by simp)).2
  have h₂ := (h.second.unseen h.first.ready h.first.place_self (w := w) (by simp) (by simp [hw]) (by simp [Ne.symm hw])
    (by simp)).2
  have h₃ := (h.third.unseen h.second.ready h.second.place_self (w := w) (by simp) (by simp [hw]) (by simp)
    (by simp [Ne.symm hw])).2
  exact h₃.trans (h₂.trans h₁)

theorem far_of_pd (h : Made s s₁ s₂ s₃ v pdpt pd pt place place₁ place₂ place₃) (hpd : s.walk (pdPath v) ≠ none)
    (hw : pdPath w ≠ pdPath v) : s₃.vmmGetPhysical w = s.vmmGetPhysical w := by
  obtain ⟨t, ht⟩ := Option.ne_none_iff_exists'.mp hpd
  obtain ⟨rfl, rfl⟩ := h.of_pd ht
  exact (h.third.unseen h.second.ready h.second.place_self (w := w) (by simp)
    (by simpa [ptPath, pdPath] using fun _ h30 h39 => hw (by rw [pdPath, pdPath, h30, h39])) (by simp)
    (by rintro ⟨heq, -⟩; exact hw heq.symm)).2

end Made

theorem source_gigabyte {s : Vmm} {v : UInt64} {e : PageEntry} :
    s.source v = some (.gigabyte e) ↔ ∃ pdpt, s.walk (pdptPath v) = some pdpt ∧
      (s.mem pdpt (index 39 v)).huge = true ∧ s.mem pdpt (index 39 v) = e := by
  unfold source
  rcases h3 : s.walk (pdptPath v) with _ | pdpt
  · simp
  rcases hg : (s.mem pdpt (index 39 v)).huge with _ | _
  · rcases h2 : s.walk (pdPath v) with _ | pd
    · simp [hg]
    · rcases hm : (s.mem pd (index 30 v)).huge with _ | _ <;> simp [hg, hm]
  · simp [hg]

theorem source_megabytes {s : Vmm} {v : UInt64} {e : PageEntry} :
    s.source v = some (.megabytes e) ↔ ∃ pdpt pd, s.walk (pdptPath v) = some pdpt ∧
      (s.mem pdpt (index 39 v)).huge = false ∧ s.walk (pdPath v) = some pd ∧
      (s.mem pd (index 30 v)).huge = true ∧ s.mem pd (index 30 v) = e := by
  unfold source
  rcases h3 : s.walk (pdptPath v) with _ | pdpt
  · simp
  rcases hg : (s.mem pdpt (index 39 v)).huge with _ | _
  · rcases h2 : s.walk (pdPath v) with _ | pd
    · simp [hg]
    · rcases hm : (s.mem pd (index 30 v)).huge with _ | _ <;> simp [hg, hm]
  · simp [hg]

namespace Made

variable {s s₁ s₂ s₃ : Vmm} {v : UInt64} {pdpt pd pt : Nat}
  {place place₁ place₂ place₃ : Nat → Option (List (Fin 512))}

theorem gigabyte (h : Made s s₁ s₂ s₃ v pdpt pd pt place place₁ place₂ place₃) {e : PageEntry}
    (hsource : s.source v = some (.gigabyte e)) :
    ∃ e', e' = (if index 30 v = index 39 v then e.link (s.supply.headD 0) else e) ∧
      ∀ w, index 39 w = index 39 v → s.source w = some (.gigabyte e) ∧ s₃.source w = some (.gigabyte e') := by
  obtain ⟨t, hwalk, hhuge, rfl⟩ := source_gigabyte.mp hsource
  obtain ⟨rfl, rfl⟩ := h.of_pdpt hwalk
  have hpd_ne : pdpt ≠ pd := by
    rintro rfl
    have hplace := h.second.place_of _ _ h.first.place_self
    rw [h.second.place_self] at hplace
    simp at hplace
  have hthird : s₃.mem pdpt (index 39 v) = s₂.mem pdpt (index 39 v) :=
    h.third.kept _ _ (by rw [h.second.place_of _ _ h.first.place_self]; simp) (Or.inl fun hne => hpd_ne hne.1)
  have hwritten : s₃.mem pdpt (index 39 v) =
      if index 30 v = index 39 v then (s₁.mem pdpt (index 39 v)).link (s₁.supply.headD 0)
      else s₁.mem pdpt (index 39 v) := by
    rw [hthird]
    split
    · rename_i hsame
      rw [← hsame] at hhuge ⊢
      rcases entry_of_get (by omega) h.getPd hpd_ne with ⟨u, hchild, -⟩ | hlink
      · rw [child_of_huge (by omega) hhuge] at hchild
        cases hchild
      · exact hlink
    · rename_i hne
      exact h.second.kept _ _ (by rw [h.first.place_self]; simp) (Or.inl fun hsame => hne hsame.2.symm)
  refine ⟨s₃.mem pdpt (index 39 v), hwritten, fun w hw => ⟨?_, ?_⟩⟩
  · exact source_gigabyte.mpr ⟨pdpt, by rw [pdptPath, hw]; exact hwalk, by rw [hw]; exact hhuge, by rw [hw]⟩
  · have hwalk₃ : s₃.walk (pdptPath v) = some pdpt := by
      rw [h.third.walk_ne _ (by simp), h.second.walk_ne _ (by simp)]
      exact hwalk
    refine source_gigabyte.mpr ⟨pdpt, by rw [pdptPath, hw]; exact hwalk₃, ?_, by rw [hw]⟩
    rw [hw, h.third.huge, h.second.huge]
    exact hhuge

theorem megabytes (h : Made s s₁ s₂ s₃ v pdpt pd pt place place₁ place₂ place₃) {e : PageEntry}
    (hsource : s.source v = some (.megabytes e)) :
    ∃ e', e' = (if index 21 v = index 30 v then e.link (s.supply.headD 0) else e) ∧
      ∀ w, pdPath w = pdPath v → s.source w = some (.megabytes e) ∧ s₃.source w = some (.megabytes e') := by
  obtain ⟨t, u, hwalk3, hsmall, hwalk2, hhuge, rfl⟩ := source_megabytes.mp hsource
  obtain ⟨rfl, rfl⟩ := h.of_pdpt hwalk3
  obtain ⟨rfl, rfl⟩ := h.of_pd hwalk2
  have hplace_pd := h.second.place_self
  have hpt_ne : pd ≠ pt := by
    rintro rfl
    have hplace := h.third.place_of _ _ hplace_pd
    rw [h.third.place_self] at hplace
    simp at hplace
  have hwritten : s₃.mem pd (index 30 v) =
      if index 21 v = index 30 v then (s₂.mem pd (index 30 v)).link (s₂.supply.headD 0)
      else s₂.mem pd (index 30 v) := by
    split
    · rename_i hsame
      rw [← hsame] at hhuge ⊢
      rcases entry_of_get (by omega) h.getPt hpt_ne with ⟨u, hchild, -⟩ | hlink
      · rw [child_of_huge (by omega) hhuge] at hchild
        cases hchild
      · exact hlink
    · rename_i hne
      exact h.third.kept _ _ (by rw [hplace_pd]; simp) (Or.inl fun hsame => hne hsame.2.symm)
  refine ⟨s₃.mem pd (index 30 v), hwritten, fun w hw => ?_⟩
  obtain ⟨h30, h39⟩ : index 30 w = index 30 v ∧ index 39 w = index 39 v := by simpa using hw
  refine ⟨source_megabytes.mpr ⟨pdpt, pd, ?_, ?_, ?_, ?_, ?_⟩, source_megabytes.mpr ⟨pdpt, pd, ?_, ?_, ?_, ?_, ?_⟩⟩
  · rw [pdptPath, h39]
    exact hwalk3
  · rw [h39]
    exact hsmall
  · rw [hw]
    exact hwalk2
  · rw [h30]
    exact hhuge
  · rw [h30]
  · rw [pdptPath, h39, h.third.walk_ne _ (by simp)]
    exact hwalk3
  · rw [h39, h.third.huge]
    exact hsmall
  · rw [hw, h.third.walk_ne _ (by simp)]
    exact hwalk2
  · rw [h30, h.third.huge]
    exact hhuge
  · rw [h30]

end Made

/-! ## What a call does to the translations -/

/-- The page of `v` is translated to the page at `target`. -/
def Translates (s : Vmm) (v : UInt64) (target : Nat) : Prop :=
  ∀ w, pageOf w = pageOf v → s.vmmGetPhysical w = target + w.toNat % 4096

/-- **The address has a source that agrees with the page asked for**: its page table, which holds 40 bits, or an entry
that is marked huge where the query looks, gives that page already and keeps its frame when it is made to lead to a
table. -/
def Agrees (s : Vmm) (v : UInt64) (target : Nat) : Prop :=
  ∃ src, s.source v = some src ∧
    match src with
    | .gigabyte e => e.address ||| v.toNat % 2 ^ 30 = target ∧
        (index 30 v = index 39 v → (e.link (s.supply.headD 0)).address = e.address)
    | .megabytes e => e.address ||| v.toNat % 2 ^ 21 = target ∧
        (index 21 v = index 30 v → (e.link (s.supply.headD 0)).address = e.address)
    | .page _ => target < 2 ^ 40

theorem or_add_offset {a b o : Nat} (ha : a % 4096 = 0) (hb : b % 4096 = 0) (ho : o < 4096) :
    a ||| (b + o) = (a ||| b) + o := by
  have hsum : ∀ {x : Nat}, x % 4096 = 0 → x + o = x ||| o := by
    intro x hx
    have hor := Nat.two_pow_add_eq_or_of_lt (show o < 2 ^ 12 from ho) (x / 2 ^ 12)
    rwa [show 2 ^ 12 * (x / 2 ^ 12) = x by omega] at hor
  have hmod : (a ||| b) % 4096 = 0 := by
    rw [show 4096 = 2 ^ 12 from rfl, Nat.or_mod_two_pow, show a % 2 ^ 12 = 0 from ha, show b % 2 ^ 12 = 0 from hb]
    rfl
  rw [hsum hb, hsum hmod, Nat.or_assoc]

theorem address_mod (e : PageEntry) : e.address % 4096 = 0 := by
  unfold PageEntry.address pageSize
  omega

theorem getPhysical_gigabyte {s : Vmm} {w : UInt64} {e : PageEntry} (h : s.source w = some (.gigabyte e)) :
    s.vmmGetPhysical w = e.address ||| w.toNat % 2 ^ 30 := by
  rw [vmmGetPhysical_eq, h]
  simp only [Option.map_some, Option.getD_some, physicalFrom]

theorem getPhysical_megabytes {s : Vmm} {w : UInt64} {e : PageEntry} (h : s.source w = some (.megabytes e)) :
    s.vmmGetPhysical w = e.address ||| w.toNat % 2 ^ 21 := by
  rw [vmmGetPhysical_eq, h]
  simp only [Option.map_some, Option.getD_some, physicalFrom]

theorem exists_beside (v : UInt64) {A B : Nat} (hAB : A = 2 ^ 21 ∧ B = 2 ^ 12 ∨ A = 2 ^ 30 ∧ B = 2 ^ 21 ∨
    A = 2 ^ 39 ∧ B = 2 ^ 30) (a b : Nat) :
    ∃ w : UInt64, w.toNat / A = v.toNat / A ∧ w.toNat % B = 1 ∧ pageOf w ≠ a ∧ pageOf w ≠ b := by
  have hlt := v.toNat_lt
  by_contra hnone
  have hall : ∀ i < 3, (v.toNat / A * A + i * B + 1) / 4096 % 2 ^ 36 = a ∨
      (v.toNat / A * A + i * B + 1) / 4096 % 2 ^ 36 = b := by
    intro i hi
    have hnat : (UInt64.ofNat (v.toNat / A * A + i * B + 1)).toNat = v.toNat / A * A + i * B + 1 := by
      refine UInt64.toNat_ofNat_of_lt' (show _ < 2 ^ 64 from ?_)
      obtain ⟨rfl, rfl⟩ | ⟨rfl, rfl⟩ | ⟨rfl, rfl⟩ := hAB <;> omega
    by_contra hboth
    obtain ⟨ha, hb⟩ := not_or.mp hboth
    refine hnone ⟨UInt64.ofNat (v.toNat / A * A + i * B + 1), ?_, ?_, ?_, ?_⟩
    · rw [hnat]
      obtain ⟨rfl, rfl⟩ | ⟨rfl, rfl⟩ | ⟨rfl, rfl⟩ := hAB <;> omega
    · rw [hnat]
      obtain ⟨rfl, rfl⟩ | ⟨rfl, rfl⟩ | ⟨rfl, rfl⟩ := hAB <;> omega
    · unfold pageOf pageSize
      rw [hnat]
      exact ha
    · unfold pageOf pageSize
      rw [hnat]
      exact hb
  -- three pages, and two names for them
  have h0 := hall 0 (by omega)
  have h1 := hall 1 (by omega)
  have h2 := hall 2 (by omega)
  obtain ⟨rfl, rfl⟩ | ⟨rfl, rfl⟩ | ⟨rfl, rfl⟩ := hAB <;> omega

theorem or_one_inj {a b : Nat} (ha : a % 4096 = 0) (hb : b % 4096 = 0) (h : a ||| 1 = b ||| 1) : a = b := by
  have hone : ∀ {x : Nat}, x % 4096 = 0 → x ||| 1 = x + 1 := by
    intro x hx
    have hor := or_add_offset (o := 1) hx (Nat.zero_mod 4096) (by omega)
    rwa [Nat.zero_add, Nat.or_zero] at hor
  rw [hone ha, hone hb] at h
  omega

theorem exists_odd (v : UInt64) : ∃ w : UInt64, pageOf w = pageOf v ∧ w.toNat % 4096 = 1 := by
  have hlt := v.toNat_lt
  have hnat : (UInt64.ofNat (v.toNat / 4096 * 4096 + 1)).toNat = v.toNat / 4096 * 4096 + 1 :=
    UInt64.toNat_ofNat_of_lt' (show _ < 2 ^ 64 by omega)
  refine ⟨UInt64.ofNat (v.toNat / 4096 * 4096 + 1), ?_, ?_⟩
  · unfold pageOf pageSize
    rw [hnat]
    omega
  · rw [hnat]
    omega

theorem offset_of_page {v w : UInt64} (hv : v.toNat % 4096 = 0) (hw : pageOf w = pageOf v) :
    w.toNat % 2 ^ 30 = v.toNat % 2 ^ 30 + w.toNat % 4096 ∧ w.toNat % 2 ^ 21 = v.toNat % 2 ^ 21 + w.toNat % 4096 := by
  unfold pageOf pageSize at hw
  omega

section

variable {s : Vmm} {place : Nat → Option (List (Fin 512))} {v p flags : UInt64} {target : Nat}

theorem getPhysical_mapped {s₁ s₂ s₃ : Vmm} {pdpt pd pt : Nat} {place₁ place₂ place₃ : Nat → Option (List (Fin 512))}
    (h : Made s s₁ s₂ s₃ v pdpt pd pt place place₁ place₂ place₃) (e : PageEntry) {w : UInt64} {src : Source}
    (hw : pageOf w = pageOf v) (hsrc : s₃.source v = some src) :
    (s₃.setEntry pt (index 12 v) e).vmmGetPhysical w = match src with
      | .gigabyte e' => e'.address ||| w.toNat % 2 ^ 30
      | .megabytes e' => e'.address ||| w.toNat % 2 ^ 21
      | .page _ => e.address ||| w.toNat % 2 ^ 12 := by
  obtain ⟨hpath, hindex⟩ := pageOf_eq_iff.mp hw
  have hsource : (s₃.setEntry pt (index 12 v) e).source w = some src := by
    rw [source_setEntry h.third.ready h.third.place_self, source_congr hpath, hsrc]
  rw [vmmGetPhysical_eq, hsource]
  cases src with
  | gigabyte e' => simp only [Option.map_some, Option.getD_some, physicalFrom]
  | megabytes e' => simp only [Option.map_some, Option.getD_some, physicalFrom]
  | page u =>
    have hu : u = pt := h.walk_pt (walk_of_source_page hsrc)
    simp only [Option.map_some, Option.getD_some, physicalFrom]
    rw [hu, hindex, setEntry_mem_self]

theorem address_mapEntry_target (e : PageEntry) (hp : p.toNat = target % 2 ^ 64) (ht : target % 4096 = 0) :
    (mapEntry e p flags).address = target % 2 ^ 40 := by
  show p.toNat / 4096 % 2 ^ 36 * 4096 % 2 ^ 40 = _
  omega

theorem mapped_of_agrees (h : Ready s place) (hmap : (s.vmmMapPage v p flags).1 = 0) (hv : v.toNat % 4096 = 0)
    (hp : p.toNat = target % 2 ^ 64) (ht : target % 4096 = 0) (hagree : s.Agrees v target) :
    (s.vmmMapPage v p flags).2.Translates v target ∧
      ∀ w, pageOf w ≠ pageOf v → (s.vmmMapPage v p flags).2.vmmGetPhysical w = s.vmmGetPhysical w := by
  obtain ⟨s₁, s₂, s₃, pdpt, pd, pt, place₁, place₂, place₃, hmade, heq⟩ := made_of_map h hmap
  rw [heq]
  have hothers : ∀ w, pageOf w ≠ pageOf v →
      (s₃.setEntry pt (index 12 v) (mapEntry (s₃.mem pt (index 12 v)) p flags)).vmmGetPhysical w =
        s₃.vmmGetPhysical w := fun w hw => (other_setEntry hmade.third.ready hmade.third.place_self hw).1
  obtain ⟨src, hsrc, hcond⟩ := hagree
  cases src with
  | page u =>
    obtain ⟨rfl, rfl⟩ := hmade.of_pt (walk_of_source_page hsrc)
    refine ⟨fun w hw => ?_, hothers⟩
    rw [getPhysical_mapped hmade _ hw hsrc]
    dsimp only at hcond ⊢
    rw [address_mapEntry_target _ hp ht, Nat.mod_eq_of_lt hcond]
    have hor := or_add_offset (o := w.toNat % 4096) ht (Nat.zero_mod 4096) (Nat.mod_lt _ (by omega))
    rwa [Nat.zero_add, Nat.or_zero] at hor
  | gigabyte e =>
    obtain ⟨hvalue, hkeeps⟩ := hcond
    obtain ⟨e', he', hall⟩ := hmade.gigabyte hsrc
    have haddress : e'.address = e.address := by
      rw [he']
      split
      · rename_i hsame
        exact hkeeps hsame
      · rfl
    refine ⟨fun w hw => ?_, fun w hw => (hothers w hw).trans ?_⟩
    · rw [getPhysical_mapped hmade _ hw (hall v rfl).2]
      dsimp only
      rw [haddress, (offset_of_page hv hw).1, or_add_offset (address_mod e) (by omega) (Nat.mod_lt _ (by omega)),
        hvalue]
    · by_cases h39 : index 39 w = index 39 v
      · rw [getPhysical_gigabyte (hall w h39).1, getPhysical_gigabyte (hall w h39).2, haddress]
      · exact hmade.far h39
  | megabytes e =>
    obtain ⟨hvalue, hkeeps⟩ := hcond
    obtain ⟨e', he', hall⟩ := hmade.megabytes hsrc
    have haddress : e'.address = e.address := by
      rw [he']
      split
      · rename_i hsame
        exact hkeeps hsame
      · rfl
    refine ⟨fun w hw => ?_, fun w hw => (hothers w hw).trans ?_⟩
    · rw [getPhysical_mapped hmade _ hw (hall v rfl).2]
      dsimp only
      rw [haddress, (offset_of_page hv hw).2, or_add_offset (address_mod e) (by omega) (Nat.mod_lt _ (by omega)),
        hvalue]
    · by_cases hpath : pdPath w = pdPath v
      · rw [getPhysical_megabytes (hall w hpath).1, getPhysical_megabytes (hall w hpath).2, haddress]
      · obtain ⟨-, u, -, -, hwalk, -⟩ := source_megabytes.mp hsrc
        exact hmade.far_of_pd (by rw [hwalk]; simp) hpath

theorem bad_of_not_agrees (h : Ready s place) (hmap : (s.vmmMapPage v p flags).1 = 0) (hv : v.toNat % 4096 = 0)
    (hp : p.toNat = target % 2 ^ 64) (ht : target % 4096 = 0) (hnot : ¬ s.Agrees v target) (x : Nat) :
    ¬ ((s.vmmMapPage v p flags).2.Translates v target ∧ ∀ w, pageOf w ≠ pageOf v → pageOf w ≠ x →
      (s.vmmMapPage v p flags).2.vmmGetPhysical w = s.vmmGetPhysical w) := by
  rintro ⟨hself, hkept⟩
  obtain ⟨s₁, s₂, s₃, pdpt, pd, pt, place₁, place₂, place₃, hmade, heq⟩ := made_of_map h hmap
  rw [heq] at hself hkept
  have hothers : ∀ w, pageOf w ≠ pageOf v → pageOf w ≠ x → s₃.vmmGetPhysical w = s.vmmGetPhysical w :=
    fun w hw hwx => (other_setEntry hmade.third.ready hmade.third.place_self hw).1.symm.trans (hkept w hw hwx)
  rcases hsrc : s.source v with _ | src
  · rcases hsrc₃ : s₃.source v with _ | src₃
    · -- the page has no translation
      obtain ⟨w, hw, hodd⟩ := exists_odd v
      have hvalue := hself w hw
      rw [vmmGetPhysical_eq, source_setEntry hmade.third.ready hmade.third.place_self,
        source_congr (pageOf_eq_iff.mp hw).1, hsrc₃] at hvalue
      have hzero : 0 = target + w.toNat % 4096 := hvalue
      omega
    · -- a neighbour gets one
      obtain ⟨w, h21, hodd, hwv, hwx⟩ := exists_beside v (.inl ⟨rfl, rfl⟩) (pageOf v) x
      have hpath : ptPath w = ptPath v := ptPath_eq_iff.mpr (by rw [h21])
      have hvalue := hothers w hwv hwx
      rw [vmmGetPhysical_eq, vmmGetPhysical_eq, source_congr hpath, source_congr hpath, hsrc, hsrc₃] at hvalue
      exact physicalFrom_odd _ (by omega) src₃ hvalue
  · cases src with
    | page u =>
      obtain ⟨rfl, rfl⟩ := hmade.of_pt (walk_of_source_page hsrc)
      have hvalue := hself v rfl
      rw [getPhysical_mapped hmade _ rfl hsrc] at hvalue
      dsimp only at hvalue
      rw [address_mapEntry_target _ hp ht, show v.toNat % 2 ^ 12 = 0 from hv, Nat.or_zero] at hvalue
      exact hnot ⟨_, hsrc, show target < 2 ^ 40 by omega⟩
    | gigabyte e =>
      obtain ⟨e', he', hall⟩ := hmade.gigabyte hsrc
      have haddress : e'.address = e.address := by
        obtain ⟨w, h39, hodd, hwv, hwx⟩ := exists_beside v (.inr (.inr ⟨rfl, rfl⟩)) (pageOf v) x
        have hindex : index 39 w = index 39 v := index_eq_iff.mpr (by rw [h39])
        have hvalue := hothers w hwv hwx
        rw [getPhysical_gigabyte (hall w hindex).1, getPhysical_gigabyte (hall w hindex).2, hodd] at hvalue
        exact or_one_inj (address_mod e') (address_mod e) hvalue
      have hvalue := hself v rfl
      rw [getPhysical_mapped hmade _ rfl (hall v rfl).2] at hvalue
      dsimp only at hvalue
      rw [haddress] at hvalue
      refine hnot ⟨_, hsrc, by omega, fun hsame => ?_⟩
      rw [he', if_pos hsame] at haddress
      exact haddress
    | megabytes e =>
      obtain ⟨e', he', hall⟩ := hmade.megabytes hsrc
      have haddress : e'.address = e.address := by
        obtain ⟨w, h30, hodd, hwv, hwx⟩ := exists_beside v (.inr (.inl ⟨rfl, rfl⟩)) (pageOf v) x
        have hpath : pdPath w = pdPath v := by
          simp only [pdPath, List.cons.injEq, index_eq_iff, and_true]
          omega
        have hvalue := hothers w hwv hwx
        rw [getPhysical_megabytes (hall w hpath).1, getPhysical_megabytes (hall w hpath).2, hodd] at hvalue
        exact or_one_inj (address_mod e') (address_mod e) hvalue
      have hvalue := hself v rfl
      rw [getPhysical_mapped hmade _ rfl (hall v rfl).2] at hvalue
      dsimp only at hvalue
      rw [haddress] at hvalue
      refine hnot ⟨_, hsrc, by omega, fun hsame => ?_⟩
      rw [he', if_pos hsame] at haddress
      exact haddress

end

end Chicago95.Stage2.Vmm
