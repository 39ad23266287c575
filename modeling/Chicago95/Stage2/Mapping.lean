/-
# Chicago95.Stage2.Mapping — what `vmm_map_page` and `vmm_unmap_page` do to translations.

The two functions change one entry of a page table; before that, `vmm_map_page` makes the tables on the
way to it (`Climbs`). What other addresses see of it is decided by their `source`, the entry that
`vmm_get_physical` takes the frame from.
-/
import Chicago95.Stage2.Vmm

namespace Chicago95.Stage2.Vmm

open Chicago95.Lib.Radix

/-! ## Pages and paths -/

/-- The page of an address, of which the tables read 48 bits. -/
def pageOf (v : UInt64) : Nat := v.toNat / pageSize % 2 ^ 36

theorem index_eq_iff {shift : Nat} {v w : UInt64} :
    index shift v = index shift w ↔ v.toNat / 2 ^ shift % 512 = w.toNat / 2 ^ shift % 512 := by
  simp only [index, Fin.ofNat, Fin.mk.injEq]

theorem ptPath_eq_iff {v w : UInt64} : ptPath v = ptPath w ↔ v.toNat / 2 ^ 21 % 2 ^ 27 = w.toNat / 2 ^ 21 % 2 ^ 27 := by
  simp only [ptPath, List.cons.injEq, index_eq_iff, and_true]
  omega

theorem pageOf_eq_iff {v w : UInt64} : pageOf v = pageOf w ↔ ptPath v = ptPath w ∧ index 12 v = index 12 w := by
  rw [ptPath_eq_iff, index_eq_iff]
  simp only [pageOf, pageSize]
  omega

theorem paths_of_ptPath {v w : UInt64} (h : ptPath v = ptPath w) :
    index 39 v = index 39 w ∧ index 30 v = index 30 w ∧ index 21 v = index 21 w := by
  simp only [ptPath, List.cons.injEq, and_true] at h
  exact ⟨h.2.2, h.2.1, h.1⟩

theorem source_congr {s : Vmm} {v w : UInt64} (h : ptPath v = ptPath w) : s.source v = s.source w := by
  obtain ⟨h39, h30, h21⟩ := paths_of_ptPath h
  unfold source
  simp only [pdptPath, pdPath, ptPath, h39, h30, h21]

theorem source_ne_none {s : Vmm} {v : UInt64} (h : s.walk (ptPath v) ≠ none) : s.source v ≠ none := by
  unfold source
  rcases h3 : s.walk (pdptPath v) with _ | pdpt
  · exact absurd (walk_pt_of_none (walk_pd_of_none h3)) h
  · rcases hg : (s.mem pdpt (index 39 v)).huge with _ | _
    · rcases h2 : s.walk (pdPath v) with _ | pd
      · exact absurd (walk_pt_of_none h2) h
      · rcases hm : (s.mem pd (index 30 v)).huge with _ | _
        · obtain ⟨pt, hpt⟩ := Option.ne_none_iff_exists'.mp h
          simp [hg, hm, hpt]
        · simp [hg, hm]
    · simp [hg]

theorem walk_of_source_page {s : Vmm} {v : UInt64} {pt : Nat} (h : s.source v = some (.page pt)) :
    s.walk (ptPath v) = some pt := by
  unfold source at h
  rcases h3 : s.walk (pdptPath v) with _ | pdpt
  · simp [h3] at h
  · rcases hg : (s.mem pdpt (index 39 v)).huge with _ | _
    · rcases h2 : s.walk (pdPath v) with _ | pd
      · simp [h3, hg, h2] at h
      · rcases hm : (s.mem pd (index 30 v)).huge with _ | _
        · simpa [h3, hg, h2, hm] using h
        · simp [h3, hg, h2, hm] at h
    · simp [h3, hg] at h

/-! ## A write to a page table -/

section Leaf

variable {s : Vmm} {place : Nat → Option (List (Fin 512))} {pt : Nat} {v w : UInt64} {e : PageEntry}

theorem walk_setEntry (h : Ready s place) {i : Fin 512} {p q : List (Fin 512)}
    (hpt : place pt = some p) (hp : p.length = 3) (hq : q.length ≤ 3) : (s.setEntry pt i e).walk q = s.walk q := by
  refine h.placed.walk_congr fun u r j hu hr => ?_
  have hne : u ≠ pt := by
    rintro rfl
    obtain rfl := Option.some.inj (hpt.symm.trans hu)
    have := hr.length_le
    simp only [List.length_cons] at this
    omega
  simp [setEntry, Function.update_of_ne hne]

theorem Ready.place_of_walk (h : Ready s place) {p : List (Fin 512)} {t : Nat} (hw : s.walk p = some t) :
    place t = some p := h.placed.place_of_walk hw

theorem setEntry_mem_of_ne {t u : Nat} {i j : Fin 512} (h : ¬(u = t ∧ j = i)) :
    (s.setEntry t i e).mem u j = s.mem u j := by
  by_cases hu : u = t
  · subst hu
    have hj : j ≠ i := fun hj => h ⟨rfl, hj⟩
    simp [setEntry, Function.update_of_ne hj]
  · simp [setEntry, Function.update_of_ne hu]

@[simp] theorem setEntry_mem_self (s : Vmm) (t : Nat) (i : Fin 512) (e : PageEntry) :
    (s.setEntry t i e).mem t i = e := by
  simp [setEntry]

theorem source_setEntry (h : Ready s place) (hpt : place pt = some (ptPath v)) (w : UInt64) :
    (s.setEntry pt (index 12 v) e).source w = s.source w := by
  have hwalk : ∀ q : List (Fin 512), q.length ≤ 3 →
      (s.setEntry pt (index 12 v) e).walk q = s.walk q := fun q hq => walk_setEntry h hpt rfl hq
  have hshort : ∀ {u : Nat} {q : List (Fin 512)}, s.walk q = some u → q.length ≤ 2 → ∀ j,
      (s.setEntry pt (index 12 v) e).mem u j = s.mem u j := by
    intro u q hu hq j
    refine setEntry_mem_of_ne ?_
    rintro ⟨rfl, -⟩
    have := Option.some.inj ((h.place_of_walk hu).symm.trans hpt)
    rw [this] at hq
    exact absurd hq (by simp)
  unfold source
  rw [hwalk _ (by simp), hwalk (pdPath w) (by simp), hwalk (ptPath w) (by simp)]
  rcases h3 : s.walk (pdptPath w) with _ | pdpt
  · rfl
  · simp only [hshort h3 (by simp)]
    rcases h2 : s.walk (pdPath w) with _ | pd
    · rfl
    · simp only [hshort h2 (by simp)]

theorem other_setEntry (h : Ready s place) (hpt : place pt = some (ptPath v)) (hw : pageOf w ≠ pageOf v) :
    (s.setEntry pt (index 12 v) e).vmmGetPhysical w = s.vmmGetPhysical w ∧
      (s.setEntry pt (index 12 v) e).vmmIsMapped w = s.vmmIsMapped w := by
  have hentry : ∀ u, s.walk (ptPath w) = some u →
      (s.setEntry pt (index 12 v) e).mem u (index 12 w) = s.mem u (index 12 w) := by
    intro u hu
    refine setEntry_mem_of_ne ?_
    rintro ⟨rfl, hi⟩
    exact hw (pageOf_eq_iff.mpr
      ⟨Option.some.inj ((h.place_of_walk hu).symm.trans hpt), hi⟩)
  refine ⟨?_, ?_⟩
  · rw [vmmGetPhysical_eq, vmmGetPhysical_eq, source_setEntry h hpt]
    rcases hsource : s.source w with _ | src
    · simp only [Option.map_none]
    · cases src with
      | gigabyte _ => simp only [Option.map_some, Option.getD_some, physicalFrom]
      | megabytes _ => simp only [Option.map_some, Option.getD_some, physicalFrom]
      | page u =>
        simp only [Option.map_some, Option.getD_some, physicalFrom,
          hentry u (walk_of_source_page hsource)]
  · rw [vmmIsMapped_eq, vmmIsMapped_eq, walk_setEntry h hpt rfl (by simp)]
    rcases hwalk : s.walk (ptPath w) with _ | u
    · rfl
    · simp only [Option.map_some, Option.getD_some, hentry u hwalk]

theorem vmmIsMapped_setEntry (h : Ready s place) (hpt : s.walk (ptPath v) = some pt) :
    (s.setEntry pt (index 12 v) e).vmmIsMapped v = e.present := by
  rw [vmmIsMapped_eq, walk_setEntry h (h.place_of_walk hpt) rfl (by simp), hpt]
  simp

end Leaf

/-! ## Unmapping -/

/-- After `vmm_unmap_page` the address is unmapped and the others keep their translation. -/
def UnmapSound (s : Vmm) (v : UInt64) : Prop :=
  (s.vmmUnmapPage v).2.vmmIsMapped v = false ∧
    ∀ w, pageOf w ≠ pageOf v →
      (s.vmmUnmapPage v).2.vmmGetPhysical w = s.vmmGetPhysical w ∧
        (s.vmmUnmapPage v).2.vmmIsMapped w = s.vmmIsMapped w

theorem unmapSound_of_ready {s : Vmm} {place : Nat → Option (List (Fin 512))} (h : Ready s place)
    (v : UInt64) : s.UnmapSound v := by
  unfold UnmapSound
  rw [vmmUnmapPage_eq]
  rcases hpt : s.walk (ptPath v) with _ | pt
  · refine ⟨?_, fun _ _ => ⟨rfl, rfl⟩⟩
    rw [vmmIsMapped_eq, hpt]
    rfl
  · exact ⟨vmmIsMapped_setEntry h hpt, fun w hw => other_setEntry h (h.place_of_walk hpt) hw⟩

/-! ## Unmapped addresses -/

/-- `vmm_get_physical` of an unmapped address is 0. -/
def UnmappedZero (s : Vmm) : Prop := ∀ w, s.vmmIsMapped w = false → s.vmmGetPhysical w = 0

theorem unmappedZero_iff (s : Vmm) : s.UnmappedZero ↔ ∀ w, s.vmmIsMapped w = false → s.source w = none := by
  refine ⟨fun h w hw => ?_, fun h w hw => by rw [vmmGetPhysical_eq, h w hw]; rfl⟩
  -- The odd address after the first of the page has the same source.
  have hlt : w.toNat / 4096 * 4096 + 1 < 2 ^ 64 := by
    have := w.toNat_lt
    omega
  have hodd : (UInt64.ofNat (w.toNat / 4096 * 4096 + 1)).toNat = w.toNat / 4096 * 4096 + 1 :=
    UInt64.toNat_ofNat_of_lt' hlt
  have hpage : pageOf (UInt64.ofNat (w.toNat / 4096 * 4096 + 1)) = pageOf w := by
    unfold pageOf pageSize
    rw [hodd]
    omega
  obtain ⟨hpath, hindex⟩ := pageOf_eq_iff.mp hpage
  have hmapped := h (UInt64.ofNat (w.toNat / 4096 * 4096 + 1)) (by
    rw [vmmIsMapped_eq, hpath, hindex, ← vmmIsMapped_eq]
    exact hw)
  rw [vmmGetPhysical_eq, source_congr hpath] at hmapped
  rcases hsource : s.source w with _ | src
  · rfl
  · rw [hsource] at hmapped
    exact absurd hmapped (physicalFrom_odd s (by omega) src)

/-! ## The tables on the way -/

theorem Obtains.mono {s s' : Vmm} {place place' : Nat → Option (List (Fin 512))} {t n : Nat}
    {i : Fin 512} {p : List (Fin 512)} (h : Obtains s s' place place' t n i p)
    (hwalk : ∀ u, s.walk p = some u → u = t) {q : List (Fin 512)} {u : Nat}
    (hq : s.walk q = some u) : s'.walk q = some u := by
  by_cases hself : q = i :: p
  · subst hself
    rcases hp : s.walk p with _ | t'
    · rw [walk_cons_of_none hp] at hq
      cases hq
    · obtain rfl := hwalk t' hp
      rw [(h.same u hp hq).1]
      exact hq
  · rw [h.walk_ne q hself]
    exact hq

/-- **The three tables of an address are there**, made where they were missing. -/
structure Climbs (s s' : Vmm) (place : Nat → Option (List (Fin 512))) (v : UInt64)
    (pdpt pd pt : Nat) : Prop where
  ready : ∃ place', Ready s' place' ∧ place' pt = some (ptPath v)
  huge : ∀ u j, (s'.mem u j).huge = (s.mem u j).huge
  kept : ∀ u r j, place u = some r → ¬ j :: r <:+ ptPath v → s'.mem u j = s.mem u j
  mono : ∀ q u, s.walk q = some u → s'.walk q = some u
  walk_ne : ∀ q, q ≠ pdptPath v → q ≠ pdPath v → q ≠ ptPath v → s'.walk q = s.walk q
  walk_pdpt : s'.walk (pdptPath v) = some pdpt
  walk_pd : s'.walk (pdPath v) = if (s.mem pdpt (index 30 v)).huge = true then none else some pd
  walk_pt : s'.walk (ptPath v) = if (s.mem pdpt (index 30 v)).huge = true ∨
    (s.mem pd (index 21 v)).huge = true then none else some pt
  same : ∀ u, s.walk (ptPath v) = some u → s' = s
  empty : s.walk (ptPath v) = none → s'.walk (ptPath v) = some pt → ∀ j, (s'.mem pt j).present = false
  /-- The PD of a PDPT that there was. -/
  pd_eq : s.walk (pdptPath v) = some pdpt → pd = (child 1 (s.mem pdpt (index 30 v))).getD (s.supply.headD 0)

theorem climbs_of_obtains {s s₁ s₂ s₃ : Vmm} {place place₁ place₂ place₃ : Nat → Option (List (Fin 512))}
    {v : UInt64} {pdpt pd pt : Nat} (h : Ready s place) (h₁ : Obtains s s₁ place place₁ vmmPml4 pdpt (index 39 v) [])
    (h₂ : Obtains s₁ s₂ place₁ place₂ pdpt pd (index 30 v) (pdptPath v))
    (h₃ : Obtains s₂ s₃ place₂ place₃ pd pt (index 21 v) (pdPath v)) : Climbs s s₃ place v pdpt pd pt := by
  have hroot : s.walk [] = some vmmPml4 := rfl
  have hwalk₁ : s₁.walk (pdptPath v) = some pdpt := by simpa using h₁.walk_self hroot
  have hwalk₂ : s₂.walk (pdPath v) =
      if (s.mem pdpt (index 30 v)).huge = true then none else some pd := by
    rw [h₂.walk_self hwalk₁, h₁.huge]
    simp
  have hpd_of : ∀ u, s₂.walk (pdPath v) = some u → u = pd := h₂.walk_unique hwalk₁
  have hmono₁ : ∀ q u, s.walk q = some u → s₁.walk q = some u := fun _ _ hq => h₁.mono (walk_unique hroot) hq
  have hmono₂ : ∀ q u, s₁.walk q = some u → s₂.walk q = some u := fun _ _ hq => h₂.mono (walk_unique hwalk₁) hq
  have hmono₃ : ∀ q u, s₂.walk q = some u → s₃.walk q = some u := fun _ _ hq => h₃.mono hpd_of hq
  have hplaced₂ : ∀ u r, place u = some r → place₂ u = some r :=
    fun u r hu => h₂.place_of u r (h₁.place_of u r hu)
  refine ⟨⟨place₃, h₃.ready, h₃.place_self⟩, ?_, ?_, ?_, ?_, ?_, ?_, ?_, ?_, ?_, ?_⟩
  · intro u j
    rw [h₃.huge, h₂.huge, h₁.huge]
  · intro u r j hu hpath
    -- none of the three entries that are written
    have hne : ∀ {t i p} {pl : Nat → Option (List (Fin 512))}, pl t = some p → pl u = some r →
        i :: p <:+ ptPath v → ¬(u = t ∧ j = i) := by
      rintro t i p pl ht hu' hsuffix ⟨rfl, rfl⟩
      obtain rfl := Option.some.inj (ht.symm.trans hu')
      exact hpath hsuffix
    have hu₁ := h₁.place_of u r hu
    have hu₂ := hplaced₂ u r hu
    rw [h₃.kept u j (by simp [hu₂]) (Or.inl (hne h₂.place_self hu₂ (List.suffix_refl _))),
      h₂.kept u j (by simp [hu₁]) (Or.inl (hne h₁.place_self hu₁ (List.suffix_cons _ _))),
      h₁.kept u j (by simp [hu]) (Or.inl (hne h.placed.root_eq hu ⟨[_, _], rfl⟩))]
  · exact fun q u hq => hmono₃ q u (hmono₂ q u (hmono₁ q u hq))
  · intro q h39 h30 h21
    rw [h₃.walk_ne q h21, h₂.walk_ne q h30, h₁.walk_ne q h39]
  · exact hmono₃ _ _ (hmono₂ _ _ hwalk₁)
  · rw [h₃.walk_ne _ (by simp [pdPath]), hwalk₂]
  · rcases hg : (s.mem pdpt (index 30 v)).huge with _ | _
    · rw [h₃.walk_self (by rw [hwalk₂, hg]; rfl), h₂.huge, h₁.huge]
      simp
    · have : s₃.walk (pdPath v) = none := by
        rw [h₃.walk_ne _ (by simp [pdPath]), hwalk₂, hg]
        rfl
      rw [walk_pt_of_none this]
      simp
  · intro u hu
    -- the whole path was there, so that nothing was made
    obtain ⟨pd', hpd', -⟩ := of_walk_cons hu
    obtain ⟨pdpt', hpdpt', -⟩ := of_walk_cons hpd'
    obtain ⟨rfl, rfl⟩ := h₁.same pdpt' hroot hpdpt'
    obtain ⟨rfl, rfl⟩ := h₂.same pd' hwalk₁ hpd'
    exact (h₃.same u hpd' hu).1
  · intro hnone hsome
    have hpd : s₂.walk (pdPath v) = some pd := by
      rcases hpd : s₂.walk (pdPath v) with _ | pd'
      · rw [← h₃.walk_ne _ (by simp [pdPath])] at hpd
        rw [walk_pt_of_none hpd] at hsome
        cases hsome
      · rw [hpd_of pd' hpd]
    refine h₃.empty hpd ?_
    rw [h₂.walk_ne _ (by simp [pdPath]), h₁.walk_ne _ (by simp)]
    exact hnone
  · intro hpdpt
    obtain ⟨rfl, -⟩ := h₁.same pdpt hroot hpdpt
    exact h₂.named

/-- The entry that `vmm_map_page` writes. -/
def mapEntry (e : PageEntry) (physical flags : UInt64) : PageEntry :=
  { e with
    present := flags &&& pageFlagPresent != 0
    rw := flags &&& pageFlagRw != 0
    user := flags &&& pageFlagUser != 0
    writeThr := flags &&& pageFlagWriteThr != 0
    cacheDis := flags &&& pageFlagCacheDis != 0
    global := flags &&& pageFlagGlobal != 0
    nx := flags &&& pageFlagNoExec != 0 }.setFrame physical.toNat

theorem climbs_of_map {s s' : Vmm} {place : Nat → Option (List (Fin 512))} {v p flags : UInt64}
    (h : Ready s place) (hmap : s.vmmMapPage v p flags = (0, s')) : ∃ s₃ pdpt pd pt, Climbs s s₃ place v pdpt pd pt ∧
      (s₃.mem pt (index 12 v)).present = false ∧
      s' = s₃.setEntry pt (index 12 v) (mapEntry (s₃.mem pt (index 12 v)) p flags) := by
  unfold vmmMapPage at hmap
  rcases hget₁ : s.vmmGetPdpt vmmPml4 v true with ⟨_ | pdpt, s₁⟩
  · simp [hget₁] at hmap
  have h₁ := obtains_of_getTable (p := []) h (by simp) h.placed.root_eq
    (walk_unique rfl) hget₁
  have hwalk₁ : s₁.walk (pdptPath v) = some pdpt := by simpa using h₁.walk_self rfl
  rcases hget₂ : s₁.vmmGetPd pdpt v true with ⟨_ | pd, s₂⟩
  · simp [hget₁, hget₂] at hmap
  have h₂ := obtains_of_getTable (p := pdptPath v) h₁.ready (by simp) h₁.place_self
    (walk_unique hwalk₁) hget₂
  have hpd_of : ∀ u, s₂.walk (pdPath v) = some u → u = pd := h₂.walk_unique hwalk₁
  rcases hget₃ : s₂.vmmGetPt pd v true with ⟨_ | pt, s₃⟩
  · simp [hget₁, hget₂, hget₃] at hmap
  have h₃ := obtains_of_getTable (p := pdPath v) h₂.ready (by simp) h₂.place_self hpd_of hget₃
  simp only [hget₁, hget₂, hget₃] at hmap
  split at hmap
  · simp at hmap
  · rename_i habsent
    exact ⟨s₃, pdpt, pd, pt, climbs_of_obtains h h₁ h₂ h₃, by simpa using habsent,
      (Prod.mk.inj hmap).2.symm⟩

/-! ## When a page is mapped soundly -/

/-- The PD that `vmm_map_page` goes through, with a new one for the next page there is. -/
def nextPd (s : Vmm) (pdpt : Nat) (v : UInt64) : Nat :=
  (child 1 (s.mem pdpt (index 30 v))).getD (s.supply.headD 0)

/-- The two entries on the way that may be made to lead to a new table are not marked huge. -/
def Linkable (s : Vmm) (v : UInt64) : Prop :=
  ∀ pdpt, s.walk (pdptPath v) = some pdpt →
    (s.mem pdpt (index 30 v)).huge = false ∧ (s.mem (s.nextPd pdpt v) (index 21 v)).huge = false

/-- The address has a source, and this agrees with the frame. -/
def MapCond (s : Vmm) (v p : UInt64) : Prop :=
  s.Linkable v ∧ ∃ src, s.source v = some src ∧
    match src with
    | .gigabyte e => e.address ||| v.toNat % 2 ^ 30 = p.toNat / pageSize * pageSize + v.toNat % pageSize
    | .megabytes e => e.address ||| v.toNat % 2 ^ 21 = p.toNat / pageSize * pageSize + v.toNat % pageSize
    | .page _ => p.toNat < 2 ^ 40

/-- What is claimed of a call of `vmm_map_page` that returns 0. -/
def MapSound (s : Vmm) (v p flags : UInt64) : Prop :=
  (s.vmmMapPage v p flags).2.vmmIsMapped v = true ∧
    (s.vmmMapPage v p flags).2.vmmGetPhysical v =
      p.toNat / pageSize * pageSize + v.toNat % pageSize ∧
    ∀ w, pageOf w ≠ pageOf v →
      (s.vmmMapPage v p flags).2.vmmGetPhysical w = s.vmmGetPhysical w ∧
        (s.vmmMapPage v p flags).2.vmmIsMapped w = s.vmmIsMapped w

section Climbing

variable {s s₃ : Vmm} {place : Nat → Option (List (Fin 512))} {v : UInt64} {pdpt pd pt : Nat}

theorem Climbs.linkable_iff (hc : Climbs s s₃ place v pdpt pd pt) (hpdpt : s.walk (pdptPath v) = some pdpt) :
    s.Linkable v ↔ s₃.walk (ptPath v) ≠ none := by
  have hpd := hc.pd_eq hpdpt
  rw [hc.walk_pt]
  constructor
  · intro hlink
    obtain ⟨hg, hm⟩ := hlink pdpt hpdpt
    rw [nextPd, ← hpd] at hm
    simp [hg, hm]
  · intro hne pdpt' hpdpt'
    obtain rfl := Option.some.inj (hpdpt.symm.trans hpdpt')
    rw [nextPd, ← hpd]
    by_contra hnot
    refine hne (if_pos ?_)
    rcases hg : (s.mem pdpt (index 30 v)).huge with _ | _
    · rcases hm : (s.mem pd (index 21 v)).huge with _ | _
      · exact absurd ⟨hg, hm⟩ hnot
      · exact Or.inr rfl
    · exact Or.inl rfl

theorem Climbs.source_eq (h : Ready s place) (hc : Climbs s s₃ place v pdpt pd pt)
    (hlink : s₃.walk (ptPath v) ≠ none) (hv : s.source v ≠ none) (w : UInt64) : s₃.source w = s.source w := by
  have hclear : (s.mem pdpt (index 30 v)).huge = false ∧ (s.mem pd (index 21 v)).huge = false := by
    rw [hc.walk_pt] at hlink
    split at hlink
    · exact absurd rfl hlink
    · rename_i hnot
      simpa [not_or] using hnot
  -- An entry that is marked huge is not written.
  have hkept : ∀ {u : Nat} {q : List (Fin 512)} {j : Fin 512}, s.walk q = some u →
      (q = pdptPath w ∨ q = pdPath w) → (s.mem u j).huge = true → s₃.mem u j = s.mem u j := by
    intro u q j hu hq hhuge
    refine hc.kept u q j (h.place_of_walk hu) fun hsuffix => ?_
    have hmono := hc.mono q u hu
    rcases hq with rfl | rfl
    · -- the entry of the PDPT that leads to the PD
      obtain ⟨rfl, h39⟩ : j = index 30 v ∧ index 39 w = index 39 v := by
        simpa [List.suffix_cons_iff] using hsuffix
      rw [pdptPath, h39, hc.walk_pdpt] at hmono
      obtain rfl := Option.some.inj hmono
      rw [hclear.1] at hhuge
      cases hhuge
    · -- the entry of the PD that leads to the page table
      obtain ⟨rfl, h30, h39⟩ : j = index 21 v ∧ index 30 w = index 30 v ∧ index 39 w = index 39 v := by
        simpa [List.suffix_cons_iff] using hsuffix
      rw [pdPath, h30, h39, hc.walk_pd, hclear.1] at hmono
      obtain rfl := Option.some.inj hmono
      rw [hclear.2] at hhuge
      cases hhuge
  have hsame_pdpt : s₃.walk (pdptPath w) = s.walk (pdptPath w) := by
    by_cases hpath : pdptPath w = pdptPath v
    · rcases h3 : s.walk (pdptPath w) with _ | u
      · refine absurd ?_ hv
        unfold source
        rw [← hpath, h3]
      · exact hc.mono _ u h3
    · exact hc.walk_ne _ hpath (by simp [pdPath]) (by simp)
  unfold source
  rw [hsame_pdpt]
  rcases h3 : s.walk (pdptPath w) with _ | u3
  · rfl
  dsimp only
  rw [hc.huge]
  rcases hg : (s.mem u3 (index 39 w)).huge with _ | _
  swap
  · rw [hkept h3 (Or.inl rfl) hg, if_pos rfl, if_pos rfl]
  simp only [Bool.false_eq_true, if_false]
  have hsame_pd : s₃.walk (pdPath w) = s.walk (pdPath w) := by
    by_cases hpath : pdPath w = pdPath v
    · rcases h2 : s.walk (pdPath w) with _ | u
      · refine absurd ?_ hv
        obtain ⟨h30, h39⟩ : index 30 w = index 30 v ∧ index 39 w = index 39 v := by simpa using hpath
        unfold source
        rw [pdptPath, h39] at h3
        rw [h39] at hg
        rw [hpath] at h2
        simp [h3, hg, h2]
      · exact hc.mono _ u h2
    · exact hc.walk_ne _ (by simp [pdPath]) hpath (by simp [pdPath])
  rw [hsame_pd]
  rcases h2 : s.walk (pdPath w) with _ | u2
  · rfl
  dsimp only
  rw [hc.huge]
  rcases hm : (s.mem u2 (index 30 w)).huge with _ | _
  swap
  · rw [hkept h2 (Or.inr rfl) hm, if_pos rfl, if_pos rfl]
  simp only [Bool.false_eq_true, if_false]
  have hsame_pt : s₃.walk (ptPath w) = s.walk (ptPath w) := by
    by_cases hpath : ptPath w = ptPath v
    · rcases h1 : s.walk (ptPath w) with _ | u
      · refine absurd ?_ hv
        rw [← source_congr hpath]
        unfold source
        simp [h3, hg, h2, hm, h1]
      · exact hc.mono _ u h1
    · exact hc.walk_ne _ (by simp) (by simp) hpath
  rw [hsame_pt]

theorem Climbs.entry_eq (h : Ready s place) (hc : Climbs s s₃ place v pdpt pd pt) {w : UInt64} {u : Nat}
    (hu : s.walk (ptPath w) = some u) (j : Fin 512) : s₃.mem u j = s.mem u j := by
  refine hc.kept u _ _ (h.place_of_walk hu) fun hsuffix => ?_
  have := hsuffix.length_le
  simp at this

theorem Climbs.getPhysical_eq (h : Ready s place) (hc : Climbs s s₃ place v pdpt pd pt)
    (hlink : s₃.walk (ptPath v) ≠ none) (hv : s.source v ≠ none) (w : UInt64) :
    s₃.vmmGetPhysical w = s.vmmGetPhysical w := by
  rw [vmmGetPhysical_eq, vmmGetPhysical_eq, hc.source_eq h hlink hv]
  rcases hsource : s.source w with _ | src
  · simp only [Option.map_none]
  · cases src with
    | gigabyte _ => simp only [Option.map_some, Option.getD_some, physicalFrom]
    | megabytes _ => simp only [Option.map_some, Option.getD_some, physicalFrom]
    | page u =>
      simp only [Option.map_some, Option.getD_some, physicalFrom,
        hc.entry_eq h (walk_of_source_page hsource)]

theorem Climbs.isMapped_eq (h : Ready s place) (hc : Climbs s s₃ place v pdpt pd pt) (w : UInt64) :
    s₃.vmmIsMapped w = s.vmmIsMapped w := by
  rw [vmmIsMapped_eq, vmmIsMapped_eq]
  by_cases hpath : ptPath w = ptPath v
  · rcases hwalk : s.walk (ptPath w) with _ | u
    · rcases hwalk₃ : s₃.walk (ptPath w) with _ | u₃
      · rfl
      · rw [hpath] at hwalk hwalk₃
        have hpt : u₃ = pt := by
          have := hc.walk_pt
          rw [hwalk₃] at this
          split at this
          · cases this
          · exact Option.some.inj this
        subst hpt
        simp [hc.empty hwalk hwalk₃]
    · rw [hpath] at hwalk
      rw [hc.same u hwalk, hpath, hwalk]
  · rw [hc.walk_ne _ (by simp) (by simp) hpath]
    rcases hwalk : s.walk (ptPath w) with _ | u
    · rfl
    · simp only [Option.map_some, Option.getD_some, hc.entry_eq h hwalk]

end Climbing

/-! ## The claim on a call -/

theorem exists_neighbour (v : UInt64) : ∃ w, ptPath w = ptPath v ∧ pageOf w ≠ pageOf v ∧ w.toNat % 2 = 1 := by
  have hlt := v.toNat_lt
  have hnat : ∀ {a : Nat}, a < 2 ^ 64 → (UInt64.ofNat a).toNat = a := UInt64.toNat_ofNat_of_lt'
  by_cases hfirst : v.toNat / 4096 % 512 = 0
  · have h : (UInt64.ofNat (v.toNat / 2 ^ 21 * 2 ^ 21 + 4097)).toNat =
        v.toNat / 2 ^ 21 * 2 ^ 21 + 4097 := hnat (by omega)
    refine ⟨UInt64.ofNat (v.toNat / 2 ^ 21 * 2 ^ 21 + 4097), ?_, ?_, ?_⟩
    · rw [ptPath_eq_iff, h]
      omega
    · simp only [pageOf, pageSize, h]
      omega
    · rw [h]
      omega
  · have h : (UInt64.ofNat (v.toNat / 2 ^ 21 * 2 ^ 21 + 1)).toNat = v.toNat / 2 ^ 21 * 2 ^ 21 + 1 :=
      hnat (by omega)
    refine ⟨UInt64.ofNat (v.toNat / 2 ^ 21 * 2 ^ 21 + 1), ?_, ?_, ?_⟩
    · rw [ptPath_eq_iff, h]
      omega
    · simp only [pageOf, pageSize, h]
      omega
    · rw [h]
      omega

theorem address_mapEntry (e : PageEntry) {v p flags : UInt64} (hp : p.toNat < 2 ^ 48) :
    (mapEntry e p flags).address ||| v.toNat % 2 ^ 12 =
      p.toNat / pageSize * pageSize + v.toNat % pageSize ↔ p.toNat < 2 ^ 40 := by
  have haddress : (mapEntry e p flags).address = 2 ^ 12 * (p.toNat / 2 ^ 12 % 2 ^ 28) := by
    show p.toNat / 4096 % 2 ^ 36 * 4096 % 2 ^ 40 = _
    omega
  rw [haddress, ← Nat.two_pow_add_eq_or_of_lt (Nat.mod_lt _ (by omega))]
  simp only [pageSize]
  omega

theorem mapSound_iff {s : Vmm} {place : Nat → Option (List (Fin 512))} (h : Ready s place)
    {v p flags : UInt64} (hflags : flags &&& pageFlagPresent ≠ 0) (hp : p.toNat < 2 ^ 48)
    (hmap : (s.vmmMapPage v p flags).1 = 0) : s.MapSound v p flags ↔ s.MapCond v p := by
  have hcall : s.vmmMapPage v p flags = (0, (s.vmmMapPage v p flags).2) := Prod.ext hmap rfl
  obtain ⟨s₃, pdpt, pd, pt, hc, -, hs'⟩ := climbs_of_map h hcall
  obtain ⟨place₃, hready, hpt⟩ := hc.ready
  unfold MapSound
  rw [hs']
  have hpresent : (mapEntry (s₃.mem pt (index 12 v)) p flags).present = true := by
    simpa [mapEntry, PageEntry.setFrame] using hflags
  have hwalk_of : s₃.walk (ptPath v) ≠ none → s₃.walk (ptPath v) = some pt := by
    intro hne
    have := hc.walk_pt
    split at this
    · exact absurd this hne
    · exact this
  have hpdpt_of : s.source v ≠ none → s.walk (pdptPath v) = some pdpt := by
    intro hv
    rcases h3 : s.walk (pdptPath v) with _ | u
    · exact absurd (by simp [source, h3]) hv
    · rw [← hc.mono _ u h3, hc.walk_pdpt]
  -- With its source, the translation agrees when the source does.
  have hagrees : ∀ {src}, s₃.walk (ptPath v) = some pt → s.source v = some src →
      ((s₃.setEntry pt (index 12 v) (mapEntry (s₃.mem pt (index 12 v)) p flags)).vmmGetPhysical v =
        p.toNat / pageSize * pageSize + v.toNat % pageSize ↔ match src with
          | .gigabyte e =>
            e.address ||| v.toNat % 2 ^ 30 = p.toNat / pageSize * pageSize + v.toNat % pageSize
          | .megabytes e =>
            e.address ||| v.toNat % 2 ^ 21 = p.toNat / pageSize * pageSize + v.toNat % pageSize
          | .page _ => p.toNat < 2 ^ 40) := by
    intro src hwalk hsrc
    have hsource₃ : s₃.source v = some src := by
      rw [hc.source_eq h (by simp [hwalk]) (by simp [hsrc]), hsrc]
    rw [vmmGetPhysical_eq, source_setEntry hready hpt, hsource₃, Option.map_some, Option.getD_some]
    cases src with
    | gigabyte e => exact Iff.rfl
    | megabytes e => exact Iff.rfl
    | page u =>
      obtain rfl := Option.some.inj (hwalk.symm.trans (walk_of_source_page hsource₃))
      rw [physicalFrom, setEntry_mem_self]
      exact address_mapEntry _ hp
  constructor
  · rintro ⟨hmapped, hphysical, hothers⟩
    have hne : s₃.walk (ptPath v) ≠ none := by
      intro hnone
      rw [vmmIsMapped_eq, walk_setEntry hready hpt rfl (by simp), hnone] at hmapped
      cases hmapped
    rcases hsrc : s.source v with _ | src
    · -- a neighbour gets a translation that it did not have
      obtain ⟨w, hpath, hpage, hodd⟩ := exists_neighbour v
      have hsame := (hothers w hpage).1
      rw [vmmGetPhysical_eq, vmmGetPhysical_eq, source_congr hpath, source_congr hpath, hsrc] at hsame
      have hne' : (s₃.setEntry pt (index 12 v)
          (mapEntry (s₃.mem pt (index 12 v)) p flags)).source v ≠ none := by
        rw [source_setEntry hready hpt]
        exact source_ne_none hne
      obtain ⟨src, hsrc'⟩ := Option.ne_none_iff_exists'.mp hne'
      rw [hsrc'] at hsame
      exact absurd hsame (physicalFrom_odd _ hodd src)
    · have hpdpt := hpdpt_of (by simp [hsrc])
      exact ⟨(hc.linkable_iff hpdpt).mpr hne, src, hsrc, (hagrees (hwalk_of hne) hsrc).mp hphysical⟩
  · rintro ⟨hlink, src, hsrc, hagree⟩
    have hv : s.source v ≠ none := by simp [hsrc]
    have hne := (hc.linkable_iff (hpdpt_of hv)).mp hlink
    refine ⟨?_, (hagrees (hwalk_of hne) hsrc).mpr hagree, fun w hw => ?_⟩
    · rw [vmmIsMapped_setEntry hready (hwalk_of hne)]
      exact hpresent
    · obtain ⟨hphysical, hmapped⟩ := other_setEntry hready hpt hw
      rw [hphysical, hmapped, hc.getPhysical_eq h hne hv, hc.isMapped_eq h]
      exact ⟨rfl, rfl⟩

/-- **The claim on the mapping functions**, at a call of each, holds exactly when every call of
`vmm_map_page` that returns 0 meets `MapCond` and no unmapped address has a source. -/
theorem mappingSound_iff {s : Vmm} {place : Nat → Option (List (Fin 512))} (h : Ready s place) (v p flags u : UInt64) :
    ((flags &&& pageFlagPresent ≠ 0 → p.toNat < 2 ^ 48 → (s.vmmMapPage v p flags).1 = 0 →
        s.MapSound v p flags) ∧ s.UnmappedZero ∧ s.UnmapSound u) ↔
      (flags &&& pageFlagPresent ≠ 0 → p.toNat < 2 ^ 48 → (s.vmmMapPage v p flags).1 = 0 →
        s.MapCond v p) ∧ ∀ w, s.vmmIsMapped w = false → s.source w = none := by
  rw [unmappedZero_iff]
  constructor
  · rintro ⟨hmap, hzero, -⟩
    exact ⟨fun hflags hp hret => (mapSound_iff h hflags hp hret).mp (hmap hflags hp hret), hzero⟩
  · rintro ⟨hmap, hzero⟩
    exact ⟨fun hflags hp hret => (mapSound_iff h hflags hp hret).mpr (hmap hflags hp hret), hzero,
      unmapSound_of_ready h u⟩

/-! ## Two runs -/

/-- An empty PML4, three pages to be handed out, and all pages with the same entries in them, which are
not present. -/
def bare (e : PageEntry) : Vmm := { mem := fun _ _ => { e with present := false }, supply := [2, 3, 4] }

theorem ready_bare (e : PageEntry) : Ready (bare e) (fun t => if t = vmmPml4 then some [] else none) := by
  refine ⟨⟨rfl, fun {t p i t'} _ hchild => ?_⟩, by simp [bare], by simp [bare, vmmPml4],
    by simp [bare]⟩
  rw [child_of_not_present rfl] at hchild
  cases hchild

theorem mappingSound_bare : (((1 : UInt64) &&& pageFlagPresent ≠ 0 → (0x5000 : UInt64).toNat < 2 ^ 48 →
        ((bare PageEntry.zero).vmmMapPage 0x400000 0x5000 1).1 = 0 → (bare PageEntry.zero).MapSound 0x400000 0x5000 1) ∧
      (bare PageEntry.zero).UnmappedZero ∧ (bare PageEntry.zero).UnmapSound 0x400000) ↔
      ((1 : UInt64) &&& pageFlagPresent ≠ 0 → (0x5000 : UInt64).toNat < 2 ^ 48 →
        ((bare PageEntry.zero).vmmMapPage 0x400000 0x5000 1).1 = 0 → (bare PageEntry.zero).MapCond 0x400000 0x5000) ∧
      ∀ w, (bare PageEntry.zero).vmmIsMapped w = false → (bare PageEntry.zero).source w = none :=
  mappingSound_iff (ready_bare PageEntry.zero) 0x400000 0x5000 1 0x400000

/-- **A mapping that is hidden**: `vmm_map_page` returns 0 for an address whose new tables are made from
pages with `huge` bits in them, and the address is not mapped. With clean pages it is, but an address of
the next page, which is not, is translated to its offset. -/
theorem stale_huge_hides :
    (((bare { PageEntry.zero with huge := true }).vmmMapPage 0x400000 0x5000 1).1 = 0 ∧
      ((bare { PageEntry.zero with huge := true }).vmmMapPage 0x400000 0x5000 1).2.vmmIsMapped 0x400000 = false) ∧
    (((bare PageEntry.zero).vmmMapPage 0x400000 0x5000 1).1 = 0 ∧
      ((bare PageEntry.zero).vmmMapPage 0x400000 0x5000 1).2.vmmIsMapped 0x401234 = false ∧
      ((bare PageEntry.zero).vmmMapPage 0x400000 0x5000 1).2.vmmGetPhysical 0x401234 = 0x234 ∧
      (bare PageEntry.zero).vmmGetPhysical 0x401234 = 0) := by
  decide

end Chicago95.Stage2.Vmm
