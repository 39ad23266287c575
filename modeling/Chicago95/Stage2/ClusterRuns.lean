/-
# Chicago95.Stage2.ClusterRuns — the cluster address space over whole runs.

After `vmm_cluster_space_init`, clusters are mapped, unmapped and resolved, in any order, with any pages
that are not in use for the answers of `pmm_alloc_page`. The two arrays and the page tables are `Books`
that agree: a cluster that is tracked is mapped to its frame, no two to the same, and one that is not is
not mapped to frame 0, which stands for it.
-/
import Chicago95.Lib.Transition
import Chicago95.Stage2.Clusters

namespace Chicago95.Stage2.Clusters

open Chicago95.Lib.Radix Chicago95.Lib.Transition Vmm
open Function (update_of_ne update_self update)

/-! ## The books -/

/-- Arrays and page tables agree. -/
structure Books (s : Clusters) : Prop where
  tracked : ∀ c : UInt32, c.toNat < clusterMapMax → s.physMap c.toNat ≠ 0 →
    s.present c.toNat = 1 ∧
      s.vm.mappedFrame (vmmClusterVirt c) = some (s.physMap c.toNat / pageSize)
  untracked : ∀ c : UInt32, c.toNat < clusterMapMax → s.physMap c.toNat = 0 →
    s.present c.toNat = 0 ∧ s.vm.mappedFrame (vmmClusterVirt c) ≠ some 0
  apart : ∀ c d : UInt32, c.toNat < clusterMapMax → d.toNat < clusterMapMax →
    s.physMap c.toNat ≠ 0 → s.physMap d.toNat ≠ 0 →
    s.physMap c.toNat / pageSize = s.physMap d.toNat / pageSize → c = d

theorem pageOf_vmmClusterVirt (c : UInt32) : pageOf (vmmClusterVirt c) = 2 ^ 32 + c.toNat := by
  have hlt := c.toNat_lt
  have hbound : clusterVaBase + c.toNat * pageSize < 2 ^ 64 := by
    unfold clusterVaBase pageSize
    omega
  have hnat : (vmmClusterVirt c).toNat = clusterVaBase + c.toNat * pageSize :=
    UInt64.toNat_ofNat_of_lt' hbound
  simp only [pageOf, hnat, clusterVaBase, pageSize]
  omega

theorem pageOf_virt_ne {c d : UInt32} (h : d ≠ c) : pageOf (vmmClusterVirt d) ≠ pageOf (vmmClusterVirt c) := by
  rw [pageOf_vmmClusterVirt, pageOf_vmmClusterVirt]
  intro heq
  exact h (UInt32.toNat_inj.mp (by omega))

variable {s t : Clusters} {c : UInt32} {physical : Nat}

theorem Idle.books (h : Idle s t) (hb : Books s) : Books t := by
  refine ⟨?_, ?_, ?_⟩ <;> simp only [h.physMap, h.present, h.mapped]
  · exact hb.tracked
  · exact hb.untracked
  · exact hb.apart

theorem Backs.books (h : Backs s t c physical) (hb : Books s) (hzero : physical ≠ 0) (hlt : physical < 2 ^ 48)
    (hother : ∀ d : UInt32, d.toNat < clusterMapMax → d ≠ c → s.physMap d.toNat ≠ 0 →
      s.physMap d.toNat / pageSize ≠ physical / pageSize) : Books t := by
  have hself : t.physMap c.toNat = physical ∧ t.present c.toNat = 1 := by
    rw [h.physMap, h.present, update_self, update_self]
    exact ⟨rfl, rfl⟩
  have hrest : ∀ {d : UInt32}, d ≠ c →
      t.physMap d.toNat = s.physMap d.toNat ∧ t.present d.toNat = s.present d.toNat := by
    intro d hd
    have hne : d.toNat ≠ c.toNat := fun heq => hd (UInt32.toNat_inj.mp heq)
    rw [h.physMap, h.present, update_of_ne hne, update_of_ne hne]
    exact ⟨rfl, rfl⟩
  have hframe : physical / pageSize % 2 ^ 36 = physical / pageSize := by
    unfold pageSize
    omega
  refine ⟨fun d hd htracked => ?_, fun d hd huntracked => ?_, fun d e hd he htd hte heq => ?_⟩
  · by_cases hdc : d = c
    · subst hdc
      rw [hself.1, hself.2, h.mapped, hframe]
      exact ⟨rfl, rfl⟩
    · rw [(hrest hdc).1] at htracked ⊢
      obtain ⟨hpresent, hmapped⟩ := hb.tracked d hd htracked
      rw [(hrest hdc).2]
      refine ⟨hpresent, ?_⟩
      rcases h.others _ (pageOf_virt_ne hdc) with hsame | ⟨hnone, -⟩
      · rw [hsame]
        exact hmapped
      · rw [hmapped] at hnone
        cases hnone
  · by_cases hdc : d = c
    · subst hdc
      rw [hself.1] at huntracked
      exact absurd huntracked hzero
    · rw [(hrest hdc).1] at huntracked
      obtain ⟨hpresent, hmapped⟩ := hb.untracked d hd huntracked
      rw [(hrest hdc).2]
      refine ⟨hpresent, ?_⟩
      rcases h.others _ (pageOf_virt_ne hdc) with hsame | ⟨-, hnew⟩
      · rw [hsame]
        exact hmapped
      · exact hnew
  · by_cases hdc : d = c <;> by_cases hec : e = c
    · rw [hdc, hec]
    · subst hdc
      rw [(hrest hec).1] at hte heq
      rw [hself.1] at heq
      exact absurd heq.symm (hother e he hec hte)
    · subst hec
      rw [(hrest hdc).1] at htd heq
      rw [hself.1] at heq
      exact absurd heq (hother d hd hdc htd)
    · rw [(hrest hdc).1] at htd heq
      rw [(hrest hec).1] at hte heq
      exact hb.apart d e hd he htd hte heq

/-- During a call: the tables are a tree, the books agree, and no page that may still be handed out is a
cluster's frame. -/
structure Working (s : Clusters) : Prop where
  ready : ∃ place, Ready s.vm place
  books : Books s
  free : ∀ n ∈ s.vm.supply, n ≠ 0 → ∀ c : UInt32, c.toNat < clusterMapMax → s.physMap c.toNat ≠ 0 →
    s.physMap c.toNat / pageSize ≠ n

theorem Idle.working (h : Idle s t) (hw : Working s) : Working t where
  ready := h.ready
  books := h.books hw.books
  free n hn hzero d hd htracked := by
    rw [h.physMap] at htracked ⊢
    exact hw.free n (h.supply.subset hn) hzero d hd htracked

/-! ## The calls -/

/-- **What is safe to resolve**: a cluster that is tracked, or one for which there is no page or a page
below 2 GB with which it can be backed. -/
def ResolveSafe (s : Clusters) (c : UInt32) : Prop :=
  c.toNat < clusterMapMax → s.physMap c.toNat = 0 → ∀ page rest, s.vm.supply = page :: rest → page ≠ 0 →
    page < 2 ^ 19 ∧ (({ s.vm with supply := rest } : Vmm).zeroPage page).Backable (vmmClusterVirt c)

/-- What resolving a cluster leaves. -/
structure Resolves (s t : Clusters) (c : UInt32) (phys : Nat) : Prop where
  working : Working t
  /-- The answer is the cluster's frame. -/
  answer : phys ≠ 0 → c.toNat < clusterMapMax ∧ t.physMap c.toNat = phys
  same : c.toNat < clusterMapMax → s.physMap c.toNat ≠ 0 → phys = s.physMap c.toNat
  keeps : ∀ d : UInt32, s.physMap d.toNat ≠ 0 → t.physMap d.toNat = s.physMap d.toNat

theorem vmmClusterResolve_tracked (hb : Books s) (hc : c.toNat < clusterMapMax)
    (htracked : s.physMap c.toNat ≠ 0) : s.vmmClusterResolve c = (s.physMap c.toNat, s) := by
  obtain ⟨pt, hpt, hpresent, -⟩ := of_mappedFrame (hb.tracked c hc htracked).2
  unfold vmmClusterResolve
  rw [if_neg (by omega), if_pos htracked, vmmGetPageEntry_eq, hpt]
  simp only [Option.map_some, hpresent, if_true]

theorem resolves (hw : Working s) (hsafe : s.ResolveSafe c) :
    Resolves s (s.vmmClusterResolve c).2 c (s.vmmClusterResolve c).1 := by
  by_cases hc : c.toNat < clusterMapMax
  swap
  · have hout : s.vmmClusterResolve c = (0, s) := by
      unfold vmmClusterResolve
      rw [if_pos (by omega)]
    rw [hout]
    exact ⟨hw, fun h => absurd rfl h, fun h => absurd h hc, fun _ _ => rfl⟩
  by_cases htracked : s.physMap c.toNat ≠ 0
  · rw [vmmClusterResolve_tracked hw.books hc htracked]
    exact ⟨hw, fun _ => ⟨hc, rfl⟩, fun _ _ => rfl, fun _ _ => rfl⟩
  rw [not_not] at htracked
  obtain ⟨place, hready⟩ := hw.ready
  have hidle : ∀ {t}, Idle s t → Resolves s t c 0 := fun hi =>
    ⟨hi.working hw, fun h => absurd rfl h, fun _ h => absurd htracked h, fun d _ => by rw [hi.physMap]⟩
  unfold vmmClusterResolve
  rw [if_neg (by omega), if_neg (by simpa using htracked)]
  rcases hsupply : s.vm.supply with _ | ⟨page, rest⟩
  · have halloc : s.vm.pmmAllocPage = (none, s.vm) := by
      unfold pmmAllocPage
      rw [hsupply]
    rw [halloc]
    exact hidle ⟨⟨place, hready⟩, List.suffix_refl _, rfl, rfl, fun _ => rfl⟩
  have halloc : s.vm.pmmAllocPage =
      (if page = 0 then none else some page, { s.vm with supply := rest }) := by
    unfold pmmAllocPage
    rw [hsupply]
  have hrest : rest <:+ s.vm.supply := hsupply ▸ List.suffix_cons page rest
  have hready' : Ready ({ s.vm with supply := rest } : Vmm) place := hready.of_suffix rfl hrest
  by_cases hzero : page = 0
  · rw [halloc, if_pos hzero]
    exact hidle ⟨⟨place, hready'⟩, hrest, rfl, rfl, fun _ => rfl⟩
  -- A page is there: it is zeroed, and the cluster is mapped to it.
  rw [halloc, if_neg hzero]
  obtain ⟨hsmall, hback⟩ := hsafe hc htracked page rest hsupply hzero
  have hmem : page ∈ s.vm.supply := by rw [hsupply]; exact List.mem_cons_self
  have hfresh : place page = none := hready.fresh page hmem hzero
  have hphys : ofPointer (toPointer (page * pageSize)) = page * 4096 := by
    have : (toPointer (page * pageSize)).toNat = page * 4096 :=
      toNat_toPointer (by unfold pageSize; omega)
    unfold ofPointer
    rw [this, if_pos (by omega)]
  have hzeroed : Idle s { s with vm := ({ s.vm with supply := rest } : Vmm).zeroPage page } :=
    ⟨⟨place, hready'.zeroPage hfresh⟩, hrest, rfl, rfl, mappedFrame_zeroPage hready' hfresh⟩
  dsimp only
  rw [hphys]
  rcases hmap : ({ s with vm := ({ s.vm with supply := rest } : Vmm).zeroPage page } :
    Clusters).vmmClusterMap c (page * 4096) with ⟨r, t⟩
  dsimp only
  rcases vmmClusterMap_spec (hready'.zeroPage hfresh) (fun _ => hback) hmap with
    ⟨rfl, hidle'⟩ | ⟨rfl, -, hbacks⟩
  · rw [if_pos (by decide)]
    refine hidle ⟨hidle'.ready, hidle'.supply.trans hrest, hidle'.physMap, hidle'.present, fun w => ?_⟩
    rw [hidle'.mapped, hzeroed.mapped]
  · rw [if_neg (by decide)]
    have hdistinct := hready.distinct
    rw [hsupply, List.pairwise_cons] at hdistinct
    have hphysMap : t.physMap = update s.physMap c.toNat (page * 4096) := hbacks.physMap
    refine ⟨⟨hbacks.ready, hbacks.books (hzeroed.books hw.books) (by omega) (by omega) ?_, ?_⟩,
      fun _ => ⟨hc, ?_⟩, fun _ h => absurd htracked h, fun d hd => ?_⟩
    · intro d hd _ htd
      have hne := hw.free page hmem hzero d hd htd
      show s.physMap d.toNat / pageSize ≠ page * 4096 / pageSize
      unfold pageSize at hne ⊢
      omega
    · intro n hn hn0 d hd htd
      have hn' : n ∈ rest := hbacks.supply.subset hn
      rw [hphysMap] at htd ⊢
      by_cases hdc : d.toNat = c.toNat
      · rw [hdc, update_self]
        rintro rfl
        exact hzero (hdistinct.1 _ hn' (by unfold pageSize; omega))
      · rw [update_of_ne hdc] at htd ⊢
        exact hw.free n (hrest.subset hn') hn0 d hd htd
    · rw [hphysMap, update_self]
    · rw [hphysMap, update_of_ne]
      rintro heq
      rw [heq] at hd
      exact hd htracked

theorem vmmClusterUnmap_tracked (hb : Books s) (hc : c.toNat < clusterMapMax) (htracked : s.physMap c.toNat ≠ 0) :
    ∃ pt, s.vm.walk (ptPath (vmmClusterVirt c)) = some pt ∧
      s.vmmClusterUnmap c = (0,
        { vm := s.vm.setEntry pt (index 12 (vmmClusterVirt c))
            { s.vm.mem pt (index 12 (vmmClusterVirt c)) with present := false, frame := 0 }
          physMap := update s.physMap c.toNat 0
          present := update s.present c.toNat 0 }) := by
  obtain ⟨hpresent, hmapped⟩ := hb.tracked c hc htracked
  obtain ⟨pt, hpt, -, -⟩ := of_mappedFrame hmapped
  obtain ⟨pd, hpd, hchild⟩ := Vmm.of_walk_cons hpt
  obtain ⟨pdpt, hpdpt, -⟩ := Vmm.of_walk_cons hpd
  have hhuge : (s.vm.mem pd (index 21 (vmmClusterVirt c))).huge = false :=
    (of_child hchild).2.2 (by simp)
  have hrefused : ¬ (clusterMapMax ≤ c.toNat ∨ s.present c.toNat = 0) := by omega
  refine ⟨pt, hpt, ?_⟩
  unfold vmmClusterUnmap
  rw [if_neg hrefused]
  simp only [vmmGetPdpt_false, hpdpt, vmmGetPd_false hpdpt, hpd, hhuge, vmmGetPt_false hpd, hpt,
    Bool.false_eq_true, if_false]

theorem unmap_books {place : Nat → Option (List (Fin 512))} (h : Ready s.vm place) (hb : Books s) (c : UInt32) :
    Ready (s.vmmClusterUnmap c).2.vm place ∧ Books (s.vmmClusterUnmap c).2 ∧
      ∀ d : UInt32, d ≠ c → (s.vmmClusterUnmap c).2.physMap d.toNat = s.physMap d.toNat := by
  by_cases hrefused : clusterMapMax ≤ c.toNat ∨ s.present c.toNat = 0
  · have hout : s.vmmClusterUnmap c = (-1, s) := by
      unfold vmmClusterUnmap
      rw [if_pos hrefused]
    rw [hout]
    exact ⟨h, hb, fun _ _ => rfl⟩
  have hc : c.toNat < clusterMapMax := by omega
  have htracked : s.physMap c.toNat ≠ 0 := fun hzero =>
    hrefused (Or.inr (hb.untracked c hc hzero).1)
  obtain ⟨pt, hpt, hout⟩ := vmmClusterUnmap_tracked hb hc htracked
  rw [hout]
  have hne : ∀ {d : UInt32}, d ≠ c → d.toNat ≠ c.toNat := fun hd heq => hd (UInt32.toNat_inj.mp heq)
  have hself := mappedFrame_setEntry_self (v := vmmClusterVirt c)
    (e := { s.vm.mem pt (index 12 (vmmClusterVirt c)) with present := false, frame := 0 }) h hpt
  have hothers : ∀ {d : UInt32}, d ≠ c → _ := fun {d} hd => mappedFrame_setEntry_of_ne
    (w := vmmClusterVirt d)
    (e := { s.vm.mem pt (index 12 (vmmClusterVirt c)) with present := false, frame := 0 })
    h hpt (pageOf_virt_ne hd)
  refine ⟨h.setEntry_leaf (h.place_of_walk hpt) _, ⟨fun d hd htd => ?_, fun d hd hud => ?_,
    fun d e hd he htd hte heq => ?_⟩, fun d hd => update_of_ne (hne hd) _ _⟩
  · dsimp only at htd ⊢
    by_cases hdc : d = c
    · rw [hdc, update_self] at htd
      exact absurd rfl htd
    · rw [update_of_ne (hne hdc)] at htd ⊢
      rw [update_of_ne (hne hdc), hothers hdc]
      exact hb.tracked d hd htd
  · dsimp only at hud ⊢
    by_cases hdc : d = c
    · subst hdc
      rw [update_self, hself]
      exact ⟨rfl, by simp⟩
    · rw [update_of_ne (hne hdc)] at hud
      rw [update_of_ne (hne hdc), hothers hdc]
      exact hb.untracked d hd hud
  · dsimp only at htd hte heq
    have hdc : d ≠ c := by
      rintro rfl
      rw [update_self] at htd
      exact htd rfl
    have hec : e ≠ c := by
      rintro rfl
      rw [update_self] at hte
      exact hte rfl
    rw [update_of_ne (hne hdc)] at htd heq
    rw [update_of_ne (hne hec)] at hte heq
    exact hb.apart d e hd he htd hte heq

/-- Every resolve of a range is safe where it is made. -/
def RangeSafe (s : Clusters) (start : UInt32) : Nat → Prop
  | 0 => True
  | n + 1 => s.ResolveSafe start ∧
      ((s.vmmClusterResolve start).1 ≠ 0 → (s.vmmClusterResolve start).2.RangeSafe (start + 1) n)

theorem range_working : ∀ {n : Nat} {s : Clusters} {start : UInt32}, Working s → s.RangeSafe start n →
    Working (s.vmmClusterResolveRange start n).2 ∧ ∀ d : UInt32, s.physMap d.toNat ≠ 0 →
        (s.vmmClusterResolveRange start n).2.physMap d.toNat = s.physMap d.toNat := by
  intro n
  induction n with
  | zero => exact fun hw _ => ⟨hw, fun _ _ => rfl⟩
  | succ n ih =>
    rintro s start hw ⟨hsafe, hmore⟩
    have hres := resolves hw hsafe
    rw [vmmClusterResolveRange]
    split
    rename_i phys s' hout
    rw [hout] at hres hmore
    by_cases hzero : phys = 0
    · rw [if_pos hzero]
      exact ⟨hres.working, hres.keeps⟩
    · rw [if_neg hzero]
      obtain ⟨hw', hkeeps⟩ := ih hres.working (hmore hzero)
      refine ⟨hw', fun d hd => ?_⟩
      have hsame := hres.keeps d hd
      rw [hkeeps d (by rw [hsame]; exact hd), hsame]

/-- The calls of a run. -/
inductive ClusterCall where
  | map (cluster : UInt32) (physical : UInt64)
  | unmap (cluster : UInt32)
  | resolve (cluster : UInt32)
  | resolveRange (start count : UInt32)
  | translate (virtual : UInt64)

/-- The answers that `pmm_alloc_page` will give are now `pages`. -/
def supplied (s : Clusters) (pages : List Nat) : Clusters := { s with vm := { s.vm with supply := pages } }

/-- The state a call leaves. -/
def after (s : Clusters) : ClusterCall → Clusters
  | .map cluster physical => (s.vmmClusterMap cluster physical.toNat).2
  | .unmap cluster => (s.vmmClusterUnmap cluster).2
  | .resolve cluster => (s.vmmClusterResolve cluster).2
  | .resolveRange start count => (s.vmmClusterResolveRange start count.toNat).2
  | .translate _ => s

/-- One call, with the pages that it is given. -/
def next (s : Clusters) (l : ClusterCall × List Nat) : Clusters := (s.supplied l.2).after l.1

/-- Pages that `pmm_alloc_page` may answer with: different ones below 4 GB that are neither tables nor the
frames of clusters, and null pointers. -/
structure Fresh (s : Clusters) (pages : List Nat) : Prop where
  distinct : pages.Pairwise fun a b => a = b → a = 0
  small : ∀ n ∈ pages, n < 2 ^ 20
  no_table : ∀ n ∈ pages, n ≠ 0 → ∀ q, s.vm.walk q ≠ some n
  no_frame : ∀ n ∈ pages, n ≠ 0 → ∀ c : UInt32, c.toNat < clusterMapMax → s.physMap c.toNat ≠ 0 →
    s.physMap c.toNat / pageSize ≠ n

/-- One step of a run. -/
def Step (s : Clusters) (l : ClusterCall × List Nat) (t : Clusters) : Prop :=
  Fresh s l.2 ∧ t = s.next l

/-- The number of the cluster of an address. -/
def clusterOf (virtual : UInt64) : Nat := (virtual.toNat - clusterVaBase) / pageSize

/-- **The safe calls.** -/
def Safe (s : Clusters) : ClusterCall → Prop
  | .map c physical => c.toNat < clusterMapMax →
      physical ≠ 0 ∧ physical.toNat < 2 ^ 48 ∧
      (∀ d : UInt32, d.toNat < clusterMapMax → d ≠ c → s.physMap d.toNat ≠ 0 →
        s.physMap d.toNat / pageSize ≠ physical.toNat / pageSize) ∧
      s.vm.Backable (vmmClusterVirt c)
  | .unmap _ => True
  | .resolve c => s.ResolveSafe c
  | .resolveRange start count => s.RangeSafe start count.toNat
  | .translate virtual => vmmIsClusterAddr virtual = true →
      clusterOf virtual < clusterMapMax ∨
        (clusterOf virtual % 2 ^ 32 < clusterMapMax ∧ s.physMap (clusterOf virtual % 2 ^ 32) = 0)

/-! ## What is claimed -/

/-- What is claimed of a state. -/
structure Sound (s : Clusters) : Prop where
  present_iff : ∀ c : UInt32, c.toNat < clusterMapMax →
    (s.present c.toNat = 1 ↔ s.physMap c.toNat ≠ 0)
  entry_iff : ∀ c : UInt32, c.toNat < clusterMapMax →
    (s.present c.toNat = 1 ↔ ∃ pt i, s.vm.vmmGetPageEntry (vmmClusterVirt c) = some (pt, i) ∧
      (s.vm.mem pt i).present = true ∧ (s.vm.mem pt i).frame = s.physMap c.toNat / pageSize)
  apart : ∀ c d : UInt32, c.toNat < clusterMapMax → d.toNat < clusterMapMax →
    s.physMap c.toNat ≠ 0 → s.physMap d.toNat ≠ 0 →
    s.physMap c.toNat / pageSize = s.physMap d.toNat / pageSize → c = d

/-- What is claimed of a call: the answers of a resolve and of a translation, and that a cluster keeps its
frame until it is mapped anew or unmapped. -/
structure CallSound (s : Clusters) (call : ClusterCall) (t : Clusters) : Prop where
  resolve : ∀ c, call = .resolve c →
    ((s.vmmClusterResolve c).1 ≠ 0 → t.physMap c.toNat = (s.vmmClusterResolve c).1) ∧
      (c.toNat < clusterMapMax → s.physMap c.toNat ≠ 0 →
        (s.vmmClusterResolve c).1 = s.physMap c.toNat)
  keeps : ∀ d : UInt32, s.physMap d.toNat ≠ 0 → (∀ p, call ≠ .map d p) → call ≠ .unmap d →
    t.physMap d.toNat = s.physMap d.toNat
  translate : ∀ v, call = .translate v → vmmIsClusterAddr v = true →
    s.vmmTranslateVirtForFs v =
      some (if clusterOf v < clusterMapMax then s.physMap (clusterOf v) else 0)

theorem Books.sound (h : Books s) : Sound s := by
  have hiff : ∀ c : UInt32, c.toNat < clusterMapMax →
      (s.present c.toNat = 1 ↔ s.physMap c.toNat ≠ 0) := by
    intro c hc
    constructor
    · intro hpresent hzero
      rw [(h.untracked c hc hzero).1] at hpresent
      cases hpresent
    · exact fun htracked => (h.tracked c hc htracked).1
  have hentry : ∀ (c : UInt32) (f : Nat),
      (∃ pt i, s.vm.vmmGetPageEntry (vmmClusterVirt c) = some (pt, i) ∧
        (s.vm.mem pt i).present = true ∧ (s.vm.mem pt i).frame = f) ↔
      s.vm.mappedFrame (vmmClusterVirt c) = some f := by
    intro c f
    rw [vmmGetPageEntry_eq]
    constructor
    · rintro ⟨pt, i, hget, hpresent, hframe⟩
      obtain ⟨pt', hpt, heq⟩ := Option.map_eq_some_iff.mp hget
      obtain ⟨rfl, rfl⟩ := Prod.mk.inj heq
      rw [mappedFrame_of_walk hpt, hpresent, if_pos rfl, hframe]
    · intro hmapped
      obtain ⟨pt, hpt, hpresent, hframe⟩ := of_mappedFrame hmapped
      exact ⟨pt, _, by rw [hpt]; rfl, hpresent, hframe⟩
  refine ⟨hiff, fun c hc => ?_, h.apart⟩
  rw [hiff c hc, hentry]
  constructor
  · exact fun htracked => (h.tracked c hc htracked).2
  · intro hmapped hzero
    rw [hzero] at hmapped
    exact (h.untracked c hc hzero).2 hmapped

/-! ## Whole runs -/

/-- Between calls: the tables are a tree and the books agree. -/
structure Inv (s : Clusters) : Prop where
  placed : ∃ place, Placed child s.vm.mem vmmPml4 place
  books : Books s

theorem Working.inv (h : Working s) : Inv s := by
  obtain ⟨place, hready⟩ := h.ready
  exact ⟨⟨place, hready.placed⟩, h.books⟩

theorem Inv.working (h : Inv s) {pages : List Nat} (hf : Fresh s pages) : Working (s.supplied pages) := by
  obtain ⟨place, hplaced⟩ := h.placed
  obtain ⟨place', hplaced', hreached⟩ := hplaced.exists_reached
  refine ⟨⟨place', hplaced', hf.small, fun n hn hzero => ?_, hf.distinct⟩,
    ⟨h.books.tracked, h.books.untracked, h.books.apart⟩, hf.no_frame⟩
  rcases hp : place' n with _ | q
  · rfl
  · exact absurd ((hreached n q).mp hp) (hf.no_table n hn hzero q)

theorem vmmTranslateVirtForFs_eq {v : UInt64} (hv : vmmIsClusterAddr v = true) (hsafe : clusterOf v < clusterMapMax ∨
      (clusterOf v % 2 ^ 32 < clusterMapMax ∧ s.physMap (clusterOf v % 2 ^ 32) = 0)) : s.vmmTranslateVirtForFs v =
      some (if clusterOf v < clusterMapMax then s.physMap (clusterOf v) else 0) := by
  have hnat : (vmmAddrToCluster v).toNat = clusterOf v % 2 ^ 32 := by
    unfold vmmAddrToCluster
    rw [if_pos hv]
    exact UInt32.toNat_ofNat
  unfold vmmTranslateVirtForFs
  rw [if_pos hv, hnat]
  by_cases hlt : clusterOf v < clusterMapMax
  · have hmod : clusterOf v % 2 ^ 32 = clusterOf v := by
      unfold clusterMapMax at hlt
      omega
    rw [hmod, if_pos hlt, if_pos hlt]
  · rcases hsafe with hsafe | ⟨hin, hzero⟩
    · exact absurd hsafe hlt
    · rw [if_pos hin, if_neg hlt, hzero]

theorem clusters_step (hw : Working s) (call : ClusterCall) (hsafe : s.Safe call) :
    Inv (s.after call) ∧ CallSound s call (s.after call) := by
  obtain ⟨place, hready⟩ := hw.ready
  cases call with
  | map c physical =>
    rcases hmap : s.vmmClusterMap c physical.toNat with ⟨r, t⟩
    have ht : s.after (.map c physical) = t := by
      show (s.vmmClusterMap c physical.toNat).2 = t
      rw [hmap]
    rw [ht]
    refine ⟨?_, ⟨fun d hd => (by cases hd), fun d _ hne _ => ?_, fun v hv => by cases hv⟩⟩ <;>
      rcases vmmClusterMap_spec hready (fun hc => (hsafe hc).2.2.2) hmap with
        ⟨-, hidle⟩ | ⟨-, hc, hbacks⟩
    · exact (hidle.working hw).inv
    · obtain ⟨hzero, hlt, hother, -⟩ := hsafe hc
      obtain ⟨place', hready'⟩ := hbacks.ready
      refine ⟨⟨place', hready'.placed⟩, hbacks.books hw.books (fun h => hzero ?_) hlt hother⟩
      exact UInt64.toNat_inj.mp h
    · rw [hidle.physMap]
    · rw [hbacks.physMap, update_of_ne]
      exact fun heq => hne physical (by rw [UInt32.toNat_inj.mp heq])
  | unmap c =>
    obtain ⟨hready', hbooks, hkeeps⟩ := unmap_books hready hw.books c
    refine ⟨⟨⟨place, hready'.placed⟩, hbooks⟩, ⟨fun d hd => (by cases hd), fun d _ _ hne => ?_,
      fun v hv => by cases hv⟩⟩
    exact hkeeps d fun h => hne (h ▸ rfl)
  | resolve c =>
    have hres := resolves hw hsafe
    refine ⟨hres.working.inv, ⟨fun d hd => ?_, fun d hd _ _ => hres.keeps d hd, fun v hv => by cases hv⟩⟩
    obtain rfl := ClusterCall.resolve.inj hd
    exact ⟨fun h => (hres.answer h).2, hres.same⟩
  | resolveRange start count =>
    obtain ⟨hw', hkeeps⟩ := range_working hw hsafe
    exact ⟨hw'.inv, ⟨fun d hd => (by cases hd), fun d hd _ _ => hkeeps d hd, fun v hv => by cases hv⟩⟩
  | translate virtual =>
    refine ⟨hw.inv, ⟨fun d hd => (by cases hd), fun _ _ _ _ => rfl, fun v hv hrange => ?_⟩⟩
    obtain rfl := ClusterCall.translate.inj hv
    exact vmmTranslateVirtForFs_eq hrange (hsafe hrange)

theorem inv_init {vm : Vmm} {place : Nat → Option (List (Fin 512))} (hplaced : Placed child vm.mem vmmPml4 place)
    (hclear : ∀ c : UInt32, c.toNat < clusterMapMax → vm.mappedFrame (vmmClusterVirt c) ≠ some 0) :
    Inv (vmmClusterSpaceInit vm) :=
  ⟨⟨place, hplaced⟩, fun _ _ h => absurd rfl h, fun c hc _ => ⟨rfl, hclear c hc⟩,
    fun _ _ _ _ h => absurd rfl h⟩

/-- **The cluster address space over whole runs.** From `vmm_cluster_space_init` on any tree of tables
that maps no cluster to frame 0, along every run of safe calls the arrays agree with the page tables,
different clusters have different frames, and the answers are right. -/
theorem clusters_run {vm : Vmm} {place : Nat → Option (List (Fin 512))} (hplaced : Placed child vm.mem vmmPml4 place)
    (hclear : ∀ c : UInt32, c.toNat < clusterMapMax → vm.mappedFrame (vmmClusterVirt c) ≠ some 0)
    {tr : List ((ClusterCall × List Nat) × Clusters)} (htr : Trace Step (vmmClusterSpaceInit vm) tr)
    (hsafe : Guarded (fun s l => (s.supplied l.2).Safe l.1) (vmmClusterSpaceInit vm) tr) :
    Sound (vmmClusterSpaceInit vm) ∧
      AllSteps (fun s l t => Sound t ∧ CallSound (s.supplied l.2) l.1 t) (vmmClusterSpaceInit vm) tr := by
  have hinv := inv_init hplaced hclear
  refine ⟨hinv.books.sound, htr.allSteps_of_guarded (I := Inv) ?_ hinv hsafe⟩
  rintro s l _ hs ⟨hfresh, rfl⟩ hcall
  obtain ⟨hnext, hsound⟩ := clusters_step (hs.working hfresh) l.1 hcall
  exact ⟨hnext, hnext.books.sound, hsound⟩

/-! ## Two runs -/

theorem walk_bare (e : PageEntry) {q : List (Fin 512)} {n : Nat} (h : (bare e).walk q = some n) : n = vmmPml4 := by
  cases q with
  | nil => exact (Option.some.inj h).symm
  | cons i q =>
    obtain ⟨t, -, hchild⟩ := Vmm.of_walk_cons h
    rw [child_of_not_present rfl] at hchild
    cases hchild

theorem fresh_init (e : PageEntry) {pages : List Nat} (hdistinct : pages.Pairwise fun a b => a = b → a = 0)
    (hsmall : ∀ n ∈ pages, n < 2 ^ 20) (hroot : ∀ n ∈ pages, n ≠ vmmPml4) :
    Fresh (vmmClusterSpaceInit (bare e)) pages :=
  ⟨hdistinct, hsmall, fun n hn _ _ hq => hroot n hn (walk_bare e hq), fun _ _ _ _ _ h => absurd rfl h⟩

theorem fresh_nil (s : Clusters) : Fresh s [] := by
  refine ⟨.nil, ?_, ?_, ?_⟩ <;> intro n hn <;> cases hn

theorem mappedFrame_bare (e : PageEntry) (v : UInt64) : (bare e).mappedFrame v = none :=
  mappedFrame_of_none (by
    rcases h : (bare e).walk (ptPath v) with _ | n
    · rfl
    · obtain ⟨t, -, hchild⟩ := Option.bind_eq_some_iff.mp h
      rw [child_of_not_present rfl] at hchild
      cases hchild)

/-- Cluster 5 is resolved, an address of it is translated, and it is unmapped. -/
def shortRun : List (ClusterCall × List Nat) :=
  [(.resolve 5, [0x100, 2, 3, 4]), (.translate 0x100000005123, []), (.unmap 5, [])]

theorem shortRun_sound : Sound (vmmClusterSpaceInit (bare .zero)) ∧
      AllSteps (fun s l t => Sound t ∧ CallSound (s.supplied l.2) l.1 t) (vmmClusterSpaceInit (bare .zero))
        (traceOf next (vmmClusterSpaceInit (bare .zero)) shortRun) := by
  refine clusters_run (ready_bare .zero).placed (fun c _ => by rw [mappedFrame_bare]; simp) ?_ ?_
  · exact .cons ⟨fresh_init .zero (by decide) (by decide) (by decide), rfl⟩
      (.cons ⟨fresh_nil _, rfl⟩ (.cons ⟨fresh_nil _, rfl⟩ (.nil _)))
  · refine ⟨fun _ _ page rest hsupply _ => ?_, fun _ => Or.inl (by decide), trivial, trivial⟩
    obtain ⟨rfl, rfl⟩ := List.cons.inj hsupply
    exact ⟨by decide, Or.inr ⟨rfl, rfl⟩⟩

/-- Right after the start, with pages that have `huge` bits in them to be handed out. -/
def staleSpace : Clusters :=
  (vmmClusterSpaceInit (bare { PageEntry.zero with huge := true })).supplied [0x100, 2, 3, 4]

/-- **Past the end of the array**: the address of cluster `2 ^ 20` is in the range, and its translation
reads past the end of `cluster_phys_map`. And where a page of a new table has `huge` bits in it, a cluster
is resolved to a frame that its page is not mapped to. -/
theorem translate_past_end : (vmmIsClusterAddr 0x100100000000 = true ∧
      (vmmClusterSpaceInit (bare .zero)).vmmTranslateVirtForFs 0x100100000000 = none) ∧
    ((staleSpace.vmmClusterResolve 5).1 = 0x100000 ∧ (staleSpace.vmmClusterResolve 5).2.present 5 = 1 ∧
      (staleSpace.vmmClusterResolve 5).2.vm.vmmGetPageEntry (vmmClusterVirt 5) = none) ∧
    ¬ ∀ tr, Trace Step (vmmClusterSpaceInit (bare .zero)) tr →
      AllSteps (fun s l t => Sound t ∧ CallSound (s.supplied l.2) l.1 t) (vmmClusterSpaceInit (bare .zero)) tr := by
  have hnone : (vmmClusterSpaceInit (bare .zero)).vmmTranslateVirtForFs 0x100100000000 = none := by
    decide
  refine ⟨⟨by decide, hnone⟩, by decide, fun hall => ?_⟩
  have hrun := hall [((.translate 0x100100000000, []), (vmmClusterSpaceInit (bare .zero)).next _)]
    (.cons ⟨fresh_nil _, rfl⟩ (.nil _))
  have htranslate := hrun.1.2.translate 0x100100000000 rfl (by decide)
  exact absurd (hnone.symm.trans htranslate) (by simp)

end Chicago95.Stage2.Clusters
