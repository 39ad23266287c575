/-
# Chicago95.Stage2.FreeChain — `brainfs_fat_free_chain` over the table and the cluster address space.

The walk reads an entry before it clears it, so that a cluster it comes to again is free and ends it: it
returns from every table (`freeChainLoop_spec`), with the clusters cleared that are reached by links, and with
no frame given back twice, as `vmm_cluster_unmap` takes the cluster's frame out of the books first.
-/
import Chicago95.Stage2.ClusterRuns
import Chicago95.Stage2.Directories

namespace Chicago95.Stage2

open Chicago95.Lib.Counting Vmm

/-! ## The code -/

/-- The volume, the cluster address space, and what `pmm_free_page` has been called with. -/
structure FreeState where
  mount : Mount
  clusters : Clusters
  freed : List Nat

namespace FreeState

/-- The cluster's frame is unmapped and given back, if it has one. -/
def releaseFrame (s : FreeState) (current : UInt32) : FreeState :=
  if s.clusters.vmmClusterPhys current ≠ 0 then
    { s with clusters := (s.clusters.vmmClusterUnmap current).2,
             freed := s.freed ++ [s.clusters.vmmClusterPhys current] }
  else s

/-- What a pass does with a cluster, once its entry has been read. -/
def freePass (s : FreeState) (current : UInt32) : FreeState :=
  let s := s.releaseFrame current
  { s with mount := s.mount.fatWriteEntry current.toNat 0 }

/-- The loop of `brainfs_fat_free_chain`, `none` where it has not come to its end. -/
def freeChainLoop : Nat → FreeState → UInt32 → Option FreeState
  | 0, _, _ => none
  | fuel + 1, s, current =>
    if 2 ≤ current.toNat ∧ current.toNat < s.mount.totalClusters then
      let entry := s.mount.entry current.toNat
      if fatIsEocValue s.mount.fatWidth entry = true then some (s.freePass current)
      else freeChainLoop fuel (s.freePass current) (UInt32.ofNat entry)
    else some s

end FreeState

/-! ## What is reached -/

namespace Mount

theorem entry_write_zero (m : Mount) (c : Nat) : (m.fatWriteEntry c 0).entry c = 0 := by
  rcases ht : m.table with _ | t
  · rw [fatWriteEntry_of_none ht, entry_of_none ht]
  · by_cases hc : c < m.totalClusters
    · exact entry_write_self (by rw [ht]; rfl) hc 0
    · unfold entry fatReadEntry
      rw [fatWriteEntry_totalClusters, if_pos (Nat.le_of_not_lt hc)]
      rfl

theorem eoc_zero (width : Nat) : fatIsEocValue width 0 = false := by
  unfold fatIsEocValue
  split <;> rfl

theorem fatNextCluster_of_zero {m : Mount} {c : Nat} (h : m.entry c = 0) : m.fatNextCluster c = 0 := by
  unfold fatNextCluster
  rw [h, eoc_zero, if_neg Bool.false_ne_true, Nat.zero_mod]

end Mount

namespace Reaches

variable {m : Mount} {c d x : Nat}

theorem trans {e : Nat} (h : Reaches m c d) (h' : Reaches m d e) : Reaches m c e := by
  induction h with
  | here => exact h'
  | next hlo hhi _ ih => exact next hlo hhi (ih h')

theorem eq_of_stop (hstop : m.fatNextCluster c = 0) (h : Reaches m c d) : d = c := by
  cases h with
  | here => rfl
  | next _ _ hrest =>
    rw [hstop] at hrest
    have := hrest.lt
    omega

theorem of_cleared (h : Reaches (m.fatWriteEntry c 0) x d) : Reaches m x d := by
  induction h with
  | here hlo hhi => exact here hlo (by rwa [Mount.fatWriteEntry_totalClusters] at hhi)
  | @next x d hlo hhi hrest ih =>
    rw [Mount.fatWriteEntry_totalClusters] at hhi
    by_cases hx : x = c
    · subst hx
      rw [Mount.fatNextCluster_of_zero (Mount.entry_write_zero m x)] at hrest
      have := hrest.lt
      omega
    · rw [Mount.fatNextCluster_congr (Mount.fatWriteEntry_fatWidth m c 0) (Mount.entry_write_of_ne m hx 0)] at ih
      exact next hlo hhi ih

theorem cleared (c : Nat) (h : Reaches m x d) :
    Reaches (m.fatWriteEntry c 0) x d ∨ d = c ∨ Reaches (m.fatWriteEntry c 0) (m.fatNextCluster c) d := by
  induction h with
  | here hlo hhi => exact Or.inl (here hlo (by rwa [Mount.fatWriteEntry_totalClusters]))
  | @next x d hlo hhi _ ih =>
    rcases ih with hrest | hcase
    · by_cases hx : x = c
      · subst hx
        exact Or.inr (Or.inr hrest)
      · rw [← Mount.fatNextCluster_congr (Mount.fatWriteEntry_fatWidth m c 0)
          (Mount.entry_write_of_ne m hx 0)] at hrest
        exact Or.inl (next hlo (by rwa [Mount.fatWriteEntry_totalClusters]) hrest)
    · exact Or.inr hcase

theorem pass_iff (hlo : 2 ≤ c) (hhi : c < m.totalClusters) :
    Reaches m c d ↔ d = c ∨ Reaches (m.fatWriteEntry c 0) (m.fatNextCluster c) d := by
  constructor
  · intro h
    rcases h.cleared c with hself | hcase
    · exact Or.inl (hself.eq_of_stop (Mount.fatNextCluster_of_zero (Mount.entry_write_zero m c)))
    · exact hcase
  · rintro (rfl | h)
    · exact here hlo hhi
    · exact next hlo hhi h.of_cleared

end Reaches

/-! ## The walk -/

namespace FreeState

variable {s : FreeState}

/-- The books are in order, and no frame that has been given back is in them. -/
structure Tidy (s : FreeState) : Prop where
  ready : ∃ place, Ready s.clusters.vm place
  books : s.clusters.Books
  once : (s.freed.map (· / pageSize)).Nodup
  gone : ∀ c : UInt32, c.toNat < clusterMapMax → s.clusters.physMap c.toNat ≠ 0 →
    s.clusters.physMap c.toNat / pageSize ∉ s.freed.map (· / pageSize)

theorem Tidy.releaseFrame (h : s.Tidy) (c : UInt32) : (s.releaseFrame c).Tidy := by
  unfold FreeState.releaseFrame
  split
  · rename_i hphys
    unfold Clusters.vmmClusterPhys at hphys ⊢
    have hc : c.toNat < clusterMapMax := by
      by_contra hmax
      rw [if_pos (by omega)] at hphys
      exact hphys rfl
    rw [if_neg (by omega)] at hphys ⊢
    obtain ⟨place, hready⟩ := h.ready
    obtain ⟨hready', hbooks', -⟩ := Clusters.unmap_books hready h.books c
    obtain ⟨pt, -, hout⟩ := Clusters.vmmClusterUnmap_tracked h.books hc hphys
    have hmap : (s.clusters.vmmClusterUnmap c).2.physMap = Function.update s.clusters.physMap c.toNat 0 := by
      rw [hout]
    refine ⟨⟨place, hready'⟩, hbooks', ?_, fun d hd htracked => ?_⟩
    · rw [List.map_append, List.map_singleton, List.nodup_append]
      refine ⟨h.once, List.nodup_singleton _, fun a ha b hb heq => ?_⟩
      rw [List.mem_singleton] at hb
      exact h.gone c hc hphys (hb ▸ heq ▸ ha)
    · dsimp only at htracked ⊢
      rw [hmap] at htracked ⊢
      have hdc : d.toNat ≠ c.toNat := fun heq => by
        rw [heq, Function.update_self] at htracked
        exact htracked rfl
      rw [Function.update_of_ne hdc] at htracked ⊢
      rw [List.map_append, List.map_singleton, List.mem_append, List.mem_singleton, not_or]
      refine ⟨h.gone d hd htracked, fun heq => hdc ?_⟩
      rw [h.books.apart d c hd hc htracked hphys heq]
  · exact h

theorem Tidy.withMount (h : s.Tidy) (m : Mount) : Tidy { s with mount := m } := ⟨h.ready, h.books, h.once, h.gone⟩

@[simp] theorem releaseFrame_mount (s : FreeState) (c : UInt32) : (s.releaseFrame c).mount = s.mount := by
  unfold releaseFrame
  split <;> rfl

/-- How many clusters are in use. -/
def used (m : Mount) : Nat := countBelow m.totalClusters fun c => decide (m.entry c ≠ 0)

theorem used_fatWriteEntry {m : Mount} {c : Nat} (hc : c < m.totalClusters) (hused : m.entry c ≠ 0) :
    used (m.fatWriteEntry c 0) + 1 = used m := by
  have hflag : (fun d => decide ((m.fatWriteEntry c 0).entry d ≠ 0)) =
      Function.update (fun d => decide (m.entry d ≠ 0)) c false := by
    funext d
    by_cases hd : d = c
    · subst hd
      rw [Function.update_self, Mount.entry_write_zero]
      rfl
    · rw [Function.update_of_ne hd, Mount.entry_write_of_ne m hd]
  have hcount := countBelow_update (fun d => decide (m.entry d ≠ 0)) hc false
  unfold used
  rw [Mount.fatWriteEntry_totalClusters, hflag]
  simpa [hused] using hcount

/-- What the walk from `current` leaves. -/
structure Cleared (s t : FreeState) (current : Nat) : Prop where
  tidy : t.Tidy
  clears : ∀ d, Reaches s.mount current d → t.mount.entry d = 0
  keeps : ∀ d, ¬ Reaches s.mount current d → t.mount.entry d = s.mount.entry d

theorem freePass_mount (s : FreeState) (c : UInt32) : (s.freePass c).mount = s.mount.fatWriteEntry c.toNat 0 := by
  unfold freePass
  dsimp only
  rw [releaseFrame_mount]

theorem Cleared.outside (h : s.Tidy) {current : Nat} (hout : ¬ (2 ≤ current ∧ current < s.mount.totalClusters)) :
    Cleared s s current where
  tidy := h
  clears _ hd := absurd hd.lt hout
  keeps _ _ := rfl

theorem Cleared.pass {t : FreeState} {current : UInt32} (hlo : 2 ≤ current.toNat)
    (hhi : current.toNat < s.mount.totalClusters)
    (h : Cleared (s.freePass current) t (s.mount.fatNextCluster current.toNat)) : Cleared s t current.toNat where
  tidy := h.tidy
  clears d hd := by
    by_cases hrest : Reaches (s.freePass current).mount (s.mount.fatNextCluster current.toNat) d
    · exact h.clears d hrest
    · rw [h.keeps d hrest]
      rw [freePass_mount] at hrest ⊢
      rcases (Reaches.pass_iff hlo hhi).mp hd with rfl | hmore
      · exact Mount.entry_write_zero _ _
      · exact absurd hmore hrest
  keeps d hd := by
    rw [Reaches.pass_iff hlo hhi, not_or] at hd
    rw [h.keeps d (by rw [freePass_mount]; exact hd.2), freePass_mount, Mount.entry_write_of_ne _ hd.1]

theorem freeChainLoop_spec (n : Nat) : ∀ {s : FreeState} (current : UInt32), used s.mount ≤ n → s.Tidy →
    ∃ t, (∀ fuel, n + 2 ≤ fuel → freeChainLoop fuel s current = some t) ∧ Cleared s t current.toNat := by
  induction n using Nat.strongRecOn with
  | ind n ih =>
    intro s current hused h
    have htidy : (s.freePass current).Tidy := h.releaseFrame current |>.withMount _
    by_cases hrange : 2 ≤ current.toNat ∧ current.toNat < s.mount.totalClusters
    swap
    · refine ⟨s, fun fuel hfuel => ?_, Cleared.outside h hrange⟩
      obtain ⟨fuel, rfl⟩ := Nat.exists_eq_add_of_le' (show 1 ≤ fuel by omega)
      rw [freeChainLoop, if_neg hrange]
    obtain ⟨hlo, hhi⟩ := hrange
    have hzero : ¬ (2 ≤ 0 ∧ 0 < (s.freePass current).mount.totalClusters) := by omega
    by_cases heoc : fatIsEocValue s.mount.fatWidth (s.mount.entry current.toNat) = true
    · refine ⟨s.freePass current, fun fuel hfuel => ?_, Cleared.pass hlo hhi ?_⟩
      · obtain ⟨fuel, rfl⟩ := Nat.exists_eq_add_of_le' (show 1 ≤ fuel by omega)
        rw [freeChainLoop, if_pos ⟨hlo, hhi⟩]
        dsimp only
        rw [if_pos heoc]
      · rw [Mount.fatNextCluster_of_eoc heoc]
        exact Cleared.outside htidy hzero
    have hnext : (UInt32.ofNat (s.mount.entry current.toNat)).toNat = s.mount.fatNextCluster current.toNat := by
      unfold Mount.fatNextCluster
      rw [if_neg heoc, UInt32.toNat_ofNat']
    have hstep : ∀ fuel, freeChainLoop (fuel + 1) s current =
        freeChainLoop fuel (s.freePass current) (UInt32.ofNat (s.mount.entry current.toNat)) := fun fuel => by
      rw [freeChainLoop, if_pos ⟨hlo, hhi⟩]
      dsimp only
      rw [if_neg heoc]
    by_cases hfree : s.mount.entry current.toNat = 0
    -- a free cluster leads to cluster 0
    · refine ⟨s.freePass current, fun fuel hfuel => ?_, Cleared.pass hlo hhi ?_⟩
      · obtain ⟨fuel, rfl⟩ := Nat.exists_eq_add_of_le' (show 2 ≤ fuel by omega)
        rw [hstep, hfree, freeChainLoop, if_neg (by simp)]
      · rw [Mount.fatNextCluster_of_zero hfree]
        exact Cleared.outside htidy hzero
    -- one in use is one less
    · have hless := used_fatWriteEntry hhi hfree
      rw [← freePass_mount] at hless
      obtain ⟨t, hrun, hcleared⟩ := ih (n - 1) (by omega) (UInt32.ofNat (s.mount.entry current.toNat))
        (show used (s.freePass current).mount ≤ n - 1 by omega) htidy
      refine ⟨t, fun fuel hfuel => ?_, Cleared.pass hlo hhi (hnext ▸ hcleared)⟩
      obtain ⟨fuel, rfl⟩ := Nat.exists_eq_add_of_le' (show 1 ≤ fuel by omega)
      rw [hstep]
      exact hrun fuel (by omega)

end FreeState

/-! ## What is to be freed -/

/-- Cluster `d` is on the chain from cluster `c` as its entries have it, none of them cut to 32 bits. -/
inductive Links (m : Mount) : Nat → Nat → Prop
  | here {c : Nat} : 2 ≤ c → c < m.totalClusters → Links m c c
  | next {c d : Nat} : 2 ≤ c → c < m.totalClusters → fatIsEocValue m.fatWidth (m.entry c) = false →
      Links m (m.entry c) d → Links m c d

/-- The walk returns, the entries that are reached are free and the others as they were, and no frame is given
back twice. -/
def FreesChain (s : FreeState) (start : UInt32) : Prop :=
  ∃ t, (∀ fuel, s.mount.totalClusters + 2 ≤ fuel → s.freeChainLoop fuel start = some t) ∧
    (∀ d, Links s.mount start.toNat d → t.mount.entry d = 0) ∧
    (∀ d, ¬ Links s.mount start.toNat d → t.mount.entry d = s.mount.entry d) ∧
    (t.freed.map (· / pageSize)).Nodup

/-- No link of the chain that is cut to 32 bits leads to a cluster in use off the chain. -/
def NoWrap (m : Mount) (start : Nat) : Prop :=
  ∀ c, Links m start c → fatIsEocValue m.fatWidth (m.entry c) = false → 2 ^ 32 ≤ m.entry c →
    2 ≤ m.entry c % 2 ^ 32 → m.entry c % 2 ^ 32 < m.totalClusters →
      m.entry (m.entry c % 2 ^ 32) = 0 ∨ Links m start (m.entry c % 2 ^ 32)

namespace Links

variable {m : Mount} {c d e : Nat}

theorem lt (h : Links m c d) : 2 ≤ c ∧ c < m.totalClusters := by
  cases h with
  | here hlo hhi => exact ⟨hlo, hhi⟩
  | next hlo hhi _ _ => exact ⟨hlo, hhi⟩

theorem lt_end (h : Links m c d) : 2 ≤ d ∧ d < m.totalClusters := by
  induction h with
  | here hlo hhi => exact ⟨hlo, hhi⟩
  | next _ _ _ _ ih => exact ih

theorem trans (h : Links m c d) (h' : Links m d e) : Links m c e := by
  induction h with
  | here => exact h'
  | next hlo hhi heoc _ ih => exact next hlo hhi heoc (ih h')

theorem reaches (htotal : m.totalClusters ≤ 2 ^ 32) (h : Links m c d) : Reaches m c d := by
  induction h with
  | here hlo hhi => exact Reaches.here hlo hhi
  | @next c d hlo hhi heoc hrest ih =>
    have hlt := hrest.lt
    rw [← Mount.fatNextCluster_of_link rfl heoc (by omega)] at ih
    exact Reaches.next hlo hhi ih

theorem of_reaches {start : Nat} (hwrap : NoWrap m start) (h : Reaches m c d) :
    Links m start c → Links m start d ∨ m.entry d = 0 := by
  induction h with
  | here => exact fun hc => Or.inl hc
  | @next c d hlo hhi hrest ih =>
    intro hc
    obtain ⟨hlo', hhi'⟩ := hrest.lt
    by_cases heoc : fatIsEocValue m.fatWidth (m.entry c) = true
    · rw [Mount.fatNextCluster_of_eoc heoc] at hlo'
      omega
    rw [Bool.not_eq_true] at heoc
    by_cases hsmall : m.entry c < 2 ^ 32
    · rw [Mount.fatNextCluster_of_link rfl heoc hsmall] at ih hlo' hhi'
      exact ih (hc.trans (next hlo hhi heoc (here hlo' hhi')))
    · have hcut : m.fatNextCluster c = m.entry c % 2 ^ 32 := by
        unfold Mount.fatNextCluster
        rw [heoc, if_neg Bool.false_ne_true]
      rw [hcut] at ih hrest hlo' hhi'
      rcases hwrap c hc heoc (by omega) hlo' hhi' with hfree | hlinked
      · rw [hrest.eq_of_stop (Mount.fatNextCluster_of_zero hfree)]
        exact Or.inr hfree
      · exact ih hlinked

end Links

theorem FreesChain.noWrap {s : FreeState} {start : UInt32} (hf : FreesChain s start) (h : s.Tidy)
    (htotal : s.mount.totalClusters < 2 ^ 32) : NoWrap s.mount start.toNat := by
  obtain ⟨t, hrun, hcleared⟩ := FreeState.freeChainLoop_spec s.mount.totalClusters start (countBelow_le _ _) h
  obtain ⟨t', hrun', -, hkeeps, -⟩ := hf
  intro c hc heoc _ hlo hhi
  have hsame : t' = t := Option.some.inj ((hrun' _ (Nat.le_refl _)).symm.trans (hrun _ (Nat.le_refl _)))
  subst hsame
  by_cases hlinked : Links s.mount start.toNat (s.mount.entry c % 2 ^ 32)
  · exact Or.inr hlinked
  -- the walk has come to it, so that it was free before
  · have hcut : s.mount.fatNextCluster c = s.mount.entry c % 2 ^ 32 := by
      unfold Mount.fatNextCluster
      rw [heoc, if_neg Bool.false_ne_true]
    have hstep : Reaches s.mount c (s.mount.entry c % 2 ^ 32) :=
      Reaches.next hc.lt_end.1 hc.lt_end.2 (by rw [hcut]; exact Reaches.here hlo hhi)
    rw [← hkeeps _ hlinked]
    exact Or.inl (hcleared.clears _ ((hc.reaches (by omega)).trans hstep))

/-- **The chain is freed exactly where nothing wraps.** -/
theorem freesChain_iff {s : FreeState} (h : s.Tidy) (htotal : s.mount.totalClusters < 2 ^ 32) (start : UInt32) :
    FreesChain s start ↔ NoWrap s.mount start.toNat := by
  refine ⟨fun hf => hf.noWrap h htotal, fun hwrap => ?_⟩
  obtain ⟨t, hrun, hcleared⟩ := FreeState.freeChainLoop_spec s.mount.totalClusters start (countBelow_le _ _) h
  refine ⟨t, hrun, fun d hd => hcleared.clears d (hd.reaches (by omega)), fun d hd => ?_, hcleared.tidy.once⟩
  by_cases hreach : Reaches s.mount start.toNat d
  · rcases Links.of_reaches hwrap hreach (Links.here hreach.lt.1 hreach.lt.2) with hlinked | hfree
    · exact absurd hlinked hd
    · rw [hcleared.clears d hreach, hfree]
  · exact hcleared.keeps d hreach

/-- A mounted volume with this table, and no frames. -/
def bareVolume (width : Nat) (table : Nat → Nat) : FreeState where
  mount := (brainfsMount 0 width).withTable table
  clusters := vmmClusterSpaceInit (bare .zero)
  freed := []

theorem bareVolume_entry (width : Nat) (table : Nat → Nat) (c : Nat) :
    (bareVolume width table).mount.entry c = if c < 1024 then table c else 0 := by
  unfold Mount.entry Mount.fatReadEntry
  show (if 1024 ≤ c then none else some (table c)).getD 0 = _
  by_cases hc : c < 1024
  · rw [if_neg (by omega), if_pos hc, Option.getD_some]
  · rw [if_pos (by omega), if_neg hc, Option.getD_none]

theorem bareVolume_tidy (width : Nat) (table : Nat → Nat) : (bareVolume width table).Tidy where
  ready := ⟨_, ready_bare .zero⟩
  books := (Clusters.inv_init (ready_bare .zero).placed fun c _ => by
    rw [Clusters.mappedFrame_bare]
    simp).books
  once := List.nodup_nil
  gone c _ htracked := absurd rfl htracked

/-- A cycle of two clusters. -/
theorem freesChain_cycle : FreesChain (bareVolume 16 fun c => if c = 2 then 3 else if c = 3 then 2 else 0) 2 := by
  refine (freesChain_iff (bareVolume_tidy _ _) (by decide) 2).mpr fun c _ _ hbig => ?_
  have hsmall : (if c = 2 then 3 else if c = 3 then 2 else 0) < 4 := by
    split
    · decide
    · split <;> decide
  rw [bareVolume_entry] at hbig
  split at hbig <;> omega

/-- The entry of cluster 2 is `2 ^ 32 + 5`. -/
def wrappedTable : Nat → Nat := fun c => if c = 2 then 0x100000005 else if c = 5 then 0xFFFFFFFFFFFFFFF8 else 0

/-- Cluster 5, which nothing links, is freed. -/
theorem wrapped_lost : ¬ FreesChain (bareVolume 64 wrappedTable) 2 := by
  intro h
  have hwrap := h.noWrap (bareVolume_tidy _ _) (by decide) 2 (Links.here (by decide) (by decide)) (by decide)
    (by decide) (by decide) (by decide)
  rcases hwrap with hfree | hlinked
  · exact absurd hfree (by decide)
  · cases hlinked with
    | next _ _ _ hrest => exact absurd hrest.lt.2 (by decide)

end Chicago95.Stage2
