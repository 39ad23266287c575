/-
# Chicago95.Stage2.Clusters — the cluster address space of `stage2/memory/vmm.c`.

Cluster `c` has the page at `CLUSTER_VA_BASE + c * PAGE_SIZE`. Two arrays say which clusters are backed
and by which frame; `vmm_cluster_map` writes them together with the page's entry, and
`vmm_cluster_resolve` backs a cluster with a zeroed page when it is first used.
-/
import Chicago95.Stage2.Mapping

namespace Chicago95.Stage2

open Chicago95.Lib.Radix
open Function (update_of_ne update_self update)

/-! ## The code -/

def clusterVaBase : Nat := 0x0000100000000000
def clusterVaLimit : Nat := 0x00007FFFFFFFFFFF
/-- The page tables, `cluster_phys_map` and `cluster_present`. -/
structure Clusters where
  vm : Vmm
  physMap : Nat → Nat
  present : Nat → Nat

def vmmClusterSpaceInit (vm : Vmm) : Clusters :=
  { vm := vm, physMap := fun _ => 0, present := fun _ => 0 }

def vmmClusterVirt (cluster : UInt32) : UInt64 :=
  UInt64.ofNat (clusterVaBase + cluster.toNat * pageSize)

def vmmIsClusterAddr (virtual : UInt64) : Bool :=
  decide (clusterVaBase ≤ virtual.toNat ∧ virtual.toNat < clusterVaLimit)

def vmmAddrToCluster (virtual : UInt64) : UInt32 :=
  if vmmIsClusterAddr virtual then UInt32.ofNat ((virtual.toNat - clusterVaBase) / pageSize) else 0

namespace Vmm

/-- `cluster_ensure_pd`, without the index that it returns as well. -/
def clusterEnsurePd (s : Vmm) (virt : UInt64) : Option Nat × Vmm :=
  match s.vmmGetPdpt vmmPml4 virt true with
  | (none, s) => (none, s)
  | (some pdpt, s) => s.vmmGetPd pdpt virt true

/-- Entry `i` of the page table that a huge page is split into. -/
def splitEntry (e : PageEntry) (base : Nat) (i : Fin 512) : PageEntry :=
  { e with present := true, rw := true, user := false, global := true }.setFrame (base + i * pageSize)

/-- The first step of `vmm_cluster_map`: a huge page is split; `false` is its error return. (`frame << 21`
is computed in the 40 bits of the field.) -/
def clusterSplit (s : Vmm) (pd : Nat) (i : Fin 512) : Bool × Vmm :=
  if (s.mem pd i).huge && (s.mem pd i).present then
    match s.vmmAllocTable with
    | (none, s) => (false, s)
    | (some table, s) =>
      let base := (s.mem pd i).frame * 2 ^ 21 % 2 ^ 40
      let filled := fun j => splitEntry (s.mem table j) base j
      let s : Vmm := { s with mem := update s.mem table filled }
      (true, s.setEntry pd i ({ s.mem pd i with huge := false }.setFrame
        (ofPointer (toPointer (table * pageSize)))))
  else (true, s)

/-- The second step: a missing page table is made. -/
def clusterTable (s : Vmm) (pd : Nat) (i : Fin 512) : Bool × Vmm :=
  if (s.mem pd i).present then (true, s)
  else
    match s.vmmAllocTable with
    | (none, s) => (false, s)
    | (some table, s) => (true, s.setEntry pd i ((s.mem pd i).link table))

/-- The third step: the entry is written, whatever it is. The pointer to the page table is not checked. -/
def clusterWrite (s : Vmm) (pd : Nat) (virt : UInt64) (physical : Nat) : Vmm :=
  let pt := (s.mem pd (index 21 virt)).frame % 2 ^ 20
  s.setEntry pt (index 12 virt) ({ s.mem pt (index 12 virt) with
    present := true, rw := true, user := false, global := true, cacheDis := false,
    nx := false }.setFrame physical)

/-- The loop that fills a page with zeros. -/
def zeroPage (s : Vmm) (page : Nat) : Vmm :=
  { s with mem := update s.mem page fun _ => PageEntry.zero }

end Vmm

namespace Clusters

def vmmClusterPhys (s : Clusters) (cluster : UInt32) : Nat :=
  if clusterMapMax ≤ cluster.toNat then 0 else s.physMap cluster.toNat

def vmmClusterMap (s : Clusters) (cluster : UInt32) (physical : Nat) : Int × Clusters :=
  if clusterMapMax ≤ cluster.toNat then (-1, s)
  else
    let virt := vmmClusterVirt cluster
    match s.vm.clusterEnsurePd virt with
    | (none, vm) => (-1, { s with vm := vm })
    | (some pd, vm) =>
      match vm.clusterSplit pd (index 21 virt) with
      | (false, vm) => (-1, { s with vm := vm })
      | (true, vm) =>
        match vm.clusterTable pd (index 21 virt) with
        | (false, vm) => (-1, { s with vm := vm })
        | (true, vm) =>
          (0, { vm := vm.clusterWrite pd virt physical
                physMap := update s.physMap cluster.toNat physical
                present := update s.present cluster.toNat 1 })

def vmmClusterUnmap (s : Clusters) (cluster : UInt32) : Int × Clusters :=
  if clusterMapMax ≤ cluster.toNat ∨ s.present cluster.toNat = 0 then (-1, s)
  else
    let virt := vmmClusterVirt cluster
    match (s.vm.vmmGetPdpt vmmPml4 virt false).1 with
    | none => (-1, s)
    | some pdpt =>
      match (s.vm.vmmGetPd pdpt virt false).1 with
      | none => (-1, s)
      | some pd =>
        if (s.vm.mem pd (index 21 virt)).huge then (-1, s)
        else
          match (s.vm.vmmGetPt pd virt false).1 with
          | none => (-1, s)
          | some pt =>
            let i := index 12 virt
            (0, { vm := s.vm.setEntry pt i { s.vm.mem pt i with present := false, frame := 0 }
                  physMap := update s.physMap cluster.toNat 0
                  present := update s.present cluster.toNat 0 })

/-- `vmm_cluster_resolve`. -/
def vmmClusterResolve (s : Clusters) (cluster : UInt32) : Nat × Clusters :=
  if clusterMapMax ≤ cluster.toNat then (0, s)
  else if s.physMap cluster.toNat ≠ 0 then
    match s.vm.vmmGetPageEntry (vmmClusterVirt cluster) with
    | none => (s.physMap cluster.toNat, s)
    | some (pt, i) =>
      if (s.vm.mem pt i).present then (s.physMap cluster.toNat, s)
      else
        let entry := { s.vm.mem pt i with present := true, rw := true, global := true }
        (s.physMap cluster.toNat, { s with vm := s.vm.setEntry pt i entry })
  else
    match s.vm.pmmAllocPage with
    | (none, vm) => (0, { s with vm := vm })
    | (some page, vm) =>
      let phys := ofPointer (toPointer (page * pageSize))
      match ({ s with vm := vm.zeroPage page } : Clusters).vmmClusterMap cluster phys with
      | (r, s) => if r < 0 then (0, s) else (phys, s)

/-- `vmm_cluster_resolve_range`: the clusters that remain, from `start` on. -/
def vmmClusterResolveRange (s : Clusters) (start : UInt32) : Nat → Int × Clusters
  | 0 => (0, s)
  | n + 1 =>
    match s.vmmClusterResolve start with
    | (phys, s) => if phys = 0 then (-1, s) else s.vmmClusterResolveRange (start + 1) n

/-- `vmm_translate_virt_for_fs`, `none` where it reads past the end of `cluster_phys_map`. -/
def vmmTranslateVirtForFs (s : Clusters) (virtual : UInt64) : Option Nat :=
  if vmmIsClusterAddr virtual then
    if (vmmAddrToCluster virtual).toNat < clusterMapMax then
      some (s.physMap (vmmAddrToCluster virtual).toNat)
    else none
  else some (s.vm.vmmGetPhysical virtual)

end Clusters

namespace Vmm

/-! ## What a page is mapped to -/

/-- The frame of the entry of a page, `none` where the entry is missing or not present. -/
def mappedFrame (s : Vmm) (v : UInt64) : Option Nat :=
  (s.walk (ptPath v)).bind fun pt =>
    if (s.mem pt (index 12 v)).present then some (s.mem pt (index 12 v)).frame else none

section

variable {s s' : Vmm} {place place' : Nat → Option (List (Fin 512))} {t n : Nat} {i : Fin 512}
  {p : List (Fin 512)} {v w : UInt64}

theorem mappedFrame_of_walk {pt : Nat} (h : s.walk (ptPath v) = some pt) : s.mappedFrame v =
      if (s.mem pt (index 12 v)).present then some (s.mem pt (index 12 v)).frame else none := by
  unfold mappedFrame
  rw [h]
  rfl

theorem mappedFrame_of_none (h : s.walk (ptPath v) = none) : s.mappedFrame v = none := by
  unfold mappedFrame
  rw [h]
  rfl

theorem of_mappedFrame {f : Nat} (h : s.mappedFrame v = some f) :
    ∃ pt, s.walk (ptPath v) = some pt ∧ (s.mem pt (index 12 v)).present = true ∧ (s.mem pt (index 12 v)).frame = f := by
  obtain ⟨pt, hpt, hentry⟩ := Option.bind_eq_some_iff.mp h
  refine ⟨pt, hpt, ?_⟩
  split at hentry
  · rename_i hpresent
    exact ⟨hpresent, Option.some.inj hentry⟩
  · cases hentry

theorem mappedFrame_congr (hwalk : s'.walk (ptPath v) = s.walk (ptPath v))
    (hmem : ∀ pt, s.walk (ptPath v) = some pt → s'.mem pt (index 12 v) = s.mem pt (index 12 v)) :
    s'.mappedFrame v = s.mappedFrame v := by
  unfold mappedFrame
  rw [hwalk]
  rcases hpt : s.walk (ptPath v) with _ | pt
  · rfl
  · simp only [Option.bind_some, hmem pt hpt]

theorem Obtains.mappedFrame_eq (hready : Ready s place) (h : Obtains s s' place place' t n i p)
    (hp : p.length ≤ 2) (hplace : place t = some p) (hwalk : ∀ u, s.walk p = some u → u = t)
    (w : UInt64) : s'.mappedFrame w = s.mappedFrame w := by
  by_cases hpath : ptPath w = i :: p
  · rcases hw : s.walk (ptPath w) with _ | u
    · rw [mappedFrame_of_none hw]
      rcases hw' : s'.walk (ptPath w) with _ | u'
      · exact mappedFrame_of_none hw'
      · -- the table is new, and empty
        rw [hpath] at hw hw'
        rcases hwp : s.walk p with _ | t'
        · rw [walk_cons_of_none ((h.walk_ne p (by simp)).trans hwp)] at hw'
          cases hw'
        · obtain rfl := hwalk t' hwp
          have hu' : u' = n := h.walk_unique hwp u' hw'
          rw [mappedFrame_of_walk (hpath ▸ hw'), hu', h.empty hwp hw]
          rfl
    · rw [hpath] at hw
      rcases hwp : s.walk p with _ | t'
      · rw [walk_cons_of_none hwp] at hw
        cases hw
      · obtain rfl := hwalk t' hwp
        rw [(h.same u hwp hw).1]
  · refine mappedFrame_congr (h.walk_ne _ hpath) fun pt hpt => ?_
    have hplace' := hready.place_of_walk hpt
    refine h.kept pt _ (by simp [hplace']) (Or.inl ?_)
    rintro ⟨rfl, -⟩
    have := Option.some.inj (hplace.symm.trans hplace')
    rw [this] at hp
    simp at hp

theorem mappedFrame_setEntry_self {e : PageEntry} {pt : Nat} (h : Ready s place) (hpt : s.walk (ptPath v) = some pt) :
    (s.setEntry pt (index 12 v) e).mappedFrame v = if e.present then some e.frame else none := by
  have hwalk : (s.setEntry pt (index 12 v) e).walk (ptPath v) = some pt := by
    rw [walk_setEntry h (h.place_of_walk hpt) rfl (by simp), hpt]
  rw [mappedFrame_of_walk hwalk, setEntry_mem_self]

theorem mappedFrame_setEntry_of_ne {e : PageEntry} {pt : Nat} (h : Ready s place)
    (hpt : s.walk (ptPath v) = some pt) (hw : pageOf w ≠ pageOf v) :
    (s.setEntry pt (index 12 v) e).mappedFrame w = s.mappedFrame w := by
  refine mappedFrame_congr (walk_setEntry h (h.place_of_walk hpt) rfl (by simp)) fun u hu => ?_
  refine setEntry_mem_of_ne ?_
  rintro ⟨rfl, hi⟩
  exact hw (pageOf_eq_iff.mpr
    ⟨h.placed.walk_inj hu hpt, hi⟩)

theorem Ready.setEntry_leaf {e : PageEntry} {pt : Nat} (h : Ready s place)
    (hpt : place pt = some (ptPath v)) (j : Fin 512) : Ready (s.setEntry pt j e) place where
  placed := by
    refine h.placed.congr fun t p i ht => ?_
    by_cases hentry : t = pt ∧ i = j
    · obtain ⟨rfl, rfl⟩ := hentry
      obtain rfl := Option.some.inj (hpt.symm.trans ht)
      exact Or.inr rfl
    · exact Or.inl (by rw [setEntry_mem_of_ne hentry])
  small := h.small
  fresh := h.fresh
  distinct := h.distinct

theorem Ready.zeroPage (h : Ready s place) (hn : place n = none) : Ready (s.zeroPage n) place where
  placed := by
    refine h.placed.congr fun t p i ht => Or.inl ?_
    have hne : t ≠ n := by
      rintro rfl
      rw [hn] at ht
      cases ht
    simp only [Vmm.zeroPage, update_of_ne hne]
  small := h.small
  fresh := h.fresh
  distinct := h.distinct

theorem zeroPage_mem_of_placed (hn : place n = none) {u : Nat} (hu : place u ≠ none) :
    (s.zeroPage n).mem u = s.mem u := by
  have hne : u ≠ n := fun h => hu (h ▸ hn)
  simp only [Vmm.zeroPage, update_of_ne hne]

theorem walk_zeroPage (h : Ready s place) (hn : place n = none) (q : List (Fin 512)) :
    (s.zeroPage n).walk q = s.walk q := by
  refine h.placed.walk_congr fun u r j hu _ => ?_
  rw [zeroPage_mem_of_placed hn (by simp [hu])]

theorem mappedFrame_zeroPage (h : Ready s place) (hn : place n = none) (w : UInt64) :
    (s.zeroPage n).mappedFrame w = s.mappedFrame w :=
  mappedFrame_congr (walk_zeroPage h hn _) fun pt hpt => by
    rw [zeroPage_mem_of_placed hn (by simp [h.place_of_walk hpt])]

end

/-! ## The steps of `vmm_cluster_map` -/

/-- An entry of the PD that `vmm_cluster_map` handles: one that is not present is not marked huge either,
a huge page does not put frame 0 into another page, and a page table is there. -/
def EntrySafe (e : PageEntry) (i : Fin 512) : Prop :=
  if e.present then (if e.huge then e.frame % 2 ^ 19 ≠ 0 ∨ i.val = 0 else e.table ≠ none)
  else e.huge = false

/-- **When a page can be backed**: the entries that will lead to a new table are not marked huge, with the
contents of the pages that the tables are made from, and the entry of the PD is safe if it was there. -/
def Backable (s : Vmm) (v : UInt64) : Prop :=
  match s.walk (pdptPath v) with
  | none => (s.mem vmmPml4 (index 39 v)).present = true ∨
      (s.mem (s.supply.headD 0) (index 30 v)).huge = false ∧
        (s.mem (s.supply.tail.headD 0) (index 21 v)).huge = false
  | some pdpt =>
    match s.walk (pdPath v) with
    | none => (s.mem pdpt (index 30 v)).present = true ∨
        (s.mem pdpt (index 30 v)).huge = false ∧
          (s.mem (s.supply.headD 0) (index 21 v)).huge = false
    | some pd => EntrySafe (s.mem pd (index 21 v)) (index 12 v)

section Steps

variable {s s' : Vmm} {place : Nat → Option (List (Fin 512))} {v : UInt64} {pd : Nat}

/-- What the steps keep of the page tables: the tree, the pages that are left, and every mapping. -/
structure Quiet (s s' : Vmm) (place' : Nat → Option (List (Fin 512))) : Prop where
  ready : Ready s' place'
  supply : s'.supply <:+ s.supply
  mapped : ∀ w, s'.mappedFrame w = s.mappedFrame w

theorem Quiet.trans {s'' : Vmm} {place' place'' : Nat → Option (List (Fin 512))}
    (h : Quiet s s' place') (h' : Quiet s' s'' place'') : Quiet s s'' place'' :=
  ⟨h'.ready, h'.supply.trans h.supply, fun w => (h'.mapped w).trans (h.mapped w)⟩

theorem quiet_of_mem (h : Ready s place) (hmem : s'.mem = s.mem) (hsupply : s'.supply <:+ s.supply) :
    Quiet s s' place := by
  refine ⟨h.of_suffix hmem hsupply, hsupply, fun w => ?_⟩
  unfold mappedFrame walk
  rw [hmem]

theorem Obtains.quiet {place' : Nat → Option (List (Fin 512))} {t n : Nat} {i : Fin 512}
    {p : List (Fin 512)} (hready : Ready s place) (h : Obtains s s' place place' t n i p)
    (hp : p.length ≤ 2) (hplace : place t = some p) (hwalk : ∀ u, s.walk p = some u → u = t) : Quiet s s' place' :=
  ⟨h.ready, h.supply, h.mappedFrame_eq hready hp hplace hwalk⟩

theorem absent_of_walk_none {t n : Nat} {i : Fin 512} {p : List (Fin 512)} (hp : p.length ≤ 2)
    (hwalk : s.walk p = some t) (hnone : s.walk (i :: p) = none)
    (hget : getTable (p.length != 0) s t i true = (some n, s')) :
    (s.mem t i).present = false ∧ n = s.supply.headD 0 ∧ s'.supply = s.supply.tail := by
  rcases getTable_some hp hget with ⟨-, hchild⟩ | ⟨rest, hsupply, -, habsent, rfl⟩
  · rw [walk_step hwalk, hchild] at hnone
    cases hnone
  · refine ⟨habsent, ?_, ?_⟩ <;> rw [hsupply]
    · rfl
    · rfl

theorem clusterEnsurePd_some (h : Ready s place) (hsafe : s.Backable v) (hget : s.clusterEnsurePd v = (some pd, s')) :
    ∃ place', Quiet s s' place' ∧ s'.walk (pdPath v) = some pd ∧ EntrySafe (s'.mem pd (index 21 v)) (index 12 v) := by
  unfold clusterEnsurePd at hget
  rcases hget₁ : s.vmmGetPdpt vmmPml4 v true with ⟨_ | pdpt, s₁⟩
  · simp [hget₁] at hget
  rw [hget₁] at hget
  have h₁ := obtains_of_getTable (p := []) h (by simp) h.placed.root_eq
    (fun u hu => (Option.some.inj hu).symm) hget₁
  have hwalk₁ : s₁.walk (pdptPath v) = some pdpt := by simpa using h₁.walk_self rfl
  have h₂ := obtains_of_getTable (p := pdptPath v) h₁.ready (by simp) h₁.place_self
    (fun u hu => by rw [hwalk₁] at hu; exact (Option.some.inj hu).symm) hget
  have hquiet := (h₁.quiet h (by simp) h.placed.root_eq fun u hu => (Option.some.inj hu).symm).trans
    (h₂.quiet h₁.ready (by simp) h₁.place_self fun u hu => by
      rw [hwalk₁] at hu; exact (Option.some.inj hu).symm)
  refine ⟨_, hquiet, ?_⟩
  -- A PD that is new is empty, and its entry is as huge as the page it was made from.
  have hnew : s₁.walk (pdPath v) = none → (s.mem pdpt (index 30 v)).huge = false →
      (s.mem pd (index 21 v)).huge = false →
      s'.walk (pdPath v) = some pd ∧ EntrySafe (s'.mem pd (index 21 v)) (index 12 v) := by
    intro hnone hg hm
    refine ⟨?_, ?_⟩
    · rw [h₂.walk_self hwalk₁, h₁.huge, hg]
      simp
    · unfold EntrySafe
      rw [h₂.empty hwalk₁ hnone, h₂.huge, h₁.huge, hm]
      simp
  unfold Backable at hsafe
  rcases h3 : s.walk (pdptPath v) with _ | u3
  · rw [h3] at hsafe
    obtain ⟨habsent, rfl, hsupply⟩ := absent_of_walk_none (p := []) (by simp) rfl h3 hget₁
    have hnone : s₁.walk (pdPath v) = none := by
      rw [h₁.walk_ne _ (by simp [pdPath])]
      exact walk_pd_of_none h3
    obtain ⟨-, rfl, -⟩ := absent_of_walk_none (by simp) hwalk₁ hnone hget
    rcases hsafe with hpresent | ⟨hg, hm⟩
    · rw [habsent] at hpresent
      cases hpresent
    · exact hnew hnone hg (hsupply ▸ hm)
  · obtain ⟨rfl, rfl⟩ := h₁.same u3 rfl h3
    rw [h3] at hsafe
    rcases h2 : s₁.walk (pdPath v) with _ | u2
    · rw [h2] at hsafe
      obtain ⟨habsent, rfl, -⟩ := absent_of_walk_none (by simp) hwalk₁ h2 hget
      rcases hsafe with hpresent | ⟨hg, hm⟩
      · rw [habsent] at hpresent
        cases hpresent
      · exact hnew h2 hg hm
    · rw [h2] at hsafe
      obtain ⟨rfl, rfl⟩ := h₂.same u2 hwalk₁ h2
      exact ⟨h2, hsafe⟩

theorem clusterEnsurePd_none (h : Ready s place) (hget : s.clusterEnsurePd v = (none, s')) :
    ∃ place', Quiet s s' place' := by
  unfold clusterEnsurePd at hget
  rcases hget₁ : s.vmmGetPdpt vmmPml4 v true with ⟨_ | pdpt, s₁⟩
  · rw [hget₁] at hget
    obtain ⟨-, rfl⟩ := Prod.mk.inj hget
    obtain ⟨hmem, hsupply⟩ := getTable_none hget₁
    exact ⟨place, quiet_of_mem h hmem hsupply⟩
  · rw [hget₁] at hget
    have h₁ := obtains_of_getTable (p := []) h (by simp) h.placed.root_eq
      (fun u hu => (Option.some.inj hu).symm) hget₁
    obtain ⟨hmem, hsupply⟩ := getTable_none hget
    exact ⟨_, (h₁.quiet h (by simp) h.placed.root_eq fun u hu => (Option.some.inj hu).symm).trans
      (quiet_of_mem h₁.ready hmem hsupply)⟩

/-- **The page table is there**, for the entry to be written, and no other page is mapped to something
else; only pages that were not mapped may come to be, and not to frame 0. -/
structure TableReady (s s' : Vmm) (v : UInt64) (pd : Nat) : Prop where
  ready : ∃ place', Ready s' place'
  supply : s'.supply <:+ s.supply
  walk : s'.walk (ptPath v) = some ((s'.mem pd (index 21 v)).frame % 2 ^ 20)
  others : ∀ w, pageOf w ≠ pageOf v → s'.mappedFrame w = s.mappedFrame w ∨
    (s.mappedFrame w = none ∧ s'.mappedFrame w ≠ some 0)

theorem frame_of_table {e : PageEntry} {n : Nat} (h : e.table = some n) : e.frame % 2 ^ 20 = n := by
  unfold PageEntry.table at h
  split at h
  · cases h
  · exact Option.some.inj h

theorem clusterTable_absent {i : Fin 512} (hpresent : (s.mem pd i).present = false) :
    s.clusterTable pd i = ((getTable true s pd i true).1.isSome, (getTable true s pd i true).2) := by
  unfold clusterTable getTable
  simp only [hpresent, Bool.false_eq_true, if_false, if_true]
  rcases s.vmmAllocTable with ⟨_ | n, s₁⟩ <;> rfl

theorem clusterTable_spec (h : Ready s place) (hwalk : s.walk (pdPath v) = some pd)
    (hsafe : EntrySafe (s.mem pd (index 21 v)) (index 12 v))
    (hsmall : ((s.mem pd (index 21 v)).huge && (s.mem pd (index 21 v)).present) = false) :
    (∀ s', s.clusterTable pd (index 21 v) = (true, s') → TableReady s s' v pd) ∧
      ∀ s', s.clusterTable pd (index 21 v) = (false, s') → Quiet s s' place := by
  have hplace := h.place_of_walk hwalk
  rcases hpresent : (s.mem pd (index 21 v)).present with _ | _
  · -- an absent entry: what is done is what `vmm_get_pt` does
    have hhuge : (s.mem pd (index 21 v)).huge = false := by
      unfold EntrySafe at hsafe
      simpa [hpresent] using hsafe
    rcases hgot : getTable true s pd (index 21 v) true with ⟨_ | n, s₁⟩
    · rw [clusterTable_absent hpresent, hgot]
      refine ⟨fun s' htrue => (by cases htrue), fun s' hfalse => ?_⟩
      obtain ⟨-, rfl⟩ := Prod.mk.inj hfalse
      obtain ⟨hmem, hsupply⟩ := getTable_none hgot
      exact quiet_of_mem h hmem hsupply
    · rw [clusterTable_absent hpresent, hgot]
      refine ⟨fun s' htrue => ?_, fun s' hfalse => by cases hfalse⟩
      obtain ⟨-, rfl⟩ := Prod.mk.inj htrue
      have hobt := obtains_of_getTable (p := pdPath v) h (by simp) hplace (walk_unique hwalk) hgot
      refine ⟨⟨_, hobt.ready⟩, hobt.supply, ?_, fun w _ =>
        Or.inl (hobt.mappedFrame_eq h (by simp) hplace (walk_unique hwalk) w)⟩
      have hself : s₁.walk (ptPath v) = some n := by
        rw [hobt.walk_self hwalk, hhuge]
        simp
      have hpd : s₁.walk (pdPath v) = some pd := by
        rw [hobt.walk_ne _ (by simp [pdPath]), hwalk]
      have hchild := (walk_step hpd (index 21 v)).symm.trans hself
      rw [frame_of_table (of_child hchild).2.1]
      exact hself
  · -- a present one, which leads to its page table
    have hhuge : (s.mem pd (index 21 v)).huge = false := by simpa [hpresent] using hsmall
    have htable : (s.mem pd (index 21 v)).table ≠ none := by
      unfold EntrySafe at hsafe
      simpa [hpresent, hhuge] using hsafe
    obtain ⟨pt, hpt⟩ := Option.ne_none_iff_exists'.mp htable
    have hsame : s.clusterTable pd (index 21 v) = (true, s) := by
      unfold clusterTable
      rw [hpresent]
      rfl
    rw [hsame]
    refine ⟨fun s' htrue => ?_, fun s' hfalse => by cases hfalse⟩
    obtain ⟨-, rfl⟩ := Prod.mk.inj htrue
    refine ⟨⟨place, h⟩, List.suffix_refl _, ?_, fun w _ => Or.inl rfl⟩
    rw [walk_step hwalk, frame_of_table hpt]
    simp [child, hpresent, hhuge, hpt]

theorem clusterSplit_spec (h : Ready s place) (hwalk : s.walk (pdPath v) = some pd)
    (hsafe : EntrySafe (s.mem pd (index 21 v)) (index 12 v))
    (hhuge : (s.mem pd (index 21 v)).huge = true) (hpresent : (s.mem pd (index 21 v)).present = true) :
    (∀ s', s.clusterSplit pd (index 21 v) = (true, s') →
        TableReady s s' v pd ∧ (s'.mem pd (index 21 v)).present = true) ∧
      ∀ s', s.clusterSplit pd (index 21 v) = (false, s') → Quiet s s' place := by
  have hplace := h.place_of_walk hwalk
  unfold clusterSplit
  rw [hhuge, hpresent, Bool.and_true, if_pos rfl]
  rcases halloc : s.vmmAllocTable with ⟨_ | n, s₁⟩
  · refine ⟨fun s' htrue => (by cases htrue), fun s' hfalse => ?_⟩
    obtain ⟨-, rfl⟩ := Prod.mk.inj hfalse
    obtain ⟨hmem, hsupply⟩ := vmmAllocTable_none halloc
    exact quiet_of_mem h hmem hsupply
  · obtain ⟨rest, hsupply, hzero, rfl⟩ := vmmAllocTable_some halloc
    refine ⟨fun s' htrue => ?_, fun s' hfalse => by cases hfalse⟩
    have hs' := (Prod.mk.inj htrue).2
    have hmem : n ∈ s.supply := by rw [hsupply]; exact List.mem_cons_self
    have hfresh : place n = none := h.fresh n hmem hzero
    have hne : pd ≠ n := by
      rintro rfl
      rw [hfresh] at hplace
      cases hplace
    have hself : s'.mem pd (index 21 v) = ({ s.mem pd (index 21 v) with huge := false }.setFrame
        (ofPointer (toPointer (n * pageSize)))) := by
      rw [← hs', setEntry_mem_self]
      simp [clearTable, update_of_ne hne]
    have hothers : ∀ u j, u ≠ n → ¬(u = pd ∧ j = index 21 v) → s'.mem u j = s.mem u j := by
      intro u j hu hentry
      rw [← hs', setEntry_mem_of_ne hentry]
      simp [clearTable, update_of_ne hu]
    have hnew : ∀ j, (s'.mem n j).present = true ∧
        (s'.mem n j).frame = (s.mem pd (index 21 v)).frame * 2 ^ 9 % 2 ^ 28 + j := by
      intro j
      rw [← hs', setEntry_mem_of_ne fun he => hne he.1.symm]
      simp only [clearTable, splitEntry, PageEntry.setFrame, update_self,
        update_of_ne hne, pageSize, true_and]
      have := j.isLt
      omega
    have htable : (s'.mem pd (index 21 v)).table = some n := by
      rw [hself]
      exact table_setFrame _ (h.small n hmem) hzero
    have hpresent' : (s'.mem pd (index 21 v)).present = true := by
      rw [hself]
      exact hpresent
    have hchild : child 2 (s'.mem pd (index 21 v)) = some n := by
      have hh : (s'.mem pd (index 21 v)).huge = false := by rw [hself]; rfl
      simp [child, hpresent', hh, htable]
    have hleads : ∀ u, child (pdPath v).length (s'.mem pd (index 21 v)) = some u → u = n := by
      intro u hu
      exact Option.some.inj (hu.symm.trans hchild)
    have hold : child (pdPath v).length (s.mem pd (index 21 v)) = none := child_of_huge (by simp) hhuge
    have hwalk' : ∀ q, q ≠ ptPath v → s'.walk q = s.walk q := fun q hq =>
      h.placed.walk_link_of_ne (walk_unique hwalk) hplace hfresh hold hothers hleads (fun _ => rfl) hq
    have hpt : s'.walk (ptPath v) = some n := by
      rw [walk_step ((hwalk' _ (by simp [pdPath])).trans hwalk)]
      exact hchild
    have hrest : s'.supply = rest := by rw [← hs']; rfl
    refine ⟨⟨⟨_, h.take (hrest ▸ hsupply) hzero
      (h.placed.link hplace hfresh hothers hleads fun _ => rfl)⟩, ?_, ?_, fun w hw => ?_⟩, hpresent'⟩
    · rw [hrest, hsupply]
      exact List.suffix_cons _ _
    · rw [hpt, frame_of_table htable]
    · by_cases hpath : ptPath w = ptPath v
      · -- a page of the huge page
        refine Or.inr ⟨mappedFrame_of_none ?_, ?_⟩
        · rw [hpath, walk_step hwalk]
          exact hold
        · obtain ⟨hp, hf⟩ := hnew (index 12 w)
          rw [mappedFrame_of_walk (hpath ▸ hpt), hp, if_pos rfl, hf]
          intro hzero'
          have hsum := Option.some.inj hzero'
          have hframe : (s.mem pd (index 21 v)).frame % 2 ^ 19 = 0 := by omega
          have hfirst : (index 12 w).val = 0 := by omega
          unfold EntrySafe at hsafe
          rw [hpresent, if_pos rfl, hhuge, if_pos rfl] at hsafe
          rcases hsafe with hsafe | hsafe
          · exact hsafe hframe
          · exact hw (pageOf_eq_iff.mpr ⟨hpath, Fin.ext (hfirst.trans hsafe.symm)⟩)
      · refine Or.inl (mappedFrame_congr (hwalk' _ hpath) fun u hu => hothers u _ ?_ ?_)
        · rintro rfl
          rw [h.place_of_walk hu] at hfresh
          cases hfresh
        · rintro ⟨rfl, -⟩
          have := h.placed.walk_inj hwalk hu
          exact absurd (congrArg List.length this) (by simp)

theorem clusterPages_spec (h : Ready s place) (hsafe : s.Backable v) (pd : Nat) :
    (∀ s₁, s.clusterEnsurePd v = (none, s₁) → ∃ place', Quiet s s₁ place') ∧ ∀ s₁, s.clusterEnsurePd v = (some pd, s₁) →
      (∀ s₂, s₁.clusterSplit pd (index 21 v) = (false, s₂) → ∃ place', Quiet s s₂ place') ∧
      ∀ s₂, s₁.clusterSplit pd (index 21 v) = (true, s₂) →
        (∀ s₃, s₂.clusterTable pd (index 21 v) = (false, s₃) → ∃ place', Quiet s s₃ place') ∧
        ∀ s₃, s₂.clusterTable pd (index 21 v) = (true, s₃) → TableReady s s₃ v pd := by
  refine ⟨fun s₁ hnone => clusterEnsurePd_none h hnone, fun s₁ hsome => ?_⟩
  obtain ⟨place₁, hquiet, hwalk, hentry⟩ := clusterEnsurePd_some h hsafe hsome
  have hlift : ∀ {s₃}, TableReady s₁ s₃ v pd → TableReady s s₃ v pd := fun ht =>
    ⟨ht.ready, ht.supply.trans hquiet.supply, ht.walk, fun w hw => by
      rw [← hquiet.mapped w]
      exact ht.others w hw⟩
  rcases hsplit : (s₁.mem pd (index 21 v)).huge && (s₁.mem pd (index 21 v)).present with _ | _
  · have hsame : s₁.clusterSplit pd (index 21 v) = (true, s₁) := by
      unfold clusterSplit
      rw [hsplit]
      rfl
    rw [hsame]
    refine ⟨fun s₂ hfalse => (by cases hfalse), fun s₂ htrue => ?_⟩
    obtain ⟨-, rfl⟩ := Prod.mk.inj htrue
    obtain ⟨hready, hfail⟩ := clusterTable_spec hquiet.ready hwalk hentry hsplit
    exact ⟨fun s₃ hfalse => ⟨_, hquiet.trans (hfail s₃ hfalse)⟩, fun s₃ htrue => hlift (hready s₃ htrue)⟩
  · rw [Bool.and_eq_true] at hsplit
    obtain ⟨hready, hfail⟩ := clusterSplit_spec hquiet.ready hwalk hentry hsplit.1 hsplit.2
    refine ⟨fun s₂ hfalse => ⟨_, hquiet.trans (hfail s₂ hfalse)⟩, fun s₂ htrue => ?_⟩
    obtain ⟨htable, hpresent⟩ := hready s₂ htrue
    have hsame : s₂.clusterTable pd (index 21 v) = (true, s₂) := by
      unfold clusterTable
      rw [hpresent]
      rfl
    rw [hsame]
    refine ⟨fun s₃ hfalse => (by cases hfalse), fun s₃ htrue => ?_⟩
    obtain ⟨-, rfl⟩ := Prod.mk.inj htrue
    exact hlift htable

end Steps

end Vmm

namespace Clusters

open Vmm

/-! ## Backing a cluster -/

/-- Nothing is backed: arrays and mappings stay. -/
structure Idle (s t : Clusters) : Prop where
  ready : ∃ place, Ready t.vm place
  supply : t.vm.supply <:+ s.vm.supply
  physMap : t.physMap = s.physMap
  present : t.present = s.present
  mapped : ∀ w, t.vm.mappedFrame w = s.vm.mappedFrame w

/-- Cluster `c` is backed by the page at `physical`. -/
structure Backs (s t : Clusters) (c : UInt32) (physical : Nat) : Prop where
  ready : ∃ place, Ready t.vm place
  supply : t.vm.supply <:+ s.vm.supply
  physMap : t.physMap = update s.physMap c.toNat physical
  present : t.present = update s.present c.toNat 1
  mapped : t.vm.mappedFrame (vmmClusterVirt c) = some (physical / pageSize % 2 ^ 36)
  others : ∀ w, pageOf w ≠ pageOf (vmmClusterVirt c) → t.vm.mappedFrame w = s.vm.mappedFrame w ∨
    (s.vm.mappedFrame w = none ∧ t.vm.mappedFrame w ≠ some 0)

theorem vmmClusterMap_spec {s t : Clusters} {place : Nat → Option (List (Fin 512))} {c : UInt32}
    {physical : Nat} {r : Int} (h : Ready s.vm place)
    (hsafe : c.toNat < clusterMapMax → s.vm.Backable (vmmClusterVirt c)) (hmap : s.vmmClusterMap c physical = (r, t)) :
    (r = -1 ∧ Idle s t) ∨ (r = 0 ∧ c.toNat < clusterMapMax ∧ Backs s t c physical) := by
  have hidle : ∀ {vm : Vmm} {place'}, Quiet s.vm vm place' → (-1, { s with vm := vm }) = (r, t) →
      r = -1 ∧ Idle s t := by
    rintro vm place' hq heq
    obtain ⟨rfl, rfl⟩ := Prod.mk.inj heq
    exact ⟨rfl, ⟨_, hq.ready⟩, hq.supply, rfl, rfl, hq.mapped⟩
  unfold vmmClusterMap at hmap
  dsimp only at hmap
  split at hmap
  · exact Or.inl (hidle (quiet_of_mem h rfl (List.suffix_refl _)) hmap)
  · have hmax : c.toNat < clusterMapMax := by omega
    have hpages := clusterPages_spec h (hsafe hmax)
    rcases hpd : s.vm.clusterEnsurePd (vmmClusterVirt c) with ⟨_ | pd, vm₁⟩
    · rw [hpd] at hmap
      obtain ⟨_, hq⟩ := (hpages 0).1 vm₁ hpd
      exact Or.inl (hidle hq hmap)
    rw [hpd] at hmap
    dsimp only at hmap
    obtain ⟨hsplit, hrest⟩ := (hpages pd).2 vm₁ hpd
    rcases hs : vm₁.clusterSplit pd (index 21 (vmmClusterVirt c)) with ⟨_ | _, vm₂⟩
    · rw [hs] at hmap
      obtain ⟨_, hq⟩ := hsplit vm₂ hs
      exact Or.inl (hidle hq hmap)
    rw [hs] at hmap
    dsimp only at hmap
    obtain ⟨hfail, htable⟩ := hrest vm₂ hs
    rcases ht : vm₂.clusterTable pd (index 21 (vmmClusterVirt c)) with ⟨_ | _, vm₃⟩
    · rw [ht] at hmap
      obtain ⟨_, hq⟩ := hfail vm₃ ht
      exact Or.inl (hidle hq hmap)
    rw [ht] at hmap
    obtain ⟨rfl, rfl⟩ := Prod.mk.inj hmap
    obtain ⟨⟨place₃, hready⟩, hsupply, hwalk, hothers⟩ := htable vm₃ ht
    refine Or.inr ⟨rfl, hmax, ⟨place₃, hready.setEntry_leaf (hready.place_of_walk hwalk) _⟩, hsupply,
      rfl, rfl, mappedFrame_setEntry_self hready hwalk, fun w hw => ?_⟩
    unfold clusterWrite
    rw [mappedFrame_setEntry_of_ne hready hwalk hw]
    exact hothers w hw

end Clusters

end Chicago95.Stage2
