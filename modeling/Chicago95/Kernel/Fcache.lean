/-
# Chicago95.Kernel.Fcache — the file cache of `kmalloc.c`.

256 entries, each a cluster number, an age, two flags and the cluster's 4096 bytes. `fcache_get` returns
the entry of a cluster, or reads the cluster into the entry used longest ago. Entries marked `dirty` are
written back when they are dropped, and by `fcache_flush`; but nothing marks an entry. A caller gets a
pointer to the bytes and writes through it, and the flag stays clear.
-/
import Chicago95.Lib.Loop
import Chicago95.Lib.Transition
import Mathlib.Algebra.Group.Nat.Defs
import Mathlib.Logic.Function.Basic

namespace Chicago95.Kernel

open Chicago95.Lib.Loop Chicago95.Lib.Transition
open Function (update_of_ne update_self update_eq_self update)

/-! ## Disk and entries -/

/-- 512 bytes. -/
abbrev Sector := Fin 512 → UInt8

/-- A disk is an array of sectors. -/
abbrev Disk := Nat → Sector

/-- The bytes of a cluster, `CLUSTER_SIZE / 512` sectors. -/
abbrev ClusterData := Fin 8 → Sector

def fcacheEntries : Nat := 256

/-- `CLUSTER_SIZE / 512` -/
def clusterSectors : Nat := 8

/-- `(uint32_t)(cluster * (CLUSTER_SIZE / 512))` -/
def clusterLba (cluster : Nat) : Nat := cluster * clusterSectors % 2 ^ 32

/-- `ata_read_sectors` of a cluster's sectors. -/
def ataReadSectors (disk : Disk) (lba : Nat) : ClusterData := fun j => disk (lba + j.val)

/-- `ata_write_sectors` of a cluster's sectors. -/
def ataWriteSectors (disk : Disk) (lba : Nat) (data : ClusterData) : Disk := fun sector =>
  if lba ≤ sector ∧ sector < lba + clusterSectors then data (Fin.ofNat 8 (sector - lba))
  else disk sector

/-- `fcache_entry_t` -/
structure FcacheEntry where
  cluster : Nat
  age : Nat
  dirty : Bool
  valid : Bool
  data : ClusterData

/-- `fcache`, `fcache_clock` and the disk below. -/
structure Fcache where
  entries : Nat → FcacheEntry
  clock : Nat
  disk : Disk

namespace Fcache

/-- `fcache_init`, over static storage. -/
def fcacheInit (disk : Disk) : Fcache :=
  { entries := fun _ => { cluster := 0, age := 0, dirty := false, valid := false, data := fun _ _ => 0 },
    clock := 0, disk := disk }

/-- The entry is the one of `cluster`. -/
def Holds (f : Fcache) (i cluster : Nat) : Prop :=
  (f.entries i).valid = true ∧ (f.entries i).cluster = cluster

instance (f : Fcache) (i cluster : Nat) : Decidable (f.Holds i cluster) :=
  inferInstanceAs (Decidable ((f.entries i).valid = true ∧ (f.entries i).cluster = cluster))

/-- The search for the entry of a cluster. -/
def lookup (f : Fcache) (cluster : Nat) : Option Nat :=
  (List.range fcacheEntries).find? fun i => decide (f.Holds i cluster)

/-- The search for the entry to evict: the first that is not valid, or else the oldest. -/
def victimFrom (entries : Nat → FcacheEntry) : List Nat → Nat → Nat → Nat
  | [], lruIdx, _ => lruIdx
  | i :: rest, lruIdx, lruAge =>
    if (entries i).valid = false then i
    else if (entries i).age < lruAge then victimFrom entries rest i (entries i).age
    else victimFrom entries rest lruIdx lruAge

/-- `lru_idx` -/
def victim (f : Fcache) : Nat := victimFrom f.entries (List.range fcacheEntries) 0 (2 ^ 32 - 1)

/-- The disk after an entry has been written back, if it is marked. -/
def writeBack (disk : Disk) (e : FcacheEntry) : Disk :=
  if e.valid = true ∧ e.dirty = true then ataWriteSectors disk (clusterLba e.cluster) e.data else disk

/-- `fcache_get`: the entry whose `data` is returned. -/
def fcacheGet (f : Fcache) (cluster : Nat) : Nat × Fcache :=
  let tick := (f.clock + 1) % 2 ^ 32
  match f.lookup cluster with
  | some i =>
    (i, { f with entries := update f.entries i { f.entries i with age := tick },
                 clock := tick })
  | none =>
    let disk := writeBack f.disk (f.entries f.victim)
    (f.victim,
      { entries := update f.entries f.victim
          { cluster := cluster, age := tick, dirty := false, valid := true,
            data := ataReadSectors disk (clusterLba cluster) },
        clock := tick, disk := disk })

def fcacheInvalidate (f : Fcache) (cluster : Nat) : Fcache :=
  match f.lookup cluster with
  | none => f
  | some i =>
    { f with entries := update f.entries i { f.entries i with valid := false },
             disk := writeBack f.disk (f.entries i) }

def fcacheFlush (f : Fcache) : Fcache :=
  forEach fcacheEntries (fun i f =>
    if (f.entries i).valid = true ∧ (f.entries i).dirty = true then
      { f with entries := update f.entries i { f.entries i with dirty := false },
               disk := writeBack f.disk (f.entries i) }
    else f) f

def fcacheInvalidateAll (f : Fcache) : Fcache :=
  forEach fcacheEntries (fun i f =>
    { f with entries := update f.entries i { f.entries i with valid := false } }) f.fcacheFlush

/-- A caller's write through the pointer to an entry's bytes. -/
def storeBytes (f : Fcache) (i : Nat) (data : ClusterData) : Fcache :=
  { f with entries := update f.entries i { f.entries i with data := data } }

/-- The bytes `fcache_get` of a cluster would return. -/
def fetch (f : Fcache) (cluster : Nat) : ClusterData :=
  ((f.fcacheGet cluster).2.entries (f.fcacheGet cluster).1).data

/-- The bytes of a cluster on the disk. -/
def onDisk (f : Fcache) (cluster : Nat) : ClusterData := ataReadSectors f.disk (clusterLba cluster)

/-! ## The searches -/

theorem lookup_some {f : Fcache} {cluster i : Nat} (h : f.lookup cluster = some i) :
    i < fcacheEntries ∧ f.Holds i cluster :=
  ⟨List.mem_range.mp (List.mem_of_find?_eq_some h), by simpa using List.find?_some h⟩

theorem lookup_none {f : Fcache} {cluster : Nat} (h : f.lookup cluster = none) (i : Nat)
    (hi : i < fcacheEntries) : ¬ f.Holds i cluster := by
  simpa using List.find?_eq_none.mp h i (List.mem_range.mpr hi)

theorem victimFrom_mem (entries : Nat → FcacheEntry) : ∀ (l : List Nat) (idx age : Nat),
    victimFrom entries l idx age ∈ idx :: l := by
  intro l
  induction l with
  | nil => intro idx age; exact List.mem_cons_self
  | cons i rest ih =>
    intro idx age
    unfold victimFrom
    split
    · exact List.mem_cons_of_mem _ List.mem_cons_self
    · split
      · exact List.mem_cons_of_mem _ (ih i _)
      · rcases List.mem_cons.mp (ih idx age) with h | h
        · rw [h]
          exact List.mem_cons_self
        · exact List.mem_cons_of_mem _ (List.mem_cons_of_mem _ h)

theorem victim_lt (f : Fcache) : f.victim < fcacheEntries := by
  rcases List.mem_cons.mp (victimFrom_mem f.entries (List.range fcacheEntries) 0 (2 ^ 32 - 1)) with h | h
  · rw [victim, h]
    decide
  · exact List.mem_range.mp h

/-! ## What holds of every cache

No call marks an entry, and a cluster is only read in when no entry has it. -/

/-- No entry is marked, and no two valid entries are of one cluster. -/
structure Tidy (f : Fcache) : Prop where
  clean : ∀ i, (f.entries i).dirty = false
  distinct : ∀ i j cluster, i < fcacheEntries → j < fcacheEntries → f.Holds i cluster →
    f.Holds j cluster → i = j

theorem Tidy.lookup_eq {f : Fcache} (h : f.Tidy) {i cluster : Nat} (hi : i < fcacheEntries)
    (hc : f.Holds i cluster) : f.lookup cluster = some i := by
  rcases Option.eq_none_or_eq_some (f.lookup cluster) with hnone | ⟨j, hj⟩
  · exact absurd hc (lookup_none hnone i hi)
  · obtain ⟨hjlt, hjc⟩ := lookup_some hj
    rw [hj, h.distinct i j cluster hi hjlt hc hjc]

theorem Tidy.writeBack {f : Fcache} (h : f.Tidy) (i : Nat) : writeBack f.disk (f.entries i) = f.disk := by
  unfold Fcache.writeBack
  exact if_neg fun hd => by rw [h.clean i] at hd; exact Bool.false_ne_true hd.2

theorem Tidy.fetch_hit {f : Fcache} (h : f.Tidy) {i cluster : Nat} (hi : i < fcacheEntries)
    (hc : f.Holds i cluster) : f.fetch cluster = (f.entries i).data := by
  simp only [fetch, fcacheGet, h.lookup_eq hi hc, update_self]

theorem Tidy.fetch_miss {f : Fcache} (h : f.Tidy) {cluster : Nat}
    (hc : ∀ i, i < fcacheEntries → ¬ f.Holds i cluster) : f.fetch cluster = f.onDisk cluster := by
  have hnone : f.lookup cluster = none := by
    rcases Option.eq_none_or_eq_some (f.lookup cluster) with hnone | ⟨i, hi⟩
    · exact hnone
    · exact absurd (lookup_some hi).2 (hc i (lookup_some hi).1)
  simp only [fetch, fcacheGet, hnone, update_self, onDisk, h.writeBack]

theorem holds_or (f : Fcache) (cluster : Nat) :
    (∃ i, i < fcacheEntries ∧ f.Holds i cluster) ∨ ∀ i, i < fcacheEntries → ¬ f.Holds i cluster := by
  rcases Option.eq_none_or_eq_some (f.lookup cluster) with hnone | ⟨i, hi⟩
  · exact Or.inr (lookup_none hnone)
  · exact Or.inl ⟨i, lookup_some hi⟩

theorem Tidy.replace {f : Fcache} (h : f.Tidy) {v : Nat} (hv : v < fcacheEntries) {e : FcacheEntry}
    {g : Fcache} (hentries : g.entries = update f.entries v e) (hdisk : g.disk = f.disk)
    (hdirty : e.dirty = false) (hnew : e.valid = true → (∀ i, i < fcacheEntries → ¬ f.Holds i e.cluster) ∧
      e.data = f.onDisk e.cluster) : g.Tidy ∧ ∀ cluster, g.fetch cluster =
      if f.Holds v cluster then f.onDisk cluster else f.fetch cluster := by
  have hself : g.entries v = e := by rw [hentries, update_self]
  have hother : ∀ i, i ≠ v → g.entries i = f.entries i := fun i hi => by
    rw [hentries, update_of_ne hi]
  have hholds : ∀ i cluster, i ≠ v → (g.Holds i cluster ↔ f.Holds i cluster) := fun i cluster hi => by
    unfold Holds
    rw [hother i hi]
  have hv' : ∀ cluster, g.Holds v cluster → ∀ i, i < fcacheEntries → ¬ f.Holds i cluster := by
    rintro cluster ⟨hvalid, hcl⟩
    rw [hself] at hvalid hcl
    exact hcl ▸ (hnew hvalid).1
  have htidy : g.Tidy := by
    refine ⟨fun i => ?_, fun i j cluster hi hj hic hjc => ?_⟩
    · rcases eq_or_ne i v with rfl | hne
      · rw [hself, hdirty]
      · rw [hother i hne, h.clean i]
    · rcases eq_or_ne i v with rfl | hiv
      · rcases eq_or_ne j i with rfl | hji
        · rfl
        · exact absurd ((hholds j cluster hji).mp hjc) (hv' cluster hic j hj)
      · rcases eq_or_ne j v with rfl | hjv
        · exact absurd ((hholds i cluster hiv).mp hic) (hv' cluster hjc i hi)
        · exact h.distinct i j cluster hi hj ((hholds i cluster hiv).mp hic)
            ((hholds j cluster hjv).mp hjc)
  refine ⟨htidy, fun cluster => ?_⟩
  have honDisk : g.onDisk cluster = f.onDisk cluster := by
    unfold onDisk
    rw [hdisk]
  rcases g.holds_or cluster with ⟨i, hi, hc⟩ | hnone
  · rw [htidy.fetch_hit hi hc]
    rcases eq_or_ne i v with rfl | hne
    · have hno := hv' cluster hc
      obtain ⟨hvalid, hcl⟩ := hc
      rw [hself] at hvalid hcl ⊢
      rw [if_neg (hno i hi), h.fetch_miss hno, (hnew hvalid).2, hcl]
    · have hfc := (hholds i cluster hne).mp hc
      rw [if_neg fun hvc => hne (h.distinct i v cluster hi hv hfc hvc), h.fetch_hit hi hfc,
        hother i hne]
  · rw [htidy.fetch_miss hnone, honDisk]
    by_cases hvc : f.Holds v cluster
    · rw [if_pos hvc]
    · rw [if_neg hvc]
      refine (h.fetch_miss fun i hi hc => ?_).symm
      rcases eq_or_ne i v with rfl | hne
      · exact hvc hc
      · exact hnone i hi ((hholds i cluster hne).mpr hc)

theorem Tidy.edit {f : Fcache} (h : f.Tidy) {v : Nat} (hv : v < fcacheEntries) {e : FcacheEntry}
    {g : Fcache} (hentries : g.entries = update f.entries v e) (hdisk : g.disk = f.disk)
    (hvalid : e.valid = (f.entries v).valid) (hcluster : e.cluster = (f.entries v).cluster) (hdirty : e.dirty = false) :
    g.Tidy ∧ ∀ cluster, g.fetch cluster = if f.Holds v cluster then e.data else f.fetch cluster := by
  have hself : g.entries v = e := by rw [hentries, update_self]
  have hother : ∀ i, i ≠ v → g.entries i = f.entries i := fun i hi => by
    rw [hentries, update_of_ne hi]
  have hholds : ∀ i cluster, g.Holds i cluster ↔ f.Holds i cluster := fun i cluster => by
    unfold Holds
    rcases eq_or_ne i v with rfl | hne
    · rw [hself, hvalid, hcluster]
    · rw [hother i hne]
  have htidy : g.Tidy := by
    refine ⟨fun i => ?_, fun i j cluster hi hj hic hjc => ?_⟩
    · rcases eq_or_ne i v with rfl | hne
      · rw [hself, hdirty]
      · rw [hother i hne, h.clean i]
    · exact h.distinct i j cluster hi hj ((hholds i cluster).mp hic) ((hholds j cluster).mp hjc)
  refine ⟨htidy, fun cluster => ?_⟩
  rcases f.holds_or cluster with ⟨i, hi, hc⟩ | hnone
  · rw [htidy.fetch_hit hi ((hholds i cluster).mpr hc)]
    rcases eq_or_ne i v with rfl | hne
    · rw [if_pos hc, hself]
    · rw [if_neg fun hvc => hne (h.distinct i v cluster hi hv hc hvc), h.fetch_hit hi hc, hother i hne]
  · rw [if_neg (hnone v hv), htidy.fetch_miss fun i hi hc => hnone i hi ((hholds i cluster).mp hc),
      h.fetch_miss hnone]
    unfold onDisk
    rw [hdisk]

/-! ## The calls -/

theorem tidy_init (disk : Disk) : (fcacheInit disk).Tidy where
  clean _ := rfl
  distinct _ _ _ _ _ hi := absurd hi.1 Bool.false_ne_true

/-- The entry `fcache_get` gives away. -/
def Evicts (f : Fcache) (cluster old : Nat) : Prop :=
  f.lookup cluster = none ∧ f.Holds f.victim old

theorem Tidy.fcacheGet {f : Fcache} (h : f.Tidy) (cluster : Nat) :
    (f.fcacheGet cluster).2.Tidy ∧ (f.fcacheGet cluster).2.disk = f.disk ∧ (f.fcacheGet cluster).1 < fcacheEntries ∧
    ∀ other, (f.Evicts cluster other → (f.fcacheGet cluster).2.fetch other = f.onDisk other) ∧
      (¬ f.Evicts cluster other → (f.fcacheGet cluster).2.fetch other = f.fetch other) := by
  rcases Option.eq_none_or_eq_some (f.lookup cluster) with hnone | ⟨i, hi⟩
  · have hget : f.fcacheGet cluster = (f.victim, (f.fcacheGet cluster).2) := by
      simp only [Fcache.fcacheGet, hnone]
    have hdisk : (f.fcacheGet cluster).2.disk = f.disk := by
      simp only [Fcache.fcacheGet, hnone, h.writeBack]
    have hentries : (f.fcacheGet cluster).2.entries = update f.entries f.victim
        { cluster := cluster, age := (f.clock + 1) % 2 ^ 32, dirty := false, valid := true,
          data := f.onDisk cluster } := by
      simp only [Fcache.fcacheGet, hnone, h.writeBack, onDisk]
    obtain ⟨htidy, hfetch⟩ := h.replace f.victim_lt hentries hdisk rfl
      fun _ => ⟨lookup_none hnone, rfl⟩
    refine ⟨htidy, hdisk, ?_, fun other => ⟨fun hev => ?_, fun hev => ?_⟩⟩
    · rw [hget]
      exact f.victim_lt
    · rw [hfetch, if_pos hev.2]
    · rw [hfetch, if_neg fun hv => hev ⟨hnone, hv⟩]
  · obtain ⟨hlt, hc⟩ := lookup_some hi
    have hget : f.fcacheGet cluster = (i, (f.fcacheGet cluster).2) := by
      simp only [Fcache.fcacheGet, hi]
    have hdisk : (f.fcacheGet cluster).2.disk = f.disk := by
      simp only [Fcache.fcacheGet, hi]
    have hentries : (f.fcacheGet cluster).2.entries = update f.entries i
        { f.entries i with age := (f.clock + 1) % 2 ^ 32 } := by
      simp only [Fcache.fcacheGet, hi]
    obtain ⟨htidy, hfetch⟩ := h.edit hlt hentries hdisk rfl rfl (h.clean i)
    refine ⟨htidy, hdisk, ?_, fun other => ⟨fun hev => ?_, fun _ => ?_⟩⟩
    · rw [hget]
      exact hlt
    · exact absurd (hi.symm.trans hev.1) (Option.some_ne_none i)
    · rw [hfetch]
      split
      · next hother => exact (h.fetch_hit hlt hother).symm
      · rfl

theorem Tidy.fcacheInvalidate {f : Fcache} (h : f.Tidy) (cluster : Nat) :
    (f.fcacheInvalidate cluster).Tidy ∧ (f.fcacheInvalidate cluster).disk = f.disk ∧
    ∀ other, (f.fcacheInvalidate cluster).fetch other = if other = cluster then f.onDisk other else f.fetch other := by
  rcases Option.eq_none_or_eq_some (f.lookup cluster) with hnone | ⟨i, hi⟩
  · have heq : f.fcacheInvalidate cluster = f := by simp only [Fcache.fcacheInvalidate, hnone]
    rw [heq]
    refine ⟨h, rfl, fun other => ?_⟩
    split
    · next hother => rw [hother, h.fetch_miss (lookup_none hnone)]
    · rfl
  · obtain ⟨hlt, hc⟩ := lookup_some hi
    have hdisk : (f.fcacheInvalidate cluster).disk = f.disk := by
      simp only [Fcache.fcacheInvalidate, hi, h.writeBack]
    have hentries : (f.fcacheInvalidate cluster).entries = update f.entries i
        { f.entries i with valid := false } := by
      simp only [Fcache.fcacheInvalidate, hi]
    obtain ⟨htidy, hfetch⟩ := h.replace hlt hentries hdisk (h.clean i)
      fun hv => absurd hv Bool.false_ne_true
    refine ⟨htidy, hdisk, fun other => ?_⟩
    rw [hfetch]
    by_cases hother : other = cluster
    · rw [if_pos hother, if_pos (hother ▸ hc)]
    · rw [if_neg hother, if_neg fun ho => hother (ho.2.symm.trans hc.2)]

theorem Tidy.fcacheFlush {f : Fcache} (h : f.Tidy) : f.fcacheFlush = f :=
  forEach_eq_self fun i _ => if_neg fun hd => by
    rw [h.clean i] at hd
    exact Bool.false_ne_true hd.2

theorem Tidy.fcacheInvalidateAll {f : Fcache} (h : f.Tidy) :
    f.fcacheInvalidateAll.Tidy ∧ f.fcacheInvalidateAll.disk = f.disk ∧
    ∀ cluster, f.fcacheInvalidateAll.fetch cluster = f.onDisk cluster := by
  have hloop : f.fcacheInvalidateAll.disk = f.disk ∧
      (∀ i, (f.fcacheInvalidateAll.entries i).dirty = false) ∧
      ∀ i, i < fcacheEntries → (f.fcacheInvalidateAll.entries i).valid = false := by
    unfold Fcache.fcacheInvalidateAll
    rw [h.fcacheFlush]
    refine forEach_induction (P := fun n (g : Fcache) => g.disk = f.disk ∧ (∀ i, (g.entries i).dirty = false) ∧
      ∀ i, i < n → (g.entries i).valid = false)
      ⟨rfl, h.clean, fun i hi => absurd hi (Nat.not_lt_zero i)⟩ ?_
    rintro i g _ ⟨hdisk, hclean, hvalid⟩
    refine ⟨hdisk, fun j => ?_, fun j hj => ?_⟩
    · rcases eq_or_ne j i with rfl | hne
      · simp only [update_self, hclean]
      · simp only [update_of_ne hne, hclean]
    · rcases eq_or_ne j i with rfl | hne
      · simp only [update_self]
      · simp only [update_of_ne hne, hvalid j (by omega)]
  obtain ⟨hdisk, hclean, hvalid⟩ := hloop
  have hnone : ∀ cluster i, i < fcacheEntries → ¬ f.fcacheInvalidateAll.Holds i cluster :=
    fun cluster i hi hc => by
      rw [Holds, hvalid i hi] at hc
      exact Bool.false_ne_true hc.1
  have htidy : f.fcacheInvalidateAll.Tidy :=
    ⟨hclean, fun i j cluster hi _ hc => absurd hc (hnone cluster i hi)⟩
  refine ⟨htidy, hdisk, fun cluster => ?_⟩
  rw [htidy.fetch_miss (hnone cluster)]
  unfold onDisk
  rw [hdisk]

theorem Tidy.storeBytes {f : Fcache} (h : f.Tidy) {i : Nat} (hi : i < fcacheEntries) (data : ClusterData) :
    (f.storeBytes i data).Tidy ∧ ∀ cluster, (f.storeBytes i data).fetch cluster
      = if f.Holds i cluster then data else f.fetch cluster :=
  h.edit hi (g := f.storeBytes i data) rfl rfl rfl rfl (h.clean i)

end Fcache

/-! ## Histories -/

/-- The cache, what was last written for each cluster, and the pointers handed out: for which cluster,
and to which entry's bytes. -/
structure FcacheRuns where
  cache : Fcache
  written : Nat → ClusterData
  given : List (Nat × Nat)

/-- A call, or a caller filling the buffer that it got for `cluster` in entry `i`. -/
inductive FcacheCall where
  | get (cluster : Nat)
  | store (cluster i : Nat) (data : ClusterData)
  | invalidate (cluster : Nat)
  | flush
  | invalidateAll

namespace FcacheRuns

/-- From `fcache_init`: a cluster never written has the bytes of its sectors. -/
def start (disk : Disk) : FcacheRuns :=
  { cache := Fcache.fcacheInit disk, given := [],
    written := fun cluster => ataReadSectors disk (clusterLba cluster) }

/-- One step. -/
def next (s : FcacheRuns) : FcacheCall → FcacheRuns
  | .get cluster =>
    let r := s.cache.fcacheGet cluster
    { s with cache := r.2, given := (cluster, r.1) :: s.given }
  | .store cluster i data =>
    { s with cache := s.cache.storeBytes i data,
             written := update s.written cluster data }
  | .invalidate cluster => { s with cache := s.cache.fcacheInvalidate cluster }
  | .flush => { s with cache := s.cache.fcacheFlush }
  | .invalidateAll => { s with cache := s.cache.fcacheInvalidateAll }

/-- Cluster numbers are 32-bit; writes go through pointers handed out. -/
def Allowed (s : FcacheRuns) : FcacheCall → Prop
  | .get cluster => cluster < 2 ^ 32
  | .store cluster i _ => (cluster, i) ∈ s.given
  | .invalidate cluster => cluster < 2 ^ 32
  | .flush => True
  | .invalidateAll => True

/-- One step of a history. -/
def Step (s : FcacheRuns) (call : FcacheCall) (t : FcacheRuns) : Prop :=
  s.Allowed call ∧ t = s.next call

/-- **What the cache is for.** `fcache_get` of any cluster would return what was last written for it, no
two entries are of one cluster, and different clusters in use have no sector in common. -/
structure Faithful (s : FcacheRuns) : Prop where
  coherent : ∀ cluster, s.cache.fetch cluster = s.written cluster
  entries : ∀ i j cluster, i < fcacheEntries → j < fcacheEntries → s.cache.Holds i cluster →
    s.cache.Holds j cluster → i = j
  sectors : ∀ g ∈ s.given, ∀ h ∈ s.given, g.1 ≠ h.1 → ∀ j k, j < clusterSectors → k < clusterSectors →
    clusterLba g.1 + j ≠ clusterLba h.1 + k

/-- **The condition on a step.** A cluster that stops being cached has on the disk what its entry has; a
cluster taken into use differs modulo `2 ^ 29` from the others in use; a buffer written is still its
cluster's, or the write changes nothing. -/
def Kept (s : FcacheRuns) : FcacheCall → Prop
  | .get cluster =>
    (∀ old, s.cache.Evicts cluster old → (s.cache.entries s.cache.victim).data = s.cache.onDisk old) ∧
    ∀ g ∈ s.given, g.1 ≠ cluster → g.1 % 2 ^ 29 ≠ cluster % 2 ^ 29
  | .store cluster i data =>
    s.cache.Holds i cluster ∨
      (data = s.written cluster ∧
        ((s.cache.entries i).valid = true → data = (s.cache.entries i).data))
  | .invalidate cluster => ∀ i, s.cache.lookup cluster = some i →
      (s.cache.entries i).data = s.cache.onDisk cluster
  | .flush => True
  | .invalidateAll => ∀ i cluster, i < fcacheEntries → s.cache.Holds i cluster →
      (s.cache.entries i).data = s.cache.onDisk cluster

/-! ## Sectors -/

theorem sectors_apart_iff (c d : Nat) :
    (∀ j k, j < clusterSectors → k < clusterSectors → clusterLba c + j ≠ clusterLba d + k) ↔
      c % 2 ^ 29 ≠ d % 2 ^ 29 := by
  simp only [clusterLba, clusterSectors]
  constructor
  · intro h heq
    exact h 0 0 (by omega) (by omega) (by omega)
  · intro h j k hj hk heq
    omega

/-! ## The invariant -/

/-- What every history keeps: the cache is tidy, and pointers are to entries. -/
structure Inv (s : FcacheRuns) : Prop where
  tidy : s.cache.Tidy
  pointers : ∀ g ∈ s.given, g.2 < fcacheEntries

variable {s : FcacheRuns}

theorem inv_start (disk : Disk) : (start disk).Inv where
  tidy := Fcache.tidy_init disk
  pointers _ hg := absurd hg List.not_mem_nil

theorem faithful_start (disk : Disk) : (start disk).Faithful where
  coherent _ := (Fcache.tidy_init disk).fetch_miss fun _ _ hc => absurd hc.1 Bool.false_ne_true
  entries := (Fcache.tidy_init disk).distinct
  sectors _ hg := absurd hg List.not_mem_nil

theorem Inv.with_cache (h : s.Inv) {f : Fcache} (hf : f.Tidy) : Inv { s with cache := f } :=
  ⟨hf, h.pointers⟩

theorem Faithful.with_cache (h : s.Faithful) {f : Fcache} (hf : f.Tidy)
    (hcoherent : ∀ cluster, f.fetch cluster = s.written cluster) : Faithful { s with cache := f } :=
  ⟨hcoherent, hf.distinct, h.sectors⟩

theorem next_flush (h : s.Inv) : s.next .flush = s := by
  simp only [next, h.tidy.fcacheFlush]

theorem next_invalidateAll (s : FcacheRuns) :
    s.next .invalidateAll = { s with cache := s.cache.fcacheInvalidateAll } := by
  simp only [next]

theorem Inv.next (h : s.Inv) {call : FcacheCall} (hok : s.Allowed call) : (s.next call).Inv := by
  cases call with
  | get cluster =>
    obtain ⟨htidy, _, hlt, _⟩ := h.tidy.fcacheGet cluster
    refine ⟨htidy, fun g hg => ?_⟩
    rcases List.mem_cons.mp hg with rfl | hg
    · exact hlt
    · exact h.pointers g hg
  | store cluster i data => exact ⟨(h.tidy.storeBytes (h.pointers _ hok) data).1, h.pointers⟩
  | invalidate cluster => exact h.with_cache (h.tidy.fcacheInvalidate cluster).1
  | flush =>
    rw [next_flush h]
    exact h
  | invalidateAll =>
    rw [next_invalidateAll]
    exact h.with_cache h.tidy.fcacheInvalidateAll.1

/-! ## One step -/

theorem get_iff (h : s.Inv) (hf : s.Faithful) (cluster : Nat) :
    (s.next (.get cluster)).Faithful ↔ s.Kept (.get cluster) := by
  obtain ⟨htidy, _, _, hfetch⟩ := h.tidy.fcacheGet cluster
  have hdata : ∀ old, s.cache.Evicts cluster old →
      s.written old = (s.cache.entries s.cache.victim).data := fun old hev => by
    rw [← hf.coherent old, h.tidy.fetch_hit s.cache.victim_lt hev.2]
  constructor
  · intro ht
    refine ⟨fun old hev => ?_, fun g hg hne => ?_⟩
    · rw [← hdata old hev, ← (hfetch old).1 hev]
      exact (ht.coherent old).symm
    · exact (sectors_apart_iff g.1 cluster).mp
        (ht.sectors g (List.mem_cons_of_mem _ hg) _ List.mem_cons_self hne)
  · rintro ⟨hkept, hapart⟩
    refine ⟨fun other => ?_, htidy.distinct, fun a ha b hb hne => ?_⟩
    · show (s.cache.fcacheGet cluster).2.fetch other = s.written other
      by_cases hev : s.cache.Evicts cluster other
      · rw [(hfetch other).1 hev, hdata other hev, hkept other hev]
      · rw [(hfetch other).2 hev, hf.coherent]
    · rw [sectors_apart_iff]
      rcases List.mem_cons.mp ha with rfl | ha <;> rcases List.mem_cons.mp hb with rfl | hb
      · exact absurd rfl hne
      · exact (hapart b hb (Ne.symm hne)).symm
      · exact hapart a ha hne
      · exact (sectors_apart_iff a.1 b.1).mp (hf.sectors a ha b hb hne)

theorem store_iff (h : s.Inv) (hf : s.Faithful) {cluster i : Nat} {data : ClusterData} (hi : i < fcacheEntries) :
    (s.next (.store cluster i data)).Faithful ↔ s.Kept (.store cluster i data) := by
  obtain ⟨htidy, hfetch⟩ := h.tidy.storeBytes hi data
  constructor
  · intro ht
    have hcoherent : ∀ other, (s.cache.storeBytes i data).fetch other
        = update s.written cluster data other := ht.coherent
    by_cases hc : s.cache.Holds i cluster
    · exact Or.inl hc
    · refine Or.inr ⟨?_, fun hvalid => ?_⟩
      · have hself := hcoherent cluster
        rw [hfetch, if_neg hc, update_self, hf.coherent] at hself
        exact hself.symm
      · -- the entry went to another cluster, whose bytes the write must leave
        have hold : s.cache.Holds i (s.cache.entries i).cluster := ⟨hvalid, rfl⟩
        have hne : (s.cache.entries i).cluster ≠ cluster := fun heq => hc ⟨hvalid, heq⟩
        have hother := hcoherent (s.cache.entries i).cluster
        rw [hfetch, if_pos hold, update_of_ne hne, ← hf.coherent,
          h.tidy.fetch_hit hi hold] at hother
        exact hother
  · intro hkept
    refine ⟨fun other => ?_, htidy.distinct, hf.sectors⟩
    show (s.cache.storeBytes i data).fetch other = update s.written cluster data other
    rw [hfetch]
    rcases hkept with hc | ⟨hself, hsame⟩
    · by_cases hother : other = cluster
      · rw [if_pos (hother ▸ hc), hother, update_self]
      · rw [if_neg fun ho => hother (ho.2.symm.trans hc.2), update_of_ne hother, hf.coherent]
    · rw [hself, update_eq_self]
      split
      · next hc => rw [← hself, hsame hc.1, ← h.tidy.fetch_hit hi hc, hf.coherent]
      · exact hf.coherent other

theorem invalidate_iff (h : s.Inv) (hf : s.Faithful) (cluster : Nat) :
    (s.next (.invalidate cluster)).Faithful ↔ s.Kept (.invalidate cluster) := by
  obtain ⟨htidy, _, hfetch⟩ := h.tidy.fcacheInvalidate cluster
  constructor
  · intro ht i hi
    obtain ⟨hlt, hc⟩ := Fcache.lookup_some hi
    have hself : (s.cache.fcacheInvalidate cluster).fetch cluster = s.written cluster :=
      ht.coherent cluster
    rw [hfetch, if_pos rfl, ← hf.coherent, h.tidy.fetch_hit hlt hc] at hself
    exact hself.symm
  · intro hkept
    refine hf.with_cache htidy fun other => ?_
    rw [hfetch, ← hf.coherent]
    by_cases hother : other = cluster
    · subst hother
      rw [if_pos rfl]
      rcases s.cache.holds_or other with ⟨i, hi, hc⟩ | hnone
      · rw [h.tidy.fetch_hit hi hc, hkept i (h.tidy.lookup_eq hi hc)]
      · rw [h.tidy.fetch_miss hnone]
    · rw [if_neg hother]

theorem invalidateAll_iff (h : s.Inv) (hf : s.Faithful) : (s.next .invalidateAll).Faithful ↔ s.Kept .invalidateAll := by
  obtain ⟨htidy, _, hfetch⟩ := h.tidy.fcacheInvalidateAll
  rw [next_invalidateAll]
  constructor
  · intro ht i cluster hi hc
    have hself := ht.coherent cluster
    dsimp only at hself
    rw [hfetch, ← hf.coherent, h.tidy.fetch_hit hi hc] at hself
    exact hself.symm
  · intro hkept
    refine hf.with_cache htidy fun cluster => ?_
    rw [hfetch, ← hf.coherent]
    rcases s.cache.holds_or cluster with ⟨i, hi, hc⟩ | hnone
    · rw [h.tidy.fetch_hit hi hc, hkept i cluster hi hc]
    · rw [h.tidy.fetch_miss hnone]

theorem step_iff (h : s.Inv) (hf : s.Faithful) {call : FcacheCall} {t : FcacheRuns}
    (hst : s.Step call t) : t.Faithful ↔ s.Kept call := by
  obtain ⟨hok, rfl⟩ := hst
  cases call with
  | get cluster => exact get_iff h hf cluster
  | store cluster i data => exact store_iff h hf (h.pointers _ hok)
  | invalidate cluster => exact invalidate_iff h hf cluster
  | flush =>
    rw [next_flush h]
    exact iff_of_true hf trivial
  | invalidateAll => exact invalidateAll_iff h hf

/-- **The file cache over whole histories.** It stays faithful exactly when every step meets its
condition. -/
theorem faithful_run_iff (disk : Disk) {tr : List (FcacheCall × FcacheRuns)} (htr : Trace Step (start disk) tr) :
    AllStates Faithful (start disk) tr ↔ Guarded Kept (start disk) tr :=
  htr.allSteps_iff_guarded (J := fun (s : FcacheRuns) => s.Inv ∧ s.Faithful)
    (fun _ _ _ hs hst => step_iff hs.1 hs.2 hst)
    (fun s call t hs hst ht => ⟨by rw [hst.2]; exact hs.1.next hst.1, ht⟩) ⟨inv_start disk, faithful_start disk⟩

/-! ## A cluster written and dropped -/

/-- A disk of zeros. -/
def zeroDisk : Disk := fun _ _ => 0

/-- A cluster of ones. -/
def ones : ClusterData := fun _ _ => 1

theorem get_allowed : (start zeroDisk).Allowed (.get 0) := show 0 < 2 ^ 32 by decide

theorem store_allowed : ((start zeroDisk).next (.get 0)).Allowed (.store 0 0 ones) :=
  show (0, 0) ∈ ((start zeroDisk).next (.get 0)).given by decide

/-- Cluster 0 is read in, filled, and read again from the cache. -/
theorem filled_faithful : AllStates Faithful (start zeroDisk)
      (traceOf next (start zeroDisk) [.get 0, .store 0 0 ones, .get 0]) := by
  have hagain : ((start zeroDisk).next (.get 0) |>.next (.store 0 0 ones)).Allowed (.get 0) :=
    show 0 < 2 ^ 32 by decide
  refine (faithful_run_iff zeroDisk (.cons ⟨get_allowed, rfl⟩ (.cons ⟨store_allowed, rfl⟩
    (.cons ⟨hagain, rfl⟩ (.nil _))))).mpr
    ⟨⟨fun old hev => ?_, fun g hg => absurd hg List.not_mem_nil⟩, Or.inl ?_,
      ⟨fun old hev => ?_, fun g hg hne => ?_⟩, trivial⟩
  · exact absurd hev.2.1 (by decide)
  · decide
  · exact absurd hev.1 (by decide)
  · have hgiven : ((start zeroDisk).next (.get 0) |>.next (.store 0 0 ones)).given = [(0, 0)] := by
      decide
    rw [hgiven, List.mem_singleton] at hg
    exact absurd (congrArg Prod.fst hg) hne

/-- The same cluster, filled and then dropped: the ones are lost. -/
theorem filled_invalidate_lost : ¬ ∀ (disk : Disk) (tr : List (FcacheCall × FcacheRuns)), Trace Step (start disk) tr →
        AllStates Faithful (start disk) tr := by
  intro hall
  have hdrop : ((start zeroDisk).next (.get 0) |>.next (.store 0 0 ones)).Allowed (.invalidate 0) :=
    show 0 < 2 ^ 32 by decide
  have htr : Trace Step (start zeroDisk)
      (traceOf next (start zeroDisk) [.get 0, .store 0 0 ones, .invalidate 0]) :=
    .cons ⟨get_allowed, rfl⟩ (.cons ⟨store_allowed, rfl⟩ (.cons ⟨hdrop, rfl⟩ (.nil _)))
  obtain ⟨_, hsecond, hthird, _⟩ := hall zeroDisk _ htr
  have hinv := ((inv_start zeroDisk).next get_allowed).next store_allowed
  have hkept := (invalidate_iff hinv hsecond 0).mp hthird 0 (by decide)
  exact absurd (congrFun (congrFun hkept 0) 0) (by decide)

end FcacheRuns

end Chicago95.Kernel
