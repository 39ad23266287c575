/-
# Chicago95.Stage2.FormatGeometry — the sizes that `brainfs_format` records.

The sectors of the volume are the boot sector, the table, one sector for the root directory, and the clusters;
how long the table has to be is estimated from the clusters there would be without it, so that it is never too
short (`FormatSizes.Spec`). The boot sector that is made up has the sizes in fields of 8, 16 and 32 bits.
-/
import Chicago95.Stage2.Fat
import Chicago95.Stage2.FatPacking
import Mathlib.Tactic.Linarith

namespace Chicago95.Stage2

/-! ## The code -/

/-- `brainfs_fat_sectors_needed` -/
def fatSectorsNeeded (width totalClusters : Nat) : Nat :=
  (totalClusters + fatEntriesPerSector width - 1) % 2 ^ 32 / fatEntriesPerSector width

/-- A difference of two numbers of 32 bits. -/
def sub32 (a b : Nat) : Nat := (a + 2 ^ 32 - b) % 2 ^ 32

/-- `sectors_per_cluster` -/
def formatSectorsPerCluster (totalSectors : Nat) : Nat :=
  if 2000000 < totalSectors then 8
  else if 500000 < totalSectors then 4
  else if 100000 < totalSectors then 2
  else 1

/-- The sizes that `brainfs_format` comes to. -/
structure FormatSizes where
  sectorsPerCluster : Nat
  fatSectors : Nat
  totalClusters : Nat

/-- What is used of the boot sector. -/
structure BootSector where
  sectorsPerCluster : Nat
  reservedSectors : Nat
  numFats : Nat
  rootDirEntries : Nat
  totalSectors16 : Nat
  totalSectors32 : Nat
  fatSize16 : Nat
  fatSize32 : Nat
  rootCluster : Nat
  fatWidth : Nat
  totalClusters : Nat
  freeClusters : Nat

/-- `brainfs_format` up to the boot sector; `none` where it returns -2. -/
def formatSizes (fatWidth totalSectors : Nat) : Option FormatSizes :=
  if fatWidth ∈ fatWidths then
    let sectorsPerCluster := formatSectorsPerCluster totalSectors
    let totalClusters := sub32 totalSectors 1 / sectorsPerCluster
    if totalClusters < 2 then none
    else
      let needed := fatSectorsNeeded fatWidth totalClusters
      let fatSectors := if needed < 1 then 1 else needed
      let dataSectors := sub32 (sub32 (sub32 totalSectors 1) fatSectors) 1
      some { sectorsPerCluster := sectorsPerCluster, fatSectors := fatSectors,
             totalClusters := dataSectors / sectorsPerCluster }
  else none

/-- The boot sector, each size in its field. -/
def bootSector (fatWidth totalSectors : Nat) (s : FormatSizes) : BootSector :=
  { sectorsPerCluster := s.sectorsPerCluster % 2 ^ 8
    reservedSectors := 1
    numFats := 1
    rootDirEntries := if 32 ≤ fatWidth then 0 else 32
    totalSectors16 := if totalSectors ≤ 0xFFFF then totalSectors % 2 ^ 16 else 0
    totalSectors32 := totalSectors
    fatSize16 := if fatWidth < 32 then s.fatSectors % 2 ^ 16 else 0
    fatSize32 := if 32 ≤ fatWidth then s.fatSectors else 0
    rootCluster := 2
    fatWidth := fatWidth
    totalClusters := s.totalClusters
    freeClusters := sub32 s.totalClusters 2 }

/-- `brainfs_format` where it returns 0: the sizes that it comes to, and the boot sector that it makes up. -/
def brainfsFormat (fatWidth totalSectors : Nat) : Option (FormatSizes × BootSector) :=
  (formatSizes fatWidth totalSectors).map fun s => (s, bootSector fatWidth totalSectors s)

/-! ## What is recorded -/

namespace BootSector

/-- The sectors of a table, in the field of the width. -/
def fatSectors (bs : BootSector) : Nat := if bs.fatWidth < 32 then bs.fatSize16 else bs.fatSize32

/-- The sectors of a root directory of 32-byte entries. -/
def rootSectors (bs : BootSector) : Nat := (bs.rootDirEntries * 32 + 511) / 512

/-- The reserved sectors, the tables, the root directory and the clusters, one after the other: the first
sector of each, and how many they are. -/
def regions (bs : BootSector) (rootSectors : Nat) : List (Nat × Nat) :=
  [(0, bs.reservedSectors),
   (bs.reservedSectors, bs.numFats * bs.fatSectors),
   (bs.reservedSectors + bs.numFats * bs.fatSectors, rootSectors),
   (bs.reservedSectors + bs.numFats * bs.fatSectors + rootSectors, bs.totalClusters * bs.sectorsPerCluster)]

end BootSector

/-- **A sound geometry** for a root directory of that many sectors. -/
structure FormatSound (fatWidth totalSectors : Nat) (s : FormatSizes) (bs : BootSector) (rootSectors : Nat) :
    Prop where
  fit : ∀ r ∈ bs.regions rootSectors, r.1 + r.2 ≤ totalSectors
  disjoint : (bs.regions rootSectors).Pairwise fun r t => r.1 + r.2 ≤ t.1 ∨ t.1 + t.2 ≤ r.1
  covers : ∀ c < bs.totalClusters, c < bs.fatSectors * fatEntriesPerSector fatWidth
  whole : bs.sectorsPerCluster = s.sectorsPerCluster ∧ bs.fatSectors = s.fatSectors ∧
    bs.totalSectors32 = totalSectors ∧ (bs.totalSectors16 = totalSectors ∨ bs.totalSectors16 = 0)
  numbers : ∀ c, 2 ≤ c → c ≤ bs.totalClusters →
    c < 2 ^ payloadBits fatWidth ∧ fatIsEocValue fatWidth c = false ∧ fatIsBadValue fatWidth c = false

/-- Where `brainfs_format` records one. -/
def FormatFits (fatWidth totalSectors : Nat) : Prop :=
  match fatWidth with
  | 16 => 100000 < totalSectors ∧ totalSectors ≤ 131312 ∧
      (totalSectors - 2 - fatSectorsNeeded 16 ((totalSectors - 1) / 2)) % 2 = 1
  | 32 => 0 < totalSectors ∧ totalSectors ≤ 2149582779
  | 64 => 0 < totalSectors
  | 128 => totalSectors = 3 ∨ totalSectors = 4
  | _ => False

/-- Where it would with a root directory of one sector. -/
def FormatFitsSetAside (fatWidth totalSectors : Nat) : Prop :=
  match fatWidth with
  | 4 => 0 < totalSectors ∧ totalSectors ≤ 16
  | 8 => 0 < totalSectors ∧ totalSectors ≤ 257
  | 12 => 0 < totalSectors ∧ totalSectors ≤ 4101
  | 16 => 0 < totalSectors ∧ totalSectors ≤ 65785 ∨ 100000 < totalSectors ∧ totalSectors ≤ 131312
  | 32 => 0 < totalSectors ∧ totalSectors ≤ 2149582779
  | 64 => 0 < totalSectors
  | _ => totalSectors = 3 ∨ totalSectors = 4

/-! ## The sizes -/

/-- What the sizes are where there are sectors: the table is as long as it has to be for the estimate, and the
clusters are what is left. -/
structure FormatSizes.Spec (entries totalSectors : Nat) (s : FormatSizes) : Prop where
  enough : 3 ≤ totalSectors
  spc : s.sectorsPerCluster = formatSectorsPerCluster totalSectors
  needed : s.fatSectors = ((totalSectors - 1) / s.sectorsPerCluster + entries - 1) / entries
  room : s.fatSectors + 2 ≤ totalSectors
  clusters : s.totalClusters = (totalSectors - 2 - s.fatSectors) / s.sectorsPerCluster

theorem fatEntriesPerSector_bounds {width : Nat} (hw : width ∈ fatWidths) :
    32 ≤ fatEntriesPerSector width ∧ fatEntriesPerSector width ≤ 4096 := by
  revert width
  decide

theorem sub32_of_le {a b : Nat} (ha : a < 2 ^ 32) (h : b ≤ a) : sub32 a b = a - b := by
  unfold sub32
  omega

theorem formatSizes_mem {width total : Nat} {s : FormatSizes} (h : formatSizes width total = some s) :
    width ∈ fatWidths := by
  by_contra hw
  unfold formatSizes at h
  rw [if_neg hw] at h
  cases h

theorem formatSectorsPerCluster_cases (n : Nat) : 2000000 < n ∧ formatSectorsPerCluster n = 8 ∨
    500000 < n ∧ n ≤ 2000000 ∧ formatSectorsPerCluster n = 4 ∨ 100000 < n ∧ n ≤ 500000 ∧ formatSectorsPerCluster n = 2 ∨
    n ≤ 100000 ∧ formatSectorsPerCluster n = 1 := by
  unfold formatSectorsPerCluster
  split_ifs <;> omega

theorem formatSizes_spec {width total : Nat} {s : FormatSizes} (h : formatSizes width total = some s)
    (hpos : 0 < total) (hmax : total < 2 ^ 32) : s.Spec (fatEntriesPerSector width) total := by
  have hw := formatSizes_mem h
  obtain ⟨hlo, hhi⟩ := fatEntriesPerSector_bounds hw
  unfold formatSizes at h
  rw [if_pos hw, sub32_of_le hmax (show 1 ≤ total from hpos)] at h
  dsimp only at h
  generalize he : fatEntriesPerSector width = e at *
  generalize ht : (total - 1) / formatSectorsPerCluster total = t at *
  split at h
  · cases h
  rename_i htwo
  have hte : t ≤ total - 1 := ht ▸ Nat.div_le_self _ _
  -- the estimate is far from the end of the 32 bits
  have hsmall : t + e - 1 < 2 ^ 32 := by
    rcases formatSectorsPerCluster_cases total with ⟨-, hs⟩ | ⟨-, hle, -⟩ | ⟨-, hle, -⟩ | ⟨hle, -⟩
    · rw [hs] at ht
      omega
    · omega
    · omega
    · omega
  have hneeded : fatSectorsNeeded width t = (t + e - 1) / e := by
    unfold fatSectorsNeeded
    rw [he, Nat.mod_eq_of_lt hsmall]
  have hone : 1 ≤ (t + e - 1) / e := Nat.div_pos (by omega) (by omega)
  have hless : (t + e - 1) / e < t := by
    have htwo' : 2 ≤ t := by omega
    have hmul : t + e ≤ t * e := by nlinarith only [hlo, htwo']
    rw [Nat.div_lt_iff_lt_mul (by omega)]
    omega
  generalize hf : (t + e - 1) / e = f at *
  rw [hneeded, if_neg (by omega), sub32_of_le (show total - 1 < 2 ^ 32 by omega) (show f ≤ total - 1 by omega),
    sub32_of_le (show total - 1 - f < 2 ^ 32 by omega) (show 1 ≤ total - 1 - f by omega), Option.some.injEq] at h
  subst h
  refine ⟨by omega, rfl, ?_, ?_, ?_⟩
  · rw [ht, hf]
  · show f + 2 ≤ total
    omega
  · show (total - 1 - f - 1) / _ = (total - 2 - f) / _
    congr 1
    omega

theorem FormatSizes.Spec.le_entries {entries total : Nat} {s : FormatSizes} (h : s.Spec entries total)
    (hpos : 0 < entries) : s.totalClusters ≤ s.fatSectors * entries := by
  have hestimate : s.totalClusters ≤ (total - 1) / s.sectorsPerCluster := by
    rw [h.clusters]
    exact Nat.div_le_div_right (by omega)
  have hdiv := Nat.div_add_mod ((total - 1) / s.sectorsPerCluster + entries - 1) entries
  have hmod := Nat.mod_lt ((total - 1) / s.sectorsPerCluster + entries - 1) hpos
  rw [← h.needed, Nat.mul_comm] at hdiv
  omega

/-! ## Cluster numbers -/

/-- The greatest number up to which a width has no marks. -/
def clusterLimit (width : Nat) : Nat :=
  match width with
  | 4 => 13
  | 8 => 254
  | 12 => 0xFF6
  | 16 => 0xFFF6
  | 32 => 0x0FFFFFF6
  | 64 => 2 ^ 32
  | _ => 1

theorem numbers_iff {width : Nat} (hw : width ∈ fatWidths) {n : Nat} (hn : n < 2 ^ 32) : (∀ c, 2 ≤ c → c ≤ n →
      c < 2 ^ payloadBits width ∧ fatIsEocValue width c = false ∧ fatIsBadValue width c = false) ↔
      n ≤ clusterLimit width := by
  unfold fatWidths at hw
  simp only [List.mem_cons, List.not_mem_nil, or_false] at hw
  constructor
  · intro h
    by_contra hlt
    have hnext := h (clusterLimit width + 1)
    rcases hw with rfl | rfl | rfl | rfl | rfl | rfl | rfl | rfl | rfl <;>
      simp only [clusterLimit] at hlt hnext <;>
      first
        | omega
        | exact absurd (hnext (by omega) (by omega)) (by decide)
  · intro h c hlo hhi
    rcases hw with rfl | rfl | rfl | rfl | rfl | rfl | rfl | rfl | rfl <;>
      simp only [clusterLimit] at h <;>
      simp [payloadBits, fatIsEocValue, fatIsBadValue] <;> omega

/-! ## Where the geometry is sound -/

section

variable {width total : Nat} {s : FormatSizes}

theorem not_formatSound_zero (rootSectors : Nat) : ¬ FormatSound width 0 s (bootSector width 0 s) rootSectors := by
  intro h
  have := h.fit (0, 1) (List.mem_cons_self ..)
  omega

theorem formatSound_sum_iff (h : formatSizes width total = some s) (hpos : 0 < total) (hmax : total < 2 ^ 32)
    (rootSectors : Nat) : FormatSound width total s (bootSector width total s) rootSectors ↔
      (width < 32 → s.fatSectors < 2 ^ 16) ∧
        1 + s.fatSectors + rootSectors + s.totalClusters * s.sectorsPerCluster ≤ total ∧
        s.totalClusters ≤ clusterLimit width := by
  have hw := formatSizes_mem h
  have hspec := formatSizes_spec h hpos hmax
  have hspc : s.sectorsPerCluster % 2 ^ 8 = s.sectorsPerCluster := by
    rw [hspec.spc]
    rcases formatSectorsPerCluster_cases total with ⟨-, hs⟩ | ⟨-, -, hs⟩ | ⟨-, -, hs⟩ | ⟨-, hs⟩ <;>
      rw [hs] <;> rfl
  have hfat : (bootSector width total s).fatSectors = s.fatSectors ↔ (width < 32 → s.fatSectors < 2 ^ 16) := by
    unfold BootSector.fatSectors bootSector
    dsimp only
    by_cases hnarrow : width < 32
    · rw [if_pos hnarrow, if_pos hnarrow]
      omega
    · rw [if_neg hnarrow, if_pos (by omega)]
      exact ⟨fun _ h => absurd h hnarrow, fun _ => rfl⟩
  have hregions : (bootSector width total s).fatSectors = s.fatSectors →
      (bootSector width total s).regions rootSectors =
        [(0, 1), (1, 1 * s.fatSectors), (1 + 1 * s.fatSectors, rootSectors),
          (1 + 1 * s.fatSectors + rootSectors, s.totalClusters * s.sectorsPerCluster)] := fun hf => by
    unfold BootSector.regions
    rw [hf]
    show [_, _, _, (_, s.totalClusters * (s.sectorsPerCluster % 2 ^ 8))] = _
    rw [hspc]
    rfl
  have hclusters : s.totalClusters < 2 ^ 32 := by
    rw [hspec.clusters]
    exact Nat.lt_of_le_of_lt (Nat.div_le_self _ _) (by omega)
  rw [← numbers_iff hw hclusters, ← hfat]
  constructor
  · intro hsound
    have hwhole := hsound.whole.2.1
    have hlast := hsound.fit (1 + 1 * s.fatSectors + rootSectors, s.totalClusters * s.sectorsPerCluster)
      (by rw [hregions hwhole]; simp)
    exact ⟨hwhole, by omega, hsound.numbers⟩
  · rintro ⟨hwhole, hfit, hnumbers⟩
    refine ⟨?_, ?_, ?_, ⟨hspc, hwhole, rfl, ?_⟩, hnumbers⟩
    · rw [hregions hwhole]
      intro r hr
      simp only [List.mem_cons, List.not_mem_nil, or_false] at hr
      rcases hr with rfl | rfl | rfl | rfl <;> dsimp only <;> omega
    · rw [hregions hwhole]
      simp only [List.pairwise_cons, List.mem_cons, List.not_mem_nil, or_false, forall_eq_or_imp, forall_eq]
      refine ⟨⟨?_, ?_, ?_⟩, ⟨?_, ?_⟩, ?_, ?_⟩ <;> first | omega | simp
    · intro c hc
      rw [hwhole]
      exact Nat.lt_of_lt_of_le hc (hspec.le_entries (by have := fatEntriesPerSector_bounds hw; omega))
    · unfold bootSector
      dsimp only
      split <;> omega

theorem brainfsFormat_eq_some {bs : BootSector} (h : brainfsFormat width total = some (s, bs)) :
    formatSizes width total = some s ∧ bs = bootSector width total s := by
  unfold brainfsFormat at h
  rw [Option.map_eq_some_iff] at h
  obtain ⟨s', hs, heq⟩ := h
  obtain ⟨rfl, rfl⟩ := Prod.mk.inj heq
  exact ⟨hs, rfl⟩

theorem bootSector_rootSectors (width total : Nat) (s : FormatSizes) :
    (bootSector width total s).rootSectors = if 32 ≤ width then 0 else 2 := by
  unfold BootSector.rootSectors bootSector
  dsimp only
  split <;> rfl

theorem formatSound_sectors_iff (h : formatSizes width total = some s) (hpos : 0 < total)
    (hmax : total < 2 ^ 32) (rootSectors : Nat) :
    FormatSound width total s (bootSector width total s) rootSectors ↔
      let spc := formatSectorsPerCluster total
      let fat := ((total - 1) / spc + fatEntriesPerSector width - 1) / fatEntriesPerSector width
      (width < 32 → fat < 2 ^ 16) ∧ 1 + fat + rootSectors + (total - 2 - fat) / spc * spc ≤ total ∧
        (total - 2 - fat) / spc ≤ clusterLimit width := by
  obtain ⟨-, hspc, hneeded, -, hclusters⟩ := formatSizes_spec h hpos hmax
  rw [formatSound_sum_iff h hpos hmax, hclusters, hneeded, hspc]

/-- **Where the geometry is sound**, with the root directory that is recorded. -/
theorem formatSound_iff {bs : BootSector} (h : brainfsFormat width total = some (s, bs))
    (hmax : total < 2 ^ 32) : FormatSound width total s bs bs.rootSectors ↔ FormatFits width total := by
  obtain ⟨hsizes, rfl⟩ := brainfsFormat_eq_some h
  have hw := formatSizes_mem hsizes
  unfold fatWidths at hw
  simp only [List.mem_cons, List.not_mem_nil, or_false] at hw
  rcases Nat.eq_zero_or_pos total with rfl | hpos
  · refine ⟨fun hsound => absurd hsound (not_formatSound_zero _), fun hfits => ?_⟩
    rcases hw with rfl | rfl | rfl | rfl | rfl | rfl | rfl | rfl | rfl <;> simp [FormatFits] at hfits
  have hthree := (formatSizes_spec hsizes hpos hmax).enough
  have hsmall : fatSectorsNeeded 16 ((total - 1) / 2) = ((total - 1) / 2 + 255) / 256 := by
    unfold fatSectorsNeeded
    rw [Nat.mod_eq_of_lt (show (total - 1) / 2 + fatEntriesPerSector 16 - 1 < 2 ^ 32 by
      simp only [fatEntriesPerSector]
      omega)]
    rfl
  rw [formatSound_sectors_iff hsizes hpos hmax, bootSector_rootSectors]
  -- for each width and each size of clusters the sizes are linear in the sectors
  rcases hw with rfl | rfl | rfl | rfl | rfl | rfl | rfl | rfl | rfl <;>
    simp +decide only [FormatFits, clusterLimit, fatEntriesPerSector, hsmall, if_true, if_false,
      true_implies, false_implies, iff_false, true_and] <;>
    rcases formatSectorsPerCluster_cases total with ⟨hn, hs⟩ | ⟨hn, hn', hs⟩ | ⟨hn, hn', hs⟩ | ⟨hn, hs⟩ <;>
    rw [hs] <;> omega

/-- **Where the geometry is sound** with the one sector that is set aside for the root directory. -/
theorem formatSound_setAside_iff {bs : BootSector} (h : brainfsFormat width total = some (s, bs))
    (hmax : total < 2 ^ 32) : FormatSound width total s bs 1 ↔ FormatFitsSetAside width total := by
  obtain ⟨hsizes, rfl⟩ := brainfsFormat_eq_some h
  have hw := formatSizes_mem hsizes
  unfold fatWidths at hw
  simp only [List.mem_cons, List.not_mem_nil, or_false] at hw
  rcases Nat.eq_zero_or_pos total with rfl | hpos
  · refine ⟨fun hsound => absurd hsound (not_formatSound_zero _), fun hfits => ?_⟩
    rcases hw with rfl | rfl | rfl | rfl | rfl | rfl | rfl | rfl | rfl <;> simp [FormatFitsSetAside] at hfits
  have hthree := (formatSizes_spec hsizes hpos hmax).enough
  rw [formatSound_sectors_iff hsizes hpos hmax]
  rcases hw with rfl | rfl | rfl | rfl | rfl | rfl | rfl | rfl | rfl <;>
    simp +decide only [FormatFitsSetAside, clusterLimit, fatEntriesPerSector, true_implies, false_implies,
      true_and] <;>
    rcases formatSectorsPerCluster_cases total with ⟨hn, hs⟩ | ⟨hn, hn', hs⟩ | ⟨hn, hn', hs⟩ | ⟨hn, hs⟩ <;>
    rw [hs] <;> omega

end

/-- A volume of 1000 sectors with 32-bit entries: 8 sectors of table, 990 clusters. -/
theorem format_thousand : FormatSound 32 1000 ⟨1, 8, 990⟩ (bootSector 32 1000 ⟨1, 8, 990⟩)
    (bootSector 32 1000 ⟨1, 8, 990⟩).rootSectors :=
  (formatSound_iff (show brainfsFormat 32 1000 = some (⟨1, 8, 990⟩, _) from rfl) (by decide)).mpr
    ⟨by decide, by decide⟩

/-- With 8-bit entries the same volume gets 996 clusters, more than an entry can tell apart. -/
theorem format_eight_bits : brainfsFormat 8 1000 = some (⟨1, 2, 996⟩, bootSector 8 1000 ⟨1, 2, 996⟩) ∧
    ¬ FormatSound 8 1000 ⟨1, 2, 996⟩ (bootSector 8 1000 ⟨1, 2, 996⟩) (bootSector 8 1000 ⟨1, 2, 996⟩).rootSectors := by
  refine ⟨rfl, fun h => ?_⟩
  exact absurd (h.numbers 256 (by decide) (by decide)).1 (by decide)

end Chicago95.Stage2
