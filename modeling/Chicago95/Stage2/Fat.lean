/-
# Chicago95.Stage2.Fat — the file allocation table of BrainFS.

`brainfs_fat.c` classifies table values by the width of the table: which values end a chain, which mark a
bad cluster. `brainfs_core.c` reads and writes entries of the table that is in memory, if one is: a volume
as `brainfs_mount` sets it up has none, reads give `0` and writes are dropped.
-/
import Mathlib.Algebra.Group.Nat.Defs
import Mathlib.Logic.Function.Basic
import Mathlib.Tactic.Common

namespace Chicago95.Stage2

/-! ## Values of table entries -/

/-- `brainfs_fat_is_eoc_value` -/
def fatIsEocValue (width value : Nat) : Bool :=
  match width with
  | 1 => decide (value = 1)
  | 2 => decide (value = 3)
  | 4 => decide (value = 15)
  | 8 => decide (0xFF ≤ value)
  | 12 => decide (0xFF8 ≤ value)
  | 16 => decide (0xFFF8 ≤ value)
  | 32 => decide (0x0FFFFFF8 ≤ value)
  | 64 => decide (0xFFFFFFFFFFFFFFF8 ≤ value)
  | 128 => decide (value = 1)
  | _ => false

/-- `brainfs_fat_is_bad_value` -/
def fatIsBadValue (width value : Nat) : Bool :=
  match width with
  | 1 => false
  | 2 => decide (value = 2)
  | 4 => decide (value = 14)
  | 8 => decide (value = 0xFF)
  | 12 => decide (value = 0xFF7)
  | 16 => decide (value = 0xFFF7)
  | 32 => decide (value = 0x0FFFFFF7)
  | 64 => decide (value = 0xFFFFFFFFFFFFFFF0)
  | 128 => decide (value = 2)
  | _ => false

/-- `brainfs_fat_free_value` -/
def fatFreeValue (_width : Nat) : Nat := 0

/-- The end-of-chain value `brainfs_fat_alloc_cluster` writes. -/
def allocEoc (width : Nat) : Nat :=
  match width with
  | 1 => 1
  | 2 => 3
  | 4 => 15
  | 8 => 0xFF
  | 12 => 0xFF8
  | 16 => 0xFFF8
  | 32 => 0x0FFFFFF8
  | 64 => 0xFFFFFFFFFFFFFFF8
  | 128 => 1
  | _ => 0xFF8

/-- The end-of-chain value `brainfs_file_write` writes when it links a cluster. -/
def linkEoc (width : Nat) : Nat :=
  match width with
  | 128 => 1
  | 64 => 0xFFFFFFFFFFFFFFF8
  | 32 => 0x0FFFFFF8
  | 16 => 0xFFF8
  | 12 => 0xFF8
  | 8 => 0xFF
  | 4 => 15
  | 2 => 3
  | _ => 1

/-- The widths with chains. -/
def chainWidths : List Nat := [2, 4, 8, 12, 16, 32, 64, 128]

theorem eoc_written {width : Nat} (hw : width ∈ chainWidths) :
    fatIsEocValue width (allocEoc width) = true ∧ fatIsEocValue width (linkEoc width) = true ∧
      allocEoc width ≠ 0 ∧ linkEoc width ≠ 0 := by
  revert width
  decide

/-! ## Mounted volumes -/

/-- `brainfs_mount_t` with its `brainfs_fat_t`; `table` is `none` for the null pointer. -/
structure Mount where
  drive : Nat
  mounted : Bool
  fatWidth : Nat
  sectorsPerCluster : Nat
  totalClusters : Nat
  table : Option (Nat → Nat)
  rootCluster : Nat

/-- `brainfs_mount`, into static storage: the table pointer and the root cluster stay zero. -/
def brainfsMount (drive width : Nat) : Mount :=
  { drive := drive, mounted := true, fatWidth := width, sectorsPerCluster := 1, totalClusters := 1024,
    table := none, rootCluster := 0 }

/-- The volume with a table in memory. -/
def Mount.withTable (m : Mount) (t : Nat → Nat) : Mount := { m with table := some t }

namespace Mount

/-- `brainfs_fat_read_entry` -/
def fatReadEntry (m : Mount) (cluster : Nat) : Option Nat :=
  if m.totalClusters ≤ cluster then none
  else
    match m.table with
    | some t => some (t cluster)
    | none => some 0

/-- `brainfs_fat_write_entry` -/
def fatWriteEntry (m : Mount) (cluster value : Nat) : Mount :=
  if m.totalClusters ≤ cluster then m
  else
    match m.table with
    | some t => { m with table := some (Function.update t cluster value) }
    | none => m

/-- The variable a caller reads an entry into. -/
def entry (m : Mount) (cluster : Nat) : Nat := (m.fatReadEntry cluster).getD 0

/-- `brainfs_fat_next_cluster` -/
def fatNextCluster (m : Mount) (cluster : Nat) : Nat :=
  if fatIsEocValue m.fatWidth (m.entry cluster) = true then 0 else m.entry cluster % 2 ^ 32

/-- `brainfs_fat_is_free` -/
def fatIsFree (m : Mount) (cluster : Nat) : Bool := decide (m.entry cluster = 0)

/-- `brainfs_fat_count_free` -/
def fatCountFree (m : Mount) : Nat :=
  (List.range m.totalClusters).countP fun c => decide (2 ≤ c) && m.fatIsFree c

/-! ## Reading what was written -/

@[simp] theorem fatWriteEntry_fatWidth (m : Mount) (c v : Nat) : (m.fatWriteEntry c v).fatWidth = m.fatWidth := by
  unfold fatWriteEntry
  split
  · rfl
  · split <;> rfl

@[simp] theorem fatWriteEntry_totalClusters (m : Mount) (c v : Nat) :
    (m.fatWriteEntry c v).totalClusters = m.totalClusters := by
  unfold fatWriteEntry
  split
  · rfl
  · split <;> rfl

theorem entry_of_none {m : Mount} (h : m.table = none) (c : Nat) : m.entry c = 0 := by
  unfold entry fatReadEntry
  rw [h]
  split <;> rfl

theorem fatNextCluster_of_none {m : Mount} (h : m.table = none) (c : Nat) : m.fatNextCluster c = 0 := by
  unfold fatNextCluster
  rw [entry_of_none h]
  split <;> rfl

theorem fatWriteEntry_of_none {m : Mount} (h : m.table = none) (c v : Nat) : m.fatWriteEntry c v = m := by
  unfold fatWriteEntry
  rw [h]
  split <;> rfl

theorem fatWriteEntry_isSome (m : Mount) (c v : Nat) : (m.fatWriteEntry c v).table.isSome = m.table.isSome := by
  unfold fatWriteEntry
  split
  · rfl
  · split
    · next t ht => rw [ht]; rfl
    · rfl

theorem entry_write_self {m : Mount} (h : m.table.isSome = true) {c : Nat} (hc : c < m.totalClusters)
    (v : Nat) : (m.fatWriteEntry c v).entry c = v := by
  obtain ⟨t, ht⟩ := Option.isSome_iff_exists.mp h
  simp [entry, fatReadEntry, fatWriteEntry, ht, Nat.not_le.mpr hc]

theorem entry_write_of_ne (m : Mount) {c d : Nat} (h : d ≠ c) (v : Nat) :
    (m.fatWriteEntry c v).entry d = m.entry d := by
  rcases ht : m.table with _ | t
  · rw [fatWriteEntry_of_none ht]
  · by_cases hc : m.totalClusters ≤ c
    · simp only [fatWriteEntry, if_pos hc]
    · simp only [entry, fatReadEntry, fatWriteEntry, ht, if_neg hc, Function.update_of_ne h]

theorem fatNextCluster_of_link {m : Mount} {c d : Nat} (h : m.entry c = d)
    (hd : fatIsEocValue m.fatWidth d = false) (hlt : d < 2 ^ 32) : m.fatNextCluster c = d := by
  unfold fatNextCluster
  rw [h, hd, if_neg Bool.false_ne_true, Nat.mod_eq_of_lt hlt]

theorem fatNextCluster_of_eoc {m : Mount} {c : Nat}
    (h : fatIsEocValue m.fatWidth (m.entry c) = true) : m.fatNextCluster c = 0 := if_pos h

theorem fatNextCluster_congr {m m' : Mount} (hw : m'.fatWidth = m.fatWidth) {c : Nat}
    (h : m'.entry c = m.entry c) : m'.fatNextCluster c = m.fatNextCluster c := by
  unfold fatNextCluster
  rw [hw, h]

end Mount

end Chicago95.Stage2
