/-
# Chicago95.Kernel.RawDisk — `/dev/sda` as an array of bytes.

The disk is an array of sectors, and the driver moves whole sectors. `dev_sda_read` and `dev_sda_write` of `vfs.c`, and
their twins `ata_dev_read` and `ata_dev_write` of `device.c`, turn an offset and a length in bytes into an LBA and a count.
-/
import Mathlib.Algebra.Group.Nat.Defs
import Mathlib.Tactic.Common

namespace Chicago95.Kernel.RawDisk

/-! ## The drive -/

/-- A drive, its sectors numbered by an LBA of 32 bits. -/
structure Drive where
  sectors : Nat
  sectors_le : sectors ≤ 2 ^ 32
  /-- Byte `i` of sector `s`. -/
  data : Nat → Nat → UInt8

/-- The drive as an array of bytes. -/
def Drive.byteAt (d : Drive) (i : Nat) : UInt8 := d.data (i / 512) (i % 512)

/-- What the allocator and `ata_poll` answer to a call. -/
structure Answers where
  kmallocAligned : Bool
  ataPoll : Bool

/-- `ata_read_sectors`: the bytes of its buffer, or `none` for -1. A drive reports a sector that it does not have. -/
def ataReadSectors (poll : Bool) (d : Drive) (lba : UInt32) (count : UInt8) : Option (Nat → UInt8) :=
  if poll ∧ lba.toNat + count.toNat ≤ d.sectors then some fun i => d.data (lba.toNat + i / 512) (i % 512) else none

/-- `ata_write_sectors`, which returns 0 whatever the drive reports. -/
def ataWriteSectors (d : Drive) (lba : UInt32) (count : UInt8) (buffer : Nat → UInt8) : Drive :=
  { d with
    data := fun s i =>
      if lba.toNat ≤ s ∧ s < lba.toNat + count.toNat ∧ s < d.sectors then buffer ((s - lba.toNat) * 512 + i)
      else d.data s i }

/-! ## The code -/

/-- `sectors` -/
def sectorCount (len : UInt64) : UInt8 :=
  let sectors := ((len + 511) / 512).toUInt8
  if sectors = 0 then 1 else sectors

/-- `copy` -/
def copyLength (len : UInt64) : Nat :=
  if (sectorCount len).toNat * 512 < len.toNat then (sectorCount len).toNat * 512 else len.toNat

/-- The body that `dev_sda_read` and `ata_dev_read` share: what is copied to the caller, or `none` for -1. -/
def sectorRead (ans : Answers) (d : Drive) (off len : UInt64) : Option (List UInt8) :=
  if ans.kmallocAligned then
    (ataReadSectors ans.ataPoll d (off / 512).toUInt32 (sectorCount len)).map fun tmp =>
      (List.range (copyLength len)).map tmp
  else none

/-- The body that `dev_sda_write` and `ata_dev_write` share: what it returns, `none` for -1, and the drive after it. -/
def sectorWrite (ans : Answers) (d : Drive) (off : UInt64) (buf : Nat → UInt8) (len : UInt64) : Option Nat × Drive :=
  if ans.kmallocAligned then
    let tmp := fun i => if i < copyLength len then buf i else 0
    (some (copyLength len), ataWriteSectors d (off / 512).toUInt32 (sectorCount len) tmp)
  else (none, d)

def devSdaRead := sectorRead

def ataDevRead := sectorRead

def devSdaWrite := sectorWrite

def ataDevWrite := sectorWrite

/-! ## An array of bytes -/

/-- A read gives the bytes from its offset on, as many as it returns. -/
def ReadLaw (read : Answers → Drive → UInt64 → UInt64 → Option (List UInt8)) (sectors : Nat) (off len : UInt64) : Prop :=
  ∀ (d : Drive) (ans : Answers) (bytes : List UInt8), d.sectors = sectors → read ans d off len = some bytes →
    bytes.length ≤ len.toNat ∧ bytes = (List.range bytes.length).map fun i => d.byteAt (off.toNat + i)

/-- A write changes the bytes from its offset on, as many as it returns, and no others. -/
def WriteLaw (write : Answers → Drive → UInt64 → (Nat → UInt8) → UInt64 → Option Nat × Drive) (sectors : Nat)
    (off len : UInt64) : Prop :=
  ∀ (d d' : Drive) (ans : Answers) (buf : Nat → UInt8) (n : Nat), d.sectors = sectors →
    write ans d off buf len = (some n, d') →
    n ≤ len.toNat ∧ d'.sectors = d.sectors ∧ ∀ i < d.sectors * 512,
      d'.byteAt i = if off.toNat ≤ i ∧ i < off.toNat + n then buf (i - off.toNat) else d.byteAt i

/-- Nothing of the first sector is to be left out. -/
def ReadFits (off len : UInt64) : Prop := off.toNat % 512 = 0 ∨ len = 0

/-- Nothing of the first and the last sector is to be kept: the length is full sectors, or so long that the count is cut
off. -/
def WriteFits (sectors : Nat) (off len : UInt64) : Prop :=
  if len = 0 then sectors ≤ off.toNat / 512 % 2 ^ 32
  else off.toNat % 512 = 0 ∧ (len.toNat % 512 = 0 ∨ 255 * 512 < len.toNat)

/-! ## The count -/

/-- A length on a disk, and what becomes of it. -/
structure Counted (len count copy : Nat) : Prop where
  pos : 0 < count
  le : len ≠ 0 → count ≤ (len + 511) / 512
  copy_le : copy ≤ count * 512
  copy_le_len : copy ≤ len
  copy_pos : len ≠ 0 → 0 < copy
  short : len ≤ 255 * 512 → copy = len
  full : 255 * 512 < len → copy = count * 512
  /-- Only the last sector is filled up. -/
  last : len ≤ 255 * 512 → len ≠ 0 → count * 512 < len + 512

theorem sectorCount_toNat {len : UInt64} (h : len.toNat ≤ 2 ^ 32 * 512) :
    (sectorCount len).toNat = if (len.toNat + 511) / 512 % 256 = 0 then 1 else (len.toNat + 511) / 512 % 256 := by
  have hsum : (len + 511).toNat = len.toNat + 511 := by
    rw [UInt64.toNat_add]
    exact Nat.mod_eq_of_lt (by rw [show (511 : UInt64).toNat = 511 from rfl]; omega)
  have hnat : ((len + 511) / 512).toUInt8.toNat = (len.toNat + 511) / 512 % 256 := by
    rw [UInt64.toNat_toUInt8, UInt64.toNat_div, hsum]
    rfl
  unfold sectorCount
  dsimp only
  split
  · rename_i hzero
    have hmod : (len.toNat + 511) / 512 % 256 = 0 := by rw [← hnat, hzero]; rfl
    rw [if_pos hmod]
    rfl
  · rename_i hne
    have hmod : (len.toNat + 511) / 512 % 256 ≠ 0 := fun hn => hne (UInt8.toNat_inj.mp (hnat.trans hn))
    rw [hnat, if_neg hmod]

theorem counted {len : UInt64} (h : len.toNat ≤ 2 ^ 32 * 512) :
    Counted len.toNat (sectorCount len).toNat (copyLength len) := by
  have hcount := sectorCount_toNat h
  have hcopy : copyLength len = min ((sectorCount len).toNat * 512) len.toNat := by
    unfold copyLength
    split <;> omega
  rw [hcopy]
  generalize (sectorCount len).toNat = count at hcount
  generalize len.toNat = n at hcount
  have hcases : count = 1 ∧ (n + 511) / 512 % 256 = 0 ∨ count = (n + 511) / 512 % 256 ∧ 0 < count := by
    split at hcount <;> omega
  exact ⟨by omega, by omega, by omega, by omega, by omega, by omega, by omega, by omega⟩

theorem lba_toNat (off : UInt64) : (off / 512).toUInt32.toNat = off.toNat / 512 % 2 ^ 32 := by
  rw [UInt64.toNat_toUInt32, UInt64.toNat_div]
  rfl

theorem lba_of_pos {sectors : Nat} (hs : sectors ≤ 2 ^ 32) {off : UInt64} {len : Nat} (h0 : 0 < len)
    (h : off.toNat + len ≤ sectors * 512) : (off / 512).toUInt32.toNat = off.toNat / 512 := by
  rw [lba_toNat, Nat.mod_eq_of_lt]
  omega

theorem toNat_pos {len : UInt64} (h : len ≠ 0) : 0 < len.toNat :=
  Nat.pos_of_ne_zero fun hz => h (UInt64.toNat_inj.mp hz)

/-- A drive with the bytes of `f`. -/
def Drive.ofBytes (sectors : Nat) (h : sectors ≤ 2 ^ 32) (f : Nat → UInt8) : Drive where
  sectors := sectors
  sectors_le := h
  data := fun s i => f (s * 512 + i)

theorem exists_drive {sectors : Nat} (h : sectors ≤ 2 ^ 32) (f : Nat → UInt8) :
    ∃ d : Drive, d.sectors = sectors ∧ ∀ i, d.byteAt i = f i :=
  ⟨Drive.ofBytes sectors h f, rfl, fun i => congrArg f (Nat.div_add_mod' i 512)⟩

/-! ## Reading -/

theorem sectorRead_eq {ans : Answers} {d : Drive} {off len : UInt64} {bytes : List UInt8}
    (h : sectorRead ans d off len = some bytes) :
    bytes = (List.range (copyLength len)).map fun i => d.byteAt ((off / 512).toUInt32.toNat * 512 + i) := by
  unfold sectorRead at h
  split at h
  · obtain ⟨tmp, htmp, rfl⟩ := Option.map_eq_some_iff.mp h
    unfold ataReadSectors at htmp
    split at htmp
    · obtain rfl := Option.some.inj htmp
      refine List.map_congr_left fun i _ => ?_
      unfold Drive.byteAt
      congr 1 <;> omega
    · cases htmp
  · cases h

theorem sectorRead_succeeds {d : Drive} {off len : UInt64} (h0 : len ≠ 0)
    (hin : off.toNat + len.toNat ≤ d.sectors * 512) :
    ∃ bytes, sectorRead ⟨true, true⟩ d off len = some bytes ∧ bytes.length = copyLength len := by
  have hle := d.sectors_le
  have hpos := toNat_pos h0
  have hcounted : Counted len.toNat (sectorCount len).toNat (copyLength len) := counted (by omega)
  have hcount := hcounted.le (Nat.ne_of_gt hpos)
  have hlba := lba_of_pos hle hpos hin
  have hfits : (off / 512).toUInt32.toNat + (sectorCount len).toNat ≤ d.sectors := by
    rw [hlba]
    omega
  have hread : sectorRead ⟨true, true⟩ d off len = some ((List.range (copyLength len)).map fun i =>
      d.data ((off / 512).toUInt32.toNat + i / 512) (i % 512)) := by
    unfold sectorRead ataReadSectors
    rw [if_pos rfl, if_pos ⟨rfl, hfits⟩, Option.map_some]
  exact ⟨_, hread, by rw [List.length_map, List.length_range]⟩

theorem readLaw_iff {sectors : Nat} (hs : sectors ≤ 2 ^ 32) {off len : UInt64}
    (hin : off.toNat + len.toNat ≤ sectors * 512) : ReadLaw sectorRead sectors off len ↔ ReadFits off len := by
  have hcounted : Counted len.toNat (sectorCount len).toNat (copyLength len) := counted (by omega)
  constructor
  · intro h
    by_contra hnot
    obtain ⟨hoff, h0⟩ := not_or.mp hnot
    have hpos := toNat_pos h0
    -- one byte set, where the read should begin
    obtain ⟨d, rfl, hd⟩ := exists_drive hs fun i => if i = off.toNat then 1 else 0
    obtain ⟨bytes, hread, hlen⟩ := sectorRead_succeeds (d := d) h0 hin
    have heq := (h d _ bytes rfl hread).2
    have hcopy := hcounted.copy_pos (Nat.ne_of_gt hpos)
    have hgot := sectorRead_eq hread
    rw [hlen] at heq
    have hfirst := congrArg (fun l : List UInt8 => l[0]?) (hgot.symm.trans heq)
    simp only [List.getElem?_map, List.getElem?_range hcopy, Option.map_some, Nat.add_zero] at hfirst
    have hbyte := Option.some.inj hfirst
    rw [hd, hd, if_pos rfl, lba_of_pos hs hpos hin, if_neg (by omega)] at hbyte
    exact absurd hbyte (by decide)
  · intro h d ans bytes hd hread
    have hgot := sectorRead_eq hread
    have hlen : bytes.length = copyLength len := by rw [hgot, List.length_map, List.length_range]
    refine ⟨hlen ▸ hcounted.copy_le_len, ?_⟩
    rw [hlen, hgot]
    refine List.map_congr_left fun i hi => congrArg d.byteAt ?_
    have hi' := List.mem_range.mp hi
    have hcopy := hcounted.copy_le_len
    have hpos : 0 < len.toNat := by omega
    have hoff : off.toNat % 512 = 0 := h.resolve_right fun hzero => by
      rw [hzero] at hpos
      exact absurd hpos (by decide)
    rw [lba_of_pos hs hpos hin]
    omega

/-! ## Writing -/

theorem sectorWrite_eq {ans : Answers} {d d' : Drive} {off len : UInt64} {buf : Nat → UInt8} {n : Nat}
    (h : sectorWrite ans d off buf len = (some n, d')) : n = copyLength len ∧ d'.sectors = d.sectors := by
  unfold sectorWrite at h
  split at h
  · obtain ⟨hn, rfl⟩ := Prod.mk.inj h
    exact ⟨(Option.some.inj hn).symm, rfl⟩
  · cases h

theorem sectorWrite_byteAt {ans : Answers} {d d' : Drive} {off len : UInt64} {buf : Nat → UInt8} {n : Nat}
    (h : sectorWrite ans d off buf len = (some n, d')) {lba count : Nat} (hlba : (off / 512).toUInt32.toNat = lba)
    (hcount : (sectorCount len).toNat = count) {i : Nat} (hi : i < d.sectors * 512) : d'.byteAt i =
      if lba * 512 ≤ i ∧ i < lba * 512 + count * 512 then if i - lba * 512 < n then buf (i - lba * 512) else 0
      else d.byteAt i := by
  obtain ⟨rfl, -⟩ := sectorWrite_eq h
  unfold sectorWrite at h
  split at h
  · obtain ⟨-, rfl⟩ := Prod.mk.inj h
    unfold Drive.byteAt ataWriteSectors
    dsimp only
    rw [hlba, hcount]
    have hplace : lba * 512 ≤ i → (i / 512 - lba) * 512 + i % 512 = i - lba * 512 := by omega
    by_cases hwithin : lba * 512 ≤ i ∧ i < lba * 512 + count * 512
    · rw [if_pos hwithin, if_pos (by omega), hplace hwithin.1]
    · rw [if_neg hwithin, if_neg (by omega)]
  · cases h

theorem sectorWrite_succeeds (d : Drive) (off len : UInt64) (buf : Nat → UInt8) :
    ∃ d', sectorWrite ⟨true, true⟩ d off buf len = (some (copyLength len), d') := ⟨_, rfl⟩

theorem writeLaw_zero_iff {sectors : Nat} (hs : sectors ≤ 2 ^ 32) {off len : UInt64} (h0 : len.toNat = 0) :
    WriteLaw sectorWrite sectors off len ↔ sectors ≤ off.toNat / 512 % 2 ^ 32 := by
  have hcounted : Counted len.toNat (sectorCount len).toNat (copyLength len) := counted (by omega)
  have hlba := lba_toNat off
  generalize hcnt : (sectorCount len).toNat = count at hcounted
  obtain ⟨hpos, -, -, hcopylen, -, -, -, -⟩ := hcounted
  generalize off.toNat / 512 % 2 ^ 32 = lba at hlba ⊢
  constructor
  · intro h
    by_contra hlt
    obtain ⟨d, rfl, hd⟩ := exists_drive hs fun _ => 1
    obtain ⟨d', hwrite⟩ := sectorWrite_succeeds d off len fun _ => 1
    have hi : lba * 512 < d.sectors * 512 := Nat.mul_lt_mul_of_pos_right (Nat.not_le.mp hlt) (by decide)
    have hlaw := (h d d' _ _ _ rfl hwrite).2.2 _ hi
    have hbyte := sectorWrite_byteAt hwrite hlba hcnt hi
    rw [if_pos (by omega), if_neg (by omega)] at hbyte
    rw [if_neg (by omega)] at hlaw
    exact absurd (hbyte.symm.trans (hlaw.trans (hd _))) (by decide)
  · intro h d d' ans buf n hd hwrite
    obtain ⟨rfl, hsectors⟩ := sectorWrite_eq hwrite
    refine ⟨hcopylen, hsectors, fun i hi => ?_⟩
    have hlow : i < lba * 512 := Nat.lt_of_lt_of_le (hd ▸ hi) (Nat.mul_le_mul_right 512 h)
    rw [sectorWrite_byteAt hwrite hlba hcnt hi, if_neg (by omega), if_neg (by omega)]

theorem writeLaw_pos_iff {sectors : Nat} (hs : sectors ≤ 2 ^ 32) {off len : UInt64} (h0 : 0 < len.toNat)
    (hin : off.toNat + len.toNat ≤ sectors * 512) : WriteLaw sectorWrite sectors off len ↔
      off.toNat % 512 = 0 ∧ (len.toNat % 512 = 0 ∨ 255 * 512 < len.toNat) := by
  have hcounted : Counted len.toNat (sectorCount len).toNat (copyLength len) := counted (by omega)
  have hlba := lba_of_pos hs h0 hin
  generalize hcnt : (sectorCount len).toNat = count at hcounted
  obtain ⟨hpos, hle, hcopy, hcopylen, hcopypos, hshort, hfull, hlast⟩ := hcounted
  have hcount := hle (by omega)
  have hn := hcopypos (by omega)
  constructor
  · intro h
    by_contra hnot
    by_cases hoff : off.toNat % 512 = 0
    · -- the byte after the data is filled up
      obtain ⟨hrest, hsmall⟩ := not_or.mp fun hlen => hnot ⟨hoff, hlen⟩
      have hcopy' := hshort (by omega)
      have htop := hlast (by omega) (by omega)
      have hi : off.toNat + len.toNat < sectors * 512 := by omega
      obtain ⟨d, rfl, hd⟩ := exists_drive hs fun _ => 1
      obtain ⟨d', hwrite⟩ := sectorWrite_succeeds d off len fun _ => 1
      have hlaw := (h d d' _ _ _ rfl hwrite).2.2 _ hi
      have hbyte := sectorWrite_byteAt hwrite hlba hcnt hi
      rw [if_pos (by omega), if_neg (by omega)] at hbyte
      rw [if_neg (by omega)] at hlaw
      exact absurd (hbyte.symm.trans (hlaw.trans (hd _))) (by decide)
    · -- the sector's first byte lies before the offset
      have hi : off.toNat / 512 * 512 < sectors * 512 := by omega
      obtain ⟨d, rfl, hd⟩ := exists_drive hs fun _ => 0
      obtain ⟨d', hwrite⟩ := sectorWrite_succeeds d off len fun _ => 1
      have hlaw := (h d d' _ _ _ rfl hwrite).2.2 _ hi
      have hbyte := sectorWrite_byteAt hwrite hlba hcnt hi
      rw [if_pos (by omega), if_pos (by omega)] at hbyte
      rw [if_neg (by omega)] at hlaw
      exact absurd (hbyte.symm.trans (hlaw.trans (hd _))) (by decide)
  · rintro ⟨hoff, hlen⟩ d d' ans buf n hd hwrite
    obtain ⟨rfl, hsectors⟩ := sectorWrite_eq hwrite
    have hwhole : copyLength len = count * 512 := by
      rcases Nat.lt_or_ge (255 * 512) len.toNat with hlong | hsmall
      · exact hfull hlong
      · have := hlast hsmall (by omega)
        have := hshort hsmall
        omega
    have hstart : off.toNat / 512 * 512 = off.toNat := by omega
    refine ⟨hcopylen, hsectors, fun i hi => ?_⟩
    rw [sectorWrite_byteAt hwrite hlba hcnt hi, hstart, ← hwhole]
    split
    · rw [if_pos (by omega)]
    · rfl

theorem writeLaw_iff {sectors : Nat} (hs : sectors ≤ 2 ^ 32) {off len : UInt64}
    (hin : off.toNat + len.toNat ≤ sectors * 512) :
    WriteLaw sectorWrite sectors off len ↔ WriteFits sectors off len := by
  unfold WriteFits
  split
  · rename_i h0
    exact writeLaw_zero_iff hs (by rw [h0]; rfl)
  · rename_i h0
    exact writeLaw_pos_iff hs (toNat_pos h0) hin

/-! ## The device -/

/-- **When `/dev/sda` is an array of bytes**, for each offset and length on the disk. -/
theorem sda_iff {sectors : Nat} (hs : sectors ≤ 2 ^ 32) {off len : UInt64}
    (hin : off.toNat + len.toNat ≤ sectors * 512) : (ReadLaw devSdaRead sectors off len ↔ ReadFits off len) ∧
      (WriteLaw devSdaWrite sectors off len ↔ WriteFits sectors off len) ∧
      (ReadLaw ataDevRead sectors off len ↔ ReadFits off len) ∧
      (WriteLaw ataDevWrite sectors off len ↔ WriteFits sectors off len) :=
  ⟨readLaw_iff hs hin, writeLaw_iff hs hin, readLaw_iff hs hin, writeLaw_iff hs hin⟩

/-- Two sectors from the second one on. -/
theorem sda_second_sector : ReadLaw devSdaRead 4 512 1024 ∧ WriteLaw devSdaWrite 4 512 1024 :=
  have h := @sda_iff 4 (by decide) 512 1024 (by decide)
  ⟨h.1.mpr (Or.inl (by decide)), h.2.1.mpr ⟨by decide, Or.inl (by decide)⟩⟩

/-- ⚠ A byte read at offset 1 is the first of the sector, and a byte written there goes to the first and clears the
rest. -/
theorem sda_offset_one : ¬ ReadLaw devSdaRead 1 1 1 ∧ ¬ WriteLaw devSdaWrite 1 1 1 := by
  constructor
  · intro h
    have hfits := (readLaw_iff (by decide) (by decide)).mp h
    exact absurd hfits (by unfold ReadFits; decide)
  · intro h
    have hfits := (writeLaw_iff (by decide) (by decide)).mp h
    exact absurd hfits (by unfold WriteFits; decide)

end Chicago95.Kernel.RawDisk
