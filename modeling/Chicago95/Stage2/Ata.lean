/-
# Chicago95.Stage2.Ata — the sector transfers of the loader's ATA driver, and both drivers together.

`tape_ata_read_sectors`, `tape_ata_write_sectors` and their forms of 48 bits give one command for each sector. The forms
of 28 bits address what 28 bits can; those of 48 bits put bits 24 to 31 of the address into the count, so they address
what 24 bits can. The place in the buffer is counted with 32 bits. `transfers_iff` says for this driver and for that of
the kernel where the sectors moved are those meant.
-/
import Chicago95.Kernel.Ata

namespace Chicago95.Stage2.Ata

open Chicago95.Lib.Loop Chicago95.Lib.TaskFile

abbrev Memory := Nat → UInt8

/-! ## The driver -/

/-- What the transfers read of a `tape_drive_t`. -/
structure TapeDrive where
  present : UInt8
  isMaster : UInt8
  lba48Support : UInt8

/-- `ata_wait_bsy`. The status of a channel does not change while it is waited for. -/
def ataWaitBsy (c : Channel) : Int := if c.status &&& 0x80 = 0 then 0 else -1

def ataWaitDrq (c : Channel) : Int :=
  if c.status &&& 0x01 ≠ 0 then -2
  else if c.status &&& 0x08 ≠ 0 then 0
  else -1

/-- `drive->is_master ? 0 : 1`. -/
def slaveBit (drive : TapeDrive) : UInt8 := if drive.isMaster ≠ 0 then 0 else 1

/-- The registers as the forms of 28 bits write them. -/
def program28 (drive : TapeDrive) (cmd : UInt8) (l : UInt32) (c : Channel) : Channel :=
  let c := c.outb 6 ((0xE0 : UInt8) ||| (slaveBit drive <<< 4) ||| ((l >>> 24) &&& 0x0F).toUInt8)
  let c := c.outb 2 1
  let c := c.outb 3 (l &&& 0xFF).toUInt8
  let c := c.outb 4 ((l >>> 8) &&& 0xFF).toUInt8
  let c := c.outb 5 ((l >>> 16) &&& 0xFF).toUInt8
  c.outb 7 cmd

/-- The registers as the forms of 48 bits write them. -/
def program48 (drive : TapeDrive) (cmd : UInt8) (l : UInt64) (c : Channel) : Channel :=
  let c := c.outb 6 ((0x40 : UInt8) ||| (slaveBit drive <<< 4))
  let c := c.outb 2 ((l >>> 24) &&& 0xFF).toUInt8
  let c := c.outb 3 ((l >>> 32) &&& 0xFF).toUInt8
  let c := c.outb 4 ((l >>> 40) &&& 0xFF).toUInt8
  let c := c.outb 5 ((l >>> 48) &&& 0xFF).toUInt8
  let c := c.outb 2 1
  let c := c.outb 3 (l &&& 0xFF).toUInt8
  let c := c.outb 4 ((l >>> 8) &&& 0xFF).toUInt8
  let c := c.outb 5 ((l >>> 16) &&& 0xFF).toUInt8
  c.outb 7 cmd

/-- `ptr[k]`, with `k` of 32 bits. -/
def place (k : Nat) : Nat := k % 2 ^ 32

def storeByte (mem : Memory) (a : Nat) (v : UInt8) : Memory := fun b => if b = a then v else mem b

/-- The words of sector `s` of a read. -/
def readSector (s : Nat) (st : Memory × Channel) : Memory × Channel :=
  forEach 256
    (fun i st =>
      let word := st.2.inw.1
      let mem := storeByte st.1 (place (s * 512 + i * 2)) (word &&& 0xFF).toUInt8
      (storeByte mem (place (s * 512 + i * 2 + 1)) ((word >>> 8) &&& 0xFF).toUInt8, st.2.inw.2)) st

/-- The words of sector `s` of a write. -/
def writeSector (mem : Memory) (s : Nat) (c : Channel) : Channel :=
  forEach 256
    (fun i c =>
      c.outw ((mem (place (s * 512 + i * 2))).toUInt16 ||| (mem (place (s * 512 + i * 2 + 1))).toUInt16 <<< 8)) c

/-- One pass of the reads; `prog s` writes the registers for sector `s`. -/
def readPass (prog : Nat → Channel → Channel) (s : Nat) (r : Int × Memory × Channel) : Int × Memory × Channel :=
  if r.1 < 0 then r
  else if ataWaitBsy r.2.2 < 0 then (-1, r.2)
  else if ataWaitDrq (prog s r.2.2) < 0 then (-1, r.2.1, prog s r.2.2)
  else (0, readSector s (r.2.1, prog s r.2.2))

/-- One pass of the writes, with the cache flushed after the sector. -/
def writePass (prog : Nat → Channel → Channel) (mem : Memory) (s : Nat) (r : Int × Channel) : Int × Channel :=
  if r.1 < 0 then r
  else if ataWaitBsy r.2 < 0 then (-1, r.2)
  else if ataWaitDrq (prog s r.2) < 0 then (-1, prog s r.2)
  else (0, (writeSector mem s (prog s r.2)).outb 7 0xE7)

def readLoop (prog : Nat → Channel → Channel) (count : Nat) (st : Memory × Channel) : Int × Memory × Channel :=
  forEach count (readPass prog) (0, st)

def writeLoop (prog : Nat → Channel → Channel) (count : Nat) (mem : Memory) (c : Channel) : Int × Channel :=
  forEach count (writePass prog mem) (0, c)

def tapeAtaReadSectors (drive : TapeDrive) (lba count : UInt32) (st : Memory × Channel) : Int × Memory × Channel :=
  if drive.present = 0 then (-1, st)
  else readLoop (fun s => program28 drive 0x20 (lba + UInt32.ofNat s)) count.toNat st

def tapeAtaWriteSectors (drive : TapeDrive) (lba count : UInt32) (mem : Memory) (c : Channel) : Int × Channel :=
  if drive.present = 0 then (-1, c)
  else writeLoop (fun s => program28 drive 0x30 (lba + UInt32.ofNat s)) count.toNat mem c

def tapeAtaReadSectorsLba48 (drive : TapeDrive) (lba : UInt64) (count : UInt32) (st : Memory × Channel) :
    Int × Memory × Channel :=
  if drive.present = 0 ∨ drive.lba48Support = 0 then (-1, st)
  else readLoop (fun s => program48 drive 0x24 (lba + UInt64.ofNat s)) count.toNat st

def tapeAtaWriteSectorsLba48 (drive : TapeDrive) (lba : UInt64) (count : UInt32) (mem : Memory) (c : Channel) :
    Int × Channel :=
  if drive.present = 0 ∨ drive.lba48Support = 0 then (-1, c)
  else writeLoop (fun s => program48 drive 0x34 (lba + UInt64.ofNat s)) count.toNat mem c

/-! ## What the registers ask for -/

/-- The drive meant. -/
def slave (drive : TapeDrive) : Bool := slaveBit drive != 0

theorem slaveBit_cases (drive : TapeDrive) : slaveBit drive = 0 ∨ slaveBit drive = 1 := by
  unfold slaveBit
  split
  · exact Or.inl rfl
  · exact Or.inr rfl

theorem driveHead_fields {devno high : UInt8} (hdev : devno = 0 ∨ devno = 1) (hhigh : high.toNat < 16) :
    (((0xE0 : UInt8) ||| (devno <<< 4) ||| high) &&& 0x10 != 0) = (devno != 0) ∧
      ((0xE0 : UInt8) ||| (devno <<< 4) ||| high).toNat % 16 = high.toNat := by
  have hcomm : (0xE0 : UInt8) ||| (devno <<< 4) = (devno <<< 4) ||| 0xE0 := UInt8.or_comm _ _
  rw [hcomm]
  exact Kernel.Ata.driveHead_fields hdev hhigh

theorem device48 {devno : UInt8} (hdev : devno = 0 ∨ devno = 1) :
    (((0x40 : UInt8) ||| (devno <<< 4)) &&& 0x10 != 0) = (devno != 0) := by
  rcases hdev with rfl | rfl
  · decide
  · decide

/-- The address that the drive takes from the registers of a 48-bit command: bits 24 to 31 are not there. -/
def asked48 (l : Nat) : Nat := l % 2 ^ 24 + l / 2 ^ 32 % 2 ^ 24 * 2 ^ 24

/-- They are in the count. -/
def askedCount48 (l : Nat) : Nat := 1 + l / 2 ^ 24 % 256 * 2 ^ 8

def registers28 (drive : TapeDrive) (l : UInt32) (c : Channel) : Channel :=
  { c with
    device := (0xE0 : UInt8) ||| (slaveBit drive <<< 4) ||| ((l >>> 24) &&& 0x0F).toUInt8
    sectorCount := c.sectorCount.push 1
    lbaLow := c.lbaLow.push (l &&& 0xFF).toUInt8
    lbaMid := c.lbaMid.push ((l >>> 8) &&& 0xFF).toUInt8
    lbaHigh := c.lbaHigh.push ((l >>> 16) &&& 0xFF).toUInt8 }

def registers48 (drive : TapeDrive) (l : UInt64) (c : Channel) : Channel :=
  { c with
    device := (0x40 : UInt8) ||| (slaveBit drive <<< 4)
    sectorCount := (c.sectorCount.push ((l >>> 24) &&& 0xFF).toUInt8).push 1
    lbaLow := (c.lbaLow.push ((l >>> 32) &&& 0xFF).toUInt8).push (l &&& 0xFF).toUInt8
    lbaMid := (c.lbaMid.push ((l >>> 40) &&& 0xFF).toUInt8).push ((l >>> 8) &&& 0xFF).toUInt8
    lbaHigh := (c.lbaHigh.push ((l >>> 48) &&& 0xFF).toUInt8).push ((l >>> 16) &&& 0xFF).toUInt8 }

theorem program28_eq (drive : TapeDrive) (cmd : UInt8) (l : UInt32) (c : Channel) :
    program28 drive cmd l c = (registers28 drive l c).command cmd := rfl

theorem program48_eq (drive : TapeDrive) (cmd : UInt8) (l : UInt64) (c : Channel) :
    program48 drive cmd l c = (registers48 drive l c).command cmd := by
  simp only [program48, Channel.outb, registers48]

theorem registers28_drive (drive : TapeDrive) (l : UInt32) (c : Channel) :
    (registers28 drive l c).drive = slave drive := by
  refine (driveHead_fields (slaveBit_cases drive) ?_).1
  rw [toNat_nibble32]
  omega

theorem registers28_lba (drive : TapeDrive) (l : UInt32) (c : Channel) :
    (registers28 drive l c).lba28 = l.toNat % 2 ^ 28 := by
  have hnibble := toNat_nibble32 l
  have hdevice := (driveHead_fields (slaveBit_cases drive)
    (show ((l >>> 24) &&& 0x0F).toUInt8.toNat < 16 by omega)).2
  have hlow := toNat_low32 l
  have hmid := toNat_byte32 l 8 (by decide)
  have hhigh := toNat_byte32 l 16 (by decide)
  unfold Channel.lba28
  dsimp only [registers28, Register.push]
  rw [hdevice, hnibble, hlow, hmid, hhigh]
  show l.toNat % 256 + l.toNat / 2 ^ 8 % 256 * 2 ^ 8 + l.toNat / 2 ^ 16 % 256 * 2 ^ 16 +
    l.toNat / 2 ^ 24 % 16 * 2 ^ 24 = _
  omega

theorem registers48_lba (drive : TapeDrive) (l : UInt64) (c : Channel) :
    (registers48 drive l c).lba48 = asked48 l.toNat := by
  have h0 := toNat_low64 l
  have h8 := toNat_byte64 l 8 (by decide)
  have h16 := toNat_byte64 l 16 (by decide)
  have h32 := toNat_byte64 l 32 (by decide)
  have h40 := toNat_byte64 l 40 (by decide)
  have h48 := toNat_byte64 l 48 (by decide)
  unfold Channel.lba48 asked48
  dsimp only [registers48, Register.push]
  rw [h0, h8, h16, h32, h40, h48]
  show l.toNat % 256 + l.toNat / 2 ^ 8 % 256 * 2 ^ 8 + l.toNat / 2 ^ 16 % 256 * 2 ^ 16 +
    l.toNat / 2 ^ 32 % 256 * 2 ^ 24 + l.toNat / 2 ^ 40 % 256 * 2 ^ 32 + l.toNat / 2 ^ 48 % 256 * 2 ^ 40 = _
  omega

theorem registers48_count (drive : TapeDrive) (l : UInt64) (c : Channel) :
    (registers48 drive l c).count48 = askedCount48 l.toNat := by
  have hprev : (registers48 drive l c).sectorCount.previous.toNat = l.toNat / 2 ^ 24 % 256 :=
    toNat_byte64 l 24 (by decide)
  have hcount : (registers48 drive l c).sectorCount.current.toNat = 1 := rfl
  unfold Channel.count48 askedCount48
  rw [hcount, hprev]
  dsimp only
  rw [if_neg (by omega)]

theorem begins28_read (drive : TapeDrive) (l : UInt32) (c : Channel) :
    Begins c (program28 drive 0x20 l c) .read (slave drive) (l.toNat % 2 ^ 28) 1 := by
  rw [program28_eq, Channel.command, if_pos rfl, ← registers28_drive drive l c, ← registers28_lba drive l c]
  exact ⟨rfl, rfl, rfl, rfl⟩

theorem begins28_write (drive : TapeDrive) (l : UInt32) (c : Channel) :
    Begins c (program28 drive 0x30 l c) .write (slave drive) (l.toNat % 2 ^ 28) 1 := by
  rw [program28_eq, Channel.command, if_neg (by decide), if_pos rfl, ← registers28_drive drive l c,
    ← registers28_lba drive l c]
  exact ⟨rfl, rfl, rfl, rfl⟩

theorem begins48_read (drive : TapeDrive) (l : UInt64) (c : Channel) :
    Begins c (program48 drive 0x24 l c) .read (slave drive) (asked48 l.toNat) (askedCount48 l.toNat) := by
  have hdrive : (registers48 drive l c).drive = slave drive := device48 (slaveBit_cases drive)
  rw [program48_eq, Channel.command, if_neg (by decide), if_neg (by decide), if_pos rfl, ← hdrive,
    ← registers48_lba drive l c, ← registers48_count drive l c]
  exact ⟨rfl, rfl, rfl, rfl⟩

theorem begins48_write (drive : TapeDrive) (l : UInt64) (c : Channel) :
    Begins c (program48 drive 0x34 l c) .write (slave drive) (asked48 l.toNat) (askedCount48 l.toNat) := by
  have hdrive : (registers48 drive l c).drive = slave drive := device48 (slaveBit_cases drive)
  rw [program48_eq, Channel.command, if_neg (by decide), if_neg (by decide), if_neg (by decide), if_pos rfl,
    ← hdrive, ← registers48_lba drive l c, ← registers48_count drive l c]
  exact ⟨rfl, rfl, rfl, rfl⟩

/-! ## What the loops move -/

theorem ataWaitBsy_eq (c : Channel) : ataWaitBsy c = 0 := by
  unfold ataWaitBsy Channel.status
  split
  · decide
  · decide

theorem ataWaitDrq_of_transfer {c : Channel} {t : Transfer} (hc : c.transfer = some t) : ataWaitDrq c = 0 := by
  have hstatus : c.status = 0x58 := by rw [Channel.status, hc]; rfl
  rw [ataWaitDrq, hstatus]
  decide

theorem place_add {s k : Nat} (hk : k < 512) : place (s * 512 + k) = place (s * 512) + k := by
  unfold place
  omega

theorem readSector_eq (s : Nat) (st : Memory × Channel) : readSector s st = readBlock (place (s * 512)) st := by
  refine forEach_congr fun i hi st => ?_
  have hlow : (st.2.inw.1 &&& 0xFF).toUInt8 = st.2.inw.1.toUInt8 := by
    rw [← UInt8.toNat_inj, toNat_low16, UInt16.toNat_toUInt8]
  have hhigh : ((st.2.inw.1 >>> 8) &&& 0xFF).toUInt8 = (st.2.inw.1 >>> 8).toUInt8 := by
    have hlt := st.2.inw.1.toNat_lt
    rw [← UInt8.toNat_inj, toNat_high16, UInt16.toNat_toUInt8, UInt16.toNat_shiftRight, Nat.shiftRight_eq_div_pow]
    show _ = st.2.inw.1.toNat / 2 ^ 8 % 2 ^ 8
    omega
  dsimp only
  rw [hlow, hhigh, Nat.add_assoc, place_add (by omega), place_add (by omega), Nat.mul_comm i 2]
  refine Prod.ext (funext fun b => ?_) rfl
  dsimp only [storeByte, storeWord]
  by_cases hb : b = place (s * 512) + 2 * i
  · rw [if_pos hb, if_pos hb, if_neg (by omega)]
  · rw [if_neg hb, if_neg hb, ← Nat.add_assoc]

theorem writeSector_eq (mem : Memory) (s : Nat) (c : Channel) :
    writeSector mem s c = writeBlock mem (place (s * 512)) c := by
  refine forEach_congr fun i hi c => ?_
  rw [Nat.add_assoc, place_add (by omega), place_add (by omega), Nat.mul_comm i 2]
  rfl

section Loops

variable {prog : Nat → Channel → Channel} {dir : Direction} {drive : Bool} {addr cnt : Nat → Nat} {n lba : Nat}
  {mem : Memory} {c : Channel}

theorem readPass_eq (hprog : ∀ s c, Begins c (prog s c) .read drive (addr s) (cnt s)) {s : Nat}
    {r : Int × Memory × Channel} (hok : r.1 = 0) :
    readPass prog s r = (0, readBlock (place (s * 512)) (r.2.1, prog s r.2.2)) := by
  unfold readPass
  rw [if_neg (by omega), ataWaitBsy_eq, if_neg (by decide), ataWaitDrq_of_transfer (hprog s r.2.2).transfer,
    if_neg (by decide), readSector_eq]

theorem writePass_eq (hprog : ∀ s c, Begins c (prog s c) .write drive (addr s) (cnt s)) {s : Nat}
    {r : Int × Channel} (hok : r.1 = 0) :
    writePass prog mem s r = (0, { writeBlock mem (place (s * 512)) (prog s r.2) with transfer := none }) := by
  unfold writePass
  rw [if_neg (by omega), ataWaitBsy_eq, if_neg (by decide), ataWaitDrq_of_transfer (hprog s r.2).transfer,
    if_neg (by decide), writeSector_eq, Kernel.Ata.flush_eq]

theorem readLoop_done (hprog : ∀ s c, Begins c (prog s c) .read drive (addr s) (cnt s)) :
    (readLoop prog n (mem, c)).2.2.done = c.done ++ (List.range n).map fun s => (.read, drive, addr s) := by
  unfold readLoop
  refine (forEach_induction (P := fun (i : Nat) (r : Int × Memory × Channel) => r.1 = 0 ∧
    r.2.2.done = c.done ++ (List.range i).map fun s => (.read, drive, addr s)) ?_ ?_).2
  · exact ⟨rfl, (List.append_nil _).symm⟩
  · rintro i r _ ⟨hok, hdone⟩
    have hbegins := hprog i r.2.2
    rw [readPass_eq hprog hok, readBlock_eq hbegins.transfer rfl rfl]
    refine ⟨rfl, ?_⟩
    dsimp only
    rw [hbegins.done, hdone, List.range_succ, List.map_append, List.append_assoc]
    rfl

theorem writeLoop_done (hprog : ∀ s c, Begins c (prog s c) .write drive (addr s) (cnt s)) :
    (writeLoop prog n mem c).2.done = c.done ++ (List.range n).map fun s => (.write, drive, addr s) := by
  unfold writeLoop
  refine (forEach_induction (P := fun (i : Nat) (r : Int × Channel) => r.1 = 0 ∧
    r.2.done = c.done ++ (List.range i).map fun s => (.write, drive, addr s)) ?_ ?_).2
  · exact ⟨rfl, (List.append_nil _).symm⟩
  · rintro i r _ ⟨hok, hdone⟩
    have hbegins := hprog i r.2
    rw [writePass_eq hprog hok, writeBlock_eq hbegins.transfer rfl rfl]
    refine ⟨rfl, ?_⟩
    dsimp only
    rw [hbegins.done, hdone, List.range_succ, List.map_append, List.append_assoc]
    rfl

theorem readLoop_far (hprog : ∀ s c, Begins c (prog s c) .read drive (addr s) (cnt s)) {b : Nat} (hb : 2 ^ 32 ≤ b) :
    (readLoop prog n (mem, c)).2.1 b = mem b := by
  refine (forEach_induction (P := fun (_ : Nat) (r : Int × Memory × Channel) => r.1 = 0 ∧ r.2.1 b = mem b)
    ⟨rfl, rfl⟩ ?_).2
  rintro i r _ ⟨hok, hmem⟩
  rw [readPass_eq hprog hok, readBlock_eq (hprog i r.2.2).transfer rfl rfl]
  refine ⟨rfl, ?_⟩
  have hplace : place (i * 512) + 512 ≤ 2 ^ 32 := by
    unfold place
    omega
  dsimp only
  rw [if_neg fun h => by omega, hmem]

theorem readLoop_reads (hprog : ∀ s c, Begins c (prog s c) .read drive (addr s) (cnt s)) (hidle : c.transfer = none)
    (haddr : ∀ s, s < n → addr s = lba + s ∧ cnt s = 1) (hn : n ≤ 2 ^ 23) :
    Reads drive lba n mem c (readLoop prog n (mem, c)).2 := by
  refine (forEach_induction (P := fun (i : Nat) (r : Int × Memory × Channel) => r.1 = 0 ∧
    Reading drive lba i mem c i r.2) ⟨rfl, Reading.start hidle⟩ ?_).2
  rintro i r hi ⟨hok, hreading⟩
  have hbegins := hprog i r.2.2
  obtain ⟨hlba, hcnt⟩ := haddr i hi
  rw [hlba, hcnt] at hbegins
  have hplace : place (i * 512) = i * 512 := Nat.mod_eq_of_lt (by omega)
  rw [readPass_eq hprog hok, hplace]
  refine ⟨rfl, ?_⟩
  dsimp only
  exact (hreading.ask hbegins).step (Nat.lt_succ_self i)

theorem writeLoop_writing (hprog : ∀ s c, Begins c (prog s c) .write drive (addr s) (cnt s))
    (hidle : c.transfer = none) (haddr : ∀ s, s < n → addr s = lba + s ∧ cnt s = 1) :
    Writing drive lba n (fun m k => mem (place (m * 512) + k)) c n (writeLoop prog n mem c).2 := by
  refine (forEach_induction (P := fun (i : Nat) (r : Int × Channel) => r.1 = 0 ∧
    Writing drive lba i (fun m k => mem (place (m * 512) + k)) c i r.2) ⟨rfl, Writing.start hidle⟩ ?_).2
  rintro i r hi ⟨hok, hwriting⟩
  have hbegins := hprog i r.2
  obtain ⟨hlba, hcnt⟩ := haddr i hi
  rw [hlba, hcnt] at hbegins
  rw [writePass_eq hprog hok]
  have hstep : Writing drive lba (i + 1) (fun m k => mem (place (m * 512) + k)) c (i + 1)
      (writeBlock mem (place (i * 512)) (prog i r.2)) :=
    (hwriting.ask hbegins).step (Nat.lt_succ_self i) fun k _ => rfl
  refine ⟨rfl, ?_⟩
  dsimp only
  exact hstep.idle

theorem readLoop_iff (hprog : ∀ s c, Begins c (prog s c) .read drive (addr s) (cnt s)) (hidle : c.transfer = none)
    (hcnt : ∀ s, s < n → addr s = lba + s → cnt s = 1) : (∀ mem, Reads drive lba n mem c (readLoop prog n (mem, c)).2) ↔
      (∀ s, s < n → addr s = lba + s) ∧ n ≤ 2 ^ 23 := by
  constructor
  · intro h
    constructor
    · intro s hs
      have hdone := List.append_cancel_left ((readLoop_done hprog).symm.trans (h fun _ => 0).done)
      have hall := List.map_inj_left.mp hdone s (List.mem_range.mpr hs)
      exact (Prod.mk.inj (Prod.mk.inj hall).2).2
    · by_contra hn
      -- a byte that the sector past the places of the buffer does not have
      obtain ⟨v, hv⟩ : ∃ v, v ≠ c.disk drive (lba + 2 ^ 23) 0 := by
        by_cases hzero : c.disk drive (lba + 2 ^ 23) 0 = 0
        · exact ⟨1, by rw [hzero]; decide⟩
        · exact ⟨0, fun h => hzero h.symm⟩
      have hmem := (h fun _ => v).mem (2 ^ 32)
      rw [readLoop_far hprog (Nat.le_refl _), if_pos (by omega)] at hmem
      exact hv hmem
  · rintro ⟨haddr, hn⟩ mem
    exact readLoop_reads hprog hidle (fun s hs => ⟨haddr s hs, hcnt s hs (haddr s hs)⟩) hn

theorem writeLoop_iff (hprog : ∀ s c, Begins c (prog s c) .write drive (addr s) (cnt s)) (hidle : c.transfer = none)
    (hcnt : ∀ s, s < n → addr s = lba + s → cnt s = 1) : (∀ mem, Writes drive lba n mem c (writeLoop prog n mem c).2) ↔
      (∀ s, s < n → addr s = lba + s) ∧ n ≤ 2 ^ 23 := by
  constructor
  · intro h
    have haddr : ∀ s, s < n → addr s = lba + s := by
      intro s hs
      have hdone := List.append_cancel_left ((writeLoop_done hprog).symm.trans (h fun _ => 0).done)
      have hall := List.map_inj_left.mp hdone s (List.mem_range.mpr hs)
      exact (Prod.mk.inj (Prod.mk.inj hall).2).2
    refine ⟨haddr, ?_⟩
    by_contra hn
    -- the sector past the places of the buffer is written with its first bytes
    let mem : Memory := fun b => if b = 0 then 1 else 0
    have hmeant := (h mem).disk drive (lba + 2 ^ 23) 0
    have hrun : Writing drive lba n (fun m k => mem (place (m * 512) + k)) c n (writeLoop prog n mem c).2 :=
      writeLoop_writing hprog hidle fun s hs => ⟨haddr s hs, hcnt s hs (haddr s hs)⟩
    have hwritten := hrun.disk drive (lba + 2 ^ 23) 0
    have hin : drive = drive ∧ (lba ≤ lba + 2 ^ 23 ∧ lba + 2 ^ 23 < lba + n) ∧ 0 < 512 :=
      ⟨rfl, ⟨by omega, by omega⟩, by decide⟩
    rw [if_pos hin, Nat.add_sub_cancel_left] at hmeant hwritten
    rw [hmeant] at hwritten
    exact absurd hwritten (by decide)
  · rintro ⟨haddr, hn⟩ mem
    refine (writeLoop_writing hprog hidle fun s hs => ⟨haddr s hs, hcnt s hs (haddr s hs)⟩).congr fun m k hm => ?_
    rw [place, Nat.mod_eq_of_lt (by omega)]

end Loops

/-! ## Where the sectors are those meant -/

/-- The sectors that the forms of 28 bits move as meant. -/
def Within28 (lba count : Nat) : Prop := count = 0 ∨ lba + count ≤ 2 ^ 28 ∧ count ≤ 2 ^ 23

/-- Those that the forms of 48 bits do. -/
def Within48 (lba count : Nat) : Prop := count = 0 ∨ lba + count ≤ 2 ^ 24 ∧ count ≤ 2 ^ 23

theorem within28_iff (lba : UInt32) (count : Nat) : Within28 lba.toNat count ↔
      (∀ s, s < count → (lba + UInt32.ofNat s).toNat % 2 ^ 28 = lba.toNat + s) ∧ count ≤ 2 ^ 23 := by
  have hlt := lba.toNat_lt
  have hsum : ∀ s, (lba + UInt32.ofNat s).toNat % 2 ^ 28 = (lba.toNat + s) % 2 ^ 28 := by
    intro s
    rw [UInt32.toNat_add, UInt32.toNat_ofNat']
    omega
  constructor
  · rintro (rfl | ⟨hlba, hcount⟩)
    · exact ⟨fun s hs => absurd hs (Nat.not_lt_zero s), Nat.zero_le _⟩
    · refine ⟨fun s hs => ?_, hcount⟩
      rw [hsum]
      exact Nat.mod_eq_of_lt (by omega)
  · rintro ⟨haddr, hcount⟩
    by_cases hzero : count = 0
    · exact Or.inl hzero
    · have hlast := haddr (count - 1) (by omega)
      rw [hsum] at hlast
      exact Or.inr ⟨by omega, hcount⟩

theorem asked48_eq_iff {l x : Nat} (hl : l = x % 2 ^ 64) : asked48 l = x ↔ x < 2 ^ 24 := by
  unfold asked48
  constructor
  · intro h
    have hlow : l % 2 ^ 24 < 2 ^ 24 := Nat.mod_lt _ (by decide)
    have hhigh : l / 2 ^ 32 % 2 ^ 24 ≤ l / 2 ^ 32 := Nat.mod_le _ _
    have hbound : l / 2 ^ 32 % 2 ^ 24 < 2 ^ 24 := Nat.mod_lt _ (by decide)
    have hx : l = x := by omega
    subst hx
    omega
  · intro h
    have hx : l = x := by omega
    subst hx
    omega

theorem askedCount48_of_lt {l : Nat} (hl : l < 2 ^ 24) : askedCount48 l = 1 := by
  unfold askedCount48
  omega

theorem toNat_add48 (lba : UInt64) (s : Nat) : (lba + UInt64.ofNat s).toNat = (lba.toNat + s) % 2 ^ 64 := by
  rw [UInt64.toNat_add, UInt64.toNat_ofNat']
  omega

theorem within48_iff (lba : UInt64) (count : Nat) : Within48 lba.toNat count ↔
      (∀ s, s < count → asked48 (lba + UInt64.ofNat s).toNat = lba.toNat + s) ∧ count ≤ 2 ^ 23 := by
  constructor
  · rintro (rfl | ⟨hlba, hcount⟩)
    · exact ⟨fun s hs => absurd hs (Nat.not_lt_zero s), Nat.zero_le _⟩
    · refine ⟨fun s hs => (asked48_eq_iff (toNat_add48 lba _)).mpr (by omega), hcount⟩
  · rintro ⟨haddr, hcount⟩
    by_cases hzero : count = 0
    · exact Or.inl hzero
    · have hlast := (asked48_eq_iff (toNat_add48 lba _)).mp (haddr (count - 1) (by omega))
      exact Or.inr ⟨by omega, hcount⟩

theorem read28_iff {drive : TapeDrive} (hpresent : drive.present ≠ 0) (lba count : UInt32) {c : Channel}
    (hidle : c.transfer = none) :
    (∀ mem, Reads (slave drive) lba.toNat count.toNat mem c (tapeAtaReadSectors drive lba count (mem, c)).2) ↔
      Within28 lba.toNat count.toNat := by
  unfold tapeAtaReadSectors
  simp only [if_neg hpresent]
  rw [within28_iff]
  exact readLoop_iff (fun s c => begins28_read drive (lba + UInt32.ofNat s) c) hidle fun _ _ _ => rfl

theorem write28_iff {drive : TapeDrive} (hpresent : drive.present ≠ 0) (lba count : UInt32) {c : Channel}
    (hidle : c.transfer = none) :
    (∀ mem, Writes (slave drive) lba.toNat count.toNat mem c (tapeAtaWriteSectors drive lba count mem c).2) ↔
      Within28 lba.toNat count.toNat := by
  unfold tapeAtaWriteSectors
  simp only [if_neg hpresent]
  rw [within28_iff]
  exact writeLoop_iff (fun s c => begins28_write drive (lba + UInt32.ofNat s) c) hidle fun _ _ _ => rfl

theorem alone48 (lba : UInt64) {s : Nat} (h : asked48 (lba + UInt64.ofNat s).toNat = lba.toNat + s) :
    askedCount48 (lba + UInt64.ofNat s).toNat = 1 := by
  have hlt := (asked48_eq_iff (toNat_add48 lba s)).mp h
  refine askedCount48_of_lt ?_
  rw [toNat_add48]
  omega

theorem read48_iff {drive : TapeDrive} (hpresent : drive.present ≠ 0) (hsupport : drive.lba48Support ≠ 0)
    (lba : UInt64) (count : UInt32) {c : Channel} (hidle : c.transfer = none) :
    (∀ mem, Reads (slave drive) lba.toNat count.toNat mem c (tapeAtaReadSectorsLba48 drive lba count (mem, c)).2) ↔
      Within48 lba.toNat count.toNat := by
  unfold tapeAtaReadSectorsLba48
  simp only [if_neg fun h : drive.present = 0 ∨ drive.lba48Support = 0 => h.elim hpresent hsupport]
  rw [within48_iff]
  exact readLoop_iff (fun s c => begins48_read drive (lba + UInt64.ofNat s) c) hidle fun _ _ h => alone48 lba h

theorem write48_iff {drive : TapeDrive} (hpresent : drive.present ≠ 0) (hsupport : drive.lba48Support ≠ 0)
    (lba : UInt64) (count : UInt32) {c : Channel} (hidle : c.transfer = none) :
    (∀ mem, Writes (slave drive) lba.toNat count.toNat mem c (tapeAtaWriteSectorsLba48 drive lba count mem c).2) ↔
      Within48 lba.toNat count.toNat := by
  unfold tapeAtaWriteSectorsLba48
  simp only [if_neg fun h : drive.present = 0 ∨ drive.lba48Support = 0 => h.elim hpresent hsupport]
  rw [within48_iff]
  exact writeLoop_iff (fun s c => begins48_write drive (lba + UInt64.ofNat s) c) hidle fun _ _ h => alone48 lba h

/-- **Where the sectors moved are those meant**: of the kernel's driver where the registers or halves that it takes for
one another agree, and of the loader's where the address and the places in the buffer fit. -/
theorem transfers_iff {c : Channel} (hidle : c.transfer = none) : ((∀ drive lba count,
        (∀ mem, Reads (Kernel.Ata.slave drive) lba.toNat count.toNat mem c
          (Kernel.Ata.ataReadSectors drive lba count (mem, c)).2) ↔
          Kernel.Ata.Level28 lba.toNat count.toNat c.lbaHigh.current.toNat) ∧ (∀ drive lba count,
        (∀ mem, Writes (Kernel.Ata.slave drive) lba.toNat count.toNat mem c
          (Kernel.Ata.ataWriteSectors drive lba count mem c)) ↔
          count = 1 ∧ Kernel.Ata.Level28 lba.toNat count.toNat c.lbaHigh.current.toNat) ∧ (∀ drive lba count,
        (∀ mem, Reads (Kernel.Ata.slave drive) lba.toNat count.toNat mem c
          (Kernel.Ata.ataReadSectorsLba48 drive lba count (mem, c)).2) ↔ Kernel.Ata.Level48 lba.toNat count.toNat) ∧
      ∀ drive lba count, (∀ mem, Writes (Kernel.Ata.slave drive) lba.toNat count.toNat mem c
          (Kernel.Ata.ataWriteSectorsLba48 drive lba count mem c)) ↔ Kernel.Ata.Level48 lba.toNat count.toNat) ∧
    ∀ drive : TapeDrive, drive.present ≠ 0 → (∀ lba count,
        (∀ mem, Reads (slave drive) lba.toNat count.toNat mem c (tapeAtaReadSectors drive lba count (mem, c)).2) ↔
          Within28 lba.toNat count.toNat) ∧ (∀ lba count,
        (∀ mem, Writes (slave drive) lba.toNat count.toNat mem c (tapeAtaWriteSectors drive lba count mem c).2) ↔
          Within28 lba.toNat count.toNat) ∧ (drive.lba48Support ≠ 0 → (∀ lba count,
          (∀ mem, Reads (slave drive) lba.toNat count.toNat mem c
            (tapeAtaReadSectorsLba48 drive lba count (mem, c)).2) ↔ Within48 lba.toNat count.toNat) ∧ ∀ lba count,
          (∀ mem, Writes (slave drive) lba.toNat count.toNat mem c
            (tapeAtaWriteSectorsLba48 drive lba count mem c).2) ↔ Within48 lba.toNat count.toNat) := by
  refine ⟨⟨?_, ?_, ?_, ?_⟩, fun drive hpresent => ⟨?_, ?_, fun hsupport => ⟨?_, ?_⟩⟩⟩
  · exact fun drive lba count => Kernel.Ata.read28_iff drive lba count c
  · exact fun drive lba count => Kernel.Ata.write28_iff drive lba count c
  · exact fun drive lba count => Kernel.Ata.read48_iff drive lba count c
  · exact fun drive lba count => Kernel.Ata.write48_iff drive lba count c
  · exact fun lba count => read28_iff hpresent lba count hidle
  · exact fun lba count => write28_iff hpresent lba count hidle
  · exact fun lba count => read48_iff hpresent hsupport lba count hidle
  · exact fun lba count => write48_iff hpresent hsupport lba count hidle

namespace Reset

/-- A channel after a reset. -/
def channel : Channel where
  features := ⟨0, 0⟩
  sectorCount := ⟨1, 0⟩
  lbaLow := ⟨1, 0⟩
  lbaMid := ⟨0, 0⟩
  lbaHigh := ⟨0, 0⟩
  device := 0
  transfer := none
  disk := fun _ x k => UInt8.ofNat (x + k)
  asked := []
  done := []

/-- The loader's driver reads a sector of it as meant, and its form of 48 bits one below 2^24. -/
theorem loader_reads :
    Reads false 7 2 (fun _ => 0) channel
        (tapeAtaReadSectors { present := 1, isMaster := 1, lba48Support := 1 } 7 2 (fun _ => 0, channel)).2 ∧
      Reads false 0xFFFFFF 1 (fun _ => 0) channel
        (tapeAtaReadSectorsLba48 { present := 1, isMaster := 1, lba48Support := 1 } 0xFFFFFF 1
          (fun _ => 0, channel)).2 := by
  obtain ⟨-, hloader⟩ := transfers_iff (c := channel) rfl
  obtain ⟨hread, -, hext⟩ := hloader { present := 1, isMaster := 1, lba48Support := 1 } (by decide)
  exact ⟨(hread 7 2).mpr (Or.inr ⟨by decide, by decide⟩) fun _ => 0,
    ((hext (by decide)).1 0xFFFFFF 1).mpr (Or.inr ⟨by decide, by decide⟩) fun _ => 0⟩

/-- The kernel's driver, asked for the first sector, has the drive read 256; the loader's form of 48 bits, asked for
sector 2^24, has it read 257 from the first on. -/
theorem misaddressed :
    ¬(∀ (c : Channel) (drive : UInt8) (lba : UInt32) (count : UInt8), c.transfer = none →
        ∀ mem, Reads (Kernel.Ata.slave drive) lba.toNat count.toNat mem c
          (Kernel.Ata.ataReadSectors drive lba count (mem, c)).2) ∧
      (Kernel.Ata.ataReadSectors 0 0 1 (fun _ => 0, channel)).2.2.asked = sectors .read false 0 256 ∧
      (program48 { present := 1, isMaster := 1, lba48Support := 1 } 0x24 0x1000000 channel).asked =
        sectors .read false 0 257 := by
  have hkernel : (Kernel.Ata.ataReadSectors 0 0 1 (fun _ => 0, channel)).2.2.asked = sectors .read false 0 256 := by
    unfold Kernel.Ata.ataReadSectors
    rw [Kernel.Ata.readLoop_asked]
    exact (Kernel.Ata.begins28_read 0 0 1 channel).asked
  refine ⟨fun h => ?_, hkernel, (begins48_read _ _ _).asked⟩
  have hasked := hkernel.symm.trans (h channel 0 0 1 rfl fun _ => 0).asked
  have hlen := congrArg List.length hasked
  rw [List.length_append, length_sectors, length_sectors] at hlen
  exact absurd hlen (by decide)

end Reset

end Chicago95.Stage2.Ata
