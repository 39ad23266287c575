/-
# Chicago95.Kernel.Ata — the sector transfers of the kernel's ATA driver.

`ata_read_sectors`, `ata_write_sectors` and their forms of 48 bits, over the channel of `Chicago95.Lib.TaskFile`. The
forms of 28 bits write each register one below the one it is for, and those of 48 bits write the low half first, so
what the drive is asked for is the sectors meant only where these make no difference: `read28_iff`, `write28_iff`,
`read48_iff` and `write48_iff`.
-/
import Chicago95.Lib.TaskFile

namespace Chicago95.Kernel.Ata

open Chicago95.Lib.Loop Chicago95.Lib.TaskFile

abbrev Memory := Nat → UInt8

/-! ## The driver -/

def ataGetDevno (drive : UInt8) : UInt8 := drive &&& 1

/-- `ata_poll`. The status of a channel does not change while it is waited for. -/
def ataPoll (c : Channel) : Int :=
  if c.status &&& 0x80 ≠ 0 then -1
  else if c.status &&& 0x08 = 0 then -1
  else 0

/-- The registers as `ata_read_sectors` and `ata_write_sectors` write them. -/
def program28 (drive : UInt8) (lba : UInt32) (count cmd : UInt8) (c : Channel) : Channel :=
  let driveHead := ((ataGetDevno drive <<< 4) ||| (0xE0 : UInt8)) ||| ((lba >>> 24) &&& 0x0F).toUInt8
  let c := c.outb 1 count
  let c := c.outb 2 (lba &&& 0xFF).toUInt8
  let c := c.outb 3 ((lba >>> 8) &&& 0xFF).toUInt8
  let c := c.outb 4 ((lba >>> 16) &&& 0xFF).toUInt8
  let c := c.outb 6 driveHead
  c.outb 7 cmd

/-- The registers as `ata_read_sectors_lba48` and `ata_write_sectors_lba48` write them. -/
def program48 (drive : UInt8) (lba : UInt64) (count : UInt16) (cmd : UInt8) (c : Channel) : Channel :=
  let c := c.outb 1 0
  let c := c.outb 2 (count &&& 0xFF).toUInt8
  let c := c.outb 3 (lba &&& 0xFF).toUInt8
  let c := c.outb 4 ((lba >>> 8) &&& 0xFF).toUInt8
  let c := c.outb 5 ((lba >>> 16) &&& 0xFF).toUInt8
  let c := c.outb 6 ((0xA0 : UInt8) ||| (ataGetDevno drive <<< 4))
  let c := c.outb 1 0
  let c := c.outb 2 ((count >>> 8) &&& 0xFF).toUInt8
  let c := c.outb 3 ((lba >>> 24) &&& 0xFF).toUInt8
  let c := c.outb 4 ((lba >>> 32) &&& 0xFF).toUInt8
  let c := c.outb 5 ((lba >>> 40) &&& 0xFF).toUInt8
  c.outb 7 cmd

/-- The loop of the reads: `buffer[i * 256 + j] = inw(io_base)`, until a poll fails. -/
def readLoop (count : Nat) (s : Memory × Channel) : Int × Memory × Channel :=
  forEach count
    (fun i s =>
      if s.1 < 0 then s
      else if ataPoll s.2.2 < 0 then (-1, s.2)
      else (0, readBlock (2 * (i * 256)) s.2)) (0, s)

def ataReadSectors (drive : UInt8) (lba : UInt32) (count : UInt8) (s : Memory × Channel) :
    Int × Memory × Channel :=
  readLoop count.toNat (s.1, program28 drive lba count 0x20 s.2)

/-- The cache is flushed after each sector. -/
def ataWriteSectors (drive : UInt8) (lba : UInt32) (count : UInt8) (mem : Memory) (c : Channel) : Channel :=
  forEach count.toNat (fun i c => (writeBlock mem (2 * (i * 256)) c).outb 7 0xE7)
    (program28 drive lba count 0x30 c)

def ataReadSectorsLba48 (drive : UInt8) (lba : UInt64) (count : UInt16) (s : Memory × Channel) :
    Int × Memory × Channel :=
  readLoop count.toNat (s.1, program48 drive lba count 0x24 s.2)

/-- The cache is flushed after the last sector. -/
def ataWriteSectorsLba48 (drive : UInt8) (lba : UInt64) (count : UInt16) (mem : Memory) (c : Channel) : Channel :=
  (forEach count.toNat (fun i c => writeBlock mem (2 * (i * 256)) c) (program48 drive lba count 0x34 c)).outb 7 0xE7

/-! ## What the registers ask for -/

/-- The drive meant. -/
def slave (drive : UInt8) : Bool := ataGetDevno drive != 0

theorem ataGetDevno_cases (drive : UInt8) : ataGetDevno drive = 0 ∨ ataGetDevno drive = 1 := by
  have hmod : (ataGetDevno drive).toNat = drive.toNat % 2 := Nat.and_one_is_mod _
  rcases Nat.mod_two_eq_zero_or_one drive.toNat with h | h
  · exact Or.inl (UInt8.toNat_inj.mp (by rw [hmod, h]; rfl))
  · exact Or.inr (UInt8.toNat_inj.mp (by rw [hmod, h]; rfl))

theorem driveHead_fields {devno high : UInt8} (hdev : devno = 0 ∨ devno = 1) (hhigh : high.toNat < 16) :
    ((((devno <<< 4) ||| (0xE0 : UInt8)) ||| high) &&& 0x10 != 0) = (devno != 0) ∧
      (((devno <<< 4) ||| (0xE0 : UInt8)) ||| high).toNat % 16 = high.toNat := by
  obtain ⟨k, rfl⟩ : ∃ k : Fin 16, high = UInt8.ofNat k := ⟨⟨high.toNat, hhigh⟩, UInt8.ofNat_toNat.symm⟩
  clear hhigh
  revert k
  rcases hdev with rfl | rfl
  · decide
  · decide

theorem device48 {devno : UInt8} (hdev : devno = 0 ∨ devno = 1) :
    (((0xA0 : UInt8) ||| (devno <<< 4)) &&& 0x10 != 0) = (devno != 0) := by
  rcases hdev with rfl | rfl
  · decide
  · decide

/-- The address that the drive takes from the registers: each byte one place low, and the top one left from before. -/
def asked28 (lba stale : Nat) : Nat :=
  lba / 2 ^ 8 % 256 + lba / 2 ^ 16 % 256 * 2 ^ 8 + stale * 2 ^ 16 + lba / 2 ^ 24 % 16 * 2 ^ 24

/-- The count: the low byte of the address. -/
def askedCount28 (lba : Nat) : Nat := if lba % 256 = 0 then 256 else lba % 256

/-- The address with its halves exchanged. -/
def asked48 (lba : Nat) : Nat := lba / 2 ^ 24 % 2 ^ 24 + lba % 2 ^ 24 * 2 ^ 24

/-- The count with its bytes exchanged. -/
def askedCount48 (count : Nat) : Nat := if count = 0 then 65536 else count / 2 ^ 8 + count % 2 ^ 8 * 2 ^ 8

/-- The four registers of a 28-bit command. -/
def registers28 (drive : UInt8) (lba : UInt32) (count : UInt8) (c : Channel) : Channel :=
  { c with
    features := c.features.push count
    sectorCount := c.sectorCount.push (lba &&& 0xFF).toUInt8
    lbaLow := c.lbaLow.push ((lba >>> 8) &&& 0xFF).toUInt8
    lbaMid := c.lbaMid.push ((lba >>> 16) &&& 0xFF).toUInt8
    device := ((ataGetDevno drive <<< 4) ||| (0xE0 : UInt8)) ||| ((lba >>> 24) &&& 0x0F).toUInt8 }

theorem program28_eq (drive : UInt8) (lba : UInt32) (count cmd : UInt8) (c : Channel) :
    program28 drive lba count cmd c = (registers28 drive lba count c).command cmd := rfl

theorem registers28_drive (drive : UInt8) (lba : UInt32) (count : UInt8) (c : Channel) :
    (registers28 drive lba count c).drive = slave drive := by
  refine (driveHead_fields (ataGetDevno_cases drive) ?_).1
  rw [toNat_nibble32]
  omega

theorem registers28_lba (drive : UInt8) (lba : UInt32) (count : UInt8) (c : Channel) :
    (registers28 drive lba count c).lba28 = asked28 lba.toNat c.lbaHigh.current.toNat := by
  have hnibble := toNat_nibble32 lba
  have hdevice := (driveHead_fields (ataGetDevno_cases drive)
    (show ((lba >>> 24) &&& 0x0F).toUInt8.toNat < 16 by omega)).2
  have hlow := toNat_byte32 lba 8 (by decide)
  have hmid := toNat_byte32 lba 16 (by decide)
  unfold Channel.lba28 asked28
  dsimp only [registers28, Register.push]
  rw [hdevice, hnibble, hlow, hmid]
  rfl

theorem registers28_count (drive : UInt8) (lba : UInt32) (count : UInt8) (c : Channel) :
    (registers28 drive lba count c).count28 = askedCount28 lba.toNat := by
  have hcount : (registers28 drive lba count c).sectorCount.current.toNat = lba.toNat % 256 := toNat_low32 lba
  unfold Channel.count28 askedCount28
  rw [hcount]

theorem begins28_read (drive : UInt8) (lba : UInt32) (count : UInt8) (c : Channel) :
    Begins c (program28 drive lba count 0x20 c) .read (slave drive) (asked28 lba.toNat c.lbaHigh.current.toNat)
      (askedCount28 lba.toNat) := by
  rw [program28_eq, Channel.command, if_pos rfl, ← registers28_drive drive lba count c,
    ← registers28_lba drive lba count c, ← registers28_count drive lba count c]
  exact ⟨rfl, rfl, rfl, rfl⟩

theorem begins28_write (drive : UInt8) (lba : UInt32) (count : UInt8) (c : Channel) :
    Begins c (program28 drive lba count 0x30 c) .write (slave drive) (asked28 lba.toNat c.lbaHigh.current.toNat)
      (askedCount28 lba.toNat) := by
  rw [program28_eq, Channel.command, if_neg (by decide), if_pos rfl, ← registers28_drive drive lba count c,
    ← registers28_lba drive lba count c, ← registers28_count drive lba count c]
  exact ⟨rfl, rfl, rfl, rfl⟩

/-- The registers of a 48-bit command. -/
def registers48 (drive : UInt8) (lba : UInt64) (count : UInt16) (c : Channel) : Channel :=
  { c with
    features := (c.features.push 0).push 0
    sectorCount := (c.sectorCount.push (count &&& 0xFF).toUInt8).push ((count >>> 8) &&& 0xFF).toUInt8
    lbaLow := (c.lbaLow.push (lba &&& 0xFF).toUInt8).push ((lba >>> 24) &&& 0xFF).toUInt8
    lbaMid := (c.lbaMid.push ((lba >>> 8) &&& 0xFF).toUInt8).push ((lba >>> 32) &&& 0xFF).toUInt8
    lbaHigh := (c.lbaHigh.push ((lba >>> 16) &&& 0xFF).toUInt8).push ((lba >>> 40) &&& 0xFF).toUInt8
    device := (0xA0 : UInt8) ||| (ataGetDevno drive <<< 4) }

theorem program48_eq (drive : UInt8) (lba : UInt64) (count : UInt16) (cmd : UInt8) (c : Channel) :
    program48 drive lba count cmd c = (registers48 drive lba count c).command cmd := by
  simp only [program48, Channel.outb, registers48]

theorem registers48_lba (drive : UInt8) (lba : UInt64) (count : UInt16) (c : Channel) :
    (registers48 drive lba count c).lba48 = asked48 lba.toNat := by
  have h0 := toNat_low64 lba
  have h8 := toNat_byte64 lba 8 (by decide)
  have h16 := toNat_byte64 lba 16 (by decide)
  have h24 := toNat_byte64 lba 24 (by decide)
  have h32 := toNat_byte64 lba 32 (by decide)
  have h40 := toNat_byte64 lba 40 (by decide)
  unfold Channel.lba48 asked48
  dsimp only [registers48, Register.push]
  rw [h0, h8, h16, h24, h32, h40]
  show lba.toNat / 2 ^ 24 % 256 + lba.toNat / 2 ^ 32 % 256 * 2 ^ 8 + lba.toNat / 2 ^ 40 % 256 * 2 ^ 16 +
    lba.toNat % 256 * 2 ^ 24 + lba.toNat / 2 ^ 8 % 256 * 2 ^ 32 + lba.toNat / 2 ^ 16 % 256 * 2 ^ 40 = _
  omega

theorem registers48_count (drive : UInt8) (lba : UInt64) (count : UInt16) (c : Channel) :
    (registers48 drive lba count c).count48 = askedCount48 count.toNat := by
  have hcount : (registers48 drive lba count c).sectorCount.current.toNat = count.toNat / 2 ^ 8 := toNat_high16 count
  have hprev : (registers48 drive lba count c).sectorCount.previous.toNat = count.toNat % 2 ^ 8 := toNat_low16 count
  unfold Channel.count48 askedCount48
  rw [hcount, hprev]
  dsimp only
  have hlt := count.toNat_lt
  by_cases hzero : count.toNat = 0
  · rw [if_pos hzero, if_pos (by omega)]
  · rw [if_neg hzero, if_neg (by omega)]

theorem begins48_read (drive : UInt8) (lba : UInt64) (count : UInt16) (c : Channel) :
    Begins c (program48 drive lba count 0x24 c) .read (slave drive) (asked48 lba.toNat) (askedCount48 count.toNat) := by
  have hdrive : (registers48 drive lba count c).drive = slave drive := device48 (ataGetDevno_cases drive)
  rw [program48_eq, Channel.command, if_neg (by decide), if_neg (by decide), if_pos rfl, ← hdrive,
    ← registers48_lba drive lba count c, ← registers48_count drive lba count c]
  exact ⟨rfl, rfl, rfl, rfl⟩

theorem begins48_write (drive : UInt8) (lba : UInt64) (count : UInt16) (c : Channel) :
    Begins c (program48 drive lba count 0x34 c) .write (slave drive) (asked48 lba.toNat)
      (askedCount48 count.toNat) := by
  have hdrive : (registers48 drive lba count c).drive = slave drive := device48 (ataGetDevno_cases drive)
  rw [program48_eq, Channel.command, if_neg (by decide), if_neg (by decide), if_neg (by decide), if_pos rfl,
    ← hdrive, ← registers48_lba drive lba count c, ← registers48_count drive lba count c]
  exact ⟨rfl, rfl, rfl, rfl⟩

/-! ## What the loops move -/

theorem ataPoll_of_transfer {c : Channel} {t : Transfer} (hc : c.transfer = some t) : ataPoll c = 0 := by
  have hstatus : c.status = 0x58 := by rw [Channel.status, hc]; rfl
  rw [ataPoll, hstatus]
  decide

theorem readLoop_asked (count : Nat) (s : Memory × Channel) : (readLoop count s).2.2.asked = s.2.asked := by
  unfold readLoop
  refine forEach_preserves (P := fun u : Int × Memory × Channel => u.2.2.asked = s.2.asked) rfl fun i u _ hu => ?_
  rw [← hu]
  split
  · rfl
  · split
    · rfl
    · dsimp only
      exact readBlock_asked (2 * (i * 256)) u.2

theorem readLoop_reads {drive : Bool} {lba n : Nat} {mem : Memory} {c c' : Channel}
    (h : Begins c c' .read drive lba n) (hn : 0 < n) : Reads drive lba n mem c (readLoop n (mem, c')).2 := by
  refine (forEach_induction
    (P := fun (i : Nat) (u : Int × Memory × Channel) => u.1 = 0 ∧ Reading drive lba n mem c i u.2)
    ⟨rfl, h.reading hn⟩ fun i u hi hu => ?_).2
  obtain ⟨hok, hreading⟩ := hu
  have htransfer := hreading.transfer
  rw [if_pos hi] at htransfer
  rw [if_neg (by omega), ataPoll_of_transfer htransfer, if_neg (by decide), show 2 * (i * 256) = i * 512 by omega]
  refine ⟨rfl, ?_⟩
  dsimp only
  exact hreading.step hi

theorem writeLoop_writes {drive : Bool} {lba n : Nat} {mem : Memory} {c c' : Channel}
    (h : Begins c c' .write drive lba n) (hn : 0 < n) :
    Writes drive lba n mem c (forEach n (fun i c => writeBlock mem (2 * (i * 256)) c) c') := by
  refine forEach_induction (P := Writing drive lba n (fun m k => mem (m * 512 + k)) c) (h.writing hn)
    fun i u hi hu => hu.step hi fun k _ => ?_
  rw [show 2 * (i * 256) = i * 512 by omega]

@[simp] theorem flush_eq (c : Channel) : c.outb 7 0xE7 = { c with transfer := none } := by
  simp [Channel.outb, Channel.command]

theorem flushed_done {drive : Bool} {lba n count : Nat} {mem : Memory} {c c' : Channel}
    (h : Begins c c' .write drive lba n) (hcount : 0 < count) :
    (forEach count (fun i c => (writeBlock mem (2 * (i * 256)) c).outb 7 0xE7) c').done =
      c.done ++ [(.write, drive, lba)] := by
  have hrun : ∀ m, (forEach (m + 1) (fun i c => (writeBlock mem (2 * (i * 256)) c).outb 7 0xE7) c').done =
        c.done ++ [(.write, drive, lba)] ∧
      (forEach (m + 1) (fun i c => (writeBlock mem (2 * (i * 256)) c).outb 7 0xE7) c').transfer = none := by
    intro m
    induction m with
    | zero =>
      rw [forEach_succ, forEach_zero, writeBlock_eq h.transfer rfl rfl, h.done, flush_eq]
      exact ⟨rfl, rfl⟩
    | succ m ih =>
      rw [forEach_succ, writeBlock_idle ih.2, flush_eq]
      exact ⟨ih.1, rfl⟩
  obtain ⟨m, rfl⟩ : ∃ m, count = m + 1 := ⟨count - 1, by omega⟩
  exact (hrun m).1

theorem flushed_asked (count : Nat) (mem : Memory) (c : Channel) :
    (forEach count (fun i c => (writeBlock mem (2 * (i * 256)) c).outb 7 0xE7) c).asked = c.asked := by
  refine forEach_preserves (P := fun u : Channel => u.asked = c.asked) rfl fun i u _ hu => ?_
  rw [flush_eq, ← hu]
  dsimp only
  exact writeBlock_asked mem (2 * (i * 256)) u

/-! ## Where the sectors are those meant -/

/-- The registers of a 28-bit command, each one place low, agree with those meant. -/
def Level28 (lba count stale : Nat) : Prop :=
  count ≠ 0 ∧ lba < 2 ^ 28 ∧ lba % 256 = count ∧ lba / 2 ^ 8 % 256 = count ∧ lba / 2 ^ 16 % 256 = count ∧ stale = count

/-- The halves of a 48-bit command agree. -/
def Level48 (lba count : Nat) : Prop :=
  count ≠ 0 ∧ lba < 2 ^ 48 ∧ lba % 2 ^ 24 = lba / 2 ^ 24 ∧ count % 2 ^ 8 = count / 2 ^ 8

theorem level28_iff {lba count stale : Nat} (hlba : lba < 2 ^ 32) (hcount : count < 256) (hstale : stale < 256) :
    Level28 lba count stale ↔ count ≠ 0 ∧ asked28 lba stale = lba ∧ askedCount28 lba = count := by
  have hbytes : lba = lba % 256 + lba / 2 ^ 8 % 256 * 2 ^ 8 + lba / 2 ^ 16 % 256 * 2 ^ 16 + lba / 2 ^ 24 * 2 ^ 24 := by
    omega
  have h0 : lba % 256 < 256 := Nat.mod_lt _ (by decide)
  have h1 : lba / 2 ^ 8 % 256 < 256 := Nat.mod_lt _ (by decide)
  have h2 : lba / 2 ^ 16 % 256 < 256 := Nat.mod_lt _ (by decide)
  have h3 : lba / 2 ^ 24 < 256 := by omega
  unfold Level28 asked28 askedCount28
  generalize lba % 256 = b0 at *
  generalize lba / 2 ^ 8 % 256 = b1 at *
  generalize lba / 2 ^ 16 % 256 = b2 at *
  generalize lba / 2 ^ 24 = b3 at *
  have hasked : b1 + b2 * 2 ^ 8 + stale * 2 ^ 16 + b3 % 16 * 2 ^ 24 = lba ↔
      b1 = b0 ∧ b2 = b1 ∧ stale = b2 ∧ b3 < 16 := by
    constructor
    · intro heq
      have h10 : b1 = b0 := by omega
      have h21 : b2 = b1 := by omega
      have hst : stale = b2 := by omega
      exact ⟨h10, h21, hst, by omega⟩
    · rintro ⟨rfl, rfl, rfl, h3⟩
      rw [Nat.mod_eq_of_lt h3]
      exact hbytes.symm
  rw [hasked]
  by_cases hzero : b0 = 0
  · rw [if_pos hzero]
    omega
  · rw [if_neg hzero]
    omega

theorem level48_iff {lba count : Nat} (hcount : count < 2 ^ 16) :
    Level48 lba count ↔ count ≠ 0 ∧ asked48 lba = lba ∧ askedCount48 count = count := by
  unfold Level48 asked48 askedCount48
  by_cases hzero : count = 0
  · rw [if_pos hzero]
    omega
  · rw [if_neg hzero]
    omega

theorem asked_eq {dir : Direction} {drive : Bool} {lba n lba' n' : Nat} {c s : Channel} (hn' : 0 < n')
    (hasked : s.asked = c.asked ++ sectors dir drive lba' n') (h : s.asked = c.asked ++ sectors dir drive lba n) :
    lba' = lba ∧ n' = n :=
  sectors_inj hn' (List.append_cancel_left (hasked.symm.trans h))

theorem askedCount28_pos (lba : Nat) : 0 < askedCount28 lba := by
  unfold askedCount28
  by_cases hzero : lba % 256 = 0
  · rw [if_pos hzero]
    decide
  · rw [if_neg hzero]
    omega

theorem askedCount48_pos {count : Nat} : 0 < askedCount48 count := by
  unfold askedCount48
  by_cases hzero : count = 0
  · rw [if_pos hzero]
    decide
  · rw [if_neg hzero]
    omega

theorem read28_iff (drive : UInt8) (lba : UInt32) (count : UInt8) (c : Channel) :
    (∀ mem, Reads (slave drive) lba.toNat count.toNat mem c (ataReadSectors drive lba count (mem, c)).2) ↔
      Level28 lba.toNat count.toNat c.lbaHigh.current.toNat := by
  have hbegins := begins28_read drive lba count c
  have hlevel := level28_iff lba.toNat_lt count.toNat_lt c.lbaHigh.current.toNat_lt
  constructor
  · intro h
    have hasked := (readLoop_asked count.toNat (fun _ => 0, program28 drive lba count 0x20 c)).trans hbegins.asked
    obtain ⟨hlba, hcount⟩ := asked_eq (askedCount28_pos lba.toNat) hasked (h fun _ => 0).asked
    refine hlevel.mpr ⟨?_, hlba, hcount⟩
    rw [← hcount]
    exact Nat.ne_of_gt (askedCount28_pos lba.toNat)
  · intro h mem
    obtain ⟨hne, hlba, hcount⟩ := hlevel.mp h
    rw [hlba, hcount] at hbegins
    exact readLoop_reads hbegins (Nat.pos_of_ne_zero hne)

theorem write28_iff (drive : UInt8) (lba : UInt32) (count : UInt8) (c : Channel) :
    (∀ mem, Writes (slave drive) lba.toNat count.toNat mem c (ataWriteSectors drive lba count mem c)) ↔
      count = 1 ∧ Level28 lba.toNat count.toNat c.lbaHigh.current.toNat := by
  have hbegins := begins28_write drive lba count c
  have hlevel := level28_iff lba.toNat_lt count.toNat_lt c.lbaHigh.current.toNat_lt
  constructor
  · intro h
    have hwrites := h fun _ => 0
    have hasked := (flushed_asked count.toNat (fun _ => 0) (program28 drive lba count 0x30 c)).trans hbegins.asked
    obtain ⟨hlba, hcount⟩ := asked_eq (askedCount28_pos lba.toNat) hasked hwrites.asked
    have hpos : 0 < count.toNat := by
      rw [← hcount]
      exact askedCount28_pos lba.toNat
    have hdone := List.append_cancel_left ((flushed_done hbegins hpos).symm.trans hwrites.done)
    have hone := congrArg List.length hdone
    rw [length_sectors] at hone
    exact ⟨UInt8.toNat_inj.mp hone.symm, hlevel.mpr ⟨Nat.ne_of_gt hpos, hlba, hcount⟩⟩
  · rintro ⟨rfl, h⟩ mem
    obtain ⟨hne, hlba, hcount⟩ := hlevel.mp h
    rw [hlba, hcount] at hbegins
    have hone : (1 : UInt8).toNat = 1 := rfl
    have hrun := @writeLoop_writes _ _ _ mem _ _ hbegins (Nat.pos_of_ne_zero hne)
    unfold ataWriteSectors
    rw [hone, forEach_succ, forEach_zero] at hrun ⊢
    rw [flush_eq]
    exact hrun.idle

theorem read48_iff (drive : UInt8) (lba : UInt64) (count : UInt16) (c : Channel) :
    (∀ mem, Reads (slave drive) lba.toNat count.toNat mem c (ataReadSectorsLba48 drive lba count (mem, c)).2) ↔
      Level48 lba.toNat count.toNat := by
  have hbegins := begins48_read drive lba count c
  have hlevel := @level48_iff lba.toNat _ count.toNat_lt
  constructor
  · intro h
    have hasked := (readLoop_asked count.toNat (fun _ => 0, program48 drive lba count 0x24 c)).trans hbegins.asked
    obtain ⟨hlba, hcount⟩ := asked_eq askedCount48_pos hasked (h fun _ => 0).asked
    refine hlevel.mpr ⟨?_, hlba, hcount⟩
    rw [← hcount]
    exact Nat.ne_of_gt askedCount48_pos
  · intro h mem
    obtain ⟨hne, hlba, hcount⟩ := hlevel.mp h
    rw [hlba, hcount] at hbegins
    exact readLoop_reads hbegins (Nat.pos_of_ne_zero hne)

theorem ataWriteSectorsLba48_asked (drive : UInt8) (lba : UInt64) (count : UInt16) (mem : Memory) (c : Channel) :
    (ataWriteSectorsLba48 drive lba count mem c).asked = (program48 drive lba count 0x34 c).asked := by
  rw [ataWriteSectorsLba48, flush_eq]
  refine forEach_preserves (P := fun u : Channel => u.asked = (program48 drive lba count 0x34 c).asked) rfl
    fun i u _ hu => ?_
  rw [← hu]
  exact writeBlock_asked mem (2 * (i * 256)) u

theorem write48_iff (drive : UInt8) (lba : UInt64) (count : UInt16) (c : Channel) :
    (∀ mem, Writes (slave drive) lba.toNat count.toNat mem c (ataWriteSectorsLba48 drive lba count mem c)) ↔
      Level48 lba.toNat count.toNat := by
  have hbegins := begins48_write drive lba count c
  have hlevel := @level48_iff lba.toNat _ count.toNat_lt
  constructor
  · intro h
    have hasked := (ataWriteSectorsLba48_asked drive lba count (fun _ => 0) c).trans hbegins.asked
    obtain ⟨hlba, hcount⟩ := asked_eq askedCount48_pos hasked (h fun _ => 0).asked
    refine hlevel.mpr ⟨?_, hlba, hcount⟩
    rw [← hcount]
    exact Nat.ne_of_gt askedCount48_pos
  · intro h mem
    obtain ⟨hne, hlba, hcount⟩ := hlevel.mp h
    rw [hlba, hcount] at hbegins
    unfold ataWriteSectorsLba48
    rw [flush_eq]
    exact (writeLoop_writes hbegins (Nat.pos_of_ne_zero hne)).idle

end Chicago95.Kernel.Ata
