/-
# Chicago95.Lib.TaskFile — a channel of ATA drives as its registers show it.

The registers of the task file are two deep, so that a second write to one keeps the value of the first. Writing the
command register reads an address and a count from them, of 28 or of 48 bits, and begins a transfer of that many sectors
in order; the data port then moves it word by word. A command ends what is left of a transfer. The drives are always
ready and have every sector.
-/
import Chicago95.Lib.Loop
import Mathlib.Data.UInt

namespace Chicago95.Lib.TaskFile

open Chicago95.Lib.Loop

/-! ## The channel -/

/-- A register with the value before the last write. -/
structure Register where
  current : UInt8
  previous : UInt8

/-- A write. -/
def Register.push (r : Register) (v : UInt8) : Register := { current := v, previous := r.current }

inductive Direction where
  | read
  | write
  deriving DecidableEq

/-- What is left of a transfer: sectors from `lba` on, of the first of which `pos` words have been moved. -/
structure Transfer where
  dir : Direction
  drive : Bool
  lba : Nat
  left : Nat
  pos : Nat

/-- What is left of it when a whole sector has been moved. -/
def Transfer.next (t : Transfer) : Option Transfer :=
  if t.left ≤ 1 then none else some { t with lba := t.lba + 1, left := t.left - 1, pos := 0 }

/-- Two drives on one set of registers. `disk` has byte `k` of each sector of each drive. -/
structure Channel where
  features : Register
  sectorCount : Register
  lbaLow : Register
  lbaMid : Register
  lbaHigh : Register
  device : UInt8
  transfer : Option Transfer
  disk : Bool → Nat → Nat → UInt8
  asked : List (Direction × Bool × Nat)
  done : List (Direction × Bool × Nat)

/-- `n` sectors from `lba` on, in order. -/
def sectors (dir : Direction) (drive : Bool) (lba n : Nat) : List (Direction × Bool × Nat) :=
  (List.range n).map fun i => (dir, drive, lba + i)

/-- A word with its low byte first. -/
def wordOf (low high : UInt8) : UInt16 := low.toUInt16 ||| high.toUInt16 <<< 8

namespace Channel

/-- The drive that is selected: bit 4 of the device register. -/
def drive (c : Channel) : Bool := c.device &&& 0x10 != 0

/-- The address of a command of 28 bits. -/
def lba28 (c : Channel) : Nat :=
  c.lbaLow.current.toNat + c.lbaMid.current.toNat * 2 ^ 8 + c.lbaHigh.current.toNat * 2 ^ 16 +
    c.device.toNat % 16 * 2 ^ 24

/-- Its count, in which 0 stands for 256. -/
def count28 (c : Channel) : Nat :=
  if c.sectorCount.current.toNat = 0 then 256 else c.sectorCount.current.toNat

/-- The address of a command of 48 bits: the high bytes are those written first. -/
def lba48 (c : Channel) : Nat :=
  c.lbaLow.current.toNat + c.lbaMid.current.toNat * 2 ^ 8 + c.lbaHigh.current.toNat * 2 ^ 16 +
    c.lbaLow.previous.toNat * 2 ^ 24 + c.lbaMid.previous.toNat * 2 ^ 32 + c.lbaHigh.previous.toNat * 2 ^ 40

/-- Its count, in which 0 stands for 65536. -/
def count48 (c : Channel) : Nat :=
  let n := c.sectorCount.current.toNat + c.sectorCount.previous.toNat * 2 ^ 8
  if n = 0 then 65536 else n

/-- A transfer begins. -/
def start (c : Channel) (dir : Direction) (lba n : Nat) : Channel :=
  { c with
    transfer := some { dir := dir, drive := c.drive, lba := lba, left := n, pos := 0 }
    asked := c.asked ++ sectors dir c.drive lba n }

/-- A command, which ends what is left of a transfer. -/
def command (c : Channel) (v : UInt8) : Channel :=
  if v = 0x20 then c.start .read c.lba28 c.count28
  else if v = 0x30 then c.start .write c.lba28 c.count28
  else if v = 0x24 then c.start .read c.lba48 c.count48
  else if v = 0x34 then c.start .write c.lba48 c.count48
  else { c with transfer := none }

/-- A byte is written to register `reg`. -/
def outb (reg : Nat) (v : UInt8) (c : Channel) : Channel :=
  match reg with
  | 1 => { c with features := c.features.push v }
  | 2 => { c with sectorCount := c.sectorCount.push v }
  | 3 => { c with lbaLow := c.lbaLow.push v }
  | 4 => { c with lbaMid := c.lbaMid.push v }
  | 5 => { c with lbaHigh := c.lbaHigh.push v }
  | 6 => { c with device := v }
  | 7 => c.command v
  | _ => c

/-- The status register: ready, and with data to move or not. -/
def status (c : Channel) : UInt8 := if c.transfer.isSome then 0x58 else 0x50

/-- A word of the transfer has been moved. -/
def advance (c : Channel) (t : Transfer) : Channel :=
  if t.pos + 1 < 256 then { c with transfer := some { t with pos := t.pos + 1 } }
  else { c with transfer := t.next, done := c.done ++ [(t.dir, t.drive, t.lba)] }

/-- A word is read from the data port. -/
def inw (c : Channel) : UInt16 × Channel :=
  match c.transfer with
  | some t =>
    if t.dir = .read then
      (wordOf (c.disk t.drive t.lba (2 * t.pos)) (c.disk t.drive t.lba (2 * t.pos + 1)), c.advance t)
    else (0xFFFF, c)
  | none => (0xFFFF, c)

/-- A word is written to it. -/
def outw (w : UInt16) (c : Channel) : Channel :=
  match c.transfer with
  | some t =>
    if t.dir = .write then
      { c with
        disk := fun d x k =>
          if d = t.drive ∧ x = t.lba ∧ k = 2 * t.pos then w.toUInt8
          else if d = t.drive ∧ x = t.lba ∧ k = 2 * t.pos + 1 then (w >>> 8).toUInt8
          else c.disk d x k }.advance t
    else c
  | none => c

end Channel

/-! ## Sectors in memory -/

/-- The two bytes of a word stored, the low one first. -/
def storeWord (mem : Nat → UInt8) (a : Nat) (w : UInt16) : Nat → UInt8 := fun b =>
  if b = a then w.toUInt8 else if b = a + 1 then (w >>> 8).toUInt8 else mem b

/-- 256 words from the data port to memory. -/
def readBlock (off : Nat) (s : (Nat → UInt8) × Channel) : (Nat → UInt8) × Channel :=
  forEach 256 (fun j s => (storeWord s.1 (off + 2 * j) s.2.inw.1, s.2.inw.2)) s

/-- 256 words from memory to the data port. -/
def writeBlock (mem : Nat → UInt8) (off : Nat) (c : Channel) : Channel :=
  forEach 256 (fun j c => c.outw (wordOf (mem (off + 2 * j)) (mem (off + 2 * j + 1)))) c

theorem toNat_wordOf (low high : UInt8) : (wordOf low high).toNat = low.toNat + high.toNat * 256 := by
  have hhigh : (high.toUInt16 <<< 8).toNat = 2 ^ 8 * high.toNat := by
    have hlt := high.toNat_lt
    rw [UInt16.toNat_shiftLeft, UInt8.toNat_toUInt16, Nat.shiftLeft_eq]
    show high.toNat * 2 ^ 8 % 2 ^ 16 = _
    omega
  unfold wordOf
  rw [UInt16.toNat_or, hhigh, UInt8.toNat_toUInt16, Nat.or_comm, ← Nat.two_pow_add_eq_or_of_lt low.toNat_lt]
  omega

@[simp] theorem wordOf_low (low high : UInt8) : (wordOf low high).toUInt8 = low := by
  have hlow := low.toNat_lt
  rw [← UInt8.toNat_inj, UInt16.toNat_toUInt8, toNat_wordOf]
  omega

@[simp] theorem wordOf_high (low high : UInt8) : (wordOf low high >>> 8).toUInt8 = high := by
  have hlow := low.toNat_lt
  have hhigh := high.toNat_lt
  rw [← UInt8.toNat_inj, UInt16.toNat_toUInt8, UInt16.toNat_shiftRight, toNat_wordOf, Nat.shiftRight_eq_div_pow]
  show (low.toNat + high.toNat * 256) / 2 ^ 8 % 2 ^ 8 = _
  omega

/-! ## Bytes of an address -/

theorem toNat_byte32 (x k : UInt32) (hk : k.toNat < 32) :
    ((x >>> k) &&& 0xFF).toUInt8.toNat = x.toNat / 2 ^ k.toNat % 256 := by
  rw [UInt32.toNat_toUInt8, UInt32.toNat_and, UInt32.toNat_shiftRight, Nat.mod_eq_of_lt hk,
    Nat.shiftRight_eq_div_pow]
  show (x.toNat / 2 ^ k.toNat &&& 2 ^ 8 - 1) % 2 ^ 8 = _
  rw [Nat.and_two_pow_sub_one_eq_mod, Nat.mod_mod]

theorem toNat_byte64 (x k : UInt64) (hk : k.toNat < 64) :
    ((x >>> k) &&& 0xFF).toUInt8.toNat = x.toNat / 2 ^ k.toNat % 256 := by
  rw [UInt64.toNat_toUInt8, UInt64.toNat_and, UInt64.toNat_shiftRight, Nat.mod_eq_of_lt hk,
    Nat.shiftRight_eq_div_pow]
  show (x.toNat / 2 ^ k.toNat &&& 2 ^ 8 - 1) % 2 ^ 8 = _
  rw [Nat.and_two_pow_sub_one_eq_mod, Nat.mod_mod]

theorem toNat_low32 (x : UInt32) : (x &&& 0xFF).toUInt8.toNat = x.toNat % 256 := by
  rw [UInt32.toNat_toUInt8, UInt32.toNat_and]
  show (x.toNat &&& 2 ^ 8 - 1) % 2 ^ 8 = _
  rw [Nat.and_two_pow_sub_one_eq_mod, Nat.mod_mod]

theorem toNat_low64 (x : UInt64) : (x &&& 0xFF).toUInt8.toNat = x.toNat % 256 := by
  rw [UInt64.toNat_toUInt8, UInt64.toNat_and]
  show (x.toNat &&& 2 ^ 8 - 1) % 2 ^ 8 = _
  rw [Nat.and_two_pow_sub_one_eq_mod, Nat.mod_mod]

theorem toNat_low16 (x : UInt16) : (x &&& 0xFF).toUInt8.toNat = x.toNat % 256 := by
  rw [UInt16.toNat_toUInt8, UInt16.toNat_and]
  show (x.toNat &&& 2 ^ 8 - 1) % 2 ^ 8 = _
  rw [Nat.and_two_pow_sub_one_eq_mod, Nat.mod_mod]

theorem toNat_high16 (x : UInt16) : ((x >>> 8) &&& 0xFF).toUInt8.toNat = x.toNat / 256 := by
  have hlt := x.toNat_lt
  rw [UInt16.toNat_toUInt8, UInt16.toNat_and, UInt16.toNat_shiftRight, Nat.shiftRight_eq_div_pow]
  show (x.toNat / 2 ^ 8 &&& 2 ^ 8 - 1) % 2 ^ 8 = _
  rw [Nat.and_two_pow_sub_one_eq_mod]
  omega

theorem toNat_nibble32 (x : UInt32) : ((x >>> 24) &&& 0x0F).toUInt8.toNat = x.toNat / 2 ^ 24 % 16 := by
  rw [UInt32.toNat_toUInt8, UInt32.toNat_and, UInt32.toNat_shiftRight, Nat.shiftRight_eq_div_pow]
  show (x.toNat / 2 ^ 24 &&& 2 ^ 4 - 1) % 2 ^ 8 = _
  rw [Nat.and_two_pow_sub_one_eq_mod]
  omega

/-! ## One sector -/

theorem sectors_succ (dir : Direction) (drive : Bool) (lba n : Nat) :
    sectors dir drive lba (n + 1) = sectors dir drive lba n ++ [(dir, drive, lba + n)] := by
  simp [sectors, List.range_succ]

theorem storeWord_grows (mem src : Nat → UInt8) (off j : Nat) :
    storeWord (fun b => if off ≤ b ∧ b < off + 2 * j then src (b - off) else mem b) (off + 2 * j)
        (wordOf (src (2 * j)) (src (2 * j + 1))) =
      fun b => if off ≤ b ∧ b < off + 2 * (j + 1) then src (b - off) else mem b := by
  funext b
  simp only [storeWord, wordOf_low, wordOf_high]
  by_cases hlow : b = off + 2 * j
  · rw [if_pos hlow, if_pos ⟨by omega, by omega⟩, show b - off = 2 * j by omega]
  rw [if_neg hlow]
  by_cases hhigh : b = off + 2 * j + 1
  · rw [if_pos hhigh, if_pos ⟨by omega, by omega⟩, show b - off = 2 * j + 1 by omega]
  rw [if_neg hhigh]
  by_cases hin : off ≤ b ∧ b < off + 2 * j
  · rw [if_pos hin, if_pos ⟨hin.1, by omega⟩]
  · rw [if_neg hin, if_neg fun h => hin ⟨h.1, by omega⟩]

theorem sector_grows (disk : Bool → Nat → Nat → UInt8) (src : Nat → UInt8) (drive : Bool) (lba j : Nat) : (fun d x k =>
        if d = drive ∧ x = lba ∧ k = 2 * j then src (2 * j)
        else if d = drive ∧ x = lba ∧ k = 2 * j + 1 then src (2 * j + 1)
        else if d = drive ∧ x = lba ∧ k < 2 * j then src k else disk d x k) =
      fun d x k => if d = drive ∧ x = lba ∧ k < 2 * (j + 1) then src k else disk d x k := by
  funext d x k
  by_cases hat : d = drive ∧ x = lba
  · obtain ⟨rfl, rfl⟩ := hat
    simp only [true_and]
    by_cases hlow : k = 2 * j
    · rw [if_pos hlow, if_pos (by omega), hlow]
    rw [if_neg hlow]
    by_cases hhigh : k = 2 * j + 1
    · rw [if_pos hhigh, if_pos (by omega), hhigh]
    rw [if_neg hhigh]
    by_cases hin : k < 2 * j
    · rw [if_pos hin, if_pos (by omega)]
    · rw [if_neg hin, if_neg (by omega)]
  · have hne : ∀ p : Prop, ¬(d = drive ∧ x = lba ∧ p) := fun p h => hat ⟨h.1, h.2.1⟩
    simp only [hne, if_false]

theorem readWords_eq {c : Channel} {t : Transfer} (hc : c.transfer = some t) (hdir : t.dir = .read)
    (hpos : t.pos = 0) (mem : Nat → UInt8) (off : Nat) :
    forEach 255 (fun j s => (storeWord s.1 (off + 2 * j) s.2.inw.1, s.2.inw.2)) (mem, c) =
      (fun b => if off ≤ b ∧ b < off + 2 * 255 then c.disk t.drive t.lba (b - off) else mem b,
        { c with transfer := some { t with pos := 255 } }) := by
  refine forEach_induction
    (P := fun j s => s = (fun b => if off ≤ b ∧ b < off + 2 * j then c.disk t.drive t.lba (b - off) else mem b,
      { c with transfer := some { t with pos := j } })) ?_ ?_
  · obtain ⟨dir, drive, lba, left, pos⟩ := t
    dsimp only at hpos
    subst hpos
    rw [← hc]
    refine Prod.ext (funext fun b => ?_) rfl
    exact (if_neg fun h => by omega).symm
  · rintro j _ hj rfl
    have hmore : j + 1 < 256 := by omega
    simp only [Channel.inw, hdir, if_true, Channel.advance, if_pos hmore]
    rw [storeWord_grows mem (c.disk t.drive t.lba)]

/-- **A block read** is the sector of the transfer, which goes on to the next. -/
theorem readBlock_eq {c : Channel} {t : Transfer} (hc : c.transfer = some t) (hdir : t.dir = .read)
    (hpos : t.pos = 0) (mem : Nat → UInt8) (off : Nat) :
    readBlock off (mem, c) =
      (fun b => if off ≤ b ∧ b < off + 512 then c.disk t.drive t.lba (b - off) else mem b,
        { c with transfer := t.next, done := c.done ++ [(t.dir, t.drive, t.lba)] }) := by
  unfold readBlock
  rw [forEach_succ, readWords_eq hc hdir hpos]
  obtain ⟨dir, drive, lba, left, pos⟩ := t
  dsimp only at hdir
  subst hdir
  simp only [Channel.inw, if_true, Channel.advance, Nat.lt_irrefl, if_false]
  rw [storeWord_grows mem (c.disk drive lba)]
  rfl

theorem writeWords_eq {c : Channel} {t : Transfer} (hc : c.transfer = some t) (hdir : t.dir = .write)
    (hpos : t.pos = 0) (mem : Nat → UInt8) (off : Nat) :
    forEach 255 (fun j c => c.outw (wordOf (mem (off + 2 * j)) (mem (off + 2 * j + 1)))) c =
      { c with
        transfer := some { t with pos := 255 }
        disk := fun d x k =>
          if d = t.drive ∧ x = t.lba ∧ k < 2 * 255 then mem (off + k) else c.disk d x k } := by
  refine forEach_induction
    (P := fun j s => s = { c with
      transfer := some { t with pos := j }
      disk := fun d x k => if d = t.drive ∧ x = t.lba ∧ k < 2 * j then mem (off + k) else c.disk d x k }) ?_ ?_
  · obtain ⟨dir, drive, lba, left, pos⟩ := t
    dsimp only at hpos
    subst hpos
    rw [← hc]
    simp only [Nat.mul_zero, Nat.not_lt_zero, and_false, if_false]
  · rintro j _ hj rfl
    have hmore : j + 1 < 256 := by omega
    simp only [Channel.outw, hdir, if_true, Channel.advance, if_pos hmore, wordOf_low, wordOf_high]
    rw [← sector_grows c.disk (fun k => mem (off + k)) t.drive t.lba j]
    rfl

/-- **A block written** is the sector of the transfer, which goes on to the next. -/
theorem writeBlock_eq {c : Channel} {t : Transfer} (hc : c.transfer = some t) (hdir : t.dir = .write)
    (hpos : t.pos = 0) (mem : Nat → UInt8) (off : Nat) :
    writeBlock mem off c =
      { c with
        transfer := t.next
        done := c.done ++ [(t.dir, t.drive, t.lba)]
        disk := fun d x k =>
          if d = t.drive ∧ x = t.lba ∧ k < 512 then mem (off + k) else c.disk d x k } := by
  unfold writeBlock
  rw [forEach_succ, writeWords_eq hc hdir hpos]
  obtain ⟨dir, drive, lba, left, pos⟩ := t
  dsimp only at hdir
  subst hdir
  simp only [Channel.outw, if_true, Channel.advance, Nat.lt_irrefl, if_false, wordOf_low, wordOf_high]
  rw [← sector_grows c.disk (fun k => mem (off + k)) drive lba 255]
  rfl

theorem writeBlock_idle {c : Channel} (hc : c.transfer = none) (mem : Nat → UInt8) (off : Nat) :
    writeBlock mem off c = c := by
  refine forEach_eq_self fun j _ => ?_
  simp only [Channel.outw, hc]

@[simp] theorem Channel.advance_asked (c : Channel) (t : Transfer) : (c.advance t).asked = c.asked := by
  unfold Channel.advance
  split <;> rfl

theorem readBlock_asked (off : Nat) (s : (Nat → UInt8) × Channel) : (readBlock off s).2.asked = s.2.asked := by
  refine forEach_preserves (P := fun u : (Nat → UInt8) × Channel => u.2.asked = s.2.asked) rfl fun j u _ hu => ?_
  rw [← hu]
  unfold Channel.inw
  rcases u.2.transfer with _ | t
  · rfl
  · dsimp only
    split
    · exact Channel.advance_asked _ _
    · rfl

theorem writeBlock_asked (mem : Nat → UInt8) (off : Nat) (c : Channel) : (writeBlock mem off c).asked = c.asked := by
  refine forEach_preserves (P := fun u : Channel => u.asked = c.asked) rfl fun j u _ hu => ?_
  rw [← hu]
  unfold Channel.outw
  rcases u.transfer with _ | t
  · rfl
  · dsimp only
    split
    · exact Channel.advance_asked _ _
    · rfl

/-! ## Sectors one after another -/

@[simp] theorem sectors_zero (dir : Direction) (drive : Bool) (lba : Nat) : sectors dir drive lba 0 = [] := rfl

@[simp] theorem sectors_one (dir : Direction) (drive : Bool) (lba : Nat) :
    sectors dir drive lba 1 = [(dir, drive, lba)] := rfl

@[simp] theorem length_sectors (dir : Direction) (drive : Bool) (lba n : Nat) :
    (sectors dir drive lba n).length = n := by
  simp [sectors]

theorem sectors_inj {dir : Direction} {drive : Bool} {a b n m : Nat} (hn : 0 < n)
    (h : sectors dir drive a n = sectors dir drive b m) : a = b ∧ n = m := by
  have hlen : n = m := by
    have hlen := congrArg List.length h
    rwa [length_sectors, length_sectors] at hlen
  subst hlen
  have hhead := congrArg (fun l => l[0]?) h
  simp only [sectors, List.getElem?_map, List.getElem?_range hn, Option.map_some, Option.some.injEq,
    Prod.mk.injEq, true_and, Nat.add_zero] at hhead
  exact ⟨hhead, rfl⟩

/-- The command of a transfer has been given and no data moved. -/
structure Begins (c c' : Channel) (dir : Direction) (drive : Bool) (lba n : Nat) : Prop where
  transfer : c'.transfer = some { dir := dir, drive := drive, lba := lba, left := n, pos := 0 }
  asked : c'.asked = c.asked ++ sectors dir drive lba n
  done : c'.done = c.done
  disk : c'.disk = c.disk

/-- Of `n` sectors asked for from `lba` on, `i` have been read into consecutive pieces of memory. -/
structure Reading (drive : Bool) (lba n : Nat) (mem : Nat → UInt8) (c : Channel) (i : Nat)
    (s : (Nat → UInt8) × Channel) : Prop where
  transfer : s.2.transfer =
    if i < n then some { dir := .read, drive := drive, lba := lba + i, left := n - i, pos := 0 } else none
  asked : s.2.asked = c.asked ++ sectors .read drive lba n
  done : s.2.done = c.done ++ sectors .read drive lba i
  disk : s.2.disk = c.disk
  mem : ∀ b, s.1 b = if b < i * 512 then c.disk drive (lba + b / 512) (b % 512) else mem b

/-- Of `n` sectors asked for from `lba` on, `i` have been written, the `m`-th with the bytes `src m`. -/
structure Writing (drive : Bool) (lba n : Nat) (src : Nat → Nat → UInt8) (c : Channel) (i : Nat)
    (s : Channel) : Prop where
  transfer : s.transfer =
    if i < n then some { dir := .write, drive := drive, lba := lba + i, left := n - i, pos := 0 } else none
  asked : s.asked = c.asked ++ sectors .write drive lba n
  done : s.done = c.done ++ sectors .write drive lba i
  disk : ∀ d x k, s.disk d x k =
    if d = drive ∧ (lba ≤ x ∧ x < lba + i) ∧ k < 512 then src (x - lba) k else c.disk d x k

/-- **The sectors from `lba` on, read**: asked for and moved in order, each to its piece of memory, and nothing else. -/
def Reads (drive : Bool) (lba n : Nat) (mem : Nat → UInt8) (c : Channel) (s : (Nat → UInt8) × Channel) : Prop :=
  Reading drive lba n mem c n s

/-- **The sectors from `lba` on, written**: asked for and moved in order, each from its piece of memory, and no other. -/
def Writes (drive : Bool) (lba n : Nat) (mem : Nat → UInt8) (c s : Channel) : Prop :=
  Writing drive lba n (fun m k => mem (m * 512 + k)) c n s

section Runs

variable {drive : Bool} {lba n i : Nat} {mem : Nat → UInt8} {src : Nat → Nat → UInt8} {c c' : Channel}

theorem Reading.start (hidle : c.transfer = none) : Reading drive lba 0 mem c 0 (mem, c) where
  transfer := hidle
  asked := (List.append_nil _).symm
  done := (List.append_nil _).symm
  disk := rfl
  mem := fun b => by simp

theorem Begins.reading (h : Begins c c' .read drive lba n) (hn : 0 < n) : Reading drive lba n mem c 0 (mem, c') where
  transfer := by rw [h.transfer, if_pos hn]; rfl
  asked := h.asked
  done := by rw [h.done, sectors_zero, List.append_nil]
  disk := h.disk
  mem := fun b => by simp

theorem Reading.step {s : (Nat → UInt8) × Channel} (h : Reading drive lba n mem c i s) (hi : i < n) :
    Reading drive lba n mem c (i + 1) (readBlock (i * 512) s) := by
  have htransfer := h.transfer
  rw [if_pos hi] at htransfer
  have hblock := readBlock_eq htransfer rfl rfl s.1 (i * 512)
  rw [Prod.mk.eta] at hblock
  rw [hblock]
  refine ⟨?_, h.asked, ?_, h.disk, fun b => ?_⟩
  · unfold Transfer.next
    dsimp only
    by_cases hlast : n - i ≤ 1
    · rw [if_pos hlast, if_neg (by omega)]
    · rw [if_neg hlast, if_pos (by omega), Nat.add_assoc, Nat.sub_sub]
  · rw [sectors_succ, ← List.append_assoc, ← h.done]
  · dsimp only
    rw [h.disk, h.mem]
    rw [Nat.succ_mul]
    by_cases hbefore : b < i * 512
    · rw [if_neg fun h => Nat.not_le_of_lt hbefore h.1, if_pos hbefore, if_pos (Nat.lt_add_right 512 hbefore)]
    rw [if_neg hbefore]
    by_cases hin : b < i * 512 + 512
    · rw [if_pos ⟨Nat.le_of_not_lt hbefore, hin⟩, if_pos hin, show b / 512 = i by omega,
        show b - i * 512 = b % 512 by omega]
    · rw [if_neg fun h => hin h.2, if_neg hin]

theorem Reading.ask {s : (Nat → UInt8) × Channel} (h : Reading drive lba n mem c n s)
    (hb : Begins s.2 c' .read drive (lba + n) 1) : Reading drive lba (n + 1) mem c n (s.1, c') where
  transfer := by rw [hb.transfer, if_pos (Nat.lt_succ_self n), Nat.add_sub_cancel_left]
  asked := by rw [hb.asked, h.asked, List.append_assoc, sectors_one, ← sectors_succ]
  done := by rw [hb.done, h.done]
  disk := by rw [hb.disk, h.disk]
  mem := h.mem

theorem Writing.start (hidle : c.transfer = none) : Writing drive lba 0 src c 0 c where
  transfer := hidle
  asked := (List.append_nil _).symm
  done := (List.append_nil _).symm
  disk := fun d x k => (if_neg fun h => by omega).symm

theorem Begins.writing (h : Begins c c' .write drive lba n) (hn : 0 < n) : Writing drive lba n src c 0 c' where
  transfer := by rw [h.transfer, if_pos hn]; rfl
  asked := h.asked
  done := by rw [h.done, sectors_zero, List.append_nil]
  disk := fun d x k => by rw [h.disk, if_neg fun h => by omega]

theorem Writing.step {s : Channel} {off : Nat} (h : Writing drive lba n src c i s) (hi : i < n)
    (hsrc : ∀ k, k < 512 → mem (off + k) = src i k) : Writing drive lba n src c (i + 1) (writeBlock mem off s) := by
  have htransfer := h.transfer
  rw [if_pos hi] at htransfer
  rw [writeBlock_eq htransfer rfl rfl]
  refine ⟨?_, h.asked, ?_, fun d x k => ?_⟩
  · unfold Transfer.next
    dsimp only
    by_cases hlast : n - i ≤ 1
    · rw [if_pos hlast, if_neg (by omega)]
    · rw [if_neg hlast, if_pos (by omega), Nat.add_assoc, Nat.sub_sub]
  · rw [sectors_succ, ← List.append_assoc, ← h.done]
  · dsimp only
    rw [h.disk]
    by_cases hin : d = drive ∧ x = lba + i ∧ k < 512
    · rw [if_pos hin, if_pos ⟨hin.1, by omega, hin.2.2⟩, hsrc k hin.2.2, hin.2.1, Nat.add_sub_cancel_left]
    · rw [if_neg hin]
      by_cases hbefore : d = drive ∧ (lba ≤ x ∧ x < lba + i) ∧ k < 512
      · rw [if_pos hbefore, if_pos ⟨hbefore.1, by omega, hbefore.2.2⟩]
      · rw [if_neg hbefore, if_neg fun h => ?_]
        obtain ⟨hd, hx, hk⟩ := h
        by_cases hlast : x = lba + i
        · exact hin ⟨hd, hlast, hk⟩
        · exact hbefore ⟨hd, by omega, hk⟩

theorem Writing.ask {s : Channel} (h : Writing drive lba n src c n s)
    (hb : Begins s c' .write drive (lba + n) 1) : Writing drive lba (n + 1) src c n c' where
  transfer := by rw [hb.transfer, if_pos (Nat.lt_succ_self n), Nat.add_sub_cancel_left]
  asked := by rw [hb.asked, h.asked, List.append_assoc, sectors_one, ← sectors_succ]
  done := by rw [hb.done, h.done]
  disk := by rw [hb.disk]; exact h.disk

theorem Writing.congr {src' : Nat → Nat → UInt8} {s : Channel} (h : Writing drive lba n src c i s)
    (hsrc : ∀ m k, m < i → src m k = src' m k) : Writing drive lba n src' c i s where
  transfer := h.transfer
  asked := h.asked
  done := h.done
  disk := fun d x k => by
    rw [h.disk]
    by_cases hin : d = drive ∧ (lba ≤ x ∧ x < lba + i) ∧ k < 512
    · rw [if_pos hin, if_pos hin]
      exact hsrc (x - lba) k (by omega)
    · rw [if_neg hin, if_neg hin]

theorem Writing.idle {s : Channel} (h : Writing drive lba n src c n s) :
    Writing drive lba n src c n { s with transfer := none } :=
  ⟨(if_neg (Nat.lt_irrefl n)).symm, h.asked, h.done, h.disk⟩

end Runs

end Chicago95.Lib.TaskFile
