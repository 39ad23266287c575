/-
# Chicago95.Stage2.Encfs — the encrypted volume of `fs/encfs_mount.c`.

A request for `count` sectors from `lba` on takes its nonce from the volume key and from `lba`, has
`sec_chacha20_encrypt` fill the local buffer `ks` of 64 bytes, and XORs byte `i` of the data with
`ks[i % 64]`. A history of requests on a disk that stores sectors faithfully is watched by what was last
written to each sector.
-/
import Chicago95.Lib.Transition
import Chicago95.Stage2.Chacha20

namespace Chicago95.Stage2

open Chicago95.Lib.Loop Chicago95.Lib.Transition

/-! ## The code -/

/-- What the requests use of `encfs_state_t`. -/
structure Encfs where
  volumeKey : Nat → UInt8
  mounted : Bool
  encrypted : Bool

/-- The bytes of each sector of each drive. -/
abbrev Disk := UInt8 → Nat → Nat → UInt8

/-- `tape_read` on a disk that works. -/
def tapeRead (disk : Disk) (drive : UInt8) (lba count : Nat) (buf : Nat → UInt8) : Nat → UInt8 :=
  fun i => if i < count * 512 then disk drive (lba + i / 512) (i % 512) else buf i

/-- `tape_write` on a disk that works. -/
def tapeWrite (disk : Disk) (drive : UInt8) (lba count : Nat) (buf : Nat → UInt8) : Disk :=
  fun d sector j =>
    if d = drive ∧ lba ≤ sector ∧ sector < lba + count ∧ j < 512 then buf ((sector - lba) * 512 + j)
    else disk d sector j

namespace Encfs

/-- `nonce`: eight bytes of the volume key and the four of the first sector's number. -/
def nonce (s : Encfs) (lba : UInt32) : List UInt8 :=
  (List.range 8).map (fun i => s.volumeKey (i + 16)) ++
    [(lba >>> 24).toUInt8, (lba >>> 16).toUInt8, (lba >>> 8).toUInt8, lba.toUInt8]

/-- `ks` as the request fills it; `stack` is what it held before. -/
def keystream (s : Encfs) (lba count : UInt32) (stack : Nat → UInt8) : LocalBuf :=
  secChacha20Encrypt s.volumeKey 0 (fun i => (s.nonce lba).getD i 0)
    { bytes := stack, size := 64, overrun := false } (count * 512).toNat

/-- `encfs_read_sectors`: what it leaves in the caller's buffer, and whether it wrote past `ks`. -/
def encfsReadSectors (s : Encfs) (disk : Disk) (drive : UInt8) (lba count : UInt32)
    (stack buf : Nat → UInt8) : (Nat → UInt8) × Bool :=
  let buf := tapeRead disk drive lba.toNat count.toNat buf
  if s.encrypted = true ∧ s.mounted = true then
    let ks := s.keystream lba count stack
    let total := (count * 512).toNat
    (forEach total (fun i buf => Function.update buf i (buf i ^^^ ks.bytes (i % 64))) buf, ks.overrun)
  else (buf, false)

/-- `encfs_write_sectors`: its result, the disk, and whether it wrote past `ks` or `plain`. -/
def encfsWriteSectors (s : Encfs) (disk : Disk) (drive : UInt8) (lba count : UInt32)
    (stack buf : Nat → UInt8) : Int × Disk × Bool :=
  if 128 < count then (-1, disk, false)
  else
    let plain : LocalBuf := { bytes := stack, size := 512 * 128, overrun := false }
    let total := (count * 512).toNat
    let plain := plain.writeEach (fun i _ => buf i) 0 total
    if s.encrypted = true ∧ s.mounted = true then
      let ks := s.keystream lba count stack
      let plain := plain.writeEach (fun i byte => byte ^^^ ks.bytes (i % 64)) 0 total
      (0, tapeWrite disk drive lba.toNat count.toNat plain.bytes, ks.overrun || plain.overrun)
    else (0, tapeWrite disk drive lba.toNat count.toNat plain.bytes, plain.overrun)

/-! ## The pad of a request -/

/-- The 64 bytes a request masks its data with: the first block of the keystream of its first sector,
XORed into what the stack held. -/
def pad (s : Encfs) (lba : UInt32) (stack : Nat → UInt8) (j : Nat) : UInt8 :=
  stack j ^^^ Chacha20.block s.volumeKey (fun i => (s.nonce lba).getD i 0) 0 j

section

variable {s : Encfs} {disk : Disk} {drive : UInt8} {lba count : UInt32} {stack buf : Nat → UInt8}

theorem total_eq (hcount : count ≤ 128) : (count * 512).toNat = count.toNat * 512 := by
  have h : count.toNat ≤ 128 := hcount
  rw [UInt32.toNat_mul]
  show count.toNat * 512 % 2 ^ 32 = _
  omega

theorem keystream_spec (hcount : count ≤ 128) :
    (∀ j, j < count.toNat * 512 → j < 64 → (s.keystream lba count stack).bytes j = s.pad lba stack j) ∧
      (s.keystream lba count stack).overrun = decide (count ≠ 0) := by
  have h : count.toNat ≤ 128 := hcount
  have htotal : (count * 512).toNat ≤ 2 ^ 32 - 64 := by
    rw [total_eq hcount]
    omega
  obtain ⟨hbytes, hover⟩ := secChacha20Encrypt_spec s.volumeKey 0 (fun i => (s.nonce lba).getD i 0)
    { bytes := stack, size := 64, overrun := false } htotal
  rw [total_eq hcount] at hbytes hover
  refine ⟨fun j hj hj64 => ?_, ?_⟩
  · have hdiv : j / 64 = 0 := Nat.div_eq_of_lt hj64
    have hmod : j % 64 = j := Nat.mod_eq_of_lt hj64
    unfold keystream
    rw [total_eq hcount, hbytes, if_pos hj, hdiv, hmod]
    rfl
  · unfold keystream
    rw [total_eq hcount, hover, Bool.false_or]
    refine decide_eq_decide.mpr ?_
    have hzero : count = 0 ↔ count.toNat = 0 := UInt32.toNat_inj.symm
    rw [ne_eq, hzero]
    show 0 < count.toNat * 512 ∧ 64 < count.toNat * 512 ↔ _
    omega

theorem forEach_mask (f : Nat → UInt8) (buf : Nat → UInt8) (n i : Nat) :
    forEach n (fun i buf => Function.update buf i (buf i ^^^ f i)) buf i = if i < n then buf i ^^^ f i else buf i := by
  induction n with
  | zero => rfl
  | succ n ih =>
    rw [forEach_succ]
    by_cases hi : i = n
    · subst hi
      rw [Function.update_self, ih, if_neg (Nat.lt_irrefl i), if_pos (Nat.lt_succ_self i)]
    · rw [Function.update_of_ne hi, ih]
      by_cases hlt : i < n
      · rw [if_pos hlt, if_pos (by omega)]
      · rw [if_neg hlt, if_neg (by omega)]

variable (hs : s.encrypted = true ∧ s.mounted = true)

include hs

theorem readSectors_byte (hcount : count ≤ 128) {k j : Nat} (hk : k < count.toNat) (hj : j < 512) :
    (s.encfsReadSectors disk drive lba count stack buf).1 (k * 512 + j) =
      disk drive (lba.toNat + k) j ^^^ s.pad lba stack (j % 64) := by
  have hlt : k * 512 + j < count.toNat * 512 := by omega
  have hdiv : (k * 512 + j) / 512 = k := by omega
  have hmod : (k * 512 + j) % 512 = j := by omega
  have h64 : (k * 512 + j) % 64 = j % 64 := by omega
  unfold encfsReadSectors
  simp only [if_pos hs, forEach_mask, total_eq hcount, if_pos hlt, tapeRead, hdiv, hmod, h64]
  rw [(keystream_spec hcount).1 _ (by omega) (Nat.mod_lt _ (by decide))]

theorem readSectors_overrun (hcount : count ≤ 128) :
    (s.encfsReadSectors disk drive lba count stack buf).2 = decide (count ≠ 0) := by
  unfold encfsReadSectors
  rw [if_pos hs]
  exact (keystream_spec hcount).2

theorem writeSectors_disk (hcount : count ≤ 128) (d : UInt8) (sector : Nat) {j : Nat} (hj : j < 512) :
    (s.encfsWriteSectors disk drive lba count stack buf).2.1 d sector j =
      if d = drive ∧ lba.toNat ≤ sector ∧ sector < lba.toNat + count.toNat then
        buf ((sector - lba.toNat) * 512 + j) ^^^ s.pad lba stack (j % 64) else disk d sector j := by
  unfold encfsWriteSectors
  rw [if_neg (UInt32.not_lt.mpr hcount)]
  simp only [if_pos hs, tapeWrite, hj, and_true, total_eq hcount]
  by_cases hin : d = drive ∧ lba.toNat ≤ sector ∧ sector < lba.toNat + count.toNat
  · have hlt : (sector - lba.toNat) * 512 + j < count.toNat * 512 := by omega
    have h64 : ((sector - lba.toNat) * 512 + j) % 64 = j % 64 := by omega
    rw [if_pos hin, if_pos hin, (LocalBuf.writeEach_spec _ _ _ _).1, if_pos (by omega),
      (LocalBuf.writeEach_spec _ _ _ _).1, if_pos (by omega), h64,
      (keystream_spec hcount).1 _ (by omega) (Nat.mod_lt _ (by decide))]
  · rw [if_neg hin, if_neg hin]

theorem writeSectors_overrun (hcount : count ≤ 128) :
    (s.encfsWriteSectors disk drive lba count stack buf).2.2 = decide (count ≠ 0) := by
  have h : count.toNat ≤ 128 := hcount
  have hfits : ¬(0 < count.toNat * 512 ∧ 512 * 128 < 0 + count.toNat * 512) := by omega
  obtain ⟨_, hsize, hover⟩ := LocalBuf.writeEach_spec
    { bytes := stack, size := 512 * 128, overrun := false } (fun i _ => buf i) 0 (count.toNat * 512)
  unfold encfsWriteSectors
  rw [if_neg (UInt32.not_lt.mpr hcount)]
  simp only [if_pos hs, total_eq hcount]
  rw [(keystream_spec hcount).2, (LocalBuf.writeEach_spec _ _ _ _).2.2, hover, hsize]
  simp only [decide_eq_false hfits, Bool.or_false]

end

end Encfs

/-! ## Which keystream byte masks which byte of the disk -/

/-- A byte of the keystream under the volume key: the nonce and the counter of its block, and its offset
in the block. -/
structure KeystreamIndex where
  nonce : List UInt8
  counter : UInt32
  offset : Nat

/-- A byte of the disk. -/
structure DiskPos where
  drive : UInt8
  sector : Nat
  offset : Nat

/-- A request to write. -/
structure WriteRequest where
  drive : UInt8
  lba : UInt32
  count : UInt32

/-- The keystream byte in byte `i` of the data of a request at `lba`. -/
def Encfs.keystreamIndex (s : Encfs) (lba : UInt32) (i : Nat) : KeystreamIndex :=
  { nonce := s.nonce lba, counter := 0, offset := i % 64 }

/-- The keystream byte at an index. -/
def Encfs.keystreamByte (s : Encfs) (k : KeystreamIndex) : UInt8 :=
  Chacha20.block s.volumeKey (fun i => k.nonce.getD i 0) k.counter k.offset

/-- The request, which is not refused, masks the byte at `pos` with the keystream byte `k`. -/
def WriteRequest.Uses (s : Encfs) (r : WriteRequest) (pos : DiskPos) (k : KeystreamIndex) : Prop :=
  r.count ≤ 128 ∧ pos.drive = r.drive ∧ r.lba.toNat ≤ pos.sector ∧
    pos.sector < r.lba.toNat + r.count.toNat ∧ pos.offset < 512 ∧
    k = s.keystreamIndex r.lba ((pos.sector - r.lba.toNat) * 512 + pos.offset)

/-- No keystream byte masks two different bytes of the disk. -/
def NoReuse (s : Encfs) (requests : List WriteRequest) : Prop :=
  ∀ r ∈ requests, ∀ r' ∈ requests, ∀ pos pos' : DiskPos, pos ≠ pos' →
    ∀ k, r.Uses s pos k → ¬ r'.Uses s pos' k

section

variable {s : Encfs} {disk : Disk} {r : WriteRequest} {stack buf : Nat → UInt8} {pos : DiskPos}
  {k : KeystreamIndex}

/-- **The byte the request stores**: the plaintext masked with the keystream byte `Uses` names, and with
what the stack held. -/
theorem WriteRequest.Uses.stored (hs : s.encrypted = true ∧ s.mounted = true) (h : r.Uses s pos k) :
    (s.encfsWriteSectors disk r.drive r.lba r.count stack buf).2.1 pos.drive pos.sector pos.offset =
      buf ((pos.sector - r.lba.toNat) * 512 + pos.offset) ^^^ (stack k.offset ^^^ s.keystreamByte k) := by
  obtain ⟨hcount, hdrive, hlo, hhi, hoff, rfl⟩ := h
  have hmod : ((pos.sector - r.lba.toNat) * 512 + pos.offset) % 64 = pos.offset % 64 := by omega
  rw [Encfs.writeSectors_disk hs hcount _ _ hoff, if_pos ⟨hdrive, hlo, hhi⟩]
  unfold Encfs.keystreamIndex Encfs.keystreamByte
  dsimp only
  rw [hmod]
  rfl

/-- Two sectors of one request, wherever they lie, reveal the XOR of their plaintexts. -/
theorem writeSectors_reveal (hs : s.encrypted = true ∧ s.mounted = true) {count : UInt32}
    (hcount : count ≤ 128) (drive : UInt8) (lba : UInt32) {a b j : Nat} (ha : a < count.toNat)
    (hb : b < count.toNat) (hj : j < 512) :
    let disk' := (s.encfsWriteSectors disk drive lba count stack buf).2.1
    disk' drive (lba.toNat + a) j ^^^ disk' drive (lba.toNat + b) j =
      buf (a * 512 + j) ^^^ buf (b * 512 + j) := by
  have hxor : ∀ x y m : UInt8, (x ^^^ m) ^^^ (y ^^^ m) = x ^^^ y := fun x y m => by
    rw [UInt8.xor_comm y m, UInt8.xor_assoc, ← UInt8.xor_assoc m m y, UInt8.xor_self,
      UInt8.zero_xor]
  dsimp only
  rw [Encfs.writeSectors_disk hs hcount _ _ hj, Encfs.writeSectors_disk hs hcount _ _ hj,
    if_pos ⟨rfl, by omega, by omega⟩, if_pos ⟨rfl, by omega, by omega⟩, hxor, Nat.add_sub_cancel_left,
    Nat.add_sub_cancel_left]

end

/-- **When no keystream byte is used twice**: when no sector is written at all. -/
theorem noReuse_iff (s : Encfs) (requests : List WriteRequest) :
    NoReuse s requests ↔ ∀ r ∈ requests, r.count = 0 ∨ 128 < r.count := by
  constructor
  · intro h r hr
    rcases Decidable.em (r.count ≤ 128) with hcount | hcount
    · refine Or.inl (Decidable.byContradiction fun hne => ?_)
      have hpos : 0 < r.count.toNat :=
        Nat.pos_of_ne_zero fun hz => hne (UInt32.toNat_inj.mp hz)
      -- the bytes 0 and 64 of the first sector
      refine h r hr r hr ⟨r.drive, r.lba.toNat, 0⟩ ⟨r.drive, r.lba.toNat, 64⟩ ?_
        (s.keystreamIndex r.lba 0) ⟨hcount, rfl, Nat.le_refl _, ?_, Nat.zero_lt_succ _, ?_⟩
        ⟨hcount, rfl, Nat.le_refl _, ?_, show 64 < 512 by decide, ?_⟩
      · intro heq
        cases congrArg DiskPos.offset heq
      · show r.lba.toNat < r.lba.toNat + r.count.toNat
        omega
      · simp [Encfs.keystreamIndex]
      · show r.lba.toNat < r.lba.toNat + r.count.toNat
        omega
      · simp [Encfs.keystreamIndex]
    · exact Or.inr (UInt32.not_le.mp hcount)
  · intro h r hr r' hr' pos pos' _ k huse
    rcases h r hr with hz | hbig
    · have hlo := huse.2.2.1
      have hhi := huse.2.2.2.1
      rw [hz] at hhi
      exact absurd hhi (Nat.not_lt.mpr hlo)
    · exact absurd huse.1 (UInt32.not_le.mpr hbig)

/-- The first sector of the disk, written with the byte 64 of it under the keystream of the byte 0. -/
theorem keystream_reused : (∃ k : KeystreamIndex, (⟨0, 0, 1⟩ : WriteRequest).Uses ⟨fun _ => 0, true, true⟩ ⟨0, 0, 0⟩ k ∧
      (⟨0, 0, 1⟩ : WriteRequest).Uses ⟨fun _ => 0, true, true⟩ ⟨0, 0, 64⟩ k) ∧
    ¬ ∀ (s : Encfs) (requests : List WriteRequest), NoReuse s requests := by
  have huse : ∃ k : KeystreamIndex,
      (⟨0, 0, 1⟩ : WriteRequest).Uses ⟨fun _ => 0, true, true⟩ ⟨0, 0, 0⟩ k ∧
        (⟨0, 0, 1⟩ : WriteRequest).Uses ⟨fun _ => 0, true, true⟩ ⟨0, 0, 64⟩ k :=
    ⟨_, ⟨by decide, rfl, by decide, by decide, by decide, rfl⟩,
      ⟨by decide, rfl, by decide, by decide, by decide, rfl⟩⟩
  refine ⟨huse, fun hall => ?_⟩
  obtain ⟨k, h0, h64⟩ := huse
  refine hall _ [⟨0, 0, 1⟩] ⟨0, 0, 1⟩ (List.mem_singleton.mpr rfl) ⟨0, 0, 1⟩
    (List.mem_singleton.mpr rfl) ⟨0, 0, 0⟩ ⟨0, 0, 64⟩ (fun heq => ?_) k h0 h64
  cases congrArg DiskPos.offset heq

/-! ## Histories -/

/-- A mounted volume on its disk, with the plaintext last written to each sector and the pad it was
written under. -/
structure EncRun where
  fs : Encfs
  disk : Disk
  written : UInt8 → Nat → Option ((Nat → UInt8) × (Nat → UInt8))

/-- The two requests; `stack` is what the request finds in its local buffers. -/
inductive EncCall where
  | read (drive : UInt8) (lba count : UInt32) (stack buf : Nat → UInt8)
  | write (drive : UInt8) (lba count : UInt32) (stack buf : Nat → UInt8)

/-- The number of sectors of a request. -/
def EncCall.count : EncCall → UInt32
  | .read _ _ count _ _ => count
  | .write _ _ count _ _ => count

namespace EncRun

/-- One request. -/
def next (s : EncRun) : EncCall → EncRun
  | .read .. => s
  | .write drive lba count stack buf =>
    { s with
      disk := (s.fs.encfsWriteSectors s.disk drive lba count stack buf).2.1
      written := fun d sector =>
        if count ≤ 128 ∧ d = drive ∧ lba.toNat ≤ sector ∧ sector < lba.toNat + count.toNat then
          some (fun j => buf ((sector - lba.toNat) * 512 + j), s.fs.pad lba stack)
        else s.written d sector }

/-- A read returns the plaintext most recently written to each of its sectors. -/
def ReturnsWritten (s : EncRun) : EncCall → Prop
  | .read drive lba count stack buf =>
    ∀ k, k < count.toNat → ∀ w, s.written drive (lba.toNat + k) = some w → ∀ j, j < 512 →
      (s.fs.encfsReadSectors s.disk drive lba count stack buf).1 (k * 512 + j) = w.1 j
  | .write .. => True

/-- The request writes nowhere but in its local buffers. -/
def InBounds (s : EncRun) : EncCall → Prop
  | .read drive lba count stack buf =>
    (s.fs.encfsReadSectors s.disk drive lba count stack buf).2 = false
  | .write drive lba count stack buf =>
    (s.fs.encfsWriteSectors s.disk drive lba count stack buf).2.2 = false

/-- Each sector a read returns was written under the reading request's pad. -/
def SamePad (s : EncRun) : EncCall → Prop
  | .read drive lba count stack _ =>
    ∀ k, k < count.toNat → ∀ w, s.written drive (lba.toNat + k) = some w → ∀ j, j < 64 →
      w.2 j = s.fs.pad lba stack j
  | .write .. => True

/-- What a history keeps: the volume stays mounted, and a sector holds its plaintext under its pad. -/
structure Inv (s : EncRun) : Prop where
  mounted : s.fs.encrypted = true ∧ s.fs.mounted = true
  masked : ∀ d sector w, s.written d sector = some w → ∀ j, j < 512 →
    s.disk d sector j = w.1 j ^^^ w.2 (j % 64)

section

variable {s : EncRun} {call : EncCall}

theorem Inv.next (h : Inv s) (hcount : call.count ≤ 128) : Inv (s.next call) := by
  cases call with
  | read => exact h
  | write drive lba count stack buf =>
    have hcount : count ≤ 128 := hcount
    refine ⟨h.mounted, fun d sector w hw j hj => ?_⟩
    show (s.fs.encfsWriteSectors s.disk drive lba count stack buf).2.1 d sector j = _
    rw [Encfs.writeSectors_disk h.mounted hcount d sector hj]
    simp only [EncRun.next, hcount, true_and] at hw
    by_cases hin : d = drive ∧ lba.toNat ≤ sector ∧ sector < lba.toNat + count.toNat
    · rw [if_pos hin] at hw ⊢
      rw [← Option.some.inj hw]
    · rw [if_neg hin] at hw ⊢
      exact h.masked d sector w hw j hj

theorem returnsWritten_iff (h : Inv s) (hcount : call.count ≤ 128) : s.ReturnsWritten call ↔ s.SamePad call := by
  cases call with
  | write => exact Iff.rfl
  | read drive lba count stack buf =>
    have hcount : count ≤ 128 := hcount
    refine forall_congr' fun k => imp_congr_right fun hk => forall_congr' fun w =>
      imp_congr_right fun hw => ?_
    -- masking twice is the identity exactly when the two masks agree
    have hbyte : ∀ j, j < 512 →
        ((s.fs.encfsReadSectors s.disk drive lba count stack buf).1 (k * 512 + j) = w.1 j ↔
          w.2 (j % 64) = s.fs.pad lba stack (j % 64)) := by
      intro j hj
      rw [Encfs.readSectors_byte h.mounted hcount hk hj, h.masked _ _ w hw j hj, UInt8.xor_assoc]
      constructor
      · intro heq
        have hzero := congrArg (w.1 j ^^^ ·) heq
        simp only [← UInt8.xor_assoc, UInt8.xor_self, UInt8.zero_xor] at hzero
        exact UInt8.xor_eq_zero_iff.mp hzero
      · intro heq
        rw [heq, UInt8.xor_self, UInt8.xor_zero]
    constructor
    · intro hall j hj
      have hj' := (hbyte j (by omega)).mp (hall j (by omega))
      rwa [Nat.mod_eq_of_lt hj] at hj'
    · exact fun hall j hj => (hbyte j hj).mpr (hall (j % 64) (Nat.mod_lt _ (by decide)))

theorem inBounds_iff (h : Inv s) (hcount : call.count ≤ 128) : s.InBounds call ↔ call.count = 0 := by
  cases call with
  | read drive lba count stack buf =>
    have hover : (s.fs.encfsReadSectors s.disk drive lba count stack buf).2 = decide (count ≠ 0) :=
      Encfs.readSectors_overrun h.mounted hcount
    show (s.fs.encfsReadSectors s.disk drive lba count stack buf).2 = false ↔ count = 0
    rw [hover]
    exact (decide_eq_false_iff_not).trans Decidable.not_not
  | write drive lba count stack buf =>
    have hover : (s.fs.encfsWriteSectors s.disk drive lba count stack buf).2.2 = decide (count ≠ 0) :=
      Encfs.writeSectors_overrun h.mounted hcount
    show (s.fs.encfsWriteSectors s.disk drive lba count stack buf).2.2 = false ↔ count = 0
    rw [hover]
    exact (decide_eq_false_iff_not).trans Decidable.not_not

end

/-- A mounted volume nothing has been written to yet. -/
def start (fs : Encfs) (disk : Disk) : EncRun := { fs := fs, disk := disk, written := fun _ _ => none }

theorem inv_start {fs : Encfs} (hmounted : fs.encrypted = true ∧ fs.mounted = true) (disk : Disk) :
    Inv (start fs disk) := ⟨hmounted, fun d sector w hw => by cases hw⟩

/-- The volume keeps its promise in a step: a read is right, and no local buffer is left. -/
def Sound (s : EncRun) (call : EncCall) : Prop := s.ReturnsWritten call ∧ s.InBounds call

/-- **Which histories are right.** Every read returns what was written last and no request leaves its
buffers exactly in the histories that move no sector. Leaving the overruns aside, every read returns what
was written last exactly when its sectors were written under its own pad. -/
theorem encfsRuns_iff (fs : Encfs) (disk : Disk) (hmounted : fs.encrypted = true ∧ fs.mounted = true)
    {tr : List (EncCall × EncRun)} (htr : Trace (fun s call t => t = s.next call) (start fs disk) tr)
    (hcount : Guarded (fun _ call => call.count ≤ 128) (start fs disk) tr) :
    (AllSteps (fun s call _ => s.Sound call) (start fs disk) tr ↔
      Guarded (fun _ call => call.count = 0) (start fs disk) tr) ∧
    (AllSteps (fun s call _ => s.ReturnsWritten call) (start fs disk) tr ↔
      Guarded (fun s call => s.SamePad call) (start fs disk) tr) := by
  have hstart := inv_start hmounted disk
  revert hcount hstart
  generalize start fs disk = s at htr ⊢
  intro hcount hstart
  induction htr with
  | nil s => exact ⟨Iff.rfl, Iff.rfl⟩
  | @cons s t call tr hst htr ih =>
    obtain ⟨hc, hrest⟩ := hcount
    obtain rfl := hst
    obtain ⟨ihsound, ihpad⟩ := ih hrest (hstart.next hc)
    refine ⟨and_congr ?_ ihsound, and_congr (returnsWritten_iff hstart hc) ihpad⟩
    refine ⟨fun h => (inBounds_iff hstart hc).mp h.2, fun h => ⟨?_, (inBounds_iff hstart hc).mpr h⟩⟩
    -- without a sector there is nothing to return
    cases call with
    | write => trivial
    | read drive lba count stack buf =>
      intro k hk
      have hz : count = 0 := h
      rw [hz] at hk
      exact absurd hk (Nat.not_lt_zero k)

/-- A mounted volume with the zero key. -/
def zeroVolume : Encfs := { volumeKey := fun _ => 0, mounted := true, encrypted := true }

/-- Its two first sectors are written together, from stack bytes that are zero. -/
def writeTwo : EncCall := .write 0 0 2 (fun _ => 0) fun _ => 0

/-- The second of them is read by itself. -/
def readSecond : EncCall := .read 0 1 1 (fun _ => 0) fun _ => 0

/-- The first byte of the pad of sector 0. -/
def firstPadByte : { b : UInt8 // zeroVolume.pad 0 (fun _ => 0) 0 = b } := ⟨118, by decide +kernel⟩

/-- The first byte of the pad of sector 1. -/
def secondPadByte : { b : UInt8 // zeroVolume.pad 1 (fun _ => 0) 0 = b } := ⟨222, by decide +kernel⟩

/-- What the read returns is not what was written, and the write left its local buffers. -/
theorem regrouped_read_garbled : ¬ ((start zeroVolume fun _ _ _ => 0).next writeTwo).ReturnsWritten readSecond ∧
      ¬ (start zeroVolume fun _ _ _ => 0).InBounds writeTwo ∧
      ¬ ∀ (fs : Encfs) (disk : Disk) (calls : List EncCall), fs.encrypted = true ∧ fs.mounted = true →
        (∀ call ∈ calls, call.count ≤ 128) →
        AllSteps (fun s call _ => s.Sound call) (start fs disk) (traceOf next (start fs disk) calls) := by
  have hmounted : zeroVolume.encrypted = true ∧ zeroVolume.mounted = true := ⟨rfl, rfl⟩
  have hinv := inv_start hmounted fun _ _ _ => 0
  have hbounds : ¬ (start zeroVolume fun _ _ _ => 0).InBounds writeTwo := by
    rw [inBounds_iff hinv (by decide)]
    decide
  refine ⟨fun hreturns => ?_, hbounds, fun hall => ?_⟩
  · have hwritten : writeTwo.count ≤ 128 := by decide
    have hpad := (returnsWritten_iff (hinv.next hwritten) (by decide)).mp hreturns
    have hbyte : zeroVolume.pad 0 (fun _ => 0) 0 = zeroVolume.pad 1 (fun _ => 0) 0 :=
      hpad 0 (by decide) (fun j => 0, zeroVolume.pad 0 fun _ => 0) rfl 0 (by decide)
    rw [firstPadByte.property, secondPadByte.property] at hbyte
    exact absurd hbyte (by decide)
  · have h := hall zeroVolume (fun _ _ _ => 0) [writeTwo] hmounted fun call hcall => by
      rw [List.mem_singleton.mp hcall]
      decide
    exact hbounds h.1.2

/-- One sector written and read back with its first sector: the history is right but for the overruns. -/
theorem zeroVolume_runs : (AllSteps (fun s call _ => s.Sound call) (start zeroVolume fun _ _ _ => 0)
        (traceOf next (start zeroVolume fun _ _ _ => 0)
          [.write 0 7 1 (fun _ => 0) fun _ => 5, .read 0 7 1 (fun _ => 0) fun _ => 0]) ↔
      Guarded (fun _ call => call.count = 0) (start zeroVolume fun _ _ _ => 0)
        (traceOf next (start zeroVolume fun _ _ _ => 0)
          [.write 0 7 1 (fun _ => 0) fun _ => 5, .read 0 7 1 (fun _ => 0) fun _ => 0])) ∧
    (AllSteps (fun s call _ => s.ReturnsWritten call) (start zeroVolume fun _ _ _ => 0)
        (traceOf next (start zeroVolume fun _ _ _ => 0)
          [.write 0 7 1 (fun _ => 0) fun _ => 5, .read 0 7 1 (fun _ => 0) fun _ => 0]) ↔
      Guarded (fun s call => s.SamePad call) (start zeroVolume fun _ _ _ => 0)
        (traceOf next (start zeroVolume fun _ _ _ => 0)
          [.write 0 7 1 (fun _ => 0) fun _ => 5, .read 0 7 1 (fun _ => 0) fun _ => 0])) :=
  encfsRuns_iff zeroVolume (fun _ _ _ => 0) ⟨rfl, rfl⟩ (trace_traceOf next _ _)
    ⟨show (1 : UInt32) ≤ 128 by decide, show (1 : UInt32) ≤ 128 by decide, trivial⟩

end EncRun

end Chicago95.Stage2
