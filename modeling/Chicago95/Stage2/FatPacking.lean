/-
# Chicago95.Stage2.FatPacking — the entries of a FAT sector, of `stage2/fs/brainfs_fat.c`.

Nine widths, each with a pair of functions of its own. All of them pack their entries as `Lib.PackedFields` has
it: entry `i` of width `w` is the window of bits `[w * i, w * i + w)` of the sector, of which a width of 32
uses 28 and a width of 128 uses 64 (`packs_entry`). The entries of the narrow widths lie inside a byte
(`packs_narrow`), those of the wide ones are bytes in a row (`packs_wide`), and those of 12 bits take turns at
the half of a byte (`packs_fat12`).
-/
import Chicago95.Lib.Loop
import Chicago95.Lib.PackedFields

namespace Chicago95.Stage2

open Chicago95.Lib.Loop Chicago95.Lib.PackedFields

/-- `uint8_t sector[512]` -/
abbrev Sector := Vector UInt8 512

namespace Sector

/-- `sector[i]`, widened. -/
def readAt (s : Sector) (i : Nat) : Option (BitVec 64) := (s[i]?).map fun b => b.toBitVec.setWidth 64

/-- `sector[i] = v;` -/
def writeAt (s : Sector) (i : Nat) (v : BitVec 64) : Option Sector :=
  if i < 512 then some (s.setIfInBounds i (UInt8.ofBitVec (v.setWidth 8))) else none

end Sector

/-! ## The widths -/

/-- `brainfs_fat1_get` -/
def fat1Get (s : Sector) (cluster : Nat) : Option (BitVec 64) := do
  let b ← s.readAt (cluster / 8)
  some (b >>> (cluster % 8) &&& 1#64)

/-- `brainfs_fat1_set` -/
def fat1Set (s : Sector) (cluster : Nat) (value : BitVec 64) : Option Sector := do
  let b ← s.readAt (cluster / 8)
  if value &&& 1#64 ≠ 0 then s.writeAt (cluster / 8) (b ||| 1#64 <<< (cluster % 8))
  else s.writeAt (cluster / 8) (b &&& ~~~(1#64 <<< (cluster % 8)))

/-- `brainfs_fat2_get` -/
def fat2Get (s : Sector) (cluster : Nat) : Option (BitVec 64) := do
  let b ← s.readAt (cluster / 4)
  some (b >>> (cluster % 4 * 2) &&& 3#64)

/-- `brainfs_fat2_set` -/
def fat2Set (s : Sector) (cluster : Nat) (value : BitVec 64) : Option Sector := do
  let b ← s.readAt (cluster / 4)
  s.writeAt (cluster / 4) (b &&& ~~~(3#64 <<< (cluster % 4 * 2)) ||| (value &&& 3#64) <<< (cluster % 4 * 2))

/-- `brainfs_fat4_get` -/
def fat4Get (s : Sector) (cluster : Nat) : Option (BitVec 64) := do
  let b ← s.readAt (cluster / 2)
  if cluster % 2 = 0 then some (b &&& 0x0F#64) else some (b >>> 4 &&& 0x0F#64)

/-- `brainfs_fat4_set` -/
def fat4Set (s : Sector) (cluster : Nat) (value : BitVec 64) : Option Sector := do
  let b ← s.readAt (cluster / 2)
  if cluster % 2 = 0 then s.writeAt (cluster / 2) (b &&& 0xF0#64 ||| value &&& 0x0F#64)
  else s.writeAt (cluster / 2) (b &&& 0x0F#64 ||| (value &&& 0x0F#64) <<< 4)

/-- `brainfs_fat8_get` -/
def fat8Get (s : Sector) (cluster : Nat) : Option (BitVec 64) := s.readAt cluster

/-- `brainfs_fat8_set` -/
def fat8Set (s : Sector) (cluster : Nat) (value : BitVec 64) : Option Sector := s.writeAt cluster (value &&& 0xFF#64)

/-- `byte_idx` of `brainfs_fat12_get` and `brainfs_fat12_set`: `cluster * 1.5`. -/
def fat12Byte (cluster : Nat) : Nat := (cluster + cluster / 2) % 2 ^ 32

/-- `brainfs_fat12_get` -/
def fat12Get (s : Sector) (cluster : Nat) : Option (BitVec 64) := do
  let b₀ ← s.readAt (fat12Byte cluster)
  let b₁ ← s.readAt (fat12Byte cluster + 1)
  let val := if cluster % 2 = 1 then b₀ >>> 4 ||| b₁ <<< 4 else b₀ ||| (b₁ &&& 0x0F#64) <<< 8
  some (val &&& 0xFFF#64)

/-- `brainfs_fat12_set` -/
def fat12Set (s : Sector) (cluster : Nat) (value : BitVec 64) : Option Sector := do
  let val := value &&& 0xFFF#64
  if cluster % 2 = 1 then
    let b ← s.readAt (fat12Byte cluster)
    let s ← s.writeAt (fat12Byte cluster) (b &&& 0x0F#64 ||| (val &&& 0x0F#64) <<< 4)
    s.writeAt (fat12Byte cluster + 1) (val >>> 4 &&& 0xFF#64)
  else
    let s ← s.writeAt (fat12Byte cluster) (val &&& 0xFF#64)
    let b ← s.readAt (fat12Byte cluster + 1)
    s.writeAt (fat12Byte cluster + 1) (b &&& 0xF0#64 ||| val >>> 8 &&& 0x0F#64)

/-- `brainfs_fat16_get` -/
def fat16Get (s : Sector) (cluster : Nat) : Option (BitVec 64) := do
  let byteIdx := cluster * 2 % 2 ^ 32
  let b₀ ← s.readAt byteIdx
  let b₁ ← s.readAt (byteIdx + 1)
  some (b₀ ||| b₁ <<< 8)

/-- `brainfs_fat16_set` -/
def fat16Set (s : Sector) (cluster : Nat) (value : BitVec 64) : Option Sector := do
  let byteIdx := cluster * 2 % 2 ^ 32
  let s ← s.writeAt byteIdx (value &&& 0xFF#64)
  s.writeAt (byteIdx + 1) (value >>> 8 &&& 0xFF#64)

/-- `brainfs_fat32_get` -/
def fat32Get (s : Sector) (cluster : Nat) : Option (BitVec 64) := do
  let byteIdx := cluster * 4 % 2 ^ 32
  let b₀ ← s.readAt byteIdx
  let b₁ ← s.readAt (byteIdx + 1)
  let b₂ ← s.readAt (byteIdx + 2)
  let b₃ ← s.readAt (byteIdx + 3)
  some ((b₀ ||| b₁ <<< 8 ||| b₂ <<< 16 ||| b₃ <<< 24) &&& 0x0FFFFFFF#64)

/-- `brainfs_fat32_set` -/
def fat32Set (s : Sector) (cluster : Nat) (value : BitVec 64) : Option Sector := do
  let byteIdx := cluster * 4 % 2 ^ 32
  let v := value &&& 0x0FFFFFFF#64
  let s ← s.writeAt byteIdx (v &&& 0xFF#64)
  let s ← s.writeAt (byteIdx + 1) (v >>> 8 &&& 0xFF#64)
  let s ← s.writeAt (byteIdx + 2) (v >>> 16 &&& 0xFF#64)
  s.writeAt (byteIdx + 3) (v >>> 24 &&& 0xFF#64)

/-- `val |= ((uint64_t)sector[byte_idx + i]) << (i * 8);` for the `n` bytes from `byteIdx` on. -/
def readBytes (s : Sector) (byteIdx n : Nat) : Option (BitVec 64) :=
  forEachM n (fun i val => do
    let b ← s.readAt (byteIdx + i)
    some (val ||| b <<< (i * 8))) 0

/-- `sector[byte_idx + i] = (value >> (i * 8)) & 0xFF;` for the `n` bytes from `byteIdx` on. -/
def writeBytes (s : Sector) (byteIdx n : Nat) (value : BitVec 64) : Option Sector :=
  forEachM n (fun i s => s.writeAt (byteIdx + i) (value >>> (i * 8) &&& 0xFF#64)) s

/-- `brainfs_fat64_get` -/
def fat64Get (s : Sector) (cluster : Nat) : Option (BitVec 64) := readBytes s (cluster * 8 % 2 ^ 32) 8

/-- `brainfs_fat64_set` -/
def fat64Set (s : Sector) (cluster : Nat) (value : BitVec 64) : Option Sector :=
  writeBytes s (cluster * 8 % 2 ^ 32) 8 value

/-- `brainfs_fat128_get` -/
def fat128Get (s : Sector) (cluster : Nat) : Option (BitVec 64) := readBytes s (cluster * 16 % 2 ^ 32) 8

/-- `brainfs_fat128_set` -/
def fat128Set (s : Sector) (cluster : Nat) (value : BitVec 64) : Option Sector := do
  let byteIdx := cluster * 16 % 2 ^ 32
  let s ← writeBytes s byteIdx 8 value
  forEachM 8 (fun i s => s.writeAt (byteIdx + (i + 8)) 0) s

/-- `brainfs_fat_entries_per_sector` -/
def fatEntriesPerSector (width : Nat) : Nat :=
  match width with
  | 1 => 512 * 8
  | 2 => 512 * 4
  | 4 => 512 * 2
  | 8 => 512
  | 12 => 512 * 2 / 3
  | 16 => 512 / 2
  | 32 => 512 / 4
  | 64 => 512 / 8
  | 128 => 512 / 16
  | _ => 256

/-- `brainfs_fat_get_entry` -/
def fatGetEntry (width : Nat) (s : Sector) (cluster : Nat) : Option (BitVec 64) :=
  match width with
  | 1 => fat1Get s cluster
  | 2 => fat2Get s cluster
  | 4 => fat4Get s cluster
  | 8 => fat8Get s cluster
  | 12 => fat12Get s cluster
  | 16 => fat16Get s cluster
  | 32 => fat32Get s cluster
  | 64 => fat64Get s cluster
  | 128 => fat128Get s cluster
  | _ => some 0

/-- `brainfs_fat_set_entry` -/
def fatSetEntry (width : Nat) (s : Sector) (cluster : Nat) (value : BitVec 64) : Option Sector :=
  match width with
  | 1 => fat1Set s cluster value
  | 2 => fat2Set s cluster value
  | 4 => fat4Set s cluster value
  | 8 => fat8Set s cluster value
  | 12 => fat12Set s cluster value
  | 16 => fat16Set s cluster value
  | 32 => fat32Set s cluster value
  | 64 => fat64Set s cluster value
  | 128 => fat128Set s cluster value
  | _ => some s

/-! ## The bits of a sector -/

namespace Sector

/-- Bit `n` of the sector. -/
def bit (s : Sector) (n : Nat) : Bool := (s.toList.getD (n / 8) 0).toBitVec.getLsbD (n % 8)

theorem readAt_spec (s : Sector) {i : Nat} (hi : i < 512) :
    ∃ b, s.readAt i = some b ∧ ∀ k, b.getLsbD k = (decide (k < 8) && s.bit (8 * i + k)) := by
  refine ⟨s[i].toBitVec.setWidth 64, ?_, fun k => ?_⟩
  · unfold readAt
    rw [Vector.getElem?_eq_getElem hi, Option.map_some]
  · unfold bit
    by_cases hk : k < 8
    · have hdiv : (8 * i + k) / 8 = i := by omega
      have hmod : (8 * i + k) % 8 = k := by omega
      rw [hdiv, hmod, List.getD_eq_getElem?_getD, Vector.getElem?_toList, Vector.getElem?_eq_getElem hi,
        BitVec.getLsbD_setWidth]
      simp [hk, show k < 64 by omega]
    · rw [BitVec.getLsbD_setWidth, BitVec.getLsbD_of_ge _ k (by omega)]
      simp [hk]

theorem writeAt_spec (s : Sector) {i : Nat} (hi : i < 512) (v : BitVec 64) : ∃ s' : Sector, s.writeAt i v = some s' ∧
      ∀ n, n < 4096 → s'.bit n = if n / 8 = i then v.getLsbD (n % 8) else s.bit n := by
  refine ⟨_, if_pos hi, fun n hn => ?_⟩
  have hn' : n / 8 < 512 := by omega
  unfold bit
  rw [List.getD_eq_getElem?_getD, List.getD_eq_getElem?_getD, Vector.getElem?_toList, Vector.getElem?_toList,
    Vector.getElem?_setIfInBounds]
  by_cases hin : n / 8 = i
  · rw [if_pos hin, if_pos hin.symm, if_pos hi, Option.getD_some, UInt8.toBitVec_ofBitVec, BitVec.getLsbD_setWidth]
    simp [show n % 8 < 8 by omega]
  · rw [if_neg hin, if_neg (Ne.symm hin)]

end Sector

theorem getLsbD_mask (p : Nat) (hp : p ≤ 64) {m : BitVec 64} (hm : m = BitVec.ofNat 64 (2 ^ p - 1)) (k : Nat) :
    m.getLsbD k = decide (k < p) := by
  rw [hm, BitVec.getLsbD_ofNat, Nat.testBit_two_pow_sub_one]
  by_cases hk : k < p
  · simp [hk, show k < 64 by omega]
  · simp [hk]

section Masks

variable (k : Nat)

@[simp] theorem getLsbD_0x1 : (0x1#64).getLsbD k = decide (k < 1) := getLsbD_mask 1 (by decide) rfl k
@[simp] theorem getLsbD_0x3 : (0x3#64).getLsbD k = decide (k < 2) := getLsbD_mask 2 (by decide) rfl k
@[simp] theorem getLsbD_0xF : (0xF#64).getLsbD k = decide (k < 4) := getLsbD_mask 4 (by decide) rfl k
@[simp] theorem getLsbD_0xFF : (0xFF#64).getLsbD k = decide (k < 8) := getLsbD_mask 8 (by decide) rfl k
@[simp] theorem getLsbD_0xFFF : (0xFFF#64).getLsbD k = decide (k < 12) := getLsbD_mask 12 (by decide) rfl k
@[simp] theorem getLsbD_0x0FFFFFFF : (0x0FFFFFFF#64).getLsbD k = decide (k < 28) := getLsbD_mask 28 (by decide) rfl k

@[simp] theorem getLsbD_0xF0 : (0xF0#64).getLsbD k = (decide (4 ≤ k) && decide (k < 8)) := by
  rw [show (0xF0#64) = 0xF#64 <<< 4 from rfl, BitVec.getLsbD_shiftLeft, getLsbD_0xF]
  grind

end Masks

/-! ## Entries inside a byte -/

theorem narrow_fits {w i : Nat} (hw : w = 1 ∨ w = 2 ∨ w = 4 ∨ w = 8) (hi : i < 4096 / w) :
    w * i + w ≤ 4096 ∧ w * i % 8 + w ≤ 8 := by
  rcases hw with rfl | rfl | rfl | rfl <;> omega

theorem packs_narrow {w : Nat} (hw : w = 1 ∨ w = 2 ∨ w = 4 ∨ w = 8) {get : Sector → Nat → Option (BitVec 64)}
    {set : Sector → Nat → BitVec 64 → Option Sector}
    (hget : ∀ s i b, s.readAt (w * i / 8) = some b → (∀ k, 8 ≤ k → b.getLsbD k = false) →
      ∃ x, get s i = some x ∧ ∀ k, x.getLsbD k = (decide (k < w) && b.getLsbD (w * i % 8 + k)))
    (hset : ∀ s i v b, s.readAt (w * i / 8) = some b → ∃ y, set s i v = s.writeAt (w * i / 8) y ∧
      ∀ k, k < 8 → y.getLsbD k =
        if w * i % 8 ≤ k ∧ k < w * i % 8 + w then v.getLsbD (k - w * i % 8) else b.getLsbD k) :
    Packs Sector.bit 4096 w w (4096 / w) get set where
  payload_le := Nat.le_refl w
  fits := Nat.mul_div_le 4096 w
  get_spec s i hi := by
    obtain ⟨hlt, hin⟩ := narrow_fits hw hi
    obtain ⟨b, hread, hb⟩ := s.readAt_spec (show w * i / 8 < 512 by omega)
    obtain ⟨x, hx, hbits⟩ := hget s i b hread fun k hk => by simp [hb, show ¬ k < 8 by omega]
    refine ⟨x, hx, fun k => ?_⟩
    rw [hbits, hb]
    by_cases hk : k < w
    · have hpos : 8 * (w * i / 8) + (w * i % 8 + k) = w * i + k := by omega
      rw [hpos]
      simp [hk, show w * i % 8 + k < 8 by omega, show k < 64 by omega]
    · simp [hk]
  set_spec s i v hi := by
    obtain ⟨hlt, hin⟩ := narrow_fits hw hi
    obtain ⟨b, hread, hb⟩ := s.readAt_spec (show w * i / 8 < 512 by omega)
    obtain ⟨y, hy, hbits⟩ := hset s i v b hread
    obtain ⟨s', hwrite, hs'⟩ := s.writeAt_spec (show w * i / 8 < 512 by omega) y
    refine ⟨s', hy.trans hwrite, fun n hn => ?_⟩
    rw [hs' n hn]
    by_cases hbyte : n / 8 = w * i / 8
    -- in the byte, the window is that of the entry
    · rw [if_pos hbyte, hbits _ (Nat.mod_lt n (by decide))]
      by_cases hwin : w * i ≤ n ∧ n < w * i + w
      · have hpos : n % 8 - w * i % 8 = n - w * i := by omega
        rw [if_pos hwin, if_pos (by omega), hpos]
        simp [show n - w * i < w by omega]
      · have hpos : 8 * (w * i / 8) + n % 8 = n := by omega
        rw [if_neg hwin, if_neg (by omega), hb, hpos]
        simp [show n % 8 < 8 by omega]
    · rw [if_neg hbyte, if_neg (by omega)]

theorem packs_fat1 : Packs Sector.bit 4096 1 1 4096 fat1Get fat1Set := by
  refine packs_narrow (Or.inl rfl) (fun s i b hread _ => ?_) fun s i v b hread => ?_
  · rw [Nat.one_mul] at hread ⊢
    refine ⟨b >>> (i % 8) &&& 1#64, ?_, fun k => ?_⟩
    · unfold fat1Get
      rw [hread, Option.bind_eq_bind, Option.bind_some]
    · simp only [BitVec.getLsbD_and, BitVec.getLsbD_ushiftRight, getLsbD_0x1]
      grind
  · rw [Nat.one_mul] at hread ⊢
    have hbit : v &&& 1#64 ≠ 0 ↔ v.getLsbD 0 = true := by
      rw [BitVec.and_one_eq_setWidth_ofBool_getLsbD]
      cases v.getLsbD 0 <;> decide
    by_cases hv : v &&& 1#64 ≠ 0
    · refine ⟨b ||| 1#64 <<< (i % 8), ?_, fun k hk => ?_⟩
      · unfold fat1Set
        rw [hread, Option.bind_eq_bind, Option.bind_some, if_pos hv]
      · rw [hbit] at hv
        simp only [BitVec.getLsbD_or, BitVec.getLsbD_shiftLeft, getLsbD_0x1]
        grind
    · refine ⟨b &&& ~~~(1#64 <<< (i % 8)), ?_, fun k hk => ?_⟩
      · unfold fat1Set
        rw [hread, Option.bind_eq_bind, Option.bind_some, if_neg hv]
      · rw [hbit] at hv
        simp only [BitVec.getLsbD_and, BitVec.getLsbD_not, BitVec.getLsbD_shiftLeft, getLsbD_0x1]
        grind

theorem packs_fat2 : Packs Sector.bit 4096 2 2 2048 fat2Get fat2Set := by
  have hbyte : ∀ i, 2 * i / 8 = i / 4 := fun i => by omega
  have hbit : ∀ i, 2 * i % 8 = i % 4 * 2 := fun i => by omega
  refine packs_narrow (Or.inr (Or.inl rfl)) (fun s i b hread _ => ?_) fun s i v b hread => ?_
  · rw [hbyte] at hread
    refine ⟨b >>> (i % 4 * 2) &&& 3#64, ?_, fun k => ?_⟩
    · unfold fat2Get
      rw [hread, Option.bind_eq_bind, Option.bind_some]
    · simp only [hbit, BitVec.getLsbD_and, BitVec.getLsbD_ushiftRight, getLsbD_0x3]
      grind
  · rw [hbyte] at hread ⊢
    refine ⟨b &&& ~~~(3#64 <<< (i % 4 * 2)) ||| (v &&& 3#64) <<< (i % 4 * 2), ?_, fun k hk => ?_⟩
    · unfold fat2Set
      rw [hread, Option.bind_eq_bind, Option.bind_some]
    · simp only [hbit, BitVec.getLsbD_or, BitVec.getLsbD_and, BitVec.getLsbD_not,
        BitVec.getLsbD_shiftLeft, getLsbD_0x3]
      grind

theorem packs_fat4 : Packs Sector.bit 4096 4 4 1024 fat4Get fat4Set := by
  have hbyte : ∀ i, 4 * i / 8 = i / 2 := fun i => by omega
  refine packs_narrow (Or.inr (Or.inr (Or.inl rfl))) (fun s i b hread _ => ?_) fun s i v b hread => ?_
  · rw [hbyte] at hread
    by_cases hi : i % 2 = 0
    · refine ⟨b &&& 0x0F#64, ?_, fun k => ?_⟩
      · unfold fat4Get
        rw [hread, Option.bind_eq_bind, Option.bind_some, if_pos hi]
      · simp only [BitVec.getLsbD_and, getLsbD_0xF]
        grind
    · refine ⟨b >>> 4 &&& 0x0F#64, ?_, fun k => ?_⟩
      · unfold fat4Get
        rw [hread, Option.bind_eq_bind, Option.bind_some, if_neg hi]
      · simp only [BitVec.getLsbD_and, BitVec.getLsbD_ushiftRight, getLsbD_0xF]
        grind
  · rw [hbyte] at hread ⊢
    by_cases hi : i % 2 = 0
    · refine ⟨b &&& 0xF0#64 ||| v &&& 0x0F#64, ?_, fun k hk => ?_⟩
      · unfold fat4Set
        rw [hread, Option.bind_eq_bind, Option.bind_some, if_pos hi]
      · simp only [BitVec.getLsbD_or, BitVec.getLsbD_and, getLsbD_0xF, getLsbD_0xF0]
        grind
    · refine ⟨b &&& 0x0F#64 ||| (v &&& 0x0F#64) <<< 4, ?_, fun k hk => ?_⟩
      · unfold fat4Set
        rw [hread, Option.bind_eq_bind, Option.bind_some, if_neg hi]
      · simp only [BitVec.getLsbD_or, BitVec.getLsbD_and, BitVec.getLsbD_shiftLeft, getLsbD_0xF]
        grind

theorem packs_fat8 : Packs Sector.bit 4096 8 8 512 fat8Get fat8Set := by
  refine packs_narrow (Or.inr (Or.inr (Or.inr rfl))) (fun s i b hread hb => ?_) fun s i v b hread => ?_
  · rw [show 8 * i / 8 = i by omega] at hread
    refine ⟨b, hread, fun k => ?_⟩
    grind
  · rw [show 8 * i / 8 = i by omega]
    refine ⟨v &&& 0xFF#64, rfl, fun k hk => ?_⟩
    simp only [BitVec.getLsbD_and, getLsbD_0xFF]
    grind

/-! ## Entries of bytes in a row -/

namespace Sector

theorem readBytes_spec (s : Sector) {pos n : Nat} (hn : n ≤ 8) (hfit : pos + n ≤ 512) :
    ∃ x, readBytes s pos n = some x ∧ ∀ k, x.getLsbD k = (decide (k < 8 * n) && s.bit (8 * pos + k)) := by
  refine forEachM_induction (P := fun i (x : BitVec 64) => ∀ k, x.getLsbD k = (decide (k < 8 * i) && s.bit (8 * pos + k)))
    (fun k => by simp) fun i x hi hx => ?_
  obtain ⟨b, hread, hb⟩ := s.readAt_spec (show pos + i < 512 by omega)
  refine ⟨x ||| b <<< (i * 8), ?_, fun k => ?_⟩
  · rw [hread, Option.bind_eq_bind, Option.bind_some]
  · rw [BitVec.getLsbD_or, BitVec.getLsbD_shiftLeft, hx, hb]
    rcases Nat.lt_or_ge k (i * 8) with hk | hk
    · simp [hk, show k < 8 * i by omega, show k < 8 * (i + 1) by omega]
    · have hpos : 8 * (pos + i) + (k - i * 8) = 8 * pos + k := by omega
      rw [hpos]
      grind

theorem writeBytes_spec (s : Sector) {pos n : Nat} (hfit : pos + n ≤ 512) (v : BitVec 64) :
    ∃ s' : Sector, writeBytes s pos n v = some s' ∧ ∀ m, m < 4096 →
      s'.bit m = if 8 * pos ≤ m ∧ m < 8 * pos + 8 * n then v.getLsbD (m - 8 * pos) else s.bit m := by
  refine forEachM_induction (P := fun i (t : Sector) => ∀ m, m < 4096 →
    t.bit m = if 8 * pos ≤ m ∧ m < 8 * pos + 8 * i then v.getLsbD (m - 8 * pos) else s.bit m)
    (fun m _ => by rw [if_neg (by omega)]) fun i t hi ht => ?_
  obtain ⟨t', hwrite, ht'⟩ := t.writeAt_spec (show pos + i < 512 by omega) (v >>> (i * 8) &&& 0xFF#64)
  refine ⟨t', hwrite, fun m hm => ?_⟩
  rw [ht' m hm, ht m hm, BitVec.getLsbD_and, BitVec.getLsbD_ushiftRight, getLsbD_0xFF]
  by_cases hbyte : m / 8 = pos + i
  · have hbit : i * 8 + m % 8 = m - 8 * pos := by omega
    rw [if_pos hbyte, if_pos (by omega), hbit]
    simp [Nat.mod_lt m (show 0 < 8 by decide)]
  · rw [if_neg hbyte]
    exact if_congr (by omega) rfl rfl

end Sector

theorem packs_wide {size payload count : Nat} (hpay : payload ≤ 8 * size ∧ payload ≤ 64) (hcount : size * count ≤ 512)
    {get : Sector → Nat → Option (BitVec 64)} {set : Sector → Nat → BitVec 64 → Option Sector}
    (hget : ∀ s i, size * i + size ≤ 512 → ∃ x, get s i = some x ∧
      ∀ k, x.getLsbD k = (decide (k < payload) && s.bit (8 * (size * i) + k)))
    (hset : ∀ s i v, size * i + size ≤ 512 → ∃ s', set s i v = some s' ∧ ∀ m, m < 4096 →
      s'.bit m = if 8 * (size * i) ≤ m ∧ m < 8 * (size * i) + 8 * size
        then decide (m - 8 * (size * i) < payload) && v.getLsbD (m - 8 * (size * i)) else s.bit m) :
    Packs Sector.bit 4096 (8 * size) payload count get set := by
  have hfit : ∀ i, i < count → size * i + size ≤ 512 := fun i hi => by
    have := Nat.mul_le_mul_left size (Nat.succ_le_of_lt hi)
    rw [Nat.mul_succ] at this
    omega
  refine ⟨hpay.1, ?_, fun s i hi => ?_, fun s i v hi => ?_⟩
  · rw [Nat.mul_assoc]
    omega
  · obtain ⟨x, hx, hbits⟩ := hget s i (hfit i hi)
    refine ⟨x, hx, fun k => ?_⟩
    rw [hbits, Nat.mul_assoc]
    by_cases hk : k < payload
    · simp [hk, show k < 64 by omega]
    · simp [hk]
  · obtain ⟨s', hs', hbits⟩ := hset s i v (hfit i hi)
    refine ⟨s', hs', fun m hm => ?_⟩
    rw [hbits m hm, Nat.mul_assoc]

theorem fat16Get_eq (s : Sector) (cluster : Nat) : fat16Get s cluster = readBytes s (cluster * 2 % 2 ^ 32) 2 := by
  simp [fat16Get, readBytes, forEachM, forEach, List.range_succ]

theorem fat16Set_eq (s : Sector) (cluster : Nat) (v : BitVec 64) :
    fat16Set s cluster v = writeBytes s (cluster * 2 % 2 ^ 32) 2 v := by
  simp [fat16Set, writeBytes, forEachM, forEach, List.range_succ]

theorem fat32Get_eq (s : Sector) (cluster : Nat) :
    fat32Get s cluster = (readBytes s (cluster * 4 % 2 ^ 32) 4).map (· &&& 0x0FFFFFFF#64) := by
  simp [fat32Get, readBytes, forEachM, forEach, List.range_succ, Option.bind_assoc, Option.map_bind, Function.comp_def]

theorem fat32Set_eq (s : Sector) (cluster : Nat) (v : BitVec 64) :
    fat32Set s cluster v = writeBytes s (cluster * 4 % 2 ^ 32) 4 (v &&& 0x0FFFFFFF#64) := by
  simp [fat32Set, writeBytes, forEachM, forEach, List.range_succ, Option.bind_assoc]

theorem zeroBytes_eq (s : Sector) (pos : Nat) :
    forEachM 8 (fun i (s : Sector) => s.writeAt (pos + (i + 8)) 0) s = writeBytes s (pos + 8) 8 0#64 := by
  unfold writeBytes forEachM
  refine forEach_congr fun i _ t => congrArg t.bind (funext fun s => ?_)
  have hzero : 0#64 >>> (i * 8) &&& 0xFF#64 = 0#64 := by simp
  dsimp only
  rw [hzero, show pos + (i + 8) = pos + 8 + i by omega]
  rfl

theorem full_window {a n m : Nat} {x y : Bool} :
    (if a ≤ m ∧ m < a + n then x else y) = if a ≤ m ∧ m < a + n then decide (m - a < n) && x else y := by
  split
  · simp [show m - a < n by omega]
  · rfl

theorem packs_fat16 : Packs Sector.bit 4096 16 16 256 fat16Get fat16Set := by
  refine packs_wide (show 16 ≤ 8 * 2 ∧ 16 ≤ 64 by decide) (by decide) (fun s i hi => ?_) fun s i v hi => ?_
  · rw [fat16Get_eq, Nat.mod_eq_of_lt (by omega), Nat.mul_comm i]
    exact s.readBytes_spec (by decide) hi
  · rw [fat16Set_eq, Nat.mod_eq_of_lt (by omega), Nat.mul_comm i]
    obtain ⟨s', hs', hbits⟩ := s.writeBytes_spec hi v
    refine ⟨s', hs', fun m hm => ?_⟩
    rw [hbits m hm, full_window]

theorem packs_fat32 : Packs Sector.bit 4096 32 28 128 fat32Get fat32Set := by
  refine packs_wide (show 28 ≤ 8 * 4 ∧ 28 ≤ 64 by decide) (by decide) (fun s i hi => ?_) fun s i v hi => ?_
  · rw [fat32Get_eq, Nat.mod_eq_of_lt (by omega), Nat.mul_comm i]
    obtain ⟨x, hx, hbits⟩ := s.readBytes_spec (show 4 ≤ 8 by decide) hi
    refine ⟨x &&& 0x0FFFFFFF#64, by rw [hx, Option.map_some], fun k => ?_⟩
    rw [BitVec.getLsbD_and, hbits, getLsbD_0x0FFFFFFF]
    grind
  · rw [fat32Set_eq, Nat.mod_eq_of_lt (by omega), Nat.mul_comm i]
    obtain ⟨s', hs', hbits⟩ := s.writeBytes_spec hi (v &&& 0x0FFFFFFF#64)
    refine ⟨s', hs', fun m hm => ?_⟩
    rw [hbits m hm, BitVec.getLsbD_and, getLsbD_0x0FFFFFFF, Bool.and_comm]

theorem packs_fat64 : Packs Sector.bit 4096 64 64 64 fat64Get fat64Set := by
  refine packs_wide (show 64 ≤ 8 * 8 ∧ 64 ≤ 64 by decide) (by decide) (fun s i hi => ?_) fun s i v hi => ?_
  · unfold fat64Get
    rw [Nat.mod_eq_of_lt (by omega), Nat.mul_comm i]
    exact s.readBytes_spec (by decide) hi
  · unfold fat64Set
    rw [Nat.mod_eq_of_lt (by omega), Nat.mul_comm i]
    obtain ⟨s', hs', hbits⟩ := s.writeBytes_spec hi v
    refine ⟨s', hs', fun m hm => ?_⟩
    rw [hbits m hm, full_window]

theorem packs_fat128 : Packs Sector.bit 4096 128 64 32 fat128Get fat128Set := by
  refine packs_wide (show 64 ≤ 8 * 16 ∧ 64 ≤ 64 by decide) (by decide) (fun s i hi => ?_) fun s i v hi => ?_
  · unfold fat128Get
    rw [Nat.mod_eq_of_lt (by omega), Nat.mul_comm i]
    exact s.readBytes_spec (by decide) (by omega)
  · unfold fat128Set
    dsimp only
    rw [Nat.mod_eq_of_lt (by omega), Nat.mul_comm i]
    obtain ⟨t, ht, hlow⟩ := s.writeBytes_spec (show 16 * i + 8 ≤ 512 by omega) v
    obtain ⟨u, hu, hhigh⟩ := t.writeBytes_spec (show 16 * i + 8 + 8 ≤ 512 by omega) 0#64
    refine ⟨u, ?_, fun m hm => ?_⟩
    · rw [ht, Option.bind_eq_bind, Option.bind_some, zeroBytes_eq, hu]
    · rw [hhigh m hm, hlow m hm, BitVec.getLsbD_zero]
      grind

/-! ## Entries of a byte and a half -/

theorem fat12Byte_odd {i : Nat} (hi : i < 341) (hodd : i % 2 = 1) :
    8 * fat12Byte i + 4 = 12 * i ∧ fat12Byte i + 1 < 512 := by
  unfold fat12Byte
  rw [Nat.mod_eq_of_lt (by omega)]
  omega

theorem fat12Byte_even {i : Nat} (hi : i < 341) (heven : ¬ i % 2 = 1) :
    8 * fat12Byte i = 12 * i ∧ fat12Byte i + 1 < 512 := by
  unfold fat12Byte
  rw [Nat.mod_eq_of_lt (by omega)]
  omega

theorem fat12Get_spec (s : Sector) {i : Nat} (hi : i < 341) :
    ∃ x, fat12Get s i = some x ∧ ∀ k, x.getLsbD k = (decide (k < 12) && (decide (k < 64) && s.bit (12 * i + k))) := by
  have hfit : fat12Byte i + 1 < 512 := by
    by_cases hodd : i % 2 = 1
    · exact (fat12Byte_odd hi hodd).2
    · exact (fat12Byte_even hi hodd).2
  obtain ⟨b₀, hread₀, hb₀⟩ := s.readAt_spec (show fat12Byte i < 512 by omega)
  obtain ⟨b₁, hread₁, hb₁⟩ := s.readAt_spec hfit
  refine ⟨(if i % 2 = 1 then b₀ >>> 4 ||| b₁ <<< 4 else b₀ ||| (b₁ &&& 0x0F#64) <<< 8) &&& 0xFFF#64, ?_, fun k => ?_⟩
  · unfold fat12Get
    rw [hread₀, hread₁]
    rfl
  · rw [BitVec.getLsbD_and, getLsbD_0xFFF]
    by_cases hk : k < 12
    · by_cases hodd : i % 2 = 1
      · obtain ⟨hpos, -⟩ := fat12Byte_odd hi hodd
        rw [if_pos hodd, BitVec.getLsbD_or, BitVec.getLsbD_ushiftRight, BitVec.getLsbD_shiftLeft, hb₀, hb₁]
        rcases Nat.lt_or_ge k 4 with hlow | hhigh
        · rw [show 8 * fat12Byte i + (4 + k) = 12 * i + k by omega]
          simp [hk, hlow, show 4 + k < 8 by omega, show k < 64 by omega]
        · rw [show 8 * (fat12Byte i + 1) + (k - 4) = 12 * i + k by omega]
          simp [hk, show ¬ k < 4 by omega, show ¬ 4 + k < 8 by omega, show k - 4 < 8 by omega, show k < 64 by omega]
      · obtain ⟨hpos, -⟩ := fat12Byte_even hi hodd
        rw [if_neg hodd, BitVec.getLsbD_or, BitVec.getLsbD_shiftLeft, BitVec.getLsbD_and, hb₀, hb₁, getLsbD_0xF]
        rcases Nat.lt_or_ge k 8 with hlow | hhigh
        · rw [hpos]
          simp [hk, hlow, show k < 64 by omega]
        · rw [show 8 * (fat12Byte i + 1) + (k - 8) = 12 * i + k by omega]
          simp [hk, show ¬ k < 8 by omega, show k - 8 < 8 by omega, show k - 8 < 4 by omega, show k < 64 by omega]
    · simp [hk]

theorem fat12Set_spec (s : Sector) {i : Nat} (hi : i < 341) (v : BitVec 64) :
    ∃ s', fat12Set s i v = some s' ∧ ∀ n, n < 4096 → s'.bit n = if 12 * i ≤ n ∧ n < 12 * i + 12
        then decide (n - 12 * i < 12) && v.getLsbD (n - 12 * i) else s.bit n := by
  unfold fat12Set
  by_cases hodd : i % 2 = 1
  · obtain ⟨hpos, hfit⟩ := fat12Byte_odd hi hodd
    obtain ⟨b, hread, hb⟩ := s.readAt_spec (show fat12Byte i < 512 by omega)
    obtain ⟨t, ht, htbits⟩ := s.writeAt_spec (show fat12Byte i < 512 by omega)
      (b &&& 0x0F#64 ||| (v &&& 0xFFF#64 &&& 0x0F#64) <<< 4)
    obtain ⟨u, hu, hubits⟩ := t.writeAt_spec hfit ((v &&& 0xFFF#64) >>> 4 &&& 0xFF#64)
    refine ⟨u, ?_, fun n hn => ?_⟩
    · dsimp only
      rw [if_pos hodd, hread, Option.bind_eq_bind, Option.bind_some, ht, Option.bind_eq_bind, Option.bind_some, hu]
    · rw [hubits n hn, htbits n hn]
      simp only [BitVec.getLsbD_or, BitVec.getLsbD_and, BitVec.getLsbD_shiftLeft, BitVec.getLsbD_ushiftRight,
        getLsbD_0xF, getLsbD_0xFF, getLsbD_0xFFF, hb]
      by_cases hsecond : n / 8 = fat12Byte i + 1
      · rw [if_pos hsecond, if_pos (by omega), show 4 + n % 8 = n - 12 * i by omega]
        simp [show n - 12 * i < 12 by omega, show n % 8 < 8 by omega]
      · rw [if_neg hsecond]
        by_cases hfirst : n / 8 = fat12Byte i
        · rw [if_pos hfirst]
          rcases Nat.lt_or_ge (n % 8) 4 with hlow | hhigh
          · rw [if_neg (by omega), show 8 * fat12Byte i + n % 8 = n by omega]
            simp [hlow, show n % 8 < 8 by omega]
          · rw [if_pos (by omega), show n % 8 - 4 = n - 12 * i by omega]
            simp [show ¬ n % 8 < 4 by omega, show n % 8 < 64 by omega, show n - 12 * i < 12 by omega,
              show n - 12 * i < 4 by omega]
        · rw [if_neg hfirst, if_neg (by omega)]
  · obtain ⟨hpos, hfit⟩ := fat12Byte_even hi hodd
    obtain ⟨t, ht, htbits⟩ := s.writeAt_spec (show fat12Byte i < 512 by omega) (v &&& 0xFFF#64 &&& 0xFF#64)
    obtain ⟨b, hread, hb⟩ := t.readAt_spec hfit
    obtain ⟨u, hu, hubits⟩ := t.writeAt_spec hfit (b &&& 0xF0#64 ||| (v &&& 0xFFF#64) >>> 8 &&& 0x0F#64)
    refine ⟨u, ?_, fun n hn => ?_⟩
    · dsimp only
      rw [if_neg hodd, ht, Option.bind_eq_bind, Option.bind_some, hread, Option.bind_eq_bind, Option.bind_some, hu]
    · rw [hubits n hn]
      simp only [BitVec.getLsbD_or, BitVec.getLsbD_and, BitVec.getLsbD_ushiftRight, getLsbD_0xF, getLsbD_0xF0,
        getLsbD_0xFFF, hb]
      by_cases hsecond : n / 8 = fat12Byte i + 1
      · rw [if_pos hsecond, show 8 * (fat12Byte i + 1) + n % 8 = n by omega, htbits n hn, if_neg (by omega)]
        rcases Nat.lt_or_ge (n % 8) 4 with hlow | hhigh
        · rw [if_pos (by omega), show 8 + n % 8 = n - 12 * i by omega]
          simp [hlow, show ¬ 4 ≤ n % 8 by omega, show n - 12 * i < 12 by omega]
        · rw [if_neg (by omega)]
          simp [hhigh, show ¬ n % 8 < 4 by omega, show n % 8 < 8 by omega]
      · rw [if_neg hsecond, htbits n hn]
        simp only [BitVec.getLsbD_and, getLsbD_0xFF, getLsbD_0xFFF]
        by_cases hfirst : n / 8 = fat12Byte i
        · rw [if_pos hfirst, if_pos (by omega), show n % 8 = n - 12 * i by omega]
          simp [show n - 12 * i < 8 by omega, show n - 12 * i < 12 by omega]
        · rw [if_neg hfirst, if_neg (by omega)]

theorem packs_fat12 : Packs Sector.bit 4096 12 12 341 fat12Get fat12Set where
  payload_le := Nat.le_refl 12
  fits := by decide
  get_spec s _ hi := fat12Get_spec s hi
  set_spec s _ v hi := fat12Set_spec s hi v

/-! ## Every width -/

/-- The widths that a table can have. -/
def fatWidths : List Nat := [1, 2, 4, 8, 12, 16, 32, 64, 128]

/-- How many bits of an entry are its value. -/
def payloadBits (width : Nat) : Nat :=
  match width with
  | 32 => 28
  | 128 => 64
  | width => width

theorem packs_entry {width : Nat} (hw : width ∈ fatWidths) :
    Packs Sector.bit 4096 width (payloadBits width) (fatEntriesPerSector width) (fatGetEntry width)
      (fatSetEntry width) := by
  unfold fatWidths at hw
  simp only [List.mem_cons, List.not_mem_nil, or_false] at hw
  rcases hw with rfl | rfl | rfl | rfl | rfl | rfl | rfl | rfl | rfl
  · exact packs_fat1
  · exact packs_fat2
  · exact packs_fat4
  · exact packs_fat8
  · exact packs_fat12
  · exact packs_fat16
  · exact packs_fat32
  · exact packs_fat64
  · exact packs_fat128

/-- **What is written to an entry is read from it**, reduced to the width, and every other entry is as it was. -/
theorem fatSetEntry_get {width : Nat} (hw : width ∈ fatWidths) (s : Sector) {cluster : Nat}
    (hc : cluster < fatEntriesPerSector width) (value : BitVec 64) : ∃ s', fatSetEntry width s cluster value = some s' ∧
      fatGetEntry width s' cluster = some (reduce (payloadBits width) value) ∧
      ∀ d, d < fatEntriesPerSector width → d ≠ cluster →
        fatGetEntry width s' d = fatGetEntry width s d ∧ (fatGetEntry width s d).isSome = true :=
  (packs_entry hw).set_get s hc value

/-- The last entry of 12 bits, in the last two bytes. -/
theorem fatSetEntry_get_last : ∃ s', fatSetEntry 12 (Vector.replicate 512 0) 340 0xFABC = some s' ∧
    fatGetEntry 12 s' 340 = some (reduce (payloadBits 12) 0xFABC) ∧ ∀ d, d < fatEntriesPerSector 12 → d ≠ 340 →
      fatGetEntry 12 s' d = fatGetEntry 12 (Vector.replicate 512 0) d ∧
        (fatGetEntry 12 (Vector.replicate 512 0) d).isSome = true :=
  fatSetEntry_get (by decide) _ (by decide) _

end Chicago95.Stage2
