/-
# Chicago95.Stage2.AesCtr — AES-256-CTR of `security/common/crypto/crypto.c`.

`sec_aes256_ctr_encrypt` reads the bytes at `in` and writes those at `out`, a block at a time; the two may
be one buffer. The model has them in one memory and takes the block function as a parameter. The loop that
increments the counter is the addition of one to a number of 128 bits (`bits_bump`), and so byte `i` is
masked with what the counter `i / 16` further on is encrypted to (`secAes256CtrEncrypt_eq`).
-/
import Chicago95.Lib.Digits
import Chicago95.Stage2.Aes

namespace Chicago95.Stage2.Aes

open Chicago95.Lib.Digits Chicago95.Lib.Keystream

/-! ## The code -/

/-- `while (pos < len)`. The counter is incremented as in `aes256_ctr`. -/
def ctrLoop (encryptBlock : Block → Block) (inp len out : Nat) (mem : Memory) (counter : Block) (pos : Nat) :
    Memory :=
  if pos < len then
    let keystream := encryptBlock counter
    let blockLen := min (len - pos) 16
    let mem := maskRange (fun i => keystream.toList.getD (i - pos) 0) inp out pos blockLen mem
    ctrLoop encryptBlock inp len out mem (bump counter 16) (pos + blockLen)
  else mem
termination_by len - pos

/-- `sec_aes256_ctr_encrypt`, where `encryptBlock` is `sec_aes256_encrypt_block` for the key. -/
def secAes256CtrEncrypt (encryptBlock : Block → Block) (iv : Block) (inp : Nat) (len : UInt32) (out : Nat)
    (mem : Memory) : Memory :=
  ctrLoop encryptBlock inp len.toNat out mem iv 0

def secAes256CtrDecrypt (encryptBlock : Block → Block) (iv : Block) (inp : Nat) (len : UInt32) (out : Nat)
    (mem : Memory) : Memory :=
  secAes256CtrEncrypt encryptBlock iv inp len out mem

/-! ## Blocks as numbers -/

/-- The bits of a block, the first byte the highest. -/
def bits (x : Block) : BitVec 128 := BitVec.ofNat 128 (ofBigEndian x.toList)

def block (v : BitVec 128) : Block := Vector.ofFn fun i => UInt8.ofNat (v.toNat / 256 ^ (15 - i.val))

theorem toList_block (v : BitVec 128) : (block v).toList = bigEndian 16 v.toNat := by
  refine List.ext_getElem ?_ fun i hi hi' => ?_
  · rw [Vector.length_toList, length_bigEndian]
  · rw [Vector.getElem_toList]
    unfold block
    rw [Vector.getElem_ofFn]
    simp only [bigEndian, List.getElem_map, List.getElem_range]

theorem toNat_bits (x : Block) : (bits x).toNat = ofBigEndian x.toList := by
  have hlt := ofBigEndian_lt x.toList
  rw [Vector.length_toList] at hlt
  unfold bits
  rw [BitVec.toNat_ofNat]
  exact Nat.mod_eq_of_lt hlt

@[simp] theorem block_bits (x : Block) : block (bits x) = x := by
  refine Vector.toList_inj.mp ?_
  rw [toList_block, toNat_bits]
  have hbytes := bigEndian_ofBigEndian x.toList
  rwa [Vector.length_toList] at hbytes

@[simp] theorem bits_block (v : BitVec 128) : bits (block v) = v := by
  refine BitVec.eq_of_toNat_eq ?_
  rw [toNat_bits, toList_block, ofBigEndian_bigEndian]
  exact Nat.mod_eq_of_lt v.isLt

theorem bits_inj {x y : Block} : bits x = bits y ↔ x = y :=
  ⟨fun h => by rw [← block_bits x, h, block_bits], fun h => by rw [h]⟩

/-! ## The counter -/

theorem bump_append (xs : List UInt8) {ys : List UInt8} {counter : Block} (h : counter.toList = xs ++ ys) :
    ∃ zs, (bump counter xs.length).toList = zs ++ ys ∧ zs.length = xs.length ∧
      ofBigEndian zs = (ofBigEndian xs + 1) % 256 ^ xs.length := by
  induction xs using List.reverseRecOn generalizing ys counter with
  | nil => exact ⟨[], h, rfl, (Nat.mod_one _).symm⟩
  | append_singleton xs b ih =>
    have hxs := ofBigEndian_lt xs
    have hb := b.toNat_lt
    have hpow : 256 ^ (xs.length + 1) = 256 * 256 ^ xs.length := Nat.pow_succ'
    have hadd : (b + 1).toNat = (b.toNat + 1) % 256 := UInt8.toNat_add b 1
    rw [List.append_assoc, List.singleton_append] at h
    have hbyte : counter.toList.getD xs.length 0 = b := by
      rw [h, List.getD_eq_getElem?_getD, List.getElem?_append_right (Nat.le_refl _), Nat.sub_self]
      rfl
    have hset : (counter.setIfInBounds xs.length (b + 1)).toList = xs ++ (b + 1) :: ys := by
      rw [Vector.toList_setIfInBounds, h, List.set_append_right _ _ (Nat.le_refl _), Nat.sub_self, List.set_cons_zero]
    rw [List.length_append, List.length_singleton, ofBigEndian_concat, hpow]
    unfold bump
    dsimp only
    rw [hbyte]
    split
    · -- no carry
      rename_i hne
      have hpos : (b + 1).toNat ≠ 0 := fun hzero => hne (UInt8.toNat_inj.mp hzero)
      have hnext : (b + 1).toNat = b.toNat + 1 := by omega
      refine ⟨xs ++ [b + 1], ?_, List.length_append, ?_⟩
      · rw [hset, List.append_assoc, List.singleton_append]
      · rw [ofBigEndian_concat, hnext, Nat.mod_eq_of_lt (by omega)]
        omega
    · -- the byte was 255 and the carry goes on
      rename_i hcarry
      have hzero : b + 1 = 0 := Decidable.not_not.mp hcarry
      rw [hzero] at hset hadd
      have hlast : b.toNat = 255 := by
        have hmod : (b.toNat + 1) % 256 = 0 := hadd.symm
        omega
      obtain ⟨zs, htail, hlen, hval⟩ := ih hset
      refine ⟨zs ++ [0], ?_, ?_, ?_⟩
      · rw [hzero, htail, List.append_assoc, List.singleton_append]
      · rw [List.length_append, hlen, List.length_singleton]
      · rw [ofBigEndian_concat, hval, hlast, ← Nat.mul_mod_mul_left]
        rfl

theorem bits_bump (counter : Block) : bits (bump counter 16) = bits counter + 1 := by
  obtain ⟨zs, hbump, -, hval⟩ := bump_append counter.toList (List.append_nil _).symm
  rw [Vector.length_toList, List.append_nil] at hbump
  refine BitVec.eq_of_toNat_eq ?_
  rw [toNat_bits, hbump, hval, ← toNat_bits, Vector.length_toList, BitVec.toNat_add]
  rfl

/-- The counter block `k` further on, as a number of 128 bits. -/
def counterAt (iv : Block) (k : Nat) : Block := block (bits iv + BitVec.ofNat 128 k)

/-- Byte `i` of the keystream. -/
def keystreamByte (encryptBlock : Block → Block) (iv : Block) (i : Nat) : UInt8 :=
  (encryptBlock (counterAt iv (i / 16))).toList.getD (i % 16) 0

theorem counterAt_zero (iv : Block) : counterAt iv 0 = iv := by
  unfold counterAt
  exact (congrArg block (BitVec.add_zero _)).trans (block_bits iv)

theorem bump_counterAt (iv : Block) (k : Nat) : bump (counterAt iv k) 16 = counterAt iv (k + 1) := by
  refine bits_inj.mp ?_
  unfold counterAt
  rw [bits_bump, bits_block, bits_block, BitVec.ofNat_add, BitVec.add_assoc]
  rfl

/-! ## The loop -/

variable {encryptBlock : Block → Block} {iv : Block} {inp out : Nat} {mem : Memory}

theorem ctrLoop_eq (len k : Nat) (mem : Memory) : ctrLoop encryptBlock inp len out mem (counterAt iv k) (16 * k) =
      maskRange (keystreamByte encryptBlock iv) inp out (16 * k) (len - 16 * k) mem := by
  induction hleft : len - 16 * k using Nat.strongRecOn generalizing k mem with
  | _ left ih =>
    subst hleft
    rw [ctrLoop]
    split
    · rename_i hlt
      dsimp only
      -- the pass masks with the keystream
      have hpass : maskRange (fun i => (encryptBlock (counterAt iv k)).toList.getD (i - 16 * k) 0) inp out
            (16 * k) (min (len - 16 * k) 16) mem =
          maskRange (keystreamByte encryptBlock iv) inp out (16 * k) (min (len - 16 * k) 16) mem := by
        refine maskRange_congr fun i hle hlt => ?_
        unfold keystreamByte
        rw [show i / 16 = k by omega, show i % 16 = i - 16 * k by omega]
      rw [hpass, bump_counterAt]
      by_cases hfull : 16 * (k + 1) ≤ len
      · rw [Nat.min_eq_right (by omega), ← Nat.mul_succ, ih _ (by omega) (k + 1) _ rfl, Nat.mul_succ,
          maskRange_append, show 16 + (len - (16 * k + 16)) = len - 16 * k by omega]
      · -- the last block
        rw [Nat.min_eq_left (by omega), show 16 * k + (len - 16 * k) = len by omega, ctrLoop,
          if_neg (Nat.lt_irrefl len)]
    · rename_i hdone
      rw [Nat.sub_eq_zero_of_le (by omega), maskRange_zero]

theorem secAes256CtrEncrypt_eq (len : UInt32) : secAes256CtrEncrypt encryptBlock iv inp len out mem =
      maskRange (keystreamByte encryptBlock iv) inp out 0 len.toNat mem := by
  have hloop : ctrLoop encryptBlock inp len.toNat out mem (counterAt iv 0) (16 * 0) = _ :=
    ctrLoop_eq len.toNat 0 mem
  rwa [counterAt_zero] at hloop

/-- **Counter mode**, in one buffer or in two: the bytes that are written, those that are not, and that
decryption to wherever the ciphertext does not lie across gives back what was encrypted. -/
theorem secAes256Ctr_law (encryptBlock : Block → Block) (iv : Block) (inp out : Nat) (len : UInt32)
    (hbuf : Buffers inp out len.toNat) (mem : Memory) :
    (∀ i < len.toNat, secAes256CtrEncrypt encryptBlock iv inp len out mem (out + i) =
      mem (inp + i) ^^^ keystreamByte encryptBlock iv i) ∧
    (∀ a, a < out ∨ out + len.toNat ≤ a → secAes256CtrEncrypt encryptBlock iv inp len out mem a = mem a) ∧
    ∀ back, Buffers out back len.toNat → ∀ i < len.toNat, secAes256CtrDecrypt encryptBlock iv out len back
        (secAes256CtrEncrypt encryptBlock iv inp len out mem) (back + i) = mem (inp + i) := by
  unfold secAes256CtrDecrypt
  simp only [secAes256CtrEncrypt_eq]
  refine ⟨fun i hi => maskRange_byte hbuf hi, fun a ha => ?_, fun back hback i hi => maskRange_back hbuf hback hi⟩
  rw [maskRange_apply hbuf (by omega), if_neg (by omega)]

/-- Twenty bytes in place, from the counter of all ones on: byte 17 comes after the counter has wrapped. -/
theorem secAes256Ctr_law_wraps :
    secAes256CtrEncrypt id (Vector.replicate 16 255) 4096 20 4096 (fun a => UInt8.ofNat a) (4096 + 17) =
      UInt8.ofNat (4096 + 17) ^^^ keystreamByte id (Vector.replicate 16 255) 17 :=
  (secAes256Ctr_law id (Vector.replicate 16 255) 4096 4096 20 (Or.inl rfl) (fun a => UInt8.ofNat a)).1 17 (by decide)

end Chicago95.Stage2.Aes
