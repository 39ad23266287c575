/-
# Chicago95.Stage2.GcmStandard — AES-256-GCM of `security/common/aes/aes256.c` against the standard.

The block function is that of the file, whatever it is; over it, `sec_aes256_gcm_encrypt` and the standard
agree for every key and nonce on the empty message without additional data only (`gcmConforms_iff`). There
is a key against everything else:

* the first byte of a plaintext is masked with the block that the tag is masked with;
* additional data that ends within a block is hashed with what the stack held;
* on whole blocks of additional data the hash is zero for all the 256 keys `rootKey`, which is more than
  the polynomial of the standard has roots.
-/
import Mathlib
import Chicago95.Lib.GaloisCounter
import Chicago95.Stage2.AesCtr
import Chicago95.Stage2.Gcm

namespace Chicago95.Stage2.Aes

open Chicago95.Lib.Absorb Chicago95.Lib.Digits Chicago95.Lib.Keystream Chicago95.Lib.Loop
open Chicago95.Lib Chicago95.Lib.GaloisCounter

/-! ## Blocks as numbers -/

theorem getMsbD_bits (x : Block) {i : Nat} (hi : i < 128) : (bits x).getMsbD i = blockBit x i := by
  have hbyte := ofBigEndian_div x.toList (j := i / 8) (by rw [Vector.length_toList]; omega)
  rw [Vector.length_toList, ← toNat_bits] at hbyte
  unfold blockBit
  rw [← hbyte, BitVec.getMsbD_eq_getLsbD, decide_eq_true hi, Bool.true_and]
  show (bits x).toNat.testBit (128 - 1 - i) = _
  have hpow : 256 ^ (16 - 1 - i / 8) = 2 ^ (8 * (15 - i / 8)) := by
    rw [pow_mul]
    rfl
  rw [hpow, show (256 : Nat) = 2 ^ 8 from rfl, Nat.testBit_mod_two_pow, Nat.testBit_div_two_pow, decide_eq_true (show 7 - i % 8 < 8 by omega),
    Bool.true_and]
  congr 1
  omega

theorem bits_xorBlock (x y : Block) : bits (xorBlock x y) = bits x ^^^ bits y := by
  refine BitVec.eq_of_getMsbD_eq fun i hi => ?_
  rw [BitVec.getMsbD_xor, getMsbD_bits _ hi, getMsbD_bits _ hi, getMsbD_bits _ hi, blockBit_xorBlock]

@[simp] theorem bits_zeroBlock : bits zeroBlock = 0 := by decide +kernel

@[simp] theorem block_zero : block 0 = zeroBlock := by decide +kernel

theorem block_xor (v w : BitVec 128) : block (v ^^^ w) = xorBlock (block v) (block w) := by
  refine bits_inj.mp ?_
  rw [bits_xorBlock, bits_block, bits_block, bits_block]

/-! ## The standard over the block function -/

/-- `CIPH_K` -/
def cipher (ctx : Aes256Ctx) (x : BitVec 128) : BitVec 128 := bits (secAes256EncryptBlock ctx (block x))

def nonceBits (iv : Vector UInt8 12) : BitVec 96 := BitVec.ofNat 96 (ofBigEndian iv.toList)

/-- Ciphertext and tag of the standard. -/
def gcmStandard (ctx : Aes256Ctx) (iv : Vector UInt8 12) (plaintext aad : List UInt8) : List UInt8 × Block :=
  let sealed := encrypt (cipher ctx) (nonceBits iv) plaintext aad
  (sealed.1, block sealed.2)

/-- They are what comes back, for every key and nonce and whatever the stack held. -/
def GcmConforms (plaintext aad : List UInt8) : Prop :=
  ∀ frame ctx iv, secAes256GcmEncrypt frame ctx plaintext iv aad = some (gcmStandard ctx iv plaintext aad)

theorem bits_counterBlock (iv : Vector UInt8 12) : bits (counterBlock iv) = firstCounter (nonceBits iv) := by
  have hlt := ofBigEndian_lt iv.toList
  rw [Vector.length_toList] at hlt
  refine BitVec.eq_of_toNat_eq ?_
  unfold counterBlock firstCounter nonceBits
  rw [toNat_bits, Vector.toList_append, ofBigEndian_append, BitVec.toNat_append, BitVec.toNat_ofNat,
    Nat.mod_eq_of_lt (by exact hlt), ← Nat.shiftLeft_add_eq_or_of_lt (by decide), Nat.shiftLeft_eq]
  rfl

theorem cipher_firstCounter (ctx : Aes256Ctx) (iv : Vector UInt8 12) :
    cipher ctx (firstCounter (nonceBits iv)) = bits (secAes256EncryptBlock ctx (counterBlock iv)) := by
  unfold cipher
  rw [← bits_counterBlock, block_bits]

/-! ## The empty message -/

variable {plaintext aad : List UInt8}

theorem gcmConforms_nil : GcmConforms [] [] := by
  intro frame ctx iv
  have hct : aes256Ctr ctx iv [] = [] := List.eq_nil_of_length_eq_zero (length_aes256Ctr iv [] (by decide))
  have hzeros : lengthBytes ([] : List UInt8).length ++ lengthBytes ([] : List UInt8).length =
      List.replicate 16 0 := by decide
  have hblock : inputBlock (assembled frame [] []) 16 0 = zeroBlock := by
    refine Vector.ext fun i hi => ?_
    unfold inputBlock
    rw [Vector.getElem_ofFn, Vector.getElem_replicate, if_pos (by simp only; omega)]
    unfold assembled store
    rw [hzeros, if_pos (by simpa [align16] using hi)]
    rw [List.getD_eq_getElem?_getD, List.getElem?_replicate]
    split <;> rfl
  have hhash : ghash (hashKey ctx) (assembled frame [] []) 16 = zeroBlock := by
    rw [ghash_eq, hashBlocks_succ, hashBlocks_zero, hblock, zero_xorBlock]
    exact select_add zeroBlock _ 0 128 fun i _ _ => blockBit_zero i
  have htag : messageTag frame ctx iv [] [] = secAes256EncryptBlock ctx (counterBlock iv) := by
    unfold messageTag tagOf
    rw [show align16 (align16 ([] : List UInt8).length + ([] : List UInt8).length) + 16 = 16 by decide, hhash,
      zero_xorBlock]
  unfold gcmStandard
  rw [gcmEncrypt_eq (by decide), hct, htag, encrypt_nil, cipher_firstCounter]
  dsimp only
  rw [block_bits]

/-! ## A plaintext -/

def unitBlockRun : EncryptRun unitContext (block 2) where
  middle := #v[238, 128, 254, 194, 96, 35, 41, 182, 197, 1, 89, 223, 45, 66, 211, 198]
  output := #v[102, 104, 36, 192, 133, 204, 129, 20, 45, 68, 230, 232, 152, 179, 251, 199]
  first_half := by decide +kernel
  second_half := by decide +kernel

theorem unitContext_nextBlock : (toBytes (cipher unitContext
      (inc32 (firstCounter (nonceBits (Vector.replicate 12 0)))))).head? = some 102 := by
  have hcounter : inc32 (firstCounter (nonceBits (Vector.replicate 12 0))) = 2 := by decide +kernel
  rw [hcounter]
  unfold cipher
  rw [unitBlockRun.encrypt_eq]
  decide +kernel

theorem gcmStandard_fst (ctx : Aes256Ctx) (iv : Vector UInt8 12) (plaintext aad : List UInt8) :
    (gcmStandard ctx iv plaintext aad).1 = gctr (cipher ctx) (inc32 (firstCounter (nonceBits iv))) plaintext := rfl

theorem head?_aes256Ctr {ctx : Aes256Ctx} {iv : Vector UInt8 12} {b x : UInt8} {xs : List UInt8}
    (hblock : (secAes256EncryptBlock ctx (counterBlock iv)).toList.head? = some b)
    (hlen : (x :: xs).length ≤ 4064) : (aes256Ctr ctx iv (x :: xs)).head? = some (x ^^^ b) := by
  rw [List.length_cons] at hlen
  unfold aes256Ctr
  refine head?_mask ?_ (by decide) ?_ x xs
  · exact hblock
  · rw [List.length_cons]
    omega

theorem gcmEncrypt_ne_of_plaintext (frame : Nat → UInt8) (hfit : aad.length + plaintext.length ≤ 4064)
    (hne : plaintext ≠ []) : secAes256GcmEncrypt frame unitContext plaintext (Vector.replicate 12 0) aad ≠
      some (gcmStandard unitContext (Vector.replicate 12 0) plaintext aad) := by
  intro hout
  obtain ⟨x, xs, rfl⟩ := List.exists_cons_of_ne_nil hne
  have hfirst : (secAes256EncryptBlock unitContext (counterBlock (Vector.replicate 12 0))).toList.head? =
      some 1 := by
    show (hashKey unitContext).toList.head? = some 1
    rw [hashKey_unitContext]
    rfl
  rw [gcmEncrypt_eq hfit] at hout
  have hct := congrArg (fun r : List UInt8 × Block => r.1.head?) (Option.some.inj hout)
  rw [gcmStandard_fst, head?_aes256Ctr hfirst (by omega), head?_gctr unitContext_nextBlock] at hct
  have hmasks := congrArg (fun y => x ^^^ y) (Option.some.inj hct)
  simp only [← UInt8.xor_assoc, UInt8.xor_self, UInt8.zero_xor] at hmasks
  exact absurd hmasks (by decide)

/-! ## Additional data -/

theorem not_gcmConforms_of_gap (hfit : aad.length ≤ 4064) (hgap : ¬ 16 ∣ aad.length) : ¬ GcmConforms [] aad := by
  intro h
  obtain ⟨k, hk⟩ := exists_gap (a := aad.length) (n := 0) fun hboth => hgap hboth.1
  have hkey : shiftRight^[128] (hashKey unitContext) ≠ zeroBlock := by
    rw [hashKey_unitContext, shiftRight_iterate_of_low]
    exact low_ne_zero (step_iterate_ne_zero (by decide) 128)
  have htag : ∀ frame, messageTag frame unitContext (Vector.replicate 12 0) aad [] =
      (gcmStandard unitContext (Vector.replicate 12 0) [] aad).2 := by
    intro frame
    have hout := h frame unitContext (Vector.replicate 12 0)
    rw [gcmEncrypt_eq (by simpa using hfit)] at hout
    exact congrArg Prod.snd (Option.some.inj hout)
  exact messageTag_ne_of_gap hk hkey ((htag _).trans (htag _).symm)

/-! ## Keys that are cleared

`root b` is a block for each byte `b`; the shifts of the code clear all of them, and no two are so close
that their difference is not invertible. -/

/-- What `n` shifts make of byte 0. -/
def drain (h : Block) (n : Nat) : UInt8 :=
  forEach n (fun k c => step c ^^^ (if bitAt h (8 + k) then 0x80 else 0)) (h.toList.getD 0 0)

theorem shiftedByte_zero (b : UInt8) : shiftedByte 0 b = if b.toNat.testBit 0 then 0x80 else 0 := by
  have hall : ∀ x : UInt8, shiftedByte 0 x = if x.toNat.testBit 0 then 0x80 else 0 :=
    forall_byte (by decide +kernel)
  exact hall b

theorem getD_shiftRight_iterate_zero (h : Block) (n : Nat) : (shiftRight^[n] h).toList.getD 0 0 = drain h n := by
  unfold drain
  induction n with
  | zero => rfl
  | succ n ih =>
    have hbit : ((shiftRight^[n] h).toList.getD 1 0).toNat.testBit 0 = bitAt h (8 + n) :=
      bitAt_iterate_shiftRight h n 8 (Nat.le_refl 8)
    rw [forEach_succ, ← ih, Function.iterate_succ_apply', getD_toList _ 0 (by decide), getElem_shiftRight_zero,
      getD_toList (shiftRight^[n] h) 0 (by decide), shiftedByte_zero, hbit]

theorem shiftRight_iterate_eq_low (h : Block) : shiftRight^[128] h = low (drain h 128) := by
  obtain ⟨b, hb⟩ := shiftRight_iterate_low h
  have hlow : shiftRight^[128] h = low (step^[8] b) := by
    rw [show 128 = 8 + 120 from rfl, Function.iterate_add_apply, hb, shiftRight_iterate_of_low]
  rw [← getD_shiftRight_iterate_zero, hlow, getD_low, if_pos rfl]

/-- An element of the field with 256 elements that the shift of byte 0 generates. -/
def subfieldGen : BitVec 128 := 0x382344b291d22759c6309be6750eac86#128

/-- A block that 128 shifts clear, as they do its product with each element of the field. -/
def rootBase : BitVec 128 := 0x80000000000000009e2d222630948408#128

def rootPower (i : Nat) : BitVec 128 := (fun v => mul v subfieldGen)^[i] rootBase

/-- `rootBase` times the element that the byte stands for. -/
def root (b : UInt8) : BitVec 128 :=
  forEach 8 (fun i v => if b.toBitVec.getMsbD i then v ^^^ rootPower i else v) 0

theorem drain_rootPower : ∀ i < 8, drain (block (rootPower i)) 128 = 0 := by decide +kernel

theorem rootPower_eight : rootPower 8 = rootPower 0 ^^^ rootPower 1 ^^^ rootPower 2 ^^^ rootPower 7 := by
  decide +kernel

theorem mul_rootBase : mul rootBase 0x8ec0d1aceac20ad94df848d50b9bd2b2#128 = 1#128 <<< 127 := by
  decide +kernel

theorem toRing_rootPower (i : Nat) : toRing (rootPower i) = toRing rootBase * toRing subfieldGen ^ i := by
  unfold rootPower
  induction i with
  | zero => rw [Function.iterate_zero_apply, pow_zero, mul_one]
  | succ i ih => rw [Function.iterate_succ_apply', toRing_mul, ih, pow_succ, mul_assoc]

theorem toRing_root (b : UInt8) : toRing (root b) = toRing rootBase * evalBits (toRing subfieldGen) b.toBitVec := by
  have hloop : ∀ n, toRing (forEach n (fun i v => if b.toBitVec.getMsbD i then v ^^^ rootPower i else v) 0) =
      toRing rootBase * ∑ i ∈ Finset.range n, if b.toBitVec.getMsbD i then toRing subfieldGen ^ i else 0 := by
    intro n
    induction n with
    | zero => rw [forEach_zero, toRing_zero, Finset.sum_range_zero, mul_zero]
    | succ n ih =>
      rw [forEach_succ, Finset.sum_range_succ, mul_add, ← ih, mul_ite, mul_zero]
      split
      · rw [toRing_xor, toRing_rootPower]
      · rw [add_zero]
  exact hloop 8

theorem isUnit_rootBase : IsUnit (toRing rootBase) := by
  have hone := congrArg toRing mul_rootBase
  rw [toRing_mul, toRing_one] at hone
  exact IsUnit.of_mul_eq_one _ hone

theorem subfieldGen_pow :
    toRing subfieldGen ^ 8 = 1 + toRing subfieldGen + toRing subfieldGen ^ 2 + toRing subfieldGen ^ 7 := by
  have height := congrArg toRing rootPower_eight
  simp only [toRing_xor, toRing_rootPower, pow_zero, pow_one] at height
  refine isUnit_rootBase.mul_left_cancel ?_
  rw [height]
  ring

theorem isUnit_subfieldGen : IsUnit (toRing subfieldGen) := by
  have hpow := subfieldGen_pow
  generalize toRing subfieldGen = s at hpow
  have hs := add_self s
  have hs2 := add_self (s ^ 2)
  have hs7 := add_self (s ^ 7)
  refine IsUnit.of_mul_eq_one (s ^ 7 + s ^ 6 + s + 1) ?_
  linear_combination hpow + hs + hs2 + hs7

theorem step_toBitVec (b : UInt8) : (step b).toBitVec = shiftX 0xE1#8 b.toBitVec := by
  have hall : ∀ x : UInt8, (step x).toBitVec = shiftX 0xE1#8 x.toBitVec :=
    forall_byte (by decide +kernel)
  exact hall b

theorem evalBits_feedback : evalBits (toRing subfieldGen) 0xE1#8 = toRing subfieldGen ^ 8 := by
  have hsum : evalBits (toRing subfieldGen) 0xE1#8 = ∑ i ∈ ({0, 1, 2, 7} : Finset Nat), toRing subfieldGen ^ i :=
    evalBits_eq_sum (by decide) (by decide)
  rw [hsum, subfieldGen_pow, Finset.sum_insert (by decide), Finset.sum_insert (by decide),
    Finset.sum_insert (by decide), Finset.sum_singleton]
  ring

theorem evalBits_iterate_step (k : Nat) :
    evalBits (toRing subfieldGen) (step^[k] 0x80).toBitVec = toRing subfieldGen ^ k := by
  induction k with
  | zero =>
    have hsum : evalBits (toRing subfieldGen) 0x80#8 = ∑ i ∈ ({0} : Finset Nat), toRing subfieldGen ^ i :=
      evalBits_eq_sum (by decide) (by decide)
    rwa [Finset.sum_singleton] at hsum
  | succ k ih =>
    rw [Function.iterate_succ_apply', step_toBitVec, evalBits_shiftX add_self evalBits_feedback (by decide), ih,
      pow_succ']

theorem isUnit_evalBits {b : UInt8} (hb : b ≠ 0) : IsUnit (evalBits (toRing subfieldGen) b.toBitVec) := by
  obtain ⟨k, rfl⟩ := exists_iterate_step b hb
  rw [evalBits_iterate_step]
  exact isUnit_subfieldGen.pow k

theorem isUnit_root_sub {a b : UInt8} (h : a ≠ b) : IsUnit (toRing (root b) - toRing (root a)) := by
  have hsub : toRing (root b) - toRing (root a) =
      toRing rootBase * evalBits (toRing subfieldGen) (a ^^^ b).toBitVec := by
    have ha := add_self (toRing (root a))
    rw [UInt8.toBitVec_xor, evalBits_xor add_self, mul_add, ← toRing_root, ← toRing_root]
    linear_combination -ha
  rw [hsub]
  exact isUnit_rootBase.mul (isUnit_evalBits fun hzero => h (UInt8.xor_eq_zero_iff.mp hzero))

theorem root_cleared (b : UInt8) : shiftRight^[128] (block (root b)) = zeroBlock := by
  have hpower : ∀ i < 8, shiftRight^[128] (block (rootPower i)) = zeroBlock := fun i hi => by
    rw [shiftRight_iterate_eq_low, drain_rootPower i hi, low_zero]
  have hloop : ∀ n ≤ 8, shiftRight^[128] (block
      (forEach n (fun i v => if b.toBitVec.getMsbD i then v ^^^ rootPower i else v) 0)) = zeroBlock := by
    intro n hn
    induction n with
    | zero => rw [forEach_zero, block_zero, shiftRight_iterate_zero]
    | succ n ih =>
      rw [forEach_succ]
      split
      · rw [block_xor, shiftRight_iterate_xorBlock, ih (by omega), hpower n (by omega), xorBlock_zero]
      · exact ih (by omega)
  exact hloop 8 (Nat.le_refl 8)

theorem hashPoly_eq_zero {xs : List (BitVec 128)} (hlen : xs.length < 256) {d : BitVec 128}
    (hroots : ∀ b, GaloisCounter.ghash (d ^^^ root b) xs = 0) : hashPoly xs = 0 := by
  have hkeys : ((List.finRange 256).map fun n => toRing (d ^^^ root (UInt8.ofFin n))).Pairwise
      fun x y => IsUnit (y - x) := by
    rw [List.pairwise_map]
    refine (List.nodup_finRange 256).imp fun {m n} hne => ?_
    rw [toRing_xor, toRing_xor, add_sub_add_left_eq_sub]
    exact isUnit_root_sub fun heq => hne (congrArg UInt8.toFin heq)
  refine eq_zero_of_roots hkeys ?_ ?_
  · rw [List.length_map, List.length_finRange]
    refine lt_of_le_of_lt Polynomial.degree_le_natDegree ?_
    exact_mod_cast lt_of_le_of_lt (natDegree_hashPoly_le xs) hlen
  · rintro _ hx
    obtain ⟨n, -, rfl⟩ := List.mem_map.mp hx
    rw [← toRing_ghash, hroots, toRing_zero]

/-! ### The keys that lead to them -/

/-- Only the last round key is not zero. -/
def maskContext (mask : Block) : Aes256Ctx := { roundKeys := Vector.replicate 224 (0 : UInt8) ++ mask }

theorem maskContext_rk (mask : Block) {r i : Nat} (hi : i < 16) :
    (maskContext mask).rk r i = if r < 14 then 0 else if r = 14 then mask.toList.getD i 0 else 0 := by
  unfold maskContext Aes256Ctx.rk
  dsimp only
  rw [Vector.toList_append, List.getD_eq_getElem?_getD, List.getElem?_append, Vector.length_toList]
  split
  · rename_i hlt
    rw [if_pos (by omega), Vector.getElem?_toList, Vector.getElem?_replicate]
    split <;> rfl
  · rename_i hle
    rw [if_neg (by omega)]
    split
    · rename_i hr
      subst hr
      rw [List.getD_eq_getElem?_getD, show 14 * 16 + i - 224 = i by omega]
    · rw [List.getElem?_eq_none (by rw [Vector.length_toList]; omega)]
      rfl

/-- A round of the cipher. -/
def aesRound (ctx : Aes256Ctx) (k : Nat) (s : Block) : Block :=
  let s := shiftRows (s.map subByte)
  addRoundKey ctx (k + 1) (if k + 1 < 14 then mixColumns s else s)

theorem secAes256EncryptBlock_rounds (ctx : Aes256Ctx) (x : Block) :
    secAes256EncryptBlock ctx x = aesRound ctx 13 (forEach 13 (aesRound ctx) (addRoundKey ctx 0 x)) := by
  unfold secAes256EncryptBlock
  rw [forEach_succ]
  rfl

theorem secAes256EncryptBlock_maskContext (mask x : Block) : secAes256EncryptBlock (maskContext mask) x =
      xorBlock (secAes256EncryptBlock (maskContext zeroBlock) x) mask := by
  have hround : ∀ r < 14, ∀ s, addRoundKey (maskContext mask) r s = addRoundKey (maskContext zeroBlock) r s := by
    intro r hr s
    refine Vector.ext fun i hi => ?_
    unfold addRoundKey
    rw [Vector.getElem_ofFn, Vector.getElem_ofFn, maskContext_rk _ hi, maskContext_rk _ hi, if_pos hr, if_pos hr]
  have hlast : ∀ s, addRoundKey (maskContext mask) 14 s =
      xorBlock (addRoundKey (maskContext zeroBlock) 14 s) mask := by
    intro s
    refine Vector.ext fun i hi => ?_
    rw [getElem_xorBlock]
    unfold addRoundKey
    rw [Vector.getElem_ofFn, Vector.getElem_ofFn, maskContext_rk _ hi, maskContext_rk _ hi, if_neg (by decide),
      if_pos rfl, if_neg (by decide), if_pos rfl, getD_zeroBlock, UInt8.xor_zero, getD_toList _ _ hi]
  have hrun : ∀ s, forEach 13 (aesRound (maskContext mask)) s = forEach 13 (aesRound (maskContext zeroBlock)) s :=
    fun s => forEach_congr fun k hk t => by
      unfold aesRound
      exact hround (k + 1) (by omega) _
  rw [secAes256EncryptBlock_rounds, secAes256EncryptBlock_rounds, hround 0 (by decide), hrun]
  unfold aesRound
  exact hlast _

/-- The key whose hash key in the code is `root b`. -/
def rootContext (b : UInt8) : Aes256Ctx :=
  maskContext (xorBlock (secAes256EncryptBlock (maskContext zeroBlock) hashKeyBlock) (block (root b)))

theorem hashKey_rootContext (b : UInt8) : hashKey (rootContext b) = block (root b) := by
  unfold hashKey rootContext
  rw [secAes256EncryptBlock_maskContext, xorBlock_cancel]

theorem cipher_rootContext_zero : ∃ d, ∀ b, cipher (rootContext b) 0 = d ^^^ root b := by
  refine ⟨bits (secAes256EncryptBlock (maskContext zeroBlock) zeroBlock) ^^^
    bits (secAes256EncryptBlock (maskContext zeroBlock) hashKeyBlock), fun b => ?_⟩
  unfold cipher rootContext
  rw [block_zero, secAes256EncryptBlock_maskContext, bits_xorBlock, bits_xorBlock, bits_block, BitVec.xor_assoc]

theorem gcmStandard_snd (ctx : Aes256Ctx) (iv : Vector UInt8 12) (aad : List UInt8) :
    bits (gcmStandard ctx iv [] aad).2 =
      GaloisCounter.ghash (cipher ctx 0) (toBlocks (hashInput aad [])) ^^^ cipher ctx (firstCounter (nonceBits iv)) :=
  bits_block _

theorem messageTag_of_cleared {frame : Nat → UInt8} {ctx : Aes256Ctx} {iv : Vector UInt8 12} {aad : List UInt8}
    (hclear : shiftRight^[128] (hashKey ctx) = zeroBlock) (hpos : 0 < aad.length) :
    messageTag frame ctx iv aad [] = secAes256EncryptBlock ctx (counterBlock iv) := by
  unfold messageTag tagOf
  dsimp only
  rw [ghash_of_cleared hclear, zero_xorBlock]
  unfold align16
  rw [List.length_nil]
  omega

theorem not_gcmConforms_of_blocks {aad : List UInt8} (hfit : aad.length ≤ 4064) (hdvd : 16 ∣ aad.length)
    (hne : aad ≠ []) : ¬ GcmConforms [] aad := by
  intro h
  have hpos : 0 < aad.length := List.length_pos_of_ne_nil hne
  obtain ⟨d, hd⟩ := cipher_rootContext_zero
  have hzero : ∀ b, GaloisCounter.ghash (d ^^^ root b) (toBlocks (hashInput aad [])) = 0 := by
    intro b
    have hout := h (fun _ => 0) (rootContext b) (Vector.replicate 12 0)
    rw [gcmEncrypt_eq (by simpa using hfit)] at hout
    have htag := congrArg (fun r : List UInt8 × Block => bits r.2) (Option.some.inj hout)
    rw [gcmStandard_snd, hd, cipher_firstCounter] at htag
    have hct : aes256Ctr (rootContext b) (Vector.replicate 12 0) [] = [] :=
      List.eq_nil_of_length_eq_zero (length_aes256Ctr _ _ (by decide))
    rw [hct, messageTag_of_cleared (by rw [hashKey_rootContext]; exact root_cleared b) hpos] at htag
    exact (BitVec.xor_left_inj _).mp (htag.symm.trans BitVec.zero_xor.symm)
  -- 256 roots, and at most 255 blocks
  have hpoly : hashPoly (toBlocks (hashInput aad [])) = 0 := by
    refine hashPoly_eq_zero ?_ hzero
    rw [toBlocks_hashInput hdvd, List.length_append, List.length_singleton]
    unfold toBlocks blocks
    rw [List.length_map, List.length_map, List.length_range]
    omega
  -- but the block with the lengths is one of its coefficients
  rw [toBlocks_hashInput hdvd] at hpoly
  have hcoeff := coeff_hashPoly_concat (toBlocks aad)
    (ofBytes (bigEndian 8 (8 * aad.length) ++ bigEndian 8 0))
  rw [hpoly, Polynomial.coeff_zero] at hcoeff
  exact lengthBlock_ne_zero (by omega) (by omega) (toRing_eq_zero hcoeff.symm)

end Chicago95.Stage2.Aes
