/-
# Chicago95.Stage2.Gcm — when AES-256-GCM of `security/common/aes/aes256.c` gives back what it was given.

Both functions put the additional data, the ciphertext and the lengths together in an array of 4096 bytes,
each part on a multiple of 16. The bytes that are skipped are not written, so that they are what the stack
held, and they are hashed: with a length that is not a multiple of 16, the tag of the same message is
another one from call to call (`gcm_roundTrip_iff`). The one exception is a key whose hash key is cleared
by 128 shifts, where every tag is the encryption of the first counter block.
-/
import Chicago95.Stage2.Ghash

namespace Chicago95.Stage2.Aes

open Chicago95.Lib.Keystream Chicago95.Lib.Loop

/-! ## Counter mode -/

section CounterMode

variable {ctx : Aes256Ctx}

theorem ctr_blocks_enough {n : Nat} (hn : n + 15 < 2 ^ 32) : n ≤ 16 * ((n + 15) % 2 ^ 32 / 16) := by
  rw [Nat.mod_eq_of_lt hn]
  omega

theorem length_aes256Ctr (nonce : Vector UInt8 12) (input : List UInt8) (hlen : input.length + 15 < 2 ^ 32) :
    (aes256Ctr ctx nonce input).length = input.length := by
  unfold aes256Ctr
  rw [length_mask fun counter => Vector.length_toList]
  exact Nat.min_eq_left (ctr_blocks_enough hlen)

theorem aes256Ctr_involutive (nonce : Vector UInt8 12) (input : List UInt8)
    (hlen : input.length + 15 < 2 ^ 32) : aes256Ctr ctx nonce (aes256Ctr ctx nonce input) = input := by
  have hout : (aes256Ctr ctx nonce input).length = input.length := length_aes256Ctr nonce input hlen
  unfold aes256Ctr at hout ⊢
  rw [hout]
  exact mask_involutive (by omega) (fun counter => Vector.length_toList) _ _ _ (ctr_blocks_enough hlen)

end CounterMode

/-! ## Comparing the tags -/

theorem foldl_or_eq_zero (xs : List UInt8) (acc : UInt8) : xs.foldl (· ||| ·) acc = 0 ↔ acc = 0 ∧ ∀ x ∈ xs, x = 0 := by
  induction xs generalizing acc with
  | nil => simp
  | cons x xs ih =>
    have hor : acc ||| x = 0 ↔ acc = 0 ∧ x = 0 := by
      rw [← UInt8.toNat_inj, UInt8.toNat_or, ← UInt8.toNat_inj, ← UInt8.toNat_inj]
      exact Nat.or_eq_zero_iff
    rw [List.foldl_cons, ih, hor, List.forall_mem_cons, and_assoc]

theorem tagDiff_eq_zero_iff (tag computed : Block) : tagDiff tag computed = 0 ↔ tag = computed := by
  unfold tagDiff
  rw [foldl_or_eq_zero]
  constructor
  · rintro ⟨-, hall⟩
    have hzero : xorBlock tag computed = zeroBlock := by
      refine Vector.ext fun i hi => ?_
      rw [Vector.getElem_replicate]
      exact hall _ (Vector.mem_toList_iff.mpr (Vector.getElem_mem hi))
    have hsame : xorBlock tag computed = xorBlock computed computed := by rw [hzero, xorBlock_self]
    exact xorBlock_left_inj.mp hsame
  · rintro rfl
    refine ⟨rfl, fun x hx => ?_⟩
    rw [xorBlock_self, Vector.mem_toList_iff] at hx
    exact Vector.eq_of_mem_replicate hx

/-! ## What is hashed -/

/-- The array with the three parts in it. -/
def assembled (frame : Nat → UInt8) (aad ciphertext : List UInt8) : Nat → UInt8 :=
  store (store (store frame 0 aad) (align16 aad.length) ciphertext)
    (align16 (align16 aad.length + ciphertext.length)) (lengthBytes aad.length ++ lengthBytes ciphertext.length)

theorem length_lengthBytes (n : Nat) : (lengthBytes n).length = 8 := by
  unfold lengthBytes
  rw [List.length_map, List.length_range]

variable {frame frame' : Nat → UInt8} {aad ciphertext : List UInt8}

theorem ghashInput_eq (hfit : align16 (align16 aad.length + ciphertext.length) + 16 ≤ ghashInputSize) :
    ghashInput frame aad ciphertext ciphertext.length =
      some (assembled frame aad ciphertext, align16 (align16 aad.length + ciphertext.length) + 16) := by
  have ha : aad.length ≤ align16 aad.length := by
    unfold align16
    omega
  have hc : align16 aad.length + ciphertext.length ≤ align16 (align16 aad.length + ciphertext.length) := by
    generalize align16 aad.length + ciphertext.length = n
    unfold align16
    omega
  unfold ghashInput
  -- the three checks
  rw [if_neg (by omega)]
  dsimp only
  rw [if_neg (by omega), if_neg (by omega), List.take_length]
  rfl

theorem ghashInput_eq_none {len : Nat} (hlong : ghashInputSize < aad.length + len) :
    ghashInput frame aad ciphertext len = none := by
  have ha : aad.length ≤ align16 aad.length := by
    unfold align16
    omega
  unfold ghashInput
  split
  · rfl
  · dsimp only
    rw [if_pos (by omega)]

theorem assembled_gap {i : Nat} (haad : aad.length ≤ i)
    (hct : i < align16 aad.length ∨ align16 aad.length + ciphertext.length ≤ i)
    (hend : i < align16 (align16 aad.length + ciphertext.length)) : assembled frame aad ciphertext i = frame i := by
  unfold assembled store
  rw [if_neg (by omega), if_neg (by omega), if_neg (by omega)]

theorem assembled_congr {i : Nat} (h : frame' i = frame i ∨ i < aad.length ∨
    (align16 aad.length ≤ i ∧ i < align16 aad.length + ciphertext.length) ∨
    (align16 (align16 aad.length + ciphertext.length) ≤ i ∧
      i < align16 (align16 aad.length + ciphertext.length) + 16)) :
    assembled frame' aad ciphertext i = assembled frame aad ciphertext i := by
  have hlen : (lengthBytes aad.length ++ lengthBytes ciphertext.length).length = 16 := by
    rw [List.length_append, length_lengthBytes, length_lengthBytes]
  unfold assembled store
  rw [hlen]
  split
  · rfl
  · rename_i hnotLengths
    split
    · rfl
    · rename_i hnotCiphertext
      split
      · rfl
      · rename_i hnotAad
        rcases h with h | h | h | h
        · exact h
        · exact absurd ⟨Nat.zero_le i, by omega⟩ hnotAad
        · exact absurd h hnotCiphertext
        · exact absurd h hnotLengths

/-! ## The two functions -/

variable {ctx : Aes256Ctx} {iv : Vector UInt8 12} {plaintext : List UInt8}

/-- Where the tag of a message that fits comes from. -/
def messageTag (frame : Nat → UInt8) (ctx : Aes256Ctx) (iv : Vector UInt8 12) (aad ciphertext : List UInt8) :
    Block :=
  tagOf ctx iv (assembled frame aad ciphertext, align16 (align16 aad.length + ciphertext.length) + 16)

theorem align16_fits {a n : Nat} (hfit : a + n ≤ 4064) : align16 (align16 a + n) + 16 ≤ ghashInputSize := by
  unfold align16 ghashInputSize
  omega

theorem gcmEncrypt_eq (hfit : aad.length + plaintext.length ≤ 4064) : secAes256GcmEncrypt frame ctx plaintext iv aad =
      some (aes256Ctr ctx iv plaintext, messageTag frame ctx iv aad (aes256Ctr ctx iv plaintext)) := by
  have hct : (aes256Ctr ctx iv plaintext).length = plaintext.length := length_aes256Ctr _ _ (by omega)
  unfold secAes256GcmEncrypt
  dsimp only
  rw [if_neg (by unfold ghashInputSize; omega), ← hct,
    ghashInput_eq (align16_fits (by rw [hct]; exact hfit))]
  rfl

theorem gcmEncrypt_eq_none (hlong : 4064 < aad.length + plaintext.length) :
    secAes256GcmEncrypt frame ctx plaintext iv aad = none := by
  unfold secAes256GcmEncrypt
  dsimp only
  split
  · rfl
  · rename_i hsize
    -- the sum of the lengths has wrapped, so that one of them is past the array
    unfold ghashInputSize at hsize
    have hwrap : 2 ^ 32 ≤ aad.length + plaintext.length + 16 + 16 := by
      by_contra hlt
      rw [Nat.mod_eq_of_lt (by omega)] at hsize
      omega
    rw [ghashInput_eq_none (by unfold ghashInputSize; omega)]
    rfl

theorem gcmDecrypt_eq (buffer : List UInt8) (tag : Block) (hfit : aad.length + ciphertext.length ≤ 4064) :
    secAes256GcmDecrypt frame ctx ciphertext buffer iv aad tag = if tag = messageTag frame ctx iv aad ciphertext then
        some (secOk, aes256Ctr ctx iv ciphertext ++ buffer.drop ciphertext.length)
      else some (secErrCrypto, buffer) := by
  unfold secAes256GcmDecrypt
  rw [ghashInput_eq (align16_fits hfit), Option.map_some]
  dsimp only
  rw [length_aes256Ctr _ _ (by omega)]
  show some (if tagDiff tag (messageTag frame ctx iv aad ciphertext) ≠ 0 then _ else _) = _
  by_cases htag : tag = messageTag frame ctx iv aad ciphertext
  · rw [if_neg (not_not_intro ((tagDiff_eq_zero_iff _ _).mpr htag)), if_pos htag]
  · rw [if_pos fun h => htag ((tagDiff_eq_zero_iff _ _).mp h), if_neg htag]

/-! ## The round trip -/

/-- What encryption gives and decryption makes of it, whatever the stack and the buffer held. -/
structure Authenticates (ctx : Aes256Ctx) (iv : Vector UInt8 12) (plaintext aad ciphertext : List UInt8)
    (tag : Block) : Prop where
  encrypts : ∀ frame, secAes256GcmEncrypt frame ctx plaintext iv aad = some (ciphertext, tag)
  decrypts : ∀ frame buffer, secAes256GcmDecrypt frame ctx ciphertext buffer iv aad tag =
    some (secOk, plaintext ++ buffer.drop plaintext.length)
  refuses : ∀ frame buffer tag', tag' ≠ tag →
    secAes256GcmDecrypt frame ctx ciphertext buffer iv aad tag' = some (secErrCrypto, buffer)

/-- The ciphertext and the tag are determined, the tag is accepted, and no other one is. -/
def RoundTrip (ctx : Aes256Ctx) (iv : Vector UInt8 12) (plaintext aad : List UInt8) : Prop :=
  ∃ ciphertext tag, Authenticates ctx iv plaintext aad ciphertext tag

theorem roundTrip_of_messageTag (hfit : aad.length + plaintext.length ≤ 4064)
    (htag : ∀ frame frame', messageTag frame' ctx iv aad (aes256Ctr ctx iv plaintext) =
      messageTag frame ctx iv aad (aes256Ctr ctx iv plaintext)) : RoundTrip ctx iv plaintext aad := by
  have hct : (aes256Ctr ctx iv plaintext).length = plaintext.length := length_aes256Ctr _ _ (by omega)
  have hfit' : aad.length + (aes256Ctr ctx iv plaintext).length ≤ 4064 := by rw [hct]; exact hfit
  refine ⟨aes256Ctr ctx iv plaintext, messageTag (fun _ => 0) ctx iv aad (aes256Ctr ctx iv plaintext),
    ?_, ?_, ?_⟩
  · intro frame
    rw [gcmEncrypt_eq hfit, htag (fun _ => 0) frame]
  · intro frame buffer
    rw [gcmDecrypt_eq _ _ hfit', if_pos (htag frame _), aes256Ctr_involutive _ _ (by omega), hct]
  · intro frame buffer tag' hne
    rw [gcmDecrypt_eq _ _ hfit', if_neg fun h => hne (h.trans (htag _ _))]

/-- A skipped byte at the end of a block of what is hashed. -/
def Gap (a n k : Nat) : Prop :=
  a ≤ 16 * k + 15 ∧ (16 * k + 15 < align16 a ∨ align16 a + n ≤ 16 * k + 15) ∧
    16 * k + 15 < align16 (align16 a + n)

theorem exists_gap {a n : Nat} (h : ¬ (16 ∣ a ∧ 16 ∣ n)) : ∃ k, Gap a n k := by
  unfold Gap align16
  by_cases ha : 16 ∣ a
  · refine ⟨(a + n) / 16, ?_⟩
    have hn : ¬ 16 ∣ n := fun hn => h ⟨ha, hn⟩
    omega
  · exact ⟨a / 16, by omega⟩

theorem messageTag_ne_of_gap {k : Nat} (hgap : Gap aad.length ciphertext.length k)
    (hkey : shiftRight^[128] (hashKey ctx) ≠ zeroBlock) :
    messageTag (fun i => if i = 16 * k + 15 then 0x80 else 0) ctx iv aad ciphertext ≠
      messageTag (fun _ => 0) ctx iv aad ciphertext := by
  obtain ⟨haad, hct, hend⟩ := hgap
  -- the two frames differ in the skipped byte only
  have hflip : Flips (assembled (fun _ => 0) aad ciphertext)
      (assembled (fun i => if i = 16 * k + 15 then 0x80 else 0) aad ciphertext) k := by
    constructor
    · rw [assembled_gap haad hct hend, assembled_gap haad hct hend, if_pos rfl]
      rfl
    · intro i hne
      exact assembled_congr (Or.inl (if_neg hne))
  intro hsame
  exact ghash_ne_of_flip hflip (by omega) hkey (xorBlock_left_inj.mp hsame)

theorem cleared_of_roundTrip (hgap : ¬ (16 ∣ aad.length ∧ 16 ∣ plaintext.length))
    (hfit : aad.length + plaintext.length ≤ 4064) (h : RoundTrip ctx iv plaintext aad) :
    shiftRight^[128] (hashKey ctx) = zeroBlock := by
  obtain ⟨ciphertext, tag, h⟩ := h
  have hct : (aes256Ctr ctx iv plaintext).length = plaintext.length := length_aes256Ctr _ _ (by omega)
  have hboth : ∀ frame, messageTag frame ctx iv aad (aes256Ctr ctx iv plaintext) = tag := by
    intro frame
    have henc := h.encrypts frame
    rw [gcmEncrypt_eq hfit] at henc
    exact congrArg Prod.snd (Option.some.inj henc)
  rw [← hct] at hgap
  obtain ⟨k, hk⟩ := exists_gap hgap
  -- both tags would be the one that encryption determines
  by_contra hkey
  exact messageTag_ne_of_gap hk hkey ((hboth _).trans (hboth _).symm)

/-- **When the round trip holds**: the data fits, and either no byte is skipped or the key is cleared. -/
theorem gcm_roundTrip_iff (ctx : Aes256Ctx) (iv : Vector UInt8 12) (plaintext aad : List UInt8) :
    RoundTrip ctx iv plaintext aad ↔ aad.length + plaintext.length ≤ 4064 ∧
        (16 ∣ aad.length ∧ 16 ∣ plaintext.length ∨ shiftRight^[128] (hashKey ctx) = zeroBlock) := by
  constructor
  · intro h
    have hfit : aad.length + plaintext.length ≤ 4064 := by
      by_contra hlong
      obtain ⟨ciphertext, tag, h⟩ := h
      have henc := h.encrypts fun _ => 0
      rw [gcmEncrypt_eq_none (Nat.lt_of_not_le hlong)] at henc
      cases henc
    refine ⟨hfit, ?_⟩
    by_cases hgap : 16 ∣ aad.length ∧ 16 ∣ plaintext.length
    · exact Or.inl hgap
    · exact Or.inr (cleared_of_roundTrip hgap hfit h)
  · rintro ⟨hfit, hwhole | hkey⟩
    · -- every byte below the length is written
      have hct : (aes256Ctr ctx iv plaintext).length = plaintext.length := length_aes256Ctr _ _ (by omega)
      refine roundTrip_of_messageTag hfit fun frame frame' => ?_
      unfold messageTag tagOf
      refine congrArg₂ xorBlock (ghash_congr fun i hi => assembled_congr ?_) rfl
      rw [hct] at hi ⊢
      unfold align16 at hi ⊢
      omega
    · refine roundTrip_of_messageTag hfit fun frame frame' => ?_
      by_cases hnone : align16 (align16 aad.length + (aes256Ctr ctx iv plaintext).length) = 0
      · -- nothing but the lengths
        unfold messageTag tagOf
        refine congrArg₂ xorBlock (ghash_congr fun i hi => assembled_congr ?_) rfl
        rw [hnone] at hi ⊢
        omega
      · unfold messageTag tagOf
        dsimp only
        -- there is a second block, the one with the lengths
        rw [ghash_of_cleared hkey (by omega), ghash_of_cleared hkey (by omega)]

/-- A context in which the hash key is `low 1`. -/
def unitContext : Aes256Ctx :=
  { roundKeys := Vector.replicate 224 (0 : UInt8) ++
      #v[(95 : UInt8), 155, 245, 97, 106, 94, 83, 204, 143, 113, 202, 229, 238, 189, 60, 31] }

/-- A pass of the loop over the rounds. -/
def encryptPass (ctx : Aes256Ctx) (k : Nat) (s : Block) : Block :=
  addRoundKey ctx (k + 1) (if k + 1 < 14 then mixColumns (shiftRows (s.map subByte)) else shiftRows (s.map subByte))

/-- The rounds in two halves. -/
theorem secAes256EncryptBlock_halves (ctx : Aes256Ctx) (input : Block) : secAes256EncryptBlock ctx input =
      forEach 7 (fun k => encryptPass ctx (7 + k)) (forEach 7 (encryptPass ctx) (addRoundKey ctx 0 input)) :=
  forEach_add 7 7 (encryptPass ctx) (addRoundKey ctx 0 input)

/-- A run of the cipher, with the block between the halves. -/
structure EncryptRun (ctx : Aes256Ctx) (input : Block) where
  middle : Block
  output : Block
  first_half : forEach 7 (encryptPass ctx) (addRoundKey ctx 0 input) = middle
  second_half : forEach 7 (fun k => encryptPass ctx (7 + k)) middle = output

theorem EncryptRun.encrypt_eq {ctx : Aes256Ctx} {input : Block} (r : EncryptRun ctx input) :
    secAes256EncryptBlock ctx input = r.output := by
  rw [secAes256EncryptBlock_halves, r.first_half, r.second_half]

def unitKeyRun : EncryptRun unitContext hashKeyBlock where
  middle := #v[178, 47, 248, 174, 127, 188, 44, 98, 143, 177, 135, 7, 39, 51, 67, 174]
  output := low 1
  first_half := by decide +kernel
  second_half := by decide +kernel

theorem hashKey_unitContext : hashKey unitContext = low 1 := unitKeyRun.encrypt_eq

/-- One byte, no additional data: the tag is not determined. -/
theorem gcm_oneByte : ¬ RoundTrip unitContext (Vector.replicate 12 0) [0] [] := by
  intro h
  have hcleared := cleared_of_roundTrip (by decide) (by decide) h
  rw [hashKey_unitContext, shiftRight_iterate_of_low] at hcleared
  exact low_ne_zero (step_iterate_ne_zero (by decide) 128) hcleared

end Chicago95.Stage2.Aes
