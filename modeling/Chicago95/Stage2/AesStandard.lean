/-
# Chicago95.Stage2.AesStandard — AES-256 of `security/common/aes/aes256.c` against FIPS 197.

The block function is the cipher of the standard, for whatever round keys it is given
(`secAes256EncryptBlock_eq`).
-/
import Chicago95.Lib.Rijndael
import Chicago95.Stage2.AesBlock

namespace Chicago95.Stage2.Aes

open Chicago95.Lib Chicago95.Lib.Loop

/-! ## The cipher -/

theorem sbox_eq : sbox = (List.range 256).map fun n => Rijndael.sbox (UInt8.ofNat n) := by decide +kernel

theorem subByte_eq (b : UInt8) : subByte b = Rijndael.sbox b := by
  unfold subByte
  rw [sbox_eq, List.getD_eq_getElem?_getD, List.getElem?_map, List.getElem?_range b.toNat_lt,
    Option.map_some, UInt8.ofNat_toNat]
  rfl

example : Rijndael.sbox 0x53 = 0xed := by decide +kernel

theorem gfmul_two_eq (b : UInt8) : gfmul b 2 = Rijndael.mul 2 b := by
  have hall : ∀ x : UInt8, gfmul x 2 = Rijndael.mul 2 x := forall_byte (by decide +kernel)
  exact hall b

theorem gfmul_three_eq (b : UInt8) : gfmul b 3 = Rijndael.mul 3 b := by
  have hall : ∀ x : UInt8, gfmul x 3 = Rijndael.mul 3 x := forall_byte (by decide +kernel)
  exact hall b

theorem mul_one_eq (b : UInt8) : Rijndael.mul 1 b = b := by
  have hall : ∀ x : UInt8, Rijndael.mul 1 x = x := forall_byte (by decide +kernel)
  exact hall b

theorem shiftRows_eq (s : Block) : shiftRows s = Rijndael.shiftRows s := by
  refine Vector.ext fun i hi => ?_
  unfold Rijndael.shiftRows Rijndael.State.at
  have hplace : i % 4 + 4 * ((i / 4 + i % 4) % 4) = (i + i % 4 * 4) % 16 := by omega
  rw [getElem_shiftRows, Vector.getElem_ofFn]
  dsimp only
  rw [hplace, getD_toList _ _ (Nat.mod_lt _ (by omega))]

theorem mixByte_eq (a : Nat → UInt8) {r : Nat} (hr : r < 4) :
    mixByte a r = (List.range 4).foldl (fun b k => b ^^^ Rijndael.mul (Rijndael.mixEntry r k) (a k)) 0 := by
  unfold mixByte Rijndael.mixEntry
  rcases (show r = 0 ∨ r = 1 ∨ r = 2 ∨ r = 3 by omega) with rfl | rfl | rfl | rfl <;>
    simp [List.range_succ, gfmul_two_eq, gfmul_three_eq, mul_one_eq]

theorem mixColumns_eq (s : Block) : mixColumns s = Rijndael.mixColumns s := by
  refine Vector.ext fun i hi => ?_
  unfold Rijndael.mixColumns Rijndael.State.at
  rw [getElem_mixColumns, Vector.getElem_ofFn, mixByte_eq _ (Nat.mod_lt _ (by decide))]
  simp only [Nat.mul_comm (i / 4) 4, Nat.add_comm (4 * (i / 4))]

/-- Word `i` of the round keys. -/
def Aes256Ctx.word (ctx : Aes256Ctx) (i : Nat) : Rijndael.Word :=
  Vector.ofFn fun j => ctx.roundKeys.toList.getD (4 * i + j) 0

theorem Aes256Ctx.getElem_word (ctx : Aes256Ctx) (i j : Nat) (hj : j < 4) :
    (ctx.word i)[j] = ctx.roundKeys.toList.getD (4 * i + j) 0 := by
  unfold Aes256Ctx.word
  rw [Vector.getElem_ofFn]

theorem getD_word_toList (x : Rijndael.Word) (j : Nat) (hj : j < 4) : x.toList.getD j 0 = x[j] := by
  rw [List.getD_eq_getElem?_getD, List.getElem?_eq_getElem (by rw [Vector.length_toList]; exact hj),
    Option.getD_some, Vector.getElem_toList]

theorem addRoundKey_eq (ctx : Aes256Ctx) (round : Nat) (s : Block) :
    addRoundKey ctx round s = Rijndael.addRoundKey ctx.word round s := by
  refine Vector.ext fun i hi => ?_
  have hj : i % 4 < 4 := Nat.mod_lt _ (by decide)
  have hplace : round * 16 + i = 4 * (4 * round + i / 4) + i % 4 := by omega
  unfold addRoundKey Rijndael.addRoundKey Aes256Ctx.rk
  rw [Vector.getElem_ofFn, Vector.getElem_ofFn, getD_word_toList _ _ hj, Aes256Ctx.getElem_word _ _ _ hj,
    hplace]

theorem subBytes_eq (s : Block) : s.map subByte = Rijndael.subBytes s := by
  refine Vector.ext fun i hi => ?_
  unfold Rijndael.subBytes
  rw [Vector.getElem_map, Vector.getElem_map, subByte_eq]

/-- **The cipher** is that of the standard, with the round keys it is given. -/
theorem secAes256EncryptBlock_eq (ctx : Aes256Ctx) (input : Block) :
    secAes256EncryptBlock ctx input = Rijndael.cipher ctx.word 14 input := by
  -- the rounds that mix the columns
  have hrounds : ∀ n ≤ 13, forEach n (fun k s => addRoundKey ctx (k + 1)
        (if k + 1 < 14 then mixColumns (shiftRows (s.map subByte)) else shiftRows (s.map subByte)))
      (addRoundKey ctx 0 input) =
      forEach n (fun k s => Rijndael.addRoundKey ctx.word (k + 1)
        (Rijndael.mixColumns (Rijndael.shiftRows (Rijndael.subBytes s))))
      (Rijndael.addRoundKey ctx.word 0 input) := by
    intro n hn
    induction n with
    | zero => rw [forEach_zero, forEach_zero, addRoundKey_eq]
    | succ n ih =>
      rw [forEach_succ, forEach_succ, ih (by omega), if_pos (by omega), addRoundKey_eq, mixColumns_eq,
        shiftRows_eq, subBytes_eq]
  have hall := hrounds 13 (Nat.le_refl _)
  unfold secAes256EncryptBlock Rijndael.cipher
  dsimp only
  rw [forEach_succ, hall, if_neg (by omega), addRoundKey_eq, shiftRows_eq, subBytes_eq]
  rfl

/-! ## The key schedule -/

/-- What the code XORs word `i - 4` with, where `x` is word `i - 1`. -/
def expandTemp (behind : Nat → UInt8) (i : Nat) (x : Rijndael.Word) : Rijndael.Word :=
  if i % 4 = 0 then
    Rijndael.xorWord (Rijndael.subWord (Rijndael.rotWord x)) #v[rcon behind (i / 4 - 1), 0, 0, 0]
  else x

/-- A pass of the loop that expands the key. -/
def expandPass (behind : Nat → UInt8) (k : Nat) (keys : Vector UInt8 240) : Vector UInt8 240 :=
  let byte := fun (keys : Vector UInt8 240) (n : Nat) => keys.toList.getD n 0
  let i := k + 4
  let temp := fun j => byte keys ((i - 1) * 4 + j)
  let temp := if i % 4 = 0 then
      fun j => if j = 0 then subByte (temp 1) ^^^ rcon behind (i / 4 - 1) else subByte (temp ((j + 1) % 4))
    else temp
  forEach 4 (fun j keys => keys.setIfInBounds (i * 4 + j) (byte keys ((i - 4) * 4 + j) ^^^ temp j)) keys

/-- What the first loop makes of what the context held. -/
def firstWords (stale : Vector UInt8 240) (key : List UInt8) : Vector UInt8 240 :=
  forEach 16 (fun n keys => keys.setIfInBounds (n / 4 * 16 + n % 4) (key.getD n 0)) stale

theorem secAes256Init_eq (behind : Nat → UInt8) (stale : Vector UInt8 240) (key : List UInt8) :
    secAes256Init behind stale key = { roundKeys := forEach 56 (expandPass behind) (firstWords stale key) } :=
  rfl

theorem getD_setIfInBounds (keys : Vector UInt8 240) {p : Nat} (hp : p < 240) (x : UInt8) (n : Nat) :
    (keys.setIfInBounds p x).toList.getD n 0 = if p = n then x else keys.toList.getD n 0 := by
  rw [Vector.toList_setIfInBounds, List.getD_eq_getElem?_getD, List.getElem?_set, Vector.length_toList,
    List.getD_eq_getElem?_getD, if_pos hp]
  split
  · rfl
  · rfl

theorem getElem_xorWord (x y : Rijndael.Word) (j : Nat) (hj : j < 4) : (Rijndael.xorWord x y)[j] = x[j] ^^^ y[j] := by
  unfold Rijndael.xorWord
  rw [Vector.getElem_zipWith]

theorem getElem_expandTemp (behind : Nat → UInt8) (i : Nat) (x : Rijndael.Word) (j : Nat) (hj : j < 4) :
    (expandTemp behind i x)[j] = if i % 4 = 0 then if j = 0 then subByte (x.toList.getD 1 0) ^^^ rcon behind (i / 4 - 1)
        else subByte (x.toList.getD ((j + 1) % 4) 0) else x[j] := by
  unfold expandTemp
  split
  · rw [getElem_xorWord _ _ _ hj]
    unfold Rijndael.subWord Rijndael.rotWord
    rw [Vector.getElem_map, subByte_eq, subByte_eq]
    rcases (show j = 0 ∨ j = 1 ∨ j = 2 ∨ j = 3 by omega) with rfl | rfl | rfl | rfl
    · rfl
    · exact UInt8.xor_zero
    · exact UInt8.xor_zero
    · exact UInt8.xor_zero
  · rfl

theorem getD_writeWord {k : Nat} (hk : k < 56) (keys : Vector UInt8 240) (temp : Nat → UInt8) {m : Nat}
    (hm : m ≤ 4) (n : Nat) : (forEach m (fun j (ks : Vector UInt8 240) => ks.setIfInBounds ((k + 4) * 4 + j)
      (ks.toList.getD ((k + 4 - 4) * 4 + j) 0 ^^^ temp j)) keys).toList.getD n 0 =
      if (k + 4) * 4 ≤ n ∧ n < (k + 4) * 4 + m then keys.toList.getD (n - 16) 0 ^^^ temp (n - (k + 4) * 4)
      else keys.toList.getD n 0 := by
  induction m generalizing n with
  | zero => rw [forEach_zero, if_neg (by omega)]
  | succ m ih =>
    have ih := fun n => ih (by omega) n
    rw [forEach_succ, getD_setIfInBounds _ (by omega)]
    by_cases hn : (k + 4) * 4 + m = n
    · -- what it reads has not been written
      rw [if_pos hn, ih, if_neg (by omega), if_pos (by omega), show (k + 4 - 4) * 4 + m = n - 16 by omega,
        show n - (k + 4) * 4 = m by omega]
    · rw [if_neg hn, ih]
      exact if_congr (by omega) rfl rfl

theorem word_expandPass (behind : Nat → UInt8) {k : Nat} (hk : k < 56) (keys : Vector UInt8 240) (i : Nat) :
    (Aes256Ctx.mk (expandPass behind k keys)).word i = if i = k + 4 then Rijndael.xorWord ((Aes256Ctx.mk keys).word k)
        (expandTemp behind (k + 4) ((Aes256Ctx.mk keys).word (k + 3))) else (Aes256Ctx.mk keys).word i := by
  have hword : ∀ i j, j < 4 → ((Aes256Ctx.mk keys).word i).toList.getD j 0 = keys.toList.getD (4 * i + j) 0 := by
    intro i j hj
    rw [getD_word_toList _ _ hj, Aes256Ctx.getElem_word _ _ _ hj]
  refine Vector.ext fun j hj => ?_
  rw [Aes256Ctx.getElem_word _ _ _ hj]
  unfold expandPass
  dsimp only
  rw [getD_writeWord hk _ _ (Nat.le_refl _)]
  by_cases hi : i = k + 4
  · subst hi
    simp only [if_true]
    rw [if_pos (by omega), getElem_xorWord _ _ _ hj, Aes256Ctx.getElem_word _ _ _ hj,
      getElem_expandTemp _ _ _ _ hj, hword _ _ (by decide), hword _ _ (Nat.mod_lt _ (by decide)),
      Aes256Ctx.getElem_word _ _ _ hj, show 4 * (k + 4) + j - 16 = 4 * k + j by omega,
      show 4 * (k + 4) + j - (k + 4) * 4 = j by omega, show (k + 4 - 1) * 4 = 4 * (k + 3) by omega]
    split
    · rfl
    · rfl
  · simp only [if_neg hi]
    rw [if_neg (by omega), Aes256Ctx.getElem_word _ _ _ hj]

theorem word_firstWords (stale : Vector UInt8 240) (key : List UInt8) {i : Nat} (hi : i < 4) :
    (Aes256Ctx.mk (firstWords stale key)).word i =
      if i = 0 then Rijndael.keyWord key 0 else (Aes256Ctx.mk stale).word i := by
  have hloop : ∀ m ≤ 16, ∀ n < 16,
      (forEach m (fun n keys => keys.setIfInBounds (n / 4 * 16 + n % 4) (key.getD n 0)) stale).toList.getD n 0 =
        if n < 4 ∧ n < m then key.getD n 0 else stale.toList.getD n 0 := by
    intro m hm n hn
    induction m with
    | zero => rw [forEach_zero, if_neg (by omega)]
    | succ m ih =>
      rw [forEach_succ, getD_setIfInBounds _ (by omega), ih (by omega)]
      by_cases hput : m / 4 * 16 + m % 4 = n
      · rw [if_pos hput, if_pos (by omega), show m = n by omega]
      · rw [if_neg hput]
        exact if_congr (by omega) rfl rfl
  refine Vector.ext fun j hj => ?_
  rw [Aes256Ctx.getElem_word _ _ _ hj]
  unfold firstWords
  rw [hloop 16 (Nat.le_refl _) _ (by omega)]
  split
  · have h0 : i = 0 := by omega
    subst h0
    simp only [if_true]
    unfold Rijndael.keyWord
    rw [Vector.getElem_ofFn]
  · have h0 : i ≠ 0 := by omega
    simp only [if_neg h0]
    rw [Aes256Ctx.getElem_word _ _ _ hj]

section Expansion

variable (behind : Nat → UInt8) (stale : Vector UInt8 240) (key : List UInt8)

theorem word_secAes256Init : (∀ i < 4, (secAes256Init behind stale key).word i =
      if i = 0 then Rijndael.keyWord key 0 else (Aes256Ctx.mk stale).word i) ∧
    ∀ k < 56, (secAes256Init behind stale key).word (k + 4) = Rijndael.xorWord ((secAes256Init behind stale key).word k)
        (expandTemp behind (k + 4) ((secAes256Init behind stale key).word (k + 3))) := by
  have hinv := forEach_induction
    (P := fun m keys => m ≤ 56 →
      (∀ i < 4, (Aes256Ctx.mk keys).word i =
        if i = 0 then Rijndael.keyWord key 0 else (Aes256Ctx.mk stale).word i) ∧
      ∀ k < m, (Aes256Ctx.mk keys).word (k + 4) = Rijndael.xorWord ((Aes256Ctx.mk keys).word k)
        (expandTemp behind (k + 4) ((Aes256Ctx.mk keys).word (k + 3))))
    (f := expandPass behind) (n := 56) (s := firstWords stale key)
    (fun _ => ⟨fun i hi => word_firstWords stale key hi, fun k hk => absurd hk (Nat.not_lt_zero k)⟩)
    (fun m keys hm ih _ => by
      obtain ⟨hfirst, hrec⟩ := ih (by omega)
      -- a pass leaves all words but its own
      have hword := word_expandPass behind hm keys
      refine ⟨fun i hi => ?_, fun k hk => ?_⟩
      · rw [hword, if_neg (by omega), hfirst i hi]
      · rw [hword k, if_neg (by omega), hword (k + 3), if_neg (by omega), hword (k + 4)]
        split
        · rename_i heq
          rw [show k = m by omega]
        · exact hrec k (by omega))
  exact hinv (Nat.le_refl _)

end Expansion

/-! ## The schedule of the standard -/

section Words

variable {a b c : Rijndael.Word}

/-- The word of zeros. -/
abbrev zeroWord : Rijndael.Word := Vector.replicate 4 0

theorem xorWord_right_inj : Rijndael.xorWord a c = Rijndael.xorWord b c ↔ a = b := by
  refine ⟨fun h => Vector.ext fun j hj => ?_, fun h => by rw [h]⟩
  have hbyte := congrArg (fun x : Rijndael.Word => x[j] ^^^ (c)[j]) h
  simp only [getElem_xorWord _ _ _ hj, UInt8.xor_assoc, UInt8.xor_self, UInt8.xor_zero] at hbyte
  exact hbyte

theorem xorWord_comm : Rijndael.xorWord a b = Rijndael.xorWord b a := by
  refine Vector.ext fun j hj => ?_
  rw [getElem_xorWord _ _ _ hj, getElem_xorWord _ _ _ hj, UInt8.xor_comm]

theorem xorWord_zero : Rijndael.xorWord a zeroWord = a := by
  refine Vector.ext fun j hj => ?_
  rw [getElem_xorWord _ _ _ hj, Vector.getElem_replicate, UInt8.xor_zero]

theorem zero_xorWord : Rijndael.xorWord zeroWord a = a := by rw [xorWord_comm, xorWord_zero]

theorem xorWord_self : Rijndael.xorWord a a = zeroWord := by
  refine Vector.ext fun j hj => ?_
  rw [getElem_xorWord _ _ _ hj, UInt8.xor_self, Vector.getElem_replicate]

theorem xorWord_eq_left_iff : Rijndael.xorWord a b = a ↔ b = zeroWord := by
  constructor
  · intro h
    have h' : Rijndael.xorWord b a = Rijndael.xorWord zeroWord a := by rw [xorWord_comm, h, zero_xorWord]
    exact xorWord_right_inj.mp h'
  · rintro rfl
    exact xorWord_zero

theorem xorWord_mk (x₀ x₁ x₂ x₃ y₀ y₁ y₂ y₃ : UInt8) :
    Rijndael.xorWord #v[x₀, x₁, x₂, x₃] #v[y₀, y₁, y₂, y₃] =
      #v[x₀ ^^^ y₀, x₁ ^^^ y₁, x₂ ^^^ y₂, x₃ ^^^ y₃] := by
  refine Vector.ext fun j hj => ?_
  rw [getElem_xorWord _ _ _ hj]
  rcases (show j = 0 ∨ j = 1 ∨ j = 2 ∨ j = 3 by omega) with rfl | rfl | rfl | rfl
  · rfl
  · rfl
  · rfl
  · rfl

end Words

theorem schedule256_add (key : List UInt8) (i : Nat) :
    Rijndael.schedule256 key (i + 8) = Rijndael.xorWord (Rijndael.schedule256 key i)
      (Rijndael.temp 8 (i + 8) (Rijndael.schedule256 key (i + 7))) := by
  unfold Rijndael.schedule256
  rw [Rijndael.expand, if_neg (by omega)]
  rfl

theorem recurrences_disagree {behind : Nat → UInt8} {w : Nat → Rijndael.Word}
    (hcode : ∀ k < 9, w (k + 4) = Rijndael.xorWord (w k) (expandTemp behind (k + 4) (w (k + 3))))
    (hstd : ∀ k < 5, w (k + 8) = Rijndael.xorWord (w k) (Rijndael.temp 8 (k + 8) (w (k + 7)))) : False := by
  -- words 9, 10 and 11 are XORed from different words in the two
  have h51 : w 5 = w 1 :=
    xorWord_right_inj.mp (show Rijndael.xorWord (w 5) (w 8) = Rijndael.xorWord (w 1) (w 8) from
      (hcode 5 (by omega)).symm.trans (hstd 1 (by omega)))
  have h62 : w 6 = w 2 :=
    xorWord_right_inj.mp (show Rijndael.xorWord (w 6) (w 9) = Rijndael.xorWord (w 2) (w 9) from
      (hcode 6 (by omega)).symm.trans (hstd 2 (by omega)))
  have h73 : w 7 = w 3 :=
    xorWord_right_inj.mp (show Rijndael.xorWord (w 7) (w 10) = Rijndael.xorWord (w 3) (w 10) from
      (hcode 7 (by omega)).symm.trans (hstd 3 (by omega)))
  -- so that words 4, 5 and 6 are zero
  have h4 : w 4 = zeroWord := xorWord_eq_left_iff.mp ((hcode 1 (by omega)).symm.trans h51)
  have h5 : w 5 = zeroWord := xorWord_eq_left_iff.mp ((hcode 2 (by omega)).symm.trans h62)
  have h6 : w 6 = zeroWord := xorWord_eq_left_iff.mp ((hcode 3 (by omega)).symm.trans h73)
  -- the substituted word 3, from word 4 and from word 8
  have hword4 : w 4 = Rijndael.xorWord (w 0) (Rijndael.xorWord (Rijndael.subWord (Rijndael.rotWord (w 3)))
    #v[1, 0, 0, 0]) := hcode 0 (by omega)
  have hword8 : w 8 = Rijndael.xorWord (w 4) (Rijndael.xorWord (Rijndael.subWord (Rijndael.rotWord (w 7)))
    #v[2, 0, 0, 0]) := hcode 4 (by omega)
  have hstd8 : w 8 = Rijndael.xorWord (w 0) (Rijndael.xorWord (Rijndael.subWord (Rijndael.rotWord (w 7)))
    #v[1, 0, 0, 0]) := hstd 0 (by omega)
  have hw8 : w 8 = zeroWord := by rw [hstd8, h73, ← hword4, h4]
  have hrot : Rijndael.subWord (Rijndael.rotWord (w 3)) = #v[2, 0, 0, 0] := by
    rw [hw8, h4, zero_xorWord, h73] at hword8
    have hself : Rijndael.xorWord (#v[2, 0, 0, 0] : Rijndael.Word) #v[2, 0, 0, 0] = zeroWord := xorWord_self
    exact xorWord_right_inj.mp (hword8.symm.trans hself.symm)
  -- word 11 is word 3 again
  have hw9 : w 9 = zeroWord := by
    rw [show w 9 = Rijndael.xorWord (w 5) (w 8) from hcode 5 (by omega), h5, hw8, xorWord_zero]
  have hw10 : w 10 = zeroWord := by
    rw [show w 10 = Rijndael.xorWord (w 6) (w 9) from hcode 6 (by omega), h6, hw9, xorWord_zero]
  have hw11 : w 11 = w 3 := by
    rw [show w 11 = Rijndael.xorWord (w 7) (w 10) from hcode 7 (by omega), hw10, xorWord_zero, h73]
  -- and word 12 takes it rotated in the code, and as it is in the standard
  have hsub : Rijndael.subWord (w 3) = #v[6, 0, 0, 0] := by
    have hcode12 : w 12 = Rijndael.xorWord (w 8) (Rijndael.xorWord
      (Rijndael.subWord (Rijndael.rotWord (w 11))) #v[4, 0, 0, 0]) := hcode 8 (by omega)
    have hstd12 : w 12 = Rijndael.xorWord (w 4) (Rijndael.subWord (w 11)) := hstd 4 (by omega)
    rw [hstd12, h4, hw8, hw11, zero_xorWord, zero_xorWord, hrot] at hcode12
    rw [hcode12, xorWord_mk]
    rfl
  -- its first byte comes last in the rotated word
  have h0 := congrArg (fun x : Rijndael.Word => x[0]) hsub
  have h3 := congrArg (fun x : Rijndael.Word => x[3]) hrot
  simp only [Rijndael.subWord, Vector.getElem_map] at h0 h3
  have hlast : (Rijndael.rotWord (w 3))[3] = (w 3)[0] := getD_word_toList (w 3) 0 (by decide)
  rw [hlast, h0] at h3
  exact absurd h3 (by decide)

theorem word_ne_schedule256 (behind : Nat → UInt8) (stale : Vector UInt8 240) (key : List UInt8) :
    ¬ ∀ i < 60, (secAes256Init behind stale key).word i = Rijndael.schedule256 key i := by
  intro hsame
  refine recurrences_disagree (fun k hk => (word_secAes256Init behind stale key).2 k (by omega)) fun k hk => ?_
  rw [hsame _ (by omega), hsame _ (by omega), hsame _ (by omega), schedule256_add]

/-- **Four bytes** of the key are all that the round keys depend on. -/
theorem word_congr {key key' : List UInt8} (h : ∀ j < 4, key.getD j 0 = key'.getD j 0) (behind : Nat → UInt8)
    (stale : Vector UInt8 240) :
    ∀ i < 60, (secAes256Init behind stale key).word i = (secAes256Init behind stale key').word i := by
  obtain ⟨hfirst, hrec⟩ := word_secAes256Init behind stale key
  obtain ⟨hfirst', hrec'⟩ := word_secAes256Init behind stale key'
  have hkey : Rijndael.keyWord key 0 = Rijndael.keyWord key' 0 := by
    refine Vector.ext fun j hj => ?_
    unfold Rijndael.keyWord
    rw [Vector.getElem_ofFn, Vector.getElem_ofFn]
    exact h _ (by omega)
  intro i hi
  induction i using Nat.strong_induction_on with
  | _ i ih =>
    rcases Nat.lt_or_ge i 4 with hlt | hge
    · rw [hfirst i hlt, hfirst' i hlt, hkey]
    · obtain ⟨k, rfl⟩ := Nat.exists_eq_add_of_le hge
      rw [Nat.add_comm 4 k, hrec k (by omega), hrec' k (by omega), ih k (by omega) (by omega),
        ih (k + 3) (by omega) (by omega)]

/-- What the standard asks of `sec_aes256_init` for a key: neither what the context held nor what lies
behind the table of round constants is read, and the schedule and the cipher are those of AES-256. -/
structure Conforms (behind : Nat → UInt8) (stale : Vector UInt8 240) (key : List UInt8) : Prop where
  initialised : ∀ stale', secAes256Init behind stale' key = secAes256Init behind stale key
  inBounds : ∀ behind', secAes256Init behind' stale key = secAes256Init behind stale key
  schedule : ∀ i < 60, (secAes256Init behind stale key).word i = Rijndael.schedule256 key i
  cipher : ∀ block, secAes256EncryptBlock (secAes256Init behind stale key) block = Rijndael.aes256 key block

/-- **No key** meets this. -/
theorem not_conforms (behind : Nat → UInt8) (stale : Vector UInt8 240) (key : List UInt8) :
    ¬ Conforms behind stale key :=
  fun h => word_ne_schedule256 behind stale key h.schedule

/-- The key `00 01 … 1F` in a context of zeros: the second word of the schedule is zero, and not
`04 05 06 07`. -/
theorem aes256_countingKey :
    (secAes256Init (fun _ => 0) (Vector.replicate 240 0) ((List.range 32).map UInt8.ofNat)).word 1 ≠
      Rijndael.schedule256 ((List.range 32).map UInt8.ofNat) 1 := by
  unfold Rijndael.schedule256
  rw [(word_secAes256Init _ _ _).1 1 (by decide), if_neg (by decide), Rijndael.expand, if_pos (by decide)]
  decide +kernel

end Chicago95.Stage2.Aes
