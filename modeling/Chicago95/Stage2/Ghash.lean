/-
# Chicago95.Stage2.Ghash — what `ghash` of `security/common/aes/aes256.c` makes of its bytes.

`multiply y h` adds up the shifts `shiftRight^[i] h` that the bits of `y` pick out, and leaves `h` shifted
128 times. The shift moves every byte but the first towards byte 0, so that after 120 of them only byte 0
is left (`shiftRight_iterate_low`), and there it is the multiplication by a generator of a field of 256
elements (`mulByte_ne_zero`). Two streams that differ in one bit of the last byte of a block therefore
have different hashes, unless 128 shifts clear the hash key (`ghash_ne_of_flip`); then every hash of two
blocks or more is zero (`ghash_of_cleared`).
-/
import Chicago95.Lib.Digits
import Chicago95.Stage2.Aes

namespace Chicago95.Stage2.Aes

open Chicago95.Lib.Digits Chicago95.Lib.Loop

/-! ## XOR of blocks -/

/-- The block of zeros. -/
abbrev zeroBlock : Block := Vector.replicate 16 0

theorem getElem_xorBlock (a b : Block) (i : Nat) (hi : i < 16) : (xorBlock a b)[i] = a[i] ^^^ b[i] := by
  unfold xorBlock
  rw [Vector.getElem_zipWith]

theorem xorBlock_comm (a b : Block) : xorBlock a b = xorBlock b a := by
  refine Vector.ext fun i hi => ?_
  rw [getElem_xorBlock, getElem_xorBlock, UInt8.xor_comm]

theorem xorBlock_assoc (a b c : Block) : xorBlock (xorBlock a b) c = xorBlock a (xorBlock b c) := by
  refine Vector.ext fun i hi => ?_
  simp only [getElem_xorBlock, UInt8.xor_assoc]

@[simp] theorem xorBlock_zero (a : Block) : xorBlock a zeroBlock = a := by
  refine Vector.ext fun i hi => ?_
  rw [getElem_xorBlock, Vector.getElem_replicate, UInt8.xor_zero]

@[simp] theorem zero_xorBlock (a : Block) : xorBlock zeroBlock a = a := by
  rw [xorBlock_comm, xorBlock_zero]

theorem xorBlock_self (a : Block) : xorBlock a a = zeroBlock := by
  refine Vector.ext fun i hi => ?_
  rw [getElem_xorBlock, UInt8.xor_self, Vector.getElem_replicate]

theorem xorBlock_cancel (a b : Block) : xorBlock a (xorBlock a b) = b := by
  rw [← xorBlock_assoc, xorBlock_self, zero_xorBlock]

theorem xorBlock_left_inj {a b c : Block} : xorBlock a c = xorBlock b c ↔ a = b := by
  refine ⟨fun h => ?_, fun h => by rw [h]⟩
  have hc := congrArg (xorBlock c) h
  rwa [xorBlock_comm a, xorBlock_comm b, xorBlock_cancel, xorBlock_cancel] at hc

theorem xorBlock_xorBlock_comm (a b c d : Block) :
    xorBlock (xorBlock a b) (xorBlock c d) = xorBlock (xorBlock a c) (xorBlock b d) := by
  rw [xorBlock_assoc, xorBlock_assoc, ← xorBlock_assoc b, xorBlock_comm b c, xorBlock_assoc c]

theorem getD_toList (a : Block) (i : Nat) (hi : i < 16) : a.toList.getD i 0 = a[i] := by
  rw [List.getD_eq_getElem?_getD, List.getElem?_eq_getElem (by rw [Vector.length_toList]; exact hi),
    Option.getD_some, Vector.getElem_toList]

theorem getD_toList_of_le (a : Block) (i : Nat) (hi : 16 ≤ i) : a.toList.getD i 0 = 0 := by
  rw [List.getD_eq_getElem?_getD, List.getElem?_eq_none (by rw [Vector.length_toList]; exact hi),
    Option.getD_none]

theorem getD_xorBlock (a b : Block) (i : Nat) :
    (xorBlock a b).toList.getD i 0 = a.toList.getD i 0 ^^^ b.toList.getD i 0 := by
  by_cases hi : i < 16
  · rw [getD_toList _ _ hi, getD_toList _ _ hi, getD_toList _ _ hi, getElem_xorBlock]
  · have hle := Nat.le_of_not_lt hi
    rw [getD_toList_of_le _ _ hle, getD_toList_of_le _ _ hle, getD_toList_of_le _ _ hle, UInt8.xor_self]

theorem getD_zeroBlock (i : Nat) : zeroBlock.toList.getD i 0 = 0 := by
  by_cases hi : i < 16
  · rw [getD_toList _ _ hi, Vector.getElem_replicate]
  · exact getD_toList_of_le _ _ (Nat.le_of_not_lt hi)

theorem blockBit_xorBlock (a b : Block) (i : Nat) : blockBit (xorBlock a b) i = (blockBit a i ^^ blockBit b i) := by
  unfold blockBit
  rw [getD_xorBlock, UInt8.toNat_xor, Nat.testBit_xor]

@[simp] theorem blockBit_zero (i : Nat) : blockBit zeroBlock i = false := by
  unfold blockBit
  rw [getD_zeroBlock]
  exact Nat.zero_testBit _

/-! ## The shift -/

/-- Bit `t` of a block, counted from the lowest bit of byte 0. -/
def bitAt (h : Block) (t : Nat) : Bool := (h.toList.getD (t / 8) 0).toNat.testBit (t % 8)

theorem testBit_shifted (a b : UInt8) (p : Nat) (hp : p < 8) : ((a >>> 1) ||| ((b &&& 1) <<< 7)).toNat.testBit p =
      if p = 7 then b.toNat.testBit 0 else a.toNat.testBit (p + 1) := by
  have ha : a.toNat < 2 ^ 8 := a.toNat_lt
  rw [UInt8.toNat_or, UInt8.toNat_shiftRight, UInt8.toNat_shiftLeft, UInt8.toNat_and, Nat.testBit_or]
  have hb : (b.toNat &&& (1 : UInt8).toNat) = b.toNat % 2 := Nat.and_one_is_mod _
  rw [hb]
  have hshift : (b.toNat % 2) <<< ((7 : UInt8).toNat % 8) % 2 ^ 8 = 2 ^ 7 * (b.toNat % 2) := by
    show (b.toNat % 2) <<< 7 % 2 ^ 8 = _
    rw [Nat.shiftLeft_eq]
    omega
  rw [hshift, Nat.testBit_two_pow_mul]
  show ((a.toNat >>> 1).testBit p || (decide (7 ≤ p) && (b.toNat % 2).testBit (p - 7))) = _
  rw [Nat.testBit_shiftRight, Nat.add_comm 1 p]
  split
  · rename_i h7
    subst h7
    rw [Nat.testBit_lt_two_pow (show a.toNat < 2 ^ (7 + 1) from ha)]
    simp [Nat.testBit_zero]
  · have : ¬ 7 ≤ p := by omega
    simp [this]

theorem getElem_shiftRight (h : Block) (j : Nat) (hj : j < 16) (hpos : 0 < j) : (shiftRight h)[j] =
      (h[j] >>> 1) ||| ((if j + 1 < 16 then h.toList.getD (j + 1) 0 &&& 1 else 0) <<< 7) := by
  unfold shiftRight
  dsimp only
  split
  · rw [Vector.getElem_setIfInBounds_ne hj (by omega), Vector.getElem_ofFn]
    rfl
  · rw [Vector.getElem_ofFn]
    rfl

theorem bitAt_shiftRight (h : Block) (t : Nat) (ht : 8 ≤ t) : bitAt (shiftRight h) t = bitAt h (t + 1) := by
  unfold bitAt
  by_cases hj : t / 8 < 16
  · rw [getD_toList _ _ hj, getElem_shiftRight h (t / 8) hj (by omega)]
    have hnext : (if t / 8 + 1 < 16 then h.toList.getD (t / 8 + 1) 0 &&& 1 else 0) =
        h.toList.getD (t / 8 + 1) 0 &&& 1 := by
      split
      · rfl
      · rw [getD_toList_of_le _ _ (by omega)]
        rfl
    rw [hnext, testBit_shifted _ _ _ (Nat.mod_lt _ (by omega))]
    split
    · have hdiv : (t + 1) / 8 = t / 8 + 1 := by omega
      have hmod : (t + 1) % 8 = 0 := by omega
      rw [hdiv, hmod]
    · have hdiv : (t + 1) / 8 = t / 8 := by omega
      have hmod : (t + 1) % 8 = t % 8 + 1 := by omega
      rw [hdiv, hmod, getD_toList _ _ hj]
  · rw [getD_toList_of_le _ _ (by omega), getD_toList_of_le _ _ (by omega)]
    simp

theorem bitAt_iterate_shiftRight (h : Block) (n t : Nat) (ht : 8 ≤ t) :
    bitAt (shiftRight^[n] h) t = bitAt h (t + n) := by
  induction n generalizing t with
  | zero => rfl
  | succ n ih =>
    rw [Function.iterate_succ_apply', bitAt_shiftRight _ _ ht, ih _ (by omega), Nat.add_assoc,
      Nat.add_comm 1 n]

/-- A block with only byte 0 in it. -/
def low (b : UInt8) : Block := zeroBlock.set 0 b

theorem getElem_low (b : UInt8) (i : Nat) (hi : i < 16) : (low b)[i] = if i = 0 then b else 0 := by
  unfold low
  rw [Vector.getElem_set, Vector.getElem_replicate]
  simp only [eq_comm]

theorem getD_low (b : UInt8) (i : Nat) : (low b).toList.getD i 0 = if i = 0 then b else 0 := by
  by_cases hi : i < 16
  · rw [getD_toList _ _ hi, getElem_low]
  · rw [getD_toList_of_le _ _ (Nat.le_of_not_lt hi), if_neg (by omega)]

theorem eq_low_of_bitAt {h : Block} (hbits : ∀ t, 8 ≤ t → bitAt h t = false) : h = low h[0] := by
  refine Vector.ext fun j hj => ?_
  rw [getElem_low]
  split
  · rename_i h0
    subst h0
    rfl
  · refine UInt8.toNat_inj.mp (Nat.eq_of_testBit_eq fun p => ?_)
    -- bit `p` of byte `j` is bit `8 * j + p` of the block
    by_cases hp : p < 8
    · have hbit := hbits (8 * j + p) (by omega)
      unfold bitAt at hbit
      have hdiv : (8 * j + p) / 8 = j := by omega
      have hmod : (8 * j + p) % 8 = p := by omega
      rw [hdiv, hmod, getD_toList _ _ hj] at hbit
      rw [hbit]
      simp
    · have hlt : ∀ b : UInt8, b.toNat.testBit p = false := fun b =>
        testBit_of_lt_two_pow b.toNat_lt (Nat.le_of_not_lt hp)
      rw [hlt, hlt]

theorem shiftRight_iterate_low (h : Block) : ∃ b, shiftRight^[120] h = low b := by
  refine ⟨_, eq_low_of_bitAt fun t ht => ?_⟩
  rw [bitAt_iterate_shiftRight _ _ _ ht]
  unfold bitAt
  rw [getD_toList_of_le _ _ (by omega)]
  simp

/-- The shift of a block that has only byte 0. -/
def step (b : UInt8) : UInt8 := (b >>> 1) ^^^ (if b &&& 1 ≠ 0 then 0xE1 else 0)

theorem shiftRight_low (b : UInt8) : shiftRight (low b) = low (step b) := by
  refine Vector.ext fun j hj => ?_
  have hbyte : ∀ k, 0 < k → (low b).toList.getD k 0 = 0 := fun k hk => by rw [getD_low, if_neg (by omega)]
  have hzero : (low b).toList.getD 0 0 = b := by rw [getD_low, if_pos rfl]
  rw [getElem_low]
  split
  · rename_i h0
    subst h0
    unfold shiftRight step
    dsimp only
    rw [hzero]
    split
    · rw [Vector.getElem_setIfInBounds_self (by omega)]
      show ((low b).toList.getD 0 0 >>> 1 ||| ((low b).toList.getD 1 0 &&& 1) <<< 7) ^^^ 0xE1 = _
      rw [hzero, hbyte 1 (by omega)]
      simp
    · rw [Vector.getElem_ofFn]
      show ((low b).toList.getD 0 0 >>> 1 ||| ((low b).toList.getD 1 0 &&& 1) <<< 7) = _
      rw [hzero, hbyte 1 (by omega)]
      simp
  · rename_i h0
    rw [getElem_shiftRight _ _ hj (by omega), getElem_low, if_neg h0, hbyte _ (by omega)]
    split <;> simp

theorem shiftRight_iterate_of_low (b : UInt8) (n : Nat) : shiftRight^[n] (low b) = low (step^[n] b) := by
  induction n with
  | zero => rfl
  | succ n ih => rw [Function.iterate_succ_apply', ih, shiftRight_low, Function.iterate_succ_apply']

theorem low_ne_zero {b : UInt8} (hb : b ≠ 0) : low b ≠ zeroBlock := by
  intro h
  have := congrArg (fun v : Block => v[0]) h
  simp only [getElem_low, Vector.getElem_replicate, if_true] at this
  exact hb this

@[simp] theorem low_zero : low 0 = zeroBlock := by decide

theorem xorBlock_low (a b : UInt8) : xorBlock (low a) (low b) = low (a ^^^ b) := by
  refine Vector.ext fun j hj => ?_
  rw [getElem_xorBlock, getElem_low, getElem_low, getElem_low]
  split
  · rfl
  · rfl

/-! ## The field of byte 0 -/

theorem and_one_cases (a : UInt8) : a &&& 1 = 0 ∨ a &&& 1 = 1 := by
  rcases Nat.mod_two_eq_zero_or_one a.toNat with h | h
  · exact Or.inl (UInt8.toNat_inj.mp ((Nat.and_one_is_mod _).trans h))
  · exact Or.inr (UInt8.toNat_inj.mp ((Nat.and_one_is_mod _).trans h))

theorem step_xor (a b : UInt8) : step (a ^^^ b) = step a ^^^ step b := by
  have hshift : (a ^^^ b) >>> 1 = (a >>> 1) ^^^ (b >>> 1) := UInt8.shiftRight_xor
  have hmask : (a ^^^ b) &&& 1 = (a &&& 1) ^^^ (b &&& 1) := by
    refine UInt8.toNat_inj.mp ?_
    simp only [UInt8.toNat_and, UInt8.toNat_xor, Nat.and_xor_distrib_right]
  have hswap : ∀ x y p q : UInt8, (x ^^^ y) ^^^ (p ^^^ q) = (x ^^^ p) ^^^ (y ^^^ q) := by
    intro x y p q
    rw [UInt8.xor_assoc, UInt8.xor_assoc, ← UInt8.xor_assoc y, UInt8.xor_comm y p, UInt8.xor_assoc p]
  unfold step
  rw [hshift, hmask, hswap]
  congr 1
  -- what is XORed in depends on the lowest bits alone
  rcases and_one_cases a with ha | ha <;> rcases and_one_cases b with hb | hb <;> rw [ha, hb] <;> decide

@[simp] theorem step_iterate_zero (n : Nat) : step^[n] 0 = 0 := by
  induction n with
  | zero => rfl
  | succ n ih =>
    rw [Function.iterate_succ_apply', ih]
    rfl

/-- A byte of a shifted block. -/
def shiftedByte (a b : UInt8) : UInt8 := (a >>> 1) ||| ((b &&& 1) <<< 7)

theorem shiftedByte_xor (a b c d : UInt8) : shiftedByte (a ^^^ c) (b ^^^ d) = shiftedByte a b ^^^ shiftedByte c d := by
  refine UInt8.toNat_inj.mp (Nat.eq_of_testBit_eq fun p => ?_)
  rw [UInt8.toNat_xor, Nat.testBit_xor]
  by_cases hp : p < 8
  · unfold shiftedByte
    rw [testBit_shifted _ _ _ hp, testBit_shifted _ _ _ hp, testBit_shifted _ _ _ hp, UInt8.toNat_xor,
      UInt8.toNat_xor, Nat.testBit_xor, Nat.testBit_xor]
    split <;> rfl
  · have hlt : ∀ x : UInt8, x.toNat.testBit p = false := fun x =>
      testBit_of_lt_two_pow x.toNat_lt (Nat.le_of_not_lt hp)
    rw [hlt, hlt, hlt]
    rfl

theorem getElem_shiftRight_zero (h : Block) : (shiftRight h)[0] = step h[0] ^^^ shiftedByte 0 (h.toList.getD 1 0) := by
  have hbyte : shiftedByte h[0] (h.toList.getD 1 0) = (h[0] >>> 1) ^^^ shiftedByte 0 (h.toList.getD 1 0) := by
    have hsum := shiftedByte_xor h[0] 0 0 (h.toList.getD 1 0)
    rw [UInt8.xor_zero, UInt8.zero_xor] at hsum
    have hhalf : shiftedByte h[0] 0 = h[0] >>> 1 := UInt8.or_zero
    rwa [hhalf] at hsum
  unfold shiftRight step
  dsimp only
  rw [getD_toList h 0 (by omega)]
  split
  · rw [Vector.getElem_setIfInBounds_self (by omega), getD_toList _ 0 (by omega), Vector.getElem_ofFn]
    refine (congrArg (· ^^^ 0xE1) hbyte).trans ?_
    rw [UInt8.xor_assoc, UInt8.xor_assoc, UInt8.xor_comm 0xE1]
  · rw [Vector.getElem_ofFn, UInt8.xor_zero]
    exact hbyte

theorem getElem_shiftRight_pos (h : Block) (j : Nat) (hj : j < 16) (hpos : 0 < j) :
    (shiftRight h)[j] = shiftedByte h[j] (h.toList.getD (j + 1) 0) := by
  rw [getElem_shiftRight h j hj hpos]
  split
  · rfl
  · rw [getD_toList_of_le _ _ (by omega)]
    rfl

theorem shiftRight_xorBlock (a b : Block) : shiftRight (xorBlock a b) = xorBlock (shiftRight a) (shiftRight b) := by
  refine Vector.ext fun j hj => ?_
  rw [getElem_xorBlock]
  by_cases hpos : 0 < j
  · rw [getElem_shiftRight_pos _ _ hj hpos, getElem_shiftRight_pos _ _ hj hpos, getElem_shiftRight_pos _ _ hj hpos,
      getElem_xorBlock, getD_xorBlock, shiftedByte_xor]
  · obtain rfl := Nat.eq_zero_of_not_pos hpos
    have hhigh := shiftedByte_xor 0 (a.toList.getD 1 0) 0 (b.toList.getD 1 0)
    rw [UInt8.xor_self] at hhigh
    rw [getElem_shiftRight_zero, getElem_shiftRight_zero, getElem_shiftRight_zero, getElem_xorBlock,
      getD_xorBlock, step_xor, hhigh]
    ac_rfl

theorem shiftRight_iterate_xorBlock (n : Nat) (a b : Block) :
    shiftRight^[n] (xorBlock a b) = xorBlock (shiftRight^[n] a) (shiftRight^[n] b) := by
  induction n with
  | zero => rfl
  | succ n ih => simp only [Function.iterate_succ_apply', ih, shiftRight_xorBlock]

/-- `multiply` on blocks that have only byte 0. -/
def mulByte (a b : UInt8) : UInt8 :=
  forEach 8 (fun i z => if a.toNat.testBit (7 - i) then z ^^^ step^[i] b else z) 0

theorem mulByte_step (a b : UInt8) : mulByte a (step b) = step (mulByte a b) := by
  unfold mulByte
  generalize 8 = n
  induction n with
  | zero => exact (step_iterate_zero 1).symm
  | succ n ih =>
    rw [forEach_succ, forEach_succ, ih]
    split
    · rw [step_xor, ← Function.iterate_succ_apply, Function.iterate_succ_apply']
    · rfl

theorem mulByte_iterate_step (a b : UInt8) (n : Nat) : mulByte a (step^[n] b) = step^[n] (mulByte a b) := by
  induction n with
  | zero => rfl
  | succ n ih => rw [Function.iterate_succ_apply', mulByte_step, ih, Function.iterate_succ_apply']

/-- The bytes that fewer than `n` shifts make of `b`, each as one bit of a number. -/
def reached : Nat → UInt8 → Nat
  | 0, _ => 0
  | n + 1, b => 2 ^ b.toNat ||| reached n (step b)

theorem exists_iterate_of_reached {n : Nat} {b c : UInt8} (h : (reached n b).testBit c.toNat = true) :
    ∃ k, c = step^[k] b := by
  induction n generalizing b with
  | zero =>
    rw [reached, Nat.zero_testBit] at h
    cases h
  | succ n ih =>
    rw [reached, Nat.testBit_or, Bool.or_eq_true, Nat.testBit_two_pow, decide_eq_true_eq] at h
    rcases h with h | h
    · exact ⟨0, (UInt8.toNat_inj.mp h).symm⟩
    · obtain ⟨k, hk⟩ := ih h
      exact ⟨k + 1, hk⟩

theorem forall_byte {P : UInt8 → Prop} (h : ∀ n : Fin 256, P (UInt8.ofNat n)) (b : UInt8) : P b := by
  have := h ⟨b.toNat, b.toNat_lt⟩
  rwa [UInt8.ofNat_toNat] at this

theorem mulByte_unit (a : UInt8) : mulByte a 0x80 = a := by
  have hall : ∀ b : UInt8, mulByte b 0x80 = b := forall_byte (by decide +kernel)
  exact hall a

theorem step_ne_zero {a : UInt8} (ha : a ≠ 0) : step a ≠ 0 := by
  have hall : ∀ b : UInt8, b ≠ 0 → step b ≠ 0 := forall_byte (by decide +kernel)
  exact hall a ha

theorem exists_iterate_step (b : UInt8) (hb : b ≠ 0) : ∃ k, b = step^[k] 0x80 := by
  -- 255 steps from `0x80` reach every byte but zero
  have hall : reached 255 0x80 = 2 ^ 256 - (1 + 1) := by decide +kernel
  have hbit : Nat.testBit 1 b.toNat = false :=
    Bool.eq_false_iff.mpr fun h =>
      hb (UInt8.toNat_inj.mp (Nat.testBit_one_eq_true_iff_self_eq_zero.mp h))
  refine exists_iterate_of_reached (n := 255) ?_
  rw [hall, Nat.testBit_two_pow_sub_succ (by decide), decide_eq_true b.toNat_lt, hbit]
  rfl

theorem step_iterate_ne_zero {a : UInt8} (ha : a ≠ 0) (n : Nat) : step^[n] a ≠ 0 := by
  induction n with
  | zero => exact ha
  | succ n ih =>
    rw [Function.iterate_succ_apply']
    exact step_ne_zero ih

theorem mulByte_ne_zero {a b : UInt8} (ha : a ≠ 0) (hb : b ≠ 0) : mulByte a b ≠ 0 := by
  -- `b` is a shift of `0x80`, and `mulByte` commutes with the shift
  obtain ⟨k, rfl⟩ := exists_iterate_step b hb
  rw [mulByte_iterate_step, mulByte_unit]
  exact step_iterate_ne_zero ha k

/-! ## The multiplication -/

/-- The shifts of `h` that the first `n` bits of `y` pick out. -/
def select (y h : Block) (n : Nat) : Block :=
  forEach n (fun i z => if blockBit y i then xorBlock z (shiftRight^[i] h) else z) zeroBlock

theorem multiply_eq (y h : Block) : multiply y h = (select y h 128, shiftRight^[128] h) := by
  unfold multiply select
  generalize 128 = n
  induction n with
  | zero => rfl
  | succ n ih =>
    rw [forEach_succ, ih, forEach_succ, Function.iterate_succ_apply']

theorem select_xorBlock (y y' h : Block) (n : Nat) :
    select (xorBlock y y') h n = xorBlock (select y h n) (select y' h n) := by
  unfold select
  induction n with
  | zero => exact (xorBlock_self _).symm
  | succ n ih =>
    rw [forEach_succ, forEach_succ, forEach_succ, ih, blockBit_xorBlock]
    cases blockBit y n <;> cases blockBit y' n
    · rfl
    · exact xorBlock_assoc _ _ _
    · show xorBlock (xorBlock _ _) _ = xorBlock (xorBlock _ _) _
      rw [xorBlock_assoc, xorBlock_comm _ (shiftRight^[n] h), ← xorBlock_assoc]
      rfl
    · show xorBlock _ _ = xorBlock (xorBlock _ _) (xorBlock _ _)
      rw [xorBlock_xorBlock_comm, xorBlock_self, xorBlock_zero]

theorem shiftRight_zero : shiftRight zeroBlock = zeroBlock := by decide

@[simp] theorem shiftRight_iterate_zero (n : Nat) : shiftRight^[n] zeroBlock = zeroBlock := by
  induction n with
  | zero => rfl
  | succ n ih => rw [Function.iterate_succ_apply', ih, shiftRight_zero]

@[simp] theorem select_zero (y : Block) (n : Nat) : select y zeroBlock n = zeroBlock := by
  unfold select
  refine forEach_eq_self fun i _ => ?_
  rw [shiftRight_iterate_zero, xorBlock_zero, ite_self]

theorem select_add (y h : Block) (n k : Nat) (hclear : ∀ i, n ≤ i → i < n + k → blockBit y i = false) :
    select y h (n + k) = select y h n := by
  unfold select
  induction k with
  | zero => rfl
  | succ k ih =>
    rw [← Nat.add_assoc, forEach_succ, hclear (n + k) (by omega) (by omega)]
    exact ih fun i hle hlt => hclear i hle (by omega)

/-- The first bit of the last byte. -/
def lastByte : Block := zeroBlock.set 15 0x80

theorem select_lastByte (h : Block) : select lastByte h 128 = shiftRight^[120] h := by
  have hbits : ∀ i, i < 128 → blockBit lastByte i = decide (i = 120) := by decide +kernel
  -- only bit 120 is set
  have hbefore : select lastByte h 120 = zeroBlock :=
    select_add lastByte h 0 120 fun i _ hlt => by rw [hbits i (by omega), decide_eq_false (by omega)]
  have hafter : select lastByte h 128 = select lastByte h 121 :=
    select_add lastByte h 121 7 fun i hle hlt => by rw [hbits i (by omega), decide_eq_false (by omega)]
  have hset : select lastByte h 121 = xorBlock (select lastByte h 120) (shiftRight^[120] h) := by
    unfold select
    rw [forEach_succ, hbits 120 (by omega)]
    rfl
  rw [hafter, hset, hbefore, zero_xorBlock]

theorem blockBit_low (a : UInt8) (i : Nat) (hi : 8 ≤ i) : blockBit (low a) i = false := by
  unfold blockBit
  rw [getD_low, if_neg (by omega)]
  exact Nat.zero_testBit _

theorem select_low (a b : UInt8) : select (low a) (low b) 128 = low (mulByte a b) := by
  rw [select_add _ _ 8 120 fun i hle _ => blockBit_low a i hle]
  have hbit : ∀ i, i < 8 → blockBit (low a) i = a.toNat.testBit (7 - i) := by
    intro i hi
    unfold blockBit
    rw [Nat.div_eq_of_lt hi, Nat.mod_eq_of_lt hi, getD_low, if_pos rfl]
  unfold select mulByte
  -- both loops pick the same shifts
  have hrun : ∀ n, n ≤ 8 →
      forEach n (fun i z => if blockBit (low a) i then xorBlock z (shiftRight^[i] (low b)) else z) zeroBlock =
        low (forEach n (fun i z => if a.toNat.testBit (7 - i) then z ^^^ step^[i] b else z) 0) := by
    intro n hn
    induction n with
    | zero => exact low_zero.symm
    | succ n ih =>
      rw [forEach_succ, forEach_succ, ih (by omega), hbit n (by omega)]
      split
      · rw [shiftRight_iterate_of_low, xorBlock_low]
      · rfl
  exact hrun 8 (Nat.le_refl 8)

/-! ## The hash -/

/-- The block `b` that the hash takes in. -/
def inputBlock (data : Nat → UInt8) (len b : Nat) : Block :=
  Vector.ofFn fun i => if b * 16 + i.val < len then data (b * 16 + i.val) else 0

/-- The hash and what is left of `h` after `n` blocks. -/
def hashBlocks (h : Block) (data : Nat → UInt8) (len n : Nat) : Block × Block :=
  forEach n (fun b st => multiply (xorBlock st.1 (inputBlock data len b)) st.2) (zeroBlock, h)

theorem ghash_eq (h : Block) (data : Nat → UInt8) (len : Nat) :
    ghash h data len = (hashBlocks h data len ((len + 15) / 16)).1 := rfl

variable {h : Block} {data data' : Nat → UInt8} {len : Nat}

theorem hashBlocks_zero : hashBlocks h data len 0 = (zeroBlock, h) := rfl

theorem hashBlocks_snd (n : Nat) : (hashBlocks h data len n).2 = shiftRight^[128 * n] h := by
  unfold hashBlocks
  induction n with
  | zero => rfl
  | succ n ih =>
    rw [forEach_succ, multiply_eq, ih, ← Function.iterate_add_apply, Nat.mul_succ, Nat.add_comm 128]

theorem hashBlocks_succ (n : Nat) : (hashBlocks h data len (n + 1)).1 =
      select (xorBlock (hashBlocks h data len n).1 (inputBlock data len n)) (shiftRight^[128 * n] h) 128 := by
  have hsnd : (hashBlocks h data len n).2 = shiftRight^[128 * n] h := hashBlocks_snd n
  rw [← hsnd]
  unfold hashBlocks
  rw [forEach_succ, multiply_eq]

theorem inputBlock_congr (hsame : ∀ i, i < len → data' i = data i) (b : Nat) :
    inputBlock data' len b = inputBlock data len b := by
  refine Vector.ext fun i hi => ?_
  unfold inputBlock
  rw [Vector.getElem_ofFn, Vector.getElem_ofFn]
  split
  · rename_i hlt
    exact hsame _ hlt
  · rfl

theorem ghash_congr (hsame : ∀ i, i < len → data' i = data i) : ghash h data' len = ghash h data len := by
  rw [ghash_eq, ghash_eq]
  unfold hashBlocks
  simp only [inputBlock_congr hsame]

theorem ghash_of_cleared (hclear : shiftRight^[128] h = zeroBlock) (hlen : 16 < len) :
    ghash h data len = zeroBlock := by
  obtain ⟨n, hn⟩ : ∃ n, (len + 15) / 16 = n + 1 + 1 := ⟨(len + 15) / 16 - 2, by omega⟩
  rw [ghash_eq, hn, hashBlocks_succ, Nat.mul_succ, Function.iterate_add_apply, hclear,
    shiftRight_iterate_zero, select_zero]

/-- The streams differ in the last byte of block `k`, by its first bit. -/
structure Flips (data data' : Nat → UInt8) (k : Nat) : Prop where
  flipped : data' (16 * k + 15) = data (16 * k + 15) ^^^ 0x80
  same : ∀ i, i ≠ 16 * k + 15 → data' i = data i

variable {k : Nat}

theorem Flips.inputBlock_self (hflip : Flips data data' k) (hk : 16 * k + 15 < len) :
    inputBlock data' len k = xorBlock (inputBlock data len k) lastByte := by
  refine Vector.ext fun i hi => ?_
  unfold inputBlock lastByte
  rw [getElem_xorBlock, Vector.getElem_ofFn, Vector.getElem_ofFn, if_pos (by simp only; omega),
    if_pos (by simp only; omega), Vector.getElem_set]
  split
  · rename_i h15
    have : k * 16 + i = 16 * k + 15 := by omega
    rw [this, hflip.flipped]
  · rw [hflip.same _ (by simp only; omega), Vector.getElem_replicate, UInt8.xor_zero]

theorem Flips.inputBlock_ne (hflip : Flips data data' k) {b : Nat} (hb : b ≠ k) :
    inputBlock data' len b = inputBlock data len b := by
  refine Vector.ext fun i hi => ?_
  unfold inputBlock
  rw [Vector.getElem_ofFn, Vector.getElem_ofFn, hflip.same _ (by simp only; omega)]

theorem Flips.before (hflip : Flips data data' k) {n : Nat} (hn : n ≤ k) :
    (hashBlocks h data' len n).1 = (hashBlocks h data len n).1 := by
  induction n with
  | zero => rw [hashBlocks_zero, hashBlocks_zero]
  | succ n ih =>
    rw [hashBlocks_succ, hashBlocks_succ, ih (by omega), hflip.inputBlock_ne (show n ≠ k by omega)]

theorem Flips.after (hflip : Flips data data' k) (hk : 16 * k + 15 < len)
    (hkey : shiftRight^[128] h ≠ zeroBlock) (d : Nat) : ∃ c, c ≠ 0 ∧ (hashBlocks h data' len (k + 1 + d)).1 =
      xorBlock (hashBlocks h data len (k + 1 + d)).1 (low c) := by
  obtain ⟨g, hg⟩ := shiftRight_iterate_low h
  have hshift : ∀ m, shiftRight^[120 + m] h = low (step^[m] g) := by
    intro m
    rw [Nat.add_comm, Function.iterate_add_apply, hg, shiftRight_iterate_of_low]
  have hne : g ≠ 0 := by
    rintro rfl
    exact hkey ((hshift 8).trans (by rw [step_iterate_zero, low_zero]))
  -- `d` blocks on: in the flipped block itself the factor is the first bit, later it is the difference so far
  induction d with
  | zero =>
    refine ⟨step^[128 * k] g, step_iterate_ne_zero hne _, ?_⟩
    rw [Nat.add_zero, hashBlocks_succ, hashBlocks_succ, hflip.before (Nat.le_refl k),
      hflip.inputBlock_self hk, ← xorBlock_assoc, select_xorBlock, select_lastByte,
      ← Function.iterate_add_apply, hshift]
  | succ d ih =>
    obtain ⟨c, hc, heq⟩ := ih
    have hh : shiftRight^[128 * (k + 1 + d)] h = low (step^[128 * (k + d) + 8] g) := by
      rw [← hshift]
      congr 1
      omega
    refine ⟨mulByte c (step^[128 * (k + d) + 8] g),
      mulByte_ne_zero hc (step_iterate_ne_zero hne _), ?_⟩
    rw [← Nat.add_assoc, hashBlocks_succ, hashBlocks_succ, heq,
      hflip.inputBlock_ne (show k + 1 + d ≠ k by omega), xorBlock_assoc, xorBlock_comm (low c),
      ← xorBlock_assoc, select_xorBlock, hh, select_low]

theorem ghash_ne_of_flip (hflip : Flips data data' k) (hk : 16 * k + 15 < len)
    (hkey : shiftRight^[128] h ≠ zeroBlock) : ghash h data' len ≠ ghash h data len := by
  obtain ⟨c, hc, heq⟩ := hflip.after hk hkey ((len + 15) / 16 - (k + 1))
  have hn : k + 1 + ((len + 15) / 16 - (k + 1)) = (len + 15) / 16 := by omega
  rw [hn] at heq
  rw [ghash_eq, ghash_eq, heq]
  intro hsame
  have hzero := (congrArg (xorBlock (hashBlocks h data len ((len + 15) / 16)).1) hsame)
  rw [xorBlock_cancel, xorBlock_self] at hzero
  exact low_ne_zero hc hzero

end Chicago95.Stage2.Aes
