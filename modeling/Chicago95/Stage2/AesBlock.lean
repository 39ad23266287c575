/-
# Chicago95.Stage2.AesBlock — the block cipher loses nothing.

Each part of a round is injective, whatever the round keys are: the box has no byte twice (`subByte_injective`),
ShiftRows moves bytes, MixColumns has no column but zero that it takes to zero (`mixColumn_eq_zero`), and the round
key is XORed in. So two different counters never give one block (`secAes256EncryptBlock_injective`), and of two
counters that follow each other one gives a block that is not zero (`keystream_ne_zero`).
-/
import Chicago95.Stage2.Ghash
import Mathlib.Data.Fintype.EquivFin
import Mathlib.Tactic.IntervalCases

namespace Chicago95.Stage2.Aes

open Chicago95.Lib.Loop

/-! ## Bytes -/

theorem xorByte_left_comm (a b c : UInt8) : a ^^^ (b ^^^ c) = b ^^^ (a ^^^ c) := by
  rw [← UInt8.xor_assoc, UInt8.xor_comm a b, UInt8.xor_assoc]

theorem xorByte_cancel_left (a b : UInt8) : a ^^^ (a ^^^ b) = b := by
  rw [← UInt8.xor_assoc, UInt8.xor_self, UInt8.zero_xor]

theorem xorByte_eq_zero_iff {a b : UInt8} : a ^^^ b = 0 ↔ a = b := by
  constructor
  · intro h
    have hcancel := xorByte_cancel_left a b
    rw [h, UInt8.xor_zero] at hcancel
    exact hcancel
  · rintro rfl
    exact UInt8.xor_self

/-- The bytes of a list, as the bits of a number. -/
def bytesSeen (l : List UInt8) : Nat := l.foldr (fun x seen => seen ||| 1 <<< x.toNat) 0

theorem mem_of_testBit {l : List UInt8} {y : UInt8} (h : (bytesSeen l).testBit y.toNat = true) : y ∈ l := by
  induction l with
  | nil => simp [bytesSeen] at h
  | cons x l ih =>
    have hbits : (bytesSeen l ||| 1 <<< x.toNat).testBit y.toNat = true := h
    rw [Nat.testBit_or, Nat.one_shiftLeft, Nat.testBit_two_pow, Bool.or_eq_true, decide_eq_true_eq] at hbits
    rcases hbits with hrest | hhead
    · exact List.mem_cons_of_mem x (ih hrest)
    · rw [UInt8.toNat_inj.mp hhead]
      exact List.mem_cons_self

theorem mem_sbox (y : UInt8) : y ∈ sbox := by
  have hall : bytesSeen sbox = 2 ^ 256 - 1 := by decide +kernel
  apply mem_of_testBit
  rw [hall, Nat.testBit_two_pow_sub_one, decide_eq_true_eq]
  exact y.toNat_lt

theorem length_sbox : sbox.length = 256 := by decide +kernel

example : subByte 0x53 = 0xed := by decide +kernel

theorem subByte_injective : Function.Injective subByte := by
  let box : Fin 256 → Fin 256 := fun n => ⟨(subByte (UInt8.ofNat n)).toNat, UInt8.toNat_lt _⟩
  have hsurj : Function.Surjective box := by
    intro n
    obtain ⟨i, hi, hget⟩ := List.getElem_of_mem (mem_sbox (UInt8.ofNat n))
    have hlt : i < 256 := by rwa [length_sbox] at hi
    refine ⟨⟨i, hlt⟩, Fin.ext ?_⟩
    show (sbox.getD (UInt8.ofNat i).toNat 0).toNat = n
    rw [UInt8.toNat_ofNat', Nat.mod_eq_of_lt hlt, List.getD_eq_getElem?_getD, List.getElem?_eq_getElem hi,
      Option.getD_some, hget, UInt8.toNat_ofNat', Nat.mod_eq_of_lt n.isLt]
  have hinj : Function.Injective box := Finite.injective_iff_surjective.mpr hsurj
  intro x y h
  have hbox : box ⟨x.toNat, x.toNat_lt⟩ = box ⟨y.toNat, y.toNat_lt⟩ := by
    apply Fin.ext
    show (subByte (UInt8.ofNat x.toNat)).toNat = (subByte (UInt8.ofNat y.toNat)).toNat
    rw [UInt8.ofNat_toNat, UInt8.ofNat_toNat, h]
  exact UInt8.toNat_inj.mp (congrArg Fin.val (hinj hbox))

/-- `gfmul(a, 2)` -/
def xtime (a : UInt8) : UInt8 := if a &&& 0x80 ≠ 0 then (a <<< 1) ^^^ 0x1B else a <<< 1

theorem gfmul_two (a : UInt8) : gfmul a 2 = xtime a := by
  have hall : ∀ x : UInt8, gfmul x 2 = xtime x := forall_byte (by decide +kernel)
  exact hall a

theorem gfmul_three (a : UInt8) : gfmul a 3 = a ^^^ xtime a := by
  have hall : ∀ x : UInt8, gfmul x 3 = x ^^^ xtime x := forall_byte (by decide +kernel)
  exact hall a

theorem and_top_cases (a : UInt8) : a &&& 0x80 = 0 ∨ a &&& 0x80 = 0x80 := by
  have hall : ∀ x : UInt8, x &&& 0x80 = 0 ∨ x &&& 0x80 = 0x80 := forall_byte (by decide +kernel)
  exact hall a

theorem xtime_xor (a b : UInt8) : xtime (a ^^^ b) = xtime a ^^^ xtime b := by
  have hshift : (a ^^^ b) <<< 1 = (a <<< 1) ^^^ (b <<< 1) := UInt8.shiftLeft_xor
  have hmask : (a ^^^ b) &&& 0x80 = (a &&& 0x80) ^^^ (b &&& 0x80) := by
    apply UInt8.toNat_inj.mp
    simp only [UInt8.toNat_and, UInt8.toNat_xor, Nat.and_xor_distrib_right]
  unfold xtime
  rw [hshift, hmask]
  -- what is XORed in depends on the highest bits alone
  rcases and_top_cases a with ha | ha <;> rcases and_top_cases b with hb | hb <;> rw [ha, hb] <;>
    simp [UInt8.xor_assoc, UInt8.xor_comm, xorByte_left_comm]

/-! ## The parts of a round -/

theorem column_eq_zero {a0 a1 a2 a3 : UInt8} (h0 : xtime a0 ^^^ (a1 ^^^ xtime a1) ^^^ a2 ^^^ a3 = 0)
    (h1 : a0 ^^^ xtime a1 ^^^ (a2 ^^^ xtime a2) ^^^ a3 = 0) (h2 : a0 ^^^ a1 ^^^ xtime a2 ^^^ (a3 ^^^ xtime a3) = 0)
    (h3 : (a0 ^^^ xtime a0) ^^^ a1 ^^^ a2 ^^^ xtime a3 = 0) : a0 = 0 ∧ a1 = 0 ∧ a2 = 0 ∧ a3 = 0 := by
  -- The four sums together leave the sum of the column.
  have hsum : a0 ^^^ a1 ^^^ a2 ^^^ a3 = 0 := by
    calc a0 ^^^ a1 ^^^ a2 ^^^ a3
      _ = (xtime a0 ^^^ (a1 ^^^ xtime a1) ^^^ a2 ^^^ a3) ^^^ (a0 ^^^ xtime a1 ^^^ (a2 ^^^ xtime a2) ^^^ a3) ^^^
          (a0 ^^^ a1 ^^^ xtime a2 ^^^ (a3 ^^^ xtime a3)) ^^^ ((a0 ^^^ xtime a0) ^^^ a1 ^^^ a2 ^^^ xtime a3) := by
          simp only [UInt8.xor_assoc, UInt8.xor_comm, xorByte_left_comm, xorByte_cancel_left, UInt8.xor_self,
            UInt8.xor_zero]
      _ = 0 := by rw [h0, h1, h2, h3, UInt8.xor_self, UInt8.xor_self, UInt8.xor_self]
  have hdouble : xtime a0 ^^^ xtime a1 ^^^ xtime a2 ^^^ xtime a3 = 0 := by
    rw [← xtime_xor, ← xtime_xor, ← xtime_xor, hsum]
    rfl
  -- Two of them that are two apart leave two bytes that are two apart.
  have h02 : a0 = a2 := by
    apply xorByte_eq_zero_iff.mp
    calc a0 ^^^ a2
      _ = (xtime a0 ^^^ (a1 ^^^ xtime a1) ^^^ a2 ^^^ a3) ^^^ (a0 ^^^ a1 ^^^ xtime a2 ^^^ (a3 ^^^ xtime a3)) ^^^
          (xtime a0 ^^^ xtime a1 ^^^ xtime a2 ^^^ xtime a3) := by
          simp only [UInt8.xor_assoc, UInt8.xor_comm, xorByte_left_comm, xorByte_cancel_left, UInt8.xor_self,
            UInt8.xor_zero]
      _ = 0 := by rw [h0, h2, hdouble, UInt8.xor_self, UInt8.xor_self]
  have h13 : a1 = a3 := by
    apply xorByte_eq_zero_iff.mp
    calc a1 ^^^ a3
      _ = (a0 ^^^ xtime a1 ^^^ (a2 ^^^ xtime a2) ^^^ a3) ^^^ ((a0 ^^^ xtime a0) ^^^ a1 ^^^ a2 ^^^ xtime a3) ^^^
          (xtime a0 ^^^ xtime a1 ^^^ xtime a2 ^^^ xtime a3) := by
          simp only [UInt8.xor_assoc, UInt8.xor_comm, xorByte_left_comm, xorByte_cancel_left, UInt8.xor_self,
            UInt8.xor_zero]
      _ = 0 := by rw [h1, h3, hdouble, UInt8.xor_self, UInt8.xor_self]
  subst h02 h13
  have h01 : a0 = a1 := by
    apply xorByte_eq_zero_iff.mp
    calc a0 ^^^ a1
      _ = (xtime a0 ^^^ (a1 ^^^ xtime a1) ^^^ a0 ^^^ a1) ^^^ (a0 ^^^ xtime a1 ^^^ (a0 ^^^ xtime a0) ^^^ a1) := by
          simp only [UInt8.xor_assoc, UInt8.xor_comm, xorByte_left_comm, xorByte_cancel_left, UInt8.xor_self,
            UInt8.xor_zero]
      _ = 0 := by rw [h0, h1, UInt8.xor_self]
  subst h01
  have hzero : a0 = 0 := by
    calc a0 = xtime a0 ^^^ (a0 ^^^ xtime a0) ^^^ a0 ^^^ a0 := by
          simp only [UInt8.xor_comm, xorByte_left_comm, UInt8.xor_self, UInt8.xor_zero]
      _ = 0 := h0
  exact ⟨hzero, hzero, hzero, hzero⟩

/-- Byte `r` of a column after MixColumns. -/
def mixByte (a : Nat → UInt8) : Nat → UInt8
  | 0 => gfmul (a 0) 2 ^^^ gfmul (a 1) 3 ^^^ a 2 ^^^ a 3
  | 1 => a 0 ^^^ gfmul (a 1) 2 ^^^ gfmul (a 2) 3 ^^^ a 3
  | 2 => a 0 ^^^ a 1 ^^^ gfmul (a 2) 2 ^^^ gfmul (a 3) 3
  | _ => gfmul (a 0) 3 ^^^ a 1 ^^^ a 2 ^^^ gfmul (a 3) 2

theorem getElem_mixColumns (s : Block) (i : Nat) (hi : i < 16) :
    (mixColumns s)[i] = mixByte (fun j => s.toList.getD (i / 4 * 4 + j) 0) (i % 4) := by
  rw [mixColumns, Vector.getElem_ofFn]
  rfl

theorem mixByte_xor (a b : Nat → UInt8) (r : Nat) : mixByte (fun j => a j ^^^ b j) r = mixByte a r ^^^ mixByte b r := by
  have hthree : ∀ x y, gfmul (x ^^^ y) 3 = gfmul x 3 ^^^ gfmul y 3 := by
    intro x y
    rw [gfmul_three, gfmul_three, gfmul_three, xtime_xor]
    simp only [UInt8.xor_assoc, xorByte_left_comm]
  have htwo : ∀ x y, gfmul (x ^^^ y) 2 = gfmul x 2 ^^^ gfmul y 2 := by
    intro x y
    rw [gfmul_two, gfmul_two, gfmul_two, xtime_xor]
  unfold mixByte
  split <;> simp only [htwo, hthree, UInt8.xor_assoc, UInt8.xor_comm, xorByte_left_comm]

theorem mixByte_eq_zero {a : Nat → UInt8} (h : ∀ r < 4, mixByte a r = 0) : ∀ j < 4, a j = 0 := by
  have h0 := h 0 (by omega)
  have h1 := h 1 (by omega)
  have h2 := h 2 (by omega)
  have h3 := h 3 (by omega)
  simp only [mixByte, gfmul_two, gfmul_three] at h0 h1 h2 h3
  obtain ⟨z0, z1, z2, z3⟩ := column_eq_zero h0 h1 h2 h3
  intro j hj
  rcases (show j = 0 ∨ j = 1 ∨ j = 2 ∨ j = 3 by omega) with rfl | rfl | rfl | rfl
  · exact z0
  · exact z1
  · exact z2
  · exact z3

theorem mixColumns_injective : Function.Injective mixColumns := by
  intro s t h
  have hzero : ∀ i < 16, (xorBlock s t).toList.getD i 0 = 0 := by
    intro i hi
    have hcolumn := mixByte_eq_zero (a := fun j => (xorBlock s t).toList.getD (i / 4 * 4 + j) 0) (by
      intro r hr
      simp only [getD_xorBlock]
      rw [mixByte_xor]
      have hbyte : (mixColumns s)[i / 4 * 4 + r] = (mixColumns t)[i / 4 * 4 + r] := by rw [h]
      rw [getElem_mixColumns, getElem_mixColumns] at hbyte
      have hdiv : (i / 4 * 4 + r) / 4 = i / 4 := by omega
      have hmod : (i / 4 * 4 + r) % 4 = r := by omega
      rw [hdiv, hmod] at hbyte
      rw [hbyte, UInt8.xor_self])
    have := hcolumn (i % 4) (by omega)
    rwa [show i / 4 * 4 + i % 4 = i by omega] at this
  apply Vector.ext
  intro i hi
  have hbyte := hzero i hi
  rw [getD_xorBlock, getD_toList s i hi, getD_toList t i hi] at hbyte
  exact xorByte_eq_zero_iff.mp hbyte

theorem getElem_shiftRows (s : Block) (i : Nat) (hi : i < 16) : (shiftRows s)[i] = s[(i + i % 4 * 4) % 16] := by
  rw [shiftRows]
  simp only [List.getD_eq_getElem?_getD]
  interval_cases i <;> simp

theorem shiftRows_injective : Function.Injective shiftRows := by
  intro s t h
  apply Vector.ext
  intro i hi
  -- Byte `i` is in the row `i % 4`, and comes from as many columns on.
  have hplace : ((i + 12 * (i % 4)) % 16 + (i + 12 * (i % 4)) % 16 % 4 * 4) % 16 = i := by omega
  have hbyte : (shiftRows s)[(i + 12 * (i % 4)) % 16] = (shiftRows t)[(i + 12 * (i % 4)) % 16] := by rw [h]
  rw [getElem_shiftRows, getElem_shiftRows] at hbyte
  simpa only [hplace] using hbyte

theorem map_subByte_injective : Function.Injective fun s : Block => s.map subByte := by
  intro s t h
  apply Vector.ext
  intro i hi
  have hbyte : (s.map subByte)[i] = (t.map subByte)[i] := by rw [show s.map subByte = t.map subByte from h]
  rw [Vector.getElem_map, Vector.getElem_map] at hbyte
  exact subByte_injective hbyte

theorem addRoundKey_injective (ctx : Aes256Ctx) (round : Nat) : Function.Injective (addRoundKey ctx round) := by
  intro s t h
  apply Vector.ext
  intro i hi
  have hbyte : (addRoundKey ctx round s)[i] = (addRoundKey ctx round t)[i] := by rw [h]
  rw [addRoundKey, addRoundKey, Vector.getElem_ofFn, Vector.getElem_ofFn, UInt8.xor_comm, UInt8.xor_comm (t.get _)]
    at hbyte
  have hcancel := congrArg (ctx.rk round i ^^^ ·) hbyte
  simp only [xorByte_cancel_left] at hcancel
  exact hcancel

theorem secAes256EncryptBlock_injective (ctx : Aes256Ctx) : Function.Injective (secAes256EncryptBlock ctx) := by
  have hround : ∀ round, Function.Injective fun s : Block =>
      addRoundKey ctx round (if round < 14 then mixColumns (shiftRows (s.map subByte))
        else shiftRows (s.map subByte)) := by
    intro round s t h
    have hinner := addRoundKey_injective ctx round h
    apply map_subByte_injective
    apply shiftRows_injective
    split at hinner
    · exact mixColumns_injective hinner
    · exact hinner
  intro s t h
  exact addRoundKey_injective ctx 0 (forEach_injective (fun i _ => hround (i + 1)) h)

/-! ## The keystream -/

theorem bump_getD_of_le (counter : Block) {n i : Nat} (hi : n ≤ i) :
    (bump counter n).toList.getD i 0 = counter.toList.getD i 0 := by
  induction n generalizing counter with
  | zero => rfl
  | succ n ih =>
    have hset : ∀ byte, (counter.setIfInBounds n byte).toList.getD i 0 = counter.toList.getD i 0 := by
      intro byte
      rw [Vector.toList_setIfInBounds, List.getD_eq_getElem?_getD, List.getElem?_set_ne (by omega),
        List.getD_eq_getElem?_getD]
    simp only [bump]
    split
    · exact hset _
    · rw [ih _ (by omega), hset]

theorem bump_ne (counter : Block) : bump counter 16 ≠ counter := by
  intro h
  have hlast : (bump counter 16).toList.getD 15 0 = counter.toList.getD 15 0 + 1 := by
    have hset : (counter.setIfInBounds 15 (counter.toList.getD 15 0 + 1)).toList.getD 15 0 =
        counter.toList.getD 15 0 + 1 := by
      simp [List.getD_eq_getElem?_getD]
    rw [bump]
    split
    · exact hset
    · rw [bump_getD_of_le _ (Nat.le_refl 15), hset]
  rw [h] at hlast
  have hone : (1 : UInt8) = 0 := by
    calc (1 : UInt8) = 1 + counter.toList.getD 15 0 - counter.toList.getD 15 0 :=
          (UInt8.add_sub_cancel _ _).symm
      _ = counter.toList.getD 15 0 - counter.toList.getD 15 0 := by rw [UInt8.add_comm, ← hlast]
      _ = 0 := UInt8.sub_self _
  exact absurd hone (by decide)

theorem keystream_ne_zero (ctx : Aes256Ctx) (counter : Block) : secAes256EncryptBlock ctx counter ≠ zeroBlock ∨
      secAes256EncryptBlock ctx (bump counter 16) ≠ zeroBlock := by
  by_contra h
  rw [not_or, not_not, not_not] at h
  exact bump_ne counter (secAes256EncryptBlock_injective ctx (h.2.trans h.1.symm))

end Chicago95.Stage2.Aes
