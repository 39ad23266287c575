/-
# Chicago95.Lib.GaloisCounter — Galois/Counter Mode, SP 800-38D, over any block function.

A block is 128 bits, the leftmost of them the highest; bit `i` is the coefficient of `x ^ i`. `mul` is the
product of the standard, `ghash` the hash over it, `gctr` counter mode, and `encrypt` the authenticated
encryption for a nonce of 96 bits.
-/
import Mathlib
import Chicago95.Lib.Absorb
import Chicago95.Lib.Digits
import Chicago95.Lib.Keystream

namespace Chicago95.Lib.GaloisCounter

open Chicago95.Lib.Absorb Chicago95.Lib.Digits Chicago95.Lib.Keystream

/-! ## The standard -/

/-- `R = 11100001 ‖ 0^120` -/
def reduction : BitVec 128 := 0xE1#128 <<< 120

/-- `V` times `x`: one place to the right, and `R` for the bit that falls out. -/
def timesX (v : BitVec 128) : BitVec 128 := (v >>> 1) ^^^ (if v.getLsbD 0 then reduction else 0)

/-- `X • Y`: what the bits of `X` pick out of `Y`, `Y x`, …, `Y x^127`. -/
def mul (x y : BitVec 128) : BitVec 128 :=
  (List.range 128).foldl (fun z i => if x.getMsbD i then z ^^^ timesX^[i] y else z) 0

/-- `GHASH_H` -/
def ghash (h : BitVec 128) (xs : List (BitVec 128)) : BitVec 128 := xs.foldl (fun y x => mul (y ^^^ x) h) 0

/-- The block of sixteen bytes. -/
def ofBytes (bs : List UInt8) : BitVec 128 := BitVec.ofNat 128 (ofBigEndian bs)

def toBytes (x : BitVec 128) : List UInt8 := bigEndian 16 x.toNat

def inc32 (x : BitVec 128) : BitVec 128 := x.extractLsb' 32 96 ++ (x.extractLsb' 0 32 + 1)

/-- `GCTR`, from the counter block `icb` on. -/
def gctr (E : BitVec 128 → BitVec 128) (icb : BitVec 128) (xs : List UInt8) : List UInt8 :=
  mask 16 (fun cb => toBytes (E cb)) inc32 ((xs.length + 15) / 16) icb xs

/-- Zeros up to the next multiple of 16 bytes. -/
def zeroPad (xs : List UInt8) : List UInt8 := xs ++ List.replicate ((16 - xs.length % 16) % 16) 0

/-- `A ‖ 0^v ‖ C ‖ 0^u ‖ [len A]_64 ‖ [len C]_64` -/
def hashInput (aad ciphertext : List UInt8) : List UInt8 :=
  zeroPad aad ++ zeroPad ciphertext ++ bigEndian 8 (8 * aad.length) ++ bigEndian 8 (8 * ciphertext.length)

def toBlocks (xs : List UInt8) : List (BitVec 128) := (blocks 16 xs).map fun b => ofBytes b.toList

/-- `J_0`, for a nonce of 96 bits. -/
def firstCounter (iv : BitVec 96) : BitVec 128 := iv ++ 1#32

/-- **Authenticated encryption**: the ciphertext and the tag. -/
def encrypt (E : BitVec 128 → BitVec 128) (iv : BitVec 96) (plaintext aad : List UInt8) :
    List UInt8 × BitVec 128 :=
  let ciphertext := gctr E (inc32 (firstCounter iv)) plaintext
  (ciphertext, ghash (E 0) (toBlocks (hashInput aad ciphertext)) ^^^ E (firstCounter iv))

theorem head?_gctr {E : BitVec 128 → BitVec 128} {icb : BitVec 128} {b : UInt8}
    (hblock : (toBytes (E icb)).head? = some b) (x : UInt8) (xs : List UInt8) :
    (gctr E icb (x :: xs)).head? = some (x ^^^ b) := by
  unfold gctr
  refine head?_mask ?_ (by decide) ?_ x xs
  · exact hblock
  · rw [List.length_cons]
    omega

@[simp] theorem mul_zero_left (y : BitVec 128) : mul 0 y = 0 := by
  unfold mul
  refine List.foldlRecOn (List.range 128) _ (motive := fun z => z = 0) rfl fun z hz i _ => ?_
  rw [show (0 : BitVec 128).getMsbD i = false by simp]
  exact hz

theorem encrypt_nil (E : BitVec 128 → BitVec 128) (iv : BitVec 96) :
    encrypt E iv [] [] = ([], E (firstCounter iv)) := by
  have hblocks : toBlocks (hashInput [] []) = [0] := by decide
  unfold encrypt
  rw [show gctr E (inc32 (firstCounter iv)) [] = [] from rfl]
  dsimp only
  rw [hblocks]
  unfold ghash
  rw [List.foldl_cons, List.foldl_nil]
  show ([], mul 0 (E 0) ^^^ E (firstCounter iv)) = _
  rw [mul_zero_left]
  exact congrArg _ (BitVec.zero_xor)

theorem zeroPad_of_dvd {xs : List UInt8} (hdvd : 16 ∣ xs.length) : zeroPad xs = xs := by
  unfold zeroPad
  rw [Nat.mod_eq_zero_of_dvd hdvd]
  exact List.append_nil xs

theorem toBlocks_hashInput {aad : List UInt8} (hdvd : 16 ∣ aad.length) :
    toBlocks (hashInput aad []) = toBlocks aad ++ [ofBytes (bigEndian 8 (8 * aad.length) ++ bigEndian 8 0)] := by
  have hinput : hashInput aad [] = aad ++ (bigEndian 8 (8 * aad.length) ++ bigEndian 8 0) := by
    unfold hashInput
    have hnil : zeroPad [] = [] := zeroPad_of_dvd (Nat.dvd_zero 16)
    rw [zeroPad_of_dvd hdvd, hnil, List.append_nil, List.append_assoc]
    rfl
  have hlen : (bigEndian 8 (8 * aad.length) ++ bigEndian 8 0).length = 16 := by
    rw [List.length_append, length_bigEndian, length_bigEndian]
  unfold toBlocks
  rw [hinput, blocks_append (by decide), List.map_append, Nat.mod_eq_zero_of_dvd hdvd, hlen]
  refine congrArg _ (congrArg (fun bs => [ofBytes bs]) (List.ext_getElem ?_ fun j hj hj' => ?_))
  · rw [Vector.length_toList, hlen]
  · rw [Vector.getElem_toList, getElem_blockAt, Nat.add_zero, Nat.mul_div_cancel' hdvd,
      List.getD_eq_getElem?_getD, List.getElem?_append_right (Nat.le_add_right _ _), Nat.add_sub_cancel_left,
      List.getElem?_eq_getElem hj', Option.getD_some]

theorem lengthBlock_ne_zero {n : Nat} (hpos : 0 < n) (hn : n < 2 ^ 64) :
    ofBytes (bigEndian 8 n ++ bigEndian 8 0) ≠ 0 := by
  intro hzero
  have hval := congrArg BitVec.toNat hzero
  unfold ofBytes at hval
  rw [BitVec.toNat_ofNat, ofBigEndian_append, ofBigEndian_bigEndian, ofBigEndian_bigEndian, length_bigEndian] at hval
  simp at hval
  omega

/-! ## Bits as a polynomial -/

section Bits

variable {w : Nat} {R : Type*} [CommRing R] {g : R}

/-- One place to the right, and `r` for the bit that falls out. -/
def shiftX (r v : BitVec w) : BitVec w := (v >>> 1) ^^^ (if v.getLsbD 0 then r else 0)

theorem timesX_eq (v : BitVec 128) : timesX v = shiftX reduction v := rfl

/-- The polynomial whose coefficients are the bits, the leftmost one first, at `g`. -/
def evalBits (g : R) (v : BitVec w) : R := ∑ i ∈ Finset.range w, if v.getMsbD i then g ^ i else 0

@[simp] theorem evalBits_zero : evalBits g (0 : BitVec w) = 0 :=
  Finset.sum_eq_zero fun i _ => by simp

theorem evalBits_xor (htwo : ∀ a : R, a + a = 0) (a b : BitVec w) :
    evalBits g (a ^^^ b) = evalBits g a + evalBits g b := by
  unfold evalBits
  rw [← Finset.sum_add_distrib]
  refine Finset.sum_congr rfl fun i _ => ?_
  rw [BitVec.getMsbD_xor]
  cases a.getMsbD i <;> cases b.getMsbD i <;> simp [htwo]

theorem evalBits_eq_sum {v : BitVec w} {s : Finset Nat} (hsub : s ⊆ Finset.range w)
    (hbits : ∀ i < w, v.getMsbD i = decide (i ∈ s)) : evalBits g v = ∑ i ∈ s, g ^ i := by
  unfold evalBits
  rw [← Finset.sum_subset hsub fun i hi hnot => ?_]
  · refine Finset.sum_congr rfl fun i hi => ?_
    rw [hbits i (Finset.mem_range.mp (hsub hi)), decide_eq_true hi]
    rfl
  · rw [hbits i (Finset.mem_range.mp hi), decide_eq_false hnot]
    rfl

/-- **The shift multiplies by `g`**, when `r` stands for the power that falls out. -/
theorem evalBits_shiftX (htwo : ∀ a : R, a + a = 0) {r : BitVec w} (hr : evalBits g r = g ^ w) (hw : 0 < w)
    (v : BitVec w) : evalBits g (shiftX r v) = g * evalBits g v := by
  obtain ⟨n, rfl⟩ : ∃ n, w = n + 1 := ⟨w - 1, by omega⟩
  have hshift : evalBits g (v >>> 1) = ∑ i ∈ Finset.range n, if v.getMsbD i then g ^ (i + 1) else 0 := by
    unfold evalBits
    rw [Finset.sum_range_succ' _ n]
    have hzero : (v >>> 1).getMsbD 0 = false := by simp
    rw [hzero, if_neg (by decide), add_zero]
    refine Finset.sum_congr rfl fun i hi => ?_
    have hbit : (v >>> 1).getMsbD (i + 1) = v.getMsbD i := by
      have := Finset.mem_range.mp hi
      rw [BitVec.getMsbD_ushiftRight]
      simp
      omega
    rw [hbit]
  have hlast : v.getLsbD 0 = v.getMsbD n := by
    rw [BitVec.getMsbD_eq_getLsbD]
    simp
  have hmul : g * evalBits g v = (∑ i ∈ Finset.range n, if v.getMsbD i then g ^ (i + 1) else 0) +
      if v.getMsbD n then g ^ (n + 1) else 0 := by
    unfold evalBits
    rw [Finset.sum_range_succ _ n, mul_add, Finset.mul_sum]
    refine congrArg₂ _ (Finset.sum_congr rfl fun i _ => ?_) ?_
    · rw [mul_ite, mul_zero, ← pow_succ']
    · rw [mul_ite, mul_zero, ← pow_succ']
  unfold shiftX
  rw [evalBits_xor htwo, hshift, hlast, hmul]
  refine congrArg₂ _ rfl ?_
  split
  · exact hr
  · exact evalBits_zero

end Bits

/-! ## The ring -/

section Ring

open Polynomial

noncomputable def modulus : (ZMod 2)[X] := X ^ 128 + (X ^ 7 + X ^ 2 + X + 1)

theorem modulus_eq : modulus = X ^ 128 + (X ^ 7 + X ^ 2 + X + 1) := by
  unfold modulus
  with_reducible rfl

theorem modulus_monic : modulus.Monic := by
  rw [modulus_eq]
  exact monic_X_pow_add (by compute_degree!)

theorem degree_modulus : modulus.degree = 128 := by
  rw [modulus_eq]
  compute_degree!

abbrev GaloisRing := AdjoinRoot modulus

/-- `x` -/
noncomputable abbrev gen : GaloisRing := AdjoinRoot.root modulus

theorem add_self (a : GaloisRing) : a + a = 0 := by
  have htwo : AdjoinRoot.of modulus (1 + 1) = 0 := by
    rw [show (1 + 1 : ZMod 2) = 0 from rfl, map_zero]
  rw [map_add, map_one] at htwo
  calc a + a = (1 + 1) * a := by ring
    _ = 0 := by rw [htwo, zero_mul]

theorem eq_of_add_eq_zero {a b : GaloisRing} (h : a + b = 0) : a = b := by
  have hb := add_self b
  linear_combination h - hb

theorem gen_pow : gen ^ 128 = gen ^ 7 + gen ^ 2 + gen + 1 := by
  have hroot := congrArg (AdjoinRoot.mk modulus) modulus_eq
  rw [AdjoinRoot.mk_self, map_add, map_add, map_add, map_add, map_pow, map_pow, map_pow, map_one,
    AdjoinRoot.mk_X] at hroot
  exact eq_of_add_eq_zero hroot.symm

/-- The element that a block stands for. -/
noncomputable def toRing (v : BitVec 128) : GaloisRing := evalBits gen v

@[simp] theorem toRing_zero : toRing 0 = 0 := evalBits_zero

theorem toRing_xor (a b : BitVec 128) : toRing (a ^^^ b) = toRing a + toRing b := evalBits_xor add_self a b

theorem toRing_reduction : toRing reduction = gen ^ 128 := by
  have hsum : toRing reduction = ∑ i ∈ ({0, 1, 2, 7} : Finset Nat), gen ^ i :=
    evalBits_eq_sum (by decide) (by decide)
  rw [hsum, gen_pow, Finset.sum_insert (by decide), Finset.sum_insert (by decide),
    Finset.sum_insert (by decide), Finset.sum_singleton]
  ring

theorem toRing_timesX (v : BitVec 128) : toRing (timesX v) = gen * toRing v :=
  evalBits_shiftX add_self toRing_reduction (by decide) v

theorem toRing_one : toRing (1#128 <<< 127) = 1 := by
  have hsum : toRing (1#128 <<< 127) = ∑ i ∈ ({0} : Finset Nat), gen ^ i :=
    evalBits_eq_sum (by decide) (by decide)
  rw [hsum, Finset.sum_singleton, pow_zero]

theorem toRing_timesX_iterate (v : BitVec 128) (n : Nat) : toRing (timesX^[n] v) = gen ^ n * toRing v := by
  induction n with
  | zero => rw [Function.iterate_zero_apply, pow_zero, one_mul]
  | succ n ih => rw [Function.iterate_succ_apply', toRing_timesX, ih, pow_succ', mul_assoc]

/-- **The product** is that of the ring. -/
theorem toRing_mul (x y : BitVec 128) : toRing (mul x y) = toRing x * toRing y := by
  have hloop : ∀ n, toRing ((List.range n).foldl (fun z i => if x.getMsbD i then z ^^^ timesX^[i] y else z) 0) =
      (∑ i ∈ Finset.range n, if x.getMsbD i then gen ^ i else 0) * toRing y := by
    intro n
    induction n with
    | zero => rw [List.range_zero, List.foldl_nil, toRing_zero, Finset.sum_range_zero, zero_mul]
    | succ n ih =>
      rw [List.range_succ, List.foldl_append, List.foldl_cons, List.foldl_nil, Finset.sum_range_succ, add_mul,
        ← ih]
      split
      · rw [toRing_xor, toRing_timesX_iterate]
      · rw [zero_mul, add_zero]
  exact hloop 128

/-- The hash of some blocks, as a polynomial in the hash key. -/
noncomputable def hashPoly (xs : List (BitVec 128)) : GaloisRing[X] :=
  xs.foldl (fun p x => (p + C (toRing x)) * X) 0

theorem hashPoly_concat (xs : List (BitVec 128)) (x : BitVec 128) :
    hashPoly (xs ++ [x]) = (hashPoly xs + C (toRing x)) * X := by
  unfold hashPoly
  rw [List.foldl_append, List.foldl_cons, List.foldl_nil]

theorem ghash_concat (h : BitVec 128) (xs : List (BitVec 128)) (x : BitVec 128) :
    ghash h (xs ++ [x]) = mul (ghash h xs ^^^ x) h := by
  unfold ghash
  rw [List.foldl_append, List.foldl_cons, List.foldl_nil]

/-- **The hash** evaluates it. -/
theorem toRing_ghash (h : BitVec 128) (xs : List (BitVec 128)) :
    toRing (ghash h xs) = (hashPoly xs).eval (toRing h) := by
  induction xs using List.reverseRecOn with
  | nil =>
    show toRing 0 = eval (toRing h) 0
    rw [toRing_zero, eval_zero]
  | append_singleton xs x ih =>
    rw [ghash_concat, toRing_mul, toRing_xor, ih, hashPoly_concat, eval_mul, eval_add, eval_C, eval_X]

theorem natDegree_hashPoly_le (xs : List (BitVec 128)) : (hashPoly xs).natDegree ≤ xs.length := by
  induction xs using List.reverseRecOn with
  | nil => exact Nat.le_of_eq natDegree_zero
  | append_singleton xs x ih =>
    rw [hashPoly_concat, List.length_append, List.length_singleton]
    calc ((hashPoly xs + C (toRing x)) * X).natDegree
        ≤ (hashPoly xs + C (toRing x)).natDegree + (X : GaloisRing[X]).natDegree := natDegree_mul_le
      _ ≤ xs.length + 1 := by
          refine Nat.add_le_add ?_ natDegree_X_le
          rw [natDegree_add_C]
          exact ih

theorem coeff_hashPoly_concat (xs : List (BitVec 128)) (x : BitVec 128) :
    (hashPoly (xs ++ [x])).coeff 1 = toRing x := by
  have hconst : (hashPoly xs).coeff 0 = 0 := by
    induction xs using List.reverseRecOn with
    | nil => exact coeff_zero 0
    | append_singleton xs y _ => rw [hashPoly_concat, mul_coeff_zero, coeff_X_zero, mul_zero]
  rw [hashPoly_concat, coeff_mul_X, coeff_add, hconst, coeff_C_zero, zero_add]

/-- The polynomial that a block stands for. -/
noncomputable def toPoly (v : BitVec 128) : (ZMod 2)[X] :=
  ∑ i ∈ Finset.range 128, if v.getMsbD i then X ^ i else 0

theorem toRing_eq_mk (v : BitVec 128) : toRing v = AdjoinRoot.mk modulus (toPoly v) := by
  unfold toRing evalBits toPoly
  rw [map_sum]
  refine Finset.sum_congr rfl fun i _ => ?_
  split
  · rw [map_pow, AdjoinRoot.mk_X]
  · rw [map_zero]

theorem degree_toPoly_lt (v : BitVec 128) : (toPoly v).degree < 128 := by
  refine mem_degreeLT.mp (Submodule.sum_mem _ fun i hi => ?_)
  split
  · rw [mem_degreeLT, degree_X_pow]
    exact_mod_cast Finset.mem_range.mp hi
  · exact Submodule.zero_mem _

theorem coeff_toPoly (v : BitVec 128) {i : Nat} (hi : i < 128) : (toPoly v).coeff i = if v.getMsbD i then 1 else 0 := by
  unfold toPoly
  rw [finsetSum_coeff, Finset.sum_eq_single i]
  · split
    · rw [coeff_X_pow_self]
    · rw [coeff_zero]
  · intro j _ hne
    split
    · rw [coeff_X_pow, if_neg hne.symm]
    · rw [coeff_zero]
  · exact fun hnot => absurd (Finset.mem_range.mpr hi) hnot

theorem eq_zero_of_mk_eq_zero {R : Type*} [CommRing R] {f q : R[X]} (hf : f.Monic) (hq : q.degree < f.degree)
    (h : AdjoinRoot.mk f q = 0) : q = 0 := by
  by_contra hne
  exact hf.not_dvd_of_degree_lt hne hq (AdjoinRoot.mk_eq_zero.mp h)

/-- **Only the zero block** stands for zero. -/
theorem toRing_eq_zero {v : BitVec 128} (h : toRing v = 0) : v = 0 := by
  have hlt : (toPoly v).degree < modulus.degree := by
    rw [degree_modulus]
    exact degree_toPoly_lt v
  have hpoly : toPoly v = 0 := eq_zero_of_mk_eq_zero modulus_monic hlt ((toRing_eq_mk v).symm.trans h)
  refine BitVec.eq_of_getMsbD_eq fun i hi => ?_
  have hcoeff := coeff_toPoly v hi
  rw [hpoly, coeff_zero] at hcoeff
  cases hbit : v.getMsbD i with
  | false => simp
  | true =>
    rw [hbit] at hcoeff
    exact absurd hcoeff (by decide)

end Ring

/-! ## Roots -/

section Roots

open Polynomial

variable {R : Type*} [CommRing R]

/-- **Too many roots**, whose differences are units. -/
theorem eq_zero_of_roots {l : List R} (hunit : l.Pairwise fun a b => IsUnit (b - a)) {p : R[X]}
    (hdeg : p.degree < l.length) (hroots : ∀ a ∈ l, p.eval a = 0) : p = 0 := by
  nontriviality R
  induction l generalizing p with
  | nil => exact degree_eq_bot.mp (by simpa using hdeg)
  | cons a l ih =>
    rw [List.pairwise_cons] at hunit
    obtain ⟨q, rfl⟩ := dvd_iff_isRoot.mpr (hroots a List.mem_cons_self)
    -- the other roots are roots of the quotient, since their differences from `a` can be cancelled
    have hq : q = 0 := by
      refine ih hunit.2 ?_ fun b hb => ?_
      · rw [mul_comm, (monic_X_sub_C a).degree_mul, degree_X_sub_C, List.length_cons, Nat.cast_add,
          Nat.cast_one] at hdeg
        exact lt_of_add_lt_add_right hdeg
      · have hprod := hroots b (List.mem_cons_of_mem a hb)
        rw [eval_mul, eval_sub, eval_X, eval_C] at hprod
        exact (hunit.1 b hb).mul_right_eq_zero.mp hprod
    rw [hq, mul_zero]

end Roots

end Chicago95.Lib.GaloisCounter
