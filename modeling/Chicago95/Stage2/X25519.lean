/-
# Chicago95.Stage2.X25519 — `curve25519_scalarmult` of `security/common/crypto/crypto.c`.

The ladder of the source has a conditional swap and no step: the swap writes back to `x2` what it read from it, and
the field operations above it are not called. What comes out is the point with its first limb set to one
(`scalarmult_eq`), for every scalar, so that every public key and every shared secret is the same 32 bytes
(`publicKey_eq`, `sharedSecret_eq`).
-/
import Chicago95.Lib.Digits
import Chicago95.Lib.Lucas
import Chicago95.Lib.Montgomery
import Mathlib.NumberTheory.LegendreSymbol.Basic
import Mathlib.Tactic.IntervalCases

namespace Chicago95.Stage2.X25519

open Chicago95.Lib.Digits Chicago95.Lib.Lucas Chicago95.Lib.Montgomery

/-! ## The code -/

abbrev Fe25519 := Vector UInt64 4

def fe25519FromBytes (input : Vector UInt8 32) : Fe25519 :=
  let limb := fun i => (List.range 8).foldl
    (fun out j => out ||| (input.toList.getD (i * 8 + j) 0).toUInt64 <<< UInt64.ofNat (j * 8)) 0
  let out := Vector.ofFn fun i : Fin 4 => limb i.val
  out.setIfInBounds 0 (out.toList.getD 0 0 &&& 0x7FFFFFFFFFFFFFFF)

/-- The carry of bit 63 from limb to limb in `fe25519_to_bytes`, which leaves the bit where it was. -/
def carryLimbs (t : Fe25519) (carry : UInt64) : Fe25519 × UInt64 :=
  (List.range' 1 3).foldl
    (fun s i => let limb := s.1.toList.getD i 0 + s.2
      (s.1.setIfInBounds i limb, limb >>> 63)) (t, carry)

def fe25519ToBytes (input : Fe25519) : Vector UInt8 32 :=
  let low := input.toList.getD 0 0 + 19
  let t := (carryLimbs (input.setIfInBounds 0 low) (low >>> 63)).1
  let t := t.setIfInBounds 3 (t.toList.getD 3 0 &&& 0x7FFFFFFFFFFFFFFF)
  Vector.ofFn fun i => (t.toList.getD (i.val / 8) 0 >>> UInt64.ofNat (i.val % 8 * 8)).toUInt8

/-- `e`, the scalar with its bits set and cleared. -/
def clamp (scalar : Vector UInt8 32) : Vector UInt8 32 :=
  let e := scalar.setIfInBounds 0 (scalar.toList.getD 0 0 &&& 248)
  e.setIfInBounds 31 (e.toList.getD 31 0 &&& 127 ||| 64)

/-- `bit` at the position `pos` -/
def scalarBit (e : Vector UInt8 32) (pos : Nat) : Bool :=
  (e.toList.getD (pos / 8) 0 >>> UInt8.ofNat (pos % 8)) &&& 1 != 0

/-- The conditional swap of limb `i`: `dummy` is what `x2` gets back. -/
def swapLimb (bit : Bool) (s : Fe25519 × Fe25519) (i : Nat) : Fe25519 × Fe25519 :=
  let dummy := if bit then s.1.toList.getD i 0 else s.2.toList.getD i 0
  if bit then (s.1.setIfInBounds i dummy, s.2.setIfInBounds i (s.1.toList.getD i 0)) else s

/-- The body of the loop over `pos`, on `x2` and `x3`. -/
def ladderBody (e : Vector UInt8 32) (s : Fe25519 × Fe25519) (pos : Nat) : Fe25519 × Fe25519 :=
  (List.range 4).foldl (swapLimb (scalarBit e pos)) s

/-- `curve25519_scalarmult`, from what the stack holds in `x3`. -/
def curve25519Scalarmult (x3 : Fe25519) (scalar point : Vector UInt8 32) : Vector UInt8 32 :=
  let x2 := (fe25519FromBytes point).setIfInBounds 0 1
  fe25519ToBytes ((List.range 255).reverse.foldl (ladderBody (clamp scalar)) (x2, x3)).1

def secCurve25519SharedSecret (x3 : Fe25519) (scalar point : Vector UInt8 32) : Vector UInt8 32 :=
  curve25519Scalarmult x3 scalar point

/-- The base point, `9` on 32 bytes. -/
def basePoint : Vector UInt8 32 := Vector.ofFn fun i => if i.val = 0 then 9 else 0

/-- The public key of a scalar. -/
def publicKey (x3 : Fe25519) (scalar : Vector UInt8 32) : Vector UInt8 32 :=
  secCurve25519SharedSecret x3 scalar basePoint

/-! ## The scalar multiplication of RFC 7748 -/

/-- The field modulo `2 ^ 255 - 19`. -/
abbrev Field25519 := ZMod (2 ^ 255 - 19)

def decodeLittleEndian (b : Vector UInt8 32) : Nat := value 256 (fun i => (b.toList.getD i 0).toNat) 32

def decodeScalar25519 (k : Vector UInt8 32) : Nat := decodeLittleEndian (clamp k)

/-- `decodeUCoordinate`, which clears the bit that the field does not use. -/
def decodeUCoordinate (u : Vector UInt8 32) : Field25519 :=
  decodeLittleEndian (u.setIfInBounds 31 (u.toList.getD 31 0 &&& 127))

def encodeUCoordinate (x : Field25519) : Vector UInt8 32 :=
  Vector.ofFn fun i => UInt8.ofNat (x.val / 256 ^ i.val)

/-- `X25519`: the ladder over the 255 bits of the scalar, and `x / z` by Fermat's power. -/
def x25519 (k u : Vector UInt8 32) : Vector UInt8 32 :=
  let p := result 121665 (decodeUCoordinate u) (bitsDown (decodeScalar25519 k) 255)
  encodeUCoordinate (p.1 * p.2 ^ (2 ^ 255 - 21))

/-- **What key agreement asks** of two scalars: the two shared secrets are one, and it is the one that RFC 7748
gives. -/
def Agrees (x3 : Nat → Fe25519) (a b : Vector UInt8 32) : Prop :=
  secCurve25519SharedSecret (x3 0) a (publicKey (x3 1) b) =
      secCurve25519SharedSecret (x3 2) b (publicKey (x3 3) a) ∧
    secCurve25519SharedSecret (x3 0) a (publicKey (x3 1) b) = x25519 a (x25519 b basePoint)

/-! ## The code leaves the point -/

theorem setIfInBounds_getD (v : Fe25519) (i : Nat) : v.setIfInBounds i (v.toList.getD i 0) = v := by
  apply Vector.ext
  intro j hj
  rw [Vector.getElem_setIfInBounds]
  split
  · next hij =>
      subst hij
      simp [List.getD_eq_getElem?_getD, hj]
  · rfl

theorem swapLimb_fst (bit : Bool) (s : Fe25519 × Fe25519) (i : Nat) : (swapLimb bit s i).1 = s.1 := by
  cases bit with
  | false => rfl
  | true => exact setIfInBounds_getD s.1 i

theorem foldl_fst {α β γ : Type} {f : α × β → γ → α × β} (hf : ∀ s c, (f s c).1 = s.1) (l : List γ)
    (s : α × β) : (l.foldl f s).1 = s.1 := by
  induction l generalizing s with
  | nil => rfl
  | cons c l ih =>
    show (l.foldl f (f s c)).1 = s.1
    rw [ih, hf]

theorem ladderBody_fst (e : Vector UInt8 32) (s : Fe25519 × Fe25519) (pos : Nat) : (ladderBody e s pos).1 = s.1 :=
  foldl_fst (swapLimb_fst _) _ s

theorem scalarmult_eq (x3 : Fe25519) (scalar point : Vector UInt8 32) : curve25519Scalarmult x3 scalar point =
      fe25519ToBytes ((fe25519FromBytes point).setIfInBounds 0 1) := by
  rw [curve25519Scalarmult, foldl_fst (ladderBody_fst _)]

/-- What comes out for the base point: `20` on 32 bytes. -/
def output : Vector UInt8 32 := Vector.ofFn fun i => if i.val = 0 then 20 else 0

theorem publicKey_eq (x3 : Fe25519) (scalar : Vector UInt8 32) : publicKey x3 scalar = output := by
  rw [publicKey, secCurve25519SharedSecret, scalarmult_eq]
  decide +kernel

theorem sharedSecret_eq (x3 x3' : Fe25519) (a b : Vector UInt8 32) :
    secCurve25519SharedSecret x3 a (publicKey x3' b) = output := by
  rw [publicKey_eq, secCurve25519SharedSecret, scalarmult_eq]
  decide +kernel

/-! ## What RFC 7748 never returns -/

instance fieldPrime : Fact (Nat.Prime (2 ^ 255 - 19)) := ⟨Lib.Lucas.prime_two_pow_255_sub_19⟩

theorem decode_encode (x : Field25519) : decodeLittleEndian (encodeUCoordinate x) = x.val := by
  have hval : x.val < 256 ^ 32 := Nat.lt_trans (ZMod.val_lt x) (by norm_num)
  calc decodeLittleEndian (encodeUCoordinate x)
    _ = value 256 (fun i => x.val / 256 ^ i % 256) 32 := by
        apply value_congr
        intro i hi
        simp [encodeUCoordinate, List.getD_eq_getElem?_getD, hi]
    _ = x.val % 256 ^ 32 := value_digits _
    _ = x.val := Nat.mod_eq_of_lt hval

theorem testBit_decodeScalar (k : Vector UInt8 32) {t : Nat} (ht : t < 2) :
    (decodeScalar25519 k).testBit t = false := by
  have hbyte : ((clamp k).toList.getD 0 0).toNat = (k.toList.getD 0 0).toNat &&& 248 := by
    simp [clamp, List.getD_eq_getElem?_getD]
  have hlow : decodeScalar25519 k % 2 ^ 8 = (k.toList.getD 0 0).toNat &&& 248 := by
    rw [← hbyte]
    show value 256 (fun i => ((clamp k).toList.getD i 0).toNat) 32 % 256 = _
    rw [← Nat.div_one (value _ _ _)]
    exact digit_of_value (fun i _ => UInt8.toNat_lt _) (show 0 < 32 by omega)
  calc (decodeScalar25519 k).testBit t
    _ = (decodeScalar25519 k % 2 ^ 8).testBit t := by
        rw [Nat.testBit_mod_two_pow, decide_eq_true (by omega), Bool.true_and]
    _ = ((k.toList.getD 0 0).toNat.testBit t && (248 : Nat).testBit t) := by
        rw [hlow, Nat.testBit_and]
    _ = false := by
        have hmask : (248 : Nat).testBit t = false := by interval_cases t <;> rfl
        rw [hmask, Bool.and_false]

theorem not_isSquare : ¬ IsSquare (9733641 : Field25519) := by
  rw [ZMod.euler_criterion (2 ^ 255 - 19) (ofNat_ne_zero (by norm_num))]
  -- Euler's power is the last residue, minus one.
  norm_num
  reduce_mod_char
  exact ofNat_ne_one (by norm_num)

theorem eq_twenty {x : Field25519} (h : encodeUCoordinate x = output) : x = 20 := by
  have htwenty : decodeLittleEndian output = 20 := by decide +kernel
  calc x = ((x.val : ℕ) : Field25519) := (ZMod.natCast_zmod_val x).symm
    _ = ((20 : ℕ) : Field25519) := by rw [← decode_encode, h, htwenty]
    _ = 20 := Nat.cast_ofNat

theorem eq_mul_of_quotient {x z u : Field25519} (hu : u ≠ 0) (h : x * z ^ (2 ^ 255 - 21) = u) : z ≠ 0 ∧ x = u * z := by
  have hz : z ≠ 0 := by
    rintro rfl
    rw [zero_pow (by norm_num), mul_zero] at h
    exact hu h.symm
  have hexp : (2 ^ 255 - 21 + 1 : ℕ) = 2 ^ 255 - 19 - 1 := by norm_num
  refine ⟨hz, ?_⟩
  calc x = x * z ^ (2 ^ 255 - 19 - 1) := by rw [ZMod.pow_card_sub_one_eq_one hz, mul_one]
    _ = x * z ^ (2 ^ 255 - 21) * z := by rw [← hexp, pow_succ z (2 ^ 255 - 21), mul_assoc]
    _ = u * z := by rw [h]

theorem x25519_ne_output (k u : Vector UInt8 32) : x25519 k u ≠ output := by
  obtain ⟨high, hhigh⟩ := bitsDown_add_two (decodeScalar25519 k) 253
  rw [testBit_decodeScalar k (by omega), testBit_decodeScalar k (by omega)] at hhigh
  obtain ⟨p, hp⟩ := result_append_false_false (121665 : Field25519) (decodeUCoordinate u) high
  intro h
  have hquotient := eq_twenty h
  rw [hhigh, hp] at hquotient
  obtain ⟨hz, hx⟩ := eq_mul_of_quotient (ofNat_ne_zero (by norm_num)) hquotient
  have hsquare := isSquare_of_double hz hx
  norm_num at hsquare
  exact not_isSquare hsquare

/-- **The code never does what key agreement asks.** The two shared secrets are one, and X25519 under the scalar
returns it for no point at all, so neither for the public key of the code nor for the one of RFC 7748. -/
theorem sharedSecret_not_agrees (x3 : Nat → Fe25519) (a b : Vector UInt8 32) : ¬ Agrees x3 a b ∧
      secCurve25519SharedSecret (x3 0) a (publicKey (x3 1) b) =
        secCurve25519SharedSecret (x3 2) b (publicKey (x3 3) a) ∧
      ∀ u, x25519 a u ≠ secCurve25519SharedSecret (x3 0) a (publicKey (x3 1) b) := by
  rw [Agrees, sharedSecret_eq, sharedSecret_eq]
  refine ⟨?_, rfl, x25519_ne_output a⟩
  intro h
  exact x25519_ne_output a _ h.2.symm

theorem zeroScalars_not_agree :
    ¬ Agrees (fun _ => Vector.replicate 4 0) (Vector.replicate 32 0) (Vector.replicate 32 0) := by
  intro h
  have hoff := h.2
  rw [sharedSecret_eq] at hoff
  exact x25519_ne_output _ _ hoff.symm

end Chicago95.Stage2.X25519
