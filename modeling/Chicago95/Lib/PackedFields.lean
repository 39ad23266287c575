/-
# Chicago95.Lib.PackedFields — arrays of fields in the bits of a state.

Field `i` is the window of `stride` bits from `stride * i` on, and the lowest `payload` of them are its value;
the others are zero when it is written and not looked at when it is read. What `get` and `set` do is said bit
by bit (`Packs`), so that the windows alone decide what a write shows: its value in its own field, reduced to
the payload, and nothing in any other (`Packs.set_get`).
-/
import Mathlib.Algebra.Group.Nat.Defs
import Mathlib.Algebra.Ring.Nat
import Mathlib.Tactic.Common

namespace Chicago95.Lib.PackedFields

variable {σ : Type*} {w : Nat}

/-- The value that a field of `payload` bits has of `x`. -/
def reduce (payload : Nat) (x : BitVec w) : BitVec w := BitVec.ofNat w (x.toNat % 2 ^ payload)

theorem getLsbD_reduce (payload : Nat) (x : BitVec w) (k : Nat) :
    (reduce payload x).getLsbD k = (decide (k < payload) && x.getLsbD k) := by
  unfold reduce
  rw [BitVec.getLsbD_ofNat, Nat.testBit_mod_two_pow, BitVec.testBit_toNat]
  by_cases hk : k < w
  · simp [hk]
  · rw [BitVec.getLsbD_of_ge x k (by omega)]
    simp [hk]

/-- Reading and writing fields, on the bits below `size`. -/
structure Packs (bit : σ → Nat → Bool) (size stride payload count : Nat) (get : σ → Nat → Option (BitVec w))
    (set : σ → Nat → BitVec w → Option σ) : Prop where
  payload_le : payload ≤ stride
  fits : stride * count ≤ size
  get_spec : ∀ s i, i < count → ∃ x, get s i = some x ∧
    ∀ k, x.getLsbD k = (decide (k < payload) && (decide (k < w) && bit s (stride * i + k)))
  set_spec : ∀ s i x, i < count → ∃ s', set s i x = some s' ∧ ∀ n, n < size →
    bit s' n = if stride * i ≤ n ∧ n < stride * i + stride
      then decide (n - stride * i < payload) && x.getLsbD (n - stride * i) else bit s n

namespace Packs

variable {bit : σ → Nat → Bool} {size stride payload count : Nat} {get : σ → Nat → Option (BitVec w)}
  {set : σ → Nat → BitVec w → Option σ}

theorem window_ne {i j k : Nat} (hij : j ≠ i) (hk : k < stride) :
    ¬ (stride * i ≤ stride * j + k ∧ stride * j + k < stride * i + stride) := by
  rintro ⟨hle, hlt⟩
  rcases Nat.lt_or_gt_of_ne hij with h | h
  · have := Nat.mul_le_mul_left stride h
    rw [Nat.succ_eq_add_one, Nat.mul_add] at this
    omega
  · have := Nat.mul_le_mul_left stride h
    rw [Nat.succ_eq_add_one, Nat.mul_add] at this
    omega

theorem window_lt (h : Packs bit size stride payload count get set) {j k : Nat} (hj : j < count) (hk : k < stride) :
    stride * j + k < size := by
  have hnext := Nat.mul_le_mul_left stride (show j + 1 ≤ count from hj)
  rw [Nat.mul_add, Nat.mul_one] at hnext
  have := h.fits
  omega

/-- **What a write shows.** -/
theorem set_get (h : Packs bit size stride payload count get set) (s : σ) {i : Nat} (hi : i < count) (x : BitVec w) :
    ∃ s', set s i x = some s' ∧ get s' i = some (reduce payload x) ∧
      ∀ j, j < count → j ≠ i → get s' j = get s j ∧ (get s j).isSome = true := by
  obtain ⟨s', hset, hbits⟩ := h.set_spec s i x hi
  have hpayload := h.payload_le
  refine ⟨s', hset, ?_, fun j hj hji => ?_⟩
  · obtain ⟨y, hget, hy⟩ := h.get_spec s' i hi
    rw [hget, Option.some_inj]
    refine BitVec.eq_of_getLsbD_eq fun k hk => ?_
    rw [hy, getLsbD_reduce]
    by_cases hkp : k < payload
    · rw [hbits _ (h.window_lt hi (by omega)), if_pos (by omega), Nat.add_sub_cancel_left]
      simp [hk, hkp]
    · simp [hkp]
  · obtain ⟨y, hget, hy⟩ := h.get_spec s j hj
    obtain ⟨y', hget', hy'⟩ := h.get_spec s' j hj
    rw [hget, hget', Option.some_inj]
    refine ⟨BitVec.eq_of_getLsbD_eq fun k _ => ?_, rfl⟩
    rw [hy, hy']
    by_cases hkp : k < payload
    · rw [hbits _ (h.window_lt hj (by omega)), if_neg (window_ne hji (by omega))]
    · simp [hkp]

end Packs

end Chicago95.Lib.PackedFields
