/-
# Chicago95.Lib.Keystream — stream ciphers made of blocks.

A message is cut into pieces of `size` bytes; each is XORed with the block that belongs to a counter, and
the counter goes on to the next one. `mask_eq_mapIdx` is what comes out, byte by byte; masking twice gives
the message back (`mask_involutive`).
-/
import Chicago95.Lib.Loop
import Mathlib.Logic.Function.Iterate
import Mathlib.Algebra.Group.Nat.Defs
import Mathlib.Logic.Function.Basic

namespace Chicago95.Lib.Keystream

variable {κ : Type*}

/-- `n` pieces of the input, masked from the counter `k` on. -/
def mask (size : Nat) (block : κ → List UInt8) (next : κ → κ) : Nat → κ → List UInt8 → List UInt8
  | 0, _, _ => []
  | n + 1, k, input =>
    List.zipWith (· ^^^ ·) (input.take size) (block k) ++ mask size block next n (next k) (input.drop size)

variable {size : Nat} {block : κ → List UInt8} {next : κ → κ}

theorem length_mask (hblock : ∀ k, (block k).length = size) (n : Nat) (k : κ) (input : List UInt8) :
    (mask size block next n k input).length = min input.length (size * n) := by
  induction n generalizing k input with
  | zero => simp [mask]
  | succ n ih =>
    rw [mask, List.length_append, List.length_zipWith, List.length_take, hblock, ih, List.length_drop,
      Nat.mul_succ]
    omega

theorem head?_mask {b : UInt8} {k : κ} (hblock : (block k).head? = some b) (hsize : 0 < size) {n : Nat} (hn : 0 < n)
    (x : UInt8) (input : List UInt8) : (mask size block next n k (x :: input)).head? = some (x ^^^ b) := by
  obtain ⟨n, rfl⟩ := Nat.exists_eq_add_one_of_ne_zero (Nat.ne_of_gt hn)
  obtain ⟨s, rfl⟩ := Nat.exists_eq_add_one_of_ne_zero (Nat.ne_of_gt hsize)
  obtain ⟨bs, hbs⟩ := List.head?_eq_some_iff.mp hblock
  rw [mask, hbs, List.take_succ_cons, List.zipWith_cons_cons]
  rfl

/-- **Byte `i`** is masked with byte `i % size` of the block that `i / size` steps of the counter lead to. -/
theorem mask_eq_mapIdx (hsize : 0 < size) (hblock : ∀ k, (block k).length = size) (n : Nat) (k : κ)
    (input : List UInt8) (hn : input.length ≤ size * n) : mask size block next n k input =
      input.mapIdx fun i x => x ^^^ (block (next^[i / size] k)).getD (i % size) 0 := by
  induction n generalizing k input with
  | zero =>
    rw [List.eq_nil_of_length_eq_zero (l := input) (by omega)]
    rfl
  | succ n ih =>
    have hrest : (input.drop size).length ≤ size * n := by
      rw [List.length_drop]
      rw [Nat.mul_succ] at hn
      omega
    rw [mask, ih (next k) _ hrest]
    refine List.ext_getElem ?_ fun i hi hi' => ?_
    · rw [List.length_append, List.length_zipWith, List.length_take, hblock, List.length_mapIdx,
        List.length_mapIdx, List.length_drop]
      omega
    · rw [List.length_mapIdx] at hi'
      rw [List.getElem_mapIdx]
      rcases Nat.lt_or_ge i size with hlt | hge
      · -- the first piece
        have hhead : i < (List.zipWith (· ^^^ ·) (input.take size) (block k)).length := by
          rw [List.length_zipWith, List.length_take, hblock]
          omega
        rw [List.getElem_append_left hhead, List.getElem_zipWith, List.getElem_take, Nat.div_eq_of_lt hlt,
          Nat.mod_eq_of_lt hlt, Function.iterate_zero, id_eq, List.getD_eq_getElem?_getD,
          List.getElem?_eq_getElem (by rw [hblock]; exact hlt), Option.getD_some]
      · have hlen : (List.zipWith (· ^^^ ·) (input.take size) (block k)).length = size := by
          rw [List.length_zipWith, List.length_take, hblock]
          omega
        have hdiv : i / size = (i - size) / size + 1 := by
          rw [Nat.div_eq i size, if_pos ⟨hsize, hge⟩]
        rw [List.getElem_append_right (by omega), List.getElem_mapIdx, List.getElem_drop, hdiv,
          Function.iterate_succ_apply, Nat.mod_eq_sub_mod hge]
        simp only [hlen]
        congr 2
        omega

/-- **Masking twice** gives the input back. -/
theorem mask_involutive (hsize : 0 < size) (hblock : ∀ k, (block k).length = size) (n : Nat) (k : κ)
    (input : List UInt8) (hn : input.length ≤ size * n) :
    mask size block next n k (mask size block next n k input) = input := by
  have hlen : (mask size block next n k input).length = min input.length (size * n) :=
    length_mask hblock n k input
  rw [mask_eq_mapIdx hsize hblock n k _ (by omega), mask_eq_mapIdx hsize hblock n k input hn]
  refine List.ext_getElem ?_ fun i hi hi' => ?_
  · rw [List.length_mapIdx, List.length_mapIdx]
  · rw [List.getElem_mapIdx, List.getElem_mapIdx, UInt8.xor_assoc, UInt8.xor_self, UInt8.xor_zero]

/-! ## In a memory -/

open Chicago95.Lib.Loop

/-- The bytes of a machine, by their addresses. -/
abbrev Memory := Nat → UInt8

/-- `for (i = start; i < start + n; i++) out[i] = in[i] ^ f(i);` -/
def maskRange (f : Nat → UInt8) (inp out start n : Nat) (mem : Memory) : Memory :=
  forEach n (fun i mem =>
    Function.update mem (out + (start + i)) (mem (inp + (start + i)) ^^^ f (start + i))) mem

/-- The buffers are the same or have no byte in common. -/
def Buffers (inp out len : Nat) : Prop := inp = out ∨ inp + len ≤ out ∨ out + len ≤ inp

variable {f g : Nat → UInt8} {inp out start len n : Nat} {mem : Memory}

@[simp] theorem maskRange_zero : maskRange f inp out start 0 mem = mem := rfl

theorem maskRange_succ : maskRange f inp out start (n + 1) mem =
      Function.update (maskRange f inp out start n mem) (out + (start + n))
        (maskRange f inp out start n mem (inp + (start + n)) ^^^ f (start + n)) :=
  forEach_succ n _ mem

theorem maskRange_congr (h : ∀ i, start ≤ i → i < start + n → f i = g i) :
    maskRange f inp out start n mem = maskRange g inp out start n mem :=
  forEach_congr fun i hi mem => by rw [h (start + i) (by omega) (by omega)]

/-- **One range after another.** -/
theorem maskRange_append (m : Nat) : maskRange f inp out (start + m) n (maskRange f inp out start m mem) =
      maskRange f inp out start (m + n) mem := by
  induction n with
  | zero => rfl
  | succ n ih => rw [maskRange_succ, ih, ← Nat.add_assoc m, maskRange_succ, Nat.add_assoc start]

theorem maskRange_continue (m : Nat) :
    maskRange f inp out m n (maskRange f inp out 0 m mem) = maskRange f inp out 0 (m + n) mem := by
  have happend : maskRange f inp out (0 + m) n (maskRange f inp out 0 m mem) = _ := maskRange_append m
  rwa [Nat.zero_add] at happend

theorem maskRange_shift (s : Nat) :
    maskRange (fun i => f (s + i)) (inp + s) (out + s) start n mem = maskRange f inp out (s + start) n mem := by
  induction n with
  | zero => rfl
  | succ n ih =>
    rw [maskRange_succ, maskRange_succ, ih]
    simp only [Nat.add_assoc]

/-- **What is written**, and that nothing else is: what is read has not been written yet. -/
theorem maskRange_apply (hbuf : Buffers inp out len) (hn : start + n ≤ len) (a : Nat) :
    maskRange f inp out start n mem a =
      if out + start ≤ a ∧ a < out + (start + n) then mem (inp + (a - out)) ^^^ f (a - out) else mem a := by
  unfold Buffers at hbuf
  induction n generalizing a with
  | zero => rw [maskRange_zero, if_neg (by omega)]
  | succ n ih =>
    have hread := ih (by omega) (inp + (start + n))
    rw [if_neg (by omega)] at hread
    rw [maskRange_succ, hread]
    by_cases ha : a = out + (start + n)
    · subst ha
      rw [Function.update_self, if_pos (by omega), Nat.add_sub_cancel_left]
    · rw [Function.update_of_ne ha, ih (by omega)]
      by_cases hin : out + start ≤ a ∧ a < out + (start + n)
      · rw [if_pos hin, if_pos (by omega)]
      · rw [if_neg hin, if_neg (by omega)]

theorem maskRange_byte (hbuf : Buffers inp out len) {i : Nat} (hi : i < len) :
    maskRange f inp out 0 len mem (out + i) = mem (inp + i) ^^^ f i := by
  rw [maskRange_apply hbuf (by omega), if_pos (by omega), Nat.add_sub_cancel_left]

/-- **There and back**: the second run may write to a third buffer. -/
theorem maskRange_back {back : Nat} (hbuf : Buffers inp out len) (hback : Buffers out back len) {i : Nat}
    (hi : i < len) : maskRange f out back 0 len (maskRange f inp out 0 len mem) (back + i) = mem (inp + i) := by
  rw [maskRange_byte hback hi, maskRange_byte hbuf hi, UInt8.xor_assoc, UInt8.xor_self, UInt8.xor_zero]

end Chicago95.Lib.Keystream
