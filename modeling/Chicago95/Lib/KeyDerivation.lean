/-
# Chicago95.Lib.KeyDerivation — HKDF (RFC 5869) and PBKDF2 (RFC 8018) over any pseudo-random function.

Both write the first bytes of a sequence of blocks that the function makes (`output`): HKDF chains each block
to the one before it, PBKDF2 iterates each block on its own. What is written block by block, the last of
them cut, is `output_take`.
-/
import Chicago95.Lib.Digits
import Mathlib.Data.List.Basic
import Mathlib.Tactic.Common

namespace Chicago95.Lib.KeyDerivation

open Chicago95.Lib.Digits

/-- A pseudo-random function of a key and a message. -/
abbrev Prf := List UInt8 → List UInt8 → List UInt8

/-- The first `n` blocks. -/
def blocksUpTo (block : Nat → List UInt8) (n : Nat) : List UInt8 := (List.range n).flatMap block

/-- The first `len` bytes of the blocks `0`, `1`, …, each of `size` bytes. -/
def output (block : Nat → List UInt8) (size len : Nat) : List UInt8 :=
  (blocksUpTo block ((len + size - 1) / size)).take len

/-! ## HKDF -/

/-- HKDF-Extract, where a salt that is not provided is `hashLen` zeros. -/
def extract (prf : Prf) (hashLen : Nat) (salt : Option (List UInt8)) (ikm : List UInt8) : List UInt8 :=
  prf (salt.getD (List.replicate hashLen 0)) ikm

/-- `T(i)`, where `prf i` is the function at its call for `T(i)`. -/
def chained (prf : Nat → Prf) (prk info : List UInt8) : Nat → List UInt8
  | 0 => []
  | i + 1 => prf (i + 1) prk (chained prf prk info i ++ info ++ [UInt8.ofNat (i + 1)])

/-- HKDF-Expand. -/
def expand (prf : Nat → Prf) (hashLen : Nat) (prk info : List UInt8) (len : Nat) : List UInt8 :=
  output (fun i => chained prf prk info (i + 1)) hashLen len

/-! ## PBKDF2 -/

/-- `U_{j+1}`, where `U_1` is `first`. -/
def repeated (prf : Prf) (password first : List UInt8) : Nat → List UInt8
  | 0 => first
  | j + 1 => prf password (repeated prf password first j)

/-- `U_1 ⊕ … ⊕ U_{j+1}` -/
def summed (prf : Prf) (password first : List UInt8) : Nat → List UInt8
  | 0 => first
  | j + 1 => List.zipWith (· ^^^ ·) (summed prf password first j) (repeated prf password first (j + 1))

/-- `F(P, S, c, i)` -/
def iteratedBlock (prf : Prf) (password salt : List UInt8) (c i : Nat) : List UInt8 :=
  summed prf password (prf password (salt ++ bigEndian 4 i)) (c - 1)

/-- PBKDF2 with `c` iterations. -/
def pbkdf2 (prf : Prf) (hashLen : Nat) (password salt : List UInt8) (c len : Nat) : List UInt8 :=
  output (fun i => iteratedBlock prf password salt c (i + 1)) hashLen len

/-! ## Blocks -/

variable {block : Nat → List UInt8} {size : Nat}

theorem blocksUpTo_succ (n : Nat) : blocksUpTo block (n + 1) = blocksUpTo block n ++ block n := by
  unfold blocksUpTo
  rw [List.range_succ, List.flatMap_append, List.flatMap_singleton]

theorem length_blocksUpTo (h : ∀ i, (block i).length = size) (n : Nat) : (blocksUpTo block n).length = size * n := by
  induction n with
  | zero => rfl
  | succ n ih => rw [blocksUpTo_succ, List.length_append, ih, h, Nat.mul_succ]

/-- **One block more**: its bytes up to the length that is wanted. -/
theorem take_blocksUpTo_succ (h : ∀ i, (block i).length = size) (n len : Nat) : (blocksUpTo block (n + 1)).take len =
      (blocksUpTo block n).take len ++ (block n).take (min size (len - size * n)) := by
  have hcut : (block n).take (len - size * n) = (block n).take (min size (len - size * n)) := by
    rcases Nat.le_total size (len - size * n) with hle | hle
    · rw [Nat.min_eq_left hle, List.take_of_length_le (by rw [h]; exact hle), List.take_of_length_le (by rw [h])]
    · rw [Nat.min_eq_right hle]
  rw [blocksUpTo_succ, List.take_append, length_blocksUpTo h, hcut]

theorem length_take_blocksUpTo (h : ∀ i, (block i).length = size) (n len : Nat) :
    ((blocksUpTo block n).take len).length = min len (size * n) := by
  rw [List.length_take, length_blocksUpTo h]

theorem take_blocksUpTo (h : ∀ i, (block i).length = size) (hsize : 0 < size) {n len : Nat}
    (hn : len ≤ size * n) : (blocksUpTo block n).take len = output block size len := by
  have hfew : (len + size - 1) / size ≤ n := by
    refine Nat.le_of_lt_succ ((Nat.div_lt_iff_lt_mul hsize).mpr ?_)
    rw [Nat.succ_mul, Nat.mul_comm]
    omega
  have henough : len ≤ size * ((len + size - 1) / size) := by
    have hdiv := Nat.div_add_mod (len + size - 1) size
    have hmod := Nat.mod_lt (len + size - 1) hsize
    omega
  unfold output
  induction n, hfew using Nat.le_induction with
  | base => rfl
  | succ n hle ih =>
    have hmono := Nat.mul_le_mul_left size hle
    rw [take_blocksUpTo_succ h, Nat.sub_eq_zero_of_le (by omega), Nat.min_zero, List.take_zero, List.append_nil,
      ih (by omega)]

theorem length_output (h : ∀ i, (block i).length = size) (hsize : 0 < size) (len : Nat) :
    (output block size len).length = len := by
  have hdiv := Nat.div_add_mod (len + size - 1) size
  have hmod := Nat.mod_lt (len + size - 1) hsize
  unfold output
  rw [length_take_blocksUpTo h]
  omega

theorem getD_output (hsize : 0 < size) {i len : Nat} (hi : i < (block 0).length) (hlen : i < len) :
    (output block size len).getD i 0 = (block 0).getD i 0 := by
  have hpos : 0 < (len + size - 1) / size := Nat.div_pos (by omega) hsize
  obtain ⟨n, hn⟩ := Nat.exists_eq_succ_of_ne_zero (Nat.pos_iff_ne_zero.mp hpos)
  unfold output blocksUpTo
  rw [hn, List.range_succ_eq_map, List.flatMap_cons, List.getD_eq_getElem?_getD, List.getElem?_take_of_lt hlen,
    List.getElem?_append_left hi, List.getD_eq_getElem?_getD]

theorem output_congr {block' : Nat → List UInt8} {len : Nat}
    (h : ∀ i, i < (len + size - 1) / size → block i = block' i) : output block size len = output block' size len := by
  unfold output blocksUpTo
  rw [List.flatMap_congr fun i hi => h i (List.mem_range.mp hi)]

theorem expand_congr {prf prf' : Nat → Prf} {hashLen len : Nat} {prk info : List UInt8}
    (h : ∀ i, i < (len + hashLen - 1) / hashLen → prf (i + 1) prk = prf' (i + 1) prk) :
    expand prf hashLen prk info len = expand prf' hashLen prk info len := by
  -- a block goes by those before it
  have hchained : ∀ k, k ≤ (len + hashLen - 1) / hashLen → chained prf prk info k = chained prf' prk info k := by
    intro k
    induction k with
    | zero => exact fun _ => rfl
    | succ k ih =>
      intro hk
      rw [chained, chained, ih (by omega), h k (by omega)]
  exact output_congr fun i hi => hchained (i + 1) hi

section Iterated

variable {prf : Prf} {password : List UInt8} (h : ∀ message, (prf password message).length = size)
include h

theorem length_summed {first : List UInt8} (hfirst : first.length = size) (j : Nat) :
    (summed prf password first j).length = size := by
  induction j with
  | zero => exact hfirst
  | succ j ih => rw [summed, List.length_zipWith, ih, repeated, h, Nat.min_self]

theorem length_iteratedBlock (salt : List UInt8) (c i : Nat) :
    (iteratedBlock prf password salt c i).length = size := length_summed h (h _) _

end Iterated

end Chicago95.Lib.KeyDerivation
