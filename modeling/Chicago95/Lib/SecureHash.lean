/-
# Chicago95.Lib.SecureHash — the hash functions SHA-256 and SHA-512 of FIPS 180-4.

Both are one function over words of `w` bits: the message is padded to whole blocks of sixteen words, each
block is spread out to a schedule of words, and the rounds over it go into eight words of hash value. The
constants are not tables: they are the first bits of the fractional parts of roots of the first primes
(`fracRoot`), and the schedule is the recurrence of the standard.
-/
import Chicago95.Lib.Absorb
import Chicago95.Lib.Digits
import Mathlib.Algebra.Group.Nat.Defs
import Mathlib.Data.Nat.NthRoot.Defs
import Mathlib.Data.Nat.Prime.Defs

namespace Chicago95.Lib.SecureHash

open Chicago95.Lib.Absorb Chicago95.Lib.Digits

/-! ## The functions of the standard -/

/-- The number of rounds and the four functions on a word. -/
structure Algorithm (w : Nat) where
  rounds : Nat
  bigSigma0 : BitVec w → BitVec w
  bigSigma1 : BitVec w → BitVec w
  smallSigma0 : BitVec w → BitVec w
  smallSigma1 : BitVec w → BitVec w

variable {w : Nat}

/-- The number of words in a hash value. -/
abbrev wordCount : Nat := 8

/-- The eight words of a hash value, and of the working variables `a`, …, `h`. -/
abbrev Words (w : Nat) := Vector (BitVec w) wordCount

def ch (x y z : BitVec w) : BitVec w := (x &&& y) ^^^ (~~~x &&& z)

def maj (x y z : BitVec w) : BitVec w := (x &&& y) ^^^ (x &&& z) ^^^ (y &&& z)

/-- The first eighty primes. -/
def primes : List Nat := (List.range 410).filter Nat.Prime

/-- The first `w` bits of the fractional part of the `n`-th root of `p`. -/
def fracRoot (w n p : Nat) : BitVec w := BitVec.ofNat w (Nat.nthRoot n (p * 2 ^ (n * w)))

/-- `K_t`: from the cube roots of the primes. -/
def roundConstant (w t : Nat) : BitVec w := fracRoot w 3 (primes.getD t 0)

/-- `H^(0)`: from the square roots of the first eight primes. -/
def initialHash (w : Nat) : Words w := Vector.ofFn fun i => fracRoot w 2 (primes.getD i 0)

namespace Algorithm

variable (A : Algorithm w)

/-- `W_t`, from the words `M_t` of a block. -/
def schedule (M : Nat → BitVec w) (t : Nat) : BitVec w :=
  if t < 16 then M t
  else A.smallSigma1 (schedule M (t - 2)) + schedule M (t - 7) + A.smallSigma0 (schedule M (t - 15)) +
    schedule M (t - 16)
termination_by t
decreasing_by all_goals omega

/-- Round `t`, with the schedule `W`. -/
def round (W : Nat → BitVec w) (t : Nat) (v : Words w) : Words w :=
  let t1 := v[7] + A.bigSigma1 v[4] + ch v[4] v[5] v[6] + roundConstant w t + W t
  let t2 := A.bigSigma0 v[0] + maj v[0] v[1] v[2]
  #v[t1 + t2, v[0], v[1], v[2], v[3] + t1, v[4], v[5], v[6]]

/-- What the block `M` makes of a hash value. -/
def compress (H : Words w) (M : Nat → BitVec w) : Words w :=
  let v := (List.range A.rounds).foldl (fun v t => A.round (A.schedule M) t v) H
  Vector.zipWith (· + ·) v H

end Algorithm

/-- The word `t` of a block. -/
def messageWord (w : Nat) {size : Nat} (block : Vector UInt8 size) (t : Nat) : BitVec w :=
  BitVec.ofNat w (ofBigEndian ((List.range (w / 8)).map fun j => block.toList.getD (t * (w / 8) + j) 0))

/-- The bytes of a block. -/
abbrev blockSize (w : Nat) : Nat := 2 * w

/-- How many zero bytes come between the mark and the length. -/
def zeroCount (w len : Nat) : Nat := (2 * blockSize w - 1 - w / 4 - len % blockSize w) % blockSize w

/-- The message, a one bit, zeros, and the length in bits in two words. -/
def pad (w : Nat) (message : List UInt8) : List UInt8 :=
  message ++ 0x80 :: List.replicate (zeroCount w message.length) 0 ++
    bigEndian (w / 4) (8 * message.length)

/-- The bytes of a hash value. -/
def bytes (H : Words w) : List UInt8 := H.toList.flatMap fun x => bigEndian (w / 8) x.toNat

/-- **The hash function.** -/
def hash (A : Algorithm w) (message : List UInt8) : List UInt8 :=
  bytes ((blocks (blockSize w) (pad w message)).foldl (fun H block => A.compress H (messageWord w block))
    (initialHash w))

def sha256 : Algorithm 32 where
  rounds := 64
  bigSigma0 x := x.rotateRight 2 ^^^ x.rotateRight 13 ^^^ x.rotateRight 22
  bigSigma1 x := x.rotateRight 6 ^^^ x.rotateRight 11 ^^^ x.rotateRight 25
  smallSigma0 x := x.rotateRight 7 ^^^ x.rotateRight 18 ^^^ x >>> 3
  smallSigma1 x := x.rotateRight 17 ^^^ x.rotateRight 19 ^^^ x >>> 10

def sha512 : Algorithm 64 where
  rounds := 80
  bigSigma0 x := x.rotateRight 28 ^^^ x.rotateRight 34 ^^^ x.rotateRight 39
  bigSigma1 x := x.rotateRight 14 ^^^ x.rotateRight 18 ^^^ x.rotateRight 41
  smallSigma0 x := x.rotateRight 1 ^^^ x.rotateRight 8 ^^^ x >>> 7
  smallSigma1 x := x.rotateRight 19 ^^^ x.rotateRight 61 ^^^ x >>> 6

/-! ## The constants -/

theorem prime_iff_trial {p : Nat} (hp : p < 21 * 21) : p.Prime ↔ 2 ≤ p ∧ ∀ m < 21, 2 ≤ m → m < p → ¬ m ∣ p := by
  constructor
  · intro h
    refine ⟨h.two_le, fun m _ hm hlt hdvd => ?_⟩
    rcases (Nat.dvd_prime h).mp hdvd with rfl | rfl
    · omega
    · omega
  · rintro ⟨h2, hall⟩
    by_contra hnot
    have hsq := Nat.minFac_sq_le_self (by omega) hnot
    have hprime := Nat.minFac_prime (show p ≠ 1 by omega)
    have hlt : p.minFac < 21 := by
      by_contra hge
      have := Nat.pow_le_pow_left (Nat.le_of_not_lt hge) 2
      omega
    exact hall _ hlt hprime.two_le ((Nat.not_prime_iff_minFac_lt h2).mp hnot) p.minFac_dvd

theorem primes_eq : primes = [
    2, 3, 5, 7, 11, 13, 17, 19, 23, 29, 31, 37, 41, 43, 47, 53, 59, 61, 67, 71, 73, 79, 83, 89, 97, 101,
    103, 107, 109, 113, 127, 131, 137, 139, 149, 151, 157, 163, 167, 173, 179, 181, 191, 193, 197, 199,
    211, 223, 227, 229, 233, 239, 241, 251, 257, 263, 269, 271, 277, 281, 283, 293, 307, 311, 313, 317,
    331, 337, 347, 349, 353, 359, 367, 373, 379, 383, 389, 397, 401, 409] := by
  have htrial : primes =
      (List.range 410).filter fun p => decide (2 ≤ p ∧ ∀ m < 21, 2 ≤ m → m < p → ¬ m ∣ p) :=
    List.filter_congr fun p hp =>
      decide_eq_decide.mpr (prime_iff_trial (Nat.lt_trans (List.mem_range.mp hp) (by decide)))
  rw [htrial]
  decide +kernel

/-! ## What a block contributes -/

namespace Algorithm

variable {A : Algorithm w}

theorem schedule_lt (M : Nat → BitVec w) {t : Nat} (ht : t < 16) : A.schedule M t = M t := by
  rw [schedule, if_pos ht]

theorem schedule_add (M : Nat → BitVec w) (t : Nat) :
    A.schedule M (t + 16) = A.smallSigma1 (A.schedule M (t + 14)) + A.schedule M (t + 9) +
      A.smallSigma0 (A.schedule M (t + 1)) + A.schedule M t := by
  rw [schedule, if_neg (by omega)]
  rfl

end Algorithm

/-! ## The padding -/

theorem zeroCount_spec (hw : 8 ≤ w) (len : Nat) : (len + 1 + zeroCount w len + w / 4) % blockSize w = 0 := by
  have hsize : blockSize w = 2 * w := rfl
  have hmod := Nat.mod_lt len (show 0 < blockSize w by omega)
  have hdiv := Nat.div_add_mod len (blockSize w)
  unfold zeroCount
  generalize hr : len % blockSize w = r at hmod hdiv ⊢
  rcases Nat.lt_or_ge (2 * blockSize w - 1 - w / 4 - r) (blockSize w) with hlt | hge
  · rw [Nat.mod_eq_of_lt hlt, show len + 1 + (2 * blockSize w - 1 - w / 4 - r) + w / 4 =
      blockSize w * (len / blockSize w + 2) by rw [Nat.mul_add]; omega]
    exact Nat.mul_mod_right _ _
  · rw [Nat.mod_eq_sub_mod hge, Nat.mod_eq_of_lt (show 2 * blockSize w - 1 - w / 4 - r - blockSize w <
        blockSize w by omega),
      show len + 1 + (2 * blockSize w - 1 - w / 4 - r - blockSize w) + w / 4 =
        blockSize w * (len / blockSize w + 1) by rw [Nat.mul_add]; omega]
    exact Nat.mul_mod_right _ _

/-- What is padded to a message: the mark, the zeros and the length. -/
def padding (w len : Nat) : List UInt8 :=
  0x80 :: List.replicate (zeroCount w len) 0 ++ bigEndian (w / 4) (8 * len)

theorem pad_eq (message : List UInt8) : pad w message = message ++ padding w message.length := by
  unfold pad padding
  rw [List.append_assoc]

theorem length_padding (len : Nat) : (padding w len).length = 1 + zeroCount w len + w / 4 := by
  unfold padding
  rw [List.length_append, List.length_cons, List.length_replicate, length_bigEndian]
  omega

/-- **The padded message**, byte by byte. -/
theorem getD_pad (message : List UInt8) (n : Nat) : (pad w message).getD n 0 =
      if n < message.length then message.getD n 0 else if n = message.length then 0x80
      else if n < message.length + 1 + zeroCount w message.length then 0
      else (bigEndian (w / 4) (8 * message.length)).getD (n - (message.length + 1 + zeroCount w message.length)) 0 := by
  simp only [List.getD_eq_getElem?_getD]
  unfold pad
  split
  · rename_i h
    rw [List.append_assoc, List.getElem?_append_left h]
  · rename_i h
    rw [List.append_assoc, List.getElem?_append_right (by omega), List.cons_append, List.getElem?_cons]
    split
    · rename_i h0
      rw [if_pos (by omega)]
      rfl
    · rename_i h0
      rw [if_neg (by omega)]
      split
      · rename_i hz
        rw [List.getElem?_append_left (by rw [List.length_replicate]; omega), List.getElem?_replicate,
          if_pos (by omega)]
        rfl
      · rename_i hz
        rw [List.getElem?_append_right (by rw [List.length_replicate]; omega), List.length_replicate]
        congr 2
        omega

/-- The blocks that begin behind the last whole block of the message. -/
def lastBlocks (w : Nat) (message : List UInt8) : List (Vector UInt8 (blockSize w)) :=
  (List.range ((message.length % blockSize w + (padding w message.length).length) / blockSize w)).map fun k =>
    blockAt (blockSize w) (pad w message) (blockSize w * (message.length / blockSize w + k))

/-- **The message block by block**: first its own blocks, and then the last ones. -/
theorem hash_eq_foldl (A : Algorithm w) (hw : 0 < w) (message : List UInt8) :
    hash A message = bytes ((blocks (blockSize w) message ++ lastBlocks w message).foldl
      (fun H block => A.compress H (messageWord w block)) (initialHash w)) := by
  unfold hash lastBlocks
  rw [pad_eq, blocks_append (Nat.mul_pos Nat.two_pos hw)]

end Chicago95.Lib.SecureHash
