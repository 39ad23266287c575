/-
# Chicago95.Lib.Rijndael — the Advanced Encryption Standard, FIPS 197.

The cipher is built from the field of 256 elements: the box is the inverse in it and an affine map (`sbox`),
MixColumns is a matrix over it, and the round constants are the powers of its element `x`. The schedule is
the recurrence of the standard for a key of `nk` words (`expand`), and the cipher runs `nr` rounds with any
schedule (`cipher`).
-/
import Mathlib.Logic.Function.Iterate
import Mathlib.Data.UInt

namespace Chicago95.Lib.Rijndael

/-! ## The field -/

/-- `x` times the polynomial whose coefficients are the bits of `p`, modulo `x^8 + x^4 + x^3 + x + 1`. -/
def timesX (p : Nat) : Nat := 2 * p ^^^ 0x11b * (p / 128)

/-- The product of two polynomials of degree below 8, modulo the same one. -/
def product (a b : Nat) : Nat := (List.range 8).foldl (fun p i => timesX p ^^^ a * (b / 2 ^ (7 - i) % 2)) 0

def mul (a b : UInt8) : UInt8 := UInt8.ofNat (product a.toNat b.toNat)

/-- The inverse, and zero for zero: `b ^ 254`. -/
def inv (b : UInt8) : UInt8 :=
  UInt8.ofNat ((fun p => product (product p b.toNat) (product p b.toNat))^[7] 1)

/-- `b'_i = b_i + b_(i+4) + b_(i+5) + b_(i+6) + b_(i+7) + c_i`, the indices modulo 8. -/
def affine (b : UInt8) : UInt8 :=
  let v := b.toBitVec
  ⟨v ^^^ v.rotateRight 4 ^^^ v.rotateRight 5 ^^^ v.rotateRight 6 ^^^ v.rotateRight 7 ^^^ 0x63⟩

/-- SBOX -/
def sbox (b : UInt8) : UInt8 := affine (inv b)

/-! ## The key schedule -/

abbrev Word := Vector UInt8 4

def xorWord (x y : Word) : Word := Vector.zipWith (· ^^^ ·) x y

def subWord (x : Word) : Word := x.map sbox

def rotWord (x : Word) : Word :=
  #v[x.toList.getD 1 0, x.toList.getD 2 0, x.toList.getD 3 0, x.toList.getD 0 0]

/-- `Rcon[j]` -/
def rcon (j : Nat) : Word := #v[UInt8.ofNat (timesX^[j - 1] 1), 0, 0, 0]

/-- What word `i - nk` is XORed with, where `x` is word `i - 1`. -/
def temp (nk i : Nat) (x : Word) : Word :=
  if i % nk = 0 then xorWord (subWord (rotWord x)) (rcon (i / nk))
  else if 6 < nk ∧ i % nk = 4 then subWord x
  else x

/-- Word `i` of the schedule for a key of `nk` words. -/
def expand (nk : Nat) (key : Nat → Word) (i : Nat) : Word :=
  if i < nk ∨ nk = 0 then key i
  else xorWord (expand nk key (i - nk)) (temp nk i (expand nk key (i - 1)))
termination_by i
decreasing_by all_goals omega

/-! ## The cipher -/

/-- The state: byte `r + 4 * c` is in row `r` and column `c`. -/
abbrev State := Vector UInt8 16

/-- The byte in row `r` and column `c`. -/
def State.at (s : State) (r c : Nat) : UInt8 := s.toList.getD (r + 4 * c) 0

def subBytes (s : State) : State := s.map sbox

/-- Row `r` goes `r` columns to the left. -/
def shiftRows (s : State) : State := Vector.ofFn fun i => s.at (i.val % 4) ((i.val / 4 + i.val % 4) % 4)

/-- The entries of the matrix: each row is the one above, one place to the right. -/
def mixEntry (r k : Nat) : UInt8 := [2, 3, 1, 1].getD ((k + 4 - r) % 4) 0

/-- Each column is multiplied by the matrix. -/
def mixColumns (s : State) : State := Vector.ofFn fun i =>
  (List.range 4).foldl (fun b k => b ^^^ mul (mixEntry (i.val % 4) k) (s.at k (i.val / 4))) 0

/-- Column `c` is XORed with word `4 * round + c`. -/
def addRoundKey (w : Nat → Word) (round : Nat) (s : State) : State :=
  Vector.ofFn fun i => s.get i ^^^ (w (4 * round + i.val / 4)).toList.getD (i.val % 4) 0

/-- **The cipher**, with `nr` rounds. -/
def cipher (w : Nat → Word) (nr : Nat) (input : State) : State :=
  let s := (List.range (nr - 1)).foldl
    (fun s k => addRoundKey w (k + 1) (mixColumns (shiftRows (subBytes s)))) (addRoundKey w 0 input)
  addRoundKey w nr (shiftRows (subBytes s))

/-- A word of a key that is given in bytes. -/
def keyWord (key : List UInt8) (i : Nat) : Word := Vector.ofFn fun j => key.getD (4 * i + j) 0

/-- The schedule of AES-256. -/
def schedule256 (key : List UInt8) : Nat → Word := expand 8 (keyWord key)

/-- AES-256 -/
def aes256 (key : List UInt8) (input : State) : State := cipher (schedule256 key) 14 input

end Chicago95.Lib.Rijndael
