/-
# Chicago95.Stage2.Aes — AES-256-GCM of `security/common/aes/aes256.c`.

The block cipher, counter mode, the hash over the additional data and the ciphertext, and the two GCM
functions. The hashed bytes are put together in a local array of 4096 bytes that is not initialized, so
that what it held before is an argument; `none` is a call that writes outside of it.
-/
import Chicago95.Lib.Keystream

namespace Chicago95.Stage2

open Chicago95.Lib.Keystream Chicago95.Lib.Loop

namespace Aes

/-! ## The block cipher -/

/-- `uint8_t state[16]` and the other arrays of one block. -/
abbrev Block := Vector UInt8 16

def sbox : List UInt8 := [
    0x63, 0x7C, 0x77, 0x7B, 0xF2, 0x6B, 0x6F, 0xC5, 0x30, 0x01, 0x67, 0x2B, 0xFE, 0xD7, 0xAB, 0x76,
    0xCA, 0x82, 0xC9, 0x7D, 0xFA, 0x59, 0x47, 0xF0, 0xAD, 0xD4, 0xA2, 0xAF, 0x9C, 0xA4, 0x72, 0xC0,
    0xB7, 0xFD, 0x93, 0x26, 0x36, 0x3F, 0xF7, 0xCC, 0x34, 0xA5, 0xE5, 0xF1, 0x71, 0xD8, 0x31, 0x15,
    0x04, 0xC7, 0x23, 0xC3, 0x18, 0x96, 0x05, 0x9A, 0x07, 0x12, 0x80, 0xE2, 0xEB, 0x27, 0xB2, 0x75,
    0x09, 0x83, 0x2C, 0x1A, 0x1B, 0x6E, 0x5A, 0xA0, 0x52, 0x3B, 0xD6, 0xB3, 0x29, 0xE3, 0x2F, 0x84,
    0x53, 0xD1, 0x00, 0xED, 0x20, 0xFC, 0xB1, 0x5B, 0x6A, 0xCB, 0xBE, 0x39, 0x4A, 0x4C, 0x58, 0xCF,
    0xD0, 0xEF, 0xAA, 0xFB, 0x43, 0x4D, 0x33, 0x85, 0x45, 0xF9, 0x02, 0x7F, 0x50, 0x3C, 0x9F, 0xA8,
    0x51, 0xA3, 0x40, 0x8F, 0x92, 0x9D, 0x38, 0xF5, 0xBC, 0xB6, 0xDA, 0x21, 0x10, 0xFF, 0xF3, 0xD2,
    0xCD, 0x0C, 0x13, 0xEC, 0x5F, 0x97, 0x44, 0x17, 0xC4, 0xA7, 0x7E, 0x3D, 0x64, 0x5D, 0x19, 0x73,
    0x60, 0x81, 0x4F, 0xDC, 0x22, 0x2A, 0x90, 0x88, 0x46, 0xEE, 0xB8, 0x14, 0xDE, 0x5E, 0x0B, 0xDB,
    0xE0, 0x32, 0x3A, 0x0A, 0x49, 0x06, 0x24, 0x5C, 0xC2, 0xD3, 0xAC, 0x62, 0x91, 0x95, 0xE4, 0x79,
    0xE7, 0xC8, 0x37, 0x6D, 0x8D, 0xD5, 0x4E, 0xA9, 0x6C, 0x56, 0xF4, 0xEA, 0x65, 0x7A, 0xAE, 0x08,
    0xBA, 0x78, 0x25, 0x2E, 0x1C, 0xA6, 0xB4, 0xC6, 0xE8, 0xDD, 0x74, 0x1F, 0x4B, 0xBD, 0x8B, 0x8A,
    0x70, 0x3E, 0xB5, 0x66, 0x48, 0x03, 0xF6, 0x0E, 0x61, 0x35, 0x57, 0xB9, 0x86, 0xC1, 0x1D, 0x9E,
    0xE1, 0xF8, 0x98, 0x11, 0x69, 0xD9, 0x8E, 0x94, 0x9B, 0x1E, 0x87, 0xE9, 0xCE, 0x55, 0x28, 0xDF,
    0x8C, 0xA1, 0x89, 0x0D, 0xBF, 0xE6, 0x42, 0x68, 0x41, 0x99, 0x2D, 0x0F, 0xB0, 0x54, 0xBB, 0x16]

/-- `rcon`, and behind its ten bytes what lies there in memory. -/
def rcon (behind : Nat → UInt8) (i : Nat) : UInt8 :=
  if i < 10 then [0x01, 0x02, 0x04, 0x08, 0x10, 0x20, 0x40, 0x80, 0x1B, 0x36].getD i 0 else behind (i - 10)

/-- `sbox[x]` -/
def subByte (x : UInt8) : UInt8 := sbox.getD x.toNat 0

def gfmul (a b : UInt8) : UInt8 :=
  (forEach 8 (fun _ (st : UInt8 × UInt8 × UInt8) =>
    let p := if st.2.2 &&& 1 ≠ 0 then st.1 ^^^ st.2.1 else st.1
    let a := if st.2.1 &&& 0x80 ≠ 0 then (st.2.1 <<< 1) ^^^ 0x1B else st.2.1 <<< 1
    (p, a, st.2.2 >>> 1)) (0, a, b)).1

/-- `sec_aes256_ctx_t` -/
structure Aes256Ctx where
  roundKeys : Vector UInt8 240

/-- Byte `i` of round key `r`: `rk[r][i]`. -/
def Aes256Ctx.rk (ctx : Aes256Ctx) (r i : Nat) : UInt8 := ctx.roundKeys.toList.getD (r * 16 + i) 0

/-- `sec_aes256_init`. -/
def secAes256Init (behind : Nat → UInt8) (stale : Vector UInt8 240) (key : List UInt8) : Aes256Ctx :=
  let first := forEach 16 (fun n keys => keys.setIfInBounds (n / 4 * 16 + n % 4) (key.getD n 0)) stale
  let byte := fun (keys : Vector UInt8 240) (n : Nat) => keys.toList.getD n 0
  { roundKeys := forEach 56 (fun k keys =>
      let i := k + 4
      let temp := fun j => byte keys ((i - 1) * 4 + j)
      let temp := if i % 4 = 0 then
          fun j => if j = 0 then subByte (temp 1) ^^^ rcon behind (i / 4 - 1) else subByte (temp ((j + 1) % 4))
        else temp
      forEach 4 (fun j keys => keys.setIfInBounds (i * 4 + j) (byte keys ((i - 4) * 4 + j) ^^^ temp j)) keys)
      first }

/-- The three rotations of ShiftRows. -/
def shiftRows (s : Block) : Block :=
  let a := fun j => s.toList.getD j 0
  #v[a 0, a 5, a 10, a 15, a 4, a 9, a 14, a 3, a 8, a 13, a 2, a 7, a 12, a 1, a 6, a 11]

/-- MixColumns: byte `i` of the result. -/
def mixColumns (s : Block) : Block :=
  Vector.ofFn fun i =>
    let a := fun j => s.toList.getD (i.val / 4 * 4 + j) 0
    match i.val % 4 with
    | 0 => gfmul (a 0) 2 ^^^ gfmul (a 1) 3 ^^^ a 2 ^^^ a 3
    | 1 => a 0 ^^^ gfmul (a 1) 2 ^^^ gfmul (a 2) 3 ^^^ a 3
    | 2 => a 0 ^^^ a 1 ^^^ gfmul (a 2) 2 ^^^ gfmul (a 3) 3
    | _ => gfmul (a 0) 3 ^^^ a 1 ^^^ a 2 ^^^ gfmul (a 3) 2

/-- AddRoundKey -/
def addRoundKey (ctx : Aes256Ctx) (round : Nat) (s : Block) : Block :=
  Vector.ofFn fun i => s.get i ^^^ ctx.rk round i

def secAes256EncryptBlock (ctx : Aes256Ctx) (input : Block) : Block :=
  forEach 14 (fun k s =>
    let round := k + 1
    let s := shiftRows (s.map subByte)
    addRoundKey ctx round (if round < 14 then mixColumns s else s)) (addRoundKey ctx 0 input)

/-! ## Counter mode -/

/-- `for (i = 15; i >= 0; i--) if (++counter[i]) break;`, from byte `n - 1` down. -/
def bump (counter : Block) : Nat → Block
  | 0 => counter
  | n + 1 =>
    let byte := counter.toList.getD n 0 + 1
    let counter := counter.setIfInBounds n byte
    if byte ≠ 0 then counter else bump counter n

/-- The nonce or IV and `00 00 00 01`. -/
def counterBlock (nonce : Vector UInt8 12) : Block := nonce ++ #v[(0 : UInt8), 0, 0, 1]

/-- `aes256_ctr`: the bytes it writes. The number of blocks wraps, so that they can be fewer than `len`. -/
def aes256Ctr (ctx : Aes256Ctx) (nonce : Vector UInt8 12) (input : List UInt8) : List UInt8 :=
  mask 16 (fun counter => (secAes256EncryptBlock ctx counter).toList) (fun counter => bump counter 16)
    ((input.length + 15) % 2 ^ 32 / 16) (counterBlock nonce) input

/-! ## The hash -/

/-- Bit `i` of a block: `(y[i >> 3] >> (7 - (i % 8))) & 1`. -/
def blockBit (y : Block) (i : Nat) : Bool := (y.toList.getD (i / 8) 0).toNat.testBit (7 - i % 8)

/-- The loop that shifts `h`. -/
def shiftRight (h : Block) : Block :=
  let shifted : Block := Vector.ofFn fun j =>
    (h.get j >>> 1) ||| ((if j.val + 1 < 16 then h.toList.getD (j.val + 1) 0 &&& 1 else 0) <<< 7)
  if h.toList.getD 0 0 &&& 1 ≠ 0 then shifted.setIfInBounds 0 (shifted.toList.getD 0 0 ^^^ 0xE1)
  else shifted

/-- `z[j] ^= h[j]` -/
def xorBlock (z h : Block) : Block := Vector.zipWith (· ^^^ ·) z h

/-- "GF multiply Y by H": `z`, and `h` as it is left. -/
def multiply (y h : Block) : Block × Block :=
  forEach 128 (fun i st =>
    (if blockBit y i then xorBlock st.1 st.2 else st.1, shiftRight st.2)) (Vector.replicate 16 0, h)

/-- `ghash`. The `h` of a block is what the block before has left of it. -/
def ghash (h : Block) (data : Nat → UInt8) (len : Nat) : Block :=
  (forEach ((len + 15) / 16) (fun b (st : Block × Block) =>
    let block : Block := Vector.ofFn fun i => if b * 16 + i.val < len then data (b * 16 + i.val) else 0
    multiply (xorBlock st.1 block) st.2) (Vector.replicate 16 0, h)).1

/-! ## GCM -/

/-- `sizeof(ghash_input)` -/
def ghashInputSize : Nat := 4096

/-- The bytes of `src` are written to `buf` from `pos` on. -/
def store (buf : Nat → UInt8) (pos : Nat) (src : List UInt8) : Nat → UInt8 :=
  fun i => if pos ≤ i ∧ i < pos + src.length then src.getD (i - pos) 0 else buf i

/-- `(pos + 15) & ~15` -/
def align16 (pos : Nat) : Nat := (pos + 15) / 16 * 16

/-- A bit length in eight bytes, the highest first. -/
def lengthBytes (n : Nat) : List UInt8 :=
  (List.range 8).map fun i => UInt8.ofNat (n % 2 ^ 32 * 8 / 2 ^ (56 - i * 8))

/-- `ghash_input` and `pos`, where the array held `frame` before; `none` if something is written past it. -/
def ghashInput (frame : Nat → UInt8) (aad ciphertext : List UInt8) (len : Nat) : Option ((Nat → UInt8) × Nat) :=
  if ghashInputSize < aad.length then none
  else
    let buf := store frame 0 aad
    let pos := align16 aad.length
    if ghashInputSize < pos + len then none
    else
      let buf := store buf pos (ciphertext.take len)
      let pos := align16 (pos + len)
      if ghashInputSize < pos + 16 then none
      else some (store buf pos (lengthBytes aad.length ++ lengthBytes len), pos + 16)

/-- The block that `h` is the encryption of. -/
def hashKeyBlock : Block := #v[0, 0, 0, 0, 0, 0, 0, 0, 0, 0, 0, 0, 0, 0, 0, 1]

/-- `h` -/
def hashKey (ctx : Aes256Ctx) : Block := secAes256EncryptBlock ctx hashKeyBlock

/-- The tag for what has been put together: the hash of it, XORed with the encryption of `j0`. -/
def tagOf (ctx : Aes256Ctx) (iv : Vector UInt8 12) (input : (Nat → UInt8) × Nat) : Block :=
  xorBlock (ghash (hashKey ctx) input.1 input.2) (secAes256EncryptBlock ctx (counterBlock iv))

def secOk : Int := 0
def secErrCrypto : Int := -6

/-- `sec_aes256_gcm_encrypt`: the ciphertext and the tag. -/
def secAes256GcmEncrypt (frame : Nat → UInt8) (ctx : Aes256Ctx) (plaintext : List UInt8)
    (iv : Vector UInt8 12) (aad : List UInt8) : Option (List UInt8 × Block) :=
  let ciphertext := aes256Ctr ctx iv plaintext
  let ghashLen := (aad.length + plaintext.length + 16 + 16) % 2 ^ 32
  if ghashInputSize < ghashLen then none
  else (ghashInput frame aad ciphertext plaintext.length).map fun input => (ciphertext, tagOf ctx iv input)

/-- `diff`, over the bytes of the two tags. -/
def tagDiff (tag computed : Block) : UInt8 := (xorBlock tag computed).toList.foldl (· ||| ·) 0

/-- `sec_aes256_gcm_decrypt`: what it returns and what the buffer for the plaintext holds then. -/
def secAes256GcmDecrypt (frame : Nat → UInt8) (ctx : Aes256Ctx) (ciphertext plaintext : List UInt8)
    (iv : Vector UInt8 12) (aad : List UInt8) (tag : Block) : Option (Int × List UInt8) :=
  (ghashInput frame aad ciphertext ciphertext.length).map fun input =>
    if tagDiff tag (tagOf ctx iv input) ≠ 0 then (secErrCrypto, plaintext)
    else
      let written := aes256Ctr ctx iv ciphertext
      (secOk, written ++ plaintext.drop written.length)

end Aes

end Chicago95.Stage2
