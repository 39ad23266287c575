/-
# Chicago95.Stage2.Sha2 — SHA-256 and SHA-512 of `security/common/sha256/sha256.c`.

The two are one function over words of 32 and of 64 bits (`Sha2`), and every way to call them takes the
data into a block buffer byte by byte (`Lib.Absorb`). They differ in how the last blocks are made, which
is what `paddedTail` and the two `final` functions are about. A buffer that is not initialized is an
argument.
-/
import Mathlib
import Chicago95.Lib.Absorb
import Chicago95.Lib.Loop

namespace Chicago95.Stage2

open Chicago95.Lib.Absorb Chicago95.Lib.Loop

/-! ## The compression function -/

/-- What sets the two functions apart: words of `w` bits, blocks of `size` bytes. -/
structure Sha2 (w size : Nat) where
  rounds : Nat
  k : List (BitVec w)
  ep0 : BitVec w → BitVec w
  ep1 : BitVec w → BitVec w
  sig0 : BitVec w → BitVec w
  sig1 : BitVec w → BitVec w

namespace Sha2

variable {w size : Nat}

/-- `uint32_t state[8]`, `uint64_t state[8]` -/
abbrev State (w : Nat) := Vector (BitVec w) 8

/-- `ROR32`, `ROR64` -/
def ror (x : BitVec w) (n : Nat) : BitVec w := x >>> n ||| x <<< (w - n)

/-- `CH`, `CH64` -/
def ch (x y z : BitVec w) : BitVec w := (x &&& y) ^^^ (~~~x &&& z)

/-- `MAJ`, `MAJ64` -/
def maj (x y z : BitVec w) : BitVec w := (x &&& y) ^^^ (x &&& z) ^^^ (y &&& z)

/-- The big-endian word `i` of a block. -/
def blockWord (w : Nat) (block : Vector UInt8 size) (i : Nat) : BitVec w :=
  (List.range (w / 8)).foldl (fun x j =>
    x <<< 8 ||| (block.toList.getD (i * (w / 8) + j) 0).toBitVec.setWidth w) 0

/-- `w[i]`, from the words of the block on. -/
def schedule (F : Sha2 w size) (block : Vector UInt8 size) : List (BitVec w) :=
  forEach (F.rounds - 16) (fun k ws =>
    ws ++ [F.sig1 (ws.getD (k + 14) 0) + ws.getD (k + 9) 0 + F.sig0 (ws.getD (k + 1) 0) + ws.getD k 0])
    ((List.range 16).map (blockWord w block))

/-- A pass of the loop over the rounds, on `a`, …, `h`. -/
def round (F : Sha2 w size) (ws : List (BitVec w)) (i : Nat) (v : State w) : State w :=
  let t1 := v[7] + F.ep1 v[4] + ch v[4] v[5] v[6] + F.k.getD i 0 + ws.getD i 0
  let t2 := F.ep0 v[0] + maj v[0] v[1] v[2]
  #v[t1 + t2, v[0], v[1], v[2], v[3] + t1, v[4], v[5], v[6]]

/-- `sha256_transform`, `sha512_transform` -/
def transform (F : Sha2 w size) (state : State w) (block : Vector UInt8 size) : State w :=
  let ws := F.schedule block
  Vector.zipWith (· + ·) state (forEach F.rounds (F.round ws) state)

/-- The bytes of `out`: the words of the state, the highest byte first. -/
def digest (state : State w) : List UInt8 :=
  (List.range w).map fun n =>
    UInt8.ofNat ((state.toList.getD (n / (w / 8)) 0).toNat / 2 ^ (w - 8 - 8 * (n % (w / 8))))

/-! ## The stream -/

/-- `state` and `total_len` of a context. -/
structure Chain (w : Nat) where
  state : State w
  totalLen : UInt64

/-- `sec_sha256_ctx_t`, `sec_sha512_ctx_t`: these two, `buffer` and `buf_len`. -/
abbrev Ctx (w size : Nat) := Absorber (Chain w) UInt8 size

/-- What is done with a full buffer. -/
def process (F : Sha2 w size) (c : Chain w) (buffer : Vector UInt8 size) : Chain w :=
  { state := F.transform c.state buffer, totalLen := c.totalLen + UInt64.ofNat size }

/-- `while (i < stop) buffer[i++] = x;` from `start` on. -/
def fillWith (buffer : Vector UInt8 size) (start stop : Nat) (x : UInt8) : Vector UInt8 size :=
  Vector.ofFn fun i => if start ≤ i.val ∧ i.val < stop then x else buffer[i]

/-- `for (i = 0; i < 8; i++) buffer[lim + i] = (bit_len >> (56 - i * 8)) & 0xFF;` -/
def putLength (buffer : Vector UInt8 size) (lim : Nat) (bitLen : UInt64) : Vector UInt8 size :=
  Vector.ofFn fun i =>
    if lim ≤ i.val ∧ i.val < lim + 8 then UInt8.ofNat (bitLen.toNat / 2 ^ (56 - (i.val - lim) * 8))
    else buffer[i]

/-- The blocks that `sec_sha256`, `sec_sha512` and `sec_sha256_final` make of `buffer` for the end. -/
def paddedTail (lim : Nat) (buffer : Vector UInt8 size) (bufLen : Nat) (bitLen : UInt64) :
    List (Vector UInt8 size) :=
  let buffer := buffer.setIfInBounds bufLen 0x80
  if lim < bufLen + 1 then
    let buffer := fillWith buffer (bufLen + 1) size 0
    [buffer, putLength (fillWith buffer 0 lim 0) lim bitLen]
  else [putLength (fillWith buffer (bufLen + 1) lim 0) lim bitLen]

/-- The last blocks are compressed one after the other. -/
def finish (F : Sha2 w size) (state : State w) (tail : List (Vector UInt8 size)) : List UInt8 :=
  digest (tail.foldl F.transform state)

/-- A context right after `init`, with what its buffer happens to hold. -/
def start (state : State w) (buffer : Vector UInt8 size) : Ctx w size :=
  { chain := { state := state, totalLen := 0 }, buffer := buffer, fill := 0 }

/-- `sec_sha256`, `sec_sha512`, whose local buffer is not initialized. -/
def oneShot (F : Sha2 w size) (init : State w) (lim : Nat) (stack : Vector UInt8 size)
    (data : List UInt8) : List UInt8 :=
  let ctx := absorb F.process (start init stack) data
  let totalLen := ctx.chain.totalLen + UInt64.ofNat ctx.fill
  F.finish ctx.chain.state (paddedTail lim ctx.buffer ctx.fill (totalLen * 8))

end Sha2

open Sha2

/-! ## SHA-256 -/

/-- `sha256_k`, and the macros `EP0`, `EP1`, `SIG0`, `SIG1`. -/
def sha256 : Sha2 32 64 where
  rounds := 64
  k := [
    0x428a2f98, 0x71374491, 0xb5c0fbcf, 0xe9b5dba5, 0x3956c25b, 0x59f111f1, 0x923f82a4, 0xab1c5ed5,
    0xd807aa98, 0x12835b01, 0x243185be, 0x550c7dc3, 0x72be5d74, 0x80deb1fe, 0x9bdc06a7, 0xc19bf174,
    0xe49b69c1, 0xefbe4786, 0x0fc19dc6, 0x240ca1cc, 0x2de92c6f, 0x4a7484aa, 0x5cb0a9dc, 0x76f988da,
    0x983e5152, 0xa831c66d, 0xb00327c8, 0xbf597fc7, 0xc6e00bf3, 0xd5a79147, 0x06ca6351, 0x14292967,
    0x27b70a85, 0x2e1b2138, 0x4d2c6dfc, 0x53380d13, 0x650a7354, 0x766a0abb, 0x81c2c92e, 0x92722c85,
    0xa2bfe8a1, 0xa81a664b, 0xc24b8b70, 0xc76c51a3, 0xd192e819, 0xd6990624, 0xf40e3585, 0x106aa070,
    0x19a4c116, 0x1e376c08, 0x2748774c, 0x34b0bcb5, 0x391c0cb3, 0x4ed8aa4a, 0x5b9cca4f, 0x682e6ff3,
    0x748f82ee, 0x78a5636f, 0x84c87814, 0x8cc70208, 0x90befffa, 0xa4506ceb, 0xbef9a3f7, 0xc67178f2]
  ep0 x := ror x 2 ^^^ ror x 13 ^^^ ror x 22
  ep1 x := ror x 6 ^^^ ror x 11 ^^^ ror x 25
  sig0 x := ror x 7 ^^^ ror x 18 ^^^ x >>> 3
  sig1 x := ror x 17 ^^^ ror x 19 ^^^ x >>> 10

/-- The words that `state` starts with. -/
def sha256State : State 32 :=
  #v[0x6a09e667, 0xbb67ae85, 0x3c6ef372, 0xa54ff53a, 0x510e527f, 0x9b05688c, 0x1f83d9ab, 0x5be0cd19]

abbrev Sha256Ctx := Sha2.Ctx 32 64

def secSha256 (stack : Vector UInt8 64) (data : List UInt8) : List UInt8 :=
  sha256.oneShot sha256State 56 stack data

def secSha256Init (buffer : Vector UInt8 64) : Sha256Ctx := start sha256State buffer

def secSha256Update (ctx : Sha256Ctx) (data : List UInt8) : Sha256Ctx :=
  let ctx := absorb sha256.process ctx data
  { ctx with chain := { ctx.chain with totalLen := ctx.chain.totalLen + UInt64.ofNat data.length } }

/-- `sec_sha256_final`. It pads a local buffer of its own, into which `ctx->buffer` is not copied. -/
def secSha256Final (stack : Vector UInt8 64) (ctx : Sha256Ctx) : List UInt8 :=
  let totalLen := ctx.chain.totalLen + UInt64.ofNat ctx.fill
  sha256.finish ctx.chain.state (paddedTail 56 stack ctx.fill (totalLen * 8))

/-- `init`, an `update` for each chunk, and `final`. -/
def sha256Stream (buffer stack : Vector UInt8 64) (chunks : List (List UInt8)) : List UInt8 :=
  secSha256Final stack (chunks.foldl secSha256Update (secSha256Init buffer))

/-! ## SHA-512 -/

/-- `sha512_k`, and the macros `EP0_64`, `EP1_64`, `SIG0_64`, `SIG1_64`. -/
def sha512 : Sha2 64 128 where
  rounds := 80
  k := [
    0x428a2f98d728ae22, 0x7137449123ef65cd, 0xb5c0fbcfec4d3b2f, 0xe9b5dba58189dbbc,
    0x3956c25bf348b538, 0x59f111f1b605d019, 0x923f82a4af194f9b, 0xab1c5ed5da6d8118,
    0xd807aa98a3030242, 0x12835b0145706fbe, 0x243185be4ee4b28c, 0x550c7dc3d5ffb4e2,
    0x72be5d74f27b896f, 0x80deb1fe3b1696b1, 0x9bdc06a725c71235, 0xc19bf174cf692694,
    0xe49b69c1ef17ad40, 0x0fc19dc68b8cd5b5, 0x240ca1cc77ac9c65, 0x2de92c6f592b0275,
    0x4a7484aa6ea6e483, 0x5cb0a9dcbd41fbd4, 0x76f988da831153b5, 0x983e5152ee66dfab,
    0xa831c66d2db43210, 0xb00327c898fb213f, 0xbf597fc7bef90728, 0xc6e00bf33da88fc2,
    0xd5a79147930aa725, 0x06ca6351e003826f, 0x142929670a0e6e70, 0x27b70a8546d22ffc,
    0x2e1b21385c26c926, 0x4d2c6dfc5ac42aed, 0x53380d139d95b3df, 0x650a73548baf63de,
    0x766a0abb3c77b2a8, 0x81c2c92e47edaee6, 0x92722c851482353b, 0xa2bfe8a14cf10364,
    0xa81a664bbc423001, 0xc24b8b70d0f89791, 0xc76c51a30654be30, 0xd192e819d6ef5218,
    0xd69906245565a910, 0xf40e35855771202a, 0x106aa07032bbd1b8, 0x19a4c116b8d2d0c8,
    0x1e376c085141ab53, 0x2748774cdf8eeb99, 0x34b0bcb5e19b48a8, 0x391c0cb3c5c95a63,
    0x4ed8aa4ae3418acb, 0x5b9cca4f7763e373, 0x682e6ff3d6b2b8a3, 0x748f82ee5defb2fc,
    0x78a5636f43172f60, 0x84c87814a1f0ab72, 0x8cc702081a6439ec, 0x90befffa23631e28,
    0xa4506cebde82bde9, 0xbef9a3f7b2c67915, 0xc67178f2e372532b, 0xca273eceea26619c,
    0xd186b8c721c0c207, 0xeada7dd6cde0eb1e, 0xf57d4f7fee6ed178, 0x06f067aa72176fba,
    0x0a637dc5a2c898a6, 0x113f9804bef90dae, 0x1b710b35131c471b, 0x28db77f523047d84,
    0x32caab7b40c72493, 0x3c9ebe0a15c9bebc, 0x431d67c49c100d4c, 0x4cc5d4becb3e42b6,
    0x597f299cfc657e2a, 0x5fcb6fab3ad6faec, 0x6c44198c4a475817]
  ep0 x := ror x 28 ^^^ ror x 34 ^^^ ror x 39
  ep1 x := ror x 14 ^^^ ror x 18 ^^^ ror x 41
  sig0 x := ror x 1 ^^^ ror x 8 ^^^ x >>> 7
  sig1 x := ror x 19 ^^^ ror x 61 ^^^ x >>> 6

/-- The words that `state` starts with. -/
def sha512State : State 64 :=
  #v[0x6a09e667f3bcc908, 0xbb67ae8584caa73b, 0x3c6ef372fe94f82b, 0xa54ff53a5f1d36f1,
    0x510e527fade682d1, 0x9b05688c2b3e6c1f, 0x1f83d9abfb41bd6b, 0x5be0cd19137e2179]

abbrev Sha512Ctx := Sha2.Ctx 64 128

def secSha512 (stack : Vector UInt8 128) (data : List UInt8) : List UInt8 :=
  sha512.oneShot sha512State 112 stack data

def secSha512Init (buffer : Vector UInt8 128) : Sha512Ctx := start sha512State buffer

def secSha512Update (ctx : Sha512Ctx) (data : List UInt8) : Sha512Ctx := absorb sha512.process ctx data

/-- The blocks that `sec_sha512_final` makes of `ctx->buffer`; `none` where the loop over `pad` goes past
the end of it. -/
def sha512Tail (buffer : Vector UInt8 128) (bufLen : Nat) (bitLen : UInt64) :
    Option (List (Vector UInt8 128)) :=
  let pad := if bufLen < 112 then 112 - bufLen else 128 + 112 - bufLen
  if 128 < bufLen + pad then none
  else
    let buffer := fillWith (buffer.setIfInBounds bufLen 0x80) (bufLen + 1) (bufLen + pad) 0
    if 16 ≤ pad then some [buffer, putLength (fillWith buffer 0 128 0) 112 bitLen]
    else some [putLength buffer 112 bitLen]

def secSha512Final (ctx : Sha512Ctx) : Option (List UInt8) :=
  let totalLen := ctx.chain.totalLen + UInt64.ofNat ctx.fill
  (sha512Tail ctx.buffer ctx.fill (totalLen * 8)).map (sha512.finish ctx.chain.state)

/-- `init`, an `update` for each chunk, and `final`. -/
def sha512Stream (buffer : Vector UInt8 128) (chunks : List (List UInt8)) : Option (List UInt8) :=
  secSha512Final (chunks.foldl secSha512Update (secSha512Init buffer))

end Chicago95.Stage2
