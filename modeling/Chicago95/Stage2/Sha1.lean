/-
# Chicago95.Stage2.Sha1 — `sec_sha1` and `sec_hmac_sha1` of `security/common/crypto/crypto.c`.

The hash makes its blocks from the message as it goes and stops after the block that holds the byte behind it, so that
a message of 56 to 63 bytes over the last boundary has its length in the block of its end. The MAC copies at most 64
bytes of the data behind the key and then hashes as many as the data has: what is hashed behind `inner` is what the
stack holds there, and no byte of the data after the first 64 enters (`secHmacSha1_congr`).
-/
import Chicago95.Stage2.Aes

namespace Chicago95.Stage2.Sha1

open Chicago95.Lib.Loop

/-! ## The hash -/

/-- `h0`, …, `h4`, or `a`, …, `e`. -/
structure Sha1State where
  a : UInt32
  b : UInt32
  c : UInt32
  d : UInt32
  e : UInt32

/-- The state that the hash starts from. -/
def sha1State : Sha1State :=
  { a := 0x67452301, b := 0xEFCDAB89, c := 0x98BADCFE, d := 0x10325476, e := 0xC3D2E1F0 }

/-- Byte `x` of the padded message: `block[i]` where `pos + i` is `x`. -/
def blockByte (data : Nat → UInt8) (len x : Nat) : UInt8 :=
  if x < len then data x
  else if x = len then 0x80
  else if x < 56 then 0
  else (UInt64.ofNat (len * 8) >>> UInt64.ofNat ((2 ^ 32 + 63 - x) % 2 ^ 32 * 8 % 2 ^ 32)).toUInt8

/-- `w`, the word `i` from its four bytes for `i < 16`, the later ones from the words before them. -/
def schedule (block : Nat → UInt8) : Vector UInt32 80 :=
  let word := fun i => (block (i * 4)).toUInt32 <<< 24 ||| (block (i * 4 + 1)).toUInt32 <<< 16 |||
    (block (i * 4 + 2)).toUInt32 <<< 8 ||| (block (i * 4 + 3)).toUInt32
  forEach 64 (fun k w =>
    let before := fun n => w.toList.getD (k + 16 - n) 0
    let x := before 3 ^^^ before 8 ^^^ before 14 ^^^ before 16
    w.setIfInBounds (k + 16) (x <<< 1 ||| x >>> 31)) (Vector.ofFn fun i => if i.val < 16 then word i.val else 0)

/-- A pass of the loop over the 80 rounds. -/
def round (w : Vector UInt32 80) (i : Nat) (s : Sha1State) : Sha1State :=
  let (f, k) : UInt32 × UInt32 :=
    if i < 20 then (s.b &&& s.c ||| ~~~s.b &&& s.d, 0x5A827999)
    else if i < 40 then (s.b ^^^ s.c ^^^ s.d, 0x6ED9EBA1)
    else if i < 60 then (s.b &&& s.c ||| s.b &&& s.d ||| s.c &&& s.d, 0x8F1BBCDC)
    else (s.b ^^^ s.c ^^^ s.d, 0xCA62C1D6)
  { a := (s.a <<< 5 ||| s.a >>> 27) + f + s.e + k + w.toList.getD i 0, b := s.a, c := s.b <<< 30 ||| s.b >>> 2,
    d := s.c, e := s.d }

/-- One block into the state. -/
def compress (s : Sha1State) (block : Nat → UInt8) : Sha1State :=
  let t := forEach 80 (round (schedule block)) s
  { a := s.a + t.a, b := s.b + t.b, c := s.c + t.c, d := s.d + t.d, e := s.e + t.e }

/-- `sec_sha1`: the block at `pos` is the last one if `pos + 64 > len`. -/
def secSha1 (data : Nat → UInt8) (len : Nat) : List UInt8 :=
  let s := forEach (len / 64 + 1) (fun n s => compress s fun i => blockByte data len (n * 64 + i)) sha1State
  [s.a, s.b, s.c, s.d, s.e].flatMap fun (h : UInt32) =>
    [(h >>> 24).toUInt8, (h >>> 16).toUInt8, (h >>> 8).toUInt8, h.toUInt8]

/-! ## The MAC -/

/-- `i_key`, `o_key` -/
def padKey (key : List UInt8) (pad : UInt8) : List UInt8 := (List.range 64).map fun i => key.getD i 0 ^^^ pad

/-- `sec_hmac_sha1`, where the stack holds `frame` from `inner` on. -/
def secHmacSha1 (frame : Nat → UInt8) (key data : List UInt8) : List UInt8 :=
  let key := if key.length > 64 then secSha1 (fun i => key.getD i 0) key.length else key
  let inner := Aes.store (Aes.store frame 0 (padKey key 0x36)) 64 (data.take 64)
  let tmp := secSha1 inner (64 + data.length)
  secSha1 (Aes.store (Aes.store inner 0 (padKey key 0x5C)) 64 tmp) 84

theorem length_secHmacSha1 (frame : Nat → UInt8) (key data : List UInt8) :
    (secHmacSha1 frame key data).length = 20 := rfl

/-- **The MAC is over the first 64 bytes** and the length. -/
theorem secHmacSha1_congr (frame : Nat → UInt8) (key : List UInt8) {data data' : List UInt8}
    (hlen : data.length = data'.length) (htake : data.take 64 = data'.take 64) :
    secHmacSha1 frame key data = secHmacSha1 frame key data' := by
  simp only [secHmacSha1]
  rw [hlen, htake]

end Chicago95.Stage2.Sha1
