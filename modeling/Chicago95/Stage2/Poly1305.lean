/-
# Chicago95.Stage2.Poly1305 — the authenticated cipher of `security/common/chacha20/chacha20.c`.

`sec_chacha20_poly1305_flat_encrypt` and `_decrypt` set up a context on the stack, put the additional data
into its buffer of 512 bytes, run the stream cipher and take a tag. The Poly1305 here is the one the file
has: no clamping, limbs that are ORed with the block, products added up in every limb, no final reduction.
`none` is a call that writes past the buffer for the additional data.
-/
import Mathlib
import Chicago95.Lib.Absorb
import Chicago95.Lib.Keystream
import Chicago95.Stage2.Chacha20

namespace Chicago95.Stage2.Poly1305

open Chicago95.Lib.Absorb Chicago95.Lib.Keystream Chicago95.Lib.Loop

/-! ## The one-time authenticator -/

/-- `r` and `s` of `poly1305_state_t`. -/
structure Key where
  r : Vector UInt32 4
  s : Vector UInt32 4

/-- `h` and `buf` with its length. -/
abbrev State := Absorber (Vector UInt32 5) UInt8 16

/-- The words that `poly1305_init` takes from the key. -/
def keyOf (key : Nat → UInt8) : Key :=
  { r := Vector.ofFn fun i => Chacha20.word key i.val
    s := Vector.ofFn fun i => Chacha20.word key (4 + i.val) }

/-- `poly1305_init`, which leaves `buf` as it is. -/
def poly1305Init (stack : Vector UInt8 16) : State :=
  { chain := Vector.replicate 5 0, buffer := stack, fill := 0 }

def poly1305ProcessBlock (r : Vector UInt32 4) (h : Vector UInt32 5) (buf : Vector UInt8 16) :
    Vector UInt32 5 :=
  let b := fun i => (buf.toList.getD i 0).toUInt64
  let r0 := r[0].toUInt64
  let r1 := r[1].toUInt64
  let r2 := r[2].toUInt64
  let r3 := r[3].toUInt64
  let h0 := h[0].toUInt64 ||| b 0 ||| (b 1 <<< 8) ||| (b 2 <<< 16) ||| ((b 3 &&& 0xf) <<< 24)
  let h1 := h[1].toUInt64 ||| (b 3 >>> 4) ||| (b 4 <<< 4) ||| (b 5 <<< 12) ||| (b 6 <<< 20) |||
    ((b 7 &&& 0xf) <<< 28)
  let h2 := h[2].toUInt64 ||| (b 7 >>> 4) ||| (b 8 <<< 4) ||| (b 9 <<< 12) ||| (b 10 <<< 20) |||
    ((b 11 &&& 0xf) <<< 28)
  let h3 := h[3].toUInt64 ||| (b 11 >>> 4) ||| (b 12 <<< 4) ||| (b 13 <<< 12) ||| (b 14 <<< 20) |||
    ((b 15 &&& 0xf) <<< 28)
  let h4 : UInt64 := 0
  let d0 := r0 * h0 + r1 * h4 + r2 * h3 + r3 * h2 + r0 * h1 + r1 * h0 + r2 * h4 + r3 * h3 + r0 * h2 +
    r1 * h1 + r2 * h0
  let d1 := r0 * h1 + r1 * h0 + r2 * h4 + r3 * h3 + r0 * h2 + r1 * h1 + r2 * h0 + r3 * h4 + r0 * h3 +
    r1 * h2 + r2 * h1
  let d2 := r0 * h2 + r1 * h1 + r2 * h0 + r3 * h4 + r0 * h3 + r1 * h2 + r2 * h1 + r3 * h0 + r0 * h4 +
    r1 * h3 + r2 * h2
  let d3 := r0 * h3 + r1 * h2 + r2 * h1 + r3 * h0 + r0 * h4 + r1 * h3 + r2 * h2 + r3 * h1 + r0 * h0 +
    r1 * h4 + r2 * h3
  let d4 := r0 * h4 + r1 * h3 + r2 * h2 + r3 * h1 + r0 * h0 + r1 * h4 + r2 * h3 + r3 * h2 + r0 * h1 +
    r1 * h0 + r2 * h4
  let low := fun (d : UInt64) => d &&& 0xffffffff
  let carry := (d0 >>> 32) + (d4 >>> 32) * 5
  let h0 := low (low d0 + carry)
  let carry := (d1 >>> 32) + (carry >>> 32)
  let h1 := low (low d1 + carry)
  let carry := (d2 >>> 32) + (carry >>> 32)
  let h2 := low (low d2 + carry)
  let carry := (d3 >>> 32) + (carry >>> 32)
  let h3 := low (low d3 + carry)
  #v[h0.toUInt32, h1.toUInt32, h2.toUInt32, h3.toUInt32, (low d4 + (carry >>> 32)).toUInt32]

def poly1305Update (key : Key) (state : State) (data : List UInt8) : State :=
  absorb (poly1305ProcessBlock key.r) state data

/-- `poly1305_final`. What it makes of `f` is overwritten. -/
def poly1305Final (key : Key) (state : State) : Vector UInt8 16 :=
  let h :=
    if state.fill ≠ 0 then
      let buf : Vector UInt8 16 := Vector.ofFn fun i =>
        if i.val < state.fill then state.buffer.get i else if i.val = state.fill then 1 else 0
      poly1305ProcessBlock key.r state.chain buf
    else state.chain
  Vector.ofFn fun i =>
    let value := h.toList.getD (i.val / 4) 0 + key.s.toList.getD (i.val / 4) 0
    (value >>> (8 * (i.val % 4)).toUInt32).toUInt8

/-! ## The context -/

/-- `sec_chacha20_poly1305_ctx_t` -/
structure Ctx where
  key : Nat → UInt8
  nonce : Nat → UInt8
  counter : UInt32
  polyKey : Nat → UInt8
  aadBuf : Nat → UInt8
  aadLen : Nat
  aadPaddedLen : Nat
  msgLen : Nat

/-- `sizeof(ctx->aad_buf)` -/
def aadBufSize : Nat := 512

/-- `sec_chacha20_poly1305_init` -/
def init (ctx : Ctx) (key nonce : Nat → UInt8) : Ctx :=
  { ctx with key := key, nonce := nonce, polyKey := Chacha20.block key nonce 0, counter := 1, aadLen := 0, msgLen := 0 }

/-- `sec_chacha20_poly1305_set_aad` -/
def setAad (ctx : Ctx) (aad : List UInt8) : Option Ctx :=
  let padded := (aad.length + 15) / 16 * 16
  if aadBufSize < padded then none
  else some { ctx with
    aadBuf := fun i =>
      if i < aad.length then aad.getD i 0 else if i < padded then 0 else ctx.aadBuf i
    aadLen := aad.length
    aadPaddedLen := padded }

/-- The 64 bytes of `ks_block`. -/
def ksBlock (ctx : Ctx) (counter : UInt32) : List UInt8 :=
  (List.range 64).map (Chacha20.block ctx.key ctx.nonce counter)

/-- `sec_chacha20_poly1305_encrypt_stream`: the bytes it writes, which are not all when `blocks` wraps. -/
def encryptStream (ctx : Ctx) (input : List UInt8) : Ctx × List UInt8 :=
  let blocks := (input.length + 63) % 2 ^ 32 / 64
  ({ ctx with counter := ctx.counter + blocks.toUInt32, msgLen := input.length },
    mask 64 (ksBlock ctx) (· + 1) blocks ctx.counter input)

/-- `len_block`: eight bytes of a bit length, the lowest first. -/
def lengthBytes (n : Nat) : List UInt8 :=
  (List.range 8).map fun i => UInt8.ofNat (n % 2 ^ 32 * 8 / 2 ^ (8 * i))

/-- `sec_chacha20_poly1305_final` -/
def final (stack : Vector UInt8 16) (ctx : Ctx) : Vector UInt8 16 :=
  let key := keyOf ctx.polyKey
  let state := poly1305Init stack
  let state :=
    if 0 < ctx.aadLen then poly1305Update key state ((List.range ctx.aadPaddedLen).map ctx.aadBuf) else state
  poly1305Final key (poly1305Update key state (lengthBytes ctx.aadLen ++ lengthBytes ctx.msgLen))

/-- What the stack holds where the two local variables lie. -/
structure Frame where
  ctx : Ctx
  buf : Vector UInt8 16

/-- The context with the additional data, where there is any. -/
def setup (frame : Frame) (key nonce : Nat → UInt8) (aad : List UInt8) : Option Ctx :=
  let ctx := init frame.ctx key nonce
  if 0 < aad.length then setAad ctx aad else some ctx

/-- `sec_chacha20_poly1305_flat_encrypt`: the bytes it writes to `out`, and the tag. -/
def flatEncrypt (frame : Frame) (key nonce : Nat → UInt8) (aad input : List UInt8) :
    Option (List UInt8 × Vector UInt8 16) :=
  (setup frame key nonce aad).map fun ctx =>
    let (ctx, written) := encryptStream ctx input
    (written, final frame.buf ctx)

/-- `sec_chacha20_poly1305_flat_decrypt`: what `out` holds afterwards. -/
def flatDecrypt (frame : Frame) (key nonce : Nat → UInt8) (aad input out : List UInt8)
    (_tag : Vector UInt8 16) : Option (List UInt8) :=
  (setup frame key nonce aad).map fun ctx =>
    let (_, written) := encryptStream ctx input
    written ++ out.drop written.length

/-! ## RFC 8439 -/

namespace Rfc8439

/-- A little-endian number. -/
def number (bytes : List UInt8) : Nat := Nat.ofDigits 256 (bytes.map UInt8.toNat)

/-- The bits of `r` that are used. -/
def clamp (r : Nat) : Nat := r &&& 0x0ffffffc0ffffffc0ffffffc0fffffff

/-- The blocks of a message, of which the last one can be shorter. -/
def blocks (msg : List UInt8) : List (List UInt8) :=
  (List.range ((msg.length + 15) / 16)).map fun i => (msg.drop (16 * i)).take 16

/-- Poly1305: the message as a polynomial at `r` modulo `2 ^ 130 - 5`, plus `s` modulo `2 ^ 128`. -/
def poly1305 (key : Nat → UInt8) (msg : List UInt8) : Vector UInt8 16 :=
  let r := clamp (number ((List.range 16).map key))
  let s := number ((List.range 16).map fun i => key (16 + i))
  let a := (blocks msg).foldl (fun a block => (a + number block + 2 ^ (8 * block.length)) * r % (2 ^ 130 - 5)) 0
  Vector.ofFn fun i => UInt8.ofNat ((a + s) % 2 ^ 128 / 256 ^ i.val)

/-- Zeros up to a multiple of 16. -/
def pad16 (bytes : List UInt8) : List UInt8 := bytes ++ List.replicate ((16 - bytes.length % 16) % 16) 0

/-- A length in eight bytes. -/
def le64 (n : Nat) : List UInt8 := (List.range 8).map fun i => UInt8.ofNat (n / 256 ^ i)

/-- The tag of the AEAD, under the one-time key that the block function gives for the counter 0. -/
def tag (key nonce : Nat → UInt8) (aad ciphertext : List UInt8) : Vector UInt8 16 :=
  poly1305 (Chacha20.block key nonce 0)
    (pad16 aad ++ pad16 ciphertext ++ le64 aad.length ++ le64 ciphertext.length)

/-- The stream cipher from the counter 1 on. -/
def chacha20 (key nonce : Nat → UInt8) (bytes : List UInt8) : List UInt8 :=
  bytes.mapIdx fun i x => x ^^^ Chacha20.block key nonce (1 + (i / 64).toUInt32) (i % 64)

end Rfc8439

/-! ## What the two functions do -/

variable {frame : Frame} {key nonce : Nat → UInt8} {aad : List UInt8}

theorem setup_eq_none (haad : aadBufSize < aad.length) : setup frame key nonce aad = none := by
  unfold setup setAad
  dsimp only
  rw [if_pos (by omega), if_pos (by omega)]

theorem setup_eq_some (haad : aad.length ≤ aadBufSize) : ∃ ctx, setup frame key nonce aad = some ctx ∧
    ctx.key = key ∧ ctx.nonce = nonce ∧ ctx.counter = 1 := by
  unfold setup setAad
  dsimp only
  -- with and without additional data
  split
  · unfold aadBufSize at haad ⊢
    rw [if_neg (by omega)]
    exact ⟨_, rfl, rfl, rfl, rfl⟩
  · exact ⟨_, rfl, rfl, rfl, rfl⟩

theorem iterate_add_one (n : Nat) (k : UInt32) : (· + 1)^[n] k = k + n.toUInt32 := by
  induction n with
  | zero => exact (UInt32.add_zero k).symm
  | succ n ih =>
    have hsucc : (n + 1).toUInt32 = n.toUInt32 + 1 := UInt32.ofNat_add n 1
    rw [Function.iterate_succ_apply', ih, hsucc, UInt32.add_assoc]

theorem length_ksBlock (ctx : Ctx) (counter : UInt32) : (ksBlock ctx counter).length = 64 := by
  unfold ksBlock
  rw [List.length_map, List.length_range]

theorem encryptStream_eq {ctx : Ctx} (hkey : ctx.key = key) (hnonce : ctx.nonce = nonce)
    (hcounter : ctx.counter = 1) (input : List UInt8) (hlen : input.length + 63 < 2 ^ 32) :
    (encryptStream ctx input).2 = Rfc8439.chacha20 key nonce input := by
  unfold encryptStream Rfc8439.chacha20
  dsimp only
  rw [Nat.mod_eq_of_lt hlen, mask_eq_mapIdx (by omega) (length_ksBlock ctx) _ _ _ (by omega), hcounter]
  congr 1
  funext i x
  rw [iterate_add_one, ksBlock, hkey, hnonce, List.getD_eq_getElem?_getD, List.getElem?_map,
    List.getElem?_range (Nat.mod_lt _ (by omega)), Option.map_some, Option.getD_some]

theorem length_chacha20 (input : List UInt8) : (Rfc8439.chacha20 key nonce input).length = input.length :=
  List.length_mapIdx

theorem chacha20_involutive (input : List UInt8) :
    Rfc8439.chacha20 key nonce (Rfc8439.chacha20 key nonce input) = input := by
  unfold Rfc8439.chacha20
  refine List.ext_getElem ?_ fun i hi hi' => ?_
  · rw [List.length_mapIdx, List.length_mapIdx]
  · rw [List.getElem_mapIdx, List.getElem_mapIdx, UInt8.xor_assoc, UInt8.xor_self, UInt8.xor_zero]

theorem flatEncrypt_tag {input input' : List UInt8} (hlen : input.length = input'.length) :
    (flatEncrypt frame key nonce aad input).map Prod.snd = (flatEncrypt frame key nonce aad input').map Prod.snd := by
  unfold flatEncrypt encryptStream
  dsimp only
  rw [hlen]
  -- the tag takes of the message its length
  cases setup frame key nonce aad with
  | none => rfl
  | some ctx => rfl

theorem flatDecrypt_ignores_tag (input out : List UInt8) (tag tag' : Vector UInt8 16) :
    flatDecrypt frame key nonce aad input out tag = flatDecrypt frame key nonce aad input out tag' := rfl

theorem flatDecrypt_eq (haad : aad.length ≤ aadBufSize) (plaintext out : List UInt8)
    (hlen : plaintext.length + 63 < 2 ^ 32) (tag : Vector UInt8 16) :
    flatDecrypt frame key nonce aad (Rfc8439.chacha20 key nonce plaintext) out tag =
      some (plaintext ++ out.drop plaintext.length) := by
  obtain ⟨ctx, hctx, hkey, hnonce, hcounter⟩ : ∃ ctx, setup frame key nonce aad = some ctx ∧
      ctx.key = key ∧ ctx.nonce = nonce ∧ ctx.counter = 1 := setup_eq_some haad
  unfold flatDecrypt
  rw [hctx, Option.map_some]
  dsimp only
  rw [encryptStream_eq hkey hnonce hcounter _ (by rw [length_chacha20]; exact hlen), chacha20_involutive]

/-- So encryption cannot have the tags of the RFC for two of them when these differ. -/
theorem flatEncrypt_tag_ne {plaintext plaintext' : List UInt8} (hlen : plaintext.length = plaintext'.length)
    (hne : Rfc8439.tag key nonce aad (Rfc8439.chacha20 key nonce plaintext) ≠
      Rfc8439.tag key nonce aad (Rfc8439.chacha20 key nonce plaintext')) :
    (flatEncrypt frame key nonce aad plaintext).map Prod.snd ≠
        some (Rfc8439.tag key nonce aad (Rfc8439.chacha20 key nonce plaintext)) ∨
      (flatEncrypt frame key nonce aad plaintext').map Prod.snd ≠
        some (Rfc8439.tag key nonce aad (Rfc8439.chacha20 key nonce plaintext')) := by
  rw [flatEncrypt_tag hlen, ← not_and_or]
  rintro ⟨htag, htag'⟩
  exact hne (Option.some.inj (htag.symm.trans htag'))

/-! ## Authenticity -/

/-- The plaintext comes out when this tag is supplied, whatever the stack and the buffer held. -/
def Releases (key nonce : Nat → UInt8) (aad plaintext ciphertext : List UInt8) (tag : Vector UInt8 16) : Prop :=
  ∀ frame out, flatDecrypt frame key nonce aad ciphertext out tag =
    some (plaintext ++ out.drop plaintext.length)

/-- Encryption gives the ciphertext with the tag of the RFC, and that is the only tag for which decryption
releases the plaintext. -/
def Authenticates (key nonce : Nat → UInt8) (aad plaintext : List UInt8) : Prop :=
  let ciphertext := Rfc8439.chacha20 key nonce plaintext
  let tag := Rfc8439.tag key nonce aad ciphertext
  (∀ frame, flatEncrypt frame key nonce aad plaintext = some (ciphertext, tag)) ∧
    ∀ tag', Releases key nonce aad plaintext ciphertext tag' → tag' = tag

theorem releases_of_encrypts {plaintext : List UInt8} {tag : Vector UInt8 16}
    (h : ∀ frame, flatEncrypt frame key nonce aad plaintext =
      some (Rfc8439.chacha20 key nonce plaintext, tag)) (tag' : Vector UInt8 16) :
    Releases key nonce aad plaintext (Rfc8439.chacha20 key nonce plaintext) tag' := by
  intro frame out
  have henc := h frame
  have haad : aad.length ≤ aadBufSize := by
    by_contra hlong
    unfold flatEncrypt at henc
    rw [setup_eq_none (Nat.lt_of_not_le hlong)] at henc
    cases henc
  refine flatDecrypt_eq haad plaintext out ?_ tag'
  -- a stream whose blocks wrap is too short
  obtain ⟨ctx, hctx, -, -, -⟩ : ∃ ctx, setup frame key nonce aad = some ctx ∧
      ctx.key = key ∧ ctx.nonce = nonce ∧ ctx.counter = 1 := setup_eq_some haad
  unfold flatEncrypt at henc
  rw [hctx, Option.map_some] at henc
  have hbytes := congrArg (fun r : List UInt8 × Vector UInt8 16 => r.1.length) (Option.some.inj henc)
  unfold encryptStream at hbytes
  dsimp only at hbytes
  rw [length_mask (length_ksBlock ctx), length_chacha20] at hbytes
  omega

theorem exists_other_tag (tag : Vector UInt8 16) : ∃ tag', tag' ≠ tag := by
  refine ⟨tag.set 0 (tag[0] + 1), fun h => ?_⟩
  have h0 := congrArg (fun t : Vector UInt8 16 => t[0]) h
  simp at h0

theorem not_authenticates_of_encrypts (plaintext : List UInt8) : ¬ Authenticates key nonce aad plaintext := by
  rintro ⟨hencrypts, honly⟩
  obtain ⟨tag', hne⟩ := exists_other_tag
    (Rfc8439.tag key nonce aad (Rfc8439.chacha20 key nonce plaintext))
  exact hne (honly tag' (releases_of_encrypts hencrypts tag'))

/-- **No message is authenticated.** -/
theorem not_authenticates (key nonce : Nat → UInt8) (aad plaintext : List UInt8) :
    ¬ Authenticates key nonce aad plaintext :=
  not_authenticates_of_encrypts plaintext

/-- One byte under a key of zeros. -/
theorem oneByte_not_authenticates : ¬ Authenticates (fun _ => 0) (fun _ => 0) [] [0] :=
  not_authenticates_of_encrypts [0]

end Chicago95.Stage2.Poly1305
