/-
# Chicago95.Stage2.Pbkdf2 — PBKDF2-SHA1 of `security/common/hkdf/hkdf.c`.

Its blocks are those of RFC 8018, each iterated and summed as it should be (`secPbkdf2Sha1_eq`), but for the function
under them: `pbkdf2_sha1_block` writes its HMAC out by hand, and with `sec_sha256` cut to 20 bytes (`cutHmac`)
where its comments say HMAC-SHA1. So no station derives a key that its access point has (`pbkdf2Law_iff`).
-/
import Chicago95.Stage2.Hkdf

namespace Chicago95.Stage2

open Chicago95.Lib Chicago95.Lib.Digits Chicago95.Lib.Loop Chicago95.Lib.KeyDerivation
open Chicago95.Stage2.Aes (store)
open Chicago95.Stage2.Sha1 (padKey secSha1 secHmacSha1 length_secHmacSha1)

/-! ## The code -/

/-- What is padded to `key_pad`. -/
def pbkdf2Key (stack : Vector UInt8 64) (password : List UInt8) : List UInt8 :=
  if password.length > 64 then (secSha256 stack password).take 20 else password

/-- `u`, of what stands behind the key in `inner`. -/
def pbkdf2Mac (stack : Vector UInt8 64) (key input : List UInt8) : Option (List UInt8) := do
  let inner ← gather 256 (padKey key 0x36 ++ input)
  let outer ← gather 256 (padKey key 0x5C ++ secSha256 stack inner)
  some ((secSha256 stack outer).take 20)

/-- A pass of the loop from `U2` on, on `u` and `out`. -/
def pbkdf2Iteration (stack : Vector UInt8 64) (key : List UInt8) (s : List UInt8 × List UInt8) :
    Option (List UInt8 × List UInt8) := do
  let u ← pbkdf2Mac stack key s.1
  some (u, List.zipWith (· ^^^ ·) s.2 u)

def pbkdf2Sha1Block (stack : Vector UInt8 64) (password salt : List UInt8) (iterations blockNum : Nat) :
    Option (List UInt8) := do
  let saltBlock ← gather 256 (salt ++ [UInt8.ofNat (blockNum / 2 ^ 24), UInt8.ofNat (blockNum / 2 ^ 16),
    UInt8.ofNat (blockNum / 2 ^ 8), UInt8.ofNat blockNum])
  let key := pbkdf2Key stack password
  let u ← pbkdf2Mac stack key saltBlock
  let (_, out) ← forEachM (iterations - 1) (fun _ => pbkdf2Iteration stack key) (u, u)
  some out

/-- A pass of the loop over the blocks, for `b = k + 1`, on `done` and `out`. -/
def pbkdf2Pass (stack : Vector UInt8 64) (password salt : List UInt8) (iterations outLen k : Nat)
    (s : Nat × (Nat → UInt8)) : Option (Nat × (Nat → UInt8)) := do
  let block ← pbkdf2Sha1Block stack password salt iterations (k + 1)
  let copy := min 20 (outLen - s.1)
  some (s.1 + copy, store s.2 s.1 (block.take copy))

def secPbkdf2Sha1 (stack : Vector UInt8 64) (password salt : List UInt8) (iterations : Nat) (out : Nat → UInt8)
    (outLen : Nat) : Option (Nat → UInt8) :=
  (forEachM ((outLen + 19) % 2 ^ 32 / 20) (pbkdf2Pass stack password salt iterations outLen) (0, out)).map (·.2)

/-! ## What it computes -/

/-- HMAC-SHA256 cut to 20 bytes, where a long password is hashed and cut, too. -/
def cutHmac (stack : Vector UInt8 64) : Prf := fun password message =>
  let key := pbkdf2Key stack password
  (secSha256 stack (padKey key 0x5C ++ secSha256 stack (padKey key 0x36 ++ message))).take 20

theorem length_secSha256 (stack : Vector UInt8 64) (data : List UInt8) : (secSha256 stack data).length = 32 := by
  unfold secSha256 Sha2.oneShot Sha2.finish Sha2.digest
  rw [List.length_map, List.length_range]

theorem length_cutHmac (stack : Vector UInt8 64) (password message : List UInt8) :
    (cutHmac stack password message).length = 20 := by
  unfold cutHmac
  rw [List.length_take, length_secSha256]
  rfl

theorem length_padKey (key : List UInt8) (pad : UInt8) : (padKey key pad).length = 64 := by
  unfold padKey
  rw [List.length_map, List.length_range]

theorem pbkdf2Mac_eq (stack : Vector UInt8 64) (password : List UInt8) {input : List UInt8} (h : input.length ≤ 192) :
    pbkdf2Mac stack (pbkdf2Key stack password) input = some (cutHmac stack password input) := by
  have hinner : (padKey (pbkdf2Key stack password) 0x36 ++ input).length ≤ 256 := by
    rw [List.length_append, length_padKey]
    omega
  have houter : ∀ inner, (padKey (pbkdf2Key stack password) 0x5C ++ secSha256 stack inner).length ≤ 256 := fun inner => by
    rw [List.length_append, length_padKey, length_secSha256]
    decide
  unfold pbkdf2Mac gather
  rw [if_pos hinner, Option.bind_eq_bind, Option.bind_some, if_pos (houter _), Option.bind_some]
  rfl

section Blocks

variable {stack : Vector UInt8 64} {password salt : List UInt8} {iterations outLen : Nat} {out : Nat → UInt8}

theorem iterations_eq {u : List UInt8} (hu : u.length = 20) (n : Nat) :
    forEachM n (fun _ => pbkdf2Iteration stack (pbkdf2Key stack password)) (u, u) =
      some (repeated (cutHmac stack) password u n, summed (cutHmac stack) password u n) := by
  have hshort : ∀ j, (repeated (cutHmac stack) password u j).length ≤ 192 := by
    intro j
    cases j with
    | zero =>
      rw [repeated, hu]
      decide
    | succ j =>
      rw [repeated, length_cutHmac]
      decide
  have hpass : ∀ s : List UInt8 × List UInt8, s.1.length ≤ 192 →
      pbkdf2Iteration stack (pbkdf2Key stack password) s =
        some (cutHmac stack password s.1, List.zipWith (· ^^^ ·) s.2 (cutHmac stack password s.1)) := by
    intro s hs
    unfold pbkdf2Iteration
    rw [pbkdf2Mac_eq stack password hs, Option.bind_eq_bind, Option.bind_some]
  obtain ⟨hrun, hlast⟩ := forEachM_eq_some
    (P := fun j s => s = (repeated (cutHmac stack) password u j, summed (cutHmac stack) password u j))
    (f := fun _ s => (cutHmac stack password s.1, List.zipWith (· ^^^ ·) s.2 (cutHmac stack password s.1)))
    (n := n) (s := (u, u)) rfl fun j s _ h => ⟨hpass s (h ▸ hshort j), by rw [h, summed, repeated]⟩
  rw [hrun, hlast]

theorem pbkdf2Sha1Block_eq (hsalt : salt.length ≤ 188) (blockNum : Nat) :
    pbkdf2Sha1Block stack password salt iterations blockNum =
      some (iteratedBlock (cutHmac stack) password salt iterations blockNum) := by
  have hbytes : [UInt8.ofNat (blockNum / 2 ^ 24), UInt8.ofNat (blockNum / 2 ^ 16), UInt8.ofNat (blockNum / 2 ^ 8),
      UInt8.ofNat blockNum] = bigEndian 4 blockNum := by
    simp [bigEndian, List.range_succ]
  have hlen : (salt ++ bigEndian 4 blockNum).length = salt.length + 4 := by
    rw [List.length_append, length_bigEndian]
  have hgather : gather 256 (salt ++ bigEndian 4 blockNum) = some (salt ++ bigEndian 4 blockNum) :=
    if_pos (by omega)
  unfold pbkdf2Sha1Block iteratedBlock
  dsimp only
  rw [hbytes, hgather, Option.bind_eq_bind, Option.bind_some, pbkdf2Mac_eq stack password (by omega),
    Option.bind_some, iterations_eq (length_cutHmac stack password _)]
  rfl

theorem pbkdf2Pass_eq (hsalt : salt.length ≤ 188) (k : Nat) (s : Nat × (Nat → UInt8)) :
    pbkdf2Pass stack password salt iterations outLen k s = some (s.1 + min 20 (outLen - s.1),
        store s.2 s.1 ((iteratedBlock (cutHmac stack) password salt iterations (k + 1)).take (min 20 (outLen - s.1)))) := by
  unfold pbkdf2Pass
  rw [pbkdf2Sha1Block_eq hsalt, Option.bind_eq_bind, Option.bind_some]

theorem secPbkdf2Sha1_eq (hsalt : salt.length ≤ 188) (hout : outLen + 19 < 2 ^ 32) :
    secPbkdf2Sha1 stack password salt iterations out outLen =
      some (store out 0 (pbkdf2 (cutHmac stack) 20 password salt iterations outLen)) := by
  have hlen : ∀ i, (iteratedBlock (cutHmac stack) password salt iterations (i + 1)).length = 20 := fun i =>
    length_iteratedBlock (length_cutHmac stack password) salt iterations (i + 1)
  obtain ⟨hrun, hexpanded⟩ := forEachM_eq_some
    (P := fun k s => Expanded (fun i => iteratedBlock (cutHmac stack) password salt iterations (i + 1)) 20 out outLen k
      s.1 s.2) (n := (outLen + 19) / 20) (s := (0, out)) (Expanded.start out outLen)
    fun k s _ h => ⟨pbkdf2Pass_eq hsalt k s, h.pass hlen⟩
  unfold secPbkdf2Sha1 pbkdf2
  rw [Nat.mod_eq_of_lt hout, hrun, Option.map_some, hexpanded.last hlen (by decide) (by omega)]

theorem secPbkdf2Sha1_wraps (hout : outLen < 2 ^ 32) (hwrap : 2 ^ 32 ≤ outLen + 19) :
    secPbkdf2Sha1 stack password salt iterations out outLen = some out := by
  have hcount : (outLen + 19) % 2 ^ 32 / 20 = 0 := by omega
  unfold secPbkdf2Sha1
  rw [hcount]
  rfl

end Blocks

/-! ## What it is to compute -/

/-- The bytes are those of RFC 8018 over `sec_hmac_sha1`, whose stack holds `frame`. -/
def Pbkdf2Law (frame : Nat → UInt8) (stack : Vector UInt8 64) (password salt : List UInt8) (iterations : Nat)
    (out : Nat → UInt8) (outLen : Nat) : Prop :=
  secPbkdf2Sha1 stack password salt iterations out outLen =
    some (store out 0 (pbkdf2 (secHmacSha1 frame) 20 password salt iterations outLen))

/-- The two MACs of block 1 without a password and a salt: the inner digest, and the first byte of the outer one. -/
structure FirstBlock (inner : List UInt8) (outer : List UInt8 → List UInt8) where
  digest : List UInt8
  byte : UInt8
  inner_eq : inner = digest
  outer_eq : (outer digest).getD 0 0 = byte

theorem FirstBlock.head_eq {inner : List UInt8} {outer : List UInt8 → List UInt8} (b : FirstBlock inner outer) :
    (outer inner).getD 0 0 = b.byte :=
  (congrArg (fun digest => (outer digest).getD 0 0) b.inner_eq).trans b.outer_eq

def cutFirstBlock : FirstBlock (secSha256 (zeros 64) (padKey [] 0x36 ++ [0, 0, 0, 1]))
    fun digest => (secSha256 (zeros 64) (padKey [] 0x5C ++ digest)).take 20 where
  digest := [168, 63, 34, 215, 72, 132, 187, 49, 198, 251, 88, 59, 239, 159, 254, 94, 135, 209, 38, 211, 88, 95, 109,
    96, 37, 209, 71, 168, 145, 95, 196, 168]
  byte := 247
  inner_eq := by decide +kernel
  outer_eq := by decide +kernel

def sha1FirstBlock : FirstBlock (secSha1 (store (store (fun _ => 0) 0 (padKey [] 0x36)) 64 [0, 0, 0, 1]) 68)
    fun digest => secSha1 (store (store (store (store (fun _ => 0) 0 (padKey [] 0x36)) 64 [0, 0, 0, 1]) 0
      (padKey [] 0x5C)) 64 digest) 84 where
  digest := [114, 171, 40, 77, 247, 134, 171, 74, 87, 145, 193, 253, 5, 104, 82, 254, 151, 154, 108, 152]
  byte := 190
  inner_eq := by decide +kernel
  outer_eq := by decide +kernel

theorem cutHmac_ne :
    (cutHmac (zeros 64) [] [0, 0, 0, 1]).getD 0 0 ≠ (secHmacSha1 (fun _ => 0) [] [0, 0, 0, 1]).getD 0 0 := by
  have hcut : (cutHmac (zeros 64) [] [0, 0, 0, 1]).getD 0 0 = 247 := cutFirstBlock.head_eq
  have hsha1 : (secHmacSha1 (fun _ => 0) [] [0, 0, 0, 1]).getD 0 0 = 190 := sha1FirstBlock.head_eq
  rw [hcut, hsha1]
  decide

theorem store_pbkdf2_zero {prf : Prf} {outLen : Nat} (hprf : ∀ message, (prf [] message).length = 20)
    (hpos : 0 < outLen) (out : Nat → UInt8) :
    store out 0 (pbkdf2 prf 20 [] [] 1 outLen) 0 = (prf [] (bigEndian 4 1)).getD 0 0 := by
  have hblock : ∀ i, (iteratedBlock prf [] [] 1 (i + 1)).length = 20 := fun i =>
    length_iteratedBlock hprf [] 1 (i + 1)
  have hlen := length_output hblock (by decide) outLen
  have hfirst : 0 < (iteratedBlock prf [] [] 1 (0 + 1)).length := by
    rw [hblock]
    decide
  have hget : (output (fun i => iteratedBlock prf [] [] 1 (i + 1)) 20 outLen).getD 0 0 =
      (prf [] (bigEndian 4 1)).getD 0 0 := getD_output (by decide) hfirst hpos
  unfold store pbkdf2
  rw [hlen, if_pos (by omega), Nat.sub_zero, hget]

theorem not_pbkdf2Law {outLen : Nat} (hpos : 0 < outLen) (hout : outLen + 19 < 2 ^ 32) (out : Nat → UInt8) :
    ¬ Pbkdf2Law (fun _ => 0) (zeros 64) [] [] 1 out outLen := by
  intro h
  unfold Pbkdf2Law at h
  rw [secPbkdf2Sha1_eq (show ([] : List UInt8).length ≤ 188 by decide) hout] at h
  have hbyte := congrFun (Option.some.inj h) 0
  rw [store_pbkdf2_zero (length_cutHmac (zeros 64) []) hpos,
    store_pbkdf2_zero (length_secHmacSha1 (fun _ => 0) []) hpos] at hbyte
  exact cutHmac_ne hbyte

theorem not_pbkdf2Law_wraps {outLen : Nat} (hout : outLen < 2 ^ 32) (hwrap : 2 ^ 32 ≤ outLen + 19) :
    ¬ Pbkdf2Law (fun _ => 0) (zeros 64) [] [] 1
      (fun _ => (secHmacSha1 (fun _ => 0) [] (bigEndian 4 1)).getD 0 0 + 1) outLen := by
  intro h
  unfold Pbkdf2Law at h
  rw [secPbkdf2Sha1_wraps hout hwrap] at h
  have hbyte := congrFun (Option.some.inj h) 0
  rw [store_pbkdf2_zero (length_secHmacSha1 (fun _ => 0) []) (by omega)] at hbyte
  generalize (secHmacSha1 (fun _ => 0) [] (bigEndian 4 1)).getD 0 0 = b at hbyte
  have hnat := congrArg UInt8.toNat hbyte
  rw [UInt8.toNat_add, show (1 : UInt8).toNat = 1 from rfl] at hnat
  omega

/-- **What is written is PBKDF2 over HMAC-SHA256 cut to 20 bytes**, up to the last 19 lengths, and it is that over
`sec_hmac_sha1` only where nothing is to be written. -/
theorem pbkdf2Law_iff {outLen : Nat} (hout : outLen < 2 ^ 32) :
    (∀ stack password salt iterations out, salt.length ≤ 188 → outLen + 19 < 2 ^ 32 →
        secPbkdf2Sha1 stack password salt iterations out outLen =
          some (store out 0 (pbkdf2 (cutHmac stack) 20 password salt iterations outLen))) ∧
      ((∀ frame stack password salt iterations out, salt.length ≤ 188 → 1 ≤ iterations →
        Pbkdf2Law frame stack password salt iterations out outLen) ↔ outLen = 0) := by
  refine ⟨fun stack password salt iterations out => secPbkdf2Sha1_eq, fun h => ?_, ?_⟩
  · by_contra hne
    rcases Nat.lt_or_ge (outLen + 19) (2 ^ 32) with hlt | hge
    · exact not_pbkdf2Law (Nat.pos_of_ne_zero hne) hlt (fun _ => 0) (h _ _ _ _ _ _ (Nat.zero_le 188) (Nat.le_refl 1))
    · exact not_pbkdf2Law_wraps hout hge (h _ _ _ _ _ _ (Nat.zero_le 188) (Nat.le_refl 1))
  · rintro rfl frame stack password salt iterations out hsalt -
    unfold Pbkdf2Law
    rw [secPbkdf2Sha1_eq hsalt (by decide)]
    unfold pbkdf2 output
    rw [List.take_zero, List.take_zero]

/-- The key of a network, of 32 bytes. -/
theorem pbkdf2Law_pmk : secPbkdf2Sha1 (zeros 64) [1] [2] 4096 (fun _ => 0) 32 =
    some (store (fun _ => 0) 0 (pbkdf2 (cutHmac (zeros 64)) 20 [1] [2] 4096 32)) :=
  (pbkdf2Law_iff (show 32 < 2 ^ 32 by decide)).1 _ _ _ _ _ (by decide) (by decide)

/-- One byte from no password and no salt. -/
theorem pbkdf2_oneByte : ¬ Pbkdf2Law (fun _ => 0) (zeros 64) [] [] 1 (fun _ => 0) 1 :=
  not_pbkdf2Law (by decide) (by decide) _

end Chicago95.Stage2
