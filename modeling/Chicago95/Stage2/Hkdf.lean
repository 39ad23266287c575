/-
# Chicago95.Stage2.Hkdf — HMAC-SHA256 and HKDF-SHA256 of `security/common/hkdf/hkdf.c`, and
`sec_hkdf_sha256_expand` of `security/common/crypto/crypto.c`.

The two expansions are written apart, with a `while` over the bytes and a `for` over the blocks. Both keep
to one invariant (`Expanded`), so that they write the bytes of RFC 5869 (`Lib.KeyDerivation.expand`) over
the function that they call.
-/
import Chicago95.Lib.KeyDerivation
import Chicago95.Stage2.Sha1
import Chicago95.Stage2.Sha2Standard
import Mathlib.Data.List.GetD

namespace Chicago95.Stage2

open Chicago95.Lib Chicago95.Lib.Absorb Chicago95.Lib.Loop Chicago95.Lib.KeyDerivation Sha2
open Chicago95.Stage2.Aes (store)
open Chicago95.Stage2.Sha1 (padKey)

/-! ## HMAC-SHA256 -/

/-- What the stack holds at a call of `sec_hmac_sha256`: the local buffer of `sec_sha256`, `inner.buffer`,
`outer.buffer`, and the local buffers of the two calls of `sec_sha256_final`. -/
structure HmacFrame where
  keyStack : Vector UInt8 64
  innerBuffer : Vector UInt8 64
  innerStack : Vector UInt8 64
  outerBuffer : Vector UInt8 64
  outerStack : Vector UInt8 64

def secHmacSha256 (frame : HmacFrame) (key data : List UInt8) : List UInt8 :=
  let key := if key.length > 64 then secSha256 frame.keyStack key else key
  let hashTmp := sha256Stream frame.innerBuffer frame.innerStack [padKey key 0x36, data]
  sha256Stream frame.outerBuffer frame.outerStack [padKey key 0x5C, hashTmp]

/-- The bytes put into an array of `cap` bytes; `none` where they go past its end. -/
def gather (cap : Nat) (bytes : List UInt8) : Option (List UInt8) :=
  if bytes.length ≤ cap then some bytes else none

/-! ## HKDF-SHA256 -/

/-- The loop of `sec_hkdf_sha256` from call `n` of `sec_hmac_sha256` on, where `t` is empty for `t_len = 0`. -/
def hkdfLoop (frames : Nat → HmacFrame) (prk info : List UInt8) (okmLen n : Nat) (t : List UInt8)
    (counter : UInt8) (done : Nat) (okm : Nat → UInt8) : Option (Nat → UInt8) :=
  if done < okmLen then do
    let input ← gather 256 (t ++ info ++ [counter])
    let t := secHmacSha256 (frames n) prk input
    hkdfLoop frames prk info okmLen (n + 1) t (counter + 1) (done + min 32 (okmLen - done))
      (store okm done (t.take (min 32 (okmLen - done))))
  else some okm
termination_by okmLen - done

/-- `sec_hkdf_sha256`, whose call `n` of `sec_hmac_sha256` has the stack `frames n`. -/
def secHkdfSha256 (frames : Nat → HmacFrame) (ikm : List UInt8) (salt : Option (List UInt8)) (info : List UInt8)
    (okm : Nat → UInt8) (okmLen : Nat) : Option (Nat → UInt8) :=
  let prk :=
    match salt with
    | none | some [] => secHmacSha256 (frames 0) (List.replicate 32 0) ikm
    | some salt => secHmacSha256 (frames 0) salt ikm
  hkdfLoop frames prk info okmLen 1 [] 1 0 okm

/-- A pass of `sec_hkdf_sha256_expand`, for `i = k + 1`, on `t`, `offset` and `okm`. -/
def expandPass (frames : Nat → HmacFrame) (prk info : List UInt8) (okmLen k : Nat)
    (s : List UInt8 × Nat × (Nat → UInt8)) : Option (List UInt8 × Nat × (Nat → UInt8)) := do
  let (t, offset, okm) := s
  let input ← gather (32 + 256 + 1) ((if k + 1 > 1 then t else []) ++ info ++ [UInt8.ofNat (k + 1)])
  let t := secHmacSha256 (frames (k + 1)) prk input
  let copyLen := if (offset + 32) % 2 ^ 32 > okmLen then okmLen - offset else 32
  some (t, offset + copyLen, store okm offset (t.take copyLen))

def secHkdfSha256Expand (frames : Nat → HmacFrame) (prk info : List UInt8) (okm : Nat → UInt8) (okmLen : Nat) :
    Option (Nat → UInt8) :=
  (forEachM ((okmLen + 31) % 2 ^ 32 / 32) (expandPass frames prk info okmLen) ([], 0, okm)).map (·.2.2)

/-! ## What the MAC goes by -/

theorem length_sha256Stream (buffer stack : Vector UInt8 64) (chunks : List (List UInt8)) :
    (sha256Stream buffer stack chunks).length = 32 := by
  unfold sha256Stream secSha256Final finish digest
  rw [List.length_map, List.length_range]

theorem length_secHmacSha256 (frame : HmacFrame) (key data : List UInt8) :
    (secHmacSha256 frame key data).length = 32 := length_sha256Stream _ _ _

theorem length_secHmacSha256_le (frame : HmacFrame) (key data : List UInt8) :
    (secHmacSha256 frame key data).length ≤ 64 := by
  rw [length_secHmacSha256]
  decide

theorem padKey_zeros (n : Nat) (pad : UInt8) : padKey (List.replicate n 0) pad = padKey [] pad := by
  refine List.map_congr_left fun i _ => ?_
  have hzero : (List.replicate n (0 : UInt8)).getD i 0 = 0 := by
    rw [List.getD_eq_getElem?_getD, List.getElem?_replicate]
    split <;> rfl
  rw [hzero]
  rfl

theorem secHmacSha256_zeros (frame : HmacFrame) (data : List UInt8) :
    secHmacSha256 frame (List.replicate 32 0) data = secHmacSha256 frame [] data := by
  unfold secHmacSha256
  rw [if_neg (by decide), if_neg (by decide)]
  dsimp only
  rw [padKey_zeros, padKey_zeros]

theorem sha256Stream_block (buffer stack : Vector UInt8 64) {xs ys : List UInt8} (hxs : xs.length = 64)
    (hys : ys.length = 32) : sha256Stream buffer stack [xs, ys] =
      sha256.finish (sha256.transform sha256State (blockAt 64 xs 0)) (paddedTail 56 stack 32 1536) := by
  have hflat : [xs, ys].flatten = xs ++ ys := by simp
  have hlen : (xs ++ ys).length = 96 := by rw [List.length_append, hxs, hys]
  have hone : blocks 64 xs = [blockAt 64 xs 0] := by
    unfold blocks
    rw [hxs]
    rfl
  have hblocks : blocks 64 (xs ++ ys) = [blockAt 64 xs 0] := by
    rw [blocks_append (by decide), hxs, hys, hone]
    rfl
  rw [sha256Stream_eq buffer stack stack, hflat, hlen, state_taken_eq (by decide), hblocks]
  rfl

theorem secHmacSha256_eq (frame : HmacFrame) {key : List UInt8} (hkey : key.length ≤ 64) (data : List UInt8) :
    secHmacSha256 frame key data = sha256.finish (sha256.transform sha256State (blockAt 64 (padKey key 0x5C) 0))
        (paddedTail 56 frame.outerStack 32 1536) := by
  have hpad : (padKey key 0x5C).length = 64 := by
    unfold padKey
    rw [List.length_map, List.length_range]
  unfold secHmacSha256
  rw [if_neg (by omega), sha256Stream_block _ _ hpad (length_sha256Stream _ _ _)]

theorem secHmacSha256_congr {f f' : HmacFrame} {key : List UInt8} (hkey : key.length ≤ 64)
    (hstack : ∀ i (hi : i < 64), i < 32 → f.outerStack[i] = f'.outerStack[i]) (data data' : List UInt8) :
    secHmacSha256 f key data = secHmacSha256 f' key data' := by
  rw [secHmacSha256_eq f hkey, secHmacSha256_eq f' hkey, paddedTail_congr (by decide) hstack]

/-! ## The expansions -/

theorem store_append (buf : Nat → UInt8) (pos : Nat) (xs ys : List UInt8) :
    store (store buf pos xs) (pos + xs.length) ys = store buf pos (xs ++ ys) := by
  funext i
  unfold store
  rw [List.length_append]
  by_cases hys : pos + xs.length ≤ i ∧ i < pos + xs.length + ys.length
  · rw [if_pos hys, if_pos (by omega), List.getD_append_right _ _ _ _ (by omega), Nat.sub_add_eq]
  · rw [if_neg hys]
    by_cases hxs : pos ≤ i ∧ i < pos + xs.length
    · rw [if_pos hxs, if_pos (by omega), List.getD_append _ _ _ _ (by omega)]
    · rw [if_neg hxs, if_neg (by omega)]

/-- What a function that writes blocks of `size` bytes has come to behind `k` of them. -/
structure Expanded (block : Nat → List UInt8) (size : Nat) (okm₀ : Nat → UInt8) (okmLen k done : Nat)
    (okm : Nat → UInt8) : Prop where
  done : done = min okmLen (size * k)
  written : okm = store okm₀ 0 ((blocksUpTo block k).take okmLen)

namespace Expanded

variable {block : Nat → List UInt8} {size okmLen k done : Nat} {okm₀ okm : Nat → UInt8}

theorem start (okm₀ : Nat → UInt8) (okmLen : Nat) : Expanded block size okm₀ okmLen 0 0 okm₀ where
  done := by rw [Nat.mul_zero, Nat.min_zero]
  written := by
    funext i
    exact (if_neg fun h => by simp [blocksUpTo] at h).symm

theorem pass (h : Expanded block size okm₀ okmLen k done okm) (hblock : ∀ i, (block i).length = size) :
    Expanded block size okm₀ okmLen (k + 1) (done + min size (okmLen - done))
      (store okm done ((block k).take (min size (okmLen - done)))) where
  done := by
    have := h.done
    rw [Nat.mul_succ]
    omega
  written := by
    have hlen := length_take_blocksUpTo hblock k okmLen
    have hcut : okmLen - done = okmLen - size * k := by
      have := h.done
      omega
    rw [take_blocksUpTo_succ hblock, ← store_append, hlen, Nat.zero_add, ← h.done, hcut, ← h.written]

theorem last (h : Expanded block size okm₀ okmLen k done okm) (hblock : ∀ i, (block i).length = size)
    (hsize : 0 < size) (hk : okmLen ≤ size * k) : okm = store okm₀ 0 (output block size okmLen) := by
  rw [h.written, take_blocksUpTo hblock hsize hk]

end Expanded

section Expansions

variable {frames : Nat → HmacFrame} {prk info : List UInt8} {okmLen k done : Nat} {okm₀ okm : Nat → UInt8}

/-- `T(k)` of RFC 5869, over `sec_hmac_sha256`. -/
abbrev hkdfT (frames : Nat → HmacFrame) (prk info : List UInt8) : Nat → List UInt8 :=
  chained (fun i => secHmacSha256 (frames i)) prk info

theorem length_hkdfT (frames : Nat → HmacFrame) (prk info : List UInt8) (i : Nat) :
    (hkdfT frames prk info (i + 1)).length = 32 := length_secHmacSha256 _ _ _

theorem hkdfT_succ (frames : Nat → HmacFrame) (prk info : List UInt8) (k : Nat) : hkdfT frames prk info (k + 1) =
      secHmacSha256 (frames (k + 1)) prk (hkdfT frames prk info k ++ info ++ [UInt8.ofNat (k + 1)]) := by
  rw [hkdfT, chained]

theorem gather_input (hinfo : info.length ≤ 223) {cap : Nat} (hcap : 256 ≤ cap) (k : Nat) (counter : UInt8) :
    gather cap (hkdfT frames prk info k ++ info ++ [counter]) =
      some (hkdfT frames prk info k ++ info ++ [counter]) := by
  have hlen : (hkdfT frames prk info k).length ≤ 32 := by
    cases k with
    | zero => exact Nat.zero_le 32
    | succ k => rw [length_hkdfT]
  refine if_pos ?_
  rw [List.length_append, List.length_append, List.length_singleton]
  omega

/-- What both loops keep to. -/
abbrev HkdfExpanded (frames : Nat → HmacFrame) (prk info : List UInt8) :=
  Expanded (fun i => hkdfT frames prk info (i + 1)) 32

theorem hkdfLoop_eq (hinfo : info.length ≤ 223) (m : Nat) :
    ∀ {k done : Nat} {okm : Nat → UInt8}, okmLen ≤ 32 * (k + m) → HkdfExpanded frames prk info okm₀ okmLen k done okm →
      hkdfLoop frames prk info okmLen (k + 1) (hkdfT frames prk info k) (UInt8.ofNat (k + 1)) done okm =
        some (store okm₀ 0 (expand (fun i => secHmacSha256 (frames i)) 32 prk info okmLen)) := by
  have hlen := length_hkdfT frames prk info
  induction m with
  | zero =>
    intro k done okm hle h
    have hdone := h.done
    rw [hkdfLoop, if_neg (by omega), h.last hlen (by decide) hle]
    rfl
  | succ m ih =>
    intro k done okm hle h
    have hdone := h.done
    rw [hkdfLoop]
    split
    · have hcounter : UInt8.ofNat (k + 1) + 1 = UInt8.ofNat (k + 1 + 1) := UInt8.ofNat_add (k + 1) 1 |>.symm
      rw [gather_input hinfo (by decide), Option.bind_eq_bind, Option.bind_some, ← hkdfT_succ, hcounter]
      exact ih (by omega) (h.pass hlen)
    · rw [h.last hlen (by decide) (by omega)]
      rfl

theorem expandPass_eq (hinfo : info.length ≤ 223) (hokm : okmLen ≤ 8160)
    (h : HkdfExpanded frames prk info okm₀ okmLen k done okm) (hk : 32 * k < okmLen) :
    expandPass frames prk info okmLen k (hkdfT frames prk info k, done, okm) =
      some (hkdfT frames prk info (k + 1), done + min 32 (okmLen - done),
        store okm done ((hkdfT frames prk info (k + 1)).take (min 32 (okmLen - done)))) := by
  have hdone := h.done
  have hprev : (if k + 1 > 1 then hkdfT frames prk info k else []) = hkdfT frames prk info k := by
    cases k with
    | zero => rfl
    | succ k => exact if_pos (by omega)
  have hcopy : (if (done + 32) % 2 ^ 32 > okmLen then okmLen - done else 32) = min 32 (okmLen - done) := by
    rw [Nat.mod_eq_of_lt (by omega)]
    split <;> omega
  unfold expandPass
  dsimp only
  rw [hprev, gather_input hinfo (by decide), Option.bind_eq_bind, Option.bind_some, ← hkdfT_succ, hcopy]

theorem secHkdfSha256_eq (hinfo : info.length ≤ 223) (ikm : List UInt8) (salt : Option (List UInt8)) :
    secHkdfSha256 frames ikm salt info okm okmLen = some (store okm 0 (expand (fun i => secHmacSha256 (frames i)) 32
        (extract (secHmacSha256 (frames 0)) 32 salt ikm) info okmLen)) := by
  have hloop : ∀ prk, hkdfLoop frames prk info okmLen 1 [] 1 0 okm =
      some (store okm 0 (expand (fun i => secHmacSha256 (frames i)) 32 prk info okmLen)) := fun prk =>
    hkdfLoop_eq hinfo okmLen (k := 0) (by omega) (Expanded.start okm okmLen)
  unfold secHkdfSha256 extract
  rcases salt with _ | _ | ⟨b, salt⟩
  · exact hloop _
  -- to the MAC, an empty salt is one of zeros
  · rw [Option.getD_some, ← secHmacSha256_zeros]
    exact hloop _
  · exact hloop _

theorem secHkdfSha256Expand_eq (hinfo : info.length ≤ 223) (hokm : okmLen ≤ 8160) :
    secHkdfSha256Expand frames prk info okm okmLen =
      some (store okm 0 (expand (fun i => secHmacSha256 (frames i)) 32 prk info okmLen)) := by
  have hcount : (okmLen + 31) % 2 ^ 32 / 32 = (okmLen + 31) / 32 := by
    rw [Nat.mod_eq_of_lt (by omega)]
  have hlen := length_hkdfT frames prk info
  obtain ⟨hrun, -, hexpanded⟩ := forEachM_eq_some
    (P := fun k s => s.1 = hkdfT frames prk info k ∧ HkdfExpanded frames prk info okm okmLen k s.2.1 s.2.2)
    (n := (okmLen + 31) / 32) (s := ([], 0, okm)) ⟨rfl, Expanded.start okm okmLen⟩
    fun k s hk h => ⟨h.1 ▸ expandPass_eq hinfo hokm h.2 (by omega), rfl, h.2.pass hlen⟩
  unfold secHkdfSha256Expand
  rw [hcount, hrun, Option.map_some, hexpanded.last hlen (by decide) (by omega)]
  rfl

end Expansions

/-! ## What the two are to do -/

/-- The bytes are those of RFC 5869, and an expansion of the same key makes them again. -/
structure HkdfLaw (frames frames' : Nat → HmacFrame) (ikm : List UInt8) (salt : Option (List UInt8))
    (info : List UInt8) (okm : Nat → UInt8) (okmLen : Nat) : Prop where
  written : secHkdfSha256 frames ikm salt info okm okmLen =
    some (store okm 0 (expand (fun i => secHmacSha256 (frames i)) 32
      (extract (secHmacSha256 (frames 0)) 32 salt ikm) info okmLen))
  expanded : secHkdfSha256Expand frames' (extract (secHmacSha256 (frames 0)) 32 salt ikm) info okm okmLen =
    secHkdfSha256 frames ikm salt info okm okmLen

/-- The stacks agree, at the calls for `n` blocks, on the bytes that go into the MAC. -/
def SameStack (n : Nat) (frames frames' : Nat → HmacFrame) : Prop :=
  ∀ k, k < n → ∀ i (hi : i < 64), i < 32 → (frames (k + 1)).outerStack[i] = (frames' (k + 1)).outerStack[i]

theorem hkdfLaw_of_sameStack {frames frames' : Nat → HmacFrame} {info : List UInt8} {okmLen : Nat}
    (hinfo : info.length ≤ 223) (hokm : okmLen ≤ 8160) (h : SameStack ((okmLen + 31) / 32) frames frames')
    (ikm : List UInt8) (salt : Option (List UInt8)) (okm : Nat → UInt8) :
    HkdfLaw frames frames' ikm salt info okm okmLen where
  written := secHkdfSha256_eq hinfo ikm salt
  expanded := by
    have hprk := length_secHmacSha256_le (frames 0) (salt.getD (List.replicate 32 0)) ikm
    rw [secHkdfSha256Expand_eq hinfo hokm, secHkdfSha256_eq hinfo]
    refine congrArg (fun bytes => some (store okm 0 bytes)) (expand_congr fun k hk => funext fun data => ?_)
    exact (secHmacSha256_congr hprk (h k hk) data data).symm

/-- A stack of equal bytes. -/
def stackOf (b : UInt8) : HmacFrame where
  keyStack := Vector.replicate 64 b
  innerBuffer := Vector.replicate 64 b
  innerStack := Vector.replicate 64 b
  outerBuffer := Vector.replicate 64 b
  outerStack := Vector.replicate 64 b

/-- The key of no input, extracted on a stack of zeros. -/
def zeroPrk : { prk : List UInt8 // secHmacSha256 (stackOf 0) (List.replicate 32 0) [] = prk } where
  val := [198, 121, 62, 214, 43, 47, 185, 210, 81, 88, 227, 154, 228, 101, 189, 164, 253, 249, 55, 190, 160, 140,
    125, 119, 47, 129, 163, 250, 52, 59, 196, 219]
  property := by
    rw [secHmacSha256_eq (stackOf 0) (by decide)]
    decide +kernel

/-- The first byte that is expanded from it, where the outer hash has a stack of `b`. -/
structure FirstByte (b : UInt8) where
  byte : UInt8
  expanded : (secHmacSha256 (stackOf b) zeroPrk.val []).getD 0 0 = byte

def firstByteZeros : FirstByte 0 where
  byte := 45
  expanded := by
    rw [secHmacSha256_eq (stackOf 0) (by decide)]
    decide +kernel

def firstByteOnes : FirstByte 1 where
  byte := 144
  expanded := by
    rw [secHmacSha256_eq (stackOf 1) (by decide)]
    decide +kernel

theorem stackOf_ne : (secHmacSha256 (stackOf 0) (secHmacSha256 (stackOf 0) (List.replicate 32 0) []) []).getD 0 0 ≠
      (secHmacSha256 (stackOf 1) (secHmacSha256 (stackOf 0) (List.replicate 32 0) []) []).getD 0 0 := by
  rw [zeroPrk.property, firstByteZeros.expanded, firstByteOnes.expanded]
  decide

theorem store_expand_zero (frames : Nat → HmacFrame) {prk info : List UInt8} {okmLen : Nat} (hpos : 0 < okmLen)
    (okm : Nat → UInt8) : store okm 0 (expand (fun i => secHmacSha256 (frames i)) 32 prk info okmLen) 0 =
      (hkdfT frames prk info 1).getD 0 0 := by
  have hT := length_hkdfT frames prk info
  have hlen := length_output hT (by decide) okmLen
  have hfirst : (0 : Nat) < (hkdfT frames prk info (0 + 1)).length := by
    rw [hT]
    decide
  unfold store expand
  rw [hlen, if_pos (by omega), Nat.sub_zero, getD_output (by decide) hfirst hpos]

theorem not_hkdfLaw {info : List UInt8} {okmLen : Nat} (hinfo : info.length ≤ 223) (hokm : okmLen ≤ 8160)
    (hpos : 0 < okmLen) (okm : Nat → UInt8) :
    ¬ HkdfLaw (fun _ => stackOf 0) (fun _ => stackOf 1) [] none info okm okmLen := by
  intro h
  have heq := h.expanded
  rw [secHkdfSha256Expand_eq hinfo hokm, secHkdfSha256_eq hinfo] at heq
  have hprk := length_secHmacSha256_le (stackOf 0) (List.replicate 32 0) []
  have hany : ∀ frame data, secHmacSha256 frame (secHmacSha256 (stackOf 0) (List.replicate 32 0) []) data =
      secHmacSha256 frame (secHmacSha256 (stackOf 0) (List.replicate 32 0) []) [] := fun _ data =>
    secHmacSha256_congr hprk (fun _ _ _ => rfl) data []
  have hbyte := congrFun (Option.some.inj heq) 0
  rw [store_expand_zero (fun _ => stackOf 1) hpos, store_expand_zero (fun _ => stackOf 0) hpos, hkdfT_succ,
    hkdfT_succ, extract, Option.getD_none, hany (stackOf 1), hany (stackOf 0)] at hbyte
  exact stackOf_ne hbyte.symm

/-- **The law holds where the stacks agree**, and on every stack only for no bytes at all. -/
theorem hkdfLaw_iff {info : List UInt8} {okmLen : Nat} (hinfo : info.length ≤ 223) (hokm : okmLen ≤ 8160) :
    (∀ frames frames' ikm salt okm, SameStack ((okmLen + 31) / 32) frames frames' →
        HkdfLaw frames frames' ikm salt info okm okmLen) ∧
      ((∀ frames frames' ikm salt okm, HkdfLaw frames frames' ikm salt info okm okmLen) ↔ okmLen = 0) := by
  have hsame : ∀ frames frames' ikm salt okm, SameStack ((okmLen + 31) / 32) frames frames' →
      HkdfLaw frames frames' ikm salt info okm okmLen :=
    fun frames frames' ikm salt okm h => hkdfLaw_of_sameStack hinfo hokm h ikm salt okm
  refine ⟨hsame, fun h => ?_, fun hzero frames frames' ikm salt okm => ?_⟩
  · by_contra hne
    exact not_hkdfLaw hinfo hokm (Nat.pos_of_ne_zero hne) (fun _ => 0) (h _ _ _ _ _)
  · refine hsame frames frames' ikm salt okm fun k hk => ?_
    rw [hzero] at hk
    exact absurd hk (Nat.not_lt_zero k)

/-- A block of 32 bytes without `info`. -/
theorem hkdfLaw_block : HkdfLaw (fun _ => stackOf 0) (fun _ => stackOf 0) [0x0b] none [0x63] (fun _ => 0) 32 :=
  (hkdfLaw_iff (show [(0x63 : UInt8)].length ≤ 223 by decide) (by decide)).1 (fun _ => stackOf 0) (fun _ => stackOf 0)
    _ _ _ fun _ _ _ _ _ => rfl

/-- One byte for the key of no input. -/
theorem hkdf_oneByte : ¬ HkdfLaw (fun _ => stackOf 0) (fun _ => stackOf 1) [] none [] (fun _ => 0) 1 :=
  not_hkdfLaw (by decide) (by decide) (by decide) _

end Chicago95.Stage2
