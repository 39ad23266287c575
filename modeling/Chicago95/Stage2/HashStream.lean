/-
# Chicago95.Stage2.HashStream — hashing in chunks and at once.

Both ways to hash take in the same blocks (`update_eq`, `Lib.Absorb.absorb_flatten`), so that they agree
or not by the blocks they end with: where these are the same the digests are, and elsewhere the digests
agree only if the compression function collides on them (`finish_eq_iff`).
-/
import Chicago95.Lib.Digits
import Chicago95.Stage2.Sha2

namespace Chicago95.Stage2

open Chicago95.Lib.Absorb Chicago95.Lib.Digits Sha2

namespace Sha2

variable {w size : Nat} {F : Sha2 w size} {state : State w}

/-! ## The digest -/

theorem testBit_byte (x j t : Nat) (ht : t < 8) : (UInt8.ofNat (x / 2 ^ j)).toNat.testBit t = x.testBit (j + t) := by
  rw [testBit_ofNat_byte _ _ ht, Nat.testBit_div_two_pow, Nat.add_comm]

theorem digest_inj (hw : w % 8 = 0) {s t : State w} (h : digest s = digest t) : s = t := by
  refine Vector.ext fun i hi => BitVec.eq_of_toNat_eq (Nat.eq_of_testBit_eq fun b => ?_)
  rcases Nat.lt_or_ge b w with hb | hb
  · -- the byte that bit `b` of word `i` is in
    have hwords : 8 * (w / 8) = w := by omega
    have hk : w / 8 - 1 - b / 8 < w / 8 := by omega
    have hn : i * (w / 8) + (w / 8 - 1 - b / 8) < w := by
      have := Nat.mul_le_mul_right (w / 8) (show i + 1 ≤ 8 by omega)
      rw [Nat.add_mul] at this
      omega
    have hget := congrArg (fun l => l.getD (i * (w / 8) + (w / 8 - 1 - b / 8)) 0) h
    have hdiv : (i * (w / 8) + (w / 8 - 1 - b / 8)) / (w / 8) = i := by
      rw [Nat.mul_comm, Nat.mul_add_div (by omega), Nat.div_eq_of_lt hk, Nat.add_zero]
    have hmod : (i * (w / 8) + (w / 8 - 1 - b / 8)) % (w / 8) = w / 8 - 1 - b / 8 := by
      rw [Nat.mul_comm, Nat.mul_add_mod, Nat.mod_eq_of_lt hk]
    have hshift : w - 8 - 8 * (w / 8 - 1 - b / 8) = 8 * (b / 8) := by omega
    unfold digest at hget
    simp only [List.getD_eq_getElem?_getD, List.getElem?_map, List.getElem?_range hn, Option.map_some,
      Option.getD_some, hdiv, hmod, hshift, Vector.getElem?_toList, Vector.getElem?_eq_getElem hi] at hget
    have hbit := congrArg (fun x : UInt8 => x.toNat.testBit (b % 8)) hget
    simp only [testBit_byte _ _ _ (Nat.mod_lt b (by omega)), Nat.div_add_mod] at hbit
    exact hbit
  · rw [testBit_of_lt_two_pow s[i].isLt hb, testBit_of_lt_two_pow t[i].isLt hb]

/-- Different last blocks that the compression function takes to one state. -/
def Collision (F : Sha2 w size) (state : State w) (xs ys : List (Vector UInt8 size)) : Prop :=
  xs ≠ ys ∧ xs.foldl F.transform state = ys.foldl F.transform state

theorem finish_eq_iff (hw : w % 8 = 0) (xs ys : List (Vector UInt8 size)) :
    F.finish state xs = F.finish state ys ↔ xs = ys ∨ Collision F state xs ys := by
  unfold finish Collision
  constructor
  · intro h
    by_cases heq : xs = ys
    · exact Or.inl heq
    · exact Or.inr ⟨heq, digest_inj hw h⟩
  · rintro (rfl | ⟨-, h⟩)
    · rfl
    · rw [h]

/-! ## The last blocks -/

@[simp] theorem getElem_fillWith (buffer : Vector UInt8 size) (start stop : Nat) (x : UInt8) {i : Nat} (hi : i < size) :
    (fillWith buffer start stop x)[i] = if start ≤ i ∧ i < stop then x else buffer[i] := by
  simp [fillWith]

@[simp] theorem getElem_putLength (buffer : Vector UInt8 size) (lim : Nat) (bitLen : UInt64) {i : Nat} (hi : i < size) :
    (putLength buffer lim bitLen)[i] =
      if lim ≤ i ∧ i < lim + 8 then UInt8.ofNat (bitLen.toNat / 2 ^ (56 - (i - lim) * 8)) else buffer[i] := by
  simp [putLength]

theorem putLength_inj {b b' : Vector UInt8 size} {lim : Nat} (hlim : lim + 8 ≤ size) {m n : UInt64}
    (h : putLength b lim m = putLength b' lim n) : m = n := by
  refine UInt64.toNat_inj.mp (Nat.eq_of_testBit_eq fun t => ?_)
  rcases Nat.lt_or_ge t 64 with ht | ht
  · have hi : lim + (7 - t / 8) < size := by omega
    -- bit `t` is in byte `7 - t / 8` of the eight
    have hget := congrArg (fun v : Vector UInt8 size => v[lim + (7 - t / 8)].toNat.testBit (t % 8)) h
    have hshift : 56 - (lim + (7 - t / 8) - lim) * 8 = 8 * (t / 8) := by omega
    simp only [getElem_putLength _ _ _ hi, hshift] at hget
    rw [if_pos (by omega), if_pos (by omega), testBit_byte _ _ _ (Nat.mod_lt t (by omega)),
      testBit_byte _ _ _ (Nat.mod_lt t (by omega)), Nat.div_add_mod] at hget
    exact hget
  · rw [testBit_of_lt_two_pow m.toNat_lt ht, testBit_of_lt_two_pow n.toNat_lt ht]

theorem paddedTail_length_inj {b b' : Vector UInt8 size} {lim bufLen : Nat} (hlim : lim + 8 ≤ size)
    {m n : UInt64} (h : paddedTail lim b bufLen m = paddedTail lim b' bufLen n) : m = n := by
  unfold paddedTail at h
  dsimp only at h
  split at h
  · exact putLength_inj hlim (List.cons.inj (List.cons.inj h).2).1
  · exact putLength_inj hlim (List.cons.inj h).1

theorem getElem_marked_congr {b b' : Vector UInt8 size} {bufLen : Nat}
    (h : ∀ i (hi : i < size), i < bufLen → b[i] = b'[i]) {i : Nat} (hi : i < size) (hle : i ≤ bufLen) :
    (b.setIfInBounds bufLen 0x80)[i] = (b'.setIfInBounds bufLen 0x80)[i] := by
  rw [Vector.getElem_setIfInBounds, Vector.getElem_setIfInBounds]
  split
  · rfl
  · exact h i hi (by omega)

theorem getElem_padded_congr {b b' : Vector UInt8 size} {lim bufLen : Nat}
    (h : ∀ i (hi : i < size), i < bufLen → b[i] = b'[i]) (bits : UInt64) {i : Nat} (hi : i < size) (hlt : i < lim + 8) :
    (putLength (fillWith (b.setIfInBounds bufLen 0x80) (bufLen + 1) lim 0) lim bits)[i] =
      (putLength (fillWith (b'.setIfInBounds bufLen 0x80) (bufLen + 1) lim 0) lim bits)[i] := by
  rw [getElem_putLength _ _ _ hi, getElem_putLength _ _ _ hi]
  split
  · rfl
  · rw [getElem_fillWith _ _ _ _ hi, getElem_fillWith _ _ _ _ hi]
    split
    · rfl
    · exact getElem_marked_congr h hi (by omega)

theorem paddedTail_congr {b b' : Vector UInt8 size} {lim bufLen : Nat} (hlim : lim + 8 = size)
    (h : ∀ i (hi : i < size), i < bufLen → b[i] = b'[i]) (bits : UInt64) :
    paddedTail lim b bufLen bits = paddedTail lim b' bufLen bits := by
  unfold paddedTail
  dsimp only
  split
  · have hfull : fillWith (b.setIfInBounds bufLen 0x80) (bufLen + 1) size 0 =
        fillWith (b'.setIfInBounds bufLen 0x80) (bufLen + 1) size 0 := by
      refine Vector.ext fun i hi => ?_
      rw [getElem_fillWith _ _ _ _ hi, getElem_fillWith _ _ _ _ hi]
      split
      · rfl
      · exact getElem_marked_congr h hi (by omega)
    rw [hfull]
  · congr 1
    exact Vector.ext fun i hi => getElem_padded_congr h bits hi (by omega)

/-- The context when all data has been taken in. -/
def taken (F : Sha2 w size) (init : State w) (buffer : Vector UInt8 size) (data : List UInt8) : Ctx w size :=
  absorb F.process (start init buffer) data

theorem fill_taken (hsize : 0 < size) (init : State w) (buffer : Vector UInt8 size) (data : List UInt8) :
    (taken F init buffer data).fill = data.length % size := by
  unfold taken
  rw [fill_absorb hsize (s := start init buffer) hsize]
  exact congrArg (· % size) (Nat.zero_add data.length)

theorem totalLen_absorb {ctx : Ctx w size} (hsize : 0 < size) (hfill : ctx.fill < size) (data : List UInt8) :
    (absorb F.process ctx data).chain.totalLen =
      ctx.chain.totalLen + UInt64.ofNat (size * ((ctx.fill + data.length) / size)) :=
  absorb_blocks (P := fun k c => c.totalLen = ctx.chain.totalLen + UInt64.ofNat (size * k)) hsize hfill
    (by simp) (fun k c b hk => by
      show c.totalLen + UInt64.ofNat size = _
      rw [hk, Nat.mul_succ, UInt64.ofNat_add, UInt64.add_assoc]) data

theorem totalLen_taken (hsize : 0 < size) (init : State w) (buffer : Vector UInt8 size) (data : List UInt8) :
    (taken F init buffer data).chain.totalLen + UInt64.ofNat (taken F init buffer data).fill =
      UInt64.ofNat data.length := by
  have htotal : (absorb F.process (start init buffer) data).chain.totalLen =
      (start init buffer).chain.totalLen +
        UInt64.ofNat (size * (((start init buffer).fill + data.length) / size)) :=
    totalLen_absorb hsize hsize data
  rw [fill_taken hsize]
  unfold taken
  rw [htotal]
  show 0 + UInt64.ofNat (size * ((0 + data.length) / size)) + _ = _
  rw [UInt64.zero_add, ← UInt64.ofNat_add, Nat.zero_add, Nat.div_add_mod]

theorem oneShot_eq (hsize : 0 < size) (init : State w) (lim : Nat) (stack : Vector UInt8 size) (data : List UInt8) :
    F.oneShot init lim stack data = F.finish (taken F init stack data).chain.state
      (paddedTail lim (taken F init stack data).buffer (data.length % size) (UInt64.ofNat data.length * 8)) := by
  rw [← totalLen_taken (F := F) hsize init stack data, ← fill_taken (F := F) hsize init stack data]
  rfl

theorem state_taken (hsize : 0 < size) (init : State w) (b b' : Vector UInt8 size) (data : List UInt8) :
    (taken F init b data).chain = (taken F init b' data).chain :=
  (absorb_agree (s := start init b) (t := start init b') hsize rfl rfl rfl data).1

theorem buffer_taken (hsize : 0 < size) (init : State w) (b b' : Vector UInt8 size) (data : List UInt8) :
    ∀ i (hi : i < size), i < data.length → (taken F init b data).buffer[i] = (taken F init b' data).buffer[i] :=
  (absorb_agree (s := start init b) (t := start init b') hsize rfl rfl rfl data).2

end Sha2

/-! ## SHA-256 -/

theorem state_update (chunks : List (List UInt8)) (ctx : Sha256Ctx) :
    (chunks.foldl secSha256Update ctx).map Chain.state =
      absorb sha256.transform (ctx.map Chain.state) chunks.flatten := by
  induction chunks generalizing ctx with
  | nil => rfl
  | cons data chunks ih =>
    have hone : (secSha256Update ctx data).map Chain.state =
        absorb sha256.transform (ctx.map Chain.state) data :=
      absorb_map (f := Chain.state) (fun _ _ => rfl) data
    rw [List.foldl_cons, ih, hone, List.flatten_cons, absorb_append]

theorem totalLen_update (chunks : List (List UInt8)) : ∀ {ctx : Sha256Ctx} {n : Nat}, ctx.fill = n % 64 →
      ctx.chain.totalLen = UInt64.ofNat (64 * (n / 64) + n) →
      (chunks.foldl secSha256Update ctx).fill = (n + chunks.flatten.length) % 64 ∧
      (chunks.foldl secSha256Update ctx).chain.totalLen =
        UInt64.ofNat (64 * ((n + chunks.flatten.length) / 64) + (n + chunks.flatten.length)) := by
  induction chunks with
  | nil => exact fun hfill htotal => ⟨hfill, htotal⟩
  | cons data chunks ih =>
    intro ctx n hfill htotal
    have hlt : ctx.fill < 64 := by omega
    have hfill' : (secSha256Update ctx data).fill = (n + data.length) % 64 := by
      show (absorb sha256.process ctx data).fill = _
      rw [fill_absorb (by decide) hlt, hfill]
      omega
    have htotal' : (secSha256Update ctx data).chain.totalLen =
        UInt64.ofNat (64 * ((n + data.length) / 64) + (n + data.length)) := by
      show (absorb sha256.process ctx data).chain.totalLen + UInt64.ofNat data.length = _
      rw [totalLen_absorb (by decide) hlt, htotal, hfill, ← UInt64.ofNat_add, ← UInt64.ofNat_add]
      congr 1
      omega
    rw [List.foldl_cons, List.flatten_cons, List.length_append, ← Nat.add_assoc]
    exact ih hfill' htotal'

theorem sha256Stream_eq (buffer stack stack' : Vector UInt8 64) (chunks : List (List UInt8)) :
    sha256Stream buffer stack chunks = sha256.finish (taken sha256 sha256State stack' chunks.flatten).chain.state
        (paddedTail 56 stack (chunks.flatten.length % 64) (UInt64.ofNat (2 * chunks.flatten.length) * 8)) := by
  have hmap := state_update chunks (secSha256Init buffer)
  have hstart : (start sha256State buffer).map Chain.state = (secSha256Init buffer).map Chain.state := rfl
  have hstate : (chunks.foldl secSha256Update (secSha256Init buffer)).chain.state =
      (taken sha256 sha256State buffer chunks.flatten).chain.state := by
    have htaken : (taken sha256 sha256State buffer chunks.flatten).map Chain.state =
        absorb sha256.transform ((secSha256Init buffer).map Chain.state) chunks.flatten :=
      absorb_map (f := Chain.state) (fun _ _ => rfl) chunks.flatten
    exact congrArg Absorber.chain (hmap.trans htaken.symm)
  -- from the empty context on, both counts go by the length
  obtain ⟨hfill, htotal⟩ := @totalLen_update chunks (secSha256Init buffer) 0 rfl rfl
  rw [Nat.zero_add] at hfill htotal
  unfold sha256Stream secSha256Final
  dsimp only
  rw [hstate, hfill, htotal, state_taken (by decide) sha256State buffer stack', ← UInt64.ofNat_add]
  congr 4
  omega

/-- **Only the empty message** is hashed in chunks as it is at once, but for messages whose last blocks,
padded for different lengths, collide. -/
theorem sha256Stream_eq_iff (buffer stack stack' : Vector UInt8 64) (chunks : List (List UInt8))
    (hlen : chunks.flatten.length < 2 ^ 32) : sha256Stream buffer stack chunks = secSha256 stack' chunks.flatten ↔
      chunks.flatten = [] ∨ Collision sha256 (taken sha256 sha256State stack' chunks.flatten).chain.state
          (paddedTail 56 stack (chunks.flatten.length % 64) (UInt64.ofNat (2 * chunks.flatten.length) * 8))
          (paddedTail 56 (taken sha256 sha256State stack' chunks.flatten).buffer
            (chunks.flatten.length % 64) (UInt64.ofNat chunks.flatten.length * 8)) := by
  rw [sha256Stream_eq buffer stack stack', secSha256, oneShot_eq (by decide),
    finish_eq_iff (by decide)]
  refine or_congr_left ⟨fun h => ?_, fun h => ?_⟩
  · -- the lengths at the end of the blocks are the same
    have hbits := congrArg UInt64.toNat (paddedTail_length_inj (by decide) h)
    simp only [UInt64.toNat_mul, UInt64.toNat_ofNat', show (8 : UInt64).toNat = 8 from rfl] at hbits
    exact List.eq_nil_of_length_eq_zero (by omega)
  · rw [h]
    exact paddedTail_congr (by decide) (fun i _ hi => absurd hi (Nat.not_lt_zero i)) _

/-- A buffer of zeros. -/
abbrev zeros (n : Nat) : Vector UInt8 n := Vector.replicate n 0

theorem sha256_empty : sha256Stream (zeros 64) (zeros 64) [[], []] = secSha256 (zeros 64) [] :=
  (sha256Stream_eq_iff (zeros 64) (zeros 64) (zeros 64) [[], []] (by decide)).mpr (Or.inl rfl)

/-- A message of one byte. -/
theorem sha256_oneByte : sha256Stream (zeros 64) (zeros 64) [[0]] ≠ secSha256 (zeros 64) [0] := by
  have hstream : (sha256Stream (zeros 64) (zeros 64) [[0]]).getD 0 0 = 252 := by decide +kernel
  have honce : (secSha256 (zeros 64) [0]).getD 0 0 = 110 := by decide +kernel
  intro h
  rw [h, honce] at hstream
  exact absurd hstream (by decide)

/-! ## SHA-512 -/

theorem sha512Stream_eq (buffer stack : Vector UInt8 128) (chunks : List (List UInt8)) : sha512Stream buffer chunks =
      (sha512Tail (taken sha512 sha512State buffer chunks.flatten).buffer (chunks.flatten.length % 128)
        (UInt64.ofNat chunks.flatten.length * 8)).map
        (sha512.finish (taken sha512 sha512State stack chunks.flatten).chain.state) := by
  have htaken : chunks.foldl secSha512Update (secSha512Init buffer) =
      taken sha512 sha512State buffer chunks.flatten := absorb_flatten chunks
  unfold sha512Stream secSha512Final
  rw [htaken, totalLen_taken (by decide), fill_taken (by decide),
    state_taken (by decide) sha512State buffer stack]

theorem sha512Tail_none {bufLen : Nat} (h : 112 ≤ bufLen) (buffer : Vector UInt8 128) (bits : UInt64) :
    sha512Tail buffer bufLen bits = none := by
  unfold sha512Tail
  dsimp only
  rw [if_neg (show ¬ bufLen < 112 by omega), if_pos (by omega)]

theorem sha512Tail_two {bufLen : Nat} (h : bufLen ≤ 96) (buffer : Vector UInt8 128) (bits : UInt64) :
    ∃ b₁ b₂, sha512Tail buffer bufLen bits = some [b₁, b₂] := by
  unfold sha512Tail
  dsimp only
  rw [if_pos (show bufLen < 112 by omega), if_neg (by omega), if_pos (by omega)]
  exact ⟨_, _, rfl⟩

/-- The block for the end, where there is one. -/
def sha512Last (buffer : Vector UInt8 128) (bufLen : Nat) (bits : UInt64) : Vector UInt8 128 :=
  putLength (fillWith (buffer.setIfInBounds bufLen 0x80) (bufLen + 1) 112 0) 112 bits

theorem sha512Tail_one {bufLen : Nat} (h : 97 ≤ bufLen) (h' : bufLen < 112) (buffer : Vector UInt8 128)
    (bits : UInt64) : sha512Tail buffer bufLen bits = some [sha512Last buffer bufLen bits] := by
  have hpad : bufLen + (112 - bufLen) = 112 := by omega
  unfold sha512Tail sha512Last
  dsimp only
  rw [if_pos h', hpad, if_neg (by omega), if_neg (by omega)]

theorem paddedTail_one {bufLen : Nat} (h : bufLen < 112) (buffer : Vector UInt8 128) (bits : UInt64) :
    paddedTail 112 buffer bufLen bits = [sha512Last buffer bufLen bits] := by
  unfold paddedTail sha512Last
  dsimp only
  rw [if_neg (by omega)]

theorem sha512Last_eq_iff {bufLen : Nat} (h : bufLen < 112) {b b' : Vector UInt8 128} (bits : UInt64)
    (hsame : ∀ i (hi : i < 128), i < bufLen → b[i] = b'[i]) : sha512Last b bufLen bits = sha512Last b' bufLen bits ↔
      ∀ i (hi : i < 128), 120 ≤ i → b[i] = b'[i] := by
  have hget : ∀ (v : Vector UInt8 128) i (hi : i < 128), 120 ≤ i → (sha512Last v bufLen bits)[i] = v[i] := by
    intro v i hi hle
    unfold sha512Last
    rw [getElem_putLength _ _ _ hi, if_neg (by omega), getElem_fillWith _ _ _ _ hi, if_neg (by omega),
      Vector.getElem_setIfInBounds, if_neg (by omega)]
  constructor
  · intro heq i hi hle
    rw [← hget b i hi hle, ← hget b' i hi hle, heq]
  · intro hall
    refine Vector.ext fun i hi => ?_
    rcases Nat.lt_or_ge i 120 with hlt | hge
    · unfold sha512Last
      exact getElem_padded_congr hsame bits hi (by omega)
    -- behind the length the blocks show the buffers
    · rw [hget b i hi hge, hget b' i hi hge]
      exact hall i hi hge

theorem stale_agree_iff (buffer stack : Vector UInt8 128) (data : List UInt8) (h : data.length % 128 < 120) :
    (∀ i (hi : i < 128), 120 ≤ i → (taken sha512 sha512State buffer data).buffer[i] =
        (taken sha512 sha512State stack data).buffer[i]) ↔
      128 ≤ data.length ∨ ∀ i (hi : i < 128), 120 ≤ i → buffer[i] = stack[i] := by
  have hagree := buffer_taken (F := sha512) (by decide) sha512State buffer stack data
  rcases Nat.lt_or_ge data.length 128 with hlt | hge
  · have hkeep : ∀ (v : Vector UInt8 128) i (hi : i < 128), 120 ≤ i →
        (taken sha512 sha512State v data).buffer[i] = v[i] := fun v i hi hle =>
      absorb_untouched (s := start sha512State v) (by decide) rfl data i hi (by omega)
    rw [or_iff_right (by omega)]
    refine forall₂_congr fun i hi => forall_congr' fun hle => ?_
    rw [hkeep buffer i hi hle, hkeep stack i hi hle]
  -- a block has gone through the whole buffer
  · exact iff_of_true (fun i hi _ => hagree i hi (by omega)) (Or.inl hge)

/-- **The stream is right** where 97 to 111 bytes are left for the last block, once the eight bytes behind
the length are the same in both buffers; elsewhere only for messages whose last blocks collide, and never
from 112 bytes on, where it writes past its buffer. -/
theorem sha512Stream_eq_iff (buffer stack : Vector UInt8 128) (chunks : List (List UInt8)) :
    sha512Stream buffer chunks = some (secSha512 stack chunks.flatten) ↔
      (97 ≤ chunks.flatten.length % 128 ∧ chunks.flatten.length % 128 < 112 ∧
        (128 ≤ chunks.flatten.length ∨ ∀ i (hi : i < 128), 120 ≤ i → buffer[i] = stack[i])) ∨
      ∃ tail, sha512Tail (taken sha512 sha512State buffer chunks.flatten).buffer
          (chunks.flatten.length % 128) (UInt64.ofNat chunks.flatten.length * 8) = some tail ∧
        Collision sha512 (taken sha512 sha512State stack chunks.flatten).chain.state tail
          (paddedTail 112 (taken sha512 sha512State stack chunks.flatten).buffer
            (chunks.flatten.length % 128) (UInt64.ofNat chunks.flatten.length * 8)) := by
  rw [sha512Stream_eq buffer stack, secSha512, oneShot_eq (by decide)]
  generalize chunks.flatten = data
  have hsame : ∀ i (hi : i < 128), i < data.length →
      (taken sha512 sha512State buffer data).buffer[i] = (taken sha512 sha512State stack data).buffer[i] :=
    buffer_taken (by decide) sha512State buffer stack data
  rcases Nat.lt_or_ge (data.length % 128) 112 with hlt | hge
  · have hpadded := paddedTail_one hlt (taken sha512 sha512State stack data).buffer
      (UInt64.ofNat data.length * 8)
    rcases Nat.lt_or_ge (data.length % 128) 97 with hsmall | hbig
    · -- two blocks against one
      obtain ⟨b₁, b₂, htail⟩ := sha512Tail_two (show data.length % 128 ≤ 96 by omega)
        (taken sha512 sha512State buffer data).buffer (UInt64.ofNat data.length * 8)
      rw [htail, hpadded, Option.map_some, Option.some_inj, finish_eq_iff (by decide)]
      simp only [Option.some_inj, exists_eq_left']
      refine or_congr_left (iff_of_false (fun h => ?_) fun h => by omega)
      cases (List.cons.inj h).2
    · rw [sha512Tail_one hbig hlt, hpadded, Option.map_some, Option.some_inj, finish_eq_iff (by decide)]
      simp only [Option.some_inj, exists_eq_left', List.cons.injEq, and_true]
      -- one block each, alike up to the end of the length
      refine or_congr_left ?_
      rw [sha512Last_eq_iff hlt _ fun i hi hlow => hsame i hi (by omega),
        stale_agree_iff buffer stack data (by omega)]
      exact ⟨fun h => ⟨hbig, hlt, h⟩, fun h => h.2.2⟩
  · rw [sha512Tail_none hge]
    refine iff_of_false (fun h => by cases h) ?_
    rintro (h | ⟨tail, htail, -⟩)
    · omega
    · cases htail

/-- A message of 112 bytes. -/
theorem sha512_overrun : sha512Stream (zeros 128) [List.replicate 112 0] = none := by
  rw [sha512Stream_eq _ (zeros 128), sha512Tail_none (by simp)]
  rfl

end Chicago95.Stage2
