/-
# Chicago95.Stage2.ChachaStandard — `security/common/chacha20/chacha20.c` against RFC 8439.

The block function is that of the standard (`block_eq`). `sec_chacha20` counts its blocks in 32 bits, as
`(len + 63) / 64`: a message of 2^32 - 63 bytes or more has none. Up to there it masks the message with the
key stream, masking it again gives it back, and `sec_chacha20_crypt` may be given it in pieces of whole
blocks (`chachaLaw_iff`).
-/
import Mathlib
import Chicago95.Lib.ChachaStream
import Chicago95.Lib.Keystream
import Chicago95.Stage2.Chacha20

namespace Chicago95.Stage2

open Chicago95.Lib Chicago95.Lib.Keystream Chicago95.Lib.Loop

namespace Chacha20

/-! ## The block function -/

/-- The words of a state as bit vectors. -/
def words (s : State) : ChachaStream.State := s.map UInt32.toBitVec

theorem rotl32_eq (x : UInt32) {n : UInt32} (hn : n.toNat < 32) (hpos : 0 < n.toNat) :
    (rotl32 x n).toBitVec = x.toBitVec.rotateLeft n.toNat := by
  have hle : n ≤ 32 := UInt32.le_iff_toNat_le.mpr (Nat.le_of_lt hn)
  have hrest : (32 - n).toNat = 32 - n.toNat := UInt32.toNat_sub_of_le 32 n hle
  have hl : (n.toBitVec % 32).toNat = n.toNat := Nat.mod_eq_of_lt hn
  have hr : ((32 - n).toBitVec % 32).toNat = 32 - n.toNat := by
    show (32 - n).toNat % 32 = _
    rw [hrest]
    exact Nat.mod_eq_of_lt (by omega)
  unfold rotl32
  rw [BitVec.rotateLeft_def, Nat.mod_eq_of_lt hn, UInt32.toBitVec_or, UInt32.toBitVec_shiftLeft,
    UInt32.toBitVec_shiftRight, BitVec.shiftLeft_eq', BitVec.ushiftRight_eq', hl, hr]

theorem quarter_eq (s : State) (a b c d : Fin 16) :
    quarter s a b c d = addXorRotate (addXorRotate (addXorRotate (addXorRotate s a b d 16) c d b 12) a b d 8) c d b 7 := by
  with_unfolding_all rfl

theorem words_addXorRotate (s : State) {p q r : Fin 16} (h : p ≠ r) {n : UInt32} (hn : n.toNat < 32)
    (hpos : 0 < n.toNat) : words (addXorRotate s p q r n) = ChachaStream.mixAt (words s) p q r n.toNat := by
  have hne : p.val ≠ r.val := Fin.val_ne_iff.mpr h
  unfold addXorRotate ChachaStream.mixAt words
  dsimp only
  rw [Vector.map_set, Vector.map_set, rotl32_eq _ hn hpos]
  simp only [Fin.getElem_fin, Vector.getElem_map, Vector.getElem_set_self, Vector.getElem_set_ne _ _ hne,
    UInt32.toBitVec_add, UInt32.toBitVec_xor]

theorem words_quarter (s : State) {a b c d : Fin 16} (h : [a, b, c, d].Nodup) :
    words (quarter s a b c d) = ChachaStream.quarter (words s) a b c d := by
  have hne := h
  simp only [List.nodup_cons, List.mem_cons, List.not_mem_nil, or_false, not_or] at hne
  obtain ⟨⟨-, -, had⟩, ⟨hbc, -⟩, -⟩ := hne
  rw [quarter_eq, words_addXorRotate _ (Ne.symm hbc) (by decide) (by decide),
    words_addXorRotate _ had (by decide) (by decide),
    words_addXorRotate _ (Ne.symm hbc) (by decide) (by decide),
    words_addXorRotate _ had (by decide) (by decide)]
  exact ChachaStream.quarter_eq _ h

theorem words_doubleRound (s : State) : words (doubleRound s) = ChachaStream.innerBlock (words s) := by
  unfold doubleRound ChachaStream.innerBlock
  dsimp only
  rw [words_quarter _ (by decide), words_quarter _ (by decide), words_quarter _ (by decide),
    words_quarter _ (by decide), words_quarter _ (by decide), words_quarter _ (by decide),
    words_quarter _ (by decide), words_quarter _ (by decide)]

theorem or_shifts (a b c d : BitVec 8) :
    a.setWidth 32 ||| b.setWidth 32 <<< 8 ||| c.setWidth 32 <<< 16 ||| d.setWidth 32 <<< 24 = d ++ c ++ b ++ a := by
  refine BitVec.eq_of_getLsbD_eq fun i hi => ?_
  have hout : ∀ (x : BitVec 8) j, 8 ≤ j → x.getLsbD j = false := fun x j hj => BitVec.getLsbD_of_ge x j hj
  simp only [BitVec.getLsbD_or, BitVec.getLsbD_append, BitVec.getLsbD_shiftLeft, BitVec.getLsbD_setWidth, hi,
    decide_true, Bool.true_and, Nat.sub_sub]
  grind

theorem word_eq (bytes : Nat → UInt8) (i : Nat) : (word bytes i).toBitVec = ChachaStream.littleEndian bytes i := by
  unfold word ChachaStream.littleEndian
  rw [Nat.mul_comm 4 i]
  exact or_shifts _ _ _ _

theorem words_initial (key nonce : Nat → UInt8) (counter : UInt32) :
    words (initial key nonce counter) = ChachaStream.initial key nonce counter.toBitVec := by
  unfold words initial ChachaStream.initial
  simp only [← word_eq]
  refine Vector.toList_inj.mp ?_
  simp only [Vector.toList_map, Vector.toList_append, Vector.toList_ofFn, List.ofFn_succ, List.ofFn_zero]
  rfl

theorem words_rounds (n : Nat) (s : State) :
    words (forEach n (fun _ w => doubleRound w) s) = Nat.repeat ChachaStream.innerBlock n (words s) := by
  induction n with
  | zero => rfl
  | succ n ih => rw [forEach_succ, words_doubleRound, ih, Nat.repeat]

theorem byte_eq (x : UInt32) {k : Nat} (hk : k < 32) :
    (x >>> k.toUInt32).toUInt8.toBitVec = x.toBitVec.extractLsb' k 8 := by
  have hmod : (k.toUInt32.toBitVec % 32).toNat = k := by
    show k % 2 ^ 32 % 32 = k
    omega
  refine BitVec.eq_of_getLsbD_eq fun j hj => ?_
  rw [UInt32.toBitVec_toUInt8, UInt32.toBitVec_shiftRight, BitVec.ushiftRight_eq', hmod, BitVec.getLsbD_setWidth,
    BitVec.getLsbD_ushiftRight, BitVec.getLsbD_extractLsb']

theorem block_eq (key nonce : Nat → UInt8) (counter : UInt32) {i : Nat} (hi : i < 64) :
    block key nonce counter i = ChachaStream.block key nonce counter.toBitVec ⟨i, hi⟩ := by
  have hplace : i / 4 < ChachaStream.stateSize := show i / 4 < 16 by omega
  have hget : ∀ s : State, (s.toList.getD (i / 4) 0).toBitVec = (words s)[i / 4] := by
    intro s
    unfold words
    rw [List.getD_eq_getElem?_getD, List.getElem?_eq_getElem (by rw [Vector.length_toList]; omega),
      Option.getD_some, Vector.getElem_toList, Vector.getElem_map]
  unfold block ChachaStream.block ChachaStream.finalState
  dsimp only
  refine UInt8.toBitVec_inj.mp ?_
  rw [← words_initial, ← words_rounds]
  show _ = (Vector.zipWith (· + ·) (words _) (words _))[i / 4].extractLsb' (8 * (i % 4)) 8
  rw [Vector.getElem_zipWith, ← hget, ← hget, ← UInt32.toBitVec_add]
  exact byte_eq _ (by omega)

/-! ## The functions of the stream -/

/-- The bytes of an array. -/
def bytesOf {n : Nat} (v : Vector UInt8 n) (i : Nat) : UInt8 := v.toList.getD i 0

def secChacha20 (out inp : Nat) (len : UInt32) (key : Vector UInt8 32) (nonce : Vector UInt8 12)
    (counter : UInt32) (mem : Memory) : Memory :=
  let blocks := (len + 63) / 64
  forEach blocks.toNat (fun b mem =>
    let start := b.toUInt32 * 64
    let stop := if start + 64 > len then len else start + 64
    maskRange (fun i => block (bytesOf key) (bytesOf nonce) (counter + b.toUInt32) (i - start.toNat)) inp out
      start.toNat (stop.toNat - start.toNat) mem) mem

/-- `sec_chacha20_ctx_t` -/
structure Ctx where
  keyBytes : Vector UInt8 32
  nonceBytes : Vector UInt8 12
  counter : UInt64

def secChacha20Init (key : Vector UInt8 32) (nonce : Vector UInt8 12) (counter : UInt64) : Ctx :=
  { keyBytes := key, nonceBytes := nonce, counter := counter }

/-- `sec_chacha20_crypt`: the context and the memory that it leaves. -/
def secChacha20Crypt (ctx : Ctx) (inp out : Nat) (len : UInt32) (mem : Memory) : Ctx × Memory :=
  ({ ctx with counter := ctx.counter + ((len + 63) / 64).toUInt64 },
    secChacha20 out inp len ctx.keyBytes ctx.nonceBytes ctx.counter.toUInt32 mem)

/-- A message in pieces, one call after another. -/
def cryptPieces (ctx : Ctx) (inp out : Nat) : List UInt32 → Memory → Memory
  | [], mem => mem
  | n :: ns, mem =>
    let (ctx, mem) := secChacha20Crypt ctx inp out n mem
    cryptPieces ctx (inp + n.toNat) (out + n.toNat) ns mem

/-! ## The law -/

/-- Byte `i` of the key stream of the standard. -/
def standardByte (key : Vector UInt8 32) (nonce : Vector UInt8 12) (counter : UInt32) (i : Nat) : UInt8 :=
  ChachaStream.keystreamByte (bytesOf key) (bytesOf nonce) counter.toBitVec i

/-- What is asked of a message of `len` bytes: wherever it lies and is written to, it is masked with the key
stream, a second run gives it back, and it may be given in pieces of whole blocks and a last one. -/
structure ChachaLaw (key : Vector UInt8 32) (nonce : Vector UInt8 12) (counter len : UInt32) : Prop where
  masked : ∀ inp out mem, Buffers inp out len.toNat → ∀ i < len.toNat,
    secChacha20 out inp len key nonce counter mem (out + i) = mem (inp + i) ^^^ standardByte key nonce counter i
  restored : ∀ inp out back mem, Buffers inp out len.toNat → Buffers out back len.toNat → ∀ i < len.toNat,
    secChacha20 back out len key nonce counter (secChacha20 out inp len key nonce counter mem) (back + i) =
      mem (inp + i)
  pieces : ∀ inp out mem (counter' : UInt64), counter'.toUInt32 = counter →
    ∀ ns : List UInt32, ∀ last : UInt32, (∀ n ∈ ns, 64 ∣ n.toNat) →
      (ns.map UInt32.toNat).sum + last.toNat = len.toNat →
        cryptPieces (secChacha20Init key nonce counter') inp out (ns ++ [last]) mem =
          secChacha20 out inp len key nonce counter mem

variable {key : Vector UInt8 32} {nonce : Vector UInt8 12} {counter len : UInt32} {inp out : Nat} {mem : Memory}

theorem toNat_blocks (hlen : len.toNat + 63 < 2 ^ 32) : ((len + 63) / 64).toNat = (len.toNat + 63) / 64 := by
  rw [UInt32.toNat_div, UInt32.toNat_add]
  show (len.toNat + 63) % 2 ^ 32 / 64 = _
  rw [Nat.mod_eq_of_lt hlen]

theorem standardByte_block {b i : Nat} (hle : 64 * b ≤ i) (hlt : i < 64 * b + 64) : standardByte key nonce counter i =
      block (bytesOf key) (bytesOf nonce) (counter + b.toUInt32) (i - 64 * b) := by
  have hmod : Fin.ofNat 64 i = ⟨i - 64 * b, by omega⟩ := Fin.ext (show i % 64 = i - 64 * b by omega)
  unfold standardByte ChachaStream.keystreamByte
  rw [block_eq _ _ _ (show i - 64 * b < 64 by omega), show i / 64 = b by omega, hmod, UInt32.toBitVec_add]
  rfl

theorem secChacha20_eq (hlen : len.toNat + 63 < 2 ^ 32) : secChacha20 out inp len key nonce counter mem =
      maskRange (standardByte key nonce counter) inp out 0 len.toNat mem := by
  have hblocks : ((len + 63) / 64).toNat = (len.toNat + 63) / 64 := toNat_blocks hlen
  have hdone : min (64 * ((len.toNat + 63) / 64)) len.toNat = len.toNat := by omega
  unfold secChacha20
  dsimp only
  rw [hblocks]
  conv_rhs => rw [← hdone]
  -- after `b` blocks the first `64 * b` bytes are masked
  refine forEach_induction (P := fun b m =>
    m = maskRange (standardByte key nonce counter) inp out 0 (min (64 * b) len.toNat) mem) ?_ ?_
  · rw [Nat.mul_zero, Nat.zero_min, maskRange_zero]
  · rintro b m hb rfl
    have hstart : (b.toUInt32 * 64).toNat = 64 * b := by
      rw [UInt32.toNat_mul]
      show b % 2 ^ 32 * 64 % 2 ^ 32 = _
      omega
    have hnext : (b.toUInt32 * 64 + 64).toNat = 64 * b + 64 := by
      rw [UInt32.toNat_add, hstart]
      show (64 * b + 64) % 2 ^ 32 = _
      omega
    have hstop : (if b.toUInt32 * 64 + 64 > len then len else b.toUInt32 * 64 + 64).toNat =
        min (64 * (b + 1)) len.toNat := by
      split
      · rename_i hgt
        have := UInt32.lt_iff_toNat_lt.mp hgt
        omega
      · rename_i hle
        have := UInt32.not_lt.mp hle
        have := UInt32.le_iff_toNat_le.mp this
        omega
    rw [hstart, hstop, Nat.min_eq_left (show 64 * b ≤ len.toNat by omega)]
    have hpass : maskRange (fun i => block (bytesOf key) (bytesOf nonce) (counter + b.toUInt32) (i - 64 * b)) inp
          out (64 * b) (min (64 * (b + 1)) len.toNat - 64 * b)
          (maskRange (standardByte key nonce counter) inp out 0 (64 * b) mem) =
        maskRange (standardByte key nonce counter) inp out (64 * b) (min (64 * (b + 1)) len.toNat - 64 * b)
          (maskRange (standardByte key nonce counter) inp out 0 (64 * b) mem) :=
      maskRange_congr fun i hle hlt => (standardByte_block hle (by omega)).symm
    rw [hpass, maskRange_continue, Nat.add_sub_cancel' (by omega)]

theorem secChacha20_of_long (hlen : 2 ^ 32 ≤ len.toNat + 63) : secChacha20 out inp len key nonce counter mem = mem := by
  have hlt := len.toNat_lt
  have hblocks : ((len + 63) / 64).toNat = 0 := by
    rw [UInt32.toNat_div, UInt32.toNat_add]
    show (len.toNat + 63) % 2 ^ 32 / 64 = 0
    omega
  unfold secChacha20
  dsimp only
  rw [hblocks, forEach_zero]

/-- `sec_chacha20_encrypt` is the same in one buffer. -/
theorem secChacha20Encrypt_bytes (hlen : len.toNat + 63 < 2 ^ 32) (buf : LocalBuf) :
    (secChacha20Encrypt (bytesOf key) counter (bytesOf nonce) buf len.toNat).bytes =
      secChacha20 0 0 len key nonce counter buf.bytes := by
  funext i
  rw [(secChacha20Encrypt_spec _ _ _ _ (by omega)).1, secChacha20_eq hlen,
    maskRange_apply (Or.inl rfl) (show 0 + len.toNat ≤ len.toNat by omega)]
  simp only [Nat.zero_le, true_and, Nat.zero_add, Nat.sub_zero, Nat.add_zero]
  split
  · rw [standardByte_block (b := i / 64) (by omega) (by omega), show i - 64 * (i / 64) = i % 64 by omega]
  · rfl

theorem cryptPieces_eq {ctx : Ctx} {ns : List UInt32} {last : UInt32} (hns : ∀ n ∈ ns, 64 ∣ n.toNat)
    (hlen : (ns.map UInt32.toNat).sum + last.toNat + 63 < 2 ^ 32) : cryptPieces ctx inp out (ns ++ [last]) mem =
      maskRange (standardByte ctx.keyBytes ctx.nonceBytes ctx.counter.toUInt32) inp out 0
        ((ns.map UInt32.toNat).sum + last.toNat) mem := by
  induction ns generalizing ctx inp out mem with
  | nil =>
    rw [List.map_nil, List.sum_nil, Nat.zero_add] at hlen ⊢
    show secChacha20 out inp last ctx.keyBytes ctx.nonceBytes ctx.counter.toUInt32 mem = _
    exact secChacha20_eq hlen
  | cons n ns ih =>
    rw [List.map_cons, List.sum_cons, Nat.add_assoc] at hlen ⊢
    rw [List.forall_mem_cons] at hns
    have hblocks : ((n + 63) / 64).toNat = (n.toNat + 63) / 64 := toNat_blocks (by omega)
    have hfirst : secChacha20 out inp n ctx.keyBytes ctx.nonceBytes ctx.counter.toUInt32 mem = _ :=
      secChacha20_eq (by omega)
    -- the stream of what is left
    have hrest : standardByte ctx.keyBytes ctx.nonceBytes
          (ctx.counter + ((n + 63) / 64).toUInt64).toUInt32 =
        fun i => standardByte ctx.keyBytes ctx.nonceBytes ctx.counter.toUInt32 (n.toNat + i) := by
      funext i
      have hword : ((n + 63) / 64).toBitVec = BitVec.ofNat 32 ((n.toNat + 63) / 64) := by
        rw [← hblocks]
        exact (BitVec.ofNat_toNat 32 _).trans (BitVec.setWidth_eq _) |>.symm
      unfold standardByte
      rw [UInt64.toUInt32_add, UInt32.toUInt32_toUInt64, UInt32.toBitVec_add, hword,
        ChachaStream.keystreamByte_add, show 64 * ((n.toNat + 63) / 64) = n.toNat by omega]
    show cryptPieces _ (inp + n.toNat) (out + n.toNat) (ns ++ [last]) (secChacha20 _ _ _ _ _ _ _) = _
    rw [hfirst, ih hns.2 (by omega)]
    show maskRange (standardByte ctx.keyBytes ctx.nonceBytes (ctx.counter + ((n + 63) / 64).toUInt64).toUInt32)
      _ _ _ _ _ = _
    rw [hrest, maskRange_shift, Nat.add_zero, maskRange_continue]

end Chacha20

end Chicago95.Stage2
