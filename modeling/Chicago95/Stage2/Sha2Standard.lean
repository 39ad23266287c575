/-
# Chicago95.Stage2.Sha2Standard — `sec_sha256` and `sec_sha512` against FIPS 180-4.

A program with the table and the functions of the standard (`Follows`) compresses as the standard does
(`transform_eq`), so that it is the hash function where it pads as the standard does (`oneShot_eq_hash`).
SHA-256 does both (`secSha256_eq_hash`).
-/
import Chicago95.Lib.SecureHash
import Chicago95.Stage2.HashStream

namespace Chicago95.Stage2

open Chicago95.Lib Chicago95.Lib.Absorb Chicago95.Lib.Digits Chicago95.Lib.Loop Sha2

namespace Sha2

variable {w size : Nat} {F : Sha2 w size} {A : SecureHash.Algorithm w}

/-! ## The compression function -/

/-- The rounds, the table and the functions on words are those of the standard. -/
structure Follows (F : Sha2 w size) (A : SecureHash.Algorithm w) : Prop where
  rounds : F.rounds = A.rounds
  table : ∀ t < F.rounds, F.k.getD t 0 = SecureHash.roundConstant w t
  ep0 : F.ep0 = A.bigSigma0
  ep1 : F.ep1 = A.bigSigma1
  sig0 : F.sig0 = A.smallSigma0
  sig1 : F.sig1 = A.smallSigma1

theorem shiftIn_eq (n : Nat) (b : UInt8) :
    BitVec.ofNat w n <<< 8 ||| b.toBitVec.setWidth w = BitVec.ofNat w (256 * n + b.toNat) := by
  refine BitVec.eq_of_getLsbD_eq fun i hi => ?_
  have hadd : 256 * n + b.toNat = 2 ^ 8 * n + b.toNat := rfl
  rw [BitVec.getLsbD_or, BitVec.getLsbD_shiftLeft, BitVec.getLsbD_setWidth, BitVec.getLsbD_ofNat,
    BitVec.getLsbD_ofNat, hadd, Nat.testBit_two_pow_mul_add n b.toNat_lt]
  have hbyte : b.toBitVec.getLsbD i = b.toNat.testBit i := rfl
  rw [hbyte]
  split
  · rename_i h8
    simp [hi, h8]
  · rename_i h8
    rw [Nat.testBit_lt_two_pow (Nat.lt_of_lt_of_le b.toNat_lt (Nat.pow_le_pow_right (by omega) (by omega)))]
    simp [hi, h8]
    omega

theorem foldl_shiftIn (bs : List UInt8) (n : Nat) :
    bs.foldl (fun (x : BitVec w) b => x <<< 8 ||| b.toBitVec.setWidth w) (BitVec.ofNat w n) =
      BitVec.ofNat w (bs.foldl (fun x b => 256 * x + b.toNat) n) := by
  induction bs generalizing n with
  | nil => rfl
  | cons b bs ih => rw [List.foldl_cons, List.foldl_cons, shiftIn_eq, ih]

theorem blockWord_eq (block : Vector UInt8 size) (i : Nat) :
    blockWord w block i = SecureHash.messageWord w block i := by
  unfold blockWord SecureHash.messageWord ofBigEndian
  rw [← foldl_shiftIn, List.foldl_map]
  rfl

/-- A pass of the loop that extends the schedule. -/
def schedulePass (F : Sha2 w size) (k : Nat) (ws : List (BitVec w)) : List (BitVec w) :=
  ws ++ [F.sig1 (ws.getD (k + 14) 0) + ws.getD (k + 9) 0 + F.sig0 (ws.getD (k + 1) 0) + ws.getD k 0]

theorem getD_concat (ws : List (BitVec w)) (x : BitVec w) (t : Nat) :
    (ws ++ [x]).getD t 0 = if t < ws.length then ws.getD t 0 else if t = ws.length then x else 0 := by
  rw [List.getD_eq_getElem?_getD, List.getElem?_append, List.getElem?_singleton]
  split
  · rw [List.getD_eq_getElem?_getD]
  · rename_i hge
    split
    · rw [if_pos (by omega)]
      rfl
    · rw [if_neg (by omega)]
      rfl

theorem getD_schedulePasses (h : Follows F A) (block : Vector UInt8 size) (n : Nat) :
    (forEach n F.schedulePass ((List.range 16).map (blockWord w block))).length = n + 16 ∧
      ∀ t < n + 16, (forEach n F.schedulePass ((List.range 16).map (blockWord w block))).getD t 0 =
        A.schedule (SecureHash.messageWord w block) t := by
  induction n with
  | zero =>
    refine ⟨by rw [forEach_zero, List.length_map, List.length_range], fun t ht => ?_⟩
    have ht : t < 16 := by omega
    rw [forEach_zero, SecureHash.Algorithm.schedule_lt _ ht, ← blockWord_eq, List.getD_eq_getElem?_getD,
      List.getElem?_map, List.getElem?_range ht]
    rfl
  | succ n ih =>
    obtain ⟨hlen, hget⟩ := ih
    rw [forEach_succ]
    generalize forEach n F.schedulePass _ = ws at hlen hget ⊢
    unfold schedulePass
    refine ⟨by rw [List.length_append, hlen, List.length_singleton, Nat.add_right_comm], fun t ht => ?_⟩
    rw [getD_concat, hlen]
    split
    · rename_i hlt
      exact hget t hlt
    · have heq : t = n + 16 := by omega
      rw [if_pos heq, heq, SecureHash.Algorithm.schedule_add, hget _ (by omega), hget _ (by omega),
        hget _ (by omega), hget _ (by omega), h.sig0, h.sig1]

theorem getD_schedule (h : Follows F A) (block : Vector UInt8 size) {t : Nat} (ht : t < F.rounds) :
    (F.schedule block).getD t 0 = A.schedule (SecureHash.messageWord w block) t :=
  (getD_schedulePasses h block (F.rounds - 16)).2 t (by omega)

theorem round_eq (h : Follows F A) {ws : List (BitVec w)} {W : Nat → BitVec w} {t : Nat} (ht : t < F.rounds)
    (hword : ws.getD t 0 = W t) (v : State w) : F.round ws t v = A.round W t v := by
  unfold round SecureHash.Algorithm.round
  simp only [hword, h.table t ht, h.ep0, h.ep1]
  rfl

theorem transform_eq (h : Follows F A) (state : State w) (block : Vector UInt8 size) :
    F.transform state block = A.compress state (SecureHash.messageWord w block) := by
  have hrounds : ∀ n ≤ F.rounds, forEach n (F.round (F.schedule block)) state =
      forEach n (A.round (A.schedule (SecureHash.messageWord w block))) state := by
    intro n hn
    induction n with
    | zero => rfl
    | succ n ih =>
      rw [forEach_succ, forEach_succ, ih (by omega),
        round_eq h (by omega) (getD_schedule h block (by omega))]
  have hall := hrounds F.rounds (Nat.le_refl _)
  unfold transform SecureHash.Algorithm.compress
  dsimp only
  rw [hall, h.rounds]
  refine Vector.ext fun i hi => ?_
  rw [Vector.getElem_zipWith, Vector.getElem_zipWith, BitVec.add_comm]
  rfl

/-! ## The digest -/

theorem map_range_mul {β : Type*} (f : Nat → β) (m n : Nat) :
    (List.range (n * m)).map f = (List.range n).flatMap fun i => (List.range m).map fun j => f (i * m + j) := by
  induction n with
  | zero => rw [Nat.zero_mul]; rfl
  | succ n ih =>
    rw [Nat.succ_mul, List.range_add, List.map_append, ih, List.map_map, List.range_succ,
      List.flatMap_append, List.flatMap_singleton]
    rfl

theorem digest_eq (hw : w % 8 = 0) (state : State w) : digest state = SecureHash.bytes state := by
  have hwords : 8 * (w / 8) = w := by omega
  have hlist : state.toList = (List.range 8).map fun i => state.toList.getD i 0 := by
    refine List.ext_getElem (by simp) fun i hi hi' => ?_
    rw [List.getElem_map, List.getElem_range, List.getD_eq_getElem?_getD, List.getElem?_eq_getElem hi]
    rfl
  have hrange : List.range w = List.range (8 * (w / 8)) := by rw [hwords]
  unfold digest SecureHash.bytes
  conv_rhs => rw [hlist, List.flatMap_map]
  rw [hrange, map_range_mul]
  refine List.flatMap_congr fun i _ => ?_
  unfold bigEndian
  refine List.map_congr_left fun j hj => ?_
  have hj : j < w / 8 := List.mem_range.mp hj
  have hdiv : (i * (w / 8) + j) / (w / 8) = i := by
    rw [Nat.mul_comm, Nat.mul_add_div (by omega), Nat.div_eq_of_lt hj, Nat.add_zero]
  have hmod : (i * (w / 8) + j) % (w / 8) = j := by
    rw [Nat.mul_comm, Nat.mul_add_mod, Nat.mod_eq_of_lt hj]
  rw [hdiv, hmod, show w - 8 - 8 * j = 8 * (w / 8 - 1 - j) by omega, Nat.pow_mul]

/-! ## The message -/

theorem state_taken_eq (hsize : 0 < size) (init : State w) (buffer : Vector UInt8 size) (data : List UInt8) :
    (taken F init buffer data).chain.state = (blocks size data).foldl F.transform init := by
  have hmap : (taken F init buffer data).map Chain.state =
      absorb F.transform ((start init buffer).map Chain.state) data :=
    absorb_map (f := Chain.state) (fun _ _ => rfl) data
  have hchain := congrArg Absorber.chain hmap
  exact hchain.trans (chain_absorb hsize rfl data)

section Standard

variable {F : Sha2 w (SecureHash.blockSize w)}

theorem hash_eq_finish (h : Follows F A) (hw : w % 8 = 0) (hpos : 0 < w) (message : List UInt8) :
    SecureHash.hash A message =
      F.finish ((blocks (SecureHash.blockSize w) message).foldl F.transform (SecureHash.initialHash w))
        (SecureHash.lastBlocks w message) := by
  have hstep : F.transform = fun state block => A.compress state (SecureHash.messageWord w block) :=
    funext fun state => funext fun block => transform_eq h state block
  rw [SecureHash.hash_eq_foldl A hpos, ← digest_eq hw, hstep, List.foldl_append]
  unfold finish
  rw [hstep]

theorem oneShot_eq_hash (h : Follows F A) (hw : w % 8 = 0) (hpos : 0 < w) (lim : Nat)
    (stack : Vector UInt8 (SecureHash.blockSize w)) (data : List UInt8)
    (htail : paddedTail lim (taken F (SecureHash.initialHash w) stack data).buffer
      (data.length % SecureHash.blockSize w) (UInt64.ofNat data.length * 8) = SecureHash.lastBlocks w data) :
    F.oneShot (SecureHash.initialHash w) lim stack data = SecureHash.hash A data := by
  have hsize : 0 < SecureHash.blockSize w := Nat.mul_pos Nat.two_pos hpos
  rw [oneShot_eq hsize, htail, hash_eq_finish h hw hpos, state_taken_eq hsize]

end Standard

theorem lengthByte_eq (n : Nat) {k : Nat} (hk : k < 8) :
    UInt8.ofNat ((UInt64.ofNat n * 8).toNat / 2 ^ (8 * k)) = UInt8.ofNat (8 * n / 256 ^ k) := by
  have hbits : (UInt64.ofNat n * 8).toNat = 8 * n % 2 ^ 64 := by
    rw [UInt64.toNat_mul, UInt64.toNat_ofNat', show (8 : UInt64).toNat = 8 from rfl, Nat.mul_comm,
      Nat.mul_mod_mod]
  rw [hbits, show (256 : Nat) = 2 ^ 8 from rfl, ← Nat.pow_mul]
  refine UInt8.toNat_inj.mp (Nat.eq_of_testBit_eq fun t => ?_)
  rw [UInt8.toNat_ofNat', UInt8.toNat_ofNat', Nat.testBit_mod_two_pow, Nat.testBit_mod_two_pow,
    Nat.testBit_div_two_pow, Nat.testBit_div_two_pow, Nat.testBit_mod_two_pow]
  by_cases ht : t < 8
  · rw [decide_eq_true (show t + 8 * k < 64 by omega), Bool.true_and]
  · rw [decide_eq_false ht, Bool.false_and, Bool.false_and]

end Sha2

/-! ## SHA-256 -/

theorem sha256_follows : Follows sha256 SecureHash.sha256 where
  rounds := rfl
  table := by
    unfold SecureHash.roundConstant
    rw [SecureHash.primes_eq]
    decide +kernel
  ep0 := rfl
  ep1 := rfl
  sig0 := rfl
  sig1 := rfl

theorem sha256State_eq : sha256State = SecureHash.initialHash 32 := by
  unfold SecureHash.initialHash
  rw [SecureHash.primes_eq]
  decide +kernel

theorem zeroCount_32 (len : Nat) :
    SecureHash.zeroCount 32 len = if len % 64 < 56 then 55 - len % 64 else 119 - len % 64 := by
  have hmod := Nat.mod_lt len (show 0 < 64 by decide)
  unfold SecureHash.zeroCount SecureHash.blockSize
  split <;> omega

theorem lastBlocks_count (data : List UInt8) : (data.length % 64 + (SecureHash.padding 32 data.length).length) / 64 =
      if data.length % 64 < 56 then 1 else 2 := by
  have hmod := Nat.mod_lt data.length (show 0 < 64 by decide)
  rw [SecureHash.length_padding, zeroCount_32]
  split <;> omega

theorem getElem_lastBlock (data : List UInt8) (k j : Nat) (hj : j < 64) :
    (blockAt 64 (SecureHash.pad 32 data) (64 * (data.length / 64 + k)))[j] =
      if 64 * k + j < data.length % 64 then data.getD (64 * (data.length / 64) + (64 * k + j)) 0
      else if 64 * k + j = data.length % 64 then 0x80
      else if 64 * k + j < data.length % 64 + 1 + SecureHash.zeroCount 32 data.length then 0
      else (bigEndian 8 (8 * data.length)).getD
        (64 * k + j - (data.length % 64 + 1 + SecureHash.zeroCount 32 data.length)) 0 := by
  have hmod := Nat.mod_lt data.length (show 0 < 64 by decide)
  have hdiv := Nat.div_add_mod data.length 64
  rw [getElem_blockAt]
  show (SecureHash.pad 32 data).getD _ 0 = _
  rw [SecureHash.getD_pad]
  refine if_congr (by omega) ?_ (if_congr (by omega) rfl (if_congr (by omega) rfl ?_))
  · congr 1
    omega
  · congr 1
    omega

theorem getElem_putLength_eq (block : Vector UInt8 64) (n j : Nat) (hj : j < 64) (hge : 56 ≤ j) :
    (putLength block 56 (UInt64.ofNat n * 8))[j] = (bigEndian 8 (8 * n)).getD (j - 56) 0 := by
  have hlt : j - 56 < 8 := by omega
  unfold bigEndian
  rw [getElem_putLength _ _ _ hj, if_pos (by omega), List.getD_eq_getElem?_getD, List.getElem?_map,
    List.getElem?_range hlt, show 56 - (j - 56) * 8 = 8 * (8 - 1 - (j - 56)) by omega,
    lengthByte_eq n (by omega)]
  rfl

section Tail

variable {buffer : Vector UInt8 64} {data : List UInt8}

/-- What of the data is in the buffer at the end. -/
abbrev Left (buffer : Vector UInt8 64) (data : List UInt8) : Prop :=
  ∀ i (hi : i < 64), i < data.length % 64 → buffer[i] = data.getD (64 * (data.length / 64) + i) 0

theorem getElem_marked (h : Left buffer data) (j : Nat) (hj : j < 64) (hle : j ≤ data.length % 64) :
    (buffer.setIfInBounds (data.length % 64) 0x80)[j] =
      if j < data.length % 64 then data.getD (64 * (data.length / 64) + j) 0 else 0x80 := by
  rw [Vector.getElem_setIfInBounds]
  split
  · rw [if_neg (by omega)]
  · rw [if_pos (by omega), h j hj (by omega)]

theorem getElem_fillWith_eq (h : Left buffer data) {lim : Nat}
    (hzero : lim ≤ data.length % 64 + 1 + SecureHash.zeroCount 32 data.length) (j : Nat) (hj : j < 64) (hlt : j < lim) :
    (fillWith (buffer.setIfInBounds (data.length % 64) 0x80) (data.length % 64 + 1) lim 0)[j] =
      (blockAt 64 (SecureHash.pad 32 data) (64 * (data.length / 64 + 0)))[j] := by
  rw [getElem_lastBlock data 0 j hj, getElem_fillWith _ _ _ _ hj, Nat.mul_zero, Nat.zero_add]
  split
  · rw [if_neg (by omega), if_neg (by omega), if_pos (by omega)]
  · rw [getElem_marked h j hj (by omega)]
    split
    · rfl
    · rw [if_pos (by omega)]

theorem oneBlock_eq (h : Left buffer data) (hlt : data.length % 64 < 56) :
    putLength (fillWith (buffer.setIfInBounds (data.length % 64) 0x80) (data.length % 64 + 1) 56 0) 56
      (UInt64.ofNat data.length * 8) = blockAt 64 (SecureHash.pad 32 data) (64 * (data.length / 64 + 0)) := by
  have hzero := zeroCount_32 data.length
  rw [if_pos hlt] at hzero
  refine Vector.ext fun j hj => ?_
  rcases Nat.lt_or_ge j 56 with hj' | hj'
  · rw [getElem_putLength _ _ _ hj, if_neg (by omega), getElem_fillWith_eq h (by omega) j hj hj']
  · rw [getElem_putLength_eq _ _ _ hj hj', getElem_lastBlock data 0 j hj, if_neg (by omega),
      if_neg (by omega), if_neg (by omega)]
    congr 1
    omega

theorem twoBlocks_eq (h : Left buffer data) (hge : 56 ≤ data.length % 64) :
    fillWith (buffer.setIfInBounds (data.length % 64) 0x80) (data.length % 64 + 1) 64 0 =
        blockAt 64 (SecureHash.pad 32 data) (64 * (data.length / 64 + 0)) ∧
      ∀ block, putLength (fillWith block 0 56 0) 56 (UInt64.ofNat data.length * 8) =
        blockAt 64 (SecureHash.pad 32 data) (64 * (data.length / 64 + 1)) := by
  have hmod := Nat.mod_lt data.length (show 0 < 64 by decide)
  have hzero := zeroCount_32 data.length
  rw [if_neg (by omega)] at hzero
  refine ⟨Vector.ext fun j hj => getElem_fillWith_eq h (by omega) j hj hj, fun block => ?_⟩
  refine Vector.ext fun j hj => ?_
  rw [getElem_lastBlock data 1 j hj, if_neg (by omega), if_neg (by omega)]
  rcases Nat.lt_or_ge j 56 with hj' | hj'
  · rw [getElem_putLength _ _ _ hj, if_neg (by omega), getElem_fillWith _ _ _ _ hj, if_pos (by omega),
      if_pos (by omega)]
  · rw [getElem_putLength_eq _ _ _ hj hj', if_neg (by omega)]
    congr 1
    omega

theorem sha256_tail (h : Left buffer data) : paddedTail 56 buffer (data.length % 64) (UInt64.ofNat data.length * 8) =
      SecureHash.lastBlocks 32 data := by
  have hcount := lastBlocks_count data
  unfold paddedTail SecureHash.lastBlocks
  dsimp only [SecureHash.blockSize]
  rw [hcount]
  rcases Nat.lt_or_ge (data.length % 64) 56 with hlt | hge
  · rw [if_neg (show ¬ 56 < data.length % 64 + 1 by omega), if_pos hlt, oneBlock_eq h hlt]
    rfl
  · obtain ⟨hfirst, hsecond⟩ := twoBlocks_eq h hge
    rw [if_pos (show 56 < data.length % 64 + 1 by omega), if_neg (show ¬ data.length % 64 < 56 by omega),
      hsecond, hfirst]
    rfl

end Tail

/-- **SHA-256.** -/
theorem secSha256_eq_hash (stack : Vector UInt8 64) (data : List UInt8) :
    secSha256 stack data = SecureHash.hash SecureHash.sha256 data := by
  unfold secSha256
  rw [sha256State_eq]
  exact oneShot_eq_hash sha256_follows rfl (by decide) 56 stack data
    (sha256_tail (getElem_absorb (by decide) rfl data))

/-! ## SHA-512 -/

theorem getLast_lastBlocks {w : Nat} (hw : 8 ≤ w) (message : List UInt8) :
    ∃ block, (SecureHash.lastBlocks w message).getLast? = some block ∧
      ∀ t (ht : SecureHash.blockSize w - w / 4 + t < SecureHash.blockSize w),
        block[SecureHash.blockSize w - w / 4 + t] = (bigEndian (w / 4) (8 * message.length)).getD t 0 := by
  have hsize : SecureHash.blockSize w = 2 * w := rfl
  have hpos : 0 < SecureHash.blockSize w := by omega
  have hdiv := Nat.div_add_mod message.length (SecureHash.blockSize w)
  have hlen := SecureHash.length_padding (w := w) message.length
  obtain ⟨n, hn⟩ := Nat.dvd_of_mod_eq_zero (SecureHash.zeroCount_spec hw message.length)
  -- the padded message has `n` blocks, of which the message fills `message.length / blockSize w`
  have hcount : (message.length % SecureHash.blockSize w + (SecureHash.padding w message.length).length) /
      SecureHash.blockSize w = n - message.length / SecureHash.blockSize w := by
    rw [hlen, show message.length % SecureHash.blockSize w + (1 + SecureHash.zeroCount w message.length + w / 4)
      = SecureHash.blockSize w * (n - message.length / SecureHash.blockSize w) by rw [Nat.mul_sub]; omega,
      Nat.mul_div_cancel_left _ hpos]
  have hlt : message.length / SecureHash.blockSize w < n := by
    by_contra hge
    have := Nat.mul_le_mul_left (SecureHash.blockSize w) (Nat.le_of_not_lt hge)
    omega
  refine ⟨blockAt (SecureHash.blockSize w) (SecureHash.pad w message) (SecureHash.blockSize w * (n - 1)),
    ?_, fun t ht => ?_⟩
  · unfold SecureHash.lastBlocks
    rw [hcount, List.getLast?_map, List.getLast?_range, if_neg (Nat.sub_ne_zero_of_lt hlt), Option.map_some]
    refine congrArg some (congrArg (fun k => blockAt _ _ (SecureHash.blockSize w * k)) ?_)
    generalize message.length / SecureHash.blockSize w = q at hlt ⊢
    omega
  · have hlast : SecureHash.blockSize w * (n - 1) + SecureHash.blockSize w = SecureHash.blockSize w * n := by
      rw [← Nat.mul_succ, Nat.succ_eq_add_one, Nat.sub_add_cancel (Nat.one_le_of_lt hlt)]
    rw [getElem_blockAt]
    show (SecureHash.pad w message).getD _ 0 = _
    rw [SecureHash.getD_pad, if_neg (by omega), if_neg (by omega), if_neg (by omega)]
    congr 1
    omega

theorem getLast_paddedTail (lim : Nat) {size : Nat} (buffer : Vector UInt8 size) (bufLen : Nat) (bits : UInt64) :
    ∃ block, (paddedTail lim buffer bufLen bits).getLast? = some (putLength block lim bits) := by
  unfold paddedTail
  dsimp only
  split
  · exact ⟨_, rfl⟩
  · exact ⟨_, rfl⟩

theorem lastBlocks_nil : SecureHash.lastBlocks 64 [] = [Vector.ofFn fun i => if i.val = 0 then 0x80 else 0] := by
  have hpad : SecureHash.pad 64 [] = 0x80 :: List.replicate 127 0 := by decide +kernel
  have hcount : (([] : List UInt8).length % SecureHash.blockSize 64 +
      (SecureHash.padding 64 ([] : List UInt8).length).length) / SecureHash.blockSize 64 = 1 := by
    decide +kernel
  unfold SecureHash.lastBlocks
  rw [hcount, List.range_one, List.map_singleton, hpad]
  refine congrArg (fun b => [b]) (Vector.ext fun i hi => ?_)
  rw [getElem_blockAt, Vector.getElem_ofFn]
  show (0x80 :: List.replicate 127 (0 : UInt8)).getD (0 + i) 0 = if i = 0 then 0x80 else 0
  rw [Nat.zero_add]
  cases i with
  | zero => rfl
  | succ i =>
    have hi : i + 1 < 128 := hi
    rw [List.getD_cons_succ, List.getD_eq_getElem?_getD, List.getElem?_replicate, if_pos (by omega)]
    rfl

theorem data_eq_nil_of_tail {buffer : Vector UInt8 128} {data : List UInt8} (hlen : data.length < 2 ^ 61)
    (h : paddedTail 112 buffer (data.length % 128) (UInt64.ofNat data.length * 8) =
      SecureHash.lastBlocks 64 data) : data = [] := by
  obtain ⟨block, hblock, hbytes⟩ := getLast_lastBlocks (w := 64) (by decide) data
  obtain ⟨last, hlast⟩ := getLast_paddedTail 112 buffer (data.length % 128) (UInt64.ofNat data.length * 8)
  rw [h] at hlast
  have heq : block = putLength last 112 (UInt64.ofNat data.length * 8) :=
    Option.some.inj (hblock.symm.trans hlast)
  have hzero : putLength last 112 (UInt64.ofNat data.length * 8) = putLength last 112 0 := by
    refine Vector.ext fun i hi => ?_
    rw [getElem_putLength last 112 0 hi]
    split
    · rename_i hin
      obtain ⟨t, rfl⟩ := Nat.exists_eq_add_of_le hin.1
      have hbyte := hbytes t (show 112 + t < 128 from hi)
      have ht : t < 16 := by omega
      have hpow : (256 : Nat) ^ 8 ≤ 256 ^ (16 - 1 - t) := Nat.pow_le_pow_right (by decide) (by omega)
      have hsmall : 8 * data.length / 256 ^ (16 - 1 - t) = 0 :=
        Nat.div_eq_of_lt (Nat.lt_of_lt_of_le (by omega) hpow)
      unfold bigEndian at hbyte
      rw [List.getD_eq_getElem?_getD, List.getElem?_map, List.getElem?_range ht, Option.map_some,
        hsmall] at hbyte
      rw [show (0 : UInt64).toNat = 0 from rfl, Nat.zero_div, ← heq]
      exact hbyte
    · rename_i hout
      rw [getElem_putLength _ _ _ hi, if_neg hout]
  have hbits := congrArg UInt64.toNat (putLength_inj (by decide) hzero)
  simp only [UInt64.toNat_mul, UInt64.toNat_ofNat', show (8 : UInt64).toNat = 8 from rfl,
    show (0 : UInt64).toNat = 0 from rfl] at hbits
  exact List.eq_nil_of_length_eq_zero (by omega)

/-- **Only the empty message** is padded as the standard pads it, and only where the last eight bytes of
the buffer happen to be zero: the code puts the length where its upper half belongs. -/
theorem sha512_tail_eq_iff (buffer : Vector UInt8 128) {data : List UInt8} (hlen : data.length < 2 ^ 61) :
    paddedTail 112 buffer (data.length % 128) (UInt64.ofNat data.length * 8) = SecureHash.lastBlocks 64 data ↔
      data = [] ∧ ∀ i (hi : i < 128), 120 ≤ i → buffer[i] = 0 := by
  have hempty : paddedTail 112 buffer 0 0 = SecureHash.lastBlocks 64 [] ↔
      ∀ i (hi : i < 128), 120 ≤ i → buffer[i] = 0 := by
    rw [lastBlocks_nil, paddedTail_one (by decide)]
    constructor
    · intro h i hi hge
      have hget := congrArg (fun b : Vector UInt8 128 => b[i]) (List.cons.inj h).1
      simp only [sha512Last, getElem_putLength _ _ _ hi, getElem_fillWith _ _ _ _ hi, Vector.getElem_ofFn,
        Vector.getElem_setIfInBounds] at hget
      rw [if_neg (by omega), if_neg (by omega), if_neg (by omega), if_neg (by omega)] at hget
      exact hget
    · intro h
      refine congrArg (fun b => [b]) (Vector.ext fun i hi => ?_)
      simp only [sha512Last, getElem_putLength _ _ _ hi, getElem_fillWith _ _ _ _ hi, Vector.getElem_ofFn,
        Vector.getElem_setIfInBounds]
      split
      · rw [if_neg (show ¬ i = 0 by omega), show (0 : UInt64).toNat = 0 from rfl, Nat.zero_div]
        rfl
      · split
        · rw [if_neg (show ¬ i = 0 by omega)]
        · split
          · rw [if_pos (show i = 0 by omega)]
          · rw [if_neg (show ¬ i = 0 by omega)]
            exact h i hi (by omega)
  constructor
  · intro h
    have hnil := data_eq_nil_of_tail hlen h
    subst hnil
    exact ⟨rfl, hempty.mp h⟩
  · rintro ⟨rfl, h⟩
    exact hempty.mpr h
/-- The table that the standard asks for: `sha512_k` has the first sixteen constants, leaves out one of the
next two, has two that are not of the standard, and ends one entry early. -/
def sha512Table : List (BitVec 64) :=
  sha512.k.take 16 ++ [0xe49b69c19ef14ad2, 0xefbe4786384f25e3] ++ (sha512.k.drop 17).set 9 0xbf597fc7beef0ee4

/-- `sha512` with this table. -/
def sha512Repaired : Sha2 64 128 := { sha512 with k := sha512Table }

theorem sha512Repaired_follows : Follows sha512Repaired SecureHash.sha512 where
  rounds := rfl
  table := by
    unfold SecureHash.roundConstant
    rw [SecureHash.primes_eq]
    decide +kernel
  ep0 := rfl
  ep1 := rfl
  sig0 := rfl
  sig1 := rfl

theorem sha512State_eq : sha512State = SecureHash.initialHash 64 := by
  unfold SecureHash.initialHash
  rw [SecureHash.primes_eq]
  decide +kernel

/-- `sha512_transform`, where `none` is a round that reads an entry of the table without an initializer. -/
def Sha2.checkedTransform {w size : Nat} (F : Sha2 w size) (state : State w) (block : Vector UInt8 size) :
    Option (State w) :=
  (forEachM F.rounds (fun t v => if t < F.k.length then some (F.round (F.schedule block) t v) else none)
    state).map (Vector.zipWith (· + ·) state)

theorem sha512_checkedTransform (state : State 64) (block : Vector UInt8 128) :
    sha512.checkedTransform state block = none := by
  unfold checkedTransform forEachM
  show Option.map _ (forEach (79 + 1) _ _) = none
  rw [forEach_succ]
  generalize forEach 79 _ _ = v
  cases v with
  | none => rfl
  | some v => rfl

/-- What the standard asks of `sec_sha512`: the digest, and a constant for each round. -/
structure Sha512Conforms (stack : Vector UInt8 128) (data : List UInt8) : Prop where
  digest : secSha512 stack data = SecureHash.hash SecureHash.sha512 data
  reads : ∀ state block, (sha512.checkedTransform state block).isSome

/-- **No message** is hashed as the standard asks. -/
theorem not_sha512Conforms (stack : Vector UInt8 128) (data : List UInt8) : ¬ Sha512Conforms stack data := by
  intro h
  have hreads := h.reads sha512State stack
  rw [sha512_checkedTransform] at hreads
  cases hreads

/-- The first byte of the digest of the empty message, of the code and of the standard. -/
structure EmptyDigests where
  code : UInt8
  standard : UInt8
  code_eq : (secSha512 (zeros 128) []).getD 0 0 = code
  standard_eq : (sha512Repaired.finish sha512State (SecureHash.lastBlocks 64 [])).getD 0 0 = standard

def emptyDigests : EmptyDigests where
  code := 73
  standard := 207
  code_eq := by decide +kernel
  standard_eq := by decide +kernel

/-- The empty message, which is padded right, and has another digest still. -/
theorem sha512_empty : secSha512 (zeros 128) [] ≠ SecureHash.hash SecureHash.sha512 [] ∧
      sha512.checkedTransform sha512State (zeros 128) = none := by
  refine ⟨?_, sha512_checkedTransform _ _⟩
  rw [hash_eq_finish sha512Repaired_follows rfl (by decide), ← sha512State_eq]
  intro h
  have hcode := emptyDigests.code_eq
  rw [h] at hcode
  exact absurd (hcode.symm.trans emptyDigests.standard_eq) (by decide)

end Chicago95.Stage2
