/-
# Chicago95.Stage2.PgpHybrid — encryption under a key, in `security/common/pgp/pgp.c`.

`pgp_encrypt` draws a session key, encrypts it with `pgp_rsa_encrypt` and the data with AES-256-GCM, and
`pgp_decrypt` undoes both. The powers and the cipher are parameters (`Crypto`); the tape is what
`sec_random_bytes` gives, byte by byte.
-/
import Chicago95.Stage2.PgpPacket
import Chicago95.Stage2.Gcm

namespace Chicago95.Stage2.Pgp

open Chicago95.Stage2.Mpi Chicago95.Stage2.Aes Chicago95.Lib.Digits Chicago95.Lib.Keystream

/-! ## The code -/

/-- What is used of other files: `pgp_mpi_pow_mod`, with `none` where it does not return, and
`sec_aes256_gcm_encrypt` and `sec_aes256_gcm_decrypt` under a key that has been set up, with `none` where
they go past an array of theirs. -/
structure Crypto where
  powMod (a e m : Mpi) : Option Mpi
  gcmEncrypt (key plaintext : List UInt8) (iv : List UInt8) : Option (List UInt8 × List UInt8)
  gcmDecrypt (key ciphertext plaintext : List UInt8) (iv tag : List UInt8) : Option (Int × List UInt8)

/-- What memory holds where `aes256.c` reads before it has written: behind `rcon`, in a context, and in the
array for the hash. -/
structure AesFrame where
  behind : Nat → UInt8
  stale : Vector UInt8 240
  hashed : Nat → UInt8

/-- The functions themselves, with `fuel` rounds for each division. -/
def secCrypto (fuel : Nat) (frame : AesFrame) : Crypto where
  powMod a e m := pgpMpiPowMod fuel pgpMpiZero a e m
  gcmEncrypt key plaintext iv :=
    (secAes256GcmEncrypt frame.hashed (secAes256Init frame.behind frame.stale key) plaintext
      (Vector.ofFn fun i => iv.getD i 0) []).map fun sealed => (sealed.1, sealed.2.toList)
  gcmDecrypt key ciphertext plaintext iv tag :=
    secAes256GcmDecrypt frame.hashed (secAes256Init frame.behind frame.stale key) ciphertext plaintext
      (Vector.ofFn fun i => iv.getD i 0) [] (Vector.ofFn fun i => tag.getD i 0)

/-- `sizeof(session_key)` -/
def sessionKeySize : Nat := 32

/-- `sec_random_bytes(buf, n)` -/
def secRandomBytes (n : Nat) (tape : List UInt8) : Except Stop (List UInt8 × List UInt8) :=
  if tape.length < n then .error .unfinished else .ok (tape.take n, tape.drop n)

/-- `do { sec_random_bytes(&r, 1); } while (r == 0);` -/
def drawNonzero : List UInt8 → Except Stop (UInt8 × List UInt8)
  | [] => .error .unfinished
  | r :: tape => if r = 0 then drawNonzero tape else .ok (r, tape)

/-- The loop that fills `em` with `n` of these. -/
def drawPadding : Nat → List UInt8 → Except Stop (List UInt8 × List UInt8)
  | 0, tape => .ok ([], tape)
  | n + 1, tape => do
    let (r, tape) ← drawNonzero tape
    let (padding, tape) ← drawPadding n tape
    .ok (r :: padding, tape)

/-- `em` of `pgp_rsa_encrypt`. -/
def emBlock (padding input : List UInt8) : List UInt8 := [0x00, 0x02] ++ padding ++ [0x00] ++ input

/-- `m` of `pgp_rsa_encrypt`. -/
def emMpi (em : Nat → UInt8) : Mpi :=
  { limbs := fillLimbs pgpRsaBytes em pgpRsaBytes fun _ => 0
    count := (pgpRsaBytes + 3) / 4
    count_le := by decide }

/-- `pgp_mpi_pow_mod`, which may not return. -/
def power (c : Crypto) (a e m : Mpi) : Except Stop Mpi :=
  match c.powMod a e m with
  | none => .error .unfinished
  | some r => .ok r

def pgpRsaEncrypt (c : Crypto) (key : PgpRsaKeyPair) (input tape : List UInt8) :
    Except Stop (List UInt8 × List UInt8) := do
  if pgpRsaBytes - 11 < input.length then .error (.err pgpErrParam)
  let (padding, tape) ← drawPadding (pgpRsaBytes - input.length - 1 - 2) tape
  let r ← power c (emMpi fun i => (emBlock padding input).getD i 0) key.e key.n
  .ok (r.pgpMpiToBytes, tape)

/-- `while (pos < em_len && em[pos] != 0x00) pos++;` with `left` for `em_len - pos`. -/
def skipNonzero (em : Nat → UInt8) : Nat → Nat → Nat
  | 0, pos => pos
  | left + 1, pos => if em pos ≠ 0x00 then skipNonzero em left (pos + 1) else pos

/-- `pgp_rsa_decrypt`: the bytes that it writes, for `*out_len` of them at most. -/
def pgpRsaDecrypt (c : Crypto) (key : PgpRsaKeyPair) (input : List UInt8) (outLen : Nat) :
    Except Stop (List UInt8) := do
  let m ← power c (pgpMpiFromBytes input) key.d key.n
  let em := emByte m
  if em 0 ≠ 0x00 ∨ em 1 ≠ 0x02 then .error (.err pgpErrDecrypt)
  let pos := skipNonzero em (pgpRsaBytes - 2) 2
  if pgpRsaBytes - 1 ≤ pos then .error (.err pgpErrDecrypt)
  let dataLen := pgpRsaBytes - (pos + 1)
  if outLen < dataLen then .error (.err pgpErrDecrypt)
  .ok ((List.range dataLen).map fun i => em (pos + 1 + i))

def pgpEncrypt (c : Crypto) (key : PgpRsaKeyPair) (input tape : List UInt8) : Except Stop (List UInt8) := do
  let (sessionKey, tape) ← secRandomBytes sessionKeySize tape
  let (pkesk, tape) ← pgpRsaEncrypt c key sessionKey tape
  let (iv, _) ← secRandomBytes 12 tape
  let sedBody := (1 + 12 + input.length + 16) % 2 ^ 32
  match c.gcmEncrypt sessionKey input iv with
  | none => .error .outside
  | some (ciphertext, tag) =>
    .ok (pkesk ++ ([0x85] ++ (be32 sedBody ++ ([4] ++ (iv ++ (ciphertext ++ tag))))))

/-- `pgp_decrypt`: `*out_len`, and what `out` holds then. `stack` is what `session_key` held before. -/
def pgpDecrypt (c : Crypto) (key : PgpRsaKeyPair) (stack : Vector UInt8 32) (input out : List UInt8) :
    Except Stop (Nat × List UInt8) := do
  if input.length < 258 then .error (.err pgpErrDecrypt)
  let (pkesk, rest) ← takeBytes (pgpRsaBytes + 2) input
  let read ← pgpRsaDecrypt c key pkesk sessionKeySize
  let sessionKey := read ++ stack.toList.drop read.length
  need 1 rest
  let (tag, rest) ← byte rest
  if tag ≠ 0x85 then .error (.err pgpErrFormat)
  need 4 rest
  let (sedBody, rest) ← word rest
  if input.length < (263 + sedBody.toNat) % 2 ^ 32 then .error (.err pgpErrFormat)
  let (version, rest) ← byte rest
  if version ≠ 4 then .error (.err pgpErrFormat)
  need 12 rest
  let (iv, rest) ← takeBytes 12 rest
  let dataLen := (sedBody.toNat + (2 ^ 32 - 1 - 12 - 16)) % 2 ^ 32
  if input.length < (276 + dataLen + 16) % 2 ^ 32 then .error (.err pgpErrFormat)
  let (ciphertext, rest) ← takeBytes dataLen rest
  let (tag, _) ← takeBytes 16 rest
  match c.gcmDecrypt sessionKey ciphertext out iv tag with
  | none => .error .outside
  | some (ret, plaintext) =>
    if ret ≠ 0 then .error (.err pgpErrDecrypt)
    else if out.length < dataLen then .error .outside
    else .ok (dataLen, plaintext)

/-! ## The block -/

theorem limbs_emMpi (em : Nat → UInt8) :
    (emMpi em).limbs = fillLimbs pgpRsaBytes em pgpRsaBytes fun _ => 0 := by rw [emMpi]

theorem count_emMpi (em : Nat → UInt8) : (emMpi em).count = 64 := rfl

theorem emByte_emMpi (em : Nat → UInt8) {i : Nat} (hi : i < pgpRsaBytes) : emByte (emMpi em) i = em i := by
  have hlimb : (pgpRsaBytes - 1 - i) / 4 < (emMpi em).count := by
    rw [count_emMpi]
    unfold pgpRsaBytes
    omega
  unfold emByte
  dsimp only
  rw [if_pos hlimb]
  refine UInt8.toNat_inj.mp (Nat.eq_of_testBit_eq fun p => Bool.eq_iff_iff.mpr ?_)
  rw [UInt8.toNat_ofNat', Nat.testBit_mod_two_pow, Nat.testBit_div_two_pow, Bool.and_eq_true,
    decide_eq_true_iff]
  -- byte `i` is the only one that goes to its place
  rw [limbs_emMpi, testBit_fillLimbs (by decide) _ _ (Nat.le_refl _)]
  constructor
  · rintro ⟨hp, h | ⟨j, ⟨-, hj, hlimb, hplace⟩, hbit⟩⟩
    · simp at h
    · have hij : j = i := by
        unfold limbOf placeOf pgpRsaBytes at *
        omega
      have hmod : (p + (3 - i % 4) * 8) % 8 = p := by omega
      rw [hij, hmod] at hbit
      exact hbit
  · intro hbit
    have hp : p < 8 := by
      by_contra hge
      rw [testBit_of_lt_two_pow (em i).toNat_lt (Nat.le_of_not_lt hge)] at hbit
      cases hbit
    refine ⟨hp, Or.inr ⟨i, ⟨?_, hi, rfl, ?_⟩, ?_⟩⟩
    · omega
    · unfold placeOf
      omega
    · rw [show (p + (3 - i % 4) * 8) % 8 = p by omega]
      exact hbit

theorem val_emMpi_lt {em : Nat → UInt8} (hzero : em 0 = 0) : (emMpi em).val < 2 ^ 2040 := by
  have hbyte := emByte_emMpi em (i := 0) (by decide)
  rw [emByte_eq _ (by decide), hzero] at hbyte
  -- byte 0 is the highest one of 256
  have hlt : (emMpi em).val / 256 ^ 255 < 256 := by
    rw [Nat.div_lt_iff_lt_mul (Nat.pow_pos (by decide))]
    have hval := (emMpi em).val_lt
    rw [show (2 ^ 32) ^ pgpMpiMaxLimbs = 256 * 256 ^ 255 by decide] at hval
    exact hval
  have hdiv : (emMpi em).val / 256 ^ 255 = 0 := by
    have h := congrArg UInt8.toNat hbyte
    rw [UInt8.toNat_ofNat', UInt8.toNat_zero] at h
    exact (Nat.mod_eq_of_lt hlt).symm.trans h
  rcases Nat.div_eq_zero_iff.mp hdiv with h | h
  · exact absurd h (Nat.pow_pos (by decide)).ne'
  · rw [show (2 : Nat) ^ 2040 = 256 ^ 255 by decide +kernel]
    exact h

theorem skipNonzero_eq {em : Nat → UInt8} {k : Nat} : ∀ {left pos : Nat}, k < left →
    (∀ i, pos ≤ i → i < pos + k → em i ≠ 0) → em (pos + k) = 0 → skipNonzero em left pos = pos + k := by
  induction k with
  | zero =>
    intro left pos hleft _ hstop
    obtain ⟨left, rfl⟩ := Nat.exists_eq_succ_of_ne_zero (by omega : left ≠ 0)
    rw [Nat.add_zero] at hstop ⊢
    rw [skipNonzero, if_neg (not_not.mpr hstop)]
  | succ k ih =>
    intro left pos hleft hne hstop
    obtain ⟨left, rfl⟩ := Nat.exists_eq_succ_of_ne_zero (by omega : left ≠ 0)
    have hnext : pos + 1 + k = pos + (k + 1) := by omega
    rw [skipNonzero, if_pos (hne pos (by omega) (by omega)),
      ih (by omega) (fun i hge hlt => hne i (by omega) (by omega)) (by rw [hnext]; exact hstop), hnext]

/-! ## Encrypting -/

theorem drawNonzero_ne {tape rest : List UInt8} {r : UInt8} (h : drawNonzero tape = .ok (r, rest)) : r ≠ 0 := by
  induction tape with
  | nil => cases h
  | cons b tape ih =>
    rw [drawNonzero] at h
    split at h
    · exact ih h
    · cases h
      assumption

theorem drawPadding_spec {n : Nat} : ∀ {tape padding rest : List UInt8},
    drawPadding n tape = .ok (padding, rest) → padding.length = n ∧ ∀ b ∈ padding, b ≠ 0 := by
  induction n with
  | zero =>
    intro tape padding rest h
    cases h
    exact ⟨rfl, fun b hb => absurd hb List.not_mem_nil⟩
  | succ n ih =>
    intro tape padding rest h
    obtain ⟨⟨r, tape'⟩, hr, h⟩ := bind_eq_ok.mp h
    obtain ⟨⟨padding', tape''⟩, hpadding, h⟩ := bind_eq_ok.mp h
    cases h
    obtain ⟨hlen, hne⟩ := ih hpadding
    refine ⟨by rw [List.length_cons, hlen], fun b hb => ?_⟩
    rcases List.mem_cons.mp hb with rfl | hb
    · exact drawNonzero_ne hr
    · exact hne b hb

/-- What an encryption draws from a tape. -/
structure Draws (tape : List UInt8) where
  sessionKey : List UInt8
  padding : List UInt8
  iv : List UInt8
  afterKey : List UInt8
  afterPadding : List UInt8
  rest : List UInt8
  key_drawn : secRandomBytes sessionKeySize tape = .ok (sessionKey, afterKey)
  padding_drawn : drawPadding (pgpRsaBytes - sessionKeySize - 1 - 2) afterKey = .ok (padding, afterPadding)
  iv_drawn : secRandomBytes 12 afterPadding = .ok (iv, rest)

theorem length_of_secRandomBytes {n : Nat} {tape bytes rest : List UInt8}
    (h : secRandomBytes n tape = .ok (bytes, rest)) : bytes.length = n := by
  unfold secRandomBytes at h
  split at h
  · cases h
  · cases h
    rw [List.length_take]
    omega

namespace Draws

variable {tape : List UInt8} (draws : Draws tape)

/-- The block that is encrypted. -/
def em (i : Nat) : UInt8 := (emBlock draws.padding draws.sessionKey).getD i 0

theorem length_sessionKey : draws.sessionKey.length = 32 := length_of_secRandomBytes draws.key_drawn

theorem length_iv : draws.iv.length = 12 := length_of_secRandomBytes draws.iv_drawn

theorem length_padding : draws.padding.length = 221 := (drawPadding_spec draws.padding_drawn).1

theorem em_add (j : Nat) : draws.em (2 + j) = (draws.padding ++ 0x00 :: draws.sessionKey).getD j 0 := by
  have hblock : emBlock draws.padding draws.sessionKey =
      0x00 :: 0x02 :: (draws.padding ++ 0x00 :: draws.sessionKey) := by
    unfold emBlock
    simp only [List.append_assoc, List.cons_append, List.nil_append]
  unfold em
  rw [hblock, Nat.add_comm, List.getD_cons_succ, List.getD_cons_succ]

theorem em_ne_zero {j : Nat} (hj : j < 221) : draws.em (2 + j) ≠ 0 := by
  have hj' : j < draws.padding.length := by rw [draws.length_padding]; exact hj
  rw [em_add, List.getD_eq_getElem?_getD, List.getElem?_append_left hj', List.getElem?_eq_getElem hj',
    Option.getD_some]
  exact (drawPadding_spec draws.padding_drawn).2 _ (List.getElem_mem hj')

theorem em_after (i : Nat) : draws.em (2 + (221 + i)) = (0x00 :: draws.sessionKey).getD i 0 := by
  have hlen := draws.length_padding
  rw [em_add, List.getD_eq_getElem?_getD, List.getElem?_append_right (by omega), hlen,
    Nat.add_sub_cancel_left, List.getD_eq_getElem?_getD]

theorem em_stop : draws.em (2 + 221) = 0 := draws.em_after 0

theorem map_em : ((List.range 32).map fun i => draws.em (2 + 221 + 1 + i)) = draws.sessionKey := by
  refine List.ext_getElem (by rw [List.length_map, List.length_range, draws.length_sessionKey])
    fun i hi hi' => ?_
  have hafter := draws.em_after (i + 1)
  rw [List.getD_cons_succ, List.getD_eq_getElem?_getD, List.getElem?_eq_getElem hi', Option.getD_some] at hafter
  rw [List.getElem_map, List.getElem_range, ← hafter]
  congr 1
  omega

end Draws

/-! ## What is claimed -/

/-- The powers are right, and decryption of what has been encrypted gives it back. -/
structure Crypto.Correct (c : Crypto) : Prop where
  powMod : ∀ a e m : Mpi, 0 < m.val →
    ∃ r, c.powMod a e m = some r ∧ r.val = a.val ^ e.val % m.val ∧ r.Normal
  gcm : ∀ key plaintext iv, ∃ ciphertext tag, c.gcmEncrypt key plaintext iv = some (ciphertext, tag) ∧
    ciphertext.length = plaintext.length ∧ tag.length = 16 ∧
    ∀ out, c.gcmDecrypt key ciphertext out iv tag = some (0, plaintext ++ out.drop plaintext.length)

/-- The exponents undo each other. -/
structure CorrectExponents (key : PgpRsaKeyPair) : Prop where
  pos : 0 < key.n.val
  inverse : ∀ x < key.n.val, (x ^ key.e.val % key.n.val) ^ key.d.val % key.n.val = x

/-- **The message comes back**, in every buffer that has room for it. -/
def HybridRoundTrip (c : Crypto) (key : PgpRsaKeyPair) (tape message : List UInt8) : Prop :=
  ∃ packet, pgpEncrypt c key message tape = .ok packet ∧
    ∀ stack out, message.length ≤ out.length →
      pgpDecrypt c key stack packet out = .ok (message.length, message ++ out.drop message.length)

/-! ## Decrypting -/

section Decrypt

variable {c : Crypto} {key : PgpRsaKeyPair} {tape message : List UInt8}

theorem power_eq_ok {a e m r : Mpi} (h : c.powMod a e m = some r) : power c a e m = .ok r := by
  unfold power
  rw [h]

theorem pgpRsaDecrypt_of_bytes (draws : Draws tape) {input : List UInt8} {m : Mpi}
    (hm : c.powMod (pgpMpiFromBytes input) key.d key.n = some m) (hbytes : ∀ i < pgpRsaBytes, emByte m i = draws.em i) :
    pgpRsaDecrypt c key input sessionKeySize = .ok draws.sessionKey := by
  -- the padding is skipped up to the zero byte behind it
  have hskip : skipNonzero (emByte m) (pgpRsaBytes - 2) 2 = 2 + 221 := by
    refine skipNonzero_eq (by decide) (fun i hge hlt => ?_) ?_
    · obtain ⟨j, rfl⟩ := Nat.exists_eq_add_of_le hge
      rw [hbytes _ (by unfold pgpRsaBytes; omega)]
      exact draws.em_ne_zero (by omega)
    · rw [hbytes _ (by decide)]
      exact draws.em_stop
  unfold pgpRsaDecrypt
  rw [power_eq_ok hm, ok_bind]
  dsimp only
  have hfirst : ¬ (draws.em 0 ≠ 0x00 ∨ draws.em 1 ≠ 0x02) := by
    rintro (h | h)
    · exact h rfl
    · exact h rfl
  rw [hskip, hbytes 0 (by decide), hbytes 1 (by decide), if_neg hfirst, if_neg (by decide),
    if_neg (by decide)]
  refine congrArg Except.ok ((List.map_congr_left fun i hi => ?_).trans draws.map_em)
  have hi' : i < 32 := List.mem_range.mp hi
  exact hbytes _ (by unfold pgpRsaBytes; omega)

/-- The packet behind the encrypted session key. -/
def sedPacket (sedBody : Nat) (iv ciphertext tag : List UInt8) : List UInt8 :=
  [0x85] ++ (be32 sedBody ++ ([4] ++ (iv ++ (ciphertext ++ tag))))

theorem pgpDecrypt_packet {stack : Vector UInt8 32} {pkesk sessionKey iv ciphertext tag plaintext out : List UInt8}
    (hpkesk : pkesk.length = 258) (hkey : pgpRsaDecrypt c key pkesk sessionKeySize = .ok sessionKey)
    (hsession : sessionKey.length = 32) (hiv : iv.length = 12) (htag : tag.length = 16)
    (hmax : ciphertext.length + 292 < 2 ^ 32) (hroom : ciphertext.length ≤ out.length)
    (hgcm : c.gcmDecrypt sessionKey ciphertext out iv tag = some (0, plaintext)) :
    pgpDecrypt c key stack (pkesk ++ sedPacket ((1 + 12 + ciphertext.length + 16) % 2 ^ 32) iv ciphertext tag)
      out = .ok (ciphertext.length, plaintext) := by
  have hsed : (1 + 12 + ciphertext.length + 16) % 2 ^ 32 = ciphertext.length + 29 := by omega
  have hword : (UInt32.ofNat (ciphertext.length + 29)).toNat = ciphertext.length + 29 :=
    UInt32.toNat_ofNat_of_lt' (Nat.lt_of_le_of_lt (by omega) hmax)
  have hlen : (pkesk ++ sedPacket (ciphertext.length + 29) iv ciphertext tag).length =
      ciphertext.length + 292 := by
    unfold sedPacket
    simp only [List.length_append, List.length_cons, List.length_nil, length_be32, hpkesk, hiv, htag]
    omega
  -- nothing of what `session_key` held before is left
  have hwhole : sessionKey ++ stack.toList.drop sessionKey.length = sessionKey := by
    rw [List.drop_of_length_le (by rw [Vector.length_toList]; omega), List.append_nil]
  have hdata : (ciphertext.length + 29 + (2 ^ 32 - 1 - 12 - 16)) % 2 ^ 32 = ciphertext.length := by omega
  rw [hsed]
  unfold pgpDecrypt
  rw [hlen, if_neg (by omega)]
  dsimp only
  rw [takeBytes_append (show pkesk.length = pgpRsaBytes + 2 from hpkesk), ok_bind]
  dsimp only
  rw [hkey, ok_bind]
  rw [hwhole]
  unfold sedPacket
  rw [List.singleton_append, need_of_le (Nat.succ_pos _), ok_bind, byte_cons, ok_bind]
  dsimp only
  rw [if_neg (by decide), need_of_le (by rw [List.length_append, length_be32]; omega), ok_bind,
    word_be32 (by omega), ok_bind]
  dsimp only
  rw [hword, if_neg (by omega), List.singleton_append, byte_cons, ok_bind]
  dsimp only
  rw [if_neg (by decide), need_of_le (by rw [List.length_append]; omega), ok_bind, takeBytes_append hiv, ok_bind]
  dsimp only
  rw [hdata, if_neg (by omega), takeBytes_append rfl, ok_bind]
  dsimp only
  have hlast : takeBytes 16 tag = .ok (tag, []) := by
    have h : takeBytes 16 (tag ++ []) = .ok (tag, []) := takeBytes_append htag
    rwa [List.append_nil] at h
  rw [hlast, ok_bind]
  dsimp only
  rw [hgcm]
  dsimp only
  rw [if_neg (by decide), if_neg (by omega)]

theorem le_length_of_pgpDecrypt {stack : Vector UInt8 32} {input out out' : List UInt8} {n : Nat}
    (hmax : n + 292 < 2 ^ 32) (h : pgpDecrypt c key stack input out = .ok (n, out')) : n + 292 ≤ input.length := by
  unfold pgpDecrypt at h
  obtain ⟨-, h⟩ := guard_eq_ok.mp h
  obtain ⟨⟨pkesk, rest⟩, -, h⟩ := bind_eq_ok.mp h
  obtain ⟨read, -, h⟩ := bind_eq_ok.mp h
  obtain ⟨-, -, h⟩ := bind_eq_ok.mp h
  obtain ⟨⟨tag, rest⟩, -, h⟩ := bind_eq_ok.mp h
  obtain ⟨-, h⟩ := guard_eq_ok.mp h
  obtain ⟨-, -, h⟩ := bind_eq_ok.mp h
  obtain ⟨⟨sedBody, rest⟩, -, h⟩ := bind_eq_ok.mp h
  obtain ⟨hroom, h⟩ := guard_eq_ok.mp h
  obtain ⟨⟨version, rest⟩, -, h⟩ := bind_eq_ok.mp h
  obtain ⟨-, h⟩ := guard_eq_ok.mp h
  obtain ⟨-, -, h⟩ := bind_eq_ok.mp h
  obtain ⟨⟨iv, rest⟩, -, h⟩ := bind_eq_ok.mp h
  obtain ⟨-, h⟩ := guard_eq_ok.mp h
  obtain ⟨⟨ciphertext, rest⟩, -, h⟩ := bind_eq_ok.mp h
  obtain ⟨⟨tag, rest⟩, -, h⟩ := bind_eq_ok.mp h
  dsimp only at h
  -- the outcome of the cipher, its code, and the room in the buffer
  split at h
  · cases h
  split at h
  · cases h
  split at h
  · cases h
  obtain ⟨hn, -⟩ := Prod.mk.inj (Except.ok.inj h)
  have hsed := sedBody.toNat_lt
  omega

/-! ## The round trip -/

theorem pgpEncrypt_eq (draws : Draws tape) {r : Mpi} {ciphertext tag : List UInt8}
    (hr : c.powMod (emMpi draws.em) key.e key.n = some r)
    (hgcm : c.gcmEncrypt draws.sessionKey message draws.iv = some (ciphertext, tag))
    (hlen : ciphertext.length = message.length) : pgpEncrypt c key message tape = .ok (r.pgpMpiToBytes ++
      sedPacket ((1 + 12 + ciphertext.length + 16) % 2 ^ 32) draws.iv ciphertext tag) := by
  have hkey := draws.length_sessionKey
  have hpadding := draws.padding_drawn
  unfold sessionKeySize at hpadding
  unfold pgpEncrypt
  rw [draws.key_drawn, ok_bind]
  dsimp only
  have hrsa : pgpRsaEncrypt c key draws.sessionKey draws.afterKey = .ok (r.pgpMpiToBytes, draws.afterPadding) := by
    unfold pgpRsaEncrypt
    rw [hkey, if_neg (by decide)]
    dsimp only
    rw [hpadding, ok_bind]
    dsimp only
    rw [show (fun i => (emBlock draws.padding draws.sessionKey).getD i 0) = draws.em from rfl,
      power_eq_ok hr, ok_bind]
  rw [hrsa, ok_bind]
  dsimp only
  rw [draws.iv_drawn, ok_bind]
  dsimp only
  rw [hgcm]
  dsimp only
  rw [hlen]
  rfl

theorem byteLen_eq_iff {r : Mpi} (hr : r.Normal) : r.byteLen = 256 ↔ 2 ^ 2040 ≤ r.val := by
  have hmax := r.bitLen_le_max
  rw [← Nat.lt_size, ← bitLen_of_normal hr]
  unfold byteLen
  omega

theorem full_of_roundTrip (hc : c.Correct) (hkey : CorrectExponents key) (draws : Draws tape)
    (hmax : message.length + 292 < 2 ^ 32) (h : HybridRoundTrip c key tape message) :
    2 ^ 2040 ≤ (emMpi draws.em).val ^ key.e.val % key.n.val := by
  obtain ⟨r, hr, hval, hnormal⟩ := hc.powMod (emMpi draws.em) key.e key.n hkey.pos
  obtain ⟨ciphertext, tag, hgcm, hlen, htag, -⟩ := hc.gcm draws.sessionKey message draws.iv
  obtain ⟨packet, hencrypt, hback⟩ := h
  obtain rfl := Except.ok.inj ((pgpEncrypt_eq draws hr hgcm hlen).symm.trans hencrypt)
  -- a shorter number makes a packet that is too short
  have hroom := le_length_of_pgpDecrypt hmax (hback (Vector.replicate 32 0) message (Nat.le_refl _))
  rw [List.length_append, length_toBytes] at hroom
  unfold sedPacket at hroom
  simp only [List.length_append, List.length_cons, List.length_nil, length_be32, draws.length_iv, hlen, htag]
    at hroom
  have hbytes := r.byteLen_le
  rw [← hval, ← byteLen_eq_iff hnormal]
  omega

/-- **When a message comes back**: the number that the session key is encrypted to fills 256 bytes. (`hmax` is
what `*out_len` can hold.) -/
theorem hybrid_roundTrip_iff (c : Crypto) (key : PgpRsaKeyPair) (tape message : List UInt8)
    (hc : c.Correct) (hkey : CorrectExponents key) (draws : Draws tape) (hmax : message.length + 292 < 2 ^ 32) :
    HybridRoundTrip c key tape message ↔ 2 ^ 2040 ≤ (emMpi draws.em).val ^ key.e.val % key.n.val := by
  refine ⟨full_of_roundTrip hc hkey draws hmax, fun hge => ?_⟩
  obtain ⟨r, hr, hval, hnormal⟩ := hc.powMod (emMpi draws.em) key.e key.n hkey.pos
  obtain ⟨ciphertext, tag, hgcm, hlen, htag, hdecrypt⟩ := hc.gcm draws.sessionKey message draws.iv
  rw [← hval] at hge
  have hfull := (byteLen_eq_iff hnormal).mpr hge
  refine ⟨_, pgpEncrypt_eq draws hr hgcm hlen, fun stack out hout => ?_⟩
  -- the number comes back, and so does the block under the other exponent
  have hread : (pgpMpiFromBytes r.pgpMpiToBytes).val = r.val :=
    val_fromBytes_toBytes_full r (by rw [hfull])
  obtain ⟨m, hm, hmval, -⟩ := hc.powMod (pgpMpiFromBytes r.pgpMpiToBytes) key.d key.n hkey.pos
  have hlt : (emMpi draws.em).val < key.n.val :=
    calc (emMpi draws.em).val < 2 ^ 2040 := val_emMpi_lt rfl
      _ ≤ r.val := hge
      _ < key.n.val := by
        rw [hval]
        exact Nat.mod_lt _ hkey.pos
  have hsame : m.val = (emMpi draws.em).val := by
    rw [hmval, hread, hval, hkey.inverse _ hlt]
  have hbytes : ∀ i < pgpRsaBytes, emByte m i = draws.em i := fun i hi => by
    rw [emByte_eq m hi, hsame, ← emByte_eq _ hi, emByte_emMpi _ hi]
  rw [← hlen] at hmax hout ⊢
  refine pgpDecrypt_packet (by rw [length_toBytes, hfull]) (pgpRsaDecrypt_of_bytes draws hm hbytes)
    draws.length_sessionKey draws.length_iv htag hmax hout ?_
  rw [hdecrypt, hlen]

end Decrypt

/-! ## A message of one byte -/

/-- Counter mode without a limit, under a key that is set up in the same memory each time. -/
def idealCtr (frame : AesFrame) (key iv input : List UInt8) : List UInt8 :=
  mask 16 (fun counter => (secAes256EncryptBlock (secAes256Init frame.behind frame.stale key) counter).toList)
    (fun counter => bump counter 16) ((input.length + 15) / 16)
    (counterBlock (Vector.ofFn fun i => iv.getD i 0)) input

/-- The tag, which is zero where `ghash_input` has no room. -/
def idealTag (frame : AesFrame) (key iv ciphertext : List UInt8) : List UInt8 :=
  ((ghashInput frame.hashed [] ciphertext ciphertext.length).elim (Vector.replicate 16 0)
    (tagOf (secAes256Init frame.behind frame.stale key) (Vector.ofFn fun i => iv.getD i 0))).toList

/-- The functions as they are claimed to be: powers that are right, and AES-256-GCM that finds the same
memory each time and has no limit. -/
def idealCrypto (frame : AesFrame) : Crypto where
  powMod a e m := some (mpiNormalize (mpiOf (a.val ^ e.val % m.val)))
  gcmEncrypt key plaintext iv :=
    let ciphertext := idealCtr frame key iv plaintext
    some (ciphertext, idealTag frame key iv ciphertext)
  gcmDecrypt key ciphertext plaintext iv tag :=
    if tag = idealTag frame key iv ciphertext then
      some (secOk, idealCtr frame key iv ciphertext ++ plaintext.drop ciphertext.length)
    else some (secErrCrypto, plaintext)

theorem length_idealCtr (frame : AesFrame) (key iv input : List UInt8) :
    (idealCtr frame key iv input).length = input.length := by
  unfold idealCtr
  rw [length_mask fun _ => Vector.length_toList]
  omega

theorem idealCtr_involutive (frame : AesFrame) (key iv input : List UInt8) :
    idealCtr frame key iv (idealCtr frame key iv input) = input := by
  have hlen := length_idealCtr frame key iv input
  unfold idealCtr at hlen ⊢
  rw [hlen, mask_involutive (by omega) (fun _ => Vector.length_toList) _ _ _ (by omega)]

theorem val_mpiOf (x : Nat) : (mpiOf x).val = x % (2 ^ 32) ^ pgpMpiMaxLimbs := by
  have hdigit : (mpiOf x).digit = fun i => x / (2 ^ 32) ^ i % 2 ^ 32 := by
    funext i
    exact UInt32.toNat_ofNat'
  unfold val
  rw [hdigit]
  exact value_digits x

theorem idealCrypto_correct (frame : AesFrame) : (idealCrypto frame).Correct where
  powMod a e m hm := by
    refine ⟨_, rfl, ?_, normal_mpiNormalize _⟩
    rw [val_mpiNormalize, val_mpiOf, Nat.mod_eq_of_lt (Nat.lt_trans (Nat.mod_lt _ hm) m.val_lt)]
  gcm key plaintext iv := by
    refine ⟨_, _, rfl, length_idealCtr frame key iv plaintext, Vector.length_toList, fun out => ?_⟩
    unfold idealCrypto
    dsimp only
    rw [if_pos rfl, length_idealCtr, idealCtr_involutive]
    rfl

/-- A key with the exponents 1 and 1, and a modulus of 2048 bits. -/
def unitKey : PgpRsaKeyPair :=
  { n := mpiOf (2 ^ 2048 - 1), e := pgpMpiSetU32 1, d := pgpMpiSetU32 1, p := pgpMpiZero, q := pgpMpiZero
    dp := pgpMpiZero, dq := pgpMpiZero, qinv := pgpMpiZero }

theorem unitKey_correct : CorrectExponents unitKey where
  pos := by decide +kernel
  inverse x hx := by
    have hone : unitKey.e.val = 1 ∧ unitKey.d.val = 1 := ⟨val_setU32_one, val_setU32_one⟩
    rw [hone.1, hone.2, pow_one, pow_one, Nat.mod_mod, Nat.mod_eq_of_lt hx]

/-- A tape of ones. -/
def ones : List UInt8 := List.replicate 265 1

theorem secRandomBytes_ones (n k : Nat) : secRandomBytes n (List.replicate (n + k) 1) =
    .ok (List.replicate n 1, List.replicate k 1) := by
  unfold secRandomBytes
  rw [if_neg (by rw [List.length_replicate]; omega), List.take_replicate, List.drop_replicate,
    Nat.min_eq_left (by omega), Nat.add_sub_cancel_left]

theorem drawPadding_ones (n k : Nat) : drawPadding n (List.replicate (n + k) 1) =
    .ok (List.replicate n 1, List.replicate k 1) := by
  induction n with
  | zero => rw [drawPadding, Nat.zero_add, List.replicate_zero]
  | succ n ih =>
    rw [Nat.add_right_comm, List.replicate_succ, drawPadding, drawNonzero, if_neg (by decide), ok_bind]
    dsimp only
    rw [ih, ok_bind]
    rfl

/-- What is drawn from it. -/
def onesDraws : Draws ones where
  sessionKey := List.replicate 32 1
  padding := List.replicate 221 1
  iv := List.replicate 12 1
  afterKey := List.replicate 233 1
  afterPadding := List.replicate 12 1
  rest := List.replicate 0 1
  key_drawn := secRandomBytes_ones 32 233
  padding_drawn := drawPadding_ones 221 12
  iv_drawn := secRandomBytes_ones 12 0

/-- A stack of zeros. -/
def zeroAes : AesFrame := { behind := fun _ => 0, stale := Vector.replicate 240 0, hashed := fun _ => 0 }

theorem ones_roundTrip_iff : HybridRoundTrip (idealCrypto zeroAes) unitKey ones [1] ↔
    2 ^ 2040 ≤ (emMpi onesDraws.em).val ^ unitKey.e.val % unitKey.n.val :=
  hybrid_roundTrip_iff (idealCrypto zeroAes) unitKey ones [1] (idealCrypto_correct zeroAes) unitKey_correct
    onesDraws (by decide)

/-- **A message that is lost**: under the exponent 1 the number is the block, which has 255 bytes. -/
theorem ones_lost : (idealCrypto zeroAes).Correct ∧ CorrectExponents unitKey ∧
    ¬ HybridRoundTrip (idealCrypto zeroAes) unitKey ones [1] := by
  refine ⟨idealCrypto_correct zeroAes, unitKey_correct, fun h => ?_⟩
  have hfull := full_of_roundTrip (idealCrypto_correct zeroAes) unitKey_correct onesDraws (by decide) h
  have hone : unitKey.e.val = 1 := val_setU32_one
  have hlt : (emMpi onesDraws.em).val < 2 ^ 2040 := val_emMpi_lt rfl
  rw [hone, pow_one] at hfull
  exact absurd (Nat.lt_of_le_of_lt (Nat.mod_le _ _) hlt) (Nat.not_lt.mpr hfull)

end Chicago95.Stage2.Pgp
