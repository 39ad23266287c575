/-
# Chicago95.Stage2.Wpa2Frames — the frames of `security/wifi_encrypt/wpa2_aes`, and AES-128-CCMP below them.

`sec_aes128_ccmp_decrypt` takes a pointer to a MIC and writes nothing there (`(void)mic`), so that
`wpa2_aes_decrypt_frame` compares the MIC field with sixteen bytes of its stack (`decryptFrame_ok_iff`). The
two functions put the packet number into the nonce in opposite orders, and the counter has sixteen bits.
-/
import Chicago95.Stage2.Wpa2
import Mathlib.Data.List.Nodup

namespace Chicago95.Stage2.Wpa2

open Chicago95.Lib.Keystream
open Chicago95.Stage2.Aes (store Block secAes256Init secAes256EncryptBlock)

/-! ## CCMP of `security/common/crypto` -/

/-- What these functions read that they do not set: what lies behind `rcon`, what the key schedule held
before, and the two shifts of an `int` by more bits than it has, which C leaves open. -/
structure FrameMemory where
  behind : Nat → UInt8
  stale : Vector UInt8 240
  shift40 : UInt16 → UInt8
  shift32 : UInt16 → UInt8

/-- `aes128_encrypt_block`: AES-256 with zeros behind the key. -/
def aes128EncryptBlock (m : FrameMemory) (key : List UInt8) (input : Block) : Block :=
  secAes256EncryptBlock (secAes256Init m.behind m.stale (key ++ List.replicate 16 0)) input

/-- `aes_block`: the nonce, the low two bytes of `block_counter` and 1. -/
def ccmpBlock (nonce : Vector UInt8 13) (blockCounter : UInt32) : Block :=
  nonce ++ #v[(blockCounter >>> 8).toUInt8, blockCounter.toUInt8, (0x01 : UInt8)]

/-- `keystream` -/
def ccmpKeystream (m : FrameMemory) (key : List UInt8) (nonce : Vector UInt8 13) (blockCounter : UInt32) :
    List UInt8 :=
  (aes128EncryptBlock m key (ccmpBlock nonce blockCounter)).toList

/-- The loop of `sec_aes128_ccmp_encrypt` and of `sec_aes128_ccmp_decrypt`. -/
def ccmpCrypt (m : FrameMemory) (key : List UInt8) (nonce : Vector UInt8 13) (input : List UInt8) :
    List UInt8 :=
  mask 16 (ccmpKeystream m key nonce) (· + 1) ((input.length + 15) / 16) 0 input

def micBlock (nonce : Vector UInt8 13) (len : UInt32) : List UInt8 :=
  (0x01 : UInt8) :: nonce.toList ++ [(len >>> 8).toUInt8, len.toUInt8]

/-- The eight bytes that `sec_aes128_ccmp_encrypt` writes to `mic`. -/
def ccmpMic (m : FrameMemory) (key : List UInt8) (nonce : Vector UInt8 13) (len : Nat) : List UInt8 :=
  (List.zipWith (· ^^^ ·) (micBlock nonce (UInt32.ofNat len))
    (ccmpKeystream m key nonce (UInt32.ofNat ((len + 15) / 16)))).take 8

/-! ## The frames -/

/-- The arguments of the two functions: the bytes they get, what is in `out`, and `*frame_counter`. -/
structure FrameArgs where
  input : List UInt8
  out : Nat → UInt8
  frameCounter : UInt16

/-- The nonce of `wpa2_aes_encrypt_frame`. -/
def encryptNonce (m : FrameMemory) (s : Wpa2State) (counter : UInt16) : Vector UInt8 13 :=
  Vector.replicate 1 (0 : UInt8) ++ s.apBssid ++
    #v[m.shift40 counter, m.shift32 counter, 0, 0, (counter >>> 8).toUInt8, counter.toUInt8]

/-- The CCMP header. -/
def ccmpHeader (nonce : Vector UInt8 13) : List UInt8 :=
  let n := fun i => nonce.toList.getD i 0
  [n 7, n 8, 0x00, n 12, n 11, n 10, n 9, n 8]

/-- `wpa2_aes_encrypt_frame`: `out`, `*out_len` and `*frame_counter`, where it returns `SEC_OK`. -/
def wpa2AesEncryptFrame (m : FrameMemory) (s : Wpa2State) (args : Option FrameArgs) :
    SecStatus × Option ((Nat → UInt8) × Nat × UInt16) :=
  match args with
  | none => (.errBadParam, none)
  | some a =>
    if s.installed = 0 then (.errState, none)
    else
      let nonce := encryptNonce m s a.frameCounter
      let key := s.temporalKey 16
      let out := store a.out 0 (ccmpHeader nonce)
      let out := store out 8 (ccmpCrypt m key nonce a.input)
      let out := store out (8 + a.input.length) (ccmpMic m key nonce a.input.length)
      (.ok, some (out, 8 + a.input.length + 16, a.frameCounter + 1))

/-- The nonce of `wpa2_aes_decrypt_frame`. -/
def decryptNonce (s : Wpa2State) (encrypted : List UInt8) : Vector UInt8 13 :=
  let hdr := fun i => encrypted.getD i 0
  Vector.replicate 1 (0 : UInt8) ++ s.clientMac ++ #v[hdr 3, hdr 4, hdr 5, hdr 6, hdr 1, hdr 0]

/-- `mic`: the last sixteen bytes. -/
def micField (encrypted : List UInt8) : List UInt8 := encrypted.drop (encrypted.length - 16)

/-- `wpa2_aes_decrypt_frame`: what it writes to `out`, whatever it returns, and `*out_len` and
`*frame_counter` where it returns `SEC_OK`. -/
def wpa2AesDecryptFrame (m : FrameMemory) (s : Wpa2State) (args : Option FrameArgs) (computedMic : Vector UInt8 16) :
    SecStatus × List UInt8 × Option (Nat × UInt16) :=
  match args with
  | none => (.errBadParam, [], none)
  | some a =>
    if s.installed = 0 then (.errState, [], none)
    else if a.input.length < 24 then (.errBadParam, [], none)
    else
      let nonce := decryptNonce s a.input
      let ctLen := a.input.length - 8 - 16
      let written := ccmpCrypt m (s.temporalKey 16) nonce ((a.input.drop 8).take ctLen)
      if computedMic.toList = micField a.input then (.ok, written, some (ctLen, a.frameCounter + 1))
      else (.errCrypto, written, none)

/-! ## What the MIC is compared with -/

theorem decryptFrame_ok_iff {m : FrameMemory} {s : Wpa2State} {a : FrameArgs} {computedMic : Vector UInt8 16}
    (hs : s.installed ≠ 0) (hlen : 24 ≤ a.input.length) :
    (wpa2AesDecryptFrame m s (some a) computedMic).1 = .ok ↔ computedMic.toList = micField a.input := by
  simp only [wpa2AesDecryptFrame, if_neg hs, if_neg (Nat.not_lt.mpr hlen)]
  by_cases h : computedMic.toList = micField a.input
  · rw [if_pos h]
    exact iff_of_true rfl h
  · rw [if_neg h]
    exact iff_of_false nofun h

theorem exists_other {n : Nat} (hn : n ≠ 0) (mic : List UInt8) : ∃ b : UInt8, List.replicate n b ≠ mic := by
  by_cases h : List.replicate n (0 : UInt8) = mic
  · refine ⟨1, ?_⟩
    intro h1
    have hbytes : (0 : UInt8) = 1 := (List.replicate_right_inj hn).mp (h.trans h1.symm)
    exact absurd hbytes (by decide)
  · exact ⟨0, h⟩

/-! ## Agreement -/

/-- The frame that is sent, where `out` held this before. -/
def sentFrame (m : FrameMemory) (s : Wpa2State) (a : FrameArgs) : List UInt8 :=
  match (wpa2AesEncryptFrame m s (some a)).2 with
  | some (out, outLen, _) => bytesAt out 0 outLen
  | none => []

/-- The peer has installed the same PTK, and its addresses are the other way round. -/
structure Mirrored (s r : Wpa2State) : Prop where
  sender : s.installed ≠ 0
  receiver : r.installed ≠ 0
  ptk : r.ptk = s.ptk
  clientMac : r.clientMac = s.apBssid
  apBssid : r.apBssid = s.clientMac

/-- The frame comes back as the plaintext, whatever the stack of the peer holds. -/
def RoundTrips (m : FrameMemory) (s r : Wpa2State) (a : FrameArgs) : Prop :=
  ∀ (computedMic : Vector UInt8 16) (out : Nat → UInt8) (counter : UInt16),
    let d := wpa2AesDecryptFrame m r (some { input := sentFrame m s a, out := out, frameCounter := counter })
      computedMic
    d.1 = .ok ∧ d.2.1 = a.input

/-- The frame with another MIC field is refused, whatever the stack holds. -/
def RejectsChangedMic (m : FrameMemory) (s r : Wpa2State) (a : FrameArgs) : Prop :=
  ∀ (mic : List UInt8) (computedMic : Vector UInt8 16) (out : Nat → UInt8) (counter : UInt16),
    mic.length = 16 → mic ≠ micField (sentFrame m s a) →
    (wpa2AesDecryptFrame m r
      (some { input := (sentFrame m s a).take ((sentFrame m s a).length - 16) ++ mic, out := out,
              frameCounter := counter }) computedMic).1 ≠ .ok

/-- A frame whose MIC field does not begin with the MIC that `sec_aes128_ccmp_encrypt` makes for its
ciphertext is refused. -/
def RejectsWrongMic (m : FrameMemory) (r : Wpa2State) : Prop :=
  ∀ (a : FrameArgs) (computedMic : Vector UInt8 16), 24 ≤ a.input.length →
    ccmpMic m (r.temporalKey 16) (decryptNonce r a.input) (a.input.length - 24) ≠ (micField a.input).take 8 →
    (wpa2AesDecryptFrame m r (some a) computedMic).1 ≠ .ok

/-- The nonces of a run of encryptions, the counter going from one to the next. -/
def noncesOf (m : FrameMemory) (s : Wpa2State) : List (List UInt8 × (Nat → UInt8)) → UInt16 →
    List (Vector UInt8 13)
  | [], _ => []
  | (plaintext, out) :: frames, counter =>
    match (wpa2AesEncryptFrame m s (some { input := plaintext, out := out, frameCounter := counter })).2 with
    | some (_, _, next) => encryptNonce m s counter :: noncesOf m s frames next
    | none => noncesOf m s frames counter

/-- No two frames of a run from counter 0 have the same nonce. -/
def NoncesDistinct (m : FrameMemory) (s : Wpa2State) : Prop := ∀ frames, (noncesOf m s frames 0).Nodup

section Parts

variable {m : FrameMemory} {s r : Wpa2State}

theorem encryptFrame_eq (hs : s.installed ≠ 0) (a : FrameArgs) : ∃ out, wpa2AesEncryptFrame m s (some a) =
      (.ok, some (out, 8 + a.input.length + 16, a.frameCounter + 1)) := by
  simp only [wpa2AesEncryptFrame, if_neg hs]
  exact ⟨_, rfl⟩

theorem length_sentFrame (hs : s.installed ≠ 0) (a : FrameArgs) :
    (sentFrame m s a).length = 8 + a.input.length + 16 := by
  obtain ⟨out, hout⟩ := encryptFrame_eq (m := m) hs a
  simp only [sentFrame, hout, bytesAt, List.length_map, List.length_range]

theorem not_roundTrips (h : Mirrored s r) (a : FrameArgs) : ¬ RoundTrips m s r a := by
  intro hround
  obtain ⟨b, hb⟩ := exists_other (n := 16) (by decide) (micField (sentFrame m s a))
  have hok := (hround (Vector.replicate 16 b) (fun _ => 0) 0).1
  rw [decryptFrame_ok_iff h.receiver (by simp only [length_sentFrame h.sender]; omega)] at hok
  exact hb (by rw [← hok, Vector.toList_replicate])

theorem micField_append {frame mic : List UInt8} (hmic : mic.length = 16) : micField (frame ++ mic) = mic := by
  rw [micField, List.length_append, hmic, Nat.add_sub_cancel]
  exact List.drop_left

theorem not_rejectsChangedMic (h : Mirrored s r) (a : FrameArgs) : ¬ RejectsChangedMic m s r a := by
  intro hreject
  obtain ⟨b, hb⟩ := exists_other (n := 16) (by decide) (micField (sentFrame m s a))
  -- the stack holds the changed field
  refine hreject (List.replicate 16 b) (Vector.replicate 16 b) (fun _ => 0) 0 List.length_replicate hb ?_
  have hlen := length_sentFrame (m := m) h.sender a
  rw [decryptFrame_ok_iff h.receiver (by
    simp only [List.length_append, List.length_take, List.length_replicate, hlen]
    omega)]
  rw [micField_append List.length_replicate, Vector.toList_replicate]

theorem not_rejectsWrongMic (h : Mirrored s r) : ¬ RejectsWrongMic m r := by
  intro hreject
  -- the nonce is read off the header, so that the MIC field may be anything
  obtain ⟨b, hb⟩ := exists_other (n := 8) (by decide)
    (ccmpMic m (r.temporalKey 16) (decryptNonce r (List.replicate 8 0)) 0)
  refine hreject { input := List.replicate 8 0 ++ List.replicate 16 b, out := fun _ => 0, frameCounter := 0 }
    (Vector.replicate 16 b) (by simp) ?_ ?_
  · rw [micField_append List.length_replicate, List.take_replicate]
    exact fun hmic => hb hmic.symm
  · rw [decryptFrame_ok_iff h.receiver (by simp), micField_append List.length_replicate,
      Vector.toList_replicate]

theorem noncesOf_eq (hs : s.installed ≠ 0) (frames : List (List UInt8 × (Nat → UInt8))) (counter : UInt16) :
    noncesOf m s frames counter =
      (List.range frames.length).map fun k => encryptNonce m s (counter + UInt16.ofNat k) := by
  induction frames generalizing counter with
  | nil => rfl
  | cons f frames ih =>
    obtain ⟨plaintext, out⟩ := f
    obtain ⟨sent, hsent⟩ := encryptFrame_eq (m := m) hs
      { input := plaintext, out := out, frameCounter := counter }
    have hshift : (fun k => encryptNonce m s (counter + UInt16.ofNat k)) ∘ Nat.succ =
        fun k => encryptNonce m s (counter + 1 + UInt16.ofNat k) := by
      funext k
      rw [Function.comp_apply, Nat.succ_eq_add_one, UInt16.ofNat_add, UInt16.add_assoc,
        UInt16.add_comm (UInt16.ofNat k)]
      rfl
    simp only [noncesOf, hsent, ih, List.length_cons, List.range_succ_eq_map, List.map_cons, List.map_map,
      hshift]
    congr 2
    exact (UInt16.add_zero counter).symm

theorem toList_encryptNonce (c : UInt16) : (encryptNonce m s c).toList =
      0 :: s.apBssid.toList ++ [m.shift40 c, m.shift32 c, 0, 0, (c >>> 8).toUInt8, c.toUInt8] := by
  have happend : (encryptNonce m s c).toList = (Vector.replicate 1 (0 : UInt8) ++ s.apBssid).toList ++ _ := Vector.toList_append
  rw [happend, Vector.toList_append]
  rfl

theorem encryptNonce_injective : Function.Injective (encryptNonce m s) := by
  intro c d h
  have hlist := congrArg Vector.toList h
  rw [toList_encryptNonce, toList_encryptNonce, List.append_cancel_left_eq] at hlist
  simp only [List.cons.injEq, true_and, and_true] at hlist
  obtain ⟨-, -, hhi, hlo⟩ := hlist
  have hhi' := congrArg UInt8.toNat hhi
  have hlo' := congrArg UInt8.toNat hlo
  have hc := c.toNat_lt
  have hd := d.toNat_lt
  simp only [UInt16.toNat_toUInt8, UInt16.toNat_shiftRight, Nat.shiftRight_eq_div_pow] at hhi' hlo'
  apply UInt16.toNat_inj.mp
  simp at hhi' hlo' hc hd
  omega

theorem noncesOf_nodup_iff (hs : s.installed ≠ 0) (frames : List (List UInt8 × (Nat → UInt8))) :
    (noncesOf m s frames 0).Nodup ↔ frames.length ≤ 2 ^ 16 := by
  rw [noncesOf_eq hs]
  constructor
  · intro hnodup
    by_contra hlong
    -- the counter comes round to where it began
    have hzero : (0 : Nat) ∈ List.range frames.length := List.mem_range.mpr (by omega)
    have hround : 2 ^ 16 ∈ List.range frames.length := List.mem_range.mpr (by omega)
    have hsame : encryptNonce m s (0 + UInt16.ofNat 0) = encryptNonce m s (0 + UInt16.ofNat (2 ^ 16)) := by
      congr 1
    exact absurd (List.inj_on_of_nodup_map hnodup hzero hround hsame) (by decide)
  · intro hshort
    refine (List.nodup_map_iff_inj_on List.nodup_range).mpr fun i hi j hj h => ?_
    have hij := congrArg UInt16.toNat (encryptNonce_injective h)
    rw [List.mem_range] at hi hj
    simp only [UInt16.zero_add, UInt16.toNat_ofNat'] at hij
    rwa [Nat.mod_eq_of_lt (by omega), Nat.mod_eq_of_lt (by omega)] at hij

theorem not_noncesDistinct (hs : s.installed ≠ 0) : ¬ NoncesDistinct m s := by
  intro hdistinct
  have hshort := (noncesOf_nodup_iff (m := m) hs _).mp (hdistinct (List.replicate (2 ^ 16 + 1) ([], fun _ => 0)))
  rw [List.length_replicate] at hshort
  omega

/-! ## The two nonces -/

theorem bytesAt_getD (mem : Nat → UInt8) {n i : Nat} (hi : i < n) : (bytesAt mem 0 n).getD i 0 = mem i := by
  simp [bytesAt, hi]

theorem sentFrame_header (hs : s.installed ≠ 0) (a : FrameArgs) {i : Nat} (hi : i < 8) :
    (sentFrame m s a).getD i 0 = (ccmpHeader (encryptNonce m s a.frameCounter)).getD i 0 := by
  have hheader : (ccmpHeader (encryptNonce m s a.frameCounter)).length = 8 := rfl
  simp only [sentFrame, wpa2AesEncryptFrame, if_neg hs]
  rw [bytesAt_getD _ (by omega)]
  unfold store
  rw [if_neg (by omega), if_neg (by omega), if_pos ⟨Nat.zero_le _, by omega⟩, Nat.sub_zero]

theorem toList_decryptNonce (h : Mirrored s r) (a : FrameArgs) : (decryptNonce r (sentFrame m s a)).toList =
      0 :: s.apBssid.toList ++ [a.frameCounter.toUInt8, (a.frameCounter >>> 8).toUInt8, 0, 0,
        m.shift32 a.frameCounter, m.shift40 a.frameCounter] := by
  have happend : (decryptNonce r (sentFrame m s a)).toList = (Vector.replicate 1 (0 : UInt8) ++ r.clientMac).toList ++ _ :=
    Vector.toList_append
  have hlist := toList_encryptNonce (m := m) (s := s) a.frameCounter
  -- byte `7 + i` of the nonce of the sender is byte `i` of its packet number
  have hbyte : ∀ i, (encryptNonce m s a.frameCounter).toList.getD (7 + i) 0 =
      [m.shift40 a.frameCounter, m.shift32 a.frameCounter, 0, 0, (a.frameCounter >>> 8).toUInt8,
        a.frameCounter.toUInt8].getD i 0 := by
    intro i
    have hlen : (0 :: s.apBssid.toList).length = 7 := by rw [List.length_cons, Vector.length_toList]
    rw [hlist, List.getD_append_right _ _ _ _ (by omega), hlen, Nat.add_sub_cancel_left]
  rw [happend, Vector.toList_append, h.clientMac]
  simp only [sentFrame_header h.sender a (show 0 < 8 by decide), sentFrame_header h.sender a (show 1 < 8 by decide),
    sentFrame_header h.sender a (show 3 < 8 by decide), sentFrame_header h.sender a (show 4 < 8 by decide),
    sentFrame_header h.sender a (show 5 < 8 by decide), sentFrame_header h.sender a (show 6 < 8 by decide)]
  have h7 := hbyte 0
  have h8 := hbyte 1
  have h9 := hbyte 2
  have h10 := hbyte 3
  have h11 := hbyte 4
  have h12 := hbyte 5
  simp only [Nat.reduceAdd, List.getD_cons_zero, List.getD_cons_succ] at h7 h8 h9 h10 h11 h12
  simp only [ccmpHeader, List.getD_cons_zero, List.getD_cons_succ, h7, h8, h9, h10, h11, h12]
  rfl

theorem nonces_agree_iff (h : Mirrored s r) (a : FrameArgs) :
    decryptNonce r (sentFrame m s a) = encryptNonce m s a.frameCounter ↔
      m.shift40 a.frameCounter = a.frameCounter.toUInt8 ∧
        m.shift32 a.frameCounter = (a.frameCounter >>> 8).toUInt8 := by
  rw [← Vector.toList_inj, toList_decryptNonce h, toList_encryptNonce, List.append_cancel_left_eq]
  simp only [List.cons.injEq, true_and, and_true]
  constructor
  · rintro ⟨h40, h32, -, -⟩
    exact ⟨h40.symm, h32.symm⟩
  · rintro ⟨h40, h32⟩
    exact ⟨h40.symm, h32.symm, h32, h40⟩

end Parts

/-- Under every key, for every plaintext and every counter, each part of the protection fails. -/
theorem frames_not_protected (m : FrameMemory) {s r : Wpa2State} (h : Mirrored s r) (a : FrameArgs) :
    ¬ RoundTrips m s r a ∧ ¬ RejectsChangedMic m s r a ∧ ¬ RejectsWrongMic m r ∧ ¬ NoncesDistinct m s :=
  ⟨not_roundTrips h a, not_rejectsChangedMic h a, not_rejectsWrongMic h, not_noncesDistinct h.sender⟩

/-- A machine whose memory is zero and whose shifts give zero. -/
def zeroMemory : FrameMemory :=
  { behind := fun _ => 0, stale := Vector.replicate 240 0, shift40 := fun _ => 0, shift32 := fun _ => 0 }

/-- An access point with the keys installed. -/
def keyedSender : Wpa2State :=
  { zeroState with apBssid := Vector.replicate 6 2, clientMac := Vector.replicate 6 1, installed := 1 }

/-- The station. -/
def keyedReceiver : Wpa2State :=
  { zeroState with apBssid := Vector.replicate 6 1, clientMac := Vector.replicate 6 2, installed := 1 }

/-- The frame of one byte with counter 1. -/
def oneByteFrame : FrameArgs := { input := [0x41], out := fun _ => 0, frameCounter := 1 }

theorem keyed_mirrored : Mirrored keyedSender keyedReceiver := ⟨by decide, by decide, rfl, rfl, rfl⟩

/-- The frame does not come back: the nonces are different, and what is compared is the stack. -/
theorem oneByteFrame_lost : ¬ RoundTrips zeroMemory keyedSender keyedReceiver oneByteFrame ∧
    decryptNonce keyedReceiver (sentFrame zeroMemory keyedSender oneByteFrame) ≠
      encryptNonce zeroMemory keyedSender 1 := by
  refine ⟨not_roundTrips keyed_mirrored oneByteFrame, fun hsame => ?_⟩
  have := ((nonces_agree_iff (m := zeroMemory) keyed_mirrored oneByteFrame).mp hsame).1
  revert this
  decide

theorem oneByteFrame_not_protected : ¬ RoundTrips zeroMemory keyedSender keyedReceiver oneByteFrame ∧
    ¬ RejectsChangedMic zeroMemory keyedSender keyedReceiver oneByteFrame ∧
    ¬ RejectsWrongMic zeroMemory keyedReceiver ∧ ¬ NoncesDistinct zeroMemory keyedSender :=
  frames_not_protected zeroMemory keyed_mirrored oneByteFrame

end Chicago95.Stage2.Wpa2
