/-
# Chicago95.Stage2.Wpa2 — the station's half of the 4-way handshake, of `security/wifi_encrypt/wpa2_aes`.

`wpa2_handle_msg1` asks for `WPA2_STATE_ASSOCIATED`, which no function of the module sets, so that the state
stays `WPA2_STATE_DISCONNECTED` in every run (`Waiting`): message 1 is refused, and the three steps behind it
with it. And `wpa2_kdf` takes both nonces and reads neither.
-/
import Chicago95.Lib.Transition
import Chicago95.Stage2.Aes
import Mathlib.Data.List.GetD

namespace Chicago95.Stage2.Wpa2

open Chicago95.Lib.Transition
open Chicago95.Stage2.Aes (store)

/-! ## Constants and records -/

/-- `WPA2_PTK_LEN` -/
abbrev ptkLen : Nat := 38
/-- `WPA2_NONCE_LEN` -/
abbrev nonceLen : Nat := 32
/-- `WPA2_EAPOL_HDR_LEN` -/
def eapolHdrLen : UInt32 := 99

/-- `SEC_OK` and the errors returned here. -/
inductive SecStatus
  | ok | errBadParam | errCrypto | errState
  deriving DecidableEq

/-- `WPA2_STATE_*` -/
inductive HandshakeState
  | disconnected | associated | msg1Rcvd | msg2Sent | msg3Rcvd | msg4Sent | completed
  deriving DecidableEq

/-- The functions of other modules that are called here. -/
structure Primitives where
  /-- `sec_hmac_sha256`: byte `i` of `out` for this key and this data. -/
  hmacSha256 : List UInt8 → List UInt8 → Nat → UInt8
  /-- `sec_pbkdf2_sha1` with 4096 rounds: byte `i` of the key for this passphrase and this SSID. -/
  pbkdf2Sha1 : List UInt8 → List UInt8 → Nat → UInt8
  /-- What `key_data` holds after `sec_aes256_gcm_decrypt` with this key, IV, ciphertext and tag. -/
  gcmDecrypt : List UInt8 → List UInt8 → List UInt8 → List UInt8 → Nat → UInt8

/-- `wpa2_state_t`, less the fields that nothing reads. -/
structure Wpa2State where
  apBssid : Vector UInt8 6
  clientMac : Vector UInt8 6
  pmk : Vector UInt8 32
  ptk : Vector UInt8 ptkLen
  gtk : Vector UInt8 32
  gtkLen : UInt32
  anonce : Vector UInt8 nonceLen
  snonce : Vector UInt8 nonceLen
  handshakeState : HandshakeState
  replayCounter : UInt32
  installed : UInt8
  sessionId : UInt32
  packetsEncrypted : UInt64
  initialized : UInt8

/-- `n` bytes of memory from `pos` on. -/
def bytesAt (mem : Nat → UInt8) (pos n : Nat) : List UInt8 := (List.range n).map fun i => mem (pos + i)

/-- `n` bytes from `wpa2.ptk + 32` on. -/
def Wpa2State.temporalKey (s : Wpa2State) (n : Nat) : List UInt8 :=
  ((s.ptk.toList ++ s.gtk.toList).drop 32).take n

/-! ## Keys -/

/-- `"Pairwise key expansion"` -/
def kdfLabel : List UInt8 :=
  [0x50, 0x61, 0x69, 0x72, 0x77, 0x69, 0x73, 0x65, 0x20, 0x6B, 0x65, 0x79, 0x20, 0x65, 0x78, 0x70, 0x61, 0x6E,
   0x73, 0x69, 0x6F, 0x6E]

/-- `prf384`: thirteen bytes of each block, twelve of the last. -/
def prf384 (p : Primitives) (key : List UInt8) (label data : List UInt8) : Vector UInt8 ptkLen :=
  Vector.ofFn fun i => p.hmacSha256 key (label ++ data ++ [UInt8.ofNat (i.val / 13)]) (i.val % 13)

/-- `wpa2_kdf`; the nonces are not used. -/
def wpa2Kdf (p : Primitives) (s : Wpa2State) (pmk : Vector UInt8 32) (_nonceA _nonceB : Vector UInt8 nonceLen) :
    Vector UInt8 ptkLen :=
  prf384 p pmk.toList kdfLabel (s.clientMac.toList ++ s.apBssid.toList)

/-! ## The calls before the handshake -/

/-- `wpa2_aes_init`; `sessionId` is what `sec_random_u32` returns. -/
def wpa2AesInit (s : Wpa2State) (clientMac apBssid : Option (Vector UInt8 6)) (sessionId : UInt32) :
    Wpa2State × SecStatus :=
  match clientMac, apBssid with
  | some clientMac, some apBssid =>
    ({ apBssid := apBssid, clientMac := clientMac, pmk := Vector.replicate 32 0,
       ptk := Vector.replicate ptkLen 0, gtk := Vector.replicate 32 0, gtkLen := 0,
       anonce := Vector.replicate nonceLen 0, snonce := Vector.replicate nonceLen 0,
       handshakeState := .disconnected, replayCounter := 0, installed := 0, sessionId := sessionId,
       packetsEncrypted := 0, initialized := 1 }, .ok)
  | _, _ => (s, .errBadParam)

def wpa2SetPassphrase (p : Primitives) (s : Wpa2State) (passphrase : Option (List UInt8)) (ssid : List UInt8) :
    Wpa2State × SecStatus :=
  match passphrase with
  | none => (s, .errBadParam)
  | some passphrase =>
    if passphrase = [] then (s, .errBadParam)
    else ({ s with pmk := Vector.ofFn fun i => p.pbkdf2Sha1 passphrase ssid i }, .ok)

def wpa2SetPmk (s : Wpa2State) (pmk : Vector UInt8 32) : Wpa2State := { s with pmk := pmk }

/-- The first `n` bytes of `src`, over those of `gtk`. -/
def copyGtk (gtk : Vector UInt8 32) (src : Nat → UInt8) (n : Nat) : Vector UInt8 32 :=
  Vector.ofFn fun i => if i.val < n then src i else gtk.get i

def wpa2AesSetKeys (s : Wpa2State) (ptk : Option (Vector UInt8 ptkLen)) (gtk : Option (Nat → UInt8))
    (gtkLen : UInt32) : Wpa2State :=
  let s := match ptk with
    | some ptk => { s with ptk := ptk }
    | none => s
  match gtk with
  | some gtk => { s with gtk := copyGtk s.gtk gtk gtkLen.toNat, gtkLen := gtkLen }
  | none => s

/-! ## The frames of the station -/

/-- The bytes of `build_eapol_key` before the MIC; `iv` is what `sec_random_bytes` returns. -/
def eapolHead (s : Wpa2State) (keyDesc : UInt16) (type : UInt8) (keyDataLen : UInt16) (iv : Vector UInt8 16) :
    List UInt8 :=
  let eapolLen := 95 + keyDataLen
  let info := keyDesc ||| 0x0008
  let info := if type = 2 then info ||| 0x0002 else info
  let rc := s.replayCounter.toNat
  let ethernet : List UInt8 := List.replicate 6 0xFF ++ s.clientMac.toList ++ [0x88, 0x8E]
  let eapol : List UInt8 := [0x01, 0x03, (eapolLen >>> 8).toUInt8, eapolLen.toUInt8]
  let descriptor : List UInt8 := [type, (info >>> 8).toUInt8, info.toUInt8, 0x00, 0x00]
  ethernet ++ eapol ++ descriptor ++
  (List.range 8).map (fun i => UInt8.ofNat (rc / 2 ^ (56 - i * 8))) ++
  s.snonce.toList ++ iv.toList ++ List.replicate 8 0 ++ List.replicate 8 0

/-- Where `build_eapol_key` leaves sixteen bytes for the MIC. -/
def micPos : Nat := 95
/-- The `pos` that `build_eapol_key` returns. -/
def eapolKeyLen : Nat := 113

/-- `build_eapol_key`: the frame in `out`. -/
def buildEapolKey (s : Wpa2State) (out : Nat → UInt8) (keyDesc : UInt16) (type : UInt8) (keyDataLen : UInt16)
    (iv : Vector UInt8 16) : Wpa2State × (Nat → UInt8) :=
  let head := store out 0 (eapolHead s keyDesc type keyDataLen iv)
  ({ s with replayCounter := s.replayCounter + 1 },
    store head (micPos + 16) [(keyDataLen >>> 8).toUInt8, keyDataLen.toUInt8])

/-- The MIC over a frame of `len` bytes without its Ethernet header. -/
def frameMic (p : Primitives) (ptk : Vector UInt8 ptkLen) (frame : Nat → UInt8) (len : Nat) : List UInt8 :=
  (List.range 16).map (p.hmacSha256 (ptk.toList.take 16) (bytesAt frame 14 (len - 14)))

/-- `wpa2_build_msg2`: the frame in `out`. -/
def wpa2BuildMsg2 (p : Primitives) (s : Wpa2State) (out : Option (Nat → UInt8)) (iv : Vector UInt8 16) :
    Wpa2State × SecStatus × Option (Nat → UInt8) :=
  match out with
  | none => (s, .errBadParam, none)
  | some out =>
    if s.handshakeState ≠ .msg1Rcvd then (s, .errState, none)
    else
      let s := { s with ptk := wpa2Kdf p s s.pmk s.snonce s.anonce }
      let (s, frame) := buildEapolKey s out 0x0000 0x02 0 iv
      let frame := store frame micPos (frameMic p s.ptk frame eapolKeyLen)
      ({ s with handshakeState := .msg2Sent, packetsEncrypted := s.packetsEncrypted + 1 }, .ok, some frame)

def wpa2BuildMsg4 (p : Primitives) (s : Wpa2State) (out : Option (Nat → UInt8)) (iv : Vector UInt8 16) :
    Wpa2State × SecStatus × Option (Nat → UInt8) :=
  match out with
  | none => (s, .errBadParam, none)
  | some out =>
    if s.handshakeState ≠ .msg3Rcvd then (s, .errState, none)
    else
      let (s, frame) := buildEapolKey s out 0x0000 0x02 0 iv
      let frame := store frame micPos (frameMic p s.ptk frame eapolKeyLen)
      ({ s with handshakeState := .completed, installed := 1 }, .ok, some frame)

/-! ## The frames of the access point -/

/-- Where the handlers expect the `eapol_key_frame_t`. -/
def framePos : Nat := 22
/-- `key_nonce` -/
def keyNoncePos : Nat := framePos + 13
/-- `key_iv` -/
def keyIvPos : Nat := keyNoncePos + 32
/-- `key_mic` -/
def keyMicPos : Nat := keyIvPos + 32
/-- `key_data_len` -/
def keyDataLenPos : Nat := keyMicPos + 16
/-- `eapol + 22 + sizeof(eapol_key_frame_t)` -/
def keyDataPos : Nat := keyDataLenPos + 2

def wpa2HandleMsg1 (s : Wpa2State) (eapol : Option (Nat → UInt8)) (len : UInt32) : Wpa2State × SecStatus :=
  match eapol with
  | none => (s, .errBadParam)
  | some eapol =>
    if len < eapolHdrLen then (s, .errBadParam)
    else if s.handshakeState ≠ .associated then (s, .errState)
    else ({ s with anonce := Vector.ofFn fun i => eapol (keyNoncePos + i), handshakeState := .msg1Rcvd }, .ok)

/-- The loop over the key data: where the group key lies and its length. -/
def parseKeyData (keyData : Nat → UInt8) (keyDataLen kpos : Nat) : Option (Nat × Nat) :=
  if kpos + 2 < keyDataLen then
    let ktype := keyData kpos
    let klen := (keyData (kpos + 1)).toNat
    if ktype = 0xDD ∧ 24 ≤ klen then some (kpos + 2 + 24, klen - 24)
    else parseKeyData keyData keyDataLen (kpos + 2 + klen)
  else none
termination_by keyDataLen - kpos

/-- The check of the MIC in `wpa2_handle_msg3`. -/
def micVerifies (p : Primitives) (ptk : Vector UInt8 ptkLen) (eapol : Nat → UInt8) (len : UInt32) : Bool :=
  decide (frameMic p ptk eapol len.toNat = bytesAt eapol keyMicPos 16)

/-- `wpa2_handle_msg3`; `key_data_len` is in the order of the machine, and what the decryption returns is
not looked at. -/
def wpa2HandleMsg3 (p : Primitives) (s : Wpa2State) (eapol : Option (Nat → UInt8)) (len : UInt32) :
    Wpa2State × SecStatus :=
  match eapol with
  | none => (s, .errBadParam)
  | some eapol =>
    if len < eapolHdrLen then (s, .errBadParam)
    else if s.handshakeState ≠ .msg2Sent then (s, .errState)
    else if micVerifies p s.ptk eapol len = true then
      let keyDataLen := (eapol keyDataLenPos).toNat + 256 * (eapol (keyDataLenPos + 1)).toNat
      let keyData := p.gcmDecrypt (s.temporalKey 32) (bytesAt eapol keyIvPos 16)
        (bytesAt eapol keyDataPos keyDataLen) (bytesAt eapol keyMicPos 16)
      let s := match parseKeyData keyData keyDataLen 0 with
        | some (pos, n) =>
          { s with gtk := copyGtk s.gtk (fun i => keyData (pos + i)) n, gtkLen := n.toUInt32 }
        | none => s
      ({ s with handshakeState := .msg3Rcvd }, .ok)
    else (s, .errCrypto)

/-! ## Runs -/

/-- A call of the module. -/
inductive Call
  | init (clientMac apBssid : Option (Vector UInt8 6)) (sessionId : UInt32)
  | setPassphrase (passphrase : Option (List UInt8)) (ssid : List UInt8)
  | setPmk (pmk : Vector UInt8 32)
  | setKeys (ptk : Option (Vector UInt8 ptkLen)) (gtk : Option (Nat → UInt8)) (gtkLen : UInt32)
  | handleMsg1 (eapol : Option (Nat → UInt8)) (len : UInt32)
  | buildMsg2 (out : Option (Nat → UInt8)) (iv : Vector UInt8 16)
  | handleMsg3 (eapol : Option (Nat → UInt8)) (len : UInt32)
  | buildMsg4 (out : Option (Nat → UInt8)) (iv : Vector UInt8 16)
  | frameOrStats
  -- `wpa2_aes_encrypt_frame`, `wpa2_aes_decrypt_frame` and `wpa2_aes_get_stats` write nothing of `wpa2`

/-- What a call has done for the handshake. -/
inductive Event
  | started | msg1Accepted | msg2Built | msg3Verified | msg4Built | other
  deriving DecidableEq

/-- The event of a call that returns `SEC_OK`. -/
def eventOf (status : SecStatus) (event : Event) : Event := if status = .ok then event else .other

/-- One call, and what it has done. -/
def Call.run (p : Primitives) (s : Wpa2State) : Call → Wpa2State × Event
  | .init clientMac apBssid sessionId =>
    let r := wpa2AesInit s clientMac apBssid sessionId
    (r.1, eventOf r.2 .started)
  | .setPassphrase passphrase ssid => ((wpa2SetPassphrase p s passphrase ssid).1, .other)
  | .setPmk pmk => (wpa2SetPmk s pmk, .other)
  | .setKeys ptk gtk gtkLen => (wpa2AesSetKeys s ptk gtk gtkLen, .other)
  | .handleMsg1 eapol len =>
    let r := wpa2HandleMsg1 s eapol len
    (r.1, eventOf r.2 .msg1Accepted)
  | .buildMsg2 out iv =>
    let r := wpa2BuildMsg2 p s out iv
    (r.1, eventOf r.2.1 .msg2Built)
  | .handleMsg3 eapol len =>
    let r := wpa2HandleMsg3 p s eapol len
    (r.1, eventOf r.2 .msg3Verified)
  | .buildMsg4 out iv =>
    let r := wpa2BuildMsg4 p s out iv
    (r.1, eventOf r.2.1 .msg4Built)
  | .frameOrStats => (s, .other)

/-- The station and what has happened since `wpa2_aes_init`. -/
structure Session where
  wpa2 : Wpa2State
  events : List Event

/-- One call of a run. -/
def Call.next (p : Primitives) (s : Session) (c : Call) : Session :=
  let r := c.run p s.wpa2
  { wpa2 := r.1, events := if r.2 = .started then [] else s.events ++ [r.2] }

/-- The handshake has taken place: its four steps, in this order. -/
def Completed (events : List Event) : Prop :=
  [Event.msg1Accepted, .msg2Built, .msg3Verified, .msg4Built].Sublist events

/-- The PTK that message 2 would be built with after this message 1. -/
def derivedPtk (p : Primitives) (s : Wpa2State) (eapol : Nat → UInt8) : Vector UInt8 ptkLen :=
  wpa2Kdf p s s.pmk s.snonce (Vector.ofFn fun i => eapol (keyNoncePos + i))

/-- Message 1, message 2, message 3 and message 4, with the buffers and the random bytes of the two that the
station builds. -/
structure Exchange where
  msg1 : Nat → UInt8
  len1 : UInt32
  out2 : Nat → UInt8
  iv2 : Vector UInt8 16
  msg3 : Nat → UInt8
  len3 : UInt32
  out4 : Nat → UInt8
  iv4 : Vector UInt8 16

/-- The calls of the station for them. -/
def Exchange.calls (x : Exchange) : List Call :=
  [.handleMsg1 (some x.msg1) x.len1, .buildMsg2 (some x.out2) x.iv2, .handleMsg3 (some x.msg3) x.len3,
    .buildMsg4 (some x.out4) x.iv4]

/-- **An honest access point** sends messages 1 and 3 that are long enough, and the MIC of message 3 is right
under the PTK of the two. -/
structure Exchange.Honest (p : Primitives) (s : Wpa2State) (x : Exchange) : Prop where
  long1 : eapolHdrLen ≤ x.len1
  long3 : eapolHdrLen ≤ x.len3
  verifies : micVerifies p (derivedPtk p s x.msg1) x.msg3 x.len3 = true

/-- The run ends in such an exchange. -/
def EndsHonest (p : Primitives) (s₀ : Session) (calls : List Call) : Prop :=
  ∃ (pre : List Call) (x : Exchange), calls = pre ++ x.calls ∧ x.Honest p (pre.foldl (Call.next p) s₀).wpa2

/-- The keys are installed exactly after a completed handshake, and an honest access point brings it
about. -/
def Installs (p : Primitives) (s₀ : Session) (calls : List Call) : Prop :=
  let s := calls.foldl (Call.next p) s₀
  (s.wpa2.installed = 1 ↔ Completed s.events) ∧ (EndsHonest p s₀ calls → s.wpa2.installed = 1)

/-! ## The state that nothing sets -/

section Refused

variable {p : Primitives} {s : Wpa2State}

theorem handleMsg1_refused (h : s.handshakeState ≠ .associated) (eapol : Option (Nat → UInt8)) (len : UInt32) :
    (wpa2HandleMsg1 s eapol len).1 = s ∧ (wpa2HandleMsg1 s eapol len).2 ≠ .ok := by
  rcases eapol with _ | eapol
  · exact ⟨rfl, nofun⟩
  · simp only [wpa2HandleMsg1, if_pos h]
    split <;> exact ⟨rfl, nofun⟩

theorem buildMsg2_refused (h : s.handshakeState ≠ .msg1Rcvd) (out : Option (Nat → UInt8))
    (iv : Vector UInt8 16) : (wpa2BuildMsg2 p s out iv).1 = s ∧ (wpa2BuildMsg2 p s out iv).2.1 ≠ .ok := by
  rcases out with _ | out
  · exact ⟨rfl, nofun⟩
  · simp only [wpa2BuildMsg2, if_pos h]
    exact ⟨trivial, nofun⟩

theorem handleMsg3_refused (h : s.handshakeState ≠ .msg2Sent) (eapol : Option (Nat → UInt8)) (len : UInt32) :
    (wpa2HandleMsg3 p s eapol len).1 = s ∧ (wpa2HandleMsg3 p s eapol len).2 ≠ .ok := by
  rcases eapol with _ | eapol
  · exact ⟨rfl, nofun⟩
  · simp only [wpa2HandleMsg3, if_pos h]
    split <;> exact ⟨rfl, nofun⟩

theorem buildMsg4_refused (h : s.handshakeState ≠ .msg3Rcvd) (out : Option (Nat → UInt8))
    (iv : Vector UInt8 16) : (wpa2BuildMsg4 p s out iv).1 = s ∧ (wpa2BuildMsg4 p s out iv).2.1 ≠ .ok := by
  rcases out with _ | out
  · exact ⟨rfl, nofun⟩
  · simp only [wpa2BuildMsg4, if_pos h]
    exact ⟨trivial, nofun⟩

theorem eventOf_refused {status : SecStatus} (h : status ≠ .ok) (event : Event) :
    eventOf status event = .other := if_neg h

theorem setPassphrase_state (passphrase : Option (List UInt8)) (ssid : List UInt8) :
    (wpa2SetPassphrase p s passphrase ssid).1.handshakeState = s.handshakeState ∧
      (wpa2SetPassphrase p s passphrase ssid).1.installed = s.installed := by
  rcases passphrase with _ | passphrase
  · exact ⟨rfl, rfl⟩
  · unfold wpa2SetPassphrase
    dsimp only
    split <;> exact ⟨rfl, rfl⟩

theorem setKeys_state (ptk : Option (Vector UInt8 ptkLen)) (gtk : Option (Nat → UInt8)) (gtkLen : UInt32) :
    (wpa2AesSetKeys s ptk gtk gtkLen).handshakeState = s.handshakeState ∧
      (wpa2AesSetKeys s ptk gtk gtkLen).installed = s.installed := by
  unfold wpa2AesSetKeys
  rcases ptk with _ | ptk <;> rcases gtk with _ | gtk <;> simp only [and_self]

end Refused

/-- Nothing of the handshake has happened. -/
structure Waiting (s : Session) : Prop where
  state : s.wpa2.handshakeState = .disconnected
  installed : s.wpa2.installed = 0
  events : ∀ e ∈ s.events, e = .other

theorem Waiting.run {p : Primitives} {s : Session} (h : Waiting s) (c : Call) :
    (c.run p s.wpa2).1.handshakeState = .disconnected ∧ (c.run p s.wpa2).1.installed = 0 ∧
      ((c.run p s.wpa2).2 = .started ∨ (c.run p s.wpa2).2 = .other) := by
  have hkept : ∀ t : Wpa2State, t = s.wpa2 → t.handshakeState = .disconnected ∧ t.installed = 0 := by
    rintro t rfl
    exact ⟨h.state, h.installed⟩
  cases c with
  | init clientMac apBssid sessionId =>
    rcases clientMac with _ | clientMac
    · exact ⟨h.state, h.installed, Or.inr rfl⟩
    · rcases apBssid with _ | apBssid
      · exact ⟨h.state, h.installed, Or.inr rfl⟩
      · exact ⟨rfl, rfl, Or.inl rfl⟩
  | setPassphrase passphrase ssid =>
    obtain ⟨hstate, hinstalled⟩ := setPassphrase_state (p := p) (s := s.wpa2) passphrase ssid
    exact ⟨hstate.trans h.state, hinstalled.trans h.installed, Or.inr rfl⟩
  | setPmk pmk => exact ⟨h.state, h.installed, Or.inr rfl⟩
  | setKeys ptk gtk gtkLen =>
    obtain ⟨hstate, hinstalled⟩ := setKeys_state (s := s.wpa2) ptk gtk gtkLen
    exact ⟨hstate.trans h.state, hinstalled.trans h.installed, Or.inr rfl⟩
  | handleMsg1 eapol len =>
    -- the state that message 1 asks for is not there
    obtain ⟨hsame, hstatus⟩ := handleMsg1_refused (s := s.wpa2) (by rw [h.state]; decide) eapol len
    exact ⟨(hkept _ hsame).1, (hkept _ hsame).2, Or.inr (eventOf_refused hstatus _)⟩
  | buildMsg2 out iv =>
    obtain ⟨hsame, hstatus⟩ := buildMsg2_refused (p := p) (s := s.wpa2) (by rw [h.state]; decide) out iv
    exact ⟨(hkept _ hsame).1, (hkept _ hsame).2, Or.inr (eventOf_refused hstatus _)⟩
  | handleMsg3 eapol len =>
    obtain ⟨hsame, hstatus⟩ := handleMsg3_refused (p := p) (s := s.wpa2) (by rw [h.state]; decide) eapol len
    exact ⟨(hkept _ hsame).1, (hkept _ hsame).2, Or.inr (eventOf_refused hstatus _)⟩
  | buildMsg4 out iv =>
    obtain ⟨hsame, hstatus⟩ := buildMsg4_refused (p := p) (s := s.wpa2) (by rw [h.state]; decide) out iv
    exact ⟨(hkept _ hsame).1, (hkept _ hsame).2, Or.inr (eventOf_refused hstatus _)⟩
  | frameOrStats => exact ⟨h.state, h.installed, Or.inr rfl⟩

theorem Waiting.next {p : Primitives} {s : Session} (h : Waiting s) (c : Call) : Waiting (c.next p s) := by
  obtain ⟨hstate, hinstalled, hevent⟩ := h.run c
  refine ⟨hstate, hinstalled, fun e he => ?_⟩
  simp only [Call.next] at he
  rcases hevent with hstarted | hother
  · rw [if_pos hstarted] at he
    cases he
  · rw [hother, if_neg (by decide)] at he
    rcases List.mem_append.mp he with he | he
    · exact h.events e he
    · exact List.mem_singleton.mp he

theorem Waiting.foldl {p : Primitives} : ∀ (calls : List Call) {s : Session}, Waiting s →
    Waiting (calls.foldl (Call.next p) s)
  | [], _, h => h
  | c :: calls, _, h => Waiting.foldl calls (h.next c)

theorem Waiting.not_completed {s : Session} (h : Waiting s) : ¬ Completed s.events := fun hc => by
  have := h.events _ (hc.subset List.mem_cons_self)
  cases this

/-- The station after `wpa2_aes_init`. -/
def start (s : Wpa2State) (clientMac apBssid : Vector UInt8 6) (sessionId : UInt32) : Session :=
  { wpa2 := (wpa2AesInit s (some clientMac) (some apBssid) sessionId).1, events := [] }

theorem waiting_start (s : Wpa2State) (clientMac apBssid : Vector UInt8 6) (sessionId : UInt32) :
    Waiting (start s clientMac apBssid sessionId) :=
  ⟨rfl, rfl, fun _ he => absurd he List.not_mem_nil⟩

/-- Functions that return zeros. -/
def quiet : Primitives :=
  { hmacSha256 := fun _ _ _ => 0, pbkdf2Sha1 := fun _ _ _ => 0, gcmDecrypt := fun _ _ _ _ _ => 0 }

/-- The variables of the module before it is used. -/
def zeroState : Wpa2State :=
  { apBssid := Vector.replicate 6 0, clientMac := Vector.replicate 6 0, pmk := Vector.replicate 32 0,
    ptk := Vector.replicate ptkLen 0, gtk := Vector.replicate 32 0, gtkLen := 0,
    anonce := Vector.replicate nonceLen 0, snonce := Vector.replicate nonceLen 0,
    handshakeState := .disconnected, replayCounter := 0, installed := 0, sessionId := 0,
    packetsEncrypted := 0, initialized := 0 }

/-- Frames of zeros, under a MIC of zeros. -/
def zeroExchange : Exchange :=
  { msg1 := fun _ => 0, len1 := 117, out2 := fun _ => 0, iv2 := Vector.replicate 16 0, msg3 := fun _ => 0,
    len3 := 117, out4 := fun _ => 0, iv4 := Vector.replicate 16 0 }

/-- The station right after `wpa2_aes_init`. -/
def zeroStart : Session := start zeroState (Vector.replicate 6 1) (Vector.replicate 6 2) 0

theorem zeroExchange_verifies (s : Wpa2State) :
    micVerifies quiet (derivedPtk quiet s zeroExchange.msg1) zeroExchange.msg3 zeroExchange.len3 = true :=
  decide_eq_true (List.map_congr_left fun _ _ => rfl)

/-- Two stations with the same PMK and the same addresses. -/
structure SamePeers (s t : Wpa2State) : Prop where
  pmk : s.pmk = t.pmk
  clientMac : s.clientMac = t.clientMac
  apBssid : s.apBssid = t.apBssid

theorem buildMsg2_ptk {p : Primitives} {s : Wpa2State} (h : s.handshakeState = .msg1Rcvd)
    (out : Nat → UInt8) (iv : Vector UInt8 16) : (wpa2BuildMsg2 p s (some out) iv).2.1 = .ok ∧
      (wpa2BuildMsg2 p s (some out) iv).1.ptk =
        prf384 p s.pmk.toList kdfLabel (s.clientMac.toList ++ s.apBssid.toList) := by
  have hstate : ¬ s.handshakeState ≠ .msg1Rcvd := fun hne => hne h
  simp only [wpa2BuildMsg2, if_neg hstate]
  exact ⟨trivial, rfl⟩

/-- **No PTK is fresh**: two handshakes with the same PMK and addresses derive the same one, although their
nonces are different. -/
theorem ptk_not_fresh (p : Primitives) (s t : Wpa2State) (hs : s.handshakeState = .msg1Rcvd)
    (ht : t.handshakeState = .msg1Rcvd) (hsame : SamePeers s t)
    (_hother : s.anonce ≠ t.anonce ∨ s.snonce ≠ t.snonce) (out out' : Nat → UInt8) (iv iv' : Vector UInt8 16) :
    ¬ (wpa2BuildMsg2 p s (some out) iv).1.ptk ≠ (wpa2BuildMsg2 p t (some out') iv').1.ptk := by
  intro hne
  apply hne
  rw [(buildMsg2_ptk hs out iv).2, (buildMsg2_ptk ht out' iv').2, hsame.pmk, hsame.clientMac, hsame.apBssid]

/-- An HMAC that gives its message back, with a one behind it. -/
def transparent : Primitives :=
  { quiet with hmacSha256 := fun _ data i => (data ++ [1]).getD i 0 }

theorem getD_append_one (d : List UInt8) (i : Nat) :
    (d ++ [(1 : UInt8)]).getD i 0 = if i < d.length then d.getD i 0 else if i = d.length then 1 else 0 := by
  by_cases hlt : i < d.length
  · rw [if_pos hlt, List.getD_append _ _ _ _ hlt]
  · rw [if_neg hlt, List.getD_append_right _ _ _ _ (by omega)]
    by_cases heq : i = d.length
    · rw [if_pos heq, heq, Nat.sub_self]
      rfl
    · rw [if_neg heq]
      exact List.getD_eq_default _ _ (by rw [List.length_singleton]; omega)

theorem transparent_injective (key : List UInt8) : Function.Injective (transparent.hmacSha256 key) := by
  intro d e h
  have hat : ∀ i, (d ++ [(1 : UInt8)]).getD i 0 = (e ++ [(1 : UInt8)]).getD i 0 := fun i => congrFun h i
  simp only [getD_append_one] at hat
  -- the one stands where the message ends
  have hlen : d.length = e.length := by
    rcases Nat.lt_trichotomy d.length e.length with hlt | heq | hgt
    · have := hat e.length
      rw [if_neg (by omega), if_neg (by omega), if_neg (Nat.lt_irrefl _), if_pos rfl] at this
      exact absurd this (by decide)
    · exact heq
    · have := hat d.length
      rw [if_neg (Nat.lt_irrefl _), if_pos rfl, if_neg (by omega), if_neg (by omega)] at this
      exact absurd this.symm (by decide)
  refine List.ext_getElem hlen fun i hd he => ?_
  have := hat i
  rw [if_pos hd, if_pos he] at this
  simpa [hd, he] using this

/-- A station that has accepted a message 1 with this nonce in it. -/
def withAnonce (b : UInt8) : Wpa2State :=
  (wpa2HandleMsg1 { zeroState with handshakeState := .associated } (some fun _ => b) 117).1

theorem withAnonce_ptk :
    (∀ key, Function.Injective (transparent.hmacSha256 key)) ∧ (withAnonce 1).anonce ≠ (withAnonce 2).anonce ∧
    (wpa2BuildMsg2 transparent (withAnonce 1) (some fun _ => 0) (Vector.replicate 16 0)).2.1 = .ok ∧
    (wpa2BuildMsg2 transparent (withAnonce 1) (some fun _ => 0) (Vector.replicate 16 0)).1.ptk =
      (wpa2BuildMsg2 transparent (withAnonce 2) (some fun _ => 0) (Vector.replicate 16 0)).1.ptk := by
  have h1 := buildMsg2_ptk (p := transparent) (s := withAnonce 1) rfl (fun _ => 0) (Vector.replicate 16 0)
  have h2 := buildMsg2_ptk (p := transparent) (s := withAnonce 2) rfl (fun _ => 0) (Vector.replicate 16 0)
  refine ⟨transparent_injective, by decide, h1.1, ?_⟩
  rw [h1.2, h2.2]
  rfl

/-- The theorem above on these two. -/
theorem withAnonce_not_fresh :
    ¬ (wpa2BuildMsg2 transparent (withAnonce 1) (some fun _ => 0) (Vector.replicate 16 0)).1.ptk ≠
      (wpa2BuildMsg2 transparent (withAnonce 2) (some fun _ => 0) (Vector.replicate 16 0)).1.ptk :=
  ptk_not_fresh transparent (withAnonce 1) (withAnonce 2) rfl rfl ⟨rfl, rfl, rfl⟩ (Or.inl (by decide)) _ _ _ _

end Chicago95.Stage2.Wpa2
