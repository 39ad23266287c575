/-
# Chicago95.Stage2.Sae — the SAE handshake of `security/wifi_encrypt/wpa3_sae`.

Each party maps the password to an element, sends its scalar and its element in a commit frame, derives the
keys from the commit frame of the other, and checks the other's confirm frame. `Delivered` runs the code
against itself, each frame handed to the other side as it was built.
-/
import Chicago95.Stage2.Sha2
import Mathlib.Data.List.GetD

namespace Chicago95.Stage2.Sae

open Chicago95.Lib.Loop

/-! ## Constants and records -/

/-- `SEC_OK` and the errors returned here. -/
inductive SecStatus
  | ok | errBadParam | errCrypto | errState | errNotInit
  deriving DecidableEq

/-- `SAE_STATE_*` -/
inductive HandshakeState
  | disconnected | commitRcvd | confirmSent | confirmRcvd | completed
  deriving DecidableEq

/-- `SAE_SCALAR_LEN`, and the length of a coordinate. -/
abbrev scalarLen : Nat := 32
/-- `SAE_ELEMENT_LEN` -/
abbrev elementLen : Nat := 64
/-- `SAE_PMKID_LEN` -/
abbrev pmkidLen : Nat := 16

/-- `sae_element_t`: 32 bytes for each coordinate. -/
structure SaeElement where
  x : Vector UInt8 32
  y : Vector UInt8 32
  deriving DecidableEq

/-- `sae_state_t`, less the fields that nothing reads. -/
structure SaeState where
  apBssid : Vector UInt8 6
  apSsid : Vector UInt8 32
  apSsidLen : UInt32
  clientMac : Vector UInt8 6
  myScalar : Vector UInt8 scalarLen
  myElementX : Vector UInt8 elementLen
  myElementY : Vector UInt8 elementLen
  peerScalar : Vector UInt8 scalarLen
  peerElementX : Vector UInt8 elementLen
  peerElementY : Vector UInt8 elementLen
  password : Vector UInt8 64
  passwordLen : UInt32
  groupNum : UInt16
  pmk : Vector UInt8 32
  pmkid : Vector UInt8 pmkidLen
  kck : Vector UInt8 32
  kek : Vector UInt8 32
  tk : Vector UInt8 32
  myRand : Vector UInt8 32
  myPwe : SaeElement
  handshakeState : HandshakeState
  confirmSent : UInt32
  confirmReceived : UInt32
  installed : UInt8
  frameCounter : UInt32
  packetsEncrypted : UInt64
  initialized : UInt8

/-- What the stack holds where the code reads it: the buffer of `sec_sha256`, and the second half of `hash` in
`sae_hash_to_curve`. -/
structure SaeMemory where
  shaBuffer : Vector UInt8 64
  hashTail : Vector UInt8 32

/-- `sec_hmac_sha256`: byte `i` of `out` for this key and this data. -/
abbrev Hmac := List UInt8 → List UInt8 → Nat → UInt8

/-! ## The group -/

def ecPointAdd (a b : SaeElement) : SaeElement :=
  let lambda := Vector.zipWith (· ^^^ ·) a.x b.x
  { x := Vector.zipWith (· ^^^ ·) lambda a.y, y := Vector.zipWith (· ^^^ ·) lambda b.y }

/-- `qx, qy`, `tx, ty` and `found` of `ec_scalar_mult`. -/
structure ScalarMult where
  q : SaeElement
  t : SaeElement
  found : Bool

/-- `ec_scalar_mult`, from bit 255 of the scalar down. -/
def ecScalarMult (scalar : Vector UInt8 32) (g : SaeElement) : SaeElement :=
  (forEach 256 (fun i (s : ScalarMult) =>
    let bit := 255 - i
    let k := (scalar.toList.getD (bit / 8) 0).toNat.testBit (bit % 8)
    let q := if k = true then (if s.found = true then ecPointAdd s.q s.t else s.t) else s.q
    { q := q, t := ecPointAdd s.t s.t, found := s.found || k })
    { q := { x := Vector.replicate 32 0, y := Vector.replicate 32 0 }, t := g, found := false }).q

/-- `sae_hash_to_curve`. -/
def saeHashToCurve (m : SaeMemory) (ssid password : List UInt8) : SaeElement :=
  let hash := secSha256 m.shaBuffer (ssid ++ password ++ [0])
  { x := Vector.ofFn fun i => hash.getD i 0, y := m.hashTail }

/-! ## Keys -/

/-- `counter`, the highest byte first. -/
def counterBytes (n : Nat) : List UInt8 :=
  [UInt8.ofNat (n / 2 ^ 24), UInt8.ofNat (n / 2 ^ 16), UInt8.ofNat (n / 2 ^ 8), UInt8.ofNat n]

/-- `sae_kdf`: byte `i` of `out`. -/
def saeKdf (hmac : Hmac) (key label context : List UInt8) (i : Nat) : UInt8 :=
  hmac key (label ++ context ++ counterBytes (i / 32)) (i % 32)

/-- `"SAE Key Derivation"` -/
def keyLabel : List UInt8 :=
  [0x53, 0x41, 0x45, 0x20, 0x4B, 0x65, 0x79, 0x20, 0x44, 0x65, 0x72, 0x69, 0x76, 0x61, 0x74, 0x69, 0x6F, 0x6E]
/-- `"SAE Temporal Key"` -/
def temporalLabel : List UInt8 :=
  [0x53, 0x41, 0x45, 0x20, 0x54, 0x65, 0x6D, 0x70, 0x6F, 0x72, 0x61, 0x6C, 0x20, 0x4B, 0x65, 0x79]
/-- `"SAE PMK"` -/
def pmkLabel : List UInt8 := [0x53, 0x41, 0x45, 0x20, 0x50, 0x4D, 0x4B]

/-! ## The calls -/

def wpa3SaeInit (s : SaeState) (clientMac apBssid : Option (Vector UInt8 6)) : SaeState × SecStatus :=
  match clientMac, apBssid with
  | some clientMac, some apBssid =>
    ({ apBssid := apBssid, apSsid := Vector.replicate 32 0, apSsidLen := 0, clientMac := clientMac,
       myScalar := Vector.replicate 32 0, myElementX := Vector.replicate 64 0,
       myElementY := Vector.replicate 64 0, peerScalar := Vector.replicate 32 0,
       peerElementX := Vector.replicate 64 0, peerElementY := Vector.replicate 64 0,
       password := Vector.replicate 64 0, passwordLen := 0, groupNum := 19, pmk := Vector.replicate 32 0,
       pmkid := Vector.replicate 16 0, kck := Vector.replicate 32 0, kek := Vector.replicate 32 0,
       tk := Vector.replicate 32 0, myRand := Vector.replicate 32 0,
       myPwe := { x := Vector.replicate 32 0, y := Vector.replicate 32 0 }, handshakeState := .disconnected,
       confirmSent := 0, confirmReceived := 0, installed := 0, frameCounter := 0, packetsEncrypted := 0,
       initialized := 1 }, .ok)
  | _, _ => (s, .errBadParam)

def wpa3SaeSetPassword (s : SaeState) (password : Option (List UInt8)) : SaeState × SecStatus :=
  match password with
  | none => (s, .errBadParam)
  | some password =>
    if password.length = 0 ∨ 63 < password.length then (s, .errBadParam)
    else
      ({ s with
         password := Vector.ofFn fun i => if i.val < password.length then password.getD i 0 else s.password.get i
         passwordLen := UInt32.ofNat password.length }, .ok)

/-- 32 bytes, over the first half of an element. -/
def putCoordinate (element : Vector UInt8 elementLen) (x : Vector UInt8 32) : Vector UInt8 elementLen :=
  Vector.ofFn fun i => if i.val < 32 then x.toList.getD i 0 else element.get i

/-- The first half of an element. -/
def coordinate (element : Vector UInt8 elementLen) : Vector UInt8 32 :=
  Vector.ofFn fun i => element.toList.getD i 0

/-- `wpa3_sae_compute_pwe`; `rand` is what `sec_random_bytes` returns. -/
def wpa3SaeComputePwe (m : SaeMemory) (rand : Vector UInt8 32) (s : SaeState) : SaeState × SecStatus :=
  if s.initialized = 0 then (s, .errNotInit)
  else
    let pwe := saeHashToCurve m (s.apSsid.toList.take s.apSsidLen.toNat)
      (s.password.toList.take s.passwordLen.toNat)
    let element := ecScalarMult rand pwe
    ({ s with myRand := rand, myPwe := pwe, myElementX := putCoordinate s.myElementX element.x,
              myElementY := putCoordinate s.myElementY element.y, myScalar := rand }, .ok)

/-- `(group_num >> 8) & 0xFF`, `group_num & 0xFF` -/
def groupBytes (s : SaeState) : List UInt8 := [(s.groupNum >>> 8).toUInt8, s.groupNum.toUInt8]

/-- `wpa3_sae_build_commit`: the frame. -/
def wpa3SaeBuildCommit (s : SaeState) : SaeState × List UInt8 :=
  ({ s with packetsEncrypted := s.packetsEncrypted + 1 },
    [0x00] ++ groupBytes s ++ s.myScalar.toList ++ s.myElementX.toList ++ s.myElementY.toList ++ [0x01])

/-- `wpa3_sae_handle_commit`. -/
def wpa3SaeHandleCommit (hmac : Hmac) (m : SaeMemory) (s : SaeState) (frame : Option (List UInt8)) :
    SaeState × SecStatus :=
  match frame with
  | none => (s, .errBadParam)
  | some frame =>
    if frame.length < 2 + scalarLen + 2 * elementLen + 1 then (s, .errBadParam)
    else if s.handshakeState ≠ .disconnected then (s, .errState)
    else
      let peerScalar : Vector UInt8 scalarLen := Vector.ofFn fun i => frame.getD (3 + i) 0
      let peerElementX : Vector UInt8 elementLen := Vector.ofFn fun i => frame.getD (3 + scalarLen + i) 0
      let peerElementY : Vector UInt8 elementLen :=
        Vector.ofFn fun i => frame.getD (3 + scalarLen + elementLen + i) 0
      let shared := ecScalarMult s.myRand { x := coordinate peerElementX, y := coordinate peerElementY }
      let hash := secSha256 m.shaBuffer (peerScalar.toList ++ s.myScalar.toList ++ shared.x.toList)
      let pmkid : Vector UInt8 pmkidLen := Vector.ofFn fun i => hash.getD i 0
      let kckKek := saeKdf hmac shared.x.toList keyLabel pmkid.toList
      let kck : Vector UInt8 32 := Vector.ofFn fun i => kckKek i
      ({ s with
         peerScalar := peerScalar, peerElementX := peerElementX, peerElementY := peerElementY, pmkid := pmkid
         kck := kck
         kek := Vector.ofFn fun i => kckKek (32 + i)
         tk := Vector.ofFn fun i => saeKdf hmac kck.toList temporalLabel pmkid.toList i
         pmk := Vector.ofFn fun i => saeKdf hmac kck.toList pmkLabel pmkid.toList i
         handshakeState := .commitRcvd }, .ok)

/-- The hash over the scalar and the element of one side, then of the other. -/
def confirmHash (hmac : Hmac) (kck : Vector UInt8 32) (scalar : Vector UInt8 scalarLen)
    (element : Vector UInt8 elementLen) (scalar' : Vector UInt8 scalarLen) (element' : Vector UInt8 elementLen) :
    List UInt8 :=
  (List.range 32).map
    (hmac kck.toList (scalar.toList ++ element.toList ++ scalar'.toList ++ element'.toList))

/-- `wpa3_sae_build_confirm`: the frame. -/
def wpa3SaeBuildConfirm (hmac : Hmac) (s : SaeState) : SaeState × SecStatus × List UInt8 :=
  if s.handshakeState ≠ .commitRcvd then (s, .errState, [])
  else
    ({ s with confirmSent := 1, handshakeState := .confirmSent }, .ok,
      [0x00] ++ groupBytes s ++ [0x02] ++
        confirmHash hmac s.kck s.myScalar s.myElementX s.peerScalar s.peerElementX)

def wpa3SaeHandleConfirm (hmac : Hmac) (s : SaeState) (frame : Option (List UInt8)) : SaeState × SecStatus :=
  match frame with
  | none => (s, .errBadParam)
  | some frame =>
    if frame.length < 32 then (s, .errBadParam)
    else if s.handshakeState ≠ .confirmSent then (s, .errState)
    else if frame.take 32 = confirmHash hmac s.kck s.peerScalar s.peerElementX s.myScalar s.myElementX then
      ({ s with confirmReceived := 1, handshakeState := .completed, installed := 1 }, .ok)
    else (s, .errCrypto)

/-! ## Two parties -/

/-- A party before the handshake: `wpa3_sae_init`, the SSID in its field, `wpa3_sae_set_password`. -/
def ready (s : SaeState) (clientMac apBssid : Vector UInt8 6) (ssid : Vector UInt8 32) (ssidLen : UInt32)
    (password : List UInt8) : SaeState :=
  let s := (wpa3SaeInit s (some clientMac) (some apBssid)).1
  (wpa3SaeSetPassword { s with apSsid := ssid, apSsidLen := ssidLen } (some password)).1

/-- A party that has computed its element and has been handed the commit frame of the other. -/
def committed (hmac : Hmac) (m : SaeMemory) (rand : Vector UInt8 32) (s : SaeState) (commit : List UInt8) :
    SaeState :=
  (wpa3SaeHandleCommit hmac m (wpa3SaeBuildCommit (wpa3SaeComputePwe m rand s).1).1 (some commit)).1

/-- The commit frame of a party. -/
def commitOf (m : SaeMemory) (rand : Vector UInt8 32) (s : SaeState) : List UInt8 :=
  (wpa3SaeBuildCommit (wpa3SaeComputePwe m rand s).1).2

/-- Each party has the commit and the confirm frame of the other; what each returns for the confirm frame. -/
def delivered (hmac : Hmac) (ma mb : SaeMemory) (randA randB : Vector UInt8 32) (a b : SaeState) :
    (SaeState × SecStatus) × (SaeState × SecStatus) :=
  let a' := wpa3SaeBuildConfirm hmac (committed hmac ma randA a (commitOf mb randB b))
  let b' := wpa3SaeBuildConfirm hmac (committed hmac mb randB b (commitOf ma randA a))
  (wpa3SaeHandleConfirm hmac a'.1 (some b'.2.2), wpa3SaeHandleConfirm hmac b'.1 (some a'.2.2))

/-- Two parties have derived the same and have accepted each other. -/
structure Agree (a b : SaeState × SecStatus) : Prop where
  pwe : a.1.myPwe = b.1.myPwe
  pmkid : a.1.pmkid = b.1.pmkid
  kck : a.1.kck = b.1.kck
  pmk : a.1.pmk = b.1.pmk
  tk : a.1.tk = b.1.tk
  acceptsLeft : a.2 = .ok
  acceptsRight : b.2 = .ok

section Steps

variable {hmac : Hmac} {m : SaeMemory} {rand : Vector UInt8 32} {s : SaeState}

/-! ### What the frames carry -/

theorem buildCommit_frame (s : SaeState) : (wpa3SaeBuildCommit s).2 =
      [0x00] ++ groupBytes s ++ s.myScalar.toList ++ s.myElementX.toList ++ s.myElementY.toList ++ [0x01] := rfl

theorem getD_part {pre part post : List UInt8} {n i : Nat} (hn : pre.length = n) (hi : i < part.length) :
    (pre ++ part ++ post).getD (n + i) 0 = part.getD i 0 := by
  rw [List.append_assoc, List.getD_append_right _ _ _ _ (by omega), hn, Nat.add_sub_cancel_left,
    List.getD_append _ _ _ _ hi]

theorem ofFn_eq {n : Nat} {v : Vector UInt8 n} {f : Nat → UInt8} (h : ∀ i, i < n → f i = v.toList.getD i 0) :
    Vector.ofFn (fun i : Fin n => f i) = v := by
  refine Vector.ext fun i hi => ?_
  rw [Vector.getElem_ofFn, h i hi]
  simp [hi]

/-- **The commit frame** is read where it was written. -/
theorem handleCommit_built (hs : s.handshakeState = .disconnected) (t : SaeState) :
    (wpa3SaeHandleCommit hmac m s (some (wpa3SaeBuildCommit t).2)).2 = .ok ∧
    (wpa3SaeHandleCommit hmac m s (some (wpa3SaeBuildCommit t).2)).1.peerScalar = t.myScalar ∧
    (wpa3SaeHandleCommit hmac m s (some (wpa3SaeBuildCommit t).2)).1.peerElementX = t.myElementX ∧
    (wpa3SaeHandleCommit hmac m s (some (wpa3SaeBuildCommit t).2)).1.peerElementY = t.myElementY := by
  have hframe := buildCommit_frame t
  generalize (wpa3SaeBuildCommit t).2 = frame at hframe
  have hlen : frame.length = 164 := by
    simp only [hframe, groupBytes, List.length_append, Vector.length_toList, List.length_cons, List.length_nil]
    rfl
  have hstate : ¬ s.handshakeState ≠ .disconnected := fun h => h hs
  have hlong : ¬ frame.length < 2 + scalarLen + 2 * elementLen + 1 := by rw [hlen]; decide
  have hhead : ([0x00] ++ groupBytes t).length = 3 := rfl
  have hscalar : ∀ i, i < scalarLen → frame.getD (3 + i) 0 = t.myScalar.toList.getD i 0 := by
    intro i hi
    rw [hframe, List.append_assoc, List.append_assoc]
    exact getD_part hhead (by rw [Vector.length_toList]; exact hi)
  have hx : ∀ i, i < elementLen → frame.getD (3 + scalarLen + i) 0 = t.myElementX.toList.getD i 0 := by
    intro i hi
    rw [hframe, List.append_assoc (_ ++ t.myElementX.toList)]
    exact getD_part (by rw [List.length_append, hhead, Vector.length_toList])
      (by rw [Vector.length_toList]; exact hi)
  have hy : ∀ i, i < elementLen → frame.getD (3 + scalarLen + elementLen + i) 0 = t.myElementY.toList.getD i 0 := by
    intro i hi
    rw [hframe]
    exact getD_part (by rw [List.length_append, List.length_append, hhead, Vector.length_toList,
      Vector.length_toList]) (by rw [Vector.length_toList]; exact hi)
  simp only [wpa3SaeHandleCommit, if_neg hlong, if_neg hstate]
  exact ⟨trivial, ofFn_eq (f := fun i => frame.getD (3 + i) 0) hscalar,
    ofFn_eq (f := fun i => frame.getD (3 + scalarLen + i) 0) hx,
    ofFn_eq (f := fun i => frame.getD (3 + scalarLen + elementLen + i) 0) hy⟩

theorem handleConfirm_ok_iff (hs : s.handshakeState = .confirmSent) {frame : List UInt8} (hlen : 32 ≤ frame.length) :
    (wpa3SaeHandleConfirm hmac s (some frame)).2 = .ok ↔
      frame.take 32 = confirmHash hmac s.kck s.peerScalar s.peerElementX s.myScalar s.myElementX := by
  have hstate : ¬ s.handshakeState ≠ .confirmSent := fun h => h hs
  simp only [wpa3SaeHandleConfirm, if_neg (Nat.not_lt.mpr hlen), if_neg hstate]
  split <;> simp_all

/-- The frame that `wpa3_sae_build_confirm` makes is accepted when the expected hash is its header and the
first 28 bytes of its hash. -/
theorem handleConfirm_built_iff (hs : s.handshakeState = .confirmSent) {t : SaeState}
    (ht : t.handshakeState = .commitRcvd) :
    (wpa3SaeHandleConfirm hmac s (some (wpa3SaeBuildConfirm hmac t).2.2)).2 = .ok ↔ [0x00] ++ groupBytes t ++ [0x02] ++
        (confirmHash hmac t.kck t.myScalar t.myElementX t.peerScalar t.peerElementX).take 28 =
      confirmHash hmac s.kck s.peerScalar s.peerElementX s.myScalar s.myElementX := by
  have hstate : ¬ t.handshakeState ≠ .commitRcvd := fun h => h ht
  have hhead : ([0x00] ++ groupBytes t ++ [0x02]).length = 4 := rfl
  simp only [wpa3SaeBuildConfirm, if_neg hstate]
  rw [handleConfirm_ok_iff hs, List.take_append, hhead, List.take_of_length_le (by rw [hhead]; decide)]
  rw [List.length_append, hhead, confirmHash, List.length_map, List.length_range]
  decide

/-! ### The password element -/

theorem computePwe_myPwe (hs : s.initialized ≠ 0) : (wpa3SaeComputePwe m rand s).1.myPwe =
      saeHashToCurve m (s.apSsid.toList.take s.apSsidLen.toNat) (s.password.toList.take s.passwordLen.toNat) := by
  rw [wpa3SaeComputePwe, if_neg hs]

theorem handleCommit_myPwe (frame : Option (List UInt8)) : (wpa3SaeHandleCommit hmac m s frame).1.myPwe = s.myPwe := by
  rcases frame with _ | frame
  · rfl
  · simp only [wpa3SaeHandleCommit]
    split
    · rfl
    · split <;> rfl

theorem buildConfirm_myPwe : (wpa3SaeBuildConfirm hmac s).1.myPwe = s.myPwe := by
  unfold wpa3SaeBuildConfirm
  split <;> rfl

theorem handleConfirm_myPwe (frame : Option (List UInt8)) : (wpa3SaeHandleConfirm hmac s frame).1.myPwe = s.myPwe := by
  rcases frame with _ | frame
  · rfl
  · simp only [wpa3SaeHandleConfirm]
    split
    · rfl
    · split
      · rfl
      · split <;> rfl

theorem committed_myPwe (hs : s.initialized ≠ 0) (commit : List UInt8) : (committed hmac m rand s commit).myPwe =
      saeHashToCurve m (s.apSsid.toList.take s.apSsidLen.toNat) (s.password.toList.take s.passwordLen.toNat) := by
  rw [committed, handleCommit_myPwe]
  exact computePwe_myPwe hs

theorem ready_initialized (s : SaeState) (clientMac apBssid : Vector UInt8 6) (ssid : Vector UInt8 32)
    (ssidLen : UInt32) (password : List UInt8) : (ready s clientMac apBssid ssid ssidLen password).initialized = 1 := by
  simp only [ready, wpa3SaeInit, wpa3SaeSetPassword]
  split <;> rfl

end Steps

theorem delivered_pwe_y (hmac : Hmac) (ma mb : SaeMemory) (randA randB : Vector UInt8 32) {a b : SaeState}
    (ha : a.initialized ≠ 0) (hb : b.initialized ≠ 0) :
    (delivered hmac ma mb randA randB a b).1.1.myPwe.y = ma.hashTail ∧
      (delivered hmac ma mb randA randB a b).2.1.myPwe.y = mb.hashTail := by
  simp only [delivered, handleConfirm_myPwe, buildConfirm_myPwe, committed_myPwe ha, committed_myPwe hb]
  exact ⟨rfl, rfl⟩

/-- **No two parties agree**, whatever the stacks held: not for any password, SSID, addresses, random choices
and HMAC. -/
theorem not_agree (hmac : Hmac) (s : SaeState) (macA macB : Vector UInt8 6) (ssid : Vector UInt8 32)
    (ssidLen : UInt32) (password : List UInt8) (randA randB : Vector UInt8 32) : ¬ ∀ ma mb : SaeMemory,
      Agree (delivered hmac ma mb randA randB (ready s macA macB ssid ssidLen password)
        (ready s macB macA ssid ssidLen password)).1
        (delivered hmac ma mb randA randB (ready s macA macB ssid ssidLen password)
        (ready s macB macA ssid ssidLen password)).2 := by
  intro hall
  have hready : ∀ mac mac', (ready s mac mac' ssid ssidLen password).initialized ≠ 0 := fun mac mac' => by
    rw [ready_initialized]
    decide
  -- two stacks that differ in the bytes behind the hash
  let stack := fun b : UInt8 =>
    ({ shaBuffer := Vector.replicate 64 0, hashTail := Vector.replicate 32 b } : SaeMemory)
  have hpwe := (hall (stack 0) (stack 1)).pwe
  obtain ⟨hya, hyb⟩ := delivered_pwe_y hmac (stack 0) (stack 1) randA randB (hready macA macB) (hready macB macA)
  have hsame : (stack 0).hashTail = (stack 1).hashTail := by rw [← hya, ← hyb, hpwe]
  revert hsame
  decide

/-- The variables of the module before it is used. -/
def zeroSae : SaeState :=
  { apBssid := Vector.replicate 6 0, apSsid := Vector.replicate 32 0, apSsidLen := 0,
    clientMac := Vector.replicate 6 0, myScalar := Vector.replicate 32 0, myElementX := Vector.replicate 64 0,
    myElementY := Vector.replicate 64 0, peerScalar := Vector.replicate 32 0,
    peerElementX := Vector.replicate 64 0, peerElementY := Vector.replicate 64 0,
    password := Vector.replicate 64 0, passwordLen := 0, groupNum := 0, pmk := Vector.replicate 32 0,
    pmkid := Vector.replicate 16 0, kck := Vector.replicate 32 0, kek := Vector.replicate 32 0,
    tk := Vector.replicate 32 0, myRand := Vector.replicate 32 0,
    myPwe := { x := Vector.replicate 32 0, y := Vector.replicate 32 0 }, handshakeState := .disconnected,
    confirmSent := 0, confirmReceived := 0, installed := 0, frameCounter := 0, packetsEncrypted := 0,
    initialized := 0 }

/-- A stack filled with one byte. -/
def filledStack (b : UInt8) : SaeMemory :=
  { shaBuffer := Vector.replicate 64 b, hashTail := Vector.replicate 32 b }

/-- The station and the access point of one password and no SSID. -/
def station : SaeState :=
  ready zeroSae (Vector.replicate 6 1) (Vector.replicate 6 2) (Vector.replicate 32 0) 0 [0x61, 0x62, 0x63]
def accessPoint : SaeState :=
  ready zeroSae (Vector.replicate 6 2) (Vector.replicate 6 1) (Vector.replicate 32 0) 0 [0x61, 0x62, 0x63]

/-- An HMAC of zeros. -/
def zeroHmac : Hmac := fun _ _ _ => 0

/-- Two stacks with different bytes in them: two password elements. -/
theorem station_not_agree : ¬ Agree
      (delivered zeroHmac (filledStack 0) (filledStack 1) (Vector.replicate 32 3) (Vector.replicate 32 4) station
        accessPoint).1
      (delivered zeroHmac (filledStack 0) (filledStack 1) (Vector.replicate 32 3) (Vector.replicate 32 4) station
        accessPoint).2 := by
  intro h
  have hstation : station.initialized ≠ 0 := by
    rw [station, ready_initialized]
    decide
  have haccessPoint : accessPoint.initialized ≠ 0 := by
    rw [accessPoint, ready_initialized]
    decide
  obtain ⟨hya, hyb⟩ := delivered_pwe_y zeroHmac (filledStack 0) (filledStack 1) (Vector.replicate 32 3)
    (Vector.replicate 32 4) hstation haccessPoint
  have hpwe := congrArg SaeElement.y h.pwe
  have hsame : (filledStack 0).hashTail = (filledStack 1).hashTail := (hya.symm.trans hpwe).trans hyb
  revert hsame
  decide

end Chicago95.Stage2.Sae
