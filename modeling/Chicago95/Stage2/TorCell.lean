/-
# Chicago95.Stage2.TorCell — relay cells and their layers, of `security/tor/core/tor_core.c`.

`build_relay_cell` makes a cell and encrypts it under the key it is given, which every caller takes from the first
hop; `tor_circuit_send_cell` then puts on a layer for each hop. The layers of the sender come off again
(`peel_encryptLayers`), the one of the builder stays: its counter starts from four zeros and what the stack holds
behind them. What is left when all layers are off is the relay cell under one keystream of the first hop
(`peel_sendCell`), and that is not the relay cell (`relayCell_not_onion`).
-/
import Chicago95.Stage2.AesBlock
import Chicago95.Stage2.Sha1
import Mathlib.Data.List.GetD

namespace Chicago95.Stage2.Tor

open Chicago95.Lib.Loop Chicago95.Lib.Keystream Chicago95.Stage2.Aes

/-! ## Cells, hops and circuits -/

/-- `TOR_PAYLOAD_SIZE` -/
abbrev payloadSize : Nat := 505

abbrev Payload := Vector UInt8 payloadSize

/-- `TOR_CMD_*`, those that are sent here. -/
inductive CellCommand
  | relay | destroy
  deriving DecidableEq

/-- `tor_cell_t` -/
structure TorCell where
  circuitId : UInt32
  command : CellCommand
  payloadLen : UInt16
  payload : Payload

/-- `tor_hop_t`, the fields that are read. -/
structure TorHop where
  forwardKey : Vector UInt8 32
  forwardDigest : Vector UInt8 20
  deriving DecidableEq

/-- `TOR_CIRC_*` -/
inductive CircState
  | none | building | extending | established | waitDespawn | dead
  deriving DecidableEq

/-- `TOR_MAX_HOPS` -/
abbrev maxHops : Nat := 8

/-- `tor_circuit_t`, the fields that are read. `tor_circuit_extend` adds no hop to a circuit that is full. -/
structure TorCircuit where
  circId : UInt32
  state : CircState
  hopCount : UInt8
  hops : Vector TorHop maxHops
  hopCount_le : hopCount.toNat ≤ maxHops

/-- A hop after `sec_memzero`. -/
def zeroHop : TorHop := { forwardKey := Vector.replicate 32 0, forwardDigest := Vector.replicate 20 0 }

/-- `circ->hops[i]` -/
def TorCircuit.hop (circ : TorCircuit) (i : Nat) : TorHop := circ.hops.toList.getD i zeroHop

/-- What memory holds where the code reads it without having written it: behind `rcon`, in the context of the layer
`i` before its keys are set up (the builder's layer is layer 0), in the last bytes of `iv` and in `cell` of the
functions that build a cell, and from `inner` on in `sec_hmac_sha1`. -/
structure TorMemory where
  behind : Nat → UInt8
  stale : Nat → Vector UInt8 240
  ivTail : Vector UInt8 12
  cell : Payload
  inner : Nat → UInt8

/-! ## The code -/

/-- `sec_aes256_ctr_encrypt`, and `sec_aes256_ctr_decrypt`, which calls it. -/
def secAes256CtrEncrypt (ctx : Aes256Ctx) (iv : Block) (input : List UInt8) : List UInt8 :=
  mask 16 (fun counter => (secAes256EncryptBlock ctx counter).toList) (fun counter => bump counter 16)
    ((input.length + 15) / 16) iv input

/-- The context of a layer. -/
def layerContext (m : TorMemory) (layer : Nat) (key : Vector UInt8 32) : Aes256Ctx :=
  secAes256Init m.behind (m.stale layer) key.toList

/-- A payload through the cipher. -/
def ctrPayload (m : TorMemory) (layer : Nat) (key : Vector UInt8 32) (iv : Block) (payload : Payload) : Payload :=
  let out := secAes256CtrEncrypt (layerContext m layer key) iv payload.toList
  Vector.ofFn fun i => out.getD i.val 0

/-- `iv` after `sec_memzero(iv, 16)`. -/
def zeroIv : Block := Vector.replicate 16 0

/-- `iv` of `build_relay_cell`: the loop clears four bytes. -/
def builderIv (m : TorMemory) : Block :=
  Vector.ofFn fun i => if i.val < 4 then 0 else m.ivTail.toList.getD (i.val - 4) 0

/-- The relay header with its digest field zeroed. -/
def relayHeader (relayCmd : UInt8) (payloadLen : UInt16) (streamId : UInt32) : List UInt8 :=
  [relayCmd, (payloadLen >>> 8).toUInt8, payloadLen.toUInt8, (streamId >>> 24).toUInt8, (streamId >>> 16).toUInt8,
    (streamId >>> 8).toUInt8, streamId.toUInt8, 0, 0, 0, 0]

/-- The first four bytes of `mac`, over the header and the payload. -/
def relayDigest (m : TorMemory) (digestKey : Vector UInt8 20) (data : List UInt8) : List UInt8 :=
  (Sha1.secHmacSha1 m.inner digestKey.toList data).take 4

/-- The relay cell that `build_relay_cell` has before it encrypts. -/
def plainRelayCell (m : TorMemory) (circId : UInt32) (relayCmd : UInt8) (streamId : UInt32) (payload : List UInt8)
    (digestKey : Vector UInt8 20) : Option TorCell :=
  if payloadSize < 11 + payload.length then none
  else
    let payloadLen := UInt16.ofNat payload.length
    let header := relayHeader relayCmd payloadLen streamId
    let written := header.take 7 ++ relayDigest m digestKey (header ++ payload) ++ payload
    some
      { circuitId := circId
        command := .relay
        payloadLen := payloadLen + 11
        payload := Vector.ofFn fun i => written.getD i.val (m.cell.get i) }

def buildRelayCell (m : TorMemory) (circId : UInt32) (relayCmd : UInt8) (streamId : UInt32) (payload : List UInt8)
    (digestKey : Vector UInt8 20) (aesKey : Vector UInt8 32) : Option TorCell :=
  (plainRelayCell m circId relayCmd streamId payload digestKey).map fun cell =>
    { cell with payload := ctrPayload m 0 aesKey (builderIv m) cell.payload }

/-- `tor_encrypt_cell`, for the layer of a hop. -/
def torEncryptCell (m : TorMemory) (layer : Nat) (cell : TorCell) (hop : TorHop) : TorCell :=
  { cell with payload := ctrPayload m layer hop.forwardKey zeroIv cell.payload }

/-- `tor_decrypt_cell`, which uses the forward key as well. -/
def torDecryptCell (m : TorMemory) (layer : Nat) (cell : TorCell) (hop : TorHop) : TorCell :=
  { cell with payload := ctrPayload m layer hop.forwardKey zeroIv cell.payload }

/-- `for (i = n; i > 0; i--) tor_encrypt_cell(&encrypted, &circ->hops[i - 1], 1);` -/
def encryptLayers (m : TorMemory) (circ : TorCircuit) : Nat → TorCell → TorCell
  | 0, cell => cell
  | i + 1, cell => encryptLayers m circ i (torEncryptCell m (i + 1) cell (circ.hop i))

/-- `tor_circuit_send_cell`: the cell that is transmitted. -/
def torCircuitSendCell (m : TorMemory) (circ : TorCircuit) (cell : TorCell) : TorCell :=
  encryptLayers m circ circ.hopCount.toNat cell

def torCircuitRecvCell (m : TorMemory) (circ : TorCircuit) (cell : TorCell) : TorCell :=
  forEach circ.hopCount.toNat (fun i cell => torDecryptCell m (i + 1) cell (circ.hop i)) cell

/-- The cell that the functions on streams pass to `tor_circuit_send_cell`: both keys are the first hop's. -/
def relayCellFor (m : TorMemory) (circ : TorCircuit) (circId : UInt32) (relayCmd : UInt8) (streamId : UInt32)
    (payload : List UInt8) : Option TorCell :=
  buildRelayCell m circId relayCmd streamId payload (circ.hop 0).forwardDigest (circ.hop 0).forwardKey

/-! ## What the layers are to do -/

/-- The layers of hops 1, 2, …, `n` taken off one after the other. -/
def peel (m : TorMemory) (circ : TorCircuit) (n : Nat) (payload : Payload) : Payload :=
  forEach n (fun i p => ctrPayload m (i + 1) (circ.hop i).forwardKey zeroIv p) payload

/-- **One layer for each hop**: what is sent for a relay cell is, with the layers of all hops off, the plain relay
cell with the digest of the last hop. -/
def Onion (m : TorMemory) (circ : TorCircuit) (relayCmd : UInt8) (streamId : UInt32) (payload : List UInt8) : Prop :=
  ∃ built plain, relayCellFor m circ circ.circId relayCmd streamId payload = some built ∧
    plainRelayCell m circ.circId relayCmd streamId payload (circ.hop (circ.hopCount.toNat - 1)).forwardDigest =
      some plain ∧
    peel m circ circ.hopCount.toNat (torCircuitSendCell m circ built).payload = plain.payload

/-! ## A layer is a keystream -/

/-- Byte `i` of the keystream. -/
def keystreamByte (ctx : Aes256Ctx) (iv : Block) (i : Nat) : UInt8 :=
  (secAes256EncryptBlock ctx ((fun counter => bump counter 16)^[i / 16] iv)).toList.getD (i % 16) 0

theorem getElem_ctrPayload (m : TorMemory) (layer : Nat) (key : Vector UInt8 32) (iv : Block) (payload : Payload)
    (i : Nat) (hi : i < payloadSize) :
    (ctrPayload m layer key iv payload)[i] = payload[i] ^^^ keystreamByte (layerContext m layer key) iv i := by
  have hblock : ∀ counter, (secAes256EncryptBlock (layerContext m layer key) counter).toList.length = 16 :=
    fun counter => Vector.length_toList
  have hlen : payload.toList.length ≤ 16 * ((payload.toList.length + 15) / 16) := by omega
  rw [ctrPayload, Vector.getElem_ofFn, secAes256CtrEncrypt, mask_eq_mapIdx (by omega) hblock _ _ _ hlen]
  simp [List.getD_eq_getElem?_getD, hi, keystreamByte]

theorem ctrPayload_ctrPayload (m : TorMemory) (layer : Nat) (key : Vector UInt8 32) (iv : Block)
    (payload : Payload) : ctrPayload m layer key iv (ctrPayload m layer key iv payload) = payload := by
  apply Vector.ext
  intro i hi
  rw [getElem_ctrPayload _ _ _ _ _ i hi, getElem_ctrPayload _ _ _ _ _ i hi, UInt8.xor_assoc, UInt8.xor_self,
    UInt8.xor_zero]

theorem exists_keystreamByte_ne (ctx : Aes256Ctx) (iv : Block) : ∃ i, 16 ≤ i ∧ i < 48 ∧ keystreamByte ctx iv i ≠ 0 := by
  -- The byte `j` of a block that is not zero is the byte `16 * b + j` of the keystream.
  have hbyte : ∀ b, secAes256EncryptBlock ctx ((fun counter => bump counter 16)^[b] iv) ≠ zeroBlock →
      ∃ j, j < 16 ∧ keystreamByte ctx iv (16 * b + j) ≠ 0 := by
    intro b hne
    by_contra hall
    apply hne
    apply Vector.ext
    intro j hj
    by_contra hj0
    refine hall ⟨j, hj, ?_⟩
    rw [keystreamByte, show (16 * b + j) / 16 = b by omega, show (16 * b + j) % 16 = j by omega,
      getD_toList _ j hj]
    simpa [zeroBlock] using hj0
  rcases keystream_ne_zero ctx (bump iv 16) with hne | hne
  · obtain ⟨j, hj, hks⟩ := hbyte 1 hne
    exact ⟨16 * 1 + j, by omega, by omega, hks⟩
  · obtain ⟨j, hj, hks⟩ := hbyte 2 hne
    exact ⟨16 * 2 + j, by omega, by omega, hks⟩

/-- What the layers of `n` hops do to byte `i`. -/
def layersByte (m : TorMemory) (circ : TorCircuit) (i : Nat) : Nat → UInt8
  | 0 => 0
  | n + 1 => keystreamByte (layerContext m (n + 1) (circ.hop n).forwardKey) zeroIv i ^^^ layersByte m circ i n

/-- **A cell on the wire**: each byte of the payload under the keystreams of all hops. -/
theorem getElem_encryptLayers (m : TorMemory) (circ : TorCircuit) (n : Nat) (cell : TorCell) (i : Nat)
    (hi : i < payloadSize) : (encryptLayers m circ n cell).payload[i] = cell.payload[i] ^^^ layersByte m circ i n := by
  induction n generalizing cell with
  | zero => exact UInt8.xor_zero.symm
  | succ n ih =>
    show (encryptLayers m circ n (torEncryptCell m (n + 1) cell (circ.hop n))).payload[i] = _
    rw [ih]
    show (ctrPayload m (n + 1) (circ.hop n).forwardKey zeroIv cell.payload)[i] ^^^ _ = _
    rw [getElem_ctrPayload _ _ _ _ _ i hi, UInt8.xor_assoc]
    rfl

/-! ## The layers of the sender come off -/

theorem peel_encryptLayers (m : TorMemory) (circ : TorCircuit) (n : Nat) (cell : TorCell) :
    peel m circ n (encryptLayers m circ n cell).payload = cell.payload := by
  induction n generalizing cell with
  | zero => rfl
  | succ n ih =>
    rw [peel, forEach_succ]
    show ctrPayload m (n + 1) (circ.hop n).forwardKey zeroIv
      (peel m circ n (encryptLayers m circ n (torEncryptCell m (n + 1) cell (circ.hop n))).payload) = _
    rw [ih]
    exact ctrPayload_ctrPayload m (n + 1) (circ.hop n).forwardKey zeroIv cell.payload

theorem peel_sendCell {m : TorMemory} {circ : TorCircuit} {circId : UInt32} {relayCmd : UInt8} {streamId : UInt32}
    {payload : List UInt8} {built : TorCell}
    (hbuilt : relayCellFor m circ circId relayCmd streamId payload = some built) :
    ∃ plain, plainRelayCell m circId relayCmd streamId payload (circ.hop 0).forwardDigest = some plain ∧
      peel m circ circ.hopCount.toNat (torCircuitSendCell m circ built).payload =
        ctrPayload m 0 (circ.hop 0).forwardKey (builderIv m) plain.payload := by
  rw [relayCellFor, buildRelayCell, Option.map_eq_some_iff] at hbuilt
  obtain ⟨plain, hplain, rfl⟩ := hbuilt
  refine ⟨plain, hplain, ?_⟩
  exact peel_encryptLayers m circ circ.hopCount.toNat _

theorem length_relayDigest (m : TorMemory) (digestKey : Vector UInt8 20) (data : List UInt8) :
    (relayDigest m digestKey data).length = 4 := by
  rw [relayDigest, List.length_take, Sha1.length_secHmacSha1]
  rfl

theorem getElem_plainRelayCell {m : TorMemory} {circId : UInt32} {relayCmd : UInt8} {streamId : UInt32}
    {payload : List UInt8} {digestKey : Vector UInt8 20} {plain : TorCell}
    (h : plainRelayCell m circId relayCmd streamId payload digestKey = some plain) (i : Nat) (hlow : 11 ≤ i)
    (hi : i < payloadSize) : plain.payload[i] = payload.getD (i - 11) m.cell[i] := by
  unfold plainRelayCell at h
  split at h
  · cases h
  · obtain rfl := Option.some.inj h
    have hheader : ((relayHeader relayCmd (UInt16.ofNat payload.length) streamId).take 7 ++
        relayDigest m digestKey (relayHeader relayCmd (UInt16.ofNat payload.length) streamId ++ payload)).length =
          11 := by
      rw [List.length_append, length_relayDigest]
      rfl
    rw [Vector.getElem_ofFn, List.getD_append_right _ _ _ _ (by rw [hheader]; exact hlow), hheader]
    rfl

theorem plainRelayCell_agree {m : TorMemory} {circId : UInt32} {relayCmd : UInt8} {streamId : UInt32}
    {payload : List UInt8} {digestKey digestKey' : Vector UInt8 20} {plain plain' : TorCell}
    (h : plainRelayCell m circId relayCmd streamId payload digestKey = some plain)
    (h' : plainRelayCell m circId relayCmd streamId payload digestKey' = some plain') (i : Nat) (hlow : 11 ≤ i)
    (hi : i < payloadSize) : plain.payload[i] = plain'.payload[i] := by
  rw [getElem_plainRelayCell h i hlow hi, getElem_plainRelayCell h' i hlow hi]

theorem peel_sendCell_ne {m : TorMemory} {circ : TorCircuit} {circId : UInt32} {relayCmd : UInt8}
    {streamId : UInt32} {payload : List UInt8} {digestKey : Vector UInt8 20} {built plain : TorCell}
    (hbuilt : relayCellFor m circ circId relayCmd streamId payload = some built)
    (hplain : plainRelayCell m circId relayCmd streamId payload digestKey = some plain) :
    peel m circ circ.hopCount.toNat (torCircuitSendCell m circ built).payload ≠ plain.payload := by
  intro hpeel
  obtain ⟨first, hfirst, hleft⟩ := peel_sendCell hbuilt
  obtain ⟨i, hlow, hhigh, hks⟩ :=
    exists_keystreamByte_ne (layerContext m 0 (circ.hop 0).forwardKey) (builderIv m)
  have hi : i < payloadSize := Nat.lt_of_lt_of_le hhigh (by decide)
  have hbyte : (ctrPayload m 0 (circ.hop 0).forwardKey (builderIv m) first.payload)[i] = first.payload[i] := by
    rw [plainRelayCell_agree hfirst hplain i (by omega) hi, ← hpeel, hleft]
  rw [getElem_ctrPayload _ _ _ _ _ i hi] at hbyte
  -- The byte is the plain one, so that the keystream is zero there.
  apply hks
  have hcancel := xorByte_cancel_left first.payload[i]
    (keystreamByte (layerContext m 0 (circ.hop 0).forwardKey) (builderIv m) i)
  rw [hbyte, UInt8.xor_self] at hcancel
  exact hcancel.symm

/-- **No relay cell is sent with one layer for each hop**, on whatever circuit. -/
theorem relayCell_not_onion (m : TorMemory) (circ : TorCircuit) (relayCmd : UInt8) (streamId : UInt32)
    (payload : List UInt8) : ¬ Onion m circ relayCmd streamId payload := by
  rintro ⟨built, plain, hbuilt, hplain, hpeel⟩
  exact peel_sendCell_ne hbuilt hplain hpeel

/-- Zeros wherever the code reads what it has not written. -/
def zeroMemory : TorMemory :=
  { behind := fun _ => 0, stale := fun _ => Vector.replicate 240 0, ivTail := Vector.replicate 12 0,
    cell := Vector.replicate payloadSize 0, inner := fun _ => 0 }

/-- A circuit of one hop. -/
def oneHopCircuit : TorCircuit :=
  { circId := 0x10000, state := .established, hopCount := 1, hops := Vector.replicate maxHops zeroHop,
    hopCount_le := by decide }

theorem oneByte_not_onion : ¬ Onion zeroMemory oneHopCircuit 2 1 [0x41] := by
  rintro ⟨built, plain, hbuilt, hplain, hpeel⟩
  exact peel_sendCell_ne hbuilt hplain hpeel

end Chicago95.Stage2.Tor
