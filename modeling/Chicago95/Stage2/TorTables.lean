/-
# Chicago95.Stage2.TorTables — the circuits and streams of `security/tor/core/tor_core.c` over runs.

`tor_circuit_create` fills an entry of `tor_circuits` that is in `TOR_CIRC_NONE` and gives its caller a copy of it.
⚠ No function of the file takes an entry back to `TOR_CIRC_NONE`: `tor_circuit_destroy` leaves `TOR_CIRC_DEAD` behind,
on the caller's copy even only there, and `tor_stream_close` leaves `TOR_STREAM_CLOSED`. Only `tor_flush_streams`
clears what it closes.
-/
import Chicago95.Lib.Counting
import Chicago95.Stage2.Sha2
import Chicago95.Stage2.TorRuns
import Chicago95.Stage2.X25519

namespace Chicago95.Stage2.Tor

open Chicago95.Lib.Counting Chicago95.Lib.Loop Chicago95.Lib.Transition
open Function (update_of_ne update_self update_idem update)

/-! ## The client -/

/-- A `tor_circuit_t` of the caller, and the entry of the table that it was copied from. -/
structure CircuitCopy where
  circ : TorCircuit
  slot : Nat

/-- The statics of the file, and the copies that were given out. -/
structure TorClient where
  core : TorState
  circCounter : UInt32
  initialized : Bool
  copies : List CircuitCopy

/-- What a `tor_circuit_t *` points at. -/
inductive CircuitPtr
  | null
  | entry (i : Fin maxCircuits)
  | copy (k : Nat)

/-- `tor_relay_t`, the fields that enter the keys. -/
structure TorRelay where
  ntorKey : Vector UInt8 32
  fingerprint : Vector UInt8 20

/-- A circuit written to its entry. -/
def TorState.setCircuit (s : TorState) (i : Nat) (circ : TorCircuit) : TorState :=
  { s with circuits := s.circuits.setIfInBounds i circ }

/-- A stream after `sec_memzero`. -/
def zeroStream : TorStream := { streamId := 0, circId := 0, state := .none }

def torInit (s : TorClient) : TorClient :=
  { core :=
      { circuits := Vector.replicate maxCircuits zeroCircuit
        streams := Vector.replicate maxStreams zeroStream
        streamCounter := 1, bytesSent := 0, bytesRecv := 0, log := s.core.log }
    circCounter := 0x10000
    initialized := true
    copies := [] }

/-- `tor_circuit_create`, whose argument may be null. -/
def torCircuitCreate (s : TorClient) (isNull : Bool) : TorClient × Int32 :=
  if isNull then (s, -1)
  else if !s.initialized then (s, -2)
  else
    match s.core.findCircuit fun circ => circ.state == .none with
    | none => (s, -3)
    | some slot =>
      let newCirc := { zeroCircuit with circId := s.circCounter, state := .building }
      ({ s with
          core := s.core.setCircuit slot newCirc
          circCounter := s.circCounter + 1
          copies := s.copies ++ [{ circ := newCirc, slot }] }, 0)

/-- What the stack holds in `tor_circuit_extend` and below it, and the bytes of `sec_random_bytes`. -/
structure ExtendMemory where
  x3 : X25519.Fe25519
  sha : Vector UInt8 64
  publicKey : Vector UInt8 32

def keyMaterial (e : ExtendMemory) (relay : TorRelay) : List UInt8 :=
  (X25519.secCurve25519SharedSecret e.x3 relay.ntorKey e.publicKey).toList ++ relay.fingerprint.toList ++
    [0x54, 0x6F, 0x72, 0x2D, 0x76, 0x32, 0x2D, 0x4C, 0x69, 0x6E, 0x6B, 0]

/-- `derive_hop_keys`, the two keys that are read. -/
def deriveHopKeys (e : ExtendMemory) (keyMaterial : List UInt8) : TorHop :=
  let input := keyMaterial ++ [0x4C]
  let key := secSha256 e.sha input
  let digest := Sha1.secSha1 (fun i => input.getD i 0) input.length
  { forwardKey := Vector.ofFn fun i => key.getD i.val 0
    forwardDigest := Vector.ofFn fun i => digest.getD i.val 0 }

/-- The circuit with a hop more, or `none` where it is full. -/
def TorCircuit.extend (circ : TorCircuit) (hop : TorHop) : Option TorCircuit :=
  if h : circ.hopCount.toNat < maxHops then
    some
      { circ with
        state := .extending
        hopCount := circ.hopCount + 1
        hops := circ.hops.setIfInBounds circ.hopCount.toNat hop
        hopCount_le := by
          have hmod := UInt8.toNat_add circ.hopCount 1
          have hone : (1 : UInt8).toNat = 1 := rfl
          omega }
  else none

def torCircuitExtend (e : ExtendMemory) (s : TorClient) (circ : CircuitPtr) (relay : Option TorRelay) :
    TorClient × Int32 :=
  match relay with
  | none => (s, -1)
  | some relay =>
    let hop := deriveHopKeys e (keyMaterial e relay)
    match circ with
    | .null => (s, -1)
    | .entry i =>
      match (s.core.circuit i).extend hop with
      | none => (s, -2)
      | some new => ({ s with core := s.core.setCircuit i new }, 0)
    | .copy k =>
      match s.copies[k]? with
      | none => (s, -1)
      | some copy =>
        match copy.circ.extend hop with
        | none => (s, -2)
        | some new => ({ s with copies := s.copies.set k { copy with circ := new } }, 0)

/-- `tor_circuit_destroy` on any circuit. On a copy it leaves the table as it is. -/
def torDestroyAt (m : TorMemory) (s : TorClient) (circ : CircuitPtr) : TorClient × Int32 :=
  match circ with
  | .null => (s, -1)
  | .entry i => ({ s with core := (torCircuitDestroy m s.core (some i)).1 }, 0)
  | .copy k =>
    match s.copies[k]? with
    | none => (s, -1)
    | some copy =>
      ({ s with
          core := { s.core with bytesSent := s.core.bytesSent + 512 }
          copies := s.copies.set k { copy with circ := copy.circ.clear } }, 0)

/-- A pass of the loop of `tor_force_new_circuit`. -/
def forcePass (m : TorMemory) (core : TorState) (i : Fin maxCircuits) : TorState :=
  if (core.circuit i).state ≠ .none then (torCircuitDestroy m core (some i)).1 else core

def torForceNewCircuit (m : TorMemory) (s : TorClient) : TorClient :=
  { s with
    core := { (List.finRange maxCircuits).foldl (forcePass m) s.core with streamCounter := 1 }
    circCounter := 0x10000 + (s.circCounter &&& 0xFFFF) }

/-- A pass of the loop of `tor_flush_streams`. -/
def flushPass (m : TorMemory) (i : Nat) (core : TorState) : TorState :=
  if (core.stream i).state ≠ .none then (torStreamClose m core (core.stream i).streamId).1 else core

def torFlushStreams (m : TorMemory) (s : TorClient) : TorClient :=
  { s with
    core := { forEach maxStreams (flushPass m) s.core with streams := Vector.replicate maxStreams zeroStream } }

/-- A call of a client. -/
inductive ClientCall
  | create (isNull : Bool)
  | extend (e : ExtendMemory) (circ : CircuitPtr) (relay : Option TorRelay)
  | destroy (circ : CircuitPtr)
  | force
  | streamOpen (circId : UInt32) (addr : Vector UInt8 4) (port : UInt16)
  | sendData (streamId : UInt32) (data : Option (List UInt8))
  | streamClose (streamId : UInt32)
  | flush

/-- The client after a call. -/
def step (m : TorMemory) (s : TorClient) : ClientCall → TorClient
  | .create isNull => (torCircuitCreate s isNull).1
  | .extend e circ relay => (torCircuitExtend e s circ relay).1
  | .destroy circ => (torDestroyAt m s circ).1
  | .force => torForceNewCircuit m s
  | .streamOpen circId addr port => { s with core := (torStreamOpen m s.core circId addr port).1 }
  | .sendData streamId data => { s with core := (torStreamSendData m s.core streamId data).1 }
  | .streamClose streamId => { s with core := (torStreamClose m s.core streamId).1 }
  | .flush => torFlushStreams m s

/-! ## What the tables are to keep -/

/-- The circuit is one of those that `tor_get_stats` counts. -/
def TorCircuit.Live (circ : TorCircuit) : Prop := circ.state ≠ .none ∧ circ.state ≠ .dead

/-- The stream is one of those that `tor_get_stats` counts. -/
def TorStream.Live (stream : TorStream) : Prop := stream.state ≠ .none ∧ stream.state ≠ .closed

/-- **The life of circuits and streams.** Ids tell live ones apart, a live stream is on a live circuit, and what is not
live can be had again: the entries, so that a create or an open finds one, and the entry that a destroyed copy was made
from. -/
structure Lifecycle (s : TorClient) : Prop where
  streamIds : ∀ i j, i < maxStreams → j < maxStreams → (s.core.stream i).Live → (s.core.stream j).Live →
    (s.core.stream i).streamId = (s.core.stream j).streamId → i = j
  circuitIds : ∀ i j, i < maxCircuits → j < maxCircuits → (s.core.circuit i).Live → (s.core.circuit j).Live →
    (s.core.circuit i).circId = (s.core.circuit j).circId → i = j
  onLive : ∀ i, i < maxStreams → (s.core.stream i).Live →
    ∃ c, c < maxCircuits ∧ (s.core.circuit c).Live ∧ (s.core.circuit c).circId = (s.core.stream i).circId
  circuitSlots : ∀ i, i < maxCircuits → ¬ (s.core.circuit i).Live → (s.core.circuit i).state = .none
  streamSlots : ∀ i, i < maxStreams → ¬ (s.core.stream i).Live → (s.core.stream i).state = .none
  copySlots : ∀ copy ∈ s.copies, copy.circ.state = .dead →
    (s.core.circuit copy.slot).state = .none ∨ (s.core.circuit copy.slot).circId ≠ copy.circ.circId
  creates : s.initialized = true → (∃ i, i < maxCircuits ∧ ¬ (s.core.circuit i).Live) →
    (torCircuitCreate s false).2 = 0
  opens : (∃ i, i < maxStreams ∧ ¬ (s.core.stream i).Live) →
    (s.core.findStream fun stream => stream.state == .none).isSome = true

/-- **The condition on a call**: it destroys no circuit and closes no stream, the flush of all streams apart, and no
entry without a circuit is extended under an id that is in use. -/
def Keeps (s : TorClient) : ClientCall → Prop
  | .extend _ (.entry c) (some _) =>
    maxHops ≤ (s.core.circuit c).hopCount.toNat ∨ (s.core.circuit c).Live ∨
      ∀ j, j < maxCircuits → (s.core.circuit j).Live → (s.core.circuit j).circId ≠ (s.core.circuit c).circId
  | .destroy (.entry _) => False
  | .destroy (.copy k) => s.copies.length ≤ k
  | .force => ∀ i, i < maxCircuits → (s.core.circuit i).state = .none
  | .streamClose streamId => ∀ i, i < maxStreams → (s.core.stream i).streamId ≠ streamId
  | _ => True

/-! ## Counters ahead of the ids in use -/

/-- The next `room` values of a counter do not meet the id. -/
def Ahead (next : UInt32) (room : Nat) (id : UInt32) : Prop := ∀ k, k < room → id ≠ next + UInt32.ofNat k

section Ahead

variable {next id : UInt32} {room room' : Nat}

theorem Ahead.ne (h : Ahead next room id) (hroom : 0 < room) : id ≠ next := by
  have hzero := h 0 hroom
  rwa [show UInt32.ofNat 0 = 0 from rfl, UInt32.add_zero] at hzero

theorem Ahead.mono (h : Ahead next room id) (hle : room' ≤ room) : Ahead next room' id := by
  intro k hk
  exact h k (by omega)

theorem Ahead.step (h : Ahead next (room + 1) id) : Ahead (next + 1) room id := by
  intro k hk
  have hnext := h (k + 1) (by omega)
  rwa [UInt32.ofNat_add, UInt32.add_comm (UInt32.ofNat k), ← UInt32.add_assoc] at hnext

theorem ahead_given (hroom : room < 2 ^ 32 - 1) : Ahead (next + 1) room next := by
  intro k hk heq
  have hval := congrArg UInt32.toNat heq
  rw [UInt32.toNat_add, UInt32.toNat_add, UInt32.toNat_ofNat'] at hval
  have hlt := next.toNat_lt
  have hone : (1 : UInt32).toNat = 1 := rfl
  omega

end Ahead

/-! ## The tables as functions -/

section Tables

variable (s : TorState)

theorem circuit_setCircuit {i : Nat} (hi : i < maxCircuits) (circ : TorCircuit) :
    (s.setCircuit i circ).circuit = update s.circuit i circ := by
  funext k
  rw [TorState.circuit, TorState.setCircuit, Vector.toList_setIfInBounds, List.getD_eq_getElem?_getD]
  by_cases hk : k = i
  · subst hk
    rw [update_self, List.getElem?_set_self (by rwa [Vector.length_toList]), Option.getD_some]
  · rw [update_of_ne hk, List.getElem?_set_ne (Ne.symm hk), ← List.getD_eq_getElem?_getD]
    rfl

theorem stream_setStream {i : Nat} (hi : i < maxStreams) (stream : TorStream) :
    (s.setStream i stream).stream = update s.stream i stream := by
  funext k
  rw [TorState.stream, TorState.setStream, Vector.toList_setIfInBounds, List.getD_eq_getElem?_getD]
  by_cases hk : k = i
  · subst hk
    rw [update_self, List.getElem?_set_self (by rwa [Vector.length_toList]), Option.getD_some]
  · rw [update_of_ne hk, List.getElem?_set_ne (Ne.symm hk), ← List.getD_eq_getElem?_getD]
    rfl

variable {s}

theorem findCircuit_some {p : TorCircuit → Bool} {i : Nat} (h : s.findCircuit p = some i) :
    i < maxCircuits ∧ p (s.circuit i) = true :=
  ⟨List.mem_range.mp (List.mem_of_find?_eq_some h), List.find?_some (p := fun i => p (s.circuit i)) h⟩

theorem findStream_some {p : TorStream → Bool} {i : Nat} (h : s.findStream p = some i) :
    i < maxStreams ∧ p (s.stream i) = true :=
  ⟨List.mem_range.mp (List.mem_of_find?_eq_some h), List.find?_some (p := fun i => p (s.stream i)) h⟩

theorem findCircuit_isSome {p : TorCircuit → Bool} :
    (s.findCircuit p).isSome = true ↔ ∃ i, i < maxCircuits ∧ p (s.circuit i) = true := by
  simp only [TorState.findCircuit, List.find?_isSome, List.mem_range]

theorem findStream_isSome {p : TorStream → Bool} :
    (s.findStream p).isSome = true ↔ ∃ i, i < maxStreams ∧ p (s.stream i) = true := by
  simp only [TorState.findStream, List.find?_isSome, List.mem_range]

end Tables

/-! ## What the calls do to the tables -/

/-- The tables and the counter of stream ids are the same. -/
structure SameTables (s t : TorState) : Prop where
  circuits : t.circuits = s.circuits
  streams : t.streams = s.streams
  counter : t.streamCounter = s.streamCounter

theorem SameTables.refl (s : TorState) : SameTables s s := ⟨rfl, rfl, rfl⟩

theorem SameTables.trans {s t u : TorState} (h : SameTables s t) (h' : SameTables t u) : SameTables s u :=
  ⟨h'.circuits.trans h.circuits, h'.streams.trans h.streams, h'.counter.trans h.counter⟩

theorem circuit_congr {s t : TorState} (h : t.circuits = s.circuits) : t.circuit = s.circuit := by
  funext k
  rw [TorState.circuit, h]
  rfl

theorem stream_congr {s t : TorState} (h : t.streams = s.streams) : t.stream = s.stream := by
  funext k
  rw [TorState.stream, h]
  rfl

theorem SameTables.circuit {s t : TorState} (h : SameTables s t) : t.circuit = s.circuit := circuit_congr h.circuits

theorem SameTables.stream {s t : TorState} (h : SameTables s t) : t.stream = s.stream := stream_congr h.streams

section Calls

variable (m : TorMemory) (s : TorState)

theorem sendRelay_same (c : Nat) (circId : UInt32) (relayCmd : UInt8) (streamId : UInt32) (payload : List UInt8) :
    SameTables s (s.sendRelay m c circId relayCmd streamId payload) := by
  unfold TorState.sendRelay
  split
  · exact .refl s
  · simp only [TorState.send, TorState.record]
    exact ⟨rfl, rfl, rfl⟩

theorem sendData_same (streamId : UInt32) (data : Option (List UInt8)) :
    SameTables s (torStreamSendData m s streamId data).1 := by
  rcases data with _ | data
  · exact .refl s
  · by_cases hempty : data.length = 0
    · simp only [torStreamSendData, if_pos hempty]
      exact .refl s
    · rcases hslot : s.findStream (fun stream => stream.streamId == streamId && stream.state == .established)
        with _ | slot
      · simp only [torStreamSendData, if_neg hempty, hslot]
        exact .refl s
      · rcases hc : s.findCircuit (fun circ => circ.circId == (s.stream slot).circId) with _ | c
        · simp only [torStreamSendData, if_neg hempty, hslot, hc]
          exact .refl s
        · simp only [torStreamSendData, if_neg hempty, hslot, hc]
          generalize chunks data = payloads
          have hloop : ∀ t, SameTables s t → SameTables s (payloads.foldl
              (fun t payload => t.sendRelay m c (s.stream slot).circId relayData (s.stream slot).streamId payload)
              t) := by
            induction payloads with
            | nil => exact fun t ht => ht
            | cons payload payloads ih => exact fun t ht => ih _ (ht.trans (sendRelay_same ..))
          exact hloop s (.refl s)

theorem streamOpen_cases (circId : UInt32) (addr : Vector UInt8 4) (port : UInt16) :
    (torStreamOpen m s circId addr port).1 = s ∨
    ∃ c slot, c < maxCircuits ∧ (s.circuit c).circId = circId ∧ (s.circuit c).state = .established ∧
      slot < maxStreams ∧ (s.stream slot).state = .none ∧
      (torStreamOpen m s circId addr port).1.circuit = s.circuit ∧
      (torStreamOpen m s circId addr port).1.stream =
        update s.stream slot { streamId := s.streamCounter, circId, state := .connecting } ∧
      (torStreamOpen m s circId addr port).1.streamCounter = s.streamCounter + 1 := by
  rcases hc : s.findCircuit (fun circ => circ.circId == circId && circ.state == .established) with _ | c
  · left
    simp only [torStreamOpen, hc]
  · rcases hslot : s.findStream (fun stream => stream.state == .none) with _ | slot
    · left
      simp only [torStreamOpen, hc, hslot]
    · right
      obtain ⟨hlt, hp⟩ := findCircuit_some hc
      obtain ⟨hslotLt, hq⟩ := findStream_some hslot
      rw [Bool.and_eq_true, beq_iff_eq, beq_iff_eq] at hp
      have hsame := sendRelay_same m
        { s.setStream slot { streamId := s.streamCounter, circId, state := .connecting } with
          streamCounter := s.streamCounter + 1 } c circId relayBegin s.streamCounter
        (addr.toList ++ [(port >>> 8).toUInt8, port.toUInt8])
      refine ⟨c, slot, hlt, hp.1, hp.2, hslotLt, beq_iff_eq.mp hq, ?_⟩
      simp only [torStreamOpen, hc, hslot]
      refine ⟨hsame.circuit, ?_, hsame.counter⟩
      rw [hsame.stream]
      exact stream_setStream s hslotLt _

theorem streamClose_cases (streamId : UInt32) :
    (∀ i, i < maxStreams → (s.stream i).streamId ≠ streamId) ∧ (torStreamClose m s streamId).1 = s ∨
    ∃ slot, slot < maxStreams ∧ (s.stream slot).streamId = streamId ∧
      (torStreamClose m s streamId).1.circuit = s.circuit ∧
      (torStreamClose m s streamId).1.stream =
        update s.stream slot { s.stream slot with state := .closed } ∧
      (torStreamClose m s streamId).1.streamCounter = s.streamCounter := by
  rcases hslot : s.findStream (fun stream => stream.streamId == streamId) with _ | slot
  · left
    constructor
    · intro i hi heq
      have hsome := findStream_isSome (s := s) (p := fun stream => stream.streamId == streamId)
      rw [hslot] at hsome
      exact Bool.false_ne_true (hsome.mpr ⟨i, hi, beq_iff_eq.mpr heq⟩)
    · simp only [torStreamClose, hslot]
  · right
    obtain ⟨hlt, hid⟩ := findStream_some hslot
    refine ⟨slot, hlt, beq_iff_eq.mp hid, ?_⟩
    have hsame : ∃ t, SameTables (s.setStream slot { s.stream slot with state := .closing }) t ∧
        (torStreamClose m s streamId).1 = t.setStream slot { s.stream slot with state := .closed } := by
      simp only [torStreamClose, hslot]
      split
      · exact ⟨_, .refl _, rfl⟩
      · exact ⟨_, sendRelay_same .., rfl⟩
    obtain ⟨t, ht, heq⟩ := hsame
    rw [heq]
    refine ⟨ht.circuit, ?_, ht.counter⟩
    rw [stream_setStream t hlt, ht.stream, stream_setStream s hlt, update_idem]

theorem circuitDestroy_tables (c : Fin maxCircuits) :
    (torCircuitDestroy m s (some c)).1.circuit = update s.circuit c (s.circuit c).clear ∧
      (torCircuitDestroy m s (some c)).1.stream = s.stream ∧
      (torCircuitDestroy m s (some c)).1.streamCounter = s.streamCounter := by
  have hcircuits : (torCircuitDestroy m s (some c)).1.circuits = (s.setCircuit c (s.circuit c).clear).circuits := by
    simp only [torCircuitDestroy, TorState.send, TorState.record, TorState.setCircuit]
  have hstreams : (torCircuitDestroy m s (some c)).1.streams = s.streams := by
    simp only [torCircuitDestroy, TorState.send, TorState.record]
  refine ⟨?_, ?_, ?_⟩
  · rw [← circuit_setCircuit s c.isLt]
    exact circuit_congr hcircuits
  · exact stream_congr hstreams
  · simp only [torCircuitDestroy, TorState.send, TorState.record]

theorem force_unused (h : ∀ i, i < maxCircuits → (s.circuit i).state = .none) :
    (List.finRange maxCircuits).foldl (forcePass m) s = s := by
  have hpass : ∀ i : Fin maxCircuits, forcePass m s i = s := by
    intro i
    rw [forcePass, if_neg (not_not_intro (h i i.isLt))]
  generalize List.finRange maxCircuits = entries
  induction entries with
  | nil => rfl
  | cons i entries ih => rw [List.foldl_cons, hpass, ih]

theorem force_dead (entries : List (Fin maxCircuits)) (i : Fin maxCircuits)
    (hi : i ∈ entries ∧ (s.circuit i).state ≠ .none ∨ (s.circuit i).state = .dead) :
    ((entries.foldl (forcePass m) s).circuit i).state = .dead := by
  -- A pass leaves its entry dead, and the others in use or dead as they were.
  have hpass : ∀ t j,
      (∀ i : Fin maxCircuits, (t.circuit i).state ≠ .none → ((forcePass m t j).circuit i).state ≠ .none) ∧
      (∀ i : Fin maxCircuits, (t.circuit i).state = .dead → ((forcePass m t j).circuit i).state = .dead) ∧
      ((t.circuit j).state ≠ .none → ((forcePass m t j).circuit j).state = .dead) := by
    intro t j
    by_cases hj : (t.circuit j).state = .none
    · rw [forcePass, if_neg (not_not_intro hj)]
      exact ⟨fun i hi => hi, fun i hi => hi, fun hne => absurd hj hne⟩
    · rw [forcePass, if_pos hj]
      obtain ⟨hcircuit, -, -⟩ := circuitDestroy_tables m t j
      have hdead : ∀ i : Fin maxCircuits, i = j →
          ((torCircuitDestroy m t (some j)).1.circuit i).state = .dead := by
        rintro i rfl
        rw [hcircuit, update_self]
        rfl
      have hother : ∀ i : Fin maxCircuits, i ≠ j →
          (torCircuitDestroy m t (some j)).1.circuit i = t.circuit i := by
        intro i hij
        rw [hcircuit, update_of_ne fun h => hij (Fin.ext h)]
      refine ⟨fun i hi => ?_, fun i hi => ?_, fun _ => hdead j rfl⟩
      · by_cases hij : i = j
        · rw [hdead i hij]
          decide
        · rw [hother i hij]
          exact hi
      · by_cases hij : i = j
        · exact hdead i hij
        · rw [hother i hij]
          exact hi
  induction entries generalizing s with
  | nil => exact hi.resolve_left fun h => nomatch h.1
  | cons j entries ih =>
    obtain ⟨hused, hdead, hself⟩ := hpass s j
    apply ih
    rcases hi with ⟨hmem, hne⟩ | hi
    · rcases List.mem_cons.mp hmem with rfl | hmem
      · exact Or.inr (hself hne)
      · exact Or.inl ⟨hmem, hused i hne⟩
    · exact Or.inr (hdead i hi)

end Calls

/-! ## One call -/

/-- How many entries of `tor_circuits` are in `TOR_CIRC_NONE`. -/
def unusedCircuits (s : TorState) : Nat := countBelow maxCircuits fun i => (s.circuit i).state == .none

/-- How many entries of `tor_streams` are in `TOR_STREAM_NONE`. -/
def unusedStreams (s : TorState) : Nat := countBelow maxStreams fun i => (s.stream i).state == .none

/-- **The invariant**: the tables are as `Lifecycle` wants them, every entry that is not in use is cleared, the ids that
the counters give out before the entries run out are not there yet, and the copies are of circuits in the table. -/
structure Ready (s : TorClient) : Prop where
  streamIds : ∀ i j, i < maxStreams → j < maxStreams → (s.core.stream i).Live → (s.core.stream j).Live →
    (s.core.stream i).streamId = (s.core.stream j).streamId → i = j
  circuitIds : ∀ i j, i < maxCircuits → j < maxCircuits → (s.core.circuit i).Live → (s.core.circuit j).Live →
    (s.core.circuit i).circId = (s.core.circuit j).circId → i = j
  onLive : ∀ i, i < maxStreams → (s.core.stream i).Live →
    ∃ c, c < maxCircuits ∧ (s.core.circuit c).Live ∧ (s.core.circuit c).circId = (s.core.stream i).circId
  circuitSlots : ∀ i, i < maxCircuits → ¬ (s.core.circuit i).Live → (s.core.circuit i).state = .none
  streamSlots : ∀ i, i < maxStreams → ¬ (s.core.stream i).Live → (s.core.stream i).state = .none
  idle : ∀ i, i < maxCircuits → (s.core.circuit i).state = .none → (s.core.circuit i).circId = 0
  circAhead : ∀ i, i < maxCircuits → Ahead s.circCounter (unusedCircuits s.core) (s.core.circuit i).circId
  streamAhead : ∀ i, i < maxStreams → (s.core.stream i).state ≠ .none →
    Ahead s.core.streamCounter (unusedStreams s.core) (s.core.stream i).streamId
  copiesHeld : ∀ copy ∈ s.copies, copy.slot < maxCircuits ∧ (s.core.circuit copy.slot).state ≠ .none ∧
    (s.core.circuit copy.slot).circId = copy.circ.circId ∧ copy.circ.state ≠ .dead

section Step

variable {m : TorMemory} {s : TorClient}

theorem Ready.lifecycle (h : Ready s) : Lifecycle s where
  streamIds := h.streamIds
  circuitIds := h.circuitIds
  onLive := h.onLive
  circuitSlots := h.circuitSlots
  streamSlots := h.streamSlots
  copySlots := fun copy hcopy hdead => absurd hdead (h.copiesHeld copy hcopy).2.2.2
  creates := by
    rintro hinit ⟨i, hi, hlive⟩
    have hfound : (s.core.findCircuit fun circ => circ.state == .none).isSome = true :=
      findCircuit_isSome.mpr ⟨i, hi, beq_iff_eq.mpr (h.circuitSlots i hi hlive)⟩
    obtain ⟨slot, hslot⟩ := Option.isSome_iff_exists.mp hfound
    simp [torCircuitCreate, hinit, hslot]
  opens := by
    rintro ⟨i, hi, hlive⟩
    exact findStream_isSome.mpr ⟨i, hi, beq_iff_eq.mpr (h.streamSlots i hi hlive)⟩

theorem Ready.congr {t : TorClient} (h : Ready s) (hcircuit : t.core.circuit = s.core.circuit)
    (hstream : t.core.stream = s.core.stream) (hcirc : t.circCounter = s.circCounter)
    (hstr : t.core.streamCounter = s.core.streamCounter) (hcopies : t.copies = s.copies) : Ready t where
  streamIds := by rw [hstream]; exact h.streamIds
  circuitIds := by rw [hcircuit]; exact h.circuitIds
  onLive := by rw [hstream, hcircuit]; exact h.onLive
  circuitSlots := by rw [hcircuit]; exact h.circuitSlots
  streamSlots := by rw [hstream]; exact h.streamSlots
  idle := by rw [hcircuit]; exact h.idle
  circAhead := by rw [hcirc, unusedCircuits, hcircuit]; exact h.circAhead
  streamAhead := by rw [hstr, unusedStreams, hstream]; exact h.streamAhead
  copiesHeld := by rw [hcircuit, hcopies]; exact h.copiesHeld

theorem Ready.live_or_none (h : Ready s) {i : Nat} (hi : i < maxCircuits) :
    (s.core.circuit i).Live ∨ (s.core.circuit i).state = .none := by
  by_cases hlive : (s.core.circuit i).Live
  · exact Or.inl hlive
  · exact Or.inr (h.circuitSlots i hi hlive)

theorem unusedCircuits_fill {core : TorState} {i : Nat} (hi : i < maxCircuits) (hnone : (core.circuit i).state = .none)
    {circ : TorCircuit} (hcirc : circ.state ≠ .none) :
    unusedCircuits (core.setCircuit i circ) + 1 = unusedCircuits core := by
  have hcount := countBelow_update_entry (fun circ : TorCircuit => circ.state == .none) core.circuit hi circ
  rw [hnone, beq_eq_false_iff_ne.mpr hcirc] at hcount
  rw [unusedCircuits, circuit_setCircuit core hi]
  exact hcount

theorem Ready.fill (h : Ready s) {i : Nat} (hi : i < maxCircuits) (hnone : (s.core.circuit i).state = .none)
    {circ : TorCircuit} (hlive : circ.Live) {counter : UInt32} {copies : List CircuitCopy}
    (hid : ∀ j, j < maxCircuits → (s.core.circuit j).Live → (s.core.circuit j).circId ≠ circ.circId)
    (hahead : Ahead counter (unusedCircuits (s.core.setCircuit i circ)) circ.circId)
    (hothers : ∀ j, j < maxCircuits →
      Ahead counter (unusedCircuits (s.core.setCircuit i circ)) (s.core.circuit j).circId)
    (hcopies : ∀ copy ∈ copies, copy ∈ s.copies ∨
      copy.slot = i ∧ copy.circ.circId = circ.circId ∧ copy.circ.state ≠ .dead) :
    Ready { s with core := s.core.setCircuit i circ, circCounter := counter, copies } := by
  have hcircuit : (s.core.setCircuit i circ).circuit = update s.core.circuit i circ :=
    circuit_setCircuit s.core hi circ
  have hnotLive : ¬ (s.core.circuit i).Live := fun hl => hl.1 hnone
  refine ⟨h.streamIds, fun j k hj hk hjl hkl heq => ?_, fun j hj hjl => ?_, fun j hj hjl => ?_, h.streamSlots,
    fun j hj hjn => ?_, fun j hj => ?_, h.streamAhead, fun copy hcopy => ?_⟩
  · simp only [hcircuit] at hjl hkl heq
    by_cases hji : j = i <;> by_cases hki : k = i
    · exact hji.trans hki.symm
    · rw [hji, update_self, update_of_ne hki] at heq
      rw [update_of_ne hki] at hkl
      exact absurd heq.symm (hid k hk hkl)
    · rw [hki, update_self, update_of_ne hji] at heq
      rw [update_of_ne hji] at hjl
      exact absurd heq (hid j hj hjl)
    · rw [update_of_ne hji] at heq hjl
      rw [update_of_ne hki] at heq hkl
      exact h.circuitIds j k hj hk hjl hkl heq
  · obtain ⟨c, hc, hcl, hcid⟩ := h.onLive j hj hjl
    have hci : c ≠ i := fun heq => hnotLive (heq ▸ hcl)
    refine ⟨c, hc, ?_, ?_⟩
    · simp only [hcircuit, update_of_ne hci]
      exact hcl
    · simp only [hcircuit, update_of_ne hci]
      exact hcid
  · simp only [hcircuit] at hjl ⊢
    by_cases hji : j = i
    · rw [hji, update_self] at hjl
      exact absurd hlive hjl
    · rw [update_of_ne hji] at hjl ⊢
      exact h.circuitSlots j hj hjl
  · simp only [hcircuit] at hjn ⊢
    by_cases hji : j = i
    · rw [hji, update_self] at hjn
      exact absurd hjn hlive.1
    · rw [update_of_ne hji] at hjn ⊢
      exact h.idle j hj hjn
  · simp only [hcircuit]
    by_cases hji : j = i
    · rw [hji, update_self]
      exact hahead
    · rw [update_of_ne hji]
      exact hothers j hj
  · simp only [hcircuit]
    rcases hcopies copy hcopy with hold | ⟨hslot, hcid, halive⟩
    · obtain ⟨hlt, hused, hcid, halive⟩ := h.copiesHeld copy hold
      have hne : copy.slot ≠ i := fun heq => hused (heq ▸ hnone)
      rw [update_of_ne hne]
      exact ⟨hlt, hused, hcid, halive⟩
    · rw [hslot, update_self]
      exact ⟨hi, hlive.1, hcid.symm, halive⟩

theorem Ready.create (h : Ready s) (isNull : Bool) : Ready (torCircuitCreate s isNull).1 := by
  unfold torCircuitCreate
  split
  · exact h
  · split
    · exact h
    · split
      · exact h
      · next slot hslot =>
        obtain ⟨hlt, hstate⟩ := findCircuit_some hslot
        have hnone := beq_iff_eq.mp hstate
        set circ : TorCircuit := { zeroCircuit with circId := s.circCounter, state := .building } with hcirc
        have hlive : circ.Live := ⟨nofun, nofun⟩
        have hcount := unusedCircuits_fill hlt hnone hlive.1
        have hroom : unusedCircuits s.core ≤ 32 := countBelow_le _ _
        apply h.fill hlt hnone hlive
        · intro j hj _
          exact (h.circAhead j hj).ne (by omega)
        · apply ahead_given
          omega
        · intro j hj
          apply Ahead.step
          rw [hcount]
          exact h.circAhead j hj
        · intro copy hcopy
          rcases List.mem_append.mp hcopy with hold | hnew
          · exact Or.inl hold
          · rw [List.mem_singleton.mp hnew]
            exact Or.inr ⟨rfl, rfl, hlive.2⟩

theorem Ready.change (h : Ready s) {i : Nat} (hi : i < maxCircuits) (hold : (s.core.circuit i).Live)
    {circ : TorCircuit} (hlive : circ.Live) (hid : circ.circId = (s.core.circuit i).circId) :
    Ready { s with core := s.core.setCircuit i circ } := by
  have hcircuit : (s.core.setCircuit i circ).circuit = update s.core.circuit i circ :=
    circuit_setCircuit s.core hi circ
  have hids : ∀ j, ((s.core.setCircuit i circ).circuit j).circId = (s.core.circuit j).circId := by
    intro j
    rw [hcircuit]
    by_cases hji : j = i
    · rw [hji, update_self, hid]
    · rw [update_of_ne hji]
  have hlives : ∀ j, ((s.core.setCircuit i circ).circuit j).Live ↔ (s.core.circuit j).Live := by
    intro j
    rw [hcircuit]
    by_cases hji : j = i
    · rw [hji, update_self]
      exact iff_of_true hlive hold
    · rw [update_of_ne hji]
  have hnones : ∀ j, ((s.core.setCircuit i circ).circuit j).state = .none ↔ (s.core.circuit j).state = .none := by
    intro j
    rw [hcircuit]
    by_cases hji : j = i
    · rw [hji, update_self]
      exact iff_of_false hlive.1 hold.1
    · rw [update_of_ne hji]
  have hcount : unusedCircuits (s.core.setCircuit i circ) = unusedCircuits s.core := by
    unfold unusedCircuits countBelow
    apply List.countP_congr
    intro j _
    rw [beq_iff_eq, beq_iff_eq]
    exact hnones j
  refine ⟨h.streamIds, fun j k hj hk hjl hkl heq => ?_, fun j hj hjl => ?_, fun j hj hjl => ?_, h.streamSlots,
    fun j hj hjn => ?_, fun j hj => ?_, h.streamAhead, fun copy hcopy => ?_⟩
  · simp only [hids, hlives] at hjl hkl heq
    exact h.circuitIds j k hj hk hjl hkl heq
  · obtain ⟨c, hc, hcl, hcid⟩ := h.onLive j hj hjl
    exact ⟨c, hc, (hlives c).mpr hcl, (hids c).trans hcid⟩
  · rw [hlives] at hjl
    exact (hnones j).mpr (h.circuitSlots j hj hjl)
  · rw [hids]
    exact h.idle j hj ((hnones j).mp hjn)
  · simp only [hids, hcount]
    exact h.circAhead j hj
  · obtain ⟨hlt, hused, hcid, halive⟩ := h.copiesHeld copy hcopy
    exact ⟨hlt, fun hn => hused ((hnones _).mp hn), (hids _).trans hcid, halive⟩

theorem extend_eq_some {circ new : TorCircuit} {hop : TorHop} (h : circ.extend hop = some new) :
    circ.hopCount.toNat < maxHops ∧ new.circId = circ.circId ∧ new.state = .extending := by
  unfold TorCircuit.extend at h
  split at h
  · next hlt =>
    obtain rfl := Option.some.inj h
    exact ⟨hlt, rfl, rfl⟩
  · cases h

theorem extend_isSome {circ : TorCircuit} (hop : TorHop) (h : circ.hopCount.toNat < maxHops) :
    ∃ new, circ.extend hop = some new := by
  unfold TorCircuit.extend
  rw [dif_pos h]
  exact ⟨_, rfl⟩

theorem Ready.setCopies (h : Ready s) {copies : List CircuitCopy}
    (hcopies : ∀ copy ∈ copies, ∃ old ∈ s.copies, copy.slot = old.slot ∧ copy.circ.circId = old.circ.circId ∧
      copy.circ.state ≠ .dead) : Ready { s with copies } where
  streamIds := h.streamIds
  circuitIds := h.circuitIds
  onLive := h.onLive
  circuitSlots := h.circuitSlots
  streamSlots := h.streamSlots
  idle := h.idle
  circAhead := h.circAhead
  streamAhead := h.streamAhead
  copiesHeld := fun copy hcopy => by
    obtain ⟨old, hold, hslot, hid, halive⟩ := hcopies copy hcopy
    obtain ⟨hlt, hused, hcid, -⟩ := h.copiesHeld old hold
    rw [hslot, hid]
    exact ⟨hlt, hused, hcid, halive⟩

theorem Ready.extend (h : Ready s) (e : ExtendMemory) (circ : CircuitPtr) (relay : Option TorRelay) :
    (Lifecycle (torCircuitExtend e s circ relay).1 ↔ Keeps s (.extend e circ relay)) ∧
    (Keeps s (.extend e circ relay) → Ready (torCircuitExtend e s circ relay).1) := by
  have hready : ∀ {t : TorClient}, Ready t → Keeps s (.extend e circ relay) →
      (Lifecycle t ↔ Keeps s (.extend e circ relay)) ∧ (Keeps s (.extend e circ relay) → Ready t) :=
    fun ht hk => ⟨iff_of_true ht.lifecycle hk, fun _ => ht⟩
  rcases relay with _ | relay
  · exact hready h (by cases circ <;> trivial)
  · rcases circ with _ | i | k
    · exact hready h trivial
    · rcases hnew : (s.core.circuit i).extend (deriveHopKeys e (keyMaterial e relay)) with _ | new
      · simp only [torCircuitExtend, hnew]
        refine hready h (Or.inl ?_)
        by_contra hlt
        obtain ⟨new, hsome⟩ := extend_isSome (deriveHopKeys e (keyMaterial e relay)) (Nat.lt_of_not_le hlt)
        rw [hnew] at hsome
        cases hsome
      · obtain ⟨hlt, hid, hstate⟩ := extend_eq_some hnew
        have hlive : new.Live := by rw [TorCircuit.Live, hstate]; exact ⟨nofun, nofun⟩
        simp only [torCircuitExtend, hnew]
        rcases h.live_or_none i.isLt with hold | hnone
        · exact hready (h.change i.isLt hold hlive hid) (Or.inr (Or.inl hold))
        · -- The entry gets live under the id that it has.
          by_cases hfree : ∀ j, j < maxCircuits → (s.core.circuit j).Live →
              (s.core.circuit j).circId ≠ (s.core.circuit i).circId
          · have hcount := unusedCircuits_fill i.isLt hnone hlive.1
            refine hready ?_ (Or.inr (Or.inr hfree))
            refine h.fill i.isLt hnone hlive (fun j hj hjl => ?_) ?_ (fun j hj => ?_) fun copy hcopy => Or.inl hcopy
            · rw [hid]
              exact hfree j hj hjl
            · rw [hid]
              exact (h.circAhead i i.isLt).mono (by omega)
            · exact (h.circAhead j hj).mono (by omega)
          · have hkeeps : ¬ Keeps s (.extend e (.entry i) (some relay)) := by
              rintro (hfull | hold | hids)
              · omega
              · exact hold.1 hnone
              · exact hfree hids
            refine ⟨iff_of_false (fun hl => ?_) hkeeps, fun hk => absurd hk hkeeps⟩
            push Not at hfree
            obtain ⟨j, hj, hjl, heq⟩ := hfree
            have hji : j ≠ i := by
              rintro rfl
              exact hjl.1 hnone
            have hsame := hl.circuitIds j i hj i.isLt
            simp only [circuit_setCircuit s.core i.isLt, update_self, update_of_ne hji] at hsame
            exact hji (hsame hjl hlive (heq.trans hid.symm))
    · rcases hk : s.copies[k]? with _ | copy
      · simp only [torCircuitExtend, hk]
        exact hready h trivial
      · rcases hnew : copy.circ.extend (deriveHopKeys e (keyMaterial e relay)) with _ | new
        · simp only [torCircuitExtend, hk, hnew]
          exact hready h trivial
        · simp only [torCircuitExtend, hk, hnew]
          obtain ⟨-, hid, hstate⟩ := extend_eq_some hnew
          refine hready (h.setCopies fun c hc => ?_) trivial
          rcases List.mem_or_eq_of_mem_set hc with hold | rfl
          · exact ⟨c, hold, rfl, rfl, (h.copiesHeld c hold).2.2.2⟩
          · refine ⟨copy, List.mem_of_getElem? hk, rfl, hid, ?_⟩
            rw [hstate]
            exact nofun

theorem Ready.destroy (h : Ready s) (m : TorMemory) (circ : CircuitPtr) :
    (Lifecycle (torDestroyAt m s circ).1 ↔ Keeps s (.destroy circ)) ∧
    (Keeps s (.destroy circ) → Ready (torDestroyAt m s circ).1) := by
  rcases circ with _ | i | k
  · exact ⟨iff_of_true h.lifecycle trivial, fun _ => h⟩
  · refine ⟨iff_of_false (fun hl => ?_) id, fun hk => absurd hk id⟩
    obtain ⟨hcircuit, -, -⟩ := circuitDestroy_tables m s.core i
    have hslot := hl.circuitSlots i i.isLt
    simp only [torDestroyAt, hcircuit, update_self] at hslot
    exact CircState.noConfusion (hslot fun hlive => hlive.2 rfl)
  · rcases hk : s.copies[k]? with _ | copy
    · simp only [torDestroyAt, hk]
      exact ⟨iff_of_true h.lifecycle (List.getElem?_eq_none_iff.mp hk), fun _ => h⟩
    · have hlt : k < s.copies.length := (List.getElem?_eq_some_iff.mp hk).1
      have hkeeps : ¬ Keeps s (.destroy (.copy k)) := Nat.not_le.mpr hlt
      refine ⟨iff_of_false (fun hl => ?_) hkeeps, fun hk => absurd hk hkeeps⟩
      obtain ⟨-, hused, hcid, -⟩ := h.copiesHeld copy (List.mem_of_getElem? hk)
      have hcircuit : (torDestroyAt m s (.copy k)).1.core.circuit = s.core.circuit := by
        apply circuit_congr
        simp only [torDestroyAt, hk]
      have hmem : { copy with circ := copy.circ.clear } ∈ (torDestroyAt m s (.copy k)).1.copies := by
        simp only [torDestroyAt, hk]
        exact List.mem_set hlt _
      rcases hl.copySlots _ hmem rfl with hnone | hne
      · rw [hcircuit] at hnone
        exact hused hnone
      · rw [hcircuit] at hne
        exact hne hcid

theorem Ready.force (h : Ready s) (m : TorMemory) :
    (Lifecycle (torForceNewCircuit m s) ↔ Keeps s .force) ∧ (Keeps s .force → Ready (torForceNewCircuit m s)) := by
  by_cases hnone : ∀ i, i < maxCircuits → (s.core.circuit i).state = .none
  · have hready : Ready (torForceNewCircuit m s) := by
      -- No circuit is live, and so no stream is.
      have hdead : ∀ i, i < maxCircuits → ¬ (s.core.circuit i).Live := fun i hi hl => hl.1 (hnone i hi)
      have hstreams : ∀ i, i < maxStreams → (s.core.stream i).state = .none := by
        intro i hi
        apply h.streamSlots i hi
        intro hl
        obtain ⟨c, hc, hcl, -⟩ := h.onLive i hi hl
        exact hdead c hc hcl
      unfold torForceNewCircuit
      rw [force_unused m s.core hnone]
      refine ⟨h.streamIds, h.circuitIds, h.onLive, h.circuitSlots, h.streamSlots, h.idle, fun i hi => ?_,
        fun i hi hne => absurd (hstreams i hi) hne, h.copiesHeld⟩
      show Ahead _ (unusedCircuits s.core) (s.core.circuit i).circId
      rw [h.idle i hi (hnone i hi)]
      intro k hk heq
      have hroom : unusedCircuits s.core ≤ 32 := countBelow_le _ _
      have hval := congrArg UInt32.toNat heq
      rw [UInt32.toNat_add, UInt32.toNat_add, UInt32.toNat_and, UInt32.toNat_ofNat'] at hval
      have hmask : s.circCounter.toNat &&& (0xFFFF : UInt32).toNat ≤ 0xFFFF := Nat.and_le_right
      have hzero : (0 : UInt32).toNat = 0 := rfl
      have hhigh : (0x10000 : UInt32).toNat = 0x10000 := rfl
      omega
    exact ⟨iff_of_true hready.lifecycle hnone, fun _ => hready⟩
  · refine ⟨iff_of_false (fun hl => ?_) hnone, fun hk => absurd hk hnone⟩
    push Not at hnone
    obtain ⟨i, hi, hne⟩ := hnone
    have hdead := force_dead m s.core (List.finRange maxCircuits) ⟨i, hi⟩ (Or.inl ⟨List.mem_finRange _, hne⟩)
    have hcircuit : (torForceNewCircuit m s).core.circuit =
        ((List.finRange maxCircuits).foldl (forcePass m) s.core).circuit := by
      apply circuit_congr
      simp only [torForceNewCircuit]
    have hslot := hl.circuitSlots i hi
    rw [hcircuit] at hslot
    exact CircState.noConfusion (hdead.symm.trans (hslot fun hlive => hlive.2 hdead))

theorem Ready.streamOpen (h : Ready s) (m : TorMemory) (circId : UInt32) (addr : Vector UInt8 4) (port : UInt16) :
    Ready { s with core := (torStreamOpen m s.core circId addr port).1 } := by
  rcases streamOpen_cases m s.core circId addr port with hsame |
    ⟨c, slot, hc, hid, hstate, hlt, hnone, hcircuit, hstream, hcounter⟩
  · rw [hsame]
    exact h
  · have hcount := countBelow_update_entry (fun stream : TorStream => stream.state == .none) s.core.stream hlt
      { streamId := s.core.streamCounter, circId, state := .connecting }
    rw [hnone, ← hstream] at hcount
    change unusedStreams (torStreamOpen m s.core circId addr port).1 + 1 = unusedStreams s.core at hcount
    have hroom : unusedStreams s.core ≤ 64 := countBelow_le _ _
    have hlive : (s.core.circuit c).Live := by rw [TorCircuit.Live, hstate]; exact ⟨nofun, nofun⟩
    generalize (torStreamOpen m s.core circId addr port).1 = core at hcircuit hstream hcounter hcount
    refine ⟨fun j k hj hk hjl hkl heq => ?_, ?_, fun j hj hjl => ?_, ?_, fun j hj hjl => ?_, ?_, ?_,
      fun j hj hjn => ?_, ?_⟩
    · have hfresh : ∀ j, j < maxStreams → (s.core.stream j).Live →
          (s.core.stream j).streamId ≠ s.core.streamCounter :=
        fun j hj hjl => (h.streamAhead j hj hjl.1).ne (by omega)
      simp only [hstream] at hjl hkl heq
      by_cases hji : j = slot <;> by_cases hki : k = slot
      · exact hji.trans hki.symm
      · rw [hji, update_self, update_of_ne hki] at heq
        rw [update_of_ne hki] at hkl
        exact absurd heq.symm (hfresh k hk hkl)
      · rw [hki, update_self, update_of_ne hji] at heq
        rw [update_of_ne hji] at hjl
        exact absurd heq (hfresh j hj hjl)
      · rw [update_of_ne hji] at heq hjl
        rw [update_of_ne hki] at heq hkl
        exact h.streamIds j k hj hk hjl hkl heq
    · rw [hcircuit]
      exact h.circuitIds
    · simp only [hstream] at hjl ⊢
      rw [hcircuit]
      by_cases hji : j = slot
      · rw [hji, update_self]
        exact ⟨c, hc, hlive, hid⟩
      · rw [update_of_ne hji] at hjl ⊢
        exact h.onLive j hj hjl
    · rw [hcircuit]
      exact h.circuitSlots
    · simp only [hstream] at hjl ⊢
      by_cases hji : j = slot
      · rw [hji, update_self] at hjl
        exact absurd ⟨nofun, nofun⟩ hjl
      · rw [update_of_ne hji] at hjl ⊢
        exact h.streamSlots j hj hjl
    · rw [hcircuit]
      exact h.idle
    · rw [unusedCircuits, hcircuit]
      exact h.circAhead
    · show Ahead core.streamCounter (unusedStreams core) (core.stream j).streamId
      rw [hcounter]
      simp only [hstream] at hjn ⊢
      by_cases hji : j = slot
      · rw [hji, update_self]
        exact ahead_given (by omega)
      · rw [update_of_ne hji] at hjn ⊢
        apply Ahead.step
        rw [hcount]
        exact h.streamAhead j hj hjn
    · rw [hcircuit]
      exact h.copiesHeld

theorem Ready.streamClose (h : Ready s) (m : TorMemory) (streamId : UInt32) :
    (Lifecycle { s with core := (torStreamClose m s.core streamId).1 } ↔ Keeps s (.streamClose streamId)) ∧
    (Keeps s (.streamClose streamId) → Ready { s with core := (torStreamClose m s.core streamId).1 }) := by
  rcases streamClose_cases m s.core streamId with ⟨hnone, hsame⟩ | ⟨slot, hlt, hid, -, hstream, -⟩
  · rw [hsame]
    exact ⟨iff_of_true h.lifecycle hnone, fun _ => h⟩
  · have hkeeps : ¬ Keeps s (.streamClose streamId) := fun hk => hk slot hlt hid
    refine ⟨iff_of_false (fun hl => ?_) hkeeps, fun hk => absurd hk hkeeps⟩
    have hslot := hl.streamSlots slot hlt
    simp only [hstream, update_self] at hslot
    exact StreamState.noConfusion (hslot fun hlive => hlive.2 rfl)

theorem Ready.flush (h : Ready s) (m : TorMemory) : Ready (torFlushStreams m s) := by
  have hloop : (forEach maxStreams (flushPass m) s.core).circuit = s.core.circuit := by
    apply forEach_preserves (P := fun core : TorState => core.circuit = s.core.circuit) rfl
    intro i core _ hcore
    unfold flushPass
    split
    · rcases streamClose_cases m core (core.stream i).streamId with ⟨-, hsame⟩ | ⟨_, _, _, hcircuit, _, _⟩
      · rw [hsame]
        exact hcore
      · exact hcircuit.trans hcore
    · exact hcore
  have hcircuit : (torFlushStreams m s).core.circuit = s.core.circuit := by
    refine (circuit_congr ?_).trans hloop
    simp only [torFlushStreams]
  have hnone : ∀ i, ((torFlushStreams m s).core.stream i).state = .none := by
    intro i
    have hstreams : (torFlushStreams m s).core.streams = Vector.replicate maxStreams zeroStream := by
      simp only [torFlushStreams]
    rw [TorState.stream, hstreams, Vector.toList_replicate, List.getD_eq_getElem?_getD, List.getElem?_replicate]
    split <;> rfl
  refine ⟨fun i _ _ _ hl => absurd (hnone i) hl.1, ?_, fun i _ hl => absurd (hnone i) hl.1, ?_,
    fun i _ _ => hnone i, ?_, ?_, fun i _ hne => absurd (hnone i) hne, ?_⟩
  · rw [hcircuit]
    exact h.circuitIds
  · rw [hcircuit]
    exact h.circuitSlots
  · rw [hcircuit]
    exact h.idle
  · have hcounter : (torFlushStreams m s).circCounter = s.circCounter := by simp only [torFlushStreams]
    rw [unusedCircuits, hcircuit, hcounter]
    exact h.circAhead
  · have hcopies : (torFlushStreams m s).copies = s.copies := by simp only [torFlushStreams]
    rw [hcircuit, hcopies]
    exact h.copiesHeld

theorem Ready.step (h : Ready s) (m : TorMemory) (call : ClientCall) :
    (Lifecycle (step m s call) ↔ Keeps s call) ∧ (Keeps s call → Ready (step m s call)) := by
  have hready : ∀ {t : TorClient} {call : ClientCall}, Ready t → Keeps s call →
      (Lifecycle t ↔ Keeps s call) ∧ (Keeps s call → Ready t) :=
    fun ht hk => ⟨iff_of_true ht.lifecycle hk, fun _ => ht⟩
  cases call with
  | create isNull => exact hready (h.create isNull) trivial
  | extend e circ relay => exact h.extend e circ relay
  | destroy circ => exact h.destroy m circ
  | force => exact h.force m
  | streamOpen circId addr port => exact hready (h.streamOpen m circId addr port) trivial
  | sendData streamId data =>
    have hsame := sendData_same m s.core streamId data
    exact hready (h.congr hsame.circuit hsame.stream rfl hsame.counter rfl) trivial
  | streamClose streamId => exact h.streamClose m streamId
  | flush => exact hready (h.flush m) trivial

end Step

/-! ## Runs -/

theorem ready_torInit (s : TorClient) : Ready (torInit s) := by
  have hcircuit : ∀ i, (torInit s).core.circuit i = zeroCircuit := by
    intro i
    rw [TorState.circuit, torInit, Vector.toList_replicate, List.getD_eq_getElem?_getD, List.getElem?_replicate]
    split <;> rfl
  have hstream : ∀ i, ((torInit s).core.stream i).state = .none := by
    intro i
    rw [TorState.stream, torInit, Vector.toList_replicate, List.getD_eq_getElem?_getD, List.getElem?_replicate]
    split <;> rfl
  have hidle : ∀ i, ¬ ((torInit s).core.circuit i).Live := by
    intro i hl
    rw [hcircuit] at hl
    exact hl.1 rfl
  refine ⟨fun i _ _ _ hl => absurd (hstream i) hl.1, fun i _ _ _ hl => absurd hl (hidle i),
    fun i _ hl => absurd (hstream i) hl.1, fun i _ _ => ?_, fun i _ _ => hstream i, fun i _ _ => ?_, fun i _ => ?_,
    fun i _ hne => absurd (hstream i) hne, fun copy hcopy => ?_⟩
  · rw [hcircuit]
    rfl
  · rw [hcircuit]
    rfl
  · rw [hcircuit]
    intro k hk heq
    have hroom : unusedCircuits (torInit s).core ≤ 32 := countBelow_le _ _
    have hval := congrArg UInt32.toNat heq
    rw [UInt32.toNat_add, UInt32.toNat_ofNat'] at hval
    have hzero : zeroCircuit.circId.toNat = 0 := rfl
    have hhigh : (torInit s).circCounter.toNat = 0x10000 := rfl
    omega
  · exact absurd hcopy List.not_mem_nil

/-- **The life of circuits and streams over every run**: from `tor_init`, and from any tables that meet the invariant
(in which circuits may be established and carry streams), they are kept in every state reached exactly when every call
of the run meets its condition. -/
theorem lifecycle_run_iff (m : TorMemory) : (∀ s, Ready (torInit s)) ∧ ∀ s calls, Ready s →
      (AllStates Lifecycle s (traceOf (step m) s calls) ↔ Guarded Keeps s (traceOf (step m) s calls)) := by
  refine ⟨ready_torInit, fun s calls h => ?_⟩
  refine (trace_traceOf (step m) s calls).allSteps_iff_guarded (J := Ready) ?_ ?_ h
  · rintro s call t hs rfl
    exact (hs.step m call).1
  · rintro s call t hs rfl hl
    exact (hs.step m call).2 ((hs.step m call).1.mp hl)

/-- The client at power-on, with an empty log. -/
def client : TorClient :=
  { core :=
      { circuits := Vector.replicate maxCircuits zeroCircuit
        streams := Vector.replicate maxStreams zeroStream
        streamCounter := 0, bytesSent := 0, bytesRecv := 0, log := fun _ => [] }
    circCounter := 0, initialized := false, copies := [] }

/-- `tor_circuit_create`, then `tor_circuit_destroy` of what it gave, 32 times. -/
def churn : List ClientCall := (List.range 32).flatMap fun k => [.create false, .destroy (.copy k)]

/-- A client that destroys each circuit it creates is refused the next one after 32, with every entry of the table still
building. -/
theorem churn_refused : ¬ AllStates Lifecycle (torInit client) (traceOf (step zeroMemory) (torInit client) churn) ∧
      (torCircuitCreate (churn.foldl (step zeroMemory) (torInit client)) false).2 = -3 := by
  constructor
  · intro h
    have hready := (ready_torInit client).create false
    have hlife : Lifecycle (torDestroyAt zeroMemory (torCircuitCreate (torInit client) false).1 (.copy 0)).1 := h.2.1
    have hkeeps : (torCircuitCreate (torInit client) false).1.copies.length ≤ 0 :=
      (hready.destroy zeroMemory (.copy 0)).1.mp hlife
    exact absurd hkeeps (by decide)
  · decide +kernel

/-- A circuit is created, and what there is not is destroyed, closed and flushed. -/
theorem created_kept : AllStates Lifecycle (torInit client) (traceOf (step zeroMemory) (torInit client)
      [.create false, .destroy (.copy 7), .streamClose 5, .flush]) := by
  obtain ⟨hinit, hrun⟩ := lifecycle_run_iff zeroMemory
  refine (hrun _ _ (hinit client)).mpr ⟨trivial, ?_, ?_, trivial, trivial⟩
  · show (torCircuitCreate (torInit client) false).1.copies.length ≤ 7
    decide
  · show ∀ i, i < maxStreams → _
    decide

end Chicago95.Stage2.Tor
