/-
# Chicago95.Stage2.TorRuns — the keystreams of a circuit over runs, `security/tor/core/tor_core.c`.

Every layer of `tor_encrypt_cell` and of `tor_decrypt_cell` starts from a counter of zeros, under the forward key of
its hop: nothing goes on from one cell to the next, and two cells on one circuit are XORed with the same bytes
(`sent_xor`). `log` is what has gone through a circuit, and `next_adds` says what a call adds to it.
-/
import Chicago95.Lib.Transition
import Chicago95.Stage2.TorCell

namespace Chicago95.Stage2.Tor

open Chicago95.Lib.Transition Chicago95.Stage2.Aes

/-! ## Streams and the tables -/

/-- `TOR_MAX_CIRCUITS` -/
abbrev maxCircuits : Nat := 32
/-- `TOR_MAX_STREAMS` -/
abbrev maxStreams : Nat := 64

/-- `TOR_STREAM_*` -/
inductive StreamState
  | none | connecting | opened | proxyWait | established | closing | closed
  deriving DecidableEq

/-- `tor_stream_t`, the fields that are read. -/
structure TorStream where
  streamId : UInt32
  circId : UInt32
  state : StreamState

/-- What has gone through a circuit: a cell passed to `tor_circuit_send_cell` or to `tor_circuit_recv_cell`, with the
circuit as it was, and the end of a `tor_circuit_destroy`. -/
inductive LogEntry
  | sent (circ : TorCircuit) (cell : TorCell)
  | received (circ : TorCircuit) (cell : TorCell)
  | cleared

/-- The statics of the file, and for each circuit what has gone through it, the last first. -/
structure TorState where
  circuits : Vector TorCircuit maxCircuits
  streams : Vector TorStream maxStreams
  streamCounter : UInt32
  bytesSent : UInt64
  bytesRecv : UInt64
  log : Nat → List LogEntry

/-- A circuit after `sec_memzero`. -/
def zeroCircuit : TorCircuit :=
  { circId := 0, state := .none, hopCount := 0, hops := Vector.replicate maxHops zeroHop, hopCount_le := by decide }

namespace TorState

/-- `tor_circuits[i]` -/
def circuit (s : TorState) (i : Nat) : TorCircuit := s.circuits.toList.getD i zeroCircuit

/-- `tor_streams[i]` -/
def stream (s : TorState) (i : Nat) : TorStream :=
  s.streams.toList.getD i { streamId := 0, circId := 0, state := .none }

/-- The first circuit that is looked for. -/
def findCircuit (s : TorState) (p : TorCircuit → Bool) : Option Nat :=
  (List.range maxCircuits).find? fun i => p (s.circuit i)

/-- The first stream that is looked for. -/
def findStream (s : TorState) (p : TorStream → Bool) : Option Nat :=
  (List.range maxStreams).find? fun i => p (s.stream i)

def setStream (s : TorState) (i : Nat) (stream : TorStream) : TorState :=
  { s with streams := s.streams.setIfInBounds i stream }

/-- An entry in the log of a circuit. -/
def record (s : TorState) (c : Nat) (entry : LogEntry) : TorState :=
  { s with log := fun k => if k = c then entry :: s.log k else s.log k }

/-- `tor_circuit_send_cell` on `tor_circuits[c]`. -/
def send (s : TorState) (c : Nat) (cell : TorCell) : TorState :=
  { s.record c (.sent (s.circuit c) cell) with bytesSent := s.bytesSent + 512 }

/-- A relay cell is built and sent. The callers build none that does not fit (`sendRelay_eq`). -/
def sendRelay (m : TorMemory) (s : TorState) (c : Nat) (circId : UInt32) (relayCmd : UInt8) (streamId : UInt32)
    (payload : List UInt8) : TorState :=
  match relayCellFor m (s.circuit c) circId relayCmd streamId payload with
  | none => s
  | some cell => s.send c cell

end TorState

/-! ## The calls -/

/-- `TOR_RELAY_BEGIN` -/
def relayBegin : UInt8 := 1
/-- `TOR_RELAY_DATA` -/
def relayData : UInt8 := 2
/-- `TOR_RELAY_END` -/
def relayEnd : UInt8 := 3

def torStreamOpen (m : TorMemory) (s : TorState) (circId : UInt32) (addr : Vector UInt8 4) (port : UInt16) :
    TorState × Int32 :=
  match s.findCircuit fun circ => circ.circId == circId && circ.state == .established with
  | none => (s, -1)
  | some c =>
    match s.findStream fun stream => stream.state == .none with
    | none => (s, -2)
    | some slot =>
      let streamId := s.streamCounter
      let s := { s.setStream slot { streamId, circId, state := .connecting } with streamCounter := streamId + 1 }
      (s.sendRelay m c circId relayBegin streamId (addr.toList ++ [(port >>> 8).toUInt8, port.toUInt8]),
        streamId.toInt32)

/-- The pieces of at most 486 bytes that `tor_stream_send_data` makes of the data. -/
def chunks (data : List UInt8) : List (List UInt8) :=
  (List.range ((data.length + 485) / 486)).map fun k => (data.drop (k * 486)).take 486

def torStreamSendData (m : TorMemory) (s : TorState) (streamId : UInt32) (data : Option (List UInt8)) :
    TorState × Int32 :=
  match data with
  | none => (s, -1)
  | some data =>
    if data.length = 0 then (s, -1)
    else
      match s.findStream fun stream => stream.streamId == streamId && stream.state == .established with
      | none => (s, -2)
      | some slot =>
        let stream := s.stream slot
        match s.findCircuit fun circ => circ.circId == stream.circId with
        | none => (s, -3)
        | some c =>
          ((chunks data).foldl
            (fun s chunk => s.sendRelay m c stream.circId relayData stream.streamId chunk) s, 0)

def torStreamClose (m : TorMemory) (s : TorState) (streamId : UInt32) : TorState × Int32 :=
  match s.findStream fun stream => stream.streamId == streamId with
  | none => (s, -1)
  | some slot =>
    let stream := s.stream slot
    let s := s.setStream slot { stream with state := .closing }
    let s := match s.findCircuit fun circ => circ.circId == stream.circId with
      | none => s
      | some c => s.sendRelay m c stream.circId relayEnd stream.streamId [1]
    (s.setStream slot { stream with state := .closed }, 0)

/-- The circuit with its hops cleared. -/
def TorCircuit.clear (circ : TorCircuit) : TorCircuit :=
  { circ with
    state := .dead
    hops := Vector.ofFn fun i => if i.val < circ.hopCount.toNat then zeroHop else circ.hops.get i }

/-- The DESTROY cell, whose payload is what the stack held. -/
def destroyCell (m : TorMemory) (circ : TorCircuit) : TorCell :=
  { circuitId := circ.circId, command := .destroy, payloadLen := 0, payload := m.cell }

def torCircuitDestroy (m : TorMemory) (s : TorState) (circ : Option (Fin maxCircuits)) : TorState × Int32 :=
  match circ with
  | none => (s, -1)
  | some c =>
    let circ := s.circuit c
    let s := s.send c (destroyCell m circ)
    ({ s.record c .cleared with circuits := s.circuits.setIfInBounds c circ.clear }, 0)

/-- `tor_circuit_recv_cell` on an entry of the table: what it returns, and the cell as it leaves it. -/
def torCircuitRecv (m : TorMemory) (s : TorState) (circ : Option (Fin maxCircuits)) (cell : TorCell) :
    TorState × Int32 × TorCell :=
  match circ with
  | none => (s, -1, cell)
  | some c =>
    ({ s.record c (.received (s.circuit c) cell) with bytesRecv := s.bytesRecv + 512 }, 0,
      torCircuitRecvCell m (s.circuit c) cell)

/-- A call of the interface. -/
inductive TorCall
  | streamOpen (circId : UInt32) (addr : Vector UInt8 4) (port : UInt16)
  | sendData (streamId : UInt32) (data : Option (List UInt8))
  | streamClose (streamId : UInt32)
  | destroy (circ : Option (Fin maxCircuits))
  | recv (circ : Option (Fin maxCircuits)) (cell : TorCell)

/-- The state after a call. -/
def next (m : TorMemory) (s : TorState) : TorCall → TorState
  | .streamOpen circId addr port => (torStreamOpen m s circId addr port).1
  | .sendData streamId data => (torStreamSendData m s streamId data).1
  | .streamClose streamId => (torStreamClose m s streamId).1
  | .destroy circ => (torCircuitDestroy m s circ).1
  | .recv circ cell => (torCircuitRecv m s circ cell).1

/-! ## Keystreams -/

/-- The keystream of the layer of hop `i`. -/
def hopKeystream (m : TorMemory) (circ : TorCircuit) (i : Nat) : Payload :=
  Vector.ofFn fun b => keystreamByte (layerContext m (i + 1) (circ.hop i).forwardKey) zeroIv b.val

/-- No hop has the same keystream in both. -/
def KeystreamsDiffer (m : TorMemory) (a b : TorCircuit) : Prop :=
  ∀ i, i < a.hopCount.toNat → i < b.hopCount.toNat → hopKeystream m a i ≠ hopKeystream m b i

/-- The two have no key in common. -/
def KeysDiffer (a b : TorCircuit) : Prop :=
  ∀ i j, i < a.hopCount.toNat → j < b.hopCount.toNat → (a.hop i).forwardKey ≠ (b.hop j).forwardKey

/-- Two cells sent differ in the keystream of every hop, a cell sent and one received in all keys. -/
def Compatible (m : TorMemory) : LogEntry → LogEntry → Prop
  | .sent a _, .sent b _ => KeystreamsDiffer m a b
  | .sent a _, .received b _ => KeysDiffer a b
  | .received a _, .sent b _ => KeysDiffer b a
  | _, _ => True

/-- **What is asked of a circuit**: no two cells of its log share a keystream of a hop in one direction, or a key
across the two. -/
def Apart (m : TorMemory) (log : List LogEntry) : Prop := log.Pairwise (Compatible m)

/-- The circuit may carry a cell: nothing has gone through it, or only the cell of the call that cleared its keys, and
the keystreams of the keys it has now are other ones. -/
def MaySend (m : TorMemory) (circ : TorCircuit) (log : List LogEntry) : Prop :=
  log = [] ∨ ∃ old cell, log = [.cleared, .sent old cell] ∧ KeystreamsDiffer m circ old

/-- The circuit may hear a cell: no cell was sent under the keys it has. -/
def MayReceive (circ : TorCircuit) (log : List LogEntry) : Prop :=
  ∃ heard first, log = heard ++ first ∧ (∀ e ∈ heard, ∃ old cell, e = .received old cell) ∧
    (first = [] ∨ ∃ old cell, first = [.cleared, .sent old cell] ∧ KeysDiffer old circ)

/-- What a call does with which circuit. -/
inductive Use
  | nothing
  | send (c n : Nat)
  | receive (c : Nat)

/-- The circuit that a call uses, and how many cells it sends there. -/
def TorCall.use (s : TorState) : TorCall → Use
  | .streamOpen circId _ _ =>
    match s.findCircuit fun circ => circ.circId == circId && circ.state == .established with
    | none => .nothing
    | some c =>
      match s.findStream fun stream => stream.state == .none with
      | none => .nothing
      | some _ => .send c 1
  | .sendData _ none => .nothing
  | .sendData streamId (some data) =>
    if data.length = 0 then .nothing
    else
      match s.findStream fun stream => stream.streamId == streamId && stream.state == .established with
      | none => .nothing
      | some slot =>
        match s.findCircuit fun circ => circ.circId == (s.stream slot).circId with
        | none => .nothing
        | some c => .send c (chunks data).length
  | .streamClose streamId =>
    match s.findStream fun stream => stream.streamId == streamId with
    | none => .nothing
    | some slot =>
      match s.findCircuit fun circ => circ.circId == (s.stream slot).circId with
      | none => .nothing
      | some c => .send c 1
  | .destroy none => .nothing
  | .destroy (some c) => .send c 1
  | .recv none _ => .nothing
  | .recv (some c) _ => .receive c

/-- **The condition on a call**: a circuit with hops carries one cell, and only where it may. -/
def Allowed (m : TorMemory) (s : TorState) (call : TorCall) : Prop :=
  match call.use s with
  | .nothing => True
  | .send c n => (s.circuit c).hopCount = 0 ∨ n = 1 ∧ MaySend m (s.circuit c) (s.log c)
  | .receive c => (s.circuit c).hopCount = 0 ∨ MayReceive (s.circuit c) (s.log c)

/-! ## What a call adds to the logs -/

section Send

variable (s : TorState) (c : Nat) (cell : TorCell)

theorem circuits_send : (s.send c cell).circuits = s.circuits := by
  simp only [TorState.send, TorState.record]

theorem log_send (k : Nat) :
    (s.send c cell).log k = if k = c then .sent (s.circuit c) cell :: s.log k else s.log k := by
  simp only [TorState.send, TorState.record]

end Send

theorem sendRelay_eq (m : TorMemory) (s : TorState) (c : Nat) (circId : UInt32) (relayCmd : UInt8)
    (streamId : UInt32) {payload : List UInt8} (hfits : payload.length ≤ 494) :
    ∃ cell, s.sendRelay m c circId relayCmd streamId payload = s.send c cell := by
  have hroom : ¬ payloadSize < 11 + payload.length := by
    show ¬ 505 < 11 + payload.length
    omega
  rcases hbuilt : relayCellFor m (s.circuit c) circId relayCmd streamId payload with _ | cell
  · rw [relayCellFor, buildRelayCell, Option.map_eq_none_iff, plainRelayCell, if_neg hroom] at hbuilt
    cases hbuilt
  · exact ⟨cell, by rw [TorState.sendRelay, hbuilt]⟩

/-- The circuits are the same, and `cells` have been sent on one of them. -/
structure Sent (s t : TorState) (c : Nat) (cells : List TorCell) : Prop where
  circuits : t.circuits = s.circuits
  log : ∀ k, t.log k = if k = c then cells.map (.sent (s.circuit c)) ++ s.log k else s.log k

theorem sent_sendRelay (m : TorMemory) (s : TorState) (c : Nat) (circId : UInt32) (relayCmd : UInt8)
    (streamId : UInt32) {payload : List UInt8} (hfits : payload.length ≤ 494) :
    ∃ cell, Sent s (s.sendRelay m c circId relayCmd streamId payload) c [cell] := by
  obtain ⟨cell, hcell⟩ := sendRelay_eq m s c circId relayCmd streamId hfits
  rw [hcell]
  exact ⟨cell, circuits_send s c cell, log_send s c cell⟩

theorem Sent.circuit {s t : TorState} {c : Nat} {cells : List TorCell} (h : Sent s t c cells) (k : Nat) :
    t.circuit k = s.circuit k := by
  rw [TorState.circuit, h.circuits]
  rfl

theorem Sent.trans {s t u : TorState} {c : Nat} {cells cells' : List TorCell} (h : Sent s t c cells)
    (h' : Sent t u c cells') : Sent s u c (cells' ++ cells) := by
  refine ⟨h'.circuits.trans h.circuits, ?_⟩
  intro k
  rw [h'.log, h.log, h.circuit]
  split
  · rw [List.map_append, List.append_assoc]
  · rfl

theorem sent_foldl (m : TorMemory) (c : Nat) (circId : UInt32) (relayCmd : UInt8) (streamId : UInt32)
    {payloads : List (List UInt8)} (hfits : ∀ payload ∈ payloads, payload.length ≤ 494) (s : TorState) :
    ∃ cells, cells.length = payloads.length ∧
      Sent s (payloads.foldl (fun s payload => s.sendRelay m c circId relayCmd streamId payload) s) c cells := by
  induction payloads generalizing s with
  | nil => exact ⟨[], rfl, rfl, fun k => by split <;> rfl⟩
  | cons payload payloads ih =>
    obtain ⟨cell, hfirst⟩ := sent_sendRelay m s c circId relayCmd streamId (hfits payload List.mem_cons_self)
    obtain ⟨cells, hlen, hrest⟩ :=
      ih (fun p hp => hfits p (List.mem_cons_of_mem _ hp)) (s.sendRelay m c circId relayCmd streamId payload)
    refine ⟨cells ++ [cell], ?_, hfirst.trans hrest⟩
    rw [List.length_append, hlen]
    rfl

theorem length_of_mem_chunks {data chunk : List UInt8} (h : chunk ∈ chunks data) : chunk.length ≤ 494 := by
  obtain ⟨k, -, rfl⟩ := List.mem_map.mp h
  rw [List.length_take]
  omega

/-- What the use of circuits adds to the logs, and that it leaves the circuits as they are. -/
inductive Adds (s t : TorState) : Use → Prop
  | nothing (hlog : ∀ k, t.log k = s.log k) (hcircuit : ∀ k, t.circuit k = s.circuit k) : Adds s t .nothing
  | send {c : Nat} (pre : List LogEntry) (cells : List TorCell) (hpre : pre = [] ∨ pre = [.cleared])
      (hlog : ∀ k, t.log k =
        if k = c then pre ++ (cells.map (.sent (s.circuit c)) ++ s.log k) else s.log k)
      (hcircuit : ∀ k, k = c → pre = [] → t.circuit k = s.circuit k)
      (hothers : ∀ k, k ≠ c → t.circuit k = s.circuit k) : Adds s t (.send c cells.length)
  | receive {c : Nat} (cell : TorCell)
      (hlog : ∀ k, t.log k = if k = c then .received (s.circuit c) cell :: s.log k else s.log k)
      (hcircuit : ∀ k, t.circuit k = s.circuit k) : Adds s t (.receive c)

theorem Sent.adds {s s' t t' : TorState} {c n : Nat} {cells : List TorCell} (h : Sent s t c cells)
    (hn : cells.length = n) (hbefore : s.circuits = s'.circuits) (hlog : s.log = s'.log)
    (hafter : t'.circuits = t.circuits) (hlog' : t'.log = t.log) : Adds s' t' (.send c n) := by
  subst hn
  have hcircuit : ∀ k, t'.circuit k = s'.circuit k := by
    intro k
    rw [TorState.circuit, hafter, h.circuits, hbefore]
    rfl
  refine .send [] cells (Or.inl rfl) (fun k => ?_) (fun k _ _ => hcircuit k) fun k _ => hcircuit k
  rw [hlog', h.log, hlog, TorState.circuit, hbefore]
  rfl

theorem adds_streamOpen (m : TorMemory) (s : TorState) (circId : UInt32) (addr : Vector UInt8 4) (port : UInt16) :
    Adds s (torStreamOpen m s circId addr port).1 ((TorCall.streamOpen circId addr port).use s) := by
  rcases hc : s.findCircuit (fun circ => circ.circId == circId && circ.state == .established) with _ | c
  · simp only [TorCall.use, torStreamOpen, hc]
    exact .nothing (fun k => rfl) fun k => rfl
  · rcases hslot : s.findStream (fun stream => stream.state == .none) with _ | slot
    · simp only [TorCall.use, torStreamOpen, hc, hslot]
      exact .nothing (fun k => rfl) fun k => rfl
    · simp only [TorCall.use, torStreamOpen, hc, hslot]
      have hfits : (addr.toList ++ [(port >>> 8).toUInt8, port.toUInt8]).length ≤ 494 := by simp
      obtain ⟨cell, hsent⟩ := sent_sendRelay m
        { s.setStream slot { streamId := s.streamCounter, circId, state := .connecting } with
          streamCounter := s.streamCounter + 1 } c circId relayBegin s.streamCounter hfits
      exact hsent.adds rfl rfl rfl rfl rfl

theorem adds_sendData (m : TorMemory) (s : TorState) (streamId : UInt32) (data : Option (List UInt8)) :
    Adds s (torStreamSendData m s streamId data).1 ((TorCall.sendData streamId data).use s) := by
  rcases data with _ | data
  · exact .nothing (fun k => rfl) fun k => rfl
  · by_cases hempty : data.length = 0
    · simp only [TorCall.use, torStreamSendData, if_pos hempty]
      exact .nothing (fun k => rfl) fun k => rfl
    · rcases hslot : s.findStream (fun stream => stream.streamId == streamId && stream.state == .established)
        with _ | slot
      · simp only [TorCall.use, torStreamSendData, if_neg hempty, hslot]
        exact .nothing (fun k => rfl) fun k => rfl
      · rcases hc : s.findCircuit (fun circ => circ.circId == (s.stream slot).circId) with _ | c
        · simp only [TorCall.use, torStreamSendData, if_neg hempty, hslot, hc]
          exact .nothing (fun k => rfl) fun k => rfl
        · simp only [TorCall.use, torStreamSendData, if_neg hempty, hslot, hc]
          have hfits : ∀ chunk ∈ chunks data, chunk.length ≤ 494 := fun _ h => length_of_mem_chunks h
          obtain ⟨cells, hlen, hsent⟩ :=
            sent_foldl m c (s.stream slot).circId relayData (s.stream slot).streamId hfits s
          exact hsent.adds hlen rfl rfl rfl rfl

theorem adds_streamClose (m : TorMemory) (s : TorState) (streamId : UInt32) :
    Adds s (torStreamClose m s streamId).1 ((TorCall.streamClose streamId).use s) := by
  rcases hslot : s.findStream (fun stream => stream.streamId == streamId) with _ | slot
  · simp only [TorCall.use, torStreamClose, hslot]
    exact .nothing (fun k => rfl) fun k => rfl
  · -- The circuit is looked for after the stream was marked, which changes no circuit.
    have hfind : ∀ p stream, (s.setStream slot stream).findCircuit p = s.findCircuit p := fun p stream => rfl
    rcases hc : s.findCircuit (fun circ => circ.circId == (s.stream slot).circId) with _ | c
    · simp only [TorCall.use, torStreamClose, hslot, hfind, hc]
      exact .nothing (fun k => rfl) fun k => rfl
    · simp only [TorCall.use, torStreamClose, hslot, hfind, hc]
      have hfits : [(1 : UInt8)].length ≤ 494 := by decide
      obtain ⟨cell, hsent⟩ := sent_sendRelay m (s.setStream slot { s.stream slot with state := .closing }) c
        (s.stream slot).circId relayEnd (s.stream slot).streamId hfits
      exact hsent.adds rfl rfl rfl rfl rfl

theorem adds_destroy (m : TorMemory) (s : TorState) (circ : Option (Fin maxCircuits)) :
    Adds s (torCircuitDestroy m s circ).1 ((TorCall.destroy circ).use s) := by
  rcases circ with _ | c
  · exact .nothing (fun k => rfl) fun k => rfl
  · refine .send [.cleared] [destroyCell m (s.circuit c)] (Or.inr rfl) (fun k => ?_) (fun k _ h => nomatch h) ?_
    · simp only [torCircuitDestroy, TorState.record, log_send]
      split
      · rfl
      · rfl
    · intro k hk
      simp only [torCircuitDestroy, TorState.record, TorState.circuit, circuits_send, Vector.toList_setIfInBounds]
      rw [List.getD_eq_getElem?_getD, List.getElem?_set_ne (Ne.symm hk), ← List.getD_eq_getElem?_getD]

theorem adds_recv (m : TorMemory) (s : TorState) (circ : Option (Fin maxCircuits)) (cell : TorCell) :
    Adds s (torCircuitRecv m s circ cell).1 ((TorCall.recv circ cell).use s) := by
  rcases circ with _ | c
  · exact .nothing (fun k => rfl) fun k => rfl
  · refine .receive cell (fun k => ?_) fun k => ?_
    · simp only [torCircuitRecv, TorState.record]
    · simp only [torCircuitRecv, TorState.record, TorState.circuit]

theorem next_adds (m : TorMemory) (s : TorState) (call : TorCall) : Adds s (next m s call) (call.use s) := by
  cases call with
  | streamOpen circId addr port => exact adds_streamOpen m s circId addr port
  | sendData streamId data => exact adds_sendData m s streamId data
  | streamClose streamId => exact adds_streamClose m s streamId
  | destroy circ => exact adds_destroy m s circ
  | recv circ cell => exact adds_recv m s circ cell

/-! ## Runs whose calls are all allowed -/

section Entries

variable {m : TorMemory} {circ : TorCircuit} {log : List LogEntry}

theorem Apart.cleared (h : Apart m log) {pre : List LogEntry} (hpre : pre = [] ∨ pre = [.cleared]) :
    Apart m (pre ++ log) := by
  rcases hpre with rfl | rfl
  · exact h
  · refine List.pairwise_cons.mpr ⟨?_, h⟩
    intro e _
    cases e <;> trivial

theorem compatible_of_noHops (h : circ.hopCount = 0) (cell : TorCell) (e : LogEntry) :
    Compatible m (.sent circ cell) e ∧ Compatible m (.received circ cell) e := by
  have hzero : circ.hopCount.toNat = 0 := by rw [h]; rfl
  cases e with
  | sent old _ =>
    constructor
    · intro i hi
      omega
    · intro i j hi hj
      omega
  | received old _ =>
    constructor
    · intro i j hi
      omega
    · trivial
  | cleared => exact ⟨trivial, trivial⟩

theorem Apart.noHops (h : Apart m log) (hhops : circ.hopCount = 0) (cells : List TorCell) :
    Apart m (cells.map (.sent circ) ++ log) := by
  induction cells with
  | nil => exact h
  | cons cell cells ih =>
    exact List.pairwise_cons.mpr ⟨fun e _ => (compatible_of_noHops hhops cell e).1, ih⟩

theorem Apart.send (h : Apart m log) (hmay : MaySend m circ log) (cell : TorCell) :
    Apart m (.sent circ cell :: log) := by
  refine List.pairwise_cons.mpr ⟨?_, h⟩
  intro e he
  rcases hmay with rfl | ⟨old, oldCell, rfl, hdiffer⟩
  · cases he
  · rcases List.mem_cons.mp he with rfl | he
    · trivial
    · rw [List.mem_singleton.mp he]
      exact hdiffer

theorem Apart.receive (h : Apart m log) (hmay : MayReceive circ log) (cell : TorCell) :
    Apart m (.received circ cell :: log) := by
  refine List.pairwise_cons.mpr ⟨?_, h⟩
  obtain ⟨heard, first, rfl, hheard, hfirst⟩ := hmay
  intro e he
  rcases List.mem_append.mp he with he | he
  · obtain ⟨old, oldCell, rfl⟩ := hheard e he
    trivial
  · rcases hfirst with rfl | ⟨old, oldCell, rfl, hdiffer⟩
    · cases he
    · rcases List.mem_cons.mp he with rfl | he
      · trivial
      · rw [List.mem_singleton.mp he]
        exact hdiffer

end Entries

theorem next_apart {m : TorMemory} {s : TorState} {call : TorCall} (h : ∀ c, Apart m (s.log c))
    (hallowed : Allowed m s call) (k : Nat) : Apart m ((next m s call).log k) := by
  have hadds := next_adds m s call
  unfold Allowed at hallowed
  generalize call.use s = use at hadds hallowed
  cases hadds with
  | nothing hlog _ =>
    rw [hlog]
    exact h k
  | @send c pre cells hpre hlog _ _ =>
    rw [hlog]
    split
    · next hk =>
        subst hk
        apply Apart.cleared _ hpre
        rcases hallowed with hhops | ⟨hone, hmay⟩
        · exact (h k).noHops hhops cells
        · obtain ⟨cell, rfl⟩ := List.length_eq_one_iff.mp hone
          exact (h k).send hmay cell
    · exact h k
  | @receive c cell hlog _ =>
    rw [hlog]
    split
    · next hk =>
        subst hk
        rcases hallowed with hhops | hmay
        · exact List.pairwise_cons.mpr ⟨fun e _ => (compatible_of_noHops hhops cell e).2, h k⟩
        · exact (h k).receive hmay cell
    · exact h k

/-- **Over a run whose calls are all allowed** no keystream of a hop is used twice, and no key in both directions. -/
theorem apart_of_allowed (m : TorMemory) {s : TorState} {calls : List TorCall} (hstart : ∀ c, s.log c = [])
    (hallowed : Guarded (Allowed m) s (traceOf (next m) s calls)) :
    AllStates (fun t => ∀ c, Apart m (t.log c)) s (traceOf (next m) s calls) := by
  refine (trace_traceOf (next m) s calls).allSteps_of_guarded (I := fun t => ∀ c, Apart m (t.log c)) ?_ ?_ hallowed
  · intro s call t hI hstep hguard
    have hnext : ∀ c, Apart m (t.log c) := by
      rw [hstep]
      exact next_apart hI hguard
    exact ⟨hnext, hnext⟩
  · intro c
    rw [hstart]
    exact List.Pairwise.nil

/-! ## The keys stay between two destroys -/

/-- The entry is no end of a destroy. -/
def LogEntry.isUse : LogEntry → Bool
  | .cleared => false
  | _ => true

/-- What has gone through the circuit since its keys were last cleared. -/
def sinceCleared (log : List LogEntry) : List LogEntry := log.takeWhile LogEntry.isUse

/-- The entry was made with this circuit. -/
def LogEntry.Under (circ : TorCircuit) : LogEntry → Prop
  | .sent c _ => c = circ
  | .received c _ => c = circ
  | .cleared => False

/-- Since they were last cleared, all circuits are as they are. -/
def Current (s : TorState) : Prop := ∀ c, ∀ e ∈ sinceCleared (s.log c), e.Under (s.circuit c)

theorem sinceCleared_sent (circ : TorCircuit) (cells : List TorCell) (log : List LogEntry) :
    sinceCleared (cells.map (.sent circ) ++ log) = cells.map (.sent circ) ++ sinceCleared log := by
  apply List.takeWhile_append_of_pos
  intro e he
  obtain ⟨cell, -, rfl⟩ := List.mem_map.mp he
  rfl

theorem next_current {m : TorMemory} {s : TorState} (h : Current s) (call : TorCall) : Current (next m s call) := by
  have hadds := next_adds m s call
  generalize call.use s = use at hadds
  intro k e he
  cases hadds with
  | nothing hlog hcircuit =>
    rw [hlog] at he
    rw [hcircuit]
    exact h k e he
  | @send c pre cells hpre hlog hcircuit hothers =>
    rw [hlog] at he
    split at he
    · next hk =>
        rcases hpre with rfl | rfl
        · -- The cells of this call are under the circuit, what was there before is by the invariant.
          rw [hcircuit k hk rfl]
          rw [List.nil_append, sinceCleared_sent] at he
          rcases List.mem_append.mp he with he | he
          · obtain ⟨cell, -, rfl⟩ := List.mem_map.mp he
            rw [hk]
            rfl
          · exact h k e he
        · cases he
    · next hk =>
        rw [hothers k hk]
        exact h k e he
  | @receive c cell hlog hcircuit =>
    rw [hlog] at he
    rw [hcircuit]
    split at he
    · next hk =>
        subst hk
        rw [sinceCleared, List.takeWhile_cons_of_pos rfl] at he
        rcases List.mem_cons.mp he with rfl | he
        · rfl
        · exact h k e he
    · exact h k e he

theorem not_compatible {m : TorMemory} {circ : TorCircuit} (hhops : 0 < circ.hopCount.toNat) {cell : TorCell}
    {e : LogEntry} (he : e.Under circ) : ¬ Compatible m (.sent circ cell) e ∧ ¬ Compatible m e (.sent circ cell) := by
  cases e with
  | sent c _ =>
    obtain rfl : c = circ := he
    exact ⟨fun h => h 0 hhops hhops rfl, fun h => h 0 hhops hhops rfl⟩
  | received c _ =>
    obtain rfl : c = circ := he
    exact ⟨fun h => h 0 0 hhops hhops rfl, fun h => h 0 0 hhops hhops rfl⟩
  | cleared => cases he

theorem oneUse_of_apart {m : TorMemory} {circ : TorCircuit} (hhops : 0 < circ.hopCount.toNat)
    {log : List LogEntry} (hunder : ∀ e ∈ log, e.Under circ) (h : Apart m log) :
    log.length ≤ 1 ∨ ∀ e ∈ log, ∃ cell, e = .received circ cell := by
  match log with
  | [] => exact Or.inl (by simp)
  | [e] => exact Or.inl (by simp)
  | e₁ :: e₂ :: rest =>
    refine Or.inr fun e he => ?_
    obtain ⟨hhead, htail⟩ := List.pairwise_cons.mp h
    have hsent : ∀ cell, e ≠ .sent circ cell := by
      rintro cell rfl
      rcases List.mem_cons.mp he with rfl | he
      · exact (not_compatible hhops (hunder e₂ (by simp))).1 (hhead e₂ (by simp))
      · exact (not_compatible hhops (hunder e₁ (by simp))).2 (hhead _ he)
    have heunder := hunder e he
    cases e with
    | sent c cell =>
      obtain rfl : c = circ := heunder
      exact absurd rfl (hsent cell)
    | received c cell =>
      obtain rfl : c = circ := heunder
      exact ⟨cell, rfl⟩
    | cleared => cases heunder

/-- **Over every run** what the condition excludes does break the property: where a log is apart, a circuit with hops
has carried at most one cell since its keys were cleared, or has only been listened to. -/
theorem oneUse_of_run (m : TorMemory) {s : TorState} {calls : List TorCall} (hstart : ∀ c, s.log c = []) :
    AllStates (fun t => ∀ c, 0 < (t.circuit c).hopCount.toNat → Apart m (t.log c) →
      (sinceCleared (t.log c)).length ≤ 1 ∨
        ∀ e ∈ sinceCleared (t.log c), ∃ cell, e = .received (t.circuit c) cell) s (traceOf (next m) s calls) := by
  refine (trace_traceOf (next m) s calls).allSteps_of_invariant (I := Current) ?_ ?_
  · intro s call t hI hstep
    have hcurrent : Current t := by
      rw [hstep]
      exact next_current hI call
    refine ⟨hcurrent, fun c hhops hapart => ?_⟩
    apply oneUse_of_apart hhops (hcurrent c)
    exact hapart.sublist (List.takeWhile_sublist _)
  · intro c e he
    rw [hstart] at he
    cases he

/-- **Two cells under one set of keys** differ on the wire where the cells do, and by the same: the keystreams fall
out. -/
theorem sent_xor (m : TorMemory) (circ : TorCircuit) (a b : TorCell) (i : Nat) (hi : i < payloadSize) :
    (torCircuitSendCell m circ a).payload[i] ^^^ (torCircuitSendCell m circ b).payload[i] =
      a.payload[i] ^^^ b.payload[i] := by
  rw [torCircuitSendCell, torCircuitSendCell, getElem_encryptLayers _ _ _ _ i hi, getElem_encryptLayers _ _ _ _ i hi,
    UInt8.xor_assoc, UInt8.xor_comm b.payload[i], xorByte_cancel_left]

/-- One established circuit of one hop, and no stream. -/
def oneCircuit : TorState :=
  { circuits := (Vector.replicate maxCircuits zeroCircuit).setIfInBounds 0 oneHopCircuit
    streams := Vector.replicate maxStreams { streamId := 0, circId := 0, state := .none }
    streamCounter := 1, bytesSent := 0, bytesRecv := 0, log := fun _ => [] }

/-- A stream to `10.0.0.1`. -/
def openOne : TorCall := .streamOpen 0x10000 #v[10, 0, 0, 1] 80

theorem log_openClose : ∃ a b, (next zeroMemory (next zeroMemory oneCircuit openOne) (.streamClose 1)).log 0 =
    [.sent oneHopCircuit b, .sent oneHopCircuit a] := ⟨_, _, rfl⟩

/-- The cell that ends the stream repeats the keystream of the one that began it. -/
theorem openClose_not_apart : ¬ AllStates (fun t => ∀ c, Apart zeroMemory (t.log c)) oneCircuit
      (traceOf (next zeroMemory) oneCircuit [openOne, .streamClose 1]) := by
  rintro ⟨-, hclose, -⟩
  obtain ⟨a, b, hlog⟩ := log_openClose
  have hapart := hclose 0
  rw [hlog] at hapart
  exact (List.pairwise_cons.mp hapart).1 _ List.mem_cons_self 0 (by decide) (by decide) rfl

/-- The stream is opened, and one that there is not is closed. -/
theorem openOne_apart :
    Guarded (Allowed zeroMemory) oneCircuit (traceOf (next zeroMemory) oneCircuit [openOne, .streamClose 7]) ∧
    AllStates (fun t => ∀ c, Apart zeroMemory (t.log c)) oneCircuit
      (traceOf (next zeroMemory) oneCircuit [openOne, .streamClose 7]) := by
  have hallowed : Guarded (Allowed zeroMemory) oneCircuit
      (traceOf (next zeroMemory) oneCircuit [openOne, .streamClose 7]) :=
    ⟨Or.inr ⟨rfl, Or.inl rfl⟩, trivial, trivial⟩
  exact ⟨hallowed, apart_of_allowed zeroMemory (fun _ => rfl) hallowed⟩

end Chicago95.Stage2.Tor
