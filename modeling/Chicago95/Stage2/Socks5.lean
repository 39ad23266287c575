/-
# Chicago95.Stage2.Socks5 — the connections of `security/tor/socks5/tor_socks5.c`.

A client gets a copy of its connection from `tor_socks5_accept`, and `tor_socks5_handle` looks for the connection by
the `stream_id` of that copy. ⚠ It is 0 until a stream is open and in the copy for ever: the message of a client goes to
the first connection that has no stream yet, whosever that is. Nothing takes an entry back to `SOCKS5_NONE`, and the
length of a domain name is read without asking whether the message has it.
-/
import Chicago95.Stage2.TorRuns
import Mathlib.Data.List.FinRange

namespace Chicago95.Stage2.Tor.Socks

open Chicago95.Lib.Transition
open Function (update_of_ne update_self update)

/-! ## Connections and messages -/

/-- `TOR_SOCKS_MAX` -/
abbrev maxConns : Nat := 16

/-- `SOCKS5_*` -/
inductive SocksState
  | none | waitAuth | waitCmd | connected | error
  deriving DecidableEq

/-- `tor_socks5_t` -/
structure SocksConn where
  state : SocksState
  authMethod : UInt8
  streamId : UInt32
  circId : UInt32
  targetAddr : UInt32
  targetPort : UInt16
  targetName : Vector UInt8 256
  nameLen : UInt8

/-- A connection after `sec_memzero`. -/
def zeroConn : SocksConn :=
  { state := .none, authMethod := 0, streamId := 0, circId := 0, targetAddr := 0, targetPort := 0
    targetName := Vector.replicate 256 0, nameLen := 0 }

/-- A message of `len` bytes, and what memory holds behind it. -/
structure Message where
  data : List UInt8
  behind : Nat → UInt8

namespace Message

def len (msg : Message) : Nat := msg.data.length

/-- `data[i]` -/
def byte (msg : Message) (i : Nat) : UInt8 := msg.data.getD i (msg.behind i)

/-- A port, in network order at `i`. -/
def port (msg : Message) (i : Nat) : UInt16 := (msg.byte i).toUInt16 <<< 8 ||| (msg.byte (i + 1)).toUInt16

end Message

/-- What handling a message leaves: the connection, the tables of Tor, what is returned and written to `resp`, and how
far into the message it reads. -/
structure Outcome where
  conn : SocksConn
  tor : TorState
  ret : Int32
  reply : List UInt8
  reach : Nat

/-- A reply of ten bytes. -/
def replyOf (code : UInt8) (port : UInt16) : List UInt8 :=
  [0x05, code, 0x00, 0x01, 0, 0, 0, 0, (port >>> 8).toUInt8, port.toUInt8]

/-! ## The handler -/

/-- `case SOCKS5_WAIT_AUTH` -/
def greet (tor : TorState) (sc : SocksConn) (msg : Message) : Outcome :=
  let nmethods := (msg.byte 1).toNat
  if msg.len < 2 then { conn := sc, tor, ret := -3, reply := [], reach := 0 }
  else if msg.byte 0 ≠ 0x05 then { conn := sc, tor, ret := -3, reply := [], reach := 1 }
  else if msg.len < 2 + nmethods then { conn := sc, tor, ret := -3, reply := [], reach := 2 }
  else
    match (List.range nmethods).find? fun i => msg.byte (2 + i) == 0x00 with
    | none =>
      { conn := { sc with authMethod := 0xFF, state := .error }
        tor, ret := -4, reply := [0x05, 0xFF], reach := 2 + nmethods }
    | some i =>
      { conn := { sc with authMethod := 0x00, state := .waitCmd }
        tor, ret := 0, reply := [0x05, 0x00], reach := 2 + i + 1 }

/-- The destination address of a request: the connection with it, the error if there is one, and how far is read. -/
def parseAddress (sc : SocksConn) (msg : Message) : SocksConn × Option Int32 × Nat :=
  let atyp := msg.byte 3
  if atyp = 0x01 then
    if msg.len < 10 then (sc, some (-7), 4)
    else
      ({ sc with
          targetAddr := (msg.byte 4).toUInt32 ||| (msg.byte 5).toUInt32 <<< 8 ||| (msg.byte 6).toUInt32 <<< 16 |||
            (msg.byte 7).toUInt32 <<< 24
          targetPort := msg.port 8 }, none, 10)
  else if atyp = 0x03 then
    let nameLen := msg.byte 4
    let sc := { sc with nameLen }
    if msg.len < 5 + nameLen.toNat + 2 then (sc, some (-7), 5)
    else
      ({ sc with
          targetName := Vector.ofFn fun i =>
            if i.val < nameLen.toNat then msg.byte (5 + i.val) else sc.targetName.get i
          targetPort := msg.port (5 + nameLen.toNat)
          targetAddr := 0 }, none, 5 + nameLen.toNat + 2)
  else if atyp = 0x04 then
    if msg.len < 22 then (sc, some (-7), 4)
    else ({ sc with targetAddr := 0, targetPort := msg.port 20 }, none, 22)
  else (sc, some (-8), 4)

/-- `(const uint8_t *)&sc->target_addr` -/
def addrBytes (addr : UInt32) : Vector UInt8 4 :=
  #v[addr.toUInt8, (addr >>> 8).toUInt8, (addr >>> 16).toUInt8, (addr >>> 24).toUInt8]

/-- `case SOCKS5_WAIT_CMD` -/
def request (m : TorMemory) (tor : TorState) (sc : SocksConn) (msg : Message) : Outcome :=
  if msg.len < 4 then { conn := sc, tor, ret := -5, reply := [], reach := 0 }
  else if msg.byte 0 ≠ 0x05 then { conn := sc, tor, ret := -5, reply := [], reach := 1 }
  else if msg.byte 1 ≠ 0x01 then
    { conn := { sc with state := .error }, tor, ret := -6, reply := replyOf 0x07 0, reach := 4 }
  else
    match parseAddress sc msg with
    | (sc, some ret, reach) => { conn := sc, tor, ret, reply := [], reach }
    | (sc, none, reach) =>
      let opened := torStreamOpen m tor 0 (addrBytes sc.targetAddr) sc.targetPort
      if opened.2 ≤ 0 then
        { conn := { sc with state := .error }, tor := opened.1, ret := -9, reply := replyOf 0x05 0, reach }
      else
        { conn := { sc with state := .connected, streamId := opened.2.toUInt32 }
          tor := opened.1, ret := 0, reply := replyOf 0x00 sc.targetPort, reach }

/-- The switch of `tor_socks5_handle`. -/
def handleConn (m : TorMemory) (tor : TorState) (sc : SocksConn) (msg : Message) : Outcome :=
  match sc.state with
  | .waitAuth => greet tor sc msg
  | .waitCmd => request m tor sc msg
  | .connected =>
    let sent := torStreamSendData m tor sc.streamId (some msg.data)
    { conn := sc, tor := sent.1, ret := sent.2, reply := [], reach := msg.len }
  | .error => { conn := sc, tor, ret := -10, reply := [], reach := 0 }
  | .none => { conn := sc, tor, ret := -11, reply := [], reach := 0 }

/-! ## The proxy -/

/-- A client that was accepted, with its copy of the connection. -/
structure Client where
  copy : SocksConn
  slot : Fin maxConns
  history : List Message
  closed : Bool

/-- The statics of the file, the tables of Tor and the clients. -/
structure Proxy where
  conns : Fin maxConns → SocksConn
  initialized : Bool
  tor : TorState
  clients : List Client

namespace Proxy

/-- The connection that a message is looked up at. -/
def findConn (s : Proxy) (streamId : UInt32) : Option (Fin maxConns) :=
  (List.finRange maxConns).find? fun i => (s.conns i).state != .none && (s.conns i).streamId == streamId

end Proxy

def torSocks5Init (s : Proxy) : Proxy :=
  { s with conns := fun _ => zeroConn, initialized := true, clients := [] }

/-- `tor_socks5_accept`, whose argument may be null. -/
def torSocks5Accept (s : Proxy) (isNull : Bool) : Proxy × Int32 :=
  if isNull || !s.initialized then (s, -1)
  else
    match (List.finRange maxConns).find? fun i => (s.conns i).state == .none with
    | none => (s, -1)
    | some i =>
      let conn := { zeroConn with state := .waitAuth }
      ({ s with
          conns := update s.conns i conn
          clients := s.clients ++ [{ copy := conn, slot := i, history := [], closed := false }] }, 0)

/-- `tor_socks5_handle` for client `k`: the proxy, what is returned and replied, and how far it reads. -/
def torSocks5Handle (m : TorMemory) (s : Proxy) (k : Nat) (msg : Message) : Proxy × Int32 × List UInt8 × Nat :=
  match s.clients[k]? with
  | none => (s, -1, [], 0)
  | some client =>
    if msg.len = 0 then (s, -1, [], 0)
    else
      match s.findConn client.copy.streamId with
      | none => (s, -2, [], 0)
      | some i =>
        let out := handleConn m s.tor (s.conns i) msg
        ({ s with conns := update s.conns i out.conn, tor := out.tor }, out.ret, out.reply, out.reach)

/-- An event: a client is accepted, one of them sends a message or closes its connection (for which there is no
function), or the rest of Tor does something to its tables. -/
inductive Event
  | accept (isNull : Bool)
  | message (k : Nat) (msg : Message)
  | close (k : Nat)
  | elsewhere (tor : TorState)

/-- The proxy after an event. -/
def step (m : TorMemory) (s : Proxy) : Event → Proxy
  | .accept isNull => (torSocks5Accept s isNull).1
  | .message k msg =>
    let t := (torSocks5Handle m s k msg).1
    { t with clients := t.clients.modify k fun client => { client with history := client.history ++ [msg] } }
  | .close k => { s with clients := s.clients.modify k fun client => { client with closed := true } }
  | .elsewhere tor => { s with tor }

/-! ## What is asked of the proxy -/

/-- A greeting that offers to go without authentication. -/
def Message.IsGreeting (msg : Message) : Prop :=
  2 ≤ msg.len ∧ msg.byte 0 = 0x05 ∧ 2 + (msg.byte 1).toNat ≤ msg.len ∧
    ∃ i, i < (msg.byte 1).toNat ∧ msg.byte (2 + i) = 0x00

/-- The message has its destination address in full. -/
def Message.HasAddress (msg : Message) : Prop :=
  msg.byte 3 = 0x01 ∧ 10 ≤ msg.len ∨ msg.byte 3 = 0x03 ∧ 7 + (msg.byte 4).toNat ≤ msg.len ∨
    msg.byte 3 = 0x04 ∧ 22 ≤ msg.len

/-- A request to connect. -/
def Message.IsRequest (msg : Message) : Prop :=
  4 ≤ msg.len ∧ msg.byte 0 = 0x05 ∧ msg.byte 1 = 0x01 ∧ msg.HasAddress

/-- A greeting and, after it, a request. -/
def Shook (history : List Message) : Prop :=
  ∃ before greeting between req after, history = before ++ greeting :: (between ++ req :: after) ∧
    greeting.IsGreeting ∧ req.IsRequest

/-- Client `k` is the last one that its entry was taken for. -/
def Holds (s : Proxy) (k : Nat) (client : Client) : Prop :=
  s.clients[k]? = some client ∧ ∀ l other, k < l → s.clients[l]? = some other → other.slot ≠ client.slot

/-- **What is asked of one event**: it changes the connection that it belongs to and no other, nothing is read behind a
message, every connection that is connected was shaken hands on by its own client, and the entry of a connection that is
closed, by its client or by an error, can be taken again. -/
structure Isolated (m : TorMemory) (s : Proxy) (event : Event) (t : Proxy) : Prop where
  others : ∀ j, t.conns j = s.conns j ∨
    match event with
    | .accept _ => (s.conns j).state = .none
    | .message k _ => ∃ client, s.clients[k]? = some client ∧ client.slot = j
    | _ => False
  inside : ∀ k msg, event = .message k msg → (torSocks5Handle m s k msg).2.2.2 ≤ msg.len
  order : ∀ k client, Holds t k client → (t.conns client.slot).state = .connected → Shook client.history
  reuse : ∀ k client, Holds t k client → client.closed = true ∨ (t.conns client.slot).state = .error →
    (t.conns client.slot).state = .none

/-- Tor can open a stream on circuit 0, under an id that is neither 0 nor negative. -/
def TorReady (tor : TorState) : Prop :=
  (tor.findCircuit fun circ => circ.circId == 0 && circ.state == .established).isSome = true ∧
    (tor.findStream fun stream => stream.state == .none).isSome = true ∧ 0 < tor.streamCounter.toInt32

/-- A message that is not answered with an error, and not read behind its end. -/
def Served (tor : TorState) (sc : SocksConn) (msg : Message) : Prop :=
  match sc.state with
  | .waitAuth => 2 ≤ msg.len ∧ msg.byte 0 = 0x05 ∧ 2 + (msg.byte 1).toNat ≤ msg.len → msg.IsGreeting
  | .waitCmd => 4 ≤ msg.len ∧ msg.byte 0 = 0x05 →
      msg.byte 1 = 0x01 ∧ (msg.byte 3 = 0x03 → msg.len ≠ 4) ∧ (msg.HasAddress → TorReady tor)
  | _ => True

/-- **The condition on an event**: a message is looked up at the connection of its own client, or at none, and is served
there; no client closes its connection. -/
def Orderly (s : Proxy) : Event → Prop
  | .message k msg => ∀ client, s.clients[k]? = some client → msg.len ≠ 0 →
      ∀ i, s.findConn client.copy.streamId = some i → i = client.slot ∧ Served s.tor (s.conns i) msg
  | .close k => s.clients.length ≤ k
  | _ => True

/-! ## One message -/

/-- What a message that is served does to the state of its connection. -/
inductive Advance (msg : Message) : SocksState → SocksState → Prop
  | stay (state : SocksState) : Advance msg state state
  | greeted (h : msg.IsGreeting) : Advance msg .waitAuth .waitCmd
  | requested (h : msg.IsRequest) : Advance msg .waitCmd .connected

section Handler

variable {m : TorMemory} {tor : TorState} {sc : SocksConn} {msg : Message}

theorem greet_spec (hstate : sc.state = .waitAuth)
    (hserved : 2 ≤ msg.len ∧ msg.byte 0 = 0x05 ∧ 2 + (msg.byte 1).toNat ≤ msg.len → msg.IsGreeting) :
    Advance msg .waitAuth (greet tor sc msg).conn.state ∧ (greet tor sc msg).reach ≤ msg.len := by
  have hstay : Advance msg .waitAuth sc.state := by
    rw [hstate]
    exact .stay _
  unfold greet
  by_cases hlen : msg.len < 2
  · simp only [if_pos hlen]
    exact ⟨hstay, Nat.zero_le _⟩
  · by_cases hver : msg.byte 0 = 0x05
    · by_cases hshort : msg.len < 2 + (msg.byte 1).toNat
      · simp only [if_neg hlen, hver, ne_eq, not_true_eq_false, if_false, if_pos hshort]
        exact ⟨hstay, by omega⟩
      · have hgreeting := hserved ⟨by omega, hver, by omega⟩
        obtain ⟨j, hj, hzero⟩ := hgreeting.2.2.2
        simp only [if_neg hlen, hver, ne_eq, not_true_eq_false, if_false, if_neg hshort]
        rcases hfind : (List.range (msg.byte 1).toNat).find? (fun i => msg.byte (2 + i) == 0x00) with _ | i
        · have hno := List.find?_eq_none.mp hfind j (List.mem_range.mpr hj)
          exact absurd (beq_iff_eq.mpr hzero) hno
        · have hi := List.mem_range.mp (List.mem_of_find?_eq_some hfind)
          exact ⟨.greeted hgreeting, by show 2 + i + 1 ≤ msg.len; omega⟩
    · simp only [if_neg hlen, ne_eq, hver, not_false_eq_true, if_true]
      exact ⟨hstay, by omega⟩

theorem parseAddress_spec (hlen : 4 ≤ msg.len) (hname : msg.byte 3 = 0x03 → msg.len ≠ 4) :
    (parseAddress sc msg).1.state = sc.state ∧ (parseAddress sc msg).2.2 ≤ msg.len ∧
      ((parseAddress sc msg).2.1 = none → msg.HasAddress) := by
  unfold parseAddress
  by_cases h1 : msg.byte 3 = 0x01
  · by_cases hshort : msg.len < 10
    · simp only [h1, if_true, if_pos hshort]
      exact ⟨trivial, hlen, nofun⟩
    · simp only [h1, if_true, if_neg hshort]
      exact ⟨trivial, by omega, fun _ => Or.inl ⟨h1, by omega⟩⟩
  · by_cases h3 : msg.byte 3 = 0x03
    · have hne := hname h3
      by_cases hshort : msg.len < 5 + (msg.byte 4).toNat + 2
      · simp only [if_neg h1, if_pos h3, if_pos hshort]
        exact ⟨trivial, by omega, nofun⟩
      · simp only [if_neg h1, if_pos h3, if_neg hshort]
        exact ⟨trivial, by omega, fun _ => Or.inr (Or.inl ⟨h3, by omega⟩)⟩
    · by_cases h4 : msg.byte 3 = 0x04
      · by_cases hshort : msg.len < 22
        · simp only [if_neg h1, if_neg h3, if_pos h4, if_pos hshort]
          exact ⟨trivial, hlen, nofun⟩
        · simp only [if_neg h1, if_neg h3, if_pos h4, if_neg hshort]
          exact ⟨trivial, by omega, fun _ => Or.inr (Or.inr ⟨h4, by omega⟩)⟩
      · simp only [if_neg h1, if_neg h3, if_neg h4]
        exact ⟨trivial, hlen, nofun⟩

theorem streamOpen_pos (h : TorReady tor) (addr : Vector UInt8 4) (port : UInt16) :
    0 < (torStreamOpen m tor 0 addr port).2 := by
  obtain ⟨hcirc, hslot, hpos⟩ := h
  obtain ⟨c, hc⟩ := Option.isSome_iff_exists.mp hcirc
  obtain ⟨slot, hs⟩ := Option.isSome_iff_exists.mp hslot
  simp only [torStreamOpen, hc, hs]
  exact hpos

theorem request_spec (hstate : sc.state = .waitCmd) (hserved : 4 ≤ msg.len ∧ msg.byte 0 = 0x05 →
      msg.byte 1 = 0x01 ∧ (msg.byte 3 = 0x03 → msg.len ≠ 4) ∧ (msg.HasAddress → TorReady tor)) :
    Advance msg .waitCmd (request m tor sc msg).conn.state ∧ (request m tor sc msg).reach ≤ msg.len := by
  have hstay : Advance msg .waitCmd sc.state := by
    rw [hstate]
    exact .stay _
  unfold request
  by_cases hlen : msg.len < 4
  · simp only [if_pos hlen]
    exact ⟨hstay, Nat.zero_le _⟩
  · by_cases hver : msg.byte 0 = 0x05
    · obtain ⟨hcmd, hname, hready⟩ := hserved ⟨by omega, hver⟩
      simp only [if_neg hlen, hver, hcmd, ne_eq, not_true_eq_false, if_false]
      obtain ⟨hsame, hreach, haddress⟩ : (parseAddress sc msg).1.state = sc.state ∧ _ :=
        parseAddress_spec (by omega) hname
      rcases hparse : parseAddress sc msg with ⟨sc', _ | ret, reach⟩
      · rw [hparse] at hreach haddress
        have hopen := streamOpen_pos (m := m) (hready (haddress rfl)) (addrBytes sc'.targetAddr) sc'.targetPort
        simp only [if_neg (Int32.not_le.mpr hopen)]
        exact ⟨.requested ⟨by omega, hver, hcmd, haddress rfl⟩, hreach⟩
      · rw [hparse] at hreach hsame
        exact ⟨by rw [hsame]; exact hstay, hreach⟩
    · simp only [if_neg hlen, ne_eq, hver, not_false_eq_true, if_true]
      exact ⟨hstay, by omega⟩

theorem handleConn_spec (hlive : sc.state ≠ .none) (hserved : Served tor sc msg) :
    Advance msg sc.state (handleConn m tor sc msg).conn.state ∧ (handleConn m tor sc msg).reach ≤ msg.len := by
  unfold handleConn
  unfold Served at hserved
  rcases hstate : sc.state with _ | _ | _ | _ | _
  · exact absurd hstate hlive
  · rw [hstate] at hserved
    exact greet_spec hstate hserved
  · rw [hstate] at hserved
    exact request_spec hstate hserved
  · show Advance msg .connected sc.state ∧ msg.len ≤ msg.len
    rw [hstate]
    exact ⟨.stay _, Nat.le_refl _⟩
  · show Advance msg .error sc.state ∧ 0 ≤ msg.len
    rw [hstate]
    exact ⟨.stay _, Nat.zero_le _⟩

end Handler

/-! ## One event -/

/-- **The invariant**: every client has an entry of its own, with a connection that is neither closed nor in error, and
its own messages brought the connection to where it is. -/
structure Inv (s : Proxy) : Prop where
  slots : ∀ (k l : Nat) (c d : Client), s.clients[k]? = some c → s.clients[l]? = some d → c.slot = d.slot → k = l
  live : ∀ (k : Nat) (c : Client), s.clients[k]? = some c → (s.conns c.slot).state ≠ .none ∧ (s.conns c.slot).state ≠ .error ∧
    c.closed = false
  greeted : ∀ (k : Nat) (c : Client), s.clients[k]? = some c → (s.conns c.slot).state = .waitCmd →
    ∃ g ∈ c.history, g.IsGreeting
  shook : ∀ (k : Nat) (c : Client), s.clients[k]? = some c → (s.conns c.slot).state = .connected → Shook c.history

section Event

variable {m : TorMemory} {s : Proxy}

theorem Inv.isolated {t : Proxy} {event : Event} (ht : Inv t)
    (hothers : ∀ j, t.conns j = s.conns j ∨
      match event with
      | .accept _ => (s.conns j).state = .none
      | .message k _ => ∃ client, s.clients[k]? = some client ∧ client.slot = j
      | _ => False)
    (hinside : ∀ k msg, event = .message k msg → (torSocks5Handle m s k msg).2.2.2 ≤ msg.len) :
    Isolated m s event t where
  others := hothers
  inside := hinside
  order := fun k client hk hstate => ht.shook k client hk.1 hstate
  reuse := fun k client hk hclosed => by
    obtain ⟨-, herr, hopen⟩ := ht.live k client hk.1
    rcases hclosed with hclosed | hclosed
    · rw [hopen] at hclosed
      cases hclosed
    · exact absurd hclosed herr

theorem Shook.append {history : List Message} (h : Shook history) (msg : Message) : Shook (history ++ [msg]) := by
  obtain ⟨before, greeting, between, req, after, rfl, hg, hr⟩ := h
  exact ⟨before, greeting, between, req, after ++ [msg], by simp, hg, hr⟩

theorem shook_of_greeted {history : List Message} {msg : Message} (hg : ∃ g ∈ history, g.IsGreeting)
    (hr : msg.IsRequest) : Shook (history ++ [msg]) := by
  obtain ⟨g, hmem, hg⟩ := hg
  obtain ⟨before, between, rfl⟩ := List.append_of_mem hmem
  exact ⟨before, g, between, msg, [], by simp, hg, hr⟩

/-- The messages of a client brought its connection to a state. -/
def Reached (state : SocksState) (history : List Message) : Prop :=
  state ≠ .none ∧ state ≠ .error ∧ (state = .waitCmd → ∃ g ∈ history, g.IsGreeting) ∧
    (state = .connected → Shook history)

theorem Reached.advance {state state' : SocksState} {history : List Message} {msg : Message}
    (h : Reached state history) (hadv : Advance msg state state') : Reached state' (history ++ [msg]) := by
  obtain ⟨hnone, herr, hgreeted, hshook⟩ := h
  cases hadv with
  | stay =>
    refine ⟨hnone, herr, fun hstate => ?_, fun hstate => (hshook hstate).append msg⟩
    obtain ⟨g, hg, hgreeting⟩ := hgreeted hstate
    exact ⟨g, List.mem_append_left _ hg, hgreeting⟩
  | greeted hgreeting =>
    exact ⟨nofun, nofun, fun _ => ⟨msg, List.mem_append_right _ (List.mem_singleton.mpr rfl), hgreeting⟩, nofun⟩
  | requested hrequest => exact ⟨nofun, nofun, nofun, fun _ => shook_of_greeted (hgreeted rfl) hrequest⟩

theorem Inv.reached (h : Inv s) {k : Nat} {c : Client} (hk : s.clients[k]? = some c) :
    Reached (s.conns c.slot).state c.history :=
  ⟨(h.live k c hk).1, (h.live k c hk).2.1, h.greeted k c hk, h.shook k c hk⟩

theorem clients_message {k l : Nat} {msg : Message} {d : Client}
    (hl : (s.clients.modify k fun client => { client with history := client.history ++ [msg] })[l]? = some d) :
    ∃ c, s.clients[l]? = some c ∧ d.slot = c.slot ∧ d.closed = c.closed ∧
      d.history = if l = k then c.history ++ [msg] else c.history := by
  rw [List.getElem?_modify] at hl
  obtain ⟨c, hc, rfl⟩ := Option.map_eq_some_iff.mp hl
  refine ⟨c, hc, ?_⟩
  by_cases hlk : k = l
  · rw [if_pos hlk, if_pos hlk.symm]
    exact ⟨rfl, rfl, rfl⟩
  · rw [if_neg hlk, if_neg (Ne.symm hlk)]
    exact ⟨rfl, rfl, rfl⟩

theorem Inv.message {conns : Fin maxConns → SocksConn} {tor : TorState} (h : Inv s) {k : Nat} {msg : Message}
    (hadv : ∀ c : Client, s.clients[k]? = some c → Advance msg (s.conns c.slot).state (conns c.slot).state)
    (hothers : ∀ (l : Nat) (c : Client), l ≠ k → s.clients[l]? = some c → conns c.slot = s.conns c.slot) :
    Inv { s with conns, tor,
                 clients := s.clients.modify k fun client => { client with history := client.history ++ [msg] } } := by
  have hreached : ∀ (l : Nat) (d : Client),
      (s.clients.modify k fun client => { client with history := client.history ++ [msg] })[l]? = some d →
      Reached (conns d.slot).state d.history ∧ d.closed = false := by
    intro l d hl
    obtain ⟨c, hc, hslot, hclosed, hhistory⟩ := clients_message hl
    rw [hslot, hclosed, hhistory]
    refine ⟨?_, (h.live l c hc).2.2⟩
    by_cases hlk : l = k
    · subst hlk
      rw [if_pos rfl]
      exact (h.reached hc).advance (hadv c hc)
    · rw [if_neg hlk, hothers l c hlk hc]
      exact h.reached hc
  refine ⟨fun l l' d d' hl hl' heq => ?_, fun l d hl => ?_, fun l d hl => ?_, fun l d hl => ?_⟩
  · obtain ⟨c, hc, hslot, -⟩ := clients_message hl
    obtain ⟨c', hc', hslot', -⟩ := clients_message hl'
    exact h.slots l l' c c' hc hc' (by rw [← hslot, ← hslot', heq])
  · obtain ⟨⟨hnone, herr, -, -⟩, hclosed⟩ := hreached l d hl
    exact ⟨hnone, herr, hclosed⟩
  · exact (hreached l d hl).1.2.2.1
  · exact (hreached l d hl).1.2.2.2

theorem Inv.accept (h : Inv s) (isNull : Bool) : Inv (torSocks5Accept s isNull).1 ∧
      ∀ j, (torSocks5Accept s isNull).1.conns j = s.conns j ∨ (s.conns j).state = .none := by
  unfold torSocks5Accept
  split
  · exact ⟨h, fun j => Or.inl rfl⟩
  · split
    · exact ⟨h, fun j => Or.inl rfl⟩
    · next i hi =>
      have hnone : (s.conns i).state = .none := beq_iff_eq.mp (List.find?_some (p := fun i =>
        (s.conns i).state == .none) hi)
      -- The entry that is taken belongs to no client.
      have hfree : ∀ (k : Nat) (c : Client), s.clients[k]? = some c → c.slot ≠ i := by
        rintro k c hk rfl
        exact (h.live k c hk).1 hnone
      have hclients : ∀ (k : Nat) (c : Client), (s.clients ++
          [{ copy := { zeroConn with state := .waitAuth }, slot := i, history := [], closed := false }])[k]? = some c →
          s.clients[k]? = some c ∨ k = s.clients.length ∧ c.slot = i ∧ c.history = [] ∧ c.closed = false := by
        intro k c hk
        rcases Nat.lt_or_ge k s.clients.length with hlt | hge
        · rw [List.getElem?_append_left hlt] at hk
          exact Or.inl hk
        · rw [List.getElem?_append_right hge, List.getElem?_singleton] at hk
          split at hk
          · obtain rfl := Option.some.inj hk
            exact Or.inr ⟨by omega, rfl, rfl, rfl⟩
          · cases hk
      refine ⟨⟨fun k l c d hk hl heq => ?_, fun k c hk => ?_, fun k c hk hstate => ?_, fun k c hk hstate => ?_⟩,
        fun j => ?_⟩
      · rcases hclients k c hk with hk | ⟨rfl, hc, -⟩ <;> rcases hclients l d hl with hl | ⟨rfl, hd, -⟩
        · exact h.slots k l c d hk hl heq
        · exact absurd (heq.trans hd) (hfree k c hk)
        · exact absurd (heq.symm.trans hc) (hfree l d hl)
        · rfl
      · rcases hclients k c hk with hk | ⟨-, hc, -, hclosed⟩
        · simp only [update_of_ne (hfree k c hk)]
          exact h.live k c hk
        · simp only [hc, update_self]
          exact ⟨nofun, nofun, hclosed⟩
      · rcases hclients k c hk with hk | ⟨-, hc, -, -⟩
        · simp only [update_of_ne (hfree k c hk)] at hstate
          exact h.greeted k c hk hstate
        · simp only [hc, update_self] at hstate
          cases hstate
      · rcases hclients k c hk with hk | ⟨-, hc, -, -⟩
        · simp only [update_of_ne (hfree k c hk)] at hstate
          exact h.shook k c hk hstate
        · simp only [hc, update_self] at hstate
          cases hstate
      · by_cases hji : j = i
        · rw [hji]
          exact Or.inr hnone
        · exact Or.inl (update_of_ne hji _ _)

theorem Inv.step (h : Inv s) {event : Event} (hord : Orderly s event) :
    Inv (step m s event) ∧ Isolated m s event (step m s event) := by
  cases event with
  | accept isNull =>
    obtain ⟨hinv, hothers⟩ := h.accept isNull
    exact ⟨hinv, hinv.isolated hothers nofun⟩
  | close k =>
    have hnone : s.clients[k]? = none := List.getElem?_eq_none_iff.mpr hord
    have hsame : Socks.step m s (.close k) = s := by
      simp only [Socks.step, List.modify_eq_self hord]
    rw [hsame]
    exact ⟨h, h.isolated (fun j => Or.inl rfl) nofun⟩
  | elsewhere tor =>
    have hinv : Inv { s with tor } := ⟨h.slots, h.live, h.greeted, h.shook⟩
    exact ⟨hinv, hinv.isolated (fun j => Or.inl rfl) nofun⟩
  | message k msg =>
    -- Where the connections stay, every message leaves its connection where it is.
    have hquiet : (torSocks5Handle m s k msg).1 = s → (torSocks5Handle m s k msg).2.2.2 = 0 →
        Inv (Socks.step m s (.message k msg)) ∧
          Isolated m s (.message k msg) (Socks.step m s (.message k msg)) := by
      intro hsame hreach
      have hinv := @Inv.message _ s.conns s.tor h k msg (fun c _ => .stay _)
        fun l c _ _ => rfl
      simp only [Socks.step, hsame]
      refine ⟨hinv, hinv.isolated (fun j => Or.inl rfl) ?_⟩
      rintro _ _ ⟨⟩
      rw [hreach]
      exact Nat.zero_le _
    rcases hk : s.clients[k]? with _ | client
    · exact hquiet (by simp only [torSocks5Handle, hk]) (by simp only [torSocks5Handle, hk])
    · by_cases hlen : msg.len = 0
      · exact hquiet (by simp only [torSocks5Handle, hk, if_pos hlen])
          (by simp only [torSocks5Handle, hk, if_pos hlen])
      · rcases hfind : s.findConn client.copy.streamId with _ | i
        · exact hquiet (by simp only [torSocks5Handle, hk, if_neg hlen, hfind])
            (by simp only [torSocks5Handle, hk, if_neg hlen, hfind])
        · obtain ⟨rfl, hserved⟩ := hord client hk hlen i hfind
          obtain ⟨hadv, hinside⟩ := handleConn_spec (m := m) (h.live k client hk).1 hserved
          have hinv := @Inv.message _
            (update s.conns client.slot (handleConn m s.tor (s.conns client.slot) msg).conn)
            (handleConn m s.tor (s.conns client.slot) msg).tor h k msg
            (fun c hc => by
              obtain rfl := Option.some.inj (hk.symm.trans hc)
              rw [update_self]
              exact hadv)
            (fun l c hlk hl => update_of_ne (fun heq => hlk (h.slots l k c client hl hk heq)) _ _)
          simp only [Socks.step, torSocks5Handle, hk, if_neg hlen, hfind]
          refine ⟨hinv, hinv.isolated (fun j => ?_) ?_⟩
          · by_cases hj : j = client.slot
            · exact Or.inr ⟨client, hk, hj.symm⟩
            · exact Or.inl (update_of_ne hj _ _)
          · rintro _ _ ⟨⟩
            simp only [torSocks5Handle, hk, if_neg hlen, hfind]
            exact hinside

end Event

/-! ## Runs -/

/-- **Isolation over every run** from `tor_socks5_init` whose events are all in order. -/
theorem isolated_of_orderly (m : TorMemory) (s : Proxy) {events : List Event}
    (hord : Guarded Orderly (torSocks5Init s) (traceOf (step m) (torSocks5Init s) events)) :
    AllSteps (Isolated m) (torSocks5Init s) (traceOf (step m) (torSocks5Init s) events) := by
  refine (trace_traceOf (step m) (torSocks5Init s) events).allSteps_of_guarded (I := Inv) ?_ ?_ hord
  · rintro t event u ht rfl hguard
    exact ht.step hguard
  · have hnone : ∀ k : Nat, (torSocks5Init s).clients[k]? = none := fun k => rfl
    refine ⟨fun k l c d hk => ?_, fun k c hk => ?_, fun k c hk => ?_, fun k c hk => ?_⟩ <;>
      · rw [hnone] at hk
        cases hk

/-- A proxy before `tor_socks5_init`, with an established circuit 0. -/
def proxy : Proxy :=
  { conns := fun _ => zeroConn, initialized := false, clients := []
    tor :=
      { oneCircuit with
        circuits := (Vector.replicate maxCircuits zeroCircuit).setIfInBounds 0 { oneHopCircuit with circId := 0 } } }

/-- A greeting: no authentication. -/
def hello : Message := { data := [0x05, 0x01, 0x00], behind := fun _ => 0 }

/-- A request for port 80 of `10.0.0.1`. -/
def connectRequest : Message := { data := [0x05, 0x01, 0x00, 0x01, 10, 0, 0, 1, 0, 80], behind := fun _ => 0 }

/-- Of two clients that were accepted, the second one greets: the first one's connection goes on. -/
theorem secondClient_not_isolated :
    ¬ AllSteps (Isolated zeroMemory) (torSocks5Init proxy) (traceOf (step zeroMemory) (torSocks5Init proxy)
      [.accept false, .accept false, .message 1 hello]) := by
  rintro ⟨-, -, hmessage, -⟩
  rcases hmessage.others 0 with hsame | ⟨client, hclient, hslot⟩
  · exact absurd (congrArg SocksConn.state hsame) (by decide)
  · have hone : ((step zeroMemory (step zeroMemory (torSocks5Init proxy) (.accept false))
        (.accept false)).clients[1]?).map Client.slot = some 1 := by decide
    rw [hclient, Option.map_some, hslot] at hone
    exact absurd hone (by decide)

/-- One client is accepted, greets and is connected. -/
theorem oneClient_isolated :
    AllSteps (Isolated zeroMemory) (torSocks5Init proxy) (traceOf (step zeroMemory) (torSocks5Init proxy)
      [.accept false, .message 0 hello, .message 0 connectRequest]) := by
  have horderly : ∀ (t : Proxy) (msg : Message),
      (t.clients[0]?).map (fun client => (client.copy.streamId, client.slot)) = some (0, 0) →
      t.findConn 0 = some 0 → Served t.tor (t.conns 0) msg → Orderly t (.message 0 msg) := by
    intro t msg hcopy hfind hserved client hk _ i hi
    rw [hk, Option.map_some] at hcopy
    obtain ⟨hid, hslot⟩ := Prod.mk.inj (Option.some.inj hcopy)
    rw [hid, hfind] at hi
    obtain rfl := Option.some.inj hi
    exact ⟨hslot.symm, hserved⟩
  apply isolated_of_orderly
  refine ⟨trivial, ?_, ?_, trivial⟩
  · refine horderly _ _ (by decide) (by decide) ?_
    have hstate : ((step zeroMemory (torSocks5Init proxy) (.accept false)).conns 0).state = .waitAuth := by
      decide
    unfold Served
    rw [hstate]
    exact fun _ => ⟨by decide, by decide, by decide, 0, by decide, by decide⟩
  · refine horderly _ _ (by decide) (by decide) ?_
    have hstate : ((step zeroMemory (step zeroMemory (torSocks5Init proxy) (.accept false))
        (.message 0 hello)).conns 0).state = .waitCmd := by decide
    unfold Served
    rw [hstate]
    refine fun _ => ⟨by decide, by decide, fun _ => ⟨?_, ?_, ?_⟩⟩ <;> decide

end Chicago95.Stage2.Tor.Socks
