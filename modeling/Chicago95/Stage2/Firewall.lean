/-
# Chicago95.Stage2.Firewall — the connection table of `security/firewall/gen2_stateful`.

A packet that is an initial SYN takes a slot of the table, a SYN cookie and one of the half-open
connections; every other TCP packet is let through when `find_connection` finds its five-tuple, in one
direction or the other, and moves that connection through the TCP states. The sweep frees the slots that
have been silent for too long.
-/
import Chicago95.Lib.Counting
import Chicago95.Lib.Loop
import Chicago95.Lib.Transition
import Mathlib.Algebra.Group.Nat.Defs

namespace Chicago95.Stage2.Firewall

open Chicago95.Lib.Counting Chicago95.Lib.Loop
open Function (update_of_ne update_self update_idem update)

/-! ## Constants and records -/

def maxConnections : Nat := 1024
def synCookiesMax : Nat := 256
def connHalfopenMax : Nat := 128

/-- `TCP_ST_*` -/
inductive TcpState
  | none | synSent | synRcvd | established | finWait1 | finWait2 | closing | timeWait | closeWait | lastAck
  | closed
  deriving DecidableEq

def tcpFin : UInt32 := 0x01
def tcpSyn : UInt32 := 0x02
def tcpRst : UInt32 := 0x04
def tcpAck : UInt32 := 0x10

def connFlagEstablished : UInt8 := 0x01
def connFlagSynSeen : UInt8 := 0x02
def connFlagFinSeen : UInt8 := 0x04
def connFlagRstSeen : UInt8 := 0x08

/-- The `FW_ACTION_*` that `fw_stateful_eval` returns. -/
inductive FwAction
  | allow | deny | drop
  deriving DecidableEq

/-- The five arguments `sip, dip, sp, dp, proto`. -/
structure FiveTuple where
  srcIp : UInt32
  dstIp : UInt32
  srcPort : UInt16
  dstPort : UInt16
  proto : UInt8
  deriving DecidableEq

/-- The other direction. -/
def FiveTuple.reverse (t : FiveTuple) : FiveTuple :=
  { srcIp := t.dstIp, dstIp := t.srcIp, srcPort := t.dstPort, dstPort := t.srcPort, proto := t.proto }

/-- What `sec_packet_t` has for this firewall. -/
structure SecPacket where
  ipProto : UInt8
  srcIp : UInt32
  dstIp : UInt32
  srcPort : UInt16
  dstPort : UInt16
  tcpFlags : UInt32

/-- The five-tuple of a packet. -/
def SecPacket.tuple (pkt : SecPacket) : FiveTuple :=
  { srcIp := pkt.srcIp, dstIp := pkt.dstIp, srcPort := pkt.srcPort, dstPort := pkt.dstPort,
    proto := pkt.ipProto }

/-- `pkt->tcp_flags & flag` -/
def SecPacket.has (pkt : SecPacket) (flag : UInt32) : Bool := decide (pkt.tcpFlags &&& flag ≠ 0)

/-- `ip_proto == 6` with a SYN and no ACK. -/
def SecPacket.initialSyn (pkt : SecPacket) : Bool :=
  decide (pkt.ipProto = 6) && pkt.has tcpSyn && !pkt.has tcpAck

/-- `sec_conn_state_t`; what is not said is zero. -/
structure SecConnState where
  tuple : FiveTuple := { srcIp := 0, dstIp := 0, srcPort := 0, dstPort := 0, proto := 0 }
  state : TcpState := .none
  packetsIn : UInt32 := 0
  packetsOut : UInt32 := 0
  bytesIn : UInt64 := 0
  bytesOut : UInt64 := 0
  created : UInt64 := 0
  lastSeen : UInt64 := 0
  flags : UInt8 := 0

/-- `conn_zero_conn` -/
def zeroConn : SecConnState := {}

/-- `syn_cookie_t` -/
structure SynCookie where
  srcIp : UInt32
  dstIp : UInt32
  srcPort : UInt16
  dstPort : UInt16
  seq : UInt32
  timestamp : UInt64
  used : Bool

/-- The fields of `sec_stats_t` that are counted here. -/
structure SecStats where
  packetsInspected : UInt64
  packetsAllowed : UInt64
  packetsDropped : UInt64
  connectionsTracked : UInt64
  connectionsEstablished : UInt64
  connectionsClosed : UInt64
  errors : UInt64

/-- The two tables and their counters. -/
structure Tables where
  connections : Nat → SecConnState
  connCount : UInt32
  synCookies : Nat → SynCookie
  synCookieCount : UInt32
  halfopenCount : UInt32

/-- The variables of the module, less the rules that nothing reads. -/
structure FwState where
  tables : Tables
  stats : SecStats
  now : UInt64

def fwStatefulInit (s : FwState) : FwState :=
  { s with
    tables := { connections := fun i => if i < maxConnections then zeroConn else s.tables.connections i
                connCount := 0
                synCookies := fun i => if i < synCookiesMax then { s.tables.synCookies i with used := false }
                  else s.tables.synCookies i
                synCookieCount := 0
                halfopenCount := 0 }
    stats := { packetsInspected := 0, packetsAllowed := 0, packetsDropped := 0, connectionsTracked := 0,
               connectionsEstablished := 0, connectionsClosed := 0, errors := 0 } }

/-! ## The helper functions -/

/-- A connection of this five-tuple, in one direction or the other. -/
def SecConnState.isOf (c : SecConnState) (t : FiveTuple) : Bool :=
  decide (c.tuple = t) || decide (c.tuple = t.reverse)

def findConnection (tables : Tables) (t : FiveTuple) : Option Nat :=
  (List.range maxConnections).find? fun i => (tables.connections i).isOf t

/-- The first slot whose `proto` is 0. -/
def freeSlot (tables : Tables) : Option Nat :=
  (List.range maxConnections).find? fun i => decide ((tables.connections i).tuple.proto = 0)

/-- `create_connection`: the slot it took. -/
def createConnection (s : FwState) (t : FiveTuple) : FwState × Option Nat :=
  match freeSlot s.tables with
  | some i =>
    ({ s with
       tables := { s.tables with
         connections := update s.tables.connections i
           { tuple := t, state := .none, created := s.now, lastSeen := s.now }
         connCount := s.tables.connCount + 1 }
       stats := { s.stats with connectionsTracked := s.stats.connectionsTracked + 1 } }, some i)
  | none => (s, none)

def synCookieCreate (tables : Tables) (t : FiveTuple) (seq : UInt32) (now : UInt64) : Tables × Bool :=
  match (List.range synCookiesMax).find? fun i => !(tables.synCookies i).used with
  | some i =>
    ({ tables with
       synCookies := update tables.synCookies i
         { srcIp := t.srcIp, dstIp := t.dstIp, srcPort := t.srcPort, dstPort := t.dstPort, seq := seq,
           timestamp := now, used := true }
       synCookieCount := tables.synCookieCount + 1 }, true)
  | none => (tables, false)

/-- A used cookie for the other direction that the acknowledged number belongs to. -/
def SynCookie.answers (c : SynCookie) (t : FiveTuple) (ackSeq : UInt32) : Bool :=
  c.used && decide (c.srcIp = t.dstIp) && decide (c.dstIp = t.srcIp) && decide (c.srcPort = t.dstPort) &&
    decide (c.dstPort = t.srcPort) && decide (ackSeq = c.seq + 1)

def synCookieVerify (tables : Tables) (t : FiveTuple) (ackSeq : UInt32) : Tables × Bool :=
  match (List.range synCookiesMax).find? fun i => (tables.synCookies i).answers t ackSeq with
  | some i =>
    ({ tables with
       synCookies := update tables.synCookies i { tables.synCookies i with used := false }
       synCookieCount := tables.synCookieCount - 1 }, true)
  | none => (tables, false)

/-- The `switch` of `tcp_state_advance`: the next state and the flag that is set with it. -/
def nextState (state : TcpState) (pkt : SecPacket) : TcpState × UInt8 :=
  match state with
  | .none => if pkt.has tcpSyn then (.synRcvd, connFlagSynSeen) else (.none, 0)
  | .synRcvd => if pkt.has tcpAck then (.established, connFlagEstablished) else (.synRcvd, 0)
  | .established =>
    let afterFin := if pkt.has tcpFin then (TcpState.finWait1, connFlagFinSeen) else (.established, 0)
    if pkt.has tcpRst then (.closed, afterFin.2 ||| connFlagRstSeen) else afterFin
  | .finWait1 =>
    let afterAck := if pkt.has tcpAck then TcpState.finWait2 else .finWait1
    (if pkt.has tcpFin then .closing else afterAck, 0)
  | .finWait2 => (if pkt.has tcpFin then .timeWait else .finWait2, 0)
  | .closing => (if pkt.has tcpAck then .timeWait else .closing, 0)
  | .timeWait => (.closed, 0)
  | .closeWait => (if pkt.has tcpFin then .lastAck else .closeWait, 0)
  | .lastAck => (if pkt.has tcpAck then .closed else .lastAck, 0)
  | .synSent => (.synSent, 0)
  | .closed => (.closed, 0)

/-- `tcp_state_advance` of a connection, at a time. -/
def SecConnState.advance (c : SecConnState) (pkt : SecPacket) (now : UInt64) : SecConnState :=
  { c with
    state := (nextState c.state pkt).1
    flags := c.flags ||| (nextState c.state pkt).2
    lastSeen := now }

/-- What `tcp_state_advance` counts: connections that are established, and those closed in order. -/
def SecStats.advance (stats : SecStats) (state : TcpState) (pkt : SecPacket) : SecStats :=
  match state, (nextState state pkt).1 with
  | .synRcvd, .established => { stats with connectionsEstablished := stats.connectionsEstablished + 1 }
  | .timeWait, .closed => { stats with connectionsClosed := stats.connectionsClosed + 1 }
  | .lastAck, .closed => { stats with connectionsClosed := stats.connectionsClosed + 1 }
  | _, _ => stats

/-- `tcp_state_advance` of slot `i`. -/
def tcpStateAdvance (s : FwState) (i : Nat) (pkt : SecPacket) : FwState :=
  { s with
    tables := { s.tables with
      connections := update s.tables.connections i ((s.tables.connections i).advance pkt s.now) }
    stats := s.stats.advance (s.tables.connections i).state pkt }

/-- `stateful_stats.packets_dropped++` -/
def FwState.dropped (s : FwState) : FwState :=
  { s with stats := { s.stats with packetsDropped := s.stats.packetsDropped + 1 } }

/-- `stateful_stats.packets_allowed++` -/
def FwState.allowed (s : FwState) : FwState :=
  { s with stats := { s.stats with packetsAllowed := s.stats.packetsAllowed + 1 } }

/-- `conn_zero_conn` of slot `i` and `conn_count--`. -/
def Tables.free (tables : Tables) (i : Nat) : Tables :=
  { tables with
    connections := update tables.connections i zeroConn
    connCount := tables.connCount - 1 }

/-! ## The two entry points -/

/-- The branch of `fw_stateful_eval` for an initial SYN. -/
def evalSyn (s : FwState) (pkt : SecPacket) : FwAction × FwState :=
  if connHalfopenMax ≤ s.tables.halfopenCount.toNat then (.drop, s.dropped)
  else if maxConnections ≤ s.tables.connCount.toNat then (.drop, s.dropped)
  else
    let s := { s with tables := (synCookieCreate s.tables pkt.tuple 0 s.now).1 }
    let s := match createConnection s pkt.tuple with
      | (s, some i) =>
        tcpStateAdvance { s with tables := { s.tables with halfopenCount := s.tables.halfopenCount + 1 } } i pkt
      | (s, none) => s
    (.allow, s.allowed)

/-- What is done with the connection in slot `i`. -/
def evalTracked (s : FwState) (i : Nat) (pkt : SecPacket) : FwState :=
  let s := tcpStateAdvance s i pkt
  let s :=
    if (s.tables.connections i).state = .synRcvd ∧ pkt.has tcpAck = true then
      match synCookieVerify s.tables pkt.tuple 0 with
      | (tables, true) => { s with tables := { tables with halfopenCount := tables.halfopenCount - 1 } }
      | (tables, false) => { s with tables := tables }
    else s
  if (s.tables.connections i).state = .closed then { s with tables := s.tables.free i } else s

/-- `fw_stateful_eval`, where `tsc` is what `get_timestamp` returns. -/
def fwStatefulEval (s : FwState) (pkt : Option SecPacket) (tsc : UInt64) : FwAction × FwState :=
  match pkt with
  | none => (.deny, s)
  | some pkt =>
    let s := { s with
      stats := { s.stats with packetsInspected := s.stats.packetsInspected + 1 }
      now := tsc }
    if pkt.initialSyn then evalSyn s pkt
    else if pkt.ipProto = 6 then
      match findConnection s.tables pkt.tuple with
      | some i => (.allow, (evalTracked s i pkt).allowed)
      | none => (.drop, s.dropped)
    else (.allow, s.allowed)

/-- A slot of the sweep: taken, and silent for longer than `maxAge`. -/
def stale (maxAge now : UInt64) (c : SecConnState) : Bool :=
  decide (c.tuple.proto ≠ 0) && decide (maxAge < now - c.lastSeen)

def fwStatefulTimeoutStale (s : FwState) (maxAge : UInt64) : FwState :=
  forEach maxConnections (fun i s =>
    if stale maxAge s.now (s.tables.connections i) = true then
      let stats := if (s.tables.connections i).state = .established then
          { s.stats with connectionsClosed := s.stats.connectionsClosed + 1 }
        else s.stats
      { s with tables := s.tables.free i, stats := stats }
    else s) s

/-! ## What a packet can do -/

/-- The connection an initial SYN opens. -/
def openedConn (pkt : SecPacket) (tsc : UInt64) : SecConnState :=
  { tuple := pkt.tuple, state := .synRcvd, created := tsc, lastSeen := tsc, flags := connFlagSynSeen }

/-- Slot `i` moved on by a packet, or freed where that closes it. -/
def Tables.moved (tables : Tables) (i : Nat) (pkt : SecPacket) (now : UInt64) : Tables :=
  if (nextState (tables.connections i).state pkt).1 = .closed then tables.free i
  else { tables with
    connections := update tables.connections i ((tables.connections i).advance pkt now) }

/-- **What a packet can do**: the action and the tables afterwards. -/
inductive Verdict (tables : Tables) (pkt : SecPacket) (tsc : UInt64) : FwAction → Tables → Prop
  | other (hproto : pkt.ipProto ≠ 6) : Verdict tables pkt tsc .allow tables
  | refused (hsyn : pkt.initialSyn = true)
      (hfull : connHalfopenMax ≤ tables.halfopenCount.toNat ∨ maxConnections ≤ tables.connCount.toNat) :
      Verdict tables pkt tsc .drop tables
  | opened (i : Nat) (hsyn : pkt.initialSyn = true) (hhalf : tables.halfopenCount.toNat < connHalfopenMax)
      (hroom : tables.connCount.toNat < maxConnections) (hfree : freeSlot tables = some i) :
      Verdict tables pkt tsc .allow
        { (synCookieCreate tables pkt.tuple 0 tsc).1 with
          connections := update tables.connections i (openedConn pkt tsc)
          connCount := tables.connCount + 1
          halfopenCount := tables.halfopenCount + 1 }
  | crowded (hsyn : pkt.initialSyn = true) (hhalf : tables.halfopenCount.toNat < connHalfopenMax)
      (hroom : tables.connCount.toNat < maxConnections) (hfree : freeSlot tables = none) :
      Verdict tables pkt tsc .allow (synCookieCreate tables pkt.tuple 0 tsc).1
  | unsolicited (hproto : pkt.ipProto = 6) (hsyn : pkt.initialSyn = false)
      (hfind : findConnection tables pkt.tuple = none) : Verdict tables pkt tsc .drop tables
  | tracked (i : Nat) (hproto : pkt.ipProto = 6) (hsyn : pkt.initialSyn = false)
      (hfind : findConnection tables pkt.tuple = some i) :
      Verdict tables pkt tsc .allow (tables.moved i pkt tsc)

theorem state_of_ack {state : TcpState} {pkt : SecPacket} (hack : pkt.has tcpAck = true)
    (h : (nextState state pkt).1 = .synRcvd) : state = .none := by
  cases state with
  | none => rfl
  | synRcvd =>
    rw [nextState, if_pos hack] at h
    cases h
  | _ =>
    simp only [nextState] at h
    (repeat' split at h) <;> cases h

section Cookies

variable (tables : Tables) (t : FiveTuple) (seq : UInt32) (now : UInt64)

@[simp] theorem synCookieCreate_connections :
    (synCookieCreate tables t seq now).1.connections = tables.connections := by
  unfold synCookieCreate
  split <;> rfl

@[simp] theorem synCookieCreate_connCount : (synCookieCreate tables t seq now).1.connCount = tables.connCount := by
  unfold synCookieCreate
  split <;> rfl

@[simp] theorem synCookieCreate_halfopenCount :
    (synCookieCreate tables t seq now).1.halfopenCount = tables.halfopenCount := by
  unfold synCookieCreate
  split <;> rfl

end Cookies

theorem freeSlot_congr {tables tables' : Tables} (h : tables'.connections = tables.connections) :
    freeSlot tables' = freeSlot tables := by
  unfold freeSlot
  rw [h]

theorem initialSyn_iff {pkt : SecPacket} :
    pkt.initialSyn = true ↔ pkt.ipProto = 6 ∧ pkt.has tcpSyn = true ∧ pkt.has tcpAck = false := by
  unfold SecPacket.initialSyn
  rw [Bool.and_eq_true, Bool.and_eq_true, decide_eq_true_iff, Bool.not_eq_true', and_assoc]

theorem evalSyn_verdict {s : FwState} {pkt : SecPacket} (hsyn : pkt.initialSyn = true) :
    Verdict s.tables pkt s.now (evalSyn s pkt).1 (evalSyn s pkt).2.tables := by
  unfold evalSyn
  split
  · rename_i hhalf
    exact .refused hsyn (Or.inl hhalf)
  · rename_i hhalf
    split
    · rename_i hroom
      exact .refused hsyn (Or.inr hroom)
    · -- a slot is looked for when the cookie has been made, which leaves the connections alone
      rename_i hroom
      have hhas : pkt.has tcpSyn = true := (initialSyn_iff.mp hsyn).2.1
      dsimp only
      unfold createConnection
      rcases hfree : freeSlot s.tables with _ | i
      · rw [freeSlot_congr (synCookieCreate_connections _ _ _ _), hfree]
        exact .crowded hsyn (Nat.lt_of_not_le hhalf) (Nat.lt_of_not_le hroom) hfree
      · rw [freeSlot_congr (synCookieCreate_connections _ _ _ _), hfree]
        have hv := @Verdict.opened _ _ s.now i hsyn (Nat.lt_of_not_le hhalf) (Nat.lt_of_not_le hroom) hfree
        convert hv using 1
        unfold FwState.allowed tcpStateAdvance SecConnState.advance openedConn
        simp [nextState, hhas]

theorem isOf_iff {c : SecConnState} {t : FiveTuple} : c.isOf t = true ↔ c.tuple = t ∨ c.tuple = t.reverse := by
  unfold SecConnState.isOf
  rw [Bool.or_eq_true, decide_eq_true_iff, decide_eq_true_iff]

theorem findConnection_spec {tables : Tables} {t : FiveTuple} {i : Nat} (h : findConnection tables t = some i) :
    i < maxConnections ∧ (tables.connections i).isOf t = true := by
  unfold findConnection at h
  have hof := List.find?_some h
  exact ⟨List.mem_range.mp (List.mem_of_find?_eq_some h), hof⟩

theorem findConnection_eq_none {tables : Tables} {t : FiveTuple} :
    findConnection tables t = none ↔ ∀ i, i < maxConnections → (tables.connections i).isOf t = false := by
  unfold findConnection
  rw [List.find?_eq_none]
  simp only [List.mem_range, Bool.not_eq_true]

theorem freeSlot_spec {tables : Tables} {i : Nat} (h : freeSlot tables = some i) :
    i < maxConnections ∧ (tables.connections i).tuple.proto = 0 := by
  unfold freeSlot at h
  have hfree := List.find?_some h
  exact ⟨List.mem_range.mp (List.mem_of_find?_eq_some h), of_decide_eq_true hfree⟩

/-- `proto != 0` -/
def SecConnState.occupied (c : SecConnState) : Bool := decide (c.tuple.proto ≠ 0)

theorem occupied_of_isOf {c : SecConnState} {pkt : SecPacket} (hproto : pkt.ipProto = 6)
    (h : c.isOf pkt.tuple = true) : c.occupied = true := by
  have hp : c.tuple.proto = pkt.ipProto := by
    rcases isOf_iff.mp h with h | h
    · rw [h]
      rfl
    · rw [h]
      rfl
  unfold SecConnState.occupied
  rw [hp, hproto]
  rfl

theorem occupied_of_freeSlot {tables : Tables} {i : Nat} (h : freeSlot tables = some i) :
    (tables.connections i).occupied = false := by
  unfold SecConnState.occupied
  rw [(freeSlot_spec h).2]
  rfl

theorem occupied_openedConn {pkt : SecPacket} (hsyn : pkt.initialSyn = true) (tsc : UInt64) :
    (openedConn pkt tsc).occupied = true := by
  unfold SecConnState.occupied openedConn SecPacket.tuple
  rw [(initialSyn_iff.mp hsyn).1]
  rfl

theorem tcpStateAdvance_connections (s : FwState) (i : Nat) (pkt : SecPacket) :
    (tcpStateAdvance s i pkt).tables.connections =
      update s.tables.connections i ((s.tables.connections i).advance pkt s.now) := rfl

theorem evalTracked_tables {s : FwState} {i : Nat} {pkt : SecPacket}
    (hstarted : (s.tables.connections i).state ≠ .none) :
    (evalTracked s i pkt).tables = s.tables.moved i pkt s.now := by
  have hstate : ((tcpStateAdvance s i pkt).tables.connections i).state =
      (nextState (s.tables.connections i).state pkt).1 := by
    rw [tcpStateAdvance_connections, update_self]
    rfl
  -- so the cookie of the handshake is never asked for
  have hcookie : ¬ (((tcpStateAdvance s i pkt).tables.connections i).state = .synRcvd ∧
      pkt.has tcpAck = true) := by
    rintro ⟨hrcvd, hack⟩
    exact hstarted (state_of_ack hack (hstate.symm.trans hrcvd))
  unfold evalTracked
  dsimp only
  rw [if_neg hcookie, hstate]
  unfold Tables.moved
  split
  · -- what the packet made of the connection is overwritten
    show Tables.free (tcpStateAdvance s i pkt).tables i = _
    unfold Tables.free
    rw [tcpStateAdvance_connections, update_idem]
    rfl
  · rfl

/-- The connections that are there have been opened by a SYN. -/
def Started (tables : Tables) : Prop :=
  ∀ i, i < maxConnections → (tables.connections i).occupied = true → (tables.connections i).state ≠ .none

theorem fwStatefulEval_verdict {s : FwState} (hstarted : Started s.tables) (pkt : SecPacket) (tsc : UInt64) :
    Verdict s.tables pkt tsc (fwStatefulEval s (some pkt) tsc).1 (fwStatefulEval s (some pkt) tsc).2.tables := by
  unfold fwStatefulEval
  dsimp only
  split
  · rename_i hsyn
    have hv := evalSyn_verdict (s := { s with
      stats := { s.stats with packetsInspected := s.stats.packetsInspected + 1 }, now := tsc }) hsyn
    exact hv
  · rename_i hsyn
    have hsyn := Bool.not_eq_true _ |>.mp hsyn
    split
    · rename_i hproto
      split
      · rename_i i hfind
        obtain ⟨hi, hof⟩ := findConnection_spec hfind
        have hne := hstarted i hi (occupied_of_isOf hproto hof)
        have hv := @Verdict.tracked _ _ tsc i hproto hsyn hfind
        convert hv using 1
        exact evalTracked_tables hne
      · rename_i hfind
        exact .unsolicited hproto hsyn hfind
    · rename_i hproto
      exact .other hproto

/-! ## The counters -/

/-- The counters count, and a connection that is there has been opened. -/
structure Sound (tables : Tables) : Prop where
  conns : tables.connCount.toNat = countBelow maxConnections fun i => (tables.connections i).occupied
  cookies : tables.synCookieCount.toNat = countBelow synCookiesMax fun i => (tables.synCookies i).used
  started : Started tables

theorem toNat_add_one {n : UInt32} (h : n.toNat + 1 < 2 ^ 32) : (n + 1).toNat = n.toNat + 1 := by
  rw [UInt32.toNat_add]
  exact Nat.mod_eq_of_lt h

theorem toNat_sub_one {n : UInt32} (h : 0 < n.toNat) : (n - 1).toNat = n.toNat - 1 :=
  UInt32.toNat_sub_of_le _ _ (UInt32.le_iff_toNat_le.mpr h)

@[simp] theorem occupied_zeroConn : zeroConn.occupied = false := rfl

theorem Sound.connCount_lt {tables : Tables} (h : Sound tables) : tables.connCount.toNat ≤ maxConnections := by
  rw [h.conns]
  exact countBelow_le _ _

theorem Sound.init (s : FwState) : Sound (fwStatefulInit s).tables := by
  refine ⟨?_, ?_, ?_⟩
  · refine (List.countP_eq_zero.mpr fun i hi => ?_).symm
    have hlt := List.mem_range.mp hi
    unfold fwStatefulInit
    dsimp only
    rw [if_pos hlt]
    decide
  · refine (List.countP_eq_zero.mpr fun i hi => ?_).symm
    have hlt := List.mem_range.mp hi
    unfold fwStatefulInit
    dsimp only
    rw [if_pos hlt]
    exact Bool.false_ne_true
  · intro i hi hocc
    unfold fwStatefulInit at hocc
    dsimp only at hocc
    rw [if_pos hi] at hocc
    cases hocc

theorem Sound.free {tables : Tables} (h : Sound tables) {i : Nat} (hi : i < maxConnections)
    (hocc : (tables.connections i).occupied = true) : Sound (tables.free i) := by
  have hcount := countBelow_update_entry SecConnState.occupied tables.connections hi zeroConn
  rw [hocc, occupied_zeroConn, ← h.conns, Bool.toNat_true, Bool.toNat_false] at hcount
  refine ⟨?_, h.cookies, ?_⟩
  · show (tables.connCount - 1).toNat = _
    rw [toNat_sub_one (by omega)]
    unfold Tables.free
    dsimp only
    omega
  · intro j hj hjocc
    unfold Tables.free at hjocc ⊢
    dsimp only at hjocc ⊢
    rcases eq_or_ne j i with rfl | hne
    · rw [update_self] at hjocc
      cases hjocc
    · rw [update_of_ne hne] at hjocc ⊢
      exact h.started j hj hjocc

theorem Sound.withCookie {tables : Tables} (h : Sound tables) (t : FiveTuple) (seq : UInt32) (now : UInt64) :
    Sound (synCookieCreate tables t seq now).1 := by
  unfold synCookieCreate
  split
  · rename_i i hfind
    have hi := List.mem_range.mp (List.mem_of_find?_eq_some hfind)
    have hunused := List.find?_some hfind
    rw [Bool.not_eq_true'] at hunused
    have hcount := countBelow_update_entry SynCookie.used tables.synCookies hi
      { srcIp := t.srcIp, dstIp := t.dstIp, srcPort := t.srcPort, dstPort := t.dstPort, seq := seq,
        timestamp := now, used := true }
    rw [hunused, ← h.cookies, Bool.toNat_false, Bool.toNat_true, Nat.add_zero] at hcount
    have hle := countBelow_le (fun i => (tables.synCookies i).used) synCookiesMax
    rw [← h.cookies] at hle
    refine ⟨h.conns, ?_, h.started⟩
    dsimp only
    rw [toNat_add_one (by unfold synCookiesMax at hle; omega)]
    exact hcount.symm
  · exact h

theorem state_advance_ne_none {state : TcpState} {pkt : SecPacket} (h : state ≠ .none) :
    (nextState state pkt).1 ≠ .none := by
  cases state with
  | none => exact absurd rfl h
  | _ =>
    simp only [nextState]
    (repeat' split) <;> simp

theorem Sound.moved {tables : Tables} (h : Sound tables) {i : Nat} {pkt : SecPacket} (now : UInt64)
    (hi : i < maxConnections) (hocc : (tables.connections i).occupied = true) : Sound (tables.moved i pkt now) := by
  unfold Tables.moved
  split
  · exact h.free hi hocc
  · have hsame : ((tables.connections i).advance pkt now).occupied = (tables.connections i).occupied := rfl
    have hcount := countBelow_update_entry SecConnState.occupied tables.connections hi
      ((tables.connections i).advance pkt now)
    rw [hsame, ← h.conns] at hcount
    refine ⟨(Nat.add_right_cancel hcount).symm, h.cookies, ?_⟩
    intro j hj hjocc
    dsimp only at hjocc ⊢
    rcases eq_or_ne j i with rfl | hne
    · rw [update_self]
      exact state_advance_ne_none (h.started j hj hocc)
    · rw [update_of_ne hne] at hjocc ⊢
      exact h.started j hj hjocc

theorem Sound.verdict {tables tables' : Tables} {pkt : SecPacket} {tsc : UInt64} {action : FwAction}
    (h : Sound tables) (hv : Verdict tables pkt tsc action tables') : Sound tables' := by
  cases hv with
  | other => exact h
  | refused => exact h
  | unsolicited => exact h
  | crowded => exact h.withCookie _ _ _
  | tracked i hproto hsyn hfind =>
    obtain ⟨hi, hof⟩ := findConnection_spec hfind
    exact h.moved tsc hi (occupied_of_isOf hproto hof)
  | opened i hsyn hhalf hroom hfree =>
    have hcount := countBelow_update_entry SecConnState.occupied tables.connections (freeSlot_spec hfree).1
      (openedConn pkt tsc)
    rw [occupied_of_freeSlot hfree, occupied_openedConn hsyn, ← h.conns, Bool.toNat_false, Bool.toNat_true,
      Nat.add_zero] at hcount
    refine ⟨?_, (h.withCookie pkt.tuple 0 tsc).cookies, ?_⟩
    · dsimp only
      rw [toNat_add_one (by unfold maxConnections at hroom; omega)]
      exact hcount.symm
    · intro j hj hjocc
      dsimp only at hjocc ⊢
      rcases eq_or_ne j i with rfl | hne
      · rw [update_self]
        exact fun hstate => by cases hstate
      · rw [update_of_ne hne] at hjocc ⊢
        exact h.started j hj hjocc

end Chicago95.Stage2.Firewall
