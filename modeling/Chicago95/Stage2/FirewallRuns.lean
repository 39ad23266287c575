/-
# Chicago95.Stage2.FirewallRuns — runs of the stateful firewall.

`connection_tracking` is what every run of packets and sweeps keeps: `conn_count` is the number of slots taken, each
of them was taken by an initial SYN of its five-tuple and has been kept since, and a TCP packet that is no
initial SYN gets through exactly when its connection is in the table.
-/
import Chicago95.Stage2.Firewall
import Mathlib.Data.List.Induction

namespace Chicago95.Stage2.Firewall

open Chicago95.Lib.Counting Chicago95.Lib.Loop Chicago95.Lib.Transition
open Function (update_of_ne update_self update)

/-! ## The sweep -/

/-- What the sweep leaves in a slot. -/
def swept (maxAge now : UInt64) (c : SecConnState) : SecConnState :=
  if stale maxAge now c = true then zeroConn else c

theorem occupied_of_stale {maxAge now : UInt64} {c : SecConnState} (h : stale maxAge now c = true) :
    c.occupied = true := by
  unfold stale at h
  rw [Bool.and_eq_true] at h
  exact h.1

/-- How far the sweep has come. -/
structure Sweeping (s : FwState) (maxAge : UInt64) (n : Nat) (t : FwState) : Prop where
  now : t.now = s.now
  connections : ∀ i, t.tables.connections i =
    if i < n then swept maxAge s.now (s.tables.connections i) else s.tables.connections i
  synCookies : t.tables.synCookies = s.tables.synCookies
  halfopenCount : t.tables.halfopenCount = s.tables.halfopenCount
  sound : Sound t.tables

theorem sweeping (s : FwState) (maxAge : UInt64) (hs : Sound s.tables) :
    Sweeping s maxAge maxConnections (fwStatefulTimeoutStale s maxAge) := by
  unfold fwStatefulTimeoutStale
  -- slot `n` has not been touched before its turn
  refine forEach_induction (P := Sweeping s maxAge) ⟨rfl, fun i => rfl, rfl, rfl, hs⟩ ?_
  intro n t hn ht
  have hslot : t.tables.connections n = s.tables.connections n := by
    rw [ht.connections, if_neg (Nat.lt_irrefl n)]
  have hsplit : ∀ i, i ≠ n → (i < n + 1 ↔ i < n) := by
    intro i hne
    omega
  split
  · rename_i hstale
    refine ⟨ht.now, ?_, ht.synCookies, ht.halfopenCount, ht.sound.free hn (occupied_of_stale hstale)⟩
    intro i
    show update t.tables.connections n zeroConn i = _
    rcases eq_or_ne i n with rfl | hne
    · rw [hslot, ht.now] at hstale
      rw [update_self, if_pos (Nat.lt_succ_self i), swept, if_pos hstale]
    · rw [update_of_ne hne, ht.connections]
      simp only [hsplit i hne]
  · rename_i hkept
    refine ⟨ht.now, ?_, ht.synCookies, ht.halfopenCount, ht.sound⟩
    intro i
    rw [ht.connections]
    rcases eq_or_ne i n with rfl | hne
    · rw [hslot, ht.now] at hkept
      rw [if_neg (Nat.lt_irrefl i), if_pos (Nat.lt_succ_self i), swept, if_neg hkept]
    · simp only [hsplit i hne]

/-! ## Runs -/

/-- A call of one of the two functions. -/
inductive Call
  | eval (pkt : Option SecPacket) (tsc : UInt64)
  | timeoutStale (maxAge : UInt64)

/-- The state after a call. -/
def next (s : FwState) : Call → FwState
  | .eval pkt tsc => (fwStatefulEval s pkt tsc).2
  | .timeoutStale maxAge => fwStatefulTimeoutStale s maxAge

theorem next_eval (s : FwState) (pkt : Option SecPacket) (tsc : UInt64) :
    next s (.eval pkt tsc) = (fwStatefulEval s pkt tsc).2 := rfl

theorem next_timeoutStale (s : FwState) (maxAge : UInt64) :
    next s (.timeoutStale maxAge) = fwStatefulTimeoutStale s maxAge := rfl

/-- The state after a run. -/
def run (s : FwState) (calls : List Call) : FwState := calls.foldl next s

theorem run_append (s : FwState) (calls calls' : List Call) : run s (calls ++ calls') = run (run s calls) calls' :=
  List.foldl_append

theorem run_concat (s : FwState) (calls : List Call) (c : Call) : run s (calls ++ [c]) = next (run s calls) c :=
  run_append s calls [c]

theorem Sound.next {s : FwState} (h : Sound s.tables) (c : Call) : Sound (next s c).tables := by
  cases c with
  | timeoutStale maxAge => exact (sweeping s maxAge h).sound
  | eval pkt tsc =>
    cases pkt with
    | none => exact h
    | some pkt => exact h.verdict (fwStatefulEval_verdict h.started pkt tsc)

theorem Sound.run {s : FwState} (h : Sound s.tables) (calls : List Call) : Sound (run s calls).tables := by
  induction calls using List.reverseRecOn with
  | nil => exact h
  | append_singleton calls c ih =>
    rw [run_concat]
    exact ih.next c

/-- A packet of the run that may take a slot. -/
def Opens (c : Call) (t : FiveTuple) : Prop :=
  ∃ pkt tsc, c = .eval (some pkt) tsc ∧ pkt.initialSyn = true ∧ pkt.tuple = t

theorem slot_next {s : FwState} (h : Sound s.tables) (c : Call) {i : Nat} (hi : i < maxConnections)
    (hocc : ((next s c).tables.connections i).occupied = true) : ((s.tables.connections i).occupied = true ∧
      (s.tables.connections i).tuple = ((next s c).tables.connections i).tuple) ∨
    ((s.tables.connections i).occupied = false ∧ Opens c ((next s c).tables.connections i).tuple) := by
  cases c with
  | timeoutStale maxAge =>
    have hswept := (sweeping s maxAge h).connections i
    rw [if_pos hi, swept] at hswept
    rw [next_timeoutStale] at hocc ⊢
    split at hswept
    · rw [hswept] at hocc
      cases hocc
    · rw [hswept] at hocc ⊢
      exact Or.inl ⟨hocc, rfl⟩
  | eval pkt tsc =>
    cases pkt with
    | none => exact Or.inl ⟨hocc, rfl⟩
    | some pkt =>
      have hv := fwStatefulEval_verdict h.started pkt tsc
      rw [next_eval] at hocc ⊢
      generalize (fwStatefulEval s (some pkt) tsc).2.tables = tables at hv hocc ⊢
      generalize (fwStatefulEval s (some pkt) tsc).1 = action at hv
      cases hv with
      | other => exact Or.inl ⟨hocc, rfl⟩
      | refused => exact Or.inl ⟨hocc, rfl⟩
      | unsolicited => exact Or.inl ⟨hocc, rfl⟩
      | crowded =>
        rw [synCookieCreate_connections] at hocc ⊢
        exact Or.inl ⟨hocc, rfl⟩
      | tracked k hproto hsyn hfind =>
        unfold Tables.moved at hocc ⊢
        split at hocc
        · rename_i hclosed
          rw [if_pos hclosed]
          unfold Tables.free at hocc ⊢
          dsimp only at hocc ⊢
          rcases eq_or_ne i k with rfl | hne
          · rw [update_self] at hocc
            cases hocc
          · rw [update_of_ne hne] at hocc ⊢
            exact Or.inl ⟨hocc, rfl⟩
        · rename_i hopen
          rw [if_neg hopen]
          dsimp only at hocc ⊢
          rcases eq_or_ne i k with rfl | hne
          · rw [update_self] at hocc ⊢
            exact Or.inl ⟨hocc, rfl⟩
          · rw [update_of_ne hne] at hocc ⊢
            exact Or.inl ⟨hocc, rfl⟩
      | opened k hsyn hhalf hroom hfree =>
        dsimp only at hocc ⊢
        rcases eq_or_ne i k with rfl | hne
        · rw [update_self] at hocc ⊢
          exact Or.inr ⟨occupied_of_freeSlot hfree, pkt, tsc, rfl, hsyn, rfl⟩
        · rw [update_of_ne hne] at hocc ⊢
          exact Or.inl ⟨hocc, rfl⟩

/-! ## Tracking -/

/-- The connection in slot `i` at the end of a run: the call that took the slot, which was free, for it,
and that the slot has been this connection's ever since. -/
def Stems (s : FwState) (calls : List Call) (i : Nat) : Prop :=
  ∃ before c after, calls = before ++ c :: after ∧
    Opens c ((run s calls).tables.connections i).tuple ∧
    ((run s before).tables.connections i).occupied = false ∧
    ∀ kept, kept <+: after → ((run s (before ++ c :: kept)).tables.connections i).tuple =
      ((run s calls).tables.connections i).tuple

theorem stems {s : FwState} (h : Sound s.tables)
    (hempty : ∀ i, i < maxConnections → (s.tables.connections i).occupied = false) (calls : List Call)
    {i : Nat} (hi : i < maxConnections) (hocc : ((run s calls).tables.connections i).occupied = true) :
    Stems s calls i := by
  induction calls using List.reverseRecOn with
  | nil =>
    have hfree := hempty i hi
    rw [show run s [] = s from rfl, hfree] at hocc
    cases hocc
  | append_singleton calls c ih =>
    rw [run_concat] at hocc
    -- the slot was this connection's before the last call, or the last call took it
    rcases slot_next (h.run calls) c hi hocc with ⟨hbefore, htuple⟩ | ⟨hfree, hopens⟩
    · obtain ⟨before, c', after, hcalls, hopens, hfree, hkept⟩ := ih hbefore
      refine ⟨before, c', after ++ [c], by rw [hcalls, List.append_assoc]; rfl, ?_, hfree, ?_⟩
      · rw [run_concat, ← htuple]
        exact hopens
      · intro kept hinit
        rw [run_concat, ← htuple]
        rcases List.prefix_concat_iff.mp hinit with hall | hinit
        · -- the whole run
          rw [hall, ← List.cons_append, ← List.append_assoc, ← hcalls, run_concat, ← htuple]
        · exact hkept kept hinit
    · refine ⟨calls, c, [], rfl, by rw [run_concat]; exact hopens, hfree, fun kept hinit => ?_⟩
      rw [List.prefix_nil.mp hinit]

/-- What connection tracking promises of a state that a run has led to. -/
structure Tracking (s : FwState) (calls : List Call) : Prop where
  counted : (run s calls).tables.connCount.toNat =
    countBelow maxConnections fun i => decide (((run s calls).tables.connections i).tuple.proto ≠ 0)
  bounded : (run s calls).tables.connCount.toNat ≤ maxConnections
  stems : ∀ i, i < maxConnections → ((run s calls).tables.connections i).tuple.proto ≠ 0 → Stems s calls i
  admitted : ∀ pkt tsc, pkt.ipProto = 6 → pkt.initialSyn = false →
    ((fwStatefulEval (run s calls) (some pkt) tsc).1 = .allow ↔
      ∃ i, i < maxConnections ∧ ((run s calls).tables.connections i).tuple.proto ≠ 0 ∧
        (((run s calls).tables.connections i).tuple = pkt.tuple ∨
          ((run s calls).tables.connections i).tuple = pkt.tuple.reverse))

theorem admitted_iff (s : FwState) {pkt : SecPacket} (tsc : UInt64) (hproto : pkt.ipProto = 6)
    (hsyn : pkt.initialSyn = false) :
    (fwStatefulEval s (some pkt) tsc).1 = .allow ↔ findConnection s.tables pkt.tuple ≠ none := by
  unfold fwStatefulEval
  dsimp only
  rw [hsyn, if_neg Bool.false_ne_true, if_pos hproto]
  split
  · rename_i i hfind
    rw [hfind]
    simp
  · rename_i hfind
    rw [hfind]
    simp

/-- **Connection tracking** over every run. -/
theorem connection_tracking (s : FwState) (calls : List Call) : Tracking (fwStatefulInit s) calls := by
  have hsound := (Sound.init s).run calls
  have hempty : ∀ i, i < maxConnections → ((fwStatefulInit s).tables.connections i).occupied = false := by
    intro i hi
    unfold fwStatefulInit
    dsimp only
    rw [if_pos hi]
    rfl
  refine ⟨hsound.conns, hsound.connCount_lt, ?_, ?_⟩
  · exact fun i hi hocc => stems (Sound.init s) hempty calls hi (decide_eq_true hocc)
  · intro pkt tsc hproto hsyn
    rw [admitted_iff _ tsc hproto hsyn]
    constructor
    · intro hfind
      obtain ⟨i, hfind⟩ := Option.ne_none_iff_exists'.mp hfind
      obtain ⟨hi, hof⟩ := findConnection_spec hfind
      exact ⟨i, hi, of_decide_eq_true (occupied_of_isOf hproto hof), isOf_iff.mp hof⟩
    · rintro ⟨i, hi, -, hof⟩ hnone
      have hnot := findConnection_eq_none.mp hnone i hi
      rw [isOf_iff.mpr hof] at hnot
      cases hnot

/-! ## Half-open connections -/

/-- A tracked connection in `TCP_ST_SYN_RCVD`. -/
def SecConnState.pending (c : SecConnState) : Bool := c.occupied && decide (c.state = .synRcvd)

/-- How many there are. -/
def pendingCount (tables : Tables) : Nat := countBelow maxConnections fun i => (tables.connections i).pending

/-- How many cookies are used. -/
def usedCookies (tables : Tables) : Nat := countBelow synCookiesMax fun i => (tables.synCookies i).used

/-- A packet of this kind closes a connection in this state. -/
def closes (state : TcpState) (pkt : SecPacket) : Bool :=
  (decide (state = .established) && pkt.has tcpRst) || decide (state = .timeWait) ||
    (decide (state = .lastAck) && pkt.has tcpAck)

/-- A packet that the accounting can deal with: a SYN that is not refused finds room and no pending
connection of its five-tuple, an ACK does not complete a handshake, and a RST, which is not put into a SYN,
closes the one connection of its five-tuple. -/
structure OrderlyPacket (tables : Tables) (pkt : SecPacket) : Prop where
  syn : pkt.initialSyn = true → pendingCount tables < connHalfopenMax →
    tables.connCount.toNat < maxConnections ∧
      ∀ i, i < maxConnections → (tables.connections i).pending = true →
        (tables.connections i).tuple ≠ pkt.tuple
  ack : ∀ i, pkt.initialSyn = false → findConnection tables pkt.tuple = some i →
    (tables.connections i).state = .synRcvd → pkt.has tcpAck = false
  rst : ∀ i, pkt.has tcpRst = true → findConnection tables pkt.tuple = some i →
    pkt.initialSyn = false ∧ closes (tables.connections i).state pkt = true ∧
      ∀ j, j < maxConnections → (tables.connections j).isOf pkt.tuple = true → j = i

/-- A call that the accounting can deal with. The sweep must not come upon a pending connection. -/
def Orderly (s : FwState) : Call → Prop
  | .eval none _ => True
  | .eval (some pkt) _ => pkt.ipProto = 6 → OrderlyPacket s.tables pkt
  | .timeoutStale maxAge => ∀ i, i < maxConnections → (s.tables.connections i).pending = true →
      stale maxAge s.now (s.tables.connections i) = false

theorem synRcvd_iff {state : TcpState} {pkt : SecPacket} (hstarted : state ≠ .none)
    (hack : state = .synRcvd → pkt.has tcpAck = false) : (nextState state pkt).1 = .synRcvd ↔ state = .synRcvd := by
  cases state with
  | none => exact absurd rfl hstarted
  | synRcvd =>
    rw [nextState, hack rfl]
    exact iff_of_true rfl rfl
  | _ => grind [nextState]

theorem closed_of_closes {state : TcpState} {pkt : SecPacket} (h : closes state pkt = true) :
    (nextState state pkt).1 = .closed := by
  unfold closes at h
  simp only [Bool.or_eq_true, Bool.and_eq_true, decide_eq_true_iff] at h
  rcases h with (⟨rfl, hrst⟩ | rfl) | ⟨rfl, hack⟩
  · simp [nextState, hrst]
  · rfl
  · simp [nextState, hack]

theorem pendingCount_update {tables : Tables} {i : Nat} (hi : i < maxConnections) {c : SecConnState}
    (hc : c.pending = (tables.connections i).pending) :
    (countBelow maxConnections fun j => (update tables.connections i c j).pending) = pendingCount tables := by
  have hcount := countBelow_update_entry SecConnState.pending tables.connections hi c
  rw [hc] at hcount
  exact Nat.add_right_cancel hcount

theorem pendingCount_moved {tables : Tables} (h : Sound tables) {i : Nat} {pkt : SecPacket} (now : UInt64)
    (hi : i < maxConnections) (hocc : (tables.connections i).occupied = true)
    (hack : (tables.connections i).state = .synRcvd → pkt.has tcpAck = false) :
    pendingCount (tables.moved i pkt now) = pendingCount tables := by
  have hnext := synRcvd_iff (h.started i hi hocc) hack
  unfold Tables.moved
  split
  · rename_i hclosed
    rw [hclosed] at hnext
    refine pendingCount_update hi ?_
    -- it was not pending: a handshake does not go to `TCP_ST_CLOSED` at once
    have hbefore : (tables.connections i).pending = false := by
      unfold SecConnState.pending
      rw [decide_eq_false fun hs => TcpState.noConfusion (hnext.mpr hs), Bool.and_false]
    rw [hbefore]
    rfl
  · refine pendingCount_update hi ?_
    unfold SecConnState.pending SecConnState.advance
    dsimp only
    simp only [hnext]
    rfl

theorem pendingCount_swept {s : FwState} (h : Sound s.tables) (maxAge : UInt64)
    (hkept : ∀ i, i < maxConnections → (s.tables.connections i).pending = true →
      stale maxAge s.now (s.tables.connections i) = false) :
    pendingCount (fwStatefulTimeoutStale s maxAge).tables = pendingCount s.tables := by
  unfold pendingCount countBelow
  refine List.countP_congr fun i hi => ?_
  have hi := List.mem_range.mp hi
  rw [(sweeping s maxAge h).connections i, if_pos hi, swept]
  split
  · rename_i hstale
    refine iff_of_false Bool.false_ne_true fun hpending => ?_
    rw [hkept i hi hpending] at hstale
    cases hstale
  · rfl

theorem pendingCount_verdict {tables tables' : Tables} {pkt : SecPacket} {tsc : UInt64} {action : FwAction}
    (h : Sound tables) (hhalf : tables.halfopenCount.toNat = pendingCount tables)
    (hpkt : pkt.ipProto = 6 → OrderlyPacket tables pkt) (hv : Verdict tables pkt tsc action tables') :
    tables'.halfopenCount.toNat = pendingCount tables' := by
  cases hv with
  | other => exact hhalf
  | refused => exact hhalf
  | unsolicited => exact hhalf
  | crowded =>
    unfold pendingCount at hhalf ⊢
    rw [synCookieCreate_halfopenCount, synCookieCreate_connections]
    exact hhalf
  | tracked i hproto hsyn hfind =>
    obtain ⟨hi, hof⟩ := findConnection_spec hfind
    rw [pendingCount_moved h tsc hi (occupied_of_isOf hproto hof) ((hpkt hproto).ack i hsyn hfind), ← hhalf]
    unfold Tables.moved
    split <;> rfl
  | opened i hsyn hlimit hroom hfree =>
    have hbefore : (tables.connections i).pending = false := by
      unfold SecConnState.pending
      rw [occupied_of_freeSlot hfree, Bool.false_and]
    have hafter : (openedConn pkt tsc).pending = true := by
      unfold SecConnState.pending
      rw [occupied_openedConn hsyn]
      rfl
    have hcount := countBelow_update_entry SecConnState.pending tables.connections (freeSlot_spec hfree).1
      (openedConn pkt tsc)
    rw [hbefore, hafter, Bool.toNat_false, Bool.toNat_true, Nat.add_zero] at hcount
    dsimp only
    rw [toNat_add_one (by unfold connHalfopenMax at hlimit; omega), hhalf]
    exact hcount.symm

/-! ## Connections that have been reset -/

theorem find_after_rst {s : FwState} (h : Sound s.tables) {pkt : SecPacket} (tsc : UInt64)
    (hproto : pkt.ipProto = 6) (hrst : pkt.has tcpRst = true)
    (htracked : findConnection s.tables pkt.tuple ≠ none) (hpkt : OrderlyPacket s.tables pkt) :
    findConnection (fwStatefulEval s (some pkt) tsc).2.tables pkt.tuple = none := by
  obtain ⟨i, hfind⟩ := Option.ne_none_iff_exists'.mp htracked
  obtain ⟨hsyn, hcloses, hone⟩ := hpkt.rst i hrst hfind
  have hv := fwStatefulEval_verdict h.started pkt tsc
  generalize (fwStatefulEval s (some pkt) tsc).2.tables = tables at hv ⊢
  generalize (fwStatefulEval s (some pkt) tsc).1 = action at hv
  -- the packet has found its connection, so that it is no SYN
  cases hv with
  | other hother => exact absurd hproto hother
  | refused hsyn' => exact absurd (hsyn.symm.trans hsyn') Bool.false_ne_true
  | crowded hsyn' => exact absurd (hsyn.symm.trans hsyn') Bool.false_ne_true
  | opened _ hsyn' => exact absurd (hsyn.symm.trans hsyn') Bool.false_ne_true
  | unsolicited _ _ hnone => exact absurd hnone htracked
  | tracked k _ _ hfind' =>
    obtain rfl := Option.some.inj (hfind.symm.trans hfind')
    unfold Tables.moved
    rw [if_pos (closed_of_closes hcloses)]
    refine findConnection_eq_none.mpr fun j hj => ?_
    refine Bool.eq_false_iff.mpr fun hof => ?_
    unfold Tables.free at hof
    dsimp only at hof
    rcases eq_or_ne j i with rfl | hne
    · rw [update_self] at hof
      cases occupied_of_isOf hproto hof
    · rw [update_of_ne hne] at hof
      exact hne (hone j hj hof)

theorem find_next {s : FwState} (h : Sound s.tables) {pkt : SecPacket} (hproto : pkt.ipProto = 6) {c : Call}
    (hgone : findConnection s.tables pkt.tuple = none) (hc : ¬ Opens c pkt.tuple ∧ ¬ Opens c pkt.tuple.reverse) :
    findConnection (next s c).tables pkt.tuple = none := by
  refine findConnection_eq_none.mpr fun j hj => Bool.eq_false_iff.mpr fun hof => ?_
  -- a slot of this five-tuple was there, or has just been opened for it
  rcases slot_next h c hj (occupied_of_isOf hproto hof) with ⟨-, htuple⟩ | ⟨-, hopens⟩
  · have hbefore := findConnection_eq_none.mp hgone j hj
    unfold SecConnState.isOf at hbefore hof
    rw [htuple, hof] at hbefore
    cases hbefore
  · rcases isOf_iff.mp hof with htuple | htuple
    · rw [htuple] at hopens
      exact hc.1 hopens
    · rw [htuple] at hopens
      exact hc.2 hopens

theorem find_run {s : FwState} (h : Sound s.tables) {pkt : SecPacket} (hproto : pkt.ipProto = 6)
    (calls : List Call) (hgone : findConnection s.tables pkt.tuple = none)
    (hcalls : ∀ c ∈ calls, ¬ Opens c pkt.tuple ∧ ¬ Opens c pkt.tuple.reverse) :
    findConnection (run s calls).tables pkt.tuple = none := by
  induction calls using List.reverseRecOn with
  | nil => exact hgone
  | append_singleton calls c ih =>
    rw [run_concat]
    exact find_next (h.run calls) hproto
      (ih fun c hc => hcalls c (List.mem_append_left _ hc)) (hcalls c (by simp))

theorem findConnection_reverse (tables : Tables) (t : FiveTuple) :
    findConnection tables t.reverse = findConnection tables t := by
  have hswap : ∀ c : SecConnState, c.isOf t.reverse = c.isOf t := fun c => Bool.or_comm _ _
  unfold findConnection
  simp only [hswap]

/-! ## The accounting of a run -/

/-- Every call is one that the accounting can deal with, in the state it comes in. -/
def OrderlyRun (s : FwState) (calls : List Call) : Prop :=
  ∀ before c after, calls = before ++ c :: after → Orderly (run s before) c

/-- What half-open accounting promises of a run: the counters in every state, whom the limit refuses, that
a repeated SYN takes no slot, and that a RST is the end of a connection, until it is opened again. -/
structure HalfOpenAccounting (s : FwState) (calls : List Call) : Prop where
  halfopen : ∀ before, before <+: calls →
    (run s before).tables.halfopenCount.toNat = pendingCount (run s before).tables
  cookies : ∀ before, before <+: calls →
    (run s before).tables.synCookieCount.toNat = usedCookies (run s before).tables
  refused : ∀ before pkt tsc after, calls = before ++ .eval (some pkt) tsc :: after → pkt.initialSyn = true →
    ((fwStatefulEval (run s before) (some pkt) tsc).1 = .drop ↔
      connHalfopenMax ≤ pendingCount (run s before).tables)
  repeated : ∀ before pkt tsc after, calls = before ++ .eval (some pkt) tsc :: after →
    pkt.initialSyn = true → ∀ i, i < maxConnections →
    ((run s before).tables.connections i).pending = true →
    ((run s before).tables.connections i).tuple = pkt.tuple →
    (fwStatefulEval (run s before) (some pkt) tsc).2.tables.connections = (run s before).tables.connections
  reset : ∀ before pkt tsc between pkt' tsc' after,
    calls = before ++ .eval (some pkt) tsc :: (between ++ .eval (some pkt') tsc' :: after) →
    pkt.ipProto = 6 → pkt.has tcpRst = true → findConnection (run s before).tables pkt.tuple ≠ none →
    (∀ c ∈ between, ¬ Opens c pkt.tuple ∧ ¬ Opens c pkt.tuple.reverse) →
    pkt'.initialSyn = false → (pkt'.tuple = pkt.tuple ∨ pkt'.tuple = pkt.tuple.reverse) →
    (fwStatefulEval (run s (before ++ .eval (some pkt) tsc :: between)) (some pkt') tsc').1 = .drop

theorem pendingCount_next {s : FwState} (h : Sound s.tables)
    (hhalf : s.tables.halfopenCount.toNat = pendingCount s.tables) {c : Call} (hc : Orderly s c) :
    (next s c).tables.halfopenCount.toNat = pendingCount (next s c).tables := by
  cases c with
  | timeoutStale maxAge =>
    rw [next_timeoutStale, pendingCount_swept h maxAge hc, (sweeping s maxAge h).halfopenCount]
    exact hhalf
  | eval pkt tsc =>
    cases pkt with
    | none => exact hhalf
    | some pkt => exact pendingCount_verdict h hhalf hc (fwStatefulEval_verdict h.started pkt tsc)

theorem pendingCount_run {s : FwState} (h : Sound s.tables)
    (hhalf : s.tables.halfopenCount.toNat = pendingCount s.tables) {calls : List Call}
    (hcalls : OrderlyRun s calls) (before : List Call) (hinit : before <+: calls) :
    (run s before).tables.halfopenCount.toNat = pendingCount (run s before).tables := by
  induction before using List.reverseRecOn with
  | nil => exact hhalf
  | append_singleton before c ih =>
    obtain ⟨after, hafter⟩ := hinit
    rw [List.append_assoc] at hafter
    rw [run_concat]
    exact pendingCount_next (h.run before) (ih ⟨[c] ++ after, hafter⟩) (hcalls before c after hafter.symm)

theorem refused_iff {s : FwState} (h : Sound s.tables)
    (hhalf : s.tables.halfopenCount.toNat = pendingCount s.tables) {pkt : SecPacket} (tsc : UInt64)
    (hsyn : pkt.initialSyn = true) (hpkt : OrderlyPacket s.tables pkt) :
    (fwStatefulEval s (some pkt) tsc).1 = .drop ↔ connHalfopenMax ≤ pendingCount s.tables := by
  have hv := fwStatefulEval_verdict h.started pkt tsc
  generalize (fwStatefulEval s (some pkt) tsc).2.tables = tables at hv
  generalize (fwStatefulEval s (some pkt) tsc).1 = action at hv ⊢
  rw [← hhalf]
  cases hv with
  | refused _ hfull =>
    refine iff_of_true rfl ?_
    rcases hfull with hfull | hfull
    · exact hfull
    · by_contra hlimit
      have hroom := (hpkt.syn hsyn (by omega)).1
      omega
  | opened i _ hlimit => exact iff_of_false (fun hdrop => by cases hdrop) (by omega)
  | crowded _ hlimit => exact iff_of_false (fun hdrop => by cases hdrop) (by omega)
  | other hproto => exact absurd (initialSyn_iff.mp hsyn).1 hproto
  | unsolicited _ hsyn' => exact absurd (hsyn'.symm.trans hsyn) Bool.false_ne_true
  | tracked _ _ hsyn' => exact absurd (hsyn'.symm.trans hsyn) Bool.false_ne_true

theorem tables_of_drop {s : FwState} (h : Sound s.tables) {pkt : SecPacket} {tsc : UInt64}
    (hdrop : (fwStatefulEval s (some pkt) tsc).1 = .drop) : (fwStatefulEval s (some pkt) tsc).2.tables = s.tables := by
  have hv := fwStatefulEval_verdict h.started pkt tsc
  rw [hdrop] at hv
  generalize (fwStatefulEval s (some pkt) tsc).2.tables = tables at hv ⊢
  cases hv with
  | refused => rfl
  | unsolicited => rfl

/-- **Half-open accounting** of every run whose calls are orderly. -/
theorem halfOpenAccounting_of_orderly (s : FwState) (calls : List Call)
    (hcalls : OrderlyRun (fwStatefulInit s) calls) : HalfOpenAccounting (fwStatefulInit s) calls := by
  have hinit := Sound.init s
  have hzero : (fwStatefulInit s).tables.halfopenCount.toNat = pendingCount (fwStatefulInit s).tables := by
    refine (List.countP_eq_zero.mpr fun i hi => ?_).symm
    have hlt := List.mem_range.mp hi
    unfold fwStatefulInit
    dsimp only
    rw [if_pos hlt]
    exact Bool.false_ne_true
  refine ⟨pendingCount_run hinit hzero hcalls, fun before _ => (hinit.run before).cookies, ?_, ?_, ?_⟩
  · intro before pkt tsc after hsplit hsyn
    exact refused_iff (hinit.run before) (pendingCount_run hinit hzero hcalls before ⟨_, hsplit.symm⟩) tsc
      hsyn (hcalls before _ after hsplit (initialSyn_iff.mp hsyn).1)
  · intro before pkt tsc after hsplit hsyn i hi hpending htuple
    have hpkt := hcalls before _ after hsplit (initialSyn_iff.mp hsyn).1
    -- below the limit an orderly SYN repeats no pending five-tuple
    have hlimit : connHalfopenMax ≤ pendingCount (run (fwStatefulInit s) before).tables := by
      by_contra hlimit
      exact (hpkt.syn hsyn (by omega)).2 i hi hpending htuple
    have hhalf := pendingCount_run hinit hzero hcalls before ⟨_, hsplit.symm⟩
    rw [tables_of_drop (hinit.run before) ((refused_iff (hinit.run before) hhalf tsc hsyn hpkt).mpr hlimit)]
  · intro before pkt tsc between pkt' tsc' after hsplit hproto hrst htracked hbetween hsyn' htuple
    have hpkt := hcalls before _ _ hsplit hproto
    have hgone := find_after_rst (hinit.run before) tsc hproto hrst htracked hpkt
    have hrun : run (fwStatefulInit s) (before ++ .eval (some pkt) tsc :: between) =
        run (fwStatefulEval (run (fwStatefulInit s) before) (some pkt) tsc).2 between := by
      rw [run_append]
      rfl
    have hsound : Sound (fwStatefulEval (run (fwStatefulInit s) before) (some pkt) tsc).2.tables :=
      (hinit.run before).next (.eval (some pkt) tsc)
    have hproto' : pkt'.ipProto = 6 := by
      rcases htuple with h | h
      · exact (congrArg FiveTuple.proto h).trans hproto
      · exact (congrArg FiveTuple.proto h).trans hproto
    -- what comes between opens nothing, in either direction
    have hnone : findConnection
        (run (fwStatefulInit s) (before ++ .eval (some pkt) tsc :: between)).tables pkt'.tuple = none := by
      have hpkt' := find_run hsound hproto between hgone hbetween
      rw [hrun]
      rcases htuple with h | h
      · rw [h]
        exact hpkt'
      · rw [h, findConnection_reverse]
        exact hpkt'
    unfold fwStatefulEval
    dsimp only
    rw [hsyn', if_neg Bool.false_ne_true, if_pos hproto', hnone]

/-- The variables as the loader leaves them. -/
def loaded : FwState :=
  { tables := { connections := fun _ => zeroConn, connCount := 0
                synCookies := fun _ => { srcIp := 0, dstIp := 0, srcPort := 0, dstPort := 0, seq := 0,
                                         timestamp := 0, used := false }
                synCookieCount := 0, halfopenCount := 0 }
    stats := { packetsInspected := 0, packetsAllowed := 0, packetsDropped := 0, connectionsTracked := 0,
               connectionsEstablished := 0, connectionsClosed := 0, errors := 0 }
    now := 0 }

/-- A TCP packet from 10.0.0.2:1025 to 10.0.0.1:80. -/
def request (flags : UInt32) : SecPacket :=
  { ipProto := 6, srcIp := 0x0A000002, dstIp := 0x0A000001, srcPort := 1025, dstPort := 80, tcpFlags := flags }

theorem orderlyRun_nil (s : FwState) : OrderlyRun s [] := by
  intro before c after hsplit
  cases before <;> cases hsplit

theorem orderlyRun_cons {s : FwState} {c : Call} {calls : List Call} (hc : Orderly s c)
    (hcalls : OrderlyRun (next s c) calls) : OrderlyRun s (c :: calls) := by
  intro before c' after hsplit
  cases before with
  | nil =>
    obtain ⟨rfl, rfl⟩ := List.cons.inj hsplit
    exact hc
  | cons b before =>
    obtain ⟨rfl, hrest⟩ := List.cons.inj hsplit
    exact hcalls before c' after hrest

/-- A SYN, and a sweep before it is answered. -/
theorem accounting_pending : HalfOpenAccounting (fwStatefulInit loaded)
    [.eval (some (request tcpSyn)) 1, .timeoutStale 300000] := by
  refine halfOpenAccounting_of_orderly loaded _
    (orderlyRun_cons (fun _ => ⟨fun _ _ => ⟨by decide, ?_⟩, fun i hsyn => ?_, fun i hrst => ?_⟩)
      (orderlyRun_cons ?_ (orderlyRun_nil _)))
  · decide +kernel
  · cases hsyn
  · cases hrst
  · unfold Orderly
    decide +kernel

/-- A handshake that is completed is still counted. -/
theorem accounting_handshake : ¬ HalfOpenAccounting (fwStatefulInit loaded)
    [.eval (some (request tcpSyn)) 1, .eval (some (request tcpAck)) 2] := by
  intro h
  have hhalf := h.halfopen _ (List.prefix_refl _)
  revert hhalf
  decide +kernel

end Chicago95.Stage2.Firewall
