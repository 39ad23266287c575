/-
# Chicago95.Stage2.PacketFilter — the rule table of `security/firewall/gen2_packet_filter`.

`fw_packet_filter_eval` goes through the rules in the order they were added and keeps the best one met so
far. A rule that becomes the best is charged for the packet there and then, in the bucket
`rule_id % RATE_BUCKETS`, and an empty bucket ends the evaluation with `FW_ACTION_DROP`, whatever comes
after it in the table.
-/
import Chicago95.Lib.Loop
import Chicago95.Lib.Transition
import Mathlib.Algebra.Group.Nat.Defs
import Mathlib.Logic.Function.Basic

namespace Chicago95.Stage2.PacketFilter

open Chicago95.Lib.Loop Chicago95.Lib.Transition

/-! ## Constants and records -/

def maxFilterRules : Nat := 512
def rateBuckets : Nat := 256
def rateWindowMs : UInt64 := 1000

/-- `SEC_OK` and the errors returned here. -/
inductive SecStatus
  | ok | errNomem | errBadParam
  deriving DecidableEq

def fwActionAllow : UInt8 := 0
def fwActionDeny : UInt8 := 1
def fwActionDrop : UInt8 := 2
def fwActionLog : UInt8 := 3
def fwActionReset : UInt8 := 4

/-- `rate_bucket_t` -/
structure RateBucket where
  tokens : UInt64
  lastRefill : UInt64
  rate : UInt32
  burst : UInt32
  deriving DecidableEq

/-- What `sec_fw_rule_t` has for this firewall; 0 is a wildcard in the fields to match. -/
structure SecFwRule where
  ruleId : UInt32
  enabled : UInt8
  action : UInt8
  priority : UInt32
  matchSrcMac : Vector UInt8 6 := Vector.replicate 6 0
  matchDstMac : Vector UInt8 6 := Vector.replicate 6 0
  macMask : Vector UInt8 6 := Vector.replicate 6 0
  srcIp : UInt32 := 0
  dstIp : UInt32 := 0
  srcMask : UInt32 := 0
  dstMask : UInt32 := 0
  srcPort : UInt16 := 0
  dstPort : UInt16 := 0
  protocol : UInt8 := 0
  tcpFlags : UInt32 := 0
  tcpFlagsMask : UInt32 := 0
  matchIface : UInt8 := 0
  rateLimit : UInt32 := 0
  burstLimit : UInt32 := 0
  deriving DecidableEq

/-- What `sec_packet_t` has for this firewall. -/
structure SecPacket where
  srcMac : Vector UInt8 6
  dstMac : Vector UInt8 6
  ipProto : UInt8
  srcIp : UInt32
  dstIp : UInt32
  srcPort : UInt16
  dstPort : UInt16
  tcpFlags : UInt32
  ifaceId : UInt8

/-- The fields of `sec_stats_t` that are counted here. -/
structure SecStats where
  packetsInspected : UInt64
  packetsAllowed : UInt64
  packetsDropped : UInt64
  packetsBlocked : UInt64
  packetsLogged : UInt64
  rateLimited : UInt64
  errors : UInt64

/-- The variables of the module: `rules` is `filter_rules` up to `filter_rule_count`. -/
structure FilterState where
  rules : List SecFwRule
  buckets : Nat → RateBucket
  stats : SecStats

/-! ## The token buckets -/

def rateRefill (b : RateBucket) (now : UInt64) : RateBucket :=
  let refill := (now - b.lastRefill) * b.rate.toUInt64 / rateWindowMs
  let tokens := b.tokens + refill
  { b with tokens := if b.burst.toUInt64 < tokens then b.burst.toUInt64 else tokens, lastRefill := now }

/-- `rate_allow`; `now` is what `rdtsc` returns. -/
def rateAllow (b : RateBucket) (now : UInt64) : RateBucket × Bool :=
  let b := if b.lastRefill = 0 then { b with lastRefill := now, tokens := b.burst.toUInt64 } else b
  let b := rateRefill b now
  if 0 < b.tokens then ({ b with tokens := b.tokens - 1 }, true) else (b, false)

/-- The bucket of a rule that has just been added. -/
def bucketOf (rule : SecFwRule) : RateBucket :=
  let burst := if rule.burstLimit ≠ 0 then rule.burstLimit else rule.rateLimit * 2
  { rate := rule.rateLimit, burst := burst, tokens := burst.toUInt64, lastRefill := 0 }

/-- `rule_id % RATE_BUCKETS` -/
def SecFwRule.bucketIdx (r : SecFwRule) : Nat := r.ruleId.toNat % rateBuckets

/-! ## The calls -/

def fwPacketFilterInit (s : FilterState) : FilterState :=
  { s with
    rules := []
    stats := { packetsInspected := 0, packetsAllowed := 0, packetsDropped := 0, packetsBlocked := 0,
               packetsLogged := 0, rateLimited := 0, errors := 0 } }

def fwPacketFilterAddRule (s : FilterState) (rule : Option SecFwRule) : FilterState × SecStatus :=
  match rule with
  | none => (s, .errNomem)
  | some rule =>
    if maxFilterRules ≤ s.rules.length then (s, .errNomem)
    else
      let buckets :=
        if 0 < rule.rateLimit then Function.update s.buckets rule.bucketIdx (bucketOf rule)
        else s.buckets
      ({ s with rules := s.rules ++ [rule], buckets := buckets }, .ok)

/-- `fw_packet_filter_remove_rule`: the rules after the first of this id move up by one. -/
def fwPacketFilterRemoveRule (s : FilterState) (ruleId : UInt32) : FilterState × SecStatus :=
  match s.rules.findIdx? (·.ruleId == ruleId) with
  | some i => ({ s with rules := s.rules.take i ++ s.rules.drop (i + 1) }, .ok)
  | none => (s, .errBadParam)

def fwPacketFilterFlush (s : FilterState) : FilterState := { s with rules := [] }

/-- `match[i] && (pkt[i] & mask[i]) != (match[i] & mask[i])` fails at no `i`. -/
def macMatches (field mask mac : Vector UInt8 6) : Bool :=
  (List.range 6).all fun i =>
    let f := field.toList.getD i 0
    let m := mask.toList.getD i 0
    decide (f = 0) || decide (mac.toList.getD i 0 &&& m = f &&& m)

def ruleMatches (r : SecFwRule) (pkt : SecPacket) : Bool :=
  macMatches r.matchSrcMac r.macMask pkt.srcMac && macMatches r.matchDstMac r.macMask pkt.dstMac &&
  (decide (r.srcIp = 0) || decide (pkt.srcIp &&& r.srcMask = r.srcIp &&& r.srcMask)) &&
  (decide (r.dstIp = 0) || decide (pkt.dstIp &&& r.dstMask = r.dstIp &&& r.dstMask)) &&
  (decide (r.srcPort = 0) || decide (pkt.srcPort = r.srcPort)) &&
  (decide (r.dstPort = 0) || decide (pkt.dstPort = r.dstPort)) &&
  (decide (r.protocol = 0) || decide (pkt.ipProto = r.protocol)) &&
  (decide (r.tcpFlagsMask = 0) ||
    decide (pkt.tcpFlags &&& r.tcpFlagsMask = r.tcpFlags &&& r.tcpFlagsMask)) &&
  (decide (r.matchIface = 0) || decide (pkt.ifaceId = r.matchIface))

/-- The variables of the loop in `fw_packet_filter_eval`, with the number of `rdtsc` readings so far. -/
structure Scan where
  buckets : Nat → RateBucket
  reads : Nat
  bestAction : UInt8
  bestPriority : UInt32
  found : Bool

/-- The loop of `fw_packet_filter_eval`; `true` when a bucket is empty and the function returns from
inside. -/
def scanRules (pkt : SecPacket) (tsc : Nat → UInt64) : List SecFwRule → Scan → Scan × Bool
  | [], s => (s, false)
  | r :: rules, s =>
    if r.enabled = 0 then scanRules pkt tsc rules s
    else if r.priority < s.bestPriority ∧ s.found = true then scanRules pkt tsc rules s
    else if ruleMatches r pkt = true then
      let taken (s : Scan) : Scan :=
        { s with bestAction := r.action, bestPriority := r.priority, found := true }
      if 0 < r.rateLimit then
        let charged := rateAllow (s.buckets r.bucketIdx) (tsc s.reads)
        let s := { s with buckets := Function.update s.buckets r.bucketIdx charged.1
                          reads := s.reads + 1 }
        if charged.2 = true then scanRules pkt tsc rules (taken s) else (s, true)
      else scanRules pkt tsc rules (taken s)
    else scanRules pkt tsc rules s

/-- The counter of the verdict. -/
def countVerdict (stats : SecStats) (found : Bool) (action : UInt8) : SecStats :=
  if found = true then
    if action = fwActionAllow then { stats with packetsAllowed := stats.packetsAllowed + 1 }
    else if action = fwActionDeny ∨ action = fwActionDrop then
      { stats with packetsDropped := stats.packetsDropped + 1 }
    else if action = fwActionLog then { stats with packetsLogged := stats.packetsLogged + 1 }
    else if action = fwActionReset then { stats with packetsBlocked := stats.packetsBlocked + 1 }
    else stats
  else { stats with packetsDropped := stats.packetsDropped + 1 }

def fwPacketFilterEval (s : FilterState) (pkt : Option SecPacket) (tsc : Nat → UInt64) :
    FilterState × UInt8 :=
  match pkt with
  | none => ({ s with stats := { s.stats with errors := s.stats.errors + 1 } }, fwActionDeny)
  | some pkt =>
    let stats := { s.stats with packetsInspected := s.stats.packetsInspected + 1 }
    let r := scanRules pkt tsc s.rules
      { buckets := s.buckets, reads := 0, bestAction := fwActionDeny, bestPriority := 0, found := false }
    if r.2 = true then
      ({ s with buckets := r.1.buckets, stats := { stats with rateLimited := stats.rateLimited + 1 } },
        fwActionDrop)
    else
      ({ s with buckets := r.1.buckets, stats := countVerdict stats r.1.found r.1.bestAction },
        r.1.bestAction)

/-! ## The scan, rule by rule -/

/-- The rule is on and matches the packet. -/
def SecFwRule.applies (pkt : SecPacket) (r : SecFwRule) : Bool :=
  decide (r.enabled ≠ 0) && ruleMatches r pkt

/-- The rule is on and has a rate. -/
def SecFwRule.limited (r : SecFwRule) : Bool := decide (r.enabled ≠ 0) && decide (0 < r.rateLimit)

/-- The pass for `r` charges no bucket: a rule of greater priority is the best so far. -/
def Scan.shadows (s : Scan) (r : SecFwRule) : Prop := s.found = true ∧ r.priority < s.bestPriority

section ScanLemmas

variable {pkt : SecPacket} {tsc : Nat → UInt64}

theorem SecFwRule.applies_iff {r : SecFwRule} : r.applies pkt = true ↔ r.enabled ≠ 0 ∧ ruleMatches r pkt = true := by
  simp [SecFwRule.applies]

theorem SecFwRule.limited_iff {r : SecFwRule} : r.limited = true ↔ r.enabled ≠ 0 ∧ 0 < r.rateLimit := by
  simp [SecFwRule.limited]

/-- The best rule so far becomes `r`. -/
def Scan.taking (s : Scan) (r : SecFwRule) : Scan :=
  { s with bestAction := r.action, bestPriority := r.priority, found := true }

/-- One reading of `rdtsc` is spent on the bucket of `r`. -/
def Scan.charging (s : Scan) (r : SecFwRule) (tsc : Nat → UInt64) : Scan :=
  { s with buckets := Function.update s.buckets r.bucketIdx (rateAllow (s.buckets r.bucketIdx) (tsc s.reads)).1
           reads := s.reads + 1 }

theorem scanRules_skip_cons {r : SecFwRule} {rules : List SecFwRule} {s : Scan}
    (h : r.applies pkt = true → s.shadows r) : scanRules pkt tsc (r :: rules) s = scanRules pkt tsc rules s := by
  rw [scanRules]
  by_cases hoff : r.enabled = 0
  · rw [if_pos hoff]
  · rw [if_neg hoff]
    by_cases hlow : r.priority < s.bestPriority ∧ s.found = true
    · rw [if_pos hlow]
    · rw [if_neg hlow]
      by_cases hm : ruleMatches r pkt = true
      · have hshadow := h (SecFwRule.applies_iff.mpr ⟨hoff, hm⟩)
        exact absurd ⟨hshadow.2, hshadow.1⟩ hlow
      · rw [if_neg hm]

theorem scanRules_take_cons {r : SecFwRule} {rules : List SecFwRule} {s : Scan}
    (happ : r.applies pkt = true) (hshadow : ¬ s.shadows r) : scanRules pkt tsc (r :: rules) s = if 0 < r.rateLimit then
        if (rateAllow (s.buckets r.bucketIdx) (tsc s.reads)).2 = true then
          scanRules pkt tsc rules ((s.charging r tsc).taking r) else (s.charging r tsc, true)
      else scanRules pkt tsc rules (s.taking r) := by
  obtain ⟨hon, hm⟩ := SecFwRule.applies_iff.mp happ
  have hlow : ¬ (r.priority < s.bestPriority ∧ s.found = true) := fun h => hshadow ⟨h.2, h.1⟩
  rw [scanRules, if_neg hon, if_neg hlow, if_pos hm]
  rfl

theorem scanRules_skip (tsc : Nat → UInt64) {rules : List SecFwRule} {s : Scan}
    (h : ∀ r ∈ rules, r.applies pkt = true → s.shadows r) : scanRules pkt tsc rules s = (s, false) := by
  induction rules with
  | nil => rfl
  | cons r rules ih =>
    rw [scanRules_skip_cons (h r List.mem_cons_self)]
    exact ih fun q hq => h q (List.mem_cons_of_mem _ hq)

theorem scanRules_quiet (tsc : Nat → UInt64) (rest : List SecFwRule) : ∀ (pre : List SecFwRule) {s : Scan},
      (∀ a r b, pre = a ++ r :: b → r.applies pkt = true → 0 < r.rateLimit →
        s.shadows r ∨ ∃ q ∈ a, q.applies pkt = true ∧ r.priority < q.priority) →
      ∃ t, scanRules pkt tsc (pre ++ rest) s = scanRules pkt tsc rest t ∧ t.buckets = s.buckets ∧ t.reads = s.reads ∧
        ∀ p, (s.found = true → s.bestPriority ≤ p) →
          (∀ q ∈ pre, q.applies pkt = true → q.priority ≤ p) → t.found = true → t.bestPriority ≤ p := by
  intro pre
  induction pre with
  | nil => intro s _; exact ⟨s, rfl, rfl, rfl, fun _ hs _ => hs⟩
  | cons r pre ih =>
    intro s hquiet
    by_cases hskip : r.applies pkt = true → s.shadows r
    · -- what `r` would have shadowed is already shadowed
      obtain ⟨t, hscan, hbuckets, hreads, hbest⟩ := ih (s := s) fun a q b hsplit happ hlim => by
        rcases hquiet (r :: a) q b (by rw [hsplit]; rfl) happ hlim with hs | ⟨x, hx, hxapp, hlt⟩
        · exact Or.inl hs
        · rcases List.mem_cons.mp hx with rfl | hx
          · have hs := hskip hxapp
            exact Or.inl ⟨hs.1, UInt32.lt_trans hlt hs.2⟩
          · exact Or.inr ⟨x, hx, hxapp, hlt⟩
      refine ⟨t, ?_, hbuckets, hreads, fun p hs hpre => ?_⟩
      · rw [List.cons_append, scanRules_skip_cons hskip, hscan]
      · exact hbest p hs fun q hq => hpre q (List.mem_cons_of_mem _ hq)
    · obtain ⟨happ, hshadow⟩ : r.applies pkt = true ∧ ¬ s.shadows r := Classical.not_imp.mp hskip
      have hfree : ¬ 0 < r.rateLimit := fun hlim => by
        rcases hquiet [] r pre rfl happ hlim with hs | ⟨x, hx, _⟩
        · exact hshadow hs
        · cases hx
      obtain ⟨t, hscan, hbuckets, hreads, hbest⟩ := ih (s := s.taking r) fun a q b hsplit hqapp hlim => by
        rcases hquiet (r :: a) q b (by rw [hsplit]; rfl) hqapp hlim with hs | ⟨x, hx, hxapp, hlt⟩
        · -- `s` has a best rule, and `r` is at least as good
          have hle : s.bestPriority ≤ r.priority := UInt32.not_lt.mp fun hlt => hshadow ⟨hs.1, hlt⟩
          exact Or.inl ⟨rfl, UInt32.lt_of_lt_of_le hs.2 hle⟩
        · rcases List.mem_cons.mp hx with rfl | hx
          · exact Or.inl ⟨rfl, hlt⟩
          · exact Or.inr ⟨x, hx, hxapp, hlt⟩
      refine ⟨t, ?_, hbuckets, hreads, fun p _ hpre => ?_⟩
      · rw [List.cons_append, scanRules_take_cons happ hshadow, if_neg hfree, hscan]
      · exact hbest p (fun _ => hpre r List.mem_cons_self happ) fun q hq =>
          hpre q (List.mem_cons_of_mem _ hq)

end ScanLemmas

/-- **The rules that are charged**: of the rules with a rate that apply, each comes after one of greater
priority, or is the one that decides. -/
def DeciderCharged (rules : List SecFwRule) (pkt : SecPacket) : Prop :=
  ∀ pre r post, rules = pre ++ r :: post → r.applies pkt = true → 0 < r.rateLimit →
    (∃ q ∈ pre, q.applies pkt = true ∧ r.priority < q.priority) ∨
    ∀ q ∈ post, q.applies pkt = true → q.priority < r.priority

theorem scanRules_split {pkt : SecPacket} (tsc : Nat → UInt64) (buckets : Nat → RateBucket)
    {pre post : List SecFwRule} {r : SecFwRule} (hcharged : DeciderCharged (pre ++ r :: post) pkt)
    (hsplit : BestSplit (SecFwRule.applies pkt) (fun r => r.priority.toNat) pre r post) :
    ∃ t : Scan, t.buckets = buckets ∧ t.reads = 0 ∧
      scanRules pkt tsc (pre ++ r :: post)
        { buckets := buckets, reads := 0, bestAction := fwActionDeny, bestPriority := 0, found := false } =
      if 0 < r.rateLimit then
        if (rateAllow (buckets r.bucketIdx) (tsc 0)).2 = true then ((t.charging r tsc).taking r, false)
        else (t.charging r tsc, true)
      else (t.taking r, false) := by
  obtain ⟨t, hscan, hbuckets, hreads, hbest⟩ := scanRules_quiet tsc (r :: post) pre
    (s := { buckets := buckets, reads := 0, bestAction := fwActionDeny, bestPriority := 0, found := false })
    fun a q b hq happ hlim => by
      rcases hcharged a q (b ++ r :: post) (by rw [hq]; simp) happ hlim with h | h
      · exact Or.inr h
      · -- `q` would be a later rule than the deciding one and better
        have hlt := h r (by simp) hsplit.chosen
        have hle := hsplit.before q (by rw [hq]; simp) happ
        exact absurd hlt (by rw [UInt32.lt_iff_toNat_lt]; omega)
  have hshadow : ¬ t.shadows r := fun hs => by
    have hle := hbest r.priority (fun h => absurd h Bool.false_ne_true)
      (fun q hq happ => UInt32.le_iff_toNat_le.mpr (hsplit.before q hq happ)) hs.1
    exact absurd hs.2 (UInt32.not_lt.mpr hle)
  have hpost : ∀ s : Scan, scanRules pkt tsc post (s.taking r) = (s.taking r, false) := fun s =>
    scanRules_skip tsc fun q hq happ => ⟨rfl, UInt32.lt_iff_toNat_lt.mpr (hsplit.after q hq happ)⟩
  refine ⟨t, hbuckets, hreads, ?_⟩
  rw [hscan, scanRules_take_cons hsplit.chosen hshadow, hpost, hpost, hbuckets, hreads]

/-! ## The filter with a bucket for each rule -/

/-- A rule and the token bucket that is its own. -/
structure Owned where
  rule : SecFwRule
  bucket : RateBucket

/-- The rule that decides about a packet: the best of those that apply. -/
def deciding (table : List Owned) (pkt : SecPacket) : Option Nat :=
  bestPos (fun o => o.rule.applies pkt) (fun o => o.rule.priority.toNat) table

/-- The rule that decides is charged, and gives its action or `FW_ACTION_DROP`. -/
def decideOn (table : List Owned) (pkt : SecPacket) (now : UInt64) : List Owned × UInt8 :=
  match (deciding table pkt).bind fun d => table[d]?.map (d, ·) with
  | none => (table, fwActionDeny)
  | some (d, o) =>
    if 0 < o.rule.rateLimit then
      let charged := rateAllow o.bucket now
      (table.set d { o with bucket := charged.1 },
        if charged.2 = true then o.rule.action else fwActionDrop)
    else (table, o.rule.action)

/-- A call of the module. -/
inductive Call
  | init
  | addRule (rule : Option SecFwRule)
  | removeRule (ruleId : UInt32)
  | flush
  | eval (pkt : Option SecPacket) (tsc : Nat → UInt64)

/-- What a call does to the variables of the module. -/
def Call.run (c : Call) (s : FilterState) : FilterState :=
  match c with
  | .init => fwPacketFilterInit s
  | .addRule rule => (fwPacketFilterAddRule s rule).1
  | .removeRule ruleId => (fwPacketFilterRemoveRule s ruleId).1
  | .flush => fwPacketFilterFlush s
  | .eval pkt tsc => (fwPacketFilterEval s pkt tsc).1

/-- What it does to the rules with their own buckets. -/
def Call.own (c : Call) (table : List Owned) : List Owned :=
  match c with
  | .init => []
  | .addRule none => table
  | .addRule (some rule) =>
    if maxFilterRules ≤ table.length then table else table ++ [{ rule := rule, bucket := bucketOf rule }]
  | .removeRule ruleId => table.eraseP (·.rule.ruleId == ruleId)
  | .flush => []
  | .eval none _ => table
  | .eval (some pkt) tsc => (decideOn table pkt (tsc 0)).1

/-- A call on both. -/
def Call.next (s : FilterState × List Owned) (c : Call) : FilterState × List Owned :=
  (c.run s.1, c.own s.2)

/-- The condition of a call: a rule with a rate is added where no rule that is on and has a rate uses its
bucket, and a packet charges the deciding rule only. -/
def Call.Sound (s : FilterState × List Owned) (c : Call) : Prop :=
  match c with
  | .addRule (some rule) =>
    0 < rule.rateLimit → ∀ r ∈ s.1.rules, r.limited = true → r.bucketIdx ≠ rule.bucketIdx
  | .eval (some pkt) _ => DeciderCharged s.1.rules pkt
  | _ => True

/-- The variables of the module hold the table: each rule that is on and has a rate finds its own bucket
where it looks for it, and no other rule looks there. -/
structure Refines (s : FilterState) (table : List Owned) : Prop where
  rules : s.rules = table.map (·.rule)
  bucket : ∀ o ∈ table, o.rule.limited = true → s.buckets o.rule.bucketIdx = o.bucket
  apart : table.Pairwise fun o p => o.rule.limited = true → p.rule.limited = true →
    o.rule.bucketIdx ≠ p.rule.bucketIdx

/-! ## What each call keeps -/

section Steps

variable {s : FilterState} {table : List Owned}

theorem refines_nil (buckets : Nat → RateBucket) (stats : SecStats) :
    Refines { rules := [], buckets := buckets, stats := stats } [] :=
  ⟨rfl, fun _ h => absurd h List.not_mem_nil, List.Pairwise.nil⟩

theorem Refines.length_eq (h : Refines s table) : s.rules.length = table.length := by
  rw [h.rules, List.length_map]

theorem Refines.sublist {table' : List Owned} {rules' : List SecFwRule} (h : Refines s table)
    (hsub : table'.Sublist table) (hrules : rules' = table'.map (·.rule)) :
    Refines { s with rules := rules' } table' :=
  ⟨hrules, fun o ho => h.bucket o (hsub.subset ho), h.apart.sublist hsub⟩

theorem Refines.addRule (h : Refines s table) {rule : SecFwRule}
    (hfree : 0 < rule.rateLimit → ∀ r ∈ s.rules, r.limited = true → r.bucketIdx ≠ rule.bucketIdx) :
    Refines (fwPacketFilterAddRule s (some rule)).1 (Call.own (.addRule (some rule)) table) := by
  simp only [fwPacketFilterAddRule, Call.own, h.length_eq]
  by_cases hfull : maxFilterRules ≤ table.length
  · rw [if_pos hfull, if_pos hfull]
    exact h
  · rw [if_neg hfull, if_neg hfull]
    have hapart : ∀ o ∈ table, o.rule.limited = true → 0 < rule.rateLimit →
        o.rule.bucketIdx ≠ rule.bucketIdx := fun o ho hlim hrate =>
      hfree hrate o.rule (h.rules ▸ List.mem_map_of_mem ho) hlim
    refine ⟨by simp [h.rules], fun o ho hlim => ?_, ?_⟩
    · rcases List.mem_append.mp ho with ho | ho
      · -- an older rule: its bucket is another one
        by_cases hrate : 0 < rule.rateLimit
        · simp only [if_pos hrate]
          rw [Function.update_of_ne (hapart o ho hlim hrate)]
          exact h.bucket o ho hlim
        · simp only [if_neg hrate]
          exact h.bucket o ho hlim
      · obtain rfl := List.mem_singleton.mp ho
        have hrate := (SecFwRule.limited_iff.mp hlim).2
        simp only [if_pos hrate, Function.update_self]
    · refine List.pairwise_append.mpr ⟨h.apart, List.pairwise_singleton _ _, fun o ho p hp hlim hplim => ?_⟩
      obtain rfl := List.mem_singleton.mp hp
      exact hapart o ho hlim (SecFwRule.limited_iff.mp hplim).2

theorem eraseP_rule (table : List Owned) (ruleId : UInt32) : (table.eraseP (·.rule.ruleId == ruleId)).map (·.rule) =
      (table.map (·.rule)).eraseP (·.ruleId == ruleId) := by
  rw [List.eraseP_map]
  rfl

theorem Refines.removeRule (h : Refines s table) (ruleId : UInt32) :
    Refines (fwPacketFilterRemoveRule s ruleId).1 (Call.own (.removeRule ruleId) table) := by
  have herase := eraseP_rule table ruleId
  have hidx : s.rules.eraseP (·.ruleId == ruleId) = _ := List.eraseP_eq_eraseIdx
  rw [← h.rules, hidx] at herase
  unfold fwPacketFilterRemoveRule
  rcases hfind : s.rules.findIdx? (·.ruleId == ruleId) with _ | i
  · rw [hfind] at herase
    simp only [hfind]
    exact h.sublist List.eraseP_sublist herase.symm
  · rw [hfind] at herase
    simp only [hfind]
    refine h.sublist List.eraseP_sublist ?_
    rw [← List.eraseIdx_eq_take_drop_succ]
    exact herase.symm

theorem bestSplit_rules {pkt : SecPacket} {pre post : List Owned} {o : Owned} :
    BestSplit (fun o : Owned => o.rule.applies pkt) (fun o => o.rule.priority.toNat) pre o post ↔
      BestSplit (SecFwRule.applies pkt) (fun r => r.priority.toNat) (pre.map (·.rule)) o.rule (post.map (·.rule)) := by
  constructor
  · rintro ⟨hok, hpre, hpost⟩
    refine ⟨hok, fun q hq => ?_, fun q hq => ?_⟩
    · obtain ⟨p, hp, rfl⟩ := List.mem_map.mp hq
      exact hpre p hp
    · obtain ⟨p, hp, rfl⟩ := List.mem_map.mp hq
      exact hpost p hp
  · rintro ⟨hok, hpre, hpost⟩
    exact ⟨hok, fun q hq => hpre q.rule (List.mem_map_of_mem hq),
      fun q hq => hpost q.rule (List.mem_map_of_mem hq)⟩

theorem decideOn_split {pkt : SecPacket} {now : UInt64} {pre post : List Owned} {o : Owned}
    (h : BestSplit (fun o : Owned => o.rule.applies pkt) (fun o => o.rule.priority.toNat) pre o post) :
    decideOn (pre ++ o :: post) pkt now =
      if 0 < o.rule.rateLimit then
        (pre ++ { o with bucket := (rateAllow o.bucket now).1 } :: post,
          if (rateAllow o.bucket now).2 = true then o.rule.action else fwActionDrop)
      else (pre ++ o :: post, o.rule.action) := by
  have hget : (pre ++ o :: post)[pre.length]? = some o := by
    rw [List.getElem?_append_right (Nat.le_refl _), Nat.sub_self, List.getElem?_cons_zero]
  simp only [decideOn, deciding, h.bestPos, Option.bind_some, hget, Option.map_some]
  rw [List.set_append_right _ _ (Nat.le_refl _), Nat.sub_self, List.set_cons_zero]

theorem decideOn_none {pkt : SecPacket} {now : UInt64} (h : ∀ o ∈ table, o.rule.applies pkt = false) :
    decideOn table pkt now = (table, fwActionDeny) := by
  have hnone : deciding table pkt = none := bestPos_eq_none.mpr h
  rw [decideOn, hnone]
  rfl

theorem deciding_cases (table : List Owned) (pkt : SecPacket) : (∀ o ∈ table, o.rule.applies pkt = false) ∨
    ∃ pre o post, table = pre ++ o :: post ∧
      BestSplit (fun o : Owned => o.rule.applies pkt) (fun o => o.rule.priority.toNat) pre o post := by
  rcases hd : deciding table pkt with _ | d
  · exact Or.inl (bestPos_eq_none.mp hd)
  · obtain ⟨pre, o, post, hsplit, -, hbest⟩ := bestPos_eq_some.mp hd
    exact Or.inr ⟨pre, o, post, hsplit, hbest⟩

theorem fwPacketFilterEval_none {pkt : SecPacket} (tsc : Nat → UInt64) (h : ∀ r ∈ s.rules, r.applies pkt = false) :
    (fwPacketFilterEval s (some pkt) tsc).2 = fwActionDeny ∧
      (fwPacketFilterEval s (some pkt) tsc).1.buckets = s.buckets ∧
      (fwPacketFilterEval s (some pkt) tsc).1.rules = s.rules := by
  have hshadow : ∀ r ∈ s.rules, r.applies pkt = true → Scan.shadows
      { buckets := s.buckets, reads := 0, bestAction := fwActionDeny, bestPriority := 0, found := false } r := by
    intro r hr happ
    rw [h r hr] at happ
    cases happ
  have hscan := scanRules_skip tsc hshadow
  simp [fwPacketFilterEval, hscan]

theorem fwPacketFilterEval_split {pkt : SecPacket} (tsc : Nat → UInt64) {pre post : List SecFwRule}
    {r : SecFwRule} (hrules : s.rules = pre ++ r :: post) (hcharged : DeciderCharged s.rules pkt)
    (hsplit : BestSplit (SecFwRule.applies pkt) (fun r => r.priority.toNat) pre r post) :
    (fwPacketFilterEval s (some pkt) tsc).1.rules = s.rules ∧ (fwPacketFilterEval s (some pkt) tsc).2 =
      (if 0 < r.rateLimit then if (rateAllow (s.buckets r.bucketIdx) (tsc 0)).2 = true then r.action else fwActionDrop
      else r.action) ∧ (fwPacketFilterEval s (some pkt) tsc).1.buckets = if 0 < r.rateLimit then
        Function.update s.buckets r.bucketIdx (rateAllow (s.buckets r.bucketIdx) (tsc 0)).1 else s.buckets := by
  rw [hrules] at hcharged
  obtain ⟨t, hbuckets, hreads, hscan⟩ := scanRules_split tsc s.buckets hcharged hsplit
  simp only [fwPacketFilterEval, hrules, hscan]
  by_cases hlim : 0 < r.rateLimit
  · simp only [if_pos hlim]
    by_cases hallow : (rateAllow (s.buckets r.bucketIdx) (tsc 0)).2 = true
    · simp [hallow, Scan.charging, Scan.taking, hbuckets, hreads]
    · simp [hallow, Scan.charging, hbuckets, hreads]
  · simp [if_neg hlim, Scan.taking, hbuckets]

theorem Refines.none_applies (h : Refines s table) {pkt : SecPacket}
    (hnone : ∀ o ∈ table, o.rule.applies pkt = false) : ∀ r ∈ s.rules, r.applies pkt = false := by
  intro r hr
  rw [h.rules] at hr
  obtain ⟨o, ho, rfl⟩ := List.mem_map.mp hr
  exact hnone o ho

theorem Refines.eval (h : Refines s table) {pkt : SecPacket} (hcharged : DeciderCharged s.rules pkt)
    (tsc : Nat → UInt64) : Refines (fwPacketFilterEval s (some pkt) tsc).1 (decideOn table pkt (tsc 0)).1 ∧
      (fwPacketFilterEval s (some pkt) tsc).2 = (decideOn table pkt (tsc 0)).2 := by
  rcases deciding_cases table pkt with hnone | ⟨pre, o, post, rfl, hbest⟩
  · obtain ⟨hverdict, hbuckets, hrules⟩ := fwPacketFilterEval_none tsc (h.none_applies hnone)
    rw [decideOn_none hnone]
    exact ⟨⟨hrules.trans h.rules, fun o ho hlim => by rw [hbuckets]; exact h.bucket o ho hlim, h.apart⟩,
      hverdict⟩
  · have hsplit := bestSplit_rules.mp hbest
    obtain ⟨hrules, hverdict, hbuckets⟩ := fwPacketFilterEval_split tsc
      (by rw [h.rules, List.map_append, List.map_cons]) hcharged hsplit
    rw [decideOn_split hbest]
    by_cases hlim : 0 < o.rule.rateLimit
    · rw [if_pos hlim] at hverdict hbuckets ⊢
      have hlimited : o.rule.limited = true :=
        SecFwRule.limited_iff.mpr ⟨(SecFwRule.applies_iff.mp hbest.chosen).1, hlim⟩
      have hown := h.bucket o (by simp) hlimited
      rw [hown] at hverdict hbuckets
      obtain ⟨hpre, hcons, hcross⟩ := List.pairwise_append.mp h.apart
      obtain ⟨hhead, hpost⟩ := List.pairwise_cons.mp hcons
      refine ⟨⟨by rw [hrules, h.rules]; simp, fun p hp hplim => ?_, ?_⟩, hverdict⟩
      · rw [hbuckets]
        rcases List.mem_append.mp hp with hp | hp
        · rw [Function.update_of_ne (hcross p hp o List.mem_cons_self hplim hlimited)]
          exact h.bucket p (List.mem_append_left _ hp) hplim
        · rcases List.mem_cons.mp hp with rfl | hp
          · rw [Function.update_self]
          · rw [Function.update_of_ne (hhead p hp hlimited hplim).symm]
            exact h.bucket p (by simp [hp]) hplim
      · refine List.pairwise_append.mpr ⟨hpre, List.pairwise_cons.mpr ⟨hhead, hpost⟩, fun p hp q hq => ?_⟩
        rcases List.mem_cons.mp hq with rfl | hq
        · exact hcross p hp o List.mem_cons_self
        · exact hcross p hp q (List.mem_cons_of_mem _ hq)
    · rw [if_neg hlim] at hverdict hbuckets ⊢
      exact ⟨⟨hrules.trans h.rules, fun p hp hplim => by rw [hbuckets]; exact h.bucket p hp hplim, h.apart⟩,
        hverdict⟩

theorem Refines.next (h : Refines s table) {c : Call} (hsound : c.Sound (s, table)) :
    Refines (c.run s) (c.own table) := by
  cases c with
  | init => exact refines_nil _ _
  | flush => exact refines_nil _ _
  | removeRule ruleId => exact h.removeRule ruleId
  | addRule rule =>
    cases rule with
    | none => exact h
    | some rule => exact h.addRule hsound
  | eval pkt tsc =>
    cases pkt with
    | none => exact ⟨h.rules, h.bucket, h.apart⟩
    | some pkt => exact (h.eval hsound tsc).1

end Steps

/-! ## Runs -/

/-- The module after `fw_packet_filter_init`. -/
def start (s : FilterState) : FilterState × List Owned := (fwPacketFilterInit s, [])

/-- **The packet is served as it should be**: the verdict is that of the best rule that applies, by its
own bucket, and no other bucket is touched. -/
def Served (s : FilterState × List Owned) (c : Call) (t : FilterState × List Owned) : Prop :=
  Refines t.1 t.2 ∧
    ∀ pkt tsc, c = .eval (some pkt) tsc →
      (fwPacketFilterEval s.1 (some pkt) tsc).2 = (decideOn s.2 pkt (tsc 0)).2 ∧
      ∀ k, t.1.buckets k ≠ s.1.buckets k →
        ∃ o, ((deciding s.2 pkt).bind fun d => s.2[d]?) = some o ∧ k = o.rule.bucketIdx

/-- The same rules of every priority, in the same order; those of different priority may be in any. -/
def SamePriorities (table table' : List Owned) : Prop :=
  ∀ p, table.filter (·.rule.priority.toNat == p) = table'.filter (·.rule.priority.toNat == p)

theorem SamePriorities.mem {table table' : List Owned} (h : SamePriorities table table') {o : Owned}
    (ho : o ∈ table) : o ∈ table' := by
  have hin : o ∈ table.filter (·.rule.priority.toNat == o.rule.priority.toNat) :=
    List.mem_filter.mpr ⟨ho, beq_self_eq_true _⟩
  rw [h] at hin
  exact (List.mem_filter.mp hin).1

theorem SamePriorities.symm {table table' : List Owned} (h : SamePriorities table table') :
    SamePriorities table' table := fun p => (h p).symm

theorem SamePriorities.decideOn {table table' : List Owned} (h : SamePriorities table table')
    (pkt : SecPacket) (now : UInt64) : (decideOn table pkt now).2 = (decideOn table' pkt now).2 := by
  rcases deciding_cases table pkt with hnone | ⟨pre, o, post, rfl, hbest⟩
  · rw [decideOn_none hnone, decideOn_none fun o ho => hnone o (h.symm.mem ho)]
  · obtain ⟨pre', post', rfl, hbest'⟩ := hbest.of_filter_eq h.symm
    rw [decideOn_split hbest, decideOn_split hbest']
    by_cases hlim : 0 < o.rule.rateLimit
    · rw [if_pos hlim, if_pos hlim]
    · rw [if_neg hlim, if_neg hlim]

theorem Refines.eval_touched {s : FilterState} {table : List Owned} (h : Refines s table) {pkt : SecPacket}
    (hcharged : DeciderCharged s.rules pkt) (tsc : Nat → UInt64) {k : Nat}
    (hk : (fwPacketFilterEval s (some pkt) tsc).1.buckets k ≠ s.buckets k) :
    ∃ o, ((deciding table pkt).bind fun d => table[d]?) = some o ∧ k = o.rule.bucketIdx := by
  rcases deciding_cases table pkt with hnone | ⟨pre, o, post, rfl, hbest⟩
  · obtain ⟨-, hbuckets, -⟩ := fwPacketFilterEval_none tsc (h.none_applies hnone)
    exact absurd (by rw [hbuckets]) hk
  · obtain ⟨-, -, hbuckets⟩ := fwPacketFilterEval_split tsc
      (by rw [h.rules, List.map_append, List.map_cons]) hcharged (bestSplit_rules.mp hbest)
    refine ⟨o, ?_, ?_⟩
    · rw [deciding, hbest.bestPos, Option.bind_some, List.getElem?_append_right (Nat.le_refl _), Nat.sub_self,
        List.getElem?_cons_zero]
    · by_contra hne
      refine hk ?_
      rw [hbuckets]
      by_cases hlim : 0 < o.rule.rateLimit
      · rw [if_pos hlim, Function.update_of_ne hne]
      · rw [if_neg hlim]

theorem next_served {s : FilterState × List Owned} {c : Call} (h : Refines s.1 s.2) (hsound : c.Sound s) :
    Refines (c.next s).1 (c.next s).2 ∧ Served s c (c.next s) := by
  have hnext := h.next hsound
  refine ⟨hnext, hnext, ?_⟩
  rintro pkt tsc rfl
  exact ⟨(h.eval hsound tsc).2, fun k hk => h.eval_touched hsound tsc hk⟩

theorem refines_run {s : FilterState × List Owned} (h : Refines s.1 s.2) :
    ∀ {calls : List Call}, Guarded (fun s c => c.Sound s) s (traceOf Call.next s calls) →
      Refines (calls.foldl Call.next s).1 (calls.foldl Call.next s).2 := by
  intro calls
  induction calls generalizing s with
  | nil => intro _; exact h
  | cons c calls ih => intro hg; exact ih (next_served h hg.1).1 hg.2

/-- In every run whose calls meet their conditions, each packet is served as it should be, and rules of
different priority may have been added in any order. -/
theorem packetFilter_of_sound (s₀ : FilterState) (calls : List Call)
    (hsound : Guarded (fun s c => c.Sound s) (start s₀) (traceOf Call.next (start s₀) calls)) :
    AllSteps Served (start s₀) (traceOf Call.next (start s₀) calls) ∧ ∀ (s₁ : FilterState) (calls' : List Call),
      Guarded (fun s c => c.Sound s) (start s₁) (traceOf Call.next (start s₁) calls') →
      SamePriorities (calls.foldl Call.next (start s₀)).2 (calls'.foldl Call.next (start s₁)).2 →
      ∀ pkt tsc, DeciderCharged (calls.foldl Call.next (start s₀)).1.rules pkt →
        DeciderCharged (calls'.foldl Call.next (start s₁)).1.rules pkt →
        (fwPacketFilterEval (calls.foldl Call.next (start s₀)).1 (some pkt) tsc).2 =
          (fwPacketFilterEval (calls'.foldl Call.next (start s₁)).1 (some pkt) tsc).2 := by
  constructor
  · refine (trace_traceOf Call.next (start s₀) calls).allSteps_of_guarded
      (I := fun s => Refines s.1 s.2) ?_ (refines_nil _ _) hsound
    rintro s c _ hs rfl hc
    exact next_served hs hc
  · intro s₁ calls' hsound' hsame pkt tsc hcharged hcharged'
    have hrun := (refines_run (s := start s₀) (refines_nil _ _) hsound).eval hcharged tsc
    have hrun' := (refines_run (s := start s₁) (refines_nil _ _) hsound').eval hcharged' tsc
    rw [hrun.2, hrun'.2]
    exact hsame.decideOn pkt (tsc 0)

/-! ## Two rules -/

/-- A rule that denies, one packet at a time. -/
def denyOne : SecFwRule :=
  { ruleId := 1, enabled := 1, action := fwActionDeny, priority := 1, rateLimit := 1, burstLimit := 1 }

/-- A rule that allows, of greater priority. -/
def allowAll : SecFwRule := { ruleId := 2, enabled := 1, action := fwActionAllow, priority := 9 }

/-- A packet that both rules match. -/
def anyPacket : SecPacket :=
  { srcMac := Vector.replicate 6 0, dstMac := Vector.replicate 6 0, ipProto := 17, srcIp := 0x0A000002,
    dstIp := 0x0A000001, srcPort := 1025, dstPort := 53, tcpFlags := 0, ifaceId := 0 }

/-- The variables before `fw_packet_filter_init`. -/
def blank : FilterState :=
  { rules := []
    buckets := fun _ => { tokens := 0, lastRefill := 0, rate := 0, burst := 0 }
    stats := { packetsInspected := 0, packetsAllowed := 0, packetsDropped := 0, packetsBlocked := 0,
               packetsLogged := 0, rateLimited := 0, errors := 0 } }

/-- Two packets at one time, with the two rules added in this order. -/
def twoPackets (first second : SecFwRule) : List Call :=
  [.addRule (some first), .addRule (some second), .eval (some anyPacket) fun _ => 5]

/-- With `denyOne` first in the table the second packet is dropped for its empty bucket, although
`allowAll` decides; the other way round the packet is let through. -/
theorem denyOne_drops :
    (fwPacketFilterEval ((twoPackets denyOne allowAll).foldl Call.next (start blank)).1 (some anyPacket)
      fun _ => 5).2 = fwActionDrop ∧
    (decideOn ((twoPackets denyOne allowAll).foldl Call.next (start blank)).2 anyPacket 5).2 = fwActionAllow ∧
    (fwPacketFilterEval ((twoPackets allowAll denyOne).foldl Call.next (start blank)).1 (some anyPacket)
      fun _ => 5).2 = fwActionAllow ∧
    ¬ AllSteps Served (start blank) (traceOf Call.next (start blank) (twoPackets denyOne allowAll)) := by
  refine ⟨by decide, by decide, by decide, fun h => ?_⟩
  -- the first packet has taken the token of a rule that does not decide
  have htouched := (h.2.2.1.2 anyPacket (fun _ => 5) rfl).2 1 (by decide)
  obtain ⟨o, ho, hk⟩ := htouched
  have ho' : some o = some { rule := allowAll, bucket := bucketOf allowAll } := ho.symm.trans (by rfl)
  rw [Option.some.inj ho'] at hk
  revert hk
  decide

theorem deciderCharged_allowFirst : DeciderCharged [allowAll, denyOne] anyPacket := by
  intro pre r post hsplit _ hlim
  rcases pre with _ | ⟨a, pre⟩
  · obtain ⟨rfl, rfl⟩ := List.cons.inj hsplit
    exact absurd hlim (by decide)
  · rw [List.cons_append] at hsplit
    obtain ⟨rfl, hrest⟩ := List.cons.inj hsplit
    rcases pre with _ | ⟨b, pre⟩
    · obtain ⟨rfl, rfl⟩ := List.cons.inj hrest
      exact Or.inl ⟨allowAll, List.mem_cons_self, by decide, by decide⟩
    · rw [List.cons_append] at hrest
      have := congrArg List.length (List.cons.inj hrest).2
      simp at this

theorem alone_allowFirst : 0 < denyOne.rateLimit → ∀ r ∈ [allowAll], r.limited = true →
    r.bucketIdx ≠ denyOne.bucketIdx := by decide

theorem allowFirst_served :
    AllSteps Served (start blank) (traceOf Call.next (start blank) (twoPackets allowAll denyOne)) :=
  (packetFilter_of_sound blank (twoPackets allowAll denyOne)
    ⟨fun h => absurd h (by decide), alone_allowFirst, deciderCharged_allowFirst, trivial⟩).1

end Chicago95.Stage2.PacketFilter
