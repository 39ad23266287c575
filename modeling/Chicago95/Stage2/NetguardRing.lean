/-
# Chicago95.Stage2.NetguardRing — the packet ring of `security/netguard`.

`ring_push` copies a packet into the slot at `head` and moves `head` on; `ring_pop` copies the packet in the
slot at `tail` out and moves `tail` on, both round the circle by `& mask`. `Contents` says which packets are
in the ring; each call is then a step on a list, and a run of calls one on two lists: the packets that went
in and the packets that came out.
-/
import Chicago95.Lib.Ring
import Chicago95.Lib.Transition

namespace Chicago95.Stage2.Netguard

open Chicago95.Lib.Ring Chicago95.Lib.Transition

/-- The bytes of one slot. -/
def slotBytes : Nat := 1514

/-- `netguard_ring_t`. -/
structure NetguardRing where
  head : UInt32
  tail : UInt32
  mask : UInt32
  slots : Nat → UInt8
  slotLens : Nat → UInt32

/-- `ring_push`; `none` stands for the -1 of a full ring. -/
def ringPush (ring : NetguardRing) (pkt : Nat → UInt8) (len : UInt32) : Option NetguardRing :=
  let head := ring.head
  let next := (head + 1) &&& ring.mask
  if next = ring.tail then none
  else some
    { ring with
      slots := fun at' =>
        let i := at' - slotBytes * head.toNat
        if slotBytes * head.toNat ≤ at' ∧ i < len.toNat ∧ i < slotBytes then pkt i else ring.slots at'
      slotLens := fun k => if k = head.toNat then len else ring.slotLens k
      head := next }

/-- The packet `ring_pop` copies out of a slot. -/
def NetguardRing.slot (ring : NetguardRing) (k : Nat) : List UInt8 :=
  (List.range (ring.slotLens k).toNat).map fun i => ring.slots (slotBytes * k + i)

/-- `ring_pop`: the packet and its length; `none` stands for the -1 of an empty ring. -/
def ringPop (ring : NetguardRing) : Option (NetguardRing × List UInt8) :=
  let tail := ring.tail
  if tail = ring.head then none
  else some ({ ring with tail := (tail + 1) &&& ring.mask }, ring.slot tail.toNat)

def ringCount (ring : NetguardRing) : UInt32 := (ring.head - ring.tail) &&& ring.mask

/-! ## The packets in the ring -/

/-- The packet that a caller hands over. -/
def packetBytes (pkt : Nat → UInt8) (len : UInt32) : List UInt8 := (List.range len.toNat).map pkt

/-- The mask is that of a power of two, and the slots of the array suffice for it. -/
def PowMask (mask : UInt32) : Prop := ∃ k, k ≤ 8 ∧ mask.toNat + 1 = 2 ^ k

/-- `q` are the packets in the ring, the oldest first. -/
structure Contents (ring : NetguardRing) (q : List (List UInt8)) : Prop where
  mask : PowMask ring.mask
  holds : Holds (ring.mask.toNat + 1) ring.tail.toNat ring.head.toNat ring.slot q
  fits : ∀ p ∈ q, p.length ≤ slotBytes

/-- A ring with nothing in it, wherever its indices stand. -/
structure Empty (ring : NetguardRing) : Prop where
  mask : PowMask ring.mask
  tail_le : ring.tail ≤ ring.mask
  head_eq : ring.head = ring.tail

theorem Empty.contents {ring : NetguardRing} (h : Empty ring) : Contents ring [] := by
  have htail : ring.tail.toNat < ring.mask.toNat + 1 := Nat.lt_succ_of_le (UInt32.le_iff_toNat_le.mp h.tail_le)
  refine ⟨h.mask, ?_, fun p hp => absurd hp List.not_mem_nil⟩
  rw [h.head_eq]
  exact Holds.nil htail ring.slot

theorem PowMask.and_toNat {mask : UInt32} (h : PowMask mask) (x : UInt32) :
    (x &&& mask).toNat = x.toNat % (mask.toNat + 1) := by
  obtain ⟨k, -, hk⟩ := h
  have hmask : mask.toNat = 2 ^ k - 1 := by omega
  rw [UInt32.toNat_and, hk, hmask, Nat.and_two_pow_sub_one_eq_mod]

theorem PowMask.le {mask : UInt32} (h : PowMask mask) : mask.toNat + 1 ≤ 256 := by
  obtain ⟨k, hk, hmask⟩ := h
  rw [hmask]
  exact Nat.pow_le_pow_right (by decide) hk

theorem PowMask.next_toNat {mask x : UInt32} (h : PowMask mask) (hx : x.toNat < mask.toNat + 1) :
    ((x + 1) &&& mask).toNat = (x.toNat + 1) % (mask.toNat + 1) := by
  have hle := h.le
  rw [h.and_toNat, UInt32.toNat_add, UInt32.toNat_one, Nat.mod_eq_of_lt (by omega : x.toNat + 1 < 2 ^ 32)]

section Calls

variable {ring : NetguardRing} {q : List (List UInt8)}

theorem Contents.push_none_iff (h : Contents ring q) (pkt : Nat → UInt8) (len : UInt32) :
    ringPush ring pkt len = none ↔ q.length = ring.mask.toNat := by
  have hnext := h.mask.next_toNat h.holds.head_lt
  have hfull := h.holds.full_iff
  rw [← hnext] at hfull
  unfold ringPush
  by_cases htail : (ring.head + 1) &&& ring.mask = ring.tail
  · have hlen := hfull.mp (congrArg UInt32.toNat htail)
    simp only [if_pos htail, true_iff]
    omega
  · have hlen : ¬ q.length + 1 = ring.mask.toNat + 1 := fun hq =>
      htail (UInt32.toNat_inj.mp (hfull.mpr hq))
    simp only [if_neg htail, reduceCtorEq, false_iff]
    omega

theorem slot_pushed {ring' : NetguardRing} {pkt : Nat → UInt8} {len : UInt32} (hlen : len.toNat ≤ slotBytes)
    (hpush : ringPush ring pkt len = some ring') : ring'.slot ring.head.toNat = packetBytes pkt len := by
  unfold ringPush at hpush
  simp only [Option.ite_none_left_eq_some, Option.some.injEq] at hpush
  obtain ⟨-, rfl⟩ := hpush
  simp only [NetguardRing.slot, packetBytes, if_true]
  refine List.map_congr_left fun i hi => ?_
  rw [List.mem_range] at hi
  rw [Nat.add_sub_cancel_left, if_pos ⟨Nat.le_add_right _ _, hi, by omega⟩]

theorem slot_kept {ring' : NetguardRing} {pkt : Nat → UInt8} {len : UInt32} {k : Nat}
    (hpush : ringPush ring pkt len = some ring') (hk : k ≠ ring.head.toNat)
    (hfits : (ring.slotLens k).toNat ≤ slotBytes) : ring'.slot k = ring.slot k := by
  unfold ringPush at hpush
  simp only [Option.ite_none_left_eq_some, Option.some.injEq] at hpush
  obtain ⟨-, rfl⟩ := hpush
  simp only [NetguardRing.slot, if_neg hk]
  refine List.map_congr_left fun i hi => ?_
  rw [List.mem_range] at hi
  -- byte `i` of slot `k` is in no other row
  rw [if_neg]
  rintro ⟨hle, -, hlt⟩
  refine hk ?_
  simp only [slotBytes] at hle hlt hfits
  omega

theorem push_indices {ring' : NetguardRing} {pkt : Nat → UInt8} {len : UInt32}
    (hpush : ringPush ring pkt len = some ring') :
    ring'.mask = ring.mask ∧ ring'.tail = ring.tail ∧ ring'.head = (ring.head + 1) &&& ring.mask := by
  unfold ringPush at hpush
  simp only [Option.ite_none_left_eq_some, Option.some.injEq] at hpush
  obtain ⟨-, rfl⟩ := hpush
  exact ⟨rfl, rfl, rfl⟩

theorem length_slot (ring : NetguardRing) (k : Nat) : (ring.slot k).length = (ring.slotLens k).toNat := by
  rw [NetguardRing.slot, List.length_map, List.length_range]

@[simp] theorem length_packetBytes (pkt : Nat → UInt8) (len : UInt32) : (packetBytes pkt len).length = len.toNat := by
  rw [packetBytes, List.length_map, List.length_range]

theorem Contents.push (h : Contents ring q) {ring' : NetguardRing} {pkt : Nat → UInt8} {len : UInt32}
    (hlen : len.toNat ≤ slotBytes) (hpush : ringPush ring pkt len = some ring') :
    Contents ring' (q ++ [packetBytes pkt len]) := by
  obtain ⟨hmask, htail, hhead⟩ := push_indices hpush
  have hroom : q.length + 1 < ring.mask.toNat + 1 := by
    have hne : q.length ≠ ring.mask.toNat := fun hq => by
      rw [(h.push_none_iff pkt len).mpr hq] at hpush
      cases hpush
    have := h.holds.room
    omega
  have hold : ∀ i, i < q.length → ring'.slot ((ring.tail.toNat + i) % (ring.mask.toNat + 1)) =
      ring.slot ((ring.tail.toNat + i) % (ring.mask.toNat + 1)) := by
    intro i hi
    refine slot_kept hpush (h.holds.ne_head hi) ?_
    rw [← length_slot, h.holds.cells i hi]
    exact h.fits _ (List.getElem_mem hi)
  have hholds := h.holds.push hroom hold (slot_pushed hlen hpush)
  refine ⟨hmask ▸ h.mask, ?_, fun p hp => ?_⟩
  · rw [hmask, htail, hhead, h.mask.next_toNat h.holds.head_lt]
    exact hholds
  · rcases List.mem_append.mp hp with hp | hp
    · exact h.fits p hp
    · rw [List.mem_singleton.mp hp, length_packetBytes]
      exact hlen

theorem Contents.pop_none_iff (h : Contents ring q) : ringPop ring = none ↔ q.length = 0 := by
  rw [← h.holds.empty_iff, ringPop]
  by_cases hmeet : ring.tail = ring.head
  · simp only [if_pos hmeet, true_iff]
    exact congrArg UInt32.toNat hmeet
  · simp only [if_neg hmeet, reduceCtorEq, false_iff]
    exact fun hval => hmeet (UInt32.toNat_inj.mp hval)

theorem Contents.pop (h : Contents ring q) {ring' : NetguardRing} {p : List UInt8}
    (hpop : ringPop ring = some (ring', p)) : ∃ rest, q = p :: rest ∧ Contents ring' rest := by
  rcases q with _ | ⟨x, rest⟩
  · rw [h.pop_none_iff.mpr rfl] at hpop
    cases hpop
  · unfold ringPop at hpop
    simp only [Option.ite_none_left_eq_some, Option.some.injEq, Prod.mk.injEq] at hpop
    obtain ⟨-, rfl, rfl⟩ := hpop
    obtain ⟨hcell, hrest⟩ := h.holds.pop
    refine ⟨rest, by rw [hcell], h.mask, ?_, fun p hp => h.fits p (List.mem_cons_of_mem _ hp)⟩
    simp only [h.mask.next_toNat h.holds.tail_lt]
    exact hrest

theorem Contents.ringCount (h : Contents ring q) : (ringCount ring).toNat = q.length := by
  have hcount := h.holds.count
  have hle := h.mask.le
  have htail := h.holds.tail_lt
  have hhead := h.holds.head_lt
  obtain ⟨k, hk, hmask⟩ := h.mask
  have hdvd : ring.mask.toNat + 1 ∣ 2 ^ 32 := hmask ▸ Nat.pow_dvd_pow 2 (by omega)
  rw [Netguard.ringCount, h.mask.and_toNat, UInt32.toNat_sub, Nat.mod_mod_of_dvd _ hdvd]
  -- 2^32 is so many times round the circle
  obtain ⟨m, hm⟩ := hdvd
  have hm1 : 1 ≤ m := by
    by_contra hzero
    rw [Nat.lt_one_iff.mp (Nat.lt_of_not_le hzero)] at hm
    omega
  have hsum : 2 ^ 32 - ring.tail.toNat + ring.head.toNat =
      ring.head.toNat + (ring.mask.toNat + 1 - ring.tail.toNat) + (ring.mask.toNat + 1) * (m - 1) := by
    rw [Nat.mul_sub, ← hm]
    have : (ring.mask.toNat + 1) * 1 ≤ 2 ^ 32 := by omega
    omega
  rw [hsum, Nat.add_mul_mod_self_left]
  exact hcount

end Calls

/-! ## Runs -/

/-- A call on the ring. -/
inductive RingCall
  | push (pkt : Nat → UInt8) (len : UInt32)
  | pop

/-- The packet that is pushed has at most `slotBytes` bytes. -/
def RingCall.Fits : RingCall → Prop
  | .push _ len => len.toNat ≤ slotBytes
  | .pop => True

instance (c : RingCall) : Decidable c.Fits :=
  match c with
  | .push _ len => inferInstanceAs (Decidable (len.toNat ≤ slotBytes))
  | .pop => .isTrue trivial

/-- The ring, the packets whose push succeeded and the packets that were popped, each in their order. -/
structure Log where
  ring : NetguardRing
  accepted : List (List UInt8) := []
  popped : List (List UInt8) := []

/-- One call. -/
def RingCall.next (s : Log) : RingCall → Log
  | .push pkt len =>
    match ringPush s.ring pkt len with
    | some ring => { s with ring := ring, accepted := s.accepted ++ [packetBytes pkt len] }
    | none => s
  | .pop =>
    match ringPop s.ring with
    | some (ring, p) => { s with ring := ring, popped := s.popped ++ [p] }
    | none => s

/-- What was accepted and not popped is in the ring. -/
def Log.Sound (s : Log) : Prop := ∃ q, s.accepted = s.popped ++ q ∧ Contents s.ring q

/-- The call fails exactly when it has to: a push on a ring of `mask` packets, a pop on one of none; and
the packets popped are the first of those accepted, in the same order and with the same bytes. -/
def Fifo (s : Log) (c : RingCall) (t : Log) : Prop :=
  t.popped <+: t.accepted ∧
  (ringCount t.ring).toNat = t.accepted.length - t.popped.length ∧
  match c with
  | .push pkt len => ringPush s.ring pkt len = none ↔ s.accepted.length = s.popped.length + s.ring.mask.toNat
  | .pop => ringPop s.ring = none ↔ s.accepted.length = s.popped.length

theorem Log.Sound.next {s : Log} (h : s.Sound) {c : RingCall} (hfits : c.Fits) : (c.next s).Sound := by
  obtain ⟨q, hq, hcontents⟩ := h
  cases c with
  | push pkt len =>
    simp only [RingCall.next]
    rcases hpush : ringPush s.ring pkt len with _ | ring'
    · exact ⟨q, hq, hcontents⟩
    · refine ⟨q ++ [packetBytes pkt len], ?_, hcontents.push hfits hpush⟩
      rw [hq, List.append_assoc]
  | pop =>
    simp only [RingCall.next]
    rcases hpop : ringPop s.ring with _ | ⟨ring', p⟩
    · exact ⟨q, hq, hcontents⟩
    · obtain ⟨rest, rfl, hrest⟩ := hcontents.pop hpop
      refine ⟨rest, ?_, hrest⟩
      rw [hq, List.append_assoc, List.singleton_append]

theorem Log.Sound.fifo {s : Log} (h : s.Sound) {c : RingCall} (hfits : c.Fits) : Fifo s c (c.next s) := by
  obtain ⟨q', hq', hcontents'⟩ := h.next hfits
  refine ⟨⟨q', hq'.symm⟩, ?_, ?_⟩
  · rw [hcontents'.ringCount, hq', List.length_append, Nat.add_sub_cancel_left]
  · obtain ⟨q, hq, hcontents⟩ := h
    cases c with
    | push pkt len =>
      simp only [hcontents.push_none_iff, hq, List.length_append]
      omega
    | pop =>
      simp only [hcontents.pop_none_iff, hq, List.length_append]
      omega

/-- **The ring is a bounded queue**: in every run of pushes and pops from an empty ring, wherever its
indices stand and however often they go round. -/
theorem ring_fifo {ring : NetguardRing} (hempty : Empty ring) (calls : List RingCall)
    (hfits : ∀ c ∈ calls, c.Fits) :
    AllSteps Fifo { ring := ring } (traceOf RingCall.next { ring := ring } calls) := by
  refine (trace_traceOf RingCall.next { ring := ring } calls).allSteps_of_guarded (I := Log.Sound) ?_
    ⟨[], rfl, hempty.contents⟩ (guarded_traceOf _ hfits)
  rintro s c _ hs rfl hc
  exact ⟨hs.next hc, hs.fifo hc⟩

/-- A ring of two slots, about to go round. -/
def smallRing : NetguardRing :=
  { head := 1, tail := 1, mask := 1, slots := fun _ => 0, slotLens := fun _ => 0 }

theorem smallRing_fifo :
    AllSteps Fifo { ring := smallRing } (traceOf RingCall.next { ring := smallRing }
      [.push (fun i => i.toUInt8) 3, .push (fun _ => 7) 1, .pop, .push (fun _ => 9) 2, .pop, .pop]) :=
  ring_fifo ⟨⟨1, by decide, rfl⟩, by decide, rfl⟩ _ (by decide)

end Chicago95.Stage2.Netguard
