/-
# Chicago95.Kernel.NetReceive — what the handlers touch when a frame arrives.

A frame is safe when every read is inside it, every write inside its buffer, and a socket that gets data gets the
payload of the datagram in the frame. ARP is safe always. IPv4 is not: `ip_handle_packet` never compares its lengths
with that of the frame, nor `udp_handle_packet` its own with that. `netRecvFrame_safe_iff` says for which frames all is
well.
-/
import Chicago95.Kernel.Net

namespace Chicago95.Kernel.Net

open Chicago95.Lib.Loop Chicago95.Lib.InternetSum

/-! ## What is safe -/

/-- The length of the IPv4 header of a frame. -/
def headerLen (pkt : Memory) : Nat := (pkt 14).toNat % 16 * 4

/-- The total length that it gives. -/
def totalLen (pkt : Memory) : Nat := be16 pkt 16

/-- The length that the UDP header gives. -/
def segLen (pkt : Memory) : Nat := be16 pkt (14 + headerLen pkt + 4)

/-- A frame of `len` bytes has a datagram with a payload of `n` bytes: the lengths that its headers give are inside one
another and inside the frame. -/
def Carries (pkt : Memory) (len n : Nat) : Prop :=
  20 ≤ headerLen pkt ∧ headerLen pkt + segLen pkt ≤ totalLen pkt ∧ 14 + totalLen pkt ≤ len ∧ segLen pkt = 8 + n

/-- A socket has the payload of the datagram. -/
def Delivered (pkt : Memory) (len : Nat) (s : UdpSocket) : Prop :=
  ∃ n, Carries pkt len n ∧ s.dataLen = n ∧ ∀ k, k < n → s.data k = pkt (14 + headerLen pkt + 8 + k)

/-- **A frame received safely.** -/
structure Safe (pkt : Memory) (len : Nat) (r : Run) : Prop where
  inside : ∀ a ∈ r.trace, a.Inside len
  delivered : ∀ i off n, .write (.socket i) off n ∈ r.trace → Delivered pkt len (r.host.udpSockets i)

/-- What is asked of one access, with the host as it is after the frame. -/
def Access.Sound (pkt : Memory) (len : Nat) (h : Host) : Access → Prop
  | read off n => n = 0 ∨ off + n ≤ len
  | write (.socket i) off n => (n = 0 ∨ off + n ≤ 1500) ∧ Delivered pkt len (h.udpSockets i)
  | write b off n => n = 0 ∨ off + n ≤ b.size

def Run.AllSound (pkt : Memory) (len : Nat) (h : Host) (r : Run) : Prop := ∀ a ∈ r.trace, a.Sound pkt len h

theorem safe_iff_allSound (pkt : Memory) (len : Nat) (r : Run) : Safe pkt len r ↔ r.AllSound pkt len r.host := by
  constructor
  · intro h a ha
    rcases a with ⟨off, n⟩ | ⟨b, off, n⟩
    · exact h.inside _ ha
    · cases b with
      | socket i => exact ⟨h.inside _ ha, h.delivered i off n ha⟩
      | _ => exact h.inside _ ha
  · intro h
    refine ⟨fun a ha => ?_, fun i off n ha => (h _ ha).2⟩
    rcases a with ⟨off, n⟩ | ⟨b, off, n⟩
    · exact h _ ha
    · cases b with
      | socket i => exact (h _ ha).1
      | _ => exact h _ ha

section Sound

variable {pkt : Memory} {len : Nat} {h : Host}

@[simp] theorem allSound_read (off n : Nat) (r : Run) :
    (r.read off n).AllSound pkt len h ↔ r.AllSound pkt len h ∧ (n = 0 ∨ off + n ≤ len) := by
  unfold Run.AllSound Run.read
  simp only [List.forall_mem_append, List.forall_mem_singleton]
  exact Iff.rfl

@[simp] theorem allSound_write (b : Buffer) (off n : Nat) (r : Run) :
    (r.write b off n).AllSound pkt len h ↔ r.AllSound pkt len h ∧ (Access.write b off n).Sound pkt len h := by
  unfold Run.AllSound Run.write
  simp only [List.forall_mem_append, List.forall_mem_singleton]

@[simp] theorem allSound_send (frame : Memory) (n : Nat) (r : Run) :
    (r.send frame n).AllSound pkt len h ↔ r.AllSound pkt len h := Iff.rfl

@[simp] theorem allSound_host (g : Host) (r : Run) :
    ({ r with host := g } : Run).AllSound pkt len h ↔ r.AllSound pkt len h := Iff.rfl

theorem netEthSend_sound (dst : Memory) (etherType : Nat) (data : Memory) {n : Nat} (hn : n ≤ 1586) (r : Run) :
    (netEthSend dst etherType data n r).AllSound pkt len h ↔ r.AllSound pkt len h := by
  unfold netEthSend
  rw [if_neg (by omega)]
  simp only [allSound_send, allSound_write, Access.Sound, Buffer.size]
  constructor
  · intro hall
    exact hall.1.1.1.1
  · intro hall
    exact ⟨⟨⟨⟨hall, by decide⟩, by decide⟩, by decide⟩, Or.inr (by omega)⟩

theorem netEthSend_before (dst : Memory) (etherType : Nat) (data : Memory) (n : Nat) (r : Run)
    (hall : (netEthSend dst etherType data n r).AllSound pkt len h) : r.AllSound pkt len h := by
  unfold netEthSend at hall
  split at hall
  · exact hall
  · simp only [allSound_send, allSound_write] at hall
    exact hall.1.1.1.1

/-! ## ARP -/

theorem arpCacheAdd_sound (ip : UInt32) (mac : Memory) (r : Run) :
    (arpCacheAdd ip mac r).AllSound pkt len h ↔ r.AllSound pkt len h := by
  unfold arpCacheAdd
  split
  · simp only [allSound_host, allSound_write, Access.Sound, Buffer.size]
    exact and_iff_left (by decide)
  · simp only [allSound_host, allSound_write, Access.Sound, Buffer.size]
    exact and_iff_left (by decide)

theorem arpSendRequest_sound (targetIp : UInt32) (r : Run) :
    (arpSendRequest targetIp r).AllSound pkt len h ↔ r.AllSound pkt len h := by
  unfold arpSendRequest
  rw [netEthSend_sound _ _ _ (by decide)]
  simp only [allSound_write, Access.Sound, Buffer.size]
  exact and_iff_left (by decide)

theorem arpHandleRequest_sound (hlen : 14 ≤ len) (r : Run) :
    (arpHandleRequest pkt 14 (len - 14) r).AllSound pkt len h ↔ r.AllSound pkt len h := by
  unfold arpHandleRequest
  split
  · exact Iff.rfl
  · rename_i hlong
    dsimp only
    split
    · split
      · rw [netEthSend_sound _ _ _ (by decide)]
        simp only [allSound_write, allSound_read, arpCacheAdd_sound, Access.Sound, Buffer.size]
        constructor
        · intro hall
          exact hall.1.1.1.1.1.1.1
        · intro hall
          exact ⟨⟨⟨⟨⟨⟨⟨hall, Or.inr (by omega)⟩, Or.inr (by omega)⟩, Or.inr (by omega)⟩, Or.inr (by omega)⟩,
            Or.inr (by omega)⟩, by decide⟩, by decide⟩
      · simp only [allSound_read, arpCacheAdd_sound]
        constructor
        · intro hall
          exact hall.1.1.1.1
        · intro hall
          exact ⟨⟨⟨⟨hall, Or.inr (by omega)⟩, Or.inr (by omega)⟩, Or.inr (by omega)⟩, Or.inr (by omega)⟩
    · simp only [allSound_read, arpCacheAdd_sound]
      constructor
      · intro hall
        exact hall.1.1.1
      · intro hall
        exact ⟨⟨⟨hall, Or.inr (by omega)⟩, Or.inr (by omega)⟩, Or.inr (by omega)⟩

/-! ## ICMP -/

theorem ipSend_sound (dstIp : UInt32) (protocol : Nat) (data : Memory) {n : Nat} (hn : 0 < n) (r : Run) :
    (ipSend dstIp protocol data n r).AllSound pkt len h ↔
      r.AllSound pkt len h ∧ ((arpLookup r.host dstIp).isSome → 20 + n ≤ 1500) := by
  unfold ipSend
  rcases arpLookup r.host dstIp with _ | dstMac
  · rw [arpSendRequest_sound]
    exact (and_iff_left fun hnone => absurd hnone (by decide)).symm
  dsimp only
  constructor
  · intro hall
    have hbefore := netEthSend_before _ _ _ _ _ hall
    simp only [allSound_write, Access.Sound, Buffer.size] at hbefore
    refine ⟨hbefore.1.1.1, fun _ => ?_⟩
    rcases hbefore.2 with hzero | hfits
    · omega
    · exact hfits
  · rintro ⟨hall, hfits⟩
    have hroom := hfits rfl
    rw [netEthSend_sound _ _ _ (by omega)]
    simp only [allSound_write, Access.Sound, Buffer.size]
    exact ⟨⟨⟨hall, by decide⟩, by decide⟩, Or.inr hroom⟩

/-- Where an ICMP message of `n` bytes from `base` on is safe. -/
def IcmpFits (h : Host) (srcIp : UInt32) (pkt : Memory) (len base n : Nat) : Prop :=
  base + 1 ≤ len ∧ (pkt base = 8 ∨ pkt base = 0 → base + 2 ≤ len) ∧
    (pkt base = 8 ∧ pkt (base + 1) = 0 →
      base + n ≤ len ∧ n ≤ 1500 ∧ ((arpLookup h srcIp).isSome → n ≤ 1480))

theorem icmpHandlePacket_sound (srcIp : UInt32) (base n : Nat) (r : Run) :
    (icmpHandlePacket srcIp pkt base n r).AllSound pkt len h ↔
      r.AllSound pkt len h ∧ (8 ≤ n → IcmpFits r.host srcIp pkt len base n) := by
  unfold icmpHandlePacket IcmpFits
  split
  · exact (and_iff_left fun hn => by omega).symm
  rename_i hn
  have hlong : 8 ≤ n := by omega
  simp only [hlong, true_implies]
  by_cases hrequest : pkt base = 8
  · rw [if_pos hrequest]
    by_cases hcode : pkt (base + 1) = 0
    · -- an echo request: its payload is copied, and answered
      rw [if_pos hcode, ipSend_sound _ _ _ (by omega)]
      simp only [allSound_write, allSound_read, Access.Sound, Buffer.size, Run.read_host, Run.write_host]
      constructor
      · rintro ⟨⟨⟨⟨⟨⟨⟨⟨hall, hfirst⟩, hsecond⟩, hid⟩, hseq⟩, -⟩, hpayload⟩, hreply⟩, hsend⟩
        refine ⟨hall, by omega, fun _ => by omega, fun _ => ⟨by omega, by omega, fun hsome => ?_⟩⟩
        have hroom := hsend hsome
        omega
      · rintro ⟨hall, hfirst, hsecond, hecho⟩
        obtain ⟨hinside, hreply, hsend⟩ := hecho ⟨hrequest, hcode⟩
        refine ⟨⟨⟨⟨⟨⟨⟨⟨hall, ?_⟩, ?_⟩, ?_⟩, ?_⟩, by decide⟩, ?_⟩, ?_⟩, fun hsome => ?_⟩
        · exact Or.inr hfirst
        · exact Or.inr (hsecond (Or.inl hrequest))
        · exact Or.inr (by omega)
        · exact Or.inr (by omega)
        · omega
        · omega
        · have hroom := hsend hsome
          omega
    · rw [if_neg hcode]
      simp only [allSound_read]
      constructor
      · rintro ⟨⟨hall, hfirst⟩, hsecond⟩
        exact ⟨hall, by omega, fun _ => by omega, fun hecho => absurd hecho.2 hcode⟩
      · rintro ⟨hall, hfirst, hsecond, -⟩
        exact ⟨⟨hall, Or.inr hfirst⟩, Or.inr (hsecond (Or.inl hrequest))⟩
  · rw [if_neg hrequest]
    by_cases hreply : pkt base = 0
    · rw [if_pos hreply]
      have hiff : ((r.read base 1).read (base + 1) 1).AllSound pkt len h ↔
          r.AllSound pkt len h ∧ base + 1 ≤ len ∧ (pkt base = 8 ∨ pkt base = 0 → base + 2 ≤ len) ∧
            (pkt base = 8 ∧ pkt (base + 1) = 0 →
              base + n ≤ len ∧ n ≤ 1500 ∧ ((arpLookup r.host srcIp).isSome → n ≤ 1480)) := by
        simp only [allSound_read]
        constructor
        · rintro ⟨⟨hall, hfirst⟩, hsecond⟩
          exact ⟨hall, by omega, fun _ => by omega, fun hecho => absurd hecho.1 hrequest⟩
        · rintro ⟨hall, hfirst, hsecond, -⟩
          exact ⟨⟨hall, Or.inr hfirst⟩, Or.inr (hsecond (Or.inr hreply))⟩
      split
      · exact hiff
      · exact hiff
    · rw [if_neg hreply]
      simp only [allSound_read]
      constructor
      · rintro ⟨hall, hfirst⟩
        exact ⟨hall, by omega, fun htype => absurd htype (not_or.mpr ⟨hrequest, hreply⟩),
          fun hecho => absurd hecho.1 hrequest⟩
      · rintro ⟨hall, hfirst, -, -⟩
        exact ⟨hall, Or.inr hfirst⟩

/-! ## UDP -/

theorem copyLen_le (n : Nat) : copyLen n ≤ 1500 := by
  unfold copyLen
  dsimp only
  split
  · exact Nat.le_refl _
  · omega

theorem carries_copyLen (hlt : segLen pkt < 2 ^ 16) : Carries pkt len (copyLen (segLen pkt)) ↔
      20 ≤ headerLen pkt ∧ headerLen pkt + segLen pkt ≤ totalLen pkt ∧ 14 + totalLen pkt ≤ len ∧
        8 ≤ segLen pkt ∧ segLen pkt ≤ 1508 := by
  unfold Carries copyLen
  dsimp only
  split
  · omega
  · omega

/-- Where a UDP datagram is safe. -/
def UdpFits (h : Host) (pkt : Memory) (len : Nat) : Prop :=
  14 + headerLen pkt + 6 ≤ len ∧
    ((matchSocket h (be16 pkt (14 + headerLen pkt + 2))).isSome →
      20 ≤ headerLen pkt ∧ headerLen pkt + segLen pkt ≤ totalLen pkt ∧ 14 + totalLen pkt ≤ len ∧
        8 ≤ segLen pkt ∧ segLen pkt ≤ 1508)

theorem udpHandlePacket_sound (srcIp : UInt32) (n : Nat) (r : Run) (hr : ∀ g, r.AllSound pkt len g) :
    (udpHandlePacket srcIp pkt (14 + headerLen pkt) n r).AllSound pkt len
        (udpHandlePacket srcIp pkt (14 + headerLen pkt) n r).host ↔ (8 ≤ n → UdpFits r.host pkt len) := by
  unfold udpHandlePacket UdpFits
  split
  · rename_i hshort
    exact ⟨fun _ hn => absurd hn (by omega), fun _ => hr _⟩
  rename_i hn
  have hlong : 8 ≤ n := by omega
  simp only [hlong, true_implies, Run.read_host]
  rcases matchSocket r.host (be16 pkt (14 + headerLen pkt + 2)) with _ | i
  · simp only [allSound_read, hr, true_and, Option.isSome_none, Bool.false_eq_true, false_implies, and_true]
    omega
  · simp only [allSound_host, allSound_read, allSound_write, hr, true_and, Option.isSome_some, true_implies,
      Access.Sound, if_true]
    rw [← carries_copyLen (be16_lt _ _)]
    have hdelivered : Delivered pkt len
        { r.host.udpSockets i with
          data := memcpy (r.host.udpSockets i).data 0 (fun k => pkt (14 + headerLen pkt + 8 + k))
            (copyLen (segLen pkt))
          dataLen := copyLen (segLen pkt)
          srcIp := srcIp
          srcPort := UInt16.ofNat (be16 pkt (14 + headerLen pkt)) } ↔
        Carries pkt len (copyLen (segLen pkt)) := by
      constructor
      · rintro ⟨m, hcarries, hlen, -⟩
        dsimp only at hlen
        rw [hlen]
        exact hcarries
      · intro hcarries
        refine ⟨copyLen (segLen pkt), hcarries, by dsimp only, fun k hk => ?_⟩
        dsimp only [memcpy]
        rw [if_pos ⟨Nat.zero_le k, by omega⟩, Nat.sub_zero]
    constructor
    · rintro ⟨⟨⟨⟨hport, hseg⟩, -⟩, -, hgot⟩, -⟩
      exact ⟨hseg.resolve_left (by decide), hdelivered.mp hgot⟩
    · rintro ⟨hinside, hcarries⟩
      have hcopy := copyLen_le (segLen pkt)
      obtain ⟨-, htotal, hframe, hseg⟩ := id hcarries
      refine ⟨⟨⟨⟨?_, ?_⟩, ?_⟩, ?_, hdelivered.mpr hcarries⟩, ?_⟩
      · exact Or.inr (by omega)
      · exact Or.inr (by omega)
      · exact Or.inr (show 14 + headerLen pkt + 8 + copyLen (segLen pkt) ≤ len by omega)
      · exact Or.inr (show 0 + copyLen (segLen pkt) ≤ 1500 by omega)
      · exact Or.inr (by omega)

end Sound

/-! ## Frames -/

/-- The frame is an IPv4 packet for this host. -/
def Addressed (h : Host) (pkt : Memory) (len : Nat) : Prop :=
  34 ≤ len ∧ be16 pkt 12 = 0x0800 ∧ (pkt 14).toNat / 16 = 4 ∧
    (load32 pkt 30 = h.ip ∨ load32 pkt 30 = 0xFFFFFFFF)

/-- Its payload is long enough for a handler to look at, as the subtraction of its lengths has it. -/
def Handled (pkt : Memory) : Prop := ¬(headerLen pkt ≤ totalLen pkt ∧ totalLen pkt < headerLen pkt + 8)

/-- An ICMP message fits: its first two bytes are in the frame where they are looked at, and an echo request is in the
frame, in the reply and, if it can be answered, in the packet. -/
def IcmpFrameFits (h : Host) (pkt : Memory) (len : Nat) : Prop :=
  14 + headerLen pkt + 1 ≤ len ∧
    (pkt (14 + headerLen pkt) = 8 ∨ pkt (14 + headerLen pkt) = 0 → 14 + headerLen pkt + 2 ≤ len) ∧
    (pkt (14 + headerLen pkt) = 8 ∧ pkt (14 + headerLen pkt + 1) = 0 →
      headerLen pkt ≤ totalLen pkt ∧ 14 + totalLen pkt ≤ len ∧ totalLen pkt ≤ headerLen pkt + 1500 ∧
        ((arpLookup h (load32 pkt 26)).isSome → totalLen pkt ≤ headerLen pkt + 1480))

/-- The frames for which all is well. -/
def Fits (h : Host) (pkt : Memory) (len : Nat) : Prop :=
  Addressed h pkt len → Handled pkt →
    (pkt 23 = 1 → IcmpFrameFits h pkt len) ∧ (pkt 23 = 17 → UdpFits h pkt len)

theorem handled_iff (pkt : Memory) : Handled pkt ↔ 8 ≤ (totalLen pkt + 2 ^ 32 - headerLen pkt) % 2 ^ 32 := by
  have htotal : totalLen pkt < 2 ^ 16 := be16_lt _ _
  have hheader : headerLen pkt < 64 := by
    unfold headerLen
    omega
  unfold Handled
  omega

theorem icmpFrameFits_iff (h : Host) (pkt : Memory) (len : Nat) : IcmpFrameFits h pkt len ↔
      IcmpFits h (load32 pkt 26) pkt len (14 + headerLen pkt) ((totalLen pkt + 2 ^ 32 - headerLen pkt) % 2 ^ 32) := by
  have htotal : totalLen pkt < 2 ^ 16 := be16_lt _ _
  have hheader : headerLen pkt < 64 := by
    unfold headerLen
    omega
  unfold IcmpFrameFits IcmpFits
  refine and_congr_right fun _ => and_congr_right fun _ => imp_congr_right fun _ => ?_
  constructor
  · rintro ⟨hle, hframe, hreply, hpacket⟩
    refine ⟨by omega, by omega, fun hsome => ?_⟩
    have hroom := hpacket hsome
    omega
  · rintro ⟨hframe, hreply, hpacket⟩
    refine ⟨by omega, by omega, by omega, fun hsome => ?_⟩
    have hroom := hpacket hsome
    omega

/-- What has been read of an IPv4 packet when its message is handled. -/
def headerReads (r : Run) : Run := ((((r.read 14 1).read 16 2).read 23 1).read 26 4).read 30 4

theorem ipHandlePacket_eq {pkt : Memory} {n : Nat} (hn : 20 ≤ n) (hversion : (pkt 14).toNat / 16 = 4) (r : Run) :
    ipHandlePacket pkt 14 n r = if load32 pkt 30 ≠ r.host.ip ∧ load32 pkt 30 ≠ 0xFFFFFFFF then headerReads r
      else if pkt 23 = 1 then icmpHandlePacket (load32 pkt 26) pkt (14 + headerLen pkt)
          ((totalLen pkt + 2 ^ 32 - headerLen pkt) % 2 ^ 32) (headerReads r) else if pkt 23 = 17 then
        udpHandlePacket (load32 pkt 26) pkt (14 + headerLen pkt)
          ((totalLen pkt + 2 ^ 32 - headerLen pkt) % 2 ^ 32) (headerReads r) else headerReads r := by
  unfold ipHandlePacket
  rw [if_neg (Nat.not_lt.mpr hn)]
  dsimp only
  rw [if_neg (not_not.mpr hversion)]
  rfl

theorem ipHandlePacket_sound (h : Host) (pkt : Memory) (len : Nat) (hlen : 14 ≤ len) (r : Run)
    (hhost : r.host = h) (hr : ∀ g, r.AllSound pkt len g) :
    (ipHandlePacket pkt 14 (len - 14) r).AllSound pkt len (ipHandlePacket pkt 14 (len - 14) r).host ↔
      (34 ≤ len ∧ (pkt 14).toNat / 16 = 4 ∧ (load32 pkt 30 = h.ip ∨ load32 pkt 30 = 0xFFFFFFFF) →
        Handled pkt → (pkt 23 = 1 → IcmpFrameFits h pkt len) ∧ (pkt 23 = 17 → UdpFits h pkt len)) := by
  subst hhost
  by_cases hlong : 34 ≤ len
  swap
  · have hrun : ipHandlePacket pkt 14 (len - 14) r = r := by
      unfold ipHandlePacket
      exact if_pos (by omega)
    rw [hrun]
    exact ⟨fun _ haddr => absurd haddr.1 hlong, fun _ => hr _⟩
  by_cases hversion : (pkt 14).toNat / 16 = 4
  swap
  · have hrun : ipHandlePacket pkt 14 (len - 14) r = r.read 14 1 := by
      unfold ipHandlePacket
      rw [if_neg (by omega)]
      exact if_pos hversion
    rw [hrun, allSound_read]
    exact ⟨fun _ haddr => absurd haddr.2.1 hversion, fun _ => ⟨hr _, Or.inr (by omega)⟩⟩
  rw [ipHandlePacket_eq (by omega) hversion]
  have hreads : ∀ g, (headerReads r).AllSound pkt len g := by
    intro g
    unfold headerReads
    simp only [allSound_read, hr, true_and]
    omega
  by_cases hdst : load32 pkt 30 ≠ r.host.ip ∧ load32 pkt 30 ≠ 0xFFFFFFFF
  · rw [if_pos hdst]
    exact ⟨fun _ haddr => absurd haddr.2.2 (not_or.mpr hdst), fun _ => hreads _⟩
  rw [if_neg hdst]
  have haddr : 34 ≤ len ∧ (pkt 14).toNat / 16 = 4 ∧ (load32 pkt 30 = r.host.ip ∨ load32 pkt 30 = 0xFFFFFFFF) :=
    ⟨hlong, hversion, by
      rcases not_and_or.mp hdst with hip | hall
      · exact Or.inl (not_not.mp hip)
      · exact Or.inr (not_not.mp hall)⟩
  rw [imp_iff_right haddr, handled_iff]
  by_cases hicmp : pkt 23 = 1
  · rw [if_pos hicmp, icmpHandlePacket_sound]
    have hudp : ¬pkt 23 = 17 := by
      rw [hicmp]
      decide
    simp only [hreads, true_and, hicmp, true_implies, icmpFrameFits_iff]
    exact ⟨fun hall hn => ⟨hall hn, fun hp => absurd hp (by decide)⟩, fun hall hn => (hall hn).1⟩
  rw [if_neg hicmp]
  by_cases hudp : pkt 23 = 17
  · rw [if_pos hudp]
    refine (udpHandlePacket_sound _ _ _ hreads).trans ?_
    exact ⟨fun hall hn => ⟨fun hp => absurd hp hicmp, fun _ => hall hn⟩, fun hall hn => (hall hn).2 hudp⟩
  · rw [if_neg hudp]
    exact ⟨fun _ _ => ⟨fun hp => absurd hp hicmp, fun hp => absurd hp hudp⟩, fun _ => hreads _⟩

/-- **Where a frame is received safely**: unless it is an IPv4 packet for this host with a message that does not fit. -/
theorem netRecvFrame_safe_iff (h : Host) (pkt : Memory) (len : Nat) :
    Safe pkt len (netRecvFrame pkt len h) ↔ Fits h pkt len := by
  rw [safe_iff_allSound]
  have hstart : ∀ g, ({ host := h, trace := [], sent := [] } : Run).AllSound pkt len g := by
    intro g a ha
    cases ha
  unfold netRecvFrame Fits Addressed
  split
  · exact ⟨fun _ haddr => by omega, fun _ => hstart _⟩
  rename_i hlen
  have hread : ∀ g, (({ host := h, trace := [], sent := [] } : Run).read 12 2).AllSound pkt len g := by
    intro g
    simp only [allSound_read, hstart, true_and]
    omega
  dsimp only
  by_cases harp : be16 pkt 12 = 0x0806
  · rw [if_pos harp, arpHandleRequest_sound (by omega)]
    exact ⟨fun _ haddr => by omega, fun _ => hread _⟩
  rw [if_neg harp]
  by_cases hip : be16 pkt 12 = 0x0800
  · rw [if_pos hip, ipHandlePacket_sound h pkt len (by omega) _ rfl hread]
    exact ⟨fun hall haddr => hall ⟨haddr.1, haddr.2.2⟩, fun hall haddr => hall ⟨haddr.1, hip, haddr.2⟩⟩
  · rw [if_neg hip]
    exact ⟨fun _ haddr => absurd haddr.2.1 hip, fun _ => hread _⟩

namespace OneSocket

/-- 192.168.1.100 with a socket on port 7. -/
def host : Host where
  mac := fun _ => 2
  ip := 0x6401A8C0
  arpCache := fun _ => { ip := 0, mac := fun _ => 0, valid := false, age := 0 }
  arpClock := 0
  udpSockets := fun _ =>
    { bound := true, port := 7, srcIp := 0, srcPort := 0, data := fun _ => 0, dataLen := 0 }
  pingOutstanding := false
  pingReplyReceived := false

/-- A datagram with nothing after its header, which says that it is 256 bytes long. -/
def overlong : Memory := fun k =>
  [2, 2, 2, 2, 2, 2, 4, 4, 4, 4, 4, 4, 0x08, 0x00,
    0x45, 0, 0, 28, 0, 0, 0, 0, 64, 17, 0, 0, 192, 168, 1, 1, 192, 168, 1, 100,
    0, 9, 0, 7, 1, 0, 0, 0].getD k 0

/-- The socket gets 248 bytes from beside a frame of 42. -/
theorem overlong_unsafe :
    ¬(∀ (h : Host) (pkt : Memory) (len : Nat), len ≤ 1600 → Safe pkt len (netRecvFrame pkt len h)) ∧
      ((netRecvFrame overlong 42 host).host.udpSockets 0).dataLen = 248 ∧
      Access.read 42 248 ∈ (netRecvFrame overlong 42 host).trace := by
  refine ⟨fun hall => ?_, by decide, by decide +kernel⟩
  have hfits := (netRecvFrame_safe_iff host overlong 42).mp (hall host overlong 42 (by decide))
  have haddr : Addressed host overlong 42 := ⟨by decide, by decide, by decide, Or.inl (by decide)⟩
  have hhandled : Handled overlong := by
    unfold Handled
    decide
  have hudp := (hfits haddr hhandled).2 (by decide)
  exact absurd (hudp.2 (by decide)).2.1 (by decide)

end OneSocket

end Chicago95.Kernel.Net
