/-
# Chicago95.Kernel.UdpRoundTrip — a datagram from `udp_send` to `udp_recv`.

The packet that `udp_send` builds is described by its three parts, the Ethernet header, the IPv4 header and the
datagram, and the receiver's fields are read off these: `Layout`. The round trip is `udp_roundTrip`.
-/
import Chicago95.Kernel.Net

namespace Chicago95.Kernel.Net

open Chicago95.Lib.Loop Chicago95.Lib.InternetSum

/-! ## The packet built -/

theorem memcpy_before (dst : Memory) (off : Nat) (src : Memory) (n : Nat) {k : Nat} (hk : k < off) :
    memcpy dst off src n k = dst k :=
  if_neg fun h => absurd h.1 (Nat.not_le.mpr hk)

theorem memcpy_at (dst : Memory) (off : Nat) (src : Memory) {n j : Nat} (hj : j < n) :
    memcpy dst off src n (off + j) = src j := by
  unfold memcpy
  rw [if_pos ⟨Nat.le_add_right off j, by omega⟩, Nat.add_sub_cancel_left]

/-- The UDP header and the payload. -/
def datagram (srcPort dstPort : UInt16) (data : Memory) (len : Nat) : Memory :=
  let pkt := putBe16 (fun _ => 0) 0 srcPort.toNat
  let pkt := putBe16 pkt 2 dstPort.toNat
  let pkt := putBe16 pkt 4 (8 + len)
  let pkt := putBe16 pkt 6 0
  memcpy pkt 8 data len

/-- A packet in its Ethernet frame, as memory. -/
def etherFrame (dst src : Memory) (etherType : Nat) (data : Memory) (len : Nat) : Memory :=
  memcpy (putBe16 (memcpy (memcpy (fun _ => 0) 0 dst 6) 6 src 6) 12 etherType) 14 data len

/-- The packet of a datagram. -/
def udpPacket (src : UInt32) (srcPort : UInt16) (dstIp : UInt32) (dstPort : UInt16) (data : Memory) (len : Nat) :
    Memory :=
  memcpy (memcpy (fun _ => 0) 0 (ipHeader (28 + len) 17 src dstIp) 20) 20 (datagram srcPort dstPort data len) (8 + len)

theorem netEthSend_sent (dst : Memory) (etherType : Nat) (data : Memory) {n : Nat} (hn : n ≤ 1586) (r : Run) :
    (netEthSend dst etherType data n r).sent =
      r.sent ++ [(List.range (n + 14)).map (etherFrame dst r.host.mac etherType data n)] := by
  have hlen : (n + 14) % 2 ^ 32 = n + 14 := Nat.mod_eq_of_lt (by omega)
  unfold netEthSend
  rw [hlen, if_neg (by omega)]
  rfl

theorem udpSend_sent {a : Host} {sock : Nat} (hsock : sock < udpMaxSockets)
    (hbound : (a.udpSockets sock).bound = true) {dstIp : UInt32} {dstMac : Memory}
    (hmac : arpLookup a dstIp = some dstMac) (dstPort : UInt16) (data : Memory) {len : Nat} (hlen : len ≤ 1472) :
    (udpSend sock dstIp dstPort data len { host := a, trace := [], sent := [] }).sent =
      [(List.range (42 + len)).map
        (etherFrame dstMac a.mac 0x0800 (udpPacket a.ip (a.udpSockets sock).port dstIp dstPort data len)
          (28 + len))] := by
  have hudp : (8 + len) % 2 ^ 16 = 8 + len := Nat.mod_eq_of_lt (by omega)
  have htotal : 28 + len < 2 ^ 16 := by omega
  have hsum : 20 + (8 + len) = 28 + len := by omega
  unfold udpSend
  rw [if_neg (by unfold udpMaxSockets at *; omega)]
  simp only [Int.toNat_natCast, hbound, Bool.true_eq_false, if_false, hmac, hudp, hsum, Nat.mod_eq_of_lt htotal]
  rw [netEthSend_sent _ _ _ (by omega), show 28 + len + 14 = 42 + len by omega]
  rfl

/-! ## The fields received -/

/-- Memory that holds a datagram's frame: the type, then the IPv4 header, then the datagram. -/
structure Layout (pkt : Memory) (src dst : UInt32) (srcPort dstPort : UInt16) (data : Memory) (len : Nat) : Prop where
  etherType : be16 pkt 12 = 0x0800
  header : ∀ j, j < 20 → pkt (14 + j) = ipHeader (28 + len) 17 src dst j
  body : ∀ j, j < 8 + len → pkt (34 + j) = datagram srcPort dstPort data len j

theorem layout_of_frame {dstMac srcMac : Memory} {src dstIp : UInt32} {srcPort dstPort : UInt16}
    {data pkt : Memory} {len : Nat}
    (h : ∀ k, k < 42 + len → pkt k =
      etherFrame dstMac srcMac 0x0800 (udpPacket src srcPort dstIp dstPort data len) (28 + len) k) :
    Layout pkt src dstIp srcPort dstPort data len where
  etherType := by
    have h12 : pkt 12 = 0x08 := h 12 (by omega)
    have h13 : pkt 13 = 0x00 := h 13 (by omega)
    unfold be16
    rw [h12, h13]
    rfl
  header := fun j hj => by
    have hat := memcpy_at (fun _ => 0) 0 (ipHeader (28 + len) 17 src dstIp) hj
    rw [Nat.zero_add] at hat
    rw [h (14 + j) (by omega), etherFrame, memcpy_at _ _ _ (by omega), udpPacket, memcpy_before _ _ _ _ hj, hat]
  body := fun j hj => by
    rw [h (34 + j) (by omega), etherFrame, show 34 + j = 14 + (20 + j) by omega, memcpy_at _ _ _ (by omega),
      udpPacket, memcpy_at _ _ _ hj]

theorem load32_congr {p q : Memory} {a b : Nat} (h : ∀ i, i < 4 → p (a + i) = q (b + i)) : load32 p a = load32 q b := by
  have h0 := h 0 (by decide)
  rw [Nat.add_zero, Nat.add_zero] at h0
  unfold load32
  rw [h0, h 1 (by decide), h 2 (by decide), h 3 (by decide)]

theorem store32_of_ne (p : Memory) {a k : Nat} (v : UInt32) (h : k < a ∨ a + 4 ≤ k) : store32 p a v k = p k :=
  if_neg fun hin => by omega

theorem ipHeaderBase_fields {total : Nat} (src dst : UInt32) (htotal : total < 2 ^ 16) :
    ipHeaderBase total 17 src dst 0 = 0x45 ∧ be16 (ipHeaderBase total 17 src dst) 2 = total ∧
      ipHeaderBase total 17 src dst 9 = 17 ∧ be16 (ipHeaderBase total 17 src dst) 10 = 0 ∧
      load32 (ipHeaderBase total 17 src dst) 12 = src ∧ load32 (ipHeaderBase total 17 src dst) 16 = dst := by
  have hlow : ∀ k, k < 12 → ipHeaderBase total 17 src dst k =
      put (put (put (putBe16 (put (fun _ => 0) 0 0x45) 2 total) 6 0x40) 8 64) 9 17 k := by
    intro k hk
    unfold ipHeaderBase
    rw [store32_of_ne _ _ (Or.inl (by omega)), store32_of_ne _ _ (Or.inl (by omega))]
    rfl
  refine ⟨?_, ?_, ?_, ?_, ?_, ?_⟩
  · rw [hlow 0 (by decide)]
    rfl
  · refine (be16_congr ?_ ?_).trans (be16_putBe16 (put (fun _ => 0) 0 0x45) 2 htotal)
    · rw [hlow 2 (by decide)]
      rfl
    · rw [hlow 3 (by decide)]
      rfl
  · rw [hlow 9 (by decide)]
    rfl
  · have h10 : ipHeaderBase total 17 src dst 10 = 0 := (hlow 10 (by decide)).trans rfl
    have h11 : ipHeaderBase total 17 src dst 11 = 0 := (hlow 11 (by decide)).trans rfl
    unfold be16
    rw [h10, h11]
    decide
  · unfold ipHeaderBase
    dsimp only
    exact (load32_congr fun i hi => store32_of_ne _ _ (Or.inl (by omega))).trans (load32_store32 _ 12 src)
  · exact load32_store32 _ 16 dst

theorem ipHeader_fields {total : Nat} (src dst : UInt32) (htotal : total < 2 ^ 16) :
    ipHeader total 17 src dst 0 = 0x45 ∧ be16 (ipHeader total 17 src dst) 2 = total ∧
      ipHeader total 17 src dst 9 = 17 ∧ load32 (ipHeader total 17 src dst) 12 = src ∧
      load32 (ipHeader total 17 src dst) 16 = dst := by
  obtain ⟨hversion, hlen, hprotocol, -, hsrc, hdst⟩ := ipHeaderBase_fields src dst htotal
  have hkept : ∀ k, k ≠ 10 → k ≠ 11 → ipHeader total 17 src dst k = ipHeaderBase total 17 src dst k :=
    fun k h0 h1 => putBe16_of_ne _ _ h0 h1
  refine ⟨(hkept 0 (by decide) (by decide)).trans hversion, ?_, (hkept 9 (by decide) (by decide)).trans hprotocol,
    ?_, ?_⟩
  · exact (be16_congr (hkept 2 (by decide) (by decide)) (hkept 3 (by decide) (by decide))).trans hlen
  · exact (load32_congr fun i hi => hkept (12 + i) (by omega) (by omega)).trans hsrc
  · exact (load32_congr fun i hi => hkept (16 + i) (by omega) (by omega)).trans hdst

theorem checksum_ipHeader {total : Nat} (src dst : UInt32) (htotal : total < 2 ^ 16) :
    checksum (ipHeader total 17 src dst) 20 = 0 := by
  obtain ⟨hversion, -, -, hnone, -, -⟩ := ipHeaderBase_fields src dst htotal
  refine checksum_cancels (by decide) hnone (by decide) (by decide) (by decide) ?_
  unfold be16
  rw [hversion]
  exact Nat.lt_of_lt_of_le (by decide) (Nat.le_add_right (69 * 256) _)

theorem datagram_fields (srcPort dstPort : UInt16) (data : Memory) {len : Nat} (hlen : len ≤ 1472) :
    be16 (datagram srcPort dstPort data len) 0 = srcPort.toNat ∧
      be16 (datagram srcPort dstPort data len) 2 = dstPort.toNat ∧
      be16 (datagram srcPort dstPort data len) 4 = 8 + len ∧
      ∀ k, k < len → datagram srcPort dstPort data len (8 + k) = data k := by
  have hlow : ∀ k, k < 6 → datagram srcPort dstPort data len k =
      putBe16 (putBe16 (putBe16 (fun _ => 0) 0 srcPort.toNat) 2 dstPort.toNat) 4 (8 + len) k := by
    intro k hk
    unfold datagram
    rw [memcpy_before _ _ _ _ (by omega), putBe16_of_ne _ _ (by omega) (by omega)]
  refine ⟨?_, ?_, ?_, fun k hk => memcpy_at _ _ _ hk⟩
  · refine (be16_congr ?_ ?_).trans (be16_putBe16 (fun _ => 0) 0 srcPort.toNat_lt)
    · rw [hlow 0 (by decide), putBe16_of_ne _ _ (by decide) (by decide), putBe16_of_ne _ _ (by decide) (by decide)]
    · rw [hlow 1 (by decide), putBe16_of_ne _ _ (by decide) (by decide), putBe16_of_ne _ _ (by decide) (by decide)]
  · refine (be16_congr ?_ ?_).trans (be16_putBe16 (putBe16 (fun _ => 0) 0 srcPort.toNat) 2 dstPort.toNat_lt)
    · rw [hlow 2 (by decide), putBe16_of_ne _ _ (by decide) (by decide)]
    · rw [hlow 3 (by decide), putBe16_of_ne _ _ (by decide) (by decide)]
  · have hlt : 8 + len < 2 ^ 16 := by omega
    exact (be16_congr (hlow 4 (by decide)) (hlow 5 (by decide))).trans (be16_putBe16 _ 4 hlt)

/-! ## The round trip -/

/-- What the receiver reads of a datagram's frame, field by field. -/
structure Received (pkt : Memory) (src dst : UInt32) (srcPort dstPort : UInt16) (data : Memory) (len : Nat) :
    Prop where
  etherType : be16 pkt 12 = 0x0800
  first : pkt 14 = 0x45
  total : be16 pkt 16 = 28 + len
  protocol : pkt 23 = 17
  srcIp : load32 pkt 26 = src
  dstIp : load32 pkt 30 = dst
  srcPort : be16 pkt 34 = srcPort.toNat
  dstPort : be16 pkt 36 = dstPort.toNat
  segLen : be16 pkt 38 = 8 + len
  payload : ∀ k, k < len → pkt (42 + k) = data k

theorem Layout.received {pkt : Memory} {src dst : UInt32} {srcPort dstPort : UInt16} {data : Memory} {len : Nat}
    (h : Layout pkt src dst srcPort dstPort data len) (hlen : len ≤ 1472) :
    Received pkt src dst srcPort dstPort data len := by
  obtain ⟨hfirst, htotal, hprotocol, hsrc, hdst⟩ := @ipHeader_fields (28 + len) src dst (by omega)
  obtain ⟨hsport, hdport, hseg, hpayload⟩ := datagram_fields srcPort dstPort data hlen
  refine ⟨h.etherType, ?_, ?_, ?_, ?_, ?_, ?_, ?_, ?_, ?_⟩
  · exact (h.header 0 (by decide)).trans hfirst
  · exact (be16_congr (h.header 2 (by decide)) (h.header 3 (by decide))).trans htotal
  · exact (h.header 9 (by decide)).trans hprotocol
  · refine (load32_congr fun i hi => ?_).trans hsrc
    rw [show 26 + i = 14 + (12 + i) by omega]
    exact h.header (12 + i) (by omega)
  · refine (load32_congr fun i hi => ?_).trans hdst
    rw [show 30 + i = 14 + (16 + i) by omega]
    exact h.header (16 + i) (by omega)
  · exact (be16_congr (h.body 0 (by omega)) (h.body 1 (by omega))).trans hsport
  · exact (be16_congr (h.body 2 (by omega)) (h.body 3 (by omega))).trans hdport
  · exact (be16_congr (h.body 4 (by omega)) (h.body 5 (by omega))).trans hseg
  · intro k hk
    rw [show 42 + k = 34 + (8 + k) by omega, h.body (8 + k) (by omega)]
    exact hpayload k hk

theorem netRecvFrame_socket {pkt : Memory} {src : UInt32} {srcPort dstPort : UInt16} {data : Memory} {len : Nat}
    {b : Host} (h : Received pkt src b.ip srcPort dstPort data len) (hlen : len ≤ 1472) {i : Nat}
    (hmatch : matchSocket b dstPort.toNat = some i) :
    (netRecvFrame pkt (42 + len) b).host.udpSockets i =
      { b.udpSockets i with
        data := memcpy (b.udpSockets i).data 0 (fun k => pkt (42 + k)) len
        dataLen := len
        srcIp := src
        srcPort := srcPort } := by
  have hcopy : copyLen (8 + len) = len := by
    unfold copyLen
    dsimp only
    rw [if_neg (by omega)]
    omega
  have hihl : (0x45 : UInt8).toNat % 16 * 4 = 20 := by decide
  have hpayload : (28 + len + 2 ^ 32 - 20) % 2 ^ 32 = 8 + len := by omega
  have hport : UInt16.ofNat srcPort.toNat = srcPort := UInt16.ofNat_toNat
  unfold netRecvFrame
  rw [if_neg (by omega)]
  dsimp only
  rw [h.etherType, if_neg (by decide), if_pos rfl]
  unfold ipHandlePacket
  rw [if_neg (by omega)]
  simp only [h.first]
  rw [if_neg (by decide)]
  simp only [Nat.reduceAdd, h.total, h.protocol, h.srcIp, h.dstIp, Run.read_host, ne_eq, not_true_eq_false,
    false_and, if_false, hihl, hpayload]
  rw [if_neg (by decide)]
  simp only [if_true]
  unfold udpHandlePacket
  rw [if_neg (by omega)]
  simp only [Nat.reduceAdd, h.dstPort, h.segLen, h.srcPort, Run.read_host, hmatch, hcopy, hport, if_true]

/-- **A datagram arrives**: the frame that `udp_send` hands on, given to the host with its address, makes `udp_recv` on
the first socket bound to its port return the payload, with the sender's address and port, and its header sums to
zero. -/
theorem udp_roundTrip {a b : Host} {sock i : Nat} {dstPort : UInt16} {dstMac data : Memory} {len maxLen : Nat}
    (hsock : sock < udpMaxSockets) (hbound : (a.udpSockets sock).bound = true)
    (hmac : arpLookup a b.ip = some dstMac) (hmatch : matchSocket b dstPort.toNat = some i) (hpos : 1 ≤ len)
    (hlen : len ≤ 1472) (hroom : len ≤ maxLen) :
    ∃ frame, (udpSend sock b.ip dstPort data len { host := a, trace := [], sent := [] }).sent = [frame] ∧
      checksum (fun k => frame.getD (14 + k) 0) 20 = 0 ∧
      ∀ pkt : Memory, (∀ k (hk : k < frame.length), pkt k = frame[k]) →
        ((netRecvFrame pkt frame.length b).host.udpSockets i).srcIp = a.ip ∧
        ((netRecvFrame pkt frame.length b).host.udpSockets i).srcPort = (a.udpSockets sock).port ∧
        (udpRecv i maxLen (netRecvFrame pkt frame.length b).host).map Prod.fst = some ((List.range len).map data) := by
  refine ⟨_, udpSend_sent hsock hbound hmac dstPort data hlen, ?_, fun pkt hpkt => ?_⟩
  · have hlayout : Layout (fun k => ((List.range (42 + len)).map (etherFrame dstMac a.mac 0x0800
        (udpPacket a.ip (a.udpSockets sock).port b.ip dstPort data len) (28 + len))).getD k 0)
        a.ip b.ip (a.udpSockets sock).port dstPort data len :=
      @layout_of_frame dstMac a.mac _ _ _ _ _ _ _ fun k hk => by
        rw [List.getD_eq_getElem?_getD, List.getElem?_map, List.getElem?_range hk]
        rfl
    exact (checksum_congr hlayout.header).trans (checksum_ipHeader a.ip b.ip (by omega))
  · have hlayout : Layout pkt a.ip b.ip (a.udpSockets sock).port dstPort data len := by
      refine @layout_of_frame dstMac a.mac _ _ _ _ _ _ _ fun k hk => ?_
      rw [hpkt k (by simpa using hk)]
      simp
    have hsocket := netRecvFrame_socket (hlayout.received hlen) hlen hmatch
    simp only [List.length_map, List.length_range]
    have hfind : (List.range udpMaxSockets).find? (fun i =>
        (b.udpSockets i).bound && (b.udpSockets i).port.toNat = dstPort.toNat) = some i := hmatch
    have hi : i < udpMaxSockets := List.mem_range.mp (List.mem_of_find?_eq_some hfind)
    have hbnd : (b.udpSockets i).bound = true := by
      have hfound := List.find?_some hfind
      simp only [Bool.and_eq_true] at hfound
      exact hfound.1
    refine ⟨by rw [hsocket], by rw [hsocket], ?_⟩
    unfold udpRecv
    rw [if_neg (by unfold udpMaxSockets at *; omega)]
    simp only [Int.toNat_natCast, hsocket, hbnd, Bool.true_eq_false, false_or]
    rw [if_neg (by omega), if_neg (by omega), Option.map_some]
    refine congrArg some (List.map_congr_left fun k hk => ?_)
    have hklt := List.mem_range.mp hk
    rw [memcpy, if_pos ⟨Nat.zero_le k, by omega⟩, Nat.sub_zero]
    exact (hlayout.received hlen).payload k hklt

namespace TwoHosts

/-- 192.168.1.100 with one socket, on port 7. -/
def receiver : Host where
  mac := fun _ => 2
  ip := 0x6401A8C0
  arpCache := fun _ => { ip := 0, mac := fun _ => 0, valid := false, age := 0 }
  arpClock := 0
  udpSockets := fun i =>
    { bound := i = 0, port := 7, srcIp := 0, srcPort := 0, data := fun _ => 0, dataLen := 0 }
  pingOutstanding := false
  pingReplyReceived := false

/-- 192.168.1.1 with a socket on port 9, which knows the other's address. -/
def sender : Host where
  mac := fun _ => 4
  ip := 0x0101A8C0
  arpCache := fun i => { ip := 0x6401A8C0, mac := fun _ => 2, valid := i = 0, age := 0 }
  arpClock := 0
  udpSockets := fun i =>
    { bound := i = 0, port := 9, srcIp := 0, srcPort := 0, data := fun _ => 0, dataLen := 0 }
  pingOutstanding := false
  pingReplyReceived := false

theorem three_bytes_arrive :
    ∃ frame, (udpSend (0 : Nat) receiver.ip 7 (fun _ => 0x41) 3 { host := sender, trace := [], sent := [] }).sent =
        [frame] ∧
      ∀ pkt : Memory, (∀ k (hk : k < frame.length), pkt k = frame[k]) →
        (udpRecv (0 : Nat) 1500 (netRecvFrame pkt frame.length receiver).host).map Prod.fst =
          some [0x41, 0x41, 0x41] := by
  obtain ⟨frame, hsent, -, hrecv⟩ :=
    @udp_roundTrip sender receiver 0 0 7 (fun _ => 2) (fun _ => 0x41) 3 1500 (by decide) rfl rfl rfl (by decide)
      (by decide) (by decide)
  exact ⟨frame, hsent, fun pkt hpkt => (hrecv pkt hpkt).2.2⟩

end TwoHosts

end Chicago95.Kernel.Net
