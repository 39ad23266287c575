/-
# Chicago95.Kernel.Net — the kernel's network stack: Ethernet, ARP, IPv4, UDP and ICMP.

A frame is the memory from its first byte on and a length; nothing keeps a handler from reading past it. What a handler
does is a `Run`: the host after it, every place of the frame that it has read and of its own buffers that it has written,
and the frames it has sent. Where a write is beside its buffer the run goes on as if there had been room, so `Run.Ok` is
what says that none was. The buffers on the stack start out as zeros; no byte of them is sent that was not written.
-/
import Chicago95.Lib.InternetSum

namespace Chicago95.Kernel.Net

open Chicago95.Lib.Loop Chicago95.Lib.InternetSum

/-! ## The host -/

def arpCacheSize : Nat := 32
def udpMaxSockets : Nat := 16

/-- `arp_entry_t`; the address is the first six bytes of `mac`. -/
structure ArpEntry where
  ip : UInt32
  mac : Memory
  valid : Bool
  age : UInt32

/-- `udp_socket_t`. -/
structure UdpSocket where
  bound : Bool
  port : UInt16
  srcIp : UInt32
  srcPort : UInt16
  data : Memory
  dataLen : Nat

/-- The state of the stack. -/
structure Host where
  mac : Memory
  ip : UInt32
  arpCache : Nat → ArpEntry
  arpClock : UInt32
  udpSockets : Nat → UdpSocket
  pingOutstanding : Bool
  pingReplyReceived : Bool

/-- The buffers that the handlers write. -/
inductive Buffer where
  | arpEntry (i : Nat)
  | arpReply
  | arpRequest
  | icmpReply
  | udpPacket
  | ipHeader
  | fullPacket
  | frame
  | socket (i : Nat)
  deriving DecidableEq

def Buffer.size : Buffer → Nat
  | arpEntry _ => 6
  | arpReply => 42
  | arpRequest => 28
  | icmpReply => 1500
  | udpPacket => 1500
  | ipHeader => 20
  | fullPacket => 1500
  | frame => 1600
  | socket _ => 1500

/-- A read of the frame, or a write of a buffer. -/
inductive Access where
  | read (off n : Nat)
  | write (b : Buffer) (off n : Nat)
  deriving DecidableEq

/-- The access is inside a frame of `len` bytes, or inside the buffer. -/
def Access.Inside (len : Nat) : Access → Prop
  | read off n => n = 0 ∨ off + n ≤ len
  | write b off n => n = 0 ∨ off + n ≤ b.size

structure Run where
  host : Host
  trace : List Access
  sent : List (List UInt8)

namespace Run

def read (off n : Nat) (r : Run) : Run := { r with trace := r.trace ++ [.read off n] }

def write (b : Buffer) (off n : Nat) (r : Run) : Run := { r with trace := r.trace ++ [.write b off n] }

/-- `e1000_send`. -/
def send (frame : Memory) (n : Nat) (r : Run) : Run := { r with sent := r.sent ++ [(List.range n).map frame] }

@[simp] theorem read_host (off n : Nat) (r : Run) : (r.read off n).host = r.host := rfl

@[simp] theorem write_host (b : Buffer) (off n : Nat) (r : Run) : (r.write b off n).host = r.host := rfl

@[simp] theorem send_host (frame : Memory) (n : Nat) (r : Run) : (r.send frame n).host = r.host := rfl

end Run

/-- The first index below `n` for which a loop returns or stops. -/
def firstBelow (n : Nat) (p : Nat → Bool) : Option Nat := (List.range n).find? p

/-! ## Ethernet -/

/-- `net_eth_send`, without the code it returns. -/
def netEthSend (dst : Memory) (etherType : Nat) (data : Memory) (len : Nat) (r : Run) : Run :=
  if (len + 14) % 2 ^ 32 > 1600 then r
  else
    let frame := memcpy (fun _ => 0) 0 dst 6
    let frame := memcpy frame 6 r.host.mac 6
    let frame := putBe16 frame 12 etherType
    let frame := memcpy frame 14 data len
    ((((r.write .frame 0 6).write .frame 6 6).write .frame 12 2).write .frame 14 len).send frame
      ((len + 14) % 2 ^ 32)

/-! ## ARP -/

/-- The entry that `arp_cache_add` replaces: the first that is not valid, else the first of the oldest below `~0U`. -/
def oldestEntry (cache : Nat → ArpEntry) : Nat :=
  match firstBelow arpCacheSize fun i => !(cache i).valid with
  | some i => i
  | none =>
    (forEach arpCacheSize
      (fun i (best : Nat × UInt32) => if (cache i).age < best.2 then (i, (cache i).age) else best)
      (0, 0xFFFFFFFF)).1

def arpCacheAdd (ip : UInt32) (mac : Memory) (r : Run) : Run :=
  match firstBelow arpCacheSize fun i => (r.host.arpCache i).ip = ip with
  | some i =>
    let entry := { r.host.arpCache i with mac := memcpy (r.host.arpCache i).mac 0 mac 6, age := r.host.arpClock }
    { r.write (.arpEntry i) 0 6 with
      host := { r.host with arpCache := fun j => if j = i then entry else r.host.arpCache j } }
  | none =>
    let i := oldestEntry r.host.arpCache
    let entry : ArpEntry :=
      { ip := ip, mac := memcpy (r.host.arpCache i).mac 0 mac 6, valid := true, age := r.host.arpClock }
    { r.write (.arpEntry i) 0 6 with
      host := { r.host with arpCache := fun j => if j = i then entry else r.host.arpCache j } }

def arpLookup (h : Host) (ip : UInt32) : Option Memory :=
  (firstBelow arpCacheSize fun i => (h.arpCache i).valid && (h.arpCache i).ip = ip).map fun i => (h.arpCache i).mac

/-- The 28 bytes of an ARP packet, written from `at` on. -/
def arpPacket (p : Memory) (off opcode : Nat) (senderMac : Memory) (senderIp : UInt32) (targetMac : Memory)
    (targetIp : UInt32) : Memory :=
  let p := putBe16 p off 1
  let p := putBe16 p (off + 2) 0x0800
  let p := put (put p (off + 4) 6) (off + 5) 4
  let p := putBe16 p (off + 6) opcode
  let p := memcpy p (off + 8) senderMac 6
  let p := store32 p (off + 14) senderIp
  let p := memcpy p (off + 18) targetMac 6
  store32 p (off + 24) targetIp

/-- `arp_handle_request`, the packet from `base` on. -/
def arpHandleRequest (pkt : Memory) (base len : Nat) (r : Run) : Run :=
  if len < 28 then r
  else
    let opcode := be16 pkt (base + 6)
    let senderIp := load32 pkt (base + 14)
    let senderMac : Memory := fun k => pkt (base + 8 + k)
    let r := ((r.read (base + 6) 2).read (base + 14) 4).read (base + 8) 6
    let r := arpCacheAdd senderIp senderMac r
    if opcode = 1 then
      let targetIp := load32 pkt (base + 24)
      let r := r.read (base + 24) 4
      if targetIp = r.host.ip then
        let reply := memcpy (memcpy (fun _ => 0) 0 senderMac 6) 6 r.host.mac 6
        let reply := put (put reply 12 0x08) 13 0x06
        let reply := arpPacket reply 14 2 r.host.mac r.host.ip senderMac senderIp
        let r := ((r.read (base + 8) 6).write .arpReply 0 14).write .arpReply 14 28
        netEthSend senderMac 0x0806 (fun k => reply (14 + k)) 28 r
      else r
    else r

def arpSendRequest (targetIp : UInt32) (r : Run) : Run :=
  let pkt := arpPacket (fun _ => 0) 0 1 r.host.mac r.host.ip (fun _ => 0) targetIp
  netEthSend (fun _ => 0xFF) 0x0806 pkt 28 (r.write .arpRequest 0 28)

/-! ## IPv4 -/

/-- The header that `udp_send` and `ip_send` build, without its checksum. -/
def ipHeaderBase (total protocol : Nat) (src dst : UInt32) : Memory :=
  let p := put (fun _ => 0) 0 0x45
  let p := putBe16 p 2 total
  let p := put p 6 0x40
  let p := put p 8 64
  let p := put p 9 (UInt8.ofNat protocol)
  let p := store32 p 12 src
  store32 p 16 dst

/-- The header with its checksum. -/
def ipHeader (total protocol : Nat) (src dst : UInt32) : Memory :=
  let p := ipHeaderBase total protocol src dst
  putBe16 p 10 (checksum p 20)

def ipSend (dstIp : UInt32) (protocol : Nat) (data : Memory) (len : Nat) (r : Run) : Run :=
  match arpLookup r.host dstIp with
  | none => arpSendRequest dstIp r
  | some dstMac =>
    let hdr := ipHeader ((20 + len) % 2 ^ 16) protocol r.host.ip dstIp
    let full := memcpy (memcpy (fun _ => 0) 0 hdr 20) 20 data len
    let r := ((r.write .ipHeader 0 20).write .fullPacket 0 20).write .fullPacket 20 len
    netEthSend dstMac 0x0800 full ((20 + len) % 2 ^ 32) r

/-! ## UDP -/

/-- The first socket bound to a port. -/
def matchSocket (h : Host) (port : Nat) : Option Nat :=
  firstBelow udpMaxSockets fun i => (h.udpSockets i).bound && (h.udpSockets i).port.toNat = port

/-- `udp_send`, without the code it returns; where the packet cannot be built nothing is sent. -/
def udpSend (sock : Int) (dstIp : UInt32) (dstPort : UInt16) (data : Memory) (len : Nat) (r : Run) : Run :=
  if sock < 0 ∨ sock ≥ udpMaxSockets then r
  else if (r.host.udpSockets sock.toNat).bound = false then r
  else
    match arpLookup r.host dstIp with
    | none => arpSendRequest dstIp r
    | some dstMac =>
      let srcPort := (r.host.udpSockets sock.toNat).port
      let udpLen := (8 + len) % 2 ^ 16
      let pkt := putBe16 (fun _ => 0) 0 srcPort.toNat
      let pkt := putBe16 pkt 2 dstPort.toNat
      let pkt := putBe16 pkt 4 udpLen
      let pkt := putBe16 pkt 6 0
      let pkt := memcpy pkt 8 data len
      let hdr := ipHeader ((20 + udpLen) % 2 ^ 16) 17 r.host.ip dstIp
      let full := memcpy (memcpy (fun _ => 0) 0 hdr 20) 20 pkt udpLen
      let r := ((r.write .udpPacket 0 8).write .udpPacket 8 len).write .ipHeader 0 20
      let r := (r.write .fullPacket 0 20).write .fullPacket 20 udpLen
      netEthSend dstMac 0x0800 full (20 + udpLen) r

/-- `udp_recv`: what is copied to the caller, and the host after it. -/
def udpRecv (sock : Int) (maxLen : Nat) (h : Host) : Option (List UInt8 × Host) :=
  if sock < 0 ∨ sock ≥ udpMaxSockets then none
  else
    let s := h.udpSockets sock.toNat
    if s.bound = false ∨ s.dataLen = 0 then none
    else
      let copy := if s.dataLen > maxLen then maxLen else s.dataLen
      some ((List.range copy).map s.data,
        { h with udpSockets := fun j => if j = sock.toNat then { s with dataLen := 0 } else h.udpSockets j })

/-- The bytes that `udp_handle_packet` copies, for the length in the UDP header. -/
def copyLen (segLen : Nat) : Nat :=
  let copy := (segLen + 2 ^ 32 - 8) % 2 ^ 32
  if copy > 1500 then 1500 else copy

/-- `udp_handle_packet`, the datagram from `base` on. -/
def udpHandlePacket (srcIp : UInt32) (pkt : Memory) (base len : Nat) (r : Run) : Run :=
  if len < 8 then r
  else
    let dstPort := be16 pkt (base + 2)
    let segLen := be16 pkt (base + 4)
    let r := (r.read (base + 2) 2).read (base + 4) 2
    match matchSocket r.host dstPort with
    | none => r
    | some i =>
      let copy := copyLen segLen
      let s := r.host.udpSockets i
      let s := { s with
        data := memcpy s.data 0 (fun k => pkt (base + 8 + k)) copy
        dataLen := copy
        srcIp := srcIp
        srcPort := UInt16.ofNat (be16 pkt base) }
      let r := ((r.read (base + 8) copy).write (.socket i) 0 copy).read base 2
      { r with host := { r.host with udpSockets := fun j => if j = i then s else r.host.udpSockets j } }

/-! ## ICMP -/

/-- `icmp_handle_packet`, the message from `base` on. -/
def icmpHandlePacket (srcIp : UInt32) (pkt : Memory) (base len : Nat) (r : Run) : Run :=
  if len < 8 then r
  else
    let r := r.read base 1
    if pkt base = 8 then
      let r := r.read (base + 1) 1
      if pkt (base + 1) = 0 then
        let id := be16 pkt (base + 4)
        let seq := be16 pkt (base + 6)
        let payloadLen := len - 8
        let reply := put (put (fun _ => 0) 0 0) 1 0
        let reply := putBe16 reply 2 0
        let reply := putBe16 (putBe16 reply 4 id) 6 seq
        let reply := memcpy reply 8 (fun k => pkt (base + 8 + k)) payloadLen
        let reply := putBe16 reply 2 (checksum reply (8 + payloadLen))
        let r := ((r.read (base + 4) 2).read (base + 6) 2).write .icmpReply 0 8
        let r := (r.read (base + 8) payloadLen).write .icmpReply 8 payloadLen
        ipSend srcIp 1 reply (8 + payloadLen) r
      else r
    else if pkt base = 0 then
      let r := r.read (base + 1) 1
      if pkt (base + 1) = 0 then
        { r with host := { r.host with pingReplyReceived := true, pingOutstanding := false } }
      else r
    else r

/-! ## Frames received -/

/-- `ip_handle_packet`, the packet from `base` on. -/
def ipHandlePacket (pkt : Memory) (base len : Nat) (r : Run) : Run :=
  if len < 20 then r
  else
    let r := r.read base 1
    if (pkt base).toNat / 16 ≠ 4 then r
    else
      let totalLen := be16 pkt (base + 2)
      let protocol := pkt (base + 9)
      let srcIp := load32 pkt (base + 12)
      let dstIp := load32 pkt (base + 16)
      let r := (((r.read (base + 2) 2).read (base + 9) 1).read (base + 12) 4).read (base + 16) 4
      if dstIp ≠ r.host.ip ∧ dstIp ≠ 0xFFFFFFFF then r
      else
        let ihl := (pkt base).toNat % 16 * 4
        let payloadLen := (totalLen + 2 ^ 32 - ihl) % 2 ^ 32
        if protocol = 1 then icmpHandlePacket srcIp pkt (base + ihl) payloadLen r
        else if protocol = 17 then udpHandlePacket srcIp pkt (base + ihl) payloadLen r
        else r

def netRecvFrame (pkt : Memory) (len : Nat) (h : Host) : Run :=
  let r : Run := { host := h, trace := [], sent := [] }
  if len < 14 then r
  else
    let etherType := be16 pkt 12
    let r := r.read 12 2
    if etherType = 0x0806 then arpHandleRequest pkt 14 (len - 14) r
    else if etherType = 0x0800 then ipHandlePacket pkt 14 (len - 14) r
    else r

end Chicago95.Kernel.Net
