/-
Datagrams on the wire: what `udp_send`, `build_and_send`, the ICMP code and `ipv4_send` build, and what
`ipv4_handle_frame` and the handlers above it make of it.

A `Host` is the receiving side: the UDP sockets, the outstanding ping and the TCP table. `handleFrame` is
`ipv4_handle_frame` on the payload of an Ethernet frame, with the handler it calls. What a handler sends in turn is its
`Answer`.

Main result: `wire_round_trip`. A datagram built on one host for another, with any padding behind it, passes every check
there and is delivered with the same addresses, ports, header fields and payload. So does a UDP datagram whose computed
checksum is 0 and is sent as 0xFFFF.

Who gets the frame (ARP, the gateway) and the Ethernet header are left out; a socket's buffer is the list of the bytes
that are valid in it.
-/
import GannetOS.Net.Tcp

namespace GannetOS.Net

open List

/-! ## IPv4 -/

/-- the header `ipv4_send` fills in -/
def ipv4Header (src dst : UInt32) (id : UInt16) (protocol : UInt8) (payloadLen : ℕ) (checksum : UInt16) : List UInt8 :=
  [0x45, 0] ++ be16 (UInt16.ofNat (20 + payloadLen)) ++ be16 id ++ be16 0 ++ [64, protocol] ++ be16 checksum ++
    be32 src ++ be32 dst

def ipv4Datagram (src dst : UInt32) (id : UInt16) (protocol : UInt8) (payload : List UInt8) : List UInt8 :=
  let header := ipv4Header src dst id protocol payload.length
  header (ipv4Checksum (header 0)) ++ payload

/-- what `ipv4_send` hands to `ethernet_send` once the next hop is resolved -/
def ipv4Send (src dst : UInt32) (id : UInt16) (protocol : UInt8) (payload : List UInt8) : Option (List UInt8) :=
  if 1520 < 20 + payload.length then none else some (ipv4Datagram src dst id protocol payload)

/-- a datagram `ipv4_handle_frame` hands to a handler -/
structure Delivered where
  protocol : UInt8
  src : UInt32
  body : Buffer

/-- the checks of `ipv4_handle_frame`; `none` is a frame it drops -/
def ipv4Accept (localIp : UInt32) (frame : Buffer) : Option Delivered :=
  let versionIhl := frame.1.getD 0 0
  let totalLen := (get16 frame.1 2).toNat
  if frame.1.length < 20 then none
  else if versionIhl >>> 4 ≠ 4 ∨ versionIhl &&& (0x0F : UInt8) ≠ 5 then none
  else if ipv4Checksum (frame.1.take 20) ≠ 0 then none
  else if get32 frame.1 16 ≠ localIp then none
  else if totalLen < 20 ∨ frame.1.length < totalLen then none
  else some
    { protocol := frame.1.getD 9 0
      src := get32 frame.1 12
      body := ⟨(frame.1.drop 20).take (totalLen - 20), by
        have := frame.2
        rw [List.length_take, List.length_drop]
        omega⟩ }

/-! ## UDP -/

/-- `struct udp_socket`; `rx` is the datagram waiting, empty for none -/
structure UdpSocket where
  bound : Bool
  localPort : UInt16
  rx : List UInt8
  rxSrcIp : UInt32
  rxSrcPort : UInt16

/-- what `udp_send` writes to its `tx_buf` -/
def udpDatagram (src dst : UInt32) (srcPort dstPort : UInt16) (data : List UInt8) : List UInt8 :=
  let header (checksum : UInt16) :=
    be16 srcPort ++ be16 dstPort ++ be16 (UInt16.ofNat (8 + data.length)) ++ be16 checksum
  let checksum := ipv4ChecksumPseudo src dst 17 (header 0 ++ data)
  header (if checksum = 0 then 0xFFFF else checksum) ++ data

def udpSend (src dst : UInt32) (id srcPort dstPort : UInt16) (data : List UInt8) : Option (List UInt8) :=
  if 1472 < data.length then none else ipv4Send src dst id 17 (udpDatagram src dst srcPort dstPort data)

/-- the loop at the end of `udp_handle_packet` -/
def udpStore (sockets : Fin 8 → UdpSocket) (srcIp : UInt32) (srcPort dstPort : UInt16) (data : List UInt8) :
    Fin 8 → UdpSocket :=
  match (List.finRange 8).find? fun i => (sockets i).bound ∧ (sockets i).localPort = dstPort with
  | none => sockets
  | some i =>
    Function.update sockets i
      { sockets i with rx := data.take 1472, rxSrcIp := srcIp, rxSrcPort := srcPort }

def udpHandlePacket (localIp : UInt32) (sockets : Fin 8 → UdpSocket) (packet : List UInt8) (srcIp : UInt32) :
    Fin 8 → UdpSocket :=
  let udpLen := (get16 packet 4).toNat
  if packet.length < 8 then sockets
  else if udpLen < 8 ∨ packet.length < udpLen then sockets
  else if get16 packet 6 ≠ 0 ∧ ipv4ChecksumPseudo srcIp localIp 17 (packet.take udpLen) ≠ 0 then sockets
  else udpStore sockets srcIp (get16 packet 0) (get16 packet 2) ((packet.drop 8).take (udpLen - 8))

theorem socket_lt {handle : ℤ} (h : 0 ≤ handle ∧ handle < 8) : handle.toNat < 8 := by omega

/-- `udp_socket_recv`: the bytes copied out, whose number it returns, with the sender, and the sockets afterwards -/
def udpSocketRecv (sockets : Fin 8 → UdpSocket) (handle : ℤ) (bufLen : UInt16) :
    Option (List UInt8 × UInt32 × UInt16) × (Fin 8 → UdpSocket) :=
  if h : 0 ≤ handle ∧ handle < 8 then
    let i : Fin 8 := ⟨handle.toNat, socket_lt h⟩
    let sock := sockets i
    if sock.bound = false ∨ sock.rx = [] then (none, sockets)
    else
      (some (sock.rx.take bufLen.toNat, sock.rxSrcIp, sock.rxSrcPort), Function.update sockets i { sock with rx := [] })
  else (none, sockets)

/-! ## ICMP -/

/-- `struct ping_wait` -/
structure PingWait where
  active : Bool
  seq : UInt16
  gotReply : Bool
  sentTick : UInt32
  rttTicks : UInt32

def icmpEchoReply : UInt8 := 0
def icmpEchoRequest : UInt8 := 8
def icmpPingIdentifier : UInt16 := 0xC0DE

/-- an echo message, as `icmp_ping` and `icmp_handle_packet` build it -/
def icmpMessage (type : UInt8) (identifier sequence : UInt16) (data : List UInt8) : List UInt8 :=
  let header (checksum : UInt16) := [type, 0] ++ be16 checksum ++ be16 identifier ++ be16 sequence
  header (ipv4Checksum (header 0 ++ data)) ++ data

/-- `icmp_handle_packet`: the reply it gives `ipv4_send`, if any, and the outstanding ping afterwards -/
def icmpHandlePacket (now : UInt32) (ping : PingWait) (packet : List UInt8) : Option (List UInt8) × PingWait :=
  if packet.length < 8 then (none, ping)
  else if packet.getD 0 0 = icmpEchoReply then
    if ping.active = false then (none, ping)
    else if get16 packet 4 ≠ icmpPingIdentifier ∨ get16 packet 6 ≠ ping.seq then (none, ping)
    else if ipv4Checksum packet ≠ 0 then (none, ping)
    else (none, { ping with gotReply := true, rttTicks := now - ping.sentTick })
  else if packet.getD 0 0 ≠ icmpEchoRequest then (none, ping)
  else if ipv4Checksum packet ≠ 0 then (none, ping)
  else if 1400 < packet.length - 8 then (none, ping)
  else (some (icmpMessage icmpEchoReply (get16 packet 4) (get16 packet 6) (packet.drop 8)), ping)

/-! ## The host -/

structure Host where
  sockets : Fin 8 → UdpSocket
  ping : PingWait
  tcp : Tcp

/-- what a frame makes the host send -/
inductive Answer
  | nothing
  | echo (dst : UInt32) (payload : List UInt8)
  | tcp (res : TcpRes)

/-- `ipv4_handle_frame` -/
def Host.handleFrame (h : Host) (frame : Buffer) : Answer × Host :=
  match ipv4Accept h.tcp.localIp frame with
  | none => (.nothing, h)
  | some d =>
    if d.protocol = 1 then
      let r := icmpHandlePacket h.tcp.ticks h.ping d.body.1
      (r.1.elim .nothing (.echo d.src), { h with ping := r.2 })
    else if d.protocol = 17 then
      (.nothing, { h with sockets := udpHandlePacket h.tcp.localIp h.sockets d.body.1 d.src })
    else if d.protocol = 6 then
      let r := h.tcp.handlePacket d.body d.src
      (.tcp r.1, { h with tcp := r.2 })
    else (.nothing, h)

/-! ## Decoding what was encoded -/

theorem ipv4Header_length (src dst : UInt32) (id : UInt16) (protocol : UInt8) (n : ℕ) (c : UInt16) :
    (ipv4Header src dst id protocol n c).length = 20 := rfl

/-- the header around its checksum field -/
theorem ipv4Header_field (src dst : UInt32) (id : UInt16) (protocol : UInt8) (n : ℕ) (c : UInt16) :
    ipv4Header src dst id protocol n c =
      ([0x45, 0] ++ be16 (UInt16.ofNat (20 + n)) ++ be16 id ++ be16 0 ++ [64, protocol]) ++ be16 c ++
        (be32 src ++ be32 dst) := by
  simp only [ipv4Header, append_assoc]

theorem ipv4Header_verifies (src dst : UInt32) (id : UInt16) (protocol : UInt8) (n : ℕ) :
    ipv4Checksum (ipv4Header src dst id protocol n (ipv4Checksum (ipv4Header src dst id protocol n 0))) = 0 := by
  rw [ipv4Header_field, ipv4Header_field]
  exact ipv4Checksum_insert (by simp [be16]) (by simp [be16, be32])

/-- **A datagram is accepted with its protocol, source and payload**, whatever follows it in the frame. -/
theorem ipv4Accept_datagram (src dst : UInt32) (id : UInt16) (protocol : UInt8) (payload : Buffer)
    (hlen : 20 + payload.1.length < 2 ^ 16) (pad : List UInt8)
    (hframe : (ipv4Datagram src dst id protocol payload.1 ++ pad).length < 2 ^ 16) :
    ipv4Accept dst ⟨ipv4Datagram src dst id protocol payload.1 ++ pad, hframe⟩ = some ⟨protocol, src, payload⟩ := by
  set c := ipv4Checksum (ipv4Header src dst id protocol payload.1.length 0) with hc
  have hheader : ipv4Datagram src dst id protocol payload.1 ++ pad =
      ipv4Header src dst id protocol payload.1.length c ++ (payload.1 ++ pad) := by
    rw [ipv4Datagram, ← hc, append_assoc]
  have htake : (ipv4Datagram src dst id protocol payload.1 ++ pad).take 20 =
      ipv4Header src dst id protocol payload.1.length c := by
    rw [hheader]
    exact take_left' (ipv4Header_length ..)
  have hdrop : (ipv4Datagram src dst id protocol payload.1 ++ pad).drop 20 = payload.1 ++ pad := by
    rw [hheader]
    exact drop_left' (ipv4Header_length ..)
  have htotal : (get16 (ipv4Datagram src dst id protocol payload.1 ++ pad) 2).toNat = 20 + payload.1.length := by
    have hget : get16 (ipv4Datagram src dst id protocol payload.1 ++ pad) 2 = UInt16.ofNat (20 + payload.1.length) :=
      be16_join _
    rw [hget, UInt16.toNat_ofNat', Nat.mod_eq_of_lt hlen]
  have hsrc : get32 (ipv4Datagram src dst id protocol payload.1 ++ pad) 12 = src := by
    rw [hheader, ipv4Header_field, append_assoc, append_assoc, ← append_assoc,
      get32_append _ (by simp [be16])]
    exact get32_be32 src _
  have hdst : get32 (ipv4Datagram src dst id protocol payload.1 ++ pad) 16 = dst := by
    rw [hheader, ipv4Header, append_assoc, get32_append _ (by simp [be16, be32])]
    exact get32_be32 dst _
  have hframelen : (ipv4Datagram src dst id protocol payload.1 ++ pad).length = 20 + payload.1.length + pad.length := by
    rw [hheader, length_append, ipv4Header_length, length_append]
    omega
  have hverify : ipv4Checksum (ipv4Header src dst id protocol payload.1.length c) = 0 := ipv4Header_verifies ..
  have hversion : (ipv4Datagram src dst id protocol payload.1 ++ pad).getD 0 0 = 0x45 := rfl
  have hprotocol : (ipv4Datagram src dst id protocol payload.1 ++ pad).getD 9 0 = protocol := rfl
  simp only [ipv4Accept, htake, htotal, hsrc, hdst, hverify, hversion, hprotocol]
  rw [if_neg (by omega), if_neg (by decide), if_neg (by simp), if_neg (by simp), if_neg (by omega)]
  refine congrArg some ?_
  congr 1
  apply Subtype.ext
  show ((ipv4Datagram src dst id protocol payload.1 ++ pad).drop 20).take (20 + payload.1.length - 20) = payload.1
  rw [hdrop, Nat.add_sub_cancel_left]
  exact take_left

/-- what `ipv4_send` sends is accepted -/
theorem ipv4Send_accepted (src dst : UInt32) (id : UInt16) (protocol : UInt8) (pad : List UInt8) {payload : List UInt8}
    (h : payload.length ≤ 1500) :
    ∃ frame, ipv4Send src dst id protocol payload = some frame ∧
      ∀ hlen, ipv4Accept dst ⟨frame ++ pad, hlen⟩ = some ⟨protocol, src, ⟨payload, by omega⟩⟩ := by
  refine ⟨ipv4Datagram src dst id protocol payload, by rw [ipv4Send, if_neg (by omega)], fun hlen => ?_⟩
  exact ipv4Accept_datagram src dst id protocol ⟨payload, by omega⟩ (by simp only; omega) pad hlen

theorem udpDatagram_length (src dst : UInt32) (srcPort dstPort : UInt16) (data : List UInt8) :
    (udpDatagram src dst srcPort dstPort data).length = 8 + data.length := by
  simp [udpDatagram, be16]
  omega

variable {data : List UInt8}

/-- the datagram verifies, also where the computed checksum is 0 and 0xFFFF is sent -/
theorem udpDatagram_verifies (src dst : UInt32) (srcPort dstPort : UInt16) (hlen : data.length ≤ 1472) :
    ipv4ChecksumPseudo src dst 17 (udpDatagram src dst srcPort dstPort data) = 0 := by
  refine ipv4ChecksumPseudo_insert (a := be16 srcPort ++ be16 dstPort ++ be16 (UInt16.ofNat (8 + data.length)))
    (by simp [be16]) (by simp [be16]; omega) ?_
  by_cases hzero : ipv4ChecksumPseudo src dst 17
      (be16 srcPort ++ be16 dstPort ++ be16 (UInt16.ofNat (8 + data.length)) ++ be16 0 ++ data) = 0
  · rw [if_pos hzero]
    exact .inr ⟨hzero, rfl⟩
  · rw [if_neg hzero]
    exact .inl rfl

theorem udpHandlePacket_datagram {src dst : UInt32} (sockets : Fin 8 → UdpSocket) (srcPort dstPort : UInt16)
    (hlen : data.length ≤ 1472) :
    udpHandlePacket dst sockets (udpDatagram src dst srcPort dstPort data) src =
      udpStore sockets src srcPort dstPort data := by
  have hlength := udpDatagram_length src dst srcPort dstPort data
  have hverify := udpDatagram_verifies src dst srcPort dstPort hlen
  have hsrc : get16 (udpDatagram src dst srcPort dstPort data) 0 = srcPort := be16_join _
  have hdst : get16 (udpDatagram src dst srcPort dstPort data) 2 = dstPort := be16_join _
  have hudp : (get16 (udpDatagram src dst srcPort dstPort data) 4).toNat = 8 + data.length := by
    have hget : get16 (udpDatagram src dst srcPort dstPort data) 4 = UInt16.ofNat (8 + data.length) := be16_join _
    rw [hget, UInt16.toNat_ofNat', Nat.mod_eq_of_lt (by omega)]
  have hall : (udpDatagram src dst srcPort dstPort data).take (8 + data.length) =
      udpDatagram src dst srcPort dstPort data := take_of_length_le hlength.le
  have hdrop : (udpDatagram src dst srcPort dstPort data).drop 8 = data := drop_left' (by simp [be16])
  simp only [udpHandlePacket, hsrc, hdst, hudp, hall, hdrop, hverify]
  rw [if_neg (by omega), if_neg (by omega), if_neg (by simp), Nat.add_sub_cancel_left, take_length]

theorem encode_length (src dst : UInt32) (seg : Segment) : (seg.encode src dst).length = 20 + seg.data.length := by
  simp [Segment.encode, be16, be32]
  omega

theorem encode_verifies (src dst : UInt32) {seg : Segment} (hlen : seg.data.length ≤ 536) :
    ipv4ChecksumPseudo src dst 6 (seg.encode src dst) = 0 := by
  have hfield : ∀ c : UInt16, be16 seg.srcPort ++ be16 seg.dstPort ++ be32 seg.seq ++ be32 seg.ack ++
      [0x50, seg.flags] ++ be16 seg.window ++ be16 c ++ be16 0 ++ seg.data =
      (be16 seg.srcPort ++ be16 seg.dstPort ++ be32 seg.seq ++ be32 seg.ack ++ [0x50, seg.flags] ++ be16 seg.window) ++
        be16 c ++ (be16 0 ++ seg.data) := fun c => by simp only [append_assoc]
  simp only [Segment.encode, hfield]
  exact ipv4ChecksumPseudo_insert (by simp [be16, be32]) (by simp [be16, be32]; omega) (.inl rfl)

/-- `tcp_handle_packet` reads back the segment that was built -/
theorem parseSegment_encode (src dst : UInt32) {seg : Segment} (hlen : seg.data.length ≤ 536) :
    parseSegment dst (seg.encode src dst) src = some seg := by
  have hlength := encode_length src dst seg
  have hverify := encode_verifies src dst hlen
  have hoffset : (((seg.encode src dst).getD 12 0 >>> 4) &&& (0x0F : UInt8)).toNat * 4 = 20 := by
    have hbyte : (seg.encode src dst).getD 12 0 = 0x50 := rfl
    rw [hbyte]
    decide
  have hseq : get32 (seg.encode src dst) 4 = seg.seq := get32_be32 seg.seq []
  have hack : get32 (seg.encode src dst) 8 = seg.ack := get32_be32 seg.ack []
  have hsrc : get16 (seg.encode src dst) 0 = seg.srcPort := be16_join _
  have hdst : get16 (seg.encode src dst) 2 = seg.dstPort := be16_join _
  have hwindow : get16 (seg.encode src dst) 14 = seg.window := be16_join _
  have hflags : (seg.encode src dst).getD 13 0 = seg.flags := rfl
  have hdata : (seg.encode src dst).drop 20 = seg.data := drop_left' (by simp [be16, be32])
  simp only [parseSegment, hoffset, hverify, hseq, hack, hsrc, hdst, hwindow, hflags, hdata]
  rw [if_neg (by omega), if_neg (by omega), if_neg (by simp)]

theorem icmpMessage_length (type : UInt8) (id seq : UInt16) (data : List UInt8) :
    (icmpMessage type id seq data).length = 8 + data.length := by
  simp [icmpMessage, be16]
  omega

theorem icmpMessage_verifies (type : UInt8) (id seq : UInt16) (hlen : data.length ≤ 1400) :
    ipv4Checksum (icmpMessage type id seq data) = 0 := by
  have hfield : ∀ c : UInt16, [type, 0] ++ be16 c ++ be16 id ++ be16 seq ++ data =
      [type, 0] ++ be16 c ++ (be16 id ++ be16 seq ++ data) := fun c => by simp only [append_assoc]
  simp only [icmpMessage, hfield]
  exact ipv4Checksum_insert (by simp) (by simp [be16]; omega)

/-- a request is answered with its identifier, sequence number and data -/
theorem icmpHandlePacket_request (now : UInt32) (ping : PingWait) (id seq : UInt16) (hlen : data.length ≤ 1400) :
    icmpHandlePacket now ping (icmpMessage icmpEchoRequest id seq data) =
      (some (icmpMessage icmpEchoReply id seq data), ping) := by
  have hlength := icmpMessage_length icmpEchoRequest id seq data
  have hverify := icmpMessage_verifies icmpEchoRequest id seq hlen
  have htype : (icmpMessage icmpEchoRequest id seq data).getD 0 0 = icmpEchoRequest := rfl
  have hid : get16 (icmpMessage icmpEchoRequest id seq data) 4 = id := be16_join _
  have hseq : get16 (icmpMessage icmpEchoRequest id seq data) 6 = seq := be16_join _
  have hdata : (icmpMessage icmpEchoRequest id seq data).drop 8 = data := drop_left' (by simp [be16])
  simp only [icmpHandlePacket, hverify, htype, hid, hseq, hdata]
  rw [if_neg (by omega), if_neg (by decide), if_neg (by simp), if_neg (by simp), if_neg (by omega)]

/-- a reply ends the ping that waits for its identifier and sequence number, and no other -/
theorem icmpHandlePacket_reply (now : UInt32) (ping : PingWait) (id seq : UInt16) (hlen : data.length ≤ 1400) :
    icmpHandlePacket now ping (icmpMessage icmpEchoReply id seq data) =
      (none, if ping.active = true ∧ id = icmpPingIdentifier ∧ seq = ping.seq then
          { ping with gotReply := true, rttTicks := now - ping.sentTick }
        else ping) := by
  have hlength := icmpMessage_length icmpEchoReply id seq data
  have hverify := icmpMessage_verifies icmpEchoReply id seq hlen
  have htype : (icmpMessage icmpEchoReply id seq data).getD 0 0 = icmpEchoReply := rfl
  have hid : get16 (icmpMessage icmpEchoReply id seq data) 4 = id := be16_join _
  have hseq : get16 (icmpMessage icmpEchoReply id seq data) 6 = seq := be16_join _
  simp only [icmpHandlePacket, hverify, htype, hid, hseq]
  rw [if_neg (by omega), if_pos trivial]
  by_cases hactive : ping.active = true
  · by_cases hmatch : id = icmpPingIdentifier ∧ seq = ping.seq
    · rw [if_neg (by simp [hactive]), if_neg (by simp [hmatch]), if_neg (by simp), if_pos ⟨hactive, hmatch⟩]
    · rw [if_neg (by simp [hactive]), if_pos (by rwa [← not_and_or]), if_neg fun h => hmatch h.2]
  · rw [if_pos (by simpa using hactive), if_neg fun h => hactive h.1]

/-! ## The round trip -/

/-- the socket `udp_handle_packet` picks hands the datagram out as it was sent -/
theorem udpSocketRecv_store {sockets : Fin 8 → UdpSocket} {src : UInt32} {srcPort dstPort : UInt16}
    (hne : data ≠ []) (hlen : data.length ≤ 1472) {i : Fin 8}
    (hfind : ((List.finRange 8).find? fun i => (sockets i).bound ∧ (sockets i).localPort = dstPort) = some i) :
    (udpSocketRecv (udpStore sockets src srcPort dstPort data) i 1472).1 = some (data, src, srcPort) := by
  have hbound : (sockets i).bound = true := by
    have hpick := find?_some hfind
    simp only [decide_eq_true_eq] at hpick
    exact hpick.1
  have hi : 0 ≤ ((i : ℕ) : ℤ) ∧ ((i : ℕ) : ℤ) < 8 := ⟨by omega, by omega⟩
  have hself : (⟨((i : ℕ) : ℤ).toNat, by omega⟩ : Fin 8) = i := Fin.ext (by simp)
  have hcut : data.take 1472 = data := take_of_length_le hlen
  simp only [udpSocketRecv, dif_pos hi, udpStore, hfind, hself, Function.update_self, hcut]
  rw [if_neg (by simp [hbound, hne])]
  exact congrArg some (by rw [show (1472 : UInt16).toNat = 1472 from rfl, hcut])

/-- **Wire round trip.** What a host with address `src` builds for the address of `host`, with any padding behind it,
passes every check there and arrives as it was sent.
- UDP, 1 to 1472 bytes: the socket bound to the port holds the data with the sender's address and port, and hands it out.
- TCP, up to 536 bytes: the segment `tcp_handle_packet` goes on with is the one that was built.
- ICMP, up to 1400 bytes: a request is answered with its identifier, sequence number and data; a reply ends the ping it
  belongs to. -/
theorem wire_round_trip (host : Host) (src : UInt32) (id : UInt16) (pad : List UInt8) :
    (∀ (srcPort dstPort : UInt16) (data : List UInt8), 1 ≤ data.length → data.length ≤ 1472 →
      ∃ frame, udpSend src host.tcp.localIp id srcPort dstPort data = some frame ∧
        ∀ hlen, host.handleFrame ⟨frame ++ pad, hlen⟩ =
            (.nothing, { host with sockets := udpStore host.sockets src srcPort dstPort data }) ∧
          ∀ i, ((List.finRange 8).find? fun i => (host.sockets i).bound ∧ (host.sockets i).localPort = dstPort) = some i →
            (udpSocketRecv (udpStore host.sockets src srcPort dstPort data) i 1472).1 = some (data, src, srcPort)) ∧
    (∀ seg : Segment, seg.data.length ≤ 536 →
      ∃ frame, ipv4Send src host.tcp.localIp id 6 (seg.encode src host.tcp.localIp) = some frame ∧
        ∀ hlen, host.handleFrame ⟨frame ++ pad, hlen⟩ =
          (.tcp (host.tcp.handleSegment src seg).1, { host with tcp := (host.tcp.handleSegment src seg).2 })) ∧
    (∀ (identifier sequence : UInt16) (data : List UInt8), data.length ≤ 1400 →
      (∃ frame, ipv4Send src host.tcp.localIp id 1 (icmpMessage icmpEchoRequest identifier sequence data) = some frame ∧
        ∀ hlen, host.handleFrame ⟨frame ++ pad, hlen⟩ =
          (.echo src (icmpMessage icmpEchoReply identifier sequence data), host)) ∧
      ∃ frame, ipv4Send src host.tcp.localIp id 1 (icmpMessage icmpEchoReply identifier sequence data) = some frame ∧
        ∀ hlen, host.handleFrame ⟨frame ++ pad, hlen⟩ =
          (.nothing, { host with
            ping :=
              if host.ping.active = true ∧ identifier = icmpPingIdentifier ∧ sequence = host.ping.seq then
                { host.ping with gotReply := true, rttTicks := host.tcp.ticks - host.ping.sentTick }
              else host.ping })) := by
  refine ⟨fun srcPort dstPort data hpos hmax => ?_, fun seg hmax => ?_, fun identifier sequence data hmax => ⟨?_, ?_⟩⟩
  · obtain ⟨frame, hframe, haccept⟩ := ipv4Send_accepted src host.tcp.localIp id 17 pad
      (by rw [udpDatagram_length src host.tcp.localIp srcPort dstPort data]; omega)
    refine ⟨frame, by rw [udpSend, if_neg (by omega), hframe], fun hlen => ⟨?_, fun i hi => ?_⟩⟩
    · simp only [Host.handleFrame, haccept]
      rw [if_neg (by decide), if_pos trivial, udpHandlePacket_datagram host.sockets srcPort dstPort hmax]
    · exact udpSocketRecv_store (ne_nil_of_length_pos hpos) hmax hi
  · obtain ⟨frame, hframe, haccept⟩ := ipv4Send_accepted src host.tcp.localIp id 6 pad
      (by rw [encode_length src host.tcp.localIp seg]; omega)
    refine ⟨frame, hframe, fun hlen => ?_⟩
    simp only [Host.handleFrame, haccept]
    rw [if_neg (by decide), if_neg (by decide), if_pos trivial]
    simp only [Tcp.handlePacket, parseSegment_encode src host.tcp.localIp hmax]
  · obtain ⟨frame, hframe, haccept⟩ := ipv4Send_accepted src host.tcp.localIp id 1 pad
      (by rw [icmpMessage_length icmpEchoRequest identifier sequence data]; omega)
    refine ⟨frame, hframe, fun hlen => ?_⟩
    simp only [Host.handleFrame, haccept]
    rw [if_pos trivial, icmpHandlePacket_request host.tcp.ticks host.ping identifier sequence hmax]
    rfl
  · obtain ⟨frame, hframe, haccept⟩ := ipv4Send_accepted src host.tcp.localIp id 1 pad
      (by rw [icmpMessage_length icmpEchoReply identifier sequence data]; omega)
    refine ⟨frame, hframe, fun hlen => ?_⟩
    simp only [Host.handleFrame, haccept]
    rw [if_pos trivial, icmpHandlePacket_reply host.tcp.ticks host.ping identifier sequence hmax]
    rfl

/-- a host with one socket, bound to port 7 -/
def echoHost : Host where
  sockets := fun i => ⟨i = 0, 7, [], 0, 0⟩
  ping := ⟨false, 0, false, 0, 0⟩
  tcp := Tcp.init 0x0A00020F

/-- one byte to port 7, in a frame with two bytes of padding -/
theorem wire_round_trip_byte :
    ∃ frame, udpSend 0x0A000202 0x0A00020F 1 5000 7 [65] = some frame ∧
      ∀ hlen, (udpSocketRecv (echoHost.handleFrame ⟨frame ++ [0, 0], hlen⟩).2.sockets 0 1472).1 =
        some ([65], 0x0A000202, 5000) := by
  obtain ⟨frame, hframe, hhandle⟩ :=
    (wire_round_trip echoHost 0x0A000202 1 [0, 0]).1 5000 7 [65] (by decide) (by decide)
  refine ⟨frame, hframe, fun hlen => ?_⟩
  obtain ⟨hstored, hrecv⟩ := hhandle hlen
  rw [hstored]
  exact hrecv 0 (by decide)

end GannetOS.Net
