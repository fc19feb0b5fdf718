/-
Sending while the next hop is unknown.

`ipv4_send` resolves the next hop first. On a miss in the ARP cache it loops over `ethernet_poll` and `task_yield`, and
only then reads the payload it was called with. The poll may handle any frame, and so call `ipv4_send` again on the same
stack; the yield lets other tasks run. `waiting` holds, per task, the calls that are in that loop, the innermost first.

A payload is one of the two static buffers, `reply_buf` of `icmp.c` and `tx_buf` of `udp.c`, or a buffer on the caller's
stack. The ghost field `purpose` says which request or call a transmission belongs to.

Results:
- `datagrams_not_mixed`: if no echo request arrives while a reply waits, and `udp_send` is not called while a datagram
  waits, then every reply and every datagram transmitted is the one its purpose asks for, with a valid checksum;
- `waiting_datagrams_mixed`: without that, a reply carries the data of another host's request, and a datagram the ports
  and data of another call, with a checksum that does not verify.

Left out: the ARP frames this host sends, what TCP and the sockets do with a frame (their segments are sent from the
stack, `sendOwn`, at any time).
-/
import GannetOS.Net.Wire

namespace GannetOS.Net

open GannetOS.Core List

/-! ## The ARP cache -/

/-- `struct arp_entry`; address 0 is an unused slot -/
structure ArpEntry where
  ip : UInt32
  mac : List UInt8
  learnedTick : UInt32

abbrev ArpCache := Fin 16 → ArpEntry

namespace ArpCache

/-- the slot learned longest ago, the first of several -/
def oldest (cache : ArpCache) : Fin 16 :=
  (List.finRange 16).foldl (fun best i => if (cache i).learnedTick < (cache best).learnedTick then i else best) 0

/-- the slot `cache_learn` takes: the address's own, else a free one, else the oldest -/
def slotFor (cache : ArpCache) (ip : UInt32) : Fin 16 :=
  (((List.finRange 16).find? fun i => (cache i).ip = ip).or
    ((List.finRange 16).find? fun i => (cache i).ip = 0)).getD cache.oldest

/-- `cache_learn` -/
def learn (cache : ArpCache) (now ip : UInt32) (mac : List UInt8) : ArpCache :=
  if ip = 0 then cache else Function.update cache (cache.slotFor ip) ⟨ip, mac, now⟩

/-- `cache_lookup` -/
def lookup (cache : ArpCache) (ip : UInt32) : Option (List UInt8) :=
  ((List.finRange 16).find? fun i => (cache i).ip = ip).map fun i => (cache i).mac

/-- `arp_handle_frame`, without the reply it may send -/
def handleFrame (cache : ArpCache) (now : UInt32) (payload srcMac : List UInt8) : ArpCache :=
  if payload.length < 28 then cache
  else if get16 payload 0 ≠ 1 ∨ get16 payload 2 ≠ 0x0800 ∨ payload.getD 4 0 ≠ 6 ∨ payload.getD 5 0 ≠ 4 then cache
  else cache.learn now (get32 payload 14) srcMac

end ArpCache

/-! ## State -/

/-- what the payload pointer of `ipv4_send` points to -/
inductive Payload
  | replyBuf
  | udpBuf
  | own (bytes : List UInt8)
deriving DecidableEq

/-- what a transmission belongs to -/
inductive Purpose
  | echo (src : UInt32) (identifier sequence : UInt16) (data : List UInt8)
  | udp (dst : UInt32) (srcPort dstPort : UInt16) (data : List UInt8)
  | other
deriving DecidableEq

/-- a call of `ipv4_send` -/
structure SendCall where
  dst : UInt32
  protocol : UInt8
  payload : Payload
  len : ℕ
  purpose : Purpose

/-- a call in the loop of `ipv4_send`, with the tick it started at -/
structure Waiting where
  call : SendCall
  start : UInt32

/-- a datagram handed to `ethernet_send` -/
structure Transmitted where
  mac : List UInt8
  dst : UInt32
  protocol : UInt8
  payload : List UInt8
  purpose : Purpose

structure NetStack where
  localIp : UInt32
  gatewayIp : UInt32
  subnetMask : UInt32
  ticks : UInt32
  cache : ArpCache
  ping : PingWait
  replyBuf : List UInt8
  udpBuf : List UInt8
  waiting : ℕ → List Waiting
  wire : List Transmitted

/-- an Ethernet frame without its destination -/
structure EthFrame where
  ethertype : UInt16
  src : List UInt8
  body : Buffer

inductive NetEvent
  | frame (task : ℕ) (f : EthFrame)
  | udpSend (task : ℕ) (dst : UInt32) (srcPort dstPort : UInt16) (data : List UInt8)
  | sendOwn (task : ℕ) (dst : UInt32) (protocol : UInt8) (payload : List UInt8)
  | resume (task : ℕ)
  | tick (n : UInt32)

/-- the host `ipv4_send` asks ARP for -/
def ipv4NextHop (localIp gatewayIp subnetMask dst : UInt32) : UInt32 :=
  if gatewayIp ≠ 0 ∧ dst &&& subnetMask ≠ localIp &&& subnetMask then gatewayIp else dst

namespace NetStack

/-- the state after `net_init`, with nothing learned -/
def init (localIp gatewayIp subnetMask : UInt32) : NetStack where
  localIp := localIp
  gatewayIp := gatewayIp
  subnetMask := subnetMask
  ticks := 0
  cache := fun _ => ⟨0, [], 0⟩
  ping := ⟨false, 0, false, 0, 0⟩
  replyBuf := List.replicate 1408 0
  udpBuf := List.replicate 1480 0
  waiting := fun _ => []
  wire := []

/-- `len` bytes at the payload pointer, as they are now -/
def bytesAt (s : NetStack) (len : ℕ) : Payload → List UInt8
  | .replyBuf => s.replyBuf.take len
  | .udpBuf => s.udpBuf.take len
  | .own bytes => bytes.take len

def nextHop (s : NetStack) (dst : UInt32) : UInt32 := ipv4NextHop s.localIp s.gatewayIp s.subnetMask dst

/-- the end of `ipv4_send`: the payload is read and handed over -/
def transmit (s : NetStack) (c : SendCall) (mac : List UInt8) : NetStack :=
  { s with wire := s.wire ++ [⟨mac, c.dst, c.protocol, s.bytesAt c.len c.payload, c.purpose⟩] }

def pushWaiting (s : NetStack) (t : ℕ) (w : Waiting) : NetStack :=
  { s with waiting := Function.update s.waiting t (w :: s.waiting t) }

def popWaiting (s : NetStack) (t : ℕ) : NetStack :=
  { s with waiting := Function.update s.waiting t (s.waiting t).tail }

/-- `ipv4_send` up to its loop -/
def ipv4Send (s : NetStack) (t : ℕ) (c : SendCall) : NetStack :=
  if 1520 < 20 + c.len then s
  else
    match s.cache.lookup (s.nextHop c.dst) with
    | some mac => s.transmit c mac
    | none => s.pushWaiting t ⟨c, s.ticks⟩

/-- the innermost waiting call of a task after `task_yield`: the timeout, then the loop condition -/
def resume (s : NetStack) (t : ℕ) : NetStack :=
  match s.waiting t with
  | [] => s
  | w :: _ =>
    if 300 < s.ticks - w.start then s.popWaiting t
    else
      match s.cache.lookup (s.nextHop w.call.dst) with
      | some mac => (s.popWaiting t).transmit w.call mac
      | none => s

def udpSend (s : NetStack) (t : ℕ) (dst : UInt32) (srcPort dstPort : UInt16) (data : List UInt8) : NetStack :=
  if 1472 < data.length then s
  else
    let datagram := udpDatagram s.localIp dst srcPort dstPort data
    { s with udpBuf := overwrite s.udpBuf 0 datagram }.ipv4Send t
      ⟨dst, 17, .udpBuf, 8 + data.length, .udp dst srcPort dstPort data⟩

/-- `icmp_handle_packet` -/
def icmpHandle (s : NetStack) (t : ℕ) (packet : List UInt8) (src : UInt32) : NetStack :=
  let r := icmpHandlePacket s.ticks s.ping packet
  match r.1 with
  | none => { s with ping := r.2 }
  | some reply =>
    { s with ping := r.2, replyBuf := overwrite s.replyBuf 0 reply }.ipv4Send t
      ⟨src, 1, .replyBuf, reply.length, .echo src (get16 packet 4) (get16 packet 6) (packet.drop 8)⟩

/-- `ethernet_poll` on a frame -/
def handleFrame (s : NetStack) (t : ℕ) (f : EthFrame) : NetStack :=
  if f.ethertype = 0x0806 then { s with cache := s.cache.handleFrame s.ticks f.body.1 f.src }
  else if f.ethertype = 0x0800 then
    match ipv4Accept s.localIp f.body with
    | none => s
    | some d => if d.protocol = 1 then s.icmpHandle t d.body.1 d.src else s
  else s

/-- one event; a task in the loop of `ipv4_send` does not call `udp_send` -/
def step (s : NetStack) : NetEvent → Unit × NetStack
  | .frame t f => ((), s.handleFrame t f)
  | .udpSend t dst srcPort dstPort data =>
    ((), if s.waiting t = [] then s.udpSend t dst srcPort dstPort data else s)
  | .sendOwn t dst protocol payload => ((), s.ipv4Send t ⟨dst, protocol, .own payload, payload.length, .other⟩)
  | .resume t => ((), s.resume t)
  | .tick n => ((), { s with ticks := s.ticks + n })

/-! ## What a transmission carries -/

/-- the datagram its purpose asks for, with a checksum that verifies -/
def Faithful (localIp : UInt32) (x : Transmitted) : Prop :=
  match x.purpose with
  | .echo src identifier sequence data =>
    x.dst = src ∧ x.protocol = 1 ∧ x.payload = icmpMessage icmpEchoReply identifier sequence data ∧
      ipv4Checksum x.payload = 0
  | .udp dst srcPort dstPort data =>
    x.dst = dst ∧ x.protocol = 17 ∧ x.payload = udpDatagram localIp dst srcPort dstPort data ∧
      ipv4ChecksumPseudo localIp dst 17 x.payload = 0
  | .other => True

/-- the buffer of a call holds what its purpose asks for -/
def Kept (s : NetStack) (c : SendCall) : Prop :=
  match c.purpose with
  | .echo src identifier sequence data =>
    c.dst = src ∧ c.protocol = 1 ∧ c.payload = .replyBuf ∧ data.length ≤ 1400 ∧
      s.replyBuf.take c.len = icmpMessage icmpEchoReply identifier sequence data
  | .udp dst srcPort dstPort data =>
    c.dst = dst ∧ c.protocol = 17 ∧ c.payload = .udpBuf ∧ data.length ≤ 1472 ∧
      s.udpBuf.take c.len = udpDatagram s.localIp dst srcPort dstPort data
  | .other => True

variable {s s' : NetStack}

/-- a call is kept by what leaves the address and its own buffer alone -/
theorem Kept.congr {c : SendCall} (h : Kept s c) (hip : s'.localIp = s.localIp)
    (hreply : c.payload = .replyBuf → s'.replyBuf = s.replyBuf) (hudp : c.payload = .udpBuf → s'.udpBuf = s.udpBuf) :
    Kept s' c := by
  unfold Kept at h ⊢
  cases hpurpose : c.purpose with
  | echo src identifier sequence data =>
    rw [hpurpose] at h
    obtain ⟨hdst, hproto, hptr, hlen, hbytes⟩ := h
    exact ⟨hdst, hproto, hptr, hlen, by rw [hreply hptr]; exact hbytes⟩
  | udp dst srcPort dstPort data =>
    rw [hpurpose] at h
    obtain ⟨hdst, hproto, hptr, hlen, hbytes⟩ := h
    exact ⟨hdst, hproto, hptr, hlen, by rw [hudp hptr, hip]; exact hbytes⟩
  | other => trivial

theorem Kept.faithful {c : SendCall} (h : Kept s c) (mac : List UInt8) :
    Faithful s.localIp ⟨mac, c.dst, c.protocol, s.bytesAt c.len c.payload, c.purpose⟩ := by
  unfold Kept at h
  unfold Faithful
  cases hpurpose : c.purpose with
  | echo src identifier sequence data =>
    rw [hpurpose] at h
    obtain ⟨hdst, hproto, hptr, hlen, hbytes⟩ := h
    simp only [hptr, bytesAt, hbytes]
    exact ⟨hdst, hproto, trivial, icmpMessage_verifies icmpEchoReply identifier sequence hlen⟩
  | udp dst srcPort dstPort data =>
    rw [hpurpose] at h
    obtain ⟨hdst, hproto, hptr, hlen, hbytes⟩ := h
    simp only [hptr, bytesAt, hbytes]
    exact ⟨hdst, hproto, trivial, udpDatagram_verifies s.localIp dst srcPort dstPort hlen⟩
  | other => trivial

/-- every call that waits is kept, and every transmission so far was faithful -/
structure Sound (ip : UInt32) (s : NetStack) : Prop where
  addr : s.localIp = ip
  waiting : ∀ t, ∀ w ∈ s.waiting t, Kept s w.call
  wire : ∀ x ∈ s.wire, Faithful ip x

namespace Sound
variable {ip : UInt32}

theorem transmit (h : Sound ip s) {c : SendCall} (hc : Kept s c) (mac : List UInt8) : Sound ip (s.transmit c mac) where
  addr := h.addr
  waiting := h.waiting
  wire x hx := by
    rcases List.mem_append.1 hx with hx | hx
    · exact h.wire x hx
    · rw [List.mem_singleton.1 hx, ← h.addr]
      exact hc.faithful mac

theorem pushWaiting (h : Sound ip s) (t : ℕ) {w : Waiting} (hw : Kept s w.call) : Sound ip (s.pushWaiting t w) where
  addr := h.addr
  waiting t' w' hw' := by
    have hold : Kept s w'.call := by
      by_cases ht : t' = t
      · subst ht
        simp only [NetStack.pushWaiting, Function.update_self] at hw'
        rcases List.mem_cons.1 hw' with rfl | hw'
        · exact hw
        · exact h.waiting t' w' hw'
      · simp only [NetStack.pushWaiting, Function.update_of_ne ht] at hw'
        exact h.waiting t' w' hw'
    exact hold.congr rfl (fun _ => rfl) fun _ => rfl
  wire := h.wire

theorem popWaiting (h : Sound ip s) (t : ℕ) : Sound ip (s.popWaiting t) where
  addr := h.addr
  waiting t' w hw := by
    have hold : w ∈ s.waiting t' := by
      by_cases ht : t' = t
      · subst ht
        simp only [NetStack.popWaiting, Function.update_self] at hw
        exact mem_of_mem_tail hw
      · simpa only [NetStack.popWaiting, Function.update_of_ne ht] using hw
    exact (h.waiting t' w hold).congr rfl (fun _ => rfl) fun _ => rfl
  wire := h.wire

theorem ipv4Send (h : Sound ip s) (t : ℕ) {c : SendCall} (hc : Kept s c) : Sound ip (s.ipv4Send t c) := by
  unfold NetStack.ipv4Send
  split_ifs
  · exact h
  · cases s.cache.lookup (s.nextHop c.dst) with
    | some mac => exact h.transmit hc mac
    | none => exact h.pushWaiting t hc

theorem resume (h : Sound ip s) (t : ℕ) : Sound ip (s.resume t) := by
  unfold NetStack.resume
  cases hwait : s.waiting t with
  | nil => exact h
  | cons w rest =>
    have hw : Kept s w.call := h.waiting t w (by rw [hwait]; exact mem_cons_self)
    dsimp only
    split_ifs
    · exact h.popWaiting t
    · cases s.cache.lookup (s.nextHop w.call.dst) with
      | some mac => exact (h.popWaiting t).transmit (hw.congr rfl (fun _ => rfl) fun _ => rfl) mac
      | none => exact h

/-- a buffer may be filled while no call waits with it -/
theorem fill (h : Sound ip s) (s' : NetStack) (hip : s'.localIp = s.localIp) (hwaiting : s'.waiting = s.waiting)
    (hwire : s'.wire = s.wire)
    (hreply : s'.replyBuf = s.replyBuf ∨ ∀ t, ∀ w ∈ s.waiting t, w.call.payload ≠ .replyBuf)
    (hudp : s'.udpBuf = s.udpBuf ∨ ∀ t, ∀ w ∈ s.waiting t, w.call.payload ≠ .udpBuf) : Sound ip s' where
  addr := hip.trans h.addr
  waiting t w hw := by
    rw [hwaiting] at hw
    exact (h.waiting t w hw).congr hip (fun hptr => hreply.resolve_right fun hno => hno t w hw hptr)
      fun hptr => hudp.resolve_right fun hno => hno t w hw hptr
  wire x hx := h.wire x (hwire ▸ hx)

end Sound

theorem take_overwrite {α : Type*} (l data : List α) {n : ℕ} (h : n = data.length) : (overwrite l 0 data).take n = data := by
  rw [overwrite, take_zero, nil_append, h]
  exact take_left

/-- the echo requests that are answered -/
structure EchoRequest (packet : List UInt8) : Prop where
  type : packet.getD 0 0 = icmpEchoRequest
  checksum : ipv4Checksum packet = 0
  length : 8 ≤ packet.length ∧ packet.length - 8 ≤ 1400

/-- a reply is built for these only, from their identifier, sequence number and data -/
theorem icmpHandlePacket_some {now : UInt32} {ping : PingWait} {packet reply : List UInt8}
    (h : (icmpHandlePacket now ping packet).1 = some reply) :
    EchoRequest packet ∧ reply = icmpMessage icmpEchoReply (get16 packet 4) (get16 packet 6) (packet.drop 8) := by
  unfold icmpHandlePacket at h
  split_ifs at h with hshort _ _ _ _ htype hsum hlong
  exact ⟨⟨not_not.1 htype, not_not.1 hsum, not_lt.1 hshort, not_lt.1 hlong⟩, (Option.some.inj h).symm⟩

/-! ## Every step and every run -/

/-- no echo request to be answered comes while a reply waits, and `udp_send` is not called while a datagram waits -/
def Unshared (s : NetStack) : NetEvent → Prop
  | .frame _ f =>
    ∀ d, f.ethertype = 0x0800 → ipv4Accept s.localIp f.body = some d → d.protocol = 1 →
      EchoRequest d.body.1 → ∀ t, ∀ w ∈ s.waiting t, w.call.payload ≠ .replyBuf
  | .udpSend .. => ∀ t, ∀ w ∈ s.waiting t, w.call.payload ≠ .udpBuf
  | _ => True

theorem Sound.icmpHandle {ip : UInt32} (h : Sound ip s) (t : ℕ) {packet : List UInt8} (src : UInt32)
    (hfree : EchoRequest packet → ∀ t, ∀ w ∈ s.waiting t, w.call.payload ≠ .replyBuf) :
    Sound ip (s.icmpHandle t packet src) := by
  unfold NetStack.icmpHandle
  dsimp only
  cases hreply : (icmpHandlePacket s.ticks s.ping packet).1 with
  | none => exact h.fill _ rfl rfl rfl (.inl rfl) (.inl rfl)
  | some reply =>
    obtain ⟨hreq, rfl⟩ := icmpHandlePacket_some hreply
    have hfilled := h.fill { s with
        ping := (icmpHandlePacket s.ticks s.ping packet).2
        replyBuf := overwrite s.replyBuf 0
          (icmpMessage icmpEchoReply (get16 packet 4) (get16 packet 6) (packet.drop 8)) }
      rfl rfl rfl (.inr (hfree hreq)) (.inl rfl)
    refine hfilled.ipv4Send t ?_
    exact ⟨rfl, rfl, rfl, length_drop ▸ hreq.length.2, take_overwrite _ _ rfl⟩

theorem Sound.step {ip : UInt32} (h : Sound ip s) {e : NetEvent} (hok : Unshared s e) : Sound ip (s.step e).2 := by
  cases e with
  | frame t f =>
    simp only [NetStack.step, NetStack.handleFrame]
    split_ifs with harp hip4
    · exact h.fill _ rfl rfl rfl (.inl rfl) (.inl rfl)
    · cases haccept : ipv4Accept s.localIp f.body with
      | none => exact h
      | some d =>
        dsimp only
        split_ifs with hproto
        · exact h.icmpHandle t d.src (hok d hip4 haccept hproto)
        · exact h
    · exact h
  | udpSend t dst srcPort dstPort data =>
    simp only [NetStack.step, NetStack.udpSend]
    split_ifs with hidle hlong
    · exact h
    · have hfilled := h.fill
        { s with udpBuf := overwrite s.udpBuf 0 (udpDatagram s.localIp dst srcPort dstPort data) }
        rfl rfl rfl (.inl rfl) (.inr hok)
      refine hfilled.ipv4Send t ?_
      exact ⟨rfl, rfl, rfl, by omega, take_overwrite _ _ (udpDatagram_length ..).symm⟩
    · exact h
  | sendOwn t dst protocol payload => exact h.ipv4Send t trivial
  | resume t => exact h.resume t
  | tick n => exact h.fill _ rfl rfl rfl (.inl rfl) (.inl rfl)

/-- **Datagrams are not mixed up while waiting for ARP.** In every run in which no echo request comes while a reply waits,
and no task calls `udp_send` while a datagram waits, every echo reply goes to the host whose request it answers, with that
request's identifier, sequence number and data, and every datagram carries the ports and data of its `udp_send`; the
checksums verify. -/
theorem datagrams_not_mixed {localIp gatewayIp subnetMask : UInt32} {tr : List (NetEvent × Unit)} {t : NetStack}
    (hrun : Run NetStack.step Unshared (init localIp gatewayIp subnetMask) tr t) :
    ∀ x ∈ t.wire, Faithful localIp x := by
  have hinit : Sound localIp (init localIp gatewayIp subnetMask) :=
    ⟨rfl, fun _ _ hw => absurd hw not_mem_nil, fun _ hx => absurd hx not_mem_nil⟩
  have h : Sound localIp t := hrun.invariant (fun _ _ hs hok => hs.step hok) hinit
  exact h.wire

/-- an echo request in an Ethernet frame -/
def echoFrame (src dst : UInt32) (identifier sequence : UInt16) (data : List UInt8)
    (h : (ipv4Datagram src dst 0 1 (icmpMessage icmpEchoRequest identifier sequence data)).length < 2 ^ 16) : EthFrame :=
  ⟨0x0800, [], ⟨ipv4Datagram src dst 0 1 (icmpMessage icmpEchoRequest identifier sequence data), h⟩⟩

/-- an ARP reply from `src` -/
def arpFrame (src : UInt32) : EthFrame :=
  ⟨0x0806, [], ⟨[0, 1, 8, 0, 6, 4, 0, 2, 0, 0, 0, 0, 0, 0] ++ be32 src ++ List.replicate 10 0, by simp [be32]⟩⟩

theorem datagrams_not_mixed_echo :
    ∃ tr t, Run NetStack.step Unshared (init 0x0A000001 0 0) tr t ∧
      t.wire.map (·.purpose) = [.echo 0x0A000002 1 1 [65]] ∧ ∀ x ∈ t.wire, Faithful 0x0A000001 x := by
  have hrun : Run NetStack.step Unshared (init 0x0A000001 0 0) [] (init 0x0A000001 0 0) := .nil _
  have hrun := hrun.snoc (.frame 0 (echoFrame 0x0A000002 0x0A000001 1 1 [65] (by decide +kernel)))
    fun _ _ _ _ _ _ _ hw => absurd hw not_mem_nil
  have hrun := hrun.snoc (.frame 0 (arpFrame 0x0A000002)) fun _ hip4 => absurd hip4 (by decide)
  have hrun := hrun.snoc (NetEvent.resume 0) trivial
  exact ⟨_, _, hrun, by decide +kernel, datagrams_not_mixed hrun⟩

/-- two hosts ping while neither is in the cache: the first is answered with the second's request. Two tasks send while
their host is not in the cache: the first datagram carries the second's ports and data, and its checksum fails -/
theorem waiting_datagrams_mixed :
    ((runOps NetStack.step (init 0x0A000001 0 0)
        [.frame 0 (echoFrame 0x0A000002 0x0A000001 1 1 [65] (by decide +kernel)),
         .frame 0 (echoFrame 0x0A000003 0x0A000001 2 2 [66] (by decide +kernel)),
         .frame 0 (arpFrame 0x0A000003), .resume 0, .frame 0 (arpFrame 0x0A000002), .resume 0]).wire.map
      fun x => (x.dst, x.purpose, x.payload)) =
      [(0x0A000003, .echo 0x0A000003 2 2 [66], icmpMessage icmpEchoReply 2 2 [66]),
       (0x0A000002, .echo 0x0A000002 1 1 [65], icmpMessage icmpEchoReply 2 2 [66])] ∧
    ((runOps NetStack.step (init 0x0A000001 0 0)
        [.udpSend 0 0x0A000002 1000 53 [65], .udpSend 1 0x0A000003 2000 69 [66],
         .frame 0 (arpFrame 0x0A000002), .resume 0]).wire.map
      fun x => (x.dst, x.purpose, x.payload)) =
      [(0x0A000002, .udp 0x0A000002 1000 53 [65], udpDatagram 0x0A000001 0x0A000003 2000 69 [66])] ∧
    ipv4ChecksumPseudo 0x0A000001 0x0A000002 17 (udpDatagram 0x0A000001 0x0A000003 2000 69 [66]) ≠ 0 := by
  refine ⟨?_, ?_, ?_⟩ <;> decide +kernel

end NetStack

end GannetOS.Net
