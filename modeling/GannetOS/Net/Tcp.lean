/-
The TCP layer (`tcp.c`): four connection control blocks, one segment in flight per connection, no reassembly.

Model
- `Conn` is `struct tcp_conn`; the functions that work on one block are functions on it: `sendSegment`, `sendAck`, `poll`
  (one turn of `tcp_poll`), `recv`, and `handle`, the part of `tcp_handle_packet` after the connection is found, cut into
  its blocks `takeAck`, `takeData`, `takeFin`.
- `Tcp` is the table with the static variables of the file, the clock and the calls that are blocked in a polling loop.
- A `Sent` is one call of `build_and_send`: the block as it was then and the explicit arguments; `Sent.segment` is the
  segment it puts on the wire.
- `step` is one event: a call of the interface, an arriving packet (`ethernet_poll` handing it over), timer ticks, or a
  blocked `tcp_connect` or `tcp_send` coming back from `task_yield` (`resume`).

Premises
- A call of the interface runs without interleaving up to the polling loops of `tcp_connect` and `tcp_send`; the clock
  does not advance inside a step.
- `ipv4_send` hands every segment over at once, as it does when the next hop is in the ARP cache. `Net.TcpWait` has the
  code as it is when `ipv4_send` waits for ARP; the results about runs are stated there, with the cache in their guard.
- The polls a blocked call makes are events of their own, `arrive` and `poll`. They may come in any order and number, so
  the runs of the model include all those of the loops.
-/
import GannetOS.Core.Bytes
import GannetOS.Core.Pool
import GannetOS.Core.Ring
import GannetOS.Core.Run
import GannetOS.Net.Checksum

namespace GannetOS.Net

open GannetOS.Core

/-! ## Segments -/

def flagFin : UInt8 := 0x01
def flagSyn : UInt8 := 0x02
def flagRst : UInt8 := 0x04
def flagPsh : UInt8 := 0x08
def flagAck : UInt8 := 0x10

/-- `flags & bit` as a condition -/
def has (flags bit : UInt8) : Bool := flags &&& bit != 0

/-- the receive ring has a first cell -/
instance neZero_rxRing : NeZero 2048 := ⟨by decide⟩

/-- a byte buffer with its length in a `uint16_t` -/
abbrev Buffer := { l : List UInt8 // l.length < 2 ^ 16 }

/-- the header fields the code looks at or fills in, in host order, and the payload -/
structure Segment where
  srcPort : UInt16
  dstPort : UInt16
  seq : UInt32
  ack : UInt32
  flags : UInt8
  window : UInt16
  data : List UInt8
deriving DecidableEq, Repr

def Segment.dataLen (seg : Segment) : UInt16 := UInt16.ofNat seg.data.length

/-- the bytes `build_and_send` and `send_reset` give `ipv4_send`: a header without options, the checksum filled in last -/
def Segment.encode (srcIp dstIp : UInt32) (seg : Segment) : List UInt8 :=
  let header (checksum : UInt16) := be16 seg.srcPort ++ be16 seg.dstPort ++ be32 seg.seq ++ be32 seg.ack ++
    [0x50, seg.flags] ++ be16 seg.window ++ be16 checksum ++ be16 0
  header (ipv4ChecksumPseudo srcIp dstIp 6 (header 0 ++ seg.data)) ++ seg.data

/-- the checks and the decoding at the start of `tcp_handle_packet`; `none` is a packet it drops -/
def parseSegment (localIp : UInt32) (packet : List UInt8) (srcIp : UInt32) : Option Segment :=
  let hdrLen := ((packet.getD 12 0 >>> 4) &&& (0x0F : UInt8)).toNat * 4
  if packet.length < 20 then none
  else if hdrLen < 20 ∨ packet.length < hdrLen then none
  else if ipv4ChecksumPseudo srcIp localIp 6 packet ≠ 0 then none
  else some
    { srcPort := get16 packet 0
      dstPort := get16 packet 2
      seq := get32 packet 4
      ack := get32 packet 8
      flags := packet.getD 13 0
      window := get16 packet 14
      data := packet.drop hdrLen }

theorem parseSegment_data {ip src : UInt32} {p : Buffer} {seg : Segment} (h : parseSegment ip p.1 src = some seg) :
    seg.data.length < 2 ^ 16 := by
  have hp := p.2
  simp only [parseSegment] at h
  split_ifs at h
  obtain rfl := Option.some.inj h
  rw [List.length_drop]
  omega

/-! ## The control block -/

inductive TcpState
  | closed
  | listen
  | synSent
  | synReceived
  | established
  | finWait1
  | finWait2
  | closeWait
  | lastAck
deriving DecidableEq, Repr

/-- `struct tcp_conn`; the default values are the block `alloc_slot` leaves -/
structure Conn where
  state : TcpState := .closed
  localPort : UInt16 := 0
  remoteIp : UInt32 := 0
  remotePort : UInt16 := 0
  sendUna : UInt32 := 0
  sendNext : UInt32 := 0
  recvNext : UInt32 := 0
  unackedData : List UInt8 := List.replicate 536 0
  unackedLen : UInt16 := 0
  unackedFlags : UInt8 := 0
  lastSendTick : UInt32 := 0
  retransmitCount : UInt8 := 0
  rx : Ring UInt8 2048 := ⟨fun _ => 0, 0, 0⟩
  rxCount : UInt16 := 0
  peerFinReceived : Bool := false
  pendingAccept : Bool := false

/-- which function called `build_and_send`: `send_segment`, `send_ack` or `tcp_poll` -/
inductive Origin
  | fresh
  | ack
  | again
deriving DecidableEq, Repr

/-- a call of `build_and_send` -/
structure Sent where
  origin : Origin
  conn : Conn
  seq : UInt32
  flags : UInt8
  data : List UInt8

/-- the segment `build_and_send` fills in -/
def Sent.segment (x : Sent) : Segment :=
  { srcPort := x.conn.localPort
    dstPort := x.conn.remotePort
    seq := x.seq
    ack := if has x.flags flagAck then x.conn.recvNext else 0
    flags := x.flags
    window := 2048 - x.conn.rxCount
    data := x.data }

/-- the sequence numbers a segment consumes: its data, and one each for a SYN and a FIN -/
def seqLen (flags : UInt8) (dataLen : UInt16) : UInt32 :=
  dataLen.toUInt32 + (if has flags flagSyn then 1 else 0) + (if has flags flagFin then 1 else 0)

namespace Conn

def sendSegment (now : UInt32) (flags : UInt8) (data : List UInt8) (c : Conn) : Sent × Conn :=
  (⟨.fresh, c, c.sendNext, flags, data⟩,
    { c with
      unackedData := overwrite c.unackedData 0 data
      unackedLen := UInt16.ofNat data.length
      unackedFlags := flags
      lastSendTick := now
      retransmitCount := 0
      sendNext := c.sendNext + seqLen flags (UInt16.ofNat data.length) })

def sendAck (c : Conn) : Sent := ⟨.ack, c, c.sendNext, flagAck, []⟩

/-- the copy `tcp_poll` sends again -/
def saved (c : Conn) : List UInt8 := c.unackedData.take c.unackedLen.toNat

/-- what `tcp_poll` does with one connection -/
def poll (now : UInt32) (c : Conn) : List Sent × Conn :=
  if c.state = .closed ∨ c.state = .listen then ([], c)
  else if c.sendUna = c.sendNext then ([], c)
  else if 200 < now - c.lastSendTick then
    if 5 ≤ c.retransmitCount then ([], { c with state := .closed })
    else
      ([⟨.again, c, c.sendUna, c.unackedFlags, c.saved⟩],
        { c with lastSendTick := now, retransmitCount := c.retransmitCount + 1 })
  else ([], c)

/-- `tcp_recv` on a connection: the bytes copied out and the block afterwards -/
def recv (bufLen : UInt16) (c : Conn) : List UInt8 × Conn :=
  let n := if c.rxCount < bufLen then c.rxCount else bufLen
  ((c.rx.gets n.toNat).1, { c with rx := (c.rx.gets n.toNat).2, rxCount := c.rxCount - n })

/-- `tcp_close` on a connection -/
def close (now : UInt32) (c : Conn) : List Sent × Conn :=
  let fin := c.sendSegment now (flagFin ||| flagAck) []
  match c.state with
  | .listen | .synSent => ([], { c with state := .closed })
  | .established => ([fin.1], { fin.2 with state := .finWait1 })
  | .closeWait => ([fin.1], { fin.2 with state := .lastAck })
  | _ => ([], c)

/-! ### `tcp_handle_packet` for a known connection -/

/-- the block that processes the acknowledgement -/
def takeAck (seg : Segment) (c : Conn) : Conn :=
  if has seg.flags flagAck ∧ c.sendUna ≠ c.sendNext ∧ seg.ack = c.sendNext then
    let finWasAcked := has c.unackedFlags flagFin
    let c' := { c with sendUna := c.sendNext }
    if c.state = .synReceived then { c' with state := .established, pendingAccept := true }
    else if c.state = .finWait1 ∧ finWasAcked then
      { c' with state := if c.peerFinReceived then .closed else .finWait2 }
    else if c.state = .lastAck ∧ finWasAcked then { c' with state := .closed }
    else c'
  else c

/-- how much of the data the ring has room for -/
def acceptLen (dataLen : UInt16) (c : Conn) : UInt16 :=
  let space : UInt16 := 2048 - c.rxCount
  if dataLen < space then dataLen else space

/-- the block that buffers in-order data, as much as there is room for, and acknowledges -/
def takeData (seg : Segment) (c : Conn) : List Sent × Conn :=
  if 0 < seg.dataLen ∧ seg.seq = c.recvNext ∧
      (c.state = .established ∨ c.state = .finWait1 ∨ c.state = .finWait2) then
    let acceptLen := c.acceptLen seg.dataLen
    let c' :=
      { c with
        rx := c.rx.puts (seg.data.take acceptLen.toNat)
        rxCount := c.rxCount + acceptLen
        recvNext := c.recvNext + acceptLen.toUInt32 }
    ([c'.sendAck], c')
  else if 0 < seg.dataLen then ([c.sendAck], c)
  else ([], c)

/-- the block that consumes the peer's FIN -/
def takeFin (seg : Segment) (c : Conn) : List Sent × Conn :=
  if has seg.flags flagFin ∧ seg.seq + seg.dataLen.toUInt32 = c.recvNext then
    let c' := { c with recvNext := c.recvNext + 1, peerFinReceived := true }
    ([c'.sendAck],
      { c' with
        state :=
          match c.state with
          | .established => .closeWait
          | .finWait2 => .closed
          | st => st })
  else ([], c)

/-- `tcp_handle_packet` once `find_connection` has found the block -/
def handle (seg : Segment) (c : Conn) : List Sent × Conn :=
  if has seg.flags flagRst then ([], { c with state := .closed })
  else if c.state = .synSent then
    if has seg.flags flagSyn ∧ has seg.flags flagAck ∧ seg.ack = c.sendNext then
      let c' := { c with sendUna := c.sendNext, recvNext := seg.seq + 1, state := .established }
      ([c'.sendAck], c')
    else ([], c)
  else
    let c₁ := c.takeAck seg
    if c₁.state = .closed then ([], c₁)
    else
      let d := c₁.takeData seg
      let f := d.2.takeFin seg
      (d.1 ++ f.1, f.2)

end Conn

/-! ## The table -/

/-- a call blocked in its polling loop, with the local variables it comes back to -/
inductive Call
  | connect (c : Fin 4) (start : UInt32)
  | send (c : Fin 4) (data : List UInt8) (sent : ℕ) (start : UInt32)

/-- the connection table, the address of `ipv4.c`, the clock, the static counters of `initial_seq` and
`pick_ephemeral_port`, and the blocked calls by task -/
structure Tcp where
  conns : Fin 4 → Conn
  localIp : UInt32
  ticks : UInt32
  counter : UInt32
  nextPort : UInt16
  calls : ℕ → Option Call

/-- what a step hands to `ipv4_send`: a segment of a connection, or a reset to a segment nobody wants -/
inductive Out
  | conn (i : Fin 4) (x : Sent)
  | reset (dstIp : UInt32) (seg : Segment)

/-- the value a call returns (`none` while it is blocked), the bytes `tcp_recv` copies out, and the segments sent -/
structure TcpRes where
  ret : Option ℤ := none
  bytes : List UInt8 := []
  sent : List Out := []

inductive TcpEvent
  | listen (port : UInt16)
  | accept (handle : ℤ)
  | connect (task : ℕ) (ip : UInt32) (port : UInt16)
  | send (task : ℕ) (handle : ℤ) (data : Buffer)
  | resume (task : ℕ)
  | recv (handle : ℤ) (bufLen : UInt16)
  | close (handle : ℤ)
  | poll
  | arrive (packet : Buffer) (srcIp : UInt32)
  | tick (n : UInt32)

/-- `send_reset` in answer to a segment -/
def sendReset (srcIp : UInt32) (seg : Segment) : Out :=
  .reset srcIp
    (if has seg.flags flagAck then ⟨seg.dstPort, seg.srcPort, seg.ack, 0, flagRst, 0, []⟩
    else ⟨seg.dstPort, seg.srcPort, 0, seg.seq + seqLen seg.flags seg.dataLen, flagRst ||| flagAck, 0, []⟩)

namespace Tcp

/-- the state `tcp_init` leaves on a host with the given address -/
def init (ip : UInt32) : Tcp := ⟨fun _ => {}, ip, 0, 0, 49152, fun _ => none⟩

def setConn (s : Tcp) (i : Fin 4) (c : Conn) : Tcp := { s with conns := Function.update s.conns i c }

def setCall (s : Tcp) (t : ℕ) (k : Option Call) : Tcp := { s with calls := Function.update s.calls t k }

def findConnection (s : Tcp) (localPort : UInt16) (remoteIp : UInt32) (remotePort : UInt16) : Option (Fin 4) :=
  (List.finRange 4).find? fun i => (s.conns i).state ≠ .closed ∧ (s.conns i).state ≠ .listen ∧
    (s.conns i).localPort = localPort ∧ (s.conns i).remoteIp = remoteIp ∧ (s.conns i).remotePort = remotePort

def findListener (s : Tcp) (localPort : UInt16) : Option (Fin 4) :=
  (List.finRange 4).find? fun i => (s.conns i).state = .listen ∧ (s.conns i).localPort = localPort

/-- the slot `alloc_slot` zeroes and returns -/
def allocSlot (s : Tcp) : Option (Fin 4) := (List.finRange 4).find? fun i => (s.conns i).state = .closed

/-- the slot a handle names, if it is in range -/
def slot (handle : ℤ) : Option (Fin 4) :=
  if h : 0 ≤ handle ∧ handle < 4 then some ⟨handle.toNat, by omega⟩ else none

def getConn (s : Tcp) (handle : ℤ) : Option (Fin 4) := (slot handle).filter fun i => (s.conns i).state ≠ .closed

def initialSeq (s : Tcp) : UInt32 × Tcp := (s.ticks ^^^ (s.counter + 64000), { s with counter := s.counter + 64000 })

def pickEphemeralPort (s : Tcp) : UInt16 × Tcp :=
  (s.nextPort, { s with nextPort := if s.nextPort + 1 = 0 then 49152 else s.nextPort + 1 })

/-- `tcp_listen` -/
def listen (s : Tcp) (port : UInt16) : TcpRes × Tcp :=
  match s.findListener port, s.allocSlot with
  | none, some i => ({ ret := some i }, s.setConn i { localPort := port, state := .listen })
  | _, _ => ({ ret := some (-1) }, s)

/-- `tcp_accept` -/
def accept (s : Tcp) (handle : ℤ) : TcpRes × Tcp :=
  match (slot handle).filter fun l => (s.conns l).state = .listen with
  | none => ({ ret := some (-1) }, s)
  | some l =>
    match (List.finRange 4).find? fun i => (s.conns i).state = .established ∧ (s.conns i).pendingAccept ∧
        (s.conns i).localPort = (s.conns l).localPort with
    | none => ({ ret := some (-1) }, s)
    | some i => ({ ret := some i }, s.setConn i { s.conns i with pendingAccept := false })

/-- a block that opens a connection, with its SYN sent -/
def opened (now isn recvNext : UInt32) (localPort remotePort : UInt16) (remoteIp : UInt32) (state : TcpState)
    (flags : UInt8) : Sent × Conn :=
  Conn.sendSegment now flags []
    { state, localPort, remoteIp, remotePort, sendUna := isn, sendNext := isn, recvNext }

/-- `tcp_connect` up to its polling loop -/
def connect (s : Tcp) (t : ℕ) (ip : UInt32) (port : UInt16) : TcpRes × Tcp :=
  match s.allocSlot with
  | none => ({ ret := some (-1) }, s)
  | some i =>
    let picked := s.pickEphemeralPort
    let isn := picked.2.initialSeq
    let syn := opened s.ticks isn.1 0 picked.1 port ip .synSent flagSyn
    ({ sent := [.conn i syn.1] }, (isn.2.setConn i syn.2).setCall t (some (.connect i s.ticks)))

/-- the outer loop of `tcp_send` from its condition to its polling loop -/
def sendChunk (s : Tcp) (t : ℕ) (i : Fin 4) (data : List UInt8) (sent : ℕ) : TcpRes × Tcp :=
  if sent < data.length then
    let chunk := (s.conns i).sendSegment s.ticks (flagAck ||| flagPsh) ((data.drop sent).take 536)
    ({ sent := [.conn i chunk.1] }, (s.setConn i chunk.2).setCall t (some (.send i data sent s.ticks)))
  else ({ ret := some sent }, s.setCall t none)

/-- `tcp_send` up to its polling loop -/
def send (s : Tcp) (t : ℕ) (handle : ℤ) (data : List UInt8) : TcpRes × Tcp :=
  match (s.getConn handle).filter fun i => (s.conns i).state = .established with
  | none => ({ ret := some (-1) }, s)
  | some i => s.sendChunk t i data 0

/-- a blocked call after `task_yield`: the checks below it in the loop, then the loop condition -/
def resume (s : Tcp) (t : ℕ) : TcpRes × Tcp :=
  match s.calls t with
  | none => ({}, s)
  | some (.connect i start) =>
    if 500 < s.ticks - start then
      ({ ret := some (-1) }, (s.setConn i { s.conns i with state := .closed }).setCall t none)
    else if (s.conns i).state = .synSent then ({}, s)
    else ({ ret := some (if (s.conns i).state = .established then i else -1) }, s.setCall t none)
  | some (.send i data sent start) =>
    if (s.conns i).state = .closed then ({ ret := some sent }, s.setCall t none)
    else if 500 < s.ticks - start then ({ ret := some sent }, s.setCall t none)
    else if (s.conns i).sendUna ≠ (s.conns i).sendNext then ({}, s)
    else s.sendChunk t i data (sent + ((data.drop sent).take 536).length)

/-- `tcp_recv` -/
def recv (s : Tcp) (handle : ℤ) (bufLen : UInt16) : TcpRes × Tcp :=
  match s.getConn handle with
  | none => ({ ret := some 0 }, s)
  | some i =>
    let got := (s.conns i).recv bufLen
    ({ ret := some got.1.length, bytes := got.1 }, s.setConn i got.2)

/-- `tcp_close` -/
def close (s : Tcp) (handle : ℤ) : TcpRes × Tcp :=
  match s.getConn handle with
  | none => ({}, s)
  | some i =>
    let done := (s.conns i).close s.ticks
    ({ sent := done.1.map (.conn i) }, s.setConn i done.2)

/-- `tcp_poll` -/
def poll (s : Tcp) : TcpRes × Tcp :=
  ({ sent := (List.finRange 4).flatMap fun i => ((s.conns i).poll s.ticks).1.map (.conn i) },
    { s with conns := fun i => ((s.conns i).poll s.ticks).2 })

/-- `tcp_handle_packet` after the header checks -/
def handleSegment (s : Tcp) (srcIp : UInt32) (seg : Segment) : TcpRes × Tcp :=
  match s.findConnection seg.dstPort srcIp seg.srcPort with
  | some i =>
    let done := (s.conns i).handle seg
    ({ sent := done.1.map (.conn i) }, s.setConn i done.2)
  | none =>
    match s.findListener seg.dstPort with
    | none => (if has seg.flags flagRst then {} else { sent := [sendReset srcIp seg] }, s)
    | some _ =>
      if has seg.flags flagSyn ∧ ¬has seg.flags flagAck then
        match s.allocSlot with
        | none => ({}, s) -- the table is full, the peer's own retransmission tries again
        | some i =>
          let isn := s.initialSeq
          let syn := opened s.ticks isn.1 (seg.seq + 1) seg.dstPort seg.srcPort srcIp .synReceived (flagSyn ||| flagAck)
          ({ sent := [.conn i syn.1] }, isn.2.setConn i syn.2)
      else ({}, s)

/-- `tcp_handle_packet` -/
def handlePacket (s : Tcp) (packet : Buffer) (srcIp : UInt32) : TcpRes × Tcp :=
  match parseSegment s.localIp packet.1 srcIp with
  | none => ({}, s)
  | some seg => s.handleSegment srcIp seg

/-- one event; a task blocked in a call makes no other -/
def step (s : Tcp) : TcpEvent → TcpRes × Tcp
  | .listen port => s.listen port
  | .accept h => s.accept h
  | .connect t ip port => if (s.calls t).isSome then ({}, s) else s.connect t ip port
  | .send t h data => if (s.calls t).isSome then ({}, s) else s.send t h data.1
  | .resume t => s.resume t
  | .recv h n => s.recv h n
  | .close h => s.close h
  | .poll => s.poll
  | .arrive p src => s.handlePacket p src
  | .tick n => ({}, { s with ticks := s.ticks + n })

end Tcp

end GannetOS.Net
