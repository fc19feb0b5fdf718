/-
The TCP layer when `ipv4_send` waits.

`Tcp.step` hands every segment over at once. In `ipv4.c` the next hop may be missing from the ARP cache: then `ipv4_send`
loops over `ethernet_poll` and `task_yield`, up to 300 ticks, and the TCP function that called it goes on afterwards, from
the connection table as it is by then. `Tcp.code` is the code of `tcp.c` cut at these calls.

A `NetHost` has the TCP layer, the ARP cache and, by task, the calls of `ipv4_send` that wait. A task that waits handles
arriving packets and nothing else.

Results:
- `Tcp.code_step`: with every segment taken at once the code is `Tcp.step`;
- `Tcp.sent_peers`: what an event sends goes to the peer of a connection, to the address it connects to, or to the sender of
  the packet;
- `NetHost.prompt_run`: so the runs in which the next hops to these are in the ARP cache are runs of the TCP layer alone.
-/
import GannetOS.Core.Resume
import GannetOS.Net.ArpWait
import GannetOS.Net.TcpStep

namespace GannetOS.Net

open GannetOS.Core List

/-! ## The code of `tcp.c` -/

def Out.dst : Out → UInt32
  | .conn _ x => x.conn.remoteIp
  | .reset dst _ => dst

/-- the slot a blocked call of the TCP layer works on -/
def Call.slot : Call → Fin 4
  | .connect i _ => i
  | .send i _ _ _ => i

/-- the task that makes or resumes a call -/
def TcpEvent.task : TcpEvent → Option ℕ
  | .connect t _ _ | .send t _ _ | .resume t => some t
  | _ => none

/-- the switch at the end of the FIN block, on the state as it is then -/
def Conn.finState (c : Conn) : Conn :=
  { c with
    state :=
      match c.state with
      | .established => .closeWait
      | .finWait2 => .closed
      | st => st }

namespace Tcp

/-- `send_segment`: the books are kept when `ipv4_send` is back -/
def sendSegmentCode (s : Tcp) (i : Fin 4) (flags : UInt8) (data : List UInt8) : Code Tcp Out Unit :=
  .send (.conn i ((s.conns i).sendSegment s.ticks flags data).1) s fun s =>
    .done () (s.setConn i ((s.conns i).sendSegment s.ticks flags data).2)

def sendAckCode (s : Tcp) (i : Fin 4) : Code Tcp Out Unit := .send (.conn i (s.conns i).sendAck) s (.done ())

/-- a block that opens a connection, before its SYN is sent -/
def opening (isn recvNext : UInt32) (localPort remotePort : UInt16) (remoteIp : UInt32) (state : TcpState) : Conn :=
  { state, localPort, remoteIp, remotePort, sendUna := isn, sendNext := isn, recvNext }

def connectCode (s : Tcp) (t : ℕ) (ip : UInt32) (port : UInt16) : Code Tcp Out TcpRes :=
  match s.allocSlot with
  | none => .done { ret := some (-1) } s
  | some i =>
    let picked := s.pickEphemeralPort
    let isn := picked.2.initialSeq
    ((isn.2.setConn i (opening isn.1 0 picked.1 port ip .synSent)).sendSegmentCode i flagSyn []).bind fun _ s =>
      .done {} (s.setCall t (some (.connect i s.ticks)))

def sendChunkCode (s : Tcp) (t : ℕ) (i : Fin 4) (data : List UInt8) (sent : ℕ) : Code Tcp Out TcpRes :=
  if sent < data.length then
    (s.sendSegmentCode i (flagAck ||| flagPsh) ((data.drop sent).take 536)).bind fun _ s =>
      .done {} (s.setCall t (some (.send i data sent s.ticks)))
  else .done { ret := some sent } (s.setCall t none)

def closeCode (s : Tcp) (i : Fin 4) : Code Tcp Out TcpRes :=
  let fin (st : TcpState) : Code Tcp Out TcpRes := (s.sendSegmentCode i (flagFin ||| flagAck) []).bind fun _ s =>
    .done {} (s.setConn i { s.conns i with state := st })
  match (s.conns i).state with
  | .listen | .synSent => .done {} (s.setConn i { s.conns i with state := .closed })
  | .established => fin .finWait1
  | .closeWait => fin .lastAck
  | _ => .done {} s

/-- the loop of `tcp_poll`; `now` is read once, before it -/
def pollCode (now : UInt32) : List (Fin 4) → Tcp → Code Tcp Out TcpRes
  | [], s => .done {} s
  | i :: slots, s =>
    match (s.conns i).poll now with
    | ([], c) => pollCode now slots (s.setConn i c)
    | (x :: _, _) => .send (.conn i x) s fun s =>
      pollCode now slots (s.setConn i
        { s.conns i with lastSendTick := now, retransmitCount := (s.conns i).retransmitCount + 1 })

/-- the data block of `tcp_handle_packet` -/
def dataCode (s : Tcp) (i : Fin 4) (seg : Segment) : Code Tcp Out Unit :=
  let s' := s.setConn i ((s.conns i).takeData seg).2
  if 0 < seg.dataLen then s'.sendAckCode i else .done () s'

/-- the FIN block -/
def finCode (s : Tcp) (i : Fin 4) (seg : Segment) : Code Tcp Out TcpRes :=
  let c := s.conns i
  if has seg.flags flagFin ∧ seg.seq + seg.dataLen.toUInt32 = c.recvNext then
    ((s.setConn i { c with recvNext := c.recvNext + 1, peerFinReceived := true }).sendAckCode i).bind fun _ s =>
      .done {} (s.setConn i (s.conns i).finState)
  else .done {} s

def handleCode (s : Tcp) (i : Fin 4) (seg : Segment) : Code Tcp Out TcpRes :=
  let c := s.conns i
  if has seg.flags flagRst then .done {} (s.setConn i { c with state := .closed })
  else if c.state = .synSent then
    if has seg.flags flagSyn ∧ has seg.flags flagAck ∧ seg.ack = c.sendNext then
      ((s.setConn i { c with sendUna := c.sendNext, recvNext := seg.seq + 1, state := .established }).sendAckCode i).bind
        fun _ s => .done {} s
    else .done {} s
  else
    let s := s.setConn i (c.takeAck seg)
    if (s.conns i).state = .closed then .done {} s
    else (s.dataCode i seg).bind fun _ s => s.finCode i seg

def handleSegmentCode (s : Tcp) (srcIp : UInt32) (seg : Segment) : Code Tcp Out TcpRes :=
  match s.findConnection seg.dstPort srcIp seg.srcPort with
  | some i => s.handleCode i seg
  | none =>
    match s.findListener seg.dstPort with
    | none => if has seg.flags flagRst then .done {} s else .send (sendReset srcIp seg) s (.done {})
    | some _ =>
      if has seg.flags flagSyn ∧ ¬has seg.flags flagAck then
        match s.allocSlot with
        | none => .done {} s
        | some i =>
          let isn := s.initialSeq
          ((isn.2.setConn i (opening isn.1 (seg.seq + 1) seg.dstPort seg.srcPort srcIp .synReceived)).sendSegmentCode i
            (flagSyn ||| flagAck) []).bind fun _ s => .done {} s
      else .done {} s

/-- an event; what does not come to a segment is as in `step` -/
def code (s : Tcp) (e : TcpEvent) : Code Tcp Out TcpRes :=
  let whole : Code Tcp Out TcpRes := .done (s.step e).1 (s.step e).2
  match e with
  | .connect t ip port => if (s.calls t).isSome then whole else s.connectCode t ip port
  | .send t h data =>
    if (s.calls t).isSome then whole
    else
      match (s.getConn h).filter fun i => (s.conns i).state = .established with
      | none => whole
      | some i => s.sendChunkCode t i data.1 0
  | .resume t =>
    match s.calls t with
    | some (.send i data sent start) =>
      if (s.conns i).state = .closed ∨ 500 < s.ticks - start ∨ (s.conns i).sendUna ≠ (s.conns i).sendNext then whole
      else s.sendChunkCode t i data (sent + ((data.drop sent).take 536).length)
    | _ => whole
  | .close h =>
    match s.getConn h with
    | none => whole
    | some i => s.closeCode i
  | .poll => pollCode s.ticks (finRange 4) s
  | .arrive p src =>
    match parseSegment s.localIp p.1 src with
    | none => whole
    | some seg => s.handleSegmentCode src seg
  | .listen _ | .accept _ | .recv _ _ | .tick _ => whole

/-! ## With every segment taken at once -/

/-- the result of a step from the outputs and the result of its code -/
def result (out : List Out) (r : TcpRes) : TcpRes := { r with sent := out }

/-- the step that a code takes at once -/
def stepOf (c : Code Tcp Out TcpRes) : TcpRes × Tcp := (result c.atOnce.1 c.atOnce.2.1, c.atOnce.2.2)

@[simp] theorem setConn_setConn (s : Tcp) (i : Fin 4) (c d : Conn) : (s.setConn i c).setConn i d = s.setConn i d := by
  simp only [setConn, Function.update_idem]

@[simp] theorem setConn_eq_self (s : Tcp) (i : Fin 4) : s.setConn i (s.conns i) = s := by
  simp only [setConn, Function.update_eq_self]

@[simp] theorem setConn_ticks (s : Tcp) (i : Fin 4) (c : Conn) : (s.setConn i c).ticks = s.ticks := rfl

theorem initialSeq_ticks (s : Tcp) : s.initialSeq.2.ticks = s.ticks := by
  obtain ⟨_, _, ticks, _, _, _⟩ := s
  exact (rfl : ticks = ticks)

@[simp] theorem atOnce_sendSegment (s : Tcp) (i : Fin 4) (flags : UInt8) (data : List UInt8) :
    (s.sendSegmentCode i flags data).atOnce = ([.conn i ((s.conns i).sendSegment s.ticks flags data).1], (),
      s.setConn i ((s.conns i).sendSegment s.ticks flags data).2) := rfl

@[simp] theorem atOnce_sendAck (s : Tcp) (i : Fin 4) :
    (s.sendAckCode i).atOnce = ([.conn i (s.conns i).sendAck], (), s) := rfl

/-- a block that is opened, and its SYN sent -/
theorem atOnce_opening {s : Tcp} {now : UInt32} (hticks : s.ticks = now) (i : Fin 4) (isn recvNext : UInt32)
    (localPort remotePort : UInt16) (remoteIp : UInt32) (state : TcpState) (flags : UInt8) :
    ((s.setConn i (opening isn recvNext localPort remotePort remoteIp state)).sendSegmentCode i flags []).atOnce =
      ([.conn i (opened now isn recvNext localPort remotePort remoteIp state flags).1], (),
        s.setConn i (opened now isn recvNext localPort remotePort remoteIp state flags).2) := by
  rw [atOnce_sendSegment, setConn_self, setConn_setConn, setConn_ticks, hticks]
  rfl

theorem connectCode_step (s : Tcp) (t : ℕ) (ip : UInt32) (port : UInt16) :
    stepOf (s.connectCode t ip port) = s.connect t ip port := by
  have hticks : s.pickEphemeralPort.2.initialSeq.2.ticks = s.ticks := initialSeq_ticks _
  unfold connectCode connect
  cases s.allocSlot with
  | none => rfl
  | some i =>
    simp only [stepOf, Code.atOnce_bind, atOnce_opening hticks, Code.atOnce_done, result, append_nil]
    generalize s.pickEphemeralPort.2.initialSeq = isn at hticks ⊢
    rw [setConn_ticks, hticks]

theorem sendChunkCode_step (s : Tcp) (t : ℕ) (i : Fin 4) (data : List UInt8) (sent : ℕ) :
    stepOf (s.sendChunkCode t i data sent) = s.sendChunk t i data sent := by
  unfold sendChunkCode sendChunk
  split_ifs <;> rfl

theorem closeCode_step (s : Tcp) (i : Fin 4) : stepOf (s.closeCode i) =
    ({ sent := ((s.conns i).close s.ticks).1.map (.conn i) }, s.setConn i ((s.conns i).close s.ticks).2) := by
  unfold closeCode Conn.close
  cases (s.conns i).state <;> simp [stepOf, result, setConn_self]

/-- a connection that `tcp_poll` sends again -/
theorem poll_sends {c d : Conn} {now : UInt32} {x : Sent} {more : List Sent} (h : c.poll now = (x :: more, d)) :
    more = [] ∧ d = { c with lastSendTick := now, retransmitCount := c.retransmitCount + 1 } := by
  unfold Conn.poll at h
  split_ifs at h <;> simp_all

theorem pollCode_atOnce (now : UInt32) {slots : List (Fin 4)} (h : slots.Nodup) (s : Tcp) :
    (pollCode now slots s).atOnce = (slots.flatMap fun i => ((s.conns i).poll now).1.map (.conn i), {},
      { s with conns := fun i => if i ∈ slots then ((s.conns i).poll now).2 else s.conns i }) := by
  induction slots generalizing s with
  | nil => simp [pollCode]
  | cons i slots ih =>
    obtain ⟨hi, hnodup⟩ := nodup_cons.1 h
    have hother (c : Conn) {j : Fin 4} (hj : j ∈ slots) : (s.setConn i c).conns j = s.conns j :=
      Function.update_of_ne (fun he : j = i => hi (he ▸ hj)) _ _
    -- what is left of the loop, once slot `i` is done with
    have hrest : (pollCode now slots (s.setConn i ((s.conns i).poll now).2)).atOnce =
        (slots.flatMap fun i => ((s.conns i).poll now).1.map (.conn i), {},
          { s with conns := fun j => if j ∈ i :: slots then ((s.conns j).poll now).2 else s.conns j }) := by
      rw [ih hnodup]
      refine Prod.ext (flatMap_congr fun j hj => by rw [hother _ hj]) (Prod.ext rfl ?_)
      simp only [setConn, Tcp.mk.injEq, and_true]
      funext j
      by_cases hj : j ∈ slots
      · rw [if_pos hj, if_pos (mem_cons_of_mem i hj), Function.update_of_ne fun he : j = i => hi (he ▸ hj)]
      · by_cases hji : j = i
        · simp [hji, hi]
        · simp [hji, hj]
    rw [pollCode, flatMap_cons]
    rcases hp : (s.conns i).poll now with ⟨_ | ⟨x, more⟩, c⟩
    · simpa only [hp, map_nil, nil_append] using hrest
    · obtain ⟨rfl, rfl⟩ := poll_sends hp
      rw [hp] at hrest
      simp only [Code.atOnce_send, hrest, map_cons, map_nil, cons_append, nil_append]

theorem dataCode_atOnce (s : Tcp) (i : Fin 4) (seg : Segment) : (s.dataCode i seg).atOnce =
    (((s.conns i).takeData seg).1.map (.conn i), (), s.setConn i ((s.conns i).takeData seg).2) := by
  unfold dataCode
  by_cases hpos : 0 < seg.dataLen
  · simp only [if_pos hpos, atOnce_sendAck, setConn_self]
    unfold Conn.takeData
    split_ifs <;> rfl
  · have hnone : ((s.conns i).takeData seg).1 = [] := by
      rw [Conn.takeData, if_neg fun h => hpos h.1, if_neg hpos]
    simp only [if_neg hpos, Code.atOnce_done, hnone, map_nil]

theorem finCode_atOnce (s : Tcp) (i : Fin 4) (seg : Segment) : (s.finCode i seg).atOnce =
    (((s.conns i).takeFin seg).1.map (.conn i), {}, s.setConn i ((s.conns i).takeFin seg).2) := by
  by_cases h : has seg.flags flagFin ∧ seg.seq + seg.dataLen.toUInt32 = (s.conns i).recvNext
  · simp only [finCode, Conn.takeFin, if_pos h, Code.atOnce_bind, atOnce_sendAck, Code.atOnce_done, setConn_self,
      setConn_setConn, append_nil]
    rfl
  · simp only [finCode, Conn.takeFin, if_neg h, Code.atOnce_done, setConn_eq_self, map_nil]

theorem handleCode_atOnce (s : Tcp) (i : Fin 4) (seg : Segment) : (s.handleCode i seg).atOnce =
    (((s.conns i).handle seg).1.map (.conn i), {}, s.setConn i ((s.conns i).handle seg).2) := by
  by_cases hrst : has seg.flags flagRst
  · simp only [handleCode, Conn.handle, if_pos hrst, Code.atOnce_done, map_nil]
  by_cases hsyn : (s.conns i).state = .synSent
  · by_cases hok : has seg.flags flagSyn ∧ has seg.flags flagAck ∧ seg.ack = (s.conns i).sendNext
    · simp only [handleCode, Conn.handle, if_neg hrst, if_pos hsyn, if_pos hok, Code.atOnce_bind, atOnce_sendAck,
        Code.atOnce_done, setConn_self, append_nil, map_cons, map_nil]
    · simp only [handleCode, Conn.handle, if_neg hrst, if_pos hsyn, if_neg hok, Code.atOnce_done, setConn_eq_self, map_nil]
  by_cases hclosed : ((s.conns i).takeAck seg).state = .closed
  · simp only [handleCode, Conn.handle, if_neg hrst, if_neg hsyn, setConn_self, if_pos hclosed, Code.atOnce_done, map_nil]
  · simp only [handleCode, Conn.handle, if_neg hrst, if_neg hsyn, setConn_self, if_neg hclosed, Code.atOnce_bind,
      dataCode_atOnce, finCode_atOnce, setConn_setConn, map_append]

theorem handleSegmentCode_step (s : Tcp) (srcIp : UInt32) (seg : Segment) :
    stepOf (s.handleSegmentCode srcIp seg) = s.handleSegment srcIp seg := by
  unfold handleSegmentCode handleSegment
  cases s.findConnection seg.dstPort srcIp seg.srcPort with
  | some i => simp only [stepOf, result, handleCode_atOnce]
  | none =>
    cases s.findListener seg.dstPort with
    | none => dsimp only; split_ifs <;> rfl
    | some l =>
      dsimp only
      split_ifs
      · cases s.allocSlot with
        | none => rfl
        | some i =>
          simp only [stepOf, Code.atOnce_bind, atOnce_opening (initialSeq_ticks s), Code.atOnce_done, result, append_nil]
      · rfl

/-- what does not come to a segment -/
theorem stepOf_whole {r : TcpRes × Tcp} (h : r.1.sent = []) : stepOf (.done r.1 r.2) = r := by
  obtain ⟨⟨ret, bytes, sent⟩, s⟩ := r
  obtain rfl : sent = [] := h
  rfl

/-- **With every segment taken at once, the code is the step.** -/
theorem code_step (s : Tcp) (e : TcpEvent) : stepOf (s.code e) = s.step e := by
  cases e with
  | listen port =>
    refine stepOf_whole ?_
    simp only [step, listen]
    split <;> rfl
  | accept h =>
    refine stepOf_whole ?_
    simp only [step, accept]
    split
    · rfl
    · split <;> rfl
  | connect t ip port =>
    simp only [code, step]
    split_ifs
    · rfl
    · exact connectCode_step s t ip port
  | send t h data =>
    simp only [code, step, send]
    split_ifs
    · rfl
    · cases (s.getConn h).filter fun i => (s.conns i).state = .established with
      | none => rfl
      | some i => exact sendChunkCode_step s t i data.1 0
  | resume t =>
    simp only [code, step, resume]
    rcases s.calls t with _ | ⟨i, start⟩ | ⟨i, data, sent, start⟩
    · rfl
    · refine stepOf_whole ?_
      dsimp only
      split_ifs <;> rfl
    · dsimp only
      split_ifs
      all_goals first | rfl | exact sendChunkCode_step s t i data _ | simp_all
  | recv h n =>
    refine stepOf_whole ?_
    simp only [step, recv]
    split <;> rfl
  | close h =>
    simp only [code, step, close]
    cases s.getConn h with
    | none => rfl
    | some i => exact closeCode_step s i
  | poll =>
    simp only [code, stepOf, pollCode_atOnce s.ticks (nodup_finRange 4), mem_finRange, if_true]
    rfl
  | arrive p src =>
    simp only [code, step, handlePacket]
    cases parseSegment s.localIp p.1 src with
    | none => rfl
    | some seg => exact handleSegmentCode_step s src seg
  | tick n => rfl

/-! ## Where the segments of an event go -/

/-- the peers of the connections, and the host the event connects to, answers or goes on with -/
def peers (s : Tcp) (e : TcpEvent) : List UInt32 :=
  (((finRange 4).filter fun i => (s.conns i).state ≠ .closed ∧ (s.conns i).state ≠ .listen).map
    fun i => (s.conns i).remoteIp) ++
    match e with
    | .connect _ ip _ => [ip]
    | .arrive _ src => [src]
    | .resume t => ((s.calls t).map fun k => (s.conns k.slot).remoteIp).toList
    | _ => []

variable {s : Tcp} {i : Fin 4} {e : TcpEvent} {x : Out}

theorem mem_peers (hclosed : (s.conns i).state ≠ .closed) (hlisten : (s.conns i).state ≠ .listen) (e : TcpEvent) :
    (s.conns i).remoteIp ∈ s.peers e :=
  mem_append_left _ (mem_map_of_mem (mem_filter.2 ⟨mem_finRange i, by simp [hclosed, hlisten]⟩))

theorem handle_remoteIp {c : Conn} {seg : Segment} {y : Sent} (hy : y ∈ (c.handle seg).1) :
    y.conn.remoteIp = c.remoteIp := by
  have hack : (c.takeAck seg).remoteIp = c.remoteIp := by
    unfold Conn.takeAck
    dsimp only
    split_ifs <;> rfl
  have hdata (c : Conn) : (c.takeData seg).2.remoteIp = c.remoteIp ∧
      ∀ y ∈ (c.takeData seg).1, y.conn.remoteIp = c.remoteIp := by
    unfold Conn.takeData
    split_ifs <;> simp [Conn.sendAck]
  have hfin (c : Conn) : ∀ y ∈ (c.takeFin seg).1, y.conn.remoteIp = c.remoteIp := by
    unfold Conn.takeFin
    split_ifs <;> simp [Conn.sendAck]
  unfold Conn.handle at hy
  dsimp only at hy
  split_ifs at hy
  · cases hy
  · rw [mem_singleton.1 hy]
    rfl
  · cases hy
  · cases hy
  · rcases mem_append.1 hy with hy | hy
    · rw [(hdata _).2 y hy, hack]
    · rw [hfin _ y hy, (hdata _).1, hack]

theorem sendChunk_dst {t : ℕ} {data : List UInt8} {sent : ℕ} (hx : x ∈ (s.sendChunk t i data sent).1.sent) :
    x.dst = (s.conns i).remoteIp := by
  unfold sendChunk at hx
  split_ifs at hx
  · rw [mem_singleton.1 hx]
    rfl
  · cases hx

theorem handleSegment_dst {src : UInt32} {seg : Segment} (hx : x ∈ (s.handleSegment src seg).1.sent) : x.dst = src := by
  unfold handleSegment at hx
  cases hfind : s.findConnection seg.dstPort src seg.srcPort with
  | some i =>
    simp only [hfind] at hx
    obtain ⟨y, hy, rfl⟩ := mem_map.1 hx
    exact (handle_remoteIp hy).trans (findConnection_live hfind).2.2.2.1
  | none =>
    simp only [hfind] at hx
    split at hx
    · split_ifs at hx
      · cases hx
      · rw [mem_singleton.1 hx]
        rfl
    · split_ifs at hx
      · split at hx
        · cases hx
        · rw [mem_singleton.1 hx]
          rfl
      · cases hx

/-- **An event sends to its peers.** -/
theorem sent_peers (hx : x ∈ (s.step e).1.sent) : x.dst ∈ s.peers e := by
  cases e with
  | listen port =>
    simp only [step, listen] at hx
    split at hx <;> cases hx
  | accept h =>
    simp only [step, accept] at hx
    split at hx
    · cases hx
    · split at hx <;> cases hx
  | connect t ip port =>
    simp only [step, connect] at hx
    split_ifs at hx
    · cases hx
    · split at hx
      · cases hx
      · rw [mem_singleton.1 hx]
        exact mem_append_right _ (mem_singleton_self ip)
  | send t h data =>
    simp only [step, send] at hx
    split_ifs at hx
    · cases hx
    · split at hx
      · cases hx
      · rename_i i hi
        have hest : (s.conns i).state = .established := by simpa using (Option.filter_eq_some_iff.1 hi).2
        rw [sendChunk_dst hx]
        exact mem_peers (by rw [hest]; decide) (by rw [hest]; decide) _
  | resume t =>
    simp only [step, resume] at hx
    rcases hcall : s.calls t with _ | ⟨i, start⟩ | ⟨i, data, sent, start⟩
    · simp [hcall] at hx
    · simp only [hcall] at hx
      split_ifs at hx <;> cases hx
    · simp only [hcall] at hx
      have hpeer : (s.conns i).remoteIp ∈ s.peers (.resume t) := mem_append_right _ (by simp [hcall, Call.slot])
      split_ifs at hx
      · cases hx
      · cases hx
      · cases hx
      · rwa [sendChunk_dst hx]
  | recv h n =>
    simp only [step, recv] at hx
    split at hx <;> cases hx
  | close h =>
    simp only [step, close] at hx
    split at hx
    · cases hx
    · rename_i i hi
      obtain ⟨y, hy, rfl⟩ := mem_map.1 hx
      cases hst : (s.conns i).state with
      | established | closeWait =>
        simp only [Conn.close, hst] at hy
        rw [mem_singleton.1 hy]
        exact mem_peers (by rw [hst]; decide) (by rw [hst]; decide) _
      | _ => simp [Conn.close, hst] at hy
  | poll =>
    obtain ⟨i, -, hi⟩ := mem_flatMap.1 hx
    obtain ⟨y, hy, rfl⟩ := mem_map.1 hi
    have hlive : ¬ ((s.conns i).state = .closed ∨ (s.conns i).state = .listen) ∧ y.conn = s.conns i := by
      unfold Conn.poll at hy
      split_ifs at hy with hidle <;> simp_all
    rw [not_or] at hlive
    rw [Out.dst, hlive.2]
    exact mem_peers hlive.1.1 hlive.1.2 _
  | arrive p src =>
    simp only [step, handlePacket] at hx
    split at hx
    · cases hx
    · rw [handleSegment_dst hx]
      exact mem_append_right _ (mem_singleton_self src)
  | tick n => cases hx

end Tcp

/-! ## Hosts -/

/-- a call in the loop of `ipv4_send`: what it is to send, since when it waits, and what comes behind it -/
structure Pending where
  out : Out
  start : UInt32
  rest : Tcp → Code Tcp Out TcpRes

/-- the TCP layer with the ARP cache and the addresses of `ipv4.c`, and by task the calls that wait, the innermost first -/
structure NetHost where
  tcp : Tcp
  cache : ArpCache
  gatewayIp : UInt32
  subnetMask : UInt32
  waiting : ℕ → List Pending

inductive HostEvent
  /-- an event of the TCP layer; the task is the one that polls, where the event does not name it -/
  | tcp (task : ℕ) (e : TcpEvent)
  | arp (payload srcMac : List UInt8)
  /-- the innermost waiting call of the task comes back from `task_yield` -/
  | back (task : ℕ)

/-- the segments that went out in a step, and the result of the event if it is done -/
structure HostRes where
  out : List Out := []
  ret : Option TcpRes := none

namespace NetHost

/-- a host on which nothing was sent or learned yet -/
def init (localIp gatewayIp subnetMask : UInt32) : NetHost :=
  ⟨Tcp.init localIp, fun _ => ⟨0, [], 0⟩, gatewayIp, subnetMask, fun _ => []⟩

/-- the next hop to the address is in the ARP cache -/
def known (h : NetHost) (dst : UInt32) : Bool :=
  (h.cache.lookup (ipv4NextHop h.tcp.localIp h.gatewayIp h.subnetMask dst)).isSome

/-- a code goes on until it is done or waits -/
def goOn (h : NetHost) (t : ℕ) (c : Code Tcp Out TcpRes) : HostRes × NetHost :=
  match c.drive fun x => h.known x.dst with
  | (out, .done r s) => (⟨out, some r⟩, { h with tcp := s })
  | (out, .send x s rest) =>
    (⟨out, none⟩, { h with
      tcp := s
      waiting := Function.update h.waiting t (⟨x, s.ticks, rest⟩ :: h.waiting t) })

/-- the loop of `ipv4_send` after `task_yield`: after 300 ticks the segment is dropped, and its sender goes on -/
def back (h : NetHost) (t : ℕ) : HostRes × NetHost :=
  match h.waiting t with
  | [] => ({}, h)
  | w :: more =>
    let after := { h with waiting := Function.update h.waiting t more }.goOn t (w.rest h.tcp)
    if 300 < h.tcp.ticks - w.start then after
    else if h.known w.out.dst then ({ after.1 with out := w.out :: after.1.out }, after.2)
    else ({}, h)

/-- what `ethernet_poll` hands over, or time that passes: also while the task waits -/
def polled : TcpEvent → Bool
  | .arrive _ _ | .tick _ => true
  | _ => false

def step (h : NetHost) : HostEvent → HostRes × NetHost
  | .tcp t e =>
    let t := e.task.getD t
    if (h.waiting t).isEmpty ∨ polled e then h.goOn t (h.tcp.code e) else ({}, h)
  | .arp payload srcMac => ({}, { h with cache := h.cache.handleFrame h.tcp.ticks payload srcMac })
  | .back t => h.back t

/-- a guard for the events of the TCP layer -/
def Admits (ok : Tcp → TcpEvent → Prop) (h : NetHost) : HostEvent → Prop
  | .tcp _ e => ok h.tcp e
  | _ => True

/-- the next hops to the peers of the event are in the ARP cache -/
def Resolved (h : NetHost) : HostEvent → Prop
  | .tcp _ e => ∀ ip ∈ h.tcp.peers e, h.known ip = true
  | _ => True

instance (h : NetHost) : ∀ o, Decidable (h.Resolved o)
  | .tcp _ e => decidable_of_iff ((h.tcp.peers e).all h.known = true) all_eq_true
  | .arp _ _ | .back _ => .isTrue trivial

/-- both -/
def Prompt (ok : Tcp → TcpEvent → Prop) (h : NetHost) (o : HostEvent) : Prop := h.Resolved o ∧ h.Admits ok o

/-- the events of the TCP layer in a trace of the host, with what they sent and their results -/
def events (tr : List (HostEvent × HostRes)) : List (TcpEvent × TcpRes) :=
  tr.filterMap fun
    | (.tcp _ e, ⟨out, some r⟩) => some (e, Tcp.result out r)
    | _ => none

def Idle (h : NetHost) : Prop := ∀ t, h.waiting t = []

variable {ok : Tcp → TcpEvent → Prop} {h h₀ : NetHost} {t : ℕ} {e : TcpEvent}

theorem step_resolved (hfree : h.waiting (e.task.getD t) = [] ∨ polled e = true) (hres : h.Resolved (.tcp t e)) :
    ∃ r, h.step (.tcp t e) = (⟨(h.tcp.step e).1.sent, some r⟩, { h with tcp := (h.tcp.step e).2 }) ∧
      Tcp.result (h.tcp.step e).1.sent r = (h.tcp.step e).1 := by
  have hcode := Tcp.code_step h.tcp e
  have hready : ∀ x ∈ (h.tcp.code e).atOnce.1, h.known x.dst = true := by
    intro x hx
    refine hres _ (Tcp.sent_peers (s := h.tcp) (e := e) ?_)
    rwa [← hcode]
  refine ⟨(h.tcp.code e).atOnce.2.1, ?_, ?_⟩
  · rw [← List.isEmpty_iff] at hfree
    simp only [step, goOn, if_pos hfree, Code.drive_atOnce hready, ← hcode]
    rfl
  · rw [← hcode]
    rfl

/-- **With the peers in the ARP cache nothing waits**, and the TCP layer runs as if it were alone. -/
theorem prompt_run {tr : List (HostEvent × HostRes)} (hrun : Run step (Prompt ok) h₀ tr h) (h₀idle : h₀.Idle) :
    h.Idle ∧ Run Tcp.step ok h₀.tcp (events tr) h.tcp := by
  induction hrun with
  | nil => exact ⟨h₀idle, .nil _⟩
  | @snoc h tr o _ hok ih =>
    obtain ⟨hidle, hrun⟩ := ih
    rw [events, filterMap_append]
    cases o with
    | tcp t e =>
      obtain ⟨r, hstep, hr⟩ := step_resolved (.inl (hidle _)) hok.1
      rw [hstep, filterMap_cons, filterMap_nil]
      dsimp only
      rw [hr]
      exact ⟨hidle, hrun.snoc e hok.2⟩
    | arp payload srcMac =>
      simp only [step, filterMap_cons, filterMap_nil, append_nil]
      exact ⟨hidle, hrun⟩
    | back t =>
      simp only [step, back, hidle t, filterMap_cons, filterMap_nil, append_nil]
      exact ⟨hidle, hrun⟩

/-- a run goes on with an event of the TCP layer -/
theorem prompt_snoc {tr : List (HostEvent × HostRes)} (hrun : Run step (Prompt ok) h₀ tr h) (t : ℕ) (e : TcpEvent)
    (hres : h.Resolved (.tcp t e)) (hok : ok h.tcp e) :
    Run step (Prompt ok) h₀ (tr ++ [(.tcp t e, (h.step (.tcp t e)).1)]) (h.step (.tcp t e)).2 :=
  hrun.snoc _ ⟨hres, hok⟩

/-- what an event puts on the wire for a connection is what the TCP layer sends on it -/
theorem out_resolved (hidle : h.Idle) (hres : h.Resolved (.tcp t e)) {i : Fin 4} {x : Sent} :
    .conn i x ∈ (h.step (.tcp t e)).1.out ↔ x ∈ (h.tcp.step e).1.sentOn i := by
  obtain ⟨r, hstep, -⟩ := step_resolved (.inl (hidle _)) hres
  rw [hstep, mem_sentOn]

theorem next_resolved (hidle : h.Idle) (hres : h.Resolved (.tcp t e)) :
    (h.step (.tcp t e)).2.Idle ∧ (h.step (.tcp t e)).2.tcp = (h.tcp.step e).2 := by
  obtain ⟨r, hstep, -⟩ := step_resolved (.inl (hidle _)) hres
  rw [hstep]
  exact ⟨hidle, rfl⟩

/-- `prompt_run` from the state after an event on -/
theorem prompt_run_after {tr : List (HostEvent × HostRes)} (hidle : h₀.Idle) (hres : h₀.Resolved (.tcp t e))
    (hrun : Run step (Prompt ok) (h₀.step (.tcp t e)).2 tr h) :
    h.Idle ∧ Run Tcp.step ok (h₀.tcp.step e).2 (events tr) h.tcp := by
  obtain ⟨hidle₁, hnext⟩ := next_resolved hidle hres
  rw [← hnext]
  exact prompt_run hrun hidle₁

theorem runOps_resolved {ops : List TcpEvent} (hidle : h.Idle) (hok : AllOk step Resolved h (ops.map (.tcp t))) :
    (runOps step h (ops.map (.tcp t))).tcp = runOps Tcp.step h.tcp ops := by
  induction ops generalizing h with
  | nil => rfl
  | cons e ops ih =>
    obtain ⟨hidle', hnext⟩ := next_resolved hidle hok.1
    rw [map_cons, runOps_cons, runOps_cons, ← hnext]
    exact ih hidle' hok.2

end NetHost

end GannetOS.Net
