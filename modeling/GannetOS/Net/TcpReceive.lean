/-
What a connection receives is the peer's stream.

A `Peer` is an initial sequence number and the stream it sends, shorter than 2^31 bytes. Its segments may be lost,
duplicated, reordered, delayed and cut anywhere (`Peer.Sends`): data with sequence number `s` is the stream at offset
`s - (irs + 1)`, and a FIN stands right after the last byte. A connection lives from the step that opens its slot
(`Opens`) for as long as the slot is not `CLOSED` (`Lives`); the other slots, and all calls of the interface on this one,
are unrestricted.

The invariant (`Receiving`): what `tcp_recv` has returned, followed by what the ring still holds, is a prefix of the
stream, and `recv_next` stands behind exactly those bytes, the SYN, and the FIN once it is consumed. Sequence numbers are
compared modulo 2^32; the bound on the stream is what makes equal sequence numbers equal offsets (`Peer.seq_inj`).

Main results: `receive_stream_integrity`, over hosts on which `ipv4_send` does not wait for ARP, and `waiting_ack_late`, what
happens when it does.
-/
import GannetOS.Net.TcpWait

namespace GannetOS.Net

open GannetOS.Core Tcp List

structure Peer where
  irs : UInt32
  stream : List UInt8
  short : stream.length < 2 ^ 31

namespace Peer

/-- a segment of the peer, whenever it arrives -/
structure Sends (p : Peer) (seg : Segment) : Prop where
  syn : has seg.flags flagSyn → seg.seq = p.irs
  data : seg.data ≠ [] → ∃ o, seg.seq = p.irs + 1 + UInt32.ofNat o ∧ seg.data <+: p.stream.drop o
  fin : has seg.flags flagFin → seg.seq + seg.dataLen.toUInt32 = p.irs + 1 + UInt32.ofNat p.stream.length

theorem seq_inj {irs : UInt32} {a b : ℕ} (ha : a < 2 ^ 32) (hb : b < 2 ^ 32)
    (h : irs + 1 + UInt32.ofNat a = irs + 1 + UInt32.ofNat b) : a = b := by
  have hab : UInt32.ofNat a = UInt32.ofNat b := by simpa using h
  have hval := congrArg UInt32.toNat hab
  rwa [UInt32.toNat_ofNat', UInt32.toNat_ofNat', Nat.mod_eq_of_lt ha, Nat.mod_eq_of_lt hb] at hval

end Peer

/-- the bytes in the ring that `tcp_recv` has not returned yet -/
def Conn.unread (c : Conn) : List UInt8 := c.rx.contents c.rxCount.toNat

theorem Conn.unread_length (c : Conn) : c.unread.length = c.rxCount.toNat := Ring.contents_length _ _

/-- how many bytes `tcp_recv` copies out -/
theorem Conn.recv_count (c : Conn) (n : UInt16) :
    (if c.rxCount < n then c.rxCount else n).toNat = min n.toNat c.rxCount.toNat := by
  split_ifs with hlt <;> rw [UInt16.lt_iff_toNat_lt] at hlt <;> omega

theorem Conn.recv_rxCount (c : Conn) (n : UInt16) :
    (c.recv n).2.rxCount.toNat = c.rxCount.toNat - min n.toNat c.rxCount.toNat := by
  rw [← c.recv_count n]
  refine UInt16.toNat_sub_of_le _ _ (UInt16.le_iff_toNat_le.2 ?_)
  rw [c.recv_count n]
  exact min_le_right _ _

/-- `tcp_recv` returns the first bytes of the ring -/
theorem Conn.recv_fst (c : Conn) (n : UInt16) : (c.recv n).1 = c.unread.take n.toNat := by
  have htake : c.unread.take n.toNat = c.unread.take (min n.toNat c.rxCount.toNat) := by
    rw [← take_take, ← c.unread_length, take_length]
  rw [htake]
  show (c.rx.gets _).1 = _
  rw [Ring.gets_fst, c.recv_count n, Conn.unread]
  simp only [Ring.contents, ← map_take, take_range, Nat.min_eq_left (min_le_right _ _)]

/-- and leaves the rest -/
theorem Conn.recv_unread (c : Conn) (n : UInt16) : (c.recv n).2.unread = c.unread.drop n.toNat := by
  have hdrop : c.unread.drop n.toNat = c.unread.drop (min n.toNat c.rxCount.toNat) := by
    rcases le_total n.toNat c.rxCount.toNat with hle | hle
    · rw [min_eq_left hle]
    · rw [min_eq_right hle, drop_eq_nil_of_le (by rw [c.unread_length]; exact hle),
        drop_eq_nil_of_le (by rw [c.unread_length])]
  rw [hdrop, Conn.unread, c.recv_rxCount n]
  show (c.rx.gets _).2.contents _ = _
  rw [c.recv_count n, Ring.contents_gets, Nat.add_sub_cancel' (min_le_right _ _), Conn.unread]

/-- before the peer's SYN: nothing received, our own SYN in flight -/
structure Opening (got : List UInt8) (c : Conn) : Prop where
  state : c.state = .synSent ∨ c.state = .closed
  got : got = []
  count : c.rxCount = 0
  ring : c.rx.Counted 0
  fin : c.peerFinReceived = false
  inFlight : c.sendUna ≠ c.sendNext
  flags : c.unackedFlags = flagSyn

/-- from the peer's SYN on: `got` was returned, `unread` is in the ring -/
structure Receiving (p : Peer) (got : List UInt8) (c : Conn) : Prop where
  state : c.state ≠ .synSent
  ring : c.rx.Counted c.rxCount.toNat
  stream : got ++ c.unread <+: p.stream
  fin : c.peerFinReceived = true → got ++ c.unread = p.stream
  next : c.recvNext = p.irs + 1 + UInt32.ofNat (got.length + c.rxCount.toNat + c.peerFinReceived.toNat)

/-- what `tcp_handle_packet` accepts is there, and fits -/
theorem Conn.acceptLen_le {c : Conn} (h : c.rxCount.toNat ≤ 2048) (dataLen : UInt16) :
    (c.acceptLen dataLen).toNat ≤ dataLen.toNat ∧ c.rxCount.toNat + (c.acceptLen dataLen).toNat ≤ 2048 := by
  have hspace : (2048 - c.rxCount).toNat = 2048 - c.rxCount.toNat :=
    UInt16.toNat_sub_of_le _ _ (UInt16.le_iff_toNat_le.2 h)
  simp only [Conn.acceptLen]
  split_ifs with hlt <;> rw [UInt16.lt_iff_toNat_lt] at hlt <;> omega

namespace Receiving

variable {p : Peer} {got : List UInt8} {c d : Conn}

theorem congr (h : Receiving p got c) (hstate : d.state ≠ .synSent) (hrx : d.rx = c.rx) (hcount : d.rxCount = c.rxCount)
    (hfin : d.peerFinReceived = c.peerFinReceived) (hnext : d.recvNext = c.recvNext) : Receiving p got d := by
  have hunread : d.unread = c.unread := by rw [Conn.unread, hrx, hcount, Conn.unread]
  exact ⟨hstate, by rw [hrx, hcount]; exact h.ring, by rw [hunread]; exact h.stream,
    by rw [hunread, hfin]; exact h.fin, by rw [hnext, hcount, hfin]; exact h.next⟩

/-- the offset `recv_next` stands for -/
theorem offset_le (h : Receiving p got c) : got.length + c.rxCount.toNat ≤ p.stream.length := by
  have hle := h.stream.length_le
  rwa [length_append, c.unread_length] at hle

variable {seg : Segment}

/-- data at `recv_next` is the stream right behind what is there, and the FIN is still to come -/
theorem in_order (h : Receiving p got c) (hs : p.Sends seg) (hne : seg.data ≠ []) (hseq : seg.seq = c.recvNext) :
    c.peerFinReceived = false ∧ (got ++ c.unread) ++ seg.data <+: p.stream := by
  obtain ⟨o, ho, hdata⟩ := hs.data hne
  have hshort := p.short
  have hoff := h.offset_le
  have hfit : seg.data.length ≤ p.stream.length - o := by simpa using hdata.length_le
  have hpos : 0 < seg.data.length := List.length_pos_iff.2 hne
  have hbool : c.peerFinReceived.toNat ≤ 1 := Bool.toNat_le _
  have heq : o = got.length + c.rxCount.toNat + c.peerFinReceived.toNat :=
    Peer.seq_inj (by omega) (by omega) (by rw [← ho, hseq, h.next])
  have hfin : c.peerFinReceived = false := by
    by_contra hfin
    have hfin := Bool.eq_true_of_not_eq_false hfin
    have hall := congrArg List.length (h.fin hfin)
    rw [length_append, c.unread_length] at hall
    omega
  refine ⟨hfin, ?_⟩
  rw [hfin, Bool.toNat_false, Nat.add_zero, ← c.unread_length, ← length_append] at heq
  obtain ⟨rest, hrest⟩ := h.stream
  rw [heq, ← hrest, drop_left] at hdata
  rw [← hrest]
  exact (prefix_append_right_inj _).2 hdata

/-- the stream's next bytes behind those in the ring -/
theorem append (h : Receiving p got c) (hfin : c.peerFinReceived = false) {l : List UInt8}
    (hroom : c.rxCount.toNat + l.length ≤ 2048) (hnew : (got ++ c.unread) ++ l <+: p.stream)
    (hstate : d.state ≠ .synSent) (hrx : d.rx = c.rx.puts l) (hcount : d.rxCount.toNat = c.rxCount.toNat + l.length)
    (hfin' : d.peerFinReceived = false) (hnext : d.recvNext = c.recvNext + UInt32.ofNat l.length) :
    Receiving p got d := by
  have hunread : d.unread = c.unread ++ l := by rw [Conn.unread, hrx, hcount, h.ring.contents_puts hroom, Conn.unread]
  refine ⟨hstate, ?_, ?_, fun htrue => absurd (hfin'.symm.trans htrue) (by decide), ?_⟩
  · rw [hrx, hcount]
    exact h.ring.puts hroom
  · rwa [hunread, ← append_assoc]
  · rw [hnext, h.next, hcount, hfin', hfin, add_assoc _ _ (UInt32.ofNat l.length), ← UInt32.ofNat_add]
    simp only [Bool.toNat_false, Nat.add_zero, Nat.add_assoc]

/-- as much of in-order data as fits goes into the ring -/
theorem takeData (h : Receiving p got c) (hs : p.Sends seg) (hlen : seg.data.length < 2 ^ 16) :
    (∀ x ∈ (c.takeData seg).1, Receiving p got x.conn) ∧ Receiving p got (c.takeData seg).2 := by
  simp only [Conn.takeData]
  split_ifs with hacc hpos
  · obtain ⟨hpos, hseq, hstate⟩ := hacc
    have hdata : seg.dataLen.toNat = seg.data.length := by
      rw [Segment.dataLen, UInt16.toNat_ofNat', Nat.mod_eq_of_lt hlen]
    have hne : seg.data ≠ [] := by
      intro hnil
      rw [UInt16.lt_iff_toNat_lt, hdata, hnil] at hpos
      exact absurd hpos (by decide)
    obtain ⟨hfin, hnew⟩ := h.in_order hs hne hseq
    obtain ⟨hfit, hroom⟩ := Conn.acceptLen_le h.ring.le seg.dataLen
    rw [hdata] at hfit
    generalize c.acceptLen seg.dataLen = k at hfit hroom ⊢
    have htake : (seg.data.take k.toNat).length = k.toNat := length_take_of_le hfit
    have hrecv : Receiving p got
        { c with
          rx := c.rx.puts (seg.data.take k.toNat), rxCount := c.rxCount + k, recvNext := c.recvNext + k.toUInt32 } := by
      refine h.append hfin (by rw [htake]; exact hroom) ?_ h.state rfl ?_ hfin ?_
      · exact ((prefix_append_right_inj _).2 (List.take_prefix _ _)).trans hnew
      · rw [htake, UInt16.toNat_add, Nat.mod_eq_of_lt (by omega)]
      · rw [htake, ← UInt16.toNat_toUInt32, UInt32.ofNat_toNat]
    exact ⟨by rintro x hx; obtain rfl := List.mem_singleton.1 hx; exact hrecv, hrecv⟩
  · exact ⟨by rintro x hx; obtain rfl := List.mem_singleton.1 hx; exact h, h⟩
  · exact ⟨by rintro x hx; exact absurd hx not_mem_nil, h⟩

/-- a FIN at `recv_next` is the end of the stream, and is consumed once -/
theorem takeFin (h : Receiving p got c) (hs : p.Sends seg) :
    (∀ x ∈ (c.takeFin seg).1, Receiving p got x.conn) ∧ Receiving p got (c.takeFin seg).2 := by
  simp only [Conn.takeFin]
  split_ifs with hfin
  · have hshort := p.short
    have hoff := h.offset_le
    have hbool : c.peerFinReceived.toNat ≤ 1 := Bool.toNat_le _
    have heq : p.stream.length = got.length + c.rxCount.toNat + c.peerFinReceived.toNat :=
      Peer.seq_inj (by omega) (by omega) (by rw [← hs.fin hfin.1, hfin.2, h.next])
    have hnew : c.peerFinReceived = false := by
      by_contra hold
      have hold := Bool.eq_true_of_not_eq_false hold
      have hall := congrArg List.length (h.fin hold)
      rw [length_append, c.unread_length] at hall
      rw [hold, Bool.toNat_true] at heq
      omega
    have hall : got ++ c.unread = p.stream := by
      apply h.stream.eq_of_length
      rw [length_append, c.unread_length, heq, hnew, Bool.toNat_false, Nat.add_zero]
    set c' : Conn := { c with recvNext := c.recvNext + 1, peerFinReceived := true }
    have hrecv : Receiving p got c' := by
      refine ⟨h.state, h.ring, h.stream, fun _ => hall, ?_⟩
      show c.recvNext + 1 = _
      rw [h.next, hnew, add_assoc _ _ 1]
      exact congrArg _ (UInt32.ofNat_add _ 1).symm
    refine ⟨by rintro x hx; obtain rfl := List.mem_singleton.1 hx; exact hrecv, hrecv.congr ?_ rfl rfl rfl rfl⟩
    have hstate := h.state
    cases hst : c.state <;> simp_all
  · exact ⟨by rintro x hx; exact absurd hx not_mem_nil, h⟩

theorem takeAck (h : Receiving p got c) (seg : Segment) : Receiving p got (c.takeAck seg) := by
  have hstate := h.state
  simp only [Conn.takeAck]
  split_ifs
  · exact h.congr (by simp) rfl rfl rfl rfl
  · exact h.congr (by simp) rfl rfl rfl rfl
  · exact h.congr (by simp) rfl rfl rfl rfl
  · exact h.congr (by simp) rfl rfl rfl rfl
  · exact h.congr hstate rfl rfl rfl rfl
  · exact h

theorem handle (h : Receiving p got c) (hs : p.Sends seg) (hlen : seg.data.length < 2 ^ 16) :
    (∀ x ∈ (c.handle seg).1, Receiving p got x.conn) ∧ Receiving p got (c.handle seg).2 := by
  have hstate := h.state
  simp only [Conn.handle, if_neg hstate]
  split_ifs
  · exact ⟨by rintro x hx; exact absurd hx not_mem_nil, h.congr (by simp) rfl rfl rfl rfl⟩
  · exact ⟨by rintro x hx; exact absurd hx not_mem_nil, h.takeAck seg⟩
  · obtain ⟨hout, hd⟩ := (h.takeAck seg).takeData hs hlen
    obtain ⟨hout', hf⟩ := hd.takeFin hs
    refine ⟨fun x hx => ?_, hf⟩
    rcases List.mem_append.1 hx with hx | hx
    · exact hout x hx
    · exact hout' x hx

/-- `tcp_recv` moves bytes from the front of the ring to its caller -/
theorem recv (h : Receiving p got c) (n : UInt16) : Receiving p (got ++ (c.recv n).1) (c.recv n).2 := by
  have hsplit : got ++ (c.recv n).1 ++ (c.recv n).2.unread = got ++ c.unread := by
    rw [c.recv_fst, c.recv_unread, append_assoc, take_append_drop]
  have hring : (c.recv n).2.rx.Counted (c.recv n).2.rxCount.toNat := by
    rw [c.recv_rxCount, ← c.recv_count n]
    refine Ring.Counted.gets ?_
    rw [c.recv_count n, Nat.add_sub_cancel' (min_le_right _ _)]
    exact h.ring
  refine ⟨h.state, hring, ?_, ?_, ?_⟩
  · rw [hsplit]
    exact h.stream
  · rw [hsplit]
    exact h.fin
  · show c.recvNext = _
    have hlen := congrArg List.length hsplit
    simp only [length_append, Conn.unread_length] at hlen
    rw [h.next, length_append, hlen]
    rfl

end Receiving

/-! ## One step of a living connection -/

/-- the two phases of a connection -/
def Streaming (p : Peer) (got : List UInt8) (c : Conn) : Prop := Opening got c ∨ Receiving p got c

/-- an acknowledgement is sent from a block in the receiving phase -/
def AcksExactly (p : Peer) (got : List UInt8) (x : Sent) : Prop := has x.flags flagAck → Receiving p got x.conn

variable {p : Peer}

theorem AcksExactly.ack {got : List UInt8} {x : Sent} (h : AcksExactly p got x) (hack : has x.flags flagAck) :
    x.segment.ack =
      p.irs + 1 + UInt32.ofNat (got.length + x.conn.rxCount.toNat + x.conn.peerFinReceived.toNat) := by
  rw [Sent.segment, if_pos hack, (h hack).next]

/-- the slot holds the connection, and what arrives for it comes from the peer -/
def Lives (p : Peer) (i : Fin 4) (s : Tcp) (e : TcpEvent) : Prop :=
  (s.conns i).state ≠ .closed ∧ ∀ pkt src seg, e = .arrive pkt src → parseSegment s.localIp pkt.1 src = some seg →
    s.findConnection seg.dstPort src seg.srcPort = some i → p.Sends seg

/-- the event opens a connection in slot `i`: `tcp_connect`, or the peer's SYN at a listening port -/
def Opens (p : Peer) (i : Fin 4) (s : Tcp) (e : TcpEvent) : Prop :=
  (s.conns i).state = .closed ∧
    (((s.step e).2.conns i).state = .synSent ∨ ((s.step e).2.conns i).state = .synReceived) ∧
    ∀ pkt src seg, e = .arrive pkt src → parseSegment s.localIp pkt.1 src = some seg → p.Sends seg

section Step

variable {p : Peer} {got : List UInt8} {c : Conn}

/-- the SYN-ACK takes an opening connection to the receiving phase -/
theorem Opening.handle (h : Opening got c) (hstate : c.state = .synSent) {seg : Segment} (hs : p.Sends seg) :
    (∀ x ∈ (c.handle seg).1, AcksExactly p got x) ∧ Streaming p got (c.handle seg).2 := by
  simp only [Conn.handle, if_pos hstate]
  split_ifs with hrst hsyn
  · refine ⟨fun x hx => absurd hx not_mem_nil, Or.inl ?_⟩
    exact ⟨Or.inr rfl, h.got, h.count, h.ring, h.fin, h.inFlight, h.flags⟩
  · have hrecv : Receiving p got
        { c with sendUna := c.sendNext, recvNext := seg.seq + 1, state := .established } := by
      have hunread : c.unread = [] := by rw [Conn.unread, h.count]; rfl
      refine ⟨by simp, ?_, ?_, ?_, ?_⟩
      · show c.rx.Counted c.rxCount.toNat
        rw [h.count]
        exact h.ring
      · show got ++ c.unread <+: _
        rw [h.got, hunread]
        exact nil_prefix
      · intro hfin
        exact absurd (h.fin.symm.trans hfin) (by decide)
      · show seg.seq + 1 = _
        simp [hs.syn hsyn.1, h.got, h.count, h.fin]
    exact ⟨by rintro x hx -; obtain rfl := List.mem_singleton.1 hx; exact hrecv, Or.inr hrecv⟩
  · exact ⟨fun x hx => absurd hx not_mem_nil, Or.inl h⟩

theorem Opening.poll (h : Opening got c) (now : UInt32) :
    (∀ x ∈ (c.poll now).1, AcksExactly p got x) ∧ Streaming p got (c.poll now).2 := by
  simp only [Conn.poll]
  split_ifs with h1 h2 h3 h4
  · exact ⟨fun x hx => absurd hx not_mem_nil, Or.inl h⟩
  · exact ⟨fun x hx => absurd hx not_mem_nil, Or.inl h⟩
  · exact ⟨fun x hx => absurd hx not_mem_nil,
      Or.inl ⟨Or.inr rfl, h.got, h.count, h.ring, h.fin, h.inFlight, h.flags⟩⟩
  · refine ⟨?_, Or.inl ⟨h.state, h.got, h.count, h.ring, h.fin, h.inFlight, h.flags⟩⟩
    -- what is sent again is the SYN, which acknowledges nothing
    rintro x hx hack
    obtain rfl := List.mem_singleton.1 hx
    have hsyn : has flagSyn flagAck := h.flags ▸ hack
    exact absurd hsyn (by decide)
  · exact ⟨fun x hx => absurd hx not_mem_nil, Or.inl h⟩

theorem Receiving.poll (h : Receiving p got c) (now : UInt32) :
    (∀ x ∈ (c.poll now).1, AcksExactly p got x) ∧ Receiving p got (c.poll now).2 := by
  simp only [Conn.poll]
  split_ifs
  · exact ⟨fun x hx => absurd hx not_mem_nil, h⟩
  · exact ⟨fun x hx => absurd hx not_mem_nil, h⟩
  · exact ⟨fun x hx => absurd hx not_mem_nil, h.congr (by simp) rfl rfl rfl rfl⟩
  · exact ⟨by rintro x hx -; obtain rfl := List.mem_singleton.1 hx; exact h, h.congr h.state rfl rfl rfl rfl⟩
  · exact ⟨fun x hx => absurd hx not_mem_nil, h⟩

theorem Receiving.close (h : Receiving p got c) (now : UInt32) :
    (∀ x ∈ (c.close now).1, AcksExactly p got x) ∧ Receiving p got (c.close now).2 := by
  have hstate := h.state
  simp only [Conn.close]
  split
  · exact ⟨fun x hx => absurd hx not_mem_nil, h.congr (by simp) rfl rfl rfl rfl⟩
  · exact ⟨fun x hx => absurd hx not_mem_nil, h.congr (by simp) rfl rfl rfl rfl⟩
  · exact ⟨by rintro x hx -; obtain rfl := List.mem_singleton.1 hx; exact h, h.congr (by simp) rfl rfl rfl rfl⟩
  · exact ⟨by rintro x hx -; obtain rfl := List.mem_singleton.1 hx; exact h, h.congr (by simp) rfl rfl rfl rfl⟩
  · exact ⟨fun x hx => absurd hx not_mem_nil, h⟩

theorem Opening.close (h : Opening got c) (now : UInt32) :
    (∀ x ∈ (c.close now).1, AcksExactly p got x) ∧ Streaming p got (c.close now).2 := by
  simp only [Conn.close]
  rcases h.state with hst | hst
  · rw [hst]
    exact ⟨fun x hx => absurd hx not_mem_nil,
      Or.inl ⟨Or.inr rfl, h.got, h.count, h.ring, h.fin, h.inFlight, h.flags⟩⟩
  · rw [hst]
    exact ⟨fun x hx => absurd hx not_mem_nil, Or.inl h⟩

theorem Opening.recv (h : Opening got c) (n : UInt16) : Opening (got ++ (c.recv n).1) (c.recv n).2 := by
  have hzero : (if c.rxCount < n then c.rxCount else n) = 0 := by
    rw [h.count]
    split_ifs with hlt
    · rfl
    · exact UInt16.le_antisymm (UInt16.not_lt.1 hlt) UInt16.zero_le
  simp only [Conn.recv, hzero]
  exact ⟨h.state, by simp [h.got, Ring.gets], by simp [h.count], h.ring, h.fin, h.inFlight, h.flags⟩

theorem Streaming.recv (h : Streaming p got c) (n : UInt16) : Streaming p (got ++ (c.recv n).1) (c.recv n).2 :=
  h.imp (fun h => h.recv n) fun h => h.recv n

/-- **One step of a living connection**: it stays in its phase or enters the next, the bytes it returned are accounted
for, and what it sent acknowledges exactly what is there. -/
theorem Streaming.step {s : Tcp} {i : Fin 4} {e : TcpEvent} {out : List Sent} {bytes : List UInt8} {c' : Conn}
    (h : Streaming p got (s.conns i)) (hlive : Lives p i s e) (hmove : Move s i e out bytes c') :
    (∀ x ∈ out, AcksExactly p got x) ∧ Streaming p (got ++ bytes) c' := by
  have hopen {c'' : Conn} (hc : Streaming p got c'') : Streaming p (got ++ []) c'' := by rwa [append_nil]
  cases hmove with
  | idle => exact ⟨fun x hx => absurd hx not_mem_nil, hopen h⟩
  | listens _ hslot => exact absurd (allocSlot_closed hslot) hlive.1
  | opens _ hslot => exact absurd (allocSlot_closed hslot) hlive.1
  | accepts _ _ _ _ hslot => exact absurd (allocSlot_closed hslot) hlive.1
  | accepted =>
    refine ⟨fun x hx => absurd hx not_mem_nil, hopen ?_⟩
    rcases h with h | h
    · exact Or.inl ⟨h.state, h.got, h.count, h.ring, h.fin, h.inFlight, h.flags⟩
    · exact Or.inr (h.congr h.state rfl rfl rfl rfl)
  | timesOut =>
    refine ⟨fun x hx => absurd hx not_mem_nil, hopen ?_⟩
    rcases h with h | h
    · exact Or.inl ⟨Or.inr rfl, h.got, h.count, h.ring, h.fin, h.inFlight, h.flags⟩
    · exact Or.inr (h.congr (by simp) rfl rfl rfl rfl)
  | sends _ _ hest =>
    rcases h with h | h
    · rcases h.state with hst | hst
      · exact absurd (hst.symm.trans hest) (by decide)
      · exact absurd hst hlive.1
    · exact ⟨by rintro x hx -; obtain rfl := List.mem_singleton.1 hx; exact h,
        hopen (Or.inr (h.congr h.state rfl rfl rfl rfl))⟩
  | sendsNext _ _ hacked =>
    rcases h with h | h
    · exact absurd hacked h.inFlight
    · exact ⟨by rintro x hx -; obtain rfl := List.mem_singleton.1 hx; exact h,
        hopen (Or.inr (h.congr h.state rfl rfl rfl rfl))⟩
  | receives => exact ⟨fun x hx => absurd hx not_mem_nil, h.recv _⟩
  | closes =>
    rcases h with h | h
    · exact (h.close s.ticks).imp_right hopen
    · exact (h.close s.ticks).imp_right fun hc => hopen (Or.inr hc)
  | polls =>
    rcases h with h | h
    · exact (h.poll s.ticks).imp_right hopen
    · exact (h.poll s.ticks).imp_right fun hc => hopen (Or.inr hc)
  | handles hseg hfind =>
    have hsends := hlive.2 _ _ _ rfl hseg hfind
    rcases h with h | h
    · exact (h.handle (h.state.resolve_right hlive.1) hsends).imp_right hopen
    · obtain ⟨hout, hc⟩ := h.handle hsends (parseSegment_data hseg)
      exact ⟨fun x hx _ => hout x hx, hopen (Or.inr hc)⟩

theorem opened_opening (now isn : UInt32) (lp rp : UInt16) (ip : UInt32) :
    Opening [] (opened now isn 0 lp rp ip .synSent flagSyn).2 := by
  refine ⟨Or.inl rfl, rfl, rfl, ⟨Nat.zero_le _, rfl⟩, rfl, ?_, rfl⟩
  show isn ≠ isn + seqLen flagSyn 0
  intro h
  have hzero : seqLen flagSyn 0 = 0 := by simpa using h
  exact absurd hzero (by decide)

theorem opened_receiving (p : Peer) (now isn : UInt32) (lp rp : UInt16) (ip : UInt32) :
    Receiving p [] (opened now isn (p.irs + 1) lp rp ip .synReceived (flagSyn ||| flagAck)).2 := by
  have hstate : TcpState.synReceived ≠ .synSent := by decide
  refine ⟨hstate, ⟨Nat.zero_le _, rfl⟩, nil_prefix, fun h => absurd h ?_, ?_⟩
  · exact Bool.false_ne_true
  · exact (add_zero _).symm

/-- the step that opens the slot -/
theorem Opens.streaming {s : Tcp} {i : Fin 4} {e : TcpEvent} (h : Opens p i s e) :
    (∀ x ∈ (s.step e).1.sentOn i, has x.flags flagAck → x.segment.ack = p.irs + 1) ∧
      Streaming p [] ((s.step e).2.conns i) := by
  obtain ⟨hfree, hnew, hpeer⟩ := h
  have hmove := step_move s e i
  generalize (s.step e).1.sentOn i = out at hmove ⊢
  generalize (s.step e).2.conns i = c' at hmove hnew ⊢
  have hfree' {c'' : Conn} (hst : c''.state = .closed) (hnew : c''.state = .synSent ∨ c''.state = .synReceived) :
      False := by
    rw [hst] at hnew
    exact absurd hnew (by decide)
  generalize bytesOn i (e, (s.step e).1) = bytes at hmove
  cases hmove with
  | idle => exact (hfree' hfree hnew).elim
  | listens => exact absurd hnew (by simp)
  | accepted => exact (hfree' hfree hnew).elim
  | timesOut => exact absurd hnew (by simp)
  | sends _ hlive => exact absurd hfree (getConn_live hlive)
  | sendsNext _ hlive => exact absurd hfree hlive
  | receives hlive => exact absurd hfree (getConn_live hlive)
  | closes hlive => exact absurd hfree (getConn_live hlive)
  | polls =>
    have hpoll : (s.conns i).poll s.ticks = ([], s.conns i) := by rw [Conn.poll, if_pos (Or.inl hfree)]
    rw [hpoll] at hnew
    exact (hfree' hfree hnew).elim
  | handles _ hfind => exact absurd hfree (findConnection_live hfind).1
  | opens =>
    refine ⟨?_, Or.inl (opened_opening _ _ _ _ _)⟩
    rintro x hx hack
    obtain rfl := List.mem_singleton.1 hx
    have hsyn : has flagSyn flagAck := hack
    exact absurd hsyn (by decide)
  | @accepts _ _ seg hseg _ _ hsyn =>
    have hirs : seg.seq = p.irs := (hpeer _ _ _ rfl hseg).syn hsyn.1
    rw [passiveOpen, hirs]
    refine ⟨?_, Or.inr (opened_receiving p _ _ _ _ _)⟩
    rintro x hx hack
    obtain rfl := List.mem_singleton.1 hx
    rw [Sent.segment, if_pos hack]
    rfl

end Step

/-! ## Whole runs -/

/-- the bytes `tcp_recv` returned from a slot along a trace -/
def received (i : Fin 4) (tr : List (TcpEvent × TcpRes)) : List UInt8 := tr.flatMap (bytesOn i)

theorem Streaming.run {s t : Tcp} {i : Fin 4} {tr : List (TcpEvent × TcpRes)} (h : Run Tcp.step (Lives p i) s tr t)
    (hs : Streaming p [] (s.conns i)) : Streaming p (received i tr) (t.conns i) := by
  induction h with
  | nil => exact hs
  | snoc e _ hlive ih =>
    have hnext := ih.step hlive (step_move _ e i)
    rw [received, flatMap_append, flatMap_singleton]
    exact hnext.2

theorem Streaming.prefix {got : List UInt8} {c : Conn} (h : Streaming p got c) :
    got ++ c.unread <+: p.stream ∧ c.rxCount ≤ 2048 := by
  rcases h with h | h
  · refine ⟨?_, by rw [h.count]; decide⟩
    rw [h.got, Conn.unread, h.count]
    exact nil_prefix
  · exact ⟨h.stream, UInt16.le_iff_toNat_le.2 h.ring.le⟩

open NetHost

/-- **Receive stream integrity.** From the step that opens a connection, in every run in which it lives, its segments come
from the peer and the hosts to send to are in the ARP cache: what `tcp_recv` has returned is a prefix of the stream,
followed in it by what the ring holds; `rx_count` never exceeds the ring; and every acknowledgement sent, then or in any
next step, stands behind exactly the bytes returned so far and those in the ring as it is sent, with the SYN, and the FIN
once consumed. -/
theorem receive_stream_integrity (p : Peer) {h₀ h : NetHost} {i : Fin 4} {t₀ : ℕ} {e : TcpEvent}
    {tr : List (HostEvent × HostRes)} (hidle : h₀.Idle) (hopen : h₀.Prompt (Opens p i) (.tcp t₀ e))
    (hrun : Run NetHost.step (Prompt (Lives p i)) (h₀.step (.tcp t₀ e)).2 tr h) :
    (received i (events tr) <+: p.stream ∧ received i (events tr) ++ (h.tcp.conns i).unread <+: p.stream ∧
      (h.tcp.conns i).rxCount ≤ 2048) ∧
      (∀ x, .conn i x ∈ (h₀.step (.tcp t₀ e)).1.out → has x.flags flagAck → x.segment.ack = p.irs + 1) ∧
      ∀ t e', h.Prompt (Lives p i) (.tcp t e') → ∀ x, .conn i x ∈ (h.step (.tcp t e')).1.out → has x.flags flagAck →
        received i (events tr) ++ x.conn.unread <+: p.stream ∧
          x.segment.ack = p.irs + 1 + UInt32.ofNat
            ((received i (events tr)).length + x.conn.unread.length + x.conn.peerFinReceived.toNat) := by
  obtain ⟨hres, hopens⟩ := hopen
  obtain ⟨hfirst, hstart⟩ := Opens.streaming hopens
  obtain ⟨hidle', htcp⟩ := prompt_run_after hidle hres hrun
  have hstream := Streaming.run htcp hstart
  obtain ⟨hpre, hcount⟩ := hstream.prefix
  refine ⟨⟨(prefix_append _ _).trans hpre, hpre, hcount⟩, fun x hx => hfirst x ((out_resolved hidle hres).1 hx), ?_⟩
  intro t e' hok x hx hack
  have hacks := (hstream.step hok.2 (step_move h.tcp e' i)).1 x ((out_resolved hidle' hok.1).1 hx)
  rw [x.conn.unread_length]
  exact ⟨(hacks hack).stream, hacks.ack hack⟩

/-! A connection to port 80 of a peer whose stream is `hi`: the handshake completes, both bytes arrive, one is read. -/

def hiPeer : Peer := ⟨1000, [104, 105], by decide⟩

/-- the peer's SYN-ACK and its data, for the first connection a fresh host makes -/
def hiSynAck : Segment := ⟨80, 49152, 1000, 64001, flagSyn ||| flagAck, 0, []⟩
def hiData : Segment := ⟨80, 49152, 1001, 64001, flagAck, 0, [104, 105]⟩

/-- a segment of that peer as it arrives -/
def hiPacket (seg : Segment) (h : (seg.encode 0x0A000202 0x0A00020F).length < 2 ^ 16) : TcpEvent :=
  .arrive ⟨seg.encode 0x0A000202 0x0A00020F, h⟩ 0x0A000202

theorem hiSynAck_short : (hiSynAck.encode 0x0A000202 0x0A00020F).length < 2 ^ 16 := by decide +kernel

theorem hiData_short : (hiData.encode 0x0A000202 0x0A00020F).length < 2 ^ 16 := by decide +kernel

theorem lives_packet {i : Fin 4} {s : Tcp} {pkt : Buffer} {src : UInt32} {seg : Segment}
    (hlive : (s.conns i).state ≠ .closed) (hparse : parseSegment s.localIp pkt.1 src = some seg) (hs : p.Sends seg) :
    Lives p i s (.arrive pkt src) := by
  refine ⟨hlive, fun pkt' src' seg' he hseg _ => ?_⟩
  cases he
  obtain rfl := Option.some.inj (hparse.symm.trans hseg)
  exact hs

theorem hiPeer_sends_synAck : hiPeer.Sends hiSynAck :=
  ⟨fun _ => rfl, fun h => absurd rfl h, fun h => absurd h (by decide)⟩

theorem hiPeer_sends_data : hiPeer.Sends hiData :=
  ⟨fun h => absurd h (by decide), fun _ => ⟨0, by decide, prefix_rfl⟩, fun h => absurd h (by decide)⟩

/-- a host with the addresses of sixteen neighbours in its ARP cache, the peer's first -/
def hiHost : NetHost :=
  { NetHost.init 0x0A00020F 0 0 with cache := fun k => ⟨0x0A000202 + UInt32.ofNat k, [], 0⟩ }

theorem hiHost_idle : hiHost.Idle := fun _ => rfl

/-- the connection to the peer -/
def hiOpen : HostEvent := .tcp 0 (.connect 0 0x0A000202 80)

theorem hiOpen_opens (p : Peer) : Opens p 0 hiHost.tcp (.connect 0 0x0A000202 80) :=
  ⟨rfl, Or.inl (by decide +kernel), fun _ _ _ h => by cases h⟩

/-- one byte is read, the other waits -/
theorem receive_stream_integrity_hi :
    ∃ tr h, Run NetHost.step (Prompt (Lives hiPeer 0)) (hiHost.step hiOpen).2 tr h ∧
      received 0 (events tr) = [104] ∧ (h.tcp.conns 0).unread = [105] ∧
      received 0 (events tr) ++ (h.tcp.conns 0).unread <+: hiPeer.stream := by
  have hopen : hiHost.Prompt (Opens hiPeer 0) hiOpen := ⟨by decide +kernel, hiOpen_opens hiPeer⟩
  have hrun : Run NetHost.step (Prompt (Lives hiPeer 0)) _ [] (hiHost.step hiOpen).2 := .nil _
  have hrun := prompt_snoc hrun 0 (hiPacket hiSynAck hiSynAck_short) (by decide +kernel)
    (lives_packet (by decide +kernel) (by decide +kernel) hiPeer_sends_synAck)
  have hrun := prompt_snoc hrun 0 (hiPacket hiData hiData_short) (by decide +kernel)
    (lives_packet (by decide +kernel) (by decide +kernel) hiPeer_sends_data)
  have hrun := prompt_snoc hrun 0 (.recv 0 1) (by decide +kernel) ⟨by decide +kernel, fun _ _ _ h => by cases h⟩
  exact ⟨_, _, hrun, by decide +kernel, by decide +kernel, (receive_stream_integrity hiPeer hiHost_idle hopen hrun).1.2.1⟩

/-! The same peer with two more bytes. -/

def longPeer : Peer := ⟨1000, [104, 105, 104, 111], by decide⟩

def hiMore : Segment := ⟨80, 49152, 1003, 64001, flagAck, 0, [104, 111]⟩

theorem hiMore_short : (hiMore.encode 0x0A000202 0x0A00020F).length < 2 ^ 16 := by decide +kernel

/-- **An acknowledgement that waits is late.** A new neighbour takes the peer's place in the ARP cache. The acknowledgement
of two bytes waits for its address; meanwhile two more arrive, and when the peer answers, their acknowledgement goes out
first (1005). The one that waited (1003) follows it, with four bytes buffered. -/
theorem waiting_ack_late :
    let acks : HostRes → List UInt32 := fun r => r.out.map fun | .conn _ x => x.segment.ack | .reset _ seg => seg.ack
    Opens longPeer 0 hiHost.tcp (.connect 0 0x0A000202 80) ∧
    ∃ tr h, Run NetHost.step (Admits (Lives longPeer 0)) (hiHost.step hiOpen).2 tr h ∧
      tr.flatMap (fun o => acks o.2) = [1001, 1005] ∧ acks (h.step (.back 0)).1 = [1003] ∧
      received 0 (events tr) = [] ∧ (h.tcp.conns 0).unread = [104, 105, 104, 111] := by
  intro acks
  have hdata (seg : Segment) (h : seg = hiSynAck ∨ seg = hiData ∨ seg = hiMore) : longPeer.Sends seg := by
    rcases h with rfl | rfl | rfl
    · exact ⟨fun _ => rfl, fun h => absurd rfl h, fun h => absurd h (by decide)⟩
    · exact ⟨fun h => absurd h (by decide), fun _ => ⟨0, by decide, by decide⟩, fun h => absurd h (by decide)⟩
    · exact ⟨fun h => absurd h (by decide), fun _ => ⟨2, by decide, by decide⟩, fun h => absurd h (by decide)⟩
  refine ⟨hiOpen_opens longPeer, ?_⟩
  have hrun : Run NetHost.step (Admits (Lives longPeer 0)) _ [] (hiHost.step hiOpen).2 := .nil _
  have hrun := hrun.snoc (HostEvent.tcp 0 (hiPacket hiSynAck hiSynAck_short))
    (lives_packet (by decide +kernel) (by decide +kernel) (hdata _ (.inl rfl)))
  have hrun := hrun.snoc (HostEvent.arp (NetStack.arpFrame 0x0A000301).body.1 []) trivial
  have hrun := hrun.snoc (HostEvent.tcp 0 (hiPacket hiData hiData_short))
    (lives_packet (by decide +kernel) (by decide +kernel) (hdata _ (.inr (.inl rfl))))
  have hrun := hrun.snoc (HostEvent.tcp 0 (hiPacket hiMore hiMore_short))
    (lives_packet (by decide +kernel) (by decide +kernel) (hdata _ (.inr (.inr rfl))))
  have hrun := hrun.snoc (HostEvent.arp (NetStack.arpFrame 0x0A000202).body.1 []) trivial
  have hrun := hrun.snoc (HostEvent.back 0) trivial
  exact ⟨_, _, hrun, by decide +kernel, by decide +kernel, by decide +kernel, by decide +kernel⟩

end GannetOS.Net
