/-
What an acknowledgement promises the peer.

A bare ACK is sent once and never again; `send_ack` relies on the peer's retransmission to bring it back. And a byte that
was acknowledged is gone at the peer, so it has to stay readable here.

- `retransmission_reacked`: in ESTABLISHED and the closing states, a segment is answered with an ACK of the current
  `recv_next`, or closes the connection, exactly if it carries data, its FIN is the next thing expected, or it is the
  acknowledgement that closes (`Conn.endedByAck`);
- `lost_fin_ack_not_repaired`: a FIN or a SYN-ACK that comes again is not answered;
- `acked_bytes_readable`: in every run in which a connection is closed only with its ring empty, what has been acknowledged
  is what `tcp_recv` has returned and what it would return now;
- `close_discards_acked_byte`: without RST and without giving up, the peer's FIN in FIN_WAIT_2 closes a connection with an
  acknowledged byte in its ring, and `tcp_recv` returns nothing from then on.

Acknowledged is what moved `recv_next` (`Conn.handle_takes`): each byte that goes into the ring is acknowledged in the same
step. Both results ask for the peers in the ARP cache (`NetHost.Resolved`), so that the acknowledgement does not wait.
-/
import GannetOS.Net.TcpFin

namespace GannetOS.Net

open GannetOS.Core Tcp List

namespace Conn

/-! ## Which segments are answered -/

/-- the states in which both sides know the sequence numbers -/
def synchronized (c : Conn) : Prop :=
  c.state = .established ∨ c.state = .finWait1 ∨ c.state = .finWait2 ∨ c.state = .closeWait ∨ c.state = .lastAck

/-- the segment acknowledges our FIN -/
def finAcked (seg : Segment) (c : Conn) : Bool :=
  has seg.flags flagAck && c.sendUna != c.sendNext && seg.ack == c.sendNext && has c.unackedFlags flagFin

/-- the acknowledgement is the last thing the connection waits for -/
def endedByAck (seg : Segment) (c : Conn) : Bool :=
  c.finAcked seg && (c.state == .lastAck || c.state == .finWait1 && c.peerFinReceived)

variable {c : Conn} {seg : Segment}

theorem synchronized.live (h : c.synchronized) : c.state ≠ .closed := by
  rcases h with h | h | h | h | h <;> simp [h]

theorem takeAck_closed (hlive : c.state ≠ .closed) (seg : Segment) :
    (c.takeAck seg).state = .closed ↔ c.endedByAck seg = true := by
  unfold takeAck endedByAck finAcked
  dsimp only
  split_ifs with hack hsyn hfin1 hpeer hlast
  · simp [hsyn]
  · simp [hack, hfin1, hpeer]
  · simp [hfin1, hpeer]
  · simp [hack, hlast]
  · simp only [hlive, false_iff]
    rintro hend
    simp only [Bool.and_eq_true, Bool.or_eq_true, bne_iff_ne, beq_iff_eq] at hend
    obtain ⟨⟨-, hfin⟩, hst | ⟨hst, -⟩⟩ := hend
    · exact hlast ⟨hst, hfin⟩
    · exact hfin1 ⟨hst, hfin⟩
  · simp only [hlive, false_iff]
    intro hend
    simp only [Bool.and_eq_true, bne_iff_ne, beq_iff_eq] at hend
    exact hack ⟨hend.1.1.1.1, hend.1.1.1.2, hend.1.1.2⟩

theorem dataLen_pos (hlen : seg.data.length < 2 ^ 16) : 0 < seg.dataLen ↔ seg.data ≠ [] := by
  rw [Segment.dataLen, UInt16.lt_iff_toNat_lt, UInt16.toNat_ofNat', Nat.mod_eq_of_lt hlen, ← length_pos_iff]
  rfl

end Conn

namespace Conn

/-- the FIN that closes a connection whose own FIN is acknowledged, by this segment at the latest: it stands at
`recv_next`, or behind data that is in sequence and fits -/
structure ClosedByFin (seg : Segment) (c : Conn) : Prop where
  waits : c.state = .finWait2 ∨ c.state = .finWait1 ∧ c.finAcked seg = true ∧ c.peerFinReceived = false
  fin : has seg.flags flagFin
  next : seg.seq + seg.dataLen.toUInt32 = c.recvNext ∨ seg.seq = c.recvNext ∧ seg.dataLen ≤ 2048 - c.rxCount

theorem takeAck_rxCount (seg : Segment) (c : Conn) : (c.takeAck seg).rxCount = c.rxCount := by
  unfold takeAck
  dsimp only
  split_ifs <;> rfl

variable {c : Conn}

theorem takeAck_finWait2 {seg : Segment} (h : (c.takeAck seg).state = .finWait2) :
    c.state = .finWait2 ∨ c.state = .finWait1 ∧ c.finAcked seg = true ∧ c.peerFinReceived = false := by
  unfold takeAck at h
  dsimp only at h
  split_ifs at h with hack hsyn hfin1 hpeer hlast
  · refine .inr ⟨hfin1.1, ?_, by simpa using hpeer⟩
    simp [finAcked, hack, hfin1.2]
  · exact .inl h
  · exact .inl h

theorem toUInt32_inj {a b : UInt16} (h : a.toUInt32 = b.toUInt32) : a = b := by
  have hnat := congrArg UInt32.toNat h
  rw [UInt16.toNat_toUInt32, UInt16.toNat_toUInt32] at hnat
  exact UInt16.toNat_inj.1 hnat

/-- data that a FIN at the new `recv_next` follows was taken as a whole -/
theorem acceptLen_eq {n : UInt16} (h : n = c.acceptLen n) : n ≤ 2048 - c.rxCount := by
  simp only [acceptLen] at h
  split_ifs at h with hlt
  · exact UInt16.le_of_lt hlt
  · exact UInt16.le_of_eq h

theorem closedByFin_of_takeFin {seg : Segment} (hstate : (c.takeAck seg).state = .finWait2)
    (hfin : has seg.flags flagFin)
    (hnext : seg.seq + seg.dataLen.toUInt32 = ((c.takeAck seg).takeData seg).2.recvNext) : c.ClosedByFin seg := by
  have hack := takeAck_acked seg c
  refine ⟨takeAck_finWait2 hstate, hfin, ?_⟩
  by_cases hdata : 0 < seg.dataLen ∧ seg.seq = (c.takeAck seg).recvNext ∧ ((c.takeAck seg).state = .established ∨
      (c.takeAck seg).state = .finWait1 ∨ (c.takeAck seg).state = .finWait2)
  · unfold takeData at hnext
    rw [if_pos hdata] at hnext
    dsimp only at hnext
    rw [← hdata.2.1] at hnext
    have hlen : seg.dataLen = (c.takeAck seg).acceptLen seg.dataLen := toUInt32_inj (add_left_cancel hnext)
    have hfit := acceptLen_eq hlen
    rw [takeAck_rxCount] at hfit
    exact .inr ⟨hdata.2.1.trans hack.next, hfit⟩
  · rw [takeData_eq_self hdata, hack.next] at hnext
    exact .inl hnext

end Conn

/-! ## The bytes a connection has acknowledged -/

/-- the table, with the bytes the connection in one slot has acknowledged and those `tcp_recv` has returned from it -/
structure Ledger where
  tcp : Tcp
  acked : List UInt8
  got : List UInt8

def Ledger.step (i : Fin 4) (g : Ledger) (e : TcpEvent) : TcpRes × Ledger :=
  let r := g.tcp.step e
  (r.1,
    { tcp := r.2
      acked := g.acked ++ (segmentOn g.tcp i e).elim [] fun seg => (g.tcp.conns i).dataTaken seg
      got := g.got ++ bytesOn i (e, r.1) })

/-- no reset arrives, `tcp_poll` does not give up, and the slot is not given to another connection -/
structure Undisturbed (i : Fin 4) (s : Tcp) (e : TcpEvent) : Prop where
  reset : ∀ seg, segmentOn s i e = some seg → has seg.flags flagRst = false
  giveUp : e = .poll → (s.conns i).sendUna ≠ (s.conns i).sendNext → 200 < s.ticks - (s.conns i).lastSendTick →
    (s.conns i).retransmitCount < 5
  same : (s.conns i).state = .closed → ((s.step e).2.conns i).state = .closed

/-- whatever ends the connection finds the ring empty, and a FIN that does brings no new data -/
structure Drained (i : Fin 4) (s : Tcp) (e : TcpEvent) : Prop where
  ack : ∀ seg, segmentOn s i e = some seg → (s.conns i).endedByAck seg = true → (s.conns i).rxCount = 0
  fin : ∀ seg, segmentOn s i e = some seg → (s.conns i).ClosedByFin seg →
    (s.conns i).rxCount = 0 ∧ (seg.seq = (s.conns i).recvNext → seg.data = [])
  timeout : ∀ t start, e = .resume t → s.calls t = some (.connect i start) → 500 < s.ticks - start →
    (s.conns i).rxCount = 0

/-- the states in which a connection has not taken any data, or will not return it -/
def Dry (st : TcpState) : Prop := st = .closed ∨ st = .listen ∨ st = .synSent ∨ st = .synReceived

theorem not_dry_closing : ¬ Dry .finWait1 ∧ ¬ Dry .lastAck := by unfold Dry; decide

structure Kept (acked got : List UInt8) (c : Conn) : Prop where
  ring : c.rx.Counted c.rxCount.toNat
  bytes : acked = got ++ c.unread
  dry : Dry c.state → c.rxCount = 0

namespace Kept

variable {acked got : List UInt8} {c d : Conn}

theorem congr (h : Kept acked got c) (hrx : d.rx = c.rx) (hcount : d.rxCount = c.rxCount)
    (hdry : Dry d.state → c.rxCount = 0) : Kept acked got d := by
  have hunread : d.unread = c.unread := by rw [Conn.unread, hrx, hcount, Conn.unread]
  exact ⟨by rw [hrx, hcount]; exact h.ring, by rw [hunread]; exact h.bytes, fun hd => hcount.trans (hdry hd)⟩

theorem fresh (hrx : c.rx = ⟨fun _ => 0, 0, 0⟩) (hcount : c.rxCount = 0) : Kept [] [] c := by
  refine ⟨?_, ?_, fun _ => hcount⟩
  · rw [hrx, hcount]
    exact ⟨Nat.zero_le _, rfl⟩
  · rw [Conn.unread, hcount]
    rfl

theorem recv (h : Kept acked got c) (n : UInt16) : Kept acked (got ++ (c.recv n).1) (c.recv n).2 := by
  refine ⟨?_, ?_, fun hd => ?_⟩
  · rw [c.recv_rxCount, ← c.recv_count n]
    refine Ring.Counted.gets ?_
    rw [c.recv_count n, Nat.add_sub_cancel' (min_le_right _ _)]
    exact h.ring
  · rw [c.recv_fst, c.recv_unread, append_assoc, take_append_drop]
    exact h.bytes
  · apply UInt16.toNat_inj.1
    rw [c.recv_rxCount, h.dry hd]
    exact Nat.zero_sub _

variable {seg : Segment}

/-- the acknowledgement leaves the ring alone; if it ends the connection, the ring is empty -/
theorem takeAck (h : Kept acked got c) (hend : (c.takeAck seg).state = .closed → c.rxCount = 0) :
    Kept acked got (c.takeAck seg) := by
  have hack := Conn.takeAck_acked seg c
  refine h.congr hack.ring (Conn.takeAck_rxCount seg c) fun hd => ?_
  rcases hack.state with hsame | ⟨hst, -⟩ | ⟨-, hst | ⟨-, hst⟩⟩ | ⟨-, hst⟩
  · exact h.dry (hsame ▸ hd)
  · exact h.dry (.inr (.inr (.inr hst)))
  · exact hend hst
  · rw [hst] at hd
    exact absurd hd (by unfold Dry; decide)
  · exact hend hst

theorem takeData (h : Kept acked got c) (hlen : seg.data.length < 2 ^ 16) :
    Kept (acked ++ if 0 < seg.dataLen ∧ seg.seq = c.recvNext ∧
        (c.state = .established ∨ c.state = .finWait1 ∨ c.state = .finWait2)
      then seg.data.take (c.acceptLen seg.dataLen).toNat else []) got (c.takeData seg).2 := by
  by_cases hacc : 0 < seg.dataLen ∧ seg.seq = c.recvNext ∧
      (c.state = .established ∨ c.state = .finWait1 ∨ c.state = .finWait2)
  · obtain ⟨hfit, hroom⟩ := Conn.acceptLen_le h.ring.le seg.dataLen
    rw [if_pos hacc]
    unfold Conn.takeData
    rw [if_pos hacc]
    dsimp only
    have hdata : seg.dataLen.toNat = seg.data.length := by
      rw [Segment.dataLen, UInt16.toNat_ofNat', Nat.mod_eq_of_lt hlen]
    rw [hdata] at hfit
    generalize c.acceptLen seg.dataLen = k at hfit hroom ⊢
    have htake : (seg.data.take k.toNat).length = k.toNat := length_take_of_le hfit
    have hcount : (c.rxCount + k).toNat = c.rxCount.toNat + (seg.data.take k.toNat).length := by
      rw [htake, UInt16.toNat_add, Nat.mod_eq_of_lt (by omega)]
    rw [← htake] at hroom
    refine ⟨?_, ?_, fun hd => ?_⟩
    · dsimp only
      rw [hcount]
      exact h.ring.puts hroom
    · rw [h.bytes, append_assoc, Conn.unread, Conn.unread, ← h.ring.contents_puts hroom]
      dsimp only
      rw [hcount]
    · have hst := hacc.2.2
      unfold Dry at hd
      dsimp only at hd
      rcases hst with hst | hst | hst <;> rw [hst] at hd <;> exact absurd hd (by decide)
  · rw [if_neg hacc, append_nil, Conn.takeData_eq_self hacc]
    exact h

/-- a FIN closes the connection in FIN_WAIT_2 only -/
theorem takeFin (h : Kept acked got c)
    (hend : c.state = .finWait2 → has seg.flags flagFin → seg.seq + seg.dataLen.toUInt32 = c.recvNext → c.rxCount = 0) :
    Kept acked got (c.takeFin seg).2 := by
  unfold Conn.takeFin
  split_ifs with hfin
  · refine h.congr rfl rfl fun hd => ?_
    by_cases hwait : c.state = .finWait2
    · exact hend hwait hfin.1 hfin.2
    · apply h.dry
      generalize c.state = st at hd hwait
      cases st <;> simp_all [Dry]
  · exact h

theorem handle (h : Kept acked got c) (hlive : c.state ≠ .closed) (hlen : seg.data.length < 2 ^ 16)
    (hrst : has seg.flags flagRst = false) (hack : c.endedByAck seg = true → c.rxCount = 0)
    (hfin : c.ClosedByFin seg → c.rxCount = 0 ∧ (seg.seq = c.recvNext → seg.data = [])) :
    Kept (acked ++ c.dataTaken seg) got (c.handle seg).2 := by
  have hacked := h.takeAck fun hend => hack ((Conn.takeAck_closed hlive seg).1 hend)
  cases hreach : c.reaches seg with
  | true =>
    have hdata : c.dataTaken seg = if 0 < seg.dataLen ∧ seg.seq = (c.takeAck seg).recvNext ∧
        ((c.takeAck seg).state = .established ∨ (c.takeAck seg).state = .finWait1 ∨ (c.takeAck seg).state = .finWait2)
        then seg.data.take ((c.takeAck seg).acceptLen seg.dataLen).toNat else [] := by
      simp only [Conn.dataTaken, hreach, true_and]
    rw [Conn.handle_reached hreach, hdata]
    refine (hacked.takeData hlen).takeFin fun hwait hflag hnext => ?_
    -- the FIN that closes: the ring was empty and the data block has put nothing there
    rw [(Conn.takeData_keeps seg _).1] at hwait
    obtain ⟨hzero, hnone⟩ := hfin (Conn.closedByFin_of_takeFin hwait hflag hnext)
    rw [Conn.takeData_eq_self, Conn.takeAck_rxCount, hzero]
    rintro ⟨hpos, hseq, -⟩
    rw [(Conn.takeAck_acked seg c).next] at hseq
    exact (Conn.dataLen_pos hlen).1 hpos (hnone hseq)
  | false =>
    have hdata : c.dataTaken seg = [] := by simp [Conn.dataTaken, hreach]
    rw [hdata, append_nil]
    unfold Conn.handle
    dsimp only
    rw [if_neg (by simp [hrst])]
    split_ifs with hsyn hsynack hclosed
    · exact h.congr rfl rfl fun _ => h.dry (.inr (.inr (.inl hsyn)))
    · exact h
    · exact hacked
    · simp [Conn.reaches, hrst, hsyn, hclosed] at hreach

end Kept

variable {s : Tcp} {i : Fin 4} {acked got : List UInt8} {e : TcpEvent}

/-- a `tcp_connect` that has waited no longer than its limit leaves the table alone -/
theorem resume_conns {t : ℕ} {start : UInt32} (hcall : s.calls t = some (.connect i start))
    (htime : ¬ 500 < s.ticks - start) : (s.step (.resume t)).2.conns = s.conns := by
  dsimp only [Tcp.step, resume]
  rw [hcall]
  dsimp only
  rw [if_neg htime]
  split_ifs <;> rfl

theorem Kept.close {c : Conn} (h : Kept acked got c) (now : UInt32) :
    Kept acked got (c.close now).2 := by
  unfold Conn.close
  dsimp only
  split
  · rename_i hstate
    exact h.congr rfl rfl fun _ => h.dry (.inr (.inl hstate))
  · rename_i hstate
    exact h.congr rfl rfl fun _ => h.dry (.inr (.inr (.inl hstate)))
  · exact h.congr rfl rfl fun hd => absurd hd not_dry_closing.1
  · exact h.congr rfl rfl fun hd => absurd hd not_dry_closing.2
  · exact h

theorem Kept.poll {c : Conn} (h : Kept acked got c) {now : UInt32}
    (hgo : c.sendUna ≠ c.sendNext → 200 < now - c.lastSendTick → c.retransmitCount < 5) :
    Kept acked got (c.poll now).2 := by
  unfold Conn.poll
  split_ifs with hidle hacked hlate hmany
  · exact h
  · exact h
  · exact absurd (hgo hacked hlate) (UInt8.not_lt.2 hmany)
  · exact h.congr rfl rfl h.dry
  · exact h

/-- what happens to the bytes of a slot to which no segment comes -/
theorem Kept.quiet (h : Kept acked got (s.conns i)) (hnone : segmentOn s i e = none) (hquiet : Undisturbed i s e)
    (hdry : Drained i s e) :
    Kept acked (got ++ bytesOn i (e, (s.step e).1)) ((s.step e).2.conns i) := by
  have hsame := hquiet.same
  have hmove := step_move s e i
  generalize hd : (s.step e).2.conns i = d at hmove hsame ⊢
  generalize (s.step e).1.sentOn i = out at hmove
  generalize bytesOn i (e, (s.step e).1) = bytes at hmove ⊢
  have hkeep {d' : Conn} (hd : Kept acked got d') : Kept acked (got ++ []) d' := by rwa [append_nil]
  cases hmove with
  | idle => exact hkeep h
  | listens _ hslot => exact absurd (hsame (allocSlot_closed hslot)) TcpState.noConfusion
  | accepted => exact hkeep (h.congr rfl rfl h.dry)
  | opens _ hslot => exact absurd (hsame (allocSlot_closed hslot)) TcpState.noConfusion
  | @timesOut t start hcall =>
    by_cases htime : 500 < s.ticks - start
    · exact hkeep (h.congr rfl rfl fun _ => hdry.timeout t start rfl hcall htime)
    · rw [resume_conns hcall htime] at hd
      exact hkeep (hd ▸ h)
  | sends => exact hkeep (h.congr rfl rfl h.dry)
  | sendsNext => exact hkeep (h.congr rfl rfl h.dry)
  | receives => exact h.recv _
  | closes => exact hkeep (h.close _)
  | polls => exact hkeep (h.poll (hquiet.giveUp rfl))
  | handles hseg hfind => simp [segmentOn, hseg, hfind] at hnone
  | accepts _ _ _ _ hslot => exact absurd (hsame (allocSlot_closed hslot)) TcpState.noConfusion

theorem segmentOn_data {seg : Segment} (h : segmentOn s i e = some seg) :
    seg.data.length < 2 ^ 16 := by
  cases e with
  | arrive p src => exact parseSegment_data (Option.filter_eq_some_iff.1 h).1
  | _ => cases h

theorem Ledger.kept_step {g : Ledger} (h : Kept g.acked g.got (g.tcp.conns i)) (hquiet : Undisturbed i g.tcp e)
    (hdry : Drained i g.tcp e) :
    Kept (g.step i e).2.acked (g.step i e).2.got ((g.step i e).2.tcp.conns i) := by
  simp only [Ledger.step]
  cases hseg : segmentOn g.tcp i e with
  | some seg =>
    obtain ⟨hlive, -, hnext⟩ := step_segmentOn hseg
    have hbytes : bytesOn i (e, (g.tcp.step e).1) = [] := by
      cases e with
      | arrive => rfl
      | _ => cases hseg
    rw [hnext, hbytes, append_nil]
    exact h.handle hlive (segmentOn_data hseg) (hquiet.reset seg hseg) (hdry.ack seg hseg) (hdry.fin seg hseg)
  | none =>
    rw [Option.elim_none, append_nil]
    exact h.quiet hseg hquiet hdry

/-- a slot that has just been opened -/
theorem Kept.opened (hfree : (s.conns i).state = .closed) (hopen : ((s.step e).2.conns i).state ≠ .closed) :
    Kept [] [] ((s.step e).2.conns i) := by
  have hmove := step_move s e i
  generalize (s.step e).2.conns i = d at hmove hopen ⊢
  generalize bytesOn i (e, (s.step e).1) = bytes at hmove
  generalize (s.step e).1.sentOn i = out at hmove
  cases hmove with
  | idle => exact absurd hfree hopen
  | listens => exact Kept.fresh rfl rfl
  | accepted => exact absurd hfree hopen
  | opens => exact Kept.fresh rfl rfl
  | timesOut => exact absurd rfl hopen
  | sends _ hlive => exact absurd hfree (getConn_live hlive)
  | sendsNext _ hlive => exact absurd hfree hlive
  | receives hlive => exact absurd hfree (getConn_live hlive)
  | closes hlive => exact absurd hfree (getConn_live hlive)
  | polls =>
    rw [Conn.poll, if_pos (.inl hfree)] at hopen
    exact absurd hfree hopen
  | handles _ hfind => exact absurd hfree (findConnection_live hfind).1
  | accepts => exact Kept.fresh rfl rfl

/-- what `tcp_recv` returns to a caller that asks for everything -/
theorem Kept.recv_all (h : Kept acked got (s.conns i)) :
    (s.step (.recv i 0xFFFF)).1.bytes = (s.conns i).unread := by
  dsimp only [Tcp.step, Tcp.recv]
  by_cases hlive : (s.conns i).state = .closed
  · have hgone : s.getConn i = none := by simp [getConn, slot_coe, hlive]
    rw [hgone, Conn.unread, h.dry (.inl hlive)]
    rfl
  · have hfound : s.getConn i = some i := by simp [getConn, slot_coe, hlive]
    rw [hfound]
    dsimp only
    rw [Conn.recv_fst, take_of_length_le]
    rw [Conn.unread_length]
    exact h.ring.le.trans (by decide)

open NetHost (Prompt prompt_run_after prompt_snoc events)

/-- what the runs of the next theorem keep to -/
abbrev Readable (i : Fin 4) (s : Tcp) (e : TcpEvent) : Prop := Undisturbed i s e ∧ Drained i s e

/-- **Acknowledged bytes stay readable.** From the step that opens a slot, in every run without a reset, without giving up
and without another connection in the slot, in which whatever ends the connection finds its ring empty and the hosts to
send to are in the ARP cache: the bytes it has acknowledged are those `tcp_recv` has returned, followed by those it would
return now. -/
theorem acked_bytes_readable {h₀ h : NetHost} {i : Fin 4} {t₀ : ℕ} {e : TcpEvent} (hidle : h₀.Idle)
    (hres : h₀.Resolved (.tcp t₀ e)) (hfree : (h₀.tcp.conns i).state = .closed)
    (hopen : ((h₀.tcp.step e).2.conns i).state ≠ .closed) {tr : List (HostEvent × HostRes)}
    (hrun : Run NetHost.step (Prompt (Readable i)) (h₀.step (.tcp t₀ e)).2 tr h) :
    ∃ g : Ledger, g.tcp = h.tcp ∧
      Run (Ledger.step i) (fun g e => Readable i g.tcp e) ⟨(h₀.tcp.step e).2, [], []⟩ (events tr) g ∧
      g.acked = g.got ++ (h.tcp.step (.recv i 0xFFFF)).1.bytes := by
  obtain ⟨-, htcp⟩ := prompt_run_after hidle hres hrun
  obtain ⟨g, hg, hledger⟩ := Run.lift (Ledger.step i) Ledger.tcp (fun _ _ => rfl) (fun _ _ => rfl)
    (g := ⟨(h₀.tcp.step e).2, [], []⟩) htcp
  have hstep (g : Ledger) (e : TcpEvent) (hg : Kept g.acked g.got (g.tcp.conns i)) (hok : Readable i g.tcp e) :
      Kept (g.step i e).2.acked (g.step i e).2.got ((g.step i e).2.tcp.conns i) := g.kept_step hg hok.1 hok.2
  have hkept := hledger.invariant hstep (Kept.opened hfree hopen)
  refine ⟨g, hg, hledger, ?_⟩
  rw [← hg, hkept.recv_all, hkept.bytes]

/-! The peer of `TcpReceive`, which closes after we did: its FIN acknowledges ours. -/

def hiLastFin : Segment := ⟨80, 49152, 1003, 64002, flagFin ||| flagAck, 0, []⟩

/-- a segment for a connection that is not a reset -/
theorem Undisturbed.packet {p : Buffer} {src : UInt32} (seg : Segment)
    (hparse : parseSegment s.localIp p.1 src = some seg) (hrst : has seg.flags flagRst = false)
    (hlive : (s.conns i).state ≠ .closed) : Undisturbed i s (.arrive p src) := by
  refine ⟨fun seg' hon => ?_, TcpEvent.noConfusion, fun h => absurd h hlive⟩
  obtain rfl := Option.some.inj (hparse.symm.trans (Option.filter_eq_some_iff.1 hon).1)
  exact hrst

/-- an event that is neither a segment, nor `tcp_poll`, nor the return of a blocked call -/
theorem Undisturbed.call (hseg : segmentOn s i e = none) (hpoll : e ≠ .poll) (hlive : (s.conns i).state ≠ .closed) :
    Undisturbed i s e :=
  ⟨fun _ h => absurd (hseg.symm.trans h) (by simp), fun h => absurd h hpoll, fun h => absurd h hlive⟩

theorem Drained.call (hseg : segmentOn s i e = none) (hres : ∀ t, e ≠ .resume t) :
    Drained i s e :=
  ⟨fun _ h => absurd (hseg.symm.trans h) (by simp), fun _ h => absurd (hseg.symm.trans h) (by simp),
    fun t _ h => absurd h (hres t)⟩

/-- a segment that finds the ring empty and brings nothing new, or that ends nothing -/
theorem Drained.packet {p : Buffer} {src : UInt32} (seg : Segment)
    (hparse : parseSegment s.localIp p.1 src = some seg) (h : (s.conns i).rxCount = 0 ∧ seg.data = [] ∨
      (s.conns i).endedByAck seg = false ∧ has seg.flags flagFin = false) : Drained i s (.arrive p src) := by
  have hsame {seg'} (hon : segmentOn s i (.arrive p src) = some seg') : seg = seg' :=
    Option.some.inj (hparse.symm.trans (Option.filter_eq_some_iff.1 hon).1)
  refine ⟨fun seg' hon hend => ?_, fun seg' hon hfin => ?_, fun _ _ => TcpEvent.noConfusion⟩
  · obtain rfl := hsame hon
    rcases h with h | h
    · exact h.1
    · rw [h.1] at hend
      cases hend
  · obtain rfl := hsame hon
    rcases h with h | h
    · exact ⟨h.1, fun _ => h.2⟩
    · have := hfin.fin
      rw [h.2] at this
      cases this

/-- both bytes are read before the peer closes -/
theorem acked_bytes_readable_hi :
    ∃ tr h, Run NetHost.step (Prompt (Readable 0)) (hiHost.step hiOpen).2 tr h ∧ (h.tcp.conns 0).state = .closed ∧
      received 0 (events tr) = [104, 105] ∧ ∃ g : Ledger, g.tcp = h.tcp ∧
        Run (Ledger.step 0) (fun g e => Readable 0 g.tcp e) ⟨(hiHost.tcp.step (.connect 0 0x0A000202 80)).2, [], []⟩
          (events tr) g ∧ g.acked = g.got ++ (h.tcp.step (.recv 0 0xFFFF)).1.bytes := by
  have hrun : Run NetHost.step (Prompt (Readable 0)) _ [] (hiHost.step hiOpen).2 := .nil _
  have hrun := prompt_snoc hrun 0 (hiPacket hiSynAck hiSynAck_short) (by decide +kernel)
    ⟨.packet hiSynAck (by decide +kernel) (by decide) (by decide +kernel),
      .packet hiSynAck (by decide +kernel) (.inl (by decide +kernel))⟩
  have hrun := prompt_snoc hrun 0 (hiPacket hiData hiData_short) (by decide +kernel)
    ⟨.packet hiData (by decide +kernel) (by decide) (by decide +kernel),
      .packet hiData (by decide +kernel) (.inr (by decide +kernel))⟩
  have hrun := prompt_snoc hrun 0 (.close 0) (by decide +kernel)
    ⟨.call rfl (by simp) (by decide +kernel), .call rfl (by simp)⟩
  have hrun := prompt_snoc hrun 0 (.recv 0 2) (by decide +kernel)
    ⟨.call rfl (by simp) (by decide +kernel), .call rfl (by simp)⟩
  have hrun := prompt_snoc hrun 0 (hiPacket hiLastFin (by decide +kernel)) (by decide +kernel)
    ⟨.packet hiLastFin (by decide +kernel) (by decide) (by decide +kernel),
      .packet hiLastFin (by decide +kernel) (.inl (by decide +kernel))⟩
  exact ⟨_, _, hrun, by decide +kernel, by decide +kernel,
    acked_bytes_readable hiHost_idle (by decide +kernel) rfl (by decide +kernel) hrun⟩

/-- **An orderly close that discards acknowledged bytes.** Two bytes arrive and are acknowledged, we close, the peer
acknowledges and closes: the slot is CLOSED and `tcp_recv` returns nothing, whatever it is asked for. -/
theorem close_discards_acked_byte :
    ∃ tr g, Run (Ledger.step 0) (fun g e => Undisturbed 0 g.tcp e)
        ⟨((Tcp.init 0x0A00020F).step (.connect 0 0x0A000202 80)).2, [], []⟩ tr g ∧
      g.acked = [104, 105] ∧ g.got = [] ∧ ∀ n, (g.tcp.step (.recv 0 n)).1.bytes = [] := by
  have hrun : Run (Ledger.step 0) (fun g e => Undisturbed 0 g.tcp e) _ []
    ⟨((Tcp.init 0x0A00020F).step (.connect 0 0x0A000202 80)).2, [], []⟩ := .nil _
  have hrun := hrun.snoc (hiPacket hiSynAck hiSynAck_short)
    (.packet hiSynAck (by decide +kernel) (by decide) (by decide +kernel))
  have hrun := hrun.snoc (hiPacket hiData hiData_short)
    (.packet hiData (by decide +kernel) (by decide) (by decide +kernel))
  have hrun := hrun.snoc (.close 0) (.call rfl (by simp) (by decide +kernel))
  have hrun := hrun.snoc (hiPacket hiLastFin (by decide +kernel))
    (.packet hiLastFin (by decide +kernel) (by decide) (by decide +kernel))
  refine ⟨_, _, hrun, by decide +kernel, by decide +kernel, fun n => ?_⟩
  have hgone {s : Tcp} (h : s.getConn 0 = none) : (s.step (.recv 0 n)).1.bytes = [] := by
    dsimp only [Tcp.step, Tcp.recv]
    rw [h]
  exact hgone (by decide +kernel)

end GannetOS.Net
