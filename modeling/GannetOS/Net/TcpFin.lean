/-
The peer's FIN.

The machine of `Tcp.lean` is run with ghost counters (`Watched`): for each slot, how many FINs the connection in it has
consumed since it was opened, and the data that went into its ring after the first. `finTaken` and `dataTaken` read them
off the blocks of `tcp_handle_packet`; `handle_takes` says that `recv_next` and the ring move by exactly these.

Result: `fin_consumed_once`. If no segment brings a FIN to `recv_next` during the handshake without completing it, and
nothing comes in sequence after a FIN, then in every state reached each connection has consumed at most one FIN, buffered
no data after it, and is in CLOSE_WAIT, LAST_ACK, FIN_WAIT_1 or CLOSED once it has. The runs are those of a host with its
peers in the ARP cache (`NetHost.Prompt`).

The code itself asks none of this of the peer (`fin_unchecked`): a second FIN right after the first is consumed as well;
in FIN_WAIT_1 data behind the FIN is buffered; a FIN without ACK is consumed in SYN_RECEIVED and leaves the state as it is.
-/
import GannetOS.Net.TcpReceive

namespace GannetOS.Net

open GannetOS.Core Tcp

/-! ## What a segment moves -/

namespace Conn

/-- a segment reaches the data and FIN blocks -/
def reaches (seg : Segment) (c : Conn) : Bool :=
  !has seg.flags flagRst && c.state != .synSent && (c.takeAck seg).state != .closed

/-- the data that goes into the ring -/
def dataTaken (seg : Segment) (c : Conn) : List UInt8 :=
  let c₁ := c.takeAck seg
  if c.reaches seg ∧ 0 < seg.dataLen ∧ seg.seq = c₁.recvNext ∧
      (c₁.state = .established ∨ c₁.state = .finWait1 ∨ c₁.state = .finWait2) then
    seg.data.take (c₁.acceptLen seg.dataLen).toNat
  else []

/-- the FIN is consumed -/
def finTaken (seg : Segment) (c : Conn) : Bool :=
  c.reaches seg && has seg.flags flagFin &&
    seg.seq + seg.dataLen.toUInt32 == ((c.takeAck seg).takeData seg).2.recvNext

/-- what the acknowledgement can change -/
structure Acked (seg : Segment) (c d : Conn) : Prop where
  next : d.recvNext = c.recvNext
  ring : d.rx = c.rx
  fin : d.peerFinReceived = c.peerFinReceived
  state : d.state = c.state ∨ (c.state = .synReceived ∧ d.state = .established) ∨
    (c.state = .finWait1 ∧ (d.state = .closed ∨ c.peerFinReceived = false ∧ d.state = .finWait2)) ∨
    (c.state = .lastAck ∧ d.state = .closed)
  handshake : d.state = .synReceived → ¬ (has seg.flags flagAck ∧ c.sendUna ≠ c.sendNext ∧ seg.ack = c.sendNext) ∧
    d.sendUna = c.sendUna ∧ d.sendNext = c.sendNext

theorem takeAck_acked (seg : Segment) (c : Conn) : Acked seg c (c.takeAck seg) := by
  unfold takeAck
  dsimp only
  split_ifs with hack hsyn hfin1 hpeer hlast
  · exact ⟨rfl, rfl, rfl, .inr (.inl ⟨hsyn, rfl⟩), fun h => TcpState.noConfusion h⟩
  · exact ⟨rfl, rfl, rfl, .inr (.inr (.inl ⟨hfin1.1, .inl rfl⟩)), fun h => TcpState.noConfusion h⟩
  · exact ⟨rfl, rfl, rfl, .inr (.inr (.inl ⟨hfin1.1, .inr ⟨by simpa using hpeer, rfl⟩⟩)),
      fun h => TcpState.noConfusion h⟩
  · exact ⟨rfl, rfl, rfl, .inr (.inr (.inr ⟨hlast.1, rfl⟩)), fun h => TcpState.noConfusion h⟩
  · exact ⟨rfl, rfl, rfl, .inl rfl, fun h => absurd h hsyn⟩
  · exact ⟨rfl, rfl, rfl, .inl rfl, fun _ => ⟨hack, rfl, rfl⟩⟩

/-- the data block moves only the ring and `recv_next` -/
theorem takeData_keeps (seg : Segment) (c : Conn) :
    (c.takeData seg).2.state = c.state ∧ (c.takeData seg).2.peerFinReceived = c.peerFinReceived ∧
      (c.takeData seg).2.sendUna = c.sendUna ∧ (c.takeData seg).2.sendNext = c.sendNext := by
  unfold takeData
  split_ifs <;> exact ⟨rfl, rfl, rfl, rfl⟩

variable {seg : Segment} {c : Conn}

/-- data that is not in sequence, or comes in another state, changes nothing -/
theorem takeData_eq_self (h : ¬ (0 < seg.dataLen ∧ seg.seq = c.recvNext ∧
      (c.state = .established ∨ c.state = .finWait1 ∨ c.state = .finWait2))) : (c.takeData seg).2 = c := by
  unfold takeData
  rw [if_neg h]
  split_ifs <;> rfl

theorem acceptLen_le_dataLen (c : Conn) (dataLen : UInt16) : (c.acceptLen dataLen).toNat ≤ dataLen.toNat := by
  simp only [acceptLen]
  split_ifs with hlt
  · exact le_rfl
  · rw [UInt16.lt_iff_toNat_lt] at hlt
    omega

theorem handle_reached (h : c.reaches seg = true) :
    (c.handle seg).2 = (((c.takeAck seg).takeData seg).2.takeFin seg).2 := by
  simp only [reaches, Bool.and_eq_true, Bool.not_eq_true', bne_iff_ne] at h
  obtain ⟨⟨hrst, hsyn⟩, hclosed⟩ := h
  unfold handle
  dsimp only
  rw [if_neg (by simp [hrst]), if_neg hsyn, if_neg hclosed]

/-- a segment that is a reset, that belongs to the active handshake, or that ends the connection -/
theorem handle_not_reached (h : c.reaches seg = false) :
    (c.handle seg).2.peerFinReceived = c.peerFinReceived ∧ (c.handle seg).2.rx = c.rx ∧
      ((c.handle seg).2.state = .closed ∧ (c.handle seg).2.recvNext = c.recvNext ∨
        c.state = .synSent ∧ ((c.handle seg).2 = c ∨ (c.handle seg).2.state = .established)) := by
  have hack := takeAck_acked seg c
  unfold handle
  dsimp only
  split_ifs with hrst hsyn hsynack hclosed
  · exact ⟨rfl, rfl, .inl ⟨rfl, rfl⟩⟩
  · exact ⟨rfl, rfl, .inr ⟨hsyn, .inr rfl⟩⟩
  · exact ⟨rfl, rfl, .inr ⟨hsyn, .inl rfl⟩⟩
  · exact ⟨hack.fin, hack.ring, .inl ⟨hclosed, hack.next⟩⟩
  · simp [reaches, hrst, hsyn, hclosed] at h

theorem takeFin_next (seg : Segment) (c : Conn) :
    (c.takeFin seg).2.recvNext =
      c.recvNext + if has seg.flags flagFin ∧ seg.seq + seg.dataLen.toUInt32 = c.recvNext then 1 else 0 := by
  unfold takeFin
  split_ifs
  · rfl
  · exact (UInt32.add_zero _).symm

theorem takeFin_ring (seg : Segment) (c : Conn) : (c.takeFin seg).2.rx = c.rx := by
  unfold takeFin
  split_ifs <;> rfl

/-- the ring takes `dataTaken`, and `recv_next` moves by its length and by one for the FIN -/
theorem handle_takes (hlen : seg.data.length < 2 ^ 16) (hsyn : c.state ≠ .synSent) :
    (c.handle seg).2.rx = c.rx.puts (c.dataTaken seg) ∧
      (c.handle seg).2.recvNext =
        c.recvNext + UInt32.ofNat (c.dataTaken seg).length + if c.finTaken seg then 1 else 0 := by
  have hack := takeAck_acked seg c
  cases hreach : c.reaches seg with
  | false =>
    obtain ⟨-, hring, ⟨-, hnext⟩ | ⟨hsyn', -⟩⟩ := handle_not_reached hreach
    · have hdata : c.dataTaken seg = [] := by simp [dataTaken, hreach]
      have hfin : c.finTaken seg = false := by simp [finTaken, hreach]
      rw [hring, hnext, hdata, hfin]
      exact ⟨rfl, by simp⟩
    · exact absurd hsyn' hsyn
  | true =>
    have hfin : c.finTaken seg = true ↔
        has seg.flags flagFin ∧ seg.seq + seg.dataLen.toUInt32 = ((c.takeAck seg).takeData seg).2.recvNext := by
      simp [finTaken, hreach]
    rw [handle_reached hreach, takeFin_ring, takeFin_next, if_congr hfin.symm rfl rfl]
    generalize (if c.finTaken seg = true then (1 : UInt32) else 0) = fin
    simp only [takeData, dataTaken, hreach, true_and]
    split_ifs with hacc hpos
    · have hcut : (seg.data.take ((c.takeAck seg).acceptLen seg.dataLen).toNat).length =
          ((c.takeAck seg).acceptLen seg.dataLen).toNat := by
        have hle := acceptLen_le_dataLen (c.takeAck seg) seg.dataLen
        rw [Segment.dataLen, UInt16.toNat_ofNat', Nat.mod_eq_of_lt hlen] at hle
        rw [List.length_take, Segment.dataLen]
        exact min_eq_left hle
      have hwide : ((c.takeAck seg).acceptLen seg.dataLen).toUInt32 =
          UInt32.ofNat ((c.takeAck seg).acceptLen seg.dataLen).toNat := UInt32.toNat_inj.1 (by simp)
      dsimp only
      rw [hcut, hack.ring, hack.next, hwide]
      exact ⟨rfl, rfl⟩
    all_goals
      dsimp only
      rw [hack.ring, hack.next, Ring.puts]
      simp

end Conn

/-! ## Counting -/

/-- the segment an event brings to the connection in slot `i` -/
def segmentOn (s : Tcp) (i : Fin 4) : TcpEvent → Option Segment
  | .arrive p src =>
    (parseSegment s.localIp p.1 src).filter fun seg => s.findConnection seg.dstPort src seg.srcPort = some i
  | _ => none

/-- the table with ghost state: the FINs each connection has consumed, and what it buffered after the first -/
structure Watched where
  tcp : Tcp
  fins : Fin 4 → ℕ
  late : Fin 4 → List UInt8

namespace Watched

def init (ip : UInt32) : Watched := ⟨Tcp.init ip, fun _ => 0, fun _ => []⟩

/-- the counters start again where a free slot is opened -/
def step (g : Watched) (e : TcpEvent) : TcpRes × Watched :=
  let r := g.tcp.step e
  let opens (i : Fin 4) : Prop := (g.tcp.conns i).state = .closed ∧ (r.2.conns i).state ≠ .closed
  (r.1,
    { tcp := r.2
      fins := fun i =>
        if opens i then 0
        else g.fins i + ((segmentOn g.tcp i e).elim 0 fun seg => ((g.tcp.conns i).finTaken seg).toNat)
      late := fun i =>
        if opens i then []
        else g.late i ++ (segmentOn g.tcp i e).elim [] fun seg =>
          if 0 < g.fins i then (g.tcp.conns i).dataTaken seg else [] })

end Watched

/-! ## The invariant -/

/-- the states in which the peer's FIN has been consumed -/
def PeerDone (st : TcpState) : Prop := st = .closeWait ∨ st = .lastAck ∨ st = .finWait1 ∨ st = .closed

structure FinOnce (fins : ℕ) (late : List UInt8) (c : Conn) : Prop where
  count : fins = c.peerFinReceived.toNat
  late : late = []
  done : c.peerFinReceived = true → PeerDone c.state
  handshake : c.state = .synReceived → c.sendUna ≠ c.sendNext

/-- what the peer may send to a connection: a FIN at `recv_next` completes the handshake, and after a FIN nothing is in
sequence -/
structure InSequence (c : Conn) (seg : Segment) : Prop where
  handshake : c.state = .synReceived → has seg.flags flagFin → seg.seq + seg.dataLen.toUInt32 = c.recvNext →
    has seg.flags flagAck ∧ seg.ack = c.sendNext
  fin : c.peerFinReceived = true → has seg.flags flagFin → seg.seq + seg.dataLen.toUInt32 ≠ c.recvNext
  data : c.peerFinReceived = true → c.state = .finWait1 → 0 < seg.dataLen → seg.seq ≠ c.recvNext

namespace FinOnce

variable {fins : ℕ} {late : List UInt8} {c d : Conn}

/-- nothing was received, and the connection stays or moves on by itself -/
structure Keeps (c d : Conn) : Prop where
  fin : d.peerFinReceived = c.peerFinReceived
  state : d.state = c.state ∨ d.state = .closed ∨ (c.state = .established ∧ d.state = .finWait1) ∨
    (c.state = .closeWait ∧ d.state = .lastAck)
  handshake : d.state = .synReceived → c.sendUna ≠ c.sendNext → d.sendUna ≠ d.sendNext

theorem Keeps.refl (c : Conn) : Keeps c c := ⟨rfl, .inl rfl, fun _ => id⟩

theorem Keeps.closed (h : Keeps c d) (hc : c.state = .closed) : d.state = .closed := by
  rcases h.state with h | h | ⟨h, -⟩ | ⟨h, -⟩
  · exact h.trans hc
  · exact h
  · exact absurd (h.symm.trans hc) (by decide)
  · exact absurd (h.symm.trans hc) (by decide)

theorem keep (h : FinOnce fins late c) (hk : Keeps c d) : FinOnce fins late d := by
  refine ⟨by rw [hk.fin]; exact h.count, h.late, fun hfin => ?_, fun hsyn => ?_⟩
  · rw [hk.fin] at hfin
    have hdone := h.done hfin
    unfold PeerDone at hdone ⊢
    rcases hk.state with hst | hst | ⟨hst, hst'⟩ | ⟨hst, hst'⟩
    · rwa [hst]
    · simp [hst]
    · simp [hst']
    · simp [hst']
  · refine hk.handshake hsyn (h.handshake ?_)
    rcases hk.state with hst | hst | ⟨-, hst⟩ | ⟨-, hst⟩
    · rw [← hst, hsyn]
    all_goals rw [hst] at hsyn; cases hsyn

/-- a block that `alloc_slot` has just zeroed and opened -/
theorem fresh (hfin : c.peerFinReceived = false) (hsyn : c.state = .synReceived → c.sendUna ≠ c.sendNext) :
    FinOnce 0 [] c := by
  refine ⟨by rw [hfin]; rfl, rfl, fun h => ?_, hsyn⟩
  rw [hfin] at h
  cases h

variable {seg : Segment}

/-- after a FIN no data is in sequence -/
theorem no_data (h : FinOnce fins late c) (hlive : c.state ≠ .closed) (hok : InSequence c seg)
    (hfin : c.peerFinReceived = true) :
    ¬ (0 < seg.dataLen ∧ seg.seq = (c.takeAck seg).recvNext ∧ ((c.takeAck seg).state = .established ∨
      (c.takeAck seg).state = .finWait1 ∨ (c.takeAck seg).state = .finWait2)) := by
  have hack := Conn.takeAck_acked seg c
  rintro ⟨hpos, hseq, hstate⟩
  rw [hack.next] at hseq
  have hdata : c.state ≠ .finWait1 := fun hwait => hok.data hfin hwait hpos hseq
  have hdone : c.state = .closeWait ∨ c.state = .lastAck := by
    rcases h.done hfin with hst | hst | hst | hst
    · exact .inl hst
    · exact .inr hst
    · exact absurd hst hdata
    · exact absurd hst hlive
  rcases hack.state with hsame | ⟨hst, -⟩ | ⟨hst, -⟩ | ⟨-, hst⟩
  · rw [hsame] at hstate
    rcases hdone with hd | hd <;> rw [hd] at hstate <;> revert hstate <;> decide
  · rcases hdone with hd | hd <;> rw [hd] at hst <;> cases hst
  · exact hdata hst
  · rw [hst] at hstate
    revert hstate
    decide

/-- a FIN is consumed only if none was, and never in the handshake -/
theorem fin_first (h : FinOnce fins late c) (hlive : c.state ≠ .closed) (hok : InSequence c seg)
    (hfin : has seg.flags flagFin)
    (hseq : seg.seq + seg.dataLen.toUInt32 = ((c.takeAck seg).takeData seg).2.recvNext) :
    c.peerFinReceived = false ∧ (c.takeAck seg).state ≠ .synReceived := by
  have hack := Conn.takeAck_acked seg c
  constructor
  · by_contra hpeer
    have hpeer := Bool.eq_true_of_not_eq_false hpeer
    rw [Conn.takeData_eq_self (h.no_data hlive hok hpeer), hack.next] at hseq
    exact hok.fin hpeer hfin hseq
  · intro hsyn
    have hstate : c.state = .synReceived := by
      rcases hack.state with hsame | ⟨-, hst⟩ | ⟨-, hst | ⟨-, hst⟩⟩ | ⟨-, hst⟩
      · rw [← hsame, hsyn]
      all_goals rw [hst] at hsyn; cases hsyn
    rw [Conn.takeData_eq_self (by simp [hsyn]), hack.next] at hseq
    obtain ⟨hflag, hnum⟩ := hok.handshake hstate hfin hseq
    exact (hack.handshake hsyn).1 ⟨hflag, h.handshake hstate, hnum⟩

theorem handle (h : FinOnce fins late c) (hlive : c.state ≠ .closed) (hlisten : c.state ≠ .listen)
    (hok : ¬ has seg.flags flagRst → InSequence c seg) :
    FinOnce (fins + (c.finTaken seg).toNat) (late ++ if 0 < fins then c.dataTaken seg else []) (c.handle seg).2 := by
  have hack := Conn.takeAck_acked seg c
  cases hreach : c.reaches seg with
  | false =>
    obtain ⟨hfin, -, hstate⟩ := Conn.handle_not_reached hreach
    have hdata : c.dataTaken seg = [] := by simp [Conn.dataTaken, hreach]
    have hnone : c.finTaken seg = false := by simp [Conn.finTaken, hreach]
    rw [hdata, ite_self, List.append_nil, hnone, Bool.toNat_false, Nat.add_zero]
    rcases hstate with ⟨hclosed, -⟩ | ⟨hsyn, hstate⟩
    · exact h.keep ⟨hfin, .inr (.inl hclosed), fun h' => by rw [hclosed] at h'; cases h'⟩
    · rcases hstate with hsame | hest
      · rw [hsame]
        exact h
      · -- the peer answers our SYN: it has not closed yet
        have hpeer : c.peerFinReceived = false := by
          by_contra hpeer
          have hdone := h.done (Bool.eq_true_of_not_eq_false hpeer)
          rw [hsyn] at hdone
          revert hdone
          unfold PeerDone
          decide
        refine ⟨by rw [hfin]; exact h.count, h.late, fun h' => ?_, fun h' => by rw [hest] at h'; cases h'⟩
        rw [hfin, hpeer] at h'
        cases h'
  | true =>
    have hrst : ¬ has seg.flags flagRst := by
      simp only [Conn.reaches, Bool.and_eq_true, Bool.not_eq_true'] at hreach
      simp [hreach.1.1]
    have hclosed : (c.takeAck seg).state ≠ .closed := by
      simp only [Conn.reaches, Bool.and_eq_true, bne_iff_ne] at hreach
      exact hreach.2
    have hok := hok hrst
    -- nothing is buffered after a FIN
    have hlate : (late ++ if 0 < fins then c.dataTaken seg else []) = [] := by
      rw [h.late, List.nil_append]
      split_ifs with hpos
      · have hpeer : c.peerFinReceived = true := by
          rw [h.count] at hpos
          by_contra hpeer
          rw [Bool.eq_false_of_not_eq_true hpeer] at hpos
          exact absurd hpos (by decide)
        simp only [Conn.dataTaken]
        rw [if_neg fun hacc => h.no_data hlive hok hpeer hacc.2]
      · rfl
    obtain ⟨hst, hpeer, huna, hnext⟩ := Conn.takeData_keeps seg (c.takeAck seg)
    rw [hlate, Conn.handle_reached hreach, Conn.takeFin]
    by_cases htaken : has seg.flags flagFin ∧
        seg.seq + seg.dataLen.toUInt32 = ((c.takeAck seg).takeData seg).2.recvNext
    · -- the FIN
      have hfin : c.finTaken seg = true := by simp [Conn.finTaken, hreach, htaken]
      obtain ⟨hfirst, hsyn⟩ := h.fin_first hlive hok htaken.1 htaken.2
      rw [if_pos htaken, hfin, h.count, hfirst, hst]
      have hrest : (c.takeAck seg).state ≠ .listen ∧ (c.takeAck seg).state ≠ .synSent := by
        rcases hack.state with hsame | ⟨-, h'⟩ | ⟨-, h' | ⟨-, h'⟩⟩ | ⟨-, h'⟩
        · rw [hsame]
          refine ⟨hlisten, ?_⟩
          simp only [Conn.reaches, Bool.and_eq_true, bne_iff_ne] at hreach
          exact hreach.1.2
        all_goals rw [h']; decide
      refine ⟨rfl, rfl, fun _ => ?_, fun h' => ?_⟩
      · dsimp only
        generalize (c.takeAck seg).state = st at hsyn hclosed hrest ⊢
        cases st <;> simp_all [PeerDone]
      · dsimp only at h'
        generalize (c.takeAck seg).state = st at hsyn h'
        cases st <;> simp_all
    · have hfin : c.finTaken seg = false := by simpa [Conn.finTaken, hreach] using htaken
      rw [if_neg htaken, hfin, Bool.toNat_false, Nat.add_zero]
      refine ⟨by rw [hpeer, hack.fin]; exact h.count, rfl, fun h' => ?_, fun h' => ?_⟩
      · rw [hpeer, hack.fin] at h'
        have hdone := h.done h'
        rw [hst]
        unfold PeerDone at hdone ⊢
        rcases hack.state with hsame | ⟨h₁, -⟩ | ⟨-, h₂ | ⟨hno, -⟩⟩ | ⟨-, h₂⟩
        · rwa [hsame]
        · rw [h₁] at hdone
          exact absurd hdone (by decide)
        · exact absurd h₂ hclosed
        · rw [hno] at h'
          cases h'
        · exact absurd h₂ hclosed
      · rw [hst] at h'
        obtain ⟨-, huna', hnext'⟩ := hack.handshake h'
        rw [huna, hnext, huna', hnext']
        refine h.handshake ?_
        rcases hack.state with hsame | ⟨-, h₂⟩ | ⟨-, h₂ | ⟨-, h₂⟩⟩ | ⟨-, h₂⟩
        · rw [← hsame, h']
        all_goals rw [h₂] at h'; cases h'

end FinOnce

/-! ## Every step and every run -/

theorem step_segmentOn {s : Tcp} {i : Fin 4} {e : TcpEvent} {seg : Segment} (h : segmentOn s i e = some seg) :
    (s.conns i).state ≠ .closed ∧ (s.conns i).state ≠ .listen ∧
      (s.step e).2.conns i = ((s.conns i).handle seg).2 := by
  cases e with
  | arrive p src =>
    obtain ⟨hseg, hfind⟩ := Option.filter_eq_some_iff.1 h
    have hfind : s.findConnection seg.dstPort src seg.srcPort = some i := by simpa using hfind
    obtain ⟨hclosed, hlisten, -⟩ := findConnection_live hfind
    refine ⟨hclosed, hlisten, ?_⟩
    simp only [Tcp.step, handlePacket, hseg, handleSegment, hfind, setConn_conns, Function.update_self]
  | _ => cases h

open FinOnce in
/-- what happens to a slot to which no segment comes: it is opened afresh, or it keeps what it had received -/
theorem Tcp.Move.keeps {s : Tcp} {i : Fin 4} {e : TcpEvent} {out : List Sent} {got : List UInt8} {d : Conn}
    (h : Move s i e out got d) (hnone : segmentOn s i e = none) :
    Keeps (s.conns i) d ∨ ((s.conns i).state = .closed ∧ d.state ≠ .closed ∧ FinOnce 0 [] d) := by
  cases h with
  | idle => exact .inl (.refl _)
  | listens _ hslot =>
    refine .inr ⟨allocSlot_closed hslot, TcpState.noConfusion, fresh rfl fun h => TcpState.noConfusion h⟩
  | accepted => exact .inl ⟨rfl, .inl rfl, fun _ => id⟩
  | opens _ hslot =>
    refine .inr ⟨allocSlot_closed hslot, TcpState.noConfusion, fresh rfl fun h => TcpState.noConfusion h⟩
  | timesOut => exact .inl ⟨rfl, .inr (.inl rfl), fun h => TcpState.noConfusion h⟩
  | sends _ _ hest _ =>
    refine .inl ⟨rfl, .inl rfl, fun h => ?_⟩
    exact absurd (hest.symm.trans h) (by decide)
  | sendsNext _ _ hacked => exact .inl ⟨rfl, .inl rfl, fun _ hne => absurd hacked hne⟩
  | receives => exact .inl ⟨rfl, .inl rfl, fun _ => id⟩
  | closes =>
    left
    unfold Conn.close
    dsimp only
    split
    all_goals
      rename_i hstate
      refine ⟨rfl, ?_, fun h => ?_⟩
    · exact .inr (.inl rfl)
    · cases h
    · exact .inr (.inl rfl)
    · cases h
    · exact .inr (.inr (.inl ⟨hstate, rfl⟩))
    · cases h
    · exact .inr (.inr (.inr ⟨hstate, rfl⟩))
    · cases h
    · exact .inl rfl
    · exact id
  | polls =>
    left
    unfold Conn.poll
    split_ifs
    · exact .refl _
    · exact .refl _
    · exact ⟨rfl, .inr (.inl rfl), fun h => TcpState.noConfusion h⟩
    · exact ⟨rfl, .inl rfl, fun _ => id⟩
    · exact .refl _
  | handles hseg hfind =>
    simp [segmentOn, hseg, hfind] at hnone
  | accepts _ _ _ _ hslot =>
    refine .inr ⟨allocSlot_closed hslot, TcpState.noConfusion, fresh rfl fun _ => ?_⟩
    -- the SYN that was just sent takes one sequence number
    simp only [passiveOpen, opened, Conn.sendSegment]
    intro heq
    have hlen : seqLen (flagSyn ||| flagAck) (UInt16.ofNat ([] : List UInt8).length) = 1 := by decide
    rw [hlen] at heq
    exact absurd heq (by simp)

/-- every segment that comes to a connection, other than a reset, is one the peer may send -/
def Orderly (s : Tcp) (e : TcpEvent) : Prop :=
  ∀ i seg, segmentOn s i e = some seg → ¬ has seg.flags flagRst → InSequence (s.conns i) seg

namespace Watched

theorem finOnce_step {g : Watched} (hg : ∀ i, FinOnce (g.fins i) (g.late i) (g.tcp.conns i)) {e : TcpEvent}
    (hok : Orderly g.tcp e) (i : Fin 4) :
    FinOnce ((g.step e).2.fins i) ((g.step e).2.late i) ((g.step e).2.tcp.conns i) := by
  simp only [step]
  cases hseg : segmentOn g.tcp i e with
  | some seg =>
    obtain ⟨hclosed, hlisten, hnext⟩ := step_segmentOn hseg
    rw [if_neg fun h => hclosed h.1, if_neg fun h => hclosed h.1, hnext]
    exact (hg i).handle hclosed hlisten (hok i seg hseg)
  | none =>
    rcases (step_move g.tcp e i).keeps hseg with hkeep | ⟨hclosed, hopen, hfresh⟩
    · have hno : ¬ ((g.tcp.conns i).state = .closed ∧ ((g.tcp.step e).2.conns i).state ≠ .closed) :=
        fun h => h.2 (hkeep.closed h.1)
      rw [if_neg hno, if_neg hno]
      simpa using (hg i).keep hkeep
    · rw [if_pos ⟨hclosed, hopen⟩, if_pos ⟨hclosed, hopen⟩]
      exact hfresh

end Watched

open NetHost (Prompt prompt_run prompt_snoc events)

/-- **The peer's FIN is consumed once and moves the state machine.** In every run in which the peers' segments are orderly
and the hosts to send to are in the ARP cache, each connection has consumed at most one FIN since it was opened, has
buffered nothing after it, and is in CLOSE_WAIT, LAST_ACK, FIN_WAIT_1 or CLOSED from then on. -/
theorem fin_consumed_once {ip : UInt32} {h₀ h : NetHost} {tr : List (HostEvent × HostRes)} (hinit : h₀.tcp = Tcp.init ip)
    (hidle : h₀.Idle) (hrun : Run NetHost.step (Prompt Orderly) h₀ tr h) :
    ∃ g : Watched, g.tcp = h.tcp ∧ Run Watched.step (fun g e => Orderly g.tcp e) (.init ip) (events tr) g ∧
      ∀ i, g.fins i ≤ 1 ∧ g.late i = [] ∧
        ((h.tcp.conns i).peerFinReceived = true →
          (h.tcp.conns i).state = .closeWait ∨ (h.tcp.conns i).state = .lastAck ∨ (h.tcp.conns i).state = .finWait1 ∨
            (h.tcp.conns i).state = .closed) := by
  obtain ⟨-, htcp⟩ := prompt_run hrun hidle
  rw [hinit] at htcp
  obtain ⟨g, hg, hwatched⟩ := Run.lift Watched.step Watched.tcp (fun _ _ => rfl) (fun _ _ => rfl) (g := .init ip) htcp
  have hfin : ∀ i, FinOnce (g.fins i) (g.late i) (g.tcp.conns i) :=
    hwatched.invariant (fun _ _ hg hok => Watched.finOnce_step hg hok)
      fun i => FinOnce.fresh rfl fun h => TcpState.noConfusion h
  refine ⟨g, hg, hwatched, fun i => ⟨?_, (hfin i).late, hg ▸ (hfin i).done⟩⟩
  rw [(hfin i).count]
  exact Bool.toNat_le _

theorem orderly_packet (i : Fin 4) (seg : Segment) {s : Tcp} {p : Buffer} {src : UInt32}
    (hparse : parseSegment s.localIp p.1 src = some seg)
    (hfind : s.findConnection seg.dstPort src seg.srcPort = some i) (hs : InSequence (s.conns i) seg) :
    Orderly s (.arrive p src) := by
  intro j seg' hon _
  obtain ⟨hseg, hfind'⟩ := Option.filter_eq_some_iff.1 hon
  obtain rfl := Option.some.inj (hparse.symm.trans hseg)
  obtain rfl : i = j := Option.some.inj (hfind.symm.trans (by simpa using hfind'))
  exact hs

/-- the FIN of a peer that closes right after the handshake -/
def hiFin : Segment := ⟨80, 49152, 1001, 64001, flagFin ||| flagAck, 0, []⟩

theorem hiFin_short : (hiFin.encode 0x0A000202 0x0A00020F).length < 2 ^ 16 := by decide +kernel

/-- the peer closes a connection we have opened: CLOSE_WAIT -/
theorem fin_consumed_once_close :
    ∃ tr h, Run NetHost.step (Prompt Orderly) hiHost tr h ∧ (h.tcp.conns 0).state = .closeWait ∧
      (h.tcp.conns 0).peerFinReceived = true ∧
      ∃ g : Watched, g.tcp = h.tcp ∧ Run Watched.step (fun g e => Orderly g.tcp e) (.init 0x0A00020F) (events tr) g ∧
        g.fins 0 ≤ 1 ∧ g.late 0 = [] := by
  have hrun : Run NetHost.step (Prompt Orderly) _ [] hiHost := .nil _
  have hrun := prompt_snoc hrun 0 (.connect 0 0x0A000202 80) (by decide +kernel) (fun _ _ h => by cases h)
  have hrun := prompt_snoc hrun 0 (hiPacket hiSynAck hiSynAck_short) (by decide +kernel)
    (orderly_packet 0 hiSynAck (by decide +kernel) (by decide +kernel)
      ⟨fun h => absurd h (by decide +kernel), fun h => absurd h (by decide +kernel),
        fun h => absurd h (by decide +kernel)⟩)
  have hrun := prompt_snoc hrun 0 (hiPacket hiFin hiFin_short) (by decide +kernel)
    (orderly_packet 0 hiFin (by decide +kernel) (by decide +kernel)
      ⟨fun h => absurd h (by decide +kernel), fun h => absurd h (by decide +kernel),
        fun h => absurd h (by decide +kernel)⟩)
  obtain ⟨g, hg, hwatched, hfin⟩ := fin_consumed_once rfl hiHost_idle hrun
  exact ⟨_, _, hrun, by decide +kernel, by decide +kernel, g, hg, hwatched, (hfin 0).1, (hfin 0).2.1⟩

/-! Segments of a peer that is not orderly: a second FIN and a byte behind the first one, and a SYN to a listener followed
by a FIN without ACK. -/

def hiFinAgain : Segment := ⟨80, 49152, 1002, 64001, flagFin ||| flagAck, 0, []⟩
def hiLate : Segment := ⟨80, 49152, 1002, 64001, flagAck, 0, [104]⟩
def hiSyn : Segment := ⟨5000, 80, 1000, 0, flagSyn, 0, []⟩
def hiEarlyFin : Segment := ⟨5000, 80, 1001, 0, flagFin, 0, []⟩

/-- **What the code takes from a peer that is not orderly.** A second FIN is consumed as well; data behind the FIN is
buffered in FIN_WAIT_1; a FIN is consumed in SYN_RECEIVED, which it does not leave. -/
theorem fin_unchecked :
    (let g := runOps Watched.step (Watched.init 0x0A00020F)
      [.connect 0 0x0A000202 80, hiPacket hiSynAck hiSynAck_short, hiPacket hiFin hiFin_short,
        hiPacket hiFinAgain (by decide +kernel)]
    g.fins 0 = 2 ∧ (g.tcp.conns 0).recvNext = 1003) ∧
    (let g := runOps Watched.step (Watched.init 0x0A00020F)
      [.connect 0 0x0A000202 80, hiPacket hiSynAck hiSynAck_short, .close 0, hiPacket hiFin hiFin_short,
        hiPacket hiLate (by decide +kernel)]
    g.fins 0 = 1 ∧ g.late 0 = [104] ∧ (g.tcp.conns 0).unread = [104] ∧ (g.tcp.conns 0).state = .finWait1) ∧
    (let g := runOps Watched.step (Watched.init 0x0A00020F)
      [.listen 80, hiPacket hiSyn (by decide +kernel), hiPacket hiEarlyFin (by decide +kernel)]
    (g.tcp.conns 1).peerFinReceived = true ∧ (g.tcp.conns 1).state = .synReceived) := by
  refine ⟨?_, ?_, ?_⟩ <;> decide +kernel

end GannetOS.Net
