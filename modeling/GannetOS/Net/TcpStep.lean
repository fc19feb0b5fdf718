/-
What one event can do to one slot of the connection table, said once (`Move`): the step theorem `step_move` lists the
cases with their guards, and every invariant of a connection is proved from the list. A connection begins where a free
slot is zeroed and opened (`Move.opens`, `Move.accepts`); from there on only the other cases touch the slot until it is
`CLOSED`.
-/
import GannetOS.Net.Tcp

namespace GannetOS.Net

open List

/-- the calls of `build_and_send` a step made on a slot -/
def TcpRes.sentOn (r : TcpRes) (i : Fin 4) : List Sent :=
  r.sent.filterMap fun
    | .conn j x => if j = i then some x else none
    | .reset _ _ => none

theorem mem_sentOn {r : TcpRes} {i : Fin 4} {x : Sent} : x ∈ r.sentOn i ↔ .conn i x ∈ r.sent := by
  simp only [TcpRes.sentOn, mem_filterMap]
  constructor
  · rintro ⟨⟨j, y⟩ | _, hmem, hy⟩
    · obtain ⟨rfl, rfl⟩ : j = i ∧ y = x := by simpa using hy
      exact hmem
    · cases hy
  · exact fun hmem => ⟨_, hmem, if_pos rfl⟩

theorem sentOn_map_self {r : TcpRes} {i : Fin 4} {out : List Sent} (h : r.sent = out.map (.conn i)) :
    r.sentOn i = out := by
  simp [TcpRes.sentOn, h, filterMap_map]

theorem sentOn_map_of_ne {r : TcpRes} {i j : Fin 4} {out : List Sent} (h : r.sent = out.map (.conn i)) (hj : j ≠ i) :
    r.sentOn j = [] := by
  simp [TcpRes.sentOn, h, filterMap_map, hj.symm]

/-- the bytes a step's `tcp_recv` returned from a slot -/
def bytesOn (i : Fin 4) : TcpEvent × TcpRes → List UInt8
  | (.recv h _, r) => if Tcp.slot h = some i then r.bytes else []
  | _ => []

namespace Tcp

theorem setConn_conns (s : Tcp) (i : Fin 4) (c : Conn) : (s.setConn i c).conns = Function.update s.conns i c := rfl

theorem setCall_conns (s : Tcp) (t : ℕ) (k : Option Call) : (s.setCall t k).conns = s.conns := rfl

-- on the constructor, so that the two counters are never compared
theorem initialSeq_conns (s : Tcp) : s.initialSeq.2.conns = s.conns := by
  obtain ⟨conns, _, _, _, _, _⟩ := s
  exact (rfl : conns = conns)

theorem initialSeq_localIp (s : Tcp) : s.initialSeq.2.localIp = s.localIp := by
  obtain ⟨_, ip, _, _, _, _⟩ := s
  exact (rfl : ip = ip)

theorem initialSeq_calls (s : Tcp) : s.initialSeq.2.calls = s.calls := by
  obtain ⟨_, _, _, _, _, calls⟩ := s
  exact (rfl : calls = calls)

theorem pickEphemeralPort_conns (s : Tcp) : s.pickEphemeralPort.2.conns = s.conns := rfl

theorem setConn_localIp (s : Tcp) (i : Fin 4) (c : Conn) : (s.setConn i c).localIp = s.localIp := rfl

theorem setCall_localIp (s : Tcp) (t : ℕ) (k : Option Call) : (s.setCall t k).localIp = s.localIp := rfl

theorem setCall_calls (s : Tcp) (t : ℕ) (k : Option Call) : (s.setCall t k).calls = Function.update s.calls t k := rfl

theorem setConn_calls (s : Tcp) (i : Fin 4) (c : Conn) : (s.setConn i c).calls = s.calls := rfl

theorem setConn_self (s : Tcp) (i : Fin 4) (c : Conn) : (s.setConn i c).conns i = c := Function.update_self _ _ _

variable {s : Tcp} {i : Fin 4}

theorem allocSlot_closed (h : s.allocSlot = some i) : (s.conns i).state = .closed := by
  simpa using find?_some h

theorem findConnection_live {lp rp : UInt16} {ip : UInt32} (h : s.findConnection lp ip rp = some i) :
    (s.conns i).state ≠ .closed ∧ (s.conns i).state ≠ .listen ∧
      (s.conns i).localPort = lp ∧ (s.conns i).remoteIp = ip ∧ (s.conns i).remotePort = rp := by
  simpa using find?_some h

theorem slot_coe (i : Fin 4) : slot (i : ℤ) = some i := by
  have hi := i.isLt
  rw [slot, dif_pos ⟨by omega, by omega⟩]
  simp

theorem getConn_live {h : ℤ} (hg : s.getConn h = some i) : (s.conns i).state ≠ .closed := by
  simpa using (Option.filter_eq_some_iff.1 hg).2

/-- the SYN of `tcp_connect` and the block it leaves -/
def activeOpen (s : Tcp) (ip : UInt32) (port : UInt16) : Sent × Conn :=
  opened s.ticks s.pickEphemeralPort.2.initialSeq.1 0 s.nextPort port ip .synSent flagSyn

/-- the SYN-ACK in answer to a SYN and the block it leaves -/
def passiveOpen (s : Tcp) (src : UInt32) (seg : Segment) : Sent × Conn :=
  opened s.ticks s.initialSeq.1 (seg.seq + 1) seg.dstPort seg.srcPort src .synReceived (flagSyn ||| flagAck)

/-- a data segment of `tcp_send` and the block it leaves -/
def dataSegment (s : Tcp) (i : Fin 4) (chunk : List UInt8) : Sent × Conn :=
  (s.conns i).sendSegment s.ticks (flagAck ||| flagPsh) chunk

/-- an event's effect on slot `i`: the segments sent on it, the bytes read from it and the block afterwards -/
inductive Move (s : Tcp) (i : Fin 4) : TcpEvent → List Sent → List UInt8 → Conn → Prop
  | idle (e : TcpEvent) : Move s i e [] [] (s.conns i)
  | listens {port : UInt16} (hport : s.findListener port = none) (hslot : s.allocSlot = some i) :
    Move s i (.listen port) [] [] { localPort := port, state := .listen }
  | accepted {h : ℤ} : Move s i (.accept h) [] [] { s.conns i with pendingAccept := false }
  | opens {t : ℕ} {ip : UInt32} {port : UInt16} (hidle : s.calls t = none) (hslot : s.allocSlot = some i) :
    Move s i (.connect t ip port) [(s.activeOpen ip port).1] [] (s.activeOpen ip port).2
  | timesOut {t : ℕ} {start : UInt32} (hcall : s.calls t = some (.connect i start)) :
    Move s i (.resume t) [] [] { s.conns i with state := .closed }
  | sends {t : ℕ} {h : ℤ} {data : Buffer} (hidle : s.calls t = none) (hlive : s.getConn h = some i)
    (hest : (s.conns i).state = .established) (hne : data.1 ≠ []) :
    Move s i (.send t h data) [(s.dataSegment i (data.1.take 536)).1] [] (s.dataSegment i (data.1.take 536)).2
  | sendsNext {t : ℕ} {data : List UInt8} {sent : ℕ} {start : UInt32}
    (hcall : s.calls t = some (.send i data sent start)) (hlive : (s.conns i).state ≠ .closed)
    (hacked : (s.conns i).sendUna = (s.conns i).sendNext) {chunk : List UInt8} (hne : chunk ≠ [])
    (hlen : chunk.length ≤ 536) :
    Move s i (.resume t) [(s.dataSegment i chunk).1] [] (s.dataSegment i chunk).2
  | receives {h : ℤ} {n : UInt16} (hlive : s.getConn h = some i) :
    Move s i (.recv h n) [] ((s.conns i).recv n).1 ((s.conns i).recv n).2
  | closes {h : ℤ} (hlive : s.getConn h = some i) :
    Move s i (.close h) ((s.conns i).close s.ticks).1 [] ((s.conns i).close s.ticks).2
  | polls : Move s i .poll ((s.conns i).poll s.ticks).1 [] ((s.conns i).poll s.ticks).2
  | handles {p : Buffer} {src : UInt32} {seg : Segment} (hseg : parseSegment s.localIp p.1 src = some seg)
    (hfind : s.findConnection seg.dstPort src seg.srcPort = some i) :
    Move s i (.arrive p src) ((s.conns i).handle seg).1 [] ((s.conns i).handle seg).2
  | accepts {p : Buffer} {src : UInt32} {seg : Segment} (hseg : parseSegment s.localIp p.1 src = some seg)
    (hnew : s.findConnection seg.dstPort src seg.srcPort = none) (hport : s.findListener seg.dstPort ≠ none)
    (hsyn : has seg.flags flagSyn ∧ ¬has seg.flags flagAck) (hslot : s.allocSlot = some i) :
    Move s i (.arrive p src) [(s.passiveOpen src seg).1] [] (s.passiveOpen src seg).2

/-- a step that touches slot `i` only: its move there, and nothing elsewhere -/
theorem Move.single {t : Tcp} {e : TcpEvent} {out : List Sent} {got : List UInt8} {c : Conn} {r : TcpRes}
    (h : Move s i e out got c) (ht : t.conns = Function.update s.conns i c) (hsent : r.sent = out.map (.conn i))
    (hgot : ∀ j, bytesOn j (e, r) = if j = i then got else []) (j : Fin 4) :
    Move s j e (r.sentOn j) (bytesOn j (e, r)) (t.conns j) := by
  rw [ht, hgot]
  by_cases hj : j = i
  · subst hj
    rwa [sentOn_map_self hsent, Function.update_self, if_pos rfl]
  · rw [sentOn_map_of_ne hsent hj, Function.update_of_ne hj, if_neg hj]
    exact .idle e

theorem sendChunk_move {t : ℕ} {data : List UInt8} {sent : ℕ} {e : TcpEvent} (hgot : ∀ j r, bytesOn j (e, r) = [])
    (h : sent < data.length → Move s i e [(s.dataSegment i ((data.drop sent).take 536)).1] []
      (s.dataSegment i ((data.drop sent).take 536)).2) (j : Fin 4) :
    Move s j e ((s.sendChunk t i data sent).1.sentOn j) (bytesOn j (e, (s.sendChunk t i data sent).1))
      ((s.sendChunk t i data sent).2.conns j) := by
  unfold sendChunk
  split_ifs with hlt
  · exact (h hlt).single rfl rfl (fun j => by rw [hgot, ite_self]) j
  · rw [hgot]
    exact .idle e

theorem resume_move (s : Tcp) (t : ℕ) (j : Fin 4) :
    Move s j (.resume t) ((s.resume t).1.sentOn j) [] ((s.resume t).2.conns j) := by
  unfold resume
  rcases hcall : s.calls t with _ | k
  · exact .idle _
  · cases k with
    | connect i start =>
      dsimp only
      split_ifs
      · exact (Move.timesOut hcall).single rfl rfl (fun j => (ite_self _).symm) j
      all_goals exact .idle _
    | send i data sent start =>
      dsimp only
      split_ifs with hclosed htime hout
      · exact .idle _
      · exact .idle _
      · exact .idle _
      · refine sendChunk_move (fun _ _ => rfl) (fun hlt => .sendsNext hcall hclosed (not_not.1 hout) ?_ ?_) j
        · apply ne_nil_of_length_pos
          simp only [length_take, length_drop] at hlt ⊢
          omega
        · exact length_take_le _ _

theorem handlePacket_move (s : Tcp) (p : Buffer) (src : UInt32) (j : Fin 4) :
    Move s j (.arrive p src) ((s.handlePacket p src).1.sentOn j) [] ((s.handlePacket p src).2.conns j) := by
  unfold handlePacket
  rcases hseg : parseSegment s.localIp p.1 src with _ | seg
  · exact .idle _
  dsimp only [handleSegment]
  rcases hfind : s.findConnection seg.dstPort src seg.srcPort with _ | i
  · dsimp only
    rcases hport : s.findListener seg.dstPort with _ | l
    · dsimp only
      split_ifs <;> exact .idle _
    · dsimp only
      split_ifs with hsyn
      · rcases hslot : s.allocSlot with _ | i
        · exact .idle _
        · refine (Move.accepts hseg hfind (by simp [hport]) hsyn hslot).single ?_ rfl (fun j => (ite_self _).symm) j
          rw [setConn_conns, initialSeq_conns, passiveOpen]
      · exact .idle _
  · exact (Move.handles hseg hfind).single rfl rfl (fun j => (ite_self _).symm) j

theorem recv_move (s : Tcp) (h : ℤ) (n : UInt16) (j : Fin 4) :
    Move s j (.recv h n) ((s.recv h n).1.sentOn j) (bytesOn j (.recv h n, (s.recv h n).1)) ((s.recv h n).2.conns j) := by
  unfold recv
  rcases hlive : s.getConn h with _ | i
  · simp only [bytesOn, ite_self]
    exact .idle _
  · have hslot : slot h = some i := (Option.filter_eq_some_iff.1 hlive).1
    refine (Move.receives hlive).single rfl rfl (fun j => ?_) j
    simp only [bytesOn, hslot, Option.some.injEq, eq_comm]

/-- **What an event does to a slot.** -/
theorem step_move (s : Tcp) (e : TcpEvent) (j : Fin 4) :
    Move s j e ((s.step e).1.sentOn j) (bytesOn j (e, (s.step e).1)) ((s.step e).2.conns j) := by
  cases e with
  | listen port =>
    dsimp only [step, listen]
    split
    · rename_i i hport hslot
      exact (Move.listens hport hslot).single rfl rfl (fun j => (ite_self _).symm) j
    · exact .idle _
  | accept h =>
    dsimp only [step, accept]
    split
    · exact .idle _
    · split
      · exact .idle _
      · exact Move.accepted.single rfl rfl (fun j => (ite_self _).symm) j
  | connect t ip port =>
    dsimp only [step, connect]
    split_ifs with hidle
    · exact .idle _
    · split
      · exact .idle _
      · rename_i i hslot
        refine (Move.opens (by simpa using hidle) hslot).single ?_ rfl (fun j => (ite_self _).symm) j
        rw [setCall_conns, setConn_conns, initialSeq_conns, pickEphemeralPort_conns, activeOpen]
        rfl
  | send t h data =>
    dsimp only [step, send]
    split_ifs with hidle
    · exact .idle _
    · split
      · exact .idle _
      · rename_i i hfilter
        obtain ⟨hlive, hest⟩ := Option.filter_eq_some_iff.1 hfilter
        refine sendChunk_move (fun _ _ => rfl) (fun hlt => ?_) j
        exact .sends (by simpa using hidle) hlive (by simpa using hest) (ne_nil_of_length_pos hlt)
  | resume t => exact resume_move s t j
  | recv h n => exact recv_move s h n j
  | close h =>
    dsimp only [step, close]
    split
    · exact .idle _
    · rename_i i hlive
      exact (Move.closes hlive).single rfl rfl (fun j => (ite_self _).symm) j
  | poll =>
    have hout : (s.step .poll).1.sentOn j = ((s.conns j).poll s.ticks).1 := by
      have hrange : List.finRange 4 = [0, 1, 2, 3] := rfl
      simp only [step, poll, TcpRes.sentOn, hrange, flatMap_cons, flatMap_nil, filterMap_append,
        filterMap_map, Function.comp_def]
      fin_cases j <;> simp
    rw [hout]
    exact .polls
  | arrive p src => exact handlePacket_move s p src j
  | tick n => exact .idle _

end Tcp

end GannetOS.Net
