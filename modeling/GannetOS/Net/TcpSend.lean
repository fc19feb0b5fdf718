/-
Stop and wait: what is in flight is what is saved.

`send_segment` sends at `send_next` and saves a copy; `tcp_poll` sends the copy again at `send_una`. The two agree as long
as `send_segment` runs with nothing in flight. Inside the file this holds at every call but two: the first segment of a
`tcp_send`, and the FIN of a `tcp_close`. Both are made without a look at `send_una`, and a `tcp_send` that returns on its
timeout leaves its segment in flight. `Quiet` is the rule the callers would have to follow. The runs are those of a host
with its peers in the ARP cache (`NetHost.Prompt`): a `send_segment` that waits in `ipv4_send` saves its copy too late.

Main results
- `stop_and_wait`: in every run whose calls follow the rule, what is saved covers exactly the sequence numbers in flight,
  and every retransmission repeats the segment first sent there.
- `close_after_timeout`: after a `tcp_send` has timed out, a `tcp_close` replaces the unacknowledged byte by a FIN, and the
  retransmission sends the FIN at the sequence number of the byte.
-/
import GannetOS.Net.TcpReceive

namespace GannetOS.Net

open GannetOS.Core Tcp List

/-- a new segment is handed to `send_segment` only with nothing in flight -/
def Quiet (s : Tcp) : TcpEvent → Prop
  | .send t h data => s.calls t = none → ∀ i, s.getConn h = some i → (s.conns i).state = .established → data.1 ≠ [] →
      (s.conns i).sendUna = (s.conns i).sendNext
  | .close h => ∀ i, s.getConn h = some i → (s.conns i).state = .established ∨ (s.conns i).state = .closeWait →
      (s.conns i).sendUna = (s.conns i).sendNext
  | _ => True

/-- the segments `send_segment` sent on a slot along a trace -/
def freshOn (i : Fin 4) (tr : List (TcpEvent × TcpRes)) : List Sent :=
  tr.flatMap fun er => (er.2.sentOn i).filter (·.origin = .fresh)

/-- what is in flight is the segment `last`, saved as it was sent -/
def Saved (last : Option Sent) (c : Conn) : Prop :=
  c.sendUna ≠ c.sendNext → c.sendNext = c.sendUna + seqLen c.unackedFlags c.unackedLen ∧
    ∃ x, last = some x ∧ x.seq = c.sendUna ∧ x.flags = c.unackedFlags ∧ x.data = c.saved

/-- a segment of a slot whose last fresh segment is `last`: fresh with nothing in flight, or again what was sent -/
def InTurn (last : Option Sent) (x : Sent) : Prop :=
  (x.origin = .fresh → x.seq = x.conn.sendNext ∧ x.conn.sendUna = x.conn.sendNext) ∧
    (x.origin = .again → ∃ y, last = some y ∧ x.seq = y.seq ∧ x.flags = y.flags ∧ x.data = y.data)

/-- the last fresh segment after a step that sent `out` -/
def lastFresh (last : Option Sent) (out : List Sent) : Option Sent :=
  ((out.filter (·.origin = .fresh)).getLast?).or last

/-! ## The send side of a block -/

/-- nothing is sent anew: the saved segment stays, and `send_una` stays or reaches `send_next` -/
structure KeepsSaved (c d : Conn) : Prop where
  next : d.sendNext = c.sendNext
  data : d.unackedData = c.unackedData
  len : d.unackedLen = c.unackedLen
  flags : d.unackedFlags = c.unackedFlags
  una : d.sendUna = c.sendUna ∨ d.sendUna = c.sendNext

namespace KeepsSaved

theorem refl (c : Conn) : KeepsSaved c c := ⟨rfl, rfl, rfl, rfl, Or.inl rfl⟩

theorem trans {c d e : Conn} (h : KeepsSaved c d) (h' : KeepsSaved d e) : KeepsSaved c e := by
  refine ⟨h'.next.trans h.next, h'.data.trans h.data, h'.len.trans h.len, h'.flags.trans h.flags, ?_⟩
  rcases h'.una with hu | hu
  · rw [hu]
    exact h.una
  · exact Or.inr (hu.trans h.next)

theorem saved {c d : Conn} (h : KeepsSaved c d) {last : Option Sent} (hc : Saved last c) : Saved last d := by
  intro hne
  rcases h.una with hu | hu
  · rw [hu, h.next] at hne
    obtain ⟨hnext, x, hx, hseq, hflags, hdata⟩ := hc hne
    refine ⟨by rw [h.next, hu, h.flags, h.len, hnext], x, hx, by rw [hu, hseq], by rw [h.flags, hflags], ?_⟩
    rw [hdata, Conn.saved, Conn.saved, h.data, h.len]
  · exact absurd (hu.trans h.next.symm) hne

theorem takeAck (c : Conn) (seg : Segment) : KeepsSaved c (c.takeAck seg) := by
  simp only [Conn.takeAck]
  split_ifs <;> first | exact ⟨rfl, rfl, rfl, rfl, Or.inr rfl⟩ | exact refl c

theorem takeData (c : Conn) (seg : Segment) : KeepsSaved c (c.takeData seg).2 := by
  simp only [Conn.takeData]
  split_ifs <;> exact ⟨rfl, rfl, rfl, rfl, Or.inl rfl⟩

theorem takeFin (c : Conn) (seg : Segment) : KeepsSaved c (c.takeFin seg).2 := by
  simp only [Conn.takeFin]
  split_ifs <;> exact ⟨rfl, rfl, rfl, rfl, Or.inl rfl⟩

theorem handle (c : Conn) (seg : Segment) : KeepsSaved c (c.handle seg).2 := by
  simp only [Conn.handle]
  split_ifs
  · exact ⟨rfl, rfl, rfl, rfl, Or.inl rfl⟩
  · exact ⟨rfl, rfl, rfl, rfl, Or.inr rfl⟩
  · exact refl c
  · exact takeAck c seg
  · exact (takeAck c seg).trans ((takeData _ seg).trans (takeFin _ seg))

end KeepsSaved

/-- everything `tcp_handle_packet` sends on a connection is a bare acknowledgement -/
theorem handle_origin (c : Conn) (seg : Segment) : ∀ x ∈ (c.handle seg).1, x.origin = .ack := by
  have hdata (d : Conn) : ∀ x ∈ (d.takeData seg).1, x.origin = .ack := by
    simp only [Conn.takeData]
    split_ifs <;> simp [Conn.sendAck]
  have hfin (d : Conn) : ∀ x ∈ (d.takeFin seg).1, x.origin = .ack := by
    simp only [Conn.takeFin]
    split_ifs <;> simp [Conn.sendAck]
  simp only [Conn.handle]
  split_ifs
  · simp
  · simp [Conn.sendAck]
  · simp
  · simp
  · intro x hx
    rcases List.mem_append.1 hx with hx | hx
    · exact hdata _ x hx
    · exact hfin _ x hx

variable {last : Option Sent} {c : Conn}

theorem lastFresh_of_ack {out : List Sent} (h : ∀ x ∈ out, x.origin ≠ .fresh) :
    lastFresh last out = last := by
  have hnil : out.filter (·.origin = .fresh) = [] := List.filter_eq_nil_iff.2 fun x hx => by simp [h x hx]
  simp [lastFresh, hnil]

/-- a segment sent with nothing in flight is what is in flight afterwards -/
theorem saved_sendSegment (hquiet : c.sendUna = c.sendNext) (now : UInt32) (flags : UInt8) {data : List UInt8}
    (hlen : data.length ≤ 536) (last : Option Sent) :
    (∀ x ∈ [(c.sendSegment now flags data).1], InTurn last x) ∧
      Saved (lastFresh last [(c.sendSegment now flags data).1]) (c.sendSegment now flags data).2 := by
  constructor
  · intro x hx
    obtain rfl := List.mem_singleton.1 hx
    exact ⟨fun _ => ⟨rfl, hquiet⟩, fun h => absurd h (by simp [Conn.sendSegment])⟩
  · intro _
    refine ⟨?_, (c.sendSegment now flags data).1, by simp [lastFresh, Conn.sendSegment], hquiet.symm, rfl, ?_⟩
    · show c.sendNext + _ = c.sendUna + _
      rw [hquiet]
      rfl
    · show data = (overwrite c.unackedData 0 data).take (UInt16.ofNat data.length).toNat
      rw [UInt16.toNat_ofNat', Nat.mod_eq_of_lt (by omega)]
      simp [overwrite]

theorem saved_poll (h : Saved last c) (now : UInt32) :
    (∀ x ∈ (c.poll now).1, InTurn last x) ∧ Saved (lastFresh last (c.poll now).1) (c.poll now).2 := by
  simp only [Conn.poll]
  split_ifs with _ hquiet
  · exact ⟨fun x hx => absurd hx not_mem_nil, h⟩
  · exact ⟨fun x hx => absurd hx not_mem_nil, h⟩
  · exact ⟨fun x hx => absurd hx not_mem_nil, h⟩
  · obtain ⟨_, y, hy, hseq, hflags, hdata⟩ := h hquiet
    refine ⟨fun x hx => ?_, h⟩
    obtain rfl := List.mem_singleton.1 hx
    exact ⟨fun hfresh => absurd hfresh (by simp), fun _ => ⟨y, hy, hseq.symm, hflags.symm, hdata.symm⟩⟩
  · exact ⟨fun x hx => absurd hx not_mem_nil, h⟩

theorem saved_close (h : Saved last c) (now : UInt32)
    (hquiet : c.state = .established ∨ c.state = .closeWait → c.sendUna = c.sendNext) :
    (∀ x ∈ (c.close now).1, InTurn last x) ∧ Saved (lastFresh last (c.close now).1) (c.close now).2 := by
  simp only [Conn.close]
  split
  · exact ⟨fun x hx => absurd hx not_mem_nil, h⟩
  · exact ⟨fun x hx => absurd hx not_mem_nil, h⟩
  · rename_i hst
    exact saved_sendSegment (hquiet (Or.inl hst)) now _ (Nat.zero_le _) last
  · rename_i hst
    exact saved_sendSegment (hquiet (Or.inr hst)) now _ (Nat.zero_le _) last
  · exact ⟨fun x hx => absurd hx not_mem_nil, h⟩

/-! ## Steps and runs -/

/-- **One step under the rule.** -/
theorem Saved.step {s : Tcp} {i : Fin 4} {e : TcpEvent} {out : List Sent} {bytes : List UInt8} {c' : Conn}
    (h : Saved last (s.conns i)) (hquiet : Quiet s e) (hmove : Move s i e out bytes c') :
    (∀ x ∈ out, InTurn last x) ∧ Saved (lastFresh last out) c' := by
  have hsilent {d : Conn} (hd : Saved last d) : (∀ x ∈ ([] : List Sent), InTurn last x) ∧ Saved (lastFresh last []) d :=
    ⟨fun x hx => absurd hx not_mem_nil, hd⟩
  cases hmove with
  | idle => exact hsilent h
  | listens => exact hsilent fun hne => absurd rfl hne
  | accepted => exact hsilent h
  | opens => exact saved_sendSegment rfl _ _ (Nat.zero_le _) last
  | timesOut => exact hsilent h
  | sends hidle hlive hest hne =>
    exact saved_sendSegment (hquiet hidle i hlive hest hne) _ _ (length_take_le _ _) last
  | sendsNext _ _ hacked _ hlen => exact saved_sendSegment hacked _ _ hlen last
  | receives => exact hsilent h
  | closes hlive => exact saved_close h _ (hquiet i hlive)
  | polls => exact saved_poll h _
  | handles =>
    have hack := handle_origin (s.conns i) ‹Segment›
    refine ⟨fun x hx => ⟨fun hf => ?_, fun ha => ?_⟩, ?_⟩
    · exact absurd ((hack x hx).symm.trans hf) (by decide)
    · exact absurd ((hack x hx).symm.trans ha) (by decide)
    · rw [lastFresh_of_ack fun x hx => by rw [hack x hx]; decide]
      exact (KeepsSaved.handle _ _).saved h
  | accepts => exact saved_sendSegment rfl _ _ (Nat.zero_le _) last

theorem freshOn_snoc (i : Fin 4) (tr : List (TcpEvent × TcpRes)) (er : TcpEvent × TcpRes) :
    (freshOn i (tr ++ [er])).getLast? = lastFresh (freshOn i tr).getLast? (er.2.sentOn i) := by
  rw [freshOn, flatMap_append, flatMap_singleton, getLast?_append]
  rfl

theorem Saved.run {ip : UInt32} {t : Tcp} {tr : List (TcpEvent × TcpRes)} (h : Run Tcp.step Quiet (Tcp.init ip) tr t)
    (i : Fin 4) : Saved (freshOn i tr).getLast? (t.conns i) := by
  induction h with
  | nil => exact fun hne => absurd rfl hne
  | snoc e _ hquiet ih =>
    rw [freshOn_snoc]
    exact (ih.step hquiet (step_move _ e i)).2

open NetHost

/-- **Stop and wait.** In every run that starts no new segment while one is in flight, with the hosts to send to in the ARP
cache: whenever `send_una` and `send_next` differ, the saved segment occupies exactly the sequence numbers between them and
is the last one `send_segment` sent; a fresh segment starts at `send_next` with nothing in flight, so nothing
unacknowledged is dropped from the copy; and every retransmission repeats sequence number, flags and data of that last
segment. -/
theorem stop_and_wait {ip : UInt32} {h₀ h : NetHost} {tr : List (HostEvent × HostRes)} (hinit : h₀.tcp = Tcp.init ip)
    (hidle : h₀.Idle) (hrun : Run NetHost.step (Prompt Quiet) h₀ tr h) (i : Fin 4) :
    Saved (freshOn i (events tr)).getLast? (h.tcp.conns i) ∧
      ∀ t e, h.Prompt Quiet (.tcp t e) → ∀ x, .conn i x ∈ (h.step (.tcp t e)).1.out →
        InTurn (freshOn i (events tr)).getLast? x := by
  obtain ⟨hidle', htcp⟩ := prompt_run hrun hidle
  rw [hinit] at htcp
  have hsaved := Saved.run htcp i
  refine ⟨hsaved, fun t e hok x hx => ?_⟩
  exact (hsaved.step hok.2 (step_move h.tcp e i)).1 x ((out_resolved hidle' hok.1).1 hx)

/-- the handshake with `hiPeer` and one byte sent, still in flight -/
theorem stop_and_wait_byte :
    ∃ tr h, Run NetHost.step (Prompt Quiet) hiHost tr h ∧ (h.tcp.conns 0).sendUna ≠ (h.tcp.conns 0).sendNext ∧
      Saved (freshOn 0 (events tr)).getLast? (h.tcp.conns 0) := by
  have hrun : Run NetHost.step (Prompt Quiet) _ [] hiHost := .nil _
  have hrun := prompt_snoc hrun 0 (.connect 0 0x0A000202 80) (by decide +kernel) trivial
  have hrun := prompt_snoc hrun 0 (hiPacket hiSynAck hiSynAck_short) (by decide +kernel) trivial
  have hrun := prompt_snoc hrun 0 (.resume 0) (by decide +kernel) trivial
  have hrun := prompt_snoc hrun 0 (.send 0 0 ⟨[65], by decide⟩) (by decide +kernel) (fun _ i hi _ _ => by
    obtain rfl : i = 0 := Option.some.inj (hi.symm.trans (by decide +kernel))
    decide +kernel)
  exact ⟨_, _, hrun, by decide +kernel, (stop_and_wait rfl hiHost_idle hrun 0).1⟩

/-- **Closing after a timeout loses the byte.** The byte 65 is sent at 64001 and never acknowledged; `tcp_send` gives up,
`tcp_close` sends its FIN behind it, and what is saved no longer covers what is in flight: the next retransmission is the
FIN, at 64001. -/
theorem close_after_timeout :
    let ops : List TcpEvent := [.connect 0 0x0A000202 80, hiPacket hiSynAck hiSynAck_short, .resume 0,
      .send 0 0 ⟨[65], by decide⟩, .tick 501, .resume 0, .close 0, .tick 201]
    let t := runOps Tcp.step (Tcp.init 0x0A00020F) ops
    ((t.conns 0).sendUna = 64001 ∧ (t.conns 0).sendNext = 64003 ∧
      seqLen (t.conns 0).unackedFlags (t.conns 0).unackedLen = 1) ∧
    ((runOps Tcp.step (Tcp.init 0x0A00020F) (ops.take 3)).step (.send 0 0 ⟨[65], by decide⟩)).1.sent.map
        (fun | .conn _ x => (x.seq, x.flags, x.data) | .reset _ _ => (0, 0, [])) =
      [(64001, flagAck ||| flagPsh, [65])] ∧
    (t.step .poll).1.sent.map (fun | .conn _ x => (x.seq, x.flags, x.data) | .reset _ _ => (0, 0, [])) =
      [(64001, flagFin ||| flagAck, [])] := by
  decide +kernel

end GannetOS.Net
