/-
Whose connection is it: the identity of a connection is its local port and its remote address and port.

`find_connection` takes the first slot with the identity of a segment, and a blocked `tcp_connect` takes whatever its
slot holds. Both are right only while identities and slots are not reused under them:
- a passive open is checked against the table, but `tcp_connect` takes the next ephemeral port without a look at it, so a
  second connection may get the identity of a live one (`ephemeral_port_taken`, where the first came in at a listener).
  `identity_unique`: if the picked port is free for the peer, no two live connections ever share an identity.
- `alloc_slot` gives away the slot of a connection that was reset while its `tcp_connect` still waits, and the call returns
  the new connection as its own (`connect_returns_other`). `connect_returns_own`: if no event allocates the slot under
  the call, a returned handle is the connection the call opened, with its SYN acknowledged.

Both are over runs of a host with its peers in the ARP cache (`NetHost.Prompt`).
-/
import GannetOS.Net.TcpReceive

namespace GannetOS.Net

open GannetOS.Core Tcp

/-- local port, remote address, remote port -/
def Conn.key (c : Conn) : UInt16 × UInt32 × UInt16 := (c.localPort, c.remoteIp, c.remotePort)

/-- a slot `find_connection` looks at -/
def Conn.Live (c : Conn) : Prop := c.state ≠ .closed ∧ c.state ≠ .listen

/-! ## What keeps an identity -/

/-- the block keeps its identity, and is neither revived nor turned into a listener -/
structure KeepsKey (c d : Conn) : Prop where
  key : d.key = c.key
  live : d.Live → c.Live
  listen : d.state = .listen → c.state = .listen
  synSent : d.state = .synSent → c.state = .synSent

namespace KeepsKey

theorem refl (c : Conn) : KeepsKey c c := ⟨rfl, id, id, id⟩

variable {c d : Conn}

theorem trans {e : Conn} (h : KeepsKey c d) (h' : KeepsKey d e) : KeepsKey c e :=
  ⟨h'.key.trans h.key, fun hl => h.live (h'.live hl), fun hl => h.listen (h'.listen hl),
    fun hl => h.synSent (h'.synSent hl)⟩

/-- same identity, same state -/
theorem of_eq (hkey : d.key = c.key) (hstate : d.state = c.state) : KeepsKey c d :=
  ⟨hkey, by simp [Conn.Live, hstate], by simp [hstate], by simp [hstate]⟩

/-- same identity, another state of a live connection -/
theorem of_live (hkey : d.key = c.key) (hc : c.Live) (hlisten : d.state ≠ .listen) (hsyn : d.state ≠ .synSent) :
    KeepsKey c d :=
  ⟨hkey, fun _ => hc, fun h => absurd h hlisten, fun h => absurd h hsyn⟩

theorem closed (hkey : d.key = c.key) (hstate : d.state = .closed) : KeepsKey c d :=
  ⟨hkey, fun h => absurd hstate h.1, by simp [hstate], by simp [hstate]⟩

theorem takeAck (hc : c.Live) (seg : Segment) : KeepsKey c (c.takeAck seg) := by
  simp only [Conn.takeAck]
  split_ifs
  · exact of_live rfl hc (by simp) (by simp)
  · exact closed rfl rfl
  · exact of_live rfl hc (by simp) (by simp)
  · exact closed rfl rfl
  · exact of_eq rfl rfl
  · exact refl c

theorem takeData (c : Conn) (seg : Segment) : KeepsKey c (c.takeData seg).2 := by
  simp only [Conn.takeData]
  split_ifs
  · exact of_eq (by simp only [Conn.key]) rfl
  · exact refl c
  · exact refl c

theorem takeFin (c : Conn) (seg : Segment) : KeepsKey c (c.takeFin seg).2 := by
  simp only [Conn.takeFin]
  split_ifs
  · split
    · rename_i hst
      exact of_live rfl ⟨by simp [hst], by simp [hst]⟩ (by simp) (by simp)
    · exact closed rfl rfl
    · exact of_eq rfl rfl
  · exact refl c

theorem handle (hc : c.Live) (seg : Segment) : KeepsKey c (c.handle seg).2 := by
  simp only [Conn.handle]
  split_ifs
  · exact closed rfl rfl
  · exact of_live rfl hc (by simp) (by simp)
  · exact refl c
  · exact takeAck hc seg
  · exact (takeAck hc seg).trans ((takeData _ seg).trans (takeFin _ seg))

theorem poll (c : Conn) (now : UInt32) : KeepsKey c (c.poll now).2 := by
  simp only [Conn.poll]
  split_ifs
  · exact refl c
  · exact refl c
  · exact closed rfl rfl
  · exact of_eq rfl rfl
  · exact refl c

theorem close (c : Conn) (now : UInt32) : KeepsKey c (c.close now).2 := by
  simp only [Conn.close]
  split
  · exact closed rfl rfl
  · exact closed rfl rfl
  · rename_i hst
    exact of_live rfl ⟨by simp [hst], by simp [hst]⟩ (by simp) (by simp)
  · rename_i hst
    exact of_live rfl ⟨by simp [hst], by simp [hst]⟩ (by simp) (by simp)
  · exact refl c

end KeepsKey

variable {s s' : Tcp} {i : Fin 4} {e : TcpEvent} {t : ℕ}

/-- **Who an event makes of a slot.** It keeps the slot's identity, or `alloc_slot` has given the slot away: to a new
listener on a port nobody listens on, to a connection of `tcp_connect`, or to the sender of a SYN nobody knows. -/
theorem Tcp.Move.identity {out : List Sent} {bytes : List UInt8} {c : Conn} (h : Move s i e out bytes c) :
    KeepsKey (s.conns i) c ∨ s.allocSlot = some i ∧
      ((c.state = .listen ∧ e = .listen c.localPort ∧ s.findListener c.localPort = none) ∨
      (c.state = .synSent ∧ ∃ t, e = .connect t c.remoteIp c.remotePort ∧ s.calls t = none ∧ c.localPort = s.nextPort) ∨
      (c.state = .synReceived ∧ ∃ p src seg, e = .arrive p src ∧ parseSegment s.localIp p.1 src = some seg ∧
        s.findConnection c.localPort c.remoteIp c.remotePort = none ∧
        s.findConnection seg.dstPort src seg.srcPort = none ∧ s.findListener seg.dstPort ≠ none ∧
        has seg.flags flagSyn ∧ ¬has seg.flags flagAck)) := by
  cases h with
  | idle => exact Or.inl (.refl _)
  | listens hport hslot => exact Or.inr ⟨hslot, Or.inl ⟨rfl, rfl, hport⟩⟩
  | accepted => exact Or.inl (.of_eq rfl rfl)
  | opens hidle hslot => exact Or.inr ⟨hslot, Or.inr (Or.inl ⟨rfl, _, rfl, hidle, rfl⟩)⟩
  | timesOut => exact Or.inl (.closed rfl rfl)
  | sends => exact Or.inl (.of_eq rfl rfl)
  | sendsNext => exact Or.inl (.of_eq rfl rfl)
  | receives => exact Or.inl (.of_eq rfl rfl)
  | closes => exact Or.inl (.close _ _)
  | polls => exact Or.inl (.poll _ _)
  | handles _ hfind =>
    have hlive := findConnection_live hfind
    exact Or.inl (.handle ⟨hlive.1, hlive.2.1⟩ _)
  | accepts hseg hnew hport hsyn hslot =>
    exact Or.inr ⟨hslot, Or.inr (Or.inr ⟨rfl, _, _, _, rfl, hseg, hnew, hnew, hport, hsyn⟩)⟩

/-! ## Unique identities -/

/-- the ephemeral port `tcp_connect` is about to pick is free for the peer -/
def FreshPort (s : Tcp) : TcpEvent → Prop
  | .connect t ip port => s.calls t = none → s.findConnection s.nextPort ip port = none
  | _ => True

/-- no two live connections share an identity, no two listeners a port -/
structure Distinct (s : Tcp) : Prop where
  conns : ∀ i j, (s.conns i).Live → (s.conns j).Live → (s.conns i).key = (s.conns j).key → i = j
  listeners : ∀ i j, (s.conns i).state = .listen → (s.conns j).state = .listen →
    (s.conns i).localPort = (s.conns j).localPort → i = j

theorem findConnection_ne_none (h : (s.conns i).Live) {lp rp : UInt16} {ip : UInt32}
    (hkey : (s.conns i).key = (lp, ip, rp)) : s.findConnection lp ip rp ≠ none := by
  obtain ⟨rfl, rfl, rfl⟩ : (s.conns i).localPort = lp ∧ (s.conns i).remoteIp = ip ∧ (s.conns i).remotePort = rp := by
    simpa [Conn.key] using hkey
  intro hnone
  have hi := List.find?_eq_none.1 hnone i (List.mem_finRange i)
  simp [h.1, h.2] at hi

theorem findListener_ne_none (h : (s.conns i).state = .listen) :
    s.findListener (s.conns i).localPort ≠ none := by
  intro hnone
  have hi := List.find?_eq_none.1 hnone i (List.mem_finRange i)
  simp [h] at hi

/-- a slot that is live after a step: kept, or given a new identity -/
theorem step_live (hfresh : FreshPort s e) (i : Fin 4) (hlive : ((s.step e).2.conns i).Live) :
    ((s.step e).2.conns i).key = (s.conns i).key ∧ (s.conns i).Live ∨ s.allocSlot = some i ∧
      ∀ j, (s.conns j).Live → (s.conns j).key ≠ ((s.step e).2.conns i).key := by
  rcases (step_move s e i).identity with h | ⟨hslot, h⟩
  · exact Or.inl ⟨h.key, h.live hlive⟩
  · refine Or.inr ⟨hslot, fun j hj hkey => findConnection_ne_none hj hkey ?_⟩
    rcases h with ⟨hlisten, -⟩ | ⟨-, t, he, hidle, hport⟩ | ⟨-, _, _, _, -, -, hnone, -⟩
    · exact absurd hlisten hlive.2
    · rw [he] at hfresh
      rw [hport]
      exact hfresh hidle
    · exact hnone

/-- a slot that listens after a step: kept, or on a port nobody listened on -/
theorem step_listen (s : Tcp) (e : TcpEvent) (i : Fin 4) (hlisten : ((s.step e).2.conns i).state = .listen) :
    ((s.step e).2.conns i).localPort = (s.conns i).localPort ∧ (s.conns i).state = .listen ∨ s.allocSlot = some i ∧
      ∀ j, (s.conns j).state = .listen → (s.conns j).localPort ≠ ((s.step e).2.conns i).localPort := by
  rcases (step_move s e i).identity with h | ⟨hslot, h⟩
  · exact Or.inl ⟨congrArg Prod.fst h.key, h.listen hlisten⟩
  · refine Or.inr ⟨hslot, fun j hj hport => findListener_ne_none hj ?_⟩
    rcases h with ⟨-, -, hnone⟩ | ⟨hst, -⟩ | ⟨hst, -⟩
    · rw [hport]
      exact hnone
    · exact absurd (hlisten.symm.trans hst) (by decide)
    · exact absurd (hlisten.symm.trans hst) (by decide)

theorem Distinct.step (h : Distinct s) (hfresh : FreshPort s e) : Distinct (s.step e).2 := by
  constructor
  · intro i j hi hj hkey
    rcases step_live hfresh i hi with ⟨hki, hli⟩ | ⟨hsi, hni⟩ <;>
      rcases step_live hfresh j hj with ⟨hkj, hlj⟩ | ⟨hsj, hnj⟩
    · exact h.conns i j hli hlj (by rw [← hki, ← hkj, hkey])
    · exact absurd (hki.symm.trans hkey) (hnj i hli)
    · exact absurd (hkj.symm.trans hkey.symm) (hni j hlj)
    · exact Option.some.inj (hsi.symm.trans hsj)
  · intro i j hi hj hport
    rcases step_listen s e i hi with ⟨hki, hli⟩ | ⟨hsi, hni⟩ <;>
      rcases step_listen s e j hj with ⟨hkj, hlj⟩ | ⟨hsj, hnj⟩
    · exact h.listeners i j hli hlj (by rw [← hki, ← hkj, hport])
    · exact absurd (hki.symm.trans hport) (hnj i hli)
    · exact absurd (hkj.symm.trans hport.symm) (hni j hlj)
    · exact Option.some.inj (hsi.symm.trans hsj)

theorem Distinct.init (ip : UInt32) : Distinct (Tcp.init ip) :=
  ⟨fun _ _ hi => absurd rfl hi.1, fun _ _ hi => absurd (show TcpState.closed = .listen from hi) (by decide)⟩

/-- the search finds the one connection there is -/
theorem Distinct.findConnection (h : Distinct s) (hi : (s.conns i).Live) :
    s.findConnection (s.conns i).localPort (s.conns i).remoteIp (s.conns i).remotePort = some i := by
  rcases hfind : s.findConnection (s.conns i).localPort (s.conns i).remoteIp (s.conns i).remotePort with _ | j
  · exact absurd hfind (findConnection_ne_none hi rfl)
  · obtain ⟨hclosed, hlisten, hlp, hip, hrp⟩ := findConnection_live hfind
    rw [h.conns j i ⟨hclosed, hlisten⟩ hi (by simp [Conn.key, hlp, hip, hrp])]

theorem Distinct.findListener (h : Distinct s) (hi : (s.conns i).state = .listen) :
    s.findListener (s.conns i).localPort = some i := by
  rcases hfind : s.findListener (s.conns i).localPort with _ | j
  · exact absurd hfind (findListener_ne_none hi)
  · have hj : (s.conns j).state = .listen ∧ (s.conns j).localPort = (s.conns i).localPort := by
      simpa using List.find?_some hfind
    rw [h.listeners j i hj.1 hi hj.2]

open NetHost (Prompt prompt_run prompt_run_after prompt_snoc events)

/-- **Connection identities are unique.** In every run in which each `tcp_connect` picks a port that is free for its peer
and the hosts to send to are in the ARP cache, no two live connections share an identity and no two listeners a port, so
both searches find the one slot there is. -/
theorem identity_unique {ip : UInt32} {h₀ h : NetHost} {tr : List (HostEvent × HostRes)} (hinit : h₀.tcp = Tcp.init ip)
    (hidle : h₀.Idle) (hrun : Run NetHost.step (Prompt FreshPort) h₀ tr h) :
    Distinct h.tcp ∧
      (∀ i, (h.tcp.conns i).Live →
        h.tcp.findConnection (h.tcp.conns i).localPort (h.tcp.conns i).remoteIp (h.tcp.conns i).remotePort = some i) ∧
      ∀ i, (h.tcp.conns i).state = .listen → h.tcp.findListener (h.tcp.conns i).localPort = some i := by
  obtain ⟨-, htcp⟩ := prompt_run hrun hidle
  rw [hinit] at htcp
  have hdistinct := htcp.invariant (fun _ _ hs he => hs.step he) (Distinct.init ip)
  exact ⟨hdistinct, fun i hi => hdistinct.findConnection hi, fun i hi => hdistinct.findListener hi⟩

/-- two connections to the same peer, from ports 49152 and 49153 -/
theorem identity_unique_two :
    ∃ tr h, Run NetHost.step (Prompt FreshPort) hiHost tr h ∧ (h.tcp.conns 0).Live ∧ (h.tcp.conns 1).Live ∧
      Distinct h.tcp := by
  have hrun : Run NetHost.step (Prompt FreshPort) _ [] hiHost := .nil _
  have hrun := prompt_snoc hrun 0 (.connect 0 0x0A000202 80) (by decide +kernel) (fun _ => by decide +kernel)
  have hrun := prompt_snoc hrun 1 (.connect 1 0x0A000202 80) (by decide +kernel) (fun _ => by decide +kernel)
  exact ⟨_, _, hrun, ⟨by decide +kernel, by decide +kernel⟩, ⟨by decide +kernel, by decide +kernel⟩,
    (identity_unique rfl hiHost_idle hrun).1⟩

/-- a SYN from port 80 of the peer to a listener on the first ephemeral port -/
def synToEphemeral : Segment := ⟨80, 49152, 1000, 0, flagSyn, 0, []⟩

/-- **An ephemeral port already taken.** A peer's port 80 has connected to our listener on 49152; `tcp_connect` to that port
picks 49152 as well, and two live connections have one identity. -/
theorem ephemeral_port_taken :
    let t := runOps Tcp.step (Tcp.init 0x0A00020F)
      [.listen 49152, hiPacket synToEphemeral (by decide +kernel), .connect 0 0x0A000202 80]
    (t.conns 1).state = .synReceived ∧ (t.conns 2).state = .synSent ∧ (t.conns 1).key = (t.conns 2).key := by
  decide +kernel

/-! ## The connection a blocked `tcp_connect` returns -/

/-- the address stays, and the call of every other task -/
structure KeepsCalls (t : ℕ) (s s' : Tcp) : Prop where
  localIp : s'.localIp = s.localIp
  calls : ∀ t', t' ≠ t → s'.calls t' = s.calls t'

theorem KeepsCalls.of_eq (hip : s'.localIp = s.localIp) (hcalls : s'.calls = s.calls) :
    KeepsCalls t s s' := ⟨hip, fun _ _ => by rw [hcalls]⟩

theorem KeepsCalls.setCall (h : KeepsCalls t s s') (k : Option Call) :
    KeepsCalls t s (s'.setCall t k) :=
  ⟨h.localIp, fun t' ht => (Function.update_of_ne ht _ _).trans (h.calls t' ht)⟩

theorem sendChunk_keepsCalls (s : Tcp) (t : ℕ) (i : Fin 4) (data : List UInt8) (sent : ℕ) :
    KeepsCalls t s (s.sendChunk t i data sent).2 := by
  unfold sendChunk
  split_ifs
  · exact (KeepsCalls.of_eq rfl rfl : KeepsCalls t s (s.setConn i _)).setCall _
  · exact (KeepsCalls.of_eq rfl rfl : KeepsCalls t s s).setCall _

theorem resume_keepsCalls (s : Tcp) (t : ℕ) : KeepsCalls t s (s.resume t).2 := by
  have hself : KeepsCalls t s s := .of_eq rfl rfl
  unfold resume
  split
  · exact hself
  · rename_i i start _
    split_ifs
    · exact (KeepsCalls.of_eq rfl rfl : KeepsCalls t s (s.setConn i _)).setCall none
    · exact hself
    · exact hself.setCall none
    · exact hself.setCall none
  · split_ifs
    · exact hself.setCall none
    · exact hself.setCall none
    · exact hself
    · exact sendChunk_keepsCalls s t _ _ _

theorem handlePacket_keeps (s : Tcp) (p : Buffer) (src : UInt32) :
    (s.handlePacket p src).2.localIp = s.localIp ∧ (s.handlePacket p src).2.calls = s.calls := by
  dsimp only [handlePacket, handleSegment]
  split
  · exact ⟨rfl, rfl⟩
  · split
    · exact ⟨rfl, rfl⟩
    · split
      · exact ⟨rfl, rfl⟩
      · split_ifs
        · split
          · exact ⟨rfl, rfl⟩
          · rw [setConn_localIp, setConn_calls, initialSeq_localIp, initialSeq_calls]
            exact ⟨rfl, rfl⟩
        · exact ⟨rfl, rfl⟩

/-- a blocked call is left alone by every event but its own return -/
theorem step_calls (h : s.calls t ≠ none) (he : e ≠ .resume t) :
    (s.step e).2.localIp = s.localIp ∧ (s.step e).2.calls t = s.calls t := by
  have hblocked {t' : ℕ} (hidle : ¬(s.calls t').isSome) : t ≠ t' := by
    rintro rfl
    exact hidle (Option.isSome_iff_ne_none.2 h)
  cases e with
  | listen port =>
    dsimp only [step, Tcp.listen]
    split <;> exact ⟨rfl, rfl⟩
  | accept handle =>
    dsimp only [step, accept]
    split
    · exact ⟨rfl, rfl⟩
    · split <;> exact ⟨rfl, rfl⟩
  | connect t' ip port =>
    dsimp only [step, connect]
    split_ifs with hidle
    · exact ⟨rfl, rfl⟩
    · split
      · exact ⟨rfl, rfl⟩
      · rw [setCall_localIp, setConn_localIp, initialSeq_localIp, setCall_calls, Function.update_of_ne (hblocked hidle),
          setConn_calls, initialSeq_calls]
        exact ⟨rfl, rfl⟩
  | send t' handle data =>
    dsimp only [step, send]
    split_ifs with hidle
    · exact ⟨rfl, rfl⟩
    · split
      · exact ⟨rfl, rfl⟩
      · have hkeeps := sendChunk_keepsCalls s t' ‹_› data.1 0
        exact ⟨hkeeps.localIp, hkeeps.calls t (hblocked hidle)⟩
  | resume t' =>
    have hkeeps := resume_keepsCalls s t'
    exact ⟨hkeeps.localIp, hkeeps.calls t fun ht => he (by rw [ht])⟩
  | recv handle n =>
    dsimp only [step, recv]
    split <;> exact ⟨rfl, rfl⟩
  | close handle =>
    dsimp only [step, close]
    split <;> exact ⟨rfl, rfl⟩
  | poll => exact ⟨rfl, rfl⟩
  | arrive p src =>
    have hkeeps := handlePacket_keeps s p src
    exact ⟨hkeeps.1, by rw [step, hkeeps.2]⟩
  | tick n => exact ⟨rfl, rfl⟩

/-- an event that takes the slot `alloc_slot` offers -/
def Allocates (s : Tcp) : TcpEvent → Prop
  | .listen port => s.findListener port = none
  | .connect t _ _ => s.calls t = none
  | .arrive p src => ∃ seg, parseSegment s.localIp p.1 src = some seg ∧
      s.findConnection seg.dstPort src seg.srcPort = none ∧ s.findListener seg.dstPort ≠ none ∧
      has seg.flags flagSyn ∧ ¬has seg.flags flagAck
  | _ => False

/-- task `t` is still blocked, and the event does not allocate slot `i` -/
def Waits (t : ℕ) (i : Fin 4) (s : Tcp) (e : TcpEvent) : Prop :=
  s.calls t ≠ none ∧ ¬(Allocates s e ∧ s.allocSlot = some i)

/-- the peer has acknowledged the SYN that `tcp_connect ip port` sent in state `s` -/
def SynAcked (s : Tcp) (ip : UInt32) (port : UInt16) (events : List TcpEvent) : Prop :=
  ∃ p src seg, TcpEvent.arrive p src ∈ events ∧ parseSegment s.localIp p.1 src = some seg ∧
    (seg.dstPort, src, seg.srcPort) = (s.nextPort, ip, port) ∧ has seg.flags flagSyn ∧ has seg.flags flagAck ∧
    seg.ack = (s.activeOpen ip port).1.seq + 1

/-- the slot of a `tcp_connect ip port` called in state `s`, after the given events -/
structure OwnSlot (s : Tcp) (ip : UInt32) (port : UInt16) (events : List TcpEvent) (c : Conn) : Prop where
  key : c.key = (s.nextPort, ip, port)
  syn : c.state = .synSent → c.sendUna ≠ c.sendNext ∧ c.sendNext = (s.activeOpen ip port).1.seq + 1
  acked : c.state ≠ .synSent → c.state ≠ .closed → SynAcked s ip port events

section Own

variable {s : Tcp} {ip : UInt32} {port : UInt16} {events : List TcpEvent} {c : Conn}

theorem SynAcked.mono (h : SynAcked s ip port events) (e : TcpEvent) : SynAcked s ip port (events ++ [e]) := by
  obtain ⟨p, src, seg, hmem, hrest⟩ := h
  exact ⟨p, src, seg, List.mem_append_left _ hmem, hrest⟩

/-- kept identity: closed, or still the same SYN in flight, or established before -/
theorem OwnSlot.keep (h : OwnSlot s ip port events c) (d : Conn) (hkeep : KeepsKey c d)
    (hlive : d.state ≠ .closed → c.state ≠ .closed)
    (hsyn : c.state = .synSent → d.state = .synSent ∨ d.state = .closed)
    (hsend : d.state = .synSent → d.sendUna = c.sendUna ∧ d.sendNext = c.sendNext) (e : TcpEvent) :
    OwnSlot s ip port (events ++ [e]) d := by
  refine ⟨hkeep.key.trans h.key, fun hd => ?_, fun hd hclosed => ?_⟩
  · obtain ⟨huna, hnext⟩ := hsend hd
    rw [huna, hnext]
    exact h.syn (hkeep.synSent hd)
  · refine (h.acked (fun hc => ?_) (hlive hclosed)).mono e
    rcases hsyn hc with hst | hst
    · exact hd hst
    · exact hclosed hst

theorem OwnSlot.handle (h : OwnSlot s ip port events c) {t : Tcp} {i : Fin 4} (hc : t.conns i = c)
    (hip : t.localIp = s.localIp) {p : Buffer} {src : UInt32} {seg : Segment}
    (hseg : parseSegment t.localIp p.1 src = some seg) (hfind : t.findConnection seg.dstPort src seg.srcPort = some i) :
    OwnSlot s ip port (events ++ [.arrive p src]) (c.handle seg).2 := by
  obtain ⟨hclosed, hlisten, hlp, hrip, hrp⟩ := findConnection_live hfind
  rw [hc] at hclosed hlisten hlp hrip hrp
  have hkeep := KeepsKey.handle ⟨hclosed, hlisten⟩ seg
  by_cases hst : c.state = .synSent
  · refine ⟨hkeep.key.trans h.key, ?_, ?_⟩
    · simp only [Conn.handle, if_pos hst]
      split_ifs
      · exact fun hd => absurd hd (by simp)
      · exact fun hd => absurd hd (by simp)
      · exact fun _ => h.syn hst
    · simp only [Conn.handle, if_pos hst]
      split_ifs with hrst hsyn
      · exact fun _ hd => absurd rfl hd
      · intro _ _
        have hkey := h.key
        rw [Conn.key, hlp, hrip, hrp] at hkey
        exact ⟨p, src, seg, List.mem_append_right _ List.mem_cons_self, hip ▸ hseg, hkey, hsyn.1, hsyn.2.1,
          hsyn.2.2.trans (h.syn hst).2⟩
      · exact fun hd => absurd hst hd
  · exact h.keep _ hkeep (fun _ => hclosed) (fun hd => absurd hd hst) (fun hd => absurd (hkeep.synSent hd) hst) _

theorem OwnSlot.step {t : Tcp} {i : Fin 4} (h : OwnSlot s ip port events (t.conns i)) (hip : t.localIp = s.localIp)
    {e : TcpEvent} (hkeep : ¬(Allocates t e ∧ t.allocSlot = some i)) :
    OwnSlot s ip port (events ++ [e]) ((t.step e).2.conns i) := by
  have hmove := step_move t e i
  generalize (t.step e).2.conns i = c' at hmove ⊢
  generalize (t.step e).1.sentOn i = out at hmove
  generalize bytesOn i (e, (t.step e).1) = bytes at hmove
  cases hmove with
  | idle => exact h.keep _ (.refl _) id Or.inl (fun _ => ⟨rfl, rfl⟩) e
  | listens hport hslot => exact absurd ⟨hport, hslot⟩ hkeep
  | accepted =>
    exact h.keep { t.conns i with pendingAccept := false } (.of_eq rfl rfl) id Or.inl (fun _ => ⟨rfl, rfl⟩) _
  | opens hidle hslot => exact absurd ⟨hidle, hslot⟩ hkeep
  | timesOut =>
    exact h.keep { t.conns i with state := .closed } (.closed rfl rfl) (fun hd => absurd rfl hd) (fun _ => Or.inr rfl)
      (fun hd => by cases hd) _
  | sends _ _ hest =>
    refine h.keep (t.dataSegment i _).2 (.of_eq rfl rfl) id Or.inl (fun hd => ?_) _
    exact absurd (hest.symm.trans hd) (by decide)
  | sendsNext _ _ hacked =>
    refine h.keep (t.dataSegment i _).2 (.of_eq rfl rfl) id Or.inl (fun hd => ?_) _
    exact absurd hacked (h.syn hd).1
  | receives => exact h.keep ((t.conns i).recv _).2 (.of_eq rfl rfl) id Or.inl (fun _ => ⟨rfl, rfl⟩) _
  | closes =>
    refine h.keep _ (.close _ _) ?_ ?_ ?_ _
    all_goals
      simp only [Conn.close]
      split <;> simp_all
  | polls =>
    refine h.keep _ (.poll _ _) ?_ ?_ ?_ _
    all_goals
      simp only [Conn.poll]
      split_ifs <;> simp_all
  | handles hseg hfind => exact h.handle rfl hip hseg hfind
  | accepts hseg hnew hport hsyn hslot => exact absurd ⟨⟨_, hseg, hnew, hport, hsyn⟩, hslot⟩ hkeep

end Own

/-- a call of `tcp_connect` that found a slot: it opens the slot and waits -/
theorem connect_found (hidle : s.calls t = none) (hslot : s.allocSlot = some i) (ip : UInt32) (port : UInt16) :
    (s.step (.connect t ip port)).1.ret = none ∧ (s.step (.connect t ip port)).2.localIp = s.localIp ∧
      (s.step (.connect t ip port)).2.calls t = some (.connect i s.ticks) ∧
      (s.step (.connect t ip port)).2.conns i = (s.activeOpen ip port).2 := by
  simp only [step, connect, hidle, hslot, Option.isSome_none, Bool.false_eq_true, if_false]
  refine ⟨trivial, ?_, ?_, ?_⟩
  · rw [setCall_localIp, setConn_localIp, initialSeq_localIp]
    rfl
  · rw [setCall_calls, Function.update_self]
  · rw [setCall_conns, setConn_conns, Function.update_self, activeOpen]
    rfl

theorem activeOpen_opening (s : Tcp) (ip : UInt32) (port : UInt16) : Opening [] (s.activeOpen ip port).2 :=
  opened_opening _ _ _ _ _

theorem connect_starts (hidle : s.calls t = none) (hslot : s.allocSlot = some i) (ip : UInt32) (port : UInt16) :
    (s.step (.connect t ip port)).2.localIp = s.localIp ∧
      (s.step (.connect t ip port)).2.calls t = some (.connect i s.ticks) ∧
      OwnSlot s ip port [] ((s.step (.connect t ip port)).2.conns i) := by
  obtain ⟨-, hip, hcall, hconn⟩ := connect_found hidle hslot ip port
  refine ⟨hip, hcall, ?_⟩
  rw [hconn]
  exact ⟨rfl, fun _ => ⟨(activeOpen_opening s ip port).inFlight, rfl⟩, fun hst => absurd rfl hst⟩

/-- a call that is still blocked waits for its own slot -/
theorem own_run {ip : UInt32} {port : UInt16} {tr : List (TcpEvent × TcpRes)} (hidle : s.calls t = none)
    (hslot : s.allocSlot = some i) (hrun : Run Tcp.step (Waits t i) (s.step (.connect t ip port)).2 tr s')
    (hblocked : s'.calls t ≠ none) :
    s'.localIp = s.localIp ∧ s'.calls t = some (.connect i s.ticks) ∧
      OwnSlot s ip port (tr.map Prod.fst) (s'.conns i) := by
  induction hrun with
  | nil => exact connect_starts hidle hslot ip port
  | @snoc u _ e _ hwaits ih =>
    obtain ⟨hip, hcall, hown⟩ := ih hwaits.1
    rw [List.map_append]
    have hnext := hown.step hip hwaits.2
    by_cases he : e = .resume t
    · -- the call looked and went on waiting
      subst he
      refine ⟨(resume_keepsCalls u t).localIp.trans hip, ?_, hnext⟩
      simp only [step, resume, hcall] at hblocked ⊢
      split_ifs at hblocked ⊢
      · exact absurd (Function.update_self _ _ _) hblocked
      · exact hcall
      · exact absurd (Function.update_self _ _ _) hblocked
      · exact absurd (Function.update_self _ _ _) hblocked
    · obtain ⟨hip', hcall'⟩ := step_calls hwaits.1 he
      exact ⟨hip'.trans hip, hcall'.trans hcall, hnext⟩

/-- **A returned handle is the connection the call opened.** A task calls `tcp_connect ip port` in state `s` and gets slot
`i`. If, while it waits, no event allocates that slot, and the hosts to send to are in the ARP cache, then a handle it
returns is `i`; the connection there is established, its identity is the peer asked for and the port this call picked, and the peer has acknowledged its SYN. -/
theorem connect_returns_own {h₀ h : NetHost} {t t₀ : ℕ} {i : Fin 4} {ip : UInt32} {port : UInt16}
    {tr : List (HostEvent × HostRes)} (hidle : h₀.Idle) (hres : h₀.Resolved (.tcp t₀ (.connect t ip port)))
    (hfree : h₀.tcp.calls t = none) (hslot : h₀.tcp.allocSlot = some i)
    (hrun : Run NetHost.step (Prompt (Waits t i)) (h₀.step (.tcp t₀ (.connect t ip port))).2 tr h) {r : ℤ}
    (hret : (h.tcp.step (.resume t)).1.ret = some r) (hr : 0 ≤ r) :
    r = i ∧ ((h.tcp.step (.resume t)).2.conns i).state = .established ∧
      ((h.tcp.step (.resume t)).2.conns i).key = (h₀.tcp.nextPort, ip, port) ∧
      SynAcked h₀.tcp ip port ((events tr).map Prod.fst) := by
  have hblocked : h.tcp.calls t ≠ none := by
    intro hnone
    simp [step, resume, hnone] at hret
  obtain ⟨-, htcp⟩ := prompt_run_after hidle hres hrun
  obtain ⟨-, hcall, hown⟩ := own_run hfree hslot htcp hblocked
  simp only [step, resume, hcall] at hret ⊢
  split_ifs at hret ⊢ with htime hsyn hest
  · have hneg : (-1 : ℤ) = r := Option.some.inj hret
    omega
  · exact ⟨(Option.some.inj hret).symm, hest, hown.key, hown.acked (by rw [hest]; decide) (by rw [hest]; decide)⟩
  · have hneg : (-1 : ℤ) = r := Option.some.inj hret
    omega

/-- the handshake with `hiPeer` -/
theorem connect_returns_own_hi :
    ∃ tr h, Run NetHost.step (Prompt (Waits 0 0)) (hiHost.step hiOpen).2 tr h ∧
      (h.tcp.step (.resume 0)).1.ret = some 0 ∧
      ((h.tcp.step (.resume 0)).2.conns 0).key = (49152, 0x0A000202, 80) := by
  have hrun : Run NetHost.step (Prompt (Waits 0 0)) _ [] (hiHost.step hiOpen).2 := .nil _
  have hrun := prompt_snoc hrun 0 (hiPacket hiSynAck hiSynAck_short) (by decide +kernel)
    ⟨Option.isSome_iff_ne_none.1 (by decide +kernel), fun ha => absurd ha.2 (by decide +kernel)⟩
  refine ⟨_, _, hrun, by decide +kernel, ?_⟩
  exact (connect_returns_own hiHost_idle (by decide +kernel) rfl (by decide +kernel) hrun (by decide +kernel) le_rfl).2.2.1

/-- a reset of the first connection, and the SYN-ACK to the second one, from port 81 -/
def resetFirst : Segment := ⟨80, 49152, 1000, 64001, flagRst, 0, []⟩
def synAckSecond : Segment := ⟨81, 49153, 1000, 128001, flagSyn ||| flagAck, 0, []⟩

/-- **A handle to somebody else's connection.** Task 0 connects to port 80 and is reset; before it looks, task 1 connects
to port 81, gets the slot and is established; task 0 returns handle 0, the connection of task 1. -/
theorem connect_returns_other :
    let t := runOps Tcp.step (Tcp.init 0x0A00020F)
      [.connect 0 0x0A000202 80, hiPacket resetFirst (by decide +kernel), .connect 1 0x0A000202 81,
        hiPacket synAckSecond (by decide +kernel)]
    (t.step (.resume 0)).1.ret = some 0 ∧ ((t.step (.resume 0)).2.conns 0).key = (49153, 0x0A000202, 81) := by
  decide +kernel

end GannetOS.Net
