/-
How a closed connection gets rid of its slot.

`tcp_close` sends a FIN and leaves the rest to `tcp_poll`, which repeats what is unacknowledged five times and then gives
up. The schedule is `rounds n m`: `m` calls of `tcp_poll`, the `k`-th after `n k` more ticks, with nothing in between;
all advances but the first exceed the retransmission timeout.

- `closed_torn_down`: in any state reached after `tcp_close`, six calls leave the slot CLOSED exactly if it already was, or
  something is unacknowledged and the timeout has passed early enough for the retransmissions that are left: at one of the
  first `retransmit_count + 1` calls;
- `fin_wait_2_never_torn_down`: with our FIN acknowledged nothing is, and no number of calls closes the slot.

The peers are in the ARP cache all the time (`NetHost.Resolved`). The clock has 32 bits: the time since the last
transmission is what `now - last_send_tick` leaves of it (`Overdue`).
-/
import GannetOS.Net.TcpAcks

namespace GannetOS.Net

open GannetOS.Core Tcp

/-! ## After `tcp_close` -/

/-- the states `tcp_close` leads to -/
def Closing (st : TcpState) : Prop := st = .finWait1 ∨ st = .finWait2 ∨ st = .lastAck ∨ st = .closed

theorem Closing.not_listen {st : TcpState} (h : Closing st) : st ≠ .listen := by
  rcases h with rfl | rfl | rfl | rfl <;> decide

theorem Closing.not_synSent {st : TcpState} (h : Closing st) : st ≠ .synSent := by
  rcases h with rfl | rfl | rfl | rfl <;> decide

/-- the slot is not given to another connection -/
def SameSlot (i : Fin 4) (s : Tcp) (e : TcpEvent) : Prop :=
  (s.conns i).state = .closed → ((s.step e).2.conns i).state = .closed

namespace Closing

variable {c : Conn}

theorem takeAck (h : Closing c.state) (seg : Segment) : Closing (c.takeAck seg).state := by
  rcases (Conn.takeAck_acked seg c).state with hsame | ⟨hst, -⟩ | ⟨-, hst | ⟨-, hst⟩⟩ | ⟨-, hst⟩
  · rwa [hsame]
  · rw [hst] at h
    exact absurd h (by unfold Closing; decide)
  · exact .inr (.inr (.inr hst))
  · exact .inr (.inl hst)
  · exact .inr (.inr (.inr hst))

theorem takeFin (h : Closing c.state) (seg : Segment) : Closing (c.takeFin seg).2.state := by
  unfold Conn.takeFin
  split_ifs
  · dsimp only
    rcases h with h | h | h | h <;> rw [h] <;> unfold Closing <;> decide
  · exact h

theorem handle (h : Closing c.state) (seg : Segment) : Closing (c.handle seg).2.state := by
  unfold Conn.handle
  dsimp only
  rw [if_neg h.not_synSent]
  split_ifs
  · exact .inr (.inr (.inr rfl))
  · exact h.takeAck seg
  · refine takeFin ?_ seg
    rw [(Conn.takeData_keeps seg _).1]
    exact h.takeAck seg

theorem poll (h : Closing c.state) (now : UInt32) : Closing (c.poll now).2.state := by
  unfold Conn.poll
  split_ifs
  · exact h
  · exact h
  · exact .inr (.inr (.inr rfl))
  · exact h
  · exact h

theorem close (h : Closing c.state) (now : UInt32) : Closing (c.close now).2.state := by
  unfold Conn.close
  dsimp only
  split
  · exact .inr (.inr (.inr rfl))
  · exact .inr (.inr (.inr rfl))
  · exact .inl rfl
  · exact .inr (.inr (.inl rfl))
  · exact h

theorem step {s : Tcp} {i : Fin 4} (h : Closing (s.conns i).state) {e : TcpEvent} (hslot : SameSlot i s e) :
    Closing ((s.step e).2.conns i).state := by
  have hmove := step_move s e i
  unfold SameSlot at hslot
  generalize (s.step e).2.conns i = d at hmove hslot ⊢
  generalize (s.step e).1.sentOn i = out at hmove
  generalize bytesOn i (e, (s.step e).1) = bytes at hmove
  cases hmove with
  | idle => exact h
  | listens _ hfree => exact absurd (hslot (allocSlot_closed hfree)) TcpState.noConfusion
  | accepted => exact h
  | opens _ hfree => exact absurd (hslot (allocSlot_closed hfree)) TcpState.noConfusion
  | timesOut => exact .inr (.inr (.inr rfl))
  | sends => exact h
  | sendsNext => exact h
  | receives => exact h
  | closes => exact h.close _
  | polls => exact h.poll _
  | handles => exact h.handle _
  | accepts _ _ _ _ hfree => exact absurd (hslot (allocSlot_closed hfree)) TcpState.noConfusion

end Closing

variable {s : Tcp} {i : Fin 4} {c : Conn} {n : ℕ → UInt32}

/-- `tcp_close` on an open connection -/
theorem close_closing {h : ℤ} (hslot : slot h = some i)
    (hopen : (s.conns i).state = .established ∨ (s.conns i).state = .closeWait) :
    Closing ((s.step (.close h)).2.conns i).state := by
  have hlive : s.getConn h = some i := by
    rcases hopen with hopen | hopen <;> simp [getConn, hslot, hopen]
  dsimp only [Tcp.step, Tcp.close]
  rw [hlive]
  dsimp only
  rw [setConn_self]
  unfold Conn.close
  dsimp only
  rcases hopen with hopen | hopen <;> rw [hopen]
  · exact .inl rfl
  · exact .inr (.inr (.inl rfl))

/-! ## The schedule -/

/-- `m` calls of `tcp_poll`, each after some ticks -/
def rounds (n : ℕ → UInt32) (m : ℕ) : List TcpEvent := (List.range m).flatMap fun k => [.tick (n k), .poll]

/-- the clock at call `k` -/
def clock (s : Tcp) (n : ℕ → UInt32) : ℕ → UInt32
  | 0 => s.ticks + n 0
  | k + 1 => clock s n k + n (k + 1)

theorem rounds_succ (n : ℕ → UInt32) (m : ℕ) : rounds n (m + 1) = rounds n m ++ [.tick (n m), .poll] := by
  rw [rounds, List.range_succ, List.flatMap_append, List.flatMap_singleton, rounds]

theorem rounds_run (s : Tcp) (n : ℕ → UInt32) (m : ℕ) :
    (runOps Tcp.step s (rounds n (m + 1))).ticks = clock s n m ∧
      ∀ i, (runOps Tcp.step s (rounds n (m + 1))).conns i =
        (((runOps Tcp.step s (rounds n m)).conns i).poll (clock s n m)).2 := by
  have hticks : (runOps Tcp.step s (rounds n (m + 1))).ticks = clock s n m := by
    induction m with
    | zero => rfl
    | succ m ih =>
      rw [rounds_succ, runOps_append]
      show (runOps Tcp.step s (rounds n (m + 1))).ticks + n (m + 1) = _
      rw [ih, clock]
  refine ⟨hticks, fun i => ?_⟩
  rw [rounds_succ, runOps_append] at hticks ⊢
  rw [← hticks]
  rfl

/-- the retransmission timeout has passed at call `k` -/
def Overdue (s : Tcp) (n : ℕ → UInt32) (c : Conn) (k : ℕ) : Prop := 200 < clock s n k - c.lastSendTick

/-- `c` after `m` calls, with something unacknowledged: nothing was due yet; or call `f` was the first one due, each call
since then was, and the connection is given up once its retransmissions are used up -/
inductive Polled (s : Tcp) (n : ℕ → UInt32) (c : Conn) (m : ℕ) : Conn → Prop
  | waits (h : ∀ k < m, ¬ Overdue s n c k) : Polled s n c m c
  | retries {f : ℕ} {d : Conn} (hf : f < m) (hdue : Overdue s n c f) (hfirst : ∀ k < f, ¬ Overdue s n c k)
    (hleft : c.retransmitCount.toNat + (m - f) ≤ 5) (hstate : d.state = c.state) (huna : d.sendUna = c.sendUna)
    (hnext : d.sendNext = c.sendNext) (htick : d.lastSendTick = clock s n (m - 1))
    (hcount : d.retransmitCount.toNat = c.retransmitCount.toNat + (m - f)) : Polled s n c m d
  | givenUp {f : ℕ} {d : Conn} (hf : f < m) (hdue : Overdue s n c f) (hfirst : ∀ k < f, ¬ Overdue s n c k)
    (hleft : 5 < c.retransmitCount.toNat + (m - f)) (hstate : d.state = .closed) : Polled s n c m d

/-- a call that finds the timeout passed -/
theorem Conn.poll_due {now : UInt32} (hlive : c.state ≠ .closed ∧ c.state ≠ .listen)
    (hsent : c.sendUna ≠ c.sendNext) (hdue : 200 < now - c.lastSendTick) :
    (c.poll now).2 = if 5 ≤ c.retransmitCount then { c with state := .closed }
      else { c with lastSendTick := now, retransmitCount := c.retransmitCount + 1 } := by
  unfold Conn.poll
  rw [if_neg (not_or.2 hlive), if_neg hsent, if_pos hdue]
  split_ifs <;> rfl

theorem Conn.poll_not_due {now : UInt32} (h : ¬ 200 < now - c.lastSendTick) : (c.poll now).2 = c := by
  unfold Conn.poll
  split_ifs <;> rfl

theorem Polled.step (hn : ∀ k, 200 < n (k + 1)) {d : Conn} (hlive : c.state ≠ .closed ∧ c.state ≠ .listen)
    (hsent : c.sendUna ≠ c.sendNext) {m : ℕ} (h : Polled s n c m d) :
    Polled s n c (m + 1) (d.poll (clock s n m)).2 := by
  -- a call that is due uses up one retransmission, or gives up
  have hdue_step {f : ℕ} {d : Conn} (hf : f < m + 1) (hdue : Overdue s n c f) (hfirst : ∀ k < f, ¬ Overdue s n c k)
      (hstate : d.state = c.state) (huna : d.sendUna = c.sendUna) (hnext : d.sendNext = c.sendNext)
      (hnow : 200 < clock s n m - d.lastSendTick)
      (hcount : d.retransmitCount.toNat = c.retransmitCount.toNat + (m - f)) :
      Polled s n c (m + 1) (d.poll (clock s n m)).2 := by
    rw [Conn.poll_due (by rwa [hstate]) (by rwa [huna, hnext]) hnow]
    split_ifs with hmany
    · rw [UInt8.le_iff_toNat_le, hcount] at hmany
      exact .givenUp hf hdue hfirst (by change 5 ≤ _ at hmany; omega) rfl
    · rw [UInt8.le_iff_toNat_le, hcount] at hmany
      change ¬ 5 ≤ _ at hmany
      refine .retries hf hdue hfirst (by omega) hstate huna hnext rfl ?_
      show (d.retransmitCount + 1).toNat = _
      rw [UInt8.toNat_add, hcount]
      change (_ + 1) % 2 ^ 8 = _
      omega
  cases h with
  | waits h =>
    by_cases hdue : Overdue s n c m
    · exact hdue_step m.lt_succ_self hdue h rfl rfl rfl hdue (by omega)
    · rw [Conn.poll_not_due hdue]
      exact .waits fun k hk => (Nat.lt_succ_iff_lt_or_eq.1 hk).elim (h k) fun he => he ▸ hdue
  | retries hf hdue hfirst hleft hstate huna hnext htick hcount =>
    obtain ⟨m, rfl⟩ : ∃ k, m = k + 1 := ⟨m - 1, by omega⟩
    refine hdue_step (by omega) hdue hfirst hstate huna hnext ?_ hcount
    rw [htick, clock, Nat.add_sub_cancel, add_sub_cancel_left]
    exact hn m
  | givenUp hf hdue hfirst hleft hstate =>
    rw [Conn.poll, if_pos (.inl hstate)]
    exact .givenUp (by omega) hdue hfirst (by omega) hstate

theorem Polled.run (hn : ∀ k, 200 < n (k + 1)) (hlive : (s.conns i).state ≠ .closed ∧ (s.conns i).state ≠ .listen)
    (hsent : (s.conns i).sendUna ≠ (s.conns i).sendNext) (m : ℕ) :
    Polled s n (s.conns i) m ((runOps Tcp.step s (rounds n m)).conns i) := by
  induction m with
  | zero => exact .waits fun k hk => absurd hk k.not_lt_zero
  | succ m ih =>
    rw [(rounds_run s n m).2 i]
    exact ih.step hn hlive hsent

/-- the connection is given up exactly if one of the calls was due early enough -/
theorem Polled.closed_iff {d : Conn} (hlive : c.state ≠ .closed) (h : Polled s n c 6 d) :
    d.state = .closed ↔ ∃ k < 6, k ≤ c.retransmitCount.toNat ∧ Overdue s n c k := by
  cases h with
  | waits h => exact ⟨fun hc => absurd hc hlive, fun ⟨k, hk, _, hdue⟩ => absurd hdue (h k hk)⟩
  | @retries f d hf hdue hfirst hleft hstate =>
    refine ⟨fun hc => absurd (hstate.symm.trans hc) hlive, fun ⟨k, hk, hcount, hdue'⟩ => ?_⟩
    have hfk : f ≤ k := not_lt.1 fun hlt => hfirst k hlt hdue'
    omega
  | @givenUp f d hf hdue hfirst hleft hstate => exact ⟨fun _ => ⟨f, hf, by omega, hdue⟩, fun _ => hstate⟩

/-- with nothing unacknowledged, `tcp_poll` does nothing, however often it is called -/
theorem rounds_acked (hsent : (s.conns i).sendUna = (s.conns i).sendNext) (n : ℕ → UInt32) (m : ℕ) :
    (runOps Tcp.step s (rounds n m)).conns i = s.conns i := by
  induction m with
  | zero => rfl
  | succ m ih =>
    rw [(rounds_run s n m).2 i, ih, Conn.poll, if_pos hsent]
    split_ifs <;> rfl

theorem rounds_closed (hclosed : (s.conns i).state = .closed) (n : ℕ → UInt32) (m : ℕ) :
    (runOps Tcp.step s (rounds n m)).conns i = s.conns i := by
  induction m with
  | zero => rfl
  | succ m ih => rw [(rounds_run s n m).2 i, ih, Conn.poll, if_pos (.inl hclosed)]

open NetHost (Prompt prompt_run_after next_resolved runOps_resolved)

/-- **A closed connection is torn down**, if anything is left to be acknowledged. In every state reached after `tcp_close`
with the slot not given to another connection and the hosts to send to in the ARP cache, six calls of `tcp_poll` on the
schedule leave it CLOSED exactly if it already was, or something is unacknowledged and the timeout has passed at one of the
first `retransmit_count + 1` calls. -/
theorem closed_torn_down {h₀ h : NetHost} {t : ℕ} {x : ℤ} {i : Fin 4} (hidle : h₀.Idle)
    (hres : h₀.Resolved (.tcp t (.close x))) (hslot : slot x = some i)
    (hopen : (h₀.tcp.conns i).state = .established ∨ (h₀.tcp.conns i).state = .closeWait)
    {tr : List (HostEvent × HostRes)}
    (hrun : Run NetHost.step (Prompt (SameSlot i)) (h₀.step (.tcp t (.close x))).2 tr h) (n : ℕ → UInt32)
    (hn : ∀ k, 200 < n (k + 1)) (hpolls : AllOk NetHost.step NetHost.Resolved h ((rounds n 6).map (.tcp t))) :
    ((runOps NetHost.step h ((rounds n 6).map (.tcp t))).tcp.conns i).state = .closed ↔
      (h.tcp.conns i).state = .closed ∨ (h.tcp.conns i).sendUna ≠ (h.tcp.conns i).sendNext ∧
        ∃ k < 6, k ≤ (h.tcp.conns i).retransmitCount.toNat ∧ Overdue h.tcp n (h.tcp.conns i) k := by
  obtain ⟨hidle', htcp⟩ := prompt_run_after hidle hres hrun
  rw [runOps_resolved hidle' hpolls]
  have hstep (s : Tcp) (e : TcpEvent) (hs : Closing (s.conns i).state) (hok : SameSlot i s e) :
      Closing ((s.step e).2.conns i).state := hs.step hok
  have hclosing := htcp.invariant hstep (close_closing hslot hopen)
  by_cases hclosed : (h.tcp.conns i).state = .closed
  · rw [rounds_closed hclosed]
    simp [hclosed]
  by_cases hsent : (h.tcp.conns i).sendUna = (h.tcp.conns i).sendNext
  · rw [rounds_acked hsent]
    simp [hclosed, hsent]
  · rw [(Polled.run hn ⟨hclosed, hclosing.not_listen⟩ hsent 6).closed_iff hclosed]
    simp [hclosed, hsent]

/-- the peer is gone when we close: five retransmissions of the FIN, 201 ticks apart, and the slot is free -/
theorem closed_torn_down_unreachable :
    let h₀ := runOps NetHost.step hiHost [hiOpen, .tcp 0 (hiPacket hiSynAck hiSynAck_short)]
    let h := (h₀.step (.tcp 0 (.close 0))).2
    (h₀.tcp.conns 0).state = .established ∧
      ((runOps NetHost.step h ((rounds (fun _ => 201) 6).map (.tcp 0))).tcp.conns 0).state = .closed := by
  intro h₀ h
  have hest : (h₀.tcp.conns 0).state = .established := by decide +kernel
  have hsent : (h.tcp.conns 0).sendUna ≠ (h.tcp.conns 0).sendNext := by decide +kernel
  have hdue : Overdue h.tcp (fun _ => 201) (h.tcp.conns 0) 0 := by
    unfold Overdue
    decide +kernel
  have hpolls : AllOk NetHost.step NetHost.Resolved h ((rounds (fun _ => 201) 6).map (.tcp 0)) := by decide +kernel
  have hres : h₀.Resolved (.tcp 0 (.close 0)) := by decide +kernel
  have hidle : h₀.Idle := by
    have hidle₁ : (hiHost.step hiOpen).2.Idle := (next_resolved hiHost_idle (by decide +kernel)).1
    exact (next_resolved hidle₁ (by decide +kernel)).1
  have hrun : Run NetHost.step (Prompt (SameSlot 0)) h [] h := .nil _
  have htorn := closed_torn_down hidle hres rfl (.inl hest) hrun (fun _ => 201) (fun _ => by decide) hpolls
  exact ⟨hest, htorn.2 (.inr ⟨hsent, 0, by decide, Nat.zero_le _, hdue⟩)⟩

/-- **FIN_WAIT_2 has no timeout.** The peer acknowledges our FIN and is never heard of again: no schedule of `tcp_poll` gives
the slot back. -/
theorem fin_wait_2_never_torn_down :
    let s₀ := runOps Tcp.step (Tcp.init 0x0A00020F)
      [.connect 0 0x0A000202 80, hiPacket hiSynAck hiSynAck_short]
    let s := runOps Tcp.step (s₀.step (.close 0)).2
      [hiPacket ⟨80, 49152, 1001, 64002, flagAck, 0, []⟩ (by decide +kernel)]
    (s₀.conns 0).state = .established ∧
      ∀ n m, ((runOps Tcp.step s (rounds n m)).conns 0).state = .finWait2 := by
  intro s₀ s
  have hacked : (s.conns 0).sendUna = (s.conns 0).sendNext := by decide +kernel
  have hwait : (s.conns 0).state = .finWait2 := by decide +kernel
  refine ⟨by decide +kernel, ?_⟩
  clear_value s
  intro n m
  rw [rounds_acked hacked, hwait]

end GannetOS.Net
