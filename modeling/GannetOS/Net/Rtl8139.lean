/-
The receive ring of `kernel/drivers/rtl8139/rtl8139.c`, together with the card that fills it.

Model: `mem` is memory from `rx_buffer` on: the ring, which is its first 8192 bytes, and the headroom. The card stores a
packet (4-byte header, frame, frame check sequence) at its write offset in one piece, into the headroom if it must
(`RCR_WRAP`), and moves the offset to the next multiple of four, modulo 8192. `rtl8139Receive` is the driver: it parses the packet at its own read offset and moves that
offset on by the same rule, but modulo `RX_BUF_SIZE`, which is 9708. `CMD_BUFE` is clear while a packet is unread.

Results:
- `frames_in_order`: as long as the write offset has not come round, card and driver are a queue of frames;
- `wrap_loses_frame`: a run with seven packets of full size, each read before the next one arrives. The seventh call
  finds a packet in the ring and returns nothing.

Premise: the card is as its documentation says; a packet has its check sequence and at most 1518 bytes. Offsets stay far
below 2^32, so they are natural numbers. The status word of the header is not looked at by the driver.
-/
import GannetOS.Core.Run

namespace GannetOS.Net.Rtl8139

open GannetOS.Core List

/-- where the card wraps -/
def ringSize : ℕ := 8192

/-- `RX_BUF_SIZE`: the ring and its headroom -/
def rxBufSize : ℕ := 8192 + 16 + 1500

/-- `RTL8139_MAX_FRAME` -/
def maxFrame : ℕ := 1792

/-- the offset behind a packet of `length` bytes that starts at `a`: `(a + 4 + length + 3) & ~3` -/
def nextOffset (a length : ℕ) : ℕ := (a + 4 + length + 3) / 4 * 4

/-! ## The card -/

/-- what arrives on the wire: the frame and its check sequence -/
structure Packet where
  status : UInt16
  data : List UInt8
  hasFcs : 4 ≤ data.length
  bounded : data.length ≤ 1518

namespace Packet

/-- the frame without its check sequence -/
def frame (p : Packet) : List UInt8 := p.data.take (p.data.length - 4)

/-- what the card writes: status and length, little-endian, then the data -/
def bytes (p : Packet) : List UInt8 :=
  [UInt8.ofNat p.status.toNat, UInt8.ofNat (p.status.toNat / 256), UInt8.ofNat p.data.length,
    UInt8.ofNat (p.data.length / 256)] ++ p.data

theorem bytes_length (p : Packet) : p.bytes.length = 4 + p.data.length := by
  simp [bytes]
  omega

end Packet

/-- card and driver -/
structure Nic where
  /-- memory from `rx_buffer` on -/
  mem : ℕ → UInt8
  /-- the card's write offset -/
  write : ℕ
  /-- the write offset has come round -/
  wrapped : Bool
  /-- unread packets with the offset each is stored at, oldest first -/
  unread : List (ℕ × Packet)
  initialized : Bool
  rxReadOffset : ℕ
  capr : ℕ

/-- the state `rtl8139_init` leaves, with `rx_buffer` cleared -/
def rtl8139Init : Nic := ⟨fun _ => 0, 0, false, [], true, 0, 0⟩

/-- store bytes from address `a` on -/
def store (mem : ℕ → UInt8) (a : ℕ) (l : List UInt8) : ℕ → UInt8 :=
  fun i => if a ≤ i ∧ i < a + l.length then l.getD (i - a) 0 else mem i

/-- the card receives a packet -/
def deliver (s : Nic) (p : Packet) : Nic :=
  let next := nextOffset s.write p.data.length
  { s with
    mem := store s.mem s.write p.bytes
    write := next % ringSize
    wrapped := s.wrapped || decide (ringSize ≤ next)
    unread := s.unread ++ [(s.write, p)] }

/-- the packet does not touch one that is still unread -/
def Clear (s : Nic) (p : Packet) : Prop :=
  ∀ u ∈ s.unread, s.write + p.bytes.length ≤ u.1 ∨ u.1 + u.2.bytes.length ≤ s.write

/-! ## The driver -/

/-- `rtl8139_receive`: the value it returns and the bytes it stores into `buf` -/
def rtl8139Receive (s : Nic) : (ℕ × List UInt8) × Nic :=
  if !s.initialized then ((0, []), s)
  -- `CMD_BUFE`
  else if s.unread.isEmpty then ((0, []), s)
  else
    let length := (s.mem (s.rxReadOffset + 2)).toNat + 256 * (s.mem (s.rxReadOffset + 3)).toNat
    let frameLen := if 4 ≤ length then length - 4 else 0
    let dataStart := s.rxReadOffset + 4
    let buf := (List.range (min frameLen maxFrame)).map fun i => s.mem ((dataStart + i) % rxBufSize)
    let offset := nextOffset s.rxReadOffset length % rxBufSize
    -- writing `CAPR` tells the card that the oldest packet is read
    ((frameLen, buf), { s with rxReadOffset := offset, capr := (offset + 65536 - 16) % 65536, unread := s.unread.tail })

/-! ## Runs -/

inductive Op where
  | deliver (p : Packet)
  | receive

/-- one step; `none` is the result of a delivery -/
def step (s : Nic) : Op → Option (ℕ × List UInt8) × Nic
  | .deliver p => (none, deliver s p)
  | .receive => ((some (rtl8139Receive s).1), (rtl8139Receive s).2)

/-- nothing arrives once the write offset has come round -/
def beforeWrap (s : Nic) : Op → Prop
  | .deliver _ => s.wrapped = false
  | .receive => True

/-- what the ring is for: a queue that hands out the frames in order -/
def fifo : List Packet → Op → Option (ℕ × List UInt8) × List Packet
  | q, .deliver p => (none, q ++ [p])
  | [], .receive => (some (0, []), [])
  | p :: q, .receive => (some (p.frame.length, p.frame), q)

/-! ## Packets in memory -/

/-- memory holds the bytes of `p` from `a` on -/
def Holds (mem : ℕ → UInt8) (a : ℕ) (p : Packet) : Prop := ∀ i < p.bytes.length, mem (a + i) = p.bytes.getD i 0

/-- the packets lie one after the other, from `a` to `e`, and every one of them starts inside the ring -/
def Laid (mem : ℕ → UInt8) : ℕ → List Packet → ℕ → Prop
  | a, [], e => a = e
  | a, p :: ps, e => (a < ringSize ∧ 4 ∣ a) ∧ Holds mem a p ∧ Laid mem (nextOffset a p.data.length) ps e

theorem dvd_nextOffset (a length : ℕ) : 4 ∣ nextOffset a length := Dvd.intro_left _ rfl

theorem le_nextOffset (a length : ℕ) : a + 4 + length ≤ nextOffset a length := by
  unfold nextOffset
  omega

theorem holds_store (mem : ℕ → UInt8) (a : ℕ) (p : Packet) : Holds (store mem a p.bytes) a p := by
  intro i hi
  have hin : a ≤ a + i ∧ a + i < a + p.bytes.length := by omega
  rw [store, if_pos hin, Nat.add_sub_cancel_left]

/-- a packet that ends at or before `b` is not changed by a store from `b` on -/
theorem Holds.store {mem : ℕ → UInt8} {a b : ℕ} {p : Packet} (h : Holds mem a p) (hb : a + p.bytes.length ≤ b)
    (l : List UInt8) : Holds (store mem b l) a p := by
  intro i hi
  rw [Rtl8139.store, if_neg (by omega)]
  exact h i hi

variable {mem : ℕ → UInt8} {a : ℕ} {s : Nic}

theorem Laid.le {e : ℕ} {ps : List Packet} (h : Laid mem a ps e) : a ≤ e := by
  induction ps generalizing a with
  | nil => exact Nat.le_of_eq h
  | cons p ps ih =>
    have hrest := ih h.2.2
    have := le_nextOffset a p.data.length
    omega

/-- a packet stored at the end extends the row -/
theorem Laid.snoc {e : ℕ} {ps : List Packet} (h : Laid mem a ps e) (he : e < ringSize ∧ 4 ∣ e) (p : Packet) :
    Laid (store mem e p.bytes) a (ps ++ [p]) (nextOffset e p.data.length) := by
  induction ps generalizing a with
  | nil =>
    obtain rfl : a = e := h
    exact ⟨he, holds_store mem a p, rfl⟩
  | cons q ps ih =>
    obtain ⟨hstart, hq, hrest⟩ := h
    have hend : a + q.bytes.length ≤ e := by
      have := le_nextOffset a q.data.length
      have := hrest.le
      rw [q.bytes_length]
      omega
    exact ⟨hstart, hq.store hend _, ih hrest⟩

theorem Holds.length {p : Packet} (h : Holds mem a p) :
    (mem (a + 2)).toNat + 256 * (mem (a + 3)).toNat = p.data.length := by
  have hlen := p.bytes_length
  rw [h 2 (by omega), h 3 (by omega)]
  have hmax := p.bounded
  have hlo : (UInt8.ofNat p.data.length).toNat = p.data.length % 256 := rfl
  have hhi : (UInt8.ofNat (p.data.length / 256)).toNat = p.data.length / 256 % 256 := rfl
  simp only [Packet.bytes, cons_append, getD_cons_succ, getD_cons_zero, hlo, hhi]
  omega

/-- the bytes behind the header are the frame; a packet that starts in the ring ends within the headroom -/
theorem Holds.frame {p : Packet} (h : Holds mem a p) (ha : a < ringSize ∧ 4 ∣ a) :
    ((List.range (min (p.data.length - 4) maxFrame)).map fun i => mem ((a + 4 + i) % rxBufSize)) = p.frame := by
  have hmax := p.bounded
  have hmin : min (p.data.length - 4) maxFrame = p.data.length - 4 := by
    unfold maxFrame
    omega
  rw [hmin]
  apply ext_getElem
  · simp [Packet.frame]
  · intro i hi hi'
    rw [length_map, length_range] at hi
    have hsmall : a + 4 + i < rxBufSize := by
      unfold ringSize at ha
      unfold rxBufSize
      omega
    have hbyte := h (4 + i) (by rw [p.bytes_length]; omega)
    rw [← add_assoc] at hbyte
    simp only [getElem_map, getElem_range, Nat.mod_eq_of_lt hsmall, hbyte, Packet.bytes, Packet.frame,
      getElem_take]
    rw [Nat.add_comm 4 i]
    simp only [cons_append, nil_append, getD_cons_succ]
    exact getD_eq_getElem _ _ (by omega)

/-! ## Card and driver are a queue -/

/-- the read offset is where the oldest unread packet starts, and until the card wraps the last one ends at its write
offset -/
structure InStep (s : Nic) : Prop where
  initialized : s.initialized = true
  aligned : s.write < ringSize ∧ 4 ∣ s.write
  laid : s.unread ≠ [] ∨ s.wrapped = false → ∃ e, Laid s.mem s.rxReadOffset (s.unread.map Prod.snd) e ∧
    (s.wrapped = false → e = s.write)

theorem inStep_init : InStep rtl8139Init :=
  ⟨rfl, by decide, fun _ => ⟨0, rfl, fun _ => rfl⟩⟩

theorem InStep.deliver {s : Nic} (h : InStep s) (hw : s.wrapped = false) (p : Packet) : InStep (deliver s p) := by
  obtain ⟨e, hlaid, he⟩ := h.laid (.inr hw)
  obtain rfl := he hw
  refine ⟨h.initialized, ⟨Nat.mod_lt _ (by decide), ?_⟩,
    fun _ => ⟨nextOffset s.write p.data.length, ?_, fun hnext => ?_⟩⟩
  · exact (Nat.dvd_mod_iff (by decide)).2 (dvd_nextOffset _ _)
  · show Laid _ _ ((s.unread ++ [(s.write, p)]).map Prod.snd) _
    rw [map_append]
    exact hlaid.snoc h.aligned p
  · have hlt : nextOffset s.write p.data.length < ringSize := by
      simpa [Rtl8139.deliver, hw] using hnext
    exact (Nat.mod_eq_of_lt hlt).symm

/-- what a call finds at the read offset -/
theorem rtl8139Receive_holds {u : ℕ × Packet} {us : List (ℕ × Packet)} (hi : s.initialized = true)
    (hu : s.unread = u :: us) (ha : s.rxReadOffset < ringSize ∧ 4 ∣ s.rxReadOffset)
    (hp : Holds s.mem s.rxReadOffset u.2) :
    (rtl8139Receive s).1 = (u.2.frame.length, u.2.frame) ∧
      (rtl8139Receive s).2.rxReadOffset = nextOffset s.rxReadOffset u.2.data.length % rxBufSize := by
  have hfcs := u.2.hasFcs
  have hframe : u.2.frame.length = u.2.data.length - 4 := by
    rw [Packet.frame, length_take]
    omega
  simp only [rtl8139Receive, hi, hu, hp.length, if_pos hfcs, hp.frame ha, hframe]
  exact ⟨rfl, rfl⟩

/-- what a call leaves alone -/
theorem rtl8139Receive_frame (s : Nic) (hi : s.initialized = true) :
    (rtl8139Receive s).2.mem = s.mem ∧ (rtl8139Receive s).2.write = s.write ∧
      (rtl8139Receive s).2.wrapped = s.wrapped ∧ (rtl8139Receive s).2.initialized = true ∧
      (rtl8139Receive s).2.unread = s.unread.tail := by
  cases hu : s.unread with
  | nil => simp [rtl8139Receive, hi, hu]
  | cons u us => simp [rtl8139Receive, hi, hu]

theorem InStep.receive (h : InStep s) : InStep (rtl8139Receive s).2 := by
  obtain ⟨hmem, hwrite, hwrapped, hinit, hunread⟩ := rtl8139Receive_frame s h.initialized
  refine ⟨hinit, hwrite ▸ h.aligned, fun hcase => ?_⟩
  rw [hmem, hwrite, hwrapped, hunread]
  rw [hunread, hwrapped] at hcase
  cases hu : s.unread with
  | nil =>
    have hw : s.wrapped = false := by simpa [hu] using hcase
    have hsame : (rtl8139Receive s).2 = s := by simp [rtl8139Receive, hu]
    rw [hsame]
    have hlaid := h.laid (.inr hw)
    rwa [hu] at hlaid
  | cons u us =>
    obtain ⟨e, hlaid, he⟩ := h.laid (.inl (by simp [hu]))
    rw [hu] at hlaid hcase
    obtain ⟨hstart, hholds, hrest⟩ := hlaid
    -- the next packet, or the write offset, is inside the ring, where the driver's modulus changes nothing
    have hnext : nextOffset s.rxReadOffset u.2.data.length < ringSize := by
      cases us with
      | cons v vs => exact hrest.1.1
      | nil =>
        have hw : s.wrapped = false := by simpa using hcase
        rw [show nextOffset s.rxReadOffset u.2.data.length = e from hrest, he hw]
        exact h.aligned.1
    have hmod : nextOffset s.rxReadOffset u.2.data.length % rxBufSize = nextOffset s.rxReadOffset u.2.data.length :=
      Nat.mod_eq_of_lt (hnext.trans (by decide))
    rw [(rtl8139Receive_holds h.initialized hu hstart hholds).2, hmod]
    exact ⟨e, hrest, he⟩

theorem step_inStep (s : Nic) (o : Op) (h : InStep s) (ho : beforeWrap s o) : InStep (step s o).2 := by
  cases o with
  | deliver p => exact h.deliver ho p
  | receive => exact h.receive

/-- one step of card and driver is a step of the queue -/
theorem step_fifo (s : Nic) (o : Op) (h : InStep s) :
    ((step s o).1, (step s o).2.unread.map Prod.snd) = fifo (s.unread.map Prod.snd) o := by
  cases o with
  | deliver p =>
    show (none, (s.unread ++ [(s.write, p)]).map Prod.snd) = _
    rw [map_append]
    rfl
  | receive =>
    show (some (rtl8139Receive s).1, (rtl8139Receive s).2.unread.map Prod.snd) = _
    rw [(rtl8139Receive_frame s h.initialized).2.2.2.2]
    cases hu : s.unread with
    | nil => simp [rtl8139Receive, hu, fifo]
    | cons u us =>
      obtain ⟨e, hlaid, -⟩ := h.laid (.inl (by simp [hu]))
      rw [hu] at hlaid
      rw [(rtl8139Receive_holds h.initialized hu hlaid.1 hlaid.2.1).1]
      rfl

/-- **Card and driver are a queue until the ring wraps.** In every run in which nothing arrives after the write offset has
come round, each call returns the oldest frame that was not returned yet, without its check sequence, and nothing when
there is none. -/
theorem frames_in_order {tr : List (Op × Option (ℕ × List UInt8))} {t : Nic}
    (h : Run step beforeWrap rtl8139Init tr t) :
    ARun (fun q o r q' => (r, q') = fifo q o) [] tr (t.unread.map Prod.snd) :=
  h.refines (α := fun s => s.unread.map Prod.snd) step_inStep (fun s o hs _ => step_fifo s o hs) inStep_init

/-- a packet of `n` bytes `x`, its check sequence included -/
def filled (n : ℕ) (hasFcs : 4 ≤ n) (bounded : n ≤ 1518) : Packet :=
  ⟨1, List.replicate n 120, by rwa [List.length_replicate], by rwa [List.length_replicate]⟩

/-- a frame of two bytes and one of three -/
theorem frames_in_order_two :
    ARun (fun q o r q' => (r, q') = fifo q o) []
      [(.deliver (filled 6 (by decide) (by decide)), none), (.deliver (filled 7 (by decide) (by decide)), none),
        (.receive, some (2, [120, 120])), (.receive, some (3, [120, 120, 120])), (.receive, some (0, []))] [] := by
  have h₀ : Run step beforeWrap rtl8139Init [] rtl8139Init := .nil _
  have h₁ := h₀.snoc (.deliver (filled 6 (by decide) (by decide))) (by exact rfl)
  have h₂ := h₁.snoc (.deliver (filled 7 (by decide) (by decide))) (by exact rfl)
  have h₃ := h₂.snoc .receive (by trivial)
  have h₄ := h₃.snoc .receive (by trivial)
  exact frames_in_order (h₄.snoc .receive (by trivial))

/-! ## The wrap -/

/-- a packet of full size -/
def full : Packet := filled 1518 (by decide) (by decide)

theorem full_length : full.data.length = 1518 := length_replicate

theorem full_frame : full.frame = List.replicate 1514 120 := by
  rw [Packet.frame, full_length]
  exact take_replicate

/-- full packets, each read as soon as it has arrived -/
def rounds (n : ℕ) : List Op := (List.replicate n [.deliver full, .receive]).flatten

theorem runOps_rounds_succ (s : Nic) (n : ℕ) :
    runOps step s (rounds (n + 1)) = (rtl8139Receive (deliver (runOps step s (rounds n)) full)).2 := by
  simp only [rounds, replicate_succ', flatten_append, runOps, foldl_append]
  rfl

/-- everything is read, the card has not wrapped and is at `a`, and nothing was ever stored at 9142 or above -/
structure Quiet (s : Nic) (a : ℕ) : Prop where
  inStep : InStep s
  wrapped : s.wrapped = false
  unread : s.unread = []
  write : s.write = a
  clean : ∀ i, 9142 ≤ i → s.mem i = 0

/-- one more packet: where it leaves the two offsets and the memory behind the packet -/
theorem Quiet.round (h : Quiet s a) (ha : a + 1522 ≤ 9142) :
    InStep (rtl8139Receive (deliver s full)).2 ∧ (rtl8139Receive (deliver s full)).2.unread = [] ∧
      (rtl8139Receive (deliver s full)).2.rxReadOffset = nextOffset a 1518 % rxBufSize ∧
      (rtl8139Receive (deliver s full)).2.write = nextOffset a 1518 % ringSize ∧
      ∀ i, 9142 ≤ i → (rtl8139Receive (deliver s full)).2.mem i = 0 := by
  have hstep := h.inStep.deliver h.wrapped full
  obtain ⟨hmem, hwrite, -, -, hunread⟩ := rtl8139Receive_frame _ hstep.initialized
  have hone : (deliver s full).unread = [(s.write, full)] := by simp [deliver, h.unread]
  obtain ⟨e, hlaid, -⟩ := hstep.laid (.inl (by simp [hone]))
  rw [hone] at hlaid
  have hoffset : (deliver s full).rxReadOffset = a := by
    obtain ⟨e, hlaid, he⟩ := h.inStep.laid (.inr h.wrapped)
    rw [h.unread] at hlaid
    exact (Eq.trans hlaid (he h.wrapped)).trans h.write
  refine ⟨hstep.receive, by rw [hunread, hone]; rfl, ?_, ?_, fun i hi => ?_⟩
  · rw [(rtl8139Receive_holds hstep.initialized hone hlaid.1 hlaid.2.1).2, hoffset, full_length]
  · rw [hwrite, ← h.write, ← full_length]
    rfl
  · rw [hmem]
    show store s.mem s.write full.bytes i = 0
    rw [store, if_neg (by rw [h.write, full.bytes_length, full_length]; omega)]
    exact h.clean i hi

theorem quiet_rounds (n : ℕ) (hn : n ≤ 5) : Quiet (runOps step rtl8139Init (rounds n)) (1524 * n) := by
  induction n with
  | zero => exact ⟨inStep_init, rfl, rfl, rfl, fun _ _ => rfl⟩
  | succ n ih =>
    have h := ih (by omega)
    obtain ⟨hstep, hunread, -, hwrite, hclean⟩ := h.round (by omega)
    have hnext : nextOffset (1524 * n) 1518 = 1524 * (n + 1) := by
      unfold nextOffset
      omega
    have hlt : 1524 * (n + 1) < ringSize := by
      unfold ringSize
      omega
    rw [runOps_rounds_succ]
    refine ⟨hstep, ?_, hunread, ?_, hclean⟩
    · rw [(rtl8139Receive_frame _ (h.inStep.deliver h.wrapped full).initialized).2.2.1]
      simp [deliver, h.wrapped, h.write, full_length, hnext, hlt]
    · rw [hwrite, hnext, Nat.mod_eq_of_lt hlt]

/-- the ring is empty whenever one of the packets arrives -/
theorem clear_rounds (n : ℕ) (s : Nic) (hi : s.initialized = true) (hu : s.unread = []) :
    AllOk step (fun s o => ∀ p, o = .deliver p → Clear s p) s (rounds n) := by
  induction n generalizing s with
  | zero => exact trivial
  | succ n ih =>
    have hd : (deliver s full).initialized = true := hi
    obtain ⟨-, -, -, hinit, hunread⟩ := rtl8139Receive_frame _ hd
    refine ⟨fun p _ u hmem => ?_, fun p hp => Op.noConfusion hp, ih _ hinit ?_⟩
    · rw [hu] at hmem
      cases hmem
    · show (rtl8139Receive (deliver s full)).2.unread = []
      rw [hunread]
      simp [deliver, hu]

/-- a packet stored at 952 while the driver looks at 9144, where nothing was ever stored -/
theorem receive_astray (hi : s.initialized = true) (hu : s.unread = []) (hw : s.write = 952)
    (ho : s.rxReadOffset = 9144) (hclean : ∀ i, 9142 ≤ i → s.mem i = 0) :
    (deliver s full).unread = [(952, full)] ∧ (rtl8139Receive (deliver s full)).1 = (0, []) := by
  have hlist : (deliver s full).unread = [(952, full)] := by simp [deliver, hu, hw]
  have hbyte : ∀ i, 9142 ≤ i → (deliver s full).mem i = 0 := by
    intro i hi
    show store s.mem s.write full.bytes i = 0
    rw [store, if_neg (by rw [hw, full.bytes_length, full_length]; omega)]
    exact hclean i hi
  have hinit : (deliver s full).initialized = true := hi
  have hat : (deliver s full).rxReadOffset = 9144 := ho
  refine ⟨hlist, ?_⟩
  simp [rtl8139Receive, hinit, hlist, hat, hbyte]

/-- **A frame is lost at the wrap.** Seven full packets arrive, each of them after the one before it was read. For the
seventh the call finds the ring not empty, looks at 9144 where the card has gone on at 952, and returns nothing. -/
theorem wrap_loses_frame :
    AllOk step (fun s o => ∀ p, o = .deliver p → Clear s p) rtl8139Init (rounds 7) ∧ full.frame.length = 1514 ∧
      (deliver (runOps step rtl8139Init (rounds 6)) full).unread = [(952, full)] ∧
      (rtl8139Receive (deliver (runOps step rtl8139Init (rounds 6)) full)).1 = (0, []) := by
  obtain ⟨hstep, hunread, hoffset, hwrite, hclean⟩ := (quiet_rounds 5 le_rfl).round (by omega)
  rw [← runOps_rounds_succ] at hstep hunread hoffset hwrite hclean
  refine ⟨clear_rounds 7 _ rfl rfl, by rw [full_frame, length_replicate], ?_⟩
  exact receive_astray hstep.initialized hunread (hwrite.trans (by decide)) (hoffset.trans (by decide)) hclean

end GannetOS.Net.Rtl8139
