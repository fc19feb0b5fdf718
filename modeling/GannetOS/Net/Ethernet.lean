/-
Frames between the card and the handlers: `kernel/drivers/net/link_layer/ethernet.c` over `rtl8139_receive`.

`rtl8139_receive` copies at most 1792 bytes into `rx_scratch` and returns the length that the packet header in
`rx_buffer` gives; `ethernet_poll` takes that value as the length of the frame. `rxScratch` is memory from `rx_scratch` on,
so that a handler's body is what it reads, inside `rx_scratch` or not. What `rx_buffer` holds, ring and headroom, is
arbitrary: after the read offset has left the packets (`Rtl8139.wrap_loses_frame`) the header is any four bytes of an
earlier frame.

- `received_within_iff`: the length returned, the bytes written and the body handed on stay within `rx_scratch` if and only
  if the header's length field is at most 1796; the read offset stays in `rx_buffer` and aligned in any case.
- `long_header_overruns`: a header of length 1804 makes the IPv4 handler read 8 bytes behind `rx_scratch`.
-/
import GannetOS.Net.Rtl8139
import GannetOS.Net.Wire

namespace GannetOS.Net.Ethernet

open GannetOS.Net.Rtl8139

def ethHdrLen : ℕ := 14

inductive Handler
  | arp
  | ipv4
deriving DecidableEq

/-- the switch of `ethernet_poll`: `ETH_TYPE_ARP`, `ETH_TYPE_IPV4` -/
def handlerOf (ethertype : UInt16) : Option Handler :=
  if ethertype = 0x0806 then some .arp else if ethertype = 0x0800 then some .ipv4 else none

/-- a call of `arp_handle_frame` or `ipv4_handle_frame` -/
structure Upcall where
  handler : Handler
  body : Buffer
  srcMac : List UInt8

structure Link where
  nic : Nic
  /-- memory from `rx_scratch` on -/
  rxScratch : ℕ → UInt8

/-- `n` bytes from address `a` on -/
def load (mem : ℕ → UInt8) (a n : ℕ) : List UInt8 := (List.range n).map fun i => mem (a + i)

theorem load_length (mem : ℕ → UInt8) (a n : ℕ) : (load mem a n).length = n := by
  rw [load, List.length_map, List.length_range]

/-- the length field of the header at the read offset -/
def lengthField (s : Nic) : ℕ := (s.mem (s.rxReadOffset + 2)).toNat + 256 * (s.mem (s.rxReadOffset + 3)).toNat

/-- there is a packet to read: the driver is set up and `CMD_BUFE` is clear -/
def Waiting (s : Nic) : Prop := s.initialized = true ∧ s.unread ≠ []

/-! ## What `rtl8139_receive` does for any `rx_buffer` -/

theorem lengthField_lt (s : Nic) : lengthField s < 2 ^ 16 := by
  have hlow := (s.mem (s.rxReadOffset + 2)).toNat_lt
  have hhigh := (s.mem (s.rxReadOffset + 3)).toNat_lt
  unfold lengthField
  omega

theorem rtl8139Receive_idle {s : Nic} (h : ¬ Waiting s) : rtl8139Receive s = ((0, []), s) := by
  unfold rtl8139Receive
  cases hi : s.initialized with
  | false => simp
  | true =>
    have hu : s.unread = [] := by
      by_contra hne
      exact h ⟨hi, hne⟩
    simp [hu]

/-- the length is the header's, the copy is cut off -/
theorem rtl8139Receive_waiting {s : Nic} (h : Waiting s) :
    (rtl8139Receive s).1.1 = lengthField s - 4 ∧
    (rtl8139Receive s).1.2.length = min (lengthField s - 4) maxFrame ∧
    (rtl8139Receive s).2.rxReadOffset = nextOffset s.rxReadOffset (lengthField s) % rxBufSize := by
  have hempty : s.unread.isEmpty = false := by simpa using h.2
  have hlen : (if 4 ≤ lengthField s then lengthField s - 4 else 0) = lengthField s - 4 := by
    split <;> omega
  unfold lengthField at hlen
  unfold rtl8139Receive
  rw [h.1, hempty]
  simp only [Bool.not_true, Bool.false_eq_true, if_false, hlen, List.length_map, List.length_range]
  exact ⟨rfl, rfl, rfl⟩

theorem rtl8139Receive_lt (s : Nic) : (rtl8139Receive s).1.1 < 2 ^ 16 := by
  by_cases h : Waiting s
  · have := lengthField_lt s
    rw [(rtl8139Receive_waiting h).1]
    omega
  · rw [rtl8139Receive_idle h]
    exact Nat.two_pow_pos 16

/-- the read offset stays in `rx_buffer` and aligned, whatever the header says -/
theorem rtl8139Receive_offset {s : Nic} (ha : s.rxReadOffset < rxBufSize) (h4 : 4 ∣ s.rxReadOffset) :
    (rtl8139Receive s).2.rxReadOffset < rxBufSize ∧ 4 ∣ (rtl8139Receive s).2.rxReadOffset := by
  by_cases h : Waiting s
  · rw [(rtl8139Receive_waiting h).2.2]
    have hsize : 4 ∣ rxBufSize := by decide
    exact ⟨Nat.mod_lt _ (by decide), (Nat.dvd_mod_iff hsize).2 (dvd_nextOffset _ _)⟩
  · rw [rtl8139Receive_idle h]
    exact ⟨ha, h4⟩

/-! ## Polling and sending -/

def ethernetPoll (s : Link) : Option Upcall × Link :=
  let received := rtl8139Receive s.nic
  let scratch := store s.rxScratch 0 received.1.2
  let len := received.1.1
  let call :=
    if len < ethHdrLen then none
    else (handlerOf (get16 (load scratch 12 2) 0)).map fun handler =>
      { handler := handler
        body := ⟨load scratch ethHdrLen (len - ethHdrLen),
          (load_length ..).trans_lt ((Nat.sub_le ..).trans_lt (rtl8139Receive_lt s.nic))⟩
        srcMac := load scratch 6 6 }
  (call, ⟨received.2, scratch⟩)

/-- the handler is given all that follows the header, by the returned length -/
theorem ethernetPoll_call {s : Link} {call : Upcall} (h : (ethernetPoll s).1 = some call) :
    ethHdrLen + call.body.1.length = (rtl8139Receive s.nic).1.1 := by
  simp only [ethernetPoll] at h
  split at h
  · cases h
  · rename_i hlen
    obtain ⟨handler, -, rfl⟩ := Option.map_eq_some_iff.1 h
    rw [load_length]
    omega

/-! ## Lengths against bytes -/

/-- **Received lengths and received bytes.** For every content of `rx_buffer` and every aligned read offset in it: the
value returned is at most `RTL8139_MAX_FRAME` and exactly that many bytes are written, the offset stays in `rx_buffer` and
aligned, and the body handed on ends within `rx_scratch`, if and only if the header of a waiting packet has a length
field of at most 1796. -/
theorem received_within_iff (s : Link) (ha : s.nic.rxReadOffset < rxBufSize) (h4 : 4 ∣ s.nic.rxReadOffset) :
    ((rtl8139Receive s.nic).1.1 ≤ maxFrame ∧ (rtl8139Receive s.nic).1.2.length = (rtl8139Receive s.nic).1.1 ∧
      (rtl8139Receive s.nic).2.rxReadOffset < rxBufSize ∧ 4 ∣ (rtl8139Receive s.nic).2.rxReadOffset ∧
      ∀ call, (ethernetPoll s).1 = some call → ethHdrLen + call.body.1.length ≤ maxFrame) ↔
    (Waiting s.nic → lengthField s.nic ≤ 1796) := by
  obtain ⟨hoffset, haligned⟩ := rtl8139Receive_offset ha h4
  have hmax : maxFrame = 1792 := rfl
  constructor
  · rintro ⟨hle, -⟩ hw
    rw [(rtl8139Receive_waiting hw).1] at hle
    omega
  · intro hfield
    have hle : (rtl8139Receive s.nic).1.1 ≤ maxFrame ∧
        (rtl8139Receive s.nic).1.2.length = (rtl8139Receive s.nic).1.1 := by
      by_cases hw : Waiting s.nic
      · obtain ⟨hlen, hbuf, -⟩ := rtl8139Receive_waiting hw
        have := hfield hw
        rw [hlen, hbuf]
        omega
      · rw [rtl8139Receive_idle hw]
        exact ⟨Nat.zero_le _, rfl⟩
    exact ⟨hle.1, hle.2, hoffset, haligned, fun call hcall => (ethernetPoll_call hcall).trans_le hle.1⟩

/-- an `rx_buffer` with one packet at its start: the length field in the header, an IPv4 ethertype in the frame -/
def rxBufferWith (length : ℕ) : Link where
  nic :=
    { rtl8139Init with
      mem := fun i => if i = 2 then UInt8.ofNat length else if i = 3 then UInt8.ofNat (length / 256)
        else if i = 16 then 8 else 0
      unread := [(0, ⟨0, [0, 0, 0, 0], by decide, by decide⟩)] }
  rxScratch := fun _ => 0

theorem received_within_iff_full :
    (rtl8139Receive (rxBufferWith 1796).nic).1.1 = 1792 ∧
    ((rtl8139Receive (rxBufferWith 1796).nic).1.1 ≤ maxFrame ∧
      (rtl8139Receive (rxBufferWith 1796).nic).1.2.length = (rtl8139Receive (rxBufferWith 1796).nic).1.1 ∧
      (rtl8139Receive (rxBufferWith 1796).nic).2.rxReadOffset < rxBufSize ∧
      4 ∣ (rtl8139Receive (rxBufferWith 1796).nic).2.rxReadOffset ∧
      ∀ call, (ethernetPoll (rxBufferWith 1796)).1 = some call → ethHdrLen + call.body.1.length ≤ maxFrame) := by
  have hwait : Waiting (rxBufferWith 1796).nic := ⟨rfl, by simp [rxBufferWith]⟩
  refine ⟨(rtl8139Receive_waiting hwait).1, ?_⟩
  exact (received_within_iff (rxBufferWith 1796) (by decide) (by decide)).2 fun _ => by decide

/-- **A long header overruns the buffer.** The driver returns 1800 for 1792 bytes, and the IPv4 handler is given a body
that ends at 1800. -/
theorem long_header_overruns :
    (rtl8139Receive (rxBufferWith 1804).nic).1.1 = 1800 ∧ (rtl8139Receive (rxBufferWith 1804).nic).1.2.length = 1792 ∧
    ∃ call, (ethernetPoll (rxBufferWith 1804)).1 = some call ∧ call.handler = .ipv4 ∧
      ethHdrLen + call.body.1.length = 1800 := by
  have hwait : Waiting (rxBufferWith 1804).nic := ⟨rfl, by simp [rxBufferWith]⟩
  obtain ⟨hlen, hbuf, -⟩ := rtl8139Receive_waiting hwait
  have hlen : (rtl8139Receive (rxBufferWith 1804).nic).1.1 = 1800 := hlen
  have hcall : ((ethernetPoll (rxBufferWith 1804)).1.map Upcall.handler) = some .ipv4 := by decide +kernel
  obtain ⟨call, hcall, hipv4⟩ := Option.map_eq_some_iff.1 hcall
  exact ⟨hlen, hbuf, call, hcall, hipv4, (ethernetPoll_call hcall).trans hlen⟩

end GannetOS.Net.Ethernet
