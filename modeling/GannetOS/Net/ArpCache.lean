/-
The ARP cache over whole sequences of frames.

`arp_handle_frame` learns the sender of every valid frame: it refreshes the sender's entry, takes a free slot, or
overwrites the entry with the smallest `learned_tick`. `ArpCache` and its functions are those of `ArpWait`; here a run
is a list of frames with their ticks, `learned` is the log of what they teach, and the cache is an instance of
`Core.Recency` with the tick as stamp.

- `cache_keeps_latest`: no address is in two slots, a lookup answers with the latest frame's source, a full cache
  evicts what was learned first, and the last 16 addresses resolve. Premise: whenever a full cache learns a new
  address, one entry alone has the smallest tick, and address 0 is not looked up while a slot is free.
- `ties_and_zero`: with frames of one tick the address learned last but one is evicted, and `arp_resolve` of address 0
  answers although nothing was learned.
-/
import GannetOS.Core.Recency
import GannetOS.Net.ArpWait

namespace GannetOS.Net

open GannetOS.Core List

deriving instance DecidableEq for ArpEntry

/-! ## Frames, what they teach, and runs -/

/-- a frame handed to `arp_handle_frame`, with `pit_ticks` at that time -/
structure ArpFrame where
  tick : UInt32
  payload : List UInt8
  srcMac : List UInt8

/-- an Ethernet/IPv4 ARP packet that is not cut short -/
def ValidArp (payload : List UInt8) : Prop :=
  28 ≤ payload.length ∧ get16 payload 0 = 1 ∧ get16 payload 2 = 0x0800 ∧ payload.getD 4 0 = 6 ∧ payload.getD 5 0 = 4

instance (payload : List UInt8) : Decidable (ValidArp payload) :=
  inferInstanceAs (Decidable (_ ∧ _))

/-- the entry a frame is learned as; probes from address 0 are not -/
def ArpFrame.learns (f : ArpFrame) : Option ArpEntry :=
  if ValidArp f.payload ∧ get32 f.payload 14 ≠ 0 then some ⟨get32 f.payload 14, f.srcMac, f.tick⟩ else none

/-- a host of the subnet: `ipv4_get_address`, `ethernet_get_mac` and the cache -/
structure ArpHost where
  ip : UInt32
  mac : List UInt8
  cache : ArpCache
  mac_length : mac.length = 6

def arpInit (h : ArpHost) : ArpHost := { h with cache := fun i => { h.cache i with ip := 0, learnedTick := 0 } }

/-- the packet `send_arp` builds -/
def sendArp (h : ArpHost) (oper : UInt16) (tha : List UInt8) (tpa : UInt32) : List UInt8 :=
  be16 1 ++ be16 0x0800 ++ [6, 4] ++ be16 oper ++ h.mac ++ be32 h.ip ++ tha ++ be32 tpa

def ethBroadcastMac : List UInt8 := List.replicate 6 0xFF

/-- `arp_resolve`: the address, or the request and where it goes -/
def arpResolve (h : ArpHost) (ip : UInt32) : List UInt8 ⊕ (List UInt8 × List UInt8) :=
  match h.cache.lookup ip with
  | some mac => .inl mac
  | none => .inr (ethBroadcastMac, sendArp h 1 (List.replicate 6 0) ip)

/-- the reply `arp_handle_frame` may send, after where it goes -/
abbrev ArpReply := Option (List UInt8 × List UInt8)

def arpHandleFrame (h : ArpHost) (now : UInt32) (payload srcMac : List UInt8) : ArpReply × ArpHost :=
  (if ValidArp payload ∧ get16 payload 6 = 1 ∧ get32 payload 24 = h.ip then
      some (srcMac, sendArp h 2 ((payload.drop 8).take 6) (get32 payload 14))
    else none,
    { h with cache := h.cache.handleFrame now payload srcMac })

structure ArpState where
  host : ArpHost
  now : UInt32

abbrev ArpState.cache (s : ArpState) : ArpCache := s.host.cache

def arpStep (s : ArpState) (f : ArpFrame) : ArpReply × ArpState :=
  let r := arpHandleFrame s.host f.tick f.payload f.srcMac
  (r.1, ⟨r.2, f.tick⟩)

/-- what the frames of a trace teach, in their order -/
def learned (tr : List (ArpFrame × ArpReply)) : List ArpEntry := tr.filterMap fun f => f.1.learns

def ArpCache.Full (cache : ArpCache) : Prop := ∀ i, (cache i).ip ≠ 0

/-- time does not go back; and where a full cache learns a new address, one entry alone has the smallest tick -/
def OneOldest (s : ArpState) (f : ArpFrame) : Prop :=
  s.now ≤ f.tick ∧ ∀ e, f.learns = some e → s.cache.Full → (∀ i, (s.cache i).ip ≠ e.ip) →
    ∃ i, ∀ j, j ≠ i → (s.cache i).learnedTick < (s.cache j).learnedTick

instance (s : ArpState) (f : ArpFrame) : Decidable (OneOldest s f) :=
  decidable_of_iff (s.now ≤ f.tick ∧ ∀ e ∈ f.learns, (∀ i, (s.cache i).ip ≠ 0) → (∀ i, (s.cache i).ip ≠ e.ip) →
    ∃ i, ∀ j, j ≠ i → (s.cache i).learnedTick < (s.cache j).learnedTick) (by
      simp only [OneOldest, ArpCache.Full, Option.mem_def])

/-- the slots in use -/
def ArpCache.slots (cache : ArpCache) (i : Fin 16) : Option ArpEntry :=
  if (cache i).ip = 0 then none else some (cache i)

/-! ## One learn -/

namespace ArpCache

variable {cache : ArpCache}

theorem slots_eq_some {i : Fin 16} {e : ArpEntry} : cache.slots i = some e ↔ cache i = e ∧ e.ip ≠ 0 := by
  unfold slots
  split <;> grind

theorem handleFrame_eq (f : ArpFrame) :
    cache.handleFrame f.tick f.payload f.srcMac =
      match f.learns with
      | none => cache
      | some e => Function.update cache (cache.slotFor e.ip) e := by
  unfold handleFrame ArpFrame.learns ValidArp learn
  split_ifs <;> grind

theorem learns_ne_zero {f : ArpFrame} {e : ArpEntry} (h : f.learns = some e) : e.ip ≠ 0 ∧ e.learnedTick = f.tick := by
  unfold ArpFrame.learns at h
  split_ifs at h with hv
  cases h
  exact ⟨hv.2, rfl⟩

theorem slots_update {i : Fin 16} {e : ArpEntry} (he : e.ip ≠ 0) :
    slots (Function.update cache i e) = Function.update cache.slots i (some e) := by
  funext j
  by_cases hj : j = i
  · subst hj
    simp [slots, he]
  · simp [slots, hj]

theorem oldest_le (cache : ArpCache) (j : Fin 16) : (cache cache.oldest).learnedTick ≤ (cache j).learnedTick := by
  -- the loop keeps the best of what it has seen
  have hloop : ∀ (l : List (Fin 16)) (best : Fin 16), ∀ j, j = best ∨ j ∈ l →
      (cache (l.foldl (fun best i => if (cache i).learnedTick < (cache best).learnedTick then i else best)
        best)).learnedTick ≤ (cache j).learnedTick := by
    intro l
    induction l with
    | nil =>
      intro best j hj
      rcases hj with rfl | hj
      · exact UInt32.le_refl _
      · cases hj
    | cons i l ih =>
      intro best j hj
      rw [foldl_cons]
      split
      · rename_i hlt
        rcases hj with rfl | hj
        · exact UInt32.le_trans (ih i i (.inl rfl)) (UInt32.le_of_lt hlt)
        · rcases List.mem_cons.1 hj with rfl | hj
          · exact ih j j (.inl rfl)
          · exact ih i j (.inr hj)
      · rename_i hge
        rcases hj with rfl | hj
        · exact ih j j (.inl rfl)
        · rcases List.mem_cons.1 hj with rfl | hj
          · exact UInt32.le_trans (ih best best (.inl rfl)) (UInt32.not_lt.1 hge)
          · exact ih best j (.inr hj)
  exact hloop _ 0 j (.inr (mem_finRange j))

theorem oldest_eq {i : Fin 16} (h : ∀ j, j ≠ i → (cache i).learnedTick < (cache j).learnedTick) : cache.oldest = i := by
  by_contra hne
  exact absurd (oldest_le cache i) (UInt32.not_le.2 (h _ hne))

/-- the slot `cache_learn` takes -/
theorem slotFor_cases (cache : ArpCache) (ip : UInt32) :
    (cache (cache.slotFor ip)).ip = ip ∨
    (∀ j, (cache j).ip ≠ ip) ∧ ((cache (cache.slotFor ip)).ip = 0 ∨ cache.Full ∧ cache.slotFor ip = cache.oldest) := by
  unfold slotFor
  cases hown : (List.finRange 16).find? fun i => (cache i).ip = ip with
  | some i =>
    left
    simpa using find?_some hown
  | none =>
    right
    refine ⟨by simpa using hown, ?_⟩
    cases hfree : (List.finRange 16).find? fun i => (cache i).ip = 0 with
    | some i =>
      left
      simpa using find?_some hfree
    | none => exact .inr ⟨by simpa [Full] using hfree, by simp⟩

theorem lookup_eq_some {ip : UInt32} {mac : List UInt8} (h : cache.lookup ip = some mac) :
    ∃ i, (cache i).ip = ip ∧ (cache i).mac = mac := by
  obtain ⟨i, hi, rfl⟩ := Option.map_eq_some_iff.1 h
  exact ⟨i, by simpa using find?_some hi, rfl⟩

theorem lookup_isSome {i : Fin 16} {ip : UInt32} (h : (cache i).ip = ip) : ∃ mac, cache.lookup ip = some mac := by
  cases hf : (List.finRange 16).find? fun j => (cache j).ip = ip with
  | some j => exact ⟨(cache j).mac, by rw [lookup, hf]; rfl⟩
  | none =>
    rw [find?_eq_none] at hf
    exact absurd h (by simpa using hf i (mem_finRange i))

end ArpCache

theorem arpResolve_eq_inl {h : ArpHost} {ip : UInt32} {mac : List UInt8} :
    arpResolve h ip = .inl mac ↔ h.cache.lookup ip = some mac := by
  unfold arpResolve
  split <;> simp_all

/-! ## The invariant -/

def ArpEntry.stamp (e : ArpEntry) : ℕ := e.learnedTick.toNat

/-- the cache against the log of what was learned -/
structure ArpInv (log : List ArpEntry) (s : ArpState) : Prop where
  cached : Cached ArpEntry.ip s.cache.slots log
  complete : Complete ArpEntry.ip s.cache.slots log
  sorted : log.Pairwise fun a b => a.stamp ≤ b.stamp
  past : ∀ e ∈ log, e.stamp ≤ s.now.toNat

variable {s : ArpState} {log : List ArpEntry} {f : ArpFrame} {e : ArpEntry}

theorem ArpInv.init (h : ArpHost) : ArpInv [] ⟨arpInit h, 0⟩ where
  cached := ⟨fun i x hi => by simp [ArpCache.slots, arpInit] at hi, fun i j x y hi => by
    simp [ArpCache.slots, arpInit] at hi⟩
  complete := by
    rintro e ⟨before, after, h, -⟩
    simp at h
  sorted := .nil
  past := by simp

/-- the address's own slot is the one that is taken -/
theorem ArpInv.own (h : ArpInv log s) {j : Fin 16} {x : ArpEntry} (hj : s.cache.slots j = some x)
    (hx : x.ip = e.ip) : j = s.cache.slotFor e.ip := by
  obtain ⟨rfl, hne⟩ := ArpCache.slots_eq_some.1 hj
  rcases s.cache.slotFor_cases e.ip with hown | ⟨hnew, -⟩
  · exact h.cached.distinct j _ _ _ hj (ArpCache.slots_eq_some.2 ⟨rfl, by rw [hown, ← hx]; exact hne⟩) (hx.trans hown.symm)
  · exact absurd hx (hnew j)

/-- what is evicted was learned before everything else in the cache -/
theorem ArpInv.evicts (h : ArpInv log s) (hok : OneOldest s f) (he : f.learns = some e) (hfull : s.cache.Full)
    (hnew : ∀ i, (s.cache i).ip ≠ e.ip) {before after : List ArpEntry}
    (hlog : log = before ++ s.cache (s.cache.slotFor e.ip) :: after) {j : Fin 16} (hj : j ≠ s.cache.slotFor e.ip) :
    s.cache j ∈ after := by
  obtain ⟨i, hi⟩ := hok.2 e he hfull hnew
  have hslot : s.cache.slotFor e.ip = i := by
    rcases s.cache.slotFor_cases e.ip with hown | ⟨-, hfree | ⟨-, hold⟩⟩
    · exact absurd hown (hnew _)
    · exact absurd hfree (hfull _)
    · rw [hold, ArpCache.oldest_eq hi]
  rw [hslot] at hlog hj
  have hmem : s.cache j ∈ log := (h.cached.latest j _ (ArpCache.slots_eq_some.2 ⟨rfl, hfull j⟩)).mem
  exact mem_after_of_stamp_lt h.sorted hlog hmem (UInt32.lt_iff_toNat_lt.1 (hi j hj))

theorem ArpInv.step (h : ArpInv log s) (hok : OneOldest s f) :
    ArpInv (log ++ f.learns.toList) (arpStep s f).2 := by
  have hcache : (arpStep s f).2.cache = _ := ArpCache.handleFrame_eq f
  have hnow : s.now.toNat ≤ f.tick.toNat := UInt32.le_iff_toNat_le.1 hok.1
  cases he : f.learns with
  | none =>
    rw [he] at hcache
    rw [Option.toList_none, append_nil]
    exact ⟨hcache ▸ h.cached, hcache ▸ h.complete, h.sorted, fun e he => (h.past e he).trans hnow⟩
  | some e =>
    obtain ⟨hne, htick⟩ := ArpCache.learns_ne_zero he
    rw [he] at hcache
    have hslots := (congrArg ArpCache.slots hcache).trans (ArpCache.slots_update hne)
    refine ⟨hslots ▸ h.cached.put fun j x hj hx => h.own hj hx, hslots ▸ h.complete.put h.cached ?_, ?_, ?_⟩
    · intro x hx hkey before after hlog j hj
      obtain ⟨rfl, hx0⟩ := ArpCache.slots_eq_some.1 hx
      rcases s.cache.slotFor_cases e.ip with hown | ⟨hnew, hfree | ⟨hfull, -⟩⟩
      · exact absurd hown hkey
      · exact absurd hfree hx0
      · exact ⟨s.cache j, ArpCache.slots_eq_some.2 ⟨rfl, hfull j⟩, hnew j, h.evicts hok he hfull hnew hlog hj⟩
    · rw [Option.toList_some, pairwise_append]
      refine ⟨h.sorted, pairwise_singleton _ _, fun a ha b hb => ?_⟩
      rw [List.mem_singleton.1 hb, ArpEntry.stamp, ArpEntry.stamp, htick]
      exact (h.past a ha).trans hnow
    · intro a ha
      rcases List.mem_append.1 ha with ha | ha
      · exact (h.past a ha).trans hnow
      · rw [List.mem_singleton.1 ha, ArpEntry.stamp, htick]
        exact le_refl _

theorem learned_snoc (tr : List (ArpFrame × ArpReply)) (f : ArpFrame) (r : ArpReply) :
    learned (tr ++ [(f, r)]) = learned tr ++ f.learns.toList := by
  cases h : f.learns <;> simp [learned, h]

theorem arp_invariant {host : ArpHost} {tr : List (ArpFrame × ArpReply)}
    (h : Run arpStep OneOldest ⟨arpInit host, 0⟩ tr s) : ArpInv (learned tr) s := by
  induction h with
  | nil => exact ArpInv.init host
  | snoc f _ hok ih => exact learned_snoc .. ▸ ih.step hok

/-! ## The cache is a bounded map of what was learned last -/

/-- **The ARP cache keeps the latest.** After any frames handled since `arp_init`, with ticks that do not decrease and
one oldest entry wherever an entry has to go: no address is in two slots; an answer for `ip` is the source of the latest
valid frame from `ip`; a new address in a full cache replaces the entry whose latest frame is the earliest; and the last
16 addresses resolve. -/
theorem cache_keeps_latest {host : ArpHost} {tr : List (ArpFrame × ArpReply)}
    (h : Run arpStep OneOldest ⟨arpInit host, 0⟩ tr s) :
    (∀ i j, (s.cache i).ip = (s.cache j).ip → (s.cache i).ip ≠ 0 → i = j) ∧
    (∀ ip mac, ip ≠ 0 ∨ s.cache.Full → arpResolve s.host ip = .inl mac →
      ∃ e, e.ip = ip ∧ e.mac = mac ∧ Latest ArpEntry.ip (learned tr) e) ∧
    (∀ f e, OneOldest s f → f.learns = some e → s.cache.Full → (∀ i, (s.cache i).ip ≠ e.ip) →
      ∃ i before after, (arpStep s f).2.cache = Function.update s.cache i e ∧
        learned tr = before ++ s.cache i :: after ∧ (∀ x ∈ after, x.ip ≠ (s.cache i).ip) ∧
        ∀ j, j ≠ i → s.cache j ∈ after) ∧
    (∀ e, Recent ArpEntry.ip 16 (learned tr) e → arpResolve s.host e.ip = .inl e.mac) := by
  have hinv := arp_invariant h
  have hlatest : ∀ i, (s.cache i).ip ≠ 0 → Latest ArpEntry.ip (learned tr) (s.cache i) := fun i hi =>
    hinv.cached.latest i _ (ArpCache.slots_eq_some.2 ⟨rfl, hi⟩)
  have hdistinct : ∀ i j, (s.cache i).ip = (s.cache j).ip → (s.cache i).ip ≠ 0 → i = j := fun i j hij hi =>
    hinv.cached.distinct i j _ _ (ArpCache.slots_eq_some.2 ⟨rfl, hi⟩)
      (ArpCache.slots_eq_some.2 ⟨rfl, hij ▸ hi⟩) hij
  refine ⟨hdistinct, fun ip mac hip hl => ?_, fun f e hok he hfull hnew => ?_, fun e he => ?_⟩
  · obtain ⟨i, rfl, rfl⟩ := ArpCache.lookup_eq_some (arpResolve_eq_inl.1 hl)
    have hi : (s.cache i).ip ≠ 0 := hip.elim id fun hfull => hfull i
    exact ⟨s.cache i, rfl, rfl, hlatest i hi⟩
  · obtain ⟨before, after, hlog, hafter⟩ := hlatest (s.cache.slotFor e.ip) (hfull _)
    refine ⟨s.cache.slotFor e.ip, before, after, ?_, hlog, hafter, fun j hj => hinv.evicts hok he hfull hnew hlog hj⟩
    have hcache : (arpStep s f).2.cache = _ := ArpCache.handleFrame_eq f
    rw [hcache, he]
  · obtain ⟨i, hi⟩ := hinv.complete e he
    obtain ⟨rfl, hne⟩ := ArpCache.slots_eq_some.1 hi
    obtain ⟨mac, hmac⟩ := ArpCache.lookup_isSome (rfl : (s.cache i).ip = (s.cache i).ip)
    obtain ⟨j, hj, rfl⟩ := ArpCache.lookup_eq_some hmac
    rw [arpResolve_eq_inl, hmac, hdistinct j i hj (hj ▸ hne)]

/-- a host of the subnet 10.0.2.0/24 -/
def subnetHost (n : UInt8) : ArpHost where
  ip := get32 [10, 0, 2, n] 0
  mac := [0x52, 0x54, 0, 0x12, 0x34, n]
  cache := fun _ => ⟨0, List.replicate 6 0, 0⟩
  mac_length := rfl

/-- host `n` asks for 10.0.2.15 -/
def asks (tick : UInt32) (n : UInt8) : ArpFrame :=
  ⟨tick, sendArp (subnetHost n) 1 (List.replicate 6 0) (get32 [10, 0, 2, 15] 0), (subnetHost n).mac⟩

/-- requests of 17 hosts, one per tick -/
def seventeenHosts : List ArpFrame := (List.range 17).map fun n => asks (n + 1).toUInt32 (n + 100).toUInt8

theorem cache_keeps_latest_seventeen :
    ∃ tr, Run arpStep OneOldest ⟨arpInit (subnetHost 15), 0⟩ tr
        (runOps arpStep ⟨arpInit (subnetHost 15), 0⟩ seventeenHosts) ∧
      ∀ e, Recent ArpEntry.ip 16 (learned tr) e →
        arpResolve (runOps arpStep ⟨arpInit (subnetHost 15), 0⟩ seventeenHosts).host e.ip = .inl e.mac := by
  have hok : AllOk arpStep OneOldest ⟨arpInit (subnetHost 15), 0⟩ seventeenHosts := by decide +kernel
  obtain ⟨tr, h⟩ := Run.of_allOk hok
  exact ⟨tr, h, (cache_keeps_latest h).2.2.2⟩

/-- 16 hosts in one tick, the first of them once more, then another one -/
def oneTick : List ArpFrame :=
  ((List.range 16).map fun n => asks 5 (n + 100).toUInt8) ++ [asks 5 100, asks 5 116]

/-- **Ties and address 0.** Of 18 frames in one tick, the last but one refreshes the first host's entry; the last one
overwrites that entry, and not the one of the host that was heard first and never again. Before any frame,
`arp_resolve` of address 0 answers. -/
theorem ties_and_zero :
    (∀ f ∈ oneTick, f.tick = 5) ∧
    Recent ArpEntry.ip 16 (oneTick.filterMap ArpFrame.learns) ⟨(subnetHost 100).ip, (subnetHost 100).mac, 5⟩ ∧
    (runOps arpStep ⟨arpInit (subnetHost 15), 0⟩ oneTick).cache.lookup (subnetHost 100).ip = none ∧
    (runOps arpStep ⟨arpInit (subnetHost 15), 0⟩ oneTick).cache.lookup (subnetHost 101).ip =
      some (subnetHost 101).mac ∧
    arpResolve (arpInit (subnetHost 15)) 0 = .inl (List.replicate 6 0) := by
  refine ⟨by decide +kernel, ⟨(oneTick.filterMap ArpFrame.learns).take 16,
    [⟨(subnetHost 116).ip, (subnetHost 116).mac, 5⟩], by decide +kernel, by decide +kernel, by decide +kernel⟩,
    by decide +kernel, by decide +kernel, by decide +kernel⟩

end GannetOS.Net
