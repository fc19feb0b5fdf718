/-
The pointers a ring3 task may hand to a system call (kernel/proc/syscall.c): `addr_range_in`, `user_range_ok` and
`user_str_ok`, over any two regions with start < end, any 32-bit pointer and length, and any memory. The scan of
`user_str_ok` returns the addresses it has read as well.

- `user_pointers_exact`: `user_range_ok` accepts exactly the spans that lie in one region together with their pointer, and
  `user_str_ok` exactly the pointers with a NUL before the end of a region they are in, reading bytes of that region only;
  except that an empty span may also stand at the end of a region, and that where the regions overlap only the first counts;
- `empty_span_at_end_accepted`: the exception in the regions of linker.ld.

Which pages are a task's stack is decided elsewhere: `try_exec` maps it at APP_STACK_VADDR, `task_create_ring3_child` at
SPAWN_CHILD_STACK_VADDR. `Stacked` records for each slot the stack pages that were mapped for its task.

- `own_stack_accepted`: in every state of every run from boot in which task 0 does not exit, all spans inside a task's own
  stack pages are accepted exactly if it is no spawned child;
- `child_stack_rejected`: a child that is running cannot pass any byte of its stack.
-/
import GannetOS.Proc.AppRegion

namespace GannetOS.Proc

/-! ## The checks -/

/-- two symbols of linker.ld around something that is not empty -/
structure Region where
  start : UInt32
  stop : UInt32
  lt : start < stop

structure Regions where
  appbuf : Region
  appstack : Region

def addrRangeIn (ptr len start stop : UInt32) : Bool :=
  let spanEnd := ptr + len
  if spanEnd < ptr then false else start ≤ ptr && spanEnd ≤ stop

def userRangeOk (r : Regions) (ptr len : UInt32) : Bool :=
  addrRangeIn ptr len r.appbuf.start r.appbuf.stop || addrRangeIn ptr len r.appstack.start r.appstack.stop

/-- the loop of `user_str_ok` from `p` on, `n` bytes before the end of the region, with the addresses it reads -/
def scan (mem : UInt32 → UInt8) : ℕ → UInt32 → Bool × List UInt32
  | 0, _ => (false, [])
  | n + 1, p => if mem p = 0 then (true, [p]) else ((scan mem n (p + 1)).1, p :: (scan mem n (p + 1)).2)

def userStrOk (r : Regions) (mem : UInt32 → UInt8) (ptr : UInt32) : Bool × List UInt32 :=
  if r.appbuf.start ≤ ptr ∧ ptr < r.appbuf.stop then scan mem (r.appbuf.stop.toNat - ptr.toNat) ptr
  else if r.appstack.start ≤ ptr ∧ ptr < r.appstack.stop then scan mem (r.appstack.stop.toNat - ptr.toNat) ptr
  else (false, [])

/-- the regions of linker.ld: exec_buf fills .appbuf -/
def linked : Regions := ⟨⟨0x200000, 0x210000, by decide⟩, ⟨0x210000, 0x214000, by decide⟩⟩

/-! ## What they are for -/

namespace Region

/-- the byte at `a` is in the region -/
def Contains (g : Region) (a : ℕ) : Prop := g.start.toNat ≤ a ∧ a < g.stop.toNat

instance (g : Region) (a : ℕ) : Decidable (g.Contains a) := inferInstanceAs (Decidable (_ ∧ _))

/-- the pointer itself, and all of [ptr, ptr + len) in unbounded arithmetic -/
def Covers (g : Region) (ptr len : UInt32) : Prop :=
  g.Contains ptr.toNat ∧ ∀ a, ptr.toNat ≤ a → a < ptr.toNat + len.toNat → g.Contains a

/-- a NUL between the pointer and the end of the region it is in -/
def Terminates (g : Region) (mem : UInt32 → UInt8) (ptr : UInt32) : Prop :=
  g.Contains ptr.toNat ∧ ∃ a : UInt32, ptr.toNat ≤ a.toNat ∧ a.toNat < g.stop.toNat ∧ mem a = 0

theorem contains_iff {g : Region} {p : UInt32} : g.Contains p.toNat ↔ g.start ≤ p ∧ p < g.stop := by
  rw [Contains, UInt32.le_iff_toNat_le, UInt32.lt_iff_toNat_lt]

theorem covers_iff {g : Region} {ptr len : UInt32} :
    g.Covers ptr len ↔ g.Contains ptr.toNat ∧ ptr.toNat + len.toNat ≤ g.stop.toNat := by
  refine and_congr_right fun hptr => ⟨fun h => ?_, fun h a ha ha' => ⟨hptr.1.trans ha, by omega⟩⟩
  by_cases hlen : len.toNat = 0
  · have := hptr.2
    omega
  · have := (h (ptr.toNat + len.toNat - 1) (by omega) (by omega)).2
    omega

end Region

/-- `addr_range_in` sees an overflow of `ptr + len` -/
theorem addrRangeIn_iff {ptr len start stop : UInt32} :
    addrRangeIn ptr len start stop = true ↔
      start.toNat ≤ ptr.toNat ∧ ptr.toNat + len.toNat ≤ stop.toNat := by
  have hptr := ptr.toNat_lt
  have hlen := len.toNat_lt
  have hstop := stop.toNat_lt
  have hadd : (ptr + len).toNat = (ptr.toNat + len.toNat) % 2 ^ 32 := UInt32.toNat_add _ _
  unfold addrRangeIn
  dsimp only
  split_ifs with hwrap <;> rw [UInt32.lt_iff_toNat_lt, hadd] at hwrap
  · simp only [false_iff]
    omega
  · rw [Bool.and_eq_true, decide_eq_true_eq, decide_eq_true_eq, UInt32.le_iff_toNat_le, UInt32.le_iff_toNat_le, hadd]
    omega

/-- an empty span that stands at the end of a region and in none -/
def AtEnd (r : Regions) (ptr len : UInt32) : Prop :=
  len = 0 ∧ (ptr = r.appbuf.stop ∨ ptr = r.appstack.stop) ∧ ¬ r.appbuf.Contains ptr.toNat ∧
    ¬ r.appstack.Contains ptr.toNat

/-- what `addr_range_in` accepts of a region: what the region covers, and the empty span at its end -/
theorem addrRangeIn_covers (g : Region) (ptr len : UInt32) :
    addrRangeIn ptr len g.start g.stop = true ↔ g.Covers ptr len ∨ len = 0 ∧ ptr = g.stop := by
  have hlt := UInt32.lt_iff_toNat_lt.1 g.lt
  rw [addrRangeIn_iff, Region.covers_iff, Region.Contains, ← UInt32.toNat_inj, ← UInt32.toNat_inj, UInt32.toNat_zero]
  omega

theorem userRangeOk_iff (r : Regions) (ptr len : UInt32) :
    (userRangeOk r ptr len = true ↔ r.appbuf.Covers ptr len ∨ r.appstack.Covers ptr len) ↔ ¬ AtEnd r ptr len := by
  have hzero (g : Region) (h : len = 0) : g.Covers ptr len ↔ g.Contains ptr.toNat := by
    rw [Region.covers_iff, h, UInt32.toNat_zero]
    exact and_iff_left_of_imp fun hc => hc.2.le
  rw [userRangeOk, Bool.or_eq_true, addrRangeIn_covers, addrRangeIn_covers, AtEnd]
  by_cases hlen : len = 0
  · rw [hzero _ hlen, hzero _ hlen]
    tauto
  · tauto

/-! ## The scan -/

/-- the loop finds a NUL exactly if there is one among the next `n` bytes, and reads none beyond them -/
theorem scan_spec (mem : UInt32 → UInt8) {n : ℕ} {p : UInt32} (h : p.toNat + n < 2 ^ 32) :
    ((scan mem n p).1 = true ↔ ∃ a : UInt32, p.toNat ≤ a.toNat ∧ a.toNat < p.toNat + n ∧ mem a = 0) ∧
      ∀ a ∈ (scan mem n p).2, p.toNat ≤ a.toNat ∧ a.toNat < p.toNat + n := by
  induction n generalizing p with
  | zero =>
    refine ⟨⟨fun h => absurd h Bool.false_ne_true, fun ⟨a, hle, hlt, _⟩ => ?_⟩, fun a ha => absurd ha List.not_mem_nil⟩
    omega
  | succ n ih =>
    have hnext : (p + 1).toNat = p.toNat + 1 := by
      rw [UInt32.toNat_add, UInt32.toNat_one]
      omega
    rw [scan]
    split_ifs with hnul
    · refine ⟨⟨fun _ => ⟨p, le_rfl, by omega, hnul⟩, fun _ => rfl⟩, fun a ha => ?_⟩
      obtain rfl := List.mem_singleton.1 ha
      omega
    · obtain ⟨hfound, hreads⟩ := ih (p := p + 1) (by omega)
      rw [hnext] at hfound hreads
      constructor
      · rw [hfound]
        constructor
        · rintro ⟨a, hle, hlt, ha⟩
          exact ⟨a, by omega, by omega, ha⟩
        · rintro ⟨a, hle, hlt, ha⟩
          have hne : p.toNat ≠ a.toNat := fun he => hnul (UInt32.toNat_inj.1 he ▸ ha)
          exact ⟨a, by omega, by omega, ha⟩
      · intro a ha
        rcases List.mem_cons.1 ha with rfl | ha
        · omega
        · have := hreads a ha
          omega

/-- the loop in a region that the pointer is in -/
theorem scan_region {g : Region} {ptr : UInt32} (mem : UInt32 → UInt8) (h : g.Contains ptr.toNat) :
    ((scan mem (g.stop.toNat - ptr.toNat) ptr).1 = true ↔ g.Terminates mem ptr) ∧
      ∀ a ∈ (scan mem (g.stop.toNat - ptr.toNat) ptr).2, g.Contains a.toNat := by
  have hstop := g.stop.toNat_lt
  have hin := h.2
  have hend : ptr.toNat + (g.stop.toNat - ptr.toNat) = g.stop.toNat := by omega
  obtain ⟨hfound, hreads⟩ := scan_spec mem (n := g.stop.toNat - ptr.toNat) (p := ptr) (by omega)
  rw [hend] at hfound hreads
  refine ⟨?_, fun a ha => ⟨h.1.trans (hreads a ha).1, (hreads a ha).2⟩⟩
  rw [hfound, Region.Terminates, and_iff_right h]

/-- the pointer is in both regions, and only the second has a NUL for it -/
def Shadowed (r : Regions) (mem : UInt32 → UInt8) (ptr : UInt32) : Prop :=
  r.appbuf.Contains ptr.toNat ∧ ¬ r.appbuf.Terminates mem ptr ∧ r.appstack.Terminates mem ptr

/-- `user_str_ok` uses the first region the pointer is in -/
theorem userStrOk_iff (r : Regions) (mem : UInt32 → UInt8) (ptr : UInt32) :
    (userStrOk r mem ptr).1 = true ↔
      r.appbuf.Terminates mem ptr ∨ ¬ r.appbuf.Contains ptr.toNat ∧ r.appstack.Terminates mem ptr := by
  unfold userStrOk
  split_ifs with hbuf hstack
  · rw [← Region.contains_iff] at hbuf
    rw [(scan_region mem hbuf).1]
    tauto
  · rw [← Region.contains_iff] at hbuf hstack
    rw [(scan_region mem hstack).1]
    have := fun h : r.appbuf.Terminates mem ptr => hbuf h.1
    tauto
  · rw [← Region.contains_iff] at hbuf hstack
    have hno := fun h : r.appbuf.Terminates mem ptr => hbuf h.1
    have hno' := fun h : r.appstack.Terminates mem ptr => hstack h.1
    simp only [false_iff]
    tauto

/-- the scan stays in the region that has the NUL -/
theorem userStrOk_reads {r : Regions} {mem : UInt32 → UInt8} {ptr : UInt32} (h : (userStrOk r mem ptr).1 = true) :
    ∃ g, (g = r.appbuf ∨ g = r.appstack) ∧ g.Terminates mem ptr ∧ ∀ a ∈ (userStrOk r mem ptr).2, g.Contains a.toNat := by
  unfold userStrOk at h ⊢
  split_ifs at h ⊢ with hbuf hstack
  · obtain ⟨hfound, hreads⟩ := scan_region mem (Region.contains_iff.2 hbuf)
    exact ⟨_, .inl rfl, hfound.1 h, hreads⟩
  · obtain ⟨hfound, hreads⟩ := scan_region mem (Region.contains_iff.2 hstack)
    exact ⟨_, .inr rfl, hfound.1 h, hreads⟩

/-- **Exact acceptance of user pointers.** For all regions, memories, pointers and lengths: `user_range_ok` accepts exactly
the spans that one region covers, `user_str_ok` exactly the pointers with a NUL in a region they are in, and reads bytes of
that region only, unless the span is empty and stands at the end of a region, or the regions overlap at the pointer and
only the second has a NUL. -/
theorem user_pointers_exact (r : Regions) (mem : UInt32 → UInt8) (ptr len : UInt32) :
    ((userRangeOk r ptr len = true ↔ r.appbuf.Covers ptr len ∨ r.appstack.Covers ptr len) ∧
      ((userStrOk r mem ptr).1 = true ↔ r.appbuf.Terminates mem ptr ∨ r.appstack.Terminates mem ptr) ∧
      ((userStrOk r mem ptr).1 = true → ∃ g, (g = r.appbuf ∨ g = r.appstack) ∧ g.Terminates mem ptr ∧
        ∀ a ∈ (userStrOk r mem ptr).2, g.Contains a.toNat)) ↔
      ¬ AtEnd r ptr len ∧ ¬ Shadowed r mem ptr := by
  refine and_congr (userRangeOk_iff r ptr len) ?_
  rw [and_iff_left userStrOk_reads, userStrOk_iff, Shadowed]
  tauto

/-- **The empty span at the end of .appstack is accepted**, though its pointer is in neither region. -/
theorem empty_span_at_end_accepted :
    userRangeOk linked 0x214000 0 = true ∧
      ¬ (linked.appbuf.Covers 0x214000 0 ∨ linked.appstack.Covers 0x214000 0) := by
  refine ⟨by decide, ?_⟩
  rw [Region.covers_iff, Region.covers_iff]
  decide

/-- the addresses that `app_regions` is about are those whose byte is accepted -/
theorem Kernel.inRegions_iff (v : UInt32) : Kernel.InRegions v ↔ userRangeOk linked v 1 = true := by
  rw [userRangeOk, Bool.or_eq_true, addrRangeIn_iff, addrRangeIn_iff, Kernel.InRegions]
  simp only [linked, UInt32.reduceToNat]
  omega

/-! ## A task's own stack -/

open GannetOS.Core GannetOS.Mem

/-- the kernel, with the stack pages that were mapped for the task in each slot -/
structure Stacked where
  kernel : Kernel
  stack : Fin 8 → List UInt32

namespace Stacked

/-- the stack pages a creation maps: the first four of a spawned child's pages, and those `try_exec` maps behind the code -/
def mapped (s : Kernel) : Kernel.Op → List UInt32
  | .spawn => Kernel.childPages.take 4
  | .go =>
    match s.exec with
    | some (.build _ b _) => (List.range 4).map fun p => b.pageVaddr (b.codePages + p)
    | _ => []
  | _ => []

def init (s : Kernel) : Stacked := ⟨s, fun _ => []⟩

/-- the pages are noted for the slot that is filled in -/
def step (g : Stacked) (op : Kernel.Op) : Option ℤ × Stacked :=
  let r := g.kernel.step op
  (r.1, ⟨r.2, fun i => if ¬ g.kernel.Live i ∧ r.2.Live i then mapped g.kernel op else g.stack i⟩)

end Stacked

/-- every byte of the span is in one of the pages -/
def InPages (pages : List UInt32) (ptr len : UInt32) : Prop :=
  ∀ a, ptr.toNat ≤ a → a < ptr.toNat + len.toNat → ∃ v ∈ pages, v.toNat ≤ a ∧ a < v.toNat + 4096

/-- where the stack pages of a task are -/
structure StackAt (t : Task) (pages : List UInt32) : Prop where
  app : t.parentId = -1 → ∀ v ∈ pages, ∃ p < 4, v = pageAddr appStackVaddr p
  child : t.parentId ≠ -1 → pages = Kernel.childPages.take 4

namespace Kernel

variable {s s' : Kernel} {op : Op} {r : Option ℤ}

/-- a task after a step was there before, with the same parent, or has just been created -/
theorem Moves.parent (hm : Moves s op r s') (h : s.SchedInv) {i : Fin 8} (hi : s'.Live i) :
    s.Live i ∧ (s'.tasks i).parentId = (s.tasks i).parentId ∨ ¬ s.Live i ∧ StackAt (s'.tasks i) (Stacked.mapped s op) := by
  have hnew {k : Fin 8} {m : Paging} {d : DirRef} {ring3 : Bool} {parent : ℤ} (hk : s.freeSlot = some k)
      (hi : ({ s with mem := m }.install k d ring3 parent).Live i)
      (hstack : ∀ t : Task, t.parentId = parent → StackAt t (Stacked.mapped s op)) :
      s.Live i ∧ (({ s with mem := m }.install k d ring3 parent).tasks i).parentId = (s.tasks i).parentId ∨
        ¬ s.Live i ∧ StackAt (({ s with mem := m }.install k d ring3 parent).tasks i) (Stacked.mapped s op) := by
    rw [Live, install_tasks] at hi
    rw [install_tasks]
    by_cases hik : i = k
    · rw [if_pos hik]
      exact .inr ⟨fun hl => hl (hik ▸ freeSlot_unused hk), hstack _ rfl⟩
    · rw [if_neg hik] at hi ⊢
      exact .inl ⟨hi, rfl⟩
  cases hm with
  | scheduled => exact .inl ⟨((sameFamily_schedule s).live i).1 hi, (sameFamily_schedule s).parentId i⟩
  | exited => exact .inl ⟨((sameFamily_exit h).live i).1 hi, (sameFamily_exit h).parentId i⟩
  | created k d m _ hc hk =>
    refine hnew hk hi fun t ht => ?_
    cases hc with
    | task => exact ⟨fun _ v hv => absurd hv List.not_mem_nil, fun hne => absurd ht hne⟩
    | ring3 => exact ⟨fun _ v hv => absurd hv List.not_mem_nil, fun hne => absurd ht hne⟩
    | child =>
      have hid := (h.ids s.current h.current_live).1
      refine ⟨fun he => ?_, fun _ => rfl⟩
      rw [ht] at he
      omega
  | execCreated d b p k f m he _ hk =>
    refine hnew hk hi fun t ht => ⟨fun _ v hv => ?_, fun hne => absurd ht hne⟩
    simp only [Stacked.mapped, he.exec] at hv
    obtain ⟨p, hp, rfl⟩ := List.mem_map.1 hv
    refine ⟨p, List.mem_range.1 hp, ?_⟩
    rw [Blob.pageVaddr, if_neg (by omega), Nat.add_sub_cancel_left]
  | execReaps | reapCalled | reapsChild =>
    rw [Live, taskReap_tasks] at hi
    rw [taskReap_tasks]
    exact .inl ⟨hi, rfl⟩
  | reaped q rest hj hq =>
    have hi : (s.freeTask q.slot).Live i := hi
    rw [Live, freeTask_tasks] at hi
    split_ifs at hi with hiq
    · exact absurd rfl hi
    · refine .inl ⟨hi, ?_⟩
      show ((s.freeTask q.slot).tasks i).parentId = _
      rw [freeTask_tasks, if_neg hiq]
  | _ => exact .inl ⟨hi, rfl⟩

end Kernel

/-- the scheduler is in order, and every task's stack is where its creator maps it -/
structure StackInv (g : Stacked) : Prop where
  sched : g.kernel.SchedInv
  stack : ∀ i, g.kernel.Live i → StackAt (g.kernel.tasks i) (g.stack i)

theorem StackInv.step {g : Stacked} (h : StackInv g) {op : Kernel.Op} (hop : g.kernel.Proper op) :
    StackInv (g.step op).2 := by
  have hmoves := g.kernel.step_moves op
  refine ⟨h.sched.moves hmoves hop.1, fun i hi => ?_⟩
  dsimp only [Stacked.step] at hi ⊢
  rcases hmoves.parent h.sched hi with ⟨hold, hsame⟩ | ⟨hnew, hat⟩
  · rw [if_neg fun hn => hn.1 hold]
    have hat := h.stack i hold
    exact ⟨fun he => hat.app (hsame ▸ he), fun he => hat.child (hsame ▸ he)⟩
  · rw [if_pos ⟨hnew, hi⟩]
    exact hat

theorem stackInv_boot {l : Kernel.Layout} {s₀ : Kernel} (hboot : Kernel.boot l = some s₀) : StackInv (.init s₀) := by
  have hsched := Kernel.schedInv_boot hboot
  refine ⟨hsched, fun i hi => ⟨fun _ v hv => absurd hv List.not_mem_nil, fun hne => absurd ?_ hne⟩⟩
  obtain ⟨m, -, rfl⟩ := Option.map_eq_some_iff.1 hboot
  have h0 : i = 0 := by_contra fun hne => by simp [Kernel.Live, Kernel.taskInit, Stacked.init, hne] at hi
  simp [Stacked.init, Kernel.taskInit, h0]

/-- a span in the pages `try_exec` maps for a stack lies in .appstack -/
theorem StackAt.accepted {t : Task} {pages : List UInt32} (h : StackAt t pages) (happ : t.parentId = -1) {ptr len : UInt32}
    (hlen : 0 < len) (hin : InPages pages ptr len) : userRangeOk linked ptr len = true := by
  have hpage (a : ℕ) (ha : ptr.toNat ≤ a) (ha' : a < ptr.toNat + len.toNat) : 0x210000 ≤ a ∧ a < 0x214000 := by
    obtain ⟨v, hv, hle, hlt⟩ := hin a ha ha'
    obtain ⟨p, hp, rfl⟩ := h.app happ v hv
    have haddr : ∀ p < 4, (pageAddr appStackVaddr p).toNat = 0x210000 + p * 4096 := by decide
    rw [haddr p hp] at hle hlt
    omega
  rw [UInt32.lt_iff_toNat_lt, UInt32.toNat_zero] at hlen
  have hfirst := hpage ptr.toNat le_rfl (by omega)
  have hlast := hpage (ptr.toNat + len.toNat - 1) (by omega) (by omega)
  rw [userRangeOk, Bool.or_eq_true, addrRangeIn_iff, addrRangeIn_iff]
  right
  simp only [linked, UInt32.reduceToNat]
  omega

/-- the first four of a child's pages are its stack, the fifth is its private page -/
theorem Kernel.childPages_stack : Kernel.childPages.take 4 = (List.range 4).map (pageAddr childStackVaddr) :=
  List.take_left' (by simp)

/-- a span in the pages a child's stack is mapped at lies above both regions -/
theorem StackAt.rejected {t : Task} {pages : List UInt32} (h : StackAt t pages) (hchild : t.parentId ≠ -1)
    {ptr len : UInt32} (hlen : 0 < len) (hin : InPages pages ptr len) : userRangeOk linked ptr len = false := by
  rw [UInt32.lt_iff_toNat_lt, UInt32.toNat_zero] at hlen
  obtain ⟨v, hv, hle, -⟩ := hin ptr.toNat le_rfl (by omega)
  rw [h.child hchild, Kernel.childPages_stack] at hv
  obtain ⟨p, hp, rfl⟩ := List.mem_map.1 hv
  have habove : ∀ p < 4, 0x214000 < (pageAddr childStackVaddr p).toNat := by decide
  have hptr := (habove p (List.mem_range.1 hp)).trans_le hle
  rw [Bool.eq_false_iff, ne_eq, userRangeOk, Bool.or_eq_true, addrRangeIn_iff, addrRangeIn_iff]
  simp only [linked, UInt32.reduceToNat]
  omega

/-- the first byte of a child's stack -/
theorem inPages_child : InPages (Kernel.childPages.take 4) childStackVaddr 1 := by
  intro a ha ha'
  rw [Kernel.childPages_stack]
  refine ⟨childStackVaddr, List.mem_map.2 ⟨0, List.mem_range.2 (by decide), by decide⟩, ha, ha'.trans ?_⟩
  exact Nat.add_lt_add_left (by decide) _

/-- **Which tasks may pass their own stack.** In every state of every run from boot in which task 0 does not exit and ids
stay within an int, for every task: `user_range_ok` accepts all non-empty spans inside the stack pages that were mapped for the task exactly if the task
was not spawned by another. -/
theorem own_stack_accepted {l : Kernel.Layout} {s₀ : Kernel} (hboot : Kernel.boot l = some s₀) {g : Stacked}
    {tr : List (Kernel.Op × Option ℤ)} (hrun : Run Stacked.step (fun g op => g.kernel.Proper op) (.init s₀) tr g)
    {i : Fin 8} (hi : g.kernel.Live i) :
    (∀ ptr len, 0 < len → InPages (g.stack i) ptr len → userRangeOk linked ptr len = true) ↔
      (g.kernel.tasks i).parentId = -1 := by
  have hstep (g : Stacked) (op : Kernel.Op) (hg : StackInv g) (hop : g.kernel.Proper op) : StackInv (g.step op).2 :=
    hg.step hop
  have hat := (hrun.invariant hstep (stackInv_boot hboot)).stack i hi
  refine ⟨fun hall => by_contra fun hchild => ?_, fun happ ptr len hlen hin => hat.accepted happ hlen hin⟩
  have hin : InPages (g.stack i) childStackVaddr 1 := by
    rw [hat.child hchild]
    exact inPages_child
  exact absurd (hall _ _ (by decide) hin) (by rw [hat.rejected hchild (by decide) hin]; exact Bool.false_ne_true)

/-- a launch up to the running program -/
def launchOps : List Kernel.Op := [.exec Kernel.oneByte, .go, .go, .go, .go, .go, .go, .go]

/-- the program's own task, on the CPU: 16 bytes at the top of its stack are accepted -/
theorem own_stack_accepted_app : ∃ tr g, Run Stacked.step (fun g op => g.kernel.Proper op) (.init Kernel.vgaBoot) tr g ∧
    g.kernel.current = 1 ∧ InPages (g.stack 1) 0x213FF0 16 ∧ userRangeOk linked 0x213FF0 16 = true := by
  have hok : AllOk Stacked.step (fun g op => g.kernel.Proper op) (.init Kernel.vgaBoot) launchOps := by decide +kernel
  obtain ⟨tr, hrun⟩ := Run.of_allOk hok
  have hlive : (runOps Stacked.step (.init Kernel.vgaBoot) launchOps).kernel.Live 1 := by decide +kernel
  have hparent : ((runOps Stacked.step (.init Kernel.vgaBoot) launchOps).kernel.tasks 1).parentId = -1 := by decide +kernel
  have hstack : 0x213000 ∈ (runOps Stacked.step (.init Kernel.vgaBoot) launchOps).stack 1 := by decide +kernel
  have hin : InPages ((runOps Stacked.step (.init Kernel.vgaBoot) launchOps).stack 1) 0x213FF0 16 := by
    intro a ha ha'
    simp only [UInt32.reduceToNat] at ha ha'
    exact ⟨_, hstack, by simp only [UInt32.reduceToNat]; omega, by simp only [UInt32.reduceToNat]; omega⟩
  refine ⟨tr, _, hrun, by decide +kernel, hin, ?_⟩
  exact (own_stack_accepted Kernel.boot_vgaLayout hrun hlive).2 hparent _ _ (by decide) hin

/-- **A spawned child may not.** The program spawns a child, which gets the CPU: no byte of the stack that was mapped for it,
and that it reaches in user mode, is accepted. -/
theorem child_stack_rejected : ∃ tr g, Run Stacked.step (fun g op => g.kernel.Proper op) (.init Kernel.vgaBoot) tr g ∧
    g.kernel.current = 2 ∧ (g.kernel.tasks 2).isRing3 = true ∧ InPages (g.stack 2) 0x50003FF0 16 ∧
    (g.kernel.seesPage 2 0x50003FF0).isSome = true ∧
    ∀ ptr len, 0 < len → InPages (g.stack 2) ptr len → userRangeOk linked ptr len = false := by
  let ops : List Kernel.Op := launchOps ++ [Kernel.Op.spawn, Kernel.Op.tick]
  have hok : AllOk Stacked.step (fun g op => g.kernel.Proper op) (.init Kernel.vgaBoot) ops := by decide +kernel
  obtain ⟨tr, hrun⟩ := Run.of_allOk hok
  have hstep (g : Stacked) (op : Kernel.Op) (hg : StackInv g) (hop : g.kernel.Proper op) : StackInv (g.step op).2 :=
    hg.step hop
  have hat := (hrun.invariant hstep (stackInv_boot Kernel.boot_vgaLayout)).stack 2 (by decide +kernel)
  have hchild : ((runOps Stacked.step (.init Kernel.vgaBoot) ops).kernel.tasks 2).parentId ≠ -1 := by decide +kernel
  have hstack : 0x50003000 ∈ (runOps Stacked.step (.init Kernel.vgaBoot) ops).stack 2 := by decide +kernel
  refine ⟨tr, _, hrun, by decide +kernel, by decide +kernel, fun a ha ha' => ⟨_, hstack, ?_, ?_⟩, by decide +kernel,
    fun ptr len => hat.rejected hchild⟩
  · simp only [UInt32.reduceToNat] at ha ⊢
    omega
  · simp only [UInt32.reduceToNat] at ha' ⊢
    omega

end GannetOS.Proc
