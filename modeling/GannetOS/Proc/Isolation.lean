/-
Private memory of tasks: no use after free, and no sharing outside a family.

A spawned child shows slot 0 of its parent's directory: the code, data and stack of the app at the root of its family.
`task_reap` gives back a task's frames only after it has reaped the task's children, so what a child shows stays
allocated, provided that no two `task_reap` calls of one id are in progress at once (`Apart`).

- `Family`: parents of live tasks are live, every `task_reap` in progress is on a zombie of its own, and no child it has
  passed is left;
- `SpaceOf`: what a task's directory shows is the kernel's, its own, or slot 0 of an ancestor;
- `isolation`: in every state of every such run a user-accessible pool frame is allocated, and shared only inside a family;
- `reap_overlap_frees_shared`: with two `task_reap` calls of one id, a live task shows frames that are free.
-/
import GannetOS.Proc.Pools

namespace GannetOS.Mem.Paging

/-! ## What user code can reach -/

variable {m : Paging} {d : DirRef} {v : UInt32} {f : Frame}

/-- the pool frame that user code reaches at `v` through directory `d`: PAGE_PRESENT and PAGE_USER in both entries -/
def userFrame (m : Paging) (d : DirRef) (v : UInt32) : Option Frame :=
  let e := m.dir d (pdIndex v)
  let t := m.tab e.table (ptIndex v)
  if e.present ∧ e.user ∧ t.user then t.frame else none

theorem userFrame_eq_some : m.userFrame d v = some f ↔
    (m.dir d (pdIndex v)).present = true ∧ (m.dir d (pdIndex v)).user = true ∧
    (m.tab (m.dir d (pdIndex v)).table (ptIndex v)).user = true ∧
    (m.tab (m.dir d (pdIndex v)).table (ptIndex v)).frame = some f := by
  simp only [userFrame]
  split_ifs with h
  · simp [h]
  · simp only [false_iff]
    tauto

variable {k : Fin 20} {i : Fin 8}

/-- an owned table that shows the frame -/
theorem entry_of_userFrame (h : m.userFrame d v = some f) (hk : (m.dir d (pdIndex v)).table = .priv k)
    (hown : m.owner k ≠ none) : m.Entry k (ptIndex v) f := by
  obtain ⟨-, -, -, hf⟩ := userFrame_eq_some.1 h
  exact ⟨hown, ptIndex_lt v, hk ▸ hf⟩

/-- a slot of the kernel's other than its scratch slot shows user code no pool frame -/
theorem KernelMap.no_userFrame (hk : m.KernelMap) (hslot : m.dir d (pdIndex v) = m.dir .kernel (pdIndex v))
    (h256 : pdIndex v ≠ 256) : m.userFrame d v = none := by
  by_contra hne
  obtain ⟨f, hf⟩ := Option.ne_none_iff_exists'.1 hne
  obtain ⟨hp, hu, -, hf⟩ := userFrame_eq_some.1 hf
  rw [hslot] at hp hu hf
  have h0 := hk.user _ (pdIndex_lt v) h256 hu
  have := hk.clean (pdIndex_lt v) h256 (.inl (by omega)) (ptIndex_lt v)
  rw [Paging.copied, if_pos hp, hf] at this
  cases this

/-- in a private space user code reaches frames of tables of its own, but for slot 0 -/
theorem Private.userFrame {pd p : ℕ} {idx : ℕ → ℕ} (h : m.Private d pd idx p 1) (hk : m.KernelMap)
    (hf : m.userFrame d v = some f) :
    (∃ k, (m.dir d (pdIndex v)).table = .priv k ∧ m.owner k = some d) ∨ pdIndex v = 0 := by
  by_cases h0 : pdIndex v = 0
  · exact .inr h0
  left
  by_cases h256 : pdIndex v = 256
  · obtain ⟨k, hdir, hown, -⟩ := h.scratch.table Nat.one_pos
    exact ⟨k, by rw [h256, hdir], hown⟩
  have hnot : m.dir d (pdIndex v) ≠ m.dir .kernel (pdIndex v) := fun hslot => by
    rw [hk.no_userFrame hslot h256] at hf
    cases hf
  by_cases hpd : pdIndex v = pd
  · rcases Nat.eq_zero_or_pos p with hp | hp
    · exact absurd (hpd ▸ h.main.shown hp) hnot
    · obtain ⟨k, hdir, hown, -⟩ := h.main.table hp
      exact ⟨k, by rw [hpd, hdir], hown⟩
  · exact absurd (h.rest _ h0 hpd h256) hnot

/-! ## Releasing a directory with a scratch page only -/

attribute [ext] Paging

theorem MemInv.holds_scratch {m₀ : Paging} (h : MemInv m₀ m) (hdir : m.dir (.task i) 256 = ⟨.priv k, true, true⟩)
    (hown : m.owner k = some (.task i)) (honly : ∀ l, m.owner l = some (.task i) → l = k) :
    m.Holds (.task i) f ↔ (m.tab (.priv k) 0).frame = some f := by
  constructor
  · rintro ⟨l, j, hl, -, hj, hf⟩
    obtain rfl := honly l hl
    obtain ⟨pd, idx, p, q, -, hp⟩ := h.space hown
    have hq : 0 < q := Nat.pos_of_ne_zero fun hq =>
      h.kernel.not_ownsSlot (by simp) (by decide) (hp.scratch.shown hq) ⟨by rw [hdir], l, by rw [hdir], hown⟩
    obtain ⟨l', hdir', -, -, hrest⟩ := hp.scratch.table hq
    obtain rfl : l = l' := TableRef.priv.inj (congrArg Pde.table (hdir.symm.trans hdir'))
    by_cases hj0 : j = 0
    · rwa [← hj0]
    · rw [hrest j fun _ _ => hj0] at hf
      exact absurd (h.kernel.copied_scratch hj (by simp [hf])) hj0
  · exact fun hf => ⟨k, 0, hown, by simp [hown], by decide, hf⟩

/-- the fields of a directory's memory after it has been given back, from those after its pages have -/
theorem freeDirectory_fields {m' : Paging} {owner : Fin 20 → Option DirRef} {bitmap : Frame → Bool}
    (hfree : FreedUpTo m (.task i) pageEntries m') (howner : m'.owner = owner) (hbitmap : m'.bitmap = bitmap) :
    m'.freeDirectory (.task i) =
      { m with
        dir := Function.update m.dir (.task i) (m'.dir (.task i))
        dirUsed := Function.update m.dirUsed i false
        owner := owner
        bitmap := bitmap } := by
  ext1
  · funext x
    by_cases hx : x = .task i
    · simp [freeDirectory, hx]
    · simpa [freeDirectory, hx] using hfree.other x hx
  · exact hfree.tab
  · exact hfree.nextTable
  · simp [freeDirectory, hfree.dirUsed]
  · exact howner
  · exact hbitmap
  · exact hfree.ram

/-- directory `i` and its table `k` given back, with the frame at the table's entry 0 -/
def withoutScratch (m : Paging) (i : Fin 8) (k : Fin 20) : Paging :=
  { m with
    dir := Function.update m.dir (.task i) ((m.freePrivatePages (.task i)).dir (.task i))
    dirUsed := Function.update m.dirUsed i false
    owner := Function.update m.owner k none
    bitmap := fun f => m.bitmap f && !decide ((m.tab (.priv k) 0).frame = some f) }

theorem MemInv.release_scratch {m₀ : Paging} (h : MemInv m₀ m) (hdir : m.dir (.task i) 256 = ⟨.priv k, true, true⟩)
    (hown : m.owner k = some (.task i)) (honly : ∀ l, m.owner l = some (.task i) → l = k) :
    m.release (.task i) = m.withoutScratch i k := by
  refine freeDirectory_fields (m.freePrivatePages_freed (.task i)) (funext fun l => ?_) (funext fun f => ?_)
  · rw [h.owned.free_owner, Function.update_apply]
    by_cases hl : l = k
    · simp [hl, hown]
    · simp [hl, mt (honly l) hl]
  · rw [Bool.eq_iff_iff, h.owned.free_bitmap, h.holds_scratch hdir hown honly]
    simp

end GannetOS.Mem.Paging

namespace GannetOS.Proc.Kernel

open GannetOS.Core GannetOS.Mem GannetOS.Mem.Paging Relation List
open Function (update update_apply)

variable {s s' s₀ : Kernel} {op : Op} {r : Option ℤ}

/-! ## Families -/

/-- slot `j` holds a task that was spawned by the task with that id -/
def Child (s : Kernel) (j : Fin 8) (id : ℤ) : Prop := s.Live j ∧ (s.tasks j).parentId = id

/-- task `j` was spawned by task `i` -/
def Parent (s : Kernel) (i j : Fin 8) : Prop := s.Live i ∧ s.Child j (s.tasks i).id

/-- through parent_id -/
def Ancestor (s : Kernel) : Fin 8 → Fin 8 → Prop := TransGen s.Parent

/-- the children that the `task_reap` calls of a stack have passed are gone, but for the one that the call above is
reaping -/
def Scanned (child : Fin 8 → ℤ → Prop) : Option (Fin 8) → List Reap → Prop
  | _, [] => True
  | top, q :: rest => (∀ j : Fin 8, j.val < q.j → child j q.id → top = some j) ∧ Scanned child (some q.slot) rest

theorem Scanned.mono {c c' : Fin 8 → ℤ → Prop} : ∀ {qs : List Reap} {top : Option (Fin 8)}, Scanned c top qs →
    (∀ q ∈ qs, ∀ j, c' j q.id → c j q.id) → Scanned c' top qs
  | [], _, _, _ => trivial
  | q :: rest, _, h, hc =>
    ⟨fun j hj hcj => h.1 j hj (hc q (by simp) j hcj), Scanned.mono h.2 fun q' hq' => hc q' (by simp [hq'])⟩

variable {i j : Fin 8} {qs rest : List Reap} {q : Reap} {l : Layout} {d x : DirRef} {m : Paging}

/-- the call above has returned, and what it reaped is gone -/
theorem Scanned.returned {c c' : Fin 8 → ℤ → Prop} (h : Scanned c (some i) qs)
    (hc : ∀ j id, c' j id → c j id ∧ j ≠ i) : Scanned c' none qs := by
  cases qs with
  | nil => trivial
  | cons q rest =>
    refine ⟨fun j hj hcj => ?_, h.2.mono fun q' _ j hcj => (hc j _ hcj).1⟩
    obtain ⟨hold, hne⟩ := hc j q.id hcj
    exact absurd (Option.some.inj (h.1 j hj hold)).symm hne

/-- the task table as a forest, and the `task_reap` calls in progress in it -/
structure Family (s : Kernel) : Prop where
  parents : ∀ j, s.Live j → (s.tasks j).parentId = -1 ∨ ∃ i, s.Parent i j
  zombie : ∀ t, ∀ q ∈ s.reaps t, (s.tasks q.slot).state = .zombie ∧ (s.tasks q.slot).id = q.id
  apart : ∀ t t', ∀ q ∈ s.reaps t, ∀ q' ∈ s.reaps t', q.id = q'.id → t = t'
  nodup : ∀ t, ((s.reaps t).map Reap.id).Nodup
  scanned : ∀ t, Scanned s.Child none (s.reaps t)

/-- the id whose `task_reap` the operation enters: a call, the cascade to a child, or the end of `try_exec`'s wait -/
def entersReap (s : Kernel) : Op → Option ℤ
  | .reap id => if s.Busy then none else some id
  | .go =>
    match s.reaps s.current with
    | q :: _ =>
      if h : q.j < 8 then
        if q.waiting ∧ (s.tasks ⟨q.j, h⟩).state = .zombie then some (s.tasks ⟨q.j, h⟩).id else none
      else none
    | [] =>
      match s.exec with
      | some (.wait _ _ id) => if s.current = 0 ∧ s.taskIsZombie id then some id else none
      | _ => none
  | _ => none

/-- task 0 does not exit, ids stay within an int, and no `task_reap` is entered while another of the same id is in
progress -/
def Apart (s : Kernel) (op : Op) : Prop :=
  s.Proper op ∧ ∀ id ∈ s.entersReap op, ∀ t, ∀ q ∈ s.reaps t, q.id ≠ id

instance (s : Kernel) (op : Op) : Decidable (s.Apart op) := by
  unfold Apart
  infer_instance

/-! ## Steps on families -/

/-- the family tree and the calls in progress are the same, and zombies stay zombies -/
structure SameFamily (s s' : Kernel) : Prop where
  live : ∀ i, s'.Live i ↔ s.Live i
  id : ∀ i, (s'.tasks i).id = (s.tasks i).id
  parentId : ∀ i, (s'.tasks i).parentId = (s.tasks i).parentId
  zombie : ∀ i, (s.tasks i).state = .zombie → (s'.tasks i).state = .zombie
  reaps : s'.reaps = s.reaps

theorem SameFamily.child (h : SameFamily s s') : s'.Child = s.Child := by
  funext j id
  simp only [Child, h.live, h.parentId]

theorem SameFamily.parent (h : SameFamily s s') : s'.Parent = s.Parent := by
  funext i j
  simp only [Parent, h.live, h.id, h.child]

theorem SameFamily.trans {s'' : Kernel} (h : SameFamily s s') (h' : SameFamily s' s'') : SameFamily s s'' :=
  ⟨fun i => (h'.live i).trans (h.live i), fun i => (h'.id i).trans (h.id i),
    fun i => (h'.parentId i).trans (h.parentId i), fun i hi => h'.zombie i (h.zombie i hi), h'.reaps.trans h.reaps⟩

theorem Family.of_same (h : s.Family) (hs : SameFamily s s') : s'.Family := by
  refine ⟨fun j hj => ?_, fun t q hq => ?_, ?_, ?_, ?_⟩
  · rw [hs.parentId, hs.parent]
    exact h.parents j ((hs.live j).1 hj)
  · rw [hs.reaps] at hq
    rw [hs.id]
    exact ⟨hs.zombie _ (h.zombie t q hq).1, (h.zombie t q hq).2⟩
  · rw [hs.reaps]
    exact h.apart
  · rw [hs.reaps]
    exact h.nodup
  · rw [hs.reaps, hs.child]
    exact h.scanned

theorem sameFamily_switchTo {n : Fin 8} (hn : n ≠ s.current) (hready : (s.tasks n).state = .ready) :
    SameFamily s (s.switchTo s.current n) := by
  refine ⟨switchTo_live hn hready, switchTo_id hn, fun i => ?_, fun i hi => ?_, switchTo_reaps _ _⟩
  · rw [switchTo_tasks hn]
    split_ifs <;> simp_all
  · rw [switchTo_tasks hn]
    split_ifs <;> simp_all

theorem sameFamily_schedule (s : Kernel) : SameFamily s s.schedule := by
  rcases s.schedule_cases with he | ⟨n, hn, hready, he⟩
  · rw [he]
    exact ⟨fun _ => Iff.rfl, fun _ => rfl, fun _ => rfl, fun _ hi => hi, rfl⟩
  · rw [he]
    exact sameFamily_switchTo hn hready

theorem sameFamily_exit (h : s.SchedInv) : SameFamily s s.taskExit := by
  refine SameFamily.trans ?_ (sameFamily_schedule _)
  refine ⟨fun i => ?_, fun i => ?_, fun i => ?_, fun i hi => ?_, rfl⟩
  · simp only [Live, setState_tasks]
    split_ifs with hi <;> simp [hi, h.running]
  · rw [setState_tasks]
    split_ifs with hi <;> simp [hi]
  · rw [setState_tasks]
    split_ifs with hi <;> simp [hi]
  · rw [setState_tasks]
    split_ifs with hic <;> simp [hi]

/-- the calls in progress after a creation -/
theorem install_reaps (m : Paging) (i : Fin 8) (d : DirRef) (ring3 : Bool) (parent : ℤ) (t : Fin 8) :
    ({ s with mem := m }.install i d ring3 parent).reaps t = if t = i then [] else s.reaps t := by
  simp only [install, update_apply]

/-- old parents stay parents when a slot is filled -/
theorem parent_install (hi : (s.tasks i).state = .unused) (m : Paging) (d : DirRef) (ring3 : Bool) (parent : ℤ)
    {a : Fin 8} (h : s.Parent a j) : ({ s with mem := m }.install i d ring3 parent).Parent a j := by
  have hne : ∀ x, s.Live x → x ≠ i := by
    rintro x hx rfl
    exact hx hi
  have ha := hne a h.1
  have hj := hne j h.2.1
  simp only [Parent, Child, Live, install_tasks, if_neg ha, if_neg hj]
  exact h

/-- **A new task joins the family of the running task, or starts one.** -/
theorem Family.install (h : s.Family) (hs : s.SchedInv) (hi : (s.tasks i).state = .unused) (m : Paging) (d : DirRef)
    (ring3 : Bool) {parent : ℤ} (hparent : parent = -1 ∨ parent = (s.tasks s.current).id) :
    ({ s with mem := m }.install i d ring3 parent).Family := by
  have htask := install_tasks (s := s) m i d ring3 parent
  have hreaps : ∀ t q, q ∈ ({ s with mem := m }.install i d ring3 parent).reaps t → q ∈ s.reaps t := by
    intro t q hq
    rw [install_reaps] at hq
    split_ifs at hq
    · cases hq
    · exact hq
  -- nobody is reaping the running task, and no task has id -1
  have hfresh : ∀ t, ∀ q ∈ s.reaps t, parent ≠ q.id := by
    intro t q hq
    obtain ⟨hz, hid⟩ := h.zombie t q hq
    have hl : s.Live q.slot := by simp [Live, hz]
    rcases hparent with rfl | rfl
    · have := (hs.ids _ hl).1
      omega
    · intro he
      have := hs.distinct _ _ hs.current_live hl (he.trans hid.symm)
      rw [← this, hs.running] at hz
      cases hz
  refine ⟨fun j hj => ?_, fun t q hq => ?_, fun t t' q hq q' hq' => h.apart t t' q (hreaps t q hq) q' (hreaps t' q' hq'),
    fun t => ?_, fun t => ?_⟩
  · by_cases hji : j = i
    · subst hji
      rcases hparent with rfl | rfl
      · exact .inl (by rw [htask, if_pos rfl])
      · have hcur := (hs.free_ne hi).1
        refine .inr ⟨s.current, ?_, ?_, ?_⟩
        · rw [Live, htask, if_neg hcur]
          exact hs.current_live
        · exact hj
        · rw [htask, htask, if_pos rfl, if_neg hcur]
    · rw [Live, htask, if_neg hji] at hj
      rw [htask, if_neg hji]
      exact (h.parents j hj).imp_right (Exists.imp fun p hp => parent_install hi m d ring3 parent hp)
  · obtain ⟨hz, hid⟩ := h.zombie t q (hreaps t q hq)
    have hne : q.slot ≠ i := by
      intro he
      rw [he, hi] at hz
      cases hz
    rw [htask, if_neg hne]
    exact ⟨hz, hid⟩
  · rw [install_reaps]
    split_ifs
    · exact nodup_nil
    · exact h.nodup t
  · rw [install_reaps]
    split_ifs
    · trivial
    · refine (h.scanned t).mono fun q hq j hc => ?_
      have hji : j ≠ i := by
        rintro rfl
        have := hc.2
        rw [htask, if_pos rfl] at this
        exact hfresh t q hq this
      simpa only [Child, Live, htask, if_neg hji] using hc

theorem mem_setReaps {t : Fin 8} (h : q ∈ (s.setReaps qs).reaps t) :
    t = s.current ∧ q ∈ qs ∨ t ≠ s.current ∧ q ∈ s.reaps t := by
  simp only [Kernel.setReaps, update_apply] at h
  split_ifs at h with ht
  · exact .inl ⟨ht, h⟩
  · exact .inr ⟨ht, h⟩

/-- a change of the running task's calls alone -/
theorem Family.setReaps (h : s.Family)
    (hz : ∀ q ∈ qs, (s.tasks q.slot).state = .zombie ∧ (s.tasks q.slot).id = q.id)
    (hap : ∀ t, t ≠ s.current → ∀ q ∈ qs, ∀ q' ∈ s.reaps t, q.id ≠ q'.id) (hnodup : (qs.map Reap.id).Nodup)
    (hsc : Scanned s.Child none qs) : (s.setReaps qs).Family := by
  refine ⟨h.parents, fun t q hq => ?_, fun t t' q hq q' hq' he => ?_, fun t => ?_, fun t => ?_⟩
  · rcases mem_setReaps hq with ⟨-, hq⟩ | ⟨-, hq⟩
    · exact hz q hq
    · exact h.zombie t q hq
  · rcases mem_setReaps hq with ⟨ht, hq⟩ | ⟨ht, hq⟩ <;> rcases mem_setReaps hq' with ⟨ht', hq'⟩ | ⟨ht', hq'⟩
    · exact ht.trans ht'.symm
    · exact absurd he (hap t' ht' q hq q' hq')
    · exact absurd he.symm (hap t ht q' hq' q hq)
    · exact h.apart t t' q hq q' hq' he
  · simp only [Kernel.setReaps, update_apply]
    split_ifs
    · exact hnodup
    · exact h.nodup t
  · simp only [Kernel.setReaps, update_apply]
    split_ifs
    · exact hsc
    · exact h.scanned t

/-- `task_reap` of a zombie enters with its slot -/
theorem SchedInv.taskReap_zombie (h : s.SchedInv) (hz : (s.tasks i).state = .zombie) :
    s.taskReap (s.tasks i).id = s.setReaps (⟨i, (s.tasks i).id, 0, false⟩ :: s.reaps s.current) := by
  unfold Kernel.taskReap
  cases hf : (List.finRange 8).find? fun j => (s.tasks j).id = (s.tasks i).id ∧ (s.tasks j).state = .zombie with
  | none =>
    have := List.find?_eq_none.1 hf i (mem_finRange i)
    simp [hz] at this
  | some j =>
    have hj : (s.tasks j).id = (s.tasks i).id ∧ (s.tasks j).state = .zombie := by simpa using find?_some hf
    obtain rfl := h.distinct j i (by simp [Live, hj.2]) (by simp [Live, hz]) hj.1
    rfl

/-- **A `task_reap` is entered**, above calls that have passed nobody but its zombie. -/
theorem Family.enter (h : s.Family) (hz : (s.tasks i).state = .zombie)
    (hqs : ∀ q ∈ qs, (s.tasks q.slot).state = .zombie ∧ (s.tasks q.slot).id = q.id)
    (hap : ∀ t, t ≠ s.current → ∀ q ∈ qs, ∀ q' ∈ s.reaps t, q.id ≠ q'.id) (hnodup : (qs.map Reap.id).Nodup)
    (hnew : ∀ q ∈ qs, q.id ≠ (s.tasks i).id) (hnew' : ∀ t, ∀ q ∈ s.reaps t, q.id ≠ (s.tasks i).id)
    (hsc : Scanned s.Child (some i) qs) : (s.setReaps (⟨i, (s.tasks i).id, 0, false⟩ :: qs)).Family := by
  refine h.setReaps (List.forall_mem_cons.2 ⟨⟨hz, rfl⟩, hqs⟩)
    (fun t ht => List.forall_mem_cons.2 ⟨fun q' hq' => (hnew' t q' hq').symm, hap t ht⟩) ?_ ⟨by simp, hsc⟩
  rw [map_cons, nodup_cons]
  refine ⟨fun hmem => ?_, hnodup⟩
  obtain ⟨q, hq, he⟩ := List.mem_map.1 hmem
  exact hnew q hq he

theorem Family.taskReap (h : s.Family) (hempty : s.reaps s.current = []) {id : ℤ}
    (hnew : ∀ t, ∀ q ∈ s.reaps t, q.id ≠ id) : (s.taskReap id).Family := by
  rcases s.taskReap_cases id with he | ⟨i, rfl, hz, he⟩
  · rwa [he]
  · rw [he, hempty]
    exact h.enter hz (by simp) (by simp) (by simp) (by simp) hnew trivial

/-- the innermost `task_reap` of the running task goes on to `q'` -/
theorem Family.advance (h : s.Family) {q' : Reap} (hq : s.reaps s.current = q :: rest) (hslot : q'.slot = q.slot)
    (hid : q'.id = q.id) (hsc : ∀ j : Fin 8, j.val < q'.j → ¬ s.Child j q.id) :
    (s.setReaps (q' :: rest)).Family := by
  have hz := h.zombie s.current
  have hnodup := h.nodup s.current
  have hscan := h.scanned s.current
  rw [hq] at hz hnodup hscan
  obtain ⟨hz₁, hz₂⟩ := List.forall_mem_cons.1 hz
  refine h.setReaps (List.forall_mem_cons.2 ⟨by rwa [hslot, hid], hz₂⟩) (fun t ht x hx y hy he => ht ?_) ?_
    ⟨fun j hj hc => absurd (hid ▸ hc) (hsc j hj), hslot ▸ hscan.2⟩
  · obtain ⟨x', hx', he'⟩ : ∃ x' ∈ s.reaps s.current, x'.id = x.id := by
      rcases List.mem_cons.1 hx with rfl | hx
      · exact ⟨q, by simp [hq], hid.symm⟩
      · exact ⟨x, by simp [hq, hx], rfl⟩
    exact (h.apart s.current t x' hx' y hy (he'.trans he)).symm
  · rw [map_cons, hid]
    exact hnodup

/-- what the innermost `task_reap` has passed -/
theorem Family.passed (h : s.Family) (hq : s.reaps s.current = q :: rest) (j : Fin 8) (hj : j.val < q.j) :
    ¬ s.Child j q.id := by
  intro hc
  have := h.scanned s.current
  rw [hq] at this
  simpa using this.1 j hj hc

/-- **The cascade**: `task_reap` of a zombie child above its parent's. -/
theorem Family.cascade (h : s.Family) (hs : s.SchedInv) (hq : s.reaps s.current = q :: rest) (hj : q.j < 8)
    (hz : (s.tasks ⟨q.j, hj⟩).state = .zombie) (hnew : ∀ t, ∀ q' ∈ s.reaps t, q'.id ≠ (s.tasks ⟨q.j, hj⟩).id) :
    ((s.setReaps ({ q with j := q.j + 1, waiting := false } :: rest)).taskReap (s.tasks ⟨q.j, hj⟩).id).Family := by
  have hframes := hs.frames s.current
  have hzombie := h.zombie s.current
  have hnodup := h.nodup s.current
  have hscan := h.scanned s.current
  have hap := h.apart s.current
  have hmine := hnew s.current
  rw [hq] at hframes hzombie hnodup hscan hap hmine
  obtain ⟨hf₁, hf₂⟩ := List.forall_mem_cons.1 hframes
  obtain ⟨hz₁, hz₂⟩ := List.forall_mem_cons.1 hzombie
  obtain ⟨hm₁, hm₂⟩ := List.forall_mem_cons.1 hmine
  have hset : (s.setReaps ({ q with j := q.j + 1, waiting := false } :: rest)).SchedInv :=
    hs.setReaps (List.forall_mem_cons.2 ⟨hf₁, hf₂⟩)
  have henter : (s.setReaps (⟨⟨q.j, hj⟩, (s.tasks ⟨q.j, hj⟩).id, 0, false⟩ :: { q with j := q.j + 1, waiting := false } ::
      rest)).Family := h.enter hz (List.forall_mem_cons.2 ⟨hz₁, hz₂⟩)
    (fun t ht => List.forall_mem_cons.2 ⟨fun q' hq' he => ht (hap t q (by simp) q' hq' he).symm,
      fun x hx q' hq' he => ht (hap t x (by simp [hx]) q' hq' he).symm⟩)
    hnodup (List.forall_mem_cons.2 ⟨hm₁, hm₂⟩) hnew ⟨fun j hlt hc => ?_, hscan.2⟩
  · have he := hset.taskReap_zombie (i := ⟨q.j, hj⟩) hz
    have hsame : ∀ x, (s.setReaps ({ q with j := q.j + 1, waiting := false } :: rest)).setReaps x = s.setReaps x := by
      intro x
      simp [Kernel.setReaps]
    rw [hsame] at he
    have hreaps : (s.setReaps ({ q with j := q.j + 1, waiting := false } :: rest)).reaps s.current =
        { q with j := q.j + 1, waiting := false } :: rest := by simp [Kernel.setReaps]
    rw [show (s.setReaps ({ q with j := q.j + 1, waiting := false } :: rest)).current = s.current from rfl, hreaps] at he
    exact he ▸ henter
  · rcases Nat.lt_succ_iff_lt_or_eq.1 hlt with hlt | heq
    · exact absurd hc (h.passed hq j hlt)
    · exact congrArg some (Fin.ext heq.symm)

/-- no child is left at the end of the loop of a `task_reap` -/
theorem Family.no_child (h : s.Family) (hq : s.reaps s.current = q :: rest) (hj : 8 ≤ q.j) (j : Fin 8) :
    ¬ s.Child j q.id :=
  h.passed hq j (by omega)

/-- **The end of a `task_reap`**: its slot is emptied, and nobody else's call is on it. -/
theorem Family.reaped (h : s.Family) (hq : s.reaps s.current = q :: rest) (hj : 8 ≤ q.j) :
    ((s.freeTask q.slot).setReaps rest).Family := by
  have htask : ∀ j, ((s.freeTask q.slot).setReaps rest).tasks j =
      if j = q.slot then ⟨.unused, -1, none, false, 0, -1⟩ else s.tasks j := freeTask_tasks q.slot
  have hlive : ∀ j, ((s.freeTask q.slot).setReaps rest).Live j → s.Live j ∧ j ≠ q.slot := by
    intro j hl
    rw [Live, htask] at hl
    split_ifs at hl with hji
    · exact absurd rfl hl
    · exact ⟨hl, hji⟩
  have hchild : ∀ j id, ((s.freeTask q.slot).setReaps rest).Child j id → s.Child j id ∧ j ≠ q.slot := by
    rintro j id ⟨hl, hp⟩
    obtain ⟨hold, hji⟩ := hlive j hl
    rw [htask, if_neg hji] at hp
    exact ⟨⟨hold, hp⟩, hji⟩
  have hmem : ∀ t q', q' ∈ ((s.freeTask q.slot).setReaps rest).reaps t → q' ∈ s.reaps t ∧ q'.slot ≠ q.slot := by
    intro t q' hq'
    have hnodup := h.nodup s.current
    rw [hq, map_cons, nodup_cons] at hnodup
    have htop : q ∈ s.reaps s.current := by simp [hq]
    obtain ⟨hin, hid⟩ : q' ∈ s.reaps t ∧ q'.id ≠ q.id := by
      rcases mem_setReaps hq' with ⟨ht, hq'⟩ | ⟨ht, hq'⟩
      · refine ⟨?_, fun he => hnodup.1 (he ▸ mem_map_of_mem hq')⟩
        rw [show t = s.current from ht, hq]
        exact mem_cons_of_mem q hq'
      · exact ⟨hq', fun he => ht (h.apart t s.current q' hq' q htop he)⟩
    refine ⟨hin, fun he => hid ?_⟩
    rw [← (h.zombie t q' hin).2, ← (h.zombie _ q htop).2, he]
  refine ⟨fun j hl => ?_, fun t q' hq' => ?_, fun t t' q₁ h₁ q₂ h₂ => h.apart t t' q₁ (hmem t q₁ h₁).1 q₂ (hmem t' q₂ h₂).1,
    fun t => ?_, fun t => ?_⟩
  · obtain ⟨hold, hji⟩ := hlive j hl
    rw [htask, if_neg hji]
    refine (h.parents j hold).imp_right (Exists.imp fun p hp => ?_)
    have hpq : p ≠ q.slot := by
      rintro rfl
      have hid := (h.zombie _ q (hq ▸ mem_cons_self)).2
      exact h.no_child hq hj j (hid ▸ hp.2)
    simp only [Parent, Child, Live, htask, if_neg hji, if_neg hpq]
    exact hp
  · obtain ⟨hin, hne⟩ := hmem t q' hq'
    rw [htask, if_neg hne]
    exact h.zombie t q' hin
  · simp only [Kernel.setReaps, update_apply]
    have hnodup := h.nodup s.current
    rw [hq, map_cons, nodup_cons] at hnodup
    split_ifs
    · exact hnodup.2
    · exact h.nodup t
  · have hsc := h.scanned s.current
    rw [hq] at hsc
    by_cases ht : t = s.current
    · subst ht
      have : ((s.freeTask q.slot).setReaps rest).reaps s.current = rest := by simp [Kernel.setReaps, freeTask]
      rw [this]
      exact hsc.2.returned hchild
    · have : ((s.freeTask q.slot).setReaps rest).reaps t = s.reaps t := by simp [Kernel.setReaps, freeTask, ht]
      rw [this]
      exact (h.scanned t).mono fun q' _ j hc => (hchild j _ hc).1

/-- **One operation keeps the families**, if it enters no `task_reap` that is in progress already. -/
theorem Family.moves (h : s.Family) (hs : s.SchedInv) (hm : Moves s op r s') (hop : s.Apart op) : s'.Family := by
  cases hm with
  | idle => exact h
  | scheduled => exact h.of_same (sameFamily_schedule s)
  | exited => exact h.of_same (sameFamily_exit hs)
  | created i d m _ hc hi =>
    refine h.install hs (freeSlot_unused hi) m d _ ?_
    cases hc with
    | task | ring3 => exact .inl rfl
    | child => exact .inr rfl
  | leaked | execFailed | execStarted | execMapped | execAborted | execDone =>
    exact h.of_same ⟨fun _ => Iff.rfl, fun _ => rfl, fun _ => rfl, fun _ hi => hi, rfl⟩
  | execCreated d b p i f m _ _ hi =>
    refine (h.install hs (freeSlot_unused hi) m d true (.inl rfl)).of_same ?_
    exact ⟨fun _ => Iff.rfl, fun _ => rfl, fun _ => rfl, fun _ hi => hi, rfl⟩
  | execReaps d b id he hz =>
    have hsame : SameFamily s { s with exec := some (.reaping d b id) } :=
      ⟨fun _ => Iff.rfl, fun _ => rfl, fun _ => rfl, fun _ hi => hi, rfl⟩
    have hempty : s.reaps s.current = [] := he.main ▸ he.top
    refine (h.of_same hsame).taskReap hempty (hop.2 id ?_)
    simp [entersReap, he.top, he.exec, he.main, hz]
  | reapCalled id hfree =>
    have hempty : s.reaps s.current = [] := by
      by_contra hne
      exact hfree (.inl hne)
    exact h.taskReap hempty (hop.2 id (by simp [entersReap, hfree]))
  | reapWaits q rest hj hq => exact h.advance hq rfl rfl fun j hlt => h.passed hq j hlt
  | reapSkips q rest hj hq hnot =>
    refine h.advance hq rfl rfl fun j hlt hc => ?_
    rcases Nat.lt_succ_iff_lt_or_eq.1 hlt with hlt | heq
    · exact h.passed hq j hlt hc
    · have hje : j = ⟨q.j, hj⟩ := Fin.ext heq
      rw [← hje] at hnot
      exact hc.1 (hnot hc.2)
  | reapsChild q rest hj hq hw hz =>
    exact h.cascade hs hq hj hz (hop.2 _ (by simp [entersReap, hq, hj, hw, hz]))
  | reaped q rest hj hq => exact h.reaped hq hj

theorem family_boot (h : boot l = some s) : s.Family := by
  obtain ⟨m, -, rfl⟩ := Option.map_eq_some_iff.1 h
  refine ⟨fun j hj => ?_, fun t q hq => (nomatch hq), fun t t' q hq => (nomatch hq),
    fun _ => nodup_nil, fun _ => trivial⟩
  have h0 : j = 0 := by_contra fun hne => by simp [Live, taskInit, hne] at hj
  exact .inl (by simp [taskInit, h0])

/-! ## Spaces -/

/-- slot 0 of directory `d` of task `i`: the kernel's, or a table of `i` or of an ancestor, which shows it there too -/
def SlotZero (s : Kernel) (i : Fin 8) (d : DirRef) : Prop :=
  s.mem.dir d 0 = s.mem.dir .kernel 0 ∨
  ∃ a da k, ReflTransGen s.Parent a i ∧ (s.tasks a).cr3 = some da ∧ s.mem.owner k = some da ∧
    s.mem.dir da 0 = ⟨.priv k, true, true⟩ ∧ s.mem.dir d 0 = ⟨.priv k, true, true⟩

/-- the address space of task `i` -/
structure SpaceOf (s : Kernel) (i : Fin 8) (d : DirRef) : Prop where
  space : ∃ pd idx p, Fits pd idx p ∧ s.mem.Private d pd idx p 1
  slotZero : s.SlotZero i d

/-- the pools are in order, the families too, and every task but task 0 has a space of its own -/
structure IsoInv (s₀ s : Kernel) : Prop where
  pool : PoolInv s₀ s
  family : s.Family
  spaces : ∀ i d, i ≠ 0 → s.Live i → (s.tasks i).cr3 = some d → s.SpaceOf i d

/-- a space is kept while another directory changes that is none of an ancestor -/
theorem SpaceOf.keep (h : s.SpaceOf i d) (hk : s.mem.KernelMap) (hl : Local x s.mem s'.mem) (hx : x ≠ .kernel)
    (hd : d ≠ x)
    (hanc : ∀ a, ReflTransGen s.Parent a i → ReflTransGen s'.Parent a i ∧ (s'.tasks a).cr3 = (s.tasks a).cr3 ∧
      (s.tasks a).cr3 ≠ some x) : s'.SpaceOf i d := by
  have hsame := hl.sameKernel hx
  have hund := hl.others d hd
  obtain ⟨⟨pd, idx, p, hfit, hp⟩, hzero⟩ := h
  refine ⟨⟨pd, idx, p, hfit, hp.same hk hfit.lt hund hsame⟩, ?_⟩
  rcases hzero with hzero | ⟨a, da, k, ha, hcr3, hown, hda, hzero⟩
  · left
    rw [hund.dir, hsame.kernel.dir, hzero]
  · obtain ⟨ha', hcr3', hne⟩ := hanc a ha
    have hunda := hl.others da fun he => hne (he ▸ hcr3)
    exact .inr ⟨a, da, k, ha', hcr3'.trans hcr3, (hunda.owner k).2 hown, by rw [hunda.dir, hda], by rw [hund.dir, hzero]⟩

/-- tables, families and memory are the same -/
theorem IsoInv.of_same (h : IsoInv s₀ s) (hpool : PoolInv s₀ s') (hfam : s'.Family) (hparent : s'.Parent = s.Parent)
    (hmem : s'.mem = s.mem) (hcr3 : ∀ i, (s'.tasks i).cr3 = (s.tasks i).cr3) (hlive : ∀ i, s'.Live i ↔ s.Live i) :
    IsoInv s₀ s' := by
  refine ⟨hpool, hfam, fun i d h0 hi hd => ?_⟩
  obtain ⟨hspace, hzero⟩ := h.spaces i d h0 ((hlive i).1 hi) (hcr3 i ▸ hd)
  refine ⟨hmem ▸ hspace, ?_⟩
  simpa only [SlotZero, hparent, hmem, hcr3] using hzero

/-- the spaces of all tasks are kept while a directory changes that no task holds -/
theorem IsoInv.of_local (h : IsoInv s₀ s) (hpool : PoolInv s₀ s') (hfam : s'.Family) (hx : x ≠ .kernel)
    (hl : Local x s.mem s'.mem) (hfree : ∀ i, (s.tasks i).cr3 ≠ some x) (htasks : s'.tasks = s.tasks) : IsoInv s₀ s' := by
  have hparent : s'.Parent = s.Parent := by
    funext i j
    simp only [Parent, Child, Live, htasks]
  refine ⟨hpool, hfam, fun i d h0 hi hd => ?_⟩
  simp only [Live, htasks] at hi hd
  refine (h.spaces i d h0 hi hd).keep h.pool.mem.kernel hl hx (fun he => hfree i (he ▸ hd)) fun a ha => ?_
  exact ⟨hparent ▸ ha, by rw [htasks], hfree a⟩

/-- **A new task with directory `x`**, which nobody held before. -/
theorem IsoInv.install (h : IsoInv s₀ s) (hi : (s.tasks i).state = .unused) {ring3 : Bool} {parent : ℤ}
    (hl : Local x s.mem m) (hx : x ≠ .kernel) (hfree : ∀ j, (s.tasks j).cr3 ≠ some x)
    (hnew : ({ s with mem := m }.install i x ring3 parent).SpaceOf i x) {e : Option Exec}
    (hpool : PoolInv s₀ { { s with mem := m }.install i x ring3 parent with exec := e })
    (hfam : { { s with mem := m }.install i x ring3 parent with exec := e }.Family) :
    IsoInv s₀ { { s with mem := m }.install i x ring3 parent with exec := e } := by
  refine ⟨hpool, hfam, fun j d h0 hj hd => ?_⟩
  have htask := install_tasks (s := s) m i x ring3 parent j
  by_cases hji : j = i
  · subst hji
    have : ({ s with mem := m }.install j x ring3 parent).SpaceOf j d := by
      have hd : (({ s with mem := m }.install j x ring3 parent).tasks j).cr3 = some d := hd
      rw [htask, if_pos rfl] at hd
      rwa [← Option.some.inj hd]
    exact ⟨this.space, this.slotZero⟩
  · have hlive : ({ s with mem := m }.install i x ring3 parent).Live j := hj
    have hd : (({ s with mem := m }.install i x ring3 parent).tasks j).cr3 = some d := hd
    rw [Live, htask, if_neg hji] at hlive
    rw [htask, if_neg hji] at hd
    have : ({ s with mem := m }.install i x ring3 parent).SpaceOf j d := (h.spaces j d h0 hlive hd).keep h.pool.mem.kernel
      hl hx (fun he => hfree j (he ▸ hd)) fun a ha => ?_
    · exact ⟨this.space, this.slotZero⟩
    · refine ⟨ReflTransGen.mono (fun _ _ hab => parent_install hi m x ring3 parent hab) _ _ ha, ?_, hfree a⟩
      have hai : a ≠ i := by
        rintro rfl
        rcases ReflTransGen.cases_head ha with rfl | ⟨b, hab, -⟩
        · exact hlive hi
        · exact hab.1 hi
      rw [install_tasks, if_neg hai]

/-- what a spawned child or a new task shows at slot 0 -/
theorem IsoInv.slotZero_created (h : IsoInv s₀ s) {share : Option DirRef} {vs : List UInt32} {ring3 : Bool} {parent : ℤ}
    {k : Fin 8} (hc : Creation s op share vs ring3 parent) (hi : (s.tasks i).state = .unused)
    (hl : Local (.task k) s.mem m) (hfree : ∀ j, (s.tasks j).cr3 ≠ some (.task k))
    (hslot : m.dir (.task k) 0 = s.mem.dir (shareFrom share) 0) :
    ({ s with mem := m }.install i (.task k) ring3 parent).SlotZero i (.task k) := by
  have hkernel : m.dir .kernel = s.mem.dir .kernel := (hl.others .kernel (by simp)).dir
  have hshown : s.mem.dir (shareFrom share) 0 = s.mem.dir .kernel 0 →
      ({ s with mem := m }.install i (.task k) ring3 parent).SlotZero i (.task k) := by
    intro he
    left
    show m.dir (.task k) 0 = m.dir .kernel 0
    rw [hslot, he, hkernel]
  cases hc with
  | task | ring3 => exact hshown rfl
  | child =>
    obtain ⟨d, hd, -⟩ := h.pool.live_cr3 h.pool.sched.current_live
    rw [hd] at hslot hshown
    by_cases h0 : s.current = 0
    · rw [h0, h.pool.kernelDir] at hd
      obtain rfl := Option.some.inj hd
      exact hshown rfl
    rcases (h.spaces s.current d h0 h.pool.sched.current_live hd).slotZero with hz | ⟨a, da, l, ha, hcr3, hown, hda, hz⟩
    · exact hshown hz
    · -- the parent shows a table of an ancestor's; so does the child
      have hunda := hl.others da fun he => hfree a (he ▸ hcr3)
      have hcur := (h.pool.sched.free_ne hi).1
      have hai : a ≠ i := by
        rintro rfl
        rcases ReflTransGen.cases_head ha with he | ⟨b, hab, -⟩
        · exact hcur he.symm
        · exact hab.1 hi
      refine .inr ⟨a, da, l, ?_, ?_, (hunda.owner l).2 hown, ?_, ?_⟩
      · refine ReflTransGen.tail (b := s.current)
          (ReflTransGen.mono (fun _ _ hab => parent_install hi m (.task k) true (s.tasks s.current).id hab) _ _ ha) ?_
        refine ⟨?_, ?_, ?_⟩
        · rw [Live, install_tasks, if_neg hcur]
          exact h.pool.sched.current_live
        · rw [Live, install_tasks, if_pos rfl]
          simp
        · rw [install_tasks, install_tasks, if_pos rfl, if_neg hcur]
      · rw [install_tasks, if_neg hai, hcr3]
      · exact (congrFun hunda.dir 0).trans hda
      · exact hslot.trans hz

theorem local_copyPage {m' : Paging} (h : Local d m m') (b : Blob) (p : ℕ) (f : Frame) :
    Local d m (b.copyPage p f m') := by
  unfold Blob.copyPage
  split_ifs
  · exact ⟨fun d' hd' => ⟨(h.others d' hd').dir, (h.others d' hd').owner, (h.others d' hd').tab⟩, h.boot⟩
  · exact h

/-- without the task whose `task_reap` ends, paths between the others are the same: it has no children -/
theorem ancestors_reaped (hno : ∀ j, ¬ s.Child j (s.tasks i).id) (hsame : ∀ j, j ≠ i → s'.tasks j = s.tasks j)
    {a : Fin 8} (hj : j ≠ i) (h : ReflTransGen s.Parent a j) :
    a ≠ i ∧ ReflTransGen s'.Parent a j := by
  induction h using ReflTransGen.head_induction_on with
  | refl => exact ⟨hj, .refl⟩
  | @head a b hab _ ih =>
    have ha : a ≠ i := by
      rintro rfl
      exact hno b hab.2
    refine ⟨ha, .head ?_ ih.2⟩
    simp only [Parent, Child, Live, hsame a ha, hsame b ih.1]
    exact hab

/-- **The end of a `task_reap` frees nothing that another task shows.** -/
theorem IsoInv.reaped (h : IsoInv s₀ s) (hq : s.reaps s.current = q :: rest) (hj : 8 ≤ q.j)
    (hpool : PoolInv s₀ ((s.freeTask q.slot).setReaps rest)) : IsoInv s₀ ((s.freeTask q.slot).setReaps rest) := by
  obtain ⟨hz, hid⟩ := h.family.zombie s.current q (by simp [hq])
  obtain ⟨-, h0⟩ := h.pool.sched.frames s.current q (by simp [hq])
  obtain ⟨k, hk, -⟩ := h.pool.dirs q.slot h0 (by simp [Live, hz])
  have htask : ∀ j, j ≠ q.slot → ((s.freeTask q.slot).setReaps rest).tasks j = s.tasks j := by
    intro j hji
    exact (freeTask_tasks q.slot j).trans (if_neg hji)
  have hl : Local (.task k) s.mem ((s.freeTask q.slot).setReaps rest).mem := by
    have : ((s.freeTask q.slot).setReaps rest).mem = s.mem.release (.task k) := by
      simp [Kernel.setReaps, Kernel.freeTask, hk]
    rw [this]
    exact (h.pool.mem.release k).2.1
  refine ⟨hpool, h.family.reaped hq hj, fun i d hi0 hi hd => ?_⟩
  have hne : i ≠ q.slot := by
    rintro rfl
    exact hi (by simp [Kernel.setReaps, Kernel.freeTask])
  rw [Live, htask i hne] at hi
  rw [htask i hne] at hd
  refine (h.spaces i d hi0 hi hd).keep h.pool.mem.kernel hl (by simp) ?_ fun a ha => ?_
  · rintro rfl
    exact hne (h.pool.distinct i q.slot _ hd hk)
  · obtain ⟨hai, ha'⟩ := ancestors_reaped (hid ▸ h.family.no_child hq hj) htask hne ha
    exact ⟨ha', by rw [htask a hai], fun he => hai (h.pool.distinct a q.slot _ he hk)⟩

theorem execAbort_mem (m : Paging) (d : DirRef) : (s.execAbort m d).mem = m.release d := rfl

theorem execAbort_tasks (m : Paging) (d : DirRef) : (s.execAbort m d).tasks = s.tasks := rfl

theorem execAbort_nextTaskId (m : Paging) (d : DirRef) : (s.execAbort m d).nextTaskId = s.nextTaskId := rfl

theorem execAbort_exec (m : Paging) (d : DirRef) : (s.execAbort m d).exec = none := rfl

/-- **One operation keeps the spaces of all tasks.** -/
theorem IsoInv.moves (h : IsoInv s₀ s) (hm : Moves s op r s') (hop : s.Apart op) : IsoInv s₀ s' := by
  have hpool := h.pool.moves hm hop.1.1
  have hfam := h.family.moves h.pool.sched hm hop
  cases hm with
  | idle => exact h
  | scheduled =>
    have hs := sameHolders_schedule s
    exact h.of_same hpool hfam (sameFamily_schedule s).parent hs.mem hs.cr3 hs.live
  | exited =>
    have hs := sameHolders_exit h.pool.sched
    exact h.of_same hpool hfam (sameFamily_exit h.pool.sched).parent hs.mem hs.cr3 hs.live
  | created i d m _ hc hi hm =>
    obtain ⟨k, m', p, heq, ht, hfit, hp, hslot⟩ := h.pool.creates hi hc
    rw [heq] at hm
    obtain ⟨hd, rfl⟩ := Prod.mk.inj hm
    obtain rfl := Option.some.inj hd
    have hfree := h.pool.free_dir ht.free
    refine h.install (freeSlot_unused hi) ht.others (by simp) hfree ⟨⟨320, _, p, hfit, hp⟩, ?_⟩ hpool hfam
    exact h.slotZero_created hc (freeSlot_unused hi) ht.others hfree hslot
  | leaked i m hc hi hm =>
    obtain ⟨k, m', p, heq, -⟩ := h.pool.creates hi hc
    rw [heq] at hm
    cases (Prod.mk.inj hm).1
  | execFailed b m h0 hfree hm =>
    obtain ⟨k, hk⟩ := h.pool.exists_dir (.inr (not_busy_exec hfree h0))
    rw [(h.pool.mem.clone hk).1] at hm
    cases (Prod.mk.inj hm).1
  | execStarted b d m h0 hfree hm =>
    obtain ⟨k, hk⟩ := h.pool.exists_dir (.inr (not_busy_exec hfree h0))
    obtain ⟨heq, -, hl, -⟩ := h.pool.mem.clone hk
    rw [heq] at hm
    obtain ⟨hd, rfl⟩ := Prod.mk.inj hm
    exact h.of_local hpool hfam (x := .task k) (by simp) hl (h.pool.free_dir (firstFree_free hk)) rfl
  | execMapped d b p f m he hp hm =>
    obtain ⟨hfree, k, rfl, -⟩ := h.pool.building d b p he.exec
    obtain ⟨f', m', heq, hl, -⟩ := h.pool.execMapped he.exec hp
    rw [heq] at hm
    obtain ⟨-, rfl⟩ := Prod.mk.inj hm
    exact h.of_local hpool hfam (by simp) (local_copyPage hl b p f) hfree rfl
  | execAborted d b p m he hm =>
    obtain ⟨hfree, k, rfl, -⟩ := h.pool.building d b p he.exec
    obtain ⟨-, rfl⟩ := h.pool.aborts he.exec hm
    refine h.of_local hpool hfam (x := .task k) (by simp) ?_ hfree (execAbort_tasks _ _)
    rw [execAbort_mem]
    exact (h.pool.mem.release k).2.1
  | execCreated d b p i f m he hp hi hm =>
    obtain ⟨hfree, k, rfl, -, hpp, -⟩ := h.pool.building d b p he.exec
    obtain ⟨f', m', heq, hl, hpriv, -⟩ := h.pool.execCreated he.exec hi s.nextTaskId
    rw [heq] at hm
    obtain ⟨-, rfl⟩ := Prod.mk.inj hm
    obtain ⟨l, hdir, hown, -⟩ := hpriv.main.table (by simp only [Blob.pages] at hp; omega)
    refine h.install (freeSlot_unused hi) hl (by simp) hfree ⟨⟨0, _, p, b.fits hpp, hpriv⟩, ?_⟩ hpool hfam
    refine .inr ⟨i, _, l, .refl, ?_, hown, hdir, hdir⟩
    rw [install_tasks, if_pos rfl]
  | execReaps d b id =>
    have hs := sameHolders_taskReap { s with exec := some (.reaping d b id) } id
    refine h.of_same hpool hfam ?_ hs.mem hs.cr3 hs.live
    funext i j
    simp only [Parent, Child, Live, taskReap_tasks]
  | reapCalled id =>
    have hs := sameHolders_taskReap s id
    refine h.of_same hpool hfam ?_ hs.mem hs.cr3 hs.live
    funext i j
    simp only [Parent, Child, Live, taskReap_tasks]
  | execDone | reapWaits | reapSkips => exact h.of_same hpool hfam rfl rfl (fun _ => rfl) fun _ => Iff.rfl
  | reapsChild q rest hj =>
    have hs := sameHolders_taskReap (s.setReaps ({ q with j := q.j + 1, waiting := false } :: rest)) (s.tasks ⟨q.j, hj⟩).id
    refine h.of_same hpool hfam ?_ hs.mem hs.cr3 hs.live
    funext i j
    simp only [Parent, Child, Live, taskReap_tasks, Kernel.setReaps]
  | reaped q rest hj hq => exact h.reaped hq hj hpool

theorem isoInv_boot (h : boot l = some s) : IsoInv s s := by
  refine ⟨poolInv_boot h, family_boot h, fun i d h0 hi => absurd hi ?_⟩
  obtain ⟨m, -, rfl⟩ := Option.map_eq_some_iff.1 h
  simp [Live, taskInit, h0]

theorem isoInv_run {tr : List (Op × Option ℤ)} (hboot : boot l = some s₀) (h : Run step Apart s₀ tr s) :
    IsoInv s₀ s :=
  h.invariant (fun s op hinv hop => hinv.moves (s.step_moves op) hop) (isoInv_boot hboot)

/-! ## Isolation -/

/-- the pool frame that task `i` reaches at `v` in user mode -/
def sees (s : Kernel) (i : Fin 8) (v : UInt32) : Option Frame := (s.tasks i).cr3.bind fun d => s.mem.userFrame d v

/-- **What a task reaches is owned** by itself or by an ancestor, which shows it in a table of its own. -/
theorem IsoInv.sees_owner (h : IsoInv s₀ s) {v : UInt32} {f : Frame} (hi : s.Live i) (hf : s.sees i v = some f) :
    ∃ a da k, ReflTransGen s.Parent a i ∧ (s.tasks a).cr3 = some da ∧
      s.mem.owner k = some da ∧ s.mem.Entry k (ptIndex v) f ∧ (pdIndex v = 256 → a = i) := by
  have hk := h.pool.mem.kernel
  obtain ⟨d, hd, hf⟩ := Option.bind_eq_some_iff.1 hf
  by_cases h0 : i = 0
  · subst h0
    obtain rfl : DirRef.kernel = d := Option.some.inj (h.pool.kernelDir.symm.trans hd)
    have h256 : pdIndex v = 256 := by
      by_contra hne
      rw [hk.no_userFrame rfl hne] at hf
      cases hf
    obtain ⟨k, g, hdir, hown, -⟩ := hk.scratch
    refine ⟨0, .kernel, k, .refl, hd, hown, entry_of_userFrame hf ?_ (by simp [hown]), fun _ => rfl⟩
    rw [h256, hdir]
  · obtain ⟨⟨pd, idx, p, -, hp⟩, hzero⟩ := h.spaces i d h0 hi hd
    rcases hp.userFrame hk hf with ⟨k, htab, hown⟩ | hv
    · exact ⟨i, d, k, .refl, hd, hown, entry_of_userFrame hf htab (by simp [hown]), fun _ => rfl⟩
    · rcases hzero with hzero | ⟨a, da, k, ha, hcr3, hown, -, hzero⟩
      · rw [hk.no_userFrame (by rw [hv, hzero]) (by simp [hv])] at hf
        cases hf
      · refine ⟨a, da, k, ha, hcr3, hown, entry_of_userFrame hf ?_ (by simp [hown]), fun h256 => ?_⟩
        · rw [hv, hzero]
        · rw [hv] at h256
          cases h256

/-- two tasks that reach one frame have its owner above both -/
theorem IsoInv.common_owner (h : IsoInv s₀ s) {v w : UInt32} {f : Frame} (hi : s.Live i) (hj : s.Live j)
    (hf : s.sees i v = some f) (hg : s.sees j w = some f) : ∃ a, ReflTransGen s.Parent a i ∧ ReflTransGen s.Parent a j ∧
      (pdIndex v = 256 → a = i) ∧ (pdIndex w = 256 → a = j) := by
  obtain ⟨a, da, k, ha, hcr3, hown, he, hv⟩ := h.sees_owner hi hf
  obtain ⟨b, db, l, hb, hcr3', hown', he', hw⟩ := h.sees_owner hj hg
  obtain ⟨rfl, -⟩ := h.pool.mem.owned.unique _ _ _ _ f he he'
  obtain rfl := Option.some.inj (hown.symm.trans hown')
  obtain rfl := h.pool.distinct a b _ hcr3 hcr3'
  exact ⟨a, ha, hb, hv, hw⟩

/-- **Isolation.** In every state of every run from boot in which task 0 does not exit and no `task_reap` is entered
while another of the same id is in progress: every pool frame that a task reaches in user mode is allocated; two tasks
reach one frame only if one is an ancestor of the other or they have a common ancestor; and the frames at
TASK_PRIVATE_VADDR are all different. -/
theorem isolation {l : Layout} {tr : List (Op × Option ℤ)} (hboot : boot l = some s₀) (h : Run step Apart s₀ tr s) :
    (∀ i v f, s.Live i → s.sees i v = some f → s.mem.bitmap f = true) ∧
    (∀ i j v w f, i ≠ j → s.Live i → s.Live j → s.sees i v = some f → s.sees j w = some f →
      s.Ancestor i j ∨ s.Ancestor j i ∨ ∃ a, s.Ancestor a i ∧ s.Ancestor a j) ∧
    ∀ i j f, i ≠ j → s.Live i → s.Live j → s.sees i privateVaddr = some f → s.sees j privateVaddr ≠ some f := by
  have hinv := isoInv_run hboot h
  refine ⟨fun i v f hi hf => ?_, fun i j v w f hij hi hj hf hg => ?_, fun i j f hij hi hj hf hg => ?_⟩
  · obtain ⟨a, da, k, -, -, -, he, -⟩ := hinv.sees_owner hi hf
    exact hinv.pool.mem.owned.marked k _ f he
  · obtain ⟨a, hai, haj, -⟩ := hinv.common_owner hi hj hf hg
    rcases reflTransGen_iff_eq_or_transGen.1 hai with rfl | hai <;>
      rcases reflTransGen_iff_eq_or_transGen.1 haj with rfl | haj
    · exact absurd rfl hij
    · exact .inl haj
    · exact .inr (.inl hai)
    · exact .inr (.inr ⟨a, hai, haj⟩)
  · obtain ⟨a, -, -, hv, hw⟩ := hinv.common_owner hi hj hf hg
    exact hij ((hv (by decide)).symm.trans (hw (by decide)))

/-- a program of one byte -/
def oneByte : Blob := ⟨1, fun _ => 0xC3, by decide, by decide⟩

/-- an app and its child share the app's code page, which is allocated -/
theorem isolation_child : ∃ tr s, Run step Apart vgaBoot tr s ∧ s.sees 1 appLoadAddr = some 1 ∧
    s.sees 2 appLoadAddr = some 1 ∧ s.mem.bitmap 1 = true ∧ s.sees 1 privateVaddr ≠ s.sees 2 privateVaddr := by
  let ops : List Op := [.exec oneByte, .go, .go, .go, .go, .go, .go, .go, .spawn]
  have hok : AllOk step Apart vgaBoot ops := by decide +kernel
  obtain ⟨tr, h⟩ := Run.of_allOk hok
  have hshare : (runOps step vgaBoot ops).sees 1 appLoadAddr = some 1 ∧
      (runOps step vgaBoot ops).sees 2 appLoadAddr = some 1 ∧ (runOps step vgaBoot ops).sees 2 privateVaddr = some 11 := by
    decide +kernel
  have hlive : (runOps step vgaBoot ops).Live 1 ∧ (runOps step vgaBoot ops).Live 2 := by decide +kernel
  have hiso := isolation boot_vgaLayout h
  refine ⟨tr, _, h, hshare.1, hshare.2.1, hiso.1 1 _ _ hlive.1 hshare.1, fun he => ?_⟩
  rw [hshare.2.2] at he
  exact hiso.2.2 1 2 11 (by decide) hlive.1 hlive.2 he hshare.2.2

/-! ## Two calls of one id -/

/-- Task 1 enters `task_reap(2)`; the timer gives task 0 the CPU, which enters `task_reap(2)` too and is about to end it. -/
def bothReap : List Op :=
  [.create, .createRing3, .yield, .yield, .exit, .yield, .reap 2, .tick, .reap 2, .go, .go, .go, .go, .go, .go, .go, .go]

/-- After task 0's call has ended it launches an app, in the slot that has become free. The app spawns a child; then task
1 goes on with its call. -/
def appInSlot : List Op :=
  [.exec oneByte, .go, .go, .go, .go, .go, .go, .go, .tick, .spawn, .tick, .tick, .tick, .go, .go, .go, .go, .go, .go, .go,
    .go]

/-- the running task's `task_reap` has ended: its slot `i` is free, and memory is `m` -/
def afterReap (s : Kernel) (i : Fin 8) (m : Paging) : Kernel :=
  { s with
    mem := m
    tasks := update s.tasks i ⟨.unused, -1, none, false, 0, -1⟩
    reaps := update s.reaps s.current [] }

/-- the running task ends its only `task_reap`, whose slot holds directory `d` -/
theorem step_go_reaped (hq : s.reaps s.current = [q]) (hj : 8 ≤ q.j) (hd : (s.tasks q.slot).cr3 = some d) :
    (s.step .go).2 = s.afterReap q.slot (s.mem.release d) := by
  simp only [step, hq, reapGo, dif_neg (not_lt.2 hj), freeTask, Kernel.setReaps, hd, afterReap]

theorem bothReap_ends : runOps step vgaBoot (bothReap ++ [Op.go]) =
    (runOps step vgaBoot bothReap).afterReap 2 ((runOps step vgaBoot bothReap).mem.withoutScratch 1 2) := by
  obtain ⟨tr, h⟩ := Run.of_allOk (show AllOk step MainStays vgaBoot bothReap by decide +kernel)
  have hreaps : (runOps step vgaBoot bothReap).reaps (runOps step vgaBoot bothReap).current = [⟨2, 2, 8, false⟩] := by
    decide +kernel
  rw [runOps_snoc, step_go_reaped hreaps le_rfl (d := .task 1) (by decide +kernel),
    (poolInv_run boot_vgaLayout h).mem.release_scratch (k := 2) (by decide +kernel) (by decide +kernel) (by decide +kernel)]

/-- what other directories show is not affected by a release -/
theorem userFrame_release {d' : DirRef} (hne : d' ≠ d) (v : UInt32) :
    (m.release d).userFrame d' v = m.userFrame d' v := by
  have hfree := m.freePrivatePages_freed d
  have hdir : (m.release d).dir d' = m.dir d' := by
    rw [Paging.release, freeDirectory_dir]
    exact hfree.other d' hne
  have htab : (m.release d).tab = m.tab := by
    rw [Paging.release, freeDirectory_tab]
    exact hfree.tab
  simp only [userFrame, hdir, htab]

/-- **Two `task_reap` calls of one id free what a live task shows.** The second call ends on the slot of the new app and
gives its pages back; the app's child shows them still. -/
theorem reap_overlap_frees_shared : ∃ tr s, Run step MainStays vgaBoot tr s ∧ s.Live 3 ∧
    s.sees 3 appLoadAddr = some 2 ∧ s.mem.bitmap 2 = false := by
  have hok : AllOk step MainStays vgaBoot (bothReap ++ [Op.go] ++ appInSlot ++ [Op.go]) := by decide +kernel
  obtain ⟨tr, h⟩ := Run.of_allOk hok
  have hbefore : runOps step vgaBoot (bothReap ++ [Op.go] ++ appInSlot) =
      runOps step ((runOps step vgaBoot bothReap).afterReap 2 ((runOps step vgaBoot bothReap).mem.withoutScratch 1 2))
        appInSlot := by
    rw [← bothReap_ends]
    exact foldl_append
  rw [runOps_snoc, hbefore] at h
  generalize hu : runOps step ((runOps step vgaBoot bothReap).afterReap 2
    ((runOps step vgaBoot bothReap).mem.withoutScratch 1 2)) appInSlot = u at h
  have hreaps : u.reaps u.current = [⟨2, 2, 8, false⟩] := by
    rw [← hu]
    decide +kernel
  have hd : (u.tasks 2).cr3 = some (.task 1) := by
    rw [← hu]
    decide +kernel
  have hchild : (u.tasks 3).state = .ready ∧ (u.tasks 3).cr3 = some (.task 2) ∧
      u.mem.userFrame (.task 2) appLoadAddr = some 2 := by
    rw [← hu]
    decide +kernel
  have htable : u.mem.owner 2 = some (.task 1) ∧ u.mem.dir (.task 1) 0 = ⟨.priv 2, true, true⟩ ∧
      (u.mem.tab (.priv 2) 512).frame = some 2 := by
    rw [← hu]
    decide +kernel
  refine ⟨tr, _, h, ?_⟩
  rw [step_go_reaped hreaps le_rfl hd]
  have htask : (u.afterReap 2 (u.mem.release (.task 1))).tasks 3 = u.tasks 3 := by simp [afterReap]
  have hmem : (u.afterReap 2 (u.mem.release (.task 1))).mem = u.mem.release (.task 1) := by simp only [afterReap]
  refine ⟨?_, ?_, ?_⟩
  · rw [Live, htask, hchild.1]
    simp
  · rw [sees, htask, hchild.2.1, Option.bind_some, hmem, userFrame_release (by simp)]
    exact hchild.2.2
  · -- table 2 is the app's, shown by its slot 0, and entry 512 is its code page
    rw [Bool.eq_false_iff, hmem, Paging.release, freeDirectory_bitmap]
    have hfreed : u.mem.Freed (.task 1) pageEntries 2 := ⟨htable.1, 0, by decide, by rw [htable.2.1], by rw [htable.2.1]⟩
    exact fun hb => (((u.mem.freePrivatePages_freed (.task 1)).bitmap 2).1 hb).2 2 hfreed 512 (by decide) htable.2.2

end GannetOS.Proc.Kernel
