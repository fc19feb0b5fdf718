/-
The regions a program is told to use: [__appbuf_start, __appbuf_end) and [__appstack_start, __appstack_end).

At boot both are marked PAGE_USER in the kernel's table of slot 0, where they show the physical pages under exec_buf.
`try_exec` gives a program private pages for its mem_size and its stack; every other page of the two regions keeps the
kernel's entry. `user_range_ok` accepts the regions whole.

- `AppInv`: the program of a launch that has been started is the task with its id, in the directory that was built for
  it; no other task has a private slot 0; a spawned task shows the slot 0 of its parent;
- `app_regions`: as long as the program or a task of its family is there, all that user mode reaches in the two regions
  is the program's own exactly if mem_size is over 15 pages;
- `small_app_reaches_exec_buf`: a program of one byte reaches the last page of exec_buf.
-/
import GannetOS.Proc.Isolation

namespace GannetOS.Mem.Paging

/-- the physical page that user code reaches at `v` through directory `d` -/
def userPage (m : Paging) (d : DirRef) (v : UInt32) : Option ℕ :=
  let e := m.dir d (pdIndex v)
  let t := m.tab e.table (ptIndex v)
  if e.present ∧ e.user ∧ t.present ∧ t.user then some t.page else none

end GannetOS.Mem.Paging

namespace GannetOS.Proc.Blob

/-- a program of more than 15 pages has a private page everywhere in the regions -/
theorem index_covers {b : Blob} (hb : 61440 < b.memSize) {j : ℕ} (hj : 512 ≤ j) (hj' : j < 532) :
    ∃ q < b.pages, j = b.index q := by
  have hle := b.le
  have hcode : b.codePages = 16 := by
    simp only [codePages]
    omega
  refine ⟨j - 512, ?_, ?_⟩
  · simp only [pages, hcode]
    omega
  · simp only [index, hcode]
    split_ifs <;> omega

/-- a smaller one has none in the last page of .appbuf -/
theorem index_misses {b : Blob} (hb : b.memSize ≤ 61440) (q : ℕ) : 527 ≠ b.index q := by
  have hcode : b.codePages ≤ 15 := by
    simp only [codePages]
    omega
  simp only [index]
  split_ifs <;> omega

end GannetOS.Proc.Blob

namespace GannetOS.Proc.Kernel

open GannetOS.Core GannetOS.Mem GannetOS.Mem.Paging Relation

variable {s s' s₀ : Kernel} {op : Op} {r : Option ℤ}

/-! ## The program of a launch -/

/-- `try_exec` has started program `b` in directory `d` as the task with that id, and has not returned -/
def Launched (s : Kernel) (d : DirRef) (b : Blob) (id : ℤ) : Prop :=
  s.exec = some (.wait d b id) ∨ s.exec = some (.reaping d b id)

/-- slot 0 of directory `d` of task `a` is a table of its own -/
def PrivateZero (s : Kernel) (a : Fin 8) (d : DirRef) : Prop :=
  s.Live a ∧ (s.tasks a).cr3 = some d ∧ ∃ k, s.mem.dir d 0 = ⟨.priv k, true, true⟩ ∧ s.mem.owner k = some d

structure AppInv (s : Kernel) : Prop where
  known : ∀ d b id, s.Launched d b id → id < s.nextTaskId
  running : ∀ d b id a, s.Launched d b id → s.Live a → (s.tasks a).id = id →
    (s.tasks a).cr3 = some d ∧ s.mem.Private d 0 b.index b.pages 1
  apps : ∀ a d, s.PrivateZero a d → ∃ b, s.Launched d b (s.tasks a).id
  reaping : ∀ d b id a, s.exec = some (.reaping d b id) → s.Live a → (s.tasks a).id = id → ∃ q ∈ s.reaps 0, q.id = id
  inherits : ∀ p j dp dj, s.Parent p j → (s.tasks p).cr3 = some dp → (s.tasks j).cr3 = some dj →
    s.mem.dir dj 0 = s.mem.dir dp 0

/-- what a step keeps: no new tasks, and the directories of those that stay are not touched -/
structure Keeps (s s' : Kernel) : Prop where
  live : ∀ a, s'.Live a → s.Live a
  id : ∀ a, s'.Live a → (s'.tasks a).id = (s.tasks a).id
  cr3 : ∀ a, s'.Live a → (s'.tasks a).cr3 = (s.tasks a).cr3
  parentId : ∀ a, s'.Live a → (s'.tasks a).parentId = (s.tasks a).parentId
  dirs : ∀ a d, s'.Live a → (s.tasks a).cr3 = some d → Undisturbed s.mem s'.mem d
  kernel : SameKernel s.mem s'.mem
  next : s.nextTaskId ≤ s'.nextTaskId

variable {a i : Fin 8} {d : DirRef} {q : Reap}

theorem Keeps.privateZero (h : Keeps s s') (hz : s'.PrivateZero a d) : s.PrivateZero a d := by
  obtain ⟨hl, hd, k, hdir, hown⟩ := hz
  rw [h.cr3 a hl] at hd
  have hund := h.dirs a d hl hd
  exact ⟨h.live a hl, hd, k, hund.dir ▸ hdir, (hund.owner k).1 hown⟩

theorem Keeps.parent (h : Keeps s s') {p j : Fin 8} (hp : s'.Parent p j) : s.Parent p j := by
  obtain ⟨hl, hj, hpar⟩ := hp
  rw [h.parentId j hj, h.id p hl] at hpar
  exact ⟨h.live p hl, h.live j hj, hpar⟩

theorem Keeps.inherits (h : Keeps s s') (hs : s.AppInv) {p j : Fin 8} {dp dj : DirRef} (hp : s'.Parent p j)
    (hdp : (s'.tasks p).cr3 = some dp) (hdj : (s'.tasks j).cr3 = some dj) : s'.mem.dir dj 0 = s'.mem.dir dp 0 := by
  rw [h.cr3 p hp.1] at hdp
  rw [h.cr3 j hp.2.1] at hdj
  rw [(h.dirs p dp hp.1 hdp).dir, (h.dirs j dj hp.2.1 hdj).dir]
  exact hs.inherits p j dp dj (h.parent hp) hdp hdj

/-- the launch goes on as before -/
theorem AppInv.keep (h : s.AppInv) (hk : s.mem.KernelMap) (hs : Keeps s s') (hexec : s'.exec = s.exec)
    (hreaps : ∀ q ∈ s.reaps 0, (∃ q' ∈ s'.reaps 0, q'.id = q.id) ∨ ∀ a, s'.Live a → (s'.tasks a).id ≠ q.id) :
    s'.AppInv := by
  have hlaunched : s'.Launched = s.Launched := by
    funext d b id
    simp only [Launched, hexec]
  refine ⟨fun d b id hl => ?_, fun d b id a hl ha hid => ?_, fun a d hz => ?_, fun d b id a he ha hid => ?_,
    fun p j dp dj hp => hs.inherits h hp⟩
  · rw [hlaunched] at hl
    exact (h.known d b id hl).trans_le hs.next
  · rw [hlaunched] at hl
    rw [hs.id a ha] at hid
    obtain ⟨hd, hp⟩ := h.running d b id a hl (hs.live a ha) hid
    exact ⟨(hs.cr3 a ha).trans hd, hp.same hk (by decide) (hs.dirs a d ha hd) hs.kernel⟩
  · rw [hlaunched, hs.id a hz.1]
    exact h.apps a d (hs.privateZero hz)
  · have hid' := hid
    rw [hs.id a ha] at hid'
    obtain ⟨q, hq, rfl⟩ := h.reaping d b id a (hexec ▸ he) (hs.live a ha) hid'
    exact (hreaps q hq).resolve_right fun hno => hno a ha hid

/-- no program is there before, and none after -/
theorem AppInv.idle (h : s.AppInv) (hs : Keeps s s')
    (hold : ∀ d b id, s.Launched d b id → ∀ a, s'.Live a → (s'.tasks a).id ≠ id)
    (hnew : ∀ d b id, ¬ s'.Launched d b id) : s'.AppInv := by
  refine ⟨fun d b id hl => absurd hl (hnew d b id), fun d b id a hl => absurd hl (hnew d b id), fun a d hz => ?_,
    fun d b id a he => absurd (.inr he) (hnew d b id), fun p j dp dj hp => hs.inherits h hp⟩
  obtain ⟨b, hb⟩ := h.apps a d (hs.privateZero hz)
  exact absurd (hs.id a hz.1) (hold d b _ hb a hz.1)

/-- **A new task in directory `x`**: it is the program just launched, or it has no table of its own at slot 0 and shows
that slot of its parent. -/
theorem AppInv.install (h : s.AppInv) (hiso : IsoInv s₀ s) (hi : (s.tasks i).state = .unused) {x : DirRef}
    {m : Paging} {ring3 : Bool} {parent : ℤ} {e : Option Exec} (hl : Local x s.mem m) (hx : x ≠ .kernel)
    (hfree : ∀ j, (s.tasks j).cr3 ≠ some x) (hparent : parent < s.nextTaskId)
    (hs' : s' = { { s with mem := m }.install i x ring3 parent with exec := e })
    (hkeep : ∀ d b id, s.Launched d b id → s'.Launched d b id)
    (hback : ∀ d b id, s'.Launched d b id → s.Launched d b id ∨
      id = s.nextTaskId ∧ d = x ∧ m.Private x 0 b.index b.pages 1)
    (hreaping : ∀ d b id, s'.exec = some (.reaping d b id) → s.exec = some (.reaping d b id))
    (hown : ∀ l, m.dir x 0 = ⟨.priv l, true, true⟩ → m.owner l = some x → ∃ b, s'.Launched x b s.nextTaskId)
    (hshare : ∀ p dp, s.Live p → (s.tasks p).id = parent → (s.tasks p).cr3 = some dp → m.dir x 0 = s.mem.dir dp 0) :
    s'.AppInv := by
  have hsched := hiso.pool.sched
  have htask : ∀ j, s'.tasks j = if j = i then
      { state := .ready, id := s.nextTaskId, cr3 := some x, isRing3 := ring3 || (s.tasks i).isRing3,
        kernelStackTop := if ring3 then stackTop i else (s.tasks i).kernelStackTop, parentId := parent }
      else s.tasks j := by
    rw [hs']
    exact install_tasks m i x ring3 parent
  have hmem : s'.mem = m := by rw [hs']; rfl
  have hnext : s'.nextTaskId = s.nextTaskId + 1 := by rw [hs']; rfl
  have hsame := hl.sameKernel hx
  have hold : ∀ a, a ≠ i → s'.Live a → s.Live a := by
    intro a ha hlive
    rwa [Live, htask, if_neg ha] at hlive
  have hund : ∀ a d, (s.tasks a).cr3 = some d → Undisturbed s.mem m d := fun a d hd =>
    hl.others d fun he => hfree a (he ▸ hd)
  refine ⟨fun d b id hla => ?_, fun d b id a hla ha hid => ?_, fun a d hz => ?_, fun d b id a he ha hid => ?_,
    fun p j dp dj hp hdp hdj => ?_⟩
  · rw [hnext]
    rcases hback d b id hla with hla | ⟨rfl, -⟩
    · exact (h.known d b id hla).trans (lt_add_one _)
    · exact lt_add_one _
  · rw [hmem]
    by_cases hai : a = i
    · rw [htask, if_pos hai] at hid ⊢
      rcases hback d b id hla with hla | ⟨-, rfl, hp⟩
      · exact absurd hid.symm (h.known d b id hla).ne
      · exact ⟨rfl, hp⟩
    · have hlive := hold a hai ha
      rw [htask, if_neg hai] at hid ⊢
      rcases hback d b id hla with hla | ⟨hnew, -⟩
      · obtain ⟨hd, hp⟩ := h.running d b id a hla hlive hid
        exact ⟨hd, hp.same hiso.pool.mem.kernel (by decide) (hund a d hd) hsame⟩
      · exact absurd (hid.trans hnew) (hsched.ids a hlive).2.ne
  · obtain ⟨hlive, hd, k, hdir, hk⟩ := hz
    rw [hmem] at hdir hk
    by_cases hai : a = i
    · rw [htask, if_pos hai] at hd ⊢
      obtain rfl := Option.some.inj hd
      exact hown k hdir hk
    · rw [htask, if_neg hai] at hd ⊢
      obtain ⟨b, hb⟩ := h.apps a d ⟨hold a hai hlive, hd, k, (hund a d hd).dir ▸ hdir, ((hund a d hd).owner k).1 hk⟩
      exact ⟨b, hkeep d b _ hb⟩
  · have he := hreaping d b id he
    have hlt := h.known d b id (.inr he)
    by_cases hai : a = i
    · rw [htask, if_pos hai] at hid
      exact absurd hid.symm hlt.ne
    · rw [htask, if_neg hai] at hid
      have hreaps : s'.reaps 0 = s.reaps 0 := by
        rw [hs']
        exact (install_reaps m i x ring3 parent 0).trans (if_neg (hsched.free_ne hi).2)
      rw [hreaps]
      exact h.reaping d b id a he (hold a hai ha) hid
  · obtain ⟨hlp, hlj, hpar⟩ := hp
    rw [hmem]
    by_cases hpi : p = i
    · -- nobody has the new id as parent
      rw [htask, htask, if_pos hpi] at hpar
      by_cases hji : j = i
      · rw [if_pos hji] at hpar
        exact absurd hpar hparent.ne
      · rw [if_neg hji] at hpar
        have hpos := hsched.ids _ hsched.current_live
        rcases hiso.family.parents j (hold j hji hlj) with hnone | ⟨y, hy, -, hid⟩
        · have : (-1 : ℤ) = s.nextTaskId := hnone.symm.trans hpar
          omega
        · exact absurd (hid.symm.trans hpar) (hsched.ids y hy).2.ne
    · have hlp := hold p hpi hlp
      rw [htask, htask, if_neg hpi] at hpar
      rw [htask, if_neg hpi] at hdp
      rw [htask] at hdj
      by_cases hji : j = i
      · rw [if_pos hji] at hpar hdj
        obtain rfl := Option.some.inj hdj
        rw [(hund p dp hdp).dir]
        exact hshare p dp hlp hpar.symm hdp
      · rw [if_neg hji] at hpar hdj
        rw [(hund p dp hdp).dir, (hund j dj hdj).dir]
        exact h.inherits p j dp dj ⟨hlp, hold j hji hlj, hpar⟩ hdp hdj

/-- a task that has just been created by another call has no table of its own at slot 0 -/
theorem IsoInv.created_shares (h : IsoInv s₀ s) {share : Option DirRef} {vs : List UInt32} {ring3 : Bool} {parent : ℤ}
    {k : Fin 8} {m : Paging} (hc : Creation s op share vs ring3 parent) (hl : Local (.task k) s.mem m)
    (hfree : ∀ j, (s.tasks j).cr3 ≠ some (.task k)) (hslot : m.dir (.task k) 0 = s.mem.dir (shareFrom share) 0)
    {l : Fin 20} (hdir : m.dir (.task k) 0 = ⟨.priv l, true, true⟩) : m.owner l ≠ some (.task k) := by
  have hdir := hslot.symm.trans hdir
  have hkernel : s.mem.dir .kernel 0 ≠ ⟨.priv l, true, true⟩ := by
    intro he
    obtain ⟨b, hb, -⟩ := h.pool.mem.kernel.boot 0 (by decide) (by decide) (by rw [he])
    rw [he] at hb
    cases hb
  cases hc with
  | task | ring3 => exact absurd hdir hkernel
  | child =>
    obtain ⟨d, hd, -⟩ := h.pool.live_cr3 h.pool.sched.current_live
    rw [hd] at hdir
    by_cases h0 : s.current = 0
    · rw [h0, h.pool.kernelDir] at hd
      obtain rfl := Option.some.inj hd
      exact absurd hdir hkernel
    rcases (h.spaces s.current d h0 h.pool.sched.current_live hd).slotZero with hz | ⟨a, da, k', -, hcr3, hown, -, hz⟩
    · exact absurd (hz.symm.trans hdir) hkernel
    · obtain rfl : k' = l := TableRef.priv.inj (congrArg Pde.table (hz.symm.trans hdir))
      intro hk
      have hne : da ≠ .task k := fun he => hfree a (he ▸ hcr3)
      exact hne (Option.some.inj (((hl.others da hne).owner k').2 hown ▸ hk))

theorem keeps_of_same (hh : SameHolders s s') (hf : SameFamily s s') (hnext : s'.nextTaskId = s.nextTaskId) : Keeps s s' :=
  ⟨fun a => (hh.live a).1, fun a _ => hf.id a, fun a _ => hh.cr3 a, fun a _ => hf.parentId a,
    fun _ d _ _ => hh.mem ▸ Undisturbed.refl s.mem d, hh.mem ▸ SameKernel.refl s.mem, hnext.ge⟩

/-- the same table, in a memory where a directory has changed that no task holds -/
theorem keeps_of_local {x : DirRef} (hl : Local x s.mem s'.mem) (hx : x ≠ .kernel)
    (hfree : ∀ i, (s.tasks i).cr3 ≠ some x) (htasks : s'.tasks = s.tasks) (hnext : s'.nextTaskId = s.nextTaskId) :
    Keeps s s' := by
  refine ⟨fun a ha => ?_, fun a _ => by rw [htasks], fun a _ => by rw [htasks], fun a _ => by rw [htasks],
    fun a d _ hd => hl.others d fun he => hfree a (he ▸ hd), hl.sameKernel hx, hnext.ge⟩
  rwa [Live, htasks] at ha

theorem schedule_nextTaskId (s : Kernel) : s.schedule.nextTaskId = s.nextTaskId := by
  rcases s.schedule_cases with he | ⟨n, -, -, he⟩ <;> rw [he]
  exact switchTo_nextTaskId _ _

/-- `task_reap` adds to the calls in progress -/
theorem taskReap_reaps (id : ℤ) {t : Fin 8} (hq : q ∈ s.reaps t) : q ∈ (s.taskReap id).reaps t := by
  rcases s.taskReap_cases id with he | ⟨i, -, -, he⟩
  · rwa [he]
  · rw [he]
    by_cases ht : t = s.current
    · subst ht
      simp [Kernel.setReaps, hq]
    · simpa [Kernel.setReaps, ht] using hq

/-- a step inside `task_reap` calls: tables and memory stay, and so do the ids being reaped -/
theorem AppInv.reapStep (h : s.AppInv) (hk : s.mem.KernelMap) (htasks : s'.tasks = s.tasks) (hmem : s'.mem = s.mem)
    (hexec : s'.exec = s.exec) (hnext : s'.nextTaskId = s.nextTaskId)
    (hreaps : ∀ q ∈ s.reaps 0, ∃ q' ∈ s'.reaps 0, q'.id = q.id) : s'.AppInv := by
  refine h.keep hk ⟨fun a ha => ?_, fun a _ => by rw [htasks], fun a _ => by rw [htasks], fun a _ => by rw [htasks],
    fun a d _ _ => hmem ▸ Undisturbed.refl s.mem d, hmem ▸ SameKernel.refl s.mem, hnext.ge⟩ hexec
    fun q hq => .inl (hreaps q hq)
  rwa [Live, htasks] at ha

/-- the ids of the running task's calls are the same after its innermost one goes on -/
theorem advance_reaps {q' : Reap} {rest : List Reap} (hq : s.reaps s.current = q :: rest) (hid : q'.id = q.id) (t : Fin 8)
    (x : Reap) (hx : x ∈ s.reaps t) : ∃ y ∈ (s.setReaps (q' :: rest)).reaps t, y.id = x.id := by
  by_cases ht : t = s.current
  · subst ht
    have hself : (s.setReaps (q' :: rest)).reaps s.current = q' :: rest := by simp [Kernel.setReaps]
    rw [hself]
    rw [hq] at hx
    rcases List.mem_cons.1 hx with rfl | hx
    · exact ⟨q', by simp, hid⟩
    · exact ⟨x, by simp [hx], rfl⟩
  · refine ⟨x, ?_, rfl⟩
    simpa [Kernel.setReaps, ht] using hx

/-- `try_exec` has seen its program end and reaps it -/
theorem AppInv.execReaps (h : s.AppInv) (hs : s.SchedInv) {b : Blob} {id : ℤ} (he : s.InExec (.wait d b id))
    (hz : s.taskIsZombie id = true) : ({ s with exec := some (.reaping d b id) }.taskReap id).AppInv := by
  have hmem : ({ s with exec := some (.reaping d b id) }.taskReap id).mem = s.mem := (sameHolders_taskReap _ id).mem
  have hexec : ({ s with exec := some (.reaping d b id) }.taskReap id).exec = some (.reaping d b id) :=
    (sameHolders_taskReap _ id).exec
  have hnext : ({ s with exec := some (.reaping d b id) }.taskReap id).nextTaskId = s.nextTaskId := taskReap_nextTaskId id
  have htasks : ({ s with exec := some (.reaping d b id) }.taskReap id).tasks = s.tasks := taskReap_tasks id
  have hla : ∀ d' b' id',
      ({ s with exec := some (.reaping d b id) }.taskReap id).Launched d' b' id' ↔ s.Launched d' b' id' := by
    intro d' b' id'
    simp only [Launched, hexec, he.exec]
    simp
  have hz' : ∃ i, (s.tasks i).id = id ∧ (s.tasks i).state = .zombie := by
    unfold taskIsZombie at hz
    cases hf : (List.finRange 8).find? fun i => (s.tasks i).id = id with
    | none => simp [hf] at hz
    | some i => exact ⟨i, by simpa using List.find?_some hf, by simpa [hf] using hz⟩
  refine ⟨fun d' b' id' hl => ?_, fun d' b' id' a hl ha hid => ?_, fun a d' hzero => ?_, fun d' b' id' a he' ha hid => ?_,
    fun p j dp dj hp hdp hdj => ?_⟩
  · rw [hnext]
    exact h.known d' b' id' ((hla d' b' id').1 hl)
  · simp only [Live, htasks] at ha hid ⊢
    rw [hmem]
    exact h.running d' b' id' a ((hla d' b' id').1 hl) ha hid
  · simp only [PrivateZero, Live, htasks, hmem] at hzero ⊢
    obtain ⟨b', hb⟩ := h.apps a d' hzero
    exact ⟨b', (hla d' b' _).2 hb⟩
  · obtain ⟨-, -, rfl⟩ := Exec.reaping.inj (Option.some.inj (hexec.symm.trans he'))
    obtain ⟨i, rfl, hzi⟩ := hz'
    have hs' : ({ s with exec := some (.reaping d b (s.tasks i).id) } : Kernel).SchedInv :=
      ⟨⟨hs.only, hs.main, hs.distinct, hs.ids, hs.frames⟩, hs.running, hs.cr3, hs.tss⟩
    refine ⟨⟨i, (s.tasks i).id, 0, false⟩, ?_, rfl⟩
    rw [hs'.taskReap_zombie (i := i) hzi]
    simp [Kernel.setReaps, he.main]
  · simp only [Parent, Child, Live, htasks, hmem] at hp hdp hdj ⊢
    exact h.inherits p j dp dj hp hdp hdj

/-- the end of a `task_reap` -/
theorem AppInv.reaped (h : s.AppInv) (hiso : IsoInv s₀ s) {rest : List Reap} (hq : s.reaps s.current = q :: rest) :
    ((s.freeTask q.slot).setReaps rest).AppInv := by
  obtain ⟨hz, hid⟩ := hiso.family.zombie s.current q (by simp [hq])
  obtain ⟨-, h0⟩ := hiso.pool.sched.frames s.current q (by simp [hq])
  obtain ⟨k, hk, -⟩ := hiso.pool.dirs q.slot h0 (by simp [Live, hz])
  have htask : ∀ j, ((s.freeTask q.slot).setReaps rest).Live j →
      j ≠ q.slot ∧ ((s.freeTask q.slot).setReaps rest).tasks j = s.tasks j := by
    intro j hl
    have ht : ((s.freeTask q.slot).setReaps rest).tasks j =
        if j = q.slot then ⟨.unused, -1, none, false, 0, -1⟩ else s.tasks j := freeTask_tasks q.slot j
    rw [Live, ht] at hl
    rw [ht]
    split_ifs at hl ⊢ with hji
    · exact absurd rfl hl
    · exact ⟨hji, rfl⟩
  have hl : Local (.task k) s.mem ((s.freeTask q.slot).setReaps rest).mem := by
    have : ((s.freeTask q.slot).setReaps rest).mem = s.mem.release (.task k) := by
      simp [Kernel.setReaps, Kernel.freeTask, hk]
    rw [this]
    exact (hiso.pool.mem.release k).2.1
  have hkeeps : Keeps s ((s.freeTask q.slot).setReaps rest) := by
    refine ⟨fun a ha => ?_, fun a ha => by rw [(htask a ha).2], fun a ha => by rw [(htask a ha).2],
      fun a ha => by rw [(htask a ha).2], fun a d ha hd => hl.others d fun he => ?_, hl.sameKernel (by simp), le_rfl⟩
    · have := (htask a ha).2
      rwa [Live, this] at ha
    · exact (htask a ha).1 (hiso.pool.distinct a q.slot _ (he ▸ hd) hk)
  refine h.keep hiso.pool.mem.kernel hkeeps rfl fun x hx => ?_
  by_cases h0 : s.current = 0
  · rw [← h0, hq] at hx
    rcases List.mem_cons.1 hx with rfl | hx
    · -- the task it was reaping is gone
      refine .inr fun a ha hida => ?_
      obtain ⟨hne, hta⟩ := htask a ha
      have hla := hkeeps.live a ha
      rw [hta] at hida
      exact hne (hiso.pool.sched.distinct a x.slot hla (by simp [Live, hz]) (hida.trans hid.symm))
    · refine .inl ⟨x, ?_, rfl⟩
      simp [Kernel.setReaps, Kernel.freeTask, h0, hx]
  · refine .inl ⟨x, ?_, rfl⟩
    simpa [Kernel.setReaps, Kernel.freeTask, Ne.symm h0] using hx

/-- **One operation keeps the program in its directory.** -/
theorem AppInv.moves (h : s.AppInv) (hiso : IsoInv s₀ s) (hm : Moves s op r s') (hop : s.Apart op) : s'.AppInv := by
  have hk := hiso.pool.mem.kernel
  have hids := hiso.pool.sched.ids
  have hsame : ∀ {q : Reap} {t : Fin 8} {x : Kernel}, x.reaps = s.reaps → q ∈ s.reaps t → ∃ q' ∈ x.reaps t, q'.id = q.id :=
    fun hx hq => ⟨_, hx ▸ hq, rfl⟩
  have hnot : ∀ {d b p}, s.exec = some (.build d b p) → ∀ d' b' id, ¬ s.Launched d' b' id := by
    intro d b p he d' b' id hl
    simp [Launched, he] at hl
  cases hm with
  | idle => exact h
  | scheduled =>
    have hf := sameFamily_schedule s
    exact h.keep hk (keeps_of_same (sameHolders_schedule s) hf (schedule_nextTaskId s)) (sameHolders_schedule s).exec
      fun q hq => .inl (hsame hf.reaps hq)
  | exited =>
    have hh := sameHolders_exit hiso.pool.sched
    have hf := sameFamily_exit hiso.pool.sched
    exact h.keep hk (keeps_of_same hh hf (schedule_nextTaskId _)) hh.exec fun q hq => .inl (hsame hf.reaps hq)
  | created i d m _ hc hi hm =>
    obtain ⟨k, m', p, heq, ht, -, -, hslot⟩ := hiso.pool.creates hi hc
    rw [heq] at hm
    obtain ⟨hd, rfl⟩ := Prod.mk.inj hm
    obtain rfl := Option.some.inj hd
    have hfree := hiso.pool.free_dir ht.free
    have hcur := hids s.current hiso.pool.sched.current_live
    refine h.install hiso (freeSlot_unused hi) (e := s.exec) ht.others (by simp) hfree ?_ rfl (fun _ _ _ hl => hl)
      (fun _ _ _ hl => .inl hl) (fun _ _ _ he => he) (fun l hdir hown => ?_) fun p dp hp hpid hdp => ?_
    · cases hc with
      | task | ring3 => omega
      | child => exact hcur.2
    · exact absurd hown (hiso.created_shares hc ht.others hfree hslot hdir)
    · cases hc with
      | task | ring3 =>
        have := (hids p hp).1
        omega
      | child =>
        obtain rfl := hiso.pool.sched.distinct p s.current hp hiso.pool.sched.current_live hpid
        rw [hslot, hdp]
        rfl
  | leaked i m hc hi hm =>
    obtain ⟨k, m', p, heq, -⟩ := hiso.pool.creates hi hc
    rw [heq] at hm
    cases (Prod.mk.inj hm).1
  | execFailed b m h0 hfree hm =>
    obtain ⟨k, hk⟩ := hiso.pool.exists_dir (.inr (not_busy_exec hfree h0))
    rw [(hiso.pool.mem.clone hk).1] at hm
    cases (Prod.mk.inj hm).1
  | execStarted b d m h0 hfree hm =>
    have he := not_busy_exec hfree h0
    obtain ⟨k, hfirst⟩ := hiso.pool.exists_dir (.inr he)
    obtain ⟨heq, -, hl, -⟩ := hiso.pool.mem.clone hfirst
    rw [heq] at hm
    obtain ⟨-, rfl⟩ := Prod.mk.inj hm
    refine h.idle (keeps_of_local (x := .task k) hl (by simp) (hiso.pool.free_dir (firstFree_free hfirst)) rfl rfl) ?_ ?_
    · intro d b id hla
      simp [Launched, he] at hla
    · simp [Launched]
  | execMapped d b p f m he hp hm =>
    obtain ⟨hfree, k, rfl, -⟩ := hiso.pool.building d b p he.exec
    obtain ⟨f', m', heq, hl, -⟩ := hiso.pool.execMapped he.exec hp
    rw [heq] at hm
    obtain ⟨-, rfl⟩ := Prod.mk.inj hm
    refine h.idle (keeps_of_local (local_copyPage hl b p f) (by simp) hfree rfl rfl) ?_ (by simp [Launched])
    exact fun d b id hla => absurd hla (hnot he.exec d b id)
  | execAborted d b p m he hm =>
    obtain ⟨hfree, k, rfl, -⟩ := hiso.pool.building d b p he.exec
    obtain ⟨-, rfl⟩ := hiso.pool.aborts he.exec hm
    refine h.idle (keeps_of_local (x := .task k) ?_ (by simp) hfree (execAbort_tasks _ _) (execAbort_nextTaskId _ _)) ?_ ?_
    · rw [execAbort_mem]
      exact (hiso.pool.mem.release k).2.1
    · exact fun d b id hla => absurd hla (hnot he.exec d b id)
    · simp [Launched, execAbort_exec]
  | execCreated d b p i f m he hp hi hm =>
    obtain ⟨hfree, k, rfl, -, hpp, -⟩ := hiso.pool.building d b p he.exec
    obtain ⟨f', m', heq, hl, hpriv, -⟩ := hiso.pool.execCreated he.exec hi s.nextTaskId
    rw [heq] at hm
    obtain ⟨-, rfl⟩ := Prod.mk.inj hm
    obtain rfl : p = b.pages := le_antisymm hpp hp
    have hpos := hids s.current hiso.pool.sched.current_live
    refine h.install hiso (freeSlot_unused hi) hl (by simp) hfree (by omega) rfl
      (fun d b id hla => absurd hla (hnot he.exec d b id)) (fun d' b' id hla => .inr ?_) (fun _ _ _ hr => ?_)
      (fun _ _ _ => ⟨b, .inl rfl⟩) fun p dp hlp hpid => ?_
    · rcases hla with hla | hla
      · obtain ⟨rfl, rfl, rfl⟩ := Exec.wait.inj (Option.some.inj hla)
        exact ⟨rfl, rfl, hpriv⟩
      · cases hla
    · cases hr
    · have := (hids p hlp).1
      omega
  | execReaps d b id he hz => exact h.execReaps hiso.pool.sched he hz
  | execDone d b id he =>
    have hkeeps : Keeps s { s with exec := none } := ⟨fun _ ha => ha, fun _ _ => rfl, fun _ _ => rfl, fun _ _ => rfl,
      fun _ d _ _ => Undisturbed.refl s.mem d, SameKernel.refl s.mem, le_rfl⟩
    refine h.idle hkeeps (fun d' b' id' hla a ha hid => ?_) (by simp [Launched])
    rcases hla with hla | hla
    · rw [he.exec] at hla
      cases hla
    · obtain ⟨q, hq, -⟩ := h.reaping d' b' id' a hla ha hid
      rw [he.top] at hq
      cases hq
  | reapCalled id =>
    exact h.reapStep hk (taskReap_tasks id) (sameHolders_taskReap s id).mem (sameHolders_taskReap s id).exec
      (taskReap_nextTaskId id) fun q hq => ⟨q, taskReap_reaps id hq, rfl⟩
  | reapWaits q rest hj hq => exact h.reapStep hk rfl rfl rfl rfl fun x => advance_reaps hq (by rfl) 0 x
  | reapSkips q rest hj hq => exact h.reapStep hk rfl rfl rfl rfl fun x => advance_reaps hq (by rfl) 0 x
  | reapsChild q rest hj hq =>
    have hadv : (s.setReaps ({ q with j := q.j + 1, waiting := false } :: rest)).AppInv :=
      h.reapStep hk rfl rfl rfl rfl fun x => advance_reaps hq (by rfl) 0 x
    refine hadv.reapStep hk (taskReap_tasks _) (sameHolders_taskReap _ _).mem (sameHolders_taskReap _ _).exec
      (taskReap_nextTaskId _) fun x hx => ⟨x, taskReap_reaps _ hx, rfl⟩
  | reaped q rest hj hq => exact h.reaped hiso hq

theorem appInv_boot {l : Layout} (h : boot l = some s) : s.AppInv := by
  have hiso := isoInv_boot h
  obtain ⟨m, -, rfl⟩ := Option.map_eq_some_iff.1 h
  have hmain : ∀ a, (taskInit l m).Live a → a = 0 := fun a ha => by_contra fun hne => by simp [Live, taskInit, hne] at ha
  have hno : ∀ d b id, ¬ (taskInit l m).Launched d b id := by simp [Launched, taskInit]
  refine ⟨fun d b id hl => absurd hl (hno d b id), fun d b id a hl => absurd hl (hno d b id), fun a d hz => ?_,
    fun d b id a he => absurd (.inr he) (hno d b id), fun p j dp dj hp hdp hdj => ?_⟩
  · obtain ⟨hl, hd, k, hdir, -⟩ := hz
    obtain rfl := hmain a hl
    obtain rfl : DirRef.kernel = d := Option.some.inj (hiso.pool.kernelDir.symm.trans hd)
    obtain ⟨b, hb, -⟩ := hiso.pool.mem.kernel.boot 0 (by decide) (by decide) (by rw [hdir])
    rw [hdir] at hb
    cases hb
  · obtain rfl := hmain p hp.1
    obtain rfl := hmain j hp.2.1
    obtain rfl := Option.some.inj (hdp.symm.trans hdj)
    rfl

theorem appInv_run {l : Layout} {tr : List (Op × Option ℤ)} (hboot : boot l = some s₀) (h : Run step Apart s₀ tr s) :
    IsoInv s₀ s ∧ s.AppInv :=
  h.invariant (I := fun s => IsoInv s₀ s ∧ s.AppInv)
    (fun s op hinv hop => ⟨hinv.1.moves (s.step_moves op) hop, hinv.2.moves hinv.1 (s.step_moves op) hop⟩)
    ⟨isoInv_boot hboot, appInv_boot hboot⟩

/-! ## The regions -/

/-- an address that `user_range_ok` accepts: in .appbuf or in .appstack -/
def InRegions (v : UInt32) : Prop := 0x200000 ≤ v.toNat ∧ v.toNat < 0x210000 ∨ 0x210000 ≤ v.toNat ∧ v.toNat < 0x214000

/-- the physical page that task `i` reaches at `v` in user mode -/
def seesPage (s : Kernel) (i : Fin 8) (v : UInt32) : Option ℕ := (s.tasks i).cr3.bind fun d => s.mem.userPage d v

theorem InRegions.index {v : UInt32} (h : InRegions v) : pdIndex v = 0 ∧ 512 ≤ ptIndex v ∧ ptIndex v < 532 := by
  simp only [InRegions, pdIndex, ptIndex] at h ⊢
  omega

/-- the whole family of a task shows its slot 0 -/
theorem AppInv.family_slot (h : s.AppInv) (hpool : PoolInv s₀ s) {di : DirRef} (hp : ReflTransGen s.Parent a i)
    (hd : (s.tasks a).cr3 = some d) (hdi : (s.tasks i).cr3 = some di) : s.mem.dir di 0 = s.mem.dir d 0 := by
  induction hp generalizing di with
  | refl => rw [Option.some.inj (hd.symm.trans hdi)]
  | @tail b c _ hbc ih =>
    obtain ⟨db, hdb, -⟩ := hpool.live_cr3 hbc.1
    exact (h.inherits b c db di hbc hdb hdi).trans (ih hdb)

/-- every task shows the kernel's slot 0, or is in the family of the program that `try_exec` is running -/
theorem AppInv.families (h : s.AppInv) (hiso : IsoInv s₀ s) (hi : s.Live i) (hd : (s.tasks i).cr3 = some d) :
    s.mem.dir d 0 = s.mem.dir .kernel 0 ∨
      ∃ a da b, s.Live a ∧ ReflTransGen s.Parent a i ∧ s.Launched da b (s.tasks a).id := by
  by_cases h0 : i = 0
  · subst h0
    obtain rfl : DirRef.kernel = d := Option.some.inj (hiso.pool.kernelDir.symm.trans hd)
    exact .inl rfl
  refine (hiso.spaces i d h0 hi hd).slotZero.imp_right fun ⟨a, da, k, ha, hcr3, hown, hda, _⟩ => ?_
  have hl : s.Live a := by
    rcases ReflTransGen.cases_head ha with rfl | ⟨b, hab, -⟩
    · exact hi
    · exact hab.1
  obtain ⟨b, hb⟩ := h.apps a da ⟨hl, hcr3, k, hda, hown⟩
  exact ⟨a, da, b, hl, ha, hb⟩

/-- what the family of a program reaches in the regions: an entry of the table of slot 0 -/
theorem AppInv.region_entry (h : s.AppInv) (hpool : PoolInv s₀ s) {b : Blob} {v : UInt32} (ha : s.Live a)
    (hla : s.Launched d b (s.tasks a).id) (hp : ReflTransGen s.Parent a i) (hv : InRegions v) :
    ∃ k, s.mem.dir d 0 = ⟨.priv k, true, true⟩ ∧ s.mem.owner k = some d ∧
      (∀ q < b.pages, ∃ f, s.mem.tab (.priv k) (b.index q) = ⟨pageOf f, true, true⟩) ∧
      (∀ j, (∀ q < b.pages, j ≠ b.index q) → s.mem.tab (.priv k) j = s.mem.copied .kernel 0 j) ∧
      s.seesPage i v = if (s.mem.tab (.priv k) (ptIndex v)).present ∧ (s.mem.tab (.priv k) (ptIndex v)).user
        then some (s.mem.tab (.priv k) (ptIndex v)).page else none := by
  obtain ⟨hd, hpriv⟩ := h.running d b _ a hla ha rfl
  obtain ⟨k, hdir, hown, hpages, hrest⟩ := hpriv.main.table (by simp [Blob.pages])
  refine ⟨k, hdir, hown, hpages, hrest, ?_⟩
  have hi : s.Live i := by
    rcases ReflTransGen.cases_tail hp with rfl | ⟨c, -, hc⟩
    · exact ha
    · exact hc.2.1
  obtain ⟨di, hdi, -⟩ := hpool.live_cr3 hi
  have hslot := h.family_slot hpool hp hd hdi
  simp only [seesPage, hdi, Option.bind_some, userPage, hv.index.1, hslot, hdir, true_and]

/-- **An app's regions.** In every state of every run in which task 0 does not exit and no `task_reap` is entered while
another of the same id is in progress: a task shows the kernel's slot 0, or is in the family of the program that
`try_exec` is running; and all that the family of that program reaches in user mode in the two regions is private to the
program exactly if its mem_size is over 61440. -/
theorem app_regions {l : Layout} {tr : List (Op × Option ℤ)} (hboot : boot l = some s₀) (h : Run step Apart s₀ tr s) :
    (∀ i d, s.Live i → (s.tasks i).cr3 = some d → s.mem.dir d 0 = s.mem.dir .kernel 0 ∨
      ∃ a da b, s.Live a ∧ ReflTransGen s.Parent a i ∧ s.Launched da b (s.tasks a).id) ∧
    ∀ a d b, s.Live a → s.Launched d b (s.tasks a).id →
      (61440 < b.memSize ↔ ∀ i, ReflTransGen s.Parent a i → ∀ v, InRegions v → ∀ page, s.seesPage i v = some page →
        ∃ f, page = pageOf f ∧ s.mem.Holds d f) := by
  obtain ⟨hiso, happ⟩ := appInv_run hboot h
  refine ⟨fun i d hi hd => happ.families hiso hi hd, fun a d b ha hla => ⟨fun hb i hp v hv page hpage => ?_, fun hall => ?_⟩⟩
  · obtain ⟨k, -, hown, hpages, -, hsees⟩ := happ.region_entry hiso.pool ha hla hp hv
    obtain ⟨q, hq, hidx⟩ := Blob.index_covers hb hv.index.2.1 hv.index.2.2
    obtain ⟨f, hf⟩ := hpages q hq
    rw [hpage, hidx, hf] at hsees
    refine ⟨f, Option.some.inj hsees, k, b.index q, hown, by simp [hown], hidx ▸ ptIndex_lt v, ?_⟩
    rw [hf, frame_pageOf]
  · by_contra hb
    have hv : InRegions 0x20F000 := by
      left
      decide
    obtain ⟨k, -, -, -, hrest, hsees⟩ := happ.region_entry hiso.pool ha hla .refl hv
    have hpt : ptIndex 0x20F000 = 527 := by decide
    have hshown : s.mem.tab (.priv k) 527 = ⟨527, true, true⟩ := by
      rw [hrest 527 fun q _ => Blob.index_misses (not_lt.1 hb) q,
        hiso.pool.mem.same.copied (memInv_boot hboot).kernel (by decide)]
      exact (boot_region hboot (by decide) (by decide)).2.2
    rw [hpt, hshown] at hsees
    obtain ⟨f, hf, -⟩ := hall a .refl _ hv 527 hsees
    simp only [pageOf, poolStart] at hf
    omega

/-- a program that fills .appbuf -/
def fullSize : Blob := ⟨65536, fun _ => 0xC3, by decide, by decide⟩

/-- `try_exec` waits for a program of that size -/
def waitsFor (s : Kernel) (d : DirRef) (memSize : ℕ) (id : ℤ) : Bool :=
  match s.exec with
  | some (.wait d' b id') => d' = d ∧ b.memSize = memSize ∧ id' = id
  | _ => false

theorem launched_of_waitsFor {n : ℕ} {id : ℤ} (h : s.waitsFor d n id = true) :
    ∃ b, s.Launched d b id ∧ b.memSize = n := by
  unfold waitsFor at h
  split at h
  · rename_i d' b id' he
    obtain ⟨rfl, hn, rfl⟩ := of_decide_eq_true h
    exact ⟨b, .inl he, hn⟩
  · cases h

/-- a launch of a program of 16 code pages: all that it reaches at the end of .appbuf is its own -/
theorem app_regions_fullSize : ∃ tr s b, Run step Apart vgaBoot tr s ∧ s.Live 1 ∧ s.Launched (.task 0) b 1 ∧
    b.memSize = 65536 ∧ ∀ page, s.seesPage 1 0x20F000 = some page → ∃ f, page = pageOf f ∧ s.mem.Holds (.task 0) f := by
  let ops : List Op := [.exec fullSize, .go, .go, .go, .go, .go, .go, .go, .go, .go, .go, .go, .go, .go, .go, .go, .go, .go,
    .go, .go, .go, .go]
  have hok : AllOk step Apart vgaBoot ops := by decide +kernel
  obtain ⟨tr, h⟩ := Run.of_allOk hok
  have hlive : (runOps step vgaBoot ops).Live 1 ∧ ((runOps step vgaBoot ops).tasks 1).id = 1 := by decide +kernel
  obtain ⟨b, hla, hb⟩ := launched_of_waitsFor (show (runOps step vgaBoot ops).waitsFor (.task 0) 65536 1 by decide +kernel)
  have hall := ((app_regions boot_vgaLayout h).2 1 (.task 0) b hlive.1 (hlive.2 ▸ hla)).1 (by rw [hb]; decide)
  exact ⟨tr, _, b, h, hlive.1, hla, hb, hall 1 .refl 0x20F000 (.inl (by decide))⟩

/-- **A small program reaches exec_buf.** After the launch of a program of one byte, its task reaches physical page 0x20F
at 0x20F000 in user mode: the last page of exec_buf, which is no frame of the pool. -/
theorem small_app_reaches_exec_buf : ∃ tr s b, Run step Apart vgaBoot tr s ∧ s.Live 1 ∧ s.Launched (.task 0) b 1 ∧
    b.memSize = 1 ∧ (s.tasks 1).id = 1 ∧ InRegions 0x20F000 ∧ s.seesPage 1 0x20F000 = some 0x20F ∧
    ∀ f, 0x20F ≠ pageOf f := by
  let ops : List Op := [.exec oneByte, .go, .go, .go, .go, .go, .go]
  have hok : AllOk step Apart vgaBoot ops := by decide +kernel
  obtain ⟨tr, h⟩ := Run.of_allOk hok
  obtain ⟨b, hla, hb⟩ := launched_of_waitsFor (show (runOps step vgaBoot ops).waitsFor (.task 0) 1 1 by decide +kernel)
  refine ⟨tr, _, b, h, by decide +kernel, hla, hb, by decide +kernel, .inl (by decide), by decide +kernel, fun f => ?_⟩
  simp only [pageOf, poolStart]
  omega

end GannetOS.Proc.Kernel
