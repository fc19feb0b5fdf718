/-
The scheduler invariant of the task table.

- `step_moves`: everything one operation can do, as the cases of `Moves`; every result about the task table goes by
  cases on it.
- `schedInv_step`: one operation, with any number of `task_reap` calls in progress at once, keeps `SchedInv`.
- `sched_invariant`: in every state of every run from boot in which task 0 does not exit: exactly the running slot is
  RUNNING, CR3 and TSS.esp0 are its own, ids are distinct and were never handed out twice; and whatever the next
  operation is, it switches to a READY task only, and takes a task out of READY or RUNNING only by `task_exit` of the
  running task or at the end of a `task_reap`.
-/
import GannetOS.Core.Run
import GannetOS.Proc.Task

namespace GannetOS.Proc.Kernel

open GannetOS.Core GannetOS.Mem List

variable {s s' : Kernel} {op : Op} {r : Option ℤ}

/-! ## What one operation can do -/

/-- the creations that clone a directory, with what they share and map -/
inductive Creation (s : Kernel) : Op → Option DirRef → List UInt32 → Bool → ℤ → Prop
  | task : Creation s .create none [privateVaddr] false (-1)
  | ring3 : Creation s .createRing3 none [privateVaddr] true (-1)
  | child (h : (s.tasks s.current).isRing3 = true) :
    Creation s .spawn (s.tasks s.current).cr3 childPages true (s.tasks s.current).id

/-- task 0 is running and continues the `try_exec` it is in -/
structure InExec (s : Kernel) (e : Exec) : Prop where
  main : s.current = 0
  exec : s.exec = some e
  top : s.reaps 0 = []

inductive Moves (s : Kernel) : Op → Option ℤ → Kernel → Prop
  | idle (op : Op) : Moves s op none s
  | scheduled (op : Op) (hop : op ≠ .exit) : Moves s op none s.schedule
  | exited (hfree : ¬ s.Busy) : Moves s .exit none s.taskExit
  | created {op : Op} {share : Option DirRef} {vs : List UInt32} {ring3 : Bool} {parent : ℤ} (i : Fin 8) (d : DirRef)
      (m : Paging) (hfree : ¬ s.Busy) (hc : Creation s op share vs ring3 parent) (hi : s.freeSlot = some i)
      (hm : s.mem.newDirectory share vs = (some d, m)) :
      Moves s op (some s.nextTaskId) ({ s with mem := m }.install i d ring3 parent)
  | leaked {op : Op} {share : Option DirRef} {vs : List UInt32} {ring3 : Bool} {parent : ℤ} (i : Fin 8)
      (m : Paging) (hc : Creation s op share vs ring3 parent) (hi : s.freeSlot = some i)
      (hm : s.mem.newDirectory share vs = (none, m)) : Moves s op none { s with mem := m }
  | execFailed (b : Blob) (m : Paging) (hmain : s.current = 0) (hfree : ¬ s.Busy)
      (hm : s.mem.cloneKernelDirectory = (none, m)) :
      Moves s (.exec b) none { s with mem := m }
  | execStarted (b : Blob) (d : DirRef) (m : Paging) (hmain : s.current = 0) (hfree : ¬ s.Busy)
      (hm : s.mem.cloneKernelDirectory = (some d, m)) :
      Moves s (.exec b) none { s with mem := m, exec := some (.build d b 0) }
  | execMapped (d : DirRef) (b : Blob) (p : ℕ) (f : Frame) (m : Paging) (he : s.InExec (.build d b p)) (hp : p < b.pages)
      (hm : s.mem.mapPrivatePage d (b.pageVaddr p) = (some f, m)) :
      Moves s .go none { s with mem := b.copyPage p f m, exec := some (.build d b (p + 1)) }
  | execAborted (d : DirRef) (b : Blob) (p : ℕ) (m : Paging) (he : s.InExec (.build d b p))
      (hm : (p < b.pages ∧ s.mem.mapPrivatePage d (b.pageVaddr p) = (none, m)) ∨
        (b.pages ≤ p ∧ s.freeSlot = none ∧ m = s.mem) ∨
        (b.pages ≤ p ∧ s.mem.mapPrivatePage d privateVaddr = (none, m))) :
      Moves s .go none (s.execAbort m d)
  | execCreated (d : DirRef) (b : Blob) (p : ℕ) (i : Fin 8) (f : Frame) (m : Paging) (he : s.InExec (.build d b p))
      (hp : b.pages ≤ p) (hi : s.freeSlot = some i) (hm : s.mem.mapPrivatePage d privateVaddr = (some f, m)) :
      Moves s .go (some s.nextTaskId)
        { { s with mem := m }.install i d true (-1) with exec := some (.wait d b s.nextTaskId) }
  | execReaps (d : DirRef) (b : Blob) (id : ℤ) (he : s.InExec (.wait d b id)) (hz : s.taskIsZombie id = true) :
      Moves s .go none ({ s with exec := some (.reaping d b id) }.taskReap id)
  | execDone (d : DirRef) (b : Blob) (id : ℤ) (he : s.InExec (.reaping d b id)) :
      Moves s .go none { s with exec := none }
  | reapCalled (id : ℤ) (hfree : ¬ s.Busy) : Moves s (.reap id) none (s.taskReap id)
  | reapWaits (q : Reap) (rest : List Reap) (hj : q.j < 8) (hq : s.reaps s.current = q :: rest)
      (hch : (s.tasks ⟨q.j, hj⟩).parentId = q.id ∧ (s.tasks ⟨q.j, hj⟩).state ≠ .unused) :
      Moves s .go none (s.setReaps ({ q with waiting := true } :: rest))
  | reapSkips (q : Reap) (rest : List Reap) (hj : q.j < 8) (hq : s.reaps s.current = q :: rest)
      (hnot : (s.tasks ⟨q.j, hj⟩).parentId = q.id → (s.tasks ⟨q.j, hj⟩).state = .unused) (hw : q.waiting = false) :
      Moves s .go none (s.setReaps ({ q with j := q.j + 1 } :: rest))
  | reapsChild (q : Reap) (rest : List Reap) (hj : q.j < 8) (hq : s.reaps s.current = q :: rest)
      (hw : q.waiting = true) (hz : (s.tasks ⟨q.j, hj⟩).state = .zombie) :
      Moves s .go none
        ((s.setReaps ({ q with j := q.j + 1, waiting := false } :: rest)).taskReap (s.tasks ⟨q.j, hj⟩).id)
  | reaped (q : Reap) (rest : List Reap) (hj : 8 ≤ q.j) (hq : s.reaps s.current = q :: rest) :
      Moves s .go none ((s.freeTask q.slot).setReaps rest)

theorem moves_create {share : Option DirRef} {vs : List UInt32} {ring3 : Bool} {parent : ℤ} (hfree : ¬ s.Busy)
    (hc : Creation s op share vs ring3 parent) :
    Moves s op (s.create share vs ring3 parent).1 (s.create share vs ring3 parent).2 := by
  unfold create
  cases hi : s.freeSlot with
  | none => exact .idle op
  | some i =>
    dsimp only [createIn]
    cases hm : s.mem.newDirectory share vs with
    | mk d m =>
      cases d with
      | none => exact .leaked i m hc hi hm
      | some d => exact .created i d m hfree hc hi hm

theorem moves_reapGo {q : Reap} {rest : List Reap} (hq : s.reaps s.current = q :: rest) :
    Moves s .go none (s.reapGo q rest) := by
  simp only [reapGo]
  split_ifs with hj hw hz hch
  · exact .reapsChild q rest hj hq hw hz
  · exact .scheduled .go (by simp)
  · exact .reapWaits q rest hj hq hch
  · refine .reapSkips q rest hj hq (fun hp => ?_) (Bool.eq_false_iff.2 hw)
    by_contra hu
    exact hch ⟨hp, hu⟩
  · exact .reaped q rest (by omega) hq

theorem moves_execGo {e : Exec} (he : s.InExec e) : Moves s .go (s.execGo e).1 (s.execGo e).2 := by
  cases e with
  | build d b p =>
    simp only [execGo]
    split_ifs with hp
    · cases hm : s.mem.mapPrivatePage d (b.pageVaddr p) with
      | mk f m =>
        cases f with
        | none => exact .execAborted d b p m he (.inl ⟨hp, hm⟩)
        | some f => exact .execMapped d b p f m he hp hm
    · simp only [taskCreateAppRing3, execCreated]
      cases hi : s.freeSlot with
      | none => exact .execAborted d b p s.mem he (.inr (.inl ⟨by omega, hi, rfl⟩))
      | some i =>
        dsimp only [createAppIn]
        cases hm : s.mem.mapPrivatePage d privateVaddr with
        | mk f m =>
          cases f with
          | none => exact .execAborted d b p m he (.inr (.inr ⟨by omega, hm⟩))
          | some f => exact .execCreated d b p i f m he (by omega) hi hm
  | wait d b id =>
    simp only [execGo]
    split_ifs with hz
    · exact .execReaps d b id he hz
    · exact .scheduled .go (by simp)
  | reaping d b id => exact .execDone d b id he

/-- **Everything one operation can do.** -/
theorem step_moves (s : Kernel) (op : Op) : Moves s op (s.step op).1 (s.step op).2 := by
  cases op with
  | tick => exact .scheduled .tick (by simp)
  | go =>
    simp only [step]
    cases hq : s.reaps s.current with
    | cons q rest => exact moves_reapGo hq
    | nil =>
      by_cases h0 : s.current = 0
      · cases he : s.exec with
        | none => simpa [h0, he] using Moves.idle .go
        | some e => simpa [h0, he] using moves_execGo ⟨h0, he, h0 ▸ hq⟩
      · simpa [h0] using Moves.idle .go
  | create =>
    simp only [step]
    split_ifs with hb
    · exact .idle .create
    · exact moves_create hb .task
  | createRing3 =>
    simp only [step]
    split_ifs with hb
    · exact .idle .createRing3
    · exact moves_create hb .ring3
  | spawn =>
    simp only [step, taskCreateRing3Child]
    split_ifs with hb h3
    · exact .idle .spawn
    · exact moves_create hb (.child h3)
    · exact .idle .spawn
  | exec b =>
    simp only [step]
    split_ifs with hb
    · exact .idle _
    · rw [not_or, not_not] at hb
      cases hm : s.mem.cloneKernelDirectory with
      | mk d m =>
        cases d with
        | none => exact .execFailed b m hb.2 hb.1 hm
        | some d => exact .execStarted b d m hb.2 hb.1 hm
  | exit =>
    simp only [step]
    split_ifs with hb
    · exact .idle _
    · exact .exited hb
  | reap id =>
    simp only [step]
    split_ifs with hb
    · exact .idle _
    · exact .reapCalled id hb
  | yield =>
    simp only [step]
    split_ifs with hb
    · exact .idle _
    · exact .scheduled .yield (by simp)

/-! ## Scheduling -/

variable {old i n : Fin 8} {l : Layout}

theorem pickNext_ready (h : s.pickNext old ≠ old) : (s.tasks (s.pickNext old)).state = .ready := by
  unfold pickNext at h ⊢
  cases hf : ((List.range 8).map fun k => old + Fin.ofNat 8 (k + 1)).find? fun i => (s.tasks i).state = .ready with
  | none =>
    rw [hf] at h
    exact absurd rfl h
  | some i => simpa using find?_some hf

/-- the candidates go around the whole table -/
theorem mem_candidates (old i : Fin 8) : i ∈ (List.range 8).map fun k => old + Fin.ofNat 8 (k + 1) := by
  revert old i
  decide

theorem pickNext_ne (hi : (s.tasks i).state = .ready) (hold : (s.tasks old).state ≠ .ready) :
    s.pickNext old ≠ old := by
  intro he
  unfold pickNext at he
  cases hf : ((List.range 8).map fun k => old + Fin.ofNat 8 (k + 1)).find? fun i => (s.tasks i).state = .ready with
  | none => simpa [hi] using List.find?_eq_none.1 hf i (mem_candidates old i)
  | some j =>
    have hj : (s.tasks j).state = .ready := by simpa using find?_some hf
    rw [hf, Option.getD_some] at he
    exact hold (he ▸ hj)

/-- `schedule` keeps the running task, or switches to a READY one -/
theorem schedule_cases (s : Kernel) : s.schedule = s ∨ ∃ n, n ≠ s.current ∧ (s.tasks n).state = .ready ∧
    s.schedule = s.switchTo s.current n := by
  unfold schedule
  split_ifs with h
  · exact .inl rfl
  · exact .inr ⟨_, h, pickNext_ready h, rfl⟩

/-- it does switch when the running task has given up its state and another is READY -/
theorem schedule_switches (hi : (s.tasks i).state = .ready) (hcur : (s.tasks s.current).state ≠ .ready) :
    ∃ n, n ≠ s.current ∧ (s.tasks n).state = .ready ∧ s.schedule = s.switchTo s.current n := by
  have h := pickNext_ne hi hcur
  exact ⟨_, h, pickNext_ready h, by rw [schedule, if_neg h]⟩

theorem setState_tasks (i j : Fin 8) (st : TaskState) :
    (s.setState i st).tasks j = if j = i then { s.tasks i with state := st } else s.tasks j := by
  simp only [setState, Function.update_apply]

/-- the table after a switch: only the states of the two tasks change -/
theorem switchTo_tasks (hn : n ≠ old) (i : Fin 8) :
    (s.switchTo old n).tasks i =
      if i = n then { s.tasks n with state := .running }
      else if i = old then
        { s.tasks old with state := if (s.tasks old).state = .running then .ready else (s.tasks old).state }
      else s.tasks i := by
  simp only [switchTo]
  split_ifs <;> simp_all [setState_tasks]

@[simp] theorem switchTo_mem (old n : Fin 8) : (s.switchTo old n).mem = s.mem := by
  simp only [switchTo]
  split_ifs <;> rfl

@[simp] theorem switchTo_reaps (old n : Fin 8) : (s.switchTo old n).reaps = s.reaps := by
  simp only [switchTo]
  split_ifs <;> rfl

@[simp] theorem switchTo_exec (old n : Fin 8) : (s.switchTo old n).exec = s.exec := by
  simp only [switchTo]
  split_ifs <;> rfl

@[simp] theorem switchTo_nextTaskId (old n : Fin 8) : (s.switchTo old n).nextTaskId = s.nextTaskId := by
  simp only [switchTo]
  split_ifs <;> rfl

@[simp] theorem switchTo_current (old n : Fin 8) : (s.switchTo old n).current = n := by
  simp only [switchTo]

theorem switchTo_currentCr3 (hn : n ≠ old) :
    (s.switchTo old n).currentCr3 = (s.tasks n).cr3 := by
  simp only [switchTo]
  split_ifs <;> simp [setState_tasks, hn]

theorem switchTo_esp0 (hn : n ≠ old) (h3 : (s.tasks n).isRing3 = true) :
    (s.switchTo old n).esp0 = (s.tasks n).kernelStackTop := by
  simp only [switchTo]
  split_ifs <;> simp_all [setState_tasks]

/-! ## The invariant -/

/-- a task that is not UNUSED -/
def Live (s : Kernel) (i : Fin 8) : Prop := (s.tasks i).state ≠ .unused

instance (s : Kernel) (i : Fin 8) : Decidable (s.Live i) := inferInstanceAs (Decidable (_ ≠ _))

/-- READY or RUNNING -/
def Runnable (s : Kernel) (i : Fin 8) : Prop := (s.tasks i).state = .ready ∨ (s.tasks i).state = .running

/-- what holds of the table at every point, also in the middle of `task_exit` -/
structure TableInv (s : Kernel) : Prop where
  only : ∀ i, (s.tasks i).state = .running → i = s.current
  main : s.Runnable 0
  distinct : ∀ i j, s.Live i → s.Live j → (s.tasks i).id = (s.tasks j).id → i = j
  ids : ∀ i, s.Live i → 0 ≤ (s.tasks i).id ∧ (s.tasks i).id < s.nextTaskId
  /-- a `task_reap` in progress is on another slot than its caller's, and not on task 0's -/
  frames : ∀ t, ∀ q ∈ s.reaps t, q.slot ≠ t ∧ q.slot ≠ 0

structure SchedInv (s : Kernel) : Prop extends TableInv s where
  running : (s.tasks s.current).state = .running
  cr3 : s.currentCr3 = (s.tasks s.current).cr3
  tss : (s.tasks s.current).isRing3 = true → s.esp0 = (s.tasks s.current).kernelStackTop

/-- a switch changes no field but the state, and makes nothing UNUSED or used -/
theorem switchTo_live (hn : n ≠ s.current) (hready : (s.tasks n).state = .ready) (i : Fin 8) :
    (s.switchTo s.current n).Live i ↔ s.Live i := by
  simp only [Live, switchTo_tasks hn]
  split_ifs with h1 h2 h3 <;> simp_all

theorem switchTo_id (hn : n ≠ s.current) (i : Fin 8) :
    ((s.switchTo s.current n).tasks i).id = (s.tasks i).id := by
  rw [switchTo_tasks hn]
  split_ifs <;> simp_all

theorem TableInv.switchTo (h : s.TableInv) (hn : n ≠ s.current) (hready : (s.tasks n).state = .ready) :
    (s.switchTo s.current n).SchedInv := by
  have htask := switchTo_tasks (s := s) hn
  refine ⟨⟨fun i hi => ?_, ?_, fun i j hi hj he => ?_, fun i hi => ?_, ?_⟩, ?_, ?_, ?_⟩
  · rw [htask] at hi
    rw [switchTo_current]
    split_ifs at hi with h1 h2 h3
    · exact h1
    · exact absurd hi h3
    · exact absurd (h.only i hi) h2
  · have hmain := h.main
    simp only [Runnable, htask] at hmain ⊢
    split_ifs with h1 h2 h3
    · exact .inr rfl
    · exact .inl rfl
    · rwa [h2] at hmain
    · exact hmain
  · rw [switchTo_live hn hready] at hi hj
    rw [switchTo_id hn, switchTo_id hn] at he
    exact h.distinct i j hi hj he
  · rw [switchTo_live hn hready] at hi
    rw [switchTo_id hn, switchTo_nextTaskId]
    exact h.ids i hi
  · rw [switchTo_reaps]
    exact h.frames
  · rw [switchTo_current, htask, if_pos rfl]
  · rw [switchTo_current, switchTo_currentCr3 hn, htask, if_pos rfl]
  · rw [switchTo_current, htask, if_pos rfl]
    exact fun h3 => switchTo_esp0 hn h3

theorem SchedInv.schedule (h : s.SchedInv) : s.schedule.SchedInv := by
  rcases s.schedule_cases with he | ⟨n, hn, hready, he⟩
  · rwa [he]
  · rw [he]
    exact h.toTableInv.switchTo hn hready

/-! ## Exits, creations and reaps -/

theorem TableInv.setZombie (h : s.TableInv) (h0 : s.current ≠ 0) (hrun : (s.tasks s.current).state = .running) :
    (s.setState s.current .zombie).TableInv := by
  have hlive : ∀ i, (s.setState s.current .zombie).Live i ↔ s.Live i := by
    intro i
    simp only [Live, setState_tasks]
    split_ifs with hi <;> simp [hi, hrun]
  have hid : ∀ i, ((s.setState s.current .zombie).tasks i).id = (s.tasks i).id := by
    intro i
    rw [setState_tasks]
    split_ifs with hi <;> simp [hi]
  refine ⟨fun i hi => ?_, ?_, fun i j hi hj he => ?_, fun i hi => ?_, h.frames⟩
  · rw [setState_tasks] at hi
    split_ifs at hi with hic
    exact h.only i hi
  · simpa only [Runnable, setState_tasks, if_neg h0.symm] using h.main
  · rw [hid, hid] at he
    exact h.distinct i j ((hlive i).1 hi) ((hlive j).1 hj) he
  · rw [hid]
    exact h.ids i ((hlive i).1 hi)

/-- the task that exits leaves the CPU to a READY task: task 0 at least is one -/
theorem SchedInv.exit_switches (h : s.SchedInv) (h0 : s.current ≠ 0) :
    ∃ n, n ≠ s.current ∧ (s.tasks n).state = .ready ∧
      s.taskExit = (s.setState s.current .zombie).switchTo s.current n := by
  have hmain : (s.tasks 0).state = .ready := h.main.resolve_right fun hr => h0 (h.only 0 hr).symm
  obtain ⟨n, hn, hready, he⟩ := schedule_switches (s := s.setState s.current .zombie) (i := 0)
    (by rw [setState_tasks, if_neg h0.symm, hmain])
    (by simp [setState])
  have hn' : n ≠ s.current := hn
  rw [setState_tasks, if_neg hn'] at hready
  exact ⟨n, hn', hready, he⟩

theorem SchedInv.exit (h : s.SchedInv) (h0 : s.current ≠ 0) : s.taskExit.SchedInv := by
  obtain ⟨n, hn, hready, he⟩ := h.exit_switches h0
  rw [he]
  exact (h.setZombie h0 h.running).switchTo hn (by rwa [setState_tasks, if_neg hn])

theorem freeSlot_unused (h : s.freeSlot = some i) : (s.tasks i).state = .unused := by
  simpa using firstFree_free h

/-- the table after a creation -/
theorem install_tasks (m : Paging) (i : Fin 8) (d : DirRef) (ring3 : Bool) (parent : ℤ) (j : Fin 8) :
    ({ s with mem := m }.install i d ring3 parent).tasks j =
      if j = i then
        { state := .ready, id := s.nextTaskId, cr3 := some d, isRing3 := ring3 || (s.tasks i).isRing3,
          kernelStackTop := if ring3 then stackTop i else (s.tasks i).kernelStackTop, parentId := parent }
      else s.tasks j := by
  simp only [install, Function.update_apply]

/-- a free slot is neither the running one nor task 0's -/
theorem SchedInv.free_ne (h : s.SchedInv) (hi : (s.tasks i).state = .unused) :
    s.current ≠ i ∧ (0 : Fin 8) ≠ i := by
  constructor
  · rintro rfl
    simp [h.running] at hi
  · rintro rfl
    rcases h.main with hr | hr <;> simp [hr] at hi

theorem SchedInv.install (h : s.SchedInv) (hi : (s.tasks i).state = .unused) (m : Paging) (d : DirRef)
    (ring3 : Bool) (parent : ℤ) : ({ s with mem := m }.install i d ring3 parent).SchedInv := by
  obtain ⟨hcur, hmain⟩ := h.free_ne hi
  have htask := install_tasks (s := s) m i d ring3 parent
  have hkeep : ({ s with mem := m }.install i d ring3 parent).tasks s.current = s.tasks s.current := by
    rw [htask, if_neg hcur]
  have hlt : ∀ j, s.Live j → (s.tasks j).id < s.nextTaskId := fun j hj => (h.ids j hj).2
  refine ⟨⟨fun j hj => ?_, ?_, fun j k hj hk he => ?_, fun j hj => ?_, fun t q hq => ?_⟩, ?_, ?_, ?_⟩
  · rw [htask] at hj
    split_ifs at hj
    exact h.only j hj
  · simpa only [Runnable, htask, if_neg hmain] using h.main
  · simp only [Live, htask] at hj hk he
    by_cases hji : j = i <;> by_cases hki : k = i
    · exact hji.trans hki.symm
    · rw [if_pos hji, if_neg hki] at he
      rw [if_neg hki] at hk
      exact absurd he.symm (hlt k hk).ne
    · rw [if_neg hji, if_pos hki] at he
      rw [if_neg hji] at hj
      exact absurd he (hlt j hj).ne
    · rw [if_neg hji, if_neg hki] at he
      rw [if_neg hji] at hj
      rw [if_neg hki] at hk
      exact h.distinct j k hj hk he
  · have hmainId := h.ids 0 (by rcases h.main with hr | hr <;> simp [Live, hr])
    simp only [Live, htask] at hj ⊢
    by_cases hji : j = i
    · rw [if_pos hji]
      exact ⟨by simp only; omega, by simp [Kernel.install]⟩
    · rw [if_neg hji] at hj ⊢
      have := h.ids j hj
      exact ⟨this.1, this.2.trans (by simp [Kernel.install])⟩
  · simp only [Kernel.install, Function.update_apply] at hq
    split_ifs at hq
    · cases hq
    · exact h.frames t q hq
  · exact hkeep ▸ h.running
  · exact hkeep ▸ h.cr3
  · exact hkeep ▸ h.tss

theorem freeTask_tasks (i j : Fin 8) :
    (s.freeTask i).tasks j = if j = i then ⟨.unused, -1, none, false, 0, -1⟩ else s.tasks j := by
  simp only [freeTask, Function.update_apply]

theorem SchedInv.freeTask (h : s.SchedInv) (hcur : s.current ≠ i) (hmain : (0 : Fin 8) ≠ i) :
    (s.freeTask i).SchedInv := by
  have htask := freeTask_tasks (s := s) i
  have hkeep : (s.freeTask i).tasks s.current = s.tasks s.current := by rw [htask, if_neg hcur]
  have hlive : ∀ j, (s.freeTask i).Live j → s.Live j ∧ (s.freeTask i).tasks j = s.tasks j := by
    intro j hj
    simp only [Live, htask] at hj ⊢
    split_ifs at hj ⊢ with hji
    · exact absurd rfl hj
    · exact ⟨hj, rfl⟩
  refine ⟨⟨fun j hj => ?_, ?_, fun j k hj hk he => ?_, fun j hj => ?_, h.frames⟩, ?_, ?_, ?_⟩
  · rw [htask] at hj
    split_ifs at hj
    exact h.only j hj
  · simpa only [Runnable, htask, if_neg hmain] using h.main
  · obtain ⟨hj, hej⟩ := hlive j hj
    obtain ⟨hk, hek⟩ := hlive k hk
    rw [hej, hek] at he
    exact h.distinct j k hj hk he
  · obtain ⟨hj, hej⟩ := hlive j hj
    rw [hej]
    exact h.ids j hj
  · exact hkeep ▸ h.running
  · exact hkeep ▸ h.cr3
  · exact hkeep ▸ h.tss

/-- a change of the calls in progress alone -/
theorem SchedInv.setReaps (h : s.SchedInv) {qs : List Reap} (hqs : ∀ q ∈ qs, q.slot ≠ s.current ∧ q.slot ≠ 0) :
    (s.setReaps qs).SchedInv := by
  refine ⟨⟨h.only, h.main, h.distinct, h.ids, fun t q hq => ?_⟩, h.running, h.cr3, h.tss⟩
  simp only [Kernel.setReaps, Function.update_apply] at hq
  split_ifs at hq with ht
  · exact ht ▸ hqs q hq
  · exact h.frames t q hq

/-- `task_reap(id)` is a no-op, or enters with the slot of a zombie of that id -/
theorem taskReap_cases (s : Kernel) (id : ℤ) : s.taskReap id = s ∨ ∃ i, (s.tasks i).id = id ∧
    (s.tasks i).state = .zombie ∧ s.taskReap id = s.setReaps (⟨i, id, 0, false⟩ :: s.reaps s.current) := by
  unfold taskReap
  cases hf : (List.finRange 8).find? fun i => (s.tasks i).id = id ∧ (s.tasks i).state = .zombie with
  | none => exact .inl rfl
  | some i =>
    have hi : (s.tasks i).id = id ∧ (s.tasks i).state = .zombie := by simpa using find?_some hf
    exact .inr ⟨i, hi.1, hi.2, rfl⟩

theorem SchedInv.taskReap (h : s.SchedInv) (id : ℤ) : (s.taskReap id).SchedInv := by
  rcases s.taskReap_cases id with he | ⟨i, -, hz, he⟩
  · rwa [he]
  · rw [he]
    refine h.setReaps fun q hq => ?_
    rcases List.mem_cons.1 hq with rfl | hq
    · constructor
      · rintro rfl
        simp [h.running] at hz
      · rintro rfl
        rcases h.main with hr | hr <;> simp [hr] at hz
    · exact h.frames s.current q hq

/-- task 0 runs kernel_main's loop and does not exit -/
def MainStays (s : Kernel) (op : Op) : Prop := op = .exit → s.current ≠ 0

instance (s : Kernel) (op : Op) : Decidable (s.MainStays op) :=
  match op with
  | .exit => decidable_of_iff (s.current ≠ 0) (by simp [MainStays])
  | .create | .createRing3 | .spawn | .exec _ | .reap _ | .yield | .tick | .go => .isTrue (by simp [MainStays])

/-- task 0 does not exit, and ids stay within an int -/
def Proper (s : Kernel) (op : Op) : Prop := (op = .exit → s.current ≠ 0) ∧ s.nextTaskId < 2147483647

instance (s : Kernel) (op : Op) : Decidable (s.Proper op) := inferInstanceAs (Decidable (s.MainStays op ∧ _))

/-- **One operation keeps the scheduler invariant.** -/
theorem SchedInv.moves (h : s.SchedInv) (hm : Moves s op r s') (hop : s.MainStays op) : s'.SchedInv := by
  cases hm with
  | idle => exact h
  | scheduled => exact h.schedule
  | exited => exact h.exit (hop rfl)
  | created i d m _ _ hi => exact h.install (freeSlot_unused hi) m d _ _
  | leaked | execFailed | execStarted | execMapped | execAborted | execDone =>
    exact ⟨⟨h.only, h.main, h.distinct, h.ids, h.frames⟩, h.running, h.cr3, h.tss⟩
  | execCreated d b p i f m _ _ hi =>
    have hi := h.install (freeSlot_unused hi) m d true (-1)
    exact ⟨⟨hi.only, hi.main, hi.distinct, hi.ids, hi.frames⟩, hi.running, hi.cr3, hi.tss⟩
  | execReaps d b id =>
    refine SchedInv.taskReap ?_ id
    exact ⟨⟨h.only, h.main, h.distinct, h.ids, h.frames⟩, h.running, h.cr3, h.tss⟩
  | reapCalled id => exact h.taskReap id
  | reapWaits q rest _ hq | reapSkips q rest _ hq =>
    have hqs := h.frames s.current
    rw [hq, forall_mem_cons] at hqs
    exact h.setReaps (List.forall_mem_cons.2 ⟨hqs.1, hqs.2⟩)
  | reapsChild q rest _ hq =>
    have hqs := h.frames s.current
    rw [hq, forall_mem_cons] at hqs
    have hset : (s.setReaps ({ q with j := q.j + 1, waiting := false } :: rest)).SchedInv :=
      h.setReaps (List.forall_mem_cons.2 ⟨hqs.1, hqs.2⟩)
    exact hset.taskReap _
  | reaped q rest _ hq =>
    have hqs := h.frames s.current
    rw [hq, forall_mem_cons] at hqs
    exact (h.freeTask hqs.1.1.symm hqs.1.2.symm).setReaps hqs.2

/-! ## What a step may change -/

@[simp] theorem taskReap_tasks (id : ℤ) : (s.taskReap id).tasks = s.tasks := by
  rcases s.taskReap_cases id with he | ⟨i, -, -, he⟩ <;> rw [he]
  rfl

@[simp] theorem taskReap_current (id : ℤ) : (s.taskReap id).current = s.current := by
  rcases s.taskReap_cases id with he | ⟨i, -, -, he⟩ <;> rw [he]
  rfl

@[simp] theorem taskReap_nextTaskId (id : ℤ) : (s.taskReap id).nextTaskId = s.nextTaskId := by
  rcases s.taskReap_cases id with he | ⟨i, -, -, he⟩ <;> rw [he]
  rfl

/-- a switch goes to a READY task -/
theorem Moves.switches (hm : Moves s op r s') (h : s.SchedInv) (hop : s.Proper op) (hne : s'.current ≠ s.current) :
    (s.tasks s'.current).state = .ready := by
  cases hm with
  | scheduled =>
    rcases s.schedule_cases with he | ⟨n, -, hready, he⟩
    · rw [he] at hne
      exact absurd rfl hne
    · rwa [he, switchTo_current]
  | exited =>
    obtain ⟨n, -, hready, he⟩ := h.exit_switches (hop.1 rfl)
    rwa [he, switchTo_current]
  | execReaps | reapCalled | reapsChild =>
    rw [taskReap_current] at hne
    exact absurd rfl hne
  | _ => exact absurd rfl hne

/-- the end of the `task_reap` of slot `i` -/
def ReapsSlot (s : Kernel) (i : Fin 8) : Prop := ∃ q rest, s.reaps s.current = q :: rest ∧ 8 ≤ q.j ∧ q.slot = i

theorem switchTo_runnable (hn : n ≠ s.current) (hi : s.Runnable i) :
    (s.switchTo s.current n).Runnable i := by
  simp only [Runnable, switchTo_tasks hn] at hi ⊢
  split_ifs with h1 h2 h3
  · exact .inr rfl
  · exact .inl rfl
  · rwa [h2] at hi
  · exact hi

/-- only `task_exit` of the running task and the end of a `task_reap` take a task out of READY and RUNNING -/
theorem Moves.runnable (hm : Moves s op r s') (h : s.SchedInv) (hop : s.MainStays op) (hi : s.Runnable i)
    (hnot : ¬ s'.Runnable i) : op = .exit ∧ i = s.current ∨ op = .go ∧ s.ReapsSlot i := by
  have hinstall : ∀ k m d ring3 parent, s.freeSlot = some k → ({ s with mem := m }.install k d ring3 parent).Runnable i := by
    intro k m d ring3 parent hk
    have hne : i ≠ k := by
      rintro rfl
      rcases hi with hi | hi <;> simp [freeSlot_unused hk] at hi
    simpa only [Runnable, install_tasks, if_neg hne] using hi
  cases hm with
  | scheduled =>
    refine absurd ?_ hnot
    rcases s.schedule_cases with he | ⟨n, hn, -, he⟩
    · rwa [he]
    · rw [he]
      exact switchTo_runnable hn hi
  | exited =>
    refine .inl ⟨rfl, ?_⟩
    by_contra hcur
    obtain ⟨n, hn, -, he⟩ := h.exit_switches (hop rfl)
    apply hnot
    rw [he]
    refine switchTo_runnable (s := s.setState s.current .zombie) hn ?_
    simpa only [Runnable, setState_tasks, if_neg hcur] using hi
  | created k d m _ _ hk => exact absurd (hinstall k m d _ _ hk) hnot
  | execCreated d b p k f m _ _ hk => exact absurd (hinstall k m d true (-1) hk) hnot
  | execReaps | reapCalled | reapsChild =>
    rw [Runnable, taskReap_tasks] at hnot
    exact absurd hi hnot
  | reaped q rest hj hq =>
    refine .inr ⟨rfl, q, rest, hq, hj, ?_⟩
    by_contra hne
    apply hnot
    simpa only [Runnable, setReaps, freeTask_tasks, if_neg (Ne.symm hne)] using hi
  | _ => exact absurd hi hnot

/-- a creation hands out `next_task_id`, and nothing else changes it -/
theorem Moves.nextTaskId (hm : Moves s op r s') :
    r = none ∧ s'.nextTaskId = s.nextTaskId ∨ r = some s.nextTaskId ∧ s'.nextTaskId = s.nextTaskId + 1 := by
  cases hm with
  | scheduled =>
    refine .inl ⟨rfl, ?_⟩
    rcases s.schedule_cases with he | ⟨n, -, -, he⟩ <;> rw [he]
    exact switchTo_nextTaskId _ _
  | exited =>
    refine .inl ⟨rfl, ?_⟩
    rw [taskExit]
    rcases (s.setState s.current .zombie).schedule_cases with he | ⟨n, -, -, he⟩ <;> rw [he]
    · rfl
    · exact switchTo_nextTaskId _ _
  | created | execCreated => exact .inr ⟨rfl, rfl⟩
  | execReaps | reapCalled | reapsChild => exact .inl ⟨rfl, taskReap_nextTaskId _⟩
  | _ => exact .inl ⟨rfl, rfl⟩

/-! ## Runs -/

/-- the ids handed out along a run, task 0's first -/
def handedOut (tr : List (Op × Option ℤ)) : List ℤ := 0 :: tr.filterMap Prod.snd

theorem handedOut_snoc (tr : List (Op × Option ℤ)) (op : Op) (r : Option ℤ) :
    handedOut (tr ++ [(op, r)]) = handedOut tr ++ r.toList := by
  cases r <;> simp [handedOut]

theorem schedInv_boot (h : boot l = some s) : s.SchedInv := by
  obtain ⟨m, -, rfl⟩ := Option.map_eq_some_iff.1 h
  have htask : ∀ i : Fin 8, i ≠ 0 → ((taskInit l m).tasks i).state = .unused := by
    intro i hi
    simp [taskInit, hi]
  refine ⟨⟨fun i hi => ?_, .inr rfl, fun i j hi hj _ => ?_, fun i hi => ?_, fun t q hq => nomatch hq⟩, rfl, rfl, ?_⟩
  · by_contra hne
    simp [htask i hne] at hi
  · have hi : i = 0 := by_contra fun hne => hi (htask i hne)
    have hj : j = 0 := by_contra fun hne => hj (htask j hne)
    exact hi.trans hj.symm
  · obtain rfl : i = 0 := by_contra fun hne => hi (htask i hne)
    exact ⟨le_rfl, Int.one_pos⟩
  · intro h3
    simp [taskInit] at h3

theorem run_schedInv {s₀ : Kernel} {tr : List (Op × Option ℤ)} (hboot : boot l = some s₀)
    (h : Run step Proper s₀ tr s) : s.SchedInv :=
  h.invariant (fun s op hinv hop => hinv.moves (s.step_moves op) hop.1) (schedInv_boot hboot)

/-- along a run the ids go up, all below `next_task_id` -/
theorem run_handedOut {s₀ : Kernel} {tr : List (Op × Option ℤ)} (hboot : boot l = some s₀)
    (h : Run step Proper s₀ tr s) :
    (handedOut tr).Pairwise (· < ·) ∧ ∀ id ∈ handedOut tr, id < s.nextTaskId := by
  induction h with
  | nil =>
    obtain ⟨m, -, rfl⟩ := Option.map_eq_some_iff.1 hboot
    refine ⟨pairwise_singleton _ _, fun id hid => ?_⟩
    obtain rfl : id = 0 := by simpa [handedOut] using hid
    exact Int.one_pos
  | @snoc u _ op _ _ ih =>
    obtain ⟨hpair, hlt⟩ := ih
    rw [handedOut_snoc]
    rcases (u.step_moves op).nextTaskId with ⟨hr, hn⟩ | ⟨hr, hn⟩
    · rw [hr, hn, Option.toList_none, append_nil]
      exact ⟨hpair, hlt⟩
    · rw [hr, hn, Option.toList_some]
      refine ⟨List.pairwise_append.2 ⟨hpair, pairwise_singleton _ _, fun id hid j hj => ?_⟩, fun id hid => ?_⟩
      · obtain rfl := List.mem_singleton.1 hj
        exact hlt id hid
      · rcases List.mem_append.1 hid with hid | hid
        · exact (hlt id hid).trans (lt_add_one _)
        · obtain rfl := List.mem_singleton.1 hid
          exact lt_add_one _

/-- **Scheduler invariant.** In every state of every run from boot in which task 0 does not exit and ids do not wrap:
exactly the running slot is RUNNING, CR3 is its own, and TSS.esp0 is its own if it is ring3; the ids of tasks that are
not UNUSED are distinct, and no id has been handed out twice. Whatever is done next, the CPU is switched to a READY
task only, and a task leaves READY and RUNNING only by its own `task_exit` or at the end of a `task_reap`. -/
theorem sched_invariant {l : Layout} {s₀ : Kernel} {tr : List (Op × Option ℤ)} (hboot : boot l = some s₀)
    (h : Run step Proper s₀ tr s) :
    (∀ i, (s.tasks i).state = .running ↔ i = s.current) ∧
    s.currentCr3 = (s.tasks s.current).cr3 ∧
    ((s.tasks s.current).isRing3 = true → s.esp0 = (s.tasks s.current).kernelStackTop) ∧
    (∀ i j, s.Live i → s.Live j → (s.tasks i).id = (s.tasks j).id → i = j) ∧
    (handedOut tr).Nodup ∧
    ∀ op, s.Proper op →
      ((s.step op).2.current ≠ s.current → (s.tasks (s.step op).2.current).state = .ready) ∧
      ∀ i, s.Runnable i → ¬ (s.step op).2.Runnable i →
        op = .exit ∧ i = s.current ∨ op = .go ∧ s.ReapsSlot i := by
  have hinv := run_schedInv hboot h
  refine ⟨fun i => ⟨hinv.only i, fun hi => hi ▸ hinv.running⟩, hinv.cr3, hinv.tss, hinv.distinct,
    (run_handedOut hboot h).1.imp ne_of_lt, fun op hop => ?_⟩
  have hm := s.step_moves op
  exact ⟨hm.switches hinv hop, fun i hi hnot => hm.runnable hinv hop.1 hi hnot⟩

/-- a layout with the framebuffer where the emulator puts it -/
def vgaLayout : Layout := ⟨⟨0xFD000000, 768, 3072⟩, 0x20000, 0x20800, 0x40000, by decide, by decide, by decide⟩

/-- the kernel after `task_init` with that layout -/
def vgaBoot : Kernel := (boot vgaLayout).getD (taskInit vgaLayout Paging.zeroed)

theorem boot_vgaLayout : boot vgaLayout = some vgaBoot := by
  obtain ⟨s, hs⟩ := Option.isSome_iff_exists.1 (show (boot vgaLayout).isSome = true by decide +kernel)
  rw [vgaBoot, hs, Option.getD_some]

/-- after a `task_create` and a `task_yield` the new task runs, alone -/
theorem sched_invariant_create : ∃ tr s, Run step Proper vgaBoot tr s ∧ s.current = 1 ∧
    ∀ i, (s.tasks i).state = .running ↔ i = s.current := by
  have h₀ : Run step Proper vgaBoot [] vgaBoot := .nil _
  have h₁ := h₀.snoc Op.create ⟨by simp, by decide +kernel⟩
  have h₂ := h₁.snoc Op.yield ⟨by simp, by decide +kernel⟩
  exact ⟨_, _, h₂, by decide +kernel, (sched_invariant boot_vgaLayout h₂).1⟩

end GannetOS.Proc.Kernel
