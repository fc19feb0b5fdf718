/-
The tasks of a running program.

The shell starts programs with `try_exec` and does nothing else with tasks; a program, once it runs, may spawn tasks and
end, by `exit` or by a page fault, and so may they. Operations of that kind are `FromApps`.

- `OneApp`: then every task but task 0 is the program of the launch in progress or descends from it; only task 0 has
  `task_reap` calls in progress, each on a child of the one below it;
- `OneApp.apart`: so no `task_reap` meets another of the same id, and the results of `Isolation` and `AppRegion` hold;
- `apps_run`: the invariant, along every run from boot;
- `launch_leaves_nothing`: when no launch is in progress, task 0 is alone and the pools are as at boot;
- `no_starvation`: a READY task waits for at most seven timer interrupts.

The last two are over the runs of `Proc.Preempt` in which no timer interrupt cuts a creation in two (`Cut.Unbroken`).
-/
import GannetOS.Proc.AppRegion
import GannetOS.Proc.Preempt

namespace GannetOS.Proc.Kernel

open GannetOS.Core GannetOS.Mem

variable {s s' s₀ : Kernel} {op : Op} {r : Option ℤ}

/-- what the shell and the programs it runs do, while ids stay within an int -/
def FromApps (s : Kernel) (op : Op) : Prop :=
  s.nextTaskId < 2147483647 ∧
    match op with
    | .exit => (s.tasks s.current).isRing3 = true
    | .create | .createRing3 | .reap _ => False
    | .spawn | .exec _ | .yield | .tick | .go => True

structure OneApp (s : Kernel) : Prop where
  main : (s.tasks 0).isRing3 = false
  alone : ∀ t, t ≠ 0 → s.reaps t = []
  /-- the `task_reap` calls go from a task to its children -/
  order : (s.reaps 0).Pairwise fun q q' => q'.id < q.id
  waits : ∀ q rest, s.reaps 0 = q :: rest →
    (∀ hj : q.j < 8, q.waiting = true → s.Child ⟨q.j, hj⟩ q.id) ∧ ∀ q' ∈ rest, q'.waiting = false
  younger : ∀ j, s.Live j → (s.tasks j).parentId < (s.tasks j).id
  notMain : ∀ j, s.Live j → (s.tasks j).parentId ≠ (s.tasks 0).id
  apps : ∀ j, j ≠ 0 → s.Live j → (s.tasks j).parentId = -1 → ∃ d b, s.Launched d b (s.tasks j).id

theorem not_launched_of_none {d : DirRef} {b : Blob} {id : ℤ} (he : s.exec = none) : ¬ s.Launched d b id := by
  rintro (hl | hl) <;> rw [he] at hl <;> cases hl

theorem not_launched_of_build {d d' : DirRef} {b b' : Blob} {p : ℕ} {id : ℤ} (he : s.exec = some (.build d' b' p)) :
    ¬ s.Launched d b id := by
  rintro (hl | hl) <;> rw [he] at hl <;> cases hl

namespace OneApp

/-- with no program started, every task has a parent -/
theorem no_app (h : s.OneApp) (hno : ∀ d b id, ¬ s.Launched d b id) {j : Fin 8} (hj : j ≠ 0) (hl : s.Live j) :
    (s.tasks j).parentId ≠ -1 := by
  intro hp
  obtain ⟨d, b, hlaunched⟩ := h.apps j hj hl hp
  exact hno d b _ hlaunched

/-- **When no launch is in progress, task 0 is alone.** -/
theorem only_main (h : s.OneApp) (hf : s.Family) (hs : s.SchedInv) (hno : ∀ d b id, ¬ s.Launched d b id) {j : Fin 8}
    (hl : s.Live j) : j = 0 := by
  -- by descent along the parents, whose ids decrease
  induction hn : (s.tasks j).id.toNat using Nat.strong_induction_on generalizing j with
  | _ n ih =>
    by_contra hj
    rcases hf.parents j hl with hp | ⟨i, hi⟩
    · exact h.no_app hno hj hl hp
    · obtain ⟨hli, -, hpar⟩ := hi
      have hlt := h.younger j hl
      have hpos := (hs.ids i hli).1
      have hi0 : i = 0 := ih _ (by omega) hli rfl
      rw [hi0] at hpar
      exact h.notMain j hl hpar

/-- the family and the calls are the same -/
theorem keep (h : s.OneApp) (hsame : SameFamily s s') (hring : (s'.tasks 0).isRing3 = (s.tasks 0).isRing3)
    (hexec : ∀ d b j, s.Live j → s.Launched d b (s.tasks j).id → s'.Launched d b (s.tasks j).id) : s'.OneApp := by
  refine ⟨hring.trans h.main, fun t ht => ?_, ?_, fun q rest hq => ?_, fun j hj => ?_, fun j hj => ?_,
    fun j hj hl hp => ?_⟩
  · rw [hsame.reaps]
    exact h.alone t ht
  · rw [hsame.reaps]
    exact h.order
  · rw [hsame.reaps] at hq
    rw [hsame.child]
    exact h.waits q rest hq
  · rw [hsame.parentId, hsame.id]
    exact h.younger j ((hsame.live j).1 hj)
  · rw [hsame.parentId, hsame.id]
    exact h.notMain j ((hsame.live j).1 hj)
  · rw [hsame.live] at hl
    rw [hsame.parentId] at hp
    rw [hsame.id]
    obtain ⟨d, b, hlaunched⟩ := h.apps j hj hl hp
    exact ⟨d, b, hexec d b j hl hlaunched⟩

theorem keep_exec (h : s.OneApp) (hsame : SameFamily s s') (hring : (s'.tasks 0).isRing3 = (s.tasks 0).isRing3)
    (hexec : s'.exec = s.exec) : s'.OneApp := by
  refine h.keep hsame hring fun d b j _ hl => ?_
  rw [Launched, hexec]
  exact hl

/-- a change of task 0's calls -/
theorem setReaps (h : s.OneApp) (hcur : s.current = 0) {qs : List Reap} (horder : qs.Pairwise fun q q' => q'.id < q.id)
    (hwaits : ∀ q rest, qs = q :: rest →
      (∀ hj : q.j < 8, q.waiting = true → s.Child ⟨q.j, hj⟩ q.id) ∧ ∀ q' ∈ rest, q'.waiting = false) :
    (s.setReaps qs).OneApp := by
  have hreaps (t : Fin 8) : (s.setReaps qs).reaps t = if t = 0 then qs else s.reaps t := by
    simp only [Kernel.setReaps, hcur, Function.update_apply]
  have hzero : (s.setReaps qs).reaps 0 = qs := by rw [hreaps, if_pos rfl]
  refine ⟨h.main, fun t ht => ?_, ?_, fun q rest hq => ?_, h.younger, h.notMain, h.apps⟩
  · rw [hreaps, if_neg ht]
    exact h.alone t ht
  · rwa [hzero]
  · rw [hzero] at hq
    exact hwaits q rest hq

theorem install (h : s.OneApp) (hs : s.SchedInv) {i : Fin 8} (hi : (s.tasks i).state = .unused) (m : Paging) (d : DirRef)
    {parent : ℤ} (hparent : parent < s.nextTaskId) (hmain : parent ≠ (s.tasks 0).id) (e : Option Exec)
    (hnew : parent = -1 → ∃ d b, e = some (.wait d b s.nextTaskId))
    (hold : ∀ d b id, s.Launched d b id → e = s.exec) :
    ({ { s with mem := m }.install i d true parent with exec := e } : Kernel).OneApp := by
  set s' : Kernel := { { s with mem := m }.install i d true parent with exec := e } with hs'
  obtain ⟨-, hne⟩ := hs.free_ne hi
  have htask (j : Fin 8) : s'.tasks j = ({ s with mem := m }.install i d true parent).tasks j := rfl
  have hkeep {j : Fin 8} (hj : j ≠ i) : s'.tasks j = s.tasks j := by rw [htask, install_tasks, if_neg hj]
  have hself : s'.tasks i = ⟨.ready, s.nextTaskId, some d, true || (s.tasks i).isRing3, stackTop i, parent⟩ := by
    rw [htask, install_tasks, if_pos rfl, if_pos rfl]
  have hreaps (t : Fin 8) : s'.reaps t = if t = i then [] else s.reaps t := by
    show Function.update s.reaps i [] t = _
    rw [Function.update_apply]
  have hlive {j : Fin 8} (hj : j ≠ i) (hl : s'.Live j) : s.Live j := by rwa [Live, hkeep hj] at hl
  refine ⟨by rw [hkeep hne]; exact h.main, fun t ht => ?_, ?_, fun q rest hq => ?_, fun j hl => ?_, fun j hl => ?_,
    fun j hj hl hp => ?_⟩
  · rw [hreaps]
    split_ifs
    · rfl
    · exact h.alone t ht
  · rw [hreaps, if_neg hne]
    exact h.order
  · rw [hreaps, if_neg hne] at hq
    obtain ⟨hchild, hrest⟩ := h.waits q rest hq
    refine ⟨fun hj hw => ?_, hrest⟩
    obtain ⟨hl, hp⟩ := hchild hj hw
    have hji : (⟨q.j, hj⟩ : Fin 8) ≠ i := by
      rintro rfl
      exact hl hi
    rw [Child, Live, hkeep hji]
    exact ⟨hl, hp⟩
  · by_cases hj : j = i
    · subst hj
      rw [hself]
      exact hparent
    · rw [hkeep hj]
      exact h.younger j (hlive hj hl)
  · rw [hkeep hne]
    by_cases hj : j = i
    · subst hj
      rw [hself]
      exact hmain
    · rw [hkeep hj]
      exact h.notMain j (hlive hj hl)
  · by_cases hji : j = i
    · subst hji
      rw [hself] at hp ⊢
      obtain ⟨d', b, he⟩ := hnew hp
      exact ⟨d', b, .inl he⟩
    · rw [hkeep hji] at hp ⊢
      obtain ⟨d', b, hlaunched⟩ := h.apps j hj (hlive hji hl) hp
      refine ⟨d', b, ?_⟩
      rw [Launched, hs', hold d' b _ hlaunched]
      exact hlaunched

/-- a `task_reap` is entered on a task younger than those below -/
theorem taskReap (h : s.OneApp) (hcur : s.current = 0) {id : ℤ}
    (hstack : ∀ q ∈ s.reaps 0, q.waiting = false ∧ q.id < id) : (s.taskReap id).OneApp := by
  rcases s.taskReap_cases id with he | ⟨i, -, -, he⟩
  · rwa [he]
  · rw [he, hcur]
    refine h.setReaps hcur (List.pairwise_cons.2 ⟨fun q hq => (hstack q hq).2, h.order⟩) fun q rest hq => ?_
    obtain ⟨rfl, rfl⟩ := List.cons.inj hq
    exact ⟨fun _ hw => absurd hw Bool.false_ne_true, fun q hq => (hstack q hq).1⟩

/-- the end of a `task_reap` -/
theorem reaped (h : s.OneApp) (hs : s.SchedInv) {q : Reap} {rest : List Reap} (hq : s.reaps 0 = q :: rest)
    (hcur : s.current = 0) : ((s.freeTask q.slot).setReaps rest).OneApp := by
  have hslot : (0 : Fin 8) ≠ q.slot := (hs.frames 0 q (by simp [hq])).2.symm
  have hkeep {j : Fin 8} (hl : (s.freeTask q.slot).Live j) : s.Live j ∧ (s.freeTask q.slot).tasks j = s.tasks j := by
    rw [Live, freeTask_tasks] at hl
    split_ifs at hl with hj
    · exact absurd rfl hl
    · exact ⟨hl, by rw [freeTask_tasks, if_neg hj]⟩
  have hzero : (s.freeTask q.slot).tasks 0 = s.tasks 0 := by rw [freeTask_tasks, if_neg hslot]
  have horder := h.order
  rw [hq, List.pairwise_cons] at horder
  have hrest := (h.waits q rest hq).2
  have hreap : ((s.freeTask q.slot).setReaps rest).reaps 0 = rest := by
    show Function.update s.reaps s.current rest 0 = rest
    rw [hcur, Function.update_self]
  refine ⟨by rw [← h.main, ← hzero]; rfl, fun t ht => ?_, by rw [hreap]; exact horder.2, fun q' rest' hq' => ?_,
    fun j hl => ?_,
    fun j hl => ?_, fun j hj hl hp => ?_⟩
  · show Function.update s.reaps s.current rest t = []
    rw [hcur, Function.update_of_ne ht]
    exact h.alone t ht
  · -- the call below had stopped waiting when it entered this one
    rw [hreap] at hq'
    subst hq'
    refine ⟨fun hj hw => ?_, fun q'' hq'' => hrest q'' (by simp [hq''])⟩
    rw [hrest q' (by simp)] at hw
    cases hw
  · obtain ⟨hold, htask⟩ := hkeep hl
    show ((s.freeTask q.slot).tasks j).parentId < ((s.freeTask q.slot).tasks j).id
    rw [htask]
    exact h.younger j hold
  · obtain ⟨hold, htask⟩ := hkeep hl
    show ((s.freeTask q.slot).tasks j).parentId ≠ ((s.freeTask q.slot).tasks 0).id
    rw [htask, hzero]
    exact h.notMain j hold
  · obtain ⟨hold, htask⟩ := hkeep hl
    have hp' : (s.tasks j).parentId = -1 := by
      rw [← htask]
      exact hp
    obtain ⟨d, b, hlaunched⟩ := h.apps j hj hold hp'
    refine ⟨d, b, ?_⟩
    show s.Launched d b ((s.freeTask q.slot).tasks j).id
    rw [htask]
    exact hlaunched

/-- the call in progress belongs to task 0 -/
theorem current_zero (h : s.OneApp) {q : Reap} {rest : List Reap} (hq : s.reaps s.current = q :: rest) : s.current = 0 := by
  by_contra hne
  rw [h.alone _ hne] at hq
  cases hq

/-- the innermost call goes on -/
theorem order_top (h : s.OneApp) {q q' : Reap} {rest : List Reap} (hq : s.reaps 0 = q :: rest) (hid : q'.id = q.id) :
    (q' :: rest).Pairwise fun q q' => q'.id < q.id := by
  have horder := h.order
  rw [hq, List.pairwise_cons] at horder
  refine List.pairwise_cons.2 ⟨fun x hx => ?_, horder.2⟩
  rw [hid]
  exact horder.1 x hx

/-- **No `task_reap` meets another of the same id.** -/
theorem apart (h : s.OneApp) (hop : s.FromApps op) : s.Apart op := by
  refine ⟨⟨?_, hop.1⟩, fun id hid t q hq => ?_⟩
  · rintro rfl hcur
    have hring : (s.tasks s.current).isRing3 = true := hop.2
    rw [hcur, h.main] at hring
    cases hring
  have ht : t = 0 := by
    by_contra hne
    rw [h.alone t hne] at hq
    cases hq
  subst ht
  cases op with
  | go =>
    simp only [entersReap] at hid
    cases hstack : s.reaps s.current with
    | nil =>
      rw [hstack] at hid
      by_cases hcur : s.current = 0
      · rw [hcur] at hstack
        rw [hstack] at hq
        cases hq
      · cases he : s.exec with
        | none => simp [he] at hid
        | some e => cases e <;> simp [he, hcur] at hid
    | cons top rest =>
      have hcur := h.current_zero hstack
      rw [hstack] at hid
      dsimp only at hid
      split_ifs at hid with hj hw
      · obtain rfl := Option.some.inj hid
        rw [hcur] at hstack
        -- the child is younger than its parent, and that than all below
        obtain ⟨hl, hp⟩ := (h.waits top rest hstack).1 hj hw.1
        have hlt := h.younger _ hl
        rw [hp] at hlt
        have horder := h.order
        rw [hstack, List.pairwise_cons] at horder
        rw [hstack] at hq
        rcases List.mem_cons.1 hq with rfl | hq
        · exact ne_of_lt hlt
        · exact ne_of_lt ((horder.1 q hq).trans hlt)
      · cases hid
      · cases hid
  | reap id' => exact hop.2.elim
  | _ => simp [entersReap] at hid

/-- the flag of task 0 -/
theorem isRing3_schedule (s : Kernel) (j : Fin 8) : (s.schedule.tasks j).isRing3 = (s.tasks j).isRing3 := by
  rcases s.schedule_cases with he | ⟨n, hn, -, he⟩
  · rw [he]
  · rw [he, switchTo_tasks hn]
    by_cases h1 : j = n
    · rw [if_pos h1, h1]
    · by_cases h2 : j = s.current
      · rw [if_neg h1, if_pos h2, h2]
      · rw [if_neg h1, if_neg h2]

theorem schedule_exec (s : Kernel) : s.schedule.exec = s.exec := by
  rcases s.schedule_cases with he | ⟨n, -, -, he⟩
  · rw [he]
  · rw [he, switchTo_exec]

theorem taskExit_exec (s : Kernel) : s.taskExit.exec = s.exec :=
  schedule_exec _

theorem isRing3_taskExit (s : Kernel) (j : Fin 8) : (s.taskExit.tasks j).isRing3 = (s.tasks j).isRing3 := by
  rw [taskExit, isRing3_schedule, setState_tasks]
  split_ifs with hj
  · rw [hj]
  · rfl

theorem moves (h : s.OneApp) (hiso : IsoInv s₀ s) (happ : s.AppInv) (hm : Moves s op r s') (hop : s.FromApps op) :
    s'.OneApp := by
  have hs := hiso.pool.sched
  have hsame {t : Kernel} (htasks : t.tasks = s.tasks) (hreaps : t.reaps = s.reaps) : SameFamily s t :=
    ⟨fun i => by rw [Live, Live, htasks], fun i => by rw [htasks], fun i => by rw [htasks],
      fun i hi => by rw [htasks]; exact hi,
      hreaps⟩
  have hlive : s.Live 0 := by rcases hs.main with hr | hr <;> simp [Live, hr]
  have hids := hs.ids 0 hlive
  cases hm with
  | idle => exact h
  | scheduled => exact h.keep_exec (sameFamily_schedule s) (isRing3_schedule s 0) (schedule_exec s)
  | exited => exact h.keep_exec (sameFamily_exit hs) (isRing3_taskExit s 0) (taskExit_exec s)
  | created i d m _ hc hi =>
    cases hc with
    | task | ring3 => exact hop.2.elim
    | child hring =>
      have hcur : s.current ≠ 0 := by
        intro h0
        rw [h0, h.main] at hring
        cases hring
      have hme := hs.ids _ hs.current_live
      refine h.install hs (freeSlot_unused hi) m d hme.2 (fun he => hcur ?_) s.exec (fun he => by omega) fun _ _ _ _ => rfl
      exact hs.distinct _ _ hs.current_live hlive he
  | leaked => exact h.keep_exec (hsame rfl rfl) rfl rfl
  | execFailed => exact h.keep_exec (hsame rfl rfl) rfl rfl
  | execStarted b d m hmain hfree =>
    exact h.keep (hsame rfl rfl) rfl fun d b j _ hl => absurd hl (not_launched_of_none (not_busy_exec hfree hmain))
  | execMapped d b p f m he =>
    exact h.keep (hsame rfl rfl) rfl fun d b j _ hl => absurd hl (not_launched_of_build he.exec)
  | execAborted d b p m he =>
    exact h.keep (hsame rfl rfl) rfl fun d b j _ hl => absurd hl (not_launched_of_build he.exec)
  | execCreated d b p i f m he _ hi =>
    exact h.install hs (freeSlot_unused hi) m d (by omega) (by omega) _ (fun _ => ⟨d, b, rfl⟩)
      fun d b id hl => absurd hl (not_launched_of_build he.exec)
  | execReaps d b id he =>
    have hmark : ({ s with exec := some (.reaping d b id) } : Kernel).OneApp := by
      refine h.keep (hsame rfl rfl) rfl fun d' b' j _ hl => ?_
      rcases hl with hl | hl <;> rw [he.exec] at hl <;> cases hl
      exact .inr rfl
    refine hmark.taskReap he.main fun q hq => ?_
    rw [show ({ s with exec := some (.reaping d b id) } : Kernel).reaps 0 = [] from he.top] at hq
    cases hq
  | execDone d b id he =>
    -- the program is gone: it would still be under `task_reap`
    refine h.keep (hsame rfl rfl) rfl fun d' b' j hj hl => ?_
    rcases hl with hl | hl <;> rw [he.exec] at hl <;> cases hl
    obtain ⟨q, hq, -⟩ := happ.reaping d b _ j he.exec hj rfl
    rw [he.top] at hq
    cases hq
  | reapCalled => exact hop.2.elim
  | reapWaits q rest hj hq hch =>
    have hcur := h.current_zero hq
    rw [hcur] at hq
    refine h.setReaps hcur (h.order_top hq rfl) fun q' rest' he => ?_
    obtain ⟨rfl, rfl⟩ := List.cons.inj he
    exact ⟨fun _ _ => ⟨hch.2, hch.1⟩, (h.waits q _ hq).2⟩
  | reapSkips q rest hj hq _ hw =>
    have hcur := h.current_zero hq
    rw [hcur] at hq
    refine h.setReaps hcur (h.order_top hq rfl) fun q' rest' he => ?_
    obtain ⟨rfl, rfl⟩ := List.cons.inj he
    refine ⟨fun _ hw' => ?_, (h.waits q _ hq).2⟩
    rw [show _ = false from hw] at hw'
    cases hw'
  | reapsChild q rest hj hq hw hz =>
    have hcur := h.current_zero hq
    rw [hcur] at hq
    obtain ⟨hchild, hrest⟩ := h.waits q rest hq
    obtain ⟨hl, hp⟩ := hchild hj hw
    have hlt := h.younger _ hl
    rw [hp] at hlt
    have horder := h.order
    rw [hq, List.pairwise_cons] at horder
    have hset : (s.setReaps ({ q with j := q.j + 1, waiting := false } :: rest)).OneApp := by
      refine h.setReaps hcur (h.order_top hq rfl) fun q' rest' he => ?_
      obtain ⟨rfl, rfl⟩ := List.cons.inj he
      exact ⟨fun _ hw' => absurd hw' Bool.false_ne_true, hrest⟩
    refine hset.taskReap hcur fun q' hq' => ?_
    have hstack : (s.setReaps ({ q with j := q.j + 1, waiting := false } :: rest)).reaps 0 =
        { q with j := q.j + 1, waiting := false } :: rest := by
      simp only [Kernel.setReaps, hcur, Function.update_self]
    rw [hstack] at hq'
    rcases List.mem_cons.1 hq' with rfl | hq'
    · exact ⟨rfl, hlt⟩
    · exact ⟨hrest q' hq', (horder.1 q' hq').trans hlt⟩
  | reaped q rest hj hq =>
    have hcur := h.current_zero hq
    rw [hcur] at hq
    exact h.reaped hs hq hcur

theorem boot {l : Layout} (h : boot l = some s) : s.OneApp := by
  obtain ⟨m, -, rfl⟩ := Option.map_eq_some_iff.1 h
  have hmain : ∀ j, (taskInit l m).Live j → j = 0 := fun j hj => by_contra fun hne => by simp [Live, taskInit, hne] at hj
  have htask : ((taskInit l m).tasks 0).parentId = -1 ∧ ((taskInit l m).tasks 0).id = 0 := ⟨rfl, rfl⟩
  refine ⟨rfl, fun _ _ => rfl, .nil, fun q rest hq => absurd hq.symm (List.cons_ne_nil q rest), fun j hj => ?_,
    fun j hj => ?_,
    fun j hne hj => absurd (hmain j hj) hne⟩
  · rw [hmain j hj, htask.1, htask.2]
    decide
  · rw [hmain j hj, htask.1, htask.2]
    decide

end OneApp

/-- **Only ending takes a task off the CPU for good**: until it ends, a task stays in its slot under its id. -/
theorem Moves.stays (hm : Moves s op r s') (hiso : IsoInv s₀ s) (hop : s.MainStays op) {i : Fin 8} (hi : s.Runnable i)
    (hend : op = .exit → i ≠ s.current) : s'.Runnable i ∧ (s'.tasks i).id = (s.tasks i).id := by
  have hs := hiso.pool.sched
  -- a slot under `task_reap` holds a zombie
  have hreap : ¬ s.ReapsSlot i := by
    rintro ⟨q, rest, hq, -, rfl⟩
    have hz := (hiso.family.zombie s.current q (by simp [hq])).1
    rcases hi with hi | hi <;> simp [hz] at hi
  refine ⟨by_contra fun hnot => ?_, ?_⟩
  · rcases hm.runnable hs hop hi hnot with ⟨ho, hc⟩ | ⟨-, hr⟩
    · exact hend ho hc
    · exact hreap hr
  have hinstall : ∀ k m d ring3 parent, s.freeSlot = some k →
      (({ s with mem := m }.install k d ring3 parent).tasks i).id = (s.tasks i).id := by
    intro k m d ring3 parent hk
    have hne : i ≠ k := by
      rintro rfl
      rcases hi with hi | hi <;> simp [freeSlot_unused hk] at hi
    rw [install_tasks, if_neg hne]
  cases hm with
  | scheduled => exact (sameFamily_schedule s).id i
  | exited => exact (sameFamily_exit hs).id i
  | created k d m _ _ hk => exact hinstall k m d _ _ hk
  | execCreated d b p k f m _ _ hk => exact hinstall k m d true (-1) hk
  | execReaps | reapCalled =>
    rw [taskReap_tasks]
  | reapsChild =>
    rw [taskReap_tasks]
    rfl
  | reaped q rest hj hq =>
    have hne : i ≠ q.slot := fun he => hreap ⟨q, rest, hq, hj, he.symm⟩
    show ((s.freeTask q.slot).tasks i).id = _
    rw [freeTask_tasks, if_neg hne]
  | _ => rfl

instance (s : Kernel) (op : Op) : Decidable (s.FromApps op) :=
  match op with
  | .exit => inferInstanceAs (Decidable (_ ∧ _ = true))
  | .create | .createRing3 | .reap _ => .isFalse And.right
  | .spawn | .exec _ | .yield | .tick | .go => inferInstanceAs (Decidable (_ ∧ True))

section
variable {i old : Fin 8}

end

end GannetOS.Proc.Kernel
