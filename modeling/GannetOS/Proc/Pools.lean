/-
The pools over the life of the kernel: 8 page directories, 20 private tables, 8192 frames.

The runs are those of `Proc.Task`: any number of program launches by task 0, one at a time, `task_create`,
`task_create_ring3` and `task_create_ring3_child` by any task, exits (not of task 0) and reaps by any task, several
`task_reap` calls in progress at once, ticks between all of these.

- `PoolInv`: every directory in use is held by exactly one task or by the launch in progress, and memory is in order;
- `poolInv_run`: it holds in every state of every run;
- `PoolInv.supplied`: so while a task slot is free each pool has a free element, no creation and no launch fails for lack
  of one, and when every other task has been reaped the three pools are what they were right after `task_init`.
-/
import GannetOS.Proc.Sched
import GannetOS.Proc.Boot

namespace GannetOS.Mem.Paging

open GannetOS.Core GannetOS.Proc

variable {m m' m₀ : Paging}

/-! ## Address spaces of new tasks -/

variable {i : Fin 8}

/-- consecutive pages of the main slot -/
theorem MemInv.mapPages {pd : ℕ} {idx : ℕ → ℕ} (vs : List UInt32) : ∀ {m : Paging} {p : ℕ}, MemInv m₀ m →
    m.dirUsed i = true → m.Private (.task i) pd idx p 0 → Fits pd idx (p + vs.length) →
    (∀ t v, vs[t]? = some v → pdIndex v = pd ∧ ptIndex v = idx (p + t)) → Function.Injective idx →
    ∃ m', m.mapPages (.task i) vs = (true, m') ∧ MemInv m₀ m' ∧ Local (.task i) m m' ∧ m'.dirUsed = m.dirUsed ∧
      m'.Private (.task i) pd idx (p + vs.length) 0 ∧ ∀ x, x ≠ pd → m'.dir (.task i) x = m.dir (.task i) x := by
  induction vs with
  | nil =>
    intro m p h hu hp _ _ _
    exact ⟨m, rfl, h, Local.refl _ m, rfl, hp, fun _ _ => rfl⟩
  | cons v vs ih =>
    intro m p h hu hp hfit hvs hinj
    obtain ⟨rfl, hpt⟩ := hvs 0 v rfl
    have hfit₁ : Fits (pdIndex v) idx (p + 1) := ⟨hfit.slot, fun x hx => hfit.entry x (by simp; omega)⟩
    obtain ⟨f, m₁, heq, hinv, hl, hused, hp₁, hslot⟩ := h.mapMain hu hp hfit₁ hpt fun q hq he => by
      have := hinj he
      omega
    have hlen : p + (v :: vs).length = p + 1 + vs.length := by
      simp
      omega
    obtain ⟨m₂, heq₂, hinv₂, hl₂, hused₂, hp₂, hslot₂⟩ := ih hinv (hused ▸ hu) hp₁ (hlen ▸ hfit)
      (fun t w hw => by
        have := hvs (t + 1) w hw
        rwa [show p + (t + 1) = p + 1 + t by omega] at this) hinj
    refine ⟨m₂, ?_, hinv₂, hl.trans hl₂, hused₂.trans hused, hlen ▸ hp₂, fun x hx => (hslot₂ x hx).trans (hslot x hx)⟩
    rw [Paging.mapPages, heq]
    exact heq₂

theorem mapPages_append (m : Paging) (d : DirRef) (vs ws : List UInt32) :
    m.mapPages d (vs ++ ws) = if (m.mapPages d vs).1 then (m.mapPages d vs).2.mapPages d ws else m.mapPages d vs := by
  induction vs generalizing m with
  | nil => rfl
  | cons v vs ih =>
    rw [List.cons_append, Paging.mapPages, Paging.mapPages]
    cases m.mapPrivatePage d v with
    | mk r m₁ =>
      cases r with
      | none => rfl
      | some f => exact ih m₁

theorem MemInv.mapPages_scratch (h : MemInv m₀ m) {pd : ℕ} {idx : ℕ → ℕ} {p : ℕ} (hu : m.dirUsed i = true)
    (hp : m.Private (.task i) pd idx p 0) (hfit : Fits pd idx p) :
    ∃ m', m.mapPages (.task i) [privateVaddr] = (true, m') ∧ MemInv m₀ m' ∧ Local (.task i) m m' ∧
      m'.dirUsed = m.dirUsed ∧ m'.Private (.task i) pd idx p 1 ∧
      ∀ x, x ≠ 256 → m'.dir (.task i) x = m.dir (.task i) x := by
  obtain ⟨f, m', heq, hrest⟩ := h.mapScratch hu hp hfit (v := privateVaddr) (by decide) (by decide)
  exact ⟨m', by rw [Paging.mapPages, heq]; rfl, hrest⟩

/-- **The space of a task that shares nothing**: a clone of the kernel's with its own scratch page. -/
theorem MemInv.newTask (h : MemInv m₀ m) (hi : firstFree m.dirUsed = some i) :
    ∃ m', m.newDirectory none [privateVaddr] = (some (.task i), m') ∧ MemInv m₀ m' ∧ Local (.task i) m m' ∧
      m'.dirUsed = Function.update m.dirUsed i true ∧ m'.Private (.task i) 320 id 0 1 ∧
      m'.dir (.task i) 0 = m.dir .kernel 0 := by
  obtain ⟨heq, hinv, hl, hp⟩ := h.clone hi
  obtain ⟨m', hmap, hinv', hl', hused', hp', hslot⟩ := hinv.mapPages_scratch (i := i) (by simp [cloneAt]) (hp 320 id)
    ⟨.inr rfl, by simp⟩
  refine ⟨m', ?_, hinv', hl.trans hl', hused', hp', ?_⟩
  · simp only [newDirectory, heq, hmap]
  · rw [hslot 0 (by simp)]
    simp [cloneAt]

/-- **The space of a spawned child**: slot 0 shared from `src`, four pages of stack, its own scratch page. -/
theorem MemInv.newChild (h : MemInv m₀ m) (hi : firstFree m.dirUsed = some i) {src : DirRef} (hsrc : src ≠ .task i) :
    ∃ m', m.newDirectory (some src) Kernel.childPages = (some (.task i), m') ∧ MemInv m₀ m' ∧ Local (.task i) m m' ∧
      m'.dirUsed = Function.update m.dirUsed i true ∧ m'.Private (.task i) 320 id 4 1 ∧
      m'.dir (.task i) 0 = m.dir src 0 := by
  obtain ⟨heq, hinv, hl, hp⟩ := h.clone hi
  obtain ⟨hinv₁, hl₁, hp₁⟩ := hinv.share src (v := appLoadAddr) (by decide) (hp 320 id)
  have hfit : Fits 320 id 4 := ⟨.inr rfl, fun x hx => .inl hx⟩
  have hvs : ∀ t v, ((List.range 4).map (pageAddr childStackVaddr))[t]? = some v →
      pdIndex v = 320 ∧ ptIndex v = id (0 + t) := by
    intro t v hv
    obtain ⟨ht, rfl⟩ := List.getElem?_eq_some_iff.1 hv
    have hall : ∀ t < 4, pdIndex (pageAddr childStackVaddr t) = 320 ∧ ptIndex (pageAddr childStackVaddr t) = t := by
      decide
    simpa using hall t (by simpa using ht)
  obtain ⟨m₂, hmap₂, hinv₂, hl₂, hused₂, hp₂, hslot₂⟩ := hinv₁.mapPages ((List.range 4).map (pageAddr childStackVaddr))
    (i := i) (by simp [sharePde, setPde, cloneAt]) hp₁ (by simpa using hfit) hvs Function.injective_id
  obtain ⟨m₃, hmap₃, hinv₃, hl₃, hused₃, hp₃, hslot₃⟩ := hinv₂.mapPages_scratch (i := i)
    (by rw [hused₂]; simp [sharePde, setPde, cloneAt]) hp₂ (by simpa using hfit)
  refine ⟨m₃, ?_, hinv₃, ((hl.trans hl₁).trans hl₂).trans hl₃, by rw [hused₃, hused₂]; rfl, by simpa using hp₃, ?_⟩
  · have : ((m.cloneAt i).sharePde (.task i) src appLoadAddr).mapPages (.task i) Kernel.childPages = (true, m₃) := by
      rw [Kernel.childPages, mapPages_append, hmap₂]
      exact hmap₃
    simp only [newDirectory, heq, this]
  · rw [hslot₃ 0 (by simp), hslot₂ 0 (by simp)]
    have h0 : pdIndex appLoadAddr = 0 := by decide
    simp [sharePde, setPde, h0, cloneAt, hsrc]

end GannetOS.Mem.Paging

namespace GannetOS.Proc

open GannetOS.Core GannetOS.Mem GannetOS.Mem.Paging

/-! ## Address spaces of programs -/

namespace Blob

variable (b : Blob)

/-- the entry of slot 0 that the p-th page of a program goes to -/
def index (p : ℕ) : ℕ := if p < b.codePages then 512 + p else 528 + (p - b.codePages)

theorem codePages_le : b.codePages ≤ 16 := by
  have := b.le
  simp only [codePages]
  omega

theorem index_injective : Function.Injective b.index := by
  intro p q h
  have := b.codePages_le
  simp only [index] at h
  split_ifs at h <;> omega

theorem fits {p : ℕ} (hp : p ≤ b.pages) : Fits 0 b.index p := by
  refine ⟨.inl rfl, fun x hx => .inr ?_⟩
  have := b.codePages_le
  simp only [pages] at hp
  simp only [index]
  split_ifs <;> omega

theorem pageVaddr_index {p : ℕ} (hp : p < b.pages) :
    pdIndex (b.pageVaddr p) = 0 ∧ ptIndex (b.pageVaddr p) = b.index p := by
  have hcode : ∀ t < 16, pdIndex (pageAddr appLoadAddr t) = 0 ∧ ptIndex (pageAddr appLoadAddr t) = 512 + t := by decide
  have hstack : ∀ t < 4, pdIndex (pageAddr appStackVaddr t) = 0 ∧ ptIndex (pageAddr appStackVaddr t) = 528 + t := by
    decide
  have := b.codePages_le
  simp only [pages] at hp
  simp only [pageVaddr, index]
  split_ifs with hc
  · exact hcode p (by omega)
  · exact hstack _ (by omega)

end Blob

namespace Kernel

variable {s s' s₀ : Kernel} {op : Op} {r : Option ℤ}

/-- a directory is held by one task, or by the program launch in progress -/
structure PoolInv (s₀ s : Kernel) : Prop where
  sched : s.SchedInv
  mem : MemInv s₀.mem s.mem
  kernelDir : (s.tasks 0).cr3 = some .kernel
  dirs : ∀ i, i ≠ 0 → s.Live i → ∃ k, (s.tasks i).cr3 = some (.task k) ∧ s.mem.dirUsed k = true
  unused : ∀ i, ¬ s.Live i → (s.tasks i).cr3 = none
  distinct : ∀ i j d, (s.tasks i).cr3 = some d → (s.tasks j).cr3 = some d → i = j
  holders : ∀ k, s.mem.dirUsed k = true →
    (∃ i, (s.tasks i).cr3 = some (.task k)) ∨ ∃ b p, s.exec = some (.build (.task k) b p)
  building : ∀ d b p, s.exec = some (.build d b p) → (∀ i, (s.tasks i).cr3 ≠ some d) ∧
    ∃ k, d = .task k ∧ s.mem.dirUsed k = true ∧ p ≤ b.pages ∧ s.mem.Private (.task k) 0 b.index p 0

theorem poolInv_boot {l : Layout} (h : boot l = some s) : PoolInv s s := by
  have hmem := memInv_boot h
  have hsched := schedInv_boot h
  obtain ⟨m, hs, -, hu, -⟩ := boot_memory h
  have hused : ∀ k, s.mem.dirUsed k = false := by
    intro k
    rw [hs]
    simp only [taskInit]
    rw [(maps_mapPrivatePage _ _ _).dirUsed]
    exact hu.dirUsed k
  have hcr3 : ∀ i, i ≠ 0 → (s.tasks i).cr3 = none ∧ ¬ s.Live i := by
    intro i hi
    simp [hs, taskInit, hi, Live]
  refine ⟨hsched, hmem, by rw [hs]; rfl, fun i hi hl => absurd hl (hcr3 i hi).2, fun i hi => ?_, fun i j d hid hjd => ?_,
    fun k hk => ?_, fun d b p he => ?_⟩
  · refine (hcr3 i ?_).1
    rintro rfl
    exact hi (by simp [hs, taskInit, Live])
  · have hi : i = 0 := by_contra fun hne => by simp [(hcr3 i hne).1] at hid
    have hj : j = 0 := by_contra fun hne => by simp [(hcr3 j hne).1] at hjd
    exact hi.trans hj.symm
  · simp [hused k] at hk
  · rw [hs] at he
    cases he

/-! ## A free slot leaves room in the directory pool -/

/-- **With a free task slot, or with no launch in progress, a directory is free.** Each one in use is held by a task
other than task 0, or by the launch. -/
theorem PoolInv.exists_dir (h : PoolInv s₀ s) (hroom : (∃ i, ¬ s.Live i) ∨ s.exec = none) :
    ∃ k, firstFree s.mem.dirUsed = some k := by
  cases hf : firstFree s.mem.dirUsed with
  | some k => exact ⟨k, rfl⟩
  | none =>
    exfalso
    have hall := firstFree_eq_none.1 hf
    -- the holder of each directory: a task slot, or none for the launch
    have hholder : ∀ k, ∃ o : Option (Fin 8), match o with
        | some i => (s.tasks i).cr3 = some (.task k)
        | none => ∃ b p, s.exec = some (.build (.task k) b p) := by
      intro k
      rcases h.holders k (hall k) with ⟨i, hi⟩ | hb
      · exact ⟨some i, hi⟩
      · exact ⟨none, hb⟩
    choose g hg using hholder
    have hinj : Function.Injective g := by
      intro k l he
      have hk := hg k
      have hl := hg l
      rw [← he] at hl
      cases hgk : g k with
      | some i =>
        rw [hgk] at hk hl
        simpa using hk.symm.trans hl
      | none =>
        rw [hgk] at hk hl
        obtain ⟨b, p, hk⟩ := hk
        obtain ⟨b', p', hl⟩ := hl
        exact DirRef.task.inj (Exec.build.inj (Option.some.inj (hk.symm.trans hl))).1
    have hzero : ∀ k, g k ≠ some 0 := by
      intro k he
      have hk := hg k
      rw [he] at hk
      simp [h.kernelDir] at hk
    obtain ⟨o, ho, hne⟩ : ∃ o : Option (Fin 8), o ≠ some 0 ∧ ∀ k, g k ≠ o := by
      rcases hroom with ⟨i, hi⟩ | he
      · refine ⟨some i, ?_, fun k hgk => ?_⟩
        · intro he
          have : i = 0 := Option.some.inj he
          subst this
          rcases h.sched.main with hr | hr <;> exact hi (by simp [Live, hr])
        · have hk := hg k
          rw [hgk] at hk
          simp [h.unused i hi] at hk
      · refine ⟨none, by simp, fun k hgk => ?_⟩
        have hk := hg k
        rw [hgk] at hk
        simp [he] at hk
    have hsub : ∀ k ∈ Finset.univ, g k ∈ (Finset.univ.erase (some 0)).erase o := by
      intro k _
      simp [hzero k, hne k]
    have := Finset.card_le_card_of_injOn g hsub hinj.injOn
    rw [Finset.card_erase_of_mem (by simp [ho]), Finset.card_erase_of_mem (by simp)] at this
    simp at this

/-! ## Steps -/

/-- memory, the launch in progress and who holds which directory are the same -/
structure SameHolders (s s' : Kernel) : Prop where
  mem : s'.mem = s.mem
  exec : s'.exec = s.exec
  cr3 : ∀ i, (s'.tasks i).cr3 = (s.tasks i).cr3
  live : ∀ i, s'.Live i ↔ s.Live i

theorem PoolInv.of_same (h : PoolInv s₀ s) (hs : SameHolders s s') (hsched : s'.SchedInv) : PoolInv s₀ s' := by
  refine ⟨hsched, ?_, ?_, fun i hi hl => ?_, fun i hi => ?_, fun i j d hid hjd => ?_, fun k hk => ?_, fun d b p he => ?_⟩
  · rw [hs.mem]
    exact h.mem
  · rw [hs.cr3]
    exact h.kernelDir
  · rw [hs.cr3, hs.mem]
    exact h.dirs i hi ((hs.live i).1 hl)
  · rw [hs.cr3]
    exact h.unused i (mt (hs.live i).2 hi)
  · rw [hs.cr3] at hid hjd
    exact h.distinct i j d hid hjd
  · rw [hs.mem] at hk
    simpa only [hs.cr3, hs.exec] using h.holders k hk
  · rw [hs.exec] at he
    simpa only [hs.cr3, hs.mem] using h.building d b p he

theorem sameHolders_switchTo {n : Fin 8} (hn : n ≠ s.current) (hready : (s.tasks n).state = .ready) :
    SameHolders s (s.switchTo s.current n) := by
  refine ⟨switchTo_mem _ _, switchTo_exec _ _, fun i => ?_, switchTo_live hn hready⟩
  rw [switchTo_tasks hn]
  split_ifs with h1 h2 <;> simp_all

theorem sameHolders_schedule (s : Kernel) : SameHolders s s.schedule := by
  rcases s.schedule_cases with he | ⟨n, hn, hready, he⟩
  · rw [he]
    exact ⟨rfl, rfl, fun _ => rfl, fun _ => Iff.rfl⟩
  · rw [he]
    exact sameHolders_switchTo hn hready

theorem SameHolders.trans {s'' : Kernel} (h : SameHolders s s') (h' : SameHolders s' s'') : SameHolders s s'' :=
  ⟨h'.mem.trans h.mem, h'.exec.trans h.exec, fun i => (h'.cr3 i).trans (h.cr3 i), fun i => (h'.live i).trans (h.live i)⟩

theorem sameHolders_exit (h : s.SchedInv) : SameHolders s s.taskExit := by
  refine SameHolders.trans ?_ (sameHolders_schedule _)
  refine ⟨rfl, rfl, fun i => ?_, fun i => ?_⟩
  · rw [setState_tasks]
    split_ifs with hi <;> simp [hi]
  · simp only [Live, setState_tasks]
    split_ifs with hi
    · simp [hi, h.running]
    · exact Iff.rfl

theorem sameHolders_taskReap (s : Kernel) (id : ℤ) : SameHolders s (s.taskReap id) := by
  rcases s.taskReap_cases id with he | ⟨i, -, -, he⟩ <;> rw [he] <;> exact ⟨rfl, rfl, fun _ => rfl, fun _ => Iff.rfl⟩

/-- a directory that a new task or launch has just taken from the pool, in memory `m` -/
structure Taken (s₀ s : Kernel) (k : Fin 8) (m : Paging) : Prop where
  mem : MemInv s₀.mem m
  others : Local (.task k) s.mem m
  used : m.dirUsed = Function.update s.mem.dirUsed k true
  free : s.mem.dirUsed k = false

variable {k i : Fin 8} {m : Paging} {d : DirRef} {b : Blob} {p : ℕ}

/-- no task holds a directory that was free -/
theorem PoolInv.free_dir (h : PoolInv s₀ s) (hk : s.mem.dirUsed k = false) (i : Fin 8) :
    (s.tasks i).cr3 ≠ some (.task k) := by
  intro hi
  by_cases h0 : i = 0
  · subst h0
    simp [h.kernelDir] at hi
  · have hl : s.Live i := by_contra fun hl => by simp [h.unused i hl] at hi
    obtain ⟨j, hj, hu⟩ := h.dirs i h0 hl
    rw [hi] at hj
    simp [← DirRef.task.inj (Option.some.inj hj), hk] at hu

/-- a directory other than `k` is used as before -/
theorem Taken.used_iff {j : Fin 8} (h : Taken s₀ s k m) : m.dirUsed j = true ↔
    j = k ∨ s.mem.dirUsed j = true := by
  rw [h.used, Function.update_apply]
  split_ifs with hj <;> simp [hj]

/-- the launch in progress keeps its pages while others take directories -/
theorem PoolInv.building_taken (h : PoolInv s₀ s) (ht : Taken s₀ s k m) (he : s.exec = some (.build d b p)) :
    d ≠ .task k ∧ ∃ j, d = .task j ∧ m.dirUsed j = true ∧ p ≤ b.pages ∧ m.Private (.task j) 0 b.index p 0 := by
  obtain ⟨-, j, rfl, hu, hp, hpriv⟩ := h.building d b p he
  have hjk : j ≠ k := fun hjk => by simp [hjk, ht.free] at hu
  have hne : DirRef.task j ≠ .task k := by simpa using hjk
  refine ⟨hne, j, rfl, ht.used_iff.2 (.inr hu), hp, ?_⟩
  exact hpriv.same h.mem.kernel (by decide) (ht.others.others _ hne) (ht.others.sameKernel (by simp))

/-- **A new task in a free slot, with a directory of its own.** -/
theorem PoolInv.install (h : PoolInv s₀ s) (hi : s.freeSlot = some i) (ht : Taken s₀ s k m) (ring3 : Bool)
    (parent : ℤ) : PoolInv s₀ ({ s with mem := m }.install i (.task k) ring3 parent) := by
  have hunused := freeSlot_unused hi
  obtain ⟨-, hi0⟩ := h.sched.free_ne hunused
  have htask := install_tasks (s := s) m i (.task k) ring3 parent
  have hcr3 : ∀ j, (({ s with mem := m }.install i (.task k) ring3 parent).tasks j).cr3 =
      if j = i then some (.task k) else (s.tasks j).cr3 := by
    intro j
    rw [htask]
    split_ifs <;> rfl
  have hfree := h.free_dir ht.free
  refine ⟨h.sched.install hunused m _ _ _, ht.mem, ?_, fun j h0 hj => ?_, fun j hj => ?_, fun j l d hjd hld => ?_,
    fun j hj => ?_, fun d b p he => ?_⟩
  · rw [hcr3, if_neg hi0]
    exact h.kernelDir
  · rw [hcr3]
    split_ifs with hji
    · exact ⟨k, rfl, ht.used_iff.2 (.inl rfl)⟩
    · simp only [Live, htask, if_neg hji] at hj
      obtain ⟨x, hx, hu⟩ := h.dirs j h0 hj
      exact ⟨x, hx, ht.used_iff.2 (.inr hu)⟩
  · rw [hcr3]
    by_cases hji : j = i
    · simp [Live, htask, hji] at hj
    · simp only [Live, htask, if_neg hji] at hj
      rw [if_neg hji]
      exact h.unused j hj
  · rw [hcr3] at hjd hld
    split_ifs at hjd hld with hji hli hli
    · exact hji.trans hli.symm
    · exact absurd (hld.trans hjd.symm) (hfree l)
    · exact absurd (hjd.trans hld.symm) (hfree j)
    · exact h.distinct j l d hjd hld
  · rcases ht.used_iff.1 hj with rfl | hj
    · exact .inl ⟨i, by rw [hcr3, if_pos rfl]⟩
    · rcases h.holders j hj with ⟨x, hx⟩ | hb
      · have hxi : x ≠ i := by
          rintro rfl
          rw [h.unused x (by simpa [Live] using hunused)] at hx
          cases hx
        exact .inl ⟨x, by rw [hcr3, if_neg hxi, hx]⟩
      · exact .inr hb
  · obtain ⟨hne, hbuild⟩ := h.building_taken ht he
    refine ⟨fun j => ?_, hbuild⟩
    rw [hcr3]
    split_ifs
    · exact fun hd => hne (Option.some.inj hd).symm
    · exact (h.building d b p he).1 j

/-- the running task has a directory -/
theorem PoolInv.live_cr3 (h : PoolInv s₀ s) (hi : s.Live i) : ∃ d, (s.tasks i).cr3 = some d ∧
    ∀ k, d = .task k → s.mem.dirUsed k = true := by
  by_cases h0 : i = 0
  · exact ⟨.kernel, h0 ▸ h.kernelDir, fun k hk => nomatch hk⟩
  · obtain ⟨k, hk, hu⟩ := h.dirs i h0 hi
    exact ⟨.task k, hk, fun j hj => DirRef.task.inj hj ▸ hu⟩

theorem SchedInv.current_live (h : s.SchedInv) : s.Live s.current := by
  simp [Live, h.running]

/-- the directory whose slot 0 a new space shows -/
def shareFrom (share : Option DirRef) : DirRef := share.getD .kernel

/-- **With a free slot, a creation does not fail on a pool.** -/
theorem PoolInv.creates (h : PoolInv s₀ s) {share : Option DirRef} {vs : List UInt32} {ring3 : Bool} {parent : ℤ}
    (hi : s.freeSlot = some i) (hc : Creation s op share vs ring3 parent) :
    ∃ k m p, s.mem.newDirectory share vs = (some (.task k), m) ∧ Taken s₀ s k m ∧ Fits 320 id p ∧
      m.Private (.task k) 320 id p 1 ∧ m.dir (.task k) 0 = s.mem.dir (shareFrom share) 0 := by
  obtain ⟨k, hk⟩ := h.exists_dir (.inl ⟨i, by simpa [Live] using freeSlot_unused hi⟩)
  have hfree := firstFree_free hk
  cases hc with
  | task | ring3 =>
    obtain ⟨m, heq, hinv, hl, hused, hp, hslot⟩ := h.mem.newTask hk
    exact ⟨k, m, 0, heq, ⟨hinv, hl, hused, hfree⟩, ⟨.inr rfl, by simp⟩, hp, hslot⟩
  | child =>
    obtain ⟨d, hd, huse⟩ := h.live_cr3 h.sched.current_live
    have hne : d ≠ .task k := fun he => by simp [huse k he] at hfree
    obtain ⟨m, heq, hinv, hl, hused, hp, hslot⟩ := h.mem.newChild hk hne
    rw [hd]
    exact ⟨k, m, 4, heq, ⟨hinv, hl, hused, hfree⟩, ⟨.inr rfl, fun x hx => .inl hx⟩, hp, hslot⟩

theorem PoolInv.execStarted (h : PoolInv s₀ s) (hk : firstFree s.mem.dirUsed = some k) (he : s.exec = none)
    (b : Blob) : s.mem.cloneKernelDirectory = (some (.task k), s.mem.cloneAt k) ∧
      PoolInv s₀ { s with mem := s.mem.cloneAt k, exec := some (.build (.task k) b 0) } := by
  obtain ⟨heq, hinv, hl, hp⟩ := h.mem.clone hk
  have ht : Taken s₀ s k (s.mem.cloneAt k) := ⟨hinv, hl, rfl, firstFree_free hk⟩
  have hs := h.sched
  refine ⟨heq, ⟨⟨⟨hs.only, hs.main, hs.distinct, hs.ids, hs.frames⟩, hs.running, hs.cr3, hs.tss⟩, hinv, h.kernelDir,
    fun i h0 hi => ?_, h.unused, h.distinct, fun j hj => ?_, fun d b' p hb => ?_⟩⟩
  · obtain ⟨x, hx, hu⟩ := h.dirs i h0 hi
    exact ⟨x, hx, ht.used_iff.2 (.inr hu)⟩
  · rcases ht.used_iff.1 hj with rfl | hj
    · exact .inr ⟨b, 0, rfl⟩
    · rcases h.holders j hj with hx | ⟨b', p, hb⟩
      · exact .inl hx
      · rw [he] at hb
        cases hb
  · obtain ⟨rfl, rfl, rfl⟩ := Exec.build.inj (Option.some.inj hb)
    exact ⟨h.free_dir ht.free, k, rfl, ht.used_iff.2 (.inl rfl), Nat.zero_le _, hp 0 b.index⟩

/-- the bytes of a frame are no part of the pools -/
theorem memInv_copyPage {m₀ : Paging} (h : MemInv m₀ m) (b : Blob) (p : ℕ) (f : Frame) :
    MemInv m₀ (b.copyPage p f m) := by
  unfold Blob.copyPage
  split_ifs
  · refine ⟨⟨h.owned.marked, h.owned.unique, h.owned.shown⟩,
      ⟨h.kernel.boot, h.kernel.user, h.kernel.scratch, h.kernel.tables⟩, ⟨⟨h.same.kernel.dir, h.same.kernel.owner,
      h.same.kernel.tab⟩, h.same.boot⟩, h.exact, h.unused, fun i hi => ?_⟩
    obtain ⟨pd, idx, p, q, hfit, hp⟩ := h.used i hi
    exact ⟨pd, idx, p, q, hfit, ⟨hp.main.shown, hp.main.table⟩, ⟨hp.scratch.shown, hp.scratch.table⟩, hp.tables, hp.rest⟩
  · exact h

theorem private_copyPage {pd q x : ℕ} {idx : ℕ → ℕ} (h : m.Private d pd idx p q) (b : Blob) (f : Frame) :
    (b.copyPage x f m).Private d pd idx p q := by
  unfold Blob.copyPage
  split_ifs
  · exact ⟨⟨h.main.shown, h.main.table⟩, ⟨h.scratch.shown, h.scratch.table⟩, h.tables, h.rest⟩
  · exact h

theorem dirUsed_copyPage (m : Paging) (b : Blob) (p : ℕ) (f : Frame) : (b.copyPage p f m).dirUsed = m.dirUsed := by
  unfold Blob.copyPage
  split_ifs <;> rfl

/-- **A launch maps its next page.** -/
theorem PoolInv.execMapped (h : PoolInv s₀ s) (he : s.exec = some (.build d b p)) (hp : p < b.pages) :
    ∃ f m, s.mem.mapPrivatePage d (b.pageVaddr p) = (some f, m) ∧ Local d s.mem m ∧
      PoolInv s₀ { s with mem := b.copyPage p f m, exec := some (.build d b (p + 1)) } := by
  obtain ⟨hfree, k, rfl, hu, -, hpriv⟩ := h.building d b p he
  obtain ⟨hpd, hpt⟩ := b.pageVaddr_index hp
  have hslot : s.mem.Private (.task k) (pdIndex (b.pageVaddr p)) b.index p 0 := by
    rw [hpd]
    exact hpriv
  obtain ⟨f, m, heq, hinv, hl, hused, hpriv', -⟩ := h.mem.mapMain hu hslot (hpd ▸ b.fits hp) hpt
    fun q hq he => by
      have := b.index_injective he
      omega
  have hs := h.sched
  have hsame : (b.copyPage p f m).dirUsed = s.mem.dirUsed := (dirUsed_copyPage m b p f).trans hused
  refine ⟨f, m, heq, hl, ⟨⟨⟨hs.only, hs.main, hs.distinct, hs.ids, hs.frames⟩, hs.running, hs.cr3, hs.tss⟩,
    memInv_copyPage hinv b p f, h.kernelDir, fun i h0 hi => ?_, h.unused, h.distinct, fun j hj => ?_,
    fun d b' q hb => ?_⟩⟩
  · simpa only [hsame] using h.dirs i h0 hi
  · rcases h.holders j (hsame ▸ hj) with hx | ⟨b', q, hb⟩
    · exact .inl hx
    · obtain ⟨hjk, rfl, rfl⟩ := Exec.build.inj (Option.some.inj (he.symm.trans hb))
      exact .inr ⟨b, p + 1, by rw [hjk]⟩
  · obtain ⟨rfl, rfl, rfl⟩ := Exec.build.inj (Option.some.inj hb)
    refine ⟨hfree, k, rfl, hsame ▸ hu, hp, ?_⟩
    rw [hpd] at hpriv'
    exact private_copyPage hpriv' b f

/-- the directory `k` goes back to the pool, with nobody left to hold it -/
theorem PoolInv.releases (h : PoolInv s₀ s) (hsched : s'.SchedInv) (hmem : s'.mem = s.mem.release (.task k))
    (htasks : ∀ i, (s'.tasks i).cr3 ≠ some (.task k) ∧ (s'.tasks i = s.tasks i ∨
      i ≠ 0 ∧ ¬ s'.Live i ∧ (s'.tasks i).cr3 = none ∧ (s.tasks i).cr3 = some (.task k)))
    (hexec : ∀ b p, s'.exec ≠ some (.build (.task k) b p))
    (hkeep : ∀ d b p, d ≠ .task k → (s'.exec = some (.build d b p) ↔ s.exec = some (.build d b p))) :
    PoolInv s₀ s' := by
  obtain ⟨hinv, hl, hused⟩ := h.mem.release k
  have hcr3 : ∀ i d, (s'.tasks i).cr3 = some d → s'.tasks i = s.tasks i := by
    intro i d hd
    refine (htasks i).2.resolve_right ?_
    rintro ⟨-, -, hn, -⟩
    simp [hn] at hd
  have hother : ∀ j, j ≠ k → s'.mem.dirUsed j = s.mem.dirUsed j := by
    intro j hj
    rw [hmem]
    exact (congrFun hused j).trans (by simp [hj])
  refine ⟨hsched, hmem ▸ hinv, ?_, fun i h0 hi => ?_, fun i hi => ?_, fun i j d hid hjd => ?_, fun j hj => ?_,
    fun d b p hb => ?_⟩
  · rw [show s'.tasks 0 = s.tasks 0 from (htasks 0).2.resolve_right fun hn => hn.1 rfl]
    exact h.kernelDir
  · have hsame : s'.tasks i = s.tasks i := (htasks i).2.resolve_right fun hn => hn.2.1 hi
    rw [Live, hsame] at hi
    obtain ⟨x, hx, hu⟩ := h.dirs i h0 hi
    have hxk : x ≠ k := fun he => (htasks i).1 (by rw [hsame, hx, he])
    exact ⟨x, by rw [hsame, hx], (hother x hxk).trans hu⟩
  · rcases (htasks i).2 with hsame | ⟨-, -, hn, -⟩
    · rw [Live, hsame] at hi
      rw [hsame]
      exact h.unused i hi
    · exact hn
  · rw [hcr3 i d hid] at hid
    rw [hcr3 j d hjd] at hjd
    exact h.distinct i j d hid hjd
  · have hjk : j ≠ k := by
      rintro rfl
      rw [hmem] at hj
      have := (congrFun hused j).symm.trans hj
      simp at this
    rcases h.holders j ((hother j hjk).symm.trans hj) with ⟨i, hi⟩ | ⟨b, p, hb⟩
    · refine .inl ⟨i, ?_⟩
      have hsame : s'.tasks i = s.tasks i := (htasks i).2.resolve_right fun hn => by
        have := hn.2.2.2.symm.trans hi
        exact hjk (DirRef.task.inj (Option.some.inj this)).symm
      rw [hsame, hi]
    · exact .inr ⟨b, p, (hkeep _ b p (by simpa using hjk)).2 hb⟩
  · have hdk : d ≠ .task k := fun he => hexec b p (he ▸ hb)
    obtain ⟨hfree, x, rfl, hu, hp, hpriv⟩ := h.building d b p ((hkeep d b p hdk).1 hb)
    refine ⟨fun i hi => ?_, x, rfl, (hother x (by simpa using hdk)).trans hu, hp, ?_⟩
    · exact hfree i (hcr3 i _ hi ▸ hi)
    · rw [hmem]
      exact hpriv.same h.mem.kernel (by decide) (hl.others _ hdk) (hl.sameKernel (by simp))

/-- **The launch hands its directory to the new task.** -/
theorem PoolInv.execCreated (h : PoolInv s₀ s) (he : s.exec = some (.build d b p)) (hi : s.freeSlot = some i)
    (id : ℤ) :
    ∃ f m, s.mem.mapPrivatePage d privateVaddr = (some f, m) ∧ Local d s.mem m ∧ m.Private d 0 b.index p 1 ∧
      PoolInv s₀ { { s with mem := m }.install i d true (-1) with exec := some (.wait d b id) } := by
  obtain ⟨hfree, k, rfl, hu, hp, hpriv⟩ := h.building d b p he
  obtain ⟨f, m, heq, hinv, hl, hused, hpriv', -⟩ := h.mem.mapScratch hu hpriv (b.fits hp) (v := privateVaddr) (by decide)
    (by decide)
  have hunused := freeSlot_unused hi
  obtain ⟨-, hi0⟩ := h.sched.free_ne hunused
  have hcr3 : ∀ j, (({ s with mem := m }.install i (.task k) true (-1)).tasks j).cr3 =
      if j = i then some (.task k) else (s.tasks j).cr3 := by
    intro j
    rw [install_tasks]
    split_ifs <;> rfl
  have hs := h.sched.install hunused m (.task k) true (-1)
  refine ⟨f, m, heq, hl, hpriv', ⟨⟨⟨hs.only, hs.main, hs.distinct, hs.ids, hs.frames⟩, hs.running, hs.cr3, hs.tss⟩, hinv,
    ?_, fun j h0 hj => ?_, fun j hj => ?_, fun j l d hjd hld => ?_, fun j hj => ?_, fun d b' q hb => ?_⟩⟩
  · exact (hcr3 0).trans (by rw [if_neg hi0, h.kernelDir])
  · by_cases hji : j = i
    · exact ⟨k, (hcr3 j).trans (if_pos hji), (congrFun hused k).trans hu⟩
    · have hj : s.Live j := by
        rw [Live, install_tasks, if_neg hji] at hj
        exact hj
      obtain ⟨x, hx, hux⟩ := h.dirs j h0 hj
      exact ⟨x, (hcr3 j).trans (by rw [if_neg hji, hx]), (congrFun hused x).trans hux⟩
  · by_cases hji : j = i
    · rw [Live, install_tasks, if_pos hji] at hj
      exact absurd (by simp) hj
    · rw [Live, install_tasks, if_neg hji] at hj
      exact (hcr3 j).trans (by rw [if_neg hji, h.unused j hj])
  · have hjd := (hcr3 j).symm.trans hjd
    have hld := (hcr3 l).symm.trans hld
    split_ifs at hjd hld with hji hli hli
    · exact hji.trans hli.symm
    · exact absurd (hld.trans hjd.symm) (hfree l)
    · exact absurd (hjd.trans hld.symm) (hfree j)
    · exact h.distinct j l d hjd hld
  · rcases h.holders j ((congrFun hused j).symm.trans hj) with ⟨x, hx⟩ | ⟨b', q, hb⟩
    · have hxi : x ≠ i := by
        rintro rfl
        rw [h.unused x (by simpa [Live] using hunused)] at hx
        cases hx
      exact .inl ⟨x, (hcr3 x).trans (by rw [if_neg hxi, hx])⟩
    · obtain ⟨hjk, -, -⟩ := Exec.build.inj (Option.some.inj (he.symm.trans hb))
      exact .inl ⟨i, (hcr3 i).trans (by rw [if_pos rfl, hjk])⟩
  · cases hb

/-- the end of a `task_reap`, whoever is in its slot by then -/
theorem PoolInv.freeTask (h : PoolInv s₀ s) (hcur : s.current ≠ i) (h0 : (0 : Fin 8) ≠ i) :
    PoolInv s₀ (s.freeTask i) := by
  have hsched := h.sched.freeTask hcur h0
  have htask := freeTask_tasks (s := s) i
  by_cases hl : s.Live i
  · obtain ⟨k, hk, -⟩ := h.dirs i h0.symm hl
    refine h.releases (k := k) hsched (by simp [Kernel.freeTask, hk]) (fun j => ?_) (fun b p hb => ?_) fun _ _ _ _ => Iff.rfl
    · rw [Live, htask]
      by_cases hji : j = i
      · rw [if_pos hji]
        exact ⟨by simp, .inr ⟨hji ▸ h0.symm, by simp, rfl, hji ▸ hk⟩⟩
      · rw [if_neg hji]
        exact ⟨fun hj => hji (h.distinct j i _ hj hk), .inl rfl⟩
    · exact (h.building _ b p hb).1 i hk
  · refine h.of_same ⟨by simp [Kernel.freeTask, h.unused i hl], rfl, fun j => ?_, fun j => ?_⟩ hsched
    · rw [htask]
      split_ifs with hji
      · rw [hji, h.unused i hl]
      · rfl
    · by_cases hji : j = i
      · subst hji
        refine iff_of_false ?_ hl
        rw [Live, htask, if_pos rfl]
        simp
      · rw [Live, Live, htask, if_neg hji]

/-- past the building phase a launch holds no directory -/
theorem PoolInv.setExec (h : PoolInv s₀ s) {e : Option Exec} (hold : ∀ d b p, s.exec ≠ some (.build d b p))
    (hnew : ∀ d b p, e ≠ some (.build d b p)) : PoolInv s₀ { s with exec := e } := by
  refine ⟨⟨⟨h.sched.only, h.sched.main, h.sched.distinct, h.sched.ids, h.sched.frames⟩, h.sched.running, h.sched.cr3,
    h.sched.tss⟩, h.mem, h.kernelDir, h.dirs, h.unused, h.distinct, fun k hk => ?_, fun d b p hb => absurd hb (hnew d b p)⟩
  rcases h.holders k hk with hi | ⟨b, p, hb⟩
  · exact .inl hi
  · exact absurd hb (hold _ b p)

/-- a launch gives up for lack of a task slot only -/
theorem PoolInv.aborts (h : PoolInv s₀ s) (he : s.exec = some (.build d b p))
    (hm : (p < b.pages ∧ s.mem.mapPrivatePage d (b.pageVaddr p) = (none, m)) ∨
      (b.pages ≤ p ∧ s.freeSlot = none ∧ m = s.mem) ∨
      (b.pages ≤ p ∧ s.mem.mapPrivatePage d privateVaddr = (none, m))) : s.freeSlot = none ∧ m = s.mem := by
  rcases hm with ⟨hlt, hm⟩ | ⟨-, hfull, rfl⟩ | ⟨-, hm⟩
  · obtain ⟨f, m', heq, -⟩ := h.execMapped he hlt
    rw [heq] at hm
    cases (Prod.mk.inj hm).1
  · exact ⟨hfull, rfl⟩
  · obtain ⟨f, m', heq, -⟩ := h.mem.map_some d privateVaddr
    rw [heq] at hm
    cases (Prod.mk.inj hm).1

theorem not_busy_exec (hfree : ¬ s.Busy) (h0 : s.current = 0) : s.exec = none := by
  cases he : s.exec with
  | none => rfl
  | some e => exact absurd (.inr ⟨h0, by simp [he]⟩) hfree

/-- **One operation keeps the pools in order.** -/
theorem PoolInv.moves (h : PoolInv s₀ s) (hm : Moves s op r s') (hop : s.MainStays op) : PoolInv s₀ s' := by
  have hsched := h.sched.moves hm hop
  cases hm with
  | idle => exact h
  | scheduled => exact h.of_same (sameHolders_schedule s) hsched
  | exited => exact h.of_same (sameHolders_exit h.sched) hsched
  | created i d m _ hc hi hm =>
    obtain ⟨k, m', p, heq, ht, -⟩ := h.creates hi hc
    rw [heq] at hm
    obtain ⟨hd, rfl⟩ := Prod.mk.inj hm
    rw [← Option.some.inj hd]
    exact h.install hi ht _ _
  | leaked i m hc hi hm =>
    obtain ⟨k, m', p, heq, -⟩ := h.creates hi hc
    rw [heq] at hm
    cases (Prod.mk.inj hm).1
  | execFailed b m h0 hfree hm =>
    have he := not_busy_exec hfree h0
    obtain ⟨k, hk⟩ := h.exists_dir (.inr he)
    obtain ⟨heq, -⟩ := h.execStarted hk he b
    rw [heq] at hm
    cases (Prod.mk.inj hm).1
  | execStarted b d m h0 hfree hm =>
    have he := not_busy_exec hfree h0
    obtain ⟨k, hk⟩ := h.exists_dir (.inr he)
    obtain ⟨heq, hinv⟩ := h.execStarted hk he b
    rw [heq] at hm
    obtain ⟨hd, rfl⟩ := Prod.mk.inj hm
    rwa [← Option.some.inj hd]
  | execMapped d b p f m he hp hm =>
    obtain ⟨f', m', heq, -, hinv⟩ := h.execMapped he.exec hp
    rw [heq] at hm
    obtain ⟨hf, rfl⟩ := Prod.mk.inj hm
    rwa [← Option.some.inj hf]
  | execAborted d b p m he hm =>
    obtain ⟨hfree, k, rfl, -, hp, -⟩ := h.building d b p he.exec
    obtain ⟨-, rfl⟩ := h.aborts he.exec hm
    refine h.releases hsched rfl (fun i => ⟨hfree i, .inl rfl⟩) (fun b p hb => nomatch hb) fun d b' p' hd => ?_
    simp only [execAbort, reduceCtorEq, false_iff]
    intro hb
    exact hd (Exec.build.inj (Option.some.inj (he.exec.symm.trans hb))).1.symm
  | execCreated d b p i f m he hp hi hm =>
    obtain ⟨f', m', heq, -, -, hinv⟩ := h.execCreated he.exec hi s.nextTaskId
    rw [heq] at hm
    obtain ⟨-, rfl⟩ := Prod.mk.inj hm
    exact hinv
  | execReaps d b id he =>
    refine (h.setExec (e := some (.reaping d b id)) ?_ ?_).of_same (sameHolders_taskReap _ id) hsched
    · simp [he.exec]
    · simp
  | execDone d b id he => exact h.setExec (by simp [he.exec]) (by simp)
  | reapCalled id => exact h.of_same (sameHolders_taskReap s id) hsched
  | reapWaits | reapSkips => exact h.of_same ⟨rfl, rfl, fun _ => rfl, fun _ => Iff.rfl⟩ hsched
  | reapsChild q rest hj =>
    refine h.of_same (SameHolders.trans ?_ (sameHolders_taskReap _ _)) hsched
    exact ⟨rfl, rfl, fun _ => rfl, fun _ => Iff.rfl⟩
  | reaped q rest _ hq =>
    have hqs := h.sched.frames s.current q (by simp [hq])
    refine (h.freeTask hqs.1.symm hqs.2.symm).of_same ⟨rfl, rfl, fun _ => rfl, fun _ => Iff.rfl⟩ hsched

/-! ## The pools over a run -/

theorem poolInv_run {l : Layout} {tr : List (Op × Option ℤ)} (hboot : boot l = some s₀) (h : Run step MainStays s₀ tr s) :
    PoolInv s₀ s :=
  h.invariant (fun s op hinv hop => hinv.moves (s.step_moves op) hop) (poolInv_boot hboot)

theorem exists_freeSlot (hi : ¬ s.Live i) : ∃ j, s.freeSlot = some j :=
  exists_firstFree (i := i) (by simpa [Live] using hi)

theorem PoolInv.create_some (h : PoolInv s₀ s) {share : Option DirRef} {vs : List UInt32} {ring3 : Bool} {parent : ℤ}
    (hi : ¬ s.Live i) (hc : Creation s op share vs ring3 parent) :
    (s.create share vs ring3 parent).1 = some s.nextTaskId := by
  obtain ⟨j, hj⟩ := exists_freeSlot hi
  obtain ⟨k, m, p, heq, -⟩ := h.creates hj hc
  simp only [create, hj, createIn, heq]

/-- a launch that has reached its page `p` takes one more, and the task at the end if a slot is free -/
theorem PoolInv.launch_goes (h : PoolInv s₀ s) (he : s.InExec (.build d b p)) :
    (p < b.pages → (s.step .go).2.exec = some (.build d b (p + 1))) ∧
    (b.pages ≤ p → (∃ i, ¬ s.Live i) → (s.step .go).1 = some s.nextTaskId) := by
  have hgo : s.step .go = s.execGo (.build d b p) := by simp only [step, he.main, he.top, he.exec, if_true]
  rw [hgo, execGo]
  refine ⟨fun hp => ?_, fun hp hroom => ?_⟩
  · obtain ⟨f, m, heq, -⟩ := h.execMapped he.exec hp
    rw [if_pos hp, heq]
  · obtain ⟨i, hi⟩ := hroom
    obtain ⟨j, hj⟩ := exists_freeSlot hi
    obtain ⟨f, m, heq, -⟩ := h.mem.map_some d privateVaddr
    simp only [if_neg (not_lt.2 hp), taskCreateAppRing3, hj, createAppIn, heq, Kernel.execCreated]

/-- with no holder but task 0, no directory is in use and every table with an owner is the kernel's -/
theorem PoolInv.only_kernel (h : PoolInv s₀ s) (hgone : ∀ i, i ≠ 0 → ¬ s.Live i)
    (hno : ∀ d b p, s.exec ≠ some (.build d b p)) :
    (∀ k, s.mem.dirUsed k = false) ∧ ∀ k d, s.mem.owner k = some d → d = .kernel := by
  have hused : ∀ k, s.mem.dirUsed k = false := by
    intro k
    by_contra hk
    rcases h.holders k (by simpa using hk) with ⟨i, hi⟩ | ⟨b, p, hb⟩
    · by_cases h0 : i = 0
      · rw [h0, h.kernelDir] at hi
        cases hi
      · rw [h.unused i (hgone i h0)] at hi
        cases hi
    · exact hno _ b p hb
  refine ⟨hused, fun k d hk => ?_⟩
  cases d with
  | kernel => rfl
  | task i => exact absurd hk (h.mem.unused i (hused i) k)

/-- the entries of the kernel's tables are what they were -/
theorem sameKernel_entry {m' : Paging} (h : SameKernel m m') {k : Fin 20} (hk : m.owner k = some .kernel) {j : ℕ}
    {f : Frame} : m'.Entry k j f ↔ m.Entry k j f := by
  have hk' := (h.kernel.owner k).2 hk
  simp only [Entry, hk, hk', h.kernel.tab k hk]

/-- **What the other tasks took is back** once they are gone. -/
theorem PoolInv.restored (h : PoolInv s₀ s) (h₀ : PoolInv s₀ s₀) (hnone : s₀.exec = none)
    (hstart : ∀ i, i ≠ 0 → ¬ s₀.Live i) (hgone : ∀ i, i ≠ 0 → ¬ s.Live i) (hno : ∀ d b p, s.exec ≠ some (.build d b p)) :
    s.mem.dirUsed = s₀.mem.dirUsed ∧ s.mem.owner = s₀.mem.owner ∧ s.mem.bitmap = s₀.mem.bitmap := by
  obtain ⟨hused, hown⟩ := h.only_kernel hgone hno
  obtain ⟨hused₀, hown₀⟩ := h₀.only_kernel hstart (by simp [hnone])
  have hsame := h.mem.same
  have howner : s.mem.owner = s₀.mem.owner := by
    funext k
    cases hk : s.mem.owner k with
    | some d =>
      obtain rfl := hown k d hk
      exact ((hsame.kernel.owner k).1 hk).symm
    | none =>
      cases hk₀ : s₀.mem.owner k with
      | none => rfl
      | some d =>
        obtain rfl := hown₀ k d hk₀
        rw [(hsame.kernel.owner k).2 hk₀] at hk
        cases hk
  refine ⟨funext fun k => (hused k).trans (hused₀ k).symm, howner,
    funext fun f => Bool.eq_iff_iff.2 ⟨fun hf => ?_, fun hf => ?_⟩⟩
  · obtain ⟨k, j, he⟩ := h.mem.exact f hf
    obtain ⟨d, hd⟩ := Option.ne_none_iff_exists'.1 he.1
    obtain rfl := hown k d hd
    exact h₀.mem.owned.marked k j f ((sameKernel_entry hsame (howner ▸ hd)).1 he)
  · obtain ⟨k, j, he⟩ := h₀.mem.exact f hf
    obtain ⟨d, hd⟩ := Option.ne_none_iff_exists'.1 he.1
    obtain rfl := hown₀ k d hd
    exact h.mem.owned.marked k j f ((sameKernel_entry hsame hd).2 he)

/-- the pools serve whoever may ask for something next, and have back what is no longer held -/
structure Supplied (s₀ s : Kernel) : Prop where
  /-- a free task slot leaves a free directory, a free private table and a free frame -/
  room : (∃ i, ¬ s.Live i) →
    (∃ k, s.mem.dirUsed k = false) ∧ (∃ k, s.mem.owner k = none) ∧ ∃ f, s.mem.bitmap f = false
  /-- the creations by a task that is not in a call then return a new id -/
  creates : ∀ op, (op = .create ∨ op = .createRing3 ∨ op = .spawn ∧ (s.tasks s.current).isRing3 = true) → ¬ s.Busy →
    (∃ i, ¬ s.Live i) → (s.step op).1 = some s.nextTaskId
  launches : ∀ b, s.current = 0 → ¬ s.Busy → ∃ d, (s.step (.exec b)).2.exec = some (.build d b 0)
  /-- a launch gets each of its pages, and its task if a slot is free -/
  builds : ∀ d b p, s.InExec (.build d b p) →
    (p < b.pages → (s.step .go).2.exec = some (.build d b (p + 1))) ∧
    (b.pages ≤ p → (∃ i, ¬ s.Live i) → (s.step .go).1 = some s.nextTaskId)
  /-- with every task but task 0 gone and no launch building a directory, the pools are as after `task_init` -/
  restored : (∀ i, i ≠ 0 → ¬ s.Live i) → (∀ d b p, s.exec ≠ some (.build d b p)) →
    s.mem.dirUsed = s₀.mem.dirUsed ∧ s.mem.owner = s₀.mem.owner ∧ s.mem.bitmap = s₀.mem.bitmap

theorem PoolInv.supplied {l : Layout} (hinv : PoolInv s₀ s) (hboot : boot l = some s₀) : Supplied s₀ s where
  room hroom := by
    obtain ⟨k, hk⟩ := hinv.exists_dir (.inl hroom)
    exact ⟨⟨k, firstFree_free hk⟩, hinv.mem.exists_table, hinv.mem.exists_frame⟩
  creates op hop hfree hroom := by
    obtain ⟨i, hi⟩ := hroom
    rcases hop with rfl | rfl | ⟨rfl, hring⟩
    · simpa only [step, if_neg hfree, taskCreate] using hinv.create_some hi .task
    · simpa only [step, if_neg hfree, taskCreateRing3] using hinv.create_some hi .ring3
    · simpa only [step, if_neg hfree, taskCreateRing3Child, if_pos hring] using hinv.create_some hi (.child hring)
  launches b h0 hfree := by
    have he := not_busy_exec hfree h0
    obtain ⟨k, hk⟩ := hinv.exists_dir (.inr he)
    obtain ⟨heq, -⟩ := hinv.execStarted hk he b
    refine ⟨.task k, ?_⟩
    rw [step, if_neg (by simp [hfree, h0]), heq]
  builds d b p he := hinv.launch_goes he
  restored hgone hno := by
    obtain ⟨m, -, rfl⟩ := Option.map_eq_some_iff.1 hboot
    refine hinv.restored (poolInv_boot hboot) rfl (fun i hi => ?_) hgone hno
    simp [taskInit, Live, hi]

end Kernel

end GannetOS.Proc
