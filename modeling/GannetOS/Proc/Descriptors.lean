/-
Programs and the descriptors they open.

`System` joins the task table, the filesystem with exec_buf, and the shell's launches: `try_exec` loads a program file and
starts it; the program and the tasks it spawns call the filesystem and end, by `exit` or on a page fault. The fds table has
8 entries for everybody and no owner; `opener` is a ghost field that remembers which task opened each.

- `descriptors_released`: in every run in which tasks end only after what they opened has been closed, every open
  descriptor belongs to a task that has not ended; so nothing is left of a task after its `task_reap`, and whenever the
  shell can launch a program, its `fs_open` finds a descriptor;
- `leaked_descriptors_block_launch`: neither `task_exit` nor `task_reap` closes anything. A program that opens its own file
  eight times and ends makes the next launch of the same program fail.

A system call on files is one step, and `try_exec` loads its file while no other task exists. The files that the shell's
own commands open are left out.
-/
import GannetOS.Proc.Apps
import GannetOS.Proc.Loader

namespace GannetOS.Proc

open GannetOS.Core GannetOS.Filesys

structure System where
  kernel : Kernel
  loader : Loader
  /-- the id of the task that opened a descriptor last -/
  opener : Fin 8 → ℤ

inductive SysOp where
  /-- the shell's `try_exec` -/
  | launch (path : CStr)
  | spawn
  | exit
  /-- a page fault in user mode -/
  | fault
  | yield
  | tick
  | go
  /-- a system call on files -/
  | fs (op : Filesys.Op)

inductive SysRes where
  | loaded (entry : Option UInt32)
  | task (id : Option ℤ)
  | fs (r : Filesys.Res)
  | none

namespace System

/-- the running task is a user task -/
def inApp (s : System) : Bool := (s.kernel.tasks s.kernel.current).isRing3

/-- the id of the running task -/
def me (s : System) : ℤ := (s.kernel.tasks s.kernel.current).id

def taskStep (s : System) (op : Kernel.Op) : SysRes × System :=
  (.task (s.kernel.step op).1, { s with kernel := (s.kernel.step op).2 })

/-- `fs_init` is no system call -/
def isCall : Filesys.Op → Bool
  | .fsInit => false
  | _ => true

/-- the openers after a call of task `id` has returned `r` -/
def openers (opener : Fin 8 → ℤ) (id : ℤ) : Filesys.Res → Fin 8 → ℤ
  | .fd (some k) => Function.update opener k id
  | _ => opener

theorem openers_self (opener : Fin 8 → ℤ) (id : ℤ) (k : Fin 8) : openers opener id (.fd (some k)) k = id := by
  rw [openers, Function.update_self]

theorem openers_of_ne (opener : Fin 8 → ℤ) (id : ℤ) {r : Filesys.Res} {k : Fin 8} (h : r ≠ .fd (some k)) :
    openers opener id r k = opener k := by
  cases r with
  | fd slot =>
    cases slot with
    | none => rfl
    | some j => exact Function.update_of_ne (fun he => h (by rw [he])) _ _
  | _ => rfl

def fsStep (s : System) (op : Filesys.Op) : SysRes × System :=
  let r := Filesys.step s.loader.fs op
  (.fs r.1, { s with loader := { s.loader with fs := r.2 }, opener := openers s.opener s.me r.1 })

def launch (s : System) (path : CStr) : SysRes × System :=
  match loadPexeBlob path.arg s.loader with
  | (none, l) => (.loaded none, { s with loader := l })
  | (some (b, entry), l) => (.loaded (some entry), { s with loader := l, kernel := (s.kernel.step (.exec b)).2 })

def step (s : System) : SysOp → SysRes × System
  | .launch path => if s.kernel.current = 0 ∧ ¬ s.kernel.Busy then s.launch path else (.none, s)
  | .exit | .fault => if s.inApp then s.taskStep .exit else (.none, s)
  | .spawn => s.taskStep .spawn
  | .yield => s.taskStep .yield
  | .tick => s.taskStep .tick
  | .go => s.taskStep .go
  | .fs op => if s.inApp && isCall op then s.fsStep op else (.none, s)

/-- ids stay within an int, and a task ends after what it opened has been closed -/
def Closes (s : System) (op : SysOp) : Prop :=
  s.kernel.nextTaskId < 2147483647 ∧
    match op with
    | .exit | .fault => ∀ k, s.loader.fs.isOpen k → s.opener k ≠ s.me
    | _ => True

variable {s s₀ : System} {k₀ : Kernel}

/-! ## The invariant -/

/-- a user task that has not ended has opened descriptor `k` -/
def Held (s : System) (k : Fin 8) : Prop := ∃ i, i ≠ 0 ∧ s.kernel.Runnable i ∧ (s.kernel.tasks i).id = s.opener k

structure Accounted (k₀ : Kernel) (s : System) : Prop where
  iso : Kernel.IsoInv k₀ s.kernel
  app : s.kernel.AppInv
  one : s.kernel.OneApp
  held : ∀ k, s.loader.fs.isOpen k → s.Held k

/-- **A step of the task table keeps the account**, if no task ends that has a descriptor open. -/
theorem Accounted.kernel (h : Accounted k₀ s) {op : Kernel.Op} (hop : s.kernel.FromApps op)
    (hend : op = .exit → ∀ k, s.loader.fs.isOpen k → s.opener k ≠ s.me) {l : Loader}
    (hl : ∀ k, l.fs.isOpen k → s.loader.fs.isOpen k) :
    Accounted k₀ { s with loader := l, kernel := (s.kernel.step op).2 } := by
  have hm := s.kernel.step_moves op
  have hapart := h.one.apart hop
  refine ⟨h.iso.moves hm hapart, h.app.moves h.iso hm hapart, h.one.moves h.iso h.app hm hop, fun k hk => ?_⟩
  obtain ⟨i, hi, hrun, hid⟩ := h.held k (hl k hk)
  obtain ⟨hrun', hid'⟩ := hm.stays h.iso hapart.1.1 hrun fun ho hc => hend ho k (hl k hk) (by rw [me, ← hc, hid])
  exact ⟨i, hi, hrun', hid'.trans hid⟩

/-- a running user task can hold descriptors -/
theorem Accounted.me_runs (h : Accounted k₀ s) (happ : s.inApp = true) :
    s.kernel.current ≠ 0 ∧ s.kernel.Runnable s.kernel.current := by
  refine ⟨fun h0 => ?_, .inr h.iso.pool.sched.running⟩
  rw [inApp, h0, h.one.main] at happ
  cases happ

/-- what a call leaves open was open before, or it is the descriptor it returns -/
theorem isOpen_step {fs : FsState} {op : Filesys.Op} (hop : isCall op = true) {k : Fin 8}
    (hk : (Filesys.step fs op).2.isOpen k) : fs.isOpen k ∨ (Filesys.step fs op).1 = .fd (some k) := by
  have hR := keeping_keepsFds
  have hsame {x : StateM FsState Bool} (hx : keepsFds.rel x x) (hk : (Prod.map Res.rc id (x fs)).2.isOpen k) :
      fs.isOpen k := isOpen_of_keepsFds hx hk
  cases op with
  | fsInit => cases hop
  | fsOpen p create =>
    rcases isOpen_fsOpen p hk with hk | hk
    · exact .inl hk
    · exact .inr (congrArg Res.fd hk)
  | fsRead fd len => exact .inl (isOpen_fsRead (fun fd _ _ => (opensOnly fd).pure ()) hk)
  | fsWrite fd data => exact .inl (isOpen_fsWrite (fun fd _ _ => (opensOnly fd).pure _) hk)
  | fsClose fd => exact .inl (isOpen_fsClose hk).1
  | fsMkdir p => exact .inl (hsame (x := fsMkdir p.arg) (fsMkdir_rel hR (pathRel_ofBytes p.bytes)) hk)
  | fsRmdir p => exact .inl (hsame (x := fsRmdir p.arg) (fsRmdir_rel hR (pathRel_ofBytes p.bytes)) hk)
  | fsRrmdr p => exact .inl (hsame (x := fsRrmdr p.arg) (fsRrmdrDepth_rel hR (pathRel_ofBytes p.bytes) 130) hk)
  | fsDelete p => exact .inl (hsame (x := fsDelete p.arg) (fsDelete_rel hR (pathRel_ofBytes p.bytes)) hk)

theorem Accounted.fsStep (h : Accounted k₀ s) (happ : s.inApp = true) {op : Filesys.Op} (hop : isCall op = true) :
    Accounted k₀ (s.fsStep op).2 := by
  obtain ⟨hne, hrun⟩ := h.me_runs happ
  refine ⟨h.iso, h.app, h.one, fun k hk => ?_⟩
  by_cases hnew : (Filesys.step s.loader.fs op).1 = .fd (some k)
  · refine ⟨s.kernel.current, hne, hrun, ?_⟩
    show s.me = openers s.opener s.me (Filesys.step s.loader.fs op).1 k
    rw [hnew, openers_self]
  · obtain ⟨i, hi, hrun, hid⟩ := h.held k ((isOpen_step hop hk).resolve_right hnew)
    exact ⟨i, hi, hrun, hid.trans (openers_of_ne _ _ hnew).symm⟩

theorem Accounted.launch (h : Accounted k₀ s) (hids : s.kernel.nextTaskId < 2147483647) (path : CStr) :
    Accounted k₀ (s.launch path).2 := by
  have hl : ∀ k, (loadPexeBlob path.arg s.loader).2.fs.isOpen k → s.loader.fs.isOpen k := fun k => isOpen_loadPexeBlob path
  unfold System.launch
  cases hload : loadPexeBlob path.arg s.loader with
  | mk r l =>
    rw [hload] at hl
    cases r with
    | none => exact ⟨h.iso, h.app, h.one, fun k hk => h.held k (hl k hk)⟩
    | some be =>
      have hop : s.kernel.FromApps (.exec be.1) := ⟨hids, trivial⟩
      exact h.kernel hop (fun he => by cases he) hl

theorem Accounted.taskStep (h : Accounted k₀ s) {op : Kernel.Op} (hop : s.kernel.FromApps op)
    (hend : op = .exit → ∀ k, s.loader.fs.isOpen k → s.opener k ≠ s.me) : Accounted k₀ (s.taskStep op).2 :=
  h.kernel hop hend fun _ hk => hk

theorem Accounted.step (h : Accounted k₀ s) (op : SysOp) (hop : s.Closes op) : Accounted k₀ (s.step op).2 := by
  cases op with
  | launch path =>
    simp only [System.step]
    split_ifs
    · exact h.launch hop.1 path
    · exact h
  | exit | fault =>
    simp only [System.step]
    split_ifs with happ
    · exact h.taskStep ⟨hop.1, happ⟩ fun _ => hop.2
    · exact h
  | fs op =>
    simp only [System.step]
    split_ifs with happ
    · rw [Bool.and_eq_true] at happ
      exact h.fsStep happ.1 happ.2
    · exact h
  | spawn | yield | tick | go => exact h.taskStep ⟨hop.1, trivial⟩ fun he => by cases he

/-- **Descriptors are released with their tasks.** From boot, with nothing open, in every run in which tasks end only after
what they opened has been closed: an open descriptor was opened by a task that has not ended; nothing that was opened under
an id is open when no task has that id any more; and when task 0 can launch a program, nothing is open, so `fs_open` of an
existing file succeeds. -/
theorem descriptors_released {l : Kernel.Layout} {tr : List (SysOp × SysRes)} (hboot : Kernel.boot l = some s₀.kernel)
    (hclosed : ∀ k, ¬ s₀.loader.fs.isOpen k) (h : Run step Closes s₀ tr s) :
    (∀ k, s.loader.fs.isOpen k → ∃ i, i ≠ 0 ∧ s.kernel.Runnable i ∧ (s.kernel.tasks i).id = s.opener k) ∧
    (∀ id, (∀ i, s.kernel.Live i → (s.kernel.tasks i).id ≠ id) → ∀ k, s.loader.fs.isOpen k → s.opener k ≠ id) ∧
    (s.kernel.current = 0 → ¬ s.kernel.Busy → (∀ k, ¬ s.loader.fs.isOpen k) ∧
      ∀ (p : CStr) (i : ℕ), s.loader.fs.faults = [] → s.loader.fs.find p.bytes = some i →
        (s.loader.fs.inode i).type ≠ fsTypeDir → ((fsOpen p.arg false : StateM Loader _) s.loader).1 ≠ none) := by
  have hinv : Accounted s₀.kernel s := by
    have hstep : ∀ t op, Accounted s₀.kernel t → t.Closes op → Accounted s₀.kernel (t.step op).2 := fun t op ht => ht.step op
    exact h.invariant hstep
      ⟨Kernel.isoInv_boot hboot, Kernel.appInv_boot hboot, .boot hboot, fun k hk => absurd hk (hclosed k)⟩
  have hlive : ∀ i, s.kernel.Runnable i → s.kernel.Live i := by
    rintro i (hi | hi) <;> simp [Kernel.Live, hi]
  refine ⟨hinv.held, fun id hgone k hk he => ?_, fun hcur hfree => ?_⟩
  · obtain ⟨i, -, hrun, hid⟩ := hinv.held k hk
    exact hgone i (hlive i hrun) (hid.trans he)
  have hnone : ∀ k, ¬ s.loader.fs.isOpen k := by
    intro k hk
    obtain ⟨i, hi, hrun, -⟩ := hinv.held k hk
    have hno : ∀ d b id, ¬ s.kernel.Launched d b id :=
      fun d b id => Kernel.not_launched_of_none (Kernel.not_busy_exec hfree hcur)
    exact hi (hinv.one.only_main hinv.iso.family hinv.iso.pool.sched hno (hlive i hrun))
  refine ⟨hnone, fun p i hfaults hfind htype => ?_⟩
  have hfd : s.loader.fs.freeFd = some 0 := by
    rw [FsState.freeFd, List.finRange_succ, List.find?_cons_of_pos]
    simpa [FsState.isOpen] using hnone 0
  rw [onFs_run (fsOpen_onFs p), fsOpen_run hfaults, hfd, hfind]
  dsimp only
  rw [if_neg htype]
  simp

/-! ## A program that keeps its descriptors -/

section
open Kernel

/-- the program file `"/a"`: mem_size 1, one byte of code -/
def pexeFile : List UInt8 := [0x50, 0x45, 0x58, 0x45, 0, 0, 0, 0, 1, 0, 0, 0, 0, 0, 0, 0, 0xC3]

def pexePath : CStr := ⟨[47, 97], by decide⟩

/-- what `load_pexe_blob` makes of it -/
def pexeBlob (buf : ℕ → UInt8) : Blob := ⟨1, loaded pexeFile buf, oneByte.pos, oneByte.le⟩

/-- the first boot of a disk with the program -/
def withProgram : System :=
  ⟨vgaBoot, ⟨runOps Filesys.step FsState.boot [.fsOpen pexePath true, .fsWrite 0 pexeFile, .fsClose 0], fun _ => 0⟩,
    fun _ => 0⟩

/-- the disk holds the program -/
structure HasProgram (fs : FsState) : Prop where
  sound : Sound fs
  found : fs.find pexePath.bytes = some 1
  file : (fs.inode 1).type = fsTypeFile
  content : fs.content 1 = pexeFile

theorem withProgram_has : HasProgram withProgram.loader.fs ∧ ∀ k, ¬ withProgram.loader.fs.isOpen k := by
  have hne : pexeFile ≠ [] := by decide
  obtain ⟨hsound, hfind, htype, hcontent, hfds⟩ := boot_store (p := pexePath) (s := withProgram.loader.fs) (by decide)
    (by decide) (by decide) hne (by decide) rfl
  exact ⟨⟨hsound, hfind, htype, hcontent⟩, fun k hk => hk (hfds k)⟩

variable {fs : FsState} {k : Kernel} {l : Loader} {opener : Fin 8 → ℤ}

/-- an entry of the fds table changes, and nothing on the disk -/
theorem HasProgram.setFd (h : HasProgram fs) (k : Fin 8) {e : Fd}
    (he : ∀ i, e.inodeIdx = some i → i = 1 ∧ e.offset.toNat ≤ 3975168) : HasProgram (fs.setFd k e) := by
  refine ⟨h.sound.setFd (fun i hi => ?_) fun i hi => (he i hi).2, (FsState.setFd_find _ _ _ _).trans h.found, h.file,
    h.content⟩
  rw [(he i hi).1]
  exact .inl (FsState.find_some h.found).1

/-- `n` entries are open, all by task 1 -/
def Opened (l : Loader) (opener : Fin 8 → ℤ) (n : ℕ) : Prop :=
  HasProgram l.fs ∧ ∀ k : Fin 8, (l.fs.isOpen k ↔ k.val < n) ∧ (l.fs.isOpen k → opener k = 1)

theorem freeFd_of_open {n : Fin 8} (h : ∀ k, fs.isOpen k ↔ k < n) : fs.freeFd = some n := by
  have hfree : (fun i => (fs.fds i).inodeIdx.isNone) = fun i => decide (n ≤ i) := by
    funext i
    rw [Bool.eq_iff_iff, decide_eq_true_eq, ← not_lt, ← h i, FsState.isOpen, not_not, Option.isNone_iff_eq_none]
  rw [FsState.freeFd, hfree]
  clear h hfree
  revert n
  decide

/-- the launch of the program while a descriptor is free -/
theorem load_program {s : Loader} (h : HasProgram s.fs) {fd : Fin 8} (hfd : s.fs.freeFd = some fd) : ∃ off,
    loadPexeBlob pexePath.arg s =
      (some (pexeBlob s.execBuf, appLoadAddr), ⟨s.fs.setFd fd ⟨none, off⟩, loaded pexeFile s.execBuf⟩) := by
  have hacc : Accepts (s.fs.content 1) := by
    rw [h.content]
    decide
  have hdir : (s.fs.inode 1).type ≠ fsTypeDir := by
    rw [h.file]
    decide
  obtain ⟨b, off, hload, hsize, hbytes⟩ := loadPexeBlob_accepts h.sound hfd h.found hdir hacc
  rw [h.content] at hload hsize hbytes
  obtain rfl : b = pexeBlob s.execBuf := by
    cases b
    dsimp only at hsize hbytes
    subst hsize hbytes
    rfl
  exact ⟨off, hload⟩

/-- and while none is -/
theorem load_blocked {s : Loader} (h : s.fs.faults = []) (hfd : s.fs.freeFd = none) (p : CStr) :
    (loadPexeBlob p.arg s).1 = none := by
  have hopen := onFs_run (fsOpen_onFs p) s
  rw [fsOpen_run h, hfd] at hopen
  unfold loadPexeBlob
  rw [run_bind hopen]
  rfl

/-- the task table while the program runs as task 1 -/
def programRuns : Kernel := runOps Kernel.step vgaBoot (.exec (pexeBlob fun _ => 0) :: List.replicate 7 .go)

/-- and after it has ended, `task_reap` has returned and so has `try_exec` -/
def programGone : Kernel := runOps Kernel.step programRuns (.exit :: List.replicate 11 .go)

theorem programRuns_current :
    programRuns.current = 1 ∧ (programRuns.tasks 1).isRing3 = true ∧ (programRuns.tasks 1).id = 1 := by
  decide +kernel

theorem programRuns_next : programRuns.nextTaskId = 2 := by
  decide +kernel

theorem programGone_main : programGone.current = 0 ∧ ¬ programGone.Busy ∧ ∀ i, programGone.Live i → i = 0 := by
  decide +kernel

theorem runOps_go (s : System) (n : ℕ) : runOps System.step s (List.replicate n .go) =
    { s with kernel := runOps Kernel.step s.kernel (List.replicate n .go) } := by
  induction n generalizing s with
  | zero => rfl
  | succ n ih => exact ih _

theorem withProgram_free : withProgram.kernel.current = 0 ∧ ¬ withProgram.kernel.Busy := by
  decide +kernel

theorem withProgram_boot : boot vgaLayout = some withProgram.kernel := by
  rw [show withProgram.kernel = vgaBoot from rfl]
  exact boot_vgaLayout

/-- the shell starts the program -/
theorem program_starts : ∃ off, runOps System.step withProgram (.launch pexePath :: List.replicate 7 .go) =
    ⟨programRuns, ⟨withProgram.loader.fs.setFd 0 ⟨none, off⟩, loaded pexeFile fun _ => 0⟩, fun _ => 0⟩ := by
  obtain ⟨hhas, hclosed⟩ := withProgram_has
  obtain ⟨off, hload⟩ := load_program hhas (freeFd_of_open (n := 0) fun k => by simp [hclosed k])
  have hstep : (withProgram.step (.launch pexePath)).2 = ⟨(vgaBoot.step (.exec (pexeBlob fun _ => 0))).2,
      ⟨withProgram.loader.fs.setFd 0 ⟨none, off⟩, loaded pexeFile fun _ => 0⟩, fun _ => 0⟩ := by
    rw [System.step, if_pos withProgram_free, System.launch, hload]
    rfl
  refine ⟨off, ?_⟩
  rw [runOps_cons, hstep, runOps_go, programRuns, runOps_cons]

/-- a user task ends; nobody touches the descriptors -/
theorem runOps_exit (happ : (k.tasks k.current).isRing3 = true) (l : Loader) (opener : Fin 8 → ℤ) (n : ℕ) :
    runOps System.step ⟨k, l, opener⟩ (.exit :: List.replicate n .go) =
      ⟨runOps Kernel.step k (.exit :: List.replicate n .go), l, opener⟩ := by
  have happ' : (⟨k, l, opener⟩ : System).inApp = true := happ
  rw [runOps_cons, System.step, if_pos happ', runOps_go, runOps_cons]
  rfl

theorem programRuns_app : (programRuns.tasks programRuns.current).isRing3 = true := by
  rw [programRuns_current.1]
  exact programRuns_current.2.1

/-- the program ends and is reaped -/
theorem program_ends (l : Loader) (opener : Fin 8 → ℤ) :
    runOps System.step ⟨programRuns, l, opener⟩ (.exit :: List.replicate 11 .go) = ⟨programGone, l, opener⟩ := by
  rw [runOps_exit programRuns_app, programGone]

-- from here on only what the lemmas above say of the two tables is used
attribute [irreducible] programRuns programGone

/-- one more `fs_open` by the program -/
theorem Opened.open {n : Fin 8} (h : Opened l opener n.val) (happ : (k.tasks k.current).isRing3 = true)
    (hid : (k.tasks k.current).id = 1) :
    ∃ l' opener', ((⟨k, l, opener⟩ : System).step (.fs (.fsOpen pexePath false))).2 = ⟨k, l', opener'⟩ ∧
      Opened l' opener' (n.val + 1) := by
  obtain ⟨hhas, hopen⟩ := h
  have hfd : l.fs.freeFd = some n := freeFd_of_open fun j => (hopen j).1
  have hdir : (l.fs.inode 1).type ≠ fsTypeDir := by
    rw [hhas.file]
    decide
  have hcall : Filesys.step l.fs (.fsOpen pexePath false) = (.fd (some n), l.fs.setFd n ⟨some 1, 0⟩) := by
    have hrun := fsOpen_run hhas.sound.faults pexePath false
    rw [hfd, hhas.found] at hrun
    dsimp only at hrun
    rw [if_neg hdir] at hrun
    rw [Filesys.step, hrun]
    rfl
  have happ' : ((⟨k, l, opener⟩ : System).inApp && isCall (.fsOpen pexePath false)) = true := by
    rw [Bool.and_eq_true]
    exact ⟨happ, rfl⟩
  refine ⟨{ l with fs := l.fs.setFd n ⟨some 1, 0⟩ }, Function.update opener n 1, ?_, ?_, fun j => ?_⟩
  · rw [System.step, if_pos happ', fsStep]
    dsimp only
    rw [hcall, openers, me, hid]
  · exact hhas.setFd n fun i hi => ⟨(Option.some.inj hi).symm, Nat.zero_le _⟩
  · have hj : (l.fs.setFd n ⟨some 1, 0⟩).isOpen j ↔ j = n ∨ l.fs.isOpen j := by
      rw [FsState.isOpen, FsState.setFd_fds]
      by_cases hjn : j = n
      · simp [hjn]
      · simp [hjn, FsState.isOpen]
    refine ⟨?_, fun ho => ?_⟩
    · rw [hj, (hopen j).1, Fin.ext_iff]
      omega
    · by_cases hjn : j = n
      · rw [hjn]
        exact Function.update_self n _ _
      · rw [Function.update_of_ne hjn]
        exact (hopen j).2 ((hj.1 ho).resolve_left hjn)

/-- `n` of them -/
theorem Opened.opens (happ : (k.tasks k.current).isRing3 = true) (hid : (k.tasks k.current).id = 1) {n : ℕ}
    (hn : n ≤ 8) (h : Opened l opener 0) : ∃ l' opener',
    runOps System.step ⟨k, l, opener⟩ (List.replicate n (.fs (.fsOpen pexePath false))) = ⟨k, l', opener'⟩ ∧
      Opened l' opener' n := by
  induction n with
  | zero => exact ⟨l, opener, rfl, h⟩
  | succ n ih =>
    obtain ⟨l₁, opener₁, hrun, hopened⟩ := ih (by omega)
    obtain ⟨l₂, opener₂, hstep, hopened'⟩ := Opened.open (n := ⟨n, by omega⟩) hopened happ hid
    refine ⟨l₂, opener₂, ?_, hopened'⟩
    rw [List.replicate_succ', runOps_snoc, hrun, hstep]

theorem isOpen_setFd_none (n j : Fin 8) (off : UInt32) :
    (fs.setFd n ⟨none, off⟩).isOpen j ↔ j ≠ n ∧ fs.isOpen j := by
  rw [FsState.isOpen, FsState.setFd_fds]
  by_cases hjn : j = n
  · simp [hjn]
  · simp [hjn, FsState.isOpen]

/-- closing the only one -/
theorem Opened.close (h : Opened l opener 1) (happ : (k.tasks k.current).isRing3 = true) : ∃ l',
    ((⟨k, l, opener⟩ : System).step (.fs (.fsClose 0))).2 = ⟨k, l', opener⟩ ∧ Opened l' opener 0 := by
  have happ' : ((⟨k, l, opener⟩ : System).inApp && isCall (.fsClose 0)) = true := by
    rw [Bool.and_eq_true]
    exact ⟨happ, rfl⟩
  have hcall : Filesys.step l.fs (.fsClose 0) = (.void, l.fs.setFd 0 ⟨none, (l.fs.fds 0).offset⟩) := by
    rw [Filesys.step, fsClose_run]
    rfl
  refine ⟨{ l with fs := l.fs.setFd 0 ⟨none, (l.fs.fds 0).offset⟩ }, ?_, h.1.setFd 0 (by simp), fun j => ?_⟩
  · rw [System.step, if_pos happ', fsStep]
    dsimp only
    rw [hcall]
    rfl
  · have hj : ¬ (l.fs.setFd 0 ⟨none, (l.fs.fds 0).offset⟩).isOpen j := by
      rw [isOpen_setFd_none, (h.2 j).1]
      omega
    exact ⟨by simpa using hj, fun ho => absurd ho hj⟩

/-- the program has been started and has opened nothing yet -/
theorem program_ready : ∃ l, runOps System.step withProgram (.launch pexePath :: List.replicate 7 .go) =
    ⟨programRuns, l, fun _ => 0⟩ ∧ Opened l (fun _ => 0) 0 := by
  obtain ⟨hhas, hclosed⟩ := withProgram_has
  obtain ⟨off, hstart⟩ := program_starts
  refine ⟨_, hstart, hhas.setFd 0 (by simp), fun j => ?_⟩
  have hj : ¬ (withProgram.loader.fs.setFd 0 ⟨none, off⟩).isOpen j := by
    rw [isOpen_setFd_none]
    exact fun ho => hclosed j ho.2
  exact ⟨by simpa using hj, fun ho => absurd ho hj⟩

theorem programRuns_id : (programRuns.tasks programRuns.current).id = 1 := by
  rw [programRuns_current.1]
  exact programRuns_current.2.2

theorem nextTaskId_step (s : System) (op : SysOp) : (s.step op).2.kernel.nextTaskId ≤ s.kernel.nextTaskId + 1 := by
  have hkernel (o : Kernel.Op) : (s.kernel.step o).2.nextTaskId ≤ s.kernel.nextTaskId + 1 := by
    rcases (s.kernel.step_moves o).nextTaskId with ⟨-, hn⟩ | ⟨-, hn⟩ <;> omega
  cases op with
  | launch path =>
    simp only [System.step, launch]
    split_ifs
    · split
      · exact (lt_add_one _).le
      · exact hkernel _
    · exact (lt_add_one _).le
  | exit | fault =>
    simp only [System.step]
    split_ifs
    · exact hkernel _
    · exact (lt_add_one _).le
  | fs op =>
    simp only [System.step]
    split_ifs <;> exact (lt_add_one _).le
  | spawn | yield | tick | go => exact hkernel _

theorem nextTaskId_ops (s : System) (ops : List SysOp) :
    (runOps System.step s ops).kernel.nextTaskId ≤ s.kernel.nextTaskId + ops.length := by
  induction ops using List.reverseRecOn with
  | nil => exact le_of_eq (add_zero _).symm
  | append_singleton ops op ih =>
    have hstep := nextTaskId_step (runOps System.step s ops) op
    rw [runOps_snoc, List.length_append, List.length_singleton]
    push_cast
    omega

/-- a few operations by which no task ends -/
theorem closes_ops {s : System} {ops : List SysOp} (hids : s.kernel.nextTaskId + ops.length < 2147483647)
    (hops : ∀ op ∈ ops, op ≠ .exit ∧ op ≠ .fault) : ∃ tr, Run System.step Closes s tr (runOps System.step s ops) := by
  refine Run.of_ops ops fun pre op post he => ⟨?_, ?_⟩
  · have hpre := nextTaskId_ops s pre
    rw [he, List.length_append] at hids
    push_cast at hids
    omega
  · have hne := hops op (by simp [he])
    cases op with
    | exit => exact absurd rfl hne.1
    | fault => exact absurd rfl hne.2
    | _ => trivial

/-- a program that closes what it opened: its descriptor is free again when the shell goes on -/
theorem descriptors_released_once : ∃ tr s, Run step Closes withProgram tr s ∧ s.kernel.current = 0 ∧ s.opener 0 = 1 ∧
    (∀ k, ¬ s.loader.fs.isOpen k) ∧ ((fsOpen pexePath.arg false : StateM Loader _) s.loader).1 ≠ none := by
  obtain ⟨l₀, hstart, hnone⟩ := program_ready
  obtain ⟨l₁, opener, hopen, hone⟩ := hnone.opens programRuns_app programRuns_id (show 1 ≤ 8 by decide)
  obtain ⟨l, hclose, hend⟩ := hone.close programRuns_app
  have hown : opener 0 = 1 := (hone.2 0).2 ((hone.2 0).1.2 (by decide))
  let ops : List SysOp := SysOp.launch pexePath :: List.replicate 7 SysOp.go ++
    List.replicate 1 (SysOp.fs (.fsOpen pexePath false)) ++ [SysOp.fs (.fsClose 0)]
  have hops : runOps System.step withProgram ops = ⟨programRuns, l, opener⟩ := by
    rw [runOps_snoc, runOps_append, hstart, hopen, hclose]
  have hclosed : ∀ j, ¬ l.fs.isOpen j := fun j hj => absurd ((hend.2 j).1.1 hj) (Nat.not_lt_zero _)
  obtain ⟨tr, hrun⟩ : ∃ tr, Run System.step Closes withProgram tr (runOps System.step withProgram ops) :=
    closes_ops (by decide +kernel) (by simp [ops])
  rw [hops] at hrun
  have hexit : Closes ⟨programRuns, l, opener⟩ .exit := by
    refine ⟨?_, fun j hj => absurd hj (hclosed j)⟩
    rw [programRuns_next]
    decide
  have hnext := nextTaskId_step ⟨programRuns, l, opener⟩ .exit
  rw [programRuns_next] at hnext
  obtain ⟨tr', hrun'⟩ : ∃ tr', Run System.step Closes ((⟨programRuns, l, opener⟩ : System).step .exit).2 tr'
      (runOps System.step ((⟨programRuns, l, opener⟩ : System).step .exit).2 (List.replicate 11 .go)) :=
    closes_ops (lt_of_le_of_lt (add_le_add_left hnext _) (by decide)) (by simp)
  rw [← runOps_cons, program_ends] at hrun'
  have hall := (hrun.snoc .exit hexit).append hrun'
  obtain ⟨-, -, hlaunch⟩ := descriptors_released withProgram_boot withProgram_has.2 hall
  obtain ⟨hcur, hfree, -⟩ := programGone_main
  obtain ⟨hgone, hfound⟩ := hlaunch hcur hfree
  refine ⟨_, _, hall, hcur, hown, hgone, hfound pexePath 1 hend.1.sound.faults hend.1.found ?_⟩
  intro htype
  rw [hend.1.file] at htype
  exact absurd htype (by decide)

/-- **A program that ends with its descriptors open blocks every later launch.** `"/a"` opens its own file eight times and
exits; `task_reap` returns, no task but task 0 is left, and the shell is back. All eight descriptors are still the
program's, and `load_pexe_blob` cannot open `"/a"`, which it could before and which is still there. -/
theorem leaked_descriptors_block_launch : ∃ tr s, Run step (fun _ _ => True) withProgram tr s ∧
    boot vgaLayout = some withProgram.kernel ∧ (∀ k, ¬ withProgram.loader.fs.isOpen k) ∧
    (withProgram.step (.launch pexePath)).1 = .loaded (some appLoadAddr) ∧
    s.kernel.current = 0 ∧ ¬ s.kernel.Busy ∧ (∀ i, s.kernel.Live i → i = 0) ∧
    (∀ k, s.loader.fs.isOpen k ∧ s.opener k = 1) ∧
    s.loader.fs.find pexePath.bytes = some 1 ∧ Accepts (s.loader.fs.content 1) ∧
    (s.step (.launch pexePath)).1 = .loaded none := by
  obtain ⟨l₀, hstart, hnone⟩ := program_ready
  obtain ⟨l, opener, hopen, hall⟩ := hnone.opens programRuns_app programRuns_id (le_refl 8)
  let ops : List SysOp := SysOp.launch pexePath :: List.replicate 7 SysOp.go ++
    List.replicate 8 (SysOp.fs (.fsOpen pexePath false)) ++ SysOp.exit :: List.replicate 11 SysOp.go
  have hops : runOps System.step withProgram ops = ⟨programGone, l, opener⟩ := by
    rw [runOps_append, runOps_append, hstart, hopen, program_ends]
  obtain ⟨tr, hrun⟩ : ∃ tr, Run System.step (fun _ _ => True) withProgram tr (runOps System.step withProgram ops) :=
    Run.of_forall ops fun _ _ _ => trivial
  rw [hops] at hrun
  obtain ⟨hcur, hfree, honly⟩ := programGone_main
  have hopened : ∀ k, l.fs.isOpen k := fun k => (hall.2 k).1.2 k.isLt
  have hfd : l.fs.freeFd = none := by
    rw [FsState.freeFd, List.find?_eq_none]
    intro k _ hk
    exact hopened k (Option.isNone_iff_eq_none.1 hk)
  refine ⟨tr, _, hrun, withProgram_boot, withProgram_has.2, ?_, hcur, hfree, honly,
    fun k => ⟨hopened k, (hall.2 k).2 (hopened k)⟩, hall.1.found, ?_, ?_⟩
  · obtain ⟨off, hload⟩ := load_program withProgram_has.1 (freeFd_of_open (n := 0) fun k => by simp [withProgram_has.2 k])
    rw [System.step, if_pos withProgram_free, System.launch, hload]
  · rw [hall.1.content]
    decide
  · rw [System.step, if_pos ⟨hcur, hfree⟩, System.launch]
    have hblocked := load_blocked hall.1.sound.faults hfd pexePath
    cases hload : loadPexeBlob pexePath.arg l with
    | mk r l' =>
      rw [hload] at hblocked
      dsimp only at hblocked
      rw [hblocked]

end

end System

end GannetOS.Proc
