/-
The kernel's task table (kernel/proc/task.c) with the loader's `try_exec` (kernel/proc/loader.c), over the page
directories of `Mem.Paging`.

A kernel state is the task table, the running slot, the loaded CR3 and TSS.esp0, the paging state, and the kernel calls
that have yielded in the middle: the stack of `task_reap` calls of every task, and the `try_exec` of task 0.

Operations: the creations, `try_exec`, `task_exit`, `task_reap`, `task_yield` by the running task; the timer tick at any
time; and `go`, which lets the running task continue the call it is in. Calls are cut where they yield, and between the
loop iterations of `task_reap` and the page mappings of `try_exec`; a tick may fall at every cut, and none inside a
creation (`Proc.Preempt` has those). While a call is in progress its task makes no other.

What each part models:
- `pick_next`, `schedule`, the `task_create` family, `task_exit`, `task_is_zombie`, `task_reap`, `try_exec` from
  `load_pexe_blob`'s result on;
- `boot`: `paging_init`, the three user regions and `task_init`, for any framebuffer and link layout.
Left out: task names and saved stack pointers, the fabricated first stack of a task beyond that it has no call in
progress, the argv block, the console. TASK_BLOCKED is never set by the source.

Premises:
- `try_exec` is called by task 0: the shell runs in kernel_main's loop;
- `next_task_id` has not wrapped: a guard of the runs (`Proper`).
-/
import GannetOS.Mem.Paging

namespace GannetOS.Proc

open GannetOS.Mem
open Function (update)

/-! ## State -/

inductive TaskState where
  | unused
  | ready
  | running
  | blocked
  | zombie
deriving DecidableEq, Repr

structure Task where
  state : TaskState
  id : ℤ
  /-- none for 0 -/
  cr3 : Option DirRef
  isRing3 : Bool
  /-- an offset into task_stacks -/
  kernelStackTop : ℕ
  parentId : ℤ
deriving DecidableEq, Repr

/-- a program that `load_pexe_blob` has accepted: its mem_size and what exec_buf holds -/
structure Blob where
  memSize : ℕ
  bytes : ℕ → UInt8
  pos : 0 < memSize
  le : memSize ≤ 65536

/-- a call of `task_reap(id)` that has found its slot: it is at child slot `j`, in the waiting loop or before it -/
structure Reap where
  slot : Fin 8
  id : ℤ
  j : ℕ
  waiting : Bool
deriving DecidableEq, Repr

/-- a call of `try_exec`, after `load_pexe_blob` -/
inductive Exec where
  /-- `page` pages have been mapped in directory `dir` -/
  | build (dir : DirRef) (blob : Blob) (page : ℕ)
  /-- the app runs -/
  | wait (dir : DirRef) (blob : Blob) (id : ℤ)
  /-- the app is being reaped -/
  | reaping (dir : DirRef) (blob : Blob) (id : ℤ)

structure Kernel where
  mem : Paging
  tasks : Fin 8 → Task
  current : Fin 8
  nextTaskId : ℤ
  currentCr3 : Option DirRef
  esp0 : ℕ
  exec : Option Exec
  /-- the `task_reap` calls in progress of each task, innermost first -/
  reaps : Fin 8 → List Reap

/-! ## Addresses -/

/-- TASK_PRIVATE_VADDR -/
def privateVaddr : UInt32 := 0x40000000

def appLoadAddr : UInt32 := 0x200000

def appStackVaddr : UInt32 := 0x210000

/-- SPAWN_CHILD_STACK_VADDR -/
def childStackVaddr : UInt32 := 0x50000000

/-- `base + p * PAGE_SIZE` -/
def pageAddr (base : UInt32) (p : ℕ) : UInt32 := base + UInt32.ofNat p * 4096

/-- task_stack_top, as an offset into task_stacks: a guard page and 16 KB for each slot -/
def stackTop (i : Fin 8) : ℕ := (i + 1) * 20480

/-! ## Memory of a new task -/

end GannetOS.Proc

namespace GannetOS.Mem.Paging

/-- private pages at each address in turn; false at the first failure -/
def mapPages (m : Paging) (d : DirRef) : List UInt32 → Bool × Paging
  | [] => (true, m)
  | v :: vs =>
    match m.mapPrivatePage d v with
    | (none, m) => (false, m)
    | (some _, m) => m.mapPages d vs

/-- the memory part of the `task_create` family: a cloned directory, its slot at APP_LOAD_ADDR shared from `share` if
given, and private pages at `vs`; on a failure the source returns with what it has taken so far -/
def newDirectory (m : Paging) (share : Option DirRef) (vs : List UInt32) : Option DirRef × Paging :=
  match m.cloneKernelDirectory with
  | (none, m) => (none, m)
  | (some d, m) =>
    let m := match share with
      | none => m
      | some src => m.sharePde d src Proc.appLoadAddr
    match m.mapPages d vs with
    | (false, m) => (none, m)
    | (true, m) => (some d, m)

/-- `paging_free_private_pages` and `paging_free_directory` -/
def release (m : Paging) (d : DirRef) : Paging := (m.freePrivatePages d).freeDirectory d

end GannetOS.Mem.Paging

namespace GannetOS.Proc

open GannetOS.Core GannetOS.Mem

namespace Blob

def codePages (b : Blob) : ℕ := (b.memSize + 4095) / 4096

/-- the code pages and the APP_STACK_PAGES -/
def pages (b : Blob) : ℕ := b.codePages + 4

/-- the address of the p-th page `try_exec` maps -/
def pageVaddr (b : Blob) (p : ℕ) : UInt32 :=
  if p < b.codePages then pageAddr appLoadAddr p else pageAddr appStackVaddr (p - b.codePages)

/-- the copy into the frame of the p-th page: a chunk of exec_buf for a code page, nothing for a stack page -/
def copyPage (b : Blob) (p : ℕ) (f : Frame) (m : Paging) : Paging :=
  if p < b.codePages then
    { m with ram := Function.update m.ram f fun i =>
        if i < min 4096 (b.memSize - p * 4096) then b.bytes (p * 4096 + i) else m.ram f i }
  else m

end Blob

namespace Kernel

/-! ## Scheduling -/

/-- pick_next: the first READY slot after `from`, around the table; `from` itself if there is none -/
def pickNext (s : Kernel) (old : Fin 8) : Fin 8 :=
  (((List.range 8).map fun k => old + Fin.ofNat 8 (k + 1)).find? fun i => (s.tasks i).state = .ready).getD old

def setState (s : Kernel) (i : Fin 8) (st : TaskState) : Kernel :=
  { s with tasks := Function.update s.tasks i { s.tasks i with state := st } }

/-- the switch from `old` to `next` -/
def switchTo (s : Kernel) (old next : Fin 8) : Kernel :=
  let s := if (s.tasks old).state = .running then s.setState old .ready else s
  let s := s.setState next .running
  { s with
    current := next
    currentCr3 := (s.tasks next).cr3
    esp0 := if (s.tasks next).isRing3 then (s.tasks next).kernelStackTop else s.esp0 }

def schedule (s : Kernel) : Kernel :=
  if s.pickNext s.current = s.current then s else s.switchTo s.current (s.pickNext s.current)

/-! ## Creating tasks -/

/-- the first UNUSED slot -/
def freeSlot (s : Kernel) : Option (Fin 8) := firstFree fun i => (s.tasks i).state ≠ .unused

/-- slot `i` filled in: a ring0 creation leaves is_ring3 and kernel_stack_top as they are -/
def install (s : Kernel) (i : Fin 8) (d : DirRef) (ring3 : Bool) (parent : ℤ) : Kernel :=
  let t := s.tasks i
  { s with
    tasks := Function.update s.tasks i
      { state := .ready, id := s.nextTaskId, cr3 := some d, isRing3 := ring3 || t.isRing3,
        kernelStackTop := if ring3 then stackTop i else t.kernelStackTop, parentId := parent }
    nextTaskId := s.nextTaskId + 1
    reaps := Function.update s.reaps i [] }

/-- the common body of the creations that clone a directory, once slot `i` is chosen; none for -1 -/
def createIn (s : Kernel) (i : Fin 8) (share : Option DirRef) (vs : List UInt32) (ring3 : Bool) (parent : ℤ) :
    Option ℤ × Kernel :=
  match s.mem.newDirectory share vs with
  | (none, m) => (none, { s with mem := m })
  | (some d, m) => (some s.nextTaskId, { s with mem := m }.install i d ring3 parent)

def create (s : Kernel) (share : Option DirRef) (vs : List UInt32) (ring3 : Bool) (parent : ℤ) :
    Option ℤ × Kernel :=
  match s.freeSlot with
  | none => (none, s)
  | some i => s.createIn i share vs ring3 parent

def taskCreate (s : Kernel) : Option ℤ × Kernel := s.create none [privateVaddr] false (-1)

def taskCreateRing3 (s : Kernel) : Option ℤ × Kernel := s.create none [privateVaddr] true (-1)

/-- the pages of a spawned child: SPAWN_CHILD_STACK_PAGES of stack, then its scratch page -/
def childPages : List UInt32 := (List.range 4).map (pageAddr childStackVaddr) ++ [privateVaddr]

def taskCreateRing3Child (s : Kernel) : Option ℤ × Kernel :=
  if (s.tasks s.current).isRing3 then
    s.create (s.tasks s.current).cr3 childPages true (s.tasks s.current).id
  else (none, s)

/-- the app's task in slot `i`, in the directory `try_exec` has built -/
def createAppIn (s : Kernel) (i : Fin 8) (d : DirRef) : Option ℤ × Kernel :=
  match s.mem.mapPrivatePage d privateVaddr with
  | (none, m) => (none, { s with mem := m })
  | (some _, m) => (some s.nextTaskId, { s with mem := m }.install i d true (-1))

def taskCreateAppRing3 (s : Kernel) (d : DirRef) : Option ℤ × Kernel :=
  match s.freeSlot with
  | none => (none, s)
  | some i => s.createAppIn i d

/-! ## Ending tasks -/

def taskExit (s : Kernel) : Kernel := (s.setState s.current .zombie).schedule

def taskIsZombie (s : Kernel) (id : ℤ) : Bool :=
  match (List.finRange 8).find? fun i => (s.tasks i).id = id with
  | none => false
  | some i => (s.tasks i).state = .zombie

/-- the running task enters `task_reap(id)`; nothing happens unless a zombie has that id -/
def taskReap (s : Kernel) (id : ℤ) : Kernel :=
  match (List.finRange 8).find? fun i => (s.tasks i).id = id ∧ (s.tasks i).state = .zombie with
  | none => s
  | some i => { s with reaps := Function.update s.reaps s.current (⟨i, id, 0, false⟩ :: s.reaps s.current) }

/-- the end of `task_reap`: the slot's directory and the slot are given back, whoever is in it by now -/
def freeTask (s : Kernel) (i : Fin 8) : Kernel :=
  { s with
    mem := match (s.tasks i).cr3 with
      | none => s.mem
      | some d => s.mem.release d
    tasks := Function.update s.tasks i
      { state := .unused, id := -1, cr3 := none, isRing3 := false, kernelStackTop := 0, parentId := -1 } }

def setReaps (s : Kernel) (rs : List Reap) : Kernel := { s with reaps := Function.update s.reaps s.current rs }

/-- the running task continues its innermost `task_reap` -/
def reapGo (s : Kernel) (r : Reap) (rest : List Reap) : Kernel :=
  if h : r.j < 8 then
    let t := s.tasks ⟨r.j, h⟩
    if r.waiting then
      if t.state = .zombie then (s.setReaps ({ r with j := r.j + 1, waiting := false } :: rest)).taskReap t.id
      else s.schedule
    else if t.parentId = r.id ∧ t.state ≠ .unused then s.setReaps ({ r with waiting := true } :: rest)
    else s.setReaps ({ r with j := r.j + 1 } :: rest)
  else (s.freeTask r.slot).setReaps rest

/-! ## Running a program -/

/-- `try_exec` gives its directory back and fails -/
def execAbort (s : Kernel) (m : Paging) (d : DirRef) : Kernel := { s with mem := m.release d, exec := none }

/-- what `try_exec` does with the result of `task_create_app_ring3` -/
def execCreated (d : DirRef) (b : Blob) : Option ℤ × Kernel → Option ℤ × Kernel
  | (none, s) => (none, s.execAbort s.mem d)
  | (some id, s) => (some id, { s with exec := some (.wait d b id) })

/-- task 0 continues its `try_exec` -/
def execGo (s : Kernel) : Exec → Option ℤ × Kernel
  | .build d b p =>
    if p < b.pages then
      match s.mem.mapPrivatePage d (b.pageVaddr p) with
      | (none, m) => (none, s.execAbort m d)
      | (some f, m) => (none, { s with mem := b.copyPage p f m, exec := some (.build d b (p + 1)) })
    else execCreated d b (s.taskCreateAppRing3 d)
  | .wait d b id =>
    if s.taskIsZombie id then (none, { s with exec := some (.reaping d b id) }.taskReap id) else (none, s.schedule)
  | .reaping _ _ _ => (none, { s with exec := none })

/-! ## Operations -/

inductive Op where
  | create
  | createRing3
  | spawn
  | exec (b : Blob)
  | exit
  | reap (id : ℤ)
  | yield
  | tick
  | go

/-- the running task is in the middle of a call -/
def Busy (s : Kernel) : Prop := s.reaps s.current ≠ [] ∨ s.current = 0 ∧ s.exec.isSome = true

instance (s : Kernel) : Decidable s.Busy := by
  unfold Busy
  infer_instance

/-- one operation; a creation returns the new id -/
def step (s : Kernel) : Op → Option ℤ × Kernel
  | .tick => (none, s.schedule)
  | .go =>
    match s.reaps s.current with
    | r :: rest => (none, s.reapGo r rest)
    | [] =>
      if s.current = 0 then
        match s.exec with
        | some e => s.execGo e
        | none => (none, s)
      else (none, s)
  | .create => if s.Busy then (none, s) else s.taskCreate
  | .createRing3 => if s.Busy then (none, s) else s.taskCreateRing3
  | .spawn => if s.Busy then (none, s) else s.taskCreateRing3Child
  | .exec b =>
    if s.Busy ∨ s.current ≠ 0 then (none, s)
    else match s.mem.cloneKernelDirectory with
      | (none, m) => (none, { s with mem := m })
      | (some d, m) => (none, { s with mem := m, exec := some (.build d b 0) })
  | .exit => (none, if s.Busy then s else s.taskExit)
  | .reap id => (none, if s.Busy then s else s.taskReap id)
  | .yield => (none, if s.Busy then s else s.schedule)

/-! ## Boot -/

/-- where the linker put what boot marks: linker.ld places .usertramp before .bss, which holds task_stacks, and both
below .appbuf at 0x200000 -/
structure Layout where
  fb : Paging.Framebuffer
  usertrampStart : ℕ
  usertrampEnd : ℕ
  taskStacks : ℕ
  usertramp_le : usertrampEnd ≤ taskStacks
  aligned : 4096 ∣ taskStacks
  fits : taskStacks + 8 * 20480 ≤ 0x200000

/-- paging_init, and the regions kernel_main marks as user -/
def bootMemory (l : Layout) : Option Paging := do
  let m ← Paging.pagingInit l.fb
  let m := m.markKernelRegionUser 0x200 0x210
  let m := m.markKernelRegionUser 0x210 0x214
  return m.markKernelRegionUser (l.usertrampStart / 4096) ((l.usertrampEnd + 4095) / 4096)

/-- task_stacks_init_guards -/
def initGuards (l : Layout) (m : Paging) : Paging :=
  (List.range 8).foldl (fun m i => m.unmapPage ((l.taskStacks + i * 20480) / 4096)) m

def taskInit (l : Layout) (m : Paging) : Kernel :=
  let unused : Task := ⟨.unused, -1, none, false, 0, 0⟩
  { mem := ((initGuards l m).mapPrivatePage .kernel privateVaddr).2
    tasks := Function.update (fun _ => unused) 0 ⟨.running, 0, some .kernel, false, 0, -1⟩
    current := 0
    nextTaskId := 1
    currentCr3 := some .kernel
    esp0 := 0
    exec := none
    reaps := fun _ => [] }

def boot (l : Layout) : Option Kernel := (bootMemory l).map (taskInit l)

end Kernel

end GannetOS.Proc
