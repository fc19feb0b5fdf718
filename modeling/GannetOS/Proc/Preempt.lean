/-
Creations that the timer interrupts.

System calls come through a trap gate (`syscall_init`) and `try_exec` runs in the shell's loop, both with interrupts
enabled. `Proc.Task` takes each creation as one operation. Here it is two: the search for an UNUSED slot, and `fill`, the
rest of it up to READY. Between them a tick may let other tasks run, and the slot is not marked until the end.

Results:
- `unbroken_run`: when no creation is interrupted between the two, a run is one of `Proc.Task`;
- `pools_never_empty`: then the pools never run out and nothing leaks;
- `preempted_spawns_exhaust`: two tasks that spawn at the same time take one slot, the task that was there first is gone
  with what it held, and after a few such spawns none succeeds although a slot is free.

Left out: ticks at other points inside a creation, inside one page mapping and inside the end of `task_reap`.
-/
import GannetOS.Proc.Isolation

namespace GannetOS.Proc

open GannetOS.Core GannetOS.Mem
open Kernel (Op)

namespace Kernel

/-- the operation is a creation about to look for its slot -/
def creates (s : Kernel) : Op → Bool
  | .create | .createRing3 => ¬ s.Busy
  | .spawn => ¬ s.Busy ∧ (s.tasks s.current).isRing3 = true
  | .go =>
    match s.reaps s.current, s.exec with
    | [], some (.build _ b p) => s.current = 0 ∧ b.pages ≤ p
    | _, _ => false
  | _ => false

/-- the slot it finds -/
def choice (s : Kernel) (op : Op) : Option (Fin 8) := if s.creates op then s.freeSlot else none

/-- the rest of a creation, in slot `i` whoever is in it by now -/
def fillSlot (s : Kernel) (i : Fin 8) : Op → Option ℤ × Kernel
  | .create => s.createIn i none [privateVaddr] false (-1)
  | .createRing3 => s.createIn i none [privateVaddr] true (-1)
  | .spawn => s.createIn i (s.tasks s.current).cr3 childPages true (s.tasks s.current).id
  | .go =>
    match s.exec with
    | some (.build d b _) => execCreated d b (s.createAppIn i d)
    | _ => (none, s)
  | _ => (none, s)

end Kernel

/-- the kernel, and by slot the creation its task is in the middle of, with the slot chosen -/
structure Cut where
  kernel : Kernel
  chosen : Fin 8 → Option (Op × Fin 8)

inductive CutOp where
  | op (o : Op)
  | fill

def CutOp.isFill : CutOp → Bool
  | .op _ => false
  | .fill => true

def Kernel.Op.isTick : Op → Bool
  | .tick => true
  | _ => false

def CutOp.isTick : CutOp → Bool
  | .op o => o.isTick
  | .fill => false

namespace Cut

open Kernel

/-- one operation; in the middle of a creation only a tick does anything else -/
def step (g : Cut) : CutOp → Option ℤ × Cut
  | .op o =>
    match g.chosen g.kernel.current, g.kernel.choice o, o with
    | some _, _, .tick => (none, { g with kernel := g.kernel.schedule })
    | some _, _, _ => (none, g)
    | none, some i, _ => (none, { g with chosen := Function.update g.chosen g.kernel.current (some (o, i)) })
    | none, none, _ => ((g.kernel.step o).1, { g with kernel := (g.kernel.step o).2 })
  | .fill =>
    match g.chosen g.kernel.current with
    | none => (none, g)
    | some (o, i) =>
      let done := g.kernel.fillSlot i o
      (done.1, ⟨done.2, Function.update (Function.update g.chosen g.kernel.current none) i none⟩)

def ofKernel (s : Kernel) : Cut := ⟨s, fun _ => none⟩

/-- a guard for the operations, at the state they work on -/
def Admits (ok : Kernel → Op → Prop) (g : Cut) : CutOp → Prop
  | .op o => ok g.kernel o
  | .fill => ∀ c ∈ g.chosen g.kernel.current, ok g.kernel c.1

/-- the same, and a creation that has chosen its slot fills it before anything else happens -/
def Unbroken (ok : Kernel → Op → Prop) (g : Cut) (o : CutOp) : Prop :=
  g.Admits ok o ∧ ((g.chosen g.kernel.current).isNone ∨ o.isFill)

/-- a creation in progress is the running task's, and its slot is still the one it would find -/
def Current (g : Cut) : Prop :=
  ∀ t o i, g.chosen t = some (o, i) → t = g.kernel.current ∧ g.kernel.choice o = some i

end Cut

namespace Kernel

variable {s s₀ : Kernel} {op : Op} {i : Fin 8}

theorem choice_some (h : s.choice op = some i) : s.creates op = true ∧ s.freeSlot = some i := by
  unfold choice at h
  split_ifs at h with hc
  exact ⟨hc, h⟩

theorem choice_isTick (h : s.choice op = some i) : op.isTick = false := by
  cases op with
  | tick => cases (choice_some h).1
  | _ => rfl

/-- nothing in between: the two halves are the creation -/
theorem fillSlot_eq (h : s.choice op = some i) : s.fillSlot i op = s.step op := by
  obtain ⟨hc, hi⟩ := choice_some h
  cases op with
  | create | createRing3 =>
    simp only [creates, decide_eq_true_eq] at hc
    simp only [fillSlot, step, if_neg hc, taskCreate, taskCreateRing3, create, hi]
  | spawn =>
    simp only [creates, decide_eq_true_eq] at hc
    simp only [fillSlot, step, if_neg hc.1, taskCreateRing3Child, if_pos hc.2, create, hi]
  | go =>
    simp only [creates] at hc
    split at hc
    · rename_i hq he
      rw [decide_eq_true_eq] at hc
      simp only [fillSlot, step, hq, he, if_pos hc.1, execGo, if_neg (not_lt.2 hc.2), taskCreateAppRing3, hi]
    · cases hc
  | exec | exit | reap | yield | tick => cases hc

end Kernel

namespace Cut

open Kernel

variable {ok : Kernel → Op → Prop} {g₀ g : Cut} {s₀ : Kernel}

/-- with no creation interrupted, a step is one of `Proc.Task`, or it chooses a slot -/
theorem step_unbroken {o : CutOp} (h : g.Current) (ho : g.Unbroken ok o) :
    (g.step o).2.Current ∧ ((g.step o).2.kernel = g.kernel ∧ o.isTick = false ∨
      ∃ op, ok g.kernel op ∧ (g.step o).2.kernel = (g.kernel.step op).2 ∧ o.isTick = op.isTick) := by
  cases hch : g.chosen g.kernel.current with
  | none =>
    have hnone (t : Fin 8) : g.chosen t = none := by
      by_contra ht
      obtain ⟨c, hc⟩ := Option.ne_none_iff_exists'.1 ht
      rw [← (h t _ _ hc).1, hc] at hch
      cases hch
    cases o with
    | fill =>
      simp only [step, hch]
      exact ⟨h, .inl ⟨trivial, rfl⟩⟩
    | op o =>
      cases hi : g.kernel.choice o with
      | none =>
        simp only [step, hch, hi]
        exact ⟨fun t _ _ ht => by simp [hnone t] at ht, .inr ⟨o, ho.1, rfl, rfl⟩⟩
      | some i =>
        simp only [step, hch, hi]
        refine ⟨fun t o' i' ht => ?_, .inl ⟨trivial, choice_isTick hi⟩⟩
        dsimp only at ht ⊢
        by_cases hcur : t = g.kernel.current
        · rw [hcur, Function.update_self] at ht
          cases ht
          exact ⟨hcur, hi⟩
        · rw [Function.update_of_ne hcur, hnone t] at ht
          cases ht
  | some c =>
    obtain ⟨op, i⟩ := c
    cases o with
    | op _ => simp [Unbroken, CutOp.isFill, hch] at ho
    | fill =>
    obtain ⟨-, hi⟩ := h _ _ _ hch
    simp only [step, hch]
    refine ⟨fun t o' i' ht => ?_, .inr ⟨op, ho.1 _ hch, by rw [fillSlot_eq hi], (choice_isTick hi).symm⟩⟩
    have hother : t ≠ g.kernel.current := by
      rintro rfl
      simp [Function.update_apply] at ht
    dsimp only at ht
    rw [Function.update_apply] at ht
    split_ifs at ht
    rw [Function.update_of_ne hother] at ht
    exact absurd (h t _ _ ht).1 hother

/-- **Creations that are not interrupted are operations of `Proc.Task`.** -/
theorem unbroken_run {tr : List (CutOp × Option ℤ)} (h : Run step (Unbroken ok) (ofKernel s₀) tr g) :
    g.Current ∧ ∃ tr', Run Kernel.step ok s₀ tr' g.kernel := by
  induction h with
  | nil => exact ⟨fun _ _ _ hc => Option.noConfusion rfl (heq_of_eq hc), [], .nil s₀⟩
  | snoc o _ ho ih =>
    obtain ⟨hcur, tr', hrun⟩ := ih
    obtain ⟨hnext, ⟨hsame, -⟩ | ⟨op, hop, hstep, -⟩⟩ := step_unbroken hcur ho
    · rw [hsame]
      exact ⟨hnext, tr', hrun⟩
    · rw [hstep]
      exact ⟨hnext, _, hrun.snoc op hop⟩

/-- **The pools never run out, and nothing leaks.** In every run from boot in which no creation is interrupted and ids stay
within an int: the pools serve every creation and every launch for which there is a slot, and when the other tasks are
gone they are as they were after `task_init`. -/
theorem pools_never_empty {l : Layout} {tr : List (CutOp × Option ℤ)} (hboot : boot l = some s₀)
    (h : Run step (Unbroken Proper) (ofKernel s₀) tr g) : Supplied s₀ g.kernel := by
  obtain ⟨-, tr', hrun⟩ := unbroken_run h
  have hinv := hrun.invariant (fun s op hinv hop => hinv.moves (s.step_moves op) hop.1) (poolInv_boot hboot)
  exact hinv.supplied hboot

instance [∀ s o, Decidable (ok s o)] (g : Cut) (o : CutOp) : Decidable (g.Admits ok o) :=
  match o with
  | .op o => inferInstanceAs (Decidable (ok g.kernel o))
  | .fill => inferInstanceAs (Decidable (∀ c ∈ g.chosen g.kernel.current, ok g.kernel c.1))

instance [∀ s o, Decidable (ok s o)] (g : Cut) (o : CutOp) : Decidable (g.Unbroken ok o) :=
  inferInstanceAs (Decidable (g.Admits ok o ∧ ((g.chosen g.kernel.current).isNone ∨ o.isFill)))

/-- task 0 launches a program and waits for it -/
def launchOps : List CutOp :=
  [.op (.exec oneByte), .op .go, .op .go, .op .go, .op .go, .op .go, .op .go, .fill, .op .go]

/-- the program spawns a task, both end and are reaped: the pools are those of boot again -/
theorem pools_never_empty_spawned : ∃ tr g, Run step (Unbroken Proper) (ofKernel vgaBoot) tr g ∧ g.kernel.nextTaskId = 3 ∧
    g.kernel.mem.dirUsed = vgaBoot.mem.dirUsed ∧ g.kernel.mem.owner = vgaBoot.mem.owner ∧
    g.kernel.mem.bitmap = vgaBoot.mem.bitmap := by
  let ops := launchOps ++ .op .spawn :: .fill :: .op .exit :: .op .exit :: List.replicate 21 (.op .go)
  obtain ⟨tr, h⟩ := Run.of_allOk (show AllOk step (Unbroken Proper) (ofKernel vgaBoot) ops by decide +kernel)
  have hno : (runOps step (ofKernel vgaBoot) ops).kernel.exec.isNone = true := by decide +kernel
  refine ⟨tr, _, h, by decide +kernel, (pools_never_empty boot_vgaLayout h).restored (by decide +kernel) ?_⟩
  simp [Option.isNone_iff_eq_none.1 hno]

/-- two spawns into slot 3, two into slot 4, and two more -/
def racingSpawns : List CutOp :=
  [.op .spawn, .fill,
    .op .spawn, .op .tick, .op .spawn, .fill, .op .tick, .op .tick, .op .go, .fill,
    .op .spawn, .op .tick, .op .spawn, .fill, .op .tick, .op .tick, .op .tick, .op .go, .fill,
    .op .spawn, .fill, .op .spawn, .fill]

/-- **Interrupted creations use the pool up.** The program (slot 1) and its child (slot 2) both spawn, and the program is
interrupted once it has chosen its slot: the child takes the same slot, the program comes back and overwrites it. The task
that was there is gone, its directory (2) stays taken. It happens twice; with two more spawns every directory is in use,
slot 7 is free, and the next spawn fails. -/
theorem preempted_spawns_exhaust : ∃ tr g, Run step (Admits Proper) (ofKernel vgaBoot) tr g ∧
    (∀ i, (g.kernel.tasks i).cr3 ≠ some (.task 2)) ∧ (∀ k, g.kernel.mem.dirUsed k = true) ∧ ¬ g.kernel.Live 7 ∧
    g.kernel.creates .spawn ∧ (g.kernel.step .spawn).1 = none := by
  have hok : AllOk step (Admits Proper) (ofKernel vgaBoot) (launchOps ++ racingSpawns) := by decide +kernel
  obtain ⟨tr, h⟩ := Run.of_allOk hok
  refine ⟨tr, _, h, ?_, ?_, ?_, ?_, ?_⟩ <;> decide +kernel

end Cut

end GannetOS.Proc
