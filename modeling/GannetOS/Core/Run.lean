/-
Guarded runs of a deterministic machine, and the rules every whole-run result of this development uses.

A machine is a step function `step : σ → ι → ρ × σ` (state, operation, result and next state). A guard `ok` says in
which states an operation may be taken. `Run step ok s tr t` holds when the operations of `tr`, each allowed where it
is taken, lead from `s` to `t`; the trace pairs every operation with the result it returned.
- `Run.invariant`: what every allowed step keeps, every run keeps.
- `Run.refines`: if every allowed step from an invariant state is, through the abstraction `α`, a step of an abstract
  machine with the same result, then every run is a run of the abstract machine with the same trace.
- `Run.lift`: a run stays a run when ghost state is added to the machine.
-/
import Mathlib

namespace GannetOS.Core

variable {σ τ ι ρ : Type*}

/-- the runs of a machine under a guard, with the trace of operations and results -/
inductive Run (step : σ → ι → ρ × σ) (ok : σ → ι → Prop) : σ → List (ι × ρ) → σ → Prop
  | nil (s : σ) : Run step ok s [] s
  | snoc {s t : σ} {tr : List (ι × ρ)} (o : ι) (h : Run step ok s tr t) (ho : ok t o) :
    Run step ok s (tr ++ [(o, (step t o).1)]) (step t o).2

/-- the runs of an abstract machine given as a relation -/
inductive ARun (astep : τ → ι → ρ → τ → Prop) : τ → List (ι × ρ) → τ → Prop
  | nil (a : τ) : ARun astep a [] a
  | snoc {a b c : τ} {tr : List (ι × ρ)} {o : ι} {r : ρ} (h : ARun astep a tr b) (hs : astep b o r c) :
    ARun astep a (tr ++ [(o, r)]) c

/-- the state after a list of operations -/
def runOps (step : σ → ι → ρ × σ) (s : σ) (ops : List ι) : σ := ops.foldl (fun s o => (step s o).2) s

theorem runOps_cons (step : σ → ι → ρ × σ) (s : σ) (o : ι) (ops : List ι) :
    runOps step s (o :: ops) = runOps step (step s o).2 ops := rfl

theorem runOps_append (step : σ → ι → ρ × σ) (s : σ) (ops ops' : List ι) :
    runOps step s (ops ++ ops') = runOps step (runOps step s ops) ops' := List.foldl_append

theorem runOps_snoc (step : σ → ι → ρ × σ) (s : σ) (ops : List ι) (o : ι) :
    runOps step s (ops ++ [o]) = (step (runOps step s ops) o).2 := by
  simp [runOps]

/-- each of the operations is allowed where it is taken -/
def AllOk (step : σ → ι → ρ × σ) (ok : σ → ι → Prop) : σ → List ι → Prop
  | _, [] => True
  | s, o :: ops => ok s o ∧ AllOk step ok (step s o).2 ops

instance AllOk.decidable {step : σ → ι → ρ × σ} {ok : σ → ι → Prop} [∀ s o, Decidable (ok s o)] :
    ∀ (s : σ) (ops : List ι), Decidable (AllOk step ok s ops)
  | _, [] => .isTrue trivial
  | s, o :: ops => @instDecidableAnd _ _ _ (AllOk.decidable (step s o).2 ops)

theorem AllOk.next {step : σ → ι → ρ × σ} {ok : σ → ι → Prop} {o : ι} {post : List ι} {s : σ} {pre : List ι}
    (h : AllOk step ok s (pre ++ o :: post)) : ok (runOps step s pre) o := by
  induction pre generalizing s with
  | nil => exact h.1
  | cons p pre ih => exact ih h.2

namespace Run

variable {step : σ → ι → ρ × σ} {ok : σ → ι → Prop}

theorem invariant {I : σ → Prop} (hstep : ∀ s o, I s → ok s o → I (step s o).2) {s t : σ} {tr : List (ι × ρ)}
    (h : Run step ok s tr t) (hs : I s) : I t := by
  induction h with
  | nil => exact hs
  | snoc o _ ho ih => exact hstep _ o ih ho

theorem refines {I : σ → Prop} {α : σ → τ} {astep : τ → ι → ρ → τ → Prop}
    (hstep : ∀ s o, I s → ok s o → I (step s o).2)
    (hsim : ∀ s o, I s → ok s o → astep (α s) o (step s o).1 (α (step s o).2))
    {s t : σ} {tr : List (ι × ρ)} (h : Run step ok s tr t) (hs : I s) : ARun astep (α s) tr (α t) := by
  induction h with
  | nil => exact ARun.nil _
  | snoc o h ho ih => exact ARun.snoc ih (hsim _ o (h.invariant hstep hs) ho)

/-- a run of a machine is a run of every machine that only adds ghost state `γ` to it -/
theorem lift (gstep : τ → ι → ρ × τ) (fs : τ → σ) (hres : ∀ g o, (gstep g o).1 = (step (fs g) o).1)
    (hnext : ∀ g o, fs (gstep g o).2 = (step (fs g) o).2) {g : τ} {t : σ} {tr : List (ι × ρ)}
    (h : Run step ok (fs g) tr t) : ∃ g', fs g' = t ∧ Run gstep (fun g o => ok (fs g) o) g tr g' := by
  generalize hs : fs g = s at h
  induction h with
  | nil => exact ⟨g, hs, .nil g⟩
  | snoc o _ ho ih =>
    obtain ⟨g', rfl, hg⟩ := ih
    rw [← hres]
    exact ⟨_, hnext g' o, .snoc o hg ho⟩

theorem append {s t u : σ} {tr tr' : List (ι × ρ)} (h : Run step ok s tr t) (h' : Run step ok t tr' u) :
    Run step ok s (tr ++ tr') u := by
  induction h' with
  | nil => rwa [List.append_nil]
  | snoc o _ ho ih =>
    rw [← List.append_assoc]
    exact ih.snoc o ho

/-- the operations `ops`, each allowed where it is taken, are a run -/
theorem of_ops {s : σ} (ops : List ι) (h : ∀ pre o post, ops = pre ++ o :: post → ok (runOps step s pre) o) :
    ∃ tr, Run step ok s tr (runOps step s ops) := by
  induction ops using List.reverseRecOn with
  | nil => exact ⟨[], .nil s⟩
  | append_singleton ops o ih =>
    obtain ⟨tr, htr⟩ := ih fun pre o' post he => h pre o' (post ++ [o]) (by simp [he])
    rw [runOps_snoc]
    exact ⟨_, .snoc o htr (h ops o [] rfl)⟩

theorem of_allOk {s : σ} {ops : List ι} (h : AllOk step ok s ops) : ∃ tr, Run step ok s tr (runOps step s ops) :=
  of_ops ops fun _ _ _ he => AllOk.next (he ▸ h)

/-- the same for operations that are always allowed -/
theorem of_forall {s : σ} (ops : List ι) (h : ∀ s, ∀ o ∈ ops, ok s o) : ∃ tr, Run step ok s tr (runOps step s ops) :=
  of_ops ops fun _ o _ he => h _ o (by simp [he])

end Run

end GannetOS.Core
