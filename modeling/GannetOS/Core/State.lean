/-
Running `StateM` programs: the computation rules of bind, pure, map and the state primitives on a given state. The
models of this development are written once for any monad with access to their state; on a given state these rules turn
such a program into plain pairs.
-/
import Mathlib

namespace GannetOS.Core

variable {σ α β : Type}

@[simp] theorem bind_apply (x : StateM σ α) (f : α → StateM σ β) (s : σ) : (x >>= f) s = f (x s).1 (x s).2 := rfl

/-- peel the first computation off a sequence -/
theorem run_bind {x : StateM σ α} {s t : σ} {a : α} (h : x s = (a, t)) (f : α → StateM σ β) :
    (x >>= f) s = f a t := by
  rw [bind_apply, h]

@[simp] theorem pure_apply (a : α) (s : σ) : (pure a : StateM σ α) s = (a, s) := rfl

@[simp] theorem modifyGet_apply (f : σ → α × σ) (s : σ) : (MonadStateOf.modifyGet f : StateM σ α) s = f s := rfl

@[simp] theorem ite_run {c : Prop} [Decidable c] (x y : StateM σ α) (s : σ) :
    (if c then x else y) s = if c then x s else y s := by
  split_ifs <;> rfl

end GannetOS.Core
