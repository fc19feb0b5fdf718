/-
Computations that hand outputs over on their way, and may have to wait until one is taken.

A `Code σ ω α` works on a state `σ` that others change while it waits: it is done, or it has come to an output and goes on
from whatever the state is by then.
- `atOnce`: every output is taken at once;
- `drive`: it goes on as long as outputs are taken;
- `drive_atOnce`: the two agree when every output of the first is taken;
- `bind`: one code after another, with its rule for `atOnce`.
-/
import Mathlib

namespace GannetOS.Core

/-- a computation that is done, or that has come to the output `x` in state `s` -/
inductive Code (σ ω α : Type) where
  | done (a : α) (s : σ)
  | send (x : ω) (s : σ) (rest : σ → Code σ ω α)

namespace Code

variable {σ ω α β : Type}

/-- the outputs, the result and the state when nothing waits -/
def atOnce : Code σ ω α → List ω × α × σ
  | done a s => ([], a, s)
  | send x s rest => (x :: (rest s).atOnce.1, (rest s).atOnce.2)

@[simp] theorem atOnce_done (a : α) (s : σ) : (done a s : Code σ ω α).atOnce = ([], a, s) := rfl

@[simp] theorem atOnce_send (x : ω) (s : σ) (rest : σ → Code σ ω α) :
    (send x s rest).atOnce = (x :: (rest s).atOnce.1, (rest s).atOnce.2) := rfl

/-- the outputs taken and what is left to do, at the first output that is not -/
def drive (ready : ω → Bool) : Code σ ω α → List ω × Code σ ω α
  | done a s => ([], done a s)
  | send x s rest => if ready x then (x :: ((rest s).drive ready).1, ((rest s).drive ready).2) else ([], send x s rest)

theorem drive_atOnce {ready : ω → Bool} {c : Code σ ω α} (h : ∀ x ∈ c.atOnce.1, ready x = true) :
    c.drive ready = (c.atOnce.1, done c.atOnce.2.1 c.atOnce.2.2) := by
  induction c with
  | done a s => rfl
  | send x s rest ih =>
    obtain ⟨hx, hrest⟩ := List.forall_mem_cons.1 h
    rw [drive, if_pos hx, ih s hrest]
    rfl

def bind (f : α → σ → Code σ ω β) : Code σ ω α → Code σ ω β
  | done a s => f a s
  | send x s rest => send x s fun s => (rest s).bind f

@[simp] theorem atOnce_bind (f : α → σ → Code σ ω β) (c : Code σ ω α) : (c.bind f).atOnce =
    (c.atOnce.1 ++ (f c.atOnce.2.1 c.atOnce.2.2).atOnce.1, (f c.atOnce.2.1 c.atOnce.2.2).atOnce.2) := by
  induction c with
  | done a s => rfl
  | send x s rest ih => simp only [bind, atOnce_send, ih, List.cons_append]

end Code

end GannetOS.Core
