/-
Relations between the programs of two monads that sequencing keeps.

A program written once for every monad with access to some state can be run in two of them. A `MonadRel` relates the two
runs: it holds of `pure` and is kept by `bind`, so it holds of a whole program as soon as it holds of the primitives and
of the callbacks the program is given.
- `MonadRel.keeps`: one monad only; every run of the program moves the state along a preorder.
- `MonadRel.sim`: the second program works on a richer state; on the part `π` it does what the first does, with the same
  result, and the whole state moves along a preorder.
-/
import Mathlib

namespace GannetOS.Core

structure MonadRel (m n : Type → Type) [Monad m] [Monad n] where
  rel : ∀ {α : Type}, m α → n α → Prop
  pure : ∀ {α : Type} (a : α), rel (pure a) (pure a)
  bind : ∀ {α β : Type} {x : m α} {y : n α} {f : α → m β} {g : α → n β}, rel x y → (∀ a, rel (f a) (g a)) →
    rel (x >>= f) (y >>= g)

namespace MonadRel

variable {σ τ : Type}

/-- every run of the program moves the state along `A` -/
def keeps (A : σ → σ → Prop) (hrefl : ∀ s, A s s) (htrans : ∀ s t u, A s t → A t u → A s u) :
    MonadRel (StateM σ) (StateM σ) where
  rel x _ := ∀ s, A s (x s).2
  pure _ s := hrefl s
  bind hx hf s := htrans _ _ _ (hx s) (hf _ _)

/-- on the part `π` of its state the second program does what the first does, and its whole state moves along `A` -/
def sim (π : τ → σ) (A : τ → τ → Prop) (hrefl : ∀ s, A s s) (htrans : ∀ s t u, A s t → A t u → A s u) :
    MonadRel (StateM σ) (StateM τ) where
  rel x y := ∀ t, (y t).1 = (x (π t)).1 ∧ π (y t).2 = (x (π t)).2 ∧ A t (y t).2
  pure _ t := ⟨rfl, rfl, hrefl t⟩
  bind := by
    intro α β x y f g hxy hfg t
    obtain ⟨h₁, h₂, h₃⟩ := hxy t
    obtain ⟨k₁, k₂, k₃⟩ := hfg (y t).1 (y t).2
    rw [h₂, show f (y t).1 = f (x (π t)).1 by rw [h₁]] at k₁ k₂
    exact ⟨k₁, k₂, htrans _ _ _ h₃ k₃⟩

end MonadRel

end GannetOS.Core
