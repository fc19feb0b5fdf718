/-
An allocation bitmap whose set bits belong to owners, each owner holding one contiguous extent.

`firstFit` is the search of a first-fit allocator. `Owned bm own` says that every bit of every owner's extent is set and
that no two owners share a bit. The rules are the moves of an allocator: taking a free run (`Owned.take`), giving an
extent back (`Owned.give`), and moving an owner to a fresh run (`Owned.move`).
-/
import Mathlib

namespace GannetOS.Core

/-- a run of `len` bits from `start` on -/
structure Extent where
  start : ℕ
  len : ℕ
deriving DecidableEq

namespace Extent

instance : Membership ℕ Extent := ⟨fun e b => e.start ≤ b ∧ b < e.start + e.len⟩

theorem mem_def {e : Extent} {b : ℕ} : b ∈ e ↔ e.start ≤ b ∧ b < e.start + e.len := Iff.rfl

instance (e : Extent) (b : ℕ) : Decidable (b ∈ e) := decidable_of_iff _ mem_def.symm

/-- the extent of an owner that holds nothing -/
def empty : Extent := ⟨0, 0⟩

@[simp] theorem not_mem_empty (b : ℕ) : b ∉ empty := by
  simp [mem_def, empty]

@[simp] theorem not_mem_zero (a b : ℕ) : b ∉ (⟨a, 0⟩ : Extent) := by
  simp [mem_def]

end Extent

/-- the bitmap with every bit of `e` set to `v` -/
def mark (bm : ℕ → Bool) (e : Extent) (v : Bool) : ℕ → Bool := fun b => if b ∈ e then v else bm b

/-! ## First fit -/

/-- the first offset from which `count` of the `n` bits are clear -/
def firstFit (bm : ℕ → Bool) (n count : ℕ) : Option ℕ :=
  (List.range (n + 1 - count)).find? fun i => (List.range count).all fun j => !bm (i + j)

theorem firstFit_sound {bm : ℕ → Bool} {n count i : ℕ} (h : firstFit bm n count = some i) :
    i + count ≤ n ∧ ∀ b ∈ (⟨i, count⟩ : Extent), bm b = false := by
  have hmem := List.mem_of_find?_eq_some h
  have hall := List.find?_some h
  simp only [List.all_eq_true, List.mem_range, Bool.not_eq_true'] at hmem hall
  refine ⟨by omega, fun b hb => ?_⟩
  rw [Extent.mem_def] at hb
  have := hall (b - i) (by simp only at hb; omega)
  rwa [show i + (b - i) = b by simp only at hb; omega] at this

theorem firstFit_clear {bm : ℕ → Bool} {n count : ℕ} (h : ∀ b, bm b = false) (hn : count ≤ n) :
    firstFit bm n count = some 0 := by
  rw [firstFit, show n + 1 - count = (n - count) + 1 by omega, List.range_succ_eq_map, List.find?_cons_of_pos]
  simp [h]

/-! ## Owners -/

variable {α : Type*} [DecidableEq α]

/-- every extent is marked, and extents of two owners are disjoint -/
structure Owned (bm : ℕ → Bool) (own : α → Extent) : Prop where
  marked : ∀ a, ∀ b ∈ own a, bm b = true
  disjoint : ∀ a a', a ≠ a' → ∀ b ∈ own a, b ∉ own a'

variable {bm : ℕ → Bool} {own : α → Extent}

omit [DecidableEq α] in
/-- owners may be dropped without touching the bitmap -/
theorem Owned.mono {own' : α → Extent} (h : Owned bm own) (hsub : ∀ a, ∀ b ∈ own' a, b ∈ own a) : Owned bm own' where
  marked a b hb := h.marked a b (hsub a b hb)
  disjoint a a' hne b hb hb' := h.disjoint a a' hne b (hsub a b hb) (hsub a' b hb')

omit [DecidableEq α] in
/-- a free run meets no owner's extent -/
theorem Owned.not_mem_free (h : Owned bm own) {e : Extent} (hfree : ∀ b ∈ e, bm b = false) {a : α} {b : ℕ}
    (hb : b ∈ own a) : b ∉ e := by
  intro he
  have hset := h.marked a b hb
  rw [hfree b he] at hset
  exact Bool.false_ne_true hset

/-- an owner takes a free run, whatever it held before staying marked -/
theorem Owned.take (h : Owned bm own) (a : α) {e : Extent} (hfree : ∀ b ∈ e, bm b = false) :
    Owned (mark bm e true) (Function.update own a e) where
  marked a' b hb := by
    unfold mark
    split_ifs with he
    · rfl
    · rcases eq_or_ne a' a with rfl | hne
      · exact absurd (by simpa using hb) he
      · exact h.marked a' b (by simpa [hne] using hb)
  disjoint a₁ a₂ hne b hb₁ hb₂ := by
    rcases eq_or_ne a₁ a with rfl | h₁
    · exact h.not_mem_free hfree (a := a₂) (by simpa [hne.symm] using hb₂) (by simpa using hb₁)
    · rcases eq_or_ne a₂ a with rfl | h₂
      · exact h.not_mem_free hfree (a := a₁) (by simpa [h₁] using hb₁) (by simpa using hb₂)
      · exact h.disjoint a₁ a₂ hne b (by simpa [h₁] using hb₁) (by simpa [h₂] using hb₂)

/-- an owner gives its extent back -/
theorem Owned.give (h : Owned bm own) (a : α) :
    Owned (mark bm (own a) false) (Function.update own a Extent.empty) where
  marked a' b hb := by
    rcases eq_or_ne a' a with rfl | hne
    · simp at hb
    · have hb' : b ∈ own a' := by simpa [hne] using hb
      simpa [mark, h.disjoint a' a hne b hb'] using h.marked a' b hb'
  disjoint a₁ a₂ hne b hb₁ hb₂ := by
    rcases eq_or_ne a₁ a with rfl | h₁
    · simp at hb₁
    · rcases eq_or_ne a₂ a with rfl | h₂
      · simp at hb₂
      · exact h.disjoint a₁ a₂ hne b (by simpa [h₁] using hb₁) (by simpa [h₂] using hb₂)

/-- an owner moves to a free run and gives its old extent back -/
theorem Owned.move (h : Owned bm own) (a : α) {e : Extent} (hfree : ∀ b ∈ e, bm b = false) :
    Owned (mark (mark bm e true) (own a) false) (Function.update own a e) where
  marked a' b hb := by
    have hold : b ∉ own a := by
      intro hba
      rcases eq_or_ne a' a with rfl | hne
      · exact h.not_mem_free hfree hba (by simpa using hb)
      · exact h.disjoint a' a hne b (by simpa [hne] using hb) hba
    simpa [mark, hold] using (h.take a hfree).marked a' b hb
  disjoint := (h.take a hfree).disjoint

end GannetOS.Core
