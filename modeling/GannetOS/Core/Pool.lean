/-
First-free-slot pools: a fixed number of slots, a used flag for each, and a scan that hands out the lowest slot that is
not used. Every static pool of the kernel (page directories, private page tables, physical frames, task slots) is one.
- `firstFree_eq_some`: what a scan returns is free and everything below it is used;
- `firstFree_eq_none`: a scan fails exactly when every slot is used.
-/
import Mathlib

namespace GannetOS.Core

variable {n : ℕ}

/-- a table of eight has a first slot -/
instance neZero_eight : NeZero 8 := ⟨by decide⟩

/-- the scan over the last `k` slots -/
def scanFree (used : Fin n → Bool) : (k : ℕ) → k ≤ n → Option (Fin n)
  | 0, _ => none
  | k + 1, h =>
    let i : Fin n := ⟨n - (k + 1), by omega⟩
    if used i then scanFree used k (by omega) else some i

/-- the lowest slot that is not used -/
def firstFree (used : Fin n → Bool) : Option (Fin n) := scanFree used n le_rfl

theorem scanFree_eq_some (used : Fin n → Bool) (i : Fin n) : (k : ℕ) → (h : k ≤ n) →
    (scanFree used k h = some i ↔
      n - k ≤ (i : ℕ) ∧ used i = false ∧ ∀ j : Fin n, n - k ≤ (j : ℕ) → j < i → used j = true)
  | 0, _ => by
    simp only [scanFree, reduceCtorEq, false_iff]
    intro hi
    have := i.isLt
    omega
  | k + 1, h => by
    have hih := scanFree_eq_some used i k (by omega)
    simp only [scanFree]
    split_ifs with hu
    · rw [hih]
      constructor
      · rintro ⟨hle, hfree, hall⟩
        refine ⟨by omega, hfree, fun j hj hlt => ?_⟩
        by_cases hjk : (j : ℕ) = n - (k + 1)
        · rw [show j = ⟨n - (k + 1), by omega⟩ from Fin.ext hjk]
          exact hu
        · exact hall j (by omega) hlt
      · rintro ⟨hle, hfree, hall⟩
        have hne : (i : ℕ) ≠ n - (k + 1) := by
          intro he
          rw [show i = ⟨n - (k + 1), by omega⟩ from Fin.ext he, hu] at hfree
          cases hfree
        exact ⟨by omega, hfree, fun j hj hlt => hall j (by omega) hlt⟩
    · constructor
      · rintro ⟨⟩
        refine ⟨le_rfl, by simpa using hu, fun j hj hlt => ?_⟩
        have : (j : ℕ) < n - (k + 1) := hlt
        omega
      · rintro ⟨hle, -, hall⟩
        by_contra hne
        apply hu
        apply hall _ le_rfl
        refine lt_of_le_of_ne (show n - (k + 1) ≤ (i : ℕ) from hle) fun he => hne ?_
        rw [he]

theorem firstFree_eq_some {used : Fin n → Bool} {i : Fin n} :
    firstFree used = some i ↔ used i = false ∧ ∀ j < i, used j = true := by
  rw [firstFree, scanFree_eq_some]
  simp

theorem firstFree_free {used : Fin n → Bool} {i : Fin n} (h : firstFree used = some i) : used i = false :=
  (firstFree_eq_some.1 h).1

theorem firstFree_eq_none {used : Fin n → Bool} : firstFree used = none ↔ ∀ i, used i = true := by
  constructor
  · intro h i
    by_contra hi
    -- the least free slot would have been returned
    have hex : ∃ j : Fin n, used j = false := ⟨i, by simpa using hi⟩
    obtain ⟨j, hj, hmin⟩ := WellFounded.has_min (@wellFounded_lt (Fin n) _ _) {j | used j = false} hex
    have : firstFree used = some j :=
      firstFree_eq_some.2 ⟨hj, fun l hl => by simpa using fun hf => hmin l hf hl⟩
    rw [this] at h
    cases h
  · intro h
    cases hf : firstFree used with
    | none => rfl
    | some i =>
      exact absurd (h i) (by simp [firstFree_free hf])

theorem exists_firstFree {used : Fin n → Bool} {i : Fin n} (h : used i = false) : ∃ j, firstFree used = some j := by
  cases hf : firstFree used with
  | some j => exact ⟨j, rfl⟩
  | none => simp [firstFree_eq_none.1 hf i] at h

end GannetOS.Core
