/-
A ring of `n` cells with a read end `head` and a write end `tail`, both wrapping at `n`. How many cells are in use is
counted by the owner, so a ring is described together with that count:
- `contents r k`: the `k` cells from `head` on;
- `Counted r k`: `k` cells are in use, so `tail` is `k` cells after `head`.
The two rules: writing behind the cells in use appends to the contents (`Counted.contents_puts`), and reading takes from
the front of them (`gets_fst`, `contents_gets`).
-/
import Mathlib

namespace GannetOS.Core

open List

structure Ring (α : Type*) (n : ℕ) where
  buf : Fin n → α
  head : Fin n
  tail : Fin n

namespace Ring

variable {α : Type*} {n : ℕ} [NeZero n]

/-- store one element at the write end -/
def put (r : Ring α n) (a : α) : Ring α n := { r with buf := Function.update r.buf r.tail a, tail := r.tail + 1 }

/-- store the elements of a list, in order -/
def puts (r : Ring α n) (l : List α) : Ring α n := l.foldl put r

/-- take `k` elements from the read end -/
def gets : ℕ → Ring α n → List α × Ring α n
  | 0, r => ([], r)
  | k + 1, r => Prod.map (r.buf r.head :: ·) id (gets k { r with head := r.head + 1 })

/-- the `k` cells from the read end on -/
def contents (r : Ring α n) (k : ℕ) : List α := (List.range k).map fun j => r.buf (r.head + Fin.ofNat n j)

/-- `k` cells are in use -/
structure Counted (r : Ring α n) (k : ℕ) : Prop where
  le : k ≤ n
  tail : r.tail = r.head + Fin.ofNat n k

@[simp] theorem contents_length (r : Ring α n) (k : ℕ) : (r.contents k).length = k := by simp [contents]

theorem ofNat_succ (k : ℕ) : Fin.ofNat n (k + 1) = Fin.ofNat n k + 1 := by
  apply Fin.ext
  simp [Fin.ofNat, Fin.val_add]

theorem contents_succ (r : Ring α n) (k : ℕ) :
    r.contents (k + 1) = r.contents k ++ [r.buf (r.head + Fin.ofNat n k)] := by
  simp [contents, range_succ]

/-- the first cell, and the cells after it -/
theorem contents_cons (r : Ring α n) (k : ℕ) :
    r.contents (k + 1) = r.buf r.head :: contents { r with head := r.head + 1 } k := by
  have hzero : Fin.ofNat n 0 = 0 := rfl
  simp only [contents, range_succ_eq_map, map_cons, map_map, hzero, add_zero, List.cons.injEq, true_and]
  apply map_congr_left
  intro j _
  simp only [Function.comp, Nat.succ_eq_add_one, ofNat_succ]
  rw [add_comm _ 1, ← add_assoc]

theorem gets_fst (k : ℕ) (r : Ring α n) : (gets k r).1 = r.contents k := by
  induction k generalizing r with
  | zero => rfl
  | succ k ih =>
    rw [contents_cons, ← ih]
    rfl

/-- what is left after taking `k` of `k + j` cells -/
theorem contents_gets (k j : ℕ) (r : Ring α n) : (gets k r).2.contents j = (r.contents (k + j)).drop k := by
  induction k generalizing r with
  | zero => simp [gets]
  | succ k ih =>
    rw [show k + 1 + j = k + j + 1 by omega, contents_cons, drop_succ_cons, ← ih]
    rfl

theorem Counted.gets {r : Ring α n} {k j : ℕ} (h : Counted r (k + j)) : Counted (gets k r).2 j := by
  induction k generalizing r with
  | zero => simpa [Ring.gets] using h
  | succ k ih =>
    apply ih (r := { r with head := r.head + 1 })
    refine ⟨by have := h.le; omega, ?_⟩
    have htail := h.tail
    rwa [show k + 1 + j = k + j + 1 by omega, ofNat_succ, add_comm _ 1, ← add_assoc] at htail

/-- below a full ring, the cells in use are not the one at the write end -/
theorem Counted.ne_tail {r : Ring α n} {k j : ℕ} (h : Counted r k) (hk : k < n) (hj : j < k) :
    r.head + Fin.ofNat n j ≠ r.tail := by
  rw [h.tail]
  intro he
  have hval := congrArg Fin.val (add_left_cancel he)
  simp only [Fin.ofNat, Nat.mod_eq_of_lt hk, Nat.mod_eq_of_lt (hj.trans hk)] at hval
  omega

theorem Counted.put {r : Ring α n} {k : ℕ} (h : Counted r k) (hk : k < n) (a : α) : Counted (r.put a) (k + 1) := by
  refine ⟨hk, ?_⟩
  show r.tail + 1 = r.head + _
  rw [h.tail, ofNat_succ, add_assoc]

theorem Counted.contents_put {r : Ring α n} {k : ℕ} (h : Counted r k) (hk : k < n) (a : α) :
    (r.put a).contents (k + 1) = r.contents k ++ [a] := by
  rw [contents_succ]
  congr 1
  · apply map_congr_left
    intro j hj
    exact Function.update_of_ne (h.ne_tail hk (List.mem_range.1 hj)) _ _
  · show [Function.update r.buf r.tail a (r.head + Fin.ofNat n k)] = [a]
    rw [← h.tail, Function.update_self]

theorem Counted.puts {r : Ring α n} {k : ℕ} (h : Counted r k) {l : List α} (hl : k + l.length ≤ n) :
    Counted (r.puts l) (k + l.length) := by
  induction l generalizing r k with
  | nil => exact h
  | cons a l ih =>
    rw [length_cons] at hl ⊢
    have hnext := ih (h.put (by omega) a) (by omega)
    rwa [show k + 1 + l.length = k + (l.length + 1) by omega] at hnext

theorem Counted.contents_puts {r : Ring α n} {k : ℕ} (h : Counted r k) {l : List α} (hl : k + l.length ≤ n) :
    (r.puts l).contents (k + l.length) = r.contents k ++ l := by
  induction l generalizing r k with
  | nil => simp [Ring.puts]
  | cons a l ih =>
    rw [length_cons] at hl ⊢
    have hnext := ih (h.put (by omega) a) (by omega)
    rw [h.contents_put (by omega)] at hnext
    rwa [show k + (l.length + 1) = k + 1 + l.length by omega, append_cons]

end Ring

end GannetOS.Core
