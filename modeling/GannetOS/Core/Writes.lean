/-
Memory as the bytes at every offset, changed by a list of writes taken in order.

`stored ws mem` is the memory after the writes `ws`. The rules: writes in sequence (`stored_append`), an offset that is not
written (`stored_frame`), bytes stored one after the other (`putAt`, `stored_putAt`), a string stored with its NUL
(`writesAt`, `stored_writesAt`), and a range copied from elsewhere (`copyRange`, `stored_copyRange`).
-/
import Mathlib

namespace GannetOS.Core

open List

/-- memory after some writes -/
def stored (ws : List (ℕ × UInt8)) (mem : ℕ → UInt8) : ℕ → UInt8 := ws.foldl (fun mem w => Function.update mem w.1 w.2) mem

theorem stored_append (ws ws' : List (ℕ × UInt8)) (mem : ℕ → UInt8) :
    stored (ws ++ ws') mem = stored ws' (stored ws mem) := foldl_append

/-- the frame rule -/
theorem stored_frame {ws : List (ℕ × UInt8)} {k : ℕ} (h : ∀ w ∈ ws, w.1 ≠ k) (mem : ℕ → UInt8) :
    stored ws mem k = mem k := by
  induction ws generalizing mem with
  | nil => rfl
  | cons w ws ih =>
    have hw : k ≠ w.1 := (h w mem_cons_self).symm
    exact (ih (fun w' hw' => h w' (mem_cons_of_mem w hw')) _).trans (Function.update_of_ne hw _ _)

/-- a string and its NUL, stored byte by byte from offset `i` on -/
def writesAt : ℕ → List UInt8 → List (ℕ × UInt8)
  | i, [] => [(i, 0)]
  | i, c :: l => (i, c) :: writesAt (i + 1) l

theorem writesAt_range (l : List UInt8) (i : ℕ) :
    (i + l.length, 0) ∈ writesAt i l ∧ ∀ w ∈ writesAt i l, i ≤ w.1 ∧ w.1 ≤ i + l.length := by
  induction l generalizing i with
  | nil => simp [writesAt]
  | cons c l ih =>
    obtain ⟨hlast, hle⟩ := ih (i + 1)
    rw [length_cons, show i + (l.length + 1) = i + 1 + l.length by omega]
    refine ⟨mem_cons_of_mem _ hlast, fun w hw => ?_⟩
    rcases List.mem_cons.1 hw with rfl | hw
    · exact ⟨le_rfl, by omega⟩
    · have := hle w hw
      omega

theorem stored_writesAt (l : List UInt8) (i : ℕ) (mem : ℕ → UInt8) (k : ℕ) :
    stored (writesAt i l) mem k = if i ≤ k ∧ k ≤ i + l.length then l.getD (k - i) 0 else mem k := by
  induction l generalizing i mem with
  | nil =>
    simp only [writesAt, stored, foldl_cons, foldl_nil, Function.update_apply, length_nil, getD_nil]
    exact if_congr ⟨fun h => by omega, fun h => by omega⟩ rfl rfl
  | cons c l ih =>
    have hrest := ih (i + 1) (Function.update mem i c)
    simp only [stored] at hrest
    simp only [writesAt, stored, foldl_cons, hrest, Function.update_apply, length_cons]
    by_cases hki : k = i
    · subst hki
      simp
    · by_cases hin : i + 1 ≤ k ∧ k ≤ i + 1 + l.length
      · rw [if_pos hin, if_pos ⟨by omega, by omega⟩, show k - i = k - (i + 1) + 1 by omega]
        rfl
      · rw [if_neg hin, if_neg hki, if_neg fun h => hin ⟨by omega, by omega⟩]

/-- bytes stored one after the other from offset `i` on -/
def putAt : ℕ → List UInt8 → List (ℕ × UInt8)
  | _, [] => []
  | i, c :: l => (i, c) :: putAt (i + 1) l

theorem putAt_append (i : ℕ) (l₁ l₂ : List UInt8) : putAt i (l₁ ++ l₂) = putAt i l₁ ++ putAt (i + l₁.length) l₂ := by
  induction l₁ generalizing i with
  | nil => rfl
  | cons c l₁ ih =>
    rw [cons_append, putAt, putAt, ih, length_cons, cons_append, Nat.add_right_comm i 1, Nat.add_assoc]

theorem putAt_range {i : ℕ} {l : List UInt8} {w : ℕ × UInt8} (h : w ∈ putAt i l) : i ≤ w.1 ∧ w.1 < i + l.length := by
  induction l generalizing i with
  | nil => exact absurd h not_mem_nil
  | cons c l ih =>
    rw [length_cons]
    rcases List.mem_cons.1 h with rfl | h
    · exact ⟨le_rfl, by omega⟩
    · have := ih h
      omega

theorem stored_putAt (l : List UInt8) (i : ℕ) (mem : ℕ → UInt8) (k : ℕ) :
    stored (putAt i l) mem k = if i ≤ k ∧ k < i + l.length then l.getD (k - i) 0 else mem k := by
  induction l generalizing i mem with
  | nil =>
    rw [length_nil, if_neg (by omega)]
    rfl
  | cons c l ih =>
    have hcons : stored (putAt i (c :: l)) mem k = stored (putAt (i + 1) l) (Function.update mem i c) k := rfl
    rw [hcons, ih, length_cons, Function.update_apply]
    by_cases hki : k = i
    · rw [if_neg (by omega), if_pos hki, if_pos (by omega), hki, Nat.sub_self]
      rfl
    · by_cases hin : i + 1 ≤ k ∧ k < i + 1 + l.length
      · rw [if_pos hin, if_pos (by omega), show k - i = k - (i + 1) + 1 by omega]
        rfl
      · rw [if_neg hin, if_neg hki, if_neg (by omega)]

/-- what was stored is read back -/
theorem map_stored_putAt (l : List UInt8) (mem : ℕ → UInt8) :
    (List.range l.length).map (stored (putAt 0 l) mem) = l := by
  apply ext_getElem
  · rw [length_map, length_range]
  · intro k hk hk'
    rw [getElem_map, getElem_range, stored_putAt, if_pos ⟨Nat.zero_le k, by omega⟩, Nat.sub_zero,
      getD_eq_getElem _ _ hk']

/-- `n` bytes copied from offset `i` of another memory to the same offset -/
def copyRange (src : ℕ → UInt8) (i : ℕ) : ℕ → List (ℕ × UInt8)
  | 0 => []
  | n + 1 => copyRange src i n ++ [(i + n, src (i + n))]

theorem copyRange_range {src : ℕ → UInt8} {i n : ℕ} {w : ℕ × UInt8} (h : w ∈ copyRange src i n) :
    i ≤ w.1 ∧ w.1 < i + n := by
  induction n with
  | zero => exact absurd h not_mem_nil
  | succ n ih =>
    rcases List.mem_append.1 h with h | h
    · have := ih h
      omega
    · rw [List.mem_singleton.1 h]
      exact ⟨by simp, by simp⟩

theorem stored_copyRange (src mem : ℕ → UInt8) (i n k : ℕ) :
    stored (copyRange src i n) mem k = if i ≤ k ∧ k < i + n then src k else mem k := by
  induction n with
  | zero => rw [if_neg (by omega)]; rfl
  | succ n ih =>
    have hlast : stored [(i + n, src (i + n))] (stored (copyRange src i n) mem) k =
        if k = i + n then src (i + n) else stored (copyRange src i n) mem k := Function.update_apply _ _ _ _
    rw [copyRange, stored_append, hlast, ih]
    by_cases hk : k = i + n
    · rw [if_pos hk, if_pos ⟨by omega, by omega⟩, hk]
    · rw [if_neg hk]
      exact if_congr ⟨fun h => by omega, fun h => by omega⟩ rfl rfl

end GannetOS.Core
