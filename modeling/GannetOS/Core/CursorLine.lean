/-
A line of text with a cursor: the abstract pair of lists, and an array that holds it.

`CursorLine α n` is what stands left and right of the cursor, `n` elements at most together. An array `buf` with a length
and a cursor position holds such a line (`Holds`) when its first cells are the two lists one after the other. Editing in
the array shifts the tail by one cell (`insertAt`, `removeAt`); each `Holds` rule says that the array then holds the line
edited in the abstract way.
-/
import Mathlib

namespace GannetOS.Core

open List

variable {α : Type*} {n : ℕ}

/-- a line of at most `n` elements, cut at the cursor -/
structure CursorLine (α : Type*) (n : ℕ) where
  left : List α
  right : List α
  fits : left.length + right.length ≤ n

namespace CursorLine

def text (l : CursorLine α n) : List α := l.left ++ l.right

def empty : CursorLine α n := ⟨[], [], Nat.zero_le n⟩

/-- an element goes in left of the cursor, unless the line is full -/
def insert (l : CursorLine α n) (c : α) : CursorLine α n :=
  if h : l.left.length + l.right.length < n then
    ⟨l.left ++ [c], l.right, by rw [List.length_append, List.length_singleton]; omega⟩
  else l

def backspace (l : CursorLine α n) : CursorLine α n :=
  ⟨l.left.dropLast, l.right, by
    have := l.fits
    rw [List.length_dropLast]
    omega⟩

def delete (l : CursorLine α n) : CursorLine α n :=
  ⟨l.left, l.right.tail, by
    have := l.fits
    rw [List.length_tail]
    omega⟩

theorem dropLast_append_getLast? (l : List α) : l.dropLast ++ l.getLast?.toList = l := by
  rcases eq_nil_or_concat l with rfl | ⟨l, x, rfl⟩ <;> simp

theorem head?_append_tail (l : List α) : l.head?.toList ++ l.tail = l := by
  cases l <;> rfl

def moveLeft (l : CursorLine α n) : CursorLine α n :=
  ⟨l.left.dropLast, l.left.getLast?.toList ++ l.right, by
    rw [List.length_append, ← Nat.add_assoc, ← List.length_append, dropLast_append_getLast?]
    exact l.fits⟩

def moveRight (l : CursorLine α n) : CursorLine α n :=
  ⟨l.left ++ l.right.head?.toList, l.right.tail, by
    rw [List.length_append, Nat.add_assoc, ← List.length_append, head?_append_tail]
    exact l.fits⟩

def home (l : CursorLine α n) : CursorLine α n := ⟨[], l.left ++ l.right, by simpa using l.fits⟩

def «end» (l : CursorLine α n) : CursorLine α n := ⟨l.left ++ l.right, [], by simpa using l.fits⟩

theorem text_length (l : CursorLine α n) : l.text.length = l.left.length + l.right.length := length_append

theorem insert_length (l : CursorLine α n) (c : α) : (l.insert c).text.length = min n (l.text.length + 1) := by
  have hfits := l.fits
  rw [text_length, text_length, insert]
  split
  · simp only [length_append, length_singleton]
    omega
  · omega

theorem moveLeft_text (l : CursorLine α n) : l.moveLeft.text = l.text := by
  rw [text, moveLeft, ← append_assoc, dropLast_append_getLast?]
  rfl

theorem moveRight_text (l : CursorLine α n) : l.moveRight.text = l.text := by
  rw [text, moveRight, append_assoc, head?_append_tail]
  rfl

theorem end_text (l : CursorLine α n) : l.end.text = l.text := append_nil _

end CursorLine

/-! ## The array -/

/-- the cells from `a` to before `b` -/
def between (buf : ℤ → α) (a b : ℤ) : List α := (List.range (b - a).toNat).map fun i : ℕ => buf (a + i)

/-- the cells from `cur` on move up by one, `c` goes in -/
def insertAt (buf : ℤ → α) (len cur : ℤ) (c : α) : ℤ → α := fun i =>
  if cur < i ∧ i ≤ len then buf (i - 1) else if i = cur then c else buf i

/-- the cells behind `k` move down by one -/
def removeAt (buf : ℤ → α) (len k : ℤ) : ℤ → α := fun i => if k ≤ i ∧ i < len - 1 then buf (i + 1) else buf i

/-- the array holds the line -/
structure Holds (buf : ℤ → α) (len cur : ℤ) (l : CursorLine α n) : Prop where
  cur : cur = l.left.length
  len : len = l.left.length + l.right.length
  text : ∀ i (h : i < l.text.length), buf i = l.text[i]

theorem between_eq {buf : ℤ → α} {a b : ℤ} {l : List α} (hlen : b - a = l.length)
    (h : ∀ i (hi : i < l.length), buf (a + i) = l[i]) : between buf a b = l := by
  apply ext_getElem
  · rw [between, length_map, length_range, hlen, Int.toNat_natCast]
  · intro i _ hi
    simp only [between, getElem_map, getElem_range]
    exact h i hi

theorem between_length (buf : ℤ → α) (a b : ℤ) : (between buf a b).length = (b - a).toNat := by
  rw [between, length_map, length_range]

theorem between_getElem (buf : ℤ → α) (a b : ℤ) {i : ℕ} (hi : i < (between buf a b).length) :
    (between buf a b)[i] = buf (a + i) := by
  simp only [between, getElem_map, getElem_range]

namespace Holds

variable {buf : ℤ → α} {len cur : ℤ} {l l' : CursorLine α n}

theorem between_left (h : Holds buf len cur l) : between buf 0 cur = l.left := by
  refine between_eq (by have := h.cur; omega) fun i hi => ?_
  have htext := h.text i (by rw [l.text_length]; omega)
  rw [zero_add, htext]
  exact getElem_append_left hi

theorem between_right (h : Holds buf len cur l) : between buf cur len = l.right := by
  refine between_eq (by have := h.cur; have := h.len; omega) fun i hi => ?_
  have htext := h.text (l.left.length + i) (by rw [l.text_length]; omega)
  rw [h.cur, ← Nat.cast_add, htext]
  simp only [CursorLine.text, getElem_append_right (Nat.le_add_right _ _), Nat.add_sub_cancel_left]

theorem between_text (h : Holds buf len cur l) : between buf 0 len = l.text := by
  refine between_eq (by have := h.len; have := l.text_length; omega) fun i hi => ?_
  rw [zero_add]
  exact h.text i hi

theorem bounds (h : Holds buf len cur l) : 0 ≤ cur ∧ cur ≤ len ∧ len ≤ n := by
  have := h.cur
  have := h.len
  have := l.fits
  omega

/-- only the cursor moves -/
theorem move (h : Holds buf len cur l) (htext : l'.text = l.text) {cur' : ℤ} (hcur : cur' = l'.left.length) :
    Holds buf len cur' l' := by
  refine ⟨hcur, ?_, ?_⟩
  · have hlen := congrArg List.length htext
    rw [l.text_length, l'.text_length] at hlen
    have := h.len
    omega
  · intro i hi
    have hi' : i < l.text.length := htext ▸ hi
    simp only [htext]
    exact h.text i hi'

theorem moveLeft (h : Holds buf len cur l) : Holds buf len (if 0 < cur then cur - 1 else cur) l.moveLeft := by
  have := h.cur
  refine h.move l.moveLeft_text ?_
  rw [CursorLine.moveLeft, length_dropLast]
  split <;> omega

theorem moveRight (h : Holds buf len cur l) : Holds buf len (if cur < len then cur + 1 else cur) l.moveRight := by
  have := h.cur
  have := h.len
  refine h.move l.moveRight_text ?_
  show _ = ((l.left ++ l.right.head?.toList).length : ℤ)
  cases hr : l.right with
  | nil =>
    have : l.right.length = 0 := by rw [hr]; rfl
    rw [if_neg (by omega), head?_nil, Option.toList_none, append_nil, h.cur]
  | cons c right =>
    have : 0 < l.right.length := by rw [hr]; exact Nat.succ_pos _
    rw [if_pos (by omega), head?_cons, Option.toList_some, length_append, length_singleton, h.cur,
      Nat.cast_add, Nat.cast_one]

theorem home (h : Holds buf len cur l) : Holds buf len 0 l.home := by
  refine h.move ?_ rfl
  rfl

theorem «end» (h : Holds buf len cur l) : Holds buf len len l.end :=
  h.move l.end_text (by rw [h.len, CursorLine.end, length_append, Nat.cast_add])

theorem insert (h : Holds buf len cur l) (hroom : len < n) (c : α) :
    Holds (insertAt buf len cur c) (len + 1) (cur + 1) (l.insert c) := by
  have hcur := h.cur
  have hlen := h.len
  have hins : l.insert c = ⟨l.left ++ [c], l.right, by rw [length_append, length_singleton]; omega⟩ :=
    dif_pos (by omega)
  rw [hins]
  refine ⟨by simp; omega, by simp; omega, fun i hi => ?_⟩
  have hi' : i < l.left.length + 1 + l.right.length := by
    have := hi.trans_eq (CursorLine.text_length _)
    simp only [length_append, length_singleton] at this
    exact this
  simp only [CursorLine.text, insertAt]
  rcases lt_trichotomy i l.left.length with hlt | heq | hgt
  · have htext := h.text i (by rw [l.text_length]; omega)
    rw [if_neg (by omega), if_neg (by omega), htext]
    simp only [CursorLine.text]
    rw [getElem_append_left hlt, getElem_append_left (by simp; omega), getElem_append_left hlt]
  · subst heq
    rw [if_neg (by omega), if_pos (by omega)]
    simp
  · obtain ⟨j, rfl⟩ : ∃ j, i = l.left.length + 1 + j := ⟨i - (l.left.length + 1), by omega⟩
    have htext := h.text (l.left.length + j) (by rw [l.text_length]; omega)
    rw [if_pos (by omega), show ((l.left.length + 1 + j : ℕ) : ℤ) - 1 = ((l.left.length + j : ℕ) : ℤ) by omega, htext]
    simp only [CursorLine.text]
    rw [getElem_append_right (by omega), getElem_append_right (by simp)]
    simp only [length_append, length_singleton, Nat.add_sub_cancel_left]

theorem insert_full (h : Holds buf len cur l) (hfull : ¬ len < n) (c : α) : l.insert c = l :=
  dif_neg (by have := h.len; omega)

/-- the element `x` that stands behind the first `k` is taken out -/
theorem remove {a b : List α} {x : α} (htext : l.text = a ++ x :: b) (h : Holds buf len cur l) {k cur' : ℤ}
    (hk : k = a.length) (hl' : l'.text = a ++ b) (hcur : cur' = l'.left.length) :
    Holds (removeAt buf len k) (len - 1) cur' l' := by
  have hlen : len = a.length + b.length + 1 := by
    have := h.len
    have hl := congrArg List.length htext
    rw [l.text_length, length_append, length_cons] at hl
    omega
  refine ⟨hcur, ?_, fun i hi => ?_⟩
  · have hl := congrArg List.length hl'
    rw [l'.text_length, length_append] at hl
    omega
  · have hi' : i < a.length + b.length := by rwa [hl', length_append] at hi
    simp only [removeAt, hl']
    by_cases hlt : i < a.length
    · have hcell := h.text i (by rw [htext, length_append]; omega)
      rw [if_neg (by omega), hcell]
      simp only [htext, getElem_append_left hlt]
    · obtain ⟨j, rfl⟩ : ∃ j, i = a.length + j := ⟨i - a.length, by omega⟩
      have hcell := h.text (a.length + j + 1) (by rw [htext, length_append, length_cons]; omega)
      rw [if_pos (by omega), show ((a.length + j : ℕ) : ℤ) + 1 = ((a.length + j + 1 : ℕ) : ℤ) by omega, hcell]
      simp only [htext]
      rw [getElem_append_right (by omega), getElem_append_right (by omega)]
      simp [show a.length + j + 1 - a.length = j + 1 by omega]

theorem backspace (h : Holds buf len cur l) (hpos : 0 < cur) :
    Holds (removeAt buf len (cur - 1)) (len - 1) (cur - 1) l.backspace := by
  have hcur := h.cur
  rcases eq_nil_or_concat l.left with hnil | ⟨left, x, hl⟩
  · rw [hnil] at hcur
    simp at hcur
    omega
  · have hcur' : cur - 1 = left.length := by
      rw [hl] at hcur
      simp at hcur
      omega
    refine h.remove (a := left) (b := l.right) (x := x) ?_ hcur' ?_ ?_
    · simp [CursorLine.text, hl]
    · simp [CursorLine.text, CursorLine.backspace, hl]
    · simp [CursorLine.backspace, hl, hcur']

theorem backspace_start (h : Holds buf len cur l) (hpos : ¬ 0 < cur) : l.backspace = l := by
  have hcur := h.cur
  cases l
  simp_all [CursorLine.backspace]

theorem delete (h : Holds buf len cur l) (hlt : cur < len) :
    Holds (removeAt buf len cur) (len - 1) cur l.delete := by
  have hcur := h.cur
  have hlen := h.len
  cases hr : l.right with
  | nil =>
    rw [hr] at hlen
    simp at hlen
    omega
  | cons x right =>
    refine h.remove (a := l.left) (b := right) (x := x) ?_ hcur ?_ hcur
    · simp [CursorLine.text, hr]
    · simp [CursorLine.text, CursorLine.delete, hr]

theorem delete_end (h : Holds buf len cur l) (hlt : ¬ cur < len) : l.delete = l := by
  have hcur := h.cur
  have hlen := h.len
  cases l
  simp_all [CursorLine.delete]

end Holds

end GannetOS.Core
