/-
Strings that are built in a buffer, byte by byte.

An `OutBuf` is the memory of the buffer, the position up to which a text has been written, and the offsets of all stores
made so far. `push` is `b[n++] = c`, `close` is `b[n] = 0`, `backTo` moves the position back over a text, and `fill` pushes
a string as long as the position is below a limit.

`Holds b size l`: the text in front of the position is `l`, and no store was made outside the first `size` bytes. The rules
say what each operation does to `l`; `readText` is the string a reader of the buffer sees, and after `close` it is `l`
(`Closed`).

`StringAt mem p l`: the string `l` stands at `p`, with its NUL.
-/
import GannetOS.Core.CString

namespace GannetOS.Core

open List

structure OutBuf where
  mem : ℕ → UInt8
  pos : ℕ
  log : List ℕ

/-- the string in the first `size` bytes of a memory -/
def readText (mem : ℕ → UInt8) (size : ℕ) : List UInt8 := cstr ((List.range size).map mem)

namespace OutBuf

/-- a buffer that nothing was written to yet -/
def fresh (mem : ℕ → UInt8) : OutBuf := ⟨mem, 0, []⟩

/-- a byte is stored at an offset -/
def store (b : OutBuf) (i : ℕ) (c : UInt8) : OutBuf := { b with mem := Function.update b.mem i c, log := i :: b.log }

def push (b : OutBuf) (c : UInt8) : OutBuf := { b.store b.pos c with pos := b.pos + 1 }

def close (b : OutBuf) : OutBuf := b.store b.pos 0

def backTo (b : OutBuf) (k : ℕ) : OutBuf := { b with pos := k }

/-- the string is pushed while the position is below the limit -/
def fill (limit : ℕ) : OutBuf → List UInt8 → OutBuf
  | b, [] => b
  | b, c :: s => if b.pos < limit then fill limit (b.push c) s else b

/-- the text in front of the position, and all stores within the buffer -/
structure Holds (b : OutBuf) (size : ℕ) (l : List UInt8) : Prop where
  pos : b.pos = l.length
  mem : ∀ k, k < l.length → b.mem k = l.getD k 0
  log : ∀ i ∈ b.log, i < size

variable {b : OutBuf} {size : ℕ} {l : List UInt8}

theorem holds_fresh (mem : ℕ → UInt8) (size : ℕ) : Holds (fresh mem) size [] :=
  ⟨rfl, fun k hk => absurd hk (Nat.not_lt_zero k), fun _ hi => absurd hi not_mem_nil⟩

theorem Holds.logged (h : Holds b size l) {i : ℕ} (hi : i < size) : ∀ j ∈ i :: b.log, j < size := by
  intro j hj
  rcases List.mem_cons.1 hj with rfl | hj
  · exact hi
  · exact h.log j hj

theorem Holds.push (h : Holds b size l) (hroom : l.length < size) (c : UInt8) : Holds (b.push c) size (l ++ [c]) where
  pos := by rw [length_append, ← h.pos]; rfl
  mem k hk := by
    show Function.update b.mem b.pos c k = _
    rw [length_append, length_singleton] at hk
    rw [h.pos, Function.update_apply]
    by_cases hlast : k = l.length
    · rw [if_pos hlast, hlast, getD_append_right _ _ _ _ le_rfl, Nat.sub_self]
      rfl
    · have hk : k < l.length := by omega
      rw [if_neg hlast, h.mem k hk, getD_append _ _ _ _ hk]
  log := h.logged (h.pos ▸ hroom)

theorem Holds.close (h : Holds b size l) (hroom : l.length < size) : Holds b.close size l where
  pos := h.pos
  mem k hk := by
    show Function.update b.mem b.pos 0 k = _
    rw [Function.update_of_ne (by rw [h.pos]; exact hk.ne)]
    exact h.mem k hk
  log := h.logged (h.pos ▸ hroom)

theorem Holds.backTo (h : Holds b size l) {k : ℕ} (hk : k ≤ l.length) : Holds (b.backTo k) size (l.take k) where
  pos := by
    rw [length_take_of_le hk]
    rfl
  mem j hj := by
    rw [length_take_of_le hk] at hj
    have hget : (l.take k).getD j 0 = l.getD j 0 := by
      rw [getD_eq_getElem?_getD, getD_eq_getElem?_getD, getElem?_take_of_lt hj]
    rw [hget]
    exact h.mem j (hj.trans_le hk)
  log := h.log

theorem Holds.pushAll (h : Holds b size l) (s : List UInt8) (hroom : l.length + s.length ≤ size) :
    Holds (s.foldl OutBuf.push b) size (l ++ s) := by
  induction s generalizing b l with
  | nil =>
    rw [append_nil]
    exact h
  | cons c s ih =>
    rw [length_cons] at hroom
    have hnext := ih (h.push (by omega) c) (by rw [length_append, length_singleton]; omega)
    rwa [append_assoc] at hnext

/-- the last byte of the text is read -/
theorem Holds.last (h : Holds b size l) (hne : l ≠ []) : some (b.mem (b.pos - 1)) = l.getLast? := by
  have hpos : 0 < l.length := List.length_pos_iff.2 hne
  rw [h.pos, h.mem _ (by omega), getLast?_eq_getElem?, getElem?_eq_getElem (by omega),
    getD_eq_getElem _ _ (by omega)]

/-- as much of the string as there is room for below the limit -/
theorem Holds.fill {limit : ℕ} (h : Holds b size l) (hlimit : limit ≤ size) (s : List UInt8) :
    Holds (b.fill limit s) size (l ++ s.take (limit - l.length)) := by
  induction s generalizing b l with
  | nil =>
    rw [take_nil, append_nil]
    exact h
  | cons c s ih =>
    rw [OutBuf.fill, h.pos]
    by_cases hroom : l.length < limit
    · have hnext := ih (h.push (hroom.trans_le hlimit) c)
      rw [if_pos hroom]
      rw [length_append, length_singleton, append_assoc] at hnext
      rw [show limit - l.length = limit - (l.length + 1) + 1 by omega, take_succ_cons]
      exact hnext
    · rw [if_neg hroom, Nat.sub_eq_zero_of_le (not_lt.1 hroom), take_zero, append_nil]
      exact h

/-- the bytes in front of the position -/
theorem Holds.map_range (h : Holds b size l) : (List.range b.pos).map b.mem = l := by
  apply ext_getElem
  · rw [length_map, length_range, h.pos]
  · intro k hk hk'
    rw [getElem_map, getElem_range, h.mem k hk', getD_eq_getElem _ _ hk']

/-- the text is in the buffer with its NUL -/
structure Closed (b : OutBuf) (size : ℕ) (l : List UInt8) : Prop extends Holds b size l where
  room : l.length < size
  nul : b.mem l.length = 0

theorem Holds.closed (h : Holds b size l) (hroom : l.length < size) : Closed b.close size l where
  toHolds := h.close hroom
  room := hroom
  nul := by
    rw [← h.pos]
    exact Function.update_self _ _ _

/-- a buffer holds one text -/
theorem Closed.unique {l' : List UInt8} (h : Closed b size l) (h' : Closed b size l') : l = l' := by
  rw [← h.map_range, ← h'.map_range]

/-- the reader of the buffer sees the text -/
theorem Closed.readText (h : Closed b size l) (hnul : (0 : UInt8) ∉ l) : readText b.mem size = l := by
  obtain ⟨rest, hsize⟩ : ∃ rest, size = l.length + (rest + 1) := ⟨size - l.length - 1, by have := h.room; omega⟩
  have htext : (List.range l.length).map b.mem = l := by
    rw [← h.pos]
    exact h.map_range
  have hsplit : (List.range size).map b.mem = l ++ 0 :: (List.range rest).map fun k => b.mem (l.length + (k + 1)) := by
    rw [hsize, range_add, map_append, htext, range_succ_eq_map, map_cons, map_cons, Nat.add_zero,
      h.nul, map_map, map_map]
    rfl
  have hstop : ∀ c ∈ l, decide (c ≠ 0) = true := by
    intro c hc
    rw [decide_eq_true_eq]
    rintro rfl
    exact hnul hc
  rw [Core.readText, hsplit, cstr, takeWhile_append_of_pos hstop]
  exact append_nil l

end OutBuf

/-! ## Strings in memory -/

def StringAt (mem : ℕ → UInt8) : ℕ → List UInt8 → Prop
  | p, [] => mem p = 0
  | p, c :: l => mem p = c ∧ StringAt mem (p + 1) l

section
variable {mem mem' : ℕ → UInt8} {p : ℕ} {l : List UInt8}

theorem stringAt_of_getD (h : ∀ k, mem (p + k) = l.getD k 0) : StringAt mem p l := by
  induction l generalizing p with
  | nil => exact h 0
  | cons c l ih =>
    refine ⟨h 0, ih fun k => ?_⟩
    rw [Nat.add_right_comm]
    exact h (k + 1)

theorem StringAt.head (h : StringAt mem p l) : mem p = l.headD 0 := by
  cases l with
  | nil => exact h
  | cons c l => exact h.1

/-- a string is also a string from any of its characters on -/
theorem StringAt.append {a : List UInt8} (h : StringAt mem p (a ++ l)) : StringAt mem (p + a.length) l := by
  induction a generalizing p with
  | nil => exact h
  | cons c a ih =>
    have hrest := ih h.2
    rwa [Nat.add_right_comm] at hrest

/-- a string stays where nothing is stored -/
theorem StringAt.congr (h : StringAt mem p l) (hsame : ∀ k, p ≤ k → k ≤ p + l.length → mem' k = mem k) :
    StringAt mem' p l := by
  induction l generalizing p with
  | nil => exact (hsame p le_rfl le_rfl).trans h
  | cons c l ih =>
    refine ⟨(hsame p le_rfl (Nat.le_add_right _ _)).trans h.1, ih h.2 fun k hk hk' => hsame k (by omega) ?_⟩
    rw [length_cons]
    omega

/-- a NUL cuts a string -/
theorem StringAt.cut {a : List UInt8} (h : StringAt mem p (a ++ l)) :
    StringAt (Function.update mem (p + a.length) 0) p a := by
  induction a generalizing p with
  | nil => exact Function.update_self _ _ _
  | cons c a ih =>
    have hrest := ih h.2
    refine ⟨?_, ?_⟩
    · rw [Function.update_of_ne (by simp)]
      exact h.1
    · rwa [Nat.add_right_comm] at hrest

/-- a scan over a string stops at its NUL at the latest -/
def scanTo (mem : ℕ → UInt8) (stop : UInt8 → Bool) : ℕ → ℕ → ℕ
  | 0, p => p
  | n + 1, p => if stop (mem p) then p else scanTo mem stop n (p + 1)

theorem StringAt.scanTo (h : StringAt mem p l) {stop : UInt8 → Bool} (hstop : stop 0 = true) {n : ℕ} (hn : l.length ≤ n) :
    scanTo mem stop n p = p + (l.takeWhile fun c => !stop c).length := by
  induction l generalizing p n with
  | nil =>
    cases n with
    | zero => rfl
    | succ n =>
      rw [Core.scanTo, if_pos (by rw [h]; exact hstop)]
      rfl
  | cons c l ih =>
    cases n with
    | zero => exact absurd hn (Nat.not_succ_le_zero _)
    | succ n =>
      rw [Core.scanTo, h.1, takeWhile_cons]
      cases hc : stop c with
      | true => rfl
      | false =>
        rw [if_neg Bool.false_ne_true, ih h.2 (Nat.le_of_succ_le_succ hn), Nat.add_right_comm]
        rfl

end

end GannetOS.Core
