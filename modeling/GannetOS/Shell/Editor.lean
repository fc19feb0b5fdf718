/-
The line editor of `shell/shell.c` as an editor of two lists.

`shell_handle_char` and `shell_handle_key` keep the line in `buf`, with `buf_len` and `buf_cur`; insertion and the two
deletions shift the tail of the array. `edit` is what the same events do to `CursorLine`, the text left and right of the
cursor; its capacity is `CMD_BUF_SIZE - 1`.

- `editor_refines`: from an empty line, after any characters, backspaces, LEFT, RIGHT, HOME, END and DEL, the cursor is in
  the line, the line in `buf`, and the two halves of the line are those of the abstract editor.
-/
import GannetOS.Core.CursorLine
import GannetOS.Shell.Input

namespace GannetOS.Shell

open GannetOS.Core

/-- the line of `CMD_BUF_SIZE - 1` characters at most -/
abbrev EditLine := CursorLine UInt8 (cmdBufSize - 1)

/-- what an event does to the line; Enter, UP and DOWN are not edits -/
def edit (l : EditLine) : Input.Op → EditLine
  | .char c => if c = 8 then l.backspace else l.insert c
  | .key .left => l.moveLeft
  | .key .right => l.moveRight
  | .key .home => l.home
  | .key .end => l.end
  | .key .del => l.delete
  | .key .up | .key .down | .go _ => l

/-- characters, backspace, LEFT, RIGHT, HOME, END and DEL -/
def Input.IsEdit : Input.Op → Prop
  | .char c => c ≠ 10
  | .key k => k ≠ .up ∧ k ≠ .down
  | .go _ => False

/-- the state's line is `l` -/
def Input.HoldsLine (s : Input) (l : EditLine) : Prop := Holds s.buf s.len s.cur l

namespace Input

variable {s : Input} {l : EditLine}

theorem HoldsLine.char (h : s.HoldsLine l) {c : UInt8} (hc : c ≠ 10) :
    (s.shellHandleChar c).HoldsLine (edit l (.char c)) := by
  simp only [shellHandleChar, if_neg hc, edit]
  by_cases h8 : c = 8
  · rw [if_pos h8, if_pos h8]
    split_ifs with hpos
    · exact Holds.backspace h hpos
    · rw [Holds.backspace_start h hpos]
      exact h
  · rw [if_neg h8, if_neg h8]
    split_ifs with hroom
    · exact Holds.insert h hroom c
    · rw [Holds.insert_full h hroom]
      exact h

theorem HoldsLine.key (h : s.HoldsLine l) {k : Key} (hk : k ≠ .up ∧ k ≠ .down) :
    (s.shellHandleKey k).HoldsLine (edit l (.key k)) := by
  cases k with
  | left =>
    have hmove := Holds.moveLeft h
    simp only [shellHandleKey]
    split_ifs with hpos
    · rw [if_pos hpos] at hmove
      exact hmove
    · rw [if_neg hpos] at hmove
      exact hmove
  | right =>
    have hmove := Holds.moveRight h
    simp only [shellHandleKey]
    split_ifs with hlt
    · rw [if_pos hlt] at hmove
      exact hmove
    · rw [if_neg hlt] at hmove
      exact hmove
  | home => exact Holds.home h
  | «end» => exact Holds.end h
  | del =>
    simp only [shellHandleKey, edit]
    split_ifs with hlt
    · exact Holds.delete h hlt
    · rw [Holds.delete_end h hlt]
      exact h
  | up => exact absurd rfl hk.1
  | down => exact absurd rfl hk.2

theorem HoldsLine.step (h : s.HoldsLine l) {op : Op} (hop : IsEdit op) : (s.step op).2.HoldsLine (edit l op) := by
  cases op with
  | char c => exact h.char hop
  | key k => exact h.key hop
  | go m => exact absurd hop id

theorem HoldsLine.run (h : s.HoldsLine l) (ops : List Op) (hops : ∀ op ∈ ops, IsEdit op) :
    (runOps Input.step s ops).HoldsLine (ops.foldl edit l) := by
  induction ops generalizing s l with
  | nil => exact h
  | cons op ops ih =>
    exact ih (h.step (hops op List.mem_cons_self)) fun o ho => hops o (List.mem_cons_of_mem op ho)

theorem line_empty (hlen : s.len = 0) (hcur : s.cur = 0) : s.HoldsLine CursorLine.empty :=
  ⟨hcur, hlen, fun i hi => absurd hi (Nat.not_lt_zero i)⟩

/-- **The line editor is the editor of two lists.** From an empty line and for every sequence of edits,
`0 ≤ buf_cur ≤ buf_len ≤ 255`, and what stands before and behind the cursor in `buf` is what the same edits make of a pair
of lists that takes no more than 255 characters. -/
theorem editor_refines (s : Input) (hlen : s.len = 0) (hcur : s.cur = 0) (ops : List Op) (hops : ∀ op ∈ ops, IsEdit op) :
    let t := runOps step s ops
    let l := ops.foldl edit CursorLine.empty
    (0 ≤ t.cur ∧ t.cur ≤ t.len ∧ t.len ≤ 255) ∧
    (between t.buf 0 t.cur, between t.buf t.cur t.len) = (l.left, l.right) := by
  have h := HoldsLine.run (line_empty hlen hcur) ops hops
  exact ⟨Holds.bounds h, Prod.ext (Holds.between_left h) (Holds.between_right h)⟩

/-- `lx`, backspace, `s`, HOME, `e`, DEL, END -/
def someEdits : List Op :=
  [Op.char 108, Op.char 120, Op.char 8, Op.char 115, Op.key .home, Op.char 101, Op.key .del, Op.key .end]

theorem editor_refines_some :
    between (runOps step init someEdits).buf 0 (runOps step init someEdits).cur = [101, 115] ∧
    between (runOps step init someEdits).buf (runOps step init someEdits).cur (runOps step init someEdits).len = [] := by
  have h := (editor_refines init rfl rfl someEdits (by
    intro op hop
    simp only [someEdits, List.mem_cons, List.not_mem_nil, or_false] at hop
    rcases hop with rfl | rfl | rfl | rfl | rfl | rfl | rfl | rfl <;> simp [IsEdit])).2
  exact ⟨congrArg Prod.fst h, congrArg Prod.snd h⟩

end Input

end GannetOS.Shell
