/-
The text grid of `kernel/ui/terminal.c`: 80 columns, 40 rows, a cursor.

`cells` is `term_buf` with `term_fg`, row after row. `putchar` writes at the cursor and moves it; behind the last row the
whole grid moves up and the cursor stays in the last row. What draws the grid on the framebuffer (`terminal_render`,
`terminal_dirty`) is left out; `terminal_scroll_reset` does nothing.

- `puts_drawable`: text that ends before the last cell is written where the cursor is, and nothing else changes;
- `InGrid.putchar`, `putchar_inGrid`: the cursor stays in the grid, and a drawable character brings it back there.
-/
import Mathlib

namespace GannetOS.Ui

/-- `TERMINAL_COLS` -/
def cols : ℕ := 80

/-- `TERMINAL_ROWS` -/
def rows : ℕ := 40

def white : UInt32 := 0xFFFFFF
def lightGreen : UInt32 := 0x66FF66
def lightBlue : UInt32 := 0x6666FF

structure Cell where
  char : UInt8
  fg : UInt32
deriving DecidableEq

/-- a cell as `terminal_init` leaves it -/
def blank : Cell := ⟨32, white⟩

structure Terminal where
  cells : ℕ → Cell
  /-- `cursor_x` -/
  x : ℕ
  /-- `cursor_y` -/
  y : ℕ

namespace Terminal

/-- `terminal_init`, `terminal_clear` -/
def clear : Terminal := ⟨fun _ => blank, 0, 0⟩

/-- every row moves up by one, the last one is blank -/
def scroll (t : Terminal) : Terminal where
  cells i := if i < (rows - 1) * cols then t.cells (i + cols) else if i < rows * cols then blank else t.cells i
  x := t.x
  y := rows - 1

/-- what a character does before the grid is scrolled -/
def place (t : Terminal) (c : UInt8) (attr : UInt32) : Terminal :=
  if c = 10 then { t with x := 0, y := t.y + 1 }
  else if c = 13 then { t with x := 0 }
  else if c = 8 then
    if 0 < t.x then
      let idx := t.y * cols + (t.x - 1)
      { t with x := t.x - 1, cells := Function.update t.cells idx { t.cells idx with char := 32 } }
    else t
  else
    let idx := t.y * cols + t.x
    let cells := if idx < cols * rows then Function.update t.cells idx ⟨c, attr⟩ else t.cells
    if cols ≤ t.x + 1 then ⟨cells, 0, t.y + 1⟩ else ⟨cells, t.x + 1, t.y⟩

/-- `terminal_putchar` -/
def putchar (t : Terminal) (c : UInt8) (attr : UInt32) : Terminal :=
  let t := t.place c attr
  if rows ≤ t.y then t.scroll else t

/-- `terminal_puts` -/
def puts (t : Terminal) (text : List UInt8) (attr : UInt32) : Terminal := text.foldl (fun t c => t.putchar c attr) t

/-- `terminal_set_cursor` -/
def setCursor (t : Terminal) (x y : ℕ) : Terminal := { t with x := x, y := y }

/-- `terminal_write_at` -/
def writeAt (t : Terminal) (x y : ℕ) (c : UInt8) (attr : UInt32) : Terminal :=
  if x < cols ∧ y < rows then { t with cells := Function.update t.cells (y * cols + x) ⟨c, attr⟩ } else t

/-- the cursor as a cell number -/
def pos (t : Terminal) : ℕ := t.y * cols + t.x

/-- the cursor is on a cell -/
structure InGrid (t : Terminal) : Prop where
  x : t.x < cols
  y : t.y < rows

/-- a character that is drawn and not obeyed, and can stand in a string -/
def Drawable (c : UInt8) : Prop := c ≠ 0 ∧ c ≠ 8 ∧ c ≠ 10 ∧ c ≠ 13

instance (c : UInt8) : Decidable (Drawable c) := inferInstanceAs (Decidable (_ ∧ _))

variable {t : Terminal} {c : UInt8} {attr : UInt32}

/-! ## The cursor -/

theorem putchar_inGrid_of_x (h : (t.place c attr).x < cols) : (t.putchar c attr).InGrid := by
  unfold putchar
  dsimp only
  split_ifs with hrows
  · exact ⟨h, Nat.lt_of_sub_eq_succ rfl⟩
  · exact ⟨h, not_le.1 hrows⟩

/-- wherever the cursor was -/
theorem putchar_inGrid (hc : Drawable c) : (t.putchar c attr).InGrid := by
  obtain ⟨-, h8, h10, h13⟩ := hc
  apply putchar_inGrid_of_x
  simp only [place, if_neg h8, if_neg h10, if_neg h13]
  by_cases hcols : cols ≤ t.x + 1
  · rw [if_pos hcols]
    exact Nat.zero_lt_succ _
  · rw [if_neg hcols]
    exact not_le.1 hcols

theorem InGrid.putchar (h : t.InGrid) (c : UInt8) (attr : UInt32) : (t.putchar c attr).InGrid := by
  have hx := h.x
  have hcols : 0 < cols := by decide
  apply putchar_inGrid_of_x
  simp only [place]
  split_ifs with h10 h13 h8 hpos hlast
  · exact hcols
  · exact hcols
  · exact (Nat.sub_le _ _).trans_lt hx
  · exact hx
  · exact hcols
  · exact hcols
  · exact not_le.1 hlast
  · exact not_le.1 hlast

theorem puts_cons (t : Terminal) (c : UInt8) (text : List UInt8) (attr : UInt32) :
    t.puts (c :: text) attr = (t.putchar c attr).puts text attr := rfl

theorem InGrid.puts (h : t.InGrid) (text : List UInt8) (attr : UInt32) : (t.puts text attr).InGrid := by
  induction text generalizing t with
  | nil => exact h
  | cons c text ih => exact ih (h.putchar c attr)

/-! ## Text inside the grid -/

/-- the cells with a text of one colour from `p` on -/
def drawn (cells : ℕ → Cell) (p : ℕ) (text : List UInt8) (attr : UInt32) : ℕ → Cell := fun i =>
  if p ≤ i ∧ i < p + text.length then ⟨text.getD (i - p) 0, attr⟩ else cells i

theorem putchar_drawable (h : t.InGrid) (hc : Drawable c) (hroom : t.pos + 1 < cols * rows) :
    t.putchar c attr =
      ⟨Function.update t.cells t.pos ⟨c, attr⟩, (t.pos + 1) % cols, (t.pos + 1) / cols⟩ := by
  obtain ⟨-, h8, h10, h13⟩ := hc
  have hx : t.x < 80 := h.x
  have hroom : t.y * 80 + t.x + 1 < 80 * 40 := hroom
  have hidx : t.y * cols + t.x < cols * rows := Nat.lt_of_succ_lt hroom
  by_cases hlast : cols ≤ t.x + 1
  · have hplace : t.place c attr = ⟨Function.update t.cells t.pos ⟨c, attr⟩, 0, t.y + 1⟩ := by
      simp only [place, if_neg h8, if_neg h10, if_neg h13, if_pos hidx, if_pos hlast, pos]
    have hlast : 80 ≤ t.x + 1 := hlast
    have hy : ¬ rows ≤ t.y + 1 := by rw [rows]; omega
    rw [putchar, hplace]
    simp only [if_neg hy, Terminal.mk.injEq, true_and, pos, cols]
    omega
  · have hplace : t.place c attr = ⟨Function.update t.cells t.pos ⟨c, attr⟩, t.x + 1, t.y⟩ := by
      simp only [place, if_neg h8, if_neg h10, if_neg h13, if_pos hidx, if_neg hlast, pos]
    have hlast : ¬ 80 ≤ t.x + 1 := hlast
    rw [putchar, hplace]
    simp only [if_neg (not_le.2 h.y), Terminal.mk.injEq, true_and, pos, cols]
    omega

/-- the cursor from its cell number -/
theorem InGrid.pos (h : t.InGrid) : t.pos % cols = t.x ∧ t.pos / cols = t.y := by
  have hx : t.x < 80 := h.x
  simp only [Terminal.pos, cols]
  omega

theorem pos_mk (cells : ℕ → Cell) (p : ℕ) : pos ⟨cells, p % cols, p / cols⟩ = p := Nat.div_add_mod' p cols

theorem puts_drawable (h : t.InGrid) {text : List UInt8} (htext : ∀ c ∈ text, Drawable c)
    (hroom : t.pos + text.length < cols * rows) :
    t.puts text attr =
      ⟨drawn t.cells t.pos text attr, (t.pos + text.length) % cols, (t.pos + text.length) / cols⟩ := by
  induction text generalizing t with
  | nil =>
    have hcells : drawn t.cells t.pos [] attr = t.cells := by
      funext i
      rw [drawn, if_neg (by simp)]
    rw [hcells, List.length_nil, Nat.add_zero, h.pos.1, h.pos.2]
    rfl
  | cons c text ih =>
    rw [List.length_cons] at hroom
    have hput : t.putchar c attr = _ := putchar_drawable h (htext c List.mem_cons_self) (by omega)
    have hnext : (t.putchar c attr).pos = t.pos + 1 := by rw [hput, pos_mk]
    rw [puts_cons, ih (h.putchar c attr) (fun d hd => htext d (List.mem_cons_of_mem c hd)) (by omega), hnext, hput,
      List.length_cons, show t.pos + 1 + text.length = t.pos + (text.length + 1) by omega]
    congr 1
    funext i
    simp only [drawn, List.length_cons]
    rcases lt_trichotomy i t.pos with hi | hi | hi
    · rw [if_neg (by omega), if_neg (by omega), Function.update_of_ne (by omega)]
    · subst hi
      rw [if_neg (by omega), if_pos (by omega), Function.update_self, Nat.sub_self]
      rfl
    · obtain ⟨k, rfl⟩ : ∃ k, i = t.pos + 1 + k := ⟨i - (t.pos + 1), by omega⟩
      rw [Function.update_of_ne (by omega), show t.pos + 1 + k - (t.pos + 1) = k by omega,
        show t.pos + 1 + k - t.pos = k + 1 by omega, List.getD_cons_succ]
      by_cases hk : k < text.length
      · rw [if_pos (by omega), if_pos (by omega)]
      · rw [if_neg (by omega), if_neg (by omega)]

end Terminal

end GannetOS.Ui
