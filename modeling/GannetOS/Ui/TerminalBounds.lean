/-
The array accesses of `kernel/ui/terminal.c`.

`Traced` is the terminal with a record of every index that was used on `term_buf` or `term_fg` and of the cursor after every
`terminal_putchar`. The functions are those of the code with their loops; `run_shows` says that without the record they are
those of `Ui.Terminal`. An index behind the arrays comes from one place: `'\b'` takes the cursor as it is, and
`terminal_set_cursor` puts it anywhere (`clean_putchar_iff`).

- `terminal_in_range_iff`: after every sequence of calls, all indices are in range and the cursor was in the grid after every
  character, if and only if no `'\b'` is the first character after a `terminal_set_cursor` to a place behind column 80, or
  behind the last row and not in column 0;
- `backspace_behind_grid`: such a sequence.
-/
import GannetOS.Core.Loop
import GannetOS.Ui.Terminal

namespace GannetOS.Ui

open GannetOS.Core List
open Function (update update_apply update_of_ne update_self)

/-- the latest first -/
structure Traced where
  term : Terminal
  /-- the indices used on `term_buf` and `term_fg` -/
  used : List ℕ
  /-- the cursor after every `terminal_putchar` -/
  stops : List (ℕ × ℕ)

namespace Traced

/-! ## The code -/

/-- an element is read or written -/
def use (s : Traced) (i : ℕ) : Traced := { s with used := i :: s.used }

/-- `term_buf[i] = c` -/
def setBuf (s : Traced) (i : ℕ) (c : UInt8) : Traced :=
  { s.use i with term := { s.term with cells := update s.term.cells i { s.term.cells i with char := c } } }

/-- `term_fg[i] = attr` -/
def setFg (s : Traced) (i : ℕ) (attr : UInt32) : Traced :=
  { s.use i with term := { s.term with cells := update s.term.cells i { s.term.cells i with fg := attr } } }

/-- both -/
def setCell (s : Traced) (i : ℕ) (c : UInt8) (attr : UInt32) : Traced := (s.setBuf i c).setFg i attr

/-- `term_buf[dst] = term_buf[src]; term_fg[dst] = term_fg[src]` -/
def copyCell (s : Traced) (dst src : ℕ) : Traced :=
  let s := (s.use src).setBuf dst (s.term.cells src).char
  (s.use src).setFg dst (s.term.cells src).fg

def moveTo (s : Traced) (x y : ℕ) : Traced := { s with term := s.term.setCursor x y }

/-- `n` cells from `start` on are made blank -/
def clearCells (s : Traced) (start n : ℕ) : Traced := (List.range n).foldl (fun s k => s.setCell (start + k) 32 white) s

/-- `terminal_init`, `terminal_clear` -/
def clear (s : Traced) : Traced := (s.clearCells 0 (cols * rows)).moveTo 0 0

/-- the rows are moved up -/
def moveRows (s : Traced) : Traced :=
  (List.range (rows - 1)).foldl (fun s k =>
    let y := k + 1
    (List.range cols).foldl (fun s x => s.copyCell ((y - 1) * cols + x) (y * cols + x)) s) s

def scroll (s : Traced) : Traced := (s.moveRows.clearCells ((rows - 1) * cols) cols).moveTo s.term.x (rows - 1)

/-- a character is drawn at the cursor -/
def draw (s : Traced) (c : UInt8) (attr : UInt32) : Traced :=
  let idx := s.term.y * cols + s.term.x
  if idx < cols * rows then s.setCell idx c attr else s

/-- the cursor moves on -/
def advance (s : Traced) : Traced :=
  let s := s.moveTo (s.term.x + 1) s.term.y
  if cols ≤ s.term.x then s.moveTo 0 (s.term.y + 1) else s

/-- what a character does before the grid is scrolled -/
def place (s : Traced) (c : UInt8) (attr : UInt32) : Traced :=
  if c = 10 then s.moveTo 0 (s.term.y + 1)
  else if c = 13 then s.moveTo 0 s.term.y
  else if c = 8 then
    if 0 < s.term.x then (s.moveTo (s.term.x - 1) s.term.y).setBuf (s.term.y * cols + (s.term.x - 1)) 32 else s
  else (s.draw c attr).advance

/-- the grid is scrolled if the cursor is behind it -/
def settle (s : Traced) : Traced := if rows ≤ s.term.y then s.scroll else s

/-- the cursor is recorded -/
def mark (s : Traced) : Traced := { s with stops := (s.term.x, s.term.y) :: s.stops }

/-- `terminal_putchar` -/
def putchar (s : Traced) (c : UInt8) (attr : UInt32) : Traced := (s.place c attr).settle.mark

/-- `terminal_puts` -/
def puts (s : Traced) (text : List UInt8) (attr : UInt32) : Traced := text.foldl (fun s c => s.putchar c attr) s

/-- `terminal_set_cursor` -/
def setCursor (s : Traced) (x y : UInt8) : Traced := s.moveTo x.toNat y.toNat

/-- `terminal_write_at` -/
def writeAt (s : Traced) (x y c : UInt8) (attr : UInt32) : Traced :=
  if x.toNat < cols ∧ y.toNat < rows then s.setCell (y.toNat * cols + x.toNat) c attr else s

end Traced

inductive TermCall where
  | putchar (c : UInt8) (attr : UInt32)
  | puts (text : List UInt8) (attr : UInt32)
  | clear
  | setCursor (x y : UInt8)
  | writeAt (x y c : UInt8) (attr : UInt32)

/-- a call on the grid of `Ui.Terminal` -/
def Terminal.call (t : Terminal) : TermCall → Terminal
  | .putchar c attr => t.putchar c attr
  | .puts text attr => t.puts text attr
  | .clear => .clear
  | .setCursor x y => t.setCursor x.toNat y.toNat
  | .writeAt x y c attr => t.writeAt x.toNat y.toNat c attr

namespace Traced

def call (s : Traced) : TermCall → Traced
  | .putchar c attr => s.putchar c attr
  | .puts text attr => s.puts text attr
  | .clear => s.clear
  | .setCursor x y => s.setCursor x y
  | .writeAt x y c attr => s.writeAt x y c attr

/-- the calls after `terminal_init`; `t` is what memory holds before -/
def run (t : Terminal) (calls : List TermCall) : Traced := calls.foldl call (clear ⟨t, [], []⟩)

variable {s s' : Traced} {t : Terminal}

/-! ## The record -/

/-- from `s` to `s'` only indices in range were used, and no character was put -/
structure InRange (s s' : Traced) : Prop where
  used : ∃ l, s'.used = l ++ s.used ∧ ∀ i ∈ l, i < cols * rows
  stops : s'.stops = s.stops

theorem InRange.refl (s : Traced) : InRange s s := ⟨⟨[], rfl, fun _ h => absurd h not_mem_nil⟩, rfl⟩

theorem InRange.trans {s s' s'' : Traced} (h : InRange s s') (h' : InRange s' s'') : InRange s s'' := by
  obtain ⟨l, hl, hin⟩ := h.used
  obtain ⟨l', hl', hin'⟩ := h'.used
  refine ⟨⟨l' ++ l, by rw [hl', hl, append_assoc], fun i hi => ?_⟩, h'.stops.trans h.stops⟩
  exact (List.mem_append.1 hi).elim (hin' i) (hin i)

variable {i : ℕ} {p : Option (UInt8 × UInt8)}

theorem inRange_use (hi : i < cols * rows) : InRange s (s.use i) :=
  ⟨⟨[i], rfl, fun _ hj => List.mem_singleton.1 hj ▸ hi⟩, rfl⟩

theorem inRange_moveTo (x y : ℕ) : InRange s (s.moveTo x y) := ⟨(InRange.refl s).used, rfl⟩

theorem inRange_setBuf (hi : i < cols * rows) (c : UInt8) : InRange s (s.setBuf i c) :=
  ⟨(inRange_use hi).used, rfl⟩

theorem inRange_setFg (hi : i < cols * rows) (attr : UInt32) : InRange s (s.setFg i attr) :=
  ⟨(inRange_use hi).used, rfl⟩

theorem inRange_setCell (hi : i < cols * rows) (c : UInt8) (attr : UInt32) : InRange s (s.setCell i c attr) :=
  (inRange_setBuf hi c).trans (inRange_setFg hi attr)

theorem inRange_copyCell {dst src : ℕ} (hdst : dst < cols * rows) (hsrc : src < cols * rows) :
    InRange s (s.copyCell dst src) :=
  ((inRange_use hsrc).trans (inRange_setBuf hdst _)).trans ((inRange_use hsrc).trans (inRange_setFg hdst _))

theorem inRange_clearCells {start n : ℕ} (h : start + n ≤ cols * rows) : InRange s (s.clearCells start n) :=
  foldl_range (I := fun _ s' => InRange s s') (.refl s) fun k s' hk hs => hs.trans (inRange_setCell (by omega) _ _)

theorem inRange_clear : InRange s s.clear := (inRange_clearCells (Nat.zero_add _).le).trans (inRange_moveTo 0 0)

theorem inRange_moveRows : InRange s s.moveRows := by
  refine foldl_range (I := fun _ s' => InRange s s') (.refl s) fun k s' hk h => ?_
  refine h.trans (foldl_range (I := fun _ s'' => InRange s' s'') (.refl s') fun x s'' hx h' => ?_)
  apply h'.trans (inRange_copyCell _ _)
  · rw [cols, rows] at *
    omega
  · rw [cols, rows] at *
    omega

theorem inRange_scroll : InRange s s.scroll :=
  (inRange_moveRows.trans (inRange_clearCells (by decide))).trans (inRange_moveTo _ _)

theorem inRange_settle : InRange s s.settle := by
  unfold settle
  split_ifs
  · exact inRange_scroll
  · exact .refl s

theorem inRange_draw (c : UInt8) (attr : UInt32) : InRange s (s.draw c attr) := by
  unfold draw
  dsimp only
  split_ifs with h
  · exact inRange_setCell h c attr
  · exact .refl s

theorem inRange_advance : InRange s s.advance := by
  unfold advance
  dsimp only
  split_ifs
  · exact (inRange_moveTo _ _).trans (inRange_moveTo _ _)
  · exact inRange_moveTo _ _

theorem inRange_writeAt (x y c : UInt8) (attr : UInt32) : InRange s (s.writeAt x y c attr) := by
  unfold writeAt
  split_ifs with h
  · apply inRange_setCell
    rw [cols, rows] at *
    omega
  · exact .refl s

/-- everything went well -/
structure Clean (s : Traced) : Prop where
  used : ∀ i ∈ s.used, i < cols * rows
  stops : ∀ p ∈ s.stops, p.1 < cols ∧ p.2 < rows

theorem InRange.clean_iff (h : InRange s s') : s'.Clean ↔ s.Clean := by
  obtain ⟨⟨l, hl, hin⟩, hstops⟩ := h
  constructor
  · rintro ⟨hused, hs⟩
    refine ⟨fun i hi => hused i ?_, hstops ▸ hs⟩
    rw [hl]
    exact mem_append_right l hi
  · rintro ⟨hused, hs⟩
    refine ⟨fun i hi => ?_, hstops ▸ hs⟩
    rw [hl] at hi
    exact (List.mem_append.1 hi).elim (hin i) (hused i)

/-! ## One character -/

/-- a cursor that `'\b'` can be put at -/
def BackOk (x y : ℕ) : Prop := x = 0 ∨ x ≤ cols ∧ y < rows

instance (x y : ℕ) : Decidable (BackOk x y) := inferInstanceAs (Decidable (_ ∨ _))

theorem BackOk.le {x y : ℕ} (h : BackOk x y) : x ≤ cols := by
  rcases h with rfl | h
  · exact Nat.zero_le _
  · exact h.1

variable {c : UInt8} {attr : UInt32}

theorem place_inRange (h : c = 8 → BackOk s.term.x s.term.y) : InRange s (s.place c attr) := by
  unfold place
  split_ifs with h10 h13 h8 hpos
  · exact inRange_moveTo _ _
  · exact inRange_moveTo _ _
  · apply (inRange_moveTo _ _).trans (inRange_setBuf _ _)
    have hback := h h8
    rw [BackOk] at hback
    rw [cols, rows] at *
    omega
  · exact .refl s
  · exact (inRange_draw c attr).trans inRange_advance

/-! ## The grid -/

/-- without the record -/
structure Shows (s : Traced) (t : Terminal) : Prop where
  x : s.term.x = t.x
  y : s.term.y = t.y
  cells : ∀ i < cols * rows, s.term.cells i = t.cells i

theorem moveTo_cells (s : Traced) (x y : ℕ) : (s.moveTo x y).term.cells = s.term.cells := rfl

theorem setCell_cells (s : Traced) (i : ℕ) (c : UInt8) (attr : UInt32) :
    (s.setCell i c attr).term.cells = update s.term.cells i ⟨c, attr⟩ := by
  funext j
  by_cases h : j = i
  · subst h
    simp [setCell, setBuf, setFg]
  · simp [setCell, setBuf, setFg, h]

theorem copyCell_cells (s : Traced) (dst src : ℕ) :
    (s.copyCell dst src).term.cells = update s.term.cells dst (s.term.cells src) := by
  funext j
  by_cases h : j = dst
  · subst h
    by_cases hsrc : src = j
    · subst hsrc
      simp [copyCell, use, setBuf, setFg]
    · simp [copyCell, use, setBuf, setFg, hsrc]
  · simp [copyCell, use, setBuf, setFg, h]

theorem clearCells_cells (s : Traced) (start n i : ℕ) :
    (s.clearCells start n).term.cells i = if start ≤ i ∧ i < start + n then blank else s.term.cells i := by
  refine foldl_range (I := fun k (s' : Traced) =>
    s'.term.cells i = if start ≤ i ∧ i < start + k then blank else s.term.cells i) ?_ ?_
  · rw [if_neg (by omega)]
  · intro k s' _ h
    rw [setCell_cells, update_apply, h]
    by_cases hi : i = start + k
    · rw [if_pos hi, if_pos (by omega)]
      rfl
    · rw [if_neg hi]
      exact if_congr (by omega) rfl rfl

theorem moveRows_cells (s : Traced) (i : ℕ) :
    s.moveRows.term.cells i = if i < (rows - 1) * cols then s.term.cells (i + cols) else s.term.cells i := by
  -- the cells below the one that is copied next have moved
  let Moved (p : ℕ) (s' : Traced) : Prop :=
    ∀ i, s'.term.cells i = if i < p then s.term.cells (i + cols) else s.term.cells i
  suffices h : Moved ((rows - 1) * cols) s.moveRows from h i
  refine foldl_range (I := fun k s' => Moved (k * cols) s') (fun i => (if_neg (by omega)).symm) fun k s' _ h => ?_
  rw [Nat.succ_mul]
  refine foldl_range (I := fun x s'' => Moved (k * cols + x) s'') h fun x s'' _ h' => ?_
  intro i
  have hdst : (k + 1 - 1) * cols + x = k * cols + x := by rw [Nat.add_sub_cancel]
  have hsrc : s''.term.cells ((k + 1) * cols + x) = s.term.cells ((k + 1) * cols + x) := by
    rw [h', if_neg (by rw [Nat.succ_mul]; omega)]
  rw [copyCell_cells, hdst, update_apply, hsrc, h']
  by_cases hi : i = k * cols + x
  · rw [if_pos hi, if_pos (by omega), hi, Nat.succ_mul, Nat.add_right_comm]
  · rw [if_neg hi]
    exact if_congr (by omega) rfl rfl

theorem Shows.scroll (h : Shows s t) : Shows s.scroll t.scroll where
  x := h.x
  y := rfl
  cells i hi := by
    rw [Traced.scroll, moveTo_cells, clearCells_cells, moveRows_cells]
    unfold Terminal.scroll
    dsimp only
    by_cases hlast : i < (rows - 1) * cols
    · rw [if_neg (by omega), if_pos hlast, if_pos hlast, h.cells]
      rw [cols, rows] at *
      omega
    · have hgrid : i < rows * cols := by rwa [Nat.mul_comm]
      have hrow : (rows - 1) * cols ≤ i ∧ i < (rows - 1) * cols + cols := ⟨not_lt.1 hlast, hgrid⟩
      rw [if_pos hrow, if_neg hlast, if_pos hgrid]

theorem Shows.setBuf (h : Shows s t) (i : ℕ) (c : UInt8) :
    Shows (s.setBuf i c) { t with cells := update t.cells i { t.cells i with char := c } } where
  x := h.x
  y := h.y
  cells j hj := by
    show update s.term.cells i _ j = update t.cells i _ j
    by_cases hji : j = i
    · subst hji
      rw [update_self, update_self, h.cells j hj]
    · rw [update_of_ne hji, update_of_ne hji, h.cells j hj]

theorem Shows.setCell (h : Shows s t) (i : ℕ) (c : UInt8) (attr : UInt32) :
    Shows (s.setCell i c attr) { t with cells := update t.cells i ⟨c, attr⟩ } where
  x := h.x
  y := h.y
  cells j hj := by
    rw [setCell_cells]
    dsimp only
    by_cases hji : j = i
    · rw [hji, update_self, update_self]
    · rw [update_of_ne hji, update_of_ne hji, h.cells j hj]

theorem Shows.moveTo (h : Shows s t) (x y : ℕ) : Shows (s.moveTo x y) (t.setCursor x y) := ⟨rfl, rfl, h.cells⟩

theorem Shows.draw (h : Shows s t) (c : UInt8) (attr : UInt32) :
    Shows (s.draw c attr) { t with
      cells :=
        if t.y * cols + t.x < cols * rows then update t.cells (t.y * cols + t.x) ⟨c, attr⟩ else t.cells } := by
  unfold Traced.draw
  dsimp only
  rw [h.x, h.y]
  split_ifs
  · exact h.setCell _ c attr
  · exact h

theorem Shows.advance (h : Shows s t) :
    Shows s.advance (if cols ≤ t.x + 1 then t.setCursor 0 (t.y + 1) else t.setCursor (t.x + 1) t.y) := by
  have hmoved := h.moveTo (t.x + 1) t.y
  unfold Traced.advance
  dsimp only
  rw [h.x, h.y, hmoved.x, hmoved.y, Terminal.setCursor]
  dsimp only
  by_cases hlast : cols ≤ t.x + 1
  · rw [if_pos hlast, if_pos hlast]
    exact hmoved.moveTo _ _
  · rw [if_neg hlast, if_neg hlast]
    exact hmoved

theorem Shows.place (h : Shows s t) (c : UInt8) (attr : UInt32) : Shows (s.place c attr) (t.place c attr) := by
  have hx := h.x
  have hy := h.y
  unfold Traced.place Terminal.place
  by_cases h10 : c = 10
  · rw [if_pos h10, if_pos h10, hy]
    exact h.moveTo _ _
  by_cases h13 : c = 13
  · rw [if_neg h10, if_neg h10, if_pos h13, if_pos h13, hy]
    exact h.moveTo _ _
  by_cases h8 : c = 8
  · rw [if_neg h10, if_neg h10, if_neg h13, if_neg h13, if_pos h8, if_pos h8, hx, hy]
    split_ifs with hpos
    · exact (h.moveTo _ _).setBuf _ _
    · exact h
  · rw [if_neg h10, if_neg h10, if_neg h13, if_neg h13, if_neg h8, if_neg h8]
    exact (h.draw c attr).advance

theorem Shows.putchar (h : Shows s t) (c : UInt8) (attr : UInt32) : Shows (s.putchar c attr) (t.putchar c attr) := by
  have hplace := h.place c attr
  suffices hsettle : Shows (s.place c attr).settle (t.putchar c attr) from ⟨hsettle.x, hsettle.y, hsettle.cells⟩
  unfold settle Terminal.putchar
  dsimp only
  rw [hplace.y]
  split_ifs
  · exact hplace.scroll
  · exact hplace

theorem Shows.puts (h : Shows s t) (text : List UInt8) : Shows (s.puts text attr) (t.puts text attr) := by
  induction text generalizing s t with
  | nil => exact h
  | cons c text ih => exact ih (h.putchar c attr)

theorem shows_clear (s : Traced) : Shows s.clear .clear where
  x := rfl
  y := rfl
  cells i hi := by
    rw [Traced.clear, moveTo_cells, clearCells_cells, if_pos ⟨Nat.zero_le i, by rwa [Nat.zero_add]⟩]
    rfl

theorem Shows.writeAt (h : Shows s t) (x y c : UInt8) :
    Shows (s.writeAt x y c attr) (t.writeAt x.toNat y.toNat c attr) := by
  unfold Traced.writeAt Terminal.writeAt
  split_ifs
  · exact h.setCell _ _ _
  · exact h

theorem Shows.call (h : Shows s t) (call : TermCall) : Shows (s.call call) (t.call call) := by
  cases call with
  | putchar c attr => exact h.putchar c attr
  | puts text attr => exact h.puts text
  | clear => exact shows_clear s
  | setCursor x y => exact h.moveTo _ _
  | writeAt x y c attr => exact h.writeAt x y c

/-- **Without the record the calls are those on the grid of `Ui.Terminal`.** An access outside the arrays is assumed not to
hit `term_buf`, `term_fg` or the cursor. -/
theorem run_shows (t : Terminal) (calls : List TermCall) : Shows (run t calls) (calls.foldl Terminal.call .clear) := by
  suffices h : ∀ s t, Shows s t → Shows (calls.foldl call s) (calls.foldl Terminal.call t) from h _ _ (shows_clear _)
  induction calls with
  | nil => exact fun _ _ h => h
  | cons c calls ih => exact fun s t h => ih _ _ (h.call c)

theorem Shows.refl (s : Traced) : Shows s s.term := ⟨rfl, rfl, fun _ _ => rfl⟩

theorem Shows.inGrid (h : Shows s t) (ht : t.InGrid) : s.term.InGrid := ⟨h.x.trans_lt ht.x, h.y.trans_lt ht.y⟩

/-! ## What a character does to the record -/

theorem place_back (hpos : 0 < s.term.x) (attr : UInt32) :
    s.place 8 attr = (s.moveTo (s.term.x - 1) s.term.y).setBuf (s.term.y * cols + (s.term.x - 1)) 32 := by
  unfold place
  rw [if_neg (by decide), if_neg (by decide), if_pos rfl, if_pos hpos]

theorem clean_place_iff :
    (s.place c attr).Clean ↔ s.Clean ∧ (c = 8 → 0 < s.term.x → s.term.y * cols + (s.term.x - 1) < cols * rows) := by
  by_cases h : c = 8 ∧ 0 < s.term.x
  · obtain ⟨rfl, hpos⟩ := h
    rw [place_back hpos]
    constructor
    · rintro ⟨hused, hstops⟩
      exact ⟨⟨fun i hi => hused i (mem_cons_of_mem _ hi), hstops⟩, fun _ _ => hused _ mem_cons_self⟩
    · rintro ⟨hclean, hidx⟩
      exact ((inRange_moveTo _ _).trans (inRange_setBuf (hidx rfl hpos) _)).clean_iff.2 hclean
  · have hzero : c = 8 → s.term.x = 0 := fun h8 => Nat.eq_zero_of_not_pos fun hpos => h ⟨h8, hpos⟩
    rw [(place_inRange fun h8 => .inl (hzero h8)).clean_iff]
    exact ⟨fun hclean => ⟨hclean, fun h8 hpos => absurd ⟨h8, hpos⟩ h⟩, And.left⟩

theorem clean_mark_iff : s.mark.Clean ↔ s.Clean ∧ s.term.x < cols ∧ s.term.y < rows := by
  constructor
  · rintro ⟨hused, hstops⟩
    exact ⟨⟨hused, fun p hp => hstops p (mem_cons_of_mem _ hp)⟩, hstops _ mem_cons_self⟩
  · rintro ⟨hclean, hgrid⟩
    refine ⟨hclean.used, fun p hp => ?_⟩
    rcases List.mem_cons.1 hp with rfl | hp
    · exact hgrid
    · exact hclean.stops p hp

theorem putchar_x (t : Terminal) (c : UInt8) (attr : UInt32) : (t.putchar c attr).x = (t.place c attr).x := by
  unfold Terminal.putchar
  dsimp only
  split_ifs
  · rfl
  · rfl

/-- the cursor is in the grid afterwards -/
theorem putchar_inGrid_iff (t : Terminal) (c : UInt8) (attr : UInt32) :
    (t.putchar c attr).InGrid ↔ (c = 8 → t.x ≤ cols) := by
  have hcols : 0 < cols := by decide
  suffices hx : (t.place c attr).x < cols ↔ (c = 8 → t.x ≤ cols) by
    rw [← hx]
    exact ⟨fun h => putchar_x t c attr ▸ h.x, Terminal.putchar_inGrid_of_x⟩
  unfold Terminal.place
  by_cases h8 : c = 8
  · subst h8
    rw [if_neg (by decide), if_neg (by decide), if_pos rfl, forall_prop_of_true rfl]
    split_ifs with hpos
    · dsimp only
      omega
    · omega
  · refine iff_of_true ?_ fun h => absurd h h8
    simp only [if_neg h8]
    split_ifs with h10 h13 hidx hlast hlast <;> dsimp only <;> omega

/-- **A character goes well if and only if it is not a `'\b'` at a bad place.** -/
theorem clean_putchar_iff (s : Traced) (c : UInt8) (attr : UInt32) :
    (s.putchar c attr).Clean ↔ s.Clean ∧ (c = 8 → BackOk s.term.x s.term.y) := by
  have hshows := (Shows.refl s).putchar c attr
  have hgrid : (s.place c attr).settle.term.x < cols ∧ (s.place c attr).settle.term.y < rows ↔
      (c = 8 → s.term.x ≤ cols) := by
    rw [← putchar_inGrid_iff s.term c attr]
    exact ⟨fun h => ⟨hshows.x ▸ h.1, hshows.y ▸ h.2⟩, fun h => ⟨hshows.x.trans_lt h.x, hshows.y.trans_lt h.y⟩⟩
  rw [putchar, clean_mark_iff, inRange_settle.clean_iff, clean_place_iff, hgrid, and_assoc]
  refine and_congr_right fun _ => ?_
  rw [← forall_and]
  refine forall_congr' fun _ => ?_
  unfold BackOk cols rows
  omega

/-! ## Runs -/

theorem puts_cons (s : Traced) (c : UInt8) (text : List UInt8) (attr : UInt32) :
    s.puts (c :: text) attr = (s.putchar c attr).puts text attr := rfl

/-- what went wrong stays in the record -/
theorem clean_of_puts {text : List UInt8} (h : (s.puts text attr).Clean) : s.Clean := by
  induction text generalizing s with
  | nil => exact h
  | cons c text ih => exact ((clean_putchar_iff s c _).1 (ih h)).1

theorem clean_of_call {call : TermCall} (h : (s.call call).Clean) : s.Clean := by
  cases call with
  | putchar c attr => exact ((clean_putchar_iff s c attr).1 h).1
  | puts text attr => exact clean_of_puts h
  | clear => exact inRange_clear.clean_iff.1 h
  | setCursor x y => exact (inRange_moveTo _ _).clean_iff.1 h
  | writeAt x y c attr => exact (inRange_writeAt x y c attr).clean_iff.1 h

theorem clean_of_foldl {calls : List TermCall} (h : (calls.foldl call s).Clean) : s.Clean := by
  induction calls generalizing s with
  | nil => exact h
  | cons c calls ih => exact clean_of_call (ih h)

/-- from inside the grid every text goes well -/
theorem puts_of_inGrid (h : s.term.InGrid) (text : List UInt8) (attr : UInt32) :
    (s.puts text attr).term.InGrid ∧ ((s.puts text attr).Clean ↔ s.Clean) := by
  induction text generalizing s with
  | nil => exact ⟨h, Iff.rfl⟩
  | cons c text ih =>
    have hback : c = 8 → BackOk s.term.x s.term.y := fun _ => .inr ⟨h.x.le, h.y⟩
    obtain ⟨hgrid, hclean⟩ := ih (((Shows.refl s).putchar c attr).inGrid (h.putchar c attr))
    rw [puts_cons]
    exact ⟨hgrid, hclean.trans ((clean_putchar_iff s c attr).trans (and_iff_left hback))⟩

/-- `p` is where the cursor was set, if no character was put since: `c` is not a `'\b'` at a bad place -/
def CharOk (p : Option (UInt8 × UInt8)) (c : UInt8) : Prop := c = 8 → ∀ q ∈ p, BackOk q.1.toNat q.2.toNat

/-- every `'\b'` that comes right after the cursor was set -/
def BackspacesOk : Option (UInt8 × UInt8) → List TermCall → Prop
  | _, [] => True
  | p, .putchar c _ :: calls => CharOk p c ∧ BackspacesOk none calls
  | p, .puts [] _ :: calls => BackspacesOk p calls
  | p, .puts (c :: _) _ :: calls => CharOk p c ∧ BackspacesOk none calls
  | _, .clear :: calls => BackspacesOk none calls
  | _, .setCursor x y :: calls => BackspacesOk (some (x, y)) calls
  | p, .writeAt _ _ _ _ :: calls => BackspacesOk p calls

/-- the cursor is in the grid, or where it was set -/
def At (p : Option (UInt8 × UInt8)) (t : Terminal) : Prop := p.elim t.InGrid fun q => t.x = q.1.toNat ∧ t.y = q.2.toNat

theorem charOk_iff (h : At p t) : CharOk p c ↔ (c = 8 → BackOk t.x t.y) := by
  cases p with
  | none => exact iff_of_true (fun _ q hq => absurd hq (Option.not_mem_none q)) fun _ => .inr ⟨h.x.le, h.y⟩
  | some q =>
    have hx : t.x = q.1.toNat := h.1
    have hy : t.y = q.2.toNat := h.2
    rw [hx, hy]
    exact ⟨fun hc h8 => hc h8 q rfl, fun hc h8 q' hq' => Option.some.inj hq' ▸ hc h8⟩

/-- a text that is not empty -/
theorem puts_of_at (h : At p s.term) (c : UInt8) (text : List UInt8) (attr : UInt32) :
    ((s.puts (c :: text) attr).Clean ↔ s.Clean ∧ CharOk p c) ∧ (CharOk p c → At none (s.puts (c :: text) attr).term) := by
  rw [puts_cons, charOk_iff h, ← clean_putchar_iff s c attr]
  by_cases hback : c = 8 → BackOk s.term.x s.term.y
  · have hgrid : (s.term.putchar c attr).InGrid := (putchar_inGrid_iff _ _ _).2 fun h8 => (hback h8).le
    obtain ⟨hrest, hclean⟩ := puts_of_inGrid (((Shows.refl s).putchar c attr).inGrid hgrid) text attr
    exact ⟨hclean, fun _ => hrest⟩
  · refine ⟨iff_of_false (fun hclean => ?_) fun hclean => ?_, fun hc => absurd hc hback⟩
    · exact hback ((clean_putchar_iff s c attr).1 (clean_of_puts hclean)).2
    · exact hback ((clean_putchar_iff s c attr).1 hclean).2

/-- **From any state.** -/
theorem clean_foldl_iff {calls : List TermCall} (h : At p s.term) :
    (calls.foldl call s).Clean ↔ s.Clean ∧ BackspacesOk p calls := by
  induction calls generalizing p s with
  | nil => exact (and_iff_left trivial).symm
  | cons c calls ih =>
    have htext : ∀ c text attr, (calls.foldl call (s.puts (c :: text) attr)).Clean ↔
        s.Clean ∧ CharOk p c ∧ BackspacesOk none calls := by
      intro c text attr
      obtain ⟨hclean, hat⟩ := puts_of_at h c text attr
      by_cases hc : CharOk p c
      · rw [ih (hat hc), hclean, and_assoc]
      · exact iff_of_false (fun hrun => hc (hclean.1 (clean_of_foldl hrun)).2) fun hrun => hc hrun.2.1
    rw [foldl_cons]
    cases c with
    | putchar c attr => exact htext c [] attr
    | puts text attr =>
      cases text with
      | nil => exact ih h
      | cons c text => exact htext c text attr
    | clear =>
      have hgrid : At none s.clear.term := (shows_clear s).inGrid ⟨by decide, by decide⟩
      rw [call, BackspacesOk, ih hgrid, inRange_clear.clean_iff]
    | setCursor x y =>
      have hset : At (some (x, y)) (s.setCursor x y).term := ⟨rfl, rfl⟩
      rw [call, BackspacesOk, ih hset, setCursor, (inRange_moveTo _ _).clean_iff]
    | writeAt x y c attr =>
      have hcursor : (s.writeAt x y c attr).term.x = s.term.x ∧ (s.writeAt x y c attr).term.y = s.term.y := by
        unfold writeAt
        split_ifs
        · exact ⟨rfl, rfl⟩
        · exact ⟨rfl, rfl⟩
      have hat : At p (s.writeAt x y c attr).term := by
        cases p with
        | none => exact ⟨hcursor.1.trans_lt h.x, hcursor.2.trans_lt h.y⟩
        | some q => exact ⟨hcursor.1.trans h.1, hcursor.2.trans h.2⟩
      rw [call, BackspacesOk, ih hat, (inRange_writeAt x y c attr).clean_iff]

/-- **The accesses of the terminal.** For every memory before `terminal_init` and every sequence of calls after it: every
index used on `term_buf` and `term_fg` is below 80 * 40, and the cursor is in the grid after every `terminal_putchar`, if and
only if every `'\b'` that is the first character after a `terminal_set_cursor` finds the cursor in column 0, or not behind
column 80 and in one of the 40 rows. -/
theorem terminal_in_range_iff (t : Terminal) (calls : List TermCall) :
    ((∀ i ∈ (run t calls).used, i < cols * rows) ∧ ∀ p ∈ (run t calls).stops, p.1 < cols ∧ p.2 < rows) ↔
      BackspacesOk none calls := by
  have hgrid : At none (clear ⟨t, [], []⟩).term := (shows_clear _).inGrid ⟨by decide, by decide⟩
  have hstart : (clear ⟨t, [], []⟩).Clean :=
    inRange_clear.clean_iff.2 ⟨fun _ hi => absurd hi not_mem_nil, fun _ hp => absurd hp not_mem_nil⟩
  have hrun : (run t calls).Clean ↔ _ := clean_foldl_iff hgrid
  rw [and_iff_right hstart] at hrun
  rw [← hrun]
  exact ⟨fun h => ⟨h.1, h.2⟩, fun h => ⟨h.used, h.stops⟩⟩

/-- **A `'\b'` behind the grid.** With the cursor set to column 200 of the last row, `'\b'` writes element 3319 of
`term_buf`, which has 3200, and leaves the cursor in column 199. -/
theorem backspace_behind_grid :
    3319 ∈ (run .clear [.setCursor 200 39, .putchar 8 white]).used ∧
      (199, 39) ∈ (run .clear [.setCursor 200 39, .putchar 8 white]).stops ∧ cols * rows = 3200 := by
  decide +kernel

end Traced

end GannetOS.Ui
