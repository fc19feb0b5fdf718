/-
The command line on the screen: `print_prompt`, `redraw_line` and `set_line_from_history` of `shell/shell.c` over the
terminal.

`print_prompt` remembers the cursor behind the prompt, `prompt_x` and `prompt_y`. Every key that changes the line draws it
again from there with `terminal_putchar`, and blanks the cell behind it; a key from the history blanks what the old line
leaves over. The line itself is `Input`'s. What commands print is left out.

- `screen_shows_line_iff`: after every sequence of edit and history keys the grid shows, from the remembered position on,
  the line and a blank, and what stands before is as it was, if and only if a line of 255 characters ends before the last
  cell of the grid and the cell behind the prompt was blank.
- `bottom_line_scrolls_away`: with the prompt at the end of the last row, the first character scrolls the grid; the position
  stays, and nothing is shown there.
-/
import GannetOS.Shell.Editor
import GannetOS.Shell.History
import GannetOS.Shell.Text
import GannetOS.Ui.Terminal

namespace GannetOS.Shell

open GannetOS.Core GannetOS.Ui GannetOS.Ui.Terminal List

/-! ## Drawing -/

/-- the command line and the terminal -/
structure Tty where
  input : Input
  term : Terminal
  promptX : ℕ
  promptY : ℕ

namespace Tty

/-- column and row of the i-th cell from the prompt on, as the `uint8_t` casts give them -/
def cell (s : Tty) (i : ℤ) : ℕ × ℕ :=
  ((((s.promptX + i).tmod cols) % 256).toNat, ((s.promptY + (s.promptX + i).tdiv cols) % 256).toNat)

/-- the line from the prompt on -/
def drawLine (s : Tty) : Tty :=
  { s with term := (s.term.setCursor s.promptX s.promptY).puts (between s.input.buf 0 s.input.len) white }

def blankAt (s : Tty) (i : ℤ) : Tty := { s with term := s.term.writeAt (s.cell i).1 (s.cell i).2 32 white }

def cursorAt (s : Tty) (i : ℤ) : Tty := { s with term := s.term.setCursor (s.cell i).1 (s.cell i).2 }

def redrawLine (s : Tty) : Tty := (s.drawLine.blankAt s.input.len).cursorAt s.input.cur

/-- the drawing half of `set_line_from_history`: the new line, and blanks up to the old one's end -/
def redrawHistory (s : Tty) (oldLen : ℤ) : Tty :=
  let clearTo := max oldLen s.input.len
  ((List.range (clearTo - s.input.len + 1).toNat).foldl (fun s k => s.blankAt (s.input.len + k)) s.drawLine).cursorAt
    s.input.cur

/-- Enter: the cursor goes behind the line and to the next row -/
def newline (s : Tty) : Tty :=
  { s with term := (s.term.setCursor (s.cell s.input.len).1 (s.cell s.input.len).2).putchar 10 white }

/-- what `print_prompt` shows of the working directory -/
def display (cwd : List UInt8) : List UInt8 :=
  let display := if (ascii "/home").isPrefixOf cwd then 126 :: strcpyS (cwd.drop 5) (pathMax - 1) else strcpyS cwd pathMax
  if display = [] then [47] else display

/-- what `print_prompt` puts on the terminal -/
def putPrompt (t : Terminal) (cwd : List UInt8) : Terminal :=
  (((t.puts (ascii "GannetOS") lightGreen).putchar 58 white).puts (display cwd) lightBlue).puts (ascii "$ ") white

def printPrompt (s : Tty) (cwd : List UInt8) : Tty :=
  { s with
    term := putPrompt s.term cwd
    promptX := (putPrompt s.term cwd).x % 256
    promptY := (putPrompt s.term cwd).y % 256 }

/-- `shell_handle_char` and `shell_handle_key` with what they draw; nothing is drawn for the main loop -/
def step (s : Tty) (op : Input.Op) : Unit × Tty :=
  let s' : Tty := { s with input := (s.input.step op).2 }
  ((), match op with
    | .char c =>
      if c = 10 then s'.newline
      else if c = 8 then if 0 < s.input.cur then s'.redrawLine else s'
      else if s.input.len < cmdBufSize - 1 then s'.redrawLine else s'
    | .key .left => if 0 < s.input.cur then s'.redrawLine else s'
    | .key .right => if s.input.cur < s.input.len then s'.redrawLine else s'
    | .key .home | .key .end => s'.redrawLine
    | .key .up => if s.input.count = 0 then s' else s'.redrawHistory s.input.len
    | .key .down => if s.input.browse = none then s' else s'.redrawHistory s.input.len
    | .key .del => if s.input.cur < s.input.len then s'.redrawLine else s'
    | .go _ => s')

/-- the cell number of the remembered position -/
def promptPos (s : Tty) : ℕ := s.promptY * cols + s.promptX

/-- an edit or history key -/
def IsKey : Input.Op → Prop
  | .char c => c = 8 ∨ Drawable c
  | .key _ => True
  | .go _ => False

/-! ## Lines of drawable characters -/

/-- a line that fits into buf and has drawable characters only -/
structure IsText (l : List UInt8) : Prop where
  fits : l.length < cmdBufSize
  drawable : ∀ c ∈ l, Drawable c

theorem IsText.isLine {l : List UInt8} (h : IsText l) : Input.IsLine l :=
  ⟨h.fits, fun h0 => (h.drawable 0 h0).1 rfl⟩

/-- the line and everything a history key can bring back is text -/
structure Typed (s : Input) : Prop where
  line : ∃ l : EditLine, s.HoldsLine l ∧ ∀ c ∈ l.text, Drawable c
  history : ∀ b < s.count, IsText (s.historyLine b)
  browse : ∀ b, s.browse = some b → b < s.count ∧ IsText s.saved

theorem Typed.isText {s : Input} (h : Typed s) : IsText s.line ∧ (s.line.length : ℤ) = s.len := by
  obtain ⟨l, hl, hprint⟩ := h.line
  have hline : s.line = l.text := Holds.between_text hl
  have hfits := l.fits
  have hlen := Holds.len hl
  rw [hline]
  refine ⟨⟨?_, hprint⟩, ?_⟩
  · rw [l.text_length]
    exact Nat.lt_of_le_pred (by decide) hfits
  · rw [l.text_length, hlen, Nat.cast_add]

/-- an edit adds the character that was typed and no other -/
theorem edit_text (l : EditLine) (op : Input.Op) : ∀ x ∈ (edit l op).text, x ∈ l.text ∨ op = .char x ∧ x ≠ 8 := by
  intro x hx
  cases op with
  | char c =>
    simp only [edit] at hx
    split_ifs at hx with h8
    · simp only [CursorLine.text, CursorLine.backspace, mem_append] at hx ⊢
      exact .inl (hx.imp_left mem_of_mem_dropLast)
    · unfold CursorLine.insert at hx
      split_ifs at hx with hroom
      · simp only [CursorLine.text, mem_append, mem_singleton] at hx ⊢
        rcases hx with (hx | rfl) | hx
        · exact .inl (.inl hx)
        · exact .inr ⟨rfl, h8⟩
        · exact .inl (.inr hx)
      · exact .inl hx
  | key k =>
    left
    cases k with
    | left => rwa [← l.moveLeft_text]
    | right => rwa [← l.moveRight_text]
    | home => exact hx
    | «end» => rwa [← l.end_text]
    | del =>
      simp only [edit, CursorLine.text, CursorLine.delete, mem_append] at hx ⊢
      exact hx.imp_right mem_of_mem_tail
    | up | down => exact hx
  | go m => exact .inl hx

variable {op : Input.Op} {input : Input}

/-- an edit does not browse -/
theorem browse_edit (s : Input) (hop : Input.IsEdit op) :
    (s.step op).2.browse = s.browse ∧ (s.step op).2.saved = s.saved := by
  cases op with
  | char c =>
    simp only [Input.step, Input.shellHandleChar, if_neg (show c ≠ 10 from hop)]
    split_ifs <;> exact ⟨rfl, rfl⟩
  | key k =>
    cases k with
    | left | right | del =>
      simp only [Input.step, Input.shellHandleKey]
      split_ifs <;> exact ⟨rfl, rfl⟩
    | home | «end» => exact ⟨rfl, rfl⟩
    | up => exact absurd rfl hop.1
    | down => exact absurd rfl hop.2
  | go m => exact absurd hop id

theorem sameHistory_edit (s : Input) (hop : Input.IsEdit op) : Input.SameHistory s (s.step op).2 := by
  cases op with
  | char c => exact s.sameHistory_char hop
  | key k => exact s.sameHistory_key k
  | go m => exact absurd hop id

theorem Typed.edit {s : Input} (h : Typed s) (hkey : IsKey op) (hop : Input.IsEdit op) :
    Typed (s.step op).2 := by
  obtain ⟨l, hl, hprint⟩ := h.line
  obtain ⟨hbrowse, hsaved⟩ := browse_edit s hop
  have hsame := sameHistory_edit s hop
  refine ⟨⟨Shell.edit l op, hl.step hop, fun x hx => ?_⟩, ?_, ?_⟩
  · rcases edit_text l op x hx with hx | ⟨rfl, h8⟩
    · exact hprint x hx
    · exact hkey.resolve_left h8
  · rw [hsame.count, hsame.historyLine]
    exact h.history
  · rw [hbrowse, hsaved, hsame.count]
    exact h.browse

theorem typed_setLine {s : Input} {text : List UInt8} (htext : IsText text)
    (hhistory : ∀ b < s.count, IsText (s.historyLine b)) (hbrowse : ∀ b, s.browse = some b → b < s.count ∧ IsText s.saved) :
    Typed (s.setLine text) := by
  have hfits : text.length ≤ cmdBufSize - 1 := Nat.le_pred_of_lt htext.fits
  have htake : text.take (cmdBufSize - 1) = text := take_of_length_le hfits
  refine ⟨⟨⟨text, [], by simpa using hfits⟩, ⟨?_, ?_, fun i hi => ?_⟩, by simpa [CursorLine.text] using htext.drawable⟩,
    hhistory, hbrowse⟩
  · simp only [Input.setLine, htake]
  · simp only [Input.setLine, htake, length_nil, Nat.cast_zero, add_zero]
  · have hi' : i < text.length := by simpa [CursorLine.text] using hi
    simp only [Input.setLine, htake]
    rw [if_pos ⟨by omega, by omega⟩]
    simp [CursorLine.text, hi']

theorem Typed.up {s : Input} (h : Typed s) : Typed (s.shellHandleKey .up) := by
  simp only [Input.shellHandleKey]
  split_ifs with hcount
  · exact h
  · cases hb : s.browse with
    | none =>
      obtain ⟨htext, hlen⟩ := h.isText
      have hsaved : IsText ((textAt (Function.update s.buf s.len 0) 0).take (cmdBufSize - 1)) := by
        have hline := Input.submittedLine_eq (by omega) htext.isLine
        rw [Input.submittedLine] at hline
        have hfits := htext.fits
        rw [hline, take_of_length_le (by omega)]
        exact htext
      refine typed_setLine (h.history 0 (Nat.pos_of_ne_zero hcount)) h.history fun b hb => ?_
      obtain rfl : 0 = b := Option.some.inj hb
      exact ⟨Nat.pos_of_ne_zero hcount, hsaved⟩
    | some b =>
      obtain ⟨hlt, hsaved⟩ := h.browse b hb
      have hnext : (if b < s.count - 1 then b + 1 else b) < s.count := by split <;> omega
      refine typed_setLine (h.history _ hnext) h.history fun b' hb' => ?_
      obtain rfl := Option.some.inj hb'
      exact ⟨hnext, hsaved⟩

theorem Typed.down {s : Input} (h : Typed s) : Typed (s.shellHandleKey .down) := by
  simp only [Input.shellHandleKey]
  cases hb : s.browse with
  | none => exact h
  | some b =>
    obtain ⟨hlt, hsaved⟩ := h.browse b hb
    cases b with
    | zero => exact typed_setLine hsaved h.history (by simp)
    | succ b =>
      have hlt : b < s.count := Nat.lt_of_succ_lt hlt
      refine typed_setLine (h.history b hlt) h.history fun b' hb' => ?_
      obtain rfl := Option.some.inj hb'
      exact ⟨hlt, hsaved⟩

theorem Typed.step {s : Input} (h : Typed s) (hop : IsKey op) : Typed (s.step op).2 := by
  cases op with
  | char c =>
    have hc : c ≠ 10 := by
      rcases hop with rfl | hprint
      · decide
      · exact hprint.2.2.1
    exact h.edit hop hc
  | key k =>
    cases k with
    | up => exact h.up
    | down => exact h.down
    | left | right | home | «end» | del => exact h.edit hop ⟨by decide, by decide⟩
  | go m => exact absurd hop id

/-! ## What is drawn -/

/-- from the remembered position on the grid shows the line and a blank; before it nothing has changed since `s₀` -/
structure Shows (s₀ s : Tty) : Prop where
  promptX : s.promptX = s₀.promptX
  promptY : s.promptY = s₀.promptY
  before : ∀ i < s₀.promptPos, s.term.cells i = s₀.term.cells i
  text : ∀ i (h : i < s.input.line.length), (s.term.cells (s₀.promptPos + i)).char = s.input.line[i]
  inGrid : s₀.promptPos + s.input.line.length < cols * rows
  blank : (s.term.cells (s₀.promptPos + s.input.line.length)).char = 32

variable {s s₀ : Tty}

theorem cell_eq (hx : s.promptX < cols) {i : ℤ} (h0 : 0 ≤ i) (hi : s.promptPos + i < cols * rows) :
    s.cell i = ((s.promptPos + i.toNat) % cols, (s.promptPos + i.toNat) / cols) := by
  obtain ⟨n, rfl⟩ := Int.eq_ofNat_of_zero_le h0
  have hx : s.promptX < 80 := hx
  have hi : (s.promptY * 80 + s.promptX) + n < 80 * 40 := by exact_mod_cast hi
  have hmod : ((s.promptX : ℤ) + n).tmod 80 = ((s.promptX + n) % 80 : ℕ) := by
    rw [Int.tmod_eq_emod_of_nonneg (by omega)]
    omega
  have hdiv : ((s.promptX : ℤ) + n).tdiv 80 = ((s.promptX + n) / 80 : ℕ) := by
    rw [Int.tdiv_eq_ediv_of_nonneg (by omega)]
    omega
  simp only [cell, promptPos, cols, Int.toNat_natCast, Nat.cast_ofNat]
  rw [hmod, hdiv, Prod.mk.injEq]
  omega

/-- the remembered position is a cell -/
structure Placed (s : Tty) : Prop where
  x : s.promptX < cols
  y : s.promptY < rows

theorem blankAt_cells (h : s.Placed) {i : ℕ} (hi : s.promptPos + i < cols * rows) :
    (s.blankAt i).term.cells = Function.update s.term.cells (s.promptPos + i) Ui.blank := by
  have hcell := cell_eq h.x (Int.natCast_nonneg i) (by exact_mod_cast hi)
  have hin : (s.promptPos + i) % cols < cols ∧ (s.promptPos + i) / cols < rows :=
    ⟨Nat.mod_lt _ (by decide), Nat.div_lt_of_lt_mul hi⟩
  rw [Int.toNat_natCast] at hcell
  rw [blankAt, hcell, writeAt, if_pos hin]
  simp only [Nat.div_add_mod']
  rfl

theorem drawLine_cells (h : s.Placed) (htext : ∀ c ∈ s.input.line, Drawable c)
    (hroom : s.promptPos + s.input.line.length < cols * rows) :
    s.drawLine.term.cells = drawn s.term.cells s.promptPos s.input.line white := by
  have hgrid : (s.term.setCursor s.promptX s.promptY).InGrid := ⟨h.x, h.y⟩
  show ((s.term.setCursor s.promptX s.promptY).puts s.input.line white).cells = _
  rw [puts_drawable hgrid htext hroom]
  rfl

/-- the blanks behind the line -/
theorem blanks_cells (h : s.Placed) (a : ℕ) (ha : s.input.len = a) {n : ℕ} (hn : s.promptPos + a + n ≤ cols * rows) :
    ∃ term, (List.range n).foldl (fun s k => s.blankAt (s.input.len + k)) s = { s with term := term } ∧
      ∀ i, term.cells i =
        if s.promptPos + a ≤ i ∧ i < s.promptPos + a + n then Ui.blank else s.term.cells i := by
  induction n with
  | zero => exact ⟨s.term, rfl, fun i => by rw [if_neg (by omega)]⟩
  | succ n ih =>
    obtain ⟨term, hfold, hcells⟩ := ih (by omega)
    have hplaced : Placed { s with term := term } := ⟨h.x, h.y⟩
    refine ⟨(blankAt { s with term := term } ((a + n : ℕ) : ℤ)).term, ?_, fun i => ?_⟩
    · rw [range_succ, foldl_append, hfold]
      show blankAt { s with term := term } (s.input.len + n) = _
      rw [ha, ← Nat.cast_add]
      rfl
    · have hroom : s.promptPos + (a + n) < cols * rows := by omega
      rw [blankAt_cells hplaced hroom]
      show Function.update term.cells (s.promptPos + (a + n)) Ui.blank i = _
      by_cases hi : i = s.promptPos + (a + n)
      · rw [hi, Function.update_self, if_pos (by omega)]
      · rw [Function.update_of_ne hi, hcells]
        by_cases hin : s.promptPos + a ≤ i ∧ i < s.promptPos + a + n
        · rw [if_pos hin, if_pos (by omega)]
        · rw [if_neg hin, if_neg (by omega)]

/-- `redraw_line` is the case of an old line that is no longer than the new one -/
theorem redrawLine_eq (s : Tty) : s.redrawLine = s.redrawHistory s.input.len := by
  simp only [redrawHistory, max_self, sub_self, zero_add, Int.toNat_one, range_one, foldl_cons, foldl_nil,
    Nat.cast_zero, add_zero]
  rfl

/-- a new line is drawn over a shown one -/
theorem Shows.redrawHistory (h : Shows s₀ s) (hplaced : s₀.Placed) (hroom : s₀.promptPos + 255 < cols * rows)
    (ht : Typed input) {oldLen : ℤ} (hold : oldLen ≤ 255) :
    Shows s₀ ({ s with input := input }.redrawHistory oldLen) := by
  obtain ⟨htext, hlen⟩ := ht.isText
  have hfits : input.line.length < 256 := htext.fits
  obtain ⟨s', hs'⟩ : ∃ s' : Tty, s' = { s with input := input } := ⟨_, rfl⟩
  have hinput : s'.input = input := by rw [hs']
  have hX : s'.promptX = s₀.promptX := by rw [hs', ← h.promptX]
  have hY : s'.promptY = s₀.promptY := by rw [hs', ← h.promptY]
  have hpos : s'.promptPos = s₀.promptPos := by rw [promptPos, promptPos, hX, hY]
  have hplaced' : s'.Placed := ⟨hX ▸ hplaced.x, hY ▸ hplaced.y⟩
  rw [← hs', Tty.redrawHistory]
  have hdraw := drawLine_cells hplaced' (by rw [hinput]; exact htext.drawable) (by rw [hpos, hinput]; omega)
  obtain ⟨n, hn⟩ : ∃ n, n = (max oldLen s'.input.len - s'.input.len + 1).toNat := ⟨_, rfl⟩
  have hn' : 0 < n ∧ input.line.length + n ≤ 256 := by
    rw [hinput] at hn
    omega
  have hend : s'.drawLine.promptPos + input.line.length + n ≤ cols * rows := by
    show s'.promptPos + _ + _ ≤ _
    omega
  obtain ⟨term, hfold, hcells⟩ := blanks_cells (s := s'.drawLine) ⟨hplaced'.x, hplaced'.y⟩ input.line.length
    (by rw [hlen, ← hinput]; rfl) hend
  rw [← hn, hfold]
  have hcells : ∀ i, term.cells i =
      if s₀.promptPos + input.line.length ≤ i ∧ i < s₀.promptPos + input.line.length + n then Ui.blank
      else drawn s.term.cells s₀.promptPos input.line white i := by
    intro i
    rw [hcells i, hdraw, hpos.symm, hinput, hs']
    rfl
  have hline : input.line = s'.input.line := by rw [hinput]
  refine ⟨hX, hY, fun i hi => ?_, fun i hi => ?_, ?_, ?_⟩
  · show term.cells i = _
    rw [hcells, if_neg (by omega), drawn, if_neg (by omega)]
    exact h.before i hi
  · show (term.cells (s₀.promptPos + i)).char = s'.input.line[i]
    have hi : i < s'.input.line.length := hi
    rw [← hline] at hi
    rw [hcells, if_neg (by omega), drawn, if_pos (by omega), Nat.add_sub_cancel_left]
    simp only [← hline, getD_eq_getElem _ _ hi]
  · show s₀.promptPos + s'.input.line.length < _
    rw [← hline]
    omega
  · show (term.cells (s₀.promptPos + s'.input.line.length)).char = 32
    rw [← hline, hcells, if_pos (by omega)]
    rfl

theorem Shows.redrawLine (h : Shows s₀ s) (hplaced : s₀.Placed) (hroom : s₀.promptPos + 255 < cols * rows)
    (ht : Typed input) : Shows s₀ ({ s with input := input }.redrawLine) := by
  obtain ⟨htext, hlen⟩ := ht.isText
  have hfits : input.line.length < 256 := htext.fits
  rw [redrawLine_eq]
  exact h.redrawHistory hplaced hroom ht (show input.len ≤ 255 by omega)

/-- a key that neither changes the line nor draws -/
theorem Shows.same (h : Shows s₀ s) (hi : input = s.input) : Shows s₀ { s with input := input } := by
  subst hi
  exact h

theorem Shows.step (h : Shows s₀ s) (ht : Typed s.input) (hplaced : s₀.Placed) (hroom : s₀.promptPos + 255 < cols * rows)
    (hop : IsKey op) : Shows s₀ (s.step op).2 := by
  have hnext : Typed (s.input.step op).2 := ht.step hop
  have hdraw := h.redrawLine hplaced hroom hnext
  have hlen : s.input.len ≤ 255 := by
    obtain ⟨htext, hlen⟩ := ht.isText
    have hfits : s.input.line.length < 256 := htext.fits
    omega
  have hhistory := h.redrawHistory hplaced hroom hnext hlen
  cases op with
  | char c =>
    have hc : c ≠ 10 := by
      rcases hop with rfl | hprint
      · decide
      · exact hprint.2.2.1
    simp only [Tty.step, if_neg hc]
    by_cases h8 : c = 8
    · rw [if_pos h8]
      split_ifs with hpos
      · exact hdraw
      · exact h.same (by simp only [Input.step, Input.shellHandleChar, if_neg hc, if_pos h8, if_neg hpos])
    · rw [if_neg h8]
      split_ifs with hfull
      · exact hdraw
      · exact h.same (by simp only [Input.step, Input.shellHandleChar, if_neg hc, if_neg h8, if_neg hfull])
  | key k =>
    cases k with
    | left | right | del =>
      simp only [Tty.step]
      split_ifs with hmove
      · exact hdraw
      · exact h.same (by simp only [Input.step, Input.shellHandleKey, if_neg hmove])
    | home | «end» => exact hdraw
    | up =>
      simp only [Tty.step]
      split_ifs with hcount
      · exact h.same (by simp only [Input.step, Input.shellHandleKey, if_pos hcount])
      · exact hhistory
    | down =>
      simp only [Tty.step]
      split_ifs with hbrowse
      · exact h.same (by simp only [Input.step, Input.shellHandleKey, hbrowse])
      · exact hhistory
  | go m => exact absurd hop id

/-! ## Whole sequences of keys -/

theorem redrawHistory_input (s : Tty) (oldLen : ℤ) : (s.redrawHistory oldLen).input = s.input := by
  have hfold : ∀ (l : List ℕ) (s : Tty), (l.foldl (fun s k => s.blankAt (s.input.len + k)) s).input = s.input := by
    intro l
    induction l with
    | nil => exact fun _ => rfl
    | cons k l ih => exact fun s => ih (s.blankAt _)
  exact hfold _ s.drawLine

/-- drawing leaves the line alone -/
theorem step_input (s : Tty) (op : Input.Op) : (s.step op).2.input = (s.input.step op).2 := by
  cases op with
  | char c =>
    simp only [Tty.step]
    split_ifs <;> rfl
  | key k =>
    cases k with
    | left | right | del =>
      simp only [Tty.step]
      split_ifs <;> rfl
    | home | «end» => rfl
    | up | down =>
      simp only [Tty.step]
      split_ifs
      · rfl
      · exact redrawHistory_input _ _
  | go m => rfl

theorem runOps_input (s : Tty) (ops : List Input.Op) :
    (runOps step s ops).input = runOps Input.step s.input ops := by
  induction ops generalizing s with
  | nil => rfl
  | cons op ops ih => rw [runOps_cons, runOps_cons, ih, step_input]

theorem Shows.run (h : Shows s₀ s) (ht : Typed s.input) (hplaced : s₀.Placed) (hroom : s₀.promptPos + 255 < cols * rows)
    (ops : List Input.Op) (hops : ∀ op ∈ ops, IsKey op) : Shows s₀ (runOps Tty.step s ops) := by
  induction ops generalizing s with
  | nil => exact h
  | cons op ops ih =>
    have hop := hops op mem_cons_self
    exact ih (h.step ht hplaced hroom hop) (step_input s op ▸ ht.step hop)
      fun o ho => hops o (mem_cons_of_mem op ho)

/-- the first letter of the prompt brings the cursor into the grid, and it stays there -/
theorem putPrompt_inGrid (t : Terminal) (cwd : List UInt8) : (putPrompt t cwd).InGrid := by
  have hhost : ascii "GannetOS" = 71 :: ascii "annetOS" := by decide
  have hfirst : (t.putchar 71 lightGreen).InGrid := putchar_inGrid (by decide)
  rw [putPrompt, hhost, puts_cons]
  exact (((hfirst.puts _ _).putchar _ _).puts _ _).puts _ _

theorem printPrompt_placed (s : Tty) (cwd : List UInt8) : (s.printPrompt cwd).Placed := by
  obtain ⟨hx, hy⟩ := putPrompt_inGrid s.term cwd
  refine ⟨?_, ?_⟩
  · show (putPrompt s.term cwd).x % 256 < cols
    exact (Nat.mod_le _ _).trans_lt hx
  · show (putPrompt s.term cwd).y % 256 < rows
    exact (Nat.mod_le _ _).trans_lt hy

theorem typed_empty (hlen : input.len = 0) (hcur : input.cur = 0) (hbrowse : input.browse = none)
    (hhistory : ∀ b < input.count, IsText (input.historyLine b)) : Typed input :=
  ⟨⟨CursorLine.empty, Input.line_empty hlen hcur, fun c hc => absurd hc not_mem_nil⟩, hhistory, by simp [hbrowse]⟩

/-- `n` characters typed into an empty line -/
theorem typed_length (hlen : input.len = 0) (hcur : input.cur = 0) {n : ℕ} (hn : n < cmdBufSize) :
    (runOps Input.step input (List.replicate n (Input.Op.char 97))).line.length = n := by
  have hline := (Input.HoldsLine.run (Input.line_empty hlen hcur) (List.replicate n (Input.Op.char 97))
    fun op hop => by rw [eq_of_mem_replicate hop]; exact (by decide : (97 : UInt8) ≠ 10))
  have hfold : ∀ k l, ((List.replicate k (Input.Op.char 97)).foldl edit l).text.length =
      min (cmdBufSize - 1) (l.text.length + k) := by
    intro k
    induction k with
    | zero =>
      intro l
      have := l.fits
      rw [← l.text_length] at this
      simp only [replicate_zero, foldl_nil]
      omega
    | succ k ih =>
      intro l
      have hinsert : edit l (Input.Op.char 97) = l.insert 97 := rfl
      rw [replicate_succ, foldl_cons, ih, hinsert, l.insert_length]
      omega
  have hempty : (CursorLine.empty : EditLine).text.length = 0 := rfl
  rw [Input.line, Holds.between_text hline, hfold, hempty]
  omega

/-- an empty line is shown where the cell behind the prompt is blank -/
theorem shows_empty (hline : s.input.line = []) (hroom : s.promptPos < cols * rows)
    (hblank : (s.term.cells s.promptPos).char = 32) : Shows s s where
  promptX := rfl
  promptY := rfl
  before _ _ := rfl
  text i hi := by
    rw [hline] at hi
    exact absurd hi (Nat.not_lt_zero i)
  inGrid := by
    rw [hline]
    exact hroom
  blank := by
    rw [hline]
    exact hblank

/-- **The screen shows the line.** From a freshly printed prompt with an empty line, any history of text lines and any
terminal: after every sequence of edit and history keys the cells from `(prompt_x, prompt_y)` on show `buf[0..buf_len)` and
a blank, and the prompt before them stands where it stood, if and only if the longest line ends before the last cell of the
grid and the cell behind the prompt is blank. -/
theorem screen_shows_line_iff (s : Tty) (cwd : List UInt8) (hlen : s.input.len = 0) (hcur : s.input.cur = 0)
    (hbrowse : s.input.browse = none) (hhistory : ∀ b < s.input.count, IsText (s.input.historyLine b)) :
    (∀ ops, ops ≠ [] → (∀ op ∈ ops, IsKey op) → Shows (s.printPrompt cwd) (runOps step (s.printPrompt cwd) ops)) ↔
    (s.printPrompt cwd).promptPos + 255 < cols * rows ∧
      ((s.printPrompt cwd).term.cells (s.printPrompt cwd).promptPos).char = 32 := by
  have hplaced := s.printPrompt_placed cwd
  have hinput : (s.printPrompt cwd).input = s.input := by simp only [printPrompt]
  generalize s.printPrompt cwd = s₀ at hplaced hinput ⊢
  rw [← hinput] at hlen hcur hbrowse hhistory
  have hline : s₀.input.line = [] := by
    rw [Input.line, hlen]
    rfl
  have hx : s₀.promptX < 80 := hplaced.x
  have hy : s₀.promptY < 40 := hplaced.y
  have hpos : s₀.promptPos = s₀.promptY * 80 + s₀.promptX := rfl
  constructor
  · intro h
    refine ⟨?_, ?_⟩
    · -- a line that reaches the end of the grid has no cell behind it
      by_contra hroom
      have hroom : ¬ s₀.promptPos + 255 < 80 * 40 := hroom
      obtain ⟨n, hn⟩ : ∃ n, n = 80 * 40 - s₀.promptPos := ⟨_, rfl⟩
      have hsome : List.replicate n (Input.Op.char 97) ≠ [] := by
        rw [Ne, replicate_eq_nil_iff]
        omega
      have hkeys : ∀ op ∈ List.replicate n (Input.Op.char 97), IsKey op := by
        intro op hop
        rw [eq_of_mem_replicate hop]
        exact .inr (by decide)
      have hn' : n < cmdBufSize := by
        rw [cmdBufSize]
        omega
      have hshown := (h _ hsome hkeys).inGrid
      rw [runOps_input, typed_length hlen hcur hn'] at hshown
      have hshown : s₀.promptPos + n < 80 * 40 := hshown
      omega
    · have hleft := (h [Input.Op.key .left] (by simp) (by simp [IsKey])).blank
      have hstay : runOps step s₀ [Input.Op.key .left] = s₀ := by
        have hcur : ¬ 0 < s₀.input.cur := by omega
        simp only [runOps, foldl_cons, foldl_nil, step, if_neg hcur, Input.step, Input.shellHandleKey]
      rw [hstay, hline, length_nil, Nat.add_zero] at hleft
      exact hleft
  · rintro ⟨hroom, hblank⟩ ops - hops
    have hfirst : Shows s₀ s₀ := shows_empty hline (Nat.lt_of_le_of_lt (Nat.le_add_right _ 255) hroom) hblank
    exact hfirst.run (typed_empty hlen hcur hbrowse hhistory) hplaced hroom ops hops

/-- after `terminal_init` and `shell_init` -/
def boot : Tty := ⟨Input.init, Terminal.clear, 0, 0⟩

theorem screen_shows_line_iff_boot :
    (boot.printPrompt [47]).promptPos = 12 ∧
    ∀ ops, ops ≠ [] → (∀ op ∈ ops, IsKey op) → Shows (boot.printPrompt [47]) (runOps step (boot.printPrompt [47]) ops) :=
  ⟨by decide +kernel,
    (screen_shows_line_iff boot [47] rfl rfl rfl (fun b hb => absurd hb (Nat.not_lt_zero b))).2 (by decide +kernel)⟩

/-- the cursor in the last row, a working directory of 68 characters -/
def bottom : Tty := (Tty.mk Input.init ⟨fun _ => Ui.blank, 0, 39⟩ 0 0).printPrompt (47 :: List.replicate 67 100)

/-- **At the bottom the line scrolls away.** The prompt ends in the last cell but one; an `a` is drawn in the last cell, the
grid moves up, and the remembered position is now blank, as is the cell where the `$` of the prompt was. -/
theorem bottom_line_scrolls_away :
    bottom.promptPos = 3199 ∧ (bottom.term.cells 3197).char = 36 ∧
    (bottom.step (.char 97)).2.input.line = [97] ∧ (bottom.step (.char 97)).2.promptPos = 3199 ∧
    ((bottom.step (.char 97)).2.term.cells 3199).char = 32 ∧ ((bottom.step (.char 97)).2.term.cells 3197).char = 32 := by
  decide +kernel

end Tty

end GannetOS.Shell
