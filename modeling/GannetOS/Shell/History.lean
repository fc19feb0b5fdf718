/-
The history of `shell/shell.c`: what Enter records, and what UP and DOWN show.

`history_push` stores into a ring of 16 lines with the indices `history_count` and `history_next`; UP and DOWN walk it with
`history_browse`, and the line that was being typed is kept aside. `Submitted lines s` says that `lines` have been completed
with Enter, in this order, and that nothing else has touched the ring.

- `history_law`: the ring holds the last 16 of the non-empty lines with repetitions collapsed; the j-th UP shows the j-th
  most recent of them, further UPs the oldest; and as many DOWNs bring back the line that was there.
- `submitted_of_run`: the lines of a run are those the input records as completed, so this holds in every run in which no
  key reaches a pending command.
-/
import GannetOS.Core.CursorLine
import GannetOS.Shell.Input

namespace GannetOS.Shell.Input

open GannetOS.Core List
open Function (update update_of_ne update_self)

variable {s s₀ t : Input}

/-- the line being typed -/
def line (s : Input) : List UInt8 := between s.buf 0 s.len

/-- the line Enter completes: the string in buf -/
def submittedLine (s : Input) : List UInt8 := textAt (update s.buf s.len 0) 0

/-- the history, the most recent line first -/
def entries (s : Input) : List (List UInt8) := (List.range s.count).map s.historyLine

/-- the lines without the empty ones and without repetitions of the line before -/
def collapsed (lines : List (List UInt8)) : List (List UInt8) := (lines.filter (· ≠ [])).destutter (· ≠ ·)

/-- the ring is the same -/
structure SameHistory (s t : Input) : Prop where
  history : t.history = s.history
  count : t.count = s.count
  next : t.next = s.next

/-- `lines` are the lines completed so far -/
inductive Submitted : List (List UInt8) → Input → Prop
  | init : Submitted [] init
  | other {lines : List (List UInt8)} {s t : Input} (h : Submitted lines s) (same : SameHistory s t) : Submitted lines t
  | enter {lines : List (List UInt8)} {s : Input} (h : Submitted lines s) (hlen : 0 ≤ s.len ∧ s.len < cmdBufSize) :
    Submitted (lines ++ [s.submittedLine]) (s.shellHandleChar 10)

/-- UP, `k` times -/
def ups (k : ℕ) (s : Input) : Input := (fun s => s.shellHandleKey .up)^[k] s

/-- DOWN, `k` times -/
def downs (k : ℕ) (s : Input) : Input := (fun s => s.shellHandleKey .down)^[k] s

/-! ## Recording -/

/-- one more line: dropped if it is empty or a repetition -/
def pushed (past : List (List UInt8)) (line : List UInt8) : List (List UInt8) :=
  if line = [] ∨ past.getLast? = some line then past else past ++ [line]

theorem destutter'_snoc {α : Type*} [DecidableEq α] (a : α) (l : List α) (x : α) :
    (l ++ [x]).destutter' (· ≠ ·) a =
      if (l.destutter' (· ≠ ·) a).getLast? = some x then l.destutter' (· ≠ ·) a else l.destutter' (· ≠ ·) a ++ [x] := by
  induction l generalizing a with
  | nil =>
    by_cases hax : a = x <;> simp [hax]
  | cons b l ih =>
    rw [cons_append, destutter'_cons, destutter'_cons]
    by_cases hab : a ≠ b
    · rw [if_pos hab, if_pos hab, ih b]
      have hlast : (a :: l.destutter' (· ≠ ·) b).getLast? = (l.destutter' (· ≠ ·) b).getLast? := by
        rw [getLast?_cons]
        cases h : (l.destutter' (· ≠ ·) b).getLast? with
        | none => exact absurd (List.getLast?_eq_none_iff.1 h) (destutter'_ne_nil _ _)
        | some y => rfl
      rw [hlast]
      split_ifs <;> rfl
    · rw [if_neg hab, if_neg hab, ih a]

theorem destutter_snoc {α : Type*} [DecidableEq α] (l : List α) (x : α) :
    (l ++ [x]).destutter (· ≠ ·) =
      if (l.destutter (· ≠ ·)).getLast? = some x then l.destutter (· ≠ ·) else l.destutter (· ≠ ·) ++ [x] := by
  cases l with
  | nil => simp
  | cons a l => exact destutter'_snoc a l x

theorem collapsed_snoc (lines : List (List UInt8)) (line : List UInt8) :
    collapsed (lines ++ [line]) = pushed (collapsed lines) line := by
  by_cases hnil : line = []
  · simp [collapsed, pushed, hnil]
  · have hfilter : (lines ++ [line]).filter (· ≠ []) = lines.filter (· ≠ []) ++ [line] := by simp [hnil]
    rw [collapsed, hfilter, destutter_snoc]
    simp [pushed, hnil, collapsed]

/-- the ring holds the last lines of `past`; the line with number `j` is in cell `j % 16` -/
structure Recorded (s : Input) (past : List (List UInt8)) : Prop where
  count : s.count = min past.length historySize
  next : s.next = past.length % historySize
  cell : ∀ j (h : j < past.length), past.length ≤ j + historySize → s.history (j % historySize) = past[j]
  fits : ∀ l ∈ past, l.length < cmdBufSize

variable {past : List (List UInt8)}

theorem Recorded.historyLine (h : Recorded s past) {b : ℕ} (hb : b < s.count) :
    past[past.length - 1 - b]? = some (s.historyLine b) := by
  have hcount : s.count = min past.length 16 := h.count
  have hnext : s.next = past.length % 16 := h.next
  have hcell := h.cell (past.length - 1 - b) (by omega) (by rw [historySize]; omega)
  have hidx : (s.next + (historySize - 1) - b) % historySize = (past.length - 1 - b) % historySize := by
    show (s.next + 15 - b) % 16 = (past.length - 1 - b) % 16
    omega
  rw [Input.historyLine, hidx, hcell, getElem?_eq_getElem]

theorem Recorded.entries (h : Recorded s past) : s.entries = past.reverse.take historySize := by
  have hcount := h.count
  apply ext_getElem?
  intro b
  by_cases hb : b < s.count
  · have hline := h.historyLine hb
    rw [Input.entries, getElem?_map, getElem?_range hb, Option.map_some, ← hline,
      getElem?_take_of_lt (by omega), getElem?_reverse (by omega)]
  · rw [getElem?_eq_none (by simp [Input.entries]; omega), getElem?_eq_none]
    simp
    omega

/-- the test of `history_push` -/
theorem Recorded.last (h : Recorded s past) (line : List UInt8) :
    (0 < s.count ∧ s.history ((s.next + (historySize - 1)) % historySize) = line) ↔ past.getLast? = some line := by
  have hcount : s.count = min past.length 16 := h.count
  by_cases hpos : 0 < s.count
  · have hline := h.historyLine hpos
    rw [Input.historyLine, Nat.sub_zero, Nat.sub_zero] at hline
    rw [getLast?_eq_getElem?, hline, Option.some.injEq]
    exact and_iff_right hpos
  · have hnil : past = [] := List.length_eq_zero_iff.1 (by omega)
    simp [hnil, hpos]

theorem Recorded.push (h : Recorded s past) {line : List UInt8} (hline : line.length < cmdBufSize) :
    Recorded (s.historyPush line) (pushed past line) := by
  have hcond : (line = [] ∨ 0 < s.count ∧ s.history ((s.next + (historySize - 1)) % historySize) = line) ↔
      (line = [] ∨ past.getLast? = some line) := or_congr_right (h.last line)
  by_cases hdrop : line = [] ∨ past.getLast? = some line
  · rw [historyPush, if_pos (hcond.2 hdrop), pushed, if_pos hdrop]
    exact h
  · rw [historyPush, if_neg fun hc => hdrop (hcond.1 hc), pushed, if_neg hdrop]
    have hcount : s.count = min past.length 16 := h.count
    have hnext : s.next = past.length % 16 := h.next
    have htake : line.take (cmdBufSize - 1) = line := take_of_length_le (by omega)
    refine ⟨?_, ?_, fun j hj hlast => ?_, fun l hl => ?_⟩
    · show (if s.count < 16 then s.count + 1 else s.count) = min (past ++ [line]).length 16
      rw [length_append, length_singleton]
      split <;> omega
    · show (s.next + 1) % 16 = (past ++ [line]).length % 16
      rw [length_append, length_singleton]
      omega
    · rw [length_append, length_singleton] at hj hlast
      have hlast : past.length + 1 ≤ j + 16 := hlast
      show update s.history s.next (line.take (cmdBufSize - 1)) (j % 16) = _
      by_cases hnew : j = past.length
      · subst hnew
        rw [← hnext, update_self, htake]
        simp
      · -- the cell of an older line is another one: fewer than 16 lines lie between
        rw [update_of_ne (by omega), getElem_append_left (by omega)]
        exact h.cell j (by omega) (by rw [historySize]; omega)
    · rcases List.mem_append.1 hl with hl | hl
      · exact h.fits l hl
      · rw [List.mem_singleton.1 hl]
        exact hline

theorem SameHistory.recorded (hst : SameHistory s t) (h : Recorded s past) : Recorded t past :=
  ⟨hst.count.trans h.count, hst.next.trans h.next, fun j hj hlast => by rw [hst.history]; exact h.cell j hj hlast, h.fits⟩

theorem submittedLine_length (hlen : 0 ≤ s.len ∧ s.len < cmdBufSize) : s.submittedLine.length < cmdBufSize := by
  have := textAt_length_le s.buf hlen.1 hlen.2
  rw [submittedLine]
  omega

theorem Submitted.recorded {lines : List (List UInt8)} (h : Submitted lines s) : Recorded s (collapsed lines) := by
  induction h with
  | init => exact ⟨rfl, rfl, fun j hj => absurd hj (Nat.not_lt_zero j), by simp [collapsed]⟩
  | other _ same ih => exact same.recorded ih
  | @enter lines s _ hlen ih =>
    rw [collapsed_snoc]
    have hended : SameHistory s { s with buf := update s.buf s.len 0 } := ⟨rfl, rfl, rfl⟩
    have henter : SameHistory ({ s with buf := update s.buf s.len 0 }.historyPush s.submittedLine)
        (s.shellHandleChar 10) := ⟨rfl, rfl, rfl⟩
    exact henter.recorded ((hended.recorded ih).push (submittedLine_length hlen))

/-! ## Browsing -/

theorem SameHistory.historyLine (h : SameHistory s t) : t.historyLine = s.historyLine := by
  funext b
  rw [Input.historyLine, Input.historyLine, h.history, h.next]

theorem setLine_line (s : Input) {text : List UInt8} (h : text.length < cmdBufSize) :
    (s.setLine text).line = text ∧ (s.setLine text).len = text.length := by
  have htake : text.take (cmdBufSize - 1) = text := take_of_length_le (by omega)
  simp only [setLine, line, htake]
  refine ⟨between_eq (sub_zero _) fun i hi => ?_, trivial⟩
  rw [zero_add, if_pos ⟨by omega, by omega⟩]
  simp [hi]

/-- a line of text: it fits into buf and has no NUL -/
structure IsLine (l : List UInt8) : Prop where
  fits : l.length < cmdBufSize
  nulFree : (0 : UInt8) ∉ l

/-- the string in buf is the line, once it is ended -/
theorem submittedLine_eq (hlen : 0 ≤ s.len) (hl : IsLine s.line) : s.submittedLine = s.line := by
  have hlength : s.line.length = s.len.toNat := by rw [line, between_length, sub_zero]
  have hwrite : update s.buf s.len 0 = writeText s.buf s.line := by
    funext i
    rcases eq_or_ne i s.len with rfl | hne
    · rw [update_self, writeText, if_neg (by omega), if_pos (by omega)]
    · rw [update_of_ne hne, writeText]
      split_ifs with hin
      · have hi : i.toNat < s.line.length := by omega
        rw [getD_eq_getElem _ _ hi]
        simp only [line, between_getElem]
        congr 1
        omega
      · omega
      · rfl
  rw [submittedLine, hwrite, textAt_writeText _ hl.fits hl.nulFree]

/-- `b` lines back from the most recent one, with the line of `s₀` set aside -/
structure Browsing (s₀ s : Input) (b : ℕ) : Prop where
  same : SameHistory s₀ s
  browse : s.browse = some b
  bound : b < s₀.count
  saved : s.saved = s₀.line
  line : s.line = s₀.historyLine b

theorem Browsing.up (hfits : ∀ b < s₀.count, (s₀.historyLine b).length < cmdBufSize) {b : ℕ} (h : Browsing s₀ s b) :
    Browsing s₀ (s.shellHandleKey .up) (min (b + 1) (s₀.count - 1)) := by
  have hb := h.bound
  have hcount : s.count ≠ 0 := by
    rw [h.same.count]
    omega
  have hnext : (if b < s.count - 1 then b + 1 else b) = min (b + 1) (s₀.count - 1) := by
    rw [h.same.count]
    split <;> omega
  simp only [shellHandleKey, if_neg hcount, h.browse, hnext, h.same.historyLine]
  have hbound : min (b + 1) (s₀.count - 1) < s₀.count := by omega
  exact ⟨⟨h.same.history, h.same.count, h.same.next⟩, rfl, hbound, h.saved, (setLine_line _ (hfits _ hbound)).1⟩

theorem Browsing.first (hfits : ∀ b < s.count, (s.historyLine b).length < cmdBufSize) (hcount : 0 < s.count)
    (hb : s.browse = none) (hlen : 0 ≤ s.len) (hl : IsLine s.line) : Browsing s (s.shellHandleKey .up) 0 := by
  have hsaved : (textAt (update s.buf s.len 0) 0).take (cmdBufSize - 1) = s.line := by
    have hline := submittedLine_eq hlen hl
    rw [submittedLine] at hline
    have := hl.fits
    rw [hline, take_of_length_le (by omega)]
  simp only [shellHandleKey, if_neg (Nat.pos_iff_ne_zero.1 hcount), hb]
  exact ⟨⟨rfl, rfl, rfl⟩, rfl, hcount, hsaved, (setLine_line _ (hfits 0 hcount)).1⟩

theorem ups_succ (k : ℕ) (s : Input) : s.ups (k + 1) = (s.ups k).shellHandleKey .up :=
  Function.iterate_succ_apply' ..

theorem downs_succ (k : ℕ) (s : Input) : s.downs (k + 1) = (s.shellHandleKey .down).downs k :=
  Function.iterate_succ_apply ..

theorem browsing_ups (hfits : ∀ b < s.count, (s.historyLine b).length < cmdBufSize) (hcount : 0 < s.count)
    (hb : s.browse = none) (hlen : 0 ≤ s.len) (hl : IsLine s.line) (k : ℕ) :
    Browsing s (s.ups (k + 1)) (min k (s.count - 1)) := by
  induction k with
  | zero =>
    rw [Nat.zero_min]
    exact Browsing.first hfits hcount hb hlen hl
  | succ k ih =>
    rw [ups_succ]
    have hmin : min (min k (s.count - 1) + 1) (s.count - 1) = min (k + 1) (s.count - 1) := by omega
    exact hmin ▸ ih.up hfits

theorem Browsing.down (hfits : ∀ b < s₀.count, (s₀.historyLine b).length < cmdBufSize) {b : ℕ}
    (h : Browsing s₀ s (b + 1)) : Browsing s₀ (s.shellHandleKey .down) b := by
  have hb := h.bound
  simp only [shellHandleKey, h.browse, h.same.historyLine]
  exact ⟨⟨h.same.history, h.same.count, h.same.next⟩, rfl, by omega, h.saved, (setLine_line _ (hfits b (by omega))).1⟩

/-- a DOWN outside the history does nothing -/
theorem downs_of_none (h : s.browse = none) (k : ℕ) : s.downs k = s := by
  induction k with
  | zero => rfl
  | succ k ih =>
    rw [downs_succ]
    simp only [shellHandleKey, h]
    exact ih

/-- the DOWN behind the most recent line, and those after it -/
theorem Browsing.downs (hfits : ∀ b < s₀.count, (s₀.historyLine b).length < cmdBufSize) (hl : IsLine s₀.line)
    {b : ℕ} (h : Browsing s₀ s b) {k : ℕ} (hk : b < k) :
    (s.downs k).line = s₀.line ∧ (s.downs k).len = s₀.line.length := by
  induction b generalizing s k with
  | zero =>
    obtain ⟨k, rfl⟩ : ∃ j, k = j + 1 := ⟨k - 1, by omega⟩
    have hdown : s.shellHandleKey .down = { s with browse := none }.setLine s₀.line := by
      simp only [shellHandleKey, h.browse, h.saved]
    rw [downs_succ, hdown, downs_of_none rfl]
    exact setLine_line _ hl.fits
  | succ b ih =>
    obtain ⟨k, rfl⟩ : ∃ j, k = j + 1 := ⟨k - 1, by omega⟩
    rw [downs_succ]
    exact ih (h.down hfits) (by omega)

theorem entries_length (s : Input) : s.entries.length = s.count := by
  rw [entries, length_map, length_range]

theorem Recorded.historyLine_fits (h : Recorded s past) : ∀ b < s.count, (s.historyLine b).length < cmdBufSize :=
  fun _ hb => h.fits _ (mem_of_getElem? (h.historyLine hb))

/-- **The history.** After any completed lines, the history is the last 16 of those that are not empty, repetitions
collapsed. From a state that does not browse, with any line: the j-th UP shows the j-th most recent entry, further UPs the
oldest; and `k` UPs followed by at least `min k history_count` DOWNs bring back the line and its length. -/
theorem history_law (lines : List (List UInt8)) (s : Input) (h : Submitted lines s) :
    s.entries = (collapsed lines).reverse.take 16 ∧
    (s.browse = none → 0 ≤ s.len → IsLine s.line →
      (∀ j, 1 ≤ j → j ≤ s.count → s.entries[j - 1]? = some (s.ups j).line) ∧
      (∀ j, 1 ≤ j → s.count ≤ j → 0 < s.count → s.entries.getLast? = some (s.ups j).line) ∧
      ∀ k d, 1 ≤ k → min k s.count ≤ d → ((s.ups k).downs d).line = s.line ∧ ((s.ups k).downs d).len = s.len) := by
  have hrec := h.recorded
  have hfits := hrec.historyLine_fits
  refine ⟨hrec.entries, fun hb hlen hl => ⟨fun j hj hcount => ?_, fun j hj hcount hpos => ?_, fun k d hk hd => ?_⟩⟩
  · obtain ⟨i, rfl⟩ : ∃ i, j = i + 1 := ⟨j - 1, by omega⟩
    have hbrowse := browsing_ups hfits (by omega) hb hlen hl i
    rw [hbrowse.line, Nat.add_sub_cancel, Nat.min_eq_left (by omega), entries, getElem?_map,
      getElem?_range (by omega), Option.map_some]
  · obtain ⟨i, rfl⟩ : ∃ i, j = i + 1 := ⟨j - 1, by omega⟩
    have hbrowse := browsing_ups hfits hpos hb hlen hl i
    rw [hbrowse.line, Nat.min_eq_right (by omega), getLast?_eq_getElem?, entries_length, entries,
      getElem?_map, getElem?_range (by omega), Option.map_some]
  · have hlength : (s.line.length : ℤ) = s.len := by
      rw [line, between_length, sub_zero]
      omega
    obtain ⟨i, rfl⟩ : ∃ i, k = i + 1 := ⟨k - 1, by omega⟩
    by_cases hpos : 0 < s.count
    · rw [← hlength]
      exact (browsing_ups hfits hpos hb hlen hl i).downs hfits hl (by omega)
    · -- without a history neither key does anything
      have hups : ∀ k, s.ups k = s := by
        intro k
        induction k with
        | zero => rfl
        | succ k ih =>
          rw [ups_succ, ih]
          simp only [shellHandleKey, if_pos (Nat.eq_zero_of_not_pos hpos)]
      rw [hups, downs_of_none hb]
      exact ⟨rfl, rfl⟩

/-! ## Runs -/

theorem sameHistory_key (s : Input) (k : Key) : SameHistory s (s.shellHandleKey k) := by
  cases k with
  | left | right | del =>
    simp only [shellHandleKey]
    split_ifs <;> exact ⟨rfl, rfl, rfl⟩
  | home | «end» => exact ⟨rfl, rfl, rfl⟩
  | up =>
    simp only [shellHandleKey]
    split_ifs
    · exact ⟨rfl, rfl, rfl⟩
    · cases s.browse <;> exact ⟨rfl, rfl, rfl⟩
  | down =>
    simp only [shellHandleKey]
    cases s.browse with
    | none => exact ⟨rfl, rfl, rfl⟩
    | some b => cases b <;> exact ⟨rfl, rfl, rfl⟩

theorem sameHistory_char (s : Input) {c : UInt8} (hc : c ≠ 10) : SameHistory s (s.shellHandleChar c) := by
  simp only [shellHandleChar, if_neg hc]
  split_ifs <;> exact ⟨rfl, rfl, rfl⟩

theorem sameHistory_start (s : Input) (m : Meaning) :
    SameHistory s (s.start m) ∧ (s.start m).completed = s.completed := by
  simp only [start]
  split_ifs
  · exact ⟨⟨rfl, rfl, rfl⟩, rfl⟩
  · split <;> exact ⟨⟨rfl, rfl, rfl⟩, rfl⟩
  · exact ⟨⟨rfl, rfl, rfl⟩, rfl⟩
  · exact ⟨⟨rfl, rfl, rfl⟩, rfl⟩

theorem sameHistory_go (s : Input) (m : Meaning) : SameHistory s (s.go m) ∧ (s.go m).completed = s.completed := by
  unfold go
  split
  · split_ifs
    · exact sameHistory_start s m
    · exact ⟨⟨rfl, rfl, rfl⟩, rfl⟩
  all_goals exact ⟨⟨rfl, rfl, rfl⟩, rfl⟩

/-- what a run completes is what has been submitted -/
theorem submitted_of_run {tr : List (Op × Unit)} (h : Run step Quiet init tr s) : Submitted s.completed s := by
  induction h with
  | nil => exact .init
  | @snoc s tr op hrun hop ih =>
    cases op with
    | char c =>
      by_cases hc : c = 10
      · subst hc
        have hdone := (s.char_enter).2.2.2.2.2.2.2
        show Submitted (s.shellHandleChar 10).completed (s.shellHandleChar 10)
        rw [hdone]
        exact .enter ih (line_in_bounds hrun).2.len
      · show Submitted (s.shellHandleChar c).completed (s.shellHandleChar c)
        rw [(s.edited_char hc).completed]
        exact .other ih (s.sameHistory_char hc)
    | key k =>
      show Submitted (s.shellHandleKey k).completed (s.shellHandleKey k)
      rw [(s.edited_key k).completed]
      exact .other ih (s.sameHistory_key k)
    | go m =>
      show Submitted (s.go m).completed (s.go m)
      rw [(s.sameHistory_go m).2]
      exact .other ih (s.sameHistory_go m).1

theorem history_law_two :
    (runOps step init twoLines).entries = [[112], [108, 115]] ∧
    some ((runOps step init twoLines).ups 2).line = some [108, 115] ∧
    (((runOps step init twoLines).ups 5).downs 2).line = [112] := by
  have hcompleted : (runOps step init twoLines).completed = [[108, 115], [112]] := by decide +kernel
  have hok : AllOk step Quiet init twoLines := by decide +kernel
  obtain ⟨tr, hrun⟩ := Run.of_allOk hok
  obtain ⟨hentries, hkeys⟩ := history_law _ _ (hcompleted ▸ submitted_of_run hrun)
  have hline : (runOps step init twoLines).line = [112] := by decide +kernel
  have hentries : (runOps step init twoLines).entries = [[112], [108, 115]] := hentries.trans (by decide +kernel)
  obtain ⟨hup, -, hdown⟩ := hkeys (by decide +kernel) (by decide +kernel)
    ⟨by rw [hline]; decide, by rw [hline]; decide⟩
  have hcount : (runOps step init twoLines).count = 2 := by decide +kernel
  refine ⟨hentries, ?_, ?_⟩
  · rw [← hup 2 (by decide) (by rw [hcount]), hentries]
    rfl
  · rw [(hdown 5 2 (by decide) (by rw [hcount]; decide)).1, hline]

end GannetOS.Shell.Input
