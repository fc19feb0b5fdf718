/-
How `dispatch` of `shell/shell.c` cuts a command line into stages.

The line is read as tokens, from left to right: `((` and `))` are one token each, every other character is one. The depth
goes up and down with them and does not go below 0. `linePieces` are the pieces between the `|` at depth 0, of any number;
`lineStages` are the same without an empty last one.

- `intercalate_linePieces`: the pieces, joined with `|`, are the line;
- `splitSegments_eq`: the code takes the first stages, as many as `seg_store` has room for;
- `dispatch_runs_all_iff`: so every stage of a line of at most 255 characters is run exactly if there are at most 8;
- `nine_stages`: of nine stages, the last one is not run.
-/
import GannetOS.Shell.Dispatch

namespace GannetOS.Shell

open GannetOS.Core GannetOS.Proc List

/-! ## Stages of a line -/

inductive Token
  | opening
  | closing
  | char (c : UInt8)
deriving DecidableEq

def tokens : List UInt8 → List Token
  | 40 :: 40 :: l => .opening :: tokens l
  | 41 :: 41 :: l => .closing :: tokens l
  | c :: l => .char c :: tokens l
  | [] => []

def Token.text : Token → List UInt8
  | .opening => [40, 40]
  | .closing => [41, 41]
  | .char c => [c]

/-- the depth behind a token -/
def Token.depth (depth : ℕ) : Token → ℕ
  | .opening => depth + 1
  | .closing => depth - 1
  | .char _ => depth

/-- the pieces between the `|` at depth 0 -/
def cutTokens : ℕ → List Token → List (List UInt8)
  | _, [] => [[]]
  | depth, t :: ts =>
    if t = .char 124 ∧ depth = 0 then [] :: cutTokens 0 ts
    else (cutTokens (t.depth depth) ts).modifyHead (t.text ++ ·)

def linePieces (line : List UInt8) : List (List UInt8) := cutTokens 0 (tokens line)

/-- the pieces without an empty last one -/
def dropEmptyLast (ps : List (List UInt8)) : List (List UInt8) := if ps.getLast? = some [] then ps.dropLast else ps

/-- the stages that the user wrote -/
def lineStages (line : List UInt8) : List (List UInt8) := dropEmptyLast (linePieces line)

theorem cutTokens_ne_nil (depth : ℕ) (ts : List Token) : cutTokens depth ts ≠ [] := by
  induction ts generalizing depth with
  | nil => exact cons_ne_nil _ _
  | cons t ts ih =>
    rw [cutTokens]
    split_ifs
    · exact cons_ne_nil _ _
    · rw [ne_eq, modifyHead_eq_nil_iff]
      exact ih _

theorem intercalate_modifyHead (a : List UInt8) {ps : List (List UInt8)} (h : ps ≠ []) :
    [124].intercalate (ps.modifyHead (a ++ ·)) = a ++ [124].intercalate ps := by
  cases ps with
  | nil => exact absurd rfl h
  | cons p ps =>
    cases ps with
    | nil => simp
    | cons q ps => simp [intercalate_cons_cons]

theorem intercalate_snoc {ps : List (List UInt8)} (h : ps ≠ []) (q : List UInt8) :
    [124].intercalate (ps ++ [q]) = [124].intercalate ps ++ [124] ++ q := by
  induction ps with
  | nil => exact absurd rfl h
  | cons p ps ih =>
    by_cases hps : ps = []
    · subst hps
      simp [intercalate_cons_cons]
    · rw [cons_append, intercalate_cons_of_ne_nil (by simp), intercalate_cons_of_ne_nil hps, ih hps]
      simp

theorem flatMap_tokens (line : List UInt8) : (tokens line).flatMap Token.text = line := by
  induction line using tokens.induct with
  | case1 l ih => rw [tokens, flatMap_cons, ih]; rfl
  | case2 l ih => rw [tokens, flatMap_cons, ih]; rfl
  | case3 c l hopen hclose ih => rw [tokens.eq_3 _ _ hopen hclose, flatMap_cons, ih]; rfl
  | case4 => rfl

theorem intercalate_cutTokens (depth : ℕ) (ts : List Token) :
    [124].intercalate (cutTokens depth ts) = ts.flatMap Token.text := by
  induction ts generalizing depth with
  | nil => rfl
  | cons t ts ih =>
    rw [cutTokens, flatMap_cons]
    split_ifs with hcut
    · rw [intercalate_cons_of_ne_nil (cutTokens_ne_nil _ _), ih, hcut.1]
      rfl
    · rw [intercalate_modifyHead _ (cutTokens_ne_nil _ _), ih]

/-- **The pieces of a line, joined, are the line.** -/
theorem intercalate_linePieces (line : List UInt8) : [124].intercalate (linePieces line) = line := by
  rw [linePieces, intercalate_cutTokens, flatMap_tokens]

/-- the stages joined are the line, up to one `|` at its end -/
theorem intercalate_lineStages (line : List UInt8) :
    [124].intercalate (lineStages line) = line ∨ [124].intercalate (lineStages line) ++ [124] = line := by
  have hjoin := intercalate_linePieces line
  unfold lineStages dropEmptyLast
  split_ifs with hlast
  · obtain ⟨qs, hqs⟩ := List.getLast?_eq_some_iff.1 hlast
    rw [hqs] at hjoin ⊢
    rw [dropLast_concat]
    rcases eq_nil_or_concat qs with rfl | ⟨init, q, rfl⟩
    · exact .inl hjoin
    · right
      rw [← hjoin, intercalate_snoc (by simp), append_nil]
  · exact .inl hjoin

/-! ## The code -/

/-- a `)` at depth 0 is copied, also in front of another one -/
theorem scanSegment_closing (l : List UInt8) :
    scanSegment 0 (41 :: l) = (41 :: (scanSegment 0 l).1, (scanSegment 0 l).2) := by
  cases l with
  | nil => rfl
  | cons d l => simp [scanSegment]

/-- a character that is in no pair -/
theorem scanSegment_char {c : UInt8} {l : List UInt8} (hopen : ∀ l', c = 40 → l = 40 :: l' → False)
    (hclose : ∀ l', c = 41 → l = 41 :: l' → False) (depth : ℕ) :
    scanSegment depth (c :: l) =
      if c = 124 ∧ depth = 0 then ([], c :: l) else (c :: (scanSegment depth l).1, (scanSegment depth l).2) := by
  cases l with
  | nil => rfl
  | cons d l =>
    have hno : ¬ (c = 40 ∧ d = 40) := fun h => hopen l h.1 (by rw [h.2])
    have hnc : ¬ (c = 41 ∧ d = 41 ∧ 0 < depth) := fun h => hclose l h.1 (by rw [h.2.1])
    rw [scanSegment, if_neg hno, if_neg hnc]

/-- the first piece, and what is left behind it -/
def Cuts (depth : ℕ) (l : List UInt8) (r : List UInt8 × List UInt8) : Prop :=
  r.1 ++ r.2 = l ∧ ((r.2 = [] ∧ cutTokens depth (tokens l) = [r.1]) ∨
    ∃ rest, r.2 = 124 :: rest ∧ cutTokens depth (tokens l) = r.1 :: linePieces rest)

/-- a token that belongs to the piece -/
theorem Cuts.token {t : Token} {depth : ℕ} {l : List UInt8} {r : List UInt8 × List UInt8} (h : Cuts (t.depth depth) l r)
    (htokens : tokens (t.text ++ l) = t :: tokens l) (ht : ¬ (t = .char 124 ∧ depth = 0)) :
    Cuts depth (t.text ++ l) (t.text ++ r.1, r.2) := by
  obtain ⟨happend, hcuts⟩ := h
  refine ⟨by rw [append_assoc, happend], ?_⟩
  rw [htokens, cutTokens, if_neg ht]
  rcases hcuts with ⟨hend, hcut⟩ | ⟨rest, hend, hcut⟩
  · exact .inl ⟨hend, by rw [hcut]; rfl⟩
  · exact .inr ⟨rest, hend, by rw [hcut]; rfl⟩

/-- **The inner loop finds the first piece.** -/
theorem scanSegment_cuts (depth : ℕ) (l : List UInt8) : Cuts depth l (scanSegment depth l) := by
  induction hn : l.length using Nat.strong_induction_on generalizing depth l with
  | _ n ih =>
    subst hn
    fun_cases tokens l with
    | case1 l =>
      have hrest := ih l.length (by simp) (depth + 1) l rfl
      exact hrest.token (t := .opening) rfl (by simp)
    | case2 l =>
      have hrest := ih l.length (by simp) (depth - 1) l rfl
      have hscan : scanSegment depth (41 :: 41 :: l) =
          (41 :: 41 :: (scanSegment (depth - 1) l).1, (scanSegment (depth - 1) l).2) := by
        cases depth with
        | zero => rw [scanSegment_closing, scanSegment_closing]
        | succ depth => simp [scanSegment]
      rw [hscan]
      exact hrest.token (t := .closing) rfl (by simp)
    | case3 c l hopen hclose =>
      rw [scanSegment_char hopen hclose]
      by_cases hcut : c = 124 ∧ depth = 0
      · obtain ⟨rfl, rfl⟩ := hcut
        refine ⟨rfl, .inr ⟨l, rfl, ?_⟩⟩
        rw [tokens.eq_3 _ _ hopen hclose, cutTokens, if_pos ⟨rfl, rfl⟩]
        rfl
      · rw [if_neg hcut]
        have hrest := ih l.length (by simp) depth l rfl
        exact hrest.token (t := .char c) (tokens.eq_3 _ _ hopen hclose) fun h => hcut ⟨Token.char.inj h.1, h.2⟩
    | case4 => exact ⟨rfl, .inl ⟨rfl, rfl⟩⟩

theorem linePieces_ne_nil (line : List UInt8) : linePieces line ≠ [] := cutTokens_ne_nil _ _

theorem dropEmptyLast_cons (p : List UInt8) {ps : List (List UInt8)} (h : ps ≠ []) :
    dropEmptyLast (p :: ps) = p :: dropEmptyLast ps := by
  unfold dropEmptyLast
  rw [getLast?_cons_of_ne_nil h]
  split_ifs
  · exact dropLast_cons_of_ne_nil h
  · rfl

/-- **The outer loop takes the first stages.** -/
theorem splitSegments_eq (n : ℕ) {line : List UInt8} (hlen : line.length ≤ 255) :
    splitSegments n line = (lineStages line).take n := by
  induction n generalizing line with
  | zero => cases line <;> rfl
  | succ n ih =>
    cases line with
    | nil => rfl
    | cons c l =>
      obtain ⟨happend, hcuts⟩ := scanSegment_cuts 0 (c :: l)
      have hshort : (scanSegment 0 (c :: l)).1.length + (scanSegment 0 (c :: l)).2.length ≤ 255 := by
        rwa [← length_append, happend]
      rw [splitSegments, take_of_length_le (by rw [cmdBufSize]; omega)]
      · rcases hcuts with ⟨hend, hcut⟩ | ⟨rest, hend, hcut⟩
        · -- the last piece is the whole line, so it is not empty
          rw [hend, append_nil] at happend
          have hstages : lineStages (c :: l) = [c :: l] := by
            rw [lineStages, linePieces, hcut, happend]
            rfl
          have hnil : splitSegments n [] = [] := by cases n <;> rfl
          rw [hend, hstages, happend]
          show (c :: l) :: splitSegments n [] = _
          rw [hnil, take_succ_cons, take_nil]
        · rw [hend, length_cons] at hshort
          have hstages : lineStages (c :: l) = (scanSegment 0 (c :: l)).1 :: lineStages rest := by
            rw [lineStages, linePieces, hcut, dropEmptyLast_cons _ (linePieces_ne_nil rest)]
            rfl
          rw [hend, head?_cons, if_pos rfl, tail_cons, ih (by omega), hstages, take_succ_cons]
      · exact cons_ne_nil c l

/-! ## What is run -/

/-- the events of every stage come from a run of it -/
theorem runStages_runs (run : ℕ → List UInt8 → Prog) (i : ℕ) (stdin : Option Source) (segs : List (List UInt8)) (p : Pipe) :
    (runStages run i stdin segs p).1.length = segs.length ∧
      ∀ j seg, segs[j]? = some seg → ∃ q, (runStages run i stdin segs p).1[j]? = some ((run (i + j) seg).run q).1 := by
  induction segs generalizing i stdin p with
  | nil => exact ⟨rfl, fun j seg h => by cases h⟩
  | cons seg segs ih =>
    cases segs with
    | nil =>
      rw [runStages_last]
      refine ⟨rfl, fun j seg' h => ?_⟩
      cases j with
      | zero =>
        obtain rfl := Option.some.inj h
        exact ⟨_, rfl⟩
      | succ j => cases h
    | cons seg' rest =>
      obtain ⟨hlen, hruns⟩ := ih (i + 1) (some .pipeBuf) (endStage ((run i seg).run (openStage p stdin)).2)
      rw [runStages_cons]
      refine ⟨congrArg (· + 1) hlen, fun j seg'' h => ?_⟩
      cases j with
      | zero =>
        obtain rfl := Option.some.inj h
        exact ⟨_, rfl⟩
      | succ j =>
        obtain ⟨q, hq⟩ := hruns j seg'' h
        refine ⟨q, hq.trans ?_⟩
        rw [Nat.add_right_comm]
        rfl

theorem dispatch_eq (run : ℕ → List UInt8 → Prog) (line : CStr) :
    dispatch run line = runStages run 0 none (segments line) := by
  unfold dispatch
  split
  · rename_i seg hseg
    rw [hseg]
    rfl
  · rfl

/-- every stage of the line is run, in order, and nothing of the line is lost -/
structure RunsAll (line : CStr) : Prop where
  segments : segments line = lineStages line.bytes
  joined : [124].intercalate (Shell.segments line) = line.bytes ∨
    [124].intercalate (Shell.segments line) ++ [124] = line.bytes
  run : ∀ run p, (dispatch run line p).1.length = (lineStages line.bytes).length ∧
    ∀ j seg, (lineStages line.bytes)[j]? = some seg → ∃ q, (dispatch run line p).1[j]? = some ((run j seg).run q).1

/-- **When every stage is run.** For every line of at most 255 characters: if and only if it has at most 8 stages. -/
theorem dispatch_runs_all_iff (line : CStr) (hlen : line.bytes.length ≤ 255) :
    RunsAll line ↔ (lineStages line.bytes).length ≤ maxSegments := by
  have hsegments : segments line = (lineStages line.bytes).take maxSegments := splitSegments_eq maxSegments hlen
  constructor
  · intro h
    rw [← h.segments, hsegments]
    exact length_take_le _ _
  · intro hfew
    rw [take_of_length_le hfew] at hsegments
    refine ⟨hsegments, ?_, fun run p => ?_⟩
    · rw [hsegments]
      exact intercalate_lineStages line.bytes
    · rw [dispatch_eq, hsegments]
      have hruns := runStages_runs run 0 none (lineStages line.bytes) p
      simp only [Nat.zero_add] at hruns
      exact hruns

/-- `a|((b|c))||d|` -/
def nestedLine : CStr := ⟨ascii "a|((b|c))||d|", by decide⟩

theorem dispatch_runs_all_nested : lineStages nestedLine.bytes = [ascii "a", ascii "((b|c))", [], ascii "d"] ∧
    RunsAll nestedLine := by
  have hstages : lineStages nestedLine.bytes = [ascii "a", ascii "((b|c))", [], ascii "d"] := by decide +kernel
  exact ⟨hstages, (dispatch_runs_all_iff nestedLine (by decide)).2 (by rw [hstages]; decide)⟩

def nineLine : CStr := ⟨ascii "a|b|c|d|e|f|g|h|i", by decide⟩

/-- **Of nine stages, the last one is not run.** -/
theorem nine_stages : lineStages nineLine.bytes =
      [ascii "a", ascii "b", ascii "c", ascii "d", ascii "e", ascii "f", ascii "g", ascii "h", ascii "i"] ∧
    segments nineLine = [ascii "a", ascii "b", ascii "c", ascii "d", ascii "e", ascii "f", ascii "g", ascii "h"] := by
  decide +kernel

end GannetOS.Shell
