/-
The command line of `shell/shell.c`: the keyboard interrupt edits it, kernel_main's loop runs it.

Both sides share buf, buf_len, buf_cur and the flag cmd_pending. `shell_handle_char` and `shell_handle_key` run inside the
keyboard interrupt and are one step each. `shell_run_pending_command` is cut where an interrupt may fall: before
`dispatch` reads the line; after `expand_vars` has read it; after the expansion has been copied back into buf; after the
split; between the rounds of a `for` loop, each of which reads the variable's name and the body from buf again; and
between the four statements that end it. Indices are C ints and may leave [0, CMD_BUF_SIZE) when steps interleave.

The state also records what the outside sees: the lines completed with Enter, each with its text at that moment, the lines
that `dispatch` has read to run them, and, for every later read of buf that `dispatch` makes while it runs a line, what the
line it had read would give and what it got.

What variables and `for` headers mean is left open (`Meaning`, any function of the line, another one at every step). The
terminal is left out.

- `lines_run_as_typed`: if no key event reaches the shell while cmd_pending is set, the lines run are the lines completed,
  in order, each once and as it was when Enter was pressed;
- `line_in_bounds`: and then the cursor stays in the line and the line in buf;
- `key_after_enter_alters_line`: a key between Enter and the run changes the line that runs, and an Enter just before
  cmd_pending is cleared is lost.
-/
import GannetOS.Core.Run
import GannetOS.Shell.Dispatch

namespace GannetOS.Shell

open GannetOS.Core List
open Function (update update_idem update_of_ne)

/-! ## State -/

def historySize : ℕ := 16

def envNameMax : ℕ := 32

inductive Key where
  | left
  | right
  | home
  | end
  | up
  | down
  | del
deriving DecidableEq, Repr

/-- where kernel_main's loop is -/
inductive Phase where
  /-- outside `shell_run_pending_command` -/
  | idle
  /-- `expand_vars` has read the line; the expansion is on the stack -/
  | expanded (text : List UInt8)
  /-- the expansion is in buf, to be split -/
  | copied (text : List UInt8)
  /-- the segments run from seg_store -/
  | running
  /-- a `for` loop: where its variable's name and its body stand in buf, with their texts, and how many rounds are to go -/
  | loop (parts : List (ℕ × List UInt8)) (rounds : ℕ)
  /-- `dispatch` has returned -/
  | ending
  /-- buf_len is 0 -/
  | cleared
  /-- buf_cur is 0 and the prompt is out -/
  | prompted
deriving DecidableEq, Repr

structure Input where
  buf : ℤ → UInt8
  len : ℤ
  cur : ℤ
  pending : Bool
  history : ℕ → List UInt8
  count : ℕ
  next : ℕ
  /-- history_browse, none for -1 -/
  browse : Option ℕ
  /-- history_saved_line -/
  saved : List UInt8
  phase : Phase
  /-- the lines completed with Enter -/
  completed : List (List UInt8)
  /-- the lines that `dispatch` has read -/
  ran : List (List UInt8)
  /-- later reads of buf: expected and got -/
  rereads : List (List UInt8 × List UInt8)

/-- shell_init -/
def Input.init : Input :=
  { buf := fun _ => 0, len := 0, cur := 0, pending := false, history := fun _ => [], count := 0, next := 0, browse := none,
    saved := [], phase := .idle, completed := [], ran := [], rereads := [] }

/-- what the shell's variables make of a line at some moment: its expansion, and for a `for` line where its variable's
name and its body are, how long, and for how many rounds it runs (none for a syntax error) -/
structure Meaning where
  expand : List UInt8 → List UInt8
  loop : List UInt8 → Option ((ℕ × ℕ) × (ℕ × ℕ) × ℕ)
  /-- both are parts of the line -/
  inside : ∀ line name body rounds, loop line = some (name, body, rounds) →
    name.1 + name.2 ≤ line.length ∧ body.1 + body.2 ≤ line.length

/-- the string at buf + off -/
def textAt (buf : ℤ → UInt8) (off : ℤ) : List UInt8 := cstr ((List.range cmdBufSize).map fun i : ℕ => buf (off + i))

/-- `strcpy_s(buf, text, CMD_BUF_SIZE)` of a string that fits -/
def writeText (buf : ℤ → UInt8) (text : List UInt8) : ℤ → UInt8 := fun i =>
  if 0 ≤ i ∧ i < text.length then text.getD i.toNat 0 else if i = text.length then 0 else buf i

/-! ## Editing -/

namespace Input

def historyPush (s : Input) (line : List UInt8) : Input :=
  if line = [] ∨ 0 < s.count ∧ s.history ((s.next + (historySize - 1)) % historySize) = line then s
  else
    { s with
      history := update s.history s.next (line.take (cmdBufSize - 1))
      next := (s.next + 1) % historySize
      count := if s.count < historySize then s.count + 1 else s.count }

/-- set_line_from_history -/
def setLine (s : Input) (text : List UInt8) : Input :=
  let text := text.take (cmdBufSize - 1)
  { s with
    buf := fun i => if 0 ≤ i ∧ i < text.length then text.getD i.toNat 0 else s.buf i
    len := text.length
    cur := text.length }

/-- the history line that `browse` lines back -/
def historyLine (s : Input) (b : ℕ) : List UInt8 := s.history ((s.next + (historySize - 1) - b) % historySize)

def shellHandleChar (s : Input) (c : UInt8) : Input :=
  if c = 10 then
    let s : Input := { s with buf := update s.buf s.len 0 }
    let line := textAt s.buf 0
    { s.historyPush line with browse := none, pending := true, completed := s.completed ++ [line] }
  else if c = 8 then
    if 0 < s.cur then
      { s with
        buf := fun i => if s.cur - 1 ≤ i ∧ i < s.len - 1 then s.buf (i + 1) else s.buf i
        len := s.len - 1
        cur := s.cur - 1 }
    else s
  else if s.len < cmdBufSize - 1 then
    { s with
      buf := fun i => if s.cur < i ∧ i ≤ s.len then s.buf (i - 1) else if i = s.cur then c else s.buf i
      len := s.len + 1
      cur := s.cur + 1 }
  else s

def shellHandleKey (s : Input) : Key → Input
  | .left => if 0 < s.cur then { s with cur := s.cur - 1 } else s
  | .right => if s.cur < s.len then { s with cur := s.cur + 1 } else s
  | .home => { s with cur := 0 }
  | .end => { s with cur := s.len }
  | .up =>
    if s.count = 0 then s
    else
      match s.browse with
      | none =>
        let s : Input := { s with buf := update s.buf s.len 0 }
        { s with saved := (textAt s.buf 0).take (cmdBufSize - 1), browse := some 0 }.setLine (s.historyLine 0)
      | some b =>
        let b := if b < s.count - 1 then b + 1 else b
        { s with browse := some b }.setLine (s.historyLine b)
  | .down =>
    match s.browse with
    | none => s
    | some 0 => { s with browse := none }.setLine s.saved
    | some (b + 1) => { s with browse := some b }.setLine (s.historyLine b)
  | .del =>
    if s.cur < s.len then
      { s with
        buf := fun i => if s.cur ≤ i ∧ i < s.len - 1 then s.buf (i + 1) else s.buf i
        len := s.len - 1 }
    else s

/-! ## Running -/

def isVarStart (c : UInt8) : Bool := 65 ≤ c ∧ c ≤ 90 ∨ 97 ≤ c ∧ c ≤ 122 ∨ c = 95

def isVarBody (c : UInt8) : Bool := isVarStart c ∨ 48 ≤ c ∧ c ≤ 57

/-- the line is a `for` loop -/
def isFor (line : List UInt8) : Bool :=
  let l := line.dropWhile (· = 32)
  l.take 3 = [102, 111, 114] ∧ (l.getD 3 0 = 32 ∨ l.length = 3)

/-- the first `n` bytes that belong to a name are skipped -/
def skipName : ℕ → List UInt8 → List UInt8
  | n + 1, c :: l => if isVarBody c then skipName n l else c :: l
  | _, l => l

/-- the line is nothing but a variable -/
def isVarQuery (line : List UInt8) : Bool :=
  match line.dropWhile (· = 32) with
  | 36 :: c :: l => isVarStart c ∧ (skipName (envNameMax - 1) (c :: l)).dropWhile (· = 32) = []
  | _ => false

/-- the start of `shell_run_pending_command`: `dispatch` reads the line -/
def start (s : Input) (m : Meaning) : Input :=
  let s : Input := { s with buf := update s.buf s.len 0 }
  if s.len = 0 then { s with ran := s.ran ++ [[]], phase := .ending }
  else
    let line := textAt s.buf 0
    let s : Input := { s with ran := s.ran ++ [line] }
    if isFor line then
      match m.loop line with
      | none => { s with phase := .ending }
      | some (name, body, rounds) =>
        let buf := update (update s.buf (name.1 + name.2 : ℤ) 0) (body.1 + body.2 : ℤ) 0
        { s with buf := buf, phase := .loop [(name.1, textAt buf name.1), (body.1, textAt buf body.1)] rounds }
    else if isVarQuery line then { s with phase := .ending }
    else { s with phase := .expanded (cstr ((m.expand line).take (cmdBufSize - 1))) }

/-- kernel_main's loop goes on -/
def go (s : Input) (m : Meaning) : Input :=
  match s.phase with
  | .idle => if s.pending then s.start m else s
  | .expanded text =>
    { s with
      buf := writeText s.buf text
      len := text.length
      phase := if text = [] then .ending else .copied text }
  | .copied text => { s with rereads := s.rereads ++ [(text, textAt s.buf 0)], phase := .running }
  | .running => { s with phase := .ending }
  | .loop _ 0 => { s with phase := .ending }
  | .loop parts (n + 1) =>
    { s with rereads := s.rereads ++ parts.map fun x => (x.2, textAt s.buf x.1), phase := .loop parts n }
  | .ending => { s with len := 0, phase := .cleared }
  | .cleared => { s with cur := 0, phase := .prompted }
  | .prompted => { s with pending := false, phase := .idle }

inductive Op where
  | char (c : UInt8)
  | key (k : Key)
  | go (m : Meaning)

def step (s : Input) : Op → Unit × Input
  | .char c => ((), s.shellHandleChar c)
  | .key k => ((), s.shellHandleKey k)
  | .go m => ((), s.go m)

/-- key events reach the shell only while no command is pending -/
def Quiet (s : Input) : Op → Prop
  | .char _ | .key _ => s.pending = false
  | .go _ => True

/-! ## What a step can do -/

variable {s s' : Input}

/-- what an edit of the line leaves alone -/
structure Edited (s s' : Input) : Prop where
  pending : s'.pending = s.pending
  phase : s'.phase = s.phase
  completed : s'.completed = s.completed
  ran : s'.ran = s.ran
  rereads : s'.rereads = s.rereads

theorem edited_key (s : Input) (k : Key) : Edited s (s.shellHandleKey k) := by
  cases k with
  | left | right | del =>
    simp only [shellHandleKey]
    split_ifs <;> exact ⟨rfl, rfl, rfl, rfl, rfl⟩
  | home | «end» => exact ⟨rfl, rfl, rfl, rfl, rfl⟩
  | up =>
    simp only [shellHandleKey]
    split_ifs
    · exact ⟨rfl, rfl, rfl, rfl, rfl⟩
    · cases s.browse <;> exact ⟨rfl, rfl, rfl, rfl, rfl⟩
  | down =>
    simp only [shellHandleKey]
    cases s.browse with
    | none => exact ⟨rfl, rfl, rfl, rfl, rfl⟩
    | some b => cases b <;> exact ⟨rfl, rfl, rfl, rfl, rfl⟩

theorem edited_char (s : Input) {c : UInt8} (hc : c ≠ 10) : Edited s (s.shellHandleChar c) := by
  simp only [shellHandleChar, if_neg hc]
  split_ifs <;> exact ⟨rfl, rfl, rfl, rfl, rfl⟩

/-- history_push touches the history only -/
theorem historyPush_eq (s : Input) (line : List UInt8) :
    ∃ h n k, s.historyPush line = { s with history := h, next := n, count := k } := by
  unfold historyPush
  split_ifs <;> exact ⟨_, _, _, rfl⟩

/-- Enter: the line is completed as it is -/
theorem char_enter (s : Input) : (s.shellHandleChar 10).buf = update s.buf s.len 0 ∧
    (s.shellHandleChar 10).len = s.len ∧ (s.shellHandleChar 10).cur = s.cur ∧ (s.shellHandleChar 10).pending = true ∧
    (s.shellHandleChar 10).phase = s.phase ∧ (s.shellHandleChar 10).ran = s.ran ∧
    (s.shellHandleChar 10).rereads = s.rereads ∧
    (s.shellHandleChar 10).completed = s.completed ++ [textAt (update s.buf s.len 0) 0] := by
  obtain ⟨h, n, k, he⟩ := historyPush_eq { s with buf := update s.buf s.len 0 }
    (textAt (update s.buf s.len 0) 0)
  simp only [shellHandleChar, if_true, he, and_self]

/-! ## Lines run as typed -/

/-- the string written into buf is what a reader finds there -/
theorem textAt_writeText (buf : ℤ → UInt8) {text : List UInt8} (hlen : text.length < cmdBufSize)
    (hnul : (0 : UInt8) ∉ text) :
    textAt (writeText buf text) 0 = text := by
  have hread : (List.range cmdBufSize).map (fun i : ℕ => writeText buf text (0 + i)) =
      text ++ 0 :: (List.range' (text.length + 1) (cmdBufSize - (text.length + 1))).map (fun i : ℕ => buf i) := by
    apply ext_getElem
    · simp
      omega
    · intro i h₁ h₂
      simp only [getElem_map, getElem_range, zero_add, writeText]
      rcases lt_trichotomy i text.length with hi | hi | hi
      · rw [if_pos ⟨by omega, by omega⟩, getElem_append_left hi]
        simp [hi]
      · subst hi
        simp
      · rw [if_neg (by omega), if_neg (by omega), getElem_append_right (by omega)]
        obtain ⟨d, rfl⟩ : ∃ d, i = text.length + 1 + d := ⟨i - (text.length + 1), by omega⟩
        have : text.length + 1 + d - text.length = d + 1 := by omega
        simp [this]
  rw [textAt, hread, cstr, takeWhile_append_of_pos]
  · simp
  · intro x hx
    simpa using fun h0 : x = 0 => hnul (h0 ▸ hx)

/-- what holds between the keyboard and the main loop when no key event reaches a pending command -/
structure Sound (s : Input) : Prop where
  busy : s.phase ≠ .idle → s.pending = true ∧ s.completed = s.ran
  done : s.pending = false → s.completed = s.ran
  /-- the line that waits is still the one that was completed -/
  waiting : s.phase = .idle → s.pending = true → s.completed = s.ran ++ [textAt (update s.buf s.len 0) 0]
  expanded : ∀ text, s.phase = .expanded text → text.length < cmdBufSize ∧ (0 : UInt8) ∉ text
  copied : ∀ text, s.phase = .copied text → textAt s.buf 0 = text
  loop : ∀ parts n, s.phase = .loop parts n → ∀ x ∈ parts, textAt s.buf x.1 = x.2
  rereads : ∀ x ∈ s.rereads, x.2 = x.1

theorem Sound.idle (h : s.Sound) (hq : s.pending = false) : s.phase = .idle := by
  by_contra hne
  rw [(h.busy hne).1] at hq
  cases hq

/-- nothing runs: only the lines and what was read again matter -/
theorem Sound.of_idle (h : s.Sound) (hidle : s'.phase = .idle) (hdone : s'.pending = false → s'.completed = s'.ran)
    (hwait : s'.pending = true → s'.completed = s'.ran ++ [textAt (update s'.buf s'.len 0) 0])
    (hre : s'.rereads = s.rereads) : s'.Sound := by
  refine ⟨fun hne => absurd hidle hne, hdone, fun _ => hwait, fun _ ht => ?_, fun _ ht => ?_, fun _ _ hl => ?_,
    hre ▸ h.rereads⟩
  · cases hidle.symm.trans ht
  · cases hidle.symm.trans ht
  · cases hidle.symm.trans hl

/-- an edit while no command is pending -/
theorem Sound.edited (h : s.Sound) (hq : s.pending = false) (he : Edited s s') : s'.Sound := by
  refine h.of_idle (he.phase.trans (h.idle hq)) (fun _ => ?_) (fun hp => ?_) he.rereads
  · rw [he.completed, he.ran]
    exact h.done hq
  · rw [he.pending, hq] at hp
    cases hp

theorem Sound.enter (h : s.Sound) (hq : s.pending = false) : (s.shellHandleChar 10).Sound := by
  obtain ⟨hbuf, hlen, -, hp, hphase, hran, hre, hcomp⟩ := s.char_enter
  refine h.of_idle (hphase.trans (h.idle hq)) (fun hf => ?_) (fun _ => ?_) hre
  · rw [hp] at hf
    cases hf
  · rw [hcomp, hran, hbuf, hlen, update_idem, h.done hq]

theorem textAt_nul (buf : ℤ → UInt8) : textAt (update buf 0 0) 0 = [] := by
  rw [textAt, show cmdBufSize = 255 + 1 from rfl, range_succ_eq_map, map_cons]
  simp

theorem cstr_take_length (l : List UInt8) : (cstr (l.take (cmdBufSize - 1))).length < cmdBufSize := by
  have := (cstr_length_le (l.take (cmdBufSize - 1))).trans (length_take_le _ _)
  simp only [cmdBufSize] at this ⊢
  omega

/-- `dispatch` has read the line, whatever it is: nothing is completed or waits -/
structure Started (s s' : Input) : Prop where
  pending : s'.pending = s.pending
  completed : s'.completed = s.completed
  rereads : s'.rereads = s.rereads
  ran : s'.ran = s.ran ++ [textAt (update s.buf s.len 0) 0]
  phase : s'.phase ≠ .idle ∧ ∀ text, s'.phase ≠ .copied text
  expanded : ∀ text, s'.phase = .expanded text → text.length < cmdBufSize ∧ (0 : UInt8) ∉ text
  loop : ∀ parts n, s'.phase = .loop parts n → ∀ x ∈ parts, textAt s'.buf x.1 = x.2

theorem started_start (s : Input) (m : Meaning) : Started s (s.start m) := by
  unfold start
  by_cases hlen : s.len = 0
  · simp only [hlen, if_true]
    exact ⟨rfl, rfl, rfl, by rw [hlen, textAt_nul], ⟨by simp, by simp⟩, by simp, by simp⟩
  simp only [if_neg hlen]
  by_cases hfor : isFor (textAt (update s.buf s.len 0) 0)
  · rw [if_pos hfor]
    cases m.loop (textAt (update s.buf s.len 0) 0) with
    | none => exact ⟨rfl, rfl, rfl, rfl, ⟨by simp, by simp⟩, by simp, by simp⟩
    | some x =>
      refine ⟨rfl, rfl, rfl, rfl, ⟨by simp, by simp⟩, by simp, fun parts n hl => ?_⟩
      obtain ⟨rfl, -⟩ := Phase.loop.inj hl
      simp
  rw [if_neg hfor]
  by_cases hvar : isVarQuery (textAt (update s.buf s.len 0) 0)
  · rw [if_pos hvar]
    exact ⟨rfl, rfl, rfl, rfl, ⟨by simp, by simp⟩, by simp, by simp⟩
  · rw [if_neg hvar]
    refine ⟨rfl, rfl, rfl, rfl, ⟨by simp, by simp⟩, fun text ht => ?_, by simp⟩
    rw [← Phase.expanded.inj ht]
    exact ⟨cstr_take_length _, cstr_nulFree _⟩

/-- a step of a command that is running: what is completed and what has been read stay -/
theorem Sound.running (h : s.Sound) (hne : s.phase ≠ .idle) (hcomp : s'.completed = s.completed) (hran : s'.ran = s.ran)
    (hphase : s'.phase ≠ .idle ∧ s'.pending = s.pending ∨ s'.phase = .idle ∧ s'.pending = false)
    (hexp : ∀ text, s'.phase ≠ .expanded text) (hcop : ∀ text, s'.phase = .copied text → textAt s'.buf 0 = text)
    (hloop : ∀ parts n, s'.phase = .loop parts n → ∀ x ∈ parts, textAt s'.buf x.1 = x.2)
    (hre : ∀ x ∈ s'.rereads, x.2 = x.1) : s'.Sound := by
  obtain ⟨hp, hc⟩ := h.busy hne
  have hcr : s'.completed = s'.ran := by rw [hcomp, hran, hc]
  refine ⟨fun hne' => ⟨?_, hcr⟩, fun _ => hcr, fun hidle hpend => ?_, fun text ht => absurd ht (hexp text), hcop, hloop, hre⟩
  · rcases hphase with ⟨-, hpend⟩ | ⟨hidle, -⟩
    · rw [hpend, hp]
    · exact absurd hidle hne'
  · rcases hphase with ⟨hne', -⟩ | ⟨-, hf⟩
    · exact absurd hidle hne'
    · rw [hf] at hpend
      cases hpend

theorem Sound.go (h : s.Sound) (m : Meaning) : (s.go m).Sound := by
  have happend {l : List (List UInt8 × List UInt8)} (hl : ∀ x ∈ l, x.2 = x.1) : ∀ x ∈ s.rereads ++ l, x.2 = x.1 :=
    fun x hx => (List.mem_append.1 hx).elim (h.rereads x) (hl x)
  cases hp : s.phase with
  | idle =>
    simp only [Input.go, hp]
    split_ifs with hpend
    · have hst := s.started_start m
      have hcr : (s.start m).completed = (s.start m).ran := by
        rw [hst.completed, hst.ran]
        exact h.waiting hp hpend
      refine ⟨fun _ => ⟨hst.pending.trans hpend, hcr⟩, fun _ => hcr, fun hidle => absurd hidle hst.phase.1, hst.expanded,
        fun text ht => absurd ht (hst.phase.2 text), hst.loop, ?_⟩
      rw [hst.rereads]
      exact h.rereads
    · exact h
  | expanded text =>
    obtain ⟨hlen, hnul⟩ := h.expanded text hp
    simp only [Input.go, hp]
    refine h.running (by simp [hp]) rfl rfl (.inl ⟨?_, rfl⟩) (fun t => ?_) (fun t ht => ?_) (fun parts n hl => ?_)
      h.rereads
    · dsimp only
      split_ifs <;> simp
    · dsimp only
      split_ifs <;> simp
    · dsimp only at ht ⊢
      split_ifs at ht
      rw [← Phase.copied.inj ht]
      exact textAt_writeText _ hlen hnul
    · dsimp only at hl
      split_ifs at hl
  | copied text =>
    simp only [Input.go, hp]
    exact h.running (by simp [hp]) rfl rfl (.inl ⟨by simp, rfl⟩) (by simp) (by simp) (by simp)
      (happend (by simpa using h.copied text hp))
  | running | ending | cleared =>
    simp only [Input.go, hp]
    exact h.running (by simp [hp]) rfl rfl (.inl ⟨by simp, rfl⟩) (by simp) (by simp) (by simp) h.rereads
  | loop parts n =>
    cases n with
    | zero =>
      simp only [Input.go, hp]
      exact h.running (by simp [hp]) rfl rfl (.inl ⟨by simp, rfl⟩) (by simp) (by simp) (by simp) h.rereads
    | succ n =>
      simp only [Input.go, hp]
      refine h.running (by simp [hp]) rfl rfl (.inl ⟨by simp, rfl⟩) (by simp) (by simp) (fun parts' n' hl => ?_)
        (happend (forall_mem_map.2 (h.loop parts _ hp)))
      obtain ⟨rfl, -⟩ := Phase.loop.inj hl
      exact h.loop _ _ hp
  | prompted =>
    simp only [Input.go, hp]
    exact h.running (by simp [hp]) rfl rfl (.inr ⟨rfl, rfl⟩) (by simp) (by simp) (by simp) h.rereads

theorem Sound.step (h : s.Sound) {op : Op} (hop : s.Quiet op) : (s.step op).2.Sound := by
  cases op with
  | char c =>
    by_cases hc : c = 10
    · subst hc
      exact h.enter hop
    · exact h.edited hop (s.edited_char hc)
  | key k => exact h.edited hop (s.edited_key k)
  | go m => exact h.go m

theorem sound_init : init.Sound :=
  ⟨fun hne => absurd rfl hne, fun _ => rfl, fun _ hp => (nomatch hp), by simp [init], by simp [init], by simp [init],
    by simp [init]⟩

/-- **Lines run as typed.** In every run in which no key event reaches the shell while a command is pending: the lines that
`dispatch` has read are the lines completed with Enter, in order and each once, but for one that may still wait; that one
is read next, as it was when Enter was pressed; and whatever `dispatch` reads from buf later is what that line gives. -/
theorem lines_run_as_typed {tr : List (Op × Unit)} (h : Run step Quiet init tr s) :
    (s.pending = false → s.ran = s.completed) ∧
    (s.phase ≠ .idle → s.ran = s.completed) ∧
    (s.phase = .idle → s.pending = true → ∃ line, s.completed = s.ran ++ [line] ∧ ∀ m, (s.go m).ran = s.completed) ∧
    ∀ x ∈ s.rereads, x.2 = x.1 := by
  have hs : s.Sound := h.invariant (fun s op hinv hop => hinv.step hop) sound_init
  refine ⟨fun hp => (hs.done hp).symm, fun hne => (hs.busy hne).2.symm,
    fun hidle hp => ⟨_, hs.waiting hidle hp, fun m => ?_⟩,
    hs.rereads⟩
  simp only [Input.go, hidle, hp, if_true]
  rw [(s.started_start m).ran]
  exact (hs.waiting hidle hp).symm

/-- variables that leave a line as it is -/
def plain : Meaning := ⟨id, fun _ => none, by simp⟩

instance (s : Input) (op : Op) : Decidable (s.Quiet op) := by
  cases op <;> unfold Quiet <;> infer_instance

/-- `ls` is typed and run, then `p` -/
def twoLines : List Op :=
  [.char 108, .char 115, .char 10, .go plain, .go plain, .go plain, .go plain, .go plain, .go plain, .go plain,
    .char 112, .char 10, .go plain]

theorem lines_run_as_typed_two :
    (∃ tr, Run step Quiet init tr (runOps step init twoLines)) ∧
    (runOps step init twoLines).completed = [[108, 115], [112]] ∧ (runOps step init twoLines).ran = [[108, 115], [112]] := by
  have hrun : AllOk step Quiet init twoLines := by decide +kernel
  obtain ⟨tr, htr⟩ := Run.of_allOk hrun
  have hcomp : (runOps step init twoLines).completed = [[108, 115], [112]] := by decide +kernel
  have hbusy : (runOps step init twoLines).phase ≠ .idle := by decide +kernel
  exact ⟨⟨tr, htr⟩, hcomp, ((lines_run_as_typed htr).2.1 hbusy).trans hcomp⟩

/-! ## The line stays in the buffer -/

theorem cstr_length_le_of_nul {l : List UInt8} {i : ℕ} (h : l[i]? = some 0) : (cstr l).length ≤ i := by
  induction l generalizing i with
  | nil => simp at h
  | cons x l ih =>
    by_cases hx : x = 0
    · simp [hx]
    · cases i with
      | zero => exact absurd (by simpa using h) hx
      | succ i =>
        rw [cstr_cons hx, length_cons]
        exact Nat.succ_le_succ (ih (by simpa using h))

/-- a line that ends at buf_len is no longer than that -/
theorem textAt_length_le (buf : ℤ → UInt8) {len : ℤ} (h0 : 0 ≤ len) (hlt : len < cmdBufSize) :
    ((textAt (update buf len 0) 0).length : ℤ) ≤ len := by
  have : (textAt (update buf len 0) 0).length ≤ len.toNat := by
    apply cstr_length_le_of_nul
    have : len.toNat < cmdBufSize := by omega
    simp [this, h0]
  omega

/-- the cursor is in the line, the line in buf, and nothing outside buf has been written -/
structure InBounds (s : Input) : Prop where
  len : 0 ≤ s.len ∧ s.len < cmdBufSize
  cur : 0 ≤ s.cur ∧ s.cur < cmdBufSize
  le : s.phase = .idle → s.cur ≤ s.len
  cleared : s.phase = .cleared ∨ s.phase = .prompted → s.len = 0
  prompted : s.phase = .prompted → s.cur = 0
  outside : ∀ i, i < 0 ∨ (cmdBufSize : ℤ) ≤ i → s.buf i = 0

/-- in the idle phase only the line itself matters -/
theorem inBounds_idle (hp : s.phase = .idle) (hcur : 0 ≤ s.cur) (hle : s.cur ≤ s.len) (hlen : s.len < cmdBufSize)
    (hout : ∀ i, i < 0 ∨ (cmdBufSize : ℤ) ≤ i → s.buf i = 0) : s.InBounds :=
  ⟨⟨hcur.trans hle, hlen⟩, ⟨hcur, hle.trans_lt hlen⟩, fun _ => hle, by simp [hp], by simp [hp], hout⟩

theorem inBounds_setLine (hp : s.phase = .idle) (hout : ∀ i, i < 0 ∨ (cmdBufSize : ℤ) ≤ i → s.buf i = 0)
    (text : List UInt8) : (s.setLine text).InBounds := by
  have hlen : (text.take (cmdBufSize - 1)).length < cmdBufSize :=
    (length_take_le _ _).trans_lt (by decide)
  refine inBounds_idle hp (Int.natCast_nonneg _) le_rfl (Int.ofNat_lt.2 hlen) fun i hi => ?_
  simp only [Input.setLine]
  rw [if_neg (by omega)]
  exact hout i hi

/-- ending the line at buf_len writes inside buf -/
theorem InBounds.outside_nul (h : s.InBounds) (i : ℤ) (hi : i < 0 ∨ (cmdBufSize : ℤ) ≤ i) :
    update s.buf s.len 0 i = 0 := by
  have := h.len
  rw [update_of_ne (by omega)]
  exact h.outside i hi

theorem InBounds.key (h : s.InBounds) (hp : s.phase = .idle) (k : Key) : (s.shellHandleKey k).InBounds := by
  obtain ⟨hl0, hl⟩ := h.len
  obtain ⟨hc0, hc⟩ := h.cur
  have hle := h.le hp
  cases k with
  | left =>
    simp only [shellHandleKey]
    split_ifs with hpos
    · exact inBounds_idle hp (by dsimp only; omega) (by dsimp only; omega) hl h.outside
    · exact h
  | right =>
    simp only [shellHandleKey]
    split_ifs with hlt
    · exact inBounds_idle hp (by dsimp only; omega) (by dsimp only; omega) hl h.outside
    · exact h
  | home => exact inBounds_idle hp le_rfl hl0 hl h.outside
  | «end» => exact inBounds_idle hp hl0 le_rfl hl h.outside
  | up =>
    simp only [shellHandleKey]
    split_ifs
    · exact h
    · split
      · refine inBounds_setLine ?_ ?_ _
        · exact hp
        · exact h.outside_nul
      · refine inBounds_setLine ?_ ?_ _
        · exact hp
        · exact h.outside
  | down =>
    simp only [shellHandleKey]
    split
    · exact h
    · refine inBounds_setLine ?_ ?_ _
      · exact hp
      · exact h.outside
    · refine inBounds_setLine ?_ ?_ _
      · exact hp
      · exact h.outside
  | del =>
    simp only [shellHandleKey]
    split_ifs with hlt
    · refine inBounds_idle hp hc0 (by dsimp only; omega) (by dsimp only; omega) fun i hi => ?_
      dsimp only
      rw [if_neg (by omega)]
      exact h.outside i hi
    · exact h

theorem InBounds.char (h : s.InBounds) (hp : s.phase = .idle) (c : UInt8) : (s.shellHandleChar c).InBounds := by
  obtain ⟨hl0, hl⟩ := h.len
  obtain ⟨hc0, hc⟩ := h.cur
  have hle := h.le hp
  by_cases hc10 : c = 10
  · subst hc10
    obtain ⟨hbuf, hlen, hcur, -, hphase, -⟩ := s.char_enter
    refine inBounds_idle (hphase.trans hp) (hcur ▸ hc0) (by rw [hcur, hlen]; exact hle) (hlen ▸ hl) ?_
    rw [hbuf]
    exact h.outside_nul
  simp only [shellHandleChar, if_neg hc10]
  split_ifs with hbs hpos hroom
  · refine inBounds_idle hp (by dsimp only; omega) (by dsimp only; omega) (by dsimp only; omega) fun i hi => ?_
    dsimp only
    rw [if_neg (by omega)]
    exact h.outside i hi
  · exact h
  · refine inBounds_idle hp (by dsimp only; omega) (by dsimp only; omega) (by dsimp only; omega) fun i hi => ?_
    dsimp only
    rw [if_neg (by omega), if_neg (by omega)]
    exact h.outside i hi
  · exact h

/-- while a command runs only the line's length matters -/
theorem InBounds.busy (h : s.InBounds) (hlen : 0 ≤ s'.len ∧ s'.len < cmdBufSize) (hcur : s'.cur = s.cur)
    (hp : s'.phase ≠ .idle ∧ s'.phase ≠ .cleared ∧ s'.phase ≠ .prompted)
    (hout : ∀ i, i < 0 ∨ (cmdBufSize : ℤ) ≤ i → s'.buf i = 0) : s'.InBounds :=
  ⟨hlen, hcur ▸ h.cur, fun hi => absurd hi hp.1, fun hi => absurd hi (by simp [hp.2]), fun hi => absurd hi hp.2.2, hout⟩

theorem InBounds.start (h : s.InBounds) (m : Meaning) : (s.start m).InBounds := by
  obtain ⟨hl0, hl⟩ := h.len
  unfold Input.start
  by_cases hlen : s.len = 0
  · simp only [hlen, if_true]
    exact h.busy (by simp [cmdBufSize]) rfl (by simp) (hlen ▸ h.outside_nul)
  simp only [if_neg hlen]
  split_ifs with hfor hvar
  · cases hm : m.loop (textAt (update s.buf s.len 0) 0) with
    | none => exact h.busy h.len rfl (by simp) h.outside_nul
    | some x =>
      refine h.busy h.len rfl (by simp) fun i hi => ?_
      have hin := m.inside _ _ _ _ hm
      have := textAt_length_le s.buf hl0 hl
      dsimp only
      rw [update_of_ne (by omega), update_of_ne (by omega)]
      exact h.outside_nul i hi
  · exact h.busy h.len rfl (by simp) h.outside_nul
  · exact h.busy h.len rfl (by simp) h.outside_nul

theorem InBounds.go (h : s.InBounds) (hs : s.Sound) (m : Meaning) : (s.go m).InBounds := by
  cases hp : s.phase with
  | idle =>
    simp only [Input.go, hp]
    split_ifs
    · exact h.start m
    · exact h
  | expanded text =>
    have hlen := (hs.expanded text hp).1
    simp only [Input.go, hp]
    refine h.busy ⟨Int.natCast_nonneg _, Int.ofNat_lt.2 hlen⟩ rfl ?_ fun i hi => ?_
    · dsimp only
      split_ifs <;> simp
    · simp only [writeText]
      rw [if_neg (by omega), if_neg (by omega)]
      exact h.outside i hi
  | copied | running =>
    simp only [Input.go, hp]
    exact h.busy h.len rfl (by simp) h.outside
  | loop parts n =>
    cases n <;> simp only [Input.go, hp] <;> exact h.busy h.len rfl (by simp) h.outside
  | ending =>
    simp only [Input.go, hp]
    exact ⟨⟨le_rfl, Int.ofNat_lt.2 (by decide)⟩, h.cur, by simp, fun _ => rfl, by simp, h.outside⟩
  | cleared =>
    have hlen := h.cleared (.inl hp)
    simp only [Input.go, hp]
    exact ⟨h.len, ⟨le_rfl, Int.ofNat_lt.2 (by decide)⟩, by simp, fun _ => hlen, fun _ => rfl, h.outside⟩
  | prompted =>
    simp only [Input.go, hp]
    exact inBounds_idle rfl (h.prompted hp).ge (by rw [h.prompted hp, h.cleared (.inr hp)]) h.len.2 h.outside

/-- **The line stays in the buffer**: under the same condition the cursor is in the line, the line is shorter than buf, and
no byte outside buf is ever written. -/
theorem line_in_bounds {tr : List (Op × Unit)} (h : Run step Quiet init tr s) : s.Sound ∧ s.InBounds := by
  refine h.invariant (I := fun s => s.Sound ∧ s.InBounds) (fun s op hinv hop => ⟨hinv.1.step hop, ?_⟩) ⟨sound_init, ?_⟩
  · have hidle : s.pending = false → s.phase = .idle := by
      intro hq
      by_contra hne
      rw [(hinv.1.busy hne).1] at hq
      cases hq
    cases op with
    | char c => exact hinv.2.char (hidle hop) c
    | key k => exact hinv.2.key (hidle hop) k
    | go m => exact hinv.2.go hinv.1 m
  · exact inBounds_idle rfl le_rfl le_rfl (by decide) fun _ _ => rfl

/-! ## Keys while a command is pending -/

/-- `ls`, Enter and an `x` before the main loop comes by -/
def lateKey : List Op := [.char 108, .char 115, .char 10, .char 120, .go plain]

/-- Enter while the prompt is out and cmd_pending still set, and the main loop afterwards -/
def lateEnter : List Op :=
  [.char 112, .char 10, .go plain, .go plain, .go plain, .go plain, .go plain, .go plain, .char 108, .char 10, .go plain,
    .go plain]

/-- **A key after Enter alters the line**: the line completed is `ls`, the line run is `lsx`. And a line completed just before
cmd_pending is cleared is lost: nothing is pending, and it has not been run. -/
theorem key_after_enter_alters_line :
    ((runOps step init lateKey).completed = [[108, 115]] ∧ (runOps step init lateKey).ran = [[108, 115, 120]]) ∧
    (runOps step init lateEnter).completed = [[112], [108]] ∧ (runOps step init lateEnter).ran = [[112]] ∧
      (runOps step init lateEnter).phase = .idle ∧ (runOps step init lateEnter).pending = false := by
  decide +kernel

end Input

end GannetOS.Shell
