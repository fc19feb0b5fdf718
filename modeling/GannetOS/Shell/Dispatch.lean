/-
The pipeline of `dispatch` in `shell/shell.c`, on a command line whose variables are expanded.

`splitSegments` cuts the line at `|`; `runStages` runs the pieces one after the other with the calls to `pipe.c` that
`dispatch` makes. What a stage does is any tree `Prog` of output and reads, where later actions may depend on what was
read; its run leaves a list of events. Output reaches `pipe_putchar` while the capture is on and the terminal otherwise.

- `last_stage_faithful`: the last stage reads what the stage before it wrote, cut to 4095 bytes.
- `pipeline_faithful_iff`: pipelines work exactly when they have two stages: a stage in the middle reads its own output,
  since `pipe_begin` empties the one buffer after `pipe_set_stdin` has pointed stdin to it. `three_stages_lose_input` is a run.
-/
import GannetOS.Core.CString
import GannetOS.Proc.Pipe

namespace GannetOS.Shell

open GannetOS.Core GannetOS.Proc List

def maxSegments : ℕ := 8
def cmdBufSize : ℕ := 256

/-! ## Splitting -/

/-- the inner loop of the split: the piece up to a `|` outside `((` and `))`, and the rest of the line -/
def scanSegment : ℕ → List UInt8 → List UInt8 × List UInt8
  | _, [] => ([], [])
  | depth, [c] => if c = 124 ∧ depth = 0 then ([], [c]) else ([c], [])
  | depth, c :: d :: l =>
    if c = 40 ∧ d = 40 then
      let r := scanSegment (depth + 1) l
      (c :: d :: r.1, r.2)
    else if c = 41 ∧ d = 41 ∧ 0 < depth then
      let r := scanSegment (depth - 1) l
      (c :: d :: r.1, r.2)
    else if c = 124 ∧ depth = 0 then ([], c :: d :: l)
    else
      let r := scanSegment depth (d :: l)
      (c :: r.1, r.2)

/-- the outer loop, with `n` segments of `seg_store` left -/
def splitSegments : ℕ → List UInt8 → List (List UInt8)
  | 0, _ => []
  | _, [] => []
  | n + 1, line =>
    let r := scanSegment 0 line
    r.1.take (cmdBufSize - 1) :: splitSegments n (if r.2.head? = some 124 then r.2.tail else r.2)

/-- the segments of a command line -/
def segments (line : CStr) : List (List UInt8) := splitSegments maxSegments line.bytes

/-! ## Stages -/

/-- what a stage does: it writes a byte, or reads stdin into a buffer of some size and goes on with what it got -/
inductive Prog where
  | done
  | put (c : UInt8) (next : Prog)
  | read (maxlen : ℤ) (next : List UInt8 → Prog)

/-- what happened: a byte was written, or a read delivered some bytes -/
inductive Event where
  | put (c : UInt8)
  | read (maxlen : ℤ) (bytes : List UInt8)

/-- the run of a stage -/
def Prog.run : Prog → StateM Pipe (List Event)
  | .done => return []
  | .put c next => do
    if ← pipeActive then pipePutchar c
    return .put c :: (← next.run)
  | .read maxlen next => do
    let bytes ← pipeReadStdin (fun _ _ => pure ()) maxlen
    return .read maxlen bytes :: (← (next bytes).run)

/-- the bytes a stage wrote -/
def written : List Event → List UInt8
  | [] => []
  | .put c :: ev => c :: written ev
  | .read _ _ :: ev => written ev

/-- the bytes a stage read -/
def obtained : List Event → List UInt8
  | [] => []
  | .put _ :: ev => obtained ev
  | .read _ bytes :: ev => bytes ++ obtained ev

/-! ## The pipeline -/

/-- the stages from number `i` on; `run i seg` is what stage `i` does -/
def runStages (run : ℕ → List UInt8 → Prog) : ℕ → Option Source → List (List UInt8) → StateM Pipe (List (List Event))
  | _, _, [] => return []
  | i, stdin, [seg] => do
    pipeSetStdin stdin
    return [← (run i seg).run]
  | i, stdin, seg :: seg' :: rest => do
    pipeSetStdin stdin
    pipeBegin
    let ev ← (run i seg).run
    let out ← pipeEnd
    return ev :: (← runStages run (i + 1) (some out) (seg' :: rest))

/-- `dispatch` on an expanded line: the events of every stage -/
def dispatch (run : ℕ → List UInt8 → Prog) (line : CStr) : StateM Pipe (List (List Event)) :=
  match segments line with
  | [seg] => do
    pipeSetStdin none
    return [← (run 0 seg).run]
  | segs => runStages run 0 none segs

/-- the events of stage `i` -/
def stage (run : ℕ → List UInt8 → Prog) (line : CStr) (p : Pipe) (i : ℕ) : List Event := (dispatch run line p).1.getD i []

/-- a stage reads what the one before it wrote: whatever the sizes of its reads, it gets the first 4095 bytes in order,
and it has got all of them when a read into a buffer of at least two bytes delivers nothing -/
structure Faithful (out : List UInt8) (ev : List Event) : Prop where
  sub : obtained ev <+: out.take 4095
  drained : ∀ before after maxlen, ev = before ++ .read maxlen [] :: after → 2 ≤ maxlen → obtained before = out.take 4095

/-! ## One stage -/

section
variable (c : UInt8) (next : Prog) (maxlen : ℤ) (cont : List UInt8 → Prog) {p : Pipe}

theorem run_put_off (h : p.on = false) : (Prog.put c next).run p = (.put c :: (next.run p).1, (next.run p).2) := by
  have hact : (pipeActive : StateM Pipe _) p = (false, p) := by rw [← h]; rfl
  rw [Prog.run, run_bind hact]
  rfl

theorem run_put_on (h : p.on = true) :
    (Prog.put c next).run p = (.put c :: (next.run (p.push c)).1, (next.run (p.push c)).2) := by
  have hact : (pipeActive : StateM Pipe _) p = (true, p) := by rw [← h]; rfl
  rw [Prog.run, run_bind hact]
  rfl

theorem run_read {bytes : List UInt8} {p' : Pipe}
    (h : (pipeReadStdin (fun _ _ => pure ()) maxlen : StateM Pipe _) p = (bytes, p')) :
    (Prog.read maxlen cont).run p = (.read maxlen bytes :: ((cont bytes).run p').1, ((cont bytes).run p').2) := by
  rw [Prog.run, run_bind h]
  rfl

end

theorem readStdinLoop_state (src : ℕ → UInt8) (room pos n : ℕ) (p : Pipe) :
    ∃ bytes, (readStdinLoop (fun _ _ => pure ()) src room pos n : StateM Pipe _) p = (bytes, p) := by
  induction room generalizing pos n with
  | zero => exact ⟨[], rfl⟩
  | succ room ih =>
    rw [readStdinLoop, ite_run]
    split_ifs with h0
    · exact ⟨[], rfl⟩
    · obtain ⟨bytes, hb⟩ := ih (pos + 1) (n + 1)
      rw [pure_bind, run_bind hb]
      exact ⟨src pos :: bytes, rfl⟩

/-- a read moves the read position and nothing else -/
theorem pipeReadStdin_state (maxlen : ℤ) (p : Pipe) :
    ∃ bytes n, (pipeReadStdin (fun _ _ => pure ()) maxlen : StateM Pipe _) p = (bytes, p.advance n) := by
  have hget : (getPipe : StateM Pipe _) p = (p, p) := rfl
  unfold pipeReadStdin
  rw [run_bind hget]
  cases p.stdin with
  | none =>
    refine ⟨[], 0, ?_⟩
    simp only
    split_ifs <;> rfl
  | some src =>
    simp only [ite_run]
    split_ifs
    · exact ⟨[], 0, rfl⟩
    · obtain ⟨bytes, hb⟩ := readStdinLoop_state (p.sourceByte src) (maxlen.toNat - 1) p.stdinPos 0 p
      rw [run_bind hb]
      exact ⟨bytes, bytes.length, rfl⟩

/-- a stage whose output is captured: the buffer holds what it wrote -/
theorem run_captured (prog : Prog) {p : Pipe} {out : List UInt8} (hon : p.on = true) (h : p.Captured out)
    (hnul : (0 : UInt8) ∉ written (prog.run p).1) : (prog.run p).2.Captured (out ++ written (prog.run p).1) := by
  induction prog generalizing p out with
  | done => simpa [Prog.run, written] using h
  | put c next ih =>
    rw [run_put_on c next hon] at hnul ⊢
    simp only [written, mem_cons, not_or] at hnul ⊢
    have hon' : (p.push c).on = true := by unfold Pipe.push; split_ifs <;> exact hon
    have hrest := ih hon' (h.push (Ne.symm hnul.1)) hnul.2
    rwa [append_assoc] at hrest
  | read maxlen cont ih =>
    obtain ⟨bytes, n, hread⟩ := pipeReadStdin_state maxlen p
    rw [run_read maxlen cont hread] at hnul ⊢
    exact ih bytes (p := p.advance n) hon ⟨h.pos, h.spells⟩ hnul

/-- a stage that reads a string nobody changes -/
theorem run_reader (prog : Prog) {p : Pipe} {src : Source} {out : List UInt8} (hon : p.on = false)
    (hsrc : p.stdin = some src) (h : Spells (p.sourceByte src) out) (hpos : p.stdinPos ≤ out.length) :
    obtained (prog.run p).1 <+: out.drop p.stdinPos ∧
      ∀ before after maxlen, (prog.run p).1 = before ++ .read maxlen [] :: after → 2 ≤ maxlen →
        obtained before = out.drop p.stdinPos := by
  induction prog generalizing p with
  | done =>
    refine ⟨List.nil_prefix, fun before after maxlen he _ => ?_⟩
    have hnil : [] = before ++ Event.read maxlen [] :: after := he
    simp at hnil
  | put c next ih =>
    rw [run_put_off c next hon]
    obtain ⟨hsub, hall⟩ := ih hon hsrc h hpos
    refine ⟨hsub, fun before after maxlen he hm => ?_⟩
    cases before with
    | nil => cases he
    | cons e before =>
      obtain ⟨rfl, he'⟩ := List.cons.inj he
      exact hall before after maxlen he' hm
  | read maxlen cont ih =>
    have hread := pipeReadStdin_run hsrc h hpos maxlen
    set bytes := (out.drop p.stdinPos).take (maxlen.toNat - 1) with hbytes
    rw [run_read maxlen cont hread]
    have hlen : bytes.length ≤ out.length - p.stdinPos := by
      rw [hbytes, length_take, length_drop]
      omega
    have hsplit : out.drop p.stdinPos = bytes ++ out.drop (p.stdinPos + bytes.length) := by
      obtain ⟨rest, hrest⟩ : bytes <+: out.drop p.stdinPos := take_prefix _ _
      rw [← drop_drop, ← hrest, drop_left]
    have hpos' : (p.advance bytes.length).stdinPos ≤ out.length := by
      show p.stdinPos + bytes.length ≤ out.length
      omega
    obtain ⟨hsub, hall⟩ := ih bytes (p := p.advance bytes.length) hon hsrc h hpos'
    refine ⟨?_, fun before after maxlen' he hm => ?_⟩
    · rw [hsplit]
      exact (prefix_append_right_inj bytes).2 hsub
    · cases before with
      | nil =>
        -- this read delivered nothing although there was room for a byte
        obtain ⟨he', -⟩ := List.cons.inj he
        obtain ⟨rfl, hnil⟩ := Event.read.inj he'
        have hdrop : out.drop p.stdinPos = [] := by
          rcases List.take_eq_nil_iff.1 (hbytes.symm.trans hnil) with h0 | h0
          · omega
          · exact h0
        rw [hdrop]
        rfl
      | cons e before =>
        obtain ⟨rfl, he'⟩ := List.cons.inj he
        rw [hsplit, obtained, hall before after maxlen' he' hm]
        rfl

/-! ## All stages -/

/-- the state in which a stage that is not the last starts -/
def openStage (p : Pipe) (stdin : Option Source) : Pipe :=
  { p with stdin := stdin, stdinPos := 0, buf := Function.update p.buf 0 0, pos := 0, on := true }

/-- the state after `pipe_end` -/
def endStage (p : Pipe) : Pipe := { p with buf := Function.update p.buf p.pos 0, on := false }

theorem runStages_cons (run : ℕ → List UInt8 → Prog) (i : ℕ) (stdin : Option Source) (seg seg' : List UInt8)
    (rest : List (List UInt8)) (p : Pipe) :
    (runStages run i stdin (seg :: seg' :: rest) p).1 =
      ((run i seg).run (openStage p stdin)).1 ::
        (runStages run (i + 1) (some .pipeBuf) (seg' :: rest) (endStage ((run i seg).run (openStage p stdin)).2)).1 := by
  rw [runStages]
  rfl

theorem runStages_last (run : ℕ → List UInt8 → Prog) (i : ℕ) (stdin : Option Source) (seg : List UInt8) (p : Pipe) :
    (runStages run i stdin [seg] p).1 = [((run i seg).run { p with stdin := stdin, stdinPos := 0 }).1] := by
  rw [runStages]
  rfl

theorem captured_openStage (p : Pipe) (stdin : Option Source) : (openStage p stdin).Captured [] :=
  captured_begin { p with stdin := stdin, stdinPos := 0 }

/-- **The last stage reads what the stage before it wrote.** -/
theorem last_stage_faithful (run : ℕ → List UInt8 → Prog) (n : ℕ) (i : ℕ) (stdin : Option Source)
    (segs : List (List UInt8)) (hn : segs.length = n + 2) (p : Pipe)
    (hnul : (0 : UInt8) ∉ written ((runStages run i stdin segs p).1.getD n [])) :
    Faithful (written ((runStages run i stdin segs p).1.getD n [])) ((runStages run i stdin segs p).1.getD (n + 1) []) := by
  induction n generalizing i stdin segs p with
  | zero =>
    obtain ⟨a, b, rfl⟩ := List.length_eq_two.1 hn
    rw [runStages_cons, runStages_last] at hnul ⊢
    simp only [getD_cons_zero, getD_cons_succ] at hnul ⊢
    set ev := ((run i a).run (openStage p stdin)).1
    set q := ((run i a).run (openStage p stdin)).2 with hq
    have hcap : q.Captured (written ev) := by
      have := run_captured (run i a) rfl (captured_openStage p stdin) hnul
      rwa [nil_append] at this
    have hend : (endStage q).Captured (written ev) := hcap.finish
    have hreader := run_reader (run (i + 1) b) (p := { endStage q with stdin := some .pipeBuf, stdinPos := 0 }) rfl rfl
      hend.spells (Nat.zero_le _)
    rw [drop_zero] at hreader
    exact ⟨hreader.1, hreader.2⟩
  | succ n ih =>
    obtain ⟨a, rest, rfl⟩ := exists_cons_of_length_pos (by omega : 0 < segs.length)
    obtain ⟨b, rest, rfl⟩ := exists_cons_of_length_pos (by simp at hn; omega : 0 < rest.length)
    rw [runStages_cons] at hnul ⊢
    exact ih (i + 1) (some .pipeBuf) (b :: rest) (by simpa using hn) _ hnul

theorem dispatch_pipeline (run : ℕ → List UInt8 → Prog) {line : CStr} (h : 2 ≤ (segments line).length) :
    dispatch run line = runStages run 0 none (segments line) := by
  unfold dispatch
  split
  · rename_i seg hseg
    rw [hseg] at h
    simp at h
  · rfl

/-- stage 0 writes one byte, stage 1 reads once, the others do nothing -/
def writeThenRead : ℕ → List UInt8 → Prog
  | 0, _ => .put 120 .done
  | 1, _ => .read 2 fun _ => .done
  | _, _ => .done

/-- with three or more stages, stage 1 does not get the byte -/
theorem writeThenRead_lost {line : CStr} (h : 3 ≤ (segments line).length) (p : Pipe) :
    stage writeThenRead line p 0 = [.put 120] ∧ stage writeThenRead line p 1 = [.read 2 []] := by
  obtain ⟨a, rest, hsegs⟩ := exists_cons_of_length_pos (by omega : 0 < (segments line).length)
  obtain ⟨b, rest, rfl⟩ := exists_cons_of_length_pos (by rw [hsegs] at h; simp at h; omega : 0 < rest.length)
  obtain ⟨c, rest, rfl⟩ := exists_cons_of_length_pos (by rw [hsegs] at h; simp at h; omega : 0 < rest.length)
  unfold stage
  rw [dispatch_pipeline _ (by omega), hsegs, runStages_cons, runStages_cons]
  refine ⟨rfl, ?_⟩
  simp only [getD_cons_zero, getD_cons_succ]
  set q := endStage ((writeThenRead 0 a).run (openStage p none)).2
  have hcap := captured_openStage q (some .pipeBuf)
  have hread := pipeReadStdin_run (p := openStage q (some .pipeBuf)) rfl hcap.spells (Nat.zero_le _) 2
  show ((Prog.read 2 fun _ => Prog.done).run (openStage q (some .pipeBuf))).1 = _
  rw [run_read _ _ hread]
  rfl

/-- **Pipelines work exactly when they have two stages.** For a command line with at least two segments, every stage gets
what the one before it wrote, whatever the stages do and whatever state the pipe was in, if and only if there are two. -/
theorem pipeline_faithful_iff (line : CStr) (hn : 2 ≤ (segments line).length) :
    (∀ (run : ℕ → List UInt8 → Prog) (p : Pipe) (i : ℕ), i + 1 < (segments line).length →
      (0 : UInt8) ∉ written (stage run line p i) → Faithful (written (stage run line p i)) (stage run line p (i + 1))) ↔
      (segments line).length = 2 := by
  constructor
  · intro hall
    by_contra hne
    have h3 : 3 ≤ (segments line).length := by omega
    obtain ⟨h0, h1⟩ := writeThenRead_lost h3 ⟨fun _ => 0, 0, false, none, 0⟩
    have hfaithful := hall writeThenRead _ 0 (by omega) (by rw [h0]; decide)
    rw [h0, h1] at hfaithful
    have hgot := hfaithful.drained [] [] 2 rfl le_rfl
    exact absurd hgot (by decide)
  · intro h2 run p i hi hnul
    obtain rfl : i = 0 := by omega
    unfold stage at hnul ⊢
    rw [dispatch_pipeline run hn] at hnul ⊢
    exact last_stage_faithful run 0 0 none _ h2 p hnul

/-- the line `a|b` -/
theorem pipeline_faithful_two :
    (segments ⟨[97, 124, 98], by decide⟩).length = 2 ∧
      ∀ (run : ℕ → List UInt8 → Prog) (p : Pipe), (0 : UInt8) ∉ written (stage run ⟨[97, 124, 98], by decide⟩ p 0) →
        Faithful (written (stage run ⟨[97, 124, 98], by decide⟩ p 0)) (stage run ⟨[97, 124, 98], by decide⟩ p 1) := by
  have h2 : (segments ⟨[97, 124, 98], by decide⟩).length = 2 := by decide
  exact ⟨h2, fun run p => (pipeline_faithful_iff _ h2.ge).2 h2 run p 0 (by rw [h2]; decide)⟩

/-- **Three stages lose input.** In `a|b|c`, stage 0 writes one byte and stage 1 reads nothing. -/
theorem three_stages_lose_input :
    let line : CStr := ⟨[97, 124, 98, 124, 99], by decide⟩
    let p : Pipe := ⟨fun _ => 0, 0, false, none, 0⟩
    (segments line).length = 3 ∧ written (stage writeThenRead line p 0) = [120] ∧
      stage writeThenRead line p 1 = [.read 2 []] := by
  intro line p
  have h3 : (segments line).length = 3 := by decide
  obtain ⟨h0, h1⟩ := writeThenRead_lost h3.ge p
  exact ⟨h3, by rw [h0]; rfl, h1⟩

end GannetOS.Shell
