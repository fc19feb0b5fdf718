/-
The shell of `shell/shell.c` as it runs line after line: `dispatch` with its `for` loops, variable lines, single commands
and pipelines, `run_segment` with the builtins, and the programs they start.

A program is any tree `App` of output, reads from stdin and questions `pipe_has_stdin`, which may depend on each other. What
the shell cannot know (which directories exist, what the clock shows, which program a command stands for) is answered by a
`World`, anew for every segment. The shell's state also records every program that was started, in which role, with what
it saw.

Results, for every world and every sequence of lines:
- `only_stages_see_stdin`: if `for` lines come only when stdin is not set, a program that is not the second or a later
  stage of a pipeline never sees stdin set and reads nothing;
- `loop_sees_stale_stdin`: after a pipeline that starts with `a`, a loop runs its command with the output of `a` as stdin;
- `readonly_vars_mirror`: if no `for` line counts in CWD or VER, CWD is the current directory and VER the version;
- `loop_overwrites_vars`: a loop that counts in one of them overwrites it.

The terminal is left out, so output counts only while it is captured. `wm` is modelled by the text it prints and by the
program `wm start` runs. No caller looks at what `run_segment` returns.
-/
import GannetOS.Shell.Text

namespace GannetOS.Shell

open GannetOS.Core GannetOS.Proc

/-! ## Programs -/

/-- a program: it writes, reads stdin into a buffer, or asks whether there is stdin, and goes on with the answer -/
inductive App where
  | done
  | put (c : UInt8) (next : App)
  | read (maxlen : ℤ) (next : List UInt8 → App)
  | ask (next : Bool → App)

inductive AppEvent where
  | put (c : UInt8)
  | read (bytes : List UInt8)
  | hasStdin (b : Bool)
deriving DecidableEq

def App.run : App → Pipe → List AppEvent × Pipe
  | .done, p => ([], p)
  | .put c next, p =>
    let r := next.run (if p.on then p.push c else p)
    (.put c :: r.1, r.2)
  | .read maxlen next, p =>
    let b := (pipeReadStdin (fun _ _ => pure ()) maxlen : StateM Pipe _) p
    let r := (next b.1).run b.2
    (.read b.1 :: r.1, r.2)
  | .ask next, p =>
    let b := (pipeHasStdin : StateM Pipe _) p
    let r := (next b.1).run b.2
    (.hasStdin b.1 :: r.1, r.2)

/-- what a program is started as: the only command of a line, stage `i` of a pipeline, or the body of a loop -/
inductive Role where
  | single
  | stage (i : ℕ)
  | loopBody
deriving DecidableEq

/-- the second or a later stage of a pipeline -/
def Role.later : Role → Bool
  | .stage (_ + 1) => true
  | _ => false

/-- a program that was started, and what it saw -/
structure Start where
  role : Role
  events : List AppEvent
deriving DecidableEq

/-! ## State -/

structure World where
  isdir : ℕ → List UInt8 → Bool
  /-- what the clock shows at the variables of an expansion, one after the other -/
  time : ℕ → ℕ → List UInt8
  /-- the program `loader_exec` finds for an argument vector, with PATH and the current directory -/
  app : ℕ → List (List UInt8) → Option (List UInt8) → List UInt8 → Option App
  wmText : ℕ → List (List UInt8) → List UInt8
  wmApp : ℕ → List (List UInt8) → Option App

structure Session where
  env : Env
  cwd : List UInt8
  pipe : Pipe
  /-- how often the world was asked -/
  clock : ℕ
  starts : List Start

def osVersion : List UInt8 := ascii "GannetOS 0.0.1"

namespace Session

def syncCwdEnv (s : Session) : Session := { s with env := envSet s.env (ascii "CWD") s.cwd }

/-- `shell_init`, at boot, where `stdin_data` is still NULL -/
def shellInit (pipe : Pipe) : Session :=
  let env : Env := fun _ => ⟨[], [], false⟩
  let env := envSet env (ascii "PATH") (ascii "/bin:/usr/bin")
  let env := envSet env (ascii "VER") osVersion
  syncCwdEnv ⟨env, [47], { pipe with stdin := none }, 0, []⟩

/-- the static variables of `pipe.c` at boot -/
def bootPipe : Pipe := ⟨fun _ => 0, 0, false, none, 0⟩

/-- output of a builtin: captured while a pipeline captures, and else to the terminal -/
def emit (s : Session) (text : List UInt8) : Session :=
  if s.pipe.on then { s with pipe := text.foldl Pipe.push s.pipe } else s

/-- run a program to its end -/
def startApp (s : Session) (role : Role) (app : App) : Session :=
  { s with pipe := (app.run s.pipe).2, starts := s.starts ++ [⟨role, (app.run s.pipe).1⟩] }

/-- run the program if there is one -/
def startSome (s : Session) (role : Role) : Option App → Session
  | none => s
  | some app => s.startApp role app

/-- `pipe_set_stdin` -/
def setStdin (s : Session) (data : Option Source) : Session :=
  { s with pipe := ((pipeSetStdin data : StateM Pipe Unit) s.pipe).2 }

def resolveVar (w : World) (s : Session) (i : ℕ) (vname : List UInt8) : Option (List UInt8) :=
  if vname = ascii "TIME" then some (w.time s.clock i) else envGet s.env vname

/-! ## `run_segment` -/

def cmdTakesPath (cmd : List UInt8) : Bool :=
  cmd ∈ [ascii "ls", ascii "cat", ascii "rm", ascii "mkdir", ascii "rmdir", ascii "write"]

/-- the arguments with their path resolved -/
def resolveArgs (cwd cmd : List UInt8) : List (List UInt8) → List (List UInt8)
  | [] => []
  | [a] => if cmdTakesPath cmd then [resolvePath cwd a] else [a]
  | a :: b :: rest =>
    if ¬ cmdTakesPath cmd then a :: b :: rest
    else if cmd = ascii "rmdir" ∧ a = ascii "-r" then a :: resolvePath cwd b :: rest
    else resolvePath cwd a :: b :: rest

/-- the string a stage gets as its last argument -/
def stdinText (p : Pipe) (src : Source) : List UInt8 := cstr ((List.range 4096).map (p.sourceByte src))

/-- all arguments of a command: `ls` alone gets the current directory, and a stage what the one before it wrote -/
def arguments (s : Session) (cmd : List UInt8) (args : List (List UInt8)) (stdin : Option Source) : List (List UInt8) :=
  let args := if args = [] ∧ cmd = ascii "ls" then [s.cwd] else args
  let args := resolveArgs s.cwd cmd args
  match stdin with
  | none => args
  | some src => if args.length + 1 < maxArgs then args ++ [stdinText s.pipe src] else args

def cdCommand (w : World) (s : Session) (args : List (List UInt8)) : Session :=
  let cdpath := match args with
    | a :: _ => resolvePath s.cwd a
    | [] => [47]
  if w.isdir s.clock cdpath then ({ s with cwd := strcpyS cdpath pathMax }).syncCwdEnv else s

def setenvCommand (s : Session) : List (List UInt8) → Session
  | [] => s
  | varname :: rest =>
    if varname = ascii "CWD" ∨ varname = ascii "VER" then s
    else
      match rest with
      | val :: _ => { s with env := envSet s.env varname val }
      | [] => { s with env := envUnset s.env varname }

def printenvText (e : Env) : List UInt8 :=
  (List.finRange envMaxVars).flatMap fun i => if (e i).used then (e i).name ++ [61] ++ (e i).val ++ [10] else []

def wmCommand (w : World) (s : Session) (role : Role) (args : List (List UInt8)) : Session :=
  let s' := if args.head? = some (ascii "start") then s.startSome role (w.wmApp s.clock args) else s
  s'.emit (w.wmText s.clock args)

/-- the command itself, with all its arguments -/
def runCommand (w : World) (s : Session) (role : Role) (cmd : List UInt8) (args : List (List UInt8)) : Session :=
  if cmd = ascii "clear" then s
  else if cmd = ascii "ver" then s.emit ((envGet s.env (ascii "VER")).getD osVersion ++ [10])
  else if cmd = ascii "pwd" then s.emit (s.cwd ++ [10])
  else if cmd = ascii "cd" then cdCommand w s args
  else if cmd = ascii "setenv" then setenvCommand s args
  else if cmd = ascii "getenv" then
    match args with
    | [] => s
    | name :: _ => s.emit ((envGet s.env name).getD [] ++ [10])
  else if cmd = ascii "printenv" then s.emit (printenvText s.env)
  else if cmd = ascii "wm" then wmCommand w s role args
  else if cmd = ascii "inodes" ∨ cmd = ascii "help" then s
  else s.startSome role (w.app s.clock (cmd :: args) (envGet s.env (ascii "PATH")) s.cwd)

/-- `run_segment`; `role` only labels what is started -/
def runSegment (w : World) (s : Session) (role : Role) (seg : List UInt8) (stdin : Option Source) : Session :=
  match splitArgs (seg.dropWhile (· = 32)) maxArgs with
  | [] => s
  | cmd :: args => { runCommand w s role cmd (arguments s cmd args stdin) with clock := s.clock + 1 }

/-! ## `dispatch` -/

/-- the rounds of a loop, of which at most `guard` are left -/
def forRounds (w : World) (f : ForLoop) : ℕ → Session → ℤ → Session
  | 0, s, _ => s
  | guard + 1, s, val =>
    if forContinues f.op val f.endVal then
      let s := { s with env := envSet s.env f.varname (itoaS val) }
      let body := expandVars (resolveVar w s) f.body cmdBufSize
      forRounds w f guard (runSegment w s .loopBody body none) (wrap32 (val + f.step))
    else s

/-- `run_for_loop`; a line that does not parse only prints a message -/
def runForLoop (w : World) (s : Session) (raw : List UInt8) : Session :=
  match parseFor raw with
  | .error _ => s
  | .ok f => forRounds w f 100000 s f.startVal

/-- the stages of a pipeline from number `i` on -/
def runPipeline (w : World) : ℕ → Option Source → List (List UInt8) → Session → Session
  | _, _, [], s => s
  | i, stdin, [seg], s => runSegment w (s.setStdin stdin) (.stage i) seg stdin
  | i, stdin, seg :: seg' :: rest, s =>
    let s := s.setStdin stdin
    let s := { s with pipe := ((pipeBegin : StateM Pipe Unit) s.pipe).2 }
    let s := runSegment w s (.stage i) seg stdin
    let r := (pipeEnd : StateM Pipe Source) s.pipe
    runPipeline w (i + 1) (some r.1) (seg' :: rest) { s with pipe := r.2 }

/-- `dispatch` on a line of the line buffer -/
def dispatchLine (w : World) (s : Session) (line : List UInt8) : Session :=
  if line = [] then s
  else if Input.isFor line then runForLoop w s (line.dropWhile (· = 32))
  else if Input.isVarQuery line then s
  else
    match splitSegments maxSegments (expandVars (resolveVar w s) line cmdBufSize) with
    | [] => s
    | [seg] => runSegment w (s.setStdin none) .single seg none
    | segs => runPipeline w 0 none segs s

/-- one line -/
def step (w : World) (s : Session) (line : List UInt8) : Unit × Session := ((), dispatchLine w s line)

/-! ## What a segment can do -/

/-- what a command does to variables and directory -/
inductive Wrote (s s' : Session) : Prop
  | nothing (henv : s'.env = s.env) (hcwd : s'.cwd = s.cwd)
  | cd (path : List UInt8) (hcwd : s'.cwd = strcpyS path pathMax) (henv : s'.env = envSet s.env (ascii "CWD") s'.cwd)
  | set (name val : List UInt8) (hname : name ≠ ascii "CWD" ∧ name ≠ ascii "VER") (henv : s'.env = envSet s.env name val)
    (hcwd : s'.cwd = s.cwd)
  | unset (name : List UInt8) (hname : name ≠ ascii "CWD" ∧ name ≠ ascii "VER") (henv : s'.env = envUnset s.env name)
    (hcwd : s'.cwd = s.cwd)

/-- the programs a command starts see the stdin there is; stdin itself stays as it is -/
structure Ran (role : Role) (s s' : Session) : Prop where
  stdin : s'.pipe.stdin = s.pipe.stdin
  starts : s'.starts = s.starts ∨ ∃ (app : App) (p : Pipe), p.stdin = s.pipe.stdin ∧
    s'.starts = s.starts ++ [⟨role, (app.run p).1⟩]

theorem pipeReadStdin_stdin (maxlen : ℤ) (p : Pipe) :
    ((pipeReadStdin (fun _ _ => pure ()) maxlen : StateM Pipe _) p).2.stdin = p.stdin := by
  obtain ⟨bytes, n, hread⟩ := pipeReadStdin_state maxlen p
  rw [hread]
  rfl

theorem push_stdin (p : Pipe) (c : UInt8) : (p.push c).stdin = p.stdin := by
  unfold Pipe.push
  split_ifs <;> rfl

theorem foldl_push_stdin (text : List UInt8) (p : Pipe) : (text.foldl Pipe.push p).stdin = p.stdin := by
  induction text generalizing p with
  | nil => rfl
  | cons c text ih => rw [List.foldl_cons, ih, push_stdin]

/-- a program does not change where its stdin comes from -/
theorem app_run_stdin (app : App) (p : Pipe) : (app.run p).2.stdin = p.stdin := by
  induction app generalizing p with
  | done => rfl
  | put c next ih =>
    show (next.run _).2.stdin = _
    rw [ih]
    split_ifs
    · exact push_stdin p c
    · rfl
  | read maxlen next ih => exact (ih _ _).trans (pipeReadStdin_stdin maxlen p)
  | ask next ih => exact ih _ _

/-- without stdin a program is told so, and reads nothing -/
theorem app_run_none (app : App) {p : Pipe} (hp : p.stdin = none) :
    ∀ e ∈ (app.run p).1, e ≠ .hasStdin true ∧ ∀ bytes, e = .read bytes → bytes = [] := by
  induction app generalizing p with
  | done => exact fun e he => absurd he List.not_mem_nil
  | put c next ih =>
    intro e he
    rcases List.mem_cons.1 he with rfl | he
    · exact ⟨AppEvent.noConfusion, fun _ h => AppEvent.noConfusion h⟩
    · refine ih ?_ e he
      split_ifs
      · exact (push_stdin p c).trans hp
      · exact hp
  | read maxlen next ih =>
    have hread : ((pipeReadStdin (fun _ _ => pure ()) maxlen : StateM Pipe _) p).1 = [] := by
      have hget : (getPipe : StateM Pipe _) p = (p, p) := rfl
      unfold pipeReadStdin
      rw [run_bind hget, hp]
      simp only
      split_ifs <;> rfl
    intro e he
    rcases List.mem_cons.1 he with rfl | he
    · refine ⟨AppEvent.noConfusion, fun bytes h => ?_⟩
      rw [← AppEvent.read.inj h]
      exact hread
    · exact ih _ ((pipeReadStdin_stdin maxlen p).trans hp) e he
  | ask next ih =>
    have hask : (pipeHasStdin : StateM Pipe _) p = (false, p) := by
      show (p.stdin.isSome, p) = _
      rw [hp]
      rfl
    intro e he
    rcases List.mem_cons.1 he with rfl | he
    · rw [hask]
      exact ⟨by simp, fun _ h => AppEvent.noConfusion h⟩
    · exact ih _ (p := ((pipeHasStdin : StateM Pipe _) p).2) (by rw [hask]; exact hp) e he

theorem ran_refl (role : Role) (s : Session) : Ran role s s := ⟨rfl, .inl rfl⟩

theorem ran_emit (role : Role) (s : Session) (text : List UInt8) : Ran role s (s.emit text) := by
  unfold emit
  split_ifs
  · exact ⟨foldl_push_stdin text s.pipe, .inl rfl⟩
  · exact ran_refl role s

theorem wrote_emit (s : Session) (text : List UInt8) : Wrote s (s.emit text) := by
  unfold emit
  split_ifs <;> exact .nothing rfl rfl

theorem ran_startSome (role : Role) (s : Session) (o : Option App) : Ran role s (s.startSome role o) := by
  cases o with
  | none => exact ran_refl role s
  | some app => exact ⟨app_run_stdin app s.pipe, .inr ⟨app, s.pipe, rfl, rfl⟩⟩

theorem wrote_startSome (role : Role) (s : Session) (o : Option App) : Wrote s (s.startSome role o) := by
  cases o <;> exact .nothing rfl rfl

theorem wmCommand_spec (w : World) (s : Session) (role : Role) (args : List (List UInt8)) :
    Ran role s (wmCommand w s role args) ∧ Wrote s (wmCommand w s role args) := by
  unfold wmCommand
  generalize w.wmText s.clock args = text
  set s₁ := if args.head? = some (ascii "start") then s.startSome role (w.wmApp s.clock args) else s with hs₁
  have h₁ : Ran role s s₁ ∧ s₁.env = s.env ∧ s₁.cwd = s.cwd := by
    rw [hs₁]
    split_ifs
    · refine ⟨ran_startSome role s _, ?_⟩
      cases w.wmApp s.clock args <;> exact ⟨rfl, rfl⟩
    · exact ⟨ran_refl role s, rfl, rfl⟩
  have h₂ := ran_emit role s₁ text
  have hstarts : (s₁.emit text).starts = s₁.starts := by unfold emit; split_ifs <;> rfl
  have henv : (s₁.emit text).env = s₁.env ∧ (s₁.emit text).cwd = s₁.cwd := by
    unfold emit
    split_ifs <;> exact ⟨rfl, rfl⟩
  exact ⟨⟨h₂.stdin.trans h₁.1.stdin, hstarts.symm ▸ h₁.1.starts⟩,
    .nothing (henv.1.trans h₁.2.1) (henv.2.trans h₁.2.2)⟩

theorem cdCommand_spec (w : World) (s : Session) (role : Role) (args : List (List UInt8)) :
    Ran role s (cdCommand w s args) ∧ Wrote s (cdCommand w s args) := by
  unfold cdCommand
  dsimp only
  generalize (match args with | a :: _ => resolvePath s.cwd a | [] => [47]) = path
  split_ifs
  · exact ⟨⟨rfl, .inl rfl⟩, .cd path rfl rfl⟩
  · exact ⟨ran_refl role s, .nothing rfl rfl⟩

theorem setenvCommand_spec (s : Session) (role : Role) (args : List (List UInt8)) :
    Ran role s (setenvCommand s args) ∧ Wrote s (setenvCommand s args) := by
  unfold setenvCommand
  cases args with
  | nil => exact ⟨ran_refl role s, .nothing rfl rfl⟩
  | cons name rest =>
    dsimp only
    split_ifs with hname
    · exact ⟨ran_refl role s, .nothing rfl rfl⟩
    · rw [not_or] at hname
      cases rest with
      | nil => exact ⟨⟨rfl, .inl rfl⟩, .unset name hname rfl rfl⟩
      | cons val _ => exact ⟨⟨rfl, .inl rfl⟩, .set name val hname rfl rfl⟩

/-- what holds whichever command it is -/
theorem runCommand_cases {P : Session → Prop} (w : World) (s : Session) (role : Role) (cmd : List UInt8)
    (args : List (List UInt8)) (hsame : P s) (hemit : ∀ text, P (s.emit text)) (hcd : P (cdCommand w s args))
    (hsetenv : P (setenvCommand s args)) (hwm : P (wmCommand w s role args)) (hstart : ∀ app, P (s.startSome role app)) :
    P (runCommand w s role cmd args) := by
  unfold runCommand
  refine iteInduction (fun _ => hsame) fun _ => ?_ -- clear
  refine iteInduction (fun _ => hemit _) fun _ => ?_ -- ver
  refine iteInduction (fun _ => hemit _) fun _ => ?_ -- pwd
  refine iteInduction (fun _ => hcd) fun _ => ?_
  refine iteInduction (fun _ => hsetenv) fun _ => ?_
  refine iteInduction (fun _ => ?_) fun _ => ?_
  · -- getenv
    cases args with
    | nil => exact hsame
    | cons name _ => exact hemit _
  refine iteInduction (fun _ => hemit _) fun _ => ?_ -- printenv
  refine iteInduction (fun _ => hwm) fun _ => ?_
  exact iteInduction (fun _ => hsame) fun _ => hstart _

theorem runCommand_spec (w : World) (s : Session) (role : Role) (cmd : List UInt8) (args : List (List UInt8)) :
    Ran role s (runCommand w s role cmd args) ∧ Wrote s (runCommand w s role cmd args) := by
  refine runCommand_cases (P := fun x => Ran role s x ∧ Wrote s x) w s role cmd args ?_ ?_ ?_ ?_ ?_ ?_
  · exact ⟨ran_refl role s, .nothing rfl rfl⟩
  · exact fun text => ⟨ran_emit role s text, wrote_emit s text⟩
  · exact cdCommand_spec w s role args
  · exact setenvCommand_spec s role args
  · exact wmCommand_spec w s role args
  · exact fun app => ⟨ran_startSome role s app, wrote_startSome role s app⟩

/-- **What a segment can do.** -/
theorem runSegment_spec (w : World) (s : Session) (role : Role) (seg : List UInt8) (stdin : Option Source) :
    Ran role s (runSegment w s role seg stdin) ∧ Wrote s (runSegment w s role seg stdin) := by
  unfold runSegment
  cases splitArgs (seg.dropWhile (· = 32)) maxArgs with
  | nil => exact ⟨ran_refl role s, .nothing rfl rfl⟩
  | cons cmd args =>
    obtain ⟨hran, hwrote⟩ := runCommand_spec w s role cmd (arguments s cmd args stdin)
    refine ⟨⟨hran.stdin, hran.starts⟩, ?_⟩
    cases hwrote with
    | nothing henv hcwd => exact .nothing henv hcwd
    | cd path hcwd henv => exact .cd path hcwd henv
    | set name val hname henv hcwd => exact .set name val hname henv hcwd
    | unset name hname henv hcwd => exact .unset name hname henv hcwd

/-! ## Stdin is for later stages -/

/-- a program that is no later stage saw no stdin -/
def Unfed (s : Session) : Prop :=
  ∀ st ∈ s.starts, st.role.later = false →
    ∀ e ∈ st.events, e ≠ .hasStdin true ∧ ∀ bytes, e = .read bytes → bytes = []

section
variable {w : World} {s s' : Session} {role : Role}

theorem Ran.unfed (h : Ran role s s') (hrole : role.later = true ∨ s.pipe.stdin = none) (hs : Unfed s) : Unfed s' := by
  rcases h.starts with hstarts | ⟨app, p, hp, hstarts⟩
  · intro st hst
    exact hs st (hstarts ▸ hst)
  · intro st hst hst'
    rw [hstarts, List.mem_append, List.mem_singleton] at hst
    rcases hst with hst | rfl
    · exact hs st hst hst'
    · rcases hrole with hlater | hnone
      · exact absurd hlater (by simp [hst'])
      · exact app_run_none app (hp.trans hnone)

theorem unfed_forRounds (f : ForLoop) (guard : ℕ) (val : ℤ) (hs : Unfed s) (hnone : s.pipe.stdin = none) :
    Unfed (forRounds w f guard s val) := by
  induction guard generalizing s val with
  | zero => exact hs
  | succ guard ih =>
    unfold forRounds
    split_ifs
    · set s₁ : Session := { s with env := envSet s.env f.varname (itoaS val) }
      have hran := (runSegment_spec w s₁ .loopBody (expandVars (resolveVar w s₁) f.body cmdBufSize) none).1
      exact ih _ (hran.unfed (.inr hnone) hs) (hran.stdin.trans hnone)
    · exact hs

/-- only the first stage is no later one, and it gets no stdin -/
theorem unfed_runPipeline (segs : List (List UInt8)) (i : ℕ) (stdin : Option Source) (hs : Unfed s)
    (hfirst : 0 < i ∨ stdin = none) : Unfed (runPipeline w i stdin segs s) := by
  have hrole : (Role.stage i).later = true ∨ stdin = none := by
    rcases hfirst with hi | hnone
    · obtain ⟨j, rfl⟩ := Nat.exists_eq_succ_of_ne_zero hi.ne'
      exact .inl rfl
    · exact .inr hnone
  induction segs generalizing i stdin s with
  | nil => exact hs
  | cons seg segs ih =>
    cases segs with
    | nil => exact (runSegment_spec w (s.setStdin stdin) (.stage i) seg stdin).1.unfed hrole hs
    | cons seg' rest =>
      refine ih (i + 1) _ ?_ (.inl i.succ_pos) (.inl rfl)
      have hran := (runSegment_spec w
        { s.setStdin stdin with pipe := ((pipeBegin : StateM Pipe Unit) (s.setStdin stdin).pipe).2 } (.stage i) seg stdin).1
      exact hran.unfed hrole hs

/-- a line is a loop only where stdin is not set -/
def LoopWithoutStdin (s : Session) (line : List UInt8) : Prop := Input.isFor line = true → s.pipe.stdin = none

theorem unfed_dispatchLine {line : List UInt8} (hs : Unfed s) (hok : LoopWithoutStdin s line) :
    Unfed (dispatchLine w s line) := by
  unfold dispatchLine
  split_ifs with hempty hfor hvar
  · exact hs
  · unfold runForLoop
    cases parseFor (line.dropWhile (· = 32)) with
    | error _ => exact hs
    | ok f => exact unfed_forRounds f _ _ hs (hok hfor)
  · exact hs
  · split
    · exact hs
    · exact (runSegment_spec w (s.setStdin none) .single _ none).1.unfed (.inr rfl) hs
    · exact unfed_runPipeline _ 0 none hs (.inr rfl)

/-- **Only pipeline stages see piped input.** In every session whose loops are entered while stdin is not set, a program
that is not the second or a later stage of a pipeline is never told that there is stdin and reads nothing from it. -/
theorem only_stages_see_stdin (w : World) (pipe : Pipe) {tr : List (List UInt8 × Unit)} {t : Session}
    (hrun : Run (step w) LoopWithoutStdin (shellInit pipe) tr t) :
    ∀ st ∈ t.starts, st.role.later = false →
      ∀ e ∈ st.events, e ≠ .hasStdin true ∧ ∀ bytes, e = .read bytes → bytes = [] := by
  have hunfed : Unfed t :=
    hrun.invariant (fun s line hs hok => unfed_dispatchLine hs hok) fun st hst => absurd hst List.not_mem_nil
  exact hunfed

end

/-- a world with a program `a` that writes a byte, and otherwise programs that look at stdin -/
def lookingWorld : World where
  isdir := fun _ _ => false
  time := fun _ _ => []
  app := fun _ argv _ _ =>
    if argv.head? = some (ascii "a") then some (.put 120 .done) else some (.ask fun _ => .read 10 fun _ => .done)
  wmText := fun _ _ => []
  wmApp := fun _ _ => none

/-- a single command after a pipeline: it sees no stdin -/
theorem only_stages_see_stdin_after_pipeline :
    ∃ tr t, Run (step lookingWorld) LoopWithoutStdin (shellInit bootPipe) tr t ∧
      (⟨.single, [.hasStdin false, .read []]⟩ : Start) ∈ t.starts ∧
      ∀ st ∈ t.starts, st.role.later = false →
        ∀ e ∈ st.events, e ≠ .hasStdin true ∧ ∀ bytes, e = .read bytes → bytes = [] := by
  have h₀ : Run (step lookingWorld) LoopWithoutStdin (shellInit bootPipe) [] (shellInit bootPipe) := .nil _
  have h₁ := h₀.snoc (ascii "a|b") (fun hfor => absurd hfor (by decide))
  have h₂ := h₁.snoc (ascii "c") (fun hfor => absurd hfor (by decide))
  exact ⟨_, _, h₂, by decide +kernel, only_stages_see_stdin lookingWorld bootPipe h₂⟩

/-- **A loop sees stale stdin.** After `a|setenv X`, the body of a loop runs with the output of `a` as its stdin. -/
theorem loop_sees_stale_stdin :
    (⟨.loopBody, [.hasStdin true, .read [120]]⟩ : Start) ∈
      (runOps (step lookingWorld) (shellInit bootPipe)
        [ascii "a|setenv X", ascii "for ((i=0;i<1;i++)) do c done"]).starts := by
  decide +kernel

/-! ## Read-only variables -/

/-- the variables CWD and VER hold the current directory and the version -/
structure Mirrors (s : Session) : Prop where
  cwd : envGet s.env (ascii "CWD") = some s.cwd
  ver : envGet s.env (ascii "VER") = some osVersion

section
variable {w : World} {s s' : Session} {role : Role}

theorem Wrote.mirrors (h : Wrote s s') (hs : Mirrors s) : Mirrors s' := by
  have hcwdlen : (ascii "CWD").length < envNameMax - 1 := by decide
  have hverlen : (ascii "VER").length < envNameMax - 1 := by decide
  cases h with
  | nothing henv hcwd => exact ⟨by rw [henv, hcwd]; exact hs.cwd, by rw [henv]; exact hs.ver⟩
  | cd path hcwd henv =>
    refine ⟨?_, ?_⟩
    · -- a path and a value of a variable have the same room
      rw [henv, envGet_envSet_self (by rw [hs.cwd]; rfl), hcwd]
      exact congrArg some (strcpyS_strcpyS path pathMax)
    · rw [henv, envGet_envSet_of_ne (by decide) hverlen]
      exact hs.ver
  | set name val hname henv hcwd =>
    refine ⟨?_, ?_⟩
    · rw [henv, hcwd, envGet_envSet_of_ne hname.1 hcwdlen]
      exact hs.cwd
    · rw [henv, envGet_envSet_of_ne hname.2 hverlen]
      exact hs.ver
  | unset name hname henv hcwd =>
    refine ⟨?_, ?_⟩
    · rw [henv, hcwd, envGet_envUnset_of_ne hname.1]
      exact hs.cwd
    · rw [henv, envGet_envUnset_of_ne hname.2]
      exact hs.ver

/-- what comes before or after a command (stdin, the capture) touches neither variables nor directory -/
theorem Mirrors.congr (hs : Mirrors s) (henv : s'.env = s.env) (hcwd : s'.cwd = s.cwd) : Mirrors s' :=
  (Wrote.nothing henv hcwd).mirrors hs

theorem mirrors_runSegment (hs : Mirrors s) (seg : List UInt8) (stdin : Option Source) :
    Mirrors (runSegment w s role seg stdin) :=
  (runSegment_spec w s role seg stdin).2.mirrors hs

theorem forRounds_of_not {f : ForLoop} {val : ℤ} (h : ¬ forContinues f.op val f.endVal = true) (guard : ℕ) :
    forRounds w f guard s val = s := by
  cases guard with
  | zero => rfl
  | succ guard => rw [forRounds, if_neg h]

theorem mirrors_forRounds {f : ForLoop} (hname : f.varname ≠ ascii "CWD" ∧ f.varname ≠ ascii "VER") (guard : ℕ) (val : ℤ)
    (hs : Mirrors s) : Mirrors (forRounds w f guard s val) := by
  induction guard generalizing s val with
  | zero => exact hs
  | succ guard ih =>
    unfold forRounds
    split_ifs
    · have hset : Wrote s { s with env := envSet s.env f.varname (itoaS val) } := .set _ _ hname rfl rfl
      exact ih _ (mirrors_runSegment (hset.mirrors hs) _ none)
    · exact hs

theorem mirrors_runPipeline (segs : List (List UInt8)) (i : ℕ) (stdin : Option Source) (hs : Mirrors s) :
    Mirrors (runPipeline w i stdin segs s) := by
  induction segs generalizing i stdin s with
  | nil => exact hs
  | cons seg segs ih =>
    cases segs with
    | nil =>
      have hs₁ : Mirrors (s.setStdin stdin) := hs.congr rfl rfl
      exact mirrors_runSegment hs₁ seg stdin
    | cons seg' rest =>
      set s₁ : Session :=
        { s.setStdin stdin with pipe := ((pipeBegin : StateM Pipe Unit) (s.setStdin stdin).pipe).2 } with hs₁def
      have hs₁ : Mirrors s₁ := hs.congr rfl rfl
      have hs₂ : Mirrors (runSegment w s₁ (.stage i) seg stdin) := mirrors_runSegment hs₁ seg stdin
      refine ih (i + 1) _ (hs₂.congr ?_ ?_) <;> rfl

/-- a loop that has a first round does not count in CWD or VER -/
def LoopElsewhere (line : List UInt8) : Prop :=
  ∀ f, Input.isFor line = true → parseFor (line.dropWhile (· = 32)) = .ok f →
    forContinues f.op f.startVal f.endVal = true → f.varname ≠ ascii "CWD" ∧ f.varname ≠ ascii "VER"

theorem mirrors_dispatchLine {line : List UInt8} (hs : Mirrors s) (hok : LoopElsewhere line) :
    Mirrors (dispatchLine w s line) := by
  unfold dispatchLine
  split_ifs with hempty hfor hvar
  · exact hs
  · unfold runForLoop
    cases hparse : parseFor (line.dropWhile (· = 32)) with
    | error _ => exact hs
    | ok f =>
      dsimp only
      by_cases hgo : forContinues f.op f.startVal f.endVal = true
      · exact mirrors_forRounds (hok f hfor hparse hgo) _ _ hs
      · -- no round at all
        rw [forRounds_of_not hgo]
        exact hs
  · exact hs
  · split
    · exact hs
    · have hs₁ : Mirrors (s.setStdin none) := hs.congr rfl rfl
      exact mirrors_runSegment hs₁ _ none
    · exact mirrors_runPipeline _ 0 none hs

/-- the variables after `shell_init` do not depend on the pipe -/
theorem mirrors_shellInit (pipe : Pipe) : Mirrors (shellInit pipe) := by
  have h : Mirrors (shellInit bootPipe) := ⟨by decide +kernel, by decide +kernel⟩
  exact h.congr rfl rfl

/-- **Read-only variables mirror the shell's state.** In every session in which no loop counts in CWD or VER, at every
prompt CWD is the current directory and VER is the version. -/
theorem readonly_vars_mirror (w : World) (pipe : Pipe) {tr : List (List UInt8 × Unit)} {t : Session}
    (hrun : Run (step w) (fun _ line => LoopElsewhere line) (shellInit pipe) tr t) :
    envGet t.env (ascii "CWD") = some t.cwd ∧ envGet t.env (ascii "VER") = some osVersion := by
  have hstep : ∀ s line, Mirrors s → LoopElsewhere line → Mirrors (step w s line).2 :=
    fun s line hs hok => mirrors_dispatchLine hs hok
  have h : Mirrors t := hrun.invariant hstep (mirrors_shellInit pipe)
  exact ⟨h.cwd, h.ver⟩

end

/-- every path is a directory -/
def openWorld : World := { lookingWorld with isdir := fun _ _ => true }

theorem readonly_vars_mirror_cd :
    ∃ tr t, Run (step openWorld) (fun _ line => LoopElsewhere line) (shellInit bootPipe) tr t ∧ t.cwd = ascii "/home" ∧
      envGet t.env (ascii "CWD") = some t.cwd ∧ envGet t.env (ascii "VER") = some osVersion := by
  have h₀ : Run (step openWorld) (fun _ line => LoopElsewhere line) (shellInit bootPipe) [] (shellInit bootPipe) := .nil _
  have h₁ := h₀.snoc (ascii "cd home") (fun f hfor => absurd hfor (by decide))
  have h₂ := h₁.snoc (ascii "setenv VER x") (fun f hfor => absurd hfor (by decide))
  exact ⟨_, _, h₂, by decide +kernel, readonly_vars_mirror openWorld bootPipe h₂⟩

/-- **A loop overwrites a read-only variable.** -/
theorem loop_overwrites_vars :
    envGet (runOps (step lookingWorld) (shellInit bootPipe) [ascii "for ((VER=1;VER<2;VER++)) do pwd done"]).env
      (ascii "VER") = some (ascii "1") ∧
    envGet (runOps (step lookingWorld) (shellInit bootPipe) [ascii "for ((CWD=1;CWD<2;CWD++)) do pwd done"]).env
      (ascii "CWD") = some (ascii "1") ∧
    (runOps (step lookingWorld) (shellInit bootPipe) [ascii "for ((CWD=1;CWD<2;CWD++)) do pwd done"]).cwd = ascii "/" := by
  refine ⟨?_, ?_, ?_⟩ <;> decide +kernel

end Session

end GannetOS.Shell
