/-
The text functions of `shell/shell.c` that commands go through: `expand_vars`, `split_args`, `resolve_path`, the numbers of
`for` headers, and the parser of `run_for_loop` with its messages. C strings are lists of bytes, without the NUL; a copy
into a buffer of n bytes is cut to n - 1 characters. Loops over a text carry its length as fuel, since each round consumes
some of it.

`int` arithmetic wraps at 32 bits.
-/
import GannetOS.Shell.Env

namespace GannetOS.Shell

open GannetOS.Core

def pathMax : ℕ := 128

def maxArgs : ℕ := 16

def strcpyS (s : List UInt8) (max : ℕ) : List UInt8 := s.take (max - 1)

/-! ## `expand_vars` -/

/-- the loop, with `i` variables read and room for `room` more characters; `val` is `resolve_var` -/
def expandLoop (val : ℕ → List UInt8 → Option (List UInt8)) : ℕ → ℕ → List UInt8 → ℕ → List UInt8
  | _, _, [], _ => []
  | 0, _, _, _ => []
  | fuel + 1, i, c :: p, room =>
    if room = 0 then []
    else if c = 36 ∧ (p.head?.map Input.isVarStart).getD false = true then
      let vname := (p.takeWhile Input.isVarBody).take (envNameMax - 1)
      let out := ((val i vname).getD []).take room
      out ++ expandLoop val fuel (i + 1) (p.drop vname.length) (room - out.length)
    else c :: expandLoop val fuel i p (room - 1)

def expandVars (val : ℕ → List UInt8 → Option (List UInt8)) (src : List UInt8) (dstMax : ℕ) : List UInt8 :=
  expandLoop val src.length 0 src (dstMax - 1)

/-! ## `split_args` -/

def splitLoop : ℕ → ℕ → List UInt8 → List (List UInt8)
  | 0, _, _ => []
  | _, 0, _ => []
  | args + 1, fuel + 1, p =>
    match p.dropWhile (· = 32) with
    | [] => []
    | c :: p =>
      if c = 34 then
        let word := p.takeWhile (· ≠ 34)
        word :: splitLoop args fuel (p.drop (word.length + 1))
      else
        let word := (c :: p).takeWhile (· ≠ 32)
        word :: splitLoop args fuel ((c :: p).drop (word.length + 1))

def splitArgs (seg : List UInt8) (max : ℕ) : List (List UInt8) := splitLoop max (seg.length + 1) seg

/-! ## `resolve_path` -/

/-- the text before normalisation -/
def joinPath (cwd input : List UInt8) : List UInt8 :=
  match input with
  | 47 :: _ => strcpyS input pathMax
  | 126 :: p =>
    if p = [] then ascii "/home"
    else
      let tmp := ascii "/home" ++ if p.head? ≠ some 47 then [47] else []
      tmp ++ p.take (pathMax - 1 - tmp.length)
  | _ =>
    let tmp := strcpyS cwd pathMax
    let tmp := if tmp.length < pathMax - 2 ∧ tmp.getLast? ≠ some 47 then tmp ++ [47] else tmp
    tmp ++ input.take (pathMax - 1 - tmp.length)

/-- `..`: the last component goes, its slash stays -/
def dropComponent (result : List UInt8) : List UInt8 :=
  if result.length ≤ 1 then result.take 1
  else
    let r := if result.getLast? = some 47 then result.dropLast else result
    let kept := (r.reverse.dropWhile (· ≠ 47)).reverse
    if kept.length ≤ 1 then r.take 1 else kept

/-- one round of the loop: the component `comp` is added to what there is -/
def addComponent (result comp : List UInt8) : List UInt8 :=
  if comp = [] ∨ comp = [46] then result
  else if comp = [46, 46] then dropComponent result
  else
    let r := if 1 < result.length ∧ result.getLast? ≠ some 47 then result ++ [47] else result
    r ++ comp.take (pathMax - 1 - r.length)

def resolveLoop : ℕ → List UInt8 → List UInt8 → List UInt8
  | 0, _, result => result
  | fuel + 1, p, result =>
    if p = [] then result
    else
      let comp := p.takeWhile (· ≠ 47)
      resolveLoop fuel (p.drop (comp.length + 1)) (addComponent result (comp.take 63))

def resolvePath (cwd input : List UInt8) : List UInt8 :=
  let tmp := joinPath cwd input
  let p := if tmp.head? = some 47 then tmp.tail else tmp
  let result := resolveLoop (p.length + 1) p [47]
  let result := if 1 < result.length ∧ result.getLast? = some 47 then result.dropLast else result
  strcpyS result pathMax

/-! ## Numbers -/

/-- 32-bit two's complement -/
def wrap32 (x : ℤ) : ℤ := (x + 2 ^ 31) % 2 ^ 32 - 2 ^ 31

/-- the digits of `atoi_s` -/
def atoiDigits (v : ℤ) : List UInt8 → ℤ
  | [] => v
  | c :: s => if 48 ≤ c ∧ c ≤ 57 then atoiDigits (wrap32 (v * 10 + (c.toNat - 48))) s else v

def atoiS : List UInt8 → ℤ
  | 45 :: s => wrap32 (-atoiDigits 0 s)
  | 43 :: s => atoiDigits 0 s
  | s => atoiDigits 0 s

def itoaS (val : ℤ) : List UInt8 :=
  (if val < 0 then [45] else []) ++ (Nat.toDigits 10 val.natAbs).map fun c => UInt8.ofNat c.toNat

/-! ## The header of a `for` loop -/

def trim (s : List UInt8) : List UInt8 := ((s.dropWhile (· = 32)).reverse.dropWhile (· = 32)).reverse

/-- the text before the first `))`, and the text after it -/
def splitHeader : List UInt8 → Option (List UInt8 × List UInt8)
  | 41 :: 41 :: rest => some ([], rest)
  | c :: p => (splitHeader p).map fun r => (c :: r.1, r.2)
  | [] => none

/-- the first comparison of a condition, and the text after it -/
def findOp : List UInt8 → Option (List UInt8 × List UInt8)
  | a :: b :: p =>
    if (a = 60 ∨ a = 62 ∨ a = 61 ∨ a = 33) ∧ b = 61 then some ([a, b], p)
    else if a = 60 ∨ a = 62 then some ([a], b :: p)
    else findOp (b :: p)
  | [a] => if a = 60 ∨ a = 62 then some ([a], []) else none
  | [] => none

/-- a parsed loop -/
structure ForLoop where
  varname : List UInt8
  startVal : ℤ
  op : List UInt8
  endVal : ℤ
  step : ℤ
  body : List UInt8
deriving DecidableEq

/-- the body between `do` and `done` -/
def forBody (p : List UInt8) : Except String (List UInt8) :=
  let p := p.dropWhile (· = 32)
  if ¬ (p.take 2 = ascii "do" ∧ (p.getD 2 0 = 32 ∨ p.length = 2)) then .error "expected 'do' after ((...))"
  else
    let text := ((p.drop 2).dropWhile (· = 32)).reverse.dropWhile (· = 32)
    -- the text is reversed, so it has to start with `enod`
    if text.take 4 = (ascii "done").reverse ∧ (text.length = 4 ∨ text.getD 4 0 = 32) then
      let body := ((text.drop 4).dropWhile (· = 32)).reverse
      if body = [] then .error "empty loop body" else .ok body
    else .error "missing 'done'"

/-- the three parts of a header -/
def forParts (header : List UInt8) : Except String (List UInt8 × List UInt8 × List UInt8) :=
  let p₀ := header.takeWhile (· ≠ 59)
  let r₀ := header.drop p₀.length
  let p₁ := r₀.tail.takeWhile (· ≠ 59)
  let r₁ := r₀.tail.drop p₁.length
  if r₀ = [] ∨ r₁ = [] then .error "expected VAR=START; COND; VAR++ inside ((...))"
  else .ok (trim p₀, trim p₁, trim r₁.tail)

/-- the first part of `run_for_loop`: the line is taken apart, or there is a message -/
def parseFor (raw : List UInt8) : Except String ForLoop := do
  let p := (raw.drop 3).dropWhile (· = 32)
  if p.take 2 ≠ ascii "((" then throw "expected (( after 'for'"
  let some (header, rest) := splitHeader (p.drop 2) | throw "missing ))"
  let body ← forBody rest
  let (init, cond, incr) ← forParts header
  let name := init.takeWhile (· ≠ 61)
  if name.length = init.length then throw "expected VAR=START"
  let step ←
    if incr.reverse.take 2 = ascii "++" then pure 1
    else if incr.reverse.take 2 = ascii "--" then pure (-1)
    else throw "only VAR++ or VAR-- increments are supported"
  let some (op, after) := findOp cond | throw "expected a comparison in the condition"
  return ⟨trim name, atoiS (trim (init.drop (name.length + 1))), op, atoiS (trim after), step, body⟩

/-- does the loop go on? -/
def forContinues (op : List UInt8) (val endVal : ℤ) : Bool :=
  if op = ascii "<" then val < endVal
  else if op = ascii ">" then val > endVal
  else if op = ascii "<=" then val ≤ endVal
  else if op = ascii ">=" then val ≥ endVal
  else if op = ascii "==" then val = endVal
  else if op = ascii "!=" then val ≠ endVal
  else false

theorem strcpyS_length (s : List UInt8) (max : ℕ) : (strcpyS s max).length ≤ max - 1 := List.length_take_le _ _

/-- a copy that was cut is not cut again -/
theorem strcpyS_strcpyS (s : List UInt8) (max : ℕ) : (strcpyS s max).take (max - 1) = strcpyS s max :=
  List.take_of_length_le (strcpyS_length s max)

end GannetOS.Shell
