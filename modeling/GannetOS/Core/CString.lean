/-
NUL-terminated strings. `cstr l` is the string that a reader of the bytes `l` sees: everything before the first NUL.
`CStr` is a string as a value, without a NUL in it. `StrArg m` is a string argument of a function: a way to read the byte
at an offset in the monad `m` (a plain value, or memory that another program owns), and a bound on how far a scan for the
terminator may go.
-/
import Mathlib

namespace GannetOS.Core

/-- the bytes of a string literal -/
def ascii (s : String) : List UInt8 := s.toList.map fun c => UInt8.ofNat c.toNat

/-- the bytes before the first NUL -/
def cstr (l : List UInt8) : List UInt8 := l.takeWhile (· ≠ 0)

theorem cstr_nulFree (l : List UInt8) : (0 : UInt8) ∉ cstr l := by
  intro h
  simpa using List.mem_takeWhile_imp h

theorem cstr_of_nulFree {l : List UInt8} (h : (0 : UInt8) ∉ l) : cstr l = l := by
  apply List.takeWhile_eq_self_iff.2
  intro x hx
  simpa using fun h0 : x = 0 => h (h0 ▸ hx)

@[simp] theorem cstr_nil : cstr [] = [] := rfl

@[simp] theorem cstr_zero_cons (l : List UInt8) : cstr (0 :: l) = [] := rfl

theorem cstr_cons {x : UInt8} (hx : x ≠ 0) (l : List UInt8) : cstr (x :: l) = x :: cstr l := by
  simp [cstr, hx]

theorem cstr_length_le (l : List UInt8) : (cstr l).length ≤ l.length :=
  (List.takeWhile_prefix _).length_le

/-- a string value -/
structure CStr where
  bytes : List UInt8
  nulFree : (0 : UInt8) ∉ bytes
deriving DecidableEq

namespace CStr

@[ext] theorem ext {p q : CStr} (h : p.bytes = q.bytes) : p = q := by
  cases p; subst h; rfl

end CStr

/-- a string argument: how its bytes are read, and a bound for scans -/
structure StrArg (m : Type → Type) where
  rd : ℕ → m UInt8
  fuel : ℕ

/-- a string the callee holds itself, followed by NULs -/
def StrArg.ofBytes {m : Type → Type} [Pure m] (l : List UInt8) : StrArg m := ⟨fun i => pure (l.getD i 0), l.length + 1⟩

/-- a string value passed as an argument -/
def CStr.arg {m : Type → Type} [Pure m] (p : CStr) : StrArg m := StrArg.ofBytes p.bytes

end GannetOS.Core
