/-
Single-precision floating point (IEEE 754 binary32), as far as C's `float` is used in the kernel: addition, comparison
and the conversion to `int`. A value is not-a-number, an infinity, or a rational; a sum is rounded to the nearest
representable value, ties to even. The sign of zero is not kept: none of these operations on finite operands shows it.

`clamp` is the usual pair of tests that forces a value into a range. `clamp_mem` says that it does so for every value that
is a number; not-a-number passes both tests.
-/
import Mathlib

namespace GannetOS.Core

inductive Binary32 where
  | nan
  | inf (neg : Bool)
  | fin (x : ℚ)
deriving DecidableEq

namespace Binary32

/-- the nearest integer, ties to even -/
def roundEven (x : ℚ) : ℤ :=
  let f := ⌊x⌋
  if x - f < 1 / 2 then f else if 1 / 2 < x - f then f + 1 else if f % 2 = 0 then f else f + 1

/-- the nearest value with 24 bits of precision and an exponent of at least -126 -/
def round (x : ℚ) : Binary32 :=
  let ulp : ℚ := 2 ^ (max (Int.log 2 |x|) (-126) - 23)
  let y := roundEven (x / ulp) * ulp
  if 2 ^ 128 ≤ |y| then inf (x < 0) else fin y

def add : Binary32 → Binary32 → Binary32
  | nan, _ => nan
  | _, nan => nan
  | inf a, inf b => if a = b then inf a else nan
  | inf a, fin _ => inf a
  | fin _, inf b => inf b
  | fin x, fin y => round (x + y)

/-- `<`; false when an operand is not a number -/
def lt : Binary32 → Binary32 → Bool
  | nan, _ => false
  | _, nan => false
  | inf a, inf b => a && !b
  | inf a, fin _ => a
  | fin _, inf b => !b
  | fin x, fin y => x < y

/-- the conversion to `int` cuts the fraction off; the processor's answer to what does not fit is `INT_MIN` -/
def toInt : Binary32 → ℤ
  | fin x =>
    let n := if 0 ≤ x then ⌊x⌋ else ⌈x⌉
    if -2 ^ 31 ≤ n ∧ n < 2 ^ 31 then n else -2 ^ 31
  | _ => -2 ^ 31

/-- `if (x < lo) x = lo; if (x > hi) x = hi;` -/
def clamp (lo hi x : Binary32) : Binary32 :=
  let y := if x.lt lo then lo else x
  if hi.lt y then hi else y

theorem add_ne_nan {x : ℚ} {d : Binary32} (h : d ≠ nan) : add (fin x) d ≠ nan := by
  cases d with
  | nan => exact absurd rfl h
  | inf neg => exact Binary32.noConfusion
  | fin y =>
    show round (x + y) ≠ nan
    unfold round
    dsimp only
    split_ifs <;> exact Binary32.noConfusion

theorem clamp_mem {lo hi : ℚ} (hle : lo ≤ hi) {x : Binary32} (h : x ≠ nan) :
    ∃ y, clamp (fin lo) (fin hi) x = fin y ∧ lo ≤ y ∧ y ≤ hi := by
  cases x with
  | nan => exact absurd rfl h
  | inf neg =>
    cases neg with
    | true => exact ⟨lo, by simp [clamp, lt, hle], le_rfl, hle⟩
    | false => exact ⟨hi, by simp [clamp, lt], hle, le_rfl⟩
  | fin y =>
    by_cases hlo : y < lo
    · exact ⟨lo, by simp [clamp, lt, hlo, hle], le_rfl, hle⟩
    · by_cases hhi : hi < y
      · exact ⟨hi, by simp [clamp, lt, hlo, hhi], hle, le_rfl⟩
      · exact ⟨y, by simp [clamp, lt, hlo, hhi], not_lt.1 hlo, not_lt.1 hhi⟩

end Binary32

end GannetOS.Core
