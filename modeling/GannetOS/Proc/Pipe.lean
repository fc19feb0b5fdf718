/-
`kernel/proc/pipe.c`: the capture buffer of a pipeline and the stdin of its next stage.

There is one static buffer of 4096 bytes. `pipe_putchar` appends to it, and `stdin_data` may point into it. The position
is below 4096 by its type, so every store is within the buffer.

- `Pipe.Captured p out`: the buffer holds the first 4095 bytes of `out`, as a C string. `captured_begin` and
  `Captured.push` say that capturing keeps this.
- `pipeReadStdin_run`: a read delivers the next bytes of the string `stdin_data` points to.
-/
import GannetOS.Core.State

namespace GannetOS.Proc

open GannetOS.Core List
open Function (update update_eq_self update_of_ne update_self)

/-- what `stdin_data` points to: the capture buffer, or another string -/
inductive Source where
  | pipeBuf
  | text (bytes : List UInt8)

/-- the pipe's buffer has a first byte -/
instance neZero_pipeBuf : NeZero 4096 := ⟨by decide⟩

/-- the static variables of `pipe.c` -/
structure Pipe where
  buf : Fin 4096 → UInt8
  pos : Fin 4096
  on : Bool
  stdin : Option Source
  stdinPos : ℕ

/-- `pipe_putchar` on the buffer -/
def Pipe.push (p : Pipe) (c : UInt8) : Pipe :=
  if h : p.pos.val + 1 < 4096 then
    { p with buf := update (update p.buf p.pos c) ⟨p.pos.val + 1, h⟩ 0, pos := ⟨p.pos.val + 1, h⟩ }
  else p

/-- `n` bytes of stdin are consumed -/
def Pipe.advance (p : Pipe) (n : ℕ) : Pipe := { p with stdinPos := p.stdinPos + n }

/-- the byte at index `i` of the string a source stands for -/
def Pipe.sourceByte (p : Pipe) (src : Source) (i : ℕ) : UInt8 :=
  match src with
  | .pipeBuf => if h : i < 4096 then p.buf ⟨i, h⟩ else 0
  | .text bytes => bytes.getD i 0

section
variable {m : Type → Type} [Monad m] [MonadStateOf Pipe m]

def getPipe : m Pipe := MonadStateOf.get

def modifyPipe (f : Pipe → Pipe) : m Unit := MonadStateOf.modifyGet fun p => ((), f p)

def pipeBegin : m Unit := modifyPipe fun p => { p with buf := update p.buf 0 0, pos := 0, on := true }

def pipeEnd : m Source := do
  modifyPipe fun p => { p with buf := update p.buf p.pos 0, on := false }
  return .pipeBuf

def pipeActive : m Bool := do return (← getPipe).on

def pipePutchar (c : UInt8) : m Unit := modifyPipe (·.push c)

def pipeSetStdin (data : Option Source) : m Unit := modifyPipe fun p => { p with stdin := data, stdinPos := 0 }

def pipeHasStdin : m Bool := do return (← getPipe).stdin.isSome

/-- the loop of `pipe_read_stdin` with room for `room` more bytes; `out n c` stores `c` at index `n` of the buffer -/
def readStdinLoop (out : ℕ → UInt8 → m Unit) (src : ℕ → UInt8) : ℕ → ℕ → ℕ → m (List UInt8)
  | 0, _, _ => return []
  | room + 1, pos, n => do
    if src pos = 0 then return []
    out n (src pos)
    return src pos :: (← readStdinLoop out src room (pos + 1) (n + 1))

/-- `pipe_read_stdin`: the bytes it delivers, whose number it returns -/
def pipeReadStdin (out : ℕ → UInt8 → m Unit) (maxlen : ℤ) : m (List UInt8) := do
  let p ← getPipe
  match p.stdin with
  | none =>
    if 0 < maxlen then out 0 0
    return []
  | some src =>
    if maxlen ≤ 0 then return []
    let bytes ← readStdinLoop out (p.sourceByte src) (maxlen.toNat - 1) p.stdinPos 0
    modifyPipe (·.advance bytes.length)
    out bytes.length 0
    return bytes

end

/-! ## Strings in memory -/

/-- the bytes `src` spell the C string `out` -/
structure Spells (src : ℕ → UInt8) (out : List UInt8) : Prop where
  byte : ∀ i < out.length, src i = out.getD i 0
  nul : src out.length = 0
  nulFree : (0 : UInt8) ∉ out

variable {out : List UInt8} {p : Pipe}

theorem Spells.loop {src : ℕ → UInt8} (h : Spells src out) (room pos n : ℕ) (hpos : pos ≤ out.length) (p : Pipe) :
    (readStdinLoop (fun _ _ => pure ()) src room pos n : StateM Pipe _) p = ((out.drop pos).take room, p) := by
  induction room generalizing pos n with
  | zero => rfl
  | succ room ih =>
    rw [readStdinLoop, ite_run]
    by_cases hend : pos = out.length
    · rw [if_pos (by rw [hend]; exact h.nul), hend, drop_length, take_nil]
      rfl
    · have hlt : pos < out.length := by omega
      have hbyte : src pos = out[pos] := by rw [h.byte pos hlt, getD_eq_getElem _ _ hlt]
      have hne : src pos ≠ 0 := fun h0 => h.nulFree (by rw [← h0, hbyte]; exact getElem_mem hlt)
      rw [if_neg hne, pure_bind, run_bind (ih (pos + 1) (n + 1) (by omega)), drop_eq_getElem_cons hlt,
        take_succ_cons, hbyte]
      rfl

/-- a read delivers the next bytes of the string, at most `maxlen - 1` -/
theorem pipeReadStdin_run {src : Source} (hsrc : p.stdin = some src) (h : Spells (p.sourceByte src) out)
    (hpos : p.stdinPos ≤ out.length) (maxlen : ℤ) :
    (pipeReadStdin (fun _ _ => pure ()) maxlen : StateM Pipe _) p =
      ((out.drop p.stdinPos).take (maxlen.toNat - 1),
        p.advance ((out.drop p.stdinPos).take (maxlen.toNat - 1)).length) := by
  have hget : (getPipe : StateM Pipe _) p = (p, p) := rfl
  unfold pipeReadStdin
  rw [run_bind hget, hsrc]
  simp only [ite_run]
  by_cases hm : maxlen ≤ 0
  · have hroom : maxlen.toNat - 1 = 0 := by omega
    rw [if_pos hm, hroom, take_zero]
    rfl
  · rw [if_neg hm, run_bind (h.loop _ _ _ hpos p)]
    rfl

/-! ## Capturing -/

/-- the buffer holds the first 4095 bytes of `out` -/
structure Pipe.Captured (p : Pipe) (out : List UInt8) : Prop where
  pos : p.pos.val = (out.take 4095).length
  spells : Spells (p.sourceByte .pipeBuf) (out.take 4095)

theorem captured_begin (p : Pipe) :
    ({ p with buf := update p.buf 0 0, pos := 0, on := true } : Pipe).Captured [] := by
  refine ⟨rfl, ⟨fun i hi => absurd hi (Nat.not_lt_zero i), ?_, not_mem_nil⟩⟩
  simp [Pipe.sourceByte]

theorem Pipe.Captured.push (h : p.Captured out) {c : UInt8} (hc : c ≠ 0) :
    (p.push c).Captured (out ++ [c]) := by
  have hpos := h.pos
  rw [length_take] at hpos
  unfold Pipe.push
  split_ifs with hroom
  · -- room for one more byte: the string is not cut yet
    have hlen : p.pos.val = out.length := by omega
    have hcut : out.take 4095 = out := take_of_length_le (by omega)
    have hcut' : (out ++ [c]).take 4095 = out ++ [c] := take_of_length_le (by simp; omega)
    have hsp := h.spells
    rw [hcut] at hsp
    refine ⟨by simp [hcut', hlen], ?_⟩
    rw [hcut']
    refine ⟨fun i hi => ?_, ?_, ?_⟩
    · rw [length_append, length_singleton] at hi
      have hi' : i < 4096 := by omega
      have hne : (⟨i, hi'⟩ : Fin 4096) ≠ ⟨p.pos.val + 1, hroom⟩ := fun he => by
        have := congrArg Fin.val he
        simp only at this
        omega
      simp only [Pipe.sourceByte, dif_pos hi']
      rw [update_of_ne hne]
      by_cases hlast : i = out.length
      · have he : (⟨i, hi'⟩ : Fin 4096) = p.pos := Fin.ext (hlast.trans hlen.symm)
        rw [he, update_self, hlast]
        simp
      · have hlt : i < out.length := by omega
        have hne' : (⟨i, hi'⟩ : Fin 4096) ≠ p.pos := fun he => by
          have := congrArg Fin.val he
          simp only at this
          omega
        have hbyte := hsp.byte i hlt
        simp only [Pipe.sourceByte, dif_pos hi'] at hbyte
        rw [update_of_ne hne', hbyte]
        simp [getD_eq_getElem?_getD, getElem?_append_left hlt]
    · have he : (⟨(out ++ [c]).length, by simp; omega⟩ : Fin 4096) = ⟨p.pos.val + 1, hroom⟩ :=
        Fin.ext (by simp [hlen])
      rw [Pipe.sourceByte, dif_pos (by simp; omega), he]
      exact update_self _ _ _
    · rw [mem_append, mem_singleton, not_or]
      exact ⟨hsp.nulFree, hc.symm⟩
  · -- the buffer is full: the byte is dropped
    have hfull : 4095 ≤ out.length := by omega
    have hcut : (out ++ [c]).take 4095 = out.take 4095 := take_append_of_le_length hfull
    exact ⟨by rw [hcut]; exact h.pos, by rw [hcut]; exact h.spells⟩

/-- ending the capture leaves the string -/
theorem Pipe.Captured.finish (h : p.Captured out) :
    ({ p with buf := update p.buf p.pos 0, on := false } : Pipe).Captured out := by
  have hnul := h.spells.nul
  rw [← h.pos, Pipe.sourceByte, dif_pos p.pos.isLt] at hnul
  have hsame : update p.buf p.pos 0 = p.buf := by
    rw [← hnul]
    exact update_eq_self _ _
  rw [hsame]
  exact ⟨h.pos, h.spells⟩

end GannetOS.Proc
