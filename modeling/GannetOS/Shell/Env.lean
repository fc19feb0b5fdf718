/-
The environment table of `shell/shell.c`: 32 entries, names of at most 31 and values of at most 127 characters. C strings
are lists of bytes.
- `envGet_envSet_self`: a variable that is in the table has the value it was set to, cut to 127 characters;
- `envGet_envSet_of_ne`, `envGet_envUnset_of_ne`: setting or unsetting one variable leaves the others as they are.
-/
import GannetOS.Core.Pool
import GannetOS.Shell.Input

namespace GannetOS.Shell

open GannetOS.Core

def envMaxVars : ℕ := 32

def envValMax : ℕ := 128

/-- `env_entry_t` -/
structure EnvEntry where
  name : List UInt8
  val : List UInt8
  used : Bool

/-- `env_table` -/
abbrev Env := Fin envMaxVars → EnvEntry

/-- the first entry in use with this name -/
def envFind (e : Env) (name : List UInt8) : Option (Fin envMaxVars) :=
  firstFree fun i => !((e i).used && (e i).name = name)

def envGet (e : Env) (name : List UInt8) : Option (List UInt8) := (envFind e name).map fun i => (e i).val

def envSet (e : Env) (name val : List UInt8) : Env :=
  match envFind e name with
  | some i => Function.update e i { e i with val := val.take (envValMax - 1) }
  | none =>
    match firstFree fun i => (e i).used with
    | some i => Function.update e i ⟨name.take (envNameMax - 1), val.take (envValMax - 1), true⟩
    | none => e

def envUnset (e : Env) (name : List UInt8) : Env :=
  match envFind e name with
  | some i => Function.update e i ⟨[], [], false⟩
  | none => e

section
variable {e : Env} {name n : List UInt8} {i : Fin envMaxVars}

theorem envFind_some (h : envFind e name = some i) : (e i).used = true ∧ (e i).name = name := by
  simpa using firstFree_free h

/-- the search sees nothing of a change that keeps which entries have the name -/
theorem envFind_congr {e' : Env} (h : ∀ j, ((e' j).used = true ∧ (e' j).name = n) ↔ ((e j).used = true ∧ (e j).name = n)) :
    envFind e' n = envFind e n := by
  unfold envFind
  congr 1
  funext j
  have hj := h j
  rw [← Bool.decide_coe (e' j).used, ← Bool.decide_coe (e j).used, ← Bool.decide_and, ← Bool.decide_and]
  simp only [hj]

theorem envGet_envSet_self (h : (envGet e name).isSome) (val : List UInt8) :
    envGet (envSet e name val) name = some (val.take (envValMax - 1)) := by
  obtain ⟨i, hi⟩ : ∃ i, envFind e name = some i := by
    cases hf : envFind e name with
    | none => simp [envGet, hf] at h
    | some i => exact ⟨i, rfl⟩
  have hset : envSet e name val = Function.update e i { e i with val := val.take (envValMax - 1) } := by
    simp only [envSet, hi]
  have hfind : envFind (envSet e name val) name = some i := by
    rw [← hi, hset]
    refine envFind_congr fun j => ?_
    by_cases hj : j = i
    · subst hj
      simp
    · simp [hj]
  rw [envGet, hfind, hset]
  simp

/-- a change of one entry that has another name before and after it is not seen -/
theorem envGet_update {new : EnvEntry} (hold : ¬ ((e i).used = true ∧ (e i).name = n))
    (hnew : ¬ (new.used = true ∧ new.name = n)) : envGet (Function.update e i new) n = envGet e n := by
  have hfind : envFind (Function.update e i new) n = envFind e n := by
    refine envFind_congr fun j => ?_
    by_cases hj : j = i
    · subst hj
      simp only [Function.update_self]
      exact iff_of_false hnew hold
    · simp [hj]
  unfold envGet
  rw [hfind]
  cases hf : envFind e n with
  | none => rfl
  | some j =>
    have hji : j ≠ i := fun he => hold (he ▸ envFind_some hf)
    simp [hji]

/-- a name that is cut is longer than the names it might be mistaken for -/
theorem take_ne (hne : name ≠ n) (hn : n.length < envNameMax - 1) : name.take (envNameMax - 1) ≠ n := by
  by_cases hlen : name.length ≤ envNameMax - 1
  · rwa [List.take_of_length_le hlen]
  · intro he
    have := congrArg List.length he
    rw [List.length_take] at this
    omega

theorem envGet_envSet_of_ne (hne : name ≠ n) (hn : n.length < envNameMax - 1) (val : List UInt8) :
    envGet (envSet e name val) n = envGet e n := by
  unfold envSet
  cases hf : envFind e name with
  | some i =>
    have hi := envFind_some hf
    refine envGet_update (fun hc => hne (hi.2.symm.trans hc.2)) fun hc => hne (hi.2.symm.trans hc.2)
  | none =>
    cases hfree : firstFree fun i => (e i).used with
    | none => rfl
    | some i =>
      refine envGet_update (fun hc => ?_) fun hc => take_ne hne hn hc.2
      rw [firstFree_free hfree] at hc
      cases hc.1

theorem envGet_envUnset_of_ne (hne : name ≠ n) : envGet (envUnset e name) n = envGet e n := by
  unfold envUnset
  cases hf : envFind e name with
  | none => rfl
  | some i =>
    refine envGet_update (fun hc => hne ((envFind_some hf).2.symm.trans hc.2)) fun hc => ?_
    cases hc.1

end

end GannetOS.Shell
