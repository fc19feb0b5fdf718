/-
What a `for` loop of `shell/shell.c` does: which rounds `run_for_loop` makes, and what its variable stands for in each.

`forTrace` are the rounds of a loop: the value, and the session in which the body is expanded and run (`forRounds_eq`).

- `atoiS_eq`: `atoi_s` reads every 32-bit number (`number` reads one of any size);
- `forTrace_isSome_iff`: as long as the values are 32-bit numbers, round `k` is made exactly if the comparison has held for
  all values up to START + k * step, and `k` is below 100000;
- `forTrace_carries`: in every round the variable has its value, if there was an entry for it before the first one. A body is
  one command, so it can take the variable away or give its entry to another one, but not both;
- `for_loop_iff`: so the loop is right exactly if it makes no round, or its variable is not TIME and has an entry.
-/
import GannetOS.Shell.Expand
import GannetOS.Shell.Session

namespace GannetOS.Shell

open GannetOS.Core Session List

/-! ## Numbers -/

/-- the values of an `int` -/
def Fits32 (x : ℤ) : Prop := -2 ^ 31 ≤ x ∧ x < 2 ^ 31

theorem wrap32_of_fits {x : ℤ} (h : Fits32 x) : wrap32 x = x := by
  obtain ⟨hlo, hhi⟩ := h
  unfold wrap32
  omega

theorem fits32_wrap32 (x : ℤ) : Fits32 (wrap32 x) := by
  unfold Fits32 wrap32
  omega

/-- the number that a text starts with, of any size -/
def digitsValue (v : ℤ) : List UInt8 → ℤ
  | [] => v
  | c :: s => if 48 ≤ c ∧ c ≤ 57 then digitsValue (v * 10 + (c.toNat - 48)) s else v

def number : List UInt8 → ℤ
  | 45 :: s => -digitsValue 0 s
  | 43 :: s => digitsValue 0 s
  | s => digitsValue 0 s

theorem atoiDigits_eq (v : ℤ) (s : List UInt8) : atoiDigits (wrap32 v) s = wrap32 (digitsValue v s) := by
  induction s generalizing v with
  | nil => rfl
  | cons c s ih =>
    have hstep : wrap32 (wrap32 v * 10 + (c.toNat - 48)) = wrap32 (v * 10 + (c.toNat - 48)) := by
      unfold wrap32
      omega
    rw [atoiDigits, digitsValue, hstep, ih]
    split_ifs
    · rfl
    · rfl

/-- **`atoi_s` reads the number**, as far as it is one of 32 bits. -/
theorem atoiS_eq (l : List UInt8) : atoiS l = wrap32 (number l) := by
  have hdigits : ∀ s, atoiDigits 0 s = wrap32 (digitsValue 0 s) := atoiDigits_eq 0
  have hneg : ∀ x, wrap32 (-wrap32 x) = wrap32 (-x) := by
    intro x
    unfold wrap32
    omega
  fun_cases atoiS l with
  | case1 s => rw [number, hdigits, hneg]
  | case2 s => rw [number, hdigits]
  | case3 _ h45 h43 => rw [number.eq_3 _ h45 h43, hdigits]

/-- the loop of `itoa_s`: the last digit is the first in tmp -/
def itoaDigits (u : ℕ) : List UInt8 := UInt8.ofNat (48 + u % 10) :: if u / 10 = 0 then [] else itoaDigits (u / 10)
termination_by u
decreasing_by omega

theorem digitChar_byte {d : ℕ} (h : d < 10) : UInt8.ofNat (Nat.digitChar d).toNat = UInt8.ofNat (48 + d) := by
  interval_cases d <;> rfl

theorem toDigits_eq (u : ℕ) : (Nat.toDigits 10 u).map (fun c => UInt8.ofNat c.toNat) = (itoaDigits u).reverse := by
  induction u using itoaDigits.induct with
  | case1 u ih =>
    have hmod : u % 10 < 10 := Nat.mod_lt u (by decide)
    rw [itoaDigits, reverse_cons]
    by_cases hlast : u / 10 = 0
    · have hu : u < 10 := by omega
      rw [if_pos hlast, Nat.toDigits_of_lt_base hu, map_singleton, digitChar_byte hu, Nat.mod_eq_of_lt hu]
      rfl
    · rw [if_neg hlast, Nat.toDigits_of_base_le (by decide) (by omega), map_append, ih hlast, map_singleton,
        digitChar_byte hmod]

theorem length_itoaDigits_le {u k : ℕ} (hk : 0 < k) (hu : u < 10 ^ k) : (itoaDigits u).length ≤ k := by
  induction k generalizing u with
  | zero => exact absurd hk (Nat.lt_irrefl 0)
  | succ k ih =>
    rw [itoaDigits, length_cons]
    by_cases hlast : u / 10 = 0
    · rw [if_pos hlast]
      exact hk
    · rw [if_neg hlast]
      have hdiv : u / 10 < 10 ^ k := by
        rw [Nat.pow_succ] at hu
        omega
      have hpos : 0 < k := by
        rcases Nat.eq_zero_or_pos k with rfl | hpos
        · exact absurd (Nat.lt_one_iff.1 hdiv) hlast
        · exact hpos
      exact Nat.succ_le_succ (ih hpos hdiv)

theorem itoaS_eq (val : ℤ) : itoaS val = (itoaDigits val.natAbs ++ if val < 0 then [45] else []).reverse := by
  rw [itoaS, toDigits_eq, reverse_append]
  split_ifs
  · rfl
  · rfl

theorem length_itoaS_le {val : ℤ} (h : Fits32 val) : (itoaS val).length ≤ 11 := by
  obtain ⟨hlo, hhi⟩ := h
  have hdigits := length_itoaDigits_le (u := val.natAbs) (k := 10) (by decide) (by omega)
  rw [itoaS_eq, length_reverse, length_append]
  split_ifs
  · rw [length_singleton]
    omega
  · rw [length_nil]
    omega

theorem digit_range {d : ℕ} (h : d < 10) :
    48 ≤ UInt8.ofNat (48 + d) ∧ UInt8.ofNat (48 + d) ≤ 57 ∧ (UInt8.ofNat (48 + d)).toNat = 48 + d := by
  interval_cases d <;> decide

theorem itoaDigits_range (u : ℕ) : ∀ c ∈ itoaDigits u, 48 ≤ c ∧ c ≤ 57 := by
  induction u using itoaDigits.induct with
  | case1 u ih =>
    obtain ⟨hlo, hhi, -⟩ := digit_range (Nat.mod_lt u (by decide : 10 > 0))
    intro c hc
    rw [itoaDigits, mem_cons] at hc
    rcases hc with rfl | hc
    · exact ⟨hlo, hhi⟩
    · split_ifs at hc with hlast
      · exact absurd hc not_mem_nil
      · exact ih hlast c hc

/-! ## Comparisons and headers -/

inductive Cmp
  | lt | gt | le | ge | eq | ne

def Cmp.text : Cmp → List UInt8
  | .lt => ascii "<"
  | .gt => ascii ">"
  | .le => ascii "<="
  | .ge => ascii ">="
  | .eq => ascii "=="
  | .ne => ascii "!="

def Cmp.holds : Cmp → ℤ → ℤ → Prop
  | .lt, a, b => a < b
  | .gt, a, b => a > b
  | .le, a, b => a ≤ b
  | .ge, a, b => a ≥ b
  | .eq, a, b => a = b
  | .ne, a, b => a ≠ b

theorem forContinues_text (c : Cmp) (a b : ℤ) : forContinues c.text a b = true ↔ c.holds a b := by
  cases c <;> exact decide_eq_true_iff

/-- a condition is accepted with one of the six comparisons -/
theorem findOp_text {cond op after : List UInt8} (h : findOp cond = some (op, after)) : ∃ c : Cmp, op = c.text := by
  induction cond using findOp.induct with
  | case1 a b p hop =>
    rw [findOp, if_pos hop] at h
    obtain ⟨rfl, -⟩ := Prod.mk.inj (Option.some.inj h)
    obtain ⟨ha, rfl⟩ := hop
    rcases ha with rfl | rfl | rfl | rfl
    · exact ⟨.le, rfl⟩
    · exact ⟨.ge, rfl⟩
    · exact ⟨.eq, rfl⟩
    · exact ⟨.ne, rfl⟩
  | case2 a b p hop ha =>
    rw [findOp, if_neg hop, if_pos ha] at h
    obtain ⟨rfl, -⟩ := Prod.mk.inj (Option.some.inj h)
    rcases ha with rfl | rfl
    · exact ⟨.lt, rfl⟩
    · exact ⟨.gt, rfl⟩
  | case3 a b p hop ha ih =>
    rw [findOp, if_neg hop, if_neg ha] at h
    exact ih h
  | case4 a ha =>
    rw [findOp, if_pos ha] at h
    obtain ⟨rfl, -⟩ := Prod.mk.inj (Option.some.inj h)
    rcases ha with rfl | rfl
    · exact ⟨.lt, rfl⟩
    · exact ⟨.gt, rfl⟩
  | case5 a ha =>
    rw [findOp, if_neg ha] at h
    cases h
  | case6 => cases h

/-- START and END of a line -/
def forNumbers (raw : List UInt8) : Option (ℤ × ℤ) :=
  match splitHeader (((raw.drop 3).dropWhile (· = 32)).drop 2) with
  | none => none
  | some (header, _) =>
    match forParts header with
    | .error _ => none
    | .ok (init, cond, _) =>
      let name := init.takeWhile (· ≠ 61)
      (findOp cond).map fun r => (number (trim (init.drop (name.length + 1))), number (trim r.2))

theorem except_bind_ok {α β : Type} {x : Except String α} {g : α → Except String β} {r : β} (h : (x >>= g) = .ok r) :
    ∃ a, x = .ok a ∧ g a = .ok r := by
  cases x with
  | error e => cases h
  | ok a => exact ⟨a, rfl, h⟩

theorem parseFor_ok {raw : List UInt8} {f : ForLoop} (h : parseFor raw = .ok f) :
    (∃ c : Cmp, f.op = c.text) ∧ (f.step = 1 ∨ f.step = -1) ∧
      ∃ a b, forNumbers raw = some (a, b) ∧ f.startVal = wrap32 a ∧ f.endVal = wrap32 b := by
  unfold parseFor at h
  dsimp only at h
  split at h
  · cases h
  split at h
  · rename_i header rest hsplit
    obtain ⟨body, -, h⟩ := except_bind_ok h
    obtain ⟨⟨init, cond, incr⟩, hparts, h⟩ := except_bind_ok h
    dsimp only at h
    split at h
    · cases h
    have hnumbers : forNumbers raw = (findOp cond).map fun r =>
        (number (trim (init.drop ((init.takeWhile (· ≠ 61)).length + 1))), number (trim r.2)) := by
      rw [forNumbers, hsplit]
      dsimp only
      rw [hparts]
    cases hop : findOp cond with
    | none =>
      rw [hop] at h
      split_ifs at h <;> cases h
    | some r =>
      rw [hop] at h hnumbers
      obtain ⟨c, hc⟩ := findOp_text hop
      have hf : ∃ step, (step = 1 ∨ step = -1) ∧ f = ⟨trim (init.takeWhile (· ≠ 61)),
          atoiS (trim (init.drop ((init.takeWhile (· ≠ 61)).length + 1))), r.1, atoiS (trim r.2), step, body⟩ := by
        split_ifs at h
        · exact ⟨1, .inl rfl, (Except.ok.inj h).symm⟩
        · exact ⟨-1, .inr rfl, (Except.ok.inj h).symm⟩
        · cases h
      obtain ⟨step, hstep, rfl⟩ := hf
      exact ⟨⟨c, hc⟩, hstep, _, _, hnumbers, atoiS_eq _, atoiS_eq _⟩
  · cases h

/-! ## The rounds -/

/-- a round: the value, and the session in which the body is expanded -/
structure LoopRound where
  val : ℤ
  session : Session

/-- the body of a round is expanded and run -/
def LoopRound.run (w : World) (f : ForLoop) (r : LoopRound) : Session :=
  runSegment w r.session .loopBody (expandVars (resolveVar w r.session) f.body cmdBufSize) none

/-- the rounds of a loop, of which at most `guard` are left -/
def forTrace (w : World) (f : ForLoop) : ℕ → Session → ℤ → List LoopRound
  | 0, _, _ => []
  | guard + 1, s, val =>
    if forContinues f.op val f.endVal then
      let r : LoopRound := ⟨val, { s with env := envSet s.env f.varname (itoaS val) }⟩
      r :: forTrace w f guard (r.run w f) (wrap32 (val + f.step))
    else []

/-- the loop ends with what the last round leaves -/
theorem forRounds_eq (w : World) (f : ForLoop) (guard : ℕ) (s : Session) (val : ℤ) :
    forRounds w f guard s val = ((forTrace w f guard s val).getLast?.map (LoopRound.run w f)).getD s := by
  induction guard generalizing s val with
  | zero => rfl
  | succ guard ih =>
    rw [forRounds, forTrace]
    split_ifs
    · set r : LoopRound := ⟨val, { s with env := envSet s.env f.varname (itoaS val) }⟩
      show forRounds w f guard (r.run w f) _ =
        ((r :: forTrace w f guard (r.run w f) (wrap32 (val + f.step))).getLast?.map (LoopRound.run w f)).getD s
      rw [ih, getLast?_cons]
      cases (forTrace w f guard (r.run w f) (wrap32 (val + f.step))).getLast? with
      | none => rfl
      | some r => rfl
    · rfl

section
variable {w : World} {f : ForLoop} {s : Session}

/-- **The rounds of a loop**, as long as the values are 32-bit numbers. -/
theorem forTrace_isSome_iff {val : ℤ} {k : ℕ} (hfits : ∀ j : ℕ, j ≤ k → Fits32 (val + j * f.step)) (guard : ℕ) :
    ((forTrace w f guard s val)[k]?.isSome = true ↔
      k < guard ∧ ∀ j : ℕ, j ≤ k → forContinues f.op (val + j * f.step) f.endVal = true) ∧
    ∀ r, (forTrace w f guard s val)[k]? = some r → r.val = val + k * f.step := by
  induction k generalizing s val guard with
  | zero =>
    cases guard with
    | zero => simp [forTrace]
    | succ guard =>
      rw [forTrace]
      by_cases hgo : forContinues f.op val f.endVal = true
      · simp [hgo]
      · simp [hgo]
  | succ k ih =>
    cases guard with
    | zero => simp [forTrace]
    | succ guard =>
      have hnext : wrap32 (val + f.step) = val + f.step := by
        apply wrap32_of_fits
        have h1 := hfits 1 (by omega)
        rwa [Nat.cast_one, one_mul] at h1
      have hshift : ∀ j : ℕ, val + f.step + j * f.step = val + (j + 1 : ℕ) * f.step := by
        intro j
        push_cast
        ring
      rw [forTrace]
      by_cases hgo : forContinues f.op val f.endVal = true
      · rw [if_pos hgo, hnext, getElem?_cons_succ]
        obtain ⟨hsome, hval⟩ := ih (s := LoopRound.run w f ⟨val, { s with env := envSet s.env f.varname (itoaS val) }⟩)
          (fun j hj => show Fits32 (val + f.step + j * f.step) by rw [hshift]; exact hfits (j + 1) (by omega)) guard
        simp only [hshift] at hsome hval
        refine ⟨hsome.trans ?_, hval⟩
        rw [Nat.succ_lt_succ_iff]
        apply and_congr_right
        intro _
        constructor
        · intro h j hj
          cases j with
          | zero => simpa using hgo
          | succ j => exact h j (by omega)
        · intro h j hj
          exact h (j + 1) (by omega)
      · rw [if_neg hgo]
        constructor
        · constructor
          · intro h
            cases h
          · rintro ⟨-, h⟩
            exact absurd (by simpa using h 0 (Nat.zero_le _)) hgo
        · intro r hr
          cases hr

/-! ## The variable -/

variable {e : Env} {v name val : List UInt8}

theorem envFind_isSome_iff : (envFind e v).isSome = true ↔ ∃ i, (e i).used = true ∧ (e i).name = v := by
  constructor
  · intro h
    obtain ⟨i, hi⟩ := Option.isSome_iff_exists.1 h
    exact ⟨i, envFind_some hi⟩
  · rintro ⟨i, hused, hname⟩
    by_contra hnone
    have hget : envGet e v = none := by
      rw [envGet, Option.not_isSome_iff_eq_none.1 hnone]
      rfl
    exact envGet_eq_none.1 hget i hused hname

/-- a variable that has an entry gets its value -/
theorem envGet_envSet_of_hasEntry (h : HasEntry e v) (hv : v.length ≤ envNameMax - 1) :
    envGet (envSet e v val) v = some (val.take (envValMax - 1)) := by
  by_cases hset : (envGet e v).isSome = true
  · exact envGet_envSet_self hset val
  · obtain ⟨i, hstore, -⟩ := envSet_stores h hv val
    have hother : ∀ j, (e j).used = true → (e j).name ≠ v := envGet_eq_none.1 (Option.not_isSome_iff_eq_none.1 hset)
    have hfound : (envFind (envSet e v val) v).isSome = true := by
      rw [envFind_isSome_iff, hstore]
      exact ⟨i, by rw [Function.update_self], by rw [Function.update_self]⟩
    obtain ⟨j, hj⟩ := Option.isSome_iff_exists.1 hfound
    have hji : j = i := by
      by_contra hne
      obtain ⟨hused, hname⟩ := envFind_some hj
      rw [hstore, Function.update_of_ne hne] at hused hname
      exact hother j hused hname
    rw [envGet, hj, hji, hstore, Option.map_some, Function.update_self]

/-- setting a variable takes no entry from another one -/
theorem envFind_envSet (h : (envFind e v).isSome = true) : (envFind (envSet e name val) v).isSome = true := by
  rw [envFind_isSome_iff] at h ⊢
  obtain ⟨i, hused, hname⟩ := h
  refine ⟨i, ?_⟩
  unfold envSet
  cases hf : envFind e name with
  | some j =>
    by_cases hij : i = j
    · subst hij
      dsimp only
      rw [Function.update_self]
      exact ⟨hused, hname⟩
    · dsimp only
      rw [Function.update_of_ne hij]
      exact ⟨hused, hname⟩
  | none =>
    cases hfree : firstFree fun i => (e i).used with
    | none => exact ⟨hused, hname⟩
    | some j =>
      have hij : i ≠ j := by
        rintro rfl
        exact absurd hused (by rw [firstFree_free hfree]; exact Bool.false_ne_true)
      dsimp only
      rw [Function.update_of_ne hij]
      exact ⟨hused, hname⟩

/-- what is unset leaves its entry -/
theorem hasEntry_envUnset (h : (envFind e v).isSome = true) : HasEntry (envUnset e name) v := by
  unfold envUnset
  cases hf : envFind e name with
  | none => exact .inl h
  | some i => exact .inr ⟨i, by dsimp only; rw [Function.update_self]⟩

/-- whatever a command does, a variable that was set has an entry -/
theorem Session.Wrote.hasEntry {s' : Session} (h : Wrote s s') (hv : (envFind s.env v).isSome = true) :
    HasEntry s'.env v := by
  cases h with
  | nothing henv => exact .inl (by rw [henv]; exact hv)
  | cd path hcwd henv =>
    rw [henv]
    exact .inl (envFind_envSet hv)
  | set name val _ henv =>
    rw [henv]
    exact .inl (envFind_envSet hv)
  | unset name _ henv =>
    rw [henv]
    exact hasEntry_envUnset hv

/-- **In every round the variable has its value**, if there was an entry for it. -/
theorem forTrace_carries (hname : f.varname.length < envNameMax) {val : ℤ} (hfits : Fits32 val) (guard : ℕ)
    (h : HasEntry s.env f.varname) :
    ∀ r ∈ forTrace w f guard s val, envGet r.session.env f.varname = some (itoaS r.val) := by
  induction guard generalizing s val with
  | zero => exact fun r hr => absurd hr not_mem_nil
  | succ guard ih =>
    rw [forTrace]
    split_ifs
    · have hget : envGet (envSet s.env f.varname (itoaS val)) f.varname = some (itoaS val) := by
        have hlen := length_itoaS_le hfits
        rw [envGet_envSet_of_hasEntry h (Nat.le_sub_one_of_lt hname), take_of_length_le (by rw [envValMax]; omega)]
      intro r hr
      rcases List.mem_cons.1 hr with rfl | hr
      · exact hget
      · refine ih (fits32_wrap32 _) ?_ r hr
        apply (runSegment_spec w _ .loopBody _ none).2.hasEntry
        by_contra hnone
        rw [envGet, Option.not_isSome_iff_eq_none.1 hnone] at hget
        cases hget
    · exact fun r hr => absurd hr not_mem_nil

/-- without an entry the variable is not there -/
theorem envGet_envSet_of_not_hasEntry (h : ¬ HasEntry e v) : envGet (envSet e v val) v = none := by
  rw [HasEntry, not_or, not_exists, Option.not_isSome_iff_eq_none] at h
  obtain ⟨hnone, hfull⟩ := h
  have hfree : firstFree (fun i => (e i).used) = none := firstFree_eq_none.2 fun i => Bool.of_not_eq_false (hfull i)
  have hset : envSet e v val = e := by
    unfold envSet
    rw [hnone]
    dsimp only
    rw [hfree]
  rw [hset, envGet, hnone]
  rfl

end

/-! ## When the rounds are right -/

/-- what `$name` stands for when `i` variables came before it -/
def meaning (w : World) (s : Session) (i : ℕ) (name : List UInt8) : List UInt8 := (resolveVar w s i name).getD []

/-- in this round the variable stands for the decimal text of the value, wherever it is in the body -/
structure Carries (w : World) (f : ForLoop) (r : LoopRound) : Prop where
  meaning : ∀ i, meaning w r.session i f.varname = itoaS r.val
  body : ∀ pre post, pieces f.body = pre ++ Piece.var f.varname :: post →
    expandVars (resolveVar w r.session) f.body cmdBufSize =
      (expand (Shell.meaning w r.session) 0 (pre.flatMap Piece.cut) ++ itoaS r.val ++
        expand (Shell.meaning w r.session) ((pre.flatMap Piece.cut).countP Piece.isVar + 1)
          (post.flatMap Piece.cut)).take 255

/-- the rounds of the line, as long as no value leaves the 32 bits: START, START + step, … while the comparison with END
holds, and at most 100000 -/
structure LoopRight (w : World) (f : ForLoop) (s : Session) (c : Cmp) (start stop : ℤ) : Prop where
  rounds : ∀ k : ℕ, (∀ j : ℕ, j ≤ k → Fits32 (start + j * f.step)) →
    ((forTrace w f 100000 s f.startVal)[k]?.isSome = true ↔
      k < 100000 ∧ ∀ j : ℕ, j ≤ k → c.holds (start + j * f.step) stop)
  carries : ∀ k : ℕ, (∀ j : ℕ, j ≤ k → Fits32 (start + j * f.step)) →
    ∀ r, (forTrace w f 100000 s f.startVal)[k]? = some r → r.val = start + k * f.step ∧ Carries w f r

theorem carries_of_meaning {w : World} {f : ForLoop} {r : LoopRound} (hname : f.varname.length < envNameMax)
    (h : ∀ i, meaning w r.session i f.varname = itoaS r.val) : Carries w f r where
  meaning := h
  body pre post hbody := by
    rw [expandVars_eq, hbody, flatMap_append, flatMap_cons, cut_of_short hname, singleton_append,
      expand_append, expand, append_assoc, Nat.zero_add]
    exact congrArg (fun t => List.take 255 (_ ++ (t ++ _))) (h _)

/-- the clock is no number -/
theorem rtcFormatTime_ne (t : RtcTime) (val : ℤ) : rtcFormatTime t ≠ itoaS val := by
  intro heq
  have hcolon : (58 : UInt8) ∈ itoaS val := by
    rw [← heq, rtcFormatTime]
    simp
  rw [itoaS_eq, mem_reverse, mem_append] at hcolon
  rcases hcolon with hdigit | hsign
  · exact absurd (itoaDigits_range _ _ hdigit).2 (by decide)
  · split_ifs at hsign
    · exact absurd hsign (by decide)
    · exact absurd hsign not_mem_nil

theorem itoaS_ne_nil (val : ℤ) : itoaS val ≠ [] := by
  rw [itoaS_eq, itoaDigits, cons_append, reverse_cons]
  exact append_ne_nil_of_right_ne_nil _ (cons_ne_nil _ _)

/-- **When a `for` loop is right.** For every line that is accepted with a variable of less than 32 characters and 32-bit
numbers, in every session: if and only if the loop makes no round, or its variable is not TIME and is set already or has a
free entry. -/
theorem for_loop_iff (w : World) (hclock : ∀ i j, ∃ t, w.time i j = rtcFormatTime t) (s : Session) (raw : List UInt8)
    {f : ForLoop} (hparse : parseFor raw = .ok f) (hname : f.varname.length < envNameMax) {start stop : ℤ}
    (hnumbers : forNumbers raw = some (start, stop)) (hstart : Fits32 start) (hstop : Fits32 stop) :
    (f.step = 1 ∨ f.step = -1) ∧ ∃ c : Cmp, f.op = c.text ∧ (LoopRight w f s c start stop ↔
      ¬ c.holds start stop ∨ f.varname ≠ ascii "TIME" ∧ HasEntry s.env f.varname) := by
  obtain ⟨⟨c, hop⟩, hstep, a, b, hread, ha, hb⟩ := parseFor_ok hparse
  obtain ⟨rfl, rfl⟩ := Prod.mk.inj (Option.some.inj (hread.symm.trans hnumbers))
  rw [wrap32_of_fits hstart] at ha
  rw [wrap32_of_fits hstop] at hb
  refine ⟨hstep, c, hop, ?_⟩
  have htrace : ∀ k : ℕ, (∀ j : ℕ, j ≤ k → Fits32 (a + j * f.step)) →
      ((forTrace w f 100000 s f.startVal)[k]?.isSome = true ↔
        k < 100000 ∧ ∀ j : ℕ, j ≤ k → c.holds (a + j * f.step) b) ∧
      ∀ r, (forTrace w f 100000 s f.startVal)[k]? = some r → r.val = a + k * f.step := by
    intro k hfits
    have hk := forTrace_isSome_iff (w := w) (s := s) hfits 100000
    simp only [hop, hb, forContinues_text] at hk
    rw [ha]
    exact hk
  constructor
  · intro h
    by_contra hcond
    rw [not_or, not_not, not_and] at hcond
    obtain ⟨hfirst, hentry⟩ := hcond
    -- the first round is there, and its session is known
    have hfits : ∀ j : ℕ, j ≤ 0 → Fits32 (a + j * f.step) := by
      intro j hj
      rw [Nat.le_zero.1 hj, Nat.cast_zero, zero_mul, add_zero]
      exact hstart
    have hround : (forTrace w f 100000 s f.startVal)[0]? =
        some ⟨a, { s with env := envSet s.env f.varname (itoaS a) }⟩ := by
      rw [ha, forTrace, hop, hb, if_pos ((forContinues_text c a b).2 hfirst)]
      rfl
    have hmeaning := (h.carries 0 hfits _ hround).2.meaning 0
    unfold meaning resolveVar at hmeaning
    by_cases htime : f.varname = ascii "TIME"
    · rw [if_pos htime] at hmeaning
      obtain ⟨t, ht⟩ := hclock s.clock 0
      exact rtcFormatTime_ne t a (ht.symm.trans hmeaning)
    · rw [if_neg htime] at hmeaning
      dsimp only at hmeaning
      rw [envGet_envSet_of_not_hasEntry (hentry htime)] at hmeaning
      exact itoaS_ne_nil a hmeaning.symm
  · intro hcond
    refine ⟨fun k hfits => (htrace k hfits).1, fun k hfits r hr => ⟨(htrace k hfits).2 r hr, ?_⟩⟩
    have hgo : c.holds a b := by
      have hall := ((htrace k hfits).1.1 (by rw [hr]; rfl)).2 0 (Nat.zero_le k)
      rwa [Nat.cast_zero, zero_mul, add_zero] at hall
    obtain ⟨htime, hentry⟩ := hcond.resolve_left (not_not.2 hgo)
    refine carries_of_meaning hname fun i => ?_
    rw [ha] at hr
    rw [meaning, resolveVar, if_neg htime, forTrace_carries hname hstart 100000 hentry r (mem_of_getElem? hr)]
    rfl

/-- nothing but a clock -/
def idleWorld : World :=
  ⟨fun _ _ => false, fun _ _ => rtcFormatTime ⟨0, 0, 0⟩, fun _ _ _ _ => none, fun _ _ => [], fun _ _ => none⟩

def sessionWith (env : Env) : Session := ⟨env, [47], bootPipe, 0, []⟩

def countLine : List UInt8 := ascii "for ((i = 0; i <= 3; i++)) do echo $i done"

def countLoop : ForLoop := ⟨ascii "i", 0, ascii "<=", 3, 1, ascii "echo $i"⟩

theorem parseFor_countLine : parseFor countLine = .ok countLoop := by decide +kernel

theorem for_loop_counts : HasEntry (sessionWith emptyEnv).env countLoop.varname ∧
    ∃ c : Cmp, countLoop.op = c.text ∧ LoopRight idleWorld countLoop (sessionWith emptyEnv) c 0 3 := by
  have hentry : HasEntry (sessionWith emptyEnv).env countLoop.varname := .inr ⟨⟨0, by decide⟩, rfl⟩
  have hnumbers : forNumbers countLine = some (0, 3) := by decide +kernel
  obtain ⟨-, c, hop, hiff⟩ := for_loop_iff idleWorld (fun _ _ => ⟨_, rfl⟩) (sessionWith emptyEnv) countLine parseFor_countLine
    (by decide) hnumbers ⟨by decide, by decide⟩ ⟨by decide, by decide⟩
  exact ⟨hentry, c, hop, hiff.2 (.inr ⟨by decide, hentry⟩)⟩

/-- 32 variables with names of one character, none of them `i` -/
def fullEnv : Env := fun k => ⟨[33 + UInt8.ofNat k], [], true⟩

/-- **A loop whose variable has no entry.** The line counts with `i`, and 32 other variables are set: in the first round
`echo $i` is run as `echo `. The same happens, with the clock, if the variable is called TIME. -/
theorem loop_variable_missing :
    (forTrace idleWorld countLoop 100000 (sessionWith fullEnv) countLoop.startVal)[0]? =
      some ⟨0, sessionWith fullEnv⟩ ∧
    expandVars (resolveVar idleWorld (sessionWith fullEnv)) countLoop.body cmdBufSize = ascii "echo " ∧
    parseFor (ascii "for ((TIME=0; TIME<3; TIME++)) do echo $TIME done") =
      .ok ⟨ascii "TIME", 0, ascii "<", 3, 1, ascii "echo $TIME"⟩ ∧
    expandVars (resolveVar idleWorld (sessionWith (envSet emptyEnv (ascii "TIME") (itoaS 0)))) (ascii "echo $TIME")
      cmdBufSize = ascii "echo 00:00:00" := by
  have hset : envSet fullEnv countLoop.varname (itoaS 0) = fullEnv := by
    have hnone : envFind fullEnv countLoop.varname = none := by decide +kernel
    have hfree : firstFree (fun i => (fullEnv i).used) = none := by decide +kernel
    unfold envSet
    rw [hnone]
    dsimp only
    rw [hfree]
  refine ⟨?_, by decide +kernel, by decide +kernel, by decide +kernel⟩
  rw [forTrace, if_pos (by decide)]
  show some (LoopRound.mk 0 (sessionWith (envSet fullEnv countLoop.varname (itoaS 0)))) = _
  rw [hset]

end GannetOS.Shell
