/-
What the string helpers of `filesys/fs.c` compute on strings the kernel holds.

`parentOf p` is the directory part that `fs_get_parent` writes: the bytes before the last `'/'`, or `"/"` if that slash
is the first byte or missing. `under p q` says that `p` is `q` or one of the directories above it; going up strictly
shortens a path until it is at most one byte long, which is what bounds the recursion of `fs_rrmdr`.
-/
import GannetOS.Filesys.Fs

namespace GannetOS.Filesys

open GannetOS.Core List

variable {m : Type → Type} [Monad m] [LawfulMonad m]

/-! ## Scanning a string -/

/-- what a reader at offset `i` sees -/
theorem cstr_drop (l : List UInt8) (i : ℕ) :
    cstr (l.drop i) = if l.getD i 0 = 0 then [] else l.getD i 0 :: cstr (l.drop (i + 1)) := by
  rcases Nat.lt_or_ge i l.length with hi | hi
  · rw [drop_eq_getElem_cons hi, getD_eq_getElem _ _ hi]
    split_ifs with h0
    · rw [h0, cstr_zero_cons]
    · exact cstr_cons h0 _
  · rw [drop_eq_nil_of_le hi, getD_eq_default _ _ hi, if_pos rfl, cstr_nil]

theorem lt_length_of_getD_ne {l : List UInt8} {i : ℕ} (h : l.getD i 0 ≠ 0) : i < l.length := by
  by_contra hi
  exact h (getD_eq_default _ _ (by omega))

omit [LawfulMonad m] in
theorem ofBytes_rd (l : List UInt8) (i : ℕ) : (StrArg.ofBytes l : StrArg m).rd i = pure (l.getD i 0) := rfl

theorem strEqLoop_eq (a b : List UInt8) (n i : ℕ) (hn : min a.length b.length < n + i)
    (hi : i ≤ min a.length b.length) :
    strEqLoop (StrArg.ofBytes a : StrArg m) (StrArg.ofBytes b) n i =
      pure (decide (cstr (a.drop i) = cstr (b.drop i))) := by
  induction n generalizing i with
  | zero => omega
  | succ n ih =>
    rw [cstr_drop a i, cstr_drop b i]
    simp only [strEqLoop, ofBytes_rd, pure_bind]
    by_cases hx : a.getD i 0 = 0 ∨ b.getD i 0 = 0
    · -- one of the strings ends here
      generalize a.getD i 0 = x at hx
      generalize b.getD i 0 = y at hx
      rcases hx with rfl | rfl
      · by_cases hy : y = 0
        · simp [hy]
        · simp [hy, beq_eq_false_iff_ne.2 (Ne.symm hy)]
      · by_cases hx : x = 0
        · simp [hx]
        · simp [hx, beq_eq_false_iff_ne.2 hx]
    · obtain ⟨hx, hy⟩ := not_or.1 hx
      have hla := lt_length_of_getD_ne hx
      have hlb := lt_length_of_getD_ne hy
      rw [ih (i + 1) (by omega) (by omega)]
      generalize a.getD i 0 = x at hx
      generalize b.getD i 0 = y at hy
      by_cases hxy : x = y <;> simp [hx, hy, hxy]

/-- `str_eq` compares the strings the two buffers hold -/
theorem strEq_eq (a b : List UInt8) :
    strEq (StrArg.ofBytes a : StrArg m) (StrArg.ofBytes b) = pure (decide (cstr a = cstr b)) := by
  have h := strEqLoop_eq (m := m) a b (min (a.length + 1) (b.length + 1)) 0 (by omega) (by omega)
  rwa [drop_zero, drop_zero] at h

theorem strLenLoop_eq (l : List UInt8) (n i : ℕ) (hn : l.length < n + i) :
    strLenLoop (StrArg.ofBytes l : StrArg m) n i = pure (i + (cstr (l.drop i)).length) := by
  induction n generalizing i with
  | zero => simp [strLenLoop, drop_eq_nil_of_le (show l.length ≤ i by omega)]
  | succ n ih =>
    rw [cstr_drop l i]
    simp only [strLenLoop, ofBytes_rd, pure_bind, ih (i + 1) (by omega)]
    split_ifs
    · simp
    · congr 1
      simp only [length_cons]
      omega

theorem strLen_eq (l : List UInt8) : strLen (StrArg.ofBytes l : StrArg m) = pure (cstr l).length := by
  have h := strLenLoop_eq (m := m) l (l.length + 1) 0 (by omega)
  rwa [drop_zero, Nat.zero_add] at h

theorem strCopyLoop_eq (l : List UInt8) (n i : ℕ) :
    strCopyLoop (fun _ _ => pure ()) (StrArg.ofBytes l : StrArg m) n i = pure ((cstr (l.drop i)).take n) := by
  induction n generalizing i with
  | zero => simp [strCopyLoop]
  | succ n ih =>
    rw [cstr_drop l i]
    simp only [strCopyLoop, ofBytes_rd, pure_bind, ih]
    split_ifs <;> simp

/-- `str_copy` stores the string, cut to one byte less than the buffer -/
theorem strCopy_eq (l : List UInt8) (max : ℕ) :
    strCopy (fun _ _ => pure ()) (StrArg.ofBytes l : StrArg m) max = pure ((cstr l).take (max - 1)) := by
  have h := strCopyLoop_eq (m := m) l (max - 1) 0
  rwa [drop_zero] at h

/-! ## The parent of a path -/

/-- the index of the last `'/'` of `l`, read from index `i` on, or `last` if there is none -/
def lastSlashFrom : List UInt8 → ℕ → ℕ → ℕ
  | [], _, last => last
  | c :: l, i, last => lastSlashFrom l (i + 1) (if c = slash then i else last)

/-- the value of `last` in `fs_get_parent` -/
def lastSlash (p : List UInt8) : ℕ := lastSlashFrom p 0 0

/-- the string `fs_get_parent` writes for the path `p` -/
def parentOf (p : List UInt8) : List UInt8 := if lastSlash p = 0 then [slash] else p.take (lastSlash p)

theorem lastSlashLoop_eq (l : List UInt8) (n i last : ℕ) (hn : i + n ≤ l.length) :
    lastSlashLoop (StrArg.ofBytes l : StrArg m) n i last = pure (lastSlashFrom ((l.drop i).take n) i last) := by
  induction n generalizing i last with
  | zero => simp [lastSlashLoop, lastSlashFrom]
  | succ n ih =>
    have hi : i < l.length := by omega
    rw [drop_eq_getElem_cons hi, take_succ_cons]
    simp only [lastSlashLoop, ofBytes_rd, pure_bind, ih (i + 1) _ (by omega : i + 1 + n ≤ l.length), lastSlashFrom,
      getD_eq_getElem _ _ hi]
    split_ifs <;> rfl

theorem lastSlashFrom_lt (l : List UInt8) (i last : ℕ) (h : last ≤ i) :
    lastSlashFrom l i last ≤ i + l.length - 1 ∨ lastSlashFrom l i last = last := by
  induction l generalizing i last with
  | nil => exact Or.inr rfl
  | cons c l ih =>
    simp only [lastSlashFrom, length_cons]
    split_ifs with hc
    · rcases ih (i + 1) i (by omega) with h1 | h1 <;> omega
    · rcases ih (i + 1) last (by omega) with h1 | h1 <;> omega

variable {p q : List UInt8}

theorem lastSlash_lt (h : lastSlash p ≠ 0) : lastSlash p < p.length := by
  unfold lastSlash at h ⊢
  cases p with
  | nil => exact absurd rfl h
  | cons c l =>
    rcases lastSlashFrom_lt (c :: l) 0 0 le_rfl with h1 | h1
    · omega
    · exact absurd h1 h

/-- `fs_get_parent` on a string the kernel holds -/
theorem fsGetParent_eq (l : List UInt8) :
    fsGetParent (StrArg.ofBytes l : StrArg m) (fun _ _ => pure ()) = pure (parentOf (cstr l)) := by
  have hpre : cstr l <+: l := takeWhile_prefix _
  have htake : l.take (cstr l).length = cstr l := (List.prefix_iff_eq_take.1 hpre).symm
  have hlast := lastSlashLoop_eq (m := m) l (cstr l).length 0 0 (by simpa using cstr_length_le l)
  rw [drop_zero, htake, ← lastSlash] at hlast
  simp only [fsGetParent, strLen_eq, pure_bind, hlast, parentOf]
  by_cases h0 : lastSlash (cstr l) = 0
  · simp only [if_pos h0]
  · simp only [if_neg h0, strCopy_eq, pure_bind, Nat.add_sub_cancel]

theorem parentOf_length_lt (h : parentOf p ≠ [slash]) : (parentOf p).length < p.length := by
  unfold parentOf at h ⊢
  split_ifs with h0
  · simp [h0] at h
  · rw [length_take]
    have := lastSlash_lt h0
    omega

@[simp] theorem parentOf_root : parentOf [slash] = [slash] := rfl

theorem parentOf_nulFree (h : (0 : UInt8) ∉ p) : (0 : UInt8) ∉ parentOf p := by
  unfold parentOf
  split_ifs
  · decide
  · exact fun h0 => h (mem_of_mem_take h0)

/-- `p` is `q` or a directory above `q` -/
def under (p q : List UInt8) : Prop := ∃ n, parentOf^[n] q = p

theorem under_refl (p : List UInt8) : under p p := ⟨0, rfl⟩

theorem under_of_parent (h : under p (parentOf q)) : under p q := by
  obtain ⟨n, hn⟩ := h
  exact ⟨n + 1, hn⟩

theorem under_trans {r : List UInt8} (hpq : under p q) (hqr : under q r) : under p r := by
  obtain ⟨n, rfl⟩ := hpq
  obtain ⟨k, rfl⟩ := hqr
  exact ⟨n + k, Function.iterate_add_apply _ n k r⟩

/-- what is strictly below `p` is below a child of `p` -/
theorem under_child (h : under p q) (hne : q ≠ p) : ∃ c, parentOf c = p ∧ under c q := by
  obtain ⟨n, hn⟩ := h
  cases n with
  | zero => exact absurd hn hne
  | succ n =>
    rw [Function.iterate_succ_apply'] at hn
    exact ⟨_, hn, n, rfl⟩

end GannetOS.Filesys
