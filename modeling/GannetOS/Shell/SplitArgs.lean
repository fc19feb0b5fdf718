/-
`split_args` of `shell/shell.c` in its buffer: every word is ended with a NUL that is stored over the character behind it,
and argv gets the offsets of the words.

- `splitRounds_splits`: for every text, the words that `splitArgs` finds stand in the buffer at the offsets in argv, one behind
  the other, and no store is outside the text;
- `splitLoop_writes`: `splitArgs` takes a text apart that was made of words, with quotes around the empty ones and those with
  spaces, and any spaces between them;
- `split_args_inverts`: together, the words come back, as strings of their own in the buffer.
-/
import GannetOS.Core.OutBuffer
import GannetOS.Shell.Text

namespace GannetOS.Shell

open GannetOS.Core List

/-! ## The function -/

structure ArgState where
  mem : ℕ → UInt8
  p : ℕ
  argv : List ℕ
  /-- the offsets of the stores -/
  log : List ℕ

/-- a word that starts here and ends at `delim`; `size` is a bound for the scans -/
def readWord (delim : UInt8) (size : ℕ) (s : ArgState) : ArgState :=
  let q := scanTo s.mem (fun c => c = 0 ∨ c = delim) size s.p
  if s.mem q ≠ 0 then ⟨Function.update s.mem q 0, q + 1, s.argv ++ [s.p], q :: s.log⟩
  else ⟨s.mem, q, s.argv ++ [s.p], s.log⟩

/-- the loop, with room for `args` more words -/
def splitRounds (size : ℕ) : ℕ → ArgState → ArgState
  | 0, s => s
  | args + 1, s =>
    if s.mem s.p = 0 then s
    else
      let q := scanTo s.mem (· ≠ 32) size s.p
      if s.mem q = 0 then { s with p := q }
      else if s.mem q = 34 then splitRounds size args (readWord 34 size { s with p := q + 1 })
      else splitRounds size args (readWord 32 size { s with p := q })

def splitArgsBuf (mem : ℕ → UInt8) (size max : ℕ) : ArgState := splitRounds size max ⟨mem, 0, [], []⟩

/-! ## Words in the buffer -/

/-- the words stand at the offsets, one behind the other, from `lo` on; `hi` is the last byte they can use -/
inductive Laid (mem : ℕ → UInt8) (hi : ℕ) : ℕ → List ℕ → List (List UInt8) → Prop
  | nil (lo : ℕ) : Laid mem hi lo [] []
  | cons {lo off : ℕ} {w : List UInt8} {offs : List ℕ} {ws : List (List UInt8)} (hlo : lo ≤ off) (hw : StringAt mem off w)
      (hhi : off + w.length ≤ hi) (h : Laid mem hi (off + w.length + 1) offs ws) : Laid mem hi lo (off :: offs) (w :: ws)

section
variable {mem : ℕ → UInt8} {hi lo : ℕ} {offs : List ℕ} {ws : List (List UInt8)}

theorem Laid.mono (h : Laid mem hi lo offs ws) {lo' : ℕ} (hlo : lo' ≤ lo) : Laid mem hi lo' offs ws := by
  cases h with
  | nil => exact .nil lo'
  | cons hoff hw hhi hrest => exact .cons (hlo.trans hoff) hw hhi hrest

theorem Laid.strings (h : Laid mem hi lo offs ws) : List.Forall₂ (StringAt mem) offs ws := by
  induction h with
  | nil => exact .nil
  | cons hlo hw hhi h ih => exact .cons hw ih

theorem Laid.within (h : Laid mem hi lo offs ws) : ∀ x ∈ offs.zip ws, lo ≤ x.1 ∧ x.1 + x.2.length ≤ hi := by
  induction h with
  | nil => exact fun x hx => absurd hx not_mem_nil
  | cons hlo hw hhi h ih =>
    intro x hx
    rcases List.mem_cons.1 hx with rfl | hx
    · exact ⟨hlo, hhi⟩
    · obtain ⟨hx1, hx2⟩ := ih x hx
      exact ⟨by omega, hx2⟩

theorem Laid.disjoint (h : Laid mem hi lo offs ws) : (offs.zip ws).Pairwise fun a b => a.1 + a.2.length < b.1 := by
  induction h with
  | nil => exact .nil
  | cons hlo hw hhi h ih => exact List.pairwise_cons.2 ⟨fun x hx => (h.within x hx).1, ih⟩

end

/-- what is stored: from `p` on, and in front of the NUL at `hi` -/
structure Stores (p hi : ℕ) (s s' : ArgState) : Prop where
  same : ∀ k, k < p ∨ hi ≤ k → s'.mem k = s.mem k
  log : ∀ i ∈ s'.log, i ∈ s.log ∨ p ≤ i ∧ i < hi

variable {s s' : ArgState} {l text : List UInt8} {ws : List (List UInt8)}

theorem Stores.trans {p p' hi : ℕ} {s'' : ArgState} (h : Stores p hi s s') (h' : Stores p' hi s' s'') (hp : p ≤ p') :
    Stores p hi s s'' where
  same k hk := (h'.same k (hk.imp (fun hlt => hlt.trans_le hp) id)).trans (h.same k hk)
  log i hi' := by
    rcases h'.log i hi' with hold | ⟨hlo, hhi⟩
    · exact h.log i hold
    · exact .inr ⟨hp.trans hlo, hhi⟩

/-- a word was read from a text: it stands where it stood, with a NUL behind it, and the rest stands behind that -/
structure WordRead (l w : List UInt8) (s s' : ArgState) : Prop where
  stores : Stores s.p (s.p + l.length) s s'
  argv : s'.argv = s.argv ++ [s.p]
  word : StringAt s'.mem s.p w
  rest : StringAt s'.mem s'.p (l.drop (w.length + 1))
  length : s'.p + (l.drop (w.length + 1)).length = s.p + l.length
  behind : s'.p = s.p + w.length + 1 ∨ s'.p = s.p + w.length ∧ s'.p = s.p + l.length

theorem takeWhile_delim (hnul : (0 : UInt8) ∉ l) (delim : UInt8) :
    (l.takeWhile fun c => !decide (c = 0 ∨ c = delim)) = l.takeWhile (· ≠ delim) := by
  induction l with
  | nil => rfl
  | cons c l ih =>
    have hc : c ≠ 0 := fun h => hnul (h ▸ mem_cons_self)
    have hl := ih fun h => hnul (mem_cons_of_mem c h)
    rw [takeWhile_cons, takeWhile_cons, hl]
    simp [hc]

theorem readWord_spec (h : StringAt s.mem s.p l) (hnul : (0 : UInt8) ∉ l) (delim : UInt8) {size : ℕ}
    (hsize : l.length ≤ size) : WordRead l (l.takeWhile (· ≠ delim)) s (readWord delim size s) := by
  set w := l.takeWhile (· ≠ delim) with hw
  have hsplit : l = w ++ l.dropWhile (· ≠ delim) := List.takeWhile_append_dropWhile.symm
  have hscan : scanTo s.mem (fun c => c = 0 ∨ c = delim) size s.p = s.p + w.length := by
    rw [h.scanTo (by simp) hsize, takeWhile_delim hnul]
  have hrest : StringAt s.mem (s.p + w.length) (l.dropWhile (· ≠ delim)) := by
    apply StringAt.append
    rwa [← hsplit]
  unfold readWord
  rw [hscan]
  dsimp only
  cases hdrop : l.dropWhile (· ≠ delim) with
  | nil =>
    rw [hdrop] at hrest
    rw [hdrop, append_nil] at hsplit
    have hend : s.mem (s.p + w.length) = 0 := hrest
    have hnone : l.drop (w.length + 1) = [] := by
      rw [hsplit]
      exact drop_eq_nil_of_le (Nat.le_succ _)
    rw [if_neg (not_not.2 hend)]
    constructor
    · exact ⟨fun _ _ => rfl, fun _ hi => .inl hi⟩
    · rfl
    · rwa [hsplit] at h
    · rw [hnone]
      exact hend
    · rw [hnone, ← hsplit]
      rfl
    · right
      rw [← hsplit]
      exact ⟨rfl, rfl⟩
  | cons d rest =>
    rw [hdrop] at hrest hsplit
    have hd : s.mem (s.p + w.length) ≠ 0 := by
      rw [hrest.1]
      intro hd
      apply hnul
      rw [hsplit, hd]
      exact mem_append_right _ mem_cons_self
    have hlen : l.length = w.length + (rest.length + 1) := by
      rw [hsplit, length_append, length_cons]
    have hnext : l.drop (w.length + 1) = rest := by
      conv_lhs => rw [hsplit]
      simp
    rw [if_pos hd]
    constructor
    · constructor
      · intro k hk
        exact Function.update_of_ne (by omega) _ _
      · intro i hi
        rcases List.mem_cons.1 hi with rfl | hi
        · exact .inr ⟨Nat.le_add_right _ _, by omega⟩
        · exact .inl hi
    · rfl
    · rw [hsplit] at h
      exact h.cut
    · rw [hnext]
      exact hrest.2.congr fun k hk _ => Function.update_of_ne (by omega) _ _
    · rw [hnext, hlen]
      show s.p + w.length + 1 + rest.length = _
      omega
    · exact .inl rfl

/-! ## The loop -/

theorem Laid.eq_nil {mem : ℕ → UInt8} {hi lo : ℕ} {offs : List ℕ} (h : Laid mem hi lo offs []) : offs = [] := by
  cases h with
  | nil => rfl

theorem splitLoop_nil (args fuel : ℕ) : splitLoop args fuel [] = [] := by
  cases args with
  | zero => rfl
  | succ args =>
    cases fuel with
    | zero => rfl
    | succ fuel => rfl

/-- the words of a text stand in the buffer -/
def Splits (l : List UInt8) (ws : List (List UInt8)) (s s' : ArgState) : Prop :=
  Stores s.p (s.p + l.length) s s' ∧ ∃ offs, s'.argv = s.argv ++ offs ∧ Laid s'.mem (s.p + l.length) s.p offs ws

/-- a word and what comes behind it -/
theorem WordRead.splits {w : List UInt8} {s'' : ArgState} (h : WordRead l w s s')
    (hws : l.drop (w.length + 1) = [] → ws = []) (h' : Splits (l.drop (w.length + 1)) ws s' s'') :
    Splits l (w :: ws) s s'' := by
  obtain ⟨hstores, offs, hargv, hlaid⟩ := h'
  rw [h.length] at hstores hlaid
  have hbehind := h.behind
  have hword : StringAt s''.mem s.p w := h.word.congr fun k hk hk' => hstores.same k (by omega)
  have hend : s.p + w.length ≤ s.p + l.length := by
    have hlen := h.length
    omega
  refine ⟨h.stores.trans hstores (by omega), s.p :: offs, ?_, .cons le_rfl hword hend ?_⟩
  · rw [hargv, h.argv, append_assoc]
    rfl
  · rcases hbehind with hnext | ⟨-, hnext⟩
    · rwa [hnext] at hlaid
    · -- the text is at its end
      have hnil : l.drop (w.length + 1) = [] := by
        have hlen := h.length
        exact eq_nil_of_length_eq_zero (by omega)
      rw [hws hnil] at hlaid ⊢
      rw [hlaid.eq_nil]
      exact .nil _

/-- spaces in front of a text -/
theorem Splits.spaces {a : List UInt8} (h : Splits l ws { s with p := s.p + a.length } s') : Splits (a ++ l) ws s s' := by
  obtain ⟨hstores, offs, hargv, hlaid⟩ := h
  have hhi : s.p + a.length + l.length = s.p + (a ++ l).length := by rw [length_append, Nat.add_assoc]
  dsimp only at hstores hargv hlaid
  rw [hhi] at hstores hlaid
  refine ⟨⟨fun k hk => hstores.same k ?_, fun i hi => ?_⟩, offs, hargv, hlaid.mono (Nat.le_add_right _ _)⟩
  · exact hk.imp (fun hlt => Nat.lt_add_right _ hlt) id
  · exact (hstores.log i hi).imp id fun hin => ⟨(Nat.le_add_right _ _).trans hin.1, hin.2⟩

/-- **The loop finds the words in their buffer.** -/
theorem splitRounds_splits {size : ℕ} (args : ℕ) (h : StringAt s.mem s.p l) (hnul : (0 : UInt8) ∉ l)
    (hsize : l.length ≤ size) {fuel : ℕ} (hfuel : l.length < fuel) :
    Splits l (splitLoop args fuel l) s (splitRounds size args s) := by
  have hnone : ∀ (s : ArgState) (l : List UInt8) (q : ℕ), Splits l [] s { s with p := q } := by
    intro s l q
    exact ⟨⟨fun _ _ => rfl, fun _ hi => .inl hi⟩, [], (append_nil _).symm, .nil _⟩
  induction args generalizing s l fuel with
  | zero =>
    have hzero : splitLoop 0 fuel l = [] := by cases fuel <;> rfl
    rw [hzero]
    exact hnone s l s.p
  | succ args ih =>
    -- a word is read, and the loop goes on behind it
    have hword : ∀ {s : ArgState} {m : List UInt8} (delim : UInt8) {fuel : ℕ}, StringAt s.mem s.p m → (0 : UInt8) ∉ m →
        m.length ≤ size → (m.drop ((m.takeWhile (· ≠ delim)).length + 1)).length < fuel →
        Splits m (m.takeWhile (· ≠ delim) :: splitLoop args fuel (m.drop ((m.takeWhile (· ≠ delim)).length + 1))) s
          (splitRounds size args (readWord delim size s)) := by
      intro s m delim fuel hm hm0 hmsize hmfuel
      have hread := readWord_spec hm hm0 delim hmsize
      refine hread.splits (fun hnil => by rw [hnil, splitLoop_nil]) (ih hread.rest ?_ ?_ hmfuel)
      · exact fun hmem => hm0 (mem_of_mem_drop hmem)
      · rw [length_drop]
        omega
    obtain ⟨fuel, rfl⟩ := Nat.exists_eq_succ_of_ne_zero (Nat.ne_of_gt (Nat.zero_lt_of_lt hfuel))
    by_cases hl : l = []
    · subst hl
      have hend : s.mem s.p = 0 := h
      rw [splitRounds, if_pos hend]
      exact hnone s [] s.p
    have hhead : s.mem s.p ≠ 0 := by
      rw [h.head]
      cases l with
      | nil => exact absurd rfl hl
      | cons c l => exact fun h0 => hnul (h0 ▸ mem_cons_self)
    have hsplit : l = l.takeWhile (· = 32) ++ l.dropWhile (· = 32) := List.takeWhile_append_dropWhile.symm
    have hscan : scanTo s.mem (· ≠ 32) size s.p = s.p + (l.takeWhile (· = 32)).length := by
      rw [h.scanTo (by decide) hsize]
      simp
    have hrest : StringAt s.mem (s.p + (l.takeWhile (· = 32)).length) (l.dropWhile (· = 32)) := by
      apply StringAt.append
      rwa [← hsplit]
    have hlen := congrArg List.length hsplit
    rw [length_append] at hlen
    rw [splitRounds, if_neg hhead, hscan, splitLoop]
    dsimp only
    rw [hrest.head]
    cases hdrop : l.dropWhile (· = 32) with
    | nil =>
      rw [headD_nil, if_pos rfl]
      exact hnone s l _
    | cons c p =>
      rw [hdrop] at hrest hsplit hlen
      rw [length_cons] at hlen
      have hcp : (0 : UInt8) ∉ c :: p := by
        intro hmem
        apply hnul
        rw [hsplit]
        exact mem_append_right _ hmem
      rw [headD_cons, if_neg fun h0 : c = 0 => hcp (h0 ▸ mem_cons_self)]
      dsimp only
      by_cases hquote : c = 34
      · -- the quote belongs to what is skipped
        subst hquote
        rw [if_pos rfl, if_pos rfl]
        have hskip : l = (l.takeWhile (· = 32) ++ [34]) ++ p := by
          rw [append_assoc]
          exact hsplit
        conv => arg 1; rw [hskip]
        apply Splits.spaces
        rw [length_append, length_singleton]
        apply hword 34
        · exact hrest.2
        · exact fun hmem => hcp (mem_cons_of_mem 34 hmem)
        · omega
        · rw [length_drop]
          omega
      · rw [if_neg hquote, if_neg hquote]
        conv => arg 1; rw [hsplit]
        apply Splits.spaces
        apply hword 32
        · exact hrest
        · exact hcp
        · rw [length_cons]
          omega
        · rw [length_drop, length_cons]
          omega

/-! ## Quoting -/

/-- a word as it is written -/
def quoteWord (w : List UInt8) : List UInt8 := if w = [] ∨ 32 ∈ w then 34 :: w ++ [34] else w

/-- a text made of words: one or more spaces between them, and any number in front and at the end -/
inductive Writes : List (List UInt8) → List UInt8 → Prop
  | nil (n : ℕ) : Writes [] (List.replicate n 32)
  | cons (n : ℕ) (w : List UInt8) {ws : List (List UInt8)} {text : List UInt8} (h : Writes ws text)
      (hsep : ws ≠ [] → text.head? = some 32) : Writes (w :: ws) (List.replicate n 32 ++ quoteWord w ++ text)

/-- a word does not start with a space -/
theorem quoteWord_cases (w : List UInt8) :
    quoteWord w = 34 :: w ++ [34] ∨ quoteWord w = w ∧ (32 : UInt8) ∉ w ∧ ∃ c w', w = c :: w' ∧ c ≠ 32 := by
  unfold quoteWord
  split_ifs with hquote
  · exact .inl rfl
  · rw [not_or] at hquote
    obtain ⟨c, w', rfl⟩ := exists_cons_of_ne_nil hquote.1
    exact .inr ⟨rfl, hquote.2, c, w', rfl, fun hc => hquote.2 (hc ▸ mem_cons_self)⟩

theorem Writes.tail {t : List UInt8} (h : Writes ws t) (ht : t = 32 :: text) :
    Writes ws text := by
  cases h with
  | nil n =>
    cases n with
    | zero => cases ht
    | succ n =>
      obtain ⟨-, rfl⟩ := List.cons.inj ht
      exact .nil n
  | cons n w h hsep =>
    cases n with
    | zero =>
      rcases quoteWord_cases w with hq | ⟨hq, -, c, w', rfl, hc⟩
      · rw [hq] at ht
        exact absurd (List.cons.inj ht).1 (by decide)
      · rw [hq] at ht
        exact absurd (List.cons.inj ht).1 hc
    | succ n =>
      obtain ⟨-, rfl⟩ := List.cons.inj ht
      exact .cons n w h hsep

theorem Writes.nulFree (h : Writes ws text) (hws : ∀ w ∈ ws, (0 : UInt8) ∉ w) :
    (0 : UInt8) ∉ text := by
  have hspaces : ∀ n, (0 : UInt8) ∉ List.replicate n (32 : UInt8) := fun n hmem =>
    absurd (eq_of_mem_replicate hmem) (by decide)
  induction h with
  | nil n => exact hspaces n
  | cons n w h hsep ih =>
    have hw : (0 : UInt8) ∉ quoteWord w := by
      have hfree := hws w mem_cons_self
      rcases quoteWord_cases w with hq | ⟨hq, -⟩
      · rw [hq]
        simp [hfree]
      · rwa [hq]
    have hrest := ih fun v hv => hws v (mem_cons_of_mem w hv)
    intro hmem
    rcases List.mem_append.1 hmem with hmem | hmem
    · exact (List.mem_append.1 hmem).elim (hspaces n) hw
    · exact hrest hmem

theorem Writes.starts (h : Writes ws text) (hsep : ws ≠ [] → text.head? = some 32) : text = [] ∨ ∃ t, text = 32 :: t := by
  cases h with
  | nil n =>
    cases n with
    | zero => exact .inl rfl
    | succ n => exact .inr ⟨_, rfl⟩
  | cons n w h hsep' => exact .inr (List.head?_eq_some_iff.1 (hsep (cons_ne_nil _ _)))

theorem takeWhile_until {a : List UInt8} {d : UInt8} (ha : d ∉ a) (hl : l = [] ∨ ∃ t, l = d :: t) :
    (a ++ l).takeWhile (· ≠ d) = a := by
  rw [takeWhile_append_of_pos]
  · rcases hl with rfl | ⟨t, rfl⟩
    · exact append_nil a
    · rw [takeWhile_cons_of_neg (by simp), append_nil]
  · intro c hc
    rw [decide_eq_true_eq]
    rintro rfl
    exact ha hc

/-- **`split_args` takes the words apart again.** -/
theorem splitLoop_writes (h : Writes ws text) (hws : ∀ w ∈ ws, (34 : UInt8) ∉ w) {args fuel : ℕ}
    (hargs : ws.length ≤ args) (hfuel : text.length < fuel) : splitLoop args fuel text = ws := by
  have hspaces : ∀ (n : ℕ) (l : List UInt8),
      (List.replicate n 32 ++ l).dropWhile (· = (32 : UInt8)) = l.dropWhile (· = 32) := by
    intro n l
    apply dropWhile_append_of_pos
    intro c hc
    simpa using eq_of_mem_replicate hc
  induction ws generalizing text args fuel with
  | nil =>
    cases h with
    | nil n =>
      have hdrop := hspaces n []
      rw [append_nil] at hdrop
      cases args with
      | zero => cases fuel <;> rfl
      | succ args =>
        cases fuel with
        | zero => rfl
        | succ fuel =>
          rw [splitLoop, hdrop]
          rfl
  | cons w ws ih =>
    cases h with
    | @cons n _ _ t h hsep =>
      obtain ⟨args, rfl⟩ := Nat.exists_eq_succ_of_ne_zero (Nat.ne_of_gt (Nat.zero_lt_of_lt hargs))
      obtain ⟨fuel, rfl⟩ := Nat.exists_eq_succ_of_ne_zero (Nat.ne_of_gt (Nat.zero_lt_of_lt hfuel))
      rw [length_append, length_append] at hfuel
      have hfree := hws w mem_cons_self
      have hrest : ∀ {t'}, Writes ws t' → t'.length < fuel → splitLoop args fuel t' = ws := by
        intro t' ht' hlen
        exact ih ht' (fun v hv => hws v (mem_cons_of_mem w hv)) (Nat.le_of_succ_le_succ hargs) hlen
      rw [splitLoop, append_assoc, hspaces]
      rcases quoteWord_cases w with hq | ⟨hq, hno, c, w', hw, hc⟩
      · have htext : 34 :: w ++ [34] ++ t = 34 :: (w ++ 34 :: t) := by simp
        have hnext : (w ++ 34 :: t).drop (w.length + 1) = t := by simp
        rw [hq, length_append, length_singleton] at hfuel
        rw [hq, htext, dropWhile_cons_of_neg (by decide)]
        dsimp only
        rw [if_pos rfl, takeWhile_until hfree (.inr ⟨t, rfl⟩), hnext, hrest h (by omega)]
      · have hsep : t = [] ∨ ∃ t', t = 32 :: t' := h.starts hsep
        have htext : w ++ t = c :: (w' ++ t) := by rw [hw, cons_append]
        have hc34 : c ≠ 34 := fun hc => hfree (by rw [hw, hc]; exact mem_cons_self)
        have hlen : w.length = w'.length + 1 := by rw [hw, length_cons]
        rw [hq] at hfuel
        rw [hq, htext, dropWhile_cons_of_neg (by simpa using hc)]
        dsimp only
        rw [if_neg hc34, ← htext, takeWhile_until hno hsep]
        congr 1
        -- the space behind the word is gone too
        rcases hsep with rfl | ⟨t', rfl⟩
        · rw [append_nil, drop_eq_nil_of_le (Nat.le_succ _)]
          exact hrest h (by rw [length_nil]; omega)
        · have hnext : (w ++ 32 :: t').drop (w.length + 1) = t' := by simp
          rw [length_cons] at hfuel
          rw [hnext]
          exact hrest (h.tail rfl) (by omega)

/-- **`split_args` inverts quoting.** At most 16 words without quotes and NULs are written into a buffer, with quotes where
they need them and any spaces. Then argv has their offsets in order: each stands there as a string, inside the text and its
NUL, and none overlaps another. Nothing is stored outside the text. -/
theorem split_args_inverts {ws : List (List UInt8)} (hcount : ws.length ≤ 16)
    (hws : ∀ w ∈ ws, (34 : UInt8) ∉ w ∧ (0 : UInt8) ∉ w) {text : List UInt8} (hwrites : Writes ws text)
    {mem : ℕ → UInt8} (hmem : StringAt mem 0 text) :
    let s := splitArgsBuf mem text.length maxArgs
    List.Forall₂ (StringAt s.mem) s.argv ws ∧ (∀ x ∈ s.argv.zip ws, x.1 + x.2.length ≤ text.length) ∧
      (s.argv.zip ws).Pairwise (fun a b => a.1 + a.2.length < b.1) ∧ ∀ i ∈ s.log, i < text.length := by
  have hnul := hwrites.nulFree fun w hw => (hws w hw).2
  have hsplits := splitRounds_splits maxArgs (s := ⟨mem, 0, [], []⟩) hmem hnul le_rfl (Nat.lt_succ_self text.length)
  have hloop : splitLoop maxArgs _ text = ws :=
    splitLoop_writes hwrites (fun w hw => (hws w hw).1) hcount (Nat.lt_succ_self text.length)
  rw [hloop] at hsplits
  obtain ⟨hstores, offs, hargv, hlaid⟩ := hsplits
  dsimp only at hstores hargv hlaid
  rw [Nat.zero_add] at hstores hlaid
  rw [nil_append] at hargv
  unfold splitArgsBuf
  dsimp only
  rw [hargv]
  refine ⟨hlaid.strings, fun x hx => (hlaid.within x hx).2, hlaid.disjoint, fun i hi => ?_⟩
  rcases hstores.log i hi with hold | ⟨-, hlt⟩
  · exact absurd hold not_mem_nil
  · exact hlt

/-- `write "a b" ""` with spaces around, at the start of a memory -/
def quotedText : List UInt8 := ascii "  write \"a b\"   \"\" "

def quotedMem : ℕ → UInt8 := fun k => quotedText.getD k 0

theorem split_args_inverts_quoted : StringAt quotedMem 0 quotedText ∧
    Writes [ascii "write", ascii "a b", []] quotedText ∧
    List.Forall₂ (StringAt (splitArgsBuf quotedMem quotedText.length maxArgs).mem)
      (splitArgsBuf quotedMem quotedText.length maxArgs).argv [ascii "write", ascii "a b", []] := by
  have hmem : StringAt quotedMem 0 quotedText := stringAt_of_getD fun k => by rw [Nat.zero_add]; rfl
  have hwrites : Writes [ascii "write", ascii "a b", []] quotedText :=
    .cons 2 (ascii "write") (.cons 1 (ascii "a b") (.cons 3 [] (.nil 1) fun h => absurd rfl h) fun _ => rfl) fun _ => rfl
  exact ⟨hmem, hwrites, (split_args_inverts (by decide) (by decide) hwrites hmem).1⟩

end GannetOS.Shell
