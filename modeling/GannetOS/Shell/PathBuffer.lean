/-
`resolve_path` of `shell/shell.c` with its buffers: tmp, comp, result and abs_out, every store at the offset where the code
makes it.

The buffers hold anything before. `comp` is used again in every round of the loop. The text in tmp and in result is read
back from memory, as a string.

- `pathRounds_holds`: along the loop, result holds the text of the model on texts (`resolveLoop`), and no store is made
  outside the 64 bytes of comp and the 128 bytes of result;
- `resolve_path_normal`: from every current directory that `resolve_path` itself has made, no store is outside its buffer;
  abs_out gets what `resolvePath` says, which is a normal form, and resolving it again, from anywhere, gives it back.
-/
import GannetOS.Core.OutBuffer
import GannetOS.Shell.Path

namespace GannetOS.Shell

open GannetOS.Core OutBuf List

/-! ## The function -/

/-- the buffers of a call -/
structure PathBufs where
  tmp : OutBuf
  comp : OutBuf
  result : OutBuf
  absOut : OutBuf

/-- `strcpy_s` into a buffer -/
def copyString (mem : ℕ → UInt8) (s : List UInt8) (max : ℕ) : OutBuf := ((fresh mem).fill (max - 1) s).close

/-- the first part: tmp -/
def tmpBuf (mem : ℕ → UInt8) (cwd input : List UInt8) : OutBuf :=
  match input with
  | 47 :: _ => copyString mem input pathMax
  | 126 :: p =>
    let tmp := ((ascii "/home").foldl push (fresh mem)).close
    if p = [] then tmp
    else
      let tmp := if p.head? ≠ some 47 then tmp.push 47 else tmp
      (tmp.fill (pathMax - 1) p).close
  | _ =>
    let tmp := copyString mem cwd pathMax
    let tmp := if tmp.pos < pathMax - 2 ∧ tmp.mem (tmp.pos - 1) ≠ 47 then tmp.push 47 else tmp
    (tmp.fill (pathMax - 1) input).close

/-- `while (ri > 1 && result[ri - 1] != '/') ri--` -/
def backToSlash (mem : ℕ → UInt8) : ℕ → ℕ
  | 0 => 0
  | n + 1 => if 1 < n + 1 ∧ mem n ≠ 47 then backToSlash mem n else n + 1

/-- `..` on result -/
def dropBuf (r : OutBuf) : OutBuf :=
  if r.pos ≤ 1 then (r.backTo 1).close
  else
    let r := if r.mem (r.pos - 1) = 47 then r.backTo (r.pos - 1) else r
    (r.backTo (backToSlash r.mem r.pos)).close

/-- a round of the loop, behind the scan of the component -/
def addBuf (r comp : OutBuf) : OutBuf :=
  if comp.pos = 0 then r
  else if comp.mem 0 = 46 ∧ comp.pos = 1 then r
  else if comp.mem 0 = 46 ∧ comp.mem 1 = 46 ∧ comp.pos = 2 then dropBuf r
  else
    let r := if 1 < r.pos ∧ r.mem (r.pos - 1) ≠ 47 then r.push 47 else r
    (r.fill (pathMax - 1) ((List.range comp.pos).map comp.mem)).close

/-- the loop over the text `p` that is left: comp and result -/
def pathRounds : ℕ → List UInt8 → OutBuf → OutBuf → OutBuf × OutBuf
  | 0, _, comp, r => (comp, r)
  | fuel + 1, p, comp, r =>
    if p = [] then (comp, r)
    else
      let word := p.takeWhile (· ≠ 47)
      let comp := ((comp.backTo 0).fill 63 word).close
      pathRounds fuel (p.drop (word.length + 1)) comp (addBuf r comp)

/-- `resolve_path`; `mem` is what the four buffers hold before -/
def resolvePathBufs (mem : Fin 4 → ℕ → UInt8) (cwd input : List UInt8) : PathBufs :=
  let tmp := tmpBuf (mem 0) cwd input
  let text := readText tmp.mem pathMax
  let p := if text.head? = some 47 then text.tail else text
  let r := pathRounds (p.length + 1) p (fresh (mem 1)) ((fresh (mem 2)).push 47).close
  let result := if 1 < r.2.pos ∧ r.2.mem (r.2.pos - 1) = 47 then (r.2.backTo (r.2.pos - 1)).close else r.2
  ⟨tmp, r.1, result, copyString (mem 3) (readText result.mem pathMax) pathMax⟩

/-- no store outside a buffer -/
structure PathBufs.InBounds (b : PathBufs) : Prop where
  tmp : ∀ i ∈ b.tmp.log, i < 128
  comp : ∀ i ∈ b.comp.log, i < 64
  result : ∀ i ∈ b.result.log, i < 128
  absOut : ∀ i ∈ b.absOut.log, i < 128

/-! ## The buffers hold the texts -/

theorem copyString_closed (mem : ℕ → UInt8) (s : List UInt8) (max : ℕ) (hmax : 0 < max) :
    Closed (copyString mem s max) max (strcpyS s max) := by
  have hfill := (holds_fresh mem max).fill (Nat.sub_le max 1) s
  rw [nil_append, length_nil, Nat.sub_zero] at hfill
  apply hfill.closed
  have hlen := strcpyS_length s max
  rw [strcpyS] at hlen
  omega

variable {l cwd c input : List UInt8} {r comp : OutBuf} {cs : List (List UInt8)}

theorem fill_closed {b : OutBuf} (h : b.Holds 128 l) (hl : l.length ≤ 127) (s : List UInt8) :
    Closed (b.fill (pathMax - 1) s).close 128 (l ++ s.take (pathMax - 1 - l.length)) := by
  apply (h.fill (by decide) s).closed
  have hcut := length_take_le (pathMax - 1 - l.length) s
  rw [pathMax] at hcut ⊢
  rw [length_append]
  omega

/-- tmp gets the text of the model -/
theorem tmpBuf_closed (mem : ℕ → UInt8) (hcwd : cwd.head? = some 47) (input : List UInt8) :
    Closed (tmpBuf mem cwd input) 128 (joinPath cwd input) := by
  rcases input_cases input with ⟨p, rfl⟩ | ⟨p, rfl⟩ | ⟨h47, h126⟩
  · exact copyString_closed mem (47 :: p) _ (by decide)
  · have hhome : Closed ((ascii "/home").foldl push (fresh mem)).close 128 (ascii "/home") := by
      apply Holds.closed
      · exact (holds_fresh mem 128).pushAll (ascii "/home") (by decide)
      · decide
    rw [tmpBuf, joinPath]
    by_cases hp : p = []
    · rw [if_pos hp, if_pos hp]
      exact hhome
    · rw [if_neg hp, if_neg hp]
      dsimp only
      by_cases hslash : p.head? ≠ some 47
      · rw [if_pos hslash, if_pos hslash]
        exact fill_closed (hhome.push (by decide) 47) (by decide) p
      · rw [if_neg hslash, if_neg hslash, append_nil]
        exact fill_closed hhome.toHolds (by decide) p
  · have hbuf : tmpBuf mem cwd input =
        ((if (copyString mem cwd pathMax).pos < pathMax - 2 ∧
            (copyString mem cwd pathMax).mem ((copyString mem cwd pathMax).pos - 1) ≠ 47
          then (copyString mem cwd pathMax).push 47 else copyString mem cwd pathMax).fill (pathMax - 1) input).close := by
      unfold tmpBuf
      split
      · exact absurd rfl h47
      · exact absurd rfl h126
      · rfl
    rw [(relative_of_head h47 h126 cwd).1, hbuf, joinRelative]
    have hcopy := copyString_closed mem cwd pathMax (by decide)
    have hne : strcpyS cwd pathMax ≠ [] := by
      cases cwd with
      | nil => cases hcwd
      | cons c cwd => exact cons_ne_nil _ _
    -- the test of the last character reads what the model reads
    have htest : ((copyString mem cwd pathMax).pos < pathMax - 2 ∧
        (copyString mem cwd pathMax).mem ((copyString mem cwd pathMax).pos - 1) ≠ 47) ↔
        ((strcpyS cwd pathMax).length < pathMax - 2 ∧ (strcpyS cwd pathMax).getLast? ≠ some 47) := by
      rw [← hcopy.last hne, hcopy.pos, ne_eq, ne_eq, Option.some_inj]
    by_cases hsep : (strcpyS cwd pathMax).length < pathMax - 2 ∧ (strcpyS cwd pathMax).getLast? ≠ some 47
    · rw [if_pos (htest.2 hsep), if_pos hsep]
      apply fill_closed (hcopy.push hcopy.room 47)
      have hshort := hsep.1
      rw [pathMax] at hshort
      rw [length_append, length_singleton, pathMax]
      omega
    · rw [if_neg fun h => hsep (htest.1 h), if_neg hsep]
      exact fill_closed hcopy.toHolds (strcpyS_length cwd pathMax) input

/-! ## One round -/

/-- the loop of `..` finds the slash in front of the last component -/
theorem backToSlash_take {size : ℕ} (h : r.Holds size l) (hne : l ≠ []) :
    backToSlash r.mem l.length ≤ l.length ∧
      l.take (backToSlash r.mem l.length) =
        if (l.reverse.dropWhile (· ≠ 47)).reverse.length ≤ 1 then l.take 1 else (l.reverse.dropWhile (· ≠ 47)).reverse := by
  induction l using List.reverseRecOn generalizing r with
  | nil => exact absurd rfl hne
  | append_singleton l c ih =>
    have hlast : r.mem l.length = c := by
      rw [h.mem _ (by simp), getD_append_right _ _ _ _ le_rfl, Nat.sub_self]
      rfl
    rw [length_append, length_singleton, backToSlash, hlast, reverse_append, reverse_singleton,
      singleton_append, dropWhile_cons]
    by_cases hl : l = []
    · subst hl
      rw [if_neg (by simp)]
      refine ⟨le_rfl, ?_⟩
      by_cases hc : c = 47
      · simp [hc]
      · simp [hc]
    · have hpos := List.length_pos_iff.2 hl
      by_cases hc : c = 47
      · have hstop : ¬ decide (c ≠ 47) = true := by simpa using hc
        rw [if_neg fun hback => hback.2 hc]
        simp only [if_neg hstop]
        refine ⟨le_rfl, ?_⟩
        rw [if_neg (by simp; omega), take_of_length_le (by simp)]
        simp
      · have hgo : decide (c ≠ 47) = true := by simpa using hc
        rw [if_pos ⟨by omega, hc⟩]
        simp only [if_pos hgo]
        have hback : (r.backTo l.length).Holds size l := by
          have htake := h.backTo (k := l.length) (by simp)
          rwa [take_left' rfl] at htake
        obtain ⟨hle, htake⟩ := ih hback hl
        have hmem : (r.backTo l.length).mem = r.mem := rfl
        rw [hmem] at hle htake
        refine ⟨hle.trans (Nat.le_succ _), ?_⟩
        rw [take_append_of_le_length hle, htake, take_append_of_le_length hpos]

theorem dropBuf_closed (h : Closed r 128 l) (hne : l ≠ []) :
    Closed (dropBuf r) 128 (dropComponent l) := by
  have hroom := h.room
  have hpos := List.length_pos_iff.2 hne
  have hclosed : ∀ {b : OutBuf} {s : List UInt8} {k : ℕ}, b.Holds 128 s → s.length ≤ l.length → k ≤ s.length →
      Closed (b.backTo k).close 128 (s.take k) := by
    intro b s k hb hs hk
    apply (hb.backTo hk).closed
    rw [length_take_of_le hk]
    omega
  unfold dropBuf dropComponent
  rw [h.pos]
  by_cases hshort : l.length ≤ 1
  · rw [if_pos hshort, if_pos hshort]
    exact hclosed h.toHolds le_rfl hpos
  · rw [if_neg hshort, if_neg hshort]
    dsimp only
    have hlast := h.last hne
    rw [h.pos] at hlast
    by_cases hslash : r.mem (l.length - 1) = 47
    · rw [if_pos hslash, if_pos (hlast.symm.trans (congrArg some hslash))]
      have hback : (r.backTo (l.length - 1)).Holds 128 l.dropLast := by
        rw [dropLast_eq_take]
        exact h.backTo (Nat.sub_le _ _)
      have hne' : l.dropLast ≠ [] := by
        rw [← length_pos_iff, length_dropLast]
        omega
      obtain ⟨hle, htake⟩ := backToSlash_take hback hne'
      rw [← htake, ← hback.pos]
      rw [← hback.pos] at hle
      exact hclosed hback (by rw [length_dropLast]; omega) (hback.pos ▸ hle)
    · rw [if_neg hslash, if_neg fun h47 => hslash (Option.some_inj.1 (hlast.trans h47))]
      obtain ⟨hle, htake⟩ := backToSlash_take h.toHolds hne
      rw [← htake, h.pos]
      exact hclosed h.toHolds le_rfl hle

/-- what the tests of a round say about the component -/
theorem comp_tests (h : comp.Holds 64 c) :
    (comp.pos = 0 ↔ c = []) ∧ (comp.mem 0 = 46 ∧ comp.pos = 1 ↔ c = [46]) ∧
      (comp.mem 0 = 46 ∧ comp.mem 1 = 46 ∧ comp.pos = 2 ↔ c = [46, 46]) := by
  have hpos := h.pos
  refine ⟨?_, ?_, ?_⟩
  · rw [hpos]
    exact length_eq_zero_iff
  · constructor
    · rintro ⟨h0, h1⟩
      obtain ⟨x, rfl⟩ := List.length_eq_one_iff.1 (hpos.symm.trans h1)
      have hx : comp.mem 0 = x := h.mem 0 (by simp)
      rw [← hx, h0]
    · rintro rfl
      exact ⟨h.mem 0 (by decide), hpos⟩
  · constructor
    · rintro ⟨h0, h1, h2⟩
      obtain ⟨x, y, rfl⟩ := List.length_eq_two.1 (hpos.symm.trans h2)
      have hx : comp.mem 0 = x := h.mem 0 (by simp)
      have hy : comp.mem 1 = y := h.mem 1 (by simp)
      rw [← hx, ← hy, h0, h1]
    · rintro rfl
      exact ⟨h.mem 0 (by decide), h.mem 1 (by decide), hpos⟩

theorem addBuf_closed (hr : Closed r 128 l) (hne : l ≠ []) (hcomp : comp.Holds 64 c)
    (hroom : (if 1 < l.length ∧ l.getLast? ≠ some 47 then l ++ [47] else l).length ≤ 127) :
    Closed (addBuf r comp) 128 (addComponent l c) := by
  obtain ⟨hnil, hdot, hdots⟩ := comp_tests hcomp
  unfold addBuf addComponent
  by_cases h0 : c = []
  · rw [if_pos (hnil.2 h0), if_pos (.inl h0)]
    exact hr
  rw [if_neg fun h => h0 (hnil.1 h)]
  by_cases h1 : c = [46]
  · rw [if_pos (hdot.2 h1), if_pos (.inr h1)]
    exact hr
  rw [if_neg fun h => h1 (hdot.1 h), if_neg (not_or.2 ⟨h0, h1⟩)]
  by_cases h2 : c = [46, 46]
  · rw [if_pos (hdots.2 h2), if_pos h2]
    exact dropBuf_closed hr hne
  rw [if_neg fun h => h2 (hdots.1 h), if_neg h2, hcomp.map_range]
  dsimp only
  have htest : (1 < r.pos ∧ r.mem (r.pos - 1) ≠ 47) ↔ (1 < l.length ∧ l.getLast? ≠ some 47) := by
    rw [← hr.last hne, hr.pos, ne_eq, ne_eq, Option.some_inj]
  by_cases hsep : 1 < l.length ∧ l.getLast? ≠ some 47
  · rw [if_pos hsep] at hroom
    rw [if_pos (htest.2 hsep), if_pos hsep]
    exact fill_closed (hr.push hr.room 47) hroom c
  · rw [if_neg hsep] at hroom
    rw [if_neg fun h => hsep (htest.1 h), if_neg hsep]
    exact fill_closed hr.toHolds hroom c

/-! ## The loop and the whole function -/

theorem Shows.ne_nil (h : Shows l cs) : l ≠ [] := by
  rcases h with rfl | ⟨-, rfl⟩
  · exact cons_ne_nil _ _
  · exact cons_ne_nil _ _

/-- **The loop stays in its buffers**, and result holds the text of the model. -/
theorem pathRounds_holds {p : List UInt8} (h : Round p l cs) (hr : Closed r 128 l) (hcomp : comp.Holds 64 c)
    {fuel : ℕ} (hfuel : p.length < fuel) :
    Closed (pathRounds fuel p comp r).2 128 (resolveLoop fuel p l) ∧
      ∀ i ∈ (pathRounds fuel p comp r).1.log, i < 64 := by
  induction fuel generalizing p l cs r comp c with
  | zero => exact absurd hfuel (Nat.not_lt_zero _)
  | succ fuel ih =>
    rw [pathRounds, resolveLoop]
    by_cases hp : p = []
    · rw [if_pos hp, if_pos hp]
      exact ⟨hr, hcomp.log⟩
    · rw [if_neg hp, if_neg hp]
      dsimp only
      set word := p.takeWhile (· ≠ 47) with hword
      have hlen : (p.drop (word.length + 1)).length < fuel := by
        have hpos := List.length_pos_iff.2 hp
        rw [length_drop]
        omega
      have hscan : ((comp.backTo 0).fill 63 word).close.Holds 64 (word.take 63) := by
        have hfill := (hcomp.backTo (Nat.zero_le _)).fill (show 63 ≤ 64 by decide) word
        rw [take_zero, nil_append, length_nil] at hfill
        apply hfill.close
        exact Nat.lt_succ_of_le (length_take_le 63 word)
      have hroom : (if 1 < l.length ∧ l.getLast? ≠ some 47 then l ++ [47] else l).length ≤ 127 := by
        rw [h.shows.separate h.proper]
        have := h.room.resolve_left hp
        omega
      exact ih (h.next hp) (addBuf_closed hr h.shows.ne_nil hscan hroom) hscan hlen

/-- result at the end of the call -/
theorem strip_closed (hr : Closed r 128 l) (hl : Shows l cs) (hcs : ∀ c ∈ cs, Proper c) :
    Closed (if 1 < r.pos ∧ r.mem (r.pos - 1) = 47 then (r.backTo (r.pos - 1)).close else r) 128 (render cs) := by
  rw [← hl.strip hcs]
  have hroom := hr.room
  have htest : (1 < r.pos ∧ r.mem (r.pos - 1) = 47) ↔ (1 < l.length ∧ l.getLast? = some 47) := by
    rw [← hr.last hl.ne_nil, hr.pos, Option.some_inj]
  by_cases hslash : 1 < l.length ∧ l.getLast? = some 47
  · rw [if_pos (htest.2 hslash), if_pos hslash, hr.pos, dropLast_eq_take]
    apply (hr.backTo (Nat.sub_le _ _)).closed
    rw [length_take]
    omega
  · rw [if_neg fun h => hslash (htest.1 h), if_neg hslash]
    exact hr

/-! ## The results are texts -/

/-- a string that starts with a slash -/
structure Rooted (l : List UInt8) : Prop where
  absolute : l.head? = some 47
  nulFree : (0 : UInt8) ∉ l

theorem Rooted.ne_nil (h : Rooted l) : l ≠ [] := by
  rintro rfl
  cases h.absolute

theorem Rooted.of_prefix {l' : List UInt8} (h : Rooted l) (hpre : l' <+: l) (hne : l' ≠ []) : Rooted l' where
  absolute := by
    obtain ⟨rest, rfl⟩ := hpre
    have habs := h.absolute
    rwa [head?_append_of_ne_nil _ hne] at habs
  nulFree hmem := h.nulFree (hpre.subset hmem)

theorem Rooted.append {s : List UInt8} (h : Rooted l) (hs : (0 : UInt8) ∉ s) : Rooted (l ++ s) where
  absolute := by
    rw [head?_append_of_ne_nil _ h.ne_nil]
    exact h.absolute
  nulFree hmem := (List.mem_append.1 hmem).elim h.nulFree hs

theorem Rooted.take (h : Rooted l) (n : ℕ) : Rooted (l.take (n + 1)) := by
  apply h.of_prefix (List.take_prefix _ _)
  rw [ne_eq, take_eq_nil_iff]
  exact fun hnil => hnil.elim (Nat.succ_ne_zero n) h.ne_nil

theorem Rooted.dropLast (h : Rooted l) (hlen : 1 < l.length) : Rooted l.dropLast := by
  apply h.of_prefix (List.dropLast_prefix l)
  rw [← length_pos_iff, length_dropLast]
  exact Nat.sub_pos_of_lt hlen

theorem Rooted.dropComponent {l : List UInt8} (h : Rooted l) : Rooted (dropComponent l) := by
  have hback : ∀ {r : List UInt8}, Rooted r →
      Rooted (if (r.reverse.dropWhile (· ≠ 47)).reverse.length ≤ 1 then r.take 1
        else (r.reverse.dropWhile (· ≠ 47)).reverse) := by
    intro r hr
    by_cases hroot : (r.reverse.dropWhile (· ≠ 47)).reverse.length ≤ 1
    · rw [if_pos hroot]
      exact hr.take 0
    · rw [if_neg hroot]
      apply hr.of_prefix
      · rw [← reverse_suffix, reverse_reverse]
        exact dropWhile_suffix _
      · rintro hnil
        rw [hnil] at hroot
        exact hroot (Nat.zero_le 1)
  unfold Shell.dropComponent
  by_cases hshort : l.length ≤ 1
  · rw [if_pos hshort]
    exact h.take 0
  · rw [if_neg hshort]
    by_cases hlast : l.getLast? = some 47
    · rw [if_pos hlast]
      exact hback (h.dropLast (not_le.1 hshort))
    · rw [if_neg hlast]
      exact hback h

theorem Rooted.addComponent {l c : List UInt8} (h : Rooted l) (hc : (0 : UInt8) ∉ c) : Rooted (addComponent l c) := by
  have hcut : ∀ n, (0 : UInt8) ∉ c.take n := fun n hmem => hc (mem_of_mem_take hmem)
  unfold Shell.addComponent
  split_ifs
  · exact h
  · exact h.dropComponent
  · exact (h.append (by decide)).append (hcut _)
  · exact h.append (hcut _)

theorem Rooted.resolveLoop {p l : List UInt8} (hp : (0 : UInt8) ∉ p) (h : Rooted l) (fuel : ℕ) :
    Rooted (resolveLoop fuel p l) := by
  induction fuel generalizing p l with
  | zero => exact h
  | succ fuel ih =>
    rw [Shell.resolveLoop]
    split_ifs
    · exact h
    · apply ih
      · exact fun hmem => hp (mem_of_mem_drop hmem)
      · apply h.addComponent
        exact fun hmem => hp ((List.takeWhile_prefix _).subset (mem_of_mem_take hmem))

theorem joinPath_nulFree (hcwd : (0 : UInt8) ∉ cwd) (hinput : (0 : UInt8) ∉ input) :
    (0 : UInt8) ∉ joinPath cwd input := by
  have happend : ∀ {a b : List UInt8} {n : ℕ}, (0 : UInt8) ∉ a → (0 : UInt8) ∉ b → (0 : UInt8) ∉ a ++ b.take n := by
    intro a b n ha hb hmem
    exact (List.mem_append.1 hmem).elim ha fun h => hb (mem_of_mem_take h)
  have hhome : (0 : UInt8) ∉ ascii "/home" := by decide
  have hslash : ∀ {a : List UInt8}, (0 : UInt8) ∉ a → (0 : UInt8) ∉ a ++ [47] := by
    intro a ha hmem
    exact (List.mem_append.1 hmem).elim ha (by decide)
  unfold joinPath
  split
  · exact fun hmem => hinput (mem_of_mem_take hmem)
  · have hp : (0 : UInt8) ∉ _ := fun hmem => hinput (mem_cons_of_mem 126 hmem)
    split_ifs
    · exact hhome
    · exact happend (hslash hhome) hp
    · exact happend (by rwa [append_nil]) hp
  · have hcopy : (0 : UInt8) ∉ strcpyS cwd pathMax := fun hmem => hcwd (mem_of_mem_take hmem)
    dsimp only
    split_ifs
    · exact happend (hslash hcopy) hinput
    · exact happend hcopy hinput

/-- every result of `resolve_path` is a string that starts with a slash, whatever the current directory was -/
theorem resolvePath_rooted (hcwd : (0 : UInt8) ∉ cwd) (hinput : (0 : UInt8) ∉ input) :
    Rooted (resolvePath cwd input) := by
  have htmp := joinPath_nulFree hcwd hinput
  have hloop : ∀ {p : List UInt8}, (0 : UInt8) ∉ p →
      Rooted (if 1 < (resolveLoop (p.length + 1) p [47]).length ∧ (resolveLoop (p.length + 1) p [47]).getLast? = some 47
        then (resolveLoop (p.length + 1) p [47]).dropLast else resolveLoop (p.length + 1) p [47]) := by
    intro p hp
    have hr : Rooted (resolveLoop (p.length + 1) p [47]) := Rooted.resolveLoop hp ⟨rfl, by decide⟩ _
    split_ifs with hlast
    · exact hr.dropLast hlast.1
    · exact hr
  unfold resolvePath
  apply Rooted.take
  by_cases habs : (joinPath cwd input).head? = some 47
  · rw [if_pos habs]
    exact hloop fun hmem => htmp (mem_of_mem_tail hmem)
  · rw [if_neg habs]
    exact hloop htmp

/-! ## The whole call -/

/-- what a call leaves in its buffers -/
structure Resolves (b : PathBufs) (out : List UInt8) : Prop where
  inBounds : b.InBounds
  text : readText b.absOut.mem 128 = out
  normal : NormalPath out

theorem resolved_proper {t : List UInt8} (h : Joined t) : ∀ c ∈ resolved t, Proper c := h.loop.proper

theorem resolvePathBufs_resolves (mem : Fin 4 → ℕ → UInt8) (hcwd : Rooted cwd) (hinput : (0 : UInt8) ∉ input) :
    Resolves (resolvePathBufs mem cwd input) (resolvePath cwd input) := by
  have hjoined := joinPath_joined hcwd.absolute input
  have hproper := resolved_proper hjoined
  have htmp := tmpBuf_closed (mem 0) hcwd.absolute input
  have htext : readText (tmpBuf (mem 0) cwd input).mem pathMax = joinPath cwd input :=
    htmp.readText (joinPath_nulFree hcwd.nulFree hinput)
  have hroot : Closed ((fresh (mem 2)).push 47).close 128 [47] :=
    ((holds_fresh (mem 2) 128).push (by decide) 47).closed (by decide)
  obtain ⟨hloop, hcomp⟩ := pathRounds_holds hjoined.round hroot (holds_fresh (mem 1) 64) (Nat.lt_add_one _)
  have hresult := strip_closed hloop hjoined.loop.shows hproper
  have hout := resolvePath_eq hcwd.absolute input
  have hnul : (0 : UInt8) ∉ render (resolved (joinPath cwd input)) := by
    rw [← hout]
    exact (resolvePath_rooted hcwd.nulFree hinput).nulFree
  have hcopy := copyString_closed (mem 3) (render (resolved (joinPath cwd input))) 128 (by decide)
  have hwhole : strcpyS (render (resolved (joinPath cwd input))) 128 = render (resolved (joinPath cwd input)) :=
    take_of_length_le hjoined.loop.length
  rw [hwhole] at hcopy
  unfold resolvePathBufs
  dsimp only
  rw [htext, if_pos hjoined.absolute, pathMax, hresult.readText hnul, hout]
  exact ⟨⟨htmp.log, hcomp, hresult.log, hcopy.log⟩, hcopy.readText hnul, normalPath_render hproper hjoined.loop.length⟩

/-- a result resolves to itself, from everywhere -/
theorem resolvePath_resolved {t : List UInt8} (h : Joined t) (cwd : List UInt8) :
    resolvePath cwd (render (resolved t)) = render (resolved t) := by
  have hlen := h.loop.length
  have hproper := resolved_proper h
  have hjoin : joinPath cwd (render (resolved t)) = render (resolved t) := take_of_length_le hlen
  have habs : (render (resolved t)).head? = some 47 := rfl
  have hjoined : Joined (render (resolved t)) := ⟨habs, hlen⟩
  have hstandard : standard (render (resolved t)) = resolved t := by
    rw [standard_of_absolute habs]
    by_cases hnil : resolved t = []
    · rw [hnil]
      rfl
    · rw [splitOn_render hproper hnil, foldl_pushComp_of_proper hproper]
      rfl
  have hcut : (resolved t).map (List.take 63) = resolved t := by
    rw [resolved_eq h.absolute, map_map]
    exact map_congr_left fun c _ => List.take_take.trans (by rw [min_self])
  calc resolvePath cwd (render (resolved t))
      = render (resolved (render (resolved t))) := by rw [resolvePath_normalise, hjoin, hjoined.normalise]
    _ = render (resolved t) := by rw [resolved_eq habs, hstandard, hcut]

/-- **`resolve_path` gives a normal form.** From every current directory that is itself a result, for every input and
whatever the buffers hold: no store is outside its buffer, abs_out gets the normal form that the model on texts computes,
and resolving it again gives it back. -/
theorem resolve_path_normal (cwd₀ input₀ input : CStr) (mem : Fin 4 → ℕ → UInt8) :
    let cwd := resolvePath cwd₀.bytes input₀.bytes
    let out := resolvePath cwd input.bytes
    Resolves (resolvePathBufs mem cwd input.bytes) out ∧ ∀ cwd', resolvePath cwd' out = out := by
  dsimp only
  have hcwd := resolvePath_rooted cwd₀.nulFree input₀.nulFree
  refine ⟨resolvePathBufs_resolves mem hcwd input.nulFree, fun cwd' => ?_⟩
  rw [resolvePath_eq hcwd.absolute]
  exact resolvePath_resolved (joinPath_joined hcwd.absolute _) cwd'

end GannetOS.Shell
