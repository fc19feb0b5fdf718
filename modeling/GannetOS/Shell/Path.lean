/-
What `resolve_path` of `shell/shell.c` computes.

A path is a list of components; `render` writes it down. `standard` is the usual resolution: the text is split at `/`, empty
components and `.` are dropped, `..` takes the last component away. `resolvePath` works on one text instead of a list: after
`..` that text ends with a slash, and a component is appended behind one (`Shows`, `behind`).

- `resolvePath_eq`: on every text of at most 127 characters that starts with a slash, the code does what `standard` does,
  but with every component cut to 63 characters;
- `resolve_path_standard_iff`: so it computes the usual resolution exactly if no component that is left is longer;
- `long_component_cut`: a component of 64 characters loses its last one.
-/
import GannetOS.Shell.Text

namespace GannetOS.Shell

open GannetOS.Core List

/-! ## Paths as lists of components -/

/-- the absolute path with these components -/
def render (cs : List (List UInt8)) : List UInt8 := 47 :: [47].intercalate cs

/-- one component more -/
def pushComp (cs : List (List UInt8)) (c : List UInt8) : List (List UInt8) :=
  if c = [] ∨ c = [46] then cs else if c = [46, 46] then cs.dropLast else cs ++ [c]

/-- the components of a text after the usual resolution -/
def standard (text : List UInt8) : List (List UInt8) := (text.splitOn 47).foldl pushComp []

/-- a component that stays -/
structure Proper (c : List UInt8) : Prop where
  ne_nil : c ≠ []
  ne_dot : c ≠ [46]
  ne_dots : c ≠ [46, 46]
  slash : (47 : UInt8) ∉ c

structure NormalPath (l : List UInt8) : Prop where
  length : l.length ≤ 127
  absolute : l.head? = some 47
  components : l = [47] ∨ ∀ c ∈ l.tail.splitOn 47, c ≠ [] ∧ c ≠ [46] ∧ c ≠ [46, 46]
  trailing : l = [47] ∨ l.getLast? ≠ some 47

/-- the text a component is appended to -/
def behind (cs : List (List UInt8)) : List UInt8 := if cs = [] then [47] else render cs ++ [47]

theorem render_snoc (cs : List (List UInt8)) (c : List UInt8) : render (cs ++ [c]) = behind cs ++ c := by
  unfold behind
  induction cs with
  | nil => simp [render]
  | cons d cs ih =>
    rw [if_neg (cons_ne_nil d cs)]
    by_cases hcs : cs = []
    · subst hcs
      simp [render]
    · rw [if_neg hcs] at ih
      rw [cons_append, render, intercalate_cons_of_ne_nil (by simp), render,
        intercalate_cons_of_ne_nil hcs]
      simp only [render, cons_append, List.cons.injEq, true_and] at ih
      simp [ih]

variable {cs : List (List UInt8)} {c l p t cwd input : List UInt8}

theorem pushComp_proper (h : ∀ d ∈ cs, Proper d) (hc : (47 : UInt8) ∉ c) :
    ∀ d ∈ pushComp cs c, Proper d := by
  intro d hd
  unfold pushComp at hd
  split_ifs at hd with hskip hdots
  · exact h d hd
  · exact h d (mem_of_mem_dropLast hd)
  · rcases List.mem_append.1 hd with hd | hd
    · exact h d hd
    · rw [List.mem_singleton.1 hd]
      exact ⟨fun h0 => hskip (.inl h0), fun h0 => hskip (.inr h0), hdots, hc⟩

theorem foldl_pushComp_proper (h : ∀ d ∈ cs, Proper d) {l : List (List UInt8)} (hl : ∀ c ∈ l, (47 : UInt8) ∉ c) :
    ∀ d ∈ l.foldl pushComp cs, Proper d := by
  induction l generalizing cs with
  | nil => exact h
  | cons c l ih =>
    apply ih
    · exact pushComp_proper h (hl c mem_cons_self)
    · intro d hd
      exact hl d (mem_cons_of_mem c hd)

/-- proper components are left as they are -/
theorem foldl_pushComp_of_proper {l : List (List UInt8)} (h : ∀ c ∈ l, Proper c) (cs : List (List UInt8)) :
    l.foldl pushComp cs = cs ++ l := by
  induction l generalizing cs with
  | nil => exact (append_nil cs).symm
  | cons c l ih =>
    have hc := h c mem_cons_self
    have hpush : pushComp cs c = cs ++ [c] := by
      rw [pushComp, if_neg (not_or.2 ⟨hc.ne_nil, hc.ne_dot⟩), if_neg hc.ne_dots]
    rw [foldl_cons, hpush, ih fun d hd => h d (mem_cons_of_mem c hd), append_assoc]
    rfl

/-- a text up to its first slash, and what is behind it -/
theorem slash_cases (p : List UInt8) :
    ((47 : UInt8) ∉ p ∧ p.takeWhile (· ≠ 47) = p ∧ p.splitOn 47 = [p]) ∨
      ∃ w p', (47 : UInt8) ∉ w ∧ p = w ++ 47 :: p' ∧ p.takeWhile (· ≠ 47) = w ∧ p.splitOn 47 = w :: p'.splitOn 47 := by
  have hstop : ∀ l : List UInt8, (47 : UInt8) ∉ l → ∀ c ∈ l, decide (c ≠ 47) = true := by
    intro l hl c hc
    rw [decide_eq_true_eq]
    rintro rfl
    exact hl hc
  by_cases hslash : (47 : UInt8) ∈ p
  · right
    obtain ⟨w, p', hp, hw⟩ := eq_append_cons_of_mem hslash
    refine ⟨w, p', hw, hp, ?_, ?_⟩
    · rw [hp, takeWhile_append_of_pos (hstop w hw)]
      exact append_nil w
    · rw [hp, splitOn_append_cons_self, splitOn_eq_singleton hw]
      rfl
  · left
    exact ⟨hslash, List.takeWhile_eq_self_iff.2 (hstop p hslash), splitOn_eq_singleton hslash⟩

theorem splitOn_notMem (text : List UInt8) : ∀ c ∈ text.splitOn 47, (47 : UInt8) ∉ c := by
  induction hn : text.length using Nat.strong_induction_on generalizing text with
  | _ n ih =>
    intro c hc
    rcases slash_cases text with ⟨hfree, -, hsplit⟩ | ⟨w, p, hw, htext, -, hsplit⟩
    · rw [hsplit, mem_singleton] at hc
      exact hc ▸ hfree
    · rw [hsplit] at hc
      rcases List.mem_cons.1 hc with rfl | hc
      · exact hw
      · have hlen : p.length < n := by
          rw [← hn, htext, length_append, length_cons]
          omega
        exact ih p.length hlen p rfl c hc

theorem standard_proper (text : List UInt8) : ∀ c ∈ standard text, Proper c :=
  foldl_pushComp_proper (fun _ hd => absurd hd not_mem_nil) (splitOn_notMem text)

/-! ## What a rendered path looks like -/

section
variable {cs : List (List UInt8)} (h : ∀ c ∈ cs, Proper c)
include h

theorem splitOn_render (hne : cs ≠ []) : (render cs).tail.splitOn 47 = cs :=
  splitOn_intercalate 47 (fun c hc => (h c hc).slash) hne

/-- the last character is not a slash -/
theorem render_getLast (hne : cs ≠ []) : (render cs).getLast? ≠ some 47 := by
  obtain ⟨init, c, rfl⟩ := eq_nil_or_concat cs |>.resolve_left hne
  rw [concat_eq_append] at h ⊢
  have hc := h c (mem_append_right _ (mem_singleton_self c))
  rw [render_snoc, getLast?_append_of_ne_nil _ hc.ne_nil]
  intro hlast
  exact hc.slash (mem_of_getLast? hlast)

theorem render_length_lt (hne : cs ≠ []) : 1 < (render cs).length := by
  obtain ⟨init, c, rfl⟩ := eq_nil_or_concat cs |>.resolve_left hne
  rw [concat_eq_append] at h ⊢
  have hc := List.length_pos_iff.2 (h c (mem_append_right _ (mem_singleton_self c))).ne_nil
  have hbehind : 1 ≤ (behind init).length := by
    unfold behind
    split_ifs
    · exact le_rfl
    · simp
  rw [render_snoc, length_append]
  omega

theorem normalPath_render (hlen : (render cs).length ≤ 127) : NormalPath (render cs) := by
  by_cases hne : cs = []
  · subst hne
    exact ⟨hlen, rfl, .inl rfl, .inl rfl⟩
  · refine ⟨hlen, rfl, .inr fun c hc => ?_, .inr (render_getLast h hne)⟩
    rw [splitOn_render h hne] at hc
    exact ⟨(h c hc).ne_nil, (h c hc).ne_dot, (h c hc).ne_dots⟩

end

/-- a text that starts with a slash has the components of what is behind it -/
theorem standard_of_absolute {text : List UInt8} (h : text.head? = some 47) :
    standard text = (text.tail.splitOn 47).foldl pushComp [] := by
  cases text with
  | nil => cases h
  | cons c p =>
    obtain rfl : c = 47 := Option.some.inj h
    have hsplit : (47 :: p).splitOn (47 : UInt8) = [] :: p.splitOn 47 := by
      have happend := splitOn_append_cons_self (a := (47 : UInt8)) [] p
      rwa [nil_append, splitOn_nil] at happend
    rw [standard, hsplit]
    rfl

/-- a normalised path is what its components are written as -/
theorem render_standard (h : NormalPath l) : render (standard l) = l := by
  obtain ⟨p, rfl⟩ : ∃ p, l = 47 :: p := by
    cases l with
    | nil => cases h.absolute
    | cons c p => exact ⟨p, by rw [Option.some.inj h.absolute]⟩
  rw [standard_of_absolute rfl]
  rcases h.components with hroot | hcomp
  · obtain rfl : p = [] := (List.cons.inj hroot).2
    rfl
  · have hproper : ∀ c ∈ p.splitOn 47, Proper c := by
      intro c hc
      obtain ⟨h1, h2, h3⟩ := hcomp c hc
      exact ⟨h1, h2, h3, splitOn_notMem p c hc⟩
    rw [tail_cons, foldl_pushComp_of_proper hproper, nil_append, render, intercalate_splitOn]

/-! ## One round of the loop -/

/-- the text `l` of the loop stands for the components `cs` -/
def Shows (l : List UInt8) (cs : List (List UInt8)) : Prop := l = render cs ∨ cs ≠ [] ∧ l = render cs ++ [47]

theorem shows_behind (cs : List (List UInt8)) : Shows (behind cs) cs := by
  unfold behind
  split_ifs with hcs
  · subst hcs
    exact .inl rfl
  · exact .inr ⟨hcs, rfl⟩

section
variable {l : List UInt8} {cs : List (List UInt8)} (hl : Shows l cs) (h : ∀ c ∈ cs, Proper c)
include hl h

/-- a slash is written unless there is one -/
theorem Shows.separate : (if 1 < l.length ∧ l.getLast? ≠ some 47 then l ++ [47] else l) = behind cs := by
  unfold behind
  by_cases hcs : cs = []
  · subst hcs
    rcases hl with rfl | ⟨hne, -⟩
    · rfl
    · exact absurd rfl hne
  · rw [if_neg hcs]
    rcases hl with rfl | ⟨-, rfl⟩
    · rw [if_pos ⟨render_length_lt h hcs, render_getLast h hcs⟩]
    · rw [if_neg (by simp)]

/-- the slash at the end is taken away -/
theorem Shows.strip : (if 1 < l.length ∧ l.getLast? = some 47 then l.dropLast else l) = render cs := by
  by_cases hcs : cs = []
  · subst hcs
    rcases hl with rfl | ⟨hne, -⟩
    · rfl
    · exact absurd rfl hne
  · rcases hl with rfl | ⟨-, rfl⟩
    · rw [if_neg fun hc => render_getLast h hcs hc.2]
    · have hlen : 1 < (render cs ++ [47]).length := by
        rw [length_append]
        exact Nat.lt_add_right 1 (render_length_lt h hcs)
      rw [if_pos ⟨hlen, by simp⟩, dropLast_concat]

/-- `..` -/
theorem Shows.dropComponent : Shows (dropComponent l) cs.dropLast := by
  rcases eq_nil_or_concat cs with rfl | ⟨init, c, rfl⟩
  · rcases hl with rfl | ⟨hne, -⟩
    · exact .inl rfl
    · exact absurd rfl hne
  · rw [concat_eq_append] at hl h ⊢
    have hne : init ++ [c] ≠ [] := by simp
    have hc := h c (mem_append_right _ (mem_singleton_self c))
    have hlong : ¬ l.length ≤ 1 := by
      have hrender := render_length_lt h hne
      rcases hl with rfl | ⟨-, rfl⟩
      · exact not_le.2 hrender
      · rw [length_append]
        omega
    have hstrip := hl.strip h
    have hr : (if l.getLast? = some 47 then l.dropLast else l) = render (init ++ [c]) := by
      rw [← hstrip]
      simp only [not_le.1 hlong, true_and]
    -- the loop goes back over the component, to the slash in front of it
    have hkept : ((render (init ++ [c])).reverse.dropWhile (· ≠ 47)).reverse = behind init := by
      have hend : ∃ front, behind init = front ++ [47] := by
        unfold behind
        split_ifs
        · exact ⟨[], rfl⟩
        · exact ⟨render init, rfl⟩
      obtain ⟨front, hfront⟩ := hend
      have hstop : ∀ d ∈ c.reverse, decide (d ≠ 47) = true := by
        intro d hd
        rw [decide_eq_true_eq]
        rintro rfl
        exact hc.slash (List.mem_reverse.1 hd)
      rw [render_snoc, hfront, reverse_append, dropWhile_append_of_pos hstop]
      simp
    have hdrop : Shell.dropComponent l =
        if (behind init).length ≤ 1 then (render (init ++ [c])).take 1 else behind init := by
      unfold Shell.dropComponent
      rw [if_neg hlong]
      dsimp only
      rw [hr, hkept]
    rw [dropLast_concat, hdrop]
    split_ifs with hroot
    · have hnil : init = [] := by
        by_contra hinit
        rw [behind, if_neg hinit, length_append] at hroot
        simp [render] at hroot
      subst hnil
      exact .inl rfl
    · exact shows_behind init

/-- a component is added, if there is room for it -/
theorem Shows.addComponent {c : List UInt8} (hroom : (behind cs).length + c.length ≤ 127) :
    Shows (addComponent l c) (pushComp cs c) := by
  unfold Shell.addComponent pushComp
  by_cases hskip : c = [] ∨ c = [46]
  · rw [if_pos hskip, if_pos hskip]
    exact hl
  · rw [if_neg hskip, if_neg hskip]
    by_cases hdots : c = [46, 46]
    · rw [if_pos hdots, if_pos hdots]
      exact hl.dropComponent h
    · rw [if_neg hdots, if_neg hdots]
      dsimp only
      rw [hl.separate h, take_of_length_le (by rw [pathMax]; omega), ← render_snoc]
      exact .inl rfl

end

/-! ## The whole loop -/

/-- what the loop makes of a component -/
def pushCut (cs : List (List UInt8)) (c : List UInt8) : List (List UInt8) := pushComp cs (c.take 63)

theorem behind_dropLast_le (cs : List (List UInt8)) : (behind cs.dropLast).length ≤ (behind cs).length := by
  rcases eq_nil_or_concat cs with rfl | ⟨init, c, rfl⟩
  · exact le_rfl
  · rw [concat_eq_append, dropLast_concat]
    have hlast : behind (init ++ [c]) = behind init ++ c ++ [47] := by
      rw [behind, if_neg (by simp), render_snoc]
    rw [hlast, length_append, length_append]
    omega

theorem render_le_behind (cs : List (List UInt8)) : (render cs).length ≤ (behind cs).length := by
  unfold behind
  split_ifs with hcs
  · subst hcs
    exact le_rfl
  · rw [length_append]
    exact Nat.le_add_right _ _

/-- a round of the loop writes no more than it reads -/
theorem behind_pushCut (cs : List (List UInt8)) (c : List UInt8) :
    (behind (pushCut cs c)).length ≤ (behind cs).length + c.length + 1 := by
  unfold pushCut pushComp
  split_ifs
  · omega
  · have := behind_dropLast_le cs
    omega
  · have hcut := length_take_le' 63 c
    rw [behind, if_neg (by simp), render_snoc, length_append, length_append, length_singleton]
    omega

theorem render_pushCut {n : ℕ} (hcs : (render cs).length ≤ n) (hroom : (behind cs).length + c.length ≤ n) :
    (render (pushCut cs c)).length ≤ n := by
  unfold pushCut pushComp
  split_ifs
  · exact hcs
  · exact (render_le_behind _).trans ((behind_dropLast_le cs).trans (by omega))
  · have hcut := length_take_le' 63 c
    rw [render_snoc, length_append]
    omega

/-- the loop with the text `p` to read and the text `l` written, which stands for `cs`: what is written and what is still to
be read never take more than 127 characters together -/
structure Round (p l : List UInt8) (cs : List (List UInt8)) : Prop where
  shows : Shows l cs
  proper : ∀ c ∈ cs, Proper c
  room : p = [] ∨ (behind cs).length + p.length ≤ 127
  length : (render cs).length ≤ 127

theorem Round.next (h : Round p l cs) (hp : p ≠ []) :
    Round (p.drop ((p.takeWhile (· ≠ 47)).length + 1)) (addComponent l ((p.takeWhile (· ≠ 47)).take 63))
      (pushCut cs (p.takeWhile (· ≠ 47))) := by
  have hroom := h.room.resolve_left hp
  have hword : ∀ w rest : List UInt8, (47 : UInt8) ∉ w → (behind cs).length + w.length ≤ 127 →
      (rest = [] ∨ (behind cs).length + w.length + 1 + rest.length ≤ 127) →
      Round rest (addComponent l (w.take 63)) (pushCut cs w) := by
    intro w rest hw hfits hrest
    have hcut := length_take_le' 63 w
    have hgrow := behind_pushCut cs w
    refine ⟨h.shows.addComponent h.proper (by omega), ?_, hrest.imp id fun _ => by omega, render_pushCut h.length hfits⟩
    exact pushComp_proper h.proper fun hmem => hw (mem_of_mem_take hmem)
  rcases slash_cases p with ⟨hfree, htake, -⟩ | ⟨w, p', hw, rfl, htake, -⟩
  · rw [htake, drop_eq_nil_of_le (Nat.le_succ _)]
    exact hword p [] hfree hroom (.inl rfl)
  · rw [length_append, length_cons] at hroom
    have hdrop : (w ++ 47 :: p').drop (w.length + 1) = p' := by simp
    rw [htake, hdrop]
    exact hword w p' hw (by omega) (.inr (by omega))

/-- the components are taken off the text one after the other -/
theorem foldl_splitOn_next (p : List UInt8) (cs : List (List UInt8)) :
    (p.splitOn 47).foldl pushCut cs =
      ((p.drop ((p.takeWhile (· ≠ 47)).length + 1)).splitOn 47).foldl pushCut (pushCut cs (p.takeWhile (· ≠ 47))) := by
  rcases slash_cases p with ⟨-, htake, hsplit⟩ | ⟨w, p', -, rfl, htake, hsplit⟩
  · rw [htake, hsplit, drop_eq_nil_of_le (Nat.le_succ _)]
    rfl
  · have hdrop : (w ++ 47 :: p').drop (w.length + 1) = p' := by simp
    rw [htake, hsplit, hdrop]
    rfl

/-- **The loop resolves the components, each cut to 63 characters.** -/
theorem Round.loop (h : Round p l cs) {fuel : ℕ} (hfuel : p.length < fuel) :
    Round [] (resolveLoop fuel p l) ((p.splitOn 47).foldl pushCut cs) := by
  induction fuel generalizing p l cs with
  | zero => exact absurd hfuel (Nat.not_lt_zero _)
  | succ fuel ih =>
    by_cases hp : p = []
    · subst hp
      exact h
    · have hlen : (p.drop ((p.takeWhile (· ≠ 47)).length + 1)).length < fuel := by
        have hpos := List.length_pos_iff.2 hp
        rw [length_drop]
        omega
      rw [resolveLoop, if_neg hp, foldl_splitOn_next]
      exact ih (h.next hp) hlen

/-! ## The whole function -/

/-- a text of at most 127 characters that starts with a slash -/
structure Joined (t : List UInt8) : Prop where
  absolute : t.head? = some 47
  length : t.length ≤ 127

/-- the loop and what comes behind it, on a text -/
def normalise (t : List UInt8) : List UInt8 :=
  let p := if t.head? = some 47 then t.tail else t
  let result := resolveLoop (p.length + 1) p [47]
  let result := if 1 < result.length ∧ result.getLast? = some 47 then result.dropLast else result
  strcpyS result pathMax

theorem resolvePath_normalise (cwd input : List UInt8) : resolvePath cwd input = normalise (joinPath cwd input) := rfl

/-- the components that are left of a text, each cut -/
def resolved (t : List UInt8) : List (List UInt8) := (t.tail.splitOn 47).foldl pushCut []

theorem Joined.round (h : Joined t) : Round t.tail [47] [] where
  shows := .inl rfl
  proper _ hc := absurd hc not_mem_nil
  room := by
    right
    have hlen := h.length
    have htail : t.tail.length = t.length - 1 := length_tail
    have hbehind : (behind []).length = 1 := rfl
    omega
  length := by decide

theorem Joined.loop (h : Joined t) : Round [] (resolveLoop (t.tail.length + 1) t.tail [47]) (resolved t) :=
  h.round.loop (Nat.lt_succ_self _)

theorem Joined.normalise {t : List UInt8} (h : Joined t) : normalise t = render (resolved t) := by
  unfold Shell.normalise
  rw [if_pos h.absolute]
  dsimp only
  rw [h.loop.shows.strip h.loop.proper]
  exact take_of_length_le h.loop.length

/-- a text that `resolve_path` normalises; it fits because the copies into it are cut -/
theorem joinPath_joined (h : cwd.head? = some 47) (input : List UInt8) :
    Joined (joinPath cwd input) := by
  have habs : ∀ (s : List UInt8) (n : ℕ), s.head? = some 47 → (s.take (n + 1)).head? = some 47 := by
    intro s n hs
    cases s with
    | nil => cases hs
    | cons c s => exact hs
  have hkeep : ∀ s s' : List UInt8, s.head? = some 47 → (s ++ s').head? = some 47 := by
    intro s s' hs
    rw [head?_append, hs]
    rfl
  have hfits : ∀ s s' : List UInt8, s.length ≤ 127 → (s ++ s'.take (127 - s.length)).length ≤ 127 := by
    intro s s' hs
    have hcut := length_take_le (127 - s.length) s'
    rw [length_append]
    omega
  unfold joinPath
  split
  · exact ⟨habs _ 126 rfl, length_take_le _ _⟩
  · split_ifs
    · exact ⟨rfl, by decide⟩
    · exact ⟨hkeep _ _ rfl, hfits _ _ (by decide)⟩
    · exact ⟨hkeep _ _ rfl, hfits _ _ (by decide)⟩
  · dsimp only
    have hcopy : (strcpyS cwd pathMax).head? = some 47 ∧ (strcpyS cwd pathMax).length ≤ 127 :=
      ⟨habs cwd 126 h, strcpyS_length cwd pathMax⟩
    split_ifs with hsep
    · refine ⟨hkeep _ _ (hkeep _ _ hcopy.1), hfits _ _ ?_⟩
      have := hsep.1
      rw [length_append, length_singleton]
      simp only [pathMax] at this ⊢
      omega
    · exact ⟨hkeep _ _ hcopy.1, hfits _ _ hcopy.2⟩

/-- **What `resolve_path` computes**, from every current directory that starts with a slash. -/
theorem resolvePath_eq (h : cwd.head? = some 47) (input : List UInt8) :
    resolvePath cwd input = render (resolved (joinPath cwd input)) := (joinPath_joined h input).normalise

/-! ## The usual resolution -/

/-- the text that the usual resolution is made of -/
def joined (cwd input : List UInt8) : List UInt8 :=
  match input with
  | 47 :: _ => input
  | 126 :: p => ascii "/home" ++ 47 :: p
  | _ => cwd ++ 47 :: input

theorem take_eq_iff {d : List UInt8} (hd : d.length < 63) : c.take 63 = d ↔ c = d := by
  constructor
  · intro h
    have hlen : (c.take 63).length = d.length := congrArg List.length h
    rw [length_take] at hlen
    rwa [take_of_length_le (by omega)] at h
  · rintro rfl
    exact take_of_length_le hd.le

/-- cutting components does not change which ones are dropped or removed -/
theorem pushComp_cut (cs : List (List UInt8)) (c : List UInt8) :
    pushCut (cs.map (List.take 63)) c = (pushComp cs c).map (List.take 63) := by
  unfold pushCut pushComp
  simp only [take_eq_iff (d := []) (by decide), take_eq_iff (d := [46]) (by decide),
    take_eq_iff (d := [46, 46]) (by decide)]
  split_ifs
  · rfl
  · rw [map_dropLast]
  · rw [map_append]
    rfl

theorem resolved_eq (h : t.head? = some 47) : resolved t = (standard t).map (List.take 63) := by
  have hfold : ∀ (l cs : List (List UInt8)),
      l.foldl pushCut (cs.map (List.take 63)) = (l.foldl pushComp cs).map (List.take 63) := by
    intro l
    induction l with
    | nil => exact fun cs => rfl
    | cons c l ih =>
      intro cs
      rw [foldl_cons, foldl_cons, pushComp_cut, ih]
  rw [resolved, standard_of_absolute h]
  exact hfold _ []

theorem standard_append (a b : List UInt8) :
    standard (a ++ 47 :: b) = (b.splitOn 47).foldl pushComp (standard a) := by
  rw [standard, splitOn_append_cons_self, foldl_append]
  rfl

/-- a slash too many -/
theorem standard_slashes (a b : List UInt8) : standard (a ++ 47 :: 47 :: b) = standard (a ++ 47 :: b) := by
  have hsplit : (47 :: b).splitOn (47 : UInt8) = [] :: b.splitOn 47 := by
    have happend := splitOn_append_cons_self (a := (47 : UInt8)) [] b
    rwa [nil_append, splitOn_nil] at happend
  rw [standard_append, standard_append, hsplit]
  rfl

theorem standard_trailing (a : List UInt8) : standard (a ++ [47]) = standard a := by
  rw [standard_append, splitOn_nil]
  rfl

/-- the three forms of an input -/
theorem input_cases (input : List UInt8) :
    (∃ p, input = 47 :: p) ∨ (∃ p, input = 126 :: p) ∨ input.head? ≠ some 47 ∧ input.head? ≠ some 126 := by
  cases input with
  | nil => exact .inr (.inr ⟨(Option.some_ne_none 47).symm, (Option.some_ne_none 126).symm⟩)
  | cons c p =>
    by_cases h47 : c = 47
    · exact .inl ⟨p, by rw [h47]⟩
    · by_cases h126 : c = 126
      · exact .inr (.inl ⟨p, by rw [h126]⟩)
      · exact .inr (.inr ⟨fun h => h47 (Option.some.inj h), fun h => h126 (Option.some.inj h)⟩)

/-- the text of a relative input -/
def joinRelative (cwd input : List UInt8) : List UInt8 :=
  let tmp := strcpyS cwd pathMax
  let tmp := if tmp.length < pathMax - 2 ∧ tmp.getLast? ≠ some 47 then tmp ++ [47] else tmp
  tmp ++ input.take (pathMax - 1 - tmp.length)

theorem relative_of_head (h47 : input.head? ≠ some 47) (h126 : input.head? ≠ some 126) (cwd : List UInt8) :
    joinPath cwd input = joinRelative cwd input ∧ joined cwd input = cwd ++ 47 :: input := by
  constructor
  · unfold joinPath
    split
    · exact absurd rfl h47
    · exact absurd rfl h126
    · rfl
  · unfold joined
    split
    · exact absurd rfl h47
    · exact absurd rfl h126
    · rfl

theorem standard_home (hlen : (joined cwd (126 :: p)).length ≤ 127) :
    standard (joinPath cwd (126 :: p)) = standard (joined cwd (126 :: p)) := by
  have hhome : (ascii "/home").length = 5 := rfl
  have hlen : (ascii "/home").length + (p.length + 1) ≤ 127 := by
    rw [joined, length_append] at hlen
    exact hlen
  rw [joined, joinPath]
  by_cases hp : p = []
  · rw [if_pos hp, hp, standard_trailing]
  · rw [if_neg hp]
    dsimp only
    by_cases hslash : p.head? = some 47
    · obtain ⟨q, rfl⟩ : ∃ q, p = 47 :: q := by
        cases p with
        | nil => cases hslash
        | cons c q => exact ⟨q, by rw [Option.some.inj hslash]⟩
      rw [if_neg (not_not.2 hslash), append_nil, take_of_length_le (by rw [hhome, pathMax]; omega),
        standard_slashes]
    · rw [if_pos hslash, take_of_length_le, append_assoc]
      · rfl
      · rw [length_append, hhome, pathMax, length_singleton]
        omega

theorem standard_relative (hlen : (cwd ++ 47 :: input).length ≤ 127) :
    standard (joinRelative cwd input) = standard (cwd ++ 47 :: input) := by
  rw [length_append, length_cons] at hlen
  have hcopy : strcpyS cwd pathMax = cwd := take_of_length_le (by rw [pathMax]; omega)
  unfold joinRelative
  dsimp only
  rw [hcopy]
  by_cases hlast : cwd.getLast? = some 47
  · -- the directory ends with a slash
    rw [if_neg fun hsep => hsep.2 hlast, take_of_length_le (by rw [pathMax]; omega)]
    obtain ⟨a, rfl⟩ := List.getLast?_eq_some_iff.1 hlast
    rw [append_assoc, append_assoc]
    exact (standard_slashes a input).symm
  · by_cases hshort : cwd.length < pathMax - 2
    · rw [if_pos ⟨hshort, hlast⟩, take_of_length_le, append_assoc]
      · rfl
      · rw [length_append, pathMax, length_singleton]
        omega
    · -- there is no room for anything behind the directory
      have hnil : input = [] := by
        rw [pathMax] at hshort
        apply eq_nil_of_length_eq_zero
        omega
      rw [if_neg fun hsep => hshort hsep.1, hnil, take_nil, append_nil, standard_trailing]

/-- the text `resolve_path` works on has the components of the text it should -/
theorem standard_joinPath (hlen : (joined cwd input).length ≤ 127) :
    standard (joinPath cwd input) = standard (joined cwd input) := by
  rcases input_cases input with ⟨p, rfl⟩ | ⟨p, rfl⟩ | ⟨h47, h126⟩
  · have hcopy : joinPath cwd (47 :: p) = 47 :: p := take_of_length_le hlen
    rw [hcopy]
    rfl
  · exact standard_home hlen
  · obtain ⟨hjoin, hjoined⟩ := relative_of_head h47 h126 cwd
    rw [hjoined] at hlen ⊢
    rw [hjoin]
    exact standard_relative hlen

/-- cut components are written as the uncut ones only if nothing was cut -/
theorem render_cut_iff (h : ∀ c ∈ cs, Proper c) :
    render (cs.map (List.take 63)) = render cs ↔ ∀ c ∈ cs, c.length ≤ 63 := by
  have hsame : (∀ c ∈ cs, c.length ≤ 63) ↔ cs.map (List.take 63) = cs := by
    constructor
    · intro hshort
      conv_rhs => rw [← map_id cs]
      exact map_congr_left fun c hc => take_of_length_le (hshort c hc)
    · intro hmap c hc
      rw [← hmap] at hc
      obtain ⟨d, -, rfl⟩ := List.mem_map.1 hc
      exact length_take_le 63 d
  rw [hsame]
  constructor
  · intro hrender
    by_cases hne : cs = []
    · subst hne
      rfl
    · have hcut : ∀ c ∈ cs.map (List.take 63), (47 : UInt8) ∉ c := by
        intro c hc
        obtain ⟨d, hd, rfl⟩ := List.mem_map.1 hc
        exact fun hmem => (h d hd).slash (mem_of_mem_take hmem)
      calc cs.map (List.take 63)
          = (render (cs.map (List.take 63))).tail.splitOn 47 := by
            exact (splitOn_intercalate 47 hcut (by simpa using hne)).symm
        _ = (render cs).tail.splitOn 47 := by rw [hrender]
        _ = cs := splitOn_render h hne
  · intro hmap
    rw [hmap]

/-- **When `resolve_path` is the usual resolution.** From a normalised directory, for every input whose joined text has at
most 127 characters: if and only if no component that is left has more than 63 characters. A normalised path resolves to
itself under the same condition. -/
theorem resolve_path_standard_iff {cwd input : List UInt8} (hcwd : NormalPath cwd)
    (hlen : (joined cwd input).length ≤ 127) :
    (resolvePath cwd input = render (standard (joined cwd input)) ↔
      ∀ c ∈ standard (joined cwd input), c.length ≤ 63) ∧
    (NormalPath input → (resolvePath cwd input = input ↔ ∀ c ∈ standard input, c.length ≤ 63)) := by
  have hiff : resolvePath cwd input = render (standard (joined cwd input)) ↔
      ∀ c ∈ standard (joined cwd input), c.length ≤ 63 := by
    rw [resolvePath_eq hcwd.absolute, resolved_eq (joinPath_joined hcwd.absolute input).absolute, standard_joinPath hlen]
    exact render_cut_iff (standard_proper _)
  refine ⟨hiff, fun hinput => ?_⟩
  have hjoined : joined cwd input = input := by
    cases input with
    | nil => cases hinput.absolute
    | cons c p =>
      obtain rfl : c = 47 := Option.some.inj hinput.absolute
      rfl
  rw [hjoined, render_standard hinput] at hiff
  exact hiff

theorem normalPath_root : NormalPath [47] := ⟨by decide, rfl, .inl rfl, .inl rfl⟩

theorem resolve_path_standard_home : (joined [47] (ascii "~/a/./../b")).length ≤ 127 ∧
    resolvePath [47] (ascii "~/a/./../b") = render (standard (joined [47] (ascii "~/a/./../b"))) := by
  have hlen : (joined [47] (ascii "~/a/./../b")).length ≤ 127 := by decide +kernel
  refine ⟨hlen, (resolve_path_standard_iff normalPath_root hlen).1.2 ?_⟩
  decide +kernel

/-- a slash and 64 characters -/
def longPath : List UInt8 := 47 :: List.replicate 64 97

/-- **A long component is cut.** A normalised path that the filesystem can store does not resolve to itself. -/
theorem long_component_cut : NormalPath longPath ∧ (joined [47] longPath).length ≤ 127 ∧
    resolvePath [47] longPath = 47 :: List.replicate 63 97 := by
  refine ⟨⟨by decide, rfl, .inr ?_, .inr ?_⟩, by decide, ?_⟩
  · decide +kernel
  · decide +kernel
  · decide +kernel

end GannetOS.Shell
