/-
What `expand_vars` of `shell/shell.c` computes, and what it stores.

A text is read as a list of pieces (`pieces`): characters, and variables, which are a `$` with the longest identifier behind
it. `expand` replaces each variable by its value. The clock may tick between two variables of a text, so the value depends
on how many variables came before.

The code reads a name into a buffer of 32 bytes. Of a longer identifier it takes the first 31 characters as the name and
copies the others (`Piece.cut`).

- `expandVarsBuf_closed`: for every positive `dst_max`, the buffer gets the first `dst_max - 1` characters of the expansion
  of the cut pieces, and no store is outside it; `expandVars_eq` says the same of the model on texts;
- `expand_vars_iff`: so the expansion is the right one, in every environment and at every time, exactly if `dst_max` is
  positive and no identifier of 32 characters or more can be reached before the buffer is full.
-/
import GannetOS.Core.OutBuffer
import GannetOS.Shell.Text
import GannetOS.Shell.EnvMap

namespace GannetOS.Shell

open GannetOS.Core OutBuf Input List

/-! ## The variables -/

/-- what `rtc_read_raw` reads -/
structure RtcTime where
  hour : UInt8
  min : UInt8
  sec : UInt8

def rtcFormatTime (t : RtcTime) : List UInt8 :=
  [48 + t.hour / 10, 48 + t.hour % 10, 58, 48 + t.min / 10, 48 + t.min % 10, 58, 48 + t.sec / 10, 48 + t.sec % 10]

/-- `resolve_var` for variable number `i` of a text; a variable that is not set gives nothing -/
def lookup (env : Env) (clock : ℕ → RtcTime) (i : ℕ) (vname : List UInt8) : List UInt8 :=
  if vname = ascii "TIME" then rtcFormatTime (clock i) else (envGet env vname).getD []

/-- a name starts here -/
def startsName (p : List UInt8) : Bool := (p.head?.map isVarStart).getD false

/-! ## The function -/

/-- the loop of `expand_vars`, with `i` variables read; a negative limit lets nothing through, as 0 does -/
def expandRounds (val : ℕ → List UInt8 → List UInt8) (limit : ℕ) : ℕ → ℕ → List UInt8 → OutBuf → OutBuf
  | 0, _, _, dst => dst
  | _, _, [], dst => dst
  | fuel + 1, i, c :: p, dst =>
    if dst.pos < limit then
      if c = 36 ∧ startsName p then
        let vname := (p.takeWhile isVarBody).take (envNameMax - 1)
        expandRounds val limit fuel (i + 1) (p.drop vname.length) (dst.fill limit (val i vname))
      else expandRounds val limit fuel i p (dst.push c)
    else dst

def expandVarsBuf (env : Env) (clock : ℕ → RtcTime) (src : List UInt8) (dstMax : BitVec 32) (mem : ℕ → UInt8) : OutBuf :=
  (expandRounds (lookup env clock) (dstMax - 1).toInt.toNat src.length 0 src (fresh mem)).close

/-! ## Texts as pieces -/

inductive Piece
  | lit (c : UInt8)
  | var (name : List UInt8)

theorem length_dropWhile_lt (p : List UInt8) (c : UInt8) : (p.dropWhile isVarBody).length < (c :: p).length :=
  Nat.lt_succ_of_le (dropWhile_suffix isVarBody).length_le

def pieces : List UInt8 → List Piece
  | [] => []
  | c :: p =>
    if c = 36 ∧ startsName p then .var (p.takeWhile isVarBody) :: pieces (p.dropWhile isVarBody)
    else .lit c :: pieces p
termination_by p => p.length
decreasing_by
  · exact length_dropWhile_lt p c
  · exact Nat.lt_succ_self _

/-- the pieces with their values; `i` variables came before -/
def expand (val : ℕ → List UInt8 → List UInt8) : ℕ → List Piece → List UInt8
  | _, [] => []
  | i, .lit c :: ps => c :: expand val i ps
  | i, .var name :: ps => val i name ++ expand val (i + 1) ps

/-- what the code makes of a piece -/
def Piece.cut : Piece → List Piece
  | .lit c => [.lit c]
  | .var name => .var (name.take (envNameMax - 1)) :: (name.drop (envNameMax - 1)).map .lit

/-- what a piece gives at least: the clock has 8 characters, and every other variable may be empty -/
def Piece.least : Piece → ℕ
  | .lit _ => 1
  | .var name => if name = ascii "TIME" then 8 else 0

/-- behind these pieces comes an identifier of 32 characters or more -/
def LongBehind (ps pre : List Piece) : Prop := ∃ name post, ps = pre ++ Piece.var name :: post ∧ envNameMax ≤ name.length

def Piece.isVar : Piece → Bool
  | .lit _ => false
  | .var _ => true

theorem expand_append (val : ℕ → List UInt8 → List UInt8) (i : ℕ) (ps qs : List Piece) :
    expand val i (ps ++ qs) = expand val i ps ++ expand val (i + ps.countP Piece.isVar) qs := by
  induction ps generalizing i with
  | nil => rfl
  | cons a ps ih =>
    cases a with
    | lit c =>
      rw [cons_append, expand, expand, ih, countP_cons_of_neg (by exact Bool.false_ne_true)]
      rfl
    | var name =>
      rw [cons_append, expand, expand, ih, countP_cons_of_pos (by exact rfl), append_assoc,
        Nat.add_assoc, Nat.add_comm 1]

theorem expand_lits (val : ℕ → List UInt8 → List UInt8) (i : ℕ) (l : List UInt8) (ps : List Piece) :
    expand val i (l.map .lit ++ ps) = l ++ expand val i ps := by
  induction l with
  | nil => rfl
  | cons c l ih => exact congrArg (c :: ·) ih

/-! ## The pieces the code reads -/

/-- the pieces of a text as the loop takes them off -/
inductive Reads : List UInt8 → List Piece → Prop
  | nil : Reads [] []
  | var {p : List UInt8} {ps : List Piece} (hp : startsName p = true)
      (h : Reads (p.drop ((p.takeWhile isVarBody).take (envNameMax - 1)).length) ps) :
      Reads (36 :: p) (.var ((p.takeWhile isVarBody).take (envNameMax - 1)) :: ps)
  | lit {c : UInt8} {p : List UInt8} {ps : List Piece} (hc : ¬ (c = 36 ∧ startsName p = true)) (h : Reads p ps) :
      Reads (c :: p) (.lit c :: ps)

variable {p : List UInt8} {ps pre : List Piece} {n : ℕ}

/-- the characters of a name that are left over are copied -/
theorem Reads.lits (h : Reads p ps) {l : List UInt8} (hl : ∀ c ∈ l, isVarBody c = true) :
    Reads (l ++ p) (l.map .lit ++ ps) := by
  induction l with
  | nil => exact h
  | cons c l ih =>
    refine .lit ?_ (ih fun d hd => hl d (mem_cons_of_mem c hd))
    rintro ⟨rfl, -⟩
    exact absurd (hl 36 mem_cons_self) (by decide)

theorem drop_take_length (a b : List UInt8) (n : ℕ) : (a ++ b).drop (a.take n).length = a.drop n ++ b := by
  have hlen : (a.take n).length ≤ a.length := (List.take_prefix n a).length_le
  have hdrop : a.drop (a.take n).length = a.drop n := by
    rw [length_take]
    rcases Nat.le_total n a.length with hle | hle
    · rw [min_eq_left hle]
    · rw [min_eq_right hle, drop_length, drop_eq_nil_of_le hle]
  rw [drop_append_of_le_length hlen, hdrop]

theorem reads_pieces (p : List UInt8) : Reads p ((pieces p).flatMap Piece.cut) := by
  induction p using pieces.induct with
  | case1 =>
    rw [pieces]
    exact .nil
  | case2 c p hvar ih =>
    obtain ⟨rfl, hstart⟩ := hvar
    rw [pieces, if_pos ⟨rfl, hstart⟩, flatMap_cons]
    refine .var hstart ?_
    -- behind the 31 characters come the others of the name, and what is behind the name
    have hrest := drop_take_length (p.takeWhile isVarBody) (p.dropWhile isVarBody) (envNameMax - 1)
    rw [takeWhile_append_dropWhile] at hrest
    rw [hrest]
    exact ih.lits fun d hd => mem_takeWhile_imp (mem_of_mem_drop hd)
  | case3 c p hlit ih =>
    rw [pieces, if_neg hlit, flatMap_cons]
    exact .lit hlit ih

/-- **The loop expands the pieces it reads**, as far as there is room. -/
theorem expandRounds_holds (val : ℕ → List UInt8 → List UInt8) {limit size : ℕ} (hlimit : limit ≤ size)
    (hps : Reads p ps) {dst : OutBuf} {l : List UInt8} (h : dst.Holds size l) {fuel : ℕ} (hfuel : p.length ≤ fuel)
    (i : ℕ) :
    (expandRounds val limit fuel i p dst).Holds size (l ++ (expand val i ps).take (limit - l.length)) := by
  induction hps generalizing dst l fuel i with
  | nil =>
    have hstop : expandRounds val limit fuel i [] dst = dst := by
      cases fuel with
      | zero => rfl
      | succ fuel => rfl
    rw [hstop, expand, take_nil, append_nil]
    exact h
  | @var p ps hp _ ih =>
    obtain ⟨fuel, rfl⟩ := Nat.exists_eq_add_of_lt (Nat.lt_of_lt_of_le (Nat.succ_pos p.length) hfuel)
    rw [Nat.zero_add, length_cons] at hfuel
    rw [Nat.zero_add, expandRounds, h.pos, expand]
    by_cases hroom : l.length < limit
    · rw [if_pos hroom, if_pos ⟨rfl, hp⟩]
      dsimp only
      set vname := (p.takeWhile isVarBody).take (envNameMax - 1)
      have hdrop : (p.drop vname.length).length ≤ fuel := by
        rw [length_drop]
        omega
      have hrest := ih (h.fill hlimit (val i vname)) hdrop (i + 1)
      have hleft : limit - (l ++ (val i vname).take (limit - l.length)).length =
          limit - l.length - (val i vname).length := by
        rw [length_append, length_take]
        omega
      rw [hleft, append_assoc, ← take_append] at hrest
      exact hrest
    · rw [if_neg hroom, Nat.sub_eq_zero_of_le (not_lt.1 hroom), take_zero, append_nil]
      exact h
  | @lit c p ps hc _ ih =>
    obtain ⟨fuel, rfl⟩ := Nat.exists_eq_add_of_lt (Nat.lt_of_lt_of_le (Nat.succ_pos p.length) hfuel)
    rw [Nat.zero_add, length_cons] at hfuel
    rw [Nat.zero_add, expandRounds, h.pos, expand]
    by_cases hroom : l.length < limit
    · rw [if_pos hroom, if_neg hc]
      have hrest := ih (h.push (hroom.trans_le hlimit) c) (Nat.le_of_succ_le_succ hfuel) i
      have hleft : limit - l.length = limit - (l ++ [c]).length + 1 := by
        rw [length_append, length_singleton]
        omega
      rw [append_assoc] at hrest
      rw [hleft, take_succ_cons]
      exact hrest
    · rw [if_neg hroom, Nat.sub_eq_zero_of_le (not_lt.1 hroom), take_zero, append_nil]
      exact h

/-- what the buffer gets -/
theorem expandVarsBuf_closed (env : Env) (clock : ℕ → RtcTime) (src : List UInt8) {dstMax : BitVec 32}
    (hmax : 0 < dstMax.toInt) (mem : ℕ → UInt8) :
    Closed (expandVarsBuf env clock src dstMax mem) dstMax.toInt.toNat
      ((expand (lookup env clock) 0 ((pieces src).flatMap Piece.cut)).take (dstMax.toInt.toNat - 1)) := by
  have hlimit : (dstMax - 1).toInt.toNat = dstMax.toInt.toNat - 1 := by
    have hlt := dstMax.toInt_lt
    rw [BitVec.toInt_sub]
    have hone : (1 : BitVec 32).toInt = 1 := rfl
    rw [hone, Int.bmod_eq_of_le (by omega) (by omega)]
    omega
  have hloop := expandRounds_holds (lookup env clock) (Nat.sub_le dstMax.toInt.toNat 1) (reads_pieces src)
    (holds_fresh mem dstMax.toInt.toNat) le_rfl 0
  rw [nil_append, length_nil, Nat.sub_zero] at hloop
  unfold expandVarsBuf
  rw [hlimit]
  apply hloop.closed
  have hcut := length_take_le (dstMax.toInt.toNat - 1)
    (expand (lookup env clock) 0 ((pieces src).flatMap Piece.cut))
  omega

/-- the model on texts is the same expansion -/
theorem expandVars_eq (val : ℕ → List UInt8 → Option (List UInt8)) (src : List UInt8) (dstMax : ℕ) :
    expandVars val src dstMax =
      (expand (fun i name => (val i name).getD []) 0 ((pieces src).flatMap Piece.cut)).take (dstMax - 1) := by
  have hloop : ∀ {p : List UInt8} {ps : List Piece}, Reads p ps → ∀ (fuel i room : ℕ), p.length ≤ fuel →
      expandLoop val fuel i p room = (expand (fun i name => (val i name).getD []) i ps).take room := by
    intro p ps hps
    induction hps with
    | nil =>
      intro fuel i room _
      cases fuel with
      | zero => exact List.take_nil.symm
      | succ fuel => exact List.take_nil.symm
    | @var p ps hp _ ih =>
      intro fuel i room hfuel
      cases fuel with
      | zero => exact absurd hfuel (Nat.not_succ_le_zero _)
      | succ fuel =>
        rw [length_cons] at hfuel
        rw [expandLoop, expand]
        by_cases hroom : room = 0
        · rw [if_pos hroom, hroom, take_zero]
        · rw [if_neg hroom, if_pos ⟨rfl, hp⟩, take_append]
          dsimp only
          rw [ih fuel (i + 1) _ (by rw [length_drop]; omega), length_take]
          congr 2
          omega
    | @lit c p ps hc _ ih =>
      intro fuel i room hfuel
      cases fuel with
      | zero => exact absurd hfuel (Nat.not_succ_le_zero _)
      | succ fuel =>
        cases room with
        | zero => exact List.take_zero.symm
        | succ room =>
          rw [expandLoop, if_neg (Nat.succ_ne_zero room), ← startsName, if_neg hc, expand, take_succ_cons,
            ih fuel i _ (Nat.le_of_succ_le_succ hfuel)]
          rfl
  exact hloop (reads_pieces src) src.length 0 (dstMax - 1) le_rfl

/-! ## Long identifiers -/

theorem LongBehind.cons (h : LongBehind ps pre) (a : Piece) : LongBehind (a :: ps) (a :: pre) := by
  obtain ⟨name, post, rfl, hlong⟩ := h
  exact ⟨name, post, rfl, hlong⟩

theorem cut_of_short {name : List UInt8} (h : name.length < envNameMax) : Piece.cut (.var name) = [.var name] := by
  have hle : name.length ≤ envNameMax - 1 := Nat.le_sub_one_of_lt h
  rw [Piece.cut, take_of_length_le hle, drop_eq_nil_of_le hle]
  rfl

theorem flatMap_cut_of_short (h : ∀ name, Piece.var name ∈ ps → name.length < envNameMax) :
    ps.flatMap Piece.cut = ps := by
  induction ps with
  | nil => rfl
  | cons a ps ih =>
    rw [flatMap_cons, ih fun name hmem => h name (mem_cons_of_mem a hmem)]
    cases a with
    | lit c => rfl
    | var name =>
      rw [cut_of_short (h name mem_cons_self)]
      rfl

/-- the cut pieces give the same text up to the first long identifier -/
theorem take_expand_cut (val : ℕ → List UInt8 → List UInt8) {i : ℕ}
    (h : ∀ pre, LongBehind ps pre → n ≤ (expand val i pre).length) :
    (expand val i (ps.flatMap Piece.cut)).take n = (expand val i ps).take n := by
  induction ps generalizing i n with
  | nil => rfl
  | cons a ps ih =>
    cases a with
    | lit c =>
      rw [flatMap_cons]
      cases n with
      | zero => rw [take_zero, take_zero]
      | succ n =>
        refine congrArg (c :: ·) (ih fun pre hlong => ?_)
        exact Nat.le_of_succ_le_succ (h (.lit c :: pre) (hlong.cons _))
    | var name =>
      by_cases hlong : envNameMax ≤ name.length
      · have hn := h [] ⟨name, ps, rfl, hlong⟩
        rw [Nat.le_zero.1 hn, take_zero, take_zero]
      · rw [flatMap_cons, cut_of_short (not_le.1 hlong), singleton_append, expand, expand, take_append,
          take_append, ih fun pre hlong' => ?_]
        have hlen := h (.var name :: pre) (hlong'.cons _)
        rw [expand, length_append] at hlen
        exact Nat.sub_le_of_le_add (hlen.trans_eq (Nat.add_comm _ _))

theorem least_le_expand (env : Env) (clock : ℕ → RtcTime) (i : ℕ) (ps : List Piece) :
    (ps.map Piece.least).sum ≤ (expand (lookup env clock) i ps).length := by
  induction ps generalizing i with
  | nil => exact le_rfl
  | cons a ps ih =>
    rw [map_cons, sum_cons]
    cases a with
    | lit c =>
      rw [expand, length_cons, Piece.least, Nat.add_comm]
      exact Nat.succ_le_succ (ih i)
    | var name =>
      rw [expand, length_append]
      refine Nat.add_le_add ?_ (ih (i + 1))
      unfold Piece.least lookup
      dsimp only
      split_ifs
      · exact le_rfl
      · exact Nat.zero_le _

/-- with no variable set and the clock standing still, the text is as short as it can be -/
theorem lookup_empty (t : RtcTime) (i : ℕ) (name : List UInt8) :
    lookup emptyEnv (fun _ => t) i name = if name = ascii "TIME" then rtcFormatTime t else [] := by
  unfold lookup
  rw [maps_empty.get name]
  rfl

theorem length_expand_empty (t : RtcTime) (i : ℕ) (ps : List Piece) :
    (expand (lookup emptyEnv fun _ => t) i ps).length = (ps.map Piece.least).sum := by
  induction ps generalizing i with
  | nil => rfl
  | cons a ps ih =>
    rw [map_cons, sum_cons]
    cases a with
    | lit c => rw [expand, length_cons, Piece.least, Nat.add_comm, ih]
    | var name =>
      rw [expand, length_append, lookup_empty, Piece.least, ih]
      split_ifs
      · rfl
      · rfl

/-- what is behind a variable does not go on with its name -/
theorem pieces_split {post : List Piece} {name : List UInt8} (h : pieces p = pre ++ Piece.var name :: post) :
    (∀ c ∈ name, isVarBody c = true) ∧ ∃ q, post = pieces q ∧ ∀ c, q.head? = some c → isVarBody c = false := by
  induction p using pieces.induct generalizing pre with
  | case1 =>
    rw [pieces] at h
    exact absurd h.symm (by simp)
  | case2 c p hvar ih =>
    rw [pieces, if_pos hvar] at h
    cases pre with
    | nil =>
      obtain ⟨hname, rfl⟩ := List.cons.inj h
      obtain rfl := Piece.var.inj hname
      refine ⟨fun d hd => mem_takeWhile_imp hd, p.dropWhile isVarBody, rfl, fun d hd => ?_⟩
      have hstop := head?_dropWhile_not isVarBody p
      rw [hd] at hstop
      exact hstop
    | cons a pre => exact ih (List.cons.inj h).2
  | case3 c p hlit ih =>
    rw [pieces, if_neg hlit] at h
    cases pre with
    | nil => cases (List.cons.inj h).1
    | cons a pre => exact ih (List.cons.inj h).2

/-- with no variable set, what is behind a name starts with the clock or with a character that is in no name -/
theorem head_expand_empty {q : List UInt8} (hq : ∀ c, q.head? = some c → isVarBody c = false) (t : RtcTime) (i : ℕ)
    {c : UInt8} (hc : (expand (lookup emptyEnv fun _ => t) i (pieces q)).head? = some c) :
    isVarBody c = false ∨ c = 48 + t.hour / 10 := by
  induction q using pieces.induct generalizing i with
  | case1 =>
    rw [pieces] at hc
    cases hc
  | case2 d p hvar ih =>
    rw [pieces, if_pos hvar, expand, lookup_empty] at hc
    split_ifs at hc
    · exact .inr (Option.some.inj hc).symm
    · refine ih (fun e he => ?_) (i + 1) hc
      have hstop := head?_dropWhile_not isVarBody p
      rw [he] at hstop
      exact hstop
  | case3 d p hlit ih =>
    rw [pieces, if_neg hlit, expand] at hc
    obtain rfl := Option.some.inj hc
    exact .inl (hq d rfl)

/-- a long identifier that can be reached, and no other in front of it -/
theorem first_long (h : LongBehind ps pre) (hn : (pre.map Piece.least).sum < n) :
    ∃ pre', LongBehind ps pre' ∧ (pre'.map Piece.least).sum < n ∧
      ∀ name, Piece.var name ∈ pre' → name.length < envNameMax := by
  induction hk : pre.length using Nat.strong_induction_on generalizing pre with
  | _ k ih =>
    by_cases hshort : ∀ name, Piece.var name ∈ pre → name.length < envNameMax
    · exact ⟨pre, h, hn, hshort⟩
    · push Not at hshort
      obtain ⟨m, hmem, hm⟩ := hshort
      obtain ⟨pre₁, pre₂, rfl⟩ := append_of_mem hmem
      obtain ⟨name, post, hps, -⟩ := h
      rw [map_append, sum_append] at hn
      rw [length_append, length_cons] at hk
      rw [append_assoc, cons_append] at hps
      exact ih pre₁.length (by omega) ⟨m, _, hps, hm⟩ (by omega) rfl

/-- a long identifier that can be reached goes wrong, with no variable set and at some time -/
theorem expand_cut_ne {src : List UInt8} (h : LongBehind (pieces src) pre) (hn : (pre.map Piece.least).sum < n) :
    ∃ t, (expand (lookup emptyEnv fun _ => t) 0 ((pieces src).flatMap Piece.cut)).take n ≠
      (expand (lookup emptyEnv fun _ => t) 0 (pieces src)).take n := by
  obtain ⟨pre, ⟨name, post, h, hlong⟩, hn, hshort⟩ := first_long h hn
  obtain ⟨hbody, q, rfl, hq⟩ := pieces_split h
  -- the first character of the name that is copied
  obtain ⟨x, rest, hrest⟩ : ∃ x rest, name.drop (envNameMax - 1) = x :: rest := by
    cases hd : name.drop (envNameMax - 1) with
    | nil =>
      have hle := List.drop_eq_nil_iff.1 hd
      rw [envNameMax] at hle hlong
      omega
    | cons x rest => exact ⟨x, rest, rfl⟩
  have hx : isVarBody x = true := by
    apply hbody
    apply mem_of_mem_drop
    rw [hrest]
    exact mem_cons_self
  obtain ⟨t, ht⟩ : ∃ t : RtcTime, x ≠ 48 + t.hour / 10 := by
    by_cases h48 : x = 48
    · exact ⟨⟨10, 0, 0⟩, by rw [h48]; decide⟩
    · exact ⟨⟨0, 0, 0⟩, h48⟩
  refine ⟨t, fun heq => ?_⟩
  have hname : ∀ i (m : List UInt8), envNameMax - 1 ≤ m.length → lookup emptyEnv (fun _ => t) i m = [] := by
    intro i m hm
    rw [lookup_empty, if_neg]
    rintro rfl
    exact absurd hm (by decide)
  have hpre := flatMap_cut_of_short hshort
  have hlen := length_expand_empty t 0 pre
  have hcode : (expand (lookup emptyEnv fun _ => t) 0 ((pieces src).flatMap Piece.cut))[(pre.map Piece.least).sum]? =
      some x := by
    rw [h, flatMap_append, hpre, expand_append, flatMap_cons, Piece.cut, cons_append, expand, hname,
      nil_append, expand_lits, hrest, getElem?_append_right hlen.le, hlen, Nat.sub_self]
    · rfl
    · rw [length_take, min_eq_left (by omega)]
  have hspec : (expand (lookup emptyEnv fun _ => t) 0 (pieces src))[(pre.map Piece.least).sum]? =
      (expand (lookup emptyEnv fun _ => t) (pre.countP Piece.isVar + 1) (pieces q)).head? := by
    rw [h, expand_append, expand, hname _ _ (by omega), nil_append, getElem?_append_right hlen.le, hlen,
      Nat.sub_self, Nat.zero_add, head?_eq_getElem?]
  have hget := congrArg (·[(pre.map Piece.least).sum]?) heq
  rw [getElem?_take_of_lt hn, getElem?_take_of_lt hn, hcode, hspec] at hget
  rcases head_expand_empty hq t _ hget.symm with hno | hclock
  · rw [hx] at hno
    cases hno
  · exact ht hclock

/-! ## When the expansion is right -/

/-- the buffer holds the first `dst_max - 1` characters of the expansion and a NUL, and nothing was stored outside of it -/
def Expands (env : Env) (clock : ℕ → RtcTime) (src : CStr) (dstMax : BitVec 32) : Prop :=
  ∀ mem, Closed (expandVarsBuf env clock src.bytes dstMax mem) dstMax.toInt.toNat
    ((expand (lookup env clock) 0 (pieces src.bytes)).take (dstMax.toInt.toNat - 1))

/-- in a run that reaches no long identifier, the expansion is right -/
theorem expands_of_short {env : Env} {clock : ℕ → RtcTime} {src : CStr} {dstMax : BitVec 32} (hmax : 0 < dstMax.toInt)
    (h : ∀ pre, LongBehind (pieces src.bytes) pre → dstMax.toInt.toNat - 1 ≤ (expand (lookup env clock) 0 pre).length) :
    Expands env clock src dstMax := by
  intro mem
  rw [← take_expand_cut (lookup env clock) h]
  exact expandVarsBuf_closed env clock src.bytes hmax mem

/-- **When `expand_vars` is right.** For every source and `dst_max`: in every environment and at all times, if and only if
`dst_max` is positive and no identifier of 32 characters or more can be reached, with nothing but characters and clocks in
front of it, before `dst_max - 1` characters are out. In a given environment, it is enough that the run reaches none. -/
theorem expand_vars_iff (src : CStr) (dstMax : BitVec 32) :
    ((∀ env clock, Expands env clock src dstMax) ↔ 0 < dstMax.toInt ∧
      ∀ pre, LongBehind (pieces src.bytes) pre → dstMax.toInt.toNat - 1 ≤ (pre.map Piece.least).sum) ∧
    ∀ env clock, 0 < dstMax.toInt →
      (∀ pre, LongBehind (pieces src.bytes) pre → dstMax.toInt.toNat - 1 ≤ (expand (lookup env clock) 0 pre).length) →
      Expands env clock src dstMax := by
  refine ⟨⟨fun hall => ?_, ?_⟩, fun env clock hmax h => expands_of_short hmax h⟩
  · have hmax : 0 < dstMax.toInt := by
      have hroom := (hall emptyEnv (fun _ => ⟨0, 0, 0⟩) fun _ => 0).room
      omega
    refine ⟨hmax, fun pre hlong => ?_⟩
    by_contra hreach
    obtain ⟨t, ht⟩ := expand_cut_ne hlong (not_le.1 hreach)
    exact ht ((expandVarsBuf_closed emptyEnv _ src.bytes hmax fun _ => 0).unique (hall emptyEnv (fun _ => t) fun _ => 0))
  · rintro ⟨hmax, h⟩ env clock
    exact expands_of_short hmax fun pre hlong => (h pre hlong).trans (least_le_expand env clock 0 pre)

/-- `x$B` -/
def shortVar : CStr := ⟨[120, 36, 66], by decide⟩

theorem expand_vars_short : 0 < (4 : BitVec 32).toInt ∧ ∀ env clock, Expands env clock shortVar 4 := by
  have hpieces : pieces shortVar.bytes = [.lit 120, .var [66]] := by
    rw [shortVar, pieces, if_neg (by decide), pieces, if_pos (by decide), dropWhile_cons_of_pos (by decide),
      dropWhile_nil, pieces]
    rfl
  refine ⟨by decide, (expand_vars_iff shortVar 4).1.2 ⟨by decide, ?_⟩⟩
  rintro pre ⟨name, post, heq, hlong⟩
  have hmem : Piece.var name ∈ pieces shortVar.bytes := by
    rw [heq]
    exact mem_append_right _ mem_cons_self
  rw [hpieces] at hmem
  obtain rfl : name = [66] := by simpa using hmem
  exact absurd hlong (by decide)

/-- a `$` and 32 letters -/
def longVar : CStr := ⟨36 :: List.replicate 32 97, by decide⟩

theorem pieces_longVar : pieces longVar.bytes = [.var (List.replicate 32 97)] := by
  have htake : (List.replicate 32 97).takeWhile isVarBody = List.replicate 32 97 := by decide
  have hdrop : (List.replicate 32 97).dropWhile isVarBody = [] := by decide
  rw [longVar, pieces, if_pos (by decide), htake, hdrop, pieces]

/-- **A long identifier is read as a shorter one.** With no variable set, the text `$aa…a` with 32 letters expands to
nothing; the buffer gets an `a`. -/
theorem long_identifier_cut :
    expand (lookup emptyEnv fun _ => ⟨0, 0, 0⟩) 0 (pieces longVar.bytes) = [] ∧
    ∀ mem, Closed (expandVarsBuf emptyEnv (fun _ => ⟨0, 0, 0⟩) longVar.bytes 256 mem) 256 [97] := by
  have hcut : expand (lookup emptyEnv fun _ => ⟨0, 0, 0⟩) 0 ([.var (List.replicate 32 97)].flatMap Piece.cut) = [97] := by
    rw [flatMap_singleton, Piece.cut, expand, lookup_empty, if_neg (by decide)]
    rfl
  constructor
  · rw [pieces_longVar, expand, lookup_empty, if_neg (by decide)]
    rfl
  · intro mem
    have hclosed := expandVarsBuf_closed emptyEnv (fun _ => ⟨0, 0, 0⟩) longVar.bytes
      (show 0 < (256 : BitVec 32).toInt by decide) mem
    rw [pieces_longVar, hcut] at hclosed
    exact hclosed

end GannetOS.Shell
