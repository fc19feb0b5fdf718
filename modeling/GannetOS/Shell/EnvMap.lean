/-
The environment table of `shell/shell.c` as a map from names to values.

`record` is the map, `call` the table under a sequence of `env_set` and `env_unset`. `env_set` cuts a name to 31 characters
when it stores it and compares it uncut when it looks for it, so what the table does with a name of 32 characters or more is
not what a map does.

- `Maps.call`: on names of at most 31 characters, a call does to the table what it does to the map, as long as there is an
  entry for every name that is set;
- `env_is_map_iff`: a sequence of calls with at most 32 names set at once keeps the laws of a map exactly if no name that is
  set in it is longer;
- `long_name_twice`: a name of 32 characters is set twice; both entries have the same name, and the variable has no value.
-/
import GannetOS.Shell.Env

namespace GannetOS.Shell

open GannetOS.Core List
open Function (update update_of_ne update_self)

/-! ## The table and the map -/

inductive EnvCall where
  | set (name val : CStr)
  | unset (name : CStr)

def EnvCall.name : EnvCall → List UInt8
  | set name _ => name.bytes
  | unset name => name.bytes

/-- the static table at boot -/
def emptyEnv : Env := fun _ => ⟨[], [], false⟩

def call (e : Env) : EnvCall → Unit × Env
  | .set name val => ((), envSet e name.bytes val.bytes)
  | .unset name => ((), envUnset e name.bytes)

/-- the table after some calls -/
def envAfter (calls : List EnvCall) : Env := runOps call emptyEnv calls

/-- what a call does to a map -/
def record (m : List UInt8 → Option (List UInt8)) : EnvCall → List UInt8 → Option (List UInt8)
  | .set name val => update m name.bytes (some (val.bytes.take (envValMax - 1)))
  | .unset name => update m name.bytes none

/-- the value last set for each name, unless it was unset since -/
def lastSet (calls : List EnvCall) : List UInt8 → Option (List UInt8) := calls.foldl record fun _ => none

/-- the names that are set -/
def liveNames (calls : List EnvCall) : Finset (List UInt8) :=
  calls.foldl (fun live c => match c with
    | .set name _ => insert name.bytes live
    | .unset name => live.erase name.bytes) ∅

/-- at most 32 names are ever set at once -/
def WithinTable (calls : List EnvCall) : Prop := ∀ pre, pre <+: calls → (liveNames pre).card ≤ envMaxVars

/-- no two entries in use have the same name -/
def NamesDiffer (e : Env) : Prop :=
  ∀ i j, (e i).used = true → (e j).used = true → (e i).name = (e j).name → i = j

/-- the laws of a map, at every point of a sequence of calls -/
structure MapLaws (calls : List EnvCall) : Prop where
  get : ∀ pre, pre <+: calls → ∀ n, envGet (envAfter pre) n = lastSet pre n
  frame : ∀ pre c, pre ++ [c] <+: calls → ∀ n, n ≠ c.name → envGet (envAfter (pre ++ [c])) n = envGet (envAfter pre) n
  differ : ∀ pre, pre <+: calls → NamesDiffer (envAfter pre)

theorem envAfter_snoc (calls : List EnvCall) (c : EnvCall) : envAfter (calls ++ [c]) = (call (envAfter calls) c).2 :=
  runOps_snoc call emptyEnv calls c

theorem lastSet_snoc (calls : List EnvCall) (c : EnvCall) : lastSet (calls ++ [c]) = record (lastSet calls) c := by
  rw [lastSet, foldl_append]
  rfl

theorem mem_liveNames (calls : List EnvCall) (n : List UInt8) : n ∈ liveNames calls ↔ lastSet calls n ≠ none := by
  induction calls using List.reverseRecOn with
  | nil => simp [liveNames, lastSet]
  | append_singleton calls c ih =>
    rw [lastSet_snoc, liveNames, foldl_append, ← liveNames]
    cases c with
    | set name val =>
      by_cases hn : n = name.bytes
      · simp [record, hn]
      · simp [record, hn, ih]
    | unset name =>
      by_cases hn : n = name.bytes
      · simp [record, hn]
      · simp [record, hn, ih]

/-! ## Looking a name up -/

section
variable {e : Env} {n v : List UInt8}

theorem envGet_eq_none : envGet e n = none ↔ ∀ i, (e i).used = true → (e i).name ≠ n := by
  rw [envGet, Option.map_eq_none_iff, envFind, firstFree_eq_none]
  apply forall_congr'
  intro i
  cases (e i).used <;> simp

/-- with different names, the entry that has the name is the one that is found -/
theorem NamesDiffer.get (h : NamesDiffer e) {i : Fin envMaxVars} (hused : (e i).used = true) (hname : (e i).name = n) :
    envFind e n = some i := by
  cases hf : envFind e n with
  | none =>
    have hnone : envGet e n = none := by rw [envGet, hf]; rfl
    exact absurd hname (envGet_eq_none.1 hnone i hused)
  | some j =>
    obtain ⟨hj, hjn⟩ := envFind_some hf
    rw [h i j hused hj (hname.trans hjn.symm)]

/-- the table is the map `m` -/
structure Maps (e : Env) (m : List UInt8 → Option (List UInt8)) : Prop where
  get : ∀ n, envGet e n = m n
  differ : NamesDiffer e

theorem maps_empty : Maps emptyEnv fun _ => none where
  get n := envGet_eq_none.2 fun i hi => by cases hi
  differ i j hi := by cases hi

/-- one entry changes; the others have other names -/
theorem NamesDiffer.update (h : NamesDiffer e) {i : Fin envMaxVars} {new : EnvEntry}
    (hnew : new.used = true → ∀ j, j ≠ i → (e j).used = true → (e j).name ≠ new.name) :
    NamesDiffer (update e i new) := by
  intro j k hj hk hname
  by_cases hji : j = i
  · by_cases hki : k = i
    · rw [hji, hki]
    · rw [hji, update_self] at hj hname
      rw [update_of_ne hki] at hk hname
      exact absurd hname.symm (hnew hj k hki hk)
  · rw [update_of_ne hji] at hj hname
    by_cases hki : k = i
    · rw [hki, update_self] at hk hname
      exact absurd hname (hnew hk j hji hj)
    · rw [update_of_ne hki] at hk hname
      exact h j k hj hk hname

/-- the entry that was just stored is found -/
theorem envGet_stored {i : Fin envMaxVars} {new : EnvEntry} (h : NamesDiffer (update e i new))
    (hused : new.used = true) : envGet (update e i new) new.name = some new.val := by
  have hfind : envFind (update e i new) new.name = some i := by
    apply h.get
    · rw [update_self]
      exact hused
    · rw [update_self]
  rw [envGet, hfind, Option.map_some, update_self]

end

/-! ## A call -/

section
variable {e : Env} {m : List UInt8 → Option (List UInt8)}

theorem Maps.unset (h : Maps e m) (name : CStr) : Maps (envUnset e name.bytes) (record m (.unset name)) := by
  have hdiffer : NamesDiffer (envUnset e name.bytes) := by
    unfold envUnset
    cases hf : envFind e name.bytes with
    | none => exact h.differ
    | some i => exact h.differ.update fun hused => by cases hused
  refine ⟨fun n => ?_, hdiffer⟩
  by_cases hn : n = name.bytes
  · subst hn
    rw [record, update_self, envGet_eq_none]
    intro j hj hname
    -- the entry that had the name is gone, and no other one had it
    unfold envUnset at hj hname
    cases hf : envFind e name.bytes with
    | none =>
      simp only [hf] at hj hname
      rw [h.differ.get hj hname] at hf
      cases hf
    | some i =>
      simp only [hf] at hj hname
      by_cases hji : j = i
      · rw [hji, update_self] at hj
        cases hj
      · rw [update_of_ne hji] at hj hname
        have hfind := h.differ.get hj hname
        rw [hf] at hfind
        exact hji (Option.some.inj hfind).symm
  · rw [record, update_of_ne hn, envGet_envUnset_of_ne (Ne.symm hn)]
    exact h.get n

/-- there is an entry for the name: its own or a free one -/
def HasEntry (e : Env) (name : List UInt8) : Prop := (envFind e name).isSome ∨ ∃ i, (e i).used = false

/-- what `env_set` stores, in which entry, when there is one -/
theorem envSet_stores {name : List UInt8} (hroom : HasEntry e name) (hshort : name.length ≤ envNameMax - 1)
    (val : List UInt8) :
    ∃ i, envSet e name val = update e i ⟨name, val.take (envValMax - 1), true⟩ ∧
      (envFind e name = some i ∨ envFind e name = none ∧ (e i).used = false) := by
  unfold envSet
  cases hf : envFind e name with
  | some i =>
    obtain ⟨hused, hname⟩ := envFind_some hf
    refine ⟨i, ?_, .inl rfl⟩
    rw [← hname, ← hused]
  | none =>
    obtain ⟨j, hj⟩ : ∃ j, (e j).used = false := hroom.resolve_left (by simp [hf])
    obtain ⟨i, hi⟩ : ∃ i, firstFree (fun i => (e i).used) = some i := exists_firstFree hj
    refine ⟨i, ?_, .inr ⟨rfl, firstFree_free hi⟩⟩
    rw [hi, take_of_length_le hshort]

theorem Maps.set (h : Maps e m) {name : CStr} (hroom : HasEntry e name.bytes)
    (hshort : name.bytes.length ≤ envNameMax - 1) (val : CStr) :
    Maps (envSet e name.bytes val.bytes) (record m (.set name val)) := by
  obtain ⟨i, hset, hi⟩ := envSet_stores hroom hshort val.bytes
  have hdiffer : NamesDiffer (envSet e name.bytes val.bytes) := by
    rw [hset]
    apply h.differ.update
    intro _ j hji hj hname
    have hfind := h.differ.get hj hname
    rcases hi with hi | ⟨hi, -⟩
    · rw [hi] at hfind
      exact hji (Option.some.inj hfind).symm
    · rw [hi] at hfind
      cases hfind
  refine ⟨fun n => ?_, hdiffer⟩
  by_cases hn : n = name.bytes
  · subst hn
    rw [hset] at hdiffer ⊢
    rw [record, update_self]
    exact envGet_stored hdiffer rfl
  · rw [record, update_of_ne hn, hset, ← h.get n]
    apply envGet_update
    · rintro ⟨hused, hname⟩
      rcases hi with hi | ⟨-, hfree⟩
      · exact hn (hname.symm.trans (envFind_some hi).2)
      · rw [hfree] at hused
        cases hused
    · exact fun hc => hn hc.2.symm

/-- a call on a short name does to the table what it does to the map -/
theorem Maps.call (h : Maps e m) (c : EnvCall)
    (hset : ∀ name val, c = .set name val → HasEntry e name.bytes ∧ name.bytes.length ≤ envNameMax - 1) :
    Maps (call e c).2 (record m c) := by
  cases c with
  | set name val =>
    obtain ⟨hroom, hshort⟩ := hset name val rfl
    exact h.set hroom hshort val
  | unset name => exact h.unset name

end

/-! ## Room in the table -/

/-- 32 entries with different names, and a name that none of them has: the map then has 33 names -/
theorem hasEntry_of_card {calls : List EnvCall} {name val : CStr} (h : Maps (envAfter calls) (lastSet calls))
    (hcard : (liveNames (calls ++ [.set name val])).card ≤ envMaxVars) : HasEntry (envAfter calls) name.bytes := by
  by_contra hno
  rw [HasEntry, not_or, not_exists, Option.not_isSome_iff_eq_none] at hno
  obtain ⟨hnone, hfull⟩ := hno
  have hused : ∀ i, (envAfter calls i).used = true := fun i => Bool.of_not_eq_false (hfull i)
  set names : Finset (List UInt8) := Finset.univ.image fun i => (envAfter calls i).name with hnames
  have hinj : Function.Injective fun i => (envAfter calls i).name :=
    fun i j hij => h.differ i j (hused i) (hused j) hij
  have hcount : names.card = envMaxVars := by
    rw [hnames, Finset.card_image_of_injective _ hinj, Finset.card_univ, Fintype.card_fin]
  have hnew : name.bytes ∉ names := by
    intro hmem
    obtain ⟨i, -, hi⟩ := Finset.mem_image.1 hmem
    rw [h.differ.get (hused i) hi] at hnone
    cases hnone
  have hsub : insert name.bytes names ⊆ liveNames (calls ++ [.set name val]) := by
    intro n hn
    rw [mem_liveNames, lastSet_snoc]
    by_cases hname : n = name.bytes
    · simp [record, hname]
    · obtain ⟨i, -, hi⟩ := Finset.mem_image.1 (Finset.mem_of_mem_insert_of_ne hn hname)
      rw [record, update_of_ne hname, ← h.get n]
      intro hget
      exact envGet_eq_none.1 hget i (hused i) hi
  have hle := (Finset.card_le_card hsub).trans hcard
  rw [Finset.card_insert_of_notMem hnew, hcount] at hle
  exact absurd hle (Nat.not_succ_le_self _)

/-- every sequence of calls on short names: the table is the map -/
theorem maps_of_short {calls : List EnvCall} (hfits : WithinTable calls)
    (hshort : ∀ name val, .set name val ∈ calls → name.bytes.length ≤ envNameMax - 1) :
    Maps (envAfter calls) (lastSet calls) := by
  induction calls using List.reverseRecOn with
  | nil => exact maps_empty
  | append_singleton calls c ih =>
    have hmaps : Maps (envAfter calls) (lastSet calls) := by
      apply ih
      · intro pre hpre
        exact hfits pre (hpre.trans (prefix_append _ _))
      · intro name val hmem
        exact hshort name val (mem_append_left _ hmem)
    rw [envAfter_snoc, lastSet_snoc]
    apply hmaps.call
    rintro name val rfl
    constructor
    · exact hasEntry_of_card hmaps (hfits _ prefix_rfl)
    · exact hshort name val (mem_append_right _ mem_cons_self)

/-- no entry ever has a name of more than 31 characters -/
theorem envAfter_names (calls : List EnvCall) (i : Fin envMaxVars) : (envAfter calls i).name.length ≤ envNameMax - 1 := by
  induction calls using List.reverseRecOn generalizing i with
  | nil => exact Nat.zero_le _
  | append_singleton calls c ih =>
    rw [envAfter_snoc]
    have hupdate : ∀ j new, new.name.length ≤ envNameMax - 1 →
        (update (envAfter calls) j new i).name.length ≤ envNameMax - 1 := by
      intro j new hnew
      by_cases hij : i = j
      · rwa [hij, update_self]
      · rw [update_of_ne hij]
        exact ih i
    cases c with
    | set name val =>
      show (envSet (envAfter calls) name.bytes val.bytes i).name.length ≤ _
      cases hf : envFind (envAfter calls) name.bytes with
      | some j =>
        simp only [envSet, hf]
        exact hupdate j _ (ih j)
      | none =>
        cases hfree : firstFree fun i => (envAfter calls i).used with
        | some j =>
          simp only [envSet, hf, hfree]
          exact hupdate j _ (length_take_le _ _)
        | none =>
          simp only [envSet, hf, hfree]
          exact ih i
    | unset name =>
      show (envUnset (envAfter calls) name.bytes i).name.length ≤ _
      cases hf : envFind (envAfter calls) name.bytes with
      | some j =>
        simp only [envUnset, hf]
        exact hupdate j _ (Nat.zero_le _)
      | none =>
        simp only [envUnset, hf]
        exact ih i

/-- **The environment is a map exactly on short names.** In a sequence of calls with at most 32 names set at once, every
variable has the first 127 characters of the value last set for it, no call changes another variable, and no two entries
have the same name, if and only if no name of more than 31 characters is set. -/
theorem env_is_map_iff (calls : List EnvCall) (hfits : WithinTable calls) :
    MapLaws calls ↔ ∀ name val, .set name val ∈ calls → name.bytes.length ≤ envNameMax - 1 := by
  constructor
  · intro hlaws name val hmem
    by_contra hlong
    obtain ⟨pre, post, rfl⟩ := append_of_mem hmem
    have hpre : pre ++ [.set name val] <+: pre ++ .set name val :: post := ⟨post, by simp⟩
    have hget := hlaws.get _ hpre name.bytes
    rw [lastSet_snoc, record, update_self] at hget
    have hnone : envGet (envAfter (pre ++ [.set name val])) name.bytes = none := by
      rw [envGet_eq_none]
      intro i _ hname
      apply hlong
      rw [← hname]
      exact envAfter_names _ i
    rw [hnone] at hget
    cases hget
  · intro hshort
    have hmaps : ∀ pre, pre <+: calls → Maps (envAfter pre) (lastSet pre) := by
      intro pre hpre
      apply maps_of_short
      · intro pre' hpre'
        exact hfits pre' (hpre'.trans hpre)
      · intro name val hmem
        exact hshort name val (hpre.subset hmem)
    refine ⟨fun pre hpre => (hmaps pre hpre).get, fun pre c hpre n hn => ?_, fun pre hpre => (hmaps pre hpre).differ⟩
    rw [(hmaps _ hpre).get, (hmaps pre ((prefix_append pre [c]).trans hpre)).get, lastSet_snoc]
    cases c with
    | set name val => exact update_of_ne hn _ _
    | unset name => exact update_of_ne hn _ _

theorem liveNames_card (calls : List EnvCall) : (liveNames calls).card ≤ calls.length := by
  induction calls using List.reverseRecOn with
  | nil => exact le_rfl
  | append_singleton calls c ih =>
    rw [liveNames, foldl_append, ← liveNames, length_append]
    cases c with
    | set name val => exact (Finset.card_insert_le _ _).trans (Nat.succ_le_succ ih)
    | unset name => exact (Finset.card_erase_le.trans ih).trans (Nat.le_succ _)

theorem withinTable_of_length {calls : List EnvCall} (h : calls.length ≤ envMaxVars) : WithinTable calls :=
  fun pre hpre => (liveNames_card pre).trans (hpre.length_le.trans h)

def nameA : CStr := ⟨[97], by decide⟩

def nameB : CStr := ⟨[98], by decide⟩

/-- a name is set twice and unset, with another one beside it -/
def shortCalls : List EnvCall := [.set nameA nameB, .set nameB nameB, .set nameA nameA, .unset nameA]

theorem env_is_map_short : WithinTable shortCalls ∧ MapLaws shortCalls := by
  have hfits : WithinTable shortCalls := withinTable_of_length (by decide)
  refine ⟨hfits, (env_is_map_iff shortCalls hfits).2 ?_⟩
  intro name val hmem
  simp only [shortCalls, mem_cons, EnvCall.set.injEq, reduceCtorEq, not_mem_nil, or_false] at hmem
  rcases hmem with ⟨rfl, -⟩ | ⟨rfl, -⟩ | ⟨rfl, -⟩
  · decide
  · decide
  · decide

/-- 32 characters -/
def longName : CStr := ⟨List.replicate 32 97, by decide⟩

def longCalls : List EnvCall := [.set longName nameA, .set longName nameB]

/-- **A long name is set twice.** Two entries are in use with the same name of 31 characters, and the variable has no
value. -/
theorem long_name_twice : WithinTable longCalls ∧
    (∃ i j, i ≠ j ∧ (envAfter longCalls i).used = true ∧ (envAfter longCalls j).used = true ∧
      (envAfter longCalls i).name = (envAfter longCalls j).name) ∧
    lastSet longCalls longName.bytes = some nameB.bytes ∧ envGet (envAfter longCalls) longName.bytes = none := by
  refine ⟨withinTable_of_length (by decide), ⟨⟨0, by decide⟩, ⟨1, by decide⟩, by decide, ?_, ?_, ?_⟩, ?_, ?_⟩
  all_goals decide +kernel

end GannetOS.Shell
