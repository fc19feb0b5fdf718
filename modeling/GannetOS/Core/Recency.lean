/-
A log of keyed entries, and a cache of fixed size that keeps the latest entries of the last keys.

The log lists the entries in the order they were made. The cache has one slot per element of `ι`; an entry is put into
the slot of its key, or into an empty slot, or over the entry of another key.
- `Cached.put`: if the entry's key is in no other slot, every slot still holds the latest entry of its key, and no key
  is in two slots.
- `Complete.put`: if what is overwritten was entered before everything else the cache holds, and the cache was full,
  then the cache still holds the last `card ι` keys of the log.
- `mem_after_of_stamp_lt`: in a log whose stamps do not decrease, an entry with a larger stamp comes later.
-/
import Mathlib

namespace GannetOS.Core

open List

open Function (update update_of_ne update_self)

variable {α κ ι τ : Type*}

/-- `e` is the last entry of its key -/
def Latest (key : α → κ) (log : List α) (e : α) : Prop :=
  ∃ before after, log = before ++ e :: after ∧ ∀ x ∈ after, key x ≠ key e

/-- `e` is the last entry of its key, and fewer than `n` keys have been entered since -/
def Recent [DecidableEq κ] (key : α → κ) (n : ℕ) (log : List α) (e : α) : Prop :=
  ∃ before after, log = before ++ e :: after ∧ (∀ x ∈ after, key x ≠ key e) ∧ (after.map key).toFinset.card < n

/-- every slot holds the latest entry of its key, no key is in two slots -/
structure Cached (key : α → κ) (slots : ι → Option α) (log : List α) : Prop where
  latest : ∀ i x, slots i = some x → Latest key log x
  distinct : ∀ i j x y, slots i = some x → slots j = some y → key x = key y → i = j

/-- the cache holds the last `card ι` keys of the log -/
def Complete [DecidableEq κ] [Fintype ι] (key : α → κ) (slots : ι → Option α) (log : List α) : Prop :=
  ∀ e, Recent key (Fintype.card ι) log e → ∃ i, slots i = some e

/-! ## The log -/

theorem Latest.mem {key : α → κ} {log : List α} {e : α} (h : Latest key log e) : e ∈ log := by
  obtain ⟨before, after, rfl, -⟩ := h
  simp

theorem latest_snoc (key : α → κ) (log : List α) (e : α) : Latest key (log ++ [e]) e :=
  ⟨log, [], rfl, by simp⟩

theorem Latest.snoc {key : α → κ} {log : List α} {e x : α} (h : Latest key log e) (hx : key x ≠ key e) :
    Latest key (log ++ [x]) e := by
  obtain ⟨before, after, rfl, hafter⟩ := h
  refine ⟨before, after ++ [x], by simp, fun y hy => ?_⟩
  rcases List.mem_append.1 hy with hy | hy
  · exact hafter y hy
  · rw [List.mem_singleton.1 hy]
    exact hx

/-- where the entry `e` of a longer log stands: it is the new one, or it was there before -/
theorem eq_append_cons_of_snoc {log before after : List α} {e x : α} (h : log ++ [x] = before ++ e :: after) :
    (e = x ∧ after = []) ∨ ∃ rest, after = rest ++ [x] ∧ log = before ++ e :: rest := by
  rcases eq_nil_or_concat after with rfl | ⟨rest, y, rfl⟩
  · exact .inl ⟨(append_inj' h rfl).2 |> List.cons.inj |>.1.symm, rfl⟩
  · obtain ⟨h₁, h₂⟩ := append_inj' (h.trans (by simp : _ = (before ++ e :: rest) ++ [y])) rfl
    exact .inr ⟨rest, by rw [(List.cons.inj h₂).1]; simp, h₁⟩

theorem mem_after_of_stamp_lt [LinearOrder τ] {stamp : α → τ} {log before after : List α} {e y : α}
    (hsorted : log.Pairwise fun a b => stamp a ≤ stamp b) (hlog : log = before ++ e :: after) (hy : y ∈ log)
    (hlt : stamp e < stamp y) : y ∈ after := by
  subst hlog
  rw [pairwise_append] at hsorted
  rcases List.mem_append.1 hy with hy | hy
  · exact absurd (hsorted.2.2 y hy e mem_cons_self) (not_le.2 hlt)
  · rcases List.mem_cons.1 hy with rfl | hy
    · exact absurd hlt (lt_irrefl _)
    · exact hy

/-! ## Putting an entry into a slot -/

variable [DecidableEq ι] {key : α → κ} {slots : ι → Option α} {log : List α} {e : α} {i : ι}

theorem Cached.put (h : Cached key slots log) (hown : ∀ j x, slots j = some x → key x = key e → j = i) :
    Cached key (update slots i (some e)) (log ++ [e]) where
  latest j x hj := by
    by_cases hji : j = i
    · subst hji
      rw [update_self, Option.some.injEq] at hj
      exact hj ▸ latest_snoc key log e
    · rw [update_of_ne hji] at hj
      exact (h.latest j x hj).snoc fun hk => hji (hown j x hj hk.symm)
  distinct j k x y hj hk hxy := by
    by_cases hji : j = i <;> by_cases hki : k = i
    · rw [hji, hki]
    · subst hji
      rw [update_self, Option.some.injEq] at hj
      rw [update_of_ne hki] at hk
      exact (hown k y hk (by rw [← hxy, ← hj])).symm
    · subst hki
      rw [update_self, Option.some.injEq] at hk
      rw [update_of_ne hji] at hj
      exact hown j x hj (by rw [hxy, ← hk])
    · rw [update_of_ne hji] at hj
      rw [update_of_ne hki] at hk
      exact h.distinct j k x y hj hk hxy

/-- the slots but `i` hold entries of `card ι - 1` keys; with a new key these are `card ι` -/
theorem card_le_of_others [DecidableEq κ] [Fintype ι] {after : List α} (h : Cached key slots log)
    (hothers : ∀ j, j ≠ i → ∃ y, slots j = some y ∧ key y ≠ key e ∧ y ∈ after) :
    Fintype.card ι ≤ ((after ++ [e]).map key).toFinset.card := by
  have : Nonempty α := ⟨e⟩
  choose! other hother using hothers
  let keys : ι → κ := fun j => if j = i then key e else key (other j)
  have hinj : Function.Injective keys := by
    intro j k hjk
    by_cases hj : j = i <;> by_cases hk : k = i
    · rw [hj, hk]
    · simp only [keys, hj, hk, if_true, if_false] at hjk
      exact absurd hjk.symm (hother k hk).2.1
    · simp only [keys, hj, hk, if_true, if_false] at hjk
      exact absurd hjk (hother j hj).2.1
    · simp only [keys, hj, hk, if_false] at hjk
      exact h.distinct j k _ _ (hother j hj).1 (hother k hk).1 hjk
  have hsub : Finset.univ.image keys ⊆ ((after ++ [e]).map key).toFinset := by
    intro k hk
    obtain ⟨j, -, rfl⟩ := Finset.mem_image.1 hk
    rw [mem_toFinset]
    by_cases hj : j = i
    · simp [keys, hj]
    · simp only [keys, hj, if_false]
      exact mem_map_of_mem (mem_append_left _ (hother j hj).2.2)
  calc Fintype.card ι = (Finset.univ.image keys).card := by
        rw [Finset.card_image_of_injective _ hinj, Finset.card_univ]
    _ ≤ _ := Finset.card_le_card hsub

/-- `hevict`: an entry of another key is overwritten only when every other slot holds an entry of a later time and not
of the new key -/
theorem Complete.put [DecidableEq κ] [Fintype ι] (h : Complete key slots log) (hc : Cached key slots log)
    (hevict : ∀ x, slots i = some x → key x ≠ key e → ∀ before after, log = before ++ x :: after →
      ∀ j, j ≠ i → ∃ y, slots j = some y ∧ key y ≠ key e ∧ y ∈ after) :
    Complete key (update slots i (some e)) (log ++ [e]) := by
  rintro x ⟨before, after, hlog, hafter, hcard⟩
  rcases eq_append_cons_of_snoc hlog with ⟨rfl, -⟩ | ⟨rest, rfl, hrest⟩
  · exact ⟨i, update_self ..⟩
  · have hmono : (rest.map key).toFinset.card ≤ ((rest ++ [e]).map key).toFinset.card :=
      Finset.card_le_card fun k hk => by
        rw [mem_toFinset] at hk ⊢
        rw [map_append]
        exact mem_append_left _ hk
    obtain ⟨j, hj⟩ := h x ⟨before, rest, hrest, fun y hy => hafter y (mem_append_left _ hy),
      lt_of_le_of_lt hmono hcard⟩
    by_cases hji : j = i
    · subst hji
      have hne : key x ≠ key e := (hafter e (by simp)).symm
      exact absurd hcard (not_lt.2 (card_le_of_others hc (hevict x hj hne before rest hrest)))
    · exact ⟨j, by rw [update_of_ne hji, hj]⟩

end GannetOS.Core
