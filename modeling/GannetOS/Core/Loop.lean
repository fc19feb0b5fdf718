/-
Counting loops: rules for what holds when the counter has reached its end.

`foldl_range` is the invariant rule of a loop from 0 to a number that is known before. `forUp` is the C loop over `uint32_t`
with a stop and a limit; its rule `forUp_eq` gives the state for every value of the counter, and needs no more rounds than the
limit, so that the loop always ends.
-/
import Mathlib

namespace GannetOS.Core

variable {σ : Type*}

/-- The invariant rule of a loop that is a fold over the first `n` numbers. -/
theorem foldl_range {I : ℕ → σ → Prop} {f : σ → ℕ → σ} {s : σ} {n : ℕ} (h0 : I 0 s)
    (hstep : ∀ k s, k < n → I k s → I (k + 1) (f s k)) : I n ((List.range n).foldl f s) := by
  induction n with
  | zero => exact h0
  | succ n ih =>
    rw [List.range_succ, List.foldl_append]
    exact hstep n _ (Nat.lt_succ_self n) (ih fun k s hk => hstep k s (hk.trans (Nat.lt_succ_self n)))

variable {stop limit : UInt32} {body : UInt32 → σ → σ}

/-- `for (uint32_t i = a; i < stop && i < limit; i++)`, for at most `fuel` rounds -/
def forUp (stop limit : UInt32) (body : UInt32 → σ → σ) : ℕ → UInt32 → σ → σ
  | 0, _, s => s
  | fuel + 1, i, s => if i < stop ∧ i < limit then forUp stop limit body fuel (i + 1) (body i s) else s

/-- The loop rule: `g n` is the state when the counter is at `n`. As many rounds as `limit` are always enough. -/
theorem forUp_eq (g : ℕ → σ) {a : UInt32} {s : σ} {fuel : ℕ} (hfuel : limit.toNat - a.toNat ≤ fuel) (hs : s = g a.toNat)
    (hstep : ∀ i : UInt32, a.toNat ≤ i.toNat → i.toNat < stop.toNat → i.toNat < limit.toNat →
      body i (g i.toNat) = g (i.toNat + 1)) :
    forUp stop limit body fuel a s = g (max a.toNat (min stop.toNat limit.toNat)) := by
  induction fuel generalizing a s with
  | zero =>
    rw [max_eq_left (by omega)]
    exact hs
  | succ fuel ih =>
    rw [forUp]
    by_cases hlt : a < stop ∧ a < limit
    · obtain ⟨hstop, hlimit⟩ := hlt
      rw [if_pos ⟨hstop, hlimit⟩]
      rw [UInt32.lt_iff_toNat_lt] at hstop hlimit
      have hnext : (a + 1).toNat = a.toNat + 1 := by
        have hsize := limit.toNat_lt
        rw [UInt32.toNat_add, UInt32.toNat_one, Nat.mod_eq_of_lt (by omega)]
      rw [ih (a := a + 1) (by omega) (by rw [hs, hnext, hstep a le_rfl hstop hlimit]) fun i hi => hstep i (by omega), hnext]
      congr 1
      omega
    · rw [if_neg hlt, hs, max_eq_left]
      rw [UInt32.lt_iff_toNat_lt, UInt32.lt_iff_toNat_lt] at hlt
      omega

end GannetOS.Core
