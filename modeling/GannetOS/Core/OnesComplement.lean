/-
One's-complement sums: what is left of a sum when every carry out of the top is added back at the bottom.

`ocFold m n` is the representative of `n` modulo `m` among `1, …, m`, and 0 for 0. Adding a carry back does not change it
(`ocFold_carry`), and a number up to `m` is its own. A word that completes a sum to `m` makes it fold to `m`
(`ocFold_complete`): the rule by which a checksum is inserted and verified. `ocAdd` is addition with the carry added back;
a sum of words by `ocAdd` is the fold of the plain sum (`foldl_ocAdd`).

`beSum` is the sum of the big-endian 16-bit words of a byte string, `beWords`, an odd last byte being the high byte of one
more.
-/
import Mathlib

namespace GannetOS.Core

open List

def ocFold (m n : ℕ) : ℕ := if n = 0 then 0 else (n - 1) % m + 1

section
variable {m n k : ℕ}

theorem ocFold_le (hm : 0 < m) (n : ℕ) : ocFold m n ≤ m := by
  unfold ocFold
  split_ifs
  · exact Nat.zero_le m
  · exact Nat.mod_lt _ hm

theorem ocFold_of_le (h : n ≤ m) : ocFold m n = n := by
  unfold ocFold
  split_ifs with h0
  · exact h0.symm
  · rw [Nat.mod_eq_of_lt (by omega)]
    omega

/-- a carry out of the digits below `m + 1` is added back -/
theorem ocFold_carry (m n : ℕ) : ocFold m (n % (m + 1) + n / (m + 1)) = ocFold m n := by
  have hdiv : (m + 1) * (n / (m + 1)) + n % (m + 1) = n := Nat.div_add_mod n (m + 1)
  generalize n / (m + 1) = q at hdiv ⊢
  generalize n % (m + 1) = r at hdiv ⊢
  have hsum : n = r + q + m * q := by
    rw [← hdiv]
    ring
  unfold ocFold
  by_cases h0 : r + q = 0
  · have hq : q = 0 := by omega
    have hn : n = 0 := by rw [hsum, h0, hq, Nat.mul_zero]
    rw [if_pos h0, if_pos hn]
  · have hn : n ≠ 0 := by
      rw [hsum]
      omega
    have hpred : n - 1 = (r + q - 1) + m * q := by
      rw [hsum]
      omega
    rw [if_neg h0, if_neg hn, hpred, Nat.add_mul_mod_self_left]

theorem ocFold_eq_top (hm : 0 < m) : ocFold m n = m ↔ 0 < n ∧ m ∣ n := by
  unfold ocFold
  split_ifs with h0
  · exact ⟨fun h => absurd h.symm hm.ne', fun h => absurd h0 h.1.ne'⟩
  · have hdvd : m ∣ n ↔ (n - 1) % m + 1 = m := by
      have hn : n = (n - 1) + 1 := by omega
      have hlt := Nat.mod_lt (n - 1) hm
      rw [hn, Nat.dvd_iff_mod_eq_zero, Nat.add_mod, Nat.add_sub_cancel]
      constructor
      · intro h
        by_contra hne
        rcases Nat.lt_or_ge 1 m with h1 | h1
        · rw [Nat.mod_eq_of_lt h1, Nat.mod_eq_of_lt (by omega)] at h
          omega
        · have hm1 : m = 1 := by omega
          subst hm1
          omega
      · intro h
        rcases Nat.lt_or_ge 1 m with h1 | h1
        · rw [Nat.mod_eq_of_lt h1, h, Nat.mod_self]
        · have hm1 : m = 1 := by omega
          subst hm1
          exact Nat.mod_one _
    rw [hdvd]
    exact ⟨fun h => ⟨Nat.pos_of_ne_zero h0, h⟩, fun h => h.2⟩

/-- what `ocFold` leaves out is a multiple of `m` -/
theorem dvd_add_sub_ocFold (hm : 0 < m) (n : ℕ) : m ∣ n + (m - ocFold m n) := by
  unfold ocFold
  split_ifs with h0
  · rw [h0]
    simp
  · have hlt := Nat.mod_lt (n - 1) hm
    have hdiv := Nat.div_add_mod (n - 1) m
    refine ⟨(n - 1) / m + 1, ?_⟩
    rw [Nat.mul_add, Nat.mul_one]
    omega

/-- the word that is missing to `m` completes the sum -/
theorem ocFold_complete (hm : 0 < m) (n : ℕ) : ocFold m (n + (m - ocFold m n)) = m := by
  refine (ocFold_eq_top hm).2 ⟨?_, dvd_add_sub_ocFold hm n⟩
  by_cases h0 : n = 0
  · subst h0
    simpa [ocFold] using hm
  · omega

/-- a complete sum stays complete when all-ones is added -/
theorem ocFold_top_add (hm : 0 < m) (h : ocFold m n = m) : ocFold m (n + m) = m := by
  obtain ⟨hpos, hdvd⟩ := (ocFold_eq_top hm).1 h
  exact (ocFold_eq_top hm).2 ⟨by omega, (Nat.dvd_add_right hdvd).2 dvd_rfl⟩

/-- it depends on the residue, and on whether the number is 0 -/
theorem ocFold_congr (h0 : n = 0 ↔ k = 0) (h : n ≡ k [MOD m]) : ocFold m n = ocFold m k := by
  unfold ocFold
  by_cases hn : n = 0
  · rw [if_pos hn, if_pos (h0.1 hn)]
  · have hk : k ≠ 0 := fun hk => hn (h0.2 hk)
    have hpred : n - 1 ≡ k - 1 [MOD m] := by
      refine Nat.ModEq.add_right_cancel' 1 ?_
      rwa [Nat.sub_add_cancel (Nat.pos_of_ne_zero hn), Nat.sub_add_cancel (Nat.pos_of_ne_zero hk)]
    rw [if_neg hn, if_neg hk, hpred]

theorem ocFold_modEq (m n : ℕ) : ocFold m n ≡ n [MOD m] := by
  unfold ocFold
  split_ifs with h0
  · rw [h0]
  · have hmod : (n - 1) % m + 1 ≡ n - 1 + 1 [MOD m] := (Nat.mod_modEq (n - 1) m).add_right 1
    rwa [Nat.sub_add_cancel (Nat.pos_of_ne_zero h0)] at hmod

theorem ocFold_eq_zero : ocFold m n = 0 ↔ n = 0 := by
  unfold ocFold
  split_ifs with h0
  · simp [h0]
  · simp [h0]

/-- folding early changes nothing -/
theorem ocFold_add (m n k : ℕ) : ocFold m (ocFold m n + k) = ocFold m (n + k) := by
  refine ocFold_congr ?_ ((ocFold_modEq m n).add_right k)
  rw [Nat.add_eq_zero_iff, Nat.add_eq_zero_iff, ocFold_eq_zero]

/-- one's-complement addition: the carry out of the digits below `m + 1` is added at the bottom -/
def ocAdd (m a b : ℕ) : ℕ := (a + b) % (m + 1) + (a + b) / (m + 1)

theorem ocAdd_eq {a b : ℕ} (ha : a ≤ m) (hb : b ≤ m) : ocAdd m a b = ocFold m (a + b) := by
  have hle : ocAdd m a b ≤ m := by
    have hdiv := Nat.div_add_mod (a + b) (m + 1)
    unfold ocAdd
    rcases Nat.lt_or_ge (a + b) (m + 1) with hlt | hge
    · rw [Nat.div_eq_of_lt hlt, Nat.mod_eq_of_lt hlt]
      omega
    · have hone : (a + b) / (m + 1) = 1 := Nat.div_eq_of_lt_le (by omega) (by omega)
      rw [hone] at hdiv ⊢
      omega
  rw [← ocFold_carry, ← ocAdd, ocFold_of_le hle]

/-- **Folding once at the end.** The one's-complement sum of words is the fold of their plain sum. -/
theorem foldl_ocAdd (hm : 0 < m) {ws : List ℕ} (hws : ∀ w ∈ ws, w ≤ m) {a : ℕ} (ha : a ≤ m) :
    ws.foldl (ocAdd m) a = ocFold m (a + ws.sum) := by
  induction ws generalizing a with
  | nil => rw [foldl_nil, sum_nil, Nat.add_zero, ocFold_of_le ha]
  | cons w ws ih =>
    have hw : w ≤ m := hws w mem_cons_self
    have hrest : ∀ v ∈ ws, v ≤ m := fun v hv => hws v (mem_cons_of_mem w hv)
    rw [foldl_cons, ocAdd_eq ha hw, ih hrest (ocFold_le hm _), ocFold_add m, sum_cons, Nat.add_assoc]

end

def beSum : List UInt8 → ℕ
  | a :: b :: rest => 256 * a.toNat + b.toNat + beSum rest
  | [a] => 256 * a.toNat
  | [] => 0

/-- a seam between two words -/
theorem beSum_append {l₁ : List UInt8} (h : l₁.length % 2 = 0) (l₂ : List UInt8) :
    beSum (l₁ ++ l₂) = beSum l₁ + beSum l₂ := by
  induction l₁ using beSum.induct with
  | case1 a b rest ih =>
    have hrest : rest.length % 2 = 0 := by
      rw [length_cons, length_cons] at h
      omega
    rw [cons_append, cons_append, beSum, beSum, ih hrest]
    omega
  | case2 a => simp at h
  | case3 => rw [nil_append, beSum, Nat.zero_add]

/-- the words themselves -/
def beWords : List UInt8 → List ℕ
  | a :: b :: rest => (256 * a.toNat + b.toNat) :: beWords rest
  | [a] => [256 * a.toNat]
  | [] => []

theorem beWords_sum (l : List UInt8) : (beWords l).sum = beSum l := by
  induction l using beSum.induct with
  | case1 a b rest ih => rw [beWords, sum_cons, ih, beSum]
  | case2 a => rw [beWords, sum_singleton, beSum]
  | case3 => rfl

theorem beWords_le (l : List UInt8) : ∀ w ∈ beWords l, w ≤ 65535 := by
  induction l using beSum.induct with
  | case1 a b rest ih =>
    have ha := a.toNat_lt
    have hb := b.toNat_lt
    intro w hw
    rcases List.mem_cons.1 hw with rfl | hw
    · omega
    · exact ih w hw
  | case2 a =>
    have ha := a.toNat_lt
    intro w hw
    rw [List.mem_singleton.1 hw]
    omega
  | case3 => exact fun w hw => absurd hw not_mem_nil

theorem beSum_le (l : List UInt8) : 2 * beSum l ≤ 65535 * (l.length + 1) := by
  induction l using beSum.induct with
  | case1 a b rest ih =>
    have ha := a.toNat_lt
    have hb := b.toNat_lt
    rw [beSum, length_cons, length_cons]
    omega
  | case2 a =>
    have ha := a.toNat_lt
    rw [beSum, length_singleton]
    omega
  | case3 => simp [beSum]

end GannetOS.Core
