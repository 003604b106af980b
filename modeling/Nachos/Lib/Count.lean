import Mathlib.Data.Nat.Count
import Mathlib.Tactic.Linarith

/-!
This module contains lemmas on how the number of indices below `n` with some property changes if
the property changes at a single index, while `n` may grow, and on properties that one index has.
-/

namespace Nat

variable {p q : Nat → Prop} [DecidablePred p] [DecidablePred q]

theorem count_congr_lt {n : Nat} (h : ∀ i, i < n → (p i ↔ q i)) : count p n = count q n := by
  induction n with
  | zero => simp
  | succ n ih =>
    have hn := h n (by omega)
    rw [count_succ, count_succ, ih (fun i hi => h i (by omega))]
    simp [hn]

theorem count_of_new {n n' : Nat} (hle : n ≤ n') (hnew : ∀ i, n ≤ i → i < n' → ¬p i)
    : count p n' = count p n := by
  induction n' with
  | zero =>
    have : n = 0 := by omega
    rw [this]
  | succ n' ih =>
    by_cases hn : n = n' + 1
    . rw [hn]
    . rw [count_succ, ih (by omega) (fun i h1 h2 => hnew i h1 (by omega))]
      simp [hnew n' (by omega) (by omega)]

theorem count_of_agree {t n : Nat} (ht : t < n) (h : ∀ i, i < n → i ≠ t → (p i ↔ q i))
    : count p n + (if q t then 1 else 0) = count q n + (if p t then 1 else 0) := by
  induction n with
  | zero => omega
  | succ n ih =>
    rw [count_succ, count_succ]
    by_cases htn : t = n
    . subst htn
      rw [count_congr_lt (fun i hi => h i (by omega) (by omega))]
      omega
    . have := ih (by omega) (fun i hi => h i (by omega))
      have hn := h n (by omega) (by omega)
      simp only [hn]
      omega

theorem count_pos_of {t n : Nat} (ht : t < n) (hp : p t) : 0 < count p n := by
  rw [Nat.pos_iff_ne_zero, count_ne_iff_exists]
  exact ⟨t, ht, hp⟩

theorem count_lt_count {t n : Nat} (h : ∀ i, i < n → p i → q i) (ht : t < n) (hq : q t) (hp : ¬p t)
    : count p n < count q n := by
  rw [count_eq_card_filter_range, count_eq_card_filter_range]
  apply Finset.card_lt_card
  refine ⟨?_, ?_⟩
  . intro i hi
    rw [Finset.mem_filter, Finset.mem_range] at hi ⊢
    exact ⟨hi.1, h i hi.1 hi.2⟩
  . intro hsub
    have hmem := hsub (Finset.mem_filter.mpr ⟨Finset.mem_range.mpr ht, hq⟩)
    exact hp (Finset.mem_filter.mp hmem).2

theorem count_le_add {r : Nat → Prop} [DecidablePred r] {n : Nat} (h : ∀ i, i < n → p i → q i ∨ r i)
    : count p n ≤ count q n + count r n := by
  induction n with
  | zero => simp
  | succ n ih =>
    have hn := h n (Nat.lt_succ_self n)
    have := ih fun i hi => h i (by omega)
    simp only [count_succ]
    by_cases hp : p n
    . cases hn hp with
      | inl hq =>
        simp only [hp, hq, if_true]
        omega
      | inr hr =>
        simp only [hp, hr, if_true]
        omega
    . simp only [hp, if_false]
      omega

theorem count_le_one_of_unique {n : Nat} (h : ∀ i j, i < n → j < n → p i → p j → i = j)
    : count p n ≤ 1 := by
  rw [count_eq_card_filter_range, Finset.card_le_one]
  intro i hi j hj
  rw [Finset.mem_filter, Finset.mem_range] at hi hj
  exact h i j hi.1 hj.1 hi.2 hj.2

theorem eq_of_count_le_one {n i j : Nat} (h : count p n ≤ 1) (hi : i < n) (hj : j < n)
    (hpi : p i) (hpj : p j)
    : i = j := by
  induction n with
  | zero => omega
  | succ n ih =>
    rw [count_succ] at h
    by_cases hin : i = n <;> by_cases hjn : j = n
    . omega
    . have := count_pos_of (p := p) (show j < n by omega) hpj
      subst hin
      simp only [hpi, if_true] at h
      omega
    . have := count_pos_of (p := p) (show i < n by omega) hpi
      subst hjn
      simp only [hpj, if_true] at h
      omega
    . exact ih (by omega) (by omega) (by omega)

end Nat

theorem List.filterMap_range_eq_singleton {f : Nat → Option α} {n t : Nat} {x : α} (ht : t < n)
    (hx : f t = some x) (hunique : ∀ i, i < n → i ≠ t → f i = none)
    : (List.range n).filterMap f = [x] := by
  induction n with
  | zero => contradiction
  | succ n ih =>
    rw [List.range_succ, List.filterMap_append]
    by_cases hn : t = n
    . subst hn
      have hnil : (List.range t).filterMap f = [] := by
        rw [List.filterMap_eq_nil_iff]
        intro i hi
        rw [List.mem_range] at hi
        exact hunique i (by omega) (by omega)
      simp [hnil, hx]
    . have hnone : f n = none := hunique n (by omega) (by omega)
      rw [ih (by omega) (fun i hi => hunique i (by omega))]
      simp [hnone]
