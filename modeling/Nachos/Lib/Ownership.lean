import Mathlib.Data.List.Nodup
import Mathlib.Logic.Function.Basic

/-!
This module contains the theory of cells that are handed out to owners: a cell is used if and only if
it has an owner, and then it has one owner and this owner has it once.
-/

structure Ownership {ι α : Type} (used : α → Prop) (owns : ι → List α) : Prop where
  nodup : ∀ i, (owns i).Nodup
  unique : ∀ i j a, a ∈ owns i → a ∈ owns j → i = j
  used_iff : ∀ a, used a ↔ ∃ i, a ∈ owns i

namespace Ownership

open Function (update)

variable {ι α : Type} {used used' : α → Prop} {owns : ι → List α}

theorem used_of_mem (h : Ownership used owns) {i : ι} {a : α} (ha : a ∈ owns i) : used a :=
  (h.used_iff a).2 ⟨i, ha⟩

theorem notMem_of_ne (h : Ownership used owns) {i j : ι} (hne : i ≠ j) {a : α} (ha : a ∈ owns i) : a ∉ owns j := by
  intro ha'
  exact hne (h.unique i j a ha ha')

theorem take [DecidableEq ι] (h : Ownership used owns) {i : ι} (hnone : owns i = []) {cells : List α}
    (hnodup : cells.Nodup) (hfree : ∀ a, a ∈ cells → ¬used a) (hused : ∀ a, used' a ↔ used a ∨ a ∈ cells)
    : Ownership used' (update owns i cells) := by
  have hother (j : ι) (hj : j ≠ i) (a : α) (ha : a ∈ owns j) : a ∉ cells := by
    intro hmem
    exact hfree a hmem (h.used_of_mem ha)
  constructor
  case nodup =>
    intro j
    by_cases hj : j = i
    . rw [hj, Function.update_self]
      exact hnodup
    . rw [Function.update_of_ne hj]
      exact h.nodup j
  case unique =>
    intro j k a hja hka
    by_cases hj : j = i
    . by_cases hk : k = i
      . rw [hj, hk]
      . rw [hj, Function.update_self] at hja
        rw [Function.update_of_ne hk] at hka
        exact absurd hja (hother k hk a hka)
    . rw [Function.update_of_ne hj] at hja
      by_cases hk : k = i
      . rw [hk, Function.update_self] at hka
        exact absurd hka (hother j hj a hja)
      . rw [Function.update_of_ne hk] at hka
        exact h.unique j k a hja hka
  case used_iff =>
    intro a
    rw [hused a, h.used_iff a]
    constructor
    . intro ha
      cases ha with
      | inl hold =>
        obtain ⟨j, hj⟩ := hold
        have hji : j ≠ i := by
          intro hji
          rw [hji, hnone] at hj
          cases hj
        exact ⟨j, by rwa [Function.update_of_ne hji]⟩
      | inr hnew => exact ⟨i, by rwa [Function.update_self]⟩
    . intro ⟨j, hj⟩
      by_cases hji : j = i
      . rw [hji, Function.update_self] at hj
        exact .inr hj
      . rw [Function.update_of_ne hji] at hj
        exact .inl ⟨j, hj⟩

theorem give [DecidableEq ι] (h : Ownership used owns) (i : ι) (hused : ∀ a, used' a ↔ used a ∧ a ∉ owns i)
    : Ownership used' (update owns i []) := by
  have hsub (j : ι) (a : α) (ha : a ∈ update owns i [] j) : j ≠ i ∧ a ∈ owns j := by
    by_cases hj : j = i
    . rw [hj, Function.update_self] at ha
      cases ha
    . rw [Function.update_of_ne hj] at ha
      exact ⟨hj, ha⟩
  constructor
  case nodup =>
    intro j
    by_cases hj : j = i
    . rw [hj, Function.update_self]
      exact List.nodup_nil
    . rw [Function.update_of_ne hj]
      exact h.nodup j
  case unique =>
    intro j k a hja hka
    exact h.unique j k a (hsub j a hja).2 (hsub k a hka).2
  case used_iff =>
    intro a
    rw [hused a, h.used_iff a]
    constructor
    . intro ⟨⟨j, hj⟩, hni⟩
      have hji : j ≠ i := by
        intro hji
        rw [hji] at hj
        exact hni hj
      exact ⟨j, by rwa [Function.update_of_ne hji]⟩
    . intro ⟨j, hj⟩
      have ⟨hji, hmem⟩ := hsub j a hj
      exact ⟨⟨j, hmem⟩, h.notMem_of_ne hji hmem⟩

theorem nodup_flatMap (h : Ownership used owns) {owners : List ι} (howners : owners.Nodup)
    : (owners.flatMap owns).Nodup := by
  rw [List.nodup_flatMap]
  refine ⟨fun i _ => h.nodup i, ?_⟩
  apply howners.imp
  intro i j hij a ha
  exact h.notMem_of_ne hij ha

end Ownership
