import Mathlib.Data.List.TakeWhile
import Mathlib.Order.Defs.LinearOrder
import Mathlib.Order.Lattice

/-!
This module contains lists that are kept in the order of some key, where an item is inserted behind the
items of the same key.
-/

namespace Priority

variable {α κ : Type} [LinearOrder κ] {key : α → κ}

def insert (key : α → κ) (x : α) (l : List α) : List α :=
  l.takeWhile (fun y => key y ≤ key x) ++ x :: l.dropWhile (fun y => key y ≤ key x)

theorem insert_cons (x first : α) (rest : List α)
    : insert key x (first :: rest) =
        if key x < key first then x :: first :: rest else first :: insert key x rest := by
  unfold insert
  split
  next hlt =>
    rw [List.takeWhile_cons_of_neg (by simpa using hlt), List.dropWhile_cons_of_neg (by simpa using hlt)]
    rfl
  next hge =>
    rw [List.takeWhile_cons_of_pos (by simpa using hge), List.dropWhile_cons_of_pos (by simpa using hge)]
    rfl

theorem insert_append (x : α) {front rest : List α} (hfront : ∀ y ∈ front, key y ≤ key x)
    (hrest : ∀ y ∈ rest.head?, key x < key y)
    : insert key x (front ++ rest) = front ++ x :: rest := by
  induction front with
  | nil =>
    cases rest with
    | nil => rfl
    | cons first rest =>
      rw [List.nil_append, insert_cons, if_pos (hrest first rfl)]
      rfl
  | cons first front ih =>
    have hle := hfront first List.mem_cons_self
    rw [List.cons_append, insert_cons, if_neg (not_lt.mpr hle),
      ih fun y hy => hfront y (List.mem_cons_of_mem _ hy)]
    rfl

theorem insert_of_le (x : α) {l : List α} (h : ∀ y ∈ l, key y ≤ key x) : insert key x l = l ++ [x] := by
  have hnil : ∀ y ∈ ([] : List α).head?, key x < key y := by simp
  have happend := insert_append x h hnil
  rwa [List.append_nil] at happend

theorem insert_perm (x : α) (l : List α) : (insert key x l).Perm (x :: l) := by
  unfold insert
  refine List.perm_middle.trans ?_
  rw [List.takeWhile_append_dropWhile]

theorem insert_sorted (x : α) {l : List α} (h : l.Pairwise fun y z => key y ≤ key z)
    : (insert key x l).Pairwise fun y z => key y ≤ key z := by
  induction l with
  | nil => exact List.pairwise_singleton _ _
  | cons first rest ih =>
    obtain ⟨hfirst, hrest⟩ := List.pairwise_cons.mp h
    rw [insert_cons]
    split
    next hlt =>
      refine List.pairwise_cons.mpr ⟨?_, h⟩
      intro y hy
      cases hy with
      | head => exact hlt.le
      | tail _ hy => exact hlt.le.trans (hfirst y hy)
    next hge =>
      refine List.pairwise_cons.mpr ⟨?_, ih hrest⟩
      intro y hy
      cases (insert_perm x rest).mem_iff.mp hy with
      | head => exact not_lt.mp hge
      | tail _ hy => exact hfirst y hy

theorem filter_insert (k : κ) (x : α) {l : List α} (h : l.Pairwise fun y z => key y ≤ key z)
    : (insert key x l).filter (key · = k) = (l ++ [x]).filter (key · = k) := by
  induction l with
  | nil => rfl
  | cons first rest ih =>
    obtain ⟨hfirst, hrest⟩ := List.pairwise_cons.mp h
    rw [insert_cons]
    split
    next hlt =>
      -- none of the items behind it has the same key
      by_cases hx : key x = k
      . have hnone : (first :: rest).filter (key · = k) = [] := by
          rw [List.filter_eq_nil_iff]
          intro y hy
          have hle : key first ≤ key y := by
            cases hy with
            | head => exact le_rfl
            | tail _ hy => exact hfirst y hy
          rw [decide_eq_true_eq, ← hx]
          exact (hlt.trans_le hle).ne'
        rw [List.filter_append, List.filter_cons, hnone]
        simp [hx]
      . rw [List.filter_append, List.filter_cons_of_neg (by simpa using hx)]
        simp [hx]
    next => rw [List.filter_cons, ih hrest, List.cons_append, List.filter_cons]

end Priority
