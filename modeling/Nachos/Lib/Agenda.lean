import Mathlib.Data.List.Basic
import Nachos.Lib.Priority
import Nachos.Lib.Transition

/-!
This module contains the event queue of a discrete simulation: items are scheduled for some time in the
future, they are kept in the order of their times, and they are taken out when their time has come.
-/

structure Agenda (α : Type) where
  now : Nat
  pending : List α
  -- what was scheduled so far, and what was taken out so far and at what time
  scheduled : List α
  fired : List (α × Nat)

namespace Agenda

open Relation

variable {α : Type} {time : α → Nat}

def insert (time : α → Nat) (x : α) : List α → List α
  | [] => [x]
  | first :: rest =>
    if time x < time first then
      x :: first :: rest
    else
      first :: insert time x rest

theorem insert_eq (x : α) (pending : List α) : insert time x pending = Priority.insert time x pending := by
  induction pending with
  | nil => rfl
  | cons first rest ih =>
    unfold insert
    rw [Priority.insert_cons, ih]

theorem insert_perm (x : α) (pending : List α) : (insert time x pending).Perm (x :: pending) := by
  rw [insert_eq]
  exact Priority.insert_perm x pending

theorem insert_sorted (x : α) {pending : List α} (h : pending.Pairwise fun y z => time y ≤ time z)
    : (insert time x pending).Pairwise fun y z => time y ≤ time z := by
  rw [insert_eq]
  exact Priority.insert_sorted x h

inductive Step (time : α → Nat) (a : Agenda α) : Agenda α → Prop where
  | schedule (x : α) (h : a.now < time x)
    : Step time a { a with pending := insert time x a.pending, scheduled := a.scheduled ++ [x] }
  | wait (now : Nat) (h : a.now ≤ now)
    : Step time a { a with now := now }
  | putBack (x : α) (rest : List α) (hpending : a.pending = x :: rest)
    : Step time a { a with pending := insert time x rest }
  | fire (x : α) (rest : List α) (hpending : a.pending = x :: rest) (h : time x ≤ a.now)
    : Step time a { a with pending := rest, fired := a.fired ++ [(x, a.now)] }

structure Inv (time : α → Nat) (a : Agenda α) : Prop where
  sorted : a.pending.Pairwise fun x y => time x ≤ time y
  once : a.scheduled.Perm (a.fired.map Prod.fst ++ a.pending)
  due : ∀ e ∈ a.fired, time e.1 ≤ e.2 ∧ e.2 ≤ a.now
  ordered : a.fired.Pairwise fun e e' => time e.1 ≤ time e'.1
  before : ∀ e ∈ a.fired, ∀ x ∈ a.pending, time e.1 ≤ time x

theorem inv_empty (now : Nat) : Inv time ⟨now, [], [], []⟩ :=
  ⟨.nil, .refl _, by simp, .nil, by simp⟩

namespace Inv

variable {a a' : Agenda α}

theorem schedule (h : Inv time a) {x : α} (hx : a.now < time x)
    : Inv time { a with pending := insert time x a.pending, scheduled := a.scheduled ++ [x] } := by
  refine ⟨insert_sorted x h.sorted, ?_, h.due, h.ordered, ?_⟩
  . calc (a.scheduled ++ [x]).Perm (a.fired.map Prod.fst ++ a.pending ++ [x]) := h.once.append_right [x]
      _ = a.fired.map Prod.fst ++ (a.pending ++ [x]) := List.append_assoc ..
      List.Perm _ (a.fired.map Prod.fst ++ insert time x a.pending) := by
        apply List.Perm.append_left
        exact (List.perm_append_singleton x a.pending).trans (insert_perm x a.pending).symm
  . intro e he y hy
    cases (insert_perm x a.pending).mem_iff.mp hy with
    | head =>
      -- it is scheduled for the future, and `e` for the past
      obtain ⟨h1, h2⟩ := h.due e he
      omega
    | tail _ hy => exact h.before e he y hy

theorem putBack (h : Inv time a) {x : α} {rest : List α} (hpending : a.pending = x :: rest)
    : Inv time { a with pending := insert time x rest } := by
  have hsorted := h.sorted
  have honce := h.once
  have hbefore := h.before
  rw [hpending] at hsorted honce hbefore
  refine ⟨insert_sorted x (List.pairwise_cons.mp hsorted).2, ?_, h.due, h.ordered, ?_⟩
  . exact honce.trans ((insert_perm x rest).symm.append_left _)
  . intro e he y hy
    exact hbefore e he y ((insert_perm x rest).mem_iff.mp hy)

theorem fire (h : Inv time a) {x : α} {rest : List α} (hpending : a.pending = x :: rest)
    (hdue : time x ≤ a.now)
    : Inv time { a with pending := rest, fired := a.fired ++ [(x, a.now)] } := by
  have hsorted := h.sorted
  have honce := h.once
  have hbefore := h.before
  rw [hpending] at hsorted honce hbefore
  obtain ⟨hfirst, hrest⟩ := List.pairwise_cons.mp hsorted
  refine ⟨hrest, ?_, ?_, ?_, ?_⟩
  . simpa using honce
  . intro e he
    obtain he | he := List.mem_append.mp he
    . exact h.due e he
    . obtain rfl : e = (x, a.now) := by simpa using he
      exact ⟨hdue, Nat.le_refl _⟩
  . apply List.pairwise_append.mpr
    refine ⟨h.ordered, List.pairwise_singleton _ _, ?_⟩
    intro e he e' he'
    obtain rfl : e' = (x, a.now) := by simpa using he'
    exact hbefore e he x (List.mem_cons_self ..)
  . intro e he y hy
    obtain he | he := List.mem_append.mp he
    . exact hbefore e he y (List.mem_cons_of_mem _ hy)
    . obtain rfl : e = (x, a.now) := by simpa using he
      exact hfirst y hy

theorem step (h : Inv time a) (hstep : Step time a a') : Inv time a' := by
  cases hstep with
  | schedule x hx => exact h.schedule hx
  | wait now hnow =>
    refine ⟨h.sorted, h.once, ?_, h.ordered, h.before⟩
    intro e he
    obtain ⟨h1, h2⟩ := h.due e he
    exact ⟨h1, Nat.le_trans h2 hnow⟩
  | putBack x rest hpending => exact h.putBack hpending
  | fire x rest hpending hdue => exact h.fire hpending hdue

theorem steps (h : Inv time a) (hsteps : ReflTransGen (Step time) a a') : Inv time a' := by
  induction hsteps with
  | refl => exact h
  | tail _ hstep ih => exact ih.step hstep

end Inv

/-! ### Items of the same time -/

/--
The steps after which an item is behind those that were scheduled before it. If an item is put back, it may lose its
place.
-/
inductive Calm (time : α → Nat) (a : Agenda α) : Agenda α → Prop where
  | schedule (x : α) (h : a.now < time x)
    : Calm time a { a with pending := insert time x a.pending, scheduled := a.scheduled ++ [x] }
  | wait (now : Nat) (h : a.now ≤ now)
    : Calm time a { a with now := now }
  | fire (x : α) (rest : List α) (hpending : a.pending = x :: rest) (h : time x ≤ a.now)
    : Calm time a { a with pending := rest, fired := a.fired ++ [(x, a.now)] }

theorem Calm.step {a a' : Agenda α} (h : Calm time a a') : Step time a a' := by
  cases h with
  | schedule x h => exact .schedule x h
  | wait now h => exact .wait now h
  | fire x rest hpending h => exact .fire x rest hpending h

theorem Calm.steps {a a' : Agenda α} (h : ReflTransGen (Calm time) a a') : ReflTransGen (Step time) a a' :=
  ReflTransGen.mono (fun _ _ => Calm.step) _ _ h

def Stable (time : α → Nat) (a : Agenda α) : Prop :=
  ∀ t, (a.fired.map Prod.fst ++ a.pending).filter (time · = t) = a.scheduled.filter (time · = t)

theorem filter_insert (t : Nat) (x : α) {pending : List α} (h : pending.Pairwise fun y z => time y ≤ time z)
    : (insert time x pending).filter (time · = t) = (pending ++ [x]).filter (time · = t) := by
  rw [insert_eq]
  exact Priority.filter_insert t x h

theorem Calm.stable {a a' : Agenda α} (h : Calm time a a') (hinv : Inv time a) (hstable : Stable time a)
    : Stable time a' := by
  intro t
  have hstable := hstable t
  cases h with
  | schedule x hx =>
    dsimp only
    rw [List.filter_append, filter_insert t x hinv.sorted, ← List.filter_append, ← List.append_assoc,
      List.filter_append, hstable, List.filter_append]
  | wait => exact hstable
  | fire x rest hpending _ =>
    rw [hpending] at hstable
    simpa using hstable

theorem Calm.stable_steps {a a' : Agenda α} (h : ReflTransGen (Calm time) a a') (hinv : Inv time a)
    (hstable : Stable time a)
    : Stable time a' := by
  have hboth : Inv time a' ∧ Stable time a' := by
    induction h with
    | refl => exact ⟨hinv, hstable⟩
    | tail _ hcalm ih => exact ⟨ih.1.step hcalm.step, hcalm.stable ih.1 ih.2⟩
  exact hboth.2

theorem insert_eq_cons_iff (x : α) (rest : List α)
    : insert time x rest = x :: rest ↔ ∀ y ∈ rest.takeWhile (time · ≤ time x), y = x := by
  induction rest with
  | nil => simp [insert]
  | cons first rest ih =>
    unfold insert
    split
    next hlt =>
      rw [List.takeWhile_cons_of_neg (by simpa using hlt)]
      simp
    next hge =>
      rw [List.takeWhile_cons_of_pos (by simpa using hge), List.forall_mem_cons, ← ih]
      constructor
      . intro heq
        injection heq with hfirst hrest
        subst hfirst
        exact ⟨rfl, hrest⟩
      . rintro ⟨rfl, hrest⟩
        rw [hrest]

end Agenda
