import Nachos.Synch.Control
import Nachos.Synch.Holding

/-!
This module contains `synchlist.cc`: any number of synchronized lists, on top of the kernel, for any
code that uses them. A list returns the items in the order in which they were appended, and every
access to it is made by the owner of its lock.
-/

namespace Nachos

open Function (update)

namespace SynchList

inductive Request (α C H : Type) where
  | call (call : Call C H) (next : C)
  | append (b : Nat) (item : α) (next : C)
  | remove (b : Nat) (next : α → C)

structure User (α X C H : Type) where
  code : C → X → X × Request α C H
  handler : H → X → X × List (HandlerCall H)
  globals : X
  main : C
  value : Nat → Int
  value_nonneg : ∀ n, 0 ≤ value n

/--
A list, with the histories of its accesses. Items are not `NULL`. `failed` says whether the `ASSERT` of `Remove` has
failed.
-/
structure Data (α : Type) where
  list : List α
  appended : List α
  removed : List α
  failed : Bool

def Data.empty : Data α where
  list := []
  appended := []
  removed := []
  failed := false

structure Globals (α X : Type) where
  user : X
  lists : Nat → Data α

/--
The members `lock` and `listEmpty` of list `b`. They are private, the locks and conditions of the user are other
ones.
-/
def lock (b : Nat) : Nat := 2 * b + 1
def listEmpty (b : Nat) : Nat := 2 * b + 1
def userLock (l : Nat) : Nat := 2 * l
def userCond (c : Nat) : Nat := 2 * c

inductive Code (α C : Type) where
  | user (c : C)
  | append (b : Nat) (item : α) (next : C)
  | signalled (b : Nat) (next : C)
  | remove (b : Nat) (next : α → C)

def userNames : Rename C (Code α C) H H where
  lock := userLock
  cond := userCond
  sem := id
  func := .user
  handler := id

def listRemove : List α → Option α × List α
  | [] => (none, [])
  | item :: list => (some item, list)

def Data.append (d : Data α) (item : α) : Data α :=
  { d with list := d.list ++ [item], appended := d.appended ++ [item] }

section

variable {α X C H : Type}

def Data.remove (d : Data α) : Option α × Data α :=
  match listRemove d.list with
  | (none, list) => (none, { d with list := list, failed := true })
  | (some item, list) => (some item, { d with list := list, removed := d.removed ++ [item] })

def run (user : User α X C H) (g : Globals α X) : Code α C → Globals α X × Call (Code α C) H × Code α C
  | .user c =>
    let (x, request) := user.code c g.user
    match request with
    | .call call next => ({ g with user := x }, call.rename userNames, .user next)
    | .append b item next => ({ g with user := x }, .acquire (lock b), .append b item next)
    | .remove b next => ({ g with user := x }, .acquire (lock b), .remove b next)
  | .append b item next =>
    ({ g with lists := update g.lists b ((g.lists b).append item) }, .signal (listEmpty b) (lock b),
      .signalled b next)
  | .signalled b next => (g, .release (lock b), .user next)
  | .remove b next =>
    if (g.lists b).list.isEmpty then
      (g, .wait (listEmpty b) (lock b), .remove b next)
    else
      match (g.lists b).remove with
      | (some item, d) => ({ g with lists := update g.lists b d }, .release (lock b), .user (next item))
      -- the program ends with the failed `ASSERT`
      | (none, d) => ({ g with lists := update g.lists b d }, .finish, .remove b next)

def system (user : User α X C H) : System (Globals α X) (Code α C) H where
  code u g := run user g u
  handler h g := ({ g with user := (user.handler h g.user).1 }, (user.handler h g.user).2)
  globals := { user := user.globals, lists := fun _ => .empty }
  main := .user user.main
  value := user.value
  value_nonneg := user.value_nonneg

end

/-! ### Every access is made by the owner of the lock -/

def Code.held (b : Nat) : Code α C → Bool
  | .user _ => false
  | .append b' _ _ => b' = b
  | .signalled b' _ => b' = b
  | .remove b' _ => b' = b

section

variable {α X C H : Type} (user : User α X C H) (g : Globals α X)

variable {user g} in
theorem run_call {c next : C} {x : X} {call : Call C H} (h : user.code c g.user = (x, .call call next))
    : run user g (.user c) = ({ g with user := x }, call.rename userNames, .user next) := by
  simp [run, h]

variable {user g} in
theorem run_user_append {c next : C} {x : X} {b : Nat} {item : α}
    (h : user.code c g.user = (x, .append b item next))
    : run user g (.user c) = ({ g with user := x }, .acquire (lock b), .append b item next) := by
  simp [run, h]

variable {user g} in
theorem run_user_remove {c : C} {x : X} {b : Nat} {next : α → C}
    (h : user.code c g.user = (x, .remove b next))
    : run user g (.user c) = ({ g with user := x }, .acquire (lock b), .remove b next) := by
  simp [run, h]

theorem remove_of_not_isEmpty {d : Data α} (h : ¬d.list.isEmpty)
    : ∃ item list, d.list = item :: list ∧
        d.remove = (some item, { d with list := list, removed := d.removed ++ [item] }) := by
  cases hlist : d.list with
  | nil => simp [hlist] at h
  | cons item list => exact ⟨item, list, rfl, by simp [Data.remove, listRemove, hlist]⟩

theorem run_remove (b : Nat) (next : α → C)
    : (g.lists b).list = [] ∧
        run user g (.remove b next) = (g, .wait (listEmpty b) (lock b), .remove b next) ∨
      ∃ item list, (g.lists b).list = item :: list ∧
        run user g (.remove b next) =
          ({ g with
              lists := update g.lists b
                { g.lists b with list := list, removed := (g.lists b).removed ++ [item] } },
            .release (lock b), .user (next item)) := by
  rw [run]
  split
  next hempty => exact .inl ⟨List.isEmpty_iff.mp hempty, rfl⟩
  next hempty =>
    obtain ⟨item, list, hlist, hremove⟩ := remove_of_not_isEmpty hempty
    rw [hremove]
    exact .inr ⟨item, list, hlist, rfl⟩

theorem rename_keeps (b : Nat) (call : Call C H) (next : C)
    : (call.rename userNames : Call (Code α C) H).Keeps (lock b) (Code.held b) false (.user next) := by
  refine Call.rename_keeps call ?_ (fun _ => rfl) rfl
  intro l
  change userLock l ≠ lock b
  unfold userLock lock
  omega

@[simp] theorem lock_inj {b b' : Nat} : lock b' = lock b ↔ b' = b := by
  unfold lock
  omega

theorem keeps_acquire {b b' : Nat} {u : Code α C} (hu : u.held b = decide (b' = b))
    : (Call.acquire (lock b') : Call (Code α C) H).Keeps (lock b) (Code.held b) false u := by
  by_cases hb : b' = b
  . simpa [Call.Keeps, hb] using hu
  . simpa [Call.Keeps, hb] using hu

theorem keeps_wait {b b' c : Nat} {u : Code α C} (hu : u.held b = decide (b' = b))
    : (Call.wait c (lock b') : Call (Code α C) H).Keeps (lock b) (Code.held b) (decide (b' = b)) u := by
  by_cases hb : b' = b
  . simpa [Call.Keeps, hb] using hu
  . simpa [Call.Keeps, hb] using hu

theorem keeps_release {b b' : Nat} {next : C}
    : (Call.release (lock b') : Call (Code α C) H).Keeps (lock b) (Code.held b) (decide (b' = b))
        (.user next) := by
  by_cases hb : b' = b
  . simp [Call.Keeps, hb, Code.held]
  . simp [Call.Keeps, hb, Code.held]

def holding (b : Nat) : Holding (system user) (lock b) where
  held := Code.held b
  main := rfl
  code u g := by
    change (run user g u).2.1.Keeps (lock b) (Code.held b) (u.held b) (run user g u).2.2
    cases u with
    | user c =>
      rw [run]
      generalize user.code c g.user = res
      obtain ⟨x, request⟩ := res
      cases request with
      | call call next => exact rename_keeps b call next
      | append b' item next => exact keeps_acquire rfl
      | remove b' next => exact keeps_acquire rfl
    | append b' item next => rfl
    | signalled b' next => exact keeps_release
    | remove b' next =>
      obtain ⟨_, heq⟩ | ⟨item, list, _, heq⟩ := run_remove user g b' next
      . rw [heq]
        exact keeps_wait rfl
      . rw [heq]
        exact keeps_release

theorem run_lists (u : Code α C) (b : Nat)
    : (run user g u).1.lists b = g.lists b ∨
      u.held b = true ∧
        ((∃ item, (run user g u).1.lists b = (g.lists b).append item) ∨
          ∃ item list, (g.lists b).list = item :: list ∧
            (run user g u).1.lists b =
              { g.lists b with list := list, removed := (g.lists b).removed ++ [item] }) := by
  cases u with
  | user c =>
    left
    rw [run]
    generalize user.code c g.user = res
    obtain ⟨x, request⟩ := res
    cases request <;> rfl
  | append b' item next =>
    by_cases hb : b' = b
    . subst hb
      exact .inr ⟨by simp [Code.held], .inl ⟨item, by simp [run]⟩⟩
    . exact .inl (by simp [run, Ne.symm hb])
  | signalled b' next => exact .inl rfl
  | remove b' next =>
    obtain ⟨_, heq⟩ | ⟨item, list, hlist, heq⟩ := run_remove user g b' next
    . exact .inl (by rw [heq])
    . rw [heq]
      by_cases hb : b' = b
      . subst hb
        exact .inr ⟨by simp [Code.held], .inr ⟨item, list, hlist, by simp⟩⟩
      . exact .inl (by simp [Ne.symm hb])

end

/-! ### The order of the items -/

structure Data.Fifo (d : Data α) : Prop where
  fifo : d.removed ++ d.list = d.appended
  asserted : d.failed = false

section

variable {α X C H : Type} {user : User α X C H} {s s' : State (Globals α X) (Code α C) H}

theorem Fifo.append {d : Data α} (h : d.Fifo) (item : α) : (d.append item).Fifo where
  fifo := by simp [Data.append, ← h.fifo]
  asserted := h.asserted

theorem Fifo.remove {d : Data α} (h : d.Fifo) {item : α} {list : List α} (hlist : d.list = item :: list)
    : Data.Fifo { d with list := list, removed := d.removed ++ [item] } where
  fifo := by simp [← h.fifo, hlist]
  asserted := h.asserted

theorem fifo (h : (system user).Reachable s) (b : Nat) : (s.shared.lists b).Fifo := by
  refine Transition.Reachable.invariant (P := fun s => (s.shared.lists b).Fifo) ?_ ?_ h
  . rintro s ⟨pending, rfl⟩
    exact ⟨rfl, rfl⟩
  . intro s s' _ hfifo hstep
    obtain ⟨frame, rest, frames, s₁, hstack, hout, rfl⟩ := step_cases hstep
    rw [State.setStack_shared]
    obtain heq | ⟨handler, heq⟩ | ⟨u, _, heq⟩ := hout.shared_cases
    . rwa [heq]
    . rwa [heq]
    . rw [heq]
      obtain hsame | ⟨_, ⟨item, happend⟩ | ⟨item, list, hlist, hremove⟩⟩ := run_lists user s.shared u b
      . exact hsame ▸ hfifo
      . exact happend ▸ Fifo.append hfifo item
      . exact hremove ▸ Fifo.remove hfifo hlist

theorem owner_of_access (h : (system user).Reachable s) (hstep : Step (system user).toProgram s s')
    (b : Nat) (hne : s'.shared.lists b ≠ s.shared.lists b)
    : s.owner (lock b) = some s.currentThread := by
  obtain ⟨frame, rest, frames, s₁, hstack, hout, rfl⟩ := step_cases hstep
  rw [State.setStack_shared] at hne
  obtain heq | ⟨handler, heq⟩ | ⟨u, rfl, heq⟩ := hout.shared_cases
  . exact absurd (by rw [heq]) hne
  . exact absurd (by rw [heq]; rfl) hne
  . rw [heq] at hne
    obtain hsame | ⟨hheld, _⟩ := run_lists user s.shared u b
    . exact absurd hsame hne
    . exact (holding user b).owner_eq h hstack hheld

theorem synchList_fifo (h : (system user).Reachable s) (b : Nat)
    : (s.shared.lists b).removed ++ (s.shared.lists b).list = (s.shared.lists b).appended ∧
      -- an item that is appended once is returned at most once, and then it is not in the list
      ((s.shared.lists b).appended.Nodup →
        (s.shared.lists b).removed.Nodup ∧ (s.shared.lists b).removed.Disjoint (s.shared.lists b).list) ∧
      (s.shared.lists b).failed = false ∧
      ∀ s', Step (system user).toProgram s s' → s'.shared.lists b ≠ s.shared.lists b →
        s.owner (lock b) = some s.currentThread := by
  have hfifo := fifo h b
  refine ⟨hfifo.fifo, ?_, hfifo.asserted, fun s' hstep hne => owner_of_access h hstep b hne⟩
  intro hnodup
  rw [← hfifo.fifo] at hnodup
  exact ⟨hnodup.of_append_left, List.disjoint_of_nodup_append hnodup⟩

end

inductive ListOp where
  | append (b item : Nat)
  | remove (b : Nat)
  | setLevel (now : IntStatus)
  | fork (func : Nat)

def listScript (funcs : List (List ListOp)) (main : List ListOp) : User Nat Unit (List ListOp) Unit where
  code
    | [], _ => ((), .call .ret [])
    | .append b item :: rest, _ => ((), .append b item rest)
    | .remove b :: rest, _ => ((), .remove b fun _ => rest)
    | .setLevel now :: rest, _ => ((), .call (.setLevel now) rest)
    | .fork func :: rest, _ => ((), .call (.fork (funcs.getD func [])) rest)
  handler _ _ := ((), [.timerInterruptHandler])
  globals := ()
  main := main
  value _ := 0
  value_nonneg := System.zero_nonneg

def producerConsumer : User Nat Unit (List ListOp) Unit :=
  listScript [[.setLevel .intOff, .remove 0, .remove 0]]
    [.fork 0, .append 0 7, .append 0 8, .append 0 9]

def producerConsumerRun (n : Nat) : State (Globals Nat Unit) (Code Nat (List ListOp)) Unit :=
  runFor (system producerConsumer).toProgram n (boot (system producerConsumer) [⟨(), 15, .timerInt⟩])

theorem reachable_producerConsumerRun (n : Nat)
    : (system producerConsumer).Reachable (producerConsumerRun n) :=
  System.Reachable.runFor (.init ⟨_, rfl⟩) n

theorem synchList_fifo_producerConsumer
    : ((producerConsumerRun 100).shared.lists 0).removed = [7] ∧
      ((producerConsumerRun 100).shared.lists 0).removed ++
        ((producerConsumerRun 100).shared.lists 0).list =
        ((producerConsumerRun 100).shared.lists 0).appended :=
  ⟨by decide +kernel, (synchList_fifo (reachable_producerConsumerRun 100) 0).1⟩

end SynchList

end Nachos
