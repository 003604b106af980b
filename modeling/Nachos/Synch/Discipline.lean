import Nachos.Synch.Lock

/-!
This module contains the programs that use a single lock in the intended way: the code of a thread
determines whether the thread has the lock, `Acquire` is only called without it and `Release` only
with it. In every run the thread has the lock exactly if its code says so.
-/

namespace Nachos

open Function (update)

def Call.Respects (l : Nat) (has : Bool → U → Prop) (held : Bool) (call : Call U H) (u : U) : Prop :=
  match call with
  | .yield | .setLevel _ | .schedule _ _ _ | .p _ | .v _ => has held u
  | .fork func => has false func ∧ has held u
  | .acquire l' => l' = l ∧ held = false ∧ has true u
  | .release l' => l' = l ∧ held = true ∧ has false u
  | .finish | .ret => held = false
  | .wait _ _ | .signal _ _ | .broadcast _ _ => False

structure Discipline (sys : System G U H) (l : Nat) where
  has : Bool → U → Prop
  main : has false sys.main
  code : ∀ held u g, has held u → (sys.code u g).2.1.Respects l has held (sys.code u g).2.2

namespace Discipline

variable {sys : System G U H} {l : Nat} (d : Discipline sys l)

def Called (held : Bool) (call : Call U H) (u : U) : Prop :=
  ∃ u₀ g, d.has held u₀ ∧ (sys.code u₀ g).2 = (call, u)

theorem Called.respects {held : Bool} {call : Call U H} {u : U} (h : d.Called held call u)
    : call.Respects l d.has held u := by
  obtain ⟨u₀, g, hu, hcode⟩ := h
  have := d.code held u₀ g hu
  rw [hcode] at this
  exact this

/--
A thread of such a program, `held` says whether it is the owner of the lock.
-/
inductive Follows (held : Bool) : List (Point U) → Prop where
  | threadRoot (func u : U) (before : Bool) (hcall : d.Called before (.fork func) u)
      (hheld : held = false)
    : Follows held [.threadRoot func]
  | user (u : U) (hu : d.has held u)
    : Follows held [.user u, .finish]
  | finish (hheld : held = false)
    : Follows held [.finish]
  | exit (u : U) (hcall : d.Called false .finish u) (hheld : held = false)
    : Follows held [.finish, .user u, .finish]
  | finished (hheld : held = false)
    : Follows held [.notReached]
  | exited (u : U) (hcall : d.Called false .finish u) (hheld : held = false)
    : Follows held [.notReached, .user u, .finish]
  | fork (func u : U) (hcall : d.Called held (.fork func) u)
    : Follows held [.fork func, .user u, .finish]
  | p (n : Nat) (u : U) (hcall : d.Called held (.p n) u)
    : Follows held [.p (.sem n), .user u, .finish]
  | pWhile (n : Nat) (u : U) (hcall : d.Called held (.p n) u)
    : Follows held [.pWhile (.sem n), .user u, .finish]
  | v (n : Nat) (u : U) (hcall : d.Called held (.v n) u)
    : Follows held [.v (.sem n), .user u, .finish]
  | acquire (u : U) (hcall : d.Called false (.acquire l) u) (hheld : held = false)
    : Follows held [.acquire l, .user u, .finish]
  | lockP (u : U) (hcall : d.Called false (.acquire l) u) (hheld : held = false)
    : Follows held [.p (.lock l), .setOwner l, .user u, .finish]
  | lockPWhile (u : U) (hcall : d.Called false (.acquire l) u) (hheld : held = false)
    : Follows held [.pWhile (.lock l), .setOwner l, .user u, .finish]
  | setOwner (u : U) (hcall : d.Called false (.acquire l) u) (hheld : held = false)
    : Follows held [.setOwner l, .user u, .finish]
  | release (u : U) (hcall : d.Called true (.release l) u) (hheld : held = true)
    : Follows held [.release l, .user u, .finish]
  | lockV (u : U) (hcall : d.Called true (.release l) u) (hheld : held = false)
    : Follows held [.v (.lock l), .user u, .finish]

variable {d} {held : Bool} {a a' : Client G U} {t : Nat} {point : Point U}
  {points rest : List (Point U)}

theorem Follows.call {call : Call U H} {u : U} (h : d.Called held call u)
    : d.Follows held (call.points u ++ [.finish]) := by
  have hrespects := h.respects
  cases call with
  | yield | setLevel | schedule => exact .user u hrespects
  | p n => exact .p n u h
  | v n => exact .v n u h
  | fork func => exact .fork func u h
  | acquire l' =>
    obtain ⟨rfl, rfl, _⟩ := hrespects
    exact .acquire u h rfl
  | release l' =>
    obtain ⟨rfl, rfl, _⟩ := hrespects
    exact .release u h rfl
  | finish =>
    have hheld : held = false := hrespects
    subst hheld
    exact .exit u h rfl
  | ret => exact .finish hrespects
  | wait | signal | broadcast => exact hrespects.elim

theorem Follows.act (hact : Client.Act sys.toProgram a t point points a')
    (h : d.Follows (decide (a.owner l = some t)) (point :: rest))
    : d.Follows (decide (a'.owner l = some t)) (points ++ rest) := by
  cases hact with
  | threadRoot func =>
    cases h with
    | threadRoot _ u before hcall hheld =>
      rw [hheld]
      exact .user func hcall.respects.1
  | user u =>
    cases h with
    | user _ hu => exact Follows.call ⟨u, a.shared, hu, rfl⟩
  | finish =>
    cases h with
    | finish hheld => exact .finished hheld
    | exit u hcall hheld => exact .exited u hcall hheld
  | pTake q =>
    cases h with
    | p n u hcall => exact .user u hcall.respects
    | lockP u hcall hheld => exact .setOwner u hcall hheld
  | pWhileTake q =>
    cases h with
    | pWhile n u hcall => exact .user u hcall.respects
    | lockPWhile u hcall hheld => exact .setOwner u hcall hheld
  | pBlock q =>
    cases h with
    | p n u hcall => exact .pWhile n u hcall
    | lockP u hcall hheld => exact .lockPWhile u hcall hheld
  | pWhileBlock q =>
    cases h with
    | pWhile n u hcall => exact .pWhile n u hcall
    | lockPWhile u hcall hheld => exact .lockPWhile u hcall hheld
  | v q =>
    cases h with
    | v n u hcall => exact .user u hcall.respects
    | lockV u hcall hheld =>
      refine .user u ?_
      rw [show decide ((a.post (.lock l) t).owner l = some t) = false from hheld]
      exact hcall.respects.2.2
  | acquire l' howner =>
    cases h with
    | acquire u hcall hheld => exact .lockP u hcall hheld
  | setOwner l' =>
    cases h with
    | setOwner u hcall =>
      refine .user u ?_
      simpa using hcall.respects.2.2
  | release l' howner =>
    cases h with
    | release u hcall => exact .lockV u hcall (by simp)
  | fork func =>
    cases h with
    | fork _ u hcall => exact .user u hcall.respects.2
  | _ => cases h

theorem Follows.fork_called {func : U} (h : d.Follows held (.fork func :: rest))
    : ∃ u, d.Called held (.fork func) u := by
  cases h with
  | fork _ u hcall => exact ⟨u, hcall⟩

theorem follows (d : Discipline sys l) (h : sys.ClientReachable a)
    : ∀ t, t < a.numThreads → d.Follows (decide (a.owner l = some t)) (a.points t) := by
  refine h.thread_invariant (Q := fun a t points => d.Follows (decide (a.owner l = some t)) points)
    (.user _ d.main) (fun _ _ _ _ => id) (fun _ _ _ _ _ => id) ?_
  intro a a' t point points rest hreach ht hpoints hact hself
  have hlock : LockInv l a := System.ClientReachable.lockInv hreach l
  have hsem := (System.ClientReachable.semInv hreach).nonneg (.lock l)
  refine ⟨?_, ?_, ?_⟩
  . rw [Client.setPoints_owner]
    exact hself.act hact
  . intro t' points' hne _ _ hother
    rw [Client.setPoints_owner]
    simp only [hlock.owner_of_ne hsem ht hpoints hact hne]
    exact hother
  . rintro func rfl
    have hfree : a.owner l ≠ some a.numThreads := by
      intro heq
      exact Nat.lt_irrefl _ (hlock.owner_lt _ heq)
    obtain ⟨u, hcall⟩ := hself.fork_called
    cases hact with
    | fork => exact .threadRoot func u _ hcall (by simpa using hfree)

end Discipline

end Nachos
