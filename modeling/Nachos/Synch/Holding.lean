import Nachos.Synch.Lock

/-!
This module contains which call a thread is in, and which locks it owns, for programs with any number
of locks and conditions. A lock is used in the intended way if the code of a thread determines whether
the thread has it. Then in every run the thread is the owner exactly if its code says so.
-/

namespace Nachos

open Function (update)

def System.Calls (sys : System G U H) (call : Call U H) (u : U) : Prop :=
  ∃ u₀ g, (sys.code u₀ g).2 = (call, u)

def System.Acquires (sys : System G U H) (l : Nat) (u : U) : Prop :=
  sys.Calls (.acquire l) u ∨ ∃ c, sys.Calls (.wait c l) u

inductive Runs (sys : System G U H) : List (Point U) → Prop where
  | threadRoot (func u : U) (hcall : sys.Calls (.fork func) u)
    : Runs sys [.threadRoot func]
  | user (u : U)
    : Runs sys [.user u, .finish]
  | finish
    : Runs sys [.finish]
  | exit (u : U) (hcall : sys.Calls .finish u)
    : Runs sys [.finish, .user u, .finish]
  | finished
    : Runs sys [.notReached]
  | exited (u : U) (hcall : sys.Calls .finish u)
    : Runs sys [.notReached, .user u, .finish]
  | fork (func u : U) (hcall : sys.Calls (.fork func) u)
    : Runs sys [.fork func, .user u, .finish]
  | p (n : Nat) (u : U) (hcall : sys.Calls (.p n) u)
    : Runs sys [.p (.sem n), .user u, .finish]
  | pWhile (n : Nat) (u : U) (hcall : sys.Calls (.p n) u)
    : Runs sys [.pWhile (.sem n), .user u, .finish]
  | v (n : Nat) (u : U) (hcall : sys.Calls (.v n) u)
    : Runs sys [.v (.sem n), .user u, .finish]
  | acquire (l : Nat) (u : U) (hcall : sys.Acquires l u)
    : Runs sys [.acquire l, .user u, .finish]
  | lockP (l : Nat) (u : U) (hcall : sys.Acquires l u)
    : Runs sys [.p (.lock l), .setOwner l, .user u, .finish]
  | lockPWhile (l : Nat) (u : U) (hcall : sys.Acquires l u)
    : Runs sys [.pWhile (.lock l), .setOwner l, .user u, .finish]
  | setOwner (l : Nat) (u : U) (hcall : sys.Acquires l u)
    : Runs sys [.setOwner l, .user u, .finish]
  | release (l : Nat) (u : U) (hcall : sys.Calls (.release l) u)
    : Runs sys [.release l, .user u, .finish]
  | lockV (l : Nat) (u : U) (hcall : sys.Calls (.release l) u)
    : Runs sys [.v (.lock l), .user u, .finish]
  | wait (c l : Nat) (u : U) (hcall : sys.Calls (.wait c l) u)
    : Runs sys [.wait c l, .user u, .finish]
  | waitRelease (c l : Nat) (u : U) (hcall : sys.Calls (.wait c l) u)
    : Runs sys [.release l, .waitSleep c l, .user u, .finish]
  | waitV (c l : Nat) (u : U) (hcall : sys.Calls (.wait c l) u)
    : Runs sys [.v (.lock l), .waitSleep c l, .user u, .finish]
  | waitSleep (c l : Nat) (u : U) (hcall : sys.Calls (.wait c l) u)
    : Runs sys [.waitSleep c l, .user u, .finish]
  | waitAcquire (c l : Nat) (u : U) (hcall : sys.Calls (.wait c l) u)
    : Runs sys [.waitAcquire c l, .user u, .finish]
  | signal (c l : Nat) (u : U) (hcall : sys.Calls (.signal c l) u)
    : Runs sys [.signal c l, .user u, .finish]
  | broadcast (c l : Nat) (u : U) (hcall : sys.Calls (.broadcast c l) u)
    : Runs sys [.broadcast c l, .user u, .finish]

section Runs

variable {sys : System G U H} {a a' : Client G U} {t : Nat} {point : Point U}
  {points rest : List (Point U)}

theorem Runs.call {call : Call U H} {u : U} (h : sys.Calls call u)
    : Runs sys (call.points u ++ [.finish]) := by
  cases call with
  | yield | setLevel | schedule => exact .user u
  | p n => exact .p n u h
  | v n => exact .v n u h
  | acquire l => exact .acquire l u (.inl h)
  | release l => exact .release l u h
  | wait c l => exact .wait c l u h
  | signal c l => exact .signal c l u h
  | broadcast c l => exact .broadcast c l u h
  | fork func => exact .fork func u h
  | finish => exact .exit u h
  | ret => exact .finish

theorem Runs.act (hact : Client.Act sys.toProgram a t point points a') (h : Runs sys (point :: rest))
    : Runs sys (points ++ rest) := by
  cases hact with
  | threadRoot func =>
    cases h with
    | threadRoot => exact .user func
  | user u =>
    cases h with
    | user => exact Runs.call ⟨u, a.shared, rfl⟩
  | finish =>
    cases h with
    | finish => exact .finished
    | exit u hcall => exact .exited u hcall
  | pTake q =>
    cases h with
    | p n u => exact .user u
    | lockP l u hcall => exact .setOwner l u hcall
  | pBlock q =>
    cases h with
    | p n u hcall => exact .pWhile n u hcall
    | lockP l u hcall => exact .lockPWhile l u hcall
  | pWhileTake q =>
    cases h with
    | pWhile n u => exact .user u
    | lockPWhile l u hcall => exact .setOwner l u hcall
  | pWhileBlock q =>
    cases h with
    | pWhile n u hcall => exact .pWhile n u hcall
    | lockPWhile l u hcall => exact .lockPWhile l u hcall
  | v q =>
    cases h with
    | v n u => exact .user u
    | lockV l u => exact .user u
    | waitV c l u hcall => exact .waitSleep c l u hcall
  | acquire l =>
    cases h with
    | acquire _ u hcall => exact .lockP l u hcall
  | setOwner l =>
    cases h with
    | setOwner _ u => exact .user u
  | release l =>
    cases h with
    | release _ u hcall => exact .lockV l u hcall
    | waitRelease c _ u hcall => exact .waitV c l u hcall
  | wait c l =>
    cases h with
    | wait _ _ u hcall => exact .waitRelease c l u hcall
  | waitSleep c l =>
    cases h with
    | waitSleep _ _ u hcall => exact .waitAcquire c l u hcall
  | waitAcquire c l =>
    cases h with
    | waitAcquire _ _ u hcall => exact .acquire l u (.inr ⟨c, hcall⟩)
  | signal c l =>
    cases h with
    | signal _ _ u => exact .user u
  | broadcast c l =>
    cases h with
    | broadcast _ _ u => exact .user u
  | fork func =>
    cases h with
    | fork _ u => exact .user u

theorem System.ClientReachable.runs (h : sys.ClientReachable a)
    : ∀ t, t < a.numThreads → Runs sys (a.points t) := by
  refine h.thread_invariant (Q := fun _ _ points => Runs sys points) (.user _) (fun _ _ _ _ => id)
    (fun _ _ _ _ _ => id) ?_
  intro a a' t point points rest _ _ _ hact hself
  refine ⟨hself.act hact, fun _ _ _ _ _ => id, ?_⟩
  rintro func rfl
  cases hself with
  | fork _ u hcall => exact .threadRoot func u hcall

end Runs

/-! ### The owner of a lock -/

def Call.Keeps (l : Nat) (held : U → Bool) (before : Bool) (call : Call U H) (u : U) : Prop :=
  match call with
  | .acquire l' => if l' = l then before = false ∧ held u = true else held u = before
  | .release l' => if l' = l then before = true ∧ held u = false else held u = before
  | .wait _ l' => if l' = l then before = true ∧ held u = true else held u = before
  | .fork func => held func = false ∧ held u = before
  | .ret => before = false
  | _ => held u = before

/--
Other names for what the calls of a user refer to, where the user is a part of a bigger program.
-/
structure Rename (U V H K : Type) where
  lock : Nat → Nat
  cond : Nat → Nat
  sem : Nat → Nat
  func : U → V
  handler : H → K

def Call.rename (names : Rename U V H K) : Call U H → Call V K
  | .yield => .yield
  | .setLevel now => .setLevel now
  | .p s => .p (names.sem s)
  | .v s => .v (names.sem s)
  | .acquire l => .acquire (names.lock l)
  | .release l => .release (names.lock l)
  | .wait c l => .wait (names.cond c) (names.lock l)
  | .signal c l => .signal (names.cond c) (names.lock l)
  | .broadcast c l => .broadcast (names.cond c) (names.lock l)
  | .fork f => .fork (names.func f)
  | .schedule handler fromNow type => .schedule (names.handler handler) fromNow type
  | .finish => .finish
  | .ret => .ret

def HandlerCall.rename (names : Rename U V H K) : HandlerCall H → HandlerCall K
  | .timerInterruptHandler => .timerInterruptHandler
  | .v s => .v (names.sem s)
  | .schedule handler fromNow type => .schedule (names.handler handler) fromNow type

theorem Call.rename_keeps {names : Rename U V H K} {l : Nat} {held : V → Bool} (call : Call U H)
    (hlock : ∀ l', names.lock l' ≠ l) (hfunc : ∀ f, held (names.func f) = false) {u : V}
    (hu : held u = false)
    : (call.rename names).Keeps l held false u := by
  cases call with
  | acquire l' | release l' | wait c l' => simp [Call.rename, Call.Keeps, hlock, hu]
  | fork f => exact ⟨hfunc f, hu⟩
  | ret => rfl
  | _ => exact hu

structure Holding (sys : System G U H) (l : Nat) where
  held : U → Bool
  main : held sys.main = false
  code : ∀ u g, (sys.code u g).2.1.Keeps l held (held u) (sys.code u g).2.2

namespace Holding

variable {sys : System G U H} {l : Nat} (d : Holding sys l)

def base : List (Point U) → Bool
  | [] => false
  | .user u :: _ => d.held u
  | _ :: rest => base rest

def owns (points : List (Point U)) : Bool :=
  match points with
  | .acquire l' :: _ | .setOwner l' :: _ | .p (.lock l') :: _ | .pWhile (.lock l') :: _
  | .v (.lock l') :: _ | .waitSleep _ l' :: _ | .waitAcquire _ l' :: _ => l' ≠ l && d.base points
  | .release l' :: _ => l' = l || d.base points
  | _ => d.base points

variable {d} {call : Call U H} {u : U}

theorem keeps (h : sys.Calls call u) : ∃ before, call.Keeps l d.held before u := by
  obtain ⟨u₀, g, hcode⟩ := h
  have := d.code u₀ g
  rw [hcode] at this
  exact ⟨d.held u₀, this⟩

theorem held_of_acquires (h : sys.Acquires l u) : d.held u = true := by
  obtain hcall | ⟨c, hcall⟩ := h
  . obtain ⟨before, hkeeps⟩ := d.keeps hcall
    simp only [Call.Keeps, if_true] at hkeeps
    exact hkeeps.2
  . obtain ⟨before, hkeeps⟩ := d.keeps hcall
    simp only [Call.Keeps, if_true] at hkeeps
    exact hkeeps.2

theorem not_held_of_release (h : sys.Calls (.release l) u) : d.held u = false := by
  obtain ⟨before, hkeeps⟩ := d.keeps h
  simp only [Call.Keeps, if_true] at hkeeps
  exact hkeeps.2

theorem held_of_wait {c : Nat} (h : sys.Calls (.wait c l) u) : d.held u = true :=
  held_of_acquires (.inr ⟨c, h⟩)

theorem not_held_of_fork {func : U} (h : sys.Calls (.fork func) u) : d.held func = false := by
  obtain ⟨before, hkeeps⟩ := d.keeps h
  exact hkeeps.1

theorem owns_call {before : Bool} (h : call.Keeps l d.held before u)
    : d.owns (call.points u ++ [.finish]) = before := by
  cases call with
  | ret => exact h.symm
  | fork func => exact h.2
  | acquire l' =>
    change (decide (l' ≠ l) && d.held u) = before
    simp only [Call.Keeps] at h
    split at h
    next heq => simp [heq, h.1]
    next hne => simp [hne, h]
  | release l' =>
    change (decide (l' = l) || d.held u) = before
    simp only [Call.Keeps] at h
    split at h
    next heq => simp [heq, h.1]
    next hne => simp [hne, h]
  | wait c l' =>
    change d.held u = before
    simp only [Call.Keeps] at h
    split at h
    next => rw [h.1, h.2]
    next => exact h
  | yield | setLevel | schedule | p | v | signal | broadcast | finish => exact h

theorem owns_act {a a' : Client G U} {t : Nat} {point : Point U} {points rest : List (Point U)}
    (hact : Client.Act sys.toProgram a t point points a') (hruns : Runs sys (point :: rest))
    (h : decide (a.owner l = some t) = d.owns (point :: rest))
    : decide (a'.owner l = some t) = d.owns (points ++ rest) := by
  cases hact with
  | threadRoot func =>
    cases hruns with
    | threadRoot _ u hcall => exact h.trans (not_held_of_fork hcall).symm
  | user u =>
    cases hruns with
    | user => exact h.trans (owns_call (d.code u a.shared)).symm
  | finish =>
    cases hruns with
    | finish => exact h
    | exit u hcall => exact h
  | pTake q | pWhileTake q | pBlock q | pWhileBlock q =>
    cases hruns <;> exact h
  | v q =>
    cases hruns with
    | v n u => exact h
    | waitV c l' u hcall => exact h
    | lockV l' u hcall =>
      change _ = d.held u
      change _ = (decide (l' ≠ l) && d.held u) at h
      by_cases heq : l' = l
      . subst heq
        rw [not_held_of_release hcall] at h ⊢
        simpa using h
      . simpa [heq] using h
  | acquire l' =>
    cases hruns with
    | acquire _ u hcall => exact h
  | setOwner l' =>
    cases hruns with
    | setOwner _ u hcall =>
      change _ = d.held u
      change _ = (decide (l' ≠ l) && d.held u) at h
      by_cases heq : l' = l
      . subst heq
        simp [held_of_acquires hcall]
      . simpa [heq, Ne.symm heq] using h
  | release l' =>
    have hafter : ∀ b, decide (a.owner l = some t) = (decide (l' = l) || b) →
        decide (update a.owner l' none l = some t) = (decide (l' ≠ l) && b) := by
      intro b hb
      by_cases heq : l' = l
      . simp [heq]
      . simpa [heq, Ne.symm heq] using hb
    cases hruns with
    | release _ u => exact hafter (d.held u) h
    | waitRelease c _ u => exact hafter (d.held u) h
  | wait c l' =>
    cases hruns with
    | wait _ _ u hcall =>
      change _ = (decide (l' = l) || d.held u)
      change _ = d.held u at h
      by_cases heq : l' = l
      . subst heq
        rw [held_of_wait hcall] at h ⊢
        simpa using h
      . simpa [heq] using h
  | waitSleep c l' | waitAcquire c l' | signal c l' | broadcast c l' | fork func =>
    cases hruns
    exact h

theorem owner_iff (d : Holding sys l) {a : Client G U} (h : sys.ClientReachable a)
    : ∀ t, t < a.numThreads → decide (a.owner l = some t) = d.owns (a.points t) := by
  refine h.thread_invariant (Q := fun a t points => decide (a.owner l = some t) = d.owns points)
    ?_ (fun _ _ _ _ => id) (fun _ _ _ _ _ => id) ?_
  . exact d.main.symm
  . intro a a' t point points rest hreach ht hpoints hact hself
    have hlock : LockInv l a := System.ClientReachable.lockInv hreach l
    have hsem := (System.ClientReachable.semInv hreach).nonneg (.lock l)
    have hruns := System.ClientReachable.runs hreach t ht
    rw [hpoints] at hruns
    refine ⟨?_, ?_, ?_⟩
    . rw [Client.setPoints_owner]
      exact owns_act hact hruns hself
    . intro t' points' hne _ _ hother
      rw [Client.setPoints_owner]
      simp only [hlock.owner_of_ne hsem ht hpoints hact hne]
      exact hother
    . rintro func rfl
      cases hact with
      | fork =>
        have hfree : a.owner l ≠ some a.numThreads := by
          intro heq
          exact Nat.lt_irrefl _ (hlock.owner_lt _ heq)
        simpa [owns, base] using hfree

theorem owner_eq (d : Holding sys l) {s : State G U H} (h : sys.Reachable s)
    {u : U} {rest : List (Frame U H)} (hstack : s.stack s.currentThread = .user u :: rest)
    (hheld : d.held u = true)
    : s.owner l = some s.currentThread := by
  have howner := d.owner_iff h.client s.currentThread h.inv.placed.current_lt
  have hpoints : s.client.points s.currentThread = .user u :: rest.filterMap Frame.point? := by
    simp [State.client, hstack, Frame.point?]
  rw [hpoints] at howner
  exact of_decide_eq_true (howner.trans hheld)

end Holding

end Nachos
