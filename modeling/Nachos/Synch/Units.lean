import Nachos.Synch.Control
import Nachos.Synch.Device
import Nachos.Synch.Holding

/-!
This module contains what a thread does to the units of one semaphore of the program, by where it is
before and after one action.
-/

namespace Nachos

open Function (update)

def running : List (Point U) → Option U
  | .user u :: _ => some u
  | _ => none

def waiting (n : Nat) : List (Point U) → Bool
  | .p (.sem n') :: _ | .pWhile (.sem n') :: _ => n' = n
  | _ => false

def giving (n : Nat) : List (Point U) → Bool
  | .v (.sem n') :: _ => n' = n
  | _ => false

def Call.isV (n : Nat) : Call U H → Bool
  | .v n' => n' = n
  | _ => false

def Call.isP (n : Nat) : Call U H → Bool
  | .p n' => n' = n
  | _ => false

/--
These calls do not change the units of any semaphore, so they do not show.
-/
def Call.isSilent : Call U H → Bool
  | .yield | .setLevel _ | .schedule .. => true
  | _ => false

def Call.returns : Call U H → Bool
  | .finish | .ret => false
  | call => !call.isSilent

inductive System.Enters (sys : System G U H) (n : Nat) (u : U) : Prop where
  | call (call : Call U H) (hcall : sys.Calls call u) (hreturns : call.returns = true)
      (hne : call ≠ .p n)
  | fork (next : U) (hcall : sys.Calls (.fork u) next)

inductive Units (sys : System G U H) (n : Nat) (a a' : Client G U)
    : List (Point U) → List (Point U) → Prop where
  | call (u : U) (hshared : a'.shared = (sys.code u a.shared).1)
      (hvalue : (a'.sem (.sem n)).value = (a.sem (.sem n)).value)
    : Units sys n a a' [.user u, .finish]
        ((sys.code u a.shared).2.1.points (sys.code u a.shared).2.2 ++ [.finish])
  | take (points : List (Point U)) (u : U) (hshared : a'.shared = a.shared)
      (hcall : sys.Calls (.p n) u) (hrunning : running points = none) (hwaiting : waiting n points = true)
      (hgiving : giving n points = false) (hvalue : (a'.sem (.sem n)).value = (a.sem (.sem n)).value - 1)
    : Units sys n a a' points [.user u, .finish]
  | give (points : List (Point U)) (u : U) (hshared : a'.shared = a.shared) (hcall : sys.Calls (.v n) u)
      (hrunning : running points = none) (hgiving : giving n points = true)
      (hvalue : (a'.sem (.sem n)).value = (a.sem (.sem n)).value + 1)
    : Units sys n a a' points [.user u, .finish]
  | enter (points : List (Point U)) (u : U) (hshared : a'.shared = a.shared) (henters : sys.Enters n u)
      (hrunning : running points = none) (hwaiting : waiting n points = false)
      (hgiving : giving n points = false) (hvalue : (a'.sem (.sem n)).value = (a.sem (.sem n)).value)
    : Units sys n a a' points [.user u, .finish]
  | inside (points points' : List (Point U)) (hshared : a'.shared = a.shared)
      (hrunning : running points = none) (hrunning' : running points' = none)
      (hwaiting : waiting n points = waiting n points')
      (hgiving : giving n points = giving n points') (hvalue : (a'.sem (.sem n)).value = (a.sem (.sem n)).value)
    : Units sys n a a' points points'

section

variable {sys : System G U H} {n : Nat} {a a' : Client G U} {t : Nat} {point : Point U}
  {points rest : List (Point U)} {u : U}

@[simp]
theorem running_user (u : U) (rest : List (Point U)) : running (.user u :: rest) = some u := rfl

@[simp]
theorem waiting_user (u : U) (rest : List (Point U)) : waiting n (.user u :: rest) = false := rfl

@[simp]
theorem giving_user (u : U) (rest : List (Point U)) : giving n (.user u :: rest) = false := rfl

theorem giving_points (call : Call U H) (u : U)
    : giving n (call.points u ++ [.finish]) = call.isV n := by
  cases call <;> rfl

theorem running_points (call : Call U H) (u : U)
    : running (call.points u ++ [.finish]) = if call.isSilent then some u else none := by
  cases call <;> rfl

theorem value_enqueue (a : Client G U) (q q' : SemId) (t : Nat)
    : ((a.enqueue q t).sem q').value = (a.sem q').value := by
  by_cases hq : q' = q
  . simp [Client.enqueue, hq]
  . simp [Client.enqueue, hq]

theorem enters_of_acquires {l : Nat} (h : sys.Acquires l u) : sys.Enters n u := by
  obtain hcall | ⟨c, hcall⟩ := h
  . exact .call _ hcall rfl (by simp)
  . exact .call _ hcall rfl (by simp)

theorem units_take {n' : Nat} (hcall : sys.Calls (.p n') u) (hrunning : running points = none)
    (hwaiting : ∀ n, waiting n points = decide (n' = n)) (hgiving : giving n points = false)
    : Units sys n a (a.take (.sem n') t) points [.user u, .finish] := by
  by_cases hn : n' = n
  . subst hn
    exact .take points u rfl hcall hrunning (by simp [hwaiting]) hgiving (by simp)
  . exact .enter points u rfl (.call _ hcall rfl (by simp [hn])) hrunning (by simp [hwaiting, hn])
      hgiving (by simp [Ne.symm hn])

theorem Client.Act.units (hact : Client.Act sys.toProgram a t point points a')
    (hruns : Runs sys (point :: rest))
    : Units sys n a a' (point :: rest) (points ++ rest) := by
  cases hact with
  | threadRoot func =>
    cases hruns with
    | threadRoot _ u hcall => exact .enter _ func rfl (.fork u hcall) rfl rfl rfl rfl
  | user u =>
    cases hruns with
    | user => exact .call u rfl rfl
  | finish => cases hruns <;> exact .inside _ _ rfl rfl rfl rfl rfl rfl
  | pTake q =>
    cases hruns with
    | p n' u hcall => exact units_take hcall rfl (fun _ => rfl) rfl
    | lockP l u => exact .inside _ _ rfl rfl rfl rfl rfl (by simp)
  | pWhileTake q =>
    cases hruns with
    | pWhile n' u hcall => exact units_take hcall rfl (fun _ => rfl) rfl
    | lockPWhile l u => exact .inside _ _ rfl rfl rfl rfl rfl (by simp)
  | pBlock q =>
    cases hruns with
    | p n' u | lockP l u => exact .inside _ _ rfl rfl rfl rfl rfl (value_enqueue a _ _ t)
  | pWhileBlock q =>
    cases hruns with
    | pWhile n' u | lockPWhile l u => exact .inside _ _ rfl rfl rfl rfl rfl (value_enqueue a _ _ t)
  | v q =>
    cases hruns with
    | v n' u hcall =>
      by_cases hn : n' = n
      . subst hn
        exact .give _ u rfl hcall rfl (by simp [giving]) (by simp)
      . exact .enter _ u rfl (.call _ hcall rfl (by simp)) rfl rfl (by simp [giving, hn])
          (by simp [Ne.symm hn])
    | lockV l u hcall => exact .enter _ u rfl (.call _ hcall rfl (by simp)) rfl rfl rfl (by simp)
    | waitV c l u => exact .inside _ _ rfl rfl rfl rfl rfl (by simp)
  | setOwner l =>
    cases hruns with
    | setOwner _ u hcall => exact .enter _ u rfl (enters_of_acquires hcall) rfl rfl rfl rfl
  | signal c l =>
    cases hruns with
    | signal _ _ u hcall => exact .enter _ u rfl (.call _ hcall rfl (by simp)) rfl rfl rfl rfl
  | broadcast c l =>
    cases hruns with
    | broadcast _ _ u hcall => exact .enter _ u rfl (.call _ hcall rfl (by simp)) rfl rfl rfl rfl
  | fork func =>
    cases hruns with
    | fork _ u hcall => exact .enter _ u rfl (.call _ hcall rfl (by simp)) rfl rfl rfl rfl
  | acquire l | release l | wait c l | waitSleep c l | waitAcquire c l =>
    cases hruns <;> exact .inside _ _ rfl rfl rfl rfl rfl rfl

theorem Runs.running_of_label (h : Runs sys points)
    (hlabel : (points.filterMap Point.code?).getLast? = some u)
    (hcalls : ∀ call, sys.Calls call u → call.isSilent = true) (hfork : ∀ next, ¬sys.Calls (.fork u) next)
    : running points = some u := by
  have hshows : ∀ {call : Call U H}, call.isSilent = false → ¬sys.Calls call u := by
    intro call hshows hcall
    rw [hcalls call hcall] at hshows
    contradiction
  cases h with
  | user v => exact hlabel
  | finish | finished => contradiction
  | threadRoot func v hcall =>
    obtain rfl : func = u := Option.some.inj hlabel
    exact absurd hcall (hfork v)
  | acquire l v hcall | lockP l v hcall | lockPWhile l v hcall | setOwner l v hcall =>
    obtain rfl : v = u := Option.some.inj hlabel
    obtain hcall | ⟨c, hcall⟩ := hcall
    . exact absurd hcall (hshows rfl)
    . exact absurd hcall (hshows rfl)
  | exit v hcall | exited v hcall | fork _ v hcall | p _ v hcall | pWhile _ v hcall | v _ v hcall
  | release _ v hcall | lockV _ v hcall | wait _ _ v hcall | waitRelease _ _ v hcall | waitV _ _ v hcall
  | waitSleep _ _ v hcall | waitAcquire _ _ v hcall | signal _ _ v hcall | broadcast _ _ v hcall =>
    obtain rfl : v = u := Option.some.inj hlabel
    exact absurd hcall (hshows rfl)

def Client.num (f : List (Point U) → Bool) (a : Client G U) : Nat :=
  Nat.count (fun t => f (a.points t) = true) a.numThreads

theorem Client.Act.num {prog : Program G U H} (hact : Client.Act prog a t point points a')
    (ht : t < a.numThreads) (hpoints : a.points t = point :: rest) {f : List (Point U) → Bool}
    (hroot : ∀ func, f [.threadRoot func] = false)
    : (a'.setPoints t (points ++ rest)).num f + (f (point :: rest)).toNat =
        a.num f + (f (points ++ rest)).toNat := by
  have hcount := hact.count ht (P := fun t => f (a.points t) = true)
    (Q := fun t' => f ((a'.setPoints t (points ++ rest)).points t') = true) ?_ ?_
  . have htoNat : ∀ b : Bool, b.toNat = if b = true then 1 else 0 := by
      intro b
      cases b <;> rfl
    simp only [hpoints, Client.setPoints_points, Function.update_self] at hcount
    rw [htoNat, htoNat]
    exact hcount
  . intro t' ht' hne
    rw [Client.setPoints_points, Function.update_of_ne hne, hact.points_of_lt ht']
  . intro t' func hle hnew
    rw [Client.setPoints_points, Function.update_of_ne (by omega), hnew, hroot]
    exact Bool.false_ne_true

end

end Nachos
