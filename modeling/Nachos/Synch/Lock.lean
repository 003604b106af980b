import Nachos.Threads.Fault
import Nachos.Synch.Semaphore

/-!
This module contains the invariant of locks. A thread is in the lock from the `P` in `Acquire` until
the `V` in `Release`. The member `owner` is written at other times than these, so the invariant also
says where a thread is while it is in the lock and not its owner.
-/

namespace Nachos

open Function (update)

namespace Point

def isInside (l : Nat) : List (Point U) → Bool
  | .setOwner l' :: _ => l' = l
  | .v (.lock l') :: _ => l' = l
  | _ => false

def isBusy (l : Nat) : List (Point U) → Bool
  | .p (.lock l') :: _ => l' = l
  | .pWhile (.lock l') :: _ => l' = l
  | points => isInside l points

end Point

namespace Client

variable (a : Client G U)

def holds (l t : Nat) : Bool :=
  decide (t < a.numThreads) && (a.owner l = some t || Point.isInside l (a.points t))

end Client

structure LockInv (l : Nat) (a : Client G U) : Prop where
  unit : (a.sem (.lock l)).value + Nat.count (fun t => a.holds l t) a.numThreads = 1
  held : ∀ t, a.syncLog.count (.p (.lock l) t) =
    a.syncLog.count (.v (.lock l) t) + if a.holds l t then 1 else 0
  session : ∀ t, a.syncLog.count (.acquired l t) =
    a.syncLog.count (.released l t) + if a.owner l = some t then 1 else 0
  busy : ∀ t, t < a.numThreads → Point.isBusy l (a.points t) = true → a.owner l ≠ some t
  owner_lt : ∀ t, a.owner l = some t → t < a.numThreads

theorem lockInv_boot (sys : System G U H) (l : Nat) : LockInv l sys.clientBoot := by
  constructor
  all_goals simp [System.clientBoot, Client.holds, Point.isInside, Nat.count_succ]

namespace LockInv

variable {prog : Program G U H} {a a' : Client G U} {l t : Nat} {point : Point U}
  {points rest : List (Point U)}

theorem holds_of_ne (h : LockInv l a) (hact : Client.Act prog a t point points a') {t' : Nat}
    (hne : t' ≠ t) (howner : a'.owner l = some t' ↔ a.owner l = some t')
    : (a'.setPoints t (points ++ rest)).holds l t' = a.holds l t' := by
  by_cases ht : t' < a.numThreads
  . have ht' := Nat.lt_of_lt_of_le ht hact.numThreads_le
    simp [Client.holds, ht, ht', hne, hact.points_of_lt ht, howner]
  . have hold : a.owner l ≠ some t' := fun heq => ht (h.owner_lt t' heq)
    by_cases ht' : t' < a'.numThreads
    . obtain ⟨func, hpoints⟩ := hact.points_of_not_lt ht' ht
      simp [Client.holds, ht, ht', hne, hpoints, Point.isInside, howner, hold]
    . simp [Client.holds, ht, ht']

theorem act (h : LockInv l a) (ht : t < a.numThreads) (hact : Client.Act prog a t point points a')
    (hother : ∀ t', t' ≠ t → (a'.owner l = some t' ↔ a.owner l = some t') ∧
      a'.syncLog.count (.p (.lock l) t') = a.syncLog.count (.p (.lock l) t') ∧
      a'.syncLog.count (.v (.lock l) t') = a.syncLog.count (.v (.lock l) t') ∧
      a'.syncLog.count (.acquired l t') = a.syncLog.count (.acquired l t') ∧
      a'.syncLog.count (.released l t') = a.syncLog.count (.released l t'))
    (after : Bool)
    (hafter : after = (decide (a'.owner l = some t) || Point.isInside l (points ++ rest)))
    (hunit : (a'.sem (.lock l)).value + (if after then 1 else 0) =
      (a.sem (.lock l)).value + if a.holds l t then 1 else 0)
    (hheld : a'.syncLog.count (.p (.lock l) t) =
      a'.syncLog.count (.v (.lock l) t) + if after then 1 else 0)
    (hsession : a'.syncLog.count (.acquired l t) =
      a'.syncLog.count (.released l t) + if a'.owner l = some t then 1 else 0)
    (hbusy : Point.isBusy l (points ++ rest) = true → a'.owner l ≠ some t)
    : LockInv l (a'.setPoints t (points ++ rest)) := by
  have ht' := Nat.lt_of_lt_of_le ht hact.numThreads_le
  have hholds : (a'.setPoints t (points ++ rest)).holds l t = after := by
    simp [Client.holds, ht', hafter]
  have hholds_ne : ∀ t', t' ≠ t → (a'.setPoints t (points ++ rest)).holds l t' = a.holds l t' :=
    fun t' hne => h.holds_of_ne hact hne (hother t' hne).1
  constructor
  case unit =>
    have hcount : Nat.count (fun t' => (a'.setPoints t (points ++ rest)).holds l t') a'.numThreads +
          (if a.holds l t then 1 else 0) =
        Nat.count (fun t' => a.holds l t') a.numThreads +
          (if (a'.setPoints t (points ++ rest)).holds l t then 1 else 0) := by
      apply hact.count ht
      . intro t' _ hne
        rw [hholds_ne t' hne]
      . intro t' func hle _
        rw [hholds_ne t' (by omega)]
        simp [Client.holds, hle]
    have := h.unit
    rw [hholds] at hcount
    simp only [Client.setPoints_sem, Client.setPoints_numThreads]
    split at hunit <;> split at hunit <;> simp_all <;> omega
  case held =>
    intro t'
    rw [Client.setPoints_syncLog]
    by_cases hne : t' = t
    . subst hne
      rw [hholds]
      exact hheld
    . rw [hholds_ne t' hne, (hother t' hne).2.1, (hother t' hne).2.2.1]
      exact h.held t'
  case session =>
    intro t'
    rw [Client.setPoints_syncLog, Client.setPoints_owner]
    by_cases hne : t' = t
    . subst hne
      exact hsession
    . obtain ⟨howner, _, _, hacquired, hreleased⟩ := hother t' hne
      simp only [hacquired, hreleased, howner]
      exact h.session t'
  case busy =>
    intro t' hlt hb
    rw [Client.setPoints_owner]
    rw [Client.setPoints_points] at hb
    by_cases hne : t' = t
    . subst hne
      rw [Function.update_self] at hb
      exact hbusy hb
    . rw [Function.update_of_ne hne] at hb
      rw [Ne, (hother t' hne).1]
      by_cases hold : t' < a.numThreads
      . rw [hact.points_of_lt hold] at hb
        exact h.busy t' hold hb
      . exact fun heq => hold (h.owner_lt t' heq)
  case owner_lt =>
    intro t' heq
    rw [Client.setPoints_numThreads]
    by_cases hne : t' = t
    . rw [hne]
      exact ht'
    . exact Nat.lt_of_lt_of_le (h.owner_lt t' ((hother t' hne).1.mp heq)) hact.numThreads_le

theorem silent (h : LockInv l a) (ht : t < a.numThreads) (hpoints : a.points t = point :: rest)
    (hact : Client.Act prog a t point points a')
    (hvalue : (a'.sem (.lock l)).value = (a.sem (.lock l)).value)
    (howner : a'.owner l = a.owner l)
    (hlog : ∀ t', a'.syncLog.count (.p (.lock l) t') = a.syncLog.count (.p (.lock l) t') ∧
      a'.syncLog.count (.v (.lock l) t') = a.syncLog.count (.v (.lock l) t') ∧
      a'.syncLog.count (.acquired l t') = a.syncLog.count (.acquired l t') ∧
      a'.syncLog.count (.released l t') = a.syncLog.count (.released l t'))
    (hinside : Point.isInside l (points ++ rest) = Point.isInside l (point :: rest))
    (hbusy : Point.isBusy l (points ++ rest) = Point.isBusy l (point :: rest))
    : LockInv l (a'.setPoints t (points ++ rest)) := by
  have hholds : a.holds l t = (decide (a'.owner l = some t) || Point.isInside l (points ++ rest)) := by
    simp [Client.holds, ht, hpoints, howner, hinside]
  refine h.act ht hact ?_ _ hholds ?_ ?_ ?_ ?_
  . intro t' _
    exact ⟨by rw [howner], hlog t'⟩
  . rw [hvalue]
  . rw [(hlog t).1, (hlog t).2.1]
    exact h.held t
  . rw [(hlog t).2.2.1, (hlog t).2.2.2, howner]
    exact h.session t
  . intro hb
    rw [hbusy, ← hpoints] at hb
    rw [howner]
    exact h.busy t ht hb

theorem eq_of_holds (h : LockInv l a) (hnonneg : 0 ≤ (a.sem (.lock l)).value) {t' : Nat}
    (ht : a.holds l t = true) (ht' : a.holds l t' = true)
    : t = t' := by
  have hlt : ∀ i, a.holds l i = true → i < a.numThreads := by
    intro i hi
    simp only [Client.holds, Bool.and_eq_true, decide_eq_true_eq] at hi
    exact hi.1
  refine Nat.eq_of_count_le_one (p := fun i => a.holds l i = true) ?_ (hlt t ht) (hlt t' ht') ht ht'
  have := h.unit
  omega

theorem owner_of_ne (h : LockInv l a) (hnonneg : 0 ≤ (a.sem (.lock l)).value) (ht : t < a.numThreads)
    (hpoints : a.points t = point :: rest) (hact : Client.Act prog a t point points a') {t' : Nat}
    (hne : t' ≠ t)
    : a'.owner l = some t' ↔ a.owner l = some t' := by
  cases hact with
  | setOwner l' =>
    by_cases hl : l = l'
    . subst hl
      -- nobody else is in the lock, so nobody else is its owner
      have hfree : a.owner l ≠ some t' := by
        intro heq
        apply hne
        apply h.eq_of_holds hnonneg
        . simp [Client.holds, heq, h.owner_lt t' heq]
        . simp [Client.holds, hpoints, Point.isInside, ht]
      simp [hfree, Ne.symm hne]
    . simp [hl]
  | release l' howner =>
    by_cases hl : l = l'
    . subst hl
      simp [howner, Ne.symm hne]
    . simp [hl]
  | _ => rfl

theorem take (h : LockInv l a) (ht : t < a.numThreads) (hpoints : a.points t = point :: rest)
    (hact : Client.Act prog a t point [] (a.take (.lock l) t))
    (hpoint : point = .p (.lock l) ∨ point = .pWhile (.lock l))
    (hrest : Point.isInside l rest = true)
    : LockInv l ((a.take (.lock l) t).setPoints t ([] ++ rest)) := by
  have howner : a.owner l ≠ some t := by
    apply h.busy t ht
    rcases hpoint with rfl | rfl <;> simp [hpoints, Point.isBusy]
  have hbefore : a.holds l t = false := by
    rcases hpoint with rfl | rfl <;> simp [Client.holds, hpoints, Point.isInside, howner]
  have hheld := h.held t
  have hsession := h.session t
  refine h.act ht hact ?_ true ?_ ?_ ?_ ?_ ?_
  . intro t' hne
    simp [Ne.symm hne]
  . simp [hrest]
  . simp [hbefore]
  . simp [hbefore] at hheld
    simp [hheld]
  . simpa using hsession
  . exact fun _ => howner

theorem post (h : LockInv l a) (ht : t < a.numThreads) (hpoints : a.points t = .v (.lock l) :: rest)
    (hact : Client.Act prog a t (.v (.lock l)) [] (a.post (.lock l) t))
    (hrest : Point.isInside l rest = false)
    : LockInv l ((a.post (.lock l) t).setPoints t ([] ++ rest)) := by
  have howner : a.owner l ≠ some t := by
    apply h.busy t ht
    simp [hpoints, Point.isBusy, Point.isInside]
  have hbefore : a.holds l t = true := by
    simp [Client.holds, hpoints, Point.isInside, ht]
  have hheld := h.held t
  have hsession := h.session t
  refine h.act ht hact ?_ false ?_ ?_ ?_ ?_ ?_
  . intro t' hne
    simp [Ne.symm hne]
  . simp [hrest, howner]
  . simp [hbefore]
  . simp [hbefore] at hheld
    simp [hheld]
  . simpa using hsession
  . exact fun _ => howner

theorem setOwner (h : LockInv l a) (hnonneg : 0 ≤ (a.sem (.lock l)).value) (ht : t < a.numThreads)
    (hpoints : a.points t = .setOwner l :: rest)
    (hact : Client.Act prog a t (.setOwner l) []
      { a with owner := update a.owner l (some t), syncLog := a.syncLog ++ [.acquired l t] })
    (hrest : Point.isBusy l rest = false)
    : LockInv l (Client.setPoints
        { a with owner := update a.owner l (some t), syncLog := a.syncLog ++ [.acquired l t] } t
        ([] ++ rest)) := by
  have howner : a.owner l ≠ some t := by
    apply h.busy t ht
    simp [hpoints, Point.isBusy, Point.isInside]
  have hbefore : a.holds l t = true := by
    simp [Client.holds, hpoints, Point.isInside, ht]
  have hheld := h.held t
  have hsession := h.session t
  refine h.act ht hact ?_ true ?_ ?_ ?_ ?_ ?_
  . intro t' hne
    exact ⟨h.owner_of_ne hnonneg ht hpoints hact hne, by simp [Ne.symm hne]⟩
  . simp
  . simp [hbefore]
  . simpa [hbefore] using hheld
  . simp [howner] at hsession
    simp [hsession]
  . intro hb
    simp [hrest] at hb

theorem release (h : LockInv l a) (ht : t < a.numThreads) (howner : a.owner l = some t)
    (hact : Client.Act prog a t (.release l) [.v (.lock l)]
      { a with owner := update a.owner l none, syncLog := a.syncLog ++ [.released l t] })
    : LockInv l (Client.setPoints
        { a with owner := update a.owner l none, syncLog := a.syncLog ++ [.released l t] } t
        ([.v (.lock l)] ++ rest)) := by
  have hbefore : a.holds l t = true := by
    simp [Client.holds, howner, ht]
  have hheld := h.held t
  have hsession := h.session t
  refine h.act ht hact ?_ true ?_ ?_ ?_ ?_ ?_
  . intro t' hne
    simp [howner, Ne.symm hne]
  . simp [Point.isInside]
  . simp [hbefore]
  . simpa [hbefore] using hheld
  . simp [howner] at hsession
    simp [hsession]
  . simp

theorem step (h : LockInv l a) (hsem : 0 ≤ (a.sem (.lock l)).value)
    (hshape : ∀ t, t < a.numThreads → Shape (a.points t)) (hstep : Client.Step prog a a')
    : LockInv l a' := by
  cases hstep with
  | interrupt => exact ⟨h.unit, h.held, h.session, h.busy, h.owner_lt⟩
  | interruptV t n =>
    constructor
    case unit => simpa [Client.holds] using h.unit
    case held => simpa [Client.holds] using h.held
    case session => simpa using h.session
    case busy => exact h.busy
    case owner_lt => exact h.owner_lt
  | thread t point points rest a' ht hawake hpoints hact =>
    have hs := hshape t ht
    rw [hpoints] at hs
    have hsilent := h.silent ht hpoints hact
    have hself := hact
    cases hact with
    | pTake q hvalue =>
      cases hs with
      | call _ u hcall =>
        cases q with
        | sem n => exact hsilent (by simp) rfl (by simp) rfl rfl
        | lock => exact hcall.elim
      | lockP l' u =>
        by_cases hl : l' = l
        . subst hl
          exact h.take ht hpoints hself (.inl rfl) (by simp [Point.isInside])
        . have hl' : ¬l = l' := fun heq => hl heq.symm
          exact hsilent (by simp [hl']) rfl (by simp [hl]) (by simp [Point.isInside, hl])
            (by simp [Point.isBusy, Point.isInside, hl])
    | pWhileTake q hvalue =>
      cases hs with
      | call _ u hcall =>
        cases q with
        | sem n => exact hsilent (by simp) rfl (by simp) rfl rfl
        | lock => exact hcall.elim
      | lockPWhile l' u =>
        by_cases hl : l' = l
        . subst hl
          exact h.take ht hpoints hself (.inr rfl) (by simp [Point.isInside])
        . have hl' : ¬l = l' := fun heq => hl heq.symm
          exact hsilent (by simp [hl']) rfl (by simp [hl]) (by simp [Point.isInside, hl])
            (by simp [Point.isBusy, Point.isInside, hl])
    | pBlock q hvalue =>
      refine hsilent ?_ rfl (fun _ => ⟨rfl, rfl, rfl, rfl⟩) rfl ?_
      . by_cases hq : .lock l = q <;> simp [hq]
      . cases q <;> rfl
    | pWhileBlock q hvalue =>
      refine hsilent ?_ rfl (fun _ => ⟨rfl, rfl, rfl, rfl⟩) rfl ?_
      . by_cases hq : .lock l = q <;> simp [hq]
      . cases q <;> rfl
    | v q =>
      have hrest : Point.isInside l rest = false ∧ Point.isBusy l rest = false := by
        cases hs <;> exact ⟨rfl, rfl⟩
      cases q with
      | sem n =>
        exact hsilent (by simp) rfl (by simp) (by simpa [Point.isInside] using hrest.1)
          (by simpa [Point.isInside, Point.isBusy] using hrest.2)
      | lock l' =>
        by_cases hl : l' = l
        . subst hl
          exact h.post ht hpoints hself hrest.1
        . have hl' : ¬l = l' := fun heq => hl heq.symm
          exact hsilent (by simp [hl']) rfl (by simp [hl])
            (by simpa [Point.isInside, hl] using hrest.1)
            (by simpa [Point.isBusy, Point.isInside, hl] using hrest.2)
    | acquire l' howner =>
      by_cases hl : l' = l
      . subst hl
        have hbefore : a.holds l' t = false := by
          simp [Client.holds, hpoints, Point.isInside, howner]
        have hheld := h.held t
        rw [hbefore] at hheld
        refine h.act ht hself (fun _ _ => ⟨Iff.rfl, rfl, rfl, rfl, rfl⟩) false ?_ ?_ hheld
          (h.session t) (fun _ => howner)
        . simp [Point.isInside, howner]
        . rw [hbefore]
      . exact hsilent rfl rfl (fun _ => ⟨rfl, rfl, rfl, rfl⟩) rfl
          (by simp [Point.isBusy, Point.isInside, hl])
    | setOwner l' =>
      have hrest : Point.isInside l rest = false ∧ Point.isBusy l rest = false := by
        cases hs
        exact ⟨rfl, rfl⟩
      by_cases hl : l' = l
      . subst hl
        exact h.setOwner hsem ht hpoints hself hrest.2
      . have hl' : ¬l = l' := fun heq => hl heq.symm
        exact hsilent rfl (by simp [hl']) (by simp [hl])
          (by simpa [Point.isInside, hl] using hrest.1)
          (by simpa [Point.isBusy, Point.isInside, hl] using hrest.2)
    | release l' howner =>
      by_cases hl : l' = l
      . subst hl
        exact h.release ht howner hself
      . have hl' : ¬l = l' := fun heq => hl heq.symm
        exact hsilent rfl (by simp [hl']) (by simp [hl]) (by simp [Point.isInside, hl])
          (by simp [Point.isBusy, Point.isInside, hl])
    | user u =>
      have hcall : ∀ (call : Call U H) (u : U) (rest : List (Point U)), rest = [.finish] →
          Point.isInside l (call.points u ++ rest) = false ∧
          Point.isBusy l (call.points u ++ rest) = false := by
        rintro call u rest rfl
        cases call <;> exact ⟨rfl, rfl⟩
      have hrest : rest = [.finish] := by
        cases hs with
        | user => rfl
        | call _ _ hcall => exact hcall.elim
      obtain ⟨hinside, hbusy⟩ := hcall (prog.code u a.shared).2.1 (prog.code u a.shared).2.2 rest hrest
      exact hsilent rfl rfl (fun _ => ⟨rfl, rfl, rfl, rfl⟩) hinside hbusy
    | _ =>
      cases hs <;> exact hsilent rfl rfl (fun _ => ⟨rfl, rfl, rfl, rfl⟩) rfl rfl

end LockInv

theorem System.ClientReachable.lockInv {sys : System G U H} {a : Client G U}
    (h : sys.ClientReachable a) (l : Nat)
    : LockInv l a := by
  refine Transition.Reachable.invariant (P := LockInv l) ?_ ?_ h
  . rintro a rfl
    exact lockInv_boot sys l
  . intro a a' hreach hinv hstep
    have hsem := (System.ClientReachable.semInv hreach).nonneg (.lock l)
    exact hinv.step hsem (System.ClientReachable.shape hreach) hstep

/-! ### The locks of the kernel -/

namespace State

variable (s : State G U H)

/--
`t` has passed `P` in `Acquire`, and did not execute `V` in `Release` yet.
-/
def InLock (l t : Nat) : Prop :=
  s.syncLog.count (.p (.lock l) t) = s.syncLog.count (.v (.lock l) t) + 1

instance (l : Nat) : DecidablePred (s.InLock l) :=
  fun _ => inferInstanceAs (Decidable (_ = _))

/--
`Acquire` has returned to `t`, and `t` did not call `Release` yet.
-/
def InSession (l t : Nat) : Prop :=
  s.syncLog.count (.acquired l t) = s.syncLog.count (.released l t) + 1

end State

theorem lock_mutual_exclusion {sys : System G U H} {s : State G U H} (h : sys.Reachable s) (l : Nat)
    : (s.sem (.lock l)).value + Nat.count (s.InLock l) s.numThreads = 1 ∧
      (∀ t, s.owner l = some t → s.InLock l t ∧ ∀ t', s.InLock l t' → t' = t) ∧
      (∀ t t', s.InSession l t → s.InSession l t' → t = t') ∧
      (∀ arrivals rest, s.stack s.currentThread = .release l :: rest →
        (step sys.toProgram arrivals s = .error (.assertion .release) ↔
          ¬s.InSession l s.currentThread)) ∧
      (∀ arrivals rest, s.stack s.currentThread = .acquire l :: rest →
        (step sys.toProgram arrivals s = .error (.assertion .acquire) ↔
          s.InSession l s.currentThread)) := by
  have hinv := h.client.lockInv l
  have hnonneg := h.client.semInv.nonneg (.lock l)
  have hlock : ∀ t, s.InLock l t ↔ s.client.holds l t = true := by
    intro t
    have hheld : s.syncLog.count (.p (.lock l) t) =
        s.syncLog.count (.v (.lock l) t) + if s.client.holds l t then 1 else 0 :=
      hinv.held t
    unfold State.InLock
    rw [hheld]
    cases s.client.holds l t <;> simp
  have hsession : ∀ t, s.InSession l t ↔ s.owner l = some t := by
    intro t
    have hcount : s.syncLog.count (.acquired l t) =
        s.syncLog.count (.released l t) + if s.owner l = some t then 1 else 0 :=
      hinv.session t
    unfold State.InSession
    rw [hcount]
    by_cases howner : s.owner l = some t <;> simp [howner]
  refine ⟨?_, ?_, ?_, ?_, ?_⟩
  . have hcount : Nat.count (s.InLock l) s.numThreads =
        Nat.count (fun t => s.client.holds l t) s.client.numThreads :=
      Nat.count_congr_lt (fun t _ => hlock t)
    rw [hcount]
    exact hinv.unit
  . intro t howner
    have hholds : s.client.holds l t = true := by
      have hlt := hinv.owner_lt t howner
      have howner' : s.client.owner l = some t := howner
      simp [Client.holds, hlt, howner']
    refine ⟨(hlock t).mpr hholds, fun t' ht' => ?_⟩
    exact hinv.eq_of_holds hnonneg ((hlock t').mp ht') hholds
  . intro t t' ht ht'
    rw [hsession] at ht ht'
    rw [ht] at ht'
    injection ht'
  . intro arrivals rest hstack
    rw [hsession]
    unfold step
    rw [hstack]
    by_cases howner : s.owner l = some s.currentThread <;>
      simp [exec, State.isHeldByCurrentThread, howner]
  . intro arrivals rest hstack
    rw [hsession]
    unfold step
    rw [hstack]
    by_cases howner : s.owner l = some s.currentThread <;>
      simp [exec, State.isHeldByCurrentThread, howner]

theorem lock_mutual_exclusion_contended
    : (scriptRun [[.acquire 0, .release 0]] [.fork 0, .acquire 0, .yield, .release 0] [] 29).owner 0 =
        some 0 ∧
      ∀ t, (scriptRun [[.acquire 0, .release 0]] [.fork 0, .acquire 0, .yield, .release 0] [] 29).InLock
        0 t → t = 0 := by
  have howner : (scriptRun [[.acquire 0, .release 0]]
      [.fork 0, .acquire 0, .yield, .release 0] [] 29).owner 0 = some 0 := by
    decide +kernel
  have h := lock_mutual_exclusion (reachable_scriptRun [[.acquire 0, .release 0]]
    [.fork 0, .acquire 0, .yield, .release 0] [] 29) 0
  exact ⟨howner, (h.2.1 0 howner).2⟩

end Nachos
