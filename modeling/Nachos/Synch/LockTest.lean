import Nachos.Threads.History
import Nachos.Synch.Discipline

/-!
This module contains the programs that use a single lock, like the one in `lockTest.cc`: they do not
deadlock. If the machine has nothing left to run, then every thread has finished.
-/

namespace Nachos

open Function (update)

def Balanced (l : Nat) : Bool → List Op → Prop
  | held, [] => held = false
  | held, .yield :: rest => Balanced l held rest
  | held, .fork _ :: rest => Balanced l held rest
  | held, .acquire l' :: rest => held = false ∧ l' = l ∧ Balanced l true rest
  | held, .release l' :: rest => held = true ∧ l' = l ∧ Balanced l false rest
  | _, _ => False

section LockProgram

variable {H : Type} {handler : H → List (HandlerCall H)} {funcs : List (List Op)} {main : List Op}
  {l : Nat} {held : Bool} {points : List (Point (List Op))}

theorem Balanced.respects (hfuncs : ∀ func ∈ funcs, Balanced l false func) {u : List Op}
    (hu : Balanced l held u)
    : (Op.code funcs u : Call (List Op) H × _).1.Respects l (Balanced l) held
        (Op.code funcs u : Call (List Op) H × _).2 := by
  cases u with
  | nil => exact hu
  | cons op rest =>
    cases op with
    | yield => exact hu
    | fork func =>
      refine ⟨?_, hu⟩
      rw [List.getD_eq_getElem?_getD]
      cases hfunc : funcs[func]? with
      | none => rfl
      | some f => exact hfuncs f (List.mem_of_getElem? hfunc)
    | acquire l' =>
      obtain ⟨hheld, hl, hrest⟩ := hu
      exact ⟨hl, hheld, hrest⟩
    | release l' =>
      obtain ⟨hheld, hl, hrest⟩ := hu
      exact ⟨hl, hheld, hrest⟩
    | _ => exact hu.elim

def Balanced.discipline (handler : H → List (HandlerCall H))
    (hfuncs : ∀ func ∈ funcs, Balanced l false func) (hmain : Balanced l false main)
    : Discipline (script handler funcs main) l where
  has := Balanced l
  main := hmain
  code _ _ _ hu := hu.respects hfuncs

theorem Balanced.not_called_p {hfuncs : ∀ func ∈ funcs, Balanced l false func}
    {hmain : Balanced l false main} {n : Nat} {u : List Op}
    : ¬(Balanced.discipline handler hfuncs hmain).Called held (.p n) u := by
  rintro ⟨u₀, g, hu, hcode⟩
  cases u₀ with
  | nil => cases hcode
  | cons op rest => cases op <;> first | exact hu.elim | cases hcode

theorem Balanced.of_isAt {hfuncs : ∀ func ∈ funcs, Balanced l false func}
    {hmain : Balanced l false main} {wait : WaitPoint}
    (h : (Balanced.discipline handler hfuncs hmain).Follows held points) (hwait : wait.IsAt points)
    : (wait = .sem (.lock l) ∧ points.any (Point.isPWhile (.lock l)) = true) ∨
      (wait = .finished ∧ held = false ∧ points.any (Point.isPWhile (.lock l)) = false) := by
  cases wait with
  | sem q =>
    obtain ⟨rest, rfl⟩ := hwait
    cases h with
    | pWhile _ _ hcall => exact absurd hcall Balanced.not_called_p
    | lockPWhile => exact .inl ⟨rfl, by simp [Point.isPWhile]⟩
  | cond c =>
    obtain ⟨l', rest, rfl⟩ := hwait
    cases h
  | finished =>
    obtain ⟨rest, rfl⟩ := hwait
    cases h with
    | finished hheld => exact .inr ⟨rfl, hheld, rfl⟩
    | exited _ _ hheld => exact .inr ⟨rfl, hheld, rfl⟩

theorem lock_deadlock_free (hfuncs : ∀ func ∈ funcs, Balanced l false func)
    (hmain : Balanced l false main) {s : State Unit (List Op) H}
    (h : (script handler funcs main).Reachable s) (hready : s.readyList = [])
    (hrunning : ∀ t, t < s.numThreads → s.threadStatus t ≠ .running)
    : (∀ t, t < s.numThreads → ∃ slot, .finish t slot ∈ s.schedLog) ∧
      (s.sem (.lock l)).queue = [] := by
  have hp := h.inv.placed
  have hfollows := (Balanced.discipline handler hfuncs hmain).follows h.client
  have hlock := h.client.lockInv l
  have hsem := h.client.semInv
  have hblocked := fun t ht => hp.blocked_of_idle (t := t) hready hrunning ht
  -- every thread sleeps in `P` of the lock, or in `Finish`
  have hplace : ∀ t, t < s.numThreads → ∃ wait, Stack.waitPoint (s.stack t) = some wait ∧
      ((wait = .sem (.lock l) ∧ (s.client.points t).any (Point.isPWhile (.lock l)) = true) ∨
        (wait = .finished ∧ decide (s.owner l = some t) = false ∧
          (s.client.points t).any (Point.isPWhile (.lock l)) = false)) := by
    intro t ht
    obtain ⟨wait, hwait⟩ := Option.ne_none_iff_exists'.mp (hp.blocked t ht (hblocked t ht))
    exact ⟨wait, hwait, Balanced.of_isAt (hfollows t ht) (Stack.waitPoint_isAt hwait)⟩
  have hidle : ∀ t, t < s.numThreads →
      Point.isInside l (s.client.points t) = false ∧ s.owner l ≠ some t := by
    intro t ht
    obtain ⟨wait, hwait, ⟨rfl, _⟩ | ⟨rfl, howner, _⟩⟩ := hplace t ht
    . obtain ⟨rest, hpoints⟩ := Stack.waitPoint_isAt hwait
      have hpoints' : s.client.points t = .pWhile (.lock l) :: rest := hpoints
      refine ⟨by rw [hpoints']; rfl, hlock.busy t ht ?_⟩
      simp [hpoints', Point.isBusy]
    . obtain ⟨rest, hpoints⟩ := Stack.waitPoint_isAt hwait
      have hpoints' : s.client.points t = .notReached :: rest := hpoints
      exact ⟨by rw [hpoints']; rfl, by simpa using howner⟩
  have hempty : (s.sem (.lock l)).queue = [] := by
    by_contra hqueue
    have hwoken : s.client.numWoken (.lock l) = 0 := by
      by_contra hne
      obtain ⟨t, ht, hwoken⟩ := Nat.count_ne_iff_exists.mp hne
      simp only [Client.isWoken, Bool.and_eq_true, Bool.not_eq_true', List.contains_eq_mem,
        decide_eq_false_iff_not] at hwoken
      obtain ⟨wait, hwait, ⟨rfl, _⟩ | ⟨_, _, hnone⟩⟩ := hplace t ht
      . exact hwoken.2 ((hp.mem_sem _ t).mpr ⟨ht, hblocked t ht, hwait⟩)
      . rw [hnone] at hwoken
        simp at hwoken
    have hvalue := hsem.wakeup (.lock l) hqueue
    have hnonneg := hsem.nonneg (.lock l)
    have hunit := hlock.unit
    rw [hwoken] at hvalue
    -- so some thread has the lock, and it is neither waiting for it nor finished
    have hholder : Nat.count (fun t => s.client.holds l t = true) s.client.numThreads ≠ 0 := by
      omega
    obtain ⟨t, ht, hholds⟩ := Nat.count_ne_iff_exists.mp hholder
    obtain ⟨hnot_inside, hnot_owner⟩ := hidle t ht
    simp only [Client.holds, hnot_inside, Bool.or_false, Bool.and_eq_true, decide_eq_true_eq] at hholds
    exact hnot_owner hholds.2
  refine ⟨?_, hempty⟩
  intro t ht
  obtain ⟨wait, hwait, ⟨rfl, _⟩ | ⟨rfl, _⟩⟩ := hplace t ht
  . have := (hp.mem_sem _ t).mpr ⟨ht, hblocked t ht, hwait⟩
    simp [hempty] at this
  . exact h.hist.finished t ht (Stack.notReached_mem hwait)

end LockProgram

/-! ### `lockTest.cc` -/

def lockTestThread : List Op :=
  [.acquire 0, .yield, .yield, .yield, .release 0]

def lockTest : List Op :=
  [.fork 0, .fork 0, .fork 0] ++ lockTestThread

theorem lock_deadlock_free_lockTest
    : (scriptRun [lockTestThread] lockTest [] 170).readyList = [] ∧
      ∀ t, t < 4 → ∃ slot, .finish t slot ∈ (scriptRun [lockTestThread] lockTest [] 170).schedLog := by
  have hready : (scriptRun [lockTestThread] lockTest [] 170).readyList = [] := by
    decide +kernel
  have hnum : (scriptRun [lockTestThread] lockTest [] 170).numThreads = 4 := by
    decide +kernel
  have hthread : Balanced 0 false lockTestThread := by simp [lockTestThread, Balanced]
  have hmain : Balanced 0 false lockTest := by simp [lockTest, lockTestThread, Balanced]
  refine ⟨hready, ?_⟩
  rw [← hnum]
  refine (lock_deadlock_free (by simpa using hthread) hmain (reachable_scriptRun _ _ _ _) hready ?_).1
  rw [hnum]
  decide +kernel

end Nachos
