import Nachos.Threads.Outcome

/-!
This module contains the inversion of `exec` for the executions that end in a failed `ASSERT`.
-/

namespace Nachos

inductive Fault (s : State G U H) : Frame U H → Assertion → Prop where
  | setLevel (hhandler : s.inHandler = true)
    : Fault s (.setLevel .intOn) .setLevel
  | oneTick
    : Fault s .oneTick .schedule
  | tickDrain (old : MachineStatus) (hlevel : s.level = .intOn)
    : Fault s (.tickDrain old) .checkIfDue
  | idle (hlevel : s.level = .intOn)
    : Fault s .idle .checkIfDue
  | idleDrain (hlevel : s.level = .intOn)
    : Fault s .idleDrain .checkIfDue
  | handlerTimer (calls : List (HandlerCall H)) (hhandler : s.inHandler = false)
    : Fault s (.handler (.timerInterruptHandler :: calls)) .yieldOnReturn
  | handlerSchedule (handler : H) (type : IntType) (calls : List (HandlerCall H))
    : Fault s (.handler (.schedule handler 0 type :: calls)) .schedule
  | runTail (hslot : s.threadToBeDestroyed = some s.currentThread)
    : Fault s .runTail .deleteThread
  | pWhile (sem : SemId) (oldLevel : IntStatus) (hlevel : s.level = .intOn)
    : Fault s (.pWhile sem oldLevel) .sleep
  | acquire (l : Nat) (howner : s.owner l = some s.currentThread)
    : Fault s (.acquire l) .acquire
  | release (l : Nat) (howner : s.owner l ≠ some s.currentThread)
    : Fault s (.release l) .release
  | wait (c l : Nat) (howner : s.owner l ≠ some s.currentThread)
    : Fault s (.wait c l) .wait
  | waitSleep (c l : Nat) (hlevel : s.level = .intOn)
    : Fault s (.waitSleep c l) .sleep
  | signal (c l : Nat) (howner : s.owner l ≠ some s.currentThread)
    : Fault s (.signal c l) .signal
  | broadcast (c l : Nat) (howner : s.owner l ≠ some s.currentThread)
    : Fault s (.broadcast c l) .broadcast
  | schedule (handler : H) (type : IntType)
    : Fault s (.schedule handler 0 type) .schedule

namespace State
variable {s : State G U H} {stop : Stop}

theorem level_of_ne_intOff (h : s.level ≠ .intOff) : s.level = .intOn := by
  cases hlevel : s.level
  . exact absurd hlevel h
  . rfl

theorem schedule_eq_error {handler : H} {fromNow : Nat} {type : IntType}
    (h : s.schedule handler fromNow type = .error stop)
    : fromNow = 0 ∧ stop = .assertion .schedule := by
  unfold schedule at h
  split at h
  . contradiction
  . injection h with h
    exact ⟨by omega, h.symm⟩

theorem scheduleAll_eq_error {arrivals : List (Arrival H)}
    (h : Arrival.scheduleAll s arrivals = .error stop)
    : stop = .assertion .schedule := by
  induction arrivals generalizing s with
  | nil => contradiction
  | cons a rest ih =>
    unfold Arrival.scheduleAll at h
    generalize hs : s.schedule a.handler a.fromNow a.type = res at h
    cases res with
    | error =>
      injection h with h
      subst h
      exact (schedule_eq_error hs).2
    | ok s₁ => exact ih h

theorem checkIfDue_eq_error {prog : Program G U H} {advanceClock : Bool}
    (h : s.checkIfDue prog advanceClock = .error stop)
    : s.level = .intOn ∧ stop = .assertion .checkIfDue := by
  unfold checkIfDue at h
  split at h
  . split at h
    . contradiction
    . split at h
      . contradiction
      . dsimp at h
        split at h <;> contradiction
  . next hlevel =>
    injection h with h
    exact ⟨level_of_ne_intOff hlevel, h.symm⟩

theorem semP_eq_error {sem : SemId} {oldLevel : IntStatus}
    (h : s.semP sem oldLevel = .error stop)
    : s.level = .intOn ∧ stop = .assertion .sleep := by
  unfold semP sleep at h
  dsimp at h
  split at h
  . split at h
    . contradiction
    . next hlevel =>
      simp only [bind, Except.bind, Except.error.injEq] at h
      exact ⟨level_of_ne_intOff hlevel, h.symm⟩
  . contradiction

end State

section Exec

variable {prog : Program G U H} {arrivals : List (Arrival H)} {s : State G U H} {a : Assertion}

theorem fault_of_setLevel {now : IntStatus}
    (h : exec prog arrivals s (.setLevel now) = .error (.assertion a))
    : Fault s (.setLevel now) a := by
  simp only [exec, State.setLevel, bind, Except.bind, pure, Except.pure] at h
  cases now with
  | intOff => simp at h
  | intOn =>
    cases hhandler : s.inHandler with
    | false => cases hlevel : s.level <;> simp [hhandler, hlevel] at h
    | true =>
      simp [hhandler] at h
      subst h
      exact .setLevel hhandler

theorem fault_of_oneTick (h : exec prog arrivals s .oneTick = .error (.assertion a))
    : Fault s .oneTick a := by
  simp only [exec, bind, Except.bind, pure, Except.pure] at h
  split at h
  . next hall =>
    injection h with h
    have := State.scheduleAll_eq_error hall
    rw [h] at this
    injection this with this
    subst this
    exact .oneTick
  . contradiction

theorem fault_of_tickDrain {old : MachineStatus}
    (h : exec prog arrivals s (.tickDrain old) = .error (.assertion a))
    : Fault s (.tickDrain old) a := by
  simp only [exec, bind, Except.bind, pure, Except.pure] at h
  generalize hdue : s.checkIfDue prog false = due at h
  cases due with
  | error =>
    obtain ⟨hlevel, rfl⟩ := State.checkIfDue_eq_error hdue
    injection h with h
    injection h with h
    subst h
    exact .tickDrain old hlevel
  | ok r =>
    obtain ⟨res, s₁⟩ := r
    cases res with
    | some => contradiction
    | none =>
      dsimp at h
      split at h <;> contradiction

theorem fault_of_idle (h : exec prog arrivals s .idle = .error (.assertion a))
    : Fault s .idle a := by
  simp only [exec, bind, Except.bind, pure, Except.pure] at h
  generalize hdue : State.checkIfDue { s with status := .idleMode } prog true = due at h
  cases due with
  | error =>
    obtain ⟨hlevel, rfl⟩ := State.checkIfDue_eq_error hdue
    injection h with h
    injection h with h
    subst h
    exact .idle hlevel
  | ok r =>
    obtain ⟨res, s₁⟩ := r
    cases res with
    | some => contradiction
    | none => simp [throw, throwThe, MonadExceptOf.throw] at h

theorem fault_of_idleDrain (h : exec prog arrivals s .idleDrain = .error (.assertion a))
    : Fault s .idleDrain a := by
  simp only [exec, bind, Except.bind, pure, Except.pure] at h
  generalize hdue : s.checkIfDue prog false = due at h
  cases due with
  | error =>
    obtain ⟨hlevel, rfl⟩ := State.checkIfDue_eq_error hdue
    injection h with h
    injection h with h
    subst h
    exact .idleDrain hlevel
  | ok r =>
    obtain ⟨res, s₁⟩ := r
    cases res <;> contradiction

theorem fault_of_handler {calls : List (HandlerCall H)}
    (h : exec prog arrivals s (.handler calls) = .error (.assertion a))
    : Fault s (.handler calls) a := by
  match calls with
  | [] => contradiction
  | .timerInterruptHandler :: calls =>
    simp only [exec, State.requestYield, bind, Except.bind, pure, Except.pure] at h
    split at h
    . contradiction
    . cases hhandler : s.inHandler with
      | true => simp [hhandler] at h
      | false =>
        simp [hhandler] at h
        subst h
        exact .handlerTimer calls hhandler
  | .v n :: calls => simp [exec, bind, Except.bind, pure, Except.pure] at h
  | .schedule handler fromNow type :: calls =>
    simp only [exec, bind, Except.bind, pure, Except.pure] at h
    split at h
    . next hsched =>
      obtain ⟨rfl, rfl⟩ := State.schedule_eq_error hsched
      injection h with h
      injection h with h
      subst h
      exact .handlerSchedule handler type calls
    . contradiction

theorem fault_of_runTail (h : exec prog arrivals s .runTail = .error (.assertion a))
    : Fault s .runTail a := by
  simp only [exec, State.deleteThread, bind, Except.bind, pure, Except.pure] at h
  cases hslot : s.threadToBeDestroyed with
  | none => simp [hslot] at h
  | some thread =>
    by_cases hcur : thread = s.currentThread
    . simp [hslot, hcur] at h
      subst h
      rw [hcur] at hslot
      exact .runTail hslot
    . simp [hslot, hcur] at h

theorem fault_of_waitSleep {c l : Nat}
    (h : exec prog arrivals s (.waitSleep c l) = .error (.assertion a))
    : Fault s (.waitSleep c l) a := by
  simp only [exec, State.sleep, bind, Except.bind, pure, Except.pure] at h
  by_cases hlevel : s.level = .intOff
  . simp [hlevel] at h
  . simp [hlevel] at h
    subst h
    exact .waitSleep c l (State.level_of_ne_intOff hlevel)

theorem fault_of_exec {frame : Frame U H} (h : exec prog arrivals s frame = .error (.assertion a))
    : Fault s frame a := by
  cases frame with
  | setLevel _ => exact fault_of_setLevel h
  | oneTick => exact fault_of_oneTick h
  | tickDrain _ => exact fault_of_tickDrain h
  | idle => exact fault_of_idle h
  | idleDrain => exact fault_of_idleDrain h
  | handler _ => exact fault_of_handler h
  | sleepLoop =>
    simp only [exec] at h
    split at h <;> contradiction
  | runTail => exact fault_of_runTail h
  | p sem =>
    simp only [exec, State.setLevel_intOff, bind, Except.bind] at h
    have := (State.semP_eq_error h).1
    contradiction
  | pWhile sem oldLevel =>
    simp only [exec] at h
    obtain ⟨hlevel, h⟩ := State.semP_eq_error h
    injection h with h
    subst h
    exact .pWhile sem oldLevel hlevel
  | acquire l =>
    simp only [exec, State.isHeldByCurrentThread, decide_eq_true_eq] at h
    split at h
    . next howner =>
      injection h with h
      injection h with h
      subst h
      exact .acquire l howner
    . contradiction
  | release l =>
    simp only [exec, State.isHeldByCurrentThread, decide_eq_true_eq] at h
    split at h
    . contradiction
    . next howner =>
      injection h with h
      injection h with h
      subst h
      exact .release l howner
  | wait c l =>
    simp only [exec, State.isHeldByCurrentThread, decide_eq_true_eq] at h
    split at h
    . contradiction
    . next howner =>
      injection h with h
      injection h with h
      subst h
      exact .wait c l howner
  | waitSleep _ _ => exact fault_of_waitSleep h
  | signal c l =>
    simp only [exec, State.isHeldByCurrentThread, State.setLevel_intOff, decide_eq_true_eq, bind,
      Except.bind, pure, Except.pure] at h
    split at h
    . contradiction
    . next howner =>
      injection h with h
      injection h with h
      subst h
      exact .signal c l howner
  | broadcast c l =>
    simp only [exec, State.isHeldByCurrentThread, State.setLevel_intOff, decide_eq_true_eq, bind,
      Except.bind, pure, Except.pure] at h
    split at h
    . contradiction
    . next howner =>
      injection h with h
      injection h with h
      subst h
      exact .broadcast c l howner
  | schedule handler fromNow type =>
    simp only [exec, bind, Except.bind, pure, Except.pure] at h
    split at h
    . next hsched =>
      obtain ⟨rfl, rfl⟩ := State.schedule_eq_error hsched
      injection h with h
      injection h with h
      subst h
      exact .schedule handler type
    . contradiction
  | yield =>
    simp only [exec, State.setLevel_intOff, bind, Except.bind, pure, Except.pure] at h
    split at h <;> contradiction
  | _ => simp [exec, State.sleep, bind, Except.bind, pure, Except.pure] at h

end Exec

theorem step_fault {prog : Program G U H} {arrivals : List (Arrival H)} {s : State G U H}
    {a : Assertion} (h : step prog arrivals s = .error (.assertion a))
    : ∃ frame rest, s.stack s.currentThread = frame :: rest ∧ Fault s frame a := by
  unfold step at h
  split at h
  . simp at h
  . next frame rest hstack =>
    split at h
    . next hexec =>
      injection h with h
      subst h
      exact ⟨frame, rest, hstack, fault_of_exec hexec⟩
    . contradiction

end Nachos
