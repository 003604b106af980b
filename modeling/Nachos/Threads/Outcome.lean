import Nachos.Lib.Transition
import Nachos.Threads.Exec

/-!
This module contains the inversion of `exec`: one constructor of `Outcome` for every way in which
the execution of a frame can end without stopping the machine. The proofs about runs do a case
split on it and never unfold `exec`. What no proof about threads depends on (the contents of the
`pending` list and the clock) is left open.
-/

namespace Nachos

open Function (update)

/--
`Outcome prog s frame frames s'`: executing `frame` in `s` replaces it by `frames` and ends in `s'`.
-/
inductive Outcome (prog : Program G U H) (s : State G U H)
    : Frame U H → List (Frame U H) → State G U H → Prop where
  | threadRoot (func : U)
    : Outcome prog s (.threadRoot func) [.setLevel .intOn, .user func, .finish] s
  | user (u : U)
    : Outcome prog s (.user u) ((prog.code u s.shared).2.1.frames (prog.code u s.shared).2.2)
        { s with shared := (prog.code u s.shared).1 }
  | finish
    : Outcome prog s .finish [.sleepLoop, .notReached]
        { s with
          level := .intOff
          threadToBeDestroyed := some s.currentThread
          schedLog := s.schedLog ++ [.finish s.currentThread s.threadToBeDestroyed]
          threadStatus := update s.threadStatus s.currentThread .blocked }
  | yieldAlone (hready : s.readyList = [])
    : Outcome prog s .yield [.setLevel s.level] { s with level := .intOff }
  | yieldSwitch (next : Nat) (rest : List Nat) (hready : s.readyList = next :: rest)
    : Outcome prog s .yield [.runTail, .setLevel s.level]
        { s with
          level := .intOff
          currentThread := next
          readyList := rest ++ [s.currentThread]
          threadStatus := update (update s.threadStatus s.currentThread .ready) next .running
          schedLog := s.schedLog ++ [.readyToRun s.currentThread, .dispatch next (s.isFresh next)] }
  | setLevelTick (hhandler : s.inHandler = false) (hlevel : s.level = .intOff)
    : Outcome prog s (.setLevel .intOn) [.oneTick] { s with level := .intOn }
  | setLevelQuiet (now : IntStatus)
      (h : now = .intOff ∨ (s.inHandler = false ∧ s.level = .intOn))
    : Outcome prog s (.setLevel now) [] { s with level := now }
  | oneTick (pending : List (PendingInterrupt H)) (total system user : Nat)
    : Outcome prog s .oneTick [.tickDrain s.status]
        { s with
          pending := pending, totalTicks := total, systemTicks := system, userTicks := user
          level := .intOff }
  | tickFire (old : MachineStatus) (handler : H) (pending : List (PendingInterrupt H))
      (idle total : Nat) (hlevel : s.level = .intOff)
    : Outcome prog s (.tickDrain old)
        [.handler (prog.handler handler s.shared).2, .endHandler s.status, .tickDrain old]
        { s with
          pending := pending, idleTicks := idle, totalTicks := total
          shared := (prog.handler handler s.shared).1, inHandler := true, status := .systemMode }
  | tickYield (old : MachineStatus) (pending : List (PendingInterrupt H)) (idle total : Nat)
      (hlevel : s.level = .intOff) (hyield : s.yieldOnReturn = true)
    : Outcome prog s (.tickDrain old) [.yield, .restoreStatus old]
        { s with
          pending := pending, idleTicks := idle, totalTicks := total
          level := .intOn, yieldOnReturn := false, status := .systemMode }
  | tickDone (old : MachineStatus) (pending : List (PendingInterrupt H)) (idle total : Nat)
      (hlevel : s.level = .intOff) (hyield : s.yieldOnReturn = false)
    : Outcome prog s (.tickDrain old) []
        { s with
          pending := pending, idleTicks := idle, totalTicks := total, level := .intOn }
  | restoreStatus (old : MachineStatus)
    : Outcome prog s (.restoreStatus old) [] { s with status := old }
  | idleFire (handler : H) (pending : List (PendingInterrupt H)) (idle total : Nat)
      (hlevel : s.level = .intOff)
    : Outcome prog s .idle
        [.handler (prog.handler handler s.shared).2, .endHandler .idleMode, .idleDrain]
        { s with
          pending := pending, idleTicks := idle, totalTicks := total
          shared := (prog.handler handler s.shared).1, inHandler := true, status := .systemMode }
  | idleDrainFire (handler : H) (pending : List (PendingInterrupt H)) (idle total : Nat)
      (hlevel : s.level = .intOff)
    : Outcome prog s .idleDrain
        [.handler (prog.handler handler s.shared).2, .endHandler s.status, .idleDrain]
        { s with
          pending := pending, idleTicks := idle, totalTicks := total
          shared := (prog.handler handler s.shared).1, inHandler := true, status := .systemMode }
  | idleDrainDone (pending : List (PendingInterrupt H)) (idle total : Nat)
      (hlevel : s.level = .intOff)
    : Outcome prog s .idleDrain []
        { s with
          pending := pending, idleTicks := idle, totalTicks := total
          yieldOnReturn := false, status := .systemMode }
  | handlerDone
    : Outcome prog s (.handler []) [] s
  | handlerTimerIdle (calls : List (HandlerCall H)) (hstatus : s.status = .idleMode)
    : Outcome prog s (.handler (.timerInterruptHandler :: calls)) [.handler calls] s
  | handlerTimer (calls : List (HandlerCall H)) (hhandler : s.inHandler = true)
    : Outcome prog s (.handler (.timerInterruptHandler :: calls)) [.handler calls]
        { s with yieldOnReturn := true }
  | handlerVQuiet (n : Nat) (calls : List (HandlerCall H)) (hqueue : (s.sem (.sem n)).queue = [])
    : Outcome prog s (.handler (.v n :: calls)) [.setLevel s.level, .handler calls]
        { s with
          level := .intOff
          sem := update s.sem (.sem n) ⟨(s.sem (.sem n)).value + 1, []⟩
          syncLog := s.syncLog ++ [.v (.sem n) s.currentThread] }
  | handlerVWake (n : Nat) (calls : List (HandlerCall H)) (first : Nat) (rest : List Nat)
      (hqueue : (s.sem (.sem n)).queue = first :: rest)
    : Outcome prog s (.handler (.v n :: calls)) [.setLevel s.level, .handler calls]
        { s with
          level := .intOff
          sem := update s.sem (.sem n) ⟨(s.sem (.sem n)).value + 1, rest⟩
          threadStatus := update s.threadStatus first .ready
          readyList := s.readyList ++ [first]
          schedLog := s.schedLog ++ [.readyToRun first]
          syncLog := s.syncLog ++ [.v (.sem n) s.currentThread] }
  | handlerSchedule (handler : H) (fromNow : Nat) (type : IntType) (calls : List (HandlerCall H))
      (pending : List (PendingInterrupt H))
    : Outcome prog s (.handler (.schedule handler fromNow type :: calls)) [.handler calls]
        { s with pending := pending }
  | endHandler (old : MachineStatus)
    : Outcome prog s (.endHandler old) [] { s with status := old, inHandler := false }
  | sleepIdle (hready : s.readyList = [])
    : Outcome prog s .sleepLoop [.idle, .sleepLoop] s
  | sleepRun (next : Nat) (rest : List Nat) (hready : s.readyList = next :: rest)
    : Outcome prog s .sleepLoop [.runTail]
        { s with
          currentThread := next
          readyList := rest
          threadStatus := update s.threadStatus next .running
          schedLog := s.schedLog ++ [.dispatch next (s.isFresh next)] }
  | runTailNone (hslot : s.threadToBeDestroyed = none)
    : Outcome prog s .runTail [] s
  | runTailDestroy (thread : Nat) (hslot : s.threadToBeDestroyed = some thread)
      (hne : thread ≠ s.currentThread)
    : Outcome prog s .runTail []
        { s with
          schedLog := s.schedLog ++ [.destroy thread]
          threadToBeDestroyed := none }
  | pTake (sem : SemId) (hvalue : (s.sem sem).value ≠ 0)
    : Outcome prog s (.p sem) [.setLevel s.level]
        { s with
          level := .intOff
          sem := update s.sem sem { s.sem sem with value := (s.sem sem).value - 1 }
          syncLog := s.syncLog ++ [.p sem s.currentThread] }
  | pBlock (sem : SemId) (hvalue : (s.sem sem).value = 0)
    : Outcome prog s (.p sem) [.sleepLoop, .pWhile sem s.level]
        { s with
          level := .intOff
          sem := update s.sem sem
            { s.sem sem with queue := (s.sem sem).queue ++ [s.currentThread] }
          threadStatus := update s.threadStatus s.currentThread .blocked }
  | pWhileTake (sem : SemId) (oldLevel : IntStatus) (hvalue : (s.sem sem).value ≠ 0)
    : Outcome prog s (.pWhile sem oldLevel) [.setLevel oldLevel]
        { s with
          sem := update s.sem sem { s.sem sem with value := (s.sem sem).value - 1 }
          syncLog := s.syncLog ++ [.p sem s.currentThread] }
  | pWhileBlock (sem : SemId) (oldLevel : IntStatus) (hlevel : s.level = .intOff)
      (hvalue : (s.sem sem).value = 0)
    : Outcome prog s (.pWhile sem oldLevel) [.sleepLoop, .pWhile sem oldLevel]
        { s with
          sem := update s.sem sem
            { s.sem sem with queue := (s.sem sem).queue ++ [s.currentThread] }
          threadStatus := update s.threadStatus s.currentThread .blocked }
  | vQuiet (sem : SemId) (hqueue : (s.sem sem).queue = [])
    : Outcome prog s (.v sem) [.setLevel s.level]
        { s with
          level := .intOff
          sem := update s.sem sem ⟨(s.sem sem).value + 1, []⟩
          syncLog := s.syncLog ++ [.v sem s.currentThread] }
  | vWake (sem : SemId) (first : Nat) (rest : List Nat) (hqueue : (s.sem sem).queue = first :: rest)
    : Outcome prog s (.v sem) [.setLevel s.level]
        { s with
          level := .intOff
          sem := update s.sem sem ⟨(s.sem sem).value + 1, rest⟩
          threadStatus := update s.threadStatus first .ready
          readyList := s.readyList ++ [first]
          schedLog := s.schedLog ++ [.readyToRun first]
          syncLog := s.syncLog ++ [.v sem s.currentThread] }
  | acquire (l : Nat) (howner : s.owner l ≠ some s.currentThread)
    : Outcome prog s (.acquire l) [.p (.lock l), .setOwner l] s
  | setOwner (l : Nat)
    : Outcome prog s (.setOwner l) []
        { s with
          owner := update s.owner l (some s.currentThread)
          syncLog := s.syncLog ++ [.acquired l s.currentThread] }
  | release (l : Nat) (howner : s.owner l = some s.currentThread)
    : Outcome prog s (.release l) [.v (.lock l)]
        { s with
          owner := update s.owner l none
          syncLog := s.syncLog ++ [.released l s.currentThread] }
  | wait (c l : Nat) (howner : s.owner l = some s.currentThread)
    : Outcome prog s (.wait c l) [.release l, .waitSleep c l] s
  | waitSleep (c l : Nat) (hlevel : s.level = .intOff)
    : Outcome prog s (.waitSleep c l) [.sleepLoop, .waitAcquire c l]
        { s with
          condQueue := update s.condQueue c (s.condQueue c ++ [s.currentThread])
          threadStatus := update s.threadStatus s.currentThread .blocked }
  | waitAcquire (c l : Nat)
    : Outcome prog s (.waitAcquire c l) [.acquire l] s
  | signalQuiet (c l : Nat) (howner : s.owner l = some s.currentThread)
      (hqueue : s.condQueue c = [])
    : Outcome prog s (.signal c l) [.setLevel s.level] { s with level := .intOff }
  | signalWake (c l : Nat) (howner : s.owner l = some s.currentThread) (first : Nat)
      (rest : List Nat) (hqueue : s.condQueue c = first :: rest)
    : Outcome prog s (.signal c l) [.setLevel s.level]
        { s with
          level := .intOff
          condQueue := update s.condQueue c rest
          threadStatus := update s.threadStatus first .ready
          readyList := s.readyList ++ [first]
          schedLog := s.schedLog ++ [.readyToRun first] }
  | broadcast (c l : Nat) (howner : s.owner l = some s.currentThread)
    : Outcome prog s (.broadcast c l) [.setLevel s.level]
        { s with
          level := .intOff
          condQueue := update s.condQueue c []
          threadStatus := fun t => if t ∈ s.condQueue c then .ready else s.threadStatus t
          readyList := s.readyList ++ s.condQueue c
          schedLog := s.schedLog ++ (s.condQueue c).map .readyToRun }
  | fork (func : U)
    : Outcome prog s (.fork func) [.setLevel s.level]
        { s with
          level := .intOff
          numThreads := s.numThreads + 1
          threadStatus := update s.threadStatus s.numThreads .ready
          stack := update s.stack s.numThreads [.threadRoot func]
          readyList := s.readyList ++ [s.numThreads]
          schedLog := s.schedLog ++ [.readyToRun s.numThreads] }
  | schedule (handler : H) (fromNow : Nat) (type : IntType) (pending : List (PendingInterrupt H))
    : Outcome prog s (.schedule handler fromNow type) [] { s with pending := pending }

theorem outcome_of_sleepLoop {prog : Program G U H} {arrivals : List (Arrival H)} {s s' : State G U H}
    {frames : List (Frame U H)} (h : exec prog arrivals s .sleepLoop = .ok (frames, s'))
    : Outcome prog s .sleepLoop frames s' := by
  simp only [exec, State.findNextToRun] at h
  cases hready : s.readyList with
  | nil =>
    simp only [hready, Except.ok.injEq, Prod.mk.injEq] at h
    obtain ⟨rfl, rfl⟩ := h
    exact .sleepIdle hready
  | cons next rest =>
    simp only [hready, Except.ok.injEq, Prod.mk.injEq] at h
    obtain ⟨rfl, rfl⟩ := h
    exact .sleepRun next rest hready

namespace State
variable {s s' : State G U H}

@[simp]
theorem setLevel_intOff (s : State G U H)
    : s.setLevel .intOff = .ok (s.level, [], { s with level := .intOff }) := by
  simp [setLevel, changeLevel]

theorem schedule_eq_ok {handler : H} {fromNow : Nat} {type : IntType}
    (h : s.schedule handler fromNow type = .ok s')
    : ∃ pending, s' = { s with pending := pending } := by
  unfold schedule at h
  split at h
  . injection h with h
    exact ⟨_, h.symm⟩
  . contradiction

theorem scheduleAll_eq_ok {arrivals : List (Arrival H)}
    (h : Arrival.scheduleAll s arrivals = .ok s')
    : ∃ pending, s' = { s with pending := pending } := by
  induction arrivals generalizing s with
  | nil =>
    injection h with h
    exact ⟨s.pending, h.symm⟩
  | cons a rest ih =>
    unfold Arrival.scheduleAll at h
    generalize hs : s.schedule a.handler a.fromNow a.type = res at h
    cases res with
    | error => contradiction
    | ok s₁ =>
      obtain ⟨pending, rfl⟩ := schedule_eq_ok hs
      obtain ⟨pending', h⟩ := ih h
      exact ⟨pending', h⟩

theorem advanceTime_eq (s : State G U H)
    : ∃ total system user,
        s.advanceTime = { s with totalTicks := total, systemTicks := system, userTicks := user } := by
  unfold advanceTime
  split
  . exact ⟨_, _, _, rfl⟩
  . exact ⟨_, _, _, rfl⟩

inductive Due (prog : Program G U H) (advanceClock : Bool) (s : State G U H)
    : Option (List (Frame U H)) → State G U H → Prop where
  | none (hpending : s.pending = [])
    : Due prog advanceClock s none s
  | early (toOccur : PendingInterrupt H) (rest : List (PendingInterrupt H))
      (hpending : s.pending = toOccur :: rest) (hwhen : s.totalTicks < toOccur.when)
      (hadvance : advanceClock = false)
    : Due prog advanceClock s none { s with pending := sortedInsert toOccur rest }
  | timer (toOccur : PendingInterrupt H) (hpending : s.pending = [toOccur])
      (hdue : toOccur.when ≤ s.totalTicks ∨ advanceClock = true) (hstatus : s.status = .idleMode)
      (htype : toOccur.type = .timerInt)
    : Due prog advanceClock s none
        { s with
          pending := [toOccur]
          idleTicks := s.idleTicks + (toOccur.when - s.totalTicks)
          totalTicks := max s.totalTicks toOccur.when }
  | fire (toOccur : PendingInterrupt H) (rest : List (PendingInterrupt H))
      (hpending : s.pending = toOccur :: rest) (hdue : toOccur.when ≤ s.totalTicks ∨ advanceClock = true)
    : Due prog advanceClock s
        (some [.handler (prog.handler toOccur.handler s.shared).2, .endHandler s.status])
        { s with
          pending := rest
          idleTicks := s.idleTicks + (toOccur.when - s.totalTicks)
          totalTicks := max s.totalTicks toOccur.when
          shared := (prog.handler toOccur.handler s.shared).1
          inHandler := true
          status := .systemMode }

theorem due_of_checkIfDue {prog : Program G U H} {advanceClock : Bool}
    {res : Option (List (Frame U H))} (h : s.checkIfDue prog advanceClock = .ok (res, s'))
    : s.level = .intOff ∧ Due prog advanceClock s res s' := by
  unfold checkIfDue at h
  split at h
  . next hlevel =>
    refine ⟨hlevel, ?_⟩
    split at h
    . next hpending =>
      injection h with h
      injection h with hres hs
      subst hres hs
      exact .none hpending
    . next toOccur rest hpending =>
      split at h
      . next hearly =>
        injection h with h
        injection h with hres hs
        subst hres hs
        exact .early toOccur rest hpending hearly.1 hearly.2
      . next hearly =>
        have hdue : toOccur.when ≤ s.totalTicks ∨ advanceClock = true := by
          cases advanceClock with
          | false => exact .inl (by simpa using hearly)
          | true => exact .inr rfl
        dsimp at h
        split at h
        . next htimer =>
          obtain ⟨hstatus, htype, rfl⟩ := htimer
          injection h with h
          injection h with hres hs
          subst hres hs
          exact .timer toOccur hpending hdue hstatus htype
        . injection h with h
          injection h with hres hs
          subst hres hs
          exact .fire toOccur rest hpending hdue
  . contradiction

theorem checkIfDue_eq_ok {prog : Program G U H} {advanceClock : Bool}
    {res : Option (List (Frame U H))} (h : s.checkIfDue prog advanceClock = .ok (res, s'))
    : s.level = .intOff ∧
      ((res = none ∧
          ∃ pending idle total,
            s' = { s with pending := pending, idleTicks := idle, totalTicks := total }) ∨
        ∃ handler pending idle total,
          res = some [.handler (prog.handler handler s.shared).2, .endHandler s.status] ∧
          s' = { s with
            pending := pending, idleTicks := idle, totalTicks := total
            shared := (prog.handler handler s.shared).1
            inHandler := true, status := .systemMode }) := by
  obtain ⟨hlevel, hdue⟩ := due_of_checkIfDue h
  refine ⟨hlevel, ?_⟩
  cases hdue with
  | none => exact .inl ⟨rfl, s.pending, s.idleTicks, s.totalTicks, rfl⟩
  | early => exact .inl ⟨rfl, _, s.idleTicks, s.totalTicks, rfl⟩
  | timer => exact .inl ⟨rfl, _, _, _, rfl⟩
  | fire => exact .inr ⟨_, _, _, _, rfl, rfl⟩

theorem semV_of_nil {sem : SemId} (h : (s.sem sem).queue = [])
    : s.semV sem =
        { s with
          sem := update s.sem sem ⟨(s.sem sem).value + 1, []⟩
          syncLog := s.syncLog ++ [.v sem s.currentThread] } := by
  simp [semV, semWake, h]

theorem semV_of_cons {sem : SemId} {first : Nat} {rest : List Nat}
    (h : (s.sem sem).queue = first :: rest)
    : s.semV sem =
        { s with
          sem := update s.sem sem ⟨(s.sem sem).value + 1, rest⟩
          threadStatus := update s.threadStatus first .ready
          readyList := s.readyList ++ [first]
          schedLog := s.schedLog ++ [.readyToRun first]
          syncLog := s.syncLog ++ [.v sem s.currentThread] } := by
  simp [semV, semWake, h, readyToRun]

theorem foldl_readyToRun (s : State G U H) (queue : List Nat)
    : queue.foldl readyToRun s =
        { s with
          threadStatus := fun t => if t ∈ queue then .ready else s.threadStatus t
          readyList := s.readyList ++ queue
          schedLog := s.schedLog ++ queue.map .readyToRun } := by
  induction queue generalizing s with
  | nil => simp
  | cons first rest ih =>
    rw [List.foldl_cons, ih]
    simp only [readyToRun, List.append_assoc, List.cons_append, List.nil_append, List.map_cons,
      State.mk.injEq, and_true, true_and]
    funext t
    by_cases ht : t = first <;> simp [ht]

end State

theorem outcome_of_semP {prog : Program G U H} {s s' : State G U H} {sem : SemId}
    {oldLevel : IntStatus} {frames : List (Frame U H)}
    (h : s.semP sem oldLevel = .ok (frames, s'))
    : Outcome prog s (.pWhile sem oldLevel) frames s' := by
  unfold State.semP State.sleep at h
  dsimp at h
  split at h
  . next hvalue =>
    split at h
    . next hlevel =>
      simp only [bind, Except.bind, pure, Except.pure, Except.ok.injEq, Prod.mk.injEq] at h
      obtain ⟨rfl, rfl⟩ := h
      exact .pWhileBlock sem oldLevel hlevel hvalue
    . contradiction
  . next hvalue =>
    simp only [Except.ok.injEq, Prod.mk.injEq] at h
    obtain ⟨rfl, rfl⟩ := h
    exact .pWhileTake sem oldLevel hvalue

section Exec

variable {prog : Program G U H} {arrivals : List (Arrival H)} {s s' : State G U H}
  {frames : List (Frame U H)}

theorem outcome_of_yield
    (h : exec prog arrivals s .yield = .ok (frames, s'))
    : Outcome prog s .yield frames s' := by
  simp only [exec, State.setLevel_intOff, State.findNextToRun, bind, Except.bind, pure,
    Except.pure] at h
  cases hready : s.readyList with
  | nil =>
    simp only [hready, Except.ok.injEq, Prod.mk.injEq] at h
    obtain ⟨rfl, rfl⟩ := h
    rw [← hready]
    exact .yieldAlone hready
  | cons next rest =>
    simp only [hready, Except.ok.injEq, Prod.mk.injEq] at h
    obtain ⟨rfl, rfl⟩ := h
    simp only [State.run, State.readyToRun, List.append_assoc, List.cons_append, List.nil_append]
    exact .yieldSwitch next rest hready

theorem outcome_of_setLevel {now : IntStatus}
    (h : exec prog arrivals s (.setLevel now) = .ok (frames, s'))
    : Outcome prog s (.setLevel now) frames s' := by
  simp only [exec, State.setLevel, State.changeLevel, bind, Except.bind, pure, Except.pure] at h
  split at h
  . contradiction
  . next hset =>
    split at hset
    . next hassert =>
      split at hset
      . next htick =>
        obtain ⟨rfl, hlevel⟩ := htick
        simp only [Except.ok.injEq] at hset h
        subst hset
        simp only [Prod.mk.injEq] at h
        obtain ⟨rfl, rfl⟩ := h
        exact .setLevelTick (by simpa using hassert) hlevel
      . next htick =>
        simp only [Except.ok.injEq] at hset h
        subst hset
        simp only [Prod.mk.injEq] at h
        obtain ⟨rfl, rfl⟩ := h
        refine .setLevelQuiet now ?_
        cases now <;> cases hlevel : s.level <;> simp_all
    . contradiction

theorem outcome_of_oneTick
    (h : exec prog arrivals s .oneTick = .ok (frames, s'))
    : Outcome prog s .oneTick frames s' := by
  simp only [exec, State.changeLevel, bind, Except.bind, pure, Except.pure] at h
  split at h
  . contradiction
  . next s₁ hall =>
    obtain ⟨pending, rfl⟩ := State.scheduleAll_eq_ok hall
    simp only [Except.ok.injEq, Prod.mk.injEq] at h
    obtain ⟨rfl, rfl⟩ := h
    obtain ⟨total, system, user, hadv⟩ := State.advanceTime_eq { s with pending := pending }
    rw [hadv]
    exact .oneTick pending total system user

theorem outcome_of_tickDrain {old : MachineStatus}
    (h : exec prog arrivals s (.tickDrain old) = .ok (frames, s'))
    : Outcome prog s (.tickDrain old) frames s' := by
  simp only [exec, State.changeLevel, bind, Except.bind, pure, Except.pure] at h
  generalize hdue : s.checkIfDue prog false = due at h
  match due with
  | .error _ => contradiction
  | .ok (res, s₁) =>
    obtain ⟨hlevel, ⟨rfl, pending, idle, total, rfl⟩ | ⟨handler, pending, idle, total, rfl, rfl⟩⟩ :=
      State.checkIfDue_eq_ok hdue
    . cases hyield : s.yieldOnReturn with
      | true =>
        simp only [hyield, ↓reduceIte, Except.ok.injEq, Prod.mk.injEq] at h
        obtain ⟨rfl, rfl⟩ := h
        exact .tickYield old pending idle total hlevel hyield
      | false =>
        simp only [hyield, Bool.false_eq_true, ↓reduceIte, Except.ok.injEq, Prod.mk.injEq] at h
        obtain ⟨rfl, rfl⟩ := h
        rw [← hyield]
        exact .tickDone old pending idle total hlevel hyield
    . simp only [Except.ok.injEq, Prod.mk.injEq] at h
      obtain ⟨rfl, rfl⟩ := h
      exact .tickFire old handler pending idle total hlevel

theorem outcome_of_idle
    (h : exec prog arrivals s .idle = .ok (frames, s'))
    : Outcome prog s .idle frames s' := by
  simp only [exec, bind, Except.bind, pure, Except.pure] at h
  generalize hdue : State.checkIfDue { s with status := .idleMode } prog true = due at h
  match due with
  | .error _ => contradiction
  | .ok (res, s₁) =>
    obtain ⟨hlevel, ⟨rfl, pending, idle, total, rfl⟩ | ⟨handler, pending, idle, total, rfl, rfl⟩⟩ :=
      State.checkIfDue_eq_ok hdue
    . contradiction
    . simp only [Except.ok.injEq, Prod.mk.injEq] at h
      obtain ⟨rfl, rfl⟩ := h
      exact .idleFire handler pending idle total hlevel

theorem outcome_of_idleDrain
    (h : exec prog arrivals s .idleDrain = .ok (frames, s'))
    : Outcome prog s .idleDrain frames s' := by
  simp only [exec, bind, Except.bind, pure, Except.pure] at h
  generalize hdue : s.checkIfDue prog false = due at h
  match due with
  | .error _ => contradiction
  | .ok (res, s₁) =>
    obtain ⟨hlevel, ⟨rfl, pending, idle, total, rfl⟩ | ⟨handler, pending, idle, total, rfl, rfl⟩⟩ :=
      State.checkIfDue_eq_ok hdue
    . simp only [Except.ok.injEq, Prod.mk.injEq] at h
      obtain ⟨rfl, rfl⟩ := h
      exact .idleDrainDone pending idle total hlevel
    . simp only [Except.ok.injEq, Prod.mk.injEq] at h
      obtain ⟨rfl, rfl⟩ := h
      exact .idleDrainFire handler pending idle total hlevel

theorem outcome_of_handler {calls : List (HandlerCall H)}
    (h : exec prog arrivals s (.handler calls) = .ok (frames, s'))
    : Outcome prog s (.handler calls) frames s' := by
  match calls with
  | [] =>
    simp only [exec, Except.ok.injEq, Prod.mk.injEq] at h
    obtain ⟨rfl, rfl⟩ := h
    exact .handlerDone
  | .timerInterruptHandler :: calls =>
    simp only [exec, State.requestYield, bind, Except.bind, pure, Except.pure] at h
    split at h
    . next hstatus =>
      simp only [Except.ok.injEq, Prod.mk.injEq] at h
      obtain ⟨rfl, rfl⟩ := h
      exact .handlerTimerIdle calls hstatus
    . split at h
      . contradiction
      . next hreq =>
        split at hreq
        . next hhandler =>
          simp only [Except.ok.injEq, Prod.mk.injEq] at hreq h
          subst hreq
          obtain ⟨rfl, rfl⟩ := h
          exact .handlerTimer calls hhandler
        . contradiction
  | .v n :: calls =>
    simp only [exec, State.setLevel_intOff, bind, Except.bind, pure, Except.pure,
      Except.ok.injEq, Prod.mk.injEq] at h
    obtain ⟨rfl, rfl⟩ := h
    cases hqueue : (s.sem (.sem n)).queue with
    | nil =>
      rw [State.semV_of_nil (by exact hqueue)]
      exact .handlerVQuiet n calls hqueue
    | cons first rest =>
      rw [State.semV_of_cons (by exact hqueue)]
      exact .handlerVWake n calls first rest hqueue
  | .schedule handler fromNow type :: calls =>
    simp only [exec, bind, Except.bind, pure, Except.pure] at h
    split at h
    . contradiction
    . next hsched =>
      obtain ⟨pending, rfl⟩ := State.schedule_eq_ok hsched
      simp only [Except.ok.injEq, Prod.mk.injEq] at h
      obtain ⟨rfl, rfl⟩ := h
      exact .handlerSchedule handler fromNow type calls pending

theorem outcome_of_runTail
    (h : exec prog arrivals s .runTail = .ok (frames, s'))
    : Outcome prog s .runTail frames s' := by
  simp only [exec, State.deleteThread, bind, Except.bind, pure, Except.pure] at h
  split at h
  . next hslot =>
    simp only [Except.ok.injEq, Prod.mk.injEq] at h
    obtain ⟨rfl, rfl⟩ := h
    exact .runTailNone hslot
  . next thread hslot =>
    split at h
    . contradiction
    . next hdel =>
      split at hdel
      . contradiction
      . next hne =>
        simp only [Except.ok.injEq, Prod.mk.injEq] at hdel h
        subst hdel
        obtain ⟨rfl, rfl⟩ := h
        exact .runTailDestroy thread hslot hne

theorem outcome_of_v {sem : SemId}
    (h : exec prog arrivals s (.v sem) = .ok (frames, s'))
    : Outcome prog s (.v sem) frames s' := by
  simp only [exec, State.setLevel_intOff, bind, Except.bind, pure, Except.pure,
    Except.ok.injEq, Prod.mk.injEq] at h
  obtain ⟨rfl, rfl⟩ := h
  cases hqueue : (s.sem sem).queue with
  | nil =>
    rw [State.semV_of_nil (by exact hqueue)]
    exact .vQuiet sem hqueue
  | cons first rest =>
    rw [State.semV_of_cons (by exact hqueue)]
    exact .vWake sem first rest hqueue

theorem outcome_of_waitSleep {c l : Nat}
    (h : exec prog arrivals s (.waitSleep c l) = .ok (frames, s'))
    : Outcome prog s (.waitSleep c l) frames s' := by
  simp only [exec, State.sleep, bind, Except.bind, pure, Except.pure] at h
  split at h
  . contradiction
  . next hsleep =>
    split at hsleep
    . next hlevel =>
      simp only [Except.ok.injEq, Prod.mk.injEq] at hsleep h
      subst hsleep
      obtain ⟨rfl, rfl⟩ := h
      exact .waitSleep c l hlevel
    . contradiction

theorem outcome_of_signal {c l : Nat}
    (h : exec prog arrivals s (.signal c l) = .ok (frames, s'))
    : Outcome prog s (.signal c l) frames s' := by
  simp only [exec, State.isHeldByCurrentThread, State.setLevel_intOff, decide_eq_true_eq, bind,
    Except.bind, pure, Except.pure] at h
  split at h
  . next howner =>
    simp only [Except.ok.injEq, Prod.mk.injEq] at h
    obtain ⟨rfl, rfl⟩ := h
    cases hqueue : s.condQueue c with
    | nil =>
      simp only [State.condSignal, hqueue]
      exact .signalQuiet c l howner hqueue
    | cons first rest =>
      simp only [State.condSignal, hqueue, State.readyToRun]
      exact .signalWake c l howner first rest hqueue
  . contradiction

theorem outcome_of_broadcast {c l : Nat}
    (h : exec prog arrivals s (.broadcast c l) = .ok (frames, s'))
    : Outcome prog s (.broadcast c l) frames s' := by
  simp only [exec, State.isHeldByCurrentThread, State.setLevel_intOff, decide_eq_true_eq, bind,
    Except.bind, pure, Except.pure] at h
  split at h
  . next howner =>
    simp only [Except.ok.injEq, Prod.mk.injEq] at h
    obtain ⟨rfl, rfl⟩ := h
    simp only [State.condBroadcast, State.foldl_readyToRun]
    exact .broadcast c l howner
  . contradiction

theorem outcome_of_exec {frame : Frame U H} (h : exec prog arrivals s frame = .ok (frames, s'))
    : Outcome prog s frame frames s' := by
  cases frame with
  | threadRoot func =>
    simp only [exec, Except.ok.injEq, Prod.mk.injEq] at h
    obtain ⟨rfl, rfl⟩ := h
    exact .threadRoot func
  | user u =>
    simp only [exec, Except.ok.injEq, Prod.mk.injEq] at h
    obtain ⟨rfl, rfl⟩ := h
    exact .user u
  | finish =>
    simp only [exec, State.setLevel_intOff, State.sleep, bind, Except.bind, pure, Except.pure,
      ↓reduceIte, Except.ok.injEq, Prod.mk.injEq] at h
    obtain ⟨rfl, rfl⟩ := h
    exact .finish
  | notReached => contradiction
  | yield => exact outcome_of_yield h
  | setLevel _ => exact outcome_of_setLevel h
  | oneTick => exact outcome_of_oneTick h
  | tickDrain _ => exact outcome_of_tickDrain h
  | restoreStatus old =>
    simp only [exec, Except.ok.injEq, Prod.mk.injEq] at h
    obtain ⟨rfl, rfl⟩ := h
    exact .restoreStatus old
  | idle => exact outcome_of_idle h
  | idleDrain => exact outcome_of_idleDrain h
  | handler _ => exact outcome_of_handler h
  | endHandler old =>
    simp only [exec, Except.ok.injEq, Prod.mk.injEq] at h
    obtain ⟨rfl, rfl⟩ := h
    exact .endHandler old
  | sleepLoop => exact outcome_of_sleepLoop h
  | runTail => exact outcome_of_runTail h
  | p sem =>
    simp only [exec, State.setLevel_intOff, bind, Except.bind] at h
    -- the first test of the loop is like every later one, with interrupts disabled before it
    have hloop : Outcome prog _ _ _ _ := outcome_of_semP h
    cases hloop with
    | pWhileTake _ _ hvalue => exact .pTake sem hvalue
    | pWhileBlock _ _ _ hvalue => exact .pBlock sem hvalue
  | pWhile sem oldLevel =>
    simp only [exec] at h
    exact outcome_of_semP h
  | v _ => exact outcome_of_v h
  | acquire l =>
    simp only [exec, State.isHeldByCurrentThread, decide_eq_true_eq] at h
    split at h
    . contradiction
    . next howner =>
      simp only [Except.ok.injEq, Prod.mk.injEq] at h
      obtain ⟨rfl, rfl⟩ := h
      exact .acquire l howner
  | setOwner l =>
    simp only [exec, Except.ok.injEq, Prod.mk.injEq] at h
    obtain ⟨rfl, rfl⟩ := h
    exact .setOwner l
  | release l =>
    simp only [exec, State.isHeldByCurrentThread, decide_eq_true_eq] at h
    split at h
    . next howner =>
      simp only [Except.ok.injEq, Prod.mk.injEq] at h
      obtain ⟨rfl, rfl⟩ := h
      exact .release l howner
    . contradiction
  | wait c l =>
    simp only [exec, State.isHeldByCurrentThread, decide_eq_true_eq] at h
    split at h
    . next howner =>
      simp only [Except.ok.injEq, Prod.mk.injEq] at h
      obtain ⟨rfl, rfl⟩ := h
      exact .wait c l howner
    . contradiction
  | waitSleep _ _ => exact outcome_of_waitSleep h
  | waitAcquire c l =>
    simp only [exec, Except.ok.injEq, Prod.mk.injEq] at h
    obtain ⟨rfl, rfl⟩ := h
    exact .waitAcquire c l
  | signal _ _ => exact outcome_of_signal h
  | broadcast _ _ => exact outcome_of_broadcast h
  | fork func =>
    simp only [exec, State.newThread, State.setLevel_intOff, bind, Except.bind, pure, Except.pure,
      Except.ok.injEq, Prod.mk.injEq] at h
    obtain ⟨rfl, rfl⟩ := h
    simp only [State.readyToRun, Function.update_idem]
    exact .fork func
  | schedule handler fromNow type =>
    simp only [exec, bind, Except.bind, pure, Except.pure] at h
    split at h
    . contradiction
    . next hsched =>
      obtain ⟨pending, rfl⟩ := State.schedule_eq_ok hsched
      simp only [Except.ok.injEq, Prod.mk.injEq] at h
      obtain ⟨rfl, rfl⟩ := h
      exact .schedule handler fromNow type pending

end Exec

theorem step_cases {prog : Program G U H} {s s' : State G U H} (h : Step prog s s')
    : ∃ frame rest frames s₁,
        s.stack s.currentThread = frame :: rest ∧ Outcome prog s frame frames s₁ ∧
        s' = s₁.setStack s.currentThread (frames ++ rest) := by
  obtain ⟨arrivals, h⟩ := h
  unfold step at h
  split at h
  . contradiction
  . next frame rest hstack =>
    split at h
    . contradiction
    . next frames s₁ hexec =>
      injection h with h
      exact ⟨frame, rest, frames, s₁, hstack, outcome_of_exec hexec, h.symm⟩

theorem Outcome.shared_cases {prog : Program G U H} {s s' : State G U H} {frame : Frame U H}
    {frames : List (Frame U H)} (h : Outcome prog s frame frames s')
    : s'.shared = s.shared ∨
      (∃ handler, s'.shared = (prog.handler handler s.shared).1) ∨
      ∃ u, frame = .user u ∧ s'.shared = (prog.code u s.shared).1 := by
  cases h with
  | user u => exact .inr (.inr ⟨u, rfl, rfl⟩)
  | tickFire _ handler | idleFire handler | idleDrainFire handler => exact .inr (.inl ⟨handler, rfl⟩)
  | _ => exact .inl rfl

theorem Step.numThreads_le {prog : Program G U H} {s s' : State G U H} (h : Step prog s s')
    : s.numThreads ≤ s'.numThreads := by
  obtain ⟨frame, rest, frames, s₁, hstack, hout, rfl⟩ := step_cases h
  rw [State.setStack_numThreads]
  cases hout with
  | fork => exact Nat.le_succ _
  | _ => exact Nat.le_refl _

def System.Boot (sys : System G U H) (s : State G U H) : Prop :=
  ∃ pending, s = boot sys pending

def System.Reachable (sys : System G U H) (s : State G U H) : Prop :=
  Transition.Reachable sys.Boot (Step sys.toProgram) s

theorem reachable_runFor_step {prog : Program G U H} {start : State G U H → Prop}
    {R : State G U H → State G U H → Prop} {s : State G U H} (h : Transition.Reachable start R s) (n : Nat)
    (hR : ∀ i, i < n → ∀ s', step prog [] (runFor prog i s) = .ok s' → R (runFor prog i s) s')
    : Transition.Reachable start R (runFor prog n s) := by
  induction n generalizing s with
  | zero => exact h
  | succ n ih =>
    have hfirst := hR 0 (Nat.succ_pos n)
    unfold runFor
    generalize hs : step prog [] s = res
    cases res with
    | error => exact h
    | ok s' =>
      apply ih (h.tail (hfirst s' hs))
      intro i hi
      have := hR (i + 1) (Nat.succ_lt_succ hi)
      rwa [runFor, hs] at this

theorem reachable_runFor {prog : Program G U H} {start P : State G U H → Prop} {s : State G U H}
    (h : Transition.Reachable start (fun s s' => Step prog s s' ∧ P s) s) (n : Nat)
    (hP : ∀ i, i < n → P (runFor prog i s))
    : Transition.Reachable start (fun s s' => Step prog s s' ∧ P s) (runFor prog n s) :=
  reachable_runFor_step h n fun i hi _ hs => ⟨⟨[], hs⟩, hP i hi⟩

theorem numThreads_runFor_le (prog : Program G U H) (s : State G U H) {i n : Nat} (h : i ≤ n)
    : (runFor prog i s).numThreads ≤ (runFor prog n s).numThreads := by
  induction n generalizing s i with
  | zero => exact Nat.le_of_eq (by rw [Nat.le_zero.mp h])
  | succ n ih =>
    rw [runFor]
    split
    next hs => cases i <;> simp [runFor, hs]
    next s' hs =>
      cases i with
      | zero => exact Nat.le_trans (Step.numThreads_le ⟨[], hs⟩) (ih s' (Nat.zero_le n))
      | succ i =>
        rw [runFor, hs]
        exact ih s' (Nat.le_of_succ_le_succ h)

theorem System.Reachable.runFor {sys : System G U H} {s : State G U H} (h : sys.Reachable s) (n : Nat)
    : sys.Reachable (runFor sys.toProgram n s) :=
  reachable_runFor_step h n fun _ _ _ hs => ⟨[], hs⟩

theorem runFor_steps (prog : Program G U H) (s : State G U H) (n : Nat)
    : Relation.ReflTransGen (Step prog) s (runFor prog n s) := by
  have hstart : Transition.Reachable (· = s) (Step prog) s := .init rfl
  obtain ⟨_, rfl, hrun⟩ := reachable_runFor_step hstart n fun _ _ _ hs => ⟨[], hs⟩
  exact hrun

end Nachos
