import Nachos.Threads.Placement

/-!
This module contains what the kernel does with threads that call `Fork` and `Yield` only, on a machine without
interrupts: they take turns in the order of a queue. `System.Reachable.turns` says that every run of the kernel is
such a run.
-/

namespace Nachos

open Function (update)

structure Turns (G U : Type) where
  queue : List U
  shared : G

def Call.turns (call : Call U H) (u : U) (rest : List U) : List U :=
  match call with
  | .fork func => u :: rest ++ [func]
  | .ret => rest
  | _ => rest ++ [u]

inductive Turns.Step (prog : Program G U H) : Turns G U → Turns G U → Prop where
  | run (u : U) (rest : List U) (g : G)
    : Turns.Step prog ⟨u :: rest, g⟩
        ⟨(prog.code u g).2.1.turns (prog.code u g).2.2 rest, (prog.code u g).1⟩

def System.TurnsReachable (sys : System G U H) (c : Turns G U) : Prop :=
  Transition.Reachable (· = ⟨[sys.main], sys.globals⟩) (Turns.Step sys.toProgram) c

def Call.Cooperative (call : Call U H) : Prop :=
  call = .yield ∨ call = .ret ∨ ∃ func, call = .fork func

def Program.Cooperative (prog : Program G U H) : Prop :=
  ∀ u g, (prog.code u g).2.1.Cooperative

/-! ### The stacks -/

def Frame.code? : Frame U H → Option U
  | .threadRoot func => some func
  | .user u => some u
  | _ => none

inductive Stack.Base : Option U → List (Frame U H) → Prop where
  | user (u : U) : Base (some u) [.user u, .finish]
  | notReached : Base none [.notReached]
  | setLevel {o : Option U} {rest : List (Frame U H)} (now : IntStatus) (h : Base o rest)
    : Base o (.setLevel now :: rest)
  | oneTick {o : Option U} {rest : List (Frame U H)} (h : Base o rest) : Base o (.oneTick :: rest)
  | tickDrain {o : Option U} {rest : List (Frame U H)} (old : MachineStatus) (h : Base o rest)
    : Base o (.tickDrain old :: rest)
  | runTail {o : Option U} {rest : List (Frame U H)} (h : Base o rest) : Base o (.runTail :: rest)
  | sleepLoop {rest : List (Frame U H)} (h : Base none rest) : Base none (.sleepLoop :: rest)
  | idle {rest : List (Frame U H)} (h : Base none rest) : Base none (.idle :: rest)

inductive Stack.Cooperates : List (Frame U H) → Prop where
  | base {o : Option U} {stack : List (Frame U H)} (h : Stack.Base o stack) : Cooperates stack
  | threadRoot (func : U) : Cooperates [.threadRoot func]
  | finish : Cooperates [.finish]
  | yield (u : U) : Cooperates [.yield, .user u, .finish]
  | fork (func u : U) : Cooperates [.fork func, .user u, .finish]

theorem Stack.Base.codes {o : Option U} {stack : List (Frame U H)} (h : Base o stack)
    : stack.filterMap Frame.code? = o.toList := by
  induction h with
  | user | notReached => rfl
  | setLevel _ _ ih | oneTick _ ih | tickDrain _ _ ih | runTail _ ih | sleepLoop _ ih | idle _ ih =>
    rwa [List.filterMap_cons_none rfl]

theorem Stack.Base.notReached_mem {o : Option U} {stack : List (Frame U H)} (h : Base o stack) (ho : o = none)
    : .notReached ∈ stack := by
  induction h with
  | user => contradiction
  | notReached => exact List.mem_cons_self
  | setLevel _ _ ih | oneTick _ ih | tickDrain _ _ ih | runTail _ ih => exact List.mem_cons_of_mem _ (ih ho)
  | sleepLoop _ ih | idle _ ih => exact List.mem_cons_of_mem _ (ih rfl)

theorem Stack.Base.none_of_asleep {o : Option U} {stack : List (Frame U H)} (h : Base o stack)
    (hasleep : Stack.Asleep stack)
    : o = none := by
  induction h with
  | user | notReached | oneTick | tickDrain | runTail => exact hasleep.elim
  | sleepLoop | idle => rfl
  | setLevel now _ ih =>
    cases now with
    | intOff => exact ih hasleep
    | intOn => exact hasleep.elim

/--
The codes in front of those of the ready list, and behind them, if the thread runs.
-/
def Stack.ends : List (Frame U H) → List U × List U
  | .yield :: rest => ([], rest.filterMap Frame.code?)
  | .fork func :: rest => (rest.filterMap Frame.code?, [func])
  | stack => (stack.filterMap Frame.code?, [])

theorem Stack.Base.ends {o : Option U} {stack : List (Frame U H)} (h : Base o stack)
    : Stack.ends stack = (o.toList, []) := by
  have hcodes := h.codes
  cases h <;> exact congrArg (·, []) hcodes

def State.todo (s : State G U H) (t : Nat) : List U :=
  (s.stack t).filterMap Frame.code?

def State.turns (s : State G U H) : Turns G U where
  queue :=
    (Stack.ends (s.stack s.currentThread)).1 ++ s.readyList.flatMap s.todo ++
      (Stack.ends (s.stack s.currentThread)).2
  shared := s.shared

section

variable {prog : Program G U H} {s s' : State G U H} {frame : Frame U H} {frames rest : List (Frame U H)}

def Suspended (s : State G U H) : Prop :=
  ∀ t, t < s.numThreads → t ≠ s.currentThread →
    (∃ rest, s.stack t = .runTail :: rest) ∨ ∃ func, s.stack t = [.threadRoot func]

theorem Suspended.outcome (h : Suspended s) (hout : Outcome prog s frame frames s')
    (hstack : s.stack s.currentThread = frame :: rest)
    : Suspended (s'.setStack s.currentThread (frames ++ rest)) := by
  intro t ht hne
  rw [State.setStack_numThreads] at ht
  rw [State.setStack_currentThread] at hne
  rw [State.setStack_stack]
  by_cases hcurrent : t = s.currentThread
  . subst hcurrent
    rw [Function.update_self]
    cases hout with
    | yieldSwitch | sleepRun => exact .inl ⟨_, rfl⟩
    | _ => exact absurd rfl hne
  . rw [Function.update_of_ne hcurrent]
    by_cases hlt : t < s.numThreads
    . rw [hout.stack_of_lt hlt]
      exact h t hlt hcurrent
    . exact .inr (hout.stack_of_not_lt ht hlt)

theorem System.Reachable.suspended {sys : System G U H} {s : State G U H} (h : sys.Reachable s) : Suspended s := by
  refine Transition.Reachable.invariant ?_ ?_ h
  . rintro s ⟨pending, rfl⟩ t ht hne
    exact absurd (Nat.lt_one_iff.1 ht) hne
  . intro s s' _ hs hstep
    obtain ⟨frame, rest, frames, s₁, hstack, hout, rfl⟩ := step_cases hstep
    exact hs.outcome hout hstack

end

section

variable {prog : Program G U H} {s s' : State G U H} {frame : Frame U H} {frames rest : List (Frame U H)}

theorem Call.frames_cooperates {call : Call U H} (h : call.Cooperative) (u : U)
    : Stack.Cooperates (call.frames u ++ [.finish]) := by
  obtain rfl | rfl | ⟨func, rfl⟩ := h
  . exact .yield u
  . exact .finish
  . exact .fork func u

variable [IsEmpty H]

theorem Stack.Cooperates.outcome (hprog : prog.Cooperative) (hyield : s.yieldOnReturn = false)
    (hout : Outcome prog s frame frames s') (h : Stack.Cooperates (frame :: rest))
    : Stack.Cooperates (frames ++ rest) := by
  cases h with
  | threadRoot func =>
    cases hout
    exact .base (.setLevel _ (.user func))
  | finish =>
    cases hout
    exact .base (.sleepLoop .notReached)
  | yield u =>
    cases hout with
    | yieldAlone => exact .base (.setLevel _ (.user u))
    | yieldSwitch => exact .base (.runTail (.setLevel _ (.user u)))
  | fork func u =>
    cases hout
    exact .base (.setLevel _ (.user u))
  | base h =>
    cases h with
    | user u =>
      cases hout
      exact Call.frames_cooperates (hprog _ _) _
    | notReached => cases hout
    | setLevel now h =>
      cases hout with
      | setLevelTick => exact .base (.oneTick h)
      | setLevelQuiet => exact .base h
    | oneTick h =>
      cases hout
      exact .base (.tickDrain _ h)
    | tickDrain old h =>
      cases hout with
      | tickFire _ handler => exact isEmptyElim handler
      | tickYield _ _ _ _ _ hyield' => simp [hyield] at hyield'
      | tickDone => exact .base h
    | runTail h => cases hout <;> exact .base h
    | sleepLoop h =>
      cases hout with
      | sleepIdle => exact .base (.idle (.sleepLoop h))
      | sleepRun => exact .base (.runTail h)
    | idle h =>
      cases hout with
      | idleFire handler => exact isEmptyElim handler

end

/-! ### The queue -/

section

variable {prog : Program G U H} {s s' : State G U H} {frame : Frame U H} {frames rest : List (Frame U H)}

theorem State.todo_setStack_of_ne (s : State G U H) {t t' : Nat} (h : t' ≠ t) (stack : List (Frame U H))
    : (s.setStack t stack).todo t' = s.todo t' := by
  unfold State.todo
  rw [State.setStack_stack, Function.update_of_ne h]

theorem State.flatMap_todo {l : List Nat} (htodo : ∀ t ∈ l, s'.todo t = s.todo t)
    : l.flatMap s'.todo = l.flatMap s.todo := by
  rw [List.flatMap_def, List.flatMap_def, List.map_congr_left htodo]

theorem Placed.current_notMem (h : Placed s) (hcooperates : Stack.Cooperates (s.stack s.currentThread))
    : s.currentThread ∉ s.readyList := by
  intro hmem
  have hready := ((h.mem_ready _).1 hmem).2
  obtain ⟨hrunning, -⟩ | ⟨-, hasleep⟩ := h.current
  . rw [hrunning] at hready
    contradiction
  . generalize hstack : s.stack s.currentThread = stack at hcooperates hasleep
    cases hcooperates with
    | threadRoot | finish | yield | fork => exact hasleep.elim
    | base hbase =>
      have hblocked := (h.finished _ h.current_lt (hstack ▸ hbase.notReached_mem (hbase.none_of_asleep hasleep))).1
      rw [hblocked] at hready
      contradiction

theorem State.flatMap_todo_setStack (hst : s'.stack = s.stack) {l : List Nat} {t : Nat} (hl : t ∉ l)
    (stack : List (Frame U H))
    : l.flatMap (s'.setStack t stack).todo = l.flatMap s.todo := by
  apply State.flatMap_todo
  intro t' ht'
  rw [State.todo_setStack_of_ne _ (ne_of_mem_of_not_mem ht' hl)]
  unfold State.todo
  rw [hst]

theorem turns_same (hready : s.currentThread ∉ s.readyList) (hcurrent : s'.currentThread = s.currentThread)
    (hlist : s'.readyList = s.readyList) (hst : s'.stack = s.stack) (stack : List (Frame U H))
    : (s'.setStack s.currentThread stack).turns =
        ⟨(Stack.ends stack).1 ++ s.readyList.flatMap s.todo ++ (Stack.ends stack).2, s'.shared⟩ := by
  unfold State.turns
  simp only [State.setStack_currentThread, State.setStack_readyList, State.setStack_stack, State.setStack_shared,
    hcurrent, hlist, Function.update_self, State.flatMap_todo_setStack hst hready]

theorem turns_silent (hready : s.currentThread ∉ s.readyList) (hstack : s.stack s.currentThread = frame :: rest)
    (hends : Stack.ends (frames ++ rest) = Stack.ends (frame :: rest)) (hcurrent : s'.currentThread = s.currentThread)
    (hlist : s'.readyList = s.readyList) (hst : s'.stack = s.stack) (hshared : s'.shared = s.shared)
    : (s'.setStack s.currentThread (frames ++ rest)).turns = s.turns := by
  rw [turns_same hready hcurrent hlist hst, hends, hshared]
  unfold State.turns
  rw [hstack]

theorem Suspended.ends (h : Suspended s) {t : Nat} (ht : t < s.numThreads) (hne : t ≠ s.currentThread)
    : Stack.ends (s.stack t) = (s.todo t, []) := by
  unfold State.todo
  obtain ⟨rest, hstack⟩ | ⟨func, hstack⟩ := h t ht hne
  . rw [hstack]
    rfl
  . rw [hstack]
    rfl

theorem turns_switch (behind : List Nat) {next : Nat} {ready : List Nat} (hsuspended : Suspended s) (hplaced : Placed s)
    (hready : s.currentThread ∉ s.readyList) (hcons : s.readyList = next :: ready)
    (hcurrent : s'.currentThread = next) (hlist : s'.readyList = ready ++ behind)
    (hst : s'.stack = s.stack) (hshared : s'.shared = s.shared) (stack : List (Frame U H))
    : (s'.setStack s.currentThread stack).turns =
        ⟨s.readyList.flatMap s.todo ++ behind.flatMap (s'.setStack s.currentThread stack).todo, s.shared⟩ := by
  have hnext : next ∈ s.readyList := by simp [hcons]
  have hne := ne_of_mem_of_not_mem hnext hready
  have hends := hsuspended.ends ((hplaced.mem_ready next).1 hnext).1 hne
  rw [hcons, List.mem_cons, not_or] at hready
  unfold State.turns
  simp only [State.setStack_currentThread, State.setStack_readyList, State.setStack_stack, State.setStack_shared,
    hcurrent, hlist, hshared, hst, Function.update_of_ne hne, hends, List.append_nil, List.flatMap_append,
    State.flatMap_todo_setStack hst hready.2, hcons, List.flatMap_cons, List.append_assoc]

theorem turns_fork {func u : U} {level : IntStatus} (hplaced : Placed s) (hready : s.currentThread ∉ s.readyList)
    (hstack : s.stack s.currentThread = [.fork func, .user u, .finish]) (hcurrent : s'.currentThread = s.currentThread)
    (hlist : s'.readyList = s.readyList ++ [s.numThreads])
    (hst : s'.stack = update s.stack s.numThreads [.threadRoot func]) (hshared : s'.shared = s.shared)
    : (s'.setStack s.currentThread [.setLevel level, .user u, .finish]).turns = s.turns := by
  have hne : s.numThreads ≠ s.currentThread := Nat.ne_of_gt hplaced.current_lt
  have hold : s.readyList.flatMap (s'.setStack s.currentThread [.setLevel level, .user u, .finish]).todo =
      s.readyList.flatMap s.todo := by
    apply State.flatMap_todo
    intro t ht
    rw [State.todo_setStack_of_ne _ (ne_of_mem_of_not_mem ht hready)]
    unfold State.todo
    rw [hst, Function.update_of_ne (Nat.ne_of_lt ((hplaced.mem_ready t).1 ht).1)]
  have hnew : (s'.setStack s.currentThread [.setLevel level, .user u, .finish]).todo s.numThreads = [func] := by
    rw [State.todo_setStack_of_ne _ hne]
    unfold State.todo
    rw [hst, Function.update_self]
    rfl
  unfold State.turns
  simp only [State.setStack_currentThread, State.setStack_readyList, State.setStack_shared, hcurrent, hlist, hshared,
    List.flatMap_append, hold, List.flatMap_singleton, hnew, State.setStack_stack, Function.update_self, hstack]
  rw [← List.append_assoc]
  exact congrArg (Turns.mk · s.shared) (List.append_nil _)

theorem Call.turns_ends {call : Call U H} (h : call.Cooperative) (u : U)
    (rest : List U)
    : (Stack.ends (call.frames u ++ [.finish])).1 ++ rest ++ (Stack.ends (call.frames u ++ [.finish])).2 =
        call.turns u rest := by
  obtain rfl | rfl | ⟨func, rfl⟩ := h
  . rfl
  . exact List.append_nil rest
  . rfl

theorem Outcome.yieldOnReturn (hout : Outcome prog s frame frames s') (hstack : Stack.Cooperates (frame :: rest))
    (h : s.yieldOnReturn = false)
    : s'.yieldOnReturn = false := by
  cases hout with
  | handlerTimer =>
    cases hstack with
    | base h => cases h
  | tickYield | idleDrainDone => rfl
  | _ => exact h

variable [IsEmpty H]

theorem turns_outcome (hprog : prog.Cooperative) (hplaced : Placed s) (hsuspended : Suspended s)
    (hyield : s.yieldOnReturn = false) (hstack : s.stack s.currentThread = frame :: rest)
    (hcooperates : Stack.Cooperates (frame :: rest)) (hout : Outcome prog s frame frames s')
    : (s'.setStack s.currentThread (frames ++ rest)).turns = s.turns ∨
        Turns.Step prog s.turns (s'.setStack s.currentThread (frames ++ rest)).turns := by
  have hready := hplaced.current_notMem (hstack ▸ hcooperates)
  cases hcooperates with
  | threadRoot func =>
    cases hout
    exact .inl (turns_silent hready hstack rfl rfl rfl rfl rfl)
  | finish =>
    cases hout
    exact .inl (turns_silent hready hstack rfl rfl rfl rfl rfl)
  | yield u =>
    cases hout with
    | yieldAlone hnil =>
      left
      unfold State.turns
      simp only [State.setStack_readyList, hnil, State.setStack_currentThread, State.setStack_stack,
        Function.update_self, hstack, State.setStack_shared]
      rfl
    | yieldSwitch next ready hcons =>
      left
      rw [turns_switch [s.currentThread] hsuspended hplaced hready hcons (by rfl) (by rfl) (by rfl) (by rfl)]
      unfold State.turns State.todo
      simp only [List.flatMap_singleton, State.setStack_stack, Function.update_self, hstack]
      rfl
  | fork func u =>
    cases hout
    left
    refine turns_fork hplaced hready hstack ?_ ?_ ?_ ?_ <;> rfl
  | base h =>
    cases h with
    | user u =>
      cases hout
      right
      have hturns : s.turns = ⟨u :: s.readyList.flatMap s.todo, s.shared⟩ := by
        unfold State.turns
        rw [hstack]
        exact congrArg (Turns.mk · s.shared) (List.append_nil _)
      rw [hturns, turns_same hready (by rfl) (by rfl) (by rfl), Call.turns_ends (hprog u s.shared)]
      exact .run u _ s.shared
    | notReached => cases hout
    | setLevel now h =>
      cases hout with
      | setLevelTick => exact .inl (turns_silent hready hstack rfl rfl rfl rfl rfl)
      | setLevelQuiet => exact .inl (turns_silent hready hstack (h.ends.trans (h.setLevel now).ends.symm) rfl rfl rfl rfl)
    | oneTick h =>
      cases hout
      exact .inl (turns_silent hready hstack rfl rfl rfl rfl rfl)
    | tickDrain old h =>
      cases hout with
      | tickFire _ handler => exact isEmptyElim handler
      | tickYield _ _ _ _ _ hyield' => simp [hyield] at hyield'
      | tickDone =>
        exact .inl (turns_silent hready hstack (h.ends.trans (h.tickDrain old).ends.symm) rfl rfl rfl rfl)
    | runTail h =>
      cases hout <;> exact .inl (turns_silent hready hstack (h.ends.trans h.runTail.ends.symm) rfl rfl rfl rfl)
    | sleepLoop h =>
      cases hout with
      | sleepIdle => exact .inl (turns_silent hready hstack rfl rfl rfl rfl rfl)
      | sleepRun next ready hcons =>
        left
        rw [turns_switch [] hsuspended hplaced hready hcons (by rfl) (by simp) (by rfl) (by rfl)]
        unfold State.turns
        rw [hstack, h.sleepLoop.ends]
        rfl
    | idle h =>
      cases hout with
      | idleFire handler => exact isEmptyElim handler

structure Cooperative (s : State G U H) : Prop where
  yieldOnReturn : s.yieldOnReturn = false
  stack : ∀ t, t < s.numThreads → Stack.Cooperates (s.stack t)

theorem System.Reachable.cooperative {sys : System G U H} (hsys : sys.Cooperative) (h : sys.Reachable s)
    : Nachos.Cooperative s := by
  refine Transition.Reachable.invariant ?_ ?_ h
  . rintro s ⟨pending, rfl⟩
    refine ⟨rfl, ?_⟩
    intro t ht
    obtain rfl : t = 0 := Nat.lt_one_iff.1 ht
    exact .base (.setLevel _ (.user sys.main))
  . intro s s' hreach hs hstep
    have hplaced := (System.Reachable.inv hreach).placed
    obtain ⟨frame, rest, frames, s₁, hstack, hout, rfl⟩ := step_cases hstep
    have hcooperates := hs.stack _ hplaced.current_lt
    rw [hstack] at hcooperates
    refine ⟨hout.yieldOnReturn hcooperates hs.yieldOnReturn, ?_⟩
    intro t ht
    rw [State.setStack_numThreads] at ht
    rw [State.setStack_stack]
    by_cases hcurrent : t = s.currentThread
    . rw [hcurrent, Function.update_self]
      exact hcooperates.outcome hsys hs.yieldOnReturn hout
    . rw [Function.update_of_ne hcurrent]
      by_cases hlt : t < s.numThreads
      . rw [hout.stack_of_lt hlt]
        exact hs.stack t hlt
      . obtain ⟨func, hnew⟩ := hout.stack_of_not_lt ht hlt
        rw [hnew]
        exact .threadRoot func

theorem System.Reachable.turns_step {sys : System G U H} (hsys : sys.Cooperative) (h : sys.Reachable s)
    (hstep : Step sys.toProgram s s')
    : s'.turns = s.turns ∨ Turns.Step sys.toProgram s.turns s'.turns := by
  have hcooperative := h.cooperative hsys
  have hplaced := h.inv.placed
  obtain ⟨frame, rest, frames, s₁, hstack, hout, rfl⟩ := step_cases hstep
  have hcooperates := hcooperative.stack _ hplaced.current_lt
  rw [hstack] at hcooperates
  exact turns_outcome hsys hplaced h.suspended hcooperative.yieldOnReturn hstack hcooperates hout

theorem System.Reachable.turns {sys : System G U H} (hsys : sys.Cooperative) (h : sys.Reachable s)
    : sys.TurnsReachable s.turns := by
  refine Transition.Reachable.simulation ?_ ?_ h
  . rintro s ⟨pending, rfl⟩
    rfl
  . intro s s' hreach hstep
    exact System.Reachable.turns_step hsys hreach hstep

theorem System.Reachable.turns_nil {sys : System G U H} (hsys : sys.Cooperative) (h : sys.Reachable s)
    (hready : s.readyList = []) (hrunning : s.threadStatus s.currentThread ≠ .running)
    : s.turns.queue = [] := by
  have hplaced := h.inv.placed
  have hcooperates := (h.cooperative hsys).stack _ hplaced.current_lt
  obtain ⟨hcurrent, -⟩ | ⟨-, hasleep⟩ := hplaced.current
  . exact absurd hcurrent hrunning
  . unfold State.turns
    generalize s.stack s.currentThread = stack at hcooperates hasleep ⊢
    cases hcooperates with
    | threadRoot | finish | yield | fork => exact hasleep.elim
    | base hbase =>
      have hends := hbase.ends
      rw [hbase.none_of_asleep hasleep] at hends
      rw [hready, hends]
      rfl

theorem round_robin {sys : System G U H} (hsys : sys.Cooperative) (h : sys.Reachable s)
    : sys.TurnsReachable s.turns ∧
      (∀ s', Step sys.toProgram s s' → s'.turns = s.turns ∨ Turns.Step sys.toProgram s.turns s'.turns) ∧
      (s.readyList = [] → s.threadStatus s.currentThread ≠ .running → s.turns.queue = []) :=
  ⟨h.turns hsys, fun _ hstep => h.turns_step hsys hstep, h.turns_nil hsys⟩

end

def counting : System Nat Nat Empty where
  code u g :=
    if u = 0 then (g, .fork 1, 1)
    else if u < 4 then (g + 1, .yield, u + 1)
    else (g, .ret, u)
  handler := Empty.elim
  globals := 0
  main := 0
  value _ := 0
  value_nonneg := System.zero_nonneg

theorem cooperative_counting : counting.Cooperative := by
  intro u g
  change Call.Cooperative (if u = 0 then _ else if u < 4 then _ else _ : Nat × Call Nat Empty × Nat).2.1
  split
  . exact .inr (.inr ⟨1, rfl⟩)
  . split
    . exact .inl rfl
    . exact .inr (.inl rfl)

def countingRun (steps : Nat) : State Nat Nat Empty :=
  runFor counting.toProgram steps (boot counting [])

theorem round_robin_counting
    : (countingRun 20).turns.queue = [2, 2] ∧ counting.TurnsReachable (countingRun 20).turns ∧
        (countingRun 60).turns.queue = [] := by
  have hreach (steps : Nat) : counting.Reachable (countingRun steps) := System.Reachable.runFor (.init ⟨_, rfl⟩) steps
  refine ⟨?_, (round_robin cooperative_counting (hreach 20)).1, ?_⟩
  . decide +kernel
  . apply (round_robin cooperative_counting (hreach 60)).2.2
    . decide +kernel
    . decide +kernel

end Nachos
