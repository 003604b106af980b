import Nachos.Threads.History

/-!
This module contains what an activation of a kernel operation does to the interrupt state. Between
its call and its return other threads run, and all of them change the global level. The run lemma
`Activation.triple` says that the thread still gets back the level that it had at the call.
-/

namespace Nachos

open Function (update)

/--
A step during an activation of thread `t`: `base` is its stack below the activation.
-/
def StepAbove (prog : Program G U H) (t : Nat) (base : List (Frame U H)) (s s' : State G U H)
    : Prop :=
  Step prog s s' ∧ ∃ frames, frames ≠ [] ∧ s.stack t = frames ++ base

/--
`s'` is reached from `s` before the activation has returned, or when it has just returned.
-/
def Activation (prog : Program G U H) (t : Nat) (base : List (Frame U H)) (s s' : State G U H)
    : Prop :=
  Relation.ReflTransGen (StepAbove prog t base) s s'

section Activation

variable {sys : System G U H} {s s' : State G U H} {base above : List (Frame U H)} {t : Nat}

theorem Activation.reachable (h : Activation sys.toProgram t base s s') (hs : sys.Reachable s)
    : sys.Reachable s' := by
  induction h with
  | refl => exact hs
  | tail _ hstep ih => exact ih.tail hstep.1

theorem StepAbove.cases {prog : Program G U H} (h : StepAbove prog t base s s')
    (ht : t < s.numThreads) (hstack : s.stack t = above ++ base)
    : (s.currentThread = t ∧ ∃ frame rest frames s₁, above = frame :: rest ∧
        Outcome prog s frame frames s₁ ∧ s' = s₁.setStack t (frames ++ (rest ++ base))) ∨
      (s.currentThread ≠ t ∧ s'.stack t = above ++ base) := by
  obtain ⟨hstep, above', hne, hstack'⟩ := h
  have habove : above' = above := by
    rw [hstack] at hstack'
    exact (List.append_cancel_right hstack').symm
  subst habove
  obtain ⟨frame, rest, frames, s₁, htop, hout, rfl⟩ := step_cases hstep
  by_cases hcur : s.currentThread = t
  . left
    subst hcur
    refine ⟨rfl, ?_⟩
    cases above' with
    | nil => contradiction
    | cons f fs =>
      rw [hstack, List.cons_append] at htop
      injection htop with h1 h2
      subst h1 h2
      exact ⟨f, fs, frames, s₁, rfl, hout, rfl⟩
  . right
    refine ⟨hcur, ?_⟩
    rw [State.setStack_stack, Function.update_of_ne (Ne.symm hcur), hout.stack_of_lt ht, hstack]

theorem StepAbove.triple {prog : Program G U H} {m : Mode} (h : StepAbove prog t base s s')
    (hinv : Inv s) (ht : t < s.numThreads) (hstack : s.stack t = above ++ base)
    (htriple : Stack.Triple above (s.modeOf t) m)
    : ∃ above', s'.stack t = above' ++ base ∧ Stack.Triple above' (s'.modeOf t) m := by
  rcases h.cases ht hstack with ⟨rfl, frame, rest, frames, s₁, rfl, hout, rfl⟩ | ⟨hcur, hstack'⟩
  . refine ⟨frames ++ rest, by simp, ?_⟩
    obtain ⟨m₁, hframe, hrest⟩ := htriple
    rw [Stack.triple_append]
    rw [State.modeOf, if_pos rfl] at hframe
    exact ⟨m₁, hout.triple hframe, hrest⟩
  . refine ⟨above, hstack', ?_⟩
    obtain ⟨frame, rest, frames, s₁, htop, hout, rfl⟩ := step_cases h.1
    have hok := hinv.moded.current hinv.placed.current_lt htop
    have hmode := hout.modeOf_of_ne hok (Ne.symm hcur)
    show Stack.Triple above (s₁.modeOf t) m
    rw [hmode]
    exact htriple

theorem Activation.triple {m : Mode} (h : Activation sys.toProgram t base s s')
    (hs : sys.Reachable s) (ht : t < s.numThreads) (hstack : s.stack t = above ++ base)
    (htriple : Stack.Triple above (s.modeOf t) m)
    : t < s'.numThreads ∧
      ∃ above', s'.stack t = above' ++ base ∧ Stack.Triple above' (s'.modeOf t) m := by
  induction h with
  | refl => exact ⟨ht, above, hstack, htriple⟩
  | tail hrun hstep ih =>
    obtain ⟨ht', above', hstack', htriple'⟩ := ih
    have hinv := (Activation.reachable hrun hs).inv
    exact ⟨Nat.lt_of_lt_of_le ht' hstep.1.numThreads_le, hstep.triple hinv ht' hstack' htriple'⟩

theorem Activation.mode_of_return {m : Mode} {frame : Frame U H}
    (h : Activation sys.toProgram s.currentThread base s s') (hs : sys.Reachable s)
    (hstack : s.stack s.currentThread = frame :: base) (htriple : frame.Triple s.mode m)
    (hcurrent : s'.currentThread = s.currentThread) (hreturn : s'.stack s.currentThread = base)
    : s'.mode = m := by
  have hmode : s.modeOf s.currentThread = s.mode := by simp [State.modeOf]
  have hstart : Stack.Triple [frame] (s.modeOf s.currentThread) m := by
    rw [hmode]
    exact ⟨m, htriple, rfl⟩
  obtain ⟨_, above, hstack', hend⟩ :=
    h.triple hs hs.inv.placed.current_lt (show _ = [frame] ++ base from hstack) hstart
  have habove : above = [] := by
    rw [hreturn] at hstack'
    simpa using hstack'
  subst habove
  rw [← hcurrent] at hend
  simpa [Stack.Triple, State.modeOf] using hend

end Activation

def Frame.Restores : Frame U H → Prop
  | .fork _ | .yield | .p _ | .v _ | .acquire _ | .release _ | .signal _ _ | .broadcast _ _ => True
  | _ => False

theorem Frame.Restores.triple {frame : Frame U H} {rest : List (Frame U H)} {m : Mode}
    (h : frame.Restores) (hok : Stack.Ok (frame :: rest) m)
    : frame.Triple m m := by
  cases frame with
  | fork | yield | p | v | acquire | release | signal | broadcast =>
    obtain ⟨m₁, ⟨hm, _⟩, _⟩ := hok
    exact ⟨hm, rfl⟩
  | _ => exact h.elim

theorem Outcome.mode_of_dispatch {prog : Program G U H} {s s' : State G U H} {frame : Frame U H}
    {frames rest : List (Frame U H)} (h : Outcome prog s frame frames s')
    (hok : Stack.Ok (frame :: rest) s.mode) {events : List SchedEvent} {next : Nat} {fresh : Bool}
    (hlog : s'.schedLog = s.schedLog ++ events ++ [.dispatch next fresh])
    : s'.mode = .switched := by
  have hlength : s.schedLog.length < s'.schedLog.length := by
    rw [hlog]
    simp
  have hlast : s'.schedLog.getLast? = some (.dispatch next fresh) := by
    simp [hlog]
  cases h with
  | yieldSwitch =>
    obtain ⟨m₁, ⟨⟨h1, h2⟩, _⟩, _⟩ := hok
    simp_all [State.mode, Mode.switched]
  | sleepRun =>
    obtain ⟨m₁, ⟨h1, _⟩, _⟩ := hok
    exact h1
  | broadcast c l =>
    -- the queue may be empty, so it is the last event that was readied, or nothing was
    rcases List.eq_nil_or_concat (s.condQueue c) with hqueue | ⟨queue, last, hqueue⟩
    . simp [hqueue] at hlength
    . simp [hqueue] at hlast
  | finish | handlerVWake | vWake | signalWake | fork | runTailDestroy => simp at hlast
  | _ => exact absurd hlength (Nat.lt_irrefl _)

theorem Fault.of_ok {s : State G U H} {frame : Frame U H} {rest : List (Frame U H)} {a : Assertion}
    (h : Fault s frame a) (hok : Stack.Ok (frame :: rest) s.mode)
    : a ≠ .setLevel ∧ a ≠ .checkIfDue ∧ a ≠ .yieldOnReturn ∧
      (a = .sleep → ∃ c l, frame = .waitSleep c l) := by
  cases h with
  | setLevel hhandler =>
    obtain ⟨m₁, ⟨hm, _⟩, _⟩ := hok
    have hkernel := (hm.resolve_left (by simp)).2
    rw [State.mode, hhandler] at hkernel
    contradiction
  | tickDrain _ hlevel | idle hlevel | idleDrain hlevel | pWhile _ _ hlevel =>
    obtain ⟨m₁, ⟨hm, _⟩, _⟩ := hok
    have := congrArg Mode.level hm
    rw [State.mode, hlevel] at this
    contradiction
  | handlerTimer calls hhandler =>
    obtain ⟨m₁, ⟨hm, _⟩, _⟩ := hok
    have := congrArg Mode.inHandler hm
    rw [State.mode, hhandler] at this
    contradiction
  | waitSleep c l => simp
  | _ => simp

theorem interrupt_level_discipline {sys : System G U H} {s : State G U H} (h : sys.Reachable s)
    : (∀ s' events next fresh, Step sys.toProgram s s' →
        s'.schedLog = s.schedLog ++ events ++ [.dispatch next fresh] →
        s'.level = .intOff ∧ s'.status = .systemMode) ∧
      (∀ frame base s', frame.Restores → s.stack s.currentThread = frame :: base →
        Activation sys.toProgram s.currentThread base s s' →
        s'.currentThread = s.currentThread → s'.stack s.currentThread = base →
        s'.level = s.level) ∧
      (∀ calls rest, s.stack s.currentThread = .handler calls :: rest →
        s.level = .intOff ∧ s.inHandler = true) ∧
      (∀ arrivals, step sys.toProgram arrivals s ≠ .error (.assertion .setLevel) ∧
        step sys.toProgram arrivals s ≠ .error (.assertion .checkIfDue) ∧
        step sys.toProgram arrivals s ≠ .error (.assertion .yieldOnReturn) ∧
        (step sys.toProgram arrivals s = .error (.assertion .sleep) →
          ∃ c l rest, s.stack s.currentThread = .waitSleep c l :: rest)) := by
  have hcur := h.inv.placed.current_lt
  have hok : ∀ frame rest, s.stack s.currentThread = frame :: rest →
      Stack.Ok (frame :: rest) s.mode :=
    fun _ _ hstack => h.inv.moded.current hcur hstack
  refine ⟨?_, ?_, ?_, ?_⟩
  . intro s' events next fresh hstep hlog
    obtain ⟨frame, rest, frames, s₁, hstack, hout, rfl⟩ := step_cases hstep
    have hmode := hout.mode_of_dispatch (hok _ _ hstack) hlog
    exact ⟨congrArg Mode.level hmode, congrArg Mode.status hmode⟩
  . intro frame base s' hframe hstack hact hcurrent hreturn
    have htriple := Frame.Restores.triple hframe (hok _ _ hstack)
    exact congrArg Mode.level (hact.mode_of_return h hstack htriple hcurrent hreturn)
  . intro calls rest hstack
    obtain ⟨m₁, ⟨hm, _⟩, _⟩ := hok _ _ hstack
    exact ⟨congrArg Mode.level hm, congrArg Mode.inHandler hm⟩
  . intro arrivals
    have hfault : ∀ a, step sys.toProgram arrivals s = .error (.assertion a) →
        a ≠ .setLevel ∧ a ≠ .checkIfDue ∧ a ≠ .yieldOnReturn ∧
          (a = .sleep → ∃ c l rest, s.stack s.currentThread = .waitSleep c l :: rest) := by
      intro a hstep
      obtain ⟨frame, rest, hstack, hfault⟩ := step_fault hstep
      obtain ⟨h1, h2, h3, h4⟩ := hfault.of_ok (hok _ _ hstack)
      refine ⟨h1, h2, h3, fun ha => ?_⟩
      obtain ⟨c, l, rfl⟩ := h4 ha
      exact ⟨c, l, rest, hstack⟩
    refine ⟨?_, ?_, ?_, ?_⟩
    . exact fun hstep => (hfault _ hstep).1 rfl
    . exact fun hstep => (hfault _ hstep).2.1 rfl
    . exact fun hstep => (hfault _ hstep).2.2.1 rfl
    . exact fun hstep => (hfault _ hstep).2.2.2 rfl

theorem interrupt_level_discipline_yield
    : let prog := (script timeSlicing [[]] [.fork 0, .yield]).toProgram
      let s := scriptRun [[]] [.fork 0, .yield] [] 9
      s.currentThread = 0 ∧ s.stack 0 = [.yield, .user [], .finish] ∧ (runFor prog 1 s).currentThread = 1 ∧
        Activation prog 0 [.user [], .finish] s (runFor prog 12 s) ∧
        (runFor prog 12 s).currentThread = 0 ∧ (runFor prog 12 s).stack 0 = [.user [], .finish] ∧
        (runFor prog 12 s).level = s.level := by
  intro prog s
  have hcurrent : s.currentThread = 0 := by decide +kernel
  have hstack : s.stack 0 = [.yield, .user [], .finish] := by decide +kernel
  have hcurrent' : (runFor prog 12 s).currentThread = 0 := by decide +kernel
  have hreturn : (runFor prog 12 s).stack 0 = [.user [], .finish] := by decide +kernel
  have habove : ∀ i < 12, ((runFor prog i s).stack 0).dropLast.dropLast ≠ [] ∧
      (runFor prog i s).stack 0 = ((runFor prog i s).stack 0).dropLast.dropLast ++ [.user [], .finish] := by
    decide +kernel
  have hact : Activation prog 0 [.user [], .finish] s (runFor prog 12 s) := by
    have hstart : Transition.Reachable (· = s) (StepAbove prog 0 [.user [], .finish]) s := .init rfl
    obtain ⟨_, rfl, hrun⟩ := reachable_runFor hstart 12 fun i hi => ⟨_, habove i hi⟩
    exact hrun
  have h := interrupt_level_discipline (reachable_scriptRun [[]] [.fork 0, .yield] [] 9)
  rw [hcurrent] at h
  refine ⟨hcurrent, hstack, by decide +kernel, hact, hcurrent', hreturn, ?_⟩
  exact h.2.1 .yield _ _ trivial hstack hact hcurrent' hreturn

end Nachos
