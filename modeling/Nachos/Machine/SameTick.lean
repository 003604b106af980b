import Nachos.Machine.Interrupt

/-!
This module contains what happens to interrupts that are scheduled for the same tick. `CheckIfDue` takes
the first one out of the list and puts it back if it is not due, and `SortedInsert` then puts it behind
the others of its tick. So interrupts of the same tick change places with every check.
-/

namespace Nachos

/--
The first interrupt keeps its place if it is put back: those of its tick are all alike.
-/
def Untied : List (PendingInterrupt H) → Prop
  | [] => True
  | first :: rest => ∀ x ∈ rest.takeWhile (·.when ≤ first.when), x = first

instance [DecidableEq H] : (pending : List (PendingInterrupt H)) → Decidable (Untied pending)
  | [] => .isTrue trivial
  | first :: rest => inferInstanceAs (Decidable (∀ x ∈ rest.takeWhile (·.when ≤ first.when), x = first))

def Kernel.QuietStep (k : Kernel G V H) (l l' : Logged G V H) : Prop :=
  k.Step l l' ∧ ∀ frame rest, l.state.stack l.state.currentThread = frame :: rest →
    frame.isDrain = true → frame ≠ .idle → (∀ x ∈ l.state.pending.head?, l.state.totalTicks < x.when) →
    Untied l.state.pending

theorem sortedInsert_eq_cons_iff {H : Type} (first : PendingInterrupt H) (rest : List (PendingInterrupt H))
    : sortedInsert first rest = first :: rest ↔ Untied (first :: rest) := by
  rw [sortedInsert_eq]
  exact Agenda.insert_eq_cons_iff first rest

theorem checkIfDue_unchanged_iff {G U H : Type} {prog : Program G U H} {s s' : State G U H}
    (h : s.checkIfDue prog false = .ok (none, s')) (hearly : ∀ x ∈ s.pending.head?, s.totalTicks < x.when)
    : s'.pending = s.pending ↔ Untied s.pending := by
  obtain ⟨_, hdue⟩ := State.due_of_checkIfDue h
  cases hdue with
  | none hpending =>
    rw [hpending]
    exact iff_of_true rfl trivial
  | early toOccur rest hpending =>
    rw [hpending]
    exact sortedInsert_eq_cons_iff toOccur rest
  | timer toOccur hpending hdue =>
    have hlt : s.totalTicks < toOccur.when := hearly toOccur (by rw [hpending]; rfl)
    cases hdue with
    | inl hdue => omega
    | inr hadvance => cases hadvance

section

variable {k : Kernel G V H} {l l' : Logged G V H}

theorem Kernel.QuietStep.stable (h : k.QuietStep l l')
    (hinv : Agenda.Inv PendingInterrupt.when (l.state.agenda l.scheduled l.fired))
    (hstable : Agenda.Stable PendingInterrupt.when (l.state.agenda l.scheduled l.fired))
    : Agenda.Stable PendingInterrupt.when (l'.state.agenda l'.scheduled l'.fired) := by
  obtain ⟨hstep, hquiet⟩ := h
  obtain ⟨arrivals, frame, rest, frames, s', hstack, hexec, rfl⟩ := Kernel.step_cases hstep
  cases (Kernel.outcome_of_exec hexec).agenda l.scheduled l.fired with
  | inl hcalm => exact Agenda.Calm.stable_steps hcalm hinv hstable
  | inr hback =>
    obtain ⟨hdrain, hidle, ⟨toOccur, rest', hpending, hwhen, hpending', hnow⟩, hscheduled, hfired⟩ := hback
    have huntied : Untied l.state.pending := by
      apply hquiet frame rest hstack hdrain hidle
      rw [hpending]
      intro x hx
      cases hx
      exact hwhen
    rw [hpending] at huntied
    have hsame : s'.pending = l.state.pending := by
      rw [hpending', hpending]
      exact (sortedInsert_eq_cons_iff toOccur rest').2 huntied
    rw [hscheduled, hfired, List.append_nil, Option.toList_none, List.map_nil, List.append_nil]
    intro t
    have hstable := hstable t
    unfold State.agenda at hstable ⊢
    dsimp only at hstable ⊢
    rw [State.setStack_pending, hsame]
    exact hstable

theorem Kernel.stable_of_quiet (h : Transition.Reachable k.Boot k.QuietStep l)
    : Agenda.Stable PendingInterrupt.when (l.state.agenda l.scheduled l.fired) := by
  refine Transition.Reachable.invariant
    (P := fun l : Logged G V H =>
      Agenda.Stable PendingInterrupt.when (l.state.agenda l.scheduled l.fired)) ?_ ?_ h
  . rintro l ⟨arrivals, s, hsched, rfl⟩
    exact Agenda.Calm.stable_steps (scheduleAll_agenda [] [] hsched) (Agenda.inv_empty 0) fun _ => rfl
  . intro l l' hreach hstable hstep
    exact hstep.stable (Kernel.Reachable.agenda (hreach.mono fun _ _ hstep => hstep.1)) hstable

end

theorem put_back_order {G U V H : Type}
    : (∀ (prog : Program G U H) (s s' : State G U H), s.checkIfDue prog false = .ok (none, s') →
        (∀ x ∈ s.pending.head?, s.totalTicks < x.when) →
        (s'.pending = s.pending ↔ Untied s.pending)) ∧
      ∀ (k : Kernel G V H) (l : Logged G V H), Transition.Reachable k.Boot k.QuietStep l → ∀ when,
        (l.fired.map Prod.fst ++ l.state.pending).filter (·.when = when) =
          l.scheduled.filter (·.when = when) := by
  constructor
  . intro prog s s' h hearly
    exact checkIfDue_unchanged_iff h hearly
  . intro k l h
    exact Kernel.stable_of_quiet h

/-! ### Two devices that are done at the same time -/

def twoDevices : Kernel Unit Unit Bool where
  code _ g := (g, .oneTick ())
  handler _ g := (g, [])
  oneInstruction _ g := (g, none)
  globals := ()
  main := ()
  value _ := 0
  value_nonneg := System.zero_nonneg

def twoDevicesBoot (arrivals : List (PendingInterrupt Bool)) : Logged Unit Unit Bool where
  state := { boot twoDevices.system [] with pending := arrivals }
  scheduled := arrivals
  fired := []
  runTicks := 0

theorem put_back_order_quiet
    : let l := twoDevices.runFor 12
        (twoDevicesBoot [⟨false, 10, .diskInt⟩, ⟨true, 10, .consoleWriteInt⟩, ⟨false, 30, .diskInt⟩])
      Transition.Reachable twoDevices.Boot twoDevices.QuietStep l ∧
        l.fired = [(⟨false, 10, .diskInt⟩, 10), (⟨true, 10, .consoleWriteInt⟩, 10)] ∧
        l.state.pending = [⟨false, 30, .diskInt⟩] ∧ l.state.totalTicks = 20 ∧
        ∀ when, (l.fired.map Prod.fst ++ l.state.pending).filter (·.when = when) =
          l.scheduled.filter (·.when = when) := by
  -- The first two interrupts are due at the first check, and so neither of them is ever put back.
  intro l
  have hboot : Transition.Reachable twoDevices.Boot twoDevices.QuietStep (twoDevicesBoot
      [⟨false, 10, .diskInt⟩, ⟨true, 10, .consoleWriteInt⟩, ⟨false, 30, .diskInt⟩]) :=
    .init ⟨[⟨false, 10, .diskInt⟩, ⟨true, 10, .consoleWriteInt⟩, ⟨false, 30, .diskInt⟩], _, rfl, rfl⟩
  generalize hstart : twoDevicesBoot _ = start at hboot
  have hquiet : ∀ i < 12,
      ((twoDevices.runFor i start).state.stack (twoDevices.runFor i start).state.currentThread).head?.all
          (fun frame => !frame.isDrain) = true ∨
        ¬(∀ x ∈ (twoDevices.runFor i start).state.pending.head?,
          (twoDevices.runFor i start).state.totalTicks < x.when) ∨
        Untied (twoDevices.runFor i start).state.pending := by
    subst hstart
    decide +kernel
  have hreach : Transition.Reachable twoDevices.Boot twoDevices.QuietStep (twoDevices.runFor 12 start) := by
    apply twoDevices.reachable_runFor_step hboot
    intro i hi l' hstep
    refine ⟨⟨[], hstep⟩, ?_⟩
    intro frame rest hstack hdrain _ hearly
    obtain hframe | hdue | huntied := hquiet i hi
    . rw [hstack] at hframe
      simp [hdrain] at hframe
    . exact absurd hearly hdue
    . exact huntied
  subst hstart
  have horder := (put_back_order (U := Unit)).2 twoDevices _ hreach
  exact ⟨hreach, by decide +kernel, by decide +kernel, by decide +kernel, horder⟩

theorem same_tick_reversed
    : let start := twoDevicesBoot [⟨false, 20, .diskInt⟩, ⟨true, 20, .consoleWriteInt⟩]
      (∃ s', start.state.checkIfDue twoDevices.system.toProgram false = .ok (none, s') ∧
        s'.pending = [⟨true, 20, .consoleWriteInt⟩, ⟨false, 20, .diskInt⟩]) ∧
      start.state.totalTicks = 0 ∧
      start.state.pending = [⟨false, 20, .diskInt⟩, ⟨true, 20, .consoleWriteInt⟩] ∧
      ∃ l, twoDevices.Reachable l ∧
        l.scheduled = [⟨false, 20, .diskInt⟩, ⟨true, 20, .consoleWriteInt⟩] ∧
        l.fired = [(⟨true, 20, .consoleWriteInt⟩, 20), (⟨false, 20, .diskInt⟩, 20)] := by
  -- The check at tick 10 puts the first interrupt behind the second one, and so they fire at tick 20.
  intro start
  refine ⟨⟨_, rfl, rfl⟩, rfl, rfl, twoDevices.runFor 9 start, ?_, rfl, rfl⟩
  apply Kernel.Reachable.runFor
  exact .init ⟨[⟨false, 20, .diskInt⟩, ⟨true, 20, .consoleWriteInt⟩], _, rfl, rfl⟩

end Nachos
