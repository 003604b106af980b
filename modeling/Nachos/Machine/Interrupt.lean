import Nachos.Machine.Status
import Nachos.Synch.Device

/-!
This module contains what holds for the clock and for the interrupts in every run: interrupts are fired
once, in the order of their times, and every tick is charged to the right mode.
-/

namespace Nachos

open Relation

structure Ticks where
  total : Nat
  system : Nat
  user : Nat
  idle : Nat

def State.ticks (s : State G U H) : Ticks :=
  ⟨s.totalTicks, s.systemTicks, s.userTicks, s.idleTicks⟩

section

variable {prog : Program G U H} {arrivals : List (Arrival H)} {s s' : State G U H} {frame : Frame U H}
  {frames : List (Frame U H)} {advanceClock : Bool} {res : Option (List (Frame U H))}
  (scheduled : List (PendingInterrupt H)) (fired : List (PendingInterrupt H × Nat))

theorem sortedInsert_eq (item : PendingInterrupt H) (pending : List (PendingInterrupt H))
    : sortedInsert item pending = Agenda.insert PendingInterrupt.when item pending := by
  induction pending with
  | nil => rfl
  | cons first rest ih =>
    unfold sortedInsert Agenda.insert
    rw [ih]

theorem State.schedule_cases {handler : H} {fromNow : Nat} {type : IntType}
    (h : s.schedule handler fromNow type = .ok s')
    : 0 < fromNow ∧
      s' = { s with pending := sortedInsert ⟨handler, s.totalTicks + fromNow, type⟩ s.pending } := by
  unfold State.schedule at h
  split at h
  next hpos =>
    injection h with h
    exact ⟨hpos, h.symm⟩
  next => contradiction

def State.agenda (s : State G U H) (scheduled : List (PendingInterrupt H))
    (fired : List (PendingInterrupt H × Nat))
    : Agenda (PendingInterrupt H) :=
  ⟨s.totalTicks, s.pending, scheduled, fired⟩

theorem State.schedule_agenda {handler : H} {fromNow : Nat} {type : IntType}
    (h : s.schedule handler fromNow type = .ok s')
    : Agenda.Calm PendingInterrupt.when (s.agenda scheduled fired)
        (s'.agenda (scheduled ++ [⟨handler, s.totalTicks + fromNow, type⟩]) fired) := by
  obtain ⟨hpos, rfl⟩ := State.schedule_cases h
  rw [sortedInsert_eq]
  apply Agenda.Calm.schedule
  exact Nat.lt_add_of_pos_right hpos

theorem scheduleAll_agenda (h : Arrival.scheduleAll s arrivals = .ok s')
    : ReflTransGen (Agenda.Calm PendingInterrupt.when) (s.agenda scheduled fired)
        (s'.agenda (scheduled ++ arrivals.map fun a => a.interrupt s.totalTicks) fired) := by
  induction arrivals generalizing s scheduled with
  | nil =>
    injection h with h
    subst h
    rw [List.map_nil, List.append_nil]
  | cons a rest ih =>
    unfold Arrival.scheduleAll at h
    generalize hs : s.schedule a.handler a.fromNow a.type = res at h
    cases res with
    | error => contradiction
    | ok s₁ =>
      have hstep := State.schedule_agenda scheduled fired hs
      obtain ⟨_, rfl⟩ := State.schedule_cases hs
      rw [List.map_cons, List.append_cons]
      exact .head hstep (ih _ h)

/--
The first interrupt is not due, and `CheckIfDue` puts it back.
-/
def PutBack (s s' : State G U H) : Prop :=
  ∃ toOccur rest, s.pending = toOccur :: rest ∧ s.totalTicks < toOccur.when ∧
    s'.pending = sortedInsert toOccur rest ∧ s'.totalTicks = s.totalTicks

theorem PutBack.agenda (h : PutBack s s')
    : Agenda.Step PendingInterrupt.when (s.agenda scheduled fired) (s'.agenda scheduled fired) := by
  obtain ⟨toOccur, rest, hpending, _, hpending', hnow⟩ := h
  unfold State.agenda
  rw [hpending', hnow, sortedInsert_eq]
  exact .putBack toOccur rest hpending

theorem checkIfDue_agenda (h : s.checkIfDue prog advanceClock = .ok (res, s'))
    : ReflTransGen (Agenda.Calm PendingInterrupt.when) (s.agenda scheduled fired)
        (s'.agenda scheduled
          (fired ++ (s.firstIfDue prog advanceClock).toList.map fun x => (x, s'.totalTicks))) ∨
      advanceClock = false ∧ PutBack s s' ∧ s.firstIfDue prog advanceClock = none := by
  have hfirst : s.firstIfDue prog advanceClock = res.bind fun _ => s.pending.head? := by
    unfold State.firstIfDue
    rw [h]
    cases res <;> rfl
  have hwait : ∀ when, Agenda.Calm PendingInterrupt.when (s.agenda scheduled fired)
      { s.agenda scheduled fired with now := max s.totalTicks when } :=
    fun when => .wait _ (Nat.le_max_left ..)
  rw [hfirst]
  obtain ⟨_, hdue⟩ := State.due_of_checkIfDue h
  cases hdue with
  | none hpending =>
    apply Or.inl
    simpa using .refl
  | early toOccur rest hpending hwhen hadvance =>
    exact .inr ⟨hadvance, ⟨toOccur, rest, hpending, hwhen, rfl, rfl⟩, rfl⟩
  | timer toOccur hpending hdue hstatus htype =>
    apply Or.inl
    rw [← hpending, Option.bind_none, Option.toList_none, List.map_nil, List.append_nil]
    exact .single (hwait toOccur.when)
  | fire toOccur rest hpending hdue =>
    have hfire : Agenda.Calm PendingInterrupt.when
        { s.agenda scheduled fired with now := max s.totalTicks toOccur.when }
        { now := max s.totalTicks toOccur.when, pending := rest, scheduled := scheduled
          fired := fired ++ [(toOccur, max s.totalTicks toOccur.when)] } :=
      .fire toOccur rest hpending (Nat.le_max_right ..)
    apply Or.inl
    rw [hpending]
    exact (ReflTransGen.single (hwait toOccur.when)).tail hfire

theorem checkIfDue_ticks (h : s.checkIfDue prog advanceClock = .ok (res, s'))
    : ∃ n, s'.ticks = { s.ticks with total := s.ticks.total + n, idle := s.ticks.idle + n } := by
  obtain ⟨_, hdue⟩ := State.due_of_checkIfDue h
  have hmax : ∀ when, max s.totalTicks when = s.totalTicks + (when - s.totalTicks) := by
    omega
  cases hdue with
  | none | early => exact ⟨0, rfl⟩
  | timer toOccur | fire toOccur =>
    refine ⟨toOccur.when - s.totalTicks, ?_⟩
    unfold State.ticks
    dsimp only
    rw [hmax]

def Frame.isTimed : Frame U H → Bool
  | .oneTick | .schedule .. | .handler (.schedule .. :: _) => true
  | frame => frame.isDrain

theorem Outcome.untimed (h : Outcome prog s frame frames s') (hframe : frame.isTimed = false)
    : s'.pending = s.pending ∧ s'.ticks = s.ticks := by
  cases h with
  | oneTick | tickFire | tickYield | tickDone | idleFire | idleDrainFire | idleDrainDone
  | handlerSchedule | schedule => contradiction
  | _ => exact ⟨rfl, rfl⟩

theorem exec_tickDrain {old : MachineStatus} (h : exec prog arrivals s (.tickDrain old) = .ok (frames, s'))
    : ∃ res s₁, s.checkIfDue prog false = .ok (res, s₁) ∧ s'.pending = s₁.pending ∧
        s'.ticks = s₁.ticks := by
  simp only [exec, State.changeLevel, bind, Except.bind, pure, Except.pure] at h
  generalize hdue : s.checkIfDue prog false = due at h
  cases due with
  | error => contradiction
  | ok r =>
    obtain ⟨res, s₁⟩ := r
    refine ⟨res, s₁, rfl, ?_⟩
    cases res with
    | none =>
      cases hyield : s₁.yieldOnReturn with
      | true =>
        simp only [hyield, ↓reduceIte, Except.ok.injEq, Prod.mk.injEq] at h
        obtain ⟨_, rfl⟩ := h
        exact ⟨rfl, rfl⟩
      | false =>
        simp only [hyield, Bool.false_eq_true, ↓reduceIte, Except.ok.injEq, Prod.mk.injEq] at h
        obtain ⟨_, rfl⟩ := h
        exact ⟨rfl, rfl⟩
    | some =>
      simp only [Except.ok.injEq, Prod.mk.injEq] at h
      obtain ⟨_, rfl⟩ := h
      exact ⟨rfl, rfl⟩

theorem exec_checkIfDue (h : exec prog arrivals s frame = .ok (frames, s')) (hframe : frame.isDrain = true)
    : ∃ s₀ advanceClock res s₁,
        s₀ = { s with status := s₀.status } ∧
        (frame = .idle → advanceClock = true) ∧
        State.checkIfDue s₀ prog advanceClock = .ok (res, s₁) ∧
        firedBy s prog frame = State.firstIfDue s₀ prog advanceClock ∧
        s'.pending = s₁.pending ∧ s'.ticks = s₁.ticks := by
  cases frame with
  | tickDrain old =>
    obtain ⟨res, s₁, hdue, hsame⟩ := exec_tickDrain h
    exact ⟨s, false, res, s₁, rfl, by simp, hdue, rfl, hsame⟩
  | idle =>
    simp only [exec, bind, Except.bind, pure, Except.pure] at h
    generalize hdue : State.checkIfDue { s with status := .idleMode } prog true = due at h
    cases due with
    | error => contradiction
    | ok r =>
      obtain ⟨res, s₁⟩ := r
      refine ⟨{ s with status := .idleMode }, true, res, s₁, rfl, fun _ => rfl, hdue, rfl, ?_⟩
      cases res with
      | none => contradiction
      | some =>
        simp only [Except.ok.injEq, Prod.mk.injEq] at h
        obtain ⟨_, rfl⟩ := h
        exact ⟨rfl, rfl⟩
  | idleDrain =>
    simp only [exec, bind, Except.bind, pure, Except.pure] at h
    generalize hdue : s.checkIfDue prog false = due at h
    cases due with
    | error => contradiction
    | ok r =>
      obtain ⟨res, s₁⟩ := r
      refine ⟨s, false, res, s₁, rfl, by simp, hdue, rfl, ?_⟩
      cases res with
      | none =>
        simp only [Except.ok.injEq, Prod.mk.injEq] at h
        obtain ⟨_, rfl⟩ := h
        exact ⟨rfl, rfl⟩
      | some =>
        simp only [Except.ok.injEq, Prod.mk.injEq] at h
        obtain ⟨_, rfl⟩ := h
        exact ⟨rfl, rfl⟩
  | _ => contradiction

theorem untimed_logs (prog : Program G U H) (arrivals : List (Arrival H)) (s : State G U H)
    (hframe : frame.isTimed = false)
    : scheduledBy arrivals s frame = [] ∧ firedBy s prog frame = none := by
  cases frame with
  | handler calls =>
    cases calls with
    | nil => exact ⟨rfl, rfl⟩
    | cons call calls => cases call <;> first | contradiction | exact ⟨rfl, rfl⟩
  | _ => first | contradiction | exact ⟨rfl, rfl⟩

theorem exec_oneTick (h : exec prog arrivals s .oneTick = .ok (frames, s'))
    : ∃ s₁, Arrival.scheduleAll s arrivals = .ok s₁ ∧ s'.pending = s₁.pending ∧
        s'.ticks = s₁.advanceTime.ticks := by
  simp only [exec, State.changeLevel, bind, Except.bind, pure, Except.pure] at h
  split at h
  . contradiction
  . next s₁ hall =>
    simp only [Except.ok.injEq, Prod.mk.injEq] at h
    obtain ⟨_, rfl⟩ := h
    refine ⟨s₁, hall, ?_, rfl⟩
    change s₁.advanceTime.pending = s₁.pending
    unfold State.advanceTime
    split <;> rfl

theorem ok_of_bind_pure {ε σ β : Type} {x : Except ε σ} {b b' : β} {t : σ}
    (h : (do let t' ← x; pure (b, t')) = Except.ok (b', t))
    : x = .ok t := by
  cases x with
  | error => contradiction
  | ok t' =>
    cases h
    rfl

theorem exec_schedule {handler : H} {fromNow : Nat} {type : IntType}
    (h : exec prog arrivals s (.schedule handler fromNow type) = .ok (frames, s'))
    : s.schedule handler fromNow type = .ok s' := by
  rw [exec] at h
  exact ok_of_bind_pure h

theorem exec_handlerSchedule {handler : H} {fromNow : Nat} {type : IntType} {calls : List (HandlerCall H)}
    (h : exec prog arrivals s (.handler (.schedule handler fromNow type :: calls)) = .ok (frames, s'))
    : s.schedule handler fromNow type = .ok s' := by
  rw [exec] at h
  exact ok_of_bind_pure h

theorem isTimed_cases (h : frame.isTimed = true)
    : frame = .oneTick ∨ (∃ handler fromNow type, frame = .schedule handler fromNow type) ∨
      (∃ handler fromNow type calls, frame = .handler (.schedule handler fromNow type :: calls)) ∨
      frame.isDrain = true := by
  cases frame with
  | oneTick => exact .inl rfl
  | schedule handler fromNow type => exact .inr (.inl ⟨_, _, _, rfl⟩)
  | handler calls =>
    cases calls with
    | nil => contradiction
    | cons call calls =>
      cases call with
      | schedule handler fromNow type => exact .inr (.inr (.inl ⟨_, _, _, _, rfl⟩))
      | _ => contradiction
  | _ => exact .inr (.inr (.inr h))

theorem exec_agenda (h : exec prog arrivals s frame = .ok (frames, s'))
    : ReflTransGen (Agenda.Calm PendingInterrupt.when) (s.agenda scheduled fired)
        (s'.agenda (scheduled ++ scheduledBy arrivals s frame)
          (fired ++ (firedBy s prog frame).toList.map fun x => (x, s'.totalTicks))) ∨
      frame.isDrain = true ∧ frame ≠ .idle ∧ PutBack s s' ∧ scheduledBy arrivals s frame = [] ∧
        firedBy s prog frame = none := by
  cases htimed : frame.isTimed with
  | false =>
    obtain ⟨hpending, hticks⟩ := (outcome_of_exec h).untimed htimed
    obtain ⟨hscheduled, hfired⟩ := untimed_logs prog arrivals s htimed
    apply Or.inl
    rw [hscheduled, hfired]
    have hnow : s'.totalTicks = s.totalTicks := congrArg Ticks.total hticks
    simp only [State.agenda, hpending, hnow, List.append_nil, Option.toList_none, List.map_nil]
    exact .refl
  | true =>
    obtain rfl | ⟨handler, fromNow, type, rfl⟩ | ⟨handler, fromNow, type, calls, rfl⟩ | hdrain :=
      isTimed_cases htimed
    . obtain ⟨s₁, hall, hpending, hticks⟩ := exec_oneTick h
      have hwait : Agenda.Calm PendingInterrupt.when
          (s₁.agenda (scheduled ++ arrivals.map fun a => a.interrupt s.totalTicks) fired)
          (s'.agenda (scheduled ++ arrivals.map fun a => a.interrupt s.totalTicks) fired) := by
        have hnow : s₁.totalTicks ≤ s'.totalTicks := by
          rw [show s'.totalTicks = s₁.advanceTime.totalTicks from congrArg Ticks.total hticks]
          unfold State.advanceTime
          split <;> exact Nat.le_add_right ..
        unfold State.agenda
        rw [hpending]
        exact .wait s'.totalTicks hnow
      apply Or.inl
      simpa [scheduledBy, firedBy] using (scheduleAll_agenda scheduled fired hall).tail hwait
    . apply Or.inl
      simpa [scheduledBy, firedBy] using ReflTransGen.single (State.schedule_agenda scheduled fired (exec_schedule h))
    . apply Or.inl
      simpa [scheduledBy, firedBy] using
        ReflTransGen.single (State.schedule_agenda scheduled fired (exec_handlerSchedule h))
    . obtain ⟨s₀, advanceClock, res, s₁, hs₀, hidle, hcheck, hfired, hpending, hticks⟩ := exec_checkIfDue h hdrain
      have hscheduled : scheduledBy arrivals s frame = [] := by
        cases frame <;> first | contradiction | rfl
      have hnow : s'.totalTicks = s₁.totalTicks := congrArg Ticks.total hticks
      rw [hscheduled, hfired, List.append_nil]
      cases checkIfDue_agenda scheduled fired hcheck with
      | inl hcalm =>
        apply Or.inl
        have hbefore : s₀.agenda scheduled fired = s.agenda scheduled fired := by
          rw [hs₀]
          rfl
        rw [hbefore] at hcalm
        unfold State.agenda at hcalm ⊢
        rw [hpending, hnow]
        exact hcalm
      | inr hback =>
        obtain ⟨hadvance, ⟨toOccur, rest, hbefore, hwhen, hafter, hsame⟩, hnone⟩ := hback
        rw [hs₀] at hbefore hwhen hsame
        have hne : frame ≠ .idle := by
          intro heq
          rw [hidle heq] at hadvance
          cases hadvance
        exact .inr ⟨hdrain, hne, ⟨toOccur, rest, hbefore, hwhen, hpending.trans hafter, hnow.trans hsame⟩, rfl, hnone⟩

theorem exec_ticks (h : exec prog arrivals s frame = .ok (frames, s')) (hframe : frame ≠ .oneTick)
    : ∃ n, s'.ticks = { s.ticks with total := s.ticks.total + n, idle := s.ticks.idle + n } := by
  cases htimed : frame.isTimed with
  | false => exact ⟨0, ((outcome_of_exec h).untimed htimed).2⟩
  | true =>
    obtain rfl | ⟨handler, fromNow, type, rfl⟩ | ⟨handler, fromNow, type, calls, rfl⟩ | hdrain :=
      isTimed_cases htimed
    . contradiction
    . obtain ⟨_, rfl⟩ := State.schedule_cases (exec_schedule h)
      exact ⟨0, rfl⟩
    . obtain ⟨_, rfl⟩ := State.schedule_cases (exec_handlerSchedule h)
      exact ⟨0, rfl⟩
    . obtain ⟨s₀, advanceClock, res, s₁, hs₀, _, hcheck, _, _, hticks⟩ := exec_checkIfDue h hdrain
      obtain ⟨n, hn⟩ := checkIfDue_ticks hcheck
      have hsame : s₀.ticks = s.ticks := by
        rw [hs₀]
        rfl
      exact ⟨n, by rw [hticks, hn, hsame]⟩

theorem exec_oneTick_ticks (h : exec prog arrivals s .oneTick = .ok (frames, s'))
    : s'.ticks =
        if s.status = .systemMode then
          { s.ticks with total := s.ticks.total + 10, system := s.ticks.system + 10 }
        else
          { s.ticks with total := s.ticks.total + 1, user := s.ticks.user + 1 } := by
  obtain ⟨s₁, hall, _, hticks⟩ := exec_oneTick h
  obtain ⟨pending, rfl⟩ := State.scheduleAll_eq_ok hall
  rw [hticks]
  unfold State.advanceTime
  dsimp only
  split <;> rfl

end

section

variable {k : Kernel G V H} {l l' : Logged G V H} {arrivals : List (Arrival H)}
  {s s' : State G (Site V) H} {frame : Frame (Site V) H} {frames rest : List (Frame (Site V) H)}

theorem Kernel.Outcome.agenda (h : k.Outcome arrivals s frame frames s')
    (scheduled : List (PendingInterrupt H)) (fired : List (PendingInterrupt H × Nat))
    : ReflTransGen (Agenda.Calm PendingInterrupt.when) (s.agenda scheduled fired)
        (s'.agenda (scheduled ++ scheduledBy arrivals s frame.function)
          (fired ++
            (firedBy s k.system.toProgram frame).toList.map fun x => (x, s'.totalTicks))) ∨
      frame.isDrain = true ∧ frame ≠ .idle ∧ PutBack s s' ∧ scheduledBy arrivals s frame.function = [] ∧
        firedBy s k.system.toProgram frame = none := by
  cases h with
  | kernel _ _ _ hframe hexec =>
    have hfunction : frame.function = frame := by
      cases frame with
      | user site => exact absurd rfl (hframe site)
      | _ => rfl
    rw [hfunction]
    exact exec_agenda scheduled fired hexec
  | runTick _ _ hexec =>
    cases exec_agenda scheduled fired hexec with
    | inl hcalm => exact .inl hcalm
    | inr hback => cases hback.1
  | _ =>
    apply Or.inl
    simpa [Frame.function, scheduledBy, firedBy] using .refl

theorem Kernel.Step.agenda (h : k.Step l l')
    : ReflTransGen (Agenda.Step PendingInterrupt.when) (l.state.agenda l.scheduled l.fired)
        (l'.state.agenda l'.scheduled l'.fired) := by
  obtain ⟨arrivals, frame, rest, frames, s', hstack, hexec, rfl⟩ := Kernel.step_cases h
  cases (Kernel.outcome_of_exec hexec).agenda l.scheduled l.fired with
  | inl hcalm => exact Agenda.Calm.steps hcalm
  | inr hback =>
    obtain ⟨_, _, hback, hscheduled, hfired⟩ := hback
    rw [hscheduled, hfired, List.append_nil, Option.toList_none, List.map_nil, List.append_nil]
    exact .single (hback.agenda l.scheduled l.fired)

theorem Kernel.Reachable.agenda (h : k.Reachable l)
    : Agenda.Inv PendingInterrupt.when (l.state.agenda l.scheduled l.fired) := by
  refine Transition.Reachable.invariant
    (P := fun l : Logged G V H =>
      Agenda.Inv PendingInterrupt.when (l.state.agenda l.scheduled l.fired)) ?_ ?_ h
  . rintro l ⟨arrivals, s, hsched, rfl⟩
    have hsteps := scheduleAll_agenda [] [] hsched
    exact (Agenda.inv_empty 0).steps (Agenda.Calm.steps hsteps)
  . intro l l' _ hinv hstep
    exact hinv.steps hstep.agenda

theorem checkIfDue_false {prog : Program G U H} {s s' : State G U H} {res : Option (List (Frame U H))}
    (h : s.checkIfDue prog false = .ok (res, s')) (hstatus : s.status ≠ .idleMode)
    (hfirst : s.firstIfDue prog false = none)
    : s'.totalTicks = s.totalTicks ∧ (∀ x ∈ s'.pending, x ∈ s.pending) ∧
        ∀ x ∈ s.pending.head?, s.totalTicks < x.when := by
  obtain ⟨_, hdue⟩ := State.due_of_checkIfDue h
  cases hdue with
  | none hpending => exact ⟨rfl, fun _ => id, by simp [hpending]⟩
  | early toOccur rest hpending hwhen =>
    refine ⟨rfl, ?_, by simpa [hpending] using hwhen⟩
    intro x hx
    rw [sortedInsert_eq] at hx
    rw [hpending]
    exact (Agenda.insert_perm toOccur rest).mem_iff.mp hx
  | timer _ _ _ hidle => exact absurd hidle hstatus
  | fire toOccur rest hpending =>
    unfold State.firstIfDue at hfirst
    rw [h, hpending] at hfirst
    contradiction

theorem Kernel.Reachable.drained (h : k.Reachable l) (hstep : k.Step l l') {old : MachineStatus}
    (hstack : l.state.stack l.state.currentThread = .tickDrain old :: rest) (hfired : l'.fired = l.fired)
    : ∀ x ∈ l'.state.pending, l'.state.totalTicks < x.when := by
  obtain ⟨hstatus, hsane⟩ := h.status_eq hstack
  have hidle : l.state.status ≠ .idleMode := by
    rw [hstatus]
    exact hsane
  obtain ⟨arrivals, frame, rest', frames, s', hstack', hexec, rfl⟩ := Kernel.step_cases hstep
  obtain ⟨rfl, rfl⟩ : frame = .tickDrain old ∧ rest' = rest := by
    rw [hstack] at hstack'
    injection hstack' with h1 h2
    exact ⟨h1.symm, h2.symm⟩
  have hfirst : l.state.firstIfDue k.system.toProgram false = none := by
    simpa [firedBy] using hfired
  have hexec : Nachos.exec k.system.toProgram arrivals l.state (.tickDrain old) = .ok (frames, s') := hexec
  obtain ⟨res, s₁, hcheck, hpending, hticks⟩ := exec_tickDrain hexec
  obtain ⟨hnow, hmem, hhead⟩ := checkIfDue_false hcheck hidle hfirst
  have hnow' : s'.totalTicks = s₁.totalTicks := congrArg Ticks.total hticks
  intro x hx
  change x ∈ s'.pending at hx
  change s'.totalTicks < x.when
  rw [hpending] at hx
  rw [hnow', hnow]
  have hx := hmem x hx
  have hsorted : l.state.pending.Pairwise fun x y => x.when ≤ y.when := h.agenda.sorted
  -- the list is sorted, so nothing is due if the first interrupt is not
  cases hlist : l.state.pending with
  | nil => simp [hlist] at hx
  | cons first later =>
    rw [hlist] at hx hsorted hhead
    have hfirst := hhead first rfl
    cases hx with
    | head => exact hfirst
    | tail _ hx =>
      have := (List.pairwise_cons.mp hsorted).1 x hx
      omega

theorem exec_idle_halt {prog : Program G U H} {s : State G U H} {arrivals : List (Arrival H)}
    (h : Nachos.exec prog arrivals s .idle = .error .halt)
    : s.pending = [] ∨ ∃ x, s.pending = [x] ∧ x.type = .timerInt := by
  simp only [Nachos.exec, bind, Except.bind, pure, Except.pure] at h
  generalize hdue : State.checkIfDue { s with status := .idleMode } prog true = due at h
  cases due with
  | error stop =>
    injection h with h
    subst h
    obtain ⟨_, hstop⟩ := State.checkIfDue_eq_error hdue
    contradiction
  | ok r =>
    obtain ⟨res, s₁⟩ := r
    obtain ⟨_, hcases⟩ := State.due_of_checkIfDue hdue
    cases hcases with
    | none hpending => exact .inl hpending
    | early _ _ _ _ hadvance => contradiction
    | timer toOccur hpending _ _ htype => exact .inr ⟨toOccur, hpending, htype⟩
    | fire => contradiction

theorem interrupts_in_order (h : k.Reachable l)
    : (l.state.pending.Pairwise fun x y => x.when ≤ y.when) ∧
      l.scheduled.Perm (l.fired.map Prod.fst ++ l.state.pending) ∧
      (∀ e ∈ l.fired, e.1.when ≤ e.2) ∧
      (l.fired.Pairwise fun e e' => e.1.when ≤ e'.1.when) ∧
      (∀ l' old rest, k.Step l l' →
        l.state.stack l.state.currentThread = .tickDrain old :: rest → l'.fired = l.fired →
        ∀ x ∈ l'.state.pending, l'.state.totalTicks < x.when) ∧
      ∀ arrivals rest, l.state.stack l.state.currentThread = .idle :: rest →
        k.step arrivals l = .error .halt →
        l.state.pending = [] ∨ ∃ x, l.state.pending = [x] ∧ x.type = .timerInt := by
  have hinv := h.agenda
  refine ⟨hinv.sorted, hinv.once, fun e he => (hinv.due e he).1, hinv.ordered, ?_, ?_⟩
  . intro l' old rest hstep hstack hfired
    exact h.drained hstep hstack hfired
  . intro arrivals rest hstack hhalt
    simp only [Kernel.step, hstack] at hhalt
    split at hhalt
    next stop hexec =>
      injection hhalt with hhalt
      subst hhalt
      have hexec : Nachos.exec k.system.toProgram arrivals l.state .idle = .error .halt := hexec
      exact exec_idle_halt hexec
    next => contradiction

theorem interrupts_in_order_timeSharingRun
    : (timeSharingRun 100).fired.length = 4 ∧
      (timeSharingRun 100).fired.Pairwise fun e e' => e.1.when ≤ e'.1.when :=
  ⟨by decide +kernel, (interrupts_in_order (reachable_timeSharingRun 100)).2.2.2.1⟩

/-! ### The charges -/

theorem Kernel.Outcome.ticks (h : k.Outcome arrivals s frame frames s') (hframe : frame.function ≠ .oneTick)
    : ∃ n, s'.ticks = { s.ticks with total := s.ticks.total + n, idle := s.ticks.idle + n } := by
  cases h with
  | kernel _ _ _ huser hexec =>
    refine exec_ticks hexec ?_
    rintro rfl
    exact hframe rfl
  | runTick _ _ hexec => exact absurd rfl hframe
  | _ => exact ⟨0, rfl⟩

theorem Kernel.Reachable.charge (h : k.Reachable l) (hstep : k.Step l l')
    (hstack : l.state.stack l.state.currentThread = frame :: rest)
    : (frame = .oneTick ∧ l'.runTicks = l.runTicks ∧
        l'.state.ticks = { l.state.ticks with
          total := l.state.ticks.total + 10, system := l.state.ticks.system + 10 }) ∨
      (frame = .user .oneTick ∧ l'.runTicks = l.runTicks + 1 ∧
        l'.state.ticks = { l.state.ticks with
          total := l.state.ticks.total + 1, user := l.state.ticks.user + 1 }) ∨
      (frame ≠ .oneTick ∧ frame ≠ .user .oneTick ∧ l'.runTicks = l.runTicks ∧
        ∃ n, l'.state.ticks = { l.state.ticks with
          total := l.state.ticks.total + n, idle := l.state.ticks.idle + n }) := by
  obtain ⟨hstatus, _⟩ := h.status_eq hstack
  obtain ⟨arrivals, frame', rest', frames, s', hstack', hexec, rfl⟩ := Kernel.step_cases hstep
  obtain rfl : frame' = frame := by
    rw [hstack] at hstack'
    injection hstack' with h1 h2
    exact h1.symm
  have hout := Kernel.outcome_of_exec hexec
  by_cases hframe : frame'.function = .oneTick
  . cases hout with
    | kernel _ _ _ huser hexec =>
      obtain rfl : frame' = .oneTick := by
        cases frame' with
        | user site => exact absurd rfl (huser site)
        | _ => first | rfl | contradiction
      have hticks := exec_oneTick_ticks hexec
      rw [hstatus] at hticks
      exact .inl ⟨rfl, rfl, hticks⟩
    | runTick _ _ hexec =>
      have hticks := exec_oneTick_ticks hexec
      rw [hstatus] at hticks
      exact .inr (.inl ⟨rfl, rfl, hticks⟩)
    | _ => contradiction
  . have hne : frame' ≠ .oneTick ∧ frame' ≠ .user .oneTick := by
      constructor <;>
        rintro rfl <;>
        exact hframe rfl
    refine .inr (.inr ⟨hne.1, hne.2, ?_, hout.ticks hframe⟩)
    have hnone : runTicksBy frame' = 0 := by
      unfold runTicksBy
      split
      next => exact absurd rfl hne.2
      next => rfl
    simp [hnone]

theorem Kernel.Reachable.accounted (h : k.Reachable l)
    : l.state.totalTicks = l.state.systemTicks + l.state.userTicks + l.state.idleTicks ∧
      l.state.userTicks = l.runTicks := by
  refine Transition.Reachable.invariant
    (P := fun l : Logged G V H =>
      l.state.totalTicks = l.state.systemTicks + l.state.userTicks + l.state.idleTicks ∧
        l.state.userTicks = l.runTicks) ?_ ?_ h
  . rintro l ⟨arrivals, s, hsched, rfl⟩
    obtain ⟨pending, rfl⟩ := State.scheduleAll_eq_ok hsched
    exact ⟨rfl, rfl⟩
  . intro l l' hreach ⟨htotal, huser⟩ hstep
    obtain ⟨_, frame, rest, _, _, hstack, _⟩ := Kernel.step_cases hstep
    have hreach : k.Reachable l := hreach
    obtain ⟨_, hrun, hticks⟩ | ⟨_, hrun, hticks⟩ | ⟨_, _, hrun, n, hticks⟩ := hreach.charge hstep hstack
    all_goals
      injection hticks with h1 h2 h3 h4
      dsimp only [State.ticks] at h1 h2 h3 h4
      omega

theorem tick_accounting (h : k.Reachable l)
    : l.state.totalTicks = l.state.systemTicks + l.state.userTicks + l.state.idleTicks ∧
      l.state.userTicks = l.runTicks ∧
      ∀ l', k.Step l l' →
        l.state.totalTicks ≤ l'.state.totalTicks ∧
        ∀ frame rest, l.state.stack l.state.currentThread = frame :: rest →
          (frame = .oneTick → l'.state.userTicks = l.state.userTicks ∧
            l'.state.systemTicks = l.state.systemTicks + 10) ∧
          (frame = .user .oneTick → l'.state.userTicks = l.state.userTicks + 1 ∧
            l'.state.systemTicks = l.state.systemTicks) ∧
          (frame ≠ .oneTick → frame ≠ .user .oneTick →
            l'.state.userTicks = l.state.userTicks ∧ l'.state.systemTicks = l.state.systemTicks) := by
  obtain ⟨htotal, huser⟩ := h.accounted
  refine ⟨htotal, huser, ?_⟩
  intro l' hstep
  constructor
  . obtain ⟨_, frame, rest, _, _, hstack, _⟩ := Kernel.step_cases hstep
    obtain ⟨_, _, hticks⟩ | ⟨_, _, hticks⟩ | ⟨_, _, _, n, hticks⟩ := h.charge hstep hstack
    all_goals
      injection hticks with h1
      dsimp only [State.ticks] at h1
      omega
  . intro frame rest hstack
    obtain ⟨rfl, _, hticks⟩ | ⟨rfl, _, hticks⟩ | ⟨h1, h2, _, n, hticks⟩ := h.charge hstep hstack
    all_goals injection hticks with _ hsystem huser _
    . exact ⟨fun _ => ⟨huser, hsystem⟩, by simp, by simp⟩
    . exact ⟨by simp, fun _ => ⟨huser, hsystem⟩, by simp⟩
    . exact ⟨fun heq => absurd heq h1, fun heq => absurd heq h2, fun _ _ => ⟨huser, hsystem⟩⟩

theorem tick_accounting_timeSharingRun
    : (timeSharingRun 100).state.userTicks = 11 ∧ (timeSharingRun 100).state.systemTicks = 80 ∧
      (timeSharingRun 100).state.userTicks = (timeSharingRun 100).runTicks :=
  ⟨by decide +kernel, by decide +kernel, (tick_accounting (reachable_timeSharingRun 100)).2.1⟩

end

end Nachos
