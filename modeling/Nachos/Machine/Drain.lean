import Nachos.Filesys.SynchDisk
import Nachos.Machine.Console
import Nachos.Machine.Interrupt
import Nachos.Network.Basic

/-!
This module contains the loops `while (CheckIfDue(FALSE));` of `OneTick` and `Idle`. The handlers of the
devices schedule new interrupts, but only for the future, so the loops end when the interrupts that are due
at their start have been handled.
-/

namespace Nachos

open Relation

/-! ### Handlers that schedule interrupts for the future -/

def HandlerCall.Positive : HandlerCall H → Prop
  | .schedule _ fromNow _ => 0 < fromNow
  | _ => True

def State.due (s : State G U H) : List (PendingInterrupt H) :=
  s.pending.filter (·.when ≤ s.totalTicks)

def State.Sorted (s : State G U H) : Prop :=
  s.pending.Pairwise fun x y => x.when ≤ y.when

structure Undisturbed (s s' : State G U H) : Prop where
  currentThread : s'.currentThread = s.currentThread
  level : s'.level = s.level
  inHandler : s'.inHandler = s.inHandler
  status : s'.status = s.status
  totalTicks : s'.totalTicks = s.totalTicks
  sorted : s.Sorted → s'.Sorted
  due : s'.due = s.due

section

variable {prog : Program G U H} {s s' s'' : State G U H} {frame : Frame U H}

theorem Undisturbed.refl (s : State G U H) : Undisturbed s s :=
  ⟨rfl, rfl, rfl, rfl, rfl, id, rfl⟩

theorem Undisturbed.trans (h : Undisturbed s s') (h' : Undisturbed s' s'') : Undisturbed s s'' where
  currentThread := h'.currentThread.trans h.currentThread
  level := h'.level.trans h.level
  inHandler := h'.inHandler.trans h.inHandler
  status := h'.status.trans h.status
  totalTicks := h'.totalTicks.trans h.totalTicks
  sorted hsorted := h'.sorted (h.sorted hsorted)
  due := h'.due.trans h.due

theorem undisturbed_setStack (s : State G U H) (thread : Nat) (frames : List (Frame U H))
    : Undisturbed s (s.setStack thread frames) :=
  ⟨rfl, rfl, rfl, rfl, rfl, id, rfl⟩

theorem undisturbed_semV (s : State G U H) (sem : SemId) : Undisturbed s (s.semV sem) := by
  cases hqueue : (s.sem sem).queue with
  | nil =>
    rw [State.semV_of_nil hqueue]
    exact ⟨rfl, rfl, rfl, rfl, rfl, id, rfl⟩
  | cons first rest =>
    rw [State.semV_of_cons hqueue]
    exact ⟨rfl, rfl, rfl, rfl, rfl, id, rfl⟩

theorem filter_sortedInsert (p : PendingInterrupt H → Bool) {item : PendingInterrupt H} (hitem : p item = false)
    (pending : List (PendingInterrupt H))
    : (sortedInsert item pending).filter p = pending.filter p := by
  induction pending with
  | nil => simp [sortedInsert, hitem]
  | cons first rest ih =>
    rw [sortedInsert]
    split
    . rw [List.filter_cons_of_neg (by simp [hitem])]
    . rw [List.filter_cons, List.filter_cons, ih]

theorem sorted_sortedInsert (item : PendingInterrupt H) {pending : List (PendingInterrupt H)}
    (h : pending.Pairwise fun x y => x.when ≤ y.when)
    : (sortedInsert item pending).Pairwise fun x y => x.when ≤ y.when := by
  rw [sortedInsert_eq]
  exact Agenda.insert_sorted item h

theorem undisturbed_schedule (s : State G U H) (handler : H) (type : IntType) {fromNow : Nat} (hpos : 0 < fromNow)
    : ∃ s', s.schedule handler fromNow type = .ok s' ∧ Undisturbed s s' := by
  unfold State.schedule
  rw [if_pos hpos]
  refine ⟨_, rfl, rfl, rfl, rfl, rfl, rfl, sorted_sortedInsert _, ?_⟩
  unfold State.due
  apply filter_sortedInsert
  rw [decide_eq_false_iff_not]
  dsimp only
  omega

theorem exec_handler_call (prog : Program G U H) (calls : List (HandlerCall H)) {call : HandlerCall H}
    (hlevel : s.level = .intOff) (hin : s.inHandler = true) (hpos : call.Positive)
    : ∃ frames s', (∀ arrivals, exec prog arrivals s (.handler (call :: calls)) = .ok (frames, s')) ∧
        Undisturbed s s' ∧ (frames = [.handler calls] ∨ frames = [.setLevel .intOff, .handler calls]) := by
  cases call with
  | timerInterruptHandler =>
    by_cases hidle : s.status = .idleMode
    . refine ⟨[.handler calls], s, ?_, .refl s, .inl rfl⟩
      intro arrivals
      simp [exec, hidle]
    . refine ⟨[.handler calls], { s with yieldOnReturn := true }, ?_, ⟨rfl, rfl, rfl, rfl, rfl, id, rfl⟩, .inl rfl⟩
      intro arrivals
      simp [exec, hidle, State.requestYield, hin, bind, Except.bind, pure, Except.pure]
  | v n =>
    refine ⟨[.setLevel .intOff, .handler calls], (s.changeLevel .intOff).semV (.sem n), ?_, ?_, .inr rfl⟩
    . intro arrivals
      simp [exec, State.setLevel, hlevel, bind, Except.bind, pure, Except.pure]
    . refine Undisturbed.trans ?_ (undisturbed_semV (s.changeLevel .intOff) (.sem n))
      exact ⟨rfl, hlevel.symm, rfl, rfl, rfl, id, rfl⟩
  | schedule handler fromNow type =>
    obtain ⟨s', hs, hsame⟩ := undisturbed_schedule s handler type hpos
    refine ⟨[.handler calls], s', ?_, hsame, .inl rfl⟩
    intro arrivals
    simp [exec, hs, bind, Except.bind, pure, Except.pure]

theorem exec_setLevel_off (hlevel : s.level = .intOff) (arrivals : List (Arrival H))
    : exec prog arrivals s (.setLevel .intOff) = .ok ([], s.changeLevel .intOff) := by
  simp [exec, State.setLevel, hlevel, bind, Except.bind, pure, Except.pure]

end

/-! ### Steps that do not depend on the devices -/

def Kernel.Forced (k : Kernel G V H) (l l' : Logged G V H) : Prop :=
  ∀ arrivals, k.step arrivals l = .ok l'

def Frame.isFixed : Frame (Site V) H → Bool
  | .user _ | .oneTick => false
  | _ => true

section

variable {k : Kernel G V H} {l : Logged G V H} {frame : Frame (Site V) H} {frames rest : List (Frame (Site V) H)}
  {s' : State G (Site V) H}

theorem Kernel.exists_forced (hstack : l.state.stack l.state.currentThread = frame :: rest)
    (hframe : frame.isFixed = true)
    (hexec : ∀ arrivals, Nachos.exec k.system.toProgram arrivals l.state frame = .ok (frames, s'))
    : ∃ l', k.Forced l l' ∧ l'.state = s'.setStack l.state.currentThread (frames ++ rest) ∧
        l'.fired = l.fired ++
          (firedBy l.state k.system.toProgram frame).toList.map fun x => (x, s'.totalTicks) := by
  refine ⟨⟨s'.setStack l.state.currentThread (frames ++ rest), l.scheduled ++ scheduledBy [] l.state frame,
    l.fired ++ (firedBy l.state k.system.toProgram frame).toList.map fun x => (x, s'.totalTicks),
    l.runTicks + runTicksBy frame⟩, ?_, rfl, rfl⟩
  intro arrivals
  have hsame : k.exec arrivals l.state frame = .ok (frames, s') ∧
      scheduledBy arrivals l.state frame.function = scheduledBy [] l.state frame := by
    cases frame with
    | user | oneTick => cases hframe
    | handler calls =>
      refine ⟨hexec arrivals, ?_⟩
      cases calls with
      | nil => rfl
      | cons call calls => cases call <;> rfl
    | _ => exact ⟨hexec arrivals, rfl⟩
  unfold Kernel.step
  dsimp only
  rw [hstack]
  dsimp only
  rw [hsame.1, hsame.2]

theorem Kernel.exists_silent (hstack : l.state.stack l.state.currentThread = frame :: rest)
    (hframe : frame.isFixed = true)
    (hexec : ∀ arrivals, Nachos.exec k.system.toProgram arrivals l.state frame = .ok (frames, s'))
    (hnone : firedBy l.state k.system.toProgram frame = none)
    : ∃ l', k.Forced l l' ∧ l'.state = s'.setStack l.state.currentThread (frames ++ rest) ∧ l'.fired = l.fired := by
  obtain ⟨l', hstep, hstate, hfired⟩ := k.exists_forced hstack hframe hexec
  refine ⟨l', hstep, hstate, ?_⟩
  rw [hfired, hnone]
  exact List.append_nil _

theorem Kernel.run_handler {calls : List (HandlerCall H)} (hpos : ∀ call ∈ calls, call.Positive)
    (hstack : l.state.stack l.state.currentThread = .handler calls :: rest) (hlevel : l.state.level = .intOff)
    (hin : l.state.inHandler = true)
    : ∃ l', ReflTransGen k.Forced l l' ∧ l'.state.stack l'.state.currentThread = rest ∧
        Undisturbed l.state l'.state ∧ l'.fired = l.fired := by
  induction calls generalizing l with
  | nil =>
    obtain ⟨l', hstep, hstate, hfired⟩ := k.exists_silent hstack rfl (fun _ => rfl) rfl
    refine ⟨l', .single hstep, ?_, ?_, hfired⟩
    . rw [hstate]
      simp
    . rw [hstate]
      exact undisturbed_setStack _ _ _
  | cons call calls ih =>
    have hcalls : ∀ call ∈ calls, call.Positive := fun call hcall => hpos call (List.mem_cons_of_mem _ hcall)
    obtain ⟨frames, s', hexec, hsame, hframes⟩ := exec_handler_call k.system.toProgram calls hlevel hin
      (hpos call List.mem_cons_self)
    obtain ⟨l₁, hstep, hstate, hfired₁⟩ := k.exists_silent hstack rfl hexec rfl
    have hsame₁ : Undisturbed l.state l₁.state := by
      rw [hstate]
      exact hsame.trans (undisturbed_setStack _ _ _)
    have hstack₁ : l₁.state.stack l₁.state.currentThread = frames ++ rest := by
      rw [hsame₁.currentThread, hstate]
      simp
    -- the rest of the calls, where `V` first sets the level back
    have hrest : ∃ l₂, ReflTransGen k.Forced l₁ l₂ ∧
        l₂.state.stack l₂.state.currentThread = .handler calls :: rest ∧ Undisturbed l₁.state l₂.state ∧
        l₂.fired = l₁.fired := by
      cases hframes with
      | inl hframes =>
        rw [hframes] at hstack₁
        exact ⟨l₁, .refl, hstack₁, .refl _, rfl⟩
      | inr hframes =>
        rw [hframes] at hstack₁
        have hlevel₁ : l₁.state.level = .intOff := hsame₁.level.trans hlevel
        obtain ⟨l₂, hstep₂, hstate₂, hfired₂⟩ := k.exists_silent hstack₁ rfl (exec_setLevel_off hlevel₁) rfl
        refine ⟨l₂, .single hstep₂, ?_, ?_, hfired₂⟩
        . rw [hstate₂]
          simp [State.changeLevel]
        . rw [hstate₂]
          refine Undisturbed.trans ?_ (undisturbed_setStack _ _ _)
          exact ⟨rfl, hlevel₁.symm, rfl, rfl, rfl, id, rfl⟩
    obtain ⟨l₂, hrun₂, hstack₂, hsame₂, hfired₂⟩ := hrest
    have hsame' := hsame₁.trans hsame₂
    obtain ⟨l', hrun', hstack', hsame'', hfired'⟩ := ih hcalls hstack₂ (hsame'.level.trans hlevel)
      (hsame'.inHandler.trans hin)
    exact ⟨l', .head hstep (hrun₂.trans hrun'), hstack', hsame'.trans hsame'',
      hfired'.trans (hfired₂.trans hfired₁)⟩

end

/-! ### The loops -/

def Frame.isLoop : Frame U H → Bool
  | .tickDrain _ | .idleDrain => true
  | _ => false

def Frame.Left (frame : Frame U H) (rest stack : List (Frame U H)) : Prop :=
  stack = rest ∨ ∃ old, frame = .tickDrain old ∧ stack = .yield :: .restoreStatus old :: rest

section

variable {prog : Program G U H} {s s' : State G U H} {frame : Frame U H}

theorem firedBy_of_isLoop (s : State G U H) (prog : Program G U H) (hloop : frame.isLoop = true)
    : firedBy s prog frame = s.firstIfDue prog false := by
  cases frame with
  | tickDrain | idleDrain => rfl
  | _ => cases hloop

theorem exec_loop_fire (hloop : frame.isLoop = true) {frames : List (Frame U H)}
    (h : s.checkIfDue prog false = .ok (some frames, s')) (arrivals : List (Arrival H))
    : exec prog arrivals s frame = .ok (frames ++ [frame], s') := by
  cases frame with
  | tickDrain | idleDrain => simp [exec, h, bind, Except.bind, pure, Except.pure]
  | _ => cases hloop

theorem exec_loop_end (hloop : frame.isLoop = true) (h : s.checkIfDue prog false = .ok (none, s'))
    : ∃ frames s'', (∀ arrivals, exec prog arrivals s frame = .ok (frames, s'')) ∧
        (∀ rest, frame.Left rest (frames ++ rest)) ∧ s''.currentThread = s'.currentThread ∧
        s''.pending = s'.pending ∧ s''.totalTicks = s'.totalTicks := by
  cases frame with
  | tickDrain old =>
    cases hyield : s'.yieldOnReturn with
    | true =>
      refine ⟨[.yield, .restoreStatus old],
        { s'.changeLevel .intOn with yieldOnReturn := false, status := .systemMode }, ?_, ?_, rfl, rfl, rfl⟩
      . intro arrivals
        simp [exec, h, hyield, State.changeLevel, bind, Except.bind, pure, Except.pure]
      . intro rest
        exact .inr ⟨old, rfl, rfl⟩
    | false =>
      refine ⟨[], s'.changeLevel .intOn, ?_, fun rest => .inl rfl, rfl, rfl, rfl⟩
      intro arrivals
      simp [exec, h, hyield, State.changeLevel, bind, Except.bind, pure, Except.pure]
  | idleDrain =>
    refine ⟨[], { s' with yieldOnReturn := false, status := .systemMode }, ?_, fun rest => .inl rfl, rfl, rfl, rfl⟩
    intro arrivals
    simp [exec, h, bind, Except.bind, pure, Except.pure]
  | _ => cases hloop

theorem checkIfDue_ok (prog : Program G U H) (advanceClock : Bool) (hlevel : s.level = .intOff)
    : ∃ res s', s.checkIfDue prog advanceClock = .ok (res, s') := by
  unfold State.checkIfDue
  rw [if_pos hlevel]
  split
  next => exact ⟨_, _, rfl⟩
  next =>
    split
    next => exact ⟨_, _, rfl⟩
    next =>
      dsimp only
      split <;> exact ⟨_, _, rfl⟩

theorem due_of_early {toOccur : PendingInterrupt H} {rest : List (PendingInterrupt H)}
    (hpending : s.pending = toOccur :: rest) (hwhen : s.totalTicks < toOccur.when) (hsorted : s.Sorted)
    : s.due = [] := by
  unfold State.Sorted at hsorted
  rw [hpending] at hsorted
  obtain ⟨hfirst, _⟩ := List.pairwise_cons.mp hsorted
  unfold State.due
  rw [hpending, List.filter_eq_nil_iff]
  intro x hx
  have hle : toOccur.when ≤ x.when := by
    cases hx with
    | head => exact Nat.le_refl _
    | tail _ hx => exact hfirst x hx
  simp only [decide_eq_true_eq]
  omega

theorem due_of_le {toOccur : PendingInterrupt H} {rest : List (PendingInterrupt H)}
    (hpending : s.pending = toOccur :: rest) (hwhen : toOccur.when ≤ s.totalTicks)
    : s.due = toOccur :: rest.filter (·.when ≤ s.totalTicks) := by
  unfold State.due
  rw [hpending, List.filter_cons_of_pos (by simpa using hwhen)]

end

section

variable {k : Kernel G V H} {l : Logged G V H} {frame : Frame (Site V) H} {rest : List (Frame (Site V) H)}

theorem Frame.isFixed_of_isLoop (hloop : frame.isLoop = true) : frame.isFixed = true := by
  cases frame with
  | tickDrain | idleDrain => rfl
  | _ => cases hloop

theorem Kernel.leave_loop (hloop : frame.isLoop = true)
    (hstack : l.state.stack l.state.currentThread = frame :: rest) {s' : State G (Site V) H}
    (h : l.state.checkIfDue k.system.toProgram false = .ok (none, s'))
    (hthread : s'.currentThread = l.state.currentThread)
    : ∃ l', k.Forced l l' ∧ frame.Left rest (l'.state.stack l'.state.currentThread) ∧
        l'.state.pending = s'.pending ∧ l'.state.totalTicks = s'.totalTicks ∧ l'.fired = l.fired := by
  obtain ⟨frames, s'', hexec, hleft, hthread', hpending, hticks⟩ := exec_loop_end hloop h
  have hnone : firedBy l.state k.system.toProgram frame = none := by
    rw [firedBy_of_isLoop _ _ hloop]
    unfold State.firstIfDue
    rw [h]
  obtain ⟨l', hstep, hstate, hfired⟩ := k.exists_silent hstack (Frame.isFixed_of_isLoop hloop) hexec hnone
  refine ⟨l', hstep, ?_, ?_, ?_, hfired⟩
  . rw [hstate]
    simp only [State.setStack_stack, State.setStack_currentThread, hthread', hthread, Function.update_self]
    exact hleft rest
  . rw [hstate]
    exact hpending
  . rw [hstate]
    exact hticks

theorem Kernel.run_round (hpos : ∀ h g, ∀ call ∈ (k.handler h g).2, call.Positive) (hloop : frame.isLoop = true)
    (hstack : l.state.stack l.state.currentThread = frame :: rest) (hlevel : l.state.level = .intOff)
    {toOccur : PendingInterrupt H} {pending : List (PendingInterrupt H)} {s' : State G (Site V) H}
    (hpending : l.state.pending = toOccur :: pending) (hwhen : toOccur.when ≤ l.state.totalTicks)
    (h : l.state.checkIfDue k.system.toProgram false =
      .ok (some [.handler (k.handler toOccur.handler l.state.shared).2, .endHandler l.state.status], s'))
    (hs' : s' = { l.state with
      pending := pending
      idleTicks := l.state.idleTicks + (toOccur.when - l.state.totalTicks)
      totalTicks := max l.state.totalTicks toOccur.when
      shared := (k.handler toOccur.handler l.state.shared).1
      inHandler := true
      status := .systemMode })
    (hsorted : l.state.Sorted)
    : ∃ l', ReflTransGen k.Forced l l' ∧ l'.state.stack l'.state.currentThread = frame :: rest ∧
        l'.state.level = .intOff ∧ l'.state.Sorted ∧ l'.state.status = l.state.status ∧
        l'.state.totalTicks = l.state.totalTicks ∧
        l'.state.due = pending.filter (·.when ≤ l.state.totalTicks) ∧
        l'.fired = l.fired ++ [(toOccur, l.state.totalTicks)] := by
  have hnow : max l.state.totalTicks toOccur.when = l.state.totalTicks := Nat.max_eq_left hwhen
  rw [hnow] at hs'
  have hfirst : firedBy l.state k.system.toProgram frame = some toOccur := by
    rw [firedBy_of_isLoop _ _ hloop]
    unfold State.firstIfDue
    rw [h, hpending]
    rfl
  -- the check
  obtain ⟨l₁, hstep₁, hstate₁, hfired₁⟩ := k.exists_forced hstack (Frame.isFixed_of_isLoop hloop) (exec_loop_fire hloop h)
  have hstack₁ : l₁.state.stack l₁.state.currentThread =
      .handler (k.handler toOccur.handler l.state.shared).2 :: .endHandler l.state.status :: frame :: rest := by
    rw [hstate₁, hs']
    simp
  have hlevel₁ : l₁.state.level = .intOff := by
    rw [hstate₁, hs']
    exact hlevel
  have hin₁ : l₁.state.inHandler = true := by
    rw [hstate₁, hs']
    rfl
  -- the handler
  obtain ⟨l₂, hrun₂, hstack₂, hsame, hfired₂⟩ := Kernel.run_handler (hpos _ _) hstack₁ hlevel₁ hin₁
  -- the end of `CheckIfDue`
  obtain ⟨l₃, hstep₃, hstate₃, hfired₃⟩ := k.exists_silent hstack₂ rfl (fun _ => rfl) rfl
  have hticks₁ : l₁.state.totalTicks = l.state.totalTicks := by
    rw [hstate₁, hs']
    rfl
  refine ⟨l₃, (ReflTransGen.head hstep₁ hrun₂).tail hstep₃, ?_, ?_, ?_, ?_, ?_, ?_, ?_⟩
  . rw [hstate₃]
    simp
  . rw [hstate₃]
    exact hsame.level.trans hlevel₁
  . have hsorted₁ : l₁.state.Sorted := by
      unfold State.Sorted at hsorted ⊢
      rw [hpending] at hsorted
      rw [hstate₁, hs']
      exact (List.pairwise_cons.mp hsorted).2
    rw [hstate₃]
    exact hsame.sorted hsorted₁
  . rw [hstate₃]
    rfl
  . rw [hstate₃]
    exact hsame.totalTicks.trans hticks₁
  . have hdue₁ : l₁.state.due = pending.filter (·.when ≤ l.state.totalTicks) := by
      rw [hstate₁, hs']
      rfl
    rw [hstate₃, ← hdue₁, ← hsame.due]
    rfl
  . rw [hfired₃, hfired₂, hfired₁, hfirst, hs']
    rfl

theorem Kernel.drain (hpos : ∀ h g, ∀ call ∈ (k.handler h g).2, call.Positive) (hloop : frame.isLoop = true)
    (hstack : l.state.stack l.state.currentThread = frame :: rest) (hlevel : l.state.level = .intOff)
    (hsorted : l.state.Sorted)
    : ∃ l' fired, ReflTransGen k.Forced l l' ∧ frame.Left rest (l'.state.stack l'.state.currentThread) ∧
        l'.state.totalTicks = l.state.totalTicks ∧
        l'.fired = l.fired ++ fired.map (fun x => (x, l.state.totalTicks)) ∧
        (l.state.due = fired ∨
          ∃ timer, l.state.status = .idleMode ∧ timer.type = .timerInt ∧ l.state.due = fired ++ [timer] ∧
            l'.state.pending = [timer]) := by
  generalize hdue : l.state.due = due
  induction due generalizing l with
  | nil =>
    obtain ⟨res, s', h⟩ := checkIfDue_ok k.system.toProgram false hlevel
    obtain ⟨_, hcases⟩ := State.due_of_checkIfDue h
    cases hcases with
    | none =>
      obtain ⟨l', hstep, hleft, _, hticks, hfired⟩ := Kernel.leave_loop hloop hstack h rfl
      exact ⟨l', [], .single hstep, hleft, hticks, by simpa using hfired, .inl rfl⟩
    | early =>
      obtain ⟨l', hstep, hleft, _, hticks, hfired⟩ := Kernel.leave_loop hloop hstack h rfl
      exact ⟨l', [], .single hstep, hleft, hticks, by simpa using hfired, .inl rfl⟩
    | timer toOccur hpending hwhen | fire toOccur rest' hpending hwhen =>
      rw [due_of_le hpending (by simpa using hwhen)] at hdue
      cases hdue
  | cons first due ih =>
    obtain ⟨res, s', h⟩ := checkIfDue_ok k.system.toProgram false hlevel
    obtain ⟨_, hcases⟩ := State.due_of_checkIfDue h
    cases hcases with
    | none hpending =>
      unfold State.due at hdue
      rw [hpending] at hdue
      cases hdue
    | early toOccur rest' hpending hwhen =>
      rw [due_of_early hpending hwhen hsorted] at hdue
      cases hdue
    | timer toOccur hpending hwhen hstatus htype =>
      have hwhen : toOccur.when ≤ l.state.totalTicks := by simpa using hwhen
      rw [due_of_le hpending hwhen] at hdue
      cases hdue
      obtain ⟨l', hstep, hleft, hpending', hticks, hfired⟩ := Kernel.leave_loop hloop hstack h rfl
      refine ⟨l', [], .single hstep, hleft, hticks.trans (Nat.max_eq_left hwhen), by simpa using hfired, ?_⟩
      exact .inr ⟨first, hstatus, htype, rfl, hpending'⟩
    | fire toOccur rest' hpending hwhen =>
      have hwhen : toOccur.when ≤ l.state.totalTicks := by simpa using hwhen
      rw [due_of_le hpending hwhen] at hdue
      cases hdue
      obtain ⟨l₁, hrun, hstack₁, hlevel₁, hsorted₁, hstatus₁, hticks₁, hdue₁, hfired₁⟩ :=
        Kernel.run_round hpos hloop hstack hlevel hpending hwhen h rfl hsorted
      obtain ⟨l', fired, hrun', hleft, hticks, hfired, hend⟩ := ih hstack₁ hlevel₁ hsorted₁ hdue₁
      refine ⟨l', first :: fired, hrun.trans hrun', hleft, hticks.trans hticks₁, ?_, ?_⟩
      . rw [hfired, hfired₁, hticks₁]
        simp
      . cases hend with
        | inl hend => exact .inl (by rw [hend])
        | inr hend =>
          obtain ⟨timer, hstatus, htype, heq, hpending'⟩ := hend
          exact .inr ⟨timer, hstatus₁.symm.trans hstatus, htype, by rw [heq]; rfl, hpending'⟩

end

/-! ### The handlers of the repository -/

namespace Devices

inductive Handler where
  | timerHandler
  | diskDone
  | consoleReadPoll
  | consoleWriteDone
  | networkReadPoll
  | networkSendDone
  deriving DecidableEq

def timerTicks : Nat := 100

def semaphore : Nat := 0
def readAvail : Nat := 1
def writeDone : Nat := 2

/--
The members of the devices, and what the kernel has besides them. `randoms` and `polls` are the numbers of calls of
`TimeOfNextInterrupt` and `CheckCharAvail` so far, `failed` says whether an `ASSERT` of the console has failed.
-/
structure Globals (numBoxes : Nat) (α X : Type) where
  user : X
  randomize : Bool
  randoms : Nat
  disk : SynchDisk.Globals α Unit
  console : Console
  polls : Nat
  office : PostOffice.Globals numBoxes Unit
  failed : Bool

/--
What comes from outside: the results of `Random` and of `PollFile`, and the packets.
-/
structure Hardware (numBoxes : Nat) (C : Type) where
  random : Nat → Nat
  ready : Nat → Bool
  office : PostOffice.Machine numBoxes Unit C Empty

def officeNames : Rename Unit Unit (PostOffice.Handler Empty) Handler where
  lock := id
  cond := id
  sem n := n + 3
  func := id
  handler
    | .readPoll => .networkReadPoll
    | .sendDone => .networkSendDone

namespace Hardware

variable {numBoxes : Nat} {C α X : Type} (hw : Hardware numBoxes C) (g : Globals numBoxes α X)

def timeOfNextInterrupt : Nat :=
  if g.randomize then 1 + hw.random g.randoms % (timerTicks * 2) else timerTicks

def timerExpired : Globals numBoxes α X × List (HandlerCall Handler) :=
  ({ g with randoms := g.randoms + 1 },
    [.schedule .timerHandler (hw.timeOfNextInterrupt g) .timerInt, .timerInterruptHandler])

def checkCharAvail : Globals numBoxes α X × List (HandlerCall Handler) :=
  let poll := .schedule .consoleReadPoll Console.consoleTime .consoleReadInt
  match g.console.checkCharAvail (hw.ready g.polls) with
  | none => ({ g with polls := g.polls + 1, failed := true }, [poll])
  | some (console, called) =>
    ({ g with polls := g.polls + 1, console }, if called then [poll, .v readAvail] else [poll])

def handler : Handler → Globals numBoxes α X × List (HandlerCall Handler)
  | .timerHandler => hw.timerExpired g
  | .diskDone => ({ g with disk := SynchDisk.handleInterrupt g.disk }, [.v semaphore])
  | .consoleReadPoll => hw.checkCharAvail g
  | .consoleWriteDone => ({ g with console := g.console.writeDone }, [.v writeDone])
  | .networkReadPoll =>
    ({ g with office := (hw.office.checkPktAvail g.office).1 },
      (hw.office.checkPktAvail g.office).2.map (HandlerCall.rename officeNames))
  | .networkSendDone =>
    ({ g with office := (PostOffice.Machine.sendDone (H := Empty) g.office).1 },
      (PostOffice.Machine.sendDone g.office).2.map (HandlerCall.rename officeNames))

def install {V : Type} (k : Kernel (Globals numBoxes α X) V Handler) : Kernel (Globals numBoxes α X) V Handler :=
  { k with handler := fun handler g => hw.handler g handler }

theorem timeOfNextInterrupt_pos : 0 < hw.timeOfNextInterrupt g := by
  unfold timeOfNextInterrupt timerTicks
  split <;> omega

theorem checkPktAvail_positive : ∀ call ∈ (hw.office.checkPktAvail g.office).2, call.Positive := by
  have hpos : 0 < PostOffice.networkTime := by decide
  unfold PostOffice.Machine.checkPktAvail
  dsimp only
  split
  next => simpa [HandlerCall.Positive] using hpos
  next =>
    split
    next => simpa [HandlerCall.Positive] using hpos
    next => split <;> simpa [HandlerCall.Positive] using hpos

theorem rename_positive {calls : List (HandlerCall (PostOffice.Handler Empty))}
    (h : ∀ call ∈ calls, call.Positive)
    : ∀ call ∈ calls.map (HandlerCall.rename officeNames), call.Positive := by
  intro call hcall
  obtain ⟨call', hcall', rfl⟩ := List.mem_map.1 hcall
  have hpos := h call' hcall'
  cases call' with
  | schedule => exact hpos
  | timerInterruptHandler | v => trivial

theorem handler_positive (handler : Handler) : ∀ call ∈ (hw.handler g handler).2, call.Positive := by
  cases handler with
  | timerHandler =>
    have hpos := hw.timeOfNextInterrupt_pos g
    simpa [Hardware.handler, timerExpired, HandlerCall.Positive] using hpos
  | diskDone | consoleWriteDone => simp [Hardware.handler, HandlerCall.Positive]
  | consoleReadPoll =>
    have hpos : 0 < Console.consoleTime := by decide
    unfold Hardware.handler checkCharAvail
    dsimp only
    split
    next => simpa [HandlerCall.Positive] using hpos
    next => split <;> simpa [HandlerCall.Positive] using hpos
  | networkReadPoll => exact rename_positive (hw.checkPktAvail_positive g)
  | networkSendDone =>
    apply rename_positive
    simp [PostOffice.Machine.sendDone, HandlerCall.Positive]

theorem drain_loop_terminates {V : Type} (k : Kernel (Globals numBoxes α X) V Handler)
    {l : Logged (Globals numBoxes α X) V Handler} {frame : Frame (Site V) Handler}
    {rest : List (Frame (Site V) Handler)} (hloop : frame.isLoop = true)
    (hstack : l.state.stack l.state.currentThread = frame :: rest) (hlevel : l.state.level = .intOff)
    (hsorted : l.state.Sorted)
    : ∃ l' fired, ReflTransGen (hw.install k).Forced l l' ∧
        frame.Left rest (l'.state.stack l'.state.currentThread) ∧
        l'.state.totalTicks = l.state.totalTicks ∧
        l'.fired = l.fired ++ fired.map (fun x => (x, l.state.totalTicks)) ∧
        (fired.length = l.state.due.length ∧ l.state.due = fired ∨
          l.state.status = .idleMode ∧ fired.length + 1 = l.state.due.length ∧
            ∃ timer, timer.type = .timerInt ∧ l.state.due = fired ++ [timer] ∧ l'.state.pending = [timer]) := by
  obtain ⟨l', fired, hrun, hleft, hticks, hfired, hend⟩ :=
    Kernel.drain (k := hw.install k) (fun handler g => hw.handler_positive g handler) hloop hstack hlevel hsorted
  refine ⟨l', fired, hrun, hleft, hticks, hfired, ?_⟩
  cases hend with
  | inl hend => exact .inl ⟨by rw [hend], hend⟩
  | inr hend =>
    obtain ⟨timer, hstatus, htype, heq, hpending⟩ := hend
    exact .inr ⟨hstatus, by rw [heq]; simp, timer, htype, heq, hpending⟩

end Hardware

/-! ### A kernel with nothing else -/

def quietOffice : PostOffice.Machine 0 Unit Unit Empty where
  user :=
    { code := fun _ x => (x, .call .ret ())
      handler := nofun
      globals := ()
      main := ()
      value := fun _ => 0
      value_nonneg := System.zero_nonneg }
  netAddr := 0
  polls _ := none
  lost _ := false
  memory _ _ := 0

def quietHardware : Hardware 0 Unit := ⟨fun _ => 0, fun _ => false, quietOffice⟩

def quietKernel : Kernel (Globals 0 Unit Unit) Unit Handler where
  code _ g := (g, .oneTick ())
  handler _ g := (g, [])
  oneInstruction _ g := (g, none)
  globals :=
    { user := (), randomize := true, randoms := 0
      disk := (SynchDisk.system (fun _ => 1) (fun _ => ()) (α := Unit) (H := Empty)
        ⟨fun _ x => (x, .call .ret ()), nofun, (), (), fun _ => 0, fun _ => Int.le_refl 0⟩).globals
      console := .new [], polls := 0, office := quietOffice.office.globals, failed := false }
  main := ()
  value _ := 0
  value_nonneg := System.zero_nonneg

def quietStart : Logged (Globals 0 Unit Unit) Unit Handler where
  state :=
    { boot quietKernel.system [] with
      pending := [⟨.timerHandler, 5, .timerInt⟩, ⟨.consoleReadPoll, 10, .consoleReadInt⟩,
        ⟨.networkReadPoll, 20, .networkRecvInt⟩]
      totalTicks := 10
      stack := fun _ => [.tickDrain .systemMode] }
  scheduled := []
  fired := []
  runTicks := 0

theorem drain_loop_terminates_poll
    : ∃ (l' : Logged (Globals 0 Unit Unit) Unit Handler) (fired : List (PendingInterrupt Handler)),
        ReflTransGen (quietHardware.install quietKernel).Forced quietStart l' ∧
        l'.state.stack l'.state.currentThread ≠ [.tickDrain .systemMode] ∧
        l'.fired = fired.map (fun x => (x, 10)) ∧ fired.length = 2 := by
  have hsorted : quietStart.state.Sorted := by
    unfold State.Sorted
    decide
  obtain ⟨l', fired, hrun, hleft, _, hfired, hend⟩ :=
    quietHardware.drain_loop_terminates quietKernel (l := quietStart) rfl rfl rfl hsorted
  refine ⟨l', fired, hrun, ?_, hfired, ?_⟩
  . obtain hleft | ⟨old, _, hleft⟩ := hleft <;> simp [hleft]
  . obtain ⟨hlength, _⟩ | ⟨hidle, _⟩ := hend
    . exact hlength
    . cases hidle

end Devices

end Nachos
