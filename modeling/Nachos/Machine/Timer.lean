import Nachos.Machine.Drain

/-!
This module contains the devices that interrupt the machine again and again: the timer, and the polls of the
console and of the network. Their handlers schedule the next interrupt before they do anything else, so one of
them is always pending. This decides when a machine that has nothing to do shuts down.
-/

namespace Nachos

open Function (update)
open Relation

def Frame.isPlain : Frame U H → Bool
  | .tickDrain _ | .idle | .idleDrain | .handler _ | .endHandler _ | .sleepLoop => false
  | _ => true

namespace Stack

def Plain (stack : List (Frame U H)) : Prop :=
  ∀ frame ∈ stack, frame.isPlain = true

inductive Handling : List (Frame U H) → Prop where
  | done : Handling []
  | endHandler (old : MachineStatus) : Handling [.endHandler old]
  | handler (calls : List (HandlerCall H)) (old : MachineStatus) : Handling [.handler calls, .endHandler old]
  | v (calls : List (HandlerCall H)) (old : MachineStatus)
    : Handling [.setLevel .intOff, .handler calls, .endHandler old]

theorem plain_append {top rest : List (Frame U H)} : Plain (top ++ rest) ↔ Plain top ∧ Plain rest := by
  simp [Plain, or_imp, forall_and]

theorem plain_cons {frame : Frame U H} {rest : List (Frame U H)}
    : Plain (frame :: rest) ↔ frame.isPlain = true ∧ Plain rest := by
  simp [Plain]

theorem plain_nil : Plain ([] : List (Frame U H)) := by
  simp [Plain]

theorem plain_frames (call : Call U H) (u : U) : Plain (call.frames u) := by
  cases call <;> simp [Call.frames, Plain, Frame.isPlain]

end Stack

/--
The stack of the thread that runs: it does its own work, it is in the loop of `OneTick`, or it looks for another
thread in `Sleep`, in which case the machine may be idle.
-/
inductive State.Shape (s : State G U H) : List (Frame U H) → Prop where
  | plain {stack : List (Frame U H)} (hplain : Stack.Plain stack) (hyield : s.yieldOnReturn = false)
    : Shape s stack
  | tick {top rest : List (Frame U H)} (htop : Stack.Handling top) (old : MachineStatus) (hrest : Stack.Plain rest)
      (hlevel : s.level = .intOff)
    : Shape s (top ++ .tickDrain old :: rest)
  | idling {top rest : List (Frame U H)} (htop : Stack.Handling top) (hrest : Stack.Plain rest)
      (hlevel : s.level = .intOff)
    : Shape s (top ++ .idleDrain :: .sleepLoop :: rest)
  | idle {rest : List (Frame U H)} (hrest : Stack.Plain rest) (hlevel : s.level = .intOff)
      (hyield : s.yieldOnReturn = false) (hready : s.readyList = [])
    : Shape s (.idle :: .sleepLoop :: rest)
  | asleep {rest : List (Frame U H)} (hrest : Stack.Plain rest) (hlevel : s.level = .intOff)
      (hyield : s.yieldOnReturn = false)
    : Shape s (.sleepLoop :: rest)

theorem State.Shape.setStack {s : State G U H} {stack : List (Frame U H)} (h : s.Shape stack) (t : Nat)
    (frames : List (Frame U H))
    : (s.setStack t frames).Shape stack := by
  cases h with
  | plain hplain hyield => exact .plain hplain hyield
  | tick htop old hrest hlevel => exact .tick htop old hrest hlevel
  | idling htop hrest hlevel => exact .idling htop hrest hlevel
  | idle hrest hlevel hyield hready => exact .idle hrest hlevel hyield hready
  | asleep hrest hlevel hyield => exact .asleep hrest hlevel hyield

section

variable {prog : Program G U H} {s s' : State G U H} {frame : Frame U H} {frames rest : List (Frame U H)}

theorem State.Shape.plain_of_cons (h : s.Shape (frame :: rest)) (hplain : frame.isPlain = true)
    (hlevel : ∀ now, frame ≠ .setLevel now)
    : Stack.Plain (frame :: rest) ∧ s.yieldOnReturn = false := by
  generalize hstack : frame :: rest = stack at h
  cases h with
  | plain hplain hyield => exact ⟨hplain, hyield⟩
  | tick htop | idling htop =>
    cases htop with
    | done | endHandler | handler =>
      cases hstack
      contradiction
    | v =>
      cases hstack
      exact absurd rfl (hlevel _)
  | idle | asleep =>
    cases hstack
    contradiction

theorem Outcome.shape_plain (h : Outcome prog s frame frames s') (hplain : Stack.Plain (frame :: rest))
    (hyield : s.yieldOnReturn = false)
    : s'.yieldOnReturn = false ∧
        (Stack.Plain (frames ++ rest) ∨
          s'.currentThread = s.currentThread ∧ s'.level = .intOff ∧
            ((∃ later, frames = .sleepLoop :: later ∧ Stack.Plain (later ++ rest)) ∨
              ∃ old, frames = [.tickDrain old])) := by
  obtain ⟨hframe, hrest⟩ := Stack.plain_cons.1 hplain
  cases h with
  | tickFire | tickYield | tickDone | idleFire | idleDrainFire | idleDrainDone | handlerDone | handlerTimerIdle
  | handlerTimer | handlerVQuiet | handlerVWake | handlerSchedule | endHandler | sleepIdle | sleepRun =>
    contradiction
  | user u => exact ⟨hyield, .inl (Stack.plain_append.2 ⟨Stack.plain_frames _ _, hrest⟩)⟩
  | finish | pBlock =>
    exact ⟨hyield, .inr ⟨rfl, rfl, .inl ⟨_, rfl, Stack.plain_cons.2 ⟨rfl, hrest⟩⟩⟩⟩
  | pWhileBlock _ _ hlevel | waitSleep _ _ hlevel =>
    exact ⟨hyield, .inr ⟨rfl, hlevel, .inl ⟨_, rfl, Stack.plain_cons.2 ⟨rfl, hrest⟩⟩⟩⟩
  | oneTick => exact ⟨hyield, .inr ⟨rfl, rfl, .inr ⟨_, rfl⟩⟩⟩
  | _ => exact ⟨hyield, .inl (by simp [Stack.plain_cons, Frame.isPlain, hrest])⟩

theorem Outcome.handling (h : Outcome prog s frame frames s') (htop : Stack.Handling (frame :: rest))
    (hlevel : s.level = .intOff)
    : Stack.Handling (frames ++ rest) ∧ s'.level = .intOff ∧ s'.currentThread = s.currentThread := by
  cases htop with
  | endHandler =>
    cases h with
    | endHandler => exact ⟨.done, hlevel, rfl⟩
  | handler calls old =>
    cases h with
    | handlerDone => exact ⟨.endHandler old, hlevel, rfl⟩
    | handlerTimerIdle | handlerTimer | handlerSchedule => exact ⟨.handler _ old, hlevel, rfl⟩
    | handlerVQuiet | handlerVWake =>
      rw [hlevel]
      exact ⟨.v _ old, rfl, rfl⟩
  | v calls old =>
    cases h with
    | setLevelQuiet => exact ⟨.handler calls old, rfl, rfl⟩

theorem Outcome.shape (h : Outcome prog s frame frames s') (hshape : s.Shape (frame :: rest))
    : s'.Shape (frames ++ rest) ∧
        (s'.currentThread = s.currentThread ∨ Stack.Plain (frames ++ rest) ∧ s'.yieldOnReturn = false) := by
  generalize hstack : frame :: rest = stack at hshape
  cases hshape with
  | plain hplain hyield =>
    subst hstack
    obtain ⟨hyield, hplain | ⟨hcurrent, hlevel, ⟨later, rfl, hlater⟩ | ⟨old, rfl⟩⟩⟩ := h.shape_plain hplain hyield
    . exact ⟨.plain hplain hyield, .inr ⟨hplain, hyield⟩⟩
    . exact ⟨.asleep hlater hlevel hyield, .inl hcurrent⟩
    . exact ⟨.tick .done old (Stack.plain_cons.1 hplain).2 hlevel, .inl hcurrent⟩
  | @tick top later htop old hlater hlevel =>
    cases top with
    | nil =>
      cases hstack
      cases h with
      | tickFire => exact ⟨.tick (.handler ..) old hlater hlevel, .inl rfl⟩
      | tickYield =>
        refine ⟨.plain ?_ rfl, .inl rfl⟩
        exact Stack.plain_cons.2 ⟨rfl, Stack.plain_cons.2 ⟨rfl, hlater⟩⟩
      | tickDone _ _ _ _ _ hyield => exact ⟨.plain hlater hyield, .inl rfl⟩
    | cons first top =>
      rw [List.cons_append] at hstack
      obtain ⟨rfl, rfl⟩ := List.cons.inj hstack
      obtain ⟨htop, hlevel, hcurrent⟩ := h.handling htop hlevel
      rw [← List.append_assoc]
      exact ⟨.tick htop old hlater hlevel, .inl hcurrent⟩
  | @idling top later htop hlater hlevel =>
    cases top with
    | nil =>
      cases hstack
      cases h with
      | idleDrainFire => exact ⟨.idling (.handler ..) hlater hlevel, .inl rfl⟩
      | idleDrainDone => exact ⟨.asleep hlater hlevel rfl, .inl rfl⟩
    | cons first top =>
      rw [List.cons_append] at hstack
      obtain ⟨rfl, rfl⟩ := List.cons.inj hstack
      obtain ⟨htop, hlevel, hcurrent⟩ := h.handling htop hlevel
      rw [← List.append_assoc]
      exact ⟨.idling htop hlater hlevel, .inl hcurrent⟩
  | idle hrest hlevel hyield hready =>
    cases hstack
    cases h with
    | idleFire => exact ⟨.idling (.handler ..) hrest hlevel, .inl rfl⟩
  | asleep hrest hlevel hyield =>
    cases hstack
    cases h with
    | sleepIdle hready => exact ⟨.idle hrest hlevel hyield hready, .inl rfl⟩
    | sleepRun =>
      have hplain : Stack.Plain (.runTail :: rest) := Stack.plain_cons.2 ⟨rfl, hrest⟩
      exact ⟨.plain hplain hyield, .inr ⟨hplain, hyield⟩⟩

end

section

variable {k : Kernel G V H} {l l' : Logged G V H} {arrivals : List (Arrival H)} {s s' : State G (Site V) H}
  {frame : Frame (Site V) H} {frames rest : List (Frame (Site V) H)}

def Kernel.Diligent (k : Kernel G V H) : Prop :=
  ∀ v g next, (k.code v g).2 ≠ .idle next

theorem Kernel.execSite_plain {site : Site V} (hk : k.Diligent) (hsite : site ≠ .oneTick)
    (h : k.execSite arrivals s site = .ok (frames, s'))
    : Stack.Plain frames ∧ s'.yieldOnReturn = s.yieldOnReturn := by
  cases site with
  | kernel v =>
    unfold Kernel.execSite at h
    dsimp only at h
    split at h
    next =>
      cases h
      exact ⟨Stack.plain_frames _ _, rfl⟩
    next =>
      cases h
      exact ⟨by simp [Stack.Plain, Frame.isPlain], rfl⟩
    next hcode => exact absurd (congrArg Prod.snd hcode) (hk _ _ _)
    next =>
      cases h
      exact ⟨by simp [Stack.Plain, Frame.isPlain], rfl⟩
  | oneInstruction =>
    unfold Kernel.execSite at h
    dsimp only at h
    split at h
    all_goals
      cases h
      exact ⟨by simp [Stack.Plain, Frame.isPlain], rfl⟩
  | oneTick => contradiction
  | endException =>
    cases h
    exact ⟨Stack.plain_nil, rfl⟩

theorem Kernel.exec_cases (k : Kernel G V H) (arrivals : List (Arrival H)) (s : State G (Site V) H)
    (frame : Frame (Site V) H)
    : (∃ site, frame = .user site) ∨ k.exec arrivals s frame = Nachos.exec k.system.toProgram arrivals s frame := by
  cases frame with
  | user site => exact .inl ⟨site, rfl⟩
  | _ => exact .inr rfl

theorem Kernel.exec_shape (hk : k.Diligent) (h : k.exec arrivals s frame = .ok (frames, s'))
    (hshape : s.Shape (frame :: rest))
    : s'.Shape (frames ++ rest) ∧
        (s'.currentThread = s.currentThread ∨ Stack.Plain (frames ++ rest) ∧ s'.yieldOnReturn = false) := by
  obtain ⟨site, rfl⟩ | hexec := k.exec_cases arrivals s frame
  . obtain ⟨hplain, hyield⟩ := hshape.plain_of_cons rfl (by simp)
    have hrest := (Stack.plain_cons.1 hplain).2
    by_cases hsite : site = .oneTick
    . subst hsite
      have hexec : Nachos.exec k.system.toProgram arrivals s .oneTick = .ok (frames, s') := h
      exact (Nachos.outcome_of_exec hexec).shape (.plain (Stack.plain_cons.2 ⟨rfl, hrest⟩) hyield)
    . obtain ⟨hframes, hyield'⟩ := Kernel.execSite_plain hk hsite h
      have hplain := Stack.plain_append.2 ⟨hframes, hrest⟩
      exact ⟨.plain hplain (hyield'.trans hyield), .inr ⟨hplain, hyield'.trans hyield⟩⟩
  . rw [hexec] at h
    exact (Nachos.outcome_of_exec h).shape hshape

structure State.Shapely (s : State G (Site V) H) : Prop where
  current : s.Shape (s.stack s.currentThread)
  others : ∀ t, t ≠ s.currentThread → Stack.Plain (s.stack t)

theorem Kernel.Reachable.shapely (hk : k.Diligent) (h : k.Reachable l) : l.state.Shapely := by
  refine Transition.Reachable.invariant (P := fun l : Logged G V H => l.state.Shapely) ?_ ?_ h
  . rintro l ⟨arrivals, s, hsched, rfl⟩
    obtain ⟨pending, rfl⟩ := State.scheduleAll_eq_ok hsched
    refine ⟨.plain ?_ rfl, ?_⟩
    . simp [boot, Stack.Plain, Frame.isPlain]
    . intro t ht
      change Stack.Plain (update (fun _ => []) 0 _ t)
      have hzero : t ≠ 0 := ht
      rw [Function.update_of_ne hzero]
      exact Stack.plain_nil
  . intro l l' hreach hshapely hstep
    obtain ⟨arrivals, frame, rest, frames, s', hstack, hexec, rfl⟩ := Kernel.step_cases hstep
    have hcurrent := hshapely.current
    rw [hstack] at hcurrent
    obtain ⟨hshape, hswitch⟩ := Kernel.exec_shape hk hexec hcurrent
    have hplain : ∀ t, t ≠ l.state.currentThread → Stack.Plain (s'.stack t) := by
      intro t ht
      obtain hsame | ⟨v, hnew⟩ :=
        (Kernel.outcome_of_exec hexec).stack_cases (Kernel.Reachable.status_eq hreach hstack).2 t
      . rw [hsame]
        exact hshapely.others t ht
      . rw [hnew]
        exact Stack.plain_cons.2 ⟨rfl, Stack.plain_nil⟩
    constructor
    . apply State.Shape.setStack
      rw [State.setStack_stack, State.setStack_currentThread]
      by_cases hsame : s'.currentThread = l.state.currentThread
      . rw [hsame, Function.update_self]
        exact hshape
      . rw [Function.update_of_ne hsame]
        obtain hsame' | ⟨_, hyield⟩ := hswitch
        . exact absurd hsame' hsame
        . exact .plain (hplain _ hsame) hyield
    . intro t ht
      rw [State.setStack_currentThread] at ht
      rw [State.setStack_stack]
      by_cases hold : t = l.state.currentThread
      . rw [hold, Function.update_self]
        obtain hsame | ⟨hplain, _⟩ := hswitch
        . exact absurd (hold.trans hsame.symm) ht
        . exact hplain
      . rw [Function.update_of_ne hold]
        exact hplain t hold

end

/-! ### What stays pending -/

section

variable {prog : Program G U H} {arrivals : List (Arrival H)} {s s' : State G U H} {frame : Frame U H}
  {frames : List (Frame U H)}

theorem mem_sortedInsert {x item : PendingInterrupt H} {pending : List (PendingInterrupt H)}
    : x ∈ sortedInsert item pending ↔ x = item ∨ x ∈ pending := by
  rw [sortedInsert_eq, (Agenda.insert_perm item pending).mem_iff, List.mem_cons]

theorem scheduleAll_pending (h : Arrival.scheduleAll s arrivals = .ok s') {x : PendingInterrupt H}
    (hx : x ∈ s.pending)
    : x ∈ s'.pending := by
  induction arrivals generalizing s with
  | nil =>
    cases h
    exact hx
  | cons a rest ih =>
    unfold Arrival.scheduleAll at h
    generalize hs : s.schedule a.handler a.fromNow a.type = res at h
    cases res with
    | error => contradiction
    | ok s₁ =>
      apply ih h
      obtain ⟨_, rfl⟩ := State.schedule_cases hs
      exact mem_sortedInsert.2 (.inr hx)

theorem exec_drain_due (h : exec prog arrivals s frame = .ok (frames, s')) (hframe : frame.isDrain = true)
    : ∃ s₀ advanceClock res s₁,
        s₀ = { s with status := s₀.status } ∧ (frame ≠ .idle → s₀ = s ∧ advanceClock = false) ∧
        State.Due prog advanceClock s₀ res s₁ ∧
        s'.pending = s₁.pending ∧ s'.totalTicks = s₁.totalTicks ∧ s'.currentThread = s.currentThread ∧
        (∀ fired, res = some fired → ∃ after, frames = fired ++ [after]) ∧
        (res = none → frames = [] ∨ ∃ old, frames = [.yield, .restoreStatus old]) := by
  by_cases hidle : frame = .idle
  . subst hidle
    simp only [exec, bind, Except.bind, pure, Except.pure] at h
    generalize hcheck : State.checkIfDue { s with status := .idleMode } prog true = due at h
    obtain _ | ⟨_ | fired, s₁⟩ := due
    . contradiction
    . contradiction
    . cases h
      have hdue := (State.due_of_checkIfDue hcheck).2
      have hcurrent : s'.currentThread = s.currentThread := by
        cases hdue
        rfl
      exact ⟨_, true, some fired, _, rfl, fun hne => absurd rfl hne, hdue, rfl, rfl, hcurrent, by simp, by simp⟩
  . have hloop : frame.isLoop = true := by
      cases frame <;> first | rfl | contradiction
    generalize hcheck : s.checkIfDue prog false = due
    obtain _ | ⟨res, s₁⟩ := due
    . cases frame with
      | tickDrain | idleDrain => simp [exec, hcheck, bind, Except.bind] at h
      | _ => contradiction
    . have hdue := (State.due_of_checkIfDue hcheck).2
      have hcurrent : s₁.currentThread = s.currentThread := by
        cases hdue <;> rfl
      refine ⟨s, false, res, s₁, rfl, fun _ => ⟨rfl, rfl⟩, hdue, ?_⟩
      cases res with
      | some fired =>
        cases h.symm.trans (exec_loop_fire hloop hcheck arrivals)
        exact ⟨rfl, rfl, hcurrent, by simp, by simp⟩
      | none =>
        obtain ⟨frames', s'', hexec, hleft, hcurrent', hpending, hnow⟩ := exec_loop_end hloop hcheck
        cases h.symm.trans (hexec arrivals)
        refine ⟨hpending, hnow, hcurrent'.trans hcurrent, by simp, fun _ => ?_⟩
        have hleft := hleft []
        rw [List.append_nil] at hleft
        obtain hnil | ⟨old, -, hyield⟩ := hleft
        . exact .inl hnil
        . exact .inr ⟨old, hyield⟩

theorem exec_pending (h : exec prog arrivals s frame = .ok (frames, s'))
    : s.totalTicks ≤ s'.totalTicks ∧
        ∀ x ∈ s.pending, x ∈ s'.pending ∨
          (∃ later, frames = .handler (prog.handler x.handler s.shared).2 :: later) ∧
            s'.currentThread = s.currentThread := by
  cases htimed : frame.isTimed with
  | false =>
    obtain ⟨hpending, hticks⟩ := (outcome_of_exec h).untimed htimed
    have hnow : s'.totalTicks = s.totalTicks := congrArg Ticks.total hticks
    refine ⟨Nat.le_of_eq hnow.symm, ?_⟩
    intro x hx
    rw [hpending]
    exact .inl hx
  | true =>
    obtain rfl | ⟨handler, fromNow, type, rfl⟩ | ⟨handler, fromNow, type, calls, rfl⟩ | hdrain :=
      isTimed_cases htimed
    . obtain ⟨s₁, hall, hpending, hticks⟩ := exec_oneTick h
      have hticks := exec_oneTick_ticks h
      have hnow : s.totalTicks ≤ s'.totalTicks := by
        rw [show s'.totalTicks = _ from congrArg Ticks.total hticks]
        split <;> exact Nat.le_add_right _ _
      refine ⟨hnow, ?_⟩
      intro x hx
      rw [hpending]
      exact .inl (scheduleAll_pending hall hx)
    . obtain ⟨_, rfl⟩ := State.schedule_cases (exec_schedule h)
      exact ⟨Nat.le_refl _, fun x hx => .inl (mem_sortedInsert.2 (.inr hx))⟩
    . obtain ⟨_, rfl⟩ := State.schedule_cases (exec_handlerSchedule h)
      exact ⟨Nat.le_refl _, fun x hx => .inl (mem_sortedInsert.2 (.inr hx))⟩
    . obtain ⟨s₀, advanceClock, res, s₁, hs₀, _, hdue, hpending, hnow, hcurrent, hfired, _⟩ := exec_drain_due h hdrain
      rw [hpending, hnow]
      have hpending₀ : s₀.pending = s.pending := by rw [hs₀]
      have hnow₀ : s₀.totalTicks = s.totalTicks := by rw [hs₀]
      have hshared₀ : s₀.shared = s.shared := by rw [hs₀]
      rw [← hpending₀, ← hnow₀, ← hshared₀]
      cases hdue with
      | none => exact ⟨Nat.le_refl _, fun x hx => .inl hx⟩
      | early toOccur rest hlist =>
        refine ⟨Nat.le_refl _, ?_⟩
        intro x hx
        rw [hlist, List.mem_cons] at hx
        exact .inl (mem_sortedInsert.2 hx)
      | timer toOccur hlist =>
        refine ⟨Nat.le_max_left _ _, ?_⟩
        intro x hx
        rw [hlist] at hx
        exact .inl hx
      | fire toOccur rest hlist =>
        refine ⟨Nat.le_max_left _ _, ?_⟩
        intro x hx
        obtain ⟨after, rfl⟩ := hfired _ rfl
        rw [hlist, List.mem_cons] at hx
        obtain rfl | hx := hx
        . exact .inr ⟨⟨_, rfl⟩, hcurrent⟩
        . exact .inl hx

end

section

variable {k : Kernel G V H} {l l' : Logged G V H} {arrivals : List (Arrival H)} {s s' : State G (Site V) H}
  {frame : Frame (Site V) H} {frames : List (Frame (Site V) H)} {handler : H} {n : Nat} {type : IntType}

theorem Kernel.exec_pending (h : k.exec arrivals s frame = .ok (frames, s'))
    : s.totalTicks ≤ s'.totalTicks ∧
        ∀ x ∈ s.pending, x ∈ s'.pending ∨
          (∃ later, frames = .handler (k.handler x.handler s.shared).2 :: later) ∧
            s'.currentThread = s.currentThread := by
  cases Kernel.outcome_of_exec h with
  | kernel _ _ _ _ hexec | runTick _ _ hexec => exact Nachos.exec_pending hexec
  | _ => exact ⟨Nat.le_refl _, fun x hx => .inl hx⟩

def Kernel.Recurs (k : Kernel G V H) (handler : H) (n : Nat) (type : IntType) : Prop :=
  ∀ g, ∃ fromNow later, fromNow ≤ n ∧ (k.handler handler g).2 = .schedule handler fromNow type :: later

def Kernel.Armed (k : Kernel G V H) (handler : H) (n : Nat) (type : IntType) (s : State G (Site V) H) : Prop :=
  (∃ x ∈ s.pending, x.handler = handler ∧ x.type = type ∧ x.when ≤ s.totalTicks + n) ∨
    ∃ g rest, s.stack s.currentThread = .handler (k.handler handler g).2 :: rest

theorem Kernel.Step.armed (hrecurs : k.Recurs handler n type) (h : k.Step l l')
    (harmed : k.Armed handler n type l.state)
    : k.Armed handler n type l'.state := by
  obtain ⟨arrivals, frame, rest, frames, s', hstack, hexec, rfl⟩ := Kernel.step_cases h
  obtain ⟨x, hx, rfl, htype, hwhen⟩ | ⟨g, rest', hhandler⟩ := harmed
  . obtain ⟨hnow, hpending⟩ := Kernel.exec_pending hexec
    obtain hmem | ⟨⟨later, rfl⟩, hcurrent⟩ := hpending x hx
    . refine .inl ⟨x, hmem, rfl, htype, ?_⟩
      change x.when ≤ s'.totalTicks + n
      omega
    . refine .inr ⟨l.state.shared, later ++ rest, ?_⟩
      rw [State.setStack_stack, State.setStack_currentThread, hcurrent, Function.update_self, List.cons_append]
  . obtain ⟨fromNow, later, hle, hcalls⟩ := hrecurs g
    rw [hhandler, hcalls] at hstack
    obtain ⟨rfl, rfl⟩ := List.cons.inj hstack
    have hexec : Nachos.exec k.system.toProgram arrivals l.state (.handler (.schedule handler fromNow type :: later)) =
        .ok (frames, s') := hexec
    obtain ⟨_, rfl⟩ := State.schedule_cases (exec_handlerSchedule hexec)
    refine .inl ⟨_, mem_sortedInsert.2 (.inl rfl), rfl, rfl, ?_⟩
    exact Nat.add_le_add_left hle _

end

/-! ### The end of the machine -/

section

variable {α β : Type} {frame : Frame U H}

structure GoesOn (x : Except Stop α) : Prop where
  ne_halt : x ≠ .error .halt

@[simp]
theorem goesOn_bind {x : Except Stop α} {f : α → Except Stop β} (hx : GoesOn x) (hf : ∀ a, GoesOn (f a))
    : GoesOn (x >>= f) := by
  cases x with
  | error =>
    constructor
    intro h
    injection h with h
    exact hx.ne_halt (congrArg _ h)
  | ok a => exact hf a

@[simp]
theorem goesOn_ok (a : α) : GoesOn (.ok a) := ⟨by simp⟩

@[simp]
theorem goesOn_map {f : α → β} {x : Except Stop α} (hx : GoesOn x) : GoesOn (f <$> x) := by
  rw [map_eq_pure_bind]
  exact goesOn_bind hx fun a => goesOn_ok (f a)

@[simp]
theorem goesOn_pure (a : α) : GoesOn (pure a) := goesOn_ok a

@[simp]
theorem goesOn_assertion (a : Assertion) : GoesOn (α := α) (.error (.assertion a)) := ⟨by simp⟩

@[simp]
theorem goesOn_ite {c : Prop} [Decidable c] {x y : Except Stop α}
    : GoesOn (if c then x else y) ↔ (c → GoesOn x) ∧ (¬c → GoesOn y) := by
  split <;> simp [*]

@[simp]
theorem goesOn_setLevel (s : State G U H) (now : IntStatus) : GoesOn (s.setLevel now) := by
  simp [State.setLevel]

@[simp]
theorem goesOn_schedule (s : State G U H) (handler : H) (fromNow : Nat) (type : IntType)
    : GoesOn (s.schedule handler fromNow type) := by
  simp [State.schedule]

@[simp]
theorem goesOn_scheduleAll (s : State G U H) (arrivals : List (Arrival H))
    : GoesOn (Arrival.scheduleAll s arrivals) := by
  induction arrivals generalizing s with
  | nil => simp [Arrival.scheduleAll]
  | cons a rest ih => simp [Arrival.scheduleAll, ih]

@[simp]
theorem goesOn_sleep (s : State G U H) : GoesOn s.sleep := by
  simp [State.sleep]

@[simp]
theorem goesOn_semP (s : State G U H) (sem : SemId) (oldLevel : IntStatus) : GoesOn (s.semP sem oldLevel) := by
  simp [State.semP]

@[simp]
theorem goesOn_checkIfDue (s : State G U H) (prog : Program G U H) (advanceClock : Bool)
    : GoesOn (s.checkIfDue prog advanceClock) := by
  constructor
  intro h
  exact absurd (State.checkIfDue_eq_error h).2 Stop.noConfusion

theorem goesOn_handler (prog : Program G U H) (arrivals : List (Arrival H)) (s : State G U H)
    (calls : List (HandlerCall H))
    : GoesOn (exec prog arrivals s (.handler calls)) := by
  cases calls with
  | nil => exact goesOn_ok _
  | cons call calls => cases call <;> simp [exec, State.requestYield]

theorem goesOn_exec (prog : Program G U H) (arrivals : List (Arrival H)) (s : State G U H) (hframe : frame ≠ .idle)
    : GoesOn (exec prog arrivals s frame) := by
  cases frame with
  | idle => contradiction
  | handler calls => exact goesOn_handler prog arrivals s calls
  | tickDrain | idleDrain =>
    refine goesOn_bind (goesOn_checkIfDue ..) fun r => ?_
    split <;> simp
  | sleepLoop | runTail =>
    rw [exec]
    split <;> simp [State.deleteThread]
  | yield =>
    refine goesOn_bind (goesOn_setLevel ..) fun r => ?_
    dsimp only
    split <;> simp
  | notReached => exact ⟨by simp [exec]⟩
  | _ => simp [exec]

end

def State.Spent (s : State G U H) : Prop :=
  s.pending = [] ∨ ∃ x, s.pending = [x] ∧ x.type = .timerInt

theorem exec_idle_of_spent (prog : Program G U H) {s : State G U H} (h : s.Spent) (hlevel : s.level = .intOff)
    (arrivals : List (Arrival H))
    : exec prog arrivals s .idle = .error .halt := by
  obtain hpending | ⟨x, hpending, htype⟩ := h
  . simp [exec, State.checkIfDue, hlevel, hpending, bind, Except.bind]
    rfl
  . simp [exec, State.checkIfDue, hlevel, hpending, htype, bind, Except.bind]
    rfl

section

variable {k : Kernel G V H} {l l' : Logged G V H} {handler : H} {n : Nat} {type : IntType}

theorem Kernel.Reachable.idle (hk : k.Diligent) (h : k.Reachable l) {rest : List (Frame (Site V) H)}
    (hstack : l.state.stack l.state.currentThread = .idle :: rest)
    : l.state.level = .intOff ∧ l.state.readyList = [] := by
  have hshape := (h.shapely hk).current
  rw [hstack] at hshape
  generalize hlist : .idle :: rest = stack at hshape
  cases hshape with
  | plain hplain =>
    subst hlist
    exact absurd (Stack.plain_cons.1 hplain).1 (by simp [Frame.isPlain])
  | tick htop | idling htop => cases htop <;> cases hlist
  | idle _ hlevel _ hready => exact ⟨hlevel, hready⟩
  | asleep => cases hlist

theorem Kernel.frame_of_halt {arrivals : List (Arrival H)} {s : State G (Site V) H} {frame : Frame (Site V) H}
    (h : k.exec arrivals s frame = .error .halt)
    : frame = .idle := by
  obtain ⟨site, rfl⟩ | hexec := k.exec_cases arrivals s frame
  . have hsite : k.execSite arrivals s site = .error .halt := h
    cases site with
    | oneTick =>
      have hne : (.oneTick : Frame (Site V) H) ≠ .idle := by simp
      exact absurd hsite (goesOn_exec k.system.toProgram arrivals s hne).ne_halt
    | endException => contradiction
    | kernel | oneInstruction =>
      unfold Kernel.execSite at hsite
      dsimp only at hsite
      split at hsite <;> contradiction
  . rw [hexec] at h
    by_contra hframe
    exact (goesOn_exec _ _ _ hframe).ne_halt h

theorem Kernel.step_halt_iff (hk : k.Diligent) (h : k.Reachable l) (arrivals : List (Arrival H))
    : k.step arrivals l = .error .halt ↔
        (∃ rest, l.state.stack l.state.currentThread = .idle :: rest) ∧ l.state.Spent := by
  constructor
  . intro hhalt
    unfold Kernel.step at hhalt
    dsimp only at hhalt
    split at hhalt
    next =>
      injection hhalt with hhalt
      contradiction
    next frame rest hstack =>
      split at hhalt
      next stop hexec =>
        cases hhalt
        obtain rfl := Kernel.frame_of_halt hexec
        have hexec : Nachos.exec k.system.toProgram arrivals l.state .idle = .error .halt := hexec
        exact ⟨⟨rest, hstack⟩, exec_idle_halt hexec⟩
      next => contradiction
  . rintro ⟨⟨rest, hstack⟩, hspent⟩
    have hexec : k.exec arrivals l.state .idle = .error .halt :=
      exec_idle_of_spent k.system.toProgram hspent (h.idle hk hstack).1 arrivals
    unfold Kernel.step
    simp only [hstack, hexec]

theorem Kernel.steps_runFor (k : Kernel G V H) (n : Nat) (l : Logged G V H)
    : ReflTransGen k.Step l (k.runFor n l) := by
  have hstart : Transition.Reachable (· = l) k.Step l := .init rfl
  obtain ⟨_, rfl, hrun⟩ := k.reachable_runFor_step hstart n fun _ _ _ hstep => ⟨[], hstep⟩
  exact hrun

theorem Kernel.Armed.steps (hrecurs : k.Recurs handler n type) (harmed : k.Armed handler n type l.state)
    (hrun : ReflTransGen k.Step l l')
    : k.Armed handler n type l'.state := by
  induction hrun with
  | refl => exact harmed
  | tail _ hstep ih => exact Kernel.Step.armed hrecurs hstep ih

theorem Kernel.Armed.ne_halt (hk : k.Diligent) (h : k.Reachable l) (harmed : k.Armed handler n type l.state)
    (htype : type ≠ .timerInt) (arrivals : List (Arrival H))
    : k.step arrivals l ≠ .error .halt := by
  intro hhalt
  obtain ⟨⟨rest, hstack⟩, hspent⟩ := (Kernel.step_halt_iff hk h arrivals).1 hhalt
  obtain ⟨x, hx, -, rfl, -⟩ | ⟨g, rest', hhandler⟩ := harmed
  . obtain hpending | ⟨y, hpending, hy⟩ := hspent
    . rw [hpending] at hx
      contradiction
    . rw [hpending, List.mem_singleton] at hx
      subst hx
      exact htype hy
  . rw [hstack] at hhandler
    cases hhandler

end

namespace Devices

def Polls (s : State G U Handler) : Prop :=
  ∃ x ∈ s.pending,
    x.handler = .consoleReadPoll ∧ x.type = .consoleReadInt ∨ x.handler = .networkReadPoll ∧ x.type = .networkRecvInt

namespace Hardware

variable {numBoxes : Nat} {C V α X : Type} (hw : Hardware numBoxes C) (k : Kernel (Globals numBoxes α X) V Handler)

theorem recurs_timerHandler : (hw.install k).Recurs .timerHandler (2 * timerTicks) .timerInt := by
  intro g
  refine ⟨hw.timeOfNextInterrupt g, _, ?_, rfl⟩
  unfold timeOfNextInterrupt timerTicks
  split <;> omega

theorem recurs_consoleReadPoll {n : Nat} (hn : Console.consoleTime ≤ n)
    : (hw.install k).Recurs .consoleReadPoll n .consoleReadInt := by
  intro g
  refine ⟨Console.consoleTime, (hw.checkCharAvail g).2.tail, hn, ?_⟩
  change (hw.checkCharAvail g).2 = _
  unfold checkCharAvail
  dsimp only
  split
  next => rfl
  next => split <;> rfl

theorem recurs_networkReadPoll {n : Nat} (hn : PostOffice.networkTime ≤ n)
    : (hw.install k).Recurs .networkReadPoll n .networkRecvInt := by
  intro g
  refine ⟨PostOffice.networkTime,
    ((hw.office.checkPktAvail g.office).2.map (HandlerCall.rename officeNames)).tail, hn, ?_⟩
  change (hw.office.checkPktAvail g.office).2.map (HandlerCall.rename officeNames) = _
  unfold PostOffice.Machine.checkPktAvail
  dsimp only
  split
  next => rfl
  next =>
    split
    next => rfl
    next => split <;> rfl

theorem automatic_shutdown (hk : k.Diligent) {l l' : Logged (Globals numBoxes α X) V Handler}
    (h : (hw.install k).Reachable l) (hrun : ReflTransGen (hw.install k).Step l l')
    (arrivals : List (Arrival Handler))
    : ((hw.install k).step arrivals l' = .error .halt ↔
        (∃ rest, l'.state.stack l'.state.currentThread = .idle :: rest) ∧ l'.state.Spent) ∧
      ((hw.install k).step arrivals l' = .error .halt → l'.state.readyList = []) ∧
      (Polls l.state → (hw.install k).step arrivals l' ≠ .error .halt) := by
  have hreach : (hw.install k).Reachable l' := h.trans hrun
  have hk : (hw.install k).Diligent := hk
  have hiff := Kernel.step_halt_iff hk hreach arrivals
  refine ⟨hiff, ?_, ?_⟩
  . intro hhalt
    obtain ⟨⟨rest, hstack⟩, _⟩ := hiff.1 hhalt
    exact (hreach.idle hk hstack).2
  . rintro ⟨x, hx, ⟨hhandler, htype⟩ | ⟨hhandler, htype⟩⟩
    . have hrecurs := hw.recurs_consoleReadPoll k (Nat.le_add_right Console.consoleTime x.when)
      have harmed : (hw.install k).Armed .consoleReadPoll (Console.consoleTime + x.when) .consoleReadInt l.state :=
        .inl ⟨x, hx, hhandler, htype, by omega⟩
      exact (harmed.steps hrecurs hrun).ne_halt hk hreach (by decide) arrivals
    . have hrecurs := hw.recurs_networkReadPoll k (Nat.le_add_right PostOffice.networkTime x.when)
      have harmed : (hw.install k).Armed .networkReadPoll (PostOffice.networkTime + x.when) .networkRecvInt l.state :=
        .inl ⟨x, hx, hhandler, htype, by omega⟩
      exact (harmed.steps hrecurs hrun).ne_halt hk hreach (by decide) arrivals

end Hardware

def restKernel : Kernel (Globals 0 Unit Unit) Unit Handler :=
  { quietKernel with code := fun _ g => (g, .call .ret ()) }

theorem diligent_restKernel : restKernel.Diligent := by
  intro v g next h
  contradiction

def restBoot (arrivals : List (Arrival Handler)) : Logged (Globals 0 Unit Unit) Unit Handler where
  state :=
    { boot (quietHardware.install restKernel).system [] with pending := arrivals.map fun a => a.interrupt 0 }
  scheduled := arrivals.map fun a => a.interrupt 0
  fired := []
  runTicks := 0

def restRun (n : Nat) (arrivals : List (Arrival Handler)) : Logged (Globals 0 Unit Unit) Unit Handler :=
  (quietHardware.install restKernel).runFor n (restBoot arrivals)

def timerArrival : Arrival Handler := ⟨.timerHandler, 100, .timerInt⟩

def consoleArrival : Arrival Handler := ⟨.consoleReadPoll, 100, .consoleReadInt⟩

theorem automatic_shutdown_rest
    : (quietHardware.install restKernel).step [] (restRun 8 [timerArrival]) = .error .halt ∧
      (quietHardware.install restKernel).step [] (restRun 8 [consoleArrival, timerArrival]) ≠ .error .halt := by
  constructor
  . have hboot : (quietHardware.install restKernel).Reachable (restBoot [timerArrival]) :=
      .init ⟨_, _, rfl, rfl⟩
    have hshutdown := Hardware.automatic_shutdown quietHardware restKernel diligent_restKernel hboot
      (Kernel.steps_runFor _ 8 _) []
    exact hshutdown.1.2 ⟨⟨_, rfl⟩, .inr ⟨_, rfl, rfl⟩⟩
  . have hboot : (quietHardware.install restKernel).Reachable (restBoot [consoleArrival, timerArrival]) :=
      .init ⟨_, _, rfl, rfl⟩
    have hshutdown := Hardware.automatic_shutdown quietHardware restKernel diligent_restKernel hboot
      (Kernel.steps_runFor _ 8 _) []
    exact hshutdown.2.2 ⟨_, .head _, .inl ⟨rfl, rfl⟩⟩

end Devices

end Nachos
