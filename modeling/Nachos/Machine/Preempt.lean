import Nachos.Machine.Timer

/-!
This module contains the bound on the time that a thread waits for the processor when the timer is on: no thread,
and no user program, can keep the others from running.
-/

namespace Nachos

open Relation

/--
The thread that runs gives up the processor, at the latest when the clock shows `deadline`: it is about to yield or
it already looks for another thread, or an interrupt of the timer makes it yield.
-/
inductive State.Soon (timer : H) (deadline : Nat) (s : State G U H) (stack : List (Frame U H)) : Prop where
  | yield (rest : List (Frame U H)) (hstack : stack = .yield :: rest)
  | asleep (hmem : .sleepLoop ∈ stack)
  | requested (hyield : s.yieldOnReturn = true)
  | requesting (calls : List (HandlerCall H)) (hmem : .handler calls ∈ stack)
      (hcalls : .timerInterruptHandler ∈ calls)
  | due (x : PendingInterrupt H) (hx : x ∈ s.pending) (hhandler : x.handler = timer) (hwhen : x.when ≤ s.totalTicks)
      (old : MachineStatus) (hmem : .tickDrain old ∈ stack)
  | armed (x : PendingInterrupt H) (hx : x ∈ s.pending) (hhandler : x.handler = timer)
      (hwhen : max s.totalTicks x.when + State.systemTick ≤ deadline)

section

variable {prog : Program G U H} {arrivals : List (Arrival H)} {s s' : State G U H} {frame : Frame U H}
  {frames : List (Frame U H)}

def State.Queues (s : State G U H) (frame : Frame U H) (s' : State G U H) : Prop :=
  (frame = .yield ∨ frame = .sleepLoop) ∧
      (∃ next others more, s.readyList = next :: others ∧ s'.currentThread = next ∧ s'.readyList = others ++ more) ∨
    s'.currentThread = s.currentThread ∧ (∃ more, s'.readyList = s.readyList ++ more) ∧
      (s.readyList ≠ [] → frame ≠ .yield ∧ frame ≠ .sleepLoop)

theorem Outcome.queues (h : Outcome prog s frame frames s') : s.Queues frame s' := by
  cases h with
  | yieldSwitch next rest hready => exact .inl ⟨.inl rfl, next, rest, [s.currentThread], hready, rfl, rfl⟩
  | sleepRun next rest hready => exact .inl ⟨.inr rfl, next, rest, [], hready, rfl, (List.append_nil rest).symm⟩
  | yieldAlone hready | sleepIdle hready =>
    exact .inr ⟨rfl, ⟨[], (List.append_nil _).symm⟩, fun hne => absurd hready hne⟩
  | handlerVWake | vWake | signalWake | broadcast | fork => exact .inr ⟨rfl, ⟨_, rfl⟩, fun _ => by simp⟩
  | _ => exact .inr ⟨rfl, ⟨[], (List.append_nil _).symm⟩, fun _ => by simp⟩

theorem exec_now (h : exec prog arrivals s frame = .ok (frames, s')) (htick : frame ≠ .oneTick)
    (hidle : frame ≠ .idle)
    : s'.totalTicks = s.totalTicks := by
  cases htimed : frame.isTimed with
  | false => exact congrArg Ticks.total ((outcome_of_exec h).untimed htimed).2
  | true =>
    obtain rfl | ⟨handler, fromNow, type, rfl⟩ | ⟨handler, fromNow, type, calls, rfl⟩ | hdrain :=
      isTimed_cases htimed
    . contradiction
    . obtain ⟨_, rfl⟩ := State.schedule_cases (exec_schedule h)
      rfl
    . obtain ⟨_, rfl⟩ := State.schedule_cases (exec_handlerSchedule h)
      rfl
    . obtain ⟨s₀, advanceClock, res, s₁, _, hsame, hdue, _, hnow, _⟩ := exec_drain_due h hdrain
      obtain ⟨rfl, rfl⟩ := hsame hidle
      rw [hnow]
      cases hdue with
      | none | early => rfl
      | timer _ _ hwhen | fire _ _ _ hwhen =>
        obtain hwhen | hadvance := hwhen
        . exact Nat.max_eq_left hwhen
        . contradiction

variable {rest : List (Frame U H)} {timer : H} {deadline : Nat}

theorem State.Soon.setStack {stack : List (Frame U H)} (h : s.Soon timer deadline stack) (t : Nat)
    : (s.setStack t frames).Soon timer deadline stack := by
  cases h with
  | yield rest hstack => exact .yield rest hstack
  | asleep hmem => exact .asleep hmem
  | requested hyield => exact .requested hyield
  | requesting calls hmem hcalls => exact .requesting calls hmem hcalls
  | due x hx hhandler hwhen old hmem => exact .due x hx hhandler hwhen old hmem
  | armed x hx hhandler hwhen => exact .armed x hx hhandler hwhen

theorem State.Soon.step (h : s.Soon timer deadline (frame :: rest)) (hyield : frame ≠ .yield)
    (hsleep : frame ≠ .sleepLoop) (hnow : s'.totalTicks = s.totalTicks)
    (hrequested : s.yieldOnReturn = true → s'.Soon timer deadline (frames ++ rest))
    (hrequesting : ∀ calls, frame = .handler calls → .timerInterruptHandler ∈ calls →
      s'.Soon timer deadline (frames ++ rest))
    (hdue : ∀ old, frame = .tickDrain old → ∀ x ∈ s.pending, x ∈ s'.pending → x.handler = timer →
      x.when ≤ s.totalTicks → s'.Soon timer deadline (frames ++ rest))
    (hpending : ∀ x ∈ s.pending, x.handler = timer → x ∈ s'.pending ∨ s'.Soon timer deadline (frames ++ rest))
    : s'.Soon timer deadline (frames ++ rest) := by
  cases h with
  | yield rest hstack => exact absurd (List.cons.inj hstack).1 hyield
  | asleep hmem =>
    obtain heq | hmem := List.mem_cons.1 hmem
    . exact absurd heq.symm hsleep
    . exact .asleep (List.mem_append_right frames hmem)
  | requested hyield => exact hrequested hyield
  | requesting calls hmem hcalls =>
    obtain heq | hmem := List.mem_cons.1 hmem
    . exact hrequesting calls heq.symm hcalls
    . exact .requesting calls (List.mem_append_right frames hmem) hcalls
  | due x hx hhandler hwhen old hmem =>
    obtain hx' | hsoon := hpending x hx hhandler
    . obtain heq | hmem := List.mem_cons.1 hmem
      . exact hdue old heq.symm x hx hx' hhandler hwhen
      . exact .due x hx' hhandler (hnow.symm ▸ hwhen) old (List.mem_append_right frames hmem)
    . exact hsoon
  | armed x hx hhandler hwhen =>
    obtain hx' | hsoon := hpending x hx hhandler
    . exact .armed x hx' hhandler (hnow.symm ▸ hwhen)
    . exact hsoon

theorem State.Soon.oneTick (h : s.Soon timer deadline (frame :: rest)) (hplain : Stack.Plain (frame :: rest))
    (hframe : frame ≠ .yield) (hyield : s.yieldOnReturn = false)
    (hexec : exec prog arrivals s .oneTick = .ok (frames, s'))
    : s'.totalTicks ≤ deadline ∧ s'.Soon timer deadline (frames ++ rest) := by
  cases h with
  | yield rest hstack => exact absurd (List.cons.inj hstack).1 hframe
  | asleep hmem => exact absurd (hplain _ hmem) (by simp [Frame.isPlain])
  | requested hyield' =>
    rw [hyield] at hyield'
    contradiction
  | requesting calls hmem => exact absurd (hplain _ hmem) (by simp [Frame.isPlain])
  | due _ _ _ _ old hmem => exact absurd (hplain _ hmem) (by simp [Frame.isPlain])
  | armed x hx hhandler hwhen =>
    have hticks := exec_oneTick_ticks hexec
    have hnow : s'.totalTicks ≤ s.totalTicks + State.systemTick := by
      rw [show s'.totalTicks = _ from congrArg Ticks.total hticks]
      unfold State.systemTick
      split
      next => exact Nat.le_refl _
      next => exact Nat.add_le_add_left (by decide) _
    have hpending := (exec_pending hexec).2 x hx
    have hout := outcome_of_exec hexec
    cases hout with
    | oneTick pending total =>
      have hx' : x ∈ pending := by
        obtain hx' | ⟨⟨later, hlater⟩, _⟩ := hpending
        . exact hx'
        . cases hlater
      refine ⟨by omega, ?_⟩
      by_cases hdue : x.when ≤ total
      . exact .due x hx' hhandler hdue s.status (.head _)
      . refine .armed x hx' hhandler ?_
        change max total x.when + State.systemTick ≤ deadline
        omega

theorem exec_tickDrain_done {old : MachineStatus} (h : exec prog arrivals s (.tickDrain old) = .ok ([], s'))
    (hstatus : s.status ≠ .idleMode) (hsorted : s.Sorted) {x : PendingInterrupt H} (hx : x ∈ s.pending)
    : s.totalTicks < x.when := by
  obtain ⟨s₀, advanceClock, res, s₁, _, hsame, hdue, _, _, _, hfired, _⟩ := exec_drain_due h rfl
  obtain ⟨rfl, rfl⟩ := hsame (by simp)
  cases hdue with
  | none hpending =>
    rw [hpending] at hx
    contradiction
  | early toOccur later hpending hwhen =>
    unfold State.Sorted at hsorted
    rw [hpending] at hsorted hx
    obtain rfl | hx := List.mem_cons.1 hx
    . exact hwhen
    . exact Nat.lt_of_lt_of_le hwhen ((List.pairwise_cons.1 hsorted).1 x hx)
  | timer _ _ _ hidle => exact absurd hidle hstatus
  | fire =>
    obtain ⟨after, hframes⟩ := hfired _ rfl
    cases hframes

variable (htimer : ∀ g, .timerInterruptHandler ∈ (prog.handler timer g).2)

include htimer

theorem exec_pending_soon (hexec : exec prog arrivals s frame = .ok (frames, s')) {x : PendingInterrupt H}
    (hx : x ∈ s.pending) (hhandler : x.handler = timer)
    : x ∈ s'.pending ∨ s'.Soon timer deadline (frames ++ rest) := by
  obtain hx' | ⟨⟨later, rfl⟩, _⟩ := (exec_pending hexec).2 x hx
  . exact .inl hx'
  . refine .inr (.requesting _ (.head _) ?_)
    rw [hhandler]
    exact htimer s.shared

theorem State.Soon.tickDrain {old : MachineStatus} (h : s.Soon timer deadline (.tickDrain old :: rest))
    (hstatus : s.status ≠ .idleMode) (hsorted : s.Sorted)
    (hexec : exec prog arrivals s (.tickDrain old) = .ok (frames, s'))
    : s'.Soon timer deadline (frames ++ rest) := by
  have hout := outcome_of_exec hexec
  refine h.step (by simp) (by simp) (exec_now hexec (by simp) (by simp)) ?_ (by simp) ?_
    (fun x hx hhandler => exec_pending_soon htimer hexec hx hhandler)
  . intro hyield
    cases hout with
    | tickFire => exact .requested hyield
    | tickYield => exact .yield _ rfl
    | tickDone _ _ _ _ _ hyield' =>
      rw [hyield] at hyield'
      contradiction
  . intro old' _ x hx hx' hhandler hwhen
    cases hout with
    | tickFire _ _ _ _ total =>
      have hnow : total = s.totalTicks := exec_now hexec (by simp) (by simp)
      exact .due x hx' hhandler (le_of_le_of_eq hwhen hnow.symm) old (by simp)
    | tickYield => exact .yield _ rfl
    | tickDone => exact absurd (exec_tickDrain_done hexec hstatus hsorted hx) (Nat.not_lt.2 hwhen)

theorem State.Soon.handler {calls : List (HandlerCall H)} (h : s.Soon timer deadline (.handler calls :: rest))
    (hstatus : s.status ≠ .idleMode) (hexec : exec prog arrivals s (.handler calls) = .ok (frames, s'))
    : s'.Soon timer deadline (frames ++ rest) := by
  have hout := outcome_of_exec hexec
  refine h.step (by simp) (by simp) (exec_now hexec (by simp) (by simp)) ?_ ?_ (by simp)
    (fun x hx hhandler => exec_pending_soon htimer hexec hx hhandler)
  . intro hyield
    cases hout with
    | handlerTimer => exact .requested rfl
    | _ => exact .requested hyield
  . intro calls' heq hcalls
    cases heq
    cases hout with
    | handlerDone => contradiction
    | handlerTimerIdle _ hidle => exact absurd hidle hstatus
    | handlerTimer => exact .requested rfl
    | handlerVQuiet | handlerVWake | handlerSchedule =>
      refine .requesting _ ?_ (List.mem_of_ne_of_mem (by simp) hcalls)
      simp

theorem State.Soon.other (h : s.Soon timer deadline (frame :: rest))
    (hframe : frame.isPlain = true ∨ ∃ old, frame = .endHandler old) (hyield : frame ≠ .yield)
    (htick : frame ≠ .oneTick)
    (hexec : exec prog arrivals s frame = .ok (frames, s'))
    : frame ≠ .idle ∧ s'.Soon timer deadline (frames ++ rest) := by
  have hne : ∀ frame', frame'.isPlain = false → (∀ old, frame' ≠ .endHandler old) → frame ≠ frame' := by
    rintro frame' hplain hend rfl
    obtain hframe | ⟨old, hframe⟩ := hframe
    . rw [hplain] at hframe
      contradiction
    . exact hend old hframe
  have hidle : frame ≠ .idle := hne _ rfl (by simp)
  refine ⟨hidle, h.step hyield (hne _ rfl (by simp)) (exec_now hexec htick hidle) ?_ ?_ ?_
    (fun x hx hhandler => exec_pending_soon htimer hexec hx hhandler)⟩
  . intro hrequest
    have hout := outcome_of_exec hexec
    cases hout with
    | tickFire | tickYield | tickDone | idleDrainDone | handlerTimer =>
      exact absurd rfl (hne _ rfl (by simp))
    | _ => exact .requested hrequest
  . intro calls heq
    exact absurd heq (hne _ rfl (by simp))
  . intro old heq
    exact absurd heq (hne _ rfl (by simp))

theorem State.Soon.exec (h : s.Soon timer deadline (frame :: rest))
    (hexec : exec prog arrivals s frame = .ok (frames, s')) (hshape : s.Shape (frame :: rest))
    (htick : ∀ old, frame = .tickDrain old → s.status ≠ .idleMode)
    (hhandler : ∀ calls, frame = .handler calls → s.status ≠ .idleMode)
    (hsorted : s.Sorted) (hready : s.readyList ≠ []) (hyield : frame ≠ .yield) (hsleep : frame ≠ .sleepLoop)
    (hnow : s.totalTicks ≤ deadline)
    : s'.totalTicks ≤ deadline ∧ s'.Soon timer deadline (frames ++ rest) := by
  by_cases hone : frame = .oneTick
  . subst hone
    obtain ⟨hplain, hrequest⟩ := hshape.plain_of_cons rfl (by simp)
    exact h.oneTick hplain hyield hrequest hexec
  suffices hsoon : frame ≠ .idle ∧ s'.Soon timer deadline (frames ++ rest) from
    ⟨le_of_eq_of_le (exec_now hexec hone hsoon.1) hnow, hsoon.2⟩
  generalize hstack : frame :: rest = stack at hshape
  cases hshape with
  | plain hplain =>
    subst hstack
    exact State.Soon.other htimer h (.inl (Stack.plain_cons.1 hplain).1) hyield hone hexec
  | @tick top later htop old hlater =>
    cases htop with
    | done =>
      cases hstack
      exact ⟨by simp, State.Soon.tickDrain htimer h (htick old rfl) hsorted hexec⟩
    | endHandler =>
      cases hstack
      exact State.Soon.other htimer h (.inr ⟨_, rfl⟩) hyield hone hexec
    | handler calls =>
      cases hstack
      exact ⟨by simp, State.Soon.handler htimer h (hhandler calls rfl) hexec⟩
    | v =>
      cases hstack
      exact State.Soon.other htimer h (.inl rfl) hyield hone hexec
  | idling htop =>
    -- the thread looks for another one as soon as the handlers are done
    cases htop with
    | done | endHandler | handler | v =>
      cases hstack
      exact ⟨by simp, .asleep (List.mem_append_right frames (by simp))⟩
  | idle _ _ _ hready' => exact absurd hready' hready
  | asleep => exact absurd (List.cons.inj hstack).1 hsleep

end

section

variable {k : Kernel G V H} {l l' : Logged G V H} {arrivals : List (Arrival H)} {s s' : State G (Site V) H}
  {frame : Frame (Site V) H} {frames rest : List (Frame (Site V) H)} {timer : H} {deadline n : Nat}

theorem Kernel.exec_queues (h : k.exec arrivals s frame = .ok (frames, s')) : s.Queues frame s' := by
  cases Kernel.outcome_of_exec h with
  | kernel _ _ _ _ hexec => exact (Nachos.outcome_of_exec hexec).queues
  | runTick _ _ hexec =>
    obtain ⟨hframe | hframe, _⟩ | ⟨hcurrent, hmore, _⟩ := (Nachos.outcome_of_exec hexec).queues
    . contradiction
    . contradiction
    . exact .inr ⟨hcurrent, hmore, fun _ => by simp⟩
  | _ => exact .inr ⟨rfl, ⟨[], (List.append_nil _).symm⟩, fun _ => by simp⟩

theorem Kernel.execSite_same {site : Site V} (hsite : site ≠ .oneTick)
    (h : k.exec arrivals s (.user site) = .ok (frames, s'))
    : s'.pending = s.pending ∧ s'.totalTicks = s.totalTicks ∧ s'.yieldOnReturn = s.yieldOnReturn := by
  cases Kernel.outcome_of_exec h with
  | kernel _ _ _ hframe => exact absurd rfl (hframe site)
  | runTick => contradiction
  | _ => exact ⟨rfl, rfl, rfl⟩

theorem Kernel.exec_soon (htimer : ∀ g, .timerInterruptHandler ∈ (k.handler timer g).2)
    (hexec : k.exec arrivals s frame = .ok (frames, s')) (hshape : s.Shape (frame :: rest))
    (hentry : s.status = frame.entry ∧ frame.Sane) (hsorted : s.Sorted) (hready : s.readyList ≠ [])
    (hyield : frame ≠ .yield) (hsleep : frame ≠ .sleepLoop) (hnow : s.totalTicks ≤ deadline)
    (hsoon : s.Soon timer deadline (frame :: rest))
    : s'.totalTicks ≤ deadline ∧ s'.Soon timer deadline (frames ++ rest) := by
  obtain ⟨site, rfl⟩ | hkernel := k.exec_cases arrivals s frame
  . obtain ⟨hplain, hrequest⟩ := hshape.plain_of_cons rfl (by simp)
    by_cases hsite : site = .oneTick
    . subst hsite
      have hexec : Nachos.exec k.system.toProgram arrivals s .oneTick = .ok (frames, s') := hexec
      exact hsoon.oneTick hplain hyield hrequest hexec
    . obtain ⟨hpending, hnow', hrequest'⟩ := Kernel.execSite_same hsite hexec
      refine ⟨le_of_eq_of_le hnow' hnow, hsoon.step hyield hsleep hnow' ?_ (by simp) (by simp) ?_⟩
      . intro hrequest
        exact .requested (hrequest'.trans hrequest)
      . intro x hx _
        exact .inl (hpending ▸ hx)
  . rw [hkernel] at hexec
    refine State.Soon.exec htimer hsoon hexec hshape ?_ ?_ hsorted hready hyield hsleep hnow
    . rintro old rfl
      rw [hentry.1]
      exact hentry.2
    . rintro calls rfl
      rw [hentry.1]
      exact MachineStatus.noConfusion

theorem Kernel.Step.soon (hk : k.Diligent) (htimer : ∀ g, .timerInterruptHandler ∈ (k.handler timer g).2)
    (h : k.Reachable l) (hstep : k.Step l l') {next : Nat} {others : List Nat}
    (hready : l.state.readyList = next :: others) (hnow : l.state.totalTicks ≤ deadline)
    (hsoon : l.state.Soon timer deadline (l.state.stack l.state.currentThread))
    : l'.state.totalTicks ≤ deadline ∧
        ((l'.state.currentThread = next ∧ ∃ more, l'.state.readyList = others ++ more) ∨
          (∃ more, l'.state.readyList = l.state.readyList ++ more) ∧
            l'.state.Soon timer deadline (l'.state.stack l'.state.currentThread)) := by
  have hshape := (h.shapely hk).current
  obtain ⟨arrivals, frame, rest, frames, s', hstack, hexec, rfl⟩ := Kernel.step_cases hstep
  rw [hstack] at hshape hsoon
  obtain ⟨hframe, next', others', more, hready', hcurrent, hmore⟩ | ⟨hcurrent, hmore, hframe⟩ :=
    Kernel.exec_queues hexec
  . rw [hready] at hready'
    cases hready'
    refine ⟨?_, .inl ⟨hcurrent, more, hmore⟩⟩
    have hsame : s'.totalTicks = l.state.totalTicks := by
      obtain ⟨site, rfl⟩ | hkernel := k.exec_cases arrivals l.state frame
      . simp at hframe
      . rw [hkernel] at hexec
        obtain rfl | rfl := hframe
        . exact exec_now hexec (by simp) (by simp)
        . exact exec_now hexec (by simp) (by simp)
    exact le_of_eq_of_le hsame hnow
  . have hne : l.state.readyList ≠ [] := by
      rw [hready]
      exact List.cons_ne_nil _ _
    obtain ⟨hyield, hsleep⟩ := hframe hne
    obtain ⟨hnow', hsoon'⟩ :=
      Kernel.exec_soon htimer hexec hshape (h.status_eq hstack) h.agenda.sorted hne hyield hsleep
      hnow hsoon
    refine ⟨hnow', .inr ⟨hmore, ?_⟩⟩
    apply State.Soon.setStack
    rw [State.setStack_stack, State.setStack_currentThread, hcurrent, Function.update_self]
    exact hsoon'

theorem Kernel.Armed.soon {type : IntType} (htimer : ∀ g, .timerInterruptHandler ∈ (k.handler timer g).2)
    (h : k.Armed timer n type s)
    : s.Soon timer (s.totalTicks + (n + State.systemTick)) (s.stack s.currentThread) := by
  obtain ⟨x, hx, hhandler, -, hwhen⟩ | ⟨g, rest, hstack⟩ := h
  . exact .armed x hx hhandler (by omega)
  . refine .requesting _ ?_ (htimer g)
    rw [hstack]
    exact .head _

theorem Kernel.waits {type : IntType} (hk : k.Diligent) (hrecurs : k.Recurs timer n type)
    (htimer : ∀ g, .timerInterruptHandler ∈ (k.handler timer g).2) (h : k.Reachable l)
    (harmed : k.Armed timer n type l.state) {i t : Nat} (hready : l.state.readyList[i]? = some t)
    (hrun : ReflTransGen k.Step l l')
    : (∃ m, ReflTransGen k.Step l m ∧ ReflTransGen k.Step m l' ∧ m.state.currentThread = t ∧
        m.state.totalTicks ≤ l.state.totalTicks + (i + 1) * (n + State.systemTick)) ∨
      ∃ j deadline, l'.state.readyList[j]? = some t ∧ l'.state.totalTicks ≤ deadline ∧
        deadline + j * (n + State.systemTick) ≤ l.state.totalTicks + (i + 1) * (n + State.systemTick) ∧
        l'.state.Soon timer deadline (l'.state.stack l'.state.currentThread) := by
  induction hrun with
  | refl =>
    refine .inr ⟨i, _, hready, Nat.le_add_right _ _, ?_, harmed.soon htimer⟩
    rw [Nat.succ_mul]
    omega
  | @tail m' l' hrun hstep ih =>
    obtain ⟨m, hbefore, hafter, hm⟩ | ⟨j, deadline, hj, hnow, hdeadline, hsoon⟩ := ih
    . exact .inl ⟨m, hbefore, hafter.tail hstep, hm⟩
    . have hreach : k.Reachable m' := h.trans hrun
      cases hlist : m'.state.readyList with
      | nil =>
        rw [hlist] at hj
        contradiction
      | cons next others =>
        obtain ⟨hnow', ⟨hcurrent, more, hmore⟩ | ⟨⟨more, hmore⟩, hsoon'⟩⟩ :=
          Kernel.Step.soon hk htimer hreach hstep hlist hnow hsoon
        . rw [hlist] at hj
          cases j with
          | zero =>
            cases hj
            refine .inl ⟨l', hrun.tail hstep, .refl, hcurrent, ?_⟩
            omega
          | succ j =>
            rw [List.getElem?_cons_succ] at hj
            have harmed' := harmed.steps hrecurs (hrun.tail hstep)
            refine .inr ⟨j, _, ?_, Nat.le_add_right _ _, ?_, harmed'.soon htimer⟩
            . rw [hmore, List.getElem?_append_left (List.getElem?_eq_some_iff.1 hj).1]
              exact hj
            . rw [Nat.succ_mul] at hdeadline
              omega
        . refine .inr ⟨j, deadline, ?_, hnow', hdeadline, hsoon'⟩
          rw [hmore, List.getElem?_append_left (List.getElem?_eq_some_iff.1 hj).1]
          exact hj

end

namespace Devices.Hardware

variable {numBoxes : Nat} {C V α X : Type} (hw : Hardware numBoxes C) (k : Kernel (Globals numBoxes α X) V Handler)

theorem timerInterruptHandler_mem (g : Globals numBoxes α X)
    : .timerInterruptHandler ∈ ((hw.install k).handler .timerHandler g).2 :=
  .tail _ (.head _)

theorem preemption_bounded (hk : k.Diligent) {l₀ l l' : Logged (Globals numBoxes α X) V Handler}
    (h : (hw.install k).Reachable l₀)
    (htimer : ∃ x ∈ l₀.state.pending, x.handler = .timerHandler ∧ x.type = .timerInt ∧
      x.when ≤ l₀.state.totalTicks + 2 * timerTicks)
    (hrun₀ : ReflTransGen (hw.install k).Step l₀ l) {i t : Nat} (hready : l.state.readyList[i]? = some t)
    (hrun : ReflTransGen (hw.install k).Step l l')
    (hlate : l.state.totalTicks + (i + 1) * (2 * timerTicks + State.systemTick) < l'.state.totalTicks)
    : ∃ m, ReflTransGen (hw.install k).Step l m ∧ ReflTransGen (hw.install k).Step m l' ∧ m.state.currentThread = t ∧
        m.state.totalTicks ≤ l.state.totalTicks + (i + 1) * (2 * timerTicks + State.systemTick) := by
  have hrecurs := hw.recurs_timerHandler k
  have harmed : (hw.install k).Armed .timerHandler (2 * timerTicks) .timerInt l.state :=
    Kernel.Armed.steps hrecurs (.inl htimer) hrun₀
  obtain hm | ⟨j, deadline, _, hnow, hdeadline, _⟩ := Kernel.waits (k := hw.install k) hk hrecurs
    (hw.timerInterruptHandler_mem k) (h.trans hrun₀) harmed hready hrun
  . exact hm
  . omega

end Devices.Hardware

namespace Devices

inductive HogCode where
  | main
  | loop
  deriving DecidableEq

def hogKernel : Kernel (Globals 0 Unit Unit) HogCode Handler where
  code u g := (g, if u = .main then .call (.fork .loop) .loop else .oneTick .loop)
  handler := quietKernel.handler
  oneInstruction _ g := (g, none)
  globals := quietKernel.globals
  main := .main
  value _ := 0
  value_nonneg := System.zero_nonneg

theorem diligent_hogKernel : hogKernel.Diligent := by
  intro v g next h
  cases v <;> contradiction

def hogBoot : Logged (Globals 0 Unit Unit) HogCode Handler where
  state := { boot (quietHardware.install hogKernel).system [] with pending := [⟨.timerHandler, 100, .timerInt⟩] }
  scheduled := [⟨.timerHandler, 100, .timerInt⟩]
  fired := []
  runTicks := 0

def hogRun (n : Nat) (l : Logged (Globals 0 Unit Unit) HogCode Handler)
    : Logged (Globals 0 Unit Unit) HogCode Handler :=
  (quietHardware.install hogKernel).runFor n l

theorem preemption_bounded_hog
    : ∃ m, ReflTransGen (quietHardware.install hogKernel).Step (hogRun 8 hogBoot) m ∧ m.state.currentThread = 1 ∧
        m.state.totalTicks ≤ (hogRun 8 hogBoot).state.totalTicks + 210 := by
  have hboot : (quietHardware.install hogKernel).Reachable hogBoot :=
    .init ⟨[⟨.timerHandler, 100, .timerInt⟩], _, rfl, rfl⟩
  have htimer : ∃ x ∈ hogBoot.state.pending, x.handler = .timerHandler ∧ x.type = .timerInt ∧
      x.when ≤ hogBoot.state.totalTicks + 2 * timerTicks :=
    ⟨_, .head _, rfl, rfl, by decide⟩
  have hready : (hogRun 8 hogBoot).state.readyList[0]? = some 1 := by decide +kernel
  have hbound : (0 + 1) * (2 * timerTicks + State.systemTick) = 210 := by decide
  have hlate : (hogRun 8 hogBoot).state.totalTicks + (0 + 1) * (2 * timerTicks + State.systemTick) <
      (hogRun 200 (hogRun 8 hogBoot)).state.totalTicks := by
    decide +kernel
  have hrun₀ : ReflTransGen (quietHardware.install hogKernel).Step hogBoot (hogRun 8 hogBoot) :=
    Kernel.steps_runFor _ 8 _
  have hrun : ReflTransGen (quietHardware.install hogKernel).Step (hogRun 8 hogBoot)
      (hogRun 200 (hogRun 8 hogBoot)) :=
    Kernel.steps_runFor _ 200 _
  obtain ⟨m, hbefore, _, hcurrent, hnow⟩ :=
    Hardware.preemption_bounded quietHardware hogKernel diligent_hogKernel hboot htimer hrun₀ hready hrun hlate
  rw [hbound] at hnow
  exact ⟨m, hbefore, hcurrent, hnow⟩

end Devices

end Nachos
