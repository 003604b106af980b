import Nachos.Lib.Agenda
import Nachos.Synch.Holding

/-!
This module contains the kernel together with user programs: a thread may call `Machine::Run`, which
executes the instructions of its user program one after the other and calls `OneTick` after each one of
them. A run also has a record of the interrupts that were scheduled and fired.
-/

namespace Nachos

open Function (update)
open Relation

inductive Action (V H : Type) where
  | call (call : Call V H) (next : V)
  | oneTick (next : V)
  | idle (next : V)
  | run

/--
Where the code of a thread is: in the kernel, at the top of the loop of `Machine::Run`, at its call of `OneTick`, or
at the end of `RaiseException`.
-/
inductive Site (V : Type) where
  | kernel (v : V)
  | oneInstruction
  | oneTick
  | endException
  deriving DecidableEq

/--
`oneInstruction` is the user program of a thread. `Scheduler::Run` saves and restores the registers, so every thread
has its own. If the instruction raises an exception, then the result is the code of `ExceptionHandler` for it.
-/
structure Kernel (G V H : Type) where
  code : V → G → G × Action V H
  handler : H → G → G × List (HandlerCall H)
  oneInstruction : Nat → G → G × Option V
  globals : G
  main : V
  value : Nat → Int
  value_nonneg : ∀ n, 0 ≤ value n

namespace Kernel

variable (k : Kernel G V H)

def system : System G (Site V) H where
  code site g := (g, .ret, site)
  handler := k.handler
  globals := k.globals
  main := .kernel k.main
  value := k.value
  value_nonneg := k.value_nonneg

def names : Rename V (Site V) H H := ⟨id, id, id, .kernel, id⟩

def execSite (arrivals : List (Arrival H)) (s : State G (Site V) H) (site : Site V)
    : Except Stop (List (Frame (Site V) H) × State G (Site V) H) :=
  match site with
  | .kernel v =>
    match k.code v s.shared with
    | (shared, .call call next) => .ok ((call.rename names).frames (.kernel next), { s with shared })
    | (shared, .oneTick next) => .ok ([.oneTick, .user (.kernel next)], { s with shared })
    | (shared, .idle next) => .ok ([.idle, .user (.kernel next)], { s with shared })
    | (shared, .run) => .ok ([.user .oneInstruction], { s with shared, status := .userMode })
  | .oneInstruction =>
    match k.oneInstruction s.currentThread s.shared with
    | (shared, none) => .ok ([.user .oneTick, .user .oneInstruction], { s with shared })
    | (shared, some v) =>
      .ok ([.user (.kernel v), .user .endException, .user .oneTick, .user .oneInstruction],
        { s with shared, status := .systemMode })
  | .oneTick => Nachos.exec k.system.toProgram arrivals s .oneTick
  | .endException => .ok ([], { s with status := .userMode })

def exec (arrivals : List (Arrival H)) (s : State G (Site V) H) (frame : Frame (Site V) H)
    : Except Stop (List (Frame (Site V) H) × State G (Site V) H) :=
  match frame with
  | .user site => k.execSite arrivals s site
  | frame => Nachos.exec k.system.toProgram arrivals s frame

end Kernel

def Arrival.interrupt (a : Arrival H) (now : Nat) : PendingInterrupt H :=
  ⟨a.handler, now + a.fromNow, a.type⟩

/--
A state with what happened so far: the interrupts that were scheduled, those that were fired and when, and the
number of times that `Machine::Run` called `OneTick`.
-/
structure Logged (G V H : Type) where
  state : State G (Site V) H
  scheduled : List (PendingInterrupt H)
  fired : List (PendingInterrupt H × Nat)
  runTicks : Nat

section

variable (arrivals : List (Arrival H)) (s : State G U H)

def scheduledBy : Frame U H → List (PendingInterrupt H)
  | .oneTick => arrivals.map fun a => a.interrupt s.totalTicks
  | .schedule handler fromNow type | .handler (.schedule handler fromNow type :: _) =>
    [⟨handler, s.totalTicks + fromNow, type⟩]
  | _ => []

def State.firstIfDue (prog : Program G U H) (advanceClock : Bool) : Option (PendingInterrupt H) :=
  match s.checkIfDue prog advanceClock with
  | .ok (some _, _) => s.pending.head?
  | _ => none

def firedBy (prog : Program G U H) : Frame U H → Option (PendingInterrupt H)
  | .tickDrain _ | .idleDrain => s.firstIfDue prog false
  | .idle => State.firstIfDue { s with status := .idleMode } prog true
  | _ => none

end

def Frame.function : Frame (Site V) H → Frame (Site V) H
  | .user .oneTick => .oneTick
  | frame => frame

def runTicksBy : Frame (Site V) H → Nat
  | .user .oneTick => 1
  | _ => 0

namespace Kernel

variable (k : Kernel G V H)

def step (arrivals : List (Arrival H)) (l : Logged G V H) : Except Stop (Logged G V H) :=
  let s := l.state
  match s.stack s.currentThread with
  | [] => .error .stuck
  | frame :: rest =>
    match k.exec arrivals s frame with
    | .error stop => .error stop
    | .ok (frames, s') => .ok {
        state := s'.setStack s.currentThread (frames ++ rest)
        scheduled := l.scheduled ++ scheduledBy arrivals s frame.function
        fired := l.fired ++ (firedBy s k.system.toProgram frame).toList.map fun x => (x, s'.totalTicks)
        runTicks := l.runTicks + runTicksBy frame }

def Step (l l' : Logged G V H) : Prop :=
  ∃ arrivals, k.step arrivals l = .ok l'

def Boot (l : Logged G V H) : Prop :=
  ∃ arrivals s, Arrival.scheduleAll (boot k.system []) arrivals = .ok s ∧
    l = ⟨s, arrivals.map fun a => a.interrupt 0, [], 0⟩

def Reachable (l : Logged G V H) : Prop :=
  Transition.Reachable k.Boot k.Step l

def runFor : Nat → Logged G V H → Logged G V H
  | 0, l => l
  | n + 1, l =>
    match k.step [] l with
    | .error _ => l
    | .ok l' => runFor n l'

inductive Outcome (arrivals : List (Arrival H)) (s : State G (Site V) H)
    : Frame (Site V) H → List (Frame (Site V) H) → State G (Site V) H → Prop where
  | kernel (frame : Frame (Site V) H) (frames : List (Frame (Site V) H)) (s' : State G (Site V) H)
      (hframe : ∀ site, frame ≠ .user site)
      (hexec : Nachos.exec k.system.toProgram arrivals s frame = .ok (frames, s'))
    : Outcome arrivals s frame frames s'
  | runTick (frames : List (Frame (Site V) H)) (s' : State G (Site V) H)
      (hexec : Nachos.exec k.system.toProgram arrivals s .oneTick = .ok (frames, s'))
    : Outcome arrivals s (.user .oneTick) frames s'
  | call (v : V) (shared : G) (call : Call V H) (next : V)
    : Outcome arrivals s (.user (.kernel v)) ((call.rename names).frames (.kernel next))
        { s with shared := shared }
  | oneTick (v : V) (shared : G) (next : V)
    : Outcome arrivals s (.user (.kernel v)) [.oneTick, .user (.kernel next)] { s with shared := shared }
  | idle (v : V) (shared : G) (next : V)
    : Outcome arrivals s (.user (.kernel v)) [.idle, .user (.kernel next)] { s with shared := shared }
  | run (v : V) (shared : G)
    : Outcome arrivals s (.user (.kernel v)) [.user .oneInstruction]
        { s with shared := shared, status := .userMode }
  | instruction (shared : G)
    : Outcome arrivals s (.user .oneInstruction) [.user .oneTick, .user .oneInstruction]
        { s with shared := shared }
  | exception (shared : G) (v : V)
    : Outcome arrivals s (.user .oneInstruction)
        [.user (.kernel v), .user .endException, .user .oneTick, .user .oneInstruction]
        { s with shared := shared, status := .systemMode }
  | endException
    : Outcome arrivals s (.user .endException) [] { s with status := .userMode }

variable {k} {arrivals : List (Arrival H)} {s s' : State G (Site V) H} {frame : Frame (Site V) H}
  {frames : List (Frame (Site V) H)}

theorem outcome_of_execSite {site : Site V} (h : k.execSite arrivals s site = .ok (frames, s'))
    : k.Outcome arrivals s (.user site) frames s' := by
  unfold execSite at h
  split at h
  . next v =>
    split at h
    all_goals
      simp only [Except.ok.injEq, Prod.mk.injEq] at h
      obtain ⟨rfl, rfl⟩ := h
    . exact .call v _ _ _
    . exact .oneTick v _ _
    . exact .idle v _ _
    . exact .run v _
  . split at h
    all_goals
      simp only [Except.ok.injEq, Prod.mk.injEq] at h
      obtain ⟨rfl, rfl⟩ := h
    . exact .instruction _
    . exact .exception _ _
  . exact .runTick _ _ h
  . simp only [Except.ok.injEq, Prod.mk.injEq] at h
    obtain ⟨rfl, rfl⟩ := h
    exact .endException

theorem outcome_of_exec (h : k.exec arrivals s frame = .ok (frames, s'))
    : k.Outcome arrivals s frame frames s' := by
  unfold exec at h
  split at h
  . exact outcome_of_execSite h
  . next frame hframe => exact .kernel _ _ _ hframe h

theorem step_cases {l l' : Logged G V H} (h : k.Step l l')
    : ∃ arrivals frame rest frames s',
        l.state.stack l.state.currentThread = frame :: rest ∧
        k.exec arrivals l.state frame = .ok (frames, s') ∧
        l' = {
          state := s'.setStack l.state.currentThread (frames ++ rest)
          scheduled := l.scheduled ++ scheduledBy arrivals l.state frame.function
          fired := l.fired ++
            (firedBy l.state k.system.toProgram frame).toList.map fun x => (x, s'.totalTicks)
          runTicks := l.runTicks + runTicksBy frame } := by
  obtain ⟨arrivals, h⟩ := h
  unfold step at h
  dsimp only at h
  split at h
  . contradiction
  . next frame rest hstack =>
    split at h
    . contradiction
    . next frames s' hexec =>
      injection h with h
      exact ⟨arrivals, frame, rest, frames, s', hstack, hexec, h.symm⟩

theorem reachable_runFor_step {start : Logged G V H → Prop} {R : Logged G V H → Logged G V H → Prop}
    {l : Logged G V H} (h : Transition.Reachable start R l) (n : Nat)
    (hR : ∀ i, i < n → ∀ l', k.step [] (k.runFor i l) = .ok l' → R (k.runFor i l) l')
    : Transition.Reachable start R (k.runFor n l) := by
  induction n generalizing l with
  | zero => exact h
  | succ n ih =>
    have hfirst := hR 0 (Nat.succ_pos n)
    unfold Kernel.runFor
    generalize hl : k.step [] l = res
    cases res with
    | error => exact h
    | ok l' =>
      apply ih (h.tail (hfirst l' hl))
      intro i hi
      have := hR (i + 1) (Nat.succ_lt_succ hi)
      rwa [Kernel.runFor, hl] at this

theorem Reachable.runFor {l : Logged G V H} (h : k.Reachable l) (n : Nat) : k.Reachable (k.runFor n l) :=
  k.reachable_runFor_step h n fun _ _ _ hstep => ⟨[], hstep⟩

end Kernel

/-! ### Two threads that run user programs -/

inductive UserThread where
  | main
  | func
  | start
  | syscall
  | syscallReturn

def timeSharing : Kernel Nat UserThread Unit where
  code u g :=
    match u with
    | .main => (g, .call (.fork .func) .start)
    | .func | .start => (g, .run)
    | .syscall => (g, .call .yield .syscallReturn)
    | .syscallReturn => (g, .call .ret .syscallReturn)
  handler _ g := (g, [.schedule () 20 .timerInt, .timerInterruptHandler])
  oneInstruction _ g := (g + 1, if g % 4 = 3 then some .syscall else none)
  globals := 0
  main := .main
  value _ := 0
  value_nonneg := System.zero_nonneg

def timeSharingBoot : Logged Nat UserThread Unit where
  state := { boot timeSharing.system [] with pending := [⟨(), 20, .timerInt⟩] }
  scheduled := [⟨(), 20, .timerInt⟩]
  fired := []
  runTicks := 0

def timeSharingRun (n : Nat) : Logged Nat UserThread Unit :=
  timeSharing.runFor n timeSharingBoot

theorem reachable_timeSharingRun (n : Nat) : timeSharing.Reachable (timeSharingRun n) :=
  Kernel.Reachable.runFor (.init ⟨[⟨(), 20, .timerInt⟩], _, rfl, rfl⟩) n

end Nachos
