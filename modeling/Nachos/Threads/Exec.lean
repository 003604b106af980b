import Nachos.Threads.Basic
import Mathlib.Tactic.Simps.Basic

/-!
This module contains the kernel functions of `interrupt.cc`, `scheduler.cc`, `thread.cc` and
`synch.cc`. A function runs up to the point where it calls something that may switch to another
thread. What is left to do after that is returned as a list of frames.
-/

namespace Nachos

open Function (update)

namespace State

variable (s : State G U H)

@[simps]
def setStack (thread : Nat) (frames : List (Frame U H)) : State G U H :=
  { s with stack := update s.stack thread frames }

/-! ### `interrupt.cc` -/

def changeLevel (now : IntStatus) : State G U H :=
  { s with level := now }

def setLevel (now : IntStatus) : Except Stop (IntStatus × List (Frame U H) × State G U H) :=
  let old := s.level
  if now = .intOff ∨ s.inHandler = false then
    if now = .intOn ∧ old = .intOff then
      .ok (old, [.oneTick], s.changeLevel now)
    else
      .ok (old, [], s.changeLevel now)
  else
    .error (.assertion .setLevel)

def systemTick : Nat := 10
def userTick : Nat := 1

def advanceTime : State G U H :=
  if s.status = .systemMode then
    { s with totalTicks := s.totalTicks + systemTick, systemTicks := s.systemTicks + systemTick }
  else
    { s with totalTicks := s.totalTicks + userTick, userTicks := s.userTicks + userTick }

def requestYield : Except Stop (State G U H) :=
  if s.inHandler then
    .ok { s with yieldOnReturn := true }
  else
    .error (.assertion .yieldOnReturn)

def schedule (handler : H) (fromNow : Nat) (type : IntType) : Except Stop (State G U H) :=
  if 0 < fromNow then
    let toOccur := { handler, when := s.totalTicks + fromNow, type }
    .ok { s with pending := sortedInsert toOccur s.pending }
  else
    .error (.assertion .schedule)

/--
`Interrupt::CheckIfDue`. The result is `none` for `FALSE`. For `TRUE` it is the frames that run the handler and then
finish `CheckIfDue`.
-/
def checkIfDue (prog : Program G U H) (advanceClock : Bool)
    : Except Stop (Option (List (Frame U H)) × State G U H) :=
  if s.level = .intOff then
    match s.pending with
    | [] => .ok (none, s)
    | toOccur :: rest =>
      if toOccur.when > s.totalTicks ∧ advanceClock = false then
        -- not time yet, put it back
        .ok (none, { s with pending := sortedInsert toOccur rest })
      else
        -- advance the clock, this does nothing to it if the interrupt is already due
        let idleTicks := s.idleTicks + (toOccur.when - s.totalTicks)
        let totalTicks := max s.totalTicks toOccur.when
        if s.status = .idleMode ∧ toOccur.type = .timerInt ∧ rest = [] then
          .ok (none, { s with pending := sortedInsert toOccur rest, idleTicks, totalTicks })
        else
          let (shared, calls) := prog.handler toOccur.handler s.shared
          let frames := [.handler calls, .endHandler s.status]
          .ok (some frames, { s with pending := rest, idleTicks, totalTicks, shared,
                                     inHandler := true, status := .systemMode })
  else
    .error (.assertion .checkIfDue)

/-! ### `scheduler.cc` -/

def readyToRun (thread : Nat) : State G U H :=
  { s with
    threadStatus := update s.threadStatus thread .ready
    readyList := s.readyList ++ [thread]
    schedLog := s.schedLog ++ [.readyToRun thread] }

def findNextToRun : Option Nat × State G U H :=
  match s.readyList with
  | [] => (none, s)
  | first :: rest => (some first, { s with readyList := rest })

def isFresh (thread : Nat) : Bool :=
  match s.stack thread with
  | .threadRoot _ :: _ => true
  | _ => false

/--
`Scheduler::Run` up to and including `SWITCH`. The caller leaves `runTail` on the stack of the old thread.
-/
def run (nextThread : Nat) : State G U H :=
  { s with
    currentThread := nextThread
    threadStatus := update s.threadStatus nextThread .running
    schedLog := s.schedLog ++ [.dispatch nextThread (s.isFresh nextThread)] }

def deleteThread (thread : Nat) : Except Stop (State G U H) :=
  if thread = s.currentThread then
    .error (.assertion .deleteThread)
  else
    .ok { s with schedLog := s.schedLog ++ [.destroy thread] }

/-! ### `thread.cc` -/

def sleep : Except Stop (State G U H) :=
  if s.level = .intOff then
    .ok { s with threadStatus := update s.threadStatus s.currentThread .blocked }
  else
    .error (.assertion .sleep)

def newThread (func : U) : State G U H :=
  { s with
    numThreads := s.numThreads + 1
    threadStatus := update s.threadStatus s.numThreads .justCreated
    stack := update s.stack s.numThreads [.threadRoot func] }

/-! ### `synch.cc` -/

/--
The loop of `P`, it is entered from the top after every `Sleep`.
-/
def semP (sem : SemId) (oldLevel : IntStatus) : Except Stop (List (Frame U H) × State G U H) :=
  let sema := s.sem sem
  if sema.value = 0 then do
    let queue := sema.queue ++ [s.currentThread]
    let s ← sleep { s with sem := update s.sem sem { sema with queue } }
    return ([.sleepLoop, .pWhile sem oldLevel], s)
  else
    .ok ([.setLevel oldLevel],
      { s with
        sem := update s.sem sem { sema with value := sema.value - 1 }
        syncLog := s.syncLog ++ [.p sem s.currentThread] })

def semWake (sem : SemId) : State G U H :=
  match (s.sem sem).queue with
  | [] => s
  | first :: rest =>
    readyToRun { s with sem := update s.sem sem { s.sem sem with queue := rest } } first

def semV (sem : SemId) : State G U H :=
  let s := s.semWake sem
  { s with
    sem := update s.sem sem { s.sem sem with value := (s.sem sem).value + 1 }
    syncLog := s.syncLog ++ [.v sem s.currentThread] }

def isHeldByCurrentThread (l : Nat) : Bool :=
  s.owner l = some s.currentThread

def condSignal (c : Nat) : State G U H :=
  match s.condQueue c with
  | [] => s
  | first :: rest => readyToRun { s with condQueue := update s.condQueue c rest } first

def condBroadcast (c : Nat) : State G U H :=
  let queue := s.condQueue c
  queue.foldl readyToRun { s with condQueue := update s.condQueue c [] }

end State

structure Arrival (H : Type) where
  handler : H
  fromNow : Nat
  type : IntType
  deriving DecidableEq, Repr

def Arrival.scheduleAll (s : State G U H) : List (Arrival H) → Except Stop (State G U H)
  | [] => .ok s
  | a :: rest => do
    let s ← s.schedule a.handler a.fromNow a.type
    scheduleAll s rest

/--
Execute one frame of the current thread. The result is the frames that replace it, and the state. `arrivals` is what
the devices have scheduled since the last tick.
-/
def exec (prog : Program G U H) (arrivals : List (Arrival H)) (s : State G U H)
    (frame : Frame U H) : Except Stop (List (Frame U H) × State G U H) :=
  match frame with
  | .threadRoot func => .ok ([.setLevel .intOn, .user func, .finish], s)
  | .user u =>
    let (shared, call, u) := prog.code u s.shared
    .ok (call.frames u, { s with shared })
  | .finish => do
    let (_, _, s) ← s.setLevel .intOff
    let s ← State.sleep { s with
      threadToBeDestroyed := some s.currentThread
      schedLog := s.schedLog ++ [.finish s.currentThread s.threadToBeDestroyed] }
    return ([.sleepLoop, .notReached], s)
  | .notReached => .error .stuck
  | .yield => do
    let (oldLevel, _, s) ← s.setLevel .intOff
    match s.findNextToRun with
    | (none, s) => return ([.setLevel oldLevel], s)
    | (some nextThread, s) =>
      return ([.runTail, .setLevel oldLevel], (s.readyToRun s.currentThread).run nextThread)
  | .setLevel now => do
    let (_, frames, s) ← s.setLevel now
    return (frames, s)
  | .oneTick => do
    let s ← Arrival.scheduleAll s arrivals
    return ([.tickDrain s.status], s.advanceTime.changeLevel .intOff)
  | .tickDrain old => do
    match ← s.checkIfDue prog false with
    | (some frames, s) => return (frames ++ [.tickDrain old], s)
    | (none, s) =>
      let s := s.changeLevel .intOn
      if s.yieldOnReturn then
        return ([.yield, .restoreStatus old],
          { s with yieldOnReturn := false, status := .systemMode })
      else
        return ([], s)
  | .restoreStatus old => .ok ([], { s with status := old })
  | .idle => do
    match ← State.checkIfDue { s with status := .idleMode } prog true with
    | (some frames, s) => return (frames ++ [.idleDrain], s)
    | (none, _) => throw .halt
  | .idleDrain => do
    match ← s.checkIfDue prog false with
    | (some frames, s) => return (frames ++ [.idleDrain], s)
    | (none, s) => return ([], { s with yieldOnReturn := false, status := .systemMode })
  | .handler [] => .ok ([], s)
  | .handler (.timerInterruptHandler :: calls) =>
    if s.status = .idleMode then
      .ok ([.handler calls], s)
    else do
      let s ← s.requestYield
      return ([.handler calls], s)
  | .handler (.v n :: calls) => do
    let (oldLevel, _, s) ← s.setLevel .intOff
    return ([.setLevel oldLevel, .handler calls], s.semV (.sem n))
  | .handler (.schedule handler fromNow type :: calls) => do
    let s ← s.schedule handler fromNow type
    return ([.handler calls], s)
  | .endHandler old => .ok ([], { s with status := old, inHandler := false })
  | .sleepLoop =>
    match s.findNextToRun with
    | (none, s) => .ok ([.idle, .sleepLoop], s)
    | (some nextThread, s) => .ok ([.runTail], s.run nextThread)
  | .runTail =>
    match s.threadToBeDestroyed with
    | none => .ok ([], s)
    | some thread => do
      let s ← s.deleteThread thread
      return ([], { s with threadToBeDestroyed := none })
  | .p sem => do
    let (oldLevel, _, s) ← s.setLevel .intOff
    s.semP sem oldLevel
  | .pWhile sem oldLevel => s.semP sem oldLevel
  | .v sem => do
    let (oldLevel, _, s) ← s.setLevel .intOff
    return ([.setLevel oldLevel], s.semV sem)
  | .acquire l =>
    if s.isHeldByCurrentThread l then
      .error (.assertion .acquire)
    else
      .ok ([.p (.lock l), .setOwner l], s)
  | .setOwner l =>
    .ok ([], { s with
      owner := update s.owner l (some s.currentThread)
      syncLog := s.syncLog ++ [.acquired l s.currentThread] })
  | .release l =>
    if s.isHeldByCurrentThread l then
      .ok ([.v (.lock l)], { s with
        owner := update s.owner l none
        syncLog := s.syncLog ++ [.released l s.currentThread] })
    else
      .error (.assertion .release)
  | .wait c l =>
    if s.isHeldByCurrentThread l then
      .ok ([.release l, .waitSleep c l], s)
    else
      .error (.assertion .wait)
  | .waitSleep c l => do
    let queue := s.condQueue c ++ [s.currentThread]
    let s ← State.sleep { s with condQueue := update s.condQueue c queue }
    return ([.sleepLoop, .waitAcquire c l], s)
  | .waitAcquire _ l => .ok ([.acquire l], s)
  | .signal c l =>
    if s.isHeldByCurrentThread l then do
      let (oldLevel, _, s) ← s.setLevel .intOff
      return ([.setLevel oldLevel], s.condSignal c)
    else
      .error (.assertion .signal)
  | .broadcast c l =>
    if s.isHeldByCurrentThread l then do
      let (oldLevel, _, s) ← s.setLevel .intOff
      return ([.setLevel oldLevel], s.condBroadcast c)
    else
      .error (.assertion .broadcast)
  | .fork func => do
    let thread := s.numThreads
    let (oldLevel, _, s) ← (s.newThread func).setLevel .intOff
    return ([.setLevel oldLevel], s.readyToRun thread)
  | .schedule handler fromNow type => do
    let s ← s.schedule handler fromNow type
    return ([], s)

/--
One step of the machine: the topmost frame of the current thread is executed. The frames that it leaves belong to
the thread that executed it, also if that thread got switched out.
-/
def step (prog : Program G U H) (arrivals : List (Arrival H)) (s : State G U H)
    : Except Stop (State G U H) :=
  match s.stack s.currentThread with
  | [] => .error .stuck
  | frame :: rest =>
    match exec prog arrivals s frame with
    | .error stop => .error stop
    | .ok (frames, s') => .ok (s'.setStack s.currentThread (frames ++ rest))

structure System (G U H : Type) extends Program G U H where
  globals : G
  main : U
  value : Nat → Int
  value_nonneg : ∀ n, 0 ≤ value n

theorem System.zero_nonneg (_ : Nat) : (0 : Int) ≤ 0 := Int.le_refl 0

/--
The machine at the end of `Initialize`, right before its call of `interrupt->Enable()`. `pending` is what the
devices have scheduled so far.
-/
def boot (sys : System G U H) (pending : List (PendingInterrupt H)) : State G U H where
  level := .intOff
  inHandler := false
  yieldOnReturn := false
  status := .systemMode
  pending := pending
  totalTicks := 0
  idleTicks := 0
  systemTicks := 0
  userTicks := 0
  currentThread := 0
  readyList := []
  threadToBeDestroyed := none
  numThreads := 1
  threadStatus := update (fun _ => .justCreated) 0 .running
  stack := update (fun _ => []) 0 [.setLevel .intOn, .user sys.main, .finish]
  sem
    | .sem n => ⟨sys.value n, []⟩
    | .lock _ => ⟨1, []⟩
  owner := fun _ => none
  condQueue := fun _ => []
  shared := sys.globals
  syncLog := []
  schedLog := []

def Step (prog : Program G U H) (s s' : State G U H) : Prop :=
  ∃ arrivals, step prog arrivals s = .ok s'

def runFor (prog : Program G U H) : Nat → State G U H → State G U H
  | 0, s => s
  | n + 1, s =>
    match step prog [] s with
    | .error _ => s
    | .ok s' => runFor prog n s'

/-! ### Evaluating runs -/

section

variable {α β : Type}

/--
A field that a step does not change is left as the field of the state before, so reading it takes longer with every
step. These functions pass on the value itself.
-/
def eagerBool (b : Bool) (f : Bool → α) : α :=
  match b with
  | true => f true
  | false => f false

def eagerOption (o : Option β) (f : Option β → α) : α :=
  match o with
  | none => f none
  | some a => f (some a)

def eagerList (l : List β) (f : List β → α) : α :=
  match l with
  | [] => f []
  | a :: rest => f (a :: rest)

def IntStatus.eager (level : IntStatus) (f : IntStatus → α) : α :=
  match level with
  | .intOff => f .intOff
  | .intOn => f .intOn

def MachineStatus.eager (status : MachineStatus) (f : MachineStatus → α) : α :=
  match status with
  | .idleMode => f .idleMode
  | .systemMode => f .systemMode
  | .userMode => f .userMode

@[simp]
theorem eagerBool_eq (b : Bool) (f : Bool → α) : eagerBool b f = f b := by
  cases b <;> rfl

@[simp]
theorem eagerOption_eq (o : Option β) (f : Option β → α) : eagerOption o f = f o := by
  cases o <;> rfl

@[simp]
theorem eagerList_eq (l : List β) (f : List β → α) : eagerList l f = f l := by
  cases l <;> rfl

@[simp]
theorem IntStatus.eager_eq (level : IntStatus) (f : IntStatus → α) : level.eager f = f level := by
  cases level <;> rfl

@[simp]
theorem MachineStatus.eager_eq (status : MachineStatus) (f : MachineStatus → α) : status.eager f = f status := by
  cases status <;> rfl

end

def State.eager (s : State G U H) : State G U H :=
  s.level.eager fun level => s.status.eager fun status =>
    eagerBool s.inHandler fun inHandler => eagerBool s.yieldOnReturn fun yieldOnReturn =>
      eagerList s.pending fun pending => eagerList s.readyList fun readyList =>
        eagerOption s.threadToBeDestroyed fun threadToBeDestroyed =>
          { s with
            level, status, inHandler, yieldOnReturn, pending, readyList, threadToBeDestroyed
            totalTicks := s.totalTicks + 0
            currentThread := s.currentThread + 0
            numThreads := s.numThreads + 0 }

@[simp]
theorem State.eager_eq (s : State G U H) : s.eager = s := by
  simp [State.eager]

def runEager (prog : Program G U H) : Nat → State G U H → State G U H
  | 0, s => s
  | n + 1, s =>
    match step prog [] s with
    | .error _ => s
    | .ok s' => runEager prog n s'.eager

theorem runFor_eq_runEager (prog : Program G U H) (n : Nat) (s : State G U H)
    : runFor prog n s = runEager prog n s := by
  induction n generalizing s with
  | zero => rfl
  | succ n ih =>
    unfold runFor runEager
    split
    next => rfl
    next s' _ => rw [State.eager_eq, ih]

end Nachos
