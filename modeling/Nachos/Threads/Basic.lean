import Mathlib.Logic.Function.Basic
import Mathlib.Logic.Relation

/-!
This module contains the data model of the Nachos kernel: the simulated interrupt hardware, the
thread table with the scheduler's ready list, and the synchronization objects. A thread is named by
a number (its `Thread` object), and is represented by its execution stack: the list of activation
records that are still to be executed, each one a control point of the kernel together with the
locals that are live there.
-/

namespace Nachos

inductive IntStatus where
  | intOff
  | intOn
  deriving DecidableEq, Repr

inductive MachineStatus where
  | idleMode
  | systemMode
  | userMode
  deriving DecidableEq, Repr

inductive IntType where
  | timerInt
  | diskInt
  | consoleWriteInt
  | consoleReadInt
  | networkSendInt
  | networkRecvInt
  deriving DecidableEq, Repr

inductive ThreadStatus where
  | justCreated
  | running
  | ready
  | blocked
  deriving DecidableEq, Repr

inductive SemId where
  | sem (n : Nat)
  | lock (l : Nat)
  deriving DecidableEq, Repr

structure Semaphore where
  value : Int
  queue : List Nat
  deriving DecidableEq, Repr

/--
An entry of the `pending` list. `handler` stands for the pair of `handler` and `arg`.
-/
structure PendingInterrupt (H : Type) where
  handler : H
  when : Nat
  type : IntType
  deriving DecidableEq, Repr

def sortedInsert (item : PendingInterrupt H) : List (PendingInterrupt H) → List (PendingInterrupt H)
  | [] => [item]
  | first :: rest =>
    if item.when < first.when then
      item :: first :: rest
    else
      first :: sortedInsert item rest

inductive HandlerCall (H : Type) where
  | timerInterruptHandler
  | v (s : Nat)
  | schedule (handler : H) (fromNow : Nat) (type : IntType)
  deriving DecidableEq, Repr

inductive Call (U H : Type) where
  | yield
  | setLevel (now : IntStatus)
  | p (s : Nat)
  | v (s : Nat)
  | acquire (l : Nat)
  | release (l : Nat)
  | wait (c l : Nat)
  | signal (c l : Nat)
  | broadcast (c l : Nat)
  | fork (func : U)
  | schedule (handler : H) (fromNow : Nat) (type : IntType)
  | finish
  | ret
  deriving DecidableEq, Repr

/--
The code that runs on top of the kernel. `G` are its global variables, `U` its control points with their locals and
`H` its interrupt handlers. No thread is switched out between two kernel calls, so `code` runs a thread from a
control point up to its next kernel call in one go.
-/
structure Program (G U H : Type) where
  code : U → G → G × Call U H × U
  handler : H → G → G × List (HandlerCall H)

inductive Frame (U H : Type) where
  -- A thread that was forked and never ran, `SWITCH` enters it in `ThreadRoot`.
  | threadRoot (func : U)
  | user (u : U)
  | finish
  -- The rest of `Thread::Finish` after its `Sleep`.
  | notReached
  | yield
  | setLevel (now : IntStatus)
  | oneTick
  -- The `while (CheckIfDue(FALSE))` of `OneTick`.
  | tickDrain (old : MachineStatus)
  -- The `status = old` of `OneTick` after its `Yield`.
  | restoreStatus (old : MachineStatus)
  | idle
  -- The `while (CheckIfDue(FALSE))` of `Idle`.
  | idleDrain
  | handler (calls : List (HandlerCall H))
  -- The rest of `CheckIfDue` after the handler.
  | endHandler (old : MachineStatus)
  | sleepLoop
  -- The rest of `Scheduler::Run` after `SWITCH`.
  | runTail
  | p (s : SemId)
  -- The `while (value == 0)` of `P` after a `Sleep`.
  | pWhile (s : SemId) (oldLevel : IntStatus)
  | v (s : SemId)
  | acquire (l : Nat)
  | setOwner (l : Nat)
  | release (l : Nat)
  | wait (c l : Nat)
  -- The `queue->Append` and the `Sleep` of `Wait`.
  | waitSleep (c l : Nat)
  | waitAcquire (c l : Nat)
  | signal (c l : Nat)
  | broadcast (c l : Nat)
  | fork (func : U)
  | schedule (handler : H) (fromNow : Nat) (type : IntType)
  deriving DecidableEq, Repr

def Call.frames (call : Call U H) (u : U) : List (Frame U H) :=
  match call with
  | .yield => [.yield, .user u]
  | .setLevel now => [.setLevel now, .user u]
  | .p s => [.p (.sem s), .user u]
  | .v s => [.v (.sem s), .user u]
  | .acquire l => [.acquire l, .user u]
  | .release l => [.release l, .user u]
  | .wait c l => [.wait c l, .user u]
  | .signal c l => [.signal c l, .user u]
  | .broadcast c l => [.broadcast c l, .user u]
  | .fork func => [.fork func, .user u]
  | .schedule handler fromNow type => [.schedule handler fromNow type, .user u]
  | .finish => [.finish, .user u]
  | .ret => []

inductive SyncEvent where
  | p (s : SemId) (t : Nat)
  | v (s : SemId) (t : Nat)
  | acquired (l t : Nat)
  | released (l t : Nat)
  deriving DecidableEq, Repr

inductive SchedEvent where
  | readyToRun (t : Nat)
  -- `Scheduler::Run` switched to `t`, which starts in `ThreadRoot` if it is `fresh`.
  | dispatch (t : Nat) (fresh : Bool)
  -- `Thread::Finish` of `t` overwrote a `threadToBeDestroyed` that held `slot`.
  | finish (t : Nat) (slot : Option Nat)
  | destroy (t : Nat)
  deriving DecidableEq, Repr

/--
The state of the machine. The last two fields are histories that no kernel function reads.
-/
structure State (G U H : Type) where
  level : IntStatus
  inHandler : Bool
  yieldOnReturn : Bool
  status : MachineStatus
  pending : List (PendingInterrupt H)
  totalTicks : Nat
  idleTicks : Nat
  systemTicks : Nat
  userTicks : Nat
  currentThread : Nat
  readyList : List Nat
  threadToBeDestroyed : Option Nat
  numThreads : Nat
  threadStatus : Nat → ThreadStatus
  stack : Nat → List (Frame U H)
  sem : SemId → Semaphore
  owner : Nat → Option Nat
  condQueue : Nat → List Nat
  shared : G
  syncLog : List SyncEvent
  schedLog : List SchedEvent

inductive Assertion where
  | setLevel
  | checkIfDue
  | yieldOnReturn
  | schedule
  | sleep
  | deleteThread
  | acquire
  | release
  | wait
  | signal
  | broadcast
  deriving DecidableEq, Repr

/--
Why the machine does not take another step: `Interrupt::Halt`, a failed `ASSERT`, or a frame that never gets
executed.
-/
inductive Stop where
  | halt
  | assertion (a : Assertion)
  | stuck
  deriving DecidableEq, Repr

end Nachos
