import Nachos.Threads.Outcome

/-!
This module contains the programs whose threads do a fixed list of kernel calls, like `LockTestThread`
and `SimpleThread` do.
-/

namespace Nachos

inductive Op where
  | yield
  | setLevel (now : IntStatus)
  | p (n : Nat)
  | v (n : Nat)
  | acquire (l : Nat)
  | release (l : Nat)
  | wait (c l : Nat)
  | signal (c l : Nat)
  | broadcast (c l : Nat)
  | fork (func : Nat)
  deriving DecidableEq, Repr

def Op.call (funcs : List (List Op)) : Op → Call (List Op) H
  | .yield => .yield
  | .setLevel now => .setLevel now
  | .p n => .p n
  | .v n => .v n
  | .acquire l => .acquire l
  | .release l => .release l
  | .wait c l => .wait c l
  | .signal c l => .signal c l
  | .broadcast c l => .broadcast c l
  | .fork func => .fork (funcs.getD func [])

def Op.code (funcs : List (List Op)) : List Op → Call (List Op) H × List Op
  | [] => (.ret, [])
  | op :: rest => (op.call funcs, rest)

def script (handler : H → List (HandlerCall H)) (funcs : List (List Op)) (main : List Op)
    : System Unit (List Op) H where
  code u _ := ((), Op.code funcs u)
  handler h _ := ((), handler h)
  globals := ()
  main := main
  value _ := 0
  value_nonneg := System.zero_nonneg

def timeSlicing : Unit → List (HandlerCall Unit) :=
  fun _ => [.timerInterruptHandler]

def scriptRun (funcs : List (List Op)) (main : List Op) (times : List Nat) (n : Nat)
    : State Unit (List Op) Unit :=
  runFor (script timeSlicing funcs main).toProgram n
    (boot (script timeSlicing funcs main) (times.map fun when => ⟨(), when, .timerInt⟩))

theorem reachable_scriptRun (funcs : List (List Op)) (main : List Op) (times : List Nat) (n : Nat)
    : (script timeSlicing funcs main).Reachable (scriptRun funcs main times n) :=
  System.Reachable.runFor (.init ⟨_, rfl⟩) n

end Nachos
