import Nachos.Synch.Control
import Nachos.Synch.Discipline

/-!
This module contains the elevator of `threadtest.cc`: the global variables, the code of the threads
between their kernel calls, and how the program uses `E_lock`.
-/

namespace Nachos.Elevator

open Function (update)

def capacity : Nat := 5
def maxFloors : Nat := 64

def lock : Nat := 0
def spaceSem : Nat := 0
def arriveSem (f : Nat) : Nat := f + 1

structure PersonArgs where
  id : Nat
  atFloor : Nat
  toFloor : Nat
  deriving DecidableEq, Repr

inductive Line where
  | wantsToGo (id toFloor atFloor : Nat)
  | gotInto (id : Nat)
  | gotOut (id : Nat)
  | arrivesOn (floor : Nat)
  | shuttingDown
  deriving DecidableEq, Repr

/--
`floorArriveSem f` says whether the pointer `floorArriveSem[f]` has been set.
-/
structure Globals where
  numFloors : Nat
  currentFloor : Nat
  doorsOpen : Bool
  onboard : Int
  spawnerActive : Bool
  floorArriveSem : Nat → Bool
  waitingAt : Nat → Int
  wantOffAt : Nat → Int
  nextId : Nat
  output : List Line

def Globals.start : Globals where
  numFloors := 0
  currentFloor := 1
  doorsOpen := false
  onboard := 0
  spawnerActive := false
  floorArriveSem _ := false
  waitingAt _ := 0
  wantOffAt _ := 0
  nextId := 0
  output := []

inductive Command where
  | elevator (numFloors : Int)
  | arrivingGoingFromTo (atFloor toFloor : Int)
  | setSpawnerActive (active : Bool)
  | yield
  deriving DecidableEq, Repr

inductive MainPoint where
  | commands (rest : List Command)
  | init (numFloors : Int) (rest : List Command)
  | forkElevator (rest : List Command)
  deriving DecidableEq, Repr

inductive ElevatorPoint where
  | start
  | move (dir : Int)
  | travel (dir : Int) (i : Nat)
  | openDoors (dir : Int)
  | getOn (dir : Int) (i : Nat)
  | getOff (dir : Int) (i : Nat)
  | advertise (dir : Int) (i : Nat)
  | wait (dir : Int) (i : Nat)
  | closeDoors (dir : Int)
  | loop (dir : Int) (shouldStop : Bool)
  | shutDown
  deriving DecidableEq, Repr

inductive PersonPoint where
  | start
  | register
  | registered
  | arrived
  | board
  | noSpace
  | spaceSignalled
  | boarded
  | arrivedTo
  | leave
  | notYet
  | arrivedAgain
  | left
  | done
  deriving DecidableEq, Repr

/--
The control points of the threads: the start of their functions, and the returns of their calls.
-/
inductive Code where
  | main (point : MainPoint)
  | elevatorMain (point : ElevatorPoint)
  | personMain (p : PersonArgs) (point : PersonPoint)
  deriving DecidableEq, Repr

section

variable {H : Type}

/-! ### `ArrivingGoingFromTo` and `Elevator` -/

def initFloor (g : Globals) (f : Nat) : Globals :=
  if g.floorArriveSem f then
    g
  else
    { g with
      floorArriveSem := update g.floorArriveSem f true
      waitingAt := update g.waitingAt f 0
      wantOffAt := update g.wantOffAt f 0 }

def initFloors (g : Globals) : Globals :=
  (List.range (g.numFloors + 1)).foldl initFloor g

def initIfNeeded (g : Globals) : Globals :=
  initFloors (if g.numFloors = 0 then { g with numFloors := 10 } else g)

def clamp (numFloors : Nat) (floor : Int) : Int :=
  let floor := if floor < 1 then 1 else floor
  if floor > numFloors then numFloors else floor

def arrivingGoingFromTo (g : Globals) (atFloor toFloor : Int) : Globals × PersonArgs :=
  let g := initIfNeeded g
  ({ g with nextId := g.nextId + 1 },
    { id := g.nextId
      atFloor := (clamp g.numFloors atFloor).toNat
      toFloor := (clamp g.numFloors toFloor).toNat })

def initElevator (g : Globals) (numFloors : Int) : Globals :=
  let g :=
    if 2 ≤ numFloors then
      { g with numFloors := if numFloors ≤ maxFloors then numFloors.toNat else maxFloors }
    else
      g
  { initFloors g with currentFloor := 1, doorsOpen := false, onboard := 0 }

def commands (g : Globals) : List Command → Globals × Call Code H × Code
  | [] => (g, .ret, .main (.commands []))
  | .elevator numFloors :: rest => (g, .acquire lock, .main (.init numFloors rest))
  | .arrivingGoingFromTo atFloor toFloor :: rest =>
    ((arrivingGoingFromTo g atFloor toFloor).1,
      .fork (.personMain (arrivingGoingFromTo g atFloor toFloor).2 .start), .main (.commands rest))
  | .setSpawnerActive active :: rest => commands { g with spawnerActive := active } rest
  | .yield :: rest => (g, .yield, .main (.commands rest))

def main (g : Globals) : MainPoint → Globals × Call Code H × Code
  | .commands rest => commands g rest
  | .init numFloors rest => (initElevator g numFloors, .release lock, .main (.forkElevator rest))
  | .forkElevator rest => (g, .fork (.elevatorMain .start), .main (.commands rest))

/-! ### `ElevatorMain` -/

def next (g : Globals) (dir : Int) : Int × Int :=
  let next := g.currentFloor + dir
  let (dir, next) := if next < 1 then (1, 2) else (dir, next)
  if next > g.numFloors then (-1, g.numFloors - 1) else (dir, next)

def anyPending (g : Globals) : Bool :=
  0 < g.onboard || (List.range' 1 g.numFloors).any fun f => 0 < g.waitingAt f || 0 < g.wantOffAt f

/--
The `for` loops of `ElevatorMain` after their first `i` rounds.
-/
def advertise (g : Globals) (dir : Int) (i : Nat) : Globals × Call Code H × Code :=
  if i < capacity then
    (g, .v spaceSem, .elevatorMain (.advertise dir (i + 1)))
  else
    (g, .release lock, .elevatorMain (.wait dir 0))

def getOff (g : Globals) (dir : Int) (i : Nat) : Globals × Call Code H × Code :=
  if i < g.wantOffAt g.currentFloor then
    (g, .v (arriveSem g.currentFloor), .elevatorMain (.getOff dir (i + 1)))
  else
    advertise g dir 0

def getOn (g : Globals) (dir : Int) (i : Nat) : Globals × Call Code H × Code :=
  if i < g.waitingAt g.currentFloor then
    (g, .v (arriveSem g.currentFloor), .elevatorMain (.getOn dir (i + 1)))
  else
    getOff g dir 0

def elevatorMain (g : Globals) : ElevatorPoint → Globals × Call Code H × Code
  | .start =>
    ({ g with numFloors := if g.numFloors < 2 then 10 else g.numFloors }, .acquire lock,
      .elevatorMain (.move 1))
  | .move dir =>
    ({ g with currentFloor := (next g dir).2.toNat }, .release lock,
      .elevatorMain (.travel (next g dir).1 0))
  | .travel dir i =>
    if i < 50 then
      (g, .yield, .elevatorMain (.travel dir (i + 1)))
    else
      ({ g with output := g.output ++ [.arrivesOn g.currentFloor] }, .acquire lock,
        .elevatorMain (.openDoors dir))
  | .openDoors dir => getOn { g with doorsOpen := true } dir 0
  | .getOn dir i => getOn g dir i
  | .getOff dir i => getOff g dir i
  | .advertise dir i => advertise g dir i
  | .wait dir i =>
    if i < 50 then
      (g, .yield, .elevatorMain (.wait dir (i + 1)))
    else
      (g, .acquire lock, .elevatorMain (.closeDoors dir))
  | .closeDoors dir =>
    ({ g with doorsOpen := false }, .release lock,
      .elevatorMain (.loop dir (!g.spawnerActive && !anyPending g)))
  | .loop dir shouldStop =>
    if shouldStop then
      ({ g with output := g.output ++ [.shuttingDown] }, .finish, .elevatorMain .shutDown)
    else
      (g, .acquire lock, .elevatorMain (.move dir))
  -- not reached, `Finish` does not return
  | .shutDown => (g, .finish, .elevatorMain .shutDown)

/-! ### `PersonMain` -/

def personMain (g : Globals) (p : PersonArgs) : PersonPoint → Globals × Call Code H × Code
  | .start =>
    ({ g with output := g.output ++ [.wantsToGo p.id p.toFloor p.atFloor] }, .acquire lock,
      .personMain p .register)
  | .register =>
    ({ g with waitingAt := update g.waitingAt p.atFloor (g.waitingAt p.atFloor + 1) },
      .release lock, .personMain p .registered)
  | .registered => (g, .p (arriveSem p.atFloor), .personMain p .arrived)
  | .arrived => (g, .acquire lock, .personMain p .board)
  | .board =>
    if g.doorsOpen ∧ g.currentFloor = p.atFloor ∧ g.onboard < capacity then
      ({ g with
          onboard := g.onboard + 1
          waitingAt := update g.waitingAt p.atFloor (g.waitingAt p.atFloor - 1)
          wantOffAt := update g.wantOffAt p.toFloor (g.wantOffAt p.toFloor + 1)
          output := g.output ++ [.gotInto p.id] },
        .release lock, .personMain p .boarded)
    else
      (g, .release lock, .personMain p .noSpace)
  | .noSpace => (g, .p spaceSem, .personMain p .spaceSignalled)
  | .spaceSignalled => (g, .acquire lock, .personMain p .board)
  | .boarded => (g, .p (arriveSem p.toFloor), .personMain p .arrivedTo)
  | .arrivedTo => (g, .acquire lock, .personMain p .leave)
  | .leave =>
    if g.doorsOpen ∧ g.currentFloor = p.toFloor then
      ({ g with
          onboard := g.onboard - 1
          wantOffAt := update g.wantOffAt p.toFloor (g.wantOffAt p.toFloor - 1)
          output := g.output ++ [.gotOut p.id] },
        .v spaceSem, .personMain p .left)
    else
      (g, .release lock, .personMain p .notYet)
  | .notYet => (g, .p (arriveSem p.toFloor), .personMain p .arrivedAgain)
  | .arrivedAgain => (g, .acquire lock, .personMain p .leave)
  | .left => (g, .release lock, .personMain p .done)
  | .done => (g, .ret, .personMain p .done)

def Code.run (u : Code) (g : Globals) : Globals × Call Code H × Code :=
  match u with
  | .main point => Elevator.main g point
  | .elevatorMain point => Elevator.elevatorMain g point
  | .personMain p point => Elevator.personMain g p point

def system (handler : H → List (HandlerCall H)) (rest : List Command)
    : System Globals Code H where
  code := Code.run
  handler h g := (g, handler h)
  globals := .start
  main := .main (.commands rest)
  value _ := 0
  value_nonneg := System.zero_nonneg

def elevatorRun (rest : List Command) (times : List Nat) (n : Nat) : State Globals Code Unit :=
  runFor (system timeSlicing rest).toProgram n
    (boot (system timeSlicing rest) (times.map fun when => ⟨(), when, .timerInt⟩))

theorem elevatorRun_eq (rest : List Command) (times : List Nat) (n : Nat)
    : elevatorRun rest times n = runEager (system timeSlicing rest).toProgram n
        (boot (system timeSlicing rest) (times.map fun when => ⟨(), when, .timerInt⟩)) :=
  runFor_eq_runEager _ _ _

theorem reachable_elevatorRun (rest : List Command) (times : List Nat) (n : Nat)
    : (system timeSlicing rest).Reachable (elevatorRun rest times n) :=
  System.Reachable.runFor (.init ⟨_, rfl⟩) n

/-! ### The announcement -/

def ElevatorPoint.isLoop : ElevatorPoint → Bool
  | .getOn _ _ | .getOff _ _ | .advertise _ _ => true
  | _ => false

def calls (q q' k : Nat) : Nat :=
  if q = q' then k else 0

def ElevatorPoint.left (q : Nat) (g : Globals) : ElevatorPoint → Nat
  | .getOn _ i =>
    calls q (arriveSem g.currentFloor) ((g.waitingAt g.currentFloor - i).toNat +
      (g.wantOffAt g.currentFloor).toNat) + calls q spaceSem capacity
  | .getOff _ i =>
    calls q (arriveSem g.currentFloor) (g.wantOffAt g.currentFloor - i).toNat +
      calls q spaceSem capacity
  | .advertise _ i => calls q spaceSem (capacity - i)
  | _ => 0

inductive Announces (g : Globals) (left : Nat → Nat) : Globals × Call Code H × Code → Prop where
  | v (n : Nat) (point : ElevatorPoint) (hloop : point.isLoop = true)
      (hleft : ∀ q, left q = point.left q g + calls q n 1)
    : Announces g left (g, .v n, .elevatorMain point)
  | release (dir : Int) (hleft : ∀ q, left q = 0)
    : Announces g left (g, .release lock, .elevatorMain (.wait dir 0))

theorem advertise_announces (g : Globals) (dir : Int) (i : Nat)
    : Announces (H := H) g (fun q => ElevatorPoint.left q g (.advertise dir i)) (advertise g dir i) := by
  unfold advertise
  split
  next h =>
    refine .v spaceSem (.advertise dir (i + 1)) rfl ?_
    intro q
    simp only [ElevatorPoint.left, calls]
    split <;> omega
  next h =>
    refine .release dir ?_
    intro q
    simp only [ElevatorPoint.left, calls]
    split <;> omega

theorem getOff_announces (g : Globals) (dir : Int) (i : Nat)
    : Announces (H := H) g (fun q => ElevatorPoint.left q g (.getOff dir i)) (getOff g dir i) := by
  unfold getOff
  split
  next h =>
    refine .v _ (.getOff dir (i + 1)) rfl ?_
    intro q
    simp only [ElevatorPoint.left, calls]
    split <;> omega
  next h =>
    have heq : ∀ q, ElevatorPoint.left q g (.getOff dir i) =
        ElevatorPoint.left q g (.advertise dir 0) := by
      intro q
      simp only [ElevatorPoint.left, calls, Nat.sub_zero]
      split <;> omega
    simp only [heq]
    exact advertise_announces g dir 0

theorem getOn_announces (g : Globals) (dir : Int) (i : Nat)
    : Announces (H := H) g (fun q => ElevatorPoint.left q g (.getOn dir i)) (getOn g dir i) := by
  unfold getOn
  split
  next h =>
    refine .v _ (.getOn dir (i + 1)) rfl ?_
    intro q
    simp only [ElevatorPoint.left, calls]
    split <;> omega
  next h =>
    have heq : ∀ q, ElevatorPoint.left q g (.getOn dir i) =
        ElevatorPoint.left q g (.getOff dir 0) := by
      intro q
      simp only [ElevatorPoint.left, calls]
      split <;> omega
    simp only [heq]
    exact getOff_announces g dir 0

/-! ### The use of `E_lock` -/

def Code.held : Code → Bool
  | .main (.init _ _) => true
  | .main _ => false
  | .elevatorMain point =>
    match point with
    | .move _ | .openDoors _ | .getOn _ _ | .getOff _ _ | .advertise _ _ | .closeDoors _ => true
    | _ => false
  | .personMain _ point =>
    match point with
    | .register | .board | .leave | .left => true
    | _ => false

def Respects (held : Bool) (res : Globals × Call Code H × Code) : Prop :=
  res.2.1.Respects lock (fun held u => u.held = held) held res.2.2

theorem commands_respects (g : Globals) (rest : List Command)
    : Respects (H := H) false (commands g rest) := by
  induction rest generalizing g with
  | nil => rfl
  | cons command rest ih =>
    cases command with
    | elevator numFloors => exact ⟨rfl, rfl, rfl⟩
    | arrivingGoingFromTo atFloor toFloor => exact ⟨rfl, rfl⟩
    | setSpawnerActive active => exact ih _
    | yield => rfl

theorem Announces.respects {g : Globals} {left : Nat → Nat} {res : Globals × Call Code H × Code}
    (h : Announces g left res)
    : Respects true res := by
  cases h with
  | v n point hloop =>
    cases point with
    | getOn | getOff | advertise => rfl
    | _ => cases hloop
  | release => exact ⟨rfl, rfl, rfl⟩

theorem elevatorMain_respects (g : Globals) (point : ElevatorPoint)
    : Respects (H := H) (Code.elevatorMain point).held (elevatorMain g point) := by
  cases point with
  | start | move | closeDoors => exact ⟨rfl, rfl, rfl⟩
  | shutDown => rfl
  | openDoors dir => exact (getOn_announces _ dir 0).respects
  | getOn dir i => exact (getOn_announces g dir i).respects
  | getOff dir i => exact (getOff_announces g dir i).respects
  | advertise dir i => exact (advertise_announces g dir i).respects
  | travel dir i =>
    rw [elevatorMain]
    split
    . rfl
    . exact ⟨rfl, rfl, rfl⟩
  | wait dir i =>
    rw [elevatorMain]
    split
    . rfl
    . exact ⟨rfl, rfl, rfl⟩
  | loop dir shouldStop =>
    rw [elevatorMain]
    split
    . rfl
    . exact ⟨rfl, rfl, rfl⟩

theorem personMain_respects (g : Globals) (p : PersonArgs) (point : PersonPoint)
    : Respects (H := H) (Code.personMain p point).held (personMain g p point) := by
  cases point with
  | start | register | arrived | spaceSignalled | arrivedTo | arrivedAgain | left =>
    exact ⟨rfl, rfl, rfl⟩
  | registered | noSpace | boarded | notYet | done => rfl
  | board =>
    rw [personMain]
    split <;> exact ⟨rfl, rfl, rfl⟩
  | leave =>
    rw [personMain]
    split
    . rfl
    . exact ⟨rfl, rfl, rfl⟩

def discipline (handler : H → List (HandlerCall H)) (rest : List Command)
    : Discipline (system handler rest) lock where
  has held u := u.held = held
  main := rfl
  code held u g hu := by
    subst hu
    cases u with
    | main point =>
      cases point with
      | commands rest => exact commands_respects g rest
      | init => exact ⟨rfl, rfl, rfl⟩
      | forkElevator => exact ⟨rfl, rfl⟩
    | elevatorMain point => exact elevatorMain_respects g point
    | personMain p point => exact personMain_respects g p point

end

end Nachos.Elevator
