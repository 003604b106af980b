import Mathlib.Algebra.BigOperators.Ring.Finset
import Nachos.Elevator.Basic

/-!
This module contains the invariant of the elevator: its counters agree with where the persons are in
their code, and the doors are open while the elevator is at certain points of its code.
-/

namespace Nachos.Elevator

open Function (update)

def PersonPoint.waits : PersonPoint → Bool
  | .registered | .arrived | .board | .noSpace | .spaceSignalled => true
  | _ => false

def PersonPoint.rides : PersonPoint → Bool
  | .boarded | .arrivedTo | .leave | .notYet | .arrivedAgain => true
  | _ => false

def ElevatorPoint.isOpen : ElevatorPoint → Bool
  | .getOn _ _ | .getOff _ _ | .advertise _ _ | .wait _ _ | .closeDoors _ => true
  | _ => false

def Command.isElevator : Command → Bool
  | .elevator _ => true
  | _ => false

def MainPoint.elevators : MainPoint → Nat
  | .commands rest => rest.countP Command.isElevator
  | .init _ rest => rest.countP Command.isElevator + 1
  | .forkElevator rest => rest.countP Command.isElevator + 1

namespace Code

def waitsAt (f : Nat) : Code → Bool
  | .personMain p point => p.atFloor = f && point.waits
  | _ => false

def ridesTo (f : Nat) : Code → Bool
  | .personMain p point => p.toFloor = f && point.rides
  | _ => false

def rides : Code → Bool
  | .personMain _ point => point.rides
  | _ => false

def isRiding (p : PersonArgs) : Code → Bool
  | .personMain p' point => p' = p && point.rides
  | _ => false

def isOpen : Code → Bool
  | .elevatorMain point => point.isOpen
  | _ => false

def isElevator : Code → Bool
  | .elevatorMain _ => true
  | _ => false

def isStart : Code → Bool
  | .elevatorMain .start => true
  | .personMain _ .start => true
  | _ => false

def elevators : Code → Nat
  | .main point => point.elevators
  | .elevatorMain _ => 1
  | .personMain _ _ => 0

end Code

/-! ### The floors -/

/--
The counters that `E_InitIfNeeded` resets are zero anyway.
-/
def Fresh (g : Globals) : Prop :=
  ∀ f, g.floorArriveSem f = false → g.waitingAt f = 0 ∧ g.wantOffAt f = 0

theorem initFloor_of_fresh {g : Globals} (h : Fresh g) (f : Nat)
    : initFloor g f = { g with floorArriveSem := update g.floorArriveSem f true } := by
  unfold initFloor
  split
  next hset => rw [← hset, Function.update_eq_self]
  next hset =>
    obtain ⟨hwaiting, hwantOff⟩ := h f (by simpa using hset)
    rw [← hwaiting, Function.update_eq_self, hwaiting, ← hwantOff, Function.update_eq_self]

theorem Fresh.initFloor {g : Globals} (h : Fresh g) (f : Nat) : Fresh (initFloor g f) := by
  rw [initFloor_of_fresh h]
  intro f' hf'
  apply h
  by_cases heq : f' = f
  . simp [heq] at hf'
  . simpa [heq] using hf'

theorem foldl_initFloor_of_fresh {g : Globals} (h : Fresh g) (n : Nat)
    : Fresh ((List.range n).foldl initFloor g) ∧
      (List.range n).foldl initFloor g =
        { g with floorArriveSem := fun f => g.floorArriveSem f || decide (f < n) } := by
  induction n with
  | zero => simpa using h
  | succ n ih =>
    obtain ⟨hfresh, heq⟩ := ih
    rw [List.range_succ, List.foldl_append, List.foldl_cons, List.foldl_nil]
    refine ⟨hfresh.initFloor n, ?_⟩
    rw [initFloor_of_fresh hfresh, heq]
    congr 1
    funext f
    by_cases hf : f = n
    . simp [hf]
    . have : f < n + 1 ↔ f < n := by omega
      simp [hf, this]

theorem initFloors_of_fresh {g : Globals} (h : Fresh g)
    : initFloors g =
        { g with floorArriveSem := fun f => g.floorArriveSem f || decide (f < g.numFloors + 1) } :=
  (foldl_initFloor_of_fresh h (g.numFloors + 1)).2

theorem foldl_initFloor_numFloors (l : List Nat) (g : Globals)
    : (l.foldl initFloor g).numFloors = g.numFloors := by
  induction l generalizing g with
  | nil => rfl
  | cons f l ih =>
    rw [List.foldl_cons, ih]
    unfold initFloor
    split <;> rfl

theorem initIfNeeded_numFloors (g : Globals)
    : (initIfNeeded g).numFloors = if g.numFloors = 0 then 10 else g.numFloors := by
  unfold initIfNeeded initFloors
  rw [foldl_initFloor_numFloors]
  split <;> rfl

theorem clamp_le (n : Nat) (floor : Int) : (clamp n floor).toNat ≤ n := by
  unfold clamp
  dsimp only
  split <;> split <;> omega

theorem initIfNeeded_of_fresh {g : Globals} (h : Fresh g)
    : ∃ numFloors floorArriveSem,
        initIfNeeded g = { g with numFloors := numFloors, floorArriveSem := floorArriveSem } ∧
        (g.numFloors ≤ maxFloors → numFloors ≤ maxFloors) ∧
        (∀ f, g.floorArriveSem f = true → floorArriveSem f = true) ∧
        ∀ f, f ≤ numFloors → floorArriveSem f = true := by
  unfold initIfNeeded
  split
  next =>
    have h' : Fresh { g with numFloors := 10 } := h
    rw [initFloors_of_fresh h']
    refine ⟨10, _, rfl, fun _ => by decide, ?_, ?_⟩
    . intro f hf
      simp [hf]
    . intro f hf
      simp [Nat.lt_succ_of_le hf]
  next =>
    rw [initFloors_of_fresh h]
    refine ⟨g.numFloors, _, rfl, id, ?_, ?_⟩
    . intro f hf
      simp [hf]
    . intro f hf
      simp [Nat.lt_succ_of_le hf]

/-! ### What the code does between two calls -/

structure PersonArgs.Valid (g : Globals) (p : PersonArgs) : Prop where
  at_set : g.floorArriveSem p.atFloor = true
  to_set : g.floorArriveSem p.toFloor = true
  at_le : p.atFloor ≤ maxFloors
  to_le : p.toFloor ≤ maxFloors

open Control (lastIs)

structure Effect (u : Code) (g g' : Globals) (codes : List Code) : Prop where
  waiting : ∀ f, g'.waitingAt f + (u.waitsAt f).toNat =
    g.waitingAt f + lastIs (Code.waitsAt f) codes
  wantOff : ∀ f, g'.wantOffAt f + (u.ridesTo f).toNat =
    g.wantOffAt f + lastIs (Code.ridesTo f) codes
  onboard : g'.onboard + u.rides.toNat = g.onboard + lastIs Code.rides codes
  onboard_le : g.onboard ≤ capacity → g'.onboard ≤ capacity
  doors : g'.doorsOpen.toNat + u.isOpen.toNat =
    g.doorsOpen.toNat + lastIs Code.isOpen codes
  isElevator : u.isElevator.toNat = lastIs Code.isElevator codes
  elevators : (codes.map Code.elevators).sum ≤ u.elevators
  boards : ∀ p, u.isRiding p = false → lastIs (Code.isRiding p) codes = 1 →
    g.doorsOpen = true ∧ g.currentFloor = p.atFloor
  leaves : ∀ p, u.isRiding p = true → lastIs (Code.isRiding p) codes = 0 →
    g.doorsOpen = true ∧ g.currentFloor = p.toFloor
  currentFloor : g.doorsOpen = true → g'.currentFloor = g.currentFloor
  numFloors : g.numFloors ≤ maxFloors → g'.numFloors ≤ maxFloors
  floors : ∀ f, g.floorArriveSem f = true → g'.floorArriveSem f = true
  persons : ∀ p point, .personMain p point ∈ codes →
    (∃ point', u = .personMain p point') ∨ p.Valid g'
  forks : ∀ func u', codes = [func, u'] → func.isStart = true

section

variable {g g' : Globals} {p : PersonArgs} {H : Type}

theorem Effect.doorsOpen {u : Code} {codes : List Code} (h : Effect u g g' codes)
    (hbefore : u.rides = false) (hafter : lastIs Code.rides codes = 1)
    : g.doorsOpen = true := by
  unfold lastIs at hafter
  cases hlast : codes.getLast? with
  | none => simp [hlast] at hafter
  | some u' =>
    cases u' with
    | personMain p point =>
      refine (h.boards p ?_ ?_).1
      . cases u with
        | personMain p' point' =>
          have hnot : point'.rides = false := hbefore
          simp [Code.isRiding, hnot]
        | _ => rfl
      . unfold lastIs
        simpa [hlast, Code.rides, Code.isRiding] using hafter
    | _ => simp [hlast, Code.rides] at hafter

theorem eq_of_mem_person {p p' : PersonArgs} {point point' point'' : PersonPoint}
    (h : Code.personMain p' point'' ∈ [Code.personMain p point'])
    : ∃ point', Code.personMain p point = .personMain p' point' := by
  simp only [List.mem_singleton, Code.personMain.injEq] at h
  exact ⟨point, by rw [h.1]⟩

theorem Effect.person {point point' : PersonPoint} {output : List Line}
    (hwaits : point'.waits = point.waits) (hrides : point'.rides = point.rides)
    : Effect (.personMain p point) g { g with output := output } [.personMain p point'] := by
  constructor
  case persons =>
    intro p' point'' hmem
    exact .inl (eq_of_mem_person hmem)
  case boards =>
    intro p' hbefore hafter
    simp_all [Code.isRiding]
  case leaves =>
    intro p' hbefore hafter
    simp_all [Code.isRiding]
  all_goals simp [Code.waitsAt, Code.ridesTo, Code.rides, Code.isOpen, Code.isElevator, Code.elevators,
    hwaits, hrides]

theorem update_add (count : Nat → Int) (k f : Nat) (d : Int)
    : update count k (count k + d) f = count f + d * (decide (k = f)).toNat := by
  by_cases hf : k = f
  . subst hf
    simp
  . simp [hf, Ne.symm hf]

theorem Effect.register
    : Effect (.personMain p .register) g
        { g with waitingAt := update g.waitingAt p.atFloor (g.waitingAt p.atFloor + 1) }
        [.personMain p .registered] := by
  constructor
  case waiting =>
    intro f
    simp [Code.waitsAt, PersonPoint.waits, update_add]
  case persons =>
    intro p' point'' hmem
    exact .inl (eq_of_mem_person hmem)
  all_goals simp [Code.ridesTo, Code.rides, Code.isRiding, Code.isOpen, Code.isElevator,
    Code.elevators, PersonPoint.rides]

theorem Effect.board {output : List Line} (hopen : g.doorsOpen = true)
    (hfloor : g.currentFloor = p.atFloor) (hspace : g.onboard < capacity)
    : Effect (.personMain p .board) g
        { g with
          onboard := g.onboard + 1
          waitingAt := update g.waitingAt p.atFloor (g.waitingAt p.atFloor - 1)
          wantOffAt := update g.wantOffAt p.toFloor (g.wantOffAt p.toFloor + 1)
          output := output }
        [.personMain p .boarded] := by
  constructor
  case waiting =>
    intro f
    simp [Code.waitsAt, PersonPoint.waits, sub_eq_add_neg, update_add]
  case wantOff =>
    intro f
    simp [Code.ridesTo, PersonPoint.rides, update_add]
  case persons =>
    intro p' point'' hmem
    exact .inl (eq_of_mem_person hmem)
  case onboard_le =>
    intro _
    exact hspace
  case boards =>
    intro p' _ hafter
    have hp : p = p' := by simpa [Code.isRiding, PersonPoint.rides] using hafter
    rw [← hp]
    exact ⟨hopen, hfloor⟩
  all_goals simp [Code.rides, Code.isRiding, Code.isOpen, Code.isElevator, Code.elevators,
    PersonPoint.rides]

theorem Effect.leave {output : List Line} (hopen : g.doorsOpen = true)
    (hfloor : g.currentFloor = p.toFloor)
    : Effect (.personMain p .leave) g
        { g with
          onboard := g.onboard - 1
          wantOffAt := update g.wantOffAt p.toFloor (g.wantOffAt p.toFloor - 1)
          output := output }
        [.personMain p .left] := by
  constructor
  case wantOff =>
    intro f
    simp [Code.ridesTo, PersonPoint.rides, sub_eq_add_neg, update_add]
  case persons =>
    intro p' point'' hmem
    exact .inl (eq_of_mem_person hmem)
  case onboard_le =>
    intro hle
    change g.onboard - 1 ≤ capacity
    omega
  case leaves =>
    intro p' hbefore _
    have hp : p = p' := by simpa [Code.isRiding, PersonPoint.rides] using hbefore
    rw [← hp]
    exact ⟨hopen, hfloor⟩
  all_goals simp [Code.waitsAt, Code.rides, Code.isRiding, Code.isOpen, Code.isElevator, Code.elevators,
    PersonPoint.waits, PersonPoint.rides]

theorem Effect.done : Effect (.personMain p .done) g g [] := by
  constructor
  all_goals simp [Code.waitsAt, Code.ridesTo, Code.rides, Code.isRiding, Code.isOpen, Code.isElevator,
    Code.elevators, PersonPoint.waits, PersonPoint.rides]

theorem personMain_effect (g : Globals) (p : PersonArgs) (point : PersonPoint)
    : Effect (.personMain p point) g (personMain (H := H) g p point).1
        ((personMain (H := H) g p point).2.1.codes (personMain (H := H) g p point).2.2) := by
  cases point with
  | start | registered | arrived | noSpace | spaceSignalled | boarded | arrivedTo | notYet
  | arrivedAgain | left => exact Effect.person rfl rfl
  | done => exact Effect.done
  | register => exact Effect.register
  | board =>
    rw [personMain]
    split
    next h => exact Effect.board h.1 h.2.1 h.2.2
    next => exact Effect.person rfl rfl
  | leave =>
    rw [personMain]
    split
    next h => exact Effect.leave h.1 h.2
    next => exact Effect.person rfl rfl

theorem Effect.elevator {point point' : ElevatorPoint} {numFloors currentFloor : Nat}
    {doorsOpen : Bool} {output : List Line} (hopen : g.doorsOpen = point.isOpen)
    (hopen' : doorsOpen = point'.isOpen) (hnum : g.numFloors ≤ maxFloors → numFloors ≤ maxFloors)
    (hfloor : point.isOpen = true → currentFloor = g.currentFloor)
    : Effect (.elevatorMain point) g
        { g with
          numFloors := numFloors
          currentFloor := currentFloor
          doorsOpen := doorsOpen
          output := output }
        [.elevatorMain point'] := by
  constructor
  case numFloors => exact hnum
  case doors => simp [Code.isOpen, hopen, hopen', Nat.add_comm]
  case currentFloor =>
    rw [hopen]
    exact hfloor
  all_goals simp [Code.waitsAt, Code.ridesTo, Code.rides, Code.isRiding, Code.isElevator, Code.elevators]

theorem Announces.effect {point : ElevatorPoint} {doorsOpen : Bool} {left : Nat → Nat}
    {res : Globals × Call Code H × Code} (h : Announces { g with doorsOpen := doorsOpen } left res)
    (hopen : g.doorsOpen = point.isOpen) (hdoors : doorsOpen = true)
    : Effect (.elevatorMain point) g res.1 (res.2.1.codes res.2.2) := by
  cases h with
  | v n point' hloop =>
    refine Effect.elevator hopen (hdoors.trans ?_) id (fun _ => rfl)
    cases point' with
    | getOn | getOff | advertise => rfl
    | _ => cases hloop
  | release => exact Effect.elevator hopen hdoors id (fun _ => rfl)

theorem elevatorMain_effect (point : ElevatorPoint) (hopen : g.doorsOpen = point.isOpen)
    : Effect (.elevatorMain point) g (elevatorMain (H := H) g point).1
        ((elevatorMain (H := H) g point).2.1.codes (elevatorMain (H := H) g point).2.2) := by
  cases point with
  | start =>
    refine Effect.elevator hopen hopen ?_ (fun _ => rfl)
    intro hle
    split
    . decide
    . exact hle
  | move => exact Effect.elevator hopen hopen id (fun hclosed => by cases hclosed)
  | shutDown => exact Effect.elevator hopen hopen id (fun _ => rfl)
  | closeDoors => exact Effect.elevator hopen rfl id (fun _ => rfl)
  | travel dir i =>
    rw [elevatorMain]
    split <;> exact Effect.elevator hopen hopen id (fun _ => rfl)
  | wait dir i =>
    rw [elevatorMain]
    split <;> exact Effect.elevator hopen hopen id (fun _ => rfl)
  | loop dir shouldStop =>
    rw [elevatorMain]
    split <;> exact Effect.elevator hopen hopen id (fun _ => rfl)
  | openDoors dir => exact (getOn_announces _ dir 0).effect hopen rfl
  | getOn dir i => exact (getOn_announces g dir i).effect hopen hopen
  | getOff dir i => exact (getOff_announces g dir i).effect hopen hopen
  | advertise dir i => exact (advertise_announces g dir i).effect hopen hopen

/--
What the main thread does next, whatever it does to `E_spawnerActive` before.
-/
inductive NextCommand (g : Globals) (rest : List Command) : Globals × Call Code H × Code → Prop where
  | ret (active : Bool)
    : NextCommand g rest ({ g with spawnerActive := active }, .ret, .main (.commands []))
  | elevator (active : Bool) (numFloors : Int) (rest' : List Command)
      (hcount : rest.countP Command.isElevator = rest'.countP Command.isElevator + 1)
    : NextCommand g rest
        ({ g with spawnerActive := active }, .acquire lock, .main (.init numFloors rest'))
  | arrive (active : Bool) (atFloor toFloor : Int) (rest' : List Command)
      (hcount : rest.countP Command.isElevator = rest'.countP Command.isElevator)
    : NextCommand g rest
        ((arrivingGoingFromTo { g with spawnerActive := active } atFloor toFloor).1,
          .fork (.personMain
            (arrivingGoingFromTo { g with spawnerActive := active } atFloor toFloor).2 .start),
          .main (.commands rest'))
  | yield (active : Bool) (rest' : List Command)
      (hcount : rest.countP Command.isElevator = rest'.countP Command.isElevator)
    : NextCommand g rest ({ g with spawnerActive := active }, .yield, .main (.commands rest'))

theorem commands_cases (g : Globals) (rest : List Command)
    : NextCommand (H := H) g rest (commands g rest) := by
  induction rest generalizing g with
  | nil => exact .ret g.spawnerActive
  | cons command rest ih =>
    cases command with
    | elevator numFloors =>
      exact .elevator g.spawnerActive numFloors rest (List.countP_cons_of_pos rfl)
    | arrivingGoingFromTo atFloor toFloor =>
      exact .arrive g.spawnerActive atFloor toFloor rest (by simp [Command.isElevator])
    | yield => exact .yield g.spawnerActive rest (by simp [Command.isElevator])
    | setSpawnerActive active =>
      have hcount : (Command.setSpawnerActive active :: rest).countP Command.isElevator =
          rest.countP Command.isElevator := by
        simp [Command.isElevator]
      rw [commands]
      have hnext := ih { g with spawnerActive := active }
      generalize commands (H := H) { g with spawnerActive := active } rest = res at hnext
      cases hnext with
      | ret active => exact .ret active
      | elevator active numFloors rest' h => exact .elevator active numFloors rest' (hcount.trans h)
      | arrive active atFloor toFloor rest' h =>
        exact .arrive active atFloor toFloor rest' (hcount.trans h)
      | yield active rest' h => exact .yield active rest' (hcount.trans h)

theorem Effect.main {point : MainPoint} {codes : List Code} (hwaiting : g'.waitingAt = g.waitingAt)
    (hwantOff : g'.wantOffAt = g.wantOffAt) (honboard : g'.onboard = g.onboard)
    (hdoors : g'.doorsOpen = g.doorsOpen)
    (hfloor : g.doorsOpen = true → g'.currentFloor = g.currentFloor)
    (hlast : ∀ u, codes.getLast? = some u → ∃ point', u = .main point')
    (helevators : (codes.map Code.elevators).sum ≤ point.elevators)
    (hnum : g.numFloors ≤ maxFloors → g'.numFloors ≤ maxFloors)
    (hfloors : ∀ f, g.floorArriveSem f = true → g'.floorArriveSem f = true)
    (hpersons : ∀ p point, .personMain p point ∈ codes → p.Valid g')
    (hforks : ∀ func u', codes = [func, u'] → func.isStart = true)
    : Effect (.main point) g g' codes := by
  have hzero : ∀ P : Code → Bool, (∀ point', P (.main point') = false) → lastIs P codes = 0 := by
    intro P hP
    unfold lastIs
    cases hcodes : codes.getLast? with
    | none => rfl
    | some u =>
      obtain ⟨point', rfl⟩ := hlast u hcodes
      simp [hP]
  constructor
  case waiting => exact fun f => by simp [hwaiting, hzero (Code.waitsAt f) fun _ => rfl, Code.waitsAt]
  case wantOff => exact fun f => by simp [hwantOff, hzero (Code.ridesTo f) fun _ => rfl, Code.ridesTo]
  case onboard => simp [honboard, hzero Code.rides fun _ => rfl, Code.rides]
  case onboard_le => simp [honboard]
  case doors => simp [hdoors, hzero Code.isOpen fun _ => rfl, Code.isOpen]
  case isElevator => simp [hzero Code.isElevator fun _ => rfl, Code.isElevator]
  case elevators => exact helevators
  case boards => exact fun p => by simp [hzero (Code.isRiding p) fun _ => rfl]
  case leaves => exact fun p => by simp [Code.isRiding]
  case currentFloor => exact hfloor
  case numFloors => exact hnum
  case floors => exact hfloors
  case persons =>
    intro p point' hmem
    exact .inr (hpersons p point' hmem)
  case forks => exact hforks

theorem arrivingGoingFromTo_of_fresh (hfresh : Fresh g) (atFloor toFloor : Int)
    : ∃ numFloors floorArriveSem nextId,
        (arrivingGoingFromTo g atFloor toFloor).1 = { g with
          numFloors := numFloors
          floorArriveSem := floorArriveSem
          nextId := nextId } ∧
        (g.numFloors ≤ maxFloors → numFloors ≤ maxFloors ∧
          (arrivingGoingFromTo g atFloor toFloor).2.Valid (arrivingGoingFromTo g atFloor toFloor).1) ∧
        ∀ f, g.floorArriveSem f = true → floorArriveSem f = true := by
  obtain ⟨numFloors, floorArriveSem, heq, hle, hold, hset⟩ := initIfNeeded_of_fresh hfresh
  unfold arrivingGoingFromTo
  rw [heq]
  refine ⟨numFloors, floorArriveSem, _, rfl, ?_, hold⟩
  intro hnum
  have hat := clamp_le numFloors atFloor
  have hto := clamp_le numFloors toFloor
  exact ⟨hle hnum, hset _ hat, hset _ hto, Nat.le_trans hat (hle hnum), Nat.le_trans hto (hle hnum)⟩

theorem commands_effect (hfresh : Fresh g) (hnum : g.numFloors ≤ maxFloors) (rest : List Command)
    : Effect (.main (.commands rest)) g (commands (H := H) g rest).1
        ((commands (H := H) g rest).2.1.codes (commands (H := H) g rest).2.2) := by
  have hnext := commands_cases (H := H) g rest
  generalize commands (H := H) g rest = res at hnext
  cases hnext with
  | ret active =>
    exact Effect.main rfl rfl rfl rfl (fun _ => rfl) (by simp [Call.codes]) (Nat.zero_le _) id (fun _ => id)
      (by simp [Call.codes]) (by simp [Call.codes])
  | elevator active numFloors rest' hcount =>
    refine Effect.main rfl rfl rfl rfl (fun _ => rfl) ?_ ?_ id (fun _ => id) (by simp [Call.codes])
      (by simp [Call.codes])
    . simp [Call.codes]
    . simp [Call.codes, Code.elevators, MainPoint.elevators, hcount]
  | yield active rest' hcount =>
    refine Effect.main rfl rfl rfl rfl (fun _ => rfl) ?_ ?_ id (fun _ => id) (by simp [Call.codes])
      (by simp [Call.codes])
    . simp [Call.codes]
    . simp [Call.codes, Code.elevators, MainPoint.elevators, hcount]
  | arrive active atFloor toFloor rest' hcount =>
    have hfresh' : Fresh { g with spawnerActive := active } := hfresh
    obtain ⟨numFloors, floorArriveSem, nextId, heq, hvalid, hold⟩ :=
      arrivingGoingFromTo_of_fresh hfresh' atFloor toFloor
    rw [heq] at hvalid ⊢
    refine Effect.main rfl rfl rfl rfl (fun _ => rfl) ?_ ?_ (fun hnum => (hvalid hnum).1) hold ?_ ?_
    . simp [Call.codes]
    . simp [Call.codes, Code.elevators, MainPoint.elevators, hcount]
    . intro p point hmem
      obtain heq | heq : Code.personMain p point = .personMain _ .start ∨
          Code.personMain p point = .main (.commands rest') := by
        simpa [Call.codes] using hmem
      . cases heq
        exact (hvalid hnum).2
      . cases heq
    . intro func u' hcodes
      injection hcodes with hfunc
      rw [← hfunc]
      rfl

theorem initElevator_of_fresh (hfresh : Fresh g) (numFloors : Int)
    : ∃ numFloors' floorArriveSem,
        initElevator g numFloors = { g with
          numFloors := numFloors'
          currentFloor := 1
          doorsOpen := false
          onboard := 0
          floorArriveSem := floorArriveSem } ∧
        (g.numFloors ≤ maxFloors → numFloors' ≤ maxFloors) ∧
        ∀ f, g.floorArriveSem f = true → floorArriveSem f = true := by
  unfold initElevator
  dsimp only
  split
  next =>
    have hfresh' : Fresh { g with
        numFloors := if numFloors ≤ maxFloors then numFloors.toNat else maxFloors } := hfresh
    rw [initFloors_of_fresh hfresh']
    refine ⟨if numFloors ≤ maxFloors then numFloors.toNat else maxFloors, _, rfl, ?_, ?_⟩
    . intro _
      split <;> omega
    . intro f hf
      simp [hf]
  next =>
    rw [initFloors_of_fresh hfresh]
    refine ⟨g.numFloors, _, rfl, id, ?_⟩
    intro f hf
    simp [hf]

def Code.Ready (g : Globals) : Code → Prop
  | .main (.init _ _) => g.onboard = 0 ∧ g.doorsOpen = false
  | .elevatorMain point => g.doorsOpen = point.isOpen
  | _ => True

theorem Code.effect {u : Code} (hready : u.Ready g) (hfresh : Fresh g) (hnum : g.numFloors ≤ maxFloors)
    : Effect u g (u.run (H := H) g).1 ((u.run (H := H) g).2.1.codes (u.run (H := H) g).2.2) := by
  cases u with
  | personMain p point => exact personMain_effect g p point
  | elevatorMain point => exact elevatorMain_effect point hready
  | main point =>
    cases point with
    | commands rest => exact commands_effect hfresh hnum rest
    | init numFloors rest =>
      obtain ⟨honboard, hdoors⟩ := hready
      obtain ⟨numFloors', floorArriveSem, heq, hle, hold⟩ := initElevator_of_fresh hfresh numFloors
      simp only [Code.run, Elevator.main, heq]
      exact Effect.main rfl rfl honboard.symm hdoors.symm (by simp [hdoors]) (by simp [Call.codes])
        (by simp [Call.codes, Code.elevators, MainPoint.elevators]) hle hold (by simp [Call.codes])
        (by simp [Call.codes])
    | forkElevator rest =>
      refine Effect.main rfl rfl rfl rfl (fun _ => rfl) (by simp [Code.run, Elevator.main, Call.codes]) ?_ id
        (fun _ => id) (by simp [Code.run, Elevator.main, Call.codes]) ?_
      . simp [Code.run, Elevator.main, Call.codes, Code.elevators, MainPoint.elevators, Nat.add_comm]
      . intro func u' hcodes
        injection hcodes with hfunc
        rw [← hfunc]
        rfl

end

/-! ### The invariant -/

def numElevators (codes : List Code) : Nat :=
  (codes.map Code.elevators).sum

theorem isElevator_of_isOpen (u : Code) (h : u.isOpen = true) : u.isElevator = true := by
  cases u with
  | elevatorMain => rfl
  | _ => cases h

theorem one_le_of_isElevator (u : Code) (h : u.isElevator = true) : 1 ≤ u.elevators := by
  cases u with
  | elevatorMain => exact Nat.le_refl 1
  | _ => cases h

theorem idle_of_isStart {u : Code} (h : u.isStart = true)
    : (∀ f, u.waitsAt f = false ∧ u.ridesTo f = false) ∧ u.rides = false ∧ u.isOpen = false := by
  unfold Code.isStart at h
  split at h
  . exact ⟨fun _ => ⟨rfl, rfl⟩, rfl, rfl⟩
  . simp [Code.waitsAt, Code.ridesTo, Code.rides, Code.isOpen, PersonPoint.waits, PersonPoint.rides]
  . contradiction

structure Safe (c : Control Globals Code) : Prop where
  persons : ∀ t, t < c.numThreads → ∀ p point, .personMain p point ∈ c.codes t → p.Valid c.shared
  numFloors : c.shared.numFloors ≤ maxFloors
  waiting : ∀ f, c.shared.waitingAt f = c.num (Code.waitsAt f)
  wantOff : ∀ f, c.shared.wantOffAt f = c.num (Code.ridesTo f)
  onboard : c.shared.onboard = c.num Code.rides
  onboard_le : c.shared.onboard ≤ capacity
  doors : c.shared.doorsOpen.toNat = c.num Code.isOpen
  started : 0 < c.num Code.rides → 0 < c.num Code.isElevator
  elevators : c.sum numElevators ≤ 1
  forks : ∀ t, t < c.numThreads → ∀ func u, c.codes t = [func, u] → func.isStart = true

namespace Safe

variable {c : Control Globals Code} {t : Nat} {u : Code} {H : Type}

theorem person_of_label (h : Safe c) (ht : t < c.numThreads) {p : PersonArgs} {point : PersonPoint}
    (hlabel : c.label t = some (.personMain p point))
    : p.Valid c.shared :=
  h.persons t ht p point (List.mem_of_getLast? hlabel)

theorem fresh (h : Safe c) : Fresh c.shared := by
  intro f hf
  rw [h.waiting f, h.wantOff f]
  constructor
  . rw [Control.num_eq_zero]
    . rfl
    . intro t ht u hlabel
      cases u with
      | personMain p point =>
        have hset := (h.person_of_label ht hlabel).at_set
        have hne : p.atFloor ≠ f := by
          rintro rfl
          simp [hset] at hf
        simp [Code.waitsAt, hne]
      | _ => rfl
  . rw [Control.num_eq_zero]
    . rfl
    . intro t ht u hlabel
      cases u with
      | personMain p point =>
        have hset := (h.person_of_label ht hlabel).to_set
        have hne : p.toFloor ≠ f := by
          rintro rfl
          simp [hset] at hf
        simp [Code.ridesTo, hne]
      | _ => rfl

theorem num_le_of_elevators (h : Safe c) (ht : t < c.numThreads) (hcodes : c.codes t = [u])
    (hu : 1 ≤ u.elevators) {P : Code → Bool} (hP : ∀ u, P u = true → 1 ≤ u.elevators)
    : c.num P ≤ (P u).toNat := by
  have hle := Control.sum_add_le (f := lastIs P) (w := numElevators) (Control.lastIs_le hP) ht
  have := h.elevators
  rw [Control.num_eq_sum]
  simp only [hcodes, numElevators, List.map_cons, List.map_nil, List.sum_singleton,
    Control.lastIs_singleton] at hle
  change c.sum (lastIs P) + u.elevators ≤ c.sum numElevators + (P u).toNat at hle
  omega

theorem ready (h : Safe c) (ht : t < c.numThreads) (hcodes : c.codes t = [u]) : u.Ready c.shared := by
  have hopen : ∀ u : Code, u.isOpen = true → 1 ≤ u.elevators :=
    fun u hu => one_le_of_isElevator u (isElevator_of_isOpen u hu)
  cases u with
  | personMain => trivial
  | elevatorMain point =>
    have hle := h.num_le_of_elevators ht hcodes (Nat.le_refl 1) hopen
    have hge := Control.le_sum (lastIs Code.isOpen) ht
    rw [← Control.num_eq_sum, hcodes, Control.lastIs_singleton] at hge
    have hdoors := h.doors
    have heq : c.shared.doorsOpen.toNat = point.isOpen.toNat := hdoors.trans (Nat.le_antisymm hle hge)
    change c.shared.doorsOpen = point.isOpen
    cases hdoors : c.shared.doorsOpen <;> cases hpoint : point.isOpen <;> simp [hdoors, hpoint] at heq ⊢
  | main point =>
    cases point with
    | commands => trivial
    | forkElevator => trivial
    | init numFloors rest =>
      have hinit : 1 ≤ (Code.main (.init numFloors rest)).elevators := Nat.le_add_left ..
      have hnone := h.num_le_of_elevators ht hcodes hinit one_le_of_isElevator
      have hclosed := h.num_le_of_elevators ht hcodes hinit hopen
      have hstarted := h.started
      have honboard := h.onboard
      have hdoors := h.doors
      change c.num Code.isElevator ≤ 0 at hnone
      change c.num Code.isOpen ≤ 0 at hclosed
      constructor
      . omega
      . cases heq : c.shared.doorsOpen with
        | false => rfl
        | true =>
          rw [heq, Bool.toNat_true] at hdoors
          omega

theorem user (h : Safe c) (ht : t < c.numThreads) (hcodes : c.codes t = [u])
    : Safe { c with
        codes := update c.codes t ((u.run (H := H) c.shared).2.1.codes (u.run (H := H) c.shared).2.2)
        shared := (u.run (H := H) c.shared).1 } := by
  have heffect := Code.effect (H := H) (h.ready ht hcodes) h.fresh h.numFloors
  generalize (u.run (H := H) c.shared).2.1.codes (u.run (H := H) c.shared).2.2 = codes at heffect ⊢
  generalize (u.run (H := H) c.shared).1 = g' at heffect ⊢
  have hnum : ∀ P, (Control.mk c.numThreads (update c.codes t codes) g').num P + (P u).toNat =
      c.num P + lastIs P codes := by
    intro P
    have := Control.num_update P ht codes g'
    rw [hcodes, Control.lastIs_singleton] at this
    exact this
  constructor
  case persons =>
    intro t' ht' p point hmem
    have hvalid : p.Valid c.shared → p.Valid g' := by
      rintro ⟨hat, hto, hat_le, hto_le⟩
      exact ⟨heffect.floors _ hat, heffect.floors _ hto, hat_le, hto_le⟩
    dsimp only at hmem
    by_cases hne : t' = t
    . subst hne
      rw [Function.update_self] at hmem
      obtain ⟨point', rfl⟩ | hnew := heffect.persons p point hmem
      . exact hvalid (h.persons t' ht' p point' (by simp [hcodes]))
      . exact hnew
    . rw [Function.update_of_ne hne] at hmem
      exact hvalid (h.persons t' ht' p point hmem)
  case numFloors => exact heffect.numFloors h.numFloors
  case waiting =>
    intro f
    have := hnum (Code.waitsAt f)
    have := heffect.waiting f
    have := h.waiting f
    dsimp only
    omega
  case wantOff =>
    intro f
    have := hnum (Code.ridesTo f)
    have := heffect.wantOff f
    have := h.wantOff f
    dsimp only
    omega
  case onboard =>
    have := hnum Code.rides
    have := heffect.onboard
    have := h.onboard
    dsimp only
    omega
  case onboard_le => exact heffect.onboard_le h.onboard_le
  case doors =>
    have := hnum Code.isOpen
    have := heffect.doors
    have := h.doors
    dsimp only
    omega
  case started =>
    intro hrides
    have hrides_num := hnum Code.rides
    have helevator_num := hnum Code.isElevator
    have hsame := heffect.isElevator
    by_cases hboards : u.rides = false ∧ lastIs Code.rides codes = 1
    . -- somebody got in, so the doors are open
      have hopen := heffect.doorsOpen hboards.1 hboards.2
      have hdoors := h.doors
      have hle : c.num Code.isOpen ≤ c.num Code.isElevator := Control.num_mono isElevator_of_isOpen
      rw [hopen, Bool.toNat_true] at hdoors
      omega
    . have hlast := Control.lastIs_le_one Code.rides codes
      have hstarted := h.started
      cases hu : u.rides with
      | false =>
        have hzero : lastIs Code.rides codes ≠ 1 := fun hone => hboards ⟨hu, hone⟩
        simp only [hu, Bool.toNat_false] at hrides_num
        omega
      | true =>
        simp only [hu, Bool.toNat_true] at hrides_num
        omega
  case elevators =>
    have := Control.sum_update numElevators ht codes g'
    have helevators : numElevators codes ≤ numElevators (c.codes t) := by
      rw [hcodes]
      exact heffect.elevators
    have := h.elevators
    omega
  case forks =>
    intro t' ht' func u' hcodes'
    dsimp only at hcodes'
    by_cases hne : t' = t
    . subst hne
      rw [Function.update_self] at hcodes'
      exact heffect.forks func u' hcodes'
    . rw [Function.update_of_ne hne] at hcodes'
      exact h.forks t' ht' func u' hcodes'

theorem fork (h : Safe c) (ht : t < c.numThreads) {func : Code} (hcodes : c.codes t = [func, u])
    : Safe { c with
        numThreads := c.numThreads + 1
        codes := update (update c.codes c.numThreads [func]) t [u] } := by
  obtain ⟨hcounters, hrides, hopen⟩ := idle_of_isStart (h.forks t ht func u hcodes)
  have hnum := fun P => Control.num_fork P ht hcodes c.shared
  have hzero : ∀ P : Code → Bool, P func = false →
      (Control.mk (c.numThreads + 1) (update (update c.codes c.numThreads [func]) t [u]) c.shared).num P =
        c.num P := by
    intro P hP
    rw [hnum P, hP]
    rfl
  constructor
  case persons =>
    intro t' ht' p point hmem
    obtain ⟨t₀, ht₀, hmem₀, _⟩ := Control.mem_fork ht hcodes ht' hmem
    exact h.persons t₀ ht₀ p point hmem₀
  case numFloors => exact h.numFloors
  case waiting =>
    intro f
    rw [hzero _ (hcounters f).1]
    exact h.waiting f
  case wantOff =>
    intro f
    rw [hzero _ (hcounters f).2]
    exact h.wantOff f
  case onboard =>
    rw [hzero _ hrides]
    exact h.onboard
  case onboard_le => exact h.onboard_le
  case doors =>
    rw [hzero _ hopen]
    exact h.doors
  case started =>
    rw [hzero _ hrides, hnum]
    intro hpos
    have := h.started hpos
    omega
  case elevators =>
    have hsum := Control.sum_fork numElevators ht func [u] c.shared
    have hadd : numElevators (c.codes t) = numElevators [func] + numElevators [u] := by
      simp [hcodes, numElevators]
    have := h.elevators
    omega
  case forks =>
    intro t' ht' func' u' hcodes'
    dsimp only at hcodes'
    obtain ⟨t₀, ht₀, _, hsame⟩ := Control.mem_fork ht hcodes ht' (v := u') (by simp [hcodes'])
    rw [hcodes'] at hsame
    refine h.forks t₀ ht₀ func' u' ?_
    simpa [eq_comm] using hsame

end Safe

theorem safe_boot {H : Type} (handler : H → List (HandlerCall H)) {rest : List Command}
    (hone : rest.countP Command.isElevator ≤ 1)
    : Safe (system handler rest).controlBoot := by
  have hnum : ∀ P : Code → Bool, P (.main (.commands rest)) = false →
      (system handler rest).controlBoot.num P = 0 := by
    intro P hP
    apply Control.num_eq_zero
    intro t ht u hlabel
    have : t = 0 := by simpa [System.controlBoot] using ht
    subst this
    have hu : u = .main (.commands rest) := by
      simpa [System.controlBoot, Control.label, system, eq_comm] using hlabel
    rw [hu, hP]
  constructor
  case waiting =>
    intro f
    rw [hnum (Code.waitsAt f) rfl]
    rfl
  case wantOff =>
    intro f
    rw [hnum (Code.ridesTo f) rfl]
    rfl
  case onboard =>
    rw [hnum Code.rides rfl]
    rfl
  case doors =>
    rw [hnum Code.isOpen rfl]
    rfl
  case started =>
    rw [hnum Code.rides rfl]
    intro hpos
    contradiction
  case elevators =>
    simpa [Control.sum, System.controlBoot, numElevators, Code.elevators, MainPoint.elevators, system]
      using hone
  all_goals simp [System.controlBoot, system, Globals.start]

theorem safe_of_reachable {H : Type} {handler : H → List (HandlerCall H)} {rest : List Command}
    (hone : rest.countP Command.isElevator ≤ 1) {c : Control Globals Code}
    (h : (system handler rest).ControlReachable c)
    : Safe c := by
  refine Transition.Reachable.invariant (P := Safe) ?_ ?_ h
  . rintro c rfl
    exact safe_boot handler hone
  . intro c c' _ hsafe hstep
    cases hstep with
    | user t u ht hcodes => exact hsafe.user ht hcodes
    | fork t func u ht hcodes => exact hsafe.fork ht hcodes
    | interrupt => exact hsafe

theorem Safe.sum_wantOff {c : Control Globals Code} (h : Safe c)
    : c.shared.onboard = ∑ f ∈ Finset.range (maxFloors + 1), c.shared.wantOffAt f := by
  simp only [h.onboard, h.wantOff]
  rw [Control.num_eq_sum_num (Q := Code.ridesTo)]
  . exact Nat.cast_sum ..
  . intro t ht u hlabel
    cases u with
    | personMain p point =>
      have hle := (h.person_of_label ht hlabel).to_le
      rw [Finset.sum_eq_single p.toFloor]
      . simp [Code.rides, Code.ridesTo]
      . intro f _ hne
        simp [Code.ridesTo, Ne.symm hne]
      . intro hnot
        exact absurd (Finset.mem_range.mpr (Nat.lt_succ_of_le hle)) hnot
    | _ => simp [Code.rides, Code.ridesTo]

def IsAboard (c : Control Globals Code) (t : Nat) (p : PersonArgs) : Prop :=
  t < c.numThreads ∧ (c.label t).any (Code.isRiding p) = true

theorem Safe.step {H : Type} {handler : H → List (HandlerCall H)} {rest : List Command}
    {c c' : Control Globals Code} (h : Safe c)
    (hstep : Control.Step (system handler rest).toProgram c c')
    : (∀ t p, ¬IsAboard c t p → IsAboard c' t p →
        c.shared.doorsOpen = true ∧ c.shared.currentFloor = p.atFloor) ∧
      (∀ t p, IsAboard c t p → ¬IsAboard c' t p →
        c.shared.doorsOpen = true ∧ c.shared.currentFloor = p.toFloor) ∧
      (c.shared.doorsOpen = true → c'.shared.currentFloor = c.shared.currentFloor) := by
  cases hstep with
  | interrupt =>
    refine ⟨?_, ?_, fun _ => rfl⟩
    . intro t p hbefore hafter
      exact absurd hafter hbefore
    . intro t p hbefore hafter
      exact absurd hbefore hafter
  | user t u ht hcodes =>
    have heffect := Code.effect (H := H) (h.ready ht hcodes) h.fresh h.numFloors
    refine ⟨?_, ?_, heffect.currentFloor⟩
    . intro t' p hbefore hafter
      have hlabel := hafter.2
      by_cases hne : t' = t
      . subst hne
        refine heffect.boards p ?_ ?_
        . simpa [IsAboard, ht, Control.label, hcodes] using hbefore
        . simp only [Control.label, Function.update_self] at hlabel
          exact congrArg Bool.toNat hlabel
      . simp only [Control.label, Function.update_of_ne hne] at hlabel
        exact absurd ⟨hafter.1, hlabel⟩ hbefore
    . intro t' p hbefore hafter
      by_cases hne : t' = t
      . subst hne
        refine heffect.leaves p ?_ ?_
        . simpa [Control.label, hcodes] using hbefore.2
        . simp only [IsAboard, Control.label, Function.update_self] at hafter
          exact congrArg Bool.toNat (Bool.eq_false_of_not_eq_true fun hlabel => hafter ⟨ht, hlabel⟩)
      . refine absurd ?_ hafter
        refine ⟨hbefore.1, ?_⟩
        simp only [Control.label, Function.update_of_ne hne]
        exact hbefore.2
  | fork t func u ht hcodes =>
    have hidle := (idle_of_isStart (h.forks t ht func u hcodes)).2.1
    have hlabel : ∀ t', t' < c.numThreads →
        (update (update c.codes c.numThreads [func]) t [u] t').getLast? = c.label t' := by
      intro t' ht'
      by_cases hne : t' = t
      . subst hne
        simp [Control.label, hcodes]
      . simp [Control.label, hne, Nat.ne_of_lt ht']
    refine ⟨?_, ?_, fun _ => rfl⟩
    . intro t' p hbefore hafter
      obtain ⟨hlt, hafter⟩ := hafter
      by_cases hold : t' < c.numThreads
      . simp only [Control.label, hlabel t' hold] at hafter
        exact absurd ⟨hold, hafter⟩ hbefore
      . have hnew : t' = c.numThreads := by
          change t' < c.numThreads + 1 at hlt
          omega
        subst hnew
        simp only [Control.label, Function.update_of_ne (Nat.ne_of_gt ht), Function.update_self,
          List.getLast?_singleton, Option.any_some] at hafter
        cases func with
        | personMain p' point =>
          have hnot : point.rides = false := hidle
          simp [Code.isRiding, hnot] at hafter
        | _ => cases hafter
    . intro t' p hbefore hafter
      refine absurd ⟨Nat.lt_succ_of_lt hbefore.1, ?_⟩ hafter
      simp only [Control.label, hlabel t' hbefore.1]
      exact hbefore.2

theorem elevator_safety {H : Type} {handler : H → List (HandlerCall H)} {rest : List Command}
    (hone : rest.countP Command.isElevator ≤ 1) {s : State Globals Code H}
    (h : (system handler rest).Reachable s)
    : (s.shared.onboard = s.control.num Code.rides ∧ 0 ≤ s.shared.onboard ∧
        s.shared.onboard ≤ capacity) ∧
      (∀ f, s.shared.waitingAt f = s.control.num (Code.waitsAt f)) ∧
      (∀ f, s.shared.wantOffAt f = s.control.num (Code.ridesTo f)) ∧
      s.shared.onboard = ∑ f ∈ Finset.range (maxFloors + 1), s.shared.wantOffAt f ∧
      ∀ s', Step (system handler rest).toProgram s s' →
        (∀ t p, ¬IsAboard s.control t p → IsAboard s'.control t p →
          s.shared.doorsOpen = true ∧ s.shared.currentFloor = p.atFloor) ∧
        (∀ t p, IsAboard s.control t p → ¬IsAboard s'.control t p →
          s.shared.doorsOpen = true ∧ s.shared.currentFloor = p.toFloor) ∧
        (s.shared.doorsOpen = true → s'.shared.currentFloor = s.shared.currentFloor) := by
  have hsafe := safe_of_reachable hone h.control
  have honboard := hsafe.onboard
  refine ⟨⟨honboard, ?_, hsafe.onboard_le⟩, hsafe.waiting, hsafe.wantOff, hsafe.sum_wantOff, ?_⟩
  . change 0 ≤ s.control.shared.onboard
    omega
  . intro s' hstep
    cases h.control_step hstep with
    | inl heq =>
      rw [heq]
      refine ⟨?_, ?_, fun _ => congrArg (·.shared.currentFloor) heq⟩
      . intro t p hbefore hafter
        exact absurd hafter hbefore
      . intro t p hbefore hafter
        exact absurd hbefore hafter
    | inr hcontrol => exact hsafe.step hcontrol

theorem elevator_safety_boarded
    : (elevatorRun [.elevator 3, .arrivingGoingFromTo 2 3] [] 400).shared.onboard = 1 ∧
      (elevatorRun [.elevator 3, .arrivingGoingFromTo 2 3] [] 400).control.num Code.rides = 1 := by
  have honboard : (elevatorRun [.elevator 3, .arrivingGoingFromTo 2 3] [] 400).shared.onboard = 1 := by
    decide +kernel
  have hsafe := (elevator_safety (by decide)
    (reachable_elevatorRun [.elevator 3, .arrivingGoingFromTo 2 3] [] 400)).1.1
  rw [honboard] at hsafe
  refine ⟨honboard, ?_⟩
  omega

end Nachos.Elevator
