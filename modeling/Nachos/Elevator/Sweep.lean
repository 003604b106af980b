import Mathlib.Logic.Function.Iterate
import Nachos.Elevator.Safety

/-!
This module contains the way of the elevator: up to the last floor, down to the first one, and so on,
whatever the other threads do.
-/

namespace Nachos.Elevator

open Function (update)

/-! ### The updates of the floor -/

def floorUpdate (s : Globals × Int) : Globals × Int :=
  ({ s.1 with currentFloor := (next s.1 s.2).2.toNat }, (next s.1 s.2).1)

/--
The floor and the direction `p` iterations after a stay on floor 1. On floor 1 itself the direction is the one that
the elevator came with.
-/
def Phase (n p floor : Nat) (dir : Int) : Prop :=
  p = 0 ∧ floor = 1 ∧ (dir = 1 ∨ dir = -1) ∨
    0 < p ∧ p < n ∧ floor = p + 1 ∧ dir = 1 ∨
    n ≤ p ∧ p < 2 * (n - 1) ∧ floor + p = 2 * n - 1 ∧ dir = -1

section

variable {n p floor : Nat} {dir : Int}

theorem Phase.lt (h : Phase n p floor dir) (hn : 2 ≤ n) : p < 2 * (n - 1) := by
  obtain ⟨h, _⟩ | ⟨_, h, _⟩ | ⟨_, h, _⟩ := h <;> omega

theorem Phase.floor_mem (h : Phase n p floor dir) (hn : 2 ≤ n) : 1 ≤ floor ∧ floor ≤ n := by
  obtain ⟨_, h, _⟩ | ⟨_, _, h, _⟩ | ⟨_, _, h, _⟩ := h <;> omega

theorem Phase.floor_eq (h : Phase n p floor dir) (hp : p < n) : floor = p + 1 := by
  obtain ⟨_, h, _⟩ | ⟨_, _, h, _⟩ | ⟨_, _, h, _⟩ := h <;> omega

theorem next_cases (g : Globals) (hn : 2 ≤ g.numFloors) (dir : Int)
    : next g dir =
        if g.currentFloor + dir < 1 then
          (1, 2)
        else if g.currentFloor + dir > g.numFloors then
          (-1, (g.numFloors : Int) - 1)
        else
          (dir, g.currentFloor + dir) := by
  -- The two corrections do not meet: an elevator that turns on floor 1 stays below the last floor.
  unfold next
  by_cases hlow : g.currentFloor + dir < 1
  . simp only [hlow, if_true]
    rw [if_neg (by omega)]
  . simp only [hlow, if_false]

theorem Phase.next {g : Globals} (h : Phase g.numFloors p g.currentFloor dir) (hn : 2 ≤ g.numFloors)
    : (∃ p', (p' = p + 1 ∨ p + 1 = 2 * (g.numFloors - 1) ∧ p' = 0) ∧
        Phase g.numFloors p' (next g dir).2.toNat (next g dir).1) ∧
      ((next g dir).1 = 1 ∨ (next g dir).1 = -1) ∧
      ((next g dir).2.toNat : Int) = g.currentFloor + (next g dir).1 ∧
      ((next g dir).1 ≠ dir → g.currentFloor = 1 ∨ g.currentFloor = g.numFloors) := by
  have hmem := h.floor_mem hn
  unfold Phase at h
  rw [next_cases g hn]
  split
  next hlow =>
    -- turned on floor 1
    have hp : p = 0 := by omega
    refine ⟨⟨1, .inl (by omega), .inr (.inl ⟨by omega, by omega, rfl, rfl⟩)⟩, .inl rfl, ?_, ?_⟩
    . have : g.currentFloor = 1 := by omega
      rw [this]
      rfl
    . intro _
      exact .inl (by omega)
  next hlow =>
    split
    next hhigh =>
      -- turned on the last floor
      have hp : p = g.numFloors - 1 ∧ g.currentFloor = g.numFloors := by omega
      refine ⟨?_, .inr rfl, by dsimp only; omega, fun _ => .inr hp.2⟩
      by_cases htwo : g.numFloors = 2
      . exact ⟨0, .inr ⟨by omega, rfl⟩, .inl ⟨rfl, by dsimp only; omega, .inr rfl⟩⟩
      . exact ⟨p + 1, .inl rfl, .inr (.inr ⟨by omega, by omega, by dsimp only; omega, rfl⟩)⟩
    next hhigh =>
      refine ⟨?_, by dsimp only; omega, by dsimp only; omega, fun hne => absurd rfl hne⟩
      dsimp only
      by_cases hlast : p + 1 = 2 * (g.numFloors - 1)
      . exact ⟨0, .inr ⟨hlast, rfl⟩, .inl ⟨rfl, by omega, by omega⟩⟩
      . refine ⟨p + 1, .inl rfl, ?_⟩
        by_cases hup : p + 1 < g.numFloors
        . exact .inr (.inl ⟨by omega, hup, by omega, by omega⟩)
        . exact .inr (.inr ⟨by omega, by omega, by omega, by omega⟩)

end

variable {g : Globals}

theorem numFloors_iterate (g : Globals) (dir : Int) (k : Nat)
    : (floorUpdate^[k] (g, dir)).1.numFloors = g.numFloors := by
  induction k with
  | zero => rfl
  | succ k ih =>
    rw [Function.iterate_succ_apply']
    exact ih

theorem phase_iterate (hnum : 2 ≤ g.numFloors) (hstart : g.currentFloor = 1) (k : Nat)
    : ∃ q p, k = 2 * (g.numFloors - 1) * q + p ∧
        Phase g.numFloors p (floorUpdate^[k] (g, 1)).1.currentFloor (floorUpdate^[k] (g, 1)).2 := by
  induction k with
  | zero => exact ⟨0, 0, rfl, .inl ⟨rfl, hstart, .inl rfl⟩⟩
  | succ k ih =>
    obtain ⟨q, p, hk, hphase⟩ := ih
    rw [Function.iterate_succ_apply']
    rw [← numFloors_iterate g 1 k] at hphase hnum hk ⊢
    obtain ⟨⟨p', hp, hphase'⟩, _⟩ := hphase.next hnum
    cases hp with
    | inl hp => exact ⟨q, p', by omega, hphase'⟩
    | inr hp => exact ⟨q + 1, p', by rw [Nat.mul_succ]; omega, hphase'⟩

theorem exists_mod_eq {d r : Nat} (hr : r < d) (m : Nat) : ∃ k, m < k ∧ k ≤ m + d ∧ k % d = r := by
  have hdiv := Nat.div_add_mod (m + d - r) d
  have hlt := Nat.mod_lt (m + d - r) (show 0 < d by omega)
  refine ⟨d * ((m + d - r) / d) + r, by omega, by omega, ?_⟩
  rw [Nat.mul_add_mod, Nat.mod_eq_of_lt hr]

theorem exists_iterate_eq (hnum : 2 ≤ g.numFloors) (hstart : g.currentFloor = 1) (m : Nat) {f : Nat} (hf : 1 ≤ f)
    (hle : f ≤ g.numFloors)
    : ∃ k, m < k ∧ k ≤ m + 2 * (g.numFloors - 1) ∧ (floorUpdate^[k] (g, 1)).1.currentFloor = f := by
  obtain ⟨k, hlt, hk, hmod⟩ := exists_mod_eq (show f - 1 < 2 * (g.numFloors - 1) by omega) m
  refine ⟨k, hlt, hk, ?_⟩
  obtain ⟨q, p, heq, hphase⟩ := phase_iterate hnum hstart k
  rw [heq, Nat.mul_add_mod, Nat.mod_eq_of_lt (hphase.lt hnum)] at hmod
  rw [hphase.floor_eq (by omega)]
  omega

/-! ### The thread among the others -/

theorem floorUpdate_congr {a b : Globals × Int} (hnum : a.1.numFloors = b.1.numFloors)
    (hfloor : a.1.currentFloor = b.1.currentFloor) (hdir : a.2 = b.2)
    : (floorUpdate a).1.currentFloor = (floorUpdate b).1.currentFloor ∧
      (floorUpdate a).2 = (floorUpdate b).2 := by
  have hnext : next a.1 a.2 = next b.1 b.2 := by
    unfold next
    rw [hnum, hfloor, hdir]
  exact ⟨congrArg (·.2.toNat) hnext, congrArg Prod.fst hnext⟩

def tour (n k : Nat) : Globals × Int :=
  floorUpdate^[k] ({ Globals.start with numFloors := n }, 1)

def sweep (n k : Nat) : List Nat :=
  (List.range k).map fun i => (tour n (i + 1)).1.currentFloor

theorem tour_succ (n k : Nat) : tour n (k + 1) = floorUpdate (tour n k) :=
  Function.iterate_succ_apply' ..

theorem tour_numFloors (n k : Nat) : (tour n k).1.numFloors = n :=
  numFloors_iterate { Globals.start with numFloors := n } 1 k

theorem iterate_eq_tour (hstart : g.currentFloor = 1) (k : Nat)
    : (floorUpdate^[k] (g, 1)).1.currentFloor = (tour g.numFloors k).1.currentFloor ∧
      (floorUpdate^[k] (g, 1)).2 = (tour g.numFloors k).2 := by
  induction k with
  | zero => exact ⟨hstart, rfl⟩
  | succ k ih =>
    rw [Function.iterate_succ_apply', tour_succ]
    exact floorUpdate_congr ((numFloors_iterate g 1 k).trans (tour_numFloors g.numFloors k).symm) ih.1 ih.2

def Line.arrival : Line → Option Nat
  | .arrivesOn floor => some floor
  | _ => none

def arrivals (g : Globals) : List Nat :=
  g.output.filterMap Line.arrival

/--
`ElevatorMain` has arrived on `k` floors, and has set the current one of the next `ahead` floors.
-/
structure Trip (g : Globals) (k ahead : Nat) (dir : Int) : Prop where
  numFloors : 2 ≤ g.numFloors
  arrivals : arrivals g = sweep g.numFloors k
  currentFloor : g.currentFloor = (tour g.numFloors (k + ahead)).1.currentFloor
  dir : dir = (tour g.numFloors (k + ahead)).2

structure Idle (g : Globals) : Prop where
  arrivals : arrivals g = []
  currentFloor : g.currentFloor = 1

def ElevatorPoint.At (g : Globals) (k : Nat) : ElevatorPoint → Prop
  | .start => Idle g
  | .travel dir _ => Trip g k 1 dir
  | .move dir | .openDoors dir | .getOn dir _ | .getOff dir _ | .advertise dir _ | .wait dir _
  | .closeDoors dir | .loop dir _ => Trip g k 0 dir
  | .shutDown => ∃ dir, Trip g k 0 dir

def Code.At (g : Globals) : Code → Prop
  | .main point => 0 < point.elevators → Idle g
  | .elevatorMain point => ∃ k, point.At g k
  | .personMain _ _ => True

def Toured (g : Globals) : Prop :=
  Idle g ∨ ∃ k ahead dir, ahead ≤ 1 ∧ Trip g k ahead dir

structure Kept (g g' : Globals) : Prop where
  numFloors : g.numFloors ≠ 0 → g'.numFloors = g.numFloors
  currentFloor : g'.currentFloor = g.currentFloor
  arrivals : Elevator.arrivals g' = Elevator.arrivals g

section

variable {g g' : Globals} {k ahead : Nat} {dir : Int} {u : Code} {H : Type}

theorem Kept.trip (h : Kept g g') (htrip : Trip g k ahead dir) : Trip g' k ahead dir := by
  have htwo := htrip.numFloors
  have hnum : g'.numFloors = g.numFloors := h.numFloors (by omega)
  constructor
  case numFloors => exact hnum ▸ htwo
  case arrivals => rw [h.arrivals, hnum, htrip.arrivals]
  case currentFloor => rw [h.currentFloor, hnum, htrip.currentFloor]
  case dir => rw [hnum, htrip.dir]

theorem Kept.idle (h : Kept g g') (hidle : Idle g) : Idle g' :=
  ⟨h.arrivals.trans hidle.arrivals, h.currentFloor.trans hidle.currentFloor⟩

theorem Kept.toured (h : Kept g g') (htoured : Toured g) : Toured g' := by
  obtain hidle | ⟨k, ahead, dir, hle, htrip⟩ := htoured
  . exact .inl (h.idle hidle)
  . exact .inr ⟨k, ahead, dir, hle, h.trip htrip⟩

theorem Kept.code (h : Kept g g') (hat : u.At g) : u.At g' := by
  cases u with
  | personMain => trivial
  | main point => exact fun hpos => h.idle (hat hpos)
  | elevatorMain point =>
    obtain ⟨k, hat⟩ := hat
    refine ⟨k, ?_⟩
    cases point with
    | start => exact h.idle hat
    | shutDown =>
      obtain ⟨dir, htrip⟩ := hat
      exact ⟨dir, h.trip htrip⟩
    | _ => exact h.trip hat

/-! ### One step -/

theorem Code.at_of_elevators_eq_zero (h : u.elevators = 0) : u.At g := by
  cases u with
  | personMain => trivial
  | elevatorMain => cases h
  | main point =>
    intro hpos
    have : point.elevators = 0 := h
    omega

def Rides (k : Nat) (res : Globals × Call Code H × Code) : Prop :=
  ∃ point : ElevatorPoint, res.2.1.codes res.2.2 = [.elevatorMain point] ∧ point.At res.1 k

theorem advertise_rides (h : Trip g k 0 dir) (i : Nat) : Rides (H := H) k (advertise g dir i) := by
  unfold advertise
  split <;> exact ⟨_, rfl, h⟩

theorem getOff_rides (h : Trip g k 0 dir) (i : Nat) : Rides (H := H) k (getOff g dir i) := by
  unfold getOff
  split
  . exact ⟨_, rfl, h⟩
  . exact advertise_rides h 0

theorem getOn_rides (h : Trip g k 0 dir) (i : Nat) : Rides (H := H) k (getOn g dir i) := by
  unfold getOn
  split
  . exact ⟨_, rfl, h⟩
  . exact getOff_rides h 0

theorem Trip.move (h : Trip g k 0 dir)
    : Trip { g with currentFloor := (next g dir).2.toNat } k 1 (next g dir).1 := by
  have hnum : g.numFloors = (tour g.numFloors k).1.numFloors := (tour_numFloors g.numFloors k).symm
  have hnext := floorUpdate_congr (a := (g, dir)) hnum h.currentFloor h.dir
  constructor
  case numFloors => exact h.numFloors
  case arrivals => exact h.arrivals
  case currentFloor => exact hnext.1.trans (by rw [← tour_succ])
  case dir => exact hnext.2.trans (by rw [← tour_succ])

theorem Trip.arrive (h : Trip g k 1 dir)
    : Trip { g with output := g.output ++ [.arrivesOn g.currentFloor] } (k + 1) 0 dir := by
  constructor
  case numFloors => exact h.numFloors
  case arrivals =>
    have harrivals : g.output.filterMap Line.arrival = sweep g.numFloors k := h.arrivals
    unfold Elevator.arrivals
    rw [List.filterMap_append, harrivals, h.currentFloor]
    unfold sweep
    rw [List.range_succ, List.map_append]
    rfl
  case currentFloor => exact h.currentFloor
  case dir => exact h.dir

theorem elevatorMain_rides {point : ElevatorPoint} (hat : point.At g k)
    : ∃ k', Rides (H := H) k' (elevatorMain g point) := by
  cases point with
  | start =>
    refine ⟨0, .move 1, rfl, ?_, ?_, hat.currentFloor, rfl⟩
    . change 2 ≤ if g.numFloors < 2 then 10 else g.numFloors
      split <;> omega
    . exact hat.arrivals
  | move => exact ⟨k, _, rfl, Trip.move hat⟩
  | travel dir i =>
    rw [elevatorMain]
    split
    . exact ⟨k, _, rfl, hat⟩
    . exact ⟨k + 1, _, rfl, Trip.arrive hat⟩
  | openDoors =>
    have hkept : Kept g { g with doorsOpen := true } := ⟨fun _ => rfl, rfl, rfl⟩
    exact ⟨k, getOn_rides (hkept.trip hat) 0⟩
  | getOn _ i => exact ⟨k, getOn_rides hat i⟩
  | getOff _ i => exact ⟨k, getOff_rides hat i⟩
  | advertise _ i => exact ⟨k, advertise_rides hat i⟩
  | wait =>
    rw [elevatorMain]
    split <;> exact ⟨k, _, rfl, hat⟩
  | closeDoors =>
    have hkept : Kept g { g with doorsOpen := false } := ⟨fun _ => rfl, rfl, rfl⟩
    exact ⟨k, _, rfl, hkept.trip hat⟩
  | loop dir shouldStop =>
    rw [elevatorMain]
    split
    . have hkept : Kept g { g with output := g.output ++ [.shuttingDown] } := by
        refine ⟨fun _ => rfl, rfl, ?_⟩
        simp [arrivals, Line.arrival]
      exact ⟨k, _, rfl, dir, hkept.trip hat⟩
    . exact ⟨k, _, rfl, hat⟩
  | shutDown => exact ⟨k, _, rfl, hat⟩

theorem ElevatorPoint.At.toured {point : ElevatorPoint} (hat : point.At g k) : Toured g := by
  cases point with
  | start => exact .inl hat
  | travel => exact .inr ⟨k, 1, _, Nat.le_refl 1, hat⟩
  | shutDown =>
    obtain ⟨dir, htrip⟩ := hat
    exact .inr ⟨k, 0, dir, Nat.zero_le 1, htrip⟩
  | _ => exact .inr ⟨k, 0, _, Nat.zero_le 1, hat⟩

theorem arrivingGoingFromTo_kept (hfresh : Fresh g) (atFloor toFloor : Int)
    : Kept g (arrivingGoingFromTo g atFloor toFloor).1 := by
  obtain ⟨numFloors, floorArriveSem, nextId, heq, _⟩ := arrivingGoingFromTo_of_fresh hfresh atFloor toFloor
  refine ⟨?_, by rw [heq], by rw [heq]; rfl⟩
  intro hne
  exact (initIfNeeded_numFloors g).trans (if_neg hne)

theorem personMain_kept (g : Globals) (p : PersonArgs) (point : PersonPoint)
    : Kept g (personMain (H := H) g p point).1 := by
  cases point with
  | board | leave =>
    rw [personMain]
    split
    . refine ⟨fun _ => rfl, rfl, ?_⟩
      simp [arrivals, Line.arrival]
    . exact ⟨fun _ => rfl, rfl, rfl⟩
  | start =>
    refine ⟨fun _ => rfl, rfl, ?_⟩
    simp [personMain, arrivals, Line.arrival]
  | _ => exact ⟨fun _ => rfl, rfl, rfl⟩

theorem commands_kept (hfresh : Fresh g) (rest : List Command) : Kept g (commands (H := H) g rest).1 := by
  have hnext := commands_cases (H := H) g rest
  generalize commands (H := H) g rest = res at hnext
  cases hnext with
  | arrive active atFloor toFloor =>
    have hfresh' : Fresh { g with spawnerActive := active } := hfresh
    have hkept := arrivingGoingFromTo_kept hfresh' atFloor toFloor
    exact ⟨hkept.numFloors, hkept.currentFloor, hkept.arrivals⟩
  | _ => exact ⟨fun _ => rfl, rfl, rfl⟩

theorem Code.run_kept (hfresh : Fresh g) (hu : u.elevators = 0) : Kept g (u.run (H := H) g).1 := by
  cases u with
  | personMain p point => exact personMain_kept g p point
  | elevatorMain => cases hu
  | main point =>
    cases point with
    | commands rest => exact commands_kept hfresh rest
    | init => cases hu
    | forkElevator => cases hu

theorem Code.at_of_idle (hidle : Idle g) (hu : u.isElevator = true → u.isStart = true) : u.At g := by
  cases u with
  | personMain => trivial
  | main => exact fun _ => hidle
  | elevatorMain point =>
    cases point with
    | start => exact ⟨0, hidle⟩
    | _ => cases hu rfl

theorem commands_at (hfresh : Fresh g) (hidle : Idle g) (rest : List Command)
    : Idle (commands (H := H) g rest).1 ∧
      ∀ v ∈ (commands (H := H) g rest).2.1.codes (commands (H := H) g rest).2.2,
        v.At (commands (H := H) g rest).1 := by
  have hidle' := (commands_kept (H := H) hfresh rest).idle hidle
  have hnext := commands_cases (H := H) g rest
  generalize commands (H := H) g rest = res at hnext hidle' ⊢
  refine ⟨hidle', ?_⟩
  intro v hmem
  refine Code.at_of_idle hidle' ?_
  cases hnext with
  | ret => cases hmem
  | elevator | yield =>
    obtain rfl := List.mem_singleton.mp hmem
    intro h
    cases h
  | arrive active atFloor toFloor rest' =>
    obtain rfl | rfl := List.mem_pair.mp hmem <;> intro h <;> cases h

theorem main_at (hfresh : Fresh g) (hidle : Idle g) (point : MainPoint)
    : Idle (main (H := H) g point).1 ∧
      ∀ v ∈ (main (H := H) g point).2.1.codes (main (H := H) g point).2.2, v.At (main (H := H) g point).1 := by
  cases point with
  | commands rest => exact commands_at hfresh hidle rest
  | init numFloors rest =>
    have hidle' : Idle (initElevator g numFloors) := by
      obtain ⟨numFloors', floorArriveSem, heq, _⟩ := initElevator_of_fresh hfresh numFloors
      rw [heq]
      exact ⟨hidle.arrivals, rfl⟩
    refine ⟨hidle', ?_⟩
    intro v hmem
    obtain rfl := List.mem_singleton.mp hmem
    exact fun _ => hidle'
  | forkElevator rest =>
    refine ⟨hidle, ?_⟩
    intro v hmem
    obtain rfl | rfl := List.mem_pair.mp hmem
    . exact ⟨0, hidle⟩
    . exact fun _ => hidle

theorem Code.At.run (hat : u.At g) (hu : 0 < u.elevators) (hfresh : Fresh g)
    : Toured (u.run (H := H) g).1 ∧
      ∀ v ∈ (u.run (H := H) g).2.1.codes (u.run (H := H) g).2.2, v.At (u.run (H := H) g).1 := by
  cases u with
  | personMain => cases hu
  | main point =>
    obtain ⟨hidle, hcodes⟩ := main_at (H := H) hfresh (hat hu) point
    exact ⟨.inl hidle, hcodes⟩
  | elevatorMain point =>
    obtain ⟨k, hat⟩ := hat
    obtain ⟨k', point', hcodes, hat'⟩ := elevatorMain_rides (H := H) hat
    refine ⟨hat'.toured, ?_⟩
    intro v hmem
    obtain rfl := List.mem_singleton.mp (hcodes ▸ hmem)
    exact ⟨k', hat'⟩

end

/-! ### Whole runs -/

structure Swept (c : Control Globals Code) : Prop where
  codes : ∀ t, t < c.numThreads → ∀ u ∈ c.codes t, u.At c.shared
  toured : Toured c.shared

section

variable {c : Control Globals Code} {t : Nat} {u : Code} {H : Type}

theorem Safe.elevators_eq_zero (h : Safe c) (ht : t < c.numThreads) (hcodes : c.codes t = [u])
    (hu : 0 < u.elevators) {t' : Nat} (ht' : t' < c.numThreads) (hne : t' ≠ t) {v : Code} (hv : v ∈ c.codes t')
    : v.elevators = 0 := by
  have hsum := Control.add_sum_erase numElevators ht
  have hle : numElevators (c.codes t') ≤ ∑ i ∈ (Finset.range c.numThreads).erase t, numElevators (c.codes i) :=
    Finset.single_le_sum (f := fun i => numElevators (c.codes i)) (fun _ _ => Nat.zero_le _)
      (Finset.mem_erase.mpr ⟨hne, Finset.mem_range.mpr ht'⟩)
  have hmem : v.elevators ≤ numElevators (c.codes t') := List.le_sum_of_mem (List.mem_map_of_mem hv)
  have hown : numElevators (c.codes t) = u.elevators := by simp [hcodes, numElevators]
  have := h.elevators
  omega

theorem Swept.user (h : Swept c) (hsafe : Safe c) (ht : t < c.numThreads) (hcodes : c.codes t = [u])
    : Swept { c with
        codes := update c.codes t ((u.run (H := H) c.shared).2.1.codes (u.run (H := H) c.shared).2.2)
        shared := (u.run (H := H) c.shared).1 } := by
  have hat := h.codes t ht u (by simp [hcodes])
  have heffect := Code.effect (H := H) (hsafe.ready ht hcodes) hsafe.fresh hsafe.numFloors
  obtain hzero | hpos := Nat.eq_zero_or_pos u.elevators
  . -- no part of the elevator, which may be anywhere
    have hkept := Code.run_kept (H := H) hsafe.fresh hzero
    refine ⟨?_, hkept.toured h.toured⟩
    intro t' ht' v hv
    dsimp only at hv
    by_cases hne : t' = t
    . subst hne
      rw [Function.update_self] at hv
      have hle := List.le_sum_of_mem (List.mem_map_of_mem (f := Code.elevators) hv)
      have := heffect.elevators
      exact Code.at_of_elevators_eq_zero (by omega)
    . rw [Function.update_of_ne hne] at hv
      exact hkept.code (h.codes t' ht' v hv)
  . -- the elevator, or the main thread on the way to it: nobody else is
    obtain ⟨htoured, hown⟩ := hat.run (H := H) hpos hsafe.fresh
    refine ⟨?_, htoured⟩
    intro t' ht' v hv
    dsimp only at hv
    by_cases hne : t' = t
    . subst hne
      rw [Function.update_self] at hv
      exact hown v hv
    . rw [Function.update_of_ne hne] at hv
      exact Code.at_of_elevators_eq_zero (hsafe.elevators_eq_zero ht hcodes hpos ht' hne hv)

theorem swept_of_reachable {handler : H → List (HandlerCall H)} {rest : List Command}
    (hone : rest.countP Command.isElevator ≤ 1) (h : (system handler rest).ControlReachable c)
    : Swept c := by
  refine Transition.Reachable.invariant (P := Swept) ?_ ?_ h
  . rintro c rfl
    have hidle : Idle Globals.start := ⟨rfl, rfl⟩
    refine ⟨?_, .inl hidle⟩
    intro t ht u hu
    obtain rfl : t = 0 := by simpa [System.controlBoot] using ht
    obtain rfl : u = .main (.commands rest) := by simpa [System.controlBoot, system] using hu
    exact fun _ => hidle
  . intro c c' hreach hswept hstep
    cases hstep with
    | user t u ht hcodes => exact hswept.user (safe_of_reachable hone hreach) ht hcodes
    | interrupt => exact hswept
    | fork t func u ht hcodes =>
      refine ⟨?_, hswept.toured⟩
      intro t' ht' v hv
      obtain ⟨t₀, ht₀, hv₀, _⟩ := Control.mem_fork ht hcodes ht' hv
      exact hswept.codes t₀ ht₀ v hv₀

theorem Toured.floors (h : Toured g) (hstart : g'.currentFloor = 1) (hnum : g.numFloors = g'.numFloors)
    : ∃ k, arrivals g = (List.range k).map (fun i => (floorUpdate^[i + 1] (g', 1)).1.currentFloor) ∧
        (g.currentFloor = (floorUpdate^[k] (g', 1)).1.currentFloor ∨
          g.currentFloor = (floorUpdate^[k + 1] (g', 1)).1.currentFloor) := by
  simp only [(iterate_eq_tour hstart _).1, ← hnum]
  obtain hidle | ⟨k, ahead, dir, hle, htrip⟩ := h
  . exact ⟨0, hidle.arrivals, .inl hidle.currentFloor⟩
  . refine ⟨k, htrip.arrivals, ?_⟩
    obtain rfl | rfl := Nat.le_one_iff_eq_zero_or_eq_one.mp hle
    . exact .inl htrip.currentFloor
    . exact .inr htrip.currentFloor

end

theorem elevator_sweep (g : Globals) (hnum : 2 ≤ g.numFloors) (hstart : g.currentFloor = 1)
    : (∀ k,
        (floorUpdate^[k] (g, 1)).1.numFloors = g.numFloors ∧
        1 ≤ (floorUpdate^[k] (g, 1)).1.currentFloor ∧
        (floorUpdate^[k] (g, 1)).1.currentFloor ≤ g.numFloors ∧
        ((floorUpdate^[k + 1] (g, 1)).2 = 1 ∨ (floorUpdate^[k + 1] (g, 1)).2 = -1) ∧
        ((floorUpdate^[k + 1] (g, 1)).1.currentFloor : Int) =
          (floorUpdate^[k] (g, 1)).1.currentFloor + (floorUpdate^[k + 1] (g, 1)).2 ∧
        ((floorUpdate^[k + 1] (g, 1)).2 ≠ (floorUpdate^[k] (g, 1)).2 →
          (floorUpdate^[k] (g, 1)).1.currentFloor = 1 ∨
            (floorUpdate^[k] (g, 1)).1.currentFloor = g.numFloors)) ∧
      (∀ m f, 1 ≤ f → f ≤ g.numFloors →
        ∃ k, m < k ∧ k ≤ m + 2 * (g.numFloors - 1) ∧ (floorUpdate^[k] (g, 1)).1.currentFloor = f) ∧
      -- the floors of a run are these
      ∀ (H : Type) (handler : H → List (HandlerCall H)) (rest : List Command) (s : State Globals Code H),
        rest.countP Command.isElevator ≤ 1 → (system handler rest).Reachable s →
        s.shared.numFloors = g.numFloors →
        ∃ k, arrivals s.shared = (List.range k).map (fun i => (floorUpdate^[i + 1] (g, 1)).1.currentFloor) ∧
          (s.shared.currentFloor = (floorUpdate^[k] (g, 1)).1.currentFloor ∨
            s.shared.currentFloor = (floorUpdate^[k + 1] (g, 1)).1.currentFloor) := by
  refine ⟨?_, ?_, ?_⟩
  . intro k
    obtain ⟨q, p, _, hphase⟩ := phase_iterate hnum hstart k
    have hmem := hphase.floor_mem hnum
    have hfloors := numFloors_iterate g 1 k
    rw [← hfloors] at hphase
    obtain ⟨_, hdir, hfloor, hturn⟩ := hphase.next (by rw [hfloors]; exact hnum)
    rw [hfloors] at hturn
    rw [Function.iterate_succ_apply']
    exact ⟨hfloors, hmem.1, hmem.2, hdir, hfloor, hturn⟩
  . intro m f hf hle
    exact exists_iterate_eq hnum hstart m hf hle
  . intro H handler rest s hone hreach heq
    exact (swept_of_reachable hone hreach.control).toured.floors hstart heq

theorem elevator_sweep_of_run
    : (∃ k, 5 < k ∧ k ≤ 5 + 2 * (10 - 1) ∧
        (floorUpdate^[k] (initElevator Globals.start 10, 1)).1.currentFloor = 10) ∧
      ∃ k, [2, 3, 2] = (List.range k).map
        (fun i => (floorUpdate^[i + 1] (initElevator Globals.start 3, 1)).1.currentFloor) := by
  constructor
  . have hnum : (initElevator Globals.start 10).numFloors = 10 := rfl
    have h := (elevator_sweep (initElevator Globals.start 10) (by rw [hnum]; decide) rfl).2.1
    rw [hnum] at h
    exact h 5 10 (by decide) (by decide)
  . have hrun : (elevatorRun [.setSpawnerActive true, .elevator 3] [] 1500).shared.numFloors = 3 ∧
        arrivals (elevatorRun [.setSpawnerActive true, .elevator 3] [] 1500).shared = [2, 3, 2] := by
      decide +kernel
    obtain ⟨k, hk, _⟩ := (elevator_sweep (initElevator Globals.start 3) (by decide) rfl).2.2 Unit timeSlicing _ _
      (by decide) (reachable_elevatorRun [.setSpawnerActive true, .elevator 3] [] 1500) hrun.1
    rw [hrun.2] at hk
    exact ⟨k, hk⟩

end Nachos.Elevator
