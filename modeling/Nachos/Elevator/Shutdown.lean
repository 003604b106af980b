import Nachos.Elevator.Safety

/-!
This module contains the end of the elevator. `ElevatorMain` leaves its loop if its counters say that
nobody is waiting or on board. This takes everybody into account if all persons have registered.
-/

namespace Nachos.Elevator

open Function (update)

def elevatorProgram (numFloors : Int) (calls : List (Int × Int)) : List Command :=
  .elevator numFloors :: calls.map fun call => .arrivingGoingFromTo call.1 call.2

def Command.isArriving : Command → Bool
  | .arrivingGoingFromTo _ _ => true
  | _ => false

def MainPoint.isPart : MainPoint → Bool
  | .commands (.elevator _ :: rest) => rest.all Command.isArriving
  | .commands rest => rest.all Command.isArriving
  | .init _ rest => rest.all Command.isArriving
  | .forkElevator rest => rest.all Command.isArriving

def MainPoint.isAhead : MainPoint → Bool
  | .commands (.elevator _ :: _) => true
  | .init _ _ => true
  | _ => false

namespace Code

def isPending : Code → Bool
  | .main (.commands []) => false
  | .main _ => true
  | .elevatorMain _ => false
  | .personMain _ .start | .personMain _ .register => true
  | .personMain _ _ => false

def isSettled : Code → Bool
  | .main (.commands []) => true
  | .main _ => false
  | .elevatorMain _ => true
  | .personMain _ .left | .personMain _ .done => true
  | .personMain _ _ => false

def hasStopped : Code → Bool
  | .elevatorMain (.loop _ shouldStop) => shouldStop
  | .elevatorMain .shutDown => true
  | _ => false

end Code

/-! ### The floors of the persons -/

structure PersonArgs.Inside (g : Globals) (p : PersonArgs) : Prop where
  one_le_at : 1 ≤ p.atFloor
  at_le : p.atFloor ≤ g.numFloors
  one_le_to : 1 ≤ p.toFloor
  to_le : p.toFloor ≤ g.numFloors

theorem PersonArgs.Inside.mono {g g' : Globals} {p : PersonArgs} (h : p.Inside g)
    (hle : g.numFloors ≤ g'.numFloors)
    : p.Inside g' :=
  ⟨h.one_le_at, Nat.le_trans h.at_le hle, h.one_le_to, Nat.le_trans h.to_le hle⟩

theorem one_le_clamp {n : Nat} (h : 1 ≤ n) (floor : Int) : 1 ≤ (clamp n floor).toNat := by
  unfold clamp
  dsimp only
  split <;> split <;> omega

structure Fitted (u : Code) (g g' : Globals) (codes : List Code) : Prop where
  numFloors : g.numFloors ≤ g'.numFloors
  persons : ∀ p point, .personMain p point ∈ codes →
    (∃ point', u = .personMain p point' ∧ codes = [.personMain p point]) ∨
      (point = .start ∧ p.Inside g')
  isPart : ∀ point, .main point ∈ codes → point.isPart = true
  isAhead : ∀ point, .main point ∈ codes → point.isAhead = true →
    codes = [.main point] ∧ g'.numFloors = g.numFloors ∧ ∃ point', u = .main point' ∧ point'.isAhead = true

section

variable {g g' : Globals} {p : PersonArgs} {H : Type}

theorem Fitted.elevator {point point' : ElevatorPoint} (hle : g.numFloors ≤ g'.numFloors)
    : Fitted (.elevatorMain point) g g' [.elevatorMain point'] := by
  constructor
  case numFloors => exact hle
  all_goals simp

theorem Fitted.person {point point' : PersonPoint} (heq : g'.numFloors = g.numFloors)
    : Fitted (.personMain p point) g g' [.personMain p point'] := by
  constructor
  case numFloors => exact Nat.le_of_eq heq.symm
  case persons =>
    intro p' point'' hmem
    left
    simp only [List.mem_singleton, Code.personMain.injEq] at hmem
    exact ⟨point, by rw [hmem.1], by rw [hmem.1, hmem.2]⟩
  all_goals simp

theorem personMain_fitted (g : Globals) (p : PersonArgs) (point : PersonPoint)
    : Fitted (.personMain p point) g (personMain (H := H) g p point).1
        ((personMain (H := H) g p point).2.1.codes (personMain (H := H) g p point).2.2) := by
  cases point with
  | board | leave =>
    rw [personMain]
    split <;> exact Fitted.person rfl
  | done => exact ⟨Nat.le_refl _, by simp [personMain, Call.codes], by simp [personMain, Call.codes],
      by simp [personMain, Call.codes]⟩
  | _ => exact Fitted.person rfl

theorem Announces.fitted {point : ElevatorPoint} {left : Nat → Nat}
    {res : Globals × Call Code H × Code} (h : Announces g' left res)
    (heq : g'.numFloors = g.numFloors)
    : Fitted (.elevatorMain point) g res.1 (res.2.1.codes res.2.2) := by
  cases h with
  | v => exact Fitted.elevator (Nat.le_of_eq heq.symm)
  | release => exact Fitted.elevator (Nat.le_of_eq heq.symm)

theorem elevatorMain_fitted (g : Globals) (point : ElevatorPoint)
    : Fitted (.elevatorMain point) g (elevatorMain (H := H) g point).1
        ((elevatorMain (H := H) g point).2.1.codes (elevatorMain (H := H) g point).2.2) := by
  cases point with
  | start =>
    refine Fitted.elevator ?_
    rw [elevatorMain]
    dsimp only
    split <;> omega
  | move | closeDoors | shutDown => exact Fitted.elevator (Nat.le_refl _)
  | travel | wait | loop =>
    rw [elevatorMain]
    split <;> exact Fitted.elevator (Nat.le_refl _)
  | openDoors dir => exact (getOn_announces _ dir 0).fitted rfl
  | getOn dir i => exact (getOn_announces g dir i).fitted rfl
  | getOff dir i => exact (getOff_announces g dir i).fitted rfl
  | advertise dir i => exact (advertise_announces g dir i).fitted rfl

theorem Fitted.main {point point' : MainPoint} (hle : g.numFloors ≤ g'.numFloors)
    (hpart : point'.isPart = true)
    (hahead : point'.isAhead = true → g'.numFloors = g.numFloors ∧ point.isAhead = true)
    : Fitted (.main point) g g' [.main point'] := by
  constructor
  case numFloors => exact hle
  case persons => simp
  case isPart =>
    intro point'' hmem
    obtain rfl : point'' = point' := by simpa using hmem
    exact hpart
  case isAhead =>
    intro point'' hmem hahead''
    obtain rfl : point'' = point' := by simpa using hmem
    exact ⟨rfl, (hahead hahead'').1, point, rfl, (hahead hahead'').2⟩

theorem Fitted.fork {point point' : MainPoint} {func : Code} (hle : g.numFloors ≤ g'.numFloors)
    (hpart : point'.isPart = true ∧ point'.isAhead = false)
    (hperson : ∀ p point, func = .personMain p point → point = .start ∧ p.Inside g')
    (hmain : ∀ point, func ≠ .main point)
    : Fitted (.main point) g g' [func, .main point'] := by
  have heq : ∀ point'', .main point'' ∈ [func, .main point'] → point'' = point' := by
    intro point'' hmem
    simpa [Ne.symm (hmain point'')] using hmem
  constructor
  case numFloors => exact hle
  case persons =>
    intro p point hmem
    exact .inr (hperson p point (by simpa [eq_comm] using hmem))
  case isPart =>
    intro point'' hmem
    rw [heq point'' hmem]
    exact hpart.1
  case isAhead =>
    intro point'' hmem hahead
    rw [heq point'' hmem, hpart.2] at hahead
    contradiction

theorem isPart_commands {rest : List Command} (h : rest.all Command.isArriving = true)
    : (MainPoint.commands rest).isPart = true ∧ (MainPoint.commands rest).isAhead = false := by
  cases rest with
  | nil => exact ⟨rfl, rfl⟩
  | cons command rest =>
    cases command with
    | arrivingGoingFromTo => exact ⟨h, rfl⟩
    | _ => cases h

theorem commands_fitted {rest : List Command}
    (hpart : (MainPoint.commands rest).isPart = true)
    : Fitted (.main (.commands rest)) g (commands (H := H) g rest).1
        ((commands (H := H) g rest).2.1.codes (commands (H := H) g rest).2.2) := by
  cases rest with
  | nil => exact ⟨Nat.le_refl _, by simp [commands, Call.codes], by simp [commands, Call.codes],
      by simp [commands, Call.codes]⟩
  | cons command rest =>
    cases command with
    | elevator numFloors => exact Fitted.main (Nat.le_refl _) hpart (fun _ => ⟨rfl, rfl⟩)
    | arrivingGoingFromTo atFloor toFloor =>
      have hnum := initIfNeeded_numFloors g
      have hle : g.numFloors ≤ (initIfNeeded g).numFloors := by
        split at hnum <;> omega
      have hone : 1 ≤ (initIfNeeded g).numFloors := by
        split at hnum <;> omega
      refine Fitted.fork hle (isPart_commands hpart) ?_ (by simp)
      intro p point heq
      cases heq
      exact ⟨rfl, one_le_clamp hone _, clamp_le _ _, one_le_clamp hone _, clamp_le _ _⟩
    | setSpawnerActive => cases hpart
    | yield => cases hpart

theorem Code.fitted {u : Code}
    (hmain : ∀ point, u = .main point → point.isPart = true ∧
      (point.isAhead = true → g.numFloors = 0))
    : Fitted u g (u.run (H := H) g).1 ((u.run (H := H) g).2.1.codes (u.run (H := H) g).2.2) := by
  cases u with
  | personMain p point => exact personMain_fitted g p point
  | elevatorMain point => exact elevatorMain_fitted g point
  | main point =>
    obtain ⟨hpart, hahead⟩ := hmain point rfl
    cases point with
    | commands rest => exact commands_fitted hpart
    | init numFloors rest =>
      refine Fitted.main ?_ hpart nofun
      rw [hahead rfl]
      exact Nat.zero_le _
    | forkElevator rest =>
      exact Fitted.fork (Nat.le_refl _) (isPart_commands hpart) (fun _ _ => nofun) (fun _ => nofun)

end

structure Fitting (c : Control Globals Code) : Prop where
  persons : ∀ t, t < c.numThreads → ∀ p point, .personMain p point ∈ c.codes t →
    p.Inside c.shared ∧ (point = .start ∨ c.codes t = [.personMain p point])
  isPart : ∀ t, t < c.numThreads → ∀ point, .main point ∈ c.codes t → point.isPart = true
  isAhead : ∀ t, t < c.numThreads → ∀ point, .main point ∈ c.codes t → point.isAhead = true →
    c.numThreads = 1 ∧ c.shared.numFloors = 0 ∧ c.codes t = [.main point]

section

variable {c : Control Globals Code} {t : Nat} {u : Code} {H : Type}

theorem Fitting.user (h : Fitting c) (ht : t < c.numThreads) (hcodes : c.codes t = [u])
    : Fitting { c with
        codes := update c.codes t ((u.run (H := H) c.shared).2.1.codes (u.run (H := H) c.shared).2.2)
        shared := (u.run (H := H) c.shared).1 } := by
  have hfitted := Code.fitted (H := H) (u := u) (g := c.shared) (by
    rintro point rfl
    have hmem : .main point ∈ c.codes t := by simp [hcodes]
    exact ⟨h.isPart t ht point hmem, fun hahead => (h.isAhead t ht point hmem hahead).2.1⟩)
  generalize (u.run (H := H) c.shared).2.1.codes (u.run (H := H) c.shared).2.2 = codes at hfitted ⊢
  generalize (u.run (H := H) c.shared).1 = g' at hfitted ⊢
  constructor
  case persons =>
    intro t' ht' p point hmem
    dsimp only at hmem ⊢
    by_cases hne : t' = t
    . subst hne
      rw [Function.update_self] at hmem ⊢
      obtain ⟨point', rfl, heq⟩ | ⟨hstart, hinside⟩ := hfitted.persons p point hmem
      . have hold := (h.persons t' ht' p point' (by simp [hcodes])).1
        exact ⟨hold.mono hfitted.numFloors, .inr heq⟩
      . exact ⟨hinside, .inl hstart⟩
    . rw [Function.update_of_ne hne] at hmem ⊢
      obtain ⟨hinside, hpoint⟩ := h.persons t' ht' p point hmem
      exact ⟨hinside.mono hfitted.numFloors, hpoint⟩
  case isPart =>
    intro t' ht' point hmem
    dsimp only at hmem
    by_cases hne : t' = t
    . subst hne
      rw [Function.update_self] at hmem
      exact hfitted.isPart point hmem
    . rw [Function.update_of_ne hne] at hmem
      exact h.isPart t' ht' point hmem
  case isAhead =>
    intro t' ht' point hmem hahead
    dsimp only at ht' hmem ⊢
    by_cases hne : t' = t
    . subst hne
      rw [Function.update_self] at hmem ⊢
      obtain ⟨heq, hnum, point', rfl, hahead'⟩ := hfitted.isAhead point hmem hahead
      obtain ⟨hone, hzero, _⟩ := h.isAhead t' ht' point' (by simp [hcodes]) hahead'
      exact ⟨hone, hnum.trans hzero, heq⟩
    . -- the main thread is alone while it is ahead
      rw [Function.update_of_ne hne] at hmem
      obtain ⟨hone, _⟩ := h.isAhead t' ht' point hmem hahead
      omega

theorem Fitting.fork (h : Fitting c) (ht : t < c.numThreads) {func : Code}
    (hcodes : c.codes t = [func, u])
    : Fitting { c with
        numThreads := c.numThreads + 1
        codes := update (update c.codes c.numThreads [func]) t [u] } := by
  constructor
  case persons =>
    intro t' ht' p point hmem
    obtain ⟨t₀, ht₀, hmem₀, hsame⟩ := Control.mem_fork ht hcodes ht' hmem
    obtain ⟨hinside, hpoint⟩ := h.persons t₀ ht₀ p point hmem₀
    refine ⟨hinside, ?_⟩
    obtain hsingle | hsame := hsame
    . exact .inr hsingle
    . dsimp only
      rw [hsame]
      exact hpoint
  case isPart =>
    intro t' ht' point hmem
    obtain ⟨t₀, ht₀, hmem₀, _⟩ := Control.mem_fork ht hcodes ht' hmem
    exact h.isPart t₀ ht₀ point hmem₀
  case isAhead =>
    intro t' ht' point hmem hahead
    obtain ⟨t₀, ht₀, hmem₀, _⟩ := Control.mem_fork ht hcodes ht' hmem
    -- the only thread is the one that is in `Fork`
    obtain ⟨hone, _, hsingle⟩ := h.isAhead t₀ ht₀ point hmem₀ hahead
    obtain rfl : t₀ = t := by omega
    rw [hcodes] at hsingle
    simp at hsingle

theorem eq_of_mem_controlBoot {handler : H → List (HandlerCall H)} {rest : List Command}
    (ht : t < (system handler rest).controlBoot.numThreads)
    (hu : u ∈ (system handler rest).controlBoot.codes t)
    : t = 0 ∧ u = .main (.commands rest) := by
  obtain rfl : t = 0 := by simpa [System.controlBoot] using ht
  exact ⟨rfl, by simpa [System.controlBoot, system] using hu⟩

theorem fitting_boot (handler : H → List (HandlerCall H)) (numFloors : Int)
    (calls : List (Int × Int))
    : Fitting (system handler (elevatorProgram numFloors calls)).controlBoot := by
  constructor
  case persons =>
    intro t ht p point hmem
    cases (eq_of_mem_controlBoot ht hmem).2
  case isPart =>
    intro t ht point hmem
    cases (eq_of_mem_controlBoot ht hmem).2
    simp [elevatorProgram, MainPoint.isPart, Command.isArriving]
  case isAhead =>
    intro t ht point hmem hahead
    obtain ⟨rfl, heq⟩ := eq_of_mem_controlBoot ht hmem
    cases heq
    exact ⟨rfl, rfl, rfl⟩

theorem countP_elevatorProgram (numFloors : Int) (calls : List (Int × Int))
    : (elevatorProgram numFloors calls).countP Command.isElevator ≤ 1 := by
  have hnone : (calls.map fun call => Command.arrivingGoingFromTo call.1 call.2).countP
      Command.isElevator = 0 := by
    simp [List.countP_eq_zero, Command.isElevator]
  rw [elevatorProgram, List.countP_cons, hnone]
  simp [Command.isElevator]

theorem fitting_of_reachable {handler : H → List (HandlerCall H)} {numFloors : Int}
    {calls : List (Int × Int)}
    (h : (system handler (elevatorProgram numFloors calls)).ControlReachable c)
    : Fitting c := by
  refine Transition.Reachable.invariant (P := Fitting) ?_ ?_ h
  . rintro c rfl
    exact fitting_boot handler numFloors calls
  . intro c c' _ hfitting hstep
    cases hstep with
    | user t u ht hcodes => exact hfitting.user ht hcodes
    | fork t func u ht hcodes => exact hfitting.fork ht hcodes
    | interrupt => exact hfitting

/-! ### The decision to stop -/

theorem label_of_num_eq_zero {P : Code → Bool} (h : c.num P = 0) (ht : t < c.numThreads)
    (hcodes : c.codes t = [u])
    : P u = false := by
  have hle := Control.le_sum (Control.lastIs P) ht
  rw [← Control.num_eq_sum, h, hcodes, Control.lastIs_singleton] at hle
  simpa using hle

theorem isSettled_of_main {point : MainPoint} (h : (Code.main point).isPending = false)
    : (Code.main point).isSettled = true := by
  cases point with
  | commands rest =>
    cases rest with
    | nil => rfl
    | cons => cases h
  | init => cases h
  | forkElevator => cases h

theorem isSettled_of_person {p : PersonArgs} {point : PersonPoint}
    (h : (Code.personMain p point).isPending = false) (hwaits : point.waits = false)
    (hrides : point.rides = false)
    : (Code.personMain p point).isSettled = true := by
  cases point with
  | left | done => rfl
  | start | register => cases h
  | registered | arrived | board | noSpace | spaceSignalled => cases hwaits
  | boarded | arrivedTo | leave | notYet | arrivedAgain => cases hrides

theorem settled_of_not_anyPending (hsafe : Safe c) (hfitting : Fitting c)
    (hstop : anyPending c.shared = false)
    (hpending : ∀ t, t < c.numThreads → ∀ u ∈ c.codes t, u.isPending = false)
    (ht : t < c.numThreads) (hu : u ∈ c.codes t)
    : u.isSettled = true := by
  have hnot := hpending t ht u hu
  unfold anyPending at hstop
  rw [Bool.or_eq_false_iff, List.any_eq_false] at hstop
  obtain ⟨honboard, hfloors⟩ := hstop
  cases u with
  | elevatorMain => rfl
  | main point => exact isSettled_of_main hnot
  | personMain p point =>
    obtain ⟨hinside, hpoint⟩ := hfitting.persons t ht p point hu
    have hcodes : c.codes t = [.personMain p point] := by
      refine hpoint.resolve_left ?_
      rintro rfl
      cases hnot
    have hrides : point.rides = false := by
      refine label_of_num_eq_zero (P := Code.rides) ?_ ht hcodes
      have := hsafe.onboard
      have := of_decide_eq_false honboard
      omega
    have hwaits : (Code.personMain p point).waitsAt p.atFloor = false := by
      refine label_of_num_eq_zero (P := Code.waitsAt p.atFloor) ?_ ht hcodes
      have hfloor := hfloors p.atFloor (by
        rw [List.mem_range'_1]
        have := hinside.one_le_at
        have := hinside.at_le
        omega)
      have := hsafe.waiting p.atFloor
      simp only [Bool.or_eq_true, decide_eq_true_eq, not_or] at hfloor
      omega
    exact isSettled_of_person hnot (by simpa [Code.waitsAt] using hwaits) hrides

theorem Announces.codes {g : Globals} {left : Nat → Nat} {res : Globals × Call Code H × Code}
    (h : Announces g left res)
    : ∃ point, res.2.1.codes res.2.2 = [.elevatorMain point] ∧
        (Code.elevatorMain point).hasStopped = false := by
  cases h with
  | v n point hloop =>
    refine ⟨point, rfl, ?_⟩
    cases point with
    | getOn | getOff | advertise => rfl
    | _ => cases hloop
  | release dir => exact ⟨.wait dir 0, rfl, rfl⟩

theorem elevatorMain_codes (g : Globals) (point : ElevatorPoint)
    : ∃ point', (elevatorMain (H := H) g point).2.1.codes (elevatorMain (H := H) g point).2.2 =
          [.elevatorMain point'] ∧
        ((Code.elevatorMain point').hasStopped = true → (Code.elevatorMain point).hasStopped = true ∨
          ((∃ dir, point = .closeDoors dir) ∧ anyPending g = false)) := by
  have hrunning : ∀ {res : Globals × Call Code H × Code},
      (∃ point', res.2.1.codes res.2.2 = [.elevatorMain point'] ∧
        (Code.elevatorMain point').hasStopped = false) →
      ∃ point', res.2.1.codes res.2.2 = [.elevatorMain point'] ∧
        ((Code.elevatorMain point').hasStopped = true → (Code.elevatorMain point).hasStopped = true ∨
          ((∃ dir, point = .closeDoors dir) ∧ anyPending g = false)) := by
    rintro res ⟨point', hcodes, hnot⟩
    refine ⟨point', hcodes, fun hstopped => ?_⟩
    rw [hnot] at hstopped
    contradiction
  cases point with
  | start | move => exact hrunning ⟨_, rfl, rfl⟩
  | travel | wait =>
    rw [elevatorMain]
    split <;> exact hrunning ⟨_, rfl, rfl⟩
  | openDoors dir => exact hrunning (getOn_announces _ dir 0).codes
  | getOn dir i => exact hrunning (getOn_announces g dir i).codes
  | getOff dir i => exact hrunning (getOff_announces g dir i).codes
  | advertise dir i => exact hrunning (advertise_announces g dir i).codes
  | closeDoors dir =>
    refine ⟨_, rfl, fun hstopped => .inr ⟨⟨dir, rfl⟩, ?_⟩⟩
    have hstop : (!g.spawnerActive && !anyPending g) = true := hstopped
    simp only [Bool.and_eq_true, Bool.not_eq_true'] at hstop
    exact hstop.2
  | loop dir shouldStop =>
    rw [elevatorMain]
    split
    next h => exact ⟨_, rfl, fun _ => .inl h⟩
    next => exact hrunning ⟨_, rfl, rfl⟩
  | shutDown => exact ⟨_, rfl, fun _ => .inl rfl⟩

theorem personMain_codes (g : Globals) (p : PersonArgs) (point : PersonPoint)
    : (personMain (H := H) g p point).2.1.codes (personMain (H := H) g p point).2.2 = [] ∨
      ∃ point', (personMain (H := H) g p point).2.1.codes (personMain (H := H) g p point).2.2 =
          [.personMain p point'] ∧
        (point = .start ∨ (Code.personMain p point').isPending = false) := by
  cases point with
  | done => exact .inl rfl
  | start => exact .inr ⟨_, rfl, .inl rfl⟩
  | board | leave =>
    rw [personMain]
    split <;> exact .inr ⟨_, rfl, .inr rfl⟩
  | _ => exact .inr ⟨_, rfl, .inr rfl⟩

theorem main_codes (g : Globals) (point : MainPoint)
    : ∀ u ∈ (main (H := H) g point).2.1.codes (main (H := H) g point).2.2, u.hasStopped = false := by
  cases point with
  | commands rest =>
    rw [main]
    have hnext := commands_cases (H := H) g rest
    generalize commands (H := H) g rest = res at hnext
    cases hnext <;> simp [Call.codes, Code.hasStopped]
  | init => simp [main, Call.codes, Code.hasStopped]
  | forkElevator => simp [main, Call.codes, Code.hasStopped]

theorem isSettled_run {g : Globals} (h : u.isSettled = true) {u' : Code}
    (hmem : u' ∈ (u.run (H := H) g).2.1.codes (u.run (H := H) g).2.2)
    : u'.isSettled = true := by
  cases u with
  | elevatorMain point =>
    obtain ⟨point', hcodes, _⟩ := elevatorMain_codes (H := H) g point
    obtain rfl : u' = .elevatorMain point' := by simpa [Code.run, hcodes] using hmem
    rfl
  | main point =>
    cases point with
    | commands rest =>
      cases rest with
      | nil => simp [Code.run, main, commands, Call.codes] at hmem
      | cons => cases h
    | init => cases h
    | forkElevator => cases h
  | personMain p point =>
    cases point with
    | left =>
      obtain rfl : u' = .personMain p .done := by simpa [Code.run, personMain, Call.codes] using hmem
      rfl
    | done => simp [Code.run, personMain, Call.codes] at hmem
    | _ => cases h

theorem isPending_run {g : Globals} (h : u.isPending = false) {u' : Code}
    (hmem : u' ∈ (u.run (H := H) g).2.1.codes (u.run (H := H) g).2.2)
    : u'.isPending = false := by
  cases u with
  | elevatorMain point =>
    obtain ⟨point', hcodes, _⟩ := elevatorMain_codes (H := H) g point
    obtain rfl : u' = .elevatorMain point' := by simpa [Code.run, hcodes] using hmem
    rfl
  | main point =>
    cases point with
    | commands rest =>
      cases rest with
      | nil => simp [Code.run, main, commands, Call.codes] at hmem
      | cons => cases h
    | init => cases h
    | forkElevator => cases h
  | personMain p point =>
    change u' ∈ (personMain (H := H) g p point).2.1.codes (personMain (H := H) g p point).2.2 at hmem
    obtain hcodes | ⟨point', hcodes, hpoint⟩ := personMain_codes (H := H) g p point
    . simp [hcodes] at hmem
    . obtain rfl : u' = .personMain p point' := by simpa [hcodes] using hmem
      refine hpoint.resolve_left ?_
      rintro rfl
      cases h

theorem hasStopped_run {g : Globals} {u' : Code} (h : u'.hasStopped = true)
    (hmem : u' ∈ (u.run (H := H) g).2.1.codes (u.run (H := H) g).2.2)
    : u.hasStopped = true ∨
      ((∃ dir, u = .elevatorMain (.closeDoors dir)) ∧ anyPending g = false) := by
  cases u with
  | elevatorMain point =>
    obtain ⟨point', hcodes, hstopped⟩ := elevatorMain_codes (H := H) g point
    obtain rfl : u' = .elevatorMain point' := by simpa [Code.run, hcodes] using hmem
    simpa using hstopped h
  | main point =>
    rw [main_codes g point u' hmem] at h
    contradiction
  | personMain p point =>
    change u' ∈ (personMain (H := H) g p point).2.1.codes (personMain (H := H) g p point).2.2 at hmem
    obtain hcodes | ⟨point', hcodes, _⟩ := personMain_codes (H := H) g p point
    . simp [hcodes] at hmem
    . obtain rfl : u' = .personMain p point' := by simpa [hcodes] using hmem
      cases h

end

/-! ### The runs in which everybody registers in time -/

def NonePending (c : Control Globals Code) : Prop :=
  ∀ t, t < c.numThreads → ∀ u ∈ c.codes t, u.isPending = false

/--
This is so when `ElevatorMain` takes its decision.
-/
def InTime (s : State Globals Code H) : Prop :=
  ∀ t dir, t < s.numThreads →
    s.client.points t = [.user (.elevatorMain (.closeDoors dir)), .finish] → NonePending s.control

def InTimeReachable (handler : H → List (HandlerCall H)) (rest : List Command)
    (s : State Globals Code H)
    : Prop :=
  Transition.Reachable (system handler rest).Boot
    (fun s s' => Step (system handler rest).toProgram s s' ∧ InTime s) s

def Settled (c : Control Globals Code) : Prop :=
  (∃ t, t < c.numThreads ∧ ∃ u ∈ c.codes t, u.hasStopped = true) →
    ∀ t, t < c.numThreads → ∀ u ∈ c.codes t, u.isSettled = true

section

variable {c : Control Globals Code} {t : Nat} {u : Code} {H : Type}

theorem Settled.user (h : Settled c) (hsafe : Safe c) (hfitting : Fitting c)
    (hpending : (∃ dir, u = .elevatorMain (.closeDoors dir)) → NonePending c)
    (ht : t < c.numThreads) (hcodes : c.codes t = [u])
    : Settled { c with
        codes := update c.codes t ((u.run (H := H) c.shared).2.1.codes (u.run (H := H) c.shared).2.2)
        shared := (u.run (H := H) c.shared).1 } := by
  rintro ⟨t₁, ht₁, u₁, hu₁, hstopped⟩
  dsimp only at ht₁ hu₁
  -- everybody had left before, or the elevator has just decided to stop
  have hbefore : ∀ t, t < c.numThreads → ∀ u ∈ c.codes t, u.isSettled = true := by
    by_cases hne : t₁ = t
    . subst hne
      rw [Function.update_self] at hu₁
      obtain hold | ⟨hclose, hstop⟩ := hasStopped_run hstopped hu₁
      . exact h ⟨t₁, ht, u, by simp [hcodes], hold⟩
      . intro t ht u hu
        exact settled_of_not_anyPending hsafe hfitting hstop (hpending hclose) ht hu
    . rw [Function.update_of_ne hne] at hu₁
      exact h ⟨t₁, ht₁, u₁, hu₁, hstopped⟩
  intro t' ht' u' hu'
  dsimp only at ht' hu'
  by_cases hne : t' = t
  . subst hne
    rw [Function.update_self] at hu'
    exact isSettled_run (hbefore t' ht u (by simp [hcodes])) hu'
  . rw [Function.update_of_ne hne] at hu'
    exact hbefore t' ht' u' hu'

theorem Settled.fork (h : Settled c) (ht : t < c.numThreads) {func : Code}
    (hcodes : c.codes t = [func, u])
    : Settled { c with
        numThreads := c.numThreads + 1
        codes := update (update c.codes c.numThreads [func]) t [u] } := by
  rintro ⟨t₁, ht₁, u₁, hu₁, hstopped⟩ t' ht' u' hu'
  obtain ⟨t₁', ht₁', hu₁', _⟩ := Control.mem_fork ht hcodes ht₁ hu₁
  obtain ⟨t₀, ht₀, hu₀, _⟩ := Control.mem_fork ht hcodes ht' hu'
  exact h ⟨t₁', ht₁', u₁, hu₁', hstopped⟩ t₀ ht₀ u' hu₀

variable {handler : H → List (HandlerCall H)} {numFloors : Int} {calls : List (Int × Int)}
  {s : State Globals Code H}

theorem InTimeReachable.reachable {rest : List Command} (h : InTimeReachable handler rest s)
    : (system handler rest).Reachable s :=
  Transition.Reachable.mono (fun _ _ hstep => hstep.1) h

theorem InTimeReachable.settled (h : InTimeReachable handler (elevatorProgram numFloors calls) s)
    : Settled s.control := by
  refine Transition.Reachable.invariant (P := fun s : State Globals Code H => Settled s.control) ?_ ?_ h
  . intro s hboot
    rw [System.Boot.control hboot]
    rintro ⟨t, ht, u, hu, hstopped⟩
    rw [(eq_of_mem_controlBoot ht hu).2] at hstopped
    cases hstopped
  . rintro s s' hs hsettled ⟨hstep, hintime⟩
    have hreach : (system handler (elevatorProgram numFloors calls)).Reachable s :=
      InTimeReachable.reachable hs
    have hsafe := safe_of_reachable (countP_elevatorProgram numFloors calls) hreach.control
    have hfitting := fitting_of_reachable hreach.control
    obtain heq | hclient := hreach.client_step hstep
    . unfold State.control
      rwa [heq]
    . unfold State.control
      obtain heq | ⟨_, heq⟩ | ⟨t, u, ht, hpoints, heq⟩ | ⟨t, func, u, ht, hcodes, heq⟩ :=
        hclient.control_cases hreach.client.shape
      . rwa [heq]
      . rwa [heq]
      . rw [heq]
        refine hsettled.user hsafe hfitting ?_ ht ?_
        . rintro ⟨dir, rfl⟩
          exact hintime t dir ht hpoints
        . simp [State.control, Client.control, hpoints, Point.code?]
      . rw [heq]
        exact hsettled.fork ht hcodes

theorem shutdown_strands_nobody
    (h : InTimeReachable handler (elevatorProgram numFloors calls) s) (ht : t < s.numThreads)
    (hu : u ∈ s.control.codes t) (hstopped : u.hasStopped = true)
    : (∀ t', t' < s.numThreads → ∀ point, .main point ∈ s.control.codes t' → point = .commands []) ∧
      ∀ t', t' < s.numThreads → ∀ p point, .personMain p point ∈ s.control.codes t' →
        point = .left ∨ point = .done := by
  have hsettled := h.settled ⟨t, ht, u, hu, hstopped⟩
  constructor
  . intro t' ht' point hmem
    have hmain := hsettled t' ht' _ hmem
    unfold Code.isSettled at hmain
    split at hmain <;> simp_all
  . intro t' ht' p point hmem
    have hperson := hsettled t' ht' _ hmem
    cases point with
    | left => exact .inl rfl
    | done => exact .inr rfl
    | _ => cases hperson

theorem NonePending.step {rest : List Command} (h : NonePending s.control)
    (hreach : (system handler rest).Reachable s) {s' : State Globals Code H}
    (hstep : Step (system handler rest).toProgram s s')
    : NonePending s'.control := by
  obtain heq | hcontrol := hreach.control_step hstep
  . rwa [heq]
  generalize s'.control = c' at hcontrol
  cases hcontrol with
  | interrupt => exact h
  | fork t func u ht hcodes =>
    intro t' ht' u' hu'
    obtain ⟨t₀, ht₀, hu₀, _⟩ := Control.mem_fork ht hcodes ht' hu'
    exact h t₀ ht₀ u' hu₀
  | user t u ht hcodes =>
    intro t' ht' u' hu'
    dsimp only at ht' hu'
    by_cases hne : t' = t
    . subst hne
      rw [Function.update_self] at hu'
      exact isPending_run (h t' ht u (by simp [hcodes])) hu'
    . rw [Function.update_of_ne hne] at hu'
      exact h t' ht' u' hu'

theorem InTimeReachable.runFor {rest : List Command} (h : InTimeReachable handler rest s)
    (hnone : NonePending s.control) (n : Nat)
    : InTimeReachable handler rest (runFor (system handler rest).toProgram n s) := by
  induction n generalizing s with
  | zero => exact h
  | succ n ih =>
    rw [Nachos.runFor]
    split
    . exact h
    . next s' hs =>
      have hstep : Step (system handler rest).toProgram s s' := ⟨[], hs⟩
      exact ih (h.tail ⟨hstep, fun _ _ _ _ => hnone⟩) (hnone.step h.reachable hstep)

theorem inTime_of_doorsClosed {rest : List Command} (hone : rest.countP Command.isElevator ≤ 1)
    (h : (system handler rest).Reachable s) (hclosed : s.shared.doorsOpen = false)
    : InTime s := by
  intro t dir ht hpoints
  have hdoors : s.shared.doorsOpen.toNat = s.control.num Code.isOpen :=
    (safe_of_reachable hone h.control).doors
  have hle := Control.le_sum (c := s.control) (Control.lastIs Code.isOpen) ht
  have hcodes : s.control.codes t = [.elevatorMain (.closeDoors dir)] := by
    simp [State.control, Client.control, hpoints, Point.code?]
  rw [← Control.num_eq_sum, ← hdoors, hclosed, hcodes, Control.lastIs_singleton] at hle
  contradiction

end

theorem shutdown_strands_nobody_one
    : .elevatorMain .shutDown ∈ (runFor (system timeSlicing (elevatorProgram 2 [(2, 1)])).toProgram
        1190 (elevatorRun (elevatorProgram 2 [(2, 1)]) [] 60)).control.codes 1 ∧
      ∀ p point, .personMain p point ∈ (runFor (system timeSlicing
        (elevatorProgram 2 [(2, 1)])).toProgram 1190
          (elevatorRun (elevatorProgram 2 [(2, 1)]) [] 60)).control.codes 2 →
        point = .left ∨ point = .done := by
  have hrun : (runFor (system timeSlicing (elevatorProgram 2 [(2, 1)])).toProgram 1190
        (elevatorRun (elevatorProgram 2 [(2, 1)]) [] 60)).numThreads = 3 ∧
      .elevatorMain .shutDown ∈ (runFor (system timeSlicing
        (elevatorProgram 2 [(2, 1)])).toProgram 1190
          (elevatorRun (elevatorProgram 2 [(2, 1)]) [] 60)).control.codes 1 := by
    rw [runFor_eq_runEager, elevatorRun_eq]
    decide +kernel
  obtain ⟨hnum, hstopped⟩ := hrun
  -- the person registers before the doors open for the first time
  have hclosed : ∀ i, i < 60 →
      (elevatorRun (elevatorProgram 2 [(2, 1)]) [] i).shared.doorsOpen = false := by
    decide +kernel
  have hstart : InTimeReachable timeSlicing (elevatorProgram 2 [(2, 1)])
      (elevatorRun (elevatorProgram 2 [(2, 1)]) [] 60) := by
    refine reachable_runFor (.init ⟨_, rfl⟩) 60 (fun i hi => ?_)
    exact inTime_of_doorsClosed (countP_elevatorProgram 2 [(2, 1)])
      (reachable_elevatorRun _ _ i) (hclosed i hi)
  have hnone : NonePending (elevatorRun (elevatorProgram 2 [(2, 1)]) [] 60).control := by
    unfold NonePending
    decide +kernel
  refine ⟨hstopped, fun p point hmem => ?_⟩
  exact (shutdown_strands_nobody (hstart.runFor hnone 1190) (t := 1) (by rw [hnum]; decide) hstopped
    rfl).2 2 (by rw [hnum]; decide) p point hmem

theorem shutdown_strands_person
    : ∃ s, (system timeSlicing (elevatorProgram 2 [(1, 2)])).Reachable s ∧
        .elevatorMain .shutDown ∈ s.control.codes 1 ∧
        .personMain ⟨0, 1, 2⟩ .arrived ∈ s.control.codes 2 ∧
        2 ∈ (s.sem (.sem (arriveSem 1))).queue ∧ s.readyList = [] := by
  -- The main thread forks the elevator, and then the timer expires whenever it gets the processor again.
  -- The elevator makes its stop and finds nobody before `ArrivingGoingFromTo` is called.
  refine ⟨_, reachable_elevatorRun (elevatorProgram 2 [(1, 2)])
    (40 :: (List.range 50).map (80 + 20 * ·) ++ (List.range 50).map (1150 + 20 * ·)) 1730, ?_⟩
  rw [elevatorRun_eq]
  decide +kernel

end Nachos.Elevator
