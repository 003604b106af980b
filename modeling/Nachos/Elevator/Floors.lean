import Nachos.Elevator.Shutdown
import Nachos.Elevator.Sweep

/-!
This module contains the floors of the persons. `ArrivingGoingFromTo` clamps them to the number of floors at
the time of the call, and the elevator serves the floors that there are later. A request stays servable unless
`Elevator` is called after it, with fewer floors.
-/

namespace Nachos.Elevator

open Function (update)
open Relation

/-! ### Servable requests -/

structure PersonArgs.Servable (g : Globals) (p : PersonArgs) : Prop where
  inside : p.Inside g
  numFloors : g.numFloors ≤ maxFloors
  at_set : g.floorArriveSem p.atFloor = true
  to_set : g.floorArriveSem p.toFloor = true
  -- `ElevatorMain` examines the counters of both floors
  pending : 0 < g.waitingAt p.atFloor ∨ 0 < g.wantOffAt p.toFloor → anyPending g = true
  -- an elevator that starts on floor 1 comes to both floors in every round trip
  sweep : ∀ g', g'.numFloors = g.numFloors → g'.currentFloor = 1 → ∀ f, f = p.atFloor ∨ f = p.toFloor →
    ∀ m, ∃ k, m < k ∧ k ≤ m + 2 * (g.numFloors - 1) ∧ (floorUpdate^[k] (g', 1)).1.currentFloor = f

theorem anyPending_of_mem {g : Globals} {f : Nat} (hf : 1 ≤ f) (hle : f ≤ g.numFloors)
    (h : 0 < g.waitingAt f ∨ 0 < g.wantOffAt f)
    : anyPending g = true := by
  unfold anyPending
  rw [Bool.or_eq_true, List.any_eq_true]
  refine .inr ⟨f, List.mem_range'_1.mpr ⟨hf, by omega⟩, ?_⟩
  simpa using h

theorem servable_of_inside {g : Globals} {p : PersonArgs} (hinside : p.Inside g) (htwo : 2 ≤ g.numFloors)
    (hnum : g.numFloors ≤ maxFloors) (hat : g.floorArriveSem p.atFloor = true)
    (hto : g.floorArriveSem p.toFloor = true)
    : p.Servable g := by
  constructor
  case inside => exact hinside
  case numFloors => exact hnum
  case at_set => exact hat
  case to_set => exact hto
  case pending =>
    intro h
    cases h with
    | inl h => exact anyPending_of_mem hinside.one_le_at hinside.at_le (.inl h)
    | inr h => exact anyPending_of_mem hinside.one_le_to hinside.to_le (.inr h)
  case sweep =>
    intro g' heq hstart f hf m
    rw [← heq] at htwo ⊢
    cases hf with
    | inl hf =>
      subst hf
      exact exists_iterate_eq htwo hstart m hinside.one_le_at (by rw [heq]; exact hinside.at_le)
    | inr hf =>
      subst hf
      exact exists_iterate_eq htwo hstart m hinside.one_le_to (by rw [heq]; exact hinside.to_le)

def AlwaysServable {H : Type} (handler : H → List (HandlerCall H)) (rest : List Command) : Prop :=
  ∀ s t p point, (system handler rest).Reachable s → t < s.numThreads →
    .personMain p point ∈ s.control.codes t →
    ∀ s', ReflTransGen (Step (system handler rest).toProgram) s s' → p.Servable s'.shared

/--
Before `Elevator`, the floors are clamped to the default of 10 floors.
-/
def Fits : Command → Command → Prop
  | .arrivingGoingFromTo atFloor toFloor, .elevator numFloors =>
    2 ≤ numFloors → clamp 10 atFloor ≤ numFloors ∧ clamp 10 toFloor ≤ numFloors
  | _, _ => True

instance : DecidableRel Fits
  | .arrivingGoingFromTo atFloor toFloor, .elevator numFloors =>
    inferInstanceAs (Decidable (2 ≤ numFloors → clamp 10 atFloor ≤ numFloors ∧ clamp 10 toFloor ≤ numFloors))
  | .arrivingGoingFromTo _ _, .arrivingGoingFromTo _ _ | .arrivingGoingFromTo _ _, .setSpawnerActive _
  | .arrivingGoingFromTo _ _, .yield | .elevator _, _ | .setSpawnerActive _, _ | .yield, _ =>
    inferInstanceAs (Decidable True)

/-! ### What the code does to the floors -/

def MainPoint.todo : MainPoint → List Command
  | .commands rest => rest
  | .init numFloors rest => .elevator numFloors :: rest
  | .forkElevator rest => rest

def Created (p : PersonArgs) (n : Nat) (rest rest' : List Command) : Prop :=
  ∃ atFloor toFloor, .arrivingGoingFromTo atFloor toFloor :: rest' <:+ rest ∧
    p.atFloor = (clamp n atFloor).toNat ∧ p.toFloor = (clamp n toFloor).toNat

structure FloorEffect (u : Code) (g g' : Globals) (codes : List Code) : Prop where
  numFloors : g'.numFloors = g.numFloors ∨ g.numFloors < 2 ∧ g'.numFloors = 10 ∨
    ∃ n rest, u = .main (.init n rest) ∧ 2 ≤ n ∧ (g'.numFloors : Int) = min n maxFloors
  persons : ∀ p point, .personMain p point ∈ codes →
    (∃ point', u = .personMain p point') ∨
      ∃ rest rest', u = .main (.commands rest) ∧ codes = [.personMain p point, .main (.commands rest')] ∧
        g'.numFloors = (if g.numFloors = 0 then 10 else g.numFloors) ∧ Created p g'.numFloors rest rest'
  todo : ∀ point', .main point' ∈ codes → ∃ point, u = .main point ∧ point'.todo <:+ point.todo
  init : ∀ n rest, u = .main (.init n rest) → codes = [.main (.forkElevator rest)]

section

variable {g g' : Globals} {H : Type}

theorem FloorEffect.elevator {point point' : ElevatorPoint}
    (hnum : g'.numFloors = g.numFloors ∨ g.numFloors < 2 ∧ g'.numFloors = 10)
    : FloorEffect (.elevatorMain point) g g' [.elevatorMain point'] := by
  constructor
  case numFloors =>
    cases hnum with
    | inl hnum => exact .inl hnum
    | inr hnum => exact .inr (.inl hnum)
  all_goals simp

theorem Announces.floorEffect {point : ElevatorPoint} {left : Nat → Nat}
    {res : Globals × Call Code H × Code} (h : Announces g' left res) (heq : g'.numFloors = g.numFloors)
    : FloorEffect (.elevatorMain point) g res.1 (res.2.1.codes res.2.2) := by
  cases h with
  | v => exact .elevator (.inl heq)
  | release => exact .elevator (.inl heq)

theorem elevatorMain_floorEffect (g : Globals) (point : ElevatorPoint)
    : FloorEffect (.elevatorMain point) g (elevatorMain (H := H) g point).1
        ((elevatorMain (H := H) g point).2.1.codes (elevatorMain (H := H) g point).2.2) := by
  cases point with
  | start =>
    apply FloorEffect.elevator
    rw [elevatorMain]
    dsimp only
    split
    next hlt => exact .inr ⟨hlt, rfl⟩
    next => exact .inl rfl
  | move | closeDoors | shutDown => exact .elevator (.inl rfl)
  | travel | wait | loop =>
    rw [elevatorMain]
    split <;> exact .elevator (.inl rfl)
  | openDoors dir => exact (getOn_announces _ dir 0).floorEffect rfl
  | getOn dir i => exact (getOn_announces g dir i).floorEffect rfl
  | getOff dir i => exact (getOff_announces g dir i).floorEffect rfl
  | advertise dir i => exact (advertise_announces g dir i).floorEffect rfl

theorem FloorEffect.person {p : PersonArgs} {point point' : PersonPoint} (heq : g'.numFloors = g.numFloors)
    : FloorEffect (.personMain p point) g g' [.personMain p point'] := by
  constructor
  case numFloors => exact .inl heq
  case persons =>
    intro p' point'' hmem
    exact .inl (eq_of_mem_person hmem)
  all_goals simp

theorem personMain_floorEffect (g : Globals) (p : PersonArgs) (point : PersonPoint)
    : FloorEffect (.personMain p point) g (personMain (H := H) g p point).1
        ((personMain (H := H) g p point).2.1.codes (personMain (H := H) g p point).2.2) := by
  cases point with
  | board | leave =>
    rw [personMain]
    split <;> exact .person rfl
  | done => exact ⟨.inl rfl, by simp [personMain, Call.codes], by simp [personMain, Call.codes], by simp⟩
  | _ => exact .person rfl

theorem FloorEffect.main {point point' : MainPoint} {codes : List Code}
    (hcodes : codes = [.main point'] ∨ codes = [.elevatorMain .start, .main point'])
    (hnum : g'.numFloors = g.numFloors ∨ ∃ n rest, point = .init n rest ∧ 2 ≤ n ∧
      (g'.numFloors : Int) = min n maxFloors)
    (htodo : point'.todo <:+ point.todo)
    (hinit : ∀ n rest, point = .init n rest → codes = [.main (.forkElevator rest)])
    : FloorEffect (.main point) g g' codes := by
  constructor
  case numFloors =>
    cases hnum with
    | inl hnum => exact .inl hnum
    | inr hnum =>
      obtain ⟨n, rest, hpoint, hn⟩ := hnum
      exact .inr (.inr ⟨n, rest, congrArg Code.main hpoint, hn⟩)
  case persons =>
    intro p point'' hmem
    cases hcodes with
    | inl hcodes => simp [hcodes] at hmem
    | inr hcodes => simp [hcodes] at hmem
  case todo =>
    intro point'' hmem
    have hsame : point'' = point' := by
      cases hcodes with
      | inl hcodes => simpa [hcodes] using hmem
      | inr hcodes => simpa [hcodes] using hmem
    subst hsame
    exact ⟨point, rfl, htodo⟩
  case init =>
    intro n rest h
    exact hinit n rest (Code.main.inj h)

theorem FloorEffect.cons {g₁ : Globals} {command : Command} {rest : List Command} {codes : List Code}
    (h : FloorEffect (.main (.commands rest)) g₁ g' codes) (heq : g₁.numFloors = g.numFloors)
    : FloorEffect (.main (.commands (command :: rest))) g g' codes := by
  constructor
  case numFloors =>
    rw [← heq]
    obtain hnum | hnum | ⟨_, _, hu, _⟩ := h.numFloors
    . exact .inl hnum
    . exact .inr (.inl hnum)
    . cases hu
  case persons =>
    intro p point hmem
    obtain ⟨_, hu⟩ | ⟨_, rest', hu, hcodes, hnum, atFloor, toFloor, hrest, hfloors⟩ := h.persons p point hmem
    . cases hu
    . cases hu
      rw [heq] at hnum
      exact .inr ⟨_, rest', rfl, hcodes, hnum, atFloor, toFloor, hrest.trans (List.suffix_cons ..), hfloors⟩
  case todo =>
    intro point' hmem
    obtain ⟨_, hu, htodo⟩ := h.todo point' hmem
    cases hu
    exact ⟨_, rfl, htodo.trans (List.suffix_cons ..)⟩
  case init => nofun

theorem commands_floorEffect (g : Globals) (rest : List Command)
    : FloorEffect (.main (.commands rest)) g (commands (H := H) g rest).1
        ((commands (H := H) g rest).2.1.codes (commands (H := H) g rest).2.2) := by
  induction rest generalizing g with
  | nil => exact ⟨.inl rfl, by simp [commands, Call.codes], by simp [commands, Call.codes], by simp⟩
  | cons command rest ih =>
    cases command with
    | elevator numFloors => exact .main (.inl rfl) (.inl rfl) (List.suffix_refl _) (by simp)
    | yield => exact .main (.inl rfl) (.inl rfl) (List.suffix_cons ..) (by simp)
    | setSpawnerActive active => exact (ih { g with spawnerActive := active }).cons rfl
    | arrivingGoingFromTo atFloor toFloor =>
      have hnum := initIfNeeded_numFloors g
      constructor
      case numFloors =>
        change (initIfNeeded g).numFloors = _ ∨ _ ∧ (initIfNeeded g).numFloors = 10 ∨ _
        split at hnum
        next hzero => exact .inr (.inl ⟨by omega, hnum⟩)
        next => exact .inl hnum
      case persons =>
        intro p point hmem
        obtain ⟨rfl, rfl⟩ : p = (arrivingGoingFromTo g atFloor toFloor).2 ∧ point = .start := by
          simpa [commands, Call.codes] using hmem
        exact .inr ⟨_, rest, rfl, rfl, hnum, atFloor, toFloor, List.suffix_refl _, rfl, rfl⟩
      case todo =>
        intro point' hmem
        obtain rfl : point' = .commands rest := by simpa [commands, Call.codes] using hmem
        exact ⟨_, rfl, List.suffix_cons ..⟩
      case init => simp

theorem initElevator_numFloors (g : Globals) (numFloors : Int)
    : (initElevator g numFloors).numFloors =
        if 2 ≤ numFloors then (min numFloors maxFloors).toNat else g.numFloors := by
  unfold initElevator initFloors
  dsimp only
  rw [foldl_initFloor_numFloors]
  split
  next =>
    dsimp only
    split <;> omega
  next => rfl

theorem Code.floorEffect (u : Code) (g : Globals)
    : FloorEffect u g (u.run (H := H) g).1 ((u.run (H := H) g).2.1.codes (u.run (H := H) g).2.2) := by
  cases u with
  | personMain p point => exact personMain_floorEffect g p point
  | elevatorMain point => exact elevatorMain_floorEffect g point
  | main point =>
    cases point with
    | commands rest => exact commands_floorEffect g rest
    | forkElevator rest => exact .main (.inr rfl) (.inl rfl) (List.suffix_refl _) nofun
    | init numFloors rest =>
      refine .main (.inl rfl) ?_ (List.suffix_cons ..) ?_
      . have hnum := initElevator_numFloors g numFloors
        split at hnum
        next htwo =>
          refine .inr ⟨numFloors, rest, rfl, htwo, ?_⟩
          change ((initElevator g numFloors).numFloors : Int) = _
          omega
        next => exact .inl hnum
      . intro n rest' h
        cases h
        rfl

end

/-! ### The invariant -/

/--
The floors of the person exist, and no `Elevator` that is still to come takes them away.
-/
structure Stays (p : PersonArgs) (c : Control Globals Code) : Prop where
  inside : p.Inside c.shared
  at_set : c.shared.floorArriveSem p.atFloor = true
  to_set : c.shared.floorArriveSem p.toFloor = true
  todo : ∀ t, t < c.numThreads → ∀ point, .main point ∈ c.codes t → ∀ n, .elevator n ∈ point.todo → 2 ≤ n →
    (p.atFloor : Int) ≤ n ∧ (p.toFloor : Int) ≤ n

structure Planned (c : Control Globals Code) : Prop where
  numFloors : c.shared.numFloors = 0 ∨ 2 ≤ c.shared.numFloors
  main : ∀ t, t < c.numThreads → ∀ point, .main point ∈ c.codes t → t = 0
  fits : ∀ t, t < c.numThreads → ∀ point, .main point ∈ c.codes t → point.todo.Pairwise Fits
  -- the number of floors is still the default
  default : ∀ t, t < c.numThreads → ∀ point, .main point ∈ c.codes t → ∀ n, .elevator n ∈ point.todo →
    c.shared.numFloors = 0 ∨ c.shared.numFloors = 10
  persons : ∀ t, t < c.numThreads → ∀ p point, .personMain p point ∈ c.codes t → Stays p c

section

variable {c : Control Globals Code} {p : PersonArgs} {t : Nat} {u : Code} {H : Type}

theorem Safe.notMem_of_init (h : Safe c) (ht : t < c.numThreads) {n : Int} {rest : List Command}
    (hcodes : c.codes t = [.main (.init n rest)]) (n' : Int)
    : .elevator n' ∉ rest := by
  intro hmem
  have hpos : 0 < rest.countP Command.isElevator := List.countP_pos_iff.mpr ⟨_, hmem, rfl⟩
  have hle := Control.le_sum numElevators ht
  have hone := h.elevators
  rw [hcodes] at hle
  simp only [numElevators, List.map_cons, List.map_nil, List.sum_singleton, Code.elevators,
    MainPoint.elevators] at hle hone
  omega

theorem Stays.user (h : Stays p c) (hsafe : Safe c) (hplanned : Planned c) (ht : t < c.numThreads)
    (hcodes : c.codes t = [u])
    : Stays p { c with
        codes := update c.codes t ((u.run (H := H) c.shared).2.1.codes (u.run (H := H) c.shared).2.2)
        shared := (u.run (H := H) c.shared).1 } := by
  have heffect := Code.effect (H := H) (hsafe.ready ht hcodes) hsafe.fresh hsafe.numFloors
  have hfloors := Code.floorEffect (H := H) u c.shared
  generalize (u.run (H := H) c.shared).2.1.codes (u.run (H := H) c.shared).2.2 = codes at heffect hfloors ⊢
  generalize (u.run (H := H) c.shared).1 = g' at heffect hfloors ⊢
  constructor
  case inside =>
    have hinside := h.inside
    obtain hsame | ⟨hlt, _⟩ | ⟨n, rest, rfl, hn, hnum⟩ := hfloors.numFloors
    . exact hinside.mono (Nat.le_of_eq hsame.symm)
    . -- there were no floors
      have hle := Nat.le_trans hinside.one_le_at hinside.at_le
      have hzero := hplanned.numFloors
      omega
    . have hle := h.todo t ht (.init n rest) (by simp [hcodes]) n List.mem_cons_self hn
      have hmax := hsafe.numFloors
      have hat := hinside.at_le
      have hto := hinside.to_le
      refine ⟨hinside.one_le_at, ?_, hinside.one_le_to, ?_⟩ <;> dsimp only <;> omega
  case at_set => exact heffect.floors _ h.at_set
  case to_set => exact heffect.floors _ h.to_set
  case todo =>
    intro t' ht' point hmem n hn
    dsimp only at hmem
    by_cases hne : t' = t
    . subst hne
      rw [Function.update_self] at hmem
      obtain ⟨point', rfl, htodo⟩ := hfloors.todo point hmem
      exact h.todo t' ht point' (by simp [hcodes]) n (htodo.subset hn)
    . rw [Function.update_of_ne hne] at hmem
      exact h.todo t' ht' point hmem n hn

theorem Stays.fork (h : Stays p c) (ht : t < c.numThreads) {func : Code} (hcodes : c.codes t = [func, u])
    : Stays p { c with
        numThreads := c.numThreads + 1
        codes := update (update c.codes c.numThreads [func]) t [u] } := by
  refine ⟨h.inside, h.at_set, h.to_set, ?_⟩
  intro t' ht' point hmem
  obtain ⟨t₀, ht₀, hmem₀, _⟩ := Control.mem_fork ht hcodes ht' hmem
  exact h.todo t₀ ht₀ point hmem₀

theorem Planned.todo (h : Planned c) {g' : Globals} {codes : List Code} (hfloors : FloorEffect u c.shared g' codes)
    (ht : t < c.numThreads) (hcodes : c.codes t = [u]) {t' : Nat} (ht' : t' < c.numThreads) {point : MainPoint}
    (hmem : .main point ∈ update c.codes t codes t')
    : t' = 0 ∧ ∃ point', .main point' ∈ c.codes t' ∧ point.todo <:+ point'.todo := by
  by_cases hne : t' = t
  . subst hne
    rw [Function.update_self] at hmem
    obtain ⟨point', rfl, htodo⟩ := hfloors.todo point hmem
    have hmem' : .main point' ∈ c.codes t' := by simp [hcodes]
    exact ⟨h.main t' ht point' hmem', point', hmem', htodo⟩
  . rw [Function.update_of_ne hne] at hmem
    exact ⟨h.main t' ht' point hmem, point, hmem, List.suffix_refl _⟩

theorem Planned.default_user (h : Planned c) (hsafe : Safe c) {g' : Globals} {codes : List Code}
    (hfloors : FloorEffect u c.shared g' codes) (ht : t < c.numThreads) (hcodes : c.codes t = [u]) {t' : Nat}
    (ht' : t' < c.numThreads) {point : MainPoint} (hmem : .main point ∈ update c.codes t codes t') {n : Int}
    (hn : .elevator n ∈ point.todo)
    : g'.numFloors = 0 ∨ g'.numFloors = 10 := by
  obtain ⟨hzero, point', hmem', htodo⟩ := h.todo hfloors ht hcodes ht' hmem
  have hdefault := h.default t' ht' point' hmem' n (htodo.subset hn)
  obtain hsame | ⟨_, hten⟩ | ⟨n', rest, rfl, _⟩ := hfloors.numFloors
  . rwa [hsame]
  . exact .inr hten
  . -- this is the only call of `Elevator`
    obtain rfl := h.main t ht (.init n' rest) (by simp [hcodes])
    subst hzero
    rw [Function.update_self, hfloors.init n' rest rfl] at hmem
    obtain rfl : point = .forkElevator rest := by simpa using hmem
    exact absurd hn (hsafe.notMem_of_init ht hcodes n)

theorem Planned.stays_of_created (h : Planned c) (hsafe : Safe c) {g' : Globals} {rest rest' : List Command}
    {point : PersonPoint}
    (hfloors : FloorEffect (.main (.commands rest)) c.shared g' [.personMain p point, .main (.commands rest')])
    (hvalid : p.Valid g') (ht : t < c.numThreads) (hcodes : c.codes t = [.main (.commands rest)])
    (hnum : g'.numFloors = if c.shared.numFloors = 0 then 10 else c.shared.numFloors)
    (hcreated : Created p g'.numFloors rest rest')
    : Stays p { c with
        codes := update c.codes t [.personMain p point, .main (.commands rest')]
        shared := g' } := by
  obtain ⟨atFloor, toFloor, hrest, hat, hto⟩ := hcreated
  have hone : 1 ≤ g'.numFloors := by
    split at hnum <;> omega
  constructor
  case inside =>
    constructor
    case one_le_at =>
      rw [hat]
      exact one_le_clamp hone atFloor
    case at_le =>
      rw [hat]
      exact clamp_le _ _
    case one_le_to =>
      rw [hto]
      exact one_le_clamp hone toFloor
    case to_le =>
      rw [hto]
      exact clamp_le _ _
  case at_set => exact hvalid.at_set
  case to_set => exact hvalid.to_set
  case todo =>
    intro t' ht' point' hmem n hn htwo
    dsimp only at hmem
    have hten := h.default_user hsafe hfloors ht hcodes ht' hmem hn
    have hmain := (h.todo hfloors ht hcodes ht' hmem).1
    have hsame := h.main t ht (.commands rest) (by simp [hcodes])
    subst hmain hsame
    rw [Function.update_self] at hmem
    obtain rfl : point' = .commands rest' := by simpa using hmem
    have hpairwise := (h.fits 0 ht (.commands rest) (by simp [hcodes])).sublist hrest.sublist
    have hfits : 2 ≤ n → clamp 10 atFloor ≤ n ∧ clamp 10 toFloor ≤ n :=
      (List.pairwise_cons.mp hpairwise).1 (.elevator n) hn
    have hfits := hfits htwo
    obtain hten : g'.numFloors = 10 := by omega
    rw [hat, hto, hten]
    omega

theorem Planned.user (h : Planned c) (hsafe : Safe c) (ht : t < c.numThreads) (hcodes : c.codes t = [u])
    : Planned { c with
        codes := update c.codes t ((u.run (H := H) c.shared).2.1.codes (u.run (H := H) c.shared).2.2)
        shared := (u.run (H := H) c.shared).1 } := by
  have hstays : ∀ p, Stays p c → _ := fun p hp => hp.user (H := H) hsafe h ht hcodes
  have heffect := Code.effect (H := H) (hsafe.ready ht hcodes) hsafe.fresh hsafe.numFloors
  have hfloors := Code.floorEffect (H := H) u c.shared
  generalize (u.run (H := H) c.shared).2.1.codes (u.run (H := H) c.shared).2.2 = codes
    at heffect hfloors hstays ⊢
  generalize (u.run (H := H) c.shared).1 = g' at heffect hfloors hstays ⊢
  constructor
  case numFloors =>
    have hmax : (maxFloors : Int) = 64 := rfl
    have hold := h.numFloors
    obtain hsame | ⟨_, hten⟩ | ⟨n, rest, _, hn, hnum⟩ := hfloors.numFloors <;> dsimp only <;> omega
  case main =>
    intro t' ht' point hmem
    exact (h.todo hfloors ht hcodes ht' hmem).1
  case fits =>
    intro t' ht' point hmem
    obtain ⟨_, point', hmem', htodo⟩ := h.todo hfloors ht hcodes ht' hmem
    exact (h.fits t' ht' point' hmem').sublist htodo.sublist
  case default =>
    intro t' ht' point hmem n hn
    exact h.default_user hsafe hfloors ht hcodes ht' hmem hn
  case persons =>
    intro t' ht' p point hmem
    dsimp only at hmem
    by_cases hne : t' = t
    . subst hne
      rw [Function.update_self] at hmem
      obtain ⟨point', rfl⟩ | ⟨rest, rest', rfl, rfl, hnum, hcreated⟩ := hfloors.persons p point hmem
      . exact hstays p (h.persons t' ht p point' (by simp [hcodes]))
      . have hvalid := (heffect.persons p point hmem).resolve_left nofun
        exact h.stays_of_created hsafe hfloors hvalid ht hcodes hnum hcreated
    . rw [Function.update_of_ne hne] at hmem
      exact hstays p (h.persons t' ht' p point hmem)

theorem Planned.fork (h : Planned c) (hsafe : Safe c) (ht : t < c.numThreads) {func : Code}
    (hcodes : c.codes t = [func, u])
    : Planned { c with
        numThreads := c.numThreads + 1
        codes := update (update c.codes c.numThreads [func]) t [u] } := by
  constructor
  case numFloors => exact h.numFloors
  case main =>
    intro t' ht' point hmem
    dsimp only at ht' hmem
    by_cases hne : t' = t
    . subst hne
      rw [Function.update_self, List.mem_singleton] at hmem
      subst hmem
      exact h.main t' ht point (by simp [hcodes])
    . rw [Function.update_of_ne hne] at hmem
      by_cases hnew : t' = c.numThreads
      . subst hnew
        rw [Function.update_self, List.mem_singleton] at hmem
        subst hmem
        cases hsafe.forks t ht _ u hcodes
      . rw [Function.update_of_ne hnew] at hmem
        exact h.main t' (by omega) point hmem
  case fits =>
    intro t' ht' point hmem
    obtain ⟨t₀, ht₀, hmem₀, _⟩ := Control.mem_fork ht hcodes ht' hmem
    exact h.fits t₀ ht₀ point hmem₀
  case default =>
    intro t' ht' point hmem
    obtain ⟨t₀, ht₀, hmem₀, _⟩ := Control.mem_fork ht hcodes ht' hmem
    exact h.default t₀ ht₀ point hmem₀
  case persons =>
    intro t' ht' p point hmem
    obtain ⟨t₀, ht₀, hmem₀, _⟩ := Control.mem_fork ht hcodes ht' hmem
    exact (h.persons t₀ ht₀ p point hmem₀).fork ht hcodes

variable {handler : H → List (HandlerCall H)} {rest : List Command}

theorem planned_of_reachable (hone : rest.countP Command.isElevator ≤ 1) (hfits : rest.Pairwise Fits)
    (h : (system handler rest).ControlReachable c)
    : Planned c := by
  refine Transition.Reachable.invariant (P := Planned) ?_ ?_ h
  . rintro c rfl
    constructor
    case numFloors => exact .inl rfl
    case main =>
      intro t ht point hmem
      exact (eq_of_mem_controlBoot ht hmem).1
    case fits =>
      intro t ht point hmem
      cases (eq_of_mem_controlBoot ht hmem).2
      exact hfits
    case default =>
      intro t ht point hmem n hn
      exact .inl rfl
    case persons =>
      intro t ht p point hmem
      cases (eq_of_mem_controlBoot ht hmem).2
  . intro c c' hreach hplanned hstep
    have hsafe := safe_of_reachable hone hreach
    cases hstep with
    | user t u ht hcodes => exact hplanned.user hsafe ht hcodes
    | fork t func u ht hcodes => exact hplanned.fork hsafe ht hcodes
    | interrupt => exact hplanned

theorem Stays.steps {s s' : State Globals Code H} (hone : rest.countP Command.isElevator ≤ 1)
    (hfits : rest.Pairwise Fits) (hreach : (system handler rest).Reachable s) (h : Stays p s.control)
    (hrun : ReflTransGen (Step (system handler rest).toProgram) s s')
    : Stays p s'.control := by
  induction hrun with
  | refl => exact h
  | @tail s₁ s₂ hrun hstep ih =>
    have hreach₁ : (system handler rest).Reachable s₁ := Transition.Reachable.trans hreach hrun
    have hsafe := safe_of_reachable hone hreach₁.control
    have hplanned := planned_of_reachable hone hfits hreach₁.control
    obtain heq | hcontrol := hreach₁.control_step hstep
    . rwa [heq]
    . generalize s₂.control = c' at hcontrol
      cases hcontrol with
      | user t u ht hcodes => exact ih.user hsafe hplanned ht hcodes
      | fork t func u ht hcodes => exact ih.fork ht hcodes
      | interrupt => exact ih

theorem alwaysServable_of_fits (hone : rest.countP Command.isElevator ≤ 1) (hfits : rest.Pairwise Fits)
    : AlwaysServable handler rest := by
  intro s t p point hreach ht hmem s' hrun
  have hplanned := planned_of_reachable hone hfits hreach.control
  have hreach' : (system handler rest).Reachable s' := Transition.Reachable.trans hreach hrun
  have hsafe' := safe_of_reachable hone hreach'.control
  have hplanned' := planned_of_reachable hone hfits hreach'.control
  have hstays := (hplanned.persons t ht p point hmem).steps hone hfits hreach hrun
  have htwo : 2 ≤ s'.shared.numFloors := by
    have hle : 1 ≤ s'.shared.numFloors := Nat.le_trans hstays.inside.one_le_at hstays.inside.at_le
    have hzero : s'.shared.numFloors = 0 ∨ 2 ≤ s'.shared.numFloors := hplanned'.numFloors
    omega
  exact servable_of_inside hstays.inside htwo hsafe'.numFloors hstays.at_set hstays.to_set

end

/-! ### The run of the main thread -/

section

variable {H : Type} {handler : H → List (HandlerCall H)} {all : List Command} {prog : Program Globals Code H}
  {s s' : State Globals Code H} {level level' : IntStatus} {free free' : Bool} {g g' : Globals}
  {frame : Frame Code H} {frames tail tail' : List (Frame Code H)}

structure Solo (s : State Globals Code H) (level : IntStatus) (free : Bool) (g : Globals)
    (tail : List (Frame Code H))
    : Prop where
  level : s.level = level
  inHandler : s.inHandler = false
  yieldOnReturn : s.yieldOnReturn = false
  pending : s.pending = []
  current : s.currentThread = 0
  numThreads : 0 < s.numThreads
  free : free = true → (s.sem (.lock lock)).value = 1 ∧ s.owner lock = none
  shared : s.shared = g
  stack : s.stack 0 = tail

theorem Solo.changeLevel (h : Solo s level free g tail) (now : IntStatus)
    : Solo (s.changeLevel now) now free g tail :=
  { h with level := rfl }

theorem Solo.setStack (h : Solo s level free g tail) (frames : List (Frame Code H))
    : Solo (s.setStack 0 frames) level free g frames :=
  { h with stack := by simp }

theorem Solo.advanceTime (h : Solo s level free g tail) : Solo s.advanceTime level free g tail := by
  obtain ⟨total, system, user, heq⟩ := State.advanceTime_eq s
  rw [heq]
  exact { h with }

theorem Solo.step (h : Solo s level free g (frame :: tail)) (hexec : exec prog [] s frame = .ok (frames, s'))
    (h' : Solo s' level' free' g' tail')
    : ∃ s'', Step prog s s'' ∧ Solo s'' level' free' g' (frames ++ tail) := by
  refine ⟨s'.setStack 0 (frames ++ tail), ⟨[], ?_⟩, h'.setStack _⟩
  unfold Nachos.step
  rw [h.current, h.stack]
  simp only [hexec]

theorem Solo.enable (h : Solo s .intOff free g (.setLevel .intOn :: tail))
    : ∃ s', ReflTransGen (Step prog) s s' ∧ Solo s' .intOn free g tail := by
  have hset : exec prog [] s (.setLevel .intOn) = .ok ([.oneTick], s.changeLevel .intOn) := by
    simp [exec, State.setLevel, h.level, h.inHandler, bind, Except.bind, pure, Except.pure]
  obtain ⟨s₁, hstep₁, h₁⟩ := h.step hset (h.changeLevel .intOn)
  obtain ⟨s₂, hstep₂, h₂⟩ := h₁.step rfl (h₁.advanceTime.changeLevel .intOff)
  have hdrain : exec prog [] s₂ (.tickDrain s₁.status) = .ok ([], s₂.changeLevel .intOn) := by
    simp [exec, State.checkIfDue, h₂.level, h₂.pending, h₂.yieldOnReturn, State.changeLevel, bind,
      Except.bind, pure, Except.pure]
  obtain ⟨s₃, hstep₃, h₃⟩ := h₂.step hdrain (h₂.changeLevel .intOn)
  exact ⟨s₃, ((ReflTransGen.single hstep₁).tail hstep₂).tail hstep₃, h₃⟩

theorem Solo.fork {func : Code} (h : Solo s .intOn free g (.fork func :: tail))
    : ∃ s', ReflTransGen (Step prog) s s' ∧ Solo s' .intOn free g tail := by
  have hfork : Solo (((s.newThread func).changeLevel .intOff).readyToRun s.numThreads) .intOff free g
      (.fork func :: tail) := by
    refine { h with level := rfl, numThreads := Nat.succ_pos _, stack := ?_ }
    exact (Function.update_of_ne (Nat.ne_of_lt h.numThreads) ..).trans h.stack
  have hexec : exec prog [] s (.fork func) = .ok ([.setLevel .intOn],
      ((s.newThread func).changeLevel .intOff).readyToRun s.numThreads) := by
    simp [exec, State.setLevel, State.newThread, h.level, bind, Except.bind, pure, Except.pure]
  obtain ⟨s₁, hstep, h₁⟩ := h.step hexec hfork
  obtain ⟨s', hrun, h'⟩ : ∃ s', ReflTransGen (Step prog) s₁ s' ∧ _ := h₁.enable
  exact ⟨s', .head hstep hrun, h'⟩

theorem Solo.acquire (h : Solo s .intOn true g (.acquire lock :: tail))
    : ∃ s', ReflTransGen (Step prog) s s' ∧ Solo s' .intOn false g tail := by
  obtain ⟨hvalue, howner⟩ := h.free rfl
  have hacquire : exec prog [] s (.acquire lock) = .ok ([.p (.lock lock), .setOwner lock], s) := by
    simp [exec, State.isHeldByCurrentThread, howner]
  obtain ⟨s₁, hstep₁, h₁⟩ := h.step hacquire h
  have hp : exec prog [] s₁ (.p (.lock lock)) = .ok ([.setLevel .intOn],
      { s₁.changeLevel .intOff with
        sem := update s₁.sem (.lock lock) { s₁.sem (.lock lock) with value := (s₁.sem (.lock lock)).value - 1 }
        syncLog := s₁.syncLog ++ [.p (.lock lock) s₁.currentThread] }) := by
    simp [exec, State.setLevel, State.semP, State.changeLevel, h₁.level, (h₁.free rfl).1, bind, Except.bind]
  obtain ⟨s₂, hstep₂, h₂⟩ := h₁.step hp
    (show Solo _ .intOff false g _ from { h₁.changeLevel .intOff with free := by simp })
  obtain ⟨s₃, hrun₃, h₃⟩ : ∃ s₃, ReflTransGen (Step prog) s₂ s₃ ∧ _ := h₂.enable
  obtain ⟨s₄, hstep₄, h₄⟩ := h₃.step rfl (show Solo _ .intOn false g _ from { h₃ with free := by simp })
  exact ⟨s₄, .head hstep₁ (.head hstep₂ (hrun₃.tail hstep₄)), h₄⟩

end

section

variable {H : Type} {handler : H → List (HandlerCall H)} {all rest : List Command}
  {s s' : State Globals Code H} {g : Globals}

def AtCommand (s : State Globals Code H) (g : Globals) (rest : List Command) : Prop :=
  Solo s .intOn true g [.user (.main (.commands rest)), .finish]

theorem exists_atCommand (handler : H → List (HandlerCall H)) (rest : List Command)
    : ∃ s, (system handler rest).Reachable s ∧ AtCommand s .start rest := by
  have hboot : Solo (boot (system handler rest) []) .intOff true .start
      [.setLevel .intOn, .user (.main (.commands rest)), .finish] :=
    ⟨rfl, rfl, rfl, rfl, rfl, Nat.one_pos, fun _ => ⟨rfl, rfl⟩, rfl, rfl⟩
  obtain ⟨s, hrun, h⟩ : ∃ s, ReflTransGen (Step (system handler rest).toProgram) _ s ∧ _ := hboot.enable
  exact ⟨s, ⟨_, ⟨[], rfl⟩, hrun⟩, h⟩

variable (handler all)

theorem AtCommand.arrive {atFloor toFloor : Int}
    (h : AtCommand s g (.arrivingGoingFromTo atFloor toFloor :: rest))
    : ∃ s₁ s', Step (system handler all).toProgram s s₁ ∧
        .personMain (arrivingGoingFromTo g atFloor toFloor).2 .start ∈ s₁.control.codes 0 ∧
        0 < s₁.numThreads ∧
        ReflTransGen (Step (system handler all).toProgram) s₁ s' ∧
        AtCommand s' (arrivingGoingFromTo g atFloor toFloor).1 rest := by
  have hexec : exec (system handler all).toProgram [] s
      (.user (.main (.commands (.arrivingGoingFromTo atFloor toFloor :: rest)))) =
        .ok ([.fork (.personMain (arrivingGoingFromTo g atFloor toFloor).2 .start),
          .user (.main (.commands rest))], { s with shared := (arrivingGoingFromTo g atFloor toFloor).1 }) := by
    rw [← h.shared]
    rfl
  obtain ⟨s₁, hstep, h₁⟩ := h.step hexec { h with shared := rfl }
  obtain ⟨s', hrun, h'⟩ : ∃ s', ReflTransGen (Step (system handler all).toProgram) s₁ s' ∧ _ := h₁.fork
  refine ⟨s₁, s', hstep, ?_, h₁.numThreads, hrun, h'⟩
  simp [State.control, Client.control, State.client, h₁.stack, Frame.point?, Point.code?]

theorem AtCommand.elevator {numFloors : Int} (h : AtCommand s g (.elevator numFloors :: rest))
    : ∃ s', ReflTransGen (Step (system handler all).toProgram) s s' ∧
        s'.shared = initElevator g numFloors := by
  have hexec : exec (system handler all).toProgram [] s
      (.user (.main (.commands (.elevator numFloors :: rest)))) =
        .ok ([.acquire lock, .user (.main (.init numFloors rest))], s) := rfl
  obtain ⟨s₁, hstep₁, h₁⟩ := h.step hexec h
  obtain ⟨s₂, hrun₂, h₂⟩ : ∃ s₂, ReflTransGen (Step (system handler all).toProgram) s₁ s₂ ∧ _ := h₁.acquire
  have hinit : exec (system handler all).toProgram [] s₂ (.user (.main (.init numFloors rest))) =
      .ok ([.release lock, .user (.main (.forkElevator rest))],
        { s₂ with shared := initElevator g numFloors }) := by
    rw [← h₂.shared]
    rfl
  obtain ⟨s₃, hstep₃, h₃⟩ := h₂.step hinit { h₂ with shared := rfl }
  exact ⟨s₃, .head hstep₁ (hrun₂.tail hstep₃), h₃.shared⟩

theorem AtCommand.skip {before : List Command} (h : AtCommand s g (before ++ rest))
    (hbefore : ∀ command ∈ before, command.isArriving = true)
    : ∃ s' g', ReflTransGen (Step (system handler all).toProgram) s s' ∧ AtCommand s' g' rest := by
  induction before generalizing s g with
  | nil => exact ⟨s, g, .refl, h⟩
  | cons command before ih =>
    rw [List.forall_mem_cons] at hbefore
    cases command with
    | arrivingGoingFromTo atFloor toFloor =>
      obtain ⟨s₁, s₂, hstep, _, _, hrun, h₂⟩ := h.arrive handler all
      obtain ⟨s', g', hrun', h'⟩ := ih h₂ hbefore.2
      exact ⟨s', g', .head hstep (hrun.trans hrun'), h'⟩
    | _ => cases hbefore.1

theorem pairwise_fits_of_countP (h : rest.countP Command.isElevator = 0) : rest.Pairwise Fits := by
  rw [List.countP_eq_zero] at h
  apply List.pairwise_of_forall_mem_list
  intro command _ later hlater
  cases later with
  | elevator numFloors => exact absurd rfl (h _ hlater)
  | _ => cases command <;> trivial

variable {handler all}

theorem AtCommand.fits (h : AtCommand s g rest) (hnum : g.numFloors = 0 ∨ g.numFloors = 10)
    (hreach : (system handler all).Reachable s)
    (hcalls : ∀ command ∈ rest, command.isElevator = true ∨ command.isArriving = true)
    (hone : rest.countP Command.isElevator ≤ 1) (hservable : AlwaysServable handler all)
    : rest.Pairwise Fits := by
  induction rest generalizing s g with
  | nil => exact .nil
  | cons command rest ih =>
    rw [List.forall_mem_cons] at hcalls
    cases command with
    | setSpawnerActive | yield => cases hcalls.1 <;> contradiction
    | elevator numFloors =>
      rw [List.countP_cons_of_pos rfl] at hone
      refine List.pairwise_cons.mpr ⟨?_, pairwise_fits_of_countP (by omega)⟩
      intro later _
      cases later <;> trivial
    | arrivingGoingFromTo atFloor toFloor =>
      rw [List.countP_cons_of_neg Bool.false_ne_true] at hone
      obtain ⟨s₁, s₂, hstep, hmem, hthreads, hrun, h₂⟩ := h.arrive handler all
      have hten : (initIfNeeded g).numFloors = 10 := by
        have heq := initIfNeeded_numFloors g
        split at heq <;> omega
      have hreach₁ := hreach.tail hstep
      refine List.pairwise_cons.mpr ⟨?_, ih h₂ (.inr hten) (hreach₁.trans hrun) hcalls.2 hone⟩
      intro later hlater
      cases later with
      | elevator numFloors =>
        intro htwo
        obtain ⟨before, after, rfl⟩ := List.append_of_mem hlater
        have hbefore : ∀ command ∈ before, command.isArriving = true := by
          intro command hcommand
          refine (hcalls.2 command (List.mem_append_left _ hcommand)).resolve_left ?_
          intro helevator
          have hpos : 0 < before.countP Command.isElevator := List.countP_pos_iff.mpr ⟨_, hcommand, helevator⟩
          rw [List.countP_append, List.countP_cons_of_pos rfl] at hone
          omega
        obtain ⟨s₃, g₃, hrun₃, h₃⟩ := h₂.skip handler all hbefore
        obtain ⟨s₄, hrun₄, hshared⟩ := h₃.elevator handler all
        have hinside := (hservable s₁ 0 _ _ hreach₁ hthreads hmem s₄ (hrun.trans (hrun₃.trans hrun₄))).inside
        have hat : (clamp (initIfNeeded g).numFloors atFloor).toNat ≤ s₄.shared.numFloors := hinside.at_le
        have hto : (clamp (initIfNeeded g).numFloors toFloor).toNat ≤ s₄.shared.numFloors := hinside.to_le
        rw [hten, hshared, initElevator_numFloors, if_pos htwo] at hat hto
        omega
      | _ => trivial

end

theorem requests_servable_iff {H : Type} (handler : H → List (HandlerCall H)) (rest : List Command)
    (hcalls : ∀ command ∈ rest, command.isElevator = true ∨ command.isArriving = true)
    (hone : rest.countP Command.isElevator ≤ 1)
    : AlwaysServable handler rest ↔ rest.Pairwise Fits := by
  constructor
  . intro hservable
    obtain ⟨s, hreach, h⟩ := exists_atCommand handler rest
    exact h.fits (.inl rfl) hreach hcalls hone hservable
  . exact alwaysServable_of_fits hone

theorem requests_servable_five
    : AlwaysServable timeSlicing
        [.arrivingGoingFromTo 3 1, .elevator 5, .arrivingGoingFromTo 9 2] :=
  (requests_servable_iff timeSlicing _ (by decide) (by decide)).mpr (by decide)

theorem request_unservable_eight
    : ∃ s s', (system timeSlicing [.arrivingGoingFromTo 8 1, .elevator 5]).Reachable s ∧
        1 < s.numThreads ∧ .personMain ⟨0, 8, 1⟩ .start ∈ s.control.codes 1 ∧
        ReflTransGen (Step (system timeSlicing [.arrivingGoingFromTo 8 1, .elevator 5]).toProgram) s s' ∧
        s'.shared.numFloors = 5 ∧ s'.shared.waitingAt 8 = 1 ∧ anyPending s'.shared = false ∧
        ¬AlwaysServable timeSlicing [.arrivingGoingFromTo 8 1, .elevator 5] := by
  -- The person waits on floor 8, but the elevator has 5 floors and does not look further.
  have hcreated : 1 < (elevatorRun [.arrivingGoingFromTo 8 1, .elevator 5] [] 8).numThreads ∧
      .personMain ⟨0, 8, 1⟩ .start ∈
        (elevatorRun [.arrivingGoingFromTo 8 1, .elevator 5] [] 8).control.codes 1 := by
    decide +kernel
  have hreach := reachable_elevatorRun [.arrivingGoingFromTo 8 1, .elevator 5] [] 8
  generalize hs : elevatorRun [.arrivingGoingFromTo 8 1, .elevator 5] [] 8 = s at hcreated hreach
  have hlater : (runFor (system timeSlicing [.arrivingGoingFromTo 8 1, .elevator 5]).toProgram 40
        s).shared.numFloors = 5 ∧
      (runFor (system timeSlicing [.arrivingGoingFromTo 8 1, .elevator 5]).toProgram 40
        s).shared.waitingAt 8 = 1 ∧
      anyPending (runFor (system timeSlicing [.arrivingGoingFromTo 8 1, .elevator 5]).toProgram 40
        s).shared = false := by
    rw [← hs, runFor_eq_runEager, elevatorRun_eq]
    decide +kernel
  have hrun := runFor_steps (system timeSlicing [.arrivingGoingFromTo 8 1, .elevator 5]).toProgram s 40
  refine ⟨s, _, hreach, hcreated.1, hcreated.2, hrun, hlater.1, hlater.2.1, hlater.2.2, ?_⟩
  intro hservable
  have hle := (hservable s 1 _ _ hreach hcreated.1 hcreated.2 _ hrun).inside.at_le
  rw [hlater.1] at hle
  contradiction

end Nachos.Elevator
