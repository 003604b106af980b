import Nachos.Elevator.Safety

/-!
This module contains the announcement of the elevator. While the elevator has the lock, nobody starts
to wait for a floor, so the persons that have a `P` of `floorArriveSem` ahead of them get fewer, and
every one of them takes a unit. `ElevatorMain` calls `V` often enough for all of them.
-/

namespace Nachos.Elevator

open Function (update)

def Code.goesTo (q : Nat) : Code → Bool
  | .personMain p .registered => arriveSem p.atFloor = q
  | .personMain _ .noSpace => spaceSem = q
  | .personMain p .boarded => arriveSem p.toFloor = q
  | .personMain p .notYet => arriveSem p.toFloor = q
  | _ => false

def pointWaits (q : Nat) : Point Code → Bool
  | .user u => u.goesTo q
  | .p q' => q' = .sem q
  | .pWhile q' => q' = .sem q
  | _ => false

def numWaiting (a : Client Globals Code) (q : Nat) : Nat :=
  Nat.count (fun t => (a.points t).any (pointWaits q)) a.numThreads

/-! ### What the code calls -/

section

variable {H : Type} {g : Globals} {call : Call Code H} {u u' : Code}

/--
What is known when a call returns: a person that returns from `P` waits for this floor, or rides to it, and does not
go on to the next `P`. The elevator gets into its loops by `V` only.
-/
structure Returns (call : Call Code H) (u : Code) : Prop where
  p : ∀ n, call = .p n → (∀ q, u.goesTo q = false) ∧
    ∀ f, n = arriveSem f → u.waitsAt f = true ∨ u.ridesTo f = true
  loop : ∀ point, u = .elevatorMain point → point.isLoop = true → ∃ n, call = .v n
  fork : ∀ func, call = .fork func → func.isStart = true

theorem commands_returns (g : Globals) (rest : List Command)
    : Returns (commands (H := H) g rest).2.1 (commands (H := H) g rest).2.2 := by
  have hnext := commands_cases (H := H) g rest
  generalize commands (H := H) g rest = res at hnext
  cases hnext with
  | arrive =>
    refine ⟨by simp, by simp, ?_⟩
    intro func h
    cases h
    rfl
  | _ => exact ⟨by simp, by simp, by simp⟩

theorem Announces.returns {left : Nat → Nat} {res : Globals × Call Code H × Code}
    (h : Announces g left res)
    : Returns res.2.1 res.2.2 := by
  cases h with
  | v => exact ⟨by simp, fun _ _ _ => ⟨_, rfl⟩, by simp⟩
  | release =>
    refine ⟨by simp, ?_, by simp⟩
    intro point hpoint hloop
    cases hpoint
    cases hloop

theorem Returns.of_elevator {point : ElevatorPoint} (hloop : point.isLoop = false)
    (hp : ∀ n, call ≠ .p n) (hfork : ∀ func, call ≠ .fork func)
    : Returns call (.elevatorMain point) := by
  constructor
  case p => exact fun n h => absurd h (hp n)
  case fork => exact fun func h => absurd h (hfork func)
  case loop =>
    intro point' hpoint h
    cases hpoint
    rw [hloop] at h
    contradiction

theorem elevatorMain_returns (g : Globals) (point : ElevatorPoint)
    : Returns (elevatorMain (H := H) g point).2.1 (elevatorMain (H := H) g point).2.2 := by
  cases point with
  | start | move | closeDoors | shutDown =>
    exact .of_elevator rfl (by simp [elevatorMain]) (by simp [elevatorMain])
  | travel | wait | loop =>
    rw [elevatorMain]
    split <;> exact .of_elevator rfl (by simp) (by simp)
  | openDoors dir => exact (getOn_announces _ dir 0).returns
  | getOn dir i => exact (getOn_announces g dir i).returns
  | getOff dir i => exact (getOff_announces g dir i).returns
  | advertise dir i => exact (advertise_announces g dir i).returns

theorem personMain_returns (g : Globals) (p : PersonArgs) (point : PersonPoint)
    : Returns (personMain (H := H) g p point).2.1 (personMain (H := H) g p point).2.2 := by
  cases point with
  | board | leave =>
    rw [personMain]
    split <;> exact ⟨by simp, by simp, by simp⟩
  | registered | noSpace | boarded | notYet =>
    refine ⟨?_, by simp [personMain], by simp [personMain]⟩
    intro n hn
    cases hn
    simp [personMain, Code.goesTo, Code.waitsAt, Code.ridesTo, PersonPoint.waits, PersonPoint.rides,
      arriveSem, spaceSem]
  | _ => exact ⟨by simp [personMain], by simp [personMain], by simp [personMain]⟩

theorem main_returns (g : Globals) (point : MainPoint)
    : Returns (main (H := H) g point).2.1 (main (H := H) g point).2.2 := by
  cases point with
  | commands rest => exact commands_returns g rest
  | init => exact ⟨by simp [main], by simp [main], by simp [main]⟩
  | forkElevator =>
    refine ⟨by simp [main], by simp [main], ?_⟩
    intro func h
    cases h
    rfl

theorem Code.returns (u : Code) (g : Globals)
    : Returns (u.run (H := H) g).2.1 (u.run (H := H) g).2.2 := by
  cases u with
  | main point => exact main_returns g point
  | elevatorMain point => exact elevatorMain_returns g point
  | personMain p point => exact personMain_returns g p point

structure Passive (u : Code) (g : Globals) (res : Globals × Call Code H × Code) : Prop where
  waitingAt : res.1.waitingAt = g.waitingAt
  wantOffAt : res.1.wantOffAt = g.wantOffAt
  currentFloor : res.1.currentFloor = g.currentFloor
  goesTo : ∀ q, (res.2.1.points res.2.2).any (pointWaits q) = true → u.goesTo q = true

theorem commands_passive (hfresh : Fresh g) (rest : List Command)
    : Passive (H := H) (.main (.commands rest)) g (commands g rest) := by
  have hnext := commands_cases (H := H) g rest
  generalize commands (H := H) g rest = res at hnext
  cases hnext with
  | ret active => exact ⟨rfl, rfl, rfl, fun f h => by cases h⟩
  | elevator => exact ⟨rfl, rfl, rfl, fun f h => by cases h⟩
  | yield => exact ⟨rfl, rfl, rfl, fun f h => by cases h⟩
  | arrive active atFloor toFloor =>
    have hfresh' : Fresh { g with spawnerActive := active } := hfresh
    obtain ⟨_, _, _, heq, _⟩ := arrivingGoingFromTo_of_fresh hfresh' atFloor toFloor
    rw [heq]
    exact ⟨rfl, rfl, rfl, fun f h => by cases h⟩

theorem elevatorMain_passive (point : ElevatorPoint) (hheld : (Code.elevatorMain point).held = false)
    : Passive (H := H) (.elevatorMain point) g (elevatorMain g point) := by
  cases point with
  | start | shutDown => exact ⟨rfl, rfl, rfl, fun f h => by cases h⟩
  | travel | wait | loop =>
    rw [elevatorMain]
    split <;> exact ⟨rfl, rfl, rfl, fun f h => by cases h⟩
  | _ => cases hheld

theorem personMain_passive (p : PersonArgs) (point : PersonPoint)
    (hheld : (Code.personMain p point).held = false)
    : Passive (H := H) (.personMain p point) g (personMain g p point) := by
  cases point with
  | register | board | leave | left => cases hheld
  | registered | noSpace | boarded | notYet =>
    refine ⟨rfl, rfl, rfl, ?_⟩
    intro q h
    simpa [personMain, Call.points, Call.frames, Frame.point?, pointWaits, Code.goesTo] using h
  | _ => exact ⟨rfl, rfl, rfl, fun f h => by cases h⟩

theorem Code.passive (hfresh : Fresh g) (hheld : u.held = false)
    : Passive (H := H) u g (u.run g) := by
  cases u with
  | main point =>
    cases point with
    | commands rest => exact commands_passive hfresh rest
    | init => cases hheld
    | forkElevator => exact ⟨rfl, rfl, rfl, fun f h => by cases h⟩
  | elevatorMain point => exact elevatorMain_passive point hheld
  | personMain p point => exact personMain_passive p point hheld

end

/-! ### The invariant -/

/--
The elevator is between its first loop and the end of its `Release`, with `k` calls of `V` for `q` left.
-/
inductive Announcing (q : Nat) (g : Globals) (k : Nat) : List (Point Code) → Prop where
  | user (point : ElevatorPoint) (hloop : point.isLoop = true) (hk : k = point.left q g)
    : Announcing q g k [.user (.elevatorMain point), .finish]
  | v (n : Nat) (point : ElevatorPoint) (hloop : point.isLoop = true)
      (hk : k = point.left q g + calls q n 1)
    : Announcing q g k [.v (.sem n), .user (.elevatorMain point), .finish]
  | release (dir : Int) (hk : k = 0)
    : Announcing q g k [.release lock, .user (.elevatorMain (.wait dir 0)), .finish]
  | lockV (dir : Int) (hk : k = 0)
    : Announcing q g k [.v (.lock lock), .user (.elevatorMain (.wait dir 0)), .finish]

def missing (a : Client Globals Code) (q : Nat) : Int :=
  numWaiting a q - (a.sem (.sem q)).value

def Covered (q : Globals → Nat) (a : Client Globals Code) : Prop :=
  ∀ t k, t < a.numThreads → Announcing (q a.shared) a.shared k (a.points t) →
    missing a (q a.shared) ≤ k

section

variable {H : Type} {handler : H → List (HandlerCall H)} {rest : List Command}
  {a a' : Client Globals Code} {t k q : Nat} {point : Point Code}
  {points tail : List (Point Code)} {held : Bool}

theorem Returns.of_called {call : Call Code H} {u : Code}
    (h : (discipline handler rest).Called held call u)
    : Returns call u := by
  obtain ⟨u₀, g, _, hcode⟩ := h
  have := u₀.returns (H := H) g
  change (u₀.run g).2 = (call, u) at hcode
  rw [hcode] at this
  exact this

theorem held_of_isLoop {point : ElevatorPoint} (h : point.isLoop = true)
    : (Code.elevatorMain point).held = true := by
  cases point with
  | getOn | getOff | advertise => rfl
  | _ => cases h

theorem goesTo_of_isStart {u : Code} (h : u.isStart = true) (q : Nat) : u.goesTo q = false := by
  unfold Code.isStart at h
  split at h
  . rfl
  . rfl
  . contradiction

theorem Announcing.holds {g : Globals} (h : Announcing q g k (a.points t)) (ht : t < a.numThreads)
    (hfollows : (discipline handler rest).Follows (decide (a.owner lock = some t)) (a.points t))
    : a.holds lock t = true := by
  generalize hpoints : a.points t = points at h hfollows
  cases h with
  | user point hloop =>
    cases hfollows with
    | user _ hu =>
      have howner : a.owner lock = some t := by
        simpa using (held_of_isLoop hloop).symm.trans hu
      simp [Client.holds, ht, howner]
  | v n point hloop =>
    cases hfollows with
    | v _ _ hcall =>
      have howner : a.owner lock = some t := by
        simpa using (held_of_isLoop hloop).symm.trans hcall.respects
      simp [Client.holds, ht, howner]
  | release =>
    cases hfollows with
    | release _ _ hheld =>
      have howner : a.owner lock = some t := by simpa using hheld
      simp [Client.holds, ht, howner]
  | lockV => simp [Client.holds, ht, hpoints, Point.isInside]

theorem numWaiting_act (hact : Client.Act (system handler rest).toProgram a t point points a')
    (ht : t < a.numThreads) (hpoints : a.points t = point :: tail) (q : Nat)
    : numWaiting (a'.setPoints t (points ++ tail)) q +
        (if (point :: tail).any (pointWaits q) then 1 else 0) =
      numWaiting a q + if (points ++ tail).any (pointWaits q) then 1 else 0 := by
  have hcount := hact.count ht (P := fun t => (a.points t).any (pointWaits q) = true)
    (Q := fun t' => ((a'.setPoints t (points ++ tail)).points t').any (pointWaits q) = true) ?_ ?_
  . simpa [numWaiting, hpoints] using hcount
  . intro t' ht' hne
    simp [hne, hact.points_of_lt ht']
  . intro t' func hle hnew
    have hne : t' ≠ t := by omega
    simp [hne, hnew, pointWaits]

theorem value_post (a : Client Globals Code) (q n t : Nat)
    : ((a.post (.sem n) t).sem (.sem q)).value = (a.sem (.sem q)).value + calls q n 1 := by
  unfold calls
  by_cases hq : q = n <;> simp [hq]

theorem missing_le (hact : Client.Act (system handler rest).toProgram a t point points a')
    (ht : t < a.numThreads) (hpoints : a.points t = point :: tail)
    (hwaits : (points ++ tail).any (pointWaits q) = true → (point :: tail).any (pointWaits q) = true)
    (hvalue : (a.sem (.sem q)).value ≤ (a'.sem (.sem q)).value)
    : missing (a'.setPoints t (points ++ tail)) q ≤ missing a q := by
  have hcount := numWaiting_act hact ht hpoints q
  unfold missing
  rw [Client.setPoints_sem]
  by_cases hnew : (points ++ tail).any (pointWaits q) = true
  . rw [if_pos hnew, if_pos (hwaits hnew)] at hcount
    omega
  . rw [if_neg hnew] at hcount
    omega

theorem missing_le_of_take {n : Nat}
    (hact : Client.Act (system handler rest).toProgram a t point [] (a.take (.sem n) t))
    (ht : t < a.numThreads) (hpoints : a.points t = point :: tail)
    (hpoint : pointWaits q point = decide (n = q)) (htail : tail.any (pointWaits q) = false)
    : missing ((a.take (.sem n) t).setPoints t ([] ++ tail)) q ≤ missing a q := by
  by_cases hn : n = q
  . have hcount := numWaiting_act hact ht hpoints q
    have hold : (point :: tail).any (pointWaits q) = true := by
      rw [List.any_cons, hpoint, decide_eq_true hn, Bool.true_or]
    rw [if_pos hold, List.nil_append, htail, if_neg (by decide)] at hcount
    subst hn
    unfold missing
    rw [List.nil_append, Client.setPoints_sem, Client.take_sem, Function.update_self]
    dsimp only
    omega
  . refine missing_le hact ht hpoints ?_ ?_
    . rw [List.nil_append, htail]
      simp
    . have hne : SemId.sem q ≠ .sem n := by
        intro heq
        injection heq with heq
        exact hn heq.symm
      rw [Client.take_sem, Function.update_of_ne hne]

theorem missing_act (hact : Client.Act (system handler rest).toProgram a t point points a')
    (ht : t < a.numThreads) (hpoints : a.points t = point :: tail)
    (hfollows : (discipline handler rest).Follows held (point :: tail))
    (huser : ∀ u, point = .user u →
      (((system handler rest).code u a.shared).2.1.points
        ((system handler rest).code u a.shared).2.2).any (pointWaits q) = true → u.goesTo q = true)
    : missing (a'.setPoints t (points ++ tail)) q ≤ missing a q := by
  have hself := hact
  cases hact with
  | user u =>
    cases hfollows with
    | user =>
      refine missing_le hself ht hpoints ?_ (Int.le_refl _)
      intro hwaits
      have := huser u rfl (by simpa [pointWaits] using hwaits)
      simp [pointWaits, this]
  | pTake q' hvalue =>
    cases hfollows with
    | p n u hcall =>
      have hgoes := ((Returns.of_called hcall).p n rfl).1 q
      exact missing_le_of_take hself ht hpoints (by simp [pointWaits]) (by simp [pointWaits, hgoes])
    | lockP => exact missing_le hself ht hpoints (by simp [pointWaits]) (by simp)
  | pWhileTake q' hvalue =>
    cases hfollows with
    | pWhile n u hcall =>
      have hgoes := ((Returns.of_called hcall).p n rfl).1 q
      exact missing_le_of_take hself ht hpoints (by simp [pointWaits]) (by simp [pointWaits, hgoes])
    | lockPWhile => exact missing_le hself ht hpoints (by simp [pointWaits]) (by simp)
  | pBlock q' hvalue =>
    refine missing_le hself ht hpoints (by simp [pointWaits]) ?_
    by_cases hq : SemId.sem q = q' <;> simp [hq]
  | pWhileBlock q' hvalue =>
    refine missing_le hself ht hpoints (by simp [pointWaits]) ?_
    by_cases hq : SemId.sem q = q' <;> simp [hq]
  | threadRoot func =>
    cases hfollows with
    | threadRoot _ u before hcall =>
      have hidle := goesTo_of_isStart ((Returns.of_called hcall).fork func rfl) q
      exact missing_le hself ht hpoints (by simp [pointWaits, hidle]) (Int.le_refl _)
  | v q' =>
    cases q' with
    | sem n =>
      refine missing_le hself ht hpoints (by simp [pointWaits]) ?_
      rw [value_post]
      omega
    | lock l => exact missing_le hself ht hpoints (by simp [pointWaits]) (by simp)
  | _ => exact missing_le hself ht hpoints (by simp [pointWaits]) (Int.le_refl _)

theorem counted_of_goesTo {f : Nat} {u : Code} (h : u.goesTo (arriveSem f) = true)
    : u.waitsAt f = true ∨ u.ridesTo f = true := by
  unfold Code.goesTo at h
  split at h
  . left
    simpa [Code.waitsAt, PersonPoint.waits, arriveSem] using h
  . simp [spaceSem, arriveSem] at h
  . right
    simpa [Code.ridesTo, PersonPoint.rides, arriveSem] using h
  . right
    simpa [Code.ridesTo, PersonPoint.rides, arriveSem] using h
  . contradiction

theorem numWaiting_le (hsafe : Safe a.control)
    (hfollows : ∀ t, t < a.numThreads →
      (discipline handler rest).Follows (decide (a.owner lock = some t)) (a.points t)) (f : Nat)
    : (numWaiting a (arriveSem f) : Int) ≤ a.shared.waitingAt f + a.shared.wantOffAt f := by
  have hwaiting : a.shared.waitingAt f = a.control.num (Code.waitsAt f) := hsafe.waiting f
  have hwantOff : a.shared.wantOffAt f = a.control.num (Code.ridesTo f) := hsafe.wantOff f
  have hle : numWaiting a (arriveSem f) ≤
      a.control.num (Code.waitsAt f) + a.control.num (Code.ridesTo f) := by
    apply Nat.count_le_add
    intro t ht hany
    have hself := hfollows t ht
    unfold Control.label Client.control
    dsimp only
    generalize a.points t = points at hself hany
    cases hself with
    | p n u hcall | pWhile n u hcall =>
      obtain ⟨hgoes, hcounted⟩ := (Returns.of_called hcall).p n rfl
      exact hcounted f (by simpa [pointWaits, hgoes] using hany)
    | user u | exit u | exited u | fork _ u | v _ u | acquire u | lockP u | lockPWhile u | setOwner u
    | release u | lockV u =>
      have hgoes : u.goesTo (arriveSem f) = true := by simpa [pointWaits] using hany
      exact counted_of_goesTo hgoes
    | _ => simp [pointWaits] at hany
  omega

structure Entered (q : Nat) (u : Code) (g : Globals) (k : Nat) (res : Globals × Call Code H × Code)
    : Prop where
  point : ∃ point, u = .elevatorMain point ∧ ((point.isLoop = true ∧ k = point.left q g) ∨
    ∃ dir, point = .openDoors dir ∧ k = ElevatorPoint.left q g (.getOn dir 0))
  currentFloor : res.1.currentFloor = g.currentFloor
  passive : ∀ q, (res.2.1.points res.2.2).any (pointWaits q) = false

theorem Announces.entered {g : Globals} {left : Nat → Nat} {res : Globals × Call Code H × Code}
    (h : Announces g left res)
    (hannouncing : Announcing q res.1 k (res.2.1.points res.2.2 ++ [.finish]))
    : k = left q ∧ res.1 = g ∧ ∀ q, (res.2.1.points res.2.2).any (pointWaits q) = false := by
  cases h with
  | v n point hloop hleft =>
    cases hannouncing with
    | v _ _ _ hk => exact ⟨hk.trans (hleft q).symm, rfl, fun _ => rfl⟩
  | release dir hleft =>
    cases hannouncing with
    | release _ hk => exact ⟨hk.trans (hleft q).symm, rfl, fun _ => rfl⟩

theorem elevatorMain_entered {g : Globals} {point : ElevatorPoint}
    (h : Announcing q (elevatorMain (H := H) g point).1 k
      ((elevatorMain (H := H) g point).2.1.points (elevatorMain (H := H) g point).2.2 ++ [.finish]))
    : Entered (H := H) q (.elevatorMain point) g k (elevatorMain g point) := by
  cases point with
  | start | move | closeDoors | shutDown => cases h
  | travel | wait | loop =>
    rw [elevatorMain] at h
    split at h <;> cases h <;> contradiction
  | openDoors dir =>
    obtain ⟨hk, hg, hwaits⟩ := (getOn_announces _ dir 0).entered h
    refine ⟨⟨_, rfl, .inr ⟨dir, rfl, hk⟩⟩, ?_, hwaits⟩
    rw [elevatorMain, hg]
  | getOn dir i =>
    obtain ⟨hk, hg, hwaits⟩ := (getOn_announces g dir i).entered h
    exact ⟨⟨_, rfl, .inl ⟨rfl, hk⟩⟩, congrArg Globals.currentFloor hg, hwaits⟩
  | getOff dir i =>
    obtain ⟨hk, hg, hwaits⟩ := (getOff_announces g dir i).entered h
    exact ⟨⟨_, rfl, .inl ⟨rfl, hk⟩⟩, congrArg Globals.currentFloor hg, hwaits⟩
  | advertise dir i =>
    obtain ⟨hk, hg, hwaits⟩ := (advertise_announces g dir i).entered h
    exact ⟨⟨_, rfl, .inl ⟨rfl, hk⟩⟩, congrArg Globals.currentFloor hg, hwaits⟩

theorem main_not_announcing {g g' : Globals} {point : MainPoint}
    : ¬Announcing q g' k
        ((main (H := H) g point).2.1.points (main (H := H) g point).2.2 ++ [.finish]) := by
  intro h
  cases point with
  | commands rest =>
    rw [main] at h
    have hnext := commands_cases (H := H) g rest
    generalize commands (H := H) g rest = res at hnext h
    cases hnext <;> cases h
  | init => cases h
  | forkElevator => cases h

theorem personMain_not_announcing {g g' : Globals} {p : PersonArgs} {point : PersonPoint}
    : ¬Announcing q g' k ((personMain (H := H) g p point).2.1.points
        (personMain (H := H) g p point).2.2 ++ [.finish]) := by
  intro h
  cases point with
  | board | leave =>
    rw [personMain] at h
    split at h <;> cases h
  | _ => cases h

theorem Announcing.entered {g : Globals} {u : Code}
    (h : Announcing q (u.run (H := H) g).1 k
      ((u.run (H := H) g).2.1.points (u.run (H := H) g).2.2 ++ [.finish]))
    : Entered (H := H) q u g k (u.run g) := by
  cases u with
  | main point => exact absurd h main_not_announcing
  | personMain p point => exact absurd h personMain_not_announcing
  | elevatorMain point => exact elevatorMain_entered h

theorem Announcing.congr {g g' : Globals} (h : Announcing q g' k points)
    (hfloor : g'.currentFloor = g.currentFloor) (hwaiting : g'.waitingAt = g.waitingAt)
    (hwantOff : g'.wantOffAt = g.wantOffAt)
    : Announcing q g k points := by
  have hleft : ∀ point : ElevatorPoint, point.left q g' = point.left q g := by
    intro point
    cases point <;> simp only [ElevatorPoint.left, hfloor, hwaiting, hwantOff]
  cases h with
  | user point hloop hk => exact .user point hloop (hk.trans (hleft point))
  | v n point hloop hk => exact .v n point hloop (by rw [hk, hleft])
  | release dir hk => exact .release dir hk
  | lockV dir hk => exact .lockV dir hk

theorem Announcing.v_of_called {g : Globals} {call : Call Code H} {u : Code}
    (h : Announcing q g k [.user u, .finish])
    (hcall : (discipline handler rest).Called held call u)
    : ∃ n point, call = .v n ∧ u = .elevatorMain point ∧ point.isLoop = true ∧
        k = point.left q g := by
  cases h with
  | user point hloop hk =>
    obtain ⟨n, hn⟩ := (Returns.of_called hcall).loop point rfl hloop
    exact ⟨n, point, hn, rfl, hloop, hk⟩

theorem Announcing.currentFloor_eq
    (hself : (discipline handler rest).Follows held (point :: tail))
    (hact : Client.Act (system handler rest).toProgram a t point points a')
    (hannouncing : Announcing q a'.shared k (points ++ tail))
    : a'.shared.currentFloor = a.shared.currentFloor := by
  cases hact with
  | user u =>
    cases hself with
    | user => exact hannouncing.entered.currentFloor
  | _ => rfl

theorem Announcing.own (hself : (discipline handler rest).Follows held (point :: tail))
    (hold : ∀ k, Announcing q a.shared k (point :: tail) → missing a q ≤ k)
    (hopen : ∀ dir, point = .user (.elevatorMain (.openDoors dir)) →
      missing a q ≤ ElevatorPoint.left q a.shared (.getOn dir 0))
    (ht : t < a.numThreads) (hpoints : a.points t = point :: tail)
    (hact : Client.Act (system handler rest).toProgram a t point points a')
    (hannouncing : Announcing q a'.shared k (points ++ tail))
    : missing (a'.setPoints t (points ++ tail)) q ≤ k := by
  have hmono := fun huser => missing_act (q := q) hact ht hpoints hself huser
  have hcount := numWaiting_act hact ht hpoints q
  cases hact with
  | user u =>
    cases hself with
    | user _ hu =>
      have hentered := hannouncing.entered
      refine Int.le_trans (hmono ?_) ?_
      . intro u' hu' hwaits
        cases hu'
        exact absurd ((hentered.passive q).symm.trans hwaits) (by simp)
      . obtain ⟨point, rfl, ⟨hloop, hk⟩ | ⟨dir, rfl, hk⟩⟩ := hentered.point
        . exact hold k (.user point hloop hk)
        . rw [hk]
          exact hopen dir rfl
  | v q' =>
    cases hself with
    | v n u hcall =>
      obtain ⟨_, point, _, rfl, hloop, hk⟩ := hannouncing.v_of_called hcall
      have hbefore := hold _ (.v n point hloop rfl)
      change k = point.left q a.shared at hk
      have hsame : numWaiting ((a.post (.sem n) t).setPoints t
          ([] ++ [.user (.elevatorMain point), .finish])) q = numWaiting a q := by
        simpa [pointWaits] using hcount
      unfold missing at hbefore ⊢
      rw [hsame, Client.setPoints_sem, value_post]
      omega
    | lockV u hcall =>
      obtain ⟨n, _, hn, _⟩ := hannouncing.v_of_called hcall
      cases hn
  | release l howner =>
    cases hself with
    | release u =>
      cases hannouncing with
      | lockV dir hk =>
        exact Int.le_trans (hmono (fun _ hu => by cases hu)) (hold k (.release dir hk))
  | threadRoot func =>
    cases hself with
    | threadRoot _ u before hcall =>
      cases hannouncing with
      | user point hloop =>
        have hheld : (Code.elevatorMain point).held = false := hcall.respects.1
        rw [held_of_isLoop hloop] at hheld
        contradiction
  | pTake q' =>
    cases hself with
    | p n u hcall =>
      obtain ⟨n, _, hn, _⟩ := hannouncing.v_of_called hcall
      cases hn
    | lockP => cases hannouncing
  | pWhileTake q' =>
    cases hself with
    | pWhile n u hcall =>
      obtain ⟨n, _, hn, _⟩ := hannouncing.v_of_called hcall
      cases hn
    | lockPWhile => cases hannouncing
  | setOwner l =>
    cases hself with
    | setOwner u hcall =>
      obtain ⟨n, _, hn, _⟩ := hannouncing.v_of_called hcall
      cases hn
  | fork func =>
    cases hself with
    | fork _ u hcall =>
      obtain ⟨n, _, hn, _⟩ := hannouncing.v_of_called hcall
      cases hn
  | finish | pBlock | pWhileBlock | acquire => cases hannouncing
  | _ => cases hself

theorem shared_of_not_held (hact : Client.Act (system handler rest).toProgram a t point points a')
    (hself : (discipline handler rest).Follows false (point :: tail)) (hfresh : Fresh a.shared)
    : a'.shared.currentFloor = a.shared.currentFloor ∧ a'.shared.waitingAt = a.shared.waitingAt ∧
      a'.shared.wantOffAt = a.shared.wantOffAt := by
  cases hact with
  | user u =>
    cases hself with
    | user _ hu =>
      have hpassive := Code.passive (H := H) hfresh hu
      exact ⟨hpassive.currentFloor, hpassive.waitingAt, hpassive.wantOffAt⟩
  | _ => exact ⟨rfl, rfl, rfl⟩

theorem Covered.step {q : Globals → Nat}
    (hq : ∀ g g' : Globals, g'.currentFloor = g.currentFloor → q g' = q g)
    (hone : rest.countP Command.isElevator ≤ 1) (hreach : (system handler rest).ClientReachable a)
    (hopen : ∀ t dir, t < a.numThreads →
      a.points t = [.user (.elevatorMain (.openDoors dir)), .finish] →
      missing a (q a.shared) ≤ ElevatorPoint.left (q a.shared) a.shared (.getOn dir 0))
    (h : Covered q a) (hstep : Client.Step (system handler rest).toProgram a a')
    : Covered q a' := by
  have hfresh : Fresh a.shared := (safe_of_reachable hone hreach.control).fresh
  have hfollows := (discipline handler rest).follows hreach
  have hlock := hreach.lockInv lock
  have hsem := hreach.semInv
  cases hstep with
  | interrupt => exact h
  | interruptV t n handler g hcall =>
    intro t' k ht' hannouncing
    have hbefore := h t' k ht' hannouncing
    have hvalue := value_post a (q a.shared) n t
    unfold missing at hbefore ⊢
    change (numWaiting a (q a.shared) : Int) -
      ((a.post (.sem n) t).sem (.sem (q a.shared))).value ≤ (k : Int)
    omega
  | thread t₀ point points tail a' ht₀ hawake hpoints hact =>
    intro t k ht hannouncing
    rw [Client.setPoints_points, Client.setPoints_shared] at hannouncing
    rw [Client.setPoints_shared]
    have hself := hfollows t₀ ht₀
    rw [hpoints] at hself
    by_cases hne : t = t₀
    . subst hne
      rw [Function.update_self] at hannouncing
      rw [hq a.shared a'.shared (hannouncing.currentFloor_eq hself hact)] at hannouncing ⊢
      refine hannouncing.own hself ?_ ?_ ht₀ hpoints hact
      . intro k hk
        rw [← hpoints] at hk
        exact h t k ht₀ hk
      . rintro dir rfl
        refine hopen t dir ht₀ ?_
        cases hself with
        | user => exact hpoints
    . rw [Function.update_of_ne hne] at hannouncing
      rw [Client.setPoints_numThreads] at ht
      by_cases hold : t < a.numThreads
      . rw [hact.points_of_lt hold] at hannouncing
        -- the elevator has the lock, so the other thread does not
        have hholds := hannouncing.holds hold (hfollows t hold)
        have hnot : decide (a.owner lock = some t₀) = false := by
          rw [decide_eq_false_iff_not]
          intro howner
          have hholds₀ : a.holds lock t₀ = true := by simp [Client.holds, ht₀, howner]
          exact hne (hlock.eq_of_holds (hsem.nonneg _) hholds hholds₀)
        rw [hnot] at hself
        obtain ⟨hfloor, hwaiting, hwantOff⟩ := shared_of_not_held hact hself hfresh
        rw [hq a.shared a'.shared hfloor] at hannouncing ⊢
        have hbefore := h t k hold (hannouncing.congr hfloor hwaiting hwantOff)
        refine Int.le_trans (missing_act hact ht₀ hpoints hself ?_) hbefore
        rintro u rfl hwaits
        cases hself with
        | user _ hu => exact (Code.passive hfresh hu).goesTo _ hwaits
      . obtain ⟨func, hnew⟩ := hact.points_of_not_lt ht hold
        rw [hnew] at hannouncing
        cases hannouncing

theorem not_announcing_boot {g : Globals} (ht : t < (system handler rest).clientBoot.numThreads)
    : ¬Announcing q g k ((system handler rest).clientBoot.points t) := by
  have : t = 0 := by simpa [System.clientBoot] using ht
  subst this
  rintro ⟨⟩

theorem covered_of_reachable (hone : rest.countP Command.isElevator ≤ 1)
    (h : (system handler rest).ClientReachable a)
    : Covered (fun g => arriveSem g.currentFloor) a := by
  refine Transition.Reachable.invariant (P := Covered fun g => arriveSem g.currentFloor) ?_ ?_ h
  . rintro a rfl t k ht hannouncing
    exact absurd hannouncing (not_announcing_boot ht)
  . intro a a' hreach hcovered hstep
    refine hcovered.step (fun g g' hfloor => by rw [hfloor]) hone hreach ?_ hstep
    -- when the doors open, the elevator calls `V` for everybody who is counted
    intro t dir _ _
    have hle := numWaiting_le (safe_of_reachable hone (System.ClientReachable.control hreach))
      ((discipline handler rest).follows hreach) a.shared.currentFloor
    have hnonneg := (System.ClientReachable.semInv hreach).nonneg
      (.sem (arriveSem a.shared.currentFloor))
    unfold missing
    simp only [ElevatorPoint.left, calls, if_true, spaceSem, arriveSem] at hle hnonneg ⊢
    omega

end

/--
`ElevatorMain` is done with its calls of `V` for `q`, and it has not released the lock.
-/
def Announced (q : Nat) (s : State Globals Code H) (t : Nat) : Prop :=
  ∃ point, .user (.elevatorMain point) ∈ s.stack t ∧
    ((point.isLoop = true ∧ point.left q s.shared = 0 ∧ .v (.sem q) ∉ s.stack t) ∨
      ((∃ dir, point = .wait dir 0) ∧ (.release lock ∈ s.stack t ∨ .v (.lock lock) ∈ s.stack t)))

section

variable {H : Type} {handler : H → List (HandlerCall H)} {rest : List Command}
  {s : State Globals Code H} {t q : Nat}

theorem mem_points {frame : Frame Code H} {point : Point Code} (h : frame ∈ s.stack t)
    (hpoint : frame.point? = some point)
    : point ∈ s.client.points t :=
  List.mem_filterMap.mpr ⟨frame, h, hpoint⟩

theorem v_mem_stack {q : SemId} (h : .v q ∈ s.client.points t) : .v q ∈ s.stack t := by
  obtain ⟨frame, hmem, hpoint⟩ := List.mem_filterMap.mp h
  cases frame <;> simp [Frame.point?] at hpoint
  rw [← hpoint]
  exact hmem

theorem Announced.announcing (h : Announced q s t)
    (hfollows : (discipline handler rest).Follows (decide (s.owner lock = some t)) (s.client.points t))
    : Announcing q s.shared 0 (s.client.points t) := by
  obtain ⟨point, hmem, ⟨hloop, hleft, hnot⟩ | ⟨⟨dir, rfl⟩, hrelease⟩⟩ := h
  . have hpoint : .user (.elevatorMain point) ∈ s.client.points t := mem_points hmem rfl
    have hnot' : .v (.sem q) ∉ s.client.points t := fun hv => hnot (v_mem_stack hv)
    generalize s.client.points t = points at hfollows hpoint hnot'
    cases hfollows with
    | user u =>
      obtain rfl : Code.elevatorMain point = u := by simpa using hpoint
      exact .user point hloop hleft.symm
    | v n u hcall =>
      obtain rfl : Code.elevatorMain point = u := by simpa using hpoint
      have hne : q ≠ n := by simpa using hnot'
      exact .v n point hloop (by simp [hleft, calls, hne])
    | exit u hcall | exited u hcall | fork _ u hcall | p _ u hcall | pWhile _ u hcall
    | acquire u hcall | lockP u hcall | lockPWhile u hcall | setOwner u hcall | release u hcall
    | lockV u hcall =>
      -- the loops are not entered by this call
      obtain rfl : Code.elevatorMain point = u := by simpa using hpoint
      obtain ⟨_, hv⟩ := (Returns.of_called hcall).loop point rfl hloop
      cases hv
    | _ => simp at hpoint
  . have hpoint : .user (.elevatorMain (.wait dir 0)) ∈ s.client.points t := mem_points hmem rfl
    have hrelease' : .release lock ∈ s.client.points t ∨ .v (.lock lock) ∈ s.client.points t :=
      hrelease.imp (fun h => mem_points h rfl) (fun h => mem_points h rfl)
    generalize s.client.points t = points at hfollows hpoint hrelease'
    cases hfollows with
    | release u =>
      obtain rfl : Code.elevatorMain (.wait dir 0) = u := by simpa using hpoint
      exact .release dir rfl
    | lockV u =>
      obtain rfl : Code.elevatorMain (.wait dir 0) = u := by simpa using hpoint
      exact .lockV dir rfl
    | _ => simp at hrelease'

theorem Announced.queue_eq_nil {q : Globals → Nat} (h : (system handler rest).Reachable s)
    (hcovered : Covered q s.client) (ht : t < s.numThreads)
    (hannounced : Announced (q s.shared) s t)
    : (s.sem (.sem (q s.shared))).queue = [] := by
  have hfollows := (discipline handler rest).follows h.client
  have hsem := h.client.semInv
  have hmissing := hcovered t 0 ht (hannounced.announcing (hfollows t ht))
  change (numWaiting s.client (q s.shared) : Int) - (s.sem (.sem (q s.shared))).value ≤ (0 : Nat)
    at hmissing
  by_contra hqueue
  have hwoken := hsem.wakeup _ hqueue
  change (s.sem (.sem (q s.shared))).value ≤ _ at hwoken
  obtain ⟨first, hfirst⟩ := List.exists_mem_of_ne_nil _ hqueue
  obtain ⟨hlt, tail, hpoints⟩ := hsem.queued _ first hfirst
  -- the first thread on the queue is not woken, but it waits
  have hstrict : s.client.numWoken (.sem (q s.shared)) < numWaiting s.client (q s.shared) := by
    apply Nat.count_lt_count (t := first) ?_ hlt
    . simp [hpoints, pointWaits]
    . have hqueued : first ∈ (s.client.sem (.sem (q s.shared))).queue := hfirst
      simp [Client.isWoken, hqueued]
    . intro i _ hi
      simp only [Client.isWoken, Bool.and_eq_true] at hi
      rw [List.any_eq_true] at hi ⊢
      obtain ⟨⟨point, hmem, hpoint⟩, _⟩ := hi
      refine ⟨point, hmem, ?_⟩
      cases point <;> simp [Point.isPWhile, pointWaits] at hpoint ⊢
      exact hpoint
  omega

theorem announcement_complete (hone : rest.countP Command.isElevator ≤ 1)
    (h : (system handler rest).Reachable s) (ht : t < s.numThreads)
    (hannounced : Announced (arriveSem s.shared.currentFloor) s t)
    : (s.sem (.sem (arriveSem s.shared.currentFloor))).queue = [] :=
  Announced.queue_eq_nil (q := fun g => arriveSem g.currentFloor) h
    (covered_of_reachable hone h.client) ht hannounced

end

theorem announcement_complete_woken
    : ((elevatorRun [.elevator 3, .arrivingGoingFromTo 2 3] [] 320).sem (.sem (arriveSem 2))).queue =
        [2] ∧
      ((elevatorRun [.elevator 3, .arrivingGoingFromTo 2 3] [] 340).sem (.sem (arriveSem 2))).queue =
        [] := by
  have hwaits : ((elevatorRun [.elevator 3, .arrivingGoingFromTo 2 3] [] 320).sem (.sem (arriveSem 2))).queue =
      [2] := by
    rw [elevatorRun_eq]
    decide +kernel
  refine ⟨hwaits, ?_⟩
  have hrun : (elevatorRun [.elevator 3, .arrivingGoingFromTo 2 3] [] 340).shared.currentFloor = 2 ∧
      1 < (elevatorRun [.elevator 3, .arrivingGoingFromTo 2 3] [] 340).numThreads ∧
      .user (.elevatorMain (.advertise 1 3)) ∈
        (elevatorRun [.elevator 3, .arrivingGoingFromTo 2 3] [] 340).stack 1 ∧
      .v (.sem (arriveSem 2)) ∉ (elevatorRun [.elevator 3, .arrivingGoingFromTo 2 3] [] 340).stack 1 := by
    rw [elevatorRun_eq]
    decide +kernel
  obtain ⟨hfloor, hthread, hpoint, hdone⟩ := hrun
  have hcomplete := announcement_complete (t := 1) (by decide)
    (reachable_elevatorRun [.elevator 3, .arrivingGoingFromTo 2 3] [] 340) hthread
    ⟨.advertise 1 3, hpoint, .inl ⟨rfl, by rw [hfloor]; rfl, by rw [hfloor]; exact hdone⟩⟩
  rw [hfloor] at hcomplete
  exact hcomplete

/-! ### The space in the elevator -/

/--
When the doors open, the units that the elevator is going to advertise are enough for the persons in the boarding
loop who have a `P` of `spaceSem` ahead of them, or are in it.
-/
def HasSpace (s : State Globals Code H) : Prop :=
  ∀ t dir, t < s.numThreads →
    s.client.points t = [.user (.elevatorMain (.openDoors dir)), .finish] →
    (numWaiting s.client spaceSem : Int) ≤ (s.sem (.sem spaceSem)).value + capacity

def SpaceReachable (handler : H → List (HandlerCall H)) (rest : List Command)
    (s : State Globals Code H)
    : Prop :=
  Transition.Reachable (system handler rest).Boot
    (fun s s' => Step (system handler rest).toProgram s s' ∧ HasSpace s) s

section

variable {H : Type} {handler : H → List (HandlerCall H)} {rest : List Command}
  {s : State Globals Code H} {t : Nat}

theorem SpaceReachable.reachable (h : SpaceReachable handler rest s)
    : (system handler rest).Reachable s :=
  Transition.Reachable.mono (fun _ _ hstep => hstep.1) h

theorem SpaceReachable.covered (hone : rest.countP Command.isElevator ≤ 1)
    (h : SpaceReachable handler rest s)
    : Covered (fun _ => spaceSem) s.client := by
  refine Transition.Reachable.invariant (P := fun s : State Globals Code H =>
    Covered (fun _ => spaceSem) s.client) ?_ ?_ h
  . intro s hboot
    rw [System.Boot.client hboot]
    exact fun t k ht hannouncing => absurd hannouncing (not_announcing_boot ht)
  . rintro s s' hs hcovered ⟨hstep, hspace⟩
    have hreach : (system handler rest).Reachable s := SpaceReachable.reachable hs
    cases hreach.client_step hstep with
    | inl heq => rwa [heq]
    | inr hclient =>
      refine hcovered.step (fun _ _ _ => rfl) hone hreach.client ?_ hclient
      intro t dir ht hpoints
      have hle := hspace t dir ht hpoints
      change _ ≤ (s.client.sem (.sem spaceSem)).value + _ at hle
      have hleft : capacity ≤ ElevatorPoint.left spaceSem s.client.shared (.getOn dir 0) := by
        simp [ElevatorPoint.left, calls]
      unfold missing
      omega

theorem space_announcement_complete (hone : rest.countP Command.isElevator ≤ 1)
    (h : SpaceReachable handler rest s) (ht : t < s.numThreads)
    (hannounced : Announced spaceSem s t)
    : (s.sem (.sem spaceSem)).queue = [] :=
  Announced.queue_eq_nil (q := fun _ => spaceSem) h.reachable (h.covered hone) ht hannounced

theorem hasSpace_of_numThreads_le (h : (system handler rest).Reachable s)
    (hle : s.numThreads ≤ capacity)
    : HasSpace s := by
  intro t dir _ _
  have hcount : numWaiting s.client spaceSem ≤ s.numThreads := Nat.count_le _
  have hnonneg : 0 ≤ (s.sem (.sem spaceSem)).value := h.client.semInv.nonneg (.sem spaceSem)
  omega

end

theorem space_announcement_complete_one
    : ((elevatorRun [.elevator 3, .arrivingGoingFromTo 2 3] [] 355).sem (.sem spaceSem)).queue =
        [] := by
  have hrun : (elevatorRun [.elevator 3, .arrivingGoingFromTo 2 3] [] 355).numThreads = 3 ∧
      .user (.elevatorMain (.wait 1 0)) ∈ (elevatorRun [.elevator 3, .arrivingGoingFromTo 2 3] [] 355).stack 1 ∧
      .release lock ∈ (elevatorRun [.elevator 3, .arrivingGoingFromTo 2 3] [] 355).stack 1 := by
    rw [elevatorRun_eq]
    decide +kernel
  obtain ⟨hnum, hpoint, hrelease⟩ := hrun
  have hspace : SpaceReachable timeSlicing [.elevator 3, .arrivingGoingFromTo 2 3]
      (elevatorRun [.elevator 3, .arrivingGoingFromTo 2 3] [] 355) := by
    refine reachable_runFor (.init ⟨_, rfl⟩) 355 (fun i hi => ?_)
    apply hasSpace_of_numThreads_le
      (reachable_elevatorRun [.elevator 3, .arrivingGoingFromTo 2 3] [] i)
    refine Nat.le_trans (numThreads_runFor_le _ _ (Nat.le_of_lt hi)) ?_
    exact Nat.le_trans (Nat.le_of_eq hnum) (by decide)
  refine space_announcement_complete (t := 1) (by decide) hspace (by rw [hnum]; decide) ?_
  exact ⟨.wait 1 0, hpoint, .inr ⟨⟨1, rfl⟩, .inl hrelease⟩⟩

theorem space_announcement_incomplete
    : ∃ s, (system timeSlicing
          (.elevator 2 :: List.replicate 11 (.arrivingGoingFromTo 2 1))).Reachable s ∧
        Announced spaceSem s 1 ∧ s.shared.onboard < capacity ∧
        12 ∈ (s.sem (.sem spaceSem)).queue ∧ s.shared.currentFloor = 2 ∧
        .user (.personMain ⟨10, 2, 1⟩ .spaceSignalled) ∈ s.stack 12 := by
  -- Eleven persons want to go from floor 2 to floor 1. Five of them get in at the first stop, and the
  -- others use up all units of `spaceSem` until the elevator comes back. Then it is empty, but one of the
  -- six persons is not woken.
  have hrun : .user (.elevatorMain (.wait 1 0)) ∈ (elevatorRun
        (.elevator 2 :: List.replicate 11 (.arrivingGoingFromTo 2 1)) [] 2490).stack 1 ∧
      .release lock ∈ (elevatorRun
        (.elevator 2 :: List.replicate 11 (.arrivingGoingFromTo 2 1)) [] 2490).stack 1 ∧
      (elevatorRun (.elevator 2 :: List.replicate 11 (.arrivingGoingFromTo 2 1)) []
        2490).shared.onboard < capacity ∧
      12 ∈ ((elevatorRun (.elevator 2 :: List.replicate 11 (.arrivingGoingFromTo 2 1)) []
        2490).sem (.sem spaceSem)).queue ∧
      (elevatorRun (.elevator 2 :: List.replicate 11 (.arrivingGoingFromTo 2 1)) []
        2490).shared.currentFloor = 2 ∧
      .user (.personMain ⟨10, 2, 1⟩ .spaceSignalled) ∈ (elevatorRun
        (.elevator 2 :: List.replicate 11 (.arrivingGoingFromTo 2 1)) [] 2490).stack 12 := by
    rw [elevatorRun_eq]
    decide +kernel
  obtain ⟨hpoint, hrelease, hrest⟩ := hrun
  exact ⟨_, reachable_elevatorRun _ _ 2490, ⟨_, hpoint, .inr ⟨⟨1, rfl⟩, .inl hrelease⟩⟩, hrest⟩

end Nachos.Elevator
