import Nachos.Synch.Guard
import Nachos.Synch.Mutex

/-!
This module contains the test of `threadtest.cc` with `HW1_SEMAPHORES`: any number of threads increment a
shared variable, and a semaphore protects it. No update is lost.
-/

namespace Nachos

open Function (update)

namespace ThreadTest

inductive Line where
  | sees (which val : Nat)
  | final (which value : Nat)
  deriving DecidableEq, Repr

structure Globals where
  sharedValue : Nat
  output : List Line

inductive Code where
  | launch (i : Nat)
  | loop (which num : Nat)
  | entered (which num : Nat)
  | printed (which num val : Nat)
  | left (which : Nat)
  | done
  deriving DecidableEq

def mutex : Nat := 0

def numThreads (n : Nat) : Nat := if n < 2 then 2 else n

def loop (g : Globals) (which num : Nat) : Globals × Call Code Unit × Code :=
  if num < 5 then
    (g, .p mutex, .entered which num)
  else
    (g, .p mutex, .left which)

def write (g : Globals) (which num val : Nat) : Globals × Call Code Unit × Code :=
  ({ g with sharedValue := val + 1 }, .v mutex, .loop which (num + 1))

/--
In Nachos `printf` is no point where another thread may run. The proofs do not depend on that, so it may be one
here.
-/
def run (n : Nat) (preempt : Bool) (g : Globals) : Code → Globals × Call Code Unit × Code
  | .launch i =>
    if i < numThreads n then
      (g, .fork (.loop i 0), .launch (i + 1))
    else
      loop g 0 0
  | .loop which num => loop g which num
  | .entered which num =>
    let val := g.sharedValue
    let g := { g with output := g.output ++ [.sees which val] }
    if preempt then
      (g, .yield, .printed which num val)
    else
      write g which num val
  | .printed which num val => write g which num val
  | .left which =>
    ({ g with output := g.output ++ [.final which g.sharedValue] }, .v mutex, .done)
  | .done => (g, .ret, .done)

def system (n : Nat) (preempt : Bool) : System Globals Code Unit where
  code u g := run n preempt g u
  handler _ g := (g, [.timerInterruptHandler])
  globals := { sharedValue := 0, output := [] }
  main := .launch 1
  value _ := 1
  value_nonneg _ := by decide

def sees (output : List Line) : List Nat :=
  output.filterMap fun
    | .sees _ val => some val
    | .final .. => none

/-! ### The semaphore -/

def Code.inside : Code → Bool
  | .entered .. | .printed .. | .left _ => true
  | .launch _ | .loop .. | .done => false

section

variable {n : Nat} {preempt : Bool} {g : Globals}

theorem loop_guards (which num : Nat)
    : (loop g which num).2.1.Guards mutex Code.inside false (loop g which num).2.2 := by
  unfold loop
  split <;> exact ⟨rfl, rfl⟩

def guarded (n : Nat) (preempt : Bool) : Mutex (system n preempt) mutex where
  inside := Code.inside
  main := rfl
  value := rfl
  code u g := by
    change (run n preempt g u).2.1.Guards mutex Code.inside u.inside (run n preempt g u).2.2
    cases u with
    | launch i =>
      rw [run]
      split
      . exact ⟨rfl, rfl, rfl⟩
      . exact loop_guards 0 0
    | loop which num => exact loop_guards which num
    | entered which num =>
      rw [run]
      split
      . rfl
      . exact ⟨rfl, rfl⟩
    | printed | left | done => exact ⟨rfl, rfl⟩
  posts _ _ := by simp [system]

def Code.Ok (n : Nat) : Code → Prop
  | .launch i => i ≤ numThreads n
  | .loop _ num => num ≤ 5
  | .entered _ num | .printed _ num _ => num < 5
  | .left _ | .done => True

theorem loop_ok (which num : Nat) : (loop g which num).2.2.Ok n := by
  unfold loop
  split
  next hlt => exact hlt
  next => trivial

theorem fork_cases {u : Code} {func : Code} (h : (run n preempt g u).2.1 = .fork func)
    : ∃ i, u = .launch i ∧ i < numThreads n ∧ func = .loop i 0 := by
  have hloop : ∀ which num, (loop g which num).2.1 ≠ .fork func := by
    intro which num
    unfold loop
    split <;> simp
  cases u with
  | launch i =>
    rw [run] at h
    split at h
    next hlt =>
      injection h with h
      exact ⟨i, rfl, hlt, h.symm⟩
    next => exact absurd h (hloop 0 0)
  | loop which num => exact absurd h (hloop which num)
  | entered which num =>
    rw [run] at h
    split at h <;> contradiction
  | printed | left | done => contradiction

theorem closed (n : Nat) (preempt : Bool) : (system n preempt).Closed (Code.Ok n) where
  main := by
    change 1 ≤ numThreads n
    unfold numThreads
    split <;> omega
  next u g hu := by
    change (run n preempt g u).2.2.Ok n
    cases u with
    | launch i =>
      rw [run]
      split
      next hlt => exact hlt
      next => exact loop_ok 0 0
    | loop which num => exact loop_ok which num
    | entered which num =>
      rw [run]
      split
      . exact hu
      . exact hu
    | printed which num val => exact hu
    | left | done => trivial
  fork u g func _ hcall := by
    obtain ⟨i, rfl, _, rfl⟩ := fork_cases hcall
    exact Nat.zero_le 5

theorem call_of_printed {call : Call Code Unit} {which num val : Nat}
    (h : (system n preempt).Calls call (.printed which num val))
    : call = .yield := by
  obtain ⟨u₀, g, hcode⟩ := h
  change (run n preempt g u₀).2 = _ at hcode
  have hloop : ∀ which' num', (loop g which' num').2 ≠ (call, .printed which num val) := by
    intro which' num'
    unfold loop
    split <;> simp
  cases u₀ with
  | launch i =>
    rw [run] at hcode
    split at hcode
    . simp at hcode
    . exact absurd hcode (hloop 0 0)
  | loop which' num' => exact absurd hcode (hloop which' num')
  | entered which' num' =>
    rw [run] at hcode
    split at hcode
    . injection hcode with hcall _
      exact hcall.symm
    . simp [write] at hcode
  | printed | left | done => simp [run, write] at hcode

theorem none_printed {a : Client Globals Code} (h : (system n preempt).ClientReachable a) {t t' : Nat}
    (ht : t < a.numThreads) (ht' : t' < a.numThreads) (hne : t' ≠ t) {u : Code} {rest : List (Point Code)}
    (hpoints : a.points t = .user u :: rest) (hu : u.inside = true) {which num val : Nat}
    : a.control.label t' ≠ some (.printed which num val) := by
  intro hlabel
  have hrunning : running (a.points t') = some (.printed which num val) := by
    apply (h.runs t' ht').running_of_label hlabel
    . intro call hcall
      rw [call_of_printed hcall]
      rfl
    . rintro next ⟨u₀, g, hcode⟩
      obtain ⟨i, _, _, hfunc⟩ := fork_cases (congrArg Prod.fst hcode)
      contradiction
  apply hne
  apply (guarded n preempt).busy_unique h ht' ht
  . simp [Mutex.busy, hrunning, guarded, Code.inside]
  . simp [Mutex.busy, hpoints, guarded, hu]

end

/-! ### The shared variable -/

def Code.remaining (n : Nat) : Code → Nat
  | .launch i => 5 * (numThreads n - i) + 5
  | .loop _ num | .entered _ num | .printed _ num _ => 5 - num
  | .left _ | .done => 0

def Code.increments : Code → Nat
  | .loop _ num | .entered _ num | .printed _ num _ => if num < 5 then num else 0
  | .launch _ | .left _ | .done => 0

def Code.hasLeft : Code → Bool
  | .loop _ num => 5 ≤ num
  | .left _ | .done => true
  | .launch _ | .entered .. | .printed .. => false

def left (codes : List Code) : Nat :=
  (codes.getLast?.all Code.hasLeft).toNat

def increments (codes : List Code) : Nat :=
  (codes.map Code.increments).sum

def remaining (n : Nat) (codes : List Code) : Nat :=
  (codes.map (Code.remaining n)).sum

def numLeft (c : Control Globals Code) : Nat := c.sum left

structure Counted (n : Nat) (c : Control Globals Code) : Prop where
  total : c.shared.sharedValue + c.sum (remaining n) = 5 * numThreads n
  share : c.shared.sharedValue = 5 * numLeft c + c.sum increments

structure Printed (c : Control Globals Code) : Prop where
  sees : ThreadTest.sees c.shared.output = List.range (ThreadTest.sees c.shared.output).length
  printed : ∀ t, t < c.numThreads → ∀ which num val, c.label t = some (.printed which num val) →
    val = c.shared.sharedValue ∧ (ThreadTest.sees c.shared.output).length = val + 1
  written : (∀ t, t < c.numThreads → ∀ which num val, c.label t ≠ some (.printed which num val)) →
    (ThreadTest.sees c.shared.output).length = c.shared.sharedValue

section

variable {n : Nat} {preempt : Bool} {g : Globals} {c : Control Globals Code} {t : Nat} {u : Code}

@[simp]
theorem remaining_singleton (u : Code) : remaining n [u] = u.remaining n := by
  simp [remaining]

@[simp]
theorem increments_singleton (u : Code) : increments [u] = u.increments := by
  simp [increments]

theorem remaining_pair (func u : Code) : remaining n [func, u] = func.remaining n + u.remaining n := by
  simp [remaining]

theorem increments_pair (func u : Code) : increments [func, u] = func.increments + u.increments := by
  simp [increments]

@[simp]
theorem left_singleton (u : Code) : left [u] = u.hasLeft.toNat := rfl

theorem run_counts (preempt : Bool) (hu : u.Ok n) (hval : ∀ which num val, u = .printed which num val → val = g.sharedValue)
    : (run n preempt g u).1.sharedValue +
          remaining n ((run n preempt g u).2.1.codes (run n preempt g u).2.2) =
        g.sharedValue + u.remaining n ∧
      (run n preempt g u).1.sharedValue + 5 * u.hasLeft.toNat + u.increments =
        g.sharedValue + 5 * left ((run n preempt g u).2.1.codes (run n preempt g u).2.2) +
          increments ((run n preempt g u).2.1.codes (run n preempt g u).2.2) := by
  have hwrite : ∀ {g : Globals} {which num val : Nat}, num < 5 → val = g.sharedValue →
      (write g which num val).1.sharedValue +
          remaining n ((write g which num val).2.1.codes (write g which num val).2.2) =
        g.sharedValue + (5 - num) ∧
      (write g which num val).1.sharedValue + num =
        g.sharedValue + 5 * left ((write g which num val).2.1.codes (write g which num val).2.2) +
          increments ((write g which num val).2.1.codes (write g which num val).2.2) := by
    intro g which num val hnum hval
    simp only [write, Call.codes, remaining_singleton, increments_singleton, left_singleton,
      Code.remaining, Code.increments, Code.hasLeft, hval]
    by_cases hlast : num + 1 < 5
    . simp [hlast, show ¬5 ≤ num + 1 by omega]
      omega
    . simp [hlast, show 5 ≤ num + 1 by omega]
      omega
  cases u with
  | launch i =>
    rw [run]
    split
    next hlt =>
      simp [Call.codes, remaining, increments, left, Code.remaining, Code.increments, Code.hasLeft]
      omega
    next hge =>
      have hi : numThreads n - i = 0 := by omega
      simp [loop, Call.codes, Code.remaining, Code.increments, Code.hasLeft, hi]
  | loop which num =>
    have hnum : num ≤ 5 := hu
    rw [run, loop]
    split
    next hlt => simp [Call.codes, Code.remaining, Code.increments, Code.hasLeft, hlt]
    next hge =>
      have hfive : num = 5 := by omega
      simp [Call.codes, Code.remaining, Code.increments, Code.hasLeft, hfive]
  | entered which num =>
    have hnum : num < 5 := hu
    rw [run]
    split
    next => simp [Call.codes, Code.remaining, Code.increments, Code.hasLeft]
    next =>
      simpa [Code.remaining, Code.increments, Code.hasLeft, hnum] using
        hwrite (g := { g with output := g.output ++ [.sees which g.sharedValue] }) hnum rfl
  | printed which num val =>
    have hnum : num < 5 := hu
    simpa [run, Code.remaining, Code.increments, Code.hasLeft, hnum] using
      hwrite hnum (hval which num val rfl)
  | left which => simp [run, Call.codes, Code.remaining, Code.increments, Code.hasLeft]
  | done => simp [run, Call.codes, remaining, increments, left, Code.remaining, Code.increments,
      Code.hasLeft]

theorem Counted.run (h : Counted n c) (hu : u.Ok n) (ht : t < c.numThreads) (hcodes : c.codes t = [u])
    (hval : ∀ which num val, u = .printed which num val → val = c.shared.sharedValue)
    : Counted n
        { c with
          codes := update c.codes t
            ((run n preempt c.shared u).2.1.codes (run n preempt c.shared u).2.2)
          shared := (ThreadTest.run n preempt c.shared u).1 } := by
  obtain ⟨htotal, hshare⟩ := run_counts preempt hu hval
  have hupdate := fun f => Control.sum_update f ht
    ((ThreadTest.run n preempt c.shared u).2.1.codes (ThreadTest.run n preempt c.shared u).2.2)
    (ThreadTest.run n preempt c.shared u).1
  have hremaining := hupdate (remaining n)
  have hincrements := hupdate increments
  have hleft := hupdate left
  rw [hcodes] at hremaining hincrements hleft
  rw [remaining_singleton] at hremaining
  rw [increments_singleton] at hincrements
  rw [left_singleton] at hleft
  have htotal' := h.total
  have hshare' := h.share
  unfold numLeft at hshare'
  constructor
  . dsimp only
    omega
  . dsimp only [numLeft]
    omega

theorem sees_append_sees (output : List Line) (which val : Nat)
    : sees (output ++ [.sees which val]) = sees output ++ [val] := by
  simp [sees]

theorem sees_append_final (output : List Line) (which value : Nat)
    : sees (output ++ [.final which value]) = sees output := by
  simp [sees]

namespace Printed

theorem same (h : Printed c) {call : Call Code Unit} {u' : Code} (hcodes : c.codes t = [u])
    (hu : ∀ which num val, u ≠ .printed which num val)
    (hu' : ∀ which num val, u' ≠ .printed which num val)
    (hvalue : g.sharedValue = c.shared.sharedValue)
    (hsees : ThreadTest.sees g.output = ThreadTest.sees c.shared.output)
    : Printed { c with codes := update c.codes t (call.codes u'), shared := g } := by
  constructor
  . dsimp only
    rw [hsees]
    exact h.sees
  . intro t' ht' which num val hlabel
    dsimp only
    rw [hvalue, hsees]
    obtain ⟨_, hv⟩ | ⟨_, hold⟩ := Control.label_update hlabel
    . exact absurd hv.symm (hu' which num val)
    . exact h.printed t' ht' which num val hold
  . intro hnone
    dsimp only
    rw [hvalue, hsees]
    apply h.written
    intro t' ht' which num val hlabel
    have hne : t' ≠ t := by
      rintro rfl
      rw [Control.label_of_codes hcodes] at hlabel
      injection hlabel with hlabel
      exact hu which num val hlabel
    apply hnone t' ht' which num val
    change (update c.codes t (call.codes u') t').getLast? = _
    rw [Function.update_of_ne hne]
    exact hlabel

theorem read (h : Printed c) (which num : Nat) (hcodes : c.codes t = [u])
    (hu : ∀ which num val, u ≠ .printed which num val)
    (hnone : ∀ t', t' < c.numThreads → t' ≠ t → ∀ which num val,
      c.label t' ≠ some (.printed which num val)) (ht : t < c.numThreads)
    : Printed
        { c with
          codes := update c.codes t
            ((Call.yield : Call Code Unit).codes (.printed which num c.shared.sharedValue))
          shared := { c.shared with output := c.shared.output ++ [.sees which c.shared.sharedValue] } } := by
  have hlength : (ThreadTest.sees c.shared.output).length = c.shared.sharedValue := by
    apply h.written
    intro t' ht' which num val hlabel
    by_cases hne : t' = t
    . subst hne
      rw [Control.label_of_codes hcodes] at hlabel
      injection hlabel with hlabel
      exact hu which num val hlabel
    . exact hnone t' ht' hne which num val hlabel
  have hsees := h.sees
  constructor
  . dsimp only
    rw [sees_append_sees, List.length_append, hlength, hsees, hlength]
    exact List.range_succ.symm
  . intro t' ht' which' num' val' hlabel
    dsimp only
    rw [sees_append_sees, List.length_append, hlength]
    obtain ⟨rfl, hv⟩ | ⟨hne, hold⟩ := Control.label_update hlabel
    . injection hv with _ _ hval
      subst hval
      exact ⟨rfl, rfl⟩
    . exact absurd hold (hnone t' ht' hne which' num' val')
  . intro hnone'
    exact absurd (Control.label_of_codes (Function.update_self ..)) (hnone' t ht which num _)

theorem write (h : Printed c) {which num val : Nat} (ht : t < c.numThreads)
    (hcodes : c.codes t = [.printed which num val])
    (hnone : ∀ t', t' < c.numThreads → t' ≠ t → ∀ which num val,
      c.label t' ≠ some (.printed which num val))
    : Printed
        { c with
          codes := update c.codes t
            ((write c.shared which num val).2.1.codes (write c.shared which num val).2.2)
          shared := (ThreadTest.write c.shared which num val).1 } := by
  obtain ⟨_, hlength⟩ := h.printed t ht which num val (Control.label_of_codes hcodes)
  refine ⟨h.sees, ?_, fun _ => hlength⟩
  intro t' ht' which' num' val' hlabel
  obtain ⟨_, hv⟩ | ⟨hne, hold⟩ := Control.label_update hlabel
  . contradiction
  . exact absurd hold (hnone t' ht' hne which' num' val')

theorem loop (h : Printed c) (hcodes : c.codes t = [u])
    (hu : ∀ which num val, u ≠ .printed which num val) (which num : Nat)
    : Printed
        { c with
          codes := update c.codes t
            ((loop c.shared which num).2.1.codes (loop c.shared which num).2.2)
          shared := (ThreadTest.loop c.shared which num).1 } := by
  unfold ThreadTest.loop
  split
  . exact h.same hcodes hu (by simp) rfl rfl
  . exact h.same hcodes hu (by simp) rfl rfl

theorem run (h : Printed c) (ht : t < c.numThreads) (hcodes : c.codes t = [u])
    (hnone : u.inside = true → ∀ t', t' < c.numThreads → t' ≠ t → ∀ which num val,
      c.label t' ≠ some (.printed which num val))
    : Printed
        { c with
          codes := update c.codes t
            ((run n preempt c.shared u).2.1.codes (run n preempt c.shared u).2.2)
          shared := (ThreadTest.run n preempt c.shared u).1 } := by
  cases u with
  | launch i =>
    rw [ThreadTest.run]
    split
    . exact h.same hcodes (by simp) (by simp) rfl rfl
    . exact h.loop hcodes (by simp) 0 0
  | loop which num => exact h.loop hcodes (by simp) which num
  | entered which num =>
    have hread := h.read which num hcodes (by simp) (hnone rfl) ht
    rw [ThreadTest.run]
    split
    . exact hread
    . -- the write follows at once
      have hcodes' : update c.codes t [Code.printed which num c.shared.sharedValue] t =
        [.printed which num c.shared.sharedValue] := Function.update_self ..
      have hwrite := hread.write ht hcodes' ?_
      . simpa only [Call.codes, Function.update_idem] using hwrite
      . intro t' ht' hne which' num' val' hlabel
        change (update c.codes t _ t').getLast? = _ at hlabel
        rw [Function.update_of_ne hne] at hlabel
        exact hnone rfl t' ht' hne which' num' val' hlabel
  | printed which num val => exact h.write ht hcodes (hnone rfl)
  | left which => exact h.same hcodes (by simp) (by simp [ThreadTest.run]) rfl (sees_append_final _ _ _)
  | done => exact h.same hcodes (by simp) (by simp [ThreadTest.run]) rfl rfl

theorem fork (h : Printed c) (ht : t < c.numThreads) {func : Code} (hcodes : c.codes t = [func, u])
    (hfunc : ∀ which num val, func ≠ .printed which num val)
    : Printed
        { c with
          numThreads := c.numThreads + 1
          codes := update (update c.codes c.numThreads [func]) t [u] } := by
  refine ⟨h.sees, ?_, ?_⟩
  . intro t' ht' which num val hlabel
    obtain ⟨hlt, hold⟩ | ⟨_, hv⟩ := Control.label_fork ht hcodes ht' hlabel
    . exact h.printed t' hlt which num val hold
    . exact absurd hv.symm (hfunc which num val)
  . intro hnone
    apply h.written
    intro t' ht' which num val hlabel
    apply hnone t' (Nat.lt_succ_of_lt ht') which num val
    change (update (update c.codes c.numThreads [func]) t [u] t').getLast? = _
    by_cases hne : t' = t
    . subst hne
      rw [Control.label, hcodes] at hlabel
      rwa [Function.update_self]
    . rwa [Function.update_of_ne hne, Function.update_of_ne (Nat.ne_of_lt ht')]

end Printed

theorem Counted.fork (h : Counted n c) (ht : t < c.numThreads) {i : Nat}
    (hcodes : c.codes t = [.loop i 0, u])
    : Counted n
        { c with
          numThreads := c.numThreads + 1
          codes := update (update c.codes c.numThreads [.loop i 0]) t [u] } := by
  have hfork := fun f => Control.sum_fork f ht (.loop i 0) [u] c.shared
  have hremaining := hfork (remaining n)
  have hincrements := hfork increments
  have hleft := hfork left
  have hleft' : left [.loop i 0, u] = left [u] := rfl
  have hnew : left [.loop i 0] = 0 := rfl
  rw [hcodes] at hremaining hincrements hleft
  rw [remaining_pair, remaining_singleton, remaining_singleton] at hremaining
  rw [increments_pair, increments_singleton, increments_singleton] at hincrements
  have htotal := h.total
  have hshare := h.share
  unfold numLeft at hshare
  constructor
  . dsimp only
    omega
  . dsimp only [numLeft]
    omega

theorem counted_boot : Counted n (system n preempt).controlBoot := by
  have hpos : 1 ≤ numThreads n := (closed n preempt).main
  constructor
  . simp [System.controlBoot, Control.sum, system, Code.remaining]
    omega
  . simp [System.controlBoot, Control.sum, system, Code.increments, numLeft, Code.hasLeft]

theorem printed_boot : Printed (system n preempt).controlBoot := by
  refine ⟨rfl, ?_, fun _ => rfl⟩
  intro t ht which num val hlabel
  obtain rfl : t = 0 := by simpa [System.controlBoot] using ht
  simp [System.controlBoot, Control.label, system] at hlabel

theorem counted {a : Client Globals Code} (h : (system n preempt).ClientReachable a)
    : Counted n a.control ∧ Printed a.control := by
  refine Transition.Reachable.invariant
    (P := fun a : Client Globals Code => Counted n a.control ∧ Printed a.control) ?_ ?_ h
  . rintro a rfl
    rw [System.clientBoot_control]
    exact ⟨counted_boot, printed_boot⟩
  . intro a a' hreach ⟨hcounted, hprinted⟩ hstep
    have hcontrol : (system n preempt).ControlReachable a.control :=
      System.ClientReachable.control hreach
    obtain heq | ⟨handler, heq⟩ | ⟨t, u, ht, hpoints, heq⟩ | ⟨t, func, u, ht, hcodes, heq⟩ :=
      hstep.control_cases (System.ClientReachable.shape hreach)
    . rw [heq]
      exact ⟨hcounted, hprinted⟩
    . rw [heq]
      exact ⟨hcounted, hprinted⟩
    . have hcodes : a.control.codes t = [u] := by
        simp [Client.control, hpoints, Point.code?]
      have hok : u.Ok n := hcontrol.closed (closed n preempt) t ht u (by simp [hcodes])
      rw [heq]
      refine ⟨hcounted.run hok ht hcodes ?_, hprinted.run ht hcodes ?_⟩
      . rintro which num val rfl
        exact (hprinted.printed t ht which num val (Control.label_of_codes hcodes)).1
      . intro hu t' ht' hne which num val
        exact none_printed hreach ht ht' hne hpoints hu
    . obtain ⟨u₀, g, hcode⟩ := hcontrol.forked ht hcodes
      obtain ⟨i, _, _, rfl⟩ := fork_cases (congrArg Prod.fst hcode)
      rw [heq]
      exact ⟨hcounted.fork ht hcodes, hprinted.fork ht hcodes (by simp)⟩

/-! ### A run that has come to its end -/

theorem calls_cases {call : Call Code Unit} (h : (system n preempt).Calls call u)
    : call = .p mutex ∨ call = .v mutex ∨ call = .yield ∨ call = .ret ∨ ∃ func, call = .fork func := by
  obtain ⟨u₀, g, hcode⟩ := h
  obtain rfl : (run n preempt g u₀).2.1 = call := congrArg Prod.fst hcode
  clear hcode
  have hloop : ∀ which num, (loop g which num).2.1 = .p mutex := by
    intro which num
    unfold loop
    split <;> rfl
  cases u₀ with
  | launch i =>
    rw [run]
    split
    . simp
    . exact .inl (hloop 0 0)
  | loop which num => exact .inl (hloop which num)
  | entered which num =>
    rw [run]
    split
    . simp
    . simp [write]
  | printed | left | done => simp [run, write]

theorem isAt_cases {points : List (Point Code)} {wait : WaitPoint} (h : Runs (system n preempt) points)
    (hwait : wait.IsAt points)
    : (wait = .sem (.sem mutex) ∧ ∃ u, points = [.pWhile (.sem mutex), .user u, .finish]) ∨
      (wait = .finished ∧ points = [.notReached]) := by
  cases wait with
  | sem q =>
    obtain ⟨rest, rfl⟩ := hwait
    cases h with
    | pWhile _ u hcall =>
      obtain hp | hp | hp | hp | ⟨func, hp⟩ := calls_cases hcall
      . injection hp with hp
        subst hp
        exact .inl ⟨rfl, u, rfl⟩
      all_goals contradiction
    | lockPWhile _ u hcall =>
      obtain hcall | ⟨c, hcall⟩ := hcall
      . simpa using calls_cases hcall
      . simpa using calls_cases hcall
  | cond c =>
    obtain ⟨l, rest, rfl⟩ := hwait
    cases h with
    | waitAcquire _ _ u hcall => simpa using calls_cases hcall
  | finished =>
    obtain ⟨rest, rfl⟩ := hwait
    cases h with
    | finished => exact .inr ⟨rfl, rfl⟩
    | exited u hcall => simpa using calls_cases hcall

theorem codes_of_idle {s : State Globals Code Unit} (h : (system n preempt).Reachable s)
    (hready : s.readyList = []) (hrunning : ∀ t, t < s.numThreads → s.threadStatus t ≠ .running)
    : ∀ t, t < s.numThreads → s.control.codes t = [] := by
  have hp := h.inv.placed
  have hblocked := fun t ht => hp.blocked_of_idle (t := t) hready hrunning ht
  have hplace : ∀ t, t < s.numThreads →
      (t ∈ (s.sem (.sem mutex)).queue ∧
        ∃ u, s.client.points t = [.pWhile (.sem mutex), .user u, .finish]) ∨
      s.client.points t = [.notReached] := by
    intro t ht
    obtain ⟨wait, hwait⟩ := Option.ne_none_iff_exists'.mp (hp.blocked t ht (hblocked t ht))
    obtain ⟨rfl, hpoints⟩ | ⟨_, hpoints⟩ := isAt_cases (h.client.runs t ht) (Stack.waitPoint_isAt hwait)
    . exact .inl ⟨(hp.mem_sem _ t).mpr ⟨ht, hblocked t ht, hwait⟩, hpoints⟩
    . exact .inr hpoints
  have hempty : (s.client.sem (.sem mutex)).queue = [] := by
    apply (guarded n preempt).queue_eq_nil h.client
    . intro t ht
      obtain ⟨_, u, hpoints⟩ | hpoints := hplace t ht
      . simp [Mutex.busy, hpoints, running, giving]
      . simp [Mutex.busy, hpoints, running, giving]
    . intro t ht
      obtain ⟨hmem, _⟩ | hpoints := hplace t ht
      . have hmem' : t ∈ (s.client.sem (.sem mutex)).queue := hmem
        simp [Client.isWoken, hmem']
      . simp [Client.isWoken, hpoints, Point.isPWhile]
  intro t ht
  obtain ⟨hmem, _⟩ | hpoints := hplace t ht
  . have hmem' : t ∈ (s.client.sem (.sem mutex)).queue := hmem
    simp [hempty] at hmem'
  . change (s.client.points t).filterMap Point.code? = []
    rw [hpoints]
    rfl

theorem Counted.numLeft_of_idle (h : Counted n c) (hcodes : ∀ t, t < c.numThreads → c.codes t = [])
    : numLeft c = numThreads n := by
  have hzero : ∀ f : List Code → Nat, f [] = 0 → c.sum f = 0 := by
    intro f hf
    apply Finset.sum_eq_zero
    intro t ht
    rw [hcodes t (Finset.mem_range.mp ht), hf]
  have htotal := h.total
  have hshare := h.share
  rw [hzero (remaining n) rfl] at htotal
  rw [hzero increments rfl] at hshare
  omega

theorem Counted.sharedValue_eq (h : Counted n c) (hleft : numLeft c = numThreads n)
    : c.shared.sharedValue = 5 * numThreads n := by
  have htotal := h.total
  have hshare := h.share
  omega

theorem Counted.sees_eq (h : Counted n c) (hprinted : Printed c) (hleft : numLeft c = numThreads n)
    (hok : ∀ t, t < c.numThreads → ∀ u ∈ c.codes t, u.Ok n)
    : sees c.shared.output = List.range (5 * numThreads n) := by
  have hvalue := h.sharedValue_eq hleft
  have htotal := h.total
  rw [hprinted.sees, hprinted.written, hvalue]
  intro t ht which num val hlabel
  have hmem := List.mem_of_getLast? hlabel
  have hnum : num < 5 := hok t ht _ hmem
  have hle : 5 - num ≤ remaining n (c.codes t) := List.le_sum_of_mem (List.mem_map_of_mem hmem)
  have hle' := Control.le_sum (remaining n) ht
  omega

theorem Printed.length_le (h : Printed c) (hcounted : Counted n c)
    (hok : ∀ t, t < c.numThreads → ∀ u ∈ c.codes t, u.Ok n)
    : (ThreadTest.sees c.shared.output).length ≤ 5 * numThreads n := by
  have htotal := hcounted.total
  by_cases hnone : ∀ t, t < c.numThreads → ∀ which num val, c.label t ≠ some (.printed which num val)
  . rw [h.written hnone]
    omega
  . push Not at hnone
    obtain ⟨t, ht, which, num, val, hlabel⟩ := hnone
    obtain ⟨hval, hlength⟩ := h.printed t ht which num val hlabel
    have hmem := List.mem_of_getLast? hlabel
    have hnum : num < 5 := hok t ht _ hmem
    have hle : 5 - num ≤ remaining n (c.codes t) := List.le_sum_of_mem (List.mem_map_of_mem hmem)
    have hle' := Control.le_sum (remaining n) ht
    omega

end

theorem run_final {n : Nat} {preempt : Bool} {g : Globals} {u : Code} {which value : Nat}
    (h : (run n preempt g u).1.output = g.output ++ [.final which value])
    : u = .left which ∧ value = g.sharedValue := by
  have hloop : ∀ which' num', (loop g which' num').1.output ≠ g.output ++ [.final which value] := by
    intro which' num'
    unfold loop
    split <;> simp
  cases u with
  | launch i =>
    rw [run] at h
    split at h
    . simp at h
    . exact absurd h (hloop 0 0)
  | loop which' num' => exact absurd h (hloop which' num')
  | entered which' num' =>
    rw [run] at h
    split at h <;> simp [write] at h
  | left which' =>
    simp only [run, List.append_cancel_left_eq, List.cons.injEq, Line.final.injEq, and_true] at h
    exact ⟨by rw [h.1], h.2.symm⟩
  | printed | done => simp [run, write] at h

theorem no_lost_update {n : Nat} {preempt : Bool} {s : State Globals Code Unit}
    (h : (system n preempt).Reachable s)
    : (∃ k, k ≤ 5 * numThreads n ∧ sees s.shared.output = List.range k) ∧
      (numLeft s.control = numThreads n →
        s.shared.sharedValue = 5 * numThreads n ∧
          sees s.shared.output = List.range (5 * numThreads n)) ∧
      (s.readyList = [] → (∀ t, t < s.numThreads → s.threadStatus t ≠ .running) →
        numLeft s.control = numThreads n) ∧
      ∀ s', Step (system n preempt).toProgram s s' → ∀ which value,
        s'.shared.output = s.shared.output ++ [.final which value] →
        s.control.label s.currentThread = some (.left which) ∧
          5 * numLeft s.control ≤ value ∧ value ≤ 5 * numThreads n := by
  obtain ⟨hcounted, hprinted⟩ := counted h.client
  have hok := h.control.closed (closed n preempt)
  refine ⟨⟨_, hprinted.length_le hcounted hok, hprinted.sees⟩, ?_, ?_, ?_⟩
  . intro hleft
    exact ⟨hcounted.sharedValue_eq hleft, hcounted.sees_eq hprinted hleft hok⟩
  . intro hready hrunning
    exact hcounted.numLeft_of_idle (codes_of_idle h hready hrunning)
  . intro s' hstep which value hfinal
    obtain ⟨frame, rest, frames, s₁, hstack, hout, rfl⟩ := step_cases hstep
    rw [State.setStack_shared] at hfinal
    obtain heq | ⟨handler, heq⟩ | ⟨u, rfl, heq⟩ := hout.shared_cases
    . simp [heq] at hfinal
    . simp [heq, system] at hfinal
    . rw [heq] at hfinal
      obtain ⟨rfl, rfl⟩ := run_final hfinal
      have htotal := hcounted.total
      have hshare := hcounted.share
      refine ⟨Control.label_of_codes (h.codes_of_user hstack), ?_, ?_⟩
      . change 5 * numLeft s.client.control ≤ s.client.control.shared.sharedValue
        omega
      . change s.client.control.shared.sharedValue ≤ _
        omega

def threadTestRun (steps : Nat) : State Globals Code Unit :=
  runFor (system 3 true).toProgram steps (boot (system 3 true) [⟨(), 15, .timerInt⟩])

theorem reachable_threadTestRun (steps : Nat) : (system 3 true).Reachable (threadTestRun steps) :=
  System.Reachable.runFor (.init ⟨_, rfl⟩) steps

theorem no_lost_update_threadTestRun
    : numLeft (threadTestRun 350).control = 3 ∧
      (threadTestRun 350).shared.sharedValue = 15 ∧
      sees (threadTestRun 350).shared.output = List.range 15 := by
  have hleft : numLeft (threadTestRun 350).control = 3 := by
    decide +kernel
  exact ⟨hleft, (no_lost_update (reachable_threadTestRun 350)).2.1 hleft⟩

end ThreadTest

end Nachos
