import Nachos.Synch.ThreadTest
import Nachos.Threads.RoundRobin

/-!
This module contains the test of `threadtest.cc` without `HW1_SEMAPHORES`: any number of threads increment a
shared variable, and each of them calls `Yield` between reading and writing it.
-/

namespace Nachos

open Function (update)

namespace Race

open ThreadTest (Line Globals numThreads)

inductive Code where
  | launch (i : Nat)
  | start (which : Nat)
  | yielded (which num val : Nat)
  | done
  deriving DecidableEq

def loop (g : Globals) (which num : Nat) : Globals × Call Code H × Code :=
  if num < 5 then
    let val := g.sharedValue
    ({ g with output := g.output ++ [.sees which val] }, .yield, .yielded which num val)
  else
    ({ g with output := g.output ++ [.final which g.sharedValue] }, .ret, .done)

def run (n : Nat) (g : Globals) : Code → Globals × Call Code H × Code
  | .launch i =>
    if i < numThreads n then
      (g, .fork (.start i), .launch (i + 1))
    else
      loop g 0 0
  | .start which => loop g which 0
  | .yielded which num val => loop { g with sharedValue := val + 1 } which (num + 1)
  | .done => (g, .ret, .done)

def system (handler : H → List (HandlerCall H)) (n : Nat) : System Globals Code H where
  code u g := run n g u
  handler h g := (g, handler h)
  globals := { sharedValue := 0, output := [] }
  main := .launch 1
  value _ := 0
  value_nonneg := System.zero_nonneg

variable {handler : H → List (HandlerCall H)} {n : Nat}

theorem loop_cooperative (g : Globals) (which num : Nat)
    : (loop g which num : Globals × Call Code H × Code).2.1.Cooperative := by
  unfold loop
  split
  . exact .inl rfl
  . exact .inr (.inl rfl)

theorem cooperative (handler : H → List (HandlerCall H)) (n : Nat) : (system handler n).Cooperative := by
  intro u g
  change (run n g u).2.1.Cooperative
  cases u with
  | launch i =>
    rw [run]
    split
    . exact .inr (.inr ⟨_, rfl⟩)
    . exact loop_cooperative g 0 0
  | start which => exact loop_cooperative g which 0
  | yielded which num val => exact loop_cooperative _ which (num + 1)
  | done => exact .inr (.inl rfl)

/-! ### Without interrupts -/

/--
Every thread has six turns. This is the thread's code before the turn `i`, if the turns of all threads are counted.
-/
def codeAt (n i : Nat) : Code :=
  match i / n with
  | 0 => .start (i % n)
  | round + 1 => .yielded (i % n) round round

def lineAt (n i : Nat) : Line :=
  if i / n < 5 then .sees (i % n) (i / n) else .final (i % n) 5

def turn (n i : Nat) : Turns Globals Code where
  queue := (List.range' i (min n (6 * n - i))).map (codeAt n)
  shared := { sharedValue := (i - 1) / n, output := (List.range i).map (lineAt n) }

def launching (i : Nat) : Turns Globals Code where
  queue := .launch i :: (List.range' 1 (i - 1)).map .start
  shared := { sharedValue := 0, output := [] }

theorem numThreads_pos (n : Nat) : 0 < numThreads n := by
  unfold numThreads
  split <;> omega

theorem run_codeAt {N i : Nat} (hN : 0 < N) (hi : 1 ≤ i) (hlt : i < 5 * N) (output : List Line)
    : (run n { sharedValue := (i - 1) / N, output := output } (codeAt N i) : Globals × Call Code H × Code) =
        ({ sharedValue := i / N, output := output ++ [lineAt N i] }, .yield, codeAt N (i + N)) := by
  have hround : i / N < 5 := (Nat.div_lt_iff_lt_mul hN).2 hlt
  unfold codeAt lineAt
  rw [Nat.add_div_right i hN, Nat.add_mod_right, if_pos hround]
  cases hdiv : i / N with
  | zero =>
    have hless : i < N := by
      rwa [Nat.div_eq_zero_iff_lt hN] at hdiv
    have hbefore : (i - 1) / N = 0 := Nat.div_eq_of_lt (by omega)
    simp [run, loop, hbefore]
  | succ round =>
    rw [hdiv] at hround
    simp [run, loop, hround]

theorem run_codeAt_last {N i : Nat} (hge : 5 * N ≤ i) (hlt : i < 6 * N) (output : List Line)
    : (run n { sharedValue := (i - 1) / N, output := output } (codeAt N i) : Globals × Call Code H × Code) =
        ({ sharedValue := i / N, output := output ++ [lineAt N i] }, .ret, .done) := by
  have hround : i / N = 5 := by
    apply Nat.div_eq_of_lt_le
    . omega
    . omega
  simp [codeAt, lineAt, hround, run, loop]

theorem turn_queue {N i : Nat} (hlt : i < 6 * N)
    : (turn N i).queue = codeAt N i :: (List.range' (i + 1) (min N (6 * N - i) - 1)).map (codeAt N) := by
  obtain ⟨k, hk⟩ : ∃ k, min N (6 * N - i) = k + 1 := ⟨min N (6 * N - i) - 1, by omega⟩
  unfold turn
  rw [hk]
  rfl

theorem turn_step {N i : Nat} (hN : 0 < N) (hi : 1 ≤ i) {c : Turns Globals Code}
    (h : Turns.Step (system handler n).toProgram (turn N i) c)
    : i < 6 * N ∧ c = turn N (i + 1) := by
  have hlt : i < 6 * N := by
    by_contra hge
    have hnil : (turn N i).queue = [] := by simp [turn, Nat.sub_eq_zero_of_le (Nat.not_lt.1 hge)]
    generalize turn N i = c₀ at h hnil
    cases h
    contradiction
  refine ⟨hlt, ?_⟩
  have hturn : turn N i = ⟨_, (turn N i).shared⟩ := congrArg (Turns.mk · (turn N i).shared) (turn_queue hlt)
  rw [hturn] at h
  cases h
  change Turns.mk ((run n (turn N i).shared (codeAt N i)).2.1.turns (run n (turn N i).shared (codeAt N i)).2.2 _)
    (run n (turn N i).shared (codeAt N i)).1 = _
  by_cases hlast : i < 5 * N
  . rw [show run n (turn N i).shared (codeAt N i) = _ from run_codeAt (H := H) hN hi hlast _]
    have hcount : min N (6 * N - i) - 1 + 1 = min N (6 * N - (i + 1)) := by omega
    have hback : i + N = i + 1 + (min N (6 * N - i) - 1) := by omega
    unfold turn Call.turns
    rw [← hcount, List.range'_1_concat, List.map_append, List.range_succ, List.map_append, hback]
    rfl
  . rw [show run n (turn N i).shared (codeAt N i) = _ from run_codeAt_last (H := H) (Nat.not_lt.1 hlast) hlt _]
    have hcount : min N (6 * N - i) - 1 = min N (6 * N - (i + 1)) := by omega
    unfold turn Call.turns
    rw [hcount, List.range_succ, List.map_append]
    rfl

theorem launching_step {i : Nat} (hi : 1 ≤ i) (hle : i ≤ numThreads n) {c : Turns Globals Code}
    (h : Turns.Step (system handler n).toProgram (launching i) c)
    : i < numThreads n ∧ c = launching (i + 1) ∨ c = turn (numThreads n) 1 := by
  have hpos := numThreads_pos n
  cases h
  change _ ∧ Turns.mk ((run n _ (.launch i)).2.1.turns (run n _ (.launch i)).2.2 _) (run n _ (.launch i)).1 = _ ∨
    Turns.mk ((run n _ (.launch i)).2.1.turns (run n _ (.launch i)).2.2 _) (run n _ (.launch i)).1 = _
  rw [run]
  split
  next hlt =>
    refine .inl ⟨hlt, ?_⟩
    obtain ⟨k, rfl⟩ : ∃ k, i = k + 1 := ⟨i - 1, by omega⟩
    unfold launching Call.turns
    rw [Nat.add_sub_cancel, Nat.add_sub_cancel, List.range'_1_concat, List.map_append, Nat.add_comm 1 k]
    rfl
  next hge =>
    right
    obtain rfl : i = numThreads n := Nat.le_antisymm hle (Nat.not_lt.1 hge)
    have hcount : min (numThreads n) (6 * numThreads n - 1) = numThreads n - 1 + 1 := by omega
    have hlast : codeAt (numThreads n) (1 + (numThreads n - 1)) = .yielded 0 0 0 := by
      rw [Nat.add_sub_cancel' hpos]
      simp [codeAt, Nat.div_self hpos]
    have hstart : (List.range' 1 (numThreads n - 1)).map (codeAt (numThreads n)) =
        (List.range' 1 (numThreads n - 1)).map .start := by
      apply List.map_congr_left
      intro j hj
      rw [List.mem_range'_1] at hj
      have hlt : j < numThreads n := by omega
      simp [codeAt, Nat.div_eq_of_lt hlt, Nat.mod_eq_of_lt hlt]
    unfold turn
    rw [hcount, List.range'_1_concat, List.map_append, List.map_singleton, hlast, hstart]
    simp [loop, Call.turns, lineAt]

inductive Lockstep (n : Nat) : Turns Globals Code → Prop where
  | launching (i : Nat) (hi : 1 ≤ i) (hle : i ≤ numThreads n) : Lockstep n (launching i)
  | turn (i : Nat) (hi : 1 ≤ i) (hle : i ≤ 6 * numThreads n) : Lockstep n (turn (numThreads n) i)

theorem lockstep {c : Turns Globals Code} (h : (system handler n).TurnsReachable c) : Lockstep n c := by
  have hpos := numThreads_pos n
  refine Transition.Reachable.invariant ?_ ?_ h
  . rintro c rfl
    exact .launching 1 (Nat.le_refl 1) hpos
  . intro c c' _ hc hstep
    cases hc with
    | launching i hi hle =>
      obtain ⟨hlt, rfl⟩ | rfl := launching_step hi hle hstep
      . exact .launching (i + 1) (by omega) hlt
      . exact .turn 1 (Nat.le_refl 1) (by omega)
    | turn i hi hle =>
      obtain ⟨hlt, rfl⟩ := turn_step hpos hi hstep
      exact .turn (i + 1) (by omega) hlt

theorem race_in_lockstep [IsEmpty H] {s : State Globals Code H} (h : (system handler n).Reachable s)
    : ∃ i, i ≤ 6 * numThreads n ∧ s.shared.output = (List.range i).map (lineAt (numThreads n)) ∧
        s.shared.sharedValue = (i - 1) / numThreads n ∧
        (s.readyList = [] → s.threadStatus s.currentThread ≠ .running → i = 6 * numThreads n) := by
  have hpos := numThreads_pos n
  have hnil := h.turns_nil (cooperative handler n)
  have hlockstep := lockstep (h.turns (cooperative handler n))
  generalize hturns : s.turns = c at hlockstep
  have hshared : s.shared = c.shared := congrArg Turns.shared hturns
  rw [hturns] at hnil
  rw [hshared]
  cases hlockstep with
  | launching i hi hle =>
    refine ⟨0, Nat.zero_le _, rfl, (Nat.zero_div _).symm, ?_⟩
    intro hready hrunning
    exact absurd (hnil hready hrunning) (by simp [launching])
  | turn i hi hle =>
    refine ⟨i, hle, rfl, rfl, ?_⟩
    intro hready hrunning
    by_contra hne
    have hqueue := hnil hready hrunning
    rw [turn_queue (by omega)] at hqueue
    contradiction

def lockstepRun (steps : Nat) : State Globals Code Empty :=
  runFor (system Empty.elim 2).toProgram steps (boot (system Empty.elim 2) [])

theorem race_in_lockstep_two
    : (lockstepRun 100).shared.sharedValue = 5 ∧ (lockstepRun 100).shared.output = (List.range 12).map (lineAt 2) := by
  have hreach : (system Empty.elim 2).Reachable (lockstepRun 100) := System.Reachable.runFor (.init ⟨_, rfl⟩) 100
  obtain ⟨i, -, houtput, hvalue, hend⟩ := race_in_lockstep hreach
  have hi : i = 12 := hend (by decide +kernel) (by decide +kernel)
  rw [hi] at houtput hvalue
  exact ⟨hvalue, houtput⟩

/-! ### With interrupts -/

def seenBy (which : Nat) (output : List Line) : List Nat :=
  output.filterMap fun
    | .sees w val => if w = which then some val else none
    | .final .. => none

def finals (which : Nat) (output : List Line) : List Nat :=
  output.filterMap fun
    | .sees .. => none
    | .final w value => if w = which then some value else none

def Code.remaining (n : Nat) : Code → Nat
  | .launch i => 5 * (numThreads n - i) + 5
  | .start _ => 5
  | .yielded _ num _ => 5 - num
  | .done => 0

def remaining (n : Nat) (codes : List Code) : Nat :=
  (codes.map (Code.remaining n)).sum

def Told (n num t : Nat) (output : List Line) : List Code → Prop
  | [.launch i] => t = 0 ∧ i = num ∧ i ≤ numThreads n ∧ seenBy t output = [] ∧ finals t output = []
  | [.start i, .launch j] =>
    t = 0 ∧ i = num ∧ j = i + 1 ∧ i < numThreads n ∧ seenBy t output = [] ∧ finals t output = []
  | [.start which] => which = t ∧ seenBy t output = [] ∧ finals t output = []
  | [.yielded which num val] =>
    which = t ∧ num < 5 ∧ num ≤ val ∧ seenBy t output = List.range' (val - num) (num + 1) ∧ finals t output = []
  | [] => ∃ first, first + 5 ≤ 5 * numThreads n ∧ seenBy t output = List.range' first 5 ∧ finals t output = [first + 5]
  | _ => False

structure Story (n : Nat) (c : Control Globals Code) : Prop where
  told : ∀ t, t < c.numThreads → Told n c.numThreads t c.shared.output (c.codes t)
  fresh : ∀ t, c.numThreads ≤ t → seenBy t c.shared.output = [] ∧ finals t c.shared.output = []
  launched : c.numThreads = numThreads n ∨ ∃ i, .launch i ∈ c.codes 0
  shared : c.shared.sharedValue + c.sum (remaining n) ≤ 5 * numThreads n
  pending : ∀ t, t < c.numThreads → ∀ which num val, c.codes t = [.yielded which num val] →
    val + c.sum (remaining n) ≤ 5 * numThreads n
  last : c.codes 0 ≠ [] ∨ (∃ t < c.numThreads, ∃ which num, c.codes t = [.yielded which num c.shared.sharedValue]) ∨
    5 ≤ c.shared.sharedValue

section

variable {c : Control Globals Code} {t : Nat} {u : Code}

@[simp]
theorem seenBy_sees (which w val : Nat) (output : List Line)
    : seenBy which (output ++ [.sees w val]) = seenBy which output ++ if w = which then [val] else [] := by
  unfold seenBy
  rw [List.filterMap_append]
  congr 1
  split <;> simp [*]

@[simp]
theorem seenBy_final (which w value : Nat) (output : List Line)
    : seenBy which (output ++ [.final w value]) = seenBy which output := by
  simp [seenBy]

@[simp]
theorem finals_sees (which w val : Nat) (output : List Line)
    : finals which (output ++ [.sees w val]) = finals which output := by
  simp [finals]

@[simp]
theorem finals_final (which w value : Nat) (output : List Line)
    : finals which (output ++ [.final w value]) = finals which output ++ if w = which then [value] else [] := by
  unfold finals
  rw [List.filterMap_append]
  congr 1
  split <;> simp [*]

theorem Told.congr {num t : Nat} {output output' : List Line} {codes : List Code} (h : Told n num t output codes)
    (hseen : seenBy t output' = seenBy t output) (hfinals : finals t output' = finals t output)
    : Told n num t output' codes := by
  unfold Told at *
  rw [hseen, hfinals]
  exact h

theorem Story.update (h : Story n c) (ht : t < c.numThreads) {codes : List Code} {g : Globals} {v : Nat}
    (hv : v + c.sum (remaining n) ≤ 5 * numThreads n)
    (hvalue : g.sharedValue + remaining n codes ≤ v + remaining n (c.codes t))
    (hle : remaining n codes ≤ remaining n (c.codes t))
    (htold : Told n c.numThreads t g.output codes)
    (hother : ∀ t', t' ≠ t →
      seenBy t' g.output = seenBy t' c.shared.output ∧ finals t' g.output = finals t' c.shared.output)
    (hlaunched : (∃ i, .launch i ∈ c.codes t) → c.numThreads = numThreads n ∨ ∃ i, .launch i ∈ codes)
    (hpending : ∀ which num val, codes = [.yielded which num val] → val = g.sharedValue)
    (hlast : (g.sharedValue = c.shared.sharedValue ∧ codes ≠ [] ∧ ∀ which num val, c.codes t ≠ [.yielded which num val]) ∨
      (∃ which num, codes = [.yielded which num g.sharedValue]) ∨ 5 ≤ g.sharedValue)
    : Story n { c with codes := update c.codes t codes, shared := g } := by
  have hsum := Control.sum_update (remaining n) ht codes g
  have hshared := h.shared
  refine ⟨?_, ?_, ?_, ?_, ?_, ?_⟩
  . intro t' ht'
    dsimp only
    by_cases heq : t' = t
    . rw [heq, Function.update_self]
      exact htold
    . rw [Function.update_of_ne heq]
      exact (h.told t' ht').congr (hother t' heq).1 (hother t' heq).2
  . intro t' ht'
    have heq : t' ≠ t := by
      rintro rfl
      exact absurd ht (Nat.not_lt.2 ht')
    dsimp only
    rw [(hother t' heq).1, (hother t' heq).2]
    exact h.fresh t' ht'
  . dsimp only
    obtain hnum | ⟨i, hi⟩ := h.launched
    . exact .inl hnum
    . by_cases heq : 0 = t
      . subst heq
        rw [Function.update_self]
        exact hlaunched ⟨i, hi⟩
      . rw [Function.update_of_ne heq]
        exact .inr ⟨i, hi⟩
  . dsimp only
    omega
  . intro t' ht' which num val hcodes
    dsimp only at hcodes ⊢
    by_cases heq : t' = t
    . rw [heq, Function.update_self] at hcodes
      have := hpending which num val hcodes
      omega
    . rw [Function.update_of_ne heq] at hcodes
      have := h.pending t' ht' which num val hcodes
      omega
  . dsimp only
    obtain ⟨hsame, hcodes, hnot⟩ | ⟨which, num, hcodes⟩ | hfive := hlast
    . rw [hsame]
      obtain hzero | ⟨t', ht', which, num, hcodes'⟩ | hfive := h.last
      . left
        by_cases heq : 0 = t
        . subst heq
          rwa [Function.update_self]
        . rwa [Function.update_of_ne heq]
      . refine .inr (.inl ⟨t', ht', which, num, ?_⟩)
        rw [Function.update_of_ne, hcodes']
        rintro rfl
        exact hnot _ _ _ hcodes'
      . exact .inr (.inr hfive)
    . refine .inr (.inl ⟨t, ht, which, num, ?_⟩)
      rw [Function.update_self, hcodes]
    . exact .inr (.inr hfive)

theorem remaining_singleton (u : Code) : remaining n [u] = u.remaining n := by
  simp [remaining]

theorem Story.start (h : Story n c) (ht : t < c.numThreads) (hcodes : c.codes t = [u])
    (hseen : seenBy t c.shared.output = []) (hfinals : finals t c.shared.output = [])
    (hlaunched : (∃ i, .launch i ∈ c.codes t) → c.numThreads = numThreads n) (hremaining : u.remaining n = 5)
    (hu : ∀ which num val, u ≠ .yielded which num val)
    : Story n
        { c with
          codes := Function.update c.codes t
            ((loop c.shared t 0 : Globals × Call Code H × Code).2.1.codes (loop (H := H) c.shared t 0).2.2)
          shared := (loop (H := H) c.shared t 0).1 } := by
  apply h.update ht h.shared
  . rw [hcodes, remaining_singleton, hremaining]
    rfl
  . rw [hcodes, remaining_singleton, hremaining]
    exact Nat.le_refl 5
  . refine ⟨rfl, by decide, Nat.zero_le _, ?_, ?_⟩
    . simp [loop, hseen]
    . simp [loop, hfinals]
  . intro t' ht'
    simp [loop, Ne.symm ht']
  . intro hi
    exact .inl (hlaunched hi)
  . intro which num val heq
    simp only [loop, Call.codes] at heq
    simp [loop] at heq ⊢
    exact heq.2.2.symm
  . refine .inl ⟨rfl, by simp [loop, Call.codes], ?_⟩
    intro which num val heq
    rw [hcodes, List.singleton_inj] at heq
    exact hu which num val heq

theorem Story.run (h : Story n c) (ht : t < c.numThreads) (hcodes : c.codes t = [u])
    : Story n
        { c with
          codes := Function.update c.codes t
            ((run n c.shared u : Globals × Call Code H × Code).2.1.codes (run (H := H) n c.shared u).2.2)
          shared := (run (H := H) n c.shared u).1 } := by
  have htold := h.told t ht
  rw [hcodes] at htold
  cases u with
  | launch i =>
    obtain ⟨rfl, rfl, hle, hseen, hfinals⟩ := htold
    rw [run]
    split
    next hlt =>
      have hsame : remaining n [.start c.numThreads, .launch (c.numThreads + 1)] = remaining n (c.codes 0) := by
        rw [hcodes]
        simp only [remaining, Code.remaining, List.map_cons, List.map_nil, List.sum_cons, List.sum_nil]
        omega
      apply h.update ht h.shared (Nat.le_of_eq (congrArg (_ + ·) hsame)) (Nat.le_of_eq hsame)
      . exact ⟨rfl, rfl, rfl, hlt, hseen, hfinals⟩
      . exact fun _ _ => ⟨rfl, rfl⟩
      . exact fun _ => .inr ⟨_, List.mem_cons_of_mem _ List.mem_cons_self⟩
      . exact fun _ _ _ heq => by simp at heq
      . exact .inl ⟨rfl, by simp, by simp [hcodes]⟩
    next hge =>
      have hnum : c.numThreads = numThreads n := Nat.le_antisymm hle (Nat.not_lt.1 hge)
      apply h.start ht hcodes hseen hfinals (fun _ => hnum) _ (by simp)
      simp [Code.remaining, hnum]
  | start which =>
    obtain ⟨rfl, hseen, hfinals⟩ := htold
    exact h.start ht hcodes hseen hfinals (by simp [hcodes]) rfl (by simp)
  | yielded which num val =>
    obtain ⟨rfl, hnum, hval, hseen, hfinals⟩ := htold
    have hpending := h.pending which ht which num val hcodes
    rw [run, loop]
    split
    next hlt =>
      have hless : remaining n [.yielded which (num + 1) (val + 1)] + 1 = remaining n (c.codes which) := by
        rw [hcodes, remaining_singleton, remaining_singleton]
        simp only [Code.remaining]
        omega
      apply h.update ht hpending
      . dsimp only [Call.codes]
        omega
      . dsimp only [Call.codes]
        omega
      . have hrange : List.range' (val - num) (num + 1 + 1) = List.range' (val - num) (num + 1) ++ [val + 1] := by
          rw [List.range'_1_concat, show val - num + (num + 1) = val + 1 by omega]
        refine ⟨rfl, hlt, Nat.succ_le_succ hval, ?_, ?_⟩
        . rw [seenBy_sees, hseen, if_pos rfl, Nat.add_sub_add_right, hrange]
        . rwa [finals_sees]
      . intro t ht
        simp [Ne.symm ht]
      . simp [hcodes]
      . rintro _ _ _ ⟨⟩
        rfl
      . exact .inr (.inl ⟨which, num + 1, rfl⟩)
    next hge =>
      obtain rfl : num = 4 := by omega
      have hless : remaining n [] + 1 = remaining n (c.codes which) := by
        rw [hcodes, remaining_singleton]
        rfl
      have hsum := Control.le_sum (remaining n) ht
      apply h.update ht hpending
      . dsimp only [Call.codes]
        omega
      . dsimp only [Call.codes]
        omega
      . refine ⟨val - 4, by omega, ?_, ?_⟩
        . rwa [seenBy_final]
        . rw [finals_final, hfinals, if_pos rfl, List.nil_append, show val - 4 + 5 = val + 1 by omega]
      . intro t ht
        simp [Ne.symm ht]
      . simp [hcodes]
      . simp [Call.codes]
      . exact .inr (.inr (by dsimp only; omega))
  | done => exact htold.elim

theorem Told.of_ne_zero {num num' t : Nat} {output : List Line} {codes : List Code} (h : Told n num t output codes)
    (ht : t ≠ 0)
    : Told n num' t output codes := by
  unfold Told at *
  split at h
  . exact absurd h.1 ht
  . exact absurd h.1 ht
  . exact h
  . exact h
  . exact h
  . exact h.elim

theorem Told.fork_cases {num t : Nat} {output : List Line} {func : Code} (h : Told n num t output [func, u])
    : t = 0 ∧ func = .start num ∧ u = .launch (num + 1) ∧ num < numThreads n ∧ seenBy t output = [] ∧
        finals t output = [] := by
  cases func with
  | start i =>
    cases u with
    | launch j =>
      obtain ⟨rfl, rfl, rfl, hlt, hseen, hfinals⟩ := h
      exact ⟨rfl, rfl, rfl, hlt, hseen, hfinals⟩
    | start | yielded | done => exact h.elim
  | launch | yielded | done => exact h.elim

theorem Story.fork (h : Story n c) (ht : t < c.numThreads) {func : Code} (hcodes : c.codes t = [func, u])
    : Story n
        { c with
          numThreads := c.numThreads + 1
          codes := Function.update (Function.update c.codes c.numThreads [func]) t [u] } := by
  have htold := h.told t ht
  rw [hcodes] at htold
  obtain ⟨rfl, rfl, rfl, hlt, hseen, hfinals⟩ := htold.fork_cases
  have hne : c.numThreads ≠ 0 := Nat.ne_of_gt ht
  have hsum := Control.sum_fork (remaining n) ht (.start c.numThreads) [.launch (c.numThreads + 1)] c.shared
  have hsame : remaining n [.launch (c.numThreads + 1)] + remaining n [.start c.numThreads] = remaining n (c.codes 0) := by
    rw [hcodes]
    simp only [remaining, List.map_cons, List.map_nil, List.sum_cons, List.sum_nil]
    omega
  have hshared := h.shared
  refine ⟨?_, ?_, ?_, ?_, ?_, ?_⟩
  . intro t' ht'
    dsimp only at ht' ⊢
    by_cases hzero : t' = 0
    . rw [hzero, Function.update_self]
      exact ⟨rfl, rfl, hlt, hseen, hfinals⟩
    . rw [Function.update_of_ne hzero]
      by_cases hnew : t' = c.numThreads
      . rw [hnew, Function.update_self]
        exact ⟨rfl, h.fresh _ (Nat.le_refl _)⟩
      . rw [Function.update_of_ne hnew]
        exact (h.told t' (by omega)).of_ne_zero hzero
  . intro t' ht'
    exact h.fresh t' (Nat.le_of_succ_le ht')
  . refine .inr ⟨c.numThreads + 1, ?_⟩
    dsimp only
    rw [Function.update_self]
    exact List.mem_cons_self
  . dsimp only
    omega
  . intro t' ht' which num val hcodes'
    dsimp only at ht' hcodes' ⊢
    by_cases hzero : t' = 0
    . simp [hzero] at hcodes'
    . rw [Function.update_of_ne hzero] at hcodes'
      by_cases hnew : t' = c.numThreads
      . simp [hnew] at hcodes'
      . rw [Function.update_of_ne hnew] at hcodes'
        have := h.pending t' (by omega) which num val hcodes'
        omega
  . left
    dsimp only
    rw [Function.update_self]
    simp

theorem story_boot : Story n (system handler n).controlBoot := by
  have hpos := numThreads_pos n
  have hsum : (system handler n).controlBoot.sum (remaining n) = remaining n [.launch 1] := by
    simp [System.controlBoot, Control.sum, system]
  refine ⟨?_, fun _ _ => ⟨rfl, rfl⟩, ?_, ?_, ?_, ?_⟩
  . intro t ht
    obtain rfl : t = 0 := Nat.lt_one_iff.1 ht
    exact ⟨rfl, rfl, hpos, rfl, rfl⟩
  . exact .inr ⟨1, List.mem_cons_self⟩
  . rw [hsum, remaining_singleton]
    simp only [Code.remaining, System.controlBoot, system]
    omega
  . intro t ht which num val hcodes
    obtain rfl : t = 0 := Nat.lt_one_iff.1 ht
    simp [System.controlBoot, system] at hcodes
  . left
    simp [System.controlBoot]

theorem story (h : (system handler n).ControlReachable c) : Story n c := by
  refine Transition.Reachable.invariant ?_ ?_ h
  . rintro c rfl
    exact story_boot
  . intro c c' _ hc hstep
    cases hstep with
    | user t u ht hcodes => exact hc.run ht hcodes
    | fork t func u ht hcodes => exact hc.fork ht hcodes
    | interrupt => exact hc

theorem points_of_wait {a : Client Globals Code} (h : (system handler n).ClientReachable a) {t : Nat}
    (ht : t < a.numThreads) {wait : WaitPoint} (hwait : wait.IsAt (a.points t))
    : a.points t = [.notReached] := by
  have hcalls {call : Call Code H} {u : Code} (hcall : (system handler n).Calls call u) : call.Cooperative := by
    obtain ⟨u₀, g, hcode⟩ := hcall
    have hcooperative := cooperative handler n u₀ g
    rwa [hcode] at hcooperative
  have hruns := h.runs t ht
  generalize a.points t = points at hruns hwait
  cases wait with
  | sem q =>
    obtain ⟨rest, rfl⟩ := hwait
    cases hruns with
    | pWhile _ u hcall => simpa [Call.Cooperative] using hcalls hcall
    | lockPWhile _ u hcall =>
      obtain hcall | ⟨c, hcall⟩ := hcall
      . simpa [Call.Cooperative] using hcalls hcall
      . simpa [Call.Cooperative] using hcalls hcall
  | cond c =>
    obtain ⟨l, rest, rfl⟩ := hwait
    cases hruns with
    | waitAcquire _ _ u hcall => simpa [Call.Cooperative] using hcalls hcall
  | finished =>
    obtain ⟨rest, rfl⟩ := hwait
    cases hruns with
    | finished => rfl
    | exited u hcall => simpa [Call.Cooperative] using hcalls hcall

theorem codes_of_idle {s : State Globals Code H} (h : (system handler n).Reachable s) (hready : s.readyList = [])
    (hrunning : ∀ t, t < s.numThreads → s.threadStatus t ≠ .running)
    : ∀ t, t < s.numThreads → s.control.codes t = [] := by
  intro t ht
  have hplaced := h.inv.placed
  have hblocked := hplaced.blocked_of_idle hready hrunning ht
  obtain ⟨wait, hwait⟩ := Option.ne_none_iff_exists'.mp (hplaced.blocked t ht hblocked)
  have hpoints := points_of_wait h.client ht (Stack.waitPoint_isAt hwait)
  change (s.client.points t).filterMap Point.code? = []
  rw [hpoints]
  rfl

theorem Story.seenBy_eq (h : Story n c) (which : Nat)
    : (∃ first k, k ≤ 5 ∧ seenBy which c.shared.output = List.range' first k) ∧
        ∀ value ∈ finals which c.shared.output,
          5 ≤ value ∧ value ≤ 5 * numThreads n ∧ seenBy which c.shared.output = List.range' (value - 5) 5 := by
  by_cases hlt : which < c.numThreads
  . have htold := h.told which hlt
    unfold Told at htold
    split at htold
    . obtain ⟨-, -, -, hseen, hfinals⟩ := htold
      exact ⟨⟨0, 0, Nat.zero_le 5, hseen⟩, by simp [hfinals]⟩
    . obtain ⟨-, -, -, -, hseen, hfinals⟩ := htold
      exact ⟨⟨0, 0, Nat.zero_le 5, hseen⟩, by simp [hfinals]⟩
    . obtain ⟨-, hseen, hfinals⟩ := htold
      exact ⟨⟨0, 0, Nat.zero_le 5, hseen⟩, by simp [hfinals]⟩
    . obtain ⟨-, hnum, -, hseen, hfinals⟩ := htold
      exact ⟨⟨_, _, hnum, hseen⟩, by simp [hfinals]⟩
    . obtain ⟨first, hle, hseen, hfinals⟩ := htold
      refine ⟨⟨first, 5, Nat.le_refl 5, hseen⟩, ?_⟩
      simp [hfinals, hle, hseen]
    . exact htold.elim
  . obtain ⟨hseen, hfinals⟩ := h.fresh which (Nat.not_lt.1 hlt)
    exact ⟨⟨0, 0, Nat.zero_le 5, hseen⟩, by simp [hfinals]⟩

end

theorem race_bounded {s : State Globals Code H} (h : (system handler n).Reachable s)
    : (∀ which, ∃ first k, k ≤ 5 ∧ seenBy which s.shared.output = List.range' first k) ∧
      (∀ which, ∀ value ∈ finals which s.shared.output,
        5 ≤ value ∧ value ≤ 5 * numThreads n ∧ seenBy which s.shared.output = List.range' (value - 5) 5) ∧
      (s.readyList = [] → (∀ t, t < s.numThreads → s.threadStatus t ≠ .running) →
        s.numThreads = numThreads n ∧ 5 ≤ s.shared.sharedValue ∧ s.shared.sharedValue ≤ 5 * numThreads n ∧
          ∀ which, which < numThreads n → ∃ value, finals which s.shared.output = [value]) := by
  have hstory := story h.control
  refine ⟨fun which => (hstory.seenBy_eq which).1, fun which => (hstory.seenBy_eq which).2, ?_⟩
  intro hready hrunning
  have hcodes := codes_of_idle h hready hrunning
  have hzero : s.control.codes 0 = [] := hcodes 0 (Nat.lt_of_le_of_lt (Nat.zero_le _) h.inv.placed.current_lt)
  have hnum : s.numThreads = numThreads n := by
    obtain hnum | ⟨i, hi⟩ := hstory.launched
    . exact hnum
    . rw [hzero] at hi
      contradiction
  refine ⟨hnum, ?_, ?_, ?_⟩
  . obtain hne | ⟨t, ht, which, num, hyielded⟩ | hfive := hstory.last
    . exact absurd hzero hne
    . rw [hcodes t ht] at hyielded
      contradiction
    . exact hfive
  . exact Nat.le_of_add_right_le hstory.shared
  . intro which hwhich
    rw [← hnum] at hwhich
    have htold := hstory.told which hwhich
    rw [hcodes which hwhich] at htold
    obtain ⟨first, -, -, hfinals⟩ := htold
    exact ⟨_, hfinals⟩

def raceRun (steps : Nat) : State Globals Code Unit :=
  runFor (system timeSlicing 2).toProgram steps
    (boot (system timeSlicing 2) [⟨(), 45, .timerInt⟩, ⟨(), 60, .timerInt⟩, ⟨(), 85, .timerInt⟩])

theorem race_bounded_two
    : 5 ≤ (raceRun 150).shared.sharedValue ∧ (raceRun 150).shared.sharedValue ≤ 10 ∧
        ∃ value, finals 1 (raceRun 150).shared.output = [value] := by
  have hreach : (system timeSlicing 2).Reachable (raceRun 150) := System.Reachable.runFor (.init ⟨_, rfl⟩) 150
  obtain ⟨-, hfive, hten, hfinals⟩ := (race_bounded hreach).2.2 (by decide +kernel) (by decide +kernel)
  exact ⟨hfive, hten, hfinals 1 (by decide)⟩

end Race

end Nachos
