import Nachos.Synch.Control
import Nachos.Synch.Device

/-!
This module contains properties of the control points of a program that its code keeps. Every thread is
at a control point with such a property, so a run is also a run of the program without its other control
points.
-/

namespace Nachos

structure System.Closed (sys : System G U H) (ok : U → Prop) : Prop where
  main : ok sys.main
  next : ∀ u g, ok u → ok (sys.code u g).2.2
  fork : ∀ u g func, ok u → (sys.code u g).2.1 = .fork func → ok func

section

variable {sys : System G U H} {ok : U → Prop}

theorem Call.mem_codes {call : Call U H} {u v : U} (h : v ∈ call.codes u)
    : v = u ∨ call = .fork v := by
  cases call <;> simp_all [Call.codes]
  case fork => exact h.symm.imp id Eq.symm

theorem System.ControlReachable.closed (hok : sys.Closed ok) {c : Control G U} (h : sys.ControlReachable c)
    : ∀ t, t < c.numThreads → ∀ u ∈ c.codes t, ok u := by
  refine Transition.Reachable.invariant
    (P := fun c : Control G U => ∀ t, t < c.numThreads → ∀ u ∈ c.codes t, ok u) ?_ ?_ h
  . rintro c rfl t ht u hu
    obtain rfl : t = 0 := by simpa [System.controlBoot] using ht
    obtain rfl : u = sys.main := by simpa [System.controlBoot] using hu
    exact hok.main
  . intro c c' _ hcodes hstep t ht v hv
    cases hstep with
    | interrupt => exact hcodes t ht v hv
    | user t₀ u ht₀ hcodes₀ =>
      have hu : ok u := hcodes t₀ ht₀ u (by simp [hcodes₀])
      change v ∈ Function.update c.codes t₀ _ t at hv
      by_cases hne : t = t₀
      . subst hne
        rw [Function.update_self] at hv
        obtain rfl | hfork := Call.mem_codes hv
        . exact hok.next u c.shared hu
        . exact hok.fork u c.shared v hu hfork
      . rw [Function.update_of_ne hne] at hv
        exact hcodes t ht v hv
    | fork t₀ func u ht₀ hcodes₀ =>
      obtain ⟨t₁, ht₁, hmem, _⟩ := Control.mem_fork ht₀ hcodes₀ ht hv
      exact hcodes t₁ ht₁ v hmem

theorem System.Reachable.closed (hok : sys.Closed ok) {s : State G U H} (h : sys.Reachable s) {t : Nat}
    (ht : t < s.numThreads) {u : U} (hmem : .user u ∈ s.stack t)
    : ok u := by
  refine h.control.closed hok t ht u ?_
  change u ∈ ((s.stack t).filterMap Frame.point?).filterMap Point.code?
  exact List.mem_filterMap.mpr ⟨.user u, List.mem_filterMap.mpr ⟨_, hmem, rfl⟩, rfl⟩

open Classical in
noncomputable def System.guard (sys : System G U H) (ok : U → Prop) : System G U H where
  code u g := if ok u then sys.code u g else (g, .finish, u)
  handler := sys.handler
  globals := sys.globals
  main := sys.main
  value := sys.value
  value_nonneg := sys.value_nonneg

theorem guard_code {u : U} (h : ok u) (g : G) : (sys.guard ok).code u g = sys.code u g := by
  simp [System.guard, h]

theorem guard_code_not {u : U} (h : ¬ok u) (g : G) : (sys.guard ok).code u g = (g, .finish, u) := by
  simp [System.guard, h]

theorem guard_code_cases {P : U → G → G × Call U H × U → Prop} (hcode : ∀ u g, ok u → P u g (sys.code u g))
    (hfinish : ∀ u g, ¬ok u → P u g (g, .finish, u)) (u : U) (g : G)
    : P u g ((sys.guard ok).code u g) := by
  by_cases hu : ok u
  . rw [guard_code hu]
    exact hcode u g hu
  . rw [guard_code_not hu]
    exact hfinish u g hu

theorem guard_exec {arrivals : List (Arrival H)} {s : State G U H} {frame : Frame U H}
    (h : ∀ u, frame = .user u → ok u)
    : exec (sys.guard ok).toProgram arrivals s frame = exec sys.toProgram arrivals s frame := by
  cases frame with
  | user u => simp only [exec, guard_code (h u rfl)]
  | handler calls =>
    cases calls with
    | nil => rfl
    | cons call calls => cases call <;> rfl
  | _ => rfl

theorem guard_step {arrivals : List (Arrival H)} {s : State G U H}
    (h : ∀ u rest, s.stack s.currentThread = .user u :: rest → ok u)
    : step (sys.guard ok).toProgram arrivals s = step sys.toProgram arrivals s := by
  unfold step
  split
  next => rfl
  next frame rest hstack =>
    rw [guard_exec]
    rintro u rfl
    exact h u rest hstack

theorem System.ReachableBy.guard {ext : H → Prop} (hok : sys.Closed ok) {s : State G U H}
    (h : sys.ReachableBy ext s)
    : (sys.guard ok).ReachableBy ext s := by
  refine Transition.Reachable.invariant (P := (sys.guard ok).ReachableBy ext) ?_ ?_ h
  . rintro s ⟨pending, hpending, rfl⟩
    exact .init ⟨pending, hpending, rfl⟩
  . rintro s s' hreach hguard ⟨arrivals, harrivals, hstep⟩
    have hs := System.ReachableBy.reachable hreach
    refine hguard.tail ⟨arrivals, harrivals, ?_⟩
    rw [guard_step, hstep]
    intro u rest hstack
    exact hs.closed hok hs.inv.placed.current_lt (by simp [hstack])

end

end Nachos
