import Mathlib.Data.List.Induction
import Mathlib.Logic.Relation

/-!
This module contains the theory of transition systems that the proofs about whole runs rest on:
reachability, the rule for inductive invariants, and the transfer of reachability along a
simulation that may stutter.
-/

namespace Transition

open Relation

variable {σ τ : Type} {start : σ → Prop} {step : σ → σ → Prop}

def Reachable (start : σ → Prop) (step : σ → σ → Prop) (s : σ) : Prop :=
  ∃ s₀, start s₀ ∧ ReflTransGen step s₀ s

theorem Reachable.init {s : σ} (h : start s) : Reachable start step s :=
  ⟨s, h, .refl⟩

theorem Reachable.tail {s s' : σ} (h : Reachable start step s) (hstep : step s s')
    : Reachable start step s' := by
  obtain ⟨s₀, h₀, hrun⟩ := h
  exact ⟨s₀, h₀, hrun.tail hstep⟩

theorem Reachable.trans {s s' : σ} (h : Reachable start step s) (hrun : ReflTransGen step s s')
    : Reachable start step s' := by
  obtain ⟨s₀, h₀, hrun₀⟩ := h
  exact ⟨s₀, h₀, hrun₀.trans hrun⟩

theorem Reachable.invariant {P : σ → Prop} (hinit : ∀ s, start s → P s)
    (hstep : ∀ s s', Reachable start step s → P s → step s s' → P s')
    {s : σ} (h : Reachable start step s)
    : P s := by
  obtain ⟨s₀, h₀, hrun⟩ := h
  induction hrun with
  | refl => exact hinit s₀ h₀
  | tail hrun hlast ih => exact hstep _ _ ⟨s₀, h₀, hrun⟩ ih hlast

theorem Reachable.mono {step' : σ → σ → Prop} (hsub : ∀ s s', step' s s' → step s s') {s : σ}
    (h : Reachable start step' s)
    : Reachable start step s := by
  obtain ⟨s₀, h₀, hrun⟩ := h
  exact ⟨s₀, h₀, ReflTransGen.mono hsub _ _ hrun⟩

/--
`view` maps every run of one system to a run of another one, where some of the steps may do nothing.
-/
theorem Reachable.simulation {start' : τ → Prop} {step' : τ → τ → Prop} {view : σ → τ}
    (hinit : ∀ s, start s → start' (view s))
    (hstep : ∀ s s', Reachable start step s → step s s'
      → view s' = view s ∨ step' (view s) (view s'))
    {s : σ} (h : Reachable start step s)
    : Reachable start' step' (view s) := by
  apply Reachable.invariant (P := fun s => Reachable start' step' (view s)) ?_ ?_ h
  . intro s hs
    exact .init (hinit s hs)
  . intro s s' hreach ih hs
    cases hstep s s' hreach hs with
    | inl heq =>
      rw [heq]
      exact ih
    | inr hs' => exact ih.tail hs'

section Trace

variable {ε : Type} {step : σ → ε → σ → Prop} {step' : τ → ε → τ → Prop}

inductive Trace (step : σ → ε → σ → Prop) : σ → List ε → σ → Prop where
  | nil {s : σ} : Trace step s [] s
  | snoc {s s' s'' : σ} {events : List ε} {e : ε} (hrun : Trace step s events s') (hlast : step s' e s'')
    : Trace step s (events ++ [e]) s''

theorem Trace.invariant {P : σ → Prop} (hstep : ∀ s e s', P s → step s e s' → P s') {s s' : σ} {events : List ε}
    (h : Trace step s events s') (hinit : P s)
    : P s' := by
  induction h with
  | nil => exact hinit
  | snoc _ hlast ih => exact hstep _ _ _ ih hlast

theorem Trace.with_invariant {P : σ → Prop} (hstep : ∀ s e s', P s → step s e s' → P s') {s s' : σ}
    {events : List ε} (h : Trace step s events s') (hinit : P s)
    : Trace (fun s e s' => P s ∧ step s e s') s events s' := by
  induction h with
  | nil => exact .nil
  | snoc hrun hlast ih => exact ih.snoc ⟨hrun.invariant hstep hinit, hlast⟩

theorem Trace.append {s s' s'' : σ} {l r : List ε} (h : Trace step s l s') (h' : Trace step s' r s'')
    : Trace step s (l ++ r) s'' := by
  induction h' with
  | nil => rwa [List.append_nil]
  | snoc _ hlast ih =>
    rw [← List.append_assoc]
    exact ih.snoc hlast

theorem Trace.cons {s s' s'' : σ} {e : ε} {events : List ε} (hfirst : step s e s') (h : Trace step s' events s'')
    : Trace step s (e :: events) s'' :=
  Trace.append (Trace.nil.snoc hfirst) h

theorem Trace.of_snoc {s s'' : σ} {events : List ε} {e : ε} (h : Trace step s (events ++ [e]) s'')
    : ∃ s', Trace step s events s' ∧ step s' e s'' := by
  generalize heq : events ++ [e] = l at h
  cases h with
  | nil => simp at heq
  | snoc hrun hlast =>
    have hinj := List.append_inj' heq rfl
    cases hinj.2
    rw [hinj.1]
    exact ⟨_, hrun, hlast⟩

theorem Trace.of_append {s s'' : σ} {l r : List ε} (h : Trace step s (l ++ r) s'')
    : ∃ s', Trace step s l s' ∧ Trace step s' r s'' := by
  induction r using List.reverseRecOn generalizing s'' with
  | nil =>
    rw [List.append_nil] at h
    exact ⟨s'', h, .nil⟩
  | append_singleton r e ih =>
    rw [← List.append_assoc] at h
    obtain ⟨s₁, hrun, hlast⟩ := h.of_snoc
    obtain ⟨s', hl, hr⟩ := ih hrun
    exact ⟨s', hl, hr.snoc hlast⟩

theorem Trace.simulation {related : σ → τ → Prop}
    (hstep : ∀ s e s' t, related s t → step s e s' → ∃ t', step' t e t' ∧ related s' t')
    {s s' : σ} {events : List ε} (h : Trace step s events s') {t : τ} (hrelated : related s t)
    : ∃ t', Trace step' t events t' ∧ related s' t' := by
  induction h with
  | nil => exact ⟨t, .nil, hrelated⟩
  | snoc _ hlast ih =>
    obtain ⟨t', hrun, hrelated'⟩ := ih
    obtain ⟨t'', hlast', hrelated''⟩ := hstep _ _ _ _ hrelated' hlast
    exact ⟨t'', hrun.snoc hlast', hrelated''⟩

end Trace

end Transition
