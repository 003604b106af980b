import Nachos.Lib.Exit
import Nachos.Lib.Transition

/-!
This module contains objects that are used by sequences of calls: the run of a sequence, the rule that it
follows an abstract object, and what can be said about the object from the history of the calls.
-/

/-! ### Runs -/

namespace Exit

open Transition

variable {ε σ δ κ ρ τ : Type}

def calls (perform : δ → κ → Exit ε σ (δ × ρ)) (d : δ) : List κ → Exit ε σ (δ × List (κ × ρ))
  | [] => pure (d, [])
  | call :: rest => do
    let (d, answer) ← perform d call
    let (d, events) ← calls perform d rest
    return (d, (call, answer) :: events)

theorem returns_calls (related : δ → σ → τ → Prop) (step : τ → κ × ρ → τ → Prop)
    {perform : δ → κ → Exit ε σ (δ × ρ)} {legal : κ → Prop}
    (hperform : ∀ d t call s, legal call → related d s t →
      Returns (perform d call) s (fun r s' => ∃ t', step t (call, r.2) t' ∧ related r.1 s' t'))
    {d : δ} {t : τ} {s : σ} (hrelated : related d s t) {l : List κ} (hlegal : ∀ call ∈ l, legal call)
    : Returns (calls perform d l) s (fun r s' =>
        r.2.map Prod.fst = l ∧ ∃ t', Trace step t r.2 t' ∧ related r.1 s' t') := by
  induction l generalizing d t s with
  | nil =>
    unfold calls
    rw [returns_pure]
    exact ⟨rfl, t, .nil, hrelated⟩
  | cons call rest ih =>
    unfold calls
    apply (hperform d t call s (hlegal call List.mem_cons_self) hrelated).bind
    intro r s' ⟨t', hstep, hrelated'⟩
    apply (ih hrelated' (fun call hcall => hlegal call (List.mem_cons_of_mem _ hcall))).bind
    intro r' s'' ⟨hrest, t'', htrace, hrelated''⟩
    rw [returns_pure]
    refine ⟨?_, t'', htrace.cons hstep, hrelated''⟩
    rw [List.map_cons, hrest]

end Exit

/-! ### Histories -/

namespace Transition

variable {ε σ : Type} {sets clears : ε → Prop}

def Since (sets clears : ε → Prop) (history : List ε) : Prop :=
  ∃ before e after, history = before ++ e :: after ∧ sets e ∧ ∀ e' ∈ after, ¬clears e'

theorem not_since_nil : ¬Since sets clears [] := by
  intro ⟨before, e, after, h, _⟩
  simp at h

theorem since_snoc (history : List ε) (e : ε)
    : Since sets clears (history ++ [e]) ↔ sets e ∨ Since sets clears history ∧ ¬clears e := by
  constructor
  . intro ⟨before, e', after, heq, hsets, hafter⟩
    cases List.eq_nil_or_concat after with
    | inl hnil =>
      subst hnil
      have hlast := List.append_inj' heq rfl
      cases hlast.2
      exact .inl hsets
    | inr hconcat =>
      obtain ⟨after', e'', hconcat⟩ := hconcat
      rw [List.concat_eq_append] at hconcat
      have heq' : history ++ [e] = (before ++ e' :: after') ++ [e''] := by
        rw [heq, hconcat]
        simp
      subst hconcat
      have hlast := List.append_inj' heq' rfl
      cases hlast.2
      refine .inr ⟨⟨before, e', after', hlast.1, hsets, ?_⟩, ?_⟩
      . intro e₁ he₁
        exact hafter e₁ (List.mem_append_left _ he₁)
      . exact hafter e (List.mem_append_right _ (List.mem_singleton_self e))
  . intro h
    cases h with
    | inl hsets => exact ⟨history, e, [], rfl, hsets, by simp⟩
    | inr h =>
      obtain ⟨⟨before, e', after, heq, hsets, hafter⟩, hclears⟩ := h
      refine ⟨before, e', after ++ [e], by rw [heq]; simp, hsets, ?_⟩
      intro e₁ he₁
      rw [List.mem_append, List.mem_singleton] at he₁
      cases he₁ with
      | inl he₁ => exact hafter e₁ he₁
      | inr he₁ =>
        rw [he₁]
        exact hclears

variable {step : σ → ε → σ → Prop} {s s' : σ}

theorem Trace.iff_since {P : σ → Prop} (hstep : ∀ s e s', step s e s' → (P s' ↔ sets e ∨ P s ∧ ¬clears e))
    {history : List ε} (h : Trace step s history s') (hinit : ¬P s)
    : P s' ↔ Since sets clears history := by
  induction h with
  | nil => exact iff_of_false hinit not_since_nil
  | snoc _ hlast ih => rw [hstep _ _ _ hlast, since_snoc, ih]

theorem Trace.of_mid {before after : List ε} {e : ε} (h : Trace step s (before ++ e :: after) s')
    : ∃ s₁ s₂, Trace step s before s₁ ∧ step s₁ e s₂ := by
  rw [List.append_cons] at h
  obtain ⟨s₂, hbefore, _⟩ := h.of_append
  obtain ⟨s₁, hbefore, hstep⟩ := hbefore.of_snoc
  exact ⟨s₁, s₂, hbefore, hstep⟩

end Transition
