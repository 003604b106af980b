import Mathlib.Data.List.Nodup

/-!
This module contains linearizability. The calls of an object by several threads may overlap, but every
call looks as if it took effect at one moment between its invocation and its return. The rule for
proving it is a log of the invocations and returns that also marks these moments.
-/

namespace Linearize

variable {σ O R : Type}

inductive Event (O R : Type) where
  | invoke (k : Nat) (op : O)
  | ret (k : Nat) (res : R)
  deriving DecidableEq

structure Effect (O R : Type) where
  call : Nat
  op : O
  res : R
  deriving DecidableEq

def Legal (run : σ → O → σ × R) (s : σ) : List (Effect O R) → Prop
  | [] => True
  | e :: rest => (run s e.op).2 = e.res ∧ Legal run (run s e.op).1 rest

def final (run : σ → O → σ × R) (s : σ) (order : List (Effect O R)) : σ :=
  order.foldl (fun s e => (run s e.op).1) s

/--
`k` has returned before `k'` is invoked.
-/
def Precedes (history : List (Event O R)) (k k' : Nat) : Prop :=
  ∃ before res after op, history = before ++ .ret k res :: after ∧ .invoke k' op ∈ after

structure Linearization (run : σ → O → σ × R) (s : σ) (history : List (Event O R))
    (order : List (Effect O R)) : Prop where
  nodup : (order.map Effect.call).Nodup
  invoked : ∀ e ∈ order, .invoke e.call e.op ∈ history
  returned : ∀ k res, .ret k res ∈ history → ∃ e ∈ order, e.call = k ∧ e.res = res
  legal : Legal run s order
  realTime : ∀ k k', Precedes history k k' → k' ∈ order.map Effect.call →
    [k, k'].Sublist (order.map Effect.call)

/-! ### Logs that mark when a call takes effect -/

inductive Mark (O R : Type) where
  | invoke (k : Nat) (op : O)
  | effect (k : Nat) (op : O) (res : R)
  | ret (k : Nat) (res : R)
  deriving DecidableEq

namespace Mark

def call : Mark O R → Nat
  | .invoke k _ => k
  | .effect k _ _ => k
  | .ret k _ => k

def event? : Mark O R → Option (Event O R)
  | .invoke k op => some (.invoke k op)
  | .effect _ _ _ => none
  | .ret k res => some (.ret k res)

def effect? : Mark O R → Option (Effect O R)
  | .effect k op res => some ⟨k, op, res⟩
  | _ => none

end Mark

def marksOf (k : Nat) (log : List (Mark O R)) : List (Mark O R) :=
  log.filter fun m => m.call = k

def history (log : List (Mark O R)) : List (Event O R) :=
  log.filterMap Mark.event?

def effects (log : List (Mark O R)) : List (Effect O R) :=
  log.filterMap Mark.effect?

def WellMarked (log : List (Mark O R)) : Prop :=
  ∀ k, ∃ op res, marksOf k log <+: [.invoke k op, .effect k op res, .ret k res]

section

variable {run : σ → O → σ × R} {s : σ} {log : List (Mark O R)} {k : Nat}

@[simp]
theorem marksOf_append (k : Nat) (log log' : List (Mark O R))
    : marksOf k (log ++ log') = marksOf k log ++ marksOf k log' :=
  List.filter_append ..

theorem marksOf_cons (m : Mark O R)
    : marksOf k (m :: log) = if m.call = k then m :: marksOf k log else marksOf k log := by
  by_cases h : m.call = k <;> simp [marksOf, h]

@[simp]
theorem effects_append (log log' : List (Mark O R)) : effects (log ++ log') = effects log ++ effects log' :=
  List.filterMap_append ..

@[simp]
theorem effects_nil : effects ([] : List (Mark O R)) = [] := rfl

@[simp]
theorem effects_invoke {op : O} : effects (.invoke k op :: log) = effects log := rfl

@[simp]
theorem effects_effect {op : O} {res : R} : effects (.effect k op res :: log) = ⟨k, op, res⟩ :: effects log :=
  rfl

@[simp]
theorem effects_ret {res : R} : effects (.ret k res :: log) = effects log := rfl

theorem mem_marksOf {m : Mark O R} : m ∈ marksOf k log ↔ m ∈ log ∧ m.call = k := by
  simp [marksOf]

theorem mem_effects {e : Effect O R} : e ∈ effects log ↔ .effect e.call e.op e.res ∈ log := by
  unfold effects
  rw [List.mem_filterMap]
  constructor
  . rintro ⟨m, hm, heq⟩
    cases m with
    | effect k op res =>
      injection heq with heq
      subst heq
      exact hm
    | _ => contradiction
  . intro h
    exact ⟨_, h, rfl⟩

theorem mem_history {e : Event O R} : e ∈ history log ↔ ∃ m ∈ log, m.event? = some e :=
  List.mem_filterMap

theorem legal_append {e : Effect O R} {order : List (Effect O R)}
    : Legal run s (order ++ [e]) ↔
        Legal run s order ∧ (run (final run s order) e.op).2 = e.res := by
  induction order generalizing s with
  | nil => simp [Legal, final]
  | cons first rest ih =>
    simp only [List.cons_append, Legal, ih, final, List.foldl_cons, and_assoc]

theorem Legal.result {e : Effect O R} {before after : List (Effect O R)} (h : Legal run s (before ++ e :: after))
    : (run (final run s before) e.op).2 = e.res := by
  induction before generalizing s with
  | nil => exact h.1
  | cons first rest ih => exact ih h.2

theorem final_append (e : Effect O R) (order : List (Effect O R))
    : final run s (order ++ [e]) = (run (final run s order) e.op).1 := by
  simp [final]

theorem WellMarked.before_ret {before after : List (Mark O R)} {res : R}
    (h : WellMarked (before ++ .ret k res :: after))
    : (∃ op, .effect k op res ∈ before) ∧ marksOf k after = [] := by
  obtain ⟨op, res', rest, hmarks⟩ := h k
  have hsplit : marksOf k (before ++ .ret k res :: after) =
      marksOf k before ++ .ret k res :: marksOf k after := by
    simp [marksOf, Mark.call]
  rw [hsplit, List.append_assoc, List.cons_append] at hmarks
  match hbefore : marksOf k before with
  | [] =>
    rw [hbefore] at hmarks
    simp at hmarks
  | [m] =>
    rw [hbefore] at hmarks
    simp at hmarks
  | [m, m'] =>
    rw [hbefore] at hmarks
    simp only [List.cons_append, List.nil_append, List.cons.injEq, Mark.ret.injEq, true_and,
      List.append_eq_nil_iff] at hmarks
    obtain ⟨rfl, rfl, rfl, hafter, _⟩ := hmarks
    refine ⟨⟨op, ?_⟩, hafter⟩
    have hmem : .effect k op res ∈ marksOf k before := by simp [hbefore]
    exact (mem_marksOf.mp hmem).1
  | m :: m' :: m'' :: marks =>
    rw [hbefore] at hmarks
    simp at hmarks

theorem WellMarked.before_invoke {before after : List (Mark O R)} {op : O}
    (h : WellMarked (before ++ .invoke k op :: after))
    : marksOf k before = [] := by
  obtain ⟨op', res, rest, hmarks⟩ := h k
  have hsplit : marksOf k (before ++ .invoke k op :: after) =
      marksOf k before ++ .invoke k op :: marksOf k after := by
    simp [marksOf, Mark.call]
  rw [hsplit, List.append_assoc, List.cons_append] at hmarks
  match hbefore : marksOf k before with
  | [] => rfl
  | [m] | [m, m'] | m :: m' :: m'' :: marks =>
    rw [hbefore] at hmarks
    simp at hmarks

theorem WellMarked.invoke_mem (h : WellMarked log) {op : O} {res : R} (hmem : .effect k op res ∈ log)
    : .invoke k op ∈ log := by
  obtain ⟨op', res', rest, hmarks⟩ := h k
  have hmem' : .effect k op res ∈ marksOf k log := mem_marksOf.mpr ⟨hmem, rfl⟩
  match hlog : marksOf k log with
  | [] =>
    rw [hlog] at hmem'
    contradiction
  | m :: marks =>
    rw [hlog] at hmarks hmem'
    have hall : .effect k op res ∈ m :: marks ++ rest := List.mem_append_left _ hmem'
    rw [hmarks] at hall
    obtain ⟨rfl, rfl⟩ : op = op' ∧ res = res' := by simpa using hall
    obtain ⟨rfl, _⟩ : m = .invoke k op ∧ _ := by simpa using hmarks
    exact (mem_marksOf.mp (hlog ▸ List.mem_cons_self ..)).1

theorem count_effects (k : Nat) (log : List (Mark O R))
    : ((effects log).map Effect.call).count k = (effects (marksOf k log)).length := by
  induction log with
  | nil => rfl
  | cons m log ih =>
    rw [marksOf_cons]
    cases m with
    | invoke k' | ret k' =>
      by_cases h : k' = k <;> simp [Mark.call, h, ih]
    | effect k' =>
      by_cases h : k' = k <;> simp [Mark.call, h, ih]

theorem WellMarked.nodup (h : WellMarked log) : ((effects log).map Effect.call).Nodup := by
  rw [List.nodup_iff_count_le_one]
  intro k
  obtain ⟨op, res, hmarks⟩ := h k
  rw [count_effects]
  exact (hmarks.filterMap Mark.effect?).length_le

theorem linearization (h : WellMarked log) (hlegal : Legal run s (effects log))
    : Linearization run s (history log) (effects log) where
  nodup := h.nodup
  invoked e he := mem_history.mpr ⟨_, h.invoke_mem (mem_effects.mp he), rfl⟩
  returned := by
    intro k res hret
    obtain ⟨m, hm, heq⟩ := mem_history.mp hret
    cases m with
    | ret k' res' =>
      obtain ⟨rfl, rfl⟩ : k' = k ∧ res' = res := by simpa [Mark.event?] using heq
      obtain ⟨before, after, rfl⟩ := List.append_of_mem hm
      obtain ⟨⟨op, heffect⟩, _⟩ := h.before_ret
      exact ⟨⟨k', op, res'⟩, mem_effects.mpr (List.mem_append_left _ heffect), rfl, rfl⟩
    | invoke | effect => simp [Mark.event?] at heq
  legal := hlegal
  realTime := by
    rintro k k' ⟨_, res, events, op, hhistory, hinvoke⟩ hk'
    -- the log is split at the return of `k`, and then at the invocation of `k'`
    obtain ⟨log₁, log₂, rfl, _, hlog₂⟩ := List.filterMap_eq_append_iff.mp hhistory
    obtain ⟨silent, m, log₃, rfl, _, hm, rfl⟩ := List.filterMap_eq_cons_iff.mp hlog₂
    obtain rfl : m = .ret k res := by cases m <;> simp_all [Mark.event?]
    rw [← List.append_assoc] at h hk' ⊢
    obtain ⟨⟨op₀, heffect⟩, _⟩ := h.before_ret
    have hk : k ∈ (effects (log₁ ++ silent)).map Effect.call :=
      List.mem_map.mpr ⟨⟨k, op₀, res⟩, mem_effects.mpr heffect, rfl⟩
    -- `k'` is invoked after that, so it also takes effect after that
    have hafter : k' ∈ (effects (.ret k res :: log₃)).map Effect.call := by
      obtain ⟨m, hm, heq⟩ := mem_history.mp hinvoke
      obtain rfl : m = .invoke k' op := by cases m <;> simp_all [Mark.event?]
      obtain ⟨log₄, log₅, rfl⟩ := List.append_of_mem hm
      rw [← List.cons_append, ← List.append_assoc] at h
      have hnone := h.before_invoke
      rw [effects_append, List.map_append, List.mem_append] at hk'
      refine hk'.resolve_left ?_
      intro hmem
      obtain ⟨e, he, rfl⟩ := List.mem_map.mp hmem
      have hmark : .effect e.call e.op e.res ∈ marksOf e.call (log₁ ++ silent ++ .ret k res :: log₄) :=
        mem_marksOf.mpr ⟨List.mem_append_left _ (mem_effects.mp he), rfl⟩
      rw [hnone] at hmark
      contradiction
    rw [effects_append, List.map_append]
    exact (List.singleton_sublist.mpr hk).append (List.singleton_sublist.mpr hafter)

/-! ### Threads that are in a call

`holds t (k, marks)` says that thread `t` is in call `k`, which has the given marks so far. The calls
are numbered in the order of their invocation. -/

structure InProgress (log : List (Mark O R)) (calls : Nat) (holds : Nat → Nat × List (Mark O R) → Prop)
    : Prop where
  fresh : ∀ k, calls ≤ k → marksOf k log = []
  marked : ∀ k, k < calls →
    ∃ op res, marksOf k log <+: [.invoke k op, .effect k op res, .ret k res]
  mark : ∀ t k marks, holds t (k, marks) → k < calls ∧ marksOf k log = marks
  unique : ∀ t t' k marks marks', holds t (k, marks) → holds t' (k, marks') → t = t'

namespace InProgress

variable {calls : Nat} {holds holds' : Nat → Nat × List (Mark O R) → Prop} {t : Nat}

theorem mono (h : InProgress log calls holds) (hle : ∀ t x, holds' t x → holds t x)
    : InProgress log calls holds' where
  fresh := h.fresh
  marked := h.marked
  mark t k marks hx := h.mark t k marks (hle _ _ hx)
  unique t t' k marks marks' hx hx' := h.unique t t' k marks marks' (hle _ _ hx) (hle _ _ hx')

theorem wellMarked [Nonempty O] [Nonempty R] (h : InProgress log calls holds) : WellMarked log := by
  intro k
  by_cases hk : k < calls
  . exact h.marked k hk
  . obtain ⟨op⟩ := ‹Nonempty O›
    obtain ⟨res⟩ := ‹Nonempty R›
    refine ⟨op, res, ?_⟩
    rw [h.fresh k (Nat.le_of_not_lt hk)]
    exact List.nil_prefix

theorem marksOf_append_of_ne {m : Mark O R} (hne : m.call ≠ k)
    : marksOf k (log ++ [m]) = marksOf k log := by
  simp [hne, marksOf]

theorem marksOf_append_self (log : List (Mark O R)) (m : Mark O R)
    : marksOf m.call (log ++ [m]) = marksOf m.call log ++ [m] := by
  simp [marksOf]

theorem invoke (h : InProgress log calls holds) {op : O}
    (hholds : ∀ t' x, holds' t' x → (t' = t ∧ x = (calls, [.invoke calls op])) ∨ holds t' x)
    [Nonempty R]
    : InProgress (log ++ [.invoke calls op]) (calls + 1) holds' := by
  have hself : marksOf calls (log ++ [.invoke calls op]) = [.invoke calls op] := by
    have := marksOf_append_self log (Mark.invoke (R := R) calls op)
    rwa [show (Mark.invoke (R := R) calls op).call = calls from rfl, h.fresh calls (Nat.le_refl _)] at this
  have hother : ∀ k, k ≠ calls → marksOf k (log ++ [.invoke calls op]) = marksOf k log :=
    fun k hne => marksOf_append_of_ne (Ne.symm hne)
  constructor
  . intro k hk
    rw [hother k (by omega)]
    exact h.fresh k (by omega)
  . intro k hk
    by_cases hc : k = calls
    . subst hc
      obtain ⟨res⟩ := ‹Nonempty R›
      rw [hself]
      exact ⟨op, res, by simp⟩
    . rw [hother k hc]
      exact h.marked k (by omega)
  . intro t' k marks hx
    obtain ⟨_, heq⟩ | hold := hholds t' _ hx
    . injection heq with hk hmarks
      subst hk hmarks
      exact ⟨Nat.lt_succ_self _, hself⟩
    . obtain ⟨hlt, hmarks⟩ := h.mark t' k marks hold
      rw [hother k (by omega)]
      exact ⟨by omega, hmarks⟩
  . intro t₁ t₂ k marks marks' hx hx'
    obtain ⟨rfl, heq⟩ | hold := hholds t₁ _ hx <;> obtain ⟨rfl, heq'⟩ | hold' := hholds t₂ _ hx'
    . rfl
    . injection heq with hk
      have := (h.mark t₂ k marks' hold').1
      omega
    . injection heq' with hk
      have := (h.mark t₁ k marks hold).1
      omega
    . exact h.unique t₁ t₂ k marks marks' hold hold'

theorem append (h : InProgress log calls holds) {m : Mark O R} (marks : List (Mark O R))
    (hself : holds t (m.call, marks))
    (hseq : ∃ op res, marks ++ [m] <+: [.invoke m.call op, .effect m.call op res, .ret m.call res])
    (hholds : ∀ t' x, holds' t' x → (t' = t ∧ x = (m.call, marks ++ [m])) ∨ (t' ≠ t ∧ holds t' x))
    : InProgress (log ++ [m]) calls holds' := by
  obtain ⟨hlt, hmarks⟩ := h.mark t _ _ hself
  have hself' : marksOf m.call (log ++ [m]) = marks ++ [m] := by
    rw [marksOf_append_self, hmarks]
  constructor
  . intro k hk
    rw [marksOf_append_of_ne (by omega)]
    exact h.fresh k hk
  . intro k hk
    by_cases hc : m.call = k
    . subst hc
      rw [hself']
      exact hseq
    . rw [marksOf_append_of_ne hc]
      exact h.marked k hk
  . intro t' k marks' hx
    obtain ⟨_, heq⟩ | ⟨hne, hold⟩ := hholds t' _ hx
    . injection heq with hk hmarks'
      subst hk hmarks'
      exact ⟨hlt, hself'⟩
    . rw [marksOf_append_of_ne]
      . exact h.mark t' k marks' hold
      . intro hc
        subst hc
        exact hne (h.unique t' t _ _ _ hold hself)
  . intro t₁ t₂ k marks₁ marks₂ hx hx'
    obtain ⟨rfl, heq⟩ | ⟨hne, hold⟩ := hholds t₁ _ hx <;>
      obtain ⟨rfl, heq'⟩ | ⟨hne', hold'⟩ := hholds t₂ _ hx'
    . rfl
    . injection heq with hk
      subst hk
      exact absurd (h.unique t₂ t₁ _ _ _ hold' hself) hne'
    . injection heq' with hk
      subst hk
      exact absurd (h.unique t₁ t₂ _ _ _ hold hself) hne
    . exact h.unique t₁ t₂ k marks₁ marks₂ hold hold'

end InProgress

end

end Linearize
