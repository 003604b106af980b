import Mathlib.Algebra.BigOperators.Group.Finset.Piecewise
import Mathlib.Algebra.Order.BigOperators.Group.Finset
import Mathlib.Algebra.Order.BigOperators.Group.List
import Nachos.Synch.Client

/-!
This module contains what is left of a run if locks and semaphores do not block: every thread may run
its code up to the next kernel call at any time. What holds for all these runs, holds because the
code between two kernel calls is atomic. `System.Reachable.control` says that every run of the kernel
is such a run.
-/

namespace Nachos

open Function (update)

structure Control (G U : Type) where
  numThreads : Nat
  codes : Nat → List U
  shared : G

def Call.codes (call : Call U H) (u : U) : List U :=
  match call with
  | .fork func => [func, u]
  | .ret => []
  | _ => [u]

namespace Control

variable (c : Control G U)

/--
Where the thread is in its code, or will be after the call that it is in.
-/
def label (t : Nat) : Option U :=
  (c.codes t).getLast?

def sum (f : List U → Nat) : Nat :=
  ∑ t ∈ Finset.range c.numThreads, f (c.codes t)

inductive Step (prog : Program G U H) (c : Control G U) : Control G U → Prop where
  | user (t : Nat) (u : U) (ht : t < c.numThreads) (hcodes : c.codes t = [u])
    : Step prog c
        { c with
          codes := update c.codes t ((prog.code u c.shared).2.1.codes (prog.code u c.shared).2.2)
          shared := (prog.code u c.shared).1 }
  | fork (t : Nat) (func u : U) (ht : t < c.numThreads) (hcodes : c.codes t = [func, u])
    : Step prog c
        { c with
          numThreads := c.numThreads + 1
          codes := update (update c.codes c.numThreads [func]) t [u] }
  | interrupt (handler : H)
    : Step prog c { c with shared := (prog.handler handler c.shared).1 }

variable {c} {t : Nat}

theorem add_sum_erase (f : List U → Nat) (ht : t < c.numThreads)
    : f (c.codes t) + ∑ i ∈ (Finset.range c.numThreads).erase t, f (c.codes i) = c.sum f :=
  Finset.add_sum_erase _ (fun i => f (c.codes i)) (Finset.mem_range.mpr ht)

theorem sum_update (f : List U → Nat) (ht : t < c.numThreads) (codes : List U) (g : G)
    : (Control.mk c.numThreads (update c.codes t codes) g).sum f + f (c.codes t) =
        c.sum f + f codes := by
  have hbefore := add_sum_erase f ht
  have hafter := add_sum_erase (c := ⟨c.numThreads, update c.codes t codes, g⟩) f ht
  have hothers : ∑ i ∈ (Finset.range c.numThreads).erase t, f (update c.codes t codes i) =
      ∑ i ∈ (Finset.range c.numThreads).erase t, f (c.codes i) := by
    apply Finset.sum_congr rfl
    intro i hi
    rw [Function.update_of_ne (Finset.ne_of_mem_erase hi)]
  simp only [Function.update_self] at hafter
  omega

theorem sum_fork (f : List U → Nat) (ht : t < c.numThreads) (func : U) (codes : List U) (g : G)
    : (Control.mk (c.numThreads + 1) (update (update c.codes c.numThreads [func]) t codes) g).sum f +
        f (c.codes t) = c.sum f + f codes + f [func] := by
  have hupdate := sum_update f ht codes g
  have hnew : (Control.mk (c.numThreads + 1) (update (update c.codes c.numThreads [func]) t codes) g).sum
      f = (Control.mk c.numThreads (update c.codes t codes) g).sum f + f [func] := by
    unfold sum
    rw [Finset.sum_range_succ]
    congr 1
    . apply Finset.sum_congr rfl
      intro i hi
      have hne : i ≠ c.numThreads := Nat.ne_of_lt (Finset.mem_range.mp hi)
      by_cases hi' : i = t <;> simp [hi', hne]
    . have hne : c.numThreads ≠ t := Nat.ne_of_gt ht
      simp [hne]
  omega

theorem mem_fork (ht : t < c.numThreads) {func u : U} (hcodes : c.codes t = [func, u]) {t' : Nat}
    (ht' : t' < c.numThreads + 1) {v : U}
    (hmem : v ∈ update (update c.codes c.numThreads [func]) t [u] t')
    : ∃ t₀, t₀ < c.numThreads ∧ v ∈ c.codes t₀ ∧
        (update (update c.codes c.numThreads [func]) t [u] t' = [v] ∨
          update (update c.codes c.numThreads [func]) t [u] t' = c.codes t₀) := by
  by_cases hne : t' = t
  . subst hne
    rw [Function.update_self] at hmem ⊢
    obtain rfl : v = u := by simpa using hmem
    exact ⟨t', ht, by simp [hcodes], .inl rfl⟩
  . rw [Function.update_of_ne hne] at hmem ⊢
    by_cases hnew : t' = c.numThreads
    . subst hnew
      rw [Function.update_self] at hmem ⊢
      obtain rfl : v = func := by simpa using hmem
      exact ⟨t, ht, by simp [hcodes], .inl rfl⟩
    . rw [Function.update_of_ne hnew] at hmem ⊢
      exact ⟨t', by omega, hmem, .inr rfl⟩

theorem label_update {call : Call U H} {u v : U} {g : G} {t' : Nat}
    (h : (Control.mk c.numThreads (update c.codes t (call.codes u)) g).label t' = some v)
    : (t' = t ∧ v = u) ∨ (t' ≠ t ∧ c.label t' = some v) := by
  change (update c.codes t (call.codes u) t').getLast? = some v at h
  by_cases hne : t' = t
  . subst hne
    rw [Function.update_self] at h
    refine .inl ⟨rfl, ?_⟩
    cases call <;> simp_all [Call.codes]
  . rw [Function.update_of_ne hne] at h
    exact .inr ⟨hne, h⟩

theorem label_fork {func u v : U} {g : G} {t' : Nat} (ht : t < c.numThreads)
    (hcodes : c.codes t = [func, u]) (ht' : t' < c.numThreads + 1)
    (h : (Control.mk (c.numThreads + 1) (update (update c.codes c.numThreads [func]) t [u]) g).label t' =
      some v)
    : (t' < c.numThreads ∧ c.label t' = some v) ∨ (t' = c.numThreads ∧ v = func) := by
  change (update (update c.codes c.numThreads [func]) t [u] t').getLast? = some v at h
  unfold label
  by_cases hne : t' = t
  . subst hne
    rw [Function.update_self] at h
    rw [hcodes]
    exact .inl ⟨ht, h⟩
  . rw [Function.update_of_ne hne] at h
    by_cases hnew : t' = c.numThreads
    . subst hnew
      rw [Function.update_self] at h
      exact .inr ⟨rfl, by simpa using h.symm⟩
    . rw [Function.update_of_ne hnew] at h
      exact .inl ⟨by omega, h⟩

theorem sum_add_le {f w : List U → Nat} (hle : ∀ codes, f codes ≤ w codes) (ht : t < c.numThreads)
    : c.sum f + w (c.codes t) ≤ c.sum w + f (c.codes t) := by
  have h := add_sum_erase f ht
  have h' := add_sum_erase w ht
  have hothers : ∑ i ∈ (Finset.range c.numThreads).erase t, f (c.codes i) ≤
      ∑ i ∈ (Finset.range c.numThreads).erase t, w (c.codes i) :=
    Finset.sum_le_sum fun i _ => hle (c.codes i)
  omega

def num (c : Control G U) (P : U → Bool) : Nat :=
  Nat.count (fun t => (c.label t).any P) c.numThreads

def lastIs (P : U → Bool) (codes : List U) : Nat :=
  (codes.getLast?.any P).toNat

@[simp]
theorem lastIs_nil (P : U → Bool) : lastIs P [] = 0 := rfl

@[simp]
theorem lastIs_singleton (P : U → Bool) (u : U) : lastIs P [u] = (P u).toNat := rfl

@[simp]
theorem lastIs_pair (P : U → Bool) (func u : U) : lastIs P [func, u] = (P u).toNat := rfl

theorem num_eq_sum (P : U → Bool) : c.num P = c.sum (lastIs P) := by
  unfold num sum lastIs label
  rw [Nat.count_eq_card_filter_range, Finset.card_filter]
  apply Finset.sum_congr rfl
  intro t _
  cases (c.codes t).getLast?.any P <;> rfl

theorem num_update (P : U → Bool) (ht : t < c.numThreads) (codes : List U) (g : G)
    : (Control.mk c.numThreads (update c.codes t codes) g).num P + lastIs P (c.codes t) =
        c.num P + lastIs P codes := by
  rw [num_eq_sum, num_eq_sum]
  exact sum_update _ ht codes g

theorem num_fork (P : U → Bool) (ht : t < c.numThreads) {func u : U} (hcodes : c.codes t = [func, u])
    (g : G)
    : (Control.mk (c.numThreads + 1) (update (update c.codes c.numThreads [func]) t [u]) g).num P =
        c.num P + (P func).toNat := by
  rw [num_eq_sum, num_eq_sum]
  have := sum_fork (lastIs P) ht func [u] g
  simp only [hcodes, lastIs_singleton, lastIs_pair] at this
  omega

theorem num_eq_zero {P : U → Bool}
    (h : ∀ t, t < c.numThreads → ∀ u, c.label t = some u → P u = false)
    : c.num P = 0 := by
  by_contra hne
  obtain ⟨t, ht, hP⟩ := Nat.count_ne_iff_exists.mp hne
  cases hlabel : c.label t with
  | none => simp [hlabel] at hP
  | some u => simp [hlabel, h t ht u hlabel] at hP

theorem num_mono {P Q : U → Bool} (h : ∀ u, P u = true → Q u = true) : c.num P ≤ c.num Q := by
  apply Nat.count_mono_left
  intro t _ hP
  cases hlabel : c.label t with
  | none => simp [hlabel] at hP
  | some u =>
    simp only [hlabel, Option.any_some] at hP ⊢
    exact h u hP

theorem num_eq_sum_num {P : U → Bool} {Q : Nat → U → Bool} {F : Finset Nat}
    (h : ∀ t, t < c.numThreads → ∀ u, c.label t = some u → (P u).toNat = ∑ f ∈ F, (Q f u).toNat)
    : c.num P = ∑ f ∈ F, c.num (Q f) := by
  simp only [num_eq_sum, sum]
  rw [Finset.sum_comm]
  apply Finset.sum_congr rfl
  intro t ht
  unfold lastIs
  cases hlabel : (c.codes t).getLast? with
  | none => simp
  | some u => exact h t (Finset.mem_range.mp ht) u hlabel

theorem lastIs_le_one (P : U → Bool) (codes : List U) : lastIs P codes ≤ 1 :=
  Bool.toNat_le _

theorem lastIs_le {P : U → Bool} {w : U → Nat} (h : ∀ u, P u = true → 1 ≤ w u) (codes : List U)
    : lastIs P codes ≤ (codes.map w).sum := by
  unfold lastIs
  cases hlast : codes.getLast? with
  | none => exact Nat.zero_le _
  | some u =>
    have hle := List.le_sum_of_mem (List.mem_map_of_mem (f := w) (List.mem_of_getLast? hlast))
    cases hP : P u with
    | false => simp [hP]
    | true =>
      have := h u hP
      simp only [Option.any_some, hP, Bool.toNat_true]
      omega

theorem le_sum (f : List U → Nat) (ht : t < c.numThreads) : f (c.codes t) ≤ c.sum f := by
  have := add_sum_erase f ht
  omega

def Carries (c : Control G U) (carry : U → Option β) (x : β) : Prop :=
  ∃ t, t < c.numThreads ∧ ∃ u, c.label t = some u ∧ carry u = some x

theorem label_of_codes {u : U} (hcodes : c.codes t = [u]) : c.label t = some u := by
  simp [label, hcodes]

theorem carries_of_update {carry : U → Option β} {call : Call U H} {u : U} {g : G} {x : β}
    (h : (Control.mk c.numThreads (update c.codes t (call.codes u)) g).Carries carry x)
    : carry u = some x ∨
      ∃ t', t' < c.numThreads ∧ t' ≠ t ∧ ∃ v, c.label t' = some v ∧ carry v = some x := by
  obtain ⟨t', ht', v, hlabel, hv⟩ := h
  obtain ⟨rfl, rfl⟩ | ⟨hne, hold⟩ := label_update hlabel
  . exact .inl hv
  . exact .inr ⟨t', ht', hne, v, hold, hv⟩

theorem carries_update {carry : U → Option β} {call : Call U H} {u u' : U} {g : G} {x : β}
    (hcodes : c.codes t = [u]) (hu : carry u = none) (hu' : carry u' = none)
    : (Control.mk c.numThreads (update c.codes t (call.codes u')) g).Carries carry x ↔
        c.Carries carry x := by
  constructor
  . intro h
    obtain hx | ⟨t', ht', _, v, hlabel, hv⟩ := carries_of_update h
    . rw [hu'] at hx
      contradiction
    . exact ⟨t', ht', v, hlabel, hv⟩
  . rintro ⟨t', ht', v, hlabel, hv⟩
    refine ⟨t', ht', v, ?_, hv⟩
    have hne : t' ≠ t := by
      rintro rfl
      rw [label_of_codes hcodes] at hlabel
      injection hlabel with hlabel
      rw [← hlabel, hu] at hv
      contradiction
    change (update c.codes t (call.codes u') t').getLast? = some v
    rwa [Function.update_of_ne hne]

theorem carries_fork {carry : U → Option β} {func u : U} {g : G} {x : β} (ht : t < c.numThreads)
    (hcodes : c.codes t = [func, u]) (hfunc : carry func = none)
    : (Control.mk (c.numThreads + 1) (update (update c.codes c.numThreads [func]) t [u]) g).Carries
        carry x ↔ c.Carries carry x := by
  constructor
  . rintro ⟨t', ht', v, hlabel, hv⟩
    obtain ⟨hlt, hold⟩ | ⟨_, rfl⟩ := label_fork ht hcodes ht' hlabel
    . exact ⟨t', hlt, v, hold, hv⟩
    . rw [hfunc] at hv
      contradiction
  . rintro ⟨t', ht', v, hlabel, hv⟩
    refine ⟨t', Nat.lt_succ_of_lt ht', v, ?_, hv⟩
    change (update (update c.codes c.numThreads [func]) t [u] t').getLast? = some v
    by_cases hne : t' = t
    . subst hne
      rw [label, hcodes] at hlabel
      rwa [Function.update_self]
    . rwa [Function.update_of_ne hne, Function.update_of_ne (Nat.ne_of_lt ht')]

end Control

def System.controlBoot (sys : System G U H) : Control G U where
  numThreads := 1
  codes := update (fun _ => []) 0 [sys.main]
  shared := sys.globals

def System.ControlReachable (sys : System G U H) (c : Control G U) : Prop :=
  Transition.Reachable (· = sys.controlBoot) (Control.Step sys.toProgram) c

theorem System.ControlReachable.forker {sys : System G U H} {c : Control G U} (h : sys.ControlReachable c)
    : ∀ t, t < c.numThreads → ∀ func u, c.codes t = [func, u] →
        ∃ c₀, sys.ControlReachable c₀ ∧ ∃ t₀ < c₀.numThreads, ∃ u₀, c₀.codes t₀ = [u₀] ∧
          (sys.code u₀ c₀.shared).2 = (.fork func, u) := by
  refine Transition.Reachable.invariant (P := fun c : Control G U => ∀ t, t < c.numThreads → ∀ func u,
    c.codes t = [func, u] → ∃ c₀, sys.ControlReachable c₀ ∧ ∃ t₀ < c₀.numThreads, ∃ u₀,
      c₀.codes t₀ = [u₀] ∧ (sys.code u₀ c₀.shared).2 = (.fork func, u)) ?_ ?_ h
  . rintro c rfl t ht func u hcodes
    obtain rfl : t = 0 := by simpa [System.controlBoot] using ht
    simp [System.controlBoot] at hcodes
  . intro c c' hreach hforked hstep t ht func u hcodes
    cases hstep with
    | interrupt => exact hforked t ht func u hcodes
    | user t₀ u₀ ht₀ hcodes₀ =>
      change update c.codes t₀ _ t = _ at hcodes
      by_cases hne : t = t₀
      . subst hne
        rw [Function.update_self] at hcodes
        refine ⟨c, hreach, t, ht₀, u₀, hcodes₀, ?_⟩
        generalize (sys.code u₀ c.shared).2 = res at hcodes ⊢
        obtain ⟨call, u'⟩ := res
        cases call <;> simp_all [Call.codes]
      . rw [Function.update_of_ne hne] at hcodes
        exact hforked t ht func u hcodes
    | fork t₀ func₀ u₀ ht₀ hcodes₀ =>
      change update (update c.codes c.numThreads [func₀]) t₀ [u₀] t = _ at hcodes
      by_cases hne : t = t₀
      . subst hne
        simp at hcodes
      . rw [Function.update_of_ne hne] at hcodes
        by_cases hnew : t = c.numThreads
        . subst hnew
          simp at hcodes
        . rw [Function.update_of_ne hnew] at hcodes
          have : t < c.numThreads + 1 := ht
          exact hforked t (by omega) func u hcodes

theorem System.ControlReachable.forked {sys : System G U H} {c : Control G U} (h : sys.ControlReachable c)
    {t : Nat} (ht : t < c.numThreads) {func u : U} (hcodes : c.codes t = [func, u])
    : ∃ u₀ g, (sys.code u₀ g).2 = (.fork func, u) := by
  obtain ⟨c₀, _, _, _, u₀, _, hcode⟩ := h.forker t ht func u hcodes
  exact ⟨u₀, c₀.shared, hcode⟩

def Point.code? : Point U → Option U
  | .threadRoot func => some func
  | .user u => some u
  | .fork func => some func
  | _ => none

def Client.control (a : Client G U) : Control G U where
  numThreads := a.numThreads
  codes t := (a.points t).filterMap Point.code?
  shared := a.shared

theorem Call.codes_points (call : Call U H) (u : U)
    : (call.points u).filterMap Point.code? = call.codes u := by
  cases call <;> rfl

section Simulation

variable {prog : Program G U H} {a a' : Client G U} {t : Nat} {point : Point U}
  {points rest : List (Point U)}

theorem Client.control_setPoints (a : Client G U) (t : Nat) (points : List (Point U))
    : (a.setPoints t points).control =
        { a.control with codes := update a.control.codes t (points.filterMap Point.code?) } := by
  unfold Client.control
  rw [Control.mk.injEq]
  refine ⟨rfl, ?_, rfl⟩
  funext t'
  by_cases ht : t' = t <;> simp [ht]

theorem Client.control_silent (hpoints : a.points t = point :: rest)
    (hcodes : points.filterMap Point.code? = [point].filterMap Point.code?)
    (hcontrol : a'.control = a.control)
    : (a'.setPoints t (points ++ rest)).control = a.control := by
  rw [Client.control_setPoints, hcontrol]
  have hsame : (points ++ rest).filterMap Point.code? = a.control.codes t := by
    change _ = (a.points t).filterMap Point.code?
    rw [hpoints, List.filterMap_append, hcodes, ← List.filterMap_append, List.singleton_append]
  rw [hsame, Function.update_eq_self]

theorem Client.Act.control_cases (hact : Client.Act prog a t point points a')
    (hpoints : a.points t = point :: rest) (hshape : Shape (point :: rest))
    : (a'.setPoints t (points ++ rest)).control = a.control ∨
      (∃ u, a.points t = [.user u, .finish] ∧
        (a'.setPoints t (points ++ rest)).control = { a.control with
          codes := update a.control.codes t
            ((prog.code u a.shared).2.1.codes (prog.code u a.shared).2.2)
          shared := (prog.code u a.shared).1 }) ∨
      ∃ func u, a.control.codes t = [func, u] ∧
        (a'.setPoints t (points ++ rest)).control = { a.control with
          numThreads := a.numThreads + 1
          codes := update (update a.control.codes a.numThreads [func]) t [u] } := by
  cases hact with
  | user u =>
    right; left
    obtain rfl : rest = [.finish] := by
      cases hshape with
      | user => rfl
      | call _ _ hcall => exact hcall.elim
    refine ⟨u, hpoints, ?_⟩
    have hfinish : [Point.finish].filterMap (Point.code? (U := U)) = [] := rfl
    rw [Client.control_setPoints, List.filterMap_append, Call.codes_points, hfinish, List.append_nil]
    rfl
  | fork func =>
    right; right
    cases hshape with
    | call _ u _ =>
      refine ⟨func, u, by simp [Client.control, hpoints, Point.code?], ?_⟩
      rw [Client.control_setPoints, Control.mk.injEq]
      refine ⟨rfl, ?_, rfl⟩
      congr 1
      funext t'
      by_cases ht' : t' = a.numThreads <;> simp [Client.control, ht', Point.code?]
  | _ => exact .inl (Client.control_silent hpoints rfl rfl)

theorem Client.Step.control_cases (hstep : Client.Step prog a a')
    (hshape : ∀ t, t < a.numThreads → Shape (a.points t))
    : a'.control = a.control ∨
      (∃ handler, a'.control = { a.control with shared := (prog.handler handler a.shared).1 }) ∨
      (∃ t u, t < a.numThreads ∧ a.points t = [.user u, .finish] ∧
        a'.control = { a.control with
          codes := update a.control.codes t
            ((prog.code u a.shared).2.1.codes (prog.code u a.shared).2.2)
          shared := (prog.code u a.shared).1 }) ∨
      ∃ t func u, t < a.numThreads ∧ a.control.codes t = [func, u] ∧
        a'.control = { a.control with
          numThreads := a.numThreads + 1
          codes := update (update a.control.codes a.numThreads [func]) t [u] } := by
  cases hstep with
  | interrupt handler => exact .inr (.inl ⟨handler, rfl⟩)
  | interruptV => exact .inl rfl
  | thread t point points rest a' ht hawake hpoints hact =>
    have hs := hshape t ht
    rw [hpoints] at hs
    obtain heq | ⟨u, hpoints', heq⟩ | ⟨func, u, hcodes, heq⟩ := hact.control_cases hpoints hs
    . exact .inl heq
    . exact .inr (.inr (.inl ⟨t, u, ht, hpoints', heq⟩))
    . exact .inr (.inr (.inr ⟨t, func, u, ht, hcodes, heq⟩))

theorem Client.Step.control (hstep : Client.Step prog a a')
    (hshape : ∀ t, t < a.numThreads → Shape (a.points t))
    : a'.control = a.control ∨ Control.Step prog a.control a'.control := by
  obtain heq | ⟨handler, heq⟩ | ⟨t, u, ht, hpoints, heq⟩ | ⟨t, func, u, ht, hcodes, heq⟩ :=
    hstep.control_cases hshape
  . exact .inl heq
  . rw [heq]
    exact .inr (.interrupt handler)
  . rw [heq]
    exact .inr (.user (c := a.control) t u ht (by simp [Client.control, hpoints, Point.code?]))
  . rw [heq]
    exact .inr (.fork (c := a.control) t func u ht hcodes)

theorem System.clientBoot_control (sys : System G U H) : sys.clientBoot.control = sys.controlBoot := by
  unfold Client.control System.clientBoot System.controlBoot
  rw [Control.mk.injEq]
  refine ⟨rfl, ?_, rfl⟩
  funext t
  by_cases ht : t = 0
  . subst ht
    rfl
  . simp [ht]

theorem System.ClientReachable.control {sys : System G U H} (h : sys.ClientReachable a)
    : sys.ControlReachable a.control := by
  refine Transition.Reachable.simulation ?_ (fun a a' hreach hstep => hstep.control (shape hreach)) h
  rintro a rfl
  exact sys.clientBoot_control

end Simulation

def State.control (s : State G U H) : Control G U :=
  s.client.control

theorem System.Boot.control {sys : System G U H} {s : State G U H} (h : sys.Boot s)
    : s.control = sys.controlBoot := by
  unfold State.control
  rw [System.Boot.client h, System.clientBoot_control]

theorem System.Reachable.control {sys : System G U H} {s : State G U H} (h : sys.Reachable s)
    : sys.ControlReachable s.control :=
  h.client.control

theorem System.Reachable.codes_of_user {sys : System G U H} {s : State G U H} (h : sys.Reachable s) {u : U}
    {rest : List (Frame U H)} (hstack : s.stack s.currentThread = .user u :: rest)
    : s.control.codes s.currentThread = [u] := by
  have hshape := h.client.shape s.currentThread h.inv.placed.current_lt
  have hpoints : s.client.points s.currentThread = .user u :: rest.filterMap Frame.point? := by
    simp [State.client, hstack, Frame.point?]
  change (s.client.points s.currentThread).filterMap Point.code? = [u]
  rw [hpoints] at hshape ⊢
  generalize rest.filterMap Frame.point? = points at hshape ⊢
  cases hshape with
  | user => rfl
  | call _ _ hcall => exact hcall.elim

theorem System.Reachable.control_step {sys : System G U H} {s s' : State G U H}
    (h : sys.Reachable s) (hstep : Step sys.toProgram s s')
    : s'.control = s.control ∨ Control.Step sys.toProgram s.control s'.control := by
  cases h.client_step hstep with
  | inl heq => exact .inl (by unfold State.control; rw [heq])
  | inr hclient => exact hclient.control h.client.shape

end Nachos
