import Nachos.Synch.Semaphore
import Nachos.Synch.Units

/-!
This module contains the use of a semaphore for mutual exclusion: it starts with one unit, and every
thread calls `P` before it enters its critical section and `V` when it leaves it.
-/

namespace Nachos

def Call.Guards (n : Nat) (inside : U → Bool) (before : Bool) (call : Call U H) (u : U) : Prop :=
  match call with
  | .p n' => before = false ∧ inside u = decide (n' = n)
  | .v n' => before = decide (n' = n) ∧ inside u = false
  | .fork func => inside func = false ∧ before = false ∧ inside u = false
  | .yield | .setLevel _ | .schedule .. => inside u = before
  | _ => before = false ∧ inside u = false

structure Mutex (sys : System G U H) (n : Nat) where
  inside : U → Bool
  main : inside sys.main = false
  value : sys.value n = 1
  code : ∀ u g, (sys.code u g).2.1.Guards n inside (inside u) (sys.code u g).2.2
  posts : ∀ handler g, .v n ∉ (sys.handler handler g).2

namespace Mutex

variable {sys : System G U H} {n : Nat} (d : Mutex sys n)

def busy (points : List (Point U)) : Bool :=
  (running points).any d.inside || giving n points

variable {d} {call : Call U H} {u : U} {a a' : Client G U} {t : Nat} {point : Point U}
  {points rest : List (Point U)}

theorem guards (h : sys.Calls call u) : ∃ before, call.Guards n d.inside before u := by
  obtain ⟨u₀, g, hcode⟩ := h
  have := d.code u₀ g
  rw [hcode] at this
  exact ⟨d.inside u₀, this⟩

theorem not_inside_of_enters (h : sys.Enters n u) : d.inside u = false := by
  cases h with
  | call call hcall hreturns hne =>
    obtain ⟨before, hguards⟩ := d.guards hcall
    cases call with
    | yield | setLevel | schedule | finish | ret => contradiction
    | p n' => simpa [show n' ≠ n by simpa using hne] using hguards.2
    | fork func => exact hguards.2.2
    | _ => exact hguards.2
  | fork next hcall =>
    obtain ⟨before, hguards⟩ := d.guards hcall
    exact hguards.1

theorem busy_call {before : Bool} (h : call.Guards n d.inside before u)
    : d.busy (call.points u ++ [.finish]) = before := by
  rw [busy, running_points, giving_points]
  cases call with
  | yield | setLevel | schedule => simpa [Call.isSilent, Call.isV, Call.Guards] using h
  | v n' => simpa [Call.isSilent, Call.isV] using h.1.symm
  | fork func => simpa [Call.isSilent, Call.isV] using h.2.1
  | _ => simpa [Call.isSilent, Call.isV] using h.1

theorem balance_act (hact : Client.Act sys.toProgram a t point points a')
    (hruns : Runs sys (point :: rest))
    : (a'.sem (.sem n)).value + (d.busy (points ++ rest)).toNat =
        (a.sem (.sem n)).value + (d.busy (point :: rest)).toNat := by
  have hunits := hact.units (n := n) hruns
  generalize point :: rest = before at hunits ⊢
  generalize points ++ rest = after at hunits ⊢
  cases hunits with
  | call u _ hvalue =>
    rw [busy_call (d.code u a.shared), hvalue]
    simp [busy]
  | take _ u _ hcall hrunning _ hgiving hvalue =>
    obtain ⟨before, _, hinside⟩ := d.guards hcall
    simp [busy, hrunning, hgiving, hinside, hvalue]
  | give _ u _ hcall hrunning hgiving hvalue =>
    obtain ⟨before, _, hinside⟩ := d.guards hcall
    simp [busy, hrunning, hgiving, hinside, hvalue]
  | enter _ u _ henters hrunning _ hgiving hvalue =>
    simp [busy, hrunning, hgiving, d.not_inside_of_enters henters, hvalue]
  | inside _ _ _ hrunning hrunning' _ hgiving hvalue =>
    simp [busy, hrunning, hrunning', hgiving, hvalue]

theorem value_add_busy (d : Mutex sys n) (h : sys.ClientReachable a)
    : (a.sem (.sem n)).value + a.num d.busy = 1 := by
  refine Transition.Reachable.invariant
    (P := fun a : Client G U => (a.sem (.sem n)).value + a.num d.busy = 1) ?_ ?_ h
  . rintro a rfl
    have hbusy : sys.clientBoot.num d.busy = 0 := by
      by_contra hne
      obtain ⟨t, ht, hbusy⟩ := Nat.count_ne_iff_exists.mp hne
      obtain rfl : t = 0 := by simpa [System.clientBoot] using ht
      change (d.inside sys.main || false) = true at hbusy
      rw [d.main] at hbusy
      contradiction
    rw [hbusy]
    simp [System.clientBoot, d.value]
  . intro a a' hreach hbalance hstep
    cases hstep with
    | thread t point points rest a' ht hawake hpoints hact =>
      have hruns := System.ClientReachable.runs hreach t ht
      rw [hpoints] at hruns
      have hact' := d.balance_act hact hruns
      have hnum := hact.num ht hpoints (f := d.busy) (fun _ => rfl)
      rw [Client.setPoints_sem]
      omega
    | interrupt => exact hbalance
    | interruptV t n' handler g hcall =>
      have hne : SemId.sem n ≠ .sem n' := by
        rintro ⟨⟩
        exact d.posts handler g hcall
      change ((a.post (.sem n') t).sem (.sem n)).value + a.num d.busy = 1
      rw [Client.post_sem, Function.update_of_ne hne]
      exact hbalance

theorem busy_unique (d : Mutex sys n) (h : sys.ClientReachable a) {t' : Nat} (ht : t < a.numThreads)
    (ht' : t' < a.numThreads) (hbusy : d.busy (a.points t) = true) (hbusy' : d.busy (a.points t') = true)
    : t = t' := by
  have hbalance := d.value_add_busy h
  have hnonneg := h.semInv.nonneg (.sem n)
  have hle : a.num d.busy ≤ 1 := by omega
  exact Nat.eq_of_count_le_one hle ht ht' hbusy hbusy'

theorem queue_eq_nil (d : Mutex sys n) (h : sys.ClientReachable a)
    (hbusy : ∀ t, t < a.numThreads → d.busy (a.points t) = false)
    (hwoken : ∀ t, t < a.numThreads → a.isWoken (.sem n) t = false)
    : (a.sem (.sem n)).queue = [] := by
  by_contra hqueue
  have hbalance := d.value_add_busy h
  have hwakeup := h.semInv.wakeup (.sem n) hqueue
  have hnone : a.num d.busy = 0 := by
    by_contra hne
    obtain ⟨t, ht, ht'⟩ := Nat.count_ne_iff_exists.mp hne
    rw [hbusy t ht] at ht'
    contradiction
  have hnone' : a.numWoken (.sem n) = 0 := by
    by_contra hne
    obtain ⟨t, ht, ht'⟩ := Nat.count_ne_iff_exists.mp hne
    rw [hwoken t ht] at ht'
    contradiction
  omega

end Mutex

end Nachos
