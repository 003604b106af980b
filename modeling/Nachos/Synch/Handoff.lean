import Nachos.Synch.Units

/-!
This module contains a buffer for one item that the interrupt handler of a device fills and a thread
empties. The handler announces the item by a `V`, and the thread calls `P` before it takes the item. So
does the postal worker with `messageAvailable`.
-/

namespace Nachos

def Call.Takes (n : Nat) (taken : U → Bool) (call : Call U H) (u : U) : Prop :=
  match call with
  | .p n' => taken u = decide (n' = n)
  | .v n' => n' ≠ n ∧ taken u = false
  | .fork func => taken func = false ∧ taken u = false
  | .finish => True
  | _ => taken u = false

theorem Call.rename_takes {names : Rename U V H K} {n : Nat} {taken : V → Bool} (call : Call U H)
    (hsem : ∀ n', names.sem n' ≠ n) (hfunc : ∀ f, taken (names.func f) = false) {u : V}
    (hu : taken u = false)
    : (call.rename names).Takes n taken u := by
  cases call with
  | p n' => simp [Call.rename, Call.Takes, hsem, hu]
  | v n' => exact ⟨hsem n', hu⟩
  | fork f => exact ⟨hfunc f, hu⟩
  | finish => trivial
  | _ => exact hu

/--
`legal` says that nothing has come from outside that the buffer is not made for.
-/
structure Handoff (sys : System G U H) (n : Nat) where
  taken : U → Bool
  full : G → Bool
  legal : G → Prop
  main : taken sys.main = false
  init : full sys.globals = false
  value : sys.value n = 0
  takes : ∀ u g, (sys.code u g).2.1.Takes n taken (sys.code u g).2.2
  code : ∀ u g, full (sys.code u g).1 = (full g && !taken u)
  handler : ∀ handler g, legal (sys.handler handler g).1 →
    (full (sys.handler handler g).1).toNat =
      (full g).toNat + (HandlerCall.posts (sys.handler handler g).2).count n
  legal_code : ∀ u g, legal (sys.code u g).1 → legal g
  legal_handler : ∀ handler g, legal (sys.handler handler g).1 → legal g

namespace Handoff

variable {sys : System G U H} {n : Nat} (d : Handoff sys n)

def past (points : List (Point U)) : Bool :=
  (running points).any d.taken

variable {d} {call : Call U H} {u : U} {a a' : Client G U} {t : Nat} {point : Point U}
  {points rest : List (Point U)}

theorem takes_of_calls (h : sys.Calls call u) : call.Takes n d.taken u := by
  obtain ⟨u₀, g, hcode⟩ := h
  have := d.takes u₀ g
  rwa [hcode] at this

theorem taken_of_enters (h : sys.Enters n u) : d.taken u = false := by
  cases h with
  | call call hcall hreturns hne =>
    have htakes := d.takes_of_calls hcall
    cases call with
    | p n' => simpa [Call.Takes, show n' ≠ n by simpa using hne] using htakes
    | v n' | fork func => exact htakes.2
    | finish => contradiction
    | _ => exact htakes
  | fork next hcall => exact (d.takes_of_calls hcall).1

theorem past_call (h : call.Takes n d.taken u) : d.past (call.points u ++ [.finish]) = false := by
  rw [past, running_points]
  cases call with
  | yield | setLevel | schedule => exact h
  | _ => rfl

theorem balance_act (hact : Client.Act sys.toProgram a t point points a')
    (hruns : Runs sys (point :: rest))
    : ((a'.sem (.sem n)).value + (d.past (points ++ rest)).toNat =
          (a.sem (.sem n)).value + (d.past (point :: rest)).toNat ∧
        d.full a'.shared = d.full a.shared) ∨
      d.past (point :: rest) = true ∧ d.past (points ++ rest) = false ∧
        (a'.sem (.sem n)).value = (a.sem (.sem n)).value ∧ d.full a'.shared = false := by
  have hunits := hact.units (n := n) hruns
  generalize point :: rest = before at hunits ⊢
  generalize points ++ rest = after at hunits ⊢
  cases hunits with
  | call u hshared hvalue =>
    have hpast : d.past [.user u, .finish] = d.taken u := rfl
    rw [hpast, past_call (d.takes u a.shared), hvalue, hshared, d.code]
    cases d.taken u with
    | false => simp
    | true => simp
  | take _ u hshared hcall hrunning hwaiting _ hvalue =>
    have htaken : d.taken u = true := by simpa [Call.Takes] using d.takes_of_calls hcall
    left
    rw [hshared, hvalue]
    simp [past, hrunning, htaken]
  | give _ u _ hcall => exact absurd rfl (d.takes_of_calls hcall).1
  | enter _ u hshared henters hrunning hwaiting _ hvalue =>
    left
    rw [hshared, hvalue]
    simp [past, hrunning, d.taken_of_enters henters]
  | inside _ _ hshared hrunning hrunning' hwaiting _ hvalue =>
    left
    rw [hshared, hvalue]
    simp [past, hrunning, hrunning']

variable {ext : H → Prop} {r : Rig G U H}

theorem legal_act (hact : Client.Act sys.toProgram a t point points a') (h : d.legal a'.shared)
    : d.legal a.shared := by
  cases hact with
  | user u => exact d.legal_code u a.shared h
  | _ => exact h

theorem announced (d : Handoff sys n) (h : sys.RigReachable ext r) (hlegal : d.legal r.client.shared)
    : (r.client.sem (.sem n)).value + r.posts.count n + r.client.num d.past =
        (d.full r.client.shared).toNat := by
  refine Transition.Reachable.invariant (P := fun r : Rig G U H => d.legal r.client.shared →
    (r.client.sem (.sem n)).value + r.posts.count n + r.client.num d.past =
      (d.full r.client.shared).toNat) ?_ ?_ h hlegal
  . rintro r ⟨hclient, _, hposts⟩ _
    have hpast : sys.clientBoot.num d.past = 0 := by
      by_contra hne
      obtain ⟨t, ht, hpast⟩ := Nat.count_ne_iff_exists.mp hne
      obtain rfl : t = 0 := by simpa [System.clientBoot] using ht
      change d.taken sys.main = true at hpast
      rw [d.main] at hpast
      contradiction
    have hfull : d.full sys.clientBoot.shared = false := d.init
    rw [hclient, hposts, hpast, hfull]
    simp [System.clientBoot, d.value]
  . intro r r' hreach hbalance hstep hlegal
    cases hstep with
    | thread t point points rest a' ht hawake hpoints hact =>
      have hruns := (System.RigReachable.client hreach).runs t ht
      rw [hpoints] at hruns
      have hbalance := hbalance (d.legal_act hact hlegal)
      have hnum := hact.num ht hpoints (f := d.past) (fun _ => rfl)
      have hnonneg := (System.RigReachable.client hreach).semInv.nonneg (.sem n)
      change (a'.sem (.sem n)).value + _ + _ = ((d.full a'.shared).toNat : Int)
      obtain ⟨hvalue, hfull⟩ | ⟨hpast, hpast', hvalue, hfull⟩ := d.balance_act hact hruns
      . rw [hfull]
        dsimp only
        omega
      . rw [hpast, hpast'] at hnum
        rw [hfull, hvalue]
        simp only [Bool.toNat_true, Bool.toNat_false] at hnum ⊢
        have hle := Bool.toNat_le (d.full r.client.shared)
        omega
    | fire handler due hdue =>
      have hbalance := hbalance (d.legal_handler handler r.client.shared hlegal)
      have hhandler := d.handler handler r.client.shared hlegal
      change _ = ((d.full (sys.handler handler r.client.shared).1).toNat : Int)
      rw [hhandler, Multiset.count_add]
      change (r.client.sem (.sem n)).value + _ + r.client.num d.past = _
      push_cast
      omega
    | post t n' posts hposts =>
      have hbalance := hbalance hlegal
      rw [hposts] at hbalance
      change ((r.client.post (.sem n') t).sem (.sem n)).value + posts.count n + r.client.num d.past =
        ((d.full r.client.shared).toNat : Int)
      by_cases hn : n' = n
      . subst hn
        simp only [Multiset.count_cons_self] at hbalance
        simp only [Client.post_sem, Function.update_self]
        push_cast at hbalance
        omega
      . rw [Multiset.count_cons_of_ne (Ne.symm hn)] at hbalance
        simpa [Ne.symm hn] using hbalance
    | arrive => exact hbalance hlegal

theorem full_of_past (d : Handoff sys n) (h : sys.RigReachable ext r) (hlegal : d.legal r.client.shared)
    (ht : t < r.client.numThreads) (hpast : d.past (r.client.points t) = true)
    : d.full r.client.shared = true := by
  have hbalance := d.announced h hlegal
  have hnonneg := h.client.semInv.nonneg (.sem n)
  have hpos : 0 < r.client.num d.past := Nat.count_pos_of ht hpast
  cases hfull : d.full r.client.shared with
  | true => rfl
  | false =>
    rw [hfull] at hbalance
    simp only [Bool.toNat_false] at hbalance
    omega

end Handoff

end Nachos
