import Mathlib.Data.Set.Card
import Nachos.Lib.Calls
import Nachos.Userprog.BitMap

/-!
This module contains the bitmap as a finite set with an allocator: after any sequence of calls, its bits
are what the history of the calls says, and `Find` hands out the least number that is free.
-/

namespace Nachos

namespace Filesys

namespace BitMap

open Transition

/-! ### Sequences of calls -/

inductive Call where
  | mark (which : Int)
  | clear (which : Int)
  | test (which : Int)
  | find
  | numClear
  deriving DecidableEq, Repr

inductive Answer where
  | done
  | bool (b : Bool)
  | int (i : Int)
  deriving DecidableEq, Repr

def Call.InRange (n : Nat) : Call → Prop
  | .mark which | .clear which | .test which => 0 ≤ which ∧ which < n
  | .find | .numClear => True

def perform (m : BitMap) : Call → FS (BitMap × Answer)
  | .mark which => do return (← m.mark which, .done)
  | .clear which => do return (← m.clear which, .done)
  | .test which => do return (m, .bool (← m.test which))
  | .find => pure (m.find.2, .int m.find.1)
  | .numClear => pure (m, .int m.numClear)

abbrev Event : Type := Call × Answer

def run (m : BitMap) (calls : List Call) : FS (BitMap × List Event) :=
  Exit.calls perform m calls

/-! ### What the calls say -/

def Event.Marks (i : Nat) (e : Event) : Prop :=
  e.1 = .mark i ∨ e = (.find, .int i)

def Event.Clears (i : Nat) (e : Event) : Prop :=
  e.1 = .clear i

def Marked (history : List Event) (i : Nat) : Prop :=
  Since (fun e => Event.Marks i e) (fun e => Event.Clears i e) history

def Correct (n : Nat) (history : List Event) : Event → Prop
  | (.mark _, answer) => answer = .done
  | (.clear _, answer) => answer = .done
  | (.test which, answer) => ∃ b, answer = .bool b ∧ (b = true ↔ Marked history which.toNat)
  | (.find, answer) =>
    (∃ i : Nat, i < n ∧ answer = .int i ∧ ¬Marked history i ∧ ∀ j, j < i → Marked history j) ∨
      answer = .int (-1) ∧ ∀ i, i < n → Marked history i
  | (.numClear, answer) => answer = .int (n - {i | i < n ∧ Marked history i}.ncard)

/-! ### The set -/

inductive SetStep (n : Nat) : Finset Nat → Event → Finset Nat → Prop where
  | mark {s : Finset Nat} {i : Nat} (h : i < n) : SetStep n s (.mark i, .done) (insert i s)
  | clear {s : Finset Nat} {i : Nat} (h : i < n) : SetStep n s (.clear i, .done) (s.erase i)
  | test {s : Finset Nat} {i : Nat} (h : i < n) : SetStep n s (.test i, .bool (decide (i ∈ s))) s
  | find {s : Finset Nat} {i : Nat} (h : i < n) (hnew : i ∉ s) (hleast : ∀ j, j < i → j ∈ s)
    : SetStep n s (.find, .int i) (insert i s)
  | full {s : Finset Nat} (h : ∀ i, i < n → i ∈ s) : SetStep n s (.find, .int (-1)) s
  | numClear {s : Finset Nat} : SetStep n s (.numClear, .int (n - s.card)) s

section

variable {n i : Nat} {s s' : Finset Nat} {e : Event} {history : List Event}

theorem SetStep.mem_iff (h : SetStep n s e s') (i : Nat) : i ∈ s' ↔ e.Marks i ∨ i ∈ s ∧ ¬e.Clears i := by
  cases h with
  | mark => simp [Event.Marks, Event.Clears, eq_comm]
  | clear => simp [Event.Marks, Event.Clears, eq_comm, and_comm]
  | test => simp [Event.Marks, Event.Clears]
  | find => simp [Event.Marks, Event.Clears, eq_comm]
  | full => simp [Event.Marks, Event.Clears]
  | numClear => simp [Event.Marks, Event.Clears]

theorem SetStep.lt (h : SetStep n s e s') (hlt : ∀ i ∈ s, i < n) : ∀ i ∈ s', i < n := by
  cases h with
  | mark h | find h =>
    intro i hi
    rw [Finset.mem_insert] at hi
    cases hi with
    | inl hi => exact hi ▸ h
    | inr hi => exact hlt i hi
  | clear =>
    intro i hi
    exact hlt i (Finset.mem_of_mem_erase hi)
  | test | full | numClear => exact hlt

theorem mem_iff_marked (h : Trace (SetStep n) ∅ history s) (i : Nat) : i ∈ s ↔ Marked history i := by
  apply h.iff_since (P := fun s => i ∈ s)
  . intro s e s' hstep
    exact hstep.mem_iff i
  . exact Finset.notMem_empty i

theorem lt_of_mem (h : Trace (SetStep n) ∅ history s) (i : Nat) (hi : i ∈ s) : i < n :=
  h.invariant (P := fun s => ∀ i ∈ s, i < n) (fun _ _ _ hlt hstep => hstep.lt hlt) (by simp) i hi

theorem ncard_marked (h : Trace (SetStep n) ∅ history s)
    : {i | i < n ∧ Marked history i}.ncard = s.card := by
  have heq : {i | i < n ∧ Marked history i} = (s : Set Nat) := by
    ext i
    rw [Set.mem_ofPred_eq, Finset.mem_coe, ← mem_iff_marked h]
    exact and_iff_right_of_imp (lt_of_mem h i)
  rw [heq, Set.ncard_coe_finset]

theorem SetStep.correct (h : Trace (SetStep n) ∅ history s) (hstep : SetStep n s e s')
    : Correct n history e := by
  cases hstep with
  | mark => rfl
  | clear => rfl
  | test hi =>
    refine ⟨_, rfl, ?_⟩
    rw [decide_eq_true_eq, Int.toNat_natCast]
    exact mem_iff_marked h _
  | @find i hi hnew hleast =>
    refine .inl ⟨i, hi, rfl, ?_, ?_⟩
    . rwa [← mem_iff_marked h]
    . intro j hj
      rw [← mem_iff_marked h]
      exact hleast j hj
  | full hfull =>
    refine .inr ⟨rfl, ?_⟩
    intro i hi
    rw [← mem_iff_marked h]
    exact hfull i hi
  | numClear =>
    unfold Correct
    rw [ncard_marked h]

theorem finds_of_trace {k : Nat} {events : List Event} (h : Trace (SetStep n) s events s')
    (hcalls : events.map Prod.fst = List.replicate k .find) (hroom : k + s.card ≤ n)
    : ∃ l : List Nat, events = l.map (fun i : Nat => (Call.find, Answer.int i)) ∧ l.Nodup ∧
        (∀ i ∈ l, i < n ∧ i ∉ s) ∧ s' = s ∪ l.toFinset := by
  induction h generalizing k with
  | nil => exact ⟨[], rfl, List.nodup_nil, by simp, by simp⟩
  | @snoc s₁ s₂ events e _ hlast ih =>
    have hk : k = events.length + 1 := by
      have hlength := congrArg List.length hcalls
      simpa using hlength.symm
    subst hk
    rw [List.replicate_succ', List.map_append] at hcalls
    have hsplit := List.append_inj' hcalls rfl
    obtain ⟨l, hevents, hnodup, hnew, heq⟩ := ih hsplit.1 (by omega)
    have hcard : s₁.card < n := by
      have hle := Finset.card_union_le s l.toFinset
      have hlist := List.toFinset_card_le l
      have hlength : events.length = l.length := by rw [hevents, List.length_map]
      rw [← heq] at hle
      omega
    obtain ⟨call, answer⟩ := e
    have hcall : call = .find := by simpa using hsplit.2
    subst hcall
    cases hlast with
    | full hfull =>
      have hsub : Finset.range n ⊆ s₁ := fun i hi => hfull i (Finset.mem_range.1 hi)
      have hle := Finset.card_le_card hsub
      rw [Finset.card_range] at hle
      omega
    | @find i hi hnot _ =>
      have hi' : i ∉ s ∧ i ∉ l := by
        rw [heq, Finset.mem_union, List.mem_toFinset] at hnot
        exact not_or.1 hnot
      refine ⟨l ++ [i], by rw [hevents, List.map_append]; rfl, ?_, ?_, ?_⟩
      . rw [List.nodup_append]
        refine ⟨hnodup, List.nodup_singleton i, ?_⟩
        intro a ha b hb hab
        rw [List.mem_singleton] at hb
        exact hi'.2 (hb ▸ hab ▸ ha)
      . intro j hj
        rw [List.mem_append, List.mem_singleton] at hj
        cases hj with
        | inl hj => exact hnew j hj
        | inr hj => exact hj ▸ ⟨hi, hi'.1⟩
      . rw [heq, List.toFinset_append]
        ext j
        simp only [Finset.mem_insert, Finset.mem_union, List.mem_toFinset, List.mem_singleton]
        exact ⟨fun h => by tauto, fun h => by tauto⟩

end

/-! ### The bitmap is the set -/

def toSet (m : BitMap) : Finset Nat :=
  (Finset.range m.numBits).filter fun i => m.bit i = true

section

variable {m : BitMap} {i : Nat}

theorem mem_toSet : i ∈ m.toSet ↔ i < m.numBits ∧ m.bit i = true := by
  rw [toSet, Finset.mem_filter, Finset.mem_range]

theorem toSet_setBit (hi : i < m.numBits) : (m.setBit i).toSet = insert i m.toSet := by
  ext j
  rw [mem_toSet, Finset.mem_insert, mem_toSet, numBits_setBit, bit_setBit, Bool.or_eq_true, decide_eq_true_eq]
  by_cases hij : i = j
  . subst hij
    simp [hi]
  . simp [hij, Ne.symm hij]

theorem toSet_clearBit (m : BitMap) (i : Nat) : (m.clearBit i).toSet = m.toSet.erase i := by
  ext j
  rw [mem_toSet, Finset.mem_erase, mem_toSet, numBits_clearBit, bit_clearBit, Bool.and_eq_true,
    Bool.not_eq_true', decide_eq_false_iff_not]
  exact ⟨fun ⟨hj, hne, hbit⟩ => ⟨Ne.symm hne, hj, hbit⟩, fun ⟨hne, hj, hbit⟩ => ⟨hj, Ne.symm hne, hbit⟩⟩

theorem numClear_add_card (m : BitMap) : m.numClear + m.toSet.card = m.numBits := by
  have hcard := Finset.card_filter_add_card_filter_not (s := Finset.range m.numBits) (fun i => (!m.bit i) = true)
  have heq : (Finset.range m.numBits).filter (fun i => ¬(!m.bit i) = true) = m.toSet := by
    unfold toSet
    apply Finset.filter_congr
    intro i _
    simp
  rw [heq, Finset.card_range] at hcard
  unfold numClear
  rw [Nat.count_eq_card_filter_range]
  exact hcard

open Exit

variable {st : Store}

theorem returns_perform {call : Call} (h : call.InRange m.numBits)
    : Returns (m.perform call) st (fun r _ =>
        r.1.numBits = m.numBits ∧ SetStep m.numBits m.toSet (call, r.2) r.1.toSet) := by
  cases call with
  | mark which =>
    obtain ⟨i, rfl⟩ := Int.eq_ofNat_of_zero_le h.1
    have hi : i < m.numBits := Int.ofNat_lt.1 h.2
    unfold perform
    rw [returns_bind, returns_mark hi, returns_pure, toSet_setBit hi]
    exact ⟨rfl, .mark hi⟩
  | clear which =>
    obtain ⟨i, rfl⟩ := Int.eq_ofNat_of_zero_le h.1
    have hi : i < m.numBits := Int.ofNat_lt.1 h.2
    unfold perform
    rw [returns_bind, returns_clear hi, returns_pure, toSet_clearBit]
    exact ⟨rfl, .clear hi⟩
  | test which =>
    obtain ⟨i, rfl⟩ := Int.eq_ofNat_of_zero_le h.1
    have hi : i < m.numBits := Int.ofNat_lt.1 h.2
    unfold perform
    rw [returns_bind, returns_test hi, returns_pure]
    have hbit : m.bit i = decide (i ∈ m.toSet) := by
      rw [Bool.eq_iff_iff, decide_eq_true_eq, mem_toSet]
      simp [hi]
    rw [hbit]
    exact ⟨rfl, .test hi⟩
  | find =>
    unfold perform
    rw [returns_pure]
    obtain ⟨i, hi, hclear, hleast, hfind⟩ | ⟨hfull, hfind⟩ := find_cases m
    . rw [hfind, toSet_setBit hi]
      refine ⟨rfl, .find hi ?_ ?_⟩
      . simp [mem_toSet, hclear]
      . intro j hj
        exact mem_toSet.2 ⟨by omega, hleast j hj⟩
    . rw [hfind]
      exact ⟨rfl, .full fun i hi => mem_toSet.2 ⟨hi, hfull i hi⟩⟩
  | numClear =>
    unfold perform
    rw [returns_pure]
    have hcard := numClear_add_card m
    have heq : (m.numClear : Int) = m.numBits - m.toSet.card := by omega
    rw [heq]
    exact ⟨rfl, .numClear⟩

theorem returns_run (m : BitMap) {calls : List Call} (h : ∀ call ∈ calls, call.InRange m.numBits)
    : Returns (m.run calls) st (fun r _ =>
        r.2.map Prod.fst = calls ∧ r.1.numBits = m.numBits ∧
        Trace (SetStep m.numBits) m.toSet r.2 r.1.toSet) := by
  unfold run
  apply Returns.mono
  . apply returns_calls (fun m' _ s => m'.numBits = m.numBits ∧ m'.toSet = s) (SetStep m.numBits) ?_ ⟨rfl, rfl⟩ h
    intro m' s call st hcall ⟨hbits, hset⟩
    subst hset
    rw [← hbits] at hcall ⊢
    apply (returns_perform hcall).mono
    intro r _ ⟨hbits', hstep⟩
    exact ⟨_, hstep, hbits', rfl⟩
  . intro r _ ⟨hcalls, s, htrace, hbits, hset⟩
    subst hset
    exact ⟨hcalls, hbits, htrace⟩

theorem toSet_of_clear (h : ∀ i, i < m.numBits → m.bit i = false) : m.toSet = ∅ := by
  rw [Finset.eq_empty_iff_forall_notMem]
  intro i hi
  rw [mem_toSet] at hi
  rw [h i hi.1] at hi
  cases hi.2

end

/-! ### What a caller can rely on -/

structure IsSet (n : Nat) (history : List Event) (m : BitMap) (st : Store) : Prop where
  test : ∀ i, i < n → Exit.Returns (m.test i) st (fun b _ => b = true ↔ Marked history i)
  mark : ∀ i, i < n → Exit.Returns (m.mark i) st (fun m' _ =>
    m'.bit i = true ∧ ∀ j, j ≠ i → m'.bit j = m.bit j)
  clear : ∀ i, i < n → Exit.Returns (m.clear i) st (fun m' _ =>
    m'.bit i = false ∧ ∀ j, j ≠ i → m'.bit j = m.bit j)
  find : (∃ i : Nat, i < n ∧ ¬Marked history i ∧ (∀ j, j < i → Marked history j) ∧ m.find.1 = i ∧
      m.find.2.bit i = true ∧ ∀ j, j ≠ i → m.find.2.bit j = m.bit j) ∨
    (∀ i, i < n → Marked history i) ∧ m.find = (-1, m)
  numClear : (m.numClear : Int) = n - {i | i < n ∧ Marked history i}.ncard
  finds : ∀ k, k ≤ m.numClear → Exit.Returns (m.run (List.replicate k .find)) st (fun r _ =>
    ∃ l : List Nat, r.2 = l.map (fun i : Nat => (Call.find, Answer.int i)) ∧ l.length = k ∧ l.Nodup ∧
      ∀ i ∈ l, i < n ∧ ¬Marked history i)

section

open Exit

variable {m : BitMap} {n : Nat} {history : List Event} {st : Store}

theorem setBit_only (m : BitMap) (i : Nat)
    : (m.setBit i).bit i = true ∧ ∀ j, j ≠ i → (m.setBit i).bit j = m.bit j := by
  refine ⟨by simp [bit_setBit], ?_⟩
  intro j hj
  simp [bit_setBit, Ne.symm hj]

theorem clearBit_only (m : BitMap) (i : Nat)
    : (m.clearBit i).bit i = false ∧ ∀ j, j ≠ i → (m.clearBit i).bit j = m.bit j := by
  refine ⟨by simp [bit_clearBit], ?_⟩
  intro j hj
  simp [bit_clearBit, Ne.symm hj]

theorem isSet_of_trace (hbits : m.numBits = n) (h : Trace (SetStep n) ∅ history m.toSet)
    : IsSet n history m st := by
  have hmarked : ∀ i, i < n → (m.bit i = true ↔ Marked history i) := by
    intro i hi
    rw [← mem_iff_marked h, mem_toSet, hbits]
    simp [hi]
  subst hbits
  constructor
  case test =>
    intro i hi
    rw [returns_test hi]
    exact hmarked i hi
  case mark =>
    intro i hi
    rw [returns_mark hi]
    exact setBit_only m i
  case clear =>
    intro i hi
    rw [returns_clear hi]
    exact clearBit_only m i
  case find =>
    obtain ⟨i, hi, hclear, hleast, hfind⟩ | ⟨hfull, hfind⟩ := find_cases m
    . refine .inl ⟨i, hi, ?_, ?_, ?_⟩
      . rw [← hmarked i hi, hclear]
        exact Bool.false_ne_true
      . intro j hj
        exact (hmarked j (by omega)).1 (hleast j hj)
      . rw [hfind]
        exact ⟨rfl, setBit_only m i⟩
    . exact .inr ⟨fun i hi => (hmarked i hi).1 (hfull i hi), hfind⟩
  case numClear =>
    have hcard := numClear_add_card m
    rw [ncard_marked h]
    omega
  case finds =>
    intro k hk
    have hcard := numClear_add_card m
    have hrange : ∀ call ∈ List.replicate k Call.find, call.InRange m.numBits := by
      intro call hcall
      rw [List.eq_of_mem_replicate hcall]
      trivial
    apply (returns_run m hrange).mono
    intro r st' ⟨hcalls, _, htrace⟩
    obtain ⟨l, hevents, hnodup, hnew, _⟩ := finds_of_trace htrace hcalls (by omega)
    refine ⟨l, hevents, ?_, hnodup, ?_⟩
    . have hlength := congrArg List.length hcalls
      rw [hevents, List.length_map, List.length_map, List.length_replicate] at hlength
      exact hlength
    . intro i hi
      rw [← mem_iff_marked h]
      exact hnew i hi

theorem bitmap_is_set (n : Nat) (st : Store) (calls : List Call) (hcalls : ∀ call ∈ calls, call.InRange n)
    : Returns (do let m ← ofSize n; m.run calls) st (fun r st' =>
        r.2.map Prod.fst = calls ∧
        (∀ before e after, r.2 = before ++ e :: after → Correct n before e) ∧
        IsSet n r.2 r.1 st') := by
  rw [returns_bind]
  apply Returns.ofSize
  intro m st' hbits hclear _ _
  subst hbits
  apply (returns_run m hcalls).mono
  intro r st'' ⟨hevents, hbits', htrace⟩
  rw [toSet_of_clear hclear] at htrace
  refine ⟨hevents, ?_, isSet_of_trace hbits' htrace⟩
  intro before e after heq
  rw [heq] at htrace
  obtain ⟨s, s', hbefore, hstep⟩ := htrace.of_mid
  exact SetStep.correct hbefore hstep

theorem bitmap_is_set_forty
    : Returns (do let m ← ofSize 40; m.run [.mark 31, .find, .clear 31, .mark 39])
        { disk := fun _ _ => 0xff, memory := fun _ _ => 0xff } (fun r st' => IsSet 40 r.2 r.1 st') := by
  apply (bitmap_is_set 40 _ [.mark 31, .find, .clear 31, .mark 39] ?_).mono
  . intro r st' h
    exact h.2.2
  . simp [Call.InRange]

end

end BitMap

end Filesys

end Nachos
