import Mathlib.Data.Finset.Card
import Mathlib.Data.Finset.Lattice.Fold
import Mathlib.Order.Lattice.Nat
import Nachos.Lib.Exit

/-!
This module contains memory that is allocated and freed cell by cell, and the lists of cells that are linked
by pointers. The allocator may hand out any address that is not in use.
-/

open Function (update)

structure Heap (ν : Type) where
  cell : Nat → Option ν
  used : Finset Nat
  mem_used : ∀ a, a ∈ used ↔ (cell a).isSome = true
  -- how many cells have been allocated so far
  allocs : Nat

namespace Heap

variable {ν α : Type}

inductive Fault where
  | null
  | dangling (a : Nat)
  -- a loop that follows the pointers and does not end
  | endless
  deriving DecidableEq, Repr

/--
The choice of the address may depend on how often the allocator was called before.
-/
structure Allocator where
  new : Nat → Finset Nat → Nat
  new_notMem : ∀ n used, new n used ∉ used

def Allocator.above : Allocator where
  new _ used := used.sup id + 1
  new_notMem _ used := by
    intro hmem
    have hle : used.sup id + 1 ≤ used.sup id := Finset.le_sup (f := id) hmem
    omega

def empty : Heap ν where
  cell _ := none
  used := ∅
  mem_used a := by simp
  allocs := 0

def set (h : Heap ν) (a : Nat) (v : ν) : Heap ν where
  cell := update h.cell a (some v)
  used := insert a h.used
  mem_used a' := by
    rw [Finset.mem_insert, h.mem_used]
    by_cases ha : a' = a <;> simp [ha]
  allocs := h.allocs

def erase (h : Heap ν) (a : Nat) : Heap ν where
  cell := update h.cell a none
  used := h.used.erase a
  mem_used a' := by
    rw [Finset.mem_erase, h.mem_used]
    by_cases ha : a' = a <;> simp [ha]
  allocs := h.allocs

@[simp]
theorem cell_set (h : Heap ν) (a : Nat) (v : ν) : (h.set a v).cell = update h.cell a (some v) := rfl

@[simp]
theorem cell_erase (h : Heap ν) (a : Nat) : (h.erase a).cell = update h.cell a none := rfl

/-! ### The operations -/

def alloc (allocator : Allocator) (v : ν) : Exit Fault (Heap ν) Nat := do
  let a ← Exit.read fun h => allocator.new h.allocs h.used
  Exit.modify fun h => { h.set a v with allocs := h.allocs + 1 }
  return a

/--
A pointer is `none` if it is `NULL`.
-/
def load (p : Option Nat) : Exit Fault (Heap ν) ν :=
  match p with
  | none => Exit.abort .null
  | some a => do
    match ← Exit.read fun h => h.cell a with
    | none => Exit.abort (.dangling a)
    | some v => return v

def store (p : Option Nat) (f : ν → ν) : Exit Fault (Heap ν) Unit :=
  match p with
  | none => Exit.abort .null
  | some a => do
    let v ← load (some a)
    Exit.modify fun h => h.set a (f v)

def free (p : Option Nat) : Exit Fault (Heap ν) Unit :=
  match p with
  | none => pure ()
  | some a => do
    let _ ← load (some a)
    Exit.modify fun h => h.erase a

section

open Exit

variable {h : Heap ν} {a : Nat} {v : ν}

theorem returns_load {value : ν → Heap ν → Prop} (hcell : h.cell a = some v)
    : Returns (load (some a)) h value ↔ value v h := by
  unfold load
  rw [returns_bind, returns_read, hcell, returns_pure]

theorem returns_store {value : Unit → Heap ν → Prop} (f : ν → ν) (hcell : h.cell a = some v)
    : Returns (store (some a) f) h value ↔ value () (h.set a (f v)) := by
  unfold store
  rw [returns_bind, returns_load hcell, returns_modify]

theorem returns_free {value : Unit → Heap ν → Prop} (hcell : h.cell a = some v)
    : Returns (free (some a)) h value ↔ value () (h.erase a) := by
  unfold free
  rw [returns_bind, returns_load hcell, returns_modify]

theorem returns_alloc {allocator : Allocator} {value : Nat → Heap ν → Prop}
    (hvalue : ∀ a h', h.cell a = none → h'.cell = update h.cell a (some v) → value a h')
    : Returns (alloc allocator v) h value := by
  unfold alloc
  rw [returns_bind, returns_read, returns_bind, returns_modify, returns_pure]
  apply hvalue _ _ _ rfl
  have hnew := allocator.new_notMem h.allocs h.used
  rw [h.mem_used] at hnew
  simpa using hnew

end

/-! ### Linked cells -/

def Seg (next : ν → Option Nat) (cell : Nat → Option ν) : Option Nat → List (Nat × ν) → Option Nat → Prop
  | p, [], q => p = q
  | p, (a, v) :: rest, q => p = some a ∧ cell a = some v ∧ Seg next cell (next v) rest q

section

variable {next : ν → Option Nat} {cell cell' : Nat → Option ν} {p q : Option Nat} {l l' : List (Nat × ν)}

theorem seg_append : Seg next cell p (l ++ l') q ↔ ∃ r, Seg next cell p l r ∧ Seg next cell r l' q := by
  induction l generalizing p with
  | nil => simp [Seg]
  | cons first rest ih => simp [Seg, ih, and_assoc]

theorem Seg.cell_of_mem (h : Seg next cell p l q) {e : Nat × ν} (he : e ∈ l) : cell e.1 = some e.2 := by
  induction l generalizing p with
  | nil => cases he
  | cons first rest ih =>
    obtain ⟨_, hcell, hrest⟩ := h
    cases he with
    | head => exact hcell
    | tail _ he => exact ih hrest he

theorem Seg.congr (h : Seg next cell p l q) (hcell : ∀ a ∈ l.map Prod.fst, cell' a = cell a)
    : Seg next cell' p l q := by
  induction l generalizing p with
  | nil => exact h
  | cons first rest ih =>
    obtain ⟨hp, hfirst, hrest⟩ := h
    rw [List.map_cons, List.forall_mem_cons] at hcell
    exact ⟨hp, hcell.1.trans hfirst, ih hrest hcell.2⟩

theorem Seg.update (h : Seg next cell p l q) {a : Nat} (ha : a ∉ l.map Prod.fst) (v : Option ν)
    : Seg next (update cell a v) p l q := by
  apply h.congr
  intro a' ha'
  apply Function.update_of_ne
  rintro rfl
  exact ha ha'

theorem Seg.notMem (h : Seg next cell p l q) {a : Nat} (ha : cell a = none) : a ∉ l.map Prod.fst := by
  intro hmem
  obtain ⟨e, he, rfl⟩ := List.mem_map.mp hmem
  rw [h.cell_of_mem he] at ha
  cases ha

theorem Seg.unique (h : Seg next cell p l none) (h' : Seg next cell p l' none) : l = l' := by
  induction l generalizing p l' with
  | nil =>
    cases l' with
    | nil => rfl
    | cons first' rest' =>
      obtain ⟨hp, _⟩ := h'
      cases h.symm.trans hp
  | cons first rest ih =>
    obtain ⟨hp, hcell, hrest⟩ := h
    cases l' with
    | nil => cases hp.symm.trans h'
    | cons first' rest' =>
      obtain ⟨hp', hcell', hrest'⟩ := h'
      obtain ⟨a, v⟩ := first
      obtain ⟨a', v'⟩ := first'
      cases hp.symm.trans hp'
      cases hcell.symm.trans hcell'
      rw [ih hrest hrest']

theorem Seg.nodup (h : Seg next cell p l none) : (l.map Prod.fst).Nodup := by
  -- A chain that ends with `NULL` does not meet a cell twice: behind it there would be the same cells
  -- again.
  induction l generalizing p with
  | nil => exact List.nodup_nil
  | cons first rest ih =>
    obtain ⟨a, v⟩ := first
    obtain ⟨hp, hcell, hrest⟩ := h
    refine List.nodup_cons.mpr ⟨?_, ih hrest⟩
    intro hmem
    obtain ⟨⟨a', v'⟩, he, ha⟩ := List.mem_map.mp hmem
    obtain rfl : a' = a := ha
    obtain ⟨front, back, rfl⟩ := List.append_of_mem he
    obtain ⟨r, _, hr, hback⟩ := seg_append.mp hrest
    have hfirst : Seg next cell (some a') ((a', v) :: (front ++ (a', v') :: back)) none := ⟨rfl, hcell, hrest⟩
    have hagain : Seg next cell (some a') ((a', v') :: back) none := ⟨rfl, hback⟩
    have heq := congrArg List.length (hfirst.unique hagain)
    simp at heq
    omega

theorem Seg.next_last {a : Nat} {v : ν} (h : Seg next cell p (l ++ [(a, v)]) q) : next v = q := by
  obtain ⟨_, _, _, _, hnext⟩ := seg_append.mp h
  exact hnext

theorem Seg.next_cons {a b : Nat} {v w : ν} (h : Seg next cell p (l ++ (a, v) :: (b, w) :: l') q)
    : next v = some b := by
  obtain ⟨_, _, _, _, hnext, _⟩ := seg_append.mp h
  exact hnext

theorem Seg.eq_none_iff (h : Seg next cell p l none) : p = none ↔ l = [] := by
  cases l with
  | nil => exact iff_of_true h rfl
  | cons first rest => simp [h.1]

theorem Seg.length_le {heap : Heap ν} (h : Seg next heap.cell p l none) : l.length ≤ heap.used.card := by
  have hsub : (l.map Prod.fst).toFinset ⊆ heap.used := by
    intro a ha
    rw [List.mem_toFinset] at ha
    obtain ⟨e, he, rfl⟩ := List.mem_map.mp ha
    rw [heap.mem_used, h.cell_of_mem he]
    rfl
  have hcard := Finset.card_le_card hsub
  rwa [List.toFinset_card_of_nodup h.nodup, List.length_map] at hcard

theorem Seg.cons (h : Seg next cell p l none) {a : Nat} {v : ν} (ha : cell a = none) (hv : next v = p)
    : Seg next (Function.update cell a (some v)) (some a) ((a, v) :: l) none := by
  refine ⟨rfl, Function.update_self .., ?_⟩
  rw [hv]
  exact h.update (h.notMem ha) _

theorem Seg.insertAfter {front back : List (Nat × ν)} {a b : Nat} {v w n : ν}
    (h : Seg next cell p (front ++ (a, v) :: back) none) (hb : cell b = none) (hw : next w = some b)
    (hn : next n = next v)
    : Seg next (Function.update (Function.update cell b (some n)) a (some w)) p
        (front ++ (a, w) :: (b, n) :: back) none := by
  have hnodup := h.nodup
  have hnotMem := h.notMem hb
  obtain ⟨r, hfront, hr, _, hback⟩ := seg_append.mp h
  simp only [List.map_append, List.map_cons, List.nodup_append, List.nodup_cons, List.mem_append,
    List.mem_cons, not_or] at hnodup hnotMem
  obtain ⟨-, ⟨haback, -⟩, hdisjoint⟩ := hnodup
  obtain ⟨hbfront, hba, hbback⟩ := hnotMem
  have hafront : a ∉ front.map Prod.fst := fun ha => hdisjoint a ha a (.inl rfl) rfl
  rw [seg_append]
  refine ⟨r, (hfront.update hbfront _).update hafront _, hr, Function.update_self .., ?_⟩
  refine ⟨hw, ?_, ?_⟩
  . rw [Function.update_of_ne hba, Function.update_self]
  . rw [hn]
    exact (hback.update hbback _).update haback _

end

end Heap
