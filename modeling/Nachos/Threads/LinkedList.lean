import Nachos.Lib.Calls
import Nachos.Lib.Heap
import Nachos.Lib.Priority
import Nachos.Threads.Basic

/-!
This module contains `list.cc`, the singly linked list with its pointers. After any sequence of calls its
cells are a chain from `first` to `last`, and it is the sequence of items that the calls say.
-/

namespace Nachos

open Function (update)

structure ListElement (α : Type) where
  next : Option Nat
  key : Int
  item : α

def ListElement.new (itemPtr : α) (sortKey : Int) : ListElement α where
  item := itemPtr
  key := sortKey
  next := none

structure LinkedList where
  first : Option Nat
  last : Option Nat
  deriving DecidableEq, Repr

namespace LinkedList

open Heap (Allocator Seg alloc free load store)

abbrev M (α : Type) : Type → Type := Exit Heap.Fault (Heap (ListElement α))

/-! ### The functions -/

def empty : LinkedList where
  first := none
  last := none

def isEmpty (list : LinkedList) : Bool :=
  list.first = none

section

variable {α : Type} (allocator : Allocator)

def append (list : LinkedList) (item : α) : M α LinkedList := do
  let element ← alloc allocator (.new item 0)
  if list.isEmpty then
    return { first := some element, last := some element }
  else
    store list.last fun e => { e with next := some element }
    return { list with last := some element }

def prepend (list : LinkedList) (item : α) : M α LinkedList := do
  let element ← alloc allocator (.new item 0)
  if list.isEmpty then
    return { first := some element, last := some element }
  else
    store (some element) fun e => { e with next := list.first }
    return { list with first := some element }

/--
The `for` loop of `SortedInsert`, the result says whether it has returned from the function. If it visits more cells
than there are, it visits them again and again.
-/
def insertLoop (element : Nat) (sortKey : Int) : Nat → Option Nat → M α Bool
  | 0, _ => Exit.abort .endless
  | numCells + 1, ptr => do
    let next := (← load ptr).next
    if next = none then
      return false
    else do
      if sortKey < (← load next).key then
        store (some element) fun e => { e with next := next }
        store ptr fun e => { e with next := some element }
        return true
      else
        insertLoop element sortKey numCells next

def sortedInsert (list : LinkedList) (item : α) (sortKey : Int) : M α LinkedList := do
  let element ← alloc allocator (.new item sortKey)
  if list.isEmpty then
    return { first := some element, last := some element }
  else do
    if sortKey < (← load list.first).key then
      store (some element) fun e => { e with next := list.first }
      return { list with first := some element }
    else
      let numCells ← Exit.read fun heap => heap.used.card
      if ← insertLoop element sortKey numCells list.first then
        return list
      else
        store list.last fun e => { e with next := some element }
        return { list with last := some element }

def unlink (list : LinkedList) (element : Option Nat) : M α LinkedList :=
  if list.first = list.last then
    return { first := none, last := none }
  else do
    return { list with first := (← load element).next }

def storeKey (keyPtr : Option Int) (element : Option Nat) : M α (Option Int) :=
  match keyPtr with
  | none => return none
  | some _ => do return some (← load element).key

def sortedRemove (list : LinkedList) (keyPtr : Option Int) : M α (LinkedList × Option α × Option Int) := do
  let element := list.first
  if list.isEmpty then
    return (list, none, keyPtr)
  else
    let thing := (← load list.first).item
    let list ← unlink list element
    let keyPtr ← storeKey keyPtr element
    free element
    return (list, some thing, keyPtr)

def remove (list : LinkedList) : M α (LinkedList × Option α) := do
  let (list, thing, _) ← sortedRemove list none
  return (list, thing)

def removeLoop : Nat → LinkedList → M α LinkedList
  | 0, _ => Exit.abort .endless
  | numCells + 1, list => do
    match ← remove list with
    | (list, none) => return list
    | (list, some _) => removeLoop numCells list

def destroy (list : LinkedList) : M α LinkedList := do
  let numCells ← Exit.read fun heap => heap.used.card
  removeLoop (numCells + 1) list

end

/-! ### Chains of cells -/

def entry (e : Nat × ListElement α) : α × Int :=
  (e.2.item, e.2.key)

/--
The list has the cells in `cells`. All others are as in `heap₀`, where these cells were not in use.
-/
structure Represents (heap₀ heap : Heap (ListElement α)) (list : LinkedList) (cells : List (Nat × ListElement α))
    : Prop where
  seg : Seg ListElement.next heap.cell list.first cells none
  last : list.last = (cells.map Prod.fst).getLast?
  fresh : ∀ a ∈ cells.map Prod.fst, heap₀.cell a = none
  others : ∀ a, a ∉ cells.map Prod.fst → heap.cell a = heap₀.cell a

namespace Represents

variable {α : Type} {heap₀ heap heap' : Heap (ListElement α)} {list : LinkedList} {last : Option Nat}
  {cells front back : List (Nat × ListElement α)} {a b : Nat} {v w n : ListElement α}

theorem empty (heap : Heap (ListElement α)) : Represents heap heap .empty [] :=
  ⟨rfl, rfl, by simp, fun _ _ => rfl⟩

theorem isEmpty_iff (h : Represents heap₀ heap list cells) : list.isEmpty = true ↔ cells = [] := by
  unfold isEmpty
  rw [decide_eq_true_eq]
  exact h.seg.eq_none_iff

theorem last_eq_none_iff (h : Represents heap₀ heap list cells) : list.last = none ↔ cells = [] := by
  rw [h.last, List.getLast?_eq_none_iff, List.map_eq_nil_iff]

theorem cell_of_mem (h : Represents heap₀ heap list cells) (hb : heap.cell b = none)
    (hcell : heap'.cell = update heap.cell b (some n)) (hmem : (a, v) ∈ cells)
    : a ≠ b ∧ heap'.cell a = some v := by
  have hv : heap.cell a = some v := h.seg.cell_of_mem hmem
  have hne : a ≠ b := by
    rintro rfl
    cases hb.symm.trans hv
  rw [hcell, Function.update_of_ne hne]
  exact ⟨hne, hv⟩

theorem unused (h : Represents heap₀ heap list cells) (hb : heap.cell b = none) : heap₀.cell b = none := by
  rw [← h.others b (h.seg.notMem hb)]
  exact hb

theorem cons (h : Represents heap₀ heap list cells) (hb : heap.cell b = none) (hn : n.next = list.first)
    (hcell : heap'.cell = update heap.cell b (some n)) (hlast : last = (b :: cells.map Prod.fst).getLast?)
    : Represents heap₀ heap' ⟨some b, last⟩ ((b, n) :: cells) := by
  constructor
  case seg =>
    rw [hcell]
    exact h.seg.cons hb hn
  case last => exact hlast
  case fresh =>
    rw [List.map_cons, List.forall_mem_cons]
    exact ⟨h.unused hb, h.fresh⟩
  case others =>
    intro a' ha'
    rw [List.map_cons, List.mem_cons, not_or] at ha'
    rw [hcell, Function.update_of_ne ha'.1]
    exact h.others a' ha'.2

theorem insertAfter (h : Represents heap₀ heap list (front ++ (a, v) :: back)) (hb : heap.cell b = none)
    (hn : n.next = v.next) (hw : w.next = some b)
    (hcell : heap'.cell = update (update heap.cell b (some n)) a (some w))
    (hlast : last = ((front ++ (a, w) :: (b, n) :: back).map Prod.fst).getLast?)
    : Represents heap₀ heap' ⟨list.first, last⟩ (front ++ (a, w) :: (b, n) :: back) := by
  have hfresh := h.fresh
  have hothers := h.others
  simp only [List.map_append, List.map_cons, List.mem_append, List.mem_cons] at hfresh hothers
  constructor
  case seg =>
    rw [hcell]
    exact h.seg.insertAfter hb hw hn
  case last => exact hlast
  case fresh =>
    intro a' ha'
    simp only [List.map_append, List.map_cons, List.mem_append, List.mem_cons] at ha'
    by_cases hne : a' = b
    . rw [hne]
      exact h.unused hb
    . exact hfresh a' (by tauto)
  case others =>
    intro a' ha'
    simp only [List.map_append, List.map_cons, List.mem_append, List.mem_cons, not_or] at ha'
    rw [hcell, Function.update_of_ne ha'.2.1, Function.update_of_ne ha'.2.2.1]
    exact hothers a' (by tauto)

theorem tail (h : Represents heap₀ heap list ((a, v) :: cells)) (hcell : heap'.cell = update heap.cell a none)
    (hlast : last = (cells.map Prod.fst).getLast?)
    : Represents heap₀ heap' ⟨v.next, last⟩ cells := by
  obtain ⟨hnotMem, _⟩ := List.nodup_cons.mp h.seg.nodup
  constructor
  case seg =>
    rw [hcell]
    exact h.seg.2.2.update hnotMem _
  case last => exact hlast
  case fresh =>
    intro a' ha'
    exact h.fresh a' (List.mem_cons_of_mem _ ha')
  case others =>
    intro a' ha'
    rw [hcell]
    by_cases hne : a' = a
    . rw [hne, Function.update_self, h.fresh a List.mem_cons_self]
    . rw [Function.update_of_ne hne]
      apply h.others
      rw [List.map_cons, List.mem_cons]
      exact not_or.mpr ⟨hne, ha'⟩

theorem first_eq_last_iff (h : Represents heap₀ heap list ((a, v) :: cells))
    : list.first = list.last ↔ cells = [] := by
  obtain ⟨hnotMem, _⟩ := List.nodup_cons.mp h.seg.nodup
  rw [h.seg.1, h.last]
  cases cells with
  | nil => simp
  | cons first rest =>
    refine iff_of_false ?_ (List.cons_ne_nil _ _)
    intro heq
    apply hnotMem
    rw [List.map_cons, List.map_cons, List.getLast?_cons_cons] at heq
    exact List.mem_of_getLast? heq.symm

end Represents

/-! ### What the functions do -/

section

open Exit

variable {α : Type} {allocator : Allocator} {heap₀ heap : Heap (ListElement α)} {list : LinkedList}
  {cells : List (Nat × ListElement α)}

def Holds (heap₀ heap : Heap (ListElement α)) (list : LinkedList) (entries : List (α × Int)) : Prop :=
  ∃ cells, Represents heap₀ heap list cells ∧ cells.map entry = entries

theorem Represents.holds_cons {heap' : Heap (ListElement α)} {b : Nat} {n : ListElement α} {last : Option Nat}
    (h : Represents heap₀ heap list cells) (hb : heap.cell b = none) (hn : n.next = list.first)
    (hcell : heap'.cell = update heap.cell b (some n)) (hlast : last = (b :: cells.map Prod.fst).getLast?)
    : Holds heap₀ heap' ⟨some b, last⟩ ((n.item, n.key) :: cells.map entry) :=
  ⟨_, h.cons hb hn hcell hlast, rfl⟩

theorem Represents.holds_singleton {heap' : Heap (ListElement α)} {b : Nat} {item : α} {key : Int}
    (h : Represents heap₀ heap list []) (hb : heap.cell b = none)
    (hcell : heap'.cell = update heap.cell b (some (.new item key)))
    : Holds heap₀ heap' ⟨some b, some b⟩ [(item, key)] :=
  h.holds_cons hb h.seg.symm hcell rfl

theorem Represents.returns_storeLast {heap' : Heap (ListElement α)} {b : Nat} {item : α} {key : Int}
    (h : Represents heap₀ heap list cells) (hcells : cells ≠ []) (hb : heap.cell b = none)
    (hcell : heap'.cell = update heap.cell b (some (.new item key)))
    : Returns (store list.last fun e => { e with next := some b }) heap' (fun _ heap'' =>
        Holds heap₀ heap'' { list with last := some b } (cells.map entry ++ [(item, key)])) := by
  obtain ⟨front, ⟨a, v⟩, rfl⟩ := List.eq_nil_or_concat cells |>.resolve_left hcells
  rw [List.concat_eq_append] at h ⊢
  have hlast : list.last = some a := by
    rw [h.last]
    simp
  have hold := h.cell_of_mem (a := a) (v := v) hb hcell (by simp)
  rw [hlast, Heap.returns_store _ hold.2]
  refine ⟨front ++ [(a, { v with next := some b }), (b, .new item key)], ?_, by simp [entry, ListElement.new]⟩
  apply h.insertAfter hb h.seg.next_last.symm rfl
  . rw [Heap.cell_set, hcell]
  . simp

theorem Represents.returns_storeFirst {heap' : Heap (ListElement α)} {b : Nat} {item : α} {key : Int}
    (h : Represents heap₀ heap list cells) (hcells : cells ≠ []) (hb : heap.cell b = none)
    (hcell : heap'.cell = update heap.cell b (some (.new item key)))
    : Returns (store (some b) fun e => { e with next := list.first }) heap' (fun _ heap'' =>
        Holds heap₀ heap'' { list with first := some b } ((item, key) :: cells.map entry)) := by
  rw [Heap.returns_store _ (v := .new item key) (by rw [hcell, Function.update_self])]
  apply h.holds_cons (n := { ListElement.new item key with next := list.first }) hb rfl
  . rw [Heap.cell_set, hcell, Function.update_idem]
  . obtain ⟨first, rest, rfl⟩ := List.exists_cons_of_ne_nil hcells
    rw [h.last, List.map_cons, List.getLast?_cons_cons]

theorem Represents.returns_link (h : Represents heap₀ heap list cells) {item : α} {key : Int}
    {link : Nat → M α LinkedList} {entries : List (α × Int)} (hnil : cells = [] → entries = [(item, key)])
    (hlink : cells ≠ [] → ∀ b heap', heap.cell b = none →
      heap'.cell = update heap.cell b (some (.new item key)) →
      Returns (link b) heap' (fun list' heap'' => Holds heap₀ heap'' list' entries))
    : Returns (do
        let element ← alloc allocator (.new item key)
        if list.isEmpty then
          return { first := some element, last := some element }
        else
          link element) heap (fun list' heap' => Holds heap₀ heap' list' entries) := by
  rw [returns_bind]
  apply Heap.returns_alloc
  intro b heap' hb hcell
  by_cases hcells : cells = []
  . rw [if_pos (h.isEmpty_iff.mpr hcells), returns_pure, hnil hcells]
    subst hcells
    exact h.holds_singleton hb hcell
  . rw [if_neg (mt h.isEmpty_iff.mp hcells)]
    exact hlink hcells b heap' hb hcell

theorem returns_append (allocator : Allocator) (h : Represents heap₀ heap list cells) (item : α)
    : Returns (append allocator list item) heap (fun list' heap' =>
        Holds heap₀ heap' list' (cells.map entry ++ [(item, 0)])) := by
  apply h.returns_link
  . rintro rfl
    rfl
  . intro hcells b heap' hb hcell
    apply (h.returns_storeLast hcells hb hcell).bind
    intro _ heap'' hholds
    rw [returns_pure]
    exact hholds

theorem returns_prepend (allocator : Allocator) (h : Represents heap₀ heap list cells) (item : α)
    : Returns (prepend allocator list item) heap (fun list' heap' =>
        Holds heap₀ heap' list' ((item, 0) :: cells.map entry)) := by
  apply h.returns_link
  . rintro rfl
    rfl
  . intro hcells b heap' hb hcell
    apply (h.returns_storeFirst hcells hb hcell).bind
    intro _ heap'' hholds
    rw [returns_pure]
    exact hholds

theorem Represents.returns_storeMiddle {heap' : Heap (ListElement α)} {b : Nat} {item : α} {key : Int}
    {front back : List (Nat × ListElement α)} {a : Nat} {v : ListElement α} {e : Nat × ListElement α}
    (h : Represents heap₀ heap list (front ++ (a, v) :: e :: back)) (hb : heap.cell b = none)
    (hcell : heap'.cell = update heap.cell b (some (.new item key)))
    : Returns (store (some b) fun e => { e with next := v.next }) heap' (fun _ heap₁ =>
        Returns (store (some a) fun e => { e with next := some b }) heap₁ (fun _ heap₂ =>
          Holds heap₀ heap₂ list
            ((front ++ [(a, v)]).map entry ++ (item, key) :: (e :: back).map entry))) := by
  have hnew : heap'.cell b = some (.new item key) := by rw [hcell, Function.update_self]
  have hold := h.cell_of_mem (a := a) (v := v) hb hcell (by simp)
  have hold' : (heap'.set b { ListElement.new item key with next := v.next }).cell a = some v := by
    rw [Heap.cell_set, Function.update_of_ne hold.1]
    exact hold.2
  rw [Heap.returns_store _ hnew, Heap.returns_store _ hold']
  refine ⟨front ++ (a, { v with next := some b }) ::
    (b, { ListElement.new item key with next := v.next }) :: e :: back, ?_, by simp [entry, ListElement.new]⟩
  apply h.insertAfter (n := { ListElement.new item key with next := v.next }) hb rfl rfl
  . rw [Heap.cell_set, Heap.cell_set, hcell, Function.update_idem]
  . rw [h.last]
    simp

theorem returns_insertLoop {heap' : Heap (ListElement α)} {b : Nat} {item : α} {sortKey : Int}
    (hb : heap.cell b = none) (hcell : heap'.cell = update heap.cell b (some (.new item sortKey)))
    {front back : List (Nat × ListElement α)} {a : Nat} {v : ListElement α} {numCells : Nat}
    (h : Represents heap₀ heap list (front ++ (a, v) :: back))
    (hfront : ∀ e ∈ front ++ [(a, v)], e.2.key ≤ sortKey) (hlength : back.length < numCells)
    : Returns (insertLoop b sortKey numCells (some a)) heap' (fun returned heap'' =>
        if returned then
          Holds heap₀ heap'' list
            (Priority.insert Prod.snd (item, sortKey) ((front ++ (a, v) :: back).map entry))
        else
          heap'' = heap' ∧ ∀ e ∈ front ++ (a, v) :: back, e.2.key ≤ sortKey) := by
  -- The keys up to `a` are not bigger than `sortKey`. The induction is on the cells behind `a`.
  induction back generalizing front a v numCells with
  | nil =>
    obtain ⟨numCells, rfl⟩ := Nat.exists_eq_add_of_lt hlength
    have hold := h.cell_of_mem (a := a) (v := v) hb hcell (by simp)
    unfold insertLoop
    rw [returns_bind, Heap.returns_load hold.2]
    dsimp only
    rw [if_pos h.seg.next_last, returns_pure]
    exact ⟨rfl, hfront⟩
  | cons e back ih =>
    obtain ⟨c, u⟩ := e
    have hnext := h.seg.next_cons
    obtain ⟨numCells, rfl⟩ := Nat.exists_eq_add_of_lt hlength
    have hold := h.cell_of_mem (a := a) (v := v) hb hcell (by simp)
    have hold' := h.cell_of_mem (a := c) (v := u) hb hcell (by simp)
    unfold insertLoop
    rw [returns_bind, Heap.returns_load hold.2]
    dsimp only
    rw [hnext, if_neg (by simp), returns_bind, Heap.returns_load hold'.2]
    split
    next hlt =>
      have hmiddle := h.returns_storeMiddle hb hcell
      rw [hnext] at hmiddle
      apply hmiddle.bind
      intro _ heap₁ hstore
      apply hstore.bind
      intro _ heap₂ hholds
      rw [returns_pure, if_pos rfl, List.append_cons, List.map_append, Priority.insert_append]
      . exact hholds
      . rw [List.forall_mem_map]
        exact hfront
      . intro y hy
        cases hy
        exact hlt
    next hge =>
      rw [List.append_cons] at h ⊢
      apply ih h
      . rw [List.forall_mem_append, List.forall_mem_singleton]
        exact ⟨hfront, Int.not_lt.mp hge⟩
      . simp only [List.length_cons] at hlength ⊢
        omega

theorem returns_sortedInsert (allocator : Allocator) (h : Represents heap₀ heap list cells) (item : α)
    (sortKey : Int)
    : Returns (sortedInsert allocator list item sortKey) heap (fun list' heap' =>
        Holds heap₀ heap' list' (Priority.insert Prod.snd (item, sortKey) (cells.map entry))) := by
  apply h.returns_link
  . rintro rfl
    rfl
  . intro hcells b heap' hb hcell
    obtain ⟨⟨a, v⟩, back, rfl⟩ := List.exists_cons_of_ne_nil hcells
    have hold := h.cell_of_mem (a := a) (v := v) hb hcell List.mem_cons_self
    rw [h.seg.1, returns_bind, Heap.returns_load hold.2]
    split
    next hlt =>
      have hfirst := h.returns_storeFirst hcells hb hcell
      rw [h.seg.1] at hfirst
      apply hfirst.bind
      intro _ heap'' hholds
      rw [returns_pure, List.map_cons, Priority.insert_cons, if_pos (by exact hlt)]
      exact hholds
    next hge =>
      have hfirst : ∀ e ∈ [] ++ [(a, v)], e.2.key ≤ sortKey := by
        simpa using hge
      have hseg : Seg ListElement.next heap'.cell list.first ((a, v) :: back) none := by
        rw [hcell]
        exact h.seg.update (h.seg.notMem hb) _
      have h' : Represents heap₀ heap list ([] ++ (a, v) :: back) := h
      rw [returns_bind, returns_read]
      apply (returns_insertLoop hb hcell h' hfirst hseg.length_le).bind
      intro returned heap'' hloop
      cases returned with
      | true =>
        rw [if_pos rfl, returns_pure]
        exact hloop
      | false =>
        obtain ⟨rfl, hkeys⟩ := hloop
        rw [if_neg Bool.false_ne_true]
        apply (h.returns_storeLast hcells hb hcell).bind
        intro _ heap'' hholds
        rw [returns_pure, ← h.seg.1, Priority.insert_of_le]
        . exact hholds
        . rw [List.forall_mem_map]
          exact hkeys

theorem returns_sortedRemove_nil (h : Represents heap₀ heap list []) (keyPtr : Option Int)
    {value : LinkedList × Option α × Option Int → Heap (ListElement α) → Prop}
    : Returns (sortedRemove list keyPtr) heap value ↔ value (list, none, keyPtr) heap := by
  unfold sortedRemove
  dsimp only
  rw [if_pos (h.isEmpty_iff.mpr rfl), returns_pure]

theorem returns_unlink {e : Nat × ListElement α} (h : Represents heap₀ heap list (e :: cells))
    : Returns (unlink list (some e.1) : M α LinkedList) heap (fun list' heap' =>
        heap' = heap ∧ list' = ⟨e.2.next, (cells.map Prod.fst).getLast?⟩) := by
  unfold unlink
  by_cases hcells : cells = []
  . rw [if_pos (h.first_eq_last_iff.mpr hcells), returns_pure]
    subst hcells
    have hnext : none = e.2.next := h.seg.2.2.symm
    exact ⟨rfl, by rw [← hnext]; rfl⟩
  . rw [if_neg (mt h.first_eq_last_iff.mp hcells), returns_bind, Heap.returns_load h.seg.2.1, returns_pure,
      h.last]
    obtain ⟨e', rest, rfl⟩ := List.exists_cons_of_ne_nil hcells
    exact ⟨rfl, rfl⟩

theorem returns_storeKey {a : Nat} {v : ListElement α} (keyPtr : Option Int) (hv : heap.cell a = some v)
    {value : Option Int → Heap (ListElement α) → Prop}
    : Returns (storeKey keyPtr (some a)) heap value ↔ value (keyPtr.map fun _ => v.key) heap := by
  cases keyPtr with
  | none => exact returns_pure _
  | some key =>
    unfold storeKey
    rw [returns_bind, Heap.returns_load hv, returns_pure]
    rfl

theorem returns_sortedRemove_cons {e : Nat × ListElement α} (h : Represents heap₀ heap list (e :: cells))
    (keyPtr : Option Int)
    : Returns (sortedRemove list keyPtr) heap (fun r heap' =>
        Represents heap₀ heap' r.1 cells ∧ r.2 = (some e.2.item, keyPtr.map fun _ => e.2.key)) := by
  have he : heap.cell e.1 = some e.2 := h.seg.2.1
  unfold sortedRemove
  dsimp only
  rw [if_neg (mt h.isEmpty_iff.mp (List.cons_ne_nil _ _)), h.seg.1, returns_bind, Heap.returns_load he]
  apply (returns_unlink h).bind
  intro list' heap' ⟨hheap, hlist⟩
  subst hheap
  rw [returns_bind, returns_storeKey keyPtr he, returns_bind, Heap.returns_free he, returns_pure, hlist]
  exact ⟨h.tail rfl rfl, rfl⟩

theorem returns_removeLoop {numCells : Nat} (h : Represents heap₀ heap list cells)
    (hlength : cells.length < numCells)
    : Returns (removeLoop numCells list : M α LinkedList) heap (fun list' heap' =>
        list'.isEmpty = true ∧ heap'.cell = heap₀.cell) := by
  induction cells generalizing heap list numCells with
  | nil =>
    obtain ⟨numCells, rfl⟩ := Nat.exists_eq_add_of_lt hlength
    unfold removeLoop remove
    rw [returns_bind, returns_bind, returns_sortedRemove_nil h, returns_pure, returns_pure]
    exact ⟨h.isEmpty_iff.mpr rfl, funext fun a => h.others a List.not_mem_nil⟩
  | cons e cells ih =>
    obtain ⟨numCells, rfl⟩ := Nat.exists_eq_add_of_lt hlength
    unfold removeLoop remove
    rw [returns_bind, returns_bind]
    apply (returns_sortedRemove_cons h none).mono
    intro (list', r) heap' ⟨hrepresents, hr⟩
    cases hr
    rw [returns_pure]
    apply ih hrepresents
    simp only [List.length_cons] at hlength ⊢
    omega

theorem returns_destroy (h : Represents heap₀ heap list cells)
    : Returns (destroy list : M α LinkedList) heap (fun list' heap' =>
        list'.isEmpty = true ∧ heap'.cell = heap₀.cell) := by
  unfold destroy
  rw [returns_bind, returns_read]
  exact returns_removeLoop h (Nat.lt_succ_of_le h.seg.length_le)

end

/-! ### Sequences of calls -/

inductive Call (α : Type) where
  | append (item : α)
  | prepend (item : α)
  | remove
  | sortedInsert (item : α) (sortKey : Int)
  | sortedRemove (keyPtr : Option Int)
  deriving DecidableEq, Repr

inductive Answer (α : Type) where
  | done
  | item (thing : Option α) (keyPtr : Option Int)
  deriving DecidableEq, Repr

def Answer.thing : Answer α → Option α
  | .done => none
  | .item thing _ => thing

def Call.isSorted : Call α → Bool
  | .sortedInsert _ _ | .sortedRemove _ => true
  | _ => false

section

variable {α : Type} (allocator : Allocator)

def perform (list : LinkedList) : Call α → M α (LinkedList × Answer α)
  | .append item => do return (← append allocator list item, .done)
  | .prepend item => do return (← prepend allocator list item, .done)
  | .remove => do
    let (list, thing) ← remove list
    return (list, .item thing none)
  | .sortedInsert item sortKey => do return (← sortedInsert allocator list item sortKey, .done)
  | .sortedRemove keyPtr => do
    let (list, thing, keyPtr) ← sortedRemove list keyPtr
    return (list, .item thing keyPtr)

def run (calls : List (Call α)) : M α (LinkedList × List (Call α × Answer α)) :=
  Exit.calls (perform allocator) empty calls

end

/--
What the list is for: a sequence of items with their keys. All that was put in and all that was taken out is
recorded, in the order of the calls.
-/
structure Items (α : Type) where
  entries : List (α × Int)
  inserted : List (α × Int)
  removed : List (α × Int)

namespace Items

open Transition

variable {α : Type}

def empty : Items α where
  entries := []
  inserted := []
  removed := []

def takeFirst (s : Items α) (keyPtr : Option Int) : Items α × Answer α :=
  match s.entries with
  | [] => (s, .item none keyPtr)
  | (item, key) :: rest =>
    ({ s with entries := rest, removed := s.removed ++ [(item, key)] },
      .item (some item) (keyPtr.map fun _ => key))

theorem takeFirst_none (s : Items α) : ∃ thing, (s.takeFirst none).2 = .item thing none := by
  unfold takeFirst
  split
  next => exact ⟨none, rfl⟩
  next item key rest _ => exact ⟨some item, rfl⟩

def step (s : Items α) : Call α → Items α × Answer α
  | .append item =>
    ({ s with entries := s.entries ++ [(item, 0)], inserted := s.inserted ++ [(item, 0)] }, .done)
  | .prepend item =>
    ({ s with entries := (item, 0) :: s.entries, inserted := s.inserted ++ [(item, 0)] }, .done)
  | .remove => s.takeFirst none
  | .sortedInsert item sortKey =>
    ({ s with
        entries := Priority.insert Prod.snd (item, sortKey) s.entries
        inserted := s.inserted ++ [(item, sortKey)] }, .done)
  | .sortedRemove keyPtr => s.takeFirst keyPtr

def Step (s : Items α) (e : Call α × Answer α) (s' : Items α) : Prop :=
  s.step e.1 = (s', e.2)

section

variable {s s' : Items α} {events : List (Call α × Answer α)}

inductive Change (sorted : Bool) (s : Items α) : Answer α → Items α → Prop where
  | insert (x : α × Int) (entries : List (α × Int)) (hperm : entries.Perm (x :: s.entries))
      (hsorted : sorted = true → entries = Priority.insert Prod.snd x s.entries)
    : Change sorted s .done { s with entries := entries, inserted := s.inserted ++ [x] }
  | nothing (keyPtr : Option Int)
    : Change sorted s (.item none keyPtr) s
  | take (x : α × Int) (rest : List (α × Int)) (keyPtr : Option Int) (hentries : s.entries = x :: rest)
    : Change sorted s (.item (some x.1) keyPtr) { s with entries := rest, removed := s.removed ++ [x] }

theorem takeFirst_change (sorted : Bool) (s : Items α) (keyPtr : Option Int)
    : Change sorted s (s.takeFirst keyPtr).2 (s.takeFirst keyPtr).1 := by
  unfold takeFirst
  split
  next => exact .nothing keyPtr
  next item key rest hentries => exact .take (item, key) rest _ hentries

theorem Step.change {call : Call α} {answer : Answer α} (h : Step s (call, answer) s')
    : Change call.isSorted s answer s' := by
  cases call with
  | append item =>
    cases h
    exact .insert (item, 0) _ (List.perm_append_singleton _ _) (fun hsorted => by cases hsorted)
  | prepend item =>
    cases h
    exact .insert (item, 0) _ (.refl _) (fun hsorted => by cases hsorted)
  | sortedInsert item sortKey =>
    cases h
    exact .insert (item, sortKey) _ (Priority.insert_perm _ _) (fun _ => rfl)
  | remove =>
    have hchange := takeFirst_change (Call.isSorted (.remove : Call α)) s none
    rwa [show s.takeFirst none = _ from h] at hchange
  | sortedRemove keyPtr =>
    have hchange := takeFirst_change (Call.isSorted (.sortedRemove keyPtr : Call α)) s keyPtr
    rwa [show s.takeFirst keyPtr = _ from h] at hchange

theorem perm_of_trace (h : Trace Step empty events s) : s.inserted.Perm (s.removed ++ s.entries) := by
  induction h with
  | nil => exact .refl _
  | @snoc s₁ s₂ events e _ hlast ih =>
    obtain ⟨call, answer⟩ := e
    cases hlast.change with
    | insert x entries hperm =>
      calc (s₁.inserted ++ [x]).Perm (s₁.removed ++ s₁.entries ++ [x]) := ih.append_right [x]
        _ = s₁.removed ++ (s₁.entries ++ [x]) := List.append_assoc ..
        List.Perm _ (s₁.removed ++ entries) := by
          apply List.Perm.append_left
          exact (List.perm_append_singleton x s₁.entries).trans hperm.symm
    | nothing => exact ih
    | take x rest keyPtr hentries =>
      rw [hentries] at ih
      simpa using ih

theorem things_of_trace (h : Trace Step empty events s)
    : events.filterMap (fun e => e.2.thing) = s.removed.map Prod.fst := by
  induction h with
  | nil => rfl
  | @snoc s₁ s₂ events e _ hlast ih =>
    obtain ⟨call, answer⟩ := e
    rw [List.filterMap_append, ih]
    cases hlast.change with
    | insert => exact List.append_nil _
    | nothing => exact List.append_nil _
    | take x rest keyPtr hentries =>
      rw [List.map_append]
      rfl

structure Ordered (s : Items α) : Prop where
  sorted : s.entries.Pairwise fun x y => x.2 ≤ y.2
  stable : ∀ key, (s.removed ++ s.entries).filter (·.2 = key) = s.inserted.filter (·.2 = key)

theorem ordered_of_trace (h : Trace Step empty events s) (hsorted : ∀ e ∈ events, e.1.isSorted = true)
    : s.Ordered := by
  induction h with
  | nil => exact ⟨.nil, fun _ => rfl⟩
  | @snoc s₁ s₂ events e _ hlast ih =>
    rw [List.forall_mem_append, List.forall_mem_singleton] at hsorted
    obtain ⟨hpairwise, hstable⟩ := ih hsorted.1
    obtain ⟨call, answer⟩ := e
    cases hlast.change with
    | insert x entries _ hinsert =>
      obtain rfl := hinsert hsorted.2
      refine ⟨Priority.insert_sorted x hpairwise, ?_⟩
      intro key
      dsimp only
      rw [List.filter_append, Priority.filter_insert key x hpairwise, ← List.filter_append, ← List.append_assoc,
        List.filter_append, hstable key, List.filter_append]
    | nothing => exact ⟨hpairwise, hstable⟩
    | take x rest keyPtr hentries =>
      rw [hentries] at hpairwise hstable
      exact ⟨(List.pairwise_cons.mp hpairwise).2, by simpa using hstable⟩

end

end Items

/-! ### The list is the sequence -/

section

open Exit Transition

variable {α : Type} {allocator : Allocator} {heap₀ heap : Heap (ListElement α)} {list : LinkedList}
  {cells : List (Nat × ListElement α)}

theorem returns_takeFirst (h : Represents heap₀ heap list cells) {s : Items α} (hs : cells.map entry = s.entries)
    (keyPtr : Option Int)
    : Returns (sortedRemove list keyPtr) heap (fun r heap' =>
        (s.takeFirst keyPtr).2 = .item r.2.1 r.2.2 ∧ Holds heap₀ heap' r.1 (s.takeFirst keyPtr).1.entries) := by
  unfold Items.takeFirst
  cases cells with
  | nil =>
    rw [returns_sortedRemove_nil h, ← hs]
    exact ⟨rfl, [], h, hs⟩
  | cons e cells =>
    apply (returns_sortedRemove_cons h keyPtr).mono
    intro r heap' ⟨hrepresents, hr⟩
    rw [← hs, hr]
    exact ⟨rfl, cells, hrepresents, rfl⟩

theorem returns_done {x : M α LinkedList} {s s' : Items α} {call : Call α}
    (h : Returns x heap (fun list' heap' => Holds heap₀ heap' list' s'.entries)) (hstep : s.step call = (s', .done))
    : Returns (do return (← x, .done)) heap (fun r heap' =>
        ∃ s', Items.Step s (call, r.2) s' ∧ Holds heap₀ heap' r.1 s'.entries) := by
  apply h.bind
  intro list' heap' hholds
  rw [returns_pure]
  exact ⟨s', hstep, hholds⟩

theorem returns_perform {s : Items α} (h : Holds heap₀ heap list s.entries) (call : Call α)
    : Returns (perform allocator list call) heap (fun r heap' =>
        ∃ s', Items.Step s (call, r.2) s' ∧ Holds heap₀ heap' r.1 s'.entries) := by
  obtain ⟨cells, hrepresents, hs⟩ := h
  cases call with
  | append item =>
    have happend := returns_append allocator hrepresents item
    rw [hs] at happend
    exact returns_done happend rfl
  | prepend item =>
    have hprepend := returns_prepend allocator hrepresents item
    rw [hs] at hprepend
    exact returns_done hprepend rfl
  | sortedInsert item sortKey =>
    have hinsert := returns_sortedInsert allocator hrepresents item sortKey
    rw [hs] at hinsert
    exact returns_done hinsert rfl
  | remove =>
    unfold perform remove
    rw [returns_bind, returns_bind]
    apply (returns_takeFirst hrepresents hs none).mono
    intro r heap' ⟨hanswer, hholds⟩
    obtain ⟨thing, hthing⟩ := s.takeFirst_none
    obtain ⟨hitem, _⟩ := Answer.item.inj (hthing.symm.trans hanswer)
    rw [hitem] at hthing
    rw [returns_pure, returns_pure]
    exact ⟨_, Prod.ext rfl hthing, hholds⟩
  | sortedRemove keyPtr =>
    unfold perform
    apply (returns_takeFirst hrepresents hs keyPtr).bind
    intro r heap' ⟨hanswer, hholds⟩
    rw [returns_pure]
    exact ⟨_, Prod.ext rfl hanswer, hholds⟩

theorem list_represents_sequence (allocator : Allocator) (heap : Heap (ListElement α)) (calls : List (Call α))
    : Returns (run allocator calls) heap (fun r heap' =>
        r.2.map Prod.fst = calls ∧
        ∃ s cells,
          Trace Items.Step .empty r.2 s ∧
          Represents heap heap' r.1 cells ∧
          cells.map entry = s.entries ∧
          (cells.map Prod.fst).Nodup ∧
          (r.1.first = none ↔ cells = []) ∧
          (r.1.last = none ↔ cells = []) ∧
          r.2.filterMap (fun e => e.2.thing) = s.removed.map Prod.fst ∧
          s.inserted.Perm (s.removed ++ s.entries) ∧
          ((∀ call ∈ calls, call.isSorted = true) → s.Ordered)) := by
  have hempty : Holds heap heap empty Items.empty.entries := ⟨[], .empty heap, rfl⟩
  have hlegal : ∀ call ∈ calls, True := fun _ _ => trivial
  apply (returns_calls (fun list heap' s => Holds heap heap' list s.entries) Items.Step
    (fun list s call heap' _ h => returns_perform h call) hempty hlegal).mono
  intro r heap' ⟨hcalls, s, htrace, cells, hrepresents, hs⟩
  refine ⟨hcalls, s, cells, htrace, hrepresents, hs, hrepresents.seg.nodup, hrepresents.seg.eq_none_iff,
    hrepresents.last_eq_none_iff, Items.things_of_trace htrace, Items.perm_of_trace htrace, ?_⟩
  intro hsorted
  apply Items.ordered_of_trace htrace
  rw [← hcalls, List.forall_mem_map] at hsorted
  exact hsorted

example
    : (run Allocator.above [.sortedInsert 'a' 5, .sortedInsert 'b' 3, .sortedInsert 'c' 5, .append 'd',
        .sortedRemove (some 0), .remove, .prepend 'e', .remove, .sortedRemove (some 0), .remove, .remove]
          .empty).toOption.map (fun r => r.1.map fun r => r.2.filterMap fun e => e.2.thing) =
        some (some ['b', 'a', 'e', 'c', 'd']) := by
  decide

end

/-! ### The queue of the pending interrupts -/

def pendingEntry (item : PendingInterrupt H) : PendingInterrupt H × Int :=
  (item, item.when)

theorem sortedInsert_entries (s : Items (PendingInterrupt H)) {pending : List (PendingInterrupt H)}
    (h : s.entries = pending.map pendingEntry) (item : PendingInterrupt H)
    : (s.step (.sortedInsert item item.when)).1.entries = (Nachos.sortedInsert item pending).map pendingEntry := by
  change Priority.insert Prod.snd (pendingEntry item) s.entries = _
  rw [h]
  clear h
  induction pending with
  | nil => rfl
  | cons first rest ih =>
    rw [List.map_cons, Priority.insert_cons, Nachos.sortedInsert, ih]
    simp only [pendingEntry, Int.ofNat_lt]
    split <;> rfl

end LinkedList

end Nachos
