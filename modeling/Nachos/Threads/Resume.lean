import Nachos.Lib.Transition
import Nachos.Threads.Switch

/-!
This module contains the threads as the i386 sees them: every thread has an object and a stack in the memory, and
there is one set of registers. A thread that is switched away from finds its registers and its stack again when it
is switched to.
-/

namespace Nachos

namespace Switch

open I386

structure Symbols where
  switch : BitVec 32
  eaxSave : BitVec 32
  threadRoot : BitVec 32
  interruptEnable : BitVec 32
  threadFinish : BitVec 32

/-! ### `Thread::StackAllocate` -/

def stackSize : Nat := 4 * 1024

def stackFencepost : BitVec 32 := 0xdeadbeef

def initialStackTop (stack : BitVec 32) : BitVec 32 :=
  stack + BitVec.ofNat 32 (4 * (stackSize - 4)) - 4

def initialFrame (sym : Symbols) (stack : BitVec 32) : List (BitVec 32 × BitVec 32) := [
  (initialStackTop stack, sym.threadRoot),
  (stack, stackFencepost)]

def initialState (sym : Symbols) (t func arg : BitVec 32) : List (BitVec 32 × BitVec 32) := [
  (t + pcOffset, sym.threadRoot),
  (t + offset .ecx, sym.interruptEnable),
  (t + offset .esi, func),
  (t + offset .edx, arg),
  (t + offset .edi, sym.threadFinish)]

def stackAllocate (sym : Symbols) (m : Ram) (t stack func arg : BitVec 32) : Ram :=
  ((m.store (t + offset .esp) (initialStackTop stack)).storeAll (initialFrame sym stack)).storeAll
    (initialState sym t func arg)

theorem initialStackTop_eq (stack : BitVec 32) : initialStackTop stack = stack + 16364 := by
  unfold initialStackTop stackSize
  bv_omega

theorem initialFrame_subset (sym : Symbols) (stack : BitVec 32)
    : ∀ e ∈ initialFrame sym stack, Ram.bytes e.1 ⊆ Ram.area stack (4 * stackSize) := by
  unfold initialFrame
  rw [List.forall_mem_cons, List.forall_mem_singleton, initialStackTop_eq]
  exact ⟨Ram.area_add_subset (by decide), Ram.area_subset (by decide)⟩

theorem pairwise_initialFrame (sym : Symbols) (stack : BitVec 32)
    : (initialFrame sym stack).Pairwise fun e e' => Disjoint (Ram.bytes e.1) (Ram.bytes e'.1) := by
  unfold initialFrame
  rw [List.pairwise_pair, initialStackTop_eq]
  exact (Ram.disjoint_bytes_add (by decide) (by decide)).symm

theorem initialState_subset (sym : Symbols) (t func arg : BitVec 32)
    : ∀ e ∈ initialState sym t func arg, Ram.bytes e.1 ⊆ saveArea t := by
  unfold initialState
  simp only [List.forall_mem_cons, bytes_subset_saveArea, bytes_pc_subset_saveArea, true_and]
  exact fun _ h => absurd h List.not_mem_nil

theorem pairwise_initialState (sym : Symbols) (t top func arg : BitVec 32)
    : ((t + offset .esp, top) :: initialState sym t func arg).Pairwise
        fun e e' => Disjoint (Ram.bytes e.1) (Ram.bytes e'.1) := by
  rw [← List.pairwise_map (f := Prod.fst) (R := fun x y => Disjoint (Ram.bytes x) (Ram.bytes y))]
  have hoffsets : [offset .esp, pcOffset, offset .ecx, offset .esi, offset .edx, offset .edi].Pairwise
      fun k l => k.toNat + 4 ≤ l.toNat ∨ l.toNat + 4 ≤ k.toNat := by decide
  have hend : ∀ k ∈ [offset .esp, pcOffset, offset .ecx, offset .esi, offset .edx, offset .edi],
      k.toNat + 4 ≤ 36 := by
    simp [offset, pcOffset]
  exact Ram.pairwise_disjoint_words t (by omega) hoffsets hend

section

variable {sym : Symbols} {m : Ram} {t stack func arg : BitVec 32}

theorem stackAllocate_of_notMem {x : BitVec 32} (hsave : x ∉ saveArea t) (hstack : x ∉ Ram.area stack (4 * stackSize))
    : stackAllocate sym m t stack func arg x = m x := by
  unfold stackAllocate
  rw [Ram.storeAll_apply_of_notMem, Ram.storeAll_apply_of_notMem, Ram.store_apply_of_notMem]
  . exact fun hx => hsave (bytes_subset_saveArea t .esp hx)
  . exact fun e he hx => hstack (initialFrame_subset sym stack e he hx)
  . exact fun e he hx => hsave (initialState_subset sym t func arg e he hx)

theorem load_stackAllocate {a value : BitVec 32} (h : (a, value) ∈ initialState sym t func arg)
    : (stackAllocate sym m t stack func arg).load a = value :=
  Ram.load_storeAll _ (pairwise_initialState sym t 0 func arg).of_cons h

theorem load_stackAllocate_esp (hdisjoint : Disjoint (saveArea t) (Ram.area stack (4 * stackSize)))
    : (stackAllocate sym m t stack func arg).load (t + offset .esp) = initialStackTop stack := by
  unfold stackAllocate
  rw [Ram.load_storeAll_of_disjoint, Ram.load_storeAll_of_subset _ (initialFrame_subset sym stack), Ram.load_store]
  . exact (hdisjoint.mono_left (bytes_subset_saveArea t .esp)).symm
  . intro e he
    exact (List.rel_of_pairwise_cons (pairwise_initialState sym t 0 func arg) he).symm

theorem load_stackAllocate_top (hdisjoint : Disjoint (saveArea t) (Ram.area stack (4 * stackSize)))
    : (stackAllocate sym m t stack func arg).load (initialStackTop stack) = sym.threadRoot := by
  unfold stackAllocate
  have htop : (initialStackTop stack, sym.threadRoot) ∈ initialFrame sym stack := List.mem_cons_self
  rw [Ram.load_storeAll_of_subset _ (initialState_subset sym t func arg),
    Ram.load_storeAll _ (pairwise_initialFrame sym stack) htop]
  have hsubset := initialFrame_subset sym stack _ htop
  exact hdisjoint.mono_right hsubset

end

/-! ### The threads -/

/--
The threads that exist and their stacks. What belongs to none of them is shared.
-/
structure Layout (eaxSave : BitVec 32) where
  threads : Set (BitVec 32)
  stack : BitVec 32 → Set (BitVec 32)
  disjoint : threads.PairwiseDisjoint fun t => saveArea t ∪ stack t
  save_stack : ∀ t ∈ threads, Disjoint (saveArea t) (stack t)
  disjoint_eaxSave : ∀ t ∈ threads, Disjoint (saveArea t ∪ stack t) (Ram.bytes eaxSave)

def Layout.owned {eaxSave : BitVec 32} (l : Layout eaxSave) (t : BitVec 32) : Set (BitVec 32) :=
  saveArea t ∪ l.stack t

structure State (sym : Symbols) extends Cpu where
  layout : Layout sym.eaxSave
  current : BitVec 32
  current_mem : current ∈ layout.threads

variable {sym : Symbols}

structure Calls (s : State sym) (next : BitVec 32) : Prop where
  eip : s.eip = sym.switch
  old : s.ram.load (s.regs .esp + 4) = s.current
  new : s.ram.load (s.regs .esp + 8) = next
  next_mem : next ∈ s.layout.threads
  frame : Ram.area (s.regs .esp) 12 ⊆ s.layout.stack s.current

def State.switch (s : State sym) (next : BitVec 32) (h : Calls s next) : State sym where
  toCpu := run sym.eaxSave s.toCpu
  layout := s.layout
  current := next
  current_mem := h.next_mem

structure Forks (s : State sym) (t stack func arg : BitVec 32) (s' : State sym) : Prop where
  fresh : t ∉ s.layout.threads
  threads : s'.layout.threads = insert t s.layout.threads
  stack_new : s'.layout.stack t = Ram.area stack (4 * stackSize)
  stack_old : ∀ u ∈ s.layout.threads, s'.layout.stack u = s.layout.stack u
  current : s'.current = s.current
  ram : s'.ram = stackAllocate sym s.ram t stack func arg

structure Deletes (s : State sym) (t : BitVec 32) (s' : State sym) : Prop where
  ne_current : t ≠ s.current
  threads : s'.layout.threads = s.layout.threads \ {t}
  stack : ∀ u ∈ s'.layout.threads, s'.layout.stack u = s.layout.stack u
  current : s'.current = s.current
  ram : s'.ram = s.ram

/--
What the running thread does is up to it as long as it leaves alone what belongs to the others.
-/
inductive Step : State sym → State sym → Prop where
  | compute {s : State sym} {cpu : Cpu}
      (h : ∀ t ∈ s.layout.threads, t ≠ s.current → ∀ x ∈ s.layout.owned t, cpu.ram x = s.ram x)
    : Step s { s with toCpu := cpu }
  | switch {s : State sym} {next : BitVec 32} (h : Calls s next) : Step s (s.switch next h)
  | fork {s s' : State sym} {t stack func arg : BitVec 32} (h : Forks s t stack func arg s') : Step s s'
  | delete {s s' : State sym} {t : BitVec 32} (h : Deletes s t s') : Step s s'

def Start (s : State sym) : Prop :=
  s.layout.threads = {s.current}

def Reachable : State sym → Prop :=
  Transition.Reachable Start Step

/--
Steps during which `t` exists and does not run, except that the last one may be the switch to `t`.
-/
inductive Until (t : BitVec 32) : State sym → State sym → Prop where
  | refl {s : State sym} : Until t s s
  | tail {s s' s'' : State sym} (h : Until t s s') (hne : s'.current ≠ t) (hstep : Step s' s'')
      (hmem : t ∈ s''.layout.threads)
    : Until t s s''

/-! ### Parked threads -/

structure Keeps {eaxSave : BitVec 32} (l : Layout eaxSave) (m : Ram) (t : BitVec 32) (k : Data) : Prop where
  regs : ∀ r, m.load (t + offset r) = k.regs r
  stack : ∀ x ∈ l.stack t, m x = k.ram x
  frame : Ram.area (k.regs .esp) 12 ⊆ l.stack t

structure Parked (s : State sym) (t : BitVec 32) (k : Data) : Prop where
  mem : t ∈ s.layout.threads
  ne_current : t ≠ s.current
  keeps : Keeps s.layout s.ram t k

/--
The thread `t` runs as if the call of `SWITCH` had done nothing. The place of its first argument is not part of the
stack any more that the caller relies on.
-/
structure Resumed (s : State sym) (t : BitVec 32) (k : Data) : Prop where
  current : s.current = t
  regs : ∀ r, r ≠ .esp → s.regs r = k.regs r
  esp : s.regs .esp = k.regs .esp + 4
  eip : s.eip = k.ram.load (k.regs .esp)
  stack : ∀ x ∈ s.layout.stack t, x ∉ Ram.bytes (k.regs .esp + 4) → s.ram x = k.ram x

section

variable {eaxSave : BitVec 32} {l l' : Layout eaxSave} {m m' : Ram} {t u : BitVec 32} {k : Data}

theorem Keeps.congr (h : Keeps l m t k) (hstack : l'.stack t = l.stack t) (hm : ∀ x ∈ l.owned t, m' x = m x)
    : Keeps l' m' t k where
  regs := by
    intro r
    rw [← h.regs r]
    apply Ram.load_congr
    intro x hx
    exact hm x (.inl (bytes_subset_saveArea t r hx))
  stack := by
    intro x hx
    rw [hstack] at hx
    rw [hm x (.inr hx), h.stack x hx]
  frame := by
    rw [hstack]
    exact h.frame

theorem Keeps.bytes_subset (h : Keeps l m t k) {n : BitVec 32} (hn : n.toNat + 4 ≤ 12)
    : Ram.bytes (k.regs .esp + n) ⊆ l.stack t :=
  (Ram.area_add_subset hn).trans h.frame

theorem Layout.notMem_owned (l : Layout eaxSave) {x : BitVec 32} (ht : t ∈ l.threads) (hu : u ∈ l.threads)
    (hne : t ≠ u) (hx : x ∈ l.owned t)
    : x ∉ l.owned u :=
  Set.disjoint_left.1 (l.disjoint ht hu hne) hx

theorem Layout.notMem_eaxSave (l : Layout eaxSave) {x : BitVec 32} (ht : t ∈ l.threads) (hx : x ∈ l.owned t)
    : x ∉ Ram.bytes eaxSave :=
  Set.disjoint_left.1 (l.disjoint_eaxSave t ht) hx

end

variable {s s' : State sym} {t next : BitVec 32} {k : Data}

theorem Calls.called (h : Calls s next) : Called sym.eaxSave s.toData s.current next where
  old := h.old
  new := h.new
  frame_save := ((s.layout.save_stack _ s.current_mem).mono_right h.frame).symm
  frame_eax := (s.layout.disjoint_eaxSave _ s.current_mem).mono_left (h.frame.trans Set.subset_union_right)
  save_eax := (s.layout.disjoint_eaxSave _ s.current_mem).mono_left Set.subset_union_left

def Leaves (s : State sym) (t : BitVec 32) (k : Data) : Prop :=
  t = s.current ∧ k = s.toData ∨ Parked s t k

theorem Leaves.mem (h : Leaves s t k) : t ∈ s.layout.threads := by
  obtain ⟨rfl, -⟩ | h := h
  . exact s.current_mem
  . exact h.mem

theorem Calls.keeps_savedRam (h : Calls s next) (hk : Leaves s t k)
    : Keeps s.layout (savedRam sym.eaxSave s.toData s.current) t k := by
  obtain ⟨rfl, rfl⟩ | hk := hk
  . refine ⟨load_savedRam _ _ _, ?_, h.frame⟩
    intro x hx
    apply savedRam_of_notMem
    . exact Set.disjoint_right.1 (s.layout.save_stack _ s.current_mem) hx
    . exact s.layout.notMem_eaxSave s.current_mem (.inr hx)
  . apply hk.keeps.congr rfl
    intro x hx
    apply savedRam_of_notMem
    . intro hsave
      exact s.layout.notMem_owned hk.mem s.current_mem hk.ne_current hx (.inl hsave)
    . exact s.layout.notMem_eaxSave hk.mem hx

def Ready (s : State sym) : Prop :=
  ∀ t ∈ s.layout.threads, t ≠ s.current → ∃ k, Parked s t k

theorem Ready.leaves (h : Ready s) (ht : t ∈ s.layout.threads) : ∃ k, Leaves s t k := by
  by_cases hcurrent : t = s.current
  . exact ⟨s.toData, .inl ⟨hcurrent, rfl⟩⟩
  . obtain ⟨k, hk⟩ := h t ht hcurrent
    exact ⟨k, .inr hk⟩

theorem Calls.execAll_eq (h : Calls s next) (hk : Leaves s next k)
    : ∃ m : Ram, s.toData.execAll (saveCode sym.eaxSave ++ restoreCode sym.eaxSave) = ⟨k.regs, m⟩ ∧
        ∀ x, x ∉ Ram.bytes sym.eaxSave → x ∉ Ram.bytes (k.regs .esp + 4)
          → m x = savedRam sym.eaxSave s.toData s.current x := by
  have hkeeps := h.keeps_savedRam hk
  have hslot : Disjoint (Ram.bytes (k.regs .esp + 4)) (Ram.bytes sym.eaxSave) := by
    apply (s.layout.disjoint_eaxSave next h.next_mem).mono_left
    exact (hkeeps.bytes_subset (by decide)).trans Set.subset_union_right
  rw [← hkeeps.regs] at hslot
  rw [h.called.execAll_switch ((s.layout.disjoint_eaxSave next h.next_mem).mono_left Set.subset_union_left) hslot]
  simp only [hkeeps.regs]
  refine ⟨_, rfl, ?_⟩
  intro x heax hx
  rw [Ram.store_apply_of_notMem _ _ hx, Ram.store_apply_of_notMem _ _ heax]

theorem State.switch_eq (h : Calls s next) {m : Ram}
    (hrun : s.toData.execAll (saveCode sym.eaxSave ++ restoreCode sym.eaxSave) = ⟨k.regs, m⟩)
    : (s.switch next h).toCpu = ⟨⟨Function.update k.regs .esp (k.regs .esp + 4), m⟩, m.load (k.regs .esp)⟩ := by
  unfold State.switch run
  rw [hrun]
  rfl

theorem Calls.resumed (h : Calls s next) (hk : Leaves s next k) : Resumed (s.switch next h) next k := by
  have hkeeps := h.keeps_savedRam hk
  obtain ⟨m, hrun, hm⟩ := h.execAll_eq hk
  have hcpu := s.switch_eq h hrun
  have hstack (x : BitVec 32) (hx : x ∈ s.layout.stack next) (hslot : x ∉ Ram.bytes (k.regs .esp + 4))
      : m x = k.ram x := by
    rw [hm x (s.layout.notMem_eaxSave h.next_mem (.inr hx)) hslot, hkeeps.stack x hx]
  refine ⟨rfl, ?_, ?_, ?_, ?_⟩
  . intro r hr
    rw [hcpu]
    exact Function.update_of_ne hr _ _
  . rw [hcpu]
    exact Function.update_self .esp (k.regs .esp + 4) k.regs
  . rw [hcpu]
    apply Ram.load_congr
    intro x hx
    apply hstack x (hkeeps.frame (Ram.area_subset (by decide) hx))
    exact Set.disjoint_left.1 (Ram.disjoint_bytes_add (by decide) (by decide)) hx
  . intro x hx hslot
    rw [hcpu]
    exact hstack x hx hslot

theorem Calls.parked (hready : Ready s) (h : Calls s next) (hk : Leaves s t k) (hne : t ≠ next)
    : Parked (s.switch next h) t k := by
  obtain ⟨k', hk'⟩ := hready.leaves h.next_mem
  obtain ⟨m, hrun, hm⟩ := h.execAll_eq hk'
  refine ⟨hk.mem, hne, ?_⟩
  rw [s.switch_eq h hrun]
  apply (h.keeps_savedRam hk).congr rfl
  intro x hx
  apply hm x (s.layout.notMem_eaxSave hk.mem hx)
  intro hslot
  apply s.layout.notMem_owned hk.mem h.next_mem hne hx
  exact .inr ((h.keeps_savedRam hk').bytes_subset (by decide) hslot)

/-! ### Runs -/

section

variable {stack func arg : BitVec 32}

theorem Forks.owned_eq (h : Forks s t stack func arg s') {u : BitVec 32} (hu : u ∈ s.layout.threads)
    : s'.layout.owned u = s.layout.owned u := by
  unfold Layout.owned
  rw [h.stack_old u hu]

theorem Forks.ram_eq (h : Forks s t stack func arg s') {u x : BitVec 32} (hu : u ∈ s.layout.threads)
    (hx : x ∈ s.layout.owned u)
    : s'.ram x = s.ram x := by
  have hne : u ≠ t := fun heq => h.fresh (heq ▸ hu)
  rw [← h.owned_eq hu] at hx
  have hnotMem : x ∉ s'.layout.owned t := by
    apply s'.layout.notMem_owned _ _ hne hx
    . rw [h.threads]
      exact .inr hu
    . rw [h.threads]
      exact .inl rfl
  rw [h.ram]
  apply stackAllocate_of_notMem
  . exact fun hsave => hnotMem (.inl hsave)
  . rw [← h.stack_new]
    exact fun hstack => hnotMem (.inr hstack)

structure Initial (sym : Symbols) (stack func arg : BitVec 32) (k : Data) : Prop where
  esp : k.regs .esp = initialStackTop stack
  ecx : k.regs .ecx = sym.interruptEnable
  esi : k.regs .esi = func
  edx : k.regs .edx = arg
  edi : k.regs .edi = sym.threadFinish
  top : k.ram.load (k.regs .esp) = sym.threadRoot

theorem Forks.parked_new (h : Forks s t stack func arg s')
    : ∃ k, Parked s' t k ∧ Initial sym stack func arg k := by
  have hmem : t ∈ s'.layout.threads := by
    rw [h.threads]
    exact .inl rfl
  have hdisjoint := s'.layout.save_stack t hmem
  rw [h.stack_new] at hdisjoint
  have hinitial : Initial sym stack func arg ⟨fun r => s'.ram.load (t + offset r), s'.ram⟩ := by
    refine ⟨?_, ?_, ?_, ?_, ?_, ?_⟩ <;> dsimp only <;> rw [h.ram]
    . exact load_stackAllocate_esp hdisjoint
    . exact load_stackAllocate (by simp [initialState])
    . exact load_stackAllocate (by simp [initialState])
    . exact load_stackAllocate (by simp [initialState])
    . exact load_stackAllocate (by simp [initialState])
    . rw [load_stackAllocate_esp hdisjoint]
      exact load_stackAllocate_top hdisjoint
  refine ⟨⟨fun r => s'.ram.load (t + offset r), s'.ram⟩, ⟨hmem, ?_, fun _ => rfl, fun _ _ => rfl, ?_⟩, hinitial⟩
  . rw [h.current]
    rintro rfl
    exact h.fresh s.current_mem
  . rw [hinitial.esp, h.stack_new, initialStackTop_eq]
    exact Ram.area_add_subset (by decide)

end

theorem Deletes.parked {u : BitVec 32} (h : Deletes s u s') (hk : Parked s t k) (hmem : t ∈ s'.layout.threads)
    : Parked s' t k := by
  refine ⟨hmem, ?_, ?_⟩
  . rw [h.current]
    exact hk.ne_current
  . apply hk.keeps.congr (h.stack t hmem)
    rw [h.ram]
    exact fun _ _ => rfl

theorem Forks.parked {u stack func arg : BitVec 32} (h : Forks s u stack func arg s') (hk : Parked s t k)
    : Parked s' t k := by
  refine ⟨?_, ?_, ?_⟩
  . rw [h.threads]
    exact .inr hk.mem
  . rw [h.current]
    exact hk.ne_current
  . apply hk.keeps.congr (h.stack_old t hk.mem)
    intro x hx
    exact h.ram_eq hk.mem hx

theorem Step.parked_or_resumed (hready : Ready s) (h : Step s s') (hk : Parked s t k) (hmem : t ∈ s'.layout.threads)
    : Parked s' t k ∨ Resumed s' t k := by
  cases h with
  | compute h =>
    refine .inl ⟨hmem, hk.ne_current, ?_⟩
    exact hk.keeps.congr rfl (h t hk.mem hk.ne_current)
  | @switch next h =>
    by_cases hnext : t = next
    . subst hnext
      exact .inr (h.resumed (.inr hk))
    . exact .inl (h.parked hready (.inr hk) hnext)
  | fork h => exact .inl (h.parked hk)
  | delete h => exact .inl (h.parked hk hmem)

theorem Step.ready (hready : Ready s) (h : Step s s') : Ready s' := by
  intro t ht hne
  by_cases hparked : t ∈ s.layout.threads ∧ t ≠ s.current
  . obtain ⟨k, hk⟩ := hready t hparked.1 hparked.2
    obtain hk | hk := h.parked_or_resumed hready hk ht
    . exact ⟨k, hk⟩
    . exact absurd hk.current.symm hne
  -- the thread is new, or it has just called `SWITCH`
  . cases h with
    | compute h => exact absurd ⟨ht, hne⟩ hparked
    | switch h =>
      obtain ⟨k, hk⟩ := hready.leaves ht
      exact ⟨k, h.parked hready hk hne⟩
    | @fork _ u _ _ _ h =>
      by_cases htu : t = u
      . obtain ⟨k, hk, -⟩ := h.parked_new
        exact ⟨k, htu ▸ hk⟩
      . rw [h.threads, Set.mem_insert_iff, or_iff_right htu] at ht
        rw [h.current] at hne
        exact absurd ⟨ht, hne⟩ hparked
    | delete h =>
      rw [h.threads] at ht
      rw [h.current] at hne
      exact absurd ⟨ht.1, hne⟩ hparked

theorem Reachable.ready (h : Reachable s) : Ready s := by
  apply Transition.Reachable.invariant _ _ h
  . intro s hs t ht hne
    rw [hs] at ht
    exact absurd ht hne
  . intro s s' _ hready hstep
    exact hstep.ready hready

theorem Until.parked_or_resumed (hready : Ready s) (hk : Parked s t k) (h : Until t s s')
    : Ready s' ∧ (Parked s' t k ∨ Resumed s' t k) := by
  induction h with
  | refl => exact ⟨hready, .inl hk⟩
  | tail _ hne hstep hmem ih =>
    obtain ⟨hready, hk⟩ := ih
    refine ⟨hstep.ready hready, ?_⟩
    obtain hk | hk := hk
    . exact hstep.parked_or_resumed hready hk hmem
    . exact absurd hk.current hne

theorem Until.eq_of_current (h : Until t s s') (hs : s.current = t) : s' = s := by
  induction h with
  | refl => rfl
  | tail _ hne _ _ ih => exact absurd (ih ▸ hs) hne

theorem switch_returns (hreach : Reachable s) (h : Calls s next) (huntil : Until s.current (s.switch next h) s')
    (hback : s'.current = s.current)
    : Resumed s' s.current s.toData ∧ ∀ (code : Code) (stop : BitVec 32),
        Loaded code sym.switch (switch sym.eaxSave) stop
          → Relation.ReflTransGen (I386.Step code) s.toCpu (s.switch next h).toCpu := by
  have hself : Leaves s s.current s.toData := .inl ⟨rfl, rfl⟩
  refine ⟨?_, fun code stop hload => steps_run (h.eip ▸ hload)⟩
  by_cases hnext : next = s.current
  . subst hnext
    rw [huntil.eq_of_current rfl]
    exact h.resumed hself
  . have hparked := h.parked hreach.ready hself (Ne.symm hnext)
    have hready := (Step.switch h).ready hreach.ready
    obtain ⟨-, hk | hk⟩ := huntil.parked_or_resumed hready hparked
    . exact absurd hback.symm hk.ne_current
    . exact hk

/-! ### A switch and back -/

namespace TwoThreads

def symbols : Symbols where
  switch := 0x100
  eaxSave := 0x200
  threadRoot := 0x300
  interruptEnable := 0x400
  threadFinish := 0x500

def stack (t : BitVec 32) : Set (BitVec 32) :=
  if t = 0x1000 then Ram.area 0x10000 16 else Ram.area 0x20000 (4 * stackSize)

theorem eaxSave_main : Disjoint (saveArea 0x1000 ∪ stack 0x1000) (Ram.bytes symbols.eaxSave) := by
  rw [Set.disjoint_union_left]
  exact ⟨(Ram.disjoint_area (by decide) (by decide)).symm, (Ram.disjoint_area (by decide) (by decide)).symm⟩

theorem eaxSave_other : Disjoint (saveArea 0x2000 ∪ stack 0x2000) (Ram.bytes symbols.eaxSave) := by
  rw [Set.disjoint_union_left]
  exact ⟨(Ram.disjoint_area (by decide) (by decide)).symm, (Ram.disjoint_area (by decide) (by decide)).symm⟩

theorem main_other : Disjoint (saveArea 0x1000 ∪ stack 0x1000) (saveArea 0x2000 ∪ stack 0x2000) := by
  rw [Set.disjoint_union_left, Set.disjoint_union_right, Set.disjoint_union_right]
  exact ⟨⟨Ram.disjoint_area (by decide) (by decide), Ram.disjoint_area (by decide) (by decide)⟩,
    (Ram.disjoint_area (by decide) (by decide)).symm, Ram.disjoint_area (by decide) (by decide)⟩

def alone : Layout symbols.eaxSave where
  threads := {0x1000}
  stack := stack
  disjoint := Set.pairwiseDisjoint_singleton _ _
  save_stack := by
    rintro t rfl
    exact Ram.disjoint_area (by decide) (by decide)
  disjoint_eaxSave := by
    rintro t rfl
    exact eaxSave_main

def both : Layout symbols.eaxSave where
  threads := {0x2000, 0x1000}
  stack := stack
  disjoint := by
    rintro t (rfl | rfl) u (rfl | rfl) hne
    . exact absurd rfl hne
    . exact main_other.symm
    . exact main_other
    . exact absurd rfl hne
  save_stack := by
    rintro t (rfl | rfl)
    . exact Ram.disjoint_area (by decide) (by decide)
    . exact Ram.disjoint_area (by decide) (by decide)
  disjoint_eaxSave := by
    rintro t (rfl | rfl)
    . exact eaxSave_other
    . exact eaxSave_main

def start : State symbols where
  regs := fun r => if r = .esp then 0x10000 else 7
  ram := Ram.storeAll (fun _ => 0) [(0x10004, 0x1000), (0x10008, 0x2000)]
  eip := 0x100
  layout := alone
  current := 0x1000
  current_mem := rfl

def forked : State symbols where
  toCpu := ⟨⟨start.regs, stackAllocate symbols start.ram 0x2000 0x20000 0x600 5⟩, 0x100⟩
  layout := both
  current := 0x1000
  current_mem := .inr rfl

theorem forks : Forks start 0x2000 0x20000 0x600 5 forked where
  fresh := fun h => absurd (Set.mem_singleton_iff.1 h) (by decide)
  threads := rfl
  stack_new := rfl
  stack_old := fun _ _ => rfl
  current := rfl
  ram := rfl

theorem calls : Calls forked 0x2000 where
  eip := rfl
  old := by decide
  new := by decide
  next_mem := .inl rfl
  frame := Ram.area_subset (by decide)

theorem reachable_forked : Reachable forked :=
  .tail (.init (rfl : start.layout.threads = {start.current})) (.fork forks)

def arguments : List (BitVec 32 × BitVec 32) :=
  [(0x20000 + 0x104, 0x2000), (0x20000 + 0x108, 0x1000)]

def other : State symbols :=
  { forked.switch 0x2000 calls with
    regs := fun r => if r = .esp then 0x20000 + 0x100 else 9
    ram := (forked.switch 0x2000 calls).ram.storeAll arguments
    eip := 0x100 }

theorem step_other : Step (forked.switch 0x2000 calls) other := by
  apply Step.compute
  rintro t (rfl | rfl) hne x hx
  . exact absurd rfl hne
  . apply Ram.storeAll_apply_of_notMem
    unfold arguments
    rw [List.forall_mem_cons, List.forall_mem_singleton]
    have hstack := Set.disjoint_left.1 main_other hx
    refine ⟨fun h => hstack (.inr ?_), fun h => hstack (.inr ?_)⟩
    . exact Ram.area_add_subset (by decide) h
    . exact Ram.area_add_subset (by decide) h

theorem load_arguments (m : Ram) {e : BitVec 32 × BitVec 32} (he : e ∈ arguments)
    : (m.storeAll arguments).load e.1 = e.2 := by
  apply Ram.load_storeAll m _ he
  unfold arguments
  rw [List.pairwise_pair]
  exact Ram.disjoint_area (by decide) (by decide)

theorem calls_back : Calls other 0x1000 where
  eip := rfl
  old := by
    rw [show other.regs .esp + 4 = 0x20000 + 0x104 by decide]
    exact load_arguments _ (e := (0x20000 + 0x104, 0x2000)) List.mem_cons_self
  new := by
    rw [show other.regs .esp + 8 = 0x20000 + 0x108 by decide]
    exact load_arguments _ (e := (0x20000 + 0x108, 0x1000)) (List.mem_cons_of_mem _ List.mem_cons_self)
  next_mem := .inr rfl
  frame := Ram.area_add_subset (by decide)

end TwoThreads

theorem switch_returns_from_other
    : ∃ (s s' : State TwoThreads.symbols) (h : Calls s 0x2000),
        s.current = 0x1000 ∧ Until 0x1000 (s.switch 0x2000 h) s' ∧ s'.current = 0x1000 ∧
          Resumed s' 0x1000 s.toData := by
  have haway : Until 0x1000 (TwoThreads.forked.switch 0x2000 TwoThreads.calls) TwoThreads.other :=
    .tail .refl (by decide) TwoThreads.step_other (.inr rfl)
  have hback := haway.tail (by decide) (.switch TwoThreads.calls_back) (.inr rfl)
  exact ⟨TwoThreads.forked, TwoThreads.other.switch 0x1000 TwoThreads.calls_back, TwoThreads.calls, rfl, hback, rfl,
    (switch_returns TwoThreads.reachable_forked TwoThreads.calls hback rfl).1⟩

end Switch

end Nachos
