import Nachos.Lib.I386

/-!
This module contains the context switch of `switch.s` for the i386.
-/

namespace Nachos

namespace Switch

open Function (update update_self update_of_ne update_idem)
open Relation (ReflTransGen)
open I386

/-! ### `switch.h` -/

def offset : Reg → BitVec 32
  | .esp => 0
  | .eax => 4
  | .ebx => 8
  | .ecx => 12
  | .edx => 16
  | .ebp => 20
  | .esi => 24
  | .edi => 28

def pcOffset : BitVec 32 := 32

def saveArea (t : BitVec 32) : Set (BitVec 32) :=
  Ram.area t 36

/-! ### `switch.s` -/

def saveCode (eaxSave : BitVec 32) : List Plain := [
  .movl (.reg .eax) (.var eaxSave),
  .movl (.mem 4 .esp) (.reg .eax),
  .movl (.reg .ebx) (.mem (offset .ebx) .eax),
  .movl (.reg .ecx) (.mem (offset .ecx) .eax),
  .movl (.reg .edx) (.mem (offset .edx) .eax),
  .movl (.reg .esi) (.mem (offset .esi) .eax),
  .movl (.reg .edi) (.mem (offset .edi) .eax),
  .movl (.reg .ebp) (.mem (offset .ebp) .eax),
  .movl (.reg .esp) (.mem (offset .esp) .eax),
  .movl (.var eaxSave) (.reg .ebx),
  .movl (.reg .ebx) (.mem (offset .eax) .eax),
  .movl (.mem 0 .esp) (.reg .ebx),
  .movl (.reg .ebx) (.mem pcOffset .eax)]

def restoreCode (eaxSave : BitVec 32) : List Plain := [
  .movl (.mem 8 .esp) (.reg .eax),
  .movl (.mem (offset .eax) .eax) (.reg .ebx),
  .movl (.reg .ebx) (.var eaxSave),
  .movl (.mem (offset .ebx) .eax) (.reg .ebx),
  .movl (.mem (offset .ecx) .eax) (.reg .ecx),
  .movl (.mem (offset .edx) .eax) (.reg .edx),
  .movl (.mem (offset .esi) .eax) (.reg .esi),
  .movl (.mem (offset .edi) .eax) (.reg .edi),
  .movl (.mem (offset .ebp) .eax) (.reg .ebp),
  .movl (.mem (offset .esp) .eax) (.reg .esp),
  .movl (.mem pcOffset .eax) (.reg .eax),
  .movl (.reg .eax) (.mem 4 .esp),
  .movl (.var eaxSave) (.reg .eax)]

def switch (eaxSave : BitVec 32) : List Instr :=
  (saveCode eaxSave ++ restoreCode eaxSave).map .plain ++ [.ret]

/-! ### What the code does -/

section

variable {eaxSave : BitVec 32} {d : Data} {t t' : BitVec 32}

def directRegs : List Reg :=
  [.ebx, .ecx, .edx, .esi, .edi, .ebp, .esp]

def savedRegs (t : BitVec 32) (regs : Reg → BitVec 32) : List (BitVec 32 × BitVec 32) :=
  directRegs.map fun r => (t + offset r, regs r)

def saved (t : BitVec 32) (regs : Reg → BitVec 32) (pc : BitVec 32) : List (BitVec 32 × BitVec 32) :=
  savedRegs t regs ++ [(t + offset .eax, regs .eax)] ++ [(t + pcOffset, pc)]

theorem mem_directRegs {r : Reg} (h : r ≠ .eax) : r ∈ directRegs := by
  cases r <;> first | decide | exact absurd rfl h

theorem ne_eax_of_mem_directRegs {r : Reg} (h : r ∈ directRegs) : r ≠ .eax := by
  rintro rfl
  exact absurd h (by decide)

theorem bytes_subset_saveArea (t : BitVec 32) (r : Reg) : Ram.bytes (t + offset r) ⊆ saveArea t := by
  apply Ram.area_add_subset
  cases r <;> decide

theorem bytes_pc_subset_saveArea (t : BitVec 32) : Ram.bytes (t + pcOffset) ⊆ saveArea t := by
  apply Ram.area_add_subset
  decide

theorem saved_subset (t : BitVec 32) (regs : Reg → BitVec 32) (pc : BitVec 32)
    : ∀ e ∈ saved t regs pc, Ram.bytes e.1 ⊆ saveArea t := by
  unfold saved savedRegs
  simp only [List.forall_mem_append, List.forall_mem_map, List.forall_mem_singleton, bytes_subset_saveArea,
    bytes_pc_subset_saveArea, implies_true, and_self]

theorem savedEax_subset (t : BitVec 32) (regs : Reg → BitVec 32)
    : ∀ e ∈ savedRegs t regs ++ [(t + offset .eax, regs .eax)], Ram.bytes e.1 ⊆ saveArea t :=
  (List.forall_mem_append.1 (saved_subset t regs 0)).1

theorem savedRegs_subset (t : BitVec 32) (regs : Reg → BitVec 32)
    : ∀ e ∈ savedRegs t regs, Ram.bytes e.1 ⊆ saveArea t :=
  (List.forall_mem_append.1 (savedEax_subset t regs)).1

theorem pairwise_saved (t : BitVec 32) (regs : Reg → BitVec 32) (pc : BitVec 32)
    : (saved t regs pc).Pairwise fun e e' => Disjoint (Ram.bytes e.1) (Ram.bytes e'.1) := by
  rw [← List.pairwise_map (f := Prod.fst) (R := fun x y => Disjoint (Ram.bytes x) (Ram.bytes y))]
  have hoffsets : (directRegs.map offset ++ [offset .eax, pcOffset]).Pairwise
      fun k l => k.toNat + 4 ≤ l.toNat ∨ l.toNat + 4 ≤ k.toNat := by decide
  have hend : ∀ k ∈ directRegs.map offset ++ [offset .eax, pcOffset], k.toNat + 4 ≤ 36 := by
    simp [directRegs, offset, pcOffset]
  exact Ram.pairwise_disjoint_words t (by omega) hoffsets hend

theorem mem_saved (t : BitVec 32) (regs : Reg → BitVec 32) (pc : BitVec 32) (r : Reg)
    : (t + offset r, regs r) ∈ saved t regs pc := by
  unfold saved savedRegs
  by_cases hr : r = .eax
  . simp [hr]
  . simp only [List.mem_append]
    exact .inl (.inl (List.mem_map_of_mem (mem_directRegs hr)))

structure Called (eaxSave : BitVec 32) (d : Data) (t t' : BitVec 32) : Prop where
  old : d.ram.load (d.regs .esp + 4) = t
  new : d.ram.load (d.regs .esp + 8) = t'
  frame_save : Disjoint (Ram.area (d.regs .esp) 12) (saveArea t)
  frame_eax : Disjoint (Ram.area (d.regs .esp) 12) (Ram.bytes eaxSave)
  save_eax : Disjoint (saveArea t) (Ram.bytes eaxSave)

theorem Called.load_store_eaxSave (h : Called eaxSave d t t') (value : BitVec 32) {k : BitVec 32}
    (hk : k.toNat + 4 ≤ 12)
    : (d.ram.store eaxSave value).load (d.regs .esp + k) = d.ram.load (d.regs .esp + k) := by
  apply Ram.load_store_of_disjoint
  exact (h.frame_eax.mono_left (Ram.area_add_subset hk)).symm

theorem Called.execAll_savedRegs (h : Called eaxSave d t t')
    : d.execAll ([.movl (.reg .eax) (.var eaxSave), .movl (.mem 4 .esp) (.reg .eax)] ++
          directRegs.map fun r => .movl (.reg r) (.mem (offset r) .eax)) =
        ⟨update d.regs .eax t, (d.ram.store eaxSave (d.regs .eax)).storeAll (savedRegs t d.regs)⟩ := by
  have hold : d.execAll [.movl (.reg .eax) (.var eaxSave), .movl (.mem 4 .esp) (.reg .eax)] =
      ⟨update d.regs .eax t, d.ram.store eaxSave (d.regs .eax)⟩ := by
    simp only [Data.execAll, List.foldl, Data.exec, Data.read, Data.write]
    rw [h.load_store_eaxSave _ (by decide), h.old]
  have hregs : directRegs.map (fun r => (update d.regs .eax t .eax + offset r, update d.regs .eax t r)) =
      savedRegs t d.regs := by
    apply List.map_congr_left
    intro r hr
    rw [update_self, update_of_ne (ne_eax_of_mem_directRegs hr)]
  rw [Data.execAll_append, hold, Data.execAll_stores, hregs]

def savedRam (eaxSave : BitVec 32) (d : Data) (t : BitVec 32) : Ram :=
  (d.ram.store eaxSave (d.regs .eax)).storeAll (saved t d.regs (d.ram.load (d.regs .esp)))

theorem Called.execAll_saveCode (h : Called eaxSave d t t')
    : d.execAll (saveCode eaxSave) =
        ⟨update (update d.regs .eax t) .ebx (d.ram.load (d.regs .esp)), savedRam eaxSave d t⟩ := by
  have hcode : saveCode eaxSave =
      ([.movl (.reg .eax) (.var eaxSave), .movl (.mem 4 .esp) (.reg .eax)] ++
        directRegs.map fun r => .movl (.reg r) (.mem (offset r) .eax)) ++
      [.movl (.var eaxSave) (.reg .ebx), .movl (.reg .ebx) (.mem (offset .eax) .eax),
        .movl (.mem 0 .esp) (.reg .ebx), .movl (.reg .ebx) (.mem pcOffset .eax)] := rfl
  have heax := Ram.load_storeAll_of_subset (d.ram.store eaxSave (d.regs .eax)) (savedRegs_subset t d.regs) h.save_eax
  have hpc : ((d.ram.store eaxSave (d.regs .eax)).storeAll
      (savedRegs t d.regs ++ [(t + offset .eax, d.regs .eax)])).load (d.regs .esp + 0) = d.ram.load (d.regs .esp + 0) := by
    rw [Ram.load_storeAll_of_subset _ (savedEax_subset t d.regs), h.load_store_eaxSave _ (by decide)]
    exact (h.frame_save.mono_left (Ram.area_add_subset (by decide))).symm
  rw [hcode, Data.execAll_append, h.execAll_savedRegs]
  simp only [Data.execAll, List.foldl, Data.exec, Data.read, Data.write, heax, Ram.load_store,
    update_self, ne_eq, reduceCtorEq, not_false_eq_true, update_of_ne, update_idem]
  rw [← Ram.storeAll_concat, hpc, ← Ram.storeAll_concat]
  rw [show d.regs .esp + 0 = d.regs .esp from BitVec.add_zero _]
  rfl

theorem execAll_loadedRegs {t' : BitVec 32} (hnew : d.ram.load (d.regs .esp + 8) = t')
    (hsave : Disjoint (saveArea t') (Ram.bytes eaxSave))
    : d.execAll ([.movl (.mem 8 .esp) (.reg .eax), .movl (.mem (offset .eax) .eax) (.reg .ebx),
            .movl (.reg .ebx) (.var eaxSave)] ++
          directRegs.map fun r => .movl (.mem (offset r) .eax) (.reg r)) =
        ⟨update (fun r => d.ram.load (t' + offset r)) .eax t',
          d.ram.store eaxSave (d.ram.load (t' + offset .eax))⟩ := by
  have hnew : d.execAll [.movl (.mem 8 .esp) (.reg .eax), .movl (.mem (offset .eax) .eax) (.reg .ebx),
      .movl (.reg .ebx) (.var eaxSave)] =
      ⟨update (update d.regs .eax t') .ebx (d.ram.load (t' + offset .eax)),
        d.ram.store eaxSave (d.ram.load (t' + offset .eax))⟩ := by
    simp only [Data.execAll, List.foldl, Data.exec, Data.read, Data.write, hnew, update_self]
  have hload (r : Reg) : (d.ram.store eaxSave (d.ram.load (t' + offset .eax))).load (t' + offset r) =
      d.ram.load (t' + offset r) := by
    apply Ram.load_store_of_disjoint
    exact (hsave.mono_left (bytes_subset_saveArea t' r)).symm
  rw [Data.execAll_append, hnew, Data.execAll_loads _ _ (by decide)]
  simp only [update_self, ne_eq, reduceCtorEq, not_false_eq_true, update_of_ne, hload, Data.mk.injEq, and_true]
  funext r
  by_cases hr : r = .eax
  . rw [hr, update_self, if_neg (by decide), update_of_ne (by decide), update_self]
  . rw [update_of_ne hr, if_pos (mem_directRegs hr)]

theorem execAll_restoreCode {t' : BitVec 32} (hnew : d.ram.load (d.regs .esp + 8) = t')
    (hsave : Disjoint (saveArea t') (Ram.bytes eaxSave))
    (hslot : Disjoint (Ram.bytes (d.ram.load (t' + offset .esp) + 4)) (Ram.bytes eaxSave))
    : d.execAll (restoreCode eaxSave) =
        ⟨fun r => d.ram.load (t' + offset r),
          (d.ram.store eaxSave (d.ram.load (t' + offset .eax))).store (d.ram.load (t' + offset .esp) + 4)
            (d.ram.load (t' + pcOffset))⟩ := by
  have hcode : restoreCode eaxSave =
      ([.movl (.mem 8 .esp) (.reg .eax), .movl (.mem (offset .eax) .eax) (.reg .ebx),
          .movl (.reg .ebx) (.var eaxSave)] ++
        directRegs.map fun r => .movl (.mem (offset r) .eax) (.reg r)) ++
      [.movl (.mem pcOffset .eax) (.reg .eax), .movl (.reg .eax) (.mem 4 .esp), .movl (.var eaxSave) (.reg .eax)] := rfl
  have hpc : (d.ram.store eaxSave (d.ram.load (t' + offset .eax))).load (t' + pcOffset) =
      d.ram.load (t' + pcOffset) := by
    apply Ram.load_store_of_disjoint
    exact (hsave.mono_left (bytes_pc_subset_saveArea t')).symm
  rw [hcode, Data.execAll_append, execAll_loadedRegs hnew hsave]
  simp only [Data.execAll, List.foldl, Data.exec, Data.read, Data.write, update_self, ne_eq, reduceCtorEq,
    not_false_eq_true, update_of_ne, update_idem, hpc, Ram.load_store_of_disjoint _ _ hslot, Ram.load_store,
    Data.mk.injEq, and_true]
  exact Function.update_eq_self _ _

end

/-! ### A call -/

def run (eaxSave : BitVec 32) (s : Cpu) : Cpu :=
  let d := s.toData.execAll (saveCode eaxSave ++ restoreCode eaxSave)
  { d.drop with eip := d.ram.load (d.regs .esp) }

theorem steps_run {code : Code} {s : Cpu} {eaxSave stop : BitVec 32} (h : Loaded code s.eip (switch eaxSave) stop)
    : ReflTransGen (I386.Step code) s (run eaxSave s) := by
  obtain ⟨mid, hblock, hret⟩ := h.of_append
  exact hblock.steps.tail (Loaded.step (s := ⟨_, mid⟩) (i := .ret) hret)

theorem savedRam_of_notMem (d : Data) {eaxSave t x : BitVec 32} (hsave : x ∉ saveArea t) (heax : x ∉ Ram.bytes eaxSave)
    : savedRam eaxSave d t x = d.ram x := by
  unfold savedRam
  rw [Ram.storeAll_apply_of_notMem, Ram.store_apply_of_notMem _ _ heax]
  intro e he hx
  exact hsave (saved_subset t d.regs _ e he hx)

theorem load_savedRam (eaxSave : BitVec 32) (d : Data) (t : BitVec 32) (r : Reg)
    : (savedRam eaxSave d t).load (t + offset r) = d.regs r :=
  Ram.load_storeAll _ (pairwise_saved t d.regs _) (mem_saved t d.regs _ r)

theorem Called.load_new {eaxSave : BitVec 32} {d : Data} {t t' : BitVec 32} (h : Called eaxSave d t t')
    : (savedRam eaxSave d t).load (d.regs .esp + 8) = t' := by
  unfold savedRam
  rw [Ram.load_storeAll_of_subset _ (saved_subset t d.regs _), h.load_store_eaxSave _ (by decide), h.new]
  exact (h.frame_save.mono_left (Ram.area_add_subset (by decide))).symm

theorem Called.execAll_switch {eaxSave : BitVec 32} {d : Data} {t t' : BitVec 32} (h : Called eaxSave d t t')
    (hsave : Disjoint (saveArea t') (Ram.bytes eaxSave))
    (hslot : Disjoint (Ram.bytes ((savedRam eaxSave d t).load (t' + offset .esp) + 4)) (Ram.bytes eaxSave))
    : d.execAll (saveCode eaxSave ++ restoreCode eaxSave) =
        ⟨fun r => (savedRam eaxSave d t).load (t' + offset r),
          ((savedRam eaxSave d t).store eaxSave ((savedRam eaxSave d t).load (t' + offset .eax))).store
            ((savedRam eaxSave d t).load (t' + offset .esp) + 4) ((savedRam eaxSave d t).load (t' + pcOffset))⟩ := by
  rw [Data.execAll_append, h.execAll_saveCode]
  refine execAll_restoreCode (d := ⟨_, savedRam eaxSave d t⟩) ?_ hsave hslot
  dsimp only
  rw [update_of_ne (by decide), update_of_ne (by decide)]
  exact h.load_new

end Switch

end Nachos
