import Mathlib.Data.Set.Card
import Nachos.Filesys.Directory
import Nachos.Lib.Calls

/-!
This module contains the directory as a map of bounded size from the first characters of the names to
sectors: after any sequence of calls, a lookup finds what the history of the calls says.
-/

namespace Nachos

namespace Filesys

open Function (update)

namespace Directory

open Transition

/-! ### Sequences of calls -/

/--
`writeFetch` writes the directory to the file and reads it again, `reopen` reads it into a new directory.
-/
inductive Call where
  | add (name : Name) (newSector : Int32)
  | remove (name : Name)
  | find (name : Name)
  | writeFetch (file : OpenFile)
  | reopen (file : OpenFile)

inductive Answer where
  | done
  | bool (b : Bool)
  | int (i : Int)
  deriving DecidableEq

/--
A new directory has nothing but the file, so the file has to have room for all of the table.
-/
def Call.Legal (n : Nat) : Call → Prop
  | .add _ _ | .remove _ | .find _ => True
  | .writeFetch file => file.hdr.Valid
  | .reopen file => file.hdr.Valid ∧ (n * entrySize : Nat) ≤ file.hdr.numBytes

def Call.key? : Call → Option (List (BitVec 8))
  | .add name _ | .remove name => some name.key
  | .find _ | .writeFetch _ | .reopen _ => none

def perform (d : Directory) : Call → FS (Directory × Answer)
  | .add name newSector =>
    let (success, d) := d.add name newSector.toInt
    pure (d, .bool success)
  | .remove name =>
    let (success, d) := d.remove name
    pure (d, .bool success)
  | .find name => pure (d, .int (d.find name))
  | .writeFetch file => do
    d.writeBack file
    return (← d.fetchFrom file, .done)
  | .reopen file => do
    d.writeBack file
    let d' ← ofSize d.tableSize
    return (← d'.fetchFrom file, .done)

abbrev Event : Type := Call × Answer

/-! ### What the calls say -/

def Event.Adds (key : List (BitVec 8)) (sector : Int) (e : Event) : Prop :=
  ∃ name newSector, e = (.add name newSector, .bool true) ∧ name.key = key ∧ newSector.toInt = sector

def Event.Changes (key : List (BitVec 8)) (e : Event) : Prop :=
  e.1.key? = some key ∧ e.2 = .bool true

def Bound (history : List Event) (key : List (BitVec 8)) (sector : Int) : Prop :=
  Since (fun e => Event.Adds key sector e) (fun e => Event.Changes key e) history

def BoundKeys (history : List Event) : Set (List (BitVec 8)) :=
  {key | ∃ sector, Bound history key sector}

def Found (history : List Event) (name : Name) (result : Int) : Prop :=
  Bound history name.key result ∨ name.key ∉ BoundKeys history ∧ result = -1

def Correct (n : Nat) (history : List Event) : Event → Prop
  | (.add name _, answer) =>
    ∃ b, answer = .bool b ∧ (b = true ↔ name.key ∉ BoundKeys history ∧ (BoundKeys history).ncard < n)
  | (.remove name, answer) => ∃ b, answer = .bool b ∧ (b = true ↔ name.key ∈ BoundKeys history)
  | (.find name, answer) => ∃ result, answer = .int result ∧ Found history name result
  | (.writeFetch _, answer) => answer = .done
  | (.reopen _, answer) => answer = .done

/-! ### The map -/

abbrev Map : Type := List (BitVec 8) → Option Int

def Map.keys (t : Map) : Set (List (BitVec 8)) :=
  {key | t key ≠ none}

inductive MapStep (n : Nat) : Map → Event → Map → Prop where
  | add {t : Map} {name : Name} {newSector : Int32} (hnew : t name.key = none) (hroom : t.keys.ncard < n)
    : MapStep n t (.add name newSector, .bool true) (update t name.key (some newSector.toInt))
  | addFails {t : Map} {name : Name} {newSector : Int32} (h : t name.key ≠ none ∨ n ≤ t.keys.ncard)
    : MapStep n t (.add name newSector, .bool false) t
  | remove {t : Map} {name : Name} (h : t name.key ≠ none)
    : MapStep n t (.remove name, .bool true) (update t name.key none)
  | removeFails {t : Map} {name : Name} (h : t name.key = none) : MapStep n t (.remove name, .bool false) t
  | find {t : Map} {name : Name} : MapStep n t (.find name, .int ((t name.key).getD (-1))) t
  | writeFetch {t : Map} {file : OpenFile} : MapStep n t (.writeFetch file, .done) t
  | reopen {t : Map} {file : OpenFile} : MapStep n t (.reopen file, .done) t

section

variable {n : Nat} {t t' : Map} {e : Event} {history : List Event} {key : List (BitVec 8)} {sector : Int}

theorem MapStep.eq_some_iff (h : MapStep n t e t') (key : List (BitVec 8)) (sector : Int)
    : t' key = some sector ↔ e.Adds key sector ∨ t key = some sector ∧ ¬e.Changes key := by
  cases h with
  | @add name newSector hnew =>
    by_cases hkey : key = name.key
    . subst hkey
      simp [Event.Adds, Event.Changes, Call.key?, hnew]
    . simp [Event.Adds, Event.Changes, Call.key?, Ne.symm hkey, hkey]
  | @remove name =>
    by_cases hkey : key = name.key
    . subst hkey
      simp [Event.Adds, Event.Changes, Call.key?]
    . simp [Event.Adds, Event.Changes, Call.key?, Ne.symm hkey, hkey]
  | addFails | removeFails | find | writeFetch | reopen => simp [Event.Adds, Event.Changes]

theorem eq_some_iff_bound (h : Trace (MapStep n) (fun _ => none) history t)
    : t key = some sector ↔ Bound history key sector := by
  apply h.iff_since (P := fun t => t key = some sector)
  . intro t e t' hstep
    exact hstep.eq_some_iff key sector
  . exact nofun

theorem keys_eq_boundKeys (h : Trace (MapStep n) (fun _ => none) history t) : t.keys = BoundKeys history := by
  ext key
  unfold Map.keys BoundKeys
  rw [Set.mem_ofPred_eq, Set.mem_ofPred_eq, Option.ne_none_iff_exists']
  constructor
  . intro ⟨sector, hsector⟩
    exact ⟨sector, (eq_some_iff_bound h).1 hsector⟩
  . intro ⟨sector, hbound⟩
    exact ⟨sector, (eq_some_iff_bound h).2 hbound⟩

theorem found_of_trace (h : Trace (MapStep n) (fun _ => none) history t) (name : Name)
    : Found history name ((t name.key).getD (-1)) := by
  cases hkey : t name.key with
  | none =>
    refine .inr ⟨?_, rfl⟩
    rw [← keys_eq_boundKeys h]
    exact fun hmem => hmem hkey
  | some sector => exact .inl ((eq_some_iff_bound h).1 hkey)

theorem MapStep.correct (h : Trace (MapStep n) (fun _ => none) history t) (hstep : MapStep n t e t')
    : Correct n history e := by
  have hkeys := keys_eq_boundKeys h
  cases hstep with
  | add hnew hroom =>
    rw [hkeys] at hroom
    refine ⟨true, rfl, iff_of_true rfl ⟨?_, hroom⟩⟩
    rw [← hkeys]
    exact fun hmem => hmem hnew
  | addFails hfails =>
    refine ⟨false, rfl, iff_of_false Bool.false_ne_true ?_⟩
    rw [← hkeys]
    intro ⟨hnew, hroom⟩
    cases hfails with
    | inl hold => exact hnew hold
    | inr hfull => omega
  | remove hold =>
    refine ⟨true, rfl, iff_of_true rfl ?_⟩
    rw [← hkeys]
    exact hold
  | removeFails hnone =>
    refine ⟨false, rfl, iff_of_false Bool.false_ne_true ?_⟩
    rw [← hkeys]
    exact fun hmem => hmem hnone
  | find => exact ⟨_, rfl, found_of_trace h _⟩
  | writeFetch => rfl
  | reopen => rfl

end

/-! ### The table is the map -/

def Unique (d : Directory) : Prop :=
  ∀ i j, i < d.tableSize → j < d.tableSize → (d.entry i).inUse = true → (d.entry j).inUse = true →
    (d.entry i).key = (d.entry j).key → i = j

def toMap (d : Directory) : Map :=
  fun key => ((List.range d.tableSize).find? fun i => d.inUse i && d.key i == key).map d.sector

def slotsInUse (d : Directory) : Finset Nat :=
  (Finset.range d.tableSize).filter fun i => d.inUse i = true

section

variable {d d' : Directory} {name : Name} {key : List (BitVec 8)} {sector : Int} {i : Nat}

theorem find_eq (d : Directory) (name : Name) : d.find name = (d.toMap name.key).getD (-1) := by
  have hindex : d.findIndex name =
      (List.range d.tableSize).find? fun i => d.inUse i && d.key i == name.key := by
    unfold findIndex
    congr 1
    funext i
    rw [Bool.eq_iff_iff, Bool.and_eq_true, Bool.and_eq_true, beq_iff_eq, beq_iff_eq, strncmp_eq_zero_iff]
  unfold find toMap
  rw [hindex]
  split
  next i h => rw [h]; rfl
  next h => rw [h]; rfl

theorem toMap_eq_some_iff (h : d.Unique)
    : d.toMap key = some sector ↔ ∃ i, i < d.tableSize ∧ d.entry i = ⟨true, sector, key⟩ := by
  unfold toMap
  rw [Option.map_eq_some_iff]
  constructor
  . intro ⟨i, hfind, hsector⟩
    have hi := List.mem_range.1 (List.mem_of_find?_eq_some hfind)
    have hfound := List.find?_some hfind
    rw [Bool.and_eq_true, beq_iff_eq] at hfound
    exact ⟨i, hi, Entry.ext hfound.1 hsector hfound.2⟩
  . intro ⟨i, hi, hentry⟩
    have hinUse : (d.entry i).inUse = true := by rw [hentry]
    have hkey : (d.entry i).key = key := by rw [hentry]
    have hsector : (d.entry i).sector = sector := by rw [hentry]
    have hsome : ((List.range d.tableSize).find? fun i => d.inUse i && d.key i == key).isSome := by
      rw [List.find?_isSome]
      refine ⟨i, List.mem_range.2 hi, ?_⟩
      rw [Bool.and_eq_true, beq_iff_eq]
      exact ⟨hinUse, hkey⟩
    obtain ⟨j, hj⟩ := Option.isSome_iff_exists.1 hsome
    have hfound := List.find?_some hj
    rw [Bool.and_eq_true, beq_iff_eq] at hfound
    have hji : j = i := h j i (List.mem_range.1 (List.mem_of_find?_eq_some hj)) hi hfound.1 hinUse
      (hfound.2.trans hkey.symm)
    subst hji
    exact ⟨j, hj, hsector⟩

theorem toMap_ne_none_iff (h : d.Unique) : d.toMap key ≠ none ↔
    ∃ i, i < d.tableSize ∧ (d.entry i).inUse = true ∧ (d.entry i).key = key := by
  rw [Option.ne_none_iff_exists']
  constructor
  . intro ⟨sector, hsector⟩
    obtain ⟨i, hi, hentry⟩ := (toMap_eq_some_iff h).1 hsector
    exact ⟨i, hi, by rw [hentry], by rw [hentry]⟩
  . intro ⟨i, hi, hinUse, hkey⟩
    exact ⟨(d.entry i).sector, (toMap_eq_some_iff h).2 ⟨i, hi, Entry.ext hinUse rfl hkey⟩⟩

theorem mem_slotsInUse : i ∈ d.slotsInUse ↔ i < d.tableSize ∧ (d.entry i).inUse = true := by
  rw [slotsInUse, Finset.mem_filter, Finset.mem_range]
  rfl

theorem ncard_keys (h : d.Unique) : d.toMap.keys.ncard = d.slotsInUse.card := by
  have himage : d.toMap.keys = d.key '' (d.slotsInUse : Set Nat) := by
    ext key
    rw [Set.mem_image]
    change d.toMap key ≠ none ↔ _
    rw [toMap_ne_none_iff h]
    simp only [Finset.mem_coe, mem_slotsInUse, and_assoc]
    rfl
  rw [himage, Set.InjOn.ncard_image, Set.ncard_coe_finset]
  intro i hi j hj hkey
  rw [Finset.mem_coe, mem_slotsInUse] at hi hj
  exact h i j hi.1 hj.1 hi.2 hj.2 hkey

theorem card_slotsInUse_eq_iff
    : d.slotsInUse.card = d.tableSize ↔ ∀ i, i < d.tableSize → (d.entry i).inUse = true := by
  have h := Finset.card_filter_eq_iff (s := Finset.range d.tableSize) (p := fun i => d.inUse i = true)
  rw [Finset.card_range] at h
  simp only [Finset.mem_range] at h
  exact h

theorem card_slotsInUse_le (d : Directory) : d.slotsInUse.card ≤ d.tableSize := by
  have h := Finset.card_filter_le (Finset.range d.tableSize) (fun i => d.inUse i = true)
  rw [Finset.card_range] at h
  exact h

/-! ### One call -/

theorem unique_of_update {e : Entry} (h : d.Unique) (hsize : d'.tableSize = d.tableSize)
    (hentry : d'.entry = update d.entry i e)
    (hnew : e.inUse = true → ∀ j, j < d.tableSize → j ≠ i → (d.entry j).inUse = true → (d.entry j).key ≠ e.key)
    : d'.Unique := by
  intro j k hj hk hjuse hkuse hkey
  rw [hsize] at hj hk
  rw [hentry] at hjuse hkuse hkey
  by_cases hji : j = i
  . by_cases hki : k = i
    . rw [hji, hki]
    . rw [hji, Function.update_self] at hjuse
      rw [Function.update_of_ne hki] at hkuse
      rw [hji, Function.update_self, Function.update_of_ne hki] at hkey
      exact absurd hkey.symm (hnew hjuse k hk hki hkuse)
  . rw [Function.update_of_ne hji] at hjuse hkey
    by_cases hki : k = i
    . rw [hki, Function.update_self] at hkuse hkey
      exact absurd hkey (hnew hkuse j hj hji hjuse)
    . rw [Function.update_of_ne hki] at hkuse hkey
      exact h j k hj hk hjuse hkuse hkey

theorem unique_congr (h : d.Unique) (hsize : d'.tableSize = d.tableSize)
    (hentry : ∀ i, i < d.tableSize → d'.entry i = d.entry i)
    : d'.Unique := by
  intro i j hi hj
  rw [hsize] at hi hj
  rw [hentry i hi, hentry j hj]
  exact h i j hi hj

theorem toMap_congr (h : d.Unique) (hsize : d'.tableSize = d.tableSize)
    (hentry : ∀ i, i < d.tableSize → d'.entry i = d.entry i)
    : d'.toMap = d.toMap := by
  funext key
  apply Option.ext
  intro sector
  rw [toMap_eq_some_iff (unique_congr h hsize hentry), toMap_eq_some_iff h, hsize]
  constructor
  . intro ⟨i, hi, heq⟩
    exact ⟨i, hi, (hentry i hi).symm.trans heq⟩
  . intro ⟨i, hi, heq⟩
    exact ⟨i, hi, (hentry i hi).trans heq⟩

theorem toMap_of_add (h : d.Unique) (h' : d'.Unique) (hsize : d'.tableSize = d.tableSize) (hi : i < d.tableSize)
    (hfree : (d.entry i).inUse = false) (hentry : d'.entry = update d.entry i ⟨true, sector, key⟩)
    : d'.toMap = update d.toMap key (some sector) := by
  have hself : d'.entry i = ⟨true, sector, key⟩ := by rw [hentry, Function.update_self]
  funext k
  by_cases hk : k = key
  . subst hk
    rw [Function.update_self, toMap_eq_some_iff h', hsize]
    exact ⟨i, hi, hself⟩
  . rw [Function.update_of_ne hk]
    apply Option.ext
    intro v
    rw [toMap_eq_some_iff h', toMap_eq_some_iff h, hsize]
    apply exists_congr
    intro j
    by_cases hji : j = i
    . subst hji
      rw [hself]
      refine and_congr_right fun _ => iff_of_false ?_ ?_
      . intro heq
        cases heq
        exact hk rfl
      . intro heq
        rw [heq] at hfree
        cases hfree
    . rw [hentry, Function.update_of_ne hji]

theorem toMap_of_remove (h : d.Unique) (h' : d'.Unique) (hsize : d'.tableSize = d.tableSize) (hi : i < d.tableSize)
    (hused : (d.entry i).inUse = true) (hentry : d'.entry = update d.entry i { d.entry i with inUse := false })
    : d'.toMap = update d.toMap (d.entry i).key none := by
  have hself : (d'.entry i).inUse = false := by rw [hentry, Function.update_self]
  funext k
  apply Option.ext
  intro v
  rw [toMap_eq_some_iff h', hsize]
  by_cases hk : k = (d.entry i).key
  . rw [hk, Function.update_self]
    refine iff_of_false ?_ nofun
    intro ⟨j, hj, heq⟩
    by_cases hji : j = i
    . rw [← hji, heq] at hself
      cases hself
    . rw [hentry, Function.update_of_ne hji] at heq
      exact hji (h j i hj hi (by rw [heq]) hused (by rw [heq]))
  . rw [Function.update_of_ne hk, toMap_eq_some_iff h]
    apply exists_congr
    intro j
    by_cases hji : j = i
    . refine and_congr_right fun _ => iff_of_false ?_ ?_
      . intro heq
        rw [← hji, heq] at hself
        cases hself
      . intro heq
        rw [hji] at heq
        rw [heq] at hk
        exact hk rfl
    . rw [hentry, Function.update_of_ne hji]

theorem add_of_false {newSector : Int} (h : (d.add name newSector).1 = false) : (d.add name newSector).2 = d := by
  unfold add at h ⊢
  split at h
  next hfound => rw [if_pos hfound]
  next hfound =>
    rw [if_neg hfound]
    split at h
    next => cases h
    next => rfl

theorem mapStep_add (h : d.Unique) (name : Name) (newSector : Int32)
    : (d.add name newSector.toInt).2.tableSize = d.tableSize ∧ (d.add name newSector.toInt).2.Unique ∧
        MapStep d.tableSize d.toMap (.add name newSector, .bool (d.add name newSector.toInt).1)
          (d.add name newSector.toInt).2.toMap := by
  have hcases := d.add_cases name (Int32.le_toInt newSector) newSector.toInt_lt
  have hcard := card_slotsInUse_le d
  cases hcases with
  | inl hfails =>
    rw [add_of_false hfails.1, hfails.1]
    refine ⟨rfl, h, .addFails ?_⟩
    rw [ncard_keys h, toMap_ne_none_iff h]
    cases hfails.2 with
    | inl hold => exact .inl hold
    | inr hfull => exact .inr (card_slotsInUse_eq_iff.2 hfull).ge
  | inr hadded =>
    obtain ⟨hsuccess, hnew, i, hi, hfree, hsize, hentry⟩ := hadded
    have hunique : (d.add name newSector.toInt).2.Unique := by
      apply unique_of_update h hsize hentry
      intro _ j hj _ hused hkey
      exact hnew j hj ⟨hused, hkey⟩
    rw [hsuccess, toMap_of_add h hunique hsize hi hfree hentry]
    refine ⟨hsize, hunique, .add ?_ ?_⟩
    . by_contra hold
      obtain ⟨j, hj, hmatches⟩ := (toMap_ne_none_iff h).1 hold
      exact hnew j hj hmatches
    . rw [ncard_keys h]
      apply Nat.lt_of_le_of_ne hcard
      intro hfull
      have hused := card_slotsInUse_eq_iff.1 hfull i hi
      rw [hfree] at hused
      cases hused

theorem mapStep_remove (h : d.Unique) (name : Name)
    : (d.remove name).2.tableSize = d.tableSize ∧ (d.remove name).2.Unique ∧
        MapStep d.tableSize d.toMap (.remove name, .bool (d.remove name).1) (d.remove name).2.toMap := by
  cases d.findIndex_cases name with
  | inl hfound =>
    obtain ⟨i, hi, ⟨hused, hkey⟩, hindex⟩ := hfound
    obtain ⟨hsuccess, hsize, hentry⟩ := entry_remove hindex
    have hunique : (d.remove name).2.Unique := by
      apply unique_of_update h hsize hentry
      intro hinUse
      cases hinUse
    rw [hsuccess, toMap_of_remove h hunique hsize hi hused hentry, hkey]
    exact ⟨hsize, hunique, .remove ((toMap_ne_none_iff h).2 ⟨i, hi, hused, hkey⟩)⟩
  | inr hnone =>
    unfold remove
    rw [hnone.2]
    refine ⟨rfl, h, .removeFails ?_⟩
    by_contra hold
    obtain ⟨j, hj, hmatches⟩ := (toMap_ne_none_iff h).1 hold
    exact hnone.1 j hj hmatches

open Exit

variable {st : Store} {file : OpenFile}

def stored (d : Directory) (file : OpenFile) : Nat :=
  (file.hdr.transferred d.numBytes 0).toNat

theorem stored_lt {k : Nat} (h : k < d.stored file) : k < file.hdr.numBytes := by
  unfold stored FileHeader.transferred at h
  split at h
  . omega
  . omega

theorem returns_writeBack_stored (hvalid : file.hdr.Valid)
    : Returns (d.writeBack file) st (fun _ s' => file.hdr.Written d.table 0 (d.stored file) st.disk s'.disk) := by
  have hover : 0 + d.numBytes < 2 ^ 31 := by
    rw [Int.zero_add]
    exact d.numBytes_lt
  unfold writeBack
  apply (OpenFile.returns_writeAt hvalid d.table (Int.le_refl 0) hover).bind
  intro k s' ⟨hk, hwritten⟩
  rw [returns_pure]
  rw [hk] at hwritten
  exact hwritten

theorem returns_fetchFrom_stored (hvalid : file.hdr.Valid)
    : Returns (d.fetchFrom file) st (fun d' _ =>
        ∃ data, d' = { d with table := d.table.blit 0 data (d.stored file) } ∧
          ∀ k, k < d.stored file → data k = file.hdr.byte st.disk k) := by
  have hover : 0 + d.numBytes < 2 ^ 31 := by
    rw [Int.zero_add]
    exact d.numBytes_lt
  unfold fetchFrom
  apply (OpenFile.returns_readAt hvalid (Int.le_refl 0) hover).bind
  intro (n, data) s' ⟨_, hn, hdata⟩
  dsimp only at hn hdata
  have hn : n.toNat = d.stored file := by
    rw [hn]
    rfl
  rw [returns_pure, hn]
  refine ⟨data, rfl, ?_⟩
  intro k hk
  rw [hdata k (by omega), Int.toNat_zero, Nat.zero_add]

theorem returns_writeFetch (hvalid : file.hdr.Valid)
    : Returns (d.writeBack file >>= fun _ => d.fetchFrom file) st (fun d' _ => d' = d) := by
  apply (returns_writeBack_stored hvalid).bind
  intro _ s₁ hwritten
  apply (returns_fetchFrom_stored hvalid).mono
  intro d' s₂ ⟨data, heq, hdata⟩
  have htable : d.table.blit 0 data (d.stored file) = d.table := by
    funext k
    by_cases hk : k < d.stored file
    . rw [Buffer.blit_apply_of_lt _ _ hk, hdata k hk, hwritten.byte k (stored_lt hk), if_pos (by omega), Nat.sub_zero]
    . exact Buffer.blit_apply_of_le _ _ (by omega)
  rw [heq, htable]

theorem returns_reopen (hvalid : file.hdr.Valid) (hlength : (d.tableSize * entrySize : Nat) ≤ file.hdr.numBytes)
    : Returns (d.writeBack file >>= fun _ => ofSize d.tableSize >>= fun d' => d'.fetchFrom file) st (fun d' _ =>
        d'.tableSize = d.tableSize ∧ ∀ i, i < d.tableSize → d'.entry i = d.entry i) := by
  apply (returns_writeBack hvalid hlength).bind
  intro _ s₁ hwritten
  rw [returns_bind]
  apply Returns.ofSize
  intro d₁ s₂ hsize _ _ hdisk
  rw [← hsize] at hlength
  apply (returns_fetchFrom hvalid hlength).mono
  intro d' s₃ ⟨_, hsize', hbyte⟩
  rw [hdisk, hsize] at hbyte
  rw [hsize] at hlength
  refine ⟨hsize'.trans hsize, ?_⟩
  intro i hi
  apply entry_ofBytes_congr _ hi
  intro k hk
  exact (hbyte k hk).trans (byte_of_written hlength hwritten hk)

theorem returns_perform (h : d.Unique) {call : Call} (hlegal : call.Legal d.tableSize)
    : Returns (d.perform call) st (fun r _ =>
        r.1.tableSize = d.tableSize ∧ r.1.Unique ∧
        MapStep d.tableSize d.toMap (call, r.2) r.1.toMap) := by
  cases call with
  | add name newSector =>
    unfold perform
    rw [returns_pure]
    exact mapStep_add h name newSector
  | remove name =>
    unfold perform
    rw [returns_pure]
    exact mapStep_remove h name
  | find name =>
    unfold perform
    rw [returns_pure, find_eq]
    exact ⟨rfl, h, .find⟩
  | writeFetch file =>
    unfold perform
    have hfetch := @returns_writeFetch d st _ hlegal
    rw [returns_bind] at hfetch ⊢
    apply hfetch.mono
    intro _ s₁ hfetch
    apply hfetch.bind
    intro d' s₂ heq
    subst heq
    rw [returns_pure]
    exact ⟨rfl, h, .writeFetch⟩
  | reopen file =>
    unfold perform
    have hfetch := @returns_reopen d st _ hlegal.1 hlegal.2
    rw [returns_bind] at hfetch ⊢
    apply hfetch.mono
    intro _ s₁ hfetch
    rw [returns_bind] at hfetch ⊢
    apply hfetch.mono
    intro d₁ s₂ hfetch
    apply hfetch.bind
    intro d' s₃ ⟨hsize, hentry⟩
    rw [returns_pure, toMap_congr h hsize hentry]
    exact ⟨hsize, unique_congr h hsize hentry, .reopen⟩

theorem unique_of_unused (h : ∀ i, i < d.tableSize → (d.entry i).inUse = false) : d.Unique := by
  intro i j hi _ hused
  rw [h i hi] at hused
  cases hused

theorem toMap_of_unused (h : ∀ i, i < d.tableSize → (d.entry i).inUse = false) : d.toMap = fun _ => none := by
  funext key
  by_contra hne
  obtain ⟨i, hi, hused, _⟩ := (toMap_ne_none_iff (unique_of_unused h)).1 hne
  rw [h i hi] at hused
  cases hused

/-! ### What a caller can rely on -/

/--
After the calls in `history`, the directory answers as the map from the keys that are bound, and no call changes
what other keys are bound to.
-/
structure IsMap (n : Nat) (history : List Event) (d : Directory) (st : Store) : Prop where
  find : ∀ name, Found history name (d.find name)
  single : ∀ key sector sector', Bound history key sector → Bound history key sector' → sector = sector'
  unique : d.Unique
  inUse : d.slotsInUse.card = (BoundKeys history).ncard
  kept : ∀ call, call.Legal n → Returns (d.perform call) st (fun r _ =>
    ∀ name : Name, call.key? ≠ some name.key → r.1.find name = d.find name)

variable {n : Nat} {history : List Event}

theorem MapStep.apply_eq {t t' : Map} {e : Event} (h : MapStep n t e t') (hkey : e.1.key? ≠ some key)
    : t' key = t key := by
  cases h with
  | add | remove => exact Function.update_of_ne (fun heq => hkey (congrArg some heq.symm)) _ _
  | addFails | removeFails | find | writeFetch | reopen => rfl

theorem isMap_of_trace (hsize : d.tableSize = n) (h : d.Unique)
    (htrace : Trace (MapStep n) (fun _ => none) history d.toMap)
    : IsMap n history d st := by
  subst hsize
  constructor
  case find =>
    intro name
    rw [find_eq]
    exact found_of_trace htrace name
  case single =>
    intro key sector sector' hsector hsector'
    rw [← eq_some_iff_bound htrace] at hsector hsector'
    exact Option.some.inj (hsector.symm.trans hsector')
  case unique => exact h
  case inUse => rw [← keys_eq_boundKeys htrace, ncard_keys h]
  case kept =>
    intro call hlegal
    apply (returns_perform h hlegal).mono
    intro r _ ⟨_, _, hstep⟩ name hkey
    rw [find_eq, find_eq, hstep.apply_eq hkey]

theorem directory_is_map (n : Nat) (st : Store) (calls : List Call) (hcalls : ∀ call ∈ calls, call.Legal n)
    : Returns (do let d ← ofSize n; Exit.calls perform d calls) st (fun r st' =>
        r.2.map Prod.fst = calls ∧
        (∀ before e after, r.2 = before ++ e :: after → Correct n before e) ∧
        IsMap n r.2 r.1 st') := by
  rw [returns_bind]
  apply Returns.ofSize
  intro d st' hsize hunused _ _
  rw [← hsize] at hunused
  apply Returns.mono
  . apply returns_calls (fun d _ t => d.tableSize = n ∧ d.Unique ∧ d.toMap = t) (MapStep n) ?_
      ⟨hsize, unique_of_unused hunused, toMap_of_unused hunused⟩ hcalls
    intro d t call st hlegal ⟨hsize, hunique, hmap⟩
    subst hsize
    subst hmap
    apply (returns_perform hunique hlegal).mono
    intro r _ ⟨hsize', hunique', hstep⟩
    exact ⟨_, hstep, hsize', hunique', rfl⟩
  . intro r st'' ⟨hevents, t, htrace, hsize', hunique, hmap⟩
    subst hmap
    refine ⟨hevents, ?_, isMap_of_trace hsize' hunique htrace⟩
    intro before e after heq
    rw [heq] at htrace
    obtain ⟨t₁, t₂, hbefore, hstep⟩ := htrace.of_mid
    exact hstep.correct hbefore

theorem directory_is_map_reused
    : Returns (do
        let d ← ofSize 1
        Exit.calls perform d
          [.add ⟨[1, 2, 3, 4, 5, 6, 7, 8, 9, 10], by decide⟩ 7, .remove ⟨[1, 2, 3, 4, 5, 6, 7, 8, 9, 11], by decide⟩,
            .add ⟨[1, 2], by decide⟩ 8, .reopen ⟨⟨128, 1, fun _ => 5⟩, 0⟩])
        { disk := fun _ _ => 0xff, memory := fun _ _ => 0xff } (fun r st' => IsMap 1 r.2 r.1 st') := by
  have hvalid : FileHeader.Valid ⟨128, 1, fun _ => 5⟩ := by
    have hblocks : FileHeader.blocks ⟨128, 1, fun _ => 5⟩ = 1 := rfl
    have hrange : (0 : Int) ≤ 5 ∧ (5 : Int) < SynchDisk.numSectors := by decide
    refine ⟨by decide, fun i _ => hrange, ?_⟩
    intro i j hi hj _
    omega
  apply (directory_is_map 1 _ _ ?_).mono
  . intro r st' h
    exact h.2.2
  . simp only [List.forall_mem_cons, List.not_mem_nil, false_implies, implies_true, and_true]
    exact ⟨trivial, trivial, trivial, hvalid, by decide⟩

end

end Directory

end Filesys

end Nachos
