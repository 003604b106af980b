import Nachos.Filesys.FileSystem

/-!
This module contains programs that use the file system: their calls and the files that they have open,
together with a history of what the calls have done.
-/

namespace Nachos

namespace Filesys

/--
An `OpenFile` that `Open` has returned for the file with this key. Every successful `Create` makes a new file: `id`
is the number of the one that was opened.
-/
structure Handle where
  file : OpenFile
  key : List (BitVec 8)
  id : Option Nat

/--
`handles` are all the files ever opened. The rest is history: `current` is the number of the file that has a key
now, `created` how many files there have been, `written` which bytes of the current file have been written since it
was created, and `writer` the file that a byte of the disk was written for last.
-/
structure Session where
  store : Store
  fs : FileSystem
  handles : List Handle
  current : List (BitVec 8) → Option Nat
  created : Nat
  written : List (BitVec 8) → Nat → Bool
  writer : Nat → Nat → Option Nat

inductive Call where
  | create (name : Name) (initialSize : Int32)
  | openFile (name : Name)
  | remove (name : Name)
  | mount
  | readAt (handle : Nat) (numBytes position : Int32)
  | writeAt (handle : Nat) (source : Buffer) (numBytes position : Int32)
  | read (handle : Nat) (numBytes : Int32)
  | write (handle : Nat) (source : Buffer) (numBytes : Int32)
  | seek (handle : Nat) (position : Int32)
  | length (handle : Nat)

def Call.Sized : Call → Prop
  | .create _ initialSize => 0 ≤ initialSize.toInt
  | _ => True

def Call.Spares (key : List (BitVec 8)) : Call → Prop
  | .create name _ => name.key ≠ key
  | .remove name => name.key ≠ key
  | _ => True

def Call.through : Call → Option (Nat × (Handle → Int))
  | .readAt i _ position => some (i, fun _ => position.toInt)
  | .writeAt i _ _ position => some (i, fun _ => position.toInt)
  | .read i _ => some (i, fun h => h.file.seekPosition)
  | .write i _ _ => some (i, fun h => h.file.seekPosition)
  | _ => none

/--
What a call returns. The bytes that are read count up to `count`.
-/
inductive Result where
  | success (value : Bool)
  | handle (value : Option Nat)
  | data (count : Int) (bytes : Buffer)
  | count (value : Int)
  | none

namespace Session

open Function (update)
open Exit (modify)

abbrev Run : Type → Type :=
  Exit Fault Session

def call (f : FileSystem → FS α) : Run α :=
  fun w =>
    match f w.fs w.store with
    | .error fault => .error fault
    | .ok (result, store) => .ok (result, { w with store })

def disk (w : Session) : Nat → Buffer :=
  w.store.disk

def seekTo (w : Session) (i : Nat) (position : Int) : Session :=
  { w with handles := w.handles.modify i fun h => { h with file := h.file.seek position } }

def stamp (w : Session) (h : Handle) (position count : Nat) : Session :=
  { w with
    written := update w.written h.key fun offset =>
      w.written h.key offset || (position ≤ offset && offset < position + count)
    writer := fun n i =>
      if (List.range count).any fun j =>
          h.file.hdr.sector ((position + j) / sectorSize) == n && (position + j) % sectorSize == i then
        h.id
      else
        w.writer n i }

def perform : Call → Run Result
  | .create name initialSize => do
    let success ← call fun fs => fs.create name initialSize.toInt
    if success then
      modify fun w =>
        { w with
          current := update w.current name.key (some w.created)
          created := w.created + 1
          written := update w.written name.key fun _ => false }
    return .success success
  | .openFile name => do
    match ← call fun fs => fs.openFile name with
    | some file =>
      let i ← Exit.read fun w => w.handles.length
      modify fun w => { w with handles := w.handles ++ [{ file, key := name.key, id := w.current name.key }] }
      return .handle (some i)
    | none => return .handle none
  | .remove name => do
    let success ← call fun fs => fs.remove name
    if success then
      modify fun w => { w with current := update w.current name.key none }
    return .success success
  | .mount => do
    let fs ← call fun _ => FileSystem.mount
    modify fun w => { w with fs }
    return .none
  | .readAt i numBytes position => do
    match ← Exit.read fun w => w.handles[i]? with
    | some h =>
      let (count, bytes) ← call fun _ => h.file.readAt numBytes.toInt position.toInt
      return .data count bytes
    | none => return .none
  | .writeAt i source numBytes position => do
    match ← Exit.read fun w => w.handles[i]? with
    | some h =>
      let count ← call fun _ => h.file.writeAt source numBytes.toInt position.toInt
      modify fun w => w.stamp h position.toInt.toNat count.toNat
      return .count count
    | none => return .none
  | .read i numBytes => do
    match ← Exit.read fun w => w.handles[i]? with
    | some h =>
      let ((count, bytes), file) ← call fun _ => h.file.read numBytes.toInt
      modify fun w => w.seekTo i file.seekPosition
      return .data count bytes
    | none => return .none
  | .write i source numBytes => do
    match ← Exit.read fun w => w.handles[i]? with
    | some h =>
      let (count, file) ← call fun _ => h.file.write source numBytes.toInt
      modify fun w => (w.stamp h h.file.seekPosition.toNat count.toNat).seekTo i file.seekPosition
      return .count count
    | none => return .none
  | .seek i position => do
    modify fun w => w.seekTo i position.toInt
    return .none
  | .length i => do
    match ← Exit.read fun w => w.handles[i]? with
    | some h => return .count h.file.length
    | none => return .none

def Live (w : Session) (h : Handle) : Prop :=
  h.id.isSome = true ∧ w.current h.key = h.id

instance (w : Session) (h : Handle) : Decidable (w.Live h) :=
  inferInstanceAs (Decidable (_ ∧ _))

def InRange (w : Session) (i : Nat) (numBytes : Int) (position : Handle → Int) : Prop :=
  ∃ h, w.handles[i]? = some h ∧ w.Live h ∧ 0 ≤ position h ∧ position h + numBytes < 2 ^ 31

def Legal (w : Session) : Call → Prop
  | .create _ initialSize => initialSize.toInt ≤ maxFileSize
  | .readAt i numBytes position => w.InRange i numBytes.toInt fun _ => position.toInt
  | .writeAt i _ numBytes position => w.InRange i numBytes.toInt fun _ => position.toInt
  | .read i numBytes => w.InRange i numBytes.toInt fun h => h.file.seekPosition
  | .write i _ numBytes => w.InRange i numBytes.toInt fun h => h.file.seekPosition
  | .openFile _ | .remove _ | .mount | .seek _ _ | .length _ => True

def Start (w : Session) : Prop :=
  ∃ s fs s', FileSystem.format s = .ok (some fs, s') ∧
    w =
      { store := s'
        fs
        handles := []
        current := fun _ => none
        created := 0
        written := fun _ _ => false
        writer := fun _ _ => none }

def Step (w w' : Session) : Prop :=
  ∃ c r, w.Legal c ∧ perform c w = .ok (some r, w')

def Event (w : Session) (e : Call × Result) (w' : Session) : Prop :=
  w.Legal e.1 ∧ e.1.Sized ∧ perform e.1 w = .ok (some e.2, w')

end Session

end Filesys

end Nachos
