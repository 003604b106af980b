import Mathlib.Data.Finmap
import Nachos.Filesys.Session

/-!
This module contains what the file system is for: a finite map from names to arrays of bytes, where the
length of an array never changes. Names are the same if their keys are.
-/

namespace Nachos

namespace Filesys

namespace NamedFiles

structure File where
  length : Nat
  byte : Nat → BitVec 8

namespace File

def transferred (f : File) (numBytes position : Int) : Int :=
  if numBytes ≤ 0 ∨ position ≥ f.length then 0 else min numBytes (f.length - position)

def write (f : File) (source : Buffer) (position count : Nat) : File :=
  { f with
    byte := fun offset =>
      if position ≤ offset ∧ offset < position + count then source (offset - position) else f.byte offset }

end File

/--
`live` tells whether the file that was opened is still there.
-/
structure Handle where
  key : List (BitVec 8)
  position : Int
  live : Bool

def Handle.close (key : List (BitVec 8)) (h : Handle) : Handle :=
  { h with live := h.live && decide (h.key ≠ key) }

end NamedFiles

structure NamedFiles where
  files : Finmap fun _ : List (BitVec 8) => NamedFiles.File
  handles : List NamedFiles.Handle

namespace NamedFiles

def empty : NamedFiles where
  files := ∅
  handles := []

def seekTo (a : NamedFiles) (i : Nat) (position : Int) : NamedFiles :=
  { a with handles := a.handles.modify i fun h => { h with position } }

structure Opened (a : NamedFiles) (i : Nat) (h : Handle) (f : File) : Prop where
  handle : a.handles[i]? = some h
  live : h.live = true
  file : a.files.lookup h.key = some f

/--
A call and its result. `Create` may fail for lack of room, and the bytes of a new file are arbitrary.
-/
inductive Step (a : NamedFiles) : Call × Result → NamedFiles → Prop where
  | create {name : Name} {size : Int32} (f : File) (habsent : name.key ∉ a.files) (hlength : f.length = size.toInt)
    : Step a (.create name size, .success true) { a with files := a.files.insert name.key f }
  | createFail {name : Name} {size : Int32} : Step a (.create name size, .success false) a
  | openFile {name : Name} (h : name.key ∈ a.files)
    : Step a (.openFile name, .handle (some a.handles.length))
        { a with handles := a.handles ++ [{ key := name.key, position := 0, live := true }] }
  | openFail {name : Name} (h : name.key ∉ a.files) : Step a (.openFile name, .handle none) a
  | remove {name : Name} (h : name.key ∈ a.files)
    : Step a (.remove name, .success true)
        { files := a.files.erase name.key, handles := a.handles.map (Handle.close name.key) }
  | removeFail {name : Name} (h : name.key ∉ a.files) : Step a (.remove name, .success false) a
  | mount : Step a (.mount, .none) a
  | readAt {i : Nat} {numBytes position : Int32} {h : Handle} {f : File} {bytes : Buffer} (hopened : a.Opened i h f)
    (hbytes : ∀ j : Nat, j < f.transferred numBytes.toInt position.toInt →
      bytes j = f.byte (position.toInt.toNat + j))
    : Step a (.readAt i numBytes position, .data (f.transferred numBytes.toInt position.toInt) bytes) a
  | writeAt {i : Nat} {source : Buffer} {numBytes position : Int32} {h : Handle} {f : File}
    (hopened : a.Opened i h f)
    : Step a (.writeAt i source numBytes position, .count (f.transferred numBytes.toInt position.toInt))
        { a with
          files := a.files.insert h.key
            (f.write source position.toInt.toNat (f.transferred numBytes.toInt position.toInt).toNat) }
  | read {i : Nat} {numBytes : Int32} {h : Handle} {f : File} {bytes : Buffer} (hopened : a.Opened i h f)
    (hbytes : ∀ j : Nat, j < f.transferred numBytes.toInt h.position → bytes j = f.byte (h.position.toNat + j))
    : Step a (.read i numBytes, .data (f.transferred numBytes.toInt h.position) bytes)
        (a.seekTo i (h.position + f.transferred numBytes.toInt h.position))
  | write {i : Nat} {source : Buffer} {numBytes : Int32} {h : Handle} {f : File} (hopened : a.Opened i h f)
    : Step a (.write i source numBytes, .count (f.transferred numBytes.toInt h.position))
        (({ a with
            files := a.files.insert h.key
              (f.write source h.position.toNat (f.transferred numBytes.toInt h.position).toNat) } : NamedFiles).seekTo i
          (h.position + f.transferred numBytes.toInt h.position))
  | seek {i : Nat} {position : Int32} : Step a (.seek i position, .none) (a.seekTo i position.toInt)
  | length {i : Nat} {h : Handle} {f : File} (hopened : a.Opened i h f)
    : Step a (.length i, .count f.length) a
  -- Nothing is said about the length of a file that is not there.
  | lengthOther {i : Nat} {r : Result} (h : ∀ h f, ¬a.Opened i h f) : Step a (.length i, r) a

end NamedFiles

end Filesys

end Nachos
