import Nachos.Filesys.FileHdr
import Nachos.Filesys.Directory

/-!
This module contains `filesys.cc` and a program that uses the file system: its calls, the files that it
has open, and what is known of a file besides what is on the disk.
-/

namespace Nachos

namespace Filesys

open SynchDisk (numSectors)

def freeMapSector : Nat := 0
def directorySector : Nat := 1
def numDirEntries : Nat := 10
def freeMapFileSize : Nat := numSectors / bitsInByte
def directoryFileSize : Nat := Directory.entrySize * numDirEntries

structure FileSystem where
  freeMapFile : OpenFile
  directoryFile : OpenFile

namespace FileSystem

def assertAllocate (freeMap : BitMap) (fileSize : Nat) : FS (FileHeader × BitMap) := do
  let memory ← new
  let (success, hdr, freeMap) ← (FileHeader.ofBytes memory).allocate freeMap fileSize
  if success then
    return (hdr, freeMap)
  else
    Exit.abort .space

/--
`FileSystem(FALSE)`.
-/
def mount : FS FileSystem := do
  let freeMapFile ← OpenFile.ofSector freeMapSector
  let directoryFile ← OpenFile.ofSector directorySector
  return { freeMapFile, directoryFile }

/--
`FileSystem(TRUE)`.
-/
def format : FS FileSystem := do
  let freeMap ← BitMap.ofSize numSectors
  let directory ← Directory.ofSize numDirEntries
  let freeMap ← freeMap.mark freeMapSector
  let freeMap ← freeMap.mark directorySector
  let (mapHdr, freeMap) ← assertAllocate freeMap freeMapFileSize
  let (dirHdr, freeMap) ← assertAllocate freeMap directoryFileSize
  mapHdr.writeBack freeMapSector
  dirHdr.writeBack directorySector
  let fs ← mount
  freeMap.writeBack fs.freeMapFile
  directory.writeBack fs.directoryFile
  return fs

def fetchDirectory (fs : FileSystem) : FS Directory := do
  let directory ← Directory.ofSize numDirEntries
  directory.fetchFrom fs.directoryFile

def fetchFreeMap (fs : FileSystem) : FS BitMap := do
  let freeMap ← BitMap.ofSize numSectors
  freeMap.fetchFrom fs.freeMapFile

def create (fs : FileSystem) (name : Name) (initialSize : Int) : FS Bool := do
  let directory ← fs.fetchDirectory
  if directory.find name ≠ -1 then
    return false
  else
    let freeMap ← fs.fetchFreeMap
    let (sector, freeMap) := freeMap.find
    if sector = -1 then
      return false
    else
      let (added, directory) := directory.add name sector
      if !added then
        return false
      else
        let memory ← new
        let (success, hdr, freeMap) ← (FileHeader.ofBytes memory).allocate freeMap initialSize
        if !success then
          return false
        else
          hdr.writeBack sector
          directory.writeBack fs.directoryFile
          freeMap.writeBack fs.freeMapFile
          return true

def openFile (fs : FileSystem) (name : Name) : FS (Option OpenFile) := do
  let directory ← fs.fetchDirectory
  let sector := directory.find name
  if sector ≥ 0 then
    return some (← OpenFile.ofSector sector)
  else
    return none

def remove (fs : FileSystem) (name : Name) : FS Bool := do
  let directory ← fs.fetchDirectory
  let sector := directory.find name
  if sector = -1 then
    return false
  else
    let fileHdr ← FileHeader.fetchFrom sector
    let freeMap ← fs.fetchFreeMap
    let freeMap ← fileHdr.deallocate freeMap
    let freeMap ← freeMap.clear sector
    let (_, directory) := directory.remove name
    freeMap.writeBack fs.freeMapFile
    directory.writeBack fs.directoryFile
    return true

end FileSystem

end Filesys

end Nachos
