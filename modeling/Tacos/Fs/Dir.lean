/- GID: Tacos/Fs/Dir
   generality: I
   source: src/fs.rs, src/io.rs, src/fs/disk/dir.rs, src/fs/disk/path.rs, src/fs/disk/inode.rs
   digest: File descriptors, the root directory and the closing of an inode. -/

import Tacos.Fs.Descriptor

set_option autoImplicit false
set_option relaxedAutoImplicit false

namespace Tacos.Fs

open Tacos.Lib.Exec Tacos.Lib.Bytes

def Sys.file (s : Sys) (h : Nat) : File := (s.files.lookup h).getD (.new 0)

def Sys.setPos (s : Sys) (h pos : Nat) : Sys :=
  { s with files := s.files.map fun p => if p.1 = h then (h, { p.2 with pos := pos }) else p }

namespace File

def getFile (h : Nat) : M File := fun s => .ok (s.file h) s

/-- The descriptor `h` of the disk file system. -/
def descriptor (h : Nat) : Descriptor Sys where
  pos := fun s => (s.file h).pos
  setPos := fun p s => s.setPos h p
  readAt := fun buf off s => Inode.readAt (s.file h).vnode buf off s
  writeAt := fun buf off s => Inode.writeAt (s.file h).vnode buf off s
  len := fun s => Inode.len (s.file h).vnode s

def read (h : Nat) (buf : Slice) : M (List UInt8) := (descriptor h).read buf

def write (h : Nat) (buf : Slice) : M Nat := (descriptor h).write buf

def seek (h : Nat) (pos : SeekFrom) : M Nat := (descriptor h).seek pos

def rewind (h : Nat) : M Unit := (descriptor h).rewind

def readInto (h size : Nat) : M (List UInt8) := (descriptor h).readInto size

def writeFrom (h : Nat) (value : List UInt8) : M Unit := (descriptor h).writeFrom value

def setLen (h size : Nat) : M Unit := do
  let f ← getFile h
  Inode.resize f.vnode size

end File

/-- The bytes of a file name. -/
abbrev Path := List UInt8

structure DirEntry where
  name : Fin 28 → UInt8
  inum : Nat

namespace DirEntry

/-- `'#' as u8`. -/
def tombstone : UInt8 := 35

def isValid (e : DirEntry) : Bool := e.name 0 != tombstone && e.name 0 != 0

def invalidate (e : DirEntry) : DirEntry := { e with name := Function.update e.name 0 tombstone }

def toBytes (e : DirEntry) : List UInt8 :=
  List.ofFn e.name ++ (List.range 4).map (storeLE (fun _ => 0) 0 4 e.inum)

/-- The C string at the name: a name without a NUL goes on into the number. -/
def cstr (e : DirEntry) : List UInt8 := e.toBytes.takeWhile (· != 0)

def ofBytes (bytes : List UInt8) : DirEntry where
  name := fun k => bytes.getD k.val 0
  inum := loadLE (fun k => bytes.getD k 0) 28 4

end DirEntry

/-- UTF-8 from the middle of a character on: `need` continuation bytes are missing, the next of
them between `lo` and `hi`. -/
def isUtf8From (need lo hi : Nat) : List UInt8 → Bool
  | [] => need = 0
  | b :: rest =>
    let b := b.toNat
    if need = 0 then
      if b < 0x80 then isUtf8From 0 0x80 0xBF rest
      else if 0xC2 ≤ b ∧ b ≤ 0xDF then isUtf8From 1 0x80 0xBF rest
      else if b = 0xE0 then isUtf8From 2 0xA0 0xBF rest
      else if b = 0xED then isUtf8From 2 0x80 0x9F rest
      else if 0xE1 ≤ b ∧ b ≤ 0xEF then isUtf8From 2 0x80 0xBF rest
      else if b = 0xF0 then isUtf8From 3 0x90 0xBF rest
      else if 0xF1 ≤ b ∧ b ≤ 0xF3 then isUtf8From 3 0x80 0xBF rest
      else if b = 0xF4 then isUtf8From 3 0x80 0x8F rest
      else false
    else decide (lo ≤ b ∧ b ≤ hi) && isUtf8From (need - 1) 0x80 0xBF rest

/-- What `CStr::to_str` accepts. -/
def isUtf8 (bytes : List UInt8) : Bool := isUtf8From 0 0x80 0xBF bytes

def isAscii (bytes : List UInt8) : Bool := bytes.all (· < 128)

namespace RootDir

/-- `self.0.read_into::<DirEntry>()`. -/
def readEntry : M DirEntry := do return .ofBytes (← File.readInto 0 32)

/-- `self.0.write_from(entry)`. -/
def writeEntry (e : DirEntry) : M Unit := File.writeFrom 0 e.toBytes

/-- One more than the entries the directory file has room for, which bounds the loops below. -/
def rounds : M Nat := fun s => .ok ((s.inodes (s.file 0).vnode).data.len / 32 + 1) s

def path2inumLoop (path : Path) : (fuel : Nat) → M Nat
  | 0 => Call.halt .endless
  | fuel + 1 => do
    match ← Call.attempt readEntry with
    | .error _ => Call.throw .noSuchFile
    | .ok entry =>
      if entry.isValid then
        if isUtf8 entry.cstr then
          if path = entry.cstr then pure entry.inum else path2inumLoop path fuel
        else Call.throw .cstrFormatErr
      else path2inumLoop path fuel

def path2inum (path : Path) : M Nat := do
  File.rewind 0
  path2inumLoop path (← rounds)

/-- `RootDir::exists`. -/
def contains (path : Path) : M Bool := do return (← Call.attempt (path2inum path)).isOk

def firstInvalidLoop : (fuel : Nat) → M Nat
  | 0 => Call.halt .endless
  | fuel + 1 => do
    match ← Call.attempt readEntry with
    | .error _ => Call.throw .rootDirFull
    | .ok entry =>
      if entry.isValid then firstInvalidLoop fuel
      else File.seek 0 (.current (-32))

def firstInvalid : M Nat := do
  File.rewind 0
  firstInvalidLoop (← rounds)

/-- The entry of a new file. The copy of the name stops the machine when the lengths differ. -/
def newEntry (path : Path) (inum : Nat) : M DirEntry :=
  if path.length = min path.length 27 then pure ⟨fun k => path.getD k.val 0, inum⟩
  else Call.halt .bounds

def insert (path : Path) (inum : Nat) : M Unit := do
  if isAscii path then
    let pos ← firstInvalid
    let entry ← newEntry path inum
    let _ ← File.seek 0 (.start pos)
    writeEntry entry
  else Call.throw .cstrFormatErr

def removeLoop (inum : Nat) : (fuel : Nat) → M Unit
  | 0 => Call.halt .endless
  | fuel + 1 => do
    match ← Call.attempt readEntry with
    | .error _ => pure ()
    | .ok entry =>
      if entry.inum = inum then
        let _ ← File.seek 0 (.current (-32))
        writeEntry entry.invalidate
        removeLoop inum fuel
      else removeLoop inum fuel

def remove (inum : Nat) : M Unit := do
  File.rewind 0
  removeLoop inum (← rounds)

end RootDir

/-- `expect` and `unwrap`. -/
def expect {α : Type} (x : M α) : M α := do
  match ← Call.attempt x with
  | .ok a => pure a
  | .error _ => Call.halt .expect

namespace Inode

def trim (i : Inode) : M Unit :=
  if 0 < i.desc.shrinkLen then do
    let stop ← addU32 i.data.len 512
    let sector ← addU32 i.data.start ((stop - 1) / 512)
    lock .freeMap (onFreeMap (FreeMap.dealloc sector (i.desc.shrinkLen / 512)))
  else pure ()

def erase (i : Inode) : M Unit :=
  if i.desc.removed then lock .rootDir do
    expect (RootDir.remove i.desc.sector)
    lock .freeMap do
      onFreeMap (FreeMap.dealloc i.data.start (bytesToSectors i.data.len))
      onFreeMap (FreeMap.dealloc i.desc.sector 1)
  else pure ()

def close (id : Nat) : M Unit := lock (.inode id) do
  let i ← getInode id
  trim i
  erase i

def allowWrite (id : Nat) : M Unit := lock (.inode id) do
  let i ← getInode id
  if i.desc.denyWrite = 0 then Call.halt .overflow
  else setInode id { i with desc := { i.desc with denyWrite := i.desc.denyWrite - 1 } }

end Inode

end Tacos.Fs
