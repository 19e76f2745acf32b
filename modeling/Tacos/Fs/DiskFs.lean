/- GID: Tacos/Fs/DiskFs
   generality: I
   source: src/fs/disk.rs, src/fs/disk/free_map.rs, src/fs.rs
   digest: Mounting, and creating, opening, removing and dropping files. -/

import Tacos.Fs.Dir

set_option autoImplicit false
set_option relaxedAutoImplicit false

namespace Tacos.Fs

open Tacos.Lib.Exec

def freeMapSector : Nat := 0

def rootDirSector : Nat := 1

def rootDirSectorLen : Nat := 8

/-- Whether some file descriptor has the inode at this address. -/
def Sys.referenced (s : Sys) (id : Nat) : Bool := s.files.any fun p => p.2.vnode == id

/-- `get(&inum).and_then(Weak::upgrade)` on the inode table. -/
def Sys.upgrade (s : Sys) (inum : Nat) : Option Nat := (s.inodeTable inum).filter s.referenced

def upgrade (inum : Nat) : M (Option Nat) := fun s => .ok (s.upgrade inum) s

/-- `inode_table.insert(inum, Arc::downgrade(&vnode))`. -/
def register (inum vnode : Nat) : M Unit := lock .inodeTable
  (Call.modify fun s => { s with inodeTable := Function.update s.inodeTable inum (some vnode) })

/-- The end of a local `Arc`. The inode is closed when no file descriptor has it either. -/
def dropArc (id : Nat) : M Unit := do
  let s ← Call.get
  if s.referenced id then pure () else Inode.close id

/-- A call with a local `Arc` that is dropped when the call fails. -/
def withArc {α : Type} (id : Nat) (x : M α) : M α := do
  match ← Call.attempt x with
  | .ok a => pure a
  | .error e =>
    dropArc id
    Call.throw e

/-- `File::new`. -/
def newFile (vnode : Nat) : M Nat := fun s =>
  .ok s.nextFile { s with files := (s.nextFile, .new vnode) :: s.files, nextFile := s.nextFile + 1 }

namespace FreeMap

/-- `FreeMap::new_format`; the map is the free map of the state from here on. -/
def newFormat (size : Nat) : M Unit := do
  let bitmapLenInByte := (size + 7) / 8
  Call.modify fun s => { s with freeMap := zeros size }
  onFreeMap (set freeMapSector)
  onFreeMap (set rootDirSector)
  let start ← onFreeMap (alloc (bytesToSectors bitmapLenInByte))
  let inode ← Inode.create freeMapSector start bitmapLenInByte
  dropArc inode

/-- The bytes read, as the map of a disk of the given size. -/
def ofBytes (size : Nat) (bytes : List UInt8) : FreeMap where
  size := size
  bits := (bytes ++ List.replicate ((size + 7) / 8) 0).take ((size + 7) / 8)
  length_bits := by simp

/-- `FreeMap::load`. -/
def load (size : Nat) : M Unit := do
  let inode ← Inode.openAt freeMapSector
  withArc inode do
    let len ← Inode.len inode
    if len = (size + 7) / 8 then
      let bytes ← Inode.readAt inode (File.vec (List.replicate len 0)) 0
      Call.modify fun s => { s with freeMap := ofBytes size bytes }
    else Call.halt .assertion
  dropArc inode

/-- `FreeMap::flush`. -/
def flush : M Unit := do
  let inode ← Inode.openAt freeMapSector
  let s ← Call.get
  withArc inode do
    let _ ← Inode.writeAt inode (File.vec s.freeMap.bits) 0
  dropArc inode

end FreeMap

namespace DiskFs

def mountRoot : M Nat := do
  match ← Call.attempt (Inode.openAt rootDirSector) with
  | .ok vnode => pure vnode
  | .error _ =>
    let start ← lock .freeMap (onFreeMap (FreeMap.alloc rootDirSectorLen))
    Inode.create rootDirSector start (rootDirSectorLen * 512)

def mountFreeMap (size : Nat) : M Unit := do
  match ← Call.attempt (FreeMap.load size) with
  | .ok () => pure ()
  | .error _ => FreeMap.newFormat size

def mount (capacity : Nat) : M Unit := do
  Call.modify fun s => { s with inodeTable := fun _ => none }
  mountFreeMap (capacity % 2 ^ 32)
  let vnode ← mountRoot
  register rootDirSector vnode
  Call.modify fun s => { s with files := [(0, .new vnode)], nextFile := 1 }

/-- `DiskFs::unmount`, which ignores how the flush ends. -/
def unmount : M Unit := lock .freeMap do
  let _ ← Call.attempt FreeMap.flush

/-- The inode in memory, or the one on the disk as an inode that the table does not know. -/
def upgradeOrOpen (inum : Nat) : M Nat := lock .inodeTable do
  match ← upgrade inum with
  | some arc => pure arc
  | none => Inode.openAt inum

def createExisting (path : Path) : M Nat := do
  let inum ← lock .rootDir (expect (RootDir.path2inum path))
  let vnode ← upgradeOrOpen inum
  withArc vnode (Inode.resize vnode 0)
  pure vnode

def createNew (path : Path) : M Nat := do
  let sector ← lock .freeMap (onFreeMap (FreeMap.alloc 1))
  let start ← lock .freeMap (onFreeMap (FreeMap.alloc (bytesToSectors 0)))
  let vnode ← Inode.create sector start 0
  register sector vnode
  withArc vnode (lock .rootDir (RootDir.insert path sector))
  pure vnode

def createInode (path : Path) : M Nat := do
  if ← lock .rootDir (RootDir.contains path) then createExisting path else createNew path

def create (path : Path) : M Nat := do
  let vnode ← createInode path
  newFile vnode

/-- `DiskFs::open`. -/
def openFile (path : Path) : M Nat := do
  if ← lock .rootDir (RootDir.contains path) then
    let inum ← lock .rootDir (expect (RootDir.path2inum path))
    match ← lock .inodeTable (upgrade inum) with
    | some arc => newFile arc
    | none =>
      let vnode ← Inode.openAt inum
      register inum vnode
      newFile vnode
  else Call.throw .noSuchFile

def removeOpen (inum : Nat) : M Bool := lock .inodeTable do
  match ← upgrade inum with
  | some arc =>
    Inode.remove arc
    dropArc arc
    pure true
  | none => pure false

/-- `DiskFs::remove`. The guard of the root directory lives to the end of the call, the local
inode is dropped before it. -/
def remove (path : Path) : M Unit := do
  let inum ← lock .rootDir (RootDir.path2inum path)
  lock .rootDir do
    RootDir.remove inum
    if ← removeOpen inum then pure ()
    else
      let inode ← Inode.openAt inum
      Inode.remove inode
      dropArc inode

/-- `Drop::drop` of a `File`, which comes before its fields are dropped. -/
def allowWrite (f : File) : M Unit := if f.denyWrite then Inode.allowWrite f.vnode else pure ()

/-- The drop of a `File`. -/
def dropFile (h : Nat) : M Unit := do
  let f ← File.getFile h
  allowWrite f
  Call.modify fun s => { s with files := s.files.filter (·.1 != h) }
  dropArc f.vnode

end DiskFs

end Tacos.Fs
