/- GID: Tacos/Fs/Inode
   generality: I
   source: src/fs/disk/inode.rs, src/fs/disk.rs, src/fs.rs, src/device/virtio.rs
   digest: The state of the disk file system and the operations of one in-memory inode. -/

import Tacos.Fs.FreeMap
import Tacos.Lib.Bytes

set_option autoImplicit false
set_option relaxedAutoImplicit false

namespace Tacos.Fs

open Tacos.Lib.Exec Tacos.Lib.Bytes

def inodeMagic : Nat := 0x494e4f44

/-- An inode on the disk: twelve bytes of numbers and the rest of the sector. -/
structure DiskInode where
  start : Nat
  len : Nat
  magic : Nat
  padding : Fin 500 → UInt8

namespace DiskInode

def toSector (d : DiskInode) : Sector := fun k =>
  if h : k.val < 12 then
    storeLE (storeLE (storeLE (fun _ => 0) 0 4 d.start) 4 4 d.len) 8 4 d.magic k.val
  else d.padding ⟨k.val - 12, by omega⟩

def ofSector (b : Sector) : DiskInode where
  start := loadLE (fun k => b (Fin.ofNat 512 k)) 0 4
  len := loadLE (fun k => b (Fin.ofNat 512 k)) 4 4
  magic := loadLE (fun k => b (Fin.ofNat 512 k)) 8 4
  padding := fun k => b ⟨k.val + 12, by omega⟩

end DiskInode

/-- What only the in-memory inode knows; `shrinkLen` is allocated bytes minus file length. -/
structure InodeDesc where
  sector : Nat
  removed : Bool
  shrinkLen : Nat
  denyWrite : Nat

structure Inode where
  desc : InodeDesc
  data : DiskInode

/-- A file descriptor on the inode with address `vnode`. -/
structure File where
  vnode : Nat
  pos : Nat
  denyWrite : Bool

def InodeDesc.new (sector shrinkLen : Nat) : InodeDesc := ⟨sector, false, shrinkLen, 0⟩

def File.new (vnode : Nat) : File := ⟨vnode, 0, false⟩

instance : Inhabited Inode := ⟨⟨.new 0 0, ⟨0, 0, 0, fun _ => 0⟩⟩⟩

/-- The device, the in-memory state of the mounted file system and the file descriptors in
existence, the one of the root directory under number 0. An address in `inodeTable` is a weak
reference: it counts when some descriptor still has it. -/
structure Sys where
  disk : Nat → Sector
  freeMap : FreeMap
  inodes : Nat → Inode
  nextInode : Nat
  files : List (Nat × File)
  nextFile : Nat
  inodeTable : Nat → Option Nat
  held : List Lock

instance : Locks Sys Lock where
  held := Sys.held
  setHeld s ls := { s with held := ls }
  held_setHeld _ _ := rfl

abbrev M (α : Type) := Call Sys OsError Halt α

/-- Run under a guard of a mutex. -/
def lock {α : Type} (l : Lock) (x : M α) : M α := withLock Halt.deadlock l x

def onFreeMap {α : Type} (x : FreeMap.Op α) : M α :=
  Call.zoom Sys.freeMap (fun s m => { s with freeMap := m }) x

namespace Virtio

def readSector (sector : Nat) : M Sector := lock .virtio fun s => .ok (s.disk sector) s

def writeSector (sector : Nat) (buf : Sector) : M Unit :=
  lock .virtio (Call.modify fun s => { s with disk := Function.update s.disk sector buf })

end Virtio

def getInode (id : Nat) : M Inode := fun s => .ok (s.inodes id) s

def setInode (id : Nat) (i : Inode) : M Unit :=
  Call.modify fun s => { s with inodes := Function.update s.inodes id i }

@[simp] theorem getInode_bind {α : Type} (id : Nat) (f : Inode → M α) (s : Sys) :
    (getInode id >>= f) s = f (s.inodes id) s := rfl

@[simp] theorem setInode_bind {α : Type} (id : Nat) (i : Inode) (f : Unit → M α) (s : Sys) :
    (setInode id i >>= f) s = f () { s with inodes := Function.update s.inodes id i } := rfl

/-- `Arc::from(Self(Mutex::new(..)))`. -/
def newInode (i : Inode) : M Nat := fun s =>
  .ok s.nextInode { s with
    inodes := Function.update s.inodes s.nextInode i
    nextInode := s.nextInode + 1 }

namespace Inode

/-- Write zeros to `cnt` sectors of the file, from the `i`-th on. -/
def zeroFrom (start : Nat) : Nat → Nat → M Unit
  | 0, _ => pure ()
  | cnt + 1, i => do
    let sector ← addU32 start i
    Virtio.writeSector sector fun _ => 0
    zeroFrom start cnt (i + 1)

def create (sector start len : Nat) : M Nat := do
  let data : DiskInode := ⟨start, len % 2 ^ 32, inodeMagic, fun _ => 0⟩
  Virtio.writeSector sector data.toSector
  zeroFrom start (bytesToSectors len) 0
  newInode ⟨.new sector 0, data⟩

/-- `Inode::open`. -/
def openAt (sector : Nat) : M Nat := do
  let data := DiskInode.ofSector (← Virtio.readSector sector)
  if data.magic ≠ inodeMagic then Call.throw .openInvalidInode
  else newInode ⟨.new sector 0, data⟩

def flushLen (id newlen : Nat) : M Unit := do
  let i ← getInode id
  let data := { i.data with len := newlen }
  setInode id { i with data := data }
  Virtio.writeSector i.desc.sector data.toSector

/-- Copy `cnt` sectors of the file to their new place, from the `i`-th on. -/
def copyFrom (oldStart newStart : Nat) : Nat → Nat → M Unit
  | 0, _ => pure ()
  | cnt + 1, i => do
    let bounce ← Virtio.readSector (← addU32 oldStart i)
    Virtio.writeSector (← addU32 newStart i) bounce
    copyFrom oldStart newStart cnt (i + 1)

/-- The end of `resize_inner` when the file cannot be extended in place. -/
def relocate (id newlen oldlen : Nat) : M Unit := do
  let i ← getInode id
  let newStart ← onFreeMap (FreeMap.alloc (bytesToSectors newlen))
  copyFrom i.data.start newStart (bytesToSectors oldlen) 0
  onFreeMap (FreeMap.dealloc i.data.start (bytesToSectors oldlen))
  setInode id ⟨{ i.desc with shrinkLen := 0 }, { i.data with start := newStart }⟩
  flushLen id newlen

/-- The part of `resize_inner` that needs more sectors than the file has. -/
def extend (id newlen oldlen : Nat) : M Unit := do
  let i ← getInode id
  let start ← addU32 i.data.start (bytesToSectors oldlen)
  let inPlace ← Call.attempt
    (onFreeMap (FreeMap.inPlaceAlloc start (bytesToSectors newlen - bytesToSectors oldlen)))
  if inPlace.isOk then
    setInode id ⟨{ i.desc with shrinkLen := 0 }, i.data⟩
    flushLen id newlen
  else relocate id newlen oldlen

/-- `resize_inner` with the free map locked. -/
def resizeLocked (id newlen : Nat) : M Unit := do
  let i ← getInode id
  if newlen = i.data.len then pure ()
  else if newlen < i.data.len then
    -- Lazy shrink: the sectors are given back when the inode is closed.
    let shrinkLen ← addU32 i.desc.shrinkLen (i.data.len - newlen)
    setInode id ⟨{ i.desc with shrinkLen := shrinkLen }, i.data⟩
    flushLen id newlen
  else
    let oldlen ← addU32 i.data.len i.desc.shrinkLen
    if newlen ≤ oldlen then
      setInode id ⟨{ i.desc with shrinkLen := oldlen - newlen }, i.data⟩
      flushLen id newlen
    else extend id newlen oldlen

def resizeInner (id size : Nat) : M Unit := lock .freeMap (resizeLocked id (size % 2 ^ 32))

def inum (id : Nat) : M Nat := lock (.inode id) do return (← getInode id).desc.sector

def len (id : Nat) : M Nat := lock (.inode id) do return (← getInode id).data.len

/-- The bytes left in the file, in the sector and in the buffer, whichever is least. -/
def chunkSize (len off bufLeft : Nat) : Nat := min (min (len - off) (512 - off % 512)) bufLeft

/-- The loop of `read_at`; the result is what is copied to the buffer. Each round but the last
takes at least one byte, so that `fuel` is one more than the length of the buffer. -/
def readLoop (start len : Nat) (buf : Slice) : (fuel bytesRead off : Nat) → M (List UInt8)
  | 0, _, _ => Call.halt .endless
  | fuel + 1, bytesRead, off => do
    let sector := start + off / 512
    let chunk := chunkSize len off (buf.bytes.length - bytesRead)
    if chunk = 0 then pure []
    else if chunk = 512 ∧ buf.fits bytesRead then
      if buf.reachable bytesRead then
        let bytes ← Virtio.readSector sector
        let rest ← readLoop start len buf fuel (bytesRead + chunk) (off + chunk)
        pure (List.ofFn bytes ++ rest)
      else Call.throw .badPtr
    else
      let bounce ← Virtio.readSector sector
      let rest ← readLoop start len buf fuel (bytesRead + chunk) (off + chunk)
      pure ((List.range chunk).map (fun k => bounce (Fin.ofNat 512 (off % 512 + k))) ++ rest)

def readAt (id : Nat) (buf : Slice) (off : Nat) : M (List UInt8) := lock (.inode id) do
  let i ← getInode id
  readLoop i.data.start i.data.len buf (buf.bytes.length + 1) 0 off

/-- The loop of `write_at`, which counts the bytes written. -/
def writeLoop (start len : Nat) (buf : Slice) : (fuel bytesWritten off : Nat) → M Nat
  | 0, _, _ => Call.halt .endless
  | fuel + 1, bytesWritten, off => do
    let sector := start + off / 512
    let chunk := chunkSize len off (buf.bytes.length - bytesWritten)
    if chunk = 0 then pure bytesWritten
    else if chunk = 512 ∧ buf.fits bytesWritten then
      if buf.reachable bytesWritten then
        Virtio.writeSector sector fun k => buf.bytes.getD (bytesWritten + k.val) 0
        writeLoop start len buf fuel (bytesWritten + chunk) (off + chunk)
      else Call.throw .badPtr
    else
      let bounce ← Virtio.readSector sector
      Virtio.writeSector sector fun k =>
        if off % 512 ≤ k.val ∧ k.val < off % 512 + chunk then
          buf.bytes.getD (bytesWritten + (k.val - off % 512)) 0
        else bounce k
      writeLoop start len buf fuel (bytesWritten + chunk) (off + chunk)

/-- Make the file long enough for a write that ends at `stop`. -/
def ensureLen (id stop : Nat) : M Unit := do
  let i ← getInode id
  if i.data.len < stop then resizeInner id stop else pure ()

def writeAt (id : Nat) (buf : Slice) (off : Nat) : M Nat := do
  let denyWrite ← lock (.inode id) do return (← getInode id).desc.denyWrite
  if 0 < denyWrite then Call.throw .invalidFileMode
  else lock (.inode id) do
    if 2 ^ 64 ≤ off + buf.bytes.length then Call.halt .overflow
    else
      ensureLen id (off + buf.bytes.length)
      let i ← getInode id
      writeLoop i.data.start i.data.len buf (buf.bytes.length + 1) 0 off

def resize (id newlen : Nat) : M Unit := lock (.inode id) (resizeInner id newlen)

/-- `Inode::remove`. -/
def remove (id : Nat) : M Unit := lock (.inode id) do
  let i ← getInode id
  setInode id { i with desc := { i.desc with removed := true } }

end Inode

end Tacos.Fs
