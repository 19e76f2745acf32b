/- GID: Tacos/Fs/Base
   generality: I
   source: src/error.rs, src/mem.rs, src/mem/utils.rs, src/device/virtio.rs, src/fs/disk.rs
   digest: Errors, locks, sectors and caller buffers of the disk file system. -/

import Tacos.Lib.Exec
import Tacos.Mem.Utils

set_option autoImplicit false
set_option relaxedAutoImplicit false

namespace Tacos.Fs

open Tacos.Lib.Exec Tacos.Mem

inductive OsError where
  | badPtr
  | unexpectedEOF
  | noSuchFile
  | unknownFormat
  | userError
  | createExistInode
  | openInvalidInode
  | diskSectorAllocFail
  | rootDirFull
  | cstrFormatErr
  | argumentTooLong
  | invalidFileMode
  | fileNotOpened
  deriving DecidableEq

/-- The mutexes of the file system; an in-memory inode is named by the address of its `Arc`. -/
inductive Lock where
  | rootDir
  | freeMap
  | inodeTable
  | inode (id : Nat)
  | virtio
  deriving DecidableEq

/-- Why a call does not come back: a failed assertion, an arithmetic overflow, a slice or array
access out of bounds, an `expect` or `unwrap` of nothing, a loop without end, a thread that waits
for itself. -/
inductive Halt where
  | assertion
  | overflow
  | bounds
  | expect
  | endless
  | deadlock (l : Lock)
  deriving DecidableEq

instance sectorSizePos : NeZero 512 := ⟨by decide⟩

/-- `[u8; SECTOR_SIZE]`. -/
abbrev Sector := Fin 512 → UInt8

def bytesToSectors (bytes : Nat) : Nat := (bytes + 511) / 512 % 2 ^ 32

theorem bytesToSectors_of_lt {bytes : Nat} (h : bytes < 2 ^ 32) :
    bytesToSectors bytes = (bytes + 511) / 512 := by
  rw [bytesToSectors]
  omega

/-- Addition of two `u32`. -/
def addU32 {σ : Type} (a b : Nat) : Call σ OsError Halt Nat :=
  if a + b < 2 ^ 32 then pure (a + b) else Call.halt .overflow

def vmOffset : Nat := 0xFFFFFFC080000000 - 0x80000000

def inKernelSpace (va : Nat) : Prop := va &&& vmOffset = vmOffset

instance (va : Nat) : Decidable (inKernelSpace va) := inferInstanceAs (Decidable (_ = _))

/-- `translate(va, len)`; `pte` gives the kernel address of the page that a user address is mapped
to, if it is. -/
def translate (pte : Nat → Option Nat) (va len : Nat) : Option Nat :=
  if inKernelSpace va then some va
  else if va / pgSize ≠ (va + len - 1) / pgSize then none
  else (pte va).map fun page => page ||| (va &&& 0xFFF)

/-- A byte slice of the caller: where it is, what it holds, and the page table it is read with. -/
structure Slice where
  addr : Nat
  bytes : List UInt8
  pte : Nat → Option Nat

namespace Slice

/-- Every byte of the slice is in the kernel's address space. -/
def InKernel (b : Slice) : Prop := ∀ i < b.bytes.length, inKernelSpace (b.addr + i)

/-- Whether the `i`-th byte is at a page offset from which a whole sector fits in the page. -/
def fits (b : Slice) (i : Nat) : Bool := (b.addr + i) % pgSize ≤ pgSize - 512

/-- Whether the sector-sized part from the `i`-th byte on can be handed to the device. -/
def reachable (b : Slice) (i : Nat) : Bool := (translate b.pte (b.addr + i) 512).isSome

/-- The memory of the first `n` bytes is there, in the kernel's space or in the page table. -/
def Mapped (b : Slice) (n : Nat) : Prop :=
  ∀ i < n, inKernelSpace (b.addr + i) ∨ (b.pte (b.addr + i)).isSome

theorem InKernel.mapped {b : Slice} (h : b.InKernel) : b.Mapped b.bytes.length :=
  fun i hi => .inl (h i hi)

theorem Mapped.reachable {b : Slice} {n i : Nat} (h : b.Mapped n) (hi : i < n)
    (fits : b.fits i = true) : b.reachable i := by
  rw [Slice.reachable, translate]
  obtain kernel | there := h i hi
  · rw [if_pos kernel]
    rfl
  · split
    · rfl
    · have size : pgSize = 4096 := rfl
      have inside : (b.addr + i) % pgSize ≤ pgSize - 512 := of_decide_eq_true fits
      have page : (b.addr + i) / pgSize = (b.addr + i + 512 - 1) / pgSize := by
        rw [size] at inside ⊢
        omega
      rw [if_neg (not_not.mpr page), Option.isSome_map]
      exact there

end Slice

end Tacos.Fs
