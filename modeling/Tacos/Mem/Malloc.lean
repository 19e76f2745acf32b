/- GID: Tacos/Mem/Malloc
   generality: I
   source: src/mem/malloc.rs
   digest: The kernel heap: size classes served from one-page arenas, larger requests from the
     page allocator. -/

import Tacos.Mem.Palloc
import Mathlib.Data.Fintype.Basic
import Mathlib.Data.List.FinRange

set_option autoImplicit false
set_option relaxedAutoImplicit false

namespace Tacos.Mem

open Tacos.Lib.Bytes

def arenaMagic : Nat := 0x9a548eed

def maxBlksize : Nat := pgSize / 4

/-- `size_of::<Arena>()`: `magic` and `free_cnt` are 32-bit, `desc` is a pointer. -/
def arenaSize : Nat := 16

/-- `size_of::<Desc>()`. -/
def descSize : Nat := 48

structure Layout where
  size : Nat
  align : Nat
  deriving DecidableEq, Repr

def isPowerOfTwo (n : Nat) : Bool := n = 2 ^ Nat.log2 n

/-- A pool of blocks of one size. `arenas` is ghost: the pages taken for this pool. -/
structure Desc where
  blockSize : Nat
  blocksPerArena : Nat
  freeList : InMemList
  allocated : Nat
  free : Nat
  total : Nat
  arenas : List Nat

def Desc.new (blockSize : Nat) : Desc where
  blockSize := blockSize
  blocksPerArena := (pgSize - roundUp descSize blockSize) / blockSize
  freeList := .new
  allocated := 0
  free := 0
  total := 0
  arenas := []

/-- Where the eight descriptors of the static heap are; an arena points to its own. -/
structure Placement where
  addr : Fin 8 → Nat
  injective : Function.Injective addr
  ne_null : ∀ i, addr i ≠ 0
  lt : ∀ i, addr i < 2 ^ 64

/-- Follow a pointer to a descriptor. -/
def Placement.find (place : Placement) (ptr : Nat) : Option (Fin 8) :=
  (List.finRange 8).find? fun i => place.addr i = ptr

structure Heap where
  descs : Fin 8 → Desc
  spilledAlloc : Nat
  spilledTotal : Nat

def Heap.new : Heap := ⟨fun idx => .new (2 ^ (idx.val + 3)), 0, 0⟩

def Heap.setDesc (h : Heap) (i : Fin 8) (d : Desc) : Heap :=
  { h with descs := Function.update h.descs i d }

namespace Arena

/-- The header fields of the arena at `a`. -/
def magic (m : Mem) (a : Nat) : Nat := loadLE m a 4

def freeCnt (m : Mem) (a : Nat) : Nat := loadLE m (a + 4) 4

def desc (m : Mem) (a : Nat) : Nat := loadLE m (a + 8) 8

def setMagic (m : Mem) (a v : Nat) : Mem := storeLE m a 4 v

def setFreeCnt (m : Mem) (a v : Nat) : Mem := storeLE m (a + 4) 4 v

def setDesc (m : Mem) (a v : Nat) : Mem := storeLE m (a + 8) 8 v

def fromBlock (place : Placement) (h : Heap) (m : Mem) (blk : Nat) : Except Panic Nat :=
  let arena := roundDown blk pgSize
  if arena = 0 then .error .unwrapNone
  else if magic m arena ≠ arenaMagic then .error .magic
  else if desc m arena = 0 then .error .nullDesc
  else match place.find (desc m arena) with
    | none => .error .wildPointer
    | some i => if blk % (h.descs i).blockSize ≠ 0 then .error .blockAlign else .ok arena

def getBlock (place : Placement) (h : Heap) (m : Mem) (arena idx : Nat) : Except Panic Nat :=
  if magic m arena ≠ arenaMagic then .error .magic
  else if desc m arena = 0 then .error .unwrapNone
  else match place.find (desc m arena) with
    | none => .error .wildPointer
    | some i =>
      if (h.descs i).blocksPerArena ≤ idx then .error .blockIndex
      else if arena % pgSize ≠ 0 then .error .arenaAddress
      else .ok (arena + roundUp arenaSize (h.descs i).blockSize + idx * (h.descs i).blockSize)

end Arena

namespace Desc

/-- The loop that puts the blocks of a new arena on the free list, from `idx` on. -/
def pushBlocks (place : Placement) (h : Heap) (arena : Nat) :
    Nat → Nat → InMemList → Mem → Except Panic (InMemList × Mem)
  | 0, _, l, m => .ok (l, m)
  | count + 1, idx, l, m =>
    match Arena.getBlock place h m arena idx with
    | .error e => .error e
    | .ok block =>
      let (l, m) := l.push m block
      pushBlocks place h arena count (idx + 1) l m

/-- A descriptor without free blocks takes a page and cuts it up. -/
def refill (place : Placement) (h : Heap) (b : BuddyAllocator) (m : Mem) (i : Fin 8) :
    Except Panic (Heap × BuddyAllocator × Mem) :=
  match b.alloc m 1 with
  | .error e => .error e
  | .ok (arena, b, m) =>
    let d := h.descs i
    let m := Arena.setMagic m arena arenaMagic
    let m := Arena.setDesc m arena (place.addr i)
    let m := Arena.setFreeCnt m arena d.blocksPerArena
    match pushBlocks place h arena d.blocksPerArena 0 d.freeList m with
    | .error e => .error e
    | .ok (l, m) =>
      .ok (h.setDesc i { d with
        freeList := l
        total := d.total + pgSize
        free := d.free + d.blockSize * d.blocksPerArena
        arenas := arena :: d.arenas }, b, m)

/-- Take a block off the free list, which is not empty any more. -/
def take (place : Placement) (h : Heap) (m : Mem) (i : Fin 8) : Except Panic (Nat × Heap × Mem) :=
  let d := h.descs i
  if d.free < d.blockSize then .error .underflow
  else match d.freeList.pop m with
    | none => .error .unwrapNone
    | some (block, l) =>
      let h := h.setDesc i { d with
        freeList := l
        allocated := d.allocated + d.blockSize
        free := d.free - d.blockSize }
      match Arena.fromBlock place h m block with
      | .error e => .error e
      | .ok arena =>
        if Arena.freeCnt m arena = 0 then .error .underflow
        else .ok (block, h, Arena.setFreeCnt m arena (Arena.freeCnt m arena - 1))

def alloc (place : Placement) (h : Heap) (b : BuddyAllocator) (m : Mem) (i : Fin 8) :
    Except Panic (Nat × Heap × BuddyAllocator × Mem) :=
  match (if (h.descs i).freeList.isEmpty then refill place h b m i else .ok (h, b, m)) with
  | .error e => .error e
  | .ok (h, b, m) =>
    match take place h m i with
    | .error e => .error e
    | .ok (block, h, m) => .ok (block, h, b, m)

def dealloc (place : Placement) (h : Heap) (m : Mem) (i : Fin 8) (ptr : Nat) :
    Except Panic (Heap × Mem) :=
  let d := h.descs i
  let (l, m) := d.freeList.push m ptr
  if d.allocated < d.blockSize then .error .underflow
  else
    let h := h.setDesc i { d with
      freeList := l
      allocated := d.allocated - d.blockSize
      free := d.free + d.blockSize }
    match Arena.fromBlock place h m ptr with
    | .error e => .error e
    | .ok arena =>
      if 2 ^ 32 ≤ Arena.freeCnt m arena + 1 then .error .overflow
      else .ok (h, Arena.setFreeCnt m arena (Arena.freeCnt m arena + 1))

end Desc

namespace Layout

/-- The size that decides where a request goes. -/
def effective (l : Layout) : Nat := max (nextPowerOfTwo l.size) l.align

/-- The number of pages of a request that no descriptor serves. -/
def pages (l : Layout) : Nat := (l.size + pgSize - 1) / pgSize

def index (l : Layout) : Nat := trailingZeros l.effective - 3

end Layout

namespace Heap

def alloc (place : Placement) (h : Heap) (b : BuddyAllocator) (m : Mem) (l : Layout) :
    Except Panic (Nat × Heap × BuddyAllocator × Mem) :=
  -- `NonNull::<u8>::dangling()`
  if l.size = 0 then .ok (1, h, b, m)
  else if !isPowerOfTwo l.align then .error .alignNotPowerOfTwo
  else if pgSize < l.align then .error .alignTooLarge
  else if l.effective ≤ maxBlksize then
    if hi : l.index < 8 then Desc.alloc place h b m ⟨l.index, hi⟩ else .error .indexOut
  else
    let h := { h with
      spilledAlloc := (h.spilledAlloc + l.effective) % 2 ^ 64
      spilledTotal := (h.spilledTotal + l.pages) % 2 ^ 64 }
    match b.alloc m l.pages with
    | .error e => .error e
    | .ok (p, b, m) => .ok (p, h, b, m)

def dealloc (place : Placement) (h : Heap) (b : BuddyAllocator) (m : Mem) (ptr : Nat) (l : Layout) :
    Except Panic (Heap × BuddyAllocator × Mem) :=
  if ptr = 0 then .ok (h, b, m)
  else if l.effective ≤ maxBlksize then
    if hi : l.index < 8 then
      match Desc.dealloc place h m ⟨l.index, hi⟩ ptr with
      | .error e => .error e
      | .ok (h, m) => .ok (h, b, m)
    else .error .indexOut
  else
    let h := { h with
      spilledAlloc := (h.spilledAlloc + (2 ^ 64 - l.effective)) % 2 ^ 64
      spilledTotal := (h.spilledTotal + (2 ^ 64 - l.pages)) % 2 ^ 64 }
    if ptr % pgSize ≠ 0 then .error .pageAlign
    else match b.dealloc m ptr l.pages with
      | .error e => .error e
      | .ok (b, m) => .ok (h, b, m)

end Heap

/-- `Layout::from_size_align`: the rounded up size is at most `isize::MAX`. -/
def Layout.fromSizeAlign (size align : Nat) : Option Layout :=
  if isPowerOfTwo align ∧ size + align ≤ 2 ^ 63 then some ⟨size, align⟩ else none

def kalloc (place : Placement) (h : Heap) (b : BuddyAllocator) (m : Mem) (size align : Nat) :
    Except Panic (Nat × Heap × BuddyAllocator × Mem) :=
  match Layout.fromSizeAlign size align with
  | none => .error .unwrapNone
  | some l => h.alloc place b m l

def kfree (place : Placement) (h : Heap) (b : BuddyAllocator) (m : Mem) (ptr size align : Nat) :
    Except Panic (Heap × BuddyAllocator × Mem) :=
  match Layout.fromSizeAlign size align with
  | none => .error .unwrapNone
  | some l => h.dealloc place b m ptr l

end Tacos.Mem
