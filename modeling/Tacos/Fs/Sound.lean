/- GID: Tacos/Fs/Sound
   generality: I
   source: src/fs/disk/inode.rs, src/fs/disk/free_map.rs
   digest: Who owns which sector, and what each operation of one inode does to it. -/

import Tacos.Fs.Entries
import Tacos.Lib.Ownership

set_option autoImplicit false
set_option relaxedAutoImplicit false

namespace Tacos.Fs

open Tacos.Lib.Exec Tacos.Lib.Ownership FreeMap Inode

/-- Where the inode of a number is: in memory at an address, or only on the disk. -/
inductive Slot where
  | opened (id : Nat)
  | closed
  deriving DecidableEq

/-- The inodes that exist, by number. -/
abbrev Slots := Nat → Option Slot

/-- The data sectors of the inode with number `x`. -/
def dataOf (slots : Slots) (s : Sys) (x y : Nat) : Prop :=
  match slots x with
  | none => False
  | some (.opened id) => (s.inodes id).Owns y
  | some .closed => InRun (DiskInode.ofSector (s.disk x)).start
      (((DiskInode.ofSector (s.disk x)).len + 511) / 512) y

/-- The sectors of the inode with number `x`: its own and those of its data. -/
def owned (slots : Slots) (s : Sys) (x : Nat) : Set Nat := fun y =>
  (slots x).isSome ∧ (y = x ∨ dataOf slots s x y)

/-- An inode by itself: its data is inside the disk and apart from its own sector, and that sector
holds what is in memory, if anything is. -/
def Placed (slots : Slots) (s : Sys) (x : Nat) : Prop :=
  match slots x with
  | none => True
  | some (.opened id) => (s.inodes id).desc.sector = x ∧ id < s.nextInode ∧
      (s.inodes id).total < 2 ^ 32 ∧
      (s.inodes id).data.start + (s.inodes id).sectors ≤ s.freeMap.size ∧ ¬(s.inodes id).Owns x ∧
        s.disk x = (s.inodes id).data.toSector ∧ (s.inodes id).data.magic = inodeMagic
  | some .closed => (DiskInode.ofSector (s.disk x)).magic = inodeMagic ∧
      (DiskInode.ofSector (s.disk x)).start + ((DiskInode.ofSector (s.disk x)).len + 511) / 512 ≤
        s.freeMap.size ∧ ¬dataOf slots s x x

/-- The root directory's inode is open under its own descriptor, and nobody forbids to write it. -/
structure RootKept (slots : Slots) (s : Sys) : Prop where
  known : (s.files.lookup 0).isSome
  slot : slots 1 = some (.opened (s.file 0).vnode)
  len : (s.inodeOf 0).data.len < 2 ^ 32
  allowed : (s.inodeOf 0).desc.denyWrite = 0

/-- The sectors of distinct inodes are disjoint and marked, and each inode is well placed. -/
structure Sound (slots : Slots) (s : Sys) : Prop where
  size_lt : s.freeMap.size < 2 ^ 32
  in_disk : ∀ y, s.freeMap.bit y = true → y < s.freeMap.size
  exclusive : Exclusive (owned slots s) {y | s.freeMap.bit y = true}
  placed : ∀ x, Placed slots s x
  root : RootKept slots s

variable {slots slots' : Slots} {s t : Sys} {x id : Nat}

theorem dataOf_opened (h : slots x = some (.opened id)) (y : Nat) :
    dataOf slots s x y ↔ (s.inodes id).Owns y := by
  rw [dataOf, h]

theorem mem_owned_opened (h : slots x = some (.opened id)) (y : Nat) :
    y ∈ owned slots s x ↔ y = x ∨ (s.inodes id).Owns y := by
  change ((slots x).isSome ∧ (y = x ∨ dataOf slots s x y)) ↔ _
  rw [dataOf_opened h, h]
  simp

theorem not_mem_owned_none (h : slots x = none) (y : Nat) : y ∉ owned slots s x := by
  intro hy
  have known := hy.1
  rw [h] at known
  exact Bool.noConfusion known

theorem self_mem_owned (h : (slots x).isSome) : x ∈ owned slots s x := ⟨h, .inl rfl⟩

namespace Sound

theorem settled (sound : Sound slots s) (h : slots x = some (.opened id)) : Settled s id := by
  have placed := sound.placed x
  rw [Placed, h] at placed
  obtain ⟨sector, -, total, fits, apart, flushed, -⟩ := placed
  have mem : ∀ y, y = x ∨ (s.inodes id).Owns y → s.freeMap.bit y = true := fun y hy =>
    sound.exclusive.marked x y ((mem_owned_opened h y).mpr hy)
  refine ⟨sound.size_lt, total, fits, fun y hy => mem y (.inr hy), ?_, ?_, ?_⟩
  · rw [sector]
    exact mem x (.inl rfl)
  · rw [sector]
    exact apart
  · rw [sector]
    exact flushed

theorem sector_eq (sound : Sound slots s) (h : slots x = some (.opened id)) :
    (s.inodes id).desc.sector = x := by
  have placed := sound.placed x
  rw [Placed, h] at placed
  exact placed.1

theorem magic_eq (sound : Sound slots s) (h : slots x = some (.opened id)) :
    (s.inodes id).data.magic = inodeMagic := by
  have placed := sound.placed x
  rw [Placed, h] at placed
  exact placed.2.2.2.2.2.2

theorem lt_nextInode (sound : Sound slots s) (h : slots x = some (.opened id)) :
    id < s.nextInode := by
  have placed := sound.placed x
  rw [Placed, h] at placed
  exact placed.2.1

theorem opened_inj (sound : Sound slots s) {x' : Nat} (h : slots x = some (.opened id))
    (h' : slots x' = some (.opened id)) : x = x' :=
  (sound.sector_eq h).symm.trans (sound.sector_eq h')

theorem ofSector_eq (sound : Sound slots s) (h : slots x = some (.opened id)) :
    DiskInode.ofSector (s.disk x) = (s.inodes id).data := by
  have settled := sound.settled h
  have flushed := settled.flushed
  rw [sound.sector_eq h] at flushed
  have total := settled.total_lt
  have fits := settled.fits
  have size := settled.size_lt
  rw [Inode.total] at total
  rw [flushed]
  apply DiskInode.ofSector_toSector
  · omega
  · omega
  · rw [sound.magic_eq h]
    decide

end Sound

/-- A change of the state that concerns only the inode with number `x`. -/
structure Concerns (slots slots' : Slots) (s t : Sys) (x : Nat) : Prop where
  slot : ∀ x', x' ≠ x → slots' x' = slots x'
  inode : ∀ x', x' ≠ x → ∀ id, slots x' = some (.opened id) → t.inodes id = s.inodes id
  disk : ∀ x', x' ≠ x → (slots x').isSome → t.disk x' = s.disk x'
  size : t.freeMap.size = s.freeMap.size
  next : s.nextInode ≤ t.nextInode

namespace Concerns

theorem dataOf_eq (h : Concerns slots slots' s t x) {x' : Nat} (ne : x' ≠ x) (y : Nat) :
    dataOf slots' t x' y ↔ dataOf slots s x' y := by
  rw [dataOf, dataOf, h.slot x' ne]
  cases hs : slots x' with
  | none => rfl
  | some slot =>
    cases slot with
    | opened id => simp only [h.inode x' ne id hs]
    | closed => simp only [h.disk x' ne (by rw [hs]; rfl)]

theorem owned_eq (h : Concerns slots slots' s t x) {x' : Nat} (ne : x' ≠ x) :
    owned slots' t x' = owned slots s x' := by
  funext y
  rw [owned, owned, h.slot x' ne, h.dataOf_eq ne]

theorem placed (h : Concerns slots slots' s t x) {x' : Nat} (ne : x' ≠ x)
    (old : Placed slots s x') :
    Placed slots' t x' := by
  rw [Placed] at old ⊢
  rw [h.slot x' ne]
  cases hs : slots x' with
  | none => trivial
  | some slot =>
    rw [hs] at old
    cases slot with
    | opened id =>
      simp only at old ⊢
      rw [h.inode x' ne id hs, h.disk x' ne (by rw [hs]; rfl), h.size]
      exact ⟨old.1, lt_of_lt_of_le old.2.1 h.next, old.2.2⟩
    | closed =>
      simp only at old ⊢
      rw [h.dataOf_eq ne, h.disk x' ne (by rw [hs]; rfl), h.size]
      exact old

/-- The rule for a step of one inode: it takes only free sectors, what it has is marked, and what
others have stays marked. -/
theorem sound (h : Concerns slots slots' s t x) (old : Sound slots s)
    (in_disk : ∀ y, t.freeMap.bit y = true → y < t.freeMap.size) (here : Placed slots' t x)
    (new : ∀ y ∈ owned slots' t x, y ∈ owned slots s x ∨ s.freeMap.bit y = false)
    (marked : ∀ y ∈ owned slots' t x, t.freeMap.bit y = true)
    (kept : ∀ x', x' ≠ x → ∀ y ∈ owned slots s x', t.freeMap.bit y = true)
    (root : RootKept slots' t) : Sound slots' t := by
  refine ⟨h.size ▸ old.size_lt, in_disk, ?_, ?_, root⟩
  · refine old.exclusive.change x (fun x' ne => h.owned_eq ne) ?_ marked kept
    intro y hy
    refine (new y hy).imp_right ?_
    intro clear
    simp [clear]
  · intro x'
    by_cases ne : x' = x
    · exact ne ▸ here
    · exact h.placed ne (old.placed x')

end Concerns

/-- A step of the inodes with numbers in `X` that leaves a sound state and everything of the other
inodes as it was. -/
structure Local (slots slots' : Slots) (s t : Sys) (X : Set Nat) : Prop where
  sound : Sound slots' t
  slot : ∀ x', x' ∉ X → slots' x' = slots x'
  inode : ∀ x', x' ∉ X → ∀ id, slots x' = some (.opened id) → t.inodes id = s.inodes id
  disk : ∀ x', x' ∉ X → ∀ y ∈ owned slots s x', t.disk y = s.disk y
  owned : ∀ x', x' ∉ X → owned slots' t x' = owned slots s x'

namespace Local

variable {u : Sys} {slots'' : Slots} {X Y : Set Nat}

theorem trans (first : Local slots slots' s t X) (second : Local slots' slots'' t u Y) :
    Local slots slots'' s u (X ∪ Y) := by
  have out : ∀ {x'}, x' ∉ X ∪ Y → x' ∉ X ∧ x' ∉ Y := fun h => not_or.mp h
  refine ⟨second.sound, ?_, ?_, ?_, ?_⟩
  · intro x' hx'
    rw [second.slot x' (out hx').2, first.slot x' (out hx').1]
  · intro x' hx' id h
    have same := first.slot x' (out hx').1
    rw [second.inode x' (out hx').2 id (same ▸ h), first.inode x' (out hx').1 id h]
  · intro x' hx' y hy
    have mine : y ∈ Fs.owned slots' t x' := by
      rw [first.owned x' (out hx').1]
      exact hy
    rw [second.disk x' (out hx').2 y mine, first.disk x' (out hx').1 y hy]
  · intro x' hx'
    rw [second.owned x' (out hx').2, first.owned x' (out hx').1]

theorem mono (h : Local slots slots' s t X) (sub : X ⊆ Y) : Local slots slots' s t Y :=
  ⟨h.sound, fun x' hx' => h.slot x' fun hX => hx' (sub hX),
    fun x' hx' => h.inode x' fun hX => hx' (sub hX),
    fun x' hx' => h.disk x' fun hX => hx' (sub hX), fun x' hx' => h.owned x' fun hX => hx' (sub hX)⟩

theorem marked (h : Local slots slots' s t X) {x' y : Nat} (hx' : x' ∉ X)
    (hy : y ∈ Fs.owned slots s x') :
    t.freeMap.bit y = true :=
  h.sound.exclusive.marked x' y (by rw [h.owned x' hx']; exact hy)

end Local

theorem Concerns.local (h : Concerns slots slots' s t x) (sound : Sound slots' t)
    (disk : ∀ x', x' ≠ x → ∀ y ∈ owned slots s x', t.disk y = s.disk y) :
    Local slots slots' s t {x} :=
  ⟨sound, h.slot, h.inode, disk, fun _ ne => h.owned_eq ne⟩

namespace Sound

/-- The descriptor of the root directory and its inode are all that `RootKept` looks at. -/
theorem rootKept (sound : Sound slots s) (concerns : Concerns slots slots' s t x) (ne : x ≠ 1)
    (files : t.files = s.files) : RootKept slots' t := by
  have file : t.file 0 = s.file 0 := by rw [Sys.file, files, ← Sys.file]
  have inode : t.inodeOf 0 = s.inodeOf 0 := by
    rw [Sys.inodeOf, file]
    exact concerns.inode 1 (Ne.symm ne) _ sound.root.slot
  refine ⟨files ▸ sound.root.known, ?_, inode ▸ sound.root.len, inode ▸ sound.root.allowed⟩
  rw [concerns.slot 1 (Ne.symm ne), file]
  exact sound.root.slot

theorem other (sound : Sound slots s) {x' y : Nat} (ne : x' ≠ x) (hy : y ∈ Fs.owned slots s x') :
    y ∉ Fs.owned slots s x := sound.exclusive.apart x' x ne y hy

theorem marked (sound : Sound slots s) {y : Nat} (hy : y ∈ Fs.owned slots s x) :
    s.freeMap.bit y = true :=
  sound.exclusive.marked x y hy

theorem resized (sound : Sound slots s) (h : slots x = some (.opened id)) (ne : x ≠ 1) {n : Nat}
    (small : n < 2 ^ 32) (change : Resized s t id n) : Local slots slots s t {x} := by
  have settled := sound.settled h
  have settled' := change.settled settled small
  have sector : (t.inodes id).desc.sector = x := by rw [change.desc]; exact sound.sector_eq h
  -- No sector of another inode can be among the new ones.
  have outside : ∀ x', x' ≠ x → ∀ y ∈ Fs.owned slots s x', y ≠ x ∧ ¬(s.inodes id).Owns y ∧
    ¬(t.inodes id).Owns y := by
    intro x' hx' y hy
    have hout := sound.other hx' hy
    rw [mem_owned_opened h] at hout
    refine ⟨fun e => hout (.inl e), fun e => hout (.inr e), fun hnew => ?_⟩
    obtain old | free := change.grown y hnew
    · exact hout (.inr old)
    · rw [sound.marked hy] at free
      exact Bool.noConfusion free
  have disk : ∀ x', x' ≠ x → ∀ y ∈ Fs.owned slots s x', t.disk y = s.disk y := by
    intro x' hx' y hy
    obtain ⟨hne, -, hnew⟩ := outside x' hx' y hy
    exact change.elsewhere y (by rw [sound.sector_eq h]; exact hne) hnew
  have inode : ∀ x', x' ≠ x → ∀ id', slots x' = some (.opened id') →
    t.inodes id' = s.inodes id' := by
    intro x' hx' id' h'
    have hid : id' ≠ id := fun e => hx' (sound.opened_inj h' (e ▸ h))
    rw [change.frame]
    exact Function.update_of_ne hid _ _
  have concerns : Concerns slots slots s t x := by
    refine ⟨fun _ _ => rfl, inode, fun x' hx' known => disk x' hx' x'
      (self_mem_owned known), change.size, ?_⟩
    rw [change.frame]
  have final : Sound slots t := by
    refine concerns.sound sound ?_ ?_ ?_ ?_ ?_ (sound.rootKept concerns ne (by rw [change.frame]))
    · intro y hy
      by_cases new : (t.inodes id).Owns y
      · exact lt_of_lt_of_le new.2 change.fits
      · by_cases old : (s.inodes id).Owns y
        · rw [change.freed y old new] at hy
          exact Bool.noConfusion hy
        · rw [change.kept y old new] at hy
          exact change.size ▸ sound.in_disk y hy
    · rw [Placed, h]
      refine ⟨sector, ?_, settled'.total_lt, settled'.fits, sector ▸ settled'.apart, ?_, ?_⟩
      · rw [change.frame]
        exact sound.lt_nextInode h
      · have flushed := settled'.flushed
        rwa [sector] at flushed
      · rw [change.magic]
        exact sound.magic_eq h
    · intro y hy
      rw [mem_owned_opened h] at hy ⊢
      obtain rfl | hy := hy
      · exact .inl (.inl rfl)
      · exact (change.grown y hy).imp_left .inr
    · intro y hy
      rw [mem_owned_opened h] at hy
      obtain rfl | hy := hy
      · exact sector ▸ settled'.home
      · exact settled'.marked y hy
    · intro x' hx' y hy
      obtain ⟨-, hold, hnew⟩ := outside x' hx' y hy
      rw [change.kept y hold hnew]
      exact sound.marked hy
  exact concerns.local final disk

end Sound

end Tacos.Fs
