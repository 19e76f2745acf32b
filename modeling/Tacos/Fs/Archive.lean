/- GID: Tacos/Fs/Archive
   generality: I
   source: src/fs/disk.rs, src/fs/disk/free_map.rs
   digest: A disk that holds a file system while none of it is in memory, and what mounting it
     gives. -/

import Tacos.Fs.Handles

set_option autoImplicit false
set_option relaxedAutoImplicit false

namespace Tacos.Fs

open Tacos.Lib.Exec Tacos.Lib.Ownership FreeMap Inode RootDir

/-- The inode that a sector of the disk holds. -/
def inodeOn (d : Nat → Sector) (x : Nat) : DiskInode := .ofSector (d x)

/-- The data sectors of the inode that a sector of the disk holds. -/
def RunOn (d : Nat → Sector) (x y : Nat) :
    Prop := InRun (inodeOn d x).start (((inodeOn d x).len + 511) / 512) y

/-- The free map in the file of the first sector. -/
def mapOn (size : Nat) (d : Nat → Sector) : FreeMap :=
  .ofBytes size (bytesFrom d (inodeOn d freeMapSector).start 0 ((size + 7) / 8))

/-- The entries in the file of the second sector. -/
def entriesOn (d : Nat → Sector) : List DirEntry :=
  (List.range ((inodeOn d rootDirSector).len / 32)).map (entryAt d (inodeOn d rootDirSector).start)

/-- The sectors of an inode on the disk, if it is one of the known ones. -/
def ownedOn (known : Nat → Bool) (d : Nat → Sector) (x : Nat) : Set Nat := fun y =>
  known x = true ∧ (y = x ∨ RunOn d x y)

/-- A disk of a given size with the inodes `known`, the free map's and the root directory's among
them: they have sectors of their own, the map on the disk has all of these marked, and the names on
the disk lead to them. -/
structure Archive (known : Nat → Bool) (size : Nat) (d : Nat → Sector) : Prop where
  size_lt : size < 2 ^ 32
  in_disk : ∀ y, (mapOn size d).bit y = true → y < size
  exclusive : Exclusive (ownedOn known d) {y | (mapOn size d).bit y = true}
  magic : ∀ x, known x = true → (inodeOn d x).magic = inodeMagic
  fits : ∀ x, known x = true → (inodeOn d x).start + ((inodeOn d x).len + 511) / 512 ≤ size
  apart : ∀ x, known x = true → ¬RunOn d x x
  map : known freeMapSector = true
  mapLen : (inodeOn d freeMapSector).len = (size + 7) / 8
  root : known rootDirSector = true
  readable : Readable (entriesOn d)
  named : ∀ e ∈ entriesOn d, e.isValid = true → known e.inum = true ∧
    e.inum ≠ freeMapSector ∧ e.inum ≠ rootDirSector

/-- The inodes of an archive once it is mounted: the root directory's is in memory. -/
def archived (known : Nat → Bool) (root : Nat) : Slots := fun x =>
  if x = rootDirSector then some (.opened root) else if known x then some .closed else none

/-- The state after the free map and the root directory's inode were read from the disk. -/
def Sys.loaded (s : Sys) (size : Nat) : Sys where
  disk := s.disk
  freeMap := mapOn size s.disk
  inodes := Function.update
    (Function.update s.inodes s.nextInode ⟨.new freeMapSector 0, inodeOn s.disk freeMapSector⟩)
    (s.nextInode + 1) ⟨.new rootDirSector 0, inodeOn s.disk rootDirSector⟩
  nextInode := s.nextInode + 2
  files := [(0, .new (s.nextInode + 1))]
  nextFile := 1
  inodeTable := Function.update (fun _ => none) rootDirSector (some (s.nextInode + 1))
  held := s.held

variable {known : Nat → Bool} {size : Nat} {s t : Sys}

theorem mapOn_eq {d : Nat → Sector} {m : FreeMap} (same : m.size = size)
    (bytes : bytesFrom d (inodeOn d freeMapSector).start 0 ((size + 7) / 8) = m.bits) :
    mapOn size d = m := by
  have length : m.bits.length = (size + 7) / 8 := same ▸ m.length_bits
  refine FreeMap.ext_bytes same.symm ?_
  change (bytesFrom _ _ 0 _ ++ List.replicate ((size + 7) / 8) 0).take ((size + 7) / 8) = _
  rw [bytes, ← length, List.take_left]

theorem load_eq (idle : s.held = []) (magic : (inodeOn s.disk freeMapSector).magic = inodeMagic)
    (len : (inodeOn s.disk freeMapSector).len = (size + 7) / 8) :
    FreeMap.load size s = .ok () { s with
      freeMap := mapOn size s.disk
      inodes := Function.update s.inodes s.nextInode ⟨.new freeMapSector 0,
        inodeOn s.disk freeMapSector⟩
      nextInode := s.nextInode + 1 } := by
  have read := Inode.openAt_eq (s := s) freeMapSector (by simp [idle])
  rw [if_pos (show (DiskInode.ofSector (s.disk freeMapSector)).magic =
    inodeMagic from magic)] at read
  rw [FreeMap.load, Call.bind_ok read]
  change (withArc s.nextInode _ >>= _) { s with
    inodes := Function.update s.inodes s.nextInode ⟨.new freeMapSector 0,
      inodeOn s.disk freeMapSector⟩
    nextInode := s.nextInode + 1 } = _
  generalize hu : ({ s with
    inodes := Function.update s.inodes s.nextInode ⟨.new freeMapSector 0,
      inodeOn s.disk freeMapSector⟩
    nextInode := s.nextInode + 1 } : Sys) = u
  have idleU : u.held = [] := by rw [← hu]; exact idle
  have inode : u.inodes s.nextInode = ⟨.new freeMapSector 0, inodeOn s.disk freeMapSector⟩ := by
    rw [← hu]
    exact Function.update_self ..
  have disk : u.disk = s.disk := by rw [← hu]
  have length : Inode.len s.nextInode u = .ok ((size + 7) / 8) u := by
    refine lock_ok (t := { u with held := .inode s.nextInode :: u.held }) (by simp [idleU]) ?_ rfl
    rw [getInode_bind]
    change Outcome.ok (u.inodes s.nextInode).data.len _ = _
    rw [inode]
    exact congrArg (fun n => Outcome.ok n _) len
  have small : (size + 7) / 8 < 2 ^ 32 := len ▸ (DiskInode.ofSector_lt _).2
  have bytes : Inode.readAt s.nextInode (File.vec (List.replicate ((size + 7) / 8) 0)) 0 u =
      .ok (bytesFrom s.disk (inodeOn s.disk freeMapSector).start 0 ((size + 7) / 8)) u := by
    obtain done | ⟨-, p, blocked⟩ := readAt_cases (s := u)
      (show Lock.inode s.nextInode ∉ u.held by simp [idleU]) (by simp [idleU])
      (File.vec (List.replicate ((size + 7) / 8) 0)) 0
    · rw [done, inode, disk]
      change Outcome.ok (bytesFrom _ _ 0 (min ((inodeOn s.disk freeMapSector).len - 0)
        (List.replicate ((size + 7) / 8) (0 : UInt8)).length)) u = _
      rw [len, List.length_replicate, Nat.sub_zero, Nat.min_self]
    · refine absurd (File.vec_inKernel ?_) blocked.not_inKernel
      rw [List.length_replicate]
      omega
  have inner : withArc s.nextInode (do
      let len ← Inode.len s.nextInode
      if len = (size + 7) / 8 then
        let bytes ← Inode.readAt s.nextInode (File.vec (List.replicate len 0)) 0
        Call.modify fun s => { s with freeMap := ofBytes size bytes }
      else Call.halt .assertion) u = .ok () { u with freeMap := mapOn size s.disk } := by
    refine withArc_ok ?_
    rw [Call.bind_ok length, if_pos rfl, Call.bind_ok bytes]
    rfl
  rw [Call.bind_ok inner,
    dropArc_new (s := { u with freeMap := mapOn size s.disk }) s.nextInode
    (by simp [idleU]) inode, ← hu]

/-- Mounting a disk with a free map of the right size and a root directory only reads. -/
theorem mount_loads (capacity : Nat) (idle : s.held = [])
    (map : (inodeOn s.disk freeMapSector).magic = inodeMagic)
    (len : (inodeOn s.disk freeMapSector).len = (capacity % 2 ^ 32 + 7) / 8)
    (root : (inodeOn s.disk rootDirSector).magic = inodeMagic) :
    DiskFs.mount capacity s = .ok () (s.loaded (capacity % 2 ^ 32)) := by
  have first := load_eq (s := { s with inodeTable := fun _ => none }) idle map len
  have loaded : DiskFs.mountFreeMap (capacity % 2 ^ 32)
    { s with inodeTable := fun _ => none } = _ :=
    Call.bind_ok (Call.attempt_ok first)
  rw [DiskFs.mount, Call.modify_bind, Call.bind_ok loaded]
  have read := Inode.openAt_eq (s := { s with
    freeMap := mapOn (capacity % 2 ^ 32) s.disk
    inodes := Function.update s.inodes s.nextInode ⟨.new freeMapSector 0,
      inodeOn s.disk freeMapSector⟩
    nextInode := s.nextInode + 1
    inodeTable := fun _ => none }) rootDirSector (by simp [idle])
  rw [if_pos (show (DiskInode.ofSector (s.disk rootDirSector)).magic =
    inodeMagic from root)] at read
  have found : DiskFs.mountRoot _ = _ := Call.bind_ok (Call.attempt_ok read)
  rw [Call.bind_ok found]
  exact Call.bind_ok (Mounted.register_eq (s := { s with
    freeMap := mapOn (capacity % 2 ^ 32) s.disk
    inodes := Function.update
      (Function.update s.inodes s.nextInode ⟨.new freeMapSector 0, inodeOn s.disk freeMapSector⟩)
      (s.nextInode + 1) ⟨.new rootDirSector 0, inodeOn s.disk rootDirSector⟩
    nextInode := s.nextInode + 2
    inodeTable := fun _ => none }) idle rootDirSector (s.nextInode + 1))

theorem loaded_inode : (s.loaded size).inodes (s.nextInode + 1) =
    ⟨.new rootDirSector 0, inodeOn s.disk rootDirSector⟩ :=
  Function.update_self ..

theorem loaded_owns (y : Nat) :
    (⟨.new rootDirSector 0, inodeOn s.disk rootDirSector⟩ : Inode).Owns y ↔
      RunOn s.disk rootDirSector y := Iff.rfl

theorem loaded_entries : (s.loaded size).entries = entriesOn s.disk := by
  have inode : (s.loaded size).inodeOf 0 = ⟨.new rootDirSector 0,
    inodeOn s.disk rootDirSector⟩ := loaded_inode
  rw [Sys.entries, inode]
  rfl

section Slot

variable {root x : Nat}

theorem archived_root : archived known root rootDirSector = some (.opened root) := if_pos rfl

theorem archived_closed (ne : x ≠ rootDirSector) (h : known x = true) :
    archived known root x = some .closed := by
  rw [archived, if_neg ne, if_pos h]

theorem archived_none (ne : x ≠ rootDirSector) (h : ¬known x = true) :
    archived known root x = none := by
  rw [archived, if_neg ne, if_neg h]

end Slot

theorem mem_owned_loaded (root : known rootDirSector = true) (x y : Nat) :
    y ∈ owned (archived known (s.nextInode + 1)) (s.loaded size) x ↔
      y ∈ ownedOn known s.disk x := by
  change _ ↔ known x = true ∧ (y = x ∨ RunOn s.disk x y)
  by_cases one : x = rootDirSector
  · rw [one, mem_owned_opened archived_root, loaded_inode, loaded_owns]
    simp only [root, true_and]
  · by_cases h : known x = true
    · rw [Sound.mem_owned_closed (archived_closed one h)]
      simp only [h, true_and]
      rfl
    · simp only [h, false_and, iff_false, reduceCtorEq]
      exact not_mem_owned_none (archived_none one h) y

theorem loaded_sound (archive : Archive known size s.disk) :
    Sound (archived known (s.nextInode + 1)) (s.loaded size) := by
  refine ⟨archive.size_lt, archive.in_disk, ⟨?_, ?_⟩, ?_, rfl, archived_root, ?_, ?_⟩
  · intro x x' ne y hy hy'
    rw [mem_owned_loaded archive.root] at hy hy'
    exact archive.exclusive.apart x x' ne y hy hy'
  · intro x y hy
    rw [mem_owned_loaded archive.root] at hy
    exact archive.exclusive.marked x y hy
  · intro x
    rw [Placed]
    by_cases one : x = rootDirSector
    · subst one
      rw [archived_root]
      simp only
      rw [loaded_inode]
      refine ⟨rfl, Nat.lt_succ_self _, ?_, archive.fits _ archive.root, ?_, ?_,
        archive.magic _ archive.root⟩
      · exact (DiskInode.ofSector_lt _).2
      · exact archive.apart _ archive.root
      · exact (DiskInode.toSector_ofSector _).symm
    · by_cases h : known x = true
      · rw [archived_closed one h]
        refine ⟨archive.magic x h, archive.fits x h, ?_⟩
        rw [dataOf, archived_closed one h]
        exact archive.apart x h
      · rw [archived_none one h]
        trivial
  · change ((s.loaded size).inodes (s.nextInode + 1)).data.len < 2 ^ 32
    rw [loaded_inode]
    exact (DiskInode.ofSector_lt _).2
  · change ((s.loaded size).inodes (s.nextInode + 1)).desc.denyWrite = 0
    rw [loaded_inode]
    rfl

theorem loaded_mounted (archive : Archive known size s.disk) (idle : s.held = []) :
    Mounted (archived known (s.nextInode + 1)) (s.loaded size) := by
  have links : (s.loaded size).links = [(0, s.nextInode + 1)] := rfl
  refine ⟨idle, loaded_sound archive, .alone links rfl rfl (Nat.lt_succ_self _) ?_, ?_, ?_⟩
  · intro x id
    rw [archived]
    by_cases one : x = rootDirSector
    · rw [if_pos one, Option.some.injEq, Slot.opened.injEq]
      simp only [one, true_and]
      exact eq_comm
    · rw [if_neg one]
      split <;> simp [one]
  · rw [loaded_entries]
    exact archive.readable
  · rw [loaded_entries]
    intro e he valid
    obtain ⟨h, -, ne⟩ := archive.named e he valid
    refine ⟨?_, ne⟩
    rw [archived_closed ne h]
    rfl

end Tacos.Fs
