/- GID: Tacos/Fs/Unmount
   generality: I
   source: src/fs/disk.rs, src/fs/disk/free_map.rs, src/fs.rs
   digest: Unmounting a file system that is in order, and what is found when the disk is mounted
     again. -/

import Tacos.Fs.Archive
import Tacos.Fs.Content

set_option autoImplicit false
set_option relaxedAutoImplicit false

namespace Tacos.Fs

open Tacos.Lib.Exec Tacos.Lib.Ownership Tacos.Lib.Run FreeMap Inode RootDir
open Store (emptyDisk blank_emptyDisk)

variable {slots slots' : Slots} {s t : Sys} {x id h size : Nat} {path : Path}

def DiskFs.readWhole (path : Path) : M (List UInt8) := do
  let h ← openFile path
  let f ← File.getFile h
  let n ← Inode.len f.vnode
  File.read h (File.vec (List.replicate n 0))

/-- The bytes of the inode with number `x`. -/
def content (slots : Slots) (s : Sys) (x : Nat) : List UInt8 :=
  bytesFrom s.disk ((Store.mk s slots).data x).start 0 ((Store.mk s slots).data x).len

theorem read_new {rest : List (Nat × File)} (idle : s.held = [])
    (files : s.files = (h, .new id) :: rest)
    (small : (s.inodes id).data.len < 2 ^ 32) :
    ∃ t, (do
      let f ← File.getFile h
      let n ← Inode.len f.vnode
      File.read h (File.vec (List.replicate n 0)) : M (List UInt8)) s =
      .ok (bytesFrom s.disk (s.inodes id).data.start 0 (s.inodes id).data.len) t := by
  have found : s.files.lookup h = some (.new id) := by
    rw [files, List.lookup_cons, beq_self_eq_true]
  have file : s.file h = .new id := by
    rw [Sys.file, found]
    rfl
  have inode : s.inodeOf h = s.inodes id := by
    rw [Sys.inodeOf, file]
    rfl
  have ready : FileReady s h := ⟨by rw [found]; rfl, by simp [idle], by simp [idle]⟩
  have first : File.getFile h s = .ok (.new id) s := congrArg (fun f => Outcome.ok f s) file
  have length : Inode.len id s = .ok (s.inodes id).data.len s :=
    lock_ok (t := { s with held := .inode id :: s.held }) (by simp [idle]) rfl rfl
  have size : (File.vec (List.replicate (s.inodes id).data.len 0)).bytes.length =
      (s.inodes id).data.len := List.length_replicate
  have kernel : (File.vec (List.replicate (s.inodes id).data.len 0)).InKernel :=
    File.vec_inKernel (size.trans_le (by omega))
  have read := File.read_eq ready kernel
  have start : (s.file h).pos = 0 := by
    rw [file]
    rfl
  rw [inode, start, size, Nat.sub_zero, Nat.min_self] at read
  refine ⟨s.setPos h (0 + (s.inodes id).data.len), ?_⟩
  rw [Call.bind_ok first]
  exact (Call.bind_ok length).trans read

namespace Mounted

theorem readWhole_found (m : Mounted slots s) (found : find path s.entries = .ok x) :
    ∃ t, DiskFs.readWhole path s = .ok (content slots s x) t := by
  obtain ⟨p, opened⟩ := m.openFile_found found
  obtain ⟨-, ⟨id, hx⟩ | hx⟩ := m.slot_of_find found
  · rw [hx] at opened
    have placed := (m.sound.settled hx).total_lt
    rw [Inode.total] at placed
    obtain ⟨t, read⟩ := read_new (s := (s.setPos 0 p).opened id) (h := s.nextFile) m.idle rfl
      (show (s.inodes id).data.len < 2 ^ 32 by omega)
    refine ⟨t, ?_⟩
    rw [DiskFs.readWhole, Call.bind_ok opened, content, Store.data_mk hx]
    exact read
  · rw [hx] at opened
    have inode : ((s.setPos 0 p).reopened x).inodes s.nextInode = ⟨.new x 0, inodeOn s.disk x⟩ :=
      Function.update_self ..
    obtain ⟨t, read⟩ := read_new (s := (s.setPos 0 p).reopened x) (h := s.nextFile) m.idle
      (show _ = (s.nextFile, File.new s.nextInode) :: _ from rfl)
      (by rw [inode]; exact (DiskInode.ofSector_lt _).2)
    refine ⟨t, ?_⟩
    rw [inode] at read
    have data : (Store.mk s slots).data x = inodeOn s.disk x := Store.data_closed hx
    rw [DiskFs.readWhole, Call.bind_ok opened, content, data]
    exact read

theorem readWhole_missing (m : Mounted slots s) {e : OsError}
    (missing : find path s.entries = .error e) :
    ∃ t, DiskFs.readWhole path s = .err .noSuchFile t := by
  obtain ⟨p, failed⟩ := m.openFile_missing missing
  exact ⟨_, Call.bind_err failed⟩

end Mounted

theorem Sound.placed_on (sound : Sound slots s) (known : (slots x).isSome) :
    (inodeOn s.disk x).magic = inodeMagic ∧
      (inodeOn s.disk x).start + ((inodeOn s.disk x).len + 511) / 512 ≤ s.freeMap.size ∧
        ¬RunOn s.disk x x := by
  obtain ⟨slot, hx⟩ := Option.isSome_iff_exists.mp known
  have placed := sound.placed x
  rw [Placed, hx] at placed
  cases slot with
  | opened id =>
    have same : inodeOn s.disk x = (s.inodes id).data := sound.ofSector_eq hx
    obtain ⟨-, -, -, fits, apart, -, magic⟩ := placed
    rw [Inode.sectors, Inode.total] at fits
    rw [RunOn, same]
    refine ⟨magic, by omega, fun inside => apart ⟨inside.1, lt_of_lt_of_le inside.2 ?_⟩⟩
    rw [Inode.sectors, Inode.total]
    omega
  | closed =>
    refine ⟨placed.1, placed.2.1, fun inside => placed.2.2 ?_⟩
    rw [dataOf, hx]
    exact inside

/-- The free map's file is on the disk only, has no name and has the length of the map. -/
structure Home (size : Nat) (slots : Slots) (s : Sys) : Prop where
  mounted : Mounted slots s
  hidden : Hidden slots s freeMapSector
  mapSize : s.freeMap.size = size
  len : (inodeOn s.disk freeMapSector).len = (size + 7) / 8

namespace Home

theorem carried (home : Home size slots s) (step : Carried slots slots' s t) :
    Home size slots' t := by
  obtain ⟨hidden, disk⟩ := step.hidden _ home.hidden
  refine ⟨step.mounted, hidden, step.size.trans home.mapSize, ?_⟩
  rw [inodeOn, disk]
  exact home.len

theorem known (home : Home size slots s) : (slots freeMapSector).isSome := by
  rw [home.hidden.closed]
  rfl

end Home

def Sys.flushed (s : Sys) : Sys := { s with
  disk := overwrite s.disk (inodeOn s.disk freeMapSector).start 0 s.freeMap.bits
  inodes := Function.update s.inodes s.nextInode ⟨.new freeMapSector 0,
    inodeOn s.disk freeMapSector⟩
  nextInode := s.nextInode + 1 }

/-- The file is as long as the map, so that the flush takes no lock of the map again. -/
theorem Home.unmount_eq (home : Home size slots s) : DiskFs.unmount s = .ok () s.flushed := by
  have idle := home.mounted.idle
  have bits : s.freeMap.bits.length = (size + 7) / 8 := home.mapSize ▸ s.freeMap.length_bits
  refine lock_ok (t := { s.flushed with held := .freeMap :: s.held }) (by simp [idle]) ?_ rfl
  have read := Inode.openAt_eq (s := { s with held := .freeMap :: s.held })
    freeMapSector (by simp [idle])
  rw [if_pos (show (DiskInode.ofSector (s.disk freeMapSector)).magic = inodeMagic from
    (home.mounted.sound.placed_on home.known).1)] at read
  generalize hu : ({ s with
    inodes := Function.update s.inodes s.nextInode ⟨.new freeMapSector 0,
      inodeOn s.disk freeMapSector⟩
    nextInode := s.nextInode + 1
    held := .freeMap :: s.held } : Sys) = u
  have opened : Inode.openAt freeMapSector { s with held := .freeMap :: s.held } =
    .ok s.nextInode u := by
    rw [← hu]
    exact read
  have inode : u.inodes s.nextInode = ⟨.new freeMapSector 0, inodeOn s.disk freeMapSector⟩ := by
    rw [← hu]
    exact Function.update_self ..
  have free : .inode s.nextInode ∉ u.held := by
    rw [← hu]
    simp [idle]
  have virtio : .virtio ∉ u.held := by
    rw [← hu]
    simp [idle]
  have map : u.freeMap = s.freeMap := by rw [← hu]
  have len : (inodeOn s.disk freeMapSector).len = s.freeMap.bits.length := by rw [home.len, bits]
  have small : s.freeMap.bits.length < 2 ^ 32 := len ▸ (DiskInode.ofSector_lt _).2
  have written : Inode.writeAt s.nextInode (File.vec s.freeMap.bits) 0 u =
      .ok s.freeMap.bits.length { s.flushed with held := .freeMap :: s.held } := by
    have ends := writeAt_within free virtio (File.vec s.freeMap.bits) 0 (by rw [inode]; rfl)
      (by rw [inode]; change ¬(inodeOn s.disk freeMapSector).len < 0 + s.freeMap.bits.length; omega)
      (by change 0 + s.freeMap.bits.length < _; omega)
    rw [inode] at ends
    have all : min ((inodeOn s.disk freeMapSector).len - 0) (File.vec s.freeMap.bits).bytes.length =
        s.freeMap.bits.length := by
      change min ((inodeOn s.disk freeMapSector).len - 0) s.freeMap.bits.length = _
      omega
    rw [all] at ends
    obtain ⟨done, -⟩ | ⟨m, -, -, blocked, -⟩ := ends
    · rw [done, Nat.zero_add, List.drop_zero]
      change Outcome.ok _ (u.wrote _ 0 (s.freeMap.bits.take s.freeMap.bits.length)) = _
      rw [List.take_length, ← hu]
      rfl
    · exact absurd (File.vec_inKernel (by omega)) blocked.not_inKernel
  have inner : withArc s.nextInode (do
      let _ ← Inode.writeAt s.nextInode (File.vec s.freeMap.bits) 0) u =
        .ok () { s.flushed with held := .freeMap :: s.held } := by
    refine withArc_ok ?_
    rw [Call.bind_ok written, Call.pure_apply]
  have shut := dropArc_new (s := { s.flushed with held := .freeMap :: s.held })
    s.nextInode (by simp [idle])
    (Function.update_self ..)
  have flushed : FreeMap.flush { s with held := .freeMap :: s.held } =
      .ok () { s.flushed with held := .freeMap :: s.held } := by
    rw [FreeMap.flush, Call.bind_ok opened, Call.get_bind, map, Call.bind_ok inner, shut]
  rw [Call.bind_ok (Call.attempt_ok flushed), Call.pure_apply]

/-- The inodes that exist, in memory or on the disk. -/
def listed (slots : Slots) (x : Nat) : Bool := (slots x).isSome

def Alone (slots : Slots) : Prop := ∀ x id, slots x = some (.opened id) → x = rootDirSector

/-- When the root directory's is the only descriptor, its inode is the only one in memory. -/
theorem Mounted.alone (m : Mounted slots s) (only : ∀ p ∈ s.files, p.1 = 0) : Alone slots := by
  intro x id hx
  obtain ⟨-, p, hp, same⟩ := upgrade_iff.mp ((m.linked.upgrade x id).mpr hx)
  obtain ⟨q, hq, rfl⟩ := List.mem_map.mp hp
  have file := m.file_of_mem (h := 0) (f := q.2) (by rw [← only q hq]; exact hq)
  refine m.sound.opened_inj hx ?_
  rw [← same, ← file]
  exact m.sound.root.slot

namespace Home

section Disk

variable (home : Home size slots s)

include home

theorem flushed_disk {y : Nat} (out : ¬RunOn s.disk freeMapSector y) :
    s.flushed.disk y = s.disk y := by
  apply overwrite_of_not_mem
  have bits : s.freeMap.bits.length = (inodeOn s.disk freeMapSector).len := by
    rw [s.freeMap.length_bits, home.mapSize, home.len]
  by_contra inside
  exact out ⟨by omega, by omega⟩

theorem not_mapData {y : Nat} (ne : x ≠ freeMapSector) (mine : y ∈ owned slots s x) :
    ¬RunOn s.disk freeMapSector y := by
  intro inside
  refine home.mounted.sound.other ne mine ?_
  rw [Sound.mem_owned_closed home.hidden.closed]
  exact .inr inside

theorem flushed_owned {y : Nat} (ne : x ≠ freeMapSector) (mine : y ∈ owned slots s x) :
    s.flushed.disk y = s.disk y := home.flushed_disk (home.not_mapData ne mine)

theorem flushed_inode (known : listed slots x = true) :
    inodeOn s.flushed.disk x = inodeOn s.disk x := by
  by_cases zero : x = freeMapSector
  · rw [zero, inodeOn, home.flushed_disk (home.mounted.sound.placed_on home.known).2.2]
    rfl
  · rw [inodeOn, home.flushed_owned zero (self_mem_owned known)]
    rfl

theorem flushed_runOn (known : listed slots x = true) (y : Nat) :
    RunOn s.flushed.disk x y ↔ RunOn s.disk x y := by
  rw [RunOn, RunOn, home.flushed_inode known]

/-- The inode of the root directory is the same in memory and on the disk. -/
theorem root_inode : inodeOn s.disk rootDirSector = (s.inodeOf 0).data :=
  home.mounted.sound.ofSector_eq home.mounted.sound.root.slot

theorem root_listed : listed slots rootDirSector = true := by
  rw [listed, show slots rootDirSector = _ from home.mounted.sound.root.slot]
  rfl

theorem runOn_owned (alone : Alone slots) (known : listed slots x = true) {y : Nat}
    (inside : RunOn s.disk x y) :
    y ∈ owned slots s x := by
  obtain ⟨slot, hx⟩ := Option.isSome_iff_exists.mp known
  cases slot with
  | opened id =>
    obtain rfl := alone x id hx
    rw [mem_owned_opened hx]
    refine .inr ⟨?_, lt_of_lt_of_le inside.2 ?_⟩
    · exact home.mounted.sound.ofSector_eq hx ▸ inside.1
    · have same : inodeOn s.disk rootDirSector = (s.inodes id).data :=
        home.mounted.sound.ofSector_eq hx
      rw [same, Inode.sectors, Inode.total]
      omega
  | closed =>
    rw [Sound.mem_owned_closed hx]
    exact .inr inside

theorem flushed_map : mapOn size s.flushed.disk = s.freeMap := by
  have bits : s.freeMap.bits.length = (size + 7) / 8 := home.mapSize ▸ s.freeMap.length_bits
  have same := home.flushed_inode (x := freeMapSector) home.known
  apply mapOn_eq home.mapSize
  rw [same]
  apply List.ext_getElem
  · rw [length_bytesFrom, bits]
  · intro i hi hi'
    simp only [bytesFrom, List.getElem_map, List.getElem_range, Nat.zero_add]
    change fileByte (overwrite s.disk _ 0 s.freeMap.bits) _ i = _
    rw [fileByte_overwrite, if_pos ⟨Nat.zero_le _, by omega⟩, Nat.sub_zero,
      List.getD_eq_getElem _ _ hi']

theorem flushed_entries : entriesOn s.flushed.disk = s.entries := by
  have root := home.root_inode
  rw [entriesOn, Sys.entries, home.flushed_inode home.root_listed, root]
  apply List.map_congr_left
  intro k hk
  rw [List.mem_range] at hk
  apply entryAt_congr
  intro i hi
  refine fileByte_congr (home.flushed_owned (x := rootDirSector) (by decide) ?_)
  refine (mem_owned_opened home.mounted.sound.root.slot _).mpr
    (.inr ⟨Nat.le_add_right _ _, Nat.add_lt_add_left ?_ _⟩)
  change (32 * k + i) / 512 < (s.inodeOf 0).sectors
  rw [Inode.sectors, Inode.total]
  omega

/-- With all descriptors but the first one gone, a flush leaves a disk that can be mounted. -/
theorem flushed_archive (alone : Alone slots) : Archive (listed slots) size s.flushed.disk := by
  have m := home.mounted
  have map := home.flushed_map
  have mine : ∀ x y, y ∈ ownedOn (listed slots) s.flushed.disk x → y ∈ owned slots s x := by
    rintro x y ⟨known, rfl | inside⟩
    · exact self_mem_owned known
    · exact home.runOn_owned alone known ((home.flushed_runOn known y).mp inside)
  refine ⟨home.mapSize ▸ m.sound.size_lt, ?_, ⟨?_, ?_⟩, ?_, ?_, ?_, home.known, ?_,
    home.root_listed, ?_, ?_⟩
  · rw [map, ← home.mapSize]
    exact m.sound.in_disk
  · intro x x' ne y hy hy'
    exact m.sound.other ne (mine x y hy) (mine x' y hy')
  · intro x y hy
    change (mapOn size s.flushed.disk).bit y = true
    rw [map]
    exact m.sound.marked (mine x y hy)
  · intro x known
    rw [home.flushed_inode known]
    exact (m.sound.placed_on known).1
  · intro x known
    rw [home.flushed_inode known, ← home.mapSize]
    exact (m.sound.placed_on known).2.1
  · intro x known
    rw [home.flushed_runOn known]
    exact (m.sound.placed_on known).2.2
  · rw [home.flushed_inode home.known]
    exact home.len
  · rw [home.flushed_entries]
    exact m.readable
  · rw [home.flushed_entries]
    intro e he valid
    obtain ⟨known, ne⟩ := m.known e he valid
    exact ⟨known, home.hidden.unnamed e he valid, ne⟩

end Disk

end Home

/-- What a caller sees of the files of `s` is what it sees of those of `t`: the free map, the number
of each path, and the bytes of each file, as many as it has. -/
structure SameFiles (s t : Sys) : Prop where
  freeMap : t.freeMap = s.freeMap
  lookup : ∀ path, ∃ r, (lock .rootDir (RootDir.path2inum path) s).result = some r ∧
    (lock .rootDir (RootDir.path2inum path) t).result = some r
  bytes : ∀ path, ∃ r, (DiskFs.readWhole path s).result = some r ∧
    (DiskFs.readWhole path t).result = some r

/-- A file system is known by its map, its entries and the bytes of the files that they name. -/
theorem SameFiles.of_mounted (m : Mounted slots s) (m' : Mounted slots' t)
    (freeMap : t.freeMap = s.freeMap)
    (entries : t.entries = s.entries)
    (same : ∀ path x, find path s.entries = .ok x → content slots' t x = content slots s x) :
    SameFiles s t := by
  refine ⟨freeMap, ?_, ?_⟩
  · intro path
    obtain ⟨p, looked⟩ := m.path2inum path
    obtain ⟨q, looked'⟩ := m'.path2inum path
    rw [entries] at looked'
    rw [looked, looked']
    cases find path s.entries with
    | ok x => exact ⟨.ok x, rfl, rfl⟩
    | error e => exact ⟨.error e, rfl, rfl⟩
  · intro path
    cases found : find path s.entries with
    | ok x =>
      obtain ⟨u, read⟩ := m.readWhole_found found
      obtain ⟨u', read'⟩ := m'.readWhole_found
        (show find path _ = .ok x by rw [entries]; exact found)
      rw [read, read', same path x found]
      exact ⟨.ok (content slots s x), rfl, rfl⟩
    | error e =>
      obtain ⟨u, failed⟩ := m.readWhole_missing found
      obtain ⟨u', failed'⟩ :=
        m'.readWhole_missing (show find path _ = .error e by rw [entries]; exact found)
      rw [failed, failed']
      exact ⟨.error .noSuchFile, rfl, rfl⟩

/-- With all descriptors but the first one gone, the disk after a flush holds what was in memory. -/
theorem Home.remount (home : Home size slots s) (only : ∀ p ∈ s.files, p.1 = 0) {capacity : Nat}
    (cap : capacity % 2 ^ 32 = size) {b : Sys} (idle : b.held = [])
    (disk : b.disk = s.flushed.disk) :
    ∃ t, DiskFs.mount capacity b = .ok () t ∧ SameFiles s t := by
  have m := home.mounted
  have alone := m.alone only
  have archive := home.flushed_archive alone
  rw [← disk] at archive
  have mounted := mount_loads capacity idle (archive.magic _ archive.map) (cap ▸ archive.mapLen)
    (archive.magic _ archive.root)
  rw [cap] at mounted
  have m' := loaded_mounted archive idle
  have map : (b.loaded size).freeMap = s.freeMap := by
    change mapOn size b.disk = s.freeMap
    rw [disk, home.flushed_map]
  have entries : (b.loaded size).entries = s.entries := by
    rw [loaded_entries, disk, home.flushed_entries]
  refine ⟨b.loaded size, mounted, .of_mounted m m' map entries ?_⟩
  intro path x found
  obtain ⟨ne, slot⟩ := m.slot_of_find found
  obtain ⟨e, he, names, same⟩ := find_ok found
  rw [DirEntry.names, Bool.and_eq_true] at names
  have zero : x ≠ freeMapSector := same ▸ home.hidden.unnamed e he names.1
  have closed : slots x = some .closed := by
    obtain ⟨id, hx⟩ | hx := slot
    · exact absurd (alone x id hx) ne
    · exact hx
  have known : listed slots x = true := by
    rw [listed, closed]
    rfl
  have here : (Store.mk s slots).data x = inodeOn s.disk x := Store.data_closed closed
  have there : (Store.mk (b.loaded size) (archived (listed slots) (b.nextInode + 1))).data
    x = inodeOn s.disk x := by
    refine (Store.data_closed (archived_closed ne known)).trans ?_
    change inodeOn b.disk x = _
    rw [disk, home.flushed_inode known]
  rw [content, content, here, there]
  change bytesFrom b.disk _ _ _ = _
  rw [disk, bytesFrom, bytesFrom]
  apply List.map_congr_left
  intro i hi
  rw [List.mem_range] at hi
  refine fileByte_congr (home.flushed_owned zero ?_)
  refine home.runOn_owned alone known ⟨Nat.le_add_right _ _, Nat.add_lt_add_left ?_ _⟩
  omega

end Tacos.Fs
