/- GID: Tacos/Fs/Mount
   generality: I
   source: src/fs/disk.rs, src/fs/disk/free_map.rs
   digest: Formatting a disk without a file system, and the owners of its first sectors. -/

import Tacos.Fs.Store

set_option autoImplicit false
set_option relaxedAutoImplicit false

namespace Tacos.Fs

open Tacos.Lib.Exec Tacos.Lib.Ownership Tacos.Lib.Run FreeMap Inode

/-- A disk without a free map and without a root directory, before it is mounted. -/
structure Blank (s : Sys) : Prop where
  idle : s.held = []
  freeMap : (DiskInode.ofSector (s.disk freeMapSector)).magic ≠ inodeMagic
  rootDir : (DiskInode.ofSector (s.disk rootDirSector)).magic ≠ inodeMagic

/-- The inodes of a formatted disk: the free map's is on the disk only, the root directory's stays
in memory. -/
def formatted (s : Sys) : Slots := fun x =>
  if x = freeMapSector then some .closed
  else if x = rootDirSector then some (.opened (s.file 0).vnode)
  else none

variable {s t : Sys}

theorem onFreeMap_eq_ok {α : Type} {y : FreeMap.Op α} {a : α} (h : onFreeMap y s = .ok a t) :
    ∃ m, y s.freeMap = .ok a m ∧ t = { s with freeMap := m } := by
  obtain ⟨m, hy, rfl⟩ := Call.zoom_eq_ok.mp h
  exact ⟨m, hy, rfl⟩

theorem set_eq_ok {m n : FreeMap} {y : Nat} {u : Unit} (h : FreeMap.set y m = .ok u n) :
    y < m.size ∧ n = m.modifyByte y (· ||| mask y) := by
  unfold FreeMap.set at h
  split at h
  · cases h
    exact ⟨‹_›, rfl⟩
  · cases h

theorem dropArc_new (id : Nat) {sector : Nat} {data : DiskInode} (free : .inode id ∉ s.held)
    (new : s.inodes id = ⟨.new sector 0, data⟩) : dropArc id s = .ok () s := by
  rw [dropArc, Call.get_bind]
  split
  · rfl
  · refine lock_ok (t := { s with held := .inode id :: s.held }) free ?_ rfl
    rw [getInode_bind]
    simp only [new]
    rfl

def baseMap (size : Nat) : FreeMap :=
  ((zeros size).modifyByte freeMapSector (· ||| mask freeMapSector)).modifyByte rootDirSector
    (· ||| mask rootDirSector)

theorem bit_baseMap {size : Nat} (h : 1 < size) (y : Nat) :
    (baseMap size).bit y = decide (y = freeMapSector ∨ y = rootDirSector) := by
  rw [baseMap, bit_set (show rootDirSector < size from h), bit_set (show freeMapSector < size by
    exact lt_trans Nat.zero_lt_one h), bit_zeros, Bool.false_or, Bool.decide_or]

def mapSectors (size : Nat) : Nat := ((size + 7) / 8 + 511) / 512

/-- A new free map: its inode and data are the only sectors in use besides the root directory's. -/
theorem newFormat_ok {size : Nat} (idle : s.held = []) (small : size < 2 ^ 32)
    (got : FreeMap.newFormat size s = .ok () t) :
    1 < size ∧ ∃ start, Taken (baseMap size) t.freeMap (InRun start (mapSectors size)) ∧
      start + mapSectors size ≤ size ∧ t = { s with
        disk := createdDisk s.disk freeMapSector start (mapSectors size)
          ⟨start, (size + 7) / 8, inodeMagic, fun _ => 0⟩
        freeMap := t.freeMap
        inodes := Function.update s.inodes s.nextInode
          ⟨.new freeMapSector 0, ⟨start, (size + 7) / 8, inodeMagic, fun _ => 0⟩⟩
        nextInode := s.nextInode + 1 } := by
  have cnt : bytesToSectors ((size + 7) / 8) = mapSectors size := bytesToSectors_of_lt (by omega)
  have len : (size + 7) / 8 % 2 ^ 32 = (size + 7) / 8 := Nat.mod_eq_of_lt (by omega)
  rw [FreeMap.newFormat, Call.modify_bind] at got
  obtain ⟨_, s₁, set₀, got⟩ := Call.bind_eq_ok.mp got
  obtain ⟨_, s₂, set₁, got⟩ := Call.bind_eq_ok.mp got
  obtain ⟨start, s₃, alloc₀, got⟩ := Call.bind_eq_ok.mp got
  obtain ⟨m₁, mark₀, rfl⟩ := onFreeMap_eq_ok set₀
  obtain ⟨m₂, mark₁, rfl⟩ := onFreeMap_eq_ok set₁
  obtain ⟨n, found, rfl⟩ := onFreeMap_eq_ok alloc₀
  obtain ⟨-, rfl⟩ := set_eq_ok mark₀
  obtain ⟨inside, rfl⟩ := set_eq_ok mark₁
  obtain ⟨taken, fits⟩ := alloc_taken found
  rw [cnt] at taken fits
  have created := Inode.create_eq (s := { s with freeMap := n }) freeMapSector start
    ((size + 7) / 8) (by simp [idle]) (by rw [cnt]; exact le_trans fits (le_of_lt small))
  rw [cnt, len] at created
  have dropped := dropArc_new (s := { s with
    disk := createdDisk s.disk freeMapSector start (mapSectors size)
      ⟨start, (size + 7) / 8, inodeMagic, fun _ => 0⟩
    freeMap := n
    inodes := Function.update s.inodes s.nextInode
      ⟨.new freeMapSector 0, ⟨start, (size + 7) / 8, inodeMagic, fun _ => 0⟩⟩
    nextInode := s.nextInode + 1 }) s.nextInode (by simp [idle]) (Function.update_self ..)
  have rest : _ = Outcome.ok () t := (Call.bind_ok created).symm.trans got
  rw [dropped] at rest
  cases rest
  exact ⟨inside, start, taken, fits, rfl⟩

def mapInode (size start : Nat) : DiskInode := ⟨start, (size + 7) / 8, inodeMagic, fun _ => 0⟩

def rootInode (start : Nat) : DiskInode := ⟨start, 4096, inodeMagic, fun _ => 0⟩

/-- The state after a disk of a given size was formatted, with the data of the free map from `a`
and that of the root directory from `b` on. -/
def Sys.formatted (s : Sys) (size a b : Nat) (m : FreeMap) : Sys where
  disk := createdDisk (createdDisk s.disk freeMapSector a (mapSectors size) (mapInode size a))
    rootDirSector b rootDirSectorLen (rootInode b)
  freeMap := m
  inodes := Function.update (Function.update s.inodes s.nextInode
    ⟨.new freeMapSector 0, mapInode size a⟩)
    (s.nextInode + 1) ⟨.new rootDirSector 0, rootInode b⟩
  nextInode := s.nextInode + 2
  files := [(0, .new (s.nextInode + 1))]
  nextFile := 1
  inodeTable := Function.update (fun _ => none) rootDirSector (some (s.nextInode + 1))
  held := s.held

/-- Where the first two files of a formatted disk are. -/
structure Layout (size a b : Nat) (n m : FreeMap) : Prop where
  size_lt : size < 2 ^ 32
  two : 1 < size
  mapTaken : Taken (baseMap size) n (InRun a (mapSectors size))
  mapFits : a + mapSectors size ≤ size
  rootTaken : Taken n m (InRun b rootDirSectorLen)
  rootFits : b + rootDirSectorLen ≤ size

theorem mount_blank {capacity : Nat} (blank : Blank s) (got : DiskFs.mount capacity s = .ok () t) :
    ∃ a b n, Layout (capacity % 2 ^ 32) a b n t.freeMap ∧
      t = s.formatted (capacity % 2 ^ 32) a b t.freeMap := by
  generalize hsize : capacity % 2 ^ 32 = size at *
  have small : size < 2 ^ 32 := hsize ▸ Nat.mod_lt _ (by norm_num)
  rw [DiskFs.mount, Call.modify_bind, hsize] at got
  obtain ⟨_, s₁, first, got⟩ := Call.bind_eq_ok.mp got
  -- No free map is found, so that a new one is made.
  have noMap : FreeMap.load size { s with inodeTable := fun _ => none } =
      .err .openInvalidInode { s with inodeTable := fun _ => none } := by
    refine Call.bind_err ?_
    rw [Inode.openAt_eq freeMapSector (by simp [blank.idle]), if_neg blank.freeMap]
  rw [DiskFs.mountFreeMap, Call.bind_ok (Call.attempt_err noMap)] at first
  obtain ⟨two, a, mapTaken, mapFits, frame⟩ :=
    newFormat_ok (s := { s with inodeTable := fun _ => none })
    blank.idle small first
  have idle : s₁.held = [] := by
    rw [frame]
    exact blank.idle
  -- The root directory's sector is still without the magic number.
  have noRoot : (DiskInode.ofSector (s₁.disk rootDirSector)).magic ≠ inodeMagic := by
    have apart : ¬InRun a (mapSectors size) rootDirSector := by
      intro inside
      have free := mapTaken.free _ inside
      rw [bit_baseMap two] at free
      simp at free
    have same : s₁.disk rootDirSector = s.disk rootDirSector := by
      rw [frame]
      change createdDisk _ _ _ _ _ rootDirSector = _
      rw [createdDisk, if_neg apart, Function.update_of_ne (by decide)]
    rw [same]
    exact blank.rootDir
  obtain ⟨vnode, s₂, second, got⟩ := Call.bind_eq_ok.mp got
  have missing : Call.attempt (Inode.openAt rootDirSector) s₁ = .ok
    (.error .openInvalidInode) s₁ := by
    refine Call.attempt_err ?_
    rw [Inode.openAt_eq rootDirSector (by simp [idle]), if_neg noRoot]
  rw [DiskFs.mountRoot, Call.bind_ok missing] at second
  simp only at second
  have sizeN : s₁.freeMap.size = size := mapTaken.size
  obtain ⟨b, m, found, rootTaken, rootFits⟩ | failed := Store.alloc_lock_cases idle rootDirSectorLen
  · have created := Inode.create_eq (s := { s₁ with freeMap := m }) rootDirSector b
      (rootDirSectorLen * 512) (by simp [idle])
      (le_trans (show b + rootDirSectorLen ≤ size from sizeN ▸ rootFits) (le_of_lt small))
    rw [Call.bind_ok found, created] at second
    cases second
    have registered : register rootDirSector s₁.nextInode { s₁ with
        disk := createdDisk s₁.disk rootDirSector b rootDirSectorLen (rootInode b)
        freeMap := m
        inodes := Function.update s₁.inodes s₁.nextInode ⟨.new rootDirSector 0, rootInode b⟩
        nextInode := s₁.nextInode + 1 } = .ok () { s₁ with
        disk := createdDisk s₁.disk rootDirSector b rootDirSectorLen (rootInode b)
        freeMap := m
        inodes := Function.update s₁.inodes s₁.nextInode ⟨.new rootDirSector 0, rootInode b⟩
        nextInode := s₁.nextInode + 1
        inodeTable := Function.update s₁.inodeTable rootDirSector (some s₁.nextInode) } :=
      lock_ok (t := { s₁ with
        disk := createdDisk s₁.disk rootDirSector b rootDirSectorLen (rootInode b)
        freeMap := m
        inodes := Function.update s₁.inodes s₁.nextInode ⟨.new rootDirSector 0, rootInode b⟩
        nextInode := s₁.nextInode + 1
        inodeTable := Function.update s₁.inodeTable rootDirSector (some s₁.nextInode)
        held := .inodeTable :: s₁.held }) (by simp [idle]) rfl rfl
    have last : _ = Outcome.ok () t := (Call.bind_ok registered).symm.trans got
    cases last
    refine ⟨a, b, s₁.freeMap, ⟨small, two, mapTaken, mapFits, rootTaken, sizeN ▸ rootFits⟩, ?_⟩
    rw [frame]
    rfl
  · rw [Call.bind_err failed] at second
    cases second

namespace Layout

variable {size a b : Nat} {n m : FreeMap}

theorem bit_map (layout : Layout size a b n m) (y : Nat)
    (h : y = freeMapSector ∨ y = rootDirSector) :
    n.bit y = true := by
  refine layout.mapTaken.kept y ?_
  rw [bit_baseMap layout.two, decide_eq_true h]

theorem not_data (layout : Layout size a b n m) (y : Nat)
    (h : y = freeMapSector ∨ y = rootDirSector) :
    ¬InRun a (mapSectors size) y ∧ ¬InRun b rootDirSectorLen y := by
  constructor
  · intro inside
    have free := layout.mapTaken.free y inside
    rw [bit_baseMap layout.two, decide_eq_true h] at free
    cases free
  · intro inside
    have free := layout.rootTaken.free y inside
    rw [layout.bit_map y h] at free
    cases free

end Layout

section Formatted

variable {size a b : Nat} {n m : FreeMap}

theorem formatted_disk (layout : Layout size a b n m) :
    (s.formatted size a b m).disk freeMapSector = (mapInode size a).toSector ∧
      (s.formatted size a b m).disk rootDirSector = (rootInode b).toSector := by
  have zero := layout.not_data freeMapSector (.inl rfl)
  have one := layout.not_data rootDirSector (.inr rfl)
  constructor
  · change createdDisk _ _ _ _ _ freeMapSector = _
    rw [createdDisk, if_neg zero.2, Function.update_of_ne (by decide), createdDisk, if_neg zero.1,
      Function.update_self]
  · change createdDisk _ _ _ _ _ rootDirSector = _
    rw [createdDisk, if_neg one.2, Function.update_self]

theorem formatted_ofSector (layout : Layout size a b n m) :
    DiskInode.ofSector ((s.formatted size a b m).disk freeMapSector) = mapInode size a := by
  have size_lt := layout.size_lt
  have fits := layout.mapFits
  rw [(formatted_disk layout).1]
  refine DiskInode.ofSector_toSector ?_ ?_ ?_
  · change a < 2 ^ 32
    omega
  · change (size + 7) / 8 < 2 ^ 32
    omega
  · change inodeMagic < 2 ^ 32
    decide

theorem rootInode_sectors (b : Nat) :
    (⟨.new rootDirSector 0, rootInode b⟩ : Inode).sectors = rootDirSectorLen := by
  rw [Inode.sectors, Inode.total]
  norm_num [rootInode, InodeDesc.new, rootDirSectorLen]

theorem rootInode_owns (b y : Nat) :
    (⟨.new rootDirSector 0, rootInode b⟩ : Inode).Owns y ↔ InRun b rootDirSectorLen y := by
  rw [Inode.Owns, rootInode_sectors]
  rfl

theorem formatted_slot (x : Nat) : formatted (s.formatted size a b m) x =
    if x = freeMapSector then some .closed
    else if x = rootDirSector then some (.opened (s.nextInode + 1)) else none := rfl

theorem mem_owned_formatted (layout : Layout size a b n m) (x y : Nat) :
    y ∈ owned (formatted (s.formatted size a b m)) (s.formatted size a b m) x ↔
      x = freeMapSector ∧ (y = freeMapSector ∨ InRun a (mapSectors size) y) ∨
        x = rootDirSector ∧ (y = rootDirSector ∨ InRun b rootDirSectorLen y) := by
  by_cases zero : x = freeMapSector
  · subst zero
    rw [Sound.mem_owned_closed (by rw [formatted_slot, if_pos rfl]), formatted_ofSector layout]
    have ne : freeMapSector ≠ rootDirSector := by decide
    simp only [ne, false_and, or_false, true_and]
    rfl
  · by_cases one : x = rootDirSector
    · subst one
      have slot : formatted (s.formatted size a b m) rootDirSector =
        some (.opened (s.nextInode + 1)) := by
        rw [formatted_slot, if_neg zero, if_pos rfl]
      rw [mem_owned_opened slot]
      have inode : (s.formatted size a b m).inodes (s.nextInode + 1) =
        ⟨.new rootDirSector 0, rootInode b⟩ :=
        Function.update_self ..
      rw [inode, rootInode_owns]
      simp only [zero, false_and, false_or, true_and]
    · simp only [zero, one, false_and, or_self, iff_false]
      exact not_mem_owned_none (by rw [formatted_slot, if_neg zero, if_neg one]) y

/-- The two files of a formatted disk have their own sectors, and the map knows of them. -/
theorem formatted_sound (layout : Layout size a b n m) :
    Sound (formatted (s.formatted size a b m)) (s.formatted size a b m) := by
  have sizeN : n.size = size := layout.mapTaken.size
  have sizeM : m.size = size := layout.rootTaken.size.trans sizeN
  have mapMarked : ∀ y, y = freeMapSector ∨ InRun a (mapSectors size) y → n.bit y = true := by
    rintro y (rfl | inside)
    · exact layout.bit_map _ (.inl rfl)
    · exact layout.mapTaken.marked y inside
  have rootMarked : ∀ y, y = rootDirSector ∨ InRun b rootDirSectorLen y → m.bit y = true := by
    rintro y (rfl | inside)
    · exact layout.rootTaken.kept _ (layout.bit_map _ (.inr rfl))
    · exact layout.rootTaken.marked y inside
  have disjoint : ∀ y, (y = freeMapSector ∨ InRun a (mapSectors size) y) →
      ¬(y = rootDirSector ∨ InRun b rootDirSectorLen y) := by
    rintro y hy (rfl | inside)
    · rcases hy with same | data
      · exact absurd same (by decide)
      · exact (layout.not_data _ (.inr rfl)).1 data
    · have free := layout.rootTaken.free y inside
      rw [mapMarked y hy] at free
      cases free
  have root : (s.formatted size a b m).inodes (s.nextInode + 1) =
    ⟨.new rootDirSector 0, rootInode b⟩ :=
    Function.update_self ..
  refine ⟨sizeM ▸ layout.size_lt, ?_, ⟨?_, ?_⟩, ?_, ⟨rfl, ?_, ?_, ?_⟩⟩
  · intro y hy
    change y < m.size
    rw [sizeM]
    obtain old | inside := layout.rootTaken.in_disk y hy
    · obtain base | inside := layout.mapTaken.in_disk y old
      · rw [bit_baseMap layout.two, decide_eq_true_eq] at base
        have two := layout.two
        rcases base with rfl | rfl
        · exact lt_trans Nat.zero_lt_one two
        · exact two
      · exact inside
    · exact sizeN ▸ inside
  · intro x x' ne y hy hy'
    rw [mem_owned_formatted layout] at hy hy'
    rcases hy with ⟨rfl, hy⟩ | ⟨rfl, hy⟩
    · rcases hy' with ⟨rfl, -⟩ | ⟨rfl, hy'⟩
      · exact ne rfl
      · exact disjoint y hy hy'
    · rcases hy' with ⟨rfl, hy'⟩ | ⟨rfl, -⟩
      · exact disjoint y hy' hy
      · exact ne rfl
  · intro x y hy
    rw [mem_owned_formatted layout] at hy
    rcases hy with ⟨rfl, hy⟩ | ⟨rfl, hy⟩
    · exact layout.rootTaken.kept y (mapMarked y hy)
    · exact rootMarked y hy
  · intro x
    rw [Placed, formatted_slot]
    by_cases zero : x = freeMapSector
    · rw [if_pos zero, zero]
      simp only
      rw [formatted_ofSector layout]
      refine ⟨rfl, ?_, ?_⟩
      · change a + mapSectors size ≤ m.size
        rw [sizeM]
        exact layout.mapFits
      · rw [dataOf, formatted_slot, if_pos rfl]
        simp only
        rw [formatted_ofSector layout]
        exact (layout.not_data _ (.inl rfl)).1
    · rw [if_neg zero]
      by_cases one : x = rootDirSector
      · rw [if_pos one, one]
        simp only
        rw [root, rootInode_owns, rootInode_sectors]
        refine ⟨rfl, Nat.lt_succ_self _, ?_, ?_, (layout.not_data _ (.inr rfl)).2,
          (formatted_disk layout).2, rfl⟩
        · change 4096 + 0 < 2 ^ 32
          norm_num
        · change b + rootDirSectorLen ≤ m.size
          rw [sizeM]
          exact layout.rootFits
      · rw [if_neg one]
        trivial
  · rfl
  · have len : ((s.formatted size a b m).inodeOf 0).data.len = 4096 :=
      congrArg (fun i => i.data.len) root
    rw [len]
    norm_num
  · exact congrArg (fun i => i.desc.denyWrite) root

end Formatted

/-- The store that mounting a disk without a file system leaves. -/
def Store.mount (capacity : Nat) (s : Sys) : Option Store :=
  match DiskFs.mount capacity s with
  | .ok _ t => some ⟨t, formatted t⟩
  | _ => none

namespace Store

variable {st st' st₀ : Store} {capacity : Nat}

theorem mount_inv (blank : Blank s) (mounted : Store.mount capacity s = some st₀) : st₀.Inv := by
  unfold Store.mount at mounted
  split at mounted
  · rename_i t got
    cases mounted
    obtain ⟨a, b, n, layout, frame⟩ := mount_blank blank got
    have sound := formatted_sound (s := s) layout
    rw [← frame] at sound
    refine ⟨?_, sound⟩
    rw [frame]
    exact blank.idle
  · cases mounted

theorem next_eq_some {op : Op} (h : st.next op = some st') : ∃ r, st.step op = some (st', r) := by
  obtain ⟨⟨st'', r⟩, stepped, rfl⟩ := Option.map_eq_some_iff.mp h
  exact ⟨r, stepped⟩

theorem run_inv {ops : List Op} (inv : st.Inv) (ran : run next st ops = some st') : st'.Inv := by
  refine run_invariant (I := Inv) ?_ inv ran
  intro st op st' inv stepped
  obtain ⟨r, stepped⟩ := next_eq_some stepped
  exact (step_keeps inv stepped).inv

/-- From a fresh disk on no sector ever has two owners, every owned sector is marked, and no
operation clears the mark of a sector of an inode that it is not on. -/
theorem sectors_owned_once {ops : List Op} (blank : Blank s)
    (mounted : Store.mount capacity s = some st₀)
    (ran : run next st₀ ops = some st) :
    (∀ x x', x ≠ x' → Disjoint (st.owned x) (st.owned x')) ∧
      (∀ x, ∀ y ∈ st.owned x, st.bit y = true) ∧
        ∀ op st' r, st.step op = some (st', r) → ∀ x, x ∉ subject op →
          ∀ y ∈ st.owned x, st'.bit y = true := by
  have inv := run_inv (mount_inv blank mounted) ran
  refine ⟨?_, fun x y hy => inv.sound.marked hy, ?_⟩
  · intro x x' ne
    rw [Set.disjoint_left]
    exact fun y hy => inv.sound.other ne hy
  · intro op st' r stepped x other y hy
    by_contra clear
    obtain ⟨x', mine, hy'⟩ := (step_keeps inv stepped).cleared y (inv.sound.marked hy)
      (Bool.eq_false_iff.mpr clear)
    have ne : x ≠ x' := by
      rintro rfl
      exact other mine
    exact inv.sound.other ne hy hy'

def emptyDisk : Sys := ⟨fun _ _ => 0, zeros 0, fun _ => default, 0, [], 0, fun _ => none, []⟩

/-- A file that grows out of its place, is cut, closed, opened again, removed and closed. -/
def lifeOps : List Op :=
  [.create 0, .create 0, .resize 11 600, .resize 12 600, .resize 11 2000, .resize 11 100, .close 11,
    .reopen 11, .write 11 ⟨vmOffset, [1, 2, 3], fun _ => none⟩ 510, .remove 11, .close 11]

theorem blank_emptyDisk : Blank emptyDisk := ⟨rfl, by decide, by decide⟩

theorem life_owned_once : ∃ st₀ st, Store.mount 64 emptyDisk = some st₀ ∧
    run next st₀ lifeOps = some st ∧
    Disjoint (st.owned 0) (st.owned 12) ∧ ∀ y ∈ st.owned 12, st.bit y = true := by
  have finished : ((Store.mount 64 emptyDisk).bind fun st => run next st lifeOps).isSome =
    true := by decide +kernel
  obtain ⟨st, both⟩ := Option.isSome_iff_exists.mp finished
  obtain ⟨st₀, mounted, ran⟩ := Option.bind_eq_some_iff.mp both
  have owners := sectors_owned_once blank_emptyDisk mounted ran
  exact ⟨st₀, st, mounted, ran, owners.1 0 12 (by decide), owners.2.1 12⟩

end Store

end Tacos.Fs
