/- GID: Tacos/Fs/Files
   generality: I
   source: src/fs/disk.rs, src/fs.rs, src/fs/disk/dir.rs
   digest: A mounted file system in order, and what opening, dropping and naming files does to it.
     -/

import Tacos.Fs.Names

set_option autoImplicit false
set_option relaxedAutoImplicit false

namespace Tacos.Fs

open Tacos.Lib.Exec Tacos.Lib.Ownership FreeMap Inode RootDir

variable {slots slots' : Slots} {s t : Sys} {x id h : Nat}

/-! ## Descriptors and the inode table -/

/-- The numbers of the descriptors and the inodes they are on. -/
def Sys.links (s : Sys) : List (Nat × Nat) := s.files.map fun p => (p.1, p.2.vnode)

theorem links_setPos (s : Sys) (h p : Nat) : (s.setPos h p).links = s.links := by
  rw [Sys.links, Sys.links, Sys.setPos, List.map_map]
  apply List.map_congr_left
  rintro ⟨n, f⟩ -
  by_cases here : n = h
  · simp [here]
  · simp [here]

theorem referenced_iff : s.referenced id = true ↔ ∃ p ∈ s.links, p.2 = id := by
  rw [Sys.referenced, List.any_eq_true]
  constructor
  · rintro ⟨p, hp, same⟩
    exact ⟨(p.1, p.2.vnode), List.mem_map.mpr ⟨p, hp, rfl⟩, beq_iff_eq.mp same⟩
  · rintro ⟨q, hq, rfl⟩
    obtain ⟨p, hp, rfl⟩ := List.mem_map.mp hq
    exact ⟨p, hp, beq_self_eq_true _⟩

theorem upgrade_iff : s.upgrade x = some id ↔ s.inodeTable x = some id ∧
    ∃ p ∈ s.links, p.2 = id := by
  rw [Sys.upgrade, Option.filter_eq_some_iff, referenced_iff]

/-- The descriptors are numbered apart, each is on an inode in memory, the root directory's has only
the first one, and the table finds exactly the inodes in memory. -/
structure Linked (slots : Slots) (s : Sys) : Prop where
  nodup : (s.links.map Prod.fst).Nodup
  handle_lt : ∀ p ∈ s.links, p.1 < s.nextFile
  live : ∀ p ∈ s.links, ∃ x, slots x = some (.opened p.2) ∧ (p.1 ≠ 0 → x ≠ 1)
  upgrade : ∀ x id, s.upgrade x = some id ↔ slots x = some (.opened id)
  table_lt : ∀ x id, s.inodeTable x = some id → id < s.nextInode

namespace Linked

theorem referenced (linked : Linked slots s) (h : slots x = some (.opened id)) :
    s.referenced id = true :=
  referenced_iff.mpr (upgrade_iff.mp ((linked.upgrade x id).mpr h)).2

/-- After mounting there is one descriptor, and its inode is the only one in memory. -/
theorem alone {root : Nat} (links : s.links = [(0, root)]) (file : s.nextFile = 1)
    (table : s.inodeTable = Function.update (fun _ => none) rootDirSector (some root))
    (next : root < s.nextInode)
    (only : ∀ x id, slots x = some (.opened id) ↔ x = rootDirSector ∧ id = root) :
    Linked slots s := by
  have here : ∀ x id, s.inodeTable x = some id ↔ x = rootDirSector ∧ id = root := by
    intro x id
    rw [table]
    by_cases one : x = rootDirSector
    · rw [one, Function.update_self, Option.some.injEq]
      simp only [true_and]
      exact eq_comm
    · rw [Function.update_of_ne one]
      simp [one]
  refine ⟨?_, ?_, ?_, ?_, ?_⟩
  · rw [links]
    simp
  · rw [links, file]
    intro p hp
    rw [List.mem_singleton.mp hp]
    exact Nat.zero_lt_one
  · rw [links]
    intro p hp
    rw [List.mem_singleton.mp hp]
    exact ⟨rootDirSector, (only _ _).mpr ⟨rfl, rfl⟩, fun h => absurd rfl h⟩
  · intro x id
    rw [upgrade_iff, links, here, only]
    constructor
    · exact And.left
    · rintro ⟨rfl, rfl⟩
      exact ⟨⟨rfl, rfl⟩, _, List.mem_singleton_self _, rfl⟩
  · intro x id hid
    rw [((here x id).mp hid).2]
    exact next

theorem of_same (linked : Linked slots s) (links : t.links = s.links)
    (file : t.nextFile = s.nextFile)
    (table : t.inodeTable = s.inodeTable) (next : s.nextInode ≤ t.nextInode) : Linked slots t := by
  refine ⟨links ▸ linked.nodup, ?_, ?_, ?_, ?_⟩
  · rw [links, file]
    exact linked.handle_lt
  · rw [links]
    exact linked.live
  · intro x id
    rw [upgrade_iff, table, links, ← upgrade_iff]
    exact linked.upgrade x id
  · intro x id hid
    exact lt_of_lt_of_le (linked.table_lt x id (table ▸ hid)) next

theorem numbered_cons (linked : Linked slots s) (links : t.links = (s.nextFile, id) :: s.links)
    (file : t.nextFile = s.nextFile + 1) :
    (t.links.map Prod.fst).Nodup ∧ ∀ p ∈ t.links, p.1 < t.nextFile := by
  constructor
  · rw [links, List.map_cons, List.nodup_cons]
    refine ⟨?_, linked.nodup⟩
    intro old
    obtain ⟨p, hp, same⟩ := List.mem_map.mp old
    exact absurd (linked.handle_lt p hp) (by omega)
  · intro p hp
    rw [links, List.mem_cons] at hp
    rw [file]
    rcases hp with rfl | hp
    · exact Nat.lt_succ_self _
    · exact Nat.lt_succ_of_lt (linked.handle_lt p hp)

theorem newFile (linked : Linked slots s) (h : slots x = some (.opened id)) (ne : x ≠ 1)
    (links : t.links = (s.nextFile, id) :: s.links) (file : t.nextFile = s.nextFile + 1)
    (table : t.inodeTable = s.inodeTable) (next : s.nextInode ≤ t.nextInode) : Linked slots t := by
  obtain ⟨nodup, handle_lt⟩ := linked.numbered_cons links file
  refine ⟨nodup, handle_lt, ?_, ?_, ?_⟩
  · intro p hp
    rw [links, List.mem_cons] at hp
    rcases hp with rfl | hp
    · exact ⟨x, h, fun _ => ne⟩
    · exact linked.live p hp
  · intro x' id'
    rw [← linked.upgrade x' id', upgrade_iff, upgrade_iff, table, links]
    refine and_congr_right fun hid => ?_
    constructor
    · rintro ⟨p, hp, rfl⟩
      rcases List.mem_cons.mp hp with rfl | hp
      · exact (upgrade_iff.mp ((linked.upgrade x id).mpr h)).2
      · exact ⟨p, hp, rfl⟩
    · rintro ⟨p, hp, rfl⟩
      exact ⟨p, List.mem_cons_of_mem _ hp, rfl⟩
  · intro x' id' hid
    exact lt_of_lt_of_le (linked.table_lt x' id' (table ▸ hid)) next

/-- An inode comes into memory, is registered and gets a descriptor. -/
theorem newInode (linked : Linked slots s) (out : ∀ id, slots x ≠ some (.opened id)) (ne : x ≠ 1)
    (links : t.links = (s.nextFile, s.nextInode) :: s.links) (file : t.nextFile = s.nextFile + 1)
    (table : t.inodeTable = Function.update s.inodeTable x (some s.nextInode))
    (next : t.nextInode = s.nextInode + 1) :
    Linked (Function.update slots x (some (.opened s.nextInode))) t := by
  obtain ⟨nodup, handle_lt⟩ := linked.numbered_cons links file
  refine ⟨nodup, handle_lt, ?_, ?_, ?_⟩
  · intro p hp
    rw [links, List.mem_cons] at hp
    rcases hp with rfl | hp
    · exact ⟨x, Function.update_self .., fun _ => ne⟩
    · obtain ⟨x', h', rest⟩ := linked.live p hp
      refine ⟨x', ?_, rest⟩
      rw [Function.update_of_ne]
      · exact h'
      · rintro rfl
        exact out _ h'
  · intro x' id'
    rw [upgrade_iff, table, links]
    by_cases here : x' = x
    · subst here
      rw [Function.update_self, Function.update_self]
      constructor
      · rintro ⟨same, -⟩
        cases same
        rfl
      · intro same
        cases same
        exact ⟨rfl, _, List.mem_cons_self, rfl⟩
    · rw [Function.update_of_ne here, Function.update_of_ne here,
        ← linked.upgrade x' id', upgrade_iff]
      refine and_congr_right fun hid => ?_
      constructor
      · rintro ⟨p, hp, rfl⟩
        rcases List.mem_cons.mp hp with rfl | hp
        · exact absurd (linked.table_lt x' _ hid) (Nat.lt_irrefl _)
        · exact ⟨p, hp, rfl⟩
      · rintro ⟨p, hp, rfl⟩
        exact ⟨p, List.mem_cons_of_mem _ hp, rfl⟩
  · intro x' id' hid
    rw [table] at hid
    rw [next]
    by_cases here : x' = x
    · rw [here, Function.update_self] at hid
      cases hid
      exact Nat.lt_succ_self _
    · rw [Function.update_of_ne here] at hid
      exact Nat.lt_succ_of_lt (linked.table_lt x' id' hid)

/-- An inode that was in memory for a while is registered, but nothing refers to it. -/
theorem stale (linked : Linked slots s) (out : ∀ id, slots x ≠ some (.opened id))
    {slot : Option Slot}
    (out' : ∀ id, slot ≠ some (.opened id)) (inside : ∀ p ∈ s.links, p.2 < s.nextInode)
    (links : t.links = s.links) (file : t.nextFile = s.nextFile)
    (table : t.inodeTable = Function.update s.inodeTable x (some s.nextInode))
    (next : t.nextInode = s.nextInode + 1) : Linked (Function.update slots x slot) t := by
  refine ⟨links ▸ linked.nodup, ?_, ?_, ?_, ?_⟩
  · rw [links, file]
    exact linked.handle_lt
  · rw [links]
    intro p hp
    obtain ⟨x', h', rest⟩ := linked.live p hp
    refine ⟨x', ?_, rest⟩
    rw [Function.update_of_ne]
    · exact h'
    · rintro rfl
      exact out _ h'
  · intro x' id'
    rw [upgrade_iff, table, links]
    by_cases here : x' = x
    · subst here
      rw [Function.update_self, Function.update_self]
      constructor
      · rintro ⟨same, p, hp, rfl⟩
        exact absurd (inside p hp) (Option.some.inj same ▸ Nat.lt_irrefl _)
      · intro same
        exact absurd same (out' id')
    · rw [Function.update_of_ne here, Function.update_of_ne here,
        ← linked.upgrade x' id', upgrade_iff]
  · intro x' id' hid
    rw [table] at hid
    rw [next]
    by_cases here : x' = x
    · rw [here, Function.update_self] at hid
      cases hid
      exact Nat.lt_succ_self _
    · rw [Function.update_of_ne here] at hid
      exact Nat.lt_succ_of_lt (linked.table_lt x' id' hid)

/-- One descriptor fewer, on an inode that keeps another one. -/
theorem dropOne (linked : Linked slots s) (mine : (h, id) ∈ s.links)
    (links : t.links = s.links.filter (·.1 != h)) (file : t.nextFile = s.nextFile)
    (table : t.inodeTable = s.inodeTable) (next : s.nextInode ≤ t.nextInode)
    (more : ∃ p ∈ t.links, p.2 = id) : Linked slots t := by
  have old : ∀ p ∈ t.links, p ∈ s.links := by
    rw [links]
    exact fun p hp => (List.mem_filter.mp hp).1
  refine ⟨?_, ?_, fun p hp => linked.live p (old p hp), ?_, ?_⟩
  · rw [links]
    exact linked.nodup.sublist (List.filter_sublist.map Prod.fst)
  · rw [file]
    exact fun p hp => linked.handle_lt p (old p hp)
  · intro x' id'
    rw [← linked.upgrade x' id', upgrade_iff, upgrade_iff, table]
    refine and_congr_right fun hid => ?_
    constructor
    · rintro ⟨p, hp, rfl⟩
      exact ⟨p, old p hp, rfl⟩
    · rintro ⟨p, hp, rfl⟩
      by_cases here : p.1 = h
      · -- Numbers are apart, so that this is the descriptor that goes.
        have same : p = (h, id) := by
          refine List.inj_on_of_nodup_map linked.nodup hp mine ?_
          exact here
        rw [same]
        exact more
      · refine ⟨p, ?_, rfl⟩
        rw [links, List.mem_filter]
        exact ⟨hp, bne_iff_ne.mpr here⟩
  · intro x' id' hid
    exact lt_of_lt_of_le (linked.table_lt x' id' (table ▸ hid)) next

/-- The last descriptor on an inode goes, and the inode with it. -/
theorem dropLast (linked : Linked slots s) (slotX : slots x = some (.opened id))
    (unique : ∀ x', slots x' = some (.opened id) → x' = x) {slot : Option Slot}
    (out : ∀ id, slot ≠ some (.opened id)) (links : t.links = s.links.filter (·.1 != h))
    (mine : (h, id) ∈ s.links) (file : t.nextFile = s.nextFile)
    (table : t.inodeTable = s.inodeTable) (next : s.nextInode ≤ t.nextInode)
    (last : ¬∃ p ∈ t.links, p.2 = id) : Linked (Function.update slots x slot) t := by
  have old : ∀ p ∈ t.links, p ∈ s.links ∧ p.2 ≠ id := by
    intro p hp
    refine ⟨?_, fun same => last ⟨p, hp, same⟩⟩
    rw [links] at hp
    exact (List.mem_filter.mp hp).1
  refine ⟨?_, ?_, ?_, ?_, ?_⟩
  · rw [links]
    exact linked.nodup.sublist (List.filter_sublist.map Prod.fst)
  · rw [file]
    exact fun p hp => linked.handle_lt p (old p hp).1
  · intro p hp
    obtain ⟨x', h', rest⟩ := linked.live p (old p hp).1
    refine ⟨x', ?_, rest⟩
    rw [Function.update_of_ne]
    · exact h'
    · rintro rfl
      rw [slotX] at h'
      cases h'
      exact (old p hp).2 rfl
  · intro x' id'
    rw [upgrade_iff, table]
    by_cases here : x' = x
    · subst here
      rw [Function.update_self]
      constructor
      · rintro ⟨hid, p, hp, rfl⟩
        have up := (linked.upgrade x' p.2).mp (upgrade_iff.mpr ⟨hid, p, (old p hp).1, rfl⟩)
        rw [slotX] at up
        cases up
        exact absurd rfl (old p hp).2
      · exact fun same => absurd same (out id')
    · rw [Function.update_of_ne here, ← linked.upgrade x' id', upgrade_iff]
      refine and_congr_right fun hid => ?_
      constructor
      · rintro ⟨p, hp, rfl⟩
        exact ⟨p, (old p hp).1, rfl⟩
      · rintro ⟨p, hp, rfl⟩
        by_cases gone : p.1 = h
        · have same : p = (h, id) := List.inj_on_of_nodup_map linked.nodup hp mine gone
          subst same
          have up := (linked.upgrade x' id).mp (upgrade_iff.mpr ⟨hid, _, hp, rfl⟩)
          exact absurd (unique x' up) here
        · refine ⟨p, ?_, rfl⟩
          rw [links, List.mem_filter]
          exact ⟨hp, bne_iff_ne.mpr gone⟩
  · intro x' id' hid
    exact lt_of_lt_of_le (linked.table_lt x' id' (table ▸ hid)) next

end Linked

def Sys.opened (s : Sys) (id : Nat) : Sys :=
  { s with files := (s.nextFile, .new id) :: s.files, nextFile := s.nextFile + 1 }

/-- The state after a closed inode was read, registered and got a descriptor. -/
def Sys.reopened (s : Sys) (x : Nat) : Sys := { s with
  inodes := Function.update s.inodes s.nextInode ⟨.new x 0, DiskInode.ofSector (s.disk x)⟩
  nextInode := s.nextInode + 1
  inodeTable := Function.update s.inodeTable x (some s.nextInode)
  files := (s.nextFile, .new s.nextInode) :: s.files
  nextFile := s.nextFile + 1 }

def Sys.dropped (s : Sys) (h : Nat) : Sys := { s with files := s.files.filter (·.1 != h) }

/-- The state in which a descriptor that forbade writing no longer does. -/
def Sys.allow (s : Sys) (f : File) : Sys :=
  if f.denyWrite then
    let desc := { (s.inodes f.vnode).desc with denyWrite := (s.inodes f.vnode).desc.denyWrite - 1 }
    { s with inodes := Function.update s.inodes f.vnode ⟨desc, (s.inodes f.vnode).data⟩ }
  else s

/-! ## A file system in order -/

/-- No lock is held, the sectors are owned as they should be, the descriptors fit the inodes in
memory, and the names in use are readable and lead to inodes other than the root directory's. -/
structure Mounted (slots : Slots) (s : Sys) : Prop where
  idle : s.held = []
  sound : Sound slots s
  linked : Linked slots s
  readable : Readable s.entries
  known : ∀ e ∈ s.entries, e.isValid = true → (slots e.inum).isSome ∧ e.inum ≠ 1

/-- An inode that is on the disk only and that no name leads to. -/
structure Hidden (slots : Slots) (s : Sys) (x : Nat) : Prop where
  closed : slots x = some .closed
  unnamed : ∀ e ∈ s.entries, e.isValid = true → e.inum ≠ x

/-- What a call leaves: a file system in order on a disk of the same size, with the hidden inodes as
they were. -/
structure Carried (slots slots' : Slots) (s t : Sys) : Prop where
  mounted : Mounted slots' t
  size : t.freeMap.size = s.freeMap.size
  hidden : ∀ x, Hidden slots s x → Hidden slots' t x ∧ t.disk x = s.disk x

namespace Carried

theorem trans {slots'' : Slots} {u : Sys} (first : Carried slots slots' s t)
    (second : Carried slots' slots'' t u) :
    Carried slots slots'' s u := by
  refine ⟨second.mounted, second.size.trans first.size, ?_⟩
  intro x hidden
  obtain ⟨between, disk⟩ := first.hidden x hidden
  obtain ⟨after, disk'⟩ := second.hidden x between
  exact ⟨after, disk'.trans disk⟩

/-- A step of inodes that are in memory, new, or named, after which each name is an old one or leads
to a new inode. -/
theorem of_local {X : Set Nat} (mounted : Mounted slots' t)
    (loc : Local slots slots' s t X) (size : t.freeMap.size = s.freeMap.size)
    (touched : ∀ x ∈ X, slots x = some .closed → ∃ e ∈ s.entries, e.isValid = true ∧ e.inum = x)
    (named : ∀ e ∈ t.entries, e.isValid = true → e ∈ s.entries ∨ slots e.inum = none) :
    Carried slots slots' s t := by
  refine ⟨mounted, size, ?_⟩
  intro x hidden
  have out : x ∉ X := by
    intro mem
    obtain ⟨e, he, valid, same⟩ := touched x mem hidden.closed
    exact hidden.unnamed e he valid same
  have known : (slots x).isSome := by
    rw [hidden.closed]
    rfl
  refine ⟨⟨(loc.slot x out).trans hidden.closed, ?_⟩, loc.disk x out x (self_mem_owned known)⟩
  intro e he valid
  obtain old | free := named e he valid
  · exact hidden.unnamed e old valid
  · rintro rfl
    rw [hidden.closed] at free
    cases free

theorem of_disk (mounted : Mounted slots t) (size : t.freeMap.size = s.freeMap.size)
    (disk : t.disk = s.disk)
    (entries : t.entries = s.entries) : Carried slots slots s t := by
  refine ⟨mounted, size, ?_⟩
  intro x hidden
  exact ⟨⟨hidden.closed, entries ▸ hidden.unnamed⟩, congrFun disk x⟩

end Carried

theorem Sound.of_files (sound : Sound slots s) (files : List (Nat × File)) (next : Nat)
    (table : Nat → Option Nat) (root : files.lookup 0 = s.files.lookup 0) :
    Sound slots { s with files := files, nextFile := next, inodeTable := table } := by
  have file : ({ s with files := files, nextFile := next, inodeTable := table } : Sys).file
    0 = s.file 0 := by
    rw [Sys.file, Sys.file, root]
  have inode : ({ s with files := files, nextFile := next, inodeTable := table } : Sys).inodeOf 0 =
    s.inodeOf 0 := by
    rw [Sys.inodeOf, file]
    rfl
  refine ⟨sound.size_lt, sound.in_disk, sound.exclusive, sound.placed, ?_⟩
  refine ⟨?_, ?_, inode ▸ sound.root.len, inode ▸ sound.root.allowed⟩
  · change (files.lookup 0).isSome
    rw [root]
    exact sound.root.known
  · rw [file]
    exact sound.root.slot

theorem Sound.rootReady (sound : Sound slots s) (idle : s.held = []) :
    FileReady { s with held := .rootDir :: s.held } 0 := by
  refine ⟨sound.root.known, ?_, ?_⟩
  · change Lock.inode (s.file 0).vnode ∉ Lock.rootDir :: s.held
    simp [idle]
  · change Lock.virtio ∉ Lock.rootDir :: s.held
    simp [idle]

theorem Local.of_files {X : Set Nat} (loc : Local slots slots' s t X)
    (files : List (Nat × File)) (next : Nat)
    (table : Nat → Option Nat) (root : files.lookup 0 = t.files.lookup 0) :
    Local slots slots' s { t with files := files, nextFile := next, inodeTable := table } X :=
  ⟨loc.sound.of_files files next table root, loc.slot, loc.inode, loc.disk, loc.owned⟩

namespace Mounted

theorem inside (m : Mounted slots s) : ∀ p ∈ s.links, p.2 < s.nextInode := by
  intro p hp
  obtain ⟨x, hx, -⟩ := m.linked.live p hp
  exact m.sound.lt_nextInode hx

theorem nextFile_pos (m : Mounted slots s) : 0 < s.nextFile := by
  obtain ⟨f, hf⟩ := Option.isSome_iff_exists.mp m.sound.root.known
  have mem : (0, f) ∈ s.files := by
    rw [List.lookup_eq_some_iff] at hf
    obtain ⟨l₁, l₂, parts, -⟩ := hf
    rw [parts]
    simp
  exact m.linked.handle_lt (0, f.vnode) (List.mem_map.mpr ⟨_, mem, rfl⟩)

theorem rootReady (m : Mounted slots s) : FileReady { s with held := .rootDir :: s.held } 0 :=
  m.sound.rootReady m.idle

theorem rootDir_free (m : Mounted slots s) : Lock.rootDir ∉ s.held := by simp [m.idle]

theorem setPos (m : Mounted slots s) (p : Nat) : Mounted slots (s.setPos 0 p) := by
  have file : (s.setPos 0 p).file 0 = { s.file 0 with pos := p } := file_setPos p m.sound.root.known
  have inode : (s.setPos 0 p).inodeOf 0 = s.inodeOf 0 := by
    rw [Sys.inodeOf, file]
    rfl
  have entries : (s.setPos 0 p).entries = s.entries := by
    rw [Sys.entries, inode]
    rfl
  refine ⟨m.idle, (m.sound.setPos p).sound, m.linked.of_same
    (links_setPos s 0 p) rfl rfl le_rfl, ?_, ?_⟩
  · rw [entries]
    exact m.readable
  · rw [entries]
    exact m.known

/-! ### Looking up a name -/

theorem path2inum (m : Mounted slots s) (path : Path) :
    ∃ p, lock .rootDir (RootDir.path2inum path) s =
      .ofExcept (find path s.entries) (s.setPos 0 p) := by
  obtain ⟨p, got⟩ := path2inum_eq path m.rootReady
  refine ⟨p, ?_⟩
  change RootDir.path2inum path { s with held := .rootDir :: s.held } =
    .ofExcept (find path s.entries)
    { s.setPos 0 p with held := .rootDir :: s.held } at got
  cases found : find path s.entries with
  | ok inum =>
    rw [found] at got
    exact lock_ok m.rootDir_free got rfl
  | error e =>
    rw [found] at got
    exact lock_err m.rootDir_free got rfl

theorem contains (m : Mounted slots s) (path : Path) :
    ∃ p, lock .rootDir (RootDir.contains path) s =
      .ok (find path s.entries).isOk (s.setPos 0 p) := by
  obtain ⟨p, got⟩ := contains_eq path m.rootReady
  refine ⟨p, ?_⟩
  change RootDir.contains path { s with held := .rootDir :: s.held } = .ok
    (find path s.entries).isOk
    { s.setPos 0 p with held := .rootDir :: s.held } at got
  exact lock_ok m.rootDir_free got rfl

theorem expect_path2inum (m : Mounted slots s) {path : Path} {inum : Nat}
    (found : find path s.entries = .ok inum) :
    ∃ p, lock .rootDir (expect (RootDir.path2inum path)) s = .ok inum (s.setPos 0 p) := by
  obtain ⟨p, got⟩ := path2inum_eq path m.rootReady
  refine ⟨p, ?_⟩
  change RootDir.path2inum path { s with held := .rootDir :: s.held } =
    .ofExcept (find path s.entries)
    { s.setPos 0 p with held := .rootDir :: s.held } at got
  rw [found] at got
  refine lock_ok m.rootDir_free (t := { s.setPos 0 p with held := .rootDir :: s.held }) ?_ rfl
  rw [expect, Call.bind_ok (Call.attempt_ok got)]
  rfl

/-! ### Opening -/

/-- A step that leaves the root directory alone and loses no inode. -/
theorem of_local {X : Set Nat} (m : Mounted slots s) (loc : Local slots slots' s t X) (out : 1 ∉ X)
    (idle : t.held = []) (file : (t.file 0).vnode = (s.file 0).vnode) (linked : Linked slots' t)
    (kept : ∀ x, (slots x).isSome → (slots' x).isSome) : Mounted slots' t := by
  have entries := loc.entries m.sound out file
  refine ⟨idle, loc.sound, linked, entries ▸ m.readable, ?_⟩
  rw [entries]
  intro e he valid
  obtain ⟨some, ne⟩ := m.known e he valid
  exact ⟨kept e.inum some, ne⟩

theorem lookup_cons (m : Mounted slots s) (f : File) :
    ((s.nextFile, f) :: s.files).lookup 0 = s.files.lookup 0 := by
  rw [List.lookup_cons, beq_eq_false_iff_ne.mpr (Nat.ne_of_lt m.nextFile_pos)]

theorem newFile (m : Mounted slots s) (hx : slots x = some (.opened id)) (ne : x ≠ 1) :
    Mounted slots (s.opened id) := by
  have loc := (m.sound.refl (x := 0)).of_files ((s.nextFile, .new id) :: s.files)
    (s.nextFile + 1) s.inodeTable
    (m.lookup_cons _)
  have file : (s.opened id).file 0 = s.file 0 := by
    rw [Sys.file, Sys.opened, m.lookup_cons, ← Sys.file]
  exact m.of_local loc (by simp) m.idle (by rw [file])
    (m.linked.newFile hx ne rfl rfl rfl le_rfl) fun _ h => h

theorem reopen (m : Mounted slots s) (hx : slots x = some .closed) :
    Local slots (Function.update slots x (some (.opened s.nextInode))) s (s.reopened x) {x} ∧
      Mounted (Function.update slots x (some (.opened s.nextInode))) (s.reopened x) := by
  have ne : x ≠ 1 := by
    rintro rfl
    rw [m.sound.root.slot] at hx
    cases hx
  have loc := (m.sound.opens hx).of_files ((s.nextFile, .new s.nextInode) :: s.files)
    (s.nextFile + 1)
    (Function.update s.inodeTable x (some s.nextInode)) (m.lookup_cons _)
  have file : (s.reopened x).file 0 = s.file 0 := by
    rw [Sys.file, Sys.reopened, m.lookup_cons, ← Sys.file]
  refine ⟨loc, m.of_local loc (fun h => ne h.symm) m.idle (by rw [file]) ?_ ?_⟩
  · refine m.linked.newInode ?_ ne rfl rfl rfl rfl
    intro id h
    rw [hx] at h
    cases h
  · intro x' h
    by_cases here : x' = x
    · rw [here, Function.update_self]
      rfl
    · rw [Function.update_of_ne here]
      exact h

theorem entries_setPos (m : Mounted slots s) (p : Nat) : (s.setPos 0 p).entries = s.entries := by
  have file : (s.setPos 0 p).file 0 = { s.file 0 with pos := p } := file_setPos p m.sound.root.known
  rw [Sys.entries, Sys.inodeOf, file]
  rfl

theorem upgrade_closed (m : Mounted slots s) (hx : ∀ id, slots x ≠ some (.opened id)) :
    s.upgrade x = none := by
  cases up : s.upgrade x with
  | none => rfl
  | some id => exact absurd ((m.linked.upgrade x id).mp up) (hx id)

theorem upgrade_lock (idle : s.held = []) (x : Nat) :
    lock .inodeTable (Fs.upgrade x) s = .ok (s.upgrade x) s :=
  lock_ok (t := { s with held := .inodeTable :: s.held }) (by simp [idle]) rfl rfl

theorem register_eq (idle : s.held = []) (x id : Nat) : register x id s =
    .ok () { s with inodeTable := Function.update s.inodeTable x (some id) } :=
  lock_ok (t := { s with
    inodeTable := Function.update s.inodeTable x (some id)
    held := .inodeTable :: s.held }) (by simp [idle]) rfl rfl

theorem open_register (idle : s.held = [])
    (magic : (DiskInode.ofSector (s.disk x)).magic = inodeMagic) :
    (do
      let vnode ← Inode.openAt x
      register x vnode
      Fs.newFile vnode : M Nat) s = .ok s.nextFile (s.reopened x) := by
  have read := Inode.openAt_eq (s := s) x (by simp [idle])
  rw [if_pos magic] at read
  rw [Call.bind_ok read]
  exact Call.bind_ok (register_eq (s := { s with
    inodes := Function.update s.inodes s.nextInode ⟨.new x 0, DiskInode.ofSector (s.disk x)⟩
    nextInode := s.nextInode + 1 }) idle x s.nextInode)

/-- A name that is found is the one of an inode, which is in memory or on the disk. -/
theorem slot_of_find (m : Mounted slots s) {path : Path} (found : find path s.entries = .ok x) :
    x ≠ 1 ∧ ((∃ id, slots x = some (.opened id)) ∨ slots x = some .closed) := by
  obtain ⟨e, he, names, rfl⟩ := find_ok found
  rw [DirEntry.names, Bool.and_eq_true] at names
  obtain ⟨some, ne⟩ := m.known e he names.1
  refine ⟨ne, ?_⟩
  obtain ⟨slot, h⟩ := Option.isSome_iff_exists.mp some
  cases slot with
  | opened id => exact .inl ⟨id, h⟩
  | closed => exact .inr h

theorem openFile_missing (m : Mounted slots s) {path : Path} {e : OsError}
    (missing : find path s.entries = .error e) :
    ∃ p, DiskFs.openFile path s = .err .noSuchFile (s.setPos 0 p) := by
  obtain ⟨p, looked⟩ := m.contains path
  rw [missing] at looked
  exact ⟨p, Call.bind_ok looked⟩

theorem openFile_found (m : Mounted slots s) {path : Path} (found : find path s.entries = .ok x) :
    ∃ p, DiskFs.openFile path s = .ok s.nextFile (match slots x with
      | some (.opened id) => (s.setPos 0 p).opened id
      | _ => (s.setPos 0 p).reopened x) := by
  obtain ⟨p, looked⟩ := m.contains path
  rw [found] at looked
  have m₁ := m.setPos p
  obtain ⟨q, again⟩ := m₁.expect_path2inum (by rw [m.entries_setPos]; exact found)
  rw [setPos_setPos] at again
  have m₂ := m.setPos q
  refine ⟨q, ?_⟩
  rw [DiskFs.openFile, Call.bind_ok looked]
  change (lock .rootDir (expect (RootDir.path2inum path)) >>= _) (s.setPos 0 p) = _
  rw [Call.bind_ok again, Call.bind_ok (upgrade_lock m₂.idle x)]
  obtain ⟨-, ⟨id, hx⟩ | hx⟩ := m.slot_of_find found
  · rw [hx, (m₂.linked.upgrade x id).mpr hx]
    rfl
  · have closed : ∀ id, slots x ≠ some (.opened id) := by
      intro id h
      rw [hx] at h
      cases h
    have placed := m₂.sound.placed x
    rw [Placed, hx] at placed
    rw [hx, m₂.upgrade_closed closed]
    exact open_register m₂.idle placed.1

/-! ### Dropping -/

theorem links_dropped (s : Sys) (h : Nat) : (s.dropped h).links = s.links.filter (·.1 != h) := by
  rw [Sys.links, Sys.links, Sys.dropped, List.filter_map]
  rfl

theorem lookup_dropped (s : Sys) (ne : h ≠ 0) :
    (s.dropped h).files.lookup 0 = s.files.lookup 0 := by
  rw [Sys.dropped]
  induction s.files with
  | nil => rfl
  | cons p rest ih =>
    obtain ⟨n, f⟩ := p
    rw [List.filter_cons]
    by_cases here : n = h
    · have other : (0 == n) = false := beq_eq_false_iff_ne.mpr (by rw [here]; exact Ne.symm ne)
      rw [if_neg (by simp [here]), ih, List.lookup_cons, other]
    · rw [if_pos (by simpa using here), List.lookup_cons, List.lookup_cons, ih]

theorem lookup_of_mem (m : Mounted slots s) {f : File} (mine : (h, f) ∈ s.files) :
    s.files.lookup h = some f := by
  have nodup : (s.files.map Prod.fst).Nodup := by
    have := m.linked.nodup
    rwa [Sys.links, List.map_map] at this
  obtain ⟨l₁, l₂, parts⟩ := List.append_of_mem mine
  rw [parts] at nodup ⊢
  rw [List.lookup_eq_some_iff]
  refine ⟨l₁, l₂, rfl, ?_⟩
  intro p hp
  rw [bne_iff_ne]
  rintro rfl
  rw [List.map_append, List.map_cons] at nodup
  exact (List.nodup_append.mp nodup).2.2 p.1 (List.mem_map.mpr ⟨p, hp, rfl⟩)
    p.1 List.mem_cons_self rfl

theorem file_of_mem (m : Mounted slots s) {f : File} (mine : (h, f) ∈ s.files) : s.file h = f := by
  rw [Sys.file, m.lookup_of_mem mine]
  rfl

theorem allowWrite_cases (m : Mounted slots s) (f : File) :
    (DiskFs.allowWrite f s = .halt .overflow ∧ f.denyWrite = true ∧
      (s.inodes f.vnode).desc.denyWrite = 0) ∨
      DiskFs.allowWrite f s = .ok () (s.allow f) := by
  rw [DiskFs.allowWrite]
  by_cases denies : f.denyWrite = true
  · rw [if_pos denies]
    have free : Lock.inode f.vnode ∉ s.held := by simp [m.idle]
    by_cases none : (s.inodes f.vnode).desc.denyWrite = 0
    · refine .inl ⟨lock_halt free ?_, denies, none⟩
      rw [getInode_bind, if_pos none, Call.halt_apply]
    · right
      rw [Sys.allow, if_pos denies]
      refine lock_ok (t := { s with
        inodes := Function.update s.inodes f.vnode ⟨{ (s.inodes f.vnode).desc with
          denyWrite := (s.inodes f.vnode).desc.denyWrite - 1 }, (s.inodes f.vnode).data⟩
        held := .inode f.vnode :: s.held }) free ?_ rfl
      rw [getInode_bind, if_neg none]
      rfl
  · right
    rw [if_neg denies, Sys.allow, if_neg denies, Call.pure_apply]

theorem slot_of_mem (m : Mounted slots s) {f : File} (mine : (h, f) ∈ s.files) (ne : h ≠ 0) :
    ∃ x, slots x = some (.opened f.vnode) ∧ x ≠ 1 := by
  obtain ⟨x, hx, other⟩ := m.linked.live (h, f.vnode) (List.mem_map.mpr ⟨(h, f), mine, rfl⟩)
  exact ⟨x, hx, other ne⟩

theorem allow_local (m : Mounted slots s) {f : File}
    (hx : slots x = some (.opened f.vnode)) (ne : x ≠ 1) :
    Local slots slots s (s.allow f) {x} := by
  rw [Sys.allow]
  split
  · exact m.sound.describe hx ne rfl rfl
  · exact m.sound.refl

theorem allow_fields (s : Sys) (f : File) : (s.allow f).files = s.files ∧
    (s.allow f).nextFile = s.nextFile ∧
    (s.allow f).inodeTable = s.inodeTable ∧ (s.allow f).nextInode = s.nextInode ∧
      (s.allow f).held = s.held ∧
      (s.allow f).disk = s.disk ∧ (s.allow f).freeMap = s.freeMap := by
  rw [Sys.allow]
  split <;> exact ⟨rfl, rfl, rfl, rfl, rfl, rfl, rfl⟩

theorem allow_inode (s : Sys) (f : File) :
    ((s.allow f).inodes f.vnode).data = (s.inodes f.vnode).data ∧
      ((s.allow f).inodes f.vnode).desc.shrinkLen = (s.inodes f.vnode).desc.shrinkLen ∧
        ((s.allow f).inodes f.vnode).desc.removed = (s.inodes f.vnode).desc.removed := by
  rw [Sys.allow]
  split
  · simp only [Function.update_self]
    exact ⟨trivial, trivial, trivial⟩
  · exact ⟨rfl, rfl, rfl⟩

theorem closed_fields (closed : Closed s t id) : t.links = s.links ∧ t.nextFile = s.nextFile ∧
    t.inodeTable = s.inodeTable ∧ t.nextInode = s.nextInode ∧ t.held = s.held := by
  have frame := closed.frame
  split at frame
  · rw [frame]
    exact ⟨links_setPos _ _ _, rfl, rfl, rfl, rfl⟩
  · rw [frame]
    exact ⟨rfl, rfl, rfl, rfl, rfl⟩

theorem entries_struck (sound : Sound slots s) (x p : Nat) :
    ((s.strike x 0).setPos 0 p).entries = s.entries.map (DirEntry.strike x) := by
  have file : ((s.strike x 0).setPos 0 p).file 0 = { s.file 0 with pos := p } :=
    file_setPos p sound.root.known
  rw [← entries_strike, Sys.entries, Sys.inodeOf, file]
  rfl

theorem closed_entries (sound : Sound slots s) (closed : Closed s t id) : t.entries =
    if (s.inodes id).desc.removed then s.entries.map
      (DirEntry.strike (s.inodes id).desc.sector) else s.entries := by
  have frame := closed.frame
  split at frame
  · rename_i removed
    rw [if_pos removed, frame]
    exact entries_struck sound _ (t.file 0).pos
  · rename_i stays
    rw [if_neg stays, frame]
    rfl

/-- What is left of a file system when an inode is closed. -/
theorem closed (m : Mounted slots s) {u : Sys} (loc : Local slots slots s u {x}) (ne : x ≠ 1)
    (size : u.freeMap.size = s.freeMap.size) (idle : u.held = [])
    (file : (u.file 0).vnode = (s.file 0).vnode)
    (hx : slots x = some (.opened id))
    (linked : Linked (Function.update slots x (leftover (u.inodes id))) t)
    (closed : Closed u t id) :
    Carried slots (Function.update slots x (leftover (u.inodes id))) s t := by
  have entries := loc.entries m.sound (fun h => ne h.symm) file
  have both := loc.trans (loc.sound.closes hx ne closed)
  have sound := both.sound
  have touched : ∀ y ∈ ({x} ∪ {1, x} : Set Nat), slots y = some .closed →
      ∃ e ∈ s.entries, e.isValid = true ∧ e.inum = y := by
    rintro y (rfl | rfl | rfl) shut
    · rw [hx] at shut
      cases shut
    · rw [m.sound.root.slot] at shut
      cases shut
    · rw [hx] at shut
      cases shut
  have frame := closed.frame
  have sector := loc.sound.sector_eq hx
  by_cases removed : (u.inodes id).desc.removed = true
  · rw [if_pos removed] at frame
    have struck : t.entries = s.entries.map (DirEntry.strike x) := by
      rw [closed_entries loc.sound closed, if_pos removed, sector, entries]
    refine .of_local ⟨?_, sound, linked, ?_, ?_⟩ both (closed.size.trans size) touched ?_
    · rw [frame]
      exact idle
    · rw [struck]
      exact fun e he valid => m.readable e (mem_map_strike he valid).1 valid
    · rw [struck]
      intro e he valid
      obtain ⟨old, other⟩ := mem_map_strike he valid
      rw [Function.update_of_ne other]
      exact m.known e old valid
    · rw [struck]
      exact fun e he valid => .inl (mem_map_strike he valid).1
  · rw [if_neg removed] at frame
    have same : t.entries = s.entries := by
      rw [closed_entries loc.sound closed, if_neg removed, entries]
    refine .of_local ⟨?_, sound, linked, same ▸ m.readable, ?_⟩ both
      (closed.size.trans size) touched ?_
    · rw [frame]
      exact idle
    · rw [same]
      intro e he valid
      obtain ⟨some, other⟩ := m.known e he valid
      refine ⟨?_, other⟩
      by_cases here : e.inum = x
      · rw [here, Function.update_self, leftover, if_neg removed]
        rfl
      · rw [Function.update_of_ne here]
        exact some
    · rw [same]
      exact fun e he _ => .inl he

/-- A descriptor goes, and the inode stays in memory for another one, or it is closed. -/
theorem dropArc_cases (m : Mounted slots s) {f : File} (mine : (h, f) ∈ s.files) (ne : h ≠ 0)
    (hx : slots x = some (.opened f.vnode)) :
    (∃ e, dropArc f.vnode (s.dropped h) = .halt e ∧ (s.dropped h).referenced f.vnode = false ∧
        0 < (s.inodes f.vnode).desc.shrinkLen ∧ 2 ^ 32 ≤ (s.inodes f.vnode).data.len + 512) ∨
      ((s.dropped h).referenced f.vnode = true ∧
        dropArc f.vnode (s.dropped h) = .ok () (s.dropped h) ∧
        Carried slots slots s (s.dropped h)) ∨
      ((s.dropped h).referenced f.vnode = false ∧ ∃ t, dropArc f.vnode (s.dropped h) = .ok () t ∧
        Closed (s.dropped h) t f.vnode ∧
          Carried slots (Function.update slots x (leftover (s.inodes f.vnode))) s t) := by
  obtain ⟨x', hx', other⟩ := m.slot_of_mem mine ne
  obtain rfl : x' = x := m.sound.opened_inj hx' hx
  have linkIn : (h, f.vnode) ∈ s.links := List.mem_map.mpr ⟨(h, f), mine, rfl⟩
  have links := links_dropped s h
  have loc : Local slots slots s (s.dropped h) {x'} :=
    (m.sound.refl (x := x')).of_files (s.dropped h).files s.nextFile
      s.inodeTable (lookup_dropped _ ne)
  have root : ((s.dropped h).file 0).vnode = (s.file 0).vnode := by
    rw [Sys.file, lookup_dropped _ ne, ← Sys.file]
  rw [dropArc, Call.get_bind]
  cases more : (s.dropped h).referenced f.vnode with
  | true =>
    rw [if_pos rfl]
    refine .inr (.inl ⟨rfl, rfl, ?_⟩)
    have linked := m.linked.dropOne linkIn links rfl rfl le_rfl (referenced_iff.mp more)
    have out : 1 ∉ ({x'} : Set Nat) := fun h => other h.symm
    exact .of_disk (m.of_local loc out m.idle root linked fun _ h => h) rfl rfl
      (loc.entries m.sound out root)
  | false =>
    rw [if_neg Bool.false_ne_true]
    obtain ⟨e, stops, some, huge⟩ | ⟨t, done, closed⟩ := close_ends loc.sound hx other m.idle
    · exact .inl ⟨e, stops, rfl, some, huge⟩
    · refine .inr (.inr ⟨rfl, t, done, closed, ?_⟩)
      obtain ⟨links', nextFile', table', nextInode', -⟩ := closed_fields closed
      have last : ¬∃ p ∈ t.links, p.2 = f.vnode := by
        rw [links', ← referenced_iff, more]
        exact Bool.false_ne_true
      have linked := m.linked.dropLast hx (fun x' h' => m.sound.opened_inj h' hx)
        (leftover_ne_opened (s.inodes f.vnode)) (links'.trans links) linkIn
        nextFile' table' (le_of_eq nextInode'.symm) last
      exact m.closed (u := s.dropped h) loc other rfl m.idle root hx linked closed

theorem allow_carried (m : Mounted slots s) {f : File}
    (hx : slots x = some (.opened f.vnode)) (ne : x ≠ 1) :
    Carried slots slots s (s.allow f) := by
  obtain ⟨files, nextFile, table, nextInode, held, disk, map⟩ := allow_fields s f
  have loc := m.allow_local hx ne
  have out : 1 ∉ ({x} : Set Nat) := fun h => ne h.symm
  have root : ((s.allow f).file 0).vnode = (s.file 0).vnode := by rw [Sys.file, files, ← Sys.file]
  have linked := m.linked.of_same
    (congrArg (List.map fun p : Nat × File => (p.1, p.2.vnode)) files) nextFile table
    (le_of_eq nextInode.symm)
  exact .of_disk (m.of_local loc out (held.trans m.idle) root linked fun _ h => h)
    (congrArg FreeMap.size map) disk
    (loc.entries m.sound out root)

/-- Where the drop of a descriptor ends: the machine stops, the inode stays in memory for another
one, or it is closed. -/
theorem dropFile_cases (m : Mounted slots s) {f : File} (mine : (h, f) ∈ s.files) (ne : h ≠ 0)
    (hx : slots x = some (.opened f.vnode)) :
    (∃ e, DiskFs.dropFile h s = .halt e ∧ (f.denyWrite = true ∧
      (s.inodes f.vnode).desc.denyWrite = 0 ∨
        (s.dropped h).referenced f.vnode = false ∧ 0 < (s.inodes f.vnode).desc.shrinkLen ∧
          2 ^ 32 ≤ (s.inodes f.vnode).data.len + 512)) ∨
      ((s.dropped h).referenced f.vnode = true ∧ DiskFs.dropFile h s =
        .ok () ((s.allow f).dropped h) ∧
        Carried slots slots s ((s.allow f).dropped h)) ∨
      ((s.dropped h).referenced f.vnode = false ∧ ∃ t, DiskFs.dropFile h s = .ok () t ∧
        Closed ((s.allow f).dropped h) t f.vnode ∧
          Carried slots (Function.update slots x (leftover ((s.allow f).inodes f.vnode))) s t) := by
  obtain ⟨x', hx', other⟩ := m.slot_of_mem mine ne
  obtain rfl : x' = x := m.sound.opened_inj hx' hx
  have first : File.getFile h s = .ok f s := congrArg (fun f => Outcome.ok f s) (m.file_of_mem mine)
  obtain ⟨files, -⟩ := allow_fields s f
  have referenced : ((s.allow f).dropped h).referenced f.vnode =
    (s.dropped h).referenced f.vnode := by
    rw [Sys.referenced, Sys.referenced, Sys.dropped, Sys.dropped, files]
  obtain ⟨stops, denies, none⟩ | allowed := m.allowWrite_cases f
  · refine .inl ⟨.overflow, ?_, .inl ⟨denies, none⟩⟩
    rw [DiskFs.dropFile, Call.bind_ok first, Call.bind_halt stops]
  have unfolded : DiskFs.dropFile h s = dropArc f.vnode ((s.allow f).dropped h) := by
    rw [DiskFs.dropFile, Call.bind_ok first, Call.bind_ok allowed]
    rfl
  have carried := m.allow_carried hx other
  rw [unfolded, ← referenced]
  obtain ⟨e, stops, last, some, huge⟩ | ⟨more, done, rest⟩ | ⟨last, t, done, closed, rest⟩ :=
    carried.mounted.dropArc_cases (files ▸ mine) ne hx
  · obtain ⟨data, shrink, -⟩ := allow_inode s f
    exact .inl ⟨e, stops, .inr ⟨last, shrink ▸ some, data ▸ huge⟩⟩
  · exact .inr (.inl ⟨more, done, carried.trans rest⟩)
  · exact .inr (.inr ⟨last, t, done, closed, carried.trans rest⟩)

end Mounted

end Tacos.Fs
