/- GID: Tacos/Fs/Confined
   generality: I
   source: src/fs/disk.rs, src/fs/disk/inode.rs
   digest: Steps of a mounted file system that concern some inodes and leave the others as they
     were. -/

import Tacos.Fs.Calls

set_option autoImplicit false
set_option relaxedAutoImplicit false

namespace Tacos.Fs

open Tacos.Lib.Exec FreeMap Inode RootDir

variable {slots slots' : Slots} {s t u : Sys} {x y id h : Nat} {path : Path} {X Y gone : Set Nat}

/-- A step of the inodes with numbers in `X`: names are new only where an inode is, those of other
inodes are in their places, descriptors stay but those in `gone`, and inodes that come into memory
have addresses of their own. -/
structure Confined (slots slots' : Slots) (s t : Sys) (X gone : Set Nat) : Prop where
  mounted : Mounted slots' t
  loc : Local slots slots' s t X
  size : t.freeMap.size = s.freeMap.size
  named : ∀ e ∈ t.entries, e.isValid = true → e ∈ s.entries ∨ slots e.inum = none
  place : ∀ (k : Nat) (e : DirEntry), s.entries[k]? = some e → e.isValid = true →
    e.inum ∉ X → t.entries[k]? = some e
  links : ∀ q ∈ s.links, q.1 ∉ gone → q ∈ t.links
  fresh : ∀ y id, slots' y = some (.opened id) → slots y = some (.opened id) ∨ s.nextInode ≤ id
  next : s.nextInode ≤ t.nextInode

/-- The inodes that a call may concern, by number: the root directory's, the one that its descriptor
is on, and those that are new or have a name where it takes a path. -/
def Concerned (slots : Slots) (s : Sys) (handle? : Option Nat) (y : Nat) : Prop :=
  y = 1 ∨ match handle? with
    | some h => slots y = some (.opened (s.file h).vnode)
    | none => slots y = none ∨ ∃ e ∈ s.entries, e.isValid = true ∧ e.inum = y

namespace Confined

theorem mono (confined : Confined slots slots' s t X gone) (sub : X ⊆ Y) :
    Confined slots slots' s t Y gone :=
  { confined with
    loc := confined.loc.mono sub
    place := fun k e here valid out => confined.place k e here valid fun h => out (sub h) }

theorem trans (first : Confined slots slots s t X ∅) (second : Confined slots slots' t u X gone) :
    Confined slots slots' s u X gone := by
  refine ⟨second.mounted, (first.loc.trans second.loc).mono (Set.union_self X).subset,
    second.size.trans first.size,
    ?_, ?_, ?_, ?_, first.next.trans second.next⟩
  · intro e he valid
    obtain old | new := second.named e he valid
    · exact first.named e old valid
    · exact .inr new
  · intro k e here valid out
    exact second.place k e (first.place k e here valid out) valid out
  · intro q hq stays
    exact second.links q (first.links q hq (Set.notMem_empty q.1)) stays
  · intro y id hy
    exact (second.fresh y id hy).imp_right first.next.trans

/-- Inodes that are on the disk only and have no name are not concerned by a call. -/
theorem carried (m : Mounted slots s) (confined : Confined slots slots' s t X gone)
    {handle? : Option Nat}
    (concerned : ∀ y ∈ X, Concerned slots s handle? y) : Carried slots slots' s t := by
  refine .of_local confined.mounted confined.loc confined.size ?_ confined.named
  intro y hy closed
  obtain rfl | other := concerned y hy
  · rw [m.sound.root.slot] at closed
    cases closed
  cases handle? with
  | some h =>
    have opened : slots y = some (.opened (s.file h).vnode) := other
    rw [closed] at opened
    cases opened
  | none =>
    obtain new | named := other
    · rw [closed] at new
      cases new
    · exact named

end Confined

namespace Mounted

theorem root_ne (ne : x ≠ 1) : 1 ∉ ({x} : Set Nat) := fun h => ne h.symm

/-- The directory is read through one inode for as long as that inode is not concerned. -/
theorem entries_of_local (m : Mounted slots s) (mounted : Mounted slots' t)
    (loc : Local slots slots' s t X)
    (out : 1 ∉ X) : t.entries = s.entries := by
  have same := loc.slot 1 out
  rw [mounted.sound.root.slot, m.sound.root.slot, Option.some.injEq, Slot.opened.injEq] at same
  exact loc.entries m.sound out same

/-- A step of inodes other than the root directory's changes no names. -/
theorem confined (m : Mounted slots s) (mounted : Mounted slots' t)
    (loc : Local slots slots' s t X) (out : 1 ∉ X)
    (size : t.freeMap.size = s.freeMap.size) (links : ∀ q ∈ s.links, q.1 ∉ gone → q ∈ t.links)
    (fresh : ∀ y id, slots' y = some (.opened id) → slots y = some (.opened id) ∨ s.nextInode ≤ id)
    (next : s.nextInode ≤ t.nextInode) : Confined slots slots' s t X gone := by
  have entries := m.entries_of_local mounted loc out
  refine ⟨mounted, loc, size, fun e he _ => .inl (entries ▸ he),
    fun k e here _ _ => ?_, links, fresh, next⟩
  rw [entries]
  exact here

theorem moves_confined (m : Mounted slots s) (p : Nat) (X : Set Nat) :
    Confined slots slots s (s.setPos 0 p) X ∅ := by
  have moved : Confined slots slots s (s.setPos 0 p) ∅ ∅ :=
    m.confined (m.setPos p) (m.sound.setPos p) (Set.notMem_empty 1) rfl (by
    rw [links_setPos]
    exact fun q hq _ => hq) (fun _ _ hy => .inl hy) le_rfl
  exact moved.mono (Set.empty_subset X)

theorem files_confined (m : Mounted slots s) {files : List (Nat × File)} {next : Nat}
    (mounted : Mounted slots { s with files := files, nextFile := next })
    (root : files.lookup 0 = s.files.lookup 0)
    (ne : x ≠ 1) (links : ∀ q ∈ s.links, q.1 ∉ gone → q ∈ files.map fun p => (p.1, p.2.vnode)) :
    Confined slots slots s { s with files := files, nextFile := next } {x} gone :=
  m.confined mounted ((m.sound.refl (x := x)).of_files files next s.inodeTable root)
    (root_ne ne) rfl links
    (fun _ _ hy => .inl hy) le_rfl

theorem resized_confined (m : Mounted slots s) (hx : slots x = some (.opened id))
    (ne : x ≠ 1) {n : Nat}
    (small : n < 2 ^ 32) (change : Resized s t id n) : Confined slots slots s t {x} ∅ := by
  obtain ⟨links, -, -, next, -⟩ := resized_fields change
  refine m.confined (m.resized hx ne small change).mounted
    (m.sound.resized hx ne small change) (root_ne ne)
    change.size ?_ (fun _ _ hy => .inl hy) (le_of_eq next.symm)
  rw [links]
  exact fun q hq _ => hq

theorem wrote_confined (m : Mounted slots s) (hx : slots x = some (.opened id))
    (ne : x ≠ 1) {off : Nat}
    {bytes : List UInt8} (fits : off + bytes.length ≤ (s.inodes id).total) :
    Confined slots slots s (s.wrote (s.inodes id).data.start off bytes) {x} ∅ :=
  m.confined (m.wrote hx ne fits).mounted (m.sound.wrote hx fits)
    (root_ne ne) rfl (fun _ hq _ => hq)
    (fun _ _ hy => .inl hy) le_rfl

theorem describe_confined (m : Mounted slots s) (hx : slots x = some (.opened id))
    (ne : x ≠ 1) {d : InodeDesc}
    (sector : d.sector = (s.inodes id).desc.sector)
    (shrink : d.shrinkLen = (s.inodes id).desc.shrinkLen) :
    Confined slots slots s { s with inodes := Function.update s.inodes id ⟨d, (s.inodes id).data⟩ }
      {x} ∅ :=
  m.confined (m.describe hx ne sector shrink).mounted (m.sound.describe hx ne sector shrink)
    (root_ne ne) rfl
    (fun _ hq _ => hq) (fun _ _ hy => .inl hy) le_rfl

theorem newFile_confined (m : Mounted slots s) (hx : slots x = some (.opened id)) (ne : x ≠ 1) :
    Confined slots slots s (s.opened id) {x} ∅ :=
  m.files_confined (m.newFile hx ne) (m.lookup_cons _) ne fun _ hq _ => List.mem_cons_of_mem _ hq

theorem strike_confined (m : Mounted slots s) (x p : Nat) :
    Confined slots slots s ((s.strike x 0).setPos 0 p) {1, x} ∅ := by
  have struck := m.sound.strikes x
  have entries := entries_struck m.sound x p
  refine ⟨(m.strike x p).mounted, (struck.trans (struck.sound.setPos p)).mono ?_, rfl, ?_, ?_, ?_,
    fun _ _ hy => .inl hy, le_rfl⟩
  · rintro y (rfl | none)
    · exact .inl rfl
    · exact none.elim
  · rw [entries]
    exact fun e he valid => .inl (mem_map_strike he valid).1
  · intro k e here _ out
    have other : ¬e.inum = x := fun same => out (.inr same)
    rw [entries, List.getElem?_map, here, Option.map_some, DirEntry.strike, if_neg other]
  · rw [links_setPos]
    exact fun q hq _ => hq

theorem reopen_confined (m : Mounted slots s) (ne : x ≠ 1) (hx : slots x = some .closed) :
    Confined slots (Function.update slots x (some (.opened s.nextInode))) s
      (s.reopened x) {x} ∅ := by
  obtain ⟨loc, mounted⟩ := m.reopen hx
  refine m.confined mounted loc (root_ne ne) rfl (fun q hq _ => List.mem_cons_of_mem _ hq) ?_
    (Nat.le_succ _)
  intro y id hy
  by_cases here : y = x
  · rw [here, Function.update_self] at hy
    cases hy
    exact .inr le_rfl
  · rw [Function.update_of_ne here] at hy
    exact .inl hy

theorem create_opened_confined (m : Mounted slots s) (found : find path s.entries = .ok x)
    (hx : slots x = some (.opened id)) : ∃ t :
    Sys, DiskFs.create path s = .ok s.nextFile (t.opened id) ∧
      t.nextFile = s.nextFile ∧ Confined slots slots s (t.opened id) {x} ∅ := by
  obtain ⟨ne, -⟩ := m.slot_of_find found
  obtain ⟨p, t, change, done, -⟩ := m.create_opened found hx
  obtain ⟨-, number, -⟩ := resized_fields change
  have moved := m.moves_confined p {x}
  have cut := moved.mounted.resized_confined hx ne (by norm_num) change
  exact ⟨t, done, number, moved.trans (cut.trans (cut.mounted.newFile_confined hx ne))⟩

theorem made_confined (m : Mounted slots s) (made : Made s t x path)
    (mounted : Mounted (Function.update slots x (some (.opened s.nextInode))) t)
    (loc : Local slots (Function.update slots x (some (.opened s.nextInode))) s t {1, x}) :
    Confined slots (Function.update slots x (some (.opened s.nextInode))) s t {1, x} ∅ := by
  obtain ⟨i, slot, entries⟩ := made.entries
  have opened : Function.update slots x (some (.opened s.nextInode)) x =
    some (.opened s.nextInode) :=
    Function.update_self ..
  refine ⟨mounted, loc, made.marks.size, ?_, ?_, ?_, ?_, ?_⟩
  · rw [entries]
    intro e he _
    obtain old | rfl := List.mem_or_eq_of_mem_set he
    · exact .inl old
    · exact .inr (m.sound.slot_none made.free)
  · intro k e here valid _
    have apart : i ≠ k := by
      rintro rfl
      obtain ⟨bound, invalid, -⟩ := List.findIdx?_eq_some_iff_getElem.mp slot
      obtain ⟨_, same⟩ := List.getElem?_eq_some_iff.mp here
      rw [same, valid] at invalid
      cases invalid
    rw [entries, List.getElem?_set_ne apart, here]
  · rw [made.links]
    exact fun q hq _ => List.mem_cons_of_mem _ hq
  · intro y id hy
    by_cases here : y = x
    · rw [here, Function.update_self] at hy
      cases hy
      exact .inr le_rfl
    · rw [Function.update_of_ne here] at hy
      exact .inl hy
  · exact le_trans (Nat.le_succ _) (mounted.sound.lt_nextInode opened)

/-- A file that does not come to be leaves the names and the descriptors as they were. -/
theorem failed_confined (m : Mounted slots s) (mounted : Mounted slots' t)
    (size : t.freeMap.size = s.freeMap.size)
    (links : t.links = s.links) (next : s.nextInode ≤ t.nextInode) (loc : Local slots slots' s t X)
    (new : ∀ y ∈ X, slots y = none ∧ y ≠ 1) : Confined slots slots' s t X ∅ := by
  refine m.confined mounted loc (fun mem => (new 1 mem).2 rfl) size
    (fun q hq _ => links ▸ hq) ?_ next
  intro y id hy
  left
  obtain ⟨q, hq, rfl⟩ := referenced_iff.mp (mounted.linked.referenced hy)
  rw [links] at hq
  -- What is in memory is referred to by a descriptor, and these are all old.
  obtain ⟨y', old, -⟩ := m.linked.live q hq
  have stays : y' ∉ X := by
    intro mem
    rw [(new y' mem).1] at old
    cases old
  have same : slots' y' = some (.opened q.2) := (loc.slot y' stays).trans old
  rw [mounted.sound.opened_inj hy same]
  exact old

theorem dropped_links (s : Sys) (h : Nat) : ∀ q ∈ s.links, q.1 ∉ ({h} : Set Nat) →
    q ∈ (s.dropped h).links := by
  rw [links_dropped]
  exact fun q hq stays => List.mem_filter.mpr ⟨hq, bne_iff_ne.mpr stays⟩

theorem allow_confined (m : Mounted slots s) {f : File}
    (hx : slots x = some (.opened f.vnode)) (ne : x ≠ 1) :
    Confined slots slots s (s.allow f) {x} ∅ := by
  obtain ⟨files, -, -, next, -, -, map⟩ := allow_fields s f
  have links : (s.allow f).links = s.links :=
    congrArg (List.map fun p : Nat × File => (p.1, p.2.vnode)) files
  exact m.confined (m.allow_carried hx ne).mounted (m.allow_local hx ne) (root_ne ne)
    (congrArg FreeMap.size map)
    (fun q hq _ => links ▸ hq) (fun _ _ hy => .inl hy) (le_of_eq next.symm)

/-- The last descriptor of an inode goes, and the inode is closed. -/
theorem closed_confined (m : Mounted slots s)
    (mounted : Mounted (Function.update slots x (leftover (s.inodes id))) t)
    (ne : x ≠ 1) (nonzero : h ≠ 0) (hx : slots x = some (.opened id))
    (closed : Closed (s.dropped h) t id) :
    Confined slots (Function.update slots x (leftover (s.inodes id))) s t {1, x} {h} := by
  have loc : Local slots slots s (s.dropped h) {x} :=
    (m.sound.refl (x := x)).of_files (s.dropped h).files s.nextFile s.inodeTable
      (lookup_dropped s nonzero)
  have root : ((s.dropped h).file 0).vnode = (s.file 0).vnode := by
    rw [Sys.file, lookup_dropped s nonzero, ← Sys.file]
  have entries := closed_entries loc.sound closed
  rw [loc.sound.sector_eq hx, loc.entries m.sound (root_ne ne) root] at entries
  obtain ⟨links, -, -, next, -⟩ := closed_fields closed
  refine ⟨mounted, (loc.trans (loc.sound.closes hx ne closed)).mono ?_, closed.size, ?_, ?_, ?_, ?_,
    le_of_eq next.symm⟩
  · rintro y (rfl | mem)
    · exact .inr rfl
    · exact mem
  · intro e he valid
    rw [entries] at he
    split at he
    · exact .inl (mem_map_strike he valid).1
    · exact .inl he
  · intro k e here _ out
    have other : ¬e.inum = x := fun same => out (.inr same)
    rw [entries]
    split
    · rw [List.getElem?_map, here, Option.map_some, DirEntry.strike, if_neg other]
    · exact here
  · rw [links]
    exact dropped_links s h
  · exact fun y id' hy => .inl (update_opened (leftover_ne_opened _) hy).2

theorem dropFile_confined (m : Mounted slots s) {f : File}
    (mine : (h, f) ∈ s.files) (nonzero : h ≠ 0)
    (hx : slots x = some (.opened f.vnode)) :
    (∃ e, DiskFs.dropFile h s = .halt e) ∨
      ∃ t slots', DiskFs.dropFile h s = .ok () t ∧ Confined slots slots' s t {1, x} {h} := by
  obtain ⟨x', hx', ne⟩ := m.slot_of_mem mine nonzero
  obtain rfl : x' = x := m.sound.opened_inj hx' hx
  have allowed := m.allow_confined hx ne
  have more : ({x'} : Set Nat) ⊆ {1, x'} := Set.subset_insert 1 {x'}
  obtain ⟨e, stops, -⟩ | ⟨-, done, carried⟩ | ⟨-, t, done, closed, carried⟩ :=
    m.dropFile_cases mine nonzero hx
  · exact .inl ⟨e, stops⟩
  · refine .inr ⟨_, slots, done, (allowed.trans ?_).mono more⟩
    exact allowed.mounted.files_confined carried.mounted
      (lookup_dropped _ nonzero) ne (dropped_links _ h)
  · have last := allowed.mounted.closed_confined carried.mounted ne nonzero hx closed
    exact .inr ⟨t, _, done, (allowed.mono more).trans last⟩

end Mounted

end Tacos.Fs
