/- GID: Tacos/Fs/Directory
   generality: I
   source: src/fs/disk/dir.rs, src/io.rs
   digest: The root directory as a bounded finite map, and which names an insertion can make
     findable. -/

import Tacos.Lib.Places
import Tacos.Fs.Handles

set_option autoImplicit false
set_option relaxedAutoImplicit false

namespace Tacos.Fs

open Tacos.Lib Tacos.Lib.Exec Tacos.Lib.Run Inode RootDir
open Tacos.Lib.Places (Table Room Absent lookup keep act spared)
open DiskFs (after after_ok after_err after_halt)
open Store (emptyDisk blank_emptyDisk)

variable {s t : Sys} {path : Path} {inum : Nat}

/-- Only a well-formed name is read back from the entry that was made for it. -/
theorem wellNamed_of_names (ascii : isAscii path = true) (short : path.length ≤ 27)
    (names : (entryOf path inum).names path = true) : WellNamed path := by
  rw [DirEntry.names, Bool.and_eq_true, beq_iff_eq, cstr_entryOf_of_short short] at names
  obtain ⟨valid, same⟩ := names
  have first : (entryOf path inum).name 0 = path.getD 0 0 := rfl
  rw [DirEntry.isValid, Bool.and_eq_true, bne_iff_ne, bne_iff_ne, first] at valid
  refine ⟨?_, short, ascii, ?_, valid.1⟩
  · rintro rfl
    exact valid.2 rfl
  · intro zero
    exact absurd rfl (bne_iff_ne.mp (List.takeWhile_eq_self_iff.mp same 0 zero))

/-- An insertion comes back, and when it succeeds the path is found with its number and every other
lookup ends as before. -/
def Faithful (s : Sys) (path : Path) (inum : Nat) : Prop :=
  (∀ h, insert path inum s ≠ .halt h) ∧ ∀ t, insert path inum s = .ok () t →
    (path2inum path t).result = some (.ok inum) ∧
      ∀ q, q ≠ path → (path2inum q t).result = (path2inum q s).result

/-- If the path is ASCII and there is an unused entry, then the path is short enough; and if the
directory may be written, then the path is well formed and no name before that entry is
unreadable. -/
def Findable (s : Sys) (path : Path) : Prop :=
  isAscii path = true → ∀ i, s.entries.findIdx? (fun e => !e.isValid) = some i → path.length ≤ 27 ∧
    ((s.inodeOf 0).desc.denyWrite = 0 → WellNamed path ∧ Readable (s.entries.take i))

theorem path2inum_result (ready : FileReady s 0) (path : Path) :
    (path2inum path s).result = some (find path s.entries) := by
  obtain ⟨p, lookup⟩ := path2inum_eq path ready
  rw [lookup]
  cases find path s.entries <;> rfl

/-- An insertion that succeeds puts the entry into the first unused place. -/
theorem inserted_entries (ready : FileReady s 0) (small : inum < 2 ^ 32)
    (start i p : Nat) (e : DirEntry)
    (there : start = (s.inodeOf 0).data.start) (number : e.inum = inum) :
    ((s.wrote start (32 * i) e.toBytes).setPos 0 p).entries = s.entries.set i e := by
  subst there
  rw [entries_setPos (ready.wrote _ _ _), entries_wrote (number ▸ small)]

theorem split_at {es : List DirEntry} {i : Nat}
    (slot : es.findIdx? (fun e => !e.isValid) = some i) :
    ∃ e rest, e.isValid = false ∧ es = es.take i ++ e :: rest ∧
      ∀ x, es.set i x = es.take i ++ x :: rest := by
  obtain ⟨bound, unused, -⟩ := List.findIdx?_eq_some_iff_getElem.mp slot
  refine ⟨es[i], es.drop (i + 1), by simpa using unused, ?_, ?_⟩
  · rw [← List.drop_eq_getElem_cons bound, List.take_append_drop]
  · intro x
    exact List.set_eq_take_append_cons_drop.trans (if_pos bound)

theorem faithful_of_err {e : OsError} (failed : insert path inum s = .err e t) :
    Faithful s path inum := by
  constructor
  · intro h stops
    cases failed.symm.trans stops
  · intro u done
    cases failed.symm.trans done

/-- An insertion of an absent path is faithful exactly if the path is findable. -/
theorem inserted_found_iff (ready : FileReady s 0) (len : (s.inodeOf 0).data.len < 2 ^ 32)
    (small : inum < 2 ^ 32)
    (fresh : ∀ e ∈ s.entries, e.isValid = true → e.cstr ≠ path) :
    Faithful s path inum ↔ Findable s path := by
  have unnamed : ∀ e ∈ s.entries, ¬e.names path = true := by
    intro e he names
    rw [DirEntry.names, Bool.and_eq_true, beq_iff_eq] at names
    exact fresh e he names.1 names.2
  constructor
  · rintro ⟨returns, finds⟩ ascii i slot
    have short : path.length ≤ 27 := by
      by_contra long
      exact returns _ (insert_halt ready len ascii slot (Nat.lt_of_not_le long) inum)
    refine ⟨short, fun allowed => ?_⟩
    obtain ⟨p, done⟩ : ∃ p, insert path inum s = .ok () _ :=
      insert_ok ready len allowed ascii short slot
    have found := (finds _ done).1
    rw [path2inum_result ((ready.wrote _ _ _).setPos p),
      inserted_entries ready small _ i p _ rfl rfl,
      Option.some.injEq] at found
    obtain ⟨e, rest, -, -, put⟩ := split_at slot
    constructor
    · obtain ⟨e', he', names, -⟩ := find_ok found
      obtain old | rfl := List.mem_or_eq_of_mem_set he'
      · exact absurd names (unnamed e' old)
      · exact wellNamed_of_names ascii short names
    · by_contra unreadable
      rw [put, find_unreadable unreadable fun e he => unnamed e (List.mem_of_mem_take he)] at found
      cases found
  · intro findable
    obtain ⟨-, -, e, p, failed⟩ | ⟨-, failed⟩ | ⟨ascii, long, ⟨i, slot⟩, -⟩ |
      ⟨ascii, short, allowed, i, slot, p, done⟩ := insert_cases path inum ready len
    · exact faithful_of_err failed
    · exact faithful_of_err failed
    · exact absurd (findable ascii i slot).1 (Nat.not_le_of_lt long)
    · constructor
      · intro h stops
        cases done.symm.trans stops
      intro t ok
      cases done.symm.trans ok
      have after := (ready.wrote (s.inodeOf 0).data.start (32 * i)
        (entryOf path inum).toBytes).setPos p
      obtain ⟨named, readable⟩ := (findable ascii i slot).2 allowed
      obtain ⟨e, rest, unused, whole, put⟩ := split_at slot
      have valid := isValid_entryOf named inum
      have utf8 := isUtf8_entryOf ascii short inum
      have cstr := cstr_entryOf named inum
      have none : (s.entries.take i).find? (·.names path) = none :=
        List.find?_eq_none.mpr fun e he => unnamed e (List.mem_of_mem_take he)
      have found : ∀ q, find q (s.entries.set i (entryOf path inum)) =
          if q = path then .ok inum else find q s.entries := by
        intro q
        rw [put, find_append readable _ _, find, if_pos valid, if_pos utf8, cstr]
        by_cases here : q = path
        · rw [if_pos here, if_pos here, here, none]
          rfl
        · rw [if_neg here, if_neg here]
          conv_rhs => rw [whole, find_append readable _ _, find, unused]
          rfl
      refine ⟨?_, fun q other => ?_⟩
      · rw [path2inum_result after, inserted_entries ready small _ i p _ rfl rfl, found, if_pos rfl]
      · rw [path2inum_result after, path2inum_result ready,
          inserted_entries ready small _ i p _ rfl rfl, found,
          if_neg other]

/-- The root directory of a file system at rest can be read and written. -/
theorem Mounted.directory {slots : Slots} (m : Mounted slots s) : RootReady s := by
  refine ⟨⟨m.sound.root.known, ?_, ?_⟩, m.sound.root.len, m.sound.root.allowed⟩
  · simp [m.idle]
  · simp [m.idle]

theorem empty_mounted : ∃ s, DiskFs.mount 64 emptyDisk = .ok () s ∧ RootReady s ∧
    ∀ e ∈ s.entries, e.isValid = false := by
  have computed : DiskFs.ends [] (fun _ => true) = true := by decide +kernel
  obtain ⟨s, t, mounted, -, -⟩ := DiskFs.of_ends computed
  obtain ⟨a, b, n, -, frame⟩ := mount_blank blank_emptyDisk mounted
  refine ⟨s, mounted, (mount_mounted blank_emptyDisk mounted).directory, ?_⟩
  rw [frame]
  exact entries_formatted

theorem inserted_a_found : ∃ s, DiskFs.mount 64 emptyDisk = .ok () s ∧ Faithful s [97] 5 := by
  obtain ⟨s, mounted, root, unused⟩ := empty_mounted
  have invalid : ∀ e ∈ s.entries, ¬e.isValid = true := by
    intro e he valid
    rw [unused e he] at valid
    cases valid
  refine ⟨s, mounted, (inserted_found_iff root.ready root.small (by decide) ?_).mpr ?_⟩
  · exact fun e he valid => absurd valid (invalid e he)
  · intro ascii i slot
    refine ⟨by decide, fun allowed => ⟨wellNamed_a, ?_⟩⟩
    exact fun e he valid => absurd valid (invalid e (List.mem_of_mem_take he))

/-- A name of 28 bytes stops the machine, and a name with the mark of an invalid entry is lost. -/
theorem long_and_marked_names : ∃ s, DiskFs.mount 64 emptyDisk = .ok () s ∧ RootReady s ∧
    (∀ e ∈ s.entries, e.isValid = false) ∧ insert (List.replicate 28 97) 5 s = .halt .bounds ∧
      ∃ t, insert [35, 97] 5 s = .ok () t ∧ (path2inum [35, 97] t).result =
        some (.error .noSuchFile) := by
  obtain ⟨s, mounted, root, unused⟩ := empty_mounted
  have computed : (DiskFs.mount 64 emptyDisk).returns (fun _ s =>
      (s.entries.findIdx? fun e => !e.isValid).isSome && (insert [35, 97] 5 s).returns fun _ t =>
        decide ((path2inum [35, 97] t).result = some (.error .noSuchFile))) =
          true := by decide +kernel
  rw [mounted, Outcome.returns_ok, Bool.and_eq_true, Option.isSome_iff_exists,
    Outcome.returns_iff] at computed
  obtain ⟨⟨i, slot⟩, _, t, done, missing⟩ := computed
  exact ⟨s, mounted, root, unused, insert_halt root.ready root.small (by decide) slot
    (by decide) 5, t, done,
    of_decide_eq_true missing⟩

def DirEntry.pair (e : DirEntry) : Option (Path × Nat) :=
  if e.isValid then some (e.cstr, e.inum) else none

/-- The directory as places for a name with its number. -/
def Sys.places (s : Sys) : Table Path Nat := s.entries.map DirEntry.pair

def Named (ps : Table Path Nat) : Prop := ∀ p, some p ∈ ps → WellNamed p.1

theorem DirEntry.pair_of_valid {e : DirEntry} (valid : e.isValid = true) :
    e.pair = some (e.cstr, e.inum) := if_pos valid

theorem DirEntry.pair_of_invalid {e : DirEntry} (invalid : e.isValid = false) : e.pair = none :=
  if_neg (by rw [invalid]; decide)

theorem DirEntry.pair_isNone (e : DirEntry) : e.pair.isNone = !e.isValid := by
  cases valid : e.isValid with
  | true => rw [pair_of_valid valid]; rfl
  | false => rw [pair_of_invalid valid]; rfl

theorem mem_places {p : Path × Nat} : some p ∈ s.places ↔
    ∃ e ∈ s.entries, e.isValid = true ∧ e.cstr = p.1 ∧ e.inum = p.2 := by
  rw [Sys.places, List.mem_map]
  constructor
  · rintro ⟨e, he, pair⟩
    cases valid : e.isValid with
    | true =>
      rw [DirEntry.pair_of_valid valid, Option.some.injEq] at pair
      exact ⟨e, he, valid, pair ▸ rfl, pair ▸ rfl⟩
    | false =>
      rw [DirEntry.pair_of_invalid valid] at pair
      cases pair
  · rintro ⟨e, he, valid, name, number⟩
    exact ⟨e, he, by rw [DirEntry.pair_of_valid valid, name, number]⟩

theorem room_places : Room s.places ↔ ∃ i, s.entries.findIdx? (fun e => !e.isValid) = some i := by
  rw [← Option.isSome_iff_exists, List.findIdx?_isSome, List.any_eq_true, Room,
    Sys.places, List.mem_map]
  refine exists_congr fun e => and_congr_right fun _ => ?_
  rw [← DirEntry.pair_isNone, Option.isNone_iff_eq_none]

theorem Named.readable (named : Named s.places) : Readable s.entries := by
  intro e he valid
  exact isUtf8_of_ascii (named (e.cstr, e.inum) (mem_places.mpr ⟨e, he, valid, rfl, rfl⟩)).ascii

theorem find_places {es : List DirEntry} (readable : Readable es) (path : Path) :
    find path es = match lookup path (es.map DirEntry.pair) with
      | some inum => .ok inum
      | none => .error .noSuchFile := by
  induction es with
  | nil => rfl
  | cons e es ih =>
    have rest := ih fun e' he' => readable e' (List.mem_cons_of_mem e he')
    rw [find, List.map_cons]
    cases valid : e.isValid with
    | true =>
      rw [DirEntry.pair_of_valid valid, lookup, if_pos rfl,
        if_pos (readable e List.mem_cons_self valid)]
      by_cases here : path = e.cstr
      · rw [if_pos here, if_pos here]
      · rw [if_neg here, if_neg here, rest]
    | false =>
      rw [DirEntry.pair_of_invalid valid, lookup, if_neg (by decide), rest]

theorem DirEntry.pair_strike (inum : Nat) (e : DirEntry) :
    (e.strike inum).pair = e.pair.filter fun p => p.2 != inum := by
  cases valid : e.isValid with
  | true =>
    rw [pair_of_valid valid, DirEntry.strike]
    by_cases here : e.inum = inum
    · rw [if_pos here, pair_of_invalid (not_isValid_invalidate e)]
      exact (if_neg (by simp [here])).symm
    · rw [if_neg here, pair_of_valid valid]
      exact (if_pos (by simpa using here)).symm
  | false =>
    rw [pair_of_invalid valid, DirEntry.strike]
    by_cases here : e.inum = inum
    · rw [if_pos here, pair_of_invalid (not_isValid_invalidate e)]
      rfl
    · rw [if_neg here, pair_of_invalid valid]
      rfl

/-- A change of the directory, with the name and the number of the source's call. -/
abbrev DirOp := Places.Op Path Nat

def change (s : Sys) : DirOp → Option Sys
  | .insert path inum => after (RootDir.insert path inum) s
  | .remove inum => after (RootDir.remove inum) s

/-- Only well-formed names that are absent are inserted, with numbers that are absent too. -/
def Insertable (s : Sys) : DirOp → Prop
  | .insert path inum => WellNamed path ∧ inum ≠ 0 ∧ inum < 2 ^ 32 ∧
      ∀ e ∈ s.entries, e.isValid = true → e.cstr ≠ path ∧ e.inum ≠ inum
  | .remove _ => True

theorem RootReady.setPos (root : RootReady s) (p : Nat) : RootReady (s.setPos 0 p) := by
  have same := root.ready.inodeOf_setPos p
  exact ⟨root.ready.setPos p, same ▸ root.small, same ▸ root.allowed⟩

theorem places_setPos (root : RootReady s) (p : Nat) : (s.setPos 0 p).places = s.places := by
  rw [Sys.places, entries_setPos root.ready, Sys.places]

/-- An insertion fails exactly if there is no room, and puts the pair into a place otherwise. -/
theorem insert_places (root : RootReady s) (named : WellNamed path) (small : inum < 2 ^ 32) :
    ∃ t, ((¬Room s.places ∧ insert path inum s = .err .rootDirFull t) ∨
        (Room s.places ∧ insert path inum s = .ok () t)) ∧
      RootReady t ∧ t.inodeOf 0 = s.inodeOf 0 ∧ t.places = Places.insert path inum s.places := by
  cases slot : s.entries.findIdx? (fun e => !e.isValid) with
  | none =>
    have full : ¬Room s.places := by
      rw [room_places, slot]
      rintro ⟨i, none⟩
      cases none
    obtain ⟨p, failed⟩ := insert_full root.ready root.small named.ascii slot inum
    refine ⟨s.setPos 0 p, .inl ⟨full, failed⟩, root.setPos p, root.ready.inodeOf_setPos p, ?_⟩
    rw [places_setPos root, Places.insert_full _ _ full]
  | some i =>
    obtain ⟨p, done⟩ : ∃ p, insert path inum s = .ok () _ :=
      insert_ok root.ready root.small root.allowed named.ascii named.short slot
    have wrote : RootReady (s.wrote (s.inodeOf 0).data.start (32 * i)
      (entryOf path inum).toBytes) :=
      ⟨root.ready.wrote _ _ _, root.small, root.allowed⟩
    refine ⟨_, .inr ⟨room_places.mpr ⟨i, slot⟩, done⟩, wrote.setPos p,
      wrote.ready.inodeOf_setPos p, ?_⟩
    have place : s.places.findIdx? Option.isNone = some i := by
      rw [Sys.places, List.findIdx?_map, ← slot]
      congr 1
      funext e
      exact e.pair_isNone
    have pair : (entryOf path inum).pair = some (path, inum) := by
      rw [DirEntry.pair_of_valid (isValid_entryOf named inum), cstr_entryOf named]
      rfl
    rw [Places.insert_eq_set _ _ place, Sys.places,
      inserted_entries root.ready small _ i p _ rfl rfl, List.map_set, pair]
    rfl

theorem remove_places (root : RootReady s) (inum : Nat) :
    ∃ t, RootDir.remove inum s = .ok () t ∧ RootReady t ∧
    t.inodeOf 0 = s.inodeOf 0 ∧ t.entries = s.entries.map (DirEntry.strike inum) ∧
      t.places = keep (fun w => w != inum) s.places := by
  obtain ⟨p, done⟩ := remove_ok inum root.ready root.small root.allowed
  have struck : RootReady (s.strike inum 0) :=
    ⟨⟨root.ready.known, root.ready.inode, root.ready.virtio⟩, root.small, root.allowed⟩
  have entries : ((s.strike inum 0).setPos 0 p).entries = s.entries.map (DirEntry.strike inum) := by
    rw [entries_setPos struck.ready, entries_strike]
  refine ⟨_, done, struck.setPos p, struck.ready.inodeOf_setPos p, entries, ?_⟩
  rw [Sys.places, entries, keep, Sys.places, List.map_map, List.map_map]
  apply List.map_congr_left
  intro e _
  exact e.pair_strike inum

theorem change_step (root : RootReady s) (named : Named s.places) {op : DirOp}
    (fresh : Insertable s op) :
    ∃ t, change s op = some t ∧ RootReady t ∧ t.inodeOf 0 = s.inodeOf 0 ∧
      t.places = act s.places op ∧
      Named t.places ∧ ∀ k v, op = .insert k v → Absent k s.places := by
  cases op with
  | insert path inum =>
    obtain ⟨wellNamed, -, small, other⟩ := fresh
    obtain ⟨t, outcome, ready, inode, places⟩ := insert_places root wellNamed small
    have stepped : change s (.insert path inum) = some t := by
      obtain ⟨-, failed⟩ | ⟨-, done⟩ := outcome
      · exact after_err failed
      · exact after_ok done
    refine ⟨t, stepped, ready, inode, places, ?_, ?_⟩
    · intro p hp
      rw [places] at hp
      obtain old | rfl := Places.mem_insert hp
      · exact named p old
      · exact wellNamed
    · rintro k v same w hw
      obtain ⟨rfl, rfl⟩ := Places.Op.insert.inj same
      obtain ⟨e, he, valid, name, -⟩ := mem_places.mp hw
      exact (other e he valid).1 name
  | remove inum =>
    obtain ⟨t, done, ready, inode, -, places⟩ := remove_places root inum
    refine ⟨t, after_ok done, ready, inode, places, ?_, fun k v same => by cases same⟩
    intro p hp
    rw [places] at hp
    exact named p (Places.mem_keep.mp hp).1

/-- Calls one after another act on the places as the changes of a map do. -/
theorem change_run (root : RootReady s) (named : Named s.places) {ops : List DirOp}
    (fresh : Guarded change Insertable s ops) :
    ∃ t, run change s ops = some t ∧ RootReady t ∧ t.inodeOf 0 = s.inodeOf 0 ∧
      t.places = ops.foldl act s.places ∧
      Named t.places ∧ Places.Fresh s.places ops := by
  induction ops generalizing s with
  | nil => exact ⟨s, rfl, root, rfl, rfl, named, trivial⟩
  | cons op ops ih =>
    obtain ⟨m, stepped, rootM, inodeM, placesM, namedM, absent⟩ := change_step root named fresh.1
    obtain ⟨t, ran, rootT, inode, places, namedT, rest⟩ := ih rootM namedM (fresh.2 m stepped)
    rw [placesM] at places rest
    exact ⟨t, run_cons.mpr ⟨m, stepped, ran⟩, rootT, inode.trans inodeM,
      places, namedT, absent, rest⟩

/-- The last call that concerns the path is an insertion that succeeds, and no later one takes its
number out. -/
def LastInserted (s : Sys) (ops : List DirOp) (path : Path) (inum : Nat) : Prop :=
  ∃ as bs u v, ops = as ++ .insert path inum :: bs ∧ run change s as = some u ∧
    insert path inum u = .ok () v ∧
    .remove inum ∉ bs ∧ ∀ j, .insert path j ∉ bs

/-- The first entry of the path, of those in the directory from the start whose number no call
takes out. -/
def StillThere (s : Sys) (ops : List DirOp) (path : Path) (inum : Nat) : Prop :=
  ∃ e, s.entries.find? (fun e => e.names path && spared ops e.inum) = some e ∧ e.inum = inum

/-- What is found in the places that are kept is in the first entry of the path that is kept. -/
theorem lookup_keep_pairs (f : Nat → Bool) (path : Path) (es : List DirEntry) :
    lookup path (keep f (es.map DirEntry.pair)) = (es.find?
      fun e => e.names path && f e.inum).map DirEntry.inum := by
  induction es with
  | nil => rfl
  | cons e es ih =>
    rw [List.find?_cons]
    change lookup path (e.pair.filter (fun p => f p.2) :: keep f (es.map DirEntry.pair)) = _
    cases valid : e.isValid with
    | false =>
      rw [DirEntry.pair_of_invalid valid, DirEntry.names, valid, Bool.false_and, Bool.false_and]
      exact ih
    | true =>
      rw [DirEntry.pair_of_valid valid, DirEntry.names, valid, Bool.true_and]
      cases kept : f e.inum with
      | false =>
        rw [Bool.and_false, Option.filter_some, if_neg (by rw [kept]; decide)]
        exact ih
      | true =>
        rw [Bool.and_true, Option.filter_some, if_pos kept, lookup]
        by_cases here : path = e.cstr
        · rw [if_pos here, beq_iff_eq.mpr here.symm]
          rfl
        · rw [if_neg here, beq_eq_false_iff_ne.mpr (Ne.symm here)]
          exact ih

/-- After a history of calls a path is found with the number it was last inserted with, or with
the one it had from the start. -/
theorem lookup_run (root : RootReady s) (named : Named s.places) {ops : List DirOp}
    (fresh : Guarded change Insertable s ops) (ran : run change s ops = some t)
    (path : Path) (inum : Nat) :
    lookup path t.places = some inum ↔ LastInserted s ops path inum ∨
      StillThere s ops path inum := by
  obtain ⟨t', ran', -, -, places, -, history⟩ := change_run root named fresh
  obtain rfl := Option.some.inj (ran.symm.trans ran')
  rw [places, Places.lookup_history history]
  apply or_congr
  · constructor
    · rintro ⟨as, bs, rfl, room, kept⟩
      obtain ⟨u, ranU, rootU, -, placesU, -, -⟩ := change_run root named fresh.append.1
      have ok := (fresh.append.2 u ranU).1
      obtain ⟨v, ⟨full, -⟩ | ⟨-, done⟩, -⟩ := insert_places rootU ok.1 ok.2.2.1
      · exact absurd (placesU ▸ room) full
      · exact ⟨as, bs, u, v, rfl, ranU, done, kept, Places.not_inserted_again history room kept⟩
    · rintro ⟨as, bs, u, v, rfl, ranU, done, kept, -⟩
      obtain ⟨u', ranU', rootU, -, placesU, -, -⟩ := change_run root named fresh.append.1
      obtain rfl := Option.some.inj (ranU.symm.trans ranU')
      have ok := (fresh.append.2 u ranU).1
      obtain ⟨w, ⟨-, failed⟩ | ⟨room, -⟩, -⟩ := insert_places rootU ok.1 ok.2.2.1
      · cases failed.symm.trans done
      · exact ⟨as, bs, rfl, placesU ▸ room, kept⟩
  · rw [Sys.places, lookup_keep_pairs, Option.map_eq_some_iff]
    rfl

/-- A directory of well-formed names is a finite map with as many places as its file has entries. -/
theorem directory_is_finite_map (root : RootReady s)
    (named : ∀ e ∈ s.entries, e.isValid = true → WellNamed e.cstr)
    {ops : List DirOp} (fresh : Guarded change Insertable s ops) :
    ∃ t, run change s ops = some t ∧ (t.inodeOf 0).data.len = (s.inodeOf 0).data.len ∧
      (∀ path inum, (path2inum path t).result = some (.ok inum) ↔
        LastInserted s ops path inum ∨ StillThere s ops path inum) ∧
      (∀ path, (∀ inum, ¬LastInserted s ops path inum ∧ ¬StillThere s ops path inum) →
        (path2inum path t).result = some (.error .noSuchFile)) ∧
      (∀ path inum, Insertable t (.insert path inum) →
        ((insert path inum t).result = some (.error .rootDirFull) ↔
          ∀ e ∈ t.entries, e.isValid = true) ∧
          ((insert path inum t).result = some (.ok ()) ↔ ∃ e ∈ t.entries, e.isValid = false)) ∧
      ∀ inum, ∃ u, RootDir.remove inum t = .ok () u ∧ ∀ (k : Nat) (e : DirEntry),
        u.entries[k]? = some e ∧ e.isValid = true ↔
        t.entries[k]? = some e ∧ e.isValid = true ∧ e.inum ≠ inum := by
  have namedS : Named s.places := by
    intro p hp
    obtain ⟨e, he, valid, name, -⟩ := mem_places.mp hp
    exact name ▸ named e he valid
  obtain ⟨t, ran, rootT, inode, -, namedT, -⟩ := change_run root namedS fresh
  have found : ∀ path, (path2inum path t).result = some (match lookup path t.places with
      | some inum => .ok inum
      | none => .error .noSuchFile) := by
    intro path
    rw [path2inum_result rootT.ready, find_places namedT.readable]
    rfl
  refine ⟨t, ran, by rw [inode], ?_, ?_, ?_, ?_⟩
  · intro path inum
    rw [← lookup_run root namedS fresh ran, found]
    cases lookup path t.places with
    | none => simp
    | some n => simp
  · intro path nothing
    have none : lookup path t.places = none := by
      cases there : lookup path t.places with
      | none => rfl
      | some inum =>
        obtain last | still := (lookup_run root namedS fresh ran path inum).mp there
        · exact absurd last (nothing inum).1
        · exact absurd still (nothing inum).2
    rw [found, none]
  · intro path inum ok
    have room : Room t.places ↔ ∃ e ∈ t.entries, e.isValid = false := by
      rw [room_places, ← Option.isSome_iff_exists, List.findIdx?_isSome, List.any_eq_true]
      simp
    have full : ¬Room t.places ↔ ∀ e ∈ t.entries, e.isValid = true := by
      rw [room]
      simp
    rw [← full, ← room]
    obtain ⟨u, ⟨here, failed⟩ | ⟨here, done⟩, -⟩ := insert_places rootT ok.1 ok.2.2.1
    · simp [failed, here, Outcome.result]
    · simp [done, here, Outcome.result]
  · intro inum
    obtain ⟨u, done, -, -, entries, -⟩ := remove_places rootT inum
    refine ⟨u, done, fun k e => ?_⟩
    rw [entries, List.getElem?_map, Option.map_eq_some_iff]
    constructor
    · rintro ⟨⟨old, there, rfl⟩, valid⟩
      rw [DirEntry.strike] at valid ⊢
      split at valid
      · rw [not_isValid_invalidate] at valid
        cases valid
      · rename_i other
        rw [if_neg other]
        exact ⟨there, valid, other⟩
    · rintro ⟨there, valid, other⟩
      exact ⟨⟨e, there, if_neg other⟩, valid⟩

instance (path : Path) : Decidable (WellNamed path) := decidable_of_iff
  (path ≠ [] ∧ path.length ≤ 27 ∧ isAscii path = true ∧ 0 ∉ path ∧
    path.getD 0 0 ≠ DirEntry.tombstone)
  ⟨fun h => ⟨h.1, h.2.1, h.2.2.1, h.2.2.2.1, h.2.2.2.2⟩,
    fun h => ⟨h.some, h.short, h.ascii, h.noNul, h.noMark⟩⟩

instance (s : Sys) : ∀ op, Decidable (Insertable s op)
  | .insert path inum => inferInstanceAs (Decidable (WellNamed path ∧ inum ≠ 0 ∧ inum < 2 ^ 32 ∧
      ∀ e ∈ s.entries, e.isValid = true → e.cstr ≠ path ∧ e.inum ≠ inum))
  | .remove _ => .isTrue trivial

/-- A name is inserted and removed, and another one takes its place. -/
def entered : List DirOp := [.insert [97] 5, .remove 5, .insert [98] 6]

theorem entered_and_removed : ∃ s t, DiskFs.mount 64 emptyDisk = .ok () s ∧
    run change s entered = some t ∧
    (path2inum [97] t).result = some (.error .noSuchFile) := by
  obtain ⟨s, mounted, root, unused⟩ := empty_mounted
  have computed : (DiskFs.mount 64 emptyDisk).returns
    (fun _ s => decide (Guarded change Insertable s entered)) = true := by
    decide +kernel
  rw [mounted, Outcome.returns_ok] at computed
  have invalid : ∀ e ∈ s.entries, e.isValid = true → False := by
    intro e he valid
    rw [unused e he] at valid
    cases valid
  obtain ⟨t, ran, -, -, missing, -⟩ := directory_is_finite_map root
    (fun e he valid => (invalid e he valid).elim)
    (of_decide_eq_true computed)
  refine ⟨s, t, mounted, ran, missing [97] fun inum => ⟨?_, ?_⟩⟩
  · rintro ⟨as, bs, u, v, whole, -, -, kept, -⟩
    rcases as with - | ⟨_, - | ⟨_, - | ⟨_, as⟩⟩⟩
    · obtain ⟨here, rfl⟩ := List.cons.inj whole
      obtain ⟨-, rfl⟩ := Places.Op.insert.inj here
      exact kept List.mem_cons_self
    · cases (List.cons.inj (List.cons.inj whole).2).1
    · cases (Places.Op.insert.inj (List.cons.inj (List.cons.inj (List.cons.inj whole).2).2).1).1
    · have length := congrArg List.length whole
      simp [entered] at length
  · rintro ⟨e, found, -⟩
    have names := List.find?_some found
    rw [DirEntry.names, unused e (List.mem_of_find?_eq_some found)] at names
    cases names

end Tacos.Fs
