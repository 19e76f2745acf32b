/- GID: Tacos/Fs/Shown
   generality: I
   source: src/fs/disk.rs, src/fs.rs, src/fs/disk/dir.rs
   digest: What a file system shows of its files, and which steps leave it as it is. -/

import Tacos.Fs.Removal
import Tacos.Lib.FileStore

set_option autoImplicit false
set_option relaxedAutoImplicit false

namespace Tacos.Fs

open Tacos.Lib Tacos.Lib.Exec Tacos.Lib.Ownership FreeMap Inode RootDir

variable {es : List DirEntry} {e e' : DirEntry} {path : Path} {x i : Nat}

theorem toOption_eq_some {r : Except OsError Nat} : r.toOption = some x ↔ r = .ok x := by
  cases r with
  | ok y => simp [Except.toOption]
  | error e => simp [Except.toOption]

/-- Entries in use have neither a name nor a number in common. -/
def Unique (es : List DirEntry) : Prop :=
  ∀ (i j : Nat) (e e' : DirEntry), es[i]? = some e → es[j]? = some e' →
    e.isValid = true → e'.isValid = true →
    e.cstr = e'.cstr ∨ e.inum = e'.inum → i = j

theorem names_iff : e.names path = true ↔ e.isValid = true ∧ e.cstr = path := by
  rw [DirEntry.names, Bool.and_eq_true, beq_iff_eq]

theorem strike_of_valid (valid : (e.strike x).isValid = true) : e.strike x = e ∧ e.inum ≠ x := by
  rw [DirEntry.strike] at valid ⊢
  split at valid
  · rw [not_isValid_invalidate] at valid
    cases valid
  · rename_i ne
    exact ⟨if_neg ne, ne⟩

namespace Unique

theorem same (unique : Unique es) (he : e ∈ es) (he' : e' ∈ es) (valid : e.isValid = true)
    (valid' : e'.isValid = true) (shared : e.cstr = e'.cstr ∨ e.inum = e'.inum) : e = e' := by
  obtain ⟨i, here⟩ := List.mem_iff_getElem?.mp he
  obtain ⟨j, there⟩ := List.mem_iff_getElem?.mp he'
  obtain rfl := unique i j e e' here there valid valid' shared
  exact Option.some.inj (here.symm.trans there)

theorem find_iff (unique : Unique es) (readable : Readable es) :
    find path es = .ok x ↔ ∃ e ∈ es, e.names path = true ∧ e.inum = x := by
  constructor
  · exact find_ok
  · rintro ⟨e, he, names, rfl⟩
    rw [find_eq readable]
    cases found : es.find? (·.names path) with
    | none => exact absurd names (List.find?_eq_none.mp found e he)
    | some e' =>
      have here := names_iff.mp names
      have there : e'.isValid = true ∧ e'.cstr = path :=
        names_iff.mp (List.find?_some (p := fun e : DirEntry => e.names path) found)
      have one := unique.same he (List.mem_of_find?_eq_some found) here.1 there.1
        (.inl (here.2.trans there.2.symm))
      rw [one]

theorem struck (unique : Unique es) (x : Nat) : Unique (es.map (DirEntry.strike x)) := by
  intro i j e e' here there valid valid' shared
  rw [List.getElem?_map] at here there
  obtain ⟨old, at_i, rfl⟩ := Option.map_eq_some_iff.mp here
  obtain ⟨old', at_j, rfl⟩ := Option.map_eq_some_iff.mp there
  have kept := (strike_of_valid valid).1
  have kept' := (strike_of_valid valid').1
  rw [kept] at valid shared
  rw [kept'] at valid' shared
  exact unique i j old old' at_i at_j valid valid' shared

theorem added (unique : Unique es) {new : DirEntry}
    (fresh : ∀ e ∈ es, e.isValid = true → e.cstr ≠ new.cstr ∧ e.inum ≠ new.inum) :
    Unique (es.set i new) := by
  have old : ∀ {j : Nat} {e : DirEntry}, i ≠ j → (es.set i new)[j]? = some e → es[j]? = some e := by
    intro j e apart here
    rwa [List.getElem?_set_ne apart] at here
  have put : ∀ {j : Nat} {e : DirEntry}, i = j → (es.set i new)[j]? = some e → e = new := by
    rintro j e rfl here
    obtain mem | rfl := List.mem_or_eq_of_mem_set (List.mem_of_getElem? here)
    · rw [List.getElem?_set_self (List.length_set ▸ (List.getElem?_eq_some_iff.mp here).1)] at here
      exact (Option.some.inj here).symm
    · rfl
  intro j k e e' here there valid valid' shared
  by_cases first : i = j
  · by_cases second : i = k
    · exact first.symm.trans second
    · obtain rfl := put first here
      obtain ⟨name, number⟩ := fresh e' (List.mem_of_getElem? (old second there)) valid'
      obtain same | same := shared
      · exact absurd same.symm name
      · exact absurd same.symm number
  · by_cases second : i = k
    · obtain rfl := put second there
      obtain ⟨name, number⟩ := fresh e (List.mem_of_getElem? (old first here)) valid
      obtain same | same := shared
      · exact absurd same name
      · exact absurd same number
    · exact unique j k e e' (old first here) (old second there) valid valid' shared

/-- When the entries of a number are struck out, the name that led to it is gone and no other one.
-/
theorem find_struck (unique : Unique es) (readable : Readable es)
    (found : find path es = .ok x) (q : Path) :
    (find q (es.map (DirEntry.strike x))).toOption = if q =
      path then none else (find q es).toOption := by
  have readable' : Readable (es.map (DirEntry.strike x)) :=
    fun e he valid => readable e (mem_map_strike he valid).1 valid
  apply Option.ext
  intro y
  rw [toOption_eq_some, (unique.struck x).find_iff readable']
  constructor
  · rintro ⟨e, he, names, rfl⟩
    obtain ⟨old, other⟩ := mem_map_strike he (names_iff.mp names).1
    have still := (unique.find_iff readable).mpr ⟨e, old, names, rfl⟩
    have apart : q ≠ path := by
      rintro rfl
      rw [found] at still
      exact other (Except.ok.inj still).symm
    rw [if_neg apart, toOption_eq_some, still]
  · intro there
    split at there
    · cases there
    · rename_i apart
      obtain ⟨e, he, names, rfl⟩ := find_ok (toOption_eq_some.mp there)
      obtain ⟨e₀, he₀, names₀, number⟩ := find_ok found
      have other : ¬e.inum = x := by
        intro same
        have one := unique.same he he₀ (names_iff.mp names).1 (names_iff.mp names₀).1
          (.inr (same.trans number.symm))
        apply apart
        rw [← (names_iff.mp names).2, ← (names_iff.mp names₀).2, one]
      refine ⟨e, List.mem_map.mpr ⟨e, he, ?_⟩, names, rfl⟩
      rw [DirEntry.strike, if_neg other]

/-- A new entry is found under its name, and all others as before. -/
theorem find_added (unique : Unique es) (readable : Readable es)
    (named : WellNamed path) {e₀ : OsError}
    (missing : find path es = .error e₀) (slot : es.findIdx? (fun e => !e.isValid) = some i)
    (fresh : ∀ e ∈ es, e.isValid = true → e.inum ≠ x) :
    Unique (es.set i (entryOf path x)) ∧ ∀ q, (find q (es.set i (entryOf path x))).toOption =
      if q = path then some x else (find q es).toOption := by
  have unnamed : ∀ e ∈ es, e.isValid = true → e.cstr ≠ path := by
    intro e he valid same
    rw [(unique.find_iff readable).mpr ⟨e, he, names_iff.mpr ⟨valid, same⟩, rfl⟩] at missing
    cases missing
  have unique' : Unique (es.set i (entryOf path x)) := by
    refine unique.added fun e he valid => ⟨?_, fresh e he valid⟩
    rw [cstr_entryOf named]
    exact unnamed e he valid
  have readable' : Readable (es.set i (entryOf path x)) := by
    intro e he valid
    obtain old | rfl := List.mem_or_eq_of_mem_set he
    · exact readable e old valid
    · rw [cstr_entryOf named]
      exact isUtf8_of_ascii named.ascii
  refine ⟨unique', fun q => ?_⟩
  split
  · rename_i here
    rw [here, toOption_eq_some]
    exact find_set readable named missing slot x
  · rename_i other
    apply Option.ext
    intro y
    rw [toOption_eq_some, toOption_eq_some, unique'.find_iff readable', unique.find_iff readable]
    constructor
    · rintro ⟨e, he, names, rfl⟩
      obtain old | rfl := List.mem_or_eq_of_mem_set he
      · exact ⟨e, old, names, rfl⟩
      · rw [names_iff, cstr_entryOf named] at names
        exact absurd names.2.symm other
    · rintro ⟨e, he, names, rfl⟩
      obtain ⟨k, here⟩ := List.mem_iff_getElem?.mp he
      obtain ⟨bound, invalid, -⟩ := List.findIdx?_eq_some_iff_getElem.mp slot
      have apart : i ≠ k := by
        rintro rfl
        obtain ⟨_, same⟩ := List.getElem?_eq_some_iff.mp here
        rw [same, (names_iff.mp names).1] at invalid
        cases invalid
      refine ⟨e, List.mem_iff_getElem?.mpr ⟨k, ?_⟩, names, rfl⟩
      rw [List.getElem?_set_ne apart, here]

end Unique

variable {slots slots' : Slots} {s t : Sys} {y id h : Nat} {f : File} {X : Set Nat}

/-- The numbers of an inode, from memory if it is there. -/
def Sys.dataAt (s : Sys) (x : Nat) : DiskInode :=
  match s.upgrade x with
  | some id => (s.inodes id).data
  | none => inodeOn s.disk x

/-- The files by their inode numbers. The descriptor of the root directory is the file system's
own. -/
def Sys.store (s : Sys) : FileStore.Store Path Nat Nat UInt8 where
  names path := (find path s.entries).toOption
  bytes x := bytesFrom s.disk (s.dataAt x).start 0 (s.dataAt x).len
  files h := if h = 0 then none else
    (s.files.lookup h).map fun f => ⟨(s.inodes f.vnode).desc.sector, f.pos, f.denyWrite⟩
  denials x := match s.upgrade x with
    | some id => (s.inodes id).desc.denyWrite
    | none => 0

theorem store_names : s.store.names path = some x ↔ find path s.entries = .ok x := toOption_eq_some

theorem store_unnamed (m : Mounted slots s) : s.store.names path = none ↔
    find path s.entries = .error .noSuchFile := by
  change (find path s.entries).toOption = none ↔ _
  rw [find_eq m.readable]
  cases s.entries.find? (·.names path) with
  | none => simp [Except.toOption]
  | some e => simp [Except.toOption]

theorem mem_of_lookup (file : s.files.lookup h = some f) : (h, f) ∈ s.files := by
  obtain ⟨before, after, split, -⟩ := List.lookup_eq_some_iff.mp file
  rw [split]
  simp

theorem store_files (sound : Sound slots s) (ne : h ≠ 0) (file : s.files.lookup h = some f)
    (hx : slots x = some (.opened f.vnode)) : s.store.files h = some ⟨x, f.pos, f.denyWrite⟩ := by
  change (if h = 0 then none else _) = _
  rw [if_neg ne, file, Option.map_some, sound.sector_eq hx]

theorem store_files_none (missing : h = 0 ∨ s.files.lookup h = none) : s.store.files h = none := by
  change (if h = 0 then none else _) = _
  obtain zero | none := missing
  · rw [if_pos zero]
  · rw [none]
    split <;> rfl

theorem store_bytes_opened (m : Mounted slots s) (hx : slots x = some (.opened id)) :
    s.store.bytes x = bytesFrom s.disk (s.inodes id).data.start 0 (s.inodes id).data.len := by
  change bytesFrom s.disk (s.dataAt x).start 0 (s.dataAt x).len = _
  rw [Sys.dataAt, (m.linked.upgrade x id).mpr hx]

theorem store_bytes_closed (m : Mounted slots s) (hx : slots x = some .closed) :
    s.store.bytes x = bytesFrom s.disk (inodeOn s.disk x).start 0 (inodeOn s.disk x).len := by
  have closed : s.upgrade x = none := m.upgrade_closed fun id h => by
    rw [hx] at h
    cases h
  change bytesFrom s.disk (s.dataAt x).start 0 (s.dataAt x).len = _
  rw [Sys.dataAt, closed]

theorem store_denials_opened (m : Mounted slots s) (hx : slots x = some (.opened id)) :
    s.store.denials x = (s.inodes id).desc.denyWrite := by
  change (match s.upgrade x with
    | some id => (s.inodes id).desc.denyWrite
    | none => 0) = _
  rw [(m.linked.upgrade x id).mpr hx]

theorem store_bytes (m : Mounted slots s) (known : (slots x).isSome) :
    s.store.bytes x = content slots s x := by
  obtain ⟨slot, hx⟩ := Option.isSome_iff_exists.mp known
  cases slot with
  | opened id => rw [store_bytes_opened m hx, content, Store.data_mk hx]
  | closed =>
    have data : (Store.mk s slots).data x = inodeOn s.disk x := Store.data_closed hx
    rw [store_bytes_closed m hx, content, data]

theorem store_open (m : Mounted slots s) : s.store.Open x ↔
    x ≠ 1 ∧ ∃ id, slots x = some (.opened id) := by
  constructor
  · rintro ⟨h, d, file, rfl⟩
    by_cases zero : h = 0
    · rw [store_files_none (.inl zero)] at file
      cases file
    cases found : s.files.lookup h with
    | none =>
      rw [store_files_none (.inr found)] at file
      cases file
    | some f =>
      obtain ⟨x, hx, ne⟩ := m.slot_of_mem (mem_of_lookup found) zero
      rw [store_files m.sound zero found hx, Option.some.injEq] at file
      subst file
      exact ⟨ne, f.vnode, hx⟩
  · rintro ⟨ne, id, hx⟩
    obtain ⟨q, link, rfl⟩ := referenced_iff.mp (m.linked.referenced hx)
    obtain ⟨⟨h, f⟩, mine, rfl⟩ := List.mem_map.mp link
    have nonzero : h ≠ 0 := by
      rintro rfl
      have root := m.sound.root.slot
      rw [m.file_of_mem mine] at root
      exact ne (m.sound.opened_inj hx root)
    exact ⟨h, _, store_files m.sound nonzero (m.lookup_of_mem mine) hx, rfl⟩

theorem known_of_live (m : Mounted slots s) (live : s.store.Live x) : (slots x).isSome ∧ x ≠ 1 := by
  obtain opened | ⟨path, named⟩ := live
  · obtain ⟨ne, id, hx⟩ := (store_open m).mp opened
    exact ⟨hx ▸ rfl, ne⟩
  · obtain ⟨e, he, names, rfl⟩ := find_ok (store_names.mp named)
    exact m.known e he (names_iff.mp names).1

/-- An inode that a step does not concern keeps its bytes and its denials. -/
theorem Local.store_kept (loc : Local slots slots' s t X) (m : Mounted slots s)
    (m' : Mounted slots' t) (out : x ∉ X)
    (known : (slots x).isSome) : t.store.bytes x = s.store.bytes x ∧
      t.store.denials x = s.store.denials x := by
  have slot := loc.slot x out
  have sector : ∀ i < ((Store.mk s slots).data x).len, t.disk
    (((Store.mk s slots).data x).start + (0 + i) / 512) =
      s.disk (((Store.mk s slots).data x).start + (0 + i) / 512) := by
    intro i hi
    rw [Nat.zero_add]
    have mine : (((⟨s, slots⟩ : Store).slots) x).isSome := known
    exact loc.disk x out _ (Store.sector_mem_owned mine hi)
  obtain ⟨place, hx⟩ := Option.isSome_iff_exists.mp known
  cases place with
  | opened id =>
    have inode := loc.inode x out id hx
    rw [Store.data_mk hx] at sector
    rw [store_bytes_opened m' (slot.trans hx), store_bytes_opened m hx,
      store_denials_opened m' (slot.trans hx),
      store_denials_opened m hx, inode]
    refine ⟨List.map_congr_left fun i hi => fileByte_congr (sector i (List.mem_range.mp hi)), rfl⟩
  | closed =>
    have home : inodeOn t.disk x = inodeOn s.disk x :=
      congrArg DiskInode.ofSector (loc.disk x out x (self_mem_owned known))
    have data : (Store.mk s slots).data x = inodeOn s.disk x := Store.data_closed hx
    have none : ∀ {slots : Slots} {s : Sys}, Mounted slots s → slots x = some .closed →
      s.store.denials x = 0 := by
      intro slots s m hx
      have closed : s.upgrade x = none := m.upgrade_closed fun id h => by
        rw [hx] at h
        cases h
      change (match s.upgrade x with
        | some id => (s.inodes id).desc.denyWrite
        | none => 0) = _
      rw [closed]
    rw [data] at sector
    rw [store_bytes_closed m' (slot.trans hx), store_bytes_closed m hx,
      none m' (slot.trans hx), none m hx, home]
    refine ⟨List.map_congr_left fun i hi => fileByte_congr (sector i (List.mem_range.mp hi)), rfl⟩

/-- A step shows as a change of a store if the names, the descriptors and the files it concerns
do. -/
theorem Local.alike (loc : Local slots slots' s t X) (m : Mounted slots s) (m' : Mounted slots' t)
    {u : FileStore.Store Path Nat Nat UInt8} (names : t.store.names = u.names)
    (files : t.store.files = u.files)
    (others : ∀ y, y ∉ X → u.bytes y = s.store.bytes y ∧ u.denials y = s.store.denials y)
    (bytes : ∀ y ∈ X, y ≠ 1 → (slots' y).isSome → t.store.bytes y = u.bytes y)
    (denials : ∀ y ∈ X, y ≠ 1 → ∀ id, slots' y = some (.opened id) →
      t.store.denials y = u.denials y) :
    u.Alike t.store := by
  refine ⟨names, files, ?_, ?_⟩
  · intro y live
    obtain ⟨known, ne⟩ := known_of_live m' live
    by_cases mem : y ∈ X
    · exact bytes y mem ne known
    · rw [(loc.store_kept m m' mem (loc.slot y mem ▸ known)).1, (others y mem).1]
  · intro y opened
    obtain ⟨ne, id, hy⟩ := (store_open m').mp opened
    by_cases mem : y ∈ X
    · exact denials y mem ne id hy
    · have known : (slots y).isSome := by
        rw [← loc.slot y mem, hy]
        rfl
      rw [(loc.store_kept m m' mem known).2, (others y mem).2]

theorem store_names_kept (entries : t.entries = s.entries) : t.store.names = s.store.names := by
  funext path
  change (find path t.entries).toOption = (find path s.entries).toOption
  rw [entries]

/-- A descriptor shows as before if it is as before and its inode is where it was. -/
theorem store_files_kept (m : Mounted slots s) (m' : Mounted slots' t)
    (same : h ≠ 0 → t.files.lookup h = s.files.lookup h)
    (kept : ∀ f x, s.files.lookup h = some f → slots x = some (.opened f.vnode) →
      slots' x = some (.opened f.vnode)) :
    t.store.files h = s.store.files h := by
  by_cases zero : h = 0
  · rw [store_files_none (.inl zero), store_files_none (.inl zero)]
  cases file : s.files.lookup h with
  | none => rw [store_files_none (.inr file), store_files_none (.inr ((same zero).trans file))]
  | some f =>
    obtain ⟨x, hx, -⟩ := m.slot_of_mem (mem_of_lookup file) zero
    rw [store_files m.sound zero file hx, store_files m'.sound zero
      ((same zero).trans file) (kept f x file hx)]

/-- A step of one descriptor shows as a change of that descriptor. -/
theorem store_files_put (m : Mounted slots s) (m' : Mounted slots' t)
    {d? : Option (FileStore.Descriptor Nat)}
    (here : t.store.files h = d?) (others : ∀ k, k ≠ 0 → k ≠ h →
      t.files.lookup k = s.files.lookup k)
    (kept : ∀ k f x, k ≠ h → s.files.lookup k = some f → slots x = some (.opened f.vnode) →
      slots' x = some (.opened f.vnode)) : t.store.files = Function.update s.store.files h d? := by
  funext k
  by_cases same : k = h
  · rw [same, here, Function.update_self]
  · rw [Function.update_of_ne same]
    exact store_files_kept m m' (fun ne => others k ne same) fun f x => kept k f x same

end Tacos.Fs
