/- GID: Tacos/Fs/Sections
   generality: I
   source: src/fs/disk.rs, src/fs/disk/inode.rs, src/fs/disk/dir.rs
   digest: What one section of a call under a lock leaves to the threads that are in other calls. -/

import Tacos.Fs.Directory

set_option autoImplicit false
set_option relaxedAutoImplicit false

namespace Tacos.Fs

open Tacos.Lib.Exec Tacos.Lib.Ownership FreeMap Inode RootDir
open Mounted (lookup_dropped links_dropped entries_struck)

variable {slots slots' : Slots} {s t : Sys} {x y id h : Nat} {path : Path} {X Y N S gone : Set Nat}

/-! ## What threads hold between sections -/

def Unnamed (es : List DirEntry) (x : Nat) : Prop := ∀ e ∈ es, e.isValid = true → e.inum ≠ x

def Distinct (es : List DirEntry) : Prop :=
  ∀ (i j : Nat) (d e : DirEntry), es[i]? = some d → es[j]? = some e →
    d.isValid = true → e.isValid = true → d.cstr = e.cstr → i = j

/-- A sector that is marked and that no inode has. -/
def Reserved (slots : Slots) (s : Sys) (x : Nat) : Prop :=
  s.freeMap.bit x = true ∧ ∀ y, x ∉ owned slots s y

/-- An inode in memory that neither the table nor a descriptor knows. -/
structure Aloof (s : Sys) (id : Nat) : Prop where
  lt : id < s.nextInode
  table : ∀ y, s.inodeTable y ≠ some id
  links : ∀ q ∈ s.links, q.2 ≠ id

/-- An inode that a thread has read or made and not registered yet. -/
structure Held (slots : Slots) (s : Sys) (x id : Nat) : Prop where
  closed : slots x = some .closed
  aloof : Aloof s id
  inode : s.inodes id = ⟨.new x 0, DiskInode.ofSector (s.disk x)⟩

/-- A file system in order whose names are apart, where no descriptor forbids writing, only files
cut to nothing have more sectors than their length needs, and what is removed has no name. -/
structure Tidy (slots : Slots) (s : Sys) : Prop where
  mounted : Mounted slots s
  distinct : Distinct s.entries
  allows : ∀ p ∈ s.files, p.2.denyWrite = false
  brief : ∀ x id, slots x = some (.opened id) → x ≠ 1 →
    (s.inodes id).desc.shrinkLen = 0 ∨ (s.inodes id).data.len = 0
  removed : ∀ x id, slots x = some (.opened id) → (s.inodes id).desc.removed = true →
    Unnamed s.entries x

/-- What a section keeps of inodes on the disk and of reserved sectors, those in `X` apart. -/
structure SectorsKept (slots slots' : Slots) (s t : Sys) (X : Set Nat) : Prop where
  size : t.freeMap.size = s.freeMap.size
  closed : ∀ y ∉ X, slots y = some .closed → slots' y = some .closed ∧ t.disk y = s.disk y
  reserved : ∀ y ∉ X, Reserved slots s y → Reserved slots' t y

/-- What a section keeps of inodes in memory and of descriptors, the inodes of numbers in `X` and
the descriptors in `gone` apart. -/
structure ArcsKept (s t : Sys) (X gone : Set Nat) : Prop where
  aloof : ∀ id, Aloof s id → (s.inodes id).desc.sector ∉ X → Aloof t id ∧ t.inodes id = s.inodes id
  kept : ∀ q ∈ s.links, q.1 ∉ gone → q ∈ t.links
  inode : ∀ q ∈ s.links, (t.inodes q.2).desc.sector = (s.inodes q.2).desc.sector ∧
    ((s.inodes q.2).desc.sector ∉ X → (t.inodes q.2).desc.removed = (s.inodes q.2).desc.removed)
  old : ∀ q ∈ t.links, q ∈ s.links ∨ s.nextFile ≤ q.1
  next : s.nextFile ≤ t.nextFile

/-- What a section keeps of the entries in use, where those of numbers in `S` may go and those of
numbers in `N` come. -/
structure NamesKept (es es' : List DirEntry) (N S : Set Nat) : Prop where
  place : ∀ (k : Nat) (e : DirEntry), es[k]? = some e → e.isValid = true →
    e.inum ∉ S → es'[k]? = some e
  named : ∀ (k : Nat) (e : DirEntry), es'[k]? = some e → e.isValid = true →
    es[k]? = some e ∨ e.inum ∈ N

/-- What a section leaves to the other threads. -/
structure Passes (slots slots' : Slots) (s t : Sys) (X N S gone : Set Nat) : Prop where
  tidy : Tidy slots' t
  sectors : SectorsKept slots slots' s t X
  arcs : ArcsKept s t X gone
  names : NamesKept s.entries t.entries N S

/-! ### Names -/

theorem NamesKept.unnamed {es es' : List DirEntry} (names : NamesKept es es' N S)
    (unnamed : Unnamed es x) (out : x ∉ N) :
    Unnamed es' x := by
  intro e he valid
  obtain ⟨k, here⟩ := List.mem_iff_getElem?.mp he
  obtain old | new := names.named k e here valid
  · exact unnamed e (List.mem_of_getElem? old) valid
  · rintro rfl
    exact out new

theorem NamesKept.refl (es : List DirEntry) : NamesKept es es N S :=
  ⟨fun _ _ here _ _ => here, fun _ _ here _ => .inl here⟩

/-- Entries that are all old ones in their places have names apart as before. -/
theorem NamesKept.distinct {es es' : List DirEntry} (names : NamesKept es es' ∅ S)
    (distinct : Distinct es) :
    Distinct es' := by
  have old : ∀ (k : Nat) (e : DirEntry), es'[k]? = some e → e.isValid = true → es[k]? = some e := by
    intro k e here valid
    obtain there | new := names.named k e here valid
    · exact there
    · exact absurd new (Set.notMem_empty _)
  intro i j d e hd he validD validE same
  exact distinct i j d e (old i d hd validD) (old j e he validE) validD validE same

theorem getElem?_map_strike {es : List DirEntry} {k : Nat} {e : DirEntry}
    (here : (es.map (DirEntry.strike x))[k]? = some e) (valid : e.isValid = true) :
    es[k]? = some e ∧ e.inum ≠ x := by
  rw [List.getElem?_map, Option.map_eq_some_iff] at here
  obtain ⟨d, old, rfl⟩ := here
  rw [DirEntry.strike] at valid ⊢
  split at valid
  · rw [not_isValid_invalidate] at valid
    cases valid
  · rename_i other
    rw [if_neg other]
    exact ⟨old, other⟩

theorem getElem?_map_strike_of_ne {es : List DirEntry} {k : Nat} {e : DirEntry}
    (here : es[k]? = some e)
    (ne : e.inum ≠ x) : (es.map (DirEntry.strike x))[k]? = some e := by
  rw [List.getElem?_map, here, Option.map_some, DirEntry.strike, if_neg ne]

/-- In a directory with names apart a path leads to the number in the entry of its name. -/
theorem Distinct.find_iff {es : List DirEntry} (distinct : Distinct es) (readable : Readable es) :
    find path es = .ok x ↔ ∃ (k : Nat) (e : DirEntry), es[k]? = some e ∧
      e.names path = true ∧ e.inum = x := by
  constructor
  · intro found
    obtain ⟨e, he, names, same⟩ := find_ok found
    obtain ⟨k, here⟩ := List.mem_iff_getElem?.mp he
    exact ⟨k, e, here, names, same⟩
  · rintro ⟨k, e, here, names, rfl⟩
    rw [find_eq readable]
    cases found : es.find? (·.names path) with
    | none => exact absurd names (List.find?_eq_none.mp found e (List.mem_of_getElem? here))
    | some d =>
      have namesD := List.find?_some found
      obtain ⟨j, there⟩ := List.mem_iff_getElem?.mp (List.mem_of_find?_eq_some found)
      rw [DirEntry.names, Bool.and_eq_true, beq_iff_eq] at names namesD
      obtain rfl := distinct j k d e there here namesD.1 names.1 (namesD.2.trans names.2.symm)
      rw [Option.some.inj (there.symm.trans here)]

theorem Passes.find (p : Passes slots slots' s t X N S gone) (before : Tidy slots s)
    (found : find path s.entries = .ok x)
    (out : x ∉ S) : Fs.RootDir.find path t.entries = .ok x := by
  obtain ⟨k, e, here, names, same⟩ := (before.distinct.find_iff before.mounted.readable).mp found
  have valid := names
  rw [DirEntry.names, Bool.and_eq_true] at valid
  exact (p.tidy.distinct.find_iff p.tidy.mounted.readable).mpr
    ⟨k, e, p.names.place k e here valid.1 (same ▸ out), names, same⟩

theorem NamesKept.set {es : List DirEntry} {i : Nat}
    (slot : es.findIdx? (fun e => !e.isValid) = some i) (new : DirEntry) :
    NamesKept es (es.set i new) {new.inum} ∅ := by
  obtain ⟨inside, unused, -⟩ := List.findIdx?_eq_some_iff_getElem.mp slot
  constructor
  · intro k e here valid _
    have apart : i ≠ k := by
      rintro rfl
      obtain ⟨_, same⟩ := List.getElem?_eq_some_iff.mp here
      rw [same, valid] at unused
      cases unused
    rw [List.getElem?_set_ne apart, here]
  · intro k e here _
    by_cases same : i = k
    · rw [← same, List.getElem?_set_self inside, Option.some.injEq] at here
      exact .inr (here ▸ rfl)
    · rw [List.getElem?_set_ne same] at here
      exact .inl here

theorem Distinct.set {es : List DirEntry} (distinct : Distinct es) {new : DirEntry}
    (absent : ∀ e ∈ es, e.isValid = true → e.cstr ≠ new.cstr) (i : Nat) :
    Distinct (es.set i new) := by
  have only : ∀ (j : Nat) (d : DirEntry), (es.set i new)[j]? = some d → d.isValid = true →
      j = i ∧ d = new ∨ es[j]? = some d ∧ d.cstr ≠ new.cstr := by
    intro j d here valid
    by_cases same : i = j
    · rw [← same, List.getElem?_set_self'] at here
      obtain ⟨-, -, rfl⟩ := Option.map_eq_some_iff.mp here
      exact .inl ⟨same.symm, rfl⟩
    · rw [List.getElem?_set_ne same] at here
      exact .inr ⟨here, absent d (List.mem_of_getElem? here) valid⟩
  intro j k d e hd he validD validE same
  obtain ⟨rfl, rfl⟩ | ⟨oldD, otherD⟩ := only j d hd validD
  · obtain ⟨rfl, -⟩ | ⟨-, otherE⟩ := only k e he validE
    · rfl
    · exact absurd same.symm otherE
  · obtain ⟨-, rfl⟩ | ⟨oldE, -⟩ := only k e he validE
    · exact absurd same otherD
    · exact distinct j k d e oldD oldE validD validE same

theorem NamesKept.strike (es : List DirEntry) (x : Nat) :
    NamesKept es (es.map (DirEntry.strike x)) N {x} :=
  ⟨fun _ _ here _ other => getElem?_map_strike_of_ne here other,
    fun _ _ here valid => .inl (getElem?_map_strike here valid).1⟩

theorem NamesKept.strike_unnamed {es : List DirEntry} (unnamed : Unnamed es x) :
    NamesKept es (es.map (DirEntry.strike x)) N S :=
  ⟨fun _ _ here valid _ => getElem?_map_strike_of_ne here
    (unnamed _ (List.mem_of_getElem? here) valid),
    fun _ _ here valid => .inl (getElem?_map_strike here valid).1⟩

theorem absent_of_find {es : List DirEntry} (readable : Readable es) {e₀ : OsError}
    (missing : find path es = .error e₀) :
    ∀ e ∈ es, e.isValid = true → e.cstr ≠ path := by
  intro e he valid same
  rw [find_eq readable] at missing
  split at missing
  · cases missing
  · rename_i nothing
    refine List.find?_eq_none.mp nothing e he ?_
    rw [DirEntry.names, valid, same, Bool.true_and, beq_self_eq_true]

theorem Passes.held (p : Passes slots slots' s t X N S gone) (held : Held slots s x id)
    (out : x ∉ X) : Held slots' t x id := by
  have sector : (s.inodes id).desc.sector = x := by
    rw [held.inode]
    rfl
  obtain ⟨closed, disk⟩ := p.sectors.closed x out held.closed
  obtain ⟨aloof, inode⟩ := p.arcs.aloof id held.aloof (sector ▸ out)
  refine ⟨closed, aloof, ?_⟩
  rw [inode, held.inode, disk]

/-! ### Rules -/

theorem SectorsKept.of_local (loc : Local slots slots' s t Y)
    (size : t.freeMap.size = s.freeMap.size)
    (shut : ∀ y ∈ Y, slots y = some .closed → y ∈ X)
    (bits : ∀ y ∉ X, Reserved slots s y → t.freeMap.bit y = true)
    (grown : ∀ x ∈ Y, ∀ y ∈ owned slots' t x, y ∈ owned slots s x ∨
      s.freeMap.bit y = false ∨ y ∈ X) :
    SectorsKept slots slots' s t X := by
  refine ⟨size, ?_, ?_⟩
  · intro y out closed
    have other : y ∉ Y := fun mem => out (shut y mem closed)
    have known : (slots y).isSome := by
      rw [closed]
      rfl
    exact ⟨(loc.slot y other).trans closed, loc.disk y other y (self_mem_owned known)⟩
  · intro y out reserved
    refine ⟨bits y out reserved, fun x mem => ?_⟩
    by_cases here : x ∈ Y
    · obtain old | free | inside := grown x here y mem
      · exact reserved.2 x old
      · rw [reserved.1] at free
        cases free
      · exact out inside
    · rw [loc.owned x here] at mem
      exact reserved.2 x mem

theorem SectorsKept.of_empty (loc : Local slots slots' s t ∅)
    (size : t.freeMap.size = s.freeMap.size)
    (bits : ∀ y, s.freeMap.bit y = true → t.freeMap.bit y = true) :
    SectorsKept slots slots' s t X :=
  .of_local loc size (fun _ none _ => none.elim) (fun y _ reserved => bits y reserved.1)
    fun _ none => none.elim

/-- Descriptors and table stay, and only inodes that have a descriptor change. -/
theorem ArcsKept.of_inodes (m : Mounted slots s) (links : t.links = s.links)
    (table : t.inodeTable = s.inodeTable)
    (file : t.nextFile = s.nextFile) (next : s.nextInode ≤ t.nextInode)
    (inodes : ∀ id < s.nextInode, t.inodes id = s.inodes id ∨ (∃ q ∈ s.links, q.2 = id) ∧
      (t.inodes id).desc.sector = (s.inodes id).desc.sector ∧
        ((s.inodes id).desc.sector ∉ X → (t.inodes id).desc.removed = (s.inodes id).desc.removed)) :
    ArcsKept s t X gone := by
  refine ⟨?_, ?_, ?_, ?_, le_of_eq file.symm⟩
  · intro id aloof _
    refine ⟨⟨lt_of_lt_of_le aloof.lt next, table ▸ aloof.table, links ▸ aloof.links⟩, ?_⟩
    obtain same | ⟨⟨q, hq, here⟩, -⟩ := inodes id aloof.lt
    · exact same
    · exact absurd here (aloof.links q hq)
  · rw [links]
    exact fun q hq _ => hq
  · intro q hq
    obtain same | ⟨-, sector, removed⟩ := inodes q.2 (m.inside q hq)
    · rw [same]
      exact ⟨rfl, fun _ => rfl⟩
    · exact ⟨sector, removed⟩
  · rw [links]
    exact fun q hq => .inl hq

theorem ArcsKept.of_same (m : Mounted slots s) (links : t.links = s.links)
    (table : t.inodeTable = s.inodeTable)
    (file : t.nextFile = s.nextFile) (next : s.nextInode ≤ t.nextInode)
    (inodes : ∀ id < s.nextInode, t.inodes id = s.inodes id) : ArcsKept s t X gone :=
  .of_inodes m links table file next fun id lt => .inl (inodes id lt)

theorem allows_setPos (files : ∀ p ∈ s.files, p.2.denyWrite = false) (h q : Nat) :
    ∀ p ∈ (s.setPos h q).files, p.2.denyWrite = false := by
  intro f hf
  obtain ⟨g, hg, rfl⟩ := List.mem_map.mp hf
  have allows := files g hg
  split
  · exact allows
  · exact allows

namespace Tidy

/-- The rule for a section that makes no entry. -/
theorem carries (before : Tidy slots s) (mounted : Mounted slots' t)
    (names : NamesKept s.entries t.entries ∅ S)
    (allows : ∀ p ∈ t.files, p.2.denyWrite = false)
    (inodes : ∀ x id, slots' x = some (.opened id) →
      (x ≠ 1 → (t.inodes id).desc.shrinkLen = 0 ∨ (t.inodes id).data.len = 0) ∧
        ((t.inodes id).desc.removed = true → Unnamed t.entries x)) : Tidy slots' t :=
  ⟨mounted, names.distinct before.distinct, allows, fun x id hx ne => (inodes x id hx).1 ne,
    fun x id hx => (inodes x id hx).2⟩

theorem keeps (before : Tidy slots s) (names : NamesKept s.entries t.entries ∅ S)
    (slot : slots x = some (.opened id)) (same : t.inodes id = s.inodes id) :
    (x ≠ 1 → (t.inodes id).desc.shrinkLen = 0 ∨ (t.inodes id).data.len = 0) ∧
      ((t.inodes id).desc.removed = true → Unnamed t.entries x) := by
  rw [same]
  refine ⟨before.brief x id slot, fun removed => ?_⟩
  exact names.unnamed (before.removed x id slot removed) (Set.notMem_empty x)

theorem unnamed (before : Tidy slots s) (none : slots x = none) : Unnamed s.entries x := by
  rintro e he valid rfl
  have known := (before.mounted.known e he valid).1
  rw [none] at known
  cases known

/-! ## Sections that look something up -/

theorem moves (before : Tidy slots s) (p : Nat) : Passes slots slots s (s.setPos 0 p) ∅ ∅ ∅ ∅ := by
  have m := before.mounted
  have names : NamesKept s.entries (s.setPos 0 p).entries ∅ ∅ := by
    rw [m.entries_setPos]
    exact .refl _
  exact ⟨before.carries (m.setPos p) names (allows_setPos before.allows 0 p)
    fun x id hx => before.keeps names hx rfl,
    .of_empty (m.sound.setPos p) rfl fun _ hy => hy, .of_same m
    (links_setPos s 0 p) rfl rfl le_rfl fun _ _ => rfl, names⟩

theorem opens (before : Tidy slots s) (hx : slots x = some (.opened id)) (ne : x ≠ 1) :
    Passes slots slots s (s.opened id) ∅ ∅ ∅ ∅ := by
  have m := before.mounted
  have names : NamesKept s.entries (s.opened id).entries ∅ ∅ := by
    rw [entries_opened m.nextFile_pos]
    exact .refl _
  have sound : Local slots slots s (s.opened id) ∅ :=
    ⟨(m.newFile hx ne).sound, fun _ _ => rfl, fun _ _ _ _ => rfl,
      fun _ _ _ _ => rfl, fun _ _ => rfl⟩
  refine ⟨before.carries (m.newFile hx ne) names ?_ fun x id hx => before.keeps names hx rfl,
    .of_empty sound rfl fun _ hy => hy, ?_, names⟩
  · intro f hf
    obtain rfl | old := List.mem_cons.mp hf
    · rfl
    · exact before.allows f old
  · refine ⟨?_, fun q hq _ => List.mem_cons_of_mem _ hq,
      fun q _ => ⟨rfl, fun _ => rfl⟩, ?_, Nat.le_succ _⟩
    · intro id' aloof _
      refine ⟨⟨aloof.lt, aloof.table, ?_⟩, rfl⟩
      intro q hq
      obtain rfl | old := List.mem_cons.mp hq
      · rintro rfl
        exact aloof.table x (upgrade_iff.mp ((m.linked.upgrade x _).mpr hx)).1
      · exact aloof.links q old
    · intro q hq
      obtain rfl | old := List.mem_cons.mp hq
      · exact .inr le_rfl
      · exact .inl old

/-! ## Sections of a new file -/

theorem reserves (before : Tidy slots s) {n : FreeMap} (got : FreeMap.alloc 1 s.freeMap = .ok x n) :
    Passes slots slots s { s with freeMap := n } ∅ ∅ ∅ ∅ ∧
      Reserved slots { s with freeMap := n } x ∧ s.freeMap.bit x = false := by
  have m := before.mounted
  obtain ⟨taken, -⟩ := alloc_taken got
  have here : InRun x 1 x := ⟨le_rfl, Nat.lt_succ_self x⟩
  have free := taken.free x here
  have loc := m.sound.takes taken
  have mounted : Mounted slots { s with freeMap := n } :=
    ⟨m.idle, loc.sound, m.linked.of_same rfl rfl rfl le_rfl, m.readable, m.known⟩
  have names : NamesKept s.entries ({ s with freeMap := n } : Sys).entries ∅ ∅ := .refl _
  refine ⟨⟨before.carries mounted names before.allows fun x id hx => before.keeps names hx rfl,
    .of_empty loc taken.size taken.kept, .of_same m rfl rfl rfl le_rfl
    fun _ _ => rfl, names⟩, ⟨taken.marked x here, ?_⟩, free⟩
  intro y mem
  have marked := m.sound.marked (x := y) mem
  rw [free] at marked
  cases marked

end Tidy

/-- The state after an empty inode was made in sector `x`. -/
def Sys.madeAt (s : Sys) (x : Nat) : Sys := { s with
  disk := Function.update s.disk x newData.toSector
  inodes := Function.update s.inodes s.nextInode ⟨.new x 0, newData⟩
  nextInode := s.nextInode + 1 }

/-- The state after the inode in sector `x` was read. -/
def Sys.readAt (s : Sys) (x : Nat) : Sys := { s with
  inodes := Function.update s.inodes s.nextInode ⟨.new x 0, DiskInode.ofSector (s.disk x)⟩
  nextInode := s.nextInode + 1 }

/-- The state after an inode was registered and got a descriptor. -/
def Sys.adopted (s : Sys) (x id : Nat) : Sys := { s with
  inodeTable := Function.update s.inodeTable x (some id)
  files := (s.nextFile, .new id) :: s.files
  nextFile := s.nextFile + 1 }

theorem Reserved.slot (reserved : Reserved slots s x) : slots x = none := by
  by_contra known
  exact reserved.2 x (self_mem_owned (Option.isSome_iff_ne_none.mpr known))

theorem Mounted.aloof_next (m : Mounted slots s) (links : t.links = s.links)
    (table : t.inodeTable = s.inodeTable)
    (next : s.nextInode < t.nextInode) : Aloof t s.nextInode := by
  refine ⟨next, ?_, ?_⟩
  · rw [table]
    exact fun y hy => Nat.lt_irrefl _ (m.linked.table_lt y _ hy)
  · rw [links]
    exact fun q hq => Nat.ne_of_lt (m.inside q hq)

namespace Sound

theorem makes (sound : Sound slots s) (reserved : Reserved slots s x) :
    Local slots (Function.update slots x (some .closed)) s (s.madeAt x) {x} := by
  have ne : x ≠ 1 := by
    rintro rfl
    have slot := sound.root.slot
    rw [reserved.slot] at slot
    cases slot
  have slot : Function.update slots x (some .closed) x = some .closed := Function.update_self ..
  have disk : ∀ x', x' ≠ x → ∀ y ∈ Fs.owned slots s x', (s.madeAt x).disk y = s.disk y := by
    intro x' _ y hy
    apply Function.update_of_ne
    rintro rfl
    exact reserved.2 x' hy
  have concerns : Concerns slots (Function.update slots x (some .closed)) s (s.madeAt x) x := by
    refine ⟨fun x' hx' => Function.update_of_ne hx' _ _, ?_, ?_, rfl, Nat.le_succ _⟩
    · intro x' _ id' h'
      exact Function.update_of_ne (Nat.ne_of_lt (sound.lt_nextInode h')) _ _
    · exact fun x' hx' known => disk x' hx' x' (self_mem_owned known)
  have written : DiskInode.ofSector ((s.madeAt x).disk x) = newData := by
    change DiskInode.ofSector (Function.update s.disk x newData.toSector x) = newData
    rw [Function.update_self]
    exact DiskInode.ofSector_toSector (by decide) (by decide) (by decide)
  have mine : ∀ y, y ∈ Fs.owned (Function.update slots x (some .closed))
    (s.madeAt x) x → y = x := by
    intro y hy
    obtain here | run := (mem_owned_closed slot y).mp hy
    · exact here
    · rw [written] at run
      exact absurd run.2 (Nat.not_lt.mpr run.1)
  -- The sector was nobody's, so that the others have theirs without it.
  have spare : Exclusive (Fs.owned slots s) ({y | s.freeMap.bit y = true} \ {x}) := by
    refine ⟨sound.exclusive.apart, fun i y hy => ⟨sound.exclusive.marked i y hy, ?_⟩⟩
    rintro rfl
    exact reserved.2 i hy
  refine concerns.local ⟨sound.size_lt, sound.in_disk, ?_, ?_, sound.rootKept concerns ne rfl⟩ disk
  · refine spare.change x (fun x' hx' => concerns.owned_eq hx') ?_ ?_
      fun x' _ y hy => sound.marked hy
    · exact fun y hy => .inr fun mem => mem.2 (mine y hy)
    · intro y hy
      rw [mine y hy]
      exact reserved.1
  · intro x'
    by_cases here : x' = x
    · rw [here, Placed, slot]
      simp only [written]
      refine ⟨rfl, Nat.zero_le _, ?_⟩
      rw [dataOf, slot]
      simp only [written]
      exact fun run => absurd run.2 (Nat.not_lt.mpr run.1)
    · exact concerns.placed here (sound.placed x')

theorem reads (sound : Sound slots s) (x : Nat) : Local slots slots s (s.readAt x) ∅ := by
  have inode : ∀ x' id, slots x' = some (.opened id) → (s.readAt x).inodes id = s.inodes id :=
    fun x' id h' => Function.update_of_ne (Nat.ne_of_lt (sound.lt_nextInode h')) _ _
  have concerns : ∀ y, Concerns slots slots s (s.readAt x) y := fun y =>
    ⟨fun _ _ => rfl, fun x' _ => inode x', fun _ _ _ => rfl, rfl, Nat.le_succ _⟩
  have same : ∀ x', Fs.owned slots (s.readAt x) x' = Fs.owned slots s x' := fun x' =>
    (concerns (x' + 1)).owned_eq (Nat.succ_ne_self x').symm
  have root : RootKept slots (s.readAt x) := by
    have rootInode : (s.readAt x).inodeOf 0 = s.inodeOf 0 := inode 1 _ sound.root.slot
    exact ⟨sound.root.known, sound.root.slot, rootInode ▸ sound.root.len,
      rootInode ▸ sound.root.allowed⟩
  refine ⟨⟨sound.size_lt, sound.in_disk, ?_, ?_, root⟩, fun _ _ => rfl,
    fun x' _ => inode x', fun _ _ _ _ => rfl,
    fun x' _ => same x'⟩
  · rw [show Fs.owned slots (s.readAt x) = Fs.owned slots s from funext same]
    exact sound.exclusive
  · exact fun x' => (concerns (x' + 1)).placed (Nat.succ_ne_self x').symm (sound.placed x')

/-- The inode that a thread has read or made becomes the one of its number. -/
theorem adopts (sound : Sound slots s) (held : Held slots s x id) :
    Local slots (Function.update slots x (some (.opened id))) s s {x} := by
  have ne : x ≠ 1 := by
    rintro rfl
    have slot := sound.root.slot
    rw [held.closed] at slot
    cases slot
  have slot : Function.update slots x (some (.opened id)) x = some (.opened id) :=
    Function.update_self ..
  have concerns : Concerns slots (Function.update slots x (some (.opened id))) s s x :=
    ⟨fun x' hx' => Function.update_of_ne hx' _ _, fun _ _ _ _ => rfl, fun _ _ _ => rfl, rfl, le_rfl⟩
  have placed := sound.placed x
  rw [Placed, held.closed] at placed
  simp only at placed
  have mine : ∀ y, y ∈ Fs.owned (Function.update slots x (some (.opened id))) s x ↔
    y ∈ Fs.owned slots s x := by
    intro y
    rw [mem_owned_opened slot, mem_owned_closed held.closed, held.inode]
    rfl
  refine concerns.local (concerns.sound sound sound.in_disk ?_ ?_ ?_ ?_ ?_) fun _ _ _ _ => rfl
  · rw [Placed, slot]
    simp only [held.inode]
    refine ⟨rfl, held.aloof.lt, (DiskInode.ofSector_lt _).2, placed.2.1, ?_,
      (DiskInode.toSector_ofSector _).symm, placed.1⟩
    intro own
    refine placed.2.2 ?_
    rw [dataOf, held.closed]
    exact own
  · exact fun y hy => .inl ((mine y).mp hy)
  · exact fun y hy => sound.marked ((mine y).mp hy)
  · exact fun x' _ y hy => sound.marked hy
  · exact sound.rootKept concerns ne rfl

end Sound

theorem Linked.adopts (linked : Linked slots s)
    (out : ∀ id, slots x ≠ some (.opened id)) (ne : x ≠ 1)
    (aloof : Aloof s id) : Linked (Function.update slots x (some (.opened id)))
      (s.adopted x id) := by
  have links : (s.adopted x id).links = (s.nextFile, id) :: s.links := rfl
  obtain ⟨nodup, handle_lt⟩ := linked.numbered_cons links rfl
  refine ⟨nodup, handle_lt, ?_, ?_, ?_⟩
  · intro p hp
    rcases List.mem_cons.mp hp with rfl | hp
    · exact ⟨x, Function.update_self .., fun _ => ne⟩
    · obtain ⟨x', h', rest⟩ := linked.live p hp
      refine ⟨x', ?_, rest⟩
      rw [Function.update_of_ne]
      · exact h'
      · rintro rfl
        exact out _ h'
  · intro x' id'
    have links : (s.adopted x id).links = (s.nextFile, id) :: s.links := rfl
    have table : (s.adopted x id).inodeTable = Function.update s.inodeTable x (some id) := rfl
    rw [upgrade_iff, table, links]
    by_cases here : x' = x
    · subst here
      rw [Function.update_self, Function.update_self]
      constructor
      · rintro ⟨same, -⟩
        cases same
        rfl
      · intro same
        cases same
        exact ⟨rfl, _, List.mem_cons_self, rfl⟩
    · rw [Function.update_of_ne here, Function.update_of_ne here,
        ← linked.upgrade x' id', upgrade_iff]
      refine and_congr_right fun hid => ?_
      constructor
      · rintro ⟨p, hp, rfl⟩
        rcases List.mem_cons.mp hp with rfl | hp
        · exact absurd hid (aloof.table x')
        · exact ⟨p, hp, rfl⟩
      · rintro ⟨p, hp, rfl⟩
        exact ⟨p, List.mem_cons_of_mem _ hp, rfl⟩
  · intro x' id' hid
    change Function.update s.inodeTable x (some id) x' = some id' at hid
    by_cases here : x' = x
    · rw [here, Function.update_self] at hid
      cases hid
      exact aloof.lt
    · rw [Function.update_of_ne here] at hid
      exact linked.table_lt x' id' hid

namespace Tidy

theorem makes (before : Tidy slots s) (reserved : Reserved slots s x) :
    Passes slots (Function.update slots x (some .closed)) s (s.madeAt x) {x} ∅ ∅ ∅ ∧
      Held (Function.update slots x (some .closed)) (s.madeAt x) x s.nextInode ∧
        Unnamed (s.madeAt x).entries x := by
  have m := before.mounted
  have loc := m.sound.makes reserved
  have out : 1 ∉ ({x} : Set Nat) := by
    rintro rfl
    have slot := m.sound.root.slot
    rw [reserved.slot] at slot
    cases slot
  have closed : ∀ id, some Slot.closed ≠ some (.opened id) := by
    intro id h
    cases h
  have none : ∀ id, slots x ≠ some (.opened id) := by
    intro id h
    rw [reserved.slot] at h
    cases h
  have linked : Linked (Function.update slots x (some .closed)) (s.madeAt x) := by
    refine ⟨m.linked.nodup, m.linked.handle_lt, ?_, ?_,
      fun y id hid => Nat.lt_succ_of_lt (m.linked.table_lt y id hid)⟩
    · intro q hq
      obtain ⟨y, hy, rest⟩ := m.linked.live q hq
      refine ⟨y, ?_, rest⟩
      rw [Function.update_of_ne]
      · exact hy
      · rintro rfl
        exact none _ hy
    · intro y id
      change s.upgrade y = some id ↔ _
      rw [m.linked.upgrade y id]
      by_cases here : y = x
      · rw [here, Function.update_self]
        exact ⟨fun h => absurd h (none id), fun h => absurd h (closed id)⟩
      · rw [Function.update_of_ne here]
  have mounted : Mounted (Function.update slots x (some .closed)) (s.madeAt x) := by
    refine m.of_local loc out m.idle rfl linked fun y known => ?_
    by_cases here : y = x
    · rw [here, Function.update_self]
      rfl
    · rw [Function.update_of_ne here]
      exact known
  have entries := loc.entries m.sound out rfl
  have names : NamesKept s.entries (s.madeAt x).entries ∅ ∅ := by
    rw [entries]
    exact .refl _
  have inodes : ∀ id < s.nextInode, (s.madeAt x).inodes id = s.inodes id :=
    fun id lt => Function.update_of_ne (Nat.ne_of_lt lt) _ _
  have written : (s.madeAt x).disk x = newData.toSector := Function.update_self ..
  refine ⟨⟨before.carries mounted names before.allows ?_, ?_,
    .of_same m rfl rfl rfl (Nat.le_succ _) inodes, ?_⟩,
    ⟨Function.update_self .., m.aloof_next rfl rfl (Nat.lt_succ_self _), ?_⟩,
    entries ▸ before.unnamed reserved.slot⟩
  · intro y id hy
    obtain ⟨-, old⟩ := update_opened closed hy
    exact before.keeps names old (inodes id (m.sound.lt_nextInode old))
  · refine .of_local loc rfl (fun y mem _ => mem) (fun y _ reserved => reserved.1) ?_
    rintro y rfl z mem
    rw [Sound.mem_owned_closed (Function.update_self ..), written,
      DiskInode.ofSector_toSector (by decide) (by decide) (by decide)] at mem
    obtain rfl | run := mem
    · exact .inr (.inr rfl)
    · exact absurd run.2 (Nat.not_lt.mpr run.1)
  · rw [entries]
    exact .refl _
  · rw [written, DiskInode.ofSector_toSector (by decide) (by decide) (by decide)]
    exact Function.update_self ..

theorem reads (before : Tidy slots s) (closed : slots x = some .closed) :
    Passes slots slots s (s.readAt x) ∅ ∅ ∅ ∅ ∧ Held slots (s.readAt x) x s.nextInode := by
  have m := before.mounted
  have loc := m.sound.reads x
  have linked := m.linked.of_same (t := s.readAt x) rfl rfl rfl (Nat.le_succ _)
  have mounted := m.of_local loc (Set.notMem_empty 1) m.idle rfl linked fun _ h => h
  have names : NamesKept s.entries (s.readAt x).entries ∅ ∅ := by
    rw [loc.entries m.sound (Set.notMem_empty 1) rfl]
    exact .refl _
  have inodes : ∀ id < s.nextInode, (s.readAt x).inodes id = s.inodes id :=
    fun id lt => Function.update_of_ne (Nat.ne_of_lt lt) _ _
  refine ⟨⟨before.carries mounted names before.allows ?_, .of_empty loc rfl fun _ hy => hy,
    .of_same m rfl rfl rfl (Nat.le_succ _) inodes, names⟩,
    closed, m.aloof_next rfl rfl (Nat.lt_succ_self _), Function.update_self ..⟩
  exact fun y id hy => before.keeps names hy (inodes id (m.sound.lt_nextInode hy))

theorem adopts (before : Tidy slots s) (held : Held slots s x id) :
    Passes slots (Function.update slots x (some (.opened id))) s (s.adopted x id) {x} ∅ ∅ ∅ ∧
      (s.adopted x id).entries = s.entries := by
  have m := before.mounted
  have out : 1 ∉ ({x} : Set Nat) := by
    rintro rfl
    have slot := m.sound.root.slot
    rw [held.closed] at slot
    cases slot
  have loc : Local slots (Function.update slots x (some (.opened id))) s (s.adopted x id) {x} :=
    (m.sound.adopts held).of_files _ _ _ (m.lookup_cons _)
  have file : ((s.adopted x id).file 0).vnode = (s.file 0).vnode := by
    rw [Sys.file, Sys.adopted, m.lookup_cons, ← Sys.file]
  have linked : Linked (Function.update slots x (some (.opened id))) (s.adopted x id) := by
    refine m.linked.adopts ?_ (fun e => out e.symm) held.aloof
    intro id' h
    rw [held.closed] at h
    cases h
  have mounted : Mounted (Function.update slots x (some (.opened id))) (s.adopted x id) := by
    refine m.of_local loc out m.idle file linked fun y known => ?_
    by_cases here : y = x
    · rw [here, Function.update_self]
      rfl
    · rw [Function.update_of_ne here]
      exact known
  have entries := loc.entries m.sound out file
  have names : NamesKept s.entries (s.adopted x id).entries ∅ ∅ := by
    rw [entries]
    exact .refl _
  refine ⟨⟨before.carries mounted names ?_ ?_, ?_, ?_, entries ▸ .refl _⟩, entries⟩
  · intro f hf
    obtain rfl | old := List.mem_cons.mp hf
    · rfl
    · exact before.allows f old
  · intro y id' hy
    by_cases here : y = x
    · rw [here, Function.update_self] at hy
      cases hy
      change (_ → (s.inodes id).desc.shrinkLen = 0 ∨ _) ∧ ((s.inodes id).desc.removed = true → _)
      rw [held.inode]
      exact ⟨fun _ => .inl rfl, fun removed => by cases removed⟩
    · rw [Function.update_of_ne here] at hy
      exact before.keeps names hy rfl
  · refine .of_local loc rfl (fun y mem _ => mem) (fun y _ reserved => reserved.1) ?_
    rintro y rfl z mem
    rw [mem_owned_opened (Function.update_self ..)] at mem
    change z = y ∨ (s.inodes id).Owns z at mem
    rw [held.inode] at mem
    exact .inl ((Sound.mem_owned_closed held.closed z).mpr mem)
  · refine ⟨?_, fun q hq _ => List.mem_cons_of_mem _ hq,
      fun q _ => ⟨rfl, fun _ => rfl⟩, ?_, Nat.le_succ _⟩
    · intro id' aloof other
      have apart : id' ≠ id := by
        rintro rfl
        apply other
        rw [held.inode]
        rfl
      refine ⟨⟨aloof.lt, ?_, ?_⟩, rfl⟩
      · intro y hy
        change Function.update s.inodeTable x (some id) y = some id' at hy
        by_cases here : y = x
        · rw [here, Function.update_self] at hy
          exact apart (Option.some.inj hy).symm
        · rw [Function.update_of_ne here] at hy
          exact aloof.table y hy
      · intro q hq
        obtain rfl | old := List.mem_cons.mp hq
        · exact apart.symm
        · exact aloof.links q old
    · intro q hq
      obtain rfl | old := List.mem_cons.mp hq
      · exact .inr le_rfl
      · exact .inl old

/-- The name of a new file is written to an unused place of the directory. -/
theorem inserts (before : Tidy slots s) (hx : slots x = some (.opened id)) (ne : x ≠ 1)
    (stays : (s.inodes id).desc.removed = false) (named : WellNamed path) {e₀ : OsError}
    (missing : Fs.RootDir.find path s.entries = .error e₀) {i : Nat}
    (slot : s.entries.findIdx? (fun e => !e.isValid) = some i) (q : Nat) :
    Passes slots slots s ((s.wrote (s.inodeOf 0).data.start (32 * i)
      (entryOf path x).toBytes).setPos 0 q) {x} {x} ∅ ∅ ∧
      Fs.RootDir.find path ((s.wrote (s.inodeOf 0).data.start (32 * i)
        (entryOf path x).toBytes).setPos 0 q).entries = .ok x := by
  have m := before.mounted
  have marked := m.sound.marked ((mem_owned_opened hx x).mpr (.inl rfl))
  have small : x < 2 ^ 32 := lt_trans (m.sound.in_disk x marked) m.sound.size_lt
  have bound : i < (s.inodeOf 0).data.len / 32 := by
    have := (List.findIdx?_eq_some_iff_findIdx_eq.mp slot).1
    rwa [length_entries] at this
  have fits : 32 * i + (entryOf path x).toBytes.length ≤ (s.inodes (s.file 0).vnode).total := by
    rw [DirEntry.length_toBytes, Inode.total]
    change i < (s.inodes (s.file 0).vnode).data.len / 32 at bound
    omega
  have wrote := m.sound.wrote m.sound.root.slot fits
  have both := wrote.trans (wrote.sound.setPos q)
  generalize ht : (s.wrote (s.inodeOf 0).data.start (32 * i)
    (entryOf path x).toBytes).setPos 0 q = t
  change Local _ _ _ ((s.wrote (s.inodeOf 0).data.start (32 * i)
    (entryOf path x).toBytes).setPos 0 q) _ at both
  rw [ht] at both
  have links : t.links = s.links := by
    rw [← ht]
    exact links_setPos _ 0 q
  have table : t.inodeTable = s.inodeTable := by
    rw [← ht]
    rfl
  have file : t.nextFile = s.nextFile := by
    rw [← ht]
    rfl
  have next : t.nextInode = s.nextInode := by
    rw [← ht]
    rfl
  have inodes : t.inodes = s.inodes := by
    rw [← ht]
    rfl
  have ready : FileReady s 0 := ⟨m.sound.root.known, by simp [m.idle], by simp [m.idle]⟩
  have entries : t.entries = s.entries.set i (entryOf path x) := by
    rw [← ht]
    exact inserted_entries ready small _ i q _ rfl rfl
  have names : NamesKept s.entries t.entries {x} ∅ := by
    rw [entries]
    exact .set slot _
  have mounted : Mounted slots t := by
    refine ⟨?_, both.sound, m.linked.of_same links file table (le_of_eq next.symm), ?_, ?_⟩
    · rw [← ht]
      exact m.idle
    · rw [entries]
      intro e he valid
      obtain old | rfl := List.mem_or_eq_of_mem_set he
      · exact m.readable e old valid
      · exact isUtf8_entryOf named.ascii named.short x
    · rw [entries]
      intro e he valid
      obtain old | rfl := List.mem_or_eq_of_mem_set he
      · exact m.known e old valid
      · refine ⟨?_, ne⟩
        change (slots x).isSome
        rw [hx]
        rfl
  have distinct : Distinct t.entries := by
    rw [entries]
    refine before.distinct.set ?_ i
    rw [cstr_entryOf named]
    exact absent_of_find m.readable missing
  refine ⟨⟨⟨mounted, distinct, ?_, ?_, ?_⟩, ?_, .of_same m links table file
    (le_of_eq next.symm) fun _ _ => by rw [inodes],
    names⟩, ?_⟩
  · rw [← ht]
    exact allows_setPos (s := s.wrote (s.inodeOf 0).data.start (32 * i) (entryOf path x).toBytes)
      before.allows 0 q
  · rw [inodes]
    exact before.brief
  · rw [inodes]
    intro y id' hy removed
    refine names.unnamed (before.removed y id' hy removed) ?_
    rintro rfl
    rw [hx] at hy
    cases hy
    rw [stays] at removed
    cases removed
  · have bits : t.freeMap = s.freeMap := by
      rw [← ht]
      rfl
    refine .of_local both (congrArg FreeMap.size bits) ?_
      (fun y _ reserved => bits ▸ reserved.1) ?_
    · rintro y (rfl | none) closed
      · rw [m.sound.root.slot] at closed
        cases closed
      · exact none.elim
    · rintro y (rfl | none) z mem
      · rw [mem_owned_opened m.sound.root.slot, inodes] at mem
        exact .inl ((mem_owned_opened m.sound.root.slot z).mpr mem)
      · exact none.elim
  · rw [entries]
    exact find_set m.readable named missing slot x

/-! ## Sections of a file that is there -/

theorem cuts (before : Tidy slots s) (hx : slots x = some (.opened id)) (ne : x ≠ 1)
    (change : Resized s t id 0) :
    Passes slots slots s t ∅ ∅ ∅ ∅ := by
  have m := before.mounted
  have loc := m.sound.resized hx ne (by norm_num) change
  have mounted := (m.resized hx ne (by norm_num) change).mounted
  obtain ⟨links, file, table, next, -, root⟩ := resized_fields change
  have out : 1 ∉ ({x} : Set Nat) := fun h => ne h.symm
  have entries := loc.entries m.sound out (by rw [root])
  have names : NamesKept s.entries t.entries ∅ ∅ := by
    rw [entries]
    exact .refl _
  have others : ∀ id', id' ≠ id → t.inodes id' = s.inodes id' := by
    intro id' apart
    rw [change.frame]
    exact Function.update_of_ne apart _ _
  have removed : (t.inodes id).desc.removed = (s.inodes id).desc.removed := by rw [change.desc]
  have sector : (t.inodes id).desc.sector = (s.inodes id).desc.sector := by rw [change.desc]
  refine ⟨before.carries mounted names ?_ ?_, ?_, ?_, names⟩
  · rw [change.frame]
    exact before.allows
  · intro y id' hy
    by_cases here : id' = id
    · rw [here, removed, change.len]
      refine ⟨fun _ => .inr rfl, fun gone => names.unnamed
        (before.removed y id (here ▸ hy) gone) (Set.notMem_empty y)⟩
    · exact before.keeps names hy (others id' here)
  · refine .of_local loc change.size ?_ ?_ ?_
    · rintro y rfl closed
      rw [hx] at closed
      cases closed
    · intro y _ reserved
      have old : ¬(s.inodes id).Owns y := fun own => reserved.2 x
        ((mem_owned_opened hx y).mpr (.inr own))
      have new : ¬(t.inodes id).Owns y := by
        intro own
        obtain mine | free := change.grown y own
        · exact old mine
        · rw [reserved.1] at free
          cases free
      rw [change.kept y old new]
      exact reserved.1
    · rintro y rfl z mem
      rw [mem_owned_opened hx] at mem ⊢
      obtain here | own := mem
      · exact .inl (.inl here)
      · exact (change.grown z own).imp .inr .inl
  · refine .of_inodes m links table file (le_of_eq next.symm) fun id' _ => ?_
    by_cases here : id' = id
    · rw [here]
      exact .inr ⟨(upgrade_iff.mp ((m.linked.upgrade x id).mpr hx)).2, sector, fun _ => removed⟩
    · exact .inl (others id' here)

end Tidy

/-! ## Dropping a descriptor -/

theorem ArcsKept.of_dropped (links : t.links = s.links.filter (·.1 != h))
    (table : t.inodeTable = s.inodeTable)
    (file : t.nextFile = s.nextFile) (next : t.nextInode = s.nextInode)
    (inodes : t.inodes = s.inodes) :
    ArcsKept s t X {h} := by
  have old : ∀ q ∈ t.links, q ∈ s.links := by
    rw [links]
    exact fun q hq => (List.mem_filter.mp hq).1
  refine ⟨?_, ?_, ?_, fun q hq => .inl (old q hq), le_of_eq file.symm⟩
  · intro id aloof _
    exact ⟨⟨next ▸ aloof.lt, table ▸ aloof.table, fun q hq =>
      aloof.links q (old q hq)⟩, by rw [inodes]⟩
  · rw [links]
    exact fun q hq stays => List.mem_filter.mpr ⟨hq, bne_iff_ne.mpr stays⟩
  · rw [inodes]
    exact fun q _ => ⟨rfl, fun _ => rfl⟩

/-- What is given back of a removed inode in the end. -/
def Inode.Rest (i : Inode) (y : Nat) : Prop :=
  i.desc.removed = true ∧ (y = i.desc.sector ∨ i.Head y)

/-- An inode that has left memory and is still to be closed; the sectors in `Y` it has to give
back. -/
structure Dying (slots : Slots) (s : Sys) (i : Inode) (Y : Set Nat) : Prop where
  total : i.total < 2 ^ 32
  fits : i.data.start + i.sectors ≤ s.freeMap.size
  apart : ¬i.Owns i.desc.sector
  brief : i.desc.shrinkLen = 0 ∨ i.data.len = 0
  reserved : ∀ y ∈ Y, Reserved slots s y
  unnamed : i.desc.removed = true → Unnamed s.entries i.desc.sector

theorem Dying.passes {i : Inode} (p : Passes slots slots' s t X N S gone)
    (dying : Dying slots s i Y) (out : ∀ y ∈ Y, y ∉ X)
    (new : i.desc.removed = true → i.desc.sector ∉ N) : Dying slots' t i Y :=
  ⟨dying.total, p.sectors.size.symm ▸ dying.fits, dying.apart, dying.brief,
    fun y mem => p.sectors.reserved y (out y mem) (dying.reserved y mem),
    fun removed => p.names.unnamed (dying.unnamed removed) (new removed)⟩

namespace Sound

/-- What closing an inode in memory gives back is among its sectors. -/
theorem owned_of_given (sound : Sound slots s) (hx : slots x = some (.opened id))
    (given : (s.inodes id).Tail y ∨ (s.inodes id).Rest y) : y ∈ owned slots s x := by
  rw [mem_owned_opened hx]
  obtain tail | ⟨-, here | head⟩ := given
  · exact .inr tail.owns
  · exact .inl (here.trans (sound.sector_eq hx))
  · exact .inr head.owns

/-- An inode that has left memory has its own sector and those of its length, unless it was
removed. -/
theorem owned_leftover (sound : Sound slots s) (hx : slots x = some (.opened id))
    (disk : t.disk = s.disk)
    (mem : y ∈ owned (Function.update slots x (leftover (s.inodes id))) t x) :
    (s.inodes id).desc.removed = false ∧ (y = x ∨ (s.inodes id).Head y) := by
  by_cases removed : (s.inodes id).desc.removed = true
  · refine absurd mem (not_mem_owned_none ?_ y)
    rw [Function.update_self, leftover, if_pos removed]
  · have slot : Function.update slots x (leftover (s.inodes id)) x = some .closed := by
      rw [Function.update_self, leftover, if_neg removed]
    rw [mem_owned_closed slot, disk, sound.ofSector_eq hx] at mem
    exact ⟨Bool.eq_false_iff.mpr removed, mem⟩

end Sound

namespace Tidy

theorem allows_dropped (before : Tidy slots s) (h : Nat) :
    ∀ p ∈ (s.dropped h).files, p.2.denyWrite = false :=
  fun p hp => before.allows p (List.mem_filter.mp hp).1

/-- A descriptor goes whose inode has another one. -/
theorem leaves (before : Tidy slots s) {f : File} (mine : (h, f) ∈ s.files) (nonzero : h ≠ 0)
    (more : (s.dropped h).referenced f.vnode = true) :
    Passes slots slots s (s.dropped h) ∅ ∅ ∅ {h} := by
  have m := before.mounted
  obtain ⟨x, hx, ne⟩ := m.slot_of_mem mine nonzero
  have root := lookup_dropped s nonzero
  have vnode : ((s.dropped h).file 0).vnode = (s.file 0).vnode := by rw [Sys.file, root, ← Sys.file]
  have out : 1 ∉ ({x} : Set Nat) := fun e => ne e.symm
  have loc : Local slots slots s (s.dropped h) {x} :=
    (m.sound.refl (x := x)).of_files (s.dropped h).files s.nextFile s.inodeTable root
  have linked : Linked slots (s.dropped h) :=
    m.linked.dropOne (List.mem_map.mpr ⟨(h, f), mine, rfl⟩) (links_dropped s h) rfl rfl le_rfl
      (referenced_iff.mp more)
  have mounted := m.of_local loc out m.idle vnode linked fun _ known => known
  have names : NamesKept s.entries (s.dropped h).entries ∅ ∅ := by
    rw [loc.entries m.sound out vnode]
    exact .refl _
  have same : SectorsKept slots slots s (s.dropped h) ∅ := by
    refine .of_local loc rfl ?_ (fun y _ reserved => reserved.1) fun _ _ _ mem => .inl mem
    rintro y rfl shut
    rw [hx] at shut
    cases shut
  exact ⟨before.carries mounted names (before.allows_dropped h)
    fun y id hy => before.keeps names hy rfl,
    same, .of_dropped (links_dropped s h) rfl rfl rfl rfl, names⟩

/-- The last descriptor of an inode goes. What closing the inode gives back is nobody's from here
on. -/
theorem leavesLast (before : Tidy slots s) {f : File} (mine : (h, f) ∈ s.files) (nonzero : h ≠ 0)
    (hx : slots x = some (.opened f.vnode))
    (last : (s.dropped h).referenced f.vnode = false) :
    Passes slots (Function.update slots x (leftover (s.inodes f.vnode))) s (s.dropped h)
        ∅ ∅ ∅ {h} ∧
      Dying (Function.update slots x (leftover (s.inodes f.vnode))) (s.dropped h)
        (s.inodes f.vnode) {y | (s.inodes f.vnode).Tail y ∨ (s.inodes f.vnode).Rest y} := by
  have m := before.mounted
  have settled := m.sound.settled hx
  have sector := m.sound.sector_eq hx
  have ne : x ≠ 1 := by
    obtain ⟨x', hx', ne⟩ := m.slot_of_mem mine nonzero
    rwa [m.sound.opened_inj hx hx']
  have mine' : ∀ y, y = x ∨ (s.inodes f.vnode).Owns y → y ∈ owned slots s x :=
    fun y => (mem_owned_opened hx y).mpr
  have root := lookup_dropped s nonzero
  have vnode : ((s.dropped h).file 0).vnode = (s.file 0).vnode := by rw [Sys.file, root, ← Sys.file]
  have out : 1 ∉ ({x} : Set Nat) := fun e => ne e.symm
  have loc : Local slots slots s (s.dropped h) {x} :=
    (m.sound.refl (x := x)).of_files (s.dropped h).files s.nextFile s.inodeTable root
  have both : Local slots (Function.update slots x (leftover (s.inodes f.vnode))) s (s.dropped h)
      ({x} ∪ {x}) :=
    loc.trans (loc.sound.releases hx ne (leftover (s.inodes f.vnode)) (leftover_cases _)
      (n := s.freeMap) rfl (fun _ marked => marked) (fun _ _ _ => rfl)
      fun _ y hy => m.sound.marked (mine' y (hy.imp_right Inode.Head.owns)))
  have entries := loc.entries m.sound out vnode
  have linked : Linked (Function.update slots x (leftover (s.inodes f.vnode))) (s.dropped h) := by
    refine m.linked.dropLast hx (fun x' h' => m.sound.opened_inj h' hx) (leftover_ne_opened _)
      (links_dropped s h) (List.mem_map.mpr ⟨(h, f), mine, rfl⟩) rfl rfl le_rfl ?_
    rw [← referenced_iff, last]
    exact Bool.false_ne_true
  have mounted : Mounted (Function.update slots x (leftover (s.inodes f.vnode)))
      (s.dropped h) := by
    refine ⟨m.idle, both.sound, linked, entries ▸ m.readable, ?_⟩
    rw [entries]
    intro e he valid
    obtain ⟨known, other⟩ := m.known e he valid
    refine ⟨?_, other⟩
    by_cases here : e.inum = x
    · rw [here, Function.update_self, leftover]
      split
      · rename_i removed
        exact absurd here (before.removed x f.vnode hx removed e he valid)
      · rfl
    · rw [Function.update_of_ne here]
      exact known
  have names : NamesKept s.entries (s.dropped h).entries ∅ ∅ := by
    rw [entries]
    exact .refl _
  have less : ∀ z ∈ owned (Function.update slots x (leftover (s.inodes f.vnode))) (s.dropped h) x,
      (s.inodes f.vnode).desc.removed = false ∧ (z = x ∨ (s.inodes f.vnode).Head z) :=
    fun _ mem => m.sound.owned_leftover hx rfl mem
  refine ⟨⟨before.carries mounted names (before.allows_dropped h) ?_, .of_local both rfl ?_
    (fun y _ reserved => reserved.1) ?_, .of_dropped (links_dropped s h) rfl rfl rfl rfl, names⟩,
    settled.total_lt, settled.fits, settled.apart, before.brief x f.vnode hx ne, ?_, ?_⟩
  · exact fun y id hy => before.keeps names (update_opened (leftover_ne_opened _) hy).2 rfl
  · rintro y (rfl | rfl) shut
    · rw [hx] at shut
      cases shut
    · rw [hx] at shut
      cases shut
  · rintro y (rfl | rfl) z mem
    · exact .inl (mine' z ((less z mem).2.imp_right Inode.Head.owns))
    · exact .inl (mine' z ((less z mem).2.imp_right Inode.Head.owns))
  · intro y gone
    have own := m.sound.owned_of_given hx gone
    refine ⟨m.sound.marked own, fun z mem => ?_⟩
    by_cases here : z = x
    · subst here
      obtain ⟨stays, kept⟩ := less y mem
      obtain tail | ⟨removed, -⟩ := gone
      · obtain rfl | head := kept
        · exact settled.apart (sector.symm ▸ tail.owns)
        · exact tail.not_head head
      · rw [stays] at removed
        cases removed
    · rw [both.owned z (by rintro (same | same) <;> exact here same)] at mem
      exact m.sound.other here mem own
  · intro removed
    rw [sector]
    exact entries ▸ before.removed x f.vnode hx removed

/-- Sectors that are nobody's are given back. -/
theorem gives (before : Tidy slots s) {n : FreeMap} (size : n.size = s.freeMap.size)
    (fewer : ∀ y, n.bit y = true → s.freeMap.bit y = true)
    (kept : ∀ y ∉ Y, n.bit y = s.freeMap.bit y) (reserved : ∀ y ∈ Y, Reserved slots s y) :
    Passes slots slots s { s with freeMap := n } Y ∅ ∅ ∅ := by
  have m := before.mounted
  have loc : Local slots slots s { s with freeMap := n } ∅ := by
    refine m.sound.remaps size (fun y hy => m.sound.in_disk y (fewer y hy)) fun x y own => ?_
    rw [kept y fun mem => (reserved y mem).2 x own]
    exact m.sound.marked own
  have mounted : Mounted slots { s with freeMap := n } :=
    ⟨m.idle, loc.sound, m.linked.of_same rfl rfl rfl le_rfl, m.readable, m.known⟩
  have names : NamesKept s.entries ({ s with freeMap := n } : Sys).entries ∅ ∅ := .refl _
  refine ⟨before.carries mounted names before.allows fun x id hx => before.keeps names hx rfl,
    .of_local loc size (fun _ none _ => none.elim) ?_ (fun _ none => none.elim),
    .of_same m rfl rfl rfl le_rfl fun _ _ => rfl, names⟩
  intro y out reserved
  exact (kept y out).trans reserved.1

/-- The first step of closing: the sectors behind the length are given back. -/
theorem trims (before : Tidy slots s) {i : Inode} (dying : Dying slots s i Y)
    (tail : ∀ y, i.Tail y → y ∈ Y) :
    ∃ n, Inode.trim i s = .ok () { s with freeMap := n } ∧
      Passes slots slots s { s with freeMap := n } {y | i.Tail y} ∅ ∅ ∅ := by
  have m := before.mounted
  have reserved : ∀ y, i.Tail y → Reserved slots s y := fun y hy => dying.reserved y (tail y hy)
  obtain ⟨e, -, some, huge⟩ | ⟨n, done, size, bit⟩ := trim_ends (i := i) (s := s)
    (by simp [m.idle]) m.sound.size_lt dying.fits fun y hy => (reserved y hy).1
  · obtain none | empty := dying.brief
    · exact absurd some (by omega)
    · exact absurd huge (by omega)
  · refine ⟨n, done, before.gives size ?_ ?_ reserved⟩
    · intro y marked
      rw [bit, Bool.and_eq_true] at marked
      exact marked.1
    · intro y out
      have stays : ¬i.Tail y := out
      rw [bit, decide_eq_false stays, Bool.not_false, Bool.and_true]

end Tidy

/-! ## Removing by number -/

def Sys.marked (s : Sys) (id : Nat) : Sys := { s with
  inodes := Function.update s.inodes id ⟨{ (s.inodes id).desc with removed := true },
    (s.inodes id).data⟩ }

namespace Tidy

theorem strikes (before : Tidy slots s) (x q : Nat)
    (names : NamesKept s.entries (s.entries.map (DirEntry.strike x)) ∅ S) :
    Passes slots slots s ((s.strike x 0).setPos 0 q) ∅ ∅ S ∅ := by
  have m := before.mounted
  have both := (m.sound.strikes x).trans ((m.sound.strikes x).sound.setPos q)
  rw [← entries_struck m.sound x q] at names
  refine ⟨before.carries (m.strike x q).mounted names
    (allows_setPos (s := s.strike x 0) before.allows 0 q)
    fun y id hy => before.keeps names hy rfl,
    .of_local both rfl ?_ (fun y _ reserved => reserved.1) ?_,
    .of_same m (links_setPos _ 0 q) rfl rfl le_rfl fun _ _ => rfl, names⟩
  · rintro y (rfl | none) shut
    · rw [m.sound.root.slot] at shut
      cases shut
    · exact none.elim
  · rintro y (rfl | none) z mem
    · rw [mem_owned_opened m.sound.root.slot] at mem
      exact .inl ((mem_owned_opened m.sound.root.slot z).mpr mem)
    · exact none.elim

theorem marks (before : Tidy slots s) (hx : slots x = some (.opened id)) (ne : x ≠ 1)
    (unnamed : Unnamed s.entries x) :
    Passes slots slots s (s.marked id) {x} ∅ ∅ ∅ := by
  have m := before.mounted
  have loc : Local slots slots s (s.marked id) {x} := m.sound.describe hx ne rfl rfl
  have mounted : Mounted slots (s.marked id) :=
    (m.describe hx ne (d := { (s.inodes id).desc with removed := true }) rfl rfl).mounted
  have links : (s.marked id).links = s.links := rfl
  have table : (s.marked id).inodeTable = s.inodeTable := rfl
  have file : (s.marked id).nextFile = s.nextFile := rfl
  have next : (s.marked id).nextInode = s.nextInode := rfl
  generalize ht : s.marked id = t at loc mounted links table file next ⊢
  have here : t.inodes id = ⟨{ (s.inodes id).desc with removed := true }, (s.inodes id).data⟩ := by
    rw [← ht]
    exact Function.update_self ..
  have others : ∀ id', id' ≠ id → t.inodes id' = s.inodes id' := by
    intro id' apart
    rw [← ht]
    exact Function.update_of_ne apart _ _
  have entries : t.entries = s.entries := loc.entries m.sound
    (fun e => ne e.symm) (by rw [← ht]; rfl)
  have names : NamesKept s.entries t.entries ∅ ∅ := by
    rw [entries]
    exact .refl _
  refine ⟨before.carries mounted names ?_ ?_, ?_, ?_, entries ▸ .refl _⟩
  · rw [← ht]
    exact before.allows
  · intro y id' hy
    by_cases same : id' = id
    · subst same
      obtain rfl := m.sound.opened_inj hx hy
      rw [here]
      exact ⟨before.brief x id' hx, fun _ => entries ▸ unnamed⟩
    · exact before.keeps names hy (others id' same)
  · refine .of_local loc (by rw [← ht]; rfl) (fun y mem _ => mem)
      (fun y _ reserved => by rw [← ht]; exact reserved.1) ?_
    rintro y rfl z mem
    rw [mem_owned_opened hx, here] at mem
    exact .inl ((mem_owned_opened hx z).mpr mem)
  · refine .of_inodes m links table file (le_of_eq next.symm) fun id' _ => ?_
    by_cases same : id' = id
    · rw [same]
      refine .inr ⟨(upgrade_iff.mp ((m.linked.upgrade x id).mpr hx)).2, by rw [here], fun out => ?_⟩
      rw [m.sound.sector_eq hx] at out
      exact absurd rfl out
    · exact .inl (others id' same)

end Tidy

namespace Passes

variable {slots'' : Slots} {u : Sys}

/-- A section that makes no name and lets go of no descriptor, and then another one. -/
theorem trans (first : Passes slots slots s t ∅ ∅ S ∅)
    (second : Passes slots slots' t u X ∅ ∅ gone) : Passes slots slots' s u X ∅ S gone := by
  refine ⟨second.tidy, ⟨second.sectors.size.trans first.sectors.size, ?_, ?_⟩,
    ⟨?_, ?_, ?_, ?_, first.arcs.next.trans second.arcs.next⟩, ⟨?_, ?_⟩⟩
  · intro y out closed
    obtain ⟨between, disk⟩ := first.sectors.closed y (Set.notMem_empty y) closed
    obtain ⟨after, disk'⟩ := second.sectors.closed y out between
    exact ⟨after, disk'.trans disk⟩
  · exact fun y out reserved => second.sectors.reserved y out
      (first.sectors.reserved y (Set.notMem_empty y) reserved)
  · intro id aloof out
    obtain ⟨between, same⟩ := first.arcs.aloof id aloof (Set.notMem_empty _)
    obtain ⟨after, same'⟩ := second.arcs.aloof id between (same ▸ out)
    exact ⟨after, same'.trans same⟩
  · exact fun q hq stays => second.arcs.kept q (first.arcs.kept q hq (Set.notMem_empty _)) stays
  · intro q hq
    obtain ⟨sector, removed⟩ := first.arcs.inode q hq
    obtain ⟨sector', removed'⟩ := second.arcs.inode q (first.arcs.kept q hq (Set.notMem_empty _))
    refine ⟨sector'.trans sector, fun out => ?_⟩
    exact (removed' (sector ▸ out)).trans (removed (Set.notMem_empty _))
  · intro q hq
    obtain mid | new := second.arcs.old q hq
    · exact first.arcs.old q mid
    · exact .inr (first.arcs.next.trans new)
  · exact fun k e here valid out => second.names.place k e
      (first.names.place k e here valid out) valid (Set.notMem_empty _)
  · intro k e here valid
    obtain mid | new := second.names.named k e here valid
    · exact first.names.named k e mid valid
    · exact .inr new

end Passes

namespace Tidy

/-- The last step of closing a removed inode, which has no name any more. -/
theorem erases (before : Tidy slots s) {i : Inode} (removed : i.desc.removed = true)
    (dying : Dying slots s i {y | i.Rest y}) :
    ∃ q n, Inode.erase i s = .ok () (s.forget i.desc.sector q n) ∧
      Passes slots slots s (s.forget i.desc.sector q n) {y | i.Rest y} ∅ ∅ ∅ := by
  have m := before.mounted
  have home : Reserved slots s i.desc.sector := dying.reserved _ ⟨removed, .inl rfl⟩
  have fits := dying.fits
  have total := dying.total
  rw [Inode.sectors, Inode.total] at fits
  rw [Inode.total] at total
  have root : RootReady s :=
    ⟨⟨m.sound.root.known, by simp [m.idle], by simp [m.idle]⟩, m.sound.root.len,
      m.sound.root.allowed⟩
  obtain ⟨q, n, done, size, bit⟩ := erase_ends removed root (by simp [m.idle]) (by simp [m.idle])
    m.sound.size_lt (by omega) (by omega) (m.sound.in_disk _ home.1)
    (fun y head => (dying.reserved y ⟨removed, .inr head⟩).1) home.1
    fun head => dying.apart head.owns
  have struck := before.strikes i.desc.sector q (S := ∅)
    (.strike_unnamed (dying.unnamed removed))
  refine ⟨q, n, done, struck.trans (struck.tidy.gives size ?_ ?_ ?_)⟩
  · intro y marked
    rw [bit, Bool.and_eq_true] at marked
    exact marked.1
  · intro y out
    have stays : ¬(y = i.desc.sector ∨ i.Head y) := fun rest => out ⟨removed, rest⟩
    rw [bit, decide_eq_false stays, Bool.not_false, Bool.and_true]
    rfl
  · exact fun y rest => struck.sectors.reserved y (Set.notMem_empty y) (dying.reserved y rest)

end Tidy

end Tacos.Fs
