/- GID: Tacos/Fs/Life
   generality: I
   source: src/fs/disk.rs, src/fs/disk/inode.rs, src/fs/disk/free_map.rs
   digest: The life of one file, from its creation to its removal, and whether all its sectors
     come back. -/

import Tacos.Fs.Content
import Tacos.Fs.Handles

set_option autoImplicit false
set_option relaxedAutoImplicit false

namespace Tacos.Fs

open Tacos.Lib.Exec Tacos.Lib.Ownership Tacos.Lib.Run FreeMap Inode RootDir
open Store (emptyDisk blank_emptyDisk)

/-- When the sectors of a length and those given back for what was cut off are all that a file
has. -/
def Rounded (len total : Nat) : Prop := total % 512 = 0 ∨ 0 < len % 512 ∧ len % 512 ≤ total % 512

instance (len total : Nat) : Decidable (Rounded len total) := inferInstanceAs (Decidable (_ ∨ _))

theorem Inode.owns_of_rounded {i : Inode} (rounded : Rounded i.data.len i.total)
    {y : Nat} (mine : i.Owns y) :
    i.Head y ∨ i.Tail y := by
  have low := mine.1
  have high := mine.2
  rw [Inode.sectors] at high
  rw [Rounded] at rounded
  rw [Inode.total] at rounded high
  unfold Inode.Head Inode.Tail InRun
  omega

theorem Inode.lost_of_not_rounded {i : Inode} (rounded : ¬Rounded i.data.len i.total) :
    ∃ y, i.Owns y ∧ ¬i.Head y ∧ ¬i.Tail y := by
  refine ⟨i.data.start + (i.data.len + 511) / 512 + i.desc.shrinkLen / 512, ?_⟩
  rw [Rounded] at rounded
  rw [Inode.total] at rounded
  unfold Inode.Owns Inode.Head Inode.Tail InRun
  rw [Inode.sectors, Inode.total]
  omega

/-- Apart from some sectors, which were free, the map is as it was in `s₀`. -/
structure Exact (s₀ s : Sys) (own : Nat → Prop) : Prop where
  size : s.freeMap.size = s₀.freeMap.size
  free : ∀ y, own y → s₀.freeMap.bit y = false
  rest : ∀ y, ¬own y → s.freeMap.bit y = s₀.freeMap.bit y

/-- A sector that was free is marked without being one of these. -/
def Leaked (s₀ s : Sys) (own : Nat → Prop) : Prop :=
  ∃ y, ¬own y ∧ s₀.freeMap.bit y = false ∧ s.freeMap.bit y = true

/-- The sector of an inode in memory or one of its data. -/
def Mine (s : Sys) (x id y : Nat) : Prop := y = x ∨ (s.inodes id).Owns y

/-- The sectors that are left to an inode when it is closed. -/
def Left (i : Inode) (x y : Nat) : Prop := i.desc.removed = false ∧ (y = x ∨ i.Head y)

variable {slots slots' : Slots} {s s₀ t : Sys} {x id h n : Nat} {path : Path}
    {own own' : Nat → Prop}

theorem Exact.congr (same : Exact s₀ s own) (map : t.freeMap = s.freeMap)
    (iff : ∀ y, own' y ↔ own y) :
    Exact s₀ t own' := by
  refine ⟨map ▸ same.size, fun y mine => same.free y ((iff y).mp mine), fun y other => ?_⟩
  rw [map]
  exact same.rest y fun mine => other ((iff y).mpr mine)

theorem Leaked.congr (leaked : Leaked s₀ s own) (map : t.freeMap = s.freeMap)
    (iff : ∀ y, own' y ↔ own y) :
    Leaked s₀ t own' := by
  obtain ⟨y, other, free, marked⟩ := leaked
  exact ⟨y, fun mine => other ((iff y).mp mine), free, map ▸ marked⟩

theorem Exact.resized (same : Exact s₀ s (Mine s x id)) (change : Resized s t id n) :
    Exact s₀ t (Mine t x id) := by
  refine ⟨change.size.trans same.size, ?_, ?_⟩
  · rintro y (rfl | mine)
    · exact same.free y (.inl rfl)
    · obtain old | free := change.grown y mine
      · exact same.free y (.inr old)
      · by_cases old : Mine s x id y
        · exact same.free y old
        · rw [← same.rest y old, free]
  · intro y other
    by_cases old : (s.inodes id).Owns y
    · rw [change.freed y old fun new => other (.inr new), same.free y (.inr old)]
    · rw [change.kept y old fun new => other (.inr new)]
      refine same.rest y ?_
      rintro (here | mine)
      · exact other (.inl here)
      · exact old mine

theorem Leaked.resized (leaked : Leaked s₀ s (Mine s x id)) (change : Resized s t id n) :
    Leaked s₀ t (Mine t x id) := by
  obtain ⟨y, other, free, marked⟩ := leaked
  have out : ¬(s.inodes id).Owns y := fun mine => other (.inr mine)
  have out' : ¬(t.inodes id).Owns y := by
    intro mine
    obtain old | clear := change.grown y mine
    · exact out old
    · rw [clear] at marked
      cases marked
  refine ⟨y, ?_, free, ?_⟩
  · rintro (here | mine)
    · exact other (.inl here)
    · exact out' mine
  · rw [change.kept y out out']
    exact marked

/-- A closed inode leaves the marks of all sectors but those of its tail and, if it is removed,
its others. -/
theorem Closed.marked_iff (closed : Closed s t id)
    (sector : (s.inodes id).desc.sector = x) (y : Nat) :
    t.freeMap.bit y = true ↔ s.freeMap.bit y = true ∧ ¬(s.inodes id).Tail y ∧
      ¬((s.inodes id).desc.removed = true ∧ (y = x ∨ (s.inodes id).Head y)) := by
  rw [closed.bit, sector, Bool.and_eq_true, Bool.and_eq_true, Bool.not_eq_true', Bool.not_eq_true',
    decide_eq_false_iff_not, decide_eq_false_iff_not, and_assoc]

theorem Leaked.closed (leaked : Leaked s₀ s (Mine s x id)) (closed : Closed s t id)
    (sector : (s.inodes id).desc.sector = x) : Leaked s₀ t (Left (s.inodes id) x) := by
  obtain ⟨y, other, free, marked⟩ := leaked
  refine ⟨y, ?_, free, (closed.marked_iff sector y).mpr
    ⟨marked, fun tail => other (.inr tail.owns), ?_⟩⟩
  · exact fun left => other (left.2.imp_right Inode.Head.owns)
  · exact fun gone => other (gone.2.imp_right Inode.Head.owns)

theorem Exact.closed (same : Exact s₀ s (Mine s x id)) (closed : Closed s t id)
    (sector : (s.inodes id).desc.sector = x)
    (rounded : Rounded (s.inodes id).data.len (s.inodes id).total) :
    Exact s₀ t (Left (s.inodes id) x) := by
  refine ⟨closed.size.trans same.size, fun y left => same.free y
    (left.2.imp_right Inode.Head.owns), ?_⟩
  intro y other
  rw [Bool.eq_iff_iff, closed.marked_iff sector]
  by_cases mine : Mine s x id y
  · rw [same.free y mine]
    simp only [Bool.false_eq_true, iff_false]
    rintro ⟨-, tail, stays⟩
    have near : y = x ∨ (s.inodes id).Head y :=
      mine.imp_right fun owns => (Inode.owns_of_rounded rounded owns).resolve_right tail
    exact other ⟨Bool.eq_false_iff.mpr fun removed => stays ⟨removed, near⟩, near⟩
  · rw [same.rest y mine]
    refine ⟨fun h => h.1, fun h => ⟨h, fun tail => mine (.inr tail.owns), ?_⟩⟩
    exact fun gone => mine (gone.2.imp_right Inode.Head.owns)

theorem Exact.lost (same : Exact s₀ s (Mine s x id)) (closed : Closed s t id)
    (sector : (s.inodes id).desc.sector = x) (settled : Settled s id)
    (rounded : ¬Rounded (s.inodes id).data.len (s.inodes id).total) :
    Leaked s₀ t (Left (s.inodes id) x) := by
  obtain ⟨y, mine, head, tail⟩ := Inode.lost_of_not_rounded rounded
  have apart : y ≠ x := by
    rintro rfl
    exact settled.apart (sector ▸ mine)
  have far : ¬(y = x ∨ (s.inodes id).Head y) := fun near => near.elim apart head
  refine ⟨y, fun left => far left.2, same.free y (.inr mine),
    (closed.marked_iff sector y).mpr ⟨?_, tail, ?_⟩⟩
  · exact settled.marked y mine
  · exact fun gone => far gone.2

/-- The file at a path has one descriptor, `h`, and is not to be removed. -/
structure Living (slots : Slots) (path : Path) (x id h : Nat) (s : Sys) : Prop where
  mounted : Mounted slots s
  found : find path s.entries = .ok x
  slot : slots x = some (.opened id)
  file : ∃ pos, (h, ⟨id, pos, false⟩) ∈ s.files
  ne : h ≠ 0
  alone : (s.dropped h).referenced id = false
  stays : (s.inodes id).desc.removed = false

/-- The length of a file and the bytes it has sectors for. -/
def extent (s : Sys) (id : Nat) : Nat × Nat := ((s.inodes id).data.len, (s.inodes id).total)

namespace Living

theorem other (living : Living slots path x id h s) : x ≠ 1 :=
  (living.mounted.slot_of_find living.found).1

theorem vnode (living : Living slots path x id h s) : (s.file h).vnode = id := by
  obtain ⟨pos, mine⟩ := living.file
  rw [living.mounted.file_of_mem mine]

theorem of_carried (living : Living slots path x id h s) (carried : Mounted slots t)
    (entries : t.entries = s.entries)
    (files : t.files = s.files)
    (removed : (t.inodes id).desc.removed = (s.inodes id).desc.removed) :
    Living slots path x id h t := by
  refine ⟨carried, entries ▸ living.found, living.slot, files ▸ living.file, living.ne, ?_,
    removed.trans living.stays⟩
  have alone := living.alone
  rw [Sys.referenced, Sys.dropped] at alone ⊢
  rw [files]
  exact alone

theorem resized (living : Living slots path x id h s) (small : n < 2 ^ 32)
    (change : Resized s t id n) :
    Living slots path x id h t := by
  have loc := living.mounted.sound.resized living.slot living.other small change
  have entries := loc.entries living.mounted.sound (fun h => living.other h.symm)
    (by rw [change.frame]; rfl)
  have files : t.files = s.files := by rw [change.frame]
  exact living.of_carried (living.mounted.resized living.slot living.other small
    change).mounted entries files
    change.removed

theorem wrote (living : Living slots path x id h s) {off : Nat} {bytes : List UInt8}
    (fits : off + bytes.length ≤ (s.inodes id).total) :
    Living slots path x id h (s.wrote (s.inodes id).data.start off bytes) := by
  have loc := living.mounted.sound.wrote living.slot fits
  have entries := loc.entries living.mounted.sound (fun h => living.other h.symm) rfl
  exact living.of_carried (living.mounted.wrote living.slot living.other fits).mounted
    entries rfl rfl

end Living

theorem Mounted.newest_alone (m : Mounted slots s)
    (links : t.links = (s.nextFile, s.nextInode) :: s.links) :
    (t.dropped s.nextFile).referenced s.nextInode = false := by
  rw [Bool.eq_false_iff, ne_eq, referenced_iff]
  rintro ⟨q, hq, same⟩
  rw [links_dropped, links, List.mem_filter, bne_iff_ne] at hq
  obtain new | old := List.mem_cons.mp hq.1
  · exact hq.2 (congrArg Prod.fst new)
  · exact absurd (m.inside q old) (by rw [same]; exact Nat.lt_irrefl _)

/-- The length with a sector more does not fit in four bytes, and it is needed. -/
def Inode.Overflows (i : Inode) : Prop := 0 < i.desc.shrinkLen ∧ 2 ^ 32 ≤ i.data.len + 512

theorem Inode.trim_overflows {i : Inode} (wide : i.Overflows) : trim i s = .halt .overflow := by
  have stop : addU32 i.data.len 512 s = .halt .overflow := by
    rw [addU32, if_neg (by have := wide.2; omega), Call.halt_apply]
  rw [trim, if_pos wide.1, Call.bind_halt stop]

/-- The last descriptor of an inode that may be written is dropped: the machine stops, or the
inode is closed. -/
theorem Mounted.drop_last (m : Mounted slots s) {pos : Nat}
    (mine : (h, ⟨id, pos, false⟩) ∈ s.files) (ne : h ≠ 0)
    (hx : slots x = some (.opened id)) (alone : (s.dropped h).referenced id = false) :
    ((s.inodes id).Overflows ∧ DiskFs.dropFile h s = .halt .overflow) ∨
      ¬(s.inodes id).Overflows ∧ ∃ t, DiskFs.dropFile h s = .ok () t ∧ Closed (s.dropped h) t id ∧
        Mounted (Function.update slots x (leftover (s.inodes id))) t := by
  by_cases wide : (s.inodes id).Overflows
  · refine .inl ⟨wide, ?_⟩
    have first : File.getFile h s = .ok ⟨id, pos, false⟩ s :=
      congrArg (fun f => Outcome.ok f s) (m.file_of_mem mine)
    rw [DiskFs.dropFile, Call.bind_ok first]
    change dropArc id (s.dropped h) = _
    rw [dropArc, Call.get_bind, alone, if_neg Bool.false_ne_true]
    refine lock_halt (show Lock.inode id ∉ s.held by simp [m.idle]) ?_
    rw [getInode_bind]
    exact Call.bind_halt (trim_overflows wide)
  · refine .inr ⟨wide, ?_⟩
    obtain ⟨e, -, ⟨denies, -⟩ | ⟨-, some, huge⟩⟩ | ⟨referenced, -⟩ |
      ⟨-, t, done, closed, carried⟩ :=
      m.dropFile_cases mine ne hx
    · cases denies
    · exact absurd ⟨some, huge⟩ wide
    · rw [alone] at referenced
      cases referenced
    · exact ⟨t, done, closed, carried.mounted⟩

/-- What closing an inode of a length does to the map: nothing that was lost comes back, and a
sector is lost when the rounding does not add up. -/
structure Shuts (s₀ s t : Sys) (own own' : Nat → Prop) (e : Nat × Nat) : Prop where
  leaks : Leaked s₀ s own → Leaked s₀ t own'
  keeps : Rounded e.1 e.2 → Exact s₀ s own → Exact s₀ t own'
  loses : ¬Rounded e.1 e.2 → Exact s₀ s own → Leaked s₀ t own'

theorem Shuts.congr {u : Sys} {left : Nat → Prop} {e : Nat × Nat} (shuts : Shuts s₀ s t own own' e)
    (map : u.freeMap = t.freeMap) (iff : ∀ y, left y ↔ own' y) : Shuts s₀ s u own left e :=
  ⟨fun leaked => (shuts.leaks leaked).congr map iff, fun rounded same =>
    (shuts.keeps rounded same).congr map iff,
    fun rounded same => (shuts.loses rounded same).congr map iff⟩

theorem Mounted.shuts (m : Mounted slots s) (hx : slots x = some (.opened id)) (ne : h ≠ 0)
    (closed : Closed (s.dropped h) t id) (s₀ : Sys) :
    Shuts s₀ s t (Mine s x id) (Left (s.inodes id) x) (extent s id) := by
  have sector : ((s.dropped h).inodes id).desc.sector = x := m.sound.sector_eq hx
  have sound : Sound slots (s.dropped h) :=
    m.sound.of_files _ s.nextFile s.inodeTable (lookup_dropped s ne)
  have exact_dropped : Exact s₀ s (Mine s x id) →
    Exact s₀ (s.dropped h) (Mine (s.dropped h) x id) :=
    fun same => same.congr rfl fun _ => Iff.rfl
  refine ⟨fun leaked => ?_, fun rounded same => ?_, fun rounded same => ?_⟩
  · have leaked : Leaked s₀ (s.dropped h) (Mine (s.dropped h) x id) :=
      leaked.congr rfl fun _ => Iff.rfl
    exact leaked.closed closed sector
  · exact (exact_dropped same).closed closed sector rounded
  · exact (exact_dropped same).lost closed sector (sound.settled hx) rounded

namespace DiskFs

/-- A write, a change of length, and a drop of the descriptor with the file opened again. -/
inductive Visit where
  | write (buf : Slice) (off : Nat)
  | resize (n : Nat)
  | reopen

/-- One of these by the holder of the descriptor of a file, if it succeeds. -/
def visit (path : Path) (st : Sys × Nat) : Visit → Option (Sys × Nat)
  | .write buf off =>
    match Inode.writeAt (st.1.file st.2).vnode buf off st.1 with
    | .ok _ t => some (t, st.2)
    | _ => none
  | .resize n =>
    match Inode.resize (st.1.file st.2).vnode n st.1 with
    | .ok _ t => some (t, st.2)
    | _ => none
  | .reopen =>
    match (do dropFile st.2; openFile path : M Nat) st.1 with
    | .ok h t => some (t, h)
    | _ => none

/-- A write or change of length succeeds and ends within four gigabytes. -/
def Served (path : Path) (st : Sys × Nat) : Visit → Prop
  | .write buf off => off + buf.bytes.length < 2 ^ 32 ∧ (visit path st (.write buf off)).isSome
  | .resize n => n < 2 ^ 32 ∧ (visit path st (.resize n)).isSome
  | .reopen => True

/-- The length and the bytes with sectors, after one of these. -/
def track (e : Nat × Nat) : Visit → Nat × Nat
  | .write buf off => (max e.1 (off + buf.bytes.length), max e.2 (max e.1 (off + buf.bytes.length)))
  | .resize n => (n, max e.2 n)
  | .reopen => (e.1, e.1)

/-- A file of this extent is closed without a loss. -/
def Closes (e : Nat × Nat) : Prop := Rounded e.1 e.2 ∧ (e.1 < e.2 → e.1 + 512 < 2 ^ 32)

/-- Each time that the file is closed, and at the end, it is closed without a loss. -/
def ClosesAlways : Nat × Nat → List Visit → Prop
  | e, [] => Closes e
  | e, .reopen :: vs => Closes e ∧ ClosesAlways (track e .reopen) vs
  | e, .write buf off :: vs => ClosesAlways (track e (.write buf off)) vs
  | e, .resize n :: vs => ClosesAlways (track e (.resize n)) vs

/-- The file is used, removed while it is open, and closed; then the free map is what it was in
`s₀`. -/
def GivesBack (path : Path) (s₀ : Sys) (st : Sys × Nat) (vs : List Visit) : Prop :=
  ∃ st' v t, run (visit path) st vs = some st' ∧ remove path st'.1 = .ok () v ∧
    dropFile st'.2 v = .ok () t ∧
    t.freeMap = s₀.freeMap

variable {vs : List Visit} {v : Visit} {st : Sys × Nat}

theorem givesBack_cons (stepped : visit path (s, h) v = some st) :
    GivesBack path s₀ (s, h) (v :: vs) ↔ GivesBack path s₀ st vs := by
  rw [GivesBack, GivesBack, run, stepped]
  rfl

theorem not_givesBack_of_none (stuck : visit path (s, h) v = none) :
    ¬GivesBack path s₀ (s, h) (v :: vs) := by
  rintro ⟨st', u, t, ran, -⟩
  rw [run, stuck] at ran
  cases ran

/-- What the map says of a file is carried along. -/
structure Follows (s t : Sys) (x id : Nat) : Prop where
  keeps : ∀ s₀, Exact s₀ s (Mine s x id) → Exact s₀ t (Mine t x id)
  leaks : ∀ s₀, Leaked s₀ s (Mine s x id) → Leaked s₀ t (Mine t x id)

theorem Follows.resized (change : Resized s t id n) : Follows s t x id :=
  ⟨fun _ same => same.resized change, fun _ leaked => leaked.resized change⟩

theorem Follows.trans {u : Sys} (first : Follows s t x id)
    (second : Follows t u x id) : Follows s u x id :=
  ⟨fun s₀ same => second.keeps s₀ (first.keeps s₀ same),
    fun s₀ leaked => second.leaks s₀ (first.leaks s₀ leaked)⟩

theorem extent_resized (change : Resized s t id n) : extent t id = (n, max (extent s id).2 n) := by
  rw [extent, extent, change.len, change.total]

theorem resize_visit (living : Living slots path x id h s) (small : n < 2 ^ 32)
    (stepped : visit path (s, h) (.resize n) = some st) :
    ∃ t, st = (t, h) ∧ Living slots path x id h t ∧ extent t id =
      track (extent s id) (.resize n) ∧ Follows s t x id := by
  have free : ∀ l, l ∉ s.held := by simp [living.mounted.idle]
  rw [visit] at stepped
  simp only [living.vnode] at stepped
  obtain ⟨t, done, change⟩ | ⟨failed, -⟩ | ⟨e, stops, -⟩ :=
    resize_ends (living.mounted.sound.settled living.slot) (free _) (free _) (free _) n
  · rw [done, Option.some.injEq] at stepped
    rw [Nat.mod_eq_of_lt small] at change
    exact ⟨t, stepped.symm, living.resized small change, extent_resized change, .resized change⟩
  · rw [failed] at stepped
    cases stepped
  · rw [stops] at stepped
    cases stepped

theorem write_visit (living : Living slots path x id h s) {buf : Slice} {off : Nat}
    (small : off + buf.bytes.length < 2 ^ 32)
    (stepped : visit path (s, h) (.write buf off) = some st) :
    ∃ t, st = (t, h) ∧ Living slots path x id h t ∧ extent t id =
      track (extent s id) (.write buf off) ∧
      Follows s t x id := by
  rw [visit] at stepped
  simp only [living.vnode] at stepped
  obtain ⟨e, failed⟩ | ⟨e, stops⟩ | ⟨u, n, bytes, change, len, bound, -, fits, ends⟩ :=
    Store.writeAt_changes (living.mounted.sound.settled living.slot) living.mounted.idle buf off
  · rw [failed] at stepped
    cases stepped
  · rw [stops] at stepped
    cases stepped
  have grown := living.resized bound change
  have target : n = max (extent s id).1 (off + buf.bytes.length) := by
    rw [len, writeLen, Nat.mod_eq_of_lt small, extent]
    split <;> omega
  have state : st = (u.wrote (u.inodes id).data.start off bytes, h) := by
    obtain ⟨cnt, done⟩ | ⟨e, failed⟩ := ends
    · rw [done, Option.some.injEq] at stepped
      exact stepped.symm
    · rw [failed] at stepped
      cases stepped
  have extentEq : extent u id = track (extent s id) (.write buf off) := by
    rw [extent_resized change, target, track]
  refine ⟨u.wrote (u.inodes id).data.start off bytes, state, ?_, extentEq,
    (Follows.resized change).trans ?_⟩
  · by_cases none : bytes = []
    · rw [none, Sys.wrote_nil]
      exact grown
    · refine grown.wrote ?_
      rw [Inode.total, change.len]
      exact le_trans (fits none) (Nat.le_add_right _ _)
  · exact ⟨fun _ same => same.congr rfl fun _ => Iff.rfl,
      fun _ leaked => leaked.congr rfl fun _ => Iff.rfl⟩

theorem Closes.inside (closes : Closes (extent s id)) : ¬(s.inodes id).Overflows := by
  rintro ⟨some, huge⟩
  have fits := closes.2
  simp only [extent, Inode.total] at fits
  omega

theorem fits_of_not_overflows (inside : ¬(s.inodes id).Overflows) :
    (extent s id).1 < (extent s id).2 → (extent s id).1 + 512 < 2 ^ 32 := by
  simp only [extent, Inode.total]
  intro more
  by_contra huge
  exact inside ⟨by omega, by omega⟩

/-- The state after a file with one descriptor was closed and opened again. -/
theorem living_reopened (living : Living slots path x id h s) (closed : Closed (s.dropped h) t id)
    (mounted : Mounted (Function.update slots x (leftover (s.inodes id))) t) :
    ∃ p slots', openFile path t = .ok t.nextFile ((t.setPos 0 p).reopened x) ∧
      Living slots' path x t.nextInode t.nextFile ((t.setPos 0 p).reopened x) ∧
        ((t.setPos 0 p).reopened x).inodes t.nextInode = ⟨.new x 0, (s.inodes id).data⟩ := by
  have leftover : leftover (s.inodes id) = some .closed := by
    rw [Fs.leftover, living.stays, if_neg Bool.false_ne_true]
  have frame := closed.frame
  change t = if (s.inodes id).desc.removed then _ else _ at frame
  rw [living.stays, if_neg Bool.false_ne_true] at frame
  rw [leftover] at mounted
  have hx : Function.update slots x (some Slot.closed) x = some .closed := Function.update_self ..
  have disk : t.disk = s.disk := by rw [frame]; rfl
  have entries : t.entries = s.entries := by
    have file : t.file 0 = s.file 0 := by
      rw [frame]
      change (s.dropped h).file 0 = _
      rw [Sys.file, Mounted.lookup_dropped s living.ne, ← Sys.file]
    rw [Sys.entries, Sys.entries, Sys.inodeOf, Sys.inodeOf, file, disk, frame]
    rfl
  have found : find path t.entries = .ok x := by rw [entries]; exact living.found
  obtain ⟨p, opened⟩ := mounted.openFile_found found
  rw [hx] at opened
  have m₁ := mounted.setPos p
  obtain ⟨loc, m₂⟩ := m₁.reopen hx
  have inode : ((t.setPos 0 p).reopened x).inodes t.nextInode = ⟨.new x 0, (s.inodes id).data⟩ := by
    have read : DiskInode.ofSector (t.disk x) = (s.inodes id).data := by
      rw [disk]
      exact living.mounted.sound.ofSector_eq living.slot
    change Function.update t.inodes t.nextInode ⟨.new x 0,
      DiskInode.ofSector (t.disk x)⟩ t.nextInode = _
    rw [Function.update_self, read]
  have file : ((t.setPos 0 p).reopened x).file 0 = (t.setPos 0 p).file 0 := by
    rw [Sys.file, Sys.reopened, m₁.lookup_cons, ← Sys.file]
  refine ⟨p, _, opened, ⟨m₂, ?_, Function.update_self ..,
    ⟨0, List.mem_cons_self⟩, ?_, ?_, ?_⟩, inode⟩
  · rw [loc.entries m₁.sound (fun h => living.other h.symm) (by rw [file]),
      mounted.entries_setPos, found]
  · exact Nat.ne_of_gt mounted.nextFile_pos
  · exact m₁.newest_alone rfl
  · rw [inode]
    rfl

/-- The file is closed and opened again, unless the rounding of its length overflows. -/
theorem reopen_visit (living : Living slots path x id h s) :
    ((s.inodes id).Overflows ∧ visit path (s, h) .reopen = none) ∨
      ¬(s.inodes id).Overflows ∧ ∃ t k slots' id', visit path (s, h) .reopen = some (t, k) ∧
        Living slots' path x id' k t ∧ extent t id' = track (extent s id) .reopen ∧
          ∀ s₀, Shuts s₀ s t (Mine s x id) (Mine t x id') (extent s id) := by
  obtain ⟨pos, mine⟩ := living.file
  obtain ⟨wide, stops⟩ | ⟨inside, t, done, closed, mounted⟩ :=
    living.mounted.drop_last mine living.ne living.slot living.alone
  · refine .inl ⟨wide, ?_⟩
    rw [visit, Call.bind_halt stops]
  obtain ⟨p, slots', opened, living', inode⟩ := living_reopened living closed mounted
  refine .inr ⟨inside, _, _, slots', t.nextInode, ?_, living', ?_, ?_⟩
  · rw [visit, Call.bind_ok done, opened]
  · rw [extent, inode]
    rfl
  · intro s₀
    have iff : ∀ y, Mine ((t.setPos 0 p).reopened x) x t.nextInode y ↔ Left (s.inodes id) x y := by
      intro y
      rw [Mine, inode]
      exact ⟨fun mine => ⟨living.stays, mine⟩, fun left => left.2⟩
    exact (living.mounted.shuts living.slot living.ne closed s₀).congr rfl iff

theorem removed_living (living : Living slots path x id h s) :
    ∃ v pos, remove path s = .ok () v ∧ Mounted slots v ∧ (h, ⟨id, pos, false⟩) ∈ v.files ∧
      (v.dropped h).referenced id = false ∧ v.freeMap = s.freeMap ∧
        v.inodes id = ⟨{ (s.inodes id).desc with removed := true }, (s.inodes id).data⟩ := by
  obtain ⟨pos, mine⟩ := living.file
  obtain ⟨p, removed, carried⟩ := living.mounted.remove_opened living.found living.slot
  refine ⟨s.removed x id p, pos, removed, carried.mounted, ?_, ?_, rfl, Function.update_self ..⟩
  · refine List.mem_map.mpr ⟨_, mine, ?_⟩
    rw [if_neg living.ne]
  · have links : (s.removed x id p).links = s.links := links_setPos _ 0 p
    have old := living.alone
    rw [Bool.eq_false_iff, ne_eq, referenced_iff, Mounted.links_dropped] at old ⊢
    rwa [links]

theorem givesBack_nil_iff {v : Sys} (removed : remove path s = .ok () v) :
    GivesBack path s₀ (s, h) [] ↔ ∃ t, dropFile h v = .ok () t ∧ t.freeMap = s₀.freeMap := by
  constructor
  · rintro ⟨st', v', t, ran, removed', done, map⟩
    cases ran
    rw [removed] at removed'
    cases removed'
    exact ⟨t, done, map⟩
  · rintro ⟨t, done, map⟩
    exact ⟨_, v, t, rfl, removed, done, map⟩

/-- Removed and closed, the file has given everything back if nothing was lost before and its
length is rounded as it should be. -/
theorem givesBack_nil (living : Living slots path x id h s) :
    (Leaked s₀ s (Mine s x id) → ¬GivesBack path s₀ (s, h) []) ∧
      (Exact s₀ s (Mine s x id) → (GivesBack path s₀ (s, h) [] ↔ Closes (extent s id))) := by
  obtain ⟨v, pos, removed, m, mine, alone, map, inode⟩ := removed_living living
  have extents : extent v id = extent s id := by
    rw [extent, inode]
    rfl
  have iff : ∀ y, Mine v x id y ↔ Mine s x id y := by
    intro y
    rw [Mine, inode]
    rfl
  rw [givesBack_nil_iff removed, ← extents]
  obtain ⟨wide, stops⟩ | ⟨inside, t, done, closed, -⟩ :=
    m.drop_last mine living.ne living.slot alone
  · have never : ¬∃ t, dropFile h v = .ok () t ∧ t.freeMap = s₀.freeMap := by
      rintro ⟨t, done, -⟩
      rw [stops] at done
      cases done
    exact ⟨fun _ => never, fun _ => ⟨fun gives => absurd gives never,
      fun closes => absurd wide closes.inside⟩⟩
  have shuts := m.shuts living.slot living.ne closed s₀
  -- Nothing is left to an inode that is removed.
  have nothing : ∀ y, ¬Left (v.inodes id) x y := by
    intro y left
    have gone := left.1
    rw [inode] at gone
    cases gone
  have lost : Leaked s₀ t (Left (v.inodes id) x) → ¬∃ t, dropFile h v = .ok () t ∧
    t.freeMap = s₀.freeMap := by
    rintro ⟨y, -, free, marked⟩ ⟨t', done', same⟩
    rw [done] at done'
    cases done'
    rw [same, free] at marked
    cases marked
  refine ⟨fun leaked => lost (shuts.leaks (leaked.congr map iff)), fun same => ?_⟩
  by_cases rounded : Rounded (extent v id).1 (extent v id).2
  · have final := shuts.keeps rounded (same.congr map iff)
    exact ⟨fun _ => ⟨rounded, fits_of_not_overflows inside⟩,
      fun _ => ⟨t, done, ext_bit final.size fun y => final.rest y (nothing y)⟩⟩
  · exact ⟨fun gives => absurd gives (lost (shuts.loses rounded (same.congr map iff))),
      fun closes => absurd closes.1 rounded⟩

theorem givesBack_iff (living : Living slots path x id h s)
    (served : Guarded (visit path) (Served path) (s, h) vs) :
    (Leaked s₀ s (Mine s x id) → ¬GivesBack path s₀ (s, h) vs) ∧
      (Exact s₀ s (Mine s x id) → (GivesBack path s₀ (s, h) vs ↔
        ClosesAlways (extent s id) vs)) := by
  induction vs generalizing slots id h s with
  | nil => exact givesBack_nil living
  | cons v vs ih =>
    obtain ⟨now, later⟩ := served
    -- A write or a change of length carries on what the map says.
    have carry : ∀ st t, visit path (s, h) v = some st → st = (t, h) → Living slots path x id h t →
        Follows s t x id → (Leaked s₀ s (Mine s x id) → ¬GivesBack path s₀ (s, h) (v :: vs)) ∧
          (Exact s₀ s (Mine s x id) → (GivesBack path s₀ (s, h) (v :: vs) ↔
            ClosesAlways (extent t id) vs)) := by
      rintro st t stepped rfl living' follows
      obtain ⟨leaks, keeps⟩ := ih living' (later _ stepped)
      rw [givesBack_cons stepped]
      exact ⟨fun leaked => leaks (follows.leaks s₀ leaked),
        fun same => keeps (follows.keeps s₀ same)⟩
    cases v with
    | write buf off =>
      obtain ⟨st, stepped⟩ := Option.isSome_iff_exists.mp now.2
      obtain ⟨t, state, living', extents, follows⟩ := write_visit living now.1 stepped
      rw [ClosesAlways, ← extents]
      exact carry st t stepped state living' follows
    | resize n =>
      obtain ⟨st, stepped⟩ := Option.isSome_iff_exists.mp now.2
      obtain ⟨t, state, living', extents, follows⟩ := resize_visit living now.1 stepped
      rw [ClosesAlways, ← extents]
      exact carry st t stepped state living' follows
    | reopen =>
      rw [ClosesAlways]
      obtain ⟨wide, stuck⟩ | ⟨inside, t, k, slots', id', stepped, living', extents, moves⟩ :=
        reopen_visit living
      · have never := fun gives => not_givesBack_of_none stuck
          (show GivesBack path s₀ _ (_ :: vs) from gives)
        exact ⟨fun _ => never, fun _ => ⟨fun gives => absurd gives never,
          fun closes => absurd wide closes.1.inside⟩⟩
      · obtain ⟨leaks, keeps⟩ := ih living' (later _ stepped)
        have shuts := moves s₀
        rw [givesBack_cons stepped, ← extents]
        refine ⟨fun leaked => leaks (shuts.leaks leaked), fun same => ?_⟩
        by_cases rounded : Rounded (extent s id).1 (extent s id).2
        · rw [keeps (shuts.keeps rounded same)]
          exact ⟨fun rest => ⟨⟨rounded, fits_of_not_overflows inside⟩, rest⟩,
            fun closes => closes.2⟩
        · exact ⟨fun gives => absurd gives (leaks (shuts.loses rounded same)),
            fun closes => absurd closes.1.1 rounded⟩

/-- A file that was just created is held open, and the map has changed by its sector only. -/
theorem created_living (m : Mounted slots s) (named : WellNamed path) {e : OsError}
    (new : find path s.entries = .error e) (created : create path s = .ok h t) :
    ∃ slots' x id, Living slots' path x id h t ∧ extent t id = (0, 0) ∧
      Exact s t (Mine t x id) := by
  obtain stops | ⟨e', u, slots', failed, -⟩ | ⟨p, x, u, done, made, mounted, loc⟩ :=
    m.create_new_cases new
  · rw [stops] at created
    cases created
  · rw [failed] at created
    cases created
  rw [created] at done
  cases done
  have inode : t.inodes s.nextInode = ⟨.new x 0, newData⟩ := made.inode
  have newFile : (s.nextFile, File.new s.nextInode) ∈ t.files := by
    obtain ⟨vnode, u, -, last⟩ := Call.bind_eq_ok.mp created
    have made_links : t.links = (s.nextFile, s.nextInode) :: (s.setPos 0 p).links := made.links
    injection last with number state
    rw [← state] at made_links ⊢
    have head : (u.nextFile, vnode) = (s.nextFile, s.nextInode) := (List.cons.inj made_links).1
    rw [← (Prod.mk.inj head).1, ← (Prod.mk.inj head).2]
    exact List.mem_cons_self
  have none : ∀ y, ¬(t.inodes s.nextInode).Owns y := by
    intro y mine
    rw [inode] at mine
    have high : y < 0 + (0 + 0 + 511) / 512 := mine.2
    omega
  obtain ⟨i, place, entries⟩ := made.entries
  refine ⟨_, x, s.nextInode, ⟨mounted, ?_, Function.update_self ..,
    ⟨0, newFile⟩, ?_, ?_, ?_⟩, ?_, ?_⟩
  · rw [entries]
    rw [m.entries_setPos] at place ⊢
    exact find_set m.readable named new place x
  · exact Nat.ne_of_gt m.nextFile_pos
  · exact (m.setPos p).newest_alone made.links
  · rw [inode]
    rfl
  · rw [extent, inode]
    rfl
  · refine ⟨made.marks.size, ?_, ?_⟩
    · rintro y (rfl | mine)
      · exact made.free
      · exact absurd mine (none y)
    · intro y other
      have out : ¬InRun x 1 y := by
        intro inside
        have low := inside.1
        have high := inside.2
        exact other (.inl (by omega))
      rw [made.marks.bit, decide_eq_false out, Bool.or_false]
      rfl

/-- A new file gives all its sectors back when it is removed exactly if it is closed each time with
a length that is rounded as it should be. -/
theorem sectors_given_back_iff (m : Mounted slots s) (named : WellNamed path) {e : OsError}
    (new : find path s.entries = .error e) (created : create path s = .ok h t)
    (served : Guarded (visit path) (Served path) (t, h) vs) :
    GivesBack path s (t, h) vs ↔ ClosesAlways (0, 0) vs := by
  obtain ⟨slots', x, id, living, extents, same⟩ := created_living m named new created
  rw [← extents]
  exact (givesBack_iff living served).2 same

instance (path : Path) (st : Sys × Nat) (v : Visit) : Decidable (Served path st v) :=
  match v with
  | .write _ _ => inferInstanceAs (Decidable (_ ∧ _))
  | .resize _ => inferInstanceAs (Decidable (_ ∧ _))
  | .reopen => .isTrue trivial

instance (e : Nat × Nat) : Decidable (Closes e) := inferInstanceAs (Decidable (_ ∧ (_ → _)))

instance decidableClosesAlways : ∀ (e : Nat × Nat) (vs : List Visit), Decidable (ClosesAlways e vs)
  | e, [] => inferInstanceAs (Decidable (Closes e))
  | e, .reopen :: vs =>
    have := decidableClosesAlways (track e .reopen) vs
    inferInstanceAs (Decidable (Closes e ∧ ClosesAlways (track e .reopen) vs))
  | e, .write buf off :: vs => decidableClosesAlways (track e (.write buf off)) vs
  | e, .resize n :: vs => decidableClosesAlways (track e (.resize n)) vs

/-- Whether a new file in a fresh file system can be used so. -/
def lives (vs : List Visit) : Bool :=
  match mount 64 emptyDisk with
  | .ok () s => !(find [97] s.entries).isOk && match create [97] s with
    | .ok h t => decide (Guarded (visit [97]) (Served [97]) (t, h) vs)
    | _ => false
  | _ => false

theorem of_lives (computed : lives vs = true) : ∃ s h t e, mount 64 emptyDisk = .ok () s ∧
    find [97] s.entries = .error e ∧ create [97] s = .ok h t ∧
      Guarded (visit [97]) (Served [97]) (t, h) vs := by
  rw [lives] at computed
  split at computed
  · rename_i s mounted
    rw [Bool.and_eq_true] at computed
    obtain ⟨missing, computed⟩ := computed
    split at computed
    · rename_i h t created
      cases found : find [97] s.entries with
      | ok x =>
        rw [found] at missing
        cases missing
      | error e => exact ⟨s, h, t, e, mounted, found, created, of_decide_eq_true computed⟩
    · cases computed
  · cases computed

/-- A file is lengthened and cut, opened again, and lengthened again. -/
def fullLife : List Visit := [.resize 1000, .resize 600, .reopen, .write (File.vec [1, 2]) 700]

theorem long_life_given_back : ∃ s h t, mount 64 emptyDisk = .ok () s ∧ create [97] s = .ok h t ∧
    Guarded (visit [97]) (Served [97]) (t, h) fullLife ∧ GivesBack [97] s (t, h) fullLife := by
  obtain ⟨s, h, t, e, mounted, new, created, served⟩ :=
    of_lives (show lives fullLife = true by decide +kernel)
  have m := mount_mounted blank_emptyDisk mounted
  exact ⟨s, h, t, mounted, created, served,
    (sectors_given_back_iff m wellNamed_a new created served).mpr (by decide)⟩

/-- A file is cut to a whole sector, so that none is cut off whole. -/
def cutLife : List Visit := [.resize 600, .resize 512]

theorem cut_sector_lost : ∃ s h t, mount 64 emptyDisk = .ok () s ∧ create [97] s = .ok h t ∧
    Guarded (visit [97]) (Served [97]) (t, h) cutLife ∧ ¬GivesBack [97] s (t, h) cutLife := by
  obtain ⟨s, h, t, e, mounted, new, created, served⟩ :=
    of_lives (show lives cutLife = true by decide +kernel)
  obtain ⟨slots, x, id, living, extents, same⟩ :=
    created_living (mount_mounted blank_emptyDisk mounted) wellNamed_a new created
  refine ⟨s, h, t, mounted, created, served, ?_⟩
  rw [(givesBack_iff living served).2 same, extents]
  decide

end DiskFs

end Tacos.Fs
