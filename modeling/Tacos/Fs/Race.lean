/- GID: Tacos/Fs/Race
   generality: I
   source: src/fs/disk.rs, src/fs/disk/dir.rs, src/fs/disk/inode.rs, test/unit/fs/disk/sync.rs
   digest: Threads that create, open, remove and drop files, one section under a lock after
     another. -/

import Tacos.Fs.Sections

set_option autoImplicit false
set_option relaxedAutoImplicit false

namespace Tacos.Fs

open Tacos.Lib.Exec Tacos.Lib.Run FreeMap Inode RootDir DiskFs

/-- Where a thread is in a call: which section comes next, and what the earlier ones have found out.
A number `h` stands for a local `Arc`, which keeps an inode in memory as a descriptor does; an inode
whose last `Arc` is gone belongs to the thread that closes it. -/
inductive Section where
  | idle
  | creating (path : Path)
  | createFound (path : Path)
  | createAt (path : Path) (inum : Nat)
  | cutting (path : Path) (era inum h : Nat)
  | createMissing (path : Path)
  | allocated (path : Path) (sector : Nat)
  | making (path : Path) (sector start : Nat)
  | made (path : Path) (sector vnode : Nat)
  | naming (path : Path) (sector h : Nat)
  | failing (h : Nat)
  | opening (path : Path)
  | openFound (path : Path)
  | openAt (path : Path) (inum : Nat)
  | reopening (path : Path) (inum : Nat)
  | reopened (path : Path) (inum vnode : Nat)
  | removing (path : Path)
  | removeAt (path : Path) (inum : Nat)
  | marking (inum : Nat)
  | leaving (inum h : Nat)
  | unopened (inum : Nat)
  | closing (i : Inode)
  | clearing (i : Inode)

namespace Section

/-- What is left to do when an `Arc` is gone. -/
def close : Option Inode → Section
  | some i => .closing i
  | none => .idle

/-- The locks that a call keeps until its next section. -/
def keeps : Section → List Lock
  | .marking _ => [.rootDir]
  | .leaving _ _ => [.rootDir, .inodeTable]
  | .unopened _ => [.rootDir]
  | _ => []

/-- The lock that the next section starts with, where some call may keep it. -/
def needs : Section → Option Lock
  | .creating _ => some .rootDir
  | .createFound _ => some .rootDir
  | .createAt _ _ => some .inodeTable
  | .made _ _ _ => some .inodeTable
  | .naming _ _ _ => some .rootDir
  | .opening _ => some .rootDir
  | .openFound _ => some .rootDir
  | .openAt _ _ => some .inodeTable
  | .reopened _ _ _ => some .inodeTable
  | .removing _ => some .rootDir
  | .removeAt _ _ => some .rootDir
  | .marking _ => some .inodeTable
  | .clearing _ => some .rootDir
  | _ => none

def handle? : Section → Option Nat
  | .cutting _ _ _ h => some h
  | .naming _ _ h => some h
  | .failing h => some h
  | .leaving _ h => some h
  | _ => none

/-- The inode number that a call in progress has to itself: a file that it makes, reads into memory
or has marked to go. -/
def number? : Section → Option Nat
  | .allocated _ sector => some sector
  | .making _ sector _ => some sector
  | .made _ sector _ => some sector
  | .naming _ sector _ => some sector
  | .reopening _ inum => some inum
  | .reopened _ inum _ => some inum
  | .leaving inum _ => some inum
  | _ => none

/-- The sectors that a call in progress has to itself: that of its inode number, or what it has to
give back of an inode. -/
def sectors : Section → Set Nat
  | .closing i => {y | i.Tail y ∨ i.Rest y}
  | .clearing i => {y | i.Rest y}
  | sec => {y | sec.number? = some y}

end Section

/-- A `create` that has returned: how often its path had lost a file when it took effect, and the
number of its inode and of its descriptor. -/
structure Created where
  path : Path
  era : Nat
  inum : Nat
  h : Nat

/-- The file system and the threads that use it, with the creates that have returned and how often
each path has lost its file. -/
structure Race where
  sys : Sys
  threads : Nat
  next : Nat → Section
  created : List Created
  removals : Path → Nat
  panicked : Bool

inductive Turn where
  | call (t : Nat) (a : Request)
  | go (t : Nat)

namespace DiskFs

/-- The table's part of `open`: whether the inode is in memory, and if so a descriptor on it. -/
def openKnown (inum : Nat) : M Bool := do
  match ← lock .inodeTable (upgrade inum) with
  | some arc =>
    let _ ← newFile arc
    pure true
  | none => pure false

/-- An inode is registered and has a descriptor from here on. -/
def registerFile (inum vnode : Nat) : M Nat := do
  register inum vnode
  newFile vnode

/-- The inode of an existing path, with a descriptor from here on. -/
def upgradeFile (inum : Nat) : M Nat := do
  let vnode ← upgradeOrOpen inum
  newFile vnode

/-- The directory's part of `remove`, which keeps the guard. -/
def strikeInum (inum : Nat) : M Unit := lock .rootDir (RootDir.remove inum)

/-- The table's part of `remove`: the local `Arc` of an inode in memory, which is marked to go. -/
def markInum (inum : Nat) : M (Option Nat) := lock .inodeTable do
  match ← upgrade inum with
  | some arc =>
    let h ← newFile arc
    Inode.remove arc
    pure (some h)
  | none => pure none

/-- The rest of `remove` for an inode that is not in memory. -/
def removeUnopened (inum : Nat) : M Unit := lock .rootDir do
  let inode ← Inode.openAt inum
  Inode.remove inode
  dropArc inode

/-- The end of the local `Arc` of `remove`, before its guards. -/
def leave (h : Nat) : M Unit := lock .rootDir (dropFile h)

/-- The drop of a descriptor up to the closing of its inode. -/
def release (h : Nat) : M (Option Inode) := do
  let f ← File.getFile h
  allowWrite f
  Call.modify fun s => { s with files := s.files.filter (·.1 != h) }
  let s ← Call.get
  if s.referenced f.vnode then pure none else pure (some (s.inodes f.vnode))

end DiskFs

namespace Race

def start (s : Sys) (threads : Nat) : Race := ⟨s, threads, fun _ => .idle, [], fun _ => 0, false⟩

/-- A thread goes through a section. One that stops the machine is a panic; one in which the thread
waits for itself does not end. -/
def pass {α : Type} (r : Race) (x : M α) (ok : α → Race → Race) (err : Race → Race) : Option Race :=
  match x r.sys with
  | .ok a s => some (ok a { r with sys := s })
  | .err _ s => some (err { r with sys := s })
  | .halt (.deadlock _) => none
  | .halt _ => some { r with panicked := true }

def goTo (t : Nat) (p : Section) (r : Race) : Race := { r with next := Function.update r.next t p }

/-- A `create` returns. -/
def returns (t : Nat) (c : Created) (r : Race) : Race :=
  { r.goTo t .idle with created := c :: r.created }

/-- How often each path has lost its file when the entries of a number are struck out. -/
def bump (r : Race) (inum : Nat) : Path → Nat := fun path =>
  if find path r.sys.entries = .ok inum then r.removals path + 1 else r.removals path

def go (r : Race) (t : Nat) : Option Race :=
  match r.next t with
  | .idle => none
  | .creating path => r.pass (lock .rootDir (RootDir.contains path))
      (fun found => goTo t (if found then .createFound path else .createMissing path))
      (goTo t .idle)
  | .createFound path => r.pass (lock .rootDir (expect (RootDir.path2inum path)))
      (fun inum => goTo t (.createAt path inum)) (goTo t .idle)
  | .createAt path inum => r.pass (upgradeFile inum)
      (fun h => goTo t (.cutting path (r.removals path) inum h)) (goTo t .idle)
  | .cutting path era inum h => r.pass (File.setLen h 0)
      (fun _ => returns t ⟨path, era, inum, h⟩) (goTo t (.failing h))
  | .createMissing path => r.pass (lock .freeMap (onFreeMap (FreeMap.alloc 1)))
      (fun sector => goTo t (.allocated path sector)) (goTo t .idle)
  | .allocated path sector => r.pass (lock .freeMap (onFreeMap (FreeMap.alloc (bytesToSectors 0))))
      (fun start => goTo t (.making path sector start)) (goTo t .idle)
  | .making path sector start => r.pass (Inode.create sector start 0)
      (fun vnode => goTo t (.made path sector vnode)) (goTo t .idle)
  | .made path sector vnode => r.pass (registerFile sector vnode)
      (fun h => goTo t (.naming path sector h)) (goTo t .idle)
  | .naming path sector h => r.pass (lock .rootDir (RootDir.insert path sector))
      (fun _ => returns t ⟨path, r.removals path, sector, h⟩) (goTo t (.failing h))
  | .failing h => r.pass (release h) (fun last => goTo t (.close last)) (goTo t .idle)
  | .opening path => r.pass (lock .rootDir (RootDir.contains path))
      (fun found => goTo t (if found then .openFound path else .idle)) (goTo t .idle)
  | .openFound path => r.pass (lock .rootDir (expect (RootDir.path2inum path)))
      (fun inum => goTo t (.openAt path inum)) (goTo t .idle)
  | .openAt path inum => r.pass (openKnown inum)
      (fun known => goTo t (if known then .idle else .reopening path inum)) (goTo t .idle)
  | .reopening path inum => r.pass (Inode.openAt inum)
      (fun vnode => goTo t (.reopened path inum vnode)) (goTo t .idle)
  | .reopened _ inum vnode => r.pass (registerFile inum vnode)
      (fun _ => goTo t .idle) (goTo t .idle)
  | .removing path => r.pass (lock .rootDir (RootDir.path2inum path))
      (fun inum => goTo t (.removeAt path inum)) (goTo t .idle)
  | .removeAt _ inum => r.pass (strikeInum inum)
      (fun _ r' => { r'.goTo t (.marking inum) with removals := r.bump inum }) (goTo t .idle)
  | .marking inum => r.pass (markInum inum)
      (fun arc => goTo t (arc.elim (.unopened inum) (.leaving inum))) (goTo t .idle)
  | .leaving _ h => r.pass (leave h) (fun _ => goTo t .idle) (goTo t .idle)
  | .unopened inum => r.pass (removeUnopened inum) (fun _ => goTo t .idle) (goTo t .idle)
  | .closing i => r.pass (Inode.trim i)
      (fun _ => goTo t (if i.desc.removed then .clearing i else .idle)) (goTo t .idle)
  | .clearing i => r.pass (Inode.erase i) (fun _ => goTo t .idle) (goTo t .idle)

/-- Some call in progress has the descriptor to itself. -/
def Busy (r : Race) (h : Nat) : Prop := ∃ t < r.threads, (r.next t).handle? = some h

instance (r : Race) (h : Nat) : Decidable (r.Busy h) := inferInstanceAs (Decidable (∃ t < _, _))

/-- A thread without a call makes one, with a well-formed name or a descriptor that was returned. -/
def call (r : Race) (t : Nat) (a : Request) : Option Race :=
  match r.next t, a with
  | .idle, .create path => if WellNamed path then some (r.goTo t (.creating path)) else none
  | .idle, .openFile path => if WellNamed path then some (r.goTo t (.opening path)) else none
  | .idle, .remove path => if WellNamed path then some (r.goTo t (.removing path)) else none
  | .idle, .drop h =>
    if h ≠ 0 ∧ h ∈ r.sys.files.map Prod.fst ∧ ¬r.Busy h then r.pass (release h)
      (fun last => goTo t (.close last)) id else none
  | _, _ => none

/-- No call keeps the lock that the thread's next section starts with. -/
def Open (r : Race) (t : Nat) : Prop :=
  ∀ l ∈ (r.next t).needs, ∀ u < r.threads, l ∉ (r.next u).keeps

instance (r : Race) (t : Nat) : Decidable (r.Open t) :=
  inferInstanceAs (Decidable (∀ l ∈ (r.next t).needs, ∀ u < r.threads, l ∉ (r.next u).keeps))

/-- A thread that would have to wait for a lock makes no step. -/
def step (r : Race) : Turn → Option Race
  | .call t a => if t < r.threads ∧ r.panicked = false then r.call t a else none
  | .go t => if t < r.threads ∧ r.panicked = false ∧ r.Open t then r.go t else none

/-- What the earlier sections of the thread's call have found out still holds where the next one
relies on it: a path that was there still leads to a number and, where it is cut to nothing, to
the same number, which is in memory; a file that has to be read from the disk still has its path,
and no other call is about to read it; a name that was missing is still missing, or the directory
has no place for it; an inode that is marked to go is not one that another call makes. -/
def Relies (r : Race) : Section → Prop
  | .createFound path => (find path r.sys.entries).isOk = true
  | .openFound path => (find path r.sys.entries).isOk = true
  | .createAt path inum => find path r.sys.entries = .ok inum ∧ (r.sys.upgrade inum).isSome = true
  | .openAt path inum => (r.sys.upgrade inum).isSome = true ∨
      find path r.sys.entries = .ok inum ∧ ∀ u < r.threads, (r.next u).number? ≠ some inum
  | .naming path _ _ => (find path r.sys.entries).isOk = true →
    ∀ e ∈ r.sys.entries, e.isValid = true
  | .marking inum => (r.sys.upgrade inum).isSome = true →
      ∀ u < r.threads, (r.next u).number? ≠ some inum
  | _ => True

/-- What the thread that comes to its next section relies on still holds. -/
def Undisturbed (r : Race) : Turn → Prop
  | .call _ _ => True
  | .go t => r.Relies (r.next t)

instance (r : Race) : ∀ sec, Decidable (r.Relies sec)
  | .createFound _ => inferInstanceAs (Decidable (_ = true))
  | .openFound _ => inferInstanceAs (Decidable (_ = true))
  | .createAt path inum => inferInstanceAs
    (Decidable (find path r.sys.entries = .ok inum ∧ _ = true))
  | .openAt path inum => inferInstanceAs (Decidable (_ = true ∨
      find path r.sys.entries = .ok inum ∧ ∀ u < r.threads, (r.next u).number? ≠ some inum))
  | .naming path _ _ => inferInstanceAs (Decidable ((find path r.sys.entries).isOk = true →
      ∀ e ∈ r.sys.entries, e.isValid = true))
  | .marking inum => inferInstanceAs (Decidable (_ = true →
      ∀ u < r.threads, (r.next u).number? ≠ some inum))
  | .idle => .isTrue trivial
  | .creating _ => .isTrue trivial
  | .cutting .. => .isTrue trivial
  | .createMissing _ => .isTrue trivial
  | .allocated .. => .isTrue trivial
  | .making .. => .isTrue trivial
  | .made .. => .isTrue trivial
  | .failing _ => .isTrue trivial
  | .opening _ => .isTrue trivial
  | .reopening .. => .isTrue trivial
  | .reopened .. => .isTrue trivial
  | .removing _ => .isTrue trivial
  | .removeAt .. => .isTrue trivial
  | .leaving .. => .isTrue trivial
  | .unopened _ => .isTrue trivial
  | .closing _ => .isTrue trivial
  | .clearing _ => .isTrue trivial

instance (r : Race) : ∀ e, Decidable (r.Undisturbed e)
  | .call _ _ => .isTrue trivial
  | .go t => inferInstanceAs (Decidable (r.Relies (r.next t)))

/-- No thread has panicked; no two entries in use have one name; a file that was created and whose
path has lost no file since is found; creates that took effect between the same removals of their
path have returned the same inode. -/
structure Safe (r : Race) : Prop where
  running : r.panicked = false
  distinct : Distinct r.sys.entries
  found : ∀ c ∈ r.created, c.era = r.removals c.path → find c.path r.sys.entries = .ok c.inum
  agree : ∀ c ∈ r.created, ∀ d ∈ r.created, c.path = d.path → c.era = d.era → c.inum = d.inum
  shared : ∀ c ∈ r.created, ∀ d ∈ r.created, c.path = d.path → c.era = d.era →
    ∀ id id', (c.h, id) ∈ r.sys.links → (d.h, id') ∈ r.sys.links → id = id'

end Race

variable {slots slots' : Slots} {s : Sys} {r r' : Race} {sec : Section} {t x y id h : Nat}
    {path : Path} {X N S gone : Set Nat}

/-- What a call in progress relies on. -/
def Holding (slots : Slots) (s : Sys) : Section → Prop
  | .creating path => WellNamed path
  | .createMissing path => WellNamed path
  | .cutting _ _ inum h => h ≠ 0 ∧ ∃ id, (h, id) ∈ s.links ∧ (s.inodes id).desc.sector = inum
  | .allocated path sector => WellNamed path ∧ Reserved slots s sector
  | .making path sector start => WellNamed path ∧ Reserved slots s sector ∧ start = 0
  | .made path sector vnode => WellNamed path ∧ Held slots s sector vnode ∧ Unnamed s.entries sector
  | .naming path sector h => WellNamed path ∧ Unnamed s.entries sector ∧ h ≠ 0 ∧
      ∃ id, (h, id) ∈ s.links ∧ (s.inodes id).desc.sector = sector ∧
        (s.inodes id).desc.removed = false
  | .failing h => h ≠ 0 ∧ ∃ id, (h, id) ∈ s.links
  | .openAt _ inum => inum ≠ 1
  | .reopening _ inum => slots inum = some .closed
  | .reopened _ inum vnode => Held slots s inum vnode
  | .removeAt _ inum => inum ≠ 1
  | .marking inum => inum ≠ 1 ∧ Unnamed s.entries inum
  | .leaving inum h => h ≠ 0 ∧ ∃ id, (h, id) ∈ s.links ∧ (s.inodes id).desc.sector = inum ∧
      (s.inodes id).desc.removed = true
  | .closing i => Dying slots s i {y | i.Tail y ∨ i.Rest y}
  | .clearing i => i.desc.removed = true ∧ Dying slots s i {y | i.Rest y}
  | _ => True

namespace Race

/-- A create that took effect, whether it has returned or is about to. -/
def Promised (r : Race) (path : Path) (era inum : Nat) : Prop :=
  (∃ c ∈ r.created, c.path = path ∧ c.era = era ∧ c.inum = inum) ∨
    ∃ t h, r.next t = .cutting path era inum h

/-- What holds whenever no thread is in a section. -/
structure Inv (slots : Slots) (r : Race) : Prop where
  tidy : Tidy slots r.sys
  running : r.panicked = false
  resting : ∀ t, r.threads ≤ t → r.next t = .idle
  holding : ∀ t, Holding slots r.sys (r.next t)
  numbers : ∀ t u x, x ∈ (r.next t).sectors → x ∈ (r.next u).sectors → t = u
  handles : ∀ t u h, (r.next t).handle? = some h → (r.next u).handle? = some h → t = u
  kept : ∀ path era inum, r.Promised path era inum →
    era ≤ r.removals path ∧ (era = r.removals path → find path r.sys.entries = .ok inum)
  agree : ∀ path era inum inum', r.Promised path era inum → r.Promised path era inum' → inum = inum'
  returned : ∀ c ∈ r.created, c.h < r.sys.nextFile ∧
    ∀ id, (c.h, id) ∈ r.sys.links → (r.sys.inodes id).desc.sector = c.inum

end Race

/-- A link of a descriptor other than the root directory's is to an inode in memory. -/
theorem Mounted.slot_of_link (m : Mounted slots s) (mem : (h, id) ∈ s.links) (ne : h ≠ 0) :
    slots (s.inodes id).desc.sector = some (.opened id) ∧ (s.inodes id).desc.sector ≠ 1 := by
  obtain ⟨x, hx, other⟩ := m.linked.live (h, id) mem
  have sector : (s.inodes id).desc.sector = x := m.sound.sector_eq hx
  rw [sector]
  exact ⟨hx, other ne⟩

theorem Linked.link_unique (linked : Linked slots s) {id' : Nat} (mem : (h, id) ∈ s.links)
    (mem' : (h, id') ∈ s.links) :
    id = id' := (Prod.mk.inj (List.inj_on_of_nodup_map linked.nodup mem mem' rfl)).2

theorem Mounted.file_of_link (m : Mounted slots s) (mem : (h, id) ∈ s.links) :
    ∃ f, (h, f) ∈ s.files ∧ f.vnode = id ∧ s.file h = f := by
  obtain ⟨⟨h', f⟩, mine, same⟩ := List.mem_map.mp mem
  obtain ⟨rfl, rfl⟩ := Prod.mk.inj same
  exact ⟨f, mine, rfl, m.file_of_mem mine⟩

namespace Holding

theorem marked (m : Mounted slots s) (holding : Holding slots s sec) (mine : x ∈ sec.sectors) :
    s.freeMap.bit x = true := by
  have known : ∀ {y : Nat} {slot : Slot}, slots y = some slot → s.freeMap.bit y = true := by
    intro y slot hy
    refine m.sound.marked (self_mem_owned ?_)
    rw [hy]
    rfl
  cases sec with
  | allocated path sector =>
    cases mine
    exact holding.2.1
  | making path sector start =>
    cases mine
    exact holding.2.1.1
  | made path sector vnode =>
    cases mine
    exact known holding.2.1.closed
  | naming path sector h =>
    cases mine
    obtain ⟨-, -, nonzero, id, mem, rfl, -⟩ := holding
    exact known (m.slot_of_link mem nonzero).1
  | reopening path inum =>
    cases mine
    exact known holding
  | reopened path inum vnode =>
    cases mine
    exact known holding.closed
  | leaving inum h =>
    cases mine
    obtain ⟨nonzero, id, mem, rfl, -⟩ := holding
    exact known (m.slot_of_link mem nonzero).1
  | closing i => exact (holding.reserved x mine).1
  | clearing i => exact (holding.2.reserved x mine).1
  | _ => cases mine

/-- What a call has to itself is no sector of an inode in memory, but for the number of one that the
call has an `Arc` of. -/
theorem not_owned (m : Mounted slots s) (holding : Holding slots s sec) (mine : y ∈ sec.sectors)
    (hx : slots x = some (.opened id)) (own : y ∈ owned slots s x) :
    y = x ∧ sec.number? = some y ∧ ∃ h, sec.handle? = some h ∧ (h, id) ∈ s.links := by
  have shut : slots y ≠ some .closed := by
    intro closed
    by_cases here : y = x
    · rw [here, hx] at closed
      cases closed
    · exact m.sound.other here (self_mem_owned (by rw [closed]; rfl)) own
  have same : ∀ {id'}, slots y = some (.opened id') → y = x ∧ id' = id := by
    intro id' hy
    by_cases here : y = x
    · subst here
      rw [hy, Option.some.injEq, Slot.opened.injEq] at hx
      exact ⟨rfl, hx⟩
    · exact absurd own (m.sound.other here (self_mem_owned (by rw [hy]; rfl)))
  cases sec with
  | allocated path sector =>
    cases mine
    exact absurd own (holding.2.2 x)
  | making path sector start =>
    cases mine
    exact absurd own (holding.2.1.2 x)
  | made path sector vnode =>
    cases mine
    exact absurd holding.2.1.closed shut
  | naming path sector h =>
    cases mine
    obtain ⟨-, -, nonzero, id', mem, rfl, -⟩ := holding
    obtain ⟨here, rfl⟩ := same (m.slot_of_link mem nonzero).1
    exact ⟨here, rfl, h, rfl, mem⟩
  | reopening path inum =>
    cases mine
    exact absurd holding shut
  | reopened path inum vnode =>
    cases mine
    exact absurd holding.closed shut
  | leaving inum h =>
    cases mine
    obtain ⟨nonzero, id', mem, rfl, -⟩ := holding
    obtain ⟨here, rfl⟩ := same (m.slot_of_link mem nonzero).1
    exact ⟨here, rfl, h, rfl, mem⟩
  | closing i => exact absurd own ((holding.reserved y mine).2 x)
  | clearing i => exact absurd own ((holding.2.reserved y mine).2 x)
  | _ => cases mine

theorem handle_lt (m : Mounted slots s) (holding : Holding slots s sec)
    (handle : sec.handle? = some h) :
    h < s.nextFile := by
  cases sec with
  | cutting path era inum h =>
    cases handle
    obtain ⟨-, id, mem, -⟩ := holding
    exact m.linked.handle_lt _ mem
  | naming path sector h =>
    cases handle
    obtain ⟨-, -, -, id, mem, -⟩ := holding
    exact m.linked.handle_lt _ mem
  | failing h =>
    cases handle
    obtain ⟨-, id, mem⟩ := holding
    exact m.linked.handle_lt _ mem
  | leaving inum h =>
    cases handle
    obtain ⟨-, id, mem, -⟩ := holding
    exact m.linked.handle_lt _ mem
  | _ => cases handle

theorem number_of_known (holding : Holding slots s sec) (mine : y ∈ sec.sectors)
    (known : (slots y).isSome = true) : sec.number? = some y := by
  cases sec with
  | closing i =>
    rw [(holding.reserved y mine).slot] at known
    cases known
  | clearing i =>
    rw [(holding.2.reserved y mine).slot] at known
    cases known
  | _ => exact mine

/-- What a call relies on stays when another thread passes a section that does not concern what
the call has to itself. -/
theorem passes (p : Passes slots slots' s r.sys X N S gone) (out : ∀ x ∈ sec.sectors, x ∉ X)
    (sub : N ⊆ X) (struck : ∀ x, sec = .marking x → x ∉ N)
    (stays : ∀ h, sec.handle? = some h → h ∉ gone) (holding : Holding slots s sec) :
    Holding slots' r.sys sec := by
  have new : ∀ x ∈ sec.sectors, x ∉ N := fun x mine mem => out x mine (sub mem)
  cases sec with
  | cutting path era inum h =>
    obtain ⟨nonzero, id, mem, rfl⟩ := holding
    exact ⟨nonzero, id, p.arcs.kept _ mem (stays h rfl), (p.arcs.inode _ mem).1⟩
  | allocated path sector => exact ⟨holding.1, p.sectors.reserved sector (out sector rfl) holding.2⟩
  | making path sector start =>
    exact ⟨holding.1, p.sectors.reserved sector (out sector rfl) holding.2.1, holding.2.2⟩
  | made path sector vnode =>
    exact ⟨holding.1, p.held holding.2.1 (out sector rfl),
      p.names.unnamed holding.2.2 (new sector rfl)⟩
  | naming path sector h =>
    obtain ⟨named, unnamed, nonzero, id, mem, rfl, stands⟩ := holding
    obtain ⟨sector, removed⟩ := p.arcs.inode _ mem
    exact ⟨named, p.names.unnamed unnamed (new _ rfl), nonzero, id,
      p.arcs.kept _ mem (stays h rfl), sector,
      (removed (out _ rfl)).trans stands⟩
  | failing h =>
    obtain ⟨nonzero, id, mem⟩ := holding
    exact ⟨nonzero, id, p.arcs.kept _ mem (stays h rfl)⟩
  | reopening path inum => exact (p.sectors.closed inum (out inum rfl) holding).1
  | reopened path inum vnode => exact p.held holding (out inum rfl)
  | marking inum => exact ⟨holding.1, p.names.unnamed holding.2 (struck inum rfl)⟩
  | leaving inum h =>
    obtain ⟨nonzero, id, mem, rfl, removed⟩ := holding
    obtain ⟨sector, same⟩ := p.arcs.inode _ mem
    exact ⟨nonzero, id, p.arcs.kept _ mem (stays h rfl), sector,
      (same (out _ rfl)).trans removed⟩
  | closing i =>
    exact holding.passes p out fun removed => new _ (.inr ⟨removed, .inl rfl⟩)
  | clearing i =>
    exact ⟨holding.1, holding.2.passes p out fun removed => new _ ⟨removed, .inl rfl⟩⟩
  | _ => exact holding

end Holding

/-- A step of one thread that notes no `create` promises what was promised, or what the thread is
about to cut. -/
theorem Race.Promised.before {era inum : Nat} (promise : r'.Promised path era inum)
    (next : r'.next = Function.update r.next t sec) (created : r'.created = r.created) :
    r.Promised path era inum ∨ ∃ h, sec = .cutting path era inum h := by
  obtain record | ⟨u, h, here⟩ := promise
  · exact .inl (.inl (created ▸ record))
  · rw [next] at here
    by_cases same : u = t
    · rw [same, Function.update_self] at here
      exact .inr ⟨h, here⟩
    · rw [Function.update_of_ne same] at here
      exact .inl (.inr ⟨u, h, here⟩)

namespace Race.Inv

/-- The rule for a step of one thread. -/
theorem step (inv : Inv slots r) (lt : t < r.threads)
    (next : r'.next = Function.update r.next t sec)
    (threads : r'.threads = r.threads) (running : r'.panicked = false)
    (p : Passes slots slots' r.sys r'.sys X N S gone)
    (out : ∀ u ≠ t, ∀ x ∈ (r.next u).sectors, x ∉ X) (sub : N ⊆ X)
    (struck : ∀ u ≠ t, ∀ x, r.next u = .marking x → x ∉ N)
    (stays : ∀ u ≠ t, ∀ h, (r.next u).handle? = some h → h ∉ gone)
    (holding : Holding slots' r'.sys sec)
    (number : ∀ x ∈ sec.sectors, ∀ u ≠ t, x ∉ (r.next u).sectors)
    (handle : ∀ h, sec.handle? = some h → ∀ u ≠ t, (r.next u).handle? ≠ some h)
    (promised : ∀ path era inum, r'.Promised path era inum →
      r.Promised path era inum ∨ era = r'.removals path ∧ find path r'.sys.entries = .ok inum)
    (mono : ∀ path, r.removals path ≤ r'.removals path)
    (lasting : ∀ path inum, find path r.sys.entries = .ok inum →
      r'.removals path = r.removals path → inum ∉ S)
    (returned : ∀ c ∈ r'.created, c ∈ r.created ∨ c.h < r'.sys.nextFile ∧
      ∀ id, (c.h, id) ∈ r'.sys.links → (r'.sys.inodes id).desc.sector = c.inum) :
      Inv slots' r' := by
  have there : r'.next t = sec := by rw [next, Function.update_self]
  have others : ∀ u ≠ t, r'.next u = r.next u := fun u ne => by rw [next, Function.update_of_ne ne]
  -- A path that still has the file of an earlier create still leads to it.
  have old : ∀ path era inum, r.Promised path era inum →
      era ≤ r'.removals path ∧ (era = r'.removals path → find path r'.sys.entries = .ok inum) := by
    intro path era inum promise
    obtain ⟨le, leads⟩ := inv.kept path era inum promise
    refine ⟨le.trans (mono path), fun here => ?_⟩
    have same : r'.removals path = r.removals path := le_antisymm (here ▸ le) (mono path)
    have found := leads (here.trans same)
    exact p.find inv.tidy found (lasting path inum found same)
  refine ⟨p.tidy, running, ?_, ?_, ?_, ?_, ?_, ?_, ?_⟩
  · intro u beyond
    rw [threads] at beyond
    rw [others u (Nat.ne_of_gt (lt_of_lt_of_le lt beyond))]
    exact inv.resting u beyond
  · intro u
    by_cases here : u = t
    · rw [here, there]
      exact holding
    · rw [others u here]
      exact (inv.holding u).passes p (out u here) sub (struck u here) (stays u here)
  · intro u v x hu hv
    by_cases hereU : u = t
    · by_cases hereV : v = t
      · exact hereU.trans hereV.symm
      · rw [hereU, there] at hu
        rw [others v hereV] at hv
        exact absurd hv (number x hu v hereV)
    · rw [others u hereU] at hu
      by_cases hereV : v = t
      · rw [hereV, there] at hv
        exact absurd hu (number x hv u hereU)
      · rw [others v hereV] at hv
        exact inv.numbers u v x hu hv
  · intro u v h hu hv
    by_cases hereU : u = t
    · by_cases hereV : v = t
      · exact hereU.trans hereV.symm
      · rw [hereU, there] at hu
        rw [others v hereV] at hv
        exact absurd hv (handle h hu v hereV)
    · rw [others u hereU] at hu
      by_cases hereV : v = t
      · rw [hereV, there] at hv
        exact absurd hu (handle h hv u hereU)
      · rw [others v hereV] at hv
        exact inv.handles u v h hu hv
  · intro path era inum promise
    obtain before | ⟨here, found⟩ := promised path era inum promise
    · exact old path era inum before
    · exact ⟨le_of_eq here, fun _ => found⟩
  · intro path era inum inum' promise promise'
    obtain before | ⟨here, found⟩ := promised path era inum promise
    · obtain before' | ⟨here', found'⟩ := promised path era inum' promise'
      · exact inv.agree path era inum inum' before before'
      · exact Except.ok.inj (((old path era inum before).2 here').symm.trans found')
    · obtain before' | ⟨-, found'⟩ := promised path era inum' promise'
      · exact Except.ok.inj (found.symm.trans ((old path era inum' before').2 here))
      · exact Except.ok.inj (found.symm.trans found')
  · intro c hc
    obtain before | new := returned c hc
    · obtain ⟨small, sectors⟩ := inv.returned c before
      refine ⟨lt_of_lt_of_le small p.arcs.next, fun id mem => ?_⟩
      obtain link | later := p.arcs.old (c.h, id) mem
      · exact (p.arcs.inode (c.h, id) link).1.trans (sectors id link)
      · exact absurd small (Nat.not_lt.mpr later)
    · exact new

/-- The rule for a thread that goes on, and makes no promise but to the file that its path leads
to. -/
theorem goTo (inv : Inv slots r) (lt : t < r.threads) (p : Passes slots slots' r.sys s X ∅ ∅ gone)
    (out : ∀ u ≠ t, ∀ x ∈ (r.next u).sectors, x ∉ X)
    (stays : ∀ u ≠ t, ∀ h, (r.next u).handle? = some h → h ∉ gone) (holding : Holding slots' s sec)
    (number : ∀ x ∈ sec.sectors, ∀ u ≠ t, x ∉ (r.next u).sectors)
    (handle : ∀ h, sec.handle? = some h → ∀ u ≠ t, (r.next u).handle? ≠ some h)
    (promise : ∀ path era inum h, sec = .cutting path era inum h →
      era = r.removals path ∧ find path s.entries = .ok inum) :
      Inv slots' (Race.goTo t sec { r with sys := s }) := by
  refine inv.step lt rfl rfl inv.running p out (Set.empty_subset X)
    (fun _ _ _ _ => Set.notMem_empty _) stays holding number handle ?_ (fun _ => le_rfl)
    (fun _ _ _ _ => Set.notMem_empty _) (fun c hc => .inl hc)
  intro path era inum promised
  obtain before | ⟨h, here⟩ := promised.before (Eq.refl (Function.update r.next t sec)) rfl
  · exact .inl before
  · exact .inr (promise path era inum h here)

/-- A thread that only looks something up goes on with nothing of its own. -/
theorem looks (inv : Inv slots r) (lt : t < r.threads) (p : Passes slots slots r.sys s ∅ ∅ ∅ ∅)
    (holding : Holding slots s sec) (number : ∀ x, x ∉ sec.sectors)
    (handle : sec.handle? = none) :
    Inv slots (Race.goTo t sec { r with sys := s }) := by
  refine inv.goTo lt p (fun _ _ _ _ => Set.notMem_empty _)
    (fun _ _ _ _ => Set.notMem_empty _) holding (fun x here => absurd here (number x)) ?_ ?_
  · intro h here
    rw [handle] at here
    cases here
  · rintro path era inum h rfl
    cases handle

/-- A `create` returns a descriptor of its inode, whose number it has promised or its path leads
to. -/
theorem returns (inv : Inv slots r) (lt : t < r.threads) (p : Passes slots slots' r.sys s X N ∅ ∅)
    (out : ∀ u ≠ t, ∀ x ∈ (r.next u).sectors, x ∉ X) (sub : N ⊆ X)
    (struck : ∀ u ≠ t, ∀ x, r.next u = .marking x → x ∉ N) {c : Created}
    (promise : r.Promised c.path c.era c.inum ∨ c.era = r.removals c.path ∧
      find c.path s.entries = .ok c.inum)
    (mine : (c.h, id) ∈ s.links) (sector : (s.inodes id).desc.sector = c.inum) :
    Inv slots' (Race.returns t c { r with sys := s }) := by
  refine inv.step lt rfl rfl inv.running p out sub struck
    (fun _ _ _ _ => Set.notMem_empty _) trivial (fun x here => by cases here)
    (fun h here => by cases here) ?_ (fun _ => le_rfl) (fun _ _ _ _ => Set.notMem_empty _) ?_
  · rintro path era inum (⟨d, hd, rfl, rfl, rfl⟩ | ⟨u, h, here⟩)
    · obtain rfl | old := List.mem_cons.mp hd
      · exact promise
      · exact .inl (.inl ⟨d, old, rfl, rfl, rfl⟩)
    · change Function.update r.next t .idle u = _ at here
      by_cases same : u = t
      · rw [same, Function.update_self] at here
        cases here
      · rw [Function.update_of_ne same] at here
        exact .inl (.inr ⟨u, h, here⟩)
  · intro d hd
    obtain rfl | old := List.mem_cons.mp hd
    · refine .inr ⟨p.tidy.mounted.linked.handle_lt _ mine, fun id' mem => ?_⟩
      rw [p.tidy.mounted.linked.link_unique mem mine]
      exact sector
    · exact .inl old

end Race.Inv

end Tacos.Fs
