/- GID: Tacos/Fs/Interleave
   generality: I
   source: src/fs/disk.rs, src/fs/disk/dir.rs, src/fs/disk/inode.rs, test/unit/fs/disk/sync.rs
   digest: Each section keeps the invariant, so the threads are safe in every interleaving. -/

import Tacos.Fs.Race

set_option autoImplicit false
set_option relaxedAutoImplicit false

namespace Tacos.Fs

open Tacos.Lib.Exec Tacos.Lib.Run FreeMap Inode RootDir DiskFs
open Store (emptyDisk blank_emptyDisk)

variable {slots slots' : Slots} {s : Sys} {r r' : Race} {sec : Section} {t x y id h : Nat}
    {path : Path} {X S gone : Set Nat}

theorem Tidy.refl (before : Tidy slots s) : Passes slots slots s s ∅ ∅ ∅ ∅ := by
  have m := before.mounted
  refine ⟨before, ⟨rfl, fun y _ closed => ⟨closed, rfl⟩, fun y _ reserved => reserved⟩,
    .of_same m rfl rfl rfl le_rfl fun _ _ => rfl,
    .refl _⟩

namespace Race

variable {α : Type} {x : M α} {ok : α → Race → Race} {err : Race → Race}

theorem pass_ok {a : α} (done : x r.sys = .ok a s) :
    r.pass x ok err = some (ok a { r with sys := s }) := by
  rw [pass, done]

theorem pass_err {e : OsError} (failed : x r.sys = .err e s) :
    r.pass x ok err = some (err { r with sys := s }) := by
  rw [pass, failed]

theorem pass_deadlock {l : Lock} (stops : x r.sys = .halt (.deadlock l)) :
    r.pass x ok err = none := by
  rw [pass, stops]

end Race

/-! ## Sections of calls, evaluated -/

namespace Mounted

theorem openKnown_opened (m : Mounted slots s) (hx : slots x = some (.opened id)) :
    openKnown x s = .ok true (s.opened id) := by
  rw [openKnown, Call.bind_ok (upgrade_lock m.idle x), (m.linked.upgrade x id).mpr hx]
  rfl

theorem openKnown_none (m : Mounted slots s) (none : s.upgrade x = none) :
    openKnown x s = .ok false s := by
  rw [openKnown, Call.bind_ok (upgrade_lock m.idle x), none]
  rfl

theorem upgradeFile_opened (m : Mounted slots s) (hx : slots x = some (.opened id)) :
    upgradeFile x s = .ok s.nextFile (s.opened id) := by
  rw [upgradeFile, Call.bind_ok (m.upgradeOrOpen_opened hx)]
  rfl

theorem registerFile_eq (m : Mounted slots s) (x id : Nat) :
    registerFile x id s = .ok s.nextFile (s.adopted x id) := by
  rw [registerFile, Call.bind_ok (register_eq m.idle x id)]
  rfl

theorem create_empty (m : Mounted slots s) (x : Nat) :
    Inode.create x 0 0 s = .ok s.nextInode (s.madeAt x) := by
  have made := Inode.create_eq (s := s) x 0 0 (by simp [m.idle]) (by decide)
  have disk : createdDisk s.disk x 0 (bytesToSectors 0) ⟨0, 0 % 2 ^ 32, inodeMagic, fun _ => 0⟩ =
      Function.update s.disk x newData.toSector := by
    funext y
    rw [createdDisk, if_neg (fun h => absurd h.2 (Nat.not_lt_zero y))]
    rfl
  rw [disk] at made
  exact made

theorem openAt_closed (m : Mounted slots s) (closed : slots x = some .closed) :
    Inode.openAt x s = .ok s.nextInode (s.readAt x) := by
  have read := Inode.openAt_eq (s := s) x (by simp [m.idle])
  have placed := m.sound.placed x
  rw [Placed, closed] at placed
  rw [if_pos placed.1] at read
  exact read

theorem setLen_zero (m : Mounted slots s) (mem : (h, id) ∈ s.links) (ne : h ≠ 0) :
    ∃ t, File.setLen h 0 s = .ok () t ∧ Resized s t id 0 := by
  obtain ⟨f, -, rfl, file⟩ := m.file_of_link mem
  obtain ⟨hx, -⟩ := m.slot_of_link mem ne
  have free : ∀ l, l ∉ s.held := by simp [m.idle]
  have first : File.getFile h s = .ok f s := congrArg (fun f => Outcome.ok f s) file
  have grants : Grants s.freeMap (s.inodes f.vnode) (0 % 2 ^ 32) := fun h => absurd h (by omega)
  have unfolded : File.setLen h 0 s = Inode.resize f.vnode 0 s := by
    rw [File.setLen, Call.bind_ok first]
  rw [unfolded]
  obtain ⟨t, cut, change⟩ | ⟨-, full, -⟩ | ⟨e, -, full, -⟩ :=
    resize_ends (m.sound.settled hx) (free _) (free _) (free _) 0
  · exact ⟨t, cut, change⟩
  · exact absurd grants full
  · exact absurd grants full

theorem alloc_one (m : Mounted slots s) : (∃ x n, FreeMap.alloc 1 s.freeMap = .ok x n ∧
      lock .freeMap (onFreeMap (FreeMap.alloc 1)) s = .ok x { s with freeMap := n }) ∨
    ∃ e, lock .freeMap (onFreeMap (FreeMap.alloc 1)) s = .err e s := by
  have free : Lock.freeMap ∉ s.held := by simp [m.idle]
  obtain ⟨x, n, found, -⟩ | ⟨failed, -⟩ := alloc_cases s.freeMap Nat.zero_lt_one
  · exact .inl ⟨x, n, found,
      lock_ok (t := { s with freeMap := n, held := .freeMap :: s.held }) free
      (onFreeMap_ok found) rfl⟩
  · exact .inr ⟨_, lock_err (t := { s with held := .freeMap :: s.held }) free
      (onFreeMap_err failed) rfl⟩

theorem alloc_none (m : Mounted slots s) :
    lock .freeMap (onFreeMap (FreeMap.alloc (bytesToSectors 0))) s = .ok 0 s :=
  lock_ok (t := { s with held := .freeMap :: s.held }) (by simp [m.idle])
    (onFreeMap_ok (alloc_zero s.freeMap)) rfl

/-- A well-formed name is written to the first unused place, unless there is none. -/
theorem insert_cases (m : Mounted slots s) (named : WellNamed path) (x : Nat) :
    (s.entries.findIdx? (fun e => !e.isValid) = none ∧
        ∃ e q, lock .rootDir (RootDir.insert path x) s = .err e (s.setPos 0 q)) ∨
      ∃ i q, s.entries.findIdx? (fun e => !e.isValid) = some i ∧
        lock .rootDir (RootDir.insert path x) s =
        .ok () ((s.wrote (s.inodeOf 0).data.start (32 * i)
          (entryOf path x).toBytes).setPos 0 q) := by
  have allowed : (({ s with held := .rootDir :: s.held } : Sys).inodeOf 0).desc.denyWrite = 0 :=
    m.sound.root.allowed
  have small : (({ s with held := .rootDir :: s.held } : Sys).inodeOf 0).data.len < 2 ^ 32 :=
    m.sound.root.len
  obtain ⟨-, full | denied, e, q, failed⟩ | ⟨nonAscii, -⟩ | ⟨-, long, -⟩ |
    ⟨-, -, -, i, slot, q, done⟩ :=
    RootDir.insert_cases path x m.rootReady small
  · exact .inl ⟨full, e, q, lock_err m.rootDir_free failed rfl⟩
  · exact absurd allowed denied
  · exact absurd named.ascii nonAscii
  · exact absurd named.short (Nat.not_le_of_lt long)
  · exact .inr ⟨i, q, slot, lock_ok m.rootDir_free done rfl⟩

theorem strikeInum_eq (m : Mounted slots s) (x : Nat) :
    ∃ q, strikeInum x s = .ok () ((s.strike x 0).setPos 0 q) := by
  obtain ⟨q, struck⟩ := RootDir.remove_ok x m.rootReady m.sound.root.len m.sound.root.allowed
  exact ⟨q, lock_ok (t := { (s.strike x 0).setPos 0 q with held := .rootDir :: s.held })
    m.rootDir_free struck rfl⟩

theorem markInum_opened (m : Mounted slots s) (hx : slots x = some (.opened id)) :
    markInum x s = .ok (some s.nextFile) ((s.opened id).marked id) := by
  refine lock_ok (t := { (s.opened id).marked id with held := .inodeTable :: s.held })
    (by simp [m.idle]) ?_ rfl
  have first : upgrade x { s with held := .inodeTable :: s.held } =
      .ok (some id) { s with held := .inodeTable :: s.held } :=
    congrArg (fun o => Outcome.ok o _) ((m.linked.upgrade x id).mpr hx)
  have second : Inode.remove id { s.opened id with held := .inodeTable :: s.held } =
      .ok () { (s.opened id).marked id with held := .inodeTable :: s.held } :=
    lock_ok (t := { (s.opened id).marked id with held := .inode id :: .inodeTable :: s.held })
      (by simp [m.idle]) rfl rfl
  rw [Call.bind_ok first]
  simp only
  rw [Call.bind_ok (show Fs.newFile id { s with held := .inodeTable :: s.held } =
    .ok s.nextFile { s.opened id with held := .inodeTable :: s.held } from rfl),
    Call.bind_ok second]
  rfl

theorem markInum_none (m : Mounted slots s) (none : s.upgrade x = none) :
    markInum x s = .ok Option.none s := by
  refine lock_ok (t := { s with held := .inodeTable :: s.held }) (by simp [m.idle]) ?_ rfl
  have first : upgrade x { s with held := .inodeTable :: s.held } =
      .ok Option.none { s with held := .inodeTable :: s.held } :=
    congrArg (fun o => Outcome.ok o _) none
  rw [Call.bind_ok first]
  rfl

/-- An inode that is not in memory is read only to be removed: the thread waits for itself, or the
sector holds no inode. -/
theorem removeUnopened_ends (m : Mounted slots s) (x : Nat) :
    removeUnopened x s = .halt (.deadlock .rootDir) ∨ ∃ e, removeUnopened x s = .err e s := by
  by_cases magic : (DiskInode.ofSector (s.disk x)).magic = inodeMagic
  · refine .inl (lock_halt m.rootDir_free ?_)
    have fresh : s.referenced s.nextInode = false := by
      rw [Bool.eq_false_iff, ne_eq, referenced_iff]
      rintro ⟨p, hp, same⟩
      exact absurd (m.inside p hp) (by rw [same]; exact Nat.lt_irrefl _)
    exact openRemove_deadlock (s := { s with held := .rootDir :: s.held })
      (by simp [m.idle]) (by simp [m.idle]) List.mem_cons_self magic fresh
  · refine .inr ⟨.openInvalidInode,
      lock_err (t := { s with held := .rootDir :: s.held }) m.rootDir_free ?_ rfl⟩
    have read := Inode.openAt_eq (s := { s with held := .rootDir :: s.held }) x (by simp [m.idle])
    rw [if_neg magic] at read
    exact Call.bind_err read

end Mounted

/-- A thread with the root directory's lock waits for itself when it closes a removed inode. -/
theorem erase_deadlock {i : Inode} (removed : i.desc.removed = true) (root : .rootDir ∈ s.held) :
    erase i s = .halt (.deadlock .rootDir) := by
  rw [erase, if_pos removed]
  exact if_pos root

namespace Tidy

variable {f : File}

theorem dropped_start (before : Tidy slots s) (mine : (h, f) ∈ s.files) (ls : List Lock) :
    File.getFile h { s with held := ls } = .ok f { s with held := ls } ∧
      DiskFs.allowWrite f { s with held := ls } = .ok () { s with held := ls } := by
  refine ⟨congrArg (fun f => Outcome.ok f _) (before.mounted.file_of_mem mine), ?_⟩
  rw [DiskFs.allowWrite, if_neg (by rw [before.allows (h, f) mine]; exact Bool.false_ne_true)]
  rfl

theorem release_eq (before : Tidy slots s) (mine : (h, f) ∈ s.files) :
    release h s = .ok (if (s.dropped h).referenced f.vnode then none else some (s.inodes f.vnode))
      (s.dropped h) := by
  obtain ⟨first, second⟩ := before.dropped_start mine s.held
  have unfolded : release h s = (if (s.dropped h).referenced f.vnode then pure none
      else pure (some ((s.dropped h).inodes f.vnode)) : M (Option Inode)) (s.dropped h) := by
    rw [release, Call.bind_ok first, Call.bind_ok second]
    rfl
  rw [unfolded]
  split
  · rfl
  · rfl

/-- The local `Arc` of `remove` is not the last one, or the thread waits for itself. -/
theorem leave_ends (before : Tidy slots s) (mine : (h, f) ∈ s.files) (nonzero : h ≠ 0)
    (removed : (s.inodes f.vnode).desc.removed = true) :
    leave h s = .halt (.deadlock .rootDir) ∨
      (s.dropped h).referenced f.vnode = true ∧ leave h s = .ok () (s.dropped h) := by
  have m := before.mounted
  obtain ⟨x, hx, ne⟩ := m.slot_of_mem mine nonzero
  have settled := m.sound.settled hx
  obtain ⟨first, second⟩ := before.dropped_start mine (.rootDir :: s.held)
  have unfolded : dropFile h { s with held := .rootDir :: s.held } =
      dropArc f.vnode { s.dropped h with held := .rootDir :: s.held } := by
    rw [dropFile, Call.bind_ok first, Call.bind_ok second]
    rfl
  cases more : (s.dropped h).referenced f.vnode with
  | true =>
    refine .inr ⟨rfl, lock_ok (t := { s.dropped h with held := .rootDir :: s.held })
      m.rootDir_free (unfolded.trans ?_) rfl⟩
    rw [dropArc, Call.get_bind]
    exact congrFun (if_pos more) _
  | false =>
    refine .inl (lock_halt m.rootDir_free (unfolded.trans ?_))
    rw [dropArc, Call.get_bind]
    refine (congrFun (if_neg (by rw [Bool.eq_false_iff] at more; exact more)) _).trans ?_
    refine lock_halt (by simp [m.idle]) ?_
    rw [getInode_bind]
    obtain ⟨e, -, some, huge⟩ | ⟨n, trims, -, -⟩ := trim_ends (i := s.inodes f.vnode)
      (s := { s.dropped h with held := .inode f.vnode :: .rootDir :: s.held })
      (by simp [m.idle]) settled.size_lt settled.fits fun y hy => settled.marked y hy.owns
    · obtain none | empty := before.brief x f.vnode hx ne
      · exact absurd some (by omega)
      · exact absurd huge (by omega)
    · refine (Call.bind_ok trims).trans ?_
      exact erase_deadlock removed (List.mem_cons_of_mem _ List.mem_cons_self)

end Tidy

theorem find_of_isOk {es : List DirEntry} (found : (find path es).isOk = true) :
    ∃ x, find path es = .ok x := by
  cases looked : find path es with
  | ok x => exact ⟨x, rfl⟩
  | error e =>
    rw [looked] at found
    cases found

namespace Race.Inv

/-- What another call has to itself is none of the numbers of this one. -/
theorem apart (inv : Inv slots r) (mine : x ∈ (r.next t).sectors) {u : Nat} (ne : u ≠ t)
    (theirs : y ∈ (r.next u).sectors) : y ∉ ({x} : Set Nat) := by
  rintro rfl
  exact ne (inv.numbers u t y theirs mine)

theorem fresh_handle (inv : Inv slots r) (h : Nat) (new : r.sys.nextFile = h) (u : Nat) :
    (r.next u).handle? ≠ some h := by
  intro here
  exact absurd ((inv.holding u).handle_lt inv.tidy.mounted here)
    (by rw [new]; exact Nat.lt_irrefl h)

theorem mem_opened (s : Sys) (id : Nat) : (s.nextFile, id) ∈ (s.opened id).links :=
  List.mem_cons_self

theorem contains (inv : Inv slots r) (lt : t < r.threads) (path : Path) {yes no : Section}
    (stepped : r.pass (lock .rootDir (RootDir.contains path)) (fun found =>
      Race.goTo t (if found then yes else no))
      (Race.goTo t .idle) = some r')
    (holdingYes : ∀ s, Holding slots s yes) (holdingNo : ∀ s, Holding slots s no)
    (number : ∀ x, x ∉ yes.sectors ∧ x ∉ no.sectors)
    (handle : yes.handle? = none ∧ no.handle? = none) : Inv slots r' := by
  obtain ⟨p, looked⟩ := inv.tidy.mounted.contains path
  rw [pass_ok looked, Option.some.injEq] at stepped
  subst stepped
  cases (find path r.sys.entries).isOk with
  | true => exact inv.looks lt (inv.tidy.moves p) (holdingYes _) (fun x => (number x).1) handle.1
  | false => exact inv.looks lt (inv.tidy.moves p) (holdingNo _) (fun x => (number x).2) handle.2

theorem expects (inv : Inv slots r) (lt : t < r.threads) (path : Path)
    (found : (find path r.sys.entries).isOk = true)
    {sec : Nat → Section} (stepped : r.pass (lock .rootDir (expect (RootDir.path2inum path)))
      (fun inum => Race.goTo t (sec inum)) (Race.goTo t .idle) = some r')
    (holding : ∀ x s, x ≠ 1 → Holding slots s (sec x)) (number : ∀ x, ∀ y, y ∉ (sec x).sectors)
    (handle : ∀ x, (sec x).handle? = none) : Inv slots r' := by
  obtain ⟨x, here⟩ := find_of_isOk found
  obtain ⟨p, looked⟩ := inv.tidy.mounted.expect_path2inum here
  obtain ⟨ne, -⟩ := inv.tidy.mounted.slot_of_find here
  rw [pass_ok looked, Option.some.injEq] at stepped
  subst stepped
  exact inv.looks lt (inv.tidy.moves p) (holding x _ ne) (number x) (handle x)

theorem createAt (inv : Inv slots r) (lt : t < r.threads) (here : r.next t = .createAt path x)
    (found : find path r.sys.entries = .ok x) (known : (r.sys.upgrade x).isSome = true)
    (stepped : r.go t = some r') :
    Inv slots r' := by
  have m := inv.tidy.mounted
  obtain ⟨ne, -⟩ := m.slot_of_find found
  obtain ⟨id, up⟩ := Option.isSome_iff_exists.mp known
  have hx := (m.linked.upgrade x id).mp up
  rw [Race.go, here] at stepped
  simp only [pass_ok (m.upgradeFile_opened hx), Option.some.injEq] at stepped
  subst stepped
  have p := inv.tidy.opens hx ne
  refine inv.goTo lt p (fun _ _ _ _ => Set.notMem_empty _) (fun _ _ _ _ => Set.notMem_empty _)
    ⟨Nat.ne_of_gt m.nextFile_pos, id, mem_opened _ id, m.sound.sector_eq hx⟩
    (fun y number => by cases number) ?_ ?_
  · intro h handle u _
    cases handle
    exact inv.fresh_handle _ rfl u
  · intro path' era inum h same
    cases same
    exact ⟨rfl, p.find inv.tidy found (Set.notMem_empty x)⟩

theorem cutting {era : Nat} (inv : Inv slots r) (lt : t < r.threads)
    (here : r.next t = .cutting path era x h)
    (stepped : r.go t = some r') : Inv slots r' := by
  have m := inv.tidy.mounted
  have holding := inv.holding t
  rw [here] at holding
  obtain ⟨nonzero, id, mem, sector⟩ := holding
  obtain ⟨hx, ne⟩ := m.slot_of_link mem nonzero
  obtain ⟨u, done, change⟩ := m.setLen_zero mem nonzero
  rw [Race.go, here] at stepped
  simp only [pass_ok done, Option.some.injEq] at stepped
  subst stepped
  have p := inv.tidy.cuts hx ne change
  have link : (h, id) ∈ u.links := p.arcs.kept _ mem (Set.notMem_empty _)
  exact inv.returns lt p (fun _ _ _ _ => Set.notMem_empty _) (Set.empty_subset _)
    (fun _ _ _ _ => Set.notMem_empty _) (.inl (.inr ⟨t, h, here⟩)) link
    ((p.arcs.inode _ mem).1.trans sector)

theorem createMissing (inv : Inv slots r) (lt : t < r.threads)
    (here : r.next t = .createMissing path)
    (stepped : r.go t = some r') : Inv slots r' := by
  have m := inv.tidy.mounted
  have named := inv.holding t
  rw [here] at named
  rw [Race.go, here] at stepped
  obtain ⟨x, n, got, done⟩ | ⟨e, failed⟩ := m.alloc_one
  · simp only [pass_ok done, Option.some.injEq] at stepped
    subst stepped
    obtain ⟨p, reserved, free⟩ := inv.tidy.reserves got
    refine inv.goTo lt p (fun _ _ _ _ => Set.notMem_empty _)
      (fun _ _ _ _ => Set.notMem_empty _) ⟨named, reserved⟩ ?_
      (fun h handle => by cases handle) (fun _ _ _ _ same => by cases same)
    intro y number u _ theirs
    cases number
    rw [(inv.holding u).marked m theirs] at free
    cases free
  · simp only [pass_err failed, Option.some.injEq] at stepped
    subst stepped
    exact inv.looks lt inv.tidy.refl trivial (fun y mine => by cases mine) rfl

theorem carriesOn (inv : Inv slots r) (lt : t < r.threads) (p : Passes slots slots' r.sys s X ∅ ∅ ∅)
    (mine : x ∈ (r.next t).sectors) (sub : X ⊆ {x}) (holding : Holding slots' s sec)
    (number : ∀ y ∈ sec.sectors, y = x)
    (handle : ∀ h, sec.handle? = some h → r.sys.nextFile = h)
    (still : ∀ path era inum h, sec ≠ .cutting path era inum h) :
    Inv slots' (Race.goTo t sec { r with sys := s }) := by
  refine inv.goTo lt p (fun u ne y theirs mem => inv.apart mine ne theirs (sub mem))
    (fun _ _ _ _ => Set.notMem_empty _)
    holding ?_ ?_ (fun path era inum h same => absurd same (still path era inum h))
  · intro y here u ne theirs
    exact inv.apart mine ne theirs (number y here)
  · intro h here u _
    exact inv.fresh_handle h (handle h here) u

theorem allocated (inv : Inv slots r) (lt : t < r.threads) (here : r.next t = .allocated path x)
    (stepped : r.go t = some r') : Inv slots r' := by
  have holding := inv.holding t
  rw [here] at holding
  rw [Race.go, here] at stepped
  simp only [pass_ok inv.tidy.mounted.alloc_none, Option.some.injEq] at stepped
  subst stepped
  refine inv.carriesOn (x := x) lt inv.tidy.refl (by rw [here]; exact rfl) (Set.empty_subset _)
    ⟨holding.1, holding.2, rfl⟩ ?_
    (fun h handle => by cases handle) (fun _ _ _ _ same => by cases same)
  intro y number
  cases number
  rfl

theorem making {start : Nat} (inv : Inv slots r) (lt : t < r.threads)
    (here : r.next t = .making path x start)
    (stepped : r.go t = some r') : ∃ slots', Inv slots' r' := by
  have m := inv.tidy.mounted
  have holding := inv.holding t
  rw [here] at holding
  obtain ⟨named, reserved, rfl⟩ := holding
  rw [Race.go, here] at stepped
  simp only [pass_ok (m.create_empty x), Option.some.injEq] at stepped
  subst stepped
  obtain ⟨p, held, unnamed⟩ := inv.tidy.makes reserved
  refine ⟨_, inv.carriesOn lt p (by rw [here]; exact rfl) subset_rfl ⟨named, held, unnamed⟩ ?_
    (fun h handle => by cases handle)
    (fun _ _ _ _ same => by cases same)⟩
  intro y number
  cases number
  rfl

theorem made (inv : Inv slots r) (lt : t < r.threads) (here : r.next t = .made path x id)
    (stepped : r.go t = some r') : ∃ slots', Inv slots' r' := by
  have m := inv.tidy.mounted
  have holding := inv.holding t
  rw [here] at holding
  obtain ⟨named, held, unnamed⟩ := holding
  rw [Race.go, here] at stepped
  simp only [pass_ok (m.registerFile_eq x id), Option.some.injEq] at stepped
  subst stepped
  obtain ⟨p, same⟩ := inv.tidy.adopts held
  have inode : (r.sys.adopted x id).inodes id = ⟨.new x 0,
    DiskInode.ofSector (r.sys.disk x)⟩ := held.inode
  refine ⟨_, inv.carriesOn lt p (by rw [here]; exact rfl) subset_rfl
    ⟨named, same ▸ unnamed, Nat.ne_of_gt m.nextFile_pos, id,
    List.mem_cons_self, by rw [inode]; rfl, by rw [inode]; rfl⟩ ?_ ?_
    (fun _ _ _ _ same => by cases same)⟩
  · intro y number
    cases number
    rfl
  · intro h handle
    cases handle
    rfl

theorem reopened (inv : Inv slots r) (lt : t < r.threads) (here : r.next t = .reopened path x id)
    (stepped : r.go t = some r') : ∃ slots', Inv slots' r' := by
  have holding := inv.holding t
  rw [here] at holding
  rw [Race.go, here] at stepped
  simp only [pass_ok (inv.tidy.mounted.registerFile_eq x id), Option.some.injEq] at stepped
  subst stepped
  obtain ⟨p, -⟩ := inv.tidy.adopts holding
  exact ⟨_, inv.carriesOn lt p (by rw [here]; exact rfl) subset_rfl trivial
    (fun y number => by cases number)
    (fun h handle => by cases handle) (fun _ _ _ _ same => by cases same)⟩

theorem reopening (inv : Inv slots r) (lt : t < r.threads) (here : r.next t = .reopening path x)
    (stepped : r.go t = some r') : Inv slots r' := by
  have closed := inv.holding t
  rw [here] at closed
  rw [Race.go, here] at stepped
  simp only [pass_ok (inv.tidy.mounted.openAt_closed closed), Option.some.injEq] at stepped
  subst stepped
  obtain ⟨p, held⟩ := inv.tidy.reads closed
  refine inv.carriesOn (x := x) lt p (by rw [here]; exact rfl) (Set.empty_subset _) held ?_
    (fun h handle => by cases handle)
    (fun _ _ _ _ same => by cases same)
  intro y number
  cases number
  rfl

theorem openAt (inv : Inv slots r) (lt : t < r.threads) (here : r.next t = .openAt path x)
    (fine : (r.sys.upgrade x).isSome = true ∨
      find path r.sys.entries = .ok x ∧ ∀ u < r.threads, (r.next u).number? ≠ some x)
    (stepped : r.go t = some r') : Inv slots r' := by
  have m := inv.tidy.mounted
  have ne := inv.holding t
  rw [here] at ne
  rw [Race.go, here] at stepped
  cases up : r.sys.upgrade x with
  | some id =>
    have hx := (m.linked.upgrade x id).mp up
    simp only [pass_ok (m.openKnown_opened hx), if_true, Option.some.injEq] at stepped
    subst stepped
    exact inv.looks lt (inv.tidy.opens hx ne) trivial (fun y mine => by cases mine) rfl
  | none =>
    simp only [pass_ok (m.openKnown_none up), Bool.false_eq_true, if_false,
      Option.some.injEq] at stepped
    subst stepped
    rw [up] at fine
    obtain none | ⟨found, alone⟩ := fine
    · cases none
    obtain ⟨-, ⟨id, hx⟩ | closed⟩ := m.slot_of_find found
    · rw [(m.linked.upgrade x id).mpr hx] at up
      cases up
    refine inv.goTo lt inv.tidy.refl (fun _ _ _ _ => Set.notMem_empty _)
      (fun _ _ _ _ => Set.notMem_empty _) closed ?_
      (fun h handle => by cases handle) (fun _ _ _ _ same => by cases same)
    intro y number u _ theirs
    cases number
    by_cases beyond : r.threads ≤ u
    · rw [inv.resting u beyond] at theirs
      cases theirs
    · exact alone u (Nat.lt_of_not_le beyond)
        ((inv.holding u).number_of_known theirs (by rw [closed]; rfl))

theorem not_marking (inv : Inv slots r) (free : r.Open t)
    (needs : (r.next t).needs = some .rootDir) (u : Nat) : r.next u ≠ .marking x := by
  intro marks
  by_cases beyond : r.threads ≤ u
  · rw [inv.resting u beyond] at marks
    cases marks
  · refine free .rootDir needs u (Nat.lt_of_not_le beyond) ?_
    rw [marks]
    exact List.mem_cons_self

theorem naming (inv : Inv slots r) (lt : t < r.threads) (free : r.Open t)
    (here : r.next t = .naming path x h)
    (fine : (find path r.sys.entries).isOk = true → ∀ e ∈ r.sys.entries, e.isValid = true)
    (stepped : r.go t = some r') : Inv slots r' := by
  have m := inv.tidy.mounted
  have holding := inv.holding t
  rw [here] at holding
  obtain ⟨named, unnamed, nonzero, id, mem, sector, stays⟩ := holding
  obtain ⟨hx, ne⟩ := m.slot_of_link mem nonzero
  rw [sector] at hx ne
  have mine : x ∈ (r.next t).sectors := by rw [here]; exact rfl
  rw [Race.go, here] at stepped
  obtain ⟨-, e, q, failed⟩ | ⟨i, q, slot, done⟩ := m.insert_cases named x
  · simp only [pass_err failed, Option.some.injEq] at stepped
    subst stepped
    have p := inv.tidy.moves q
    refine inv.goTo lt p (fun _ _ _ _ => Set.notMem_empty _) (fun _ _ _ _ => Set.notMem_empty _)
      ⟨nonzero, id, p.arcs.kept _ mem (Set.notMem_empty _)⟩ (fun y number => by cases number) ?_
      (fun _ _ _ _ same => by cases same)
    intro h' handle u apart theirs
    cases handle
    exact apart (inv.handles u t h theirs (by rw [here]; rfl))
  · simp only [pass_ok done, Option.some.injEq] at stepped
    subst stepped
    cases missing : find path r.sys.entries with
    | ok y =>
      rw [missing] at fine
      obtain ⟨inside, unused, -⟩ := List.findIdx?_eq_some_iff_getElem.mp slot
      rw [fine rfl _ (List.getElem_mem inside)] at unused
      cases unused
    | error e =>
      obtain ⟨p, found⟩ := inv.tidy.inserts hx ne stays named missing slot q
      have link := p.arcs.kept (h, id) mem (Set.notMem_empty _)
      exact inv.returns lt p (fun u other y theirs => inv.apart mine other theirs) subset_rfl
        (fun u _ y marks => absurd marks (inv.not_marking free (by rw [here]; rfl) u))
        (.inr ⟨rfl, found⟩) link
        ((p.arcs.inode _ mem).1.trans sector)

/-- A descriptor goes, or a local `Arc`; the thread closes the inode if it was the last one. -/
theorem releasing (inv : Inv slots r) (lt : t < r.threads) {f : File}
    (mine : (h, f) ∈ r.sys.files) (nonzero : h ≠ 0)
    (alone : ∀ u ≠ t, (r.next u).handle? ≠ some h) :
    ∃ slots' last s, release h r.sys = .ok last s ∧
      Inv slots' (Race.goTo t (.close last) { r with sys := s }) := by
  have m := inv.tidy.mounted
  have done := inv.tidy.release_eq mine
  have stays : ∀ u ≠ t, ∀ h', (r.next u).handle? = some h' → h' ∉ ({h} : Set Nat) := by
    rintro u ne h' theirs rfl
    exact alone u ne theirs
  cases more : (r.sys.dropped h).referenced f.vnode with
  | true =>
    rw [more, if_pos rfl] at done
    refine ⟨slots, none, _, done, inv.goTo lt (inv.tidy.leaves mine nonzero more)
      (fun _ _ _ _ => Set.notMem_empty _) stays trivial (fun x number => by cases number)
      (fun h handle => by cases handle) (fun _ _ _ _ same => by cases same)⟩
  | false =>
    obtain ⟨x, hx, -⟩ := m.slot_of_mem mine nonzero
    rw [more, if_neg Bool.false_ne_true] at done
    obtain ⟨p, dying⟩ := inv.tidy.leavesLast mine nonzero hx more
    refine ⟨_, some (r.sys.inodes f.vnode), _, done, inv.goTo lt p
      (fun _ _ _ _ => Set.notMem_empty _) stays dying ?_ (fun h handle => by cases handle)
      (fun _ _ _ _ same => by cases same)⟩
    -- Nobody has a sector of the inode to himself, unless he has an `Arc` of it.
    intro y gone u ne theirs
    obtain ⟨-, -, h', theirs, link⟩ :=
      (inv.holding u).not_owned m theirs hx (m.sound.owned_of_given hx gone)
    have kept : (h', f.vnode) ∈ (r.sys.dropped h).links := by
      rw [Mounted.links_dropped]
      exact List.mem_filter.mpr ⟨link, bne_iff_ne.mpr fun same => stays u ne h' theirs same⟩
    rw [referenced_iff.mpr ⟨_, kept, rfl⟩] at more
    cases more

theorem failing (inv : Inv slots r) (lt : t < r.threads) (here : r.next t = .failing h)
    (stepped : r.go t = some r') :
    ∃ slots', Inv slots' r' := by
  have holding := inv.holding t
  rw [here] at holding
  obtain ⟨nonzero, id, mem⟩ := holding
  obtain ⟨f, mine, -⟩ := inv.tidy.mounted.file_of_link mem
  obtain ⟨slots', last, s, done, after⟩ := inv.releasing lt mine nonzero fun u ne theirs =>
    ne (inv.handles u t h theirs (by rw [here]; rfl))
  rw [Race.go, here] at stepped
  simp only [pass_ok done, Option.some.injEq] at stepped
  exact ⟨slots', stepped ▸ after⟩

theorem closing {i : Inode} (inv : Inv slots r) (lt : t < r.threads)
    (here : r.next t = .closing i) (stepped : r.go t = some r') : Inv slots r' := by
  have dying := inv.holding t
  rw [here] at dying
  have mine : ∀ y, i.Tail y ∨ i.Rest y → y ∈ (r.next t).sectors := by
    rw [here]
    exact fun _ gone => gone
  obtain ⟨n, done, p⟩ := inv.tidy.trims dying fun y tail => .inl tail
  rw [Race.go, here] at stepped
  simp only [pass_ok done, Option.some.injEq] at stepped
  subst stepped
  have out : ∀ u ≠ t, ∀ y ∈ (r.next u).sectors, y ∉ ({y | i.Tail y} : Set Nat) :=
    fun u ne y theirs tail => ne (inv.numbers u t y theirs (mine y (.inl tail)))
  by_cases removed : i.desc.removed = true
  · rw [if_pos removed]
    -- What is left to be given back is none of the sectors behind the length.
    have rest : ∀ y, i.Rest y → ¬i.Tail y := by
      rintro y ⟨-, rfl | head⟩ tail
      · exact dying.apart tail.owns
      · exact tail.not_head head
    have left : Dying slots r.sys i {y | i.Rest y} :=
      ⟨dying.total, dying.fits, dying.apart, dying.brief,
        fun y mem => dying.reserved y (.inr mem), dying.unnamed⟩
    refine inv.goTo lt p out (fun _ _ _ _ => Set.notMem_empty _)
      ⟨removed, left.passes p rest fun _ => Set.notMem_empty _⟩ ?_
      (fun h handle => by cases handle) (fun _ _ _ _ same => by cases same)
    exact fun y gone u ne theirs => ne (inv.numbers u t y theirs (mine y (.inr gone)))
  · rw [if_neg removed]
    exact inv.goTo lt p out (fun _ _ _ _ => Set.notMem_empty _) trivial
      (fun x number => by cases number) (fun h handle => by cases handle)
      (fun _ _ _ _ same => by cases same)

theorem clearing {i : Inode} (inv : Inv slots r) (lt : t < r.threads)
    (here : r.next t = .clearing i) (stepped : r.go t = some r') : Inv slots r' := by
  have holding := inv.holding t
  rw [here] at holding
  obtain ⟨removed, dying⟩ := holding
  obtain ⟨q, n, done, p⟩ := inv.tidy.erases removed dying
  rw [Race.go, here] at stepped
  simp only [pass_ok done, Option.some.injEq] at stepped
  subst stepped
  refine inv.goTo lt p ?_ (fun _ _ _ _ => Set.notMem_empty _) trivial
    (fun x number => by cases number) (fun h handle => by cases handle)
    (fun _ _ _ _ same => by cases same)
  intro u ne y theirs gone
  exact ne (inv.numbers u t y theirs (by rw [here]; exact gone))

theorem removing (inv : Inv slots r) (lt : t < r.threads) (here : r.next t = .removing path)
    (stepped : r.go t = some r') : Inv slots r' := by
  have m := inv.tidy.mounted
  obtain ⟨p, looked⟩ := m.path2inum path
  rw [Race.go, here] at stepped
  cases found : find path r.sys.entries with
  | ok x =>
    rw [found] at looked
    obtain ⟨ne, -⟩ := m.slot_of_find found
    simp only [pass_ok looked, Option.some.injEq] at stepped
    subst stepped
    exact inv.looks lt (inv.tidy.moves p) ne (fun y mine => by cases mine) rfl
  | error e =>
    rw [found] at looked
    simp only [pass_err looked, Option.some.injEq] at stepped
    subst stepped
    exact inv.looks lt (inv.tidy.moves p) trivial (fun y mine => by cases mine) rfl

theorem removeAt (inv : Inv slots r) (lt : t < r.threads) (here : r.next t = .removeAt path x)
    (stepped : r.go t = some r') : Inv slots r' := by
  have m := inv.tidy.mounted
  have ne := inv.holding t
  rw [here] at ne
  obtain ⟨q, done⟩ := m.strikeInum_eq x
  rw [Race.go, here] at stepped
  simp only [pass_ok done, Option.some.injEq] at stepped
  subst stepped
  have p := inv.tidy.strikes x q (.strike _ x)
  have unnamed : Unnamed ((r.sys.strike x 0).setPos 0 q).entries x := by
    rw [Mounted.entries_struck m.sound x q]
    exact fun e he valid => (mem_map_strike he valid).2
  refine inv.step (t := t) lt (Eq.refl (Function.update r.next t (.marking x))) rfl inv.running p
    (fun _ _ _ _ => Set.notMem_empty _) (Set.empty_subset _) (fun _ _ _ _ => Set.notMem_empty _)
    (fun _ _ _ _ => Set.notMem_empty _) ⟨ne, unnamed⟩ (fun y number => by cases number)
    (fun h handle => by cases handle) ?_ ?_ ?_ (fun c hc => .inl hc)
  · intro path' era inum promised
    obtain before | ⟨h, cuts⟩ :=
      promised.before (Eq.refl (Function.update r.next t (.marking x))) rfl
    · exact .inl before
    · cases cuts
  · intro path'
    change r.removals path' ≤ r.bump x path'
    rw [bump]
    split
    · exact Nat.le_succ _
    · exact le_rfl
  · rintro path' inum found same rfl
    change r.bump inum path' = r.removals path' at same
    rw [bump, if_pos found] at same
    exact absurd same (Nat.succ_ne_self _)

theorem marking (inv : Inv slots r) (lt : t < r.threads) (here : r.next t = .marking x)
    (fine : (r.sys.upgrade x).isSome = true → ∀ u < r.threads, (r.next u).number? ≠ some x)
    (stepped : r.go t = some r') : Inv slots r' := by
  have m := inv.tidy.mounted
  have holding := inv.holding t
  rw [here] at holding
  obtain ⟨ne, unnamed⟩ := holding
  rw [Race.go, here] at stepped
  cases up : r.sys.upgrade x with
  | none =>
    simp only [pass_ok (m.markInum_none up), Option.elim_none, Option.some.injEq] at stepped
    subst stepped
    exact inv.looks lt inv.tidy.refl trivial (fun y mine => by cases mine) rfl
  | some id =>
    rw [up] at fine
    have hx := (m.linked.upgrade x id).mp up
    simp only [pass_ok (m.markInum_opened hx), Option.elim_some, Option.some.injEq] at stepped
    subst stepped
    have opened := inv.tidy.opens hx ne
    have marks := opened.tidy.marks hx ne (entries_opened m.nextFile_pos ▸ unnamed)
    have alone : ∀ u ≠ t, x ∉ (r.next u).sectors := by
      intro u _ theirs
      by_cases beyond : r.threads ≤ u
      · rw [inv.resting u beyond] at theirs
        cases theirs
      · exact fine rfl u (Nat.lt_of_not_le beyond)
          ((inv.holding u).number_of_known theirs (by rw [hx]; rfl))
    have inode : ((r.sys.opened id).marked id).inodes id =
        ⟨{ (r.sys.inodes id).desc with removed := true }, (r.sys.inodes id).data⟩ :=
      Function.update_self ..
    refine inv.goTo lt (opened.trans marks) ?_ (fun _ _ _ _ => Set.notMem_empty _)
      ⟨Nat.ne_of_gt m.nextFile_pos, id, mem_opened _ id, ?_, ?_⟩ ?_ ?_
      (fun _ _ _ _ same => by cases same)
    · rintro u apart y theirs rfl
      exact alone u apart theirs
    · rw [inode]
      exact m.sound.sector_eq hx
    · rw [inode]
    · intro y mine u apart
      cases mine
      exact alone u apart
    · intro h handle u _
      cases handle
      exact inv.fresh_handle _ rfl u

theorem leaving (inv : Inv slots r) (lt : t < r.threads) (here : r.next t = .leaving x h)
    (stepped : r.go t = some r') : Inv slots r' := by
  have holding := inv.holding t
  rw [here] at holding
  obtain ⟨nonzero, id, mem, -, removed⟩ := holding
  obtain ⟨f, mine, rfl, -⟩ := inv.tidy.mounted.file_of_link mem
  rw [Race.go, here] at stepped
  obtain stops | ⟨more, done⟩ := inv.tidy.leave_ends mine nonzero removed
  · simp only [pass_deadlock stops] at stepped
    cases stepped
  · simp only [pass_ok done, Option.some.injEq] at stepped
    subst stepped
    refine inv.goTo lt (inv.tidy.leaves mine nonzero more) (fun _ _ _ _ => Set.notMem_empty _) ?_
      trivial (fun x number => by cases number) (fun h handle => by cases handle)
      (fun _ _ _ _ same => by cases same)
    rintro u ne h' theirs rfl
    exact ne (inv.handles u t h' theirs (by rw [here]; rfl))

theorem unopened (inv : Inv slots r) (lt : t < r.threads) (here : r.next t = .unopened x)
    (stepped : r.go t = some r') : Inv slots r' := by
  rw [Race.go, here] at stepped
  obtain stops | ⟨e, failed⟩ := inv.tidy.mounted.removeUnopened_ends x
  · simp only [pass_deadlock stops] at stepped
    cases stepped
  · simp only [pass_err failed, Option.some.injEq] at stepped
    subst stepped
    exact inv.looks lt inv.tidy.refl trivial (fun y mine => by cases mine) rfl

end Race.Inv

namespace Race

namespace Inv

/-- Each section keeps the invariant, if what it relies on still holds. -/
theorem go (inv : Inv slots r) (lt : t < r.threads) (free : r.Open t)
    (fine : r.Undisturbed (.go t)) (stepped : r.go t = some r') :
    ∃ slots', Inv slots' r' := by
  cases here : r.next t with
  | idle =>
    rw [Race.go, here] at stepped
    cases stepped
  | creating path =>
    have named := inv.holding t
    rw [here] at named
    rw [Race.go, here] at stepped
    exact ⟨slots, inv.contains lt path stepped (fun _ => trivial)
      (fun _ => named) (fun _ => ⟨fun mine => (by cases mine), fun mine => (by cases mine)⟩)
      ⟨rfl, rfl⟩⟩
  | createFound path =>
    rw [Undisturbed, here, Relies] at fine
    rw [Race.go, here] at stepped
    exact ⟨slots, inv.expects lt path fine stepped (fun _ _ _ => trivial)
      (fun _ _ mine => by cases mine) fun _ => rfl⟩
  | createAt path inum =>
    rw [Undisturbed, here, Relies] at fine
    exact ⟨slots, inv.createAt lt here fine.1 fine.2 stepped⟩
  | cutting path era inum h => exact ⟨slots, inv.cutting lt here stepped⟩
  | createMissing path => exact ⟨slots, inv.createMissing lt here stepped⟩
  | allocated path sector => exact ⟨slots, inv.allocated lt here stepped⟩
  | making path sector start => exact inv.making lt here stepped
  | made path sector vnode => exact inv.made lt here stepped
  | naming path sector h =>
    rw [Undisturbed, here, Relies] at fine
    exact ⟨slots, inv.naming lt free here fine stepped⟩
  | failing h => exact inv.failing lt here stepped
  | opening path =>
    rw [Race.go, here] at stepped
    exact ⟨slots, inv.contains lt path stepped (fun _ => trivial)
      (fun _ => trivial) (fun _ => ⟨fun mine => (by cases mine), fun mine => (by cases mine)⟩)
      ⟨rfl, rfl⟩⟩
  | openFound path =>
    rw [Undisturbed, here, Relies] at fine
    rw [Race.go, here] at stepped
    exact ⟨slots, inv.expects lt path fine stepped (fun _ _ ne => ne)
      (fun _ _ mine => by cases mine) fun _ => rfl⟩
  | openAt path inum =>
    rw [Undisturbed, here, Relies] at fine
    exact ⟨slots, inv.openAt lt here fine stepped⟩
  | reopening path inum => exact ⟨slots, inv.reopening lt here stepped⟩
  | reopened path inum vnode => exact inv.reopened lt here stepped
  | removing path => exact ⟨slots, inv.removing lt here stepped⟩
  | removeAt path inum => exact ⟨slots, inv.removeAt lt here stepped⟩
  | marking inum =>
    rw [Undisturbed, here, Relies] at fine
    exact ⟨slots, inv.marking lt here fine stepped⟩
  | leaving inum h => exact ⟨slots, inv.leaving lt here stepped⟩
  | unopened inum => exact ⟨slots, inv.unopened lt here stepped⟩
  | closing i => exact ⟨slots, inv.closing lt here stepped⟩
  | clearing i => exact ⟨slots, inv.clearing lt here stepped⟩

theorem call {a : Request} (inv : Inv slots r) (lt : t < r.threads)
    (stepped : r.call t a = some r') :
    ∃ slots', Inv slots' r' := by
  cases here : r.next t with
  | idle =>
    unfold Race.call at stepped
    rw [here] at stepped
    cases a with
    | create path =>
      obtain ⟨named, same⟩ := Option.ite_none_right_eq_some.mp stepped
      obtain rfl := Option.some.inj same
      exact ⟨slots, inv.looks lt inv.tidy.refl named (fun y mine => by cases mine) rfl⟩
    | openFile path =>
      obtain ⟨-, same⟩ := Option.ite_none_right_eq_some.mp stepped
      obtain rfl := Option.some.inj same
      exact ⟨slots, inv.looks lt inv.tidy.refl trivial (fun y mine => by cases mine) rfl⟩
    | remove path =>
      obtain ⟨-, same⟩ := Option.ite_none_right_eq_some.mp stepped
      obtain rfl := Option.some.inj same
      exact ⟨slots, inv.looks lt inv.tidy.refl trivial (fun y mine => by cases mine) rfl⟩
    | drop h =>
      obtain ⟨⟨nonzero, mem, free⟩, passed⟩ := Option.ite_none_right_eq_some.mp stepped
      obtain ⟨⟨h', f⟩, mine, rfl⟩ := List.mem_map.mp mem
      have alone : ∀ u ≠ t, (r.next u).handle? ≠ some h' := by
        intro u _ theirs
        by_cases beyond : r.threads ≤ u
        · rw [inv.resting u beyond] at theirs
          cases theirs
        · exact free ⟨u, Nat.lt_of_not_le beyond, theirs⟩
      obtain ⟨slots', last, s, done, after⟩ := inv.releasing lt mine nonzero alone
      rw [pass_ok done, Option.some.injEq] at passed
      exact ⟨slots', passed ▸ after⟩
  | _ =>
    unfold Race.call at stepped
    rw [here] at stepped
    cases stepped

theorem turn {e : Turn} (inv : Inv slots r) (fine : r.Undisturbed e)
    (stepped : r.step e = some r') :
    ∃ slots', Inv slots' r' := by
  cases e with
  | call t a =>
    obtain ⟨⟨lt, -⟩, called⟩ := Option.ite_none_right_eq_some.mp stepped
    exact inv.call lt called
  | go t =>
    obtain ⟨⟨lt, -, free⟩, passed⟩ := Option.ite_none_right_eq_some.mp stepped
    exact inv.go lt free fine passed

theorem safe (inv : Inv slots r) : Safe r := by
  have promise : ∀ c ∈ r.created, r.Promised c.path c.era c.inum :=
    fun c hc => .inl ⟨c, hc, rfl, rfl, rfl⟩
  have agree : ∀ c ∈ r.created, ∀ d ∈ r.created, c.path = d.path →
    c.era = d.era → c.inum = d.inum := by
    intro c hc d hd path era
    exact inv.agree c.path c.era c.inum d.inum (promise c hc) (path ▸ era ▸ promise d hd)
  refine ⟨inv.running, inv.tidy.distinct, fun c hc => (inv.kept _ _ _ (promise c hc)).2, agree, ?_⟩
  intro c hc d hd path era id id' mem mem'
  have m := inv.tidy.mounted
  -- An inode number has one inode in memory.
  obtain ⟨y, hy, -⟩ := m.linked.live (c.h, id) mem
  obtain ⟨z, hz, -⟩ := m.linked.live (d.h, id') mem'
  have sector : y = c.inum := (m.sound.sector_eq hy).symm.trans ((inv.returned c hc).2 id mem)
  have sector' : z = d.inum := (m.sound.sector_eq hz).symm.trans ((inv.returned d hd).2 id' mem')
  have same : z = y := by rw [sector, sector', agree c hc d hd path era]
  rw [same, hy] at hz
  exact Slot.opened.inj (Option.some.inj hz)

end Inv

/-- A file system at rest: only the root directory is open, and no two entries in use have one
name. -/
structure AtRest (slots : Slots) (s : Sys) : Prop where
  mounted : Mounted slots s
  only : ∃ root, s.files = [(0, .new root)]
  distinct : Distinct s.entries

theorem AtRest.tidy (rest : AtRest slots s) : Tidy slots s := by
  obtain ⟨root, only⟩ := rest.only
  have links : s.links = [(0, root)] := by
    rw [Sys.links, only]
    rfl
  have m := rest.mounted
  have rootSlot := m.sound.root.slot
  have vnode : (s.file 0).vnode = root := by
    rw [Sys.file, only]
    rfl
  have one : ∀ x id, slots x = some (.opened id) → x = 1 := by
    intro x id hx
    obtain ⟨q, hq, same⟩ := (upgrade_iff.mp ((m.linked.upgrade x id).mpr hx)).2
    rw [links, List.mem_singleton] at hq
    rw [hq] at same
    rw [vnode] at rootSlot
    exact m.sound.opened_inj hx (same ▸ rootSlot)
  refine ⟨m, rest.distinct, ?_, fun x id hx ne => absurd (one x id hx) ne, ?_⟩
  · rw [only]
    intro p hp
    rw [List.mem_singleton.mp hp]
    rfl
  · rintro x id hx - e he valid
    rw [one x id hx]
    exact (m.known e he valid).2

theorem start_inv (rest : AtRest slots s) (threads : Nat) : Inv slots (start s threads) := by
  refine ⟨rest.tidy, rfl, fun _ _ => rfl, fun _ => trivial, fun t u x h => (by cases h),
    fun t u h h' => (nomatch h'), ?_, ?_, ?_⟩
  · rintro path era inum (⟨c, hc, -⟩ | ⟨t, h, here⟩)
    · cases hc
    · cases here
  · rintro path era inum inum' (⟨c, hc, -⟩ | ⟨t, h, here⟩)
    · cases hc
    · cases here
  · intro c hc
    cases hc

/-- Threads that create, open, remove and drop files are safe, however their sections interleave,
as long as what a thread has found out still holds when it relies on it. -/
theorem undisturbed_threads_safe {threads : Nat} {es : List Turn} (rest : AtRest slots s)
    (meets : Guarded step Undisturbed (start s threads) es)
    (ran : run step (start s threads) es = some r) : Safe r := by
  have kept : ∃ slots', Inv slots' r := by
    refine guarded_run_invariant (I := fun r => ∃ slots, Inv slots r) ?_
      ⟨slots, start_inv rest threads⟩ meets ran
    rintro r e r' ⟨slots, inv⟩ fine stepped
    exact inv.turn fine stepped
  obtain ⟨slots', inv⟩ := kept
  exact inv.safe

theorem mount_atRest {capacity : Nat} {s t : Sys} (blank : Blank s)
    (got : mount capacity s = .ok () t) :
    AtRest (formatted t) t := by
  have m := mount_mounted blank got
  obtain ⟨a, b, n, -, frame⟩ := mount_blank blank got
  refine ⟨m, ⟨s.nextInode + 1, ?_⟩, ?_⟩
  · rw [frame]
    rfl
  · intro i j d e hd _ valid
    rw [frame] at hd
    rw [entries_formatted d (List.mem_of_getElem? hd)] at valid
    cases valid

/-- Two threads make a file each at the same time. Then one opens a file while the other cuts it
to nothing. It is removed while both have it, and closed while the other file is opened. -/
def mingles : List Turn :=
  [.call 0 (.create [97]), .call 1 (.create [98]), .go 0, .go 1, .go 0, .go 1, .go 1, .go 0,
    .go 0, .go 1, .go 0, .go 1, .go 0, .go 1,
    .call 0 (.create [97]), .call 1 (.openFile [97]), .go 0, .go 1, .go 0, .go 1, .go 0, .go 1,
    .call 1 (.remove [97]), .go 1, .go 1, .go 0, .go 1, .go 1,
    .call 0 (.drop 1), .call 1 (.drop 3), .call 1 (.drop 4), .call 0 (.openFile [98]),
    .go 1, .go 0, .go 1, .go 0, .go 0]

theorem mingled_threads_safe : ∃ s r, mount 64 emptyDisk = .ok () s ∧
    Guarded step Undisturbed (start s 2) mingles ∧
    run step (start s 2) mingles = some r ∧ Safe r := by
  have computed : (mount 64 emptyDisk).returns (fun _ s =>
      decide (Guarded step Undisturbed (start s 2) mingles) &&
        (run step (start s 2) mingles).isSome) = true := by
    decide +kernel
  obtain ⟨_, s, mounted, facts⟩ := Outcome.returns_iff.mp computed
  rw [Bool.and_eq_true, decide_eq_true_iff, Option.isSome_iff_exists] at facts
  obtain ⟨meets, r, ran⟩ := facts
  exact ⟨s, r, mounted, meets, ran, undisturbed_threads_safe
    (mount_atRest blank_emptyDisk mounted) meets ran⟩

end Race

end Tacos.Fs
