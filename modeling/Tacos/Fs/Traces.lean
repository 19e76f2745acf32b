/- GID: Tacos/Fs/Traces
   generality: I
   source: src/fs/disk.rs, src/fs/disk/dir.rs, src/fs/disk/inode.rs
   digest: What a creation that fails leaves behind. -/

import Tacos.Fs.Deadlock

set_option autoImplicit false
set_option relaxedAutoImplicit false

namespace Tacos.Fs

open Tacos.Lib.Exec Tacos.Lib.Run FreeMap Inode RootDir
open Store (emptyDisk blank_emptyDisk)

variable {s t : Sys} {path : Path} {x : Nat} {n : FreeMap}

/-- The free map, the valid entries, the inodes in memory and the sectors in use are as they were.
-/
structure NoTrace (s t : Sys) : Prop where
  freeMap : t.freeMap = s.freeMap
  entries : t.entries.filter (·.isValid) = s.entries.filter (·.isValid)
  inodes : ∀ id < s.nextInode, t.inodes id = s.inodes id
  disk : ∀ y, s.freeMap.bit y = true → t.disk y = s.disk y

def RootMarked (s : Sys) : Prop := ∀ y, (s.inodeOf 0).Head y → s.freeMap.bit y = true

theorem sure_addU32 (a b : Nat) : Call.Sure (addU32 a b : M Nat) := by
  refine Call.Sure.ite (fun _ => ?_) (fun _ => ?_)
  · intro s e t failed
    cases failed
  · intro s e t failed
    cases failed

theorem sure_flushLen (id len : Nat) : Call.Sure (flushLen id len) := by
  refine Call.Sure.bind (fun s e t failed => nomatch failed) fun i => ?_
  refine Call.Sure.bind (fun s e t failed => nomatch failed) fun _ => ?_
  have write : Call.Sure (Call.modify fun s : Sys => { s with
      disk := Function.update s.disk i.desc.sector
        ({ i.data with len := len } : DiskInode).toSector } : M Unit) := by
    intro s e t failed
    cases failed
  exact withLock_sure write

theorem sure_cut (id : Nat) : Call.Sure (Inode.resize id 0) := by
  refine withLock_sure (withLock_sure
    (Call.Sure.bind (fun s e t failed => nomatch failed) fun i => ?_))
  refine Call.Sure.ite (fun _ s e t failed => nomatch failed) fun other => ?_
  refine Call.Sure.ite (fun _ => ?_) fun full => absurd (show 0 % 2 ^ 32 < i.data.len by omega) full
  refine Call.Sure.bind (sure_addU32 _ _) fun shrinkLen => ?_
  exact Call.Sure.bind (fun s e t failed => nomatch failed) fun _ => sure_flushLen id _

theorem sure_withArc {α : Type} {call : M α} (id : Nat) (sure : Call.Sure call) :
    Call.Sure (withArc id call) := by
  intro s e t failed
  obtain first | ⟨r, m, attempted, later⟩ := Call.bind_eq_err.mp failed
  · rw [Call.attempt] at first
    split at first
    · cases first
    · cases first
    · cases first
  · rw [Call.attempt] at attempted
    split at attempted
    · cases attempted
      cases later
    · rename_i bad
      exact sure _ _ _ bad
    · cases attempted

namespace Booted

theorem contains (b : Booted s) (path : Path) :
    ∃ p, lock .rootDir (RootDir.contains path) s =
      .ok (find path s.entries).isOk (s.setPos 0 p) := by
  obtain ⟨p, got⟩ := contains_eq path b.ready
  refine ⟨p, ?_⟩
  change RootDir.contains path { s with held := .rootDir :: s.held } = .ok
    (find path s.entries).isOk
    { s.setPos 0 p with held := .rootDir :: s.held } at got
  exact lock_ok (by simp [b.idle]) got rfl

theorem expect_path2inum (b : Booted s) (found : find path s.entries = .ok x) :
    ∃ p, lock .rootDir (expect (RootDir.path2inum path)) s = .ok x (s.setPos 0 p) := by
  obtain ⟨p, got⟩ := path2inum_eq path b.ready
  refine ⟨p, ?_⟩
  change RootDir.path2inum path { s with held := .rootDir :: s.held } =
    .ofExcept (find path s.entries)
    { s.setPos 0 p with held := .rootDir :: s.held } at got
  rw [found] at got
  refine lock_ok (by simp [b.idle]) (t := { s.setPos 0 p with held := .rootDir :: s.held }) ?_ rfl
  rw [expect, Call.bind_ok (Call.attempt_ok got)]
  rfl

theorem moved (b : Booted s) (p : Nat) : NoTrace s (s.setPos 0 p) := by
  refine ⟨rfl, ?_, fun id _ => rfl, fun y _ => rfl⟩
  rw [entries_setPos ⟨b.root, by simp [b.idle], by simp [b.idle]⟩]

/-- What is not found in memory and not on the disk either leaves nothing. -/
theorem upgradeOrOpen_err {e : OsError} (idle : s.held = [])
    (failed : DiskFs.upgradeOrOpen x s = .err e t) : t = s := by
  have virtio : Lock.virtio ∉ ({ s with held := [.inodeTable] } : Sys).held := by simp
  have locked : ({ s with held := .inodeTable :: s.held } : Sys) =
    { s with held := [.inodeTable] } := by rw [idle]
  obtain ⟨m, inner, rfl⟩ := (withLock_eq_err (by simp [Locks.held, idle])).mp failed
  change (Fs.upgrade x >>= _) { s with held := .inodeTable :: s.held } = _ at inner
  rw [locked] at inner
  have first : Fs.upgrade x { s with held := [.inodeTable] } = .ok
    (s.upgrade x) { s with held := [.inodeTable] } := rfl
  rw [Call.bind_ok first] at inner
  cases up : s.upgrade x with
  | some id =>
    rw [up] at inner
    cases inner
  | none =>
    rw [up] at inner
    change Inode.openAt x { s with held := [.inodeTable] } = _ at inner
    rw [Inode.openAt_eq x virtio] at inner
    split at inner
    · cases inner
    · cases inner
      change ({ s with held := [Lock.inodeTable].erase .inodeTable } : Sys) = s
      rw [List.erase_cons_head, ← idle]

theorem create_found (b : Booted s) (found : find path s.entries = .ok x) {e : OsError}
    (failed : DiskFs.create path s = .err e t) : NoTrace s t := by
  obtain ⟨p, looked⟩ := b.contains path
  rw [found] at looked
  have b₁ := b.setPos p
  have ready : FileReady s 0 := ⟨b.root, by simp [b.idle], by simp [b.idle]⟩
  obtain ⟨q, again⟩ := b₁.expect_path2inum (by rw [entries_setPos ready]; exact found)
  rw [setPos_setPos] at again
  rw [DiskFs.create] at failed
  obtain made | ⟨vnode, m, -, last⟩ := Call.bind_eq_err.mp failed
  · rw [DiskFs.createInode, Call.bind_ok looked] at made
    change DiskFs.createExisting path (s.setPos 0 p) = _ at made
    rw [DiskFs.createExisting, Call.bind_ok again] at made
    obtain opened | ⟨vnode, m, -, later⟩ := Call.bind_eq_err.mp made
    · obtain rfl := upgradeOrOpen_err (b.setPos q).idle opened
      exact b.moved q
    · obtain cut | ⟨_, _, -, last⟩ := Call.bind_eq_err.mp later
      · exact absurd cut (sure_withArc vnode (sure_cut vnode) m e t)
      · cases last
  · cases last

theorem started_inodeOf (b : Booted s) : (s.started x n).inodeOf 0 = s.inodeOf 0 := by
  have known := b.rooted
  have vnode : (s.file 0).vnode < s.nextInode := by
    obtain ⟨f, hf⟩ := Option.isSome_iff_exists.mp b.root
    have file : s.file 0 = f := by rw [Sys.file, hf, Option.getD_some]
    obtain ⟨before, after, split, -⟩ := List.lookup_eq_some_iff.mp hf
    refine file ▸ b.fresh (0, f.vnode) ?_
    rw [Sys.links, split]
    simp
  exact Function.update_of_ne (Nat.ne_of_lt vnode) _ _

theorem started_entries (b : Booted s) (marked : RootMarked s) (free : s.freeMap.bit x = false) :
    (s.started x n).entries = s.entries := by
  have inode := started_inodeOf (x := x) (n := n) b
  refine entries_congr (by rw [inode]) ?_
  intro i hi
  rw [inode]
  have other : (s.inodeOf 0).data.start + i / 512 ≠ x := by
    intro here
    have bit := marked ((s.inodeOf 0).data.start + i / 512)
      ⟨Nat.le_add_right _ _, Nat.add_lt_add_left (by omega) _⟩
    rw [here, free] at bit
    cases bit
  change Function.update s.disk x newData.toSector ((s.inodeOf 0).data.start + i / 512) _ = _
  rw [Function.update_of_ne other]
  rfl

theorem started_booted (b : Booted s) : Booted (s.started x n) := by
  have inode := started_inodeOf (x := x) (n := n) b
  refine ⟨b.idle, b.root, by rw [inode]; exact b.small, by rw [inode]; exact b.allowed, ?_⟩
  intro p hp
  exact lt_trans (b.fresh p hp) (Nat.lt_succ_self _)

/-- A creation under a new name ends with the insertion of the name, if there is a sector. -/
theorem create_missing (b : Booted s) (marked : RootMarked s) {e₀ : OsError}
    (missing : find path s.entries = .error e₀) :
    (∃ p, DiskFs.create path s = .err .diskSectorAllocFail (s.setPos 0 p) ∧
        ∀ y, y + 1 < s.freeMap.size → s.freeMap.bit y = true) ∨
      ∃ x n, s.freeMap.bit x = false ∧ x + 1 < s.freeMap.size ∧ n.bit x = true ∧
        ((isAscii path = true ∧ s.entries.findIdx? (fun e => !e.isValid) = none ∨
          ¬isAscii path = true) ∧
            (∃ e t, DiskFs.create path s = .err e t ∧ t.freeMap = n) ∨
          (isAscii path = true ∧ ∃ i, s.entries.findIdx? (fun e => !e.isValid) = some i) ∧
            ∀ e t, DiskFs.create path s ≠ .err e t) := by
  obtain ⟨p, looked⟩ := b.contains path
  rw [missing] at looked
  have b₁ := b.setPos p
  have unfolded : DiskFs.createInode path s = DiskFs.createNew path (s.setPos 0 p) := by
    rw [DiskFs.createInode, Call.bind_ok looked]
    rfl
  have ready : FileReady s 0 := ⟨b.root, by simp [b.idle], by simp [b.idle]⟩
  have entries₁ : (s.setPos 0 p).entries = s.entries := entries_setPos ready p
  have marked₁ : RootMarked (s.setPos 0 p) := by
    intro y hy
    rw [ready.inodeOf_setPos] at hy
    exact marked y hy
  obtain ⟨x, n, started, marks, free, past⟩ | ⟨failed, full⟩ := start_cases b₁.idle
  · have new := started fun sector vnode => do
      withArc vnode (lock .rootDir (RootDir.insert path sector))
      pure vnode
    have b₂ := b₁.started_booted (x := x) (n := n)
    have entries₂ := (b₁.started_entries (n := n) marked₁ free).trans entries₁
    have entered :
      ({ (s.setPos 0 p).started x n with held := .rootDir :: ((s.setPos 0 p).started x n).held } :
        Sys).entries =
        s.entries := entries₂
    have rootFree : Lock.rootDir ∉ ((s.setPos 0 p).started x n).held := by
      simp [Sys.started, b.idle]
    have bit : n.bit x = true := by
      rw [marks.bit, decide_eq_true ⟨le_rfl, Nat.lt_succ_self x⟩, Bool.or_true]
    have inode : ((s.setPos 0 p).started x n).inodes
      (s.setPos 0 p).nextInode = ⟨.new x 0, newData⟩ :=
      Function.update_self ..
    have created : ∀ {e u}, lock .rootDir (RootDir.insert path x)
      ((s.setPos 0 p).started x n) = .err e u →
        u.held = [] → u.inodes = ((s.setPos 0 p).started x n).inodes →
        DiskFs.create path s = .err e u := by
      intro e u locked held inodes
      have dropped := dropArc_new (s := u) (s.setPos 0 p).nextInode
        (by simp [held]) (inodes ▸ inode)
      rw [DiskFs.create, Call.bind_err
        (unfolded.trans (new.trans (Call.bind_err (withArc_err locked dropped))))]
    refine .inr ⟨x, n, free, past, bit, ?_⟩
    obtain ⟨ascii, refused, e, q, failed⟩ | ⟨ascii, failed⟩ | ⟨ascii, -, slot, stops⟩ |
      ⟨ascii, -, -, i, slot, q, done⟩ :=
      insert_cases path x b₂.ready b₂.small
    · rw [entered] at refused
      refine .inl ⟨.inl ⟨ascii, refused.resolve_right (not_not.mpr b₂.allowed)⟩, e,
        ((s.setPos 0 p).started x n).setPos 0 q, created
        (lock_err rootFree failed rfl) b.idle rfl, rfl⟩
    · exact .inl ⟨.inr ascii, _, _, created (lock_err rootFree failed rfl) b.idle rfl, rfl⟩
    · rw [entered] at slot
      refine .inr ⟨⟨ascii, slot⟩, fun e t failed => ?_⟩
      have locked : lock .rootDir (RootDir.insert path x)
        ((s.setPos 0 p).started x n) = .halt .bounds :=
        lock_halt rootFree stops
      have arc : withArc (s.setPos 0 p).nextInode (lock .rootDir (RootDir.insert path x))
          ((s.setPos 0 p).started x n) = .halt .bounds := Call.bind_halt (Call.attempt_halt locked)
      rw [DiskFs.create, Call.bind_halt (unfolded.trans (new.trans (Call.bind_halt arc)))] at failed
      cases failed
    · rw [entered] at slot
      refine .inr ⟨⟨ascii, i, slot⟩, fun e t failed => ?_⟩
      have locked : lock .rootDir (RootDir.insert path x) ((s.setPos 0 p).started x n) = .ok () _ :=
        lock_ok rootFree done rfl
      rw [DiskFs.create, Call.bind_ok
        (unfolded.trans (new.trans (Call.bind_ok (withArc_ok locked))))] at failed
      cases failed
  · have new := failed fun sector vnode => do
      withArc vnode (lock .rootDir (RootDir.insert path sector))
      pure vnode
    refine .inl ⟨p, ?_, full⟩
    rw [DiskFs.create, Call.bind_err (unfolded.trans new)]

end Booted

/-- A creation that fails leaves no trace exactly if the file exists, or there is no sector for
it, or its name is ASCII and there is an unused entry, where only the length of the name can be
wrong. -/
theorem failed_create_traceless_iff (b : Booted s) (marked : RootMarked s) (path : Path) :
    (∀ e t, DiskFs.create path s = .err e t → NoTrace s t) ↔
      (∃ x, find path s.entries = .ok x) ∨ (∀ y, y + 1 < s.freeMap.size → s.freeMap.bit y = true) ∨
        (isAscii path = true ∧ ∃ e ∈ s.entries, e.isValid = false) := by
  have unused : (∃ e ∈ s.entries, e.isValid = false) ↔ ∃ i,
    s.entries.findIdx? (fun e => !e.isValid) = some i := by
    rw [← Option.isSome_iff_exists, List.findIdx?_isSome, List.any_eq_true]
    simp
  rw [unused]
  cases found : find path s.entries with
  | ok x => exact ⟨fun _ => .inl ⟨x, rfl⟩, fun _ e t failed => b.create_found found failed⟩
  | error e₀ =>
    obtain ⟨p, failed, full⟩ | ⟨x, n, free, past, bit, cases⟩ := b.create_missing marked found
    · refine ⟨fun _ => .inr (.inl full), fun _ e t failed' => ?_⟩
      cases failed.symm.trans failed'
      exact b.moved p
    · have room : ¬∀ y, y + 1 < s.freeMap.size → s.freeMap.bit y = true := by
        intro full
        rw [full x past] at free
        cases free
      obtain ⟨refused, e, t, failed, map⟩ | ⟨⟨ascii, i, slot⟩, sure⟩ := cases
      · constructor
        · intro traceless
          have same := (traceless e t failed).freeMap
          rw [map] at same
          rw [same, free] at bit
          cases bit
        · rintro (⟨y, other⟩ | full | ⟨ascii, i, slot⟩)
          · cases other
          · exact absurd full room
          · obtain ⟨-, none⟩ | notAscii := refused
            · rw [none] at slot
              cases slot
            · exact absurd ascii notAscii
      · exact ⟨fun _ => .inr (.inr ⟨ascii, i, slot⟩), fun _ e t failed => absurd failed (sure e t)⟩

theorem Mounted.rootMarked {slots : Slots} (m : Mounted slots s) : RootMarked s := fun y hy =>
  m.sound.marked ((mem_owned_opened m.sound.root.slot y).mpr (.inr hy.owns))

theorem created_or_traceless : ∃ s, DiskFs.mount 64 emptyDisk = .ok () s ∧
    ∀ e t, DiskFs.create [97] s = .err e t → NoTrace s t := by
  have computed : (DiskFs.mount 64 emptyDisk).returns
    (fun _ s => decide (∃ e ∈ s.entries, e.isValid = false)) = true := by
    decide +kernel
  obtain ⟨_, s, mounted, unused⟩ := Outcome.returns_iff.mp computed
  have m := mount_mounted blank_emptyDisk mounted
  exact ⟨s, mounted, (failed_create_traceless_iff m.booted m.rootMarked [97]).mpr
    (.inr (.inr ⟨by decide, of_decide_eq_true unused⟩))⟩

/-- A name that is not ASCII takes a sector, although it is refused. -/
theorem refused_name_keeps_sector : ∃ s t, DiskFs.mount 64 emptyDisk = .ok () s ∧
    DiskFs.create [195, 169] s = .err .cstrFormatErr t ∧ ¬NoTrace s t := by
  have computed : (DiskFs.mount 64 emptyDisk).returns
    (fun _ s => (DiskFs.create [195, 169] s).fails fun e t =>
      decide (e = .cstrFormatErr) && (!s.freeMap.bit 11 && t.freeMap.bit 11)) =
        true := by decide +kernel
  obtain ⟨_, s, mounted, failing⟩ := Outcome.returns_iff.mp computed
  obtain ⟨e, t, failed, facts⟩ := Outcome.fails_iff.mp failing
  rw [Bool.and_eq_true, decide_eq_true_iff] at facts
  obtain ⟨rfl, taken⟩ := facts
  refine ⟨s, t, mounted, failed, fun trace => ?_⟩
  rw [trace.freeMap, Bool.not_and_self] at taken
  cases taken

end Tacos.Fs
