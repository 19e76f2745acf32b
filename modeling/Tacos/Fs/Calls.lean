/- GID: Tacos/Fs/Calls
   generality: I
   source: src/fs/disk.rs
   digest: Creating and removing files in a mounted file system, case by case. -/

import Tacos.Fs.Files

set_option autoImplicit false
set_option relaxedAutoImplicit false

namespace Tacos.Fs

open Tacos.Lib.Exec Tacos.Lib.Ownership FreeMap Inode RootDir

variable {slots slots' : Slots} {s t : Sys} {x id h : Nat} {path : Path}

/-- The state with the entries of an inode struck out and the inode marked to go. -/
def Sys.removed (s : Sys) (x id p : Nat) : Sys := { (s.strike x 0).setPos 0 p with
  inodes := Function.update s.inodes id
    ⟨{ (s.inodes id).desc with removed := true }, (s.inodes id).data⟩ }

theorem withArc_ok {α : Type} {call : M α} {a : α} (done : call s = .ok a t) :
    withArc id call s = .ok a t := by
  rw [withArc, Call.bind_ok (Call.attempt_ok done)]
  rfl

theorem withArc_err {α : Type} {call : M α} {e : OsError} {u : Sys} (failed : call s = .err e t)
    (dropped : dropArc id t = .ok () u) : withArc id call s = .err e u := by
  rw [withArc, Call.bind_ok (Call.attempt_err failed)]
  simp only
  rw [Call.bind_ok dropped, Call.throw_apply]

theorem resized_fields {n : Nat} (change : Resized s t id n) :
    t.links = s.links ∧ t.nextFile = s.nextFile ∧
    t.inodeTable = s.inodeTable ∧ t.nextInode = s.nextInode ∧ t.held = s.held ∧
      t.file 0 = s.file 0 := by
  rw [change.frame]
  exact ⟨rfl, rfl, rfl, rfl, rfl, rfl⟩

/-- An inode that is read only to be removed is closed at once, and closing it takes the lock of the
root directory. -/
theorem openRemove_deadlock (virtio : .virtio ∉ s.held) (inode : .inode s.nextInode ∉ s.held)
    (root : .rootDir ∈ s.held) (magic : (DiskInode.ofSector (s.disk x)).magic = inodeMagic)
    (fresh : s.referenced s.nextInode = false) :
    (do
      let inode ← Inode.openAt x
      Inode.remove inode
      dropArc inode : M Unit) s = .halt (.deadlock .rootDir) := by
  have read := Inode.openAt_eq x virtio
  rw [if_pos magic] at read
  rw [Call.bind_ok read]
  have marked : Inode.remove s.nextInode { s with
      inodes := Function.update s.inodes s.nextInode ⟨.new x 0, DiskInode.ofSector (s.disk x)⟩
      nextInode := s.nextInode + 1 } = .ok () { s with
      inodes := Function.update s.inodes s.nextInode ⟨⟨x, true, 0, 0⟩,
        DiskInode.ofSector (s.disk x)⟩
      nextInode := s.nextInode + 1 } := by
    refine lock_ok (t := { s with
      inodes := Function.update s.inodes s.nextInode ⟨⟨x, true, 0, 0⟩,
        DiskInode.ofSector (s.disk x)⟩
      nextInode := s.nextInode + 1
      held := .inode s.nextInode :: s.held }) inode ?_ rfl
    rw [getInode_bind, setInode]
    simp only [Function.update_self, Function.update_idem, Call.modify_apply]
    rfl
  rw [Call.bind_ok marked, dropArc, Call.get_bind]
  change (if s.referenced s.nextInode = true then pure () else Inode.close
    s.nextInode : M Unit) _ = _
  rw [if_neg (by rw [fresh]; exact Bool.false_ne_true)]
  refine lock_halt inode ?_
  rw [getInode_bind]
  simp only [Function.update_self]
  exact if_pos (List.mem_cons_of_mem _ root)

theorem lookup_opened (pos : 0 < s.nextFile) : (s.opened id).files.lookup 0 = s.files.lookup 0 := by
  rw [Sys.opened, List.lookup_cons, beq_eq_false_iff_ne.mpr (Nat.ne_of_lt pos)]

theorem entries_opened (pos : 0 < s.nextFile) : (s.opened id).entries = s.entries := by
  rw [Sys.entries, Sys.inodeOf, Sys.file, lookup_opened pos, ← Sys.file]
  rfl

namespace Mounted

theorem moves (m : Mounted slots s) (p : Nat) : Carried slots slots s (s.setPos 0 p) :=
  .of_disk (m.setPos p) rfl rfl (m.entries_setPos p)

theorem strike (m : Mounted slots s) (x p : Nat) :
    Carried slots slots s ((s.strike x 0).setPos 0 p) := by
  have struck := m.sound.strikes x
  have moved := struck.sound.setPos p
  have entries := entries_struck m.sound x p
  have old : ∀ e ∈ ((s.strike x 0).setPos 0 p).entries, e.isValid = true → e ∈ s.entries := by
    rw [entries]
    exact fun e he valid => (mem_map_strike he valid).1
  have mounted : Mounted slots ((s.strike x 0).setPos 0 p) :=
    ⟨m.idle, moved.sound, m.linked.of_same (links_setPos _ 0 p) rfl rfl le_rfl,
      fun e he valid => m.readable e (old e he valid) valid, fun e he valid =>
      m.known e (old e he valid) valid⟩
  refine .of_local mounted (struck.trans moved) rfl ?_ fun e he valid => .inl (old e he valid)
  rintro y (rfl | none) closed
  · rw [m.sound.root.slot] at closed
    cases closed
  · exact none.elim

theorem describe (m : Mounted slots s) (hx : slots x = some (.opened id))
    (ne : x ≠ 1) {d : InodeDesc}
    (sector : d.sector = (s.inodes id).desc.sector)
    (shrink : d.shrinkLen = (s.inodes id).desc.shrinkLen) :
    Carried slots slots s
      { s with inodes := Function.update s.inodes id ⟨d, (s.inodes id).data⟩ } := by
  have loc := m.sound.describe hx ne sector shrink
  have out : 1 ∉ ({x} : Set Nat) := fun h => ne h.symm
  have linked := m.linked.of_same
    (t := { s with inodes := Function.update s.inodes id ⟨d, (s.inodes id).data⟩ })
    rfl rfl rfl le_rfl
  exact .of_disk (m.of_local loc out m.idle rfl linked fun _ h => h) rfl rfl
    (loc.entries m.sound out rfl)

/-- The first part of a removal: the number is looked up and its entries are struck out. -/
theorem remove_strikes (m : Mounted slots s) (found : find path s.entries = .ok x) :
    ∃ p, DiskFs.remove path s = lock .rootDir (do
        RootDir.remove x
        if ← DiskFs.removeOpen x then pure ()
        else
          let inode ← Inode.openAt x
          Inode.remove inode
          dropArc inode) (s.setPos 0 p) ∧
      ∃ q, RootDir.remove x { s.setPos 0 p with held := .rootDir :: s.held } =
        .ok () { (s.strike x 0).setPos 0 q with held := .rootDir :: s.held } := by
  obtain ⟨p, looked⟩ := m.path2inum path
  rw [found] at looked
  have m₁ := m.setPos p
  obtain ⟨q, struck⟩ := RootDir.remove_ok x m₁.rootReady m₁.sound.root.len m₁.sound.root.allowed
  refine ⟨p, Call.bind_ok looked, q, ?_⟩
  have ready : FileReady s 0 := ⟨m.sound.root.known, by simp [m.idle], by simp [m.idle]⟩
  have state := ready.strike_setPos x 0 p q
  rw [← state]
  exact struck

theorem remove_missing (m : Mounted slots s) {e : OsError}
    (missing : find path s.entries = .error e) :
    ∃ p, DiskFs.remove path s = .err e (s.setPos 0 p) := by
  obtain ⟨p, looked⟩ := m.path2inum path
  rw [missing] at looked
  exact ⟨p, Call.bind_err looked⟩

theorem remove_opened (m : Mounted slots s) (found : find path s.entries = .ok x)
    (hx : slots x = some (.opened id)) :
    ∃ p, DiskFs.remove path s = .ok () (s.removed x id p) ∧
      Carried slots slots s (s.removed x id p) := by
  obtain ⟨p, unfolded, q, struck⟩ := m.remove_strikes found
  have m₁ := (m.strike x q).mounted
  obtain ⟨ne, -⟩ := m.slot_of_find found
  refine ⟨q, ?_, (m.strike x q).trans (m₁.describe hx ne rfl rfl)⟩
  rw [unfolded]
  refine lock_ok (t := { s.removed x id q with held := .rootDir :: s.held })
    (by simp [m.idle]) ?_ rfl
  change (RootDir.remove x >>= _) { s.setPos 0 p with held := .rootDir :: s.held } = _
  rw [Call.bind_ok struck]
  have up : ((s.strike x 0).setPos 0 q).upgrade x = some id := (m₁.linked.upgrade x id).mpr hx
  have live : (s.removed x id q).referenced id = true := m₁.linked.referenced hx
  have marked : DiskFs.removeOpen x { (s.strike x 0).setPos 0 q with held := .rootDir :: s.held } =
      .ok true { s.removed x id q with held := .rootDir :: s.held } := by
    refine lock_ok (t := { s.removed x id q with held := .inodeTable :: .rootDir :: s.held })
      (by simp [m.idle]) ?_ rfl
    have first : Fs.upgrade x
      { (s.strike x 0).setPos 0 q with held := .inodeTable :: .rootDir :: s.held } =
        .ok (some id)
        { (s.strike x 0).setPos 0 q with held := .inodeTable :: .rootDir :: s.held } :=
      congrArg (fun o => Outcome.ok o _) up
    have second : Inode.remove id
      { (s.strike x 0).setPos 0 q with held := .inodeTable :: .rootDir :: s.held } =
        .ok () { s.removed x id q with held := .inodeTable :: .rootDir :: s.held } :=
      lock_ok (t :=
        { s.removed x id q with held := .inode id :: .inodeTable :: .rootDir :: s.held })
        (by simp [m.idle]) rfl rfl
    have third : dropArc id { s.removed x id q with held := .inodeTable :: .rootDir :: s.held } =
        .ok () { s.removed x id q with held := .inodeTable :: .rootDir :: s.held } := by
      rw [dropArc, Call.get_bind]
      change (if (s.removed x id q).referenced id = true then pure
        () else Inode.close id : M Unit) _ = _
      rw [if_pos live, Call.pure_apply]
    rw [Call.bind_ok first]
    simp only
    rw [Call.bind_ok second, Call.bind_ok third]
    rfl
  rw [Call.bind_ok marked]
  rfl

/-- A file that is not open cannot be removed: its inode is closed while the root directory is
still locked. -/
theorem remove_closed (m : Mounted slots s) (found : find path s.entries = .ok x)
    (hx : slots x = some .closed) :
    DiskFs.remove path s = .halt (.deadlock .rootDir) := by
  obtain ⟨p, unfolded, q, struck⟩ := m.remove_strikes found
  have m₁ := (m.strike x q).mounted
  have closed : ∀ id, slots x ≠ some (.opened id) := by
    intro id h
    rw [hx] at h
    cases h
  have placed := m₁.sound.placed x
  rw [Placed, hx] at placed
  rw [unfolded]
  refine lock_halt (by simp [m.idle]) ?_
  change (RootDir.remove x >>= _) { s.setPos 0 p with held := .rootDir :: s.held } = _
  rw [Call.bind_ok struck]
  have none : DiskFs.removeOpen x { (s.strike x 0).setPos 0 q with held := .rootDir :: s.held } =
      .ok false { (s.strike x 0).setPos 0 q with held := .rootDir :: s.held } := by
    refine lock_ok
      (t := { (s.strike x 0).setPos 0 q with held := .inodeTable :: .rootDir :: s.held })
      (by simp [m.idle]) ?_ rfl
    have first : Fs.upgrade x
      { (s.strike x 0).setPos 0 q with held := .inodeTable :: .rootDir :: s.held } =
        .ok none { (s.strike x 0).setPos 0 q with held := .inodeTable :: .rootDir :: s.held } :=
      congrArg (fun o => Outcome.ok o _) (m₁.upgrade_closed closed)
    rw [Call.bind_ok first]
    rfl
  rw [Call.bind_ok none]
  have fresh : ((s.strike x 0).setPos 0 q).referenced s.nextInode = false := by
    rw [Bool.eq_false_iff, ne_eq, referenced_iff]
    rintro ⟨p, hp, same⟩
    exact absurd (m₁.inside p hp) (by rw [same]; exact Nat.lt_irrefl _)
  exact openRemove_deadlock (s := { (s.strike x 0).setPos 0 q with held := .rootDir :: s.held })
    (by simp [m.idle]) (by simp [m.idle]) List.mem_cons_self placed.1 fresh

theorem newFile_carried (m : Mounted slots s) (hx : slots x = some (.opened id)) (ne : x ≠ 1) :
    Carried slots slots s (s.opened id) :=
  .of_disk (m.newFile hx ne) rfl rfl (entries_opened m.nextFile_pos)

theorem resized (m : Mounted slots s) (hx : slots x = some (.opened id)) (ne : x ≠ 1) {n : Nat}
    (small : n < 2 ^ 32) (change : Resized s t id n) : Carried slots slots s t := by
  obtain ⟨links, nextFile, table, nextInode, held, file⟩ := resized_fields change
  have loc := m.sound.resized hx ne small change
  have linked := m.linked.of_same links nextFile table (le_of_eq nextInode.symm)
  have out : 1 ∉ ({x} : Set Nat) := fun h => ne h.symm
  refine .of_local (m.of_local loc out (held.trans m.idle) (by rw [file]) linked fun _ h => h) loc
    change.size ?_ ?_
  · rintro y rfl closed
    rw [hx] at closed
    cases closed
  · rw [loc.entries m.sound out (by rw [file])]
    exact fun e he _ => .inl he

theorem wrote (m : Mounted slots s) (hx : slots x = some (.opened id)) (ne : x ≠ 1) {off : Nat}
    {bytes : List UInt8} (fits : off + bytes.length ≤ (s.inodes id).total) :
    Carried slots slots s (s.wrote (s.inodes id).data.start off bytes) := by
  have loc := m.sound.wrote hx fits
  have linked := m.linked.of_same (t := s.wrote (s.inodes id).data.start off bytes)
    rfl rfl rfl le_rfl
  have out : 1 ∉ ({x} : Set Nat) := fun h => ne h.symm
  refine .of_local (m.of_local loc out m.idle rfl linked fun _ h => h) loc rfl ?_ ?_
  · rintro y rfl closed
    rw [hx] at closed
    cases closed
  · rw [loc.entries m.sound out rfl]
    exact fun e he _ => .inl he

theorem upgradeOrOpen_opened (m : Mounted slots s) (hx : slots x = some (.opened id)) :
    DiskFs.upgradeOrOpen x s = .ok id s := by
  refine lock_ok (t := { s with held := .inodeTable :: s.held }) (by simp [m.idle]) ?_ rfl
  have first : Fs.upgrade x { s with held := .inodeTable :: s.held } =
      .ok (some id) { s with held := .inodeTable :: s.held } :=
    congrArg (fun o => Outcome.ok o _) ((m.linked.upgrade x id).mpr hx)
  rw [Call.bind_ok first]
  rfl

theorem create_opened (m : Mounted slots s) (found : find path s.entries = .ok x)
    (hx : slots x = some (.opened id)) :
    ∃ p t, Resized (s.setPos 0 p) t id 0 ∧ DiskFs.create path s = .ok s.nextFile (t.opened id) ∧
      Carried slots slots s (t.opened id) := by
  obtain ⟨p, looked⟩ := m.contains path
  rw [found] at looked
  have m₁ := m.setPos p
  obtain ⟨q, again⟩ := m₁.expect_path2inum (by rw [m.entries_setPos]; exact found)
  rw [setPos_setPos] at again
  have m₂ := m.setPos q
  obtain ⟨ne, -⟩ := m.slot_of_find found
  have free : ∀ l, l ∉ (s.setPos 0 q).held := by simp [m.idle]
  have up := m₂.upgradeOrOpen_opened hx
  -- Cutting a file asks for no sectors.
  have grants : Grants (s.setPos 0 q).freeMap ((s.setPos 0 q).inodes id) (0 % 2 ^ 32) :=
    fun h => absurd h (by omega)
  obtain ⟨t, cut, change⟩ | ⟨-, full, -⟩ | ⟨e, -, full, -⟩ :=
    resize_ends (m₂.sound.settled hx) (free _) (free _) (free _) 0
  · obtain ⟨links, nextFile, table, nextInode, held, file⟩ := resized_fields change
    refine ⟨q, t, change, ?_, ?_⟩
    · have existing : DiskFs.createExisting path (s.setPos 0 p) = .ok id t := by
        rw [DiskFs.createExisting, Call.bind_ok again, Call.bind_ok up,
          Call.bind_ok (withArc_ok cut),
          Call.pure_apply]
      have inode : DiskFs.createInode path s = .ok id t := by
        rw [DiskFs.createInode, Call.bind_ok looked]
        exact existing
      rw [DiskFs.create, Call.bind_ok inode]
      rw [show s.nextFile = t.nextFile from nextFile.symm]
      rfl
    · have cut := m₂.resized hx ne (by norm_num) change
      exact (m.moves q).trans (cut.trans (cut.mounted.newFile_carried hx ne))
  · exact absurd grants full
  · exact absurd grants full

end Mounted

def newData : DiskInode := ⟨0, 0, inodeMagic, fun _ => 0⟩

/-- The state after an empty inode was created in sector `x` and registered. -/
def Sys.started (s : Sys) (x : Nat) (n : FreeMap) : Sys := { s with
  disk := Function.update s.disk x newData.toSector
  freeMap := n
  inodes := Function.update s.inodes s.nextInode ⟨.new x 0, newData⟩
  nextInode := s.nextInode + 1
  inodeTable := Function.update s.inodeTable x (some s.nextInode) }

/-- A new file without a name: a sector is taken, and an inode made there. -/
theorem start_cases (idle : s.held = []) :
    (∃ x n, (∀ f : Nat → Nat → M Nat, (do
          let sector ← lock .freeMap (onFreeMap (FreeMap.alloc 1))
          let start ← lock .freeMap (onFreeMap (FreeMap.alloc (bytesToSectors 0)))
          let vnode ← Inode.create sector start 0
          register sector vnode
          f sector vnode : M Nat) s = f x s.nextInode (s.started x n)) ∧
        Marks s.freeMap n x 1 ∧ s.freeMap.bit x = false ∧ x + 1 < s.freeMap.size) ∨
      (∀ f : Nat → Nat → M Nat, (do
          let sector ← lock .freeMap (onFreeMap (FreeMap.alloc 1))
          let start ← lock .freeMap (onFreeMap (FreeMap.alloc (bytesToSectors 0)))
          let vnode ← Inode.create sector start 0
          register sector vnode
          f sector vnode : M Nat) s = .err .diskSectorAllocFail s) ∧
        ∀ y, y + 1 < s.freeMap.size → s.freeMap.bit y = true := by
  have free : Lock.freeMap ∉ s.held := by simp [idle]
  obtain ⟨x, n, found, past, clear, marks⟩ | ⟨failed, full⟩ := alloc_cases s.freeMap Nat.zero_lt_one
  · left
    have first : lock .freeMap (onFreeMap (FreeMap.alloc 1)) s = .ok x { s with freeMap := n } :=
      lock_ok (t := { s with freeMap := n, held := .freeMap :: s.held }) free
        (onFreeMap_ok found) rfl
    have second : lock .freeMap (onFreeMap (FreeMap.alloc (bytesToSectors 0)))
      { s with freeMap := n } =
        .ok 0 { s with freeMap := n } :=
      lock_ok (t := { s with freeMap := n, held := .freeMap :: s.held }) free
        (onFreeMap_ok (alloc_zero n)) rfl
    have third := Inode.create_eq (s := { s with freeMap := n }) x 0 0 (by simp [idle]) (by decide)
    have disk : createdDisk s.disk x 0 (bytesToSectors 0) ⟨0, 0 % 2 ^ 32, inodeMagic, fun _ => 0⟩ =
        Function.update s.disk x newData.toSector := by
      funext y
      rw [createdDisk, if_neg (fun h => absurd h.2 (Nat.not_lt_zero y))]
      rfl
    rw [disk] at third
    refine ⟨x, n, ?_, marks, clear x ⟨le_rfl, Nat.lt_succ_self x⟩, past⟩
    intro f
    rw [Call.bind_ok first, Call.bind_ok second, Call.bind_ok third]
    exact Call.bind_ok (Mounted.register_eq (s := { s with
      disk := Function.update s.disk x newData.toSector
      freeMap := n
      inodes := Function.update s.inodes s.nextInode ⟨.new x 0, newData⟩
      nextInode := s.nextInode + 1 }) idle x s.nextInode)
  · refine .inr ⟨fun f => ?_, fun y bound => ?_⟩
    · exact Call.bind_err (lock_err (t := { s with held := .freeMap :: s.held }) free
        (onFreeMap_err failed) rfl)
    · obtain ⟨z, ⟨low, high⟩, bit⟩ := full y bound
      obtain rfl : z = y := by omega
      exact bit

theorem started_local (sound : Sound slots s) {n : FreeMap} (marks : Marks s.freeMap n x 1)
    (free : s.freeMap.bit x = false) (inside : x < s.freeMap.size) :
    Local slots (Function.update slots x (some (.opened s.nextInode))) s (s.started x n) {x} := by
  have here : InRun x 1 x := ⟨le_rfl, Nat.lt_succ_self x⟩
  have only : ∀ y, InRun x 1 y ↔ y = x := by
    intro y
    unfold InRun
    omega
  have taken : Taken s.freeMap n (InRun x 1) := by
    refine ⟨marks.size, ?_, ?_, ?_, ?_⟩
    · intro y hy
      rw [marks.bit, Bool.or_eq_true, decide_eq_true_eq, only] at hy
      refine hy.imp_right ?_
      rintro rfl
      exact inside
    · intro y hy
      rw [marks.bit, hy, Bool.true_or]
    · intro y hy
      rw [(only y).mp hy]
      exact free
    · intro y hy
      rw [marks.bit, decide_eq_true hy, Bool.or_true]
  have empty : ∀ y, ¬InRun 0 ((0 + 511) / 512) y := fun y hy => absurd hy.2 (Nat.not_lt_zero y)
  have loc := sound.creates (d := Function.update s.disk x newData.toSector) (p := fun _ => 0)
    (show 0 < 2 ^ 32 by norm_num) taken here (fun y hy => absurd hy (empty y))
    (empty x) (Nat.zero_le _)
    (Function.update_self ..) (fun y hy => Function.update_of_ne (fun e => hy ((only y).mpr e)) _ _)
  exact loc.of_files s.files s.nextFile (Function.update s.inodeTable x (some s.nextInode)) rfl

/-- A new file: its inode has the free sector `x`, no data and one descriptor, and its name is in
the first unused place of the directory. -/
structure Made (s t : Sys) (x : Nat) (path : Path) : Prop where
  free : s.freeMap.bit x = false
  marks : Marks s.freeMap t.freeMap x 1
  inode : t.inodes s.nextInode = ⟨.new x 0, newData⟩
  links : t.links = (s.nextFile, s.nextInode) :: s.links
  table : t.inodeTable x = some s.nextInode
  named : isAscii path = true ∧ path.length ≤ 27
  entries : ∃ i, s.entries.findIdx? (fun e => !e.isValid) = some i ∧
    t.entries = s.entries.set i (entryOf path x)

theorem isUtf8_entryOf (ascii : isAscii path = true) (short : path.length ≤ 27) (inum : Nat) :
    isUtf8 (entryOf path inum).cstr = true := by
  apply isUtf8_of_ascii
  rw [isAscii, List.all_eq_true] at ascii ⊢
  rw [cstr_entryOf_of_short short]
  intro b hb
  exact ascii b ((List.takeWhile_prefix _).subset hb)

namespace Mounted

theorem not_opened_free (m : Mounted slots s) (free : s.freeMap.bit x = false) : slots x = none :=
  m.sound.slot_none free

/-- A file without a place for its name stays on the disk, closed. -/
theorem unnamed (m : Mounted slots s) {n : FreeMap} (marks : Marks s.freeMap n x 1)
    (free : s.freeMap.bit x = false) (inside : x < s.freeMap.size) :
    Carried slots (Function.update slots x (some .closed)) s (s.started x n) ∧
      Local slots (Function.update slots x (some .closed)) s (s.started x n) {x} := by
  have loc := started_local m.sound marks free inside
  have slot : Function.update slots x (some (.opened s.nextInode)) x = some (.opened s.nextInode) :=
    Function.update_self ..
  have none := m.not_opened_free free
  have ne : x ≠ 1 := by
    rintro rfl
    rw [m.sound.root.slot] at none
    cases none
  have shut := loc.sound.releases slot ne (some .closed) (.inr rfl) rfl
    (fun _ h => h) (fun _ _ _ => rfl) (by
    intro _ y hy
    refine loc.sound.marked ((mem_owned_opened slot y).mpr (hy.imp_right ?_))
    exact Inode.Head.owns)
  rw [Function.update_idem] at shut
  have both := (loc.trans shut).mono (Set.union_self _).subset
  have apart : 1 ∉ ({x} : Set Nat) := fun h => ne h.symm
  refine ⟨Carried.of_local (m.of_local both apart m.idle rfl ?_ ?_) both marks.size ?_ ?_, both⟩
  · refine m.linked.stale ?_ ?_ m.inside rfl rfl rfl rfl
    · intro id h
      rw [none] at h
      cases h
    · exact fun id h => nomatch h
  · intro x' known
    by_cases here : x' = x
    · rw [here, Function.update_self]
      rfl
    · rw [Function.update_of_ne here]
      exact known
  · rintro x' rfl closed
    rw [none] at closed
    cases closed
  · rw [both.entries m.sound apart rfl]
    exact fun e he _ => .inl he

/-- A new file with its name written and its descriptor made. -/
theorem made (m : Mounted slots s) {n : FreeMap} (marks : Marks s.freeMap n x 1)
    (free : s.freeMap.bit x = false)
    (inside : x < s.freeMap.size) (ascii : isAscii path = true)
    (short : path.length ≤ 27) {i q : Nat}
    (slot : (s.started x n).entries.findIdx? (fun e => !e.isValid) = some i)
    (final : t = (((s.started x n).wrote ((s.started x n).inodeOf 0).data.start (32 * i)
      (entryOf path x).toBytes).setPos 0 q).opened s.nextInode) :
    Made s t x path ∧ Mounted (Function.update slots x (some (.opened s.nextInode))) t ∧
      Local slots (Function.update slots x (some (.opened s.nextInode))) s t {1, x} := by
  have none := m.not_opened_free free
  have ne : x ≠ 1 := by
    rintro rfl
    rw [m.sound.root.slot] at none
    cases none
  have small : x < 2 ^ 32 := lt_trans inside m.sound.size_lt
  have loc := started_local m.sound marks free inside
  have same : (s.started x n).entries = s.entries := loc.entries m.sound (fun h => ne h.symm) rfl
  have bound : i < ((s.started x n).inodeOf 0).data.len / 32 := by
    have := (List.findIdx?_eq_some_iff_findIdx_eq.mp slot).1
    rwa [length_entries] at this
  have root := loc.sound.root.slot
  have fits : 32 * i + (entryOf path x).toBytes.length ≤
    ((s.started x n).inodes ((s.started x n).file 0).vnode).total := by
    rw [DirEntry.length_toBytes]
    change 32 * i + 32 ≤ ((s.started x n).inodeOf 0).total
    rw [Inode.total]
    omega
  have written := loc.sound.wrote root fits
  have entries : ((s.started x n).wrote ((s.started x n).inodeOf 0).data.start (32 * i)
      (entryOf path x).toBytes).entries = s.entries.set i (entryOf path x) := by
    rw [entries_wrote (show (entryOf path x).inum < 2 ^ 32 from small), same]
  rw [same] at slot
  generalize hv : (s.started x n).wrote ((s.started x n).inodeOf 0).data.start (32 * i)
    (entryOf path x).toBytes = v at final entries
  change Local _ _ _ ((s.started x n).wrote ((s.started x n).inodeOf 0).data.start (32 * i)
    (entryOf path x).toBytes) {1} at written
  rw [hv] at written
  have moved := (loc.trans written).trans (written.sound.setPos q)
  have files : v.files = s.files := by
    rw [← hv]
    rfl
  have nextFile : (v.setPos 0 q).nextFile = s.nextFile := by
    rw [← hv]
    rfl
  have links : (v.setPos 0 q).links = s.links := by rw [links_setPos, Sys.links, files, ← Sys.links]
  have pos : 0 < (v.setPos 0 q).nextFile := nextFile ▸ m.nextFile_pos
  have finalLinks : t.links = (s.nextFile, s.nextInode) :: s.links := by
    rw [final, ← links, ← nextFile]
    rfl
  have finalEntries : t.entries = s.entries.set i (entryOf path x) := by
    rw [final, entries_opened pos, ← entries, Sys.entries, Sys.inodeOf,
      file_setPos q written.sound.root.known]
    rfl
  have finalTable : t.inodeTable = Function.update s.inodeTable x (some s.nextInode) := by
    rw [final, ← hv]
    rfl
  have finalLocal : Local slots (Function.update slots x (some (.opened s.nextInode)))
    s t {1, x} := by
    rw [final]
    refine (moved.of_files _ _ _ (lookup_opened pos)).mono ?_
    rintro y ((h | h) | h)
    · exact .inr h
    · exact .inl h
    · exact h.elim
  refine ⟨⟨free, ?_, ?_, finalLinks, ?_, ⟨ascii, short⟩, i, slot, finalEntries⟩,
    ⟨?_, finalLocal.sound, ?_, ?_, ?_⟩,
    finalLocal⟩
  · rw [final, ← hv]
    exact marks
  · rw [final, ← hv]
    exact Function.update_self ..
  · rw [finalTable, Function.update_self]
  · rw [final, ← hv]
    exact m.idle
  · refine m.linked.newInode ?_ ne finalLinks ?_ finalTable ?_
    · intro id h
      rw [none] at h
      cases h
    · rw [final, ← nextFile]
      rfl
    · rw [final, ← hv]
      rfl
  · rw [finalEntries]
    intro e he valid
    obtain old | rfl := List.mem_or_eq_of_mem_set he
    · exact m.readable e old valid
    · exact isUtf8_entryOf ascii short x
  · rw [finalEntries]
    intro e he valid
    obtain old | rfl := List.mem_or_eq_of_mem_set he
    · obtain ⟨known, other⟩ := m.known e old valid
      refine ⟨?_, other⟩
      by_cases here : e.inum = x
      · rw [here, Function.update_self]
        rfl
      · rw [Function.update_of_ne here]
        exact known
    · refine ⟨?_, ne⟩
      change (Function.update slots x (some (.opened s.nextInode)) x).isSome
      rw [Function.update_self]
      rfl

/-- Where the creation of a file with a new name ends: there is no sector or no place for the name,
the name is too long for an entry, or the file is there. -/
theorem create_new_cases (m : Mounted slots s) {e₀ : OsError}
    (missing : find path s.entries = .error e₀) :
    DiskFs.create path s = .halt .bounds ∨
      (∃ e t slots', DiskFs.create path s = .err e t ∧ Carried slots slots' s t ∧
        t.links = s.links ∧
        s.nextInode ≤ t.nextInode ∧ ∃ X : Set Nat, Local slots slots' s t X ∧
          ∀ x ∈ X, slots x = none ∧ x ≠ 1) ∨
      ∃ p x t, DiskFs.create path s = .ok s.nextFile t ∧ Made (s.setPos 0 p) t x path ∧
        Mounted (Function.update slots x (some (.opened s.nextInode))) t ∧
          Local slots (Function.update slots x (some (.opened s.nextInode)))
            (s.setPos 0 p) t {1, x} := by
  obtain ⟨p, looked⟩ := m.contains path
  rw [missing] at looked
  have m₁ := m.setPos p
  have unfolded : DiskFs.createInode path s = DiskFs.createNew path (s.setPos 0 p) := by
    rw [DiskFs.createInode, Call.bind_ok looked]
    rfl
  obtain ⟨x, n, started, marks, free, past⟩ | ⟨failed, -⟩ := start_cases m₁.idle
  · have inside := lt_trans (Nat.lt_succ_self x) past
    have loc := started_local m₁.sound marks free inside
    have new := started fun sector vnode => do
      withArc vnode (lock .rootDir (RootDir.insert path sector))
      pure vnode
    have rootFree : Lock.rootDir ∉ ((s.setPos 0 p).started x n).held := by
      simp [Sys.started, m.idle]
    have ready := loc.sound.rootReady (show ((s.setPos 0 p).started x n).held = [] from m.idle)
    have small : (((s.setPos 0 p).started x n).inodeOf 0).data.len < 2 ^ 32 := loc.sound.root.len
    obtain ⟨carried, alone⟩ := m₁.unnamed marks free inside
    have shut := (m.moves p).trans carried
    have unused := m₁.not_opened_free free
    -- Only the number that was taken is concerned, and it was nobody's.
    have confined : ∀ y ∈ (∅ ∪ {x} : Set Nat), slots y = none ∧ y ≠ 1 := by
      rintro y (nothing | rfl)
      · exact nothing.elim
      · refine ⟨unused, ?_⟩
        rintro rfl
        rw [m.sound.root.slot] at unused
        cases unused
    have links : ((s.setPos 0 p).started x n).links = s.links := links_setPos s 0 p
    have inode : ((s.setPos 0 p).started x n).inodes
      (s.setPos 0 p).nextInode = ⟨.new x 0, newData⟩ :=
      Function.update_self ..
    obtain ⟨-, -, e, q, failed⟩ | ⟨-, failed⟩ | ⟨-, -, -, stops⟩ |
      ⟨ascii, short, -, i, slot, q, done⟩ :=
      insert_cases path x ready small
    · have last := ((m.sound.setPos p).trans alone).trans (carried.mounted.sound.setPos q)
      refine .inr (.inl ⟨e, ((s.setPos 0 p).started x n).setPos 0 q, _, ?_,
        shut.trans (shut.mounted.moves q),
        (links_setPos _ 0 q).trans links, Nat.le_succ _, _, last, ?_⟩)
      rotate_left
      · rintro y (mem | nothing)
        · exact confined y mem
        · exact nothing.elim
      have locked : lock .rootDir (RootDir.insert path x) ((s.setPos 0 p).started x n) =
          .err e (((s.setPos 0 p).started x n).setPos 0 q) := lock_err rootFree failed rfl
      have dropped := dropArc_new (s := ((s.setPos 0 p).started x n).setPos 0 q)
        (s.setPos 0 p).nextInode
        (by simp [Sys.started, m.idle]) inode
      rw [DiskFs.create, Call.bind_err
        (unfolded.trans (new.trans (Call.bind_err (withArc_err locked dropped))))]
    · refine .inr (.inl ⟨.cstrFormatErr, (s.setPos 0 p).started x n, _, ?_, shut,
        links, Nat.le_succ _, _,
        (m.sound.setPos p).trans alone, confined⟩)
      have locked : lock .rootDir (RootDir.insert path x) ((s.setPos 0 p).started x n) =
          .err .cstrFormatErr ((s.setPos 0 p).started x n) := lock_err rootFree failed rfl
      have dropped := dropArc_new (s := (s.setPos 0 p).started x n) (s.setPos 0 p).nextInode
        (by simp [Sys.started, m.idle]) inode
      rw [DiskFs.create, Call.bind_err
        (unfolded.trans (new.trans (Call.bind_err (withArc_err locked dropped))))]
    · left
      have locked : lock .rootDir (RootDir.insert path x)
        ((s.setPos 0 p).started x n) = .halt .bounds :=
        lock_halt rootFree stops
      have arc : withArc (s.setPos 0 p).nextInode (lock .rootDir (RootDir.insert path x))
          ((s.setPos 0 p).started x n) = .halt .bounds := Call.bind_halt (Call.attempt_halt locked)
      rw [DiskFs.create, Call.bind_halt (unfolded.trans (new.trans (Call.bind_halt arc)))]
    · right
      right
      have locked : lock .rootDir (RootDir.insert path x) ((s.setPos 0 p).started x n) = .ok ()
          ((((s.setPos 0 p).started x n).wrote
            (((s.setPos 0 p).started x n).inodeOf 0).data.start (32 * i)
            (entryOf path x).toBytes).setPos 0 q) := lock_ok rootFree done rfl
      have new' := new.trans (Call.bind_ok (withArc_ok locked))
      refine ⟨p, x, _, ?_, m₁.made (q := q) marks free inside ascii short slot rfl⟩
      rw [DiskFs.create, Call.bind_ok (unfolded.trans new')]
      rfl
  · refine .inr (.inl ⟨.diskSectorAllocFail, s.setPos 0 p, slots, ?_, m.moves p,
      links_setPos s 0 p, le_rfl, ∅,
      m.sound.setPos p, fun _ nothing => nothing.elim⟩)
    have new := failed fun sector vnode => do
      withArc vnode (lock .rootDir (RootDir.insert path sector))
      pure vnode
    rw [DiskFs.create, Call.bind_err (unfolded.trans new)]

end Mounted

end Tacos.Fs
