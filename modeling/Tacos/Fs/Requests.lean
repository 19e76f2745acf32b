/- GID: Tacos/Fs/Requests
   generality: I
   source: src/fs/disk.rs
   digest: What each call with a path answers and does to what is shown. -/

import Tacos.Fs.Shows

set_option autoImplicit false
set_option relaxedAutoImplicit false

namespace Tacos.Fs

open Tacos.Lib Tacos.Lib.Exec Tacos.Lib.Ownership FreeMap Inode RootDir

variable {slots : Slots} {s t : Sys} {x id n : Nat} {path : Path}

namespace DiskFs

theorem lookup_moved (s : Sys) (p : Nat) {k : Nat} (ne : k ≠ 0) :
    (s.setPos 0 p).files.lookup k = s.files.lookup k :=
  (lookup_setPos s 0 p k).trans (if_neg ne)

theorem shown_looked (m : Mounted slots s) (proper : Proper s) (p : Nat) :
    s.store.Alike (s.setPos 0 p).store ∧ Proper (s.setPos 0 p) := by
  have m' := m.setPos p
  have entries := m.entries_setPos p
  refine ⟨(m.sound.setPos p).alike m m' (store_names_kept entries) ?_
    (fun y _ => ⟨rfl, rfl⟩) ?_ ?_, ?_⟩
  · funext k
    exact store_files_kept m m' (lookup_moved s p) fun g y _ hy => hy
  · exact fun y none => none.elim
  · exact fun y none => none.elim
  · exact proper.of_same m m' entries fun y id hy removed => ⟨id, hy, removed⟩

theorem openFile_shown (m : Mounted slots s) (proper : Proper s)
    (found : find path s.entries = .ok x) :
    ∃ t, openFile path s = .ok s.nextFile t ∧
      (s.store.opened x s.nextFile).Alike t.store ∧ Proper t := by
  obtain ⟨p, done⟩ := m.openFile_found found
  refine ⟨_, done, ?_⟩
  have moved := m.moves_confined p {x}
  have m₁ := moved.mounted
  obtain ⟨ne, ⟨id, hx⟩ | hx⟩ := m.slot_of_find found
  · rw [hx]
    have confined := moved.trans (m₁.newFile_confined hx ne)
    have m' := confined.mounted
    have shown : s.store.Open x := (store_open m).mpr ⟨ne, id, hx⟩
    refine ⟨?_, proper.of_local m m' confined.loc ne hx rfl⟩
    refine shown_opened m confined (fun y hy => .inr hy) hx ne (g := .new id) rfl ?_
      (fun k g y _ hy => hy) ?_
      (FileStore.Store.opened_files ..) ?_ ?_ ?_
    · intro k nonzero
      refine (lookup_opened_cons (s.setPos 0 p) _ k).trans ?_
      rw [lookup_moved s p nonzero]
      rfl
    · rw [store_names_kept (m.entries_of_local m' confined.loc (Mounted.root_ne ne))]
      exact (FileStore.Store.opened_names ..).symm
    · intro y _
      rw [FileStore.Store.opened_bytes, FileStore.Store.opened_denials_same _ shown]
      exact ⟨rfl, rfl⟩
    · rw [FileStore.Store.opened_bytes, store_bytes_opened m' hx]
      exact (store_bytes_opened m hx).symm
    · rw [FileStore.Store.opened_denials_same _ shown, store_denials_opened m' hx]
      exact (store_denials_opened m hx).symm
  · rw [hx]
    have confined := moved.trans (m₁.reopen_confined ne hx)
    have m' := confined.mounted
    have slot : Function.update slots x (some (Slot.opened s.nextInode)) x =
      some (.opened s.nextInode) :=
      Function.update_self ..
    have inode : ((s.setPos 0 p).reopened x).inodes s.nextInode = ⟨.new x 0, inodeOn s.disk x⟩ :=
      Function.update_self ..
    have shown : ¬s.store.Open x := by
      intro here
      obtain ⟨-, id, h⟩ := (store_open m).mp here
      rw [hx] at h
      cases h
    have entries := m.entries_of_local m' confined.loc (Mounted.root_ne ne)
    refine ⟨?_, proper.of_same m m' entries ?_⟩
    · refine shown_opened m confined (fun y hy => .inr hy) slot ne
        (g := .new s.nextInode) rfl ?_ ?_ ?_
        (FileStore.Store.opened_files ..) ?_ ?_ ?_
      · intro k nonzero
        refine (lookup_opened_cons (s.setPos 0 p) (.new s.nextInode) k).trans ?_
        rw [lookup_moved s p nonzero]
        rfl
      · intro k g y _ hy
        have apart : y ≠ x := by
          rintro rfl
          rw [hx] at hy
          cases hy
        rwa [Function.update_of_ne apart]
      · rw [store_names_kept entries]
        exact (FileStore.Store.opened_names ..).symm
      · intro y out
        rw [FileStore.Store.opened_bytes, FileStore.Store.opened_denials_new _ shown]
        exact ⟨rfl, Function.update_of_ne out _ _⟩
      · rw [FileStore.Store.opened_bytes, store_bytes_opened m' slot, inode,
          store_bytes_closed m hx]
        rfl
      · rw [FileStore.Store.opened_denials_new _ shown, store_denials_opened m' slot, inode]
        change 0 = Function.update s.store.denials x 0 x
        rw [Function.update_self]
    · intro y id hy removed
      change Function.update slots x (some (Slot.opened s.nextInode)) y = some (.opened id) at hy
      by_cases here : y = x
      · rw [here, slot, Option.some.injEq, Slot.opened.injEq] at hy
        subst hy
        change (((s.setPos 0 p).reopened x).inodes s.nextInode).desc.removed = true at removed
        rw [inode] at removed
        cases removed
      · rw [Function.update_of_ne here] at hy
        refine ⟨id, hy, ?_⟩
        have same := confined.loc.inode y here id hy
        rw [← same, removed]

/-- A file that is open is emptied when its path is created again. -/
theorem create_existing_shown (m : Mounted slots s) (proper : Proper s)
    (found : find path s.entries = .ok x)
    (hx : slots x = some (.opened id)) :
    ∃ t, create path s = .ok s.nextFile t ∧
      ((s.store.fill x []).opened x s.nextFile).Alike t.store ∧ Proper t := by
  obtain ⟨p, u, change, done, -⟩ := m.create_opened found hx
  obtain ⟨v, done', -, confined⟩ := m.create_opened_confined found hx
  rw [done] at done'
  obtain ⟨-, same⟩ := Outcome.ok.inj done'
  rw [← same] at confined
  obtain ⟨ne, -⟩ := m.slot_of_find found
  have m' := confined.mounted
  have files : u.files = (s.setPos 0 p).files := by rw [change.frame]
  have number : u.nextFile = s.nextFile := by rw [change.frame]; rfl
  have shown : (s.store.fill x []).Open x := (store_open m).mpr ⟨ne, id, hx⟩
  refine ⟨_, done, ?_, proper.of_local m m' confined.loc ne hx change.removed⟩
  refine shown_opened m confined (fun y hy => .inr hy) hx ne (g := .new id) rfl ?_
    (fun k g y _ hy => hy) ?_
    (FileStore.Store.opened_files ..) ?_ ?_ ?_
  · intro k nonzero
    have cons : (u.opened id).files = (s.nextFile, File.new id) :: (s.setPos 0 p).files := by
      rw [← files, ← number]
      rfl
    rw [cons]
    refine (lookup_opened_cons (s.setPos 0 p) (.new id) k).trans ?_
    rw [lookup_moved s p nonzero]
    rfl
  · rw [store_names_kept (m.entries_of_local m' confined.loc (Mounted.root_ne ne)),
      FileStore.Store.opened_names]
    rfl
  · intro y out
    rw [FileStore.Store.opened_bytes, FileStore.Store.opened_denials_same _ shown]
    exact ⟨Function.update_of_ne out _ _, rfl⟩
  · rw [FileStore.Store.opened_bytes, store_bytes_opened m' hx]
    change bytesFrom u.disk (u.inodes id).data.start 0 (u.inodes id).data.len =
      Function.update s.store.bytes x [] x
    rw [change.len, Function.update_self]
    rfl
  · rw [FileStore.Store.opened_denials_same _ shown, store_denials_opened m' hx]
    change (u.inodes id).desc.denyWrite = s.store.denials x
    rw [change.desc]
    exact (store_denials_opened m hx).symm

/-- A new file adds one descriptor, and whether it comes to be or not, only the root directory's
cursor moves. -/
theorem create_new_files (m : Mounted slots s) {e₀ : OsError}
    (missing : find path s.entries = .error e₀) :
    ∃ q, (∀ h t, create path s = .ok h t →
      t.files = (s.nextFile, .new s.nextInode) :: (s.setPos 0 q).files) ∧
      ∀ e t, create path s = .err e t → t.files = (s.setPos 0 q).files := by
  obtain ⟨p, looked⟩ := m.contains path
  rw [missing] at looked
  have m₁ := m.setPos p
  have unfolded : createInode path s = createNew path (s.setPos 0 p) := by
    rw [createInode, Call.bind_ok looked]
    rfl
  have ends : ∀ {e : OsError} {q : Nat} {u : Sys}, createNew path (s.setPos 0 p) = .err e u →
      u.files = (s.setPos 0 q).files → ∃ q, (∀ h t, create path s = .ok h t →
        t.files = (s.nextFile, .new s.nextInode) :: (s.setPos 0 q).files) ∧
          ∀ e t, create path s = .err e t → t.files = (s.setPos 0 q).files := by
    intro e q u failed files
    have whole : create path s = .err e u := by
      rw [create, Call.bind_err (unfolded.trans failed)]
    refine ⟨q, fun h t done => ?_, fun e t failed' => ?_⟩
    · rw [whole] at done
      cases done
    · rw [whole] at failed'
      cases failed'
      exact files
  obtain ⟨x, n, started, marks, free, past⟩ | ⟨failed, -⟩ := start_cases m₁.idle
  · have inside := lt_trans (Nat.lt_succ_self x) past
    have loc := started_local m₁.sound marks free inside
    have new := started fun sector vnode => do
      withArc vnode (lock .rootDir (RootDir.insert path sector))
      pure vnode
    have rootFree : Lock.rootDir ∉ ((s.setPos 0 p).started x n).held := by
      simp [Sys.started, m.idle]
    have ready := loc.sound.rootReady (show ((s.setPos 0 p).started x n).held = [] from m.idle)
    have inode : ((s.setPos 0 p).started x n).inodes
      (s.setPos 0 p).nextInode = ⟨.new x 0, newData⟩ :=
      Function.update_self ..
    obtain ⟨-, -, e, q, failed⟩ | ⟨-, failed⟩ | ⟨-, -, -, stops⟩ | ⟨-, -, -, i, -, q, done⟩ :=
      insert_cases path x ready loc.sound.root.len
    · have locked : lock .rootDir (RootDir.insert path x) ((s.setPos 0 p).started x n) =
          .err e (((s.setPos 0 p).started x n).setPos 0 q) := lock_err rootFree failed rfl
      have dropped := dropArc_new (s := ((s.setPos 0 p).started x n).setPos 0 q)
        (s.setPos 0 p).nextInode
        (by simp [Sys.started, m.idle]) inode
      refine ends (q := q) (new.trans (Call.bind_err (withArc_err locked dropped))) ?_
      change ((s.setPos 0 p).setPos 0 q).files = (s.setPos 0 q).files
      rw [setPos_setPos]
    · have locked : lock .rootDir (RootDir.insert path x) ((s.setPos 0 p).started x n) =
          .err .cstrFormatErr ((s.setPos 0 p).started x n) := lock_err rootFree failed rfl
      have dropped := dropArc_new (s := (s.setPos 0 p).started x n) (s.setPos 0 p).nextInode
        (by simp [Sys.started, m.idle]) inode
      exact ends (q := p) (new.trans (Call.bind_err (withArc_err locked dropped))) rfl
    · have locked : lock .rootDir (RootDir.insert path x)
        ((s.setPos 0 p).started x n) = .halt .bounds :=
        lock_halt rootFree stops
      have arc : withArc (s.setPos 0 p).nextInode (lock .rootDir (RootDir.insert path x))
          ((s.setPos 0 p).started x n) = .halt .bounds := Call.bind_halt (Call.attempt_halt locked)
      have whole : create path s = .halt .bounds := by
        rw [create, Call.bind_halt (unfolded.trans (new.trans (Call.bind_halt arc)))]
      refine ⟨p, fun h t done => ?_, fun e t failed => ?_⟩
      · rw [whole] at done
        cases done
      · rw [whole] at failed
        cases failed
    · have locked := lock_ok rootFree done rfl
      have whole := Call.bind_ok (f := newFile)
        (unfolded.trans (new.trans (Call.bind_ok (withArc_ok locked))))
      refine ⟨q, fun h t done' => ?_, fun e t failed => ?_⟩
      · have result := whole.symm.trans done'
        cases result
        refine congrArg (List.cons (s.nextFile, File.new s.nextInode)) ?_
        change ((s.setPos 0 p).setPos 0 q).files = (s.setPos 0 q).files
        rw [setPos_setPos]
      · have result := whole.symm.trans failed
        cases result
  · refine ends (q := p) (e := .diskSectorAllocFail) (u := s.setPos 0 p) ?_ rfl
    exact failed fun sector vnode => do
      withArc vnode (lock .rootDir (RootDir.insert path sector))
      pure vnode

/-- A path that an entry can hold, unless it is too long or not ASCII, for which there is an
error. -/
structure Nameable (path : Path) : Prop where
  some : path ≠ []
  noNul : 0 ∉ path
  noMark : path.getD 0 0 ≠ DirEntry.tombstone

/-- A path that does not exist is created, or nothing that is shown changes. -/
theorem create_new_shown (m : Mounted slots s) (proper : Proper s)
    (fine : Nameable path) {e₀ : OsError}
    (missing : find path s.entries = .error e₀) :
    (∃ e, create path s = .halt e) ∨ (∃ e t, create path s = .err e t ∧
      s.store.Alike t.store ∧ Proper t) ∨
      ∃ x t, create path s = .ok s.nextFile t ∧ ¬s.store.Live x ∧
        (((s.store.name path (some x)).fill x []).opened x s.nextFile).Alike t.store ∧
          Proper t := by
  obtain ⟨q, made_files, failed_files⟩ := create_new_files m missing
  obtain stops | ⟨e, t, slots', failed, carried, links, next, X, loc, new⟩ |
    ⟨p, x, t, done, made, mounted, loc⟩ :=
    m.create_new_cases missing
  · exact .inl ⟨_, stops⟩
  · have confined := m.failed_confined carried.mounted carried.size links next loc new
    have m' := confined.mounted
    have files := failed_files e t failed
    have entries := m.entries_of_local m' loc fun one => (new 1 one).2 rfl
    -- What is in memory after the failure was there before.
    have known : ∀ y id, slots' y = some (.opened id) → slots y = some (.opened id) ∧ y ∉ X := by
      intro y id hy
      obtain ⟨k, link, rfl⟩ := referenced_iff.mp (m'.linked.referenced hy)
      rw [links] at link
      obtain ⟨y', hy', -⟩ := m.linked.live k link
      have out : y' ∉ X := by
        intro mem
        rw [(new y' mem).1] at hy'
        cases hy'
      obtain rfl := m'.sound.opened_inj hy ((loc.slot y' out).trans hy')
      exact ⟨hy', out⟩
    refine .inr (.inl ⟨e, t, failed, ?_, ?_⟩)
    · refine ⟨store_names_kept entries, ?_, ?_, ?_⟩
      · funext k
        refine store_files_kept m m' (fun ne => ?_) fun g y _ hy => ?_
        · rw [files, lookup_moved s q ne]
        · have out : y ∉ X := by
            intro mem
            rw [(new y mem).1] at hy
            cases hy
          exact (loc.slot y out).trans hy
      · intro y live
        have out : y ∉ X := by
          intro mem
          obtain ⟨k, d, file, rfl⟩ | ⟨path', named⟩ := live
          · obtain ⟨-, id, hy⟩ := (store_open m').mp ⟨k, d, file, rfl⟩
            exact (known _ id hy).2 mem
          · rw [store_names_kept entries] at named
            have there := (known_of_live m (.inr ⟨path', named⟩)).1
            rw [(new y mem).1] at there
            cases there
        exact (loc.store_kept m m' out (loc.slot y out ▸ (known_of_live m' live).1)).1
      · intro y opened
        obtain ⟨-, id, hy⟩ := (store_open m').mp opened
        obtain ⟨old, out⟩ := known y id hy
        exact (loc.store_kept m m' out (by rw [old]; rfl)).2
    · refine proper.of_same m m' entries fun y id hy removed => ?_
      obtain ⟨old, out⟩ := known y id hy
      exact ⟨id, old, by rw [← loc.inode y out id old, removed]⟩
  · have m₁ := m.setPos p
    have moved := m.moves_confined p {1, x}
    have confined := moved.trans (m₁.made_confined made mounted loc)
    have m' := confined.mounted
    have unused := m₁.sound.slot_none made.free
    have ne : x ≠ 1 := by
      rintro rfl
      rw [m.sound.root.slot] at unused
      cases unused
    have dead : ¬s.store.Live x := by
      intro live
      have known := (known_of_live m live).1
      rw [unused] at known
      cases known
    have slot : Function.update slots x (some (Slot.opened s.nextInode)) x =
      some (.opened s.nextInode) :=
      Function.update_self ..
    have inode : t.inodes s.nextInode = ⟨.new x 0, newData⟩ := made.inode
    have named : WellNamed path := ⟨fine.some, made.named.2, made.named.1, fine.noNul, fine.noMark⟩
    obtain ⟨i, place, entries⟩ := made.entries
    rw [m.entries_setPos] at place entries
    have fresh : ∀ e ∈ s.entries, e.isValid = true → e.inum ≠ x := by
      rintro e he valid rfl
      have known := (m.known e he valid).1
      rw [unused] at known
      cases known
    obtain ⟨unique, finds⟩ := proper.unique.find_added m.readable named missing place fresh
    have shown : ¬((s.store.name path (some x)).fill x []).Open x :=
      fun opened => dead (.inl opened)
    refine .inr (.inr ⟨x, t, done, dead, ?_, ?_⟩)
    · refine shown_opened m confined (fun y hy => hy) slot ne (g := .new s.nextInode) rfl ?_ ?_ ?_
        (FileStore.Store.opened_files ..) ?_ ?_ ?_
      · intro k nonzero
        rw [made_files _ t done]
        refine (lookup_opened_cons (s.setPos 0 q) (.new s.nextInode) k).trans ?_
        rw [lookup_moved s q nonzero]
        rfl
      · intro k g y _ hy
        have apart : y ≠ x := by
          rintro rfl
          rw [unused] at hy
          cases hy
        rwa [Function.update_of_ne apart]
      · rw [FileStore.Store.opened_names]
        funext q'
        change (find q' t.entries).toOption = Function.update s.store.names path (some x) q'
        rw [entries, finds]
        by_cases here : q' = path
        · rw [if_pos here, here, Function.update_self]
        · rw [if_neg here, Function.update_of_ne here]
          rfl
      · intro y out
        rw [FileStore.Store.opened_bytes, FileStore.Store.opened_denials_new _ shown]
        exact ⟨Function.update_of_ne out _ _, Function.update_of_ne out _ _⟩
      · rw [FileStore.Store.opened_bytes, store_bytes_opened m' slot, inode]
        change [] = Function.update s.store.bytes x [] x
        rw [Function.update_self]
      · rw [FileStore.Store.opened_denials_new _ shown, store_denials_opened m' slot, inode]
        change 0 = Function.update ((s.store.name path (some x)).fill x []).denials x 0 x
        rw [Function.update_self]
    · refine ⟨entries ▸ unique, ?_⟩
      intro y id up removed e he valid
      have hy : Function.update slots x (some (Slot.opened s.nextInode)) y = some (.opened id) :=
        (m'.linked.upgrade y id).mp up
      by_cases here : y = x
      · rw [here, slot, Option.some.injEq, Slot.opened.injEq] at hy
        rw [← hy, inode] at removed
        cases removed
      · rw [Function.update_of_ne here] at hy
        by_cases root : y = 1
        · rw [root]
          exact (m'.known e he valid).2
        have out : y ∉ ({1, x} : Set Nat) := by
          rintro (one | same)
          · exact root one
          · exact here same
        rw [confined.loc.inode y out id hy] at removed
        rw [entries] at he
        obtain old | rfl := List.mem_or_eq_of_mem_set he
        · exact proper.gone y id ((m.linked.upgrade y id).mpr hy) removed e old valid
        · exact Ne.symm here

theorem remove_shown (m : Mounted slots s) (proper : Proper s) (found : find path s.entries = .ok x)
    (hx : slots x = some (.opened id)) :
    ∃ t, remove path s = .ok () t ∧ (s.store.name path none).Alike t.store ∧ Proper t := by
  obtain ⟨p, done, -⟩ := m.remove_opened found hx
  obtain ⟨ne, -⟩ := m.slot_of_find found
  have struck := m.strike_confined x p
  have m₁ := struck.mounted
  have marked : Confined slots slots ((s.strike x 0).setPos 0 p) (s.removed x id p) {x} ∅ :=
    m₁.describe_confined hx ne (d := { (s.inodes id).desc with removed := true }) rfl rfl
  have confined : Confined slots slots s (s.removed x id p) {1, x} ∅ :=
    struck.trans (marked.mono (Set.subset_insert 1 {x}))
  have m' := confined.mounted
  have entries : (s.removed x id p).entries = s.entries.map (DirEntry.strike x) :=
    (m₁.entries_of_local m' marked.loc (Mounted.root_ne ne)).trans
      (Mounted.entries_struck m.sound x p)
  have inode : (s.removed x id p).inodes id =
    ⟨{ (s.inodes id).desc with removed := true }, (s.inodes id).data⟩ :=
    Function.update_self ..
  refine ⟨_, done, ?_, entries ▸ proper.unique.struck x, ?_⟩
  · refine confined.loc.alike m m' ?_ ?_ (fun y _ => ⟨rfl, rfl⟩) ?_ ?_
    · funext q
      change (find q (s.removed x id p).entries).toOption =
        Function.update s.store.names path none q
      rw [entries, proper.unique.find_struck m.readable found]
      by_cases here : q = path
      · rw [if_pos here, here, Function.update_self]
      · rw [if_neg here, Function.update_of_ne here]
        rfl
    · funext k
      exact store_files_kept m m' (lookup_moved (s.strike x 0) p) fun g y _ hy => hy
    · rintro y (one | rfl) ne' _
      · exact absurd one ne'
      · have apart : y ∉ ({1} ∪ ∅ : Set Nat) := by
          rintro (one | none)
          · exact ne' one
          · exact none.elim
        have strikes := (m.sound.strikes y).trans ((m.sound.strikes y).sound.setPos p)
        have kept := (strikes.store_kept m m₁ apart (hx ▸ rfl)).1
        rw [store_bytes_opened m₁ hx] at kept
        rw [store_bytes_opened m' hx, inode]
        exact kept
    · rintro y (one | rfl) ne' id' hy
      · exact absurd one ne'
      · rw [hx] at hy
        cases hy
        rw [store_denials_opened m' hx, inode]
        exact (store_denials_opened m hx).symm
  · intro y id' up removed e he valid
    rw [entries] at he
    obtain ⟨old, other⟩ := mem_map_strike he valid
    by_cases here : y = x
    · rw [here]
      exact other
    · have hy := (m'.linked.upgrade y id').mp up
      by_cases root : y = 1
      · rw [root]
        exact (m.known e old valid).2
      have out : y ∉ ({1, x} : Set Nat) := by
        rintro (one | same)
        · exact root one
        · exact here same
      rw [confined.loc.inode y out id' hy] at removed
      exact proper.gone y id' ((m.linked.upgrade y id').mpr hy) removed e old valid

end DiskFs

end Tacos.Fs
