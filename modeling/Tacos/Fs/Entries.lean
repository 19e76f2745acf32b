/- GID: Tacos/Fs/Entries
   generality: I
   source: src/fs/disk/dir.rs
   digest: The root directory as the list of the entries in its file. -/

import Tacos.Fs.Cursor

set_option autoImplicit false
set_option relaxedAutoImplicit false

namespace Tacos.Fs

open Tacos.Lib.Exec Tacos.Lib.Bytes Inode

namespace DirEntry

@[simp] theorem length_toBytes (e : DirEntry) : e.toBytes.length = 32 := by
  rw [toBytes, List.length_append, List.length_ofFn, List.length_map, List.length_range]

theorem toBytes_name (e : DirEntry) {k : Nat} (h : k < 28) :
    e.toBytes.getD k 0 = e.name ⟨k, h⟩ := by
  rw [toBytes, List.getD_append _ _ _ _ (by rw [List.length_ofFn]; exact h),
    List.getD_eq_getElem _ _ (by rw [List.length_ofFn]; exact h), List.getElem_ofFn]

theorem toBytes_inum (e : DirEntry) {k : Nat} (low : 28 ≤ k) (high : k < 32) :
    e.toBytes.getD k 0 = storeLE (fun _ => 0) 0 4 e.inum (k - 28) := by
  rw [toBytes, List.getD_append_right _ _ _ _ (by rw [List.length_ofFn]; exact low),
    List.length_ofFn,
    List.getD_eq_getElem _ _ (by rw [List.length_map, List.length_range]; omega), List.getElem_map,
    List.getElem_range]

theorem toBytes_ofBytes (bytes : List UInt8) {k : Nat} (h : k < 32) :
    (ofBytes bytes).toBytes.getD k 0 = bytes.getD k 0 := by
  by_cases name : k < 28
  · exact toBytes_name _ name
  · rw [toBytes_inum _ (by omega) h]
    have byte := storeLE_loadLE (fun k => bytes.getD k 0) (fun _ => 0) 0 28
      (show k - 28 < 4 by omega)
    rw [Nat.zero_add, show 28 + (k - 28) = k by omega] at byte
    exact byte

theorem ofBytes_toBytes {e : DirEntry} (h : e.inum < 2 ^ 32) : ofBytes e.toBytes = e := by
  have name : (ofBytes e.toBytes).name = e.name := by
    funext k
    exact toBytes_name e k.isLt
  have inum : (ofBytes e.toBytes).inum = e.inum := by
    have words : (256 : Nat) ^ 4 = 2 ^ 32 := by norm_num
    have shifted : loadLE (fun k => e.toBytes.getD k 0) 28 4 =
        loadLE (fun k => storeLE (fun _ => 0) 0 4 e.inum (k - 28)) 28 4 :=
      loadLE_congr fun k low high => toBytes_inum e low high
    have based : ∀ (m : Mem) (a n : Nat), loadLE (fun k => m (k - 28))
      (28 + a) n = loadLE m a n := by
      intro m a n
      induction n generalizing a with
      | zero => rfl
      | succ n ih =>
        rw [loadLE, loadLE, show 28 + a - 28 =
          a by omega, show 28 + a + 1 = 28 + (a + 1) by omega, ih]
    change loadLE (fun k => e.toBytes.getD k 0) 28 4 = e.inum
    rw [shifted, based _ 0 4, loadLE_storeLE_of_lt (words ▸ h)]
  cases h' : ofBytes e.toBytes
  cases e
  simp_all only

theorem toBytes_invalidate (e : DirEntry) {k : Nat} (h : k < 32) :
    e.invalidate.toBytes.getD k 0 = if k = 0 then tombstone else e.toBytes.getD k 0 := by
  by_cases name : k < 28
  · rw [toBytes_name _ name, toBytes_name _ name, invalidate]
    by_cases zero : k = 0
    · subst zero
      rw [if_pos rfl]
      exact Function.update_self (0 : Fin 28) tombstone e.name
    · have other : (⟨k, name⟩ : Fin 28) ≠ 0 := fun heq => zero (congrArg Fin.val heq)
      rw [if_neg zero]
      exact Function.update_of_ne other tombstone e.name
  · rw [toBytes_inum _ (by omega) h, toBytes_inum _ (by omega) h, if_neg (by omega)]
    rfl

@[simp] theorem invalidate_isValid (e : DirEntry) : e.invalidate.isValid = false := by
  rw [isValid, invalidate]
  simp

@[simp] theorem invalidate_inum (e : DirEntry) : e.invalidate.inum = e.inum := rfl

end DirEntry

/-- The `k`-th entry of a directory file. -/
def entryAt (d : Nat → Sector) (start k : Nat) : DirEntry :=
  .ofBytes (bytesFrom d start (32 * k) 32)

theorem entryAt_congr {d e : Nat → Sector} {start start' k : Nat}
    (h : ∀ i < 32, fileByte d start (32 * k + i) = fileByte e start' (32 * k + i)) :
    entryAt d start k = entryAt e start' k := by
  rw [entryAt, entryAt, bytesFrom, bytesFrom, List.map_congr_left]
  intro i hi
  exact h i (List.mem_range.mp hi)

/-- The entries of the root directory, in their order in its file. -/
def Sys.entries (s : Sys) : List DirEntry :=
  (List.range ((s.inodeOf 0).data.len / 32)).map (entryAt s.disk (s.inodeOf 0).data.start)

variable {s : Sys}

@[simp] theorem length_entries (s : Sys) : s.entries.length = (s.inodeOf 0).data.len / 32 := by
  rw [Sys.entries, List.length_map, List.length_range]

theorem entries_setPos (ready : FileReady s 0) (p : Nat) : (s.setPos 0 p).entries = s.entries := by
  rw [Sys.entries, ready.inodeOf_setPos]
  rfl

private theorem drop_entries {k : Nat} (h : k < (s.inodeOf 0).data.len / 32) :
    s.entries.drop k = entryAt s.disk (s.inodeOf 0).data.start k :: s.entries.drop (k + 1) := by
  rw [List.drop_eq_getElem_cons (by rw [length_entries]; exact h)]
  simp only [Sys.entries, List.getElem_map, List.getElem_range]

private theorem drop_entries_of_le {k : Nat} (h : (s.inodeOf 0).data.len / 32 ≤ k) :
    s.entries.drop k = [] :=
  List.drop_eq_nil_of_le (by rw [length_entries]; exact h)

namespace RootDir

/-- `path2inum` on a list of entries. -/
def find (path : Path) : List DirEntry → Except OsError Nat
  | [] => .error .noSuchFile
  | e :: es =>
    if e.isValid then
      if isUtf8 e.cstr then if path = e.cstr then .ok e.inum else find path es
      else .error .cstrFormatErr
    else find path es

theorem readEntry_ok (ready : FileReady s 0) {k : Nat} (pos : (s.file 0).pos = 32 * k)
    (h : k < (s.inodeOf 0).data.len / 32) :
    readEntry s = .ok (entryAt s.disk (s.inodeOf 0).data.start k) (s.setPos 0 (32 * (k + 1))) := by
  have read := File.readInto_eq ready (show 0 < 32 by decide) (by norm_num)
  rw [pos, if_pos (by omega)] at read
  rw [readEntry, Call.bind_ok read, Call.pure_apply]
  rfl

theorem readEntry_err (ready : FileReady s 0) {k : Nat} (pos : (s.file 0).pos = 32 * k)
    (h : (s.inodeOf 0).data.len / 32 ≤ k) :
    ∃ p, readEntry s = .err .unexpectedEOF (s.setPos 0 p) := by
  have read := File.readInto_eq ready (show 0 < 32 by decide) (by norm_num)
  rw [if_neg (by omega)] at read
  exact ⟨_, Call.bind_err read⟩

private theorem path2inumLoop_eq (path : Path) {fuel k : Nat} (ready : FileReady s 0)
    (pos : (s.file 0).pos = 32 * k) (inside : k ≤ (s.inodeOf 0).data.len / 32)
    (enough : (s.inodeOf 0).data.len / 32 < fuel + k) :
    ∃ p, path2inumLoop path fuel s = .ofExcept (find path (s.entries.drop k)) (s.setPos 0 p) := by
  induction fuel generalizing s k with
  | zero => omega
  | succ fuel ih =>
    rw [path2inumLoop]
    by_cases more : k < (s.inodeOf 0).data.len / 32
    · have next := ready.setPos (32 * (k + 1))
      have same := ready.inodeOf_setPos (32 * (k + 1))
      obtain ⟨p, rest⟩ := ih (k := k + 1) next (ready.pos_setPos _)
        (same ▸ more) (by rw [same]; omega)
      rw [entries_setPos ready, setPos_setPos] at rest
      rw [Call.bind_ok (Call.attempt_ok (readEntry_ok ready pos more)), drop_entries more, find]
      simp only
      by_cases valid : (entryAt s.disk (s.inodeOf 0).data.start k).isValid
      · rw [if_pos valid, if_pos valid]
        by_cases utf8 : isUtf8 (entryAt s.disk (s.inodeOf 0).data.start k).cstr
        · rw [if_pos utf8, if_pos utf8]
          by_cases found : path = (entryAt s.disk (s.inodeOf 0).data.start k).cstr
          · rw [if_pos found, if_pos found]
            exact ⟨_, rfl⟩
          · rw [if_neg found, if_neg found]
            exact ⟨p, rest⟩
        · rw [if_neg utf8, if_neg utf8]
          exact ⟨_, rfl⟩
      · rw [if_neg valid, if_neg valid]
        exact ⟨p, rest⟩
    · obtain ⟨p, read⟩ := readEntry_err ready pos (by omega)
      rw [Call.bind_ok (Call.attempt_err read), drop_entries_of_le (by omega)]
      exact ⟨p, rfl⟩

theorem path2inum_eq (path : Path) (ready : FileReady s 0) :
    ∃ p, path2inum path s = .ofExcept (find path s.entries) (s.setPos 0 p) := by
  have same := ready.inodeOf_setPos 0
  obtain ⟨p, loop⟩ := path2inumLoop_eq path (k := 0) (ready.setPos 0) (ready.pos_setPos 0)
    (Nat.zero_le _) (show _ < (s.inodeOf 0).data.len / 32 + 1 + 0 by rw [same]; omega)
  have bound : rounds (s.setPos 0 0) = .ok ((s.inodeOf 0).data.len / 32 + 1) (s.setPos 0 0) := by
    rw [← same]
    rfl
  rw [List.drop_zero, entries_setPos ready, setPos_setPos] at loop
  refine ⟨p, ?_⟩
  rw [path2inum, Call.bind_ok (File.rewind_eq ready), Call.bind_ok bound, loop]

theorem contains_eq (path : Path) (ready : FileReady s 0) :
    ∃ p, contains path s = .ok (find path s.entries).isOk (s.setPos 0 p) := by
  obtain ⟨p, lookup⟩ := path2inum_eq path ready
  refine ⟨p, ?_⟩
  cases found : find path s.entries with
  | ok inum =>
    rw [found] at lookup
    rw [contains, Call.bind_ok (Call.attempt_ok lookup), Call.pure_apply]
  | error e =>
    rw [found] at lookup
    rw [contains, Call.bind_ok (Call.attempt_err lookup), Call.pure_apply]

private theorem firstInvalidLoop_eq {fuel k : Nat} (ready : FileReady s 0)
    (pos : (s.file 0).pos = 32 * k) (inside : k ≤ (s.inodeOf 0).data.len / 32)
    (small : (s.inodeOf 0).data.len < 2 ^ 32) (enough : (s.inodeOf 0).data.len / 32 < fuel + k) :
    ∃ p, firstInvalidLoop fuel s = match (s.entries.drop k).findIdx? (fun e => !e.isValid) with
      | some i => .ok (32 * (k + i)) (s.setPos 0 p)
      | none => .err .rootDirFull (s.setPos 0 p) := by
  induction fuel generalizing s k with
  | zero => omega
  | succ fuel ih =>
    rw [firstInvalidLoop]
    by_cases more : k < (s.inodeOf 0).data.len / 32
    · have next := ready.setPos (32 * (k + 1))
      have same := ready.inodeOf_setPos (32 * (k + 1))
      obtain ⟨p, rest⟩ := ih (k := k + 1) next (ready.pos_setPos _) (same ▸ more) (same ▸ small)
        (by rw [same]; omega)
      rw [entries_setPos ready, setPos_setPos] at rest
      rw [Call.bind_ok (Call.attempt_ok (readEntry_ok ready pos more)),
        drop_entries more, List.findIdx?_cons]
      simp only
      by_cases valid : (entryAt s.disk (s.inodeOf 0).data.start k).isValid
      · rw [if_pos valid, valid]
        refine ⟨p, rest.trans ?_⟩
        cases (s.entries.drop (k + 1)).findIdx? (fun e => !e.isValid) with
        | none => rfl
        | some i =>
          change Outcome.ok (32 * (k + 1 + i)) (s.setPos 0 p) = .ok
            (32 * (k + (i + 1))) (s.setPos 0 p)
          rw [show k + 1 + i = k + (i + 1) by omega]
      · rw [if_neg valid, Bool.eq_false_iff.mpr valid]
        have back := File.seek_back (n := 32) next (by rw [ready.pos_setPos]; omega)
          (by rw [ready.pos_setPos]; omega)
        rw [ready.pos_setPos, setPos_setPos, show 32 * (k + 1) - 32 = 32 * k by omega] at back
        exact ⟨32 * k, back⟩
    · obtain ⟨p, read⟩ := readEntry_err ready pos (by omega)
      rw [Call.bind_ok (Call.attempt_err read), drop_entries_of_le (by omega)]
      exact ⟨p, rfl⟩

theorem firstInvalid_eq (ready : FileReady s 0) (small : (s.inodeOf 0).data.len < 2 ^ 32) :
    ∃ p, firstInvalid s = match s.entries.findIdx? (fun e => !e.isValid) with
      | some i => .ok (32 * i) (s.setPos 0 p)
      | none => .err .rootDirFull (s.setPos 0 p) := by
  have same := ready.inodeOf_setPos 0
  obtain ⟨p, loop⟩ := firstInvalidLoop_eq (k := 0) (ready.setPos 0) (ready.pos_setPos 0)
    (Nat.zero_le _) (same ▸ small)
    (show _ < (s.inodeOf 0).data.len / 32 + 1 + 0 by rw [same]; omega)
  have bound : rounds (s.setPos 0 0) = .ok ((s.inodeOf 0).data.len / 32 + 1) (s.setPos 0 0) := by
    rw [← same]
    rfl
  simp only [List.drop_zero, entries_setPos ready, setPos_setPos, Nat.zero_add] at loop
  refine ⟨p, ?_⟩
  rw [firstInvalid, Call.bind_ok (File.rewind_eq ready), Call.bind_ok bound, loop]

/-- The entry that `insert` makes. -/
def entryOf (path : Path) (inum : Nat) : DirEntry := ⟨fun k => path.getD k.val 0, inum⟩

theorem newEntry_eq {path : Path} (short : path.length ≤ 27) (inum : Nat) :
    newEntry path inum s = .ok (entryOf path inum) s := by
  rw [newEntry, if_pos (by omega), Call.pure_apply]
  rfl

theorem newEntry_halt {path : Path} (long : 27 < path.length) (inum : Nat) :
    newEntry path inum s = .halt .bounds := by
  rw [newEntry, if_neg (by omega), Call.halt_apply]

theorem insert_ok {path : Path} {inum i : Nat} (ready : FileReady s 0)
    (small : (s.inodeOf 0).data.len < 2 ^ 32) (allowed : (s.inodeOf 0).desc.denyWrite = 0)
    (ascii : isAscii path) (short : path.length ≤ 27)
    (slot : s.entries.findIdx? (fun e => !e.isValid) = some i) :
    ∃ p, insert path inum s = .ok ()
      ((s.wrote (s.inodeOf 0).data.start (32 * i) (entryOf path inum).toBytes).setPos 0 p) := by
  obtain ⟨p, first⟩ := firstInvalid_eq ready small
  rw [slot] at first
  have bound : i < (s.inodeOf 0).data.len / 32 := by
    have := (List.findIdx?_eq_some_iff_findIdx_eq.mp slot).1
    rwa [length_entries] at this
  have ready₁ := ready.setPos p
  have ready₂ := ready.setPos (32 * i)
  have written := File.writeFrom_eq ready₂ (entryOf path inum).toBytes
    (by rw [DirEntry.length_toBytes]; decide) (by rw [DirEntry.length_toBytes]; norm_num)
    (by rw [ready.inodeOf_setPos]; exact allowed)
    (by rw [ready.pos_setPos, ready.inodeOf_setPos, DirEntry.length_toBytes]; omega)
    (by rw [ready.inodeOf_setPos]; omega)
  rw [ready.inodeOf_setPos, ready.pos_setPos] at written
  have sought := File.seek_start ready₁ (32 * i)
  rw [setPos_setPos] at sought
  refine ⟨32 * i + (entryOf path inum).toBytes.length, ?_⟩
  rw [insert, if_pos ascii, Call.bind_ok first, Call.bind_ok
    (newEntry_eq short inum), Call.bind_ok sought,
    writeEntry, written]
  congr 1
  exact setPos_setPos (s.wrote (s.inodeOf 0).data.start (32 * i)
    (entryOf path inum).toBytes) 0 (32 * i) _

theorem insert_full {path : Path} (ready : FileReady s 0) (small : (s.inodeOf 0).data.len < 2 ^ 32)
    (ascii : isAscii path) (full : s.entries.findIdx? (fun e => !e.isValid) = none) (inum : Nat) :
    ∃ p, insert path inum s = .err .rootDirFull (s.setPos 0 p) := by
  obtain ⟨p, first⟩ := firstInvalid_eq ready small
  rw [full] at first
  refine ⟨p, ?_⟩
  rw [insert, if_pos ascii, Call.bind_err first]

theorem insert_halt {path : Path} {i : Nat} (ready : FileReady s 0)
    (small : (s.inodeOf 0).data.len < 2 ^ 32)
    (ascii : isAscii path) (slot : s.entries.findIdx? (fun e => !e.isValid) = some i)
    (long : 27 < path.length)
    (inum : Nat) : insert path inum s = .halt .bounds := by
  obtain ⟨p, first⟩ := firstInvalid_eq ready small
  rw [slot] at first
  rw [insert, if_pos ascii, Call.bind_ok first, Call.bind_halt (newEntry_halt long inum)]

theorem insert_denied {path : Path} {i : Nat} (ready : FileReady s 0)
    (small : (s.inodeOf 0).data.len < 2 ^ 32)
    (denied : (s.inodeOf 0).desc.denyWrite ≠ 0) (ascii : isAscii path) (short : path.length ≤ 27)
    (slot : s.entries.findIdx? (fun e => !e.isValid) = some i) (inum : Nat) :
    ∃ p, insert path inum s = .err .invalidFileMode (s.setPos 0 p) := by
  obtain ⟨p, first⟩ := firstInvalid_eq ready small
  rw [slot] at first
  have ready₁ := ready.setPos p
  have sought := File.seek_start ready₁ (32 * i)
  rw [setPos_setPos] at sought
  have refused := File.writeFrom_denied (ready.setPos (32 * i)) (entryOf path inum).toBytes
    (by rw [DirEntry.length_toBytes]; decide) (by rw [ready.inodeOf_setPos]; omega)
  refine ⟨32 * i, ?_⟩
  rw [insert, if_pos ascii, Call.bind_ok first, Call.bind_ok
    (newEntry_eq short inum), Call.bind_ok sought,
    writeEntry, refused]

/-- How an insertion ends. When it does not write, nothing but the cursor changes. -/
theorem insert_cases (path : Path) (inum : Nat) (ready : FileReady s 0)
    (small : (s.inodeOf 0).data.len < 2 ^ 32) :
    (isAscii path ∧ (s.entries.findIdx? (fun e => !e.isValid) = none ∨
      (s.inodeOf 0).desc.denyWrite ≠ 0) ∧
        ∃ e p, insert path inum s = .err e (s.setPos 0 p)) ∨
      (¬isAscii path ∧ insert path inum s = .err .cstrFormatErr s) ∨
      (isAscii path ∧ 27 < path.length ∧ (∃ i, s.entries.findIdx? (fun e => !e.isValid) = some i) ∧
        insert path inum s = .halt .bounds) ∨
        (isAscii path ∧ path.length ≤ 27 ∧ (s.inodeOf 0).desc.denyWrite = 0 ∧
          ∃ i, s.entries.findIdx? (fun e => !e.isValid) = some i ∧ ∃ p, insert path inum s = .ok ()
            ((s.wrote (s.inodeOf 0).data.start (32 * i)
              (entryOf path inum).toBytes).setPos 0 p)) := by
  by_cases ascii : isAscii path
  · cases slot : s.entries.findIdx? (fun e => !e.isValid) with
    | none =>
      obtain ⟨p, failed⟩ := insert_full ready small ascii slot inum
      exact .inl ⟨ascii, .inl rfl, _, p, failed⟩
    | some i =>
      by_cases short : path.length ≤ 27
      · by_cases allowed : (s.inodeOf 0).desc.denyWrite = 0
        · exact .inr (.inr (.inr ⟨ascii, short, allowed, i, rfl,
            insert_ok ready small allowed ascii short slot⟩))
        · obtain ⟨p, failed⟩ := insert_denied ready small allowed ascii short slot inum
          exact .inl ⟨ascii, .inr allowed, _, p, failed⟩
      · have long := Nat.lt_of_not_le short
        exact .inr (.inr (.inl ⟨ascii, long, ⟨i, rfl⟩,
          insert_halt ready small ascii slot long inum⟩))
  · refine .inr (.inl ⟨ascii, ?_⟩)
    rw [insert, if_neg ascii, Call.throw_apply]

end RootDir

/-- An entry written over a slot is read back from it, and the other slots stay. -/
theorem entryAt_overwrite (d : Nat → Sector) (start i k : Nat) {e : DirEntry}
    (h : e.inum < 2 ^ 32) :
    entryAt (overwrite d start (32 * i) e.toBytes) start k = if k =
      i then e else entryAt d start k := by
  by_cases hk : k = i
  · subst hk
    rw [if_pos rfl]
    refine Eq.trans ?_ (DirEntry.ofBytes_toBytes h)
    rw [entryAt]
    congr 1
    apply List.ext_getElem
    · rw [length_bytesFrom, DirEntry.length_toBytes]
    · intro j hj hj'
      rw [DirEntry.length_toBytes] at hj'
      simp only [bytesFrom, List.getElem_map, List.getElem_range]
      rw [fileByte_overwrite, if_pos (by rw [DirEntry.length_toBytes]; omega),
        Nat.add_sub_cancel_left,
        List.getD_eq_getElem]
  · rw [if_neg hk]
    apply entryAt_congr
    intro j hj
    rw [fileByte_overwrite, if_neg (by rw [DirEntry.length_toBytes]; omega)]

/-- The disk after the entries of an inode number, from the `k`-th up to the `n`-th, are struck
out: the first byte of each is the mark of an invalid entry. -/
def struck (d : Nat → Sector) (start inum k n : Nat) : Nat → Sector := fun y j =>
  if start ≤ y ∧ ((y - start) * 512 + j.val) % 32 = 0 ∧ k ≤ ((y - start) * 512 + j.val) / 32 ∧
      ((y - start) * 512 + j.val) / 32 < n ∧
        (entryAt d start (((y - start) * 512 + j.val) / 32)).inum = inum then DirEntry.tombstone
  else d y j

theorem fileByte_struck (d : Nat → Sector) (start inum k n i : Nat) :
    fileByte (struck d start inum k n) start i =
      if i % 32 = 0 ∧ k ≤ i / 32 ∧ i / 32 < n ∧ (entryAt d start (i / 32)).inum = inum then
        DirEntry.tombstone else fileByte d start i := by
  have index : (start + i / 512 - start) * 512 + (Fin.ofNat 512 i).val = i := by
    rw [Fin.val_ofNat]
    omega
  rw [fileByte, struck, index]
  simp only [Nat.le_add_right, true_and, fileByte]

private theorem overwrite_invalidate (d : Nat → Sector) (start i : Nat) :
    overwrite d start (32 * i) (entryAt d start i).invalidate.toBytes =
      fun y j => if start ≤ y ∧ (y - start) * 512 + j.val =
        32 * i then DirEntry.tombstone else d y j := by
  funext y j
  have hj := j.isLt
  rw [overwrite, DirEntry.length_toBytes]
  by_cases inside : start ≤ y ∧ 32 * i ≤ (y - start) * 512 + j.val ∧
    (y - start) * 512 + j.val < 32 * i + 32
  · rw [if_pos inside, DirEntry.toBytes_invalidate _ (by omega)]
    by_cases first : (y - start) * 512 + j.val = 32 * i
    · rw [if_pos (by omega), if_pos ⟨inside.1, first⟩]
    · rw [if_neg (by omega), if_neg (fun h => first h.2), entryAt,
        DirEntry.toBytes_ofBytes _ (by omega),
        List.getD_eq_getElem _ _ (by rw [length_bytesFrom]; omega)]
      simp only [bytesFrom, List.getElem_map, List.getElem_range, fileByte]
      have sector : start + (32 * i + ((y - start) * 512 + j.val - 32 * i)) / 512 = y := by omega
      have index : Fin.ofNat 512 (32 * i + ((y - start) * 512 + j.val - 32 * i)) = j := by
        apply Fin.ext
        rw [Fin.val_ofNat]
        omega
      rw [sector, index]
  · rw [if_neg inside, if_neg (by omega)]

private theorem struck_cons (d : Nat → Sector) {start inum k n : Nat} (h : k < n) :
    struck d start inum k n = if (entryAt d start k).inum = inum then
      struck (overwrite d start (32 * k) (entryAt d start k).invalidate.toBytes)
        start inum (k + 1) n
      else struck d start inum (k + 1) n := by
  by_cases here : (entryAt d start k).inum = inum
  · rw [if_pos here, overwrite_invalidate]
    funext y j
    have later : ∀ i, k < i → entryAt (fun y j => if start ≤ y ∧
      (y - start) * 512 + j.val = 32 * k then
        DirEntry.tombstone else d y j) start i = entryAt d start i := by
      intro i hi
      rw [← overwrite_invalidate]
      apply entryAt_congr
      intro b hb
      rw [fileByte_overwrite, if_neg (by rw [DirEntry.length_toBytes]; omega)]
    simp only [struck]
    generalize hidx : (y - start) * 512 + j.val = idx
    by_cases first : start ≤ y ∧ idx = 32 * k
    · obtain ⟨low, rfl⟩ := first
      rw [if_pos ⟨low, by omega, by omega, by omega, by rwa [show 32 * k / 32 = k by omega]⟩,
        if_neg (by omega), if_pos ⟨low, rfl⟩]
    · by_cases after : start ≤ y ∧ idx % 32 = 0 ∧ k + 1 ≤ idx / 32 ∧ idx / 32 < n ∧
          (entryAt d start (idx / 32)).inum = inum
      · rw [if_pos ⟨after.1, after.2.1, by omega, after.2.2.2⟩,
          if_pos ⟨after.1, after.2.1, after.2.2.1,
            after.2.2.2.1, by rw [later _ (by omega)]; exact after.2.2.2.2⟩]
      · rw [if_neg (fun h => after ⟨h.1, h.2.1, by omega, h.2.2.2⟩), if_neg ?_, if_neg first]
        rintro ⟨low, zero, high, bound, same⟩
        rw [later _ (by omega)] at same
        exact after ⟨low, zero, high, bound, same⟩
  · rw [if_neg here]
    funext y j
    simp only [struck]
    generalize (y - start) * 512 + j.val = idx
    refine if_congr ⟨fun h => ⟨h.1, h.2.1, ?_, h.2.2.2⟩,
      fun h => ⟨h.1, h.2.1, by omega, h.2.2.2⟩⟩ rfl rfl
    by_contra hk
    have at_k : idx / 32 = k := by omega
    exact here (at_k ▸ h.2.2.2.2)

private theorem struck_nil (d : Nat → Sector) (start inum : Nat) {k n : Nat} (h : n ≤ k) :
    struck d start inum k n = d := by
  funext y j
  rw [struck, if_neg (by omega)]

/-- The state with the entries of an inode number struck out, from the `k`-th on. -/
def Sys.strike (s : Sys) (inum k : Nat) : Sys :=
  { s with disk := struck s.disk (s.inodeOf 0).data.start inum k ((s.inodeOf 0).data.len / 32) }

theorem FileReady.strike_setPos (ready : FileReady s 0) (inum k p q : Nat) :
    ((s.setPos 0 p).strike inum k).setPos 0 q = (s.strike inum k).setPos 0 q := by
  rw [Sys.strike, ready.inodeOf_setPos]
  exact setPos_setPos (s.strike inum k) 0 p q

namespace RootDir

private theorem removeLoop_eq (inum : Nat) {fuel k : Nat} (ready : FileReady s 0)
    (pos : (s.file 0).pos = 32 * k) (inside : k ≤ (s.inodeOf 0).data.len / 32)
    (small : (s.inodeOf 0).data.len < 2 ^ 32) (allowed : (s.inodeOf 0).desc.denyWrite = 0)
    (enough : (s.inodeOf 0).data.len / 32 < fuel + k) :
    ∃ p, removeLoop inum fuel s = .ok () ((s.strike inum k).setPos 0 p) := by
  induction fuel generalizing s k with
  | zero => omega
  | succ fuel ih =>
    rw [removeLoop]
    by_cases more : k < (s.inodeOf 0).data.len / 32
    · have next := ready.setPos (32 * (k + 1))
      have same := ready.inodeOf_setPos (32 * (k + 1))
      rw [Call.bind_ok (Call.attempt_ok (readEntry_ok ready pos more)), Sys.strike,
        struck_cons s.disk more]
      simp only
      by_cases here : (entryAt s.disk (s.inodeOf 0).data.start k).inum = inum
      · rw [if_pos here, if_pos here]
        have back : File.seek 0 (.current (-32)) (s.setPos 0 (32 * (k + 1))) = _ :=
          File.seek_back (n := 32) next (by rw [ready.pos_setPos]; omega)
            (by rw [ready.pos_setPos]; omega)
        rw [ready.pos_setPos, setPos_setPos, show 32 * (k + 1) - 32 = 32 * k by omega] at back
        have written := File.writeFrom_eq (ready.setPos (32 * k))
          (entryAt s.disk (s.inodeOf 0).data.start k).invalidate.toBytes
          (by rw [DirEntry.length_toBytes]; decide) (by rw [DirEntry.length_toBytes]; norm_num)
          (by rw [ready.inodeOf_setPos]; exact allowed)
          (by rw [ready.pos_setPos, ready.inodeOf_setPos, DirEntry.length_toBytes]; omega)
          (by rw [ready.inodeOf_setPos]; omega)
        rw [ready.inodeOf_setPos, ready.pos_setPos, DirEntry.length_toBytes,
          show 32 * k + 32 = 32 * (k + 1) by omega] at written
        have after := ready.wrote (s.inodeOf 0).data.start (32 * k)
          (entryAt s.disk (s.inodeOf 0).data.start k).invalidate.toBytes
        have state : ((s.setPos 0 (32 * k)).wrote (s.inodeOf 0).data.start (32 * k)
            (entryAt s.disk (s.inodeOf 0).data.start k).invalidate.toBytes).setPos 0
            (32 * (k + 1)) =
            (s.wrote (s.inodeOf 0).data.start (32 * k)
              (entryAt s.disk (s.inodeOf 0).data.start k).invalidate.toBytes).setPos 0
              (32 * (k + 1)) :=
          setPos_setPos (s.wrote (s.inodeOf 0).data.start (32 * k)
            (entryAt s.disk (s.inodeOf 0).data.start k).invalidate.toBytes) 0 (32 * k) _
        rw [state] at written
        have unchanged := after.inodeOf_setPos (32 * (k + 1))
        obtain ⟨p, rest⟩ := ih (k := k + 1) (after.setPos (32 * (k + 1))) (after.pos_setPos _)
          (by rw [unchanged]; exact more) (by rw [unchanged]; exact small)
          (by rw [unchanged]; exact allowed)
          (by rw [unchanged]; change (s.inodeOf 0).data.len / 32 < _; omega)
        refine ⟨p, ?_⟩
        rw [Call.bind_ok back, writeEntry, Call.bind_ok written, rest, after.strike_setPos]
        rfl
      · rw [if_neg here, if_neg here]
        obtain ⟨p, rest⟩ := ih (k := k + 1) next (ready.pos_setPos _) (by rw [same]; exact more)
          (by rw [same]; exact small) (by rw [same]; exact allowed) (by rw [same]; omega)
        refine ⟨p, ?_⟩
        rw [rest, ready.strike_setPos]
        rfl
    · obtain ⟨p, read⟩ := readEntry_err ready pos (by omega)
      refine ⟨p, ?_⟩
      rw [Call.bind_ok (Call.attempt_err read), Sys.strike, struck_nil _ _ _ (by omega)]
      rfl

theorem remove_ok (inum : Nat) (ready : FileReady s 0) (small : (s.inodeOf 0).data.len < 2 ^ 32)
    (allowed : (s.inodeOf 0).desc.denyWrite = 0) :
    ∃ p, remove inum s = .ok () ((s.strike inum 0).setPos 0 p) := by
  have same := ready.inodeOf_setPos 0
  obtain ⟨p, loop⟩ := removeLoop_eq inum (k := 0) (ready.setPos 0)
    (ready.pos_setPos 0) (Nat.zero_le _)
    (by rw [same]; exact small) (by rw [same]; exact allowed)
    (show _ < (s.inodeOf 0).data.len / 32 + 1 + 0 by rw [same]; omega)
  have bound : rounds (s.setPos 0 0) = .ok ((s.inodeOf 0).data.len / 32 + 1) (s.setPos 0 0) := by
    rw [← same]
    rfl
  refine ⟨p, ?_⟩
  rw [remove, Call.bind_ok (File.rewind_eq ready), Call.bind_ok bound, loop, ready.strike_setPos]

end RootDir

end Tacos.Fs
