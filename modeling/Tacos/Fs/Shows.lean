/- GID: Tacos/Fs/Shows
   generality: I
   source: src/fs/disk.rs, src/fs/disk/inode.rs, src/fs.rs
   digest: What each call on files and descriptors answers and does to what is shown. -/

import Tacos.Fs.InMem
import Tacos.Fs.Shown

set_option autoImplicit false
set_option relaxedAutoImplicit false

namespace Tacos.Fs

open Tacos.Lib Tacos.Lib.Exec Tacos.Lib.Ownership FreeMap Inode RootDir

variable {slots slots' : Slots} {s t u : Sys} {x y id h n p : Nat} {f : File}
    {path : Path} {X gone : Set Nat}

theorem getElem?_bytesFrom (d : Nat → Sector) (start off n i : Nat) :
    (bytesFrom d start off n)[i]? = if i < n then some (fileByte d start (off + i)) else none := by
  rw [bytesFrom, List.getElem?_map]
  by_cases inside : i < n
  · rw [if_pos inside, List.getElem?_range inside]
    rfl
  · rw [if_neg inside, List.getElem?_eq_none (by rw [List.length_range]; omega)]
    rfl

theorem bytesFrom_part (d : Nat → Sector) (start len off n : Nat) :
    bytesFrom d start off (min (len - off) n) = ((bytesFrom d start 0 len).drop off).take n := by
  apply List.ext_getElem?
  intro i
  rw [getElem?_bytesFrom, List.getElem?_take, List.getElem?_drop, getElem?_bytesFrom]
  by_cases inside : i < n
  · rw [if_pos inside]
    refine if_congr ?_ (by rw [Nat.zero_add]) rfl
    omega
  · rw [if_neg inside, if_neg (by omega)]

/-- A descriptor other than the root directory's, the file that it is, and the inode that it is
on. -/
structure Handle (slots : Slots) (s : Sys) (h : Nat) (f : File) (x : Nat) : Prop where
  nonzero : h ≠ 0
  lookup : s.files.lookup h = some f
  slot : slots x = some (.opened f.vnode)
  other : x ≠ 1

namespace Handle

variable (handle : Handle slots s h f x)

include handle

theorem file : s.file h = f := by
  rw [Sys.file, handle.lookup]
  rfl

theorem shown (m : Mounted slots s) : s.store.files h = some ⟨x, f.pos, f.denyWrite⟩ :=
  store_files m.sound handle.nonzero handle.lookup handle.slot

theorem length (m : Mounted slots s) : (s.store.bytes x).length = (s.inodes f.vnode).data.len := by
  rw [store_bytes_opened m handle.slot, length_bytesFrom]

end Handle

theorem Mounted.handle (m : Mounted slots s) (nonzero : h ≠ 0) (mine : (h, f) ∈ s.files) :
    ∃ x, Handle slots s h f x := by
  obtain ⟨x, hx, ne⟩ := m.slot_of_mem mine nonzero
  exact ⟨x, nonzero, m.lookup_of_mem mine, hx, ne⟩

theorem lookup_filter (files : List (Nat × File)) (h k : Nat) :
    (files.filter (·.1 != h)).lookup k = if k = h then none else files.lookup k := by
  induction files with
  | nil => simp
  | cons q rest ih =>
    obtain ⟨n, g⟩ := q
    rw [List.filter_cons]
    by_cases here : n = h
    · rw [if_neg (by simp [here]), ih, List.lookup_cons]
      by_cases same : k = h
      · rw [if_pos same, if_pos same]
      · have apart : (k == n) = false := beq_eq_false_iff_ne.mpr (here ▸ same)
        rw [if_neg same, if_neg same, apart]
    · rw [if_pos (by simpa using here), List.lookup_cons, List.lookup_cons, ih]
      by_cases same : k = h
      · have apart : (k == n) = false := beq_eq_false_iff_ne.mpr (same ▸ Ne.symm here)
        rw [if_pos same, if_pos same, apart]
      · rw [if_neg same, if_neg same]

theorem lookup_flags (s : Sys) (h k : Nat) : (s.flagged h).files.lookup k =
    if k = h then (s.files.lookup h).map fun f =>
      { f with denyWrite := true } else s.files.lookup k := by
  rw [Sys.flagged]
  induction s.files with
  | nil => simp
  | cons q rest ih =>
    obtain ⟨n, g⟩ := q
    rw [List.map_cons]
    by_cases here : n = h
    · subst here
      rw [if_pos rfl, List.lookup_cons, List.lookup_cons, List.lookup_cons, ih]
      by_cases same : k = n
      · simp [same]
      · have apart : (k == n) = false := beq_false_of_ne same
        simp [same, apart]
    · rw [if_neg here, List.lookup_cons, List.lookup_cons, List.lookup_cons, ih]
      by_cases same : k = h
      · subst same
        have apart : (k == n) = false := beq_false_of_ne (Ne.symm here)
        simp [apart]
      · simp [same]

theorem Mounted.unused (m : Mounted slots s) : s.files.lookup s.nextFile = none := by
  cases found : s.files.lookup s.nextFile with
  | none => rfl
  | some f =>
    have mine : (s.nextFile, f.vnode) ∈ s.links := List.mem_map.mpr ⟨_, mem_of_lookup found, rfl⟩
    exact absurd (m.linked.handle_lt _ mine) (Nat.lt_irrefl _)

/-- No two entries in use agree, and no name leads to an inode in memory that is marked to go. -/
structure Proper (s : Sys) : Prop where
  unique : Unique s.entries
  gone : ∀ x id, s.upgrade x = some id → (s.inodes id).desc.removed = true →
    ∀ e ∈ s.entries, e.isValid = true → e.inum ≠ x

/-- A step that keeps the names and marks no inode to go. -/
theorem Proper.of_same (proper : Proper s) (m : Mounted slots s) (m' : Mounted slots' t)
    (entries : t.entries = s.entries)
    (flags : ∀ x id, slots' x = some (.opened id) → (t.inodes id).desc.removed = true →
      ∃ id', slots x = some (.opened id') ∧ (s.inodes id').desc.removed = true) : Proper t := by
  refine ⟨entries ▸ proper.unique, ?_⟩
  intro x id up removed
  obtain ⟨id', hx, marked⟩ := flags x id ((m'.linked.upgrade x id).mp up) removed
  rw [entries]
  exact proper.gone x id' ((m.linked.upgrade x id').mpr hx) marked

/-- A step that concerns an inode in memory and leaves its mark. -/
theorem Proper.of_local (proper : Proper s) (m : Mounted slots s) (m' : Mounted slots t)
    (loc : Local slots slots s t {x})
    (ne : x ≠ 1) (hx : slots x = some (.opened id))
    (mark : (t.inodes id).desc.removed = (s.inodes id).desc.removed) :
    Proper t := by
  refine proper.of_same m m' (m.entries_of_local m' loc (Mounted.root_ne ne)) ?_
  intro y id' hy removed
  refine ⟨id', hy, ?_⟩
  by_cases here : y = x
  · subst here
    rw [hx] at hy
    cases hy
    rw [← mark, removed]
  · rw [← loc.inode y here id' hy, removed]

namespace DiskFs

/-- A step of the file that a descriptor is on, after which the descriptor is another one. -/
theorem shown_through (m : Mounted slots s) (handle : Handle slots s h f x) {gone : Set Nat}
    (confined : Confined slots slots s t {x} gone) {g : File} (file : t.files.lookup h = some g)
    (vnode : g.vnode = f.vnode) (others : ∀ k, k ≠ 0 → k ≠ h → t.files.lookup k = s.files.lookup k)
    {u : FileStore.Store Path Nat Nat UInt8} (names : u.names = s.store.names)
    (files : u.files = Function.update s.store.files h (some ⟨x, g.pos, g.denyWrite⟩))
    (rest : ∀ y, y ≠ x → u.bytes y = s.store.bytes y ∧ u.denials y = s.store.denials y)
    (bytes : t.store.bytes x = u.bytes x)
    (denials : (t.inodes f.vnode).desc.denyWrite = u.denials x) :
    u.Alike t.store := by
  have m' := confined.mounted
  refine confined.loc.alike m m' ?_ ?_ (fun y out => rest y out) ?_ ?_
  · rw [names]
    exact store_names_kept (m.entries_of_local m' confined.loc (Mounted.root_ne handle.other))
  · rw [files]
    have slot : slots x = some (.opened g.vnode) := vnode ▸ handle.slot
    exact store_files_put m m' (store_files m'.sound handle.nonzero file slot) others
      fun k g y _ _ hy => hy
  · rintro y rfl _ _
    exact bytes
  · rintro y rfl _ id hy
    rw [handle.slot] at hy
    cases hy
    rw [store_denials_opened m' handle.slot, denials]

theorem shown_moved (m : Mounted slots s) (proper : Proper s)
    (handle : Handle slots s h f x) (p : Nat) :
    (s.store.put h (some ⟨x, p, f.denyWrite⟩)).Alike (s.setPos h p).store ∧
      Proper (s.setPos h p) := by
  have confined := cursor_confined m handle.nonzero handle.other p
  have file : (s.setPos h p).files.lookup h = some { f with pos := p } := by
    rw [lookup_setPos, if_pos rfl, handle.lookup]
    rfl
  refine ⟨?_, proper.of_local m confined.mounted confined.loc handle.other handle.slot rfl⟩
  refine shown_through m handle confined file rfl ?_ rfl rfl (fun y _ => ⟨rfl, rfl⟩) ?_ ?_
  · intro k _ other
    rw [lookup_setPos, if_neg other]
  · rw [store_bytes_opened confined.mounted handle.slot]
    exact (store_bytes_opened m handle.slot).symm
  · exact (store_denials_opened m handle.slot).symm

/-- A read gives the bytes at the cursor, as many as there are and as the buffer takes. -/
theorem read_answers (m : Mounted slots s) (handle : Handle slots s h f x) {buf : Slice}
    (kernel : buf.InKernel) :
    ∃ bytes, File.read h buf s = .ok bytes (s.setPos h (f.pos + bytes.length)) ∧
      bytes = ((s.store.bytes x).drop f.pos).take buf.bytes.length := by
  have free : ∀ l, l ∉ s.held := by simp [m.idle]
  obtain got | ⟨-, p, blocked⟩ := readAt_cases (free (.inode f.vnode)) (free _) buf f.pos
  · refine ⟨bytesFrom s.disk (s.inodes f.vnode).data.start f.pos
      (min ((s.inodes f.vnode).data.len - f.pos) buf.bytes.length),
      File.read_ok handle.file got, ?_⟩
    rw [store_bytes_opened m handle.slot, bytesFrom_part]
  · exact absurd kernel blocked.not_inKernel

theorem seek_answers (m : Mounted slots s) (handle : Handle slots s h f x) (pos : SeekFrom) :
    (∃ e, File.seek h pos s = .halt e) ∨ ∃ p, pos.newPos (s.store.bytes x).length f.pos = some p ∧
      File.seek h pos s = .ok p (s.setPos h p) := by
  rw [handle.length m, File.seek_eq handle.file (by simp [m.idle])]
  cases pos.newPos (s.inodes f.vnode).data.len f.pos with
  | none => exact .inl ⟨_, rfl⟩
  | some p => exact .inr ⟨p, rfl, rfl⟩

/-- What a write comes to: it is denied, there is no room, the machine stops, or the file is as
long as it has to be and the bytes are in it. -/
theorem write_answers (m : Mounted slots s) (handle : Handle slots s h f x) {buf : Slice}
    (kernel : buf.InKernel)
    (small : f.pos + buf.bytes.length < 2 ^ 32) :
    ((s.inodes f.vnode).desc.denyWrite ≠ 0 ∧ File.write h buf s = .err .invalidFileMode s) ∨
      (s.inodes f.vnode).desc.denyWrite = 0 ∧
        ((s.inodes f.vnode).data.len < f.pos + buf.bytes.length ∧
          File.write h buf s = .err .diskSectorAllocFail s ∨
          (∃ e, File.write h buf s = .halt e) ∨
            ∃ u, Resized s u f.vnode (max (s.inodes f.vnode).data.len (f.pos + buf.bytes.length)) ∧
              File.write h buf s = .ok buf.bytes.length
                ((u.wrote (u.inodes f.vnode).data.start f.pos buf.bytes).setPos h
                  (f.pos + buf.bytes.length))) := by
  have free : ∀ l, l ∉ s.held := by simp [m.idle]
  by_cases denied : 0 < (s.inodes f.vnode).desc.denyWrite
  · exact .inl ⟨by omega, File.write_err handle.file (writeAt_denied (free _) buf f.pos denied)⟩
  have allowed : (s.inodes f.vnode).desc.denyWrite = 0 := by omega
  have check : Fs.lock (.inode f.vnode) (do return (← getInode f.vnode).desc.denyWrite) s =
      .ok (s.inodes f.vnode).desc.denyWrite s :=
    lock_ok (t := { s with held := .inode f.vnode :: s.held }) (free _) rfl rfl
  have body : writeAt f.vnode buf f.pos s = writeSection f.vnode buf f.pos s := by
    rw [writeAt, Call.bind_ok check, if_neg denied]
    rfl
  have stop : (f.pos + buf.bytes.length) % 2 ^ 32 = f.pos + buf.bytes.length :=
    Nat.mod_eq_of_lt small
  refine .inr ⟨allowed, ?_⟩
  obtain ⟨failed, longer, -⟩ | ⟨e, stops, -⟩ | ⟨u, change, ends⟩ :=
    writeSection_ends (m.sound.settled handle.slot) (free _) (free _) (free _) buf f.pos
  · exact .inl ⟨longer, File.write_err handle.file (body.trans failed)⟩
  · exact .inr (.inl ⟨e, File.write_halt handle.file (body.trans stops)⟩)
  · have len : writeLen (s.inodes f.vnode) buf f.pos =
        max (s.inodes f.vnode).data.len (f.pos + buf.bytes.length) := by
      rw [writeLen, stop]
      split <;> omega
    rw [len] at change
    have all : min ((u.inodes f.vnode).data.len - f.pos) buf.bytes.length = buf.bytes.length := by
      rw [change.len]
      omega
    rw [all] at ends
    obtain ⟨done, -⟩ | ⟨k, -, -, blocked, -⟩ := ends
    · rw [Nat.zero_add, List.drop_zero, List.take_length] at done
      exact .inr (.inr ⟨u, change, File.write_ok handle.file (body.trans done)⟩)
    · exact absurd kernel blocked.not_inKernel

theorem wrote_bytes (m : Mounted slots s) (handle : Handle slots s h f x) {bytes : List UInt8}
    (change : Resized s u f.vnode (max (s.inodes f.vnode).data.len (f.pos + bytes.length)))
    (m' : Mounted slots t)
    (disk : t.disk = (u.wrote (u.inodes f.vnode).data.start f.pos bytes).disk)
    (inodes : t.inodes = u.inodes) :
    FileStore.Wrote (s.store.bytes x) (t.store.bytes x) f.pos bytes := by
  have old := store_bytes_opened m handle.slot
  have new := store_bytes_opened m' handle.slot
  rw [inodes, disk] at new
  have byte : ∀ i, fileByte (u.wrote (u.inodes f.vnode).data.start f.pos bytes).disk
    (u.inodes f.vnode).data.start i =
      if f.pos ≤ i ∧ i < f.pos + bytes.length then bytes.getD (i - f.pos) 0
      else fileByte u.disk (u.inodes f.vnode).data.start i := fun i => fileByte_overwrite ..
  refine ⟨?_, ?_, ?_⟩
  · rw [new, old, length_bytesFrom, length_bytesFrom, change.len]
  · intro i hi
    rw [new, getElem?_bytesFrom, if_pos (by rw [change.len]; omega), Nat.zero_add,
      byte, if_pos (by omega),
      Nat.add_sub_cancel_left, List.getD_eq_getElem _ _ hi, List.getElem?_eq_getElem hi]
  · intro i hi out
    rw [old, length_bytesFrom] at hi
    rw [new, old, getElem?_bytesFrom, getElem?_bytesFrom, if_pos (by rw [change.len]; omega),
      if_pos hi, Nat.zero_add,
      byte, if_neg out, change.byte hi]

theorem wrote_shown (m : Mounted slots s) (proper : Proper s)
    (handle : Handle slots s h f x) {bytes : List UInt8}
    (small : f.pos + bytes.length < 2 ^ 32)
    (change : Resized s u f.vnode (max (s.inodes f.vnode).data.len (f.pos + bytes.length)))
    (final : t = (u.wrote (u.inodes f.vnode).data.start f.pos bytes).setPos h
      (f.pos + bytes.length)) :
    (∃ new, FileStore.Wrote (s.store.bytes x) new f.pos bytes ∧
      ((s.store.fill x new).put h (some ⟨x, f.pos + bytes.length, f.denyWrite⟩)).Alike t.store) ∧
        Proper t := by
  have total := (m.sound.settled handle.slot).total_lt
  rw [Inode.total] at total
  have resized := m.resized_confined handle.slot handle.other (by omega) change
  have written : Confined slots slots s
    (u.wrote (u.inodes f.vnode).data.start f.pos bytes) {x} ∅ := by
    refine resized.trans (resized.mounted.wrote_confined handle.slot handle.other ?_)
    rw [Inode.total, change.len]
    omega
  have confined : Confined slots slots s t {x} ∅ :=
    final ▸ written.trans (cursor_confined written.mounted handle.nonzero handle.other
      (f.pos + bytes.length))
  have files : u.files = s.files := by rw [change.frame]
  have inodes : t.inodes = u.inodes := by rw [final]; rfl
  have lookup : ∀ k, t.files.lookup k = if k = h then (s.files.lookup h).map
    fun f' => { f' with pos := f.pos + bytes.length }
      else s.files.lookup k := by
    intro k
    rw [final, lookup_setPos]
    change (if k = h then (u.files.lookup h).map _ else u.files.lookup k) = _
    rw [files]
  have file : t.files.lookup h = some { f with pos := f.pos + bytes.length } := by
    rw [lookup, if_pos rfl, handle.lookup]
    rfl
  refine ⟨⟨t.store.bytes x, wrote_bytes m handle change confined.mounted
    (by rw [final]; rfl) inodes, ?_⟩, ?_⟩
  · refine shown_through m handle confined file rfl ?_ rfl rfl ?_ ?_ ?_
    · intro k _ other
      rw [lookup, if_neg other]
    · intro y out
      exact ⟨Function.update_of_ne out _ _, rfl⟩
    · change t.store.bytes x = Function.update s.store.bytes x (t.store.bytes x) x
      rw [Function.update_self]
    · rw [inodes, change.desc]
      exact (store_denials_opened m handle.slot).symm
  · refine proper.of_local m confined.mounted confined.loc handle.other handle.slot ?_
    rw [inodes]
    exact change.removed

/-- A change of length is refused, for want of room, only if the file is to grow. -/
theorem setLen_answers (m : Mounted slots s) (handle : Handle slots s h f x) (small : n < 2 ^ 32) :
    ((s.inodes f.vnode).data.len < n ∧ File.setLen h n s = .err .diskSectorAllocFail s) ∨
      (∃ e, File.setLen h n s = .halt e) ∨ ∃ t, File.setLen h n s = .ok
      () t ∧ Resized s t f.vnode n := by
  have first : File.getFile h s = .ok f s := congrArg (fun f => Outcome.ok f s) handle.file
  have free : ∀ l, l ∉ s.held := by simp [m.idle]
  have ends := resize_ends (m.sound.settled handle.slot) (free _) (free _) (free _) n
  rw [Nat.mod_eq_of_lt small] at ends
  rw [File.setLen, Call.bind_ok first]
  obtain ⟨t, done, change⟩ | ⟨failed, full, -⟩ | ⟨e, stops, -⟩ := ends
  · exact .inr (.inr ⟨t, done, change⟩)
  · refine .inl ⟨?_, failed⟩
    by_contra short
    apply full
    intro more
    rw [Inode.total] at more
    omega
  · exact .inr (.inl ⟨e, stops⟩)

theorem setLen_shown (m : Mounted slots s) (proper : Proper s)
    (handle : Handle slots s h f x) (small : n < 2 ^ 32)
    (change : Resized s t f.vnode n) :
    (∃ new, FileStore.Cut (s.store.bytes x) new n ∧ (s.store.fill x new).Alike t.store) ∧
      Proper t := by
  have confined := m.resized_confined handle.slot handle.other small change
  have m' := confined.mounted
  have files : t.files = s.files := by rw [change.frame]
  refine ⟨⟨t.store.bytes x, ⟨?_, ?_⟩, ?_⟩,
    proper.of_local m m' confined.loc handle.other handle.slot change.removed⟩
  · rw [store_bytes_opened m' handle.slot, length_bytesFrom, change.len]
  · intro i hi low
    rw [handle.length m] at hi
    rw [store_bytes_opened m' handle.slot, store_bytes_opened m handle.slot,
      getElem?_bytesFrom, getElem?_bytesFrom,
      if_pos (by rw [change.len]; exact low), if_pos hi, Nat.zero_add, change.byte hi]
  · refine shown_through m handle confined (files ▸ handle.lookup) rfl
      (fun k _ _ => by rw [files]) rfl ?_ ?_ ?_ ?_
    · exact (Function.update_eq_self_iff.mpr (handle.shown m).symm).symm
    · intro y out
      exact ⟨Function.update_of_ne out _ _, rfl⟩
    · change t.store.bytes x = Function.update s.store.bytes x (t.store.bytes x) x
      rw [Function.update_self]
    · rw [change.desc]
      exact (store_denials_opened m handle.slot).symm

/-- Writing is denied once more, and the descriptor knows that it does. -/
theorem denyWrite_shown (m : Mounted slots s) (proper : Proper s) (handle : Handle slots s h f x)
    (stepped : after (denyWrite h) s = some t) :
    ((s.store.count x (s.store.denials x + 1)).put h (some ⟨x, f.pos, true⟩)).Alike t.store ∧
      Proper t := by
  have vnode : (s.file h).vnode = f.vnode := congrArg File.vnode handle.file
  have confined := denyWrite_confined m handle.nonzero (vnode ▸ handle.slot) handle.other stepped
  have state := denyWrite_state m stepped
  rw [vnode] at state
  have inode : t.inodes f.vnode =
      ⟨{ (s.inodes f.vnode).desc with denyWrite := (s.inodes f.vnode).desc.denyWrite + 1 },
        (s.inodes f.vnode).data⟩ := by
    rw [state]
    exact Function.update_self ..
  have lookup : ∀ k, t.files.lookup k = (s.flagged h).files.lookup k := by
    intro k
    rw [state]
    rfl
  have file : t.files.lookup h = some { f with denyWrite := true } := by
    rw [lookup, lookup_flags, if_pos rfl, handle.lookup]
    rfl
  have disk : t.disk = s.disk := by
    rw [state]
    rfl
  constructor
  · refine shown_through m handle confined file rfl ?_ rfl rfl ?_ ?_ ?_
    · intro k _ other
      rw [lookup, lookup_flags, if_neg other]
    · intro y out
      exact ⟨rfl, Function.update_of_ne out _ _⟩
    · rw [store_bytes_opened confined.mounted handle.slot, inode, disk]
      exact (store_bytes_opened m handle.slot).symm
    · rw [inode]
      change _ = Function.update s.store.denials x (s.store.denials x + 1) x
      rw [Function.update_self, store_denials_opened m handle.slot]
  · exact proper.of_local m confined.mounted confined.loc handle.other handle.slot (by rw [inode])

/-- A descriptor that is new, on an inode in memory that has the bytes and the denials it should
have. -/
theorem shown_opened (m : Mounted slots s) (confined : Confined slots slots' s t X gone)
    (single : ∀ y ∈ X, y = 1 ∨ y = x)
    (slot : slots' x = some (.opened id)) (ne : x ≠ 1) {g : File} (vnode : g.vnode = id)
    (lookup : ∀ k, k ≠ 0 → t.files.lookup k = if k = s.nextFile then some g else s.files.lookup k)
    (kept : ∀ k f y, s.files.lookup k = some f → slots y = some (.opened f.vnode) →
      slots' y = some (.opened f.vnode))
    {u : FileStore.Store Path Nat Nat UInt8} (names : t.store.names = u.names)
    (files : u.files = Function.update s.store.files s.nextFile (some ⟨x, g.pos, g.denyWrite⟩))
    (rest : ∀ y, y ≠ x → u.bytes y = s.store.bytes y ∧ u.denials y = s.store.denials y)
    (bytes : t.store.bytes x = u.bytes x) (denials : t.store.denials x = u.denials x) :
    u.Alike t.store := by
  have m' := confined.mounted
  have loc := confined.loc.mono (Y := {1, x}) single
  refine loc.alike m m' names ?_ ?_ ?_ ?_
  · rw [files]
    have nonzero : s.nextFile ≠ 0 := by
      have pos := m.nextFile_pos
      omega
    refine store_files_put m m' (store_files m'.sound nonzero ?_ (vnode ▸ slot)) ?_
      fun k f y _ => kept k f y
    · rw [lookup _ nonzero, if_pos rfl]
    · intro k other apart
      rw [lookup k other, if_neg apart]
  · intro y out
    exact rest y fun here => out (.inr here)
  · rintro y (one | rfl) ne' _
    · exact absurd one ne'
    · exact bytes
  · rintro y (one | rfl) ne' _ _
    · exact absurd one ne'
    · exact denials

theorem lookup_opened_cons (s : Sys) (g : File) (k : Nat) :
    ((s.nextFile, g) :: s.files).lookup k = if k =
      s.nextFile then some g else s.files.lookup k := by
  rw [List.lookup_cons]
  by_cases here : k = s.nextFile
  · rw [if_pos here, beq_iff_eq.mpr here]
  · rw [if_neg here, beq_eq_false_iff_ne.mpr here]

theorem clone_shown (m : Mounted slots s) (proper : Proper s) (handle : Handle slots s h f x) :
    ∃ t, cloneFile h s = .ok s.nextFile t ∧
      (s.store.put s.nextFile (some ⟨x, f.pos, f.denyWrite⟩)).Alike t.store ∧ Proper t := by
  have file := handle.file
  have slot : slots x = some (.opened (s.file h).vnode) := file ▸ handle.slot
  have confined := cloneFile_confined (t :=
    { s with files := (s.nextFile, s.file h) :: s.files, nextFile := s.nextFile + 1 })
    m slot handle.other rfl
  have m' := confined.mounted
  refine ⟨_, rfl, ?_, proper.of_local m m' confined.loc handle.other handle.slot rfl⟩
  rw [file] at confined m' ⊢
  refine shown_opened m confined (fun y hy => .inr hy) handle.slot handle.other rfl
    (fun k _ => lookup_opened_cons s f k) (fun k g y _ hy => hy) ?_ rfl
    (fun y _ => ⟨rfl, rfl⟩) ?_ ?_
  · exact store_names_kept (m.entries_of_local m' confined.loc (Mounted.root_ne handle.other))
  · rw [store_bytes_opened m' handle.slot]
    exact (store_bytes_opened m handle.slot).symm
  · rw [store_denials_opened m' handle.slot]
    exact (store_denials_opened m handle.slot).symm

theorem find_struck_unused {es : List DirEntry}
    (unused : ∀ e ∈ es, e.isValid = true → e.inum ≠ x) (q : Path) :
    find q (es.map (DirEntry.strike x)) = find q es := by
  induction es with
  | nil => rfl
  | cons e es ih =>
    have rest := ih fun e' he' => unused e' (List.mem_cons_of_mem e he')
    rw [List.map_cons, find, find, rest]
    by_cases valid : e.isValid = true
    · have other : ¬e.inum = x := unused e List.mem_cons_self valid
      rw [DirEntry.strike, if_neg other]
    · have still : ¬(e.strike x).isValid = true := fun now => valid ((strike_of_valid now).1 ▸ now)
      rw [if_neg valid, if_neg still]

theorem closed_lookup (closed : Closed s t id) {k : Nat} (ne : k ≠ 0) :
    t.files.lookup k = s.files.lookup k := by
  have frame := closed.frame
  split at frame
  · rw [frame]
    exact (lookup_setPos _ 0 _ k).trans (if_neg ne)
  · rw [frame]

/-- A descriptor that is dropped takes back its denial. The file stays where it is, or its inode is
closed, and if no name leads to it then it is gone. -/
theorem drop_shown (m : Mounted slots s) (proper : Proper s) (handle : Handle slots s h f x) :
    (∃ e, dropFile h s = .halt e) ∨ ∃ t, dropFile h s = .ok () t ∧
      ((s.store.released ⟨x, f.pos, f.denyWrite⟩).put h none).Alike t.store ∧ Proper t := by
  have mine := mem_of_lookup handle.lookup
  have allowed := m.allow_confined handle.slot handle.other
  have m₁ := allowed.mounted
  obtain ⟨files, -, -, -, -, disk, -⟩ := Mounted.allow_fields s f
  obtain ⟨data, -, removed⟩ := Mounted.allow_inode s f
  have properly : Proper (s.allow f) := proper.of_local m m₁ allowed.loc
    handle.other handle.slot removed
  -- Before the descriptor goes, its denial does.
  have denials : ((s.allow f).inodes f.vnode).desc.denyWrite =
      (s.store.released ⟨x, f.pos, f.denyWrite⟩).denials x := by
    rw [FileStore.Store.released_denials, store_denials_opened m handle.slot, Sys.allow]
    split
    · rename_i denies
      rw [if_pos ⟨denies, rfl⟩]
      change (Function.update s.inodes f.vnode _ f.vnode).desc.denyWrite = _
      rw [Function.update_self]
    · rename_i denies
      rw [if_neg fun both => denies both.1]
  have bytes : bytesFrom (s.allow f).disk ((s.allow f).inodes f.vnode).data.start 0
      ((s.allow f).inodes f.vnode).data.len = s.store.bytes x := by
    rw [store_bytes_opened m handle.slot, disk, data]
  have rest : ∀ y, y ≠ x → (s.store.released ⟨x, f.pos, f.denyWrite⟩).bytes y = s.store.bytes y ∧
      (s.store.released ⟨x, f.pos, f.denyWrite⟩).denials y = s.store.denials y := by
    intro y out
    rw [FileStore.Store.released_bytes, FileStore.Store.released_denials,
      if_neg fun both => out both.2]
    exact ⟨rfl, rfl⟩
  have lookup : ∀ k, ((s.allow f).dropped h).files.lookup k = if k =
    h then none else s.files.lookup k := by
    intro k
    change ((s.allow f).files.filter (·.1 != h)).lookup k = _
    rw [files, lookup_filter]
  have names : (s.allow f).store.names = s.store.names :=
    store_names_kept (m.entries_of_local m₁ allowed.loc (Mounted.root_ne handle.other))
  obtain ⟨e, stops, -⟩ | ⟨-, done, carried⟩ | ⟨last, t, done, closed, carried⟩ :=
    m.dropFile_cases mine handle.nonzero handle.slot
  · exact .inl ⟨e, stops⟩
  · have dropped : Confined slots slots (s.allow f) ((s.allow f).dropped h) {x} {h} :=
      m₁.files_confined carried.mounted (Mounted.lookup_dropped _ handle.nonzero) handle.other
        (Mounted.dropped_links _ h)
    have confined := allowed.trans dropped
    have m' := confined.mounted
    refine .inr ⟨_, done, ?_, properly.of_local m₁ m' dropped.loc handle.other handle.slot rfl⟩
    refine confined.loc.alike m m' ?_ ?_ rest ?_ ?_
    · refine (store_names_kept (m₁.entries_of_local m' dropped.loc
        (Mounted.root_ne handle.other))).trans ?_
      exact names.trans (FileStore.Store.released_names ..).symm
    · have gone : ((s.allow f).dropped h).store.files h = none :=
        store_files_none (.inr (by rw [lookup, if_pos rfl]))
      refine (store_files_put m m' gone ?_ fun k g y _ _ hy => hy).trans ?_
      · intro k _ other
        rw [lookup, if_neg other]
      · change _ = Function.update (s.store.released ⟨x, f.pos, f.denyWrite⟩).files h none
        rw [FileStore.Store.released_files]
    · rintro y rfl _ _
      rw [store_bytes_opened m' handle.slot]
      exact bytes.trans (congrFun (FileStore.Store.released_bytes ..) y).symm
    · rintro y rfl _ id hy
      rw [handle.slot] at hy
      cases hy
      rw [store_denials_opened m' handle.slot]
      exact denials
  · have shut := m₁.closed_confined carried.mounted handle.other handle.nonzero handle.slot closed
    have confined := (allowed.mono (Set.subset_insert 1 {x})).trans shut
    have m' := confined.mounted
    have dropped : Sound slots ((s.allow f).dropped h) :=
      m₁.sound.of_files _ _ _ (Mounted.lookup_dropped _ handle.nonzero)
    have up : (s.allow f).upgrade x = some f.vnode := (m₁.linked.upgrade x f.vnode).mpr handle.slot
    have same : ((s.allow f).dropped h).entries = (s.allow f).entries := by
      have file : ((s.allow f).dropped h).file 0 = (s.allow f).file 0 := by
        rw [Sys.file, Mounted.lookup_dropped _ handle.nonzero, ← Sys.file]
      rw [Sys.entries, Sys.inodeOf, file]
      rfl
    have inodes : t.inodes = (s.allow f).inodes := (closed_counts closed).1
    have entries := Mounted.closed_entries dropped closed
    rw [dropped.sector_eq handle.slot, same] at entries
    have frame := closed.frame
    -- No name leads to the inode if it is to go, and what is struck out was not in use.
    have kept : t.store.names = (s.allow f).store.names ∧
        (∀ e ∈ t.entries, e.isValid = true → e ∈ (s.allow f).entries) ∧ Unique t.entries := by
      split at entries
      · rename_i marked
        refine ⟨?_, ?_, entries ▸ properly.unique.struck x⟩
        · funext path
          change (find path t.entries).toOption = (find path (s.allow f).entries).toOption
          rw [entries, find_struck_unused (properly.gone x f.vnode up marked)]
        · rw [entries]
          exact fun e he valid => (mem_map_strike he valid).1
      · exact ⟨store_names_kept entries, fun e he _ => entries ▸ he, entries ▸ properly.unique⟩
    have elsewhere : ∀ {y id : Nat}, Function.update slots x
      (leftover ((s.allow f).inodes f.vnode)) y = some (.opened id) →
        slots y = some (.opened id) :=
      fun hy => (update_opened (leftover_ne_opened _) hy).2
    refine .inr ⟨t, done, ?_, kept.2.2, ?_⟩
    · refine confined.loc.alike m m' ?_ ?_ ?_ ?_ ?_
      · exact kept.1.trans (names.trans (FileStore.Store.released_names ..).symm)
      · have left : t.store.files h = none :=
          store_files_none (.inr (by rw [closed_lookup closed handle.nonzero, lookup, if_pos rfl]))
        refine (store_files_put m m' left ?_ ?_).trans ?_
        · intro k nonzero other
          rw [closed_lookup closed nonzero, lookup, if_neg other]
        · intro k g y other found hy
          have apart : y ≠ x := by
            rintro rfl
            -- Another descriptor would still be on the inode.
            have stays : (s.dropped h).referenced f.vnode = true := by
              rw [handle.slot] at hy
              refine referenced_iff.mpr ⟨(k, g.vnode), ?_,
                (Slot.opened.inj (Option.some.inj hy)).symm⟩
              rw [Mounted.links_dropped]
              exact List.mem_filter.mpr ⟨List.mem_map.mpr
                ⟨_, mem_of_lookup found, rfl⟩, bne_iff_ne.mpr other⟩
            rw [last] at stays
            cases stays
          rw [Function.update_of_ne apart]
          exact hy
        · change _ = Function.update (s.store.released ⟨x, f.pos, f.denyWrite⟩).files h none
          rw [FileStore.Store.released_files]
      · intro y out
        exact rest y fun here => out (.inr here)
      · rintro y (one | rfl) ne known
        · exact absurd one ne
        have stays : ¬((s.allow f).inodes f.vnode).desc.removed = true := by
          intro gone
          rw [Function.update_self, leftover, if_pos gone] at known
          cases known
        have slot : Function.update slots y
          (leftover ((s.allow f).inodes f.vnode)) y = some .closed := by
          rw [Function.update_self, leftover, if_neg stays]
        have unmoved : t.disk = (s.allow f).disk := by
          have marks : ¬(((s.allow f).dropped h).inodes f.vnode).desc.removed = true := stays
          rw [if_neg marks] at frame
          rw [frame]
          rfl
        have home : inodeOn t.disk y = ((s.allow f).inodes f.vnode).data := by
          rw [unmoved]
          exact m₁.sound.ofSector_eq handle.slot
        rw [store_bytes_closed m' slot, home, unmoved]
        exact bytes.trans (congrFun (FileStore.Store.released_bytes ..) y).symm
      · rintro y (one | rfl) ne id hy
        · exact absurd one ne
        · exact absurd rfl (update_opened (leftover_ne_opened _) hy).1
    · intro y id up' marked e he valid
      have hy := elsewhere ((m'.linked.upgrade y id).mp up')
      rw [inodes] at marked
      exact properly.gone y id ((m₁.linked.upgrade y id).mpr hy) marked e
        (kept.2.1 e he valid) valid

end DiskFs

end Tacos.Fs
