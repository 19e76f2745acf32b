/- GID: Tacos/Fs/Session
   generality: I
   source: src/fs/disk.rs, src/fs.rs
   digest: Runs of all calls on files, from mounting to unmounting. -/

import Tacos.Fs.Unmount

set_option autoImplicit false
set_option relaxedAutoImplicit false

namespace Tacos.Fs

open Tacos.Lib.Exec Tacos.Lib.Run FreeMap Inode RootDir
open Store (emptyDisk blank_emptyDisk)

namespace DiskFs

/-- The calls of one thread on files and on their descriptors. -/
inductive Action where
  | call (r : Request)
  | write (h : Nat) (buf : Slice)
  | seek (h : Nat) (pos : SeekFrom)
  | setLen (h size : Nat)

/-- A call on a descriptor that exists and is not the root directory's. -/
def onFile {α : Type} (s : Sys) (h : Nat) (call : M α) : Option Sys :=
  if h ≠ 0 ∧ h ∈ s.files.map Prod.fst then after call s else none

def act (s : Sys) : Action → Option Sys
  | .call r => request s r
  | .write h buf => onFile s h (File.write h buf)
  | .seek h pos => onFile s h (File.seek h pos)
  | .setLen h size => onFile s h (File.setLen h size)

/-- A file that already has its name is created again only while it is open. -/
def Registers (s : Sys) : Action → Prop
  | .call r => Reopens s r
  | _ => True

variable {slots : Slots} {s t : Sys} {h : Nat}

theorem onFile_eq_some {α : Type} {call : M α} (m : Mounted slots s)
    (stepped : onFile s h call = some t) :
    h ≠ 0 ∧ (∃ x, slots x = some (.opened (s.file h).vnode) ∧ x ≠ 1) ∧ after call s = some t := by
  unfold onFile at stepped
  split at stepped
  · rename_i enabled
    obtain ⟨⟨h', f⟩, mine, same⟩ := List.mem_map.mp enabled.2
    obtain rfl : h' = h := same
    rw [m.file_of_mem mine]
    exact ⟨enabled.1, m.slot_of_mem mine enabled.1, stepped⟩
  · cases stepped

theorem after_bind_ok {α β : Type} {x : M α} {f : α → M β} {a : α} (done : x s = .ok a t) :
    after (x >>= f) s = after (f a) t := by
  rw [after, after, Call.bind_ok done]

/-- What a descriptor other than the first one has besides its inode is nobody's business here. -/
theorem files_carried {files : List (Nat × File)} (m : Mounted slots s)
    (links : ({ s with files := files } : Sys).links = s.links)
    (root : files.lookup 0 = s.files.lookup 0) :
    Carried slots slots s { s with files := files } := by
  have file : ({ s with files := files } : Sys).file 0 = s.file 0 := by
    rw [Sys.file, root, ← Sys.file]
  have sound : Sound slots { s with files := files } :=
    m.sound.of_files files s.nextFile s.inodeTable root
  have entries : ({ s with files := files } : Sys).entries = s.entries := by
    rw [Sys.entries, Sys.inodeOf, file]
    rfl
  refine .of_disk ⟨m.idle, sound, m.linked.of_same links rfl rfl le_rfl, ?_, ?_⟩ rfl rfl entries
  · exact entries ▸ m.readable
  · exact entries ▸ m.known

theorem setPos_carried (m : Mounted slots s) (ne : h ≠ 0) (p : Nat) :
    Carried slots slots s (s.setPos h p) :=
  files_carried m (links_setPos s h p) ((lookup_setPos s h p 0).trans (if_neg (Ne.symm ne)))

theorem cursor_confined {x : Nat} (m : Mounted slots s) (nonzero : h ≠ 0) (ne : x ≠ 1) (p : Nat) :
    Confined slots slots s (s.setPos h p) {x} ∅ := by
  have lookup : (s.setPos h p).files.lookup 0 = s.files.lookup 0 :=
    (lookup_setPos s h p 0).trans (if_neg (Ne.symm nonzero))
  refine m.files_confined (setPos_carried m nonzero p).mounted lookup ne ?_
  intro q hq _
  have kept : q ∈ (s.setPos h p).links := by
    rw [links_setPos]
    exact hq
  exact kept

theorem same_confined {x : Nat} (m : Mounted slots s) (ne : x ≠ 1) :
    Confined slots slots s s {x} ∅ := by
  have same : Mounted slots { s with files := s.files, nextFile := s.nextFile } := m
  exact m.files_confined same rfl ne fun _ hq _ => hq

theorem seek_cases (m : Mounted slots s) {pos : SeekFrom}
    (stepped : after (File.seek h pos) s = some t) :
    ∃ n, t = s.setPos h n := by
  rw [after, File.seek_eq rfl (by simp [m.idle])] at stepped
  cases target : pos.newPos (s.inodes (s.file h).vnode).data.len (s.file h).pos with
  | some n =>
    rw [target] at stepped
    cases stepped
    exact ⟨n, rfl⟩
  | none =>
    rw [target] at stepped
    cases stepped

theorem setLen_cases {x size : Nat} (m : Mounted slots s)
    (hx : slots x = some (.opened (s.file h).vnode))
    (stepped : after (File.setLen h size) s = some t) :
    t = s ∨ Resized s t (s.file h).vnode (size % 2 ^ 32) := by
  have first : File.getFile h s = .ok (s.file h) s := rfl
  have free : ∀ l, l ∉ s.held := by simp [m.idle]
  rw [File.setLen, after_bind_ok first] at stepped
  obtain ⟨u, done, change⟩ | ⟨failed, -⟩ | ⟨e, stops, -⟩ :=
    resize_ends (m.sound.settled hx) (free _) (free _) (free _) size
  · rw [after_ok done, Option.some.injEq] at stepped
    exact .inr (stepped ▸ change)
  · rw [after_err failed, Option.some.injEq] at stepped
    exact .inl stepped.symm
  · rw [after_halt stops] at stepped
    cases stepped

/-- A write that comes back has done nothing, or has changed the length, then some bytes that are
inside the new length, and maybe the cursor. -/
theorem write_cases {x : Nat} {buf : Slice} (m : Mounted slots s)
    (hx : slots x = some (.opened (s.file h).vnode))
    (stepped : after (File.write h buf) s = some t) :
    t = s ∨ ∃ u bytes, Resized s u (s.file h).vnode
      (writeLen (s.inodes (s.file h).vnode) buf (s.file h).pos) ∧
      writeLen (s.inodes (s.file h).vnode) buf (s.file h).pos < 2 ^ 32 ∧
        bytes.length ≤ buf.bytes.length ∧
      (bytes ≠ [] → (s.file h).pos + bytes.length ≤
        writeLen (s.inodes (s.file h).vnode) buf (s.file h).pos) ∧
        (t = u.wrote (u.inodes (s.file h).vnode).data.start (s.file h).pos bytes ∨
          ∃ p, t = (u.wrote (u.inodes (s.file h).vnode).data.start (s.file h).pos
            bytes).setPos h p) := by
  obtain ⟨e, failed⟩ | ⟨e, stops⟩ | ⟨u, n, bytes, change, rfl, small, short, fits, ends⟩ :=
    Store.writeAt_changes (m.sound.settled hx) m.idle buf (s.file h).pos
  · rw [after_err (File.write_err rfl failed), Option.some.injEq] at stepped
    exact .inl stepped.symm
  · rw [after_halt (File.write_halt rfl stops)] at stepped
    cases stepped
  refine .inr ⟨u, bytes, change, small, short, fits, ?_⟩
  obtain ⟨cnt, done⟩ | ⟨e, failed⟩ := ends
  · rw [after_ok (File.write_ok rfl done), Option.some.injEq] at stepped
    exact .inr ⟨_, stepped.symm⟩
  · rw [after_err (File.write_err rfl failed), Option.some.injEq] at stepped
    exact .inl stepped.symm

theorem write_confined {x : Nat} {buf : Slice} (m : Mounted slots s) (nonzero : h ≠ 0)
    (hx : slots x = some (.opened (s.file h).vnode)) (ne : x ≠ 1)
    (stepped : after (File.write h buf) s = some t) : Confined slots slots s t {x} ∅ := by
  obtain rfl | ⟨u, bytes, change, small, -, fits, final⟩ := write_cases m hx stepped
  · exact same_confined m ne
  have resized := m.resized_confined hx ne small change
  have written : Confined slots slots s (u.wrote (u.inodes (s.file h).vnode).data.start
    (s.file h).pos bytes) {x} ∅ := by
    by_cases none : bytes = []
    · rw [none, Sys.wrote_nil]
      exact resized
    · have inside : (s.file h).pos + bytes.length ≤ (u.inodes (s.file h).vnode).total := by
        rw [Inode.total, change.len]
        exact le_trans (fits none) (Nat.le_add_right _ _)
      exact resized.trans (resized.mounted.wrote_confined hx ne inside)
  obtain rfl | ⟨p, rfl⟩ := final
  · exact written
  · exact written.trans (cursor_confined written.mounted nonzero ne p)

def Action.handle? : Action → Option Nat
  | .call r => r.handle?
  | .write h _ => some h
  | .seek h _ => some h
  | .setLen h _ => some h

def Action.drops : Action → Set Nat
  | .call r => r.drops
  | _ => ∅

/-- Each call that comes back concerns the root directory and the inodes of its descriptor or
path. -/
theorem act_confined {a : Action} (m : Mounted slots s) (fine : Registers s a)
    (stepped : act s a = some t) :
    ∃ slots' X, Confined slots slots' s t X a.drops ∧ ∀ y ∈ X, Concerned slots s a.handle? y := by
  have mine : ∀ {h x}, slots x = some (.opened (s.file h).vnode) →
    ∀ y ∈ ({x} : Set Nat), Concerned slots s (some h) y := by
    rintro h x hx y rfl
    exact .inr hx
  cases a with
  | call r => exact request_confined m fine stepped
  | write h buf =>
    obtain ⟨nonzero, ⟨x, hx, ne⟩, stepped⟩ := onFile_eq_some m stepped
    exact ⟨slots, {x}, write_confined m nonzero hx ne stepped, mine hx⟩
  | seek h pos =>
    obtain ⟨nonzero, ⟨x, hx, ne⟩, stepped⟩ := onFile_eq_some m stepped
    obtain ⟨n, rfl⟩ := seek_cases m stepped
    exact ⟨slots, {x}, cursor_confined m nonzero ne n, mine hx⟩
  | setLen h size =>
    obtain ⟨-, ⟨x, hx, ne⟩, stepped⟩ := onFile_eq_some m stepped
    obtain rfl | change := setLen_cases m hx stepped
    · exact ⟨slots, {x}, same_confined m ne, mine hx⟩
    · exact ⟨slots, {x}, m.resized_confined hx ne (Nat.mod_lt _ (by norm_num)) change, mine hx⟩

/-- Each call that comes back leaves a file system in order with the free map's file as it was. -/
theorem act_carried {a : Action} (m : Mounted slots s) (fine : Registers s a)
    (stepped : act s a = some t) :
    ∃ slots', Carried slots slots' s t := by
  obtain ⟨slots', X, confined, concerned⟩ := act_confined m fine stepped
  exact ⟨slots', confined.carried m concerned⟩

theorem run_home {size : Nat} {as : List Action} (home : Home size slots s)
    (meets : Guarded act Registers s as)
    (ran : run act s as = some t) : ∃ slots', Home size slots' t := by
  refine guarded_run_invariant (I := fun s => ∃ slots, Home size slots s) ?_ ⟨slots, home⟩ meets ran
  rintro s a u ⟨slots, home⟩ fine stepped
  obtain ⟨slots', carried⟩ := act_carried home.mounted fine stepped
  exact ⟨slots', home.carried carried⟩

/-- A disk that can be mounted: nothing is on it, so that mounting formats it, or a file system. -/
def Mountable (size : Nat) (s : Sys) : Prop :=
  Blank s ∨ s.held = [] ∧ ∃ known, Archive known size s.disk

theorem formatted_home {size a b : Nat} {n m : FreeMap}
    (layout : Layout size a b n m) (idle : s.held = []) :
    Home size (formatted (s.formatted size a b m)) (s.formatted size a b m) := by
  refine ⟨formatted_mounted layout idle, ⟨if_pos rfl, ?_⟩, ?_, ?_⟩
  · intro e he valid
    rw [entries_formatted e he] at valid
    cases valid
  · exact layout.rootTaken.size.trans layout.mapTaken.size
  · rw [inodeOn, formatted_ofSector layout]
    rfl

theorem loaded_home {known : Nat → Bool} {size : Nat} (archive : Archive known size s.disk)
    (idle : s.held = []) :
    Home size (archived known (s.nextInode + 1)) (s.loaded size) := by
  refine ⟨loaded_mounted archive idle, ⟨archived_closed (by decide) archive.map, ?_⟩, rfl,
    archive.mapLen⟩
  rw [loaded_entries]
  exact fun e he valid => (archive.named e he valid).2.1

theorem mount_home {capacity : Nat} (mountable : Mountable (capacity % 2 ^ 32) s)
    (mounted : mount capacity s = .ok () t) : ∃ slots, Home (capacity % 2 ^ 32) slots t := by
  obtain blank | ⟨idle, known, archive⟩ := mountable
  · obtain ⟨a, b, n, layout, frame⟩ := mount_blank blank mounted
    have home := formatted_home (s := s) layout blank.idle
    rw [← frame] at home
    exact ⟨_, home⟩
  · have loads := mount_loads capacity idle (archive.magic _ archive.map) archive.mapLen
      (archive.magic _ archive.root)
    have same := loads.symm.trans mounted
    cases same
    exact ⟨_, loaded_home archive idle⟩

/-- Unmounting succeeds, and whoever mounts the disk again finds the same files. -/
def RoundTrips (capacity : Nat) (t : Sys) : Prop := ∃ u, unmount t = .ok () u ∧
  ∀ b : Sys, b.held = [] → b.disk = u.disk → ∃ t', mount capacity b = .ok () t' ∧ SameFiles t t'

/-- When all descriptors but the root directory's are gone, unmounting and mounting again changes
nothing, if files that are not open were not created again. -/
theorem unmount_round_trips {capacity : Nat} {b : Sys} {as : List Action}
    (mountable : Mountable (capacity % 2 ^ 32) b)
    (mounted : mount capacity b = .ok () s) (meets : Guarded act Registers s as)
    (ran : run act s as = some t)
    (only : ∀ p ∈ t.files, p.1 = 0) : RoundTrips capacity t := by
  obtain ⟨slots, home⟩ := mount_home mountable mounted
  obtain ⟨slots', home'⟩ := run_home home meets ran
  exact ⟨t.flushed, home'.unmount_eq, fun b idle disk => home'.remount only rfl idle disk⟩

instance (s : Sys) (a : Action) : Decidable (Registers s a) :=
  match a with
  | .call r => inferInstanceAs (Decidable (Reopens s r))
  | .write _ _ => .isTrue trivial
  | .seek _ _ => .isTrue trivial
  | .setLen _ _ => .isTrue trivial

/-- Whether a run on the empty disk ends in a state with the property. -/
def reaches (as : List Action) (p : Sys → Sys → Bool) : Bool :=
  match mount 64 emptyDisk with
  | .ok () s => (run act s as).any (p s)
  | _ => false

theorem of_reaches {as : List Action} {p : Sys → Sys → Bool} (computed : reaches as p = true) :
    ∃ s t, mount 64 emptyDisk = .ok () s ∧ run act s as = some t ∧ p s t = true := by
  rw [reaches] at computed
  split at computed
  · rename_i s mounted
    obtain ⟨t, ran, here⟩ := Option.any_eq_true _ _ |>.mp computed
    exact ⟨s, t, mounted, ran, here⟩
  · cases computed

def visits : List Action :=
  [.call (.create [97]), .write 1 (File.vec [1, 2, 3]), .setLen 1 2, .call (.drop 1)]

theorem files_found_again : ∃ s t, mount 64 emptyDisk = .ok () s ∧ Guarded act Registers s visits ∧
    run act s visits = some t ∧ RoundTrips 64 t := by
  have computed : reaches visits (fun s t =>
      decide (Guarded act Registers s visits) && decide
        (∀ p ∈ t.files, p.1 = 0)) = true := by decide +kernel
  obtain ⟨s, t, mounted, ran, both⟩ := of_reaches computed
  rw [Bool.and_eq_true, decide_eq_true_iff, decide_eq_true_iff] at both
  exact ⟨s, t, mounted, both.1, ran, unmount_round_trips
    (.inl blank_emptyDisk) mounted both.1 ran both.2⟩

/-- The inode that a forged sector holds: its data begins with the first sector, the free map's
inode. -/
def forged : List UInt8 := [0, 0, 0, 0, 12, 0, 0, 0, 0x44, 0x4f, 0x4e, 0x49]

/-- A file that is created again is written through an inode that does not see it cut, where another
file now has its inode. The other file is opened, and what it takes for its data is written over. -/
def forges : List Action :=
  [.call (.create [97]), .call (.drop 1), .call (.create [97]), .setLen 2 512,
    .call (.openFile [97]), .setLen 3 0,
    .call (.drop 3), .call (.create [99]), .call (.drop 4), .write 2 (File.vec forged),
    .call (.openFile [99]),
    .write 5 (File.vec (List.replicate 12 0)), .call (.drop 5), .call (.drop 2)]

/-- Whether a sector is no longer marked once the disk was unmounted and mounted again. -/
def forgets (t : Sys) (y : Nat) : Bool :=
  match unmount t with
  | .ok () u => match mount 64 u with
    | .ok () t' => u.held.isEmpty && t.freeMap.bit y && !t'.freeMap.bit y
    | _ => false
  | _ => false

theorem not_roundTrips {y : Nat} (computed : forgets t y = true) : ¬RoundTrips 64 t := by
  rintro ⟨u, unmounted, again⟩
  rw [forgets, unmounted] at computed
  simp only at computed
  split at computed
  · rename_i t' mounted
    rw [Bool.and_eq_true, Bool.and_eq_true, List.isEmpty_iff] at computed
    obtain ⟨⟨idle, before⟩, after⟩ := computed
    obtain ⟨v, mounted', same⟩ := again u idle rfl
    rw [mounted] at mounted'
    cases mounted'
    rw [same.freeMap, before] at after
    cases after
  · cases computed

/-- The free map is lost, as its inode was written over through a file whose inode was forged. -/
theorem free_map_forgotten : ∃ s t, mount 64 emptyDisk = .ok () s ∧ run act s forges = some t ∧
    (∀ p ∈ t.files, p.1 = 0) ∧ ¬RoundTrips 64 t := by
  have computed : reaches forges (fun _ t => decide (∀ p ∈ t.files, p.1 = 0) &&
    forgets t 3) = true := by
    decide +kernel
  obtain ⟨s, t, mounted, ran, both⟩ := of_reaches computed
  rw [Bool.and_eq_true, decide_eq_true_iff] at both
  exact ⟨s, t, mounted, ran, both.1, not_roundTrips both.2⟩

end DiskFs

end Tacos.Fs
