/- GID: Tacos/Fs/Handles
   generality: I
   source: src/fs/disk.rs, src/fs/disk/inode.rs, src/fs.rs
   digest: Runs of calls of one thread, and when all handles of a file share one inode. -/

import Tacos.Fs.Confined

set_option autoImplicit false
set_option relaxedAutoImplicit false

namespace Tacos.Fs

open Tacos.Lib.Exec Tacos.Lib.Ownership Tacos.Lib.Run FreeMap Inode RootDir
open Store (emptyDisk blank_emptyDisk)

section Fresh

variable {size a b : Nat} {n m : FreeMap} {s t : Sys}

theorem entries_formatted : ∀ e ∈ (s.formatted size a b m).entries, e.isValid = false := by
  intro e he
  obtain ⟨k, hk, rfl⟩ := List.mem_map.mp he
  rw [List.mem_range] at hk
  have inode : (s.formatted size a b m).inodeOf 0 = ⟨.new rootDirSector 0, rootInode b⟩ :=
    Function.update_self ..
  rw [inode] at hk ⊢
  have len : k < 4096 / 32 := hk
  have zero : (entryAt (s.formatted size a b m).disk b k).name 0 = 0 := by
    change (bytesFrom (s.formatted size a b m).disk b (32 * k) 32).getD 0 0 = 0
    rw [List.getD_eq_getElem _ _ (by rw [length_bytesFrom]; decide)]
    simp only [bytesFrom, List.getElem_map, List.getElem_range]
    have inside : InRun b rootDirSectorLen (b + (32 * k + 0) / 512) := by
      refine ⟨Nat.le_add_right _ _, Nat.add_lt_add_left ?_ _⟩
      change (32 * k + 0) / 512 < 8
      omega
    change createdDisk _ _ _ _ _ (b + (32 * k + 0) / 512) _ = 0
    rw [createdDisk, if_pos inside]
  rw [DirEntry.isValid]
  change ((entryAt (s.formatted size a b m).disk b k).name 0 != _ &&
    (entryAt (s.formatted size a b m).disk b k).name 0 != 0) = false
  rw [zero]
  rfl

theorem formatted_mounted (layout : Layout size a b n m) (idle : s.held = []) :
    Mounted (formatted (s.formatted size a b m)) (s.formatted size a b m) := by
  have links : (s.formatted size a b m).links = [(0, s.nextInode + 1)] := rfl
  refine ⟨idle, formatted_sound layout, .alone links rfl rfl (Nat.lt_succ_self _) ?_, ?_, ?_⟩
  · intro x id
    rw [formatted_slot]
    by_cases one : x = rootDirSector
    · have other : x ≠ freeMapSector := by
        rw [one]
        decide
      rw [if_neg other, if_pos one, Option.some.injEq, Slot.opened.injEq]
      simp only [one, true_and]
      exact eq_comm
    · rw [if_neg one]
      split <;> simp [one]
  · intro e he valid
    rw [entries_formatted e he] at valid
    cases valid
  · intro e he valid
    rw [entries_formatted e he] at valid
    cases valid

theorem mount_mounted {capacity : Nat} (blank : Blank s)
    (got : DiskFs.mount capacity s = .ok () t) :
    Mounted (formatted t) t := by
  obtain ⟨a, b, n, layout, frame⟩ := mount_blank blank got
  have mounted := formatted_mounted (s := s) layout blank.idle
  rwa [← frame] at mounted

end Fresh

namespace DiskFs

/-- The calls of one thread. -/
inductive Request where
  | create (path : Path)
  | openFile (path : Path)
  | remove (path : Path)
  | drop (h : Nat)

/-- The state after a call, whether it succeeds or fails; none if the machine stops. -/
def after {α : Type} (call : M α) (s : Sys) : Option Sys :=
  match call s with
  | .ok _ t => some t
  | .err _ t => some t
  | .halt _ => none

/-- One call. Only a descriptor that exists can be dropped, and the root directory's is kept. -/
def request (s : Sys) : Request → Option Sys
  | .create path => after (create path) s
  | .openFile path => after (openFile path) s
  | .remove path => after (remove path) s
  | .drop h => if h ≠ 0 ∧ h ∈ s.files.map Prod.fst then after (dropFile h) s else none

/-- A file that already has its name is created again only while it is open. -/
def Reopens (s : Sys) : Request → Prop
  | .create path => ∀ x, find path s.entries = .ok x → (s.upgrade x).isSome
  | _ => True

variable {slots : Slots} {s t : Sys}

theorem after_ok {α : Type} {call : M α} {a : α} (done : call s = .ok a t) :
    after call s = some t := by
  rw [after, done]

theorem after_err {α : Type} {call : M α} {e : OsError} (failed : call s = .err e t) :
    after call s = some t := by
  rw [after, failed]

theorem after_halt {α : Type} {call : M α} {e : Halt} (stops : call s = .halt e) :
    after call s = none := by
  rw [after, stops]

def Request.handle? : Request → Option Nat
  | .drop h => some h
  | _ => none

def Request.drops : Request → Set Nat
  | .drop h => {h}
  | _ => ∅

theorem concerned_of_find {path : Path} {x : Nat} (found : find path s.entries = .ok x) :
    Concerned slots s none x := by
  obtain ⟨e, he, names, same⟩ := find_ok found
  rw [DirEntry.names, Bool.and_eq_true] at names
  exact .inr (.inr ⟨e, he, names.1, same⟩)

/-- Each call that comes back concerns the root directory and the inodes of its descriptor or path,
if files that are not open are not created again. -/
theorem request_confined (m : Mounted slots s) {r : Request} (fine : Reopens s r)
    (stepped : request s r = some t) :
    ∃ slots' X, Confined slots slots' s t X r.drops ∧ ∀ y ∈ X, Concerned slots s r.handle? y := by
  have root : Concerned slots s none 1 := .inl rfl
  have alone : ∀ y, Concerned slots s none y → ∀ z ∈ ({y} : Set Nat), Concerned slots s none z := by
    rintro y concerned z rfl
    exact concerned
  cases r with
  | create path =>
    change after (create path) s = some t at stepped
    cases lookup : find path s.entries with
    | ok x =>
      obtain ⟨id, up⟩ := Option.isSome_iff_exists.mp (fine x lookup)
      have hx := (m.linked.upgrade x id).mp up
      obtain ⟨u, done, -, confined⟩ := m.create_opened_confined lookup hx
      rw [after_ok done, Option.some.injEq] at stepped
      exact ⟨slots, {x}, stepped ▸ confined, alone x (concerned_of_find lookup)⟩
    | error e =>
      obtain stops | ⟨e', u, slots', failed, carried, links, next, X, loc, new⟩ |
        ⟨p, x, u, done, made, mounted, loc⟩ :=
        m.create_new_cases lookup
      · rw [after_halt stops] at stepped
        cases stepped
      · rw [after_err failed, Option.some.injEq] at stepped
        subst stepped
        exact ⟨slots', X, m.failed_confined carried.mounted carried.size links next loc new,
          fun y hy => .inr (.inl (new y hy).1)⟩
      · rw [after_ok done, Option.some.injEq] at stepped
        subst stepped
        have moved := m.moves_confined p {1, x}
        refine ⟨_, {1, x}, moved.trans (moved.mounted.made_confined made mounted loc), ?_⟩
        rintro y (rfl | rfl)
        · exact root
        · exact .inr (.inl (moved.mounted.sound.slot_none made.free))
  | openFile path =>
    change after (openFile path) s = some t at stepped
    cases lookup : find path s.entries with
    | ok x =>
      obtain ⟨p, done⟩ := m.openFile_found lookup
      rw [after_ok done, Option.some.injEq] at stepped
      have moved := m.moves_confined p {x}
      obtain ⟨ne, ⟨id, hx⟩ | hx⟩ := m.slot_of_find lookup
      · rw [hx] at stepped
        subst stepped
        exact ⟨slots, {x}, moved.trans (moved.mounted.newFile_confined hx ne),
          alone x (concerned_of_find lookup)⟩
      · rw [hx] at stepped
        subst stepped
        exact ⟨_, {x}, moved.trans (moved.mounted.reopen_confined ne hx),
          alone x (concerned_of_find lookup)⟩
    | error e =>
      obtain ⟨p, failed⟩ := m.openFile_missing lookup
      rw [after_err failed, Option.some.injEq] at stepped
      exact ⟨slots, ∅, stepped ▸ m.moves_confined p ∅, fun y none => none.elim⟩
  | remove path =>
    change after (remove path) s = some t at stepped
    cases lookup : find path s.entries with
    | ok x =>
      obtain ⟨ne, ⟨id, hx⟩ | hx⟩ := m.slot_of_find lookup
      · obtain ⟨p, done, -⟩ := m.remove_opened lookup hx
        rw [after_ok done, Option.some.injEq] at stepped
        subst stepped
        have struck := m.strike_confined x p
        have marked := struck.mounted.describe_confined hx ne
          (d := { (s.inodes id).desc with removed := true }) rfl rfl
        refine ⟨slots, {1, x}, struck.trans (marked.mono (Set.subset_insert 1 {x})), ?_⟩
        rintro y (rfl | rfl)
        · exact root
        · exact concerned_of_find lookup
      · rw [after_halt (m.remove_closed lookup hx)] at stepped
        cases stepped
    | error e =>
      obtain ⟨p, failed⟩ := m.remove_missing lookup
      rw [after_err failed, Option.some.injEq] at stepped
      exact ⟨slots, ∅, stepped ▸ m.moves_confined p ∅, fun y none => none.elim⟩
  | drop h =>
    rw [request] at stepped
    split at stepped
    · rename_i enabled
      obtain ⟨⟨h', f⟩, mine, same⟩ := List.mem_map.mp enabled.2
      obtain rfl : h' = h := same
      obtain ⟨x, hx, -⟩ := m.slot_of_mem mine enabled.1
      obtain ⟨e, stops⟩ | ⟨u, slots', done, confined⟩ := m.dropFile_confined mine enabled.1 hx
      · rw [after_halt stops] at stepped
        cases stepped
      · rw [after_ok done, Option.some.injEq] at stepped
        subst stepped
        refine ⟨slots', {1, x}, confined, ?_⟩
        rintro y (rfl | rfl)
        · exact .inl rfl
        · refine .inr ?_
          change slots y = some (.opened (s.file h').vnode)
          rw [m.file_of_mem mine]
          exact hx
    · cases stepped

/-- Each call that comes back leaves a file system in order, if files that are not open are not
created again. -/
theorem request_carried (m : Mounted slots s) {r : Request} (fine : Reopens s r)
    (stepped : request s r = some t) :
    ∃ slots', Carried slots slots' s t := by
  obtain ⟨slots', X, confined, concerned⟩ := request_confined m fine stepped
  exact ⟨slots', confined.carried m concerned⟩

theorem request_mounted (m : Mounted slots s) {r : Request} (fine : Reopens s r)
    (stepped : request s r = some t) :
    ∃ slots', Mounted slots' t := by
  obtain ⟨slots', carried⟩ := request_carried m fine stepped
  exact ⟨slots', carried.mounted⟩

theorem run_mounted {rs : List Request} (m : Mounted slots s) (meets : Guarded request Reopens s rs)
    (ran : run request s rs = some t) : ∃ slots', Mounted slots' t := by
  refine guarded_run_invariant (I := fun s => ∃ slots, Mounted slots s) ?_ ⟨slots, m⟩ meets ran
  rintro s r u ⟨slots, m⟩ fine stepped
  exact request_mounted m fine stepped

/-- Two handles of one inode number share the inode, in every state that is reached without
creating again a file that has its name but is not open. -/
theorem handles_share_inode {rs : List Request} (m : Mounted slots s)
    (meets : Guarded request Reopens s rs)
    (ran : run request s rs = some t) :
    ∀ p ∈ t.files, ∀ q ∈ t.files,
      (t.inodes p.2.vnode).desc.sector = (t.inodes q.2.vnode).desc.sector →
        p.2.vnode = q.2.vnode := by
  obtain ⟨slots', m'⟩ := run_mounted m meets ran
  intro p hp q hq same
  obtain ⟨x, hx, -⟩ := m'.linked.live (p.1, p.2.vnode) (List.mem_map.mpr ⟨p, hp, rfl⟩)
  obtain ⟨y, hy, -⟩ := m'.linked.live (q.1, q.2.vnode) (List.mem_map.mpr ⟨q, hq, rfl⟩)
  rw [m'.sound.sector_eq hx, m'.sound.sector_eq hy] at same
  rw [same, hy] at hx
  exact (Slot.opened.inj (Option.some.inj hx)).symm

instance (s : Sys) (r : Request) : Decidable (Reopens s r) :=
  match r with
  | .create path =>
    match h : find path s.entries with
    | .ok x => decidable_of_iff (s.upgrade x).isSome
        ⟨fun up y hy => by rw [h] at hy; cases hy; exact up, fun all => all x h⟩
    | .error _ => .isTrue (by intro y hy; rw [h] at hy; cases hy)
  | .openFile _ => .isTrue trivial
  | .remove _ => .isTrue trivial
  | .drop _ => .isTrue trivial

/-- Whether two handles of the state are on one sector and not on one inode. -/
def split (s : Sys) : Bool := s.files.any fun p => s.files.any fun q =>
  (s.inodes p.2.vnode).desc.sector == (s.inodes q.2.vnode).desc.sector && p.2.vnode != q.2.vnode

/-- Whether a run of the empty disk ends in a state with the property. -/
def ends (rs : List Request) (p : Sys → Bool) : Bool :=
  match mount 64 emptyDisk with
  | .ok () s => match run request s rs with
    | some t => p t
    | none => false
  | _ => false

theorem of_ends {rs : List Request} {p : Sys → Bool} (computed : ends rs p = true) :
    ∃ s t, mount 64 emptyDisk = .ok () s ∧ run request s rs = some t ∧ p t = true := by
  rw [ends] at computed
  split at computed
  · rename_i s mounted
    split at computed
    · rename_i t ran
      exact ⟨s, t, mounted, ran, computed⟩
    · cases computed
  · cases computed

def recreates : List Request := [.create [97], .drop 1, .create [97], .openFile [97]]

/-- The file that is created again has an inode that the table does not know; the open makes a
second one. -/
theorem recreated_file_has_two_inodes :
    ∃ s t, mount 64 emptyDisk = .ok () s ∧ run request s recreates = some t ∧
      ¬∀ p ∈ t.files, ∀ q ∈ t.files,
        (t.inodes p.2.vnode).desc.sector = (t.inodes q.2.vnode).desc.sector →
          p.2.vnode = q.2.vnode := by
  have computed : ends recreates split = true := by decide +kernel
  obtain ⟨s, t, mounted, ran, two⟩ := of_ends computed
  refine ⟨s, t, mounted, ran, ?_⟩
  intro all
  obtain ⟨p, hp, hq⟩ := List.any_eq_true.mp two
  obtain ⟨q, hq, both⟩ := List.any_eq_true.mp hq
  rw [Bool.and_eq_true, beq_iff_eq, bne_iff_ne] at both
  exact both.2 (all p hp q hq both.1)

/-- Create a file, open it, create it again while it is open, remove it and close it twice. -/
def shares : List Request :=
  [.create [97], .openFile [97], .create [97], .create [98], .remove [97], .drop 1, .drop 2]

theorem shared_handles : ∃ s t, mount 64 emptyDisk = .ok () s ∧ Guarded request Reopens s shares ∧
    run request s shares = some t ∧
      ∀ p ∈ t.files, ∀ q ∈ t.files,
        (t.inodes p.2.vnode).desc.sector = (t.inodes q.2.vnode).desc.sector →
          p.2.vnode = q.2.vnode := by
  have computed : (mount 64 emptyDisk).returns (fun _ s =>
      decide (Guarded request Reopens s shares) && (run request s shares).isSome) =
        true := by decide +kernel
  obtain ⟨_, s, mounted, facts⟩ := Outcome.returns_iff.mp computed
  rw [Bool.and_eq_true, decide_eq_true_iff, Option.isSome_iff_exists] at facts
  obtain ⟨meets, t, ran⟩ := facts
  exact ⟨s, t, mounted, meets, ran, handles_share_inode
    (mount_mounted blank_emptyDisk mounted) meets ran⟩

end DiskFs

end Tacos.Fs
