/- GID: Tacos/Fs/Removal
   generality: I
   source: src/fs/disk.rs, src/fs/disk/inode.rs, src/fs/disk/dir.rs
   digest: Files that are removed while they are open, and what happens to them and to others. -/

import Tacos.Fs.Deniers
import Tacos.Fs.Directory

set_option autoImplicit false
set_option relaxedAutoImplicit false

namespace Tacos.Fs

open Tacos.Lib.Exec Tacos.Lib.Run FreeMap Inode RootDir
open Store (emptyDisk blank_emptyDisk)

variable {slots slots' : Slots} {s t u : Sys} {x y id h : Nat} {path : Path} {X gone : Set Nat}

/-- The inode with number `y` is where it was, with its sectors, their bytes, its data and its
entries. -/
structure Untouched (slots slots' : Slots) (s t : Sys) (y : Nat) : Prop where
  slot : slots' y = slots y
  owned : owned slots' t y = owned slots s y
  disk : ∀ z ∈ Fs.owned slots s y, t.disk z = s.disk z
  inode : ∀ id, slots y = some (.opened id) → t.inodes id = s.inodes id
  place : ∀ (k : Nat) (e : DirEntry), s.entries[k]? = some e → e.isValid = true →
    e.inum = y → t.entries[k]? = some e

theorem Confined.untouched (confined : Confined slots slots' s t X gone) (out : y ∉ X) :
    Untouched slots slots' s t y :=
  ⟨confined.loc.slot y out, confined.loc.owned y out, confined.loc.disk y out,
    confined.loc.inode y out,
    fun k e here valid same => confined.place k e here valid (same ▸ out)⟩

namespace DiskFs

/-- The calls of one thread on files, with all that is done through a descriptor. -/
inductive Use where
  | act (a : Action)
  | read (h : Nat) (buf : Slice)
  | clone (h : Nat)
  | denyWrite (h : Nat)

def use (s : Sys) : Use → Option Sys
  | .act a => act s a
  | .read h buf => onFile s h (File.read h buf)
  | .clone h => onFile s h (cloneFile h)
  | .denyWrite h => onFile s h (denyWrite h)

namespace Use

def handle? : Use → Option Nat
  | .act a => a.handle?
  | .read h _ => some h
  | .clone h => some h
  | .denyWrite h => some h

def drops : Use → Set Nat
  | .act a => a.drops
  | _ => ∅

/-- The call is made through a descriptor that is on the inode. -/
def Through (s : Sys) (id : Nat) (a : Use) : Prop := ∃ h, a.handle? = some h ∧ (s.file h).vnode = id

def asks (s : Sys) (id : Nat) : Use → Nat
  | .act (.setLen _ size) => size % 2 ^ 32
  | .act (.write h buf) => writeLen (s.inodes id) buf (s.file h).pos
  | _ => (s.inodes id).data.len

def Covers (s : Sys) : Use → Nat → Prop
  | .act (.write h buf), k => (s.file h).pos ≤ k ∧ k < (s.file h).pos + buf.bytes.length
  | _, _ => False

end Use

/-- A file that already has its name is created again only while it is open. -/
def Registered (s : Sys) : Use → Prop
  | .act a => Registers s a
  | _ => True

theorem read_cases {buf : Slice} (m : Mounted slots s)
    (stepped : after (File.read h buf) s = some t) :
    t = s ∨ ∃ p, t = s.setPos h p := by
  have free : ∀ l, l ∉ s.held := by simp [m.idle]
  obtain got | ⟨failed, -⟩ := readAt_cases (free (.inode (s.file h).vnode))
    (free _) buf (s.file h).pos
  · rw [after_ok (File.read_ok rfl got), Option.some.injEq] at stepped
    exact .inr ⟨_, stepped.symm⟩
  · rw [after_err (File.read_err rfl failed), Option.some.injEq] at stepped
    exact .inl stepped.symm

theorem cloneFile_confined (m : Mounted slots s)
    (hx : slots x = some (.opened (s.file h).vnode)) (ne : x ≠ 1)
    (stepped : after (cloneFile h) s = some t) : Confined slots slots s t {x} ∅ := by
  obtain rfl := Option.some.inj stepped
  refine m.files_confined (added_mounted m hx ne rfl) (m.lookup_cons _) ne ?_
  exact fun q hq _ => List.mem_cons_of_mem _ hq

theorem denyWrite_state (m : Mounted slots s) (stepped : after (denyWrite h) s = some t) :
    t = (s.flagged h).denied (s.file h).vnode := by
  have first : File.getFile h s = .ok (s.file h) s := rfl
  have flag : (Call.modify fun s => s.flagged h : M Unit) s = .ok () (s.flagged h) := rfl
  rw [denyWrite, after_bind_ok first, after_bind_ok flag] at stepped
  obtain stops | counted := denyWrite_cases (s := s.flagged h) m.idle (s.file h).vnode
  · rw [after_halt stops] at stepped
    cases stepped
  · rw [after_ok counted, Option.some.injEq] at stepped
    exact stepped.symm

theorem denyWrite_confined (m : Mounted slots s) (nonzero : h ≠ 0)
    (hx : slots x = some (.opened (s.file h).vnode))
    (ne : x ≠ 1) (stepped : after (denyWrite h) s = some t) : Confined slots slots s t {x} ∅ := by
  have flagged : Confined slots slots s (s.flagged h) {x} ∅ := by
    refine m.files_confined (files_carried m (links_flagged s h) (lookup_flagged s nonzero)).mounted
      (lookup_flagged s nonzero) ne fun q hq _ => ?_
    have kept : q ∈ (s.flagged h).links := by
      rw [links_flagged]
      exact hq
    exact kept
  rw [denyWrite_state m stepped]
  exact flagged.trans (flagged.mounted.describe_confined hx ne
    (d := { (s.inodes (s.file h).vnode).desc with
      denyWrite := (s.inodes (s.file h).vnode).desc.denyWrite + 1 }) rfl rfl)

/-- Each call that comes back concerns the root directory and the inodes of its descriptor or
path. -/
theorem use_confined {a : Use} (m : Mounted slots s) (fine : Registered s a)
    (stepped : use s a = some t) :
    ∃ slots' X, Confined slots slots' s t X a.drops ∧ ∀ y ∈ X, Concerned slots s a.handle? y := by
  have mine : ∀ {h x}, slots x = some (.opened (s.file h).vnode) →
    ∀ y ∈ ({x} : Set Nat), Concerned slots s (some h) y := by
    rintro h x hx y rfl
    exact .inr hx
  cases a with
  | act a => exact act_confined m fine stepped
  | read h buf =>
    obtain ⟨nonzero, ⟨x, hx, ne⟩, stepped⟩ := onFile_eq_some m stepped
    obtain rfl | ⟨p, rfl⟩ := read_cases m stepped
    · exact ⟨slots, {x}, same_confined m ne, mine hx⟩
    · exact ⟨slots, {x}, cursor_confined m nonzero ne p, mine hx⟩
  | clone h =>
    obtain ⟨-, ⟨x, hx, ne⟩, stepped⟩ := onFile_eq_some m stepped
    exact ⟨slots, {x}, cloneFile_confined m hx ne stepped, mine hx⟩
  | denyWrite h =>
    obtain ⟨nonzero, ⟨x, hx, ne⟩, stepped⟩ := onFile_eq_some m stepped
    exact ⟨slots, {x}, denyWrite_confined m nonzero hx ne stepped, mine hx⟩

theorem dropFile_same {f : File} (m : Mounted slots s) (mine : (h, f) ∈ s.files) (nonzero : h ≠ 0)
    (hx : slots x = some (.opened f.vnode)) (ne : x ≠ 1) (stepped : after (dropFile h) s = some t) :
    SameFile s t f.vnode := by
  have allowed : SameFile s ((s.allow f).dropped h) f.vnode :=
    .of_same (Mounted.allow_inode s f).1 (Mounted.allow_fields s f).2.2.2.2.2.1
  obtain ⟨e, stops, -⟩ | ⟨-, done, -⟩ | ⟨-, u, done, closed, -⟩ := m.dropFile_cases mine nonzero hx
  · rw [after_halt stops] at stepped
    cases stepped
  · rw [after_ok done, Option.some.injEq] at stepped
    exact stepped ▸ allowed
  · rw [after_ok done, Option.some.injEq] at stepped
    subst stepped
    have sound : Sound slots ((s.allow f).dropped h) :=
      (m.allow_carried hx ne).mounted.sound.of_files _ _ _ (Mounted.lookup_dropped _ nonzero)
    exact allowed.trans (closed_sameFile sound closed hx ne)

/-- The length is what it was or what the call asks for, and each byte that it is not asked to
replace is kept. -/
def Answers (s t : Sys) (id : Nat) (a : Use) : Prop :=
  ((t.inodes id).data.len = (s.inodes id).data.len ∨ (t.inodes id).data.len = a.asks s id) ∧
    ∀ k < (s.inodes id).data.len, ¬a.Covers s k → t.byte id k = s.byte id k

theorem answers_of_same {a : Use} (same : SameFile s t id) : Answers s t id a :=
  ⟨.inl same.1, fun k inside _ => same.2 k inside⟩

/-- A call through a descriptor of an inode does to its bytes what it was asked for at most. -/
theorem use_answers {a : Use} (m : Mounted slots s) (hx : slots x = some (.opened id)) (ne : x ≠ 1)
    (through : a.Through s id) (stepped : use s a = some t) : Answers s t id a := by
  obtain ⟨h, handle, rfl⟩ := through
  have same : SameFile s s (s.file h).vnode := ⟨rfl, fun _ _ => rfl⟩
  cases a with
  | act a =>
    cases a with
    | call r =>
      cases r with
      | drop h' =>
        obtain rfl : h' = h := Option.some.inj handle
        change (if _ then _ else _) = _ at stepped
        split at stepped
        · rename_i enabled
          obtain ⟨⟨h, f⟩, mine, same⟩ := List.mem_map.mp enabled.2
          obtain rfl : h = h' := same
          rw [m.file_of_mem mine] at hx ⊢
          exact answers_of_same (dropFile_same m mine enabled.1 hx ne stepped)
        · cases stepped
      | create path => cases handle
      | openFile path => cases handle
      | remove path => cases handle
    | write h' buf =>
      obtain rfl : h' = h := Option.some.inj handle
      obtain ⟨-, -, stepped⟩ := onFile_eq_some m stepped
      obtain rfl | ⟨u, bytes, change, -, short, -, final⟩ := write_cases m hx stepped
      · exact answers_of_same same
      have wrote : Answers s (u.wrote (u.inodes (s.file h').vnode).data.start (s.file h').pos bytes)
        (s.file h').vnode
          (.act (.write h' buf)) := by
        refine ⟨.inr change.len, fun k inside out => ?_⟩
        rw [change.byte_wrote inside, if_neg]
        rintro ⟨low, high⟩
        exact out ⟨low, by omega⟩
      obtain rfl | ⟨p, rfl⟩ := final
      · exact wrote
      · exact wrote
    | seek h' pos =>
      obtain ⟨-, -, stepped⟩ := onFile_eq_some m stepped
      obtain ⟨p, rfl⟩ := seek_cases m stepped
      exact answers_of_same same
    | setLen h' size =>
      obtain rfl : h' = h := Option.some.inj handle
      obtain ⟨-, -, stepped⟩ := onFile_eq_some m stepped
      obtain rfl | change := setLen_cases m hx stepped
      · exact answers_of_same same
      · exact ⟨.inr change.len, fun k inside _ => change.byte inside⟩
  | read h' buf =>
    obtain ⟨-, -, stepped⟩ := onFile_eq_some m stepped
    obtain rfl | ⟨p, rfl⟩ := read_cases m stepped
    · exact answers_of_same same
    · exact answers_of_same same
  | clone h' =>
    obtain ⟨-, -, stepped⟩ := onFile_eq_some m stepped
    obtain rfl := Option.some.inj stepped
    exact answers_of_same same
  | denyWrite h' =>
    obtain rfl : h' = h := Option.some.inj handle
    obtain ⟨-, -, stepped⟩ := onFile_eq_some m stepped
    obtain rfl := denyWrite_state m stepped
    exact answers_of_same (.of_same (denied_data (s.flagged h') _ _) rfl)

/-- A descriptor reads the bytes of the inode, writes where writing is not denied and there is room,
and changes the length where there is room. -/
structure Serving (s : Sys) (id h : Nat) : Prop where
  read : ∀ buf : Slice, buf.InKernel → ∃ t, File.read h buf s =
    .ok ((List.range (min ((s.inodes id).data.len - (s.file h).pos) buf.bytes.length)).map
      fun i => s.byte id ((s.file h).pos + i)) t
  write : ∀ buf : Slice, buf.InKernel → (s.inodes id).desc.denyWrite = 0 →
    (s.file h).pos + buf.bytes.length < 2 ^ 32 →
      Grants s.freeMap (s.inodes id) ((s.file h).pos + buf.bytes.length) →
        ∃ t, File.write h buf s = .ok buf.bytes.length t ∧
          (t.inodes id).data.len = max (s.inodes id).data.len ((s.file h).pos + buf.bytes.length) ∧
            ∀ i < buf.bytes.length, buf.bytes[i]? = some (t.byte id ((s.file h).pos + i))
  resize : ∀ n < 2 ^ 32, Grants s.freeMap (s.inodes id) n →
    ∃ t, File.setLen h n s = .ok () t ∧ (t.inodes id).data.len = n

theorem serving (m : Mounted slots s) (hx : slots x = some (.opened id)) (ne : x ≠ 1)
    (vnode : (s.file h).vnode = id) : Serving s id h := by
  subst vnode
  have first : File.getFile h s = .ok (s.file h) s := rfl
  have inv : (Store.mk s slots).Inv := ⟨m.idle, m.sound⟩
  have free : ∀ l, l ∉ s.held := by simp [m.idle]
  refine ⟨?_, ?_, ?_⟩
  · intro buf kernel
    obtain got | ⟨-, p, blocked⟩ := readAt_cases (free (.inode (s.file h).vnode))
      (free _) buf (s.file h).pos
    · exact ⟨_, File.read_ok rfl got⟩
    · exact absurd kernel blocked.not_inKernel
  · intro buf kernel allowed small grants
    have served : (Store.mk s slots).Served (s.file h).vnode (.write x buf (s.file h).pos) :=
      ⟨small, grants, allowed, kernel⟩
    obtain ⟨st', stepped, -, wrote⟩ := Store.step_write inv ne hx served
    rw [Store.step, Store.step_opened ne hx] at stepped
    cases done : writeAt (s.file h).vnode buf (s.file h).pos s with
    | ok cnt t =>
      rw [Store.call_ok done] at stepped
      cases stepped
      have len := wrote.len
      rw [Store.len, Store.len, Store.data_mk hx, Store.data_mk hx] at len
      refine ⟨t.setPos h ((s.file h).pos + buf.bytes.length), ?_, len, fun i hi => ?_⟩
      · exact File.write_ok rfl done
      · have byte := wrote.inside ((s.file h).pos + i) (Nat.le_add_right _ i) (by omega)
        rw [Nat.add_sub_cancel_left, Store.byte, Store.data_mk hx] at byte
        exact byte
    | err e t =>
      rw [Store.call_err done] at stepped
      cases stepped
    | halt e =>
      rw [Store.call_halt done] at stepped
      cases stepped
  · intro n small grants
    have ends := resize_ends (m.sound.settled hx) (free _) (free _) (free _) n
    rw [Nat.mod_eq_of_lt small] at ends
    obtain ⟨t, done, change⟩ | ⟨-, full, -⟩ | ⟨e, -, full, -⟩ := ends
    · refine ⟨t, ?_, change.len⟩
      rw [File.setLen, Call.bind_ok first, done]
    · exact absurd grants full
    · exact absurd grants full

/-- The name of an entry is well formed if it is short enough and ASCII. -/
theorem wellNamed_of_entry {e : DirEntry} (names : e.names path = true)
    (ascii : isAscii path = true)
    (short : path.length ≤ 27) : WellNamed path := by
  rw [DirEntry.names, Bool.and_eq_true, beq_iff_eq, DirEntry.isValid, Bool.and_eq_true,
    bne_iff_ne, bne_iff_ne] at names
  obtain ⟨⟨mark, zero⟩, rfl⟩ := names
  have head : ∃ rest, e.toBytes = e.name 0 :: rest := by
    have first := e.toBytes_name (k := 0) (by norm_num)
    have length := e.length_toBytes
    cases bytes : e.toBytes with
    | nil =>
      rw [bytes] at length
      cases length
    | cons b rest =>
      rw [bytes] at first
      exact ⟨rest, congrArg (· :: rest) first⟩
  obtain ⟨rest, bytes⟩ := head
  have here : e.cstr = e.name 0 :: rest.takeWhile (· != 0) := by
    rw [DirEntry.cstr, bytes, List.takeWhile_cons, if_pos (bne_iff_ne.mpr zero)]
  refine ⟨?_, short, ascii, ?_, ?_⟩
  · rw [here]
    exact List.cons_ne_nil _ _
  · intro mem
    have nonzero := List.mem_takeWhile_imp (p := (· != 0)) mem
    exact bne_iff_ne.mp nonzero rfl
  · rw [here]
    exact mark

/-- The inode of a created path is in memory under the path's number, which the path had before or
nobody. -/
theorem create_result {e : DirEntry} (m : Mounted slots s) (fine : Reopens s (.create path))
    (names : e.names path = true) (done : create path s = .ok h t) :
    ∃ y, find path t.entries = .ok y ∧ t.upgrade y = some (t.file h).vnode ∧
      (find path s.entries = .ok y ∨ slots y = none) := by
  cases lookup : find path s.entries with
  | ok y =>
    obtain ⟨id, up⟩ := Option.isSome_iff_exists.mp (fine y lookup)
    have hy := (m.linked.upgrade y id).mp up
    obtain ⟨ne, -⟩ := m.slot_of_find lookup
    obtain ⟨u, done', number, confined⟩ := m.create_opened_confined lookup hy
    rw [done] at done'
    cases done'
    refine ⟨y, ?_, ?_, .inl rfl⟩
    · rw [m.entries_of_local confined.mounted confined.loc (Mounted.root_ne ne), lookup]
    · have newFile : (s.nextFile, File.new id) ∈ (u.opened id).files := by
        rw [← number]
        exact List.mem_cons_self
      rw [confined.mounted.file_of_mem newFile]
      exact (confined.mounted.linked.upgrade y id).mpr hy
  | error e₀ =>
    obtain stops | ⟨e', u, slots', failed, -⟩ | ⟨p, y, u, done', made, mounted, loc⟩ :=
      m.create_new_cases lookup
    · rw [stops] at done
      cases done
    · rw [failed] at done
      cases done
    rw [done] at done'
    cases done'
    obtain ⟨i, place, entries⟩ := made.entries
    have named := wellNamed_of_entry names made.named.1 made.named.2
    refine ⟨y, ?_, ?_, .inr (m.sound.slot_none made.free)⟩
    · rw [entries]
      rw [m.entries_setPos] at place ⊢
      exact find_set m.readable named lookup place y
    · have link : (s.nextFile, s.nextInode) ∈ t.links := by
        rw [made.links]
        exact List.mem_cons_self
      obtain ⟨⟨k, f⟩, mine, same⟩ := List.mem_map.mp link
      obtain ⟨rfl, vnode⟩ := Prod.mk.inj same
      rw [mounted.file_of_mem mine, vnode]
      exact (mounted.linked.upgrade y s.nextInode).mpr (Function.update_self ..)

/-- The inode is open, and no name leads to it. -/
structure Ghost (slots : Slots) (s : Sys) (x id : Nat) : Prop where
  mounted : Mounted slots s
  slot : slots x = some (.opened id)
  unnamed : ∀ e ∈ s.entries, e.isValid = true → e.inum ≠ x

/-- What one call does beside an open file without a name. Only a call through a descriptor of the
file touches it, and that call touches no other file; and a path that is created leads to another.
-/
structure Passes (path : Path) (x id : Nat) (slots slots' : Slots)
    (s t : Sys) (a : Use) : Prop where
  mounted : Mounted slots' t
  others : ¬a.Through s id → Untouched slots slots' s t x
  own : a.Through s id → Answers s t id a ∧ ∀ y, y ≠ 1 → y ≠ x → Untouched slots slots' s t y
  handles : ∀ h, On s id h → h ∉ a.drops → On t id h
  created : ∀ h, a = .act (.call (.create path)) → create path s = .ok h t → ∃ y, y ≠ x ∧
    find path t.entries = .ok y ∧ t.upgrade y = some (t.file h).vnode ∧ (t.file h).vnode ≠ id

theorem on_iff (m : Mounted slots s) : On s id h ↔ h ≠ 0 ∧ (h, id) ∈ s.links := by
  constructor
  · intro on
    obtain ⟨f, mine, rfl⟩ := mem_of_on on
    exact ⟨on.1, List.mem_map.mpr ⟨(h, f), mine, rfl⟩⟩
  · rintro ⟨nonzero, link⟩
    obtain ⟨⟨k, f⟩, mine, same⟩ := List.mem_map.mp link
    obtain ⟨rfl, rfl⟩ := Prod.mk.inj same
    refine ⟨nonzero, ?_⟩
    rw [m.lookup_of_mem mine]
    rfl

theorem on_kept (m : Mounted slots s) (confined : Confined slots slots' s t X gone) (on : On s id h)
    (stays : h ∉ gone) : On t id h := by
  rw [on_iff m] at on
  exact (on_iff confined.mounted).mpr ⟨on.1, confined.links (h, id) on.2 stays⟩

namespace Ghost

/-- A call that concerns the file is made through one of its descriptors. -/
theorem through {a : Use} (ghost : Ghost slots s x id) (ne : x ≠ 1)
    (concerned : Concerned slots s a.handle? x) :
    a.Through s id := by
  have slot := ghost.slot
  obtain root | other := concerned
  · exact absurd root ne
  · cases handle : a.handle? with
    | some h =>
      rw [handle] at other
      have opened : slots x = some (.opened (s.file h).vnode) := other
      rw [slot] at opened
      cases opened
      exact ⟨h, handle, rfl⟩
    | none =>
      rw [handle] at other
      obtain new | ⟨e, he, valid, same⟩ := other
      · rw [slot] at new
        cases new
      · exact absurd same (ghost.unnamed e he valid)

theorem only {a : Use} (ghost : Ghost slots s x id) (through : a.Through s id)
    (concerned : Concerned slots s a.handle? y) : y = 1 ∨ y = x := by
  obtain ⟨h, handle, vnode⟩ := through
  rw [handle] at concerned
  obtain root | opened := concerned
  · exact .inl root
  · have opened : slots y = some (.opened (s.file h).vnode) := opened
    rw [vnode] at opened
    exact .inr (ghost.mounted.sound.opened_inj opened ghost.slot)

theorem passes {a : Use} {e : DirEntry} (ghost : Ghost slots s x id) (ne : x ≠ 1)
    (names : e.names path = true)
    (fine : Registered s a) (stepped : use s a = some t) :
    ∃ slots', Passes path x id slots slots' s t a := by
  have m := ghost.mounted
  obtain ⟨slots', X, confined, concerned⟩ := use_confined m fine stepped
  have others : ¬a.Through s id → Untouched slots slots' s t x := fun apart =>
    confined.untouched fun mem => apart (ghost.through ne (concerned x mem))
  refine ⟨slots', confined.mounted, others, ?_, fun h on stays => on_kept m confined on stays, ?_⟩
  · intro through
    refine ⟨use_answers m ghost.slot ne through stepped,
      fun y root other => confined.untouched fun mem => ?_⟩
    obtain rfl | rfl := ghost.only through (concerned y mem)
    · exact root rfl
    · exact other rfl
  · rintro h rfl done
    obtain ⟨y, found, up, old⟩ := create_result m fine names done
    have apart : y ≠ x := by
      rintro rfl
      obtain old | new := old
      · obtain ⟨e, he, names, same⟩ := find_ok old
        rw [DirEntry.names, Bool.and_eq_true] at names
        exact ghost.unnamed e he names.1 same
      · rw [ghost.slot] at new
        cases new
    refine ⟨y, apart, found, up, ?_⟩
    intro same
    have elsewhere : ¬(Use.act (.call (.create path))).Through s id := by
      rintro ⟨h, handle, -⟩
      cases handle
    have here := (others elsewhere).slot
    rw [ghost.slot] at here
    have there := (confined.mounted.linked.upgrade y _).mp up
    rw [same] at there
    exact apart (confined.mounted.sound.opened_inj there here)

end Ghost

/-- The file is open without a name, or its inode is gone from memory for good. -/
def Lingers (x id : Nat) (s : Sys) : Prop :=
  ∃ slots, Mounted slots s ∧ id < s.nextInode ∧ (s.referenced id = true → Ghost slots s x id)

theorem use_lingers {a : Use} (lingers : Lingers x id s) (ne : x ≠ 1) (fine : Registered s a)
    (stepped : use s a = some t) : Lingers x id t := by
  obtain ⟨slots, m, old, live⟩ := lingers
  obtain ⟨slots', X, confined, concerned⟩ := use_confined m fine stepped
  have m' := confined.mounted
  refine ⟨slots', m', lt_of_lt_of_le old confined.next, fun referenced => ?_⟩
  -- An address that is in memory now and is not new was in memory before, under the same number.
  obtain ⟨q, link, vnode⟩ := referenced_iff.mp referenced
  obtain ⟨y, opened, -⟩ := m'.linked.live q link
  rw [vnode] at opened
  obtain before | fresh := confined.fresh y id opened
  · have ghost := live (m.linked.referenced before)
    obtain rfl := m.sound.opened_inj before ghost.slot
    refine ⟨m', opened, fun e he valid same => ?_⟩
    obtain old | new := confined.named e he valid
    · exact ghost.unnamed e old valid same
    · rw [same, ghost.slot] at new
      cases new
  · omega

theorem run_lingers {as : List Use} (lingers : Lingers x id s) (ne : x ≠ 1)
    (meets : Guarded use Registered s as)
    (ran : run use s as = some t) : Lingers x id t :=
  guarded_run_invariant (I := Lingers x id)
    (fun _ _ _ here fine stepped => use_lingers here ne fine stepped) lingers
    meets ran

/-- An open file that is removed loses its name and nothing else. -/
theorem remove_ghost (m : Mounted slots s) (found : find path s.entries = .ok x)
    (hx : slots x = some (.opened id)) : ∃ u, remove path s = .ok () u ∧
      Ghost slots u x id ∧ u.links = s.links ∧
      SameFile s u id ∧ u.entries = s.entries.map (DirEntry.strike x) := by
  obtain ⟨p, done, carried⟩ := m.remove_opened found hx
  obtain ⟨ne, -⟩ := m.slot_of_find found
  have struck := (m.strike x p).mounted
  have marked := struck.describe_confined hx ne
    (d := { (s.inodes id).desc with removed := true }) rfl rfl
  have entries : (s.removed x id p).entries = s.entries.map (DirEntry.strike x) :=
    (struck.entries_of_local marked.mounted marked.loc (Mounted.root_ne ne)).trans
      (Mounted.entries_struck m.sound x p)
  refine ⟨_, done, ⟨carried.mounted, hx, fun e he valid => ?_⟩, ?_, ?_, entries⟩
  · have he : e ∈ s.entries.map (DirEntry.strike x) := entries ▸ he
    exact (mem_map_strike he valid).2
  · exact links_setPos (s.strike x 0) 0 p
  · have struck := (m.sound.strikes x).sameFile hx (show x ∉ ({1} : Set Nat) from ne)
    refine struck.trans (.of_same ?_ rfl)
    change (Function.update s.inodes id _ id).data = _
    rw [Function.update_self]
    rfl

/-- What is so while a removed file is open: its sectors are its own, its descriptors serve, and
each call does to it and to other files what it should. -/
structure Usable (path : Path) (x id : Nat) (slots : Slots) (s : Sys) :
    Prop extends Ghost slots s x id where
  apart : ∀ y, y ≠ x → Disjoint (owned slots s x) (owned slots s y)
  serving : ∀ h, On s id h → Serving s id h
  passes : ∀ a t, Registered s a → use s a = some t → ∃ slots', Passes path x id slots slots' s t a

theorem Ghost.usable {e : DirEntry} (ghost : Ghost slots s x id) (ne : x ≠ 1)
    (names : e.names path = true) :
    Usable path x id slots s := by
  refine ⟨ghost, ?_, ?_, fun a t fine stepped => ghost.passes ne names fine stepped⟩
  · intro y other
    rw [Set.disjoint_left]
    exact fun z hz => ghost.mounted.sound.exclusive.apart x y (Ne.symm other) z hz
  · intro h on
    obtain ⟨f, mine, vnode⟩ := mem_of_on on
    exact serving ghost.mounted ghost.slot ne (by rw [ghost.mounted.file_of_mem mine, vnode])

theorem run_mounted_use {as : List Use} (m : Mounted slots s) (meets : Guarded use Registered s as)
    (ran : run use s as = some t) : ∃ slots', Mounted slots' t := by
  refine guarded_run_invariant (I := fun s => ∃ slots, Mounted slots s) ?_ ⟨slots, m⟩ meets ran
  rintro s a u ⟨slots, m⟩ fine stepped
  obtain ⟨slots', X, confined, -⟩ := use_confined m fine stepped
  exact ⟨slots', confined.mounted⟩

/-- In a run from mounting on that does not create again what has its name but is not open, a file
that is open can be removed, and if the name is its own, the path is not found then, and the file
is usable for as long as a descriptor is on it. -/
theorem removed_open_file_stays {capacity : Nat} {b s₀ : Sys} {before : List Use}
    (mountable : Mountable (capacity % 2 ^ 32) b) (mounted : mount capacity b = .ok () s₀)
    (meets : Guarded use Registered s₀ before) (ran : run use s₀ before = some s)
    (found : find path s.entries = .ok x) (opened : s.upgrade x = some id)
    (only : ∀ e ∈ s.entries, e.names path = true → e.inum = x) :
    ∃ u, remove path s = .ok () u ∧ (∃ v, openFile path u = .err .noSuchFile v) ∧ SameFile s u id ∧
      (∀ h, On s id h → On u id h) ∧ ∀ as t h, Guarded use Registered u as →
        run use u as = some t → On t id h →
        ∃ slots, Usable path x id slots t := by
  obtain ⟨slots₀, home⟩ := mount_home mountable mounted
  obtain ⟨slots, m⟩ := run_mounted_use home.mounted meets ran
  have hx := (m.linked.upgrade x id).mp opened
  obtain ⟨ne, -⟩ := m.slot_of_find found
  obtain ⟨e, -, names, -⟩ := find_ok found
  obtain ⟨u, done, ghost, links, same, entries⟩ := remove_ghost m found hx
  have missing : find path u.entries = .error .noSuchFile := by
    rw [find_eq ghost.mounted.readable, List.find?_eq_none.mpr]
    intro e' he' names'
    have valid : e'.isValid = true := (Bool.and_eq_true .. ▸ names' : _ ∧ _).1
    obtain ⟨old, other⟩ := mem_map_strike (entries ▸ he') valid
    exact other (only e' old names')
  obtain ⟨p, failed⟩ := ghost.mounted.openFile_missing missing
  refine ⟨u, done, ⟨_, failed⟩, same, ?_, ?_⟩
  · intro h on
    rw [on_iff m] at on
    exact (on_iff ghost.mounted).mpr (links.symm ▸ on)
  · intro as t h later reached on
    have start : Lingers x id u :=
      ⟨slots, ghost.mounted, ghost.mounted.sound.lt_nextInode ghost.slot, fun _ => ghost⟩
    obtain ⟨slotsT, mT, -, live⟩ := run_lingers start ne later reached
    obtain ⟨f, mine, vnode⟩ := mem_of_on on
    exact ⟨slotsT, (live (referenced_of_mem mine vnode)).usable ne names⟩

instance (s : Sys) (a : Use) : Decidable (Registered s a) :=
  match a with
  | .act a => inferInstanceAs (Decidable (Registers s a))
  | .read _ _ => .isTrue trivial
  | .clone _ => .isTrue trivial
  | .denyWrite _ => .isTrue trivial

/-- Whether a run on the empty disk, the removal of `a` and another run end in a state with the
property. -/
def removes (before as : List Use) (p : Sys → Sys → Sys → Sys → Bool) : Bool :=
  match mount 64 emptyDisk with
  | .ok () s₀ => (run use s₀ before).any fun s =>
    match remove [97] s with
    | .ok () u => (run use u as).any (p s₀ s u)
    | _ => false
  | _ => false

theorem of_removes {before as : List Use} {p : Sys → Sys → Sys → Sys → Bool}
    (computed : removes before as p = true) :
    ∃ s₀ s u t, mount 64 emptyDisk = .ok () s₀ ∧ run use s₀ before = some s ∧
      remove [97] s = .ok () u ∧
      run use u as = some t ∧ p s₀ s u t = true := by
  rw [removes] at computed
  split at computed
  · rename_i s₀ mounted
    obtain ⟨s, ran, rest⟩ := (Option.any_eq_true _ _).mp computed
    split at rest
    · rename_i u done
      obtain ⟨t, went, here⟩ := (Option.any_eq_true _ _).mp rest
      exact ⟨s₀, s, u, t, mounted, ran, done, went, here⟩
    · cases rest
  · cases computed

def opens : List Use := [.act (.call (.create [97])),
    .act (.write 1 (File.vec [1, 2, 3])), .clone 1]

/-- Write to the removed file, create its path again and let both grow. -/
def goesOn : List Use :=
  [.act (.write 2 (File.vec [4])), .act (.call (.create [97])), .act (.setLen 3 600),
    .act (.call (.drop 1)),
    .act (.setLen 2 700), .read 2 (File.vec [0, 0])]

theorem removed_file_goes_on : ∃ s₀ s u t, mount 64 emptyDisk = .ok () s₀ ∧
    run use s₀ opens = some s ∧
    remove [97] s = .ok () u ∧ (∃ v, openFile [97] u = .err .noSuchFile v) ∧
      run use u goesOn = some t ∧
      ∃ slots, Usable [97] 11 2 slots t := by
  have computed : removes opens goesOn (fun s₀ s u t => decide (Guarded use Registered s₀ opens) &&
      decide (find [97] s.entries = .ok 11) && decide (s.upgrade 11 = some 2) &&
        decide (∀ e ∈ s.entries, e.names [97] = true → e.inum = 11) &&
          decide (Guarded use Registered u goesOn) &&
          decide (On t 2 2)) = true := by decide +kernel
  obtain ⟨s₀, s, u, t, mounted, ran, done, went, facts⟩ := of_removes computed
  simp only [Bool.and_eq_true, decide_eq_true_iff] at facts
  obtain ⟨⟨⟨⟨⟨meets, found⟩, opened⟩, only⟩, later⟩, on⟩ := facts
  have mountable : Mountable (64 % 2 ^ 32) emptyDisk := .inl blank_emptyDisk
  obtain ⟨u', done', gone, -, -, stays⟩ :=
    removed_open_file_stays mountable mounted meets ran found opened only
  rw [done] at done'
  cases done'
  exact ⟨s₀, s, u, t, mounted, ran, done, gone, went, stays goesOn t 2 later went on⟩

/-- Two files whose names in the directory are one, since the second path goes on behind a NUL. -/
def sameNames : List Use := [.act (.call (.create [97])), .act (.call (.create [97, 0, 98]))]

/-- A file and another one that is created again while it is not open, so that it is twice in
memory. -/
def inMemoryTwice : List Use :=
  [.act (.call (.create [98])), .act (.call (.drop 1)), .act (.call (.create [97])),
    .act (.call (.create [98])),
    .act (.setLen 3 512), .act (.call (.openFile [98])), .act (.setLen 4 0), .act (.call (.drop 4))]

/-- The removed file grows, a sector of it is given up for the other one, and a new file takes it.
-/
def takesSector : List Use :=
  [.act (.setLen 2 512), .act (.setLen 3 0), .act (.call (.drop 3)),
    .act (.call (.create [97])), .act (.setLen 5 512)]

/-- A removed path is still found, and the inode of a new file is in a data sector of a removed file
that is open. -/
theorem removed_path_found_and_sector_shared :
    (∃ s₀ s u, mount 64 emptyDisk = .ok () s₀ ∧ run use s₀ sameNames = some s ∧ On s 2 1 ∧
      remove [97] s = .ok () u ∧ ∃ h v, openFile [97] u = .ok h v) ∧
    ∃ s₀ s u t, mount 64 emptyDisk = .ok () s₀ ∧ run use s₀ inMemoryTwice = some s ∧
      (∀ p ∈ s.files, (s.inodes p.2.vnode).desc.sector = (s.inodes 3).desc.sector → p.2.vnode = 3) ∧
        remove [97] s = .ok () u ∧ run use u takesSector = some t ∧ On t 3 2 ∧ On t 6 5 ∧
          find [97] t.entries = .ok (t.inodes 6).desc.sector ∧
            (t.inodes 3).Owns (t.inodes 6).desc.sector := by
  have named : removes sameNames [] (fun _ s u _ => decide (On s 2 1) &&
    (openFile [97] u).isOk) = true := by
    decide +kernel
  have shared : removes inMemoryTwice takesSector (fun _ s _ t =>
      decide (∀ p ∈ s.files, (s.inodes p.2.vnode).desc.sector = (s.inodes 3).desc.sector →
        p.2.vnode = 3) &&
        decide (On t 3 2) && decide (On t 6 5) && decide
          (find [97] t.entries = .ok (t.inodes 6).desc.sector) &&
          decide ((t.inodes 3).Owns (t.inodes 6).desc.sector)) = true := by decide +kernel
  constructor
  · obtain ⟨s₀, s, u, t, mounted, ran, done, -, facts⟩ := of_removes named
    rw [Bool.and_eq_true, decide_eq_true_iff, Outcome.isOk_iff] at facts
    obtain ⟨on, h, v, got⟩ := facts
    exact ⟨s₀, s, u, mounted, ran, on, done, h, v, got⟩
  · obtain ⟨s₀, s, u, t, mounted, ran, done, went, facts⟩ := of_removes shared
    simp only [Bool.and_eq_true, decide_eq_true_iff] at facts
    obtain ⟨⟨⟨⟨one, removed⟩, new⟩, found⟩, inside⟩ := facts
    exact ⟨s₀, s, u, t, mounted, ran, one, done, went, removed, new, found, inside⟩

end DiskFs

end Tacos.Fs
