/- GID: Tacos/Fs/Store
   generality: I
   source: src/fs/disk/inode.rs, src/fs/disk/free_map.rs, src/fs/disk.rs
   digest: Runs of inode operations from a fresh disk, and whose sectors each of them touches. -/

import Tacos.Fs.Close
import Tacos.Lib.Run
import Mathlib.Order.CompletePartialOrder

set_option autoImplicit false
set_option relaxedAutoImplicit false

namespace Tacos.Fs

open Tacos.Lib.Exec Tacos.Lib.Ownership Tacos.Lib.Run FreeMap Inode

/-- The system and, for each inode number, where its inode is. -/
structure Store where
  sys : Sys
  slots : Slots

/-- The operations on inodes; the number names the inode in memory with that number. -/
inductive Op where
  | create (len : Nat)
  | reopen (x : Nat)
  | resize (x n : Nat)
  | write (x : Nat) (buf : Slice) (off : Nat)
  | read (x : Nat) (buf : Slice) (off : Nat)
  | remove (x : Nat)
  | close (x : Nat)

inductive Reply where
  | done
  | wrote (n : Nat)
  | bytes (bs : List UInt8)
  | failed (e : OsError)
  deriving DecidableEq

/-- Allocate a sector for an inode and sectors for its content, then create it there. -/
def allocCreate (len : Nat) : M Nat := do
  let sector ← lock .freeMap (onFreeMap (FreeMap.alloc 1))
  let start ← lock .freeMap (onFreeMap (FreeMap.alloc (bytesToSectors len)))
  Inode.create sector start len

namespace Store

def owned (st : Store) (x : Nat) : Set Nat := Fs.owned st.slots st.sys x

def bit (st : Store) (y : Nat) : Bool := st.sys.freeMap.bit y

def call {α : Type} (st : Store) (x : M α) (slots : α → Sys → Slots) (reply : α → Reply) :
    Option (Store × Reply) :=
  match x st.sys with
  | .ok a t => some (⟨t, slots a t⟩, reply a)
  | .err e t => some (⟨t, st.slots⟩, .failed e)
  | .halt _ => none

/-- An operation on an inode in memory. The root directory's is the file system's own. -/
def onOpened (st : Store) (x : Nat) (f : Nat → Option (Store × Reply)) : Option (Store × Reply) :=
  if x = rootDirSector then none
  else match st.slots x with
    | some (.opened id) => f id
    | _ => none

/-- One operation and its reply. An inode is created with no more bytes than a `u32` counts sectors
for, and read from the disk only while it is not in memory. -/
def step (st : Store) : Op → Option (Store × Reply)
  | .create len =>
    if (len + 511) / 512 < 2 ^ 32 then
      st.call (allocCreate len)
        (fun id t => Function.update st.slots (t.inodes id).desc.sector (some (.opened id)))
          fun _ => .done
    else none
  | .reopen x =>
    if st.slots x = some .closed then
      st.call (Inode.openAt x) (fun id _ => Function.update st.slots x (some (.opened id)))
        fun _ => .done
    else none
  | .resize x n => st.onOpened x fun id =>
    st.call (Inode.resize id n) (fun _ _ => st.slots) fun _ => .done
  | .write x buf off => st.onOpened x fun id =>
    st.call (Inode.writeAt id buf off) (fun _ _ => st.slots) .wrote
  | .read x buf off => st.onOpened x fun id =>
    st.call (Inode.readAt id buf off) (fun _ _ => st.slots) .bytes
  | .remove x => st.onOpened x fun id =>
    st.call (Inode.remove id) (fun _ _ => st.slots) fun _ => .done
  | .close x => st.onOpened x fun id =>
    st.call (Inode.close id)
      (fun _ _ => Function.update st.slots x (leftover (st.sys.inodes id))) fun _ => .done

def next (st : Store) (op : Op) : Option Store := (st.step op).map Prod.fst

/-- No lock is held between operations, and the sectors are owned as they should be. -/
structure Inv (st : Store) : Prop where
  idle : st.sys.held = []
  sound : Sound st.slots st.sys

def subject : Op → Option Nat
  | .create _ => none
  | .reopen x | .resize x _ | .write x _ _ | .read x _ _ | .remove x | .close x => some x

/-- What an operation does to the store as a whole. Inodes not in `X` are left alone, and no mark
is lost but that of a sector of the inode that the operation is on. -/
structure Keeps (st st' : Store) (X : Set Nat) (x? : Option Nat) : Prop where
  idle : st'.sys.held = []
  rest : Local st.slots st'.slots st.sys st'.sys X
  cleared : ∀ y, st.bit y = true → st'.bit y = false → ∃ x ∈ x?, y ∈ st.owned x

variable {st st' : Store} {x id : Nat} {r : Reply}

theorem Keeps.inv {X : Set Nat} {x? : Option Nat} (h : Keeps st st' X x?) :
    st'.Inv := ⟨h.idle, h.rest.sound⟩

theorem onOpened_eq_some {f : Nat → Option (Store × Reply)} (h : st.onOpened x f = some (st', r)) :
    x ≠ 1 ∧ ∃ id, st.slots x = some (.opened id) ∧ f id = some (st', r) := by
  unfold onOpened at h
  split at h
  · cases h
  · refine ⟨‹_›, ?_⟩
    split at h
    · exact ⟨_, ‹_›, h⟩
    · cases h

section Call

variable {α : Type} {call : M α} {slots : α → Sys → Slots} {reply : α → Reply} {t : Sys}

theorem call_ok {a : α} (h : call st.sys = .ok a t) :
    st.call call slots reply = some (⟨t, slots a t⟩, reply a) := by
  rw [Store.call, h]

theorem call_err {e : OsError} (h : call st.sys = .err e t) :
    st.call call slots reply = some (⟨t, st.slots⟩, .failed e) := by
  rw [Store.call, h]

theorem call_halt {e : Halt} (h : call st.sys = .halt e) : st.call call slots reply = none := by
  rw [Store.call, h]

end Call

theorem keeps_same (inv : st.Inv) (x? : Option Nat) : Keeps st st {x} x? := by
  refine ⟨inv.idle, inv.sound.refl, ?_⟩
  intro y hy clear
  rw [hy] at clear
  cases clear

theorem cleared_resized (h : st.slots x = some (.opened id)) {t : Sys} {n : Nat}
    (change : Resized st.sys t id n) {y : Nat} (hy : st.bit y = true)
    (clear : t.freeMap.bit y = false) :
    y ∈ st.owned x := by
  refine (mem_owned_opened h y).mpr (.inr ?_)
  by_contra old
  by_cases new : (t.inodes id).Owns y
  · rw [change.marked y new] at clear
    cases clear
  · rw [Store.bit, ← change.kept y old new, clear] at hy
    cases hy

theorem keeps_resize (inv : st.Inv) (ne : x ≠ 1) (h : st.slots x = some (.opened id)) {n : Nat}
    (got : st.call (Inode.resize id n) (fun _ _ => st.slots) (fun _ => .done) = some (st', r)) :
    Keeps st st' {x} (some x) := by
  have free : ∀ l, l ∉ st.sys.held := by simp [inv.idle]
  have small : n % 2 ^ 32 < 2 ^ 32 := Nat.mod_lt _ (by norm_num)
  obtain ⟨t, done, change⟩ | ⟨failed, -⟩ | ⟨e, stopped, -⟩ :=
    resize_ends (inv.sound.settled h) (free _) (free _) (free _) n
  · rw [call_ok done] at got
    cases got
    refine ⟨change.held.trans inv.idle, inv.sound.resized h ne small change, ?_⟩
    exact fun y hy clear => ⟨x, rfl, cleared_resized h change hy clear⟩
  · rw [call_err failed] at got
    cases got
    exact keeps_same inv _
  · rw [call_halt stopped] at got
    cases got

/-- A write changes the length first, if it has to, and then bytes of its own inode. -/
theorem keeps_wrote (inv : st.Inv) (ne : x ≠ 1) (h : st.slots x = some (.opened id))
    {t : Sys} {n off : Nat}
    {bytes : List UInt8} (small : n < 2 ^ 32) (change : Resized st.sys t id n)
    (fits : bytes ≠ [] → off + bytes.length ≤ n) :
    Keeps st ⟨t.wrote (t.inodes id).data.start off bytes, st.slots⟩ {x} (some x) := by
  have first := inv.sound.resized h ne small change
  have cleared : ∀ y, st.bit y = true → t.freeMap.bit y = false → ∃ x' ∈ some x, y ∈ st.owned x' :=
    fun y hy clear => ⟨x, rfl, cleared_resized h change hy clear⟩
  by_cases none : bytes = []
  · subst none
    rw [Sys.wrote_nil]
    exact ⟨change.held.trans inv.idle, first, cleared⟩
  · have inside : off + bytes.length ≤ (t.inodes id).total := by
      rw [Inode.total, change.len]
      exact le_trans (fits none) (Nat.le_add_right _ _)
    have second := first.sound.wrote h inside
    refine ⟨change.held.trans inv.idle, (first.trans second).mono
      (Set.union_self _).subset, cleared⟩

/-- What a write that comes back has done: nothing, or a change of length and then one of bytes that
are inside the new length. -/
theorem writeAt_changes {s : Sys} (settled : Settled s id) (idle : s.held = [])
    (buf : Slice) (off : Nat) :
    (∃ e, writeAt id buf off s = .err e s) ∨ (∃ e, writeAt id buf off s = .halt e) ∨
      ∃ t n bytes, Resized s t id n ∧ n = writeLen (s.inodes id) buf off ∧ n < 2 ^ 32 ∧
        bytes.length ≤ buf.bytes.length ∧ (bytes ≠ [] → off + bytes.length ≤ n) ∧
          ((∃ cnt, writeAt id buf off s = .ok cnt (t.wrote (t.inodes id).data.start off bytes)) ∨
          ∃ e, writeAt id buf off s = .err e (t.wrote (t.inodes id).data.start off bytes)) := by
  have free : ∀ l, l ∉ s.held := by simp [idle]
  obtain ⟨e, failed, -⟩ | ⟨e, stopped, -⟩ | ⟨-, t, change, ends⟩ :=
    writeAt_ends settled (free _) (free _) (free _) buf off
  · exact .inl ⟨e, failed⟩
  · exact .inr (.inl ⟨e, stopped⟩)
  have small : writeLen (s.inodes id) buf off < 2 ^ 32 := by
    have total := settled.total_lt
    rw [Inode.total] at total
    unfold writeLen
    split <;> omega
  have fits : ∀ m ≤ min ((t.inodes id).data.len - off) buf.bytes.length,
      (buf.bytes.drop 0).take m ≠ [] → off + ((buf.bytes.drop 0).take m).length ≤ writeLen
      (s.inodes id) buf off := by
    intro m hm some
    have pos : 0 < ((buf.bytes.drop 0).take m).length := List.length_pos_iff.mpr some
    rw [List.length_take, List.drop_zero] at pos ⊢
    rw [change.len] at hm
    omega
  have short : ∀ m, ((buf.bytes.drop 0).take m).length ≤ buf.bytes.length := fun m =>
    le_trans (List.length_take_le' m _) (le_of_eq (by rw [List.drop_zero]))
  obtain ⟨done, -⟩ | ⟨m, hm, failed, -⟩ := ends
  · exact .inr (.inr ⟨t, _, _, change, rfl, small, short _, fits _ le_rfl, .inl ⟨_, done⟩⟩)
  · exact .inr (.inr ⟨t, _, _, change, rfl, small, short m, fits m hm, .inr ⟨_, failed⟩⟩)

theorem keeps_write (inv : st.Inv) (ne : x ≠ 1) (h : st.slots x = some (.opened id))
    {buf : Slice} {off : Nat}
    (got : st.call (Inode.writeAt id buf off) (fun _ _ => st.slots) .wrote = some (st', r)) :
    Keeps st st' {x} (some x) := by
  obtain ⟨e, failed⟩ | ⟨e, stopped⟩ | ⟨t, n, bytes, change, -, small, -, fits,
    ⟨cnt, done⟩ | ⟨e, failed⟩⟩ :=
    writeAt_changes (inv.sound.settled h) inv.idle buf off
  · rw [call_err failed] at got
    cases got
    exact keeps_same inv _
  · rw [call_halt stopped] at got
    cases got
  · rw [call_ok done] at got
    cases got
    exact keeps_wrote inv ne h small change fits
  · rw [call_err failed] at got
    cases got
    exact keeps_wrote inv ne h small change fits

theorem keeps_read (inv : st.Inv) {buf : Slice} {off : Nat}
    (got : st.call (Inode.readAt id buf off) (fun _ _ => st.slots) .bytes = some (st', r)) :
    Keeps st st' {x} (some x) := by
  have free : ∀ l, l ∉ st.sys.held := by simp [inv.idle]
  obtain done | ⟨failed, -⟩ := readAt_cases (free (.inode id)) (free _) buf off
  · rw [call_ok done] at got
    cases got
    exact keeps_same inv _
  · rw [call_err failed] at got
    cases got
    exact keeps_same inv _

theorem remove_eq (inv : st.Inv) (id : Nat) : Inode.remove id st.sys = .ok () { st.sys with
    inodes := Function.update st.sys.inodes id
      ⟨{ (st.sys.inodes id).desc with removed := true }, (st.sys.inodes id).data⟩ } :=
  lock_ok (t := { st.sys with
    inodes := Function.update st.sys.inodes id
      ⟨{ (st.sys.inodes id).desc with removed := true }, (st.sys.inodes id).data⟩
    held := .inode id :: st.sys.held }) (by simp [inv.idle]) rfl rfl

theorem keeps_remove (inv : st.Inv) (ne : x ≠ 1) (h : st.slots x = some (.opened id))
    (got : st.call (Inode.remove id) (fun _ _ => st.slots) (fun _ => .done) = some (st', r)) :
    Keeps st st' {x} (some x) := by
  rw [call_ok (remove_eq inv id)] at got
  cases got
  refine ⟨inv.idle, inv.sound.describe h ne rfl rfl, ?_⟩
  intro y hy clear
  have same : st.bit y = false := clear
  rw [hy] at same
  cases same

theorem keeps_close (inv : st.Inv) (ne : x ≠ 1) (h : st.slots x = some (.opened id))
    (got : st.call (Inode.close id) (fun _ _ =>
      Function.update st.slots x (leftover (st.sys.inodes id)))
      (fun _ => .done) = some (st', r)) :
    Keeps st st' {1, x} (some x) := by
  obtain ⟨e, stopped, -⟩ | ⟨t, done, closed⟩ := close_ends inv.sound h ne inv.idle
  · rw [call_halt stopped] at got
    cases got
  rw [call_ok done] at got
  cases got
  refine ⟨?_, inv.sound.closes h ne closed, ?_⟩
  · have frame := closed.frame
    split at frame
    · exact (congrArg Sys.held frame).trans inv.idle
    · exact (congrArg Sys.held frame).trans inv.idle
  · intro y hy clear
    refine ⟨x, rfl, (mem_owned_opened h y).mpr ?_⟩
    have bit := closed.bit y
    rw [Store.bit] at hy clear
    rw [hy, clear, Bool.true_and] at bit
    by_contra out
    rw [not_or] at out
    have tail : ¬(st.sys.inodes id).Tail y := fun hy => out.2 hy.owns
    have rest : ¬((st.sys.inodes id).desc.removed = true ∧
        (y = (st.sys.inodes id).desc.sector ∨ (st.sys.inodes id).Head y)) := by
      rintro ⟨-, here | head⟩
      · exact out.1 (here.trans (inv.sound.sector_eq h))
      · exact out.2 head.owns
    rw [decide_eq_false tail, decide_eq_false rest] at bit
    cases bit

theorem keeps_reopen (inv : st.Inv) (h : st.slots x = some .closed)
    (got : st.call (Inode.openAt x) (fun id _ => Function.update st.slots x (some (.opened id)))
      (fun _ => .done) = some (st', r)) :
    Keeps st st' {x} (some x) := by
  have placed := inv.sound.placed x
  rw [Placed, h] at placed
  have opened := Inode.openAt_eq (s := st.sys) x (by simp [inv.idle])
  rw [if_pos placed.1] at opened
  rw [call_ok opened] at got
  cases got
  refine ⟨inv.idle, inv.sound.opens h, ?_⟩
  intro y hy clear
  have same : st.bit y = false := clear
  rw [hy] at same
  cases same

/-- An allocation under the lock of the free map takes free sectors or changes nothing. -/
theorem alloc_lock_cases {s : Sys} (idle : s.held = []) (cnt : Nat) :
    (∃ start n, lock .freeMap (onFreeMap (FreeMap.alloc cnt)) s =
      .ok start { s with freeMap := n } ∧
        Taken s.freeMap n (InRun start cnt) ∧ start + cnt ≤ s.freeMap.size) ∨
      lock .freeMap (onFreeMap (FreeMap.alloc cnt)) s = .err .diskSectorAllocFail s := by
  have free : Lock.freeMap ∉ s.held := by simp [idle]
  have found : ∀ start n, alloc cnt s.freeMap = .ok start n →
      ∃ start n, lock .freeMap (onFreeMap (FreeMap.alloc cnt)) s =
      .ok start { s with freeMap := n } ∧
        Taken s.freeMap n (InRun start cnt) ∧ start + cnt ≤ s.freeMap.size := fun start n got =>
    ⟨start, n, lock_ok (t := { s with freeMap := n, held := .freeMap :: s.held }) free
      (onFreeMap_ok got) rfl,
      alloc_taken got⟩
  by_cases none : cnt = 0
  · subst none
    exact .inl (found 0 s.freeMap (alloc_zero _))
  · obtain ⟨start, n, got, -⟩ | ⟨failed, -⟩ := alloc_cases s.freeMap (Nat.pos_of_ne_zero none)
    · exact .inl (found start n got)
    · exact .inr (lock_err (t := { s with held := .freeMap :: s.held }) free
        (onFreeMap_err failed) rfl)

/-- A created inode and the sectors it was created on. -/
structure Created (s t : Sys) (x len : Nat) : Prop where
  frame : t = { s with
    disk := t.disk
    freeMap := t.freeMap
    inodes := Function.update s.inodes s.nextInode (t.inodes s.nextInode)
    nextInode := s.nextInode + 1 }
  inode : ∃ start, t.inodes s.nextInode = ⟨.new x 0,
    ⟨start, len % 2 ^ 32, inodeMagic, fun _ => 0⟩⟩ ∧
    Taken s.freeMap t.freeMap (fun y => InRun x 1 y ∨ InRun start ((len + 511) / 512) y) ∧
      ¬InRun start ((len + 511) / 512) x ∧ start + (len + 511) / 512 ≤ s.freeMap.size ∧
        t.disk = createdDisk s.disk x start ((len + 511) / 512) (t.inodes s.nextInode).data

/-- An inode is created on free sectors, or sectors are taken in vain. -/
theorem allocCreate_cases {s : Sys} {slots : Slots} (idle : s.held = [])
    (sound : Sound slots s) {len : Nat}
    (small : (len + 511) / 512 < 2 ^ 32) :
    (∃ x t, allocCreate len s = .ok s.nextInode t ∧ Created s t x len) ∨
      ∃ m A, allocCreate len s = .err .diskSectorAllocFail { s with freeMap := m } ∧
        Taken s.freeMap m A := by
  have cnt : bytesToSectors len = (len + 511) / 512 := Nat.mod_eq_of_lt small
  have size := sound.size_lt
  rw [allocCreate]
  obtain ⟨x, m, first, takenX, home⟩ | failed := alloc_lock_cases idle 1
  · rw [Call.bind_ok first]
    obtain ⟨start, n, second, taken, fits⟩ | failed :=
      alloc_lock_cases (s := { s with freeMap := m }) idle (bytesToSectors len)
    · rw [Call.bind_ok second]
      have fits' : start + bytesToSectors len ≤ s.freeMap.size := takenX.size ▸ fits
      have created := Inode.create_eq (s := { s with freeMap := n }) x start len
        (by simp [idle]) (by omega)
      rw [created]
      simp only
      rw [cnt] at taken fits' ⊢
      refine .inl ⟨x, _, rfl, ?_, start, ?_, takenX.trans taken, ?_, fits', ?_⟩
      · simp only [Function.update_self]
      · simp only [Function.update_self]
      · exact takenX.apart taken ⟨le_rfl, Nat.lt_succ_self x⟩
      · simp only [Function.update_self]
    · rw [Call.bind_err failed]
      exact .inr ⟨m, _, rfl, takenX⟩
  · rw [Call.bind_err failed]
    refine .inr ⟨s.freeMap, fun _ => False, rfl, rfl, fun y hy => .inl hy, fun y hy => hy, ?_, ?_⟩
    · exact fun y hy => hy.elim
    · exact fun y hy => hy.elim

theorem created_local {s t : Sys} {slots : Slots} {len : Nat} (sound : Sound slots s)
    (created : Created s t x len) :
    s.freeMap.bit x = false ∧
      Local slots (Function.update slots x (some (.opened s.nextInode))) s t {x} := by
  obtain ⟨frame, start, inode, taken, apart, fits, disk⟩ := created
  have home : InRun x 1 x ∨ InRun start ((len + 511) / 512) x := .inl ⟨le_rfl, Nat.lt_succ_self x⟩
  have shorter : (len % 2 ^ 32 + 511) / 512 ≤ (len + 511) / 512 :=
    Nat.div_le_div_right (Nat.add_le_add_right (Nat.mod_le _ _) _)
  have inside : ∀ y, InRun start ((len % 2 ^ 32 + 511) / 512) y →
    InRun start ((len + 511) / 512) y :=
    fun y hy => ⟨hy.1, lt_of_lt_of_le hy.2 (Nat.add_le_add_left shorter _)⟩
  have flushed : t.disk x = (⟨start, len % 2 ^ 32, inodeMagic, fun _ => 0⟩ :
    DiskInode).toSector := by
    rw [disk, createdDisk, if_neg apart, Function.update_self, inode]
  have elsewhere : ∀ y, ¬(InRun x 1 y ∨ InRun start ((len + 511) / 512) y) →
    t.disk y = s.disk y := by
    intro y hy
    rw [not_or] at hy
    have ne : y ≠ x := by
      rintro rfl
      exact hy.1 ⟨le_rfl, Nat.lt_succ_self _⟩
    rw [disk, createdDisk, if_neg hy.2, Function.update_of_ne ne]
  have step := sound.creates (Nat.mod_lt _ (by norm_num)) taken home
    (fun y hy => .inr (inside y hy))
    (fun h => apart (inside x h)) (le_trans (Nat.add_le_add_left shorter _) fits) flushed elsewhere
  refine ⟨taken.free x home, ?_⟩
  rw [frame, inode]
  exact step

theorem keeps_create (inv : st.Inv) {len : Nat} (small : (len + 511) / 512 < 2 ^ 32)
    (got : st.call (allocCreate len)
      (fun id t => Function.update st.slots (t.inodes id).desc.sector (some (.opened id)))
      (fun _ => .done) = some (st', r)) :
    Keeps st st' {x | st.bit x = false} none := by
  have none : ∀ (m : FreeMap) A, Taken st.sys.freeMap m A → ∀ y, st.bit y = true → m.bit y = false →
      ∃ x ∈ (none : Option Nat), y ∈ st.owned x := by
    intro m A taken y hy clear
    rw [taken.kept y hy] at clear
    cases clear
  obtain ⟨x, t, done, created⟩ | ⟨m, A, failed, taken⟩ := allocCreate_cases inv.idle inv.sound small
  · rw [call_ok done] at got
    obtain ⟨free, step⟩ := created_local inv.sound created
    obtain ⟨frame, start, inode, taken, -⟩ := created
    rw [inode] at got
    cases got
    refine ⟨(congrArg Sys.held frame).trans inv.idle, step.mono ?_, none _ _ taken⟩
    rintro y rfl
    exact free
  · rw [call_err failed] at got
    cases got
    exact ⟨inv.idle, (inv.sound.takes taken).mono (Set.empty_subset _), none m A taken⟩

/-- The inodes that an operation may change: its own, the root directory's when an entry has to be
struck out, and a new one on free sectors. -/
def touches (st : Store) : Op → Set Nat
  | .create _ => {x | st.bit x = false}
  | .reopen x | .resize x _ | .write x _ _ | .read x _ _ | .remove x => {x}
  | .close x => {1, x}

theorem step_keeps {op : Op} (inv : st.Inv) (stepped : st.step op = some (st', r)) :
    Keeps st st' (st.touches op) (subject op) := by
  cases op with
  | create len =>
    rw [step] at stepped
    split at stepped
    · exact keeps_create inv ‹_› stepped
    · cases stepped
  | reopen x =>
    rw [step] at stepped
    split at stepped
    · exact keeps_reopen inv ‹_› stepped
    · cases stepped
  | resize x n =>
    obtain ⟨ne, id, h, got⟩ := onOpened_eq_some stepped
    exact keeps_resize inv ne h got
  | write x buf off =>
    obtain ⟨ne, id, h, got⟩ := onOpened_eq_some stepped
    exact keeps_write inv ne h got
  | read x buf off =>
    obtain ⟨ne, id, h, got⟩ := onOpened_eq_some stepped
    exact keeps_read inv got
  | remove x =>
    obtain ⟨ne, id, h, got⟩ := onOpened_eq_some stepped
    exact keeps_remove inv ne h got
  | close x =>
    obtain ⟨ne, id, h, got⟩ := onOpened_eq_some stepped
    exact keeps_close inv ne h got

end Store

end Tacos.Fs
