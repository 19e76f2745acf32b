/- GID: Tacos/Fs/Content
   generality: I
   source: src/fs/disk/inode.rs
   digest: The bytes of an inode, through its own operations and those of others. -/

import Tacos.Fs.Mount
import Tacos.Lib.Cells

set_option autoImplicit false
set_option relaxedAutoImplicit false

namespace Tacos.Fs

open Tacos.Lib Tacos.Lib.Exec Tacos.Lib.Ownership Tacos.Lib.Run FreeMap Inode

theorem Resized.removed {s t : Sys} {id n : Nat} (change : Resized s t id n) :
    (t.inodes id).desc.removed = (s.inodes id).desc.removed := by rw [change.desc]

instance (m : FreeMap) (i : Inode) (n : Nat) : Decidable (Grants m i n) :=
  decidable_of_iff (i.total < n →
    (inPlaceAlloc (i.data.start + i.sectors) ((n + 511) / 512 - i.sectors) m).isOk = true ∨
      (inPlaceAlloc (i.data.start + i.sectors) ((n + 511) / 512 - i.sectors) m =
          .err .diskSectorAllocFail m ∧
        (alloc ((n + 511) / 512) m).isOk = true)) (by
    have unit : ∀ o : Outcome FreeMap OsError Halt Unit, o.isOk = true ↔
      ∃ m', o = .ok () m' := fun o =>
      Outcome.isOk_iff.trans ⟨fun ⟨_, h⟩ => h, fun h => ⟨(), h⟩⟩
    rw [Grants, unit, Outcome.isOk_iff])

namespace Store

/-- The numbers of an inode, from memory if it is there. -/
def data (st : Store) (x : Nat) : DiskInode :=
  match st.slots x with
  | some (.opened id) => (st.sys.inodes id).data
  | _ => DiskInode.ofSector (st.sys.disk x)

def len (st : Store) (x : Nat) : Nat := (st.data x).len

/-- The `i`-th byte of a file. -/
def byte (st : Store) (x i : Nat) : UInt8 := fileByte st.sys.disk (st.data x).start i

variable {st st' : Store} {x id : Nat} {r : Reply}

theorem data_opened (h : st.slots x = some (.opened id)) : st.data x = (st.sys.inodes id).data := by
  rw [data, h]

theorem data_mk {s : Sys} {slots : Slots} (h : slots x = some (.opened id)) :
    (Store.mk s slots).data x = (s.inodes id).data := data_opened h

theorem data_closed (h : st.slots x = some .closed) :
    st.data x = DiskInode.ofSector (st.sys.disk x) := by
  rw [data, h]

theorem sector_mem_owned (known : (st.slots x).isSome) {i : Nat} (hi : i < st.len x) :
    (st.data x).start + i / 512 ∈ st.owned x := by
  obtain ⟨slot, h⟩ := Option.isSome_iff_exists.mp known
  rw [len] at hi
  cases slot with
  | opened id =>
    refine (mem_owned_opened h _).mpr (.inr ?_)
    rw [data_opened h] at hi ⊢
    refine ⟨Nat.le_add_right _ _, Nat.add_lt_add_left ?_ _⟩
    rw [Inode.sectors, Inode.total]
    omega
  | closed =>
    refine (Sound.mem_owned_closed h _).mpr (.inr ?_)
    rw [data_closed h] at hi ⊢
    exact ⟨Nat.le_add_right _ _, Nat.add_lt_add_left (by omega) _⟩

theorem Keeps.content {X : Set Nat} {x? : Option Nat} (keeps : Keeps st st' X x?) (other : x ∉ X)
    (known : (st.slots x).isSome) : st'.len x = st.len x ∧
      ∀ i < st.len x, st'.byte x i = st.byte x i := by
  have slot := keeps.rest.slot x other
  have same : st'.data x = st.data x := by
    obtain ⟨place, h⟩ := Option.isSome_iff_exists.mp known
    cases place with
    | opened id =>
      rw [data_opened h, data_opened (slot.trans h), keeps.rest.inode x other id h]
    | closed =>
      rw [data_closed h, data_closed (slot.trans h), keeps.rest.disk x other x
        (self_mem_owned known)]
  refine ⟨by rw [len, len, same], ?_⟩
  intro i hi
  rw [byte, byte, same]
  exact fileByte_congr (keeps.rest.disk x other _ (sector_mem_owned known hi))

theorem byte_resized (h : st.slots x = some (.opened id)) {t : Sys} {n : Nat}
    (change : Resized st.sys t id n) {i : Nat}
    (hi : i < st.len x) : fileByte t.disk (t.inodes id).data.start i = st.byte x i := by
  rw [len, data_opened h] at hi
  rw [byte, data_opened h]
  exact change.byte hi

/-- What an operation on a file needs, besides the file being in memory: the end of the range is
below 2^32, there is room for it, writing is allowed and the buffer is the kernel's. -/
def Served (st : Store) (id : Nat) : Op → Prop
  | .write _ buf off => off + buf.bytes.length < 2 ^ 32 ∧
      Grants st.sys.freeMap (st.sys.inodes id) (off + buf.bytes.length) ∧
        (st.sys.inodes id).desc.denyWrite = 0 ∧ buf.InKernel
  | .resize _ n => n < 2 ^ 32 ∧ Grants st.sys.freeMap (st.sys.inodes id) n
  | .read _ buf _ => buf.InKernel
  | .remove _ => False
  | _ => True

instance (st : Store) (id : Nat) (op : Op) : Decidable (st.Served id op) :=
  match op with
  | .write _ buf off => inferInstanceAs (Decidable (off + buf.bytes.length < 2 ^ 32 ∧
      Grants st.sys.freeMap (st.sys.inodes id) (off + buf.bytes.length) ∧
        (st.sys.inodes id).desc.denyWrite = 0 ∧ ∀ i < buf.bytes.length,
        inKernelSpace (buf.addr + i)))
  | .resize _ n => inferInstanceAs
      (Decidable (n < 2 ^ 32 ∧ Grants st.sys.freeMap (st.sys.inodes id) n))
  | .read _ buf _ => inferInstanceAs
      (Decidable (∀ i < buf.bytes.length, inKernelSpace (buf.addr + i)))
  | .remove _ => .isFalse fun h => h
  | .create _ | .reopen _ | .close _ => .isTrue trivial

/-- The inode stays in memory where it is, and is removed later only if it was to be before. -/
def Stays (st st' : Store) (id : Nat) : Prop :=
  st'.slots = st.slots ∧ (st'.sys.inodes id).desc.removed = (st.sys.inodes id).desc.removed

/-- The bytes and the length after a write. -/
structure Wrote (st st' : Store) (x off : Nat) (bytes : List UInt8) : Prop where
  len : st'.len x = max (st.len x) (off + bytes.length)
  inside : ∀ i, off ≤ i → i < off + bytes.length → bytes[i - off]? = some (st'.byte x i)
  outside : ∀ i < st.len x, ¬(off ≤ i ∧ i < off + bytes.length) → st'.byte x i = st.byte x i

theorem step_opened (ne : x ≠ 1) (h : st.slots x = some (.opened id))
    (f : Nat → Option (Store × Reply)) :
    st.onOpened x f = f id := by
  rw [onOpened, if_neg (show ¬x = rootDirSector from ne), h]

theorem step_write (inv : st.Inv) (ne : x ≠ 1) (h : st.slots x = some (.opened id))
    {buf : Slice} {off : Nat}
    (served : st.Served id (.write x buf off)) :
    ∃ st', st.step (.write x buf off) = some (st', .wrote buf.bytes.length) ∧ Stays st st' id ∧
      Wrote st st' x off buf.bytes := by
  have free : ∀ l, l ∉ st.sys.held := by simp [inv.idle]
  obtain ⟨small, grants, allowed, kernel⟩ := served
  have stop : (off + buf.bytes.length) % 2 ^ 32 = off + buf.bytes.length := Nat.mod_eq_of_lt small
  have ends := writeAt_ends (inv.sound.settled h) (free _) (free _) (free _) buf off
  rw [WriteAtEnds, stop] at ends
  obtain ⟨e, -, denied | ⟨-, full, -⟩⟩ | ⟨e, -, -, huge | ⟨-, full, -⟩⟩ |
    ⟨-, t, change, ends⟩ := ends
  · omega
  · exact absurd grants full
  · omega
  · exact absurd grants full
  have newlen : (t.inodes id).data.len = max (st.len x) (off + buf.bytes.length) := by
    rw [change.len, writeLen, stop, len, data_opened h]
    split <;> omega
  have all : min ((t.inodes id).data.len - off) buf.bytes.length = buf.bytes.length := by omega
  rw [all] at ends
  obtain ⟨done, -⟩ | ⟨m, -, -, blocked, -⟩ := ends
  · simp only [List.drop_zero, List.take_length, Nat.zero_add] at done
    refine ⟨⟨t.wrote (t.inodes id).data.start off buf.bytes, st.slots⟩, ?_, ⟨rfl, ?_⟩, ?_, ?_, ?_⟩
    · rw [step, step_opened ne h, call_ok done]
    · exact change.removed
    · rw [len, data_mk h]
      exact newlen
    · intro i low high
      rw [byte, data_mk h]
      change buf.bytes[i - off]? =
        some (fileByte (overwrite t.disk (t.inodes id).data.start off buf.bytes)
        (t.inodes id).data.start i)
      rw [fileByte_overwrite, if_pos ⟨low, high⟩, List.getElem?_eq_getElem (by omega),
        List.getD_eq_getElem _ _ (by omega)]
    · intro i hi out
      rw [byte, data_mk h]
      change fileByte (overwrite t.disk (t.inodes id).data.start off buf.bytes)
        (t.inodes id).data.start i = _
      rw [fileByte_overwrite, if_neg out]
      exact byte_resized h change hi
  · exact absurd kernel blocked.not_inKernel

theorem step_resize (inv : st.Inv) (ne : x ≠ 1) (h : st.slots x = some (.opened id)) {n : Nat}
    (served : st.Served id (.resize x n)) :
    ∃ st', st.step (.resize x n) = some (st', .done) ∧ Stays st st' id ∧ st'.len x = n ∧
      ∀ i < st.len x, i < n → st'.byte x i = st.byte x i := by
  have free : ∀ l, l ∉ st.sys.held := by simp [inv.idle]
  obtain ⟨small, grants⟩ := served
  have ends := resize_ends (inv.sound.settled h) (free _) (free _) (free _) n
  rw [Nat.mod_eq_of_lt small] at ends
  obtain ⟨t, done, change⟩ | ⟨-, full, -⟩ | ⟨e, -, full, -⟩ := ends
  · refine ⟨⟨t, st.slots⟩, ?_, ⟨rfl, ?_⟩, ?_, ?_⟩
    · rw [step, step_opened ne h, call_ok done]
    · exact change.removed
    · rw [len, data_mk h]
      exact change.len
    · intro i hi _
      rw [byte, data_mk h]
      exact byte_resized h change hi
  · exact absurd grants full
  · exact absurd grants full

theorem step_read (inv : st.Inv) (ne : x ≠ 1) (h : st.slots x = some (.opened id))
    {buf : Slice} {off : Nat}
    (kernel : buf.InKernel) :
    st.step (.read x buf off) = some (st, .bytes
      ((List.range (min (st.len x - off) buf.bytes.length)).map fun i => st.byte x (off + i))) := by
  have free : ∀ l, l ∉ st.sys.held := by simp [inv.idle]
  obtain done | ⟨-, p, blocked⟩ := readAt_cases (free (.inode id)) (free _) buf off
  · rw [step, step_opened ne h, call_ok done]
    simp only [len, byte, data_opened h]
    rfl
  · exact absurd kernel blocked.not_inKernel

theorem reopen_content (inv : st.Inv) (h : st.slots x = some .closed)
    (stepped : st.step (.reopen x) = some (st', r)) :
    (∃ id, st'.slots x = some (.opened id) ∧ (st'.sys.inodes id).desc.removed = false) ∧
      st'.len x = st.len x ∧ ∀ i, st'.byte x i = st.byte x i := by
  have placed := inv.sound.placed x
  rw [Placed, h] at placed
  have opened := Inode.openAt_eq (s := st.sys) x (by simp [inv.idle])
  rw [if_pos placed.1] at opened
  rw [step, if_pos h, call_ok opened] at stepped
  cases stepped
  have same : data ⟨{ st.sys with
      inodes := Function.update st.sys.inodes st.sys.nextInode
        ⟨.new x 0, DiskInode.ofSector (st.sys.disk x)⟩
      nextInode := st.sys.nextInode + 1 }, Function.update st.slots x
        (some (.opened st.sys.nextInode))⟩ x =
      st.data x := by
    rw [data_mk (Function.update_self ..), data_closed h]
    simp only [Function.update_self]
  refine ⟨⟨st.sys.nextInode, Function.update_self .., ?_⟩, congrArg DiskInode.len same, fun i => ?_⟩
  · simp only [Function.update_self]
    rfl
  · rw [byte, same]
    rfl

/-- Closing an inode that was not removed leaves its bytes on the disk. -/
theorem close_content (inv : st.Inv) (ne : x ≠ 1) (h : st.slots x = some (.opened id))
    (stays : (st.sys.inodes id).desc.removed = false)
    (stepped : st.step (.close x) = some (st', r)) :
    st'.slots x = some .closed ∧ st'.len x = st.len x ∧ ∀ i, st'.byte x i = st.byte x i := by
  rw [step, step_opened ne h] at stepped
  obtain ⟨e, stopped, -⟩ | ⟨t, done, closed⟩ := close_ends inv.sound h ne inv.idle
  · rw [call_halt stopped] at stepped
    cases stepped
  rw [call_ok done] at stepped
  cases stepped
  have frame := closed.frame
  rw [stays, if_neg Bool.false_ne_true] at frame
  have disk : t.disk = st.sys.disk := by rw [frame]
  have slot : Function.update st.slots x (leftover (st.sys.inodes id)) x = some .closed := by
    rw [Function.update_self, leftover, stays]
    rfl
  have same : data ⟨t, Function.update st.slots x (leftover (st.sys.inodes id))⟩ x = st.data x := by
    rw [data_closed slot, data_opened h]
    simp only [disk]
    exact inv.sound.ofSector_eq h
  refine ⟨slot, congrArg DiskInode.len same, fun i => ?_⟩
  rw [byte, same]
  simp only [disk]
  rfl

/-- What may happen: anything to other inodes, and what is served to this one. -/
def Allowed (x : Nat) (st : Store) (op : Op) : Prop :=
  subject op = some x → ∀ id, st.slots x = some (.opened id) → st.Served id op

instance (x : Nat) (st : Store) (op : Op) : Decidable (Allowed x st op) :=
  match h : st.slots x with
  | some (.opened id) => decidable_of_iff (subject op = some x → st.Served id op)
      ⟨fun served mine id' h' => by rw [h] at h'; cases h'; exact served mine,
        fun all mine => all mine id h⟩
  | some .closed => .isTrue fun _ id h' => by rw [h] at h'; cases h'
  | none => .isTrue fun _ id h' => by rw [h] at h'; cases h'

/-- The byte array that an operation leaves of the one with number `x`. -/
def track (x : Nat) (c : Cells UInt8) : Op → Cells UInt8
  | .write x' buf off => if x' = x then c.write off buf.bytes else c
  | .resize x' n => if x' = x then c.resize n else c
  | _ => c

/-- An inode that is there, is not removed and holds the known bytes. -/
structure Holds (x : Nat) (st : Store) (c : Cells UInt8) : Prop where
  inv : st.Inv
  known : (st.slots x).isSome
  stays : ∀ id, st.slots x = some (.opened id) → (st.sys.inodes id).desc.removed = false
  content : c.Known (st.len x) (st.byte x)

theorem Holds.other {c : Cells UInt8} (holds : Holds x st c) {X : Set Nat} {x? : Option Nat}
    (keeps : Keeps st st' X x?) (out : x ∉ X) : Holds x st' c := by
  obtain ⟨len, bytes⟩ := keeps.content out holds.known
  have slot := keeps.rest.slot x out
  refine ⟨keeps.inv, slot.symm ▸ holds.known, ?_, ?_⟩
  · intro id h
    rw [slot] at h
    rw [keeps.rest.inode x out id h]
    exact holds.stays id h
  · rw [len]
    exact holds.content.congr bytes

theorem Holds.same {c c' : Cells UInt8} (holds : Holds x st c) (inv : st'.Inv)
    (h : st.slots x = some (.opened id))
    (stays : Stays st st' id) (content : c'.Known (st'.len x) (st'.byte x)) : Holds x st' c' := by
  refine ⟨inv, stays.1.symm ▸ holds.known, ?_, content⟩
  intro id' h'
  rw [stays.1, h] at h'
  cases h'
  rw [stays.2]
  exact holds.stays id h

theorem step_holds {c : Cells UInt8} {op : Op} (ne : x ≠ 1) (holds : Holds x st c)
    (allowed : Allowed x st op)
    (stepped : st.step op = some (st', r)) : Holds x st' (track x c op) := by
  have inv := holds.inv
  have keeps := step_keeps inv stepped
  cases op with
  | create len =>
    refine holds.other keeps ?_
    intro free
    change st.sys.freeMap.bit x = false at free
    rw [inv.sound.marked (self_mem_owned holds.known)] at free
    cases free
  | reopen x' =>
    by_cases here : x' = x
    · subst here
      have closed : st.slots x' = some .closed := by
        by_contra open_
        rw [step, if_neg open_] at stepped
        cases stepped
      obtain ⟨⟨id, slot, stays⟩, len, bytes⟩ := reopen_content inv closed stepped
      refine ⟨keeps.inv, slot.symm ▸ rfl, ?_, ?_⟩
      · intro id' h'
        rw [slot] at h'
        cases h'
        exact stays
      · rw [len]
        exact holds.content.congr fun i _ => bytes i
    · exact holds.other keeps fun hx => here hx.symm
  | resize x' n =>
    by_cases here : x' = x
    · subst here
      obtain ⟨-, id, h, -⟩ := onOpened_eq_some stepped
      obtain ⟨st'', again, stays, len, bytes⟩ := step_resize inv ne h (allowed rfl id h)
      rw [again, Option.some.injEq, Prod.mk.injEq] at stepped
      obtain ⟨rfl, -⟩ := stepped
      rw [track, if_pos rfl]
      refine holds.same keeps.inv h stays ?_
      rw [len]
      exact holds.content.resize fun i low high => bytes i high low
    · rw [track, if_neg here]
      exact holds.other keeps fun hx => here hx.symm
  | write x' buf off =>
    by_cases here : x' = x
    · subst here
      obtain ⟨-, id, h, -⟩ := onOpened_eq_some stepped
      obtain ⟨st'', again, stays, wrote⟩ := step_write inv ne h (allowed rfl id h)
      rw [again, Option.some.injEq, Prod.mk.injEq] at stepped
      obtain ⟨rfl, -⟩ := stepped
      rw [track, if_pos rfl]
      refine holds.same keeps.inv h stays ?_
      rw [wrote.len]
      exact holds.content.write wrote.inside wrote.outside
    · rw [track, if_neg here]
      exact holds.other keeps fun hx => here hx.symm
  | read x' buf off =>
    by_cases here : x' = x
    · subst here
      obtain ⟨-, id, h, -⟩ := onOpened_eq_some stepped
      rw [step_read inv ne h (allowed rfl id h), Option.some.injEq, Prod.mk.injEq] at stepped
      obtain ⟨rfl, -⟩ := stepped
      exact holds
    · exact holds.other keeps fun hx => here hx.symm
  | remove x' =>
    by_cases here : x' = x
    · subst here
      obtain ⟨-, id, h, -⟩ := onOpened_eq_some stepped
      exact (allowed rfl id h).elim
    · exact holds.other keeps fun hx => here hx.symm
  | close x' =>
    by_cases here : x' = x
    · subst here
      obtain ⟨-, id, h, -⟩ := onOpened_eq_some stepped
      obtain ⟨slot, len, bytes⟩ := close_content inv ne h (holds.stays id h) stepped
      refine ⟨keeps.inv, slot.symm ▸ rfl, ?_, ?_⟩
      · intro id' h'
        rw [slot] at h'
        cases h'
      · rw [len]
        exact holds.content.congr fun i _ => bytes i
    · refine holds.other keeps ?_
      rintro (hx | hx)
      · exact ne hx
      · exact here hx.symm

theorem run_holds {c : Cells UInt8} {ops : List Op} (ne : x ≠ 1) (holds : Holds x st c)
    (meets : Guarded next (Allowed x) st ops) (ran : run next st ops = some st') :
    Holds x st' (ops.foldl (track x) c) := by
  induction ops generalizing st c with
  | nil =>
    rw [run_nil, Option.some.injEq] at ran
    exact ran ▸ holds
  | cons op ops ih =>
    obtain ⟨m, first, rest⟩ := run_cons.mp ran
    obtain ⟨r, stepped⟩ := next_eq_some first
    exact ih (step_holds ne holds meets.1 stepped) (meets.2 m first) rest

/-- All other files are as they were. -/
def Others (st st' : Store) (x : Nat) : Prop :=
  ∀ x', x' ≠ x → (st.slots x').isSome → st'.len x' = st.len x' ∧
    ∀ i < st.len x', st'.byte x' i = st.byte x' i

/-- After any allowed run the file is the array that its operations make of it. A write takes the
whole buffer and changes nothing outside of its range, a change of length keeps what is inside of
both lengths, and a read gives the known bytes; no other file is touched. -/
theorem inode_is_byte_array {c : Cells UInt8} {ops : List Op} (ne : x ≠ 1) (holds : Holds x st c)
    (meets : Guarded next (Allowed x) st ops) (ran : run next st ops = some st') :
    (ops.foldl (track x) c).Known (st'.len x) (st'.byte x) ∧ ∀ id, st'.slots x = some (.opened id) →
      (∀ buf off, st'.Served id (.write x buf off) → ∃ t,
        st'.step (.write x buf off) = some (t, .wrote buf.bytes.length) ∧
          Wrote st' t x off buf.bytes ∧ Others st' t x) ∧
      (∀ n, st'.Served id (.resize x n) → ∃ t,
        st'.step (.resize x n) = some (t, .done) ∧ t.len x = n ∧
        (∀ i < st'.len x, i < n → t.byte x i = st'.byte x i) ∧ Others st' t x) ∧
      ∀ buf off, st'.Served id (.read x buf off) → ∃ bs,
        st'.step (.read x buf off) = some (st', .bytes bs) ∧
          bs.length = min buf.bytes.length (st'.len x - off) ∧
            ∀ i < bs.length, ∀ b ∈ (ops.foldl (track x) c).cell (off + i), bs[i]? = some b := by
  have final := run_holds ne holds meets ran
  have inv := final.inv
  have others : ∀ op t r, st'.step op = some (t, r) → st'.touches op = {x} → Others st' t x := by
    intro op t r stepped only x' hx' known
    exact (step_keeps inv stepped).content (by rw [only]; exact hx') known
  refine ⟨final.content, fun id h => ⟨?_, ?_, ?_⟩⟩
  · intro buf off served
    obtain ⟨t, stepped, -, wrote⟩ := step_write inv ne h served
    exact ⟨t, stepped, wrote, others _ t _ stepped rfl⟩
  · intro n served
    obtain ⟨t, stepped, -, len, bytes⟩ := step_resize inv ne h served
    exact ⟨t, stepped, len, bytes, others _ t _ stepped rfl⟩
  · intro buf off served
    refine ⟨_, step_read inv ne h served, ?_, ?_⟩
    · rw [List.length_map, List.length_range, Nat.min_comm]
    · intro i hi b hb
      rw [List.length_map, List.length_range] at hi
      have inside : off + i < (ops.foldl (track x) c).len := by
        rw [← final.content.len_eq]
        omega
      rw [List.getElem?_map, List.getElem?_range hi]
      exact congrArg some (final.content.cell_eq (off + i) inside b hb)

/-- Bytes in the kernel's memory. -/
def kernelBytes (bs : List UInt8) : Slice := ⟨vmOffset, bs, fun _ => none⟩

/-- Writes over a sector boundary and after a cut, with another file in the way. -/
def arrayOps : List Op :=
  [.write 11 (kernelBytes [1, 2, 3, 4]) 510, .write 12 (kernelBytes [9]) 0,
    .write 11 (kernelBytes [7]) 1024,
    .resize 11 512, .resize 11 514, .close 11, .reopen 11]

/-- A new disk with two empty files. -/
def twoFiles : Option Store := (Store.mount 64 emptyDisk).bind
    fun st => run next st [.create 0, .create 0]

theorem array_read_back : ∃ st st', twoFiles = some st ∧ run next st arrayOps = some st' ∧
    ∃ bs, st'.step (.read 11 (kernelBytes [0, 0, 0, 0, 0]) 510) = some (st', .bytes bs) ∧
      bs.length = 4 ∧ bs[0]? = some 1 ∧ bs[1]? = some 2 := by
  have computed : (match twoFiles with
      | none => false
      | some st => decide (Guarded next (Allowed 11) st arrayOps ∧ st.slots 11 = some (.opened 2) ∧
          (st.sys.inodes 2).desc.removed = false ∧ st.len 11 = 0) && match run next st arrayOps with
        | none => false
        | some st' => decide (st'.slots 11 = some (.opened 4) ∧ st'.len 11 = 514)) =
            true := by decide +kernel
  cases made : twoFiles with
  | none =>
    rw [made] at computed
    cases computed
  | some st =>
    rw [made] at computed
    obtain ⟨st₀, mounted, created⟩ := Option.bind_eq_some_iff.mp made
    have inv := run_inv (mount_inv blank_emptyDisk mounted) created
    obtain ⟨before, after⟩ := Bool.and_eq_true_iff.mp computed
    obtain ⟨meets, slot, stays, empty⟩ := of_decide_eq_true before
    have holds : Holds 11 st ⟨0, fun _ => none⟩ := by
      refine ⟨inv, slot.symm ▸ rfl, ?_, empty, fun i _ a ha => nomatch ha⟩
      intro id h
      rw [slot] at h
      cases h
      exact stays
    cases ran : run next st arrayOps with
    | none =>
      rw [ran] at after
      cases after
    | some st' =>
      rw [ran] at after
      obtain ⟨slot', len⟩ := of_decide_eq_true after
      have kernel : (kernelBytes [0, 0, 0, 0, 0]).InKernel := by
        show ∀ i < 5, inKernelSpace (vmOffset + i)
        decide
      obtain ⟨-, served⟩ := inode_is_byte_array (by decide) holds meets ran
      obtain ⟨bs, read, length, bytes⟩ := (served 4 slot').2.2
        (kernelBytes [0, 0, 0, 0, 0]) 510 kernel
      have four : bs.length = 4 := by
        rw [length, len]
        rfl
      exact ⟨st, st', rfl, ran, bs, read, four, bytes 0 (by omega) 1 (by decide),
        bytes 1 (by omega) 2 (by decide)⟩

end Store

end Tacos.Fs
