/- GID: Tacos/Fs/InMem
   generality: I
   source: src/io.rs, src/fs.rs, src/fs/inmem.rs
   digest: Exact transfers through any descriptor, and files in memory beside files on the disk. -/

import Tacos.Fs.Denial
import Tacos.Lib.InStep

set_option autoImplicit false
set_option relaxedAutoImplicit false

namespace Tacos.Fs

open Tacos.Lib Tacos.Lib.Exec Tacos.Lib.InStep Tacos.Lib.Run

/-- A slice behind a reference: its memory is there. -/
structure Buffer extends Slice where
  there : toSlice.Mapped bytes.length

/-- What the callers of a file ask for. A value of a plain type is the bytes that it is made of. -/
inductive FileOp where
  | seek (pos : SeekFrom)
  | readExact (buf : Buffer)
  | readInto (size : Nat)
  | writeAll (buf : Buffer)
  | writeFrom (value : List UInt8)

/-- A write that is not empty starts and ends inside the file. -/
def FileOp.Inside (len pos : Nat) : FileOp → Prop
  | .writeAll buf => buf.bytes = [] ∨ pos + buf.bytes.length ≤ len
  | .writeFrom value => value = [] ∨ pos + value.length ≤ len
  | _ => True

instance (len pos : Nat) (op : FileOp) : Decidable (op.Inside len pos) :=
  match op with
  | .writeAll buf => inferInstanceAs (Decidable (buf.bytes = [] ∨ pos + buf.bytes.length ≤ len))
  | .writeFrom value => inferInstanceAs (Decidable (value = [] ∨ pos + value.length ≤ len))
  | .seek _ | .readExact _ | .readInto _ => .isTrue trivial

inductive Answer where
  | moved (pos : Nat)
  | bytes (bytes : List UInt8)
  | done
  deriving DecidableEq

namespace Descriptor

variable {σ : Type} (d : Descriptor σ)

def perform : FileOp → Call σ OsError Halt Answer
  | .seek pos => do return .moved (← d.seek pos)
  | .readExact buf => do return .bytes (← d.readExact buf.toSlice)
  | .readInto size => do return .bytes (← d.readInto size)
  | .writeAll buf => do
    d.writeAll buf.toSlice
    pure .done
  | .writeFrom value => do
    d.writeFrom value
    pure .done

/-- A sequence of operations: the results with the cursor after each, and the last state. -/
def trace : List FileOp → σ → List (Except OsError Answer × Nat) × Except Halt σ :=
  InStep.trace d.perform d.pos

end Descriptor

/-- The inode of a file in memory and the descriptor on it. -/
structure MemFile where
  buf : List UInt8
  pos : Nat

namespace MemFs

/-- `MemFs::open`, which copies the bytes. The table of weak references is never read. -/
def openFile (id : List UInt8) : MemFile := ⟨id, 0⟩

def readAt (buf : Slice) (off : Nat) : Call MemFile OsError Halt (List UInt8) := fun m =>
  if m.buf.length ≤ off then .err .unexpectedEOF m
  else .ok ((m.buf.drop off).take (min (m.buf.length - off) buf.bytes.length)) m

def writeAt (buf : Slice) (off : Nat) : Call MemFile OsError Halt Nat := fun m =>
  if m.buf.length ≤ off then .err .unexpectedEOF m
  else
    let len := min (m.buf.length - off) buf.bytes.length
    .ok len { m with buf := m.buf.take off ++ buf.bytes.take len ++ m.buf.drop (off + len) }

def len : Call MemFile OsError Halt Nat := fun m => .ok m.buf.length m

/-- The descriptor that `MemFs::open` gives. -/
def descriptor : Descriptor MemFile where
  pos := MemFile.pos
  setPos := fun p m => { m with pos := p }
  readAt := readAt
  writeAt := writeAt
  len := len

end MemFs

structure Tape where
  bytes : List UInt8
  pos : Nat

namespace Tape

/-- The next `n` bytes. -/
def ahead (n : Nat) (t : Tape) : List UInt8 := (t.bytes.drop t.pos).take n

/-- Put new bytes in the place of those at the cursor. -/
def put (new : List UInt8) (t : Tape) : Tape :=
  { t with bytes := t.bytes.take t.pos ++ new ++ t.bytes.drop (t.pos + new.length) }

def moved (pos : Nat) (t : Tape) : Tape := { t with pos := pos }

/-- The next bytes and the cursor behind them; where there are not so many, the cursor is at the end
or where it was behind it. -/
def readExact (n : Nat) : Call Tape OsError Halt (List UInt8) := fun t =>
  if n = 0 ∨ t.pos + n ≤ t.bytes.length then .ok (t.ahead n) (t.moved (t.pos + n))
  else .err .unexpectedEOF (t.moved (max t.pos t.bytes.length))

def writeAll (new : List UInt8) : Call Tape OsError Halt Unit := fun t =>
  .ok () ((t.put new).moved (t.pos + new.length))

def seek (pos : SeekFrom) : Call Tape OsError Halt Nat := fun t =>
  match pos.newPos t.bytes.length t.pos with
  | some newPos => .ok newPos (t.moved newPos)
  | none => .halt .overflow

def perform : FileOp → Call Tape OsError Halt Answer
  | .seek pos => do return .moved (← seek pos)
  | .readExact buf => do return .bytes (← readExact buf.bytes.length)
  | .readInto size => do return .bytes (← readExact size)
  | .writeAll buf => do
    writeAll buf.bytes
    pure .done
  | .writeFrom value => do
    writeAll value
    pure .done

end Tape

namespace Tape

@[simp] theorem length_ahead (t : Tape) (n : Nat) :
    (t.ahead n).length = min n (t.bytes.length - t.pos) := by
  rw [ahead, List.length_take, List.length_drop]

@[simp] theorem moved_self (t : Tape) : t.moved t.pos = t := rfl

theorem length_put {t : Tape} {new : List UInt8} (fits : t.pos + new.length ≤ t.bytes.length) :
    (t.put new).bytes.length = t.bytes.length := by
  rw [put, List.length_append, List.length_append, List.length_take, List.length_drop]
  omega

theorem put_nil (t : Tape) : t.put [] = t := by
  rw [put, List.append_nil, List.length_nil, Nat.add_zero, List.take_append_drop]

theorem ahead_put {t : Tape} {new : List UInt8} (inside : t.pos ≤ t.bytes.length) :
    (t.put new).ahead new.length = new := by
  have front : (t.bytes.take t.pos).length = t.pos := by
    rw [List.length_take]
    omega
  rw [ahead, put, List.append_assoc, List.drop_left' front, List.take_left' rfl]

end Tape

/-- The states of a descriptor that each hold a tape, and how it is read and written in them. At
the end of a file the vnode may read nothing, or fail. -/
structure Descriptor.Serves {σ : Type} (d : Descriptor σ) (Holds : σ → Tape → Prop) : Prop where
  small : ∀ {s t}, Holds s t → t.bytes.length < 2 ^ 32
  pos : ∀ {s t}, Holds s t → d.pos s = t.pos
  moved : ∀ {s t}, Holds s t → ∀ p, Holds (d.setPos p s) (t.moved p)
  len : ∀ {s t}, Holds s t → d.len s = .ok t.bytes.length s
  readAt : ∀ {s t}, Holds s t → ∀ buf : Slice, t.pos < t.bytes.length →
    buf.Mapped (t.ahead buf.bytes.length).length →
      d.readAt buf t.pos s = .ok (t.ahead buf.bytes.length) s
  readAt_end : ∀ {s t}, Holds s t → ∀ buf : Slice, t.bytes.length ≤ t.pos →
    d.readAt buf t.pos s = .ok [] s ∨ d.readAt buf t.pos s = .err .unexpectedEOF s
  writeAt : ∀ {s t}, Holds s t → ∀ buf : Slice, 0 < buf.bytes.length →
    t.pos + buf.bytes.length ≤ t.bytes.length →
    buf.Mapped buf.bytes.length →
      ∃ s', d.writeAt buf t.pos s = .ok buf.bytes.length s' ∧ Holds s' (t.put buf.bytes)

namespace Descriptor.Serves

variable {σ : Type} {d : Descriptor σ} {Holds : σ → Tape → Prop} {s : σ} {t : Tape}

theorem seek (serves : d.Serves Holds) (holds : Holds s t) (pos : SeekFrom) :
    Agree Holds (d.seek pos s) (Tape.seek pos t) := by
  rw [Descriptor.seek_eq (serves.len holds), serves.pos holds, Tape.seek]
  cases pos.newPos t.bytes.length t.pos with
  | some p => exact .ok (serves.moved holds p)
  | none => exact .halt

theorem read (serves : d.Serves Holds) (holds : Holds s t) {buf : Slice}
    (more : t.pos < t.bytes.length) (mapped : buf.Mapped (t.ahead buf.bytes.length).length) :
    d.read buf s = .ok (t.ahead buf.bytes.length)
      (d.setPos (t.pos + (t.ahead buf.bytes.length).length) s) := by
  have cursor := serves.pos holds
  have got := serves.readAt holds buf more mapped
  rw [← cursor] at got
  rw [Descriptor.read_ok got, cursor]

theorem read_end (serves : d.Serves Holds) (holds : Holds s t) (buf : Slice)
    (done : t.bytes.length ≤ t.pos) :
    ∃ s', (d.read buf s = .ok [] s' ∨ d.read buf s = .err .unexpectedEOF s') ∧ Holds s' t := by
  have cursor := serves.pos holds
  obtain nothing | failed := serves.readAt_end holds buf done
  · rw [← cursor] at nothing
    refine ⟨_, .inl (Descriptor.read_ok nothing), ?_⟩
    rw [cursor]
    exact serves.moved holds t.pos
  · rw [← cursor] at failed
    exact ⟨s, .inr (Descriptor.read_err failed), holds⟩

theorem readExact (serves : d.Serves Holds) (holds : Holds s t) {buf : Slice}
    (mapped : buf.Mapped (t.ahead buf.bytes.length).length) :
    Agree Holds (d.readExact buf s) (Tape.readExact buf.bytes.length t) := by
  have length := t.length_ahead buf.bytes.length
  rw [Tape.readExact]
  by_cases empty : buf.bytes.length = 0
  · have none : t.ahead buf.bytes.length = [] := by
      rw [← List.length_eq_zero_iff]
      omega
    rw [Descriptor.readExact, readExactLoop_empty _ empty, if_pos (.inl empty), none, empty]
    exact .ok holds
  have some : 0 < buf.bytes.length := by omega
  by_cases done : t.bytes.length ≤ t.pos
  · obtain ⟨s', ends, kept⟩ := serves.read_end holds buf done
    rw [Descriptor.readExact, readExactLoop_end _ some ends, if_neg (by omega),
      Nat.max_eq_left done]
    exact .err kept
  have first := serves.read holds (by omega) mapped
  by_cases fits : t.pos + buf.bytes.length ≤ t.bytes.length
  · have all : (t.ahead buf.bytes.length).length = buf.bytes.length := by omega
    rw [readExact_once some first all, if_pos (.inr fits), all]
    exact .ok (serves.moved holds _)
  · have stop : t.pos + (t.ahead buf.bytes.length).length = t.bytes.length := by omega
    have behind : max t.pos t.bytes.length = t.bytes.length := by omega
    obtain ⟨s', ends, kept⟩ := serves.read_end (serves.moved holds t.bytes.length)
      (buf.drop (t.ahead buf.bytes.length).length) (le_refl _)
    rw [stop] at first
    rw [readExact_short first (by omega) (by omega) ends, if_neg (by omega), behind]
    exact .err kept

theorem write (serves : d.Serves Holds) (holds : Holds s t) {buf : Slice}
    (some : 0 < buf.bytes.length)
    (fits : t.pos + buf.bytes.length ≤ t.bytes.length) (mapped : buf.Mapped buf.bytes.length) :
    ∃ s', d.write buf s = .ok buf.bytes.length s' ∧
      Holds s' ((t.put buf.bytes).moved (t.pos + buf.bytes.length)) := by
  have cursor := serves.pos holds
  obtain ⟨s', put, kept⟩ := serves.writeAt holds buf some fits mapped
  rw [← cursor] at put
  refine ⟨_, Descriptor.write_ok put, ?_⟩
  rw [cursor]
  exact serves.moved kept _

theorem writeAll (serves : d.Serves Holds) (holds : Holds s t) {buf : Slice}
    (inside : buf.bytes = [] ∨ t.pos + buf.bytes.length ≤ t.bytes.length)
    (mapped : buf.Mapped buf.bytes.length) :
    Agree Holds (d.writeAll buf s) (Tape.writeAll buf.bytes t) := by
  rw [Tape.writeAll]
  by_cases empty : buf.bytes = []
  · rw [Descriptor.writeAll, writeAllLoop_empty _ (by rw [empty, List.length_nil]), empty,
      Tape.put_nil]
    exact .ok holds
  · have some : 0 < buf.bytes.length := List.length_pos_iff.mpr empty
    obtain ⟨s', put, kept⟩ := serves.write holds some (inside.resolve_left empty) mapped
    rw [writeAll_once some put]
    exact .ok kept

theorem perform (serves : d.Serves Holds) (holds : Holds s t) {op : FileOp}
    (inside : op.Inside t.bytes.length t.pos) :
    Agree Holds (d.perform op s) (Tape.perform op t) := by
  have small := serves.small holds
  cases op with
  | seek pos => exact (serves.seek holds pos).bind fun _ _ _ kept => .ok kept
  | readExact buf =>
    have mapped : buf.Mapped (t.ahead buf.bytes.length).length := fun i hi => buf.there i (by
      rw [Tape.length_ahead] at hi
      omega)
    exact Agree.bind (serves.readExact holds mapped) fun _ _ _ kept => .ok kept
  | readInto size =>
    have length : (File.vec (List.replicate size 0)).bytes.length = size := List.length_replicate
    have reads : Agree Holds (d.readInto size s) _ := serves.readExact holds (File.vec_mapped (by
      rw [Tape.length_ahead]
      omega))
    rw [length] at reads
    exact Agree.bind reads fun _ _ _ kept => .ok kept
  | writeAll buf =>
    exact Agree.bind (serves.writeAll holds inside buf.there) fun _ _ _ kept => .ok kept
  | writeFrom value =>
    have fits : value.length ≤ 2 ^ 38 := by
      obtain rfl | within := inside
      · exact Nat.zero_le _
      · omega
    have writes : Agree Holds (d.writeFrom value s) _ :=
      serves.writeAll holds inside (File.vec_mapped fits)
    exact Agree.bind writes fun _ _ _ kept => .ok kept

/-- Every sequence of operations whose writes stay inside does on the state what it does on the
tape. -/
theorem trace (serves : d.Serves Holds) (holds : Holds s t) (ops : List FileOp)
    (inside : Guarded (fun t op => after (Tape.perform op t)) (fun t op =>
      op.Inside t.bytes.length t.pos) t ops) :
    (InStep.trace Tape.perform Tape.pos ops t).1 = (d.trace ops s).1 := by
  have each : ∀ t s op, Holds s t → op.Inside t.bytes.length t.pos →
      Agree (fun t s => Holds s t) (Tape.perform op t) (d.perform op s) :=
    fun _ _ _ here fits => (serves.perform here fits).symm
  exact (trace_agree (R := fun t s => Holds s t) (fun _ _ here => (serves.pos here).symm)
    each ops holds inside).1

end Descriptor.Serves

/-- A file in memory holds its own bytes, whose number stays the same. -/
def MemFs.Holds (len : Nat) (m : MemFile) (t : Tape) : Prop :=
  m.buf = t.bytes ∧ m.pos = t.pos ∧ t.bytes.length = len

theorem MemFs.serves {len : Nat} (small : len < 2 ^ 32) :
    MemFs.descriptor.Serves (MemFs.Holds len) where
  small := fun holds => holds.2.2 ▸ small
  pos := fun holds => holds.2.1
  moved := fun holds _ => ⟨holds.1, rfl, holds.2.2⟩
  len := by
    rintro m t ⟨bytes, -, -⟩
    rw [← bytes]
    rfl
  readAt := by
    rintro ⟨bytes, pos⟩ t ⟨rfl, -, -⟩ buf more -
    have some : ¬t.bytes.length ≤ t.pos := by omega
    have cut : (t.bytes.drop t.pos).take (min (t.bytes.length - t.pos) buf.bytes.length) =
        t.ahead buf.bytes.length := by
      rw [Tape.ahead, ← List.length_drop, Nat.min_comm, ← List.take_eq_take_min]
    change readAt buf t.pos _ = _
    rw [readAt, if_neg some, cut]
  readAt_end := by
    rintro ⟨bytes, pos⟩ t ⟨rfl, -, -⟩ buf done
    right
    change readAt buf t.pos _ = _
    rw [readAt, if_pos done]
  writeAt := by
    rintro ⟨bytes, pos⟩ t ⟨rfl, at_cursor, length⟩ buf some fits -
    have all : min (t.bytes.length - t.pos) buf.bytes.length = buf.bytes.length := by omega
    refine ⟨⟨(t.put buf.bytes).bytes, pos⟩, ?_, rfl, at_cursor, (Tape.length_put fits).trans length⟩
    change writeAt buf t.pos _ = _
    rw [writeAt, if_neg (by simp only; omega)]
    simp only [all, List.take_length]
    rfl

open Inode (bytesFrom length_bytesFrom)
open Store (emptyDisk)

theorem take_drop_bytesFrom (d : Nat → Sector) (start len off n : Nat) :
    ((bytesFrom d start 0 len).drop off).take n = bytesFrom d start off (min (len - off) n) := by
  apply List.ext_getElem
  · rw [List.length_take, List.length_drop, length_bytesFrom, length_bytesFrom, Nat.min_comm]
  · intro k _ _
    simp only [bytesFrom, List.getElem_take, List.getElem_drop, List.getElem_map,
      List.getElem_range, Nat.zero_add]

/-- The bytes of a file after some of them were replaced. -/
theorem bytesFrom_overwrite (d : Nat → Sector) (start : Nat) {len off : Nat} {bytes : List UInt8}
    (fits : off + bytes.length ≤ len) : bytesFrom (overwrite d start off bytes) start 0 len =
      (bytesFrom d start 0 len).take off ++ bytes ++ (bytesFrom d start 0 len).drop
      (off + bytes.length) := by
  have front : ((bytesFrom d start 0 len).take off).length = off := by
    rw [List.length_take, length_bytesFrom]
    omega
  apply List.ext_getElem
  · rw [List.length_append, List.length_append, front, List.length_drop,
      length_bytesFrom, length_bytesFrom]
    omega
  · intro k hk _
    rw [length_bytesFrom] at hk
    have left : (bytesFrom (overwrite d start off bytes) start 0 len)[k] =
        fileByte (overwrite d start off bytes) start k := by
      simp only [bytesFrom, List.getElem_map, List.getElem_range, Nat.zero_add]
    rw [left, fileByte_overwrite]
    by_cases before : k < off
    · rw [if_neg (by omega), List.getElem_append_left (by rw [List.length_append]; omega),
        List.getElem_append_left (by omega)]
      simp only [bytesFrom, List.getElem_take, List.getElem_map, List.getElem_range, Nat.zero_add]
    by_cases within : k < off + bytes.length
    · rw [if_pos ⟨by omega, within⟩, List.getElem_append_left (by rw [List.length_append]; omega),
        List.getElem_append_right (by omega)]
      simp only [front]
      exact List.getD_eq_getElem _ _ _
    · rw [if_neg (by omega), List.getElem_append_right (by rw [List.length_append]; omega)]
      have place : off + bytes.length + (k - (off + bytes.length)) = k := by omega
      simp only [List.length_append, front]
      simp only [bytesFrom, List.getElem_drop, List.getElem_map,
        List.getElem_range, Nat.zero_add, place]

/-- The descriptor is on a file with these bytes. -/
structure Sys.FileHolds (s : Sys) (h : Nat) (bytes : List UInt8) : Prop where
  ready : FileReady s h
  small : (s.inodeOf h).data.len < 2 ^ 32
  bytes : bytesFrom s.disk (s.inodeOf h).data.start 0 (s.inodeOf h).data.len = bytes

/-- The descriptor is on a file with the bytes of the tape and may write to it. -/
structure File.Holds (h : Nat) (s : Sys) (t : Tape) : Prop where
  file : s.FileHolds h t.bytes
  pos : (s.file h).pos = t.pos
  allowed : (s.inodeOf h).desc.denyWrite = 0

theorem File.Holds.length {h : Nat} {s : Sys} {t : Tape} (holds : File.Holds h s t) :
    t.bytes.length = (s.inodeOf h).data.len := by
  rw [← holds.file.bytes, length_bytesFrom]

theorem File.Holds.ahead {h : Nat} {s : Sys} {t : Tape} (holds : File.Holds h s t) (n : Nat) :
    t.ahead n = bytesFrom s.disk (s.inodeOf h).data.start t.pos
      (min ((s.inodeOf h).data.len - t.pos) n) := by
  rw [Tape.ahead, ← holds.file.bytes, take_drop_bytesFrom]

theorem File.serves (h : Nat) : (File.descriptor h).Serves (File.Holds h) where
  small := fun holds => holds.length ▸ holds.file.small
  pos := fun holds => holds.pos
  moved := by
    intro s t holds p
    have ready := holds.file.ready
    have inode := ready.inodeOf_setPos p
    refine ⟨⟨ready.setPos p, inode ▸ holds.file.small, ?_⟩,
      ready.pos_setPos p, inode ▸ holds.allowed⟩
    change bytesFrom _ ((s.setPos h p).inodeOf h).data.start 0
      ((s.setPos h p).inodeOf h).data.len = _
    rw [inode]
    exact holds.file.bytes
  len := by
    intro s t holds
    rw [holds.length]
    exact lock_ok (t := { s with held := .inode (s.file h).vnode :: s.held })
      holds.file.ready.inode rfl rfl
  readAt := by
    intro s t holds buf more mapped
    rw [Tape.length_ahead, holds.length] at mapped
    obtain got | ⟨-, p, blocked⟩ :=
      Inode.readAt_cases holds.file.ready.inode holds.file.ready.virtio buf t.pos
    · rw [holds.ahead]
      exact got
    · have inside : t.pos + (p - 0) + 512 ≤ (s.inodeOf h).data.len := blocked.inside
      have whole := blocked.whole
      exact absurd mapped (blocked.not_mapped (by omega))
  readAt_end := by
    intro s t holds buf done
    rw [holds.length] at done
    left
    obtain got | ⟨-, p, blocked⟩ :=
      Inode.readAt_cases holds.file.ready.inode holds.file.ready.virtio buf t.pos
    · have none : (s.inodes (s.file h).vnode).data.len - t.pos = 0 := Nat.sub_eq_zero_of_le done
      rw [none, Nat.zero_min] at got
      exact got
    · have inside : t.pos + (p - 0) + 512 ≤ (s.inodeOf h).data.len := blocked.inside
      omega
  writeAt := by
    intro s t holds buf some fits mapped
    have ready := holds.file.ready
    rw [holds.length] at fits
    have small := holds.file.small
    have within := Inode.writeAt_within ready.inode ready.virtio buf t.pos
      holds.allowed (Nat.not_lt.mpr fits)
      (by omega)
    have all : min ((s.inodes (s.file h).vnode).data.len - t.pos)
      buf.bytes.length = buf.bytes.length := by
      change min ((s.inodeOf h).data.len - t.pos) buf.bytes.length = _
      omega
    rw [all] at within
    obtain ⟨got, -⟩ | ⟨m, -, -, blocked, -⟩ := within
    · rw [List.drop_zero, List.take_length, Nat.zero_add] at got
      refine ⟨s.wrote (s.inodeOf h).data.start t.pos buf.bytes, got,
        ⟨ready.wrote .., small, ?_⟩, holds.pos,
        holds.allowed⟩
      change bytesFrom (overwrite s.disk (s.inodeOf h).data.start t.pos buf.bytes)
        (s.inodeOf h).data.start 0
        (s.inodeOf h).data.len = _
      rw [bytesFrom_overwrite _ _ fits, holds.file.bytes]
      rfl
    · have whole := blocked.whole
      exact absurd mapped (blocked.not_mapped (by omega))

/-- The writes of the operations, done to a file that memory opens over the content, stay within the
content's length. -/
def MemFs.Within (content : List UInt8) (ops : List FileOp) : Prop :=
  Guarded (fun m op => InStep.after (descriptor.perform op m))
    (fun m op => op.Inside content.length m.pos)
    (openFile content) ops

/-- The file on the disk has the bytes and the cursor of the file in memory. -/
def Sys.Mirrors (h : Nat) (m : MemFile) (s : Sys) : Prop :=
  s.FileHolds h m.buf ∧ (s.file h).pos = m.pos

/-- What comes of writing a value, going back to where it is and reading it. -/
def Tape.readBack (value : List UInt8) (pos : Nat) : List (Except OsError Answer × Nat) :=
  [(.ok .done, pos + value.length), (.ok (.moved pos), pos),
    (.ok (.bytes value), pos + value.length)]

theorem Tape.trace_readBack {t : Tape} {value : List UInt8} {back : SeekFrom}
    (inside : value = [] ∨ t.pos + value.length ≤ t.bytes.length)
    (returns : back.newPos t.bytes.length (t.pos + value.length) = some t.pos) :
    (InStep.trace perform Tape.pos [.writeFrom value, .seek back, .readInto value.length] t).1 =
      readBack value t.pos := by
  have length : (t.put value).bytes.length = t.bytes.length := by
    obtain rfl | fits := inside
    · rw [put_nil]
    · exact length_put fits
  have wrote : perform (.writeFrom value) t = .ok .done
    ((t.put value).moved (t.pos + value.length)) := rfl
  have went : perform (.seek back) ((t.put value).moved (t.pos + value.length)) = .ok
    (.moved t.pos) (t.put value) := by
    have goal : back.newPos ((t.put value).moved (t.pos + value.length)).bytes.length
        ((t.put value).moved (t.pos + value.length)).pos = some t.pos := by
      change back.newPos (t.put value).bytes.length (t.pos + value.length) = _
      rw [length, returns]
    rw [perform, Call.bind_apply, seek, goal]
    rfl
  have got : (t.put value).ahead value.length = value := by
    obtain rfl | fits := inside
    · rfl
    · exact ahead_put (by omega)
  have read : perform (.readInto value.length) (t.put value) =
      .ok (.bytes value) ((t.put value).moved (t.pos + value.length)) := by
    have room : value.length = 0 ∨ (t.put value).pos + value.length ≤
      (t.put value).bytes.length := by
      rw [length, ← List.eq_nil_iff_length_eq_zero]
      exact inside
    rw [perform, Call.bind_apply, readExact, if_pos room, got]
    rfl
  simp only [InStep.trace, wrote, went, read]
  rfl

variable {s : Sys} {h : Nat} {content : List UInt8}

private theorem descriptors_agree (len : Nat) (small : len < 2 ^ 32) {m : MemFile} {op : FileOp}
    (both : ∃ t, MemFs.Holds len m t ∧ File.Holds h s t) (inside : op.Inside len m.pos) :
    Agree (fun m s => ∃ t, MemFs.Holds len m t ∧ File.Holds h s t) (MemFs.descriptor.perform op m)
      ((File.descriptor h).perform op s) := by
  obtain ⟨t, ⟨bytes, cursor, length⟩, disk⟩ := both
  have fits : op.Inside t.bytes.length t.pos := by
    rw [length, ← cursor]
    exact inside
  exact ((MemFs.serves small).perform ⟨bytes, cursor, length⟩ fits).join
    ((File.serves h).perform disk fits)

/-- A file in memory and a file on the disk with the same content, which no one denies writing to,
answer alike for as long as the writes stay inside, and a value that was written is read back. -/
theorem mem_and_disk_files_agree (holds : s.FileHolds h content)
    (allowed : (s.inodeOf h).desc.denyWrite = 0) :
    ((s.file h).pos = 0 → ∀ ops, MemFs.Within content ops →
      (MemFs.descriptor.trace ops (MemFs.openFile content)).1 =
        ((File.descriptor h).trace ops s).1 ∧
        SameEnd (Sys.Mirrors h) (MemFs.descriptor.trace ops (MemFs.openFile content)).2
          ((File.descriptor h).trace ops s).2) ∧
    ∀ value back, value = [] ∨ (s.file h).pos + value.length ≤ content.length →
      back.newPos content.length ((s.file h).pos + value.length) = some (s.file h).pos →
        (MemFs.descriptor.trace [.writeFrom value, .seek back,
          .readInto value.length] ⟨content, (s.file h).pos⟩).1 =
            Tape.readBack value (s.file h).pos ∧
          ((File.descriptor h).trace [.writeFrom value, .seek back, .readInto value.length] s).1 =
            Tape.readBack value (s.file h).pos := by
  have small : content.length < 2 ^ 32 := by
    rw [← holds.bytes, length_bytesFrom]
    exact holds.small
  have disk : File.Holds h s ⟨content, (s.file h).pos⟩ := ⟨holds, rfl, allowed⟩
  constructor
  · intro start ops within
    obtain ⟨answers, ends⟩ := trace_agree (fun m s ⟨t, mem, disk⟩ => mem.2.1.trans disk.pos.symm)
      (fun m s op => descriptors_agree _ small) ops
      ⟨_, ⟨rfl, rfl, rfl⟩, start ▸ disk⟩ within
    refine ⟨answers, ends.imp ?_⟩
    rintro m u ⟨t, ⟨bytes, cursor, -⟩, there⟩
    exact ⟨bytes ▸ there.file, there.pos.trans cursor.symm⟩
  · intro value back inside returns
    have guarded : Guarded (fun t op => InStep.after (Tape.perform op t))
      (fun t op => op.Inside t.bytes.length t.pos)
        ⟨content, (s.file h).pos⟩ [.writeFrom value, .seek back, .readInto value.length] :=
      ⟨inside, fun _ _ => ⟨trivial, fun _ _ => ⟨trivial, fun _ _ => trivial⟩⟩⟩
    have mem := (MemFs.serves small).trace (s := ⟨content, (s.file h).pos⟩)
      ⟨rfl, rfl, rfl⟩ _ guarded
    have there := (File.serves h).trace disk _ guarded
    have answers := Tape.trace_readBack (t := ⟨content, (s.file h).pos⟩) inside returns
    exact ⟨mem.symm.trans answers, there.symm.trans answers⟩

/-- The last state of a sequence of operations on a descriptor, if the machine goes on. -/
def File.final (h : Nat) (ops : List FileOp) (s : Sys) :
    Option Sys := ((File.descriptor h).trace ops s).2.toOption

/-- Whether the descriptor is on a file with these bytes, and its cursor is at the start. -/
def File.opened (h : Nat) (bytes : List UInt8) (s : Sys) : Bool :=
  (s.files.lookup h).isSome && decide (.inode (s.file h).vnode ∉ s.held ∧ .virtio ∉ s.held) &&
    decide ((s.inodeOf h).data.len < 2 ^ 32) &&
    decide (bytesFrom s.disk (s.inodeOf h).data.start 0 (s.inodeOf h).data.len = bytes) &&
      decide ((s.file h).pos = 0)

theorem File.of_opened {bytes : List UInt8} (opened : File.opened h bytes s = true) :
    s.FileHolds h bytes ∧ (s.file h).pos = 0 := by
  simp only [File.opened, Bool.and_eq_true, decide_eq_true_iff] at opened
  obtain ⟨⟨⟨⟨known, inode, virtio⟩, small⟩, bytes⟩, start⟩ := opened
  exact ⟨⟨⟨known, inode, virtio⟩, small, bytes⟩, start⟩

namespace DiskFs.Threads

/-- Reads that stop short, seeks from everywhere and writes inside of a file of two bytes. -/
def visit : List FileOp :=
  [.readInto 1, .readInto 5, .seek (.current (-1)), .writeFrom [9],
    .readInto 1, .seek (.fromEnd (-2)),
    .writeFrom [8], .seek (.start 7), .readInto 1, .writeFrom [],
    .seek (.current (-7)), .readInto 2]

/-- The bytes 6 and 7 are written to a new file. -/
def filled : List FileOp := [.writeFrom [6, 7], .seek (.start 0)]

/-- Whether the state in which the new file has these bytes has the property. -/
def stored (p : Sys → Bool) : Bool :=
  shared fun t => (File.final 1 filled t).any fun u => File.opened 1 [6, 7] u && p u

theorem of_stored {p : Sys → Bool} (computed : stored p = true) :
    ∃ s t u, mount 64 emptyDisk = .ok () s ∧
    run request s twice = some t ∧ File.final 1 filled t = some u ∧
      u.FileHolds 1 [6, 7] ∧ (u.file 1).pos = 0 ∧
      p u = true := by
  obtain ⟨s, t, -, mounted, ran, -, facts⟩ := of_shared computed
  obtain ⟨u, last, here⟩ := (Option.any_eq_true _ _).mp facts
  rw [Bool.and_eq_true] at here
  obtain ⟨holds, start⟩ := File.of_opened here.1
  exact ⟨s, t, u, mounted, ran, last, holds, start, here.2⟩

theorem small_file_mirrored : ∃ s t u, mount 64 emptyDisk = .ok () s ∧
    run request s twice = some t ∧
    File.final 1 filled t = some u ∧
      (MemFs.descriptor.trace visit (MemFs.openFile [6, 7])).1 =
        ((File.descriptor 1).trace visit u).1 ∧
      SameEnd (Sys.Mirrors 1) (MemFs.descriptor.trace visit (MemFs.openFile [6, 7])).2
        ((File.descriptor 1).trace visit u).2 ∧
      ((File.descriptor 1).trace [.writeFrom [5], .seek (.current (-1)), .readInto 1] u).1 =
        Tape.readBack [5] (u.file 1).pos := by
  have computed : stored (fun u => decide ((u.inodeOf 1).desc.denyWrite = 0)) = true := by
    decide +kernel
  have within : MemFs.Within [6, 7] visit := by
    rw [MemFs.Within]
    decide +kernel
  obtain ⟨s, t, u, mounted, ran, last, holds, start, allowed⟩ := of_stored computed
  obtain ⟨runs, returns⟩ := mem_and_disk_files_agree holds (of_decide_eq_true allowed)
  have back : SeekFrom.newPos 2 ((u.file 1).pos + 1) (.current (-1)) = some (u.file 1).pos := by
    rw [start]
    rfl
  obtain ⟨answers, ends⟩ := runs start visit within
  refine ⟨s, t, u, mounted, ran, last, answers, ends,
    (returns [5] (.current (-1)) (.inr ?_) back).2⟩
  rw [start]
  decide

/-- While another handle denies writing, the file on the disk refuses a write that memory takes. -/
theorem denied_file_refuses : ∃ s t u v, mount 64 emptyDisk = .ok () s ∧
    run request s twice = some t ∧
    File.final 1 filled t = some u ∧ DiskFs.after (denyWrite 2) u = some v ∧ v.FileHolds 1 [6, 7] ∧
      (v.file 1).pos = 0 ∧ MemFs.Within [6, 7] [.writeFrom [9]] ∧
        (MemFs.descriptor.trace [.writeFrom [9]] (MemFs.openFile [6, 7])).1 = [(.ok .done, 1)] ∧
          ((File.descriptor 1).trace [.writeFrom [9]] v).1 = [(.error .invalidFileMode, 0)] := by
  have computed : stored (fun u => (DiskFs.after (denyWrite 2) u).any
    fun v => File.opened 1 [6, 7] v &&
      decide (((File.descriptor 1).trace [.writeFrom [9]] v).1 =
        [(.error .invalidFileMode, 0)])) = true := by
    decide +kernel
  have within : MemFs.Within [6, 7] [.writeFrom [9]] := by
    rw [MemFs.Within]
    decide +kernel
  obtain ⟨s, t, u, mounted, ran, last, -, -, facts⟩ := of_stored computed
  obtain ⟨v, denied, here⟩ := (Option.any_eq_true _ _).mp facts
  rw [Bool.and_eq_true, decide_eq_true_iff] at here
  obtain ⟨holds, start⟩ := File.of_opened here.1
  exact ⟨s, t, u, v, mounted, ran, last, denied, holds, start, within, by decide +kernel, here.2⟩

end DiskFs.Threads

end Tacos.Fs
