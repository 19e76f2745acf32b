/- GID: Tacos/Fs/Descriptor
   generality: I
   source: src/fs.rs, src/io.rs
   digest: Reading, writing and seeking through a descriptor on any vnode. -/

import Tacos.Fs.Inode

set_option autoImplicit false
set_option relaxedAutoImplicit false

namespace Tacos.Fs

open Tacos.Lib.Exec

inductive SeekFrom where
  | start (u : Nat)
  | fromEnd (i : Int)
  | current (i : Int)

/-- `n as isize`. -/
def asIsize (n : Nat) : Int := if n < 2 ^ 63 then n else n - 2 ^ 64

/-- A sum of two `isize` where it is one, at least zero, as a `usize`. -/
def sumIsize (a b : Int) : Option Nat :=
  if -2 ^ 63 ≤ a + b ∧ a + b < 2 ^ 63 then some (max (a + b) 0).toNat else none

/-- The position that a seek asks for, unless the sum overflows. -/
def SeekFrom.newPos (len cur : Nat) : SeekFrom → Option Nat
  | .start u => some u
  | .fromEnd i => sumIsize (asIsize len) i
  | .current i => sumIsize (asIsize cur) i

/-- `&buf[n..]`. -/
def Slice.drop (n : Nat) (buf : Slice) : Slice := ⟨buf.addr + n, buf.bytes.drop n, buf.pte⟩

theorem Slice.length_drop (n : Nat) (buf : Slice) :
    (buf.drop n).bytes.length = buf.bytes.length - n := List.length_drop

theorem Slice.InKernel.drop {buf : Slice} (kernel : buf.InKernel) (n : Nat) :
    (buf.drop n).InKernel := by
  intro i hi
  rw [length_drop] at hi
  have here := kernel (n + i) (by omega)
  rwa [← Nat.add_assoc] at here

/-- A vector in the kernel heap. Where it is makes no difference to a transfer of kernel bytes. -/
def File.vec (bytes : List UInt8) : Slice := ⟨vmOffset, bytes, fun _ => none⟩

/-- A descriptor on states `σ`: the cursor, and the operations of `Vnode` that it calls. -/
structure Descriptor (σ : Type) where
  pos : σ → Nat
  setPos : Nat → σ → σ
  readAt : Slice → Nat → Call σ OsError Halt (List UInt8)
  writeAt : Slice → Nat → Call σ OsError Halt Nat
  len : Call σ OsError Halt Nat

namespace Descriptor

variable {σ : Type} (d : Descriptor σ)

def getPos : Call σ OsError Halt Nat := fun s => .ok (d.pos s) s

/-- `Read::read` of a file; the result is what is copied to the buffer. -/
def read (buf : Slice) : Call σ OsError Halt (List UInt8) := do
  let pos ← d.getPos
  let bytes ← d.readAt buf pos
  Call.modify (d.setPos (pos + bytes.length))
  pure bytes

/-- `Write::write` of a file. -/
def write (buf : Slice) : Call σ OsError Halt Nat := do
  let pos ← d.getPos
  let cnt ← d.writeAt buf pos
  Call.modify (d.setPos (pos + cnt))
  pure cnt

def seek (pos : SeekFrom) : Call σ OsError Halt Nat := do
  let len ← d.len
  let cur ← d.getPos
  match pos.newPos len cur with
  | some newPos =>
    Call.modify (d.setPos newPos)
    pure newPos
  | none => Call.halt .overflow

def rewind : Call σ OsError Halt Unit := do
  let _ ← d.seek (.start 0)
  pure ()

def streamPosition : Call σ OsError Halt Nat := d.seek (.current 0)

/-- The loop of `read_exact`. Each round but the last takes at least one byte. -/
def readExactLoop : (fuel : Nat) → Slice → Call σ OsError Halt (List UInt8)
  | 0, _ => Call.halt .endless
  | fuel + 1, buf => do
    if buf.bytes.length = 0 then pure []
    else
      let bytes ← d.read buf
      if bytes.length = 0 then Call.throw .unexpectedEOF
      else
        let rest ← readExactLoop fuel (buf.drop bytes.length)
        pure (bytes ++ rest)

def readExact (buf : Slice) : Call σ OsError Halt (List UInt8) :=
  d.readExactLoop (buf.bytes.length + 1) buf

def readInto (size : Nat) : Call σ OsError Halt (List UInt8) :=
  d.readExact (File.vec (List.replicate size 0))

/-- The loop of `write_all`. -/
def writeAllLoop : (fuel : Nat) → Slice → Call σ OsError Halt Unit
  | 0, _ => Call.halt .endless
  | fuel + 1, buf => do
    if buf.bytes.length = 0 then pure ()
    else
      let n ← d.write buf
      if n = 0 then Call.throw .unexpectedEOF
      else writeAllLoop fuel (buf.drop n)

def writeAll (buf : Slice) : Call σ OsError Halt Unit := d.writeAllLoop (buf.bytes.length + 1) buf

def writeFrom (value : List UInt8) : Call σ OsError Halt Unit := d.writeAll (File.vec value)

variable {d} {s t u : σ} {buf : Slice} {bytes : List UInt8} {n : Nat} {e : OsError} {stop : Halt}

theorem read_ok (got : d.readAt buf (d.pos s) s = .ok bytes t) :
    d.read buf s = .ok bytes (d.setPos (d.pos s + bytes.length) t) := by
  have cursor : d.getPos s = .ok (d.pos s) s := rfl
  rw [read, Call.bind_ok cursor, Call.bind_ok got]
  rfl

theorem read_err (failed : d.readAt buf (d.pos s) s = .err e t) : d.read buf s = .err e t := by
  have cursor : d.getPos s = .ok (d.pos s) s := rfl
  rw [read, Call.bind_ok cursor, Call.bind_err failed]

theorem write_ok (put : d.writeAt buf (d.pos s) s = .ok n t) :
    d.write buf s = .ok n (d.setPos (d.pos s + n) t) := by
  have cursor : d.getPos s = .ok (d.pos s) s := rfl
  rw [write, Call.bind_ok cursor, Call.bind_ok put]
  rfl

theorem write_err (failed : d.writeAt buf (d.pos s) s = .err e t) : d.write buf s = .err e t := by
  have cursor : d.getPos s = .ok (d.pos s) s := rfl
  rw [write, Call.bind_ok cursor, Call.bind_err failed]

theorem write_halt (stops : d.writeAt buf (d.pos s) s = .halt stop) :
    d.write buf s = .halt stop := by
  have cursor : d.getPos s = .ok (d.pos s) s := rfl
  rw [write, Call.bind_ok cursor, Call.bind_halt stops]

theorem seek_eq (len : d.len s = .ok n s) (pos : SeekFrom) :
    d.seek pos s = match pos.newPos n (d.pos s) with
      | some p => .ok p (d.setPos p s)
      | none => .halt .overflow := by
  have cursor : d.getPos s = .ok (d.pos s) s := rfl
  rw [seek, Call.bind_ok len, Call.bind_ok cursor]
  cases pos.newPos n (d.pos s) with
  | some p => rfl
  | none => rfl

theorem rewind_ok (len : d.len s = .ok n s) : d.rewind s = .ok () (d.setPos 0 s) := by
  have sought : d.seek (.start 0) s = .ok 0 (d.setPos 0 s) := seek_eq len _
  rw [rewind, Call.bind_ok sought, Call.pure_apply]

theorem readExactLoop_empty (fuel : Nat) (empty : buf.bytes.length = 0) :
    d.readExactLoop (fuel + 1) buf s = .ok [] s := by
  rw [readExactLoop, if_pos empty, Call.pure_apply]

theorem readExactLoop_end (fuel : Nat) (some : 0 < buf.bytes.length)
    (done : d.read buf s = .ok [] t ∨ d.read buf s = .err .unexpectedEOF t) :
    d.readExactLoop (fuel + 1) buf s = .err .unexpectedEOF t := by
  rw [readExactLoop, if_neg some.ne']
  obtain nothing | failed := done
  · rw [Call.bind_ok nothing]
    rfl
  · rw [Call.bind_err failed]

theorem readExact_once (some : 0 < buf.bytes.length) (got : d.read buf s = .ok bytes t)
    (all : bytes.length = buf.bytes.length) : d.readExact buf s = .ok bytes t := by
  have rest : (buf.drop bytes.length).bytes.length = 0 := by
    rw [Slice.length_drop]
    omega
  obtain ⟨m, hm⟩ := Nat.exists_eq_add_of_lt some
  rw [Nat.zero_add] at hm
  rw [readExact, readExactLoop, if_neg some.ne', Call.bind_ok got, if_neg (by omega), hm,
    Call.bind_ok (readExactLoop_empty m rest), Call.pure_apply, List.append_nil]

/-- The first round takes what is left, and the second finds the file at its end. -/
theorem readExact_short (got : d.read buf s = .ok bytes t) (some : 0 < bytes.length)
    (short : bytes.length < buf.bytes.length)
    (done : d.read (buf.drop bytes.length) t = .ok [] u ∨
      d.read (buf.drop bytes.length) t = .err .unexpectedEOF u) :
    d.readExact buf s = .err .unexpectedEOF u := by
  have rest : 0 < (buf.drop bytes.length).bytes.length := by
    rw [Slice.length_drop]
    omega
  obtain ⟨m, hm⟩ := Nat.exists_eq_add_of_lt (some.trans short)
  rw [Nat.zero_add] at hm
  rw [readExact, readExactLoop, if_neg (by omega), Call.bind_ok got, if_neg some.ne', hm,
    Call.bind_err (readExactLoop_end m rest done)]

theorem writeAllLoop_empty (fuel : Nat) (empty : buf.bytes.length = 0) :
    d.writeAllLoop (fuel + 1) buf s = .ok () s := by
  rw [writeAllLoop, if_pos empty, Call.pure_apply]

theorem writeAll_once (some : 0 < buf.bytes.length)
    (put : d.write buf s = .ok buf.bytes.length t) : d.writeAll buf s = .ok () t := by
  have rest : (buf.drop buf.bytes.length).bytes.length = 0 := by
    rw [Slice.length_drop, Nat.sub_self]
  obtain ⟨m, hm⟩ := Nat.exists_eq_add_of_lt some
  rw [Nat.zero_add] at hm
  rw [writeAll, writeAllLoop, if_neg some.ne', Call.bind_ok put, if_neg some.ne']
  conv_lhs => rw [hm]
  exact writeAllLoop_empty m (hm ▸ rest)

theorem writeAll_err (some : 0 < buf.bytes.length) (failed : d.write buf s = .err e t) :
    d.writeAll buf s = .err e t := by
  rw [writeAll, writeAllLoop, if_neg some.ne', Call.bind_err failed]

end Descriptor

end Tacos.Fs
