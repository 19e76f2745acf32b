/- GID: Tacos/Fs/Seek
   generality: G
   source: src/io.rs, src/fs.rs
   digest: Which seeks set the cursor to the position that they name. -/

import Tacos.Fs.InMem

set_option autoImplicit false
set_option relaxedAutoImplicit false

namespace Tacos.Fs

open Tacos.Lib.Exec Tacos.Lib.InStep Tacos.Lib.Run

namespace SeekFrom

/-- The argument is a `usize` or an `isize`. -/
def InRange : SeekFrom → Prop
  | .start u => u < 2 ^ 64
  | .fromEnd i | .current i => -2 ^ 63 ≤ i ∧ i < 2 ^ 63

instance : ∀ pos : SeekFrom, Decidable pos.InRange
  | .start _ => inferInstanceAs (Decidable (_ < _))
  | .fromEnd _ | .current _ => inferInstanceAs (Decidable (_ ∧ _))

/-- The position that is named, as a sum of integers, and at least zero. -/
def exact (len cur : Nat) : SeekFrom → Nat
  | .start u => u
  | .fromEnd i => (len + i).toNat
  | .current i => (cur + i).toNat

/-- The base and the sum fit in an `isize`, as far as from above. -/
def Signed (len cur : Nat) : SeekFrom → Prop
  | .start _ => True
  | .fromEnd i => len < 2 ^ 63 ∧ len + i < 2 ^ 63
  | .current i => cur < 2 ^ 63 ∧ cur + i < 2 ^ 63

/-- A base from 2^63 on is cast to a negative one, which no offset brings back to the right place.
-/
theorem sumIsize_eq_iff {n : Nat} {i : Int} (small : n < 2 ^ 64)
    (range : -2 ^ 63 ≤ i ∧ i < 2 ^ 63) :
    sumIsize (asIsize n) i = some (n + i).toNat ↔ n < 2 ^ 63 ∧ n + i < 2 ^ 63 := by
  rw [sumIsize, asIsize]
  by_cases low : n < 2 ^ 63
  · rw [if_pos low]
    by_cases sum : (n : Int) + i < 2 ^ 63
    · have both : -2 ^ 63 ≤ (n : Int) + i ∧ (n : Int) + i < 2 ^ 63 := ⟨by omega, sum⟩
      rw [if_pos both, Option.some.injEq]
      omega
    · rw [if_neg fun both => sum both.2]
      exact iff_of_false (Option.some_ne_none _).symm fun both => sum both.2
  · rw [if_neg low]
    refine iff_of_false ?_ fun both => low both.1
    split
    · rw [Option.some.injEq]
      omega
    · exact (Option.some_ne_none _).symm

theorem newPos_eq_iff {pos : SeekFrom} {len cur : Nat} (range : pos.InRange) (length : len < 2 ^ 64)
    (cursor : cur < 2 ^ 64) : pos.newPos len cur = some (pos.exact len cur) ↔
      pos.Signed len cur := by
  cases pos with
  | start u => exact iff_of_true rfl trivial
  | fromEnd i => exact sumIsize_eq_iff length range
  | current i => exact sumIsize_eq_iff cursor range

end SeekFrom

namespace Descriptor

variable {σ : Type} (d : Descriptor σ)

/-- `len` and `pos` do what the trait says, and both are a `usize`. -/
structure Usable (s : σ) (n : Nat) : Prop where
  len : d.len s = .ok n s
  moves : ∀ p, d.pos (d.setPos p s) = p
  length : n < 2 ^ 64
  cursor : d.pos s < 2 ^ 64

/-- A seek to a position that fits in a `usize` sets the cursor to this position and returns it. -/
def Exact (s : σ) : FileOp → Prop
  | .seek pos => ∀ n, d.Usable s n → pos.InRange → pos.exact n (d.pos s) < 2 ^ 64 →
    ∃ t, d.seek pos s = .ok (pos.exact n (d.pos s)) t ∧ d.pos t = pos.exact n (d.pos s)
  | _ => True

/-- The base of a seek to such a position, and the position, are below 2^63. -/
def Signed (s : σ) : FileOp → Prop
  | .seek pos => ∀ n, d.Usable s n → pos.InRange → pos.exact n (d.pos s) < 2 ^ 64 →
    pos.Signed n (d.pos s)
  | _ => True

variable {d}

theorem Usable.seek_eq_iff {s : σ} {n p : Nat} (usable : d.Usable s n) (pos : SeekFrom) :
    (∃ t, d.seek pos s = .ok p t ∧ d.pos t = p) ↔ pos.newPos n (d.pos s) = some p := by
  have cur : d.getPos s = .ok (d.pos s) s := rfl
  rw [seek, Call.bind_ok usable.len, Call.bind_ok cur]
  cases pos.newPos n (d.pos s) with
  | none =>
    refine iff_of_false ?_ (Option.some_ne_none _).symm
    rintro ⟨t, halted, -⟩
    cases halted
  | some q =>
    rw [Option.some.injEq]
    constructor
    · rintro ⟨t, went, -⟩
      cases went
      rfl
    · rintro rfl
      exact ⟨d.setPos q s, rfl, usable.moves q⟩

theorem exact_iff_signed {s : σ} {op : FileOp} : d.Exact s op ↔ d.Signed s op := by
  cases op with
  | seek pos =>
    refine forall_congr' fun n => forall_congr' fun usable => forall_congr'
      fun range => forall_congr' fun _ => ?_
    rw [usable.seek_eq_iff pos]
    exact SeekFrom.newPos_eq_iff range usable.length usable.cursor
  | readExact | readInto | writeAll | writeFrom => exact Iff.rfl

/-- All seeks of a sequence of seeks and transfers set the cursor to the exact position if and
only if each finds its base below 2^63 and names a position below 2^63; and asking for the
position leaves the cursor where it is if and only if it is below 2^63. -/
theorem cursor_exact_iff (d : Descriptor σ) (s : σ) (ops : List FileOp) :
    (Guarded (fun s op => after (d.perform op s)) d.Exact s ops ↔
      Guarded (fun s op => after (d.perform op s)) d.Signed s ops) ∧
      ∀ n, d.Usable s n →
        ((∃ t, d.streamPosition s = .ok (d.pos s) t ∧ d.pos t = d.pos s) ↔ d.pos s < 2 ^ 63) := by
  refine ⟨⟨Guarded.imp fun _ _ => exact_iff_signed.mp, Guarded.imp fun _ _ => exact_iff_signed.mpr⟩,
    fun n usable => ?_⟩
  have same : SeekFrom.exact n (d.pos s) (.current 0) = d.pos s := by
    rw [SeekFrom.exact, Int.add_zero, Int.toNat_natCast]
  have range : SeekFrom.InRange (.current 0) := by decide
  have goes := SeekFrom.newPos_eq_iff range usable.length usable.cursor
  rw [same] at goes
  rw [streamPosition, usable.seek_eq_iff, goes, SeekFrom.Signed]
  omega

end Descriptor

theorem MemFs.usable {m : MemFile} (length : m.buf.length < 2 ^ 64) (cursor : m.pos < 2 ^ 64) :
    MemFs.descriptor.Usable m m.buf.length := ⟨rfl, fun _ => rfl, length, cursor⟩

theorem File.usable {s : Sys} {h : Nat} (ready : FileReady s h)
    (length : (s.inodeOf h).data.len < 2 ^ 64)
    (cursor : (s.file h).pos < 2 ^ 64) : (File.descriptor h).Usable s (s.inodeOf h).data.len :=
  ⟨lock_ok (t := { s with held := .inode (s.file h).vnode :: s.held }) ready.inode rfl rfl,
    ready.pos_setPos, length,
    cursor⟩

instance (len cur : Nat) : ∀ pos : SeekFrom, Decidable (pos.Signed len cur)
  | .start _ => inferInstanceAs (Decidable True)
  | .fromEnd _ | .current _ => inferInstanceAs (Decidable (_ ∧ _))

/-- The bases and positions of the seeks of a file in memory are below 2^63. -/
def MemFs.Low (m : MemFile) : FileOp → Prop
  | .seek pos => pos.Signed m.buf.length m.pos
  | _ => True

instance (m : MemFile) : ∀ op : FileOp, Decidable (MemFs.Low m op)
  | .seek _ => inferInstanceAs (Decidable (SeekFrom.Signed _ _ _))
  | .readExact _ | .readInto _ | .writeAll _ | .writeFrom _ => inferInstanceAs (Decidable True)

theorem MemFs.Low.signed {m : MemFile} {op : FileOp} (low : MemFs.Low m op) :
    MemFs.descriptor.Signed m op := by
  cases op with
  | seek pos =>
    intro n usable _ _
    cases usable.len
    exact low
  | readExact | readInto | writeAll | writeFrom => trivial

/-- Seeks and transfers over a file of two bytes, from a cursor behind its end. -/
theorem stream_position_at_five :
    Guarded (fun s op => after (MemFs.descriptor.perform op s))
      MemFs.descriptor.Exact ⟨[6, 7], 5⟩
      [.seek (.fromEnd (-1)), .readInto 1, .seek (.current (-2)), .writeFrom [9],
        .seek (.fromEnd 40), .readInto 1] ∧
      ∃ t, MemFs.descriptor.streamPosition ⟨[6, 7], 5⟩ = .ok 5 t ∧ t.pos = 5 := by
  have usable : MemFs.descriptor.Usable ⟨[6, 7], 5⟩ 2 := MemFs.usable (by decide) (by decide)
  obtain ⟨exact, stays⟩ := Descriptor.cursor_exact_iff MemFs.descriptor ⟨[6, 7], 5⟩
    [.seek (.fromEnd (-1)), .readInto 1, .seek (.current (-2)), .writeFrom [9],
      .seek (.fromEnd 40), .readInto 1]
  have low : Guarded (fun s op => after (MemFs.descriptor.perform op s)) MemFs.Low ⟨[6, 7], 5⟩
      [.seek (.fromEnd (-1)), .readInto 1, .seek (.current (-2)), .writeFrom [9],
        .seek (.fromEnd 40), .readInto 1] := by decide
  exact ⟨exact.mpr (low.imp fun _ _ => MemFs.Low.signed), (stays 2 usable).mpr (by decide)⟩

/-- With the cursor at 2^63, asking for the position sets it to zero. -/
theorem stream_position_moves :
    MemFs.descriptor.perform (.seek (.start (2 ^ 63))) (MemFs.openFile [6]) =
      .ok (.moved (2 ^ 63)) ⟨[6], 2 ^ 63⟩ ∧
      MemFs.descriptor.streamPosition ⟨[6], 2 ^ 63⟩ = .ok 0 ⟨[6], 0⟩ ∧
      ¬Guarded (fun s op => after (MemFs.descriptor.perform op s))
        MemFs.descriptor.Exact (MemFs.openFile [6])
        [.seek (.start (2 ^ 63)), .seek (.current 0)] := by
  have first : MemFs.descriptor.perform (.seek (.start (2 ^ 63))) (MemFs.openFile [6]) =
      .ok (.moved (2 ^ 63)) ⟨[6], 2 ^ 63⟩ := rfl
  have second : MemFs.descriptor.seek (.current 0) ⟨[6], 2 ^ 63⟩ = .ok 0 ⟨[6], 0⟩ := rfl
  refine ⟨first, second, fun meets => ?_⟩
  have usable : MemFs.descriptor.Usable ⟨[6], 2 ^ 63⟩ 1 := MemFs.usable (by decide) (by decide)
  have here := (meets.2 ⟨[6], 2 ^ 63⟩ (congrArg after first)).1
  obtain ⟨t, went, -⟩ := here 1 usable (by decide) (by decide)
  rw [second] at went
  cases went

end Tacos.Fs
