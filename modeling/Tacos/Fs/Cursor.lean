/- GID: Tacos/Fs/Cursor
   generality: I
   source: src/fs.rs, src/io.rs
   digest: What seeks and exact transfers through a file descriptor do. -/

import Tacos.Fs.Resize

set_option autoImplicit false
set_option relaxedAutoImplicit false

namespace Tacos.Fs

open Tacos.Lib.Exec Tacos.Lib.Bytes Inode

variable {s : Sys} {h : Nat}

theorem lookup_setPos (s : Sys) (h pos k : Nat) : (s.setPos h pos).files.lookup k =
    if k = h then (s.files.lookup h).map fun f => { f with pos := pos } else s.files.lookup k := by
  rw [Sys.setPos]
  induction s.files with
  | nil => simp
  | cons p rest ih =>
    obtain ⟨n, f⟩ := p
    simp only [List.map_cons]
    by_cases hn : n = h
    · subst hn
      rw [if_pos rfl, List.lookup_cons, List.lookup_cons, List.lookup_cons, ih]
      by_cases hk : k = n
      · simp [hk]
      · have other : (k == n) = false := beq_false_of_ne hk
        simp [hk, other]
    · rw [if_neg hn, List.lookup_cons, List.lookup_cons, List.lookup_cons, ih]
      by_cases hk : k = h
      · subst hk
        have other : (k == n) = false := beq_false_of_ne (Ne.symm hn)
        simp [other]
      · simp [hk]

theorem file_setPos (pos : Nat) (known : (s.files.lookup h).isSome) :
    (s.setPos h pos).file h = { s.file h with pos := pos } := by
  obtain ⟨f, hf⟩ := Option.isSome_iff_exists.mp known
  rw [Sys.file, Sys.file, lookup_setPos, if_pos rfl, hf]
  rfl

theorem setPos_setPos (s : Sys) (h p q : Nat) : (s.setPos h p).setPos h q = s.setPos h q := by
  rw [Sys.setPos, Sys.setPos, Sys.setPos]
  congr 1
  rw [List.map_map]
  apply List.map_congr_left
  intro x _
  by_cases hx : x.1 = h
  · simp [hx]
  · simp [hx]

@[simp] theorem setPos_disk (s : Sys) (h p : Nat) : (s.setPos h p).disk = s.disk := rfl

@[simp] theorem setPos_inodes (s : Sys) (h p : Nat) : (s.setPos h p).inodes = s.inodes := rfl

@[simp] theorem setPos_held (s : Sys) (h p : Nat) : (s.setPos h p).held = s.held := rfl

@[simp] theorem wrote_inodes (s : Sys) (start off : Nat) (bytes : List UInt8) :
    (s.wrote start off bytes).inodes = s.inodes := rfl

@[simp] theorem wrote_file (s : Sys) (start off : Nat) (bytes : List UInt8) (h : Nat) :
    (s.wrote start off bytes).file h = s.file h := rfl

def Sys.inodeOf (s : Sys) (h : Nat) : Inode := s.inodes (s.file h).vnode

/-- A file descriptor that exists and whose inode the running thread may lock. -/
structure FileReady (s : Sys) (h : Nat) : Prop where
  known : (s.files.lookup h).isSome
  inode : .inode (s.file h).vnode ∉ s.held
  virtio : .virtio ∉ s.held

namespace FileReady

theorem setPos (ready : FileReady s h) (p : Nat) : FileReady (s.setPos h p) h := by
  have file := file_setPos p ready.known
  refine ⟨?_, ?_, ready.virtio⟩
  · rw [lookup_setPos, if_pos rfl, Option.isSome_map]
    exact ready.known
  · rw [file]
    exact ready.inode

theorem pos_setPos (ready : FileReady s h) (p : Nat) : ((s.setPos h p).file h).pos = p := by
  rw [file_setPos p ready.known]

theorem inodeOf_setPos (ready : FileReady s h) (p : Nat) :
    (s.setPos h p).inodeOf h = s.inodeOf h := by
  rw [Sys.inodeOf, file_setPos p ready.known]
  rfl

theorem wrote (ready : FileReady s h) (start off : Nat) (bytes : List UInt8) :
    FileReady (s.wrote start off bytes) h := ⟨ready.known, ready.inode, ready.virtio⟩

end FileReady

private theorem vmOffset_add {i : Nat} (hi : i < 2 ^ 38) : inKernelSpace (vmOffset + i) := by
  have base : vmOffset = 2 ^ 38 * (2 ^ 26 - 1) := by norm_num [vmOffset]
  rw [inKernelSpace, base, Nat.two_pow_add_eq_or_of_lt hi]
  apply Nat.eq_of_testBit_eq
  intro j
  rw [Nat.testBit_and, Nat.testBit_or]
  cases (2 ^ 38 * (2 ^ 26 - 1)).testBit j <;> simp

namespace File

theorem vec_inKernel {bytes : List UInt8} (small : bytes.length ≤ 2 ^ 38) :
    (vec bytes).InKernel :=
  fun _ hi => vmOffset_add (lt_of_lt_of_le hi small)

theorem vec_mapped {bytes : List UInt8} {n : Nat} (small : n ≤ 2 ^ 38) : (vec bytes).Mapped n :=
  fun _ hi => .inl (vmOffset_add (lt_of_lt_of_le hi small))

variable {t : Sys} {f : File} {buf : Slice} {bytes : List UInt8} {n : Nat} {e : OsError}
  {stop : Halt}

theorem read_ok (file : s.file h = f) (got : Inode.readAt f.vnode buf f.pos s = .ok bytes t) :
    read h buf s = .ok bytes (t.setPos h (f.pos + bytes.length)) := by
  subst file
  exact Descriptor.read_ok (d := descriptor h) got

theorem read_err (file : s.file h = f) (failed : Inode.readAt f.vnode buf f.pos s = .err e t) :
    read h buf s = .err e t := by
  subst file
  exact Descriptor.read_err (d := descriptor h) failed

theorem write_ok (file : s.file h = f) (put : Inode.writeAt f.vnode buf f.pos s = .ok n t) :
    write h buf s = .ok n (t.setPos h (f.pos + n)) := by
  subst file
  exact Descriptor.write_ok (d := descriptor h) put

theorem write_err (file : s.file h = f) (failed : Inode.writeAt f.vnode buf f.pos s = .err e t) :
    write h buf s = .err e t := by
  subst file
  exact Descriptor.write_err (d := descriptor h) failed

theorem write_halt (file : s.file h = f) (stops : Inode.writeAt f.vnode buf f.pos s = .halt stop) :
    write h buf s = .halt stop := by
  subst file
  exact Descriptor.write_halt (d := descriptor h) stops

theorem len_ok (file : s.file h = f) (free : .inode f.vnode ∉ s.held) :
    (descriptor h).len s = .ok (s.inodes f.vnode).data.len s := by
  subst file
  exact lock_ok (t := { s with held := .inode (s.file h).vnode :: s.held }) free rfl rfl

theorem seek_eq (file : s.file h = f) (free : .inode f.vnode ∉ s.held) (pos : SeekFrom) :
    seek h pos s = match pos.newPos (s.inodes f.vnode).data.len f.pos with
      | some p => .ok p (s.setPos h p)
      | none => .halt .overflow := by
  have sought := Descriptor.seek_eq (len_ok file free) pos
  have cursor : (descriptor h).pos s = f.pos := congrArg File.pos file
  rw [cursor] at sought
  exact sought

theorem read_eq (ready : FileReady s h) (kernel : buf.InKernel) :
    read h buf s =
      .ok (bytesFrom s.disk (s.inodeOf h).data.start (s.file h).pos
          (min ((s.inodeOf h).data.len - (s.file h).pos) buf.bytes.length))
        (s.setPos h ((s.file h).pos + min ((s.inodeOf h).data.len - (s.file h).pos)
          buf.bytes.length)) := by
  obtain got | ⟨-, p, blocked⟩ := readAt_cases ready.inode ready.virtio buf (s.file h).pos
  · have first := read_ok rfl got
    rw [length_bytesFrom] at first
    exact first
  · exact absurd kernel blocked.not_inKernel

/-- An exact read gives the bytes at the cursor, or moves the cursor to the end and fails. -/
theorem readInto_eq (ready : FileReady s h) (pos : 0 < n) (small : n ≤ 2 ^ 38) :
    readInto h n s =
      if (s.file h).pos + n ≤ (s.inodeOf h).data.len then
        .ok (bytesFrom s.disk (s.inodeOf h).data.start (s.file h).pos n)
          (s.setPos h ((s.file h).pos + n))
      else .err .unexpectedEOF (s.setPos h (max (s.file h).pos (s.inodeOf h).data.len)) := by
  have length : (vec (List.replicate n 0)).bytes.length = n := List.length_replicate
  have kernel : (vec (List.replicate n 0)).InKernel := vec_inKernel (length.trans_le small)
  have first := read_eq ready kernel
  rw [length] at first
  have some : 0 < (vec (List.replicate n 0)).bytes.length := length.symm ▸ pos
  rw [readInto, Descriptor.readInto]
  by_cases fits : (s.file h).pos + n ≤ (s.inodeOf h).data.len
  · have all : min ((s.inodeOf h).data.len - (s.file h).pos) n = n := by omega
    rw [all] at first
    rw [if_pos fits]
    exact Descriptor.readExact_once some first ((length_bytesFrom ..).trans length.symm)
  · rw [if_neg fits]
    by_cases none : min ((s.inodeOf h).data.len - (s.file h).pos) n = 0
    · have behind : max (s.file h).pos (s.inodeOf h).data.len = (s.file h).pos := by omega
      rw [none] at first
      rw [behind]
      exact Descriptor.readExactLoop_end _ some (.inl first)
    · have stop : (s.file h).pos + min ((s.inodeOf h).data.len - (s.file h).pos) n =
          (s.inodeOf h).data.len := by omega
      have behind : max (s.file h).pos (s.inodeOf h).data.len = (s.inodeOf h).data.len := by omega
      have ends : ∀ k, read h ((vec (List.replicate n 0)).drop k)
          (s.setPos h (s.inodeOf h).data.len) = .ok [] (s.setPos h (s.inodeOf h).data.len) := by
        intro k
        have second := read_eq (ready.setPos (s.inodeOf h).data.len) (kernel.drop k)
        rw [ready.pos_setPos, ready.inodeOf_setPos, Nat.sub_self, Nat.zero_min, Nat.add_zero,
          setPos_setPos] at second
        exact second
      rw [stop] at first
      rw [behind]
      refine Descriptor.readExact_short first ?_ ?_ (.inl ?_)
      · rw [length_bytesFrom]
        omega
      · rw [length_bytesFrom, length]
        omega
      · exact ends _

theorem write_eq (ready : FileReady s h) (small : bytes.length ≤ 2 ^ 38)
    (allowed : (s.inodeOf h).desc.denyWrite = 0)
    (fits : (s.file h).pos + bytes.length ≤ (s.inodeOf h).data.len)
    (len : (s.inodeOf h).data.len < 2 ^ 64) :
    write h (vec bytes) s = .ok bytes.length
      ((s.wrote (s.inodeOf h).data.start (s.file h).pos bytes).setPos h
        ((s.file h).pos + bytes.length)) := by
  have ends := writeAt_within ready.inode ready.virtio (vec bytes) (s.file h).pos allowed
    (Nat.not_lt.mpr fits) (lt_of_le_of_lt fits len)
  have all : min ((s.inodes (s.file h).vnode).data.len - (s.file h).pos) (vec bytes).bytes.length =
      bytes.length := by
    change min ((s.inodeOf h).data.len - (s.file h).pos) bytes.length = _
    omega
  rw [all] at ends
  obtain ⟨got, -⟩ | ⟨m, -, -, blocked, -⟩ := ends
  · have same : ((vec bytes).bytes.drop 0).take bytes.length = bytes := by
      rw [List.drop_zero]
      exact List.take_length
    rw [same, Nat.zero_add] at got
    exact write_ok rfl got
  · exact absurd (vec_inKernel small) blocked.not_inKernel

theorem writeFrom_eq (ready : FileReady s h) (bytes : List UInt8) (some : 0 < bytes.length)
    (small : bytes.length ≤ 2 ^ 38) (allowed : (s.inodeOf h).desc.denyWrite = 0)
    (fits : (s.file h).pos + bytes.length ≤ (s.inodeOf h).data.len)
    (len : (s.inodeOf h).data.len < 2 ^ 64) :
    writeFrom h bytes s = .ok ()
      ((s.wrote (s.inodeOf h).data.start (s.file h).pos bytes).setPos h
        ((s.file h).pos + bytes.length)) :=
  Descriptor.writeAll_once some (write_eq ready small allowed fits len)

theorem writeFrom_denied (ready : FileReady s h) (bytes : List UInt8) (some : 0 < bytes.length)
    (denied : 0 < (s.inodeOf h).desc.denyWrite) :
    writeFrom h bytes s = .err .invalidFileMode s :=
  Descriptor.writeAll_err some (write_err rfl (writeAt_denied ready.inode _ _ denied))

theorem seek_start (ready : FileReady s h) (u : Nat) :
    seek h (.start u) s = .ok u (s.setPos h u) := seek_eq rfl ready.inode (.start u)

theorem seek_back (ready : FileReady s h) (enough : n ≤ (s.file h).pos)
    (small : (s.file h).pos < 2 ^ 63) :
    seek h (.current (-n)) s = .ok ((s.file h).pos - n) (s.setPos h ((s.file h).pos - n)) := by
  have target : (SeekFrom.current (-n)).newPos (s.inodeOf h).data.len (s.file h).pos =
      some ((s.file h).pos - n) := by
    rw [SeekFrom.newPos, asIsize, if_pos small, sumIsize, if_pos (by omega)]
    congr 1
    omega
  have sought := seek_eq rfl ready.inode (.current (-n))
  rw [Sys.inodeOf] at target
  rw [target] at sought
  exact sought

theorem rewind_eq (ready : FileReady s h) : rewind h s = .ok () (s.setPos h 0) :=
  Descriptor.rewind_ok (len_ok rfl ready.inode)

end File

end Tacos.Fs
