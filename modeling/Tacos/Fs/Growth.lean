/- GID: Tacos/Fs/Growth
   generality: I
   source: src/fs/disk/inode.rs, src/fs/disk/free_map.rs
   digest: When a file can have another length, and what a call that changes it comes to. -/

import Tacos.Fs.Content

set_option autoImplicit false
set_option relaxedAutoImplicit false

namespace Tacos.Fs

open Tacos.Lib.Exec Tacos.Lib.Run FreeMap Inode

/-- There are free sectors for a file that needs more of them to have `n` bytes: right after it, or
for all of it before the last sector of the disk. -/
def Accommodates (m : FreeMap) (i : Inode) (n : Nat) : Prop :=
  i.sectors < (n + 511) / 512 →
    Room m ((n + 511) / 512 - i.sectors) (i.data.start + i.sectors) ∨
      ∃ start, start + (n + 511) / 512 < m.size ∧ Room m ((n + 511) / 512) start

/-- The free map gives the sectors if they are there and the search for them stays on the disk. -/
theorem grants_iff (m : FreeMap) (i : Inode) (n : Nat) :
    Grants m i n ↔ ¬Overruns m i n ∧ Accommodates m i n := by
  by_cases more : i.sectors < (n + 511) / 512
  · have longer : i.total < n := by
      rw [Inode.sectors] at more
      omega
    obtain ⟨m', got, free, -, inside⟩ | ⟨refused, inside, y, hy, used⟩ | ⟨⟨h, stopped⟩, past⟩ :=
      inPlaceAlloc_cases m (i.data.start + i.sectors) (Nat.sub_pos_of_lt more)
    · constructor
      · intro _
        have last := (free (i.data.start + i.sectors + ((n + 511) / 512 - i.sectors - 1))
          ⟨by omega, by omega⟩).1
        exact ⟨fun overruns => inside overruns.2, fun _ =>
          .inl ⟨by omega, fun y hy => (free y hy).2⟩⟩
      · intro _ _
        exact .inl ⟨m', got⟩
    · have pos : 0 < (n + 511) / 512 := by omega
      constructor
      · intro grants
        refine ⟨fun overruns => inside overruns.2, fun _ => .inr ?_⟩
        obtain ⟨m', got⟩ | ⟨-, start, m', got⟩ := grants longer
        · rw [refused] at got
          cases got
        obtain ⟨start', n', got', bound, free, -⟩ | ⟨failed, -⟩ := alloc_cases m pos
        · exact ⟨start', bound, le_of_lt bound, free⟩
        · rw [failed] at got
          cases got
      · rintro ⟨-, place⟩ _
        refine .inr ⟨refused, ?_⟩
        obtain room | ⟨start, bound, room⟩ := place more
        · rw [room.2 y hy] at used
          cases used
        obtain ⟨start', n', got, -⟩ | ⟨-, tried⟩ := alloc_cases m pos
        · exact ⟨start', n', got⟩
        · obtain ⟨z, hz, used⟩ := tried start bound
          rw [room.2 z hz] at used
          cases used
    · constructor
      · intro grants
        obtain ⟨m', got⟩ | ⟨got, -⟩ := grants longer
        · rw [stopped] at got
          cases got
        · rw [stopped] at got
          cases got
      · rintro ⟨inside, -⟩
        exact absurd ⟨more, past⟩ inside
  · constructor
    · intro _
      exact ⟨fun overruns => more overruns.1, fun needed => absurd needed more⟩
    · intro _ longer
      have none : (n + 511) / 512 - i.sectors = 0 := by omega
      rw [none]
      exact .inl ⟨m, rfl⟩

variable {slots : Slots} {s : Sys} {x id : Nat}

/-- A call to change the length works, fails without a change or stops the machine, each for its
own reason. -/
theorem resize_outcomes (sound : Sound slots s) (opened : slots x = some (.opened id))
    (idle : s.held = [])
    (size : Nat) :
    (∃ t, Inode.resize id size s = .ok () t ∧ Resized s t id (size % 2 ^ 32) ∧
        ¬Overruns s.freeMap (s.inodes id) (size % 2 ^ 32) ∧
          Accommodates s.freeMap (s.inodes id) (size % 2 ^ 32)) ∨
      (Inode.resize id size s = .err .diskSectorAllocFail s ∧
        ¬Overruns s.freeMap (s.inodes id) (size % 2 ^ 32) ∧
          ¬Accommodates s.freeMap (s.inodes id) (size % 2 ^ 32)) ∨
        ∃ h, Inode.resize id size s = .halt h ∧
          Overruns s.freeMap (s.inodes id) (size % 2 ^ 32) := by
  have free : ∀ l, l ∉ s.held := by simp [idle]
  obtain ⟨t, done, change⟩ | ⟨failed, full, inside⟩ | ⟨h, stopped, -, overruns⟩ :=
    resize_ends (sound.settled opened) (free _) (free _) (free _) size
  · exact .inl ⟨t, done, change, (grants_iff _ _ _).mp change.granted⟩
  · exact .inr (.inl ⟨failed, inside, fun place => full ((grants_iff _ _ _).mpr ⟨inside, place⟩)⟩)
  · exact .inr (.inr ⟨h, stopped, overruns⟩)

/-- A file gets its new length or nothing is changed, unless the search for sectors right after it
runs off the end of the disk. -/
theorem resize_succeeds_or_keeps_iff (sound : Sound slots s) (opened : slots x = some (.opened id))
    (idle : s.held = []) {size : Nat} (small : size < 2 ^ 32) :
    ((∃ t, Inode.resize id size s = .ok () t ∧ (t.inodes id).data.len = size) ∨
        Inode.resize id size s = .err .diskSectorAllocFail s) ↔
      ¬Overruns s.freeMap (s.inodes id) size := by
  have outcomes := resize_outcomes sound opened idle size
  rw [Nat.mod_eq_of_lt small] at outcomes
  obtain ⟨t, done, change, inside, -⟩ | ⟨failed, inside, -⟩ | ⟨h, stopped, overruns⟩ := outcomes
  · exact ⟨fun _ => inside, fun _ => .inl ⟨t, done, change.len⟩⟩
  · exact ⟨fun _ => inside, fun _ => .inr failed⟩
  · constructor
    · rintro (⟨t, done, -⟩ | failed)
      · rw [stopped] at done
        cases done
      · rw [stopped] at failed
        cases failed
    · intro inside
      exact absurd overruns inside

instance (m : FreeMap) (start cnt : Nat) : Decidable (PastEnd m start cnt) :=
  inferInstanceAs (Decidable (_ ∨ _))

instance (m : FreeMap) (i : Inode) (n : Nat) : Decidable (Overruns m i n) :=
  inferInstanceAs (Decidable (_ ∧ _))

def fromEmpty (capacity : Nat) (ops : List Op) : Option Store :=
  (Store.mount capacity Store.emptyDisk).bind fun st => run Store.next st ops

theorem fromEmpty_inv {capacity : Nat} {ops : List Op} {st : Store}
    (made : fromEmpty capacity ops = some st) :
    st.Inv := by
  obtain ⟨st₀, mounted, ran⟩ := Option.bind_eq_some_iff.mp made
  exact Store.run_inv (Store.mount_inv Store.blank_emptyDisk mounted) ran

/-- A file of one sector gets a second one. -/
theorem short_file_grows : ∃ st, fromEmpty 64 [.create 0, .resize 11 512] = some st ∧
    ((∃ t, Inode.resize 2 600 st.sys = .ok () t ∧ (t.inodes 2).data.len = 600) ∨
      Inode.resize 2 600 st.sys = .err .diskSectorAllocFail st.sys) := by
  have computed : ((fromEmpty 64 [.create 0, .resize 11 512]).any fun st =>
      decide (st.slots 11 = some (.opened 2) ∧ ¬Overruns st.sys.freeMap
        (st.sys.inodes 2) 600)) = true := by
    decide +kernel
  obtain ⟨st, made, facts⟩ := (Option.any_eq_true _ _).mp computed
  obtain ⟨opened, inside⟩ := of_decide_eq_true facts
  have inv := fromEmpty_inv made
  exact ⟨st, made, (resize_succeeds_or_keeps_iff inv.sound opened inv.idle
    (by norm_num)).mpr inside⟩

/-- A file of two sectors, with two free ones behind it up to the end of the disk, cannot be asked
to have five. -/
theorem last_file_stops : ¬∀ (slots : Slots) (s : Sys) (x id size : Nat), Sound slots s →
    slots x = some (.opened id) → s.held = [] → size < 2 ^ 32 →
    (∃ t, Inode.resize id size s = .ok () t ∧ (t.inodes id).data.len = size) ∨
      Inode.resize id size s = .err .diskSectorAllocFail s := by
  intro promised
  have computed : ((fromEmpty 16 [.create 0, .resize 11 1024]).any fun st =>
      decide (st.slots 11 = some (.opened 2) ∧ Overruns st.sys.freeMap
        (st.sys.inodes 2) 2560)) = true := by
    decide +kernel
  obtain ⟨st, made, facts⟩ := (Option.any_eq_true _ _).mp computed
  obtain ⟨opened, past⟩ := of_decide_eq_true facts
  have inv := fromEmpty_inv made
  have outcomes := resize_outcomes inv.sound opened inv.idle 2560
  rw [Nat.mod_eq_of_lt (by norm_num)] at outcomes
  obtain ⟨t, -, -, inside, -⟩ | ⟨-, inside, -⟩ | ⟨h, stopped, -⟩ := outcomes
  · exact inside past
  · exact inside past
  · obtain ⟨t, done, -⟩ | failed := promised _ _ 11 2 2560 inv.sound opened inv.idle (by norm_num)
    · rw [stopped] at done
      cases done
    · rw [stopped] at failed
      cases failed

def Sys.byte (s : Sys) (id k : Nat) : UInt8 := fileByte s.disk (s.inodes id).data.start k

/-- The file has the length and the bytes that it had. -/
def SameFile (s t : Sys) (id : Nat) : Prop :=
  (t.inodes id).data.len = (s.inodes id).data.len ∧ ∀ k < (s.inodes id).data.len,
    t.byte id k = s.byte id k

/-- A change of length comes back with the length that was asked for, or fails without a change. -/
def ResizeHonest (s : Sys) (id size : Nat) : Outcome Sys OsError Halt Unit → Prop
  | .ok _ t => (t.inodes id).data.len = size
  | .err _ t => SameFile s t id
  | .halt _ => False

/-- A write comes back with the whole buffer written, the file long enough for it and no other byte
lost, or fails without a change. -/
def WriteHonest (s : Sys) (id : Nat) (buf : Slice) (off : Nat) : Outcome Sys OsError Halt Nat → Prop
  | .ok n t => n = buf.bytes.length ∧ (t.inodes id).data.len =
    max (s.inodes id).data.len (off + n) ∧
      ∀ k < (s.inodes id).data.len, ¬(off ≤ k ∧ k < off + n) → t.byte id k = s.byte id k
  | .err _ t => SameFile s t id
  | .halt _ => False

/-- The search for sectors stays on the disk, and the new length is a `u32` or there is no room. -/
def ResizeSafe (m : FreeMap) (i : Inode) (size : Nat) : Prop :=
  ¬Overruns m i (size % 2 ^ 32) ∧ (size < 2 ^ 32 ∨ ¬Accommodates m i (size % 2 ^ 32))

/-- The first whole sector of the buffer that cannot be handed to the device starts at its `p`-th
byte. -/
structure FirstBlocked (len off : Nat) (buf : Slice) (p : Nat) : Prop where
  blocked : Blocked len off buf 0 p
  first : ∀ q < p, ¬Blocked len off buf 0 q

/-- Writes are denied, or the search for sectors stays on the disk, and if there is room the buffer
can be read and the end of the write is a `u32`, or what is written before the first sector that
cannot be read is what the file has there, and its length comes out as it was. -/
def WriteSafe (s : Sys) (i : Inode) (buf : Slice) (off : Nat) : Prop :=
  0 < i.desc.denyWrite ∨ ¬Overruns s.freeMap i (writeLen i buf off) ∧
    (Accommodates s.freeMap i (writeLen i buf off) →
    (∀ p, ¬Blocked (writeLen i buf off) off buf 0 p) ∧ writeLen i buf off = max i.data.len
    (off + buf.bytes.length) ∨
      ∃ p, FirstBlocked (writeLen i buf off) off buf p ∧ writeLen i buf off = i.data.len ∧
        ∀ k < p, buf.bytes.getD k 0 = fileByte s.disk i.data.start (off + k))

theorem resizeHonest_iff (sound : Sound slots s) (opened : slots x = some (.opened id))
    (idle : s.held = [])
    (size : Nat) : ResizeHonest s id size (Inode.resize id size s) ↔
      ResizeSafe s.freeMap (s.inodes id) size := by
  obtain ⟨t, done, change, inside, place⟩ | ⟨failed, inside, full⟩ | ⟨h, stopped, past⟩ :=
    resize_outcomes sound opened idle size
  · rw [done, ResizeHonest, change.len]
    constructor
    · intro same
      exact ⟨inside, .inl (by omega)⟩
    · rintro ⟨-, small | full⟩
      · exact Nat.mod_eq_of_lt small
      · exact absurd place full
  · rw [failed]
    exact ⟨fun _ => ⟨inside, .inr full⟩, fun _ => ⟨rfl, fun _ _ => rfl⟩⟩
  · rw [stopped]
    exact ⟨False.elim, fun safe => safe.1 past⟩

/-- A byte of a file after its length was changed and bytes from `off` on were replaced. -/
theorem Resized.byte_wrote {t : Sys} {n k off : Nat} {bytes : List UInt8}
    (change : Resized s t id n)
    (hk : k < (s.inodes id).data.len) : (t.wrote (t.inodes id).data.start off bytes).byte id k =
      if off ≤ k ∧ k < off + bytes.length then bytes.getD (k - off) 0 else s.byte id k := by
  change fileByte (overwrite t.disk (t.inodes id).data.start off bytes)
    (t.inodes id).data.start k = _
  rw [fileByte_overwrite, change.byte hk]
  rfl

theorem writeHonest_iff (sound : Sound slots s) (opened : slots x = some (.opened id))
    (idle : s.held = [])
    (buf : Slice) {off : Nat} (fits : off + buf.bytes.length < 2 ^ 64) :
    WriteHonest s id buf off (writeAt id buf off s) ↔ WriteSafe s (s.inodes id) buf off := by
  have free : ∀ l, l ∉ s.held := by simp [idle]
  have longer : (s.inodes id).data.len < off + buf.bytes.length →
      (off + buf.bytes.length) % 2 ^ 32 = writeLen (s.inodes id) buf off := fun h => (if_pos h).symm
  obtain ⟨e, failed, denied | ⟨grow, full, inside⟩⟩ |
    ⟨h, stopped, allowed, huge | ⟨grow, -, past⟩⟩ |
      ⟨allowed, t, change, ends⟩ := writeAt_ends (sound.settled opened) (free _)
      (free _) (free _) buf off
  · rw [failed]
    exact ⟨fun _ => .inl denied, fun _ => ⟨rfl, fun _ _ => rfl⟩⟩
  · rw [failed]
    rw [longer grow] at full inside
    refine ⟨fun _ => .inr ⟨inside, fun place => ?_⟩, fun _ => ⟨rfl, fun _ _ => rfl⟩⟩
    exact absurd ((grants_iff _ _ _).mpr ⟨inside, place⟩) full
  · omega
  · rw [stopped]
    rw [longer grow] at past
    refine ⟨False.elim, ?_⟩
    rintro (denied | ⟨inside, -⟩)
    · omega
    · exact inside past
  -- The length was changed, and what is left of the condition is about the buffer.
  obtain ⟨inside, place⟩ := (grants_iff _ _ _).mp change.granted
  have safe : WriteSafe s (s.inodes id) buf off ↔
      (∀ p, ¬Blocked (writeLen (s.inodes id) buf off) off buf 0 p) ∧
          writeLen (s.inodes id) buf off = max (s.inodes id).data.len (off + buf.bytes.length) ∨
        ∃ p, FirstBlocked (writeLen (s.inodes id) buf off) off buf p ∧
          writeLen (s.inodes id) buf off = (s.inodes id).data.len ∧
            ∀ k < p, buf.bytes.getD k 0 = fileByte s.disk (s.inodes id).data.start (off + k) := by
    constructor
    · rintro (denied | ⟨-, served⟩)
      · omega
      · exact served place
    · intro served
      exact .inr ⟨inside, fun _ => served⟩
  rw [safe, ← change.len]
  obtain ⟨done, clear⟩ | ⟨m, hm, failed, blocked, before⟩ := ends
  · rw [done, Nat.zero_add, List.drop_zero]
    constructor
    · rintro ⟨whole, len, -⟩
      rw [whole] at len
      exact .inl ⟨clear, len⟩
    · rintro (⟨-, len⟩ | ⟨p, found, -⟩)
      · have whole : min ((t.inodes id).data.len - off) buf.bytes.length = buf.bytes.length := by
          omega
        rw [whole, List.take_length]
        refine ⟨rfl, len, fun k hk out => ?_⟩
        rw [change.byte_wrote hk, if_neg out]
      · exact absurd found.blocked (clear p)
  · rw [failed, List.drop_zero]
    rw [Nat.zero_add] at blocked before
    have size : (buf.bytes.take m).length = m := by
      rw [List.length_take]
      omega
    have byte : ∀ k < m, (buf.bytes.take m).getD k 0 = buf.bytes.getD k 0 := by
      intro k hk
      rw [List.getD_eq_getElem?_getD, List.getD_eq_getElem?_getD, List.getElem?_take_of_lt hk]
    constructor
    · rintro ⟨len, bytes⟩
      have same : (t.inodes id).data.len = (s.inodes id).data.len := len
      refine .inr ⟨m, ⟨blocked, before⟩, same, fun k hk => ?_⟩
      have kept := bytes (off + k) (by omega)
      rw [change.byte_wrote (by omega), size, if_pos ⟨by omega, by omega⟩,
        Nat.add_sub_cancel_left, byte k hk] at kept
      exact kept
    · rintro (⟨clear, -⟩ | ⟨p, found, len, bytes⟩)
      · exact absurd blocked (clear m)
      have here : p = m := by
        by_contra ne
        by_cases low : p < m
        · exact before p low found.blocked
        · exact found.first m (by omega) blocked
      subst here
      refine ⟨len, fun k hk => ?_⟩
      rw [change.byte_wrote hk, size]
      by_cases covered : off ≤ k ∧ k < off + p
      · rw [if_pos covered, byte _ (by omega), bytes _ (by omega), Nat.add_sub_cancel' covered.1]
        rfl
      · rw [if_neg covered]

/-- A change of length and a write keep to what was asked for, or fail without a change, exactly
when the search for sectors stays on the disk, a length that there is room for is a `u32`, and no
write stops halfway. -/
theorem length_never_cut_iff (sound : Sound slots s) (opened : slots x = some (.opened id))
    (idle : s.held = []) :
    (∀ size, ResizeHonest s id size (Inode.resize id size s) ↔
      ResizeSafe s.freeMap (s.inodes id) size) ∧
      ∀ (buf : Slice) (off : Nat), off + buf.bytes.length < 2 ^ 64 →
        (WriteHonest s id buf off (writeAt id buf off s) ↔ WriteSafe s (s.inodes id) buf off) :=
  ⟨resizeHonest_iff sound opened idle, fun buf _ fits => writeHonest_iff sound opened idle buf fits⟩

/-- A file of one sector is written beyond its end. -/
theorem sparse_write_honest : ∃ st, fromEmpty 64 [.create 0, .resize 11 512] = some st ∧
    WriteHonest st.sys 2 (Store.kernelBytes [7]) 600
      (writeAt 2 (Store.kernelBytes [7]) 600 st.sys) := by
  have computed : ((fromEmpty 64 [.create 0, .resize 11 512]).any fun st =>
      decide (st.slots 11 = some (.opened 2) ∧ ¬Overruns st.sys.freeMap (st.sys.inodes 2) 601 ∧
        (st.sys.inodes 2).data.len = 512)) = true := by
    decide +kernel
  obtain ⟨st, made, facts⟩ := (Option.any_eq_true _ _).mp computed
  obtain ⟨opened, inside, len⟩ := of_decide_eq_true facts
  have inv := fromEmpty_inv made
  have stop : writeLen (st.sys.inodes 2) (Store.kernelBytes [7]) 600 = 601 := by
    rw [writeLen, len]
    rfl
  refine ⟨st, made, ((length_never_cut_iff inv.sound opened inv.idle).2 _ 600
    (by decide)).mpr (.inr ?_)⟩
  rw [stop, len]
  refine ⟨inside, fun _ => .inl ⟨fun p blocked => ?_, rfl⟩⟩
  have whole : p + 512 ≤ 1 := blocked.whole
  omega

/-- A length of 2^32 is taken for 0. -/
theorem huge_length_cut : ¬∀ (slots : Slots) (s : Sys) (x id : Nat), Sound slots s →
    slots x = some (.opened id) →
    s.held = [] → (∀ size < 2 ^ 64, ResizeHonest s id size (Inode.resize id size s)) ∧
      ∀ (buf : Slice) (off : Nat), off + buf.bytes.length < 2 ^ 64 →
        WriteHonest s id buf off (writeAt id buf off s) := by
  intro promised
  have computed : ((fromEmpty 64 [.create 0]).any fun st =>
    decide (st.slots 11 = some (.opened 2))) = true := by
    decide +kernel
  obtain ⟨st, made, facts⟩ := (Option.any_eq_true _ _).mp computed
  have opened := of_decide_eq_true facts
  have inv := fromEmpty_inv made
  have honest := (promised _ _ 11 2 inv.sound opened inv.idle).1 (2 ^ 32) (by norm_num)
  -- No bytes need no sectors, so that the call comes back.
  obtain ⟨t, done, change, -⟩ | ⟨-, -, full⟩ | ⟨h, -, past⟩ :=
    resize_outcomes inv.sound opened inv.idle (2 ^ 32)
  · rw [done] at honest
    have len : (t.inodes 2).data.len = 2 ^ 32 := honest
    rw [change.len, Nat.mod_self] at len
    omega
  · exact full fun needed => by omega
  · have needed := past.1
    omega

end Tacos.Fs
