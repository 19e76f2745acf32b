/- GID: Tacos/Fs/Exposed
   generality: I
   source: src/fs/disk/inode.rs
   digest: What a file that becomes longer shows in its new part. -/

import Tacos.Fs.Growth
import Tacos.Fs.Handles

set_option autoImplicit false
set_option relaxedAutoImplicit false

namespace Tacos.Fs

open Tacos.Lib.Exec Tacos.Lib.Run FreeMap Inode
open DiskFs (after after_ok after_err after_halt)

/-- What lies on the disk where a file that is to have `n` bytes will have its `k`-th one: in its
own sectors, or in those that the free map has for it. -/
def lyingByte (s : Sys) (i : Inode) (n k : Nat) : UInt8 :=
  if k / 512 < i.sectors then fileByte s.disk i.data.start k else fileByte s.disk
    (grownStart s.freeMap i n) k

/-- The bytes of a file that it did not have before are zero, but for those in some range. -/
def ZerosOutside (s t : Sys) (id off cnt : Nat) : Prop :=
  ∀ k, (s.inodes id).data.len ≤ k → k < (t.inodes id).data.len →
    ¬(off ≤ k ∧ k < off + cnt) → t.byte id k = 0

/-- If there is room for `n` bytes, zeros lie where the file will have its new bytes, but for
those in some range. -/
def VacantOutside (s : Sys) (i : Inode) (n off cnt : Nat) : Prop :=
  ¬Overruns s.freeMap i n → Accommodates s.freeMap i n →
    ∀ k, i.data.len ≤ k → k < n → ¬(off ≤ k ∧ k < off + cnt) → lyingByte s i n k = 0

variable {slots : Slots} {s t : Sys} {x id n : Nat}

/-- Nothing is written when a file becomes longer, so that it shows what was there. -/
theorem Resized.byte_eq_lying (change : Resized s t id n) {k : Nat} (hk : k < n) :
    t.byte id k = lyingByte s (s.inodes id) n k := by
  rw [lyingByte]
  by_cases old : k / 512 < (s.inodes id).sectors
  · rw [if_pos old]
    exact fileByte_congr (change.content _ old)
  · rw [if_neg old, ← change.start]
    refine fileByte_congr (change.fresh _ (by omega) ?_)
    rw [Inode.sectors, change.total]
    omega

theorem resize_zeros_iff (sound : Sound slots s) (opened : slots x = some (.opened id))
    (idle : s.held = [])
    (size : Nat) : (∀ t, after (Inode.resize id size) s = some t → ZerosOutside s t id 0 0) ↔
      VacantOutside s (s.inodes id) (size % 2 ^ 32) 0 0 := by
  obtain ⟨u, done, change, inside, place⟩ | ⟨failed, -, full⟩ | ⟨h, stopped, past⟩ :=
    resize_outcomes sound opened idle size
  · rw [after_ok done]
    constructor
    · intro zeros _ _ k low high out
      rw [← change.byte_eq_lying high]
      exact zeros u rfl k low (change.len ▸ high) out
    · rintro vacant t ⟨⟩ k low high out
      rw [change.len] at high
      rw [change.byte_eq_lying high]
      exact vacant inside place k low high out
  · rw [after_err failed]
    constructor
    · intro _ _ place
      exact absurd place full
    · rintro - t ⟨⟩ k low high -
      omega
  · rw [after_halt stopped]
    constructor
    · intro _ inside
      exact absurd past inside
    · rintro - t ⟨⟩

/-- A byte that a write does not cover is as the change of length left it. -/
private theorem wrote_byte {off : Nat} {bytes : List UInt8} {cnt k : Nat}
    (short : bytes.length ≤ cnt)
    (out : ¬(off ≤ k ∧ k < off + cnt)) :
    (s.wrote (s.inodes id).data.start off bytes).byte id k = s.byte id k := by
  change fileByte (overwrite s.disk (s.inodes id).data.start off bytes)
    (s.inodes id).data.start k = _
  rw [fileByte_overwrite, if_neg (by omega)]
  rfl

theorem write_zeros_iff (sound : Sound slots s) (opened : slots x = some (.opened id))
    (idle : s.held = [])
    (buf : Slice) {off : Nat} (fits : off + buf.bytes.length < 2 ^ 64) :
    (∀ t, after (writeAt id buf off) s = some t → ZerosOutside s t id off buf.bytes.length) ↔
      (s.inodes id).desc.denyWrite = 0 →
        VacantOutside s (s.inodes id) (writeLen (s.inodes id) buf off) off buf.bytes.length := by
  have free : ∀ l, l ∉ s.held := by simp [idle]
  have longer : (s.inodes id).data.len < off + buf.bytes.length →
      (off + buf.bytes.length) % 2 ^ 32 = writeLen (s.inodes id) buf off := fun h => (if_pos h).symm
  have unchanged : ∀ t, some s = some t → ZerosOutside s t id off buf.bytes.length := by
    rintro t ⟨⟩ k low high -
    omega
  obtain ⟨e, failed, denied | ⟨grow, full, inside⟩⟩ |
    ⟨h, stopped, allowed, huge | ⟨grow, -, past⟩⟩ |
      ⟨allowed, u, change, ends⟩ := writeAt_ends (sound.settled opened) (free _)
      (free _) (free _) buf off
  · rw [after_err failed]
    refine ⟨fun _ allowed => ?_, fun _ => unchanged⟩
    omega
  · rw [after_err failed]
    rw [longer grow] at full inside
    exact ⟨fun _ _ _ place => absurd ((grants_iff _ _ _).mpr ⟨inside, place⟩) full,
      fun _ => unchanged⟩
  · omega
  · rw [after_halt stopped]
    rw [longer grow] at past
    exact ⟨fun _ _ inside => absurd past inside, fun _ t ht => nomatch ht⟩
  obtain ⟨inside, place⟩ := (grants_iff _ _ _).mp change.granted
  -- Whether all of the buffer is written or a part, the other bytes are as the growth left them.
  have written : ∀ bytes : List UInt8, bytes.length ≤ buf.bytes.length →
      ((∀ t, some (u.wrote (u.inodes id).data.start off bytes) = some t →
          ZerosOutside s t id off buf.bytes.length) ↔
        ((s.inodes id).desc.denyWrite = 0 →
          VacantOutside s (s.inodes id) (writeLen (s.inodes id) buf off) off
          buf.bytes.length)) := by
    intro bytes short
    constructor
    · intro zeros _ _ _ k low high out
      rw [← change.byte_eq_lying high, ← wrote_byte short out]
      exact zeros _ rfl k low (change.len ▸ high) out
    · rintro vacant t ⟨⟩ k low high out
      have bound : k < writeLen (s.inodes id) buf off := change.len ▸ high
      rw [wrote_byte short out, change.byte_eq_lying bound]
      exact vacant allowed inside place k low bound out
  obtain ⟨done, -⟩ | ⟨m, hm, failed, -⟩ := ends
  · rw [after_ok done]
    apply written
    rw [List.length_take, List.drop_zero]
    omega
  · rw [after_err failed]
    apply written
    rw [List.length_take, List.drop_zero]
    omega

/-- After any run from a fresh disk, a change of length and a write show zeros in the new part of
the file, as far as the buffer does not cover it, exactly when zeros lie there already. -/
theorem new_bytes_zero_iff {capacity : Nat} {ops : List Op} {st st₀ : Store} (blank : Blank s)
    (mounted : Store.mount capacity s = some st₀) (ran : run Store.next st₀ ops = some st)
    (opened : st.slots x = some (.opened id)) :
    (∀ size, (∀ t, after (Inode.resize id size) st.sys = some t → ZerosOutside st.sys t id 0 0) ↔
        VacantOutside st.sys (st.sys.inodes id) (size % 2 ^ 32) 0 0) ∧
      ∀ (buf : Slice) (off : Nat), off + buf.bytes.length < 2 ^ 64 →
        ((∀ t, after (writeAt id buf off) st.sys = some t →
          ZerosOutside st.sys t id off buf.bytes.length) ↔
          ((st.sys.inodes id).desc.denyWrite = 0 →
            VacantOutside st.sys (st.sys.inodes id) (writeLen (st.sys.inodes id) buf off) off
              buf.bytes.length)) := by
  have inv := Store.run_inv (Store.mount_inv blank mounted) ran
  exact ⟨resize_zeros_iff inv.sound opened inv.idle, fun buf _ fits =>
    write_zeros_iff inv.sound opened inv.idle buf fits⟩

/-- A new file on a fresh disk shows zeros. -/
theorem first_bytes_zero : ∃ st, fromEmpty 64 [.create 0] = some st ∧
    ∀ t, after (Inode.resize 2 3) st.sys = some t → ZerosOutside st.sys t 2 0 0 := by
  have computed : ((fromEmpty 64 [.create 0]).any fun st =>
      decide (st.slots 11 = some (.opened 2) ∧ ∀ k < 3,
        lyingByte st.sys (st.sys.inodes 2) 3 k = 0)) = true := by
    decide +kernel
  obtain ⟨st, made, facts⟩ := (Option.any_eq_true _ _).mp computed
  obtain ⟨opened, zeros⟩ := of_decide_eq_true facts
  obtain ⟨st₀, mounted, ran⟩ := Option.bind_eq_some_iff.mp made
  refine ⟨st, made, ((new_bytes_zero_iff Store.blank_emptyDisk mounted ran opened).1 3).mpr ?_⟩
  intro _ _ k _ high _
  exact zeros k high

/-- A byte that was cut off comes back. -/
theorem cut_byte_shown : ¬∀ (capacity : Nat) (s : Sys) (st₀ st : Store) (ops :
    List Op) (x id : Nat), Blank s →
    Store.mount capacity s = some st₀ → run Store.next st₀ ops = some st →
      st.slots x = some (.opened id) →
      ∀ size t, Inode.resize id size st.sys = .ok () t → ZerosOutside st.sys t id 0 0 := by
  intro promised
  have computed : ((fromEmpty 64 [.create 0, .write 11 (Store.kernelBytes [7]) 0, .resize 11 0]).any
    fun st =>
      decide (st.slots 11 = some (.opened 2) ∧ (st.sys.inodes 2).data.len = 0 ∧
        ¬Overruns st.sys.freeMap (st.sys.inodes 2) 1 ∧
        1 ≤ (st.sys.inodes 2).sectors ∧ lyingByte st.sys (st.sys.inodes 2) 1 0 = 7)) = true := by
    decide +kernel
  obtain ⟨st, made, facts⟩ := (Option.any_eq_true _ _).mp computed
  obtain ⟨opened, empty, inside, enough, lying⟩ := of_decide_eq_true facts
  obtain ⟨st₀, mounted, ran⟩ := Option.bind_eq_some_iff.mp made
  have inv := fromEmpty_inv made
  obtain ⟨t, done, change, -⟩ | ⟨-, -, full⟩ | ⟨h, -, past⟩ :=
    resize_outcomes inv.sound opened inv.idle 1
  · have zeros := promised _ _ st₀ st _ 11 2 Store.blank_emptyDisk mounted ran opened 1 t done
    have shown := zeros 0 (by omega) (by rw [change.len]; decide) (by omega)
    rw [change.byte_eq_lying (by decide), show 1 % 2 ^ 32 = 1 from rfl, lying] at shown
    cases shown
  · exact full fun needed => absurd needed (by omega)
  · exact inside past

end Tacos.Fs
