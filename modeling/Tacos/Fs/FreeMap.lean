/- GID: Tacos/Fs/FreeMap
   generality: I
   source: src/fs/disk/free_map.rs
   digest: The sector bitmap: what its allocations mark and what a deallocation clears. -/

import Tacos.Fs.Base
import Mathlib.Data.Nat.Bitwise
import Mathlib.Tactic.IntervalCases

set_option autoImplicit false
set_option relaxedAutoImplicit false

namespace Tacos.Fs

open Tacos.Lib.Exec

/-- The bitmap of the sectors of a disk: bit `sector % 8` of byte `sector / 8` is set when the
sector is in use. -/
structure FreeMap where
  size : Nat
  bits : List UInt8
  length_bits : bits.length = (size + 7) / 8
  deriving DecidableEq

namespace FreeMap

/-- `1 << sector % 8`. -/
def mask (sector : Nat) : UInt8 := 1 <<< UInt8.ofNat (sector % 8)

def bit (m : FreeMap) (sector : Nat) : Bool := m.bits.getD (sector / 8) 0 &&& mask sector != 0

/-- Replace the byte that holds the bit of a sector. -/
def modifyByte (m : FreeMap) (sector : Nat) (f : UInt8 → UInt8) : FreeMap :=
  ⟨m.size, m.bits.modify (sector / 8) f, (List.length_modify ..).trans m.length_bits⟩

abbrev Op (α : Type) := Call FreeMap OsError Halt α

/-- `vec![0; bitmap_len_in_byte]`. -/
def zeros (size : Nat) : FreeMap :=
  ⟨size, List.replicate ((size + 7) / 8) 0, List.length_replicate ..⟩

def get (sector : Nat) : Op Bool := fun m =>
  if sector < m.size then .ok (m.bit sector) m else .halt .assertion

def set (sector : Nat) : Op Unit := fun m =>
  if sector < m.size then .ok () (m.modifyByte sector (· ||| mask sector)) else .halt .assertion

def reset (sector : Nat) : Op Unit := fun m =>
  if sector < m.size then .ok ()
    (m.modifyByte sector (· &&& ~~~(mask sector))) else .halt .assertion

/-- Test the bits of `cnt` sectors from `i` on, up to the first one that is set. -/
def isFree : Nat → Nat → Op Bool
  | _, 0 => pure true
  | i, cnt + 1 => do
    if ← get i then pure false else isFree (i + 1) cnt

/-- `for j in i..i + cnt { self.set(j) }`. -/
def setAll : Nat → Nat → Op Unit
  | _, 0 => pure ()
  | i, cnt + 1 => do
    set i
    setAll (i + 1) cnt

/-- The loop `'outer` of `alloc`, with `left` start sectors to go. The `i` that the inner loop
advances is a copy, so the next round starts one sector further on. -/
def allocFrom (cnt : Nat) : Nat → Nat → Op Nat
  | 0, _ => Call.throw .diskSectorAllocFail
  | left + 1, i => do
    if ← isFree i cnt then
      setAll i cnt
      pure i
    else allocFrom cnt left (i + 1)

def alloc (cnt : Nat) : Op Nat := do
  if cnt = 0 then pure 0
  else
    let m ← Call.get
    if m.size ≤ cnt then Call.throw .diskSectorAllocFail
    else allocFrom cnt (m.size - cnt) 0

def inPlaceAlloc (start cnt : Nat) : Op Unit := do
  if cnt = 0 then pure ()
  else
    let _ ← addU32 start cnt
    if ← isFree start cnt then setAll start cnt
    else Call.throw .diskSectorAllocFail

/-- The loop of `dealloc`. -/
def resetWhile : Nat → Nat → Op Unit
  | _, 0 => pure ()
  | i, cnt + 1 => do
    if ← get i then
      reset i
      resetWhile (i + 1) cnt
    else pure ()

def dealloc (sector cnt : Nat) : Op Unit := do
  let _ ← addU32 sector cnt
  resetWhile sector cnt

private theorem mask_toNat (sector : Nat) : (mask sector).toNat = 2 ^ (sector % 8) := by
  have small : sector % 8 < 8 := Nat.mod_lt _ (by decide)
  rw [mask]
  generalize sector % 8 = i at small
  interval_cases i <;> rfl

private theorem not_mask_testBit {sector j : Nat} (hj : j < 8) :
    (~~~(mask sector)).toNat.testBit j = decide (j ≠ sector % 8) := by
  have small : sector % 8 < 8 := Nat.mod_lt _ (by decide)
  rw [mask]
  generalize sector % 8 = i at small
  interval_cases i <;> interval_cases j <;> rfl

theorem bit_eq_testBit (m : FreeMap) (sector : Nat) :
    m.bit sector = (m.bits.getD (sector / 8) 0).toNat.testBit (sector % 8) := by
  rw [bit]
  generalize m.bits.getD (sector / 8) 0 = b
  have value : (b &&& mask sector).toNat =
    (b.toNat.testBit (sector % 8)).toNat * 2 ^ (sector % 8) := by
    rw [UInt8.toNat_and, mask_toNat, Nat.and_two_pow]
  have zero : b &&& mask sector = 0 ↔ (b &&& mask sector).toNat = 0 := by
    rw [← UInt8.toNat_inj]
    rfl
  rw [Bool.eq_iff_iff, bne_iff_ne, ne_eq, zero, value]
  cases b.toNat.testBit (sector % 8) <;> simp

private theorem bit_modifyByte (m : FreeMap) {sector : Nat} (f : UInt8 → UInt8) (y : Nat)
    (h : sector < m.size) :
    (m.modifyByte sector f).bit y =
      if y / 8 = sector / 8 then (f (m.bits.getD (y / 8) 0)).toNat.testBit
        (y % 8) else m.bit y := by
  have bound : sector / 8 < m.bits.length := by
    have := m.length_bits
    omega
  rw [bit_eq_testBit, bit_eq_testBit, modifyByte]
  simp only [List.getD_eq_getElem?_getD, List.getElem?_modify]
  by_cases same : y / 8 = sector / 8
  · simp only [same, if_true, List.getElem?_eq_getElem bound]
    rfl
  · simp only [same, Ne.symm same, if_false]
    rw [Option.map_eq_map, Option.map_id']

theorem bit_set {m : FreeMap} {sector : Nat} (h : sector < m.size) (y : Nat) :
    (m.modifyByte sector (· ||| mask sector)).bit y = (m.bit y || decide (y = sector)) := by
  rw [bit_modifyByte m _ y h]
  by_cases same : y / 8 = sector / 8
  · rw [if_pos same, UInt8.toNat_or, Nat.testBit_or, mask_toNat,
      Nat.testBit_two_pow, bit_eq_testBit]
    congr 2
    exact propext ⟨by omega, by omega⟩
  · rw [if_neg same, decide_eq_false (by omega), Bool.or_false]

theorem bit_reset {m : FreeMap} {sector : Nat} (h : sector < m.size) (y : Nat) :
    (m.modifyByte sector (· &&& ~~~(mask sector))).bit y = (m.bit y && decide (y ≠ sector)) := by
  rw [bit_modifyByte m _ y h]
  by_cases same : y / 8 = sector / 8
  · rw [if_pos same, UInt8.toNat_and, Nat.testBit_and, not_mask_testBit (Nat.mod_lt _ (by decide)),
      bit_eq_testBit]
    congr 2
    exact propext ⟨by omega, by omega⟩
  · rw [if_neg same, decide_eq_true (by omega), Bool.and_true]

theorem bit_zeros (size y : Nat) : (zeros size).bit y = false := by
  rw [bit_eq_testBit, zeros]
  simp [List.getD_eq_getElem?_getD, List.getElem?_replicate]
  split <;> simp

theorem ext_bytes {m n : FreeMap} (size : m.size = n.size) (bytes : m.bits = n.bits) : m = n := by
  cases m
  cases n
  cases size
  cases bytes
  rfl

theorem ext_bit {m n : FreeMap} (size : m.size = n.size)
    (bits : ∀ y, m.bit y = n.bit y) : m = n := by
  have lengths : m.bits.length = n.bits.length := by rw [m.length_bits, n.length_bits, size]
  have bytes : m.bits = n.bits := by
    apply List.ext_getElem lengths
    intro i hi hi'
    rw [← UInt8.toNat_inj]
    apply Nat.eq_of_testBit_eq
    intro j
    by_cases hj : j < 8
    · have at_j := bits (8 * i + j)
      rw [bit_eq_testBit, bit_eq_testBit, show (8 * i + j) / 8 = i by omega,
        show (8 * i + j) % 8 =
          j by omega, List.getD_eq_getElem _ _ hi, List.getD_eq_getElem _ _ hi'] at at_j
      exact at_j
    · have high : ∀ b : UInt8, b.toNat < 2 ^ j := fun b =>
        lt_of_lt_of_le b.toNat_lt (Nat.pow_le_pow_right (by decide) (by omega))
      rw [Nat.testBit_lt_two_pow (high _), Nat.testBit_lt_two_pow (high _)]
  exact ext_bytes size bytes

/-- The run of `cnt` sectors from `i` on. -/
def InRun (i cnt y : Nat) : Prop := i ≤ y ∧ y < i + cnt

instance (i cnt y : Nat) : Decidable (InRun i cnt y) := inferInstanceAs (Decidable (_ ∧ _))

/-- `n` is `m` with a run of sectors marked. -/
structure Marks (m n : FreeMap) (i cnt : Nat) : Prop where
  size : n.size = m.size
  bit : ∀ y, n.bit y = (m.bit y || decide (InRun i cnt y))

/-- `n` is `m` with a run of sectors cleared. -/
structure Clears (m n : FreeMap) (i cnt : Nat) : Prop where
  size : n.size = m.size
  bit : ∀ y, n.bit y = (m.bit y && !decide (InRun i cnt y))

theorem isFree_cases (m : FreeMap) (i cnt : Nat) :
    (isFree i cnt m = .ok true m ∧ ∀ y, InRun i cnt y → y < m.size ∧ m.bit y = false) ∨
      (isFree i cnt m = .ok false m ∧ ∃ y, InRun i cnt y ∧ y < m.size ∧ m.bit y = true) ∨
        (isFree i cnt m = .halt .assertion ∧ m.size < i + cnt ∧ ∀ y, i ≤ y →
          y < m.size → m.bit y = false) := by
  induction cnt generalizing i with
  | zero => exact .inl ⟨rfl, fun y hy => absurd hy (by unfold InRun; omega)⟩
  | succ cnt ih =>
    by_cases inside : i < m.size
    · have first : get i m = .ok (m.bit i) m := if_pos inside
      have unfolded : isFree i (cnt + 1) m =
        (if m.bit i then pure false else isFree (i + 1) cnt : Op Bool) m :=
        Call.bind_ok first
      cases hbit : m.bit i with
      | true =>
        rw [hbit, if_pos rfl] at unfolded
        exact .inr (.inl ⟨unfolded, i, ⟨le_rfl, by omega⟩, inside, hbit⟩)
      | false =>
        rw [hbit, if_neg Bool.false_ne_true] at unfolded
        rw [unfolded]
        obtain ⟨hrun, free⟩ | ⟨hrun, y, ⟨low, high⟩, hy⟩ | ⟨hrun, past, free⟩ := ih (i + 1)
        · refine .inl ⟨hrun, fun y hy => ?_⟩
          by_cases hyi : y = i
          · exact hyi ▸ ⟨inside, hbit⟩
          · exact free y ⟨by have := hy.1; omega, by have := hy.2; omega⟩
        · exact .inr (.inl ⟨hrun, y, ⟨by omega, by omega⟩, hy⟩)
        · refine .inr (.inr ⟨hrun, by omega, fun y low high => ?_⟩)
          by_cases hyi : y = i
          · exact hyi ▸ hbit
          · exact free y (by omega) high
    · have first : get i m = .halt .assertion := if_neg inside
      exact .inr (.inr ⟨Call.bind_halt first, by omega, fun y low high => by omega⟩)

theorem setAll_ok {m : FreeMap} {i cnt : Nat} (inside : ∀ y, InRun i cnt y → y < m.size) :
    ∃ n, setAll i cnt m = .ok () n ∧ Marks m n i cnt := by
  induction cnt generalizing m i with
  | zero =>
    refine ⟨m, rfl, rfl, fun y => ?_⟩
    rw [decide_eq_false (by unfold InRun; omega), Bool.or_false]
  | succ cnt ih =>
    have hi : i < m.size := inside i ⟨le_rfl, by omega⟩
    have first : set i m = .ok () (m.modifyByte i (· ||| mask i)) := if_pos hi
    obtain ⟨n, rest, marks⟩ := ih (m := m.modifyByte i (· ||| mask i)) (i := i + 1)
      fun y hy => inside y ⟨by have := hy.1; omega, by have := hy.2; omega⟩
    refine ⟨n, (Call.bind_ok first).trans rest, marks.size, fun y => ?_⟩
    rw [marks.bit, bit_set hi, Bool.or_assoc, ← Bool.decide_or]
    congr 2
    unfold InRun
    exact propext ⟨by omega, by omega⟩

theorem resetWhile_ok {m : FreeMap} {i cnt : Nat} (inside : i + cnt ≤ m.size) :
    ∃ n k, resetWhile i cnt m = .ok () n ∧ k ≤ cnt ∧ Clears m n i k ∧
      (k < cnt → m.bit (i + k) = false) := by
  induction cnt generalizing m i with
  | zero =>
    refine ⟨m, 0, rfl, le_rfl, ⟨rfl, fun y => ?_⟩, by omega⟩
    rw [decide_eq_false (by unfold InRun; omega), Bool.not_false, Bool.and_true]
  | succ cnt ih =>
    have hi : i < m.size := by omega
    have first : get i m = .ok (m.bit i) m := if_pos hi
    have unfolded : resetWhile i (cnt + 1) m =
        (if m.bit i then do reset i; resetWhile (i + 1) cnt else pure () : Op Unit) m :=
      Call.bind_ok first
    cases hbit : m.bit i with
    | false =>
      rw [hbit, if_neg Bool.false_ne_true] at unfolded
      refine ⟨m, 0, unfolded, Nat.zero_le _, ⟨rfl, fun y => ?_⟩, fun _ => hbit⟩
      rw [decide_eq_false (by unfold InRun; omega), Bool.not_false, Bool.and_true]
    | true =>
      rw [hbit, if_pos rfl] at unfolded
      have second : reset i m = .ok () (m.modifyByte i (· &&& ~~~(mask i))) := if_pos hi
      rw [Call.bind_ok second] at unfolded
      obtain ⟨n, k, rest, hk, clears, stop⟩ :=
        ih (m := m.modifyByte i (· &&& ~~~(mask i))) (i := i + 1)
        (by change i + 1 + cnt ≤ m.size; omega)
      refine ⟨n, k + 1, unfolded.trans rest, by omega, ⟨clears.size, fun y => ?_⟩, fun hlt => ?_⟩
      · rw [clears.bit, bit_reset hi, Bool.and_assoc]
        congr 1
        rw [Bool.eq_iff_iff]
        simp only [Bool.and_eq_true, decide_eq_true_eq, Bool.not_eq_true', decide_eq_false_iff_not]
        unfold InRun
        omega
      · have next := stop (by omega)
        rw [bit_reset hi, show i + 1 + k = i + (k + 1) by omega] at next
        simpa using next

theorem allocFrom_cases {m : FreeMap} {cnt : Nat} (left i : Nat)
    (inside : i + left + cnt ≤ m.size) :
    (∃ start n, allocFrom cnt left i m = .ok start n ∧ start < i + left ∧
        (∀ y, InRun start cnt y → m.bit y = false) ∧ Marks m n start cnt) ∨
      (allocFrom cnt left i m = .err .diskSectorAllocFail m ∧
        ∀ start, i ≤ start → start < i + left → ∃ y, InRun start cnt y ∧ m.bit y = true) := by
  induction left generalizing i with
  | zero => exact .inr ⟨rfl, fun start low high => by omega⟩
  | succ left ih =>
    have unfolded : ∀ b, isFree i cnt m = .ok b m → allocFrom cnt (left + 1) i m =
        (if b then do setAll i cnt; pure i else allocFrom cnt left (i + 1) : Op Nat) m :=
      fun b hb => Call.bind_ok hb
    obtain ⟨hrun, free⟩ | ⟨hrun, y, hy, -, used⟩ | ⟨-, past, -⟩ := isFree_cases m i cnt
    · obtain ⟨n, sets, marks⟩ := setAll_ok fun y hy => (free y hy).1
      refine .inl ⟨i, n, ?_, by omega, fun y hy => (free y hy).2, marks⟩
      rw [unfolded true hrun, if_pos rfl, Call.bind_ok sets, Call.pure_apply]
    · rw [unfolded false hrun, if_neg Bool.false_ne_true]
      obtain ⟨start, n, found, bound, rest⟩ | ⟨none, later⟩ := ih (i + 1) (by omega)
      · exact .inl ⟨start, n, found, by omega, rest⟩
      · refine .inr ⟨none, fun start low high => ?_⟩
        by_cases here : start = i
        · exact ⟨y, here ▸ hy, used⟩
        · exact later start (by omega) (by omega)
    · omega

/-- An allocation of at least one sector marks a run of free sectors inside the disk, or changes
nothing. It tries every run but the one at the very end of the disk. -/
theorem alloc_cases (m : FreeMap) {cnt : Nat} (pos : 0 < cnt) :
    (∃ start n, alloc cnt m = .ok start n ∧ start + cnt < m.size ∧
        (∀ y, InRun start cnt y → m.bit y = false) ∧ Marks m n start cnt) ∨
      (alloc cnt m = .err .diskSectorAllocFail m ∧
        ∀ start, start + cnt < m.size → ∃ y, InRun start cnt y ∧ m.bit y = true) := by
  have unfolded : alloc cnt m = (if m.size ≤ cnt then Call.throw .diskSectorAllocFail
      else allocFrom cnt (m.size - cnt) 0 : Op Nat) m := by
    rw [alloc, if_neg (by omega), Call.get_bind]
  rw [unfolded]
  by_cases small : m.size ≤ cnt
  · rw [if_pos small]
    exact .inr ⟨rfl, fun start bound => by omega⟩
  · rw [if_neg small]
    have fits : 0 + (m.size - cnt) + cnt ≤ m.size := by omega
    obtain ⟨start, n, found, bound, rest⟩ | ⟨none, tried⟩ := allocFrom_cases (m.size - cnt) 0 fits
    · exact .inl ⟨start, n, found, by omega, rest⟩
    · exact .inr ⟨none, fun start bound => tried start (Nat.zero_le _) (by omega)⟩

theorem alloc_zero (m : FreeMap) : alloc 0 m = .ok 0 m := rfl

/-- A run of `cnt` free sectors on the disk, from `start` on. -/
def Room (m : FreeMap) (cnt start : Nat) : Prop := start + cnt ≤ m.size ∧
    ∀ y, InRun start cnt y → m.bit y = false

theorem alloc_eq_err_iff (m : FreeMap) {cnt : Nat} (pos : 0 < cnt) :
    (∃ e n, alloc cnt m = .err e n) ↔ ∀ start, start + cnt < m.size → ¬Room m cnt start := by
  constructor
  · rintro ⟨e, n, failed⟩ start bound room
    obtain ⟨start', n', found, -⟩ | ⟨-, tried⟩ := alloc_cases m pos
    · rw [found] at failed
      cases failed
    · obtain ⟨y, hy, used⟩ := tried start bound
      rw [room.2 y hy] at used
      cases used
  · intro none
    obtain ⟨start, n, found, fits, free, -⟩ | ⟨failed, -⟩ := alloc_cases m pos
    · exact absurd ⟨le_of_lt fits, free⟩ (none start fits)
    · exact ⟨_, _, failed⟩

/-- An allocation fails only for want of room, unless all the room there is lies at the very end of
the disk. -/
theorem alloc_finds_room_iff (m : FreeMap) {cnt : Nat} (pos : 1 ≤ cnt) :
    ((∃ e n, alloc cnt m = .err e n) → ∀ start, ¬Room m cnt start) ↔
      (Room m cnt (m.size - cnt) → ∃ start, start + cnt < m.size ∧ Room m cnt start) := by
  rw [alloc_eq_err_iff m pos]
  constructor
  · intro finds last
    by_contra none
    push Not at none
    exact finds none _ last
  · intro other none start room
    by_cases inside : start + cnt < m.size
    · exact none start inside room
    · have here : start = m.size - cnt := by
        have := room.1
        omega
      obtain ⟨start', inside', room'⟩ := other (here ▸ room)
      exact none start' inside' room'

/-- Two free sectors in the middle of a small disk are found. -/
theorem middle_run_found : Room ⟨16, [3, 252], rfl⟩ 2 2 ∧
    ((∃ e n, alloc 2 ⟨16, [3, 252], rfl⟩ = .err e n) → ∀ start,
      ¬Room ⟨16, [3, 252], rfl⟩ 2 start) := by
  have room : Room ⟨16, [3, 252], rfl⟩ 2 2 := by
    refine ⟨by decide, ?_⟩
    intro y hy
    have low := hy.1
    have high := hy.2
    interval_cases y <;> rfl
  exact ⟨room, (alloc_finds_room_iff _ (by decide)).mpr fun _ => ⟨2, by decide, room⟩⟩

/-- The last sector of a disk is not found, though it is free. -/
theorem last_sector_missed : ¬∀ (m : FreeMap) (cnt : Nat), 1 ≤ cnt →
    m.bit 0 = true → m.bit 1 = true →
    (∃ e n, alloc cnt m = .err e n) → ∀ start, ¬Room m cnt start := by
  intro finds
  refine finds ⟨3, [3], rfl⟩ 1 le_rfl rfl rfl ⟨.diskSectorAllocFail,
    ⟨3, [3], rfl⟩, rfl⟩ 2 ⟨le_rfl, ?_⟩
  intro y hy
  have here : y = 2 := by
    have low := hy.1
    have high := hy.2
    omega
  rw [here]
  rfl

/-- The run does not end inside the disk, and nothing in use lies between its start and the end of
the disk; or its end is not a `u32`. -/
def PastEnd (m : FreeMap) (start cnt : Nat) : Prop :=
  2 ^ 32 ≤ start + cnt ∨ m.size < start + cnt ∧ ∀ y, start ≤ y → y < m.size → m.bit y = false

/-- An allocation at a given place marks exactly the run asked for, refuses without a change, or
stops the machine past the end of the disk. -/
theorem inPlaceAlloc_cases (m : FreeMap) (start : Nat) {cnt : Nat} (pos : 0 < cnt) :
    (∃ n, inPlaceAlloc start cnt m = .ok () n ∧
      (∀ y, InRun start cnt y → y < m.size ∧ m.bit y = false) ∧
        Marks m n start cnt ∧ ¬PastEnd m start cnt) ∨
      (inPlaceAlloc start cnt m = .err .diskSectorAllocFail m ∧ ¬PastEnd m start cnt ∧
          ∃ y, InRun start cnt y ∧ m.bit y = true) ∨
        ((∃ h, inPlaceAlloc start cnt m = .halt h) ∧ PastEnd m start cnt) := by
  rw [inPlaceAlloc, if_neg (by omega), addU32]
  by_cases fits : start + cnt < 2 ^ 32
  · rw [if_pos fits, Call.pure_bind]
    obtain ⟨hrun, free⟩ | ⟨hrun, y, hy, bound, used⟩ | ⟨hrun, past, free⟩ :=
      isFree_cases m start cnt
    · obtain ⟨n, sets, marks⟩ := setAll_ok fun y hy => (free y hy).1
      refine .inl ⟨n, ?_, free, marks, ?_⟩
      · rw [Call.bind_ok hrun, if_pos rfl, sets]
      · have last := (free (start + (cnt - 1)) ⟨by omega, by omega⟩).1
        rintro (large | ⟨past, -⟩)
        · omega
        · omega
    · refine .inr (.inl ⟨?_, ?_, y, hy, used⟩)
      · rw [Call.bind_ok hrun, if_neg Bool.false_ne_true, Call.throw_apply]
      · rintro (large | ⟨-, free⟩)
        · omega
        · rw [free y hy.1 bound] at used
          cases used
    · exact .inr (.inr ⟨⟨_, Call.bind_halt hrun⟩, .inr ⟨past, free⟩⟩)
  · rw [if_neg fits]
    exact .inr (.inr ⟨⟨_, rfl⟩, .inl (by omega)⟩)

theorem inPlaceAlloc_zero (m : FreeMap) (start : Nat) : inPlaceAlloc start 0 m = .ok () m := rfl

/-- A deallocation clears a first part of its run, and all of it when all of it is marked. -/
theorem dealloc_ok {m : FreeMap} {sector cnt : Nat} (inside : sector + cnt ≤ m.size)
    (small : m.size < 2 ^ 32) :
    ∃ n k, dealloc sector cnt m = .ok () n ∧ k ≤ cnt ∧ Clears m n sector k ∧
      (k < cnt → m.bit (sector + k) = false) := by
  have sum : addU32 sector cnt m = .ok (sector + cnt) m := by
    rw [addU32, if_pos (by omega), Call.pure_apply]
  obtain ⟨n, k, loop, rest⟩ := resetWhile_ok inside
  exact ⟨n, k, (Call.bind_ok sum).trans loop, rest⟩

theorem allocFrom_skips {m n : FreeMap} {cnt left i start : Nat}
    (found : allocFrom cnt left i m = .ok start n) :
    ∀ j, i ≤ j → j < start → ∃ y, InRun j cnt y ∧ m.bit y = true := by
  induction left generalizing i with
  | zero => cases found
  | succ left ih =>
    intro j low high
    have unfolded : ∀ b, isFree i cnt m = .ok b m → allocFrom cnt (left + 1) i m =
        (if b then do setAll i cnt; pure i else allocFrom cnt left (i + 1) : Op Nat) m :=
      fun b hb => Call.bind_ok hb
    obtain ⟨hrun, -⟩ | ⟨hrun, y, hy, -, used⟩ | ⟨hrun, -⟩ := isFree_cases m i cnt
    · rw [unfolded true hrun, if_pos rfl, Call.bind_eq_ok] at found
      obtain ⟨-, u, -, last⟩ := found
      cases last
      omega
    · rw [unfolded false hrun, if_neg Bool.false_ne_true] at found
      by_cases here : j = i
      · exact ⟨y, here ▸ hy, used⟩
      · exact ih found j (by omega) high
    · rw [allocFrom, Call.bind_halt hrun] at found
      cases found

theorem alloc_first {m n : FreeMap} {cnt start : Nat} (pos : 0 < cnt)
    (found : alloc cnt m = .ok start n) :
    ∀ j < start, ¬Room m cnt j := by
  rintro j before ⟨-, free⟩
  rw [alloc, if_neg (by omega), Call.get_bind] at found
  split at found
  · cases found
  · obtain ⟨y, hy, used⟩ := allocFrom_skips found j (Nat.zero_le j) before
    rw [free y hy] at used
    cases used

theorem dealloc_full {m : FreeMap} {sector cnt : Nat} (inside : sector + cnt ≤ m.size)
    (small : m.size < 2 ^ 32)
    (full : ∀ y, InRun sector cnt y → m.bit y = true) :
    ∃ n, dealloc sector cnt m = .ok () n ∧ Clears m n sector cnt := by
  obtain ⟨n, k, done, within, clears, stops⟩ := dealloc_ok inside small
  have whole : k = cnt := by
    by_contra less
    have used := full (sector + k) ⟨by omega, by omega⟩
    rw [stops (by omega)] at used
    cases used
  exact ⟨n, done, whole ▸ clears⟩

/-- Clearing a run that was free before it was marked gives back the map. -/
theorem Marks.clears {l m n : FreeMap} {i cnt : Nat} (marks : Marks l m i cnt)
    (clears : Clears m n i cnt)
    (free : ∀ y, InRun i cnt y → l.bit y = false) : n = l := by
  refine ext_bit (clears.size.trans marks.size) fun y => ?_
  rw [clears.bit, marks.bit]
  by_cases inside : InRun i cnt y
  · rw [free y inside, decide_eq_true inside]
    rfl
  · rw [decide_eq_false inside, Bool.or_false, Bool.not_false, Bool.and_true]

theorem alloc_sound {m n : FreeMap} {cnt start : Nat} (small : m.size < 2 ^ 32) (pos : 1 ≤ cnt)
    (found : alloc cnt m = .ok start n) : Room m cnt start ∧ Marks m n start cnt ∧
      (∀ j < start, ¬Room m cnt j) ∧
      dealloc start cnt n = .ok () m := by
  obtain ⟨start', n', found', bound, free, marks⟩ | ⟨failed, -⟩ := alloc_cases m pos
  · rw [found', Outcome.ok.injEq] at found
    obtain ⟨rfl, rfl⟩ := found
    have inside : start' + cnt ≤ n'.size := by
      rw [marks.size]
      omega
    have marked : ∀ y, InRun start' cnt y → n'.bit y = true := by
      intro y hy
      rw [marks.bit, decide_eq_true hy, Bool.or_true]
    obtain ⟨l, done, clears⟩ := dealloc_full inside (marks.size ▸ small) marked
    obtain rfl := marks.clears clears free
    exact ⟨⟨le_of_lt bound, free⟩, marks, alloc_first pos found', done⟩
  · rw [failed] at found
    cases found

/-- Allocations take the first room there is and nothing else, failures change nothing, and a
deallocation gives back what is marked. -/
theorem sector_allocator_sound (m : FreeMap) (small : m.size < 2 ^ 32) :
    (∀ cnt start n, 1 ≤ cnt → alloc cnt m = .ok start n → Room m cnt start ∧ Marks m n start cnt ∧
        (∀ j < start, ¬Room m cnt j) ∧ dealloc start cnt n = .ok () m) ∧
      (∀ cnt e n, alloc cnt m = .err e n → n = m) ∧
      (∀ start cnt e n, inPlaceAlloc start cnt m = .err e n → n = m) ∧
      (∀ start cnt n, inPlaceAlloc start cnt m = .ok () n →
        (∀ y, InRun start cnt y → y < m.size ∧ m.bit y = false) ∧ Marks m n start cnt) ∧
      ∀ sector cnt, sector + cnt ≤ m.size → (∀ y, InRun sector cnt y → m.bit y = true) →
        ∃ n, dealloc sector cnt m = .ok () n ∧ Clears m n sector cnt := by
  refine ⟨?_, ?_, ?_, ?_, ?_⟩
  · intro cnt start n pos found
    exact alloc_sound small pos found
  · intro cnt e n failed
    obtain rfl | pos := Nat.eq_zero_or_pos cnt
    · rw [alloc_zero] at failed
      cases failed
    · obtain ⟨start, n', found, -⟩ | ⟨failed', -⟩ := alloc_cases m pos
      · rw [found] at failed
        cases failed
      · rw [failed'] at failed
        cases failed
        rfl
  · intro start cnt e n failed
    obtain rfl | pos := Nat.eq_zero_or_pos cnt
    · rw [inPlaceAlloc_zero] at failed
      cases failed
    · obtain ⟨n', got, -⟩ | ⟨failed', -⟩ | ⟨⟨h, stops⟩, -⟩ := inPlaceAlloc_cases m start pos
      · rw [got] at failed
        cases failed
      · rw [failed'] at failed
        cases failed
        rfl
      · rw [stops] at failed
        cases failed
  · intro start cnt n got
    obtain rfl | pos := Nat.eq_zero_or_pos cnt
    · rw [inPlaceAlloc_zero] at got
      cases got
      have none : ∀ y, ¬InRun start 0 y := by
        intro y hy
        exact absurd hy.2 (Nat.not_lt.mpr hy.1)
      exact ⟨fun y hy => absurd hy (none y), rfl,
        fun y => by rw [decide_eq_false (none y), Bool.or_false]⟩
    · obtain ⟨n', got', free, marks, -⟩ | ⟨failed, -⟩ | ⟨⟨h, stops⟩, -⟩ :=
        inPlaceAlloc_cases m start pos
      · rw [got', Outcome.ok.injEq] at got
        obtain ⟨-, rfl⟩ := got
        exact ⟨free, marks⟩
      · rw [failed] at got
        cases got
      · rw [stops] at got
        cases got
  · intro sector cnt inside full
    exact dealloc_full inside small full

/-- Eleven sectors, of which four are in use, so that two together are free from the fourth one
on. -/
def elevenSectors : FreeMap := ⟨11, [7, 1], rfl⟩

theorem eleven_sectors_sound : alloc 2 elevenSectors = .ok 3 ⟨11, [31, 1], rfl⟩ ∧
    dealloc 3 2 ⟨11, [31, 1], rfl⟩ = .ok () elevenSectors := by
  have found : alloc 2 elevenSectors = .ok 3 ⟨11, [31, 1], rfl⟩ := by decide
  exact ⟨found, ((sector_allocator_sound elevenSectors (by decide)).1 2 3 _
    (by decide) found).2.2.2⟩

end FreeMap

end Tacos.Fs
