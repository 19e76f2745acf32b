/- GID: Tacos/Lib/Tiling
   generality: G
   source: none
   digest: Runs laid end to end, blocks of one length in a row, and writes that do not disturb
     each other. -/

import Mathlib.Data.List.Basic
import Mathlib.Algebra.BigOperators.Group.List.Basic
import Mathlib.Algebra.GroupWithZero.Nat

set_option autoImplicit false
set_option relaxedAutoImplicit false

namespace Tacos.Lib.Tiling

universe u v

/-- Where the `k`-th of some runs begins when the first one begins at `base`. -/
def startOf (base : Nat) (sizes : List Nat) (k : Nat) : Nat := base + (sizes.take k).sum

section Runs

variable (base : Nat) (sizes : List Nat)

@[simp] theorem startOf_zero : startOf base sizes 0 = base := rfl

theorem startOf_succ {k : Nat} (h : k < sizes.length) :
    startOf base sizes (k + 1) = startOf base sizes k + sizes[k] := by
  rw [startOf, List.sum_take_succ _ _ h, ← Nat.add_assoc, startOf]

theorem startOf_length : startOf base sizes sizes.length = base + sizes.sum := by
  rw [startOf, List.take_length]

theorem startOf_mono {j k : Nat} (h : j ≤ k) : startOf base sizes j ≤ startOf base sizes k := by
  obtain ⟨n, rfl⟩ := Nat.exists_eq_add_of_le h
  rw [startOf, startOf, List.take_add, List.sum_append]
  omega

theorem startOf_add_le {j k : Nat} (h : j < k) (bound : j < sizes.length) :
    startOf base sizes j + sizes[j] ≤ startOf base sizes k := by
  rw [← startOf_succ base sizes bound]
  exact startOf_mono base sizes h

/-- What lies between the beginnings of two runs is in one of the runs from the first to before
the second. -/
theorem exists_run {y k : Nat} (low : base ≤ y) (high : y < startOf base sizes k)
    (bound : k ≤ sizes.length) :
    ∃ j, ∃ h : j < sizes.length, j < k ∧ startOf base sizes j ≤ y ∧
      y < startOf base sizes j + sizes[j] := by
  induction k with
  | zero => exact absurd high (Nat.not_lt.mpr low)
  | succ k ih =>
    by_cases before : y < startOf base sizes k
    · obtain ⟨j, h, earlier, inside⟩ := ih before (Nat.le_of_succ_le bound)
      exact ⟨j, h, Nat.lt_succ_of_lt earlier, inside⟩
    · rw [startOf_succ base sizes bound] at high
      exact ⟨k, bound, Nat.lt_succ_self k, Nat.le_of_not_lt before, high⟩

end Runs

theorem getElem_flatten {α : Type u} {n : Nat} {blocks : List (List α)}
    (length : ∀ b ∈ blocks, b.length = n)
    {k i : Nat} (hk : k < blocks.length) (hi : i < n) :
    blocks.flatten[n * k + i]? = blocks[k][i]? := by
  induction blocks generalizing k with
  | nil => exact absurd hk (Nat.not_lt_zero k)
  | cons b bs ih =>
    have first := length b List.mem_cons_self
    rw [List.flatten_cons]
    cases k with
    | zero =>
      rw [Nat.mul_zero, Nat.zero_add, List.getElem?_append_left (by omega)]
      rfl
    | succ k =>
      have skip : n * (k + 1) + i - b.length = n * k + i := by
        rw [first, Nat.mul_succ]
        omega
      rw [List.getElem?_append_right (by rw [first, Nat.mul_succ]; omega), skip]
      exact ih (fun b hb => length b (List.mem_cons_of_mem _ hb)) (Nat.lt_of_succ_lt_succ hk)

theorem length_flatten {α : Type u} {n : Nat} {blocks : List (List α)}
    (length : ∀ b ∈ blocks, b.length = n) :
    blocks.flatten.length = n * blocks.length := by
  induction blocks with
  | nil => rfl
  | cons b bs ih =>
    rw [List.flatten_cons, List.length_append, length b List.mem_cons_self,
      ih fun b hb => length b (List.mem_cons_of_mem _ hb), List.length_cons,
      Nat.mul_succ, Nat.add_comm]

section Writes

variable {K : Type u} {M : Type v} {write : M → K → M} {Holds : M → K → Prop} {S : K → Prop}

/-- What holds once a key was written holds after more writes, if none of another key disturbs it.
-/
theorem holds_foldl (put : ∀ d k, Holds (write d k) k)
    (keep : ∀ d k k', S k → S k' → k ≠ k' → Holds d k → Holds (write d k') k) {keys : List K}
    (all : ∀ k ∈ keys, S k) {k : K} (mine : S k) {d : M} (h : Holds d k) :
    Holds (keys.foldl write d) k := by
  induction keys generalizing d with
  | nil => exact h
  | cons k' keys ih =>
    rw [List.foldl_cons]
    apply ih fun k hk => all k (List.mem_cons_of_mem _ hk)
    by_cases same : k = k'
    · exact same ▸ put d k
    · exact keep d k k' mine (all k' List.mem_cons_self) same h

theorem holds_of_mem (put : ∀ d k, Holds (write d k) k)
    (keep : ∀ d k k', S k → S k' → k ≠ k' → Holds d k → Holds (write d k') k) {keys : List K}
    (all : ∀ k ∈ keys, S k) {k : K} (mem : k ∈ keys) (d : M) : Holds (keys.foldl write d) k := by
  induction keys generalizing d with
  | nil => exact absurd mem List.not_mem_nil
  | cons k' keys ih =>
    have rest : ∀ k ∈ keys, S k := fun k hk => all k (List.mem_cons_of_mem _ hk)
    rw [List.foldl_cons]
    obtain rfl | later := List.mem_cons.mp mem
    · exact holds_foldl put keep rest (all k mem) (put d k)
    · exact ih rest later _

end Writes

end Tacos.Lib.Tiling
