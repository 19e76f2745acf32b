/- GID: Tacos/Lib/Dyadic
   generality: G
   source: none
   digest: A set cut into aligned blocks of powers of two, no two of which are the halves of one,
     is cut in one way only. -/

import Mathlib.Data.Set.Basic
import Mathlib.Tactic.Ring
import Mathlib.Algebra.Order.Ring.Nat

set_option autoImplicit false
set_option relaxedAutoImplicit false

namespace Tacos.Lib.Dyadic

/-- The `2 ^ k` addresses from `p` on. -/
def block (k p : Nat) : Set Nat := {a | p ≤ a ∧ a < p + 2 ^ k}

theorem mem_block {k p a : Nat} : a ∈ block k p ↔ p ≤ a ∧ a < p + 2 ^ k := Iff.rfl

theorem start_mem_block (k p : Nat) : p ∈ block k p :=
  ⟨le_rfl, Nat.lt_add_of_pos_right (Nat.two_pow_pos k)⟩

theorem block_subset {k j p q a : Nat} (hp : 2 ^ k ∣ p) (hq : 2 ^ j ∣ q)
    (hkj : k ≤ j) (hap : a ∈ block k p)
    (haq : a ∈ block j q) : block k p ⊆ block j q := by
  obtain ⟨c, rfl⟩ := hp
  obtain ⟨e, he⟩ : 2 ^ k ∣ q := dvd_trans (pow_dvd_pow 2 hkj) hq
  obtain ⟨i, rfl⟩ := Nat.exists_eq_add_of_le hkj
  subst he
  rw [mem_block] at hap haq
  have size : 2 ^ (k + i) = 2 ^ k * 2 ^ i := pow_add ..
  have low : e ≤ c := by
    have : 2 ^ k * e < 2 ^ k * (c + 1) := by
      rw [mul_add, mul_one]
      omega
    exact Nat.lt_succ_iff.mp (Nat.lt_of_mul_lt_mul_left this)
  have high : c + 1 ≤ e + 2 ^ i := by
    have : 2 ^ k * c < 2 ^ k * (e + 2 ^ i) := by
      rw [mul_add, ← size]
      omega
    exact Nat.lt_of_mul_lt_mul_left this
  have low' := Nat.mul_le_mul_left (2 ^ k) low
  have high' := Nat.mul_le_mul_left (2 ^ k) high
  rw [mul_add, mul_add, mul_one, ← size] at high'
  intro b hb
  rw [mem_block] at hb ⊢
  omega

theorem block_succ (k p : Nat) : block (k + 1) p = block k p ∪ block k (p + 2 ^ k) := by
  have size : 2 ^ (k + 1) = 2 ^ k + 2 ^ k := by ring
  ext a
  rw [Set.mem_union, mem_block, mem_block, mem_block, size]
  omega

/-- The blocks from level `w` to level `top` that lie in `A`, are aligned, and lie in no larger such
block. -/
structure Maximal (w top : Nat) (A : Set Nat) (k p : Nat) : Prop where
  level : w ≤ k ∧ k ≤ top
  aligned : 2 ^ k ∣ p
  inside : block k p ⊆ A
  largest : ∀ j q, k < j → j ≤ top → 2 ^ j ∣ q → block k p ⊆ block j q → ¬block j q ⊆ A

/-- The blocks at `F k` of the levels from `w` to `top` cut `A` into pieces, and no two of them
below the top level are the two halves of one block. -/
structure Cuts (w top : Nat) (F : Nat → Set Nat) (A : Set Nat) : Prop where
  level : ∀ k, ∀ p ∈ F k, w ≤ k ∧ k ≤ top
  aligned : ∀ k, ∀ p ∈ F k, 2 ^ k ∣ p
  covers : ∀ a, a ∈ A ↔ ∃ k, ∃ p ∈ F k, a ∈ block k p
  apart : ∀ k, ∀ p ∈ F k, ∀ j, ∀ q ∈ F j, ∀ a, a ∈ block k p → a ∈ block j q → k = j ∧ p = q
  merged : ∀ k < top, ∀ p ∈ F k, 2 ^ (k + 1) ∣ p → p + 2 ^ k ∉ F k

namespace Cuts

variable {w top k p : Nat} {F : Nat → Set Nat} {A : Set Nat}

theorem subset (cuts : Cuts w top F A) (hp : p ∈ F k) : block k p ⊆ A := by
  intro a ha
  exact (cuts.covers a).mpr ⟨k, p, hp, ha⟩

/-- An aligned block of `A` lies in one of the pieces. -/
theorem exists_superset (cuts : Cuts w top F A) (hw : w ≤ k) (htop : k ≤ top) (hp : 2 ^ k ∣ p)
    (inside : block k p ⊆ A) : ∃ j q, q ∈ F j ∧ k ≤ j ∧ block k p ⊆ block j q := by
  induction k, hw using Nat.le_induction generalizing p with
  | base =>
    obtain ⟨j, q, hq, ha⟩ := (cuts.covers p).mp (inside (start_mem_block w p))
    have level := (cuts.level j q hq).1
    exact ⟨j, q, hq, level, block_subset hp (cuts.aligned j q hq) level (start_mem_block w p) ha⟩
  | succ k hw ih =>
    have half : 2 ^ k ∣ p := dvd_trans (pow_dvd_pow 2 (Nat.le_succ k)) hp
    rw [block_succ, Set.union_subset_iff] at inside
    obtain ⟨j, q, hq, hkj, left⟩ := ih (by omega) half inside.1
    obtain ⟨j', q', hq', hkj', right⟩ :=
      ih (by omega) ((Nat.dvd_add_right half).mpr dvd_rfl) inside.2
    have first : p ∈ block (k + 1) p := start_mem_block _ _
    have second : p + 2 ^ k ∈ block (k + 1) p := by
      rw [block_succ]
      exact .inr (start_mem_block _ _)
    -- either half lies in a piece larger than itself, or both halves are pieces
    rcases Nat.lt_or_eq_of_le hkj with larger | rfl
    · refine ⟨j, q, hq, larger, block_subset hp (cuts.aligned j q hq) larger first ?_⟩
      exact left (start_mem_block _ _)
    · rcases Nat.lt_or_eq_of_le hkj' with larger | rfl
      · refine ⟨j', q', hq', larger, block_subset hp (cuts.aligned j' q' hq') larger second ?_⟩
        exact right (start_mem_block _ _)
      · have same : ∀ {r s : Nat}, block k r ⊆ block k s → s = r := by
          intro r s sub
          have low := sub (start_mem_block k r)
          have high : r + 2 ^ k - 1 ∈ block k r := by
            have := Nat.two_pow_pos k
            rw [mem_block]
            omega
          have high := sub high
          rw [mem_block] at low high
          omega
        rw [same left] at hq
        rw [same right] at hq'
        exact absurd hq' (cuts.merged k (by omega) p hq hp)

theorem mem_iff (cuts : Cuts w top F A) : p ∈ F k ↔ Maximal w top A k p := by
  constructor
  · intro hp
    refine ⟨cuts.level k p hp, cuts.aligned k p hp, cuts.subset hp, ?_⟩
    intro j q hkj htop hq sub inside
    obtain ⟨i, r, hr, hji, sub'⟩ := cuts.exists_superset
      ((cuts.level k p hp).1.trans hkj.le) htop hq inside
    have same := cuts.apart k p hp i r hr p (start_mem_block _ _) (sub' (sub (start_mem_block _ _)))
    omega
  · rintro ⟨⟨hw, htop⟩, hp, inside, largest⟩
    obtain ⟨j, q, hq, hkj, sub⟩ := cuts.exists_superset hw htop hp inside
    rcases Nat.lt_or_eq_of_le hkj with larger | rfl
    · exact absurd (cuts.subset hq) (largest j q larger (cuts.level j q hq).2
        (cuts.aligned j q hq) sub)
    · have back : block k q ⊆ block k p :=
        block_subset (cuts.aligned k q hq) hp le_rfl (sub (start_mem_block _ _))
          (start_mem_block _ _)
      have low := sub (start_mem_block k p)
      have high := back (start_mem_block k q)
      rw [mem_block] at low high
      rwa [show p = q by omega]

theorem unique {G : Nat → Set Nat} (cuts : Cuts w top F A) (other : Cuts w top G A) : F = G := by
  funext k
  ext p
  rw [cuts.mem_iff, other.mem_iff]

end Cuts

end Tacos.Lib.Dyadic
