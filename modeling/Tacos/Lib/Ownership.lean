/- GID: Tacos/Lib/Ownership
   generality: G
   source: none
   digest: Owners with pairwise disjoint sets of marked resources, and the change of one of them. -/

import Mathlib.Data.Set.Basic

set_option autoImplicit false
set_option relaxedAutoImplicit false

namespace Tacos.Lib.Ownership

universe u v

variable {ι : Type u} {α : Type v}

/-- No resource has two owners, and every owned resource is marked. -/
structure Exclusive (own : ι → Set α) (used : Set α) : Prop where
  apart : ∀ i j, i ≠ j → ∀ x, x ∈ own i → x ∉ own j
  marked : ∀ i x, x ∈ own i → x ∈ used

/-- One owner may keep, give up and take unmarked resources, as long as what it has is marked and
what the others have stays marked. -/
theorem Exclusive.change {own own' : ι → Set α} {used used' : Set α}
    (h : Exclusive own used) (i : ι)
    (others : ∀ j, j ≠ i → own' j = own j) (new : ∀ x ∈ own' i, x ∈ own i ∨ x ∉ used)
    (marked : ∀ x ∈ own' i, x ∈ used') (kept : ∀ j, j ≠ i → ∀ x ∈ own j, x ∈ used') :
    Exclusive own' used' := by
  have clash : ∀ j, j ≠ i → ∀ x, x ∈ own' i → x ∉ own j := by
    intro j hj x hx hxj
    obtain old | free := new x hx
    · exact h.apart i j (Ne.symm hj) x old hxj
    · exact free (h.marked j x hxj)
  constructor
  · intro j k hjk x hj hk
    by_cases hji : j = i
    · subst hji
      rw [others k (Ne.symm hjk)] at hk
      exact clash k (Ne.symm hjk) x hj hk
    · rw [others j hji] at hj
      by_cases hki : k = i
      · subst hki
        exact clash j hji x hk hj
      · rw [others k hki] at hk
        exact h.apart j k hjk x hj hk
  · intro j x hx
    by_cases hji : j = i
    · exact marked x (hji ▸ hx)
    · rw [others j hji] at hx
      exact kept j hji x hx

end Tacos.Lib.Ownership
