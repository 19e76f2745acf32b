/- GID: Tacos/Lib/Descent
   generality: G
   source: none
   digest: A recursion that goes on to all successors in an acyclic graph ends within as many
     levels as there are vertices. -/

import Mathlib.Data.Finset.Card
import Mathlib.Data.Finset.Range
import Mathlib.Logic.Relation

set_option autoImplicit false
set_option relaxedAutoImplicit false

namespace Tacos.Lib.Descent

universe u

section Calls

variable {V : Type u} {next : V → List V} {depth : Nat} {a : V}

/-- How many calls a recursion makes that goes on to all successors of its argument, if it
ends within the depth. -/
def calls (next : V → List V) : Nat → V → Option Nat
  | 0, _ => none
  | depth + 1, a =>
    (next a).foldr (fun b sum => (calls next depth b).bind fun c => sum.map (c + ·)) (some 1)

theorem calls_isSome :
    (calls next (depth + 1) a).isSome ↔ ∀ b ∈ next a, (calls next depth b).isSome := by
  rw [calls]
  generalize next a = l
  induction l with
  | nil => simp
  | cons b l ih =>
    rw [List.foldr_cons, List.forall_mem_cons, ← ih]
    cases calls next depth b <;> simp

end Calls

section Bounded

variable {next : Nat → List Nat} {n : Nat}

private theorem path_calls (bounded : ∀ a, ∀ b ∈ next a, b < n)
    (acyclic : ∀ a, ¬ Relation.TransGen (fun a b => b ∈ next a) a a) {depth : Nat} {path : List Nat}
    {a : Nat} (nodup : path.Nodup)
    (above : ∀ p ∈ path, p < n ∧ Relation.TransGen (fun a b => b ∈ next a) p a) (ha : a < n)
    (enough : path.length + depth = n) : (calls next depth a).isSome := by
  have fresh : a ∉ path := fun hm => acyclic a (above a hm).2
  induction depth generalizing path a with
  | zero =>
    -- the vertices on the path and `a` would be one vertex too many
    have inside : (a :: path).toFinset ⊆ Finset.range n := by
      intro p hp
      rw [Finset.mem_range]
      rcases List.mem_cons.mp (List.mem_toFinset.mp hp) with rfl | hp
      · exact ha
      · exact (above p hp).1
    have card := Finset.card_le_card inside
    rw [List.toFinset_card_of_nodup (nodup.cons fresh), Finset.card_range, List.length_cons] at card
    omega
  | succ depth ih =>
    refine calls_isSome.mpr fun b hb => ?_
    have further : ∀ p ∈ a :: path, p < n ∧ Relation.TransGen (fun a b => b ∈ next a) p b := by
      intro p hp
      rcases List.mem_cons.mp hp with rfl | hp
      · exact ⟨ha, .single hb⟩
      · exact ⟨(above p hp).1, (above p hp).2.tail hb⟩
    refine ih (nodup.cons fresh) further (bounded a b hb) ?_ fun hm => acyclic b (further b hm).2
    rw [List.length_cons]
    omega

/-- On an acyclic graph with `n` vertices no recursion gets deeper than `n`. -/
theorem acyclic_calls (bounded : ∀ a, ∀ b ∈ next a, b < n)
    (acyclic : ∀ a, ¬ Relation.TransGen (fun a b => b ∈ next a) a a) {a : Nat} (ha : a < n) :
    (calls next n a).isSome :=
  path_calls bounded acyclic List.nodup_nil (by simp) ha (Nat.zero_add n)

end Bounded

end Tacos.Lib.Descent
