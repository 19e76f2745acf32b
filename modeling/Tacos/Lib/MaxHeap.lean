/- GID: Tacos/Lib/MaxHeap
   generality: G
   source: none
   digest: Max-heaps for an order on the elements, and what taking elements off the top selects. -/

import Mathlib.Data.List.Basic

set_option autoImplicit false
set_option relaxedAutoImplicit false

namespace Tacos.Lib

universe u v

/-- A heap whose `peek` and `pop` find an element that no other one exceeds. Which of several it is
is left open. -/
structure MaxHeap (α : Type u) (cmp : α → α → Ordering) where
  Heap : Type v
  empty : Heap
  items : Heap → List α
  len : Heap → Nat
  push : Heap → α → Heap
  peek : Heap → Option α
  pop : Heap → Option (α × Heap)
  items_empty : items empty = []
  len_eq : ∀ h, len h = (items h).length
  items_push : ∀ h a, (items (push h a)).Perm (a :: items h)
  peek_spec : ∀ h, items h ≠ [] → ∃ a ∈ items h, peek h = some a ∧ ∀ b ∈ items h, cmp b a ≠ .gt
  pop_spec : ∀ h, items h ≠ [] → ∃ a h', pop h = some (a, h') ∧ (a :: items h').Perm (items h) ∧
    ∀ b ∈ items h, cmp b a ≠ .gt

namespace MaxHeap

variable {α : Type u} {cmp : α → α → Ordering}

/-- What holds of an element holds of all that it does not exceed. -/
def Upward (cmp : α → α → Ordering) (p : α → Prop) : Prop := ∀ a b, cmp b a ≠ .gt → p b → p a

theorem top_fails {p : α → Prop} (upward : Upward cmp p) {l : List α} {a : α}
    (top : ∀ b ∈ l, cmp b a ≠ .gt)
    (fails : ¬p a) : ∀ b ∈ l, ¬p b := by
  intro b hb holds
  exact fails (upward a b (top b hb) holds)

theorem top_holds {p : α → Prop} (upward : Upward cmp p) {l : List α} {a b : α}
    (top : ∀ b ∈ l, cmp b a ≠ .gt)
    (hb : b ∈ l) (holds : p b) : p a := upward a b (top b hb) holds

variable {p : α → Prop} [DecidablePred p] {a : α} {l l' : List α}

theorem filter_taken (perm : (a :: l').Perm l) (holds : p a) :
    (l.filter (p ·)).Perm (a :: l'.filter (p ·)) := by
  have split := (perm.filter (p ·)).symm
  rw [List.filter_cons_of_pos (by simpa using holds)] at split
  exact split

theorem filter_left (perm : (a :: l').Perm l) (holds : p a) :
    (l.filter (¬p ·)).Perm (l'.filter (¬p ·)) := by
  have split := (perm.filter (¬p ·)).symm
  rw [List.filter_cons_of_neg (by simpa using holds)] at split
  exact split

end MaxHeap

end Tacos.Lib
