/- GID: Tacos/Lib/Cover
   generality: G
   source: none
   digest: Families of address spans that tile an interval, counted address by address. -/

import Mathlib.Algebra.BigOperators.Group.Finset.Piecewise
import Mathlib.Algebra.GroupWithZero.Nat
import Mathlib.Algebra.Order.BigOperators.Group.Finset
import Mathlib.Data.List.Count
import Mathlib.Data.List.Perm.Basic
import Mathlib.Order.Interval.Finset.Nat

set_option autoImplicit false
set_option relaxedAutoImplicit false

namespace Tacos.Lib.Cover

/-- `size` consecutive addresses. -/
structure Span where
  start : Nat
  size : Nat
  deriving DecidableEq, Repr

instance : Membership Nat Span := ⟨fun s a => s.start ≤ a ∧ a < s.start + s.size⟩

theorem mem_span {s : Span} {a : Nat} : a ∈ s ↔ s.start ≤ a ∧ a < s.start + s.size := Iff.rfl

instance (a : Nat) (s : Span) : Decidable (a ∈ s) := decidable_of_iff _ mem_span.symm

def Apart (s t : Span) : Prop := ∀ a, a ∈ s → a ∉ t

theorem Apart.symm {s t : Span} (h : Apart s t) : Apart t s := fun a ht hs => h a hs ht

/-- How many of the spans hold an address. -/
def cover (l : List Span) (a : Nat) : Nat := l.countP (a ∈ ·)

/-- The spans hold every address from `lo` up to `hi` once, and no other. -/
def Tiles (lo hi : Nat) (l : List Span) : Prop :=
  ∀ a, cover l a = if lo ≤ a ∧ a < hi then 1 else 0

variable {lo mid hi a : Nat} {s t : Span} {l l' : List Span}

@[simp] theorem cover_nil (a : Nat) : cover [] a = 0 := rfl

theorem cover_cons (s : Span) (l : List Span) (a : Nat) :
    cover (s :: l) a = cover l a + if a ∈ s then 1 else 0 := by
  simp [cover, List.countP_cons]

theorem cover_perm (h : l.Perm l') (a : Nat) : cover l a = cover l' a := h.countP_eq _

theorem cover_split (p m n : Nat) (l : List Span) (a : Nat) :
    cover (⟨p, m⟩ :: ⟨p + m, n⟩ :: l) a = cover (⟨p, m + n⟩ :: l) a := by
  simp only [cover_cons, mem_span]
  split_ifs <;> omega

theorem one_le_cover (hs : s ∈ l) (ha : a ∈ s) : 1 ≤ cover l a :=
  List.countP_pos_iff.mpr ⟨s, hs, by simpa using ha⟩

theorem Tiles.empty (lo : Nat) : Tiles lo lo [] := by
  intro a
  rw [cover_nil, if_neg (by omega)]

theorem Tiles.perm (h : Tiles lo hi l) (hp : l.Perm l') : Tiles lo hi l' := fun a =>
  (cover_perm hp a).symm.trans (h a)

theorem Tiles.split {p m n : Nat} (h : Tiles lo hi (⟨p, m + n⟩ :: l)) :
    Tiles lo hi (⟨p, m⟩ :: ⟨p + m, n⟩ :: l) := fun a => (cover_split p m n l a).trans (h a)

theorem Tiles.merge {p m n : Nat} (h : Tiles lo hi (⟨p, m⟩ :: ⟨p + m, n⟩ :: l)) :
    Tiles lo hi (⟨p, m + n⟩ :: l) := fun a => (cover_split p m n l a).symm.trans (h a)

theorem Tiles.extend {n : Nat} (h : Tiles lo mid l) (hle : lo ≤ mid) :
    Tiles lo (mid + n) (⟨mid, n⟩ :: l) := by
  intro a
  rw [cover_cons, h a]
  simp only [mem_span]
  split_ifs <;> omega

theorem Tiles.mem_iff (h : Tiles lo hi l) : (∃ s ∈ l, a ∈ s) ↔ lo ≤ a ∧ a < hi := by
  constructor
  · rintro ⟨s, hs, ha⟩
    have pos := one_le_cover hs ha
    rw [h a] at pos
    by_contra hout
    rw [if_neg hout] at pos
    omega
  · intro hin
    have pos : 0 < cover l a := by rw [h a, if_pos hin]; omega
    obtain ⟨s, hs, ha⟩ := List.countP_pos_iff.mp pos
    exact ⟨s, hs, by simpa using ha⟩

def Packed (l : List Span) : Prop := ∀ a, cover l a ≤ 1

theorem Tiles.packed (h : Tiles lo hi l) : Packed l := by
  intro a
  rw [h a]
  split_ifs <;> omega

theorem Packed.pairwise (h : Packed l) : l.Pairwise Apart := by
  induction l with
  | nil => exact .nil
  | cons s l ih =>
    refine .cons ?_ (ih fun a => ?_)
    · intro t ht a hs ha
      have once := h a
      have := one_le_cover ht ha
      rw [cover_cons, if_pos hs] at once
      omega
    · have once := h a
      rw [cover_cons] at once
      omega

theorem Tiles.pairwise (h : Tiles lo hi l) : l.Pairwise Apart := h.packed.pairwise

theorem sum_cover (inside : ∀ s ∈ l, ∀ a ∈ s, lo ≤ a ∧ a < hi) :
    ∑ a ∈ Finset.Ico lo hi, cover l a = (l.map Span.size).sum := by
  induction l with
  | nil => simp
  | cons s l ih =>
    have rest := ih fun t ht => inside t (List.mem_cons_of_mem s ht)
    have own : (Finset.Ico lo hi).filter (· ∈ s) = Finset.Ico s.start (s.start + s.size) := by
      ext a
      rw [Finset.mem_filter, Finset.mem_Ico, Finset.mem_Ico, mem_span]
      exact ⟨And.right, fun ha => ⟨inside s List.mem_cons_self a ha, ha⟩⟩
    have count : ∑ a ∈ Finset.Ico lo hi, (if a ∈ s then 1 else 0) = s.size := by
      rw [← Finset.card_filter, own, Nat.card_Ico, Nat.add_sub_cancel_left]
    simp only [cover_cons, Finset.sum_add_distrib, rest, count, List.map_cons, List.sum_cons]
    omega

/-- Spans that hold no address twice are together no longer than the interval they lie in. -/
theorem Packed.size_le (h : Packed l) (inside : ∀ s ∈ l, ∀ a ∈ s, lo ≤ a ∧ a < hi) :
    (l.map Span.size).sum ≤ hi - lo := by
  rw [← sum_cover inside]
  calc ∑ a ∈ Finset.Ico lo hi, cover l a
      ≤ ∑ _a ∈ Finset.Ico lo hi, 1 := Finset.sum_le_sum fun a _ => h a
    _ = hi - lo := by simp

theorem cover_append (l l' : List Span) (a : Nat) : cover (l ++ l') a = cover l a + cover l' a :=
  List.countP_append

theorem cover_flatMap_le {ι : Type} {f g : ι → List Span} {is : List ι}
    (h : ∀ i ∈ is, cover (f i) a ≤ cover (g i) a) :
    cover (is.flatMap f) a ≤ cover (is.flatMap g) a := by
  induction is with
  | nil => exact Nat.le_refl _
  | cons i is ih =>
    rw [List.flatMap_cons, List.flatMap_cons, cover_append, cover_append]
    have first := h i List.mem_cons_self
    have rest := ih fun j hj => h j (List.mem_cons_of_mem i hj)
    omega

/-- A row of `n` spans of width `w`. -/
theorem Tiles.row (p w n : Nat) :
    Tiles p (p + n * w) ((List.range n).map fun j => ⟨p + j * w, w⟩) := by
  induction n with
  | zero => simpa using Tiles.empty p
  | succ n ih =>
    rw [List.range_succ, List.map_append, Nat.succ_mul, ← Nat.add_assoc]
    exact (ih.extend (Nat.le_add_right _ _)).perm (List.perm_append_singleton _ _).symm

end Tacos.Lib.Cover
