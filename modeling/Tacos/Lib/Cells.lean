/- GID: Tacos/Lib/Cells
   generality: G
   source: none
   digest: Arrays of which some cells are known, and the writes and resizes that keep them so. -/

import Mathlib.Data.Option.Basic
import Mathlib.Order.Lattice

set_option autoImplicit false
set_option relaxedAutoImplicit false

namespace Tacos.Lib

universe u

/-- An array of a given length; a cell that holds nothing here may hold anything. -/
structure Cells (α : Type u) where
  len : Nat
  cell : Nat → Option α

variable {α : Type u}

namespace Cells

/-- The array becomes long enough for the values, and they are put there. Cells that come in with
the length and get no value are not known. -/
def write (c : Cells α) (off : Nat) (xs : List α) : Cells α where
  len := max c.len (off + xs.length)
  cell i := if off ≤ i ∧ i < off + xs.length then xs[i - off]? else if i <
  c.len then c.cell i else none

/-- A cell that was outside is not known when it comes back. -/
def resize (c : Cells α) (n : Nat) : Cells α where
  len := n
  cell i := if i < n ∧ i < c.len then c.cell i else none

/-- The first `len` values of `f` are an array of which the known cells are right. -/
structure Known (c : Cells α) (len : Nat) (f : Nat → α) : Prop where
  len_eq : len = c.len
  cell_eq : ∀ i < c.len, ∀ a ∈ c.cell i, f i = a

variable {c : Cells α} {len : Nat} {f g : Nat → α}

namespace Known

theorem congr (h : c.Known len f) (same : ∀ i < len, g i = f i) : c.Known len g := by
  refine ⟨h.len_eq, ?_⟩
  intro i hi a ha
  rw [same i (h.len_eq ▸ hi)]
  exact h.cell_eq i hi a ha

theorem write (h : c.Known len f) {off : Nat} {xs : List α}
    (inside : ∀ i, off ≤ i → i < off + xs.length → xs[i - off]? = some (g i))
    (outside : ∀ i < len, ¬(off ≤ i ∧ i < off + xs.length) → g i = f i) :
    (c.write off xs).Known (max len (off + xs.length)) g := by
  refine ⟨by rw [h.len_eq]; rfl, ?_⟩
  intro i _ a ha
  change a ∈ (if off ≤ i ∧ i < off + xs.length then xs[i - off]?
    else if i < c.len then c.cell i else none) at ha
  split at ha
  · rename_i range
    rw [inside i range.1 range.2, Option.mem_some] at ha
    exact ha
  · rename_i range
    split at ha
    · rename_i old
      rw [outside i (h.len_eq ▸ old) range]
      exact h.cell_eq i old a ha
    · cases ha

theorem resize (h : c.Known len f) {n : Nat} (kept : ∀ i, i < n → i < len → g i = f i) :
    (c.resize n).Known n g := by
  refine ⟨rfl, ?_⟩
  intro i _ a ha
  change a ∈ (if i < n ∧ i < c.len then c.cell i else none) at ha
  split at ha
  · rename_i both
    rw [kept i both.1 (h.len_eq ▸ both.2)]
    exact h.cell_eq i both.2 a ha
  · cases ha

end Known

end Cells

end Tacos.Lib
