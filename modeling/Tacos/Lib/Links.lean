/- GID: Tacos/Lib/Links
   generality: G
   source: none
   digest: Null-terminated chains of links, and what pushing and unlinking do to them. -/

import Mathlib.Data.List.Nodup
import Mathlib.Logic.Function.Basic

set_option autoImplicit false
set_option relaxedAutoImplicit false

namespace Tacos.Lib.Links

variable {α : Type} {null : α} {next next' : α → α}

/-- Following `next` from a head visits exactly the list and then reaches `null`. -/
def Chain (null : α) (next : α → α) : α → List α → Prop
  | h, [] => h = null
  | h, p :: l => h = p ∧ p ≠ null ∧ Chain null next (next p) l

theorem Chain.ne_null {h : α} {l : List α} (hc : Chain null next h l) {p : α} (hp : p ∈ l) :
    p ≠ null := by
  induction l generalizing h with
  | nil => cases hp
  | cons q l ih =>
    obtain ⟨-, hq, hl⟩ := hc
    rcases List.mem_cons.mp hp with rfl | hp
    · exact hq
    · exact ih hl hp

theorem Chain.eq_null_iff {h : α} {l : List α} (hc : Chain null next h l) :
    h = null ↔ l = [] := by
  cases l with
  | nil => exact iff_of_true hc rfl
  | cons p l =>
    obtain ⟨rfl, hp, -⟩ := hc
    simp [hp]

theorem Chain.unique {h : α} {l l' : List α} (hc : Chain null next h l)
    (hc' : Chain null next h l') : l = l' := by
  induction l generalizing h l' with
  | nil => exact (hc'.eq_null_iff.mp hc).symm
  | cons p l ih =>
    obtain ⟨rfl, hp, hl⟩ := hc
    cases l' with
    | nil => exact (hp hc').elim
    | cons q l' =>
      obtain ⟨rfl, -, hl'⟩ := hc'
      rw [ih hl hl']

theorem Chain.suffix {h p : α} {l₁ l₂ : List α} (hc : Chain null next h (l₁ ++ p :: l₂)) :
    Chain null next p (p :: l₂) := by
  induction l₁ generalizing h with
  | nil =>
    obtain ⟨rfl, hp, hl⟩ := hc
    exact ⟨rfl, hp, hl⟩
  | cons q l₁ ih => exact ih hc.2.2

theorem Chain.nodup {h : α} {l : List α} (hc : Chain null next h l) : l.Nodup := by
  induction l generalizing h with
  | nil => exact List.nodup_nil
  | cons p l ih =>
    obtain ⟨rfl, hp, hl⟩ := hc
    refine List.nodup_cons.mpr ⟨?_, ih hl⟩
    intro hmem
    -- a repeated node would be followed by two lists of different lengths
    obtain ⟨l₁, l₂, rfl⟩ := List.append_of_mem hmem
    have whole : Chain null next h (h :: (l₁ ++ h :: l₂)) := ⟨rfl, hp, hl⟩
    have same := hl.suffix.unique whole
    have := congrArg List.length same
    simp at this
    omega

theorem Chain.congr {h : α} {l : List α} (hc : Chain null next h l)
    (same : ∀ p ∈ l, next' p = next p) : Chain null next' h l := by
  induction l generalizing h with
  | nil => exact hc
  | cons p l ih =>
    obtain ⟨rfl, hp, hl⟩ := hc
    refine ⟨rfl, hp, ?_⟩
    rw [same h List.mem_cons_self]
    exact ih hl fun q hq => same q (List.mem_cons_of_mem h hq)

theorem Chain.unlink {h p q : α} {l₁ l₂ : List α}
    (hc : Chain null next h (l₁ ++ q :: p :: l₂))
    (same : ∀ r ∈ l₁ ++ q :: p :: l₂, r ≠ q → next' r = next r) (hq : next' q = next p) :
    Chain null next' h (l₁ ++ q :: l₂) := by
  induction l₁ generalizing h with
  | nil =>
    have nodup := hc.nodup
    obtain ⟨rfl, hn, -, -, hl⟩ := hc
    refine ⟨rfl, hn, ?_⟩
    rw [hq]
    refine hl.congr fun r hr => same r (by simp [hr]) ?_
    rintro rfl
    simp [hr] at nodup
  | cons r l₁ ih =>
    have nodup := hc.nodup
    obtain ⟨rfl, hn, hl⟩ := hc
    refine ⟨rfl, hn, ?_⟩
    rw [same h (by simp)]
    · exact ih hl fun s hs => same s (List.mem_cons_of_mem h hs)
    · rintro rfl
      simp at nodup

end Tacos.Lib.Links
