/- GID: Tacos/Lib/Slots
   generality: G
   source: none
   digest: Finitely many slots that hold at most one thing each, and when a thing is lost from
     them. -/

import Mathlib.Algebra.BigOperators.Group.Finset.Basic
import Mathlib.Algebra.BigOperators.Fin
import Mathlib.Algebra.Order.Group.Multiset
import Mathlib.Data.Finset.Card

set_option autoImplicit false
set_option relaxedAutoImplicit false

namespace Tacos.Lib.Slots

universe u v

variable {ι : Type u} {α : Type v}

def single (o : Option α) : Multiset α := o.elim 0 fun a => {a}

def contents [Fintype ι] (f : ι → Option α) : Multiset α := ∑ i, single (f i)

/-- Things are put into slots, one after another; what a slot held is forgotten. -/
def fill [DecidableEq ι] (f : ι → Option α) (ps : List (ι × α)) : ι → Option α :=
  ps.foldl (fun g p => Function.update g p.1 (some p.2)) f

theorem fill_cons [DecidableEq ι] (f : ι → Option α) (p : ι × α) (ps : List (ι × α)) :
    fill f (p :: ps) = fill (Function.update f p.1 (some p.2)) ps := rfl

variable [Fintype ι]

theorem contents_empty : contents (fun _ : ι => (none : Option α)) = 0 :=
  Finset.sum_const_zero

theorem mem_contents {f : ι → Option α} {a : α} : a ∈ contents f ↔ ∃ i, f i = some a := by
  have one : ∀ o : Option α, a ∈ single o ↔ o = some a := by
    intro o
    cases o with
    | none => simp [single]
    | some b => simp [single, eq_comm]
  rw [contents, Multiset.mem_sum]
  simp only [Finset.mem_univ, true_and, one]

variable [DecidableEq ι]

theorem contents_update (f : ι → Option α) (i : ι) (a : α) :
    contents (Function.update f i (some a)) + single (f i) = a ::ₘ contents f := by
  have rest : ∑ j ∈ Finset.univ.erase i, single (Function.update f i (some a) j) =
      ∑ j ∈ Finset.univ.erase i, single (f j) := by
    apply Finset.sum_congr rfl
    intro j hj
    rw [Function.update_of_ne (Finset.ne_of_mem_erase hj)]
  have old : contents f = single (f i) + ∑ j ∈ Finset.univ.erase i, single (f j) :=
    (Finset.add_sum_erase _ _ (Finset.mem_univ i)).symm
  have new : contents (Function.update f i (some a)) =
      single (some a) + ∑ j ∈ Finset.univ.erase i, single (f j) := by
    rw [contents, ← Finset.add_sum_erase _ _ (Finset.mem_univ i), rest, Function.update_self]
  rw [new, old, single, Option.elim_some, Multiset.singleton_add, Multiset.cons_add,
    add_comm (single (f i))]

/-- Nothing that is put is lost, and nothing that was there, if the slots are empty and distinct. -/
theorem contents_fill {ps : List (ι × α)} :
    ∀ {f : ι → Option α}, (ps.map Prod.fst).Nodup → (∀ p ∈ ps, f p.1 = none) →
      contents (fill f ps) = (ps.map Prod.snd : Multiset α) + contents f := by
  induction ps with
  | nil =>
    intro f _ _
    exact (zero_add _).symm
  | cons p ps ih =>
    intro f distinct empty
    rw [List.map_cons, List.nodup_cons] at distinct
    have empty' : ∀ p' ∈ ps, Function.update f p.1 (some p.2) p'.1 = none := by
      intro p' hp'
      have away : p'.1 ≠ p.1 := by
        intro hne
        exact distinct.1 (hne ▸ List.mem_map_of_mem hp')
      rw [Function.update_of_ne away]
      exact empty p' (List.mem_cons_of_mem _ hp')
    have put := contents_update f p.1 p.2
    rw [empty p List.mem_cons_self, single, Option.elim_none, add_zero] at put
    rw [fill_cons, ih distinct.2 empty', put, List.map_cons, ← Multiset.cons_coe, Multiset.add_cons,
      Multiset.cons_add]

/-- Something is lost when a slot that is not empty is used. -/
theorem card_contents_fill_le {ps : List (ι × α)} :
    ∀ {f : ι → Option α}, (contents (fill f ps)).card ≤ ps.length + (contents f).card ∧
      ((contents (fill f ps)).card = ps.length + (contents f).card →
        (ps.map Prod.fst).Nodup ∧ ∀ p ∈ ps, f p.1 = none) := by
  induction ps with
  | nil =>
    intro f
    refine ⟨(Nat.zero_add _).ge, fun _ => ⟨List.nodup_nil, ?_⟩⟩
    exact fun p hp => nomatch hp
  | cons p ps ih =>
    intro f
    obtain ⟨bound, strict⟩ := ih (f := Function.update f p.1 (some p.2))
    have put := congrArg Multiset.card (contents_update f p.1 p.2)
    rw [Multiset.card_add, Multiset.card_cons] at put
    rw [fill_cons, List.length_cons]
    refine ⟨by omega, ?_⟩
    intro full
    have unused : (single (f p.1)).card = 0 := by omega
    obtain ⟨distinct, empty⟩ := strict (by omega)
    have free : f p.1 = none := by
      cases slot : f p.1 with
      | none => rfl
      | some a =>
        rw [slot, single, Option.elim_some, Multiset.card_singleton] at unused
        omega
    have fresh : p.1 ∉ ps.map Prod.fst := by
      intro again
      obtain ⟨p', hp', same⟩ := List.mem_map.mp again
      have held := empty p' hp'
      rw [same, Function.update_self] at held
      cases held
    refine ⟨List.nodup_cons.mpr ⟨fresh, distinct⟩, ?_⟩
    intro p' hp'
    rcases List.mem_cons.mp hp' with rfl | hp'
    · exact free
    · have held := empty p' hp'
      rwa [Function.update_of_ne] at held
      intro same
      exact fresh (same ▸ List.mem_map_of_mem hp')

/-- What is put into empty slots is all there in the end if and only if no slot is used twice. -/
theorem contents_fill_empty_iff (ps : List (ι × α)) :
    contents (fill (fun _ => none) ps) = (ps.map Prod.snd : Multiset α) ↔
      (ps.map Prod.fst).Nodup := by
  constructor
  · intro all
    have full := congrArg Multiset.card all
    rw [Multiset.coe_card, List.length_map] at full
    refine (card_contents_fill_le (f := fun _ => none) |>.2 ?_).1
    rw [full, contents_empty, Multiset.card_zero, Nat.add_zero]
  · intro distinct
    rw [contents_fill distinct fun _ _ => rfl, contents_empty, add_zero]

end Tacos.Lib.Slots
