/- GID: Tacos/Lib/Buckets
   generality: G
   source: none
   digest: Replacing one bucket of an indexed family of lists. -/

import Mathlib.Data.List.Perm.Basic
import Mathlib.Logic.Function.Basic

set_option autoImplicit false
set_option relaxedAutoImplicit false

namespace Tacos.Lib.Buckets

open scoped List

variable {ι α : Type} [DecidableEq ι]

theorem flatMap_update_perm {is : List ι} (nodup : is.Nodup) {i : ι} (member : i ∈ is)
    (f : ι → List α) (l : List α) :
    (is.flatMap (Function.update f i l) ++ f i).Perm (is.flatMap f ++ l) := by
  induction is with
  | nil => cases member
  | cons j is ih =>
    obtain ⟨fresh, rest⟩ := List.nodup_cons.mp nodup
    simp only [List.flatMap_cons, List.append_assoc]
    by_cases hij : i = j
    · subst hij
      have same : is.flatMap (Function.update f i l) = is.flatMap f := by
        apply List.flatMap_congr
        intro k hk
        have : k ≠ i := fun h => fresh (h ▸ hk)
        simp [this]
      rw [Function.update_self, same]
      calc l ++ (is.flatMap f ++ f i) ~ (is.flatMap f ++ f i) ++ l := List.perm_append_comm
        _ ~ (f i ++ is.flatMap f) ++ l := List.perm_append_comm.append_right l
        _ = f i ++ (is.flatMap f ++ l) := List.append_assoc _ _ _
    · rw [Function.update_of_ne (Ne.symm hij)]
      have hi : i ∈ is := (List.mem_cons.mp member).resolve_left hij
      exact (ih rest hi).append_left (f j)

theorem flatMap_take_perm {is : List ι} (nodup : is.Nodup) {i : ι} (member : i ∈ is)
    {f : ι → List α} {x : α} {l : List α} (h : (f i).Perm (x :: l)) :
    (x :: is.flatMap (Function.update f i l)).Perm (is.flatMap f) := by
  apply (List.perm_append_right_iff l).mp
  calc x :: is.flatMap (Function.update f i l) ++ l
      ~ is.flatMap (Function.update f i l) ++ x :: l := List.perm_middle.symm
    _ ~ is.flatMap (Function.update f i l) ++ f i := h.symm.append_left _
    _ ~ is.flatMap f ++ l := flatMap_update_perm nodup member f l

end Tacos.Lib.Buckets
