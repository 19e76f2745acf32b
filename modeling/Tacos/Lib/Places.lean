/- GID: Tacos/Lib/Places
   generality: G
   source: none
   digest: A finite map kept in a fixed number of places, and what a history of changes leaves in
     it. -/

import Mathlib.Logic.Basic
import Mathlib.Data.Option.Basic
import Mathlib.Tactic.Common

set_option autoImplicit false
set_option relaxedAutoImplicit false

namespace Tacos.Lib.Places

universe u v

variable {κ : Type u} {ν : Type v}

/-- Places that hold a key with its value, or nothing. -/
abbrev Table (κ : Type u) (ν : Type v) := List (Option (κ × ν))

def Absent (k : κ) (ps : Table κ ν) : Prop := ∀ v, some (k, v) ∉ ps

def Room (ps : Table κ ν) : Prop := none ∈ ps

/-- Put a pair into the first empty place, if there is one. -/
def insert (k : κ) (v : ν) : Table κ ν → Table κ ν
  | [] => []
  | none :: ps => some (k, v) :: ps
  | some p :: ps => some p :: insert k v ps

def keep (f : ν → Bool) (ps : Table κ ν) : Table κ ν := ps.map (Option.filter fun p => f p.2)

def lookup [DecidableEq κ] (k : κ) : Table κ ν → Option ν
  | [] => none
  | none :: ps => lookup k ps
  | some p :: ps => if k = p.1 then some p.2 else lookup k ps

theorem insert_eq_set (k : κ) (v : ν) {ps : Table κ ν} {i : Nat}
    (place : ps.findIdx? Option.isNone = some i) :
    insert k v ps = ps.set i (some (k, v)) := by
  induction ps generalizing i with
  | nil => cases place
  | cons o ps ih =>
    rw [List.findIdx?_cons] at place
    cases o with
    | none =>
      obtain rfl : i = 0 := by simpa using place.symm
      rfl
    | some p =>
      obtain ⟨j, there, rfl⟩ : ∃ j, ps.findIdx? Option.isNone = some j ∧ j + 1 = i := by
        simpa using place
      rw [insert, ih there, List.set_cons_succ]

theorem insert_full (k : κ) (v : ν) {ps : Table κ ν} (full : ¬Room ps) : insert k v ps = ps := by
  induction ps with
  | nil => rfl
  | cons o ps ih =>
    cases o with
    | none => exact absurd List.mem_cons_self full
    | some p => rw [insert, ih fun room => full (List.mem_cons_of_mem _ room)]

@[simp] theorem length_insert (k : κ) (v : ν) (ps : Table κ ν) :
    (insert k v ps).length = ps.length := by
  induction ps with
  | nil => rfl
  | cons o ps ih =>
    cases o with
    | none => rfl
    | some p => rw [insert, List.length_cons, List.length_cons, ih]

@[simp] theorem length_keep (f : ν → Bool) (ps : Table κ ν) : (keep f ps).length = ps.length :=
  List.length_map _

/-- What is in a place after an insertion was there before or is the new pair. -/
theorem mem_insert {k : κ} {v : ν} {ps : Table κ ν} {p : κ × ν} (h : some p ∈ insert k v ps) :
    some p ∈ ps ∨ p = (k, v) := by
  induction ps with
  | nil => cases h
  | cons o ps ih =>
    cases o with
    | none =>
      obtain here | later := List.mem_cons.mp h
      · exact .inr (Option.some.inj here)
      · exact .inl (List.mem_cons_of_mem _ later)
    | some q =>
      obtain here | later := List.mem_cons.mp h
      · exact .inl (List.mem_cons.mpr (.inl here))
      · exact (ih later).imp_left (List.mem_cons_of_mem _)

theorem mem_keep {f : ν → Bool} {ps : Table κ ν} {p : κ × ν} :
    some p ∈ keep f ps ↔ some p ∈ ps ∧ f p.2 = true := by
  rw [keep, List.mem_map]
  constructor
  · rintro ⟨o, ho, eq⟩
    obtain ⟨rfl, kept⟩ := Option.filter_eq_some_iff.mp eq
    exact ⟨ho, kept⟩
  · rintro ⟨hp, kept⟩
    exact ⟨some p, hp, Option.filter_eq_some_iff.mpr ⟨rfl, kept⟩⟩

theorem keep_keep (f g : ν → Bool) (ps : Table κ ν) :
    keep f (keep g ps) = keep (fun v => g v && f v) ps := by
  rw [keep, keep, keep, List.map_map]
  apply List.map_congr_left
  intro o _
  rw [Function.comp_apply, Option.filter_filter]

theorem keep_true (ps : Table κ ν) : keep (fun _ => true) ps = ps := by
  rw [keep]
  conv_rhs => rw [← List.map_id ps]
  apply List.map_congr_left
  intro o _
  cases o <;> rfl

variable [DecidableEq κ]

theorem lookup_mem {k : κ} {v : ν} {ps : Table κ ν} (found : lookup k ps = some v) :
    some (k, v) ∈ ps := by
  induction ps with
  | nil => cases found
  | cons o ps ih =>
    cases o with
    | none => exact List.mem_cons_of_mem _ (ih found)
    | some p =>
      rw [lookup] at found
      split at found
      · rename_i here
        obtain rfl := here
        obtain rfl := Option.some.inj found
        exact List.mem_cons_self
      · exact List.mem_cons_of_mem _ (ih found)

theorem lookup_eq_none {k : κ} {ps : Table κ ν} : lookup k ps = none ↔ Absent k ps := by
  constructor
  · intro nothing v hv
    induction ps with
    | nil => cases hv
    | cons o ps ih =>
      cases o with
      | none => exact ih nothing (List.mem_of_ne_of_mem (Option.some_ne_none _) hv)
      | some p =>
        rw [lookup] at nothing
        split at nothing
        · cases nothing
        · rename_i other
          obtain here | later := List.mem_cons.mp hv
          · obtain rfl := Option.some.inj here
            exact other rfl
          · exact ih nothing later
  · intro absent
    cases found : lookup k ps with
    | none => rfl
    | some v => exact absurd (lookup_mem found) (absent v)

/-- What is found among the kept values once an absent key has been inserted. -/
theorem lookup_keep_insert {k : κ} {v : ν} {ps : Table κ ν} (absent : Absent k ps)
    (f : ν → Bool) (k' : κ) (v' : ν) :
    lookup k' (keep f (insert k v ps)) = some v' ↔
      (Room ps ∧ k' = k ∧ v' = v ∧ f v = true) ∨ lookup k' (keep f ps) = some v' := by
  induction ps with
  | nil => simp [insert, keep, lookup, Room]
  | cons o ps ih =>
    have rest : Absent k ps := fun v hv => absent v (List.mem_cons_of_mem _ hv)
    have out : lookup k (keep f ps) = none := lookup_eq_none.mpr
      fun v hv => rest v (mem_keep.mp hv).1
    cases o with
    | none =>
      have room : Room (none :: ps) := List.mem_cons_self
      change lookup k' ((some (k, v)).filter (fun p => f p.2) :: keep f ps) = _ ↔
        _ ∨ lookup k' (keep f ps) = _
      by_cases kept : f v = true
      · have here : (some (k, v)).filter (fun p => f p.2) = some (k, v) := if_pos kept
        rw [here, lookup]
        by_cases same : k' = k
        · subst same
          simp [room, kept, out, eq_comm]
        · simp [same]
      · have here : (some (k, v)).filter (fun p => f p.2) = none := if_neg kept
        rw [here, lookup]
        simp [kept]
    | some p =>
      have room : Room (some p :: ps) ↔ Room ps := by simp [Room]
      have other : k ≠ p.1 := by
        rintro rfl
        exact absent p.2 List.mem_cons_self
      change lookup k' ((some p).filter (fun p => f p.2) :: keep f (insert k v ps)) = _ ↔
        _ ∨ lookup k' ((some p).filter (fun p => f p.2) :: keep f ps) = _
      rw [room]
      by_cases kept : f p.2 = true
      · have here : (some p).filter (fun p => f p.2) = some p := if_pos kept
        rw [here, lookup, lookup]
        by_cases same : k' = p.1
        · subst same
          simp [Ne.symm other]
        · rw [if_neg same, if_neg same]
          exact ih rest
      · have here : (some p).filter (fun p => f p.2) = none := if_neg kept
        rw [here, lookup, lookup]
        exact ih rest

/-- A change of the map: a pair is put in, or every pair of a value is taken out. -/
inductive Op (κ : Type u) (ν : Type v) where
  | insert (k : κ) (v : ν)
  | remove (v : ν)
  deriving DecidableEq

variable [DecidableEq ν]

def act (ps : Table κ ν) : Op κ ν → Table κ ν
  | .insert k v => insert k v ps
  | .remove v => keep (fun w => w != v) ps

def Fresh : Table κ ν → List (Op κ ν) → Prop
  | _, [] => True
  | ps, op :: ops => (∀ k v, op = .insert k v → Absent k ps) ∧ Fresh (act ps op) ops

/-- The values that no change of the list takes out. -/
def spared (ops : List (Op κ ν)) (v : ν) : Bool := decide (.remove v ∉ ops)

/-- After a history of changes a key has the value it was inserted with, once there was room for
it and the value has not been taken out since; or else the one it had at first. -/
theorem lookup_history {ps : Table κ ν} {ops : List (Op κ ν)}
    (fresh : Fresh ps ops) (k : κ) (v : ν) :
    lookup k (ops.foldl act ps) = some v ↔
      (∃ as bs, ops = as ++ .insert k v :: bs ∧ Room (as.foldl act ps) ∧ .remove v ∉ bs) ∨
        lookup k (keep (spared ops) ps) = some v := by
  induction ops generalizing ps with
  | nil =>
    have all : spared ([] : List (Op κ ν)) = fun _ => true := by
      funext w
      simp [spared]
    rw [all, keep_true]
    simp
  | cons op ops ih =>
    rw [List.foldl_cons, ih fresh.2]
    cases op with
    | insert k' v' =>
      have same : spared (.insert k' v' :: ops) = spared ops := by
        funext w
        simp [spared]
      change _ ∨ lookup k (keep (spared ops) (insert k' v' ps)) = some v ↔ _
      rw [lookup_keep_insert (fresh.1 k' v' rfl), same, ← or_assoc]
      refine or_congr_left ?_
      constructor
      · rintro (⟨as, bs, rfl, room, kept⟩ | ⟨room, rfl, rfl, kept⟩)
        · exact ⟨.insert k' v' :: as, bs, rfl, room, kept⟩
        · exact ⟨[], ops, rfl, room, of_decide_eq_true kept⟩
      · rintro ⟨as, bs, split, room, kept⟩
        cases as with
        | nil =>
          obtain ⟨here, rfl⟩ := List.cons.inj split
          obtain ⟨rfl, rfl⟩ := Op.insert.inj here
          exact .inr ⟨room, rfl, rfl, decide_eq_true kept⟩
        | cons op as =>
          obtain ⟨rfl, rfl⟩ := List.cons.inj split
          exact .inl ⟨as, bs, rfl, room, kept⟩
    | remove n =>
      have both : (fun w => (w != n) && spared ops w) = spared (.remove n :: ops) := by
        funext w
        by_cases same : w = n
        · simp [spared, same]
        · simp [spared, same, bne_iff_ne]
      change _ ∨ lookup k (keep (spared ops) (keep (fun w => w != n) ps)) = some v ↔ _
      rw [keep_keep, both]
      refine or_congr_left ?_
      constructor
      · rintro ⟨as, bs, rfl, room, kept⟩
        exact ⟨.remove n :: as, bs, rfl, room, kept⟩
      · rintro ⟨as, bs, split, room, kept⟩
        cases as with
        | nil => cases (List.cons.inj split).1
        | cons op as =>
          obtain ⟨rfl, rfl⟩ := List.cons.inj split
          exact ⟨as, bs, rfl, room, kept⟩

omit [DecidableEq κ] in
theorem Fresh.append {ps : Table κ ν} {as bs : List (Op κ ν)} (fresh : Fresh ps (as ++ bs)) :
    Fresh ps as ∧ Fresh (as.foldl act ps) bs := by
  induction as generalizing ps with
  | nil => exact ⟨trivial, fresh⟩
  | cons op as ih => exact ⟨⟨fresh.1, (ih fresh.2).1⟩, (ih fresh.2).2⟩

/-- A key whose value has not been taken out is not inserted a second time. -/
theorem not_inserted_again {ps : Table κ ν} {as bs : List (Op κ ν)} {k : κ} {v : ν}
    (fresh : Fresh ps (as ++ .insert k v :: bs)) (room : Room (as.foldl act ps))
    (kept : .remove v ∉ bs) (w : ν) :
    .insert k w ∉ bs := by
  intro again
  obtain ⟨cs, ds, rfl⟩ := List.append_of_mem again
  have whole : as ++ Op.insert k v :: (cs ++ .insert k w :: ds) =
    (as ++ .insert k v :: cs) ++ .insert k w :: ds := by
    rw [List.append_assoc, List.cons_append]
  rw [whole] at fresh
  obtain ⟨before, after⟩ := fresh.append
  have there := (lookup_history before k v).mpr
    (.inl ⟨as, cs, rfl, room, fun h => kept (List.mem_append_left _ h)⟩)
  exact after.1 k w rfl v (lookup_mem there)

end Tacos.Lib.Places
