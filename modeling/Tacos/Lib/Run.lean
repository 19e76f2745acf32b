/- GID: Tacos/Lib/Run
   generality: G
   source: none
   digest: Finite runs of a partial step function, invariants of runs and guarded runs. -/

import Mathlib.Logic.Relation

set_option autoImplicit false
set_option relaxedAutoImplicit false

namespace Tacos.Lib.Run

universe u v

variable {S : Type u} {E : Type v}

/-- Fold a finite list of events through a partial step function. -/
def run (step : S → E → Option S) : S → List E → Option S
  | s, [] => some s
  | s, e :: es => (step s e).bind fun t => run step t es

/-- Every event of the run satisfies the guard in the state it is taken from. -/
def Guarded (step : S → E → Option S) (guard : S → E → Prop) : S → List E → Prop
  | _, [] => True
  | s, e :: es => guard s e ∧ ∀ t, step s e = some t → Guarded step guard t es

instance decidableGuarded (step : S → E → Option S) (guard : S → E → Prop)
    [∀ s e, Decidable (guard s e)] : ∀ s es, Decidable (Guarded step guard s es)
  | _, [] => .isTrue trivial
  | s, e :: es =>
    have : ∀ t, Decidable (Guarded step guard t es) := fun t => decidableGuarded step guard t es
    inferInstanceAs (Decidable (guard s e ∧ ∀ t ∈ step s e, Guarded step guard t es))

@[simp] theorem run_nil (step : S → E → Option S) (s : S) : run step s [] = some s := rfl

theorem run_cons {step : S → E → Option S} {s t : S} {e : E} {es : List E} :
    run step s (e :: es) = some t ↔ ∃ m, step s e = some m ∧ run step m es = some t := by
  simp only [run, Option.bind_eq_some_iff]

theorem run_append {step : S → E → Option S} {s t : S} {es fs : List E} :
    run step s (es ++ fs) = some t ↔ ∃ m, run step s es = some m ∧ run step m fs = some t := by
  induction es generalizing s with
  | nil => simp
  | cons e es ih =>
    rw [List.cons_append, run_cons]
    constructor
    · rintro ⟨m, he, hm⟩
      obtain ⟨n, hes, hfs⟩ := ih.mp hm
      exact ⟨n, run_cons.mpr ⟨m, he, hes⟩, hfs⟩
    · rintro ⟨n, hes, hfs⟩
      obtain ⟨m, he, hm⟩ := run_cons.mp hes
      exact ⟨m, he, ih.mpr ⟨n, hm, hfs⟩⟩

theorem Guarded.imp {step : S → E → Option S} {guard guard' : S → E → Prop}
    (weaker : ∀ s e, guard s e → guard' s e) {s : S} {es : List E}
    (meets : Guarded step guard s es) : Guarded step guard' s es := by
  induction es generalizing s with
  | nil => trivial
  | cons e es ih => exact ⟨weaker s e meets.1, fun t ht => ih (meets.2 t ht)⟩

theorem Guarded.append {step : S → E → Option S} {guard : S → E → Prop} {s : S} {es fs : List E}
    (meets : Guarded step guard s (es ++ fs)) :
    Guarded step guard s es ∧ ∀ t, run step s es = some t → Guarded step guard t fs := by
  induction es generalizing s with
  | nil =>
    refine ⟨trivial, fun t ran => ?_⟩
    obtain rfl := Option.some.inj ran
    exact meets
  | cons e es ih =>
    refine ⟨⟨meets.1, fun t ht => (ih (meets.2 t ht)).1⟩, fun t ran => ?_⟩
    obtain ⟨m, he, hm⟩ := run_cons.mp ran
    exact (ih (meets.2 m he)).2 t hm

theorem run_invariant {step : S → E → Option S} {I : S → Prop}
    (preserved : ∀ s e t, I s → step s e = some t → I t)
    {s t : S} {es : List E} (start : I s) (ran : run step s es = some t) : I t := by
  induction es generalizing s with
  | nil =>
    rw [run_nil, Option.some.injEq] at ran
    exact ran ▸ start
  | cons e es ih =>
    obtain ⟨m, he, hm⟩ := run_cons.mp ran
    exact ih (preserved s e m start he) hm

/-- What every guarded step preserves, every guarded run preserves. -/
theorem guarded_run_invariant {step : S → E → Option S} {guard : S → E → Prop} {I : S → Prop}
    (preserved : ∀ s e t, I s → guard s e → step s e = some t → I t)
    {s t : S} {es : List E} (start : I s) (meets : Guarded step guard s es)
    (ran : run step s es = some t) : I t := by
  induction es generalizing s with
  | nil =>
    rw [run_nil, Option.some.injEq] at ran
    exact ran ▸ start
  | cons e es ih =>
    obtain ⟨m, he, hm⟩ := run_cons.mp ran
    exact ih (preserved s e m start meets.1 he) (meets.2 m he) hm

/-- Where every guarded step is matched by some steps of another machine, every guarded run is
matched by a run. -/
theorem guarded_run_simulates {T F : Type*} {step : S → E → Option S} {guard : S → E → Prop}
    {step' : T → F → Option T} {good : F → Prop} {R : S → T → Prop}
    (matched : ∀ s e s' t, R s t → guard s e → step s e = some s' →
      ∃ fs t', (∀ f ∈ fs, good f) ∧ run step' t fs = some t' ∧ R s' t')
    {s s' : S} {t : T} {es : List E} (start : R s t) (meets : Guarded step guard s es)
    (ran : run step s es = some s') :
    ∃ fs t', (∀ f ∈ fs, good f) ∧ run step' t fs = some t' ∧ R s' t' := by
  induction es generalizing s t with
  | nil =>
    obtain rfl := Option.some.inj ran
    exact ⟨[], t, by simp, rfl, start⟩
  | cons e es ih =>
    obtain ⟨m, he, hm⟩ := run_cons.mp ran
    obtain ⟨fs, u, fine, first, related⟩ := matched s e m t start meets.1 he
    obtain ⟨gs, v, fine', second, last⟩ := ih related (meets.2 m he) hm
    exact ⟨fs ++ gs, v, List.forall_mem_append.mpr ⟨fine, fine'⟩,
      run_append.mpr ⟨u, first, second⟩, last⟩

/-- Two guards that come to the same for every step taken under an invariant come to the same for
every run that ends. -/
theorem guarded_congr {step : S → E → Option S} {guard p q : S → E → Prop} {I : S → Prop}
    (same : ∀ s e t, I s → guard s e → step s e = some t → I t ∧ (p s e ↔ q s e))
    {s t : S} {es : List E} (start : I s) (meets : Guarded step guard s es)
    (ran : run step s es = some t) : Guarded step p s es ↔ Guarded step q s es := by
  induction es generalizing s with
  | nil => exact Iff.rfl
  | cons e es ih =>
    obtain ⟨m, he, hm⟩ := run_cons.mp ran
    obtain ⟨keeps, here⟩ := same s e m start meets.1 he
    have rest := ih keeps (meets.2 m he) hm
    constructor
    · rintro ⟨first, after⟩
      refine ⟨here.mp first, fun n hn => ?_⟩
      obtain rfl := Option.some.inj (he.symm.trans hn)
      exact rest.mp (after m he)
    · rintro ⟨first, after⟩
      refine ⟨here.mpr first, fun n hn => ?_⟩
      obtain rfl := Option.some.inj (he.symm.trans hn)
      exact rest.mpr (after m he)

/-- Where a step from a state with `P` leads to one with `P` exactly if it is fair, all states of
a run have `P` exactly if all its steps are fair. -/
theorem reached_iff_guarded {step : S → E → Option S} {fair : S → E → Prop} {I P : S → Prop}
    (kept : ∀ s e t, I s → step s e = some t → I t)
    (exactly : ∀ s e t, I s → P s → step s e = some t → (P t ↔ fair s e))
    {s t : S} {es : List E} (start : I s) (here : P s) (ran : run step s es = some t) :
    (∀ as bs u, es = as ++ bs → run step s as = some u → P u) ↔ Guarded step fair s es := by
  induction es generalizing s with
  | nil =>
    refine ⟨fun _ => trivial, fun _ as bs u split reached => ?_⟩
    obtain ⟨rfl, -⟩ := List.append_eq_nil_iff.mp split.symm
    obtain rfl := Option.some.inj reached
    exact here
  | cons e es ih =>
    obtain ⟨m, he, hm⟩ := run_cons.mp ran
    have first := exactly s e m start here he
    constructor
    · intro all
      have next : P m := all [e] es m rfl (run_cons.mpr ⟨m, he, rfl⟩)
      refine ⟨first.mp next, fun n hn => ?_⟩
      obtain rfl := Option.some.inj (he.symm.trans hn)
      refine (ih (kept s e m start he) next hm).mp fun as bs u split reached => ?_
      exact all (e :: as) bs u (congrArg (e :: ·) split) (run_cons.mpr ⟨m, he, reached⟩)
    · rintro ⟨fine, rest⟩ as bs u split reached
      have next := first.mpr fine
      cases as with
      | nil =>
        obtain rfl := Option.some.inj reached
        exact here
      | cons e' as =>
        obtain ⟨rfl, rfl⟩ := List.cons.inj split
        obtain ⟨n, hn, reached⟩ := run_cons.mp reached
        obtain rfl := Option.some.inj (he.symm.trans hn)
        exact (ih (kept s e m start he) next hm).mpr (rest m he) as bs u rfl reached

end Tacos.Lib.Run
