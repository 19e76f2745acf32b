/- GID: Tacos/Lib/InStep
   generality: G
   source: none
   digest: Calls on two states that no caller can tell apart, one at a time and in sequences. -/

import Tacos.Lib.Exec
import Tacos.Lib.Run

set_option autoImplicit false
set_option relaxedAutoImplicit false

namespace Tacos.Lib.InStep

open Exec Run

variable {σ τ ρ ε η α β ι ν : Type}

/-- The same value, the same failure or the same stop, in states that are related. -/
inductive Agree (R : σ → τ → Prop) : Outcome σ ε η α → Outcome τ ε η α → Prop where
  | ok {a : α} {s : σ} {t : τ} (related : R s t) : Agree R (.ok a s) (.ok a t)
  | err {e : ε} {s : σ} {t : τ} (related : R s t) : Agree R (.err e s) (.err e t)
  | halt {h : η} : Agree R (.halt h) (.halt h)

variable {R : σ → τ → Prop} {x : Call σ ε η α} {y : Call τ ε η α} {s : σ} {t : τ}

theorem Agree.bind {f : α → Call σ ε η β} {g : α → Call τ ε η β} (first : Agree R (x s) (y t))
    (next : ∀ a s' t', R s' t' → Agree R (f a s') (g a t')) :
    Agree R ((x >>= f) s) ((y >>= g) t) := by
  rw [Call.bind_apply, Call.bind_apply]
  generalize x s = o at first
  generalize y t = p at first
  cases first with
  | ok related => exact next _ _ _ related
  | err related => exact .err related
  | halt => exact .halt

theorem Agree.symm {o : Outcome σ ε η α} {p : Outcome τ ε η α} (agree : Agree R o p) :
    Agree (fun t s => R s t) p o := by
  cases agree with
  | ok related => exact .ok related
  | err related => exact .err related
  | halt => exact .halt

theorem Agree.join {S : ρ → τ → Prop} {o : Outcome σ ε η α}
    {p : Outcome ρ ε η α} {q : Outcome τ ε η α}
    (left : Agree R o q) (right : Agree S p q) : Agree (fun s r => ∃ t, R s t ∧ S r t) o p := by
  cases left with
  | ok hl =>
    cases right with
    | ok hr => exact .ok ⟨_, hl, hr⟩
  | err hl =>
    cases right with
    | err hr => exact .err ⟨_, hl, hr⟩
  | halt =>
    cases right with
    | halt => exact .halt

/-- The state in which the caller goes on, if it does. -/
def after : Outcome σ ε η α → Option σ
  | .ok _ s => some s
  | .err _ s => some s
  | .halt _ => none

/-- Calls one after the other: each answer with what is seen of the state after it, and the last
state, or the reason why the machine has stopped. A call that fails is followed by the next. -/
def trace (perform : ι → Call σ ε η α) (view : σ → ν) :
    List ι → σ → List (Except ε α × ν) × Except η σ
  | [], s => ([], .ok s)
  | i :: is, s =>
    match perform i s with
    | .ok a t => ((.ok a, view t) :: (trace perform view is t).1, (trace perform view is t).2)
    | .err e t => ((.error e, view t) :: (trace perform view is t).1, (trace perform view is t).2)
    | .halt h => ([], .error h)

/-- Two sequences came to related states or stopped for the same reason. -/
def SameEnd (R : σ → τ → Prop) : Except η σ → Except η τ → Prop
  | .ok s, .ok t => R s t
  | .error h, .error k => h = k
  | _, _ => False

theorem SameEnd.imp {S : σ → τ → Prop} (weaker : ∀ s t, R s t → S s t)
    {o : Except η σ} {p : Except η τ}
    (same : SameEnd R o p) : SameEnd S o p := by
  cases o with
  | ok s =>
    cases p with
    | ok t => exact weaker s t same
    | error k => exact same
  | error h =>
    cases p with
    | ok t => exact same
    | error k => exact same

/-- Calls that agree one at a time, from related states and under a guard, agree in every guarded
sequence. -/
theorem trace_agree {perform : ι → Call σ ε η α} {perform' : ι → Call τ ε η α}
    {view : σ → ν} {view' : τ → ν}
    {guard : σ → ι → Prop} (seen : ∀ s t, R s t → view s = view' t)
    (each : ∀ s t i, R s t → guard s i → Agree R (perform i s) (perform' i t))
    (is : List ι) (start : R s t)
    (meets : Guarded (fun s i => after (perform i s)) guard s is) :
    (trace perform view is s).1 = (trace perform' view' is t).1 ∧
      SameEnd R (trace perform view is s).2 (trace perform' view' is t).2 := by
  induction is generalizing s t with
  | nil => exact ⟨rfl, start⟩
  | cons i is ih =>
    have here := each s t i start meets.1
    have later : ∀ u, after (perform i s) = some u → Guarded _ guard u is := meets.2
    simp only [trace]
    generalize perform i s = o at here later ⊢
    generalize perform' i t = p at here ⊢
    cases here with
    | ok related =>
      obtain ⟨answers, ends⟩ := ih related (later _ rfl)
      exact ⟨congrArg₂ _ (congrArg _ (seen _ _ related)) answers, ends⟩
    | err related =>
      obtain ⟨answers, ends⟩ := ih related (later _ rfl)
      exact ⟨congrArg₂ _ (congrArg _ (seen _ _ related)) answers, ends⟩
    | halt => exact ⟨rfl, rfl⟩

end Tacos.Lib.InStep
