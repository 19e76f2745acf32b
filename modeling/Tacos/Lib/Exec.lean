/- GID: Tacos/Lib/Exec
   generality: G
   source: none
   digest: Stateful calls that return, fail or stop the machine, and scoped locks that do not
     nest. -/

import Mathlib.Data.Set.Insert
import Mathlib.Tactic.Common

set_option autoImplicit false
set_option relaxedAutoImplicit false

namespace Tacos.Lib.Exec

/-- What a call comes to: a value, an error value, or the end of the machine. -/
inductive Outcome (σ ε η α : Type) where
  | ok (a : α) (s : σ)
  | err (e : ε) (s : σ)
  | halt (h : η)
  deriving DecidableEq

/-- A call that reads and writes a state `σ`; the state is kept when it fails with an `ε`, and
lost when it stops the machine with an `η`. -/
def Call (σ ε η α : Type) := σ → Outcome σ ε η α

variable {σ τ ε η α β : Type}

def Outcome.isOk : Outcome σ ε η α → Bool
  | .ok _ _ => true
  | _ => false

theorem Outcome.isOk_iff {o : Outcome σ ε η α} : o.isOk = true ↔ ∃ a s, o = .ok a s := by
  cases o with
  | ok a s => simp [isOk]
  | err e s => simp [isOk]
  | halt h => simp [isOk]

/-- Whether a call returns, with a value and a state that pass a test. -/
def Outcome.returns (p : α → σ → Bool) : Outcome σ ε η α → Bool
  | .ok a s => p a s
  | _ => false

theorem Outcome.returns_ok {p : α → σ → Bool} {a : α} {s : σ} :
    (ok a s : Outcome σ ε η α).returns p = p a s := rfl

theorem Outcome.returns_iff {p : α → σ → Bool} {o : Outcome σ ε η α} :
    o.returns p = true ↔ ∃ a s, o = .ok a s ∧ p a s = true := by
  cases o with
  | ok a s => simp [returns]
  | err e s => simp [returns]
  | halt h => simp [returns]

/-- Whether a call fails, with an error and a state that pass a test. -/
def Outcome.fails (p : ε → σ → Bool) : Outcome σ ε η α → Bool
  | .err e s => p e s
  | _ => false

theorem Outcome.fails_iff {p : ε → σ → Bool} {o : Outcome σ ε η α} :
    o.fails p = true ↔ ∃ e s, o = .err e s ∧ p e s = true := by
  cases o with
  | ok a s => simp [fails]
  | err e s => simp [fails]
  | halt h => simp [fails]

def Outcome.result : Outcome σ ε η α → Option (Except ε α)
  | .ok a _ => some (.ok a)
  | .err e _ => some (.error e)
  | .halt _ => none

/-- The outcome of a call that does not stop the machine. -/
def Outcome.ofExcept (r : Except ε α) (s : σ) : Outcome σ ε η α :=
  match r with
  | .ok a => .ok a s
  | .error e => .err e s

namespace Call

def throw (e : ε) : Call σ ε η α := fun s => .err e s

def halt (h : η) : Call σ ε η α := fun _ => .halt h

def get : Call σ ε η σ := fun s => .ok s s

def modify (f : σ → σ) : Call σ ε η Unit := fun s => .ok () (f s)

def andThen (x : Call σ ε η α) (f : α → Call σ ε η β) : Call σ ε η β := fun s =>
  match x s with
  | .ok a t => f a t
  | .err e t => .err e t
  | .halt h => .halt h

instance : Monad (Call σ ε η) where
  pure a := fun s => .ok a s
  bind := andThen

def attempt (x : Call σ ε η α) : Call σ ε η (Except ε α) := fun s =>
  match x s with
  | .ok a t => .ok (.ok a) t
  | .err e t => .ok (.error e) t
  | .halt h => .halt h

/-- A call on a part of the state. -/
def zoom (part : σ → τ) (put : σ → τ → σ) (x : Call τ ε η α) : Call σ ε η α := fun s =>
  match x (part s) with
  | .ok a t => .ok a (put s t)
  | .err e t => .err e (put s t)
  | .halt h => .halt h

variable {x : Call σ ε η α} {f : α → Call σ ε η β} {s t : σ}

@[simp] theorem pure_apply (a : α) (s : σ) : (pure a : Call σ ε η α) s = .ok a s := rfl

@[simp] theorem throw_apply (e : ε) (s : σ) : (throw e : Call σ ε η α) s = .err e s := rfl

@[simp] theorem halt_apply (h : η) (s : σ) : (halt h : Call σ ε η α) s = .halt h := rfl

@[simp] theorem get_apply (s : σ) : (get : Call σ ε η σ) s = .ok s s := rfl

@[simp] theorem modify_apply (g : σ → σ) (s : σ) :
    (modify g : Call σ ε η Unit) s = .ok () (g s) := rfl

theorem bind_apply (x : Call σ ε η α) (f : α → Call σ ε η β) (s : σ) :
    (x >>= f) s = match x s with
      | .ok a t => f a t
      | .err e t => .err e t
      | .halt h => .halt h := rfl

theorem bind_ok {a : α} (h : x s = .ok a t) : (x >>= f) s = f a t := by
  rw [bind_apply, h]

theorem bind_err {e : ε} (h : x s = .err e t) : (x >>= f) s = .err e t := by
  rw [bind_apply, h]

theorem bind_halt {e : η} (h : x s = .halt e) : (x >>= f) s = .halt e := by
  rw [bind_apply, h]

@[simp] theorem pure_bind (a : α) (f : α → Call σ ε η β) (s : σ) : (pure a >>= f) s = f a s := rfl

@[simp] theorem throw_bind (e : ε) (f : α → Call σ ε η β) (s : σ) :
    (throw e >>= f) s = .err e s := rfl

@[simp] theorem halt_bind (h : η) (f : α → Call σ ε η β) (s : σ) : (halt h >>= f) s = .halt h := rfl

@[simp] theorem get_bind (f : σ → Call σ ε η β) (s : σ) : (get >>= f) s = f s s := rfl

@[simp] theorem modify_bind (g : σ → σ) (f : Unit → Call σ ε η β) (s : σ) :
    (modify g >>= f) s = f () (g s) := rfl

theorem bind_eq_ok {b : β} :
    (x >>= f) s = .ok b t ↔ ∃ a m, x s = .ok a m ∧ f a m = .ok b t := by
  rw [bind_apply]
  cases x s with
  | ok a m => simp
  | err e m => simp
  | halt h => simp

/-- A call in sequence failed: its first part did, or it returned and the second part did. -/
theorem bind_eq_err {e : ε} :
    (x >>= f) s = .err e t ↔ x s = .err e t ∨ ∃ a m, x s = .ok a m ∧ f a m = .err e t := by
  rw [bind_apply]
  cases x s with
  | ok a m => simp
  | err e m => simp
  | halt h => simp

theorem attempt_ok {a : α} (h : x s = .ok a t) : attempt x s = .ok (.ok a) t := by
  rw [attempt, h]

theorem attempt_err {e : ε} (h : x s = .err e t) : attempt x s = .ok (.error e) t := by
  rw [attempt, h]

theorem attempt_halt {e : η} (h : x s = .halt e) : attempt x s = .halt e := by
  rw [attempt, h]

/-- The call never fails: it returns a value or stops the machine. -/
def Sure (x : Call σ ε η α) : Prop := ∀ s e t, x s ≠ .err e t

theorem Sure.bind (first : Sure x) (second : ∀ a, Sure (f a)) : Sure (x >>= f) := by
  intro s e t failed
  obtain here | ⟨a, m, -, later⟩ := bind_eq_err.mp failed
  · exact first s e t here
  · exact second a m e t later

theorem Sure.ite {c : Prop} [Decidable c] {y : Call σ ε η α} (yes : c → Sure x) (no : ¬c → Sure y) :
    Sure (if c then x else y) := by
  split
  · exact yes ‹_›
  · exact no ‹_›

theorem zoom_ok {part : σ → τ} {put : σ → τ → σ} {y : Call τ ε η α} {a : α} {m : τ}
    (h : y (part s) = .ok a m) : zoom part put y s = .ok a (put s m) := by
  rw [zoom, h]

theorem zoom_err {part : σ → τ} {put : σ → τ → σ} {y : Call τ ε η α} {e : ε} {m : τ}
    (h : y (part s) = .err e m) : zoom part put y s = .err e (put s m) := by
  rw [zoom, h]

theorem zoom_halt {part : σ → τ} {put : σ → τ → σ} {y : Call τ ε η α} {e : η}
    (h : y (part s) = .halt e) : zoom part put y s = .halt e := by
  rw [zoom, h]

theorem zoom_eq_ok {part : σ → τ} {put : σ → τ → σ} {y : Call τ ε η α} {a : α} :
    zoom part put y s = .ok a t ↔ ∃ m, y (part s) = .ok a m ∧ put s m = t := by
  rw [zoom]
  cases y (part s) with
  | ok b m => simp only [Outcome.ok.injEq]; grind
  | err e m => simp
  | halt h => simp

end Call

/-- The locks that the running thread holds, as a part of the state. -/
class Locks (σ : Type) (L : outParam Type) where
  held : σ → List L
  setHeld : σ → List L → σ
  held_setHeld : ∀ s ls, held (setHeld s ls) = ls

section Lock

variable {L : Type} [Locks σ L]

open Locks

section Guard

variable [DecidableEq L]

/-- Run a call with a guard of `l` alive; the guard is dropped when the call returns or fails. A
thread that asks for a lock it holds waits for itself. -/
def withLock (dead : L → η) (l : L) (x : Call σ ε η α) : Call σ ε η α := fun s =>
  if l ∈ held s then .halt (dead l)
  else match x (setHeld s (l :: held s)) with
    | .ok a t => .ok a (setHeld t ((held t).erase l))
    | .err e t => .err e (setHeld t ((held t).erase l))
    | .halt h => .halt h

variable {dead : L → η} {l : L} {x : Call σ ε η α} {s t : σ}

theorem withLock_ok {a : α} (free : l ∉ held s) (h : x (setHeld s (l :: held s)) = .ok a t) :
    withLock dead l x s = .ok a (setHeld t ((held t).erase l)) := by
  rw [withLock, if_neg free, h]

theorem withLock_err {e : ε} (free : l ∉ held s) (h : x (setHeld s (l :: held s)) = .err e t) :
    withLock dead l x s = .err e (setHeld t ((held t).erase l)) := by
  rw [withLock, if_neg free, h]

theorem withLock_halt {e : η} (free : l ∉ held s) (h : x (setHeld s (l :: held s)) = .halt e) :
    withLock dead l x s = .halt e := by
  rw [withLock, if_neg free, h]

theorem withLock_eq_ok {a : α} (free : l ∉ held s) :
    withLock dead l x s = .ok a t ↔
      ∃ m, x (setHeld s (l :: held s)) = .ok a m ∧ setHeld m ((held m).erase l) = t := by
  rw [withLock, if_neg free]
  cases x (setHeld s (l :: held s)) with
  | ok b m => simp only [Outcome.ok.injEq]; grind
  | err e m => simp
  | halt h => simp

theorem withLock_eq_err {e : ε} (free : l ∉ held s) :
    withLock dead l x s = .err e t ↔
      ∃ m, x (setHeld s (l :: held s)) = .err e m ∧ setHeld m ((held m).erase l) = t := by
  rw [withLock, if_neg free]
  cases x (setHeld s (l :: held s)) with
  | ok b m => simp
  | err e m => simp only [Outcome.err.injEq]; grind
  | halt h => simp

theorem withLock_sure (h : Call.Sure x) : Call.Sure (withLock dead l x) := by
  intro s e t failed
  rw [withLock] at failed
  split at failed
  · cases failed
  · cases inner : x (setHeld s (l :: held s)) with
    | ok a m =>
      rw [inner] at failed
      cases failed
    | err e m => exact h _ e m inner
    | halt h =>
      rw [inner] at failed
      cases failed

end Guard

variable {dead : L → η} {l : L} {x : Call σ ε η α} {f : α → Call σ ε η β}

/-- From a state with `P` the call never waits for a lock of its own thread; when it comes back,
with a value in `Q` or with an error, `P` holds again and the same locks are held. -/
def Unblocked (dead : L → η) (P : σ → Prop) (x : Call σ ε η α) (Q : α → Prop) : Prop :=
  ∀ s, P s → match x s with
    | .ok a t => Q a ∧ P t ∧ held t = held s
    | .err _ t => P t ∧ held t = held s
    | .halt h => ∀ l, h ≠ dead l

namespace Unblocked

variable {P P' : σ → Prop} {Q : α → Prop} {R : β → Prop}

theorem pure {a : α} (h : Q a) : Unblocked dead P (pure a : Call σ ε η α) Q := by
  intro s hs
  exact ⟨h, hs, rfl⟩

theorem throw (e : ε) : Unblocked dead P (Call.throw e : Call σ ε η α) Q := by
  intro s hs
  exact ⟨hs, rfl⟩

theorem halt {h : η} (other : ∀ l, h ≠ dead l) :
    Unblocked dead P (Call.halt h : Call σ ε η α) Q := by
  intro s _
  exact other

theorem get {Q : σ → Prop} (h : ∀ s, P s → Q s) : Unblocked dead P (Call.get : Call σ ε η σ) Q := by
  intro s hs
  exact ⟨h s hs, hs, rfl⟩

theorem modify {g : σ → σ} (keeps : ∀ s, P s → P (g s)) (same : ∀ s, held (g s) = held s) :
    Unblocked dead P (Call.modify g : Call σ ε η Unit) fun _ => True := by
  intro s hs
  exact ⟨trivial, keeps s hs, same s⟩

theorem bind (first : Unblocked dead P x Q) (second : ∀ a, Q a → Unblocked dead P (f a) R) :
    Unblocked dead P (x >>= f) R := by
  intro s hs
  have before := first s hs
  rw [Call.bind_apply]
  cases hx : x s with
  | ok a m =>
    rw [hx] at before
    obtain ⟨ha, hm, same⟩ := before
    have after := second a ha m hm
    simp only
    cases hf : f a m with
    | ok b t =>
      rw [hf] at after
      exact ⟨after.1, after.2.1, after.2.2.trans same⟩
    | err e t =>
      rw [hf] at after
      exact ⟨after.1, after.2.trans same⟩
    | halt h =>
      rw [hf] at after
      exact after
  | err e m =>
    rw [hx] at before
    exact before
  | halt h =>
    rw [hx] at before
    exact before

theorem imp (h : Unblocked dead P x Q) {Q' : α → Prop} (weaker : ∀ a, Q a → Q' a) :
    Unblocked dead P x Q' := by
  intro s hs
  have out := h s hs
  cases hx : x s with
  | ok a t => rw [hx] at out; exact ⟨weaker a out.1, out.2⟩
  | err e t => rw [hx] at out; exact out
  | halt e => rw [hx] at out; exact out

theorem ite {c : Prop} [Decidable c] {y : Call σ ε η α} (yes : c → Unblocked dead P x Q)
    (no : ¬c → Unblocked dead P y Q) : Unblocked dead P (if c then x else y) Q := by
  split
  · exact yes ‹_›
  · exact no ‹_›

theorem attempt (h : Unblocked dead P x Q) :
    Unblocked dead P (Call.attempt x) fun r => ∀ a, r = .ok a → Q a := by
  intro s hs
  have out := h s hs
  rw [Call.attempt]
  cases hx : x s with
  | ok a t =>
    rw [hx] at out
    refine ⟨?_, out.2⟩
    intro b hb
    cases hb
    exact out.1
  | err e t =>
    rw [hx] at out
    exact ⟨fun b hb => (nomatch hb), out⟩
  | halt e =>
    rw [hx] at out
    exact out

theorem zoom {part : σ → τ} {put : σ → τ → σ} {y : Call τ ε η α}
    (calm : ∀ m l, y m ≠ .halt (dead l)) (keeps : ∀ s m, P s → P (put s m))
    (same : ∀ s m, held (put s m) = held s) :
    Unblocked dead P (Call.zoom part put y) fun _ => True := by
  intro s hs
  rw [Call.zoom]
  cases hy : y (part s) with
  | ok a m => exact ⟨trivial, keeps s m hs, same s m⟩
  | err e m => exact ⟨keeps s m hs, same s m⟩
  | halt e =>
    intro l hl
    exact calm (part s) l (hl ▸ hy)

/-- A guard may be taken when its lock is free, and what runs under it must not need it. -/
theorem withLock [DecidableEq L] (free : ∀ s, P s → l ∉ held s)
    (enter : ∀ s, P s → P' (setHeld s (l :: held s)))
    (leave : ∀ s t, P s → P' t → held t = l :: held s → P (setHeld t (held s)))
    (body : Unblocked dead P' x Q) : Unblocked dead P (withLock dead l x) Q := by
  intro s hs
  have out := body _ (enter s hs)
  rw [held_setHeld] at out
  rw [Exec.withLock, if_neg (free s hs)]
  cases hx : x (setHeld s (l :: held s)) with
  | ok a t =>
    rw [hx] at out
    simp only
    rw [out.2.2, List.erase_cons_head]
    exact ⟨out.1, leave s t hs out.2.1 out.2.2, held_setHeld t _⟩
  | err e t =>
    rw [hx] at out
    simp only
    rw [out.2, List.erase_cons_head]
    exact ⟨leave s t hs out.1 out.2, held_setHeld t _⟩
  | halt e =>
    rw [hx] at out
    exact out

end Unblocked

end Lock

end Tacos.Lib.Exec
