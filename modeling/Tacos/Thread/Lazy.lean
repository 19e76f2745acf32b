/- GID: Tacos/Thread/Lazy
   generality: G
   source: src/sync/once.rs, src/sync/lazy.rs, src/sync/intr.rs, src/thread/manager.rs
   digest: Threads that get one lazy value, and when its initializer runs once and no get aborts. -/

import Tacos.Lib.Run
import Tacos.Thread.Scheduler
import Mathlib.Tactic.Common

set_option autoImplicit false
set_option relaxedAutoImplicit false

namespace Tacos.Thread

open Tacos.Lib.Run

/-- Where a thread is in `Lazy::get`, between two accesses to shared state. -/
inductive GetPc (α : Type) where
  /-- outside of `get` -/
  | idle
  /-- `get_or_init`: `if self.once.is_completed()` -/
  | fast
  /-- `call_once`: `if self.is_completed()` -/
  | test
  /-- `Intr::acquire`: `let old = set(false)` -/
  | disable
  /-- `Intr::acquire`: `if !self.0.get().is_none()` -/
  | assertFree (old : Bool)
  /-- `Intr::acquire`: `set(old)` -/
  | enable (old : Bool)
  /-- `Intr::acquire`: `sbi::interrupt::set(false)` of the last line -/
  | disableAgain
  /-- `Intr::acquire`: `self.0.set(Some(..))` -/
  | record (old : Bool)
  /-- `call_once`: `if matches!(self.inner.get(), OnceState::InComplete)` -/
  | retest
  /-- `Lazy::get`: `self.init.take().unwrap()` -/
  | takeInit
  /-- inside the initializer -/
  | initializing
  /-- `OnceCell::init`: `self.inner.set(Some(..))` -/
  | store (v : α)
  /-- `call_once`: `self.inner.set(OnceState::Complete)` -/
  | finish
  /-- `Intr::release` -/
  | release
  /-- `OnceCell::get` -/
  | read
  deriving DecidableEq

/-- A `Lazy`, the threads that use it and the processor they share. `level` is a thread's
interrupt level: the one of the processor while the thread runs, saved by `schedule` while it does
not. The last four fields record what has happened. -/
structure LazyCell (α : Type) where
  current : Tid
  level : Tid → Bool
  pc : Tid → GetPc α
  lock : Option Bool
  complete : Bool
  inner : Option α
  init : Bool
  started : Nat
  produced : List α
  returned : List α
  panicked : Bool

/-- What can happen: the current thread goes on with its `get`, calls it, sets its interrupt level
outside of it, comes to the end of the initializer with a value, or loses the processor. -/
inductive LazyEvent (α : Type) where
  | call
  | setLevel (b : Bool)
  | next
  | produce (v : α)
  | switch (t : Tid)
  deriving DecidableEq

namespace LazyCell

variable {α : Type}

def new (t : Tid) (level : Tid → Bool) : LazyCell α :=
  ⟨t, level, fun _ => .idle, none, false, none, true, 0, [], [], false⟩

def place (s : LazyCell α) : GetPc α := s.pc s.current

def goto (s : LazyCell α) (p : GetPc α) : LazyCell α :=
  { s with pc := Function.update s.pc s.current p }

def setIntr (s : LazyCell α) (b : Bool) : LazyCell α :=
  { s with level := Function.update s.level s.current b }

def panic (s : LazyCell α) : LazyCell α := { s with panicked := true }

def exec (s : LazyCell α) : Option (LazyCell α) :=
  match s.place with
  | .idle => none
  | .fast => some (s.goto (if s.complete then .read else .test))
  | .test => some (s.goto (if s.complete then .read else .disable))
  | .disable => some ((s.setIntr false).goto (.assertFree (s.level s.current)))
  | .assertFree old => some (if s.lock.isSome then s.panic else s.goto (.enable old))
  | .enable old => some ((s.setIntr old).goto .disableAgain)
  | .disableAgain => some ((s.setIntr false).goto (.record (s.level s.current)))
  | .record old => some ({ s with lock := some old }.goto .retest)
  | .retest => some (s.goto (if s.complete then .release else .takeInit))
  | .takeInit =>
    some (if s.init then { s with init := false, started := s.started + 1 }.goto
      .initializing else s.panic)
  | .initializing => none
  | .store v => some ({ s with inner := some v }.goto .finish)
  | .finish => some ({ s with complete := true }.goto .release)
  | .release =>
    match s.lock with
    | none => some s.panic
    | some old => some (({ s with lock := none }.setIntr old).goto .read)
  | .read =>
    match s.inner with
    | none => some s.panic
    | some v => some ({ s with returned := v :: s.returned }.goto .idle)

/-- A thread loses the processor to a timer interrupt, or gives it up outside of `get` or inside
the initializer. -/
def yields (s : LazyCell α) : Bool :=
  s.level s.current || match s.place with
    | .idle | .initializing => true
    | _ => false

def step (s : LazyCell α) (e : LazyEvent α) : Option (LazyCell α) :=
  if s.panicked then none
  else match e, s.place with
    | .call, .idle => some (s.goto .fast)
    | .setLevel b, .idle => some (s.setIntr b)
    | .next, _ => s.exec
    | .produce v, .initializing => some ({ s with produced := v :: s.produced }.goto (.store v))
    | .switch t, _ => if s.yields then some { s with current := t } else none
    | _, _ => none

/-- The current thread is about to look at the lock, or to take it. -/
def locking (s : LazyCell α) : Bool :=
  match s.place with
  | .assertFree _ | .record _ => true
  | _ => false

/-- No thread looks at the lock, or takes it, between the start of the initializer and the end of
the initialization. -/
def Undisturbed (s : LazyCell α) (e : LazyEvent α) : Prop :=
  e = .next → s.locking = true → s.init = true ∨ s.complete = true

instance [DecidableEq α] (s : LazyCell α) (e : LazyEvent α) : Decidable (s.Undisturbed e) :=
  inferInstanceAs (Decidable (_ → _ → _))

end LazyCell

/-- The places between the taking and the return of the lock. -/
def GetPc.inside {α : Type} : GetPc α → Bool
  | .retest | .takeInit | .initializing | .store _ | .finish | .release => true
  | _ => false

/-- The places with interrupts off. -/
def GetPc.quiet {α : Type} : GetPc α → Bool
  | .assertFree _ | .enable _ | .record _ => true
  | p => p.inside

namespace LazyCell

variable {α : Type} {s t : LazyCell α}

/-- The places a thread can be at before the initializer has started. -/
def Before (p : GetPc α) : Prop :=
  p ≠ .initializing ∧ p ≠ .finish ∧ p ≠ .release ∧ p ≠ .read ∧ ∀ v, p ≠ .store v

/-- The places a thread can be at after the initialization. -/
def After (p : GetPc α) : Prop := p ≠ .takeInit ∧ p ≠ .initializing ∧
    p ≠ .finish ∧ ∀ v, p ≠ .store v

/-- How far the initialization has come, and what it left behind. -/
inductive Progress (s : LazyCell α) : Prop where
  | fresh (init : s.init = true) (complete : s.complete = false) (inner : s.inner = none)
      (started : s.started = 0)
      (produced : s.produced = []) (returned : s.returned = [])
      (places : ∀ u, Before (s.pc u))
  | running (u : Tid) (init : s.init = false) (complete : s.complete = false)
      (started : s.started = 1)
      (returned : s.returned = [])
      (here : (s.pc u = .initializing ∧ s.produced = []) ∨ ∃ v, s.produced = [v] ∧
        (s.pc u = .store v ∨ (s.pc u = .finish ∧ s.inner = some v)))
      (others : ∀ w, w ≠ u → (s.pc w).inside = false ∧ s.pc w ≠ .read)
  | done (v : α) (complete : s.complete = true) (inner : s.inner = some v) (started : s.started = 1)
      (produced : s.produced = [v]) (returned : ∀ w ∈ s.returned, w = v)
      (places : ∀ u, After (s.pc u))

/-- The lock is taken while a thread is inside, and a thread without the processor can be
interrupted, or gave the processor up. -/
structure Guards (s : LazyCell α) : Prop where
  away : ∀ u, u ≠ s.current → s.level u = true ∨ s.pc u = .idle ∨ s.pc u = .initializing
  quiet : ∀ u, (s.pc u).quiet = true → s.level u = false
  locked : ∀ u, (s.pc u).inside = true → s.lock.isSome
  unlocked : (∀ u, (s.pc u).inside = false) → s.lock = none

/-- What holds in every state of a run in which nobody disturbs the initializer. -/
structure Inv (s : LazyCell α) : Prop where
  calm : s.panicked = false
  guards : s.Guards
  progress : s.Progress

theorem quiet_of_inside {p : GetPc α} (h : p.inside = true) : p.quiet = true := by
  cases p <;> first | exact h | rfl

namespace Guards

/-- A thread with interrupts off and without the processor is in the initializer. -/
theorem waits (g : s.Guards) {u : Tid} (away : u ≠ s.current) (quiet : (s.pc u).quiet = true) :
    s.pc u = .initializing := by
  rcases g.away u away with on | idle | here
  · rw [g.quiet u quiet] at on
    cases on
  · rw [idle] at quiet
    cases quiet
  · exact here

/-- The current thread goes from one place to another, and neither takes nor returns the lock. -/
theorem move (g : s.Guards) {p : GetPc α} {b : Bool} (off : p.quiet = true → b = false)
    (same : p.inside = s.place.inside) : ((s.setIntr b).goto p).Guards := by
  have inside : ∀ u, (Function.update s.pc s.current p u).inside = (s.pc u).inside := by
    intro u
    by_cases here : u = s.current
    · rw [here, Function.update_self, same, place]
    · rw [Function.update_of_ne here]
  refine ⟨?_, ?_, ?_, ?_⟩
  · intro u (away : u ≠ s.current)
    change Function.update s.level s.current b u = true ∨
      Function.update s.pc s.current p u = .idle ∨
      Function.update s.pc s.current p u = .initializing
    rw [Function.update_of_ne away, Function.update_of_ne away]
    exact g.away u away
  · intro u quiet
    change Function.update s.level s.current b u = false
    change (Function.update s.pc s.current p u).quiet = true at quiet
    by_cases here : u = s.current
    · rw [here, Function.update_self] at quiet ⊢
      exact off quiet
    · rw [Function.update_of_ne here] at quiet ⊢
      exact g.quiet u quiet
  · intro u hu
    exact g.locked u ((inside u).symm.trans hu)
  · intro none
    exact g.unlocked fun u => (inside u).symm.trans (none u)

theorem goto (g : s.Guards) {p : GetPc α} (off : p.quiet = true → s.level s.current = false)
    (same : p.inside = s.place.inside) : (s.goto p).Guards := by
  have moved := g.move off same
  rwa [setIntr, Function.update_eq_self] at moved

theorem enter (g : s.Guards) {old : Bool} (here : s.place = .record old) :
    ({ s with lock := some old }.goto .retest).Guards := by
  refine ⟨?_, ?_, fun _ _ => rfl, ?_⟩
  · intro u (away : u ≠ s.current)
    change s.level u = true ∨ Function.update s.pc s.current _ u = .idle ∨
      Function.update s.pc s.current _ u = _
    rw [Function.update_of_ne away]
    exact g.away u away
  · intro u quiet
    by_cases mine : u = s.current
    · subst mine
      exact g.quiet s.current (by rw [← place, here]; rfl)
    · change (Function.update s.pc s.current _ u).quiet = true at quiet
      rw [Function.update_of_ne mine] at quiet
      exact g.quiet u quiet
  · intro none
    have mine := none s.current
    change (Function.update s.pc s.current GetPc.retest s.current).inside = false at mine
    rw [Function.update_self] at mine
    cases mine

theorem leave (g : s.Guards) (alone : ∀ u, u ≠ s.current → (s.pc u).inside = false) (old : Bool) :
    (({ s with lock := none }.setIntr old).goto .read).Guards := by
  refine ⟨?_, ?_, ?_, fun _ => rfl⟩
  · intro u (away : u ≠ s.current)
    change Function.update s.level s.current old u = true ∨
      Function.update s.pc s.current _ u = .idle ∨
      Function.update s.pc s.current _ u = .initializing
    rw [Function.update_of_ne away, Function.update_of_ne away]
    exact g.away u away
  · intro u quiet
    change (Function.update s.pc s.current _ u).quiet = true at quiet
    change Function.update s.level s.current old u = false
    by_cases here : u = s.current
    · rw [here, Function.update_self] at quiet
      cases quiet
    · rw [Function.update_of_ne here] at quiet ⊢
      exact g.quiet u quiet
  · intro u hu
    change (Function.update s.pc s.current _ u).inside = true at hu
    by_cases here : u = s.current
    · rw [here, Function.update_self] at hu
      cases hu
    · rw [Function.update_of_ne here, alone u here] at hu
      cases hu

theorem switch (g : s.Guards) (gives : s.yields = true) (t : Tid) :
    ({ s with current := t } : LazyCell α).Guards := by
  refine ⟨?_, g.quiet, g.locked, g.unlocked⟩
  intro u _
  by_cases here : u = s.current
  · rw [here]
    change s.level s.current = true ∨ s.pc s.current = _ ∨ s.pc s.current = _
    rw [yields, Bool.or_eq_true, place] at gives
    rcases gives with on | gave
    · exact .inl on
    · split at gave
      · exact .inr (.inl ‹_›)
      · exact .inr (.inr ‹_›)
      · cases gave
  · exact g.away u here

end Guards

/-- The places that say nothing about the initialization. -/
def Outside (p : GetPc α) : Prop := p.inside = false ∧ p ≠ .read

theorem Outside.before {p : GetPc α} (h : Outside p) : Before p := by
  obtain ⟨inside, read⟩ := h
  refine ⟨?_, ?_, ?_, read, ?_⟩
  · rintro rfl
    cases inside
  · rintro rfl
    cases inside
  · rintro rfl
    cases inside
  · rintro v rfl
    cases inside

theorem Outside.after {p : GetPc α} (h : Outside p) : After p := by
  refine ⟨?_, h.before.1, h.before.2.1, h.before.2.2.2.2⟩
  rintro rfl
  cases h.1

namespace Progress

theorem pc_goto {P : GetPc α → Prop} {p : GetPc α} (all : ∀ u, P (s.pc u)) (mine : P p) :
    ∀ u, P ((s.goto p).pc u) := by
  intro u
  change P (Function.update s.pc s.current p u)
  by_cases here : u = s.current
  · rw [here, Function.update_self]
    exact mine
  · rw [Function.update_of_ne here]
    exact all u

theorem pc_of_ne {u : Tid} (away : u ≠ s.current) (p : GetPc α) : (s.goto p).pc u = s.pc u :=
  Function.update_of_ne away ..

theorem pc_others {P : GetPc α → Prop} (all : ∀ u, u ≠ s.current → P (s.pc u)) (p : GetPc α) :
    ∀ u, u ≠ s.current → P ((s.goto p).pc u) := by
  intro u away
  rw [pc_of_ne away]
  exact all u away

theorem pc_self (s : LazyCell α) (p : GetPc α) : (s.goto p).pc s.current = p :=
  Function.update_self ..

theorem goto (h : s.Progress) {p : GetPc α} (leaves : Outside s.place) (arrives : Outside p) :
    (s.goto p).Progress := by
  cases h with
  | fresh init complete inner started produced returned places =>
    exact .fresh init complete inner started produced returned
      (pc_goto (P := Before) places arrives.before)
  | running u init complete started returned here others =>
    have other : u ≠ s.current := by
      rintro rfl
      have before := leaves.before
      rcases here with ⟨first, -⟩ | ⟨v, -, second | ⟨third, -⟩⟩
      · exact before.1 first
      · exact before.2.2.2.2 v second
      · exact before.2.1 third
    refine .running u init complete started returned ?_ ?_
    · rw [pc_of_ne other]
      exact here
    · intro w hw
      by_cases mine : w = s.current
      · rw [mine, pc_self]
        exact arrives
      · rw [pc_of_ne mine]
        exact others w hw
  | done v complete inner started produced returned places =>
    exact .done v complete inner started produced returned
      (pc_goto (P := After) places arrives.after)

/-- The part of the state that says how far the initialization is. -/
theorem congr (h : s.Progress) (pc : t.pc = s.pc) (complete : t.complete = s.complete)
    (inner : t.inner = s.inner)
    (init : t.init = s.init) (started : t.started = s.started) (produced : t.produced = s.produced)
    (returned : t.returned = s.returned) : t.Progress := by
  cases h with
  | fresh h₁ h₂ h₃ h₄ h₅ h₆ h₇ =>
    exact .fresh (init.trans h₁) (complete.trans h₂) (inner.trans h₃)
      (started.trans h₄) (produced.trans h₅)
      (returned.trans h₆) (pc ▸ h₇)
  | running u h₁ h₂ h₃ h₄ h₅ h₆ =>
    refine .running u (init.trans h₁) (complete.trans h₂) (started.trans h₃)
      (returned.trans h₄) ?_ (pc ▸ h₆)
    rw [pc, produced, inner]
    exact h₅
  | done v h₁ h₂ h₃ h₄ h₅ h₆ =>
    exact .done v (complete.trans h₁) (inner.trans h₂) (started.trans h₃) (produced.trans h₄)
      (returned ▸ h₅) (pc ▸ h₆)

end Progress

namespace Inv

open Progress

/-- Nobody is in the initializer before the initialization and after it. -/
theorem still (inv : s.Inv) (h : s.init = true ∨ s.complete = true) :
    ∀ u, s.pc u ≠ .initializing := by
  cases inv.progress with
  | fresh _ _ _ _ _ _ places => exact fun u => (places u).1
  | running u init complete =>
    rw [init, complete] at h
    rcases h with h | h
    · cases h
    · cases h
  | done _ _ _ _ _ _ places => exact fun u => (places u).2.1

/-- With the current thread inside and out of the initializer, all others are outside of the lock,
or the initializer would have been disturbed. -/
theorem alone (inv : s.Inv) (still : ∀ u, u ≠ s.current → s.pc u ≠ .initializing) :
    ∀ u, u ≠ s.current → (s.pc u).inside = false := by
  intro u away
  by_contra inside
  rw [Bool.not_eq_false] at inside
  exact still u away (inv.guards.waits away (quiet_of_inside inside))

theorem goto (inv : s.Inv) {p : GetPc α} {b : Bool} (off : p.quiet = true → b = false)
    (leaves : Outside s.place)
    (arrives : Outside p) : ((s.setIntr b).goto p).Inv := by
  refine ⟨inv.calm, inv.guards.move off (arrives.1.trans leaves.1.symm), ?_⟩
  exact (inv.progress.goto leaves arrives).congr rfl rfl rfl rfl rfl rfl rfl

theorem tested (inv : s.Inv) {p : GetPc α} (leaves : Outside s.place) (arrives : Outside p)
    (on : p.quiet = false) :
    (s.goto (if s.complete then .read else p)).Inv := by
  split
  · rename_i complete
    refine ⟨inv.calm, inv.guards.goto (fun h => nomatch h) leaves.1.symm, ?_⟩
    cases inv.progress with
    | fresh _ incomplete => rw [complete] at incomplete; cases incomplete
    | running _ _ incomplete => rw [complete] at incomplete; cases incomplete
    | done v complete inner started produced returned places =>
      refine .done v complete inner started produced returned (pc_goto (P := After) places ?_)
      exact ⟨nofun, nofun, nofun, nofun⟩
  · refine ⟨inv.calm, inv.guards.goto ?_ (arrives.1.trans leaves.1.symm),
      inv.progress.goto leaves arrives⟩
    intro quiet
    rw [on] at quiet
    cases quiet

theorem free (inv : s.Inv) (leaves : Outside s.place) (still : ∀ u, s.pc u ≠ .initializing) :
    s.lock = none := by
  refine inv.guards.unlocked ?_
  intro u
  by_cases here : u = s.current
  · rw [here]
    exact leaves.1
  · exact inv.alone (fun u _ => still u) u here

theorem record (inv : s.Inv) {old : Bool} (here : s.place = .record old)
    (still : ∀ u, s.pc u ≠ .initializing) :
    ({ s with lock := some old }.goto .retest).Inv := by
  refine ⟨inv.calm, inv.guards.enter here, ?_⟩
  cases inv.progress with
  | fresh init complete inner started produced returned places =>
    refine .fresh init complete inner started produced returned (pc_goto (P := Before) places ?_)
    exact ⟨nofun, nofun, nofun, nofun, nofun⟩
  | running u _ _ _ _ at_ _ =>
    -- the thread that initializes is neither the current one nor suspended
    have quiet : (s.pc u).quiet = true := by
      rcases at_ with ⟨first, -⟩ | ⟨v, -, second | ⟨third, -⟩⟩
      · rw [first]; rfl
      · rw [second]; rfl
      · rw [third]; rfl
    have other : u ≠ s.current := by
      rintro rfl
      rw [place] at here
      rw [here] at at_
      rcases at_ with ⟨first, -⟩ | ⟨v, -, second | ⟨third, -⟩⟩
      · cases first
      · cases second
      · cases third
    exact absurd (inv.guards.waits other quiet) (still u)
  | done v complete inner started produced returned places =>
    refine .done v complete inner started produced returned (pc_goto (P := After) places ?_)
    exact ⟨nofun, nofun, nofun, nofun⟩

/-- The current thread is the one that initializes, when it is at a place of the initialization. -/
theorem runs (inv : s.Inv) (inside : s.place.inside = true) (ne : ¬Before s.place)
    (ne' : ¬After s.place) :
    s.init = false ∧ s.complete = false ∧ s.started = 1 ∧ s.returned = [] ∧
      ((s.place = .initializing ∧ s.produced = []) ∨ ∃ v, s.produced = [v] ∧
        (s.place = .store v ∨ (s.place = .finish ∧ s.inner = some v))) ∧
      ∀ w, w ≠ s.current → Outside (s.pc w) := by
  cases inv.progress with
  | fresh _ _ _ _ _ _ places => exact absurd (places s.current) ne
  | running u init complete started returned here others =>
    have mine : u = s.current := by
      by_contra other
      rw [place, (others s.current (Ne.symm other)).1] at inside
      cases inside
    subst mine
    exact ⟨init, complete, started, returned, here, others⟩
  | done _ _ _ _ _ _ places => exact absurd (places s.current) ne'

theorem retest (inv : s.Inv) (here : s.place = .retest) :
    (s.goto (if s.complete then .release else .takeInit)).Inv := by
  have inside : (if s.complete = true then GetPc.release else .takeInit : GetPc α).inside =
    s.place.inside := by
    rw [here]
    split <;> rfl
  have off : s.level s.current = false := inv.guards.quiet s.current (by rw [← place, here]; rfl)
  refine ⟨inv.calm, inv.guards.goto (fun _ => off) inside, ?_⟩
  cases inv.progress with
  | fresh init complete inner started produced returned places =>
    rw [if_neg (by rw [complete]; exact Bool.false_ne_true)]
    refine .fresh init complete inner started produced returned (pc_goto (P := Before) places ?_)
    exact ⟨nofun, nofun, nofun, nofun, nofun⟩
  | running u _ _ _ _ at_ others =>
    have mine : u = s.current := by
      by_contra other
      have outside := (others s.current (Ne.symm other)).1
      rw [← place, here] at outside
      cases outside
    subst mine
    rw [place] at here
    rw [here] at at_
    rcases at_ with ⟨first, -⟩ | ⟨v, -, second | ⟨third, -⟩⟩
    · cases first
    · cases second
    · cases third
  | done v complete inner started produced returned places =>
    rw [if_pos complete]
    refine .done v complete inner started produced returned (pc_goto (P := After) places ?_)
    exact ⟨nofun, nofun, nofun, nofun⟩

theorem takeInit (inv : s.Inv) (here : s.place = .takeInit) :
    s.init = true ∧ ({ s with init := false, started := s.started + 1 }.goto
      .initializing).Inv := by
  have guards : ({ s with init := false, started := s.started + 1 }.goto .initializing).Guards := by
    have off : s.level s.current = false := inv.guards.quiet s.current (by rw [← place, here]; rfl)
    have moved := inv.guards.goto (p := .initializing) (fun _ => off) (by rw [here]; rfl)
    exact ⟨moved.away, moved.quiet, moved.locked, moved.unlocked⟩
  cases inv.progress with
  | fresh init complete inner started produced returned places =>
    refine ⟨init, inv.calm, guards, ?_⟩
    refine .running s.current rfl complete ?_ returned ?_ ?_
    · change s.started + 1 = 1
      rw [started]
    · exact .inl ⟨Function.update_self .., produced⟩
    · refine pc_others (P := Outside) ?_ .initializing
      intro w away
      exact ⟨inv.alone (fun u _ => (places u).1) w away, (places w).2.2.2.1⟩
  | running u _ _ _ _ at_ others =>
    have mine : u = s.current := by
      by_contra other
      have outside := (others s.current (Ne.symm other)).1
      rw [← place, here] at outside
      cases outside
    subst mine
    rw [place] at here
    rw [here] at at_
    rcases at_ with ⟨first, -⟩ | ⟨v, -, second | ⟨third, -⟩⟩
    · cases first
    · cases second
    · cases third
  | done v _ _ _ _ _ places => exact absurd here (places s.current).1

theorem produce (inv : s.Inv) (here : s.place = .initializing) (v : α) :
    ({ s with produced := v :: s.produced }.goto (.store v)).Inv := by
  have off : s.level s.current = false := inv.guards.quiet s.current (by rw [← place, here]; rfl)
  have moved := inv.guards.goto (p := .store v) (fun _ => off) (by rw [here]; rfl)
  obtain ⟨init, complete, started, returned, at_, others⟩ := inv.runs (by rw [here]; rfl)
    (fun before => before.1 here) fun after => after.2.1 here
  refine ⟨inv.calm, ⟨moved.away, moved.quiet, moved.locked, moved.unlocked⟩, ?_⟩
  refine .running s.current init complete started returned
    (.inr ⟨v, ?_, .inl (Function.update_self ..)⟩) ?_
  · rcases at_ with ⟨-, produced⟩ | ⟨w, -, second | ⟨third, -⟩⟩
    · change v :: s.produced = [v]
      rw [produced]
    · rw [here] at second
      cases second
    · rw [here] at third
      cases third
  · exact pc_others (P := Outside) others (.store v)

theorem store (inv : s.Inv) {v : α} (here : s.place = .store v) :
    ({ s with inner := some v }.goto .finish).Inv := by
  have off : s.level s.current = false := inv.guards.quiet s.current (by rw [← place, here]; rfl)
  have moved := inv.guards.goto (p := .finish) (fun _ => off) (by rw [here]; rfl)
  obtain ⟨init, complete, started, returned, at_, others⟩ := inv.runs (by rw [here]; rfl)
    (fun before => before.2.2.2.2 v here) fun after => after.2.2.2 v here
  refine ⟨inv.calm, ⟨moved.away, moved.quiet, moved.locked, moved.unlocked⟩, ?_⟩
  refine .running s.current init complete started returned
    (.inr ⟨v, ?_, .inr ⟨Function.update_self .., rfl⟩⟩) ?_
  · rcases at_ with ⟨first, -⟩ | ⟨w, produced, second | ⟨third, -⟩⟩
    · rw [here] at first
      cases first
    · rw [here] at second
      cases second
      exact produced
    · rw [here] at third
      cases third
  · exact pc_others (P := Outside) others .finish

theorem finish (inv : s.Inv) (here : s.place = .finish) :
    ({ s with complete := true }.goto .release).Inv := by
  have off : s.level s.current = false := inv.guards.quiet s.current (by rw [← place, here]; rfl)
  have moved := inv.guards.goto (p := .release) (fun _ => off) (by rw [here]; rfl)
  obtain ⟨init, complete, started, returned, at_, others⟩ := inv.runs (by rw [here]; rfl)
    (fun before => before.2.1 here) fun after => after.2.2.1 here
  refine ⟨inv.calm, ⟨moved.away, moved.quiet, moved.locked, moved.unlocked⟩, ?_⟩
  rcases at_ with ⟨first, -⟩ | ⟨v, produced, second | ⟨third, inner⟩⟩
  · rw [here] at first
    cases first
  · rw [here] at second
    cases second
  · refine .done v rfl inner started produced ?_ ?_
    · intro w hw
      change w ∈ s.returned at hw
      rw [returned] at hw
      cases hw
    · intro u
      by_cases mine : u = s.current
      · rw [mine]
        change After (Function.update s.pc s.current _ s.current)
        rw [Function.update_self]
        exact ⟨nofun, nofun, nofun, nofun⟩
      · exact pc_others (P := After) (fun w away => (others w away).after) .release u mine

/-- A place that is reached only after the initialization. -/
theorem finished (inv : s.Inv) (ne : ¬Before s.place)
    (outside : s.place = .release ∨ s.place = .read) :
    ∃ v, s.complete = true ∧ s.inner = some v ∧ s.started = 1 ∧ s.produced = [v] ∧
      (∀ w ∈ s.returned, w = v) ∧
      ∀ u, After (s.pc u) := by
  cases inv.progress with
  | fresh _ _ _ _ _ _ places => exact absurd (places s.current) ne
  | running u _ _ _ _ at_ others =>
    have mine : u = s.current := by
      by_contra other
      have away := others s.current (Ne.symm other)
      rcases outside with first | second
      · rw [← place, first] at away
        cases away.1
      · exact away.2 second
    subst mine
    rw [← place] at at_
    rcases outside with here | here <;> rw [here] at at_ <;>
      rcases at_ with ⟨first, -⟩ | ⟨v, -, second | ⟨third, -⟩⟩
    · cases first
    · cases second
    · cases third
    · cases first
    · cases second
    · cases third
  | done v complete inner started produced returned places =>
    exact ⟨v, complete, inner, started, produced, returned, places⟩

theorem release (inv : s.Inv) (here : s.place = .release) :
    ∃ old, s.lock = some old ∧ (({ s with lock := none }.setIntr old).goto .read).Inv := by
  obtain ⟨v, complete, inner, started, produced, returned, places⟩ :=
    inv.finished (fun before => before.2.2.1 here) (.inl here)
  obtain ⟨old, taken⟩ := Option.isSome_iff_exists.mp
    (inv.guards.locked s.current (by rw [← place, here]; rfl))
  refine ⟨old, taken, inv.calm, inv.guards.leave (inv.alone fun u _ => (places u).2.1) old, ?_⟩
  refine .done v complete inner started produced returned (pc_goto (P := After) places ?_)
  exact ⟨nofun, nofun, nofun, nofun⟩

theorem read (inv : s.Inv) (here : s.place = .read) :
    ∃ v, s.inner = some v ∧ ({ s with returned := v :: s.returned }.goto .idle).Inv := by
  obtain ⟨v, complete, inner, started, produced, returned, places⟩ :=
    inv.finished (fun before => before.2.2.2.1 here) (.inr here)
  have moved := inv.guards.goto (p := .idle) (fun h => nomatch h) (by rw [here]; rfl)
  refine ⟨v, inner, inv.calm, ⟨moved.away, moved.quiet, moved.locked, moved.unlocked⟩, ?_⟩
  refine .done v complete inner started produced ?_
    (pc_goto (P := After) places ⟨nofun, nofun, nofun, nofun⟩)
  intro w hw
  rcases List.mem_cons.mp hw with rfl | hw
  · rfl
  · exact returned w hw

theorem switch (inv : s.Inv) (gives : s.yields = true) (u : Tid) :
    ({ s with current := u } : LazyCell α).Inv :=
  ⟨inv.calm, inv.guards.switch gives u, inv.progress.congr rfl rfl rfl rfl rfl rfl rfl⟩

theorem exec (inv : s.Inv) (fine : s.Undisturbed .next) (stepped : s.exec = some t) : t.Inv := by
  rw [LazyCell.exec] at stepped
  split at stepped
  case h_1 => cases stepped
  case h_2 here =>
    cases stepped
    exact inv.tested (by rw [here]; exact ⟨rfl, nofun⟩) ⟨rfl, nofun⟩ rfl
  case h_3 here =>
    cases stepped
    exact inv.tested (by rw [here]; exact ⟨rfl, nofun⟩) ⟨rfl, nofun⟩ rfl
  case h_4 here =>
    cases stepped
    exact inv.goto (fun _ => rfl) (by rw [here]; exact ⟨rfl, nofun⟩) ⟨rfl, nofun⟩
  case h_5 old here =>
    have outside : Outside s.place := by
      rw [here]
      exact ⟨rfl, nofun⟩
    rw [inv.free outside (inv.still (fine rfl (by rw [locking, here])))] at stepped
    cases stepped
    have off : s.level s.current = false := inv.guards.quiet s.current (by rw [← place, here]; rfl)
    exact ⟨inv.calm, inv.guards.goto (fun _ => off) outside.1.symm,
      inv.progress.goto outside ⟨rfl, nofun⟩⟩
  case h_6 old here =>
    cases stepped
    exact inv.goto nofun (by rw [here]; exact ⟨rfl, nofun⟩) ⟨rfl, nofun⟩
  case h_7 here =>
    cases stepped
    exact inv.goto (fun _ => rfl) (by rw [here]; exact ⟨rfl, nofun⟩) ⟨rfl, nofun⟩
  case h_8 old here =>
    cases stepped
    exact inv.record here (inv.still (fine rfl (by rw [locking, here])))
  case h_9 here =>
    cases stepped
    exact inv.retest here
  case h_10 here =>
    obtain ⟨init, inv'⟩ := inv.takeInit here
    rw [if_pos init] at stepped
    cases stepped
    exact inv'
  case h_11 => cases stepped
  case h_12 v here =>
    cases stepped
    exact inv.store here
  case h_13 here =>
    cases stepped
    exact inv.finish here
  case h_14 here =>
    obtain ⟨old, taken, inv'⟩ := inv.release here
    rw [taken] at stepped
    cases stepped
    exact inv'
  case h_15 here =>
    obtain ⟨v, inner, inv'⟩ := inv.read here
    split at stepped
    · rename_i missing
      rw [inner] at missing
      cases missing
    · rename_i w found
      rw [inner] at found
      cases found
      cases stepped
      exact inv'

theorem step {e : LazyEvent α} (inv : s.Inv) (fine : s.Undisturbed e)
    (stepped : s.step e = some t) : t.Inv := by
  unfold LazyCell.step at stepped
  split at stepped
  · cases stepped
  split at stepped
  · rename_i here
    cases stepped
    have outside : Outside s.place := by
      rw [here]
      exact ⟨rfl, nofun⟩
    exact ⟨inv.calm, inv.guards.goto nofun outside.1.symm, inv.progress.goto outside ⟨rfl, nofun⟩⟩
  · rename_i b here
    cases stepped
    have moved := inv.goto (p := .idle) (b := b) nofun
      (by rw [here]; exact ⟨rfl, nofun⟩) ⟨rfl, nofun⟩
    rwa [LazyCell.goto, show (s.setIntr b).pc = s.pc from rfl,
      show (s.setIntr b).current = s.current from rfl,
      ← here, place, Function.update_eq_self] at moved
  · exact inv.exec fine stepped
  · rename_i v here
    cases stepped
    exact inv.produce here v
  · split at stepped
    · rename_i gives
      cases stepped
      exact inv.switch gives _
    · cases stepped
  · cases stepped

theorem new (t : Tid) (level : Tid → Bool) : (LazyCell.new t level : LazyCell α).Inv := by
  refine ⟨rfl, ⟨fun _ _ => .inr (.inl rfl), nofun, nofun, fun _ => rfl⟩, ?_⟩
  exact .fresh rfl rfl rfl rfl rfl rfl fun _ => ⟨nofun, nofun, nofun, nofun, nofun⟩

end Inv

/-- In every run in which no thread looks at the lock or takes it while another one is in the
initializer, no `get` aborts, the initializer runs at most once, it has run when a `get` has
returned, and what they return is the value it produced. -/
theorem lazy_initialized_once {u : Tid} {level : Tid → Bool} {es : List (LazyEvent α)}
    (meets : Guarded step Undisturbed (new u level) es) (ran : run step (new u level) es = some s) :
    s.panicked = false ∧ s.started ≤ 1 ∧ (s.returned ≠ [] → s.started = 1) ∧
      ∀ v ∈ s.returned, s.produced = [v] := by
  have inv : s.Inv := guarded_run_invariant (fun s e t inv fine stepped => inv.step fine stepped)
    (.new u level) meets ran
  refine ⟨inv.calm, ?_⟩
  cases inv.progress with
  | fresh _ _ _ started _ returned =>
    rw [started, returned]
    exact ⟨by omega, fun h => absurd rfl h, nofun⟩
  | running _ _ _ started returned =>
    rw [started, returned]
    exact ⟨by omega, fun _ => rfl, nofun⟩
  | done v _ _ started produced returned =>
    refine ⟨started.le, fun _ => started, ?_⟩
    intro w hw
    rw [returned w hw]
    exact produced

/-- The way of a first `get` into the initializer. -/
def intoInit : List (LazyEvent Nat) := .call :: List.replicate 9 .next

/-- A second thread calls `get` while the initializer of the first one waits. -/
theorem get_during_initialization_panics :
    ∃ s, run step (new 0 fun _ => true) (intoInit ++ [.switch 1, .call, .next, .next,
      .next, .next]) = some s ∧
      s.panicked = true := by
  have computed : ((run step (new 0 fun _ => true)
      (intoInit ++ [.switch 1, .call, .next, .next, .next, .next])).map
      panicked) = some true := by decide
  exact Option.map_eq_some_iff.mp computed

/-- Two threads get the value; the second one is inside `Intr::acquire` when the first one starts.
-/
def twoGets : List (LazyEvent Nat) :=
  [.call, .next, .next, .next, .next, .next, .switch 1] ++ intoInit ++
    [.produce 7, .next, .next, .next, .next, .switch 0, .next, .next, .next, .next, .next]

theorem two_gets_agree : ∃ s, Guarded step Undisturbed (new 0 fun _ => true) twoGets ∧
    run step (new 0 fun _ => true) twoGets = some s ∧ s.returned = [7, 7] ∧ s.started = 1 ∧
      ∀ v ∈ s.returned, s.produced = [v] := by
  have meets : Guarded step Undisturbed (new 0 fun _ => true) twoGets := by decide +kernel
  have computed : (run step (new 0 fun _ => true) twoGets).map returned = some [7, 7] := by
    decide +kernel
  obtain ⟨s, ran, returned⟩ := Option.map_eq_some_iff.mp computed
  obtain ⟨-, -, once, values⟩ := lazy_initialized_once meets ran
  exact ⟨s, meets, ran, returned, once (by rw [returned]; simp), values⟩

end LazyCell

end Tacos.Thread
