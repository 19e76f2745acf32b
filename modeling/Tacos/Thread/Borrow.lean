/- GID: Tacos/Thread/Borrow
   generality: G
   source: src/sync/sleep.rs, src/sync/sema.rs, src/thread/manager.rs
   digest: The borrows of a Sleep lock's holder cell, and when no step of acquire or release
     aborts. -/

import Tacos.Thread.Critical

set_option autoImplicit false
set_option relaxedAutoImplicit false

namespace Tacos.Thread

open Tacos.Lib.Run

/-- The borrow of a lock's holder cell that an access works under, and whether it is mutable. -/
def Access.borrows : Access → Option (Nat × Bool)
  | .testHolder l | .assertHolder l => some (l, false)
  | .readHolder l | .setHolder l | .takeHolder l => some (l, true)
  | _ => none

def Instr.borrows : Instr → Option (Nat × Bool)
  | .access a => a.borrows
  | _ => none

/-- The second look of `acquire` at a holder that it has found before. -/
def Instr.rereads : Instr → Bool
  | .access (.readHolder _) => true
  | _ => false

/-- The kernel and the borrows of holder cells that threads have taken and not yet dropped.
An access to a holder cell is two steps: the borrow, and the use that ends with its drop.
While the borrow is out nobody else can change the cell, so use and drop are one step. -/
structure Cells (σ : Type) where
  critical : Critical σ
  borrow : Tid → Option (Nat × Bool)

namespace Cells

variable {σ : Type} [Schedule σ]

abbrev kernel (s : Cells σ) : Kernel σ := s.critical.kernel

/-- A borrow of the same cell is out, and one of the two is mutable. -/
def conflicts (s : Cells σ) (b : Nat × Bool) : Bool :=
  (List.range s.kernel.nextTid).any fun t =>
    match s.borrow t with
    | some c => c.1 == b.1 && (c.2 || b.2)
    | none => false

/-- The borrow that the current thread's next instruction works under. -/
def wants (s : Cells σ) : Option (Nat × Bool) :=
  (s.kernel.frames s.kernel.current).head?.bind Instr.borrows

def step (s : Cells σ) : Event → Option (Cells σ)
  | .exec =>
    match s.wants with
    | some b =>
      if s.borrow s.kernel.current = none then
        if s.conflicts b then none
        else some { s with borrow := Function.update s.borrow s.kernel.current (some b) }
      else
        (s.critical.step .exec).map fun c =>
          ⟨c, Function.update s.borrow s.kernel.current none⟩
    | none => (s.critical.step .exec).map fun c => ⟨c, s.borrow⟩
  | e => (s.critical.step e).map fun c => ⟨c, s.borrow⟩

def start (k : Kernel σ) : Cells σ := ⟨.start k, fun _ => none⟩

/-- Threads pair `acquire` and `release`. -/
def Paired (s : Cells σ) (e : Event) : Prop := s.critical.Alternates e

/-- Besides, no timer interrupt hits a thread while it has a borrow of a holder cell out, or
between the two looks of `acquire` at the holder. -/
def Calm (s : Cells σ) (e : Event) : Prop :=
  s.Paired e ∧ (e = .preempt → s.borrow s.kernel.current = none ∧
    ∀ i ∈ s.kernel.frames s.kernel.current, i.rereads = false)

instance (s : Cells σ) (e : Event) : Decidable (s.Paired e) :=
  inferInstanceAs (Decidable (s.critical.Alternates e))

instance (s : Cells σ) (e : Event) : Decidable (s.Calm e) :=
  inferInstanceAs (Decidable (_ ∧ _))

/-- The next step of a thread inside `acquire` or `release`, or in any function but `up` on
a semaphore of its own, does not abort. -/
def Proceeds (s : Cells σ) : Prop :=
  ∀ i rest, s.kernel.frames s.kernel.current = i :: rest → i ≠ .exitReturned →
    (∀ n, i ≠ .up (.user n)) → (s.step .exec).isSome

variable [LawfulSchedule σ]

/-- Only the current thread has a borrow out or has to look again, and it does so next. -/
structure Orderly (s : Cells σ) : Prop where
  guards : s.critical.Guards
  borrow : ∀ t b, s.borrow t = some b → t = s.kernel.current ∧ s.wants = some b
  rereads : ∀ t l, .access (.readHolder l) ∈ s.kernel.frames t → t = s.kernel.current ∧
    (s.kernel.frames t).head? = some (.access (.readHolder l)) ∧
    (s.kernel.locks.sleep l).holder ≠ none

variable {s s' : Cells σ} {i : Instr} {rest : List Instr}

/-- When the current thread executes an instruction, nobody else has a borrow out. -/
private theorem Orderly.borrow_other (h : s.Orderly) {t : Tid} (ht : t ≠ s.kernel.current) :
    s.borrow t = none := by
  cases hb : s.borrow t with
  | none => rfl
  | some b => exact (ht (h.borrow t b hb).1).elim

private theorem Orderly.update_borrow (h : s.Orderly) {b : Option (Nat × Bool)} {c : Nat × Bool}
    {t : Tid} (hc : Function.update s.borrow s.kernel.current b t = some c) :
    t = s.kernel.current ∧ b = some c := by
  by_cases ht : t = s.kernel.current
  · subst ht
    rw [Function.update_self] at hc
    exact ⟨rfl, hc⟩
  · rw [Function.update_of_ne ht, h.borrow_other ht] at hc
    cases hc

/-- After an executed instruction, a thread that has to look again is the current one, and
it has just found a holder. -/
private theorem Orderly.rereads_step {c : Critical σ} (h : s.Orderly)
    (hs : s.critical.step .exec = some c) {t : Tid} {l : Nat}
    (hm : .access (.readHolder l) ∈ c.kernel.frames t) :
    t = c.kernel.current ∧ (c.kernel.frames t).head? = some (.access (.readHolder l)) ∧
      (c.kernel.locks.sleep l).holder ≠ none := by
  obtain ⟨hk, -⟩ := Critical.step_kernel hs
  obtain ⟨i, rest, hf, he⟩ := Kernel.step_exec h.guards.exclusive.wired.current_ne hk
  have phase := h.guards.exclusive.wired.phased s.kernel.current
  rw [hf] at phase
  rcases he.mem_back hf hm with old | ⟨a, is, rfl, rfl, hj, exec, frames⟩ | free
  · -- the instruction was executed, and nothing after it looks again
    obtain ⟨rfl, head, -⟩ := h.rereads t l old
    rw [hf] at head
    obtain rfl := Option.some.inj head
    obtain ⟨is, exec, frames⟩ := he.of_access
    have hrest : code rest = [] := phase.tail
    rw [frames, Kernel.pending_self] at hm
    rcases List.mem_append.mp hm with hm | hm
    · cases Access.exec_origin exec hm
    · have hc : .access (.readHolder l) ∈ code rest := mem_code.mpr ⟨hm, rfl⟩
      rw [hrest] at hc
      cases hc
  · obtain rfl := a.exec_origin exec hj
    have current := he.current (by simp)
    cases holder : (s.critical.kernel.locks.sleep l).holder with
    | none =>
      simp only [Access.exec, holder, Except.ok.injEq, Prod.mk.injEq] at exec
      obtain ⟨-, rfl⟩ := exec
      simp at hj
    | some v =>
      simp only [Access.exec, holder, Except.ok.injEq, Prod.mk.injEq] at exec
      obtain ⟨locks, rfl⟩ := exec
      refine ⟨current.symm, ?_, ?_⟩
      · rw [frames, Kernel.pending_self]
        rfl
      · rw [← locks, holder]
        simp
  · cases free (.setHolder l)

private theorem push_orderly (h : s.Orderly) {c : Critical σ} {is : List Instr}
    (guards : c.Guards) (hk : c.kernel = s.kernel.push s.kernel.current is)
    (free : s.borrow s.kernel.current = none)
    (once : ∀ i ∈ s.kernel.frames s.kernel.current, i.rereads = false)
    (fresh : ∀ i ∈ is, i.rereads = false) : Orderly ⟨c, s.borrow⟩ := by
  have gone : ∀ t b, s.borrow t ≠ some b := by
    intro t b hb
    obtain ⟨rfl, -⟩ := h.borrow t b hb
    rw [free] at hb
    cases hb
  refine ⟨guards, fun t b hb => (gone t b hb).elim, ?_⟩
  intro t l hm
  have hm : .access (.readHolder l) ∈ (s.kernel.push s.kernel.current is).frames t := hk ▸ hm
  rcases Kernel.push_back hm with new | old
  · cases fresh _ new
  · obtain ⟨rfl, -⟩ := h.rereads t l old
    cases once _ old

/-- The step lemma. -/
theorem step_orderly {e : Event} (h : s.Orderly) (meets : s.Calm e) (hs : s.step e = some s') :
    s'.Orderly := by
  cases e with
  | exec =>
    simp only [step] at hs
    split at hs
    · rename_i b hb
      split at hs
      · split at hs
        · cases hs
        · cases hs
          refine ⟨h.guards, ?_, h.rereads⟩
          intro t c hc
          obtain ⟨ht, hbc⟩ := h.update_borrow hc
          exact ⟨ht, hb.trans hbc⟩
      · obtain ⟨c, hc, rfl⟩ := Option.map_eq_some_iff.mp hs
        refine ⟨Critical.step_guards h.guards meets.1 hc, ?_, fun t l => h.rereads_step hc⟩
        intro t b hb
        cases (h.update_borrow hb).2
    · rename_i hw
      -- nobody has a borrow out, since the next instruction works under none
      obtain ⟨c, hc, rfl⟩ := Option.map_eq_some_iff.mp hs
      refine ⟨Critical.step_guards h.guards meets.1 hc, ?_, fun t l => h.rereads_step hc⟩
      intro t b hb
      rw [(h.borrow t b hb).2] at hw
      cases hw
  | call c =>
    obtain ⟨c', hc, rfl⟩ := Option.map_eq_some_iff.mp hs
    obtain ⟨hk, -⟩ := Critical.step_kernel hc
    obtain ⟨hnil, hk⟩ := Kernel.step_call hk
    have idle : s.wants = none := by
      rw [wants, hnil]
      rfl
    refine push_orderly h (Critical.step_guards h.guards meets.1 hc) hk ?_ ?_ ?_
    · cases hb : s.borrow s.kernel.current with
      | none => rfl
      | some b =>
        rw [(h.borrow _ b hb).2] at idle
        cases idle
    · intro i hi
      rw [hnil] at hi
      cases hi
    · cases c <;> simp [Call.code, Instr.rereads]
  | preempt =>
    obtain ⟨c', hc, rfl⟩ := Option.map_eq_some_iff.mp hs
    obtain ⟨hk, -⟩ := Critical.step_kernel hc
    obtain ⟨-, hk⟩ := Kernel.step_preempt hk
    obtain ⟨free, once⟩ := meets.2 rfl
    exact push_orderly h (Critical.step_guards h.guards meets.1 hc) hk free once
      (by simp [Instr.rereads])

theorem start_orderly {intr : Bool} {value lockid : Nat → Nat} {k : Kernel σ}
    (h : Kernel.init intr value lockid = .ok k) : (start k).Orderly := by
  refine ⟨Critical.start_guards h, by simp [start], ?_⟩
  intro t l hm
  obtain ⟨q, all, rfl⟩ := Kernel.init_eq h
  have hm : .access (.readHolder l) ∈ (Kernel.boot intr value lockid : Kernel σ).frames t := hm
  cases Kernel.boot_frames hm

/-- `up` of `release` finds no permit. -/
private theorem Orderly.up_isSome (h : s.Orderly) {l : Nat}
    (hf : s.kernel.frames s.kernel.current = .up (.inner l) :: rest) :
    (s.kernel.step .exec).isSome := by
  have freeing : s.kernel.Freeing s.kernel.current l := by
    unfold Kernel.Freeing
    rw [hf]
    exact List.mem_cons_self
  refine (Kernel.step_up_iff (Kernel.managed_nil.mpr h.guards.exclusive.wired.manager) hf).mpr
    (Kernel.raisable_of_zero ?_)
  cases h.guards.exclusive.state l with
  | free _ _ _ none | taken _ _ _ _ none | held _ _ _ _ none => exact (none _ freeing).elim
  | freed _ value => exact value

private theorem Orderly.access_isSome (h : s.Orderly) {a : Access}
    (hf : s.kernel.frames s.kernel.current = .access a :: rest) :
    (s.kernel.step .exec).isSome := by
  have mem : .access a ∈ s.kernel.frames s.kernel.current := by
    rw [hf]
    exact List.mem_cons_self
  cases exec : a.exec s.kernel.current s.kernel.locks with
  | ok r => simp [Kernel.step, Kernel.exec, hf, Kernel.execInstr, exec]
  | error p =>
    cases a with
    | readHolder l =>
      obtain ⟨v, holder⟩ := Option.ne_none_iff_exists'.mp (h.rereads _ l mem).2.2
      simp [Access.exec, holder] at exec
    | assertHolder l =>
      have holder := h.guards.leaving l s.kernel.current (.inl mem)
      simp [Access.exec, holder] at exec
    | takeHolder l =>
      have holder := h.guards.exclusive.releasing s.kernel.current l (.inr mem)
      simp [Access.exec, holder] at exec
    | testHolder | loadAcceptor | findRecord | updateStoredPrev | restoreSetted =>
      simp only [Access.exec] at exec
      split at exec <;> cases exec
    | _ => cases exec

theorem Orderly.proceeds (h : s.Orderly) : s.Proceeds := by
  intro i rest hf hexit hup
  have kernel : (s.kernel.step .exec).isSome := by
    cases i with
    | access a => exact h.access_isSome hf
    | up x =>
      cases x with
      | user n => exact (hup n rfl).elim
      | inner l => exact h.up_isSome hf
    | exitReturned => exact (hexit rfl).elim
    | _ => exact Kernel.step_isSome (Kernel.managed_nil.mpr h.guards.exclusive.wired.manager) hf rfl
  have critical : (s.critical.step .exec).isSome := by
    rw [Critical.step, Option.isSome_map]
    exact kernel
  simp only [step]
  split
  · rename_i b hb
    split
    · rename_i free
      have quiet : s.conflicts b = false := by
        rw [conflicts, List.any_eq_false]
        intro t _
        cases hc : s.borrow t with
        | none => simp
        | some c =>
          obtain ⟨rfl, -⟩ := h.borrow t c hc
          rw [free] at hc
          cases hc
      rw [if_neg (by simp [quiet])]
      rfl
    · rw [Option.isSome_map]
      exact critical
  · rw [Option.isSome_map]
    exact critical

end Cells

/-- When threads pair `acquire` and `release`, and no timer interrupt hits a thread that has
a borrow of a holder cell out or is between the two looks of `acquire` at the holder, no
step of `acquire` or `release` aborts. -/
theorem sleep_never_panics {σ : Type} [Schedule σ] [LawfulSchedule σ] {intr : Bool}
    {value lockid : Nat → Nat} {k₀ : Kernel σ} {es : List Event} {s : Cells σ}
    (start : Kernel.init intr value lockid = .ok k₀)
    (meets : Guarded Cells.step Cells.Calm (.start k₀) es)
    (ran : run Cells.step (.start k₀) es = some s) : s.Proceeds := by
  have orderly : s.Orderly := guarded_run_invariant
    (fun _ _ _ => Cells.step_orderly) (Cells.start_orderly start) meets ran
  exact orderly.proceeds

/-- `Initial` holds lock 0, and thread 2 of the same priority has been spawned. -/
def sharedLock : List Event := calling (.acquire 0) 6 ++ calling (.spawn 31) 5

/-- With thread 2 blocked on the lock, `up` of a release by `Initial` gets through. -/
theorem calm_release_proceeds : ∃ s, run Cells.step (.start bootedLocks)
    (sharedLock ++ calling (.acquire 0) 11 ++ calling (.release 0) 7) = some s ∧
    s.kernel.frames s.kernel.current = [.up (.inner 0), .schedule] ∧ (s.step .exec).isSome := by
  have ran : ((run Cells.step (.start bootedLocks)
      (sharedLock ++ calling (.acquire 0) 11 ++ calling (.release 0) 7)).map fun s =>
      s.kernel.frames s.kernel.current) = some [.up (.inner 0), .schedule] := by
    decide +kernel
  have meets : Guarded Cells.step Cells.Calm (.start bootedLocks)
      (sharedLock ++ calling (.acquire 0) 11 ++ calling (.release 0) 7) := by
    decide +kernel
  obtain ⟨s, hs, frames⟩ := Option.map_eq_some_iff.mp ran
  exact ⟨s, hs, frames, sleep_never_panics rfl meets hs _ _ frames (by simp) (by simp)⟩

/-- Thread 2 finds a holder, is preempted, and looks again after `Initial` has released. -/
def preemptedAcquire : List Event :=
  sharedLock ++ calling (.acquire 0) 2 ++ [.preempt, .exec, .exec] ++ calling (.release 0) 11

/-- Then the holder that thread 2 unwraps is gone. -/
theorem preempted_acquire_panics : ¬ ∀ es s,
    Guarded Cells.step Cells.Paired (.start bootedLocks) es →
    run Cells.step (.start bootedLocks) es = some s → s.Proceeds := by
  intro claim
  have ran : ((run Cells.step (.start bootedLocks) preemptedAcquire).map fun s =>
      (s.kernel.frames s.kernel.current, (s.step .exec).isSome)) =
      some ([.access (.readHolder 0)], false) := by
    decide +kernel
  have meets : Guarded Cells.step Cells.Paired (.start bootedLocks) preemptedAcquire := by
    decide +kernel
  obtain ⟨s, hs, hview⟩ := Option.map_eq_some_iff.mp ran
  simp only [Prod.mk.injEq] at hview
  obtain ⟨frames, fails⟩ := hview
  have proceeds := claim _ s meets hs _ _ frames (by simp) (by simp)
  rw [fails] at proceeds
  cases proceeds

/-- Preempted one step earlier, with its borrow out, thread 2 makes the release abort. -/
example : ((run Cells.step (.start bootedLocks) (sharedLock ++ calling (.acquire 0) 1 ++
    [.preempt, .exec, .exec] ++ calling (.release 0) 5)).map fun s =>
    (s.kernel.frames s.kernel.current, (s.step .exec).isSome)) =
    some ([.access (.takeHolder 0)], false) := by
  decide +kernel

end Tacos.Thread
