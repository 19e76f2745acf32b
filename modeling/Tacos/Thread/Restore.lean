/- GID: Tacos/Thread/Restore
   generality: I
   source: src/sync/sleep.rs, src/thread/imp.rs, src/thread.rs
   digest: When a thread that holds no Sleep lock is back at its own priority. -/

import Tacos.Thread.Donation

set_option autoImplicit false
set_option relaxedAutoImplicit false

namespace Tacos.Thread

open Tacos.Lib.Run (run Guarded guarded_run_invariant)

/-- The kernel together with the priority each thread gave itself: the one it was created
with, or the last one it passed to `set_priority`. -/
structure Ledger (σ : Type) where
  kernel : Kernel σ
  base : Tid → Nat

namespace Ledger

variable {σ : Type} [Schedule σ]

/-- The base priorities after an instruction. -/
def rebase (s : Ledger σ) : Instr → Tid → Nat
  | .access (.storePriority p) => Function.update s.base s.kernel.current p
  | .build p => Function.update s.base s.kernel.nextTid p
  | _ => s.base

def step (s : Ledger σ) (e : Event) : Option (Ledger σ) :=
  (s.kernel.step e).map fun k =>
    match e, (s.kernel.frames s.kernel.current).head? with
    | .exec, some i => ⟨k, s.rebase i⟩
    | _, _ => ⟨k, s.base⟩

/-- The base priorities are the ones the threads are created with. -/
def start (k : Kernel σ) : Ledger σ := ⟨k, k.locks.priority⟩

/-- A thread that holds no Sleep lock has its base priority. -/
def Restored (s : Ledger σ) : Prop :=
  ∀ t, (∀ l, (s.kernel.locks.sleep l).holder ≠ some t) → s.kernel.locks.priority t = s.base t

/-- `t` holds no Sleep lock but those it is about to give up. -/
def Bare (s : Ledger σ) (t : Tid) : Prop := ∀ l, ¬ s.kernel.Holds t l

/-- What must hold before an instruction so that what it stores is given back. -/
def FaithfulAt (s : Ledger σ) : Instr → Prop
  -- a donation reaches a thread that keeps a lock
  | .access (.donateStore t _) => ∃ l, s.kernel.Holds t l
  -- a thread without a record for its last lock has nothing to give back
  | .access (.findRecord l) =>
    (∀ l', s.kernel.Holds s.kernel.current l' → l' = l) →
    (s.kernel.locks.data s.kernel.current).prioritySetted = none →
    (∀ r ∈ (s.kernel.locks.data s.kernel.current).donationq,
      r.lockid ≠ (s.kernel.locks.sleep l).lockid) →
    s.kernel.locks.priority s.kernel.current = s.base s.kernel.current
  -- the snapshot taken with the smallest lock id is the base priority, and no record of
  -- a higher donation is left over
  | .access .scanRecords =>
    s.Bare s.kernel.current →
    (s.kernel.locks.data s.kernel.current).prioritySetted = none →
    (s.kernel.locks.data s.kernel.current).storedPrev.2 = s.base s.kernel.current ∧
      ∀ r ∈ (s.kernel.locks.data s.kernel.current).donationq,
        r.donnerPriority ≤ s.base s.kernel.current
  | _ => True

def Faithful (s : Ledger σ) : Event → Prop
  | .exec => ∀ i ∈ (s.kernel.frames s.kernel.current).head?, s.FaithfulAt i
  | _ => True

/-- `t` has its base priority, or is inside `release` and has still to store it. -/
def Level (s : Ledger σ) (t : Tid) : Prop :=
  s.kernel.locks.priority t = s.base t ∨
    (.access .restoreSetted ∈ s.kernel.frames t ∧
      ((s.kernel.locks.data t).prioritySetted ≠ none ∨ .access .scanRecords ∈ s.kernel.frames t ∨
        ∃ p, .access (.restorePriority p) ∈ s.kernel.frames t))

/-- The invariant of priorities along faithful runs. -/
structure Repaid [LawfulSchedule σ] (s : Ledger σ) : Prop where
  exclusive : s.kernel.Exclusive
  level : ∀ t, s.Bare t → s.Level t
  restore : ∀ t p, .access (.restorePriority p) ∈ s.kernel.frames t →
    s.Bare t → (s.kernel.locks.data t).prioritySetted = none → p = s.base t
  setted : ∀ t p, (s.kernel.locks.data t).prioritySetted = some p → p = s.base t ∨
    ∃ q, .access (.storeSetted q) ∈ s.kernel.frames t
  setting : ∀ t p, .access (.storeSetted p) ∈ s.kernel.frames t →
    .access (.storePriority p) ∈ s.kernel.frames t ∨ p = s.base t

section Step

variable [LawfulSchedule σ] {s s' : Ledger σ} {rest : List Instr} {i : Instr}

omit [LawfulSchedule σ] in
theorem step_kernel {e : Event} (hs : s.step e = some s') :
    s.kernel.step e = some s'.kernel := by
  obtain ⟨k', hk', rfl⟩ := Option.map_eq_some_iff.mp hs
  rw [hk']
  split <;> rfl

theorem Repaid.restored (h : s.Repaid) : s.Restored := by
  intro t hnone
  refine (h.level t fun l hl => hnone l hl.1).resolve_right ?_
  rintro ⟨hpending, -⟩
  obtain ⟨l, hl⟩ := (h.exclusive.wired.phased t).takeHolder_pending hpending
  exact hnone l (h.exclusive.releasing t l (.inr hl))

end Step

end Ledger

/-- The condition on a step when only the locks before `n` are in use. -/
def Ledger.FaithfulWithin (n : Nat) (s : Ledger PriorityScheduler) : Event → Prop
  | .exec => match (s.kernel.frames s.kernel.current).head? with
    | some (.access (.donateStore t _)) => ∃ l < n, s.kernel.Holds t l
    | some (.access (.findRecord l)) =>
      (∀ l' < n, s.kernel.Holds s.kernel.current l' → l' = l) →
      (s.kernel.locks.data s.kernel.current).prioritySetted = none →
      (∀ r ∈ (s.kernel.locks.data s.kernel.current).donationq,
        r.lockid ≠ (s.kernel.locks.sleep l).lockid) →
      s.kernel.locks.priority s.kernel.current = s.base s.kernel.current
    | some (.access .scanRecords) =>
      (∀ l < n, ¬ s.kernel.Holds s.kernel.current l) →
      (s.kernel.locks.data s.kernel.current).prioritySetted = none →
      (s.kernel.locks.data s.kernel.current).storedPrev.2 = s.base s.kernel.current ∧
        ∀ r ∈ (s.kernel.locks.data s.kernel.current).donationq,
          r.donnerPriority ≤ s.base s.kernel.current
    | _ => True
  | _ => True

instance (n : Nat) (s : Ledger PriorityScheduler) (e : Event) :
    Decidable (s.FaithfulWithin n e) := by
  unfold Ledger.FaithfulWithin
  split
  · split <;> infer_instance
  · infer_instance

theorem Ledger.FaithfulWithin.faithful {n : Nat} (s : Ledger PriorityScheduler) (e : Event)
    (h : s.FaithfulWithin n e) : s.Faithful e := by
  cases e with
  | exec =>
    intro i hi
    simp only [Ledger.FaithfulWithin, Option.mem_def.mp hi] at h
    unfold Ledger.FaithfulAt
    split
    · obtain ⟨l, -, hl⟩ := h
      exact ⟨l, hl⟩
    · exact fun last => h fun l' _ => last l'
    · exact fun bare => h fun l _ => bare l
    · trivial
  | _ => trivial

end Tacos.Thread
