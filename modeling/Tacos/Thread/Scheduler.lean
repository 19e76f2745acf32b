/- GID: Tacos/Thread/Scheduler
   generality: I
   source: src/thread/scheduler.rs, src/thread/scheduler/fcfs.rs, src/thread/scheduler/priority.rs
   digest: The FIFO and the priority ready queues, and the laws both keep. -/

import Tacos.Lib.Buckets
import Mathlib.Data.Fintype.Basic
import Mathlib.Data.List.FinRange
import Mathlib.Tactic.Common

set_option autoImplicit false
set_option relaxedAutoImplicit false

namespace Tacos.Thread

/-- Thread identifiers are handed out consecutively by a counter. -/
abbrev Tid := Nat

inductive Status where
  | Ready
  | Running
  | Blocked
  | Dying
  deriving DecidableEq, Repr

/-- Every way the thread code can abort the kernel. -/
inductive Panic where
  | noThreadReady
  | nextNotReady
  | tailUnreachable
  | wakeUpNotBlocked
  | upOverflow
  | upCount
  | upIndex
  | holderUnwrap
  | notHolder
  | exitReturned
  | bucketIndex
  deriving DecidableEq, Repr

/-- What a scheduler reads of the threads: priorities, and the running thread. -/
structure View where
  priority : Tid → Nat
  current : Tid
  currentStatus : Status

/-- The scheduler trait. `admits` says which priorities its queues can index. -/
class Schedule (σ : Type) where
  admits : Nat → Bool
  default : σ
  register : (Tid → Nat) → σ → Tid → Except Panic σ
  schedule : View → σ → Except Panic (Option Tid × σ)

/-- The FIFO scheduler; the head of the list is the front of the deque. -/
structure Fcfs where
  queue : List Tid
  deriving DecidableEq, Repr

def Fcfs.register (q : Fcfs) (t : Tid) : Fcfs := ⟨t :: q.queue⟩

def Fcfs.schedule (q : Fcfs) : Option Tid × Fcfs :=
  (q.queue.getLast?, ⟨q.queue.dropLast⟩)

instance : Schedule Fcfs where
  admits _ := true
  default := ⟨[]⟩
  register _ q t := .ok (q.register t)
  schedule _ q := .ok q.schedule

/-- The priority scheduler: one deque for each of the 64 priorities. -/
structure PriorityScheduler where
  bucket : Fin 64 → List Tid

namespace PriorityScheduler

def empty : PriorityScheduler := ⟨fun _ => []⟩

/-- Push at the front of the bucket of the thread's current priority. -/
def register (priority : Tid → Nat) (q : PriorityScheduler) (t : Tid) :
    Except Panic PriorityScheduler :=
  if h : priority t < 64 then
    .ok ⟨Function.update q.bucket ⟨priority t, h⟩ (t :: q.bucket ⟨priority t, h⟩)⟩
  else .error .bucketIndex

/-- Empty one bucket from the front: a thread that still has the bucket's priority
goes to `temp`, any other one to the back of the bucket of its current priority. -/
def drain (priority : Tid → Nat) (i : Fin 64) :
    List Tid → List Tid → PriorityScheduler → Except Panic PriorityScheduler
  | [], temp, q => .ok ⟨Function.update q.bucket i temp⟩
  | x :: xs, temp, q =>
    if priority x = i.val then drain priority i xs (temp ++ [x]) q
    else if h : priority x < 64 then
      drain priority i xs temp
        ⟨Function.update q.bucket ⟨priority x, h⟩ (q.bucket ⟨priority x, h⟩ ++ [x])⟩
    else .error .bucketIndex

/-- Rebuild the listed buckets in order. -/
def updateBuckets (priority : Tid → Nat) :
    List (Fin 64) → PriorityScheduler → Except Panic PriorityScheduler
  | [], q => .ok q
  | i :: is, q =>
    match drain priority i (q.bucket i) [] ⟨Function.update q.bucket i []⟩ with
    | .ok q' => updateBuckets priority is q'
    | .error p => .error p

def updatePriority (priority : Tid → Nat) (q : PriorityScheduler) :
    Except Panic PriorityScheduler :=
  updateBuckets priority (List.finRange 64) q

/-- Search the listed buckets for the first non-empty one, and take its back. -/
def choose (v : View) : List (Fin 64) → PriorityScheduler → Option Tid × PriorityScheduler
  | [], q => (none, q)
  | i :: is, q =>
    match (q.bucket i).getLast? with
    | none => choose v is q
    | some chosen =>
      if v.priority chosen < v.priority v.current ∧ v.currentStatus = .Running then (none, q)
      else (some chosen, ⟨Function.update q.bucket i (q.bucket i).dropLast⟩)

def schedule (v : View) (q : PriorityScheduler) : Except Panic (Option Tid × PriorityScheduler) :=
  match updatePriority v.priority q with
  | .ok q' => .ok (choose v (List.finRange 64).reverse q')
  | .error p => .error p

end PriorityScheduler

instance : Schedule PriorityScheduler where
  admits p := decide (p ≤ 63)
  default := .empty
  register := PriorityScheduler.register
  schedule := PriorityScheduler.schedule

/-- The laws of a ready queue. `queued` lists the registered threads, each as often as
it is registered; registering adds one occurrence, choosing removes the chosen one. -/
class LawfulSchedule (σ : Type) [Schedule σ] where
  queued : σ → List Tid
  admits_default : ∀ p ≤ 31, Schedule.admits σ p
  queued_default : queued (Schedule.default : σ) = []
  register_spec : ∀ (priority : Tid → Nat) (q : σ) (t : Tid), Schedule.admits σ (priority t) →
    ∃ q', Schedule.register priority q t = .ok q' ∧ (queued q').Perm (t :: queued q)
  schedule_spec : ∀ (v : View) (q : σ), (∀ t ∈ queued q, Schedule.admits σ (v.priority t)) →
    (∃ q', Schedule.schedule v q = .ok (none, q') ∧ (queued q').Perm (queued q) ∧
      (v.currentStatus ≠ .Running → queued q = [])) ∨
    (∃ t q', Schedule.schedule v q = .ok (some t, q') ∧ (t :: queued q').Perm (queued q))

instance : LawfulSchedule Fcfs where
  queued q := q.queue
  admits_default _ _ := rfl
  queued_default := rfl
  register_spec _ q t _ := ⟨q.register t, rfl, List.Perm.refl _⟩
  schedule_spec v q _ := by
    obtain ⟨queue⟩ := q
    rcases List.eq_nil_or_concat queue with rfl | ⟨init, last, rfl⟩
    · exact .inl ⟨⟨[]⟩, rfl, List.Perm.refl _, fun _ => rfl⟩
    · refine .inr ⟨last, ⟨init⟩, ?_, ?_⟩
      · simp [Schedule.schedule, Fcfs.schedule]
      · simpa using (List.perm_append_singleton last init).symm

namespace PriorityScheduler

open scoped List

def queued (q : PriorityScheduler) : List Tid := (List.finRange 64).flatMap q.bucket

theorem queued_update (q : PriorityScheduler) (i : Fin 64) (l : List Tid) :
    (queued ⟨Function.update q.bucket i l⟩ ++ q.bucket i).Perm (queued q ++ l) :=
  Tacos.Lib.Buckets.flatMap_update_perm (List.nodup_finRange 64) (List.mem_finRange i) q.bucket l

private theorem register_perm (priority : Tid → Nat) (q : PriorityScheduler) (t : Tid)
    (h : priority t ≤ 63) :
    ∃ q', register priority q t = .ok q' ∧ (queued q').Perm (t :: queued q) := by
  have hlt : priority t < 64 := by omega
  refine ⟨_, dif_pos hlt, ?_⟩
  have exchange := queued_update q ⟨priority t, hlt⟩ (t :: q.bucket ⟨priority t, hlt⟩)
  have front := exchange.trans List.perm_middle
  exact (List.perm_append_right_iff _).mp front

theorem drain_perm (priority : Tid → Nat) (i : Fin 64) (xs temp : List Tid)
    (q : PriorityScheduler) (vacant : q.bucket i = [])
    (bound : ∀ x ∈ xs, priority x ≤ 63) :
    ∃ q', drain priority i xs temp q = .ok q' ∧ (queued q').Perm (queued q ++ (temp ++ xs)) := by
  induction xs generalizing temp q with
  | nil =>
    refine ⟨_, rfl, ?_⟩
    simpa [vacant] using queued_update q i temp
  | cons x xs ih =>
    have boundxs : ∀ y ∈ xs, priority y ≤ 63 := fun y hy => bound y (List.mem_cons_of_mem x hy)
    by_cases hx : priority x = i.val
    · obtain ⟨q', hq', perm⟩ := ih (temp ++ [x]) q vacant boundxs
      refine ⟨q', by simpa [drain, hx] using hq', ?_⟩
      simpa using perm
    · have hlt : priority x < 64 := by
        have := bound x List.mem_cons_self
        omega
      let j : Fin 64 := ⟨priority x, hlt⟩
      have hji : i ≠ j := fun h => hx (by rw [h])
      obtain ⟨q', hq', perm⟩ := ih temp ⟨Function.update q.bucket j (q.bucket j ++ [x])⟩
        (by simp [Function.update_of_ne hji, vacant]) boundxs
      refine ⟨q', by simpa [drain, hx, hlt] using hq', perm.trans ?_⟩
      have exchange := queued_update q j (q.bucket j ++ [x])
      have moved : (queued ⟨Function.update q.bucket j (q.bucket j ++ [x])⟩).Perm
          (queued q ++ [x]) := by
        apply (List.perm_append_right_iff (q.bucket j)).mp
        calc _ ~ queued q ++ (q.bucket j ++ [x]) := exchange
          _ ~ queued q ++ ([x] ++ q.bucket j) := List.perm_append_comm.append_left _
          _ = queued q ++ [x] ++ q.bucket j := (List.append_assoc _ _ _).symm
      calc _ ~ (queued q ++ [x]) ++ (temp ++ xs) := moved.append_right _
        _ = queued q ++ (x :: (temp ++ xs)) := by simp
        _ ~ queued q ++ (temp ++ x :: xs) := List.perm_middle.symm.append_left _

theorem updateBuckets_perm (priority : Tid → Nat) (is : List (Fin 64))
    (q : PriorityScheduler) (bound : ∀ t ∈ queued q, priority t ≤ 63) :
    ∃ q', updateBuckets priority is q = .ok q' ∧ (queued q').Perm (queued q) := by
  induction is generalizing q with
  | nil => exact ⟨q, rfl, List.Perm.refl _⟩
  | cons i is ih =>
    have inBucket : ∀ x ∈ q.bucket i, priority x ≤ 63 := fun x hx =>
      bound x (List.mem_flatMap.mpr ⟨i, List.mem_finRange i, hx⟩)
    obtain ⟨q', hq', perm⟩ := drain_perm priority i (q.bucket i) []
      ⟨Function.update q.bucket i []⟩ (by simp) inBucket
    have whole : (queued q').Perm (queued q) := by
      have exchange := queued_update q i []
      simpa using perm.trans (by simpa using exchange)
    obtain ⟨q'', hq'', perm'⟩ := ih q' fun t ht => bound t (whole.mem_iff.mp ht)
    exact ⟨q'', by simpa [updateBuckets, hq'] using hq'', perm'.trans whole⟩

/-- The first listed bucket that is not empty decides: its back is taken, unless the running thread
ranks above it. -/
theorem choose_spec (v : View) (is : List (Fin 64)) (q : PriorityScheduler) :
    ((∀ i ∈ is, q.bucket i = []) ∧ choose v is q = (none, q)) ∨
    ∃ pre i post t, is = pre ++ i :: post ∧ (∀ j ∈ pre, q.bucket j = []) ∧
      (q.bucket i).getLast? = some t ∧
      choose v is q =
        if v.priority t < v.priority v.current ∧ v.currentStatus = .Running then (none, q)
        else (some t, ⟨Function.update q.bucket i (q.bucket i).dropLast⟩) := by
  induction is with
  | nil => exact .inl ⟨by simp, rfl⟩
  | cons i is ih =>
    cases hlast : (q.bucket i).getLast? with
    | none =>
      have hempty : q.bucket i = [] := List.getLast?_eq_none_iff.mp hlast
      have skip : choose v (i :: is) q = choose v is q := by simp only [choose, hlast]
      rw [skip]
      rcases ih with ⟨hall, hnone⟩ | ⟨pre, j, post, t, rfl, hpre, ht, hnext⟩
      · exact .inl ⟨List.forall_mem_cons.mpr ⟨hempty, hall⟩, hnone⟩
      · exact .inr ⟨i :: pre, j, post, t, rfl, List.forall_mem_cons.mpr ⟨hempty, hpre⟩, ht, hnext⟩
    | some t => exact .inr ⟨[], i, is, t, rfl, by simp, hlast, by simp only [choose, hlast]⟩

private theorem choose_cases (v : View) (is : List (Fin 64)) (q : PriorityScheduler) :
    (choose v is q = (none, q) ∧
      (v.currentStatus ≠ .Running → ∀ i ∈ is, q.bucket i = [])) ∨
    (∃ i t, choose v is q = (some t, ⟨Function.update q.bucket i (q.bucket i).dropLast⟩) ∧
      (q.bucket i).getLast? = some t ∧
      ¬ (v.priority t < v.priority v.current ∧ v.currentStatus = .Running)) := by
  rcases choose_spec v is q with ⟨hall, hnone⟩ | ⟨pre, i, post, t, -, -, ht, hnext⟩
  · exact .inl ⟨hnone, fun _ => hall⟩
  · split at hnext
    · rename_i hkeep
      exact .inl ⟨hnext, fun hrun => absurd hkeep.2 hrun⟩
    · rename_i hkeep
      exact .inr ⟨i, t, hnext, ht, hkeep⟩

theorem schedule_perm (v : View) (q : PriorityScheduler)
    (bound : ∀ t ∈ queued q, v.priority t ≤ 63) :
    (∃ q', schedule v q = .ok (none, q') ∧ (queued q').Perm (queued q) ∧
      (v.currentStatus ≠ .Running → queued q = [])) ∨
    (∃ t q', schedule v q = .ok (some t, q') ∧ (t :: queued q').Perm (queued q)) := by
  obtain ⟨u, hu, perm⟩ := updateBuckets_perm v.priority (List.finRange 64) q bound
  rcases choose_cases v (List.finRange 64).reverse u with ⟨hnone, hall⟩ | ⟨i, t, hsome, ht, -⟩
  · refine .inl ⟨u, by simp [schedule, updatePriority, hu, hnone], perm, ?_⟩
    intro hrun
    have hempty : queued u = [] := by
      apply List.flatMap_eq_nil_iff.mpr
      intro i hi
      exact hall hrun i (List.mem_reverse.mpr hi)
    exact List.nil_perm.mp (hempty ▸ perm)
  · refine .inr ⟨t, ⟨Function.update u.bucket i (u.bucket i).dropLast⟩,
      by simp [schedule, updatePriority, hu, hsome], ?_⟩
    have hsplit : (u.bucket i).dropLast ++ [t] = u.bucket i := List.dropLast_append_getLast? t ht
    have exchange := queued_update u i (u.bucket i).dropLast
    have whole : (t :: queued ⟨Function.update u.bucket i (u.bucket i).dropLast⟩).Perm
        (queued u) := by
      apply (List.perm_append_right_iff (u.bucket i).dropLast).mp
      calc _ ~ queued ⟨Function.update u.bucket i (u.bucket i).dropLast⟩ ++
            ((u.bucket i).dropLast ++ [t]) := by
            simpa using (List.perm_append_singleton t
              (queued ⟨Function.update u.bucket i (u.bucket i).dropLast⟩ ++
                (u.bucket i).dropLast)).symm
        _ = queued ⟨Function.update u.bucket i (u.bucket i).dropLast⟩ ++ u.bucket i := by
            rw [hsplit]
        _ ~ queued u ++ (u.bucket i).dropLast := exchange
    exact whole.trans perm

/-- A chosen thread is registered, and it does not rank below a running thread. -/
theorem schedule_some {v : View} {q q' : PriorityScheduler} {t : Tid}
    (bound : ∀ t ∈ queued q, v.priority t ≤ 63) (h : schedule v q = .ok (some t, q')) :
    t ∈ queued q ∧ ¬ (v.priority t < v.priority v.current ∧ v.currentStatus = .Running) := by
  obtain ⟨u, hu, perm⟩ := updateBuckets_perm v.priority (List.finRange 64) q bound
  simp only [schedule, updatePriority, hu] at h
  rcases choose_cases v (List.finRange 64).reverse u with ⟨hnone, -⟩ | ⟨i, t', hsome, ht, hkeep⟩
  · rw [hnone] at h
    cases h
  · rw [hsome] at h
    obtain rfl : t' = t := Option.some.inj (Prod.mk.inj (Except.ok.inj h)).1
    refine ⟨perm.mem_iff.mp ?_, hkeep⟩
    exact List.mem_flatMap.mpr ⟨i, List.mem_finRange i, List.mem_of_getLast? ht⟩

/-- Every thread of a bucket has the bucket's priority. -/
def Clean (priority : Tid → Nat) (q : PriorityScheduler) (i : Fin 64) : Prop :=
  ∀ t ∈ q.bucket i, priority t = i.val

theorem Clean.update {priority : Tid → Nat} {q : PriorityScheduler} {i j : Fin 64}
    {l : List Tid} (h : j ≠ i → Clean priority q j) (hl : ∀ t ∈ l, priority t = i.val) :
    Clean priority ⟨Function.update q.bucket i l⟩ j := by
  by_cases hj : j = i
  · subst hj
    intro t ht
    simp only [Function.update_self] at ht
    exact hl t ht
  · intro t ht
    simp only [Function.update_of_ne hj] at ht
    exact h hj t ht

/-- Draining a bucket leaves it clean, and all others that were. -/
theorem drain_clean {priority : Tid → Nat} {i : Fin 64} {xs temp : List Tid}
    {q q' : PriorityScheduler} (h : drain priority i xs temp q = .ok q')
    (kept : ∀ t ∈ temp, priority t = i.val) {j : Fin 64} (clean : j ≠ i → Clean priority q j) :
    Clean priority q' j := by
  induction xs generalizing temp q with
  | nil =>
    cases h
    exact Clean.update clean kept
  | cons x xs ih =>
    simp only [drain] at h
    split at h
    · rename_i hx
      refine ih h ?_ clean
      intro t ht
      rcases List.mem_append.mp ht with ht | ht
      · exact kept t ht
      · rw [List.mem_singleton.mp ht, hx]
    · split at h
      · refine ih h kept fun hj => ?_
        by_cases hp : j = ⟨priority x, ‹_›⟩
        · subst hp
          refine Clean.update (fun hne => (hne rfl).elim) ?_
          intro t ht
          rcases List.mem_append.mp ht with ht | ht
          · exact clean hj t ht
          · rw [List.mem_singleton.mp ht]
        · intro t ht
          simp only [Function.update_of_ne hp] at ht
          exact clean hj t ht
      · cases h

theorem updateBuckets_clean {priority : Tid → Nat} {is : List (Fin 64)}
    {q q' : PriorityScheduler} (h : updateBuckets priority is q = .ok q') {j : Fin 64}
    (clean : j ∈ is ∨ Clean priority q j) : Clean priority q' j := by
  induction is generalizing q with
  | nil =>
    cases h
    exact clean.resolve_left (by simp)
  | cons i is ih =>
    simp only [updateBuckets] at h
    split at h
    · rename_i u hu
      refine ih h ?_
      by_cases hj : j ∈ is
      · exact .inl hj
      · refine .inr (drain_clean hu (by simp) fun hne t ht => ?_)
        simp only [Function.update_of_ne hne] at ht
        rcases clean with hm | hc
        · exact ((List.mem_cons.mp hm).elim hne hj).elim
        · exact hc t ht
    · cases h

/-- No registered thread ranks higher than the chosen one, or than the running thread when
none is chosen. -/
theorem schedule_top {v : View} {q q' : PriorityScheduler} {next : Option Tid}
    (bound : ∀ t ∈ queued q, v.priority t ≤ 63) (h : schedule v q = .ok (next, q')) :
    ∀ t ∈ queued q, v.priority t ≤ v.priority (next.getD v.current) := by
  obtain ⟨u, hu, perm⟩ := updateBuckets_perm v.priority (List.finRange 64) q bound
  simp only [schedule, updatePriority, hu, Except.ok.injEq] at h
  have clean : ∀ i, Clean v.priority u i := fun i =>
    updateBuckets_clean hu (.inl (List.mem_finRange i))
  intro t ht
  obtain ⟨j, -, hj⟩ := List.mem_flatMap.mp (perm.mem_iff.mpr ht)
  have hmem : j ∈ (List.finRange 64).reverse := List.mem_reverse.mpr (List.mem_finRange j)
  have sorted : (List.finRange 64).reverse.Pairwise (· > ·) :=
    List.pairwise_reverse.mpr (List.pairwise_lt_finRange 64)
  rcases choose_spec v (List.finRange 64).reverse u with ⟨hall, -⟩ |
    ⟨pre, i, post, w, his, hpre, hlast, hnext⟩
  · rw [hall j hmem] at hj
    cases hj
  · -- a bucket before the first one that is not empty holds nobody
    have le : j ≤ i := by
      rw [his] at hmem sorted
      rcases List.mem_append.mp hmem with hj' | hj'
      · rw [hpre j hj'] at hj
        cases hj
      · rcases List.mem_cons.mp hj' with rfl | hj'
        · exact le_rfl
        · exact ((List.pairwise_cons.mp (List.pairwise_append.mp sorted).2.1).1 j hj').le
    have rank : v.priority t ≤ v.priority w := by
      rw [clean j t hj, clean i w (List.mem_of_getLast? hlast)]
      exact le
    rw [h] at hnext
    split at hnext
    · rename_i lower
      cases hnext
      exact (rank.trans_lt lower.1).le
    · cases hnext
      exact rank

end PriorityScheduler

instance : LawfulSchedule PriorityScheduler where
  queued := PriorityScheduler.queued
  admits_default p hp := decide_eq_true (by omega)
  queued_default := by
    apply List.flatMap_eq_nil_iff.mpr
    intro i _
    rfl
  register_spec priority q t h :=
    PriorityScheduler.register_perm priority q t (of_decide_eq_true h)
  schedule_spec v q h :=
    PriorityScheduler.schedule_perm v q fun t ht => of_decide_eq_true (h t ht)

end Tacos.Thread
