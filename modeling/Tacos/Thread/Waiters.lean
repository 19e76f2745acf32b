/- GID: Tacos/Thread/Waiters
   generality: G
   source: src/sync/sema.rs
   digest: Which waiter of a semaphore is woken, and in which order the others stay. -/

import Tacos.Thread.Semaphore

set_option autoImplicit false
set_option relaxedAutoImplicit false

namespace Tacos.Thread

open Tacos.Lib.Run

/-- The kernel, the number of steps so far, and in which step each thread last joined each queue. -/
structure History (σ : Type) where
  kernel : Kernel σ
  time : Nat
  joined : SemaId → Tid → Nat

/-- The queue that the current thread joins in a step. -/
def Kernel.joins {σ : Type} (k : Kernel σ) : Event → Option SemaId
  | .exec =>
    match k.frames k.current with
    | .downLoop x _ :: _ => if (k.sema x).value = 0 then some x else none
    | _ => none
  | _ => none

namespace History

variable {σ : Type} [Schedule σ]

def note (h : History σ) (e : Event) : SemaId → Tid → Nat :=
  match h.kernel.joins e with
  | some x => Function.update h.joined x (Function.update (h.joined x) h.kernel.current h.time)
  | none => h.joined

def step (h : History σ) (e : Event) : Option (History σ) :=
  (h.kernel.step e).map fun k => ⟨k, h.time + 1, h.note e⟩

def start (k : Kernel σ) : History σ := ⟨k, 0, fun _ _ => 0⟩

/-- The front of the deque is the thread that joined last. -/
structure Aged (h : History σ) (x : SemaId) : Prop where
  order : (h.kernel.sema x).waiters.Pairwise fun a b => h.joined x b < h.joined x a
  past : ∀ w ∈ (h.kernel.sema x).waiters, h.joined x w < h.time

/-- The invariant: every queue is in the order of joining. -/
structure Ordered [LawfulSchedule σ] (h : History σ) : Prop where
  wired : h.kernel.Wired
  aged : ∀ x, h.Aged x

variable {h h' : History σ}

omit [Schedule σ] in
theorem Aged.sublist {x : SemaId} {k : Kernel σ} {joined : SemaId → Tid → Nat} (aged : h.Aged x)
    (sub : (k.sema x).waiters.Sublist (h.kernel.sema x).waiters) (same : joined x = h.joined x) :
    Aged ⟨k, h.time + 1, joined⟩ x := by
  constructor
  · dsimp only
    rw [same]
    exact aged.order.sublist sub
  · intro w hw
    dsimp only
    rw [same]
    exact Nat.lt_succ_of_lt (aged.past w (sub.subset hw))

omit [Schedule σ] in
/-- In a step the current thread joins one queue, or every queue keeps some of its threads. -/
private theorem queues_of_effect {k k' : Kernel σ} {i : Instr} {rest : List Instr}
    (hf : k.frames k.current = i :: rest) (effect : Kernel.Effect k rest k' i) :
    (∃ x, k.joins .exec = some x ∧ k'.sema = Function.update k.sema x
        { k.sema x with waiters := k.current :: (k.sema x).waiters }) ∨
      k.joins .exec = none ∧ ∀ x, (k'.sema x).waiters.Sublist (k.sema x).waiters := by
  have same : k'.sema = k.sema → ∀ x, (k'.sema x).waiters.Sublist (k.sema x).waiters := by
    intro sema x
    rw [sema]
  have updated : ∀ x y, (y.waiters).Sublist (k.sema x).waiters →
    k'.sema = Function.update k.sema x y →
      ∀ z, (k'.sema z).waiters.Sublist (k.sema z).waiters := by
    intro x y sub sema z
    rw [sema]
    by_cases here : z = x
    · subst here
      rw [Function.update_self]
      exact sub
    · rw [Function.update_of_ne here]
  cases effect with
  | block x old value locks sema =>
    refine .inl ⟨x, ?_, sema⟩
    simp only [Kernel.joins, hf, value, if_true]
  | take x old value locks sema =>
    refine .inr ⟨?_, updated x ⟨(k.sema x).value - 1, (k.sema x).waiters⟩
      (List.Sublist.refl _) sema⟩
    simp only [Kernel.joins, hf, value, if_false]
  | up x waiters sub locks sema =>
    refine .inr ⟨?_, updated x _ sub sema⟩
    simp only [Kernel.joins, hf]
  | still i passive locks sema =>
    refine .inr ⟨?_, same sema⟩
    cases i <;> simp only [Kernel.joins, hf]
    cases passive
  | schedule locks sema => exact .inr ⟨by simp only [Kernel.joins, hf], same sema⟩
  | build p locks sema => exact .inr ⟨by simp only [Kernel.joins, hf], same sema⟩
  | exit locks sema => exact .inr ⟨by simp only [Kernel.joins, hf], same sema⟩
  | down x locks sema => exact .inr ⟨by simp only [Kernel.joins, hf], same sema⟩
  | access a is exec sema => exact .inr ⟨by simp only [Kernel.joins, hf], same sema⟩

variable [LawfulSchedule σ]

private theorem Ordered.not_waiting (ordered : h.Ordered) {i : Instr}
    {rest : List Instr} (x : SemaId)
    (hf : h.kernel.frames h.kernel.current = i :: rest) (ne : i ≠ .schedule) :
    h.kernel.current ∉ (h.kernel.sema x).waiters := by
  intro waits
  have blocked := ordered.wired.manager.core.mem_waiters x _ waits
  obtain running | ⟨-, tail, schedules⟩ := ordered.wired.manager.settled
  · rw [running] at blocked
    cases blocked
  · rw [hf] at schedules
    exact ne (List.cons.inj schedules).1

/-- The step lemma. -/
theorem step_ordered {e : Event} (ordered : h.Ordered) (hs : h.step e = some h') : h'.Ordered := by
  obtain ⟨k, hk, rfl⟩ := Option.map_eq_some_iff.mp hs
  refine ⟨ordered.wired.step hk, fun x => ?_⟩
  cases e with
  | exec =>
    obtain ⟨i, rest, hf, effect⟩ := Kernel.step_exec ordered.wired.current_ne hk
    obtain ⟨y, joins, sema⟩ | ⟨joins, sub⟩ := queues_of_effect hf effect
    · have noted : h.note .exec = Function.update h.joined y
          (Function.update (h.joined y) h.kernel.current h.time) := by
        simp only [note, joins]
      by_cases here : x = y
      · subst here
        have loops : i ≠ .schedule := by
          rintro rfl
          simp [Kernel.joins, hf] at joins
        have absent := ordered.not_waiting x hf loops
        have others : ∀ w ∈ (h.kernel.sema x).waiters,
            Function.update (h.joined x) h.kernel.current h.time w = h.joined x w := by
          intro w hw
          have ne : w ≠ h.kernel.current := by
            rintro rfl
            exact absent hw
          exact Function.update_of_ne ne _ _
        have waiters : (k.sema x).waiters = h.kernel.current :: (h.kernel.sema x).waiters := by
          rw [sema, Function.update_self]
        have aged := ordered.aged x
        -- The thread that joins is the front, and joins after all the others.
        constructor
        · dsimp only
          rw [waiters, noted, Function.update_self, List.pairwise_cons]
          refine ⟨fun w hw => ?_, ?_⟩
          · rw [others w hw, Function.update_self]
            exact aged.past w hw
          · refine aged.order.imp_of_mem fun ha hb older => ?_
            rw [others _ ha, others _ hb]
            exact older
        · dsimp only
          rw [waiters, noted, Function.update_self]
          intro w hw
          obtain rfl | hw := List.mem_cons.mp hw
          · rw [Function.update_self]
            exact Nat.lt_succ_self _
          · rw [others w hw]
            exact Nat.lt_succ_of_lt (aged.past w hw)
      · refine (ordered.aged x).sublist ?_ ?_
        · rw [sema, Function.update_of_ne here]
        · rw [noted, Function.update_of_ne here]
    · refine (ordered.aged x).sublist (sub x) ?_
      simp only [note, joins]
  | call c =>
    obtain ⟨-, rfl⟩ := Kernel.step_call hk
    exact (ordered.aged x).sublist (List.Sublist.refl _) rfl
  | preempt =>
    obtain ⟨-, rfl⟩ := Kernel.step_preempt hk
    exact (ordered.aged x).sublist (List.Sublist.refl _) rfl

theorem start_ordered {intr : Bool} {value lockid : Nat → Nat} {k : Kernel σ}
    (h : Kernel.init intr value lockid = .ok k) : (start k).Ordered := by
  refine ⟨Kernel.init_wired h, fun x => ?_⟩
  obtain ⟨q, all, rfl⟩ := Kernel.init_eq h
  have none : (Kernel.sema { (Kernel.boot intr value lockid : Kernel σ) with
      scheduler := q, all := all } x).waiters = [] := by
    cases x <;> rfl
  constructor
  · rw [start, none]
    exact List.Pairwise.nil
  · intro w hw
    rw [start, none] at hw
    cases hw

end History

/-- What `up` does with a queue that is not empty. -/
theorem Kernel.up_wakes {σ : Type} [Schedule σ] {k k' : Kernel σ} {x : SemaId}
    (waits : (k.sema x).waiters ≠ [])
    (done : k.up x = .ok k') : ∃ i t, getMaxpriority k.locks.priority (k.sema x).waiters =
      (i, k.locks.priority t) ∧
      (k.sema x).waiters[i]? = some t ∧ (k'.sema x).waiters = (k.sema x).waiters.eraseIdx i ∧
        k.status t = .Blocked ∧ k'.status = Function.update k.status t .Ready := by
  obtain ⟨i, t, hmax, ht, -⟩ := getMaxpriority_spec k.locks.priority waits
  refine ⟨i, t, hmax, ht, ?_⟩
  obtain ⟨-, ⟨none, -⟩ | ⟨j, p, u, k₁, -, -, max, found, woken, rfl⟩⟩ := up_cases done
  · exact absurd none waits
  · obtain ⟨rfl, rfl⟩ := Prod.mk.inj (max.symm.trans hmax)
    obtain rfl : u = t := Option.some.inj (found.symm.trans ht)
    obtain ⟨blocked, q, -, rfl⟩ := wakeUp_cases woken
    split
    · exact ⟨by simp [push, setStatus, setSema], blocked, rfl⟩
    · exact ⟨by simp [setStatus, setSema], blocked, rfl⟩

/-- After any run, and whatever the priorities are by then, `up` wakes a waiter of the highest
priority, of several the one that joined the queue first, and the others stay in their order. -/
theorem up_wakes_oldest_of_highest {σ : Type} [Schedule σ] [LawfulSchedule σ] {intr : Bool}
    {value lockid : Nat → Nat} {k₀ : Kernel σ} {es : List Event} {h : History σ}
    (start : Kernel.init intr value lockid = .ok k₀)
    (ran : run History.step (.start k₀) es = some h)
    (x : SemaId) (m : Locks) {k : Kernel σ} (waits : (h.kernel.sema x).waiters ≠ [])
    (done : ({ h.kernel with locks := m } : Kernel σ).up x = .ok k) :
    ∃ t ∈ (h.kernel.sema x).waiters, h.kernel.status t = .Blocked ∧
      k.status = Function.update h.kernel.status t .Ready ∧
        (k.sema x).waiters = (h.kernel.sema x).waiters.erase t ∧
          (∀ w ∈ (h.kernel.sema x).waiters, m.priority w ≤ m.priority t) ∧
            ∀ w ∈ (h.kernel.sema x).waiters, w ≠ t → m.priority w = m.priority t →
            h.joined x t < h.joined x w := by
  have ordered : h.Ordered := run_invariant (fun _ _ _ => History.step_ordered)
    (History.start_ordered start) ran
  have aged := ordered.aged x
  have nodup := ordered.wired.manager.core.waiters_nodup x
  obtain ⟨i, t, hmax, ht, left, blocked, status⟩ :=
    Kernel.up_wakes (k := { h.kernel with locks := m }) waits done
  obtain ⟨i', t', hmax', ht', highest, behind⟩ := getMaxpriority_spec m.priority waits
  have index : i' = i := congrArg Prod.fst (hmax'.symm.trans hmax)
  subst index
  obtain rfl : t' = t := Option.some.inj (ht'.symm.trans ht)
  obtain ⟨bound, at_i⟩ := List.getElem?_eq_some_iff.mp ht
  have mem : t' ∈ (h.kernel.sema x).waiters := List.mem_of_getElem? ht
  refine ⟨t', mem, blocked, status, ?_, highest, fun w hw ne same => ?_⟩
  · rw [left, ← nodup.erase_getElem _ bound, at_i]
  · obtain ⟨j, at_j⟩ := List.mem_iff_getElem?.mp hw
    obtain ⟨bound', at_j'⟩ := List.getElem?_eq_some_iff.mp at_j
    -- A waiter of the same priority is in front of the one that is woken, and so younger.
    have front : j < i' := by
      by_contra low
      by_cases here : i' = j
      · subst here
        exact ne (at_j'.symm.trans at_i)
      · have lower := behind j w (by omega) at_j
        omega
    have younger := List.pairwise_iff_getElem.mp aged.order j i' bound' bound front
    rw [at_i, at_j'] at younger
    exact younger

/-- Threads 2 and 3, of the same priority, wait for semaphore 0. -/
def twoWaiters : List Event :=
  calling (.spawn 41) 5 ++ calling (.down 0) 4 ++ calling (.spawn 41) 5 ++ calling (.down 0) 4

/-- Then `up` wakes thread 2, which came first. -/
theorem first_of_two_woken : ∃ h k, run History.step (.start bootedLocks) twoWaiters = some h ∧
    h.kernel.up (.user 0) = .ok k ∧ k.status 2 = .Ready ∧ (k.sema (.user 0)).waiters = [3] := by
  have ran : ((run History.step (.start bootedLocks) twoWaiters).map fun h =>
      ((h.kernel.sema (.user 0)).waiters, h.kernel.locks.priority 2, h.kernel.locks.priority 3,
        decide (h.joined (.user 0) 2 < h.joined (.user 0) 3),
          (h.kernel.up (.user 0)).isOk)) = some ([3, 2], 41, 41, true, true) := by
    decide +kernel
  obtain ⟨h, hs, hview⟩ := Option.map_eq_some_iff.mp ran
  simp only [Prod.mk.injEq, decide_eq_true_eq] at hview
  obtain ⟨queue, two, three, before, through⟩ := hview
  cases done : h.kernel.up (.user 0) with
  | error p =>
    rw [done] at through
    cases through
  | ok k =>
    obtain ⟨t, mem, -, status, left, -, oldest⟩ :=
      up_wakes_oldest_of_highest rfl hs (.user 0) h.kernel.locks
      (by rw [queue]; exact List.cons_ne_nil _ _) done
    rw [queue] at mem left oldest
    have here : t = 2 := by
      obtain rfl | mem := List.mem_cons.mp mem
      · have after := oldest 2 (by simp) (by decide) (two.trans three.symm)
        omega
      · exact List.mem_singleton.mp mem
    subst here
    refine ⟨h, k, hs, done, ?_, left⟩
    rw [status]
    exact Function.update_self ..

end Tacos.Thread
