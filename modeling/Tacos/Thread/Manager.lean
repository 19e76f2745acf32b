/- GID: Tacos/Thread/Manager
   generality: G
   source: src/thread/manager.rs, src/thread.rs, src/sync/sema.rs
   digest: The manager's bookkeeping is consistent in every run, under both schedulers. -/

import Tacos.Thread.Consistent

set_option autoImplicit false
set_option relaxedAutoImplicit false

namespace Tacos.Thread

open Tacos.Lib.Run (run run_invariant)

/-- Both priorities in a record are ones the scheduler can index. -/
def DonationData.Admits (ok : Nat → Bool) (d : DonationData) : Prop :=
  ok d.donnerPriority ∧ ok d.prevPriority

/-- Every priority stored in a thread is one the scheduler can index. -/
structure ThreadData.Admits (ok : Nat → Bool) (d : ThreadData) : Prop where
  priority : ok d.priority
  setted : ∀ p, d.prioritySetted = some p → ok p
  records : ∀ r ∈ d.donationq, r.Admits ok
  stored : ok d.storedPrev.2

def Access.Admits (ok : Nat → Bool) : Access → Prop
  | .storePriority p | .storeSetted p | .donateStore _ p | .restorePriority p => ok p
  | .loadAcceptor _ _ _ p | .updateStoredPrev _ p => ok p
  | .addDonation _ d => d.Admits ok
  | _ => True

def Instr.Admits (ok : Nat → Bool) : Instr → Prop
  | .build p => ok p
  | .access a => a.Admits ok
  | _ => True

private theorem foldl_max_admits {ok : Nat → Bool} {l : List DonationData}
    (hl : ∀ r ∈ l, r.Admits ok) {p : Nat} (hp : ok p) :
    ok (l.foldl (fun p i => max p i.donnerPriority) p) := by
  induction l generalizing p with
  | nil => exact hp
  | cons r l ih =>
    refine ih (fun r' hr' => hl r' (List.mem_cons_of_mem r hr')) ?_
    show ok (max p r.donnerPriority) = true
    rcases max_choice p r.donnerPriority with hm | hm
    · rwa [hm]
    · rw [hm]
      exact (hl r List.mem_cons_self).1

/-- Rewriting one thread's data keeps every stored priority admissible. -/
theorem update_admits {ok : Nat → Bool} {data : Tid → ThreadData}
    (hd : ∀ t, (data t).Admits ok) {t : Tid} {d : ThreadData} (h : d.Admits ok) :
    ∀ u, (Function.update data t d u).Admits ok := by
  intro u
  by_cases hu : u = t
  · subst hu
    rwa [Function.update_self]
  · rw [Function.update_of_ne hu]
    exact hd u

/-- What an access leaves: admissible priorities, and instructions that register nobody. -/
theorem access_admits {ok : Nat → Bool} {cur : Tid} {m m' : Locks} {a : Access}
    {is : List Instr} (hm : ∀ t, (m.data t).Admits ok) (ha : a.Admits ok)
    (he : a.exec cur m = .ok (m', is)) :
    (∀ t, (m'.data t).Admits ok) ∧ (∀ i ∈ is, i.Admits ok) ∧
      ∀ t, .registerScheduler t ∉ is := by
  have filtered : ∀ t (p : DonationData → Bool),
      ∀ u, ((m.setDonationq t ((m.data t).donationq.filter p)).data u).Admits ok := fun t p =>
    update_admits hm
      { hm t with records := fun r hr => (hm t).records r (List.mem_of_mem_filter hr) }
  have stored : ∀ t p, ok p → ∀ u, ((m.setPriority t p).data u).Admits ok := fun t p hp =>
    update_admits hm { hm t with priority := hp }
  cases a with
  | storePriority p =>
    obtain ⟨rfl, rfl⟩ := Prod.mk.inj (Except.ok.inj he)
    exact ⟨stored cur p ha, by simp, by simp⟩
  | storeSetted p =>
    obtain ⟨rfl, rfl⟩ := Prod.mk.inj (Except.ok.inj he)
    refine ⟨update_admits hm { hm cur with setted := ?_ }, by simp, by simp⟩
    intro q hq
    rw [← Option.some.inj hq]
    exact ha
  | testHolder l =>
    simp only [Access.exec] at he
    split at he
    all_goals
      obtain ⟨rfl, rfl⟩ := Prod.mk.inj (Except.ok.inj he)
      exact ⟨hm, by simp [Instr.Admits, Access.Admits], by simp⟩
  | readHolder l =>
    simp only [Access.exec] at he
    split at he
    · obtain ⟨rfl, rfl⟩ := Prod.mk.inj (Except.ok.inj he)
      exact ⟨hm, by simp [Instr.Admits, Access.Admits], by simp⟩
    · cases he
  | setHolder l =>
    obtain ⟨rfl, rfl⟩ := Prod.mk.inj (Except.ok.inj he)
    exact ⟨hm, by simp, by simp⟩
  | loadDonner d t l =>
    obtain ⟨rfl, rfl⟩ := Prod.mk.inj (Except.ok.inj he)
    refine ⟨hm, ?_, by simp⟩
    simpa [Instr.Admits, Access.Admits, Locks.priority] using (hm d).priority
  | loadAcceptor d t l p =>
    simp only [Access.exec] at he
    split at he
    · obtain ⟨rfl, rfl⟩ := Prod.mk.inj (Except.ok.inj he)
      refine ⟨hm, ?_, by simp⟩
      simp [Instr.Admits, Access.Admits, DonationData.Admits]
      exact ⟨ha, (hm t).priority⟩
    · obtain ⟨rfl, rfl⟩ := Prod.mk.inj (Except.ok.inj he)
      exact ⟨hm, by simp, by simp⟩
  | donateLoad d t =>
    obtain ⟨rfl, rfl⟩ := Prod.mk.inj (Except.ok.inj he)
    refine ⟨hm, ?_, by simp⟩
    simpa [Instr.Admits, Access.Admits, Locks.priority] using (hm d).priority
  | donateStore t p =>
    obtain ⟨rfl, rfl⟩ := Prod.mk.inj (Except.ok.inj he)
    exact ⟨stored t p ha, by simp, by simp⟩
  | addDonation t d =>
    obtain ⟨rfl, rfl⟩ := Prod.mk.inj (Except.ok.inj he)
    refine ⟨update_admits hm { hm t with records := ?_ }, by simp, by simp⟩
    intro r hr
    rcases List.mem_append.mp hr with hr | hr
    · exact (hm t).records r hr
    · rw [List.mem_singleton.mp hr]
      exact ha
  | findAndDonate d l =>
    obtain ⟨rfl, rfl⟩ := Prod.mk.inj (Except.ok.inj he)
    refine ⟨hm, ?_, by simp⟩
    intro i hi
    obtain ⟨r, -, hr⟩ := List.mem_flatMap.mp hi
    rcases List.mem_pair.mp hr with rfl | rfl <;> trivial
  | assertHolder l =>
    simp only [Access.exec] at he
    split at he
    · split at he
      · obtain ⟨rfl, rfl⟩ := Prod.mk.inj (Except.ok.inj he)
        exact ⟨hm, by simp [Instr.Admits, Access.Admits], by simp⟩
      · cases he
    · cases he
  | findRecord l =>
    simp only [Access.exec] at he
    split at he
    · obtain ⟨rfl, rfl⟩ := Prod.mk.inj (Except.ok.inj he)
      exact ⟨hm, by simp [Instr.Admits, Access.Admits], by simp⟩
    · rename_i ret found
      obtain ⟨rfl, rfl⟩ := Prod.mk.inj (Except.ok.inj he)
      have hprev := ((hm cur).records ret (List.mem_of_find?_eq_some found)).2
      exact ⟨hm, by simp [Instr.Admits, Access.Admits, hprev], by simp⟩
  | retainLockid t l =>
    obtain ⟨rfl, rfl⟩ := Prod.mk.inj (Except.ok.inj he)
    exact ⟨filtered t _, by simp, by simp⟩
  | retainDonner t d =>
    obtain ⟨rfl, rfl⟩ := Prod.mk.inj (Except.ok.inj he)
    exact ⟨filtered t _, by simp, by simp⟩
  | retainAcceptor t d =>
    obtain ⟨rfl, rfl⟩ := Prod.mk.inj (Except.ok.inj he)
    exact ⟨filtered t _, by simp, by simp⟩
  | updateStoredPrev l p =>
    simp only [Access.exec] at he
    split at he
    · obtain ⟨rfl, rfl⟩ := Prod.mk.inj (Except.ok.inj he)
      exact ⟨update_admits hm { hm cur with stored := ha }, by simp, by simp⟩
    · obtain ⟨rfl, rfl⟩ := Prod.mk.inj (Except.ok.inj he)
      exact ⟨hm, by simp, by simp⟩
  | scanRecords =>
    obtain ⟨rfl, rfl⟩ := Prod.mk.inj (Except.ok.inj he)
    refine ⟨hm, ?_, by simp⟩
    simpa [Instr.Admits, Access.Admits] using
      foldl_max_admits (hm cur).records (hm cur).stored
  | restorePriority p =>
    obtain ⟨rfl, rfl⟩ := Prod.mk.inj (Except.ok.inj he)
    exact ⟨stored cur p ha, by simp, by simp⟩
  | restoreSetted =>
    simp only [Access.exec] at he
    split at he
    · rename_i p hp
      obtain ⟨rfl, rfl⟩ := Prod.mk.inj (Except.ok.inj he)
      exact ⟨stored cur p ((hm cur).setted p hp), by simp, by simp⟩
    · obtain ⟨rfl, rfl⟩ := Prod.mk.inj (Except.ok.inj he)
      exact ⟨hm, by simp, by simp⟩
  | takeHolder l =>
    simp only [Access.exec] at he
    split at he
    · obtain ⟨rfl, rfl⟩ := Prod.mk.inj (Except.ok.inj he)
      exact ⟨hm, by simp [Instr.Admits], by simp⟩
    · cases he

/-- The aborts that are not the manager's: the overflow and the assertion of a semaphore's count,
the holder of a Sleep lock, and a thread that runs on after its exit. -/
def Panic.foreign : Panic → Bool
  | .upOverflow | .upCount | .holderUnwrap | .notHolder | .exitReturned => true
  | _ => false

private theorem access_foreign {cur : Tid} {m : Locks} {a : Access} {p : Panic}
    (he : a.exec cur m = .error p) : p.foreign := by
  cases a <;> simp only [Access.exec, reduceCtorEq] at he
  all_goals
    repeat' split at he
    all_goals cases he <;> rfl

private theorem maxpriorityFrom_cases (priority : Tid → Nat) (ws : List Tid) (i m p : Nat) :
    (maxpriorityFrom priority ws i m p = (m, p) ∧ ∀ w ∈ ws, priority w < p) ∨
    ∃ j t, maxpriorityFrom priority ws i m p = (i + j, priority t) ∧ ws[j]? = some t ∧
      p ≤ priority t ∧ (∀ w ∈ ws, priority w ≤ priority t) ∧
        ∀ j' w, j < j' → ws[j']? = some w → priority w < priority t := by
  induction ws generalizing i m p with
  | nil => exact .inl ⟨rfl, by simp⟩
  | cons w ws ih =>
    by_cases hw : p ≤ priority w
    · refine .inr ?_
      rcases ih (i + 1) i (priority w) with ⟨heq, hlt⟩ | ⟨j, t, heq, ht, hle, hmax, hlast⟩
      · refine ⟨0, w, by simp [maxpriorityFrom, hw, heq], by simp, hw, ?_, ?_⟩
        · intro x hx
          rcases List.mem_cons.mp hx with rfl | hx
          · exact le_rfl
          · exact (hlt x hx).le
        · intro j' x hj hx
          obtain ⟨n, rfl⟩ := Nat.exists_eq_succ_of_ne_zero (Nat.pos_iff_ne_zero.mp hj)
          exact hlt x (List.mem_iff_getElem?.mpr ⟨n, hx⟩)
      · refine ⟨j + 1, t, ?_, by simpa using ht, hw.trans hle, ?_, ?_⟩
        · simp only [maxpriorityFrom, hw, if_true, heq]
          rw [Nat.add_right_comm, Nat.add_assoc]
        · intro x hx
          rcases List.mem_cons.mp hx with rfl | hx
          · exact hle
          · exact hmax x hx
        · intro j' x hj hx
          obtain ⟨n, rfl⟩ := Nat.exists_eq_succ_of_ne_zero (show j' ≠ 0 by omega)
          exact hlast n x (by omega) hx
    · rcases ih (i + 1) m p with ⟨heq, hlt⟩ | ⟨j, t, heq, ht, hle, hmax, hlast⟩
      · refine .inl ⟨by simp [maxpriorityFrom, hw, heq], ?_⟩
        intro x hx
        rcases List.mem_cons.mp hx with rfl | hx
        · exact Nat.lt_of_not_le hw
        · exact hlt x hx
      · refine .inr ⟨j + 1, t, ?_, by simpa using ht, hle, ?_, ?_⟩
        · simp only [maxpriorityFrom, hw, if_false, heq]
          rw [Nat.add_right_comm, Nat.add_assoc]
        · intro x hx
          rcases List.mem_cons.mp hx with rfl | hx
          · exact (Nat.lt_of_not_le hw).le.trans hle
          · exact hmax x hx
        · intro j' x hj hx
          obtain ⟨n, rfl⟩ := Nat.exists_eq_succ_of_ne_zero (show j' ≠ 0 by omega)
          exact hlast n x (by omega) hx

/-- `get_maxpriority` finds a waiter, none has a higher priority, and those behind it in the deque
have lower ones. -/
theorem getMaxpriority_spec (priority : Tid → Nat) {waiters : List Tid} (h : waiters ≠ []) :
    ∃ i t, getMaxpriority priority waiters = (i, priority t) ∧ waiters[i]? = some t ∧
      (∀ w ∈ waiters, priority w ≤ priority t) ∧
        ∀ j w, i < j → waiters[j]? = some w → priority w < priority t := by
  rcases maxpriorityFrom_cases priority waiters 0 0 0 with ⟨-, hlt⟩ |
    ⟨j, t, heq, ht, -, hmax, hlast⟩
  · obtain ⟨w, hw⟩ := List.exists_mem_of_ne_nil waiters h
    exact (Nat.not_lt_zero _ (hlt w hw)).elim
  · exact ⟨j, t, by simpa [getMaxpriority] using heq, ht, hmax, hlast⟩

/-- The instructions that can abort in this way. -/
def Instr.asserts : Instr → Bool
  | .access _ | .up _ | .exitReturned => true
  | _ => false

theorem Call.code_admits {σ : Type} [Schedule σ] {c : Call} (h : c.admitted σ) :
    ∀ i ∈ c.code, i.Admits (Schedule.admits σ) := by
  cases c with
  | spawn p => simpa [Call.code, Instr.Admits] using (show Schedule.admits σ p from h)
  | setPriority p =>
    simpa [Call.code, Instr.Admits, Access.Admits] using (show Schedule.admits σ p from h)
  | _ => simp [Call.code, Instr.Admits, Access.Admits]

namespace Kernel

variable {σ : Type} [Schedule σ] [LawfulSchedule σ]

/-- Priorities in the data and in the pending instructions can be indexed. -/
structure Admits (k : Kernel σ) : Prop where
  data : ∀ t, (k.locks.data t).Admits (Schedule.admits σ)
  code : ∀ t, ∀ i ∈ k.frames t, i.Admits (Schedule.admits σ)

/-- The manager's bookkeeping, read off the kernel. -/
def Core (k : Kernel σ) : Prop :=
  Consistent k.status k.nextTid (LawfulSchedule.queued k.scheduler) k.current
    (fun s => (k.sema s).waiters) k.frames

/-- The current thread runs, or it has left and its next instruction is `schedule`. -/
def Settled (k : Kernel σ) : Prop :=
  k.status k.current = .Running ∨
    ((k.status k.current = .Dying ∨ k.status k.current = .Blocked) ∧
      ∃ rest, k.frames k.current = .schedule :: rest)

structure ManagerInv (k : Kernel σ) : Prop where
  core : k.Core
  settled : k.Settled
  admits : k.Admits

/-- The queues that blocked threads can be in: those of the semaphores, and one for threads
that block elsewhere. -/
def queues (k : Kernel σ) (asleep : List Tid) : Option SemaId → List Tid
  | none => asleep
  | some s => (k.sema s).waiters

/-- The manager's bookkeeping when `asleep` block outside of all semaphores. -/
def CoreWith (k : Kernel σ) (asleep : List Tid) : Prop :=
  Consistent k.status k.nextTid (LawfulSchedule.queued k.scheduler) k.current (k.queues asleep)
    k.frames

/-- The invariant of the thread manager when `asleep` block outside of all semaphores. -/
structure Managed (k : Kernel σ) (asleep : List Tid) : Prop where
  core : k.CoreWith asleep
  settled : k.Settled
  admits : k.Admits

structure Active (k : Kernel σ) (asleep : List Tid) : Prop where
  core : k.CoreWith asleep
  running : k.status k.current = .Running
  admits : k.Admits

variable {z : List Tid}

theorem Active.inv {k : Kernel σ} (h : k.Active z) : k.Managed z :=
  ⟨h.core, .inl h.running, h.admits⟩

/-- Without threads that block elsewhere this is the invariant of the manager. -/
theorem managed_nil {k : Kernel σ} : k.Managed [] ↔ k.ManagerInv := by
  constructor
  · intro h
    refine ⟨{ h.core with
      waiters_nodup := fun s => h.core.waiters_nodup (some s)
      mem_waiters := fun s => h.core.mem_waiters (some s)
      blocked_waits := ?_
      waits_once := fun s s' t hs hs' =>
        Option.some.inj (h.core.waits_once (some s) (some s') t hs hs') }, h.settled, h.admits⟩
    intro t ht
    obtain ⟨s, hs⟩ := h.core.blocked_waits t ht
    cases s with
    | none => cases hs
    | some s => exact ⟨s, hs⟩
  · intro h
    refine ⟨{ h.core with
      waiters_nodup := ?_
      mem_waiters := ?_
      blocked_waits := ?_
      waits_once := ?_ }, h.settled, h.admits⟩
    · intro s
      cases s with
      | none => exact List.nodup_nil
      | some s => exact h.core.waiters_nodup s
    · intro s t ht
      cases s with
      | none => cases ht
      | some s => exact h.core.mem_waiters s t ht
    · intro t ht
      obtain ⟨s, hs⟩ := h.core.blocked_waits t ht
      exact ⟨some s, hs⟩
    · intro s s' t hs hs'
      cases s with
      | none => cases hs
      | some s =>
        cases s' with
        | none => cases hs'
        | some s' => rw [h.core.waits_once s s' t hs hs']

omit [LawfulSchedule σ] in
private theorem Admits.set_frames {k : Kernel σ} (h : k.Admits) {t : Tid} {l : List Instr}
    (hl : ∀ i ∈ l, i.Admits (Schedule.admits σ)) :
    ({ k with frames := Function.update k.frames t l } : Kernel σ).Admits := by
  refine ⟨h.data, ?_⟩
  intro u i hi
  change i ∈ Function.update k.frames t l u at hi
  by_cases hu : u = t
  · subst hu
    rw [Function.update_self] at hi
    exact hl i hi
  · rw [Function.update_of_ne hu] at hi
    exact h.code u i hi

omit [LawfulSchedule σ] in
theorem Admits.push {k : Kernel σ} (h : k.Admits) {t : Tid} {is : List Instr}
    (hi : ∀ i ∈ is, i.Admits (Schedule.admits σ)) : (k.push t is).Admits := by
  apply h.set_frames
  intro i him
  rcases List.mem_append.mp him with him | him
  · exact hi i him
  · exact h.code t i him

theorem register_spec {k : Kernel σ} (h : k.Admits) (t : Tid) :
    ∃ q, k.register t = .ok { k with scheduler := q } ∧
      (LawfulSchedule.queued q).Perm (t :: LawfulSchedule.queued k.scheduler) := by
  obtain ⟨q, hq, perm⟩ := LawfulSchedule.register_spec k.locks.priority k.scheduler t
    (h.data t).priority
  exact ⟨q, by simp [register, hq], perm⟩

/-- `schedule` never aborts, and leaves a running thread. -/
private theorem schedule_spec {k : Kernel σ} (hc : k.CoreWith z) (ha : k.Admits) :
    ∃ k', k.schedule = .ok k' ∧ k'.Active z := by
  rcases LawfulSchedule.schedule_spec k.view k.scheduler (fun t _ => (ha.data t).priority) with
    ⟨q, hq, perm, hidle⟩ | ⟨next, q, hq, perm⟩
  · have running : k.status k.current = .Running := by
      by_contra hr
      have queued := hc.idle_of_not_running hr
      rw [hidle hr] at queued
      cases queued
    refine ⟨{ k with scheduler := q }, by simp [schedule, hq, running], ?_, running,
      ⟨ha.data, ha.code⟩⟩
    exact Consistent.perm hc perm
  · have queued : next ∈ LawfulSchedule.queued k.scheduler := perm.mem_iff.mp List.mem_cons_self
    have ready := ((hc.mem_queue next).mp queued).1
    have hne : next ≠ k.current := fun he => hc.current_not_ready (he ▸ ready)
    have pushed : (k.push k.current [.restore k.intr]).CoreWith z :=
      hc.push hc.current_lt (by simp) (by simp [Instr.idling])
    have admits : (k.push k.current [.restore k.intr]).Admits := ha.push (by simp [Instr.Admits])
    set k₁ : Kernel σ := { ({ k with scheduler := q }.setStatus next .Running).push k.current
      [.restore k.intr] with current := next, intr := false } with hk₁
    have atPrevious : k₁.status k.current = k.status k.current :=
      Function.update_of_ne (Ne.symm hne) _ _
    have tail : k.schedule = k₁.scheduleTail k.current := by
      simp [schedule, hq, ready, hk₁]
    have admits₁ : k₁.Admits := ⟨admits.data, admits.code⟩
    have left : k.status k.current ≠ .Running → Consistent k₁.status k₁.nextTid
        (LawfulSchedule.queued q) next (k₁.queues z) k₁.frames := by
      intro hr
      have unchanged : Function.update k₁.status k.current (k.status k.current) = k₁.status := by
        rw [← atPrevious, Function.update_eq_self]
      exact unchanged ▸ pushed.switch perm (.inl ⟨hr, rfl, rfl⟩)
    rw [tail]
    cases hstatus : k.status k.current with
    | Ready => exact (hc.current_not_ready hstatus).elim
    | Running =>
      obtain ⟨q', hq', perm'⟩ := register_spec (k := k₁.setStatus k.current .Ready)
        ⟨admits₁.data, admits₁.code⟩ k.current
      refine ⟨_, by simpa [scheduleTail, atPrevious, hstatus] using hq', ?_, ?_, ?_⟩
      · exact (pushed.switch perm (.inr ⟨hstatus, rfl, rfl⟩)).perm perm'
      · simp [setStatus, hk₁, Kernel.push, hne]
      · exact ⟨admits₁.data, admits₁.code⟩
    | Blocked =>
      refine ⟨k₁, by simp [scheduleTail, atPrevious, hstatus], left (by simp [hstatus]), ?_,
        admits₁⟩
      simp [hk₁, setStatus, Kernel.push]
    | Dying =>
      refine ⟨{ k₁ with all := k₁.all.filter (· != k.current) },
        by simp [scheduleTail, atPrevious, hstatus], left (by simp [hstatus]), ?_,
        ⟨admits₁.data, admits₁.code⟩⟩
      simp [hk₁, setStatus, Kernel.push]

private theorem eraseIdx_perm {l : List Tid} {i : Nat} {t : Tid} (h : l[i]? = some t) :
    (t :: l.eraseIdx i).Perm l := by
  obtain ⟨hi, rfl⟩ := List.getElem?_eq_some_iff.mp h
  exact List.getElem_cons_eraseIdx_perm hi

omit [Schedule σ] [LawfulSchedule σ] in
private theorem queues_setSema (k : Kernel σ) (s : SemaId) (x : Semaphore) :
    (k.setSema s x).queues z = Function.update (k.queues z) (some s) x.waiters := by
  funext r
  by_cases hr : r = some s
  · subst hr
    simp [setSema, queues]
  · rw [Function.update_of_ne hr]
    cases r with
    | none => rfl
    | some r =>
      have hne : r ≠ s := fun he => hr (congrArg some he)
      simp [setSema, queues, hne]

private theorem Active.set_value {k : Kernel σ} (h : k.Active z) (s : SemaId) {x : Semaphore}
    (hx : x.waiters = (k.sema s).waiters) : (k.setSema s x).Active z := by
  have same := queues_setSema (z := z) k s x
  rw [hx, show (k.sema s).waiters = k.queues z (some s) from rfl, Function.update_eq_self] at same
  refine ⟨?_, h.running, ⟨h.admits.data, h.admits.code⟩⟩
  unfold CoreWith
  rw [same]
  exact h.core

private theorem Active.push {k : Kernel σ} (h : k.Active z) {is : List Instr}
    (hi : ∀ t, .registerScheduler t ∉ is) (hidle : k.current = idle → ∀ i ∈ is, i.idling)
    (ha : ∀ i ∈ is, i.Admits (Schedule.admits σ)) : (k.push k.current is).Active z :=
  ⟨h.core.push h.core.current_lt hi hidle, h.running, h.admits.push ha⟩

/-- The value can be counted up, and nobody waits or no permit is left over. -/
def Raisable (k : Kernel σ) (s : SemaId) : Prop :=
  (k.sema s).value + 1 < 2 ^ 64 ∧ ((k.sema s).waiters = [] ∨ (k.sema s).value = 0)

omit [Schedule σ] [LawfulSchedule σ] in
theorem raisable_of_zero {k : Kernel σ} {s : SemaId} (zero : (k.sema s).value = 0) :
    k.Raisable s := by
  refine ⟨?_, .inr zero⟩
  rw [zero]
  decide

private theorem up_ok {k : Kernel σ} (h : k.Active z) {s : SemaId} (hv : k.Raisable s) :
    ∃ k', k.up s = .ok k' ∧ k'.Active z := by
  obtain ⟨below, hv⟩ := hv
  have below : ¬2 ^ 64 ≤ (k.sema s).value + 1 := Nat.not_le.mpr below
  cases hw : (k.sema s).waiters with
  | nil =>
    refine ⟨k.setSema s { k.sema s with value := (k.sema s).value + 1 }, ?_, h.set_value s rfl⟩
    simp only [up, hw, if_neg below]
  | cons w ws =>
    replace hv := hv.resolve_left (by simp [hw])
    obtain ⟨i, t, hmax, ht, -⟩ := getMaxpriority_spec k.locks.priority (List.cons_ne_nil w ws)
    have perm : (t :: (w :: ws).eraseIdx i).Perm (k.sema s).waiters := by
      rw [hw]
      exact eraseIdx_perm ht
    have blocked : k.status t = .Blocked :=
      h.core.mem_waiters (some s) t (perm.mem_iff.mp List.mem_cons_self)
    have hne : k.current ≠ t := by
      rintro rfl
      rw [h.running] at blocked
      cases blocked
    set x : Semaphore := ⟨0 + 1, (w :: ws).eraseIdx i⟩ with hx
    obtain ⟨q, hq, hperm⟩ := register_spec (k := (k.setSema s x).setStatus t .Ready)
      ⟨h.admits.data, h.admits.code⟩ t
    set k₁ : Kernel σ := { (k.setSema s x).setStatus t .Ready with scheduler := q } with hk₁
    have woken : (k.setSema s x).wakeUp t = .ok k₁ := by
      have hstatus : (k.setSema s x).status t = .Blocked := blocked
      simp only [wakeUp, hstatus, ne_eq, not_true_eq_false, if_false, hq, hk₁]
    have core : k₁.CoreWith z := by
      have := (h.core.wake (s := some s) hne perm).perm hperm
      unfold CoreWith
      rw [show k₁.queues z = _ from queues_setSema k s x]
      exact this
    have active : k₁.Active z := by
      refine ⟨core, ?_, ⟨h.admits.data, h.admits.code⟩⟩
      show Function.update k.status t .Ready k.current = .Running
      rw [Function.update_of_ne hne, h.running]
    by_cases hp : k₁.locks.priority k₁.current < k.locks.priority t
    · refine ⟨k₁.push k₁.current [.schedule, .restore k.intr], ?_, ?_⟩
      · rw [hv] at below
        simp only [up, hw, hv, hmax, ht, ← hx, woken, ne_eq,
          not_true_eq_false, if_false, hp, if_true,
          below]
      · exact active.push (by simp) (by simp [Instr.idling]) (by simp [Instr.Admits])
    · refine ⟨k₁, ?_, active⟩
      rw [hv] at below
      simp only [up, hw, hv, hmax, ht, ← hx, woken, ne_eq, not_true_eq_false, if_false, hp, below]

omit [LawfulSchedule σ] in
private theorem up_error {k : Kernel σ} {s : SemaId} (hv : ¬k.Raisable s) :
    ∃ p : Panic, k.up s = .error p ∧ p.foreign := by
  by_cases below : 2 ^ 64 ≤ (k.sema s).value + 1
  · exact ⟨.upOverflow, if_pos below, rfl⟩
  · obtain ⟨hw, zero⟩ := not_or.mp fun left => hv ⟨Nat.lt_of_not_le below, left⟩
    refine ⟨.upCount, ?_, rfl⟩
    cases hw' : (k.sema s).waiters with
    | nil => exact (hw hw').elim
    | cons w ws => simp only [up, if_neg below, hw', ne_eq, zero, not_false_eq_true, if_true]

/-- `up` aborts only by its own addition and its own assertion on the old count. -/
private theorem up_spec {k : Kernel σ} (h : k.Active z) (s : SemaId) :
    (∃ k', k.up s = .ok k' ∧ k'.Active z) ∨ ∃ p : Panic, k.up s = .error p ∧ p.foreign := by
  by_cases hv : k.Raisable s
  · exact .inl (up_ok h hv)
  · exact .inr (up_error hv)

private theorem build_spec {k : Kernel σ} (h : k.Active z) (hi : k.current ≠ idle) {p : Nat}
    (hp : Schedule.admits σ p) :
    ((k.build p).push k.current
      [.registerScheduler k.nextTid, .registerAll k.nextTid, .schedule]).Managed z := by
  have hne : k.current ≠ k.nextTid := h.core.current_lt.ne
  have same : (k.build p).frames k.current = k.frames k.current := Function.update_of_ne hne _ _
  have fresh : (ThreadData.new p).Admits (Schedule.admits σ) :=
    ⟨hp, by simp [ThreadData.new], by simp [ThreadData.new],
      LawfulSchedule.admits_default 0 (Nat.zero_le _)⟩
  refine ⟨?_, .inl ?_, ?_⟩
  · unfold CoreWith Kernel.push
    rw [same]
    exact h.core.build hi
  · show Function.update k.status k.nextTid .Ready k.current = .Running
    rw [Function.update_of_ne hne, h.running]
  · have built : (k.build p).Admits := by
      have := h.admits.set_frames (t := k.nextTid) (l := [.kernelThread]) (by simp [Instr.Admits])
      exact ⟨update_admits h.admits.data fresh, this.code⟩
    exact built.push (by simp [Instr.Admits])

private theorem downLoop_spec {k : Kernel σ} (h : k.Active z) (hi : k.current ≠ idle)
    (s : SemaId) (old : Bool) : (k.downLoop s old).Managed z := by
  by_cases hv : (k.sema s).value = 0
  · rw [show k.downLoop s old = _ from if_pos hv]
    set x : Semaphore := { k.sema s with waiters := k.current :: (k.sema s).waiters } with hx
    have blocked := h.core.block h.running hi (some s)
    have core : ((k.setSema s x).setStatus k.current .Blocked).CoreWith z := by
      unfold CoreWith
      rw [show ((k.setSema s x).setStatus k.current .Blocked).queues z =
        _ from queues_setSema k s x]
      exact blocked
    refine ⟨core.push core.current_lt (by simp) fun he => (hi he).elim, .inr ⟨.inr ?_, ?_⟩, ?_⟩
    · exact Function.update_self ..
    · exact ⟨_, Function.update_self ..⟩
    · exact Admits.push (k := (k.setSema s x).setStatus k.current .Blocked)
        ⟨h.admits.data, h.admits.code⟩ (by simp [Instr.Admits])
  · rw [show k.downLoop s old = _ from if_neg hv]
    have ha := h.set_value s (x := { k.sema s with value := (k.sema s).value - 1 }) rfl
    exact ⟨ha.core, .inl ha.running, ⟨ha.admits.data, ha.admits.code⟩⟩

private theorem exec_spec {k : Kernel σ} (h : k.Managed z) {i : Instr} {rest : List Instr}
    (hf : k.frames k.current = i :: rest) :
    (∃ k', { k with frames := Function.update k.frames k.current rest }.execInstr i = .ok k' ∧
      k'.Managed z) ∨
    ∃ p : Panic, { k with frames := Function.update k.frames k.current rest }.execInstr i =
      .error p ∧ p.foreign ∧ i.asserts := by
  set k₀ : Kernel σ := { k with frames := Function.update k.frames k.current rest } with hk₀
  have code : i.Admits (Schedule.admits σ) := h.admits.code k.current i (hf ▸ List.mem_cons_self)
  have admits : k₀.Admits := h.admits.set_frames fun j hj =>
    h.admits.code k.current j (hf ▸ List.mem_cons_of_mem i hj)
  have running : i ≠ .schedule → k₀.status k₀.current = .Running := by
    intro hi
    rcases h.settled with hr | ⟨-, rest', hf'⟩
    · exact hr
    · rw [hf] at hf'
      exact (hi (List.cons.inj hf').1).elim
  have active : i ≠ .schedule → (∀ t, i ≠ .registerScheduler t) → k₀.Active z := fun hs hr =>
    ⟨h.core.pop hf hr, running hs, admits⟩
  have busy : i.idling = false → k₀.current ≠ idle := fun hi =>
    h.core.current_ne_idle (hf ▸ List.mem_cons_self) hi
  cases i with
  | schedule =>
    obtain ⟨k', hk', hinv⟩ := schedule_spec (k := k₀) (h.core.pop hf (by simp)) admits
    exact .inl ⟨k', hk', hinv.inv⟩
  | restore old =>
    have ha := active (by simp) (by simp)
    exact .inl ⟨_, rfl, ha.core, .inl ha.running, ⟨ha.admits.data, ha.admits.code⟩⟩
  | kernelThread =>
    have ha := active (by simp) (by simp)
    exact .inl ⟨_, rfl, ha.core, .inl ha.running, ⟨ha.admits.data, ha.admits.code⟩⟩
  | build p =>
    have ha := active (by simp) (by simp)
    refine .inl ⟨_, rfl, build_spec ha (busy rfl) code⟩
  | registerScheduler t =>
    obtain ⟨q, hq, perm⟩ := register_spec admits t
    refine .inl ⟨_, hq, (h.core.register hf).perm perm, .inl (running (by simp)),
      ⟨admits.data, admits.code⟩⟩
  | registerAll t =>
    have ha := active (by simp) (by simp)
    exact .inl ⟨_, rfl, ha.core, .inl ha.running, ⟨ha.admits.data, ha.admits.code⟩⟩
  | exit =>
    have ha := active (by simp) (by simp)
    have hne := busy rfl
    refine .inl ⟨_, rfl, ?_, .inr ⟨.inl ?_, ?_⟩, ?_⟩
    · exact (ha.core.die ha.running hne).push ha.core.current_lt (by simp) fun he => (hne he).elim
    · exact Function.update_self ..
    · exact ⟨_, Function.update_self ..⟩
    · exact Admits.push (k := k₀.setStatus k₀.current .Dying) ⟨admits.data, admits.code⟩
        (by simp [Instr.Admits])
  | exitReturned => exact .inr ⟨_, rfl, rfl, rfl⟩
  | down s =>
    have ha := active (by simp) (by simp)
    refine .inl ⟨_, rfl, (Active.push (k := { k₀ with intr := false })
      ⟨ha.core, ha.running, ⟨admits.data, admits.code⟩⟩ (by simp) ?_ ?_).inv⟩
    · exact fun he => (busy rfl he).elim
    · simp [Instr.Admits]
  | downLoop s old =>
    exact .inl ⟨_, rfl, downLoop_spec (active (by simp) (by simp)) (busy rfl) s old⟩
  | up s =>
    rcases up_spec (active (by simp) (by simp)) s with ⟨k', hk', hinv⟩ | ⟨p, herr, foreign⟩
    · exact .inl ⟨k', hk', hinv.inv⟩
    · exact .inr ⟨p, herr, foreign, rfl⟩
  | access a =>
    have ha := active (by simp) (by simp)
    cases he : a.exec k₀.current k₀.locks with
    | error p => exact .inr ⟨p, by simp only [execInstr, he], access_foreign he, rfl⟩
    | ok r =>
      obtain ⟨m, is⟩ := r
      obtain ⟨hdata, hcode, hreg⟩ := access_admits admits.data code he
      refine .inl ⟨_, by simp only [execInstr, he], (Active.push (k := { k₀ with locks := m })
        ⟨ha.core, ha.running, ⟨hdata, admits.code⟩⟩ hreg ?_ hcode).inv⟩
      exact fun hi => (busy rfl hi).elim

private theorem exec_error {k : Kernel σ} (h : k.Managed z) {p : Panic}
    (he : k.exec = .error p) : p.foreign := by
  unfold exec at he
  split at he
  · cases he
  · rename_i i rest hf
    rcases exec_spec h hf with ⟨k', hk', -⟩ | ⟨q, hq, hforeign, -⟩
    · rw [hk'] at he
      cases he
    · rw [hq] at he
      cases he
      exact hforeign

/-- The instructions without an assertion of their own always get through. -/
theorem step_isSome {k : Kernel σ} (h : k.Managed z) {i : Instr} {rest : List Instr}
    (hf : k.frames k.current = i :: rest) (hi : i.asserts = false) : (k.step .exec).isSome := by
  rcases exec_spec h hf with ⟨k', hk', -⟩ | ⟨p, -, -, hasserts⟩
  · simp [step, exec, hf, hk']
  · rw [hi] at hasserts
    cases hasserts

/-- A call of `up` gets through exactly when the value can be counted up, and nobody waits or no
permit is left over. -/
theorem step_up_iff {k : Kernel σ} (h : k.Managed z) {s : SemaId} {rest : List Instr}
    (hf : k.frames k.current = .up s :: rest) : (k.step .exec).isSome ↔ k.Raisable s := by
  have running : k.status k.current = .Running := by
    rcases h.settled with hr | ⟨-, rest', hf'⟩
    · exact hr
    · rw [hf] at hf'
      cases hf'
  have active : Active { k with frames := Function.update k.frames k.current rest } z := by
    refine ⟨h.core.pop hf (by simp), running, h.admits.set_frames fun j hj => ?_⟩
    exact h.admits.code k.current j (hf ▸ List.mem_cons_of_mem _ hj)
  by_cases hv : k.Raisable s
  · obtain ⟨k', hk', -⟩ := up_ok active (s := s) hv
    simp [step, exec, hf, execInstr, hk', hv]
  · obtain ⟨p, hk, -⟩ := up_error
      (k := { k with frames := Function.update k.frames k.current rest }) hv
    simp [step, exec, hf, execInstr, hk, hv]

/-- The step lemma: every event keeps the manager's invariant. -/
theorem step_managed {k k' : Kernel σ} {e : Event} (h : k.Managed z) (hs : k.step e = some k') :
    k'.Managed z := by
  cases e with
  | exec =>
    simp only [step, exec] at hs
    cases hf : k.frames k.current with
    | nil => simp [hf] at hs
    | cons i rest =>
      rcases exec_spec h hf with ⟨k₁, hk₁, hinv⟩ | ⟨p, hp, -⟩
      · simp only [hf, hk₁, Option.some.injEq] at hs
        exact hs ▸ hinv
      · simp [hf, hp] at hs
  | call c =>
    simp only [step] at hs
    split at hs
    · rename_i hmay
      obtain ⟨⟨hnil, hidle⟩, hadm⟩ :
        (k.frames k.current = [] ∧ (k.current ≠ idle ∨ c = .schedule)) ∧
          c.admitted σ := by simpa [mayCall] using hmay
      have running : k.status k.current = .Running := by
        rcases h.settled with hr | ⟨-, rest, hf⟩
        · exact hr
        · rw [hnil] at hf
          cases hf
      cases Option.some.inj hs
      refine (Active.push ⟨h.core, running, h.admits⟩ ?_ ?_ ?_).inv
      · intro t
        cases c <;> simp [Call.code]
      · intro he
        obtain rfl := hidle.resolve_left fun hn => hn he
        simp [Call.code, Instr.idling]
      · exact c.code_admits hadm
    · cases hs
  | preempt =>
    simp only [step] at hs
    split at hs
    · cases Option.some.inj hs
      refine ⟨h.core.push h.core.current_lt (by simp) (by simp [Instr.idling]), ?_,
        h.admits.push (by simp [Instr.Admits])⟩
      rcases h.settled with hr | ⟨hleft, -, -⟩
      · exact .inl hr
      · exact .inr ⟨hleft, _, Function.update_self ..⟩
    · cases hs

theorem step_managerInv (k : Kernel σ) (e : Event) (k' : Kernel σ) (h : k.ManagerInv)
    (hs : k.step e = some k') : k'.ManagerInv :=
  managed_nil.mp (step_managed (managed_nil.mpr h) hs)

/-- The run lemma: the invariant holds in every state a run reaches. -/
theorem run_managerInv {k k' : Kernel σ} {es : List Event} (h : k.ManagerInv)
    (hr : run step k es = some k') : k'.ManagerInv :=
  run_invariant step_managerInv h hr

omit [LawfulSchedule σ] in
theorem boot_frames {intr : Bool} {value lockid : Nat → Nat} {t : Tid} {i : Instr}
    (hi : i ∈ (boot intr value lockid : Kernel σ).frames t) : i = .kernelThread := by
  simp only [boot] at hi
  split at hi
  · exact List.mem_singleton.mp hi
  · cases hi

private theorem boot_admits (intr : Bool) (value lockid : Nat → Nat) :
    (boot intr value lockid : Kernel σ).Admits := by
  refine ⟨fun t => ⟨?_, by simp [boot, ThreadData.new], by simp [boot, ThreadData.new], ?_⟩, ?_⟩
  · apply LawfulSchedule.admits_default
    simp only [boot, ThreadData.new]
    split <;> omega
  · exact LawfulSchedule.admits_default 0 (Nat.zero_le _)
  · intro t i hi
    rw [boot_frames hi]
    trivial

omit [LawfulSchedule σ] in
private theorem boot_consistent (intr : Bool) (value lockid : Nat → Nat) :
    Consistent (boot intr value lockid : Kernel σ).status 2 [idle] 0 (fun _ : SemaId => [])
      (boot intr value lockid : Kernel σ).frames := by
  have built : ∀ t, ¬ Building (boot intr value lockid : Kernel σ).frames t := by
    rintro t ⟨u, hu⟩
    cases boot_frames hu
  have pending : ∀ u t, .registerScheduler t ∉ (boot intr value lockid : Kernel σ).frames u :=
    fun u t hu => built t ⟨u, hu⟩
  exact
    { fresh := by
        intro t ht
        have h0 : t ≠ 0 := (Nat.lt_of_lt_of_le (by decide) ht).ne'
        have h1 : t ≠ idle := (Nat.lt_of_lt_of_le (by decide) ht).ne'
        simp [boot, h0, h1]
      current_lt := by decide
      running := by
        intro t ht
        simp only [boot] at ht
        split at ht
        · assumption
        · split at ht <;> cases ht
      current_not_ready := by simp [boot]
      queue_nodup := List.nodup_singleton _
      mem_queue := by
        intro t
        rw [List.mem_singleton]
        constructor
        · rintro rfl
          exact ⟨rfl, built _⟩
        · rintro ⟨ht, -⟩
          simp only [boot] at ht
          split at ht
          · cases ht
          · split at ht
            · assumption
            · cases ht
      waiters_nodup := by simp
      mem_waiters := by simp
      blocked_waits := by
        intro t ht
        simp only [boot] at ht
        split at ht
        · cases ht
        · split at ht <;> cases ht
      waits_once := by simp
      building_ready := fun u t hu => (pending u t hu).elim
      building_once := fun u _ t hu _ => (pending u t hu).elim
      building_count := fun u t => by simp [List.count_eq_zero.mpr (pending u t)]
      idle_status := .inl rfl
      idle_built := built _
      idle_frames := by
        intro i hi
        rw [boot_frames hi]
        rfl }

/-- `Manager::get` succeeds and establishes the invariant. -/
theorem init_managerInv (intr : Bool) (value lockid : Nat → Nat) :
    ∃ k : Kernel σ, init intr value lockid = .ok k ∧ k.ManagerInv := by
  have admits : (boot intr value lockid : Kernel σ).Admits := boot_admits intr value lockid
  obtain ⟨q, hq, perm⟩ := register_spec admits idle
  rw [show (boot intr value lockid : Kernel σ).scheduler = Schedule.default from rfl,
    LawfulSchedule.queued_default] at perm
  have noWaiters : (fun s => ((boot intr value lockid : Kernel σ).sema s).waiters) =
      fun _ => [] := by
    funext s
    cases s <;> rfl
  refine ⟨{ (boot intr value lockid : Kernel σ) with scheduler := q, all := [0] ++ [idle] }, ?_, ?_,
    .inl rfl, ⟨admits.data, admits.code⟩⟩
  · simp only [init, hq]
    rfl
  · unfold Core
    rw [show (fun s => (Kernel.sema { boot (σ := σ) intr value lockid with
      scheduler := q, all := [0] ++ [idle] } s).waiters) = _ from noWaiters]
    exact (boot_consistent (σ := σ) intr value lockid).perm perm

/-- What the manager guarantees between two steps. A thread that its creator has built and
not yet registered is the only ready one outside the ready queues. -/
structure Sound (k : Kernel σ) : Prop where
  running : (k.status k.current = .Running ∧ ∀ t, k.status t = .Running → t = k.current) ∨
    ((k.status k.current = .Dying ∨ k.status k.current = .Blocked) ∧
      (k.frames k.current).head? = some .schedule ∧ ∀ t, k.status t ≠ .Running)
  ready : ∀ t, k.status t = .Ready → ¬ Building k.frames t →
    (LawfulSchedule.queued k.scheduler).count t = 1
  building : ∀ t, Building k.frames t →
    k.status t = .Ready ∧ t ∉ LawfulSchedule.queued k.scheduler
  notReady : ∀ t, k.status t ≠ .Ready → t ∉ LawfulSchedule.queued k.scheduler
  blocked : ∀ t, k.status t = .Blocked →
    ∃ s, (k.sema s).waiters.count t = 1 ∧ ∀ s', s' ≠ s → t ∉ (k.sema s').waiters
  noPanic : ∀ p ∈ [Panic.noThreadReady, .nextNotReady, .tailUnreachable, .wakeUpNotBlocked],
    k.exec ≠ .error p

theorem ManagerInv.sound {k : Kernel σ} (h : k.ManagerInv) : k.Sound where
  running := by
    rcases h.settled with hr | ⟨hleft, rest, hf⟩
    · exact .inl ⟨hr, h.core.running⟩
    · refine .inr ⟨hleft, by rw [hf]; rfl, ?_⟩
      intro t ht
      have := h.core.running t ht
      subst this
      rcases hleft with hl | hl <;> rw [hl] at ht <;> cases ht
  ready t ht hb := List.count_eq_one_of_mem h.core.queue_nodup ((h.core.mem_queue t).mpr ⟨ht, hb⟩)
  building t hb := by
    obtain ⟨u, hu⟩ := hb
    refine ⟨h.core.building_ready u t hu, ?_⟩
    intro hm
    exact ((h.core.mem_queue t).mp hm).2 ⟨u, hu⟩
  notReady t ht hm := ht ((h.core.mem_queue t).mp hm).1
  blocked t ht := by
    obtain ⟨s, hs⟩ := h.core.blocked_waits t ht
    refine ⟨s, List.count_eq_one_of_mem (h.core.waiters_nodup s) hs, ?_⟩
    intro s' hne hs'
    exact hne (h.core.waits_once s' s t hs' hs)
  noPanic p hp he := by
    have hforeign := exec_error (managed_nil.mpr h) he
    simp only [List.mem_cons, List.not_mem_nil, or_false] at hp
    rcases hp with rfl | rfl | rfl | rfl <;> cases hforeign

end Kernel

/-- Under both schedulers, every state of every run from `Manager::get` is sound. -/
theorem manager_sound (intr : Bool) (value lockid : Nat → Nat) :
    (∃ k₀ : Kernel Fcfs, Kernel.init intr value lockid = .ok k₀ ∧
      ∀ es k, run Kernel.step k₀ es = some k → k.Sound) ∧
    (∃ k₀ : Kernel PriorityScheduler, Kernel.init intr value lockid = .ok k₀ ∧
      ∀ es k, run Kernel.step k₀ es = some k → k.Sound) := by
  obtain ⟨k₁, hk₁, h₁⟩ := Kernel.init_managerInv (σ := Fcfs) intr value lockid
  obtain ⟨k₂, hk₂, h₂⟩ := Kernel.init_managerInv (σ := PriorityScheduler) intr value lockid
  exact ⟨⟨k₁, hk₁, fun _ _ hr => (Kernel.run_managerInv h₁ hr).sound⟩,
    ⟨k₂, hk₂, fun _ _ hr => (Kernel.run_managerInv h₂ hr).sound⟩⟩

/-- `Manager::get` on a machine with interrupts enabled and all semaphores at zero. -/
def booted : Kernel Fcfs :=
  match Kernel.init true (fun _ => 0) id with
  | .ok k => k
  | .error _ => Kernel.boot true (fun _ => 0) id

/-- `Initial` is preempted between the build of a new thread and its registration. -/
def preemptedSpawn : List Event := [.call (.spawn 31), .exec, .preempt, .exec]

/-- Then `Idle` runs, and the new thread is ready and in no queue. -/
theorem built_thread_not_queued :
    ¬ ∀ es k, run Kernel.step booted es = some k →
      ∀ t, k.status t = .Ready → (LawfulSchedule.queued k.scheduler).count t = 1 := by
  intro h
  have hran : ((run Kernel.step booted preemptedSpawn).map fun k =>
      (k.status 2, k.scheduler, k.current)) = some (.Ready, ⟨[0]⟩, Kernel.idle) := rfl
  obtain ⟨k, hk, hview⟩ := Option.map_eq_some_iff.mp hran
  obtain ⟨ready, hq, -⟩ := Prod.mk.injEq .. ▸ Prod.mk.injEq .. ▸ hview
  have := h preemptedSpawn k hk 2 ready
  rw [hq] at this
  cases this

end Tacos.Thread
