/- GID: Tacos/Thread/Preempt
   generality: I
   source: src/thread/scheduler/priority.rs, src/thread/manager.rs, src/thread.rs,
     src/sync/sema.rs, src/sync/sleep.rs, src/sbi/timer.rs, src/trap.rs
   digest: Under the priority scheduler no registered thread outranks the one that returns to its
     program. -/

import Tacos.Thread.Donation
import Tacos.Thread.Orderly

set_option autoImplicit false
set_option relaxedAutoImplicit false

namespace Tacos.Thread

open Tacos.Lib.Run

/-- Instructions that can put another thread above the running one, and that have a
`schedule` of the same function after them. -/
def Instr.spends : Instr → Bool
  | .registerScheduler _ | .access (.storePriority _) => true
  | .access (.donateLoad ..) | .access (.donateStore ..) => true
  | _ => false

/-- Every such instruction has its `schedule` after it. -/
def Paid : List Instr → Prop
  | [] => True
  | i :: is => (i.spends → .schedule ∈ is) ∧ Paid is

private theorem Paid.append {is js : List Instr} (h : Paid is)
    (hj : Paid js) : Paid (is ++ js) := by
  induction is with
  | nil => exact hj
  | cons i is ih => exact ⟨fun hi => List.mem_append_left _ (h.1 hi), ih h.2⟩

private theorem Paid.of_free {is : List Instr} (h : ∀ i ∈ is, i.spends = false) : Paid is := by
  induction is with
  | nil => trivial
  | cons i is ih =>
    obtain ⟨hi, his⟩ := List.forall_mem_cons.mp h
    refine ⟨fun hs => ?_, ih his⟩
    rw [hi] at hs
    cases hs

private theorem access_paid {cur : Tid} {m m' : Locks} {a : Access} {is rest : List Instr}
    (he : a.exec cur m = .ok (m', is)) (h : Paid (.access a :: rest)) : Paid (is ++ rest) := by
  have free : (∀ i ∈ is, i.spends = false) → Paid (is ++ rest) := fun hf =>
    (Paid.of_free hf).append h.2
  cases a with
  | donateLoad donner acceptor =>
    cases he
    exact ⟨fun _ => h.1 rfl, h.2⟩
  | loadAcceptor donner acceptor lockid p =>
    simp only [Access.exec] at he
    split at he
    · cases he
      refine Paid.append ?_ h.2
      simp [Paid, Instr.spends]
    · cases he
      exact h.2
  | findAndDonate donner lockid =>
    cases he
    refine free fun i hi => ?_
    obtain ⟨d, -, hd⟩ := List.mem_flatMap.mp hi
    simp only [List.mem_cons, List.not_mem_nil, or_false] at hd
    rcases hd with rfl | rfl <;> rfl
  | findRecord l =>
    simp only [Access.exec] at he
    split at he <;> cases he <;> exact free (by simp [Instr.spends])
  | testHolder | readHolder | assertHolder | takeHolder | updateStoredPrev | restoreSetted =>
    simp only [Access.exec] at he
    repeat' split at he
    all_goals first
      | cases he
        exact free (by simp [Instr.spends])
      | cases he
  | _ =>
    cases he
    exact free (by simp [Instr.spends])

/-- The current thread has a `schedule` ahead of it before it returns. -/
def Debt (frames : List Instr) : Prop :=
  .schedule ∈ frames ∨ ∃ l, .access (.takeHolder l) ∈ frames

private theorem Debt.tail {i : Instr} {rest : List Instr}
    (h : Debt (i :: rest)) (hs : i ≠ .schedule)
    (ht : ∀ l, i ≠ .access (.takeHolder l)) (is : List Instr) : Debt (is ++ rest) := by
  rcases h with h | ⟨l, h⟩
  · exact .inl (List.mem_append_right _ ((List.mem_cons.mp h).resolve_left hs.symm))
  · exact .inr ⟨l, List.mem_append_right _ ((List.mem_cons.mp h).resolve_left (ht l).symm)⟩

namespace Kernel

variable {k k' : Kernel PriorityScheduler} {rest : List Instr} {i : Instr}

private theorem pushed {t : Tid} {is : List Instr} {j : Instr} (h : j ∈ is) :
    j ∈ (k.push t is).frames t := by
  simp [push, h]

/-- No registered thread ranks higher than the current one. -/
def Leads (k : Kernel PriorityScheduler) : Prop :=
  ∀ t ∈ k.scheduler.queued, k.locks.priority t ≤ k.locks.priority k.current

private theorem Leads.same (h : k.Leads) (scheduler : k'.scheduler = k.scheduler)
    (priority : k'.locks.priority = k.locks.priority) (current : k'.current = k.current) :
    k'.Leads := by
  unfold Leads
  rw [scheduler, priority, current]
  exact h

private theorem Leads.insert (h : k.Leads) {t : Tid} {q : PriorityScheduler}
    (perm : q.queued.Perm (t :: k.scheduler.queued)) (scheduler : k'.scheduler = q)
    (priority : k'.locks.priority = k.locks.priority) (current : k'.current = k.current)
    (le : k.locks.priority t ≤ k.locks.priority k.current) : k'.Leads := by
  intro u hu
  rw [scheduler] at hu
  rw [priority, current]
  rcases List.mem_cons.mp (perm.mem_iff.mp hu) with rfl | hu
  · exact le
  · exact h u hu

private theorem Admits.pop (h : k.Admits) (hf : k.frames k.current = i :: rest) :
    (k.pop rest).Admits := by
  refine ⟨h.data, fun u j hj => h.code u j ?_⟩
  by_cases hu : u = k.current
  · subst hu
    rw [hf]
    exact List.mem_cons_of_mem i (by simpa [Kernel.pop] using hj)
  · simpa [Kernel.pop, hu] using hj

/-- Whoever runs after `schedule` leads. -/
private theorem schedule_leads (admits : k.Admits) (h : k.schedule = .ok k') : k'.Leads := by
  have bound : ∀ t ∈ k.scheduler.queued, k.locks.priority t ≤ 63 := fun t _ =>
    of_decide_eq_true (admits.data t).priority
  have spec := LawfulSchedule.schedule_spec k.view k.scheduler fun t _ => (admits.data t).priority
  obtain ⟨q, chosen, rfl⟩ | ⟨next, q, chosen, tail⟩ := schedule_cases h
  · have top := PriorityScheduler.schedule_top (v := k.view) bound chosen
    rw [chosen] at spec
    obtain ⟨q', heq, perm, -⟩ | ⟨t, q', heq, -⟩ := spec
    · cases heq
      exact fun t ht => top t (perm.mem_iff.mp ht)
    · cases heq
  · have top := PriorityScheduler.schedule_top (v := k.view) bound chosen
    obtain ⟨-, keeps⟩ := PriorityScheduler.schedule_some (v := k.view) bound chosen
    rw [chosen] at spec
    obtain ⟨q', heq, -⟩ | ⟨t, q', heq, perm⟩ := spec
    · cases heq
    cases heq
    have rest : (k.switched q next).Leads := fun t ht =>
      top t (perm.mem_iff.mp (List.mem_cons_of_mem _ ht))
    obtain ⟨running, r, registered, rfl⟩ | ⟨all, rfl⟩ := scheduleTail_cases tail
    · -- the thread that is left is registered again, and does not outrank the new one
      obtain ⟨r', same, perm'⟩ := LawfulSchedule.register_spec k.locks.priority q k.current
        (admits.data k.current).priority
      obtain rfl : r' = r := Except.ok.inj (same.symm.trans registered)
      refine rest.insert perm' rfl rfl rfl ?_
      by_contra hlt
      have hne : k.current ≠ next := by
        rintro heq
        exact hlt (heq ▸ le_rfl)
      have before : k.status k.current = .Running :=
        (Function.update_of_ne hne _ _).symm.trans running
      exact keeps ⟨Nat.lt_of_not_le hlt, before⟩
    · exact rest.same rfl rfl rfl

/-- `up` registers a thread that ranks higher only if it passes the processor on. -/
private theorem up_leads {x : SemaId} (admits : k.Admits) (leads : k.Leads)
    (h : k.up x = .ok k') : k'.Leads ∨ .schedule ∈ k'.frames k'.current := by
  obtain ⟨-, ⟨-, rfl⟩ | ⟨i, p, t, k₁, waits, -, max, found, woken, rfl⟩⟩ := up_cases h
  · exact .inl leads
  · obtain ⟨j, u, hmax, ht, -⟩ := getMaxpriority_spec k.locks.priority waits
    obtain ⟨rfl, rfl⟩ := Prod.mk.inj (max.symm.trans hmax)
    obtain rfl : t = u := Option.some.inj (found.symm.trans ht)
    obtain ⟨-, q, registered, rfl⟩ := wakeUp_cases woken
    split
    · exact .inr (by simp [Kernel.push])
    · rename_i high
      obtain ⟨q', same, perm⟩ :=
        LawfulSchedule.register_spec k.locks.priority k.scheduler t (admits.data t).priority
      obtain rfl : q' = q := Except.ok.inj (same.symm.trans registered)
      exact .inl (leads.insert perm rfl rfl rfl (Nat.le_of_not_lt high))

/-- The current thread leads, or it will pass the processor on before it returns. -/
structure Preemptive (k : Kernel PriorityScheduler) : Prop where
  orderly : k.Orderly
  paid : ∀ t, Paid (k.frames t)
  leads : k.Leads ∨ Debt (k.frames k.current)

private theorem paid_step (he : Effect k rest k' i) (hf : k.frames k.current = i :: rest)
    (paid : ∀ t, Paid (k.frames t)) (t : Tid) : Paid (k'.frames t) := by
  have front := paid k.current
  rw [hf] at front
  by_cases ht : t = k.current
  · subst ht
    have self : ∀ is, Paid is → k'.frames = k.pending is rest → Paid (k'.frames k.current) := by
      intro is his frames
      rw [frames, pending_self]
      exact his.append front.2
    cases he with
    | schedule _ _ _ frames =>
      rcases frames with ⟨-, frames⟩ | frames
      · exact self [] trivial frames
      · exact self [.restore k.intr] (by simp [Paid, Instr.spends]) frames
    | build _ _ _ _ _ frames =>
      rw [frames, Function.update_self]
      refine Paid.append ?_ front.2
      simp [Paid, Instr.spends]
    | up _ _ _ _ _ _ _ frames =>
      rcases frames with frames | frames
      · exact self [] trivial frames
      · exact self [.schedule, .restore k.intr] (by simp [Paid, Instr.spends]) frames
    | access a is exec _ _ _ frames =>
      rw [frames, pending_self]
      exact access_paid exec front
    | still _ _ _ _ _ _ frames | take _ _ _ _ _ _ _ frames => exact self [] trivial frames
    | exit _ _ _ _ frames | down _ _ _ _ _ frames | block _ _ _ _ _ _ _ frames =>
      exact self _ (by simp [Paid, Instr.spends]) frames
  · rcases he.frames_other ht with same | ⟨-, new, -⟩
    · rw [same]
      exact paid t
    · rw [new]
      simp [Paid, Instr.spends]

/-- An access lowers the current thread or lifts another one only with a `schedule` ahead. -/
private theorem access_leads {a : Access} (h : k.Preemptive)
    (hf : k.frames k.current = .access a :: rest) (hs : k.step .exec = some k')
    (he : Effect k rest k' (.access a)) : k'.Leads ∨ Debt (k'.frames k'.current) := by
  have current := he.current (by simp)
  obtain ⟨is, exec, frames⟩ := he.of_access
  have front : k'.frames k'.current = is ++ rest := by rw [current, frames, pending_self]
  have scheduler : k'.scheduler = k.scheduler := by
    have hk := execInstr_of_step hf hs
    simp only [execInstr] at hk
    split at hk
    · cases hk
      rfl
    · cases hk
  have paid := h.paid k.current
  have phase := h.orderly.phased k.current
  rw [hf] at paid phase
  rw [front]
  by_cases htake : ∃ l, a = .takeHolder l
  · obtain ⟨l, rfl⟩ := htake
    simp only [Access.exec] at exec
    split at exec
    · obtain ⟨-, rfl⟩ := Prod.mk.inj (Except.ok.inj exec)
      exact .inr (.inl (by simp))
    · cases exec
  · cases hstored : k.stored (.access a) with
    | none =>
      have priority := he.priority
      rw [hstored] at priority
      rcases h.leads with leads | debt
      · exact .inl (leads.same scheduler priority current)
      · rw [hf] at debt
        exact .inr (debt.tail (by simp) (fun l hl => htake ⟨l, Instr.access.inj hl⟩) is)
    | some r =>
      obtain ⟨t, p⟩ := r
      refine .inr ?_
      have own : (Instr.access a).spends → Debt (is ++ rest) := fun hspends =>
        .inl (List.mem_append_right _ (paid.1 hspends))
      have release : ∀ l, .access (.takeHolder l) ∈ code rest → Debt (is ++ rest) := fun l hl =>
        .inr ⟨l, List.mem_append_right _ (mem_code.mp hl).1⟩
      rcases Effect.stored_cases hstored with ⟨-, hi | hi | ⟨hi, -⟩⟩ | hi | ⟨hi, -⟩
      · cases hi
        exact own rfl
      · cases hi
        obtain ⟨pre, l, -, hcode⟩ := phase.tail
        exact release l (by rw [show code rest = _ from hcode]; simp)
      · cases hi
        obtain ⟨l, hcode⟩ := phase.tail
        exact release l (by rw [show code rest = _ from hcode]; simp)
      · cases hi
        exact own rfl
      · cases hi

private theorem exec_leads (h : k.Preemptive) (hf : k.frames k.current = i :: rest)
    (hs : k.step .exec = some k') (he : Effect k rest k' i) :
    k'.Leads ∨ Debt (k'.frames k'.current) := by
  have hk := execInstr_of_step hf hs
  have admits := h.orderly.admits.pop hf
  have paid := h.paid k.current
  rw [hf] at paid
  have debt : ∀ is, i ≠ .schedule → (∀ l, i ≠ .access (.takeHolder l)) →
      k'.frames k'.current = is ++ rest → Debt (k.frames k.current) →
      Debt (k'.frames k'.current) := by
    intro is hne htake frames hd
    rw [hf] at hd
    rw [frames]
    exact hd.tail hne htake is
  have keeps : ∀ is, i ≠ .schedule → (∀ l, i ≠ .access (.takeHolder l)) →
      k'.frames k'.current = is ++ rest → k'.scheduler = k.scheduler →
      k'.locks = k.locks → k'.current = k.current → k'.Leads ∨ Debt (k'.frames k'.current) := by
    intro is hne htake frames scheduler locks current
    exact h.leads.imp (fun leads => leads.same scheduler (by rw [locks]) current)
      (debt is hne htake frames)
  cases i with
  | schedule => exact .inl (schedule_leads admits hk)
  | restore | kernelThread | registerAll =>
    cases hk
    exact keeps [] (by simp) (by simp) (Function.update_self ..) rfl rfl rfl
  | build p =>
    cases hk
    exact .inr (.inl (pushed (by simp)))
  | registerScheduler t =>
    refine .inr (.inl ?_)
    rw [he.current (by simp)]
    obtain ⟨is, frames⟩ := he.frames_self
    rw [frames]
    exact List.mem_append_right _ (paid.1 rfl)
  | exit =>
    cases hk
    exact .inr (.inl (pushed (by simp)))
  | exitReturned => cases hk
  | down x =>
    cases hk
    exact keeps [.downLoop x k.intr] (by simp) (by simp) (by simp [Kernel.push, pop]) rfl rfl rfl
  | downLoop x old =>
    have current := he.current (by simp)
    have scheduler : k'.scheduler = k.scheduler := by
      cases hk
      unfold downLoop
      dsimp only
      split <;> rfl
    cases he with
    | still _ hp => cases hp
    | block _ _ _ _ _ _ _ frames =>
      refine .inr (.inl ?_)
      rw [current, frames, pending_self]
      exact List.mem_cons_self
    | take _ _ _ locks _ _ _ frames =>
      exact keeps [] (by simp) (by simp) (by rw [current, frames, pending_self]) scheduler locks
        current
  | up x =>
    rcases h.leads with leads | hd
    · exact (up_leads (k := k.pop rest) admits leads hk).imp id .inl
    · have current := he.current (by simp)
      obtain ⟨is, frames⟩ := he.frames_self
      exact .inr (debt is (by simp) (by simp) (by rw [current, frames]) hd)
  | access a => exact access_leads h hf hs he

theorem Preemptive.exec (h : k.Preemptive) (hs : k.step .exec = some k') : k'.Preemptive := by
  obtain ⟨i, rest, hf, he⟩ := step_exec h.orderly.known.current.ne hs
  exact ⟨h.orderly.exec hs, paid_step he hf h.paid, exec_leads h hf hs he⟩

private theorem Paid.push (h : ∀ t, Paid (k.frames t)) {is : List Instr} (his : Paid is) (t : Tid) :
    Paid ((k.push k.current is).frames t) := by
  by_cases ht : t = k.current
  · subst ht
    simpa [Kernel.push] using his.append (h k.current)
  · simpa [Kernel.push, ht] using h t

theorem Preemptive.call {c : Call} (h : k.Preemptive) (hs : k.step (.call c) = some k') :
    k'.Preemptive := by
  have orderly := h.orderly.call hs
  obtain ⟨hnil, rfl⟩ := step_call hs
  refine ⟨orderly, Paid.push h.paid ?_, .inl ?_⟩
  · cases c <;> simp [Call.code, Paid, Instr.spends]
  · refine h.leads.resolve_right ?_
    rw [hnil]
    simp [Debt]

/-- A thread that is about to pass the processor on, wherever it is, may be outranked. -/
theorem Preemptive.yield (h : k.Orderly) (paid : ∀ t, Paid (k.frames t)) :
    (k.push k.current [.schedule]).Preemptive :=
  ⟨h.yield, Paid.push paid (by simp [Paid, Instr.spends]), .inr (.inl (pushed (by simp)))⟩

/-- The first thread leads from the start: the only other thread is the idle thread. -/
theorem init_preemptive {intr : Bool} {value lockid : Nat → Nat}
    (h : init intr value lockid = .ok k) : k.Preemptive := by
  have wired := init_wired h
  refine ⟨wired.orderly, ?_, .inl ?_⟩
  · obtain ⟨q, all, rfl⟩ := init_eq h
    intro t
    refine Paid.of_free fun i hi => ?_
    have hi : i ∈ (boot intr value lockid : Kernel PriorityScheduler).frames t := hi
    rw [boot_frames hi]
    rfl
  · intro t ht
    have ready := ((wired.manager.core.mem_queue t).mp ht).1
    obtain ⟨q, all, rfl⟩ := init_eq h
    simp only [boot] at ready
    split at ready
    · cases ready
    · rename_i hne
      simp [boot, Locks.priority, ThreadData.new, hne]

/-- No thread that is ready and that its creator has registered outranks the current one. -/
def Undominated (k : Kernel PriorityScheduler) : Prop :=
  ∀ t, k.status t = .Ready → ¬ Building k.frames t → k.locks.priority t ≤ k.locks.priority k.current

theorem Leads.undominated (h : k.Leads) (listed : k.Listed) : k.Undominated :=
  fun t ready registered => h t (listed t ready registered)

end Kernel

namespace Timer

variable {heap : SleepQueue} {s s' : Timer PriorityScheduler}

/-- The current thread leads, or it will pass the processor on before it returns. -/
structure Preemptive (s : Timer PriorityScheduler) : Prop where
  orderly : s.Orderly
  kernel : s.kernel.Preemptive

/-- The step lemma. -/
theorem step_preemptive {e : Event} (h : s.Preemptive) (hs : s.step heap e = some s') :
    s'.Preemptive := by
  cases e with
  | exec =>
    have orderly := h.orderly.exec hs
    obtain ⟨k, hk, rfl⟩ := Option.map_eq_some_iff.mp hs
    exact ⟨orderly, h.kernel.exec hk⟩
  | call c =>
    have orderly := h.orderly.call hs
    obtain ⟨k, hk, rfl⟩ := step_call hs
    exact ⟨orderly, h.kernel.call hk⟩
  | sleep n =>
    obtain ⟨-, rfl⟩ | ⟨-, -, -, -, rfl⟩ := step_sleep hs
    · exact h
    · exact ⟨h.orderly.doze, h.kernel⟩
  | mark =>
    obtain ⟨-, -, rfl⟩ := step_mark hs
    exact ⟨h.orderly.marked, .yield (h.kernel.orderly.leave (by simp) _) h.kernel.paid⟩
  | tick =>
    have orderly := h.orderly.tick hs
    obtain ⟨-, q, k, woken, rfl⟩ := step_tick hs
    obtain ⟨inOrder, -⟩ := wakeDue_orderly h.orderly.kernel h.orderly.sleepers woken
    obtain ⟨-, frames⟩ := wakeDue_keeps woken
    exact ⟨orderly, .yield inOrder (frames ▸ h.kernel.paid)⟩

/-- Whoever the next `schedule` picks is outranked by no ready thread, and neither is it when it
returns from the `schedule` that it was left in. -/
def Yields (heap : SleepQueue) (s : Timer PriorityScheduler) : Prop :=
  ∀ s', s.step heap .exec = some s' → s'.kernel.Undominated ∧
    ∀ old rest s'', s'.kernel.frames s'.kernel.current = .restore old :: rest →
      s'.step heap .exec = some s'' → s''.kernel.Undominated

theorem Preemptive.yields (h : s.Preemptive) {rest : List Instr}
    (hf : s.kernel.frames s.kernel.current = .schedule :: rest) : s.Yields heap := by
  intro s' hs
  have after := step_preemptive h hs
  obtain ⟨k, hk, rfl⟩ := Option.map_eq_some_iff.mp hs
  have leads : k.Leads :=
    Kernel.schedule_leads (h.orderly.kernel.admits.pop hf) (Kernel.execInstr_of_step hf hk)
  refine ⟨leads.undominated after.orderly.kernel.listed, fun old rest' s'' hf' hs' => ?_⟩
  have later := step_preemptive after hs'
  obtain ⟨k', hk', rfl⟩ := Option.map_eq_some_iff.mp hs'
  have restored := Kernel.execInstr_of_step hf' hk'
  cases restored
  exact Kernel.Leads.undominated (leads.same rfl rfl rfl) later.orderly.kernel.listed

end Timer

/-- In every state a run with sleepers and timer interrupts reaches: no thread that is ready and
registered outranks a running thread that has returned to its own program, nor the thread that
leaves `schedule`; and the timer trap leaves by a `schedule`. -/
theorem preemptive_priority {heap : SleepQueue} {intr : Bool} {value lockid : Nat → Nat}
    {k₀ : Kernel PriorityScheduler} {es : List Timer.Event} {s : Timer PriorityScheduler}
    (start : Kernel.init intr value lockid = .ok k₀)
    (ran : run (Timer.step heap) (.start k₀) es = some s) :
    (s.kernel.frames s.kernel.current = [] → s.kernel.Undominated) ∧
    (∀ rest, s.kernel.frames s.kernel.current = .schedule :: rest → s.Yields heap) ∧
    (∀ s', s.step heap .tick = some s' →
      s'.kernel.frames s'.kernel.current = .schedule :: s.kernel.frames s.kernel.current ∧
        s'.Yields heap) := by
  have preemptive : s.Preemptive := run_invariant
    (fun _ _ _ => Timer.step_preemptive)
    ⟨Timer.start_orderly start, Kernel.init_preemptive start⟩ ran
  refine ⟨fun home => ?_, fun rest hf => preemptive.yields hf, fun s' trap => ?_⟩
  · refine Kernel.Leads.undominated ?_ preemptive.orderly.kernel.listed
    exact preemptive.kernel.leads.resolve_right (by rw [home]; simp [Debt])
  · have after := Timer.step_preemptive preemptive trap
    obtain ⟨-, q, k, woken, rfl⟩ := Timer.step_tick trap
    obtain ⟨current, frames⟩ := Timer.wakeDue_keeps woken
    have front : (s.ticked q k).kernel.frames k.current =
        .schedule :: s.kernel.frames s.kernel.current := by
      rw [← current, ← frames]
      exact Function.update_self ..
    exact ⟨front, after.yields front⟩

/-- A call from the program of the current thread, and that many executed instructions. -/
def Timer.calling (c : Call) (n : Nat) : List Timer.Event := .call c :: List.replicate n .exec

/-- Thread 2 sleeps for one tick. `Initial` runs with the priority that thread 3 donated to it, and
spawns thread 4. -/
def donatedSpawn : List Timer.Event :=
  Timer.calling (.spawn 45) 5 ++ [.sleep 1, .mark, .exec, .exec] ++
    Timer.calling (.acquire 0) 4 ++ Timer.calling (.spawn 41) 5 ++ Timer.calling (.acquire 0) 10 ++
    Timer.calling .schedule 7 ++ Timer.calling (.spawn 35) 4

/-- Thread 4 outranks what `Initial` was created with, and stays ready; thread 2 takes over when the
timer trap wakes it. -/
theorem donated_priority_leads :
    ∃ s, run (Timer.step .leftmost) (.start bootedLocks) donatedSpawn = some s ∧
      s.kernel.current = 0 ∧ s.kernel.status 4 = .Ready ∧
      s.kernel.locks.priority 4 ≤ s.kernel.locks.priority 0 ∧
      ∃ s₁ s₂, s.step .leftmost .tick = some s₁ ∧ s₁.step .leftmost .exec = some s₂ ∧
        s₂.kernel.current = 2 ∧ s₂.kernel.Undominated := by
  have ran : ((run (Timer.step .leftmost) (.start bootedLocks) donatedSpawn).map fun s =>
      (s.kernel.current, s.kernel.frames s.kernel.current, s.kernel.status 4, s.kernel.nextTid,
        decide (∀ u ∈ List.range 5, Instr.registerScheduler 4 ∉ s.kernel.frames u))) =
      some (0, [], .Ready, 5, true) := by
    decide +kernel
  have woken : ((run (Timer.step .leftmost) (.start bootedLocks)
    (donatedSpawn ++ [.tick, .exec])).map
      fun s => s.kernel.current) = some 2 := by
    decide +kernel
  obtain ⟨s, hs, hview⟩ := Option.map_eq_some_iff.mp ran
  simp only [Prod.mk.injEq, decide_eq_true_eq] at hview
  obtain ⟨current, home, ready, next, registered⟩ := hview
  have known : s.kernel.Known := (run_invariant (fun _ _ _ => Timer.step_preemptive)
    ⟨Timer.start_orderly rfl, Kernel.init_preemptive rfl⟩ hs : s.Preemptive).orderly.kernel.known
  have built : ¬ Building s.kernel.frames 4 := by
    rintro ⟨u, hu⟩
    by_cases hlt : u < 5
    · exact registered u (List.mem_range.mpr hlt) hu
    · rw [known.unborn u (by rw [next]; exact Nat.le_of_not_lt hlt)] at hu
      cases hu
  obtain ⟨s₂, trap, ended⟩ := Option.map_eq_some_iff.mp woken
  obtain ⟨s', same, both⟩ := run_append.mp trap
  obtain rfl : s = s' := Option.some.inj (hs.symm.trans same)
  obtain ⟨s₁, tick, last⟩ := run_cons.mp both
  obtain ⟨s₂', exec, done⟩ := run_cons.mp last
  obtain rfl : s₂ = s₂' := (Option.some.inj done).symm
  obtain ⟨returned, -, trap⟩ := preemptive_priority rfl hs
  have leads := returned home 4 ready built
  rw [current] at leads
  exact ⟨s, hs, current, ready, leads, s₁, s₂, tick, exec, ended, ((trap s₁ tick).2 s₂ exec).1⟩

/-- Thread 2 is preempted between the build of thread 3 and its registration. -/
def preemptedBuild : List Timer.Event :=
  Timer.calling (.spawn 31) 5 ++ Timer.calling (.spawn 40) 1 ++ [.tick, .exec, .exec]

/-- Then `Initial` returns from its `spawn` although thread 3 is ready and outranks it. -/
theorem built_thread_outranks : ¬ ∀ es s,
    run (Timer.step .leftmost) (.start bootedLocks) es = some s →
    s.kernel.frames s.kernel.current = [] → ∀ t, s.kernel.status t = .Ready →
      s.kernel.locks.priority t ≤ s.kernel.locks.priority s.kernel.current := by
  intro claim
  have ran : ((run (Timer.step .leftmost) (.start bootedLocks) preemptedBuild).map fun s =>
      (s.kernel.frames s.kernel.current, s.kernel.status 3, s.kernel.locks.priority 3,
        s.kernel.locks.priority s.kernel.current)) =
      some ([], .Ready, 40, 31) := by
    decide +kernel
  obtain ⟨s, hs, hview⟩ := Option.map_eq_some_iff.mp ran
  simp only [Prod.mk.injEq] at hview
  obtain ⟨home, ready, high, low⟩ := hview
  have := claim preemptedBuild s hs home 3 ready
  rw [high, low] at this
  omega

end Tacos.Thread
