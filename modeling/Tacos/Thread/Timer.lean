/- GID: Tacos/Thread/Timer
   generality: G
   source: src/thread.rs, src/sbi/timer.rs, src/sleepq.rs, src/trap.rs
   digest: Threads that sleep, the timer interrupt that wakes them, and when the two do not
     collide. -/

import Tacos.Thread.Code
import Mathlib.Algebra.Group.Int.Defs
import Mathlib.Data.List.MinMax

set_option autoImplicit false
set_option relaxedAutoImplicit false

namespace Tacos.Thread

open Tacos.Lib.Run

/-- An entry of `SLEEP_QUEUE`: when to wake which thread. -/
structure SleepData where
  ticks : Int
  thread : Tid
  deriving DecidableEq, Repr

/-- The binary heap of the sleepers: `pop` takes an entry with the earliest time. Which of
several it takes is not specified. -/
structure SleepQueue where
  pop : List SleepData → Option (SleepData × List SleepData)
  pop_nil : pop [] = none
  pop_spec : ∀ q, q ≠ [] →
    ∃ d rest, pop q = some (d, rest) ∧ (d :: rest).Perm q ∧ ∀ e ∈ q, d.ticks ≤ e.ticks

/-- The heap that takes the first of the earliest entries. -/
def SleepQueue.leftmost : SleepQueue where
  pop q := (@List.argmin _ _ Int.instLinearOrder.toPreorder _ SleepData.ticks q).map fun d =>
    (d, q.erase d)
  pop_nil := rfl
  pop_spec := by
    intro q hq
    cases hd : @List.argmin _ _ Int.instLinearOrder.toPreorder _ SleepData.ticks q with
    | none => exact (hq (List.argmin_eq_none.mp hd)).elim
    | some d =>
      refine ⟨d, q.erase d, rfl, (List.perm_cons_erase (List.argmin_mem hd)).symm, ?_⟩
      exact fun e he => List.le_of_mem_argmin he hd

/-- The kernel with the tick counter and the queue of the sleepers. `marking` are the
sleepers that are in the queue, with interrupts restored, and not yet marked as blocked. -/
structure Timer (σ : Type) where
  kernel : Kernel σ
  ticks : Int
  sleepq : List SleepData
  marking : List Tid

namespace Timer

variable {σ : Type} [Schedule σ]

/-- What can happen next. A sleeper marks itself and calls `schedule` after `sleep` has
put it into the queue; every timer interrupt is a `tick` followed by a `schedule`. -/
inductive Event where
  | exec
  | call (c : Call)
  | sleep (ticks : Int)
  | mark
  | tick
  deriving DecidableEq, Repr

/-- The loop of `tick`; each turn takes one entry out of the queue. -/
def wakeDue (heap : SleepQueue) (now : Int) :
    Nat → List SleepData → Kernel σ → Except Panic (List SleepData × Kernel σ)
  | 0, q, k => .ok (q, k)
  | n + 1, q, k =>
    match heap.pop q with
    | none => .ok (q, k)
    | some (d, rest) =>
      if d.ticks ≤ now then
        match k.wakeUp d.thread with
        | .ok k' => wakeDue heap now n rest k'
        | .error p => .error p
      else .ok (q, k)

/-- The thread whose program goes on: no kernel function, and not inside `sleep`. -/
def atHome (s : Timer σ) : Bool :=
  s.kernel.frames s.kernel.current = [] && s.kernel.current ∉ s.marking

/-- A thread goes into the queue of the sleepers, and is not yet marked as blocked. -/
def doze (s : Timer σ) (n : Int) : Timer σ :=
  { s with
    sleepq := ⟨s.ticks + n, s.kernel.current⟩ :: s.sleepq
    marking := s.kernel.current :: s.marking }

/-- A sleeper marks itself as blocked and is about to call `schedule`. -/
def marked (s : Timer σ) : Timer σ :=
  { s with
    kernel := (s.kernel.setStatus s.kernel.current .Blocked).push s.kernel.current [.schedule]
    marking := s.marking.erase s.kernel.current }

/-- The next tick has woken its sleepers, and the thread that it came to is about to call
`schedule`. -/
def ticked (s : Timer σ) (q : List SleepData) (k : Kernel σ) : Timer σ :=
  { s with kernel := k.push k.current [.schedule], ticks := s.ticks + 1, sleepq := q }

def step (heap : SleepQueue) (s : Timer σ) : Event → Option (Timer σ)
  | .exec => (s.kernel.step .exec).map fun k => { s with kernel := k }
  | .call c =>
    if s.atHome then (s.kernel.step (.call c)).map fun k => { s with kernel := k } else none
  | .sleep n =>
    if s.atHome && s.kernel.current ≠ Kernel.idle then
      if n ≤ 0 then some s
      else if s.ticks + n < 2 ^ 63 then some (s.doze n)
      else none
    else none
  | .mark =>
    if s.kernel.frames s.kernel.current = [] ∧ s.kernel.current ∈ s.marking then some s.marked
    else none
  | .tick =>
    if s.kernel.intr then
      match wakeDue heap (s.ticks + 1) s.sleepq.length s.sleepq s.kernel with
      | .ok (q, k) => some (s.ticked q k)
      | .error _ => none
    else none

def start (k : Kernel σ) : Timer σ := ⟨k, 0, [], []⟩

section Cases

variable {heap : SleepQueue} {s s' : Timer σ}

theorem step_call {c : Call} (h : s.step heap (.call c) = some s') :
    ∃ k, s.kernel.step (.call c) = some k ∧ s' = { s with kernel := k } := by
  simp only [step] at h
  split at h
  · obtain ⟨k, hk, rfl⟩ := Option.map_eq_some_iff.mp h
    exact ⟨k, hk, rfl⟩
  · cases h

theorem step_sleep {n : Int} (h : s.step heap (.sleep n) = some s') :
    (n ≤ 0 ∧ s' = s) ∨ (s.atHome = true ∧ s.kernel.current ≠ Kernel.idle ∧ 0 < n ∧
      s.ticks + n < 2 ^ 63 ∧ s' = s.doze n) := by
  simp only [step, Bool.and_eq_true, decide_eq_true_eq] at h
  split at h
  · rename_i home
    split at h
    · exact .inl ⟨‹_›, (Option.some.inj h).symm⟩
    · split at h
      · exact .inr ⟨home.1, home.2, by omega, ‹_›, (Option.some.inj h).symm⟩
      · cases h
  · cases h

theorem step_mark (h : s.step heap .mark = some s') :
    s.kernel.frames s.kernel.current = [] ∧ s.kernel.current ∈ s.marking ∧ s' = s.marked := by
  simp only [step] at h
  split at h
  · rename_i home
    exact ⟨home.1, home.2, (Option.some.inj h).symm⟩
  · cases h

theorem step_tick (h : s.step heap .tick = some s') :
    s.kernel.intr = true ∧ ∃ q k,
      wakeDue heap (s.ticks + 1) s.sleepq.length s.sleepq s.kernel = .ok (q, k) ∧
        s' = s.ticked q k := by
  simp only [step] at h
  split at h
  · rename_i enabled
    split at h
    · rename_i q k woken
      exact ⟨enabled, q, k, woken, (Option.some.inj h).symm⟩
    · cases h
  · cases h

/-- An event of the kernel alone: its preemption is a tick. -/
def ofKernel : Thread.Event → Event
  | .exec => .exec
  | .call c => .call c
  | .preempt => .tick

/-- While nobody sleeps, the kernel does what it does without the queue of the sleepers. -/
theorem step_ofKernel {e : Thread.Event} {k : Kernel σ} (nobody : s.sleepq = [])
    (unmarked : s.marking = []) (h : s.kernel.step e = some k) :
    ∃ n, s.step heap (ofKernel e) = some { s with kernel := k, ticks := n } := by
  cases e with
  | exec => exact ⟨s.ticks, by rw [ofKernel, step, h]; rfl⟩
  | call c =>
    have home : s.atHome = true := by
      simp only [Kernel.step] at h
      split at h
      · rename_i may
        simp only [Kernel.mayCall, Bool.and_eq_true] at may
        simpa [atHome, unmarked] using may.1.1
      · cases h
    exact ⟨s.ticks, by rw [ofKernel, step, if_pos home, h]; rfl⟩
  | preempt =>
    simp only [Kernel.step] at h
    split at h
    · rename_i enabled
      cases h
      refine ⟨s.ticks + 1, ?_⟩
      rw [ofKernel, step, if_pos enabled, nobody]
      rfl
    · cases h

theorem run_ofKernel {es : List Thread.Event} {k k' : Kernel σ} {n : Int}
    (h : run Kernel.step k es = some k') :
    ∃ m, run (step heap) ⟨k, n, [], []⟩ (es.map ofKernel) = some ⟨k', m, [], []⟩ := by
  induction es generalizing k n with
  | nil =>
    cases h
    exact ⟨n, rfl⟩
  | cons e es ih =>
    obtain ⟨k₁, first, rest⟩ := run_cons.mp h
    obtain ⟨n₁, first'⟩ : ∃ n₁, (⟨k, n, [], []⟩ : Timer σ).step heap
      (ofKernel e) = some ⟨k₁, n₁, [], []⟩ :=
      step_ofKernel rfl rfl first
    obtain ⟨m, rest'⟩ := ih (n := n₁) rest
    exact ⟨m, run_cons.mpr ⟨_, first', rest'⟩⟩

end Cases

/-- Every sleeper that the next tick is to wake has left the processor for good: it is
neither between its entry into the queue and its mark nor still to call `schedule`. -/
def Landed (s : Timer σ) : Prop :=
  ∀ d ∈ s.sleepq, d.ticks ≤ s.ticks + 1 → d.thread ∉ s.marking ∧ d.thread ≠ s.kernel.current

instance (s : Timer σ) : Decidable s.Landed :=
  inferInstanceAs (Decidable (∀ d ∈ s.sleepq, _))

/-- Timer interrupts come only when the sleepers they wake have landed. -/
def Spaced (s : Timer σ) : Event → Prop
  | .tick => s.Landed
  | _ => True

instance (s : Timer σ) (e : Event) : Decidable (s.Spaced e) := by
  unfold Spaced
  split <;> infer_instance

/-- The sleepers of a queue that are marked as blocked. -/
def asleep (q : List SleepData) (marking : List Tid) : List Tid :=
  (q.map SleepData.thread).filter fun t => t ∉ marking

theorem mem_asleep {q : List SleepData} {marking : List Tid} {t : Tid} :
    t ∈ asleep q marking ↔ (∃ d ∈ q, d.thread = t) ∧ t ∉ marking := by
  simp [asleep]

theorem asleep_perm {q q' : List SleepData} {marking : List Tid} (h : q.Perm q') :
    (asleep q marking).Perm (asleep q' marking) :=
  (h.map _).filter _

theorem asleep_cons {d : SleepData} {q : List SleepData} {marking : List Tid}
    (h : d.thread ∉ marking) : asleep (d :: q) marking = d.thread :: asleep q marking := by
  simp [asleep, h]

end Timer

namespace Kernel

variable {σ : Type} [Schedule σ] [LawfulSchedule σ] {k k' : Kernel σ} {z z' : List Tid}

theorem Managed.perm (h : k.Managed z) (hp : z'.Perm z) : k.Managed z' := by
  have mem : ∀ s t, t ∈ k.queues z' s ↔ t ∈ k.queues z s := by
    intro s t
    cases s with
    | none => exact hp.mem_iff
    | some s => exact Iff.rfl
  refine ⟨{ h.core with
    waiters_nodup := ?_
    mem_waiters := fun s t ht => h.core.mem_waiters s t ((mem s t).mp ht)
    blocked_waits := ?_
    waits_once := fun s s' t hs hs' =>
      h.core.waits_once s s' t ((mem s t).mp hs) ((mem s' t).mp hs') }, h.settled, h.admits⟩
  · intro s
    cases s with
    | none => exact hp.nodup_iff.mpr (h.core.waiters_nodup none)
    | some s => exact h.core.waiters_nodup (some s)
  · intro t ht
    obtain ⟨s, hs⟩ := h.core.blocked_waits t ht
    exact ⟨s, (mem s t).mpr hs⟩

omit [Schedule σ] [LawfulSchedule σ] in
private theorem queues_update (k : Kernel σ) (z z' : List Tid) :
    Function.update (k.queues z) none z' = k.queues z' := by
  funext s
  cases s with
  | none => rw [Function.update_self]; rfl
  | some s => rw [Function.update_of_ne (by simp)]; rfl

private theorem Managed.mark (h : k.Managed z) (home : k.frames k.current = [])
    (busy : k.current ≠ idle) :
    ((k.setStatus k.current .Blocked).push k.current [.schedule]).Managed (k.current :: z) := by
  have running : k.status k.current = .Running := by
    rcases h.settled with hr | ⟨-, rest, hf⟩
    · exact hr
    · rw [home] at hf
      cases hf
  have core : (k.setStatus k.current .Blocked).CoreWith (k.current :: z) := by
    have blocked := h.core.block running busy none
    rw [show k.queues z none = z from rfl, queues_update] at blocked
    exact blocked
  refine ⟨core.push core.current_lt (by simp) (by simp [Instr.idling]), .inr ⟨.inr ?_, ?_⟩, ?_⟩
  · exact Function.update_self ..
  · exact ⟨_, Function.update_self ..⟩
  · exact Admits.push (k := k.setStatus k.current .Blocked) ⟨h.admits.data, h.admits.code⟩
      (by simp [Instr.Admits])

/-- `wake_up` of a sleeper that is not the current thread. -/
private theorem Managed.wake {t : Tid} (h : k.Managed (t :: z)) (hne : k.current ≠ t) :
    ∃ k', k.wakeUp t = .ok k' ∧ k'.Managed z ∧ k'.current = k.current ∧ k'.frames = k.frames ∧
      k'.intr = k.intr ∧ k'.status = Function.update k.status t .Ready := by
  have blocked : k.status t = .Blocked := h.core.mem_waiters none t List.mem_cons_self
  obtain ⟨q, hq, perm⟩ := register_spec (k := k.setStatus t .Ready) ⟨h.admits.data, h.admits.code⟩ t
  have woken : k.wakeUp t = .ok { k.setStatus t .Ready with scheduler := q } := by
    simp only [wakeUp, blocked, ne_eq, not_true_eq_false, if_false, hq]
  refine ⟨_, woken, ⟨?_, ?_, ⟨h.admits.data, h.admits.code⟩⟩, rfl, rfl, rfl, rfl⟩
  · have := (h.core.wake (s := none) hne (List.Perm.refl _)).perm perm
    rw [queues_update] at this
    exact this
  · have same : Function.update k.status t .Ready k.current = k.status k.current :=
      Function.update_of_ne hne _ _
    rcases h.settled with hr | ⟨hleft, hf⟩
    · exact .inl (same.trans hr)
    · exact .inr ⟨hleft.imp same.trans same.trans, hf⟩

end Kernel

namespace Timer

variable {σ : Type} [Schedule σ] [LawfulSchedule σ]

/-- What the loop of `tick` does: the entries whose time has come leave the queue, and
their threads, and no others, become ready. -/
structure Woken (now : Int) (q q' : List SleepData) (k k' : Kernel σ) : Prop where
  perm : q'.Perm (q.filter fun d => now < d.ticks)
  current : k'.current = k.current
  frames : k'.frames = k.frames
  intr : k'.intr = k.intr
  due : ∀ d ∈ q, d.ticks ≤ now → k'.status d.thread = .Ready
  other : ∀ t, (∀ d ∈ q, d.ticks ≤ now → d.thread ≠ t) → k'.status t = k.status t

omit [Schedule σ] [LawfulSchedule σ] in
private theorem Woken.refl {now : Int} {q : List SleepData} {k : Kernel σ}
    (early : ∀ d ∈ q, now < d.ticks) : Woken now q q k k := by
  refine ⟨?_, rfl, rfl, rfl, ?_, fun _ _ => rfl⟩
  · rw [List.filter_eq_self.mpr fun d hd => decide_eq_true (early d hd)]
  · intro d hd due
    have := early d hd
    omega

theorem wakeDue_spec (heap : SleepQueue) (now : Int) {n : Nat} {q : List SleepData}
    {marking : List Tid} {k : Kernel σ} (fuel : q.length ≤ n)
    (managed : k.Managed (asleep q marking)) (nodup : (q.map SleepData.thread).Nodup)
    (landed : ∀ d ∈ q, d.ticks ≤ now → d.thread ∉ marking ∧ d.thread ≠ k.current) :
    ∃ q' k', wakeDue heap now n q k = .ok (q', k') ∧ k'.Managed (asleep q' marking) ∧
      Woken now q q' k k' := by
  induction n generalizing q k with
  | zero =>
    obtain rfl : q = [] := List.length_eq_zero_iff.mp (Nat.le_zero.mp fuel)
    exact ⟨[], k, rfl, managed, .refl (by simp)⟩
  | succ n ih =>
    by_cases hq : q = []
    · subst hq
      exact ⟨[], k, by simp [wakeDue, heap.pop_nil], managed, .refl (by simp)⟩
    · obtain ⟨d, rest, hpop, perm, earliest⟩ := heap.pop_spec q hq
      have mem : ∀ e, e ∈ q ↔ e = d ∨ e ∈ rest := fun e =>
        perm.mem_iff.symm.trans List.mem_cons
      by_cases hd : d.ticks ≤ now
      · obtain ⟨unmarked, hne⟩ := landed d ((mem d).mpr (.inl rfl)) hd
        have sleeping : k.Managed (d.thread :: asleep rest marking) := by
          rw [← asleep_cons unmarked]
          exact managed.perm (asleep_perm perm)
        obtain ⟨k₁, hk₁, managed₁, current, frames, intr, status⟩ := sleeping.wake (Ne.symm hne)
        obtain ⟨notRest, restNodup⟩ := List.nodup_cons.mp
          ((perm.map SleepData.thread).nodup_iff.mpr nodup)
        have length : rest.length ≤ n := by
          have := perm.length_eq
          simp only [List.length_cons] at this
          omega
        obtain ⟨q', k', hrun, managed', woken⟩ := ih length managed₁ restNodup (by
          intro e he due
          rw [current]
          exact landed e ((mem e).mpr (.inr he)) due)
        refine ⟨q', k', by simp only [wakeDue, hpop, hd, if_true, hk₁, hrun], managed', ?_⟩
        refine ⟨?_, woken.current.trans current, woken.frames.trans frames,
          woken.intr.trans intr, ?_, ?_⟩
        · refine woken.perm.trans ((perm.filter _).symm.trans ?_).symm
          rw [List.filter_cons_of_neg (by simpa using hd)]
        · intro e he due
          rcases (mem e).mp he with rfl | he
          · -- its entry was the only one, so the turns that follow leave the thread alone
            rw [woken.other e.thread fun f hf _ heq => notRest
              (List.mem_map.mpr ⟨f, hf, heq⟩), status,
              Function.update_self]
          · exact woken.due e he due
        · intro t ht
          rw [woken.other t fun e he due => ht e ((mem e).mpr (.inr he)) due, status,
            Function.update_of_ne (Ne.symm (ht d ((mem d).mpr (.inl rfl)) hd))]
      · refine ⟨q, k, by simp only [wakeDue, hpop, hd, if_false], managed, .refl ?_⟩
        intro e he
        have := earliest e he
        omega

/-- The invariant of sleepers and timer. -/
structure Kept (s : Timer σ) : Prop where
  managed : s.kernel.Managed (asleep s.sleepq s.marking)
  nodup : (s.sleepq.map SleepData.thread).Nodup
  marking : ∀ t ∈ s.marking, (∃ d ∈ s.sleepq, d.thread = t) ∧ t ≠ Kernel.idle
  marking_nodup : s.marking.Nodup
  later : ∀ d ∈ s.sleepq, s.ticks < d.ticks

variable {s s' : Timer σ} {heap : SleepQueue}

private theorem Kept.running (h : s.Kept) (home : s.kernel.frames s.kernel.current = []) :
    s.kernel.status s.kernel.current = .Running := by
  rcases h.managed.settled with hr | ⟨-, rest, hf⟩
  · exact hr
  · rw [home] at hf
    cases hf

theorem Kept.awake (h : s.Kept) (home : s.atHome = true) :
    ∀ d ∈ s.sleepq, d.thread ≠ s.kernel.current := by
  obtain ⟨frames, unmarked⟩ : s.kernel.frames s.kernel.current = [] ∧
    s.kernel.current ∉ s.marking := by
    simpa [atHome] using home
  intro d hd heq
  have blocked := h.managed.core.mem_waiters none s.kernel.current
    (mem_asleep.mpr ⟨⟨d, hd, heq⟩, unmarked⟩)
  rw [h.running frames] at blocked
  cases blocked

private theorem sleep_kept {n : Int} (h : s.Kept) (home : s.atHome = true)
    (busy : s.kernel.current ≠ Kernel.idle) (pos : 0 < n) : (s.doze n).Kept := by
  have absent := h.awake home
  have unmarked : s.kernel.current ∉ s.marking := by
    simp only [atHome, Bool.and_eq_true, decide_eq_true_eq] at home
    exact home.2
  have same : asleep (⟨s.ticks + n, s.kernel.current⟩ :: s.sleepq) (s.kernel.current :: s.marking) =
      asleep s.sleepq s.marking := by
    simp only [asleep, List.map_cons, List.mem_cons, true_or, not_true_eq_false, decide_false,
      Bool.false_eq_true, not_false_eq_true, List.filter_cons_of_neg]
    refine List.filter_congr fun t ht => ?_
    obtain ⟨d, hd, rfl⟩ := List.mem_map.mp ht
    simp [absent d hd]
  refine ⟨?_, ?_, ?_, List.nodup_cons.mpr ⟨unmarked, h.marking_nodup⟩, ?_⟩
  · have managed := h.managed
    rw [← same] at managed
    exact managed
  · refine List.nodup_cons.mpr ⟨fun hm => ?_, h.nodup⟩
    obtain ⟨d, hd, heq⟩ := List.mem_map.mp hm
    exact absent d hd heq
  · intro t ht
    rcases List.mem_cons.mp ht with rfl | ht
    · exact ⟨⟨_, List.mem_cons_self, rfl⟩, busy⟩
    · obtain ⟨⟨d, hd, heq⟩, hi⟩ := h.marking t ht
      exact ⟨⟨d, List.mem_cons_of_mem _ hd, heq⟩, hi⟩
  · intro d hd
    rcases List.mem_cons.mp hd with rfl | hd
    · exact Int.lt_add_of_pos_right _ pos
    · exact h.later d hd

private theorem mark_kept (h : s.Kept) (home : s.kernel.frames s.kernel.current = [])
    (marked : s.kernel.current ∈ s.marking) : s.marked.Kept := by
  obtain ⟨⟨d, hd, heq⟩, busy⟩ := h.marking _ marked
  have gone : s.kernel.current ∉ s.marking.erase s.kernel.current := h.marking_nodup.not_mem_erase
  have others : ∀ t, t ≠ s.kernel.current →
    (t ∈ s.marking.erase s.kernel.current ↔ t ∈ s.marking) :=
    fun t ht => List.mem_erase_of_ne ht
  have more : (asleep s.sleepq (s.marking.erase s.kernel.current)).Perm
      (s.kernel.current :: asleep s.sleepq s.marking) := by
    have nodup : (asleep s.sleepq (s.marking.erase s.kernel.current)).Nodup := h.nodup.filter _
    apply (List.perm_ext_iff_of_nodup nodup ?_).mpr
    · intro t
      rw [List.mem_cons, mem_asleep, mem_asleep]
      by_cases ht : t = s.kernel.current
      · subst ht
        simp only [gone, not_false_eq_true, and_true, true_or, iff_true]
        exact ⟨d, hd, heq⟩
      · rw [others t ht]
        simp [ht]
    · refine List.nodup_cons.mpr ⟨fun hm => ?_, h.nodup.filter _⟩
      exact (mem_asleep.mp hm).2 marked
  refine ⟨(h.managed.mark home busy).perm more, h.nodup, ?_, h.marking_nodup.erase _, h.later⟩
  exact fun t ht => h.marking t (List.mem_of_mem_erase ht)

/-- What a timer interrupt does when the sleepers it wakes have landed. -/
private theorem tick_spec (heap : SleepQueue) (h : s.Kept) (enabled : s.kernel.intr = true)
    (landed : s.Landed) : ∃ q k,
      s.step heap .tick = some (s.ticked q k) ∧ Woken (s.ticks + 1) s.sleepq q s.kernel k ∧
      (s.ticked q k).Kept := by
  obtain ⟨q, k, hrun, managed, woken⟩ :=
    wakeDue_spec heap (s.ticks + 1) le_rfl h.managed h.nodup landed
  have mem : ∀ d, d ∈ q ↔ d ∈ s.sleepq ∧ s.ticks + 1 < d.ticks := by
    intro d
    rw [woken.perm.mem_iff, List.mem_filter, decide_eq_true_iff]
  refine ⟨q, k, by simp only [step, enabled, if_true, hrun], woken,
    ⟨?_, ?_, ?_, h.marking_nodup, fun d hd => ((mem d).mp hd).2⟩⟩
  · have hs : k.step .preempt = some (k.push k.current [.schedule]) :=
      if_pos (woken.intr.trans enabled)
    exact Kernel.step_managed managed hs
  · refine ((woken.perm.map SleepData.thread).nodup_iff).mpr ?_
    exact h.nodup.sublist (List.filter_sublist.map _)
  · intro t ht
    obtain ⟨⟨d, hd, heq⟩, busy⟩ := h.marking t ht
    refine ⟨⟨d, (mem d).mpr ⟨hd, ?_⟩, heq⟩, busy⟩
    -- a sleeper that is not yet marked is not woken
    by_contra hlt
    exact (landed d hd (by omega)).1 (heq ▸ ht)

/-- The step lemma. -/
theorem step_kept {e : Event} (h : s.Kept) (meets : s.Spaced e) (hs : s.step heap e = some s') :
    s'.Kept := by
  cases e with
  | exec =>
    obtain ⟨k, hk, rfl⟩ := Option.map_eq_some_iff.mp hs
    exact ⟨Kernel.step_managed h.managed hk, h.nodup, h.marking, h.marking_nodup, h.later⟩
  | call c =>
    obtain ⟨k, hk, rfl⟩ := step_call hs
    exact ⟨Kernel.step_managed h.managed hk, h.nodup, h.marking, h.marking_nodup, h.later⟩
  | sleep n =>
    obtain ⟨-, rfl⟩ | ⟨home, busy, pos, -, rfl⟩ := step_sleep hs
    · exact h
    · exact sleep_kept h home busy pos
  | mark =>
    obtain ⟨home, marked, rfl⟩ := step_mark hs
    exact mark_kept h home marked
  | tick =>
    obtain ⟨enabled, -⟩ := step_tick hs
    obtain ⟨q, k, hstep, -, kept⟩ := tick_spec heap h enabled meets
    rw [hstep] at hs
    cases hs
    exact kept

theorem start_kept {intr : Bool} {value lockid : Nat → Nat} {k : Kernel σ}
    (h : Kernel.init intr value lockid = .ok k) : (start k).Kept := by
  obtain ⟨k', hk', manager⟩ := Kernel.init_managerInv (σ := σ) intr value lockid
  obtain rfl : k' = k := by
    rw [h] at hk'
    exact (Except.ok.inj hk').symm
  exact ⟨Kernel.managed_nil.mpr manager, List.nodup_nil, by simp [start], List.nodup_nil,
    by simp [start]⟩

end Timer

/-- When timer interrupts come only after the sleepers they wake have landed, then in every
state reached: a timer interrupt succeeds, each sleeper whose time has come is blocked and
in no ready queue before it and ready and once in the ready queues after it, nobody else is
woken and nobody sleeps longer; every sleeper is in the queue once; and `schedule` never
meets a previous thread that is ready. -/
theorem sleep_and_tick_apart {σ : Type} [Schedule σ] [LawfulSchedule σ] {heap : SleepQueue}
    {intr : Bool} {value lockid : Nat → Nat} {k₀ : Kernel σ} {es : List Timer.Event} {s : Timer σ}
    (start : Kernel.init intr value lockid = .ok k₀)
    (meets : Guarded (Timer.step heap) Timer.Spaced (.start k₀) es)
    (ran : run (Timer.step heap) (.start k₀) es = some s) :
    (s.kernel.intr = true → s.Landed → ∃ s', s.step heap .tick = some s' ∧
      (∀ d ∈ s.sleepq, d.ticks ≤ s'.ticks → s.kernel.status d.thread = .Blocked ∧
        d.thread ∉ LawfulSchedule.queued s.kernel.scheduler ∧
        s'.kernel.status d.thread = .Ready ∧
        (LawfulSchedule.queued s'.kernel.scheduler).count d.thread = 1) ∧
      (∀ t, (∀ d ∈ s.sleepq, d.ticks ≤ s'.ticks → d.thread ≠ t) →
        s'.kernel.status t = s.kernel.status t) ∧
      s'.sleepq.Perm (s.sleepq.filter fun d => s'.ticks < d.ticks)) ∧
    (s.sleepq.map SleepData.thread).Nodup ∧
    (∀ rest, s.kernel.frames s.kernel.current = .schedule :: rest →
      (s.step heap .exec).isSome) := by
  have kept : s.Kept := guarded_run_invariant
    (fun _ _ _ => Timer.step_kept) (Timer.start_kept start) meets ran
  refine ⟨?_, kept.nodup, ?_⟩
  · intro enabled landed
    obtain ⟨q, k, hstep, woken, after⟩ := Timer.tick_spec heap kept enabled landed
    refine ⟨_, hstep, ?_, woken.other, woken.perm⟩
    intro d hd due
    have blocked : s.kernel.status d.thread = .Blocked :=
      kept.managed.core.mem_waiters none d.thread
        (Timer.mem_asleep.mpr ⟨⟨d, hd, rfl⟩, (landed d hd due).1⟩)
    have ready : k.status d.thread = .Ready := woken.due d hd due
    refine ⟨blocked, ?_, ready, ?_⟩
    · intro hm
      rw [((kept.managed.core.mem_queue _).mp hm).1] at blocked
      cases blocked
    · refine List.count_eq_one_of_mem after.managed.core.queue_nodup ?_
      refine (after.managed.core.mem_queue _).mpr ⟨ready, ?_⟩
      rintro ⟨u, hu⟩
      -- a thread that is being built is ready, and this one was blocked
      have hu : .registerScheduler d.thread ∈ s.kernel.frames u := by
        rcases Kernel.push_back hu with new | old
        · simp at new
        · rwa [woken.frames] at old
      rw [kept.managed.core.building_ready u _ hu] at blocked
      cases blocked
  · intro rest hf
    rw [Timer.step, Option.isSome_map]
    exact Kernel.step_isSome kept.managed hf rfl

/-- `Initial` sleeps for one tick, and has landed when the timer interrupts `Idle`. -/
def soundSleep : List Timer.Event := [.sleep 1, .mark, .exec, .exec]

/-- Then the tick wakes it. -/
theorem landed_sleeper_woken : ∃ s, run (Timer.step .leftmost) (.start booted) soundSleep = some s ∧
    s.kernel.current = Kernel.idle ∧ s.kernel.status 0 = .Blocked ∧
    ∃ s', s.step .leftmost .tick = some s' ∧ s'.kernel.status 0 = .Ready ∧ s'.sleepq = [] := by
  have ran : ((run (Timer.step .leftmost) (.start booted) soundSleep).map fun s =>
      (s.kernel.current, s.kernel.intr, s.sleepq, s.ticks, decide s.Landed)) =
      some (1, true, [⟨1, 0⟩], 0, true) := by
    decide +kernel
  have meets : Guarded (Timer.step .leftmost) Timer.Spaced (.start booted) soundSleep := by
    decide +kernel
  obtain ⟨s, hs, hview⟩ := Option.map_eq_some_iff.mp ran
  simp only [Prod.mk.injEq, decide_eq_true_eq] at hview
  obtain ⟨idle, enabled, queue, now, landed⟩ := hview
  obtain ⟨s', hs', woken, -, rest⟩ := (sleep_and_tick_apart rfl meets hs).1 enabled landed
  have ticks : s'.ticks = 1 := by
    obtain ⟨-, q, k, -, rfl⟩ := Timer.step_tick hs'
    change s.ticks + 1 = 1
    rw [now]
    rfl
  obtain ⟨blocked, -, ready, -⟩ := woken ⟨1, 0⟩ (by simp [queue]) (by simp [ticks])
  refine ⟨s, hs, idle, blocked, s', hs', ready, ?_⟩
  rw [queue, ticks] at rest
  exact List.perm_nil.mp rest

/-- A tick right after `sleep` has restored interrupts calls `wake_up` on a running thread. -/
theorem early_tick_panics : ¬ ∀ es s, run (Timer.step .leftmost) (.start booted) es = some s →
    s.kernel.intr = true → (s.step .leftmost .tick).isSome := by
  intro claim
  have ran : ((run (Timer.step .leftmost) (.start booted) [.sleep 1]).map fun s =>
      (s.kernel.intr, (s.step .leftmost .tick).isSome)) = some (true, false) := by
    decide +kernel
  obtain ⟨s, hs, hview⟩ := Option.map_eq_some_iff.mp ran
  simp only [Prod.mk.injEq] at hview
  have succeeds := claim [.sleep 1] s hs hview.1
  rw [hview.2] at succeeds
  cases succeeds

/-- A tick between the mark and `schedule` leaves a ready thread for `schedule_tail`. -/
example : ((run (Timer.step .leftmost) (.start booted) [.sleep 1, .mark, .tick]).map fun s =>
    (s.kernel.frames s.kernel.current, (s.step .leftmost .exec).isSome)) =
    some ([.schedule, .schedule], false) := by
  decide +kernel

end Tacos.Thread
