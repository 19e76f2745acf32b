/- GID: Tacos/Thread/Alarm
   generality: I
   source: src/sbi/timer.rs, src/sleepq.rs, src/thread.rs
   digest: Each sleeper is woken once, in the tick that its time comes in. -/

import Tacos.Thread.Timer
import Tacos.Lib.MaxHeap
import Mathlib.Tactic.NormNum

set_option autoImplicit false
set_option relaxedAutoImplicit false

namespace Tacos.Thread

open Tacos.Lib Tacos.Lib.Run

/-- `Ord::cmp`: the entry with the earlier time is the greater one. -/
def SleepData.cmp (a b : SleepData) : Ordering := compare b.ticks a.ticks

/-- `PartialEq::eq`. -/
def SleepData.eq (a b : SleepData) : Bool := a.ticks == b.ticks

theorem SleepData.cmp_eq_iff (a b : SleepData) : a.cmp b = .eq ↔ a.eq b = true := by
  rw [cmp, eq, beq_iff_eq, compare_eq_iff_eq]
  exact eq_comm

/-- `SLEEP_QUEUE`, `TICKS`, the states of the threads, and which threads were woken at which tick.
-/
structure Alarm (heap : MaxHeap SleepData SleepData.cmp) where
  sleepq : heap.Heap
  ticks : Int
  status : Tid → Status
  woken : List (Int × Tid)

/-- The `i64` that `TICKS` holds after so many ticks. -/
def asI64 (n : Nat) : Int := (n : Int).bmod (2 ^ 64)

namespace Alarm

variable {heap : MaxHeap SleepData SleepData.cmp}

/-- A thread calls `sleep`, the timer interrupt comes, or something else changes the states of
threads: a sleeper blocks, others run. -/
inductive Event where
  | sleep (t : Tid) (ticks : Int)
  | tick
  | others (status : Tid → Status)

/-- `wake_up`, up to the registration with the scheduler. -/
def wakeUp (a : Alarm heap) (t : Tid) : Option (Alarm heap) :=
  if a.status t ≠ .Blocked then none
  else
    some { a with
      status := Function.update a.status t .Ready
      woken := a.woken ++ [(a.ticks, t)] }

/-- The loop of `tick`. Each turn takes one entry, so that `fuel` is one more than their number. -/
def wakeDue (now : Int) : (fuel : Nat) → Alarm heap → Option (Alarm heap)
  | 0, _ => none
  | fuel + 1, a =>
    if heap.len a.sleepq ≠ 0 then
      match heap.peek a.sleepq with
      | none => none
      | some top =>
        if top.ticks ≤ now then
          match heap.pop a.sleepq with
          | none => none
          | some (d, rest) => (wakeUp { a with sleepq := rest } d.thread).bind (wakeDue now fuel)
        else some a
    else some a

/-- The end of the run is a panic. -/
def step (a : Alarm heap) : Event → Option (Alarm heap)
  | .sleep t n =>
    if n ≤ 0 then some a
    else if a.ticks + n < 2 ^ 63 then some { a with sleepq := heap.push a.sleepq ⟨a.ticks + n, t⟩ }
    else none
  | .tick =>
    let now := (a.ticks + 1).bmod (2 ^ 64)
    wakeDue now (heap.len a.sleepq + 1) { a with ticks := now }
  | .others status => some { a with status := status }

def start (heap : MaxHeap SleepData SleepData.cmp) (status : Tid → Status) :
    Alarm heap := ⟨heap.empty, 0, status, []⟩

/-- A thread that sleeps does not call `sleep`, the time to wake up at is an `i64`, and all sleepers
are blocked when the timer interrupt comes. -/
def Admissible (a : Alarm heap) : Event → Prop
  | .sleep t n => 0 < n → a.ticks + n < 2 ^ 63 ∧ ∀ d ∈ heap.items a.sleepq, d.thread ≠ t
  | .tick => ∀ d ∈ heap.items a.sleepq, a.status d.thread = .Blocked
  | .others _ => True

/-- A call of `sleep`: which thread is to be woken after how many ticks since the start. -/
structure Registration where
  due : Nat
  thread : Tid

namespace Registration

def entry (r : Registration) : SleepData := ⟨asI64 r.due, r.thread⟩

/-- What is noted when the thread is woken on time. -/
def onTime (r : Registration) : Int × Tid := (asI64 r.due, r.thread)

end Registration

/-- The calls of `sleep` in a list of events that starts after so many ticks. -/
def registrations : (now : Nat) → List Event → List Registration
  | _, [] => []
  | now, .sleep t n :: es =>
    if n ≤ 0 then registrations now es else ⟨now + n.toNat, t⟩ :: registrations now es
  | now, .tick :: es => registrations (now + 1) es
  | now, .others _ :: es => registrations now es

def elapsed : List Event → Nat
  | [] => 0
  | .tick :: es => elapsed es + 1
  | _ :: es => elapsed es

theorem upward_due (now : Int) : MaxHeap.Upward SleepData.cmp fun d => d.ticks ≤ now := by
  intro a b less due
  have order : ¬b.ticks < a.ticks := by
    intro later
    exact less (compare_gt_iff_gt.mpr later)
  change a.ticks ≤ now
  change b.ticks ≤ now at due
  omega

/-- What the loop has done: those whose time has come, and no others, are off the queue, ready and
noted. -/
structure WokenBy (now : Int) (a a' : Alarm heap) (ds : List SleepData) : Prop where
  taken : ds.Perm ((heap.items a.sleepq).filter (·.ticks ≤ now))
  left : (heap.items a'.sleepq).Perm ((heap.items a.sleepq).filter (¬·.ticks ≤ now))
  ticks : a'.ticks = a.ticks
  woken : a'.woken = a.woken ++ ds.map fun d => (a.ticks, d.thread)
  ready : ∀ d ∈ ds, a'.status d.thread = .Ready
  other : ∀ t, (∀ d ∈ ds, d.thread ≠ t) → a'.status t = a.status t

private theorem WokenBy.refl {now : Int} {a : Alarm heap}
    (early : ∀ d ∈ heap.items a.sleepq, ¬d.ticks ≤ now) :
    WokenBy now a a [] := by
  refine ⟨?_, ?_, rfl, (List.append_nil _).symm, fun d hd =>
    absurd hd List.not_mem_nil, fun _ _ => rfl⟩
  · rw [List.filter_eq_nil_iff.mpr fun d hd => by simpa using early d hd]
  · rw [List.filter_eq_self.mpr fun d hd => by simpa using early d hd]

theorem wakeDue_spec (now : Int) {fuel : Nat} {a : Alarm heap}
    (enough : (heap.items a.sleepq).length < fuel)
    (distinct : ((heap.items a.sleepq).map SleepData.thread).Nodup)
    (blocked : ∀ d ∈ heap.items a.sleepq, a.status d.thread = .Blocked) :
    ∃ a' ds, wakeDue now fuel a = some a' ∧ WokenBy now a a' ds := by
  induction fuel generalizing a with
  | zero => omega
  | succ fuel ih =>
    rw [wakeDue]
    by_cases none : heap.items a.sleepq = []
    · rw [if_neg (by rw [heap.len_eq, none]; exact fun h => h rfl)]
      exact ⟨a, [], rfl, .refl fun d hd => by rw [none] at hd; cases hd⟩
    have some_left : heap.len a.sleepq ≠ 0 := by
      rw [heap.len_eq]
      exact fun h => none (List.length_eq_zero_iff.mp h)
    rw [if_pos some_left]
    obtain ⟨top, mem, peeked, above⟩ := heap.peek_spec a.sleepq none
    obtain ⟨d, rest, popped, perm, above'⟩ := heap.pop_spec a.sleepq none
    rw [peeked, popped]
    simp only
    by_cases due : top.ticks ≤ now
    · rw [if_pos due]
      have time : d.ticks ≤ now := MaxHeap.top_holds (upward_due now) above' mem due
      have member : d ∈ heap.items a.sleepq := perm.mem_iff.mp List.mem_cons_self
      obtain ⟨gone, distinct'⟩ :=
        List.nodup_cons.mp ((perm.map SleepData.thread).nodup_iff.mpr distinct)
      have apart : ∀ e ∈ heap.items rest, d.thread ≠ e.thread := fun e he heq =>
        gone (List.mem_map.mpr ⟨e, he, heq.symm⟩)
      have length : (heap.items rest).length < fuel := by
        have := perm.length_eq
        rw [List.length_cons] at this
        omega
      rw [wakeUp, if_neg (show ¬a.status d.thread ≠ .Blocked from fun h => h (blocked d member)),
        Option.bind_some]
      -- The rest of the loop starts after the thread of this entry was woken.
      obtain ⟨a', ds, ran, by_⟩ := ih (a := { a with
          sleepq := rest
          status := Function.update a.status d.thread .Ready
          woken := a.woken ++ [(a.ticks, d.thread)] }) length distinct' (by
        intro e he
        refine (Function.update_of_ne (Ne.symm (apart e he)) _ _).trans (blocked e ?_)
        exact perm.mem_iff.mp (List.mem_cons_of_mem d he))
      refine ⟨a', d :: ds, ran, ?_, ?_, by_.ticks, ?_, ?_, ?_⟩
      · exact (by_.taken.cons d).trans (MaxHeap.filter_taken perm time).symm
      · exact by_.left.trans (MaxHeap.filter_left perm time).symm
      · rw [by_.woken, List.map_cons, List.append_assoc]
        rfl
      · intro e he
        obtain rfl | he := List.mem_cons.mp he
        · rw [by_.other e.thread fun f hf heq =>
            apart f (List.mem_of_mem_filter (by_.taken.mem_iff.mp hf)) heq.symm]
          exact Function.update_self ..
        · exact by_.ready e he
      · intro t out
        rw [by_.other t fun e he => out e (List.mem_cons_of_mem d he)]
        exact Function.update_of_ne (Ne.symm (out d List.mem_cons_self)) _ _
    · rw [if_neg due]
      exact ⟨a, [], rfl, .refl (MaxHeap.top_fails (upward_due now) above due)⟩

theorem asI64_range (n : Nat) : -2 ^ 63 ≤ asI64 n ∧ asI64 n < 2 ^ 63 := by
  have low := Int.le_bmod (x := n) (m := 2 ^ 64) (by norm_num)
  have high := Int.bmod_lt (x := n) (m := 2 ^ 64) (by norm_num)
  norm_num at low high
  exact ⟨low, high⟩

/-- Counting on from one `i64` to another without an overflow. -/
theorem asI64_add {n k : Nat} (fits : asI64 n + k < 2 ^ 63) : asI64 (n + k) = asI64 n + k := by
  have low := (asI64_range n).1
  have whole : (asI64 n + k).bmod (2 ^ 64) = asI64 n + k := by
    apply Int.bmod_eq_of_le
    · norm_num
      omega
    · norm_num
      omega
  rw [← whole]
  unfold asI64
  rw [Int.bmod_add_bmod, Nat.cast_add]

theorem asI64_succ (n : Nat) : (asI64 n + 1).bmod (2 ^ 64) = asI64 (n + 1) := by
  unfold asI64
  rw [Int.bmod_add_bmod, Nat.cast_add, Nat.cast_one]

theorem asI64_zero : asI64 0 = 0 := by
  unfold asI64
  exact Int.zero_bmod

attribute [irreducible] asI64

/-- The calls of `sleep` whose time has not come are the queue, the others were noted on time. -/
structure Keeps (now : Nat) (regs : List Registration) (a : Alarm heap) : Prop where
  ticks : a.ticks = asI64 now
  queue : (heap.items a.sleepq).Perm ((regs.filter (now < ·.due)).map Registration.entry)
  woken : a.woken.Perm ((regs.filter (·.due ≤ now)).map Registration.onTime)
  span : ∀ r ∈ regs, now < r.due → asI64 r.due = asI64 now + (r.due - now : Nat)
  distinct : ((heap.items a.sleepq).map SleepData.thread).Nodup

theorem start_keeps (status : Tid → Status) : Keeps 0 [] (start heap status) := by
  refine ⟨asI64_zero.symm, ?_, List.Perm.refl _, fun r hr => absurd hr List.not_mem_nil, ?_⟩
  · rw [start, heap.items_empty]
    exact List.Perm.refl _
  · rw [start, heap.items_empty]
    exact List.nodup_nil

variable {a a' : Alarm heap} {now : Nat} {regs : List Registration}

theorem sleep_keeps (h : Keeps now regs a) {t : Tid} {n : Int} (pos : 0 < n)
    (fits : a.ticks + n < 2 ^ 63)
    (awake : ∀ d ∈ heap.items a.sleepq, d.thread ≠ t) :
    Keeps now (regs ++ [⟨now + n.toNat, t⟩])
      { a with sleepq := heap.push a.sleepq ⟨a.ticks + n, t⟩ } := by
  have count : (n.toNat : Int) = n := Int.toNat_of_nonneg (le_of_lt pos)
  have later : now < now + n.toNat := by omega
  have due : asI64 (now + n.toNat) = asI64 now + n.toNat :=
    asI64_add (by rw [← h.ticks, count]; exact fits)
  have pushed := heap.items_push a.sleepq ⟨a.ticks + n, t⟩
  have entry : (⟨a.ticks + n, t⟩ : SleepData) = Registration.entry ⟨now + n.toNat, t⟩ := by
    rw [Registration.entry, due, h.ticks, count]
  refine ⟨h.ticks, ?_, ?_, ?_, ?_⟩
  · refine pushed.trans ?_
    rw [List.filter_append, List.filter_cons_of_pos (by simpa using later),
      List.filter_nil, List.map_append,
      List.map_singleton, entry]
    exact (h.queue.cons _).trans (List.perm_append_singleton _ _).symm
  · rw [List.filter_append, List.filter_cons_of_neg (by simpa using pos),
      List.filter_nil, List.append_nil]
    exact h.woken
  · intro r hr after
    obtain hr | hr := List.mem_append.mp hr
    · exact h.span r hr after
    · rw [List.mem_singleton.mp hr, due, Nat.add_sub_cancel_left]
  · refine ((pushed.map SleepData.thread).nodup_iff).mpr
      (List.nodup_cons.mpr ⟨fun hm => ?_, h.distinct⟩)
    obtain ⟨d, hd, heq⟩ := List.mem_map.mp hm
    exact awake d hd heq

/-- What the timer interrupt does: it wakes those whose time this tick is, each once. -/
theorem tick_keeps (h : Keeps now regs a) (blocked : ∀ d ∈ heap.items a.sleepq,
    a.status d.thread = .Blocked) :
    ∃ (a' : Alarm heap) (ts : List Tid), step a .tick = some a' ∧ Keeps (now + 1) regs a' ∧
      a'.woken = a.woken ++ (ts.map fun t => (asI64 (now + 1), t)) ∧
        ts.Perm ((regs.filter (·.due = now + 1)).map Registration.thread) ∧
          (∀ t ∈ ts, a'.status t = .Ready) ∧ ∀ t, t ∉ ts → a'.status t = a.status t := by
  have next : (a.ticks + 1).bmod (2 ^ 64) = asI64 (now + 1) := by rw [h.ticks, asI64_succ]
  obtain ⟨a', ds, ran, by_⟩ := wakeDue_spec (asI64 (now + 1))
    (a := { a with ticks := asI64 (now + 1) })
    (Nat.lt_succ_self _) h.distinct blocked
  -- An entry is due now exactly when its call of `sleep` is.
  have due : ∀ r ∈ regs, now < r.due → (r.entry.ticks ≤ asI64 (now + 1) ↔ r.due ≤ now + 1) := by
    intro r hr after
    have span := h.span r hr after
    have high := (asI64_range r.due).2
    have one : asI64 (now + 1) = asI64 now + 1 := asI64_add (by omega)
    change asI64 r.due ≤ _ ↔ _
    omega
  have split : ∀ (p : SleepData → Bool) (q : Registration → Bool),
    (∀ r ∈ regs, now < r.due → p r.entry = q r) →
      ((heap.items a.sleepq).filter p).Perm
      ((regs.filter fun r => q r && decide (now < r.due)).map Registration.entry) := by
    intro p q same
    refine (h.queue.filter p).trans ?_
    rw [List.filter_map, List.filter_filter]
    refine List.Perm.of_eq (congrArg _ (List.filter_congr fun r hr => ?_))
    by_cases after : now < r.due
    · rw [Function.comp_apply, same r hr after]
    · rw [decide_eq_false after, Bool.and_false, Bool.and_false]
  have taken : ds.Perm ((regs.filter (·.due = now + 1)).map Registration.entry) := by
    refine by_.taken.trans ((split (·.ticks ≤ asI64 (now + 1)) (·.due ≤ now + 1)
      fun r hr after => ?_).trans ?_)
    · exact decide_eq_decide.mpr (due r hr after)
    · refine List.Perm.of_eq (congrArg _ (List.filter_congr fun r _ => ?_))
      rw [← Bool.decide_and]
      exact decide_eq_decide.mpr (by omega)
  have left : (heap.items a'.sleepq).Perm
    ((regs.filter (now + 1 < ·.due)).map Registration.entry) := by
    refine by_.left.trans ((split (¬·.ticks ≤ asI64 (now + 1)) (¬·.due ≤ now + 1)
      fun r hr after => ?_).trans ?_)
    · exact decide_eq_decide.mpr (not_congr (due r hr after))
    · refine List.Perm.of_eq (congrArg _ (List.filter_congr fun r _ => ?_))
      rw [← Bool.decide_and]
      exact decide_eq_decide.mpr (by omega)
  have noted : a'.woken = a.woken ++ ((ds.map SleepData.thread).map
    fun t => (asI64 (now + 1), t)) := by
    rw [by_.woken, List.map_map]
    rfl
  have threads : (ds.map SleepData.thread).Perm
    ((regs.filter (·.due = now + 1)).map Registration.thread) := by
    refine (taken.map _).trans (List.Perm.of_eq ?_)
    rw [List.map_map]
    rfl
  refine ⟨a', ds.map SleepData.thread, ?_, ⟨by_.ticks, left, ?_, ?_, ?_⟩, noted, threads, ?_, ?_⟩
  · rw [step, next]
    simp only [heap.len_eq]
    exact ran
  · -- Those noted now are the ones among all noted whose time this tick is.
    have before : (regs.filter (·.due ≤ now + 1)).filter
      (·.due ≤ now) = regs.filter (·.due ≤ now) := by
      rw [List.filter_filter]
      refine List.filter_congr fun r _ => ?_
      rw [← Bool.decide_and]
      exact decide_eq_decide.mpr (by omega)
    have now_ : (regs.filter (·.due ≤ now + 1)).filter (fun r => !decide (r.due ≤ now)) =
      regs.filter (·.due = now + 1) := by
      rw [List.filter_filter]
      refine List.filter_congr fun r _ => ?_
      rw [← decide_not, ← Bool.decide_and]
      exact decide_eq_decide.mpr (by omega)
    have stamps : ((ds.map SleepData.thread).map fun t => (asI64 (now + 1), t)).Perm
        ((regs.filter (·.due = now + 1)).map Registration.onTime) := by
      refine (threads.map _).trans (List.Perm.of_eq ?_)
      rw [List.map_map]
      refine List.map_congr_left fun r hr => ?_
      rw [Registration.onTime, of_decide_eq_true (List.mem_filter.mp hr).2]
      rfl
    have all := (List.filter_append_perm (·.due ≤ now) (regs.filter (·.due ≤ now + 1))).map
      Registration.onTime
    rw [before, now_, List.map_append] at all
    rw [noted]
    exact (h.woken.append stamps).trans all
  · intro r hr after
    have span := h.span r hr (by omega)
    have high := (asI64_range r.due).2
    have one : asI64 (now + 1) = asI64 now + 1 := asI64_add (by omega)
    omega
  · refine ((by_.left.map SleepData.thread).nodup_iff).mpr ?_
    exact h.distinct.sublist (List.filter_sublist.map _)
  · intro t ht
    obtain ⟨d, hd, rfl⟩ := List.mem_map.mp ht
    exact by_.ready d hd
  · intro t out
    exact by_.other t fun d hd heq => out (List.mem_map.mpr ⟨d, hd, heq⟩)

theorem run_keeps {es : List Event} (h : Keeps now regs a) (meets : Guarded step Admissible a es) :
    ∃ a', run step a es = some a' ∧ Keeps (now + elapsed es) (regs ++ registrations now es) a' := by
  induction es generalizing now regs a with
  | nil =>
    refine ⟨a, rfl, ?_⟩
    rw [registrations, List.append_nil]
    exact h
  | cons e es ih =>
    obtain ⟨admissible, rest⟩ := meets
    cases e with
    | sleep t n =>
      by_cases none : n ≤ 0
      · have same : step a (.sleep t n) = some a := if_pos none
        obtain ⟨a', ran, keeps⟩ := ih h (rest a same)
        refine ⟨a', run_cons.mpr ⟨a, same, ran⟩, ?_⟩
        rw [registrations, if_pos none]
        exact keeps
      · obtain ⟨fits, awake⟩ := admissible (by omega)
        have pushed : step a (.sleep t n) =
          some { a with sleepq := heap.push a.sleepq ⟨a.ticks + n, t⟩ } := by
          rw [step, if_neg none, if_pos fits]
        obtain ⟨a', ran, keeps⟩ := ih (sleep_keeps h (by omega) fits awake) (rest _ pushed)
        refine ⟨a', run_cons.mpr ⟨_, pushed, ran⟩, ?_⟩
        rw [registrations, if_neg none, List.append_cons]
        exact keeps
    | tick =>
      obtain ⟨m, ds, ticked, keeps, -⟩ := tick_keeps h admissible
      obtain ⟨a', ran, keeps⟩ := ih keeps (rest m ticked)
      refine ⟨a', run_cons.mpr ⟨m, ticked, ran⟩, ?_⟩
      rw [registrations, elapsed, Nat.add_comm (elapsed es), ← Nat.add_assoc]
      exact keeps
    | others status =>
      obtain ⟨a', ran, keeps⟩ := ih (a := { a with status := status })
        ⟨h.ticks, h.queue, h.woken, h.span, h.distinct⟩ (rest _ rfl)
      exact ⟨a', run_cons.mpr ⟨_, rfl, ran⟩, keeps⟩

/-- After any admissible run, which never panics, the queue holds the calls of `sleep` whose time is
still to come, and the others were woken, each once, in the tick that their time came in; the next
tick wakes those, and only those, whose time it is. -/
theorem sleepers_wake_on_time {status : Tid → Status} {es : List Event}
    (meets : Guarded step Admissible (start heap status) es) :
    ∃ a, run step (start heap status) es = some a ∧ a.ticks = asI64 (elapsed es) ∧
      (heap.items a.sleepq).Perm
      (((registrations 0 es).filter (elapsed es < ·.due)).map Registration.entry) ∧
      a.woken.Perm (((registrations 0 es).filter (·.due ≤ elapsed es)).map Registration.onTime) ∧
      (Admissible a .tick → ∃ (a' : Alarm heap) (ts : List Tid), step a .tick = some a' ∧
        a'.woken = a.woken ++ (ts.map fun t => (asI64 (elapsed es + 1), t)) ∧
          ts.Perm (((registrations 0 es).filter (·.due = elapsed es + 1)).map Registration.thread) ∧
            (∀ t ∈ ts, a'.status t = .Ready) ∧ ∀ t, t ∉ ts → a'.status t = a.status t) := by
  obtain ⟨a, ran, keeps⟩ := run_keeps (start_keeps status) meets
  rw [Nat.zero_add, List.nil_append] at keeps
  refine ⟨a, ran, keeps.ticks, keeps.queue, keeps.woken, fun admissible => ?_⟩
  obtain ⟨a', ts, ticked, -, woken, threads, ready, other⟩ := tick_keeps keeps admissible
  exact ⟨a', ts, ticked, woken, threads, ready, other⟩

instance (a : Alarm heap) (e : Event) : Decidable (Admissible a e) :=
  match e with
  | .sleep t n => inferInstanceAs
      (Decidable (0 < n → a.ticks + n < 2 ^ 63 ∧ ∀ d ∈ heap.items a.sleepq, d.thread ≠ t))
  | .tick => inferInstanceAs (Decidable (∀ d ∈ heap.items a.sleepq, a.status d.thread = .Blocked))
  | .others _ => .isTrue trivial

/-- Three sleepers, two of them for the same tick. -/
def threeSleepers : List Event :=
  [.sleep 1 2, .sleep 2 1, .sleep 3 2, .others fun _ => .Blocked, .tick, .tick]

end Alarm

def SleepQueue.toHeap (queue : SleepQueue) : MaxHeap SleepData SleepData.cmp where
  Heap := List SleepData
  empty := []
  items := id
  len := List.length
  push h d := d :: h
  peek h := (queue.pop h).map Prod.fst
  pop := queue.pop
  items_empty := rfl
  len_eq _ := rfl
  items_push _ _ := List.Perm.refl _
  peek_spec h some_left := by
    obtain ⟨d, rest, popped, perm, earliest⟩ := queue.pop_spec h some_left
    refine ⟨d, perm.mem_iff.mp List.mem_cons_self, by rw [popped]; rfl, fun e he => ?_⟩
    exact fun later => absurd (compare_gt_iff_gt.mp later) (not_lt.mpr (earliest e he))
  pop_spec h some_left := by
    obtain ⟨d, rest, popped, perm, earliest⟩ := queue.pop_spec h some_left
    refine ⟨d, rest, popped, perm, fun e he => ?_⟩
    exact fun later => absurd (compare_gt_iff_gt.mp later) (not_lt.mpr (earliest e he))

namespace Timer

variable {σ : Type} [Schedule σ] {queue : SleepQueue} {s s' : Timer σ}

/-- The sleepers, the ticks and the states of the threads, with the wake-ups noted so far. -/
def alarm (queue : SleepQueue) (s : Timer σ) (woken : List (Int × Tid)) : Alarm queue.toHeap :=
  ⟨s.sleepq, s.ticks, s.kernel.status, woken⟩

/-- What the sleepers see of an event that leaves the state `s'`. -/
def shown (s s' : Timer σ) : Event → Alarm.Event
  | .sleep n => .sleep s.kernel.current n
  | .tick => .tick
  | _ => .others s'.kernel.status

theorem wakeDue_shown {now : Int} {n : Nat} {q q' : List SleepData} {k k' : Kernel σ}
    (length : q.length = n) (ran : wakeDue queue now n q k = .ok (q', k')) (ticks : Int)
    (woken : List (Int × Tid)) :
    ∃ woken', Alarm.wakeDue now (n + 1) (⟨q, ticks, k.status, woken⟩ : Alarm queue.toHeap) =
      some ⟨q', ticks, k'.status, woken'⟩ := by
  induction n generalizing q k woken with
  | zero =>
    cases ran
    exact ⟨woken, if_neg (not_not.mpr length)⟩
  | succ n ih =>
    have some_left : q ≠ [] := by
      rintro rfl
      cases length
    obtain ⟨d, rest, popped, perm, -⟩ := queue.pop_spec q some_left
    have left : rest.length = n := by
      have := perm.length_eq
      rw [length, List.length_cons] at this
      exact Nat.succ.inj this
    have turn : Alarm.wakeDue now (n + 2) (⟨q, ticks, k.status, woken⟩ : Alarm queue.toHeap) =
        if d.ticks ≤ now then
          (Alarm.wakeUp (⟨rest, ticks, k.status, woken⟩ : Alarm queue.toHeap) d.thread).bind
            (Alarm.wakeDue now (n + 1))
        else some ⟨q, ticks, k.status, woken⟩ := by
      have filled : queue.toHeap.len q ≠ 0 := by
        change q.length ≠ 0
        rw [length]
        exact Nat.succ_ne_zero n
      have peeked : queue.toHeap.peek q = some d := congrArg (Option.map Prod.fst) popped
      rw [Alarm.wakeDue, if_pos filled]
      simp only [peeked, show queue.toHeap.pop q = some (d, rest) from popped]
    simp only [wakeDue, popped] at ran
    rw [turn]
    split at ran
    · rename_i due
      split at ran
      · rename_i k₁ up
        obtain ⟨blocked, r, -, rfl⟩ := Kernel.wakeUp_cases up
        obtain ⟨woken', rest_ran⟩ := ih left ran (woken ++ [(ticks, d.thread)])
        refine ⟨woken', ?_⟩
        rw [if_pos due, Alarm.wakeUp, if_neg (not_not.mpr blocked)]
        exact rest_ran
      · cases ran
    · rename_i early
      cases ran
      exact ⟨woken, if_neg early⟩

theorem ticks_le {e : Event} (hs : s.step queue e = some s') : s.ticks ≤ s'.ticks := by
  cases e with
  | exec =>
    obtain ⟨k, hk, rfl⟩ := Option.map_eq_some_iff.mp hs
    exact le_rfl
  | call c =>
    obtain ⟨k, hk, rfl⟩ := step_call hs
    exact le_rfl
  | sleep n =>
    obtain ⟨-, rfl⟩ | ⟨-, -, -, -, rfl⟩ := step_sleep hs <;> exact le_rfl
  | mark =>
    obtain ⟨-, -, rfl⟩ := step_mark hs
    exact le_rfl
  | tick =>
    obtain ⟨-, q, k, -, rfl⟩ := step_tick hs
    exact le_of_lt (Int.lt_succ s.ticks)

/-- The kernel with its timer does with the sleepers what the queue of sleepers by itself does,
while the ticks fit into an `i64`. -/
theorem step_shown {e : Event} (hs : s.step queue e = some s') (low : 0 ≤ s.ticks)
    (high : s'.ticks < 2 ^ 63) (woken : List (Int × Tid)) :
    ∃ woken', Alarm.step (s.alarm queue woken) (s.shown s' e) = some (s'.alarm queue woken') := by
  cases e with
  | exec =>
    obtain ⟨k, hk, rfl⟩ := Option.map_eq_some_iff.mp hs
    exact ⟨woken, rfl⟩
  | call c =>
    obtain ⟨k, hk, rfl⟩ := step_call hs
    exact ⟨woken, rfl⟩
  | mark =>
    obtain ⟨-, -, rfl⟩ := step_mark hs
    exact ⟨woken, rfl⟩
  | sleep n =>
    refine ⟨woken, ?_⟩
    obtain ⟨none, rfl⟩ | ⟨-, -, pos, fits, rfl⟩ := step_sleep hs
    · exact if_pos none
    · exact (if_neg (by omega)).trans (if_pos fits)
  | tick =>
    obtain ⟨-, q, k, ran, rfl⟩ := step_tick hs
    have wraps : (s.ticks + 1).bmod (2 ^ 64) = s.ticks + 1 := by
      change s.ticks + 1 < 2 ^ 63 at high
      apply Int.bmod_eq_of_le
      · norm_num
        omega
      · norm_num
        omega
    obtain ⟨woken', loop⟩ := wakeDue_shown rfl ran (s.ticks + 1) woken
    refine ⟨woken', ?_⟩
    rw [shown, Alarm.step, alarm, wraps]
    exact loop

/-- What the sleepers see of a run. -/
def shownRun (queue : SleepQueue) : Timer σ → List Event → List Alarm.Event
  | _, [] => []
  | s, e :: es =>
    match s.step queue e with
    | some s' => s.shown s' e :: shownRun queue s' es
    | none => []

theorem run_ticks_le {es : List Event} (ran : run (step queue) s es = some s') :
    s.ticks ≤ s'.ticks := by
  induction es generalizing s with
  | nil =>
    cases ran
    exact le_rfl
  | cons e es ih =>
    obtain ⟨m, first, rest⟩ := run_cons.mp ran
    exact (ticks_le first).trans (ih rest)

theorem run_shown {es : List Event} (ran : run (step queue) s es = some s') (low : 0 ≤ s.ticks)
    (high : s'.ticks < 2 ^ 63) (woken : List (Int × Tid)) :
    ∃ woken', run Alarm.step (s.alarm queue woken) (shownRun queue s es) =
      some (s'.alarm queue woken') := by
  induction es generalizing s woken with
  | nil =>
    cases ran
    exact ⟨woken, rfl⟩
  | cons e es ih =>
    obtain ⟨m, first, rest⟩ := run_cons.mp ran
    obtain ⟨woken₁, shown₁⟩ :=
      step_shown first low ((run_ticks_le rest).trans_lt high) woken
    obtain ⟨woken₂, shown₂⟩ := ih rest (low.trans (ticks_le first)) woken₁
    refine ⟨woken₂, ?_⟩
    rw [shownRun, first]
    exact run_cons.mpr ⟨_, shown₁, shown₂⟩

/-- Timer interrupts come only when all sleepers have landed. -/
def Resting (s : Timer σ) : Event → Prop
  | .tick => ∀ d ∈ s.sleepq, d.thread ∉ s.marking ∧ d.thread ≠ s.kernel.current
  | _ => True

variable [LawfulSchedule σ]

theorem shown_admissible {e : Event} (kept : s.Kept) (resting : s.Resting e)
    (hs : s.step queue e = some s') (woken : List (Int × Tid)) :
    Alarm.Admissible (s.alarm queue woken) (s.shown s' e) := by
  cases e with
  | exec | call | mark => trivial
  | sleep n =>
    intro pos
    obtain ⟨none, -⟩ | ⟨home, -, -, fits, -⟩ := step_sleep hs
    · omega
    · exact ⟨fits, kept.awake home⟩
  | tick =>
    intro d hd
    exact kept.managed.core.mem_waiters none d.thread
      (mem_asleep.mpr ⟨⟨d, hd, rfl⟩, (resting d hd).1⟩)

omit [Schedule σ] [LawfulSchedule σ] in
private theorem Resting.spaced {e : Event} (resting : s.Resting e) : s.Spaced e := by
  cases e with
  | tick => exact fun d hd _ => resting d hd
  | _ => trivial

theorem shownRun_admissible {es : List Event} (kept : s.Kept)
    (meets : Guarded (step queue) Resting s es) (low : 0 ≤ s.ticks)
    (ran : run (step queue) s es = some s') (high : s'.ticks < 2 ^ 63) (woken : List (Int × Tid)) :
    Guarded Alarm.step Alarm.Admissible (s.alarm queue woken) (shownRun queue s es) := by
  induction es generalizing s woken with
  | nil => trivial
  | cons e es ih =>
    obtain ⟨m, first, rest⟩ := run_cons.mp ran
    obtain ⟨resting, after⟩ := meets
    obtain ⟨woken₁, shown₁⟩ := step_shown first low ((run_ticks_le rest).trans_lt high) woken
    rw [shownRun, first]
    refine ⟨shown_admissible kept resting first woken, fun a ha => ?_⟩
    obtain rfl : a = m.alarm queue woken₁ := Option.some.inj (ha.symm.trans shown₁)
    exact ih (step_kept kept resting.spaced first) (after m first)
      (low.trans (ticks_le first)) rest woken₁

/-- In a run of the kernel whose timer interrupts come only when all sleepers have landed, the queue
holds those that called `sleep` and whose time is still to come. -/
theorem sleepq_exact {intr : Bool} {value lockid : Nat → Nat} {k₀ : Kernel σ} {es : List Event}
    (booted : Kernel.init intr value lockid = .ok k₀)
    (meets : Guarded (step queue) Resting (start k₀) es)
    (ran : run (step queue) (start k₀) es = some s) (high : s.ticks < 2 ^ 63) :
    s.sleepq.Perm (((Alarm.registrations 0 (shownRun queue (start k₀) es)).filter
      (Alarm.elapsed (shownRun queue (start k₀) es) < ·.due)).map Alarm.Registration.entry) := by
  obtain ⟨woken, shown⟩ := run_shown ran le_rfl high []
  obtain ⟨a, same, keeps⟩ := Alarm.run_keeps (Alarm.start_keeps k₀.status)
    (shownRun_admissible (start_kept booted) meets le_rfl ran high [])
  obtain rfl : a = s.alarm queue woken := Option.some.inj (same.symm.trans shown)
  rw [Nat.zero_add, List.nil_append] at keeps
  exact keeps.queue

end Timer

/-- The first is woken after one tick and the others after two. -/
theorem Alarm.three_sleepers_woken :
    ∃ a, run Alarm.step (Alarm.start SleepQueue.leftmost.toHeap fun _ => .Running)
    Alarm.threeSleepers = some a ∧ a.woken.Perm [(2, 1), (1, 2), (2, 3)] := by
  have meets : Guarded Alarm.step Alarm.Admissible
    (Alarm.start SleepQueue.leftmost.toHeap fun _ => .Running)
      Alarm.threeSleepers := by decide +kernel
  obtain ⟨a, ran, -, -, woken, -⟩ := Alarm.sleepers_wake_on_time meets
  have stamps : ((Alarm.registrations 0 Alarm.threeSleepers).filter
    (·.due ≤ Alarm.elapsed Alarm.threeSleepers)).map
      Alarm.Registration.onTime = [(2, 1), (1, 2), (2, 3)] := by decide +kernel
  rw [stamps] at woken
  exact ⟨a, ran, woken⟩

end Tacos.Thread
