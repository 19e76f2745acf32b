/- GID: Tacos/Thread/Choice
   generality: I
   source: src/thread/scheduler/priority.rs
   digest: What the priority scheduler chooses, and what it leaves behind, when priorities have
     changed since the threads were registered. -/

import Tacos.Lib.Run
import Tacos.Thread.Scheduler
import Mathlib.Data.Fin.VecNotation
import Mathlib.Data.List.Pairwise

set_option autoImplicit false
set_option relaxedAutoImplicit false

namespace Tacos.Thread

open Tacos.Lib.Run

namespace PriorityScheduler

variable {priority : Tid → Nat} {q q' : PriorityScheduler} {i j : Fin 64}

/-- The threads of a bucket that have its priority, in the order of the deque. -/
def ranked (priority : Tid → Nat) (q : PriorityScheduler) (j : Fin 64) : List Tid :=
  (q.bucket j).filter fun t => priority t = j.val

/-- No thread of this priority is in the bucket of another one. -/
def Settled (priority : Tid → Nat) (q : PriorityScheduler) (j : Fin 64) : Prop :=
  ∀ i, ∀ t ∈ q.bucket i, priority t = j.val → i = j

instance : Decidable (q.Settled priority j) :=
  inferInstanceAs (Decidable (∀ i, ∀ t ∈ q.bucket i, priority t = j.val → i = j))

/-- The threads of the listed buckets that have to go to another one, in the order they are met
in. -/
def moversOf (priority : Tid → Nat) (is : List (Fin 64)) (q : PriorityScheduler) : List Tid :=
  is.flatMap fun i => (q.bucket i).filter fun t => priority t ≠ i.val

def movers (priority : Tid → Nat) (q : PriorityScheduler) : List Tid :=
  moversOf priority (List.finRange 64) q

theorem moversOf_cons (i : Fin 64) (is : List (Fin 64)) : moversOf priority (i :: is) q =
    ((q.bucket i).filter fun t => priority t ≠ i.val) ++ moversOf priority is q :=
  List.flatMap_cons

private theorem filter_other {l : List Tid} (h : i ≠ j) :
    (l.filter fun t => priority t ≠ i.val).filter (fun t => priority t = j.val) =
      l.filter fun t => priority t = j.val := by
  rw [List.filter_filter]
  refine List.filter_congr fun t _ => ?_
  by_cases here : priority t = j.val
  · have differ : priority t ≠ i.val := fun same => h (Fin.ext (same.symm.trans here))
    rw [decide_eq_true here, decide_eq_true differ, Bool.and_self]
  · rw [decide_eq_false here, Bool.false_and]

private theorem filter_own {l : List Tid} :
    (l.filter fun t => priority t ≠ i.val).filter (fun t => priority t = i.val) = [] := by
  rw [List.filter_filter, List.filter_eq_nil_iff]
  intro t _
  simp

/-- Draining a bucket keeps its own threads, and puts each of the others at the end of its bucket.
-/
theorem drain_bucket {xs temp : List Tid} (h : drain priority i xs temp q = .ok q') (j : Fin 64) :
    q'.bucket j = if j = i then temp ++ xs.filter (fun t => priority t = i.val)
      else q.bucket j ++ xs.filter (fun t => priority t = j.val) := by
  induction xs generalizing temp q with
  | nil =>
    cases h
    simp only [Function.update_apply, List.filter_nil, List.append_nil]
  | cons x xs ih =>
    rw [drain] at h
    split at h
    · rename_i stays
      rw [ih h]
      split
      · rw [List.filter_cons_of_pos (by simpa using stays), List.append_assoc,
          List.singleton_append]
      · rename_i differ
        rw [List.filter_cons_of_neg]
        rw [stays, decide_eq_true_eq]
        exact fun same => differ (Fin.ext same.symm)
    · rename_i leaves
      split at h
      · rename_i below
        rw [ih h, List.filter_cons_of_neg (by simpa using leaves)]
        split
        · rfl
        · by_cases here : j = ⟨priority x, below⟩
          · subst here
            dsimp only
            rw [Function.update_self, List.filter_cons_of_pos (by simp), List.append_assoc,
              List.singleton_append]
          · dsimp only
            rw [Function.update_of_ne here, List.filter_cons_of_neg]
            rw [decide_eq_true_eq]
            exact fun same => here (Fin.ext same.symm)
      · cases h

/-- The rebuilt buckets: each keeps its own threads in their order, and gets those that move to
it. -/
theorem updateBuckets_bucket {is : List (Fin 64)} (h : updateBuckets priority is q = .ok q')
    (nodup : is.Nodup) (j : Fin 64) :
    q'.bucket j = (if j ∈ is then q.ranked priority j else q.bucket j) ++
      (moversOf priority is q).filter fun t => priority t = j.val := by
  induction is generalizing q with
  | nil =>
    cases h
    rw [if_neg List.not_mem_nil]
    exact (List.append_nil _).symm
  | cons i is ih =>
    obtain ⟨fresh, rest⟩ := List.nodup_cons.mp nodup
    rw [updateBuckets] at h
    split at h
    · rename_i u hu
      have drained := drain_bucket hu
      have own : u.bucket i = q.ranked priority i := by
        rw [drained, if_pos rfl, List.nil_append, ranked]
      have other : ∀ k, k ≠ i → u.bucket k =
          q.bucket k ++ (q.bucket i).filter fun t => priority t = k.val := by
        intro k differ
        rw [drained, if_neg differ]
        dsimp only
        rw [Function.update_of_ne differ]
      -- what comes to a bucket belongs there, so that the threads to move are the same
      have same : moversOf priority is u = moversOf priority is q := by
        refine List.flatMap_congr fun k hk => ?_
        have differ : k ≠ i := fun eq => fresh (eq ▸ hk)
        have none : ((q.bucket i).filter fun t => priority t = k.val).filter
            (fun t => priority t ≠ k.val) = [] := by
          rw [List.filter_filter, List.filter_eq_nil_iff]
          intro t _
          simp
        rw [other k differ, List.filter_append, none, List.append_nil]
      rw [ih h rest, same, moversOf_cons, List.filter_append]
      by_cases here : j = i
      · subst here
        rw [if_neg fresh, if_pos List.mem_cons_self, own, filter_own, List.nil_append]
      · rw [filter_other (Ne.symm here), ranked, other j here]
        by_cases listed : j ∈ is
        · rw [if_pos listed, if_pos (List.mem_cons_of_mem i listed), List.filter_append,
            List.append_assoc, List.filter_filter]
          simp only [Bool.and_self]
          rfl
        · rw [if_neg listed, if_neg fun hm => (List.mem_cons.mp hm).elim here listed,
            List.append_assoc]
    · cases h

theorem updatePriority_bucket (h : updatePriority priority q = .ok q') (j : Fin 64) :
    q'.bucket j = q.ranked priority j ++ (movers priority q).filter
      fun t => priority t = j.val := by
  rw [updateBuckets_bucket h (List.nodup_finRange 64), if_pos (List.mem_finRange j), movers]

/-- Nobody moves to the bucket of a priority whose threads are all there. -/
theorem Settled.ranked_eq (settled : q.Settled priority j)
    (h : updatePriority priority q = .ok q') : q'.bucket j = q.ranked priority j := by
  have none : ((movers priority q).filter fun t => priority t = j.val) = [] := by
    rw [List.filter_eq_nil_iff]
    intro t moves here
    have here := of_decide_eq_true here
    obtain ⟨i, -, member⟩ := List.mem_flatMap.mp moves
    obtain ⟨member, differ⟩ := List.mem_filter.mp member
    have same := settled i t member here
    subst same
    exact of_decide_eq_true differ here
  rw [updatePriority_bucket h, none, List.append_nil]

/-- The rebuilt buckets, and the bucket that `schedule` looks at. -/
theorem schedule_cases (v : View) (q : PriorityScheduler)
    (bound : ∀ t ∈ queued q, v.priority t ≤ 63) :
    ∃ u, updatePriority v.priority q = .ok u ∧ (queued u).Perm (queued q) ∧
      (∀ i, Clean v.priority u i) ∧
      ((queued q = [] ∧ schedule v q = .ok (none, u)) ∨
        ∃ i t, (u.bucket i).getLast? = some t ∧ t ∈ queued q ∧
          (∀ w ∈ queued q, v.priority w ≤ v.priority t) ∧
          schedule v q = .ok (if v.priority t < v.priority v.current ∧
            v.currentStatus = .Running then (none, u)
            else (some t, ⟨Function.update u.bucket i (u.bucket i).dropLast⟩))) := by
  obtain ⟨u, hu, perm⟩ := updateBuckets_perm v.priority (List.finRange 64) q bound
  have clean : ∀ i, Clean v.priority u i :=
    fun i => updateBuckets_clean hu (.inl (List.mem_finRange i))
  refine ⟨u, hu, perm, clean, ?_⟩
  have unfolded : schedule v q = .ok (choose v (List.finRange 64).reverse u) := by
    simp only [schedule, updatePriority, hu]
  rw [unfolded]
  rcases choose_spec v (List.finRange 64).reverse u with ⟨hall, hnone⟩ |
    ⟨pre, i, post, t, his, hpre, hlast, hnext⟩
  · refine .inl ⟨?_, by rw [hnone]⟩
    have hempty : queued u = [] := by
      apply List.flatMap_eq_nil_iff.mpr
      intro i hi
      exact hall i (List.mem_reverse.mpr hi)
    exact List.nil_perm.mp (hempty ▸ perm)
  · refine .inr ⟨i, t, hlast, ?_, ?_, by rw [hnext]⟩
    · exact perm.mem_iff.mp (List.mem_flatMap.mpr ⟨i, List.mem_finRange i,
        List.mem_of_getLast? hlast⟩)
    · intro w hw
      obtain ⟨j, -, hj⟩ := List.mem_flatMap.mp (perm.mem_iff.mpr hw)
      have hmem : j ∈ (List.finRange 64).reverse := List.mem_reverse.mpr (List.mem_finRange j)
      have sorted : (List.finRange 64).reverse.Pairwise (· > ·) :=
        List.pairwise_reverse.mpr (List.pairwise_lt_finRange 64)
      rw [his] at hmem sorted
      rw [clean j w hj, clean i t (List.mem_of_getLast? hlast)]
      rcases List.mem_append.mp hmem with hj' | hj'
      · rw [hpre j hj'] at hj
        cases hj
      · rcases List.mem_cons.mp hj' with rfl | hj'
        · exact le_rfl
        · exact ((List.pairwise_cons.mp (List.pairwise_append.mp sorted).2.1).1 j hj').le

/-- Rebuilding the buckets gets through only if every thread has a bucket. -/
theorem drain_bound {xs temp : List Tid} (h : drain priority i xs temp q = .ok q') :
    ∀ x ∈ xs, priority x ≤ 63 := by
  induction xs generalizing temp q with
  | nil => exact fun x hx => absurd hx List.not_mem_nil
  | cons x xs ih =>
    rw [drain] at h
    split at h
    · rename_i stays
      exact List.forall_mem_cons.mpr ⟨stays ▸ Nat.le_of_lt_succ i.isLt, ih h⟩
    · split at h
      · rename_i below
        exact List.forall_mem_cons.mpr ⟨Nat.le_of_lt_succ below, ih h⟩
      · cases h

theorem updateBuckets_bound {is : List (Fin 64)} (h : updateBuckets priority is q = .ok q')
    (nodup : is.Nodup) : ∀ k ∈ is, ∀ t ∈ q.bucket k, priority t ≤ 63 := by
  induction is generalizing q with
  | nil => exact fun k hk => absurd hk List.not_mem_nil
  | cons i is ih =>
    obtain ⟨fresh, rest⟩ := List.nodup_cons.mp nodup
    rw [updateBuckets] at h
    split at h
    · rename_i u hu
      refine List.forall_mem_cons.mpr ⟨drain_bound hu, fun k hk t ht => ih h rest k hk t ?_⟩
      have differ : k ≠ i := fun eq => fresh (eq ▸ hk)
      rw [drain_bucket hu, if_neg differ]
      dsimp only
      rw [Function.update_of_ne differ]
      exact List.mem_append_left _ ht
    · cases h

theorem schedule_bound {v : View} {r : Option Tid × PriorityScheduler} (h : schedule v q = .ok r) :
    ∀ t ∈ queued q, v.priority t ≤ 63 := by
  rw [schedule] at h
  split at h
  · rename_i u hu
    intro t ht
    obtain ⟨k, hk, member⟩ := List.mem_flatMap.mp ht
    exact updateBuckets_bound hu (List.nodup_finRange 64) k hk t member
  · cases h

theorem schedule_left {v : View} {next : Option Tid} (bound : ∀ t ∈ queued q, v.priority t ≤ 63)
    (h : schedule v q = .ok (next, q')) : (next.toList ++ queued q').Perm (queued q) := by
  rcases schedule_perm v q bound with ⟨u, done, perm, -⟩ | ⟨t, u, done, perm⟩
  · rw [h] at done
    cases done
    exact perm
  · rw [h] at done
    cases done
    exact perm

theorem choose_sublist (v : View) (is : List (Fin 64)) (i : Fin 64) :
    ((choose v is q).2.bucket i).Sublist (q.bucket i) := by
  rcases choose_spec v is q with ⟨-, none⟩ | ⟨pre, k, post, t, -, -, -, taken⟩
  · rw [none]
  · rw [taken]
    split
    · exact List.Sublist.refl _
    · dsimp only
      by_cases here : i = k
      · subst here
        rw [Function.update_self]
        exact List.dropLast_sublist _
      · rw [Function.update_of_ne here]

theorem schedule_sublist {v : View} {next : Option Tid} (h : schedule v q = .ok (next, q')) :
    ∃ u, updatePriority v.priority q = .ok u ∧ ∀ i, (q'.bucket i).Sublist (u.bucket i) := by
  rw [schedule] at h
  split at h
  · rename_i u hu
    refine ⟨u, hu, fun i => ?_⟩
    have sub := choose_sublist (q := u) v (List.finRange 64).reverse i
    rw [Except.ok.inj h] at sub
    exact sub
  · cases h

/-- A thread that is registered once and is where it belongs does not move. -/
theorem not_mem_movers (distinct : (queued q).Nodup) {t : Tid} (member : t ∈ q.ranked priority j) :
    t ∉ movers priority q := by
  obtain ⟨here, own⟩ := List.mem_filter.mp member
  intro moves
  obtain ⟨i, -, there⟩ := List.mem_flatMap.mp moves
  obtain ⟨there, differ⟩ := List.mem_filter.mp there
  obtain rfl | ne := eq_or_ne i j
  · exact of_decide_eq_true differ (of_decide_eq_true own)
  · have symm : Std.Symm (Function.onFun List.Disjoint q.bucket) := ⟨fun _ _ apart => apart.symm⟩
    have apart := (List.nodup_flatMap.mp distinct).2.forall (List.mem_finRange i)
      (List.mem_finRange j) ne
    exact apart there here

end PriorityScheduler

/-- The scheduler with its history: the registered threads in the order of their registration, and
those of them that `schedule` has moved to another bucket since then, in the order of their last
moves. -/
structure Registry where
  queue : PriorityScheduler
  registered : List Tid
  moved : List Tid

namespace Registry

open PriorityScheduler

/-- The priorities are those at the time of the call. -/
inductive Event where
  | register (priority : Tid → Nat) (t : Tid)
  | schedule (v : View)

def step (r : Registry) : Event → Option Registry
  | .register priority t =>
    if t ∈ r.registered then none
    else
      match PriorityScheduler.register priority r.queue t with
      | .ok q => some { r with queue := q, registered := r.registered ++ [t] }
      | .error _ => none
  | .schedule v =>
    match PriorityScheduler.schedule v r.queue with
    | .ok (next, q) =>
      let moving := movers v.priority r.queue
      some {
        queue := q
        registered := r.registered.filter fun t => some t ≠ next
        moved := (r.moved.filter (· ∉ moving) ++ moving).filter fun t => some t ≠ next }
    | .error _ => none

def start : Registry := ⟨.empty, [], []⟩

/-- In each bucket those that come first, from the back, are the ones that were moved, the last of
them first of all; then those that were not, in the order of their registration. -/
def turns (r : Registry) : List Tid := (r.registered.filter (· ∉ r.moved)).reverse ++ r.moved

/-- `t` was moved, and `w` was not or was moved earlier; or neither was, and `t` was registered
earlier. -/
def Before (r : Registry) (t w : Tid) : Prop :=
  (t ∈ r.moved ∧ (w ∈ r.moved → [w, t].Sublist r.moved)) ∨
    (t ∉ r.moved ∧ w ∉ r.moved ∧ [t, w].Sublist r.registered)

theorem before_of_sublist {r : Registry} {t w : Tid} (h : [w, t].Sublist r.turns) :
    r.Before t w := by
  obtain ⟨front, back, split, first, second⟩ := List.sublist_append_iff.mp h
  match front, split with
  | [], split =>
    rw [List.nil_append] at split
    subst split
    exact .inl ⟨second.subset (List.mem_cons_of_mem w List.mem_cons_self), fun _ => second⟩
  | [_], split =>
    rw [List.singleton_append, List.cons.injEq] at split
    obtain ⟨rfl, rfl⟩ := split
    have unmoved := (List.mem_filter.mp (List.mem_reverse.mp (first.subset List.mem_cons_self))).2
    exact .inl ⟨second.subset List.mem_cons_self, fun moved =>
      absurd moved (of_decide_eq_true unmoved)⟩
  | [_, _], split =>
    rw [List.cons_append, List.singleton_append, List.cons.injEq, List.cons.injEq] at split
    obtain ⟨rfl, rfl, -⟩ := split
    have unmoved : ∀ x ∈ [w, t], x ∉ r.moved := fun x hx =>
      of_decide_eq_true (List.mem_filter.mp (List.mem_reverse.mp (first.subset hx))).2
    refine .inr ⟨unmoved t (List.mem_cons_of_mem w List.mem_cons_self),
      unmoved w List.mem_cons_self, ?_⟩
    have turned : [t, w].Sublist (r.registered.filter (· ∉ r.moved)) :=
      List.reverse_sublist.mp first
    exact turned.trans List.filter_sublist
  | _ :: _ :: _ :: _, split => simp at split

structure Kept (r : Registry) : Prop where
  nodup : r.registered.Nodup
  perm : (queued r.queue).Perm r.registered
  moved : ∀ t ∈ r.moved, t ∈ r.registered
  order : ∀ i, (r.queue.bucket i).Sublist r.turns

variable {r r' : Registry}

private theorem turns_filter (r : Registry) (p : Tid → Bool) :
    turns ⟨r.queue, r.registered.filter p, r.moved.filter p⟩ = r.turns.filter p := by
  simp only [turns, List.filter_append, List.filter_reverse, List.filter_filter]
  congr 2
  refine List.filter_congr fun t _ => ?_
  by_cases h : p t = true <;> simp [h]

private theorem turns_move (r : Registry) (moving : List Tid) :
    turns ⟨r.queue, r.registered, r.moved.filter (· ∉ moving) ++ moving⟩ =
      r.turns.filter (· ∉ moving) ++ moving := by
  simp only [turns, List.filter_append, List.filter_reverse, List.filter_filter, List.append_assoc]
  congr 2
  refine List.filter_congr fun t _ => ?_
  by_cases h : t ∈ moving <;> simp [h]

theorem start_kept : start.Kept := by
  refine ⟨List.nodup_nil, ?_, fun t ht => absurd ht List.not_mem_nil, fun i => List.nil_sublist _⟩
  rw [show queued start.queue = [] from List.flatMap_eq_nil_iff.mpr fun _ _ => rfl]
  exact List.Perm.refl _

private theorem register_kept (h : r.Kept) {priority : Tid → Nat} {t : Tid}
    (fresh : t ∉ r.registered)
    {q : PriorityScheduler} (done : PriorityScheduler.register priority r.queue t = .ok q) :
    Kept { r with queue := q, registered := r.registered ++ [t] } := by
  rw [PriorityScheduler.register] at done
  split at done
  · rename_i below
    cases done
    have unmoved : t ∉ r.moved := fun moved => fresh (h.moved t moved)
    have turned : turns { r with registered := r.registered ++ [t] } = t :: r.turns := by
      rw [turns, turns, List.filter_append, List.filter_singleton]
      simp [unmoved]
    refine ⟨?_, ?_, fun u hu => List.mem_append_left _ (h.moved u hu), ?_⟩
    · exact List.nodup_append.mpr ⟨h.nodup, List.nodup_singleton t, by
        intro a ha b hb
        rw [List.mem_singleton.mp hb]
        exact fun same => fresh (same ▸ ha)⟩
    · have exchange := queued_update r.queue ⟨priority t, below⟩
        (t :: r.queue.bucket ⟨priority t, below⟩)
      have front : (queued ⟨Function.update r.queue.bucket ⟨priority t, below⟩
          (t :: r.queue.bucket ⟨priority t, below⟩)⟩).Perm (t :: queued r.queue) :=
        (List.perm_append_right_iff _).mp (exchange.trans List.perm_middle)
      exact front.trans ((h.perm.cons t).trans (List.perm_append_singleton t _).symm)
    · intro i
      change List.Sublist _ (turns { r with registered := r.registered ++ [t] })
      rw [turned]
      by_cases here : i = ⟨priority t, below⟩
      · subst here
        dsimp only
        rw [Function.update_self]
        exact (h.order _).cons_cons t
      · dsimp only
        rw [Function.update_of_ne here]
        exact (h.order i).cons t
  · cases done

/-- What is left of a list without repetitions when a thread is taken out. -/
private theorem left_perm {next : Option Tid} {l l' : List Tid} (nodup : l.Nodup)
    (perm : (next.toList ++ l').Perm l) : l'.Perm (l.filter fun t => some t ≠ next) := by
  cases next with
  | none =>
    rw [List.filter_eq_self.mpr (by simp)]
    exact perm
  | some x =>
    have once : x ∉ l' := (List.nodup_cons.mp (perm.symm.nodup nodup)).1
    have rest := perm.filter fun t => some t ≠ some x
    have same : l'.filter (fun t => some t ≠ some x) = l' := by
      refine List.filter_eq_self.mpr fun t ht => decide_eq_true ?_
      rintro ⟨⟩
      exact once ht
    rw [Option.toList_some, List.singleton_append, List.filter_cons_of_neg (by simp), same] at rest
    exact rest

/-- The rebuilt buckets are in the order of the turns that the moves leave. -/
private theorem rebuilt_sublist (h : r.Kept) {priority : Tid → Nat} {u : PriorityScheduler}
    (hu : updatePriority priority r.queue = .ok u) (i : Fin 64) :
    (u.bucket i).Sublist (r.turns.filter (· ∉ movers priority r.queue) ++
      movers priority r.queue) := by
  have distinct : (queued r.queue).Nodup := h.perm.symm.nodup h.nodup
  rw [updatePriority_bucket hu]
  refine List.Sublist.append ?_ List.filter_sublist
  have stays : (r.queue.ranked priority i).filter (· ∉ movers priority r.queue) =
      r.queue.ranked priority i :=
    List.filter_eq_self.mpr fun t ht => decide_eq_true (not_mem_movers distinct ht)
  rw [← stays]
  exact (List.filter_sublist.trans (h.order i)).filter _

private theorem schedule_kept (h : r.Kept) {v : View} {next : Option Tid} {q : PriorityScheduler}
    (done : PriorityScheduler.schedule v r.queue = .ok (next, q)) : Kept {
      queue := q
      registered := r.registered.filter fun t => some t ≠ next
      moved := (r.moved.filter (· ∉ movers v.priority r.queue) ++ movers v.priority r.queue).filter
        fun t => some t ≠ next } := by
  obtain ⟨u, hu, taken⟩ := schedule_sublist done
  have order := rebuilt_sublist h hu
  have moves : ∀ t ∈ movers v.priority r.queue, t ∈ r.registered := by
    intro t ht
    obtain ⟨i, hi, member⟩ := List.mem_flatMap.mp ht
    exact h.perm.mem_iff.mp (List.mem_flatMap.mpr ⟨i, hi, List.mem_of_mem_filter member⟩)
  have left : (queued q).Perm (r.registered.filter fun t => some t ≠ next) :=
    left_perm h.nodup ((schedule_left (schedule_bound done) done).trans h.perm)
  refine ⟨h.nodup.filter _, left, ?_, ?_⟩
  · intro t ht
    obtain ⟨member, left⟩ := List.mem_filter.mp ht
    refine List.mem_filter.mpr ⟨?_, left⟩
    rcases List.mem_append.mp member with old | new
    · exact h.moved t (List.mem_of_mem_filter old)
    · exact moves t new
  · intro i
    rw [turns_filter ⟨q, r.registered, _⟩]
    rw [turns_move ⟨q, r.registered, r.moved⟩]
    have kept : (q.bucket i).filter (fun t => some t ≠ next) = q.bucket i := by
      refine List.filter_eq_self.mpr fun t ht => ?_
      have member : t ∈ queued q := List.mem_flatMap.mpr ⟨i, List.mem_finRange i, ht⟩
      exact (List.mem_filter.mp (left.mem_iff.mp member)).2
    rw [← kept]
    exact ((taken i).trans (order i)).filter _

/-- The step lemma. -/
theorem step_kept {e : Event} (h : r.Kept) (hs : r.step e = some r') : r'.Kept := by
  cases e with
  | register priority t =>
    rw [step] at hs
    split at hs
    · cases hs
    · rename_i fresh
      split at hs
      · rename_i q done
        cases hs
        exact register_kept h fresh done
      · cases hs
  | schedule v =>
    rw [step] at hs
    split at hs
    · rename_i next q done
      cases hs
      exact schedule_kept h done
    · cases hs

/-- Every state of the scheduler that holds distinct threads has a history. -/
theorem exists_history (q : PriorityScheduler) (distinct : (queued q).Nodup) :
    ∃ es r, run step start es = some r ∧ r.queue = q := by
  induction count : (queued q).length generalizing q with
  | zero =>
    refine ⟨[], start, rfl, ?_⟩
    have empty := List.flatMap_eq_nil_iff.mp (List.length_eq_zero_iff.mp count)
    obtain ⟨bucket⟩ := q
    exact congrArg PriorityScheduler.mk (funext fun i => (empty i (List.mem_finRange i)).symm)
  | succ n ih =>
    obtain ⟨x, hx⟩ := List.exists_mem_of_length_pos (by omega : 0 < (queued q).length)
    obtain ⟨i, hi, member⟩ := List.mem_flatMap.mp hx
    obtain ⟨t, rest, bucket⟩ := List.exists_cons_of_ne_nil (List.ne_nil_of_mem member)
    have taken : (t :: queued ⟨Function.update q.bucket i rest⟩).Perm (queued q) :=
      Tacos.Lib.Buckets.flatMap_take_perm (List.nodup_finRange 64) hi (List.Perm.of_eq bucket)
    obtain ⟨once, distinct'⟩ := List.nodup_cons.mp (taken.symm.nodup distinct)
    have length := taken.length_eq
    rw [count, List.length_cons] at length
    obtain ⟨es, r, ran, queue⟩ := ih _ distinct' (by omega)
    have kept : r.Kept := run_invariant (fun _ _ _ => step_kept) start_kept ran
    have fresh : t ∉ r.registered := by
      rw [← kept.perm.mem_iff, queue]
      exact once
    -- the thread at the front of a bucket is the one that was registered last
    have back : Function.update (Function.update q.bucket i rest) i (t :: rest) = q.bucket := by
      rw [Function.update_idem, ← bucket, Function.update_eq_self]
    have registered : PriorityScheduler.register (fun _ => i.val) r.queue t = .ok q := by
      rw [queue, PriorityScheduler.register, dif_pos i.isLt]
      dsimp only
      rw [Function.update_self, back]
    have stepped : r.step (.register (fun _ => i.val) t) =
        some { r with queue := q, registered := r.registered ++ [t] } := by
      rw [step, if_neg fresh, registered]
    exact ⟨es ++ [.register (fun _ => i.val) t], _,
      run_append.mpr ⟨r, ran, run_cons.mpr ⟨_, stepped, rfl⟩⟩, rfl⟩

theorem Kept.before_last (h : r.Kept) {priority : Tid → Nat} {i : Fin 64} {t w : Tid}
    (last : (r.queue.ranked priority i).getLast? = some t) (member : w ∈ r.queue.ranked priority i)
    (ne : w ≠ t) : r.Before t w := by
  have split := List.dropLast_append_getLast? t last
  have front : w ∈ (r.queue.ranked priority i).dropLast := by
    rw [← split] at member
    exact (List.mem_append.mp member).resolve_right fun hm => ne (List.mem_singleton.mp hm)
  have pair : ([w] ++ [t]).Sublist ((r.queue.ranked priority i).dropLast ++ [t]) :=
    (List.singleton_sublist.mpr front).append (List.Sublist.refl [t])
  rw [split] at pair
  have ordered : (r.queue.ranked priority i).Sublist r.turns :=
    List.filter_sublist.trans (h.order i)
  exact before_of_sublist (pair.trans ordered)

end Registry

namespace PriorityScheduler

/-- With distinct threads in whatever buckets, `schedule` chooses nobody when there is nobody or
the running thread ranks above all, else a thread of the highest rank; it leaves every other
thread once, in the bucket of its priority. If no thread of the highest rank is in a wrong bucket,
the one at the back of theirs is chosen and the others keep their order. Whatever history led to
the state, of those that an earlier call moved the chosen one was moved last, and where none was
it was registered first. -/
theorem schedule_with_stale_buckets (v : View) (q : PriorityScheduler) (distinct : (queued q).Nodup)
    (bound : ∀ t ∈ queued q, v.priority t ≤ 63) :
    ∃ next q', schedule v q = .ok (next, q') ∧
      (next = none ↔ queued q = [] ∨
        (v.currentStatus = .Running ∧ ∀ t ∈ queued q, v.priority t < v.priority v.current)) ∧
      (∀ t, next = some t → t ∈ queued q ∧ ∀ w ∈ queued q, v.priority w ≤ v.priority t) ∧
      (queued q').Nodup ∧ (∀ w, w ∈ queued q' ↔ w ∈ queued q ∧ next ≠ some w) ∧
      (∀ i, ∀ w ∈ q'.bucket i, v.priority w = i.val) ∧
      ∀ t, next = some t → ∀ i : Fin 64, i.val = v.priority t → q.Settled v.priority i →
        (q.ranked v.priority i).getLast? = some t ∧ q'.bucket i = (q.ranked v.priority i).dropLast ∧
          (∃ es r, run Registry.step .start es = some r ∧ r.queue = q) ∧
            ∀ es r, run Registry.step .start es = some r → r.queue = q →
              ∀ w ∈ q.ranked v.priority i, w ≠ t → r.Before t w := by
  obtain ⟨u, hu, perm, clean, ⟨empty, done⟩ | ⟨i, t, hlast, ht, top, done⟩⟩ :=
    schedule_cases v q bound
  · refine ⟨none, u, done, iff_of_true rfl (.inl empty), ?_,
      perm.symm.nodup distinct, ?_, clean, ?_⟩
    · intro t ht
      cases ht
    · intro w
      rw [perm.mem_iff]
      simp
    · intro t ht
      cases ht
  · by_cases keep : v.priority t < v.priority v.current ∧ v.currentStatus = .Running
    · rw [if_pos keep] at done
      refine ⟨none, u, done, iff_of_true rfl (.inr ⟨keep.2, ?_⟩), ?_,
        perm.symm.nodup distinct, ?_, clean, ?_⟩
      · intro w hw
        exact (top w hw).trans_lt keep.1
      · intro t ht
        cases ht
      · intro w
        rw [perm.mem_iff]
        simp
      · intro t ht
        cases ht
    · rw [if_neg keep] at done
      have left : (t :: queued ⟨Function.update u.bucket i (u.bucket i).dropLast⟩).Perm
        (queued q) := by
        rcases schedule_perm v q bound with ⟨q', nobody, -⟩ | ⟨t', q', somebody, rest⟩
        · rw [done] at nobody
          cases nobody
        · rw [done] at somebody
          cases somebody
          exact rest
      have once := List.nodup_cons.mp (left.symm.nodup distinct)
      refine ⟨some t, _, done, iff_of_false (by simp) ?_, ?_, once.2, ?_, ?_, ?_⟩
      · rintro (empty | ⟨running, above⟩)
        · rw [empty] at ht
          cases ht
        · exact keep ⟨above t ht, running⟩
      · intro w hw
        cases hw
        exact ⟨ht, top⟩
      · intro w
        rw [← left.mem_iff, List.mem_cons]
        constructor
        · intro hw
          refine ⟨.inr hw, ?_⟩
          intro same
          cases same
          exact once.1 hw
        · rintro ⟨rfl | hw, differ⟩
          · exact absurd rfl differ
          · exact hw
      · intro j
        refine Clean.update (fun _ => clean j) ?_
        intro w hw
        exact clean i w (List.mem_of_mem_dropLast hw)
      · intro w hw j hj settled
        cases hw
        obtain rfl : i = j := Fin.ext ((clean i t (List.mem_of_getLast? hlast)).symm.trans hj.symm)
        have same : u.bucket i = q.ranked v.priority i := settled.ranked_eq hu
        rw [same] at hlast ⊢
        refine ⟨hlast, Function.update_self .., Registry.exists_history q distinct, ?_⟩
        rintro es r ran rfl other member ne
        have kept : r.Kept :=
          run_invariant (fun _ _ _ => Registry.step_kept) Registry.start_kept ran
        exact kept.before_last hlast member ne

/-- Three threads in bucket 5, of which one has been raised to 9 and one lowered to 2. -/
def stale : PriorityScheduler := ⟨Function.update (fun _ => []) 5 [1, 2, 3]⟩

theorem stale_buckets_sorted :
    (∀ t ∈ queued stale, (![0, 5, 9, 2] : Fin 4 → Nat) (Fin.ofNat 4 t) ≤ 63) ∧
    ∃ next q', schedule ⟨fun t => (![0, 5, 9, 2] : Fin 4 → Nat) (Fin.ofNat 4 t), 0,
      .Running⟩ stale = .ok (next, q') ∧
      (∀ t, next = some t → t ∈ queued stale) ∧ (queued q').Nodup := by
  have bound : ∀ t ∈ queued stale, (![0, 5, 9, 2] : Fin 4 → Nat)
    (Fin.ofNat 4 t) ≤ 63 := by decide +kernel
  obtain ⟨next, q', done, -, chosen, once, -⟩ := schedule_with_stale_buckets
    ⟨fun t => (![0, 5, 9, 2] : Fin 4 → Nat) (Fin.ofNat 4 t), 0, .Running⟩ stale
    (by decide +kernel) bound
  exact ⟨bound, next, q', done, fun t ht => (chosen t ht).1, once⟩

/-- Thread 1 is registered at 9 and thread 2 at 5; thread 2 is raised to 9, and a call of `schedule`
by a thread of priority 63 moves it to the bucket of thread 1. -/
def raisedBehind : List Registry.Event :=
  [.register (fun _ => 9) 1, .register (fun _ => 5) 2,
    .schedule ⟨fun t => if t = 0 then 63 else 9, 0, .Running⟩]

/-- The next call chooses thread 2, although both are where they belong by then. -/
theorem later_registered_chosen : ¬ ∀ es r, run Registry.step .start es = some r →
    ∀ v t q', schedule v r.queue = .ok (some t, q') → ∀ i : Fin 64, i.val = v.priority t →
      r.queue.Settled v.priority i → ∀ w ∈ r.queue.ranked v.priority i, w ≠ t →
        [t, w].Sublist r.registered := by
  intro claim
  let v : View := ⟨fun _ => 9, 0, .Blocked⟩
  have ran : ((run Registry.step .start raisedBehind).map fun r =>
      (r.registered, r.queue.ranked v.priority 9, decide (r.queue.Settled v.priority 9),
        (schedule v r.queue).toOption.map Prod.fst)) =
      some ([1, 2], [1, 2], true, some (some 2)) := by
    decide +kernel
  obtain ⟨r, hr, hview⟩ := Option.map_eq_some_iff.mp ran
  simp only [Prod.mk.injEq, decide_eq_true_eq] at hview
  obtain ⟨registered, both, settled, chosen⟩ := hview
  obtain ⟨⟨next, q'⟩, done, two⟩ := Option.map_eq_some_iff.mp chosen
  cases two
  cases taken : schedule v r.queue with
  | error p =>
    rw [taken] at done
    cases done
  | ok a =>
    rw [taken] at done
    cases done
    have first := claim _ r hr v 2 q' taken 9 rfl settled 1 (by rw [both]; decide) (by decide)
    rw [registered] at first
    exact absurd first (by decide)

end PriorityScheduler

end Tacos.Thread
