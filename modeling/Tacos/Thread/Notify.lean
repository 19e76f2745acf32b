/- GID: Tacos/Thread/Notify
   generality: I
   source: src/sync/condvar.rs, src/sync/sema.rs, src/sync/mutex.rs, src/sync/sleep.rs
   digest: When the waiter that a notification chooses has the highest priority of the waiters. -/

import Tacos.Thread.Condvar

set_option autoImplicit false
set_option relaxedAutoImplicit false

namespace Tacos.Thread

open Tacos.Lib.Run

/-- The entries of the queue whose priorities the notifier relies on. -/
def CvPc.seen (queue : List Nat) : CvPc → List Nat
  | .scan c | .entry c | .waitq c _ | .waitqHeld c _ => queue.take c.i
  | .load c _ w | .loadHeld c _ w => queue.take (c.i + w.i)
  | .remove _ | .removing _ => queue
  | .upOne n => n :: queue
  | _ => []

/-- The entry of the queue whose semaphore the notifier is about to read. -/
def CvPc.comesTo : CvPc → Option Nat
  | .waitq _ n => some n
  | _ => none

namespace Monitor

/-- The owner of the semaphore that `notify_one` is about to raise has a priority as high as that
of the owner of each semaphore in the queue. -/
def WakesHighest (s : Monitor) : Prop :=
  ∀ t n, s.pc t = .upOne n → ∃ u, (s.pc u).owns = some n ∧
    ∀ m ∈ s.queue, ∀ v, (s.pc v).owns = some m → s.priority v ≤ s.priority u

/-- The notifier finds each waiter blocked when it comes to its entry, and the priority of the
waiter stays as it was read until the semaphore is raised. -/
def Attended (s : Monitor) (e : CvEvent) : Prop :=
  match e with
  | .exec t =>
    match s.pc t with
    | .waitq _ n => (s.sema n).waiters ≠ []
    | _ => True
  | .setPriority u _ => ∀ n ∈ s.holderPc.seen s.queue, s.pc u ≠ .blocked n
  | _ => True

theorem attended_exec_iff (s : Monitor) (t : Tid) :
    (∀ n ∈ (s.pc t).comesTo, (s.sema n).waiters ≠ []) ↔ s.Attended (.exec t) := by
  unfold Attended
  dsimp only
  cases s.pc t <;> simp [CvPc.comesTo]

instance (s : Monitor) : (e : CvEvent) → Decidable (s.Attended e)
  | .exec t => decidable_of_iff _ (s.attended_exec_iff t)
  | .setPriority u _ => inferInstanceAs (Decidable (∀ n ∈ s.holderPc.seen s.queue,
    s.pc u ≠ .blocked n))
  | .lock _ | .unlock _ | .wait _ | .notifyOne _ | .notifyAll _ => .isTrue trivial

/-- A thread of priority `p` is blocked in the semaphore. -/
def Waits (s : Monitor) (n p : Nat) : Prop := ∃ u, s.pc u = .blocked n ∧ s.priority u = p

/-- The thread in the semaphore has a priority as high as those in the queue. -/
def Highest (s : Monitor) (n : Nat) : Prop := ∃ p, s.Waits n p ∧
    ∀ m ∈ s.queue, ∃ q, s.Waits m q ∧ q ≤ p

/-- The loop of `notify_one` before its turn for the entry `i`. -/
structure Best (s : Monitor) (c : Scan) : Prop where
  le : ∀ j n, j < c.i → s.queue[j]? = some n → ∃ q, s.Waits n q ∧ q ≤ c.maxPriority
  chosen : (c.i = 0 ∧ c.maxPriority = 0) ∨
    (c.chosenIndex < c.i ∧ ∃ n, s.queue[c.chosenIndex]? = some n ∧ s.Waits n c.maxPriority)

/-- What the notifier knows about the priorities. -/
def Watched (s : Monitor) : CvPc → Prop
  | .scan c | .entry c => s.Best c
  | .waitq c n => s.Best c ∧ s.queue[c.i]? = some n
  | .waitqHeld c n => s.Best c ∧ s.queue[c.i]? = some n ∧ ∃ p, s.Waits n p
  | .load c n w | .loadHeld c n w =>
    s.Best c ∧ s.queue[c.i]? = some n ∧ w.waitqlen = 1 ∧
      ∃ p, s.Waits n p ∧ ((w.i = 0 ∧ w.maxPriority = 0) ∨ (w.i = 1 ∧ w.maxPriority = p))
  | .remove k | .removing k => s.queue = [] ∨ ∃ n, s.queue[k]? = some n ∧ s.Highest n
  | .upOne n => s.Highest n
  | _ => True

/-- What holds in every state of a run in which the waiters are attended to. -/
structure Heeded (s : Monitor) : Prop where
  inv : s.Inv
  watched : s.Watched s.holderPc

variable {s s' : Monitor} {t : Tid} {p : CvPc}

theorem Watched.outside (out : p.inMonitor = false) : s.Watched p := by
  cases p <;> trivial

/-- What a step leaves alone that does not touch the queue or the waiters in it that were read. -/
structure Steady (s s' : Monitor) (p : CvPc) : Prop where
  queue : s'.queue = s.queue
  blocked : ∀ u n, s.pc u = .blocked n → s'.pc u = .blocked n
  priority : ∀ n ∈ p.seen s.queue, ∀ u, s.pc u = .blocked n → s'.priority u = s.priority u

theorem Steady.waits (steady : s.Steady s' p) {n q : Nat} (seen : n ∈ p.seen s.queue)
    (waits : s.Waits n q) :
    s'.Waits n q := by
  obtain ⟨u, sleeping, rfl⟩ := waits
  exact ⟨u, steady.blocked u n sleeping, steady.priority n seen u sleeping⟩

theorem Steady.best {c : Scan} (steady : s.Steady s' p)
    (seen : ∀ j n, j < c.i → s.queue[j]? = some n → n ∈ p.seen s.queue)
    (best : s.Best c) : s'.Best c := by
  constructor
  · intro j n before at_j
    rw [steady.queue] at at_j
    obtain ⟨q, waits, le⟩ := best.le j n before at_j
    exact ⟨q, steady.waits (seen j n before at_j) waits, le⟩
  · refine best.chosen.imp_right ?_
    rintro ⟨before, n, at_k, waits⟩
    exact ⟨before, n, steady.queue ▸ at_k, steady.waits (seen _ n before at_k) waits⟩

theorem Steady.highest {n : Nat} (steady : s.Steady s' p) (mine : n ∈ p.seen s.queue)
    (seen : ∀ m ∈ s.queue, m ∈ p.seen s.queue) (highest : s.Highest n) : s'.Highest n := by
  obtain ⟨q, waits, others⟩ := highest
  refine ⟨q, steady.waits mine waits, fun m hm => ?_⟩
  rw [steady.queue] at hm
  obtain ⟨r, also, le⟩ := others m hm
  exact ⟨r, steady.waits (seen m hm) also, le⟩

/-- A thread that was blocked in a semaphore still is, whatever its priority. -/
theorem Steady.still (steady : s.Steady s' p) {n q : Nat} (waits : s.Waits n q) :
    ∃ r, s'.Waits n r := by
  obtain ⟨u, sleeping, -⟩ := waits
  exact ⟨s'.priority u, u, steady.blocked u n sleeping, rfl⟩

private theorem mem_take {queue : List Nat} {i j n : Nat} (before : j < i)
    (at_j : queue[j]? = some n) :
    n ∈ queue.take i := by
  refine List.mem_of_getElem? (i := j) ?_
  rw [List.getElem?_take, if_pos before, at_j]

theorem Watched.steady (known : s.Watched p) (steady : s.Steady s' p) : s'.Watched p := by
  cases p with
  | scan c => exact steady.best (fun j n => mem_take) known
  | entry c => exact steady.best (fun j n => mem_take) known
  | waitq c n =>
    obtain ⟨best, at_i⟩ := known
    exact ⟨steady.best (fun j n => mem_take) best, steady.queue ▸ at_i⟩
  | waitqHeld c n =>
    obtain ⟨best, at_i, q, waits⟩ := known
    exact ⟨steady.best (fun j n => mem_take) best, steady.queue ▸ at_i, steady.still waits⟩
  | load c n w =>
    obtain ⟨best, at_i, one, q, waits, read⟩ := known
    refine ⟨steady.best (fun j n before => mem_take (Nat.lt_add_right _ before)) best,
      steady.queue ▸ at_i, one, ?_⟩
    rcases read with unread | ⟨read, max⟩
    · exact (steady.still waits).imp fun r waits => ⟨waits, .inl unread⟩
    · exact ⟨q, steady.waits (mem_take (by omega) at_i) waits, .inr ⟨read, max⟩⟩
  | loadHeld c n w =>
    obtain ⟨best, at_i, one, q, waits, read⟩ := known
    refine ⟨steady.best (fun j n before => mem_take (Nat.lt_add_right _ before)) best,
      steady.queue ▸ at_i, one, ?_⟩
    rcases read with unread | ⟨read, max⟩
    · exact (steady.still waits).imp fun r waits => ⟨waits, .inl unread⟩
    · exact ⟨q, steady.waits (mem_take (by omega) at_i) waits, .inr ⟨read, max⟩⟩
  | remove k =>
    refine known.imp (steady.queue ▸ ·) ?_
    rintro ⟨n, at_k, highest⟩
    exact ⟨n, steady.queue ▸ at_k, steady.highest (List.mem_of_getElem? at_k) (fun _ => id) highest⟩
  | removing k =>
    refine known.imp (steady.queue ▸ ·) ?_
    rintro ⟨n, at_k, highest⟩
    exact ⟨n, steady.queue ▸ at_k, steady.highest (List.mem_of_getElem? at_k) (fun _ => id) highest⟩
  | upOne n => exact steady.highest List.mem_cons_self (fun m => List.mem_cons_of_mem n) known
  | _ => trivial

/-- A turn of the loop of `notify_one`. -/
theorem Best.turn {c d : Scan} {n q : Nat} (best : s.Best c)
    (at_i : s.queue[c.i]? = some n) (waits : s.Waits n q)
    (turned : d = if c.maxPriority ≤
      q then { c with maxPriority := q, chosenIndex := c.i } else c) :
    s.Best { d with i := d.i + 1 } := by
  split at turned <;> subst turned
  · rename_i higher
    refine ⟨fun j m before at_j => ?_, .inr ⟨Nat.lt_succ_self _, n, at_i, waits⟩⟩
    by_cases last : j = c.i
    · rw [last, at_i] at at_j
      cases at_j
      exact ⟨q, waits, Nat.le_refl _⟩
    · obtain ⟨r, also, le⟩ := best.le j m (by dsimp only at before; omega) at_j
      exact ⟨r, also, le.trans higher⟩
  · constructor
    · intro j m before at_j
      by_cases last : j = d.i
      · rw [last, at_i] at at_j
        cases at_j
        exact ⟨q, waits, by dsimp only; omega⟩
      · exact best.le j m (by dsimp only at before; omega) at_j
    · rcases best.chosen with ⟨-, zero⟩ | ⟨before, chosen⟩
      · omega
      · exact .inr ⟨Nat.lt_succ_of_lt before, chosen⟩

/-- The loop of `notify_one` has come to its end. -/
theorem Best.last {c : Scan} (best : s.Best c) (all : s.queue.length ≤ c.i)
    (within : c.chosenIndex < s.queue.length) :
    ∃ n, s.queue[c.chosenIndex]? = some n ∧ s.Highest n := by
  have chosen := best.chosen.resolve_left fun none => by omega
  obtain ⟨-, n, at_k, waits⟩ := chosen
  refine ⟨n, at_k, c.maxPriority, waits, fun m hm => ?_⟩
  obtain ⟨j, at_j⟩ := List.mem_iff_getElem?.mp hm
  exact best.le j m (by have := (List.getElem?_eq_some_iff.mp at_j).1; omega) at_j

theorem Waits.alone {n q : Nat} (semas : s.Semas) (waits : s.Waits n q) :
    ∃ u, (s.sema n).waiters = [u] ∧ s.priority u = q := by
  obtain ⟨u, sleeping, priority⟩ := waits
  obtain ⟨k, at_k⟩ := List.mem_iff_getElem?.mp ((semas.waiters n u).mpr sleeping)
  exact ⟨u, (semas.alone at_k).1, priority⟩

theorem Semas.waits (semas : s.Semas) {n : Nat} (some : (s.sema n).waiters ≠ []) :
    ∃ q, s.Waits n q := by
  obtain ⟨u, hu⟩ := List.exists_mem_of_ne_nil _ some
  exact ⟨s.priority u, u, (semas.waiters n u).mp hu, rfl⟩

/-- A thread goes to `q`, and the mutex, the queue and the priorities stay. -/
structure Moves (s s' : Monitor) (t : Tid) (q : CvPc) : Prop where
  pc : s'.pc = Function.update s.pc t q
  owner : s'.owner = s.owner
  queue : s'.queue = s.queue
  priority : s'.priority = s.priority

/-- A thread goes to a place where it relies on no waiter, and takes or gives up the mutex at most
itself. -/
structure Strides (s s' : Monitor) (t : Tid) (q : CvPc) : Prop where
  pc : s'.pc = Function.update s.pc t q
  owner : s'.owner = s.owner ∨ s'.owner = some t ∨ s'.owner = none
  queue : s'.queue = s.queue
  priority : s'.priority = s.priority
  blind : s'.Watched q

theorem steady_of_pc {q : CvPc} (pc : s'.pc = Function.update s.pc t q) (queue : s'.queue = s.queue)
    (priority : s'.priority = s.priority) (awake : ∀ n, s.pc t ≠ .blocked n) : s.Steady s' p := by
  refine ⟨queue, fun u n sleeping => ?_, fun _ _ u _ => by rw [priority]⟩
  rw [pc, Function.update_of_ne]
  · exact sleeping
  · rintro rfl
    exact awake n sleeping

theorem Moves.steady {q : CvPc} (moves : s.Moves s' t q)
    (awake : ∀ n, s.pc t ≠ .blocked n) : s.Steady s' p :=
  steady_of_pc moves.pc moves.queue moves.priority awake

theorem borrow_moves (calm : (s.borrow t p).panicked = none) : s.Moves (s.borrow t p) t p := by
  unfold borrow at calm ⊢
  split at calm
  · cases calm
  · rename_i free
    rw [if_neg free]
    exact ⟨rfl, rfl, rfl, rfl⟩

theorem borrowMut_moves (calm : (s.borrowMut t p).panicked = none) :
    s.Moves (s.borrowMut t p) t p := by
  unfold borrowMut at calm ⊢
  split at calm
  · cases calm
  · rename_i free
    rw [if_neg free]
    exact ⟨rfl, rfl, rfl, rfl⟩

theorem grasp_strides {mutably : Bool} (blind : ∀ s' : Monitor, s'.Watched p) :
    (∃ m, s.grasp t mutably p = s.panic m) ∨ ∃ q, s.Strides (s.grasp t mutably p) t q := by
  unfold grasp
  split
  · exact .inl ⟨.borrow, rfl⟩
  · exact .inr ⟨p, rfl, .inl rfl, rfl, rfl, blind _⟩

theorem enter_strides {x : Entry} (entered : s.enter t x = some s') :
    (∃ m, s' = s.panic m) ∨ ∃ q, s.Strides s' t q := by
  cases x with
  | test =>
    cases entered
    exact grasp_strides fun _ => trivial
  | testHeld =>
    cases entered
    exact .inr ⟨_, rfl, .inl rfl, rfl, rfl, by split <;> trivial⟩
  | again =>
    cases entered
    exact grasp_strides fun _ => trivial
  | againHeld =>
    cases entered
    split
    · exact .inr ⟨_, rfl, .inl rfl, rfl, rfl, trivial⟩
    · exact .inl ⟨.unwrap, rfl⟩
  | down =>
    rw [enter] at entered
    split at entered
    · cases entered
    · cases entered
      exact .inr ⟨_, rfl, .inr (.inl rfl), rfl, rfl, trivial⟩
  | write =>
    cases entered
    exact grasp_strides fun _ => trivial
  | writeHeld =>
    cases entered
    exact .inr ⟨_, rfl, .inl rfl, rfl, rfl, trivial⟩

theorem leave_strides {x : Leave} {n : Option Nat} :
    (∃ m, s.leave t n x = s.panic m) ∨ ∃ q, s.Strides (s.leave t n x) t q := by
  cases x with
  | check => exact grasp_strides fun _ => trivial
  | checkHeld =>
    rw [leave]
    split
    · exact .inr ⟨_, rfl, .inl rfl, rfl, rfl, trivial⟩
    · exact .inl ⟨.abort, rfl⟩
  | take => exact grasp_strides fun _ => trivial
  | takeHeld =>
    rw [leave]
    split
    · exact .inr ⟨_, rfl, .inl rfl, rfl, rfl, trivial⟩
    · exact .inl ⟨.abort, rfl⟩
  | up => exact .inr ⟨_, rfl, .inr (.inr rfl), rfl, rfl, trivial⟩
  | yield => exact .inr ⟨_, rfl, .inl rfl, rfl, rfl, by cases n <;> trivial⟩

theorem downTurn_strides {n : Nat} :
    (∃ m, s.downTurn t n = s.panic m) ∨ ∃ q, s.Strides (s.downTurn t n) t q := by
  simp only [downTurn]
  split
  · split
    · exact .inl ⟨.borrow, rfl⟩
    · exact .inr ⟨.blocked n, rfl, .inl rfl, rfl, rfl, trivial⟩
  · exact .inr ⟨.acquire .test, rfl, .inl rfl, rfl, rfl, trivial⟩

theorem up_arrives {n : Nat} (calm : (s.up t n p).panicked = none) :
    (s.up t n p).owner = s.owner ∧ (s.up t n p).pc t = p := by
  revert calm
  simp only [up]
  split
  · exact fun _ => ⟨rfl, Function.update_self ..⟩
  · split
    · exact fun calm => by cases calm
    split
    · exact fun calm => by cases calm
    split
    · exact fun calm => by cases calm
    split
    · exact fun _ => ⟨rfl, Function.update_self ..⟩
    · exact fun calm => by cases calm

namespace Heeded

/-- A panic leaves the queue, the places and the priorities as they were. -/
theorem panics (heeded : s.Heeded) (m : Mishap) : (s.panic m).Watched (s.panic m).holderPc :=
  heeded.watched.steady ⟨rfl, fun _ _ => id, fun _ _ _ _ => rfl⟩

/-- The thread that has the mutex comes to `q`. -/
theorem arrives {q : CvPc} (heeded : s.Heeded) (inside : (s.pc t).inMonitor = true)
    (owner : s'.owner = s.owner)
    (there : s'.pc t = q) (known : s'.Watched q) : s'.Watched s'.holderPc := by
  rw [holderPc_of (owner.trans (heeded.inv.has inside)), there]
  exact known

/-- The thread that has the mutex goes to a place where it relies on the same waiters, or on one
more that it has found. -/
theorem goes {q : CvPc} (heeded : s.Heeded) (inside : (s.pc t).inMonitor = true)
    (moves : s.Moves s' t q)
    (known : s.Watched q) : s'.Watched s'.holderPc := by
  refine heeded.arrives inside moves.owner ?_ (known.steady (moves.steady (CvPc.awake inside)))
  rw [moves.pc, Function.update_self]

theorem beside {q : CvPc} (heeded : s.Heeded) (awake : ∀ n, s.pc t ≠ .blocked n)
    (strides : s.Strides s' t q) :
    s'.Watched s'.holderPc := by
  have here : s'.owner = some t → s'.Watched s'.holderPc := by
    intro has
    rw [holderPc_of has, strides.pc, Function.update_self]
    exact strides.blind
  have nobody : s'.owner = none → s'.Watched s'.holderPc := by
    intro free
    rw [holderPc, free]
    trivial
  obtain same | has | free := strides.owner
  · cases owner : s.owner with
    | none => exact nobody (same.trans owner)
    | some h =>
      by_cases mine : h = t
      · exact here (by rw [same, owner, mine])
      · have stays : s'.holderPc = s.holderPc := by
          rw [holderPc_of owner, holderPc_of (same.trans owner), strides.pc,
            Function.update_of_ne mine]
        rw [stays]
        exact heeded.watched.steady (steady_of_pc strides.pc strides.queue strides.priority awake)
  · exact here has
  · exact nobody free

theorem strides (heeded : s.Heeded) (awake : ∀ n, s.pc t ≠ .blocked n)
    (either : (∃ m, s' = s.panic m) ∨ ∃ q, s.Strides s' t q) : s'.Watched s'.holderPc := by
  obtain ⟨m, rfl⟩ | ⟨q, strides⟩ := either
  · exact heeded.panics m
  · exact heeded.beside awake strides

/-- One step of a thread in the functions of `Condvar`, but for the mutex and the semaphore of
`wait`. -/
theorem queued (heeded : s.Heeded) (attended : s.Attended (.exec t)) (stepped : s.exec t = some s')
    (calm : s'.panicked = none) (leaves : ∀ x n, s.pc t ≠ .release x n)
    (downs : ∀ n, s.pc t ≠ .down n)
    (enters : ∀ x, s.pc t ≠ .acquire x) : s'.Watched s'.holderPc := by
  have inv := heeded.inv
  have known : (s.pc t).inMonitor = true → s.Watched (s.pc t) := by
    intro inside
    rw [← holderPc_of (inv.has inside)]
    exact heeded.watched
  have place := inv.queue.local_ t
  unfold Monitor.exec at stepped
  split at stepped <;> rename_i here <;> rw [here] at known place <;>
    simp only [CvPc.inMonitor, forall_const, Watched, Local] at known place
  case h_1 => cases stepped
  case h_2 n =>
    cases stepped
    exact heeded.goes (by rw [here]; rfl) (borrowMut_moves calm) trivial
  case h_3 n =>
    cases stepped
    exact heeded.arrives (by rw [here]; rfl) rfl (Function.update_self ..) trivial
  case h_4 x n => exact absurd here (leaves x n)
  case h_5 n => exact absurd here (downs n)
  case h_6 => cases stepped
  case h_7 x => exact absurd here (enters x)
  case h_8 =>
    cases stepped
    exact heeded.goes (by rw [here]; rfl) (borrow_moves calm) trivial
  case h_9 =>
    cases stepped
    exact heeded.goes (by rw [here]; rfl) ⟨rfl, rfl, rfl, rfl⟩ trivial
  case h_10 length =>
    cases stepped
    exact heeded.goes (by rw [here]; rfl) (borrow_moves calm) trivial
  case h_11 length =>
    cases stepped
    refine heeded.goes (by rw [here]; rfl) ⟨rfl, rfl, rfl, rfl⟩ ?_
    split
    · rename_i empty
      exact .inl (List.isEmpty_iff.mp empty)
    · refine ⟨fun j m before => absurd before (Nat.not_lt_zero j), .inl ⟨rfl, rfl⟩⟩
  case h_12 c =>
    cases stepped
    split at calm
    · rename_i more
      rw [if_pos more]
      exact heeded.goes (by rw [here]; rfl) (borrow_moves calm) known
    · rename_i ended
      rw [if_neg ended]
      refine heeded.goes (by rw [here]; rfl) ⟨rfl, rfl, rfl, rfl⟩ (.inr ?_)
      exact known.last (by omega) place.2.2
  case h_13 c =>
    split at stepped
    · cases stepped
      cases calm
    · rename_i n at_i
      cases stepped
      exact heeded.goes (by rw [here]; rfl) ⟨rfl, rfl, rfl, rfl⟩ ⟨known, at_i⟩
  case h_14 c n =>
    cases stepped
    rw [Attended, here] at attended
    exact heeded.goes (by rw [here]; rfl) ⟨rfl, rfl, rfl, rfl⟩
      ⟨known.1, known.2, inv.semas.waits attended⟩
  case h_15 c n =>
    cases stepped
    obtain ⟨best, at_i, q, waits⟩ := known
    obtain ⟨u, single, -⟩ := waits.alone inv.semas
    refine heeded.goes (by rw [here]; rfl) ⟨rfl, rfl, rfl, rfl⟩
      ⟨best, at_i, ?_, q, waits, .inl ⟨rfl, rfl⟩⟩
    rw [single]
    rfl
  case h_16 c n w =>
    obtain ⟨best, at_i, one, q, waits, read⟩ := known
    split at stepped
    · cases stepped
      exact heeded.goes (by rw [here]; rfl) ⟨rfl, rfl, rfl, rfl⟩ ⟨best, at_i, one, q, waits, read⟩
    · cases stepped
      obtain ⟨-, max⟩ := read.resolve_left (by omega)
      rw [max]
      exact heeded.goes (by rw [here]; rfl) ⟨rfl, rfl, rfl, rfl⟩ (best.turn at_i waits rfl)
  case h_17 c n w =>
    obtain ⟨best, at_i, one, q, waits, read⟩ := known
    split at stepped
    · cases stepped
      cases calm
    · rename_i u at_w
      cases stepped
      obtain ⟨v, single, priority⟩ := waits.alone inv.semas
      obtain ⟨found, first⟩ := inv.semas.alone at_w
      have same : u = v := by
        rw [single] at found
        exact (List.cons.inj found).1.symm
      obtain ⟨-, zero⟩ := read.resolve_right (by omega)
      rw [if_pos (by omega), first, same, priority]
      exact heeded.goes (by rw [here]; rfl) ⟨rfl, rfl, rfl, rfl⟩
        ⟨best, at_i, one, q, waits, .inr ⟨rfl, rfl⟩⟩
  case h_18 k =>
    cases stepped
    exact heeded.goes (by rw [here]; rfl) (borrowMut_moves calm) known
  case h_19 k =>
    split at stepped
    · cases stepped
      exact heeded.goes (by rw [here]; rfl) ⟨rfl, rfl, rfl, rfl⟩ trivial
    · rename_i n at_k
      cases stepped
      have inside : (s.pc t).inMonitor = true := by rw [here]; rfl
      obtain empty | ⟨m, found, q, waits, le⟩ := known
      · rw [empty] at at_k
        cases at_k
      rw [at_k] at found
      cases found
      have moves : s.Moves (s.goto t (.upOne n)) t (.upOne n) := ⟨rfl, rfl, rfl, rfl⟩
      have highest : (s.goto t (.upOne n)).Highest n := by
        refine Watched.steady (p := .upOne n) ⟨q, waits, le⟩ (moves.steady (CvPc.awake inside))
      refine heeded.arrives inside rfl (Function.update_self ..) ?_
      obtain ⟨q, waits, le⟩ := highest
      exact ⟨q, waits, fun m hm => le m (List.mem_of_mem_eraseIdx hm)⟩
  case h_20 n =>
    cases stepped
    obtain ⟨owner, there⟩ := up_arrives calm
    exact heeded.arrives (by rw [here]; rfl) owner there trivial
  case h_21 =>
    cases stepped
    exact heeded.goes (by rw [here]; rfl) ⟨rfl, rfl, rfl, rfl⟩ trivial
  case h_22 =>
    cases stepped
    exact heeded.goes (by rw [here]; rfl) (borrow_moves calm) trivial
  case h_23 i =>
    split at stepped
    · cases stepped
      obtain ⟨owner, there⟩ := up_arrives calm
      exact heeded.arrives (by rw [here]; rfl) owner there trivial
    · cases stepped
      exact heeded.goes (by rw [here]; rfl) ⟨rfl, rfl, rfl, rfl⟩ trivial
  case h_24 =>
    cases stepped
    exact heeded.goes (by rw [here]; rfl) (borrowMut_moves calm) trivial
  case h_25 =>
    cases stepped
    exact heeded.arrives (by rw [here]; rfl) rfl (Function.update_self ..) trivial
  case h_26 =>
    cases stepped
    exact heeded.goes (by rw [here]; rfl) ⟨rfl, rfl, rfl, rfl⟩ trivial

theorem exec (heeded : s.Heeded) (attended : s.Attended (.exec t)) (calm : s.panicked = none)
    (stepped : s.exec t = some s') : s'.Watched s'.holderPc := by
  cases here : s.pc t with
  | release x n =>
    simp only [Monitor.exec, here, Option.some.injEq] at stepped
    exact heeded.strides (by simp [here]) (stepped ▸ leave_strides)
  | down n =>
    simp only [Monitor.exec, here, Option.some.injEq] at stepped
    exact heeded.strides (by simp [here]) (stepped ▸ downTurn_strides)
  | acquire x =>
    simp only [Monitor.exec, here] at stepped
    exact heeded.strides (by simp [here]) (enter_strides stepped)
  | _ =>
    have leaves : ∀ x n, s.pc t ≠ .release x n := by simp [here]
    have downs : ∀ n, s.pc t ≠ .down n := by simp [here]
    have enters : ∀ x, s.pc t ≠ .acquire x := by simp [here]
    have fine := heeded.inv.queued stepped leaves downs enters
    exact heeded.queued attended stepped (fine.calm.trans calm) leaves downs enters

/-- The step lemma. -/
theorem step {e : CvEvent} (heeded : s.Heeded) (attended : s.Attended e)
    (stepped : s.step e = some s') : s'.Heeded := by
  refine ⟨(heeded.inv.step stepped).inv, ?_⟩
  have calm := running stepped
  unfold Monitor.step at stepped
  rw [if_neg (by rw [calm]; exact Bool.false_ne_true)] at stepped
  -- A function is called at a place where no entry has been read.
  have called : ∀ {u : Tid} {q : CvPc} {m : Monitor}, s.mayCall u = true →
    m.owner = s.owner → m.pc u = q →
      m.Watched q → m.Watched m.holderPc := by
    intro u q m may owner there known
    rw [holderPc_of (owner.trans (Inv.mayCall_iff.mp may).1), there]
    exact known
  cases e with
  | exec t => exact heeded.exec attended calm stepped
  | lock t =>
    simp only at stepped
    split at stepped
    · rename_i may
      cases stepped
      exact heeded.beside (by simp [may.2]) ⟨rfl, .inl rfl, rfl, rfl, trivial⟩
    · cases stepped
  | unlock t =>
    simp only at stepped
    split at stepped
    · cases stepped
      exact called ‹_› rfl (Function.update_self ..) trivial
    · cases stepped
  | wait t =>
    simp only at stepped
    split at stepped
    · cases stepped
      exact called ‹_› rfl (Function.update_self ..) trivial
    · cases stepped
  | notifyOne t =>
    simp only at stepped
    split at stepped
    · cases stepped
      exact called ‹_› rfl (Function.update_self ..) trivial
    · cases stepped
  | notifyAll t =>
    simp only at stepped
    split at stepped
    · cases stepped
      exact called ‹_› rfl (Function.update_self ..) trivial
    · cases stepped
  | setPriority u q =>
    cases stepped
    refine heeded.watched.steady ⟨rfl, fun _ _ => id, fun n seen v sleeping => ?_⟩
    refine Function.update_of_ne ?_ ..
    rintro rfl
    exact attended n seen sleeping

theorem new (priority : Tid → Nat) : (Monitor.new priority).Heeded := ⟨.new priority, trivial⟩

theorem wakesHighest (heeded : s.Heeded) : s.WakesHighest := by
  intro t n here
  have has : s.owner = some t := heeded.inv.has (by rw [here]; rfl)
  have known := heeded.watched
  rw [holderPc_of has, here] at known
  obtain ⟨p, ⟨u, sleeping, rfl⟩, le⟩ := known
  refine ⟨u, by rw [sleeping]; rfl, fun m hm v owns => ?_⟩
  obtain ⟨q, ⟨w, also, rfl⟩, le⟩ := le m hm
  have same : v = w := heeded.inv.semas.owner v w m owns (by rw [also]; rfl)
  rw [same]
  exact le

end Heeded

/-- In every run in which the notifier finds each waiter blocked and no priority changes that it
has read, it raises the semaphore of a waiter of the highest priority. -/
theorem highest_waiter_chosen {priority : Tid → Nat} {es : List CvEvent}
    (meets : Guarded step Attended (new priority) es) (ran : run step (new priority) es = some s) :
    s.WakesHighest :=
  (guarded_run_invariant (fun _ _ _ heeded attended stepped => Heeded.step heeded attended stepped)
    (Heeded.new priority) meets
    ran : s.Heeded).wakesHighest

/-- The priorities of the waiters 1 and 2 and of the notifier. -/
def ranks : Tid → Nat := fun t => if t = 1 then 30 else if t = 2 then 40 else 63

/-- Thread 1 is blocked in its semaphore, and thread 2 has released the mutex. -/
def twoWait : List CvEvent :=
  .lock 1 :: List.replicate 5 (.exec 1) ++ .wait 1 :: List.replicate 9 (.exec 1) ++
    .lock 2 :: List.replicate 5 (.exec 2) ++ .wait 2 :: List.replicate 8 (.exec 2)

/-- Thread 3 takes the mutex and calls `notify_one`. -/
def threeNotifies : List CvEvent := .lock 3 :: List.replicate 5 (.exec 3) ++ [.notifyOne 3]

/-- The notifier comes before thread 2 blocks: thread 1 is chosen, although thread 2 has a higher
priority. -/
def notifiedInWindow : List CvEvent := twoWait ++ threeNotifies ++ List.replicate 19 (.exec 3)

theorem lower_waiter_chosen : ∃ s, run step (new ranks) notifiedInWindow =
    some s ∧ ¬s.WakesHighest := by
  have computed : (run step (new ranks) notifiedInWindow).map
      (fun s => (s.pc 3, s.queue, s.pc 1, s.pc 2, s.priority 1, s.priority 2)) =
      some (.upOne 0, [1], .blocked 0, .down 1, 30, 40) := by
    decide +kernel
  obtain ⟨s, ran, ended⟩ := Option.map_eq_some_iff.mp computed
  simp only [Prod.mk.injEq] at ended
  obtain ⟨three, queue, one, two, low, high⟩ := ended
  have inv : s.Inv := run_invariant (fun _ _ _ inv stepped => (inv.step stepped).inv)
    (Inv.new ranks) ran
  refine ⟨s, ran, fun highest => ?_⟩
  obtain ⟨u, owns, le⟩ := highest 3 0 three
  have same : u = 1 := inv.semas.owner u 1 0 owns (by rw [one]; rfl)
  have := le 1 (by rw [queue]; exact List.mem_singleton_self 1) 2 (by rw [two]; rfl)
  rw [same, low, high] at this
  omega

/-- The same with thread 2 blocked. -/
def notifiedBlocked : List CvEvent :=
  twoWait ++ .exec 2 :: threeNotifies ++ List.replicate 21 (.exec 3)

theorem higher_waiter_chosen : ∃ s, Guarded step Attended (new ranks) notifiedBlocked ∧
    run step (new ranks) notifiedBlocked = some s ∧ s.WakesHighest ∧ s.pc 3 = .upOne 1 ∧
      s.pc 2 = .blocked 1 := by
  have meets : Guarded step Attended (new ranks) notifiedBlocked := by decide +kernel
  have computed : (run step (new ranks) notifiedBlocked).map (fun s => (s.pc 3, s.pc 2)) =
      some (.upOne 1, .blocked 1) := by
    decide +kernel
  obtain ⟨s, ran, ended⟩ := Option.map_eq_some_iff.mp computed
  rw [Prod.mk.injEq] at ended
  exact ⟨s, meets, ran, highest_waiter_chosen meets ran, ended.1, ended.2⟩

end Monitor

end Tacos.Thread
