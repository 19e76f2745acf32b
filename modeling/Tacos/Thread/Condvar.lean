/- GID: Tacos/Thread/Condvar
   generality: I
   source: src/sync/condvar.rs, src/sync/sema.rs, src/sync/mutex.rs, src/sync/sleep.rs
   digest: Threads that wait on and notify one condition variable under one mutex, and when each
     notification wakes whom it should. -/

import Tacos.Thread.Manager

set_option autoImplicit false
set_option relaxedAutoImplicit false

namespace Tacos.Thread

open Tacos.Lib.Run

/-- The loop of `notify_one` over the queue. -/
structure Scan where
  length : Nat
  i : Nat
  maxPriority : Nat
  chosenIndex : Nat
  deriving DecidableEq

/-- The loop of `get_maxpriority` over the waiters of a semaphore. -/
structure WaitScan where
  waitqlen : Nat
  i : Nat
  maxPriority : Nat
  deriving DecidableEq

/-- `Sleep::acquire`: the two looks at the holder, `self.inner.down()` and the write of the
holder. Between the looks and `down` it donates priorities, which is for the threads concerned an
event of its own. -/
inductive Entry where
  | test
  | testHeld
  | again
  | againHeld
  | down
  | write
  | writeHeld
  deriving DecidableEq

/-- `Sleep::release`: the assertion, `self.holder.borrow_mut().take()`, `self.inner.up()` and
`schedule`. -/
inductive Leave where
  | check
  | checkHeld
  | take
  | takeHeld
  | up
  | yield
  deriving DecidableEq

/-- Where a thread is in the functions of `Condvar` and in those of the mutex. A `RefCell` is
borrowed in one step and used and given back in another, as the timer can strike in between; the
semaphores' `up` and `down` run with interrupts off, so that each turn of them is one step. -/
inductive CvPc where
  | idle
  /-- `wait`: `self.0.borrow_mut()` and `push_front` -/
  | push (n : Nat)
  | pushing (n : Nat)
  /-- `release` of the mutex, for `wait` with the semaphore that it goes to after it -/
  | release (x : Leave) (n : Option Nat)
  /-- `wait`: `sema.down()`, and blocked in it -/
  | down (n : Nat)
  | blocked (n : Nat)
  /-- `acquire` of the mutex, also at the end of `wait` -/
  | acquire (x : Entry)
  /-- `notify_one`: `self.0.borrow().len()` and `self.0.borrow().is_empty()` -/
  | len
  | lenHeld
  | empty (length : Nat)
  | emptyHeld (length : Nat)
  /-- `notify_one`: the head of the loop, and `self.0.borrow()[i]` -/
  | scan (c : Scan)
  | entry (c : Scan)
  /-- `get_maxpriority`: `self.waiters.borrow().len()`, then the head of its loop and
  `self.waiters.borrow()[i]` -/
  | waitq (c : Scan) (n : Nat)
  | waitqHeld (c : Scan) (n : Nat)
  | load (c : Scan) (n : Nat) (w : WaitScan)
  | loadHeld (c : Scan) (n : Nat) (w : WaitScan)
  /-- `notify_one`: `self.0.borrow_mut()` and `remove`, then `sema.up()` -/
  | remove (chosenIndex : Nat)
  | removing (chosenIndex : Nat)
  | upOne (n : Nat)
  | oneDone
  /-- `notify_all`: `self.0.borrow()`, the `up` of each entry, `self.0.borrow_mut()` and `clear` -/
  | all
  | upAll (i : Nat)
  | clear
  | clearing
  | allDone
  deriving DecidableEq

/-- Why the kernel panics: a `RefCell` is borrowed twice, `acquire` finds no holder at its second
look, or any other assertion, index or `unwrap` fails. -/
inductive Mishap where
  | borrow
  | unwrap
  | abort
  deriving DecidableEq

/-- A mutex, a `Condvar` and the semaphores its waiters make. `inner` is the value of the mutex's
semaphore, `owner` the thread that has brought it down, `holder` its holder cell and `grip` the
borrows of that cell that are out, whose they are and whether they are mutable. `cell` counts the
shared borrows of the queue and says whether there is a mutable one, `reading` counts the shared
borrows of a semaphore's waiters. `ups` counts the completed `up`s of each semaphore; `called` and
`woke` are the queue at a thread's last notification and the semaphores it has raised in it, the
last one first. -/
structure Monitor where
  inner : Nat
  owner : Option Tid
  holder : Option Tid
  grip : List (Tid × Bool)
  queue : List Nat
  cell : Nat × Bool
  sema : Nat → Semaphore
  reading : Nat → Nat
  next : Nat
  pc : Tid → CvPc
  priority : Tid → Nat
  ups : Nat → Nat
  called : Tid → List Nat
  woke : Tid → List Nat
  panicked : Option Mishap

/-- What can happen: a thread calls a function or goes on in it, locks or unlocks the mutex in its
own program, or has its priority changed. -/
inductive CvEvent where
  | exec (t : Tid)
  | lock (t : Tid)
  | unlock (t : Tid)
  | wait (t : Tid)
  | notifyOne (t : Tid)
  | notifyAll (t : Tid)
  | setPriority (t : Tid) (p : Nat)
  deriving DecidableEq

namespace Monitor

def new (priority : Tid → Nat) : Monitor :=
  ⟨1, none, none, [], [], (0, false), fun _ => ⟨0, []⟩, fun _ => 0, 0,
    fun _ => .idle, priority, fun _ => 0,
    fun _ => [], fun _ => [], none⟩

def goto (s : Monitor) (t : Tid) (p : CvPc) : Monitor := { s with pc := Function.update s.pc t p }

def panic (s : Monitor) (m : Mishap) : Monitor := { s with panicked := some m }

/-- A borrow of the holder cell meets one that is out. -/
def clashes (s : Monitor) (mutably : Bool) : Bool := s.grip.any fun b => b.2 || mutably

/-- `self.holder.borrow()` or `self.holder.borrow_mut()`, and the drop of what it returned. -/
def grasp (s : Monitor) (t : Tid) (mutably : Bool) (p : CvPc) : Monitor :=
  if s.clashes mutably then s.panic .borrow else { s with grip := (t, mutably) :: s.grip }.goto t p

def letGo (s : Monitor) (t : Tid) : Monitor := { s with grip := s.grip.filter fun b => b.1 != t }

/-- `self.0.borrow()`, and the drop of what it returned. -/
def borrow (s : Monitor) (t : Tid) (p : CvPc) : Monitor :=
  if s.cell.2 then s.panic .borrow else { s with cell := (s.cell.1 + 1, false) }.goto t p

def give (s : Monitor) : Monitor := { s with cell := (s.cell.1 - 1, s.cell.2) }

/-- `self.0.borrow_mut()`, and the drop of what it returned. -/
def borrowMut (s : Monitor) (t : Tid) (p : CvPc) : Monitor :=
  if s.cell.2 || s.cell.1 != 0 then s.panic .borrow else { s with cell := (0, true) }.goto t p

def giveMut (s : Monitor) : Monitor := { s with cell := (s.cell.1, false) }

/-- `self.waiters.borrow()` of a semaphore, and the drop of what it returned. -/
def peek (s : Monitor) (n : Nat) : Monitor :=
  { s with reading := Function.update s.reading n (s.reading n + 1) }

def unpeek (s : Monitor) (n : Nat) : Monitor :=
  { s with reading := Function.update s.reading n (s.reading n - 1) }

def setSema (s : Monitor) (n : Nat) (x : Semaphore) : Monitor :=
  { s with sema := Function.update s.sema n x }

/-- One turn of the loop of `Semaphore::down`. -/
def downTurn (s : Monitor) (t : Tid) (n : Nat) : Monitor :=
  let x := s.sema n
  if x.value = 0 then
    if s.reading n ≠ 0 then s.panic .borrow
    else (s.setSema n { x with waiters := t :: x.waiters }).goto t (.blocked n)
  else (s.setSema n { x with value := x.value - 1 }).goto t (.acquire .test)

/-- The count of an `up` by `t`. -/
def raised (s : Monitor) (t : Tid) (n : Nat) : Monitor :=
  { s with
    ups := Function.update s.ups n (s.ups n + 1)
    woke := Function.update s.woke t (n :: s.woke t) }

/-- `Semaphore::up`, after which `t` is at `p`. -/
def up (s : Monitor) (t : Tid) (n : Nat) (p : CvPc) : Monitor :=
  let x := s.sema n
  match x.waiters with
  | [] => ((s.setSema n { x with value := x.value + 1 }).raised t n).goto t p
  | waiters =>
    if x.value ≠ 0 then s.panic .abort
    else if s.reading n ≠ 0 then s.panic .borrow
    else
      let maxIndex := (getMaxpriority s.priority waiters).1
      match waiters[maxIndex]? with
      | none => s.panic .abort
      | some thread =>
        -- `wake_up`
        match s.pc thread with
        | .blocked m =>
          (((s.setSema n ⟨x.value + 1, waiters.eraseIdx maxIndex⟩).raised t n).goto
            thread (.down m)).goto t p
        | _ => s.panic .abort

/-- A step of `acquire`. A thread that waits in `down` goes on when the value is positive again. -/
def enter (s : Monitor) (t : Tid) : Entry → Option Monitor
  | .test => some (s.grasp t false (.acquire .testHeld))
  | .testHeld => some ((s.letGo t).goto t (.acquire (if s.holder.isSome then .again else .down)))
  | .again => some (s.grasp t true (.acquire .againHeld))
  | .againHeld => some (if s.holder.isSome then (s.letGo t).goto t
    (.acquire .down) else s.panic .unwrap)
  | .down =>
    if s.inner = 0 then none
    else some ({ s with inner := s.inner - 1, owner := some t }.goto t (.acquire .write))
  | .write => some (s.grasp t true (.acquire .writeHeld))
  | .writeHeld => some (({ s with holder := some t }.letGo t).goto t .idle)

/-- A step of `release`, after which `wait` goes to its semaphore. -/
def leave (s : Monitor) (t : Tid) (n : Option Nat) : Leave → Monitor
  | .check => s.grasp t false (.release .checkHeld n)
  | .checkHeld => if s.holder =
    some t then (s.letGo t).goto t (.release .take n) else s.panic .abort
  | .take => s.grasp t true (.release .takeHeld n)
  | .takeHeld =>
    if s.holder.isSome then ({ s with holder := none }.letGo t).goto t (.release .up n)
    else s.panic .abort
  | .up => { s with inner := s.inner + 1, owner := none }.goto t (.release .yield n)
  | .yield =>
    s.goto t (match n with
      | some n => .down n
      | none => .idle)

def exec (s : Monitor) (t : Tid) : Option Monitor :=
  match s.pc t with
  | .idle => none
  | .push n => some (s.borrowMut t (.pushing n))
  | .pushing n => some ({ s with queue := n :: s.queue }.giveMut.goto t (.release .check (some n)))
  | .release x n => some (s.leave t n x)
  | .down n => some (s.downTurn t n)
  | .blocked _ => none
  | .acquire x => s.enter t x
  | .len => some (s.borrow t .lenHeld)
  | .lenHeld => some (s.give.goto t (.empty s.queue.length))
  | .empty length => some (s.borrow t (.emptyHeld length))
  | .emptyHeld length =>
    some (s.give.goto t (if s.queue.isEmpty then .remove 0 else .scan ⟨length, 0, 0, 0⟩))
  | .scan c => some (if c.i < c.length then s.borrow t (.entry c) else s.goto t
      (.remove c.chosenIndex))
  | .entry c =>
    match s.queue[c.i]? with
    | none => some (s.panic .abort)
    | some n => some (s.goto t (.waitq c n))
  | .waitq c n => some ((s.peek n).goto t (.waitqHeld c n))
  | .waitqHeld c n => some ((s.unpeek n).goto t (.load c n ⟨(s.sema n).waiters.length, 0, 0⟩))
  | .load c n w =>
    if w.i < w.waitqlen then some ((s.peek n).goto t (.loadHeld c n w))
    else
      let c := if c.maxPriority ≤
        w.maxPriority then { c with maxPriority := w.maxPriority, chosenIndex := c.i } else c
      some (s.give.goto t (.scan { c with i := c.i + 1 }))
  | .loadHeld c n w =>
    match (s.sema n).waiters[w.i]? with
    | none => some (s.panic .abort)
    | some thread =>
      let w := if w.maxPriority ≤ s.priority
        thread then { w with maxPriority := s.priority thread } else w
      some ((s.unpeek n).goto t (.load c n { w with i := w.i + 1 }))
  | .remove k => some (s.borrowMut t (.removing k))
  | .removing k =>
    match s.queue[k]? with
    | none => some (s.giveMut.goto t .oneDone)
    | some n => some ({ s with queue := s.queue.eraseIdx k }.giveMut.goto t (.upOne n))
  | .upOne n => some (s.up t n .oneDone)
  | .oneDone => some (s.goto t .idle)
  | .all => some (s.borrow t (.upAll 0))
  | .upAll i =>
    match s.queue[i]? with
    | some n => some (s.up t n (.upAll (i + 1)))
    | none => some (s.give.goto t .clear)
  | .clear => some (s.borrowMut t .clearing)
  | .clearing => some ({ s with queue := [] }.giveMut.goto t .allDone)
  | .allDone => some (s.goto t .idle)

/-- The functions of `Condvar` are called with the mutex held, and so is `release`. -/
def mayCall (s : Monitor) (t : Tid) : Bool := s.owner = some t && s.pc t = .idle

def step (s : Monitor) (e : CvEvent) : Option Monitor :=
  if s.panicked.isSome then none
  else match e with
    | .exec t => s.exec t
    | .lock t => if s.owner ≠ some t ∧ s.pc t =
        .idle then some (s.goto t (.acquire .test)) else none
    | .unlock t => if s.mayCall t then some (s.goto t (.release .check none)) else none
    | .wait t => if s.mayCall t then some ({ s with next := s.next + 1 }.goto t
        (.push s.next)) else none
    | .notifyOne t =>
      if s.mayCall t then
        some ({ s with
          called := Function.update s.called t s.queue
          woke := Function.update s.woke t [] }.goto t .len)
      else none
    | .notifyAll t =>
      if s.mayCall t then
        some ({ s with
          called := Function.update s.called t s.queue
          woke := Function.update s.woke t [] }.goto t .all)
      else none
    | .setPriority t p => some { s with priority := Function.update s.priority t p }

end Monitor

namespace CvPc

/-- The borrows of the holder cell that a thread takes in its next step: whether they are mutable.
-/
def wants : CvPc → List Bool
  | .acquire .test | .release .check _ => [false]
  | .acquire .again | .acquire .write | .release .take _ => [true]
  | _ => []

/-- The semaphore that a thread is about to bring down. -/
def arrives : CvPc → List Nat
  | .down n => [n]
  | _ => []

/-- The places at which a thread has the mutex. -/
def inMonitor : CvPc → Bool
  | .idle | .down _ | .blocked _ | .release .yield _ => false
  | .acquire .write | .acquire .writeHeld => true
  | .acquire _ => false
  | _ => true

/-- The places at which a thread can have the mutex: those, and its own program. -/
def mayHave : CvPc → Bool
  | .idle => true
  | p => p.inMonitor

/-- The places in between `down` and the write of the holder, and in between its `take` and `up`. -/
def unwritten : CvPc → Bool
  | .acquire .write | .acquire .writeHeld | .release .up _ => true
  | _ => false

/-- The borrow of the queue that a thread has out: how many shared ones, and whether a mutable
one. -/
def cell : CvPc → Nat × Bool
  | .pushing _ | .removing _ | .clearing => (0, true)
  | .lenHeld | .emptyHeld _ | .entry _ | .waitq _ _ | .waitqHeld _ _ | .load _ _ _ | .loadHeld _ _ _
  | .upAll _ => (1, false)
  | _ => (0, false)

/-- The semaphore whose waiters a thread has borrowed. -/
def reads : CvPc → Option Nat
  | .waitqHeld _ n | .loadHeld _ n _ => some n
  | _ => none

/-- The semaphore that a thread made and has not brought down yet. -/
def owns : CvPc → Option Nat
  | .push n | .pushing n | .down n | .blocked n => some n
  | .release _ n => n
  | _ => none

/-- The semaphores that have not been raised, as far as the queue and the holder of the mutex say.
-/
def unraised (queue : List Nat) : CvPc → List Nat
  | .push n | .pushing n | .upOne n => n :: queue
  | .upAll i => queue.drop i
  | .clear | .clearing => []
  | _ => queue

/-- Two places at which the holder of the mutex has the same borrows out and has raised the same
of the queue. -/
structure Alike (p q : CvPc) : Prop where
  cell : q.cell = p.cell
  reads : q.reads = p.reads
  unraised : ∀ queue, q.unraised queue = p.unraised queue

/-- Nothing is borrowed, and nothing in the queue has been raised. -/
structure Plain (p : CvPc) : Prop where
  cell : p.cell = (0, false)
  reads : p.reads = none
  unraised : ∀ queue, p.unraised queue = queue

theorem Plain.alike {p q : CvPc} (hp : p.Plain) (hq : q.Plain) : Alike p q :=
  ⟨hq.cell.trans hp.cell.symm, hq.reads.trans hp.reads.symm,
    fun queue => (hq.unraised queue).trans (hp.unraised queue).symm⟩

theorem plain_of_outside {p : CvPc} (out : p.inMonitor = false) : p.Plain := by
  cases p <;> first | exact ⟨rfl, rfl, fun _ => rfl⟩ | cases out

theorem Plain.acquire (x : Entry) : Plain (.acquire x) := ⟨rfl, rfl, fun _ => rfl⟩

theorem Plain.release (x : Leave) (n : Option Nat) : Plain (.release x n) :=
  ⟨rfl, rfl, fun _ => rfl⟩

theorem mayHave_of_inMonitor {p : CvPc} (inside : p.inMonitor = true) : p.mayHave = true := by
  cases p <;> first | exact inside | cases inside

theorem awake {p : CvPc} (inside : p.inMonitor = true) (n : Nat) : p ≠ .blocked n := by
  rintro rfl
  cases inside

/-- The holder goes from one place to another, with no waiters borrowed at either. -/
structure Goes (q p : CvPc) : Prop where
  inside : q.inMonitor = true
  written : q.unwritten = false
  home : p.mayHave = true
  unwritten : p.unwritten = false
  was : q.reads = none
  reads : p.reads = none
  owns : p.owns = q.owns
  stays : ∀ n, p ≠ .blocked n

end CvPc

namespace Monitor

/-- No thread borrows the holder of the mutex while another one was interrupted in a borrow of it
and one of the two is mutable, and no thread goes to wait in `Semaphore::down` while the notifier
has the waiters of the semaphore borrowed. -/
def Apart (s : Monitor) (e : CvEvent) : Prop :=
  match e with
  | .exec t => (∀ b ∈ (s.pc t).wants, s.clashes b = false) ∧
      ∀ n ∈ (s.pc t).arrives, (s.sema n).value = 0 → s.reading n = 0
  | _ => True

instance (s : Monitor) (e : CvEvent) : Decidable (s.Apart e) := by
  unfold Apart
  split <;> infer_instance

/-- The place of the thread that has the mutex. -/
def holderPc (s : Monitor) : CvPc :=
  match s.owner with
  | none => .idle
  | some h => s.pc h

/-- Who has the mutex: its semaphore is down exactly when a thread has it, and the holder cell
says who, but right after `down` and right before `up`. -/
structure Owned (s : Monitor) : Prop where
  held : ∀ t, (s.pc t).inMonitor = true → s.owner = some t
  home : ∀ t, s.owner = some t → (s.pc t).mayHave = true
  inner : s.inner = if s.owner = none then 1 else 0
  holder : s.holder = if s.holderPc.unwritten then none else s.owner

/-- Who has the mutex, and which borrows are out. -/
structure Control (s : Monitor) : Prop extends Owned s where
  cell : s.cell = s.holderPc.cell
  reading : ∀ n, s.reading n = if s.holderPc.reads = some n then 1 else 0

/-- Each semaphore has one owner, who finds in it what has been raised; those that wait in it are
blocked. -/
structure Semas (s : Monitor) : Prop where
  owner : ∀ t u n, (s.pc t).owns = some n → (s.pc u).owns = some n → t = u
  below : ∀ t n, (s.pc t).owns = some n → n < s.next
  value : ∀ t n, (s.pc t).owns = some n → (s.sema n).value = s.ups n
  value_le : ∀ n, (s.sema n).value ≤ s.ups n
  waiters : ∀ n u, u ∈ (s.sema n).waiters ↔ s.pc u = .blocked n
  nodup : ∀ n, (s.sema n).waiters.Nodup
  asleep : ∀ n u, s.pc u = .blocked n → s.ups n = 0
  fresh : ∀ n, s.next ≤ n → s.ups n = 0

/-- What a thread with the mutex knows at its place. -/
def Local (s : Monitor) (t : Tid) : CvPc → Prop
  | .len | .lenHeld => s.called t = s.queue ∧ s.woke t = []
  | .empty length | .emptyHeld length => (s.called t = s.queue ∧ s.woke t = []) ∧
    length = s.queue.length
  | .scan c => (s.called t = s.queue ∧ s.woke t = []) ∧ c.length = s.queue.length ∧
    c.chosenIndex < s.queue.length
  | .entry c =>
    ((s.called t = s.queue ∧ s.woke t = []) ∧ c.length = s.queue.length ∧
      c.chosenIndex < s.queue.length) ∧
      c.i < s.queue.length
  | .waitq c _ | .waitqHeld c _ =>
    ((s.called t = s.queue ∧ s.woke t = []) ∧ c.length = s.queue.length ∧
      c.chosenIndex < s.queue.length) ∧
      c.i < s.queue.length
  | .load c n w =>
    (((s.called t = s.queue ∧ s.woke t = []) ∧ c.length = s.queue.length ∧
      c.chosenIndex < s.queue.length) ∧
      c.i < s.queue.length) ∧ w.waitqlen ≤ (s.sema n).waiters.length
  | .loadHeld c n w =>
    (((s.called t = s.queue ∧ s.woke t = []) ∧ c.length = s.queue.length ∧
      c.chosenIndex < s.queue.length) ∧
      c.i < s.queue.length) ∧ w.waitqlen ≤ (s.sema n).waiters.length ∧ w.i < w.waitqlen
  | .remove k | .removing k => (s.called t = s.queue ∧ s.woke t = []) ∧
    (s.queue = [] ∨ k < s.queue.length)
  | .upOne n => n ∈ s.called t ∧ s.woke t = []
  | .oneDone => (s.called t = [] ∧ s.woke t = []) ∨ ∃ n ∈ s.called t, s.woke t = [n]
  | .all => s.called t = s.queue ∧ s.woke t = []
  | .upAll i => s.called t = s.queue ∧ s.woke t = (s.queue.take i).reverse
  | .clear | .clearing | .allDone => s.woke t = (s.called t).reverse
  | _ => True

/-- The queue, and what has been raised. -/
structure Queue (s : Monitor) : Prop where
  local_ : ∀ t, Local s t (s.pc t)
  nodup : (s.holderPc.unraised s.queue).Nodup
  unraised : ∀ n, n < s.next → (n ∈ s.holderPc.unraised s.queue ↔ s.ups n = 0)
  bounded : ∀ n ∈ s.holderPc.unraised s.queue, n < s.next
  once : ∀ n, s.ups n ≤ 1

/-- Nothing has panicked, but for the second look of `acquire` at the holder. -/
def Calm (s : Monitor) : Prop := s.panicked = none ∨ s.panicked = some .unwrap

structure Inv (s : Monitor) : Prop where
  control : s.Control
  semas : s.Semas
  queue : s.Queue

variable {s s' : Monitor} {t : Tid} {p : CvPc}

structure Fine (s s' : Monitor) : Prop where
  inv : s'.Inv
  calm : s'.panicked = s.panicked

/-- A step keeps the invariant and, when the threads are apart, aborts at most in the second look
of `acquire`. -/
structure Fares (s s' : Monitor) (e : CvEvent) : Prop where
  inv : s'.Inv
  calm : s.Apart e → s'.panicked = s.panicked ∨ s'.panicked = some .unwrap

theorem Fine.fares {e : CvEvent} (fine : s.Fine s') : s.Fares s' e :=
  ⟨fine.inv, fun _ => .inl fine.calm⟩

theorem holderPc_of (has : s.owner = some t) : s.holderPc = s.pc t := by rw [holderPc, has]

theorem Local.outside {p : CvPc} (out : p.inMonitor = false) : Local s t p := by
  cases p with
  | idle | down n | blocked n | release x n | acquire x => trivial
  | _ => cases out

namespace Owned

/-- The thread that has the mutex goes on, in the monitor or in its own program. -/
theorem within (o : s.Owned) (has : s.owner = some t) (home : p.mayHave = true)
    (pc : s'.pc = Function.update s.pc t p) (owner : s'.owner = s.owner)
    (inner : s'.inner = s.inner)
    (holder : s'.holder = if p.unwritten then none else some t) : s'.Owned := by
  have has' : s'.owner = some t := owner.trans has
  refine ⟨fun u hu => ?_, fun u hu => ?_, ?_, ?_⟩
  · by_cases same : u = t
    · rw [same, has']
    · rw [pc, Function.update_of_ne same] at hu
      rw [owner, o.held u hu]
  · obtain rfl : t = u := Option.some.inj (has'.symm.trans hu)
    rw [pc, Function.update_self]
    exact home
  · rw [inner, owner, o.inner]
  · rw [holderPc_of has', pc, Function.update_self, holder, has']

theorem outside (o : s.Owned) (other : s.owner ≠ some t) (out : p.inMonitor = false)
    (pc : s'.pc = Function.update s.pc t p) (owner : s'.owner = s.owner)
    (inner : s'.inner = s.inner)
    (holder : s'.holder = s.holder) : s'.Owned := by
  have elsewhere : ∀ u, s.owner = some u → s'.pc u = s.pc u := by
    intro u hu
    rw [pc, Function.update_of_ne]
    rintro rfl
    exact other hu
  refine ⟨fun u hu => ?_, fun u hu => ?_, by rw [inner, owner, o.inner], ?_⟩
  · rw [pc, Function.update_apply] at hu
    split at hu
    · rw [out] at hu
      cases hu
    · rw [owner, o.held u hu]
  · rw [owner] at hu
    rw [elsewhere u hu]
    exact o.home u hu
  · have same : s'.holderPc = s.holderPc := by
      unfold holderPc
      rw [owner]
      cases has : s.owner with
      | none => rfl
      | some h => exact elsewhere h has
    rw [holder, same, owner, o.holder]

theorem taken (o : s.Owned) (free : s.owner = none) (inside : p.inMonitor = true)
    (unwritten : p.unwritten = true)
    (pc : s'.pc = Function.update s.pc t p) (owner : s'.owner = some t) (inner : s'.inner = 0)
    (holder : s'.holder = s.holder) : s'.Owned := by
  refine ⟨fun u hu => ?_, fun u hu => ?_, by rw [inner, owner]; rfl, ?_⟩
  · by_cases same : u = t
    · rw [same, owner]
    · rw [pc, Function.update_of_ne same] at hu
      have := o.held u hu
      rw [free] at this
      cases this
  · obtain rfl : t = u := Option.some.inj (owner.symm.trans hu)
    rw [pc, Function.update_self]
    exact CvPc.mayHave_of_inMonitor inside
  · rw [holderPc_of owner, pc, Function.update_self, unwritten, holder, o.holder, free]
    simp

theorem freed (o : s.Owned) (has : s.owner = some t) (unwritten : (s.pc t).unwritten = true)
    (out : p.inMonitor = false) (pc : s'.pc = Function.update s.pc t p) (owner : s'.owner = none)
    (inner : s'.inner = s.inner + 1) (holder : s'.holder = s.holder) : s'.Owned := by
  refine ⟨fun u hu => ?_, fun u hu => ?_, ?_, ?_⟩
  · rw [pc, Function.update_apply] at hu
    split at hu
    · rw [out] at hu
      cases hu
    · rename_i other
      exact absurd (Option.some.inj ((o.held u hu).symm.trans has)) other
  · rw [owner] at hu
    cases hu
  · rw [inner, owner, o.inner, has]
    rfl
  · rw [holder, o.holder, holderPc_of has, unwritten, owner]
    simp

theorem written (o : s.Owned) (has : s.owner = some t) (written : (s.pc t).unwritten = false) :
    s.holder = some t := by
  rw [o.holder, holderPc_of has, written, has]
  rfl

end Owned

theorem Control.alike (c : s.Control) (owned : s'.Owned) (same : CvPc.Alike s.holderPc s'.holderPc)
    (cell : s'.cell = s.cell) (reading : s'.reading = s.reading) : s'.Control := by
  refine ⟨owned, by rw [cell, c.cell, same.cell], ?_⟩
  intro n
  rw [reading, c.reading n, same.reads]

/-- A thread moves between two places at which it has nothing borrowed and nothing raised, and
takes or gives up the mutex at most itself. -/
theorem holderPc_alike (was : (s.pc t).Plain) (now : p.Plain)
    (pc : s'.pc = Function.update s.pc t p)
    (owner : s'.owner = s.owner ∨ (s.owner = none ∧ s'.owner = some t) ∨
      (s.owner = some t ∧ s'.owner = none)) :
    CvPc.Alike s.holderPc s'.holderPc := by
  have idle : CvPc.Plain .idle := ⟨rfl, rfl, fun _ => rfl⟩
  have here : s'.pc t = p := by rw [pc, Function.update_self]
  obtain same | ⟨free, has⟩ | ⟨has, free⟩ := owner
  · cases holds : s.owner with
    | none =>
      rw [holderPc, holderPc, same, holds]
      exact idle.alike idle
    | some h =>
      rw [holderPc_of holds, holderPc_of (same.trans holds)]
      by_cases mine : h = t
      · rw [mine, here]
        exact was.alike now
      · rw [pc, Function.update_of_ne mine]
        exact ⟨rfl, rfl, fun _ => rfl⟩
  · rw [holderPc_of has, here, holderPc, free]
    exact idle.alike now
  · rw [holderPc_of has, holderPc, free]
    exact was.alike idle

namespace Semas

/-- A thread moves that is not blocked in a semaphore, and keeps its own semaphore or forgets it. -/
theorem moved (h : s.Semas) (pc : s'.pc = Function.update s.pc t p)
    (sema : s'.sema = s.sema) (ups : s'.ups = s.ups)
    (next : s'.next = s.next) (owns : ∀ n, p.owns = some n → (s.pc t).owns = some n)
    (awake : ∀ n, s.pc t ≠ .blocked n) (stays : ∀ n, p ≠ .blocked n) : s'.Semas := by
  have old : ∀ u n, (s'.pc u).owns = some n → (s.pc u).owns = some n := by
    intro u n hu
    rw [pc, Function.update_apply] at hu
    split at hu
    · rename_i same
      rw [same]
      exact owns n hu
    · exact hu
  have sleeps : ∀ u n, s'.pc u = .blocked n ↔ s.pc u = .blocked n := by
    intro u n
    rw [pc, Function.update_apply]
    split
    · rename_i same
      rw [same]
      exact ⟨fun hp => absurd hp (stays n), fun hp => absurd hp (awake n)⟩
    · exact Iff.rfl
  refine ⟨fun u v n hu hv => h.owner u v n (old u n hu) (old v n hv), ?_, ?_, ?_, ?_, ?_, ?_, ?_⟩
  · rw [next]
    exact fun u n hu => h.below u n (old u n hu)
  · rw [sema, ups]
    exact fun u n hu => h.value u n (old u n hu)
  · rw [sema, ups]
    exact h.value_le
  · rw [sema]
    exact fun n u => (h.waiters n u).trans (sleeps u n).symm
  · rw [sema]
    exact h.nodup
  · rw [ups]
    exact fun n u hu => h.asleep n u ((sleeps u n).mp hu)
  · rw [ups, next]
    exact h.fresh

/-- `Condvar::wait` makes a semaphore. -/
theorem made (h : s.Semas) (awake : ∀ n, s.pc t ≠ .blocked n)
    (pc : s'.pc = Function.update s.pc t (.push s.next))
    (sema : s'.sema = s.sema) (ups : s'.ups = s.ups)
    (next : s'.next = s.next + 1) : s'.Semas := by
  have owned : ∀ u n, (s'.pc u).owns = some n → (u = t ∧ n = s.next) ∨
    (u ≠ t ∧ (s.pc u).owns = some n) := by
    intro u n hu
    rw [pc, Function.update_apply] at hu
    split at hu
    · rename_i same
      exact .inl ⟨same, (Option.some.inj hu).symm⟩
    · rename_i other
      exact .inr ⟨other, hu⟩
  have sleeps : ∀ u n, s'.pc u = .blocked n ↔ s.pc u = .blocked n := by
    intro u n
    rw [pc, Function.update_apply]
    split
    · rename_i same
      rw [same]
      exact ⟨nofun, fun hp => absurd hp (awake n)⟩
    · exact Iff.rfl
  have none_yet : s.ups s.next = 0 := h.fresh s.next (Nat.le_refl _)
  refine ⟨?_, ?_, ?_, ?_, ?_, ?_, ?_, ?_⟩
  · intro u v n hu hv
    rcases owned u n hu with ⟨rfl, rfl⟩ | ⟨-, hu⟩ <;> rcases owned v _ hv with ⟨rfl, same⟩ | ⟨-, hv⟩
    · rfl
    · exact absurd (h.below v _ hv) (Nat.lt_irrefl _)
    · exact absurd (h.below u _ hu) (same ▸ Nat.lt_irrefl _)
    · exact h.owner u v n hu hv
  · intro u n hu
    rw [next]
    rcases owned u n hu with ⟨-, rfl⟩ | ⟨-, hu⟩
    · exact Nat.lt_succ_self _
    · exact Nat.lt_succ_of_lt (h.below u n hu)
  · intro u n hu
    rw [sema, ups]
    rcases owned u n hu with ⟨-, rfl⟩ | ⟨-, hu⟩
    · have := h.value_le s.next
      omega
    · exact h.value u n hu
  · rw [sema, ups]
    exact h.value_le
  · rw [sema]
    exact fun n u => (h.waiters n u).trans (sleeps u n).symm
  · rw [sema]
    exact h.nodup
  · rw [ups]
    exact fun n u hu => h.asleep n u ((sleeps u n).mp hu)
  · rw [ups, next]
    exact fun n hn => h.fresh n (by omega)

/-- `Semaphore::down` finds its semaphore raised. -/
theorem taken {n : Nat} (h : s.Semas) (here : s.pc t = .down n)
    (pc : s'.pc = Function.update s.pc t (.acquire .test))
    (sema : s'.sema = Function.update s.sema n ⟨(s.sema n).value - 1, (s.sema n).waiters⟩)
    (ups : s'.ups = s.ups)
    (next : s'.next = s.next) : s'.Semas := by
  have owned : ∀ u m, (s'.pc u).owns = some m → (s.pc u).owns = some m ∧ m ≠ n := by
    intro u m hu
    rw [pc, Function.update_apply] at hu
    split at hu
    · cases hu
    · rename_i other
      refine ⟨hu, ?_⟩
      rintro rfl
      exact other (h.owner u t m hu (by rw [here]; rfl))
  have sleeps : ∀ u m, s'.pc u = .blocked m ↔ s.pc u = .blocked m := by
    intro u m
    rw [pc, Function.update_apply]
    split
    · rename_i same
      rw [same, here]
      exact ⟨nofun, nofun⟩
    · exact Iff.rfl
  have waiters : ∀ m, (s'.sema m).waiters = (s.sema m).waiters := by
    intro m
    rw [sema, Function.update_apply]
    split
    · rename_i same
      rw [same]
    · rfl
  refine ⟨fun u v m hu hv => h.owner u v m (owned u m hu).1 (owned v m hv).1, ?_,
    ?_, ?_, ?_, ?_, ?_, ?_⟩
  · rw [next]
    exact fun u m hu => h.below u m (owned u m hu).1
  · intro u m hu
    rw [sema, ups, Function.update_of_ne (owned u m hu).2]
    exact h.value u m (owned u m hu).1
  · intro m
    rw [sema, ups, Function.update_apply]
    have := h.value_le m
    split
    · rename_i same
      rw [same] at this ⊢
      exact (Nat.sub_le _ _).trans this
    · exact this
  · intro m u
    rw [waiters]
    exact (h.waiters m u).trans (sleeps u m).symm
  · intro m
    rw [waiters]
    exact h.nodup m
  · rw [ups]
    exact fun m u hu => h.asleep m u ((sleeps u m).mp hu)
  · rw [ups, next]
    exact h.fresh

/-- `Semaphore::down` blocks. -/
theorem slept {n : Nat} (h : s.Semas) (here : s.pc t = .down n) (zero : (s.sema n).value = 0)
    (pc : s'.pc = Function.update s.pc t (.blocked n))
    (sema : s'.sema = Function.update s.sema n ⟨(s.sema n).value, t :: (s.sema n).waiters⟩)
    (ups : s'.ups = s.ups)
    (next : s'.next = s.next) : s'.Semas := by
  have mine : (s.pc t).owns = some n := by rw [here]; rfl
  have owned : ∀ u m, (s'.pc u).owns = some m → (s.pc u).owns = some m := by
    intro u m hu
    rw [pc, Function.update_apply] at hu
    split at hu
    · rename_i same
      rw [same, mine]
      exact hu
    · exact hu
  have sleeps : ∀ u m, s'.pc u = .blocked m ↔ (u = t ∧ m = n) ∨ s.pc u = .blocked m := by
    intro u m
    rw [pc, Function.update_apply]
    split
    · rename_i same
      rw [same, here, CvPc.blocked.injEq]
      simp only [true_and, reduceCtorEq, or_false, eq_comm]
    · rename_i other
      simp only [other, false_and, false_or]
  have value : ∀ m, (s'.sema m).value = (s.sema m).value := by
    intro m
    rw [sema, Function.update_apply]
    split
    · rename_i same
      rw [same]
    · rfl
  refine ⟨fun u v m hu hv => h.owner u v m (owned u m hu) (owned v m hv), ?_,
    ?_, ?_, ?_, ?_, ?_, ?_⟩
  · rw [next]
    exact fun u m hu => h.below u m (owned u m hu)
  · intro u m hu
    rw [value, ups]
    exact h.value u m (owned u m hu)
  · intro m
    rw [value, ups]
    exact h.value_le m
  · intro m u
    rw [sleeps, sema, Function.update_apply]
    split
    · rename_i same
      rw [same, List.mem_cons, h.waiters n u]
      simp only [and_true]
    · rename_i other
      simp only [other, and_false, false_or]
      exact h.waiters m u
  · intro m
    rw [sema, Function.update_apply]
    split
    · refine List.nodup_cons.mpr ⟨?_, h.nodup n⟩
      intro waits
      rw [h.waiters n t, here] at waits
      cases waits
    · exact h.nodup m
  · intro m u hu
    rw [ups]
    rcases (sleeps u m).mp hu with ⟨-, rfl⟩ | hu
    · rw [← h.value t m mine, zero]
    · exact h.asleep m u hu
  · rw [ups, next]
    exact h.fresh

/-- `Semaphore::up`, after which no thread is blocked in the semaphore. -/
theorem raised {n : Nat} (h : s.Semas) (below : n < s.next)
    (owned : ∀ u m, (s'.pc u).owns = some m → (s.pc u).owns = some m)
    (sleeps : ∀ u m, s'.pc u = .blocked m ↔ m ≠ n ∧ s.pc u = .blocked m)
    (sema : s'.sema = Function.update s.sema n ⟨(s.sema n).value + 1, []⟩)
    (ups : s'.ups = Function.update s.ups n (s.ups n + 1))
    (next : s'.next = s.next) : s'.Semas := by
  refine ⟨fun u v m hu hv => h.owner u v m (owned u m hu) (owned v m hv), ?_,
    ?_, ?_, ?_, ?_, ?_, ?_⟩
  · rw [next]
    exact fun u m hu => h.below u m (owned u m hu)
  · intro u m hu
    have before := h.value u m (owned u m hu)
    by_cases same : m = n
    · subst same
      rw [sema, ups, Function.update_self, Function.update_self, before]
    · rw [sema, ups, Function.update_of_ne same, Function.update_of_ne same, before]
  · intro m
    by_cases same : m = n
    · subst same
      rw [sema, ups, Function.update_self, Function.update_self]
      exact Nat.succ_le_succ (h.value_le m)
    · rw [sema, ups, Function.update_of_ne same, Function.update_of_ne same]
      exact h.value_le m
  · intro m u
    rw [sleeps]
    by_cases same : m = n
    · subst same
      rw [sema, Function.update_self]
      simp only [List.not_mem_nil, ne_eq, not_true_eq_false, false_and]
    · rw [sema, Function.update_of_ne same, h.waiters m u]
      simp only [ne_eq, same, not_false_eq_true, true_and]
  · intro m
    rw [sema, Function.update_apply]
    split
    · exact List.nodup_nil
    · exact h.nodup m
  · intro m u hu
    obtain ⟨other, hu⟩ := (sleeps u m).mp hu
    rw [ups, Function.update_of_ne other]
    exact h.asleep m u hu
  · intro m hm
    rw [next] at hm
    rw [ups, Function.update_of_ne (by omega)]
    exact h.fresh m hm

theorem alone {n k : Nat} {w : Tid} (h : s.Semas) (chosen : (s.sema n).waiters[k]? = some w) :
    (s.sema n).waiters = [w] ∧ k = 0 := by
  have waits : w ∈ (s.sema n).waiters := List.mem_of_getElem? chosen
  have mine : (s.pc w).owns = some n := by rw [(h.waiters n w).mp waits]; rfl
  have only : ∀ u ∈ (s.sema n).waiters, u = w := by
    intro u hu
    exact h.owner u w n (by rw [(h.waiters n u).mp hu]; rfl) mine
  have single : (s.sema n).waiters = [w] := by
    refine List.perm_singleton.mp
      ((List.perm_ext_iff_of_nodup (h.nodup n) (List.nodup_singleton w)).mpr ?_)
    intro u
    rw [List.mem_singleton]
    exact ⟨only u, fun same => same ▸ waits⟩
  rw [single] at chosen
  exact ⟨single, by simpa using (List.getElem?_eq_some_iff.mp chosen).1⟩

end Semas

/-- What a step in the monitor that raises no semaphore leaves alone. -/
structure Frame (s s' : Monitor) : Prop where
  owner : s'.owner = s.owner
  inner : s'.inner = s.inner
  holder : s'.holder = s.holder
  sema : s'.sema = s.sema
  ups : s'.ups = s.ups
  next : s'.next = s.next

theorem Control.local_others (c : s.Control) (has : s.owner = some t) {u : Tid} (other : u ≠ t) :
    Local s' u (s.pc u) := by
  refine Local.outside (Bool.eq_false_iff.mpr fun inside => other ?_)
  exact Option.some.inj ((c.held u inside).symm.trans has)

/-- What a step leaves alone that is none of `Condvar`'s: it can only add to the waiters of a
semaphore. -/
structure View (s s' : Monitor) : Prop where
  queue : s'.queue = s.queue
  cell : s'.cell = s.cell
  reading : s'.reading = s.reading
  ups : s'.ups = s.ups
  next : s'.next = s.next
  called : s'.called = s.called
  woke : s'.woke = s.woke
  waiters : ∀ n, (s.sema n).waiters.length ≤ (s'.sema n).waiters.length

/-- What a step of the mutex leaves alone. -/
structure Aside (s s' : Monitor) : Prop where
  queue : s'.queue = s.queue
  cell : s'.cell = s.cell
  reading : s'.reading = s.reading
  ups : s'.ups = s.ups
  next : s'.next = s.next
  called : s'.called = s.called
  woke : s'.woke = s.woke
  sema : s'.sema = s.sema

theorem Aside.view (aside : s.Aside s') : s.View s' :=
  ⟨aside.queue, aside.cell, aside.reading, aside.ups, aside.next, aside.called, aside.woke,
    fun _ => by rw [aside.sema]⟩

theorem Local.mono (known : Local s t p) (view : s.View s') : Local s' t p := by
  cases p with
  | load c n w =>
    simp only [Local, view.queue, view.called, view.woke] at known ⊢
    exact ⟨known.1, known.2.trans (view.waiters n)⟩
  | loadHeld c n w =>
    simp only [Local, view.queue, view.called, view.woke] at known ⊢
    exact ⟨known.1, known.2.1.trans (view.waiters n), known.2.2⟩
  | _ =>
    simp only [Local, view.queue, view.called, view.woke] at known ⊢
    try exact known

/-- What `Semaphore::up` of `n` does besides waking a thread. -/
structure Raised (s s' : Monitor) (n : Nat) : Prop where
  owner : s'.owner = s.owner
  inner : s'.inner = s.inner
  holder : s'.holder = s.holder
  queue : s'.queue = s.queue
  cell : s'.cell = s.cell
  reading : s'.reading = s.reading
  next : s'.next = s.next
  ups : s'.ups = Function.update s.ups n (s.ups n + 1)

theorem up_free {n : Nat} (free : (s.sema n).waiters = []) :
    s.up t n p = ((s.setSema n ⟨(s.sema n).value + 1, []⟩).raised t n).goto t p := by
  simp only [up, free]

theorem up_blocked {n : Nat} {w : Tid} (waiting : (s.sema n).waiters = [w])
    (zero : (s.sema n).value = 0)
    (unread : s.reading n = 0) (sleeping : s.pc w = .blocked n) :
    s.up t n p = (((s.setSema n ⟨(s.sema n).value + 1, []⟩).raised t n).goto w
      (.down n)).goto t p := by
  obtain ⟨k, v, found, chosen, -⟩ := getMaxpriority_spec s.priority (List.cons_ne_nil w [])
  have first : k = 0 := by simpa using (List.getElem?_eq_some_iff.mp chosen).1
  simp [up, waiting, zero, unread, found, first, sleeping]

namespace Inv

theorem has (inv : s.Inv) (inside : (s.pc t).inMonitor = true) :
    s.owner = some t := inv.control.held t inside

theorem cell_eq (inv : s.Inv) (inside : (s.pc t).inMonitor = true) : s.cell = (s.pc t).cell := by
  rw [inv.control.cell, holderPc_of (inv.has inside)]

theorem reading_eq (inv : s.Inv) (inside : (s.pc t).inMonitor = true) (n : Nat) :
    s.reading n = if (s.pc t).reads = some n then 1 else 0 := by
  rw [inv.control.reading, holderPc_of (inv.has inside)]

theorem unread (inv : s.Inv) (inside : (s.pc t).inMonitor = true)
    (none : (s.pc t).reads = none) (n : Nat) :
    s.reading n = 0 := by
  rw [inv.reading_eq inside, none]
  rfl

/-- The thread that has the mutex goes on in the monitor, or leaves a function, without a word to
the semaphores. -/
theorem moved (inv : s.Inv) (has : s.owner = some t) (awake : ∀ n, s.pc t ≠ .blocked n)
    (written : (s.pc t).unwritten = false) (frame : s.Frame s')
    (pc : s'.pc = Function.update s.pc t p)
    (home : p.mayHave = true) (unwritten : p.unwritten = false) (cell : s'.cell = p.cell)
    (reading : ∀ n, s'.reading n = if p.reads = some n then 1 else 0)
    (owns : p.owns = (s.pc t).owns)
    (stays : ∀ n, p ≠ .blocked n)
    (unraised : List.Perm (p.unraised s'.queue) ((s.pc t).unraised s.queue))
    (known : Local s' t p) : s'.Inv := by
  have here : s'.holderPc = p := by
    rw [holderPc_of (frame.owner.trans has), pc, Function.update_self]
  have same : List.Perm (s'.holderPc.unraised s'.queue) (s.holderPc.unraised s.queue) := by
    rw [here, holderPc_of has]
    exact unraised
  have owned : s'.Owned := by
    refine inv.control.within has home pc frame.owner frame.inner ?_
    rw [unwritten, frame.holder, inv.control.written has written]
    rfl
  refine ⟨⟨owned, by rw [here, cell], by rw [here]; exact reading⟩,
    inv.semas.moved pc frame.sema frame.ups frame.next (fun n hn => owns ▸ hn) awake
    stays, ?_, ?_, ?_, ?_, ?_⟩
  · intro u
    rw [pc, Function.update_apply]
    split
    · rename_i mine
      rw [mine]
      exact known
    · rename_i other
      exact inv.control.local_others has other
  · exact same.nodup_iff.mpr inv.queue.nodup
  · intro n hn
    rw [frame.next] at hn
    rw [same.mem_iff, frame.ups]
    exact inv.queue.unraised n hn
  · intro n hn
    rw [frame.next]
    exact inv.queue.bounded n (same.mem_iff.mp hn)
  · rw [frame.ups]
    exact inv.queue.once

/-- A step that is none of `Condvar`'s in the monitor. -/
theorem elsewhere (inv : s.Inv) (owned : s'.Owned) (same : CvPc.Alike s.holderPc s'.holderPc)
    (semas : s'.Semas)
    (view : s.View s') (known : ∀ u, s'.pc u = s.pc u ∨ Local s' u (s'.pc u)) : s'.Inv := by
  have unraised : s'.holderPc.unraised s'.queue = s.holderPc.unraised s.queue := by
    rw [view.queue, same.unraised]
  refine ⟨inv.control.alike owned same view.cell view.reading, semas, ?_, ?_, ?_, ?_, ?_⟩
  · intro u
    obtain stays | known := known u
    · rw [stays]
      exact (inv.queue.local_ u).mono view
    · exact known
  · rw [unraised]
    exact inv.queue.nodup
  · rw [unraised, view.ups, view.next]
    exact inv.queue.unraised
  · rw [unraised, view.next]
    exact inv.queue.bounded
  · rw [view.ups]
    exact inv.queue.once

/-- A thread goes on in `acquire` or `release`, or between them and `wait`. -/
theorem passes (inv : s.Inv) (owned : s'.Owned) (was : (s.pc t).Plain) (now : p.Plain)
    (pc : s'.pc = Function.update s.pc t p)
    (owner : s'.owner = s.owner ∨ (s.owner = none ∧ s'.owner = some t) ∨
      (s.owner = some t ∧ s'.owner = none))
    (semas : s'.Semas) (view : s.View s') (known : Local s' t p) : s'.Inv := by
  refine inv.elsewhere owned (holderPc_alike was now pc owner) semas view fun u => ?_
  by_cases mine : u = t
  · rw [mine, pc, Function.update_self]
    exact .inr known
  · rw [pc, Function.update_of_ne mine]
    exact .inl rfl

theorem outside (inv : s.Inv) (was : (s.pc t).mayHave = false) (out : p.inMonitor = false)
    (pc : s'.pc = Function.update s.pc t p) (owner : s'.owner = s.owner)
    (inner : s'.inner = s.inner)
    (holder : s'.holder = s.holder) (semas : s'.Semas) (view : s.View s') : s'.Inv := by
  have other : s.owner ≠ some t := by
    intro has
    rw [inv.control.home t has] at was
    cases was
  have outside : (s.pc t).inMonitor = false :=
    Bool.eq_false_iff.mpr fun inside => other (inv.has inside)
  exact inv.passes (inv.control.outside other out pc owner inner holder)
    (CvPc.plain_of_outside outside)
    (CvPc.plain_of_outside out) pc (.inl owner) semas view (.outside out)

theorem unraised_head (inv : s.Inv) (inside : (s.pc t).inMonitor = true) {n : Nat} {rest : List Nat}
    (next : (s.pc t).unraised s.queue = n :: rest) : n < s.next ∧ s.ups n = 0 := by
  have head : n ∈ s.holderPc.unraised s.queue := by
    rw [holderPc_of (inv.has inside), next]
    exact List.mem_cons_self
  have below := inv.queue.bounded n head
  exact ⟨below, (inv.queue.unraised n below).mp head⟩

/-- The thread that has the mutex has raised a semaphore. -/
theorem raised {n : Nat} (inv : s.Inv) (path : (s.pc t).Goes p)
    (next : (s.pc t).unraised s.queue = n :: p.unraised s.queue) (cell : p.cell = (s.pc t).cell)
    (semas : s'.Semas) (here : s'.pc t = p) (others : ∀ u, u ≠ t → (s'.pc u).inMonitor = false)
    (known : Local s' t p) (frame : s.Raised s' n) : s'.Inv := by
  have inside := path.inside
  have has := inv.has inside
  have has' : s'.owner = some t := frame.owner.trans has
  obtain ⟨below, none_yet⟩ := inv.unraised_head inside next
  have before : s.holderPc.unraised s.queue = n :: p.unraised s.queue := by
    rw [holderPc_of has, next]
  have after : s'.holderPc.unraised s'.queue = p.unraised s.queue := by
    rw [holderPc_of has', here, frame.queue]
  have nodup := inv.queue.nodup
  rw [before, List.nodup_cons] at nodup
  refine ⟨⟨⟨?_, ?_, ?_, ?_⟩, ?_, ?_⟩, semas, ?_, ?_, ?_, ?_, ?_⟩
  · intro u hu
    by_cases same : u = t
    · rw [same, has']
    · rw [others u same] at hu
      cases hu
  · intro u hu
    obtain rfl : t = u := Option.some.inj (has'.symm.trans hu)
    rw [here]
    exact path.home
  · rw [frame.inner, frame.owner, inv.control.inner]
  · rw [frame.holder, holderPc_of has', here, path.unwritten,
      inv.control.written has path.written, has']
    rfl
  · rw [frame.cell, holderPc_of has', here, cell, inv.cell_eq inside]
  · intro m
    rw [frame.reading, holderPc_of has', here, path.reads, inv.unread inside path.was]
    rfl
  · intro u
    by_cases same : u = t
    · rw [same, here]
      exact known
    · exact Local.outside (others u same)
  · rw [after]
    exact nodup.2
  · intro m hm
    rw [frame.next] at hm
    rw [after, frame.ups]
    by_cases same : m = n
    · subst same
      rw [Function.update_self, none_yet]
      simp only [nodup.1, false_iff]
      omega
    · rw [Function.update_of_ne same, ← inv.queue.unraised m hm, before, List.mem_cons]
      simp only [same, false_or]
  · intro m hm
    rw [after] at hm
    rw [frame.next]
    exact inv.queue.bounded m (before ▸ List.mem_cons_of_mem n hm)
  · intro m
    rw [frame.ups, Function.update_apply]
    split
    · omega
    · exact inv.queue.once m

/-- `Semaphore::up` in the monitor, of the next semaphore to raise. -/
theorem up {q : CvPc} {n : Nat} (inv : s.Inv) (here : s.pc t = q) (path : q.Goes p)
    (next : q.unraised s.queue = n :: p.unraised s.queue)
    (cell : p.cell = q.cell) (free : p.owns = none)
    (known : ∀ s', s'.queue = s.queue → s'.called t = s.called t →
      s'.woke t = n :: s.woke t → Local s' t p) :
    s.Fine (s.up t n p) := by
  subst here
  have inside := path.inside
  obtain ⟨below, none_yet⟩ := inv.unraised_head inside next
  have value : (s.sema n).value = 0 := by
    have := inv.semas.value_le n
    omega
  have awake : ∀ m, p ≠ .blocked m := by
    rintro m rfl
    cases free
  have here : ∀ m, s.pc t ≠ .blocked m := CvPc.awake inside
  have others : ∀ u, u ≠ t → (s.pc u).inMonitor = false := by
    intro u other
    refine Bool.eq_false_iff.mpr fun h => other ?_
    exact Option.some.inj ((inv.has h).symm.trans (inv.has inside))
  rcases waiting : (s.sema n).waiters with _ | ⟨w, ws⟩
  · rw [up_free waiting]
    refine ⟨inv.raised path next cell (inv.semas.raised below ?_ ?_ rfl rfl rfl)
      (Function.update_self ..) ?_
      (known _ rfl rfl (Function.update_self ..)) ⟨rfl, rfl, rfl, rfl, rfl, rfl, rfl, rfl⟩, rfl⟩
    · intro u m hu
      simp only [goto, Function.update_apply] at hu
      split at hu
      · rw [free] at hu
        cases hu
      · exact hu
    · intro u m
      simp only [goto, Function.update_apply]
      split
      · rename_i same
        rw [same]
        exact ⟨fun h => absurd h (awake m), fun h => absurd h.2 (here m)⟩
      · refine ⟨fun h => ⟨?_, h⟩, fun h => h.2⟩
        rintro rfl
        have waits := (inv.semas.waiters m u).mpr h
        rw [waiting] at waits
        cases waits
    · intro u other
      simp only [goto, Function.update_of_ne other]
      exact others u other
  · obtain ⟨single, -⟩ := inv.semas.alone (n := n) (k := 0) (w := w) (by rw [waiting]; rfl)
    have sleeping : s.pc w = .blocked n :=
      (inv.semas.waiters n w).mp (by rw [single]; exact List.mem_singleton_self w)
    rw [up_blocked single value (inv.unread inside path.was n) sleeping]
    have mine : (s.pc w).owns = some n := by rw [sleeping]; rfl
    refine ⟨inv.raised path next cell (inv.semas.raised below ?_ ?_ rfl rfl rfl)
      (Function.update_self ..) ?_
      (known _ rfl rfl (Function.update_self ..)) ⟨rfl, rfl, rfl, rfl, rfl, rfl, rfl, rfl⟩, rfl⟩
    · intro u m hu
      simp only [goto, Function.update_apply] at hu
      split at hu
      · rw [free] at hu
        cases hu
      split at hu
      · rename_i woken
        rw [woken, mine]
        exact hu
      · exact hu
    · intro u m
      simp only [goto, Function.update_apply]
      split
      · rename_i same
        rw [same]
        exact ⟨fun h => absurd h (awake m), fun h => absurd h.2 (here m)⟩
      split
      · rename_i woken
        rw [woken, sleeping, CvPc.blocked.injEq]
        exact ⟨nofun, fun h => absurd h.2.symm h.1⟩
      · rename_i other
        refine ⟨fun h => ⟨?_, h⟩, fun h => h.2⟩
        rintro rfl
        have sleeps : s.pc u = .blocked m := h
        exact other (inv.semas.owner u w m (by rw [sleeps]; rfl) mine)
    · intro u other
      simp only [goto, Function.update_of_ne other, Function.update_apply]
      split
      · rfl
      · exact others u other

/-- A step in the monitor between two places at which no waiters are borrowed. -/
theorem goes {q : CvPc} (inv : s.Inv) (here : s.pc t = q) (path : q.Goes p) (frame : s.Frame s')
    (pc : s'.pc = Function.update s.pc t p) (cell : s'.cell = p.cell)
    (reading : s'.reading = s.reading)
    (unraised : List.Perm (p.unraised s'.queue) (q.unraised s.queue))
    (known : Local s' t p) : s'.Inv := by
  subst here
  refine inv.moved (inv.has path.inside) (CvPc.awake path.inside) path.written frame pc
    path.home path.unwritten cell ?_
    path.owns path.stays unraised known
  intro n
  rw [reading, inv.unread path.inside path.was, path.reads]
  rfl

/-- `self.0.borrow()` in the monitor. -/
theorem borrow {q : CvPc} (inv : s.Inv) (here : s.pc t = q) (path : q.Goes p)
    (free : q.cell = (0, false))
    (cell : p.cell = (1, false)) (unraised : p.unraised s.queue = q.unraised s.queue)
    (known : Local s t p) :
    s.Fine (s.borrow t p) := by
  have now : s.cell = (0, false) := by
    rw [inv.cell_eq (t := t) (by rw [here, path.inside]), here, free]
  rw [show s.borrow t p = { s with cell := (1, false) }.goto t p by simp [Monitor.borrow, now]]
  exact ⟨inv.goes here path ⟨rfl, rfl, rfl, rfl, rfl, rfl⟩ rfl cell.symm rfl
    (.of_eq unraised) known, rfl⟩

/-- `self.0.borrow_mut()` in the monitor. -/
theorem borrowMut {q : CvPc} (inv : s.Inv) (here : s.pc t = q) (path : q.Goes p)
    (free : q.cell = (0, false))
    (cell : p.cell = (0, true)) (unraised : p.unraised s.queue = q.unraised s.queue)
    (known : Local s t p) :
    s.Fine (s.borrowMut t p) := by
  have now : s.cell = (0, false) := by
    rw [inv.cell_eq (t := t) (by rw [here, path.inside]), here, free]
  rw [show s.borrowMut t p = { s with cell := (0, true) }.goto t p by simp [Monitor.borrowMut, now]]
  exact ⟨inv.goes here path ⟨rfl, rfl, rfl, rfl, rfl, rfl⟩ rfl cell.symm rfl
    (.of_eq unraised) known, rfl⟩

theorem give {q : CvPc} (inv : s.Inv) (here : s.pc t = q) (path : q.Goes p)
    (has : q.cell = (1, false))
    (cell : p.cell = (0, false)) (unraised : p.unraised s.queue = q.unraised s.queue)
    (known : Local s t p) :
    s.Fine (s.give.goto t p) := by
  have now : s.cell = (1, false) := by
    rw [inv.cell_eq (t := t) (by rw [here, path.inside]), here, has]
  refine ⟨inv.goes here path ⟨rfl, rfl, rfl, rfl, rfl, rfl⟩ rfl ?_ rfl (.of_eq unraised) known, rfl⟩
  simp only [cell, goto, Monitor.give, now, Nat.sub_self]

theorem giveMut {q : CvPc} {queue : List Nat} (inv : s.Inv) (here : s.pc t = q) (path : q.Goes p)
    (has : q.cell = (0, true)) (cell : p.cell = (0, false))
    (unraised : List.Perm (p.unraised queue) (q.unraised s.queue))
    (known : Local { s with queue := queue } t p) :
    s.Fine ({ s with queue := queue }.giveMut.goto t p) := by
  have now : s.cell = (0, true) := by
    rw [inv.cell_eq (t := t) (by rw [here, path.inside]), here, has]
  refine ⟨inv.goes here path ⟨rfl, rfl, rfl, rfl, rfl, rfl⟩ rfl ?_ rfl unraised known, rfl⟩
  simp only [cell, goto, Monitor.giveMut, now]

/-- The thread that has the mutex goes on in the monitor, where it may have borrowed waiters. -/
structure Reads (q p : CvPc) : Prop where
  inside : q.inMonitor = true
  written : q.unwritten = false
  home : p.mayHave = true
  unwritten : p.unwritten = false
  cell : p.cell = q.cell
  owns : p.owns = q.owns
  stays : ∀ m, p ≠ .blocked m

/-- `self.waiters.borrow()` in `get_maxpriority`. -/
theorem peek {q : CvPc} {n : Nat} (inv : s.Inv) (here : s.pc t = q)
    (path : Reads q p) (was : q.reads = none)
    (reads : p.reads = some n) (unraised : p.unraised s.queue = q.unraised s.queue)
    (known : Local s t p) :
    s.Fine ((s.peek n).goto t p) := by
  subst here
  refine ⟨inv.moved (inv.has path.inside) (CvPc.awake path.inside) path.written
    ⟨rfl, rfl, rfl, rfl, rfl, rfl⟩ rfl
    path.home path.unwritten ((inv.cell_eq path.inside).trans path.cell.symm)
    ?_ path.owns path.stays
    (.of_eq unraised) known, rfl⟩
  intro m
  have none_read := inv.unread path.inside was
  simp only [goto, Monitor.peek, Function.update_apply, none_read, reads,
    Option.some.injEq, eq_comm (a := n)]

theorem unpeek {q : CvPc} {n : Nat} (inv : s.Inv) (here : s.pc t = q) (path : Reads q p)
    (was : q.reads = some n)
    (reads : p.reads = none) (unraised : p.unraised s.queue = q.unraised s.queue)
    (known : Local s t p) :
    s.Fine ((s.unpeek n).goto t p) := by
  subst here
  refine ⟨inv.moved (inv.has path.inside) (CvPc.awake path.inside) path.written
    ⟨rfl, rfl, rfl, rfl, rfl, rfl⟩ rfl
    path.home path.unwritten ((inv.cell_eq path.inside).trans path.cell.symm)
    ?_ path.owns path.stays
    (.of_eq unraised) known, rfl⟩
  intro m
  have read := inv.reading_eq path.inside
  simp only [was, Option.some.injEq] at read
  simp only [goto, Monitor.unpeek, Function.update_apply, read, reads, reduceCtorEq, if_false]
  split
  · rfl
  · rename_i other
    rw [if_neg (Ne.symm other)]

theorem goto {q : CvPc} (inv : s.Inv) (here : s.pc t = q) (path : q.Goes p) (cell : p.cell = q.cell)
    (unraised : p.unraised s.queue = q.unraised s.queue) (known : Local s t p) :
    s.Fine (s.goto t p) := by
  refine ⟨inv.goes here path ⟨rfl, rfl, rfl, rfl, rfl, rfl⟩ rfl ?_ rfl (.of_eq unraised) known, rfl⟩
  rw [cell, ← here]
  exact inv.cell_eq (by rw [here, path.inside])

theorem panic (inv : s.Inv) (m : Mishap) : (s.panic m).Inv :=
  inv.elsewhere ⟨inv.control.held, inv.control.home, inv.control.inner, inv.control.holder⟩
    ⟨rfl, rfl, fun _ => rfl⟩
    ⟨inv.semas.owner, inv.semas.below, inv.semas.value, inv.semas.value_le,
      inv.semas.waiters, inv.semas.nodup,
      inv.semas.asleep, inv.semas.fresh⟩
    (Aside.view ⟨rfl, rfl, rfl, rfl, rfl, rfl, rfl, rfl⟩) fun _ => .inl rfl

theorem set (inv : s.Inv) (inside : (s.pc t).inMonitor = true)
    (written : (s.pc t).unwritten = false) :
    s.holder = some t := inv.control.written (inv.has inside) written

theorem unset (inv : s.Inv) (inside : (s.pc t).inMonitor = true)
    (unwritten : (s.pc t).unwritten = true) :
    s.holder = none := by
  rw [inv.control.holder, holderPc_of (inv.has inside), unwritten]
  rfl

/-- The thread that has the mutex goes on in `acquire` or `release`. -/
theorem inward {q : CvPc} (inv : s.Inv) (here : s.pc t = q)
    (inside : q.inMonitor = true) (was : q.Plain)
    (now : p.Plain) (home : p.mayHave = true) (pc : s'.pc = Function.update s.pc t p)
    (owner : s'.owner = s.owner)
    (inner : s'.inner = s.inner) (holder : s'.holder = if p.unwritten then none else some t)
    (owns : ∀ n, p.owns = some n → q.owns = some n) (stays : ∀ n, p ≠ .blocked n)
    (aside : s.Aside s')
    (known : Local s' t p) : s'.Inv := by
  subst here
  refine inv.passes (inv.control.within (inv.has inside) home pc owner inner holder)
    was now pc (.inl owner) ?_
    aside.view known
  exact inv.semas.moved pc aside.sema aside.ups aside.next owns (CvPc.awake inside) stays

/-- A thread without the mutex goes on in `acquire` or `release`. -/
theorem outward {q : CvPc} (inv : s.Inv) (here : s.pc t = q) (was : q.mayHave = false)
    (out : p.inMonitor = false)
    (pc : s'.pc = Function.update s.pc t p) (owner : s'.owner = s.owner)
    (inner : s'.inner = s.inner)
    (holder : s'.holder = s.holder) (owns : ∀ n, p.owns = some n → q.owns = some n)
    (awake : ∀ n, q ≠ .blocked n)
    (stays : ∀ n, p ≠ .blocked n) (aside : s.Aside s') : s'.Inv := by
  subst here
  refine inv.outside was out pc owner inner holder ?_ aside.view
  exact inv.semas.moved pc aside.sema aside.ups aside.next owns awake stays

/-- A borrow of the holder cell, which panics at most when the threads are not apart. -/
theorem grasp {mutably : Bool} (inv : s.Inv) (wants : mutably ∈ (s.pc t).wants)
    (moves : ({ s with grip := (t, mutably) :: s.grip }.goto t p).Inv) :
    s.Fares (s.grasp t mutably p) (.exec t) := by
  unfold Monitor.grasp
  split
  · rename_i clash
    refine ⟨inv.panic .borrow, fun apart => ?_⟩
    rw [apart.1 mutably wants] at clash
    cases clash
  · exact ⟨moves, fun _ => .inl rfl⟩

/-- A step of `acquire`. -/
theorem enter {x : Entry} (inv : s.Inv) (here : s.pc t = .acquire x)
    (stepped : s.enter t x = some s') :
    s.Fares s' (.exec t) := by
  cases x with
  | test =>
    cases stepped
    refine inv.grasp (by rw [here]; exact List.mem_singleton_self _) ?_
    exact inv.outward here rfl rfl rfl rfl rfl rfl nofun nofun nofun
      ⟨rfl, rfl, rfl, rfl, rfl, rfl, rfl, rfl⟩
  | testHeld =>
    cases stepped
    refine ⟨?_, fun _ => .inl rfl⟩
    split <;>
      exact inv.outward here rfl rfl rfl rfl rfl rfl nofun nofun nofun
        ⟨rfl, rfl, rfl, rfl, rfl, rfl, rfl, rfl⟩
  | again =>
    cases stepped
    refine inv.grasp (by rw [here]; exact List.mem_singleton_self _) ?_
    exact inv.outward here rfl rfl rfl rfl rfl rfl nofun nofun nofun
      ⟨rfl, rfl, rfl, rfl, rfl, rfl, rfl, rfl⟩
  | againHeld =>
    cases stepped
    split
    · refine ⟨?_, fun _ => .inl rfl⟩
      exact inv.outward here rfl rfl rfl rfl rfl rfl nofun nofun nofun
        ⟨rfl, rfl, rfl, rfl, rfl, rfl, rfl, rfl⟩
    · exact ⟨inv.panic .unwrap, fun _ => .inr rfl⟩
  | down =>
    rw [Monitor.enter] at stepped
    split at stepped
    · cases stepped
    · rename_i up
      cases stepped
      have free : s.owner = none := by
        by_contra has
        rw [inv.control.inner, if_neg has] at up
        exact up rfl
      have down : s.inner - 1 = 0 := by rw [inv.control.inner, if_pos free]
      refine ⟨inv.passes (inv.control.taken free rfl rfl rfl rfl down rfl)
        (by rw [here]; exact .acquire .down)
        (.acquire .write) rfl (.inr (.inl ⟨free, rfl⟩)) ?_
        (Aside.view ⟨rfl, rfl, rfl, rfl, rfl, rfl, rfl, rfl⟩) trivial,
        fun _ => .inl rfl⟩
      exact inv.semas.moved rfl rfl rfl rfl nofun (by rw [here]; exact nofun) nofun
  | write =>
    cases stepped
    refine inv.grasp (by rw [here]; exact List.mem_singleton_self _) ?_
    exact inv.inward here rfl (.acquire .write) (.acquire .writeHeld) rfl rfl rfl rfl
      (inv.unset (by rw [here]; rfl) (by rw [here]; rfl)) nofun nofun
      ⟨rfl, rfl, rfl, rfl, rfl, rfl, rfl, rfl⟩ trivial
  | writeHeld =>
    cases stepped
    refine ⟨?_, fun _ => .inl rfl⟩
    exact inv.inward here rfl (.acquire .writeHeld) ⟨rfl, rfl, fun _ => rfl⟩ rfl rfl
      rfl rfl rfl nofun nofun
      ⟨rfl, rfl, rfl, rfl, rfl, rfl, rfl, rfl⟩ trivial

/-- A step of `release`. -/
theorem leave {x : Leave} {n : Option Nat} (inv : s.Inv) (here : s.pc t = .release x n) :
    s.Fares (s.leave t n x) (.exec t) := by
  cases x with
  | check =>
    refine inv.grasp (by rw [here]; exact List.mem_singleton_self _) ?_
    exact inv.inward here rfl (.release .check n) (.release .checkHeld n) rfl rfl rfl rfl
      (inv.set (by rw [here]; rfl) (by rw [here]; rfl)) (fun _ hn => hn) nofun
      ⟨rfl, rfl, rfl, rfl, rfl, rfl, rfl, rfl⟩ trivial
  | checkHeld =>
    have set : s.holder = some t := inv.set (by rw [here]; rfl) (by rw [here]; rfl)
    rw [Monitor.leave, if_pos set]
    refine ⟨?_, fun _ => .inl rfl⟩
    exact inv.inward here rfl (.release .checkHeld n) (.release .take n) rfl rfl rfl rfl
      set (fun _ hn => hn) nofun
      ⟨rfl, rfl, rfl, rfl, rfl, rfl, rfl, rfl⟩ trivial
  | take =>
    refine inv.grasp (by rw [here]; exact List.mem_singleton_self _) ?_
    exact inv.inward here rfl (.release .take n) (.release .takeHeld n) rfl rfl rfl rfl
      (inv.set (by rw [here]; rfl) (by rw [here]; rfl)) (fun _ hn => hn) nofun
      ⟨rfl, rfl, rfl, rfl, rfl, rfl, rfl, rfl⟩ trivial
  | takeHeld =>
    have set : s.holder = some t := inv.set (by rw [here]; rfl) (by rw [here]; rfl)
    rw [Monitor.leave, if_pos (by rw [set]; rfl)]
    refine ⟨?_, fun _ => .inl rfl⟩
    exact inv.inward here rfl (.release .takeHeld n) (.release .up n) rfl rfl rfl rfl
      rfl (fun _ hn => hn) nofun
      ⟨rfl, rfl, rfl, rfl, rfl, rfl, rfl, rfl⟩ trivial
  | up =>
    have has : s.owner = some t := inv.has (by rw [here]; rfl)
    refine ⟨inv.passes (inv.control.freed has (by rw [here]; rfl) rfl rfl rfl rfl rfl)
      (by rw [here]; exact .release .up n) (.release .yield n) rfl (.inr (.inr ⟨has, rfl⟩)) ?_
      (Aside.view ⟨rfl, rfl, rfl, rfl, rfl, rfl, rfl, rfl⟩) trivial, fun _ => .inl rfl⟩
    exact inv.semas.moved rfl rfl rfl rfl (fun m hm => by rw [here]; exact hm)
      (by rw [here]; exact nofun) nofun
  | yield =>
    refine ⟨?_, fun _ => .inl rfl⟩
    cases n with
    | none =>
      exact inv.outward here rfl rfl rfl rfl rfl rfl nofun nofun nofun
        ⟨rfl, rfl, rfl, rfl, rfl, rfl, rfl, rfl⟩
    | some n =>
      exact inv.outward here rfl rfl rfl rfl rfl rfl (fun _ hn => hn) nofun nofun
        ⟨rfl, rfl, rfl, rfl, rfl, rfl, rfl, rfl⟩

/-- A turn of `sema.down()` in `wait`. -/
theorem downTurn {n : Nat} (inv : s.Inv) (here : s.pc t = .down n) :
    s.Fares (s.downTurn t n) (.exec t) := by
  have was : (s.pc t).mayHave = false := by rw [here]; rfl
  simp only [Monitor.downTurn]
  split
  · rename_i zero
    split
    · rename_i read
      refine ⟨inv.panic .borrow, fun apart => absurd (apart.2 n ?_ zero) read⟩
      rw [here]
      exact List.mem_singleton_self n
    · refine ⟨inv.outside was rfl rfl rfl rfl rfl (inv.semas.slept here zero rfl rfl rfl rfl)
        ⟨rfl, rfl, rfl, rfl, rfl, rfl, rfl, ?_⟩, fun _ => .inl rfl⟩
      intro m
      simp only [Monitor.goto, setSema, Function.update_apply]
      split
      · rename_i same
        rw [same]
        exact Nat.le_succ _
      · exact Nat.le_refl _
  · refine ⟨inv.outside was rfl rfl rfl rfl rfl (inv.semas.taken here rfl rfl rfl rfl)
      ⟨rfl, rfl, rfl, rfl, rfl, rfl, rfl, ?_⟩, fun _ => .inl rfl⟩
    intro m
    simp only [Monitor.goto, setSema, Function.update_apply]
    split
    · rename_i same
      rw [same]
    · exact Nat.le_refl _

/-- One step of a thread in the functions of `Condvar`, but for the mutex and the semaphore of
`wait`. -/
theorem queued (inv : s.Inv) (stepped : s.exec t = some s') (leaves : ∀ x n, s.pc t ≠ .release x n)
    (downs : ∀ n, s.pc t ≠ .down n) (enters : ∀ x, s.pc t ≠ .acquire x) : s.Fine s' := by
  have known := inv.queue.local_ t
  unfold Monitor.exec at stepped
  split at stepped <;> rename_i here <;> simp only [here, Local] at known
  case h_1 => cases stepped
  case h_2 n =>
    cases stepped
    exact inv.borrowMut here ⟨rfl, rfl, rfl, rfl, rfl, rfl, rfl, nofun⟩ rfl rfl rfl trivial
  case h_3 n =>
    cases stepped
    exact inv.giveMut here ⟨rfl, rfl, rfl, rfl, rfl, rfl, rfl, nofun⟩ rfl rfl (.refl _) trivial
  case h_4 x n => exact absurd here (leaves x n)
  case h_5 n => exact absurd here (downs n)
  case h_6 => cases stepped
  case h_7 x => exact absurd here (enters x)
  case h_8 =>
    cases stepped
    exact inv.borrow here ⟨rfl, rfl, rfl, rfl, rfl, rfl, rfl, nofun⟩ rfl rfl rfl known
  case h_9 =>
    cases stepped
    exact inv.give here ⟨rfl, rfl, rfl, rfl, rfl, rfl, rfl, nofun⟩ rfl rfl rfl ⟨known, rfl⟩
  case h_10 length =>
    cases stepped
    exact inv.borrow here ⟨rfl, rfl, rfl, rfl, rfl, rfl, rfl, nofun⟩ rfl rfl rfl known
  case h_11 length =>
    cases stepped
    split
    · rename_i empty
      exact inv.give here ⟨rfl, rfl, rfl, rfl, rfl, rfl, rfl, nofun⟩ rfl rfl rfl
        ⟨known.1, .inl (List.isEmpty_iff.mp empty)⟩
    · rename_i some
      refine inv.give here ⟨rfl, rfl, rfl, rfl, rfl, rfl, rfl, nofun⟩ rfl rfl
        rfl ⟨known.1, known.2, ?_⟩
      exact List.length_pos_iff.mpr fun none => some (List.isEmpty_iff.mpr none)
  case h_12 c =>
    cases stepped
    split
    · rename_i more
      exact inv.borrow here ⟨rfl, rfl, rfl, rfl, rfl, rfl, rfl, nofun⟩ rfl rfl rfl
        ⟨known, known.2.1 ▸ more⟩
    · exact inv.goto here ⟨rfl, rfl, rfl, rfl, rfl, rfl, rfl, nofun⟩ rfl rfl
        ⟨known.1, .inr known.2.2⟩
  case h_13 c =>
    split at stepped
    · rename_i outside
      exact absurd known.2 (Nat.not_lt.mpr (List.getElem?_eq_none_iff.mp outside))
    · cases stepped
      exact inv.goto here ⟨rfl, rfl, rfl, rfl, rfl, rfl, rfl, nofun⟩ rfl rfl known
  case h_14 c n =>
    cases stepped
    exact inv.peek here ⟨rfl, rfl, rfl, rfl, rfl, rfl, nofun⟩ rfl rfl rfl known
  case h_15 c n =>
    cases stepped
    exact inv.unpeek here ⟨rfl, rfl, rfl, rfl, rfl, rfl, nofun⟩ rfl rfl rfl ⟨known, Nat.le_refl _⟩
  case h_16 c n w =>
    split at stepped
    · rename_i more
      cases stepped
      exact inv.peek here ⟨rfl, rfl, rfl, rfl, rfl, rfl, nofun⟩ rfl rfl rfl ⟨known.1, known.2, more⟩
    · cases stepped
      refine inv.give here ⟨rfl, rfl, rfl, rfl, rfl, rfl, rfl, nofun⟩ rfl rfl rfl ⟨known.1.1.1, ?_⟩
      split
      · exact ⟨known.1.1.2.1, known.1.2⟩
      · exact known.1.1.2
  case h_17 c n w =>
    split at stepped
    · rename_i outside
      have := List.getElem?_eq_none_iff.mp outside
      omega
    · cases stepped
      refine inv.unpeek here ⟨rfl, rfl, rfl, rfl, rfl, rfl, nofun⟩ rfl rfl rfl ⟨known.1, ?_⟩
      split <;> exact known.2.1
  case h_18 k =>
    cases stepped
    exact inv.borrowMut here ⟨rfl, rfl, rfl, rfl, rfl, rfl, rfl, nofun⟩ rfl rfl rfl known
  case h_19 k =>
    split at stepped
    · rename_i outside
      cases stepped
      have empty : s.queue = [] := by
        refine known.2.resolve_right fun inside => ?_
        exact absurd inside (Nat.not_lt.mpr (List.getElem?_eq_none_iff.mp outside))
      exact inv.giveMut here ⟨rfl, rfl, rfl, rfl, rfl, rfl, rfl, nofun⟩ rfl rfl (.refl _)
        (.inl ⟨known.1.1.trans empty, known.1.2⟩)
    · rename_i n found
      cases stepped
      obtain ⟨inside, at_k⟩ := List.getElem?_eq_some_iff.mp found
      refine inv.giveMut here ⟨rfl, rfl, rfl, rfl, rfl, rfl, rfl, nofun⟩ rfl rfl ?_ ⟨?_, known.1.2⟩
      · rw [← at_k]
        exact List.getElem_cons_eraseIdx_perm inside
      · rw [known.1.1]
        exact List.mem_of_getElem? found
  case h_20 n =>
    cases stepped
    refine inv.up here ⟨rfl, rfl, rfl, rfl, rfl, rfl, rfl, nofun⟩ rfl rfl rfl ?_
    intro s' _ called woke
    refine .inr ⟨n, called ▸ known.1, ?_⟩
    rw [woke, known.2]
  case h_21 =>
    cases stepped
    exact inv.goto here ⟨rfl, rfl, rfl, rfl, rfl, rfl, rfl, nofun⟩ rfl rfl trivial
  case h_22 =>
    cases stepped
    exact inv.borrow here ⟨rfl, rfl, rfl, rfl, rfl, rfl, rfl, nofun⟩ rfl rfl rfl ⟨known.1, known.2⟩
  case h_23 i =>
    split at stepped
    · rename_i n found
      cases stepped
      obtain ⟨within, at_i⟩ := List.getElem?_eq_some_iff.mp found
      refine inv.up here ⟨rfl, rfl, rfl, rfl, rfl, rfl, rfl, nofun⟩ ?_ rfl rfl ?_
      · rw [← at_i]
        exact List.drop_eq_getElem_cons within
      · intro s' queue called woke
        refine ⟨by rw [called, queue, known.1], ?_⟩
        rw [woke, queue, known.2, List.take_add_one, found, Option.toList_some, List.reverse_append]
        rfl
    · rename_i outside
      cases stepped
      have beyond := List.getElem?_eq_none_iff.mp outside
      refine inv.give here ⟨rfl, rfl, rfl, rfl, rfl, rfl, rfl, nofun⟩ rfl rfl
        (List.drop_eq_nil_of_le beyond).symm ?_
      rw [Local, known.2, List.take_of_length_le beyond, known.1]
  case h_24 =>
    cases stepped
    exact inv.borrowMut here ⟨rfl, rfl, rfl, rfl, rfl, rfl, rfl, nofun⟩ rfl rfl rfl known
  case h_25 =>
    cases stepped
    exact inv.giveMut here ⟨rfl, rfl, rfl, rfl, rfl, rfl, rfl, nofun⟩ rfl rfl (.refl _) known
  case h_26 =>
    cases stepped
    exact inv.goto here ⟨rfl, rfl, rfl, rfl, rfl, rfl, rfl, nofun⟩ rfl rfl trivial

theorem exec (inv : s.Inv) (stepped : s.exec t = some s') : s.Fares s' (.exec t) := by
  cases here : s.pc t with
  | release x n =>
    simp only [Monitor.exec, here, Option.some.injEq] at stepped
    exact stepped ▸ inv.leave here
  | down n =>
    simp only [Monitor.exec, here, Option.some.injEq] at stepped
    exact stepped ▸ inv.downTurn here
  | acquire x =>
    simp only [Monitor.exec, here] at stepped
    exact inv.enter here stepped
  | _ =>
    exact (inv.queued stepped (by rw [here]; exact nofun) (by rw [here]; exact nofun)
      (by rw [here]; exact nofun)).fares

theorem mayCall_iff : s.mayCall t = true ↔ s.owner = some t ∧ s.pc t = .idle := by
  rw [mayCall, Bool.and_eq_true, decide_eq_true_eq, decide_eq_true_eq]

/-- The thread that has the mutex calls a function that notifies. -/
theorem notifies (inv : s.Inv) (may : s.mayCall t = true) (path : CvPc.Goes .len p)
    (out : p.cell = (0, false))
    (plain : p.unraised s.queue = s.queue)
    (known : ∀ s', s'.called t = s'.queue → s'.woke t = [] → Local s' t p) :
    s.Fine ({ s with
      called := Function.update s.called t s.queue
      woke := Function.update s.woke t [] }.goto t p) := by
  obtain ⟨has, idle⟩ := mayCall_iff.mp may
  have here : s.holderPc = .idle := by rw [holderPc_of has, idle]
  refine ⟨inv.moved has (by rw [idle]; exact nofun) (by rw [idle]; rfl)
    ⟨rfl, rfl, rfl, rfl, rfl, rfl⟩ rfl path.home
    path.unwritten ?_ ?_ ?_ path.stays ?_ (known _ (Function.update_self ..)
      (Function.update_self ..)), rfl⟩
  · rw [out]
    exact inv.control.cell.trans (by rw [here]; rfl)
  · intro n
    rw [path.reads]
    exact (inv.control.reading n).trans (by rw [here]; rfl)
  · rw [path.owns, idle]
    rfl
  · rw [idle]
    exact .of_eq plain

/-- The thread that has the mutex calls `wait`. -/
theorem waits (inv : s.Inv) (may : s.mayCall t = true) :
    s.Fine ({ s with next := s.next + 1 }.goto t (.push s.next)) := by
  obtain ⟨has, idle⟩ := mayCall_iff.mp may
  have here : s.holderPc = .idle := by rw [holderPc_of has, idle]
  have new : ({ s with next := s.next + 1 }.goto t (.push s.next)).holderPc = .push s.next := by
    refine (holderPc_of (t := t) ?_).trans (Function.update_self ..)
    exact has
  have nodup := inv.queue.nodup
  have unraised := inv.queue.unraised
  have bounded := inv.queue.bounded
  rw [here] at nodup unraised bounded
  have owned : ({ s with next := s.next + 1 }.goto t (.push s.next)).Owned := by
    refine inv.control.within has rfl rfl rfl rfl ?_
    exact inv.control.written has (by rw [idle]; rfl)
  refine ⟨⟨⟨owned, ?_, ?_⟩, inv.semas.made (by rw [idle]; exact nofun) rfl rfl rfl rfl,
    ?_, ?_, ?_, ?_,
    inv.queue.once⟩, rfl⟩
  · rw [new]
    exact inv.control.cell.trans (by rw [here]; rfl)
  · intro n
    rw [new]
    exact (inv.control.reading n).trans (by rw [here]; rfl)
  · intro u
    simp only [Monitor.goto, Function.update_apply]
    split
    · trivial
    · exact inv.control.local_others has ‹_›
  · rw [new]
    refine List.nodup_cons.mpr ⟨fun old => ?_, nodup⟩
    exact absurd (bounded _ old) (Nat.lt_irrefl _)
  · intro n hn
    rw [new]
    simp only [Monitor.goto, CvPc.unraised, List.mem_cons] at hn ⊢
    rcases Nat.lt_or_eq_of_le (Nat.le_of_lt_succ hn) with old | rfl
    · rw [← unraised n old]
      simp only [CvPc.unraised, Nat.ne_of_lt old, false_or]
    · simp only [true_or, true_iff]
      exact inv.semas.fresh _ (Nat.le_refl _)
  · intro n hn
    rw [new] at hn
    rcases List.mem_cons.mp hn with rfl | old
    · exact Nat.lt_succ_self _
    · exact Nat.lt_succ_of_lt (bounded n old)

/-- A thread calls `lock`. -/
theorem locks (inv : s.Inv) (other : s.owner ≠ some t) (idle : s.pc t = .idle) :
    s.Fine (s.goto t (.acquire .test)) := by
  have plain : CvPc.Plain .idle := ⟨rfl, rfl, fun _ => rfl⟩
  refine ⟨inv.passes (inv.control.outside other rfl rfl rfl rfl rfl) (idle ▸ plain)
    (.acquire .test) rfl (.inl rfl) ?_
    (Aside.view ⟨rfl, rfl, rfl, rfl, rfl, rfl, rfl, rfl⟩) trivial, rfl⟩
  exact inv.semas.moved rfl rfl rfl rfl nofun (by rw [idle]; exact nofun) nofun

theorem unlocks (inv : s.Inv) (may : s.mayCall t = true) :
    s.Fine (s.goto t (.release .check none)) := by
  obtain ⟨has, idle⟩ := mayCall_iff.mp may
  have plain : CvPc.Plain .idle := ⟨rfl, rfl, fun _ => rfl⟩
  refine ⟨inv.passes (inv.control.within has rfl rfl rfl rfl ?_) (idle ▸ plain)
    (.release .check none) rfl (.inl rfl)
    ?_ (Aside.view ⟨rfl, rfl, rfl, rfl, rfl, rfl, rfl, rfl⟩) trivial, rfl⟩
  · exact inv.control.written has (by rw [idle]; rfl)
  · exact inv.semas.moved rfl rfl rfl rfl nofun (by rw [idle]; exact nofun) nofun

theorem reprioritized (inv : s.Inv) (u : Tid) (k : Nat) :
    s.Fine { s with priority := Function.update s.priority u k } := by
  refine ⟨inv.elsewhere ⟨inv.control.held, inv.control.home, inv.control.inner, inv.control.holder⟩
    ⟨rfl, rfl, fun _ => rfl⟩ ?_ (Aside.view ⟨rfl, rfl, rfl, rfl, rfl, rfl, rfl, rfl⟩)
    fun _ => .inl rfl, rfl⟩
  exact ⟨inv.semas.owner, inv.semas.below, inv.semas.value, inv.semas.value_le,
    inv.semas.waiters, inv.semas.nodup,
    inv.semas.asleep, inv.semas.fresh⟩

theorem step {e : CvEvent} (inv : s.Inv) (stepped : s.step e = some s') : s.Fares s' e := by
  unfold Monitor.step at stepped
  split at stepped
  · cases stepped
  cases e with
  | exec t => exact inv.exec stepped
  | lock t =>
    simp only at stepped
    split at stepped
    · rename_i may
      cases stepped
      exact (inv.locks may.1 may.2).fares
    · cases stepped
  | unlock t =>
    simp only at stepped
    split at stepped
    · cases stepped
      exact (inv.unlocks ‹_›).fares
    · cases stepped
  | wait t =>
    simp only at stepped
    split at stepped
    · cases stepped
      exact (inv.waits ‹_›).fares
    · cases stepped
  | notifyOne t =>
    simp only at stepped
    split at stepped
    · cases stepped
      exact Fine.fares (inv.notifies ‹_› ⟨rfl, rfl, rfl, rfl, rfl, rfl, rfl, nofun⟩ rfl rfl
        fun _ called woke => ⟨called, woke⟩)
    · cases stepped
  | notifyAll t =>
    simp only at stepped
    split at stepped
    · cases stepped
      exact Fine.fares (inv.notifies ‹_› ⟨rfl, rfl, rfl, rfl, rfl, rfl, rfl, nofun⟩ rfl rfl
        fun _ called woke => ⟨called, woke⟩)
    · cases stepped
  | setPriority t p =>
    cases stepped
    exact (inv.reprioritized t p).fares

theorem new (priority : Tid → Nat) : (Monitor.new priority).Inv := by
  refine ⟨⟨⟨nofun, nofun, rfl, rfl⟩, rfl, fun _ => rfl⟩,
    ⟨nofun, nofun, nofun, fun _ => Nat.le_refl 0, ?_,
    fun _ => List.nodup_nil, nofun, fun _ _ => rfl⟩, fun _ => trivial, List.nodup_nil, nofun, nofun,
    fun _ => Nat.zero_le 1⟩
  intro n u
  exact ⟨nofun, nofun⟩

end Inv

theorem running {e : CvEvent} (stepped : s.step e = some s') : s.panicked = none := by
  unfold step at stepped
  split at stepped
  · cases stepped
  · exact Option.not_isSome_iff_eq_none.mp ‹_›

-- The timer strikes while thread 2 looks whether the mutex has a holder, and thread 1 releases it.
example : (run step (new fun _ => 31)
    (.lock 1 :: List.replicate 5 (.exec 1) ++ [.lock 2, .exec 2, .unlock 1] ++
      List.replicate 3 (.exec 1))).map
      panicked = some (some .borrow) := by decide +kernel

end Monitor

end Tacos.Thread
