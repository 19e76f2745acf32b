/- GID: Tacos/Thread/Kernel
   generality: I
   source: src/thread.rs, src/thread/manager.rs, src/thread/imp.rs, src/sync/sema.rs,
     src/sync/sleep.rs
   digest: The thread kernel as a machine: one step for each section that runs without a
     preemption point. -/

import Tacos.Thread.Scheduler
import Tacos.Lib.Run
import Mathlib.Algebra.Group.Nat.Defs

set_option autoImplicit false
set_option relaxedAutoImplicit false

namespace Tacos.Thread

/-- A donation record, kept by both the donating and the accepting thread. -/
structure DonationData where
  donner : Tid
  acceptor : Tid
  donnerPriority : Nat
  prevPriority : Nat
  isDonner : Bool
  lockid : Nat
  deriving DecidableEq, Repr

/-- The fields of a thread that Sleep locks and `set_priority` read and write. -/
structure ThreadData where
  priority : Nat
  prioritySetted : Option Nat
  donationq : List DonationData
  storedPrev : Nat × Nat
  deriving DecidableEq, Repr

def ThreadData.new (priority : Nat) : ThreadData := ⟨priority, none, [], (0xFFFFFFFF, 0)⟩

/-- A Sleep lock; its inner semaphore is `SemaId.inner`. -/
structure Sleep where
  lockid : Nat
  holder : Option Tid
  deriving DecidableEq, Repr

/-- Semaphores of the threads' own programs, and those inside Sleep locks. -/
inductive SemaId where
  | user (n : Nat)
  | inner (l : Nat)
  deriving DecidableEq, Repr

/-- The front of the waiters' deque is the head of the list. -/
structure Semaphore where
  value : Nat
  waiters : List Tid
  deriving DecidableEq, Repr

/-- The part of the state that is accessed with interrupts enabled. -/
structure Locks where
  data : Tid → ThreadData
  sleep : Nat → Sleep

namespace Locks

def priority (m : Locks) (t : Tid) : Nat := (m.data t).priority

def setPriority (m : Locks) (t : Tid) (p : Nat) : Locks :=
  { m with data := Function.update m.data t { m.data t with priority := p } }

def setSetted (m : Locks) (t : Tid) (p : Nat) : Locks :=
  { m with data := Function.update m.data t { m.data t with prioritySetted := some p } }

def setDonationq (m : Locks) (t : Tid) (q : List DonationData) : Locks :=
  { m with data := Function.update m.data t { m.data t with donationq := q } }

def setStoredPrev (m : Locks) (t : Tid) (s : Nat × Nat) : Locks :=
  { m with data := Function.update m.data t { m.data t with storedPrev := s } }

def setHolder (m : Locks) (l : Nat) (h : Option Tid) : Locks :=
  { m with sleep := Function.update m.sleep l { m.sleep l with holder := h } }

end Locks

/-- Single accesses to the shared thread and lock data. Interrupts are enabled between
any two of them, so each is a step of its own. -/
inductive Access where
  /-- `set_priority`: the store, and after its `schedule` the record of the new value. -/
  | storePriority (p : Nat)
  | storeSetted (p : Nat)
  /-- `acquire`: test the holder, read it again, and at the end become the holder. -/
  | testHolder (l : Nat)
  | readHolder (l : Nat)
  | setHolder (l : Nat)
  /-- `donation_wrapped`: both loads, then `donate`'s load and store, then both records. -/
  | loadDonner (donner acceptor : Tid) (lockid : Nat)
  | loadAcceptor (donner acceptor : Tid) (lockid currentPriority : Nat)
  | donateLoad (donner acceptor : Tid)
  | donateStore (acceptor : Tid) (p : Nat)
  | addDonation (t : Tid) (newitem : DonationData)
  | findAndDonate (donner : Tid) (lockid : Nat)
  /-- `release`: the assertion, `delete_donation`, the two further `retain`s, the restore. -/
  | assertHolder (l : Nat)
  | findRecord (l : Nat)
  | retainLockid (t : Tid) (lockid : Nat)
  | retainDonner (t donner : Tid)
  | retainAcceptor (t acceptor : Tid)
  | updateStoredPrev (lockid prev : Nat)
  | scanRecords
  | restorePriority (p : Nat)
  | restoreSetted
  | takeHolder (l : Nat)
  deriving DecidableEq, Repr

/-- What remains to be executed of the kernel functions a thread is in. -/
inductive Instr where
  | schedule
  /-- `interrupt::set(old)` after a `schedule`. -/
  | restore (old : Bool)
  /-- First instruction of a fresh thread: enable interrupts and enter `main`. -/
  | kernelThread
  | build (priority : Nat)
  | registerScheduler (t : Tid)
  | registerAll (t : Tid)
  | exit
  | exitReturned
  | down (s : SemaId)
  | downLoop (s : SemaId) (old : Bool)
  | up (s : SemaId)
  | access (a : Access)
  deriving DecidableEq, Repr

/-- The functions a thread's own program may call. -/
inductive Call where
  | spawn (priority : Nat)
  | schedule
  | exit
  | down (n : Nat)
  | up (n : Nat)
  | setPriority (p : Nat)
  | acquire (l : Nat)
  | release (l : Nat)
  deriving DecidableEq, Repr

/-- The first instructions of each function; these insert what follows them. -/
def Call.code : Call → List Instr
  | .spawn p => [.build p]
  | .schedule => [.schedule]
  | .exit => [.exit]
  | .down n => [.down (.user n)]
  | .up n => [.up (.user n)]
  | .setPriority p => [.access (.storePriority p), .schedule, .access (.storeSetted p)]
  | .acquire l => [.access (.testHolder l)]
  | .release l => [.access (.assertHolder l)]

/-- One access by `cur`: the new lock data and the instructions to run next. -/
def Access.exec (cur : Tid) (m : Locks) : Access → Except Panic (Locks × List Instr)
  | .storePriority p => .ok (m.setPriority cur p, [])
  | .storeSetted p => .ok (m.setSetted cur p, [])
  | .testHolder l =>
    match (m.sleep l).holder with
    | some _ => .ok (m, [.access (.readHolder l)])
    | none => .ok (m, [.down (.inner l), .access (.setHolder l)])
  | .readHolder l =>
    match (m.sleep l).holder with
    | some acceptor =>
      .ok (m, [.access (.loadDonner cur acceptor (m.sleep l).lockid),
        .access (.findAndDonate acceptor (m.sleep l).lockid),
        .down (.inner l), .access (.setHolder l)])
    | none => .error .holderUnwrap
  | .setHolder l => .ok (m.setHolder l (some cur), [])
  | .loadDonner donner acceptor lockid =>
    .ok (m, [.access (.loadAcceptor donner acceptor lockid (m.priority donner))])
  | .loadAcceptor donner acceptor lockid currentPriority =>
    if m.priority acceptor < currentPriority then
      let dd : DonationData :=
    ⟨donner, acceptor, currentPriority, m.priority acceptor, true, lockid⟩
      .ok (m, [.access (.donateLoad donner acceptor), .access (.addDonation donner dd),
        .access (.addDonation acceptor { dd with isDonner := false }), .schedule])
    else .ok (m, [])
  | .donateLoad donner acceptor => .ok (m, [.access (.donateStore acceptor (m.priority donner))])
  | .donateStore acceptor p => .ok (m.setPriority acceptor p, [])
  | .addDonation t newitem => .ok (m.setDonationq t ((m.data t).donationq ++ [newitem]), [])
  | .findAndDonate donner lockid =>
    .ok (m, ((m.data donner).donationq.filter fun i => i.isDonner && i.lockid != lockid).flatMap
      fun i => [.access (.loadDonner donner i.acceptor lockid),
        .access (.findAndDonate i.acceptor lockid)])
  | .assertHolder l =>
    match (m.sleep l).holder with
    | some h => if h = cur then .ok (m, [.access (.findRecord l)]) else .error .notHolder
    | none => .error .holderUnwrap
  | .findRecord l =>
    let lockid := (m.sleep l).lockid
    let tail : List Instr := [.access .restoreSetted, .access (.takeHolder l)]
    match (m.data cur).donationq.find? fun x => x.lockid == lockid with
    | none => .ok (m, .access (.retainLockid cur lockid) :: tail)
    | some ret =>
      .ok (m, [.access (.retainLockid cur lockid), .access (.retainLockid ret.donner lockid),
        .access (.retainDonner cur ret.donner), .access (.retainAcceptor ret.donner cur),
        .access (.updateStoredPrev lockid ret.prevPriority), .access .scanRecords] ++ tail)
  | .retainLockid t lockid =>
    .ok (m.setDonationq t ((m.data t).donationq.filter fun x => x.lockid != lockid), [])
  | .retainDonner t donner =>
    .ok (m.setDonationq t ((m.data t).donationq.filter fun x => x.donner != donner), [])
  | .retainAcceptor t acceptor =>
    .ok (m.setDonationq t ((m.data t).donationq.filter fun x => x.acceptor != acceptor), [])
  | .updateStoredPrev lockid prev =>
    if lockid < (m.data cur).storedPrev.1 then .ok (m.setStoredPrev cur (lockid, prev), [])
    else .ok (m, [])
  | .scanRecords =>
    .ok (m, [.access (.restorePriority
      ((m.data cur).donationq.foldl (fun p i => max p i.donnerPriority)
        (m.data cur).storedPrev.2))])
  | .restorePriority p => .ok (m.setPriority cur p, [])
  | .restoreSetted =>
    match (m.data cur).prioritySetted with
    | some setted => .ok (m.setPriority cur setted, [])
    | none => .ok (m, [])
  | .takeHolder l =>
    match (m.sleep l).holder with
    | some _ => .ok (m.setHolder l none, [.up (.inner l), .schedule])
    | none => .error .holderUnwrap

/-- The kernel's threads and scheduler. Entries of the maps at or past `nextTid` stand
for no thread; `frames` holds what each thread has still to execute. -/
structure Kernel (σ : Type) where
  status : Tid → Status
  locks : Locks
  nextTid : Tid
  scheduler : σ
  current : Tid
  all : List Tid
  intr : Bool
  sema : SemaId → Semaphore
  frames : Tid → List Instr

/-- The loop of `get_maxpriority` from index `i` on. -/
def maxpriorityFrom (priority : Tid → Nat) : List Tid → Nat → Nat → Nat → Nat × Nat
  | [], _, maxIndex, maxPriority => (maxIndex, maxPriority)
  | w :: ws, i, maxIndex, maxPriority =>
    if maxPriority ≤ priority w then maxpriorityFrom priority ws (i + 1) i (priority w)
    else maxpriorityFrom priority ws (i + 1) maxIndex maxPriority

/-- Index and priority of the waiter to wake: the last one of maximal priority. -/
def getMaxpriority (priority : Tid → Nat) (waiters : List Tid) : Nat × Nat :=
  maxpriorityFrom priority waiters 0 0 0

namespace Kernel

variable {σ : Type} [Schedule σ]

/-- The idle thread is the second thread ever created. -/
def idle : Tid := 1

def setStatus (k : Kernel σ) (t : Tid) (s : Status) : Kernel σ :=
  { k with status := Function.update k.status t s }

/-- Put instructions in front of what a thread has to execute. -/
def push (k : Kernel σ) (t : Tid) (is : List Instr) : Kernel σ :=
  { k with frames := Function.update k.frames t (is ++ k.frames t) }

def setSema (k : Kernel σ) (s : SemaId) (x : Semaphore) : Kernel σ :=
  { k with sema := Function.update k.sema s x }

def view (k : Kernel σ) : View := ⟨k.locks.priority, k.current, k.status k.current⟩

def register (k : Kernel σ) (t : Tid) : Except Panic (Kernel σ) :=
  match Schedule.register k.locks.priority k.scheduler t with
  | .ok q => .ok { k with scheduler := q }
  | .error p => .error p

theorem register_cases {k k' : Kernel σ} {t : Tid} (h : k.register t = .ok k') :
    ∃ q, Schedule.register k.locks.priority k.scheduler t = .ok q ∧
      k' = { k with scheduler := q } := by
  unfold register at h
  split at h
  · rename_i q registered
    cases h
    exact ⟨q, registered, rfl⟩
  · cases h

/-- The finishing touches of a switch, run by the new thread. -/
def scheduleTail (k : Kernel σ) (previous : Tid) : Except Panic (Kernel σ) :=
  match k.status previous with
  | .Dying => .ok { k with all := k.all.filter (· != previous) }
  | .Running => (k.setStatus previous .Ready).register previous
  | .Blocked => .ok k
  | .Ready => .error .tailUnreachable

/-- `Manager::schedule`. Interrupts are off from the choice to the end of `schedule_tail`,
so choice, switch and tail are one step; the thread that is left restores its level first
when it runs again. -/
def schedule (k : Kernel σ) : Except Panic (Kernel σ) :=
  match Schedule.schedule k.view k.scheduler with
  | .error p => .error p
  | .ok (next, q) =>
    if k.status k.current ≠ .Running ∧ next = none then .error .noThreadReady
    else match next with
      | none => .ok { k with scheduler := q }
      | some next =>
        if k.status next ≠ .Ready then .error .nextNotReady
        else
          scheduleTail { ({ k with scheduler := q }.setStatus next .Running).push k.current
            [.restore k.intr] with current := next, intr := false } k.current

/-- The state in which the chosen thread runs the tail of a switch. -/
def switched (k : Kernel σ) (q : σ) (next : Tid) : Kernel σ :=
  { ({ k with scheduler := q }.setStatus next .Running).push k.current [.restore k.intr] with
    current := next, intr := false }

/-- What a `schedule` that gets through does: nobody is chosen, or the chosen thread runs the
tail. -/
theorem schedule_cases {k k' : Kernel σ} (h : k.schedule = .ok k') :
    (∃ q, Schedule.schedule k.view k.scheduler = .ok (none, q) ∧ k' = { k with scheduler := q }) ∨
      ∃ next q, Schedule.schedule k.view k.scheduler = .ok (some next, q) ∧
        (k.switched q next).scheduleTail k.current = .ok k' := by
  unfold schedule at h
  split at h
  · cases h
  · rename_i next q chosen
    split at h
    · cases h
    · split at h
      · cases h
        exact .inl ⟨q, chosen, rfl⟩
      · rename_i next _
        split at h
        · cases h
        · exact .inr ⟨next, q, chosen, h⟩

/-- The tail registers a thread that was running, and changes no state otherwise. -/
theorem scheduleTail_cases {k k' : Kernel σ} {previous : Tid}
    (h : k.scheduleTail previous = .ok k') :
    (k.status previous = .Running ∧
      ∃ q, Schedule.register k.locks.priority k.scheduler previous = .ok q ∧
        k' = { k.setStatus previous .Ready with scheduler := q }) ∨
      ∃ all, k' = { k with all := all } := by
  unfold scheduleTail at h
  split at h
  · cases h
    exact .inr ⟨_, rfl⟩
  · rename_i running
    obtain ⟨q, registered, rfl⟩ := register_cases h
    exact .inl ⟨running, q, registered, rfl⟩
  · cases h
    exact .inr ⟨k.all, rfl⟩
  · cases h

/-- `wake_up`: a blocked thread becomes ready and is registered. -/
def wakeUp (k : Kernel σ) (t : Tid) : Except Panic (Kernel σ) :=
  if k.status t ≠ .Blocked then .error .wakeUpNotBlocked
  else (k.setStatus t .Ready).register t

/-- `Builder::build`: a new thread object, ready and known to nobody but its creator. -/
def build (k : Kernel σ) (priority : Nat) : Kernel σ :=
  { k with
    status := Function.update k.status k.nextTid .Ready
    locks := { k.locks with data := Function.update k.locks.data k.nextTid (.new priority) }
    frames := Function.update k.frames k.nextTid [.kernelThread]
    nextTid := k.nextTid + 1 }

/-- One turn of the loop in `Semaphore::down`, with interrupts off. -/
def downLoop (k : Kernel σ) (s : SemaId) (old : Bool) : Kernel σ :=
  let x := k.sema s
  if x.value = 0 then
    ((k.setSema s { x with waiters := k.current :: x.waiters }).setStatus k.current .Blocked).push
      k.current [.schedule, .downLoop s old]
  else { k.setSema s { x with value := x.value - 1 } with intr := old }

/-- `Semaphore::up` up to the point where it restores the interrupt level. The value is a `usize`.
-/
def up (k : Kernel σ) (s : SemaId) : Except Panic (Kernel σ) :=
  let x := k.sema s
  if 2 ^ 64 ≤ x.value + 1 then .error .upOverflow
  else
    match x.waiters with
    | [] => .ok (k.setSema s { x with value := x.value + 1 })
    | waiters =>
      if x.value ≠ 0 then .error .upCount
      else
        let (maxIndex, maxPriority) := getMaxpriority k.locks.priority waiters
        match waiters[maxIndex]? with
        | none => .error .upIndex
        | some thread =>
          match wakeUp (k.setSema s ⟨x.value + 1, waiters.eraseIdx maxIndex⟩) thread with
          | .error p => .error p
          | .ok k' =>
            if k'.locks.priority k'.current < maxPriority then
              .ok (k'.push k'.current [.schedule, .restore k.intr])
            else .ok k'

/-- What a call of `up` that gets through finds and does. -/
theorem up_cases {k k' : Kernel σ} {s : SemaId} (h : k.up s = .ok k') :
    (k.sema s).value + 1 < 2 ^ 64 ∧
      (((k.sema s).waiters = [] ∧ k' = k.setSema s ⟨(k.sema s).value + 1, []⟩) ∨
        ∃ i p t k₁, (k.sema s).waiters ≠ [] ∧ (k.sema s).value = 0 ∧
          getMaxpriority k.locks.priority (k.sema s).waiters = (i, p) ∧
          (k.sema s).waiters[i]? = some t ∧
          (k.setSema s ⟨(k.sema s).value + 1, (k.sema s).waiters.eraseIdx i⟩).wakeUp t = .ok k₁ ∧
          k' = if k₁.locks.priority k₁.current < p then
            k₁.push k₁.current [.schedule, .restore k.intr] else k₁) := by
  simp only [up] at h
  split at h
  · cases h
  · rename_i below
    refine ⟨Nat.lt_of_not_le below, ?_⟩
    split at h
    · rename_i none
      cases h
      exact .inl ⟨none, by rw [none]⟩
    · rename_i some
      split at h
      · cases h
      · rename_i zero
        split at h
        · cases h
        · rename_i t found
          split at h
          · cases h
          · rename_i k₁ woken
            refine .inr ⟨_, _, t, k₁, some, not_not.mp zero, rfl, found, woken, ?_⟩
            split at h <;> cases h
            · rename_i low
              exact (if_pos low).symm
            · rename_i high
              exact (if_neg high).symm

/-- What `wake_up` of a thread that is blocked does. -/
theorem wakeUp_cases {k k' : Kernel σ} {t : Tid} (h : k.wakeUp t = .ok k') :
    k.status t = .Blocked ∧ ∃ q, Schedule.register k.locks.priority k.scheduler t = .ok q ∧
      k' = { k.setStatus t .Ready with scheduler := q } := by
  unfold wakeUp at h
  split at h
  · cases h
  · rename_i blocked
    obtain ⟨q, registered, rfl⟩ := register_cases h
    exact ⟨not_not.mp blocked, q, registered, rfl⟩

/-- One instruction of the current thread; `k` no longer holds the instruction itself. -/
def execInstr (k : Kernel σ) : Instr → Except Panic (Kernel σ)
  | .schedule => k.schedule
  | .restore old => .ok { k with intr := old }
  | .kernelThread => .ok { k with intr := true }
  | .build p =>
    .ok ((k.build p).push k.current
      [.registerScheduler k.nextTid, .registerAll k.nextTid, .schedule])
  | .registerScheduler t => k.register t
  | .registerAll t => .ok { k with all := k.all ++ [t] }
  | .exit => .ok ((k.setStatus k.current .Dying).push k.current [.schedule, .exitReturned])
  | .exitReturned => .error .exitReturned
  | .down s => .ok ({ k with intr := false }.push k.current [.downLoop s k.intr])
  | .downLoop s old => .ok (k.downLoop s old)
  | .up s => k.up s
  | .access a =>
    match a.exec k.current k.locks with
    | .ok (m, is) => .ok ({ k with locks := m }.push k.current is)
    | .error p => .error p

/-- The current thread's next instruction, if it is inside a kernel function. -/
def exec (k : Kernel σ) : Except Panic (Option (Kernel σ)) :=
  match k.frames k.current with
  | [] => .ok none
  | i :: rest =>
    match { k with frames := Function.update k.frames k.current rest }.execInstr i with
    | .ok k' => .ok (some k')
    | .error p => .error p

end Kernel

/-- The priorities a call introduces must be ones the scheduler can index. -/
def Call.admitted (σ : Type) [Schedule σ] : Call → Bool
  | .spawn p => Schedule.admits σ p
  | .setPriority p => Schedule.admits σ p
  | _ => true

/-- What can happen next: the current thread executes an instruction, calls a function
from its own program, or is interrupted by the timer. -/
inductive Event where
  | exec
  | call (c : Call)
  | preempt
  deriving DecidableEq, Repr

namespace Kernel

variable {σ : Type} [Schedule σ]

/-- The idle thread's program is a loop of `schedule`; every other thread is free. -/
def mayCall (k : Kernel σ) (c : Call) : Bool :=
  k.frames k.current = [] && (k.current != idle || c = .schedule) && c.admitted σ

def step (k : Kernel σ) : Event → Option (Kernel σ)
  | .exec =>
    match k.exec with
    | .ok next => next
    | .error _ => none
  | .call c => if k.mayCall c then some (k.push k.current c.code) else none
  | .preempt => if k.intr then some (k.push k.current [.schedule]) else none

/-- `Manager::get` before it registers `Idle`: `Initial` runs with the default priority,
`Idle` is built with the lowest one. Interrupt level, semaphore values and lock ids are
arbitrary. -/
def boot (intr : Bool) (value lockid : Nat → Nat) : Kernel σ where
  status t := if t = 0 then .Running else if t = idle then .Ready else .Dying
  locks := ⟨fun t => .new (if t = 0 then 31 else 0), fun l => ⟨lockid l, none⟩⟩
  nextTid := 2
  scheduler := Schedule.default
  current := 0
  all := [0]
  intr := intr
  sema s := match s with
    | .user n => ⟨value n, []⟩
    | .inner _ => ⟨1, []⟩
  frames t := if t = idle then [.kernelThread] else []

def init (intr : Bool) (value lockid : Nat → Nat) : Except Panic (Kernel σ) :=
  match (boot intr value lockid : Kernel σ).register idle with
  | .ok k => .ok { k with all := k.all ++ [idle] }
  | .error p => .error p

end Kernel

end Tacos.Thread
