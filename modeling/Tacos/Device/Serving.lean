/- GID: Tacos/Device/Serving
   generality: I
   source: src/device/virtio.rs, src/sync/sema.rs
   digest: One request is served at a time, and each call sees the completion of its own request. -/

import Tacos.Device.Virtio

set_option autoImplicit false
set_option relaxedAutoImplicit false

namespace Tacos.Device

open Tacos.Fs Tacos.Thread Tacos.Lib.Run

/-- What the last write to a sector left there. -/
def lastWrite (init : Nat → Sector) (served : List Served) (sector : Nat) : Sector :=
  match served.reverse.find? fun e => e.reqType = .Out ∧ e.sector = sector with
  | some e => e.data
  | none => init sector

/-- Each read has got what the last write before it left. -/
def Faithful (init : Nat → Sector) (served : List Served) : Prop :=
  ∀ before e after, served = before ++ e :: after → e.reqType = .In →
    e.data = lastWrite init before e.sector

theorem lastWrite_read {init : Nat → Sector} (served : List Served) {e : Served}
    (read : e.reqType = .In) :
    lastWrite init (served ++ [e]) = lastWrite init served := by
  funext sector
  simp [lastWrite, read]

theorem lastWrite_write {init : Nat → Sector} (served : List Served) {e : Served}
    (write : e.reqType = .Out) :
    lastWrite init (served ++ [e]) = Function.update (lastWrite init served) e.sector e.data := by
  funext sector
  rw [Function.update_apply]
  by_cases same : sector = e.sector
  · simp [lastWrite, write, same]
  · simp [lastWrite, same, Ne.symm same]

theorem Faithful.snoc {init : Nat → Sector} {served : List Served} {e : Served}
    (h : Faithful init served)
    (read : e.reqType = .In → e.data = lastWrite init served e.sector) :
    Faithful init (served ++ [e]) := by
  intro before d after split input
  rcases List.eq_nil_or_concat after with rfl | ⟨rest, last, rfl⟩
  · obtain ⟨rfl, same⟩ := List.append_inj' split rfl
    cases same
    exact read input
  · rw [List.concat_eq_append, ← List.cons_append, ← List.append_assoc] at split
    obtain ⟨rfl, -⟩ := List.append_inj' split rfl
    exact h before d rest rfl input

theorem Faithful.of_append {init : Nat → Sector} {served tail : List Served}
    (h : Faithful init (served ++ tail)) :
    Faithful init served := by
  intro before e after split
  refine h before e (after ++ tail) ?_
  rw [split, List.append_assoc, List.cons_append]

theorem ne_next (x : UInt16) : x ≠ x + 1 := by
  intro same
  have := congrArg UInt16.toNat same
  rw [UInt16.toNat_add] at this
  have bound := x.toNat_lt
  simp at this
  omega

def Served.key (e : Served) : Tid × BlkReqHeader := (e.tid, ⟨e.reqType, e.sector⟩)

namespace CallPc

/-- The places at which a thread has the mutex. -/
def inside : CallPc → Bool
  | .idle | .acquire _ | .lockWait _ => false
  | _ => true

def request : CallPc → Option BlkReqHeader
  | .idle => none
  | .acquire r | .lockWait r | .frame r | .desc r _ | .ring r | .index r | .notify r
    | .down r | .downWait r
  | .checkStatus r | .checkLen r | .ack r | .release r => some r

end CallPc

/-- How far the request of the holder of the mutex has come. -/
inductive Stage where
  | rest
  | posted
  | transfer
  | status
  | elem
  | index
  | interrupt
  | raised
  | signalled
  | taken
  | acked
  deriving DecidableEq

namespace Stage

def phase (e : Served) : Stage → Phase
  | .transfer => .transfer 0
  | .status => .status 0 e
  | .elem => .elem 0 e
  | .index => .index e
  | .interrupt => .interrupt
  | _ => .idle

/-- How far the device is behind in the available ring, and the used ring behind that. -/
def behind : Stage → UInt16
  | .posted => 1
  | _ => 0

def unused : Stage → UInt16
  | .posted | .transfer | .status | .elem | .index => 1
  | _ => 0

def irqs : Stage → Nat
  | .raised => 1
  | _ => 0

def value : Stage → Nat
  | .signalled => 1
  | _ => 0

def interruptStatus : Stage → Nat
  | .raised | .signalled | .taken => 1
  | _ => 0

/-- The data have been transferred, the status has been written, the used ring shows it. -/
def transferred : Stage → Bool
  | .rest | .posted | .transfer => false
  | _ => true

def answered : Stage → Bool
  | .rest | .posted | .transfer | .status => false
  | _ => true

def completed : Stage → Bool
  | .interrupt | .raised | .signalled | .taken | .acked => true
  | _ => false

end Stage

/-- The stages at which a thread with the mutex can be at a place. -/
def CallPc.allows : CallPc → Stage → Bool
  | .notify _, g | .down _, g => g ≠ .rest ∧ g ≠ .taken ∧ g ≠ .acked
  | .downWait _, g => g ≠ .rest ∧ g ≠ .signalled ∧ g ≠ .taken ∧ g ≠ .acked
  | .checkStatus _, g | .checkLen _, g | .ack _, g => g = .taken
  | .release _, g => g = .acked
  | _, g => g = .rest

theorem CallPc.eq_rest {p : CallPc} {g : Stage} (rest : p.allows .rest = true)
    (fits : p.allows g = true) : g = .rest := by
  cases p <;> simp_all [CallPc.allows]

/-- The request is with the device, or its interrupt is on its way. -/
def Stage.running : Stage → Bool
  | .posted | .transfer | .status | .elem | .index | .interrupt | .raised => true
  | _ => false

theorem CallPc.allows_running {p : CallPc} {g g' : Stage} (fits : p.allows g = true)
    (running : g.running = true)
    (goes : g'.running = true) : p.allows g' = true := by
  cases p with
  | notify r | down r | downWait r => cases g' <;> first | rfl | contradiction
  | _ =>
    rw [of_decide_eq_true fits] at running
    contradiction

/-- The request has been issued, and the call has not come back from `down`. -/
def CallPc.inFlight : CallPc → Bool
  | .notify _ | .down _ | .downWait _ => true
  | _ => false

theorem CallPc.late {p : CallPc} {g : Stage} (settled : p.inFlight = false)
    (fits : p.allows g = true) :
    g = .rest ∨ g = .taken ∨ g = .acked := by
  cases p with
  | notify r | down r | downWait r => cases settled
  | checkStatus r | checkLen r | ack r => exact .inr (.inl (of_decide_eq_true fits))
  | release r => exact .inr (.inr (of_decide_eq_true fits))
  | _ => exact .inl (of_decide_eq_true fits)

theorem CallPc.allows_signalled {p : CallPc} (fits : p.allows .raised = true)
    (awake : ∀ r, p ≠ .downWait r) :
    p.allows .signalled = true := by
  cases p with
  | notify r | down r => rfl
  | downWait r => exact absurd rfl (awake r)
  | _ => cases fits

namespace Virtio

/-- The place of the holder of the mutex. -/
def holderPc (s : Virtio) : CallPc :=
  match s.holder with
  | none => .idle
  | some t => s.pc t

/-- The mutex: its semaphore counts whether it is free, and those who wait for it are blocked. -/
structure Locking (s : Virtio) : Prop where
  held : ∀ t, (s.pc t).inside = true ↔ s.holder = some t
  value : s.lock.value = if s.holder = none then 1 else 0
  waiters : ∀ u, u ∈ s.lock.waiters ↔ ∃ r, s.pc u = .lockWait r
  nodup : s.lock.waiters.Nodup
  sleepers : ∀ u, u ∈ s.notification.waiters ↔ ∃ r, s.pc u = .downWait r
  alone : s.notification.waiters.Nodup

/-- What a call has written for the device when it is at a place. -/
def Placed (s : Virtio) (t : Tid) : CallPc → Prop
  | .desc r k => k ≤ 2 ∧ s.header t = r ∧ ∀ j < k, s.desc j = descOf t r j
  | .ring r => s.header t = r ∧ ∀ j < 3, s.desc j = descOf t r j
  | .index r => (s.header t = r ∧ ∀ j < 3, s.desc j = descOf t r j) ∧
    s.availRing (s.availIdx % 4) = 0
  | .notify r | .down r | .downWait r | .checkStatus r | .checkLen r | .ack r | .release r =>
    s.header t = r ∧ ∀ j < 3, s.desc j = descOf t r j
  | _ => True

/-- The request `e` of the holder is at the stage `g`. -/
structure Progress (init : Nat → Sector) (s : Virtio) (e : Served) (g : Stage) : Prop where
  fits : s.holderPc.allows g = true
  mine : g ≠ .rest → s.holder = some e.tid ∧ (s.pc e.tid).request = some ⟨e.reqType, e.sector⟩
  phase : s.phase = g.phase e
  avail : s.availIdx = s.lastAvail + g.behind
  used : s.availIdx = s.usedIdx + g.unused
  irqs : s.irqs = g.irqs
  value : s.notification.value = g.value
  interrupt : s.interruptStatus = g.interruptStatus
  issued : s.issued = s.returned.map Served.key ++ if g = .rest then [] else [e.key]
  served : s.served = s.returned ++ if g.completed then [e] else []
  sectors : s.sectors = lastWrite init (s.returned ++ if g.transferred then [e] else [])
  faithful : Faithful init (s.returned ++ if g.transferred then [e] else [])
  data : g.transferred = true → e.data = s.buf e.tid
  status : g.answered = true → s.status e.tid = 0
  entry : g = .posted → s.availRing (s.lastAvail % 4) = 0
  elem : g = .index → (s.usedRing (s.usedIdx % 4)).len = expectedLen e.reqType
  len : g.completed = true → (s.usedRing ((s.usedIdx - 1) % 4)).len = expectedLen e.reqType

structure Inv (init : Nat → Sector) (s : Virtio) : Prop where
  calm : s.panicked = false
  locking : s.Locking
  placed : ∀ t, s.Placed t (s.pc t)
  progress : ∃ e g, s.Progress init e g

end Virtio

/-- `Semaphore::up` when its assertion holds. -/
theorem semaUp_spec (priority : Tid → Nat) {x : Semaphore} (zero : x.waiters ≠ [] → x.value = 0) :
    (x.waiters = [] ∧ semaUp priority x = some (⟨x.value + 1, []⟩, none)) ∨
      ∃ w rest, List.Perm (w :: rest) x.waiters ∧ semaUp priority x =
        some (⟨x.value + 1, rest⟩, some w) := by
  unfold semaUp
  split
  · rename_i empty
    exact .inl ⟨empty, rfl⟩
  · rename_i some
    obtain ⟨k, w, found, chosen, -⟩ := getMaxpriority_spec priority some
    obtain ⟨within, at_k⟩ := List.getElem?_eq_some_iff.mp chosen
    refine .inr ⟨w, x.waiters.eraseIdx k, ?_, ?_⟩
    · rw [← at_k]
      exact List.getElem_cons_eraseIdx_perm within
    · rw [if_neg (not_not_intro (zero some)), found]
      simp only [chosen, Option.map_some]

namespace CallPc

/-- Blocked in one of the two semaphores. -/
def waits : CallPc → Bool
  | .lockWait _ | .downWait _ => true
  | _ => false

theorem not_lockWait {p : CallPc} (awake : p.waits = false) : ¬∃ r, p = .lockWait r := by
  rintro ⟨r, rfl⟩
  cases awake

theorem not_downWait {p : CallPc} (awake : p.waits = false) : ¬∃ r, p = .downWait r := by
  rintro ⟨r, rfl⟩
  cases awake

end CallPc

namespace Virtio

variable {init : Nat → Sector} {s s' : Virtio} {t : Tid} {p : CallPc}

theorem holderPc_of (has : s.holder = some t) : s.holderPc = s.pc t := by rw [holderPc, has]

namespace Locking

theorem updated (h : s.Locking) (pc : s'.pc = Function.update s.pc t p)
    (held : p.inside = true ↔ s'.holder = some t)
    (others : ∀ u, u ≠ t → (s.holder = some u ↔ s'.holder = some u))
    (value : s'.lock.value = if s'.holder = none then 1 else 0)
    (lock : t ∈ s'.lock.waiters ↔ ∃ r, p = .lockWait r)
    (lockOthers : ∀ u, u ≠ t → (u ∈ s'.lock.waiters ↔ u ∈ s.lock.waiters))
    (nodup : s'.lock.waiters.Nodup)
    (down : t ∈ s'.notification.waiters ↔ ∃ r, p = .downWait r)
    (downOthers : ∀ u, u ≠ t → (u ∈ s'.notification.waiters ↔ u ∈ s.notification.waiters))
    (alone : s'.notification.waiters.Nodup) : s'.Locking := by
  refine ⟨?_, value, ?_, nodup, ?_, alone⟩
  all_goals
    intro u
    rw [pc]
    by_cases here : u = t
  · rw [here, Function.update_self]
    exact held
  · rw [Function.update_of_ne here, h.held u]
    exact others u here
  · rw [here, Function.update_self]
    exact lock
  · rw [Function.update_of_ne here, lockOthers u here]
    exact h.waiters u
  · rw [here, Function.update_self]
    exact down
  · rw [Function.update_of_ne here, downOthers u here]
    exact h.sleepers u

theorem moved (h : s.Locking) (pc : s'.pc = Function.update s.pc t p)
    (inside : p.inside = (s.pc t).inside)
    (awake : (s.pc t).waits = false) (stays : p.waits = false) (holder : s'.holder = s.holder)
    (lock : s'.lock = s.lock) (notification : s'.notification.waiters = s.notification.waiters) :
    s'.Locking := by
  refine h.updated pc ?_ ?_ ?_ ?_ ?_ ?_ ?_ ?_ ?_
  · rw [inside, holder]
    exact h.held t
  · exact fun u _ => by rw [holder]
  · rw [lock, holder, h.value]
  · rw [lock, h.waiters t]
    exact iff_of_false (CallPc.not_lockWait awake) (CallPc.not_lockWait stays)
  · exact fun u _ => by rw [lock]
  · rw [lock]
    exact h.nodup
  · rw [notification, h.sleepers t]
    exact iff_of_false (CallPc.not_downWait awake) (CallPc.not_downWait stays)
  · exact fun u _ => by rw [notification]
  · rw [notification]
    exact h.alone

/-- `down` of the mutex blocks. -/
theorem blocked {r : BlkReqHeader} (h : s.Locking) (here : s.pc t = .acquire r)
    (zero : s.lock.value = 0)
    (pc : s'.pc = Function.update s.pc t (.lockWait r)) (holder : s'.holder = s.holder)
    (lock : s'.lock = ⟨0, t :: s.lock.waiters⟩) (notification : s'.notification = s.notification) :
    s'.Locking := by
  have awake : t ∉ s.lock.waiters := by
    rw [h.waiters t, here]
    exact nofun
  refine h.updated pc ?_ ?_ ?_ ?_ ?_ ?_ ?_ ?_ ?_
  · rw [holder, ← h.held t, here]
    exact Iff.rfl
  · exact fun u _ => by rw [holder]
  · rw [lock, holder, ← h.value, zero]
  · rw [lock]
    exact iff_of_true List.mem_cons_self ⟨r, rfl⟩
  · intro u other
    rw [lock]
    exact ⟨fun mem => (List.mem_cons.mp mem).resolve_left other, List.mem_cons_of_mem t⟩
  · rw [lock]
    exact List.nodup_cons.mpr ⟨awake, h.nodup⟩
  · rw [notification, h.sleepers t, here]
    exact iff_of_false nofun nofun
  · exact fun u _ => by rw [notification]
  · rw [notification]
    exact h.alone

theorem free_of_value (h : s.Locking) (one : s.lock.value ≠ 0) :
    s.holder = none ∧ s.lock.value = 1 := by
  have free : s.holder = none := by
    by_contra held
    exact one (by rw [h.value, if_neg held])
  exact ⟨free, by rw [h.value, if_pos free]⟩

/-- `down` of the mutex takes it. -/
theorem taken {r : BlkReqHeader} (h : s.Locking) (here : s.pc t = .acquire r)
    (one : s.lock.value ≠ 0)
    (pc : s'.pc = Function.update s.pc t (.frame r)) (holder : s'.holder = some t)
    (lock : s'.lock = ⟨s.lock.value - 1, s.lock.waiters⟩)
    (notification : s'.notification = s.notification) :
    s'.Locking := by
  obtain ⟨free, value⟩ := h.free_of_value one
  refine h.updated pc ?_ ?_ ?_ ?_ ?_ ?_ ?_ ?_ ?_
  · rw [holder]
    exact iff_of_true rfl rfl
  · intro u other
    rw [free, holder]
    exact iff_of_false nofun fun same => other (Option.some.inj same).symm
  · rw [lock, holder, value]
    rfl
  · rw [lock, h.waiters t, here]
    exact iff_of_false nofun nofun
  · exact fun u _ => by rw [lock]
  · rw [lock]
    exact h.nodup
  · rw [notification, h.sleepers t, here]
    exact iff_of_false nofun nofun
  · exact fun u _ => by rw [notification]
  · rw [notification]
    exact h.alone

/-- `down` of the notification blocks. -/
theorem slept {r : BlkReqHeader} (h : s.Locking) (here : s.pc t = .down r)
    (pc : s'.pc = Function.update s.pc t (.downWait r)) (holder : s'.holder = s.holder)
    (lock : s'.lock = s.lock)
    (notification : s'.notification.waiters = t :: s.notification.waiters) : s'.Locking := by
  have awake : t ∉ s.notification.waiters := by
    rw [h.sleepers t, here]
    exact nofun
  refine h.updated pc ?_ ?_ ?_ ?_ ?_ ?_ ?_ ?_ ?_
  · rw [holder, ← h.held t, here]
    exact Iff.rfl
  · exact fun u _ => by rw [holder]
  · rw [lock, holder, h.value]
  · rw [lock, h.waiters t, here]
    exact iff_of_false nofun nofun
  · exact fun u _ => by rw [lock]
  · rw [lock]
    exact h.nodup
  · rw [notification]
    exact iff_of_true List.mem_cons_self ⟨r, rfl⟩
  · intro u other
    rw [notification]
    exact ⟨fun mem => (List.mem_cons.mp mem).resolve_left other, List.mem_cons_of_mem t⟩
  · rw [notification]
    exact List.nodup_cons.mpr ⟨awake, h.alone⟩

/-- The thread that `up` of the notification has chosen goes on. -/
theorem woken {r : BlkReqHeader} {w : Tid} {rest : List Tid} (h : s.Locking)
    (here : s.pc w = .downWait r)
    (chosen : List.Perm (w :: rest) s.notification.waiters)
    (pc : s'.pc = Function.update s.pc w (.down r))
    (holder : s'.holder = s.holder) (lock : s'.lock = s.lock)
    (notification : s'.notification.waiters = rest) :
    s'.Locking := by
  have nodup := List.nodup_cons.mp (chosen.nodup_iff.mpr h.alone)
  refine h.updated pc ?_ ?_ ?_ ?_ ?_ ?_ ?_ ?_ ?_
  · rw [holder, ← h.held w, here]
    exact Iff.rfl
  · exact fun u _ => by rw [holder]
  · rw [lock, holder, h.value]
  · rw [lock, h.waiters w, here]
    exact iff_of_false nofun nofun
  · exact fun u _ => by rw [lock]
  · rw [lock]
    exact h.nodup
  · rw [notification]
    exact iff_of_false nodup.1 nofun
  · intro u other
    rw [notification, ← chosen.mem_iff, List.mem_cons]
    exact ⟨.inr, fun mem => mem.resolve_left other⟩
  · rw [notification]
    exact nodup.2

/-- The thread that `up` of the mutex has chosen goes on, while the mutex is still held. -/
theorem called {r : BlkReqHeader} {w : Tid} {rest : List Tid} (h : s.Locking)
    (here : s.pc w = .lockWait r)
    (chosen : List.Perm (w :: rest) s.lock.waiters) :
    ({ s with lock := ⟨s.lock.value, rest⟩ }.goto w (.acquire r)).Locking := by
  have nodup := List.nodup_cons.mp (chosen.nodup_iff.mpr h.nodup)
  have sleeps := h.sleepers w
  have held := h.held w
  rw [here] at sleeps held
  refine h.updated rfl held (fun _ _ => Iff.rfl) h.value (iff_of_false nodup.1 nofun) ?_ nodup.2
    (sleeps.trans (iff_of_false nofun nofun)) (fun _ _ => Iff.rfl) h.alone
  intro u other
  rw [← chosen.mem_iff, List.mem_cons]
  exact ⟨.inr, fun mem => mem.resolve_left other⟩

theorem released {r : BlkReqHeader} (h : s.Locking) (here : s.pc t = .release r)
    (pc : s'.pc = Function.update s.pc t .idle) (holder : s'.holder = none)
    (lock : s'.lock = ⟨s.lock.value + 1, s.lock.waiters⟩)
    (notification : s'.notification = s.notification) :
    s'.Locking := by
  have has : s.holder = some t := (h.held t).mp (by rw [here]; rfl)
  refine h.updated pc ?_ ?_ ?_ ?_ ?_ ?_ ?_ ?_ ?_
  · rw [holder]
    exact iff_of_false nofun nofun
  · intro u other
    rw [has, holder]
    exact iff_of_false (fun same => other (Option.some.inj same).symm) nofun
  · rw [lock, holder, h.value, has]
    rfl
  · rw [lock, h.waiters t, here]
    exact iff_of_false nofun nofun
  · exact fun u _ => by rw [lock]
  · rw [lock]
    exact h.nodup
  · rw [notification, h.sleepers t, here]
    exact iff_of_false nofun nofun
  · exact fun u _ => by rw [notification]
  · rw [notification]
    exact h.alone

end Locking

theorem allows_of {g : Stage} (has : s.holder = some t) (here : s.pc t = p)
    (fits : p.allows g = true) :
    s.holderPc.allows g = true := by
  rw [holderPc_of has, here, fits]

theorem Placed.outside (out : p.inside = false) : s.Placed t p := by
  cases p <;> trivial

theorem Placed.congr (h : s.Placed t p) (header : s'.header = s.header) (desc : s'.desc = s.desc)
    (availRing : s'.availRing = s.availRing) (availIdx : s'.availIdx = s.availIdx) :
    s'.Placed t p := by
  cases p <;> simp only [Placed, header, desc, availRing, availIdx] at h ⊢ <;> exact h

theorem Placed.shown {r : BlkReqHeader} (h : s.Placed t p) (shown : p.allows .rest = false)
    (request : p.request = some r) : s.header t = r ∧ ∀ j < 3, s.desc j = descOf t r j := by
  cases p with
  | notify q | down q | downWait q | checkStatus q | checkLen q | ack q | release q =>
    cases request
    exact h
  | _ => cases shown

/-- What a step leaves alone at which the request makes no progress. -/
structure Kept (s s' : Virtio) : Prop where
  phase : s'.phase = s.phase
  availIdx : s'.availIdx = s.availIdx
  lastAvail : s'.lastAvail = s.lastAvail
  usedIdx : s'.usedIdx = s.usedIdx
  irqs : s'.irqs = s.irqs
  value : s'.notification.value = s.notification.value
  interruptStatus : s'.interruptStatus = s.interruptStatus
  issued : s'.issued = s.issued
  served : s'.served = s.served
  returned : s'.returned = s.returned
  sectors : s'.sectors = s.sectors
  usedRing : s'.usedRing = s.usedRing

theorem Progress.same {e : Served} {g : Stage} (h : s.Progress init e g) (kept : s.Kept s')
    (fits : s'.holderPc.allows g = true)
    (mine : g ≠ .rest → s'.holder = s.holder ∧ (s'.pc e.tid).request = (s.pc e.tid).request)
    (frame : g ≠ .rest → s'.buf e.tid = s.buf e.tid ∧ s'.status e.tid = s.status e.tid ∧
      s'.availRing = s.availRing) :
    s'.Progress init e g := by
  have going : g.transferred = true → g ≠ .rest := by
    rintro h rfl
    cases h
  have answered : g.answered = true → g ≠ .rest := by
    rintro h rfl
    cases h
  refine ⟨fits, ?_, by rw [kept.phase, h.phase], by rw [kept.availIdx, kept.lastAvail, h.avail],
    by rw [kept.availIdx, kept.usedIdx, h.used], by rw [kept.irqs, h.irqs],
    by rw [kept.value, h.value], by rw [kept.interruptStatus, h.interrupt],
    by rw [kept.issued, kept.returned, h.issued], by rw [kept.served, kept.returned, h.served],
    by rw [kept.sectors, kept.returned, h.sectors], by rw [kept.returned]; exact h.faithful,
    ?_, ?_, ?_, by rw [kept.usedRing, kept.usedIdx]; exact h.elem,
    by rw [kept.usedRing, kept.usedIdx]; exact h.len⟩
  · intro busy
    rw [(mine busy).1, (mine busy).2]
    exact h.mine busy
  · intro moved
    rw [(frame (going moved)).1]
    exact h.data moved
  · intro done
    rw [(frame (answered done)).2.1]
    exact h.status done
  · intro posted
    rw [(frame (posted ▸ nofun)).2.2, kept.lastAvail]
    exact h.entry posted

namespace Inv

theorem holder_of (inv : s.Inv init) (inside : (s.pc t).inside = true) : s.holder = some t :=
  (inv.locking.held t).mp inside

theorem outside_of_ne (inv : s.Inv init) (inside : (s.pc t).inside = true)
    {u : Tid} (other : u ≠ t) :
    (s.pc u).inside = false := by
  refine Bool.eq_false_iff.mpr fun also => other ?_
  exact Option.some.inj ((inv.holder_of also).symm.trans (inv.holder_of inside))

/-- A thread without the mutex moves, and stays without it. -/
theorem outside (inv : s.Inv init) (was : (s.pc t).inside = false) (out : p.inside = false)
    (calm : s'.panicked = s.panicked) (locking : s'.Locking) (pc : s'.pc = Function.update s.pc t p)
    (holder : s'.holder = s.holder) (kept : s.Kept s') (header : s'.header = s.header)
    (desc : s'.desc = s.desc)
    (availRing : s'.availRing = s.availRing) (buf : ∀ u, u ≠ t → s'.buf u = s.buf u)
    (status : s'.status = s.status) :
    s'.Inv init := by
  have away : ∀ u, s.holder = some u → u ≠ t := by
    rintro u has rfl
    rw [(inv.locking.held u).mpr has] at was
    cases was
  have here : s'.holderPc = s.holderPc := by
    unfold holderPc
    rw [holder]
    split
    · rfl
    · rw [pc, Function.update_of_ne (away _ ‹_›)]
  obtain ⟨e, g, progress⟩ := inv.progress
  have elsewhere : g ≠ .rest → e.tid ≠ t := fun busy => away _ (progress.mine busy).1
  refine ⟨calm.trans inv.calm, locking, ?_, e, g, progress.same kept
    (by rw [here]; exact progress.fits) ?_ ?_⟩
  · intro u
    by_cases same : u = t
    · rw [pc, same, Function.update_self]
      exact Placed.outside out
    · rw [pc, Function.update_of_ne same]
      exact (inv.placed u).congr header desc availRing kept.availIdx
  · intro busy
    rw [pc, Function.update_of_ne (elsewhere busy)]
    exact ⟨holder, rfl⟩
  · intro busy
    exact ⟨buf _ (elsewhere busy), by rw [status], availRing⟩

theorem advance (inv : s.Inv init) (inside : (s.pc t).inside = true)
    (calm : s'.panicked = s.panicked)
    (locking : s'.Locking) (pc : s'.pc = Function.update s.pc t p) (placed : s'.Placed t p)
    (progress : ∃ e g, s'.Progress init e g) : s'.Inv init := by
  refine ⟨calm.trans inv.calm, locking, ?_, progress⟩
  intro u
  by_cases same : u = t
  · rw [pc, same, Function.update_self]
    exact placed
  · rw [pc, Function.update_of_ne same]
    exact Placed.outside (inv.outside_of_ne inside same)

/-- The holder goes on at the same stage, with what the device knows about its request. -/
theorem quietly (inv : s.Inv init) (inside : (s.pc t).inside = true)
    (awake : (s.pc t).waits = false)
    (stays : p.waits = false) (within : p.inside = true) (calm : s'.panicked = s.panicked)
    (holder : s'.holder = s.holder) (lock : s'.lock = s.lock)
    (notification : s'.notification = s.notification) (pc : s'.pc = Function.update s.pc t p)
    (placed : s'.Placed t p) (kept : s.Kept s') (request : p.request = (s.pc t).request)
    (fits : ∀ g, (s.pc t).allows g = true → p.allows g = true)
    (frame : (s.pc t).allows .rest = true ∨
      (s'.buf = s.buf ∧ s'.status = s.status ∧ s'.availRing = s.availRing)) :
    s'.Inv init := by
  have has := inv.holder_of inside
  obtain ⟨e, g, progress⟩ := inv.progress
  have locking : s'.Locking := inv.locking.moved pc (within.trans inside.symm)
    awake stays holder lock
    (by rw [notification])
  refine inv.advance inside calm locking pc placed ⟨e, g, progress.same kept ?_ ?_ ?_⟩
  · rw [holderPc_of (holder.trans has), pc, Function.update_self]
    exact fits g (holderPc_of has ▸ progress.fits)
  · intro busy
    obtain ⟨mine, -⟩ := progress.mine busy
    have same : e.tid = t := Option.some.inj (mine.symm.trans has)
    rw [pc, same, Function.update_self]
    exact ⟨holder, request⟩
  · intro busy
    rcases frame with rest | ⟨buf, status, ring⟩
    · exact absurd (CallPc.eq_rest rest (holderPc_of has ▸ progress.fits)) busy
    · rw [buf, status]
      exact ⟨rfl, rfl, ring⟩

theorem stage (inv : s.Inv init) (inside : (s.pc t).inside = true) :
    ∃ e g, s.Progress init e g ∧ (s.pc t).allows g = true ∧
      (g ≠ .rest → e.tid = t ∧ (s.pc t).request = some ⟨e.reqType, e.sector⟩) := by
  have has := inv.holder_of inside
  obtain ⟨e, g, progress⟩ := inv.progress
  refine ⟨e, g, progress, holderPc_of has ▸ progress.fits, fun busy => ?_⟩
  obtain ⟨mine, request⟩ := progress.mine busy
  have same : e.tid = t := Option.some.inj (mine.symm.trans has)
  exact ⟨same, same ▸ request⟩

/-- `supply_buffer` shows the request to the device. -/
theorem publish {r : BlkReqHeader} (inv : s.Inv init) (here : s.pc t = .index r) :
    ({ s with availIdx := s.availIdx + 1, issued := s.issued ++ [(t, r)] }.goto t
      (.notify r)).Inv init := by
  have inside : (s.pc t).inside = true := by rw [here]; rfl
  have has := inv.holder_of inside
  have placed := inv.placed t
  rw [here] at placed
  obtain ⟨e, g, progress, fits, -⟩ := inv.stage inside
  have rest : g = .rest := CallPc.eq_rest (by rw [here]; rfl) fits
  subst rest
  have locking : ({ s with availIdx := s.availIdx + 1, issued := s.issued ++ [(t, r)] }.goto t
    (.notify r)).Locking :=
    inv.locking.moved rfl (by rw [here]; rfl) (by rw [here]; rfl) rfl rfl rfl rfl
  refine inv.advance inside rfl locking rfl placed.1
    ⟨⟨t, r.reqType, r.sector, s.buf t⟩, .posted, ?_⟩
  have same : s.availIdx = s.lastAvail := progress.avail.trans (by simp [Stage.behind])
  have used : s.availIdx = s.usedIdx := progress.used.trans (by simp [Stage.unused])
  refine ⟨allows_of has (Function.update_self ..) rfl, fun _ =>
    ⟨has, by simp only [goto, Function.update_self]; rfl⟩, progress.phase, ?_, ?_,
    progress.irqs, progress.value, progress.interrupt, ?_, progress.served, progress.sectors,
    progress.faithful, nofun,
    nofun, fun _ => ?_, nofun, nofun⟩
  · simp only [goto, same, Stage.behind]
  · simp only [goto, used, Stage.unused]
  · simp only [goto, progress.issued, if_true, List.append_nil, reduceCtorEq, if_false]
    rfl
  · simp only [goto, ← same]
    exact placed.2

/-- `down` finds that the interrupt has come. -/
theorem notified {r : BlkReqHeader} (inv : s.Inv init) (here : s.pc t = .down r)
    (one : s.notification.value ≠ 0) :
    ({ s with notification := ⟨s.notification.value - 1, s.notification.waiters⟩ }.goto t
      (.checkStatus r)).Inv init := by
  have inside : (s.pc t).inside = true := by rw [here]; rfl
  have has := inv.holder_of inside
  have placed := inv.placed t
  rw [here] at placed
  obtain ⟨e, g, progress, fits, mine⟩ := inv.stage inside
  have signalled : g = .signalled := by
    have value := progress.value
    cases g <;> simp_all [Stage.value]
  subst signalled
  obtain ⟨own, request⟩ := mine nofun
  have locking : ({ s with
      notification := ⟨s.notification.value - 1, s.notification.waiters⟩ }.goto t
        (.checkStatus r)).Locking :=
    inv.locking.moved rfl (by rw [here]; rfl) (by rw [here]; rfl) rfl rfl rfl rfl
  refine inv.advance inside rfl locking rfl placed ⟨e, .taken, ?_⟩
  refine ⟨allows_of has (Function.update_self ..) rfl, fun _ => ⟨own ▸ has, ?_⟩, progress.phase,
    progress.avail, progress.used,
    progress.irqs, ?_, progress.interrupt, progress.issued, progress.served,
    progress.sectors, progress.faithful,
    progress.data, progress.status, nofun, nofun, progress.len⟩
  · rw [own, ← request, here]
    simp only [goto, Function.update_self]
    rfl
  · simp only [goto, progress.value]
    rfl

theorem acknowledge {r : BlkReqHeader} (inv : s.Inv init) (here : s.pc t = .ack r) :
    ({ s with interruptStatus := 0 }.goto t (.release r)).Inv init := by
  have inside : (s.pc t).inside = true := by rw [here]; rfl
  have has := inv.holder_of inside
  have placed := inv.placed t
  rw [here] at placed
  obtain ⟨e, g, progress, fits, mine⟩ := inv.stage inside
  rw [here] at fits
  have taken : g = .taken := of_decide_eq_true fits
  subst taken
  obtain ⟨own, request⟩ := mine nofun
  have locking : ({ s with interruptStatus := 0 }.goto t (.release r)).Locking :=
    inv.locking.moved rfl (by rw [here]; rfl) (by rw [here]; rfl) rfl rfl rfl rfl
  refine inv.advance inside rfl locking rfl placed ⟨e, .acked, ?_⟩
  refine ⟨allows_of has (Function.update_self ..) rfl, fun _ => ⟨own ▸ has, ?_⟩, progress.phase,
    progress.avail, progress.used,
    progress.irqs, progress.value, rfl, progress.issued, progress.served,
    progress.sectors, progress.faithful,
    progress.data, progress.status, nofun, nofun, progress.len⟩
  rw [own, ← request, here]
  simp only [goto, Function.update_self]
  rfl

theorem taken {r : BlkReqHeader} (inv : s.Inv init) (here : s.pc t = .acquire r)
    (one : s.lock.value ≠ 0) :
    ({ s with lock := ⟨s.lock.value - 1, s.lock.waiters⟩, holder := some t }.goto t
      (.frame r)).Inv init := by
  obtain ⟨free, -⟩ := inv.locking.free_of_value one
  obtain ⟨e, g, progress⟩ := inv.progress
  have rest : g = .rest := by
    have fits := progress.fits
    rw [holderPc, free] at fits
    exact of_decide_eq_true fits
  subst rest
  refine ⟨inv.calm, inv.locking.taken here one rfl rfl rfl rfl, ?_, e, .rest, ?_⟩
  · intro u
    simp only [goto, Function.update_apply]
    split
    · trivial
    · refine Placed.outside (Bool.eq_false_iff.mpr fun inside => ?_)
      have := inv.holder_of inside
      rw [free] at this
      cases this
  · refine progress.same ⟨rfl, rfl, rfl, rfl, rfl, rfl, rfl, rfl, rfl, rfl, rfl, rfl⟩ ?_
      (fun busy => absurd rfl busy)
      fun busy => absurd rfl busy
    exact allows_of rfl (Function.update_self ..) rfl

/-- `down` blocks until the interrupt comes. -/
theorem sleeps {r : BlkReqHeader} (inv : s.Inv init) (here : s.pc t = .down r)
    (zero : s.notification.value = 0) :
    ({ s with notification := ⟨0, t :: s.notification.waiters⟩ }.goto t
      (.downWait r)).Inv init := by
  have inside : (s.pc t).inside = true := by rw [here]; rfl
  have has := inv.holder_of inside
  have placed := inv.placed t
  rw [here] at placed
  obtain ⟨e, g, progress, fits, mine⟩ := inv.stage inside
  have waiting : (CallPc.downWait r).allows g = true := by
    have value := progress.value
    rw [here] at fits
    cases g <;> simp_all [CallPc.allows, Stage.value]
  refine inv.advance inside rfl (inv.locking.slept here rfl rfl rfl rfl) rfl placed ⟨e, g, ?_⟩
  refine progress.same ⟨rfl, rfl, rfl, rfl, rfl, zero.symm, rfl, rfl, rfl, rfl, rfl, rfl⟩
    (allows_of has (Function.update_self ..) waiting) ?_ fun _ => ⟨rfl, rfl, rfl⟩
  intro busy
  obtain ⟨own, -⟩ := mine busy
  rw [own, here]
  simp only [goto, Function.update_self]
  exact ⟨trivial, rfl⟩

/-- The two assertions after `down`. -/
theorem checks (inv : s.Inv init) {r : BlkReqHeader} (inside : (s.pc t).inside = true)
    (request : (s.pc t).request = some r) (only : ∀ g, (s.pc t).allows g = true → g = .taken) :
    s.status t = 0 ∧ (s.usedRing ((s.usedIdx - 1) % 4)).len = expectedLen r.reqType := by
  obtain ⟨e, g, progress, fits, mine⟩ := inv.stage inside
  have taken := only g fits
  subst taken
  obtain ⟨own, mine⟩ := mine nofun
  rw [request] at mine
  cases mine
  exact ⟨own ▸ progress.status rfl, progress.len rfl⟩

/-- The call returns: its request is the one that the device has served last. -/
theorem returns {r : BlkReqHeader} (inv : s.Inv init) (here : s.pc t = .release r) :
    ∃ e, s.Progress init e .acked ∧ e = Served.mk t r.reqType r.sector (s.buf t) := by
  obtain ⟨e, g, progress, fits, mine⟩ := inv.stage (t := t) (by rw [here]; rfl)
  rw [here] at fits mine
  have acked : g = .acked := of_decide_eq_true fits
  subst acked
  obtain ⟨own, request⟩ := mine nofun
  cases request
  refine ⟨e, progress, ?_⟩
  rw [← own, ← progress.data rfl]

theorem settled {e : Served} (inv : s.Inv init) (progress : s.Progress init e .acked)
    (locking : s'.Locking)
    (calm : s'.panicked = s.panicked) (holder : s'.holder = none) (phase : s'.phase = s.phase)
    (availIdx : s'.availIdx = s.availIdx) (lastAvail : s'.lastAvail = s.lastAvail)
    (usedIdx : s'.usedIdx = s.usedIdx)
    (irqs : s'.irqs = s.irqs) (value : s'.notification.value = s.notification.value)
    (interrupt : s'.interruptStatus = s.interruptStatus) (issued : s'.issued = s.issued)
    (served : s'.served = s.served) (returned : s'.returned = s.returned ++ [e])
    (sectors : s'.sectors = s.sectors) :
    s'.Inv init := by
  refine ⟨calm.trans inv.calm, locking, ?_, e, .rest, ?_⟩
  · intro u
    refine Placed.outside (Bool.eq_false_iff.mpr fun inside => ?_)
    have := (locking.held u).mp inside
    rw [holder] at this
    cases this
  · refine ⟨by
      rw [holderPc, holder]; rfl, fun busy => absurd rfl busy, phase.trans progress.phase, ?_, ?_,
      irqs.trans progress.irqs, value.trans progress.value,
      interrupt.trans progress.interrupt, ?_, ?_, ?_, ?_, nofun,
      nofun, nofun, nofun, nofun⟩
    · rw [availIdx, lastAvail]
      exact progress.avail
    · rw [availIdx, usedIdx]
      exact progress.used
    · rw [issued, progress.issued, returned, List.map_append]
      exact (List.append_nil _).symm
    · rw [served, progress.served, returned]
      exact (List.append_nil _).symm
    · rw [sectors, progress.sectors, returned]
      exact congrArg (lastWrite init) (List.append_nil _).symm
    · rw [returned]
      exact (List.append_nil (s.returned ++ [e])).symm ▸ progress.faithful

theorem release {r : BlkReqHeader} (inv : s.Inv init) (here : s.pc t = .release r)
    (stepped : s.exec t = some s') : s'.Inv init := by
  have has : s.holder = some t := inv.holder_of (by rw [here]; rfl)
  have zero : s.lock.value = 0 := by
    rw [inv.locking.value, has]
    rfl
  obtain ⟨e, progress, own⟩ := inv.returns here
  simp only [Virtio.exec, here, ← own, has, ne_eq, not_true_eq_false, if_false] at stepped
  rcases semaUp_spec s.priority (fun _ => zero) with ⟨empty, raised⟩ | ⟨w, rest, chosen, raised⟩
  · rw [raised] at stepped
    cases stepped
    refine inv.settled progress ?_ rfl rfl rfl rfl rfl rfl rfl rfl rfl rfl rfl rfl rfl
    exact inv.locking.released here rfl rfl (by rw [empty]; rfl) rfl
  · rw [raised] at stepped
    cases stepped
    obtain ⟨r', waiting⟩ := (inv.locking.waiters w).mp (chosen.mem_iff.mp List.mem_cons_self)
    have other : w ≠ t := by
      rintro rfl
      rw [here] at waiting
      cases waiting
    have called := inv.locking.called waiting chosen
    simp only [wakeUp, goto, Function.update_of_ne other, waiting]
    refine inv.settled progress ?_ rfl rfl rfl rfl rfl rfl rfl rfl rfl rfl rfl rfl rfl
    refine called.released (t := t) (r := r) ?_ (Function.update_comm other.symm ..) rfl rfl rfl
    simp only [goto, Function.update_of_ne other.symm, here]

theorem call {r : BlkReqHeader} {buf : Sector} (inv : s.Inv init)
    (stepped : s.call t r buf = some s') : s'.Inv init := by
  unfold Virtio.call at stepped
  split at stepped
  · rename_i here
    cases stepped
    have locking : ({ s with buf := Function.update s.buf t buf }.goto t (.acquire r)).Locking :=
      inv.locking.moved rfl (by rw [here]; rfl) (by rw [here]; rfl) rfl rfl rfl rfl
    exact inv.outside (by rw [here]; rfl) rfl rfl locking rfl rfl
      ⟨rfl, rfl, rfl, rfl, rfl, rfl, rfl, rfl, rfl, rfl, rfl, rfl⟩ rfl rfl rfl
      (fun _ other => Function.update_of_ne other ..) rfl
  · cases stepped

theorem exec (inv : s.Inv init) (stepped : s.exec t = some s') : s'.Inv init := by
  have placed := inv.placed t
  unfold Virtio.exec at stepped
  split at stepped <;> rename_i here <;> simp only [here, Placed] at placed
  case h_1 => cases stepped
  case h_2 r =>
    split at stepped
    · rename_i zero
      cases stepped
      exact inv.outside (by rw [here]; rfl) rfl rfl
        (inv.locking.blocked here zero rfl rfl rfl rfl) rfl rfl
        ⟨rfl, rfl, rfl, rfl, rfl, rfl, rfl, rfl, rfl, rfl, rfl, rfl⟩ rfl rfl
        rfl (fun _ _ => rfl) rfl
    · cases stepped
      exact inv.taken here ‹_›
  case h_3 => cases stepped
  case h_4 r =>
    cases stepped
    exact inv.quietly (by rw [here]; rfl) (by rw [here]; rfl) rfl rfl rfl rfl rfl rfl rfl
      ⟨Nat.zero_le 2, Function.update_self .., nofun⟩
      ⟨rfl, rfl, rfl, rfl, rfl, rfl, rfl, rfl, rfl, rfl, rfl, rfl⟩ (by rw [here]; rfl)
      (by rw [here]; exact fun _ h => h) (.inl (by rw [here]; rfl))
  case h_5 r k =>
    obtain ⟨small, header, before⟩ := placed
    have written : ∀ j < k + 1, Function.update s.desc k (descOf t r k) j = descOf t r j := by
      intro j hj
      rw [Function.update_apply]
      split
      · rw [‹j = k›]
      · exact before j (by omega)
    split at stepped
    · cases stepped
      exact inv.quietly (by rw [here]; rfl) (by rw [here]; rfl) rfl rfl rfl rfl rfl rfl rfl
        ⟨by omega, header, written⟩
        ⟨rfl, rfl, rfl, rfl, rfl, rfl, rfl, rfl, rfl, rfl, rfl, rfl⟩ (by rw [here]; rfl)
        (by rw [here]; exact fun _ h => h) (.inl (by rw [here]; rfl))
    · cases stepped
      have last : k = 2 := by omega
      subst last
      exact inv.quietly (by rw [here]; rfl) (by rw [here]; rfl) rfl rfl rfl rfl rfl
        rfl rfl ⟨header, written⟩
        ⟨rfl, rfl, rfl, rfl, rfl, rfl, rfl, rfl, rfl, rfl, rfl, rfl⟩ (by rw [here]; rfl)
        (by rw [here]; exact fun _ h => h) (.inl (by rw [here]; rfl))
  case h_6 r =>
    cases stepped
    exact inv.quietly (by rw [here]; rfl) (by rw [here]; rfl) rfl rfl rfl rfl rfl rfl rfl
      ⟨placed, Function.update_self ..⟩
      ⟨rfl, rfl, rfl, rfl, rfl, rfl, rfl, rfl, rfl, rfl, rfl, rfl⟩ (by rw [here]; rfl)
      (by rw [here]; exact fun _ h => h) (.inl (by rw [here]; rfl))
  case h_7 r =>
    cases stepped
    exact inv.publish here
  case h_8 r =>
    cases stepped
    exact inv.quietly (by rw [here]; rfl) (by rw [here]; rfl) rfl rfl rfl rfl rfl rfl rfl placed
      ⟨rfl, rfl, rfl, rfl, rfl, rfl, rfl, rfl, rfl, rfl, rfl, rfl⟩ (by rw [here]; rfl)
      (by rw [here]; exact fun _ h => h) (.inr ⟨rfl, rfl, rfl⟩)
  case h_9 r =>
    split at stepped
    · cases stepped
      exact inv.sleeps here ‹_›
    · cases stepped
      exact inv.notified here ‹_›
  case h_10 => cases stepped
  case h_11 r =>
    have answer := inv.checks (t := t) (r := r) (by rw [here]; rfl) (by rw [here]; rfl)
      (by rw [here]; exact fun _ h => of_decide_eq_true h)
    rw [if_pos answer.1] at stepped
    cases stepped
    exact inv.quietly (by rw [here]; rfl) (by rw [here]; rfl) rfl rfl rfl rfl rfl rfl rfl placed
      ⟨rfl, rfl, rfl, rfl, rfl, rfl, rfl, rfl, rfl, rfl, rfl, rfl⟩ (by rw [here]; rfl)
      (by rw [here]; exact fun _ h => h) (.inr ⟨rfl, rfl, rfl⟩)
  case h_12 r =>
    have answer := inv.checks (t := t) (r := r) (by rw [here]; rfl) (by rw [here]; rfl)
      (by rw [here]; exact fun _ h => of_decide_eq_true h)
    rw [if_pos answer.2] at stepped
    cases stepped
    exact inv.quietly (by rw [here]; rfl) (by rw [here]; rfl) rfl rfl rfl rfl rfl rfl rfl placed
      ⟨rfl, rfl, rfl, rfl, rfl, rfl, rfl, rfl, rfl, rfl, rfl, rfl⟩ (by rw [here]; rfl)
      (by rw [here]; exact fun _ h => h) (.inr ⟨rfl, rfl, rfl⟩)
  case h_13 r =>
    cases stepped
    exact inv.acknowledge here
  case h_14 r =>
    exact inv.release here (by rw [Virtio.exec, here]; exact stepped)

theorem chain_of {e : Served} {g : Stage} (inv : s.Inv init)
    (progress : s.Progress init e g) (busy : g ≠ .rest) :
    s.chain 0 = some (⟨e.reqType, e.sector⟩, e.tid, e.tid, e.tid) ∧
      s.writtenLen 0 = expectedLen e.reqType := by
  obtain ⟨has, request⟩ := progress.mine busy
  have placed := inv.placed e.tid
  have fits := progress.fits
  rw [holderPc_of has] at fits
  have shown : (s.pc e.tid).allows .rest = false := Bool.eq_false_iff.mpr
    fun rest => busy (CallPc.eq_rest rest fits)
  obtain ⟨header, desc⟩ := placed.shown shown request
  have d0 := desc 0 (by omega)
  have d1 := desc 1 (by omega)
  have d2 := desc 2 (by omega)
  constructor
  · simp [chain, d0, d1, d2, descOf, header]
  · rcases e with ⟨t, k, sector, data⟩
    cases k <;> simp [writtenLen, d0, d1, d2, descOf, expectedLen]

/-- A step of the device, which takes the request to another stage. -/
theorem served {e : Served} {g : Stage} (inv : s.Inv init) (progress : s'.Progress init e g)
    (pc : s'.pc = s.pc) (holder : s'.holder = s.holder) (lock : s'.lock = s.lock)
    (notification : s'.notification.waiters = s.notification.waiters)
    (header : s'.header = s.header)
    (desc : s'.desc = s.desc) (availRing : s'.availRing = s.availRing)
    (availIdx : s'.availIdx = s.availIdx)
    (calm : s'.panicked = s.panicked) : s'.Inv init := by
  refine ⟨calm.trans inv.calm, ⟨?_, ?_, ?_, ?_, ?_, ?_⟩, ?_, e, g, progress⟩
  · rw [pc, holder]
    exact inv.locking.held
  · rw [lock, holder]
    exact inv.locking.value
  · rw [lock, pc]
    exact inv.locking.waiters
  · rw [lock]
    exact inv.locking.nodup
  · rw [notification, pc]
    exact inv.locking.sleepers
  · rw [notification]
    exact inv.locking.alone
  · intro u
    rw [pc]
    exact (inv.placed u).congr header desc availRing availIdx

theorem transfer {e : Served} (inv : s.Inv init) (progress : s.Progress init e .transfer)
    (stepped : s.device = some s') : s'.Inv init := by
  have phase : s.phase = .transfer 0 := progress.phase
  obtain ⟨chain, -⟩ := inv.chain_of progress nofun
  obtain ⟨has, request⟩ := progress.mine nofun
  have sectors : s.sectors = lastWrite init s.returned :=
    progress.sectors.trans (congrArg _ (List.append_nil _))
  have faithful : Faithful init s.returned := List.append_nil s.returned ▸ progress.faithful
  simp only [Virtio.device, phase, chain, Option.map_some] at stepped
  split at stepped
  case h_1 input =>
    cases stepped
    have read : Faithful init (s.returned ++ [Served.mk e.tid .In e.sector (s.sectors e.sector)]) :=
      faithful.snoc fun _ => by rw [sectors]
    refine inv.served (e := ⟨e.tid, .In, e.sector, s.sectors e.sector⟩)
      (g := .status) ?_ rfl rfl rfl rfl rfl rfl rfl rfl rfl
    refine ⟨CallPc.allows_running progress.fits rfl rfl,
      fun _ => ⟨has, input ▸ request⟩, rfl, progress.avail,
      progress.used, progress.irqs, progress.value, progress.interrupt, ?_,
      progress.served, ?_, read,
      fun _ => ?_, nofun, nofun, nofun, nofun⟩
    · rw [progress.issued]
      simp [Served.key, input]
    · rw [sectors]
      exact (lastWrite_read _ rfl).symm
    · simp only [Function.update_self]
  case h_2 output =>
    cases stepped
    have written : Faithful init (s.returned ++ [Served.mk e.tid .Out e.sector (s.buf e.tid)]) :=
      faithful.snoc nofun
    refine inv.served (e := ⟨e.tid, .Out, e.sector, s.buf e.tid⟩)
      (g := .status) ?_ rfl rfl rfl rfl rfl rfl rfl rfl rfl
    refine ⟨CallPc.allows_running progress.fits rfl rfl,
      fun _ => ⟨has, output ▸ request⟩, rfl, progress.avail,
      progress.used, progress.irqs, progress.value, progress.interrupt, ?_,
      progress.served, ?_, written,
      fun _ => rfl, nofun, nofun, nofun, nofun⟩
    · rw [progress.issued]
      simp [Served.key, output]
    · rw [sectors]
      exact (lastWrite_write s.returned (e := ⟨e.tid, .Out, e.sector, s.buf e.tid⟩) rfl).symm

theorem device (inv : s.Inv init) (stepped : s.device = some s') : s'.Inv init := by
  obtain ⟨e, g, progress⟩ := inv.progress
  have phase := progress.phase
  cases g with
  | posted =>
    have behind : s.lastAvail ≠ s.availIdx := by
      rw [progress.avail]
      exact ne_next s.lastAvail
    simp only [Virtio.device, phase, Stage.phase, if_neg behind, progress.entry rfl] at stepped
    cases stepped
    refine inv.served (e := e) (g := .transfer) ?_ rfl rfl rfl rfl rfl rfl rfl rfl rfl
    refine ⟨CallPc.allows_running progress.fits rfl rfl, fun _ => progress.mine nofun, rfl, ?_,
      progress.used, progress.irqs,
      progress.value, progress.interrupt, progress.issued, progress.served, progress.sectors,
      progress.faithful, nofun,
      nofun, nofun, nofun, nofun⟩
    rw [progress.avail]
    simp [Stage.behind]
  | transfer => exact inv.transfer progress stepped
  | status =>
    obtain ⟨chain, -⟩ := inv.chain_of progress nofun
    simp only [Virtio.device, phase, Stage.phase, chain, Option.map_some] at stepped
    cases stepped
    refine inv.served (e := e) (g := .elem) ?_ rfl rfl rfl rfl rfl rfl rfl rfl rfl
    exact ⟨CallPc.allows_running progress.fits rfl rfl, fun _ => progress.mine nofun, rfl,
      progress.avail, progress.used, progress.irqs,
      progress.value, progress.interrupt, progress.issued, progress.served,
      progress.sectors, progress.faithful,
      progress.data, fun _ => Function.update_self .., nofun, nofun, nofun⟩
  | elem =>
    obtain ⟨-, written⟩ := inv.chain_of progress nofun
    simp only [Virtio.device, phase, Stage.phase, written] at stepped
    cases stepped
    refine inv.served (e := e) (g := .index) ?_ rfl rfl rfl rfl rfl rfl rfl rfl rfl
    refine ⟨CallPc.allows_running progress.fits rfl rfl, fun _ => progress.mine nofun, rfl,
      progress.avail, progress.used, progress.irqs,
      progress.value, progress.interrupt, progress.issued, progress.served,
      progress.sectors, progress.faithful,
      progress.data, progress.status, nofun, fun _ => ?_, nofun⟩
    simp only [Function.update_self]
  | index =>
    simp only [Virtio.device, phase, Stage.phase] at stepped
    cases stepped
    refine inv.served (e := e) (g := .interrupt) ?_ rfl rfl rfl rfl rfl rfl rfl rfl rfl
    refine ⟨CallPc.allows_running progress.fits rfl rfl, fun _ => progress.mine nofun, rfl,
      progress.avail, ?_, progress.irqs,
      progress.value, progress.interrupt, progress.issued, ?_, progress.sectors, progress.faithful,
      progress.data, progress.status, nofun, nofun, fun _ => ?_⟩
    · simp only [progress.used, Stage.unused]
      simp
    · simp only [progress.served]
      simp [Stage.completed]
    · have := progress.elem rfl
      simpa using this
  | interrupt =>
    simp only [Virtio.device, phase, Stage.phase] at stepped
    cases stepped
    refine inv.served (e := e) (g := .raised) ?_ rfl rfl rfl rfl rfl rfl rfl rfl rfl
    refine ⟨CallPc.allows_running progress.fits rfl rfl, fun _ => progress.mine nofun, rfl,
      progress.avail, progress.used, ?_,
      progress.value, rfl, progress.issued, progress.served, progress.sectors, progress.faithful,
      progress.data, progress.status, nofun, nofun, progress.len⟩
    simp only [progress.irqs, Stage.irqs]
  | rest | raised | signalled | taken | acked =>
    have waiting : s.lastAvail = s.availIdx := by
      rw [progress.avail]
      simp [Stage.behind]
    simp only [Virtio.device, phase, Stage.phase, if_pos waiting] at stepped
    cases stepped

/-- `handle_interrupt`. -/
theorem handleInterrupt (inv : s.Inv init) (stepped : s.handleInterrupt = some s') :
    s'.Inv init := by
  obtain ⟨e, g, progress⟩ := inv.progress
  unfold Virtio.handleInterrupt at stepped
  split at stepped
  · cases stepped
  rename_i some_irq
  have raised : g = .raised := by
    have irqs := progress.irqs
    cases g <;> first | rfl | exact absurd irqs some_irq
  subst raised
  obtain ⟨has, request⟩ := progress.mine nofun
  have fits := progress.fits
  rw [holderPc_of has] at fits
  have status : s.interruptStatus = 1 := progress.interrupt
  have zero : s.notification.value = 0 := progress.value
  have one : s.irqs = 1 := progress.irqs
  rw [if_neg (not_not_intro status)] at stepped
  rcases semaUp_spec s.priority (fun _ => zero) with ⟨empty, up⟩ | ⟨w, rest, chosen, up⟩
  · rw [up] at stepped
    cases stepped
    have awake : ∀ r, s.pc e.tid ≠ .downWait r := by
      intro r sleeping
      have waits := (inv.locking.sleepers e.tid).mpr ⟨r, sleeping⟩
      rw [empty] at waits
      cases waits
    refine inv.served (e := e) (g := .signalled) ?_ rfl rfl rfl empty.symm rfl rfl rfl rfl rfl
    exact ⟨allows_of has rfl (CallPc.allows_signalled fits awake), fun _ => ⟨has, request⟩,
      progress.phase, progress.avail, progress.used, by simp only [wakeUp, one, Stage.irqs],
      by simp only [wakeUp, zero, Stage.value], progress.interrupt,
      progress.issued, progress.served, progress.sectors, progress.faithful, progress.data,
      progress.status, nofun, nofun, progress.len⟩
  · rw [up] at stepped
    cases stepped
    obtain ⟨r, waiting⟩ := (inv.locking.sleepers w).mp (chosen.mem_iff.mp List.mem_cons_self)
    have inside : (s.pc w).inside = true := by rw [waiting]; rfl
    have own : e.tid = w := Option.some.inj (has.symm.trans (inv.holder_of inside))
    have placed := inv.placed w
    rw [waiting] at placed
    simp only [wakeUp, waiting]
    refine inv.advance inside rfl (inv.locking.woken waiting chosen rfl rfl rfl rfl) rfl
      placed ⟨e, .signalled, ?_⟩
    refine ⟨allows_of (own ▸ has) (Function.update_self ..) rfl, fun _ => ⟨has, ?_⟩,
      progress.phase, progress.avail, progress.used, by simp only [goto, one, Stage.irqs],
      by simp only [goto, zero, Stage.value], progress.interrupt,
      progress.issued, progress.served, progress.sectors, progress.faithful, progress.data,
      progress.status, nofun, nofun, progress.len⟩
    rw [← request, own, waiting]
    simp only [goto, Function.update_self]
    rfl

theorem step {event : VirtioEvent} (inv : s.Inv init) (stepped : s.step event = some s') :
    s'.Inv init := by
  unfold Virtio.step at stepped
  rw [if_neg (by rw [inv.calm]; exact Bool.false_ne_true)] at stepped
  cases event with
  | readSector t sector buf => exact inv.call stepped
  | writeSector t sector buf => exact inv.call stepped
  | exec t => exact inv.exec stepped
  | device => exact inv.device stepped
  | handleInterrupt => exact inv.handleInterrupt stepped
  | setPriority t p =>
    cases stepped
    obtain ⟨e, g, progress⟩ := inv.progress
    refine inv.served (e := e) (g := g) ?_ rfl rfl rfl rfl rfl rfl rfl rfl rfl
    exact progress.same ⟨rfl, rfl, rfl, rfl, rfl, rfl, rfl, rfl, rfl, rfl, rfl, rfl⟩ progress.fits
      (fun _ => ⟨rfl, rfl⟩) fun _ => ⟨rfl, rfl, rfl⟩

theorem start (init : Nat → Sector) (priority : Tid → Nat) :
    (Virtio.init init priority).Inv init := by
  refine ⟨rfl, ⟨?_, rfl, ?_, List.nodup_nil, ?_, List.nodup_nil⟩, fun _ => trivial,
    ⟨0, .In, 0, init 0⟩, .rest, ?_⟩
  · exact fun _ => iff_of_false nofun nofun
  · exact fun _ => iff_of_false nofun nofun
  · exact fun _ => iff_of_false nofun nofun
  · refine ⟨rfl, fun busy => absurd rfl busy, rfl, rfl, rfl, rfl, rfl, rfl, rfl, rfl, rfl, ?_,
      nofun, nofun, nofun, nofun,
      nofun⟩
    intro before e after (split : [] = before ++ e :: after)
    cases before <;> cases split

end Inv

/-- What the driver promises: no assertion has failed; the requests that were issued, those that
the device has completed and those whose calls have returned are the same in the same order, but
for at most one at the end; a thread that has come back from `down` finds its own request
completed; the notification counts nothing when no request is in flight; each read has returned
what the last write before it left. -/
structure InOrder (init : Nat → Sector) (s : Virtio) : Prop where
  calm : s.panicked = false
  outstanding : ∃ tail, tail.length ≤ 1 ∧ s.issued = s.served.map Served.key ++ tail
  completed : ∃ tail, tail.length ≤ 1 ∧ s.served = s.returned ++ tail
  own : ∀ t r, s.pc t = .checkStatus r ∨ s.pc t = .checkLen r ∨
    s.pc t = .ack r ∨ s.pc t = .release r →
    s.served = s.returned ++ [Served.mk t r.reqType r.sector (s.buf t)]
  quiet : (∀ t, (s.pc t).inFlight = false) → s.notification.value = 0 ∧ s.irqs = 0
  reads : Faithful init s.returned

theorem Inv.inOrder (inv : s.Inv init) : s.InOrder init := by
  obtain ⟨e, g, progress⟩ := inv.progress
  refine ⟨inv.calm, ?_, ⟨_, ?_, progress.served⟩, ?_, ?_, ?_⟩
  · rw [progress.issued, progress.served]
    cases g with
    | rest => exact ⟨[], by decide, by simp [Stage.completed]⟩
    | posted | transfer | status | elem
    | index => exact ⟨[e.key], Nat.le_refl 1, by simp [Stage.completed]⟩
    | interrupt | raised | signalled | taken
    | acked => exact ⟨[], by decide, by simp [Stage.completed]⟩
  · split
    · exact Nat.le_refl 1
    · exact Nat.zero_le 1
  · intro t r places
    have inside : (s.pc t).inside = true ∧ (s.pc t).request = some r ∧
        ∀ g, (s.pc t).allows g = true → g = .taken ∨ g = .acked := by
      rcases places with here | here | here |
        here <;> rw [here] <;> refine ⟨rfl, rfl, fun g fits => ?_⟩
      · exact .inl (of_decide_eq_true fits)
      · exact .inl (of_decide_eq_true fits)
      · exact .inl (of_decide_eq_true fits)
      · exact .inr (of_decide_eq_true fits)
    obtain ⟨e, g, progress, fits, mine⟩ := inv.stage inside.1
    have late := inside.2.2 g fits
    have busy : g ≠ .rest := by
      rcases late with rfl | rfl <;> exact nofun
    have done : g.completed = true ∧ g.transferred = true := by
      rcases late with rfl | rfl <;> exact ⟨rfl, rfl⟩
    obtain ⟨tid, request⟩ := mine busy
    rw [inside.2.1] at request
    cases request
    rw [progress.served, if_pos done.1, ← tid, ← progress.data done.2]
  · intro settled
    have late : g = .rest ∨ g = .taken ∨ g = .acked := by
      have fits := progress.fits
      unfold holderPc at fits
      split at fits
      · exact .inl (of_decide_eq_true fits)
      · exact CallPc.late (settled _) fits
    rw [progress.value, progress.irqs]
    rcases late with rfl | rfl | rfl <;> exact ⟨rfl, rfl⟩
  · exact progress.faithful.of_append

/-- Every run of any threads, the device and its interrupts keeps the requests in order. -/
theorem requests_in_order {priority : Tid → Nat} {es : List VirtioEvent}
    (ran : run step (Virtio.init init priority) es = some s) : s.InOrder init :=
  (run_invariant (fun _ _ _ inv stepped => Inv.step inv stepped)
    (Inv.start init priority) ran : s.Inv init).inOrder

/-- One thread writes a sector that another one wants to read; the second one waits for the mutex,
and is woken when the first one has returned. -/
def writeThenRead : List VirtioEvent :=
  [.writeSector 1 5 fun _ => 7, .readSector 2 5 fun _ => 0, .exec 1, .exec 2] ++
    List.replicate 8 (.exec 1) ++
    List.replicate 6 .device ++ [.handleInterrupt] ++ List.replicate 5 (.exec 1) ++
    List.replicate 9 (.exec 2) ++ List.replicate 6 .device ++ [.handleInterrupt] ++
    List.replicate 5 (.exec 2)

theorem read_returns_written :
    ∃ s, run step (Virtio.init (fun _ _ => 0) fun _ => 31) writeThenRead = some s ∧
    (s.returned.map fun e => (e.tid, e.data 0)) = [(1, 7), (2, 7)] ∧ s.InOrder fun _ _ => 0 := by
  have computed : (run step (Virtio.init (fun _ _ => 0) fun _ => 31) writeThenRead).map
      (fun s => s.returned.map fun e => (e.tid, e.data 0)) = some [(1, 7), (2, 7)] := by
        decide +kernel
  obtain ⟨s, ran, ended⟩ := Option.map_eq_some_iff.mp computed
  exact ⟨s, ran, ended, requests_in_order ran⟩

end Virtio

end Tacos.Device
