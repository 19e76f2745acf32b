/- GID: Tacos/Device/Virtio
   generality: I
   source: src/device/virtio.rs, src/sync/sema.rs, src/sync/mutex.rs
   digest: The driver of the virtio block device, the device itself and its interrupt, and the
     order in which requests are served. -/

import Tacos.Fs.Base
import Tacos.Thread.Manager

set_option autoImplicit false
set_option relaxedAutoImplicit false

namespace Tacos.Device

open Tacos.Fs Tacos.Thread Tacos.Lib.Run

/-- `BlkReqType`. -/
inductive BlkReqType where
  | In
  | Out
  deriving DecidableEq

structure BlkReqHeader where
  reqType : BlkReqType
  sector : Nat

/-- The physical addresses that the driver hands out: variables of the call that a thread is in. -/
inductive Addr where
  | null
  | header (t : Tid)
  | buf (t : Tid)
  | status (t : Tid)
  deriving DecidableEq

/-- `Desc`, with the two bits of `DescFlag`. -/
structure Desc where
  addr : Addr
  len : Nat
  flagNext : Bool
  flagWrite : Bool
  next : Nat
  deriving DecidableEq

structure UsedElem where
  id : Nat
  len : Nat
  deriving DecidableEq

/-- A request as the device has served it, or as a call has seen it. -/
structure Served where
  tid : Tid
  reqType : BlkReqType
  sector : Nat
  data : Sector

/-- Where a thread is in `read_sector` or `write_sector`. A turn of `down`, which runs with
interrupts off, is one step. -/
inductive CallPc where
  | idle
  /-- `lock()`: a turn of the mutex's `down`, and blocked in it -/
  | acquire (r : BlkReqHeader)
  | lockWait (r : BlkReqHeader)
  /-- the header and the status, then the descriptors, one after the other -/
  | frame (r : BlkReqHeader)
  | desc (r : BlkReqHeader) (k : Nat)
  /-- `supply_buffer` -/
  | ring (r : BlkReqHeader)
  | index (r : BlkReqHeader)
  | notify (r : BlkReqHeader)
  /-- a turn of `USED_RING_NOTIFICATION.get().down()`, and blocked in it -/
  | down (r : BlkReqHeader)
  | downWait (r : BlkReqHeader)
  /-- the two assertions, the acknowledgement and the release of the mutex -/
  | checkStatus (r : BlkReqHeader)
  | checkLen (r : BlkReqHeader)
  | ack (r : BlkReqHeader)
  | release (r : BlkReqHeader)

/-- Where the device is with an entry of the available ring. -/
inductive Phase where
  | idle
  | transfer (id : Nat)
  | status (id : Nat) (e : Served)
  | elem (id : Nat) (e : Served)
  | index (e : Served)
  | interrupt

/-- The rings, the registers, the threads with the variables of their calls, and the device.
`issued`, `served` and `returned` list the requests that were put into the available ring, that
the device has put into the used ring, and whose calls have returned. -/
structure Virtio where
  desc : Nat → Desc
  availIdx : UInt16
  availRing : UInt16 → Nat
  usedIdx : UInt16
  usedRing : UInt16 → UsedElem
  interruptStatus : Nat
  lock : Semaphore
  holder : Option Tid
  notification : Semaphore
  pc : Tid → CallPc
  header : Tid → BlkReqHeader
  buf : Tid → Sector
  status : Tid → UInt8
  priority : Tid → Nat
  lastAvail : UInt16
  phase : Phase
  sectors : Nat → Sector
  irqs : Nat
  issued : List (Tid × BlkReqHeader)
  served : List Served
  returned : List Served
  panicked : Bool

inductive VirtioEvent where
  | readSector (t : Tid) (sector : Nat) (buf : Sector)
  | writeSector (t : Tid) (sector : Nat) (buf : Sector)
  | exec (t : Tid)
  | device
  | handleInterrupt
  | setPriority (t : Tid) (p : Nat)

namespace Virtio

/-- The state after `Virtio::init`. -/
def init (sectors : Nat → Sector) (priority : Tid → Nat) : Virtio where
  desc := fun _ => ⟨.null, 0, false, false, 0⟩
  availIdx := 0
  availRing := fun _ => 0
  usedIdx := 0
  usedRing := fun _ => ⟨0, 0⟩
  interruptStatus := 0
  lock := ⟨1, []⟩
  holder := none
  notification := ⟨0, []⟩
  pc := fun _ => .idle
  header := fun _ => ⟨.In, 0⟩
  buf := fun _ _ => 0
  status := fun _ => 0
  priority := priority
  lastAvail := 0
  phase := .idle
  sectors := sectors
  irqs := 0
  issued := []
  served := []
  returned := []
  panicked := false

def goto (s : Virtio) (t : Tid) (p : CallPc) : Virtio := { s with pc := Function.update s.pc t p }

def panic (s : Virtio) : Virtio := { s with panicked := true }

end Virtio

/-- `Semaphore::up`: the semaphore after it and the thread that is woken, unless an assertion
fails. -/
def semaUp (priority : Tid → Nat) (x : Semaphore) : Option (Semaphore × Option Tid) :=
  match x.waiters with
  | [] => some (⟨x.value + 1, []⟩, none)
  | waiters =>
    if x.value ≠ 0 then none
    else
      let maxIndex := (getMaxpriority priority waiters).1
      (waiters[maxIndex]?).map fun thread => (⟨x.value + 1, waiters.eraseIdx maxIndex⟩, some thread)

namespace Virtio

/-- `wake_up`: the thread takes another turn of the loop of `down`. -/
def wakeUp (s : Virtio) : Option Tid → Virtio
  | none => s
  | some u =>
    match s.pc u with
    | .lockWait r => s.goto u (.acquire r)
    | .downWait r => s.goto u (.down r)
    | _ => s.panic

/-- The descriptors that `read_sector_impl` and `write_sector_impl` write, which differ in one
flag. -/
def descOf (t : Tid) (r : BlkReqHeader) : Nat → Desc
  | 0 => ⟨.header t, 16, true, false, 1⟩
  | 1 => ⟨.buf t, 512, true, r.reqType = .In, 2⟩
  | _ => ⟨.status t, 1, false, true, 0⟩

def expectedLen : BlkReqType → Nat
  | .In => 512 + 1
  | .Out => 1

def exec (s : Virtio) (t : Tid) : Option Virtio :=
  match s.pc t with
  | .idle => none
  | .acquire r =>
    if s.lock.value = 0 then
      some ({ s with lock := ⟨0, t :: s.lock.waiters⟩ }.goto t (.lockWait r))
    else some ({ s with lock := ⟨s.lock.value - 1, s.lock.waiters⟩, holder := some t }.goto t
      (.frame r))
  | .lockWait _ => none
  | .frame r =>
    some ({ s with
      header := Function.update s.header t r
      status := Function.update s.status t 0xff }.goto t (.desc r 0))
  | .desc r k =>
    some ({ s with desc := Function.update s.desc k (descOf t r k) }.goto t
      (if k < 2 then .desc r (k + 1) else .ring r))
  | .ring r => some ({ s with availRing := Function.update s.availRing (s.availIdx % 4) 0 }.goto t
      (.index r))
  | .index r => some ({ s with availIdx := s.availIdx + 1, issued := s.issued ++ [(t, r)] }.goto t
      (.notify r))
  | .notify r => some (s.goto t (.down r))
  | .down r =>
    if s.notification.value = 0 then
      some ({ s with notification := ⟨0, t :: s.notification.waiters⟩ }.goto t (.downWait r))
    else some ({ s with notification := ⟨s.notification.value - 1, s.notification.waiters⟩ }.goto t
      (.checkStatus r))
  | .downWait _ => none
  | .checkStatus r => some (if s.status t = 0 then s.goto t (.checkLen r) else s.panic)
  | .checkLen r =>
    some (if (s.usedRing ((s.usedIdx - 1) % 4)).len = expectedLen r.reqType then s.goto
      t (.ack r) else s.panic)
  | .ack r => some ({ s with interruptStatus := 0 }.goto t (.release r))
  | .release r =>
    if s.holder ≠ some t then some s.panic
    else match semaUp s.priority s.lock with
      | none => some s.panic
      | some (lock, woken) =>
        some (({ s with
          lock := lock
          holder := none
          returned := s.returned ++ [Served.mk t r.reqType r.sector (s.buf t)]
            }.goto t .idle).wakeUp woken)

/-- The chain of descriptors that starts at `id`, as a block device reads it: the header, the data
and the status. -/
def chain (s : Virtio) (id : Nat) : Option (BlkReqHeader × Tid × Tid × Tid) :=
  let d0 := s.desc id
  let d1 := s.desc d0.next
  let d2 := s.desc d1.next
  match d0.addr, d1.addr, d2.addr with
  | .header t, .buf b, .status u =>
    if d0.len = 16 ∧ d0.flagNext = true ∧ d1.len = 512 ∧ d1.flagNext = true ∧
        d1.flagWrite = decide ((s.header t).reqType = .In) ∧ d2.len = 1 ∧ d2.flagWrite = true then
      some (s.header t, t, b, u)
    else none
  | _, _, _ => none

def writtenLen (s : Virtio) (id : Nat) : Nat :=
  let d0 := s.desc id
  let d1 := s.desc d0.next
  let d2 := s.desc d1.next
  (if d1.flagWrite then d1.len else 0) + if d2.flagWrite then d2.len else 0

/-- One step of the device, which may look at the available ring at any time. -/
def device (s : Virtio) : Option Virtio :=
  match s.phase with
  | .idle =>
    if s.lastAvail = s.availIdx then none
    else
      some { s with
        lastAvail := s.lastAvail + 1
        phase := .transfer (s.availRing (s.lastAvail % 4)) }
  | .transfer id =>
    (s.chain id).map fun (h, t, b, _) =>
      match h.reqType with
      | .In =>
        { s with
          buf := Function.update s.buf b (s.sectors h.sector)
          phase := .status id ⟨t, .In, h.sector, s.sectors h.sector⟩ }
      | .Out =>
        { s with
          sectors := Function.update s.sectors h.sector (s.buf b)
          phase := .status id ⟨t, .Out, h.sector, s.buf b⟩ }
  | .status id e =>
    (s.chain id).map fun (_, _, _, u) =>
      { s with status := Function.update s.status u 0, phase := .elem id e }
  | .elem id e =>
    some { s with
      usedRing := Function.update s.usedRing (s.usedIdx % 4) ⟨id, s.writtenLen id⟩
      phase := .index e }
  | .index e =>
      some { s with usedIdx := s.usedIdx + 1, served := s.served ++ [e], phase := .interrupt }
  | .interrupt => some { s with interruptStatus := 1, irqs := s.irqs + 1, phase := .idle }

/-- `handle_interrupt`, once for each interrupt that the device raises. -/
def handleInterrupt (s : Virtio) : Option Virtio :=
  if s.irqs = 0 then none
  else if s.interruptStatus ≠ 1 then some s.panic
  else match semaUp s.priority s.notification with
    | none => some s.panic
    | some (notification, woken) =>
      some ({ s with notification := notification, irqs := s.irqs - 1 }.wakeUp woken)

/-- A thread that is in no call starts one, with its buffer. -/
def call (s : Virtio) (t : Tid) (r : BlkReqHeader) (buf : Sector) : Option Virtio :=
  match s.pc t with
  | .idle => some ({ s with buf := Function.update s.buf t buf }.goto t (.acquire r))
  | _ => none

def step (s : Virtio) (e : VirtioEvent) : Option Virtio :=
  if s.panicked then none
  else match e with
    | .readSector t sector buf => s.call t ⟨.In, sector⟩ buf
    | .writeSector t sector buf => s.call t ⟨.Out, sector⟩ buf
    | .exec t => s.exec t
    | .device => s.device
    | .handleInterrupt => s.handleInterrupt
    | .setPriority t p => some { s with priority := Function.update s.priority t p }

end Virtio

end Tacos.Device
