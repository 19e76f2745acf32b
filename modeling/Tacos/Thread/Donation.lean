/- GID: Tacos/Thread/Donation
   generality: I
   source: src/sync/sleep.rs, src/thread/imp.rs, src/thread.rs
   digest: When a thread that waits for a Sleep lock ranks no higher than the holder. -/

import Tacos.Thread.Sleep

set_option autoImplicit false
set_option relaxedAutoImplicit false

namespace Tacos.Thread

open Tacos.Lib.Run (run Guarded guarded_run_invariant)

/-- The thread whose priority a pending instruction will pass on. -/
def Instr.hopsFrom : Instr → Option Tid
  | .access (.loadDonner donner _ _) | .access (.findAndDonate donner _) => some donner
  | _ => none

/-- The lock id under which a pending instruction looks for `t`'s records. -/
def Instr.follows (t : Tid) : Instr → Option Nat
  | .access (.findAndDonate donner lockid) => if donner = t then some lockid else none
  | _ => none

/-- Instructions that rely on a priority read before. -/
def Instr.tight : Instr → Bool
  | .access (.loadAcceptor ..) | .access (.donateLoad ..) | .access (.donateStore ..) => true
  | .access (.restorePriority _) => true
  | _ => false

namespace Kernel

variable {σ : Type} [Schedule σ]

/-- `w` waits for lock `l`, or has only to call `down` on it. -/
def Awaits (k : Kernel σ) (w : Tid) (l : Nat) : Prop := entering (k.frames w) = some l

/-- `w` has a record of having donated to `h` through a lock with another id. -/
def Recorded (k : Kernel σ) (w h : Tid) (lockid : Nat) : Prop :=
  ∃ r ∈ (k.locks.data w).donationq, r.isDonner = true ∧ r.acceptor = h ∧ r.lockid ≠ lockid

/-- The priority of every thread that waits for a lock the current thread holds is
within `bound`. -/
def Covers (k : Kernel σ) (bound : Nat → Prop) : Prop :=
  ∀ w < k.nextTid, ∀ l ∈ entering (k.frames w), k.Holds k.current l → bound (k.locks.priority w)

/-- What must hold before an instruction so that it lowers no holder below a thread that
waits for it, and raises no such thread above the holder; `rest` follows the instruction.
With `strict` set, no donation may be passed on along a chain. -/
def SteadyAt (strict : Bool) (k : Kernel σ) (rest : List Instr) : Instr → Prop
  -- the processor is not passed on while a hop of a chain is still to be made
  | .schedule => ∀ i ∈ rest, ∀ w ∈ i.hopsFrom, ∀ l ∈ entering (k.frames w),
      ∀ h ∈ (k.locks.sleep l).holder, k.locks.priority h < k.locks.priority w →
        k.status k.current = .Running ∧ ∀ t < k.nextTid, k.status t = .Ready →
          k.locks.priority t < k.locks.priority k.current
  -- a thread does not lower itself below a thread that waits for it
  | .access (.storePriority p) => k.Covers (· ≤ p)
  -- what raises a waiting thread above the holder of its lock is passed on by a record
  | .access (.donateStore t p) => ∀ l ∈ entering (k.frames t), ∀ h ∈ (k.locks.sleep l).holder,
      k.Holds h l → p ≤ k.locks.priority h ∨
        (strict = false ∧ ∃ i ∈ rest, ∃ lockid ∈ i.follows t, k.Recorded t h lockid)
  -- nobody who waits already ranks above the thread that gets the lock
  | .access (.setHolder l) => ∀ w < k.nextTid, entering (k.frames w) = some l →
      k.locks.priority w ≤ k.locks.priority k.current
  -- what `release` restores covers the waiters of the locks that are kept
  | .access .scanRecords => k.Covers fun p => p ≤ (k.locks.data k.current).storedPrev.2 ∨
      ∃ r ∈ (k.locks.data k.current).donationq, p ≤ r.donnerPriority
  | .access .restoreSetted => ∀ s ∈ (k.locks.data k.current).prioritySetted, k.Covers (· ≤ s)
  | _ => True

/-- The condition on a step: a preemption falls between no read and the store that relies
on it, and the next instruction is a steady one. -/
def Steady (strict : Bool) (k : Kernel σ) : Event → Prop
  | .call _ => True
  | .preempt => ∀ i ∈ (k.frames k.current).head?, i.tight = false
  | .exec => ∀ i ∈ (k.frames k.current).head?, k.SteadyAt strict (k.frames k.current).tail i

instance (k : Kernel σ) (w h : Tid) (lockid : Nat) : Decidable (k.Recorded w h lockid) :=
  inferInstanceAs (Decidable (∃ r ∈ (k.locks.data w).donationq, _))

instance (k : Kernel σ) (bound : Nat → Prop) [DecidablePred bound] : Decidable (k.Covers bound) :=
  inferInstanceAs (Decidable (∀ w < k.nextTid, _))

instance (strict : Bool) (k : Kernel σ) (rest : List Instr) (i : Instr) :
    Decidable (k.SteadyAt strict rest i) := by
  cases i with
  | access a => cases a <;> dsimp only [SteadyAt] <;> infer_instance
  | _ => dsimp only [SteadyAt]; infer_instance

instance (strict : Bool) (k : Kernel σ) (e : Event) : Decidable (k.Steady strict e) := by
  cases e <;> dsimp only [Steady] <;> infer_instance

/-- The current thread has still to pass `w`'s priority on to `h`. -/
inductive Owes (k : Kernel σ) (w h : Tid) : Prop where
  | hop (lockid : Nat) (pending : .access (.loadDonner w h lockid) ∈ k.frames k.current)
  | chain (lockid : Nat) (pending : .access (.findAndDonate w lockid) ∈ k.frames k.current)
      (recorded : k.Recorded w h lockid)
  | compare (lockid : Nat) (head : (k.frames k.current).head? =
      some (.access (.loadAcceptor w h lockid (k.locks.priority w))))
  | load (head : (k.frames k.current).head? = some (.access (.donateLoad w h)))
  | store (head : (k.frames k.current).head? =
      some (.access (.donateStore h (k.locks.priority w))))

/-- What the current thread knows when it relies on a priority read before. -/
def Fresh (k : Kernel σ) : Instr → Prop
  | .access (.loadAcceptor donner _ _ p) => p = k.locks.priority donner
  | .access (.donateLoad donner acceptor) => k.locks.priority acceptor < k.locks.priority donner
  | .access (.donateStore acceptor p) => k.locks.priority acceptor < p
  | .access (.restorePriority p) =>
    ∀ w l, k.Awaits w l → k.Holds k.current l → k.locks.priority w ≤ p
  | _ => True

/-- The invariant of donation along steady runs. -/
structure Donated [LawfulSchedule σ] (strict : Bool) (k : Kernel σ) : Prop where
  wired : k.Wired
  awaits : ∀ w l h, k.Awaits w l → k.Holds h l → k.locks.priority w ≤ k.locks.priority h ∨
    (k.Owes w h ∧ (strict = true → w = k.current))
  loose : ∀ t, t ≠ k.current → ∀ i ∈ k.frames t, i.tight = false
  loose_tail : ∀ i ∈ (k.frames k.current).tail, i.tight = false
  fresh : ∀ i ∈ (k.frames k.current).head?, k.Fresh i

end Kernel

private theorem eq_findAndDonate {i : Instr} {t : Tid} {lockid : Nat}
    (h : lockid ∈ i.follows t) : i = .access (.findAndDonate t lockid) := by
  cases i with
  | access a =>
    cases a with
    | findAndDonate d l =>
      simp only [Instr.follows, Option.mem_def] at h
      split at h
      · rename_i hd
        cases h
        rw [hd]
      · cases h
    | _ => cases h
  | _ => cases h

private theorem Access.exec_records {cur : Tid} {m m' : Locks} {a : Access} {is : List Instr}
    (hhop : (Instr.access a).hop) (he : a.exec cur m = .ok (m', is)) {t : Tid} {r : DonationData}
    (hr : r ∈ (m.data t).donationq) : r ∈ (m'.data t).donationq := by
  cases a with
  | addDonation u newitem =>
    cases he
    by_cases ht : t = u
    · subst ht
      simp [Locks.setDonationq, hr]
    · simpa [Locks.setDonationq, ht] using hr
  | donateStore u p =>
    cases he
    by_cases ht : t = u
    · subst ht
      simpa [Locks.setPriority] using hr
    · simpa [Locks.setPriority, ht] using hr
  | loadDonner | donateLoad | findAndDonate =>
    cases he
    exact hr
  | loadAcceptor =>
    simp only [exec] at he
    split at he
    all_goals
      cases he
      exact hr
  | _ => cases hhop

namespace Kernel

section Step

variable {σ : Type} {k k' : Kernel σ} {rest : List Instr} {i : Instr}

private theorem holds_back (hf : k.frames k.current = i :: rest)
    (fresh : k.frames k.nextTid = []) (he : Effect k rest k' i) {h : Tid} {l : Nat}
    (hh : k'.Holds h l) : k.Holds h l ∨ (i = .access (.setHolder l) ∧ h = k.current) := by
  obtain ⟨holder, notTaking⟩ := hh
  have kept : .access (.takeHolder l) ∈ k.frames h →
    i = .access (.takeHolder l) ∧ h = k.current := by
    intro hm
    by_contra hcon
    apply notTaking
    by_cases hc : h = k.current
    · subst hc
      obtain ⟨is, his⟩ := he.frames_self
      rw [hf] at hm
      rw [his]
      exact List.mem_append_right _ ((List.mem_cons.mp hm).resolve_left fun e => hcon ⟨e.symm, rfl⟩)
    · rcases he.frames_other hc with same | ⟨rfl, -⟩
      · rwa [same]
      · rw [fresh] at hm
        cases hm
  rw [he.holder l] at holder
  by_cases hset : i = .access (.setHolder l)
  · subst hset
    simp only [held, Access.sets, if_true, Option.some.injEq] at holder
    exact .inr ⟨rfl, holder.symm⟩
  · by_cases htake : i = .access (.takeHolder l)
    · subst htake
      simp [held, Access.sets] at holder
    · refine .inl ⟨?_, fun hm => htake (kept hm).1⟩
      revert holder
      cases i with
      | access a =>
        cases a with
        | setHolder l' =>
          have : l ≠ l' := fun e => hset (e ▸ rfl)
          simp [held, Access.sets, this]
        | takeHolder l' =>
          have : l ≠ l' := fun e => htake (e ▸ rfl)
          simp [held, Access.sets, this]
        | _ => exact id
      | _ => exact id

private theorem recorded_forward (phased : k.Phased) (hf : k.frames k.current = i :: rest)
    (he : Effect k rest k' i) {j : Instr} (hj : j ∈ rest) (hhop : j.hop) {w h : Tid} {lockid : Nat}
    (hr : k.Recorded w h lockid) : k'.Recorded w h lockid := by
  have hi := phased k.current
  rw [hf] at hi
  obtain ⟨r, hr, kind⟩ := hr
  refine ⟨r, ?_, kind⟩
  have noise_or_hop := hi.hop_pending (List.mem_cons_of_mem i hj) hhop
  cases he with
  | access a is exec =>
    exact a.exec_records (noise_or_hop.resolve_left Bool.false_ne_true) exec hr
  | build | exit | down | block | take | up =>
    exact (noise_or_hop.elim Bool.false_ne_true Bool.false_ne_true).elim
  | still i hp locks | schedule locks =>
    rw [locks]
    exact hr

/-- Executing an instruction fulfils a pending donation or leaves it pending. -/
private theorem owes_forward (phased : k.Phased) (hf : k.frames k.current = i :: rest)
    (he : Effect k rest k' i) (hcur : k'.current = k.current) {w h : Tid} (hw : k.Owes w h) :
    k'.Owes w h ∨ k'.locks.priority w ≤ k'.locks.priority h := by
  have stays : ∀ j ∈ rest, j ∈ k'.frames k'.current := by
    intro j hj
    obtain ⟨is, his⟩ := he.frames_self
    rw [hcur, his]
    exact List.mem_append_right _ hj
  have head : ∀ j is, k'.frames = k.pending (j :: is) rest →
    (k'.frames k'.current).head? = some j := by
    intro j is h
    rw [hcur, h, pending_self]
    rfl
  cases hw with
  | hop lockid pending =>
    rw [hf] at pending
    rcases List.mem_cons.mp pending with rfl | hm
    · obtain ⟨is, exec, frames⟩ := he.of_access
      obtain ⟨locks, rfl⟩ := Prod.mk.inj (Except.ok.inj exec)
      refine .inl (.compare lockid ?_)
      rw [head _ _ frames, locks]
    · exact .inl (.hop lockid (stays _ hm))
  | chain lockid pending recorded =>
    rw [hf] at pending
    rcases List.mem_cons.mp pending with rfl | hm
    · obtain ⟨is, exec, frames⟩ := he.of_access
      obtain ⟨-, rfl⟩ := Prod.mk.inj (Except.ok.inj exec)
      obtain ⟨r, hr, donner, rfl, hne⟩ := recorded
      refine .inl (.hop lockid ?_)
      rw [hcur, frames, pending_self]
      refine List.mem_append_left _ (List.mem_flatMap.mpr ⟨r, ?_, List.mem_cons_self⟩)
      exact List.mem_filter.mpr ⟨hr, by simp [donner, hne]⟩
    · exact .inl (.chain lockid (stays _ hm) (recorded_forward phased hf he hm rfl recorded))
  | compare lockid hd =>
    rw [hf] at hd
    obtain rfl := Option.some.inj hd
    obtain ⟨is, exec, frames⟩ := he.of_access
    simp only [Access.exec] at exec
    split at exec
    · obtain ⟨-, rfl⟩ := Prod.mk.inj (Except.ok.inj exec)
      exact .inl (.load (head _ _ frames))
    · rename_i hle
      obtain ⟨locks, -⟩ := Prod.mk.inj (Except.ok.inj exec)
      rw [← locks]
      exact .inr (Nat.le_of_not_lt hle)
  | load hd =>
    rw [hf] at hd
    obtain rfl := Option.some.inj hd
    obtain ⟨is, exec, frames⟩ := he.of_access
    obtain ⟨locks, rfl⟩ := Prod.mk.inj (Except.ok.inj exec)
    refine .inl (.store ?_)
    rw [head _ _ frames, locks]
  | store hd =>
    rw [hf] at hd
    obtain rfl := Option.some.inj hd
    refine .inr ?_
    rw [he.priority]
    simp only [stored, Access.stores, Function.update_self]
    by_cases hwh : w = h
    · subst hwh
      rw [Function.update_self]
    · rw [Function.update_of_ne hwh]

end Step

section Priority

variable {strict : Bool} {k k' : Kernel PriorityScheduler} {rest : List Instr} {i : Instr}

/-- A running thread that ranks above every ready one keeps the processor. -/
private theorem schedule_stays (h : k.ManagerInv) (hf : k.frames k.current = .schedule :: rest)
    (hs : k.step .exec = some k') (running : k.status k.current = .Running)
    (above : ∀ t < k.nextTid, k.status t = .Ready →
      k.locks.priority t < k.locks.priority k.current) : k'.current = k.current := by
  simp only [step, exec, hf, execInstr, Kernel.schedule] at hs
  split at hs
  · rename_i next hnext
    split at hnext
    · rename_i k₁ hk₁
      cases hnext
      cases hs
      split at hk₁
      · cases hk₁
      · rename_i next q hq
        split at hk₁
        · cases hk₁
        · split at hk₁
          · cases hk₁
            rfl
          · rename_i t _
            have bound : ∀ t ∈ k.scheduler.queued, k.locks.priority t ≤ 63 := fun t _ =>
              of_decide_eq_true (h.admits.data t).priority
            obtain ⟨queued, low⟩ := PriorityScheduler.schedule_some bound hq
            have ready := ((h.core.mem_queue t).mp queued).1
            have lt : t < k.nextTid := by
              by_contra hge
              rw [(h.core.fresh t (Nat.le_of_not_lt hge)).1] at ready
              cases ready
            exact (low ⟨above t lt ready, running⟩).elim
    · cases hnext
  · cases hs

/-- A thread that is about to store its own priority waits for no lock. -/
private theorem not_awaiting {i : Instr} {rest : List Instr} (h : Phase (code (i :: rest)))
    (hi : (∃ p, i = .access (.storePriority p)) ∨ (∃ p, i = .access (.restorePriority p)) ∨
      i = .access .restoreSetted) : entering (i :: rest) = none := by
  have cleanup : ∀ j : Instr, j.cleanup → j.enters = none := by
    intro j hj
    cases j with
    | access a => rfl
    | _ => cases hj
  rw [← entering_code]
  rcases hi with ⟨p, rfl⟩ | ⟨p, rfl⟩ | rfl
  · rw [code_cons_of_not_noise rfl] at h ⊢
    rw [show code rest = [.access (.storeSetted p)] from h.tail]
    rfl
  · rw [code_cons_of_not_noise rfl] at h ⊢
    obtain ⟨pre, l, hpre, hrest⟩ := h.tail
    rw [hrest, entering_cons_of_none rfl, entering_append,
      entering_eq_none fun j hj => cleanup j (hpre j hj)]
    rfl
  · rw [code_cons_of_not_noise rfl] at h ⊢
    obtain ⟨l, hrest⟩ := h.tail
    rw [hrest]
    rfl

private theorem Owes.pending {w h : Tid} (ho : k.Owes w h) :
    ∃ j ∈ k.frames k.current, j.hop := by
  cases ho with
  | hop _ pending => exact ⟨_, pending, rfl⟩
  | chain _ pending => exact ⟨_, pending, rfl⟩
  | compare _ head | load head | store head => exact ⟨_, List.mem_of_head? head, rfl⟩

private theorem Awaits.lt (h : k.ManagerInv) {w : Tid} {l : Nat} (hw : k.Awaits w l) :
    w < k.nextTid := by
  by_contra hge
  unfold Awaits at hw
  rw [(h.core.fresh w (Nat.le_of_not_lt hge)).2] at hw
  cases hw

/-- An instruction that stores no priority keeps the rank of waiting threads. -/
private theorem unstored_awaits (h : k.Donated strict) (hf : k.frames k.current = i :: rest)
    (meets : k.SteadyAt strict rest i) (hs : k.step .exec = some k') (he : Effect k rest k' i)
    (hst : k.stored i = none) {w v : Tid} {l : Nat} (hw : k.Awaits w l) (hv : k.Holds v l) :
    k'.locks.priority w ≤ k'.locks.priority v ∨
      (k'.Owes w v ∧ (strict = true → w = k'.current)) := by
  have priority : k'.locks.priority = k.locks.priority := by
    have := he.priority
    rwa [hst] at this
  rw [priority]
  by_cases hle : k.locks.priority w ≤ k.locks.priority v
  · exact .inl hle
  · obtain ⟨owes, hstrict⟩ := (h.awaits w l v hw hv).resolve_left hle
    have hcur : k'.current = k.current := by
      by_cases hi : i = .schedule
      · subst hi
        -- a donation is under way, so the thread keeps the processor
        obtain ⟨running, above⟩ : k.status k.current = .Running ∧ ∀ t < k.nextTid,
            k.status t = .Ready → k.locks.priority t < k.locks.priority k.current := by
          have pending : ∃ j ∈ rest, w ∈ j.hopsFrom := by
            cases owes with
            | hop _ pending =>
              rw [hf] at pending
              exact ⟨_, (List.mem_cons.mp pending).resolve_left (by simp), rfl⟩
            | chain _ pending =>
              rw [hf] at pending
              exact ⟨_, (List.mem_cons.mp pending).resolve_left (by simp), rfl⟩
            | compare _ head | load head | store head =>
              rw [hf] at head
              cases head
          obtain ⟨j, hj, hjw⟩ := pending
          exact meets j hj w hjw l hw v hv.1 (Nat.lt_of_not_le hle)
        exact schedule_stays h.wired.manager hf hs running above
      · exact he.current hi
    rcases owes_forward h.wired.phased hf he hcur owes with owes' | hle'
    · exact .inr ⟨owes', fun hst => (hstrict hst).trans hcur.symm⟩
    · rw [priority] at hle'
      exact (hle hle').elim

/-- A steady instruction that stores a priority keeps the rank of waiting threads. -/
private theorem stored_awaits (h : k.Donated strict) (hf : k.frames k.current = i :: rest)
    (meets : k.SteadyAt strict rest i) (he : Effect k rest k' i) {t : Tid} {p : Nat}
    (hst : k.stored i = some (t, p)) {w v : Tid} {l : Nat} (hw : k.Awaits w l) (hv : k.Holds v l) :
    k'.locks.priority w ≤ k'.locks.priority v ∨
      (k'.Owes w v ∧ (strict = true → w = k'.current)) := by
  have hi := h.wired.phased k.current
  rw [hf] at hi
  have priority : k'.locks.priority = Function.update k.locks.priority t p := by
    have := he.priority
    rwa [hst] at this
  have old := h.awaits w l v hw hv
  have lt := hw.lt h.wired.manager
  rcases Effect.stored_cases hst with ⟨rfl, kind⟩ | rfl | ⟨rfl, rfl⟩
  · -- the current thread stores its own priority; it waits for no lock and owes nothing
    have notWaiting : w ≠ k.current := by
      rintro rfl
      have hnone : entering (k.frames k.current) = none := by
        rw [hf]
        apply not_awaiting hi
        rcases kind with rfl | rfl | ⟨rfl, -⟩
        · exact .inl ⟨p, rfl⟩
        · exact .inr (.inl ⟨p, rfl⟩)
        · exact .inr (.inr rfl)
      unfold Awaits at hw
      rw [hnone] at hw
      cases hw
    have settled : k.locks.priority w ≤ k.locks.priority v := by
      refine old.resolve_right fun owed => ?_
      obtain ⟨j, hj, hhop⟩ := owed.1.pending
      rw [hf] at hj
      rcases kind with rfl | rfl | ⟨rfl, -⟩ <;>
        exact ((hi.hop_pending hj hhop).elim Bool.false_ne_true Bool.false_ne_true).elim
    left
    rw [priority, Function.update_of_ne notWaiting]
    by_cases hvc : v = k.current
    · subst hvc
      rw [Function.update_self]
      rcases kind with rfl | rfl | ⟨rfl, hset⟩
      · exact meets w lt l hw hv
      · exact h.fresh (.access (.restorePriority p)) (by rw [hf]; rfl) w l hw hv
      · exact meets p hset w lt l hw hv
    · rwa [Function.update_of_ne hvc]
  · -- a donation to `t`
    have hcur : k'.current = k.current := he.current (by simp)
    have raises : k.locks.priority t < p :=
      h.fresh (.access (.donateStore t p)) (by rw [hf]; rfl)
    by_cases hwt : w = t
    · subst hwt
      by_cases hvw : v = w
      · subst hvw
        exact .inl le_rfl
      · rcases meets l hw v hv.1 hv with hle | ⟨hstrict, j, hj, lockid, hfollows, recorded⟩
        · left
          rwa [priority, Function.update_self, Function.update_of_ne hvw]
        · obtain rfl := eq_findAndDonate hfollows
          obtain ⟨is, his⟩ := he.frames_self
          refine .inr ⟨.chain lockid ?_ (recorded_forward h.wired.phased hf he hj rfl recorded), ?_⟩
          · rw [hcur, his]
            exact List.mem_append_right _ hj
          · intro htrue
            rw [hstrict] at htrue
            cases htrue
    · rcases old with hle | ⟨owes, hstrict⟩
      · left
        rw [priority, Function.update_of_ne hwt]
        by_cases hvt : v = t
        · subst hvt
          rw [Function.update_self]
          exact hle.trans raises.le
        · rwa [Function.update_of_ne hvt]
      · rcases owes_forward h.wired.phased hf he hcur owes with owes' | hle'
        · exact .inr ⟨owes', fun hst => (hstrict hst).trans hcur.symm⟩
        · exact .inl hle'
  · -- the new thread waits for nothing and holds nothing
    left
    have hwn : w ≠ k.nextTid := lt.ne
    have hvn : v ≠ k.nextTid := (h.wired.holder_lt l v hv.1).ne
    rw [priority, Function.update_of_ne hwn, Function.update_of_ne hvn]
    refine old.resolve_right fun owed => ?_
    obtain ⟨j, hj, hhop⟩ := owed.1.pending
    rw [hf] at hj
    exact ((hi.hop_pending hj hhop).elim Bool.false_ne_true Bool.false_ne_true).elim

/-- The rank of waiting threads survives the execution of a steady instruction. -/
private theorem exec_awaits (h : k.Donated strict) (hf : k.frames k.current = i :: rest)
    (meets : k.SteadyAt strict rest i) (hs : k.step .exec = some k') (he : Effect k rest k' i)
    {w v : Tid} {l : Nat} (hw : k'.Awaits w l) (hv : k'.Holds v l) :
    k'.locks.priority w ≤ k'.locks.priority v ∨
      (k'.Owes w v ∧ (strict = true → w = k'.current)) := by
  have unborn : k.frames k.nextTid = [] := h.wired.unborn
  have holder := he.holder l
  rcases he.entering_back h.wired.phased hf hw with hw |
    ⟨rfl, ⟨rfl, hnone⟩ | ⟨rfl, acceptor, lockid, hsome, hm⟩⟩
  · rcases holds_back hf unborn he hv with hv | ⟨rfl, rfl⟩
    · cases hst : k.stored i with
      | none => exact unstored_awaits h hf meets hs he hst hw hv
      | some store => exact stored_awaits h hf meets he hst hw hv
    · left
      rw [he.priority]
      exact meets w (Awaits.lt h.wired.manager hw) hw
  · rw [hv.1] at holder
    simp [held, Access.sets, hnone] at holder
  · rw [hv.1] at holder
    simp only [held, Access.sets, hsome, Option.some.injEq] at holder
    subst holder
    have hcur : k'.current = k.current := he.current (by simp)
    exact .inr ⟨.hop lockid (hcur.symm ▸ hm), fun _ => hcur.symm⟩

private theorem fresh_of_not_tight {j : Instr} (h : j.tight = false) : k.Fresh j := by
  cases j with
  | access a =>
    cases a <;> first
      | exact (Bool.false_ne_true h.symm).elim
      | trivial
  | _ => trivial

private theorem le_foldl_max (l : List DonationData) (p : Nat) :
    p ≤ l.foldl (fun p i => max p i.donnerPriority) p ∧
      ∀ r ∈ l, r.donnerPriority ≤ l.foldl (fun p i => max p i.donnerPriority) p := by
  induction l generalizing p with
  | nil => simp
  | cons r l ih =>
    obtain ⟨hp, hl⟩ := ih (max p r.donnerPriority)
    refine ⟨(Nat.le_max_left ..).trans hp, ?_⟩
    intro r' hr'
    rcases List.mem_cons.mp hr' with rfl | hr'
    · exact (Nat.le_max_right ..).trans hp
    · exact hl r' hr'

/-- What an access makes the current thread rely on is true when it starts to. -/
private theorem access_fresh {a : Access} {is : List Instr} (h : k.Donated strict)
    (hf : k.frames k.current = .access a :: rest) (meets : k.SteadyAt strict rest (.access a))
    (exec : a.exec k.current k.locks = .ok (k'.locks, is)) (he : Effect k rest k' (.access a)) :
    (∀ j ∈ is.head?, k'.Fresh j) ∧ ∀ j ∈ is.tail, j.tight = false := by
  have now : k.Fresh (.access a) := h.fresh _ (by rw [hf]; rfl)
  cases a with
  | loadDonner d t lockid =>
    obtain ⟨locks, rfl⟩ := Prod.mk.inj (Except.ok.inj exec)
    refine ⟨?_, by simp⟩
    rintro j ⟨⟩
    show k.locks.priority d = k'.locks.priority d
    rw [locks]
  | loadAcceptor d t lockid p =>
    simp only [Access.exec] at exec
    split at exec
    · rename_i hlt
      obtain ⟨locks, rfl⟩ := Prod.mk.inj (Except.ok.inj exec)
      refine ⟨?_, by simp [Instr.tight]⟩
      rintro j ⟨⟩
      have hp : p = k.locks.priority d := now
      show k'.locks.priority t < k'.locks.priority d
      rw [← locks, ← hp]
      exact hlt
    · obtain ⟨-, rfl⟩ := Prod.mk.inj (Except.ok.inj exec)
      simp
  | donateLoad d t =>
    obtain ⟨locks, rfl⟩ := Prod.mk.inj (Except.ok.inj exec)
    refine ⟨?_, by simp⟩
    rintro j ⟨⟩
    show k'.locks.priority t < k.locks.priority d
    rw [← locks]
    exact now
  | scanRecords =>
    obtain ⟨locks, rfl⟩ := Prod.mk.inj (Except.ok.inj exec)
    refine ⟨?_, by simp⟩
    rintro j ⟨⟩
    intro w l hw hv
    rw [he.current (by simp)] at hv
    obtain hw := (he.entering_back h.wired.phased hf hw).resolve_right (by simp)
    obtain hv := (holds_back hf h.wired.unborn he hv).resolve_right (by simp)
    rw [← locks]
    obtain ⟨hstored, hrecords⟩ := le_foldl_max (k.locks.data k.current).donationq
      (k.locks.data k.current).storedPrev.2
    rcases meets w (Awaits.lt h.wired.manager hw) l hw hv with hle | ⟨r, hr, hle⟩
    · exact hle.trans hstored
    · exact hle.trans (hrecords r hr)
  | findAndDonate d lockid =>
    obtain ⟨-, rfl⟩ := Prod.mk.inj (Except.ok.inj exec)
    have loose : ∀ j ∈ ((k.locks.data d).donationq.filter fun i =>
        i.isDonner && i.lockid != lockid).flatMap fun i =>
          [Instr.access (.loadDonner d i.acceptor lockid),
            .access (.findAndDonate i.acceptor lockid)], j.tight = false := by
      intro j hj
      obtain ⟨r, -, hr⟩ := List.mem_flatMap.mp hj
      rcases List.mem_pair.mp hr with rfl | rfl <;> rfl
    exact ⟨fun j hj => fresh_of_not_tight (loose j (List.mem_of_mem_head? hj)),
      fun j hj => loose j (List.mem_of_mem_tail hj)⟩
  | storePriority | donateStore | restorePriority | storeSetted | addDonation | retainLockid
  | retainDonner | retainAcceptor | setHolder =>
    obtain ⟨-, rfl⟩ := Prod.mk.inj (Except.ok.inj exec)
    simp
  | testHolder | readHolder | assertHolder | findRecord | updateStoredPrev | restoreSetted
  | takeHolder =>
    simp only [Access.exec] at exec
    repeat' split at exec
    all_goals simp only [Except.ok.injEq, Prod.mk.injEq, reduceCtorEq] at exec
    all_goals
      obtain ⟨-, rfl⟩ := exec
      refine ⟨?_, by simp [Instr.tight]⟩
      rintro j ⟨⟩ <;> trivial

/-- The instructions a step puts in front of those that were pending. -/
private theorem pushed_fresh (h : k.Donated strict) (hf : k.frames k.current = i :: rest)
    (meets : k.SteadyAt strict rest i) (he : Effect k rest k' i) :
    ∃ is, k'.frames k.current = is ++ rest ∧ (∀ j ∈ is.head?, k'.Fresh j) ∧
      (∀ j ∈ is.tail, j.tight = false) ∧ (i = .schedule → ∀ j ∈ is, j.tight = false) := by
  have self : ∀ is, k'.frames = k.pending is rest → (∀ j ∈ is, j.tight = false) →
      ∃ is, k'.frames k.current = is ++ rest ∧ (∀ j ∈ is.head?, k'.Fresh j) ∧
        (∀ j ∈ is.tail, j.tight = false) ∧ (i = .schedule → ∀ j ∈ is, j.tight = false) :=
    fun is frames loose => ⟨is, by rw [frames, pending_self],
      fun j hj => fresh_of_not_tight (loose j (List.mem_of_mem_head? hj)),
      fun j hj => loose j (List.mem_of_mem_tail hj), fun _ => loose⟩
  cases he with
  | access a is exec _ _ _ frames =>
    have effect : Effect k rest k' (.access a) := .access a is exec ‹_› ‹_› ‹_› frames
    obtain ⟨head, tail⟩ := access_fresh h hf meets exec effect
    exact ⟨is, by rw [frames, pending_self], head, tail, by simp⟩
  | schedule _ _ _ frames =>
    rcases frames with ⟨-, frames⟩ | frames
    · exact self _ frames (by simp)
    · exact self _ frames (by simp [Instr.tight])
  | build _ _ _ _ _ frames =>
    refine ⟨_, by rw [frames]; exact Function.update_self .., ?_, by simp [Instr.tight], by simp⟩
    rintro j ⟨⟩
    trivial
  | up _ _ _ _ _ _ _ frames =>
    rcases frames with frames | frames
    · exact self _ frames (by simp)
    · exact self _ frames (by simp [Instr.tight])
  | still _ _ _ _ _ _ frames | exit _ _ _ _ frames | down _ _ _ _ _ frames
  | block _ _ _ _ _ _ _ frames | take _ _ _ _ _ _ _ frames =>
    exact self _ frames (by simp [Instr.tight])

/-- The step lemma for the execution of a steady instruction. -/
private theorem exec_donated (h : k.Donated strict) (meets : k.Steady strict .exec)
    (hs : k.step .exec = some k') : k'.Donated strict := by
  obtain ⟨i, rest, hf, he⟩ := step_exec h.wired.current_ne hs
  have meets' : k.SteadyAt strict rest i := by
    have := meets i (by rw [hf]; rfl)
    rwa [hf] at this
  obtain ⟨is, his, head, tail, noise⟩ := pushed_fresh h hf meets' he
  have looseRest : ∀ j ∈ rest, j.tight = false := by
    intro j hj
    exact h.loose_tail j (by rw [hf]; exact hj)
  have others : k'.current ≠ k.current → ∀ j ∈ k'.frames k'.current, j.tight = false := by
    intro hc j hj
    rcases he.frames_other hc with same | ⟨-, new, -⟩
    · exact h.loose _ hc j (same ▸ hj)
    · rw [new] at hj
      rw [List.mem_singleton.mp hj]
      rfl
  exact
    { wired := h.wired.step hs
      awaits := fun w l v hw hv => exec_awaits h hf meets' hs he hw hv
      loose := by
        intro t ht j hj
        by_cases hc : t = k.current
        · subst hc
          have hi : i = .schedule := by
            by_contra hi
            exact ht (he.current hi).symm
          rw [his] at hj
          rcases List.mem_append.mp hj with hj | hj
          · exact noise hi j hj
          · exact looseRest j hj
        · rcases he.frames_other hc with same | ⟨-, new, -⟩
          · exact h.loose t hc j (same ▸ hj)
          · rw [new] at hj
            rw [List.mem_singleton.mp hj]
            rfl
      loose_tail := by
        intro j hj
        by_cases hc : k'.current = k.current
        · rw [hc, his] at hj
          cases is with
          | nil => exact looseRest j (List.mem_of_mem_tail hj)
          | cons i₀ is =>
            rcases List.mem_append.mp hj with hj | hj
            · exact tail j hj
            · exact looseRest j hj
        · exact others hc j (List.mem_of_mem_tail hj)
      fresh := by
        intro j hj
        by_cases hc : k'.current = k.current
        · rw [hc, his] at hj
          cases is with
          | nil => exact fresh_of_not_tight (looseRest j (List.mem_of_mem_head? hj))
          | cons i₀ is => exact head j hj
        · exact fresh_of_not_tight (others hc j (List.mem_of_mem_head? hj)) }

/-- The step lemma: every steady event keeps the invariant. -/
theorem step_donated {e : Event} (h : k.Donated strict) (meets : k.Steady strict e)
    (hs : k.step e = some k') : k'.Donated strict := by
  cases e with
  | exec => exact exec_donated h meets hs
  | call c =>
    obtain ⟨hnil, rfl⟩ := step_call hs
    have codeLoose : ∀ j ∈ c.code, j.tight = false := by cases c <;> simp [Call.code, Instr.tight]
    have frames : (k.push k.current c.code).frames k.current = c.code := by simp [push, hnil]
    have other : ∀ t, t ≠ k.current → (k.push k.current c.code).frames t = k.frames t :=
      fun t ht => Function.update_of_ne ht _ _
    have idle : entering c.code = none := by cases c <;> rfl
    refine ⟨h.wired.step hs, ?_, ?_, ?_, ?_⟩
    · intro w l v hw hv
      have hwc : w ≠ k.current := by
        rintro rfl
        unfold Awaits at hw
        rw [frames, idle] at hw
        cases hw
      have hw' : k.Awaits w l := by
        unfold Awaits at hw ⊢
        rwa [other w hwc] at hw
      have hv' : k.Holds v l := by
        refine ⟨hv.1, fun hm => hv.2 (mem_push hm)⟩
      refine .inl ((h.awaits w l v hw' hv').resolve_right fun owed => ?_)
      obtain ⟨j, hj, -⟩ := owed.1.pending
      rw [hnil] at hj
      cases hj
    · intro t ht j hj
      rw [other t ht] at hj
      exact h.loose t ht j hj
    · intro j hj
      rw [show (k.push k.current c.code).current = k.current from rfl, frames] at hj
      exact codeLoose j (List.mem_of_mem_tail hj)
    · intro j hj
      rw [show (k.push k.current c.code).current = k.current from rfl, frames] at hj
      exact fresh_of_not_tight (codeLoose j (List.mem_of_mem_head? hj))
  | preempt =>
    obtain ⟨-, rfl⟩ := step_preempt hs
    have frames : (k.push k.current [.schedule]).frames k.current =
        .schedule :: k.frames k.current := by simp [push]
    have other : ∀ t, t ≠ k.current → (k.push k.current [.schedule]).frames t = k.frames t :=
      fun t ht => Function.update_of_ne ht _ _
    have looseAll : ∀ j ∈ k.frames k.current, j.tight = false := by
      intro j hj
      cases hf : k.frames k.current with
      | nil =>
        rw [hf] at hj
        cases hj
      | cons i rest =>
        rw [hf] at hj
        rcases List.mem_cons.mp hj with rfl | hj
        · exact meets j (by rw [hf]; rfl)
        · exact h.loose_tail j (by rw [hf]; exact hj)
    refine ⟨h.wired.step hs, ?_, ?_, ?_, ?_⟩
    · intro w l v hw hv
      have hw' : k.Awaits w l := by
        unfold Awaits at hw ⊢
        by_cases hc : w = k.current
        · subst hc
          rwa [frames] at hw
        · rwa [other w hc] at hw
      have hv' : k.Holds v l := ⟨hv.1, fun hm => hv.2 (mem_push hm)⟩
      refine (h.awaits w l v hw' hv').imp id fun owed => ⟨?_, owed.2⟩
      cases owed.1 with
      | hop lockid pending => exact .hop lockid (mem_push pending)
      | chain lockid pending recorded => exact .chain lockid (mem_push pending) recorded
      | compare _ head | load head | store head =>
        cases looseAll _ (List.mem_of_mem_head? head)
    · intro t ht j hj
      rw [other t ht] at hj
      exact h.loose t ht j hj
    · intro j hj
      rw [show (k.push k.current [.schedule]).current = k.current from rfl, frames] at hj
      exact looseAll j hj
    · intro j hj
      rw [show (k.push k.current [.schedule]).current = k.current from rfl, frames] at hj
      cases hj
      trivial

theorem init_donated {intr : Bool} {value lockid : Nat → Nat}
    (h : init intr value lockid = .ok k) : k.Donated strict := by
  have wired := init_wired h
  obtain ⟨q, all, rfl⟩ := init_eq h
  refine ⟨wired, ?_, ?_, ?_, ?_⟩
  · intro w l v _ hv
    cases hv.1
  · intro t _ j hj
    have hj : j ∈ (boot intr value lockid : Kernel PriorityScheduler).frames t := hj
    rw [boot_frames hj]
    rfl
  · intro j hj
    cases hj
  · intro j hj
    cases hj

/-- `w` is blocked in the semaphore of a Sleep lock that `h` holds. -/
def Blocks (k : Kernel PriorityScheduler) (h w : Tid) : Prop :=
  ∃ l, w ∈ (k.sema (.inner l)).waiters ∧ k.Holds h l

/-- The current thread is passing a donation on. -/
def Donating (k : Kernel PriorityScheduler) : Prop := ∃ i ∈ k.frames k.current, i.hop

theorem Donated.no_inversion (h : k.Donated strict) (calm : strict = true ∨ ¬ k.Donating)
    {v w : Tid} (hb : k.Blocks v w) : k.locks.priority w ≤ k.locks.priority v := by
  obtain ⟨l, hw, hv⟩ := hb
  obtain ⟨old, hold⟩ := h.wired.waits (.inner l) w hw
  have awaits : k.Awaits w l := (h.wired.phased w).entering_of_downLoop hold
  refine (h.awaits w l v awaits hv).resolve_right ?_
  rintro ⟨owes, hstrict⟩
  obtain ⟨j, hj, hhop⟩ := owes.pending
  rcases calm with hs | hn
  · -- the thread that waits would have to be the one that donates
    obtain rfl := hstrict hs
    obtain ⟨hops, l', hh, hcode⟩ := (h.wired.phased k.current).donating_of_hop hj hhop
    have hc : .downLoop (.inner l) old ∈ code (k.frames k.current) := mem_code.mpr ⟨hold, rfl⟩
    rw [hcode] at hc
    rcases List.mem_append.mp hc with hc | hc
    · cases hh _ hc
    · simp at hc
  · exact hn ⟨j, hj, hhop⟩

end Priority

end Kernel

/-- In a steady run every holder ranks at least as high as all threads it blocks, directly
or through a chain of locks. -/
theorem no_priority_inversion {strict : Bool} {intr : Bool} {value lockid : Nat → Nat}
    {k₀ k : Kernel PriorityScheduler} {es : List Event}
    (start : Kernel.init intr value lockid = .ok k₀)
    (meets : Guarded Kernel.step (Kernel.Steady strict) k₀ es)
    (ran : run Kernel.step k₀ es = some k) (calm : strict = true ∨ ¬ k.Donating) {h w : Tid}
    (blocks : Relation.TransGen k.Blocks h w) :
    k.locks.priority w ≤ k.locks.priority h := by
  have donated : k.Donated strict := guarded_run_invariant
    (fun _ _ _ => Kernel.step_donated) (Kernel.init_donated start) meets ran
  induction blocks with
  | single hb => exact donated.no_inversion calm hb
  | tail _ hb ih => exact (donated.no_inversion calm hb).trans ih

/-- `Manager::get` on a machine with interrupts enabled and lock ids from one on. -/
def bootedLocks : Kernel PriorityScheduler :=
  match Kernel.init true (fun _ => 0) (· + 1) with
  | .ok k => k
  | .error _ => Kernel.boot true (fun _ => 0) (· + 1)

/-- A call followed by that many executed instructions. -/
def calling (c : Call) (n : Nat) : List Event := .call c :: List.replicate n .exec

/-- `Initial` holds lock 0, thread 2 holds lock 1 and waits for lock 0, thread 3 waits for
lock 1. -/
def chainRun : List Event :=
  calling (.acquire 0) 4 ++ calling (.spawn 41) 5 ++ calling (.acquire 1) 4 ++
    calling (.acquire 0) 10 ++ calling .schedule 7 ++ calling (.spawn 45) 5 ++
    calling (.acquire 1) 18 ++ calling .schedule 7

set_option maxRecDepth 4000 in
/-- The donation of thread 3 reaches `Initial` through thread 2. -/
theorem chain_ranks : ∃ k, run Kernel.step bootedLocks chainRun = some k ∧
    Relation.TransGen k.Blocks 0 3 ∧ k.locks.priority 3 ≤ k.locks.priority 0 := by
  have ran : ((run Kernel.step bootedLocks chainRun).map fun k =>
      ((k.sema (.inner 0)).waiters, (k.sema (.inner 1)).waiters, decide (k.Holds 0 0),
        decide (k.Holds 2 1), k.frames k.current)) = some ([2], [3], true, true, []) := by
    decide +kernel
  have meets : Guarded Kernel.step (Kernel.Steady false) bootedLocks chainRun := by
    decide +kernel
  obtain ⟨k, hk, hview⟩ := Option.map_eq_some_iff.mp ran
  simp only [Prod.mk.injEq, decide_eq_true_eq] at hview
  obtain ⟨first, second, holds, holds', calm⟩ := hview
  have blocks : Relation.TransGen k.Blocks 0 3 :=
    .tail (.single ⟨0, by rw [first]; exact List.mem_singleton_self 2, holds⟩)
      ⟨1, by rw [second]; exact List.mem_singleton_self 3, holds'⟩
  refine ⟨k, hk, blocks, no_priority_inversion rfl meets hk (.inr ?_) blocks⟩
  rintro ⟨i, hi, -⟩
  rw [calm] at hi
  cases hi

/-- `Initial` lowers its own priority while thread 2 waits for the lock it holds. -/
def lowerRun : List Event :=
  calling (.acquire 0) 4 ++ calling (.spawn 41) 5 ++ calling (.acquire 0) 10 ++
    calling (.setPriority 21) 9

/-- Then thread 2 is blocked by a holder of lower priority. -/
theorem lowered_holder_inverts : ¬ ∀ es k, run Kernel.step bootedLocks es = some k →
    ∀ h w, k.Blocks h w → k.locks.priority w ≤ k.locks.priority h := by
  intro claim
  have ran : ((run Kernel.step bootedLocks lowerRun).map fun k =>
      ((k.sema (.inner 0)).waiters, decide (k.Holds 0 0), k.locks.priority 2,
        k.locks.priority 0)) = some ([2], true, 41, 21) := by
    decide +kernel
  obtain ⟨k, hk, hview⟩ := Option.map_eq_some_iff.mp ran
  simp only [Prod.mk.injEq, decide_eq_true_eq] at hview
  obtain ⟨waits, holds, high, low⟩ := hview
  have := claim lowerRun k hk 0 2 ⟨0, by rw [waits]; exact List.mem_singleton_self 2, holds⟩
  rw [high, low] at this
  exact absurd this (by decide)

end Tacos.Thread
