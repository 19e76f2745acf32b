/- GID: Tacos/Thread/Propagation
   generality: I
   source: src/sync/sleep.rs, src/thread/imp.rs
   digest: When the donation records follow the wait-for graph, and find_and_donate ends. -/

import Tacos.Lib.Descent
import Tacos.Thread.Donation

set_option autoImplicit false
set_option relaxedAutoImplicit false

namespace Tacos.Thread

open Tacos.Lib.Run (run run_append run_cons Guarded guarded_run_invariant reached_iff_guarded)
open Tacos.Lib.Descent (calls calls_isSome acyclic_calls)

/-- Donor and acceptor of the donation that a pending instruction makes or records. -/
def Instr.towards : Instr → Option (Tid × Tid)
  | .access (.loadDonner donner acceptor _) => some (donner, acceptor)
  | .access (.loadAcceptor donner acceptor _ _) => some (donner, acceptor)
  | .access (.addDonation t newitem) => if newitem.isDonner then some (t,
    newitem.acceptor) else none
  | _ => none

/-- The threads that `find_and_donate` goes on to from `donner`. -/
def Locks.follows (m : Locks) (lockid : Nat) (donner : Tid) : List Tid :=
  ((m.data donner).donationq.filter fun i => i.isDonner && i.lockid != lockid).map
    DonationData.acceptor

namespace Kernel

variable {σ : Type}

/-- The wait-for graph: `d` is inside `acquire` for a lock that `a` holds. -/
def WaitsFor (k : Kernel σ) (d a : Tid) : Prop :=
  ∃ l ∈ entering (k.frames d), (k.locks.sleep l).holder = some a

def Acyclic (k : Kernel σ) : Prop := ∀ t, ¬ Relation.TransGen k.WaitsFor t t

/-- A graph whose edges all lead to one thread that waits for nobody has no cycle. -/
theorem acyclic_of_sink {k : Kernel σ} {s : Tid} (into : ∀ d a, k.WaitsFor d a → a = s)
    (sink : ∀ a, ¬ k.WaitsFor s a) : k.Acyclic := by
  intro t cycle
  obtain ⟨b, -, last⟩ := Relation.TransGen.tail'_iff.mp cycle
  obtain ⟨c, first, -⟩ := Relation.TransGen.head'_iff.mp cycle
  obtain rfl := into b t last
  exact sink c first

/-- Every record of a donor, and every donation that is made or recorded just now, follows
the wait-for graph. -/
structure Honest (k : Kernel σ) : Prop where
  records : ∀ d, ∀ r ∈ (k.locks.data d).donationq, r.isDonner = true → k.WaitsFor d r.acceptor
  underway : ∀ t, ∀ i ∈ k.frames t, ∀ p ∈ i.towards, k.WaitsFor p.1 p.2

/-- `d` has recorded no donation to `a`, and none is made or recorded just now. -/
def Clear (k : Kernel σ) (d a : Tid) : Prop :=
  (∀ r ∈ (k.locks.data d).donationq, r.isDonner = true → r.acceptor ≠ a) ∧
    ∀ t < k.nextTid, ∀ i ∈ k.frames t, i.towards ≠ some (d, a)

instance (k : Kernel σ) (d a : Tid) : Decidable (k.Clear d a) :=
  inferInstanceAs (Decidable (_ ∧ _))

/-- What must hold before an instruction so that no record is left behind: a thread gives a
lock up only when nobody inside `acquire` for this lock has recorded a donation to it, or
is about to. -/
def ClearsAt (k : Kernel σ) : Instr → Prop
  | .access (.takeHolder l) => ∀ d < k.nextTid, entering (k.frames d) = some l →
      k.Clear d k.current
  | _ => True

def Clears (k : Kernel σ) : Event → Prop
  | .exec => ∀ i ∈ (k.frames k.current).head?, k.ClearsAt i
  | _ => True

/-- The lock that an instruction gives up. -/
def givesUp : Instr → Option Nat
  | .access (.takeHolder l) => some l
  | _ => none

theorem clearsAt_iff (k : Kernel σ) (i : Instr) :
    (∀ l ∈ givesUp i, ∀ d < k.nextTid, entering (k.frames d) = some l → k.Clear d k.current) ↔
      k.ClearsAt i := by
  cases i with
  | access a => cases a <;> simp [givesUp, ClearsAt]
  | _ => simp [givesUp, ClearsAt]

instance (k : Kernel σ) (i : Instr) : Decidable (k.ClearsAt i) :=
  decidable_of_iff _ (k.clearsAt_iff i)

instance (k : Kernel σ) : (e : Event) → Decidable (k.Clears e)
  | .exec => inferInstanceAs (Decidable (∀ i ∈ (k.frames k.current).head?, k.ClearsAt i))
  | .call _ | .preempt => .isTrue trivial

end Kernel

namespace Access

variable {cur : Tid} {m m' : Locks} {a : Access} {is : List Instr}

private theorem update_donationq {t u : Tid} {d : ThreadData}
    (hd : d.donationq = (m.data u).donationq) :
    (Function.update m.data u d t).donationq = (m.data t).donationq := by
  by_cases ht : t = u
  · subst ht
    rw [Function.update_self, hd]
  · rw [Function.update_of_ne ht]

@[simp] private theorem setPriority_donationq (m : Locks) (u t : Tid) (p : Nat) :
    ((m.setPriority u p).data t).donationq = (m.data t).donationq := update_donationq rfl

@[simp] private theorem setSetted_donationq (m : Locks) (u t : Tid) (p : Nat) :
    ((m.setSetted u p).data t).donationq = (m.data t).donationq := update_donationq rfl

@[simp] private theorem setStoredPrev_donationq (m : Locks) (u t : Tid) (s : Nat × Nat) :
    ((m.setStoredPrev u s).data t).donationq = (m.data t).donationq := update_donationq rfl

theorem exec_donationq (he : a.exec cur m = .ok (m', is)) {t : Tid} {r : DonationData}
    (hr : r ∈ (m'.data t).donationq) : r ∈ (m.data t).donationq ∨ a = .addDonation t r := by
  have queue : ∀ u q, (∀ x ∈ q, x ∈ (m.data u).donationq ∨ a = .addDonation u x) →
      r ∈ ((m.setDonationq u q).data t).donationq →
      r ∈ (m.data t).donationq ∨ a = .addDonation t r := by
    intro u q hq hr
    by_cases ht : t = u
    · subst ht
      exact hq r (by simpa [Locks.setDonationq] using hr)
    · exact .inl (by simpa [Locks.setDonationq, ht] using hr)
  have filtered : ∀ u (p : DonationData → Bool), ∀ x ∈ (m.data u).donationq.filter p,
      x ∈ (m.data u).donationq ∨ a = .addDonation u x :=
    fun u p x hx => .inl (List.mem_of_mem_filter hx)
  cases a with
  | addDonation u newitem =>
    cases he
    refine queue u _ (fun x hx => ?_) hr
    rcases List.mem_append.mp hx with hx | hx
    · exact .inl hx
    · rw [List.mem_singleton.mp hx]
      exact .inr rfl
  | retainLockid u | retainDonner u | retainAcceptor u =>
    cases he
    exact queue u _ (filtered u _) hr
  | storePriority | storeSetted | donateStore | restorePriority =>
    cases he
    exact .inl (by simpa using hr)
  | setHolder | loadDonner | donateLoad | findAndDonate | scanRecords =>
    cases he
    exact .inl hr
  | restoreSetted | updateStoredPrev | testHolder | readHolder | loadAcceptor | assertHolder
  | findRecord | takeHolder =>
    simp only [exec] at he
    repeat' split at he
    all_goals cases he
    all_goals exact .inl (by simpa [Locks.setHolder] using hr)

/-- One call of `find_and_donate` inserts the calls for all records it follows. -/
theorem exec_findAndDonate (cur donner : Tid) (lockid : Nat) :
    (Access.findAndDonate donner lockid).exec cur m =
      .ok (m, (m.follows lockid donner).flatMap fun a =>
        [.access (.loadDonner donner a lockid), .access (.findAndDonate a lockid)]) := by
  rw [exec, Locks.follows, List.flatMap_map]

/-- Where the donations come from: from the holder that was read, from the step before, or
from a record. -/
theorem exec_towards (he : a.exec cur m = .ok (m', is)) {j : Instr} (hj : j ∈ is) {d t : Tid}
    (ht : (d, t) ∈ j.towards) :
    (∃ l, a = .readHolder l ∧ d = cur ∧ (m.sleep l).holder = some t ∧ entering is = some l) ∨
      (d, t) ∈ (Instr.access a).towards ∨
      ∃ r ∈ (m.data d).donationq, r.isDonner = true ∧ r.acceptor = t := by
  cases a with
  | readHolder l =>
    simp only [exec] at he
    split at he
    · rename_i acceptor hh
      cases he
      simp only [List.mem_cons, List.not_mem_nil, or_false] at hj
      rcases hj with rfl | rfl | rfl | rfl <;> cases ht
      exact .inl ⟨l, rfl, rfl, hh, rfl⟩
    · cases he
  | loadDonner donner acceptor lockid =>
    cases he
    rw [List.mem_singleton.mp hj] at ht
    exact .inr (.inl ht)
  | loadAcceptor donner acceptor lockid p =>
    simp only [exec] at he
    split at he
    · cases he
      simp only [List.mem_cons, List.not_mem_nil, or_false] at hj
      rcases hj with rfl | rfl | rfl | rfl <;> first | cases ht; done | skip
      all_goals simp [Instr.towards] at ht ⊢
      exact .inl ht
    · cases he
      cases hj
  | findAndDonate donner lockid =>
    cases he
    obtain ⟨r, hr, hm⟩ := List.mem_flatMap.mp hj
    obtain ⟨hr, kind⟩ := List.mem_filter.mp hr
    rcases List.mem_pair.mp hm with rfl | rfl
    · cases ht
      exact .inr (.inr ⟨r, hr, by simpa using (Bool.and_eq_true _ _ ▸ kind).1, rfl⟩)
    · cases ht
  | storePriority | storeSetted | donateStore | restorePriority | setHolder | addDonation
  | retainLockid | retainDonner | retainAcceptor =>
    cases he
    cases hj
  | donateLoad | scanRecords =>
    cases he
    rw [List.mem_singleton.mp hj] at ht
    cases ht
  | testHolder | assertHolder | findRecord | takeHolder | restoreSetted | updateStoredPrev =>
    simp only [exec] at he
    repeat' split at he
    all_goals cases he
    all_goals simp only [List.cons_append, List.nil_append, List.mem_cons, List.not_mem_nil,
      or_false] at hj
    all_goals rcases hj with rfl | rfl | rfl | rfl | rfl | rfl | rfl | rfl <;> cases ht

end Access

namespace Locks

theorem follows_setPriority (m : Locks) (t : Tid) (p lockid : Nat) :
    (m.setPriority t p).follows lockid = m.follows lockid := by
  funext d
  simp [follows]

/-- Records for a lock do not matter to what is followed for this lock. -/
theorem follows_addDonation (m : Locks) (t : Tid) {dd : DonationData} {lockid : Nat}
    (hdd : dd.lockid = lockid) :
    (m.setDonationq t ((m.data t).donationq ++ [dd])).follows lockid = m.follows lockid := by
  funext d
  by_cases hd : d = t
  · subst hd
    simp [follows, setDonationq, hdd]
  · simp [follows, setDonationq, hd]

end Locks

namespace Kernel

section Step

variable {σ : Type} {k k' : Kernel σ} {rest : List Instr} {i : Instr}

private theorem pushes (he : Effect k rest k' i) : ∃ is, k'.frames k.current = is ++ rest ∧
    ((∃ a, i = .access a ∧ a.exec k.current k.locks = .ok (k'.locks, is)) ∨
      ∀ j ∈ is, j.towards = none) := by
  have self : ∀ is, k'.frames = k.pending is rest → (∀ j ∈ is, j.towards = none) →
      ∃ is, k'.frames k.current = is ++ rest ∧
        ((∃ a, i = .access a ∧ a.exec k.current k.locks = .ok (k'.locks, is)) ∨
          ∀ j ∈ is, j.towards = none) :=
    fun is frames none => ⟨is, by rw [frames, pending_self], .inr none⟩
  cases he with
  | access a is exec _ _ _ frames => exact ⟨is, by rw [frames, pending_self], .inl ⟨a, rfl, exec⟩⟩
  | schedule _ _ _ frames =>
    rcases frames with ⟨-, frames⟩ | frames
    · exact self _ frames (by simp)
    · exact self _ frames (by simp [Instr.towards])
  | build _ _ _ _ _ frames =>
    refine ⟨_, by rw [frames]; exact Function.update_self .., .inr ?_⟩
    simp [Instr.towards]
  | up _ _ _ _ _ _ _ frames =>
    rcases frames with frames | frames
    · exact self _ frames (by simp)
    · exact self _ frames (by simp [Instr.towards])
  | still _ _ _ _ _ _ frames | exit _ _ _ _ frames | down _ _ _ _ _ frames
  | block _ _ _ _ _ _ _ frames | take _ _ _ _ _ _ _ frames =>
    exact self _ frames (by simp [Instr.towards])

private theorem records_back (he : Effect k rest k' i) {d : Tid} {r : DonationData}
    (hr : r ∈ (k'.locks.data d).donationq) :
    r ∈ (k.locks.data d).donationq ∨ i = .access (.addDonation d r) := by
  cases he with
  | access a is exec => exact (a.exec_donationq exec hr).imp id (congrArg Instr.access)
  | build p locks =>
    rw [locks] at hr
    by_cases hd : d = k.nextTid
    · subst hd
      simp [ThreadData.new] at hr
    · exact .inl (by simpa [hd] using hr)
  | schedule locks | still _ _ locks | exit locks | down _ locks | block _ _ _ locks
  | take _ _ _ locks | up _ _ _ locks =>
    rw [locks] at hr
    exact .inl hr

/-- A thread inside `acquire` stays there until it passes `down`. -/
private theorem entering_forward (he : Effect k rest k' i) (phased : k.Phased)
    (hf : k.frames k.current = i :: rest) (unborn : k.frames k.nextTid = []) {w : Tid} {l : Nat}
    (hw : entering (k.frames w) = some l) : entering (k'.frames w) = some l ∨
      (w = k.current ∧ ∃ old, i = .downLoop (.inner l) old ∧ (k.sema (.inner l)).value ≠ 0) := by
  by_cases hc : w = k.current
  · subst hc
    have hi := phased k.current
    rw [hf] at hi hw
    have self : ∀ is, k'.frames = k.pending is rest → entering (is ++ rest) = some l →
        entering (k'.frames k.current) = some l := fun is h hs => by rw [h, pending_self, hs]
    cases he with
    | schedule _ _ _ frames =>
      rcases frames with ⟨-, frames⟩ | frames
      · exact .inl (self _ frames hw)
      · exact .inl (self _ frames hw)
    | still i hp _ _ _ _ frames =>
      rw [entering_cons_of_none (by cases i <;> first | rfl | cases hp)] at hw
      exact .inl (self _ frames hw)
    | build p _ _ _ _ frames =>
      refine .inl ?_
      rw [frames, Function.update_self]
      exact hw
    | exit _ _ _ _ frames => exact .inl (self _ frames hw)
    | down s _ _ _ _ frames =>
      cases s <;> exact .inl (self _ frames hw)
    | block s _ _ _ _ _ _ frames =>
      cases s <;> exact .inl (self _ frames hw)
    | take s old value _ _ _ _ frames =>
      cases s with
      | user n => exact .inl (self _ frames hw)
      | inner l' =>
        obtain rfl : l' = l := Option.some.inj hw
        exact .inr ⟨rfl, old, rfl, value⟩
    | up s _ _ _ _ _ _ frames =>
      rcases frames with frames | frames <;> cases s <;> exact .inl (self _ frames hw)
    | access a is exec _ _ _ frames =>
      refine .inl (self _ frames ?_)
      have hw : entering rest = some l := hw
      rw [entering_append]
      rcases a.exec_entering exec with hnone | ⟨l', -, hkind⟩
      · rw [hnone, hw]
        rfl
      · -- who reads the holder is not yet inside `acquire` for any lock
        have hcode : code rest = [] := by
          rcases hkind with ⟨rfl, -⟩ | ⟨rfl, -⟩ <;> exact hi.tail
        rw [← entering_code, hcode] at hw
        cases hw
  · rcases he.frames_other hc with same | ⟨rfl, -⟩
    · rw [same]
      exact .inl hw
    · rw [unborn] at hw
      cases hw

private theorem push_honest (honest : k.Honest) {is : List Instr} (hent : entering is = none)
    (none : ∀ j ∈ is, j.towards = none) : (k.push k.current is).Honest := by
  have forward : ∀ {d a}, k.WaitsFor d a → (k.push k.current is).WaitsFor d a := by
    rintro d a ⟨l, hl, holder⟩
    refine ⟨l, ?_, holder⟩
    by_cases hd : d = k.current
    · subst hd
      simpa [push, entering_append, hent] using hl
    · simpa [push, hd] using hl
  refine ⟨fun d r hr donner => forward (honest.records d r hr donner), ?_⟩
  intro t j hj p hp
  rcases push_back hj with hj | hj
  · rw [none j hj] at hp
    cases hp
  · exact forward (honest.underway t j hj p hp)

end Step

section Honesty

variable {σ : Type} [Schedule σ] [LawfulSchedule σ] {k k' : Kernel σ}
    {rest : List Instr} {i : Instr}

/-- An edge of the wait-for graph goes only when the lock is given up. -/
private theorem waitsFor_forward (h : k.Exclusive) (hf : k.frames k.current = i :: rest)
    (he : Effect k rest k' i) {d a : Tid} (hw : k.WaitsFor d a) :
    k'.WaitsFor d a ∨
      ∃ l, i = .access (.takeHolder l) ∧ entering (k.frames d) = some l ∧ a = k.current := by
  obtain ⟨l, hl, holder⟩ := hw
  by_cases htake : i = .access (.takeHolder l)
  · subst htake
    refine .inr ⟨l, rfl, hl, ?_⟩
    have := h.releasing k.current l (.inr (by rw [hf]; exact List.mem_cons_self))
    rw [holder] at this
    exact Option.some.inj this
  · left
    have hset : i ≠ .access (.setHolder l) := by
      rintro rfl
      have free := (state_set h hf he).1
      rw [holder] at free
      cases free
    refine ⟨l, ?_, (holder_eq he hset htake).trans holder⟩
    rcases entering_forward he h.wired.phased hf h.wired.unborn hl with stays | ⟨-, old, -, value⟩
    · exact stays
    · -- the semaphore of a held lock is down
      cases h.state l with
      | free _ o | taken _ _ o | freed _ _ o =>
        rw [holder] at o
        cases o
      | held _ v => exact (value v).elim

/-- The step lemma for one executed instruction. -/
private theorem exec_honest (h : k.Exclusive) (honest : k.Honest) (meets : k.Clears .exec)
    (hs : k.step .exec = some k') : k'.Honest := by
  obtain ⟨i, rest, hf, he⟩ := step_exec h.wired.current_ne hs
  have clears : k.ClearsAt i := meets i (by rw [hf]; rfl)
  have lt : ∀ d, entering (k.frames d) ≠ none → d < k.nextTid := by
    intro d hd
    by_contra hge
    exact hd (by rw [(h.wired.manager.core.fresh d (Nat.le_of_not_lt hge)).2]; rfl)
  have records : ∀ d, ∀ r ∈ (k.locks.data d).donationq, r.isDonner = true →
      k'.WaitsFor d r.acceptor := by
    intro d r hr donner
    refine (waitsFor_forward h hf he (honest.records d r hr donner)).resolve_right ?_
    rintro ⟨l, rfl, hl, acceptor⟩
    exact (clears d (lt d (by rw [hl]; simp)) hl).1 r hr donner acceptor
  have underway : ∀ t, ∀ j ∈ k.frames t, ∀ p ∈ j.towards, k'.WaitsFor p.1 p.2 := by
    intro t j hj p hp
    refine (waitsFor_forward h hf he (honest.underway t j hj p hp)).resolve_right ?_
    rintro ⟨l, rfl, hl, acceptor⟩
    have ht : t < k.nextTid := by
      by_contra hge
      rw [(h.wired.manager.core.fresh t (Nat.le_of_not_lt hge)).2] at hj
      cases hj
    refine (clears p.1 (lt p.1 (by rw [hl]; simp)) hl).2 t ht j hj ?_
    rw [← acceptor]
    exact hp
  refine ⟨?_, ?_⟩
  · intro d r hr donner
    rcases records_back he hr with old | rfl
    · exact records d r old donner
    · exact underway k.current _ (by rw [hf]; exact List.mem_cons_self) (d, r.acceptor)
        (by simp [Instr.towards, donner])
  · intro t j hj p hp
    by_cases ht : t = k.current
    · subst ht
      obtain ⟨is, his, pushed⟩ := pushes he
      rw [his] at hj
      rcases List.mem_append.mp hj with hj | hj
      · rcases pushed with ⟨a, rfl, exec⟩ | none
        · obtain ⟨d, a'⟩ := p
          rcases a.exec_towards exec hj hp with ⟨l, rfl, rfl, holder, enters⟩ |
            now | ⟨r, hr, donner, rfl⟩
          · refine ⟨l, ?_, (holder_eq he (by simp) (by simp)).trans holder⟩
            rw [his, entering_append, enters]
            rfl
          · exact underway k.current _ (by rw [hf]; exact List.mem_cons_self) _ now
          · exact records d r hr donner
        · rw [none j hj] at hp
          cases hp
      · exact underway k.current j (by rw [hf]; exact List.mem_cons_of_mem _ hj) p hp
    · rcases he.frames_other ht with same | ⟨-, new, -⟩
      · exact underway t j (same ▸ hj) p hp
      · rw [new] at hj
        rw [List.mem_singleton.mp hj] at hp
        cases hp

/-- The step lemma: a step that meets the condition leaves no record behind. -/
theorem step_honest {e : Event} (h : k.Exclusive) (honest : k.Honest) (meets : k.Clears e)
    (hs : k.step e = some k') : k'.Honest := by
  cases e with
  | exec => exact exec_honest h honest meets hs
  | call c =>
    obtain ⟨-, rfl⟩ := step_call hs
    apply push_honest honest <;> cases c <;> simp [Call.code, entering, Instr.enters, Instr.towards]
  | preempt =>
    obtain ⟨-, rfl⟩ := step_preempt hs
    apply push_honest honest <;> simp [entering, Instr.enters, Instr.towards]

omit [LawfulSchedule σ] in
theorem init_honest {intr : Bool} {value lockid : Nat → Nat}
    (h : init intr value lockid = .ok k) : k.Honest := by
  obtain ⟨q, all, rfl⟩ := init_eq h
  refine ⟨?_, ?_⟩
  · intro d r hr
    simp [boot, ThreadData.new] at hr
  · intro t j hj p hp
    have hj : j ∈ (boot intr value lockid : Kernel σ).frames t := hj
    rw [boot_frames hj] at hp
    cases hp

/-- The condition is exact: a step that does not meet it leaves a record behind, or a
donation that goes nowhere. -/
theorem clears_of_honest {e : Event} (h : k.Exclusive) (hs : k.step e = some k')
    (honest : k'.Honest) : k.Clears e := by
  cases e with
  | call | preempt => trivial
  | exec =>
    intro i hi
    obtain ⟨i', rest, hf, he⟩ := step_exec h.wired.current_ne hs
    rw [hf] at hi
    obtain rfl := Option.some.inj hi
    by_cases htake : ∃ l, i' = .access (.takeHolder l)
    · obtain ⟨l, rfl⟩ := htake
      have idle : entering (k.frames k.current) = none := by
        have phase := h.wired.phased k.current
        rw [hf] at phase
        rw [hf, entering_cons_of_none rfl, ← entering_code, show code rest = [] from phase.tail]
        rfl
      have same : k'.locks.data = k.locks.data := by
        obtain ⟨is, exec, -⟩ := he.of_access
        simp only [Access.exec] at exec
        split at exec
        · rw [← (Prod.mk.inj (Except.ok.inj exec)).1]
          rfl
        · cases exec
      intro d _ hd
      have gone : ¬ k'.WaitsFor d k.current := by
        rintro ⟨l', hl', holder⟩
        have other : d ≠ k.current := by
          rintro rfl
          rw [idle] at hd
          cases hd
        rcases he.frames_other other with stays | ⟨-, -, p, build⟩
        · rw [stays, hd] at hl'
          obtain rfl := Option.some.inj hl'
          rw [he.holder l] at holder
          simp [held, Access.sets] at holder
        · cases build
      refine ⟨?_, ?_⟩
      · intro r hr donner acceptor
        exact gone (acceptor ▸ honest.records d r (by rwa [same]) donner)
      · intro t _ j hj hp
        have pending : j ∈ k'.frames t := by
          refine (he.mem_forward hf h.wired.unborn hj).resolve_right ?_
          rintro ⟨-, rfl⟩
          cases hp
        exact gone (honest.underway t j pending (d, k.current) hp)
    · cases i' with
      | access a =>
        cases a <;> first | trivial | exact (htake ⟨_, rfl⟩).elim
      | _ => trivial

end Honesty

section Ending

variable {σ : Type} [Schedule σ] [LawfulSchedule σ]

/-- Executing `is`, which stands in front, ends after finitely many instructions or passes the
processor on; what `find_and_donate` follows for this lock stays the same. -/
def Drains (σ : Type) [Schedule σ] [LawfulSchedule σ] (lockid : Nat) (next : Tid → List Tid)
    (is : List Instr) : Prop :=
  ∀ (k : Kernel σ) (rest : List Instr), k.Wired → k.locks.follows lockid = next →
    k.frames k.current = is ++ rest →
    ∃ n k', run step k (List.replicate n .exec) = some k' ∧ (k'.current ≠ k.current ∨
      (k'.Wired ∧ k'.locks.follows lockid = next ∧ k'.current = k.current ∧
        k'.frames k.current = rest))

variable {lockid : Nat} {next : Tid → List Tid} {is js : List Instr}

theorem Drains.nil : Drains σ lockid next [] := fun k _ wired same hf =>
  ⟨0, k, rfl, .inr ⟨wired, same, rfl, hf⟩⟩

theorem Drains.append (first : Drains σ lockid next is) (second : Drains σ lockid next js) :
    Drains σ lockid next (is ++ js) := by
  intro k rest wired same hf
  rw [List.append_assoc] at hf
  obtain ⟨n, k₁, ran, gone | ⟨wired₁, same₁, current, frames⟩⟩ := first k (js ++ rest) wired same hf
  · exact ⟨n, k₁, ran, .inl gone⟩
  · rw [← current] at frames
    obtain ⟨m, k₂, ran₂, out⟩ := second k₁ rest wired₁ same₁ frames
    rw [current] at out
    refine ⟨n + m, k₂, ?_, out⟩
    rw [List.replicate_add, run_append]
    exact ⟨k₁, ran, ran₂⟩

theorem Drains.step {i : Instr} (one : ∀ (k : Kernel σ) (rest : List Instr), k.Wired →
    k.locks.follows lockid = next → k.frames k.current = i :: rest →
    ∃ k' is, k.step .exec = some k' ∧ (k'.current ≠ k.current ∨
      (Drains σ lockid next is ∧ k'.locks.follows lockid = next ∧ k'.current = k.current ∧
        k'.frames k.current = is ++ rest))) : Drains σ lockid next [i] := by
  intro k rest wired same hf
  obtain ⟨k₁, is, hs, gone | ⟨drains, same₁, current, frames⟩⟩ := one k rest wired same hf
  · exact ⟨1, k₁, run_cons.mpr ⟨k₁, hs, rfl⟩, .inl gone⟩
  · rw [← current] at frames
    obtain ⟨n, k₂, ran, out⟩ := drains k₁ rest (wired.step hs) same₁ frames
    rw [current] at out
    refine ⟨n + 1, k₂, ?_, out⟩
    exact run_cons.mpr ⟨k₁, hs, ran⟩

omit [LawfulSchedule σ] in
theorem step_access {k : Kernel σ} {rest : List Instr} {a : Access} {m : Locks} {is : List Instr}
    (hf : k.frames k.current = .access a :: rest) (exec : a.exec k.current k.locks = .ok (m, is)) :
    k.step .exec = some { k with locks := m, frames := k.pending is rest } := by
  simp [Kernel.step, Kernel.exec, hf, execInstr, exec, push, pending]

theorem Drains.access {a : Access} (one : ∀ cur (m : Locks), m.follows lockid = next →
    ∃ m' is, a.exec cur m = .ok (m', is) ∧ m'.follows lockid = next ∧ Drains σ lockid next is) :
    Drains σ lockid next [.access a] := by
  refine Drains.step fun k rest _ same hf => ?_
  obtain ⟨m, is, exec, same', drains⟩ := one k.current k.locks same
  exact ⟨_, is, step_access hf exec, .inr ⟨drains, same', rfl, pending_self k is rest⟩⟩

theorem Drains.schedule : Drains σ lockid next [.schedule] := by
  have restore : ∀ old, Drains σ lockid next [.restore old] := by
    intro old
    refine Drains.step fun k rest _ same hf => ?_
    have hs : k.step .exec = some { k with intr := old, frames := k.pending [] rest } := by
      simp [Kernel.step, Kernel.exec, hf, execInstr, pending]
    exact ⟨_, [], hs, .inr ⟨.nil, same, rfl, pending_self k [] rest⟩⟩
  refine Drains.step fun k rest wired same hf => ?_
  obtain ⟨k', hs⟩ := Option.isSome_iff_exists.mp
    (step_isSome (managed_nil.mpr wired.manager) hf rfl)
  obtain ⟨i, rest', hf', he⟩ := step_exec wired.current_ne hs
  rw [hf] at hf'
  obtain ⟨rfl, rfl⟩ := List.cons.inj hf'
  by_cases current : k'.current = k.current
  · cases he with
    | still _ hi => cases hi
    | schedule locks _ _ frames =>
      rw [← locks] at same
      rcases frames with ⟨-, frames⟩ | frames
      · exact ⟨k', [], hs, .inr ⟨.nil, same, current, by rw [frames, pending_self]⟩⟩
      · exact ⟨k', _, hs, .inr ⟨restore k.intr, same, current, by rw [frames, pending_self]⟩⟩
  · exact ⟨k', [], hs, .inl current⟩

theorem Drains.loadDonner {donner acceptor : Tid} :
    Drains σ lockid next [.access (.loadDonner donner acceptor lockid)] := by
  have store : ∀ p, Drains σ lockid next [.access (.donateStore acceptor p)] := by
    intro p
    exact Drains.access fun _ m same => ⟨_, [], rfl, (m.follows_setPriority ..).trans same, .nil⟩
  have load : Drains σ lockid next [.access (.donateLoad donner acceptor)] :=
    Drains.access fun cur m same => ⟨m, _, rfl, same, store _⟩
  have add : ∀ t (dd : DonationData), dd.lockid = lockid →
      Drains σ lockid next [.access (.addDonation t dd)] := by
    intro t dd hdd
    exact Drains.access fun _ m same =>
      ⟨_, [], rfl, (m.follows_addDonation t hdd).trans same, .nil⟩
  refine Drains.access fun cur m same => ⟨m, _, rfl, same, Drains.access fun cur' m' same' => ?_⟩
  simp only [Access.exec]
  split
  · refine ⟨m', _, rfl, same', ?_⟩
    exact load.append ((add _ _ rfl).append ((add _ _ rfl).append .schedule))
  · exact ⟨m', [], rfl, same', .nil⟩

/-- A call of `find_and_donate` ends if its recursion along the records does. -/
theorem Drains.findAndDonate {depth : Nat} {donner : Tid}
    (ends : (calls next depth donner).isSome) :
    Drains σ lockid next [.access (.findAndDonate donner lockid)] := by
  induction depth generalizing donner with
  | zero => cases ends
  | succ depth ih =>
    have below := calls_isSome.mp ends
    have hops : ∀ l : List Tid, (∀ a ∈ l, (calls next depth a).isSome) →
        Drains σ lockid next (l.flatMap fun a => [.access (.loadDonner donner a lockid),
          .access (.findAndDonate a lockid)]) := by
      intro l hl
      induction l with
      | nil => exact .nil
      | cons a l ihl =>
        rw [List.flatMap_cons]
        refine Drains.append (Drains.append .loadDonner (ih (hl a List.mem_cons_self))) ?_
        exact ihl fun b hb => hl b (List.mem_cons_of_mem a hb)
    refine Drains.access fun cur m same => ?_
    exact ⟨m, _, Access.exec_findAndDonate cur donner lockid, same, hops _ (same ▸ below)⟩

end Ending

section Goal

variable {σ : Type} [Schedule σ] [LawfulSchedule σ] {k : Kernel σ}

/-- What holds of the propagation of donations in a state: it goes along the wait-for graph,
takes finitely many calls, and every call returns unless it passes the processor on. -/
structure Propagates (k : Kernel σ) : Prop where
  edges : ∀ lockid d, ∀ a ∈ k.locks.follows lockid d, k.WaitsFor d a
  underway : ∀ t, ∀ i ∈ k.frames t, ∀ p ∈ i.towards, k.WaitsFor p.1 p.2
  finite : ∀ lockid d, (calls (k.locks.follows lockid) k.nextTid d).isSome
  returns : ∀ d lockid rest, k.frames k.current = .access (.findAndDonate d lockid) :: rest →
    ∃ n k', run step k (List.replicate n .exec) = some k' ∧
      (k'.current ≠ k.current ∨ k'.frames k.current = rest)

theorem Honest.propagates (h : k.Exclusive) (honest : k.Honest) (acyclic : k.Acyclic) :
    k.Propagates := by
  have edges : ∀ lockid d, ∀ a ∈ k.locks.follows lockid d, k.WaitsFor d a := by
    intro lockid d a ha
    obtain ⟨r, hr, rfl⟩ := List.mem_map.mp ha
    obtain ⟨hr, kind⟩ := List.mem_filter.mp hr
    simp only [Bool.and_eq_true] at kind
    exact honest.records d r hr kind.1
  have finite : ∀ lockid d, (calls (k.locks.follows lockid) k.nextTid d).isSome := by
    intro lockid d
    have bounded : ∀ d, ∀ a ∈ k.locks.follows lockid d, a < k.nextTid := by
      intro d a ha
      obtain ⟨l, -, holder⟩ := edges lockid d a ha
      exact h.wired.holder_lt l a holder
    have acyclic' : ∀ t, ¬ Relation.TransGen (fun a b => b ∈ k.locks.follows lockid a) t t :=
      fun t cycle => acyclic t (Relation.TransGen.mono (fun a b => edges lockid a b) t t cycle)
    by_cases hd : d < k.nextTid
    · exact acyclic_calls bounded acyclic' hd
    · obtain ⟨n, hn⟩ := Nat.exists_eq_succ_of_ne_zero
        (Nat.ne_of_gt (Nat.lt_of_le_of_lt (Nat.zero_le _) h.wired.manager.core.current_lt))
      rw [hn]
      refine calls_isSome.mpr fun a ha => ?_
      obtain ⟨l, hl, -⟩ := edges lockid d a ha
      rw [(h.wired.manager.core.fresh d (Nat.le_of_not_lt hd)).2] at hl
      cases hl
  refine ⟨edges, honest.underway, finite, ?_⟩
  intro d lockid rest hf
  obtain ⟨n, k', ran, out⟩ := Drains.findAndDonate (σ := σ) (finite lockid d) k rest h.wired rfl hf
  exact ⟨n, k', ran, out.imp id fun ended => ended.2.2.2⟩

/-- All records follow the wait-for graph exactly as long as locks are given up cleanly. -/
theorem honest_iff_clears {k₀ : Kernel σ} {es : List Event} (start : k₀.Exclusive)
    (honest : k₀.Honest) (ran : run step k₀ es = some k) :
    (∀ as bs u, es = as ++ bs → run step k₀ as = some u → u.Honest) ↔ Guarded step Clears k₀ es :=
  reached_iff_guarded (fun _ _ _ => step_exclusive)
    (fun _ _ _ excl honest hs => ⟨clears_of_honest excl hs, fun meets =>
      step_honest excl honest meets hs⟩) start honest ran

end Goal

section Endless

variable {σ : Type} [Schedule σ] {k : Kernel σ} {rest : List Instr} {a b : Tid} {lockid : Nat}

/-- A call of `find_and_donate` with one record to follow, and nothing to donate along it. -/
private theorem follow_one (rest : List Instr) (follows : k.locks.follows lockid b = [a])
    (rank : k.locks.priority b ≤ k.locks.priority a) :
    run step { k with frames := k.pending [.access (.findAndDonate b lockid)] rest }
      (List.replicate 3 .exec) =
        some { k with frames := k.pending [.access (.findAndDonate a lockid)] rest } := by
  have one : ∀ (i : Access) is js, i.exec k.current k.locks = .ok (k.locks, is) →
      step { k with frames := k.pending (.access i :: js) rest } .exec =
        some { k with frames := k.pending (is ++ js) rest } := by
    intro i is js exec
    have hf := pending_self k (.access i :: js) rest
    refine (step_access (k := { k with frames := k.pending (.access i :: js) rest }) hf exec).trans
      ?_
    simp [pending]
  have call := one _ _ [] (Access.exec_findAndDonate (m := k.locks) k.current b lockid)
  rw [follows] at call
  have load := one (.loadDonner b a lockid) _ [.access (.findAndDonate a lockid)] rfl
  have rank : (Access.loadAcceptor b a lockid (k.locks.priority b)).exec k.current k.locks =
      .ok (k.locks, []) := by
    simp [Access.exec, Nat.not_lt.mpr rank]
  have compare := one _ _ [.access (.findAndDonate a lockid)] rank
  exact run_cons.mpr ⟨_, call, run_cons.mpr ⟨_, load, run_cons.mpr ⟨_, compare, rfl⟩⟩⟩

/-- Two threads that have each recorded a donation to the other and rank the same keep a call
of `find_and_donate` busy forever. -/
theorem mutual_records_recurse (hf : k.frames k.current = .access (.findAndDonate b lockid) :: rest)
    (there : k.locks.follows lockid b = [a]) (back : k.locks.follows lockid a = [b])
    (rank : k.locks.priority a = k.locks.priority b) (n : Nat) :
    run step k (List.replicate (6 * n) .exec) = some k := by
  have whole :
    ({ k with frames := k.pending [.access (.findAndDonate b lockid)] rest } : Kernel σ) =
      k := by
    simp [pending, ← hf]
  have turn : run step k (List.replicate 6 .exec) = some k := by
    have first := follow_one rest there rank.ge
    have second := follow_one rest back rank.le
    rw [whole] at first second
    exact run_append.mpr ⟨_, first, second⟩
  induction n with
  | zero => rfl
  | succ n ih =>
    rw [Nat.mul_succ, List.replicate_add, run_append]
    exact ⟨k, ih, turn⟩

end Endless

end Kernel

/-- In every run in which locks are given up cleanly, donations go along the wait-for graph, and
where this graph is acyclic, the recursion that passes them on ends. -/
theorem donation_propagates {σ : Type} [Schedule σ] [LawfulSchedule σ] {intr : Bool}
    {value lockid : Nat → Nat} {k₀ k : Kernel σ} {es : List Event}
    (start : Kernel.init intr value lockid = .ok k₀)
    (meets : Guarded Kernel.step Kernel.Clears k₀ es) (ran : run Kernel.step k₀ es = some k)
    (acyclic : k.Acyclic) : k.Propagates := by
  have kept : k.Exclusive ∧ k.Honest := guarded_run_invariant
    (I := fun k => k.Exclusive ∧ k.Honest)
    (fun _ _ _ h meets hs => ⟨Kernel.step_exclusive h.1 hs, Kernel.step_honest h.1 h.2 meets hs⟩)
    ⟨Kernel.init_exclusive start, Kernel.init_honest start⟩ meets ran
  exact kept.2.propagates kept.1 acyclic

def waitEdges (k : Kernel PriorityScheduler) : List (Tid × Tid) :=
  (List.range k.nextTid).filterMap fun d =>
    ((entering (k.frames d)).bind fun l => (k.locks.sleep l).holder).map (d, ·)

private theorem mem_waitEdges {es : List Event} {k : Kernel PriorityScheduler}
    (ran : run Kernel.step bootedLocks es = some k) {d a : Tid} (hw : k.WaitsFor d a) :
    (d, a) ∈ waitEdges k := by
  obtain ⟨l, hl, holder⟩ := hw
  have inv := Kernel.run_managerInv (Kernel.init_wired (k := bootedLocks) rfl).manager ran
  have lt : d < k.nextTid := by
    by_contra hge
    rw [(inv.core.fresh d (Nat.le_of_not_lt hge)).2] at hl
    cases hl
  refine List.mem_filterMap.mpr ⟨d, List.mem_range.mpr lt, ?_⟩
  rw [hl]
  simpa using holder

/-- Thread 2 donates to `Initial` for lock 0, which gives the lock up and donates to thread 2
for lock 1. -/
def oneDonor : List Event :=
  calling (.acquire 0) 4 ++ calling (.spawn 33) 5 ++ calling (.acquire 1) 4 ++
    calling (.acquire 0) 10 ++ calling (.setPriority 60) 3 ++ calling (.release 0) 13 ++
    calling (.acquire 1) 8

set_option maxRecDepth 4000 in
/-- The record of the first donation is gone and the second one follows the wait-for graph. -/
theorem returned_donation_propagates : ∃ k, run Kernel.step bootedLocks oneDonor = some k ∧
    k.locks.follows 1 0 = [2] ∧ k.locks.follows 1 2 = [] ∧ k.Propagates := by
  have ran : ((run Kernel.step bootedLocks oneDonor).map fun k =>
      (k.locks.follows 1 0, k.locks.follows 1 2, waitEdges k)) = some ([2], [], [(0, 2)]) := by
    decide +kernel
  have meets : Guarded Kernel.step Kernel.Clears bootedLocks oneDonor := by
    decide +kernel
  obtain ⟨k, hk, hview⟩ := Option.map_eq_some_iff.mp ran
  simp only [Prod.mk.injEq] at hview
  obtain ⟨there, back, edges⟩ := hview
  have edge : ∀ {d a}, k.WaitsFor d a → d = 0 ∧ a = 2 := by
    intro d a hw
    have := mem_waitEdges hk hw
    rw [edges] at this
    simpa using this
  refine ⟨k, hk, there, back, donation_propagates rfl meets hk ?_⟩
  exact Kernel.acyclic_of_sink (fun d a hw => (edge hw).2)
    fun a hw => absurd (edge hw).1 (by decide)

/-- `Initial` holds lock 0 when threads 2 and 3 donate to it for this lock. -/
def twoDonors : List Event :=
  calling (.acquire 0) 4 ++ calling (.spawn 32) 5 ++ calling (.acquire 0) 10 ++
    calling (.spawn 33) 5 ++ calling (.acquire 1) 4 ++ calling (.acquire 2) 4 ++
    calling (.acquire 0) 10

/-- It gives lock 0 up and waits for lock 1, which thread 3 holds with lock 2; thread 4 acquires
lock 2. -/
def staleRun : List Event :=
  twoDonors ++ calling (.setPriority 60) 3 ++ calling (.release 0) 13 ++ calling (.acquire 1) 17 ++
    calling (.spawn 60) 13 ++ calling (.acquire 2) 4

set_option maxRecDepth 4000 in
/-- The record that thread 3 has kept sends the call of thread 4 in circles, though threads 0,
2 and 4 only wait for thread 3. -/
theorem stale_record_recurses : ∃ k, run Kernel.step bootedLocks staleRun = some k ∧ k.Acyclic ∧
    ¬ k.Propagates ∧
    (k.frames k.current).head? = some (.access (.findAndDonate 3 3)) ∧
    ∀ n, run Kernel.step k (List.replicate (6 * n) .exec) = some k := by
  have ran : ((run Kernel.step bootedLocks staleRun).map fun k =>
      (decide (k.frames k.current =
          [.access (.findAndDonate 3 3), .down (.inner 2), .access (.setHolder 2)]),
        decide (waitEdges k = [(0, 3), (2, 3), (4, 3)]), k.locks.follows 3 3, k.locks.follows 3 0,
        decide (k.locks.priority 0 = k.locks.priority 3))) = some (true, true, [0], [3], true) := by
    decide +kernel
  obtain ⟨k, hk, hview⟩ := Option.map_eq_some_iff.mp ran
  simp only [Prod.mk.injEq, decide_eq_true_eq] at hview
  obtain ⟨frames, edges, there, back, rank⟩ := hview
  have edge : ∀ {d a}, k.WaitsFor d a → a = 3 ∧ d ≠ 3 := by
    intro d a hw
    have := mem_waitEdges hk hw
    rw [edges] at this
    simp only [List.mem_cons, Prod.mk.injEq, List.not_mem_nil, or_false] at this
    rcases this with ⟨rfl, rfl⟩ | ⟨rfl, rfl⟩ | ⟨rfl, rfl⟩ <;> decide
  refine ⟨k, hk, ?_, ?_, by rw [frames]; rfl, ?_⟩
  · exact Kernel.acyclic_of_sink (fun d a hw => (edge hw).1) fun a hw => (edge hw).2 rfl
  · intro propagates
    have stale := propagates.edges 3 3 0 (by rw [there]; exact List.mem_singleton_self 0)
    exact absurd (edge stale).1 (by decide)
  · exact Kernel.mutual_records_recurse frames there back rank

end Tacos.Thread
