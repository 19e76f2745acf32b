/- GID: Tacos/Thread/Code
   generality: G
   source: src/thread.rs, src/sync/sema.rs, src/sync/sleep.rs, src/thread/imp.rs
   digest: Where a thread can be inside the kernel's functions, and what one instruction changes. -/

import Tacos.Thread.Manager

set_option autoImplicit false
set_option relaxedAutoImplicit false

namespace Tacos.Thread

/-- Instructions that only pass the processor on; they may stand anywhere. -/
def Instr.noise : Instr → Bool
  | .schedule | .restore _ | .kernelThread => true
  | _ => false

/-- Instructions that touch no Sleep lock and no priority of an existing thread. -/
def Instr.plain : Instr → Bool
  | .build _ | .registerScheduler _ | .registerAll _ | .exit | .exitReturned => true
  | .down (.user _) | .downLoop (.user _) _ | .up (.user _) => true
  | _ => false

/-- Instructions that change neither locks nor semaphores nor the pending code. -/
def Instr.passive : Instr → Bool
  | .restore _ | .kernelThread | .registerScheduler _ | .registerAll _ => true
  | _ => false

/-- Instructions of a donation, along a chain of any length. -/
def Instr.hop : Instr → Bool
  | .access (.loadDonner ..) | .access (.loadAcceptor ..) | .access (.donateLoad ..) => true
  | .access (.donateStore ..) | .access (.addDonation ..) | .access (.findAndDonate ..) => true
  | _ => false

/-- Instructions of `release` between the search for a record and the restored priority. -/
def Instr.cleanup : Instr → Bool
  | .access (.retainLockid ..) | .access (.retainDonner ..) | .access (.retainAcceptor ..) => true
  | .access (.updateStoredPrev ..) | .access .scanRecords | .access (.restorePriority _) => true
  | _ => false

/-- A thread's pending instructions without those that only pass the processor on. -/
def code (frames : List Instr) : List Instr := frames.filter fun i => !i.noise

@[simp] theorem code_append (is js : List Instr) : code (is ++ js) = code is ++ code js :=
  List.filter_append ..

theorem code_cons_of_noise {i : Instr} (h : i.noise = true) (is : List Instr) :
    code (i :: is) = code is := by
  simp [code, h]

theorem code_cons_of_not_noise {i : Instr} (h : i.noise = false) (is : List Instr) :
    code (i :: is) = i :: code is := by
  simp [code, h]

theorem mem_code {i : Instr} {is : List Instr} : i ∈ code is ↔ i ∈ is ∧ i.noise = false := by
  simp [code]

/-- The places a thread can be at, by what it has still to execute. -/
inductive Phase (is : List Instr) : Prop where
  | plain (h : ∀ i ∈ is, i.plain)
  | setting (p : Nat) (h : is = [.access (.storePriority p), .access (.storeSetted p)])
  | setted (p : Nat) (h : is = [.access (.storeSetted p)])
  | testing (l : Nat) (h : is = [.access (.testHolder l)])
  | reading (l : Nat) (h : is = [.access (.readHolder l)])
  | donating (hops : List Instr) (l : Nat) (hops_hop : ∀ i ∈ hops, i.hop)
      (h : is = hops ++ [.down (.inner l), .access (.setHolder l)])
  | waiting (l : Nat) (old : Bool) (h : is = [.downLoop (.inner l) old, .access (.setHolder l)])
  | taking (l : Nat) (h : is = [.access (.setHolder l)])
  | asserting (l : Nat) (h : is = [.access (.assertHolder l)])
  | finding (l : Nat) (h : is = [.access (.findRecord l)])
  | restoring (pre : List Instr) (l : Nat) (pre_cleanup : ∀ i ∈ pre, i.cleanup)
      (h : is = pre ++ [.access .restoreSetted, .access (.takeHolder l)])
  | dropping (l : Nat) (h : is = [.access (.takeHolder l)])
  | upping (l : Nat) (h : is = [.up (.inner l)])

namespace Phase

/-- What must follow the first of a thread's pending instructions. -/
def Tail : Instr → List Instr → Prop
  | .access a, c =>
    match a with
    | .storePriority p => c = [.access (.storeSetted p)]
    | .storeSetted _ | .testHolder _ | .readHolder _ | .setHolder _ | .assertHolder _
    | .findRecord _ | .takeHolder _ => c = []
    | .restoreSetted => ∃ l, c = [.access (.takeHolder l)]
    | .retainLockid .. | .retainDonner .. | .retainAcceptor .. | .updateStoredPrev ..
    | .scanRecords | .restorePriority _ => ∃ pre l, (∀ i ∈ pre, i.cleanup) ∧
        c = pre ++ [.access .restoreSetted, .access (.takeHolder l)]
    | _ => ∃ hops l, (∀ i ∈ hops, i.hop) ∧ c = hops ++ [.down (.inner l), .access (.setHolder l)]
  | .down (.inner l), c | .downLoop (.inner l) _, c => c = [.access (.setHolder l)]
  | .up (.inner _), c => c = []
  | i, c => i.plain → ∀ j ∈ c, j.plain

theorem tail {i : Instr} {c : List Instr} (h : Phase (i :: c)) : Tail i c := by
  cases h with
  | plain h =>
    have hi := h i List.mem_cons_self
    have hc : ∀ j ∈ c, j.plain := fun j hj => h j (List.mem_cons_of_mem i hj)
    cases i with
    | down s | downLoop s _ | up s => cases s <;> first | exact fun _ => hc | cases hi
    | access a => cases hi
    | _ => exact fun _ => hc
  | donating hops l hh h =>
    cases hops with
    | nil =>
      obtain ⟨rfl, rfl⟩ := List.cons.inj h
      rfl
    | cons j hops =>
      obtain ⟨rfl, rfl⟩ := List.cons.inj h
      have hi := hh i List.mem_cons_self
      have hrest : ∀ j ∈ hops, j.hop := fun j hj => hh j (List.mem_cons_of_mem _ hj)
      cases i with
      | access a => cases a <;> first | exact ⟨hops, l, hrest, rfl⟩ | cases hi
      | _ => cases hi
  | restoring pre l hp h =>
    cases pre with
    | nil =>
      obtain ⟨rfl, rfl⟩ := List.cons.inj h
      exact ⟨l, rfl⟩
    | cons j pre =>
      obtain ⟨rfl, rfl⟩ := List.cons.inj h
      have hi := hp i List.mem_cons_self
      have hrest : ∀ j ∈ pre, j.cleanup := fun j hj => hp j (List.mem_cons_of_mem _ hj)
      cases i with
      | access a => cases a <;> first | exact ⟨pre, l, hrest, rfl⟩ | cases hi
      | _ => cases hi
  | setting _ h | setted _ h | testing _ h | reading _ h | waiting _ _ h | taking _ h
  | asserting _ h | finding _ h | dropping _ h | upping _ h =>
    obtain ⟨rfl, rfl⟩ := List.cons.inj h
    rfl

theorem plain_tail {i : Instr} {c : List Instr} (hi : i.plain) (h : Phase (i :: c)) :
    ∀ j ∈ c, j.plain := by
  have ht := h.tail
  cases i with
  | down s | downLoop s _ | up s => cases s <;> first | exact ht hi | cases hi
  | access a | schedule | restore _ | kernelThread => cases hi
  | _ => exact ht hi

private theorem hop_cons {c : List Instr} {pushed : List Instr}
    (hpushed : ∀ j ∈ code pushed, j.hop)
    (h : ∃ hops l, (∀ i ∈ hops, i.hop) ∧ c = hops ++ [.down (.inner l), .access (.setHolder l)]) :
    Phase (code pushed ++ c) := by
  obtain ⟨hops, l, hh, rfl⟩ := h
  refine .donating (code pushed ++ hops) l ?_ (List.append_assoc ..).symm
  intro j hj
  rcases List.mem_append.mp hj with hj | hj
  · exact hpushed j hj
  · exact hh j hj

private theorem cleanup_cons {c : List Instr} {pushed : List Instr}
    (hpushed : ∀ j ∈ code pushed, j.cleanup)
    (h : ∃ pre l, (∀ i ∈ pre, i.cleanup) ∧
      c = pre ++ [.access .restoreSetted, .access (.takeHolder l)]) :
    Phase (code pushed ++ c) := by
  obtain ⟨pre, l, hp, rfl⟩ := h
  refine .restoring (code pushed ++ pre) l ?_ (List.append_assoc ..).symm
  intro j hj
  rcases List.mem_append.mp hj with hj | hj
  · exact hpushed j hj
  · exact hp j hj

theorem access {cur : Tid} {m m' : Locks} {a : Access} {is c : List Instr}
    (h : Phase (.access a :: c)) (he : a.exec cur m = .ok (m', is)) : Phase (code is ++ c) := by
  have ht := h.tail
  cases a with
  | storePriority p =>
    obtain ⟨-, rfl⟩ := Prod.mk.inj (Except.ok.inj he)
    exact .setted p ht
  | storeSetted p =>
    obtain ⟨-, rfl⟩ := Prod.mk.inj (Except.ok.inj he)
    exact .plain (by simp [show c = [] from ht, code])
  | testHolder l =>
    obtain rfl : c = [] := ht
    simp only [Access.exec] at he
    split at he
    all_goals obtain ⟨-, rfl⟩ := Prod.mk.inj (Except.ok.inj he)
    · exact .reading l rfl
    · exact .donating [] l (by simp) rfl
  | readHolder l =>
    obtain rfl : c = [] := ht
    simp only [Access.exec] at he
    split at he
    · obtain ⟨-, rfl⟩ := Prod.mk.inj (Except.ok.inj he)
      exact .donating [_, _] l (by simp [Instr.hop]) rfl
    · cases he
  | setHolder l =>
    obtain ⟨-, rfl⟩ := Prod.mk.inj (Except.ok.inj he)
    exact .plain (by simp [show c = [] from ht, code])
  | loadDonner d t l =>
    obtain ⟨-, rfl⟩ := Prod.mk.inj (Except.ok.inj he)
    exact hop_cons (by simp [code, Instr.noise, Instr.hop]) ht
  | loadAcceptor d t l p =>
    simp only [Access.exec] at he
    split at he
    all_goals
      obtain ⟨-, rfl⟩ := Prod.mk.inj (Except.ok.inj he)
      exact hop_cons (by simp [code, Instr.noise, Instr.hop]) ht
  | donateLoad d t =>
    obtain ⟨-, rfl⟩ := Prod.mk.inj (Except.ok.inj he)
    exact hop_cons (by simp [code, Instr.noise, Instr.hop]) ht
  | donateStore t p =>
    obtain ⟨-, rfl⟩ := Prod.mk.inj (Except.ok.inj he)
    exact hop_cons (by simp [code]) ht
  | addDonation t d =>
    obtain ⟨-, rfl⟩ := Prod.mk.inj (Except.ok.inj he)
    exact hop_cons (by simp [code]) ht
  | findAndDonate d l =>
    obtain ⟨-, rfl⟩ := Prod.mk.inj (Except.ok.inj he)
    refine hop_cons ?_ ht
    intro j hj
    obtain ⟨r, -, hr⟩ := List.mem_flatMap.mp (mem_code.mp hj).1
    rcases List.mem_pair.mp hr with rfl | rfl <;> rfl
  | assertHolder l =>
    obtain rfl : c = [] := ht
    simp only [Access.exec] at he
    split at he
    · split at he
      · obtain ⟨-, rfl⟩ := Prod.mk.inj (Except.ok.inj he)
        exact .finding l rfl
      · cases he
    · cases he
  | findRecord l =>
    obtain rfl : c = [] := ht
    simp only [Access.exec] at he
    split at he
    · obtain ⟨-, rfl⟩ := Prod.mk.inj (Except.ok.inj he)
      exact .restoring [_] l (by simp [Instr.cleanup]) rfl
    · obtain ⟨-, rfl⟩ := Prod.mk.inj (Except.ok.inj he)
      exact .restoring [_, _, _, _, _, _] l (by simp [Instr.cleanup]) rfl
  | retainLockid t l =>
    obtain ⟨-, rfl⟩ := Prod.mk.inj (Except.ok.inj he)
    exact cleanup_cons (by simp [code]) ht
  | retainDonner t d =>
    obtain ⟨-, rfl⟩ := Prod.mk.inj (Except.ok.inj he)
    exact cleanup_cons (by simp [code]) ht
  | retainAcceptor t d =>
    obtain ⟨-, rfl⟩ := Prod.mk.inj (Except.ok.inj he)
    exact cleanup_cons (by simp [code]) ht
  | updateStoredPrev l p =>
    simp only [Access.exec] at he
    split at he
    all_goals
      obtain ⟨-, rfl⟩ := Prod.mk.inj (Except.ok.inj he)
      exact cleanup_cons (by simp [code]) ht
  | scanRecords =>
    obtain ⟨-, rfl⟩ := Prod.mk.inj (Except.ok.inj he)
    exact cleanup_cons (by simp [code, Instr.noise, Instr.cleanup]) ht
  | restorePriority p =>
    obtain ⟨-, rfl⟩ := Prod.mk.inj (Except.ok.inj he)
    exact cleanup_cons (by simp [code]) ht
  | restoreSetted =>
    obtain ⟨l, rfl⟩ := ht
    simp only [Access.exec] at he
    split at he
    all_goals
      obtain ⟨-, rfl⟩ := Prod.mk.inj (Except.ok.inj he)
      exact .dropping l rfl
  | takeHolder l =>
    obtain rfl : c = [] := ht
    simp only [Access.exec] at he
    split at he
    · obtain ⟨-, rfl⟩ := Prod.mk.inj (Except.ok.inj he)
      exact .upping l rfl
    · cases he

end Phase

/-- The Sleep lock whose semaphore an instruction takes down. -/
def Instr.enters : Instr → Option Nat
  | .down (.inner l) | .downLoop (.inner l) _ => some l
  | _ => none

/-- The Sleep lock a thread waits for, or will wait for once it has donated. -/
def entering (is : List Instr) : Option Nat := is.findSome? Instr.enters

theorem entering_append (is js : List Instr) :
    entering (is ++ js) = (entering is).or (entering js) :=
  List.findSome?_append ..

theorem entering_cons_of_none {i : Instr} (h : i.enters = none) (is : List Instr) :
    entering (i :: is) = entering is := by
  simp [entering, h]

theorem entering_eq_none {is : List Instr} (h : ∀ i ∈ is, i.enters = none) :
    entering is = none := List.findSome?_eq_none_iff.mpr h

theorem enters_of_noise {i : Instr} (h : i.noise) : i.enters = none := by
  cases i <;> first | rfl | cases h

theorem entering_code (is : List Instr) : entering (code is) = entering is := by
  induction is with
  | nil => rfl
  | cons i is ih =>
    cases hn : i.noise with
    | true => rw [code_cons_of_noise hn, ih, entering_cons_of_none (enters_of_noise hn)]
    | false =>
      rw [code_cons_of_not_noise hn]
      simp only [entering, List.findSome?_cons] at ih ⊢
      rw [ih]

/-- A thread inside `down` of a Sleep lock waits for that lock. -/
theorem Phase.entering_of_downLoop {is : List Instr} (h : Phase (code is)) {l : Nat} {old : Bool}
    (hm : .downLoop (.inner l) old ∈ is) : entering is = some l := by
  have hc : .downLoop (.inner l) old ∈ code is := mem_code.mpr ⟨hm, rfl⟩
  rw [← entering_code]
  cases h with
  | plain h => exact (Bool.false_ne_true (h _ hc)).elim
  | waiting l' old' h =>
    rw [h] at hc ⊢
    simp only [List.mem_cons, Instr.downLoop.injEq, SemaId.inner.injEq, reduceCtorEq,
      List.not_mem_nil, or_false] at hc
    rw [hc.1]
    rfl
  | donating hops l' hh h =>
    rw [h] at hc
    rcases List.mem_append.mp hc with hc | hc
    · exact (Bool.false_ne_true (hh _ hc)).elim
    · simp at hc
  | restoring pre l' hp h =>
    rw [h] at hc
    rcases List.mem_append.mp hc with hc | hc
    · exact (Bool.false_ne_true (hp _ hc)).elim
    · simp at hc
  | setting _ h | setted _ h | testing _ h | reading _ h | taking _ h
  | asserting _ h | finding _ h | dropping _ h | upping _ h =>
    rw [h] at hc
    simp at hc

theorem Phase.donating_of_hop {is : List Instr} (h : Phase (code is)) {j : Instr} (hj : j ∈ is)
    (hhop : j.hop) : ∃ hops l, (∀ i ∈ hops, i.hop) ∧
      code is = hops ++ [.down (.inner l), .access (.setHolder l)] := by
  have hjn : j.noise = false := by
    cases j <;> first | rfl | cases hhop
  have hc : j ∈ code is := mem_code.mpr ⟨hj, hjn⟩
  have absent : ∀ k, k.hop = false → j ≠ k := by
    rintro k hk rfl
    rw [hhop] at hk
    cases hk
  cases h with
  | donating hops l hh h => exact ⟨hops, l, hh, h⟩
  | plain h =>
    have hp := h j hc
    cases j with
    | access a => cases hp
    | _ => cases hhop
  | restoring pre l hp h =>
    rw [h] at hc
    rcases List.mem_append.mp hc with hc | hc
    · have hcl := hp j hc
      cases j with
      | access a =>
        cases a <;> first
          | exact (Bool.false_ne_true hcl).elim
          | exact (Bool.false_ne_true hhop).elim
      | _ => cases hhop
    · rcases List.mem_pair.mp hc with hc | hc <;> exact (absent _ rfl hc).elim
  | setting _ h | waiting _ _ h =>
    rw [h] at hc
    rcases List.mem_pair.mp hc with hc | hc <;> exact (absent _ rfl hc).elim
  | setted _ h | testing _ h | reading _ h | taking _ h | asserting _ h | finding _ h
  | dropping _ h | upping _ h =>
    rw [h] at hc
    exact (absent _ rfl (List.mem_singleton.mp hc)).elim

theorem Phase.takeHolder_pending {is : List Instr} (h : Phase (code is))
    (hj : .access .restoreSetted ∈ is) : ∃ l, .access (.takeHolder l) ∈ is := by
  have hc : .access .restoreSetted ∈ code is := mem_code.mpr ⟨hj, rfl⟩
  cases h with
  | restoring pre l hp h =>
    refine ⟨l, (mem_code.mp (?_ : _ ∈ code is)).1⟩
    rw [h]
    simp
  | plain h => cases h _ hc
  | donating hops l hh h =>
    rw [h] at hc
    rcases List.mem_append.mp hc with hc | hc
    · cases hh _ hc
    · simp at hc
  | setting _ h | waiting _ _ h | setted _ h | testing _ h | reading _ h | taking _ h
  | asserting _ h | finding _ h | dropping _ h | upping _ h =>
    rw [h] at hc
    simp at hc

theorem Phase.hop_pending {i : Instr} {rest : List Instr} (h : Phase (code (i :: rest))) {j : Instr}
    (hj : j ∈ i :: rest) (hhop : j.hop) : i.noise ∨ i.hop := by
  obtain ⟨hops, l, hh, he⟩ := h.donating_of_hop hj hhop
  cases hn : i.noise with
  | true => exact .inl rfl
  | false =>
    rw [code_cons_of_not_noise hn] at he
    cases hops with
    | nil =>
      obtain ⟨rfl, hrest⟩ := List.cons.inj he
      have hjn : j.noise = false := by
        cases j <;> first | rfl | cases hhop
      rcases List.mem_cons.mp hj with rfl | hj
      · cases hhop
      · have hc : j ∈ code rest := mem_code.mpr ⟨hj, hjn⟩
        rw [hrest] at hc
        rw [List.mem_singleton.mp hc] at hhop
        cases hhop
    | cons k hops =>
      obtain ⟨rfl, -⟩ := List.cons.inj he
      exact .inr (hh i List.mem_cons_self)

namespace Access

/-- The priority an access stores, and where. -/
def stores (cur : Tid) (m : Locks) : Access → Option (Tid × Nat)
  | .storePriority p | .restorePriority p => some (cur, p)
  | .donateStore t p => some (t, p)
  | .restoreSetted => (m.data cur).prioritySetted.map fun p => (cur, p)
  | _ => none

def sets (cur : Tid) : Access → Option (Nat × Option Tid)
  | .setHolder l => some (l, some cur)
  | .takeHolder l => some (l, none)
  | _ => none

private theorem setPriority_priority (m : Locks) (t : Tid) (p : Nat) :
    (m.setPriority t p).priority = Function.update m.priority t p := by
  funext u
  by_cases hu : u = t
  · subst hu
    simp [Locks.setPriority, Locks.priority]
  · simp [Locks.setPriority, Locks.priority, hu]

private theorem update_priority {m : Locks} {t : Tid} {d : ThreadData}
    (hd : d.priority = (m.data t).priority) :
    Locks.priority { m with data := Function.update m.data t d } = m.priority := by
  funext u
  by_cases hu : u = t
  · subst hu
    simp [Locks.priority, hd]
  · simp [Locks.priority, hu]

variable {cur : Tid} {m m' : Locks} {a : Access} {is : List Instr}

theorem exec_priority (he : a.exec cur m = .ok (m', is)) :
    m'.priority = match a.stores cur m with
      | some (t, p) => Function.update m.priority t p
      | none => m.priority := by
  cases a with
  | storePriority | donateStore | restorePriority =>
    obtain ⟨rfl, -⟩ := Prod.mk.inj (Except.ok.inj he)
    exact setPriority_priority ..
  | storeSetted | addDonation | retainLockid | retainDonner | retainAcceptor =>
    obtain ⟨rfl, -⟩ := Prod.mk.inj (Except.ok.inj he)
    exact update_priority rfl
  | setHolder | loadDonner | donateLoad | findAndDonate | scanRecords =>
    obtain ⟨rfl, -⟩ := Prod.mk.inj (Except.ok.inj he)
    rfl
  | testHolder | readHolder | loadAcceptor | assertHolder | findRecord | takeHolder =>
    simp only [exec] at he
    repeat' split at he
    all_goals cases he
    all_goals rfl
  | updateStoredPrev =>
    simp only [exec] at he
    split at he
    all_goals obtain ⟨rfl, -⟩ := Prod.mk.inj (Except.ok.inj he)
    · exact update_priority rfl
    · rfl
  | restoreSetted =>
    simp only [exec] at he
    split at he
    all_goals
      rename_i hs
      obtain ⟨rfl, -⟩ := Prod.mk.inj (Except.ok.inj he)
      simp only [stores, hs, Option.map]
    exact setPriority_priority ..

theorem exec_holder (he : a.exec cur m = .ok (m', is)) (l : Nat) :
    (m'.sleep l).holder = match a.sets cur with
      | some (l', h) => if l = l' then h else (m.sleep l).holder
      | none => (m.sleep l).holder := by
  cases a with
  | setHolder l' =>
    obtain ⟨rfl, -⟩ := Prod.mk.inj (Except.ok.inj he)
    by_cases hl : l = l'
    · subst hl
      simp [Locks.setHolder, sets]
    · simp [Locks.setHolder, sets, hl]
  | takeHolder l' =>
    simp only [exec] at he
    split at he
    · obtain ⟨rfl, -⟩ := Prod.mk.inj (Except.ok.inj he)
      by_cases hl : l = l'
      · subst hl
        simp [Locks.setHolder, sets]
      · simp [Locks.setHolder, sets, hl]
    · cases he
  | storePriority | donateStore | restorePriority | storeSetted | addDonation | retainLockid
  | retainDonner | retainAcceptor | loadDonner | donateLoad | findAndDonate | scanRecords =>
    obtain ⟨rfl, -⟩ := Prod.mk.inj (Except.ok.inj he)
    rfl
  | testHolder | readHolder | loadAcceptor | assertHolder | findRecord | updateStoredPrev
  | restoreSetted =>
    simp only [exec] at he
    repeat' split at he
    all_goals cases he
    all_goals rfl

/-- Only `set_priority` records a priority, and only of the current thread. -/
theorem exec_setted (he : a.exec cur m = .ok (m', is)) (t : Tid) :
    (m'.data t).prioritySetted = (m.data t).prioritySetted ∨
      (t = cur ∧ ∃ p, a = .storeSetted p ∧ (m'.data t).prioritySetted = some p) := by
  have kept : ∀ (u : Tid) (d : ThreadData), d.prioritySetted = (m.data u).prioritySetted →
      (Function.update m.data u d t).prioritySetted = (m.data t).prioritySetted := by
    intro u d hd
    by_cases ht : t = u
    · subst ht
      rw [Function.update_self, hd]
    · rw [Function.update_of_ne ht]
  cases a with
  | storeSetted p =>
    cases he
    by_cases ht : t = cur
    · subst ht
      exact .inr ⟨rfl, p, rfl, by simp [Locks.setSetted]⟩
    · exact .inl (by simp [Locks.setSetted, ht])
  | storePriority | donateStore | restorePriority | addDonation | retainLockid | retainDonner
  | retainAcceptor =>
    cases he
    exact .inl (kept _ _ rfl)
  | setHolder | loadDonner | donateLoad | findAndDonate | scanRecords =>
    cases he
    exact .inl rfl
  | testHolder | readHolder | loadAcceptor | assertHolder | findRecord | takeHolder =>
    simp only [exec] at he
    repeat' split at he
    all_goals cases he
    all_goals exact .inl rfl
  | updateStoredPrev | restoreSetted =>
    simp only [exec] at he
    split at he
    all_goals cases he
    · exact .inl (kept _ _ rfl)
    · exact .inl rfl

/-- Which accesses make the current thread wait for a Sleep lock. -/
theorem exec_entering (he : a.exec cur m = .ok (m', is)) : entering is = none ∨
    ∃ l, entering is = some l ∧
      ((a = .testHolder l ∧ (m.sleep l).holder = none) ∨
        (a = .readHolder l ∧ ∃ acceptor lockid, (m.sleep l).holder = some acceptor ∧
          .access (.loadDonner cur acceptor lockid) ∈ is)) := by
  cases a with
  | testHolder l =>
    simp only [exec] at he
    split at he
    · cases he
      exact .inl rfl
    · rename_i hnone
      cases he
      exact .inr ⟨l, rfl, .inl ⟨rfl, hnone⟩⟩
  | readHolder l =>
    simp only [exec] at he
    split at he
    · rename_i acceptor hsome
      cases he
      exact .inr ⟨l, rfl, .inr ⟨rfl, acceptor, _, hsome, List.mem_cons_self⟩⟩
    · cases he
  | findAndDonate d l =>
    cases he
    refine .inl (entering_eq_none ?_)
    intro i hi
    obtain ⟨r, -, hr⟩ := List.mem_flatMap.mp hi
    rcases List.mem_pair.mp hr with rfl | rfl <;> rfl
  | storePriority | donateStore | restorePriority | storeSetted | addDonation | retainLockid
  | retainDonner | retainAcceptor | loadDonner | donateLoad | scanRecords | setHolder =>
    cases he
    exact .inl rfl
  | loadAcceptor | assertHolder | findRecord | updateStoredPrev | restoreSetted | takeHolder =>
    simp only [exec] at he
    repeat' split at he
    all_goals cases he
    all_goals exact .inl rfl

/-- Where the instructions come from that take and give up Sleep locks, and those that
store a priority of the current thread. -/
def Origin (cur : Tid) (m : Locks) (a : Access) : Instr → Prop
  | .access (.testHolder _) => False
  | .access (.readHolder l) => a = .testHolder l
  | .access (.setHolder l) => a = .testHolder l ∨ a = .readHolder l
  | .up (.inner l) => a = .takeHolder l
  | .access (.findRecord l) => a = .assertHolder l ∧ (m.sleep l).holder = some cur
  | .access (.takeHolder l) => a = .findRecord l
  | .access (.assertHolder _) => False
  | .access (.restorePriority p) => a = .scanRecords ∧ p =
      (m.data cur).donationq.foldl (fun p i => max p i.donnerPriority) (m.data cur).storedPrev.2
  | .access (.storeSetted _) => False
  | _ => True

theorem exec_origin (he : a.exec cur m = .ok (m', is)) {j : Instr} (hj : j ∈ is) :
    a.Origin cur m j := by
  cases a with
  | storePriority | donateStore | restorePriority | storeSetted | addDonation | retainLockid
  | retainDonner | retainAcceptor | setHolder =>
    cases he
    cases hj
  | loadDonner | donateLoad =>
    cases he
    rw [List.mem_singleton.mp hj]
    trivial
  | scanRecords =>
    cases he
    rw [List.mem_singleton.mp hj]
    exact ⟨rfl, rfl⟩
  | findAndDonate =>
    cases he
    obtain ⟨r, -, hr⟩ := List.mem_flatMap.mp hj
    rcases List.mem_pair.mp hr with rfl | rfl <;> trivial
  | assertHolder l =>
    simp only [exec] at he
    split at he
    · rename_i h hh
      split at he
      · rename_i hc
        cases he
        rw [List.mem_singleton.mp hj]
        exact ⟨rfl, hc ▸ hh⟩
      · cases he
    · cases he
  | updateStoredPrev | restoreSetted =>
    simp only [exec] at he
    split at he
    all_goals
      cases he
      cases hj
  | testHolder l =>
    simp only [exec] at he
    split at he
    · cases he
      rw [List.mem_singleton.mp hj]
      trivial
    · cases he
      rcases List.mem_pair.mp hj with rfl | rfl
      · trivial
      · exact .inl rfl
  | readHolder l =>
    simp only [exec] at he
    split at he
    · cases he
      simp only [List.mem_cons, List.not_mem_nil, or_false] at hj
      rcases hj with rfl | rfl | rfl | rfl
      · trivial
      · trivial
      · trivial
      · exact .inr rfl
    · cases he
  | loadAcceptor =>
    simp only [exec] at he
    split at he
    · cases he
      simp only [List.mem_cons, List.not_mem_nil, or_false] at hj
      rcases hj with rfl | rfl | rfl | rfl <;> trivial
    · cases he
      cases hj
  | findRecord l =>
    simp only [exec] at he
    split at he
    · cases he
      simp only [List.mem_cons, List.not_mem_nil, or_false] at hj
      rcases hj with rfl | rfl | rfl
      · trivial
      · trivial
      · rfl
    · cases he
      simp only [List.cons_append, List.nil_append, List.mem_cons, List.not_mem_nil, or_false] at hj
      rcases hj with rfl | rfl | rfl | rfl | rfl | rfl | rfl | rfl
      all_goals trivial
  | takeHolder l =>
    simp only [exec] at he
    split at he
    · cases he
      rcases List.mem_pair.mp hj with rfl | rfl
      · rfl
      · trivial
    · cases he

/-- A thread learns at once of the semaphore and of the store that follows it. -/
theorem exec_setHolder (he : a.exec cur m = .ok (m', is)) {l : Nat}
    (hj : .access (.setHolder l) ∈ is) : entering is = some l := by
  rcases exec_origin he hj with rfl | rfl
  all_goals
    simp only [exec] at he
    split at he
  · cases he
    simp at hj
  · cases he
    rfl
  · cases he
    rfl
  · cases he

end Access

namespace Kernel

variable {σ : Type} [Schedule σ]

/-- The state in which an instruction executes: it is no longer pending. -/
def pop (k : Kernel σ) (rest : List Instr) : Kernel σ :=
  { k with frames := Function.update k.frames k.current rest }

/-- The pending code when the current thread has `is` and then `rest` to execute. -/
def pending (k : Kernel σ) (is rest : List Instr) : Tid → List Instr :=
  Function.update k.frames k.current (is ++ rest)

omit [Schedule σ] in
@[simp] theorem pending_self (k : Kernel σ) (is rest : List Instr) :
    k.pending is rest k.current = is ++ rest := Function.update_self ..

omit [Schedule σ] in
theorem pending_of_ne (k : Kernel σ) (is rest : List Instr) {t : Tid} (h : t ≠ k.current) :
    k.pending is rest t = k.frames t := Function.update_of_ne h _ _

/-- What the current thread's next instruction does to the data of threads, locks and
semaphores and to the pending code; `rest` follows it. -/
inductive Effect (k : Kernel σ) (rest : List Instr) (k' : Kernel σ) : Instr → Prop where
  | schedule (locks : k'.locks = k.locks) (sema : k'.sema = k.sema)
      (nextTid : k'.nextTid = k.nextTid)
      (frames : (k'.current = k.current ∧ k'.frames = k.pending [] rest) ∨
        k'.frames = k.pending [.restore k.intr] rest) : Effect k rest k' .schedule
  | still (i : Instr) (hi : i.passive) (locks : k'.locks = k.locks) (sema : k'.sema = k.sema)
      (nextTid : k'.nextTid = k.nextTid) (current : k'.current = k.current)
      (frames : k'.frames = k.pending [] rest) : Effect k rest k' i
  | build (p : Nat)
      (locks : k'.locks = { k.locks with
        data := Function.update k.locks.data k.nextTid (.new p) })
      (sema : k'.sema = k.sema) (nextTid : k'.nextTid = k.nextTid + 1)
      (current : k'.current = k.current)
      (frames : k'.frames =
        Function.update (Function.update k.frames k.nextTid [.kernelThread]) k.current
          ([.registerScheduler k.nextTid, .registerAll k.nextTid, .schedule] ++ rest)) :
      Effect k rest k' (.build p)
  | exit (locks : k'.locks = k.locks) (sema : k'.sema = k.sema) (nextTid : k'.nextTid = k.nextTid)
      (current : k'.current = k.current)
      (frames : k'.frames = k.pending [.schedule, .exitReturned] rest) : Effect k rest k' .exit
  | down (s : SemaId) (locks : k'.locks = k.locks) (sema : k'.sema = k.sema)
      (nextTid : k'.nextTid = k.nextTid) (current : k'.current = k.current)
      (frames : k'.frames = k.pending [.downLoop s k.intr] rest) : Effect k rest k' (.down s)
  | block (s : SemaId) (old : Bool) (value : (k.sema s).value = 0) (locks : k'.locks = k.locks)
      (sema : k'.sema = Function.update k.sema s
        { k.sema s with waiters := k.current :: (k.sema s).waiters })
      (nextTid : k'.nextTid = k.nextTid) (current : k'.current = k.current)
      (frames : k'.frames = k.pending [.schedule, .downLoop s old] rest) :
      Effect k rest k' (.downLoop s old)
  | take (s : SemaId) (old : Bool) (value : (k.sema s).value ≠ 0) (locks : k'.locks = k.locks)
      (sema : k'.sema = Function.update k.sema s
        { k.sema s with value := (k.sema s).value - 1 })
      (nextTid : k'.nextTid = k.nextTid) (current : k'.current = k.current)
      (frames : k'.frames = k.pending [] rest) : Effect k rest k' (.downLoop s old)
  | up (s : SemaId) (waiters : List Tid) (sub : waiters.Sublist (k.sema s).waiters)
      (locks : k'.locks = k.locks)
      (sema : k'.sema = Function.update k.sema s ⟨(k.sema s).value + 1, waiters⟩)
      (nextTid : k'.nextTid = k.nextTid) (current : k'.current = k.current)
      (frames : k'.frames = k.pending [] rest ∨
        k'.frames = k.pending [.schedule, .restore k.intr] rest) : Effect k rest k' (.up s)
  | access (a : Access) (is : List Instr) (exec : a.exec k.current k.locks = .ok (k'.locks, is))
      (sema : k'.sema = k.sema) (nextTid : k'.nextTid = k.nextTid)
      (current : k'.current = k.current) (frames : k'.frames = k.pending is rest) :
      Effect k rest k' (.access a)

omit [Schedule σ] in
private theorem push_pop (k : Kernel σ) (rest is : List Instr) :
    ((k.pop rest).push k.current is).frames = k.pending is rest := by
  simp [push, pop, pending]

private theorem schedule_effect {k k' : Kernel σ} {rest : List Instr}
    (h : (k.pop rest).schedule = .ok k') : Effect k rest k' .schedule := by
  obtain ⟨q, -, rfl⟩ | ⟨next, q, -, tail⟩ := schedule_cases h
  · exact .schedule rfl rfl rfl (.inl ⟨rfl, rfl⟩)
  · obtain ⟨-, q', -, rfl⟩ | ⟨all, rfl⟩ := scheduleTail_cases tail
    · exact .schedule rfl rfl rfl (.inr (push_pop k rest [.restore k.intr]))
    · exact .schedule rfl rfl rfl (.inr (push_pop k rest [.restore k.intr]))

private theorem up_effect {k k' : Kernel σ} {rest : List Instr} {s : SemaId}
    (h : (k.pop rest).up s = .ok k') : Effect k rest k' (.up s) := by
  obtain ⟨-, ⟨-, rfl⟩ | ⟨i, p, t, k₁, -, -, -, -, woken, rfl⟩⟩ := up_cases h
  · exact .up s [] (List.nil_sublist _) rfl rfl rfl rfl (.inl rfl)
  · obtain ⟨-, q, -, rfl⟩ := wakeUp_cases woken
    split
    · exact .up s _ (List.eraseIdx_sublist ..) rfl rfl rfl rfl
        (.inr (push_pop k rest [.schedule, .restore k.intr]))
    · exact .up s _ (List.eraseIdx_sublist ..) rfl rfl rfl rfl (.inl rfl)

private theorem execInstr_effect {k k' : Kernel σ} {rest : List Instr} {i : Instr}
    (hne : k.current ≠ k.nextTid) (h : (k.pop rest).execInstr i = .ok k') : Effect k rest k' i := by
  cases i with
  | schedule => exact schedule_effect h
  | restore old =>
    cases h
    exact .still _ rfl rfl rfl rfl rfl rfl
  | kernelThread =>
    cases h
    exact .still _ rfl rfl rfl rfl rfl rfl
  | build p =>
    cases h
    refine .build p rfl rfl rfl rfl ?_
    simp [push, pop, Kernel.build, hne, Function.update_comm hne.symm]
  | registerScheduler t =>
    obtain ⟨q, -, rfl⟩ := register_cases h
    exact .still _ rfl rfl rfl rfl rfl rfl
  | registerAll t =>
    cases h
    exact .still _ rfl rfl rfl rfl rfl rfl
  | exit =>
    cases h
    exact .exit rfl rfl rfl rfl (push_pop k rest [.schedule, .exitReturned])
  | exitReturned => cases h
  | down s =>
    cases h
    exact .down s rfl rfl rfl rfl (push_pop k rest [.downLoop s k.intr])
  | downLoop s old =>
    cases h
    by_cases hv : (k.sema s).value = 0
    · rw [show (k.pop rest).downLoop s old = _ from if_pos hv]
      exact .block s old hv rfl rfl rfl rfl (push_pop k rest [.schedule, .downLoop s old])
    · rw [show (k.pop rest).downLoop s old = _ from if_neg hv]
      exact .take s old hv rfl rfl rfl rfl rfl
  | up s => exact up_effect h
  | access a =>
    simp only [execInstr] at h
    split at h
    · rename_i m is he
      cases h
      exact .access a is he rfl rfl rfl (push_pop k rest is)
    · cases h

theorem execInstr_of_step {k k' : Kernel σ} {i : Instr} {rest : List Instr}
    (hf : k.frames k.current = i :: rest) (h : k.step .exec = some k') :
    (k.pop rest).execInstr i = .ok k' := by
  simp only [step, exec, hf] at h
  split at h
  · rename_i next hn
    split at hn
    · rename_i k₁ hk₁
      cases hn
      cases h
      exact hk₁
    · cases hn
  · cases h

theorem step_exec {k k' : Kernel σ} (hne : k.current ≠ k.nextTid) (h : k.step .exec = some k') :
    ∃ i rest, k.frames k.current = i :: rest ∧ Effect k rest k' i := by
  cases hf : k.frames k.current with
  | nil => simp [step, exec, hf] at h
  | cons i rest => exact ⟨i, rest, rfl, execInstr_effect hne (execInstr_of_step hf h)⟩

/-- Every thread is in one of the phases. -/
def Phased (k : Kernel σ) : Prop := ∀ t, Phase (code (k.frames t))

/-- The priority an instruction stores, and where. -/
def stored (k : Kernel σ) : Instr → Option (Tid × Nat)
  | .access a => a.stores k.current k.locks
  | .build p => some (k.nextTid, p)
  | _ => none

/-- The holder an instruction sets, and of which lock. -/
def held (k : Kernel σ) : Instr → Option (Nat × Option Tid)
  | .access a => a.sets k.current
  | _ => none

namespace Effect

omit [Schedule σ]

variable {k k' : Kernel σ} {rest : List Instr} {i : Instr}

theorem of_access {a : Access} (he : Effect k rest k' (.access a)) :
    ∃ is, a.exec k.current k.locks = .ok (k'.locks, is) ∧ k'.frames = k.pending is rest := by
  cases he with
  | access _ is exec _ _ _ frames => exact ⟨is, exec, frames⟩
  | still _ hi => cases hi

theorem priority (he : Effect k rest k' i) :
    k'.locks.priority = match k.stored i with
      | some (t, p) => Function.update k.locks.priority t p
      | none => k.locks.priority := by
  cases he with
  | access a is exec => exact a.exec_priority exec
  | build p locks =>
    rw [locks]
    funext t
    by_cases ht : t = k.nextTid
    · subst ht
      simp [Locks.priority, stored, ThreadData.new]
    · simp [Locks.priority, stored, ht]
  | still i hi locks =>
    rw [locks]
    cases i <;> first | rfl | cases hi
  | schedule locks | exit locks | down _ locks | block _ _ _ locks | take _ _ _ locks
  | up _ _ _ locks =>
    rw [locks]
    rfl

theorem stored_cases {t : Tid} {p : Nat} (h : k.stored i = some (t, p)) :
    (t = k.current ∧ (i = .access (.storePriority p) ∨ i = .access (.restorePriority p) ∨
      (i = .access .restoreSetted ∧ (k.locks.data k.current).prioritySetted = some p))) ∨
    i = .access (.donateStore t p) ∨ (i = .build p ∧ t = k.nextTid) := by
  cases i with
  | access a =>
    cases a with
    | storePriority | restorePriority =>
      cases h
      exact .inl ⟨rfl, by simp⟩
    | donateStore =>
      cases h
      exact .inr (.inl rfl)
    | restoreSetted =>
      obtain ⟨q, hq, heq⟩ := Option.map_eq_some_iff.mp h
      cases heq
      exact .inl ⟨rfl, .inr (.inr ⟨rfl, hq⟩)⟩
    | _ => cases h
  | build =>
    cases h
    exact .inr (.inr ⟨rfl, rfl⟩)
  | _ => cases h

theorem holder (he : Effect k rest k' i) (l : Nat) :
    (k'.locks.sleep l).holder = match k.held i with
      | some (l', h) => if l = l' then h else (k.locks.sleep l).holder
      | none => (k.locks.sleep l).holder := by
  cases he with
  | access a is exec => exact a.exec_holder exec l
  | still i hi locks =>
    rw [locks]
    cases i <;> first | rfl | cases hi
  | build _ locks | schedule locks | exit locks | down _ locks | block _ _ _ locks
  | take _ _ _ locks | up _ _ _ locks =>
    rw [locks]
    rfl

theorem setted (he : Effect k rest k' i) (t : Tid) :
    (k'.locks.data t).prioritySetted = (k.locks.data t).prioritySetted ∨
      (t = k.current ∧ ∃ p, i = .access (.storeSetted p) ∧
        (k'.locks.data t).prioritySetted = some p) ∨
      (t = k.nextTid ∧ (k'.locks.data t).prioritySetted = none ∧ ∃ p, i = .build p) := by
  cases he with
  | access a is exec =>
    rcases a.exec_setted exec t with same | ⟨rfl, p, rfl, hp⟩
    · exact .inl same
    · exact .inr (.inl ⟨rfl, p, rfl, hp⟩)
  | build p locks =>
    rw [locks]
    by_cases ht : t = k.nextTid
    · subst ht
      exact .inr (.inr ⟨rfl, by simp [ThreadData.new], p, rfl⟩)
    · exact .inl (by simp [ht])
  | still _ _ locks | schedule locks | exit locks | down _ locks | block _ _ _ locks
  | take _ _ _ locks | up _ _ _ locks =>
    rw [locks]
    exact .inl rfl

theorem current (he : Effect k rest k' i) (hi : i ≠ .schedule) : k'.current = k.current := by
  cases he with
  | schedule => exact (hi rfl).elim
  | still _ _ _ _ _ current | build _ _ _ _ current | exit _ _ _ current
  | down _ _ _ _ current | block _ _ _ _ _ _ current | take _ _ _ _ _ _ current
  | up _ _ _ _ _ _ current | access _ _ _ _ _ current => exact current

theorem nextTid_le (he : Effect k rest k' i) : k.nextTid ≤ k'.nextTid := by
  cases he with
  | build _ _ _ nextTid => exact nextTid.symm ▸ Nat.le_succ _
  | schedule _ _ nextTid | still _ _ _ _ nextTid | exit _ _ nextTid | down _ _ _ nextTid
  | block _ _ _ _ _ nextTid | take _ _ _ _ _ nextTid | up _ _ _ _ _ nextTid
  | access _ _ _ _ nextTid => exact nextTid.symm ▸ le_rfl

theorem held_eq {l : Nat} {h : Tid} (hh : k.held i = some (l, some h)) :
    i = .access (.setHolder l) ∧ h = k.current := by
  cases i with
  | access a =>
    cases a with
    | setHolder =>
      cases hh
      exact ⟨rfl, rfl⟩
    | _ => cases hh
  | _ => cases hh

/-- The current thread gets instructions in front of those that were pending. -/
theorem frames_self (he : Effect k rest k' i) : ∃ is, k'.frames k.current = is ++ rest := by
  have self : ∀ is, k'.frames = k.pending is rest → ∃ is, k'.frames k.current = is ++ rest :=
    fun is h => ⟨is, by rw [h, pending_self]⟩
  cases he with
  | schedule _ _ _ frames =>
    rcases frames with ⟨-, frames⟩ | frames
    · exact self _ frames
    · exact self _ frames
  | build _ _ _ _ _ frames => exact ⟨_, by rw [frames]; exact Function.update_self ..⟩
  | up _ _ _ _ _ _ _ frames => exact frames.elim (self _) (self _)
  | still _ _ _ _ _ _ frames | exit _ _ _ _ frames | down _ _ _ _ _ frames
  | block _ _ _ _ _ _ _ frames | take _ _ _ _ _ _ _ frames | access _ _ _ _ _ _ frames =>
    exact self _ frames

theorem frames_other (he : Effect k rest k' i) {t : Tid} (ht : t ≠ k.current) :
    k'.frames t = k.frames t ∨
      (t = k.nextTid ∧ k'.frames t = [.kernelThread] ∧ ∃ p, i = .build p) := by
  have other : ∀ is, k'.frames = k.pending is rest → k'.frames t = k.frames t :=
    fun is h => by rw [h, pending_of_ne k is rest ht]
  cases he with
  | schedule _ _ _ frames =>
    rcases frames with ⟨-, frames⟩ | frames
    · exact .inl (other _ frames)
    · exact .inl (other _ frames)
  | build _ _ _ _ _ frames =>
    rw [frames, Function.update_of_ne ht]
    by_cases hn : t = k.nextTid
    · subst hn
      exact .inr ⟨rfl, Function.update_self .., _, rfl⟩
    · exact .inl (Function.update_of_ne hn _ _)
  | up _ _ _ _ _ _ _ frames => exact .inl (frames.elim (other _) (other _))
  | still _ _ _ _ _ _ frames | exit _ _ _ _ frames | down _ _ _ _ _ frames
  | block _ _ _ _ _ _ _ frames | take _ _ _ _ _ _ _ frames | access _ _ _ _ _ _ frames =>
    exact .inl (other _ frames)

theorem mem_forward (he : Effect k rest k' i) (hf : k.frames k.current = i :: rest)
    (unborn : k.frames k.nextTid = []) {t : Tid} {j : Instr} (hj : j ∈ k.frames t) :
    j ∈ k'.frames t ∨ (t = k.current ∧ i = j) := by
  by_cases ht : t = k.current
  · subst ht
    rw [hf] at hj
    rcases List.mem_cons.mp hj with rfl | hj
    · exact .inr ⟨rfl, rfl⟩
    · obtain ⟨is, his⟩ := he.frames_self
      rw [his]
      exact .inl (List.mem_append_right _ hj)
  · rcases he.frames_other ht with same | ⟨rfl, -⟩
    · exact .inl (same ▸ hj)
    · rw [unborn] at hj
      cases hj

theorem mem_back (he : Effect k rest k' i) (hf : k.frames k.current = i :: rest) {t : Tid}
    {j : Instr} (hj : j ∈ k'.frames t) : j ∈ k.frames t ∨
      (∃ a is, i = .access a ∧ t = k.current ∧ j ∈ is ∧
        a.exec k.current k.locks = .ok (k'.locks, is) ∧ k'.frames = k.pending is rest) ∨
      ∀ a, Access.Origin k.current k.locks a j := by
  have self : ∀ is, k'.frames = k.pending is rest →
      (∀ j ∈ is, ∀ a, Access.Origin k.current k.locks a j) → j ∈ k.frames t ∨
        (∃ a is, i = .access a ∧ t = k.current ∧ j ∈ is ∧
          a.exec k.current k.locks = .ok (k'.locks, is) ∧ k'.frames = k.pending is rest) ∨
        ∀ a, Access.Origin k.current k.locks a j := by
    intro is frames free
    by_cases ht : t = k.current
    · subst ht
      rw [frames, pending_self] at hj
      rcases List.mem_append.mp hj with hj | hj
      · exact .inr (.inr (free j hj))
      · rw [hf]
        exact .inl (List.mem_cons_of_mem i hj)
    · rw [frames, pending_of_ne k is rest ht] at hj
      exact .inl hj
  cases he with
  | access a is exec _ _ _ frames =>
    by_cases ht : t = k.current
    · subst ht
      rw [frames, pending_self] at hj
      rcases List.mem_append.mp hj with hj | hj
      · exact .inr (.inl ⟨a, is, rfl, rfl, hj, exec, frames⟩)
      · rw [hf]
        exact .inl (List.mem_cons_of_mem _ hj)
    · rw [frames, pending_of_ne k is rest ht] at hj
      exact .inl hj
  | schedule _ _ _ frames =>
    rcases frames with ⟨-, frames⟩ | frames
    · exact self _ frames (by simp)
    · exact self _ frames (by simp [Access.Origin])
  | build _ _ _ _ _ frames =>
    rw [frames] at hj
    by_cases ht : t = k.current
    · subst ht
      rw [Function.update_self] at hj
      rcases List.mem_append.mp hj with hj | hj
      · refine .inr (.inr ?_)
        simp only [List.mem_cons, List.not_mem_nil, or_false] at hj
        rcases hj with rfl | rfl | rfl <;> exact fun _ => trivial
      · rw [hf]
        exact .inl (List.mem_cons_of_mem _ hj)
    · rw [Function.update_of_ne ht] at hj
      by_cases hn : t = k.nextTid
      · subst hn
        rw [Function.update_self] at hj
        rw [List.mem_singleton.mp hj]
        exact .inr (.inr fun _ => trivial)
      · rw [Function.update_of_ne hn] at hj
        exact .inl hj
  | up _ _ _ _ _ _ _ frames =>
    rcases frames with frames | frames
    · exact self _ frames (by simp)
    · exact self _ frames (by simp [Access.Origin])
  | still _ _ _ _ _ _ frames | exit _ _ _ _ frames | down _ _ _ _ _ frames
  | block _ _ _ _ _ _ _ frames | take _ _ _ _ _ _ _ frames =>
    exact self _ frames (by simp [Access.Origin])

/-- A thread starts to wait for a lock only after it has read the holder. -/
theorem entering_back (he : Effect k rest k' i) (phased : k.Phased)
    (hf : k.frames k.current = i :: rest) {w : Tid} {l : Nat}
    (hw : entering (k'.frames w) = some l) : entering (k.frames w) = some l ∨ (w = k.current ∧
      ((i = .access (.testHolder l) ∧ (k.locks.sleep l).holder = none) ∨
        (i = .access (.readHolder l) ∧ ∃ acceptor lockid, (k.locks.sleep l).holder = some acceptor ∧
          .access (.loadDonner k.current acceptor lockid) ∈ k'.frames k.current))) := by
  by_cases hc : w = k.current
  · subst hc
    have hi := phased k.current
    rw [hf] at hi ⊢
    have self : ∀ is, k'.frames = k.pending is rest → entering (is ++ rest) = some l := by
      intro is h
      rw [← hw, h, pending_self]
    cases he with
    | schedule _ _ _ frames =>
      rcases frames with ⟨-, frames⟩ | frames
      · exact .inl (self _ frames)
      · exact .inl (self _ frames)
    | still i hp _ _ _ _ frames =>
      refine .inl ?_
      rw [entering_cons_of_none (by cases i <;> first | rfl | cases hp)]
      exact self _ frames
    | build p _ _ _ _ frames =>
      refine .inl ?_
      rw [frames, Function.update_self] at hw
      exact hw
    | exit _ _ _ _ frames => exact .inl (self _ frames)
    | down s _ _ _ _ frames =>
      refine .inl ?_
      cases s <;> exact self _ frames
    | block s _ _ _ _ _ _ frames =>
      refine .inl ?_
      cases s <;> exact self _ frames
    | take s _ _ _ _ _ _ frames =>
      refine .inl ?_
      cases s with
      | user n => exact self _ frames
      | inner l' =>
        have hnone : entering rest = none := by
          rw [← entering_code, show code rest = [.access (.setHolder l')] from hi.tail]
          rfl
        have hsome : entering rest = some l := self _ frames
        rw [hnone] at hsome
        cases hsome
    | up s _ _ _ _ _ _ frames =>
      refine .inl ?_
      rcases frames with frames | frames <;> cases s <;> exact self _ frames
    | access a is exec _ _ _ frames =>
      have hw' := self _ frames
      rw [entering_append] at hw'
      rcases a.exec_entering exec with hnone | ⟨l', hl', hkind⟩
      · rw [hnone] at hw'
        exact .inl hw'
      · rw [hl'] at hw'
        obtain rfl : l' = l := Option.some.inj hw'
        rcases hkind with ⟨rfl, hn⟩ | ⟨rfl, acceptor, lockid, hs, hm⟩
        · exact .inr ⟨rfl, .inl ⟨rfl, hn⟩⟩
        · refine .inr ⟨rfl, .inr ⟨rfl, acceptor, lockid, hs, ?_⟩⟩
          rw [frames, pending_self]
          exact List.mem_append_left _ hm
  · rcases he.frames_other hc with same | ⟨rfl, new, -⟩
    · rw [same] at hw
      exact .inl hw
    · rw [new] at hw
      cases hw

/-- Only the current thread enters a waiters queue, inside `down`. -/
theorem waiters_back (he : Effect k rest k' i) {s : SemaId} {w : Tid}
    (hw : w ∈ (k'.sema s).waiters) : w ∈ (k.sema s).waiters ∨
      (w = k.current ∧ ∃ old, .downLoop s old ∈ k'.frames w) := by
  cases he with
  | block s' old _ _ sema _ _ frames =>
    rw [sema] at hw
    by_cases hs : s = s'
    · subst hs
      rw [Function.update_self] at hw
      rcases List.mem_cons.mp hw with rfl | hw
      · refine .inr ⟨rfl, old, ?_⟩
        rw [frames, pending_self]
        simp
      · exact .inl hw
    · rw [Function.update_of_ne hs] at hw
      exact .inl hw
  | take s' _ _ _ sema =>
    rw [sema] at hw
    by_cases hs : s = s'
    · subst hs
      rw [Function.update_self] at hw
      exact .inl hw
    · rw [Function.update_of_ne hs] at hw
      exact .inl hw
  | up s' _ sub _ sema =>
    rw [sema] at hw
    by_cases hs : s = s'
    · subst hs
      rw [Function.update_self] at hw
      exact .inl (sub.subset hw)
    · rw [Function.update_of_ne hs] at hw
      exact .inl hw
  | schedule _ sema | still _ _ _ sema | build _ _ sema | exit _ sema | down _ _ sema
  | access _ _ _ sema =>
    rw [sema] at hw
    exact .inl hw

end Effect

theorem step_call {k k' : Kernel σ} {c : Call} (h : k.step (.call c) = some k') :
    k.frames k.current = [] ∧ k' = k.push k.current c.code := by
  simp only [step] at h
  split at h
  · rename_i hmay
    simp only [mayCall, Bool.and_eq_true, decide_eq_true_eq] at hmay
    exact ⟨hmay.1.1, (Option.some.inj h).symm⟩
  · cases h

theorem admitted_of_call {k k' : Kernel σ} {c : Call} (h : k.step (.call c) = some k') :
    c.admitted σ := by
  simp only [step] at h
  split at h
  · rename_i hmay
    simp only [mayCall, Bool.and_eq_true] at hmay
    exact hmay.2
  · cases h

omit [Schedule σ] in
theorem mem_push {k : Kernel σ} {t u : Tid} {is : List Instr} {i : Instr} (h : i ∈ k.frames t) :
    i ∈ (k.push u is).frames t := by
  by_cases ht : t = u
  · subst ht
    simp [push, h]
  · simpa [push, ht] using h

omit [Schedule σ] in
theorem push_back {k : Kernel σ} {t u : Tid} {is : List Instr} {i : Instr}
    (h : i ∈ (k.push u is).frames t) : i ∈ is ∨ i ∈ k.frames t := by
  by_cases ht : t = u
  · subst ht
    simpa [push] using h
  · exact .inr (by simpa [push, ht] using h)

theorem step_preempt {k k' : Kernel σ} (h : k.step .preempt = some k') :
    k.intr = true ∧ k' = k.push k.current [.schedule] := by
  simp only [step] at h
  split at h
  · exact ⟨‹_›, (Option.some.inj h).symm⟩
  · cases h

omit [Schedule σ] in
private theorem phased_pending {k : Kernel σ} (h : k.Phased) {is rest : List Instr}
    (hu : Phase (code is ++ code rest)) : ∀ t, Phase (code (k.pending is rest t)) := by
  intro t
  by_cases ht : t = k.current
  · subst ht
    rwa [pending_self, code_append]
  · rw [pending_of_ne k is rest ht]
    exact h t

theorem step_phased {k : Kernel σ} {e : Event} {k' : Kernel σ} (h : k.Phased)
    (hne : k.current ≠ k.nextTid) (hs : k.step e = some k') : k'.Phased := by
  cases e with
  | preempt =>
    obtain ⟨-, rfl⟩ := step_preempt hs
    exact phased_pending h (by simpa [code, Instr.noise] using h k.current)
  | call c =>
    obtain ⟨hnil, rfl⟩ := step_call hs
    refine phased_pending h ?_
    rw [hnil, show code [] = [] from rfl, List.append_nil]
    cases c with
    | spawn | schedule | exit | down | up =>
      exact .plain (by simp [Call.code, code, Instr.noise, Instr.plain])
    | setPriority p => exact .setting p rfl
    | acquire l => exact .testing l rfl
    | release l => exact .asserting l rfl
  | exec =>
    obtain ⟨i, rest, hf, he⟩ := step_exec hne hs
    have hi := h k.current
    rw [hf] at hi
    unfold Phased
    cases he with
    | schedule _ _ _ frames =>
      rcases frames with ⟨-, frames⟩ | frames
      all_goals
        rw [frames]
        exact phased_pending h hi
    | still i hp _ _ _ _ frames =>
      rw [frames]
      refine phased_pending h ?_
      cases i with
      | restore | kernelThread => exact hi
      | registerScheduler | registerAll => exact .plain (hi.plain_tail rfl)
      | _ => cases hp
    | build p _ _ _ _ frames =>
      intro t
      rw [frames]
      by_cases ht : t = k.current
      · subst ht
        rw [Function.update_self, code_append]
        refine .plain ?_
        have hrest : ∀ j ∈ code rest, j.plain := hi.plain_tail rfl
        simpa [code, Instr.noise, Instr.plain] using hrest
      · rw [Function.update_of_ne ht]
        by_cases hn : t = k.nextTid
        · subst hn
          rw [Function.update_self]
          exact .plain (by simp [code, Instr.noise])
        · rw [Function.update_of_ne hn]
          exact h t
    | exit _ _ _ _ frames =>
      rw [frames]
      refine phased_pending h (.plain ?_)
      simpa [code, Instr.noise, Instr.plain] using hi.plain_tail rfl
    | down s _ _ _ _ frames =>
      rw [frames]
      refine phased_pending h ?_
      cases s with
      | user n => exact .plain (by simpa [code, Instr.noise, Instr.plain] using hi.plain_tail rfl)
      | inner l => exact .waiting l k.intr (congrArg (_ :: ·) hi.tail)
    | block s old _ _ _ _ _ frames =>
      rw [frames]
      exact phased_pending h hi
    | take s old _ _ _ _ _ frames =>
      rw [frames]
      refine phased_pending h ?_
      cases s with
      | user n => exact .plain (hi.plain_tail rfl)
      | inner l => exact .taking l hi.tail
    | up s _ _ _ _ _ _ frames =>
      have hrest : ∀ j ∈ code rest, j.plain := by
        cases s with
        | user n => exact hi.plain_tail rfl
        | inner l =>
          rw [show code rest = [] from hi.tail]
          simp
      rcases frames with frames | frames
      all_goals
        rw [frames]
        exact phased_pending h (.plain hrest)
    | access a is exec _ _ _ frames =>
      rw [frames]
      exact phased_pending h (hi.access exec)

/-- The manager's invariant, with the code of the threads that wait and of those that hold. -/
structure Wired [LawfulSchedule σ] (k : Kernel σ) : Prop where
  manager : k.ManagerInv
  phased : k.Phased
  waits : ∀ s w, w ∈ (k.sema s).waiters → ∃ old, .downLoop s old ∈ k.frames w
  holder_lt : ∀ l h, (k.locks.sleep l).holder = some h → h < k.nextTid

namespace Wired

variable [LawfulSchedule σ] {k k' : Kernel σ} {rest : List Instr} {i : Instr}

theorem current_ne (h : k.Wired) : k.current ≠ k.nextTid := h.manager.core.current_lt.ne

theorem unborn (h : k.Wired) : k.frames k.nextTid = [] := (h.manager.core.fresh _ le_rfl).2

/-- A thread in a waiters queue keeps its place inside `down`. -/
private theorem waits_keep (h : k.Wired) (hf : k.frames k.current = i :: rest)
    (he : Effect k rest k' i) {s : SemaId} {w : Tid} (hw : w ∈ (k.sema s).waiters) :
    ∃ old, .downLoop s old ∈ k'.frames w := by
  obtain ⟨old, hold⟩ := h.waits s w hw
  refine ⟨old, ?_⟩
  by_cases hc : w = k.current
  · subst hc
    -- the thread has marked itself as blocked and is about to pass the processor on
    have blocked := h.manager.core.mem_waiters s k.current hw
    obtain ⟨is, his⟩ := he.frames_self
    rcases h.manager.settled with hr | ⟨-, rest', hf'⟩
    · rw [hr] at blocked
      cases blocked
    · rw [hf] at hf' hold
      obtain ⟨rfl, -⟩ := List.cons.inj hf'
      rw [his]
      exact List.mem_append_right _ ((List.mem_cons.mp hold).resolve_left (by simp))
  · rcases he.frames_other hc with same | ⟨rfl, -⟩
    · rwa [same]
    · rw [h.unborn] at hold
      cases hold

theorem step {e : Event} (h : k.Wired) (hs : k.step e = some k') : k'.Wired where
  manager := step_managerInv k e k' h.manager hs
  phased := step_phased h.phased h.current_ne hs
  waits := by
    intro s w hw
    cases e with
    | exec =>
      obtain ⟨i, rest, hf, he⟩ := step_exec h.current_ne hs
      rcases he.waiters_back hw with hw | ⟨-, new⟩
      · exact waits_keep h hf he hw
      · exact new
    | call c =>
      obtain ⟨-, rfl⟩ := step_call hs
      obtain ⟨old, hold⟩ := h.waits s w hw
      exact ⟨old, mem_push hold⟩
    | preempt =>
      obtain ⟨-, rfl⟩ := step_preempt hs
      obtain ⟨old, hold⟩ := h.waits s w hw
      exact ⟨old, mem_push hold⟩
  holder_lt := by
    intro l v hv
    cases e with
    | exec =>
      obtain ⟨i, rest, hf, he⟩ := step_exec h.current_ne hs
      refine Nat.lt_of_lt_of_le ?_ he.nextTid_le
      rw [he.holder l] at hv
      revert hv
      split
      · split
        · rename_i l' x hheld hl
          intro hx
          rw [hx] at hheld
          rw [(Effect.held_eq hheld).2]
          exact h.manager.core.current_lt
        · exact h.holder_lt l v
      · exact h.holder_lt l v
    | call c =>
      obtain ⟨-, rfl⟩ := step_call hs
      exact h.holder_lt l v hv
    | preempt =>
      obtain ⟨-, rfl⟩ := step_preempt hs
      exact h.holder_lt l v hv

end Wired

/-- `Manager::get` only completes the ready queue and the list of all threads. -/
theorem init_eq {intr : Bool} {value lockid : Nat → Nat} {k : Kernel σ}
    (h : init intr value lockid = .ok k) :
    ∃ q all, k = { (boot intr value lockid : Kernel σ) with scheduler := q, all := all } := by
  unfold init at h
  split at h
  · rename_i k₁ hk₁
    obtain ⟨q, -, rfl⟩ := register_cases hk₁
    cases h
    exact ⟨q, _, rfl⟩
  · cases h

theorem init_wired [LawfulSchedule σ] {intr : Bool} {value lockid : Nat → Nat} {k : Kernel σ}
    (h : init intr value lockid = .ok k) : k.Wired := by
  obtain ⟨k', hk', manager⟩ := init_managerInv (σ := σ) intr value lockid
  obtain rfl : k' = k := by
    rw [h] at hk'
    exact (Except.ok.inj hk').symm
  obtain ⟨q, all, rfl⟩ := init_eq h
  refine ⟨manager, fun t => .plain ?_, ?_, ?_⟩
  · intro i hi
    obtain ⟨hi, hn⟩ := mem_code.mp hi
    have hi : i ∈ (boot intr value lockid : Kernel σ).frames t := hi
    rw [boot_frames hi] at hn
    cases hn
  · intro s w hw
    cases s <;> cases hw
  · intro l h hl
    cases hl

end Kernel

end Tacos.Thread
