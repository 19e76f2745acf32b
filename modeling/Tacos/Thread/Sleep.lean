/- GID: Tacos/Thread/Sleep
   generality: G
   source: src/sync/sleep.rs, src/sync/sema.rs
   digest: A Sleep lock is free, taken, held or freed, and at most one thread is involved. -/

import Tacos.Thread.Code

set_option autoImplicit false
set_option relaxedAutoImplicit false

namespace Tacos.Thread

namespace Kernel

variable {σ : Type} [Schedule σ]

/-- `t` has passed `down` and has still to write itself into the lock. -/
def Taking (k : Kernel σ) (t : Tid) (l : Nat) : Prop :=
  .access (.setHolder l) ∈ k.frames t ∧ entering (k.frames t) = none

/-- `t` has taken itself out of the lock and has still to call `up`. -/
def Freeing (k : Kernel σ) (t : Tid) (l : Nat) : Prop := .up (.inner l) ∈ k.frames t

/-- `t` has passed the assertion of `release` and is still written in the lock. -/
def Releasing (k : Kernel σ) (t : Tid) (l : Nat) : Prop :=
  .access (.findRecord l) ∈ k.frames t ∨ .access (.takeHolder l) ∈ k.frames t

/-- `h` holds lock `l` and is not about to give it up. -/
def Holds (k : Kernel σ) (h : Tid) (l : Nat) : Prop :=
  (k.locks.sleep l).holder = some h ∧ .access (.takeHolder l) ∉ k.frames h

instance (k : Kernel σ) (h : Tid) (l : Nat) : Decidable (k.Holds h l) :=
  inferInstanceAs (Decidable (_ ∧ _))

/-- The four states of a Sleep lock. -/
inductive LockState (k : Kernel σ) (l : Nat) : Prop where
  | free (value : (k.sema (.inner l)).value = 1) (holder : (k.locks.sleep l).holder = none)
      (taking : ∀ t, ¬ k.Taking t l) (freeing : ∀ t, ¬ k.Freeing t l)
  | taken (t : Tid) (value : (k.sema (.inner l)).value = 0)
      (holder : (k.locks.sleep l).holder = none) (taking : ∀ u, k.Taking u l ↔ u = t)
      (freeing : ∀ t, ¬ k.Freeing t l)
  | held (t : Tid) (value : (k.sema (.inner l)).value = 0)
      (holder : (k.locks.sleep l).holder = some t) (taking : ∀ t, ¬ k.Taking t l)
      (freeing : ∀ t, ¬ k.Freeing t l)
  | freed (t : Tid) (value : (k.sema (.inner l)).value = 0)
      (holder : (k.locks.sleep l).holder = none) (taking : ∀ t, ¬ k.Taking t l)
      (freeing : ∀ u, k.Freeing u l ↔ u = t)

/-- Every Sleep lock is in one of its states, and only its holder releases it. -/
structure Exclusive [LawfulSchedule σ] (k : Kernel σ) : Prop where
  wired : k.Wired
  state : ∀ l, k.LockState l
  releasing : ∀ t l, k.Releasing t l → (k.locks.sleep l).holder = some t

section Step

omit [Schedule σ]

variable {k k' : Kernel σ} {rest : List Instr} {i : Instr}

/-- The value of a Sleep lock's semaphore changes only when it is taken or given up. -/
private theorem value_eq (he : Effect k rest k' i) {l : Nat}
    (hdown : ∀ old, i ≠ .downLoop (.inner l) old) (hup : i ≠ .up (.inner l)) :
    (k'.sema (.inner l)).value = (k.sema (.inner l)).value := by
  cases he with
  | block s _ _ _ sema | take s _ _ _ sema | up s _ _ _ sema =>
    rw [sema]
    by_cases hs : .inner l = s
    · subst hs
      first
        | exact (hdown _ rfl).elim
        | exact (hup rfl).elim
    · rw [Function.update_of_ne hs]
  | schedule _ sema | still _ _ _ sema | build _ _ sema | exit _ sema | down _ _ sema
  | access _ _ _ sema => rw [sema]

/-- The holder of a Sleep lock changes only by the two stores of `acquire` and `release`. -/
theorem holder_eq (he : Effect k rest k' i) {l : Nat}
    (hset : i ≠ .access (.setHolder l)) (htake : i ≠ .access (.takeHolder l)) :
    (k'.locks.sleep l).holder = (k.locks.sleep l).holder := by
  rw [he.holder l]
  cases i with
  | access a =>
    cases a with
    | setHolder l' =>
      have : l ≠ l' := fun e => hset (e ▸ rfl)
      simp [held, Access.sets, this]
    | takeHolder l' =>
      have : l ≠ l' := fun e => htake (e ▸ rfl)
      simp [held, Access.sets, this]
    | _ => rfl
  | _ => rfl

/-- A thread that has to write itself into the lock has done nothing else since `down`. -/
private theorem Taking.code_eq (phased : k.Phased) {t : Tid} {l : Nat} (h : k.Taking t l) :
    code (k.frames t) = [.access (.setHolder l)] := by
  have hc : .access (.setHolder l) ∈ code (k.frames t) := mem_code.mpr ⟨h.1, rfl⟩
  have hn := h.2
  rw [← entering_code] at hn
  cases phased t with
  | plain h => cases h _ hc
  | taking l' h =>
    rw [h, List.mem_singleton] at hc
    rw [h, hc]
  | donating hops l' hh h =>
    rw [h, entering_append, Option.or_eq_none_iff] at hn
    cases hn.2
  | waiting l' old h =>
    rw [h] at hn
    cases hn
  | restoring pre l' hp h =>
    rw [h] at hc
    rcases List.mem_append.mp hc with hc | hc
    · cases hp _ hc
    · simp at hc
  | setting _ h | setted _ h | testing _ h | reading _ h | asserting _ h | finding _ h
  | dropping _ h | upping _ h =>
    rw [h] at hc
    simp at hc

theorem taking_back (he : Effect k rest k' i) (phased : k.Phased)
    (hf : k.frames k.current = i :: rest) {t : Tid} {l : Nat} (h : k'.Taking t l) :
    k.Taking t l ∨ (t = k.current ∧ ∃ old, i = .downLoop (.inner l) old) := by
  rcases he.mem_back hf h.1 with old | ⟨a, is, rfl, rfl, hj, exec, frames⟩ | free
  · by_cases hc : t = k.current
    · subst hc
      cases hent : entering (k.frames k.current) with
      | none => exact .inl ⟨old, hent⟩
      | some l' =>
        refine .inr ⟨rfl, ?_⟩
        have hnone := h.2
        obtain ⟨is, his⟩ := he.frames_self
        rw [his, entering_append, Option.or_eq_none_iff] at hnone
        have hphase := phased k.current
        rw [hf] at old hent hphase
        cases i with
        | downLoop s o =>
          cases s with
          | user n =>
            rw [entering_cons_of_none rfl, hnone.2] at hent
            cases hent
          | inner x =>
            have hm := (List.mem_cons.mp old).resolve_left (by simp)
            have hc : .access (.setHolder l) ∈ code rest := mem_code.mpr ⟨hm, rfl⟩
            rw [show code rest = [.access (.setHolder x)] from hphase.tail] at hc
            obtain rfl : l = x := by simpa using hc
            exact ⟨o, rfl⟩
        | down s =>
          cases s with
          | user n =>
            rw [entering_cons_of_none rfl, hnone.2] at hent
            cases hent
          | inner x =>
            have hent' := h.2
            cases he with
            | still _ hp => cases hp
            | down _ _ _ _ _ frames =>
              rw [frames, pending_self] at hent'
              cases hent'
        | _ =>
          rw [entering_cons_of_none rfl, hnone.2] at hent
          cases hent
    · rcases he.frames_other hc with same | ⟨rfl, new, -⟩
      · have hent := h.2
        rw [same] at hent
        exact .inl ⟨old, hent⟩
      · have hm := h.1
        rw [new] at hm
        simp at hm
  · have hent := h.2
    rw [frames, pending_self, entering_append, a.exec_setHolder exec hj] at hent
    cases hent
  · rcases free (.setHolder l) with h | h <;> cases h

theorem taking_forward (he : Effect k rest k' i) (phased : k.Phased)
    (hf : k.frames k.current = i :: rest) (unborn : k.frames k.nextTid = []) {t : Tid} {l : Nat}
    (h : k.Taking t l) : k'.Taking t l ∨ (t = k.current ∧ i = .access (.setHolder l)) := by
  rcases he.mem_forward hf unborn h.1 with hm | ⟨rfl, rfl⟩
  · by_cases hset : t = k.current ∧ i = .access (.setHolder l)
    · exact .inr hset
    · refine .inl ⟨hm, ?_⟩
      cases hent : entering (k'.frames t) with
      | none => rfl
      | some l' =>
        rcases he.entering_back phased hf hent with old | ⟨rfl, kind⟩
        · rw [h.2] at old
          cases old
        · have hcode := h.code_eq phased
          rw [hf] at hcode
          rcases kind with ⟨rfl, -⟩ | ⟨rfl, -⟩ <;> cases hcode
  · exact .inr ⟨rfl, rfl⟩

theorem freeing_back (he : Effect k rest k' i) (hf : k.frames k.current = i :: rest)
    {t : Tid} {l : Nat} (h : k'.Freeing t l) :
    k.Freeing t l ∨ (t = k.current ∧ i = .access (.takeHolder l)) := by
  rcases he.mem_back hf h with old | ⟨a, is, rfl, rfl, hj, exec, -⟩ | free
  · exact .inl old
  · exact .inr ⟨rfl, congrArg Instr.access (a.exec_origin exec hj)⟩
  · cases free (.setHolder l)

theorem freeing_forward (he : Effect k rest k' i) (hf : k.frames k.current = i :: rest)
    (unborn : k.frames k.nextTid = []) {t : Tid} {l : Nat} (h : k.Freeing t l) :
    k'.Freeing t l ∨ (t = k.current ∧ i = .up (.inner l)) :=
  he.mem_forward hf unborn h

end Step

section Exclusion

variable [LawfulSchedule σ] {k k' : Kernel σ} {rest : List Instr} {i : Instr}

/-- A step that neither takes nor gives up the lock keeps its state. -/
private theorem state_same (h : k.Exclusive) (hf : k.frames k.current = i :: rest)
    (he : Effect k rest k' i) {l : Nat} (hdown : ∀ old, i ≠ .downLoop (.inner l) old)
    (hset : i ≠ .access (.setHolder l)) (htake : i ≠ .access (.takeHolder l))
    (hup : i ≠ .up (.inner l)) : k'.LockState l := by
  have value := value_eq he hdown hup
  have holder := holder_eq he hset htake
  have taking : ∀ t, k'.Taking t l ↔ k.Taking t l := by
    intro t
    constructor
    · intro ht
      refine (taking_back he h.wired.phased hf ht).resolve_right ?_
      rintro ⟨-, old, hi⟩
      exact hdown old hi
    · intro ht
      refine (taking_forward he h.wired.phased hf h.wired.unborn ht).resolve_right ?_
      exact fun hi => hset hi.2
  have freeing : ∀ t, k'.Freeing t l ↔ k.Freeing t l := by
    intro t
    constructor
    · intro ht
      exact (freeing_back he hf ht).resolve_right fun hi => htake hi.2
    · intro ht
      exact (freeing_forward he hf h.wired.unborn ht).resolve_right fun hi => hup hi.2
  cases h.state l with
  | free v o t f =>
    exact .free (value.trans v) (holder.trans o) (fun u hu => t u ((taking u).mp hu))
      fun u hu => f u ((freeing u).mp hu)
  | taken w v o t f =>
    exact .taken w (value.trans v) (holder.trans o) (fun u => (taking u).trans (t u))
      fun u hu => f u ((freeing u).mp hu)
  | held w v o t f =>
    exact .held w (value.trans v) (holder.trans o) (fun u hu => t u ((taking u).mp hu))
      fun u hu => f u ((freeing u).mp hu)
  | freed w v o t f =>
    exact .freed w (value.trans v) (holder.trans o) (fun u hu => t u ((taking u).mp hu))
      fun u => (freeing u).trans (f u)

/-- A turn of the loop in `down` blocks the thread or gives it the free lock. -/
private theorem state_down {l : Nat} {old : Bool} (h : k.Exclusive)
    (hf : k.frames k.current = .downLoop (.inner l) old :: rest)
    (he : Effect k rest k' (.downLoop (.inner l) old)) : k'.LockState l := by
  have holder := holder_eq he (l := l) (by simp) (by simp)
  have freeing : ∀ t, k'.Freeing t l ↔ k.Freeing t l := fun t =>
    ⟨fun ht => (freeing_back he hf ht).resolve_right (by simp),
      fun ht => (freeing_forward he hf h.wired.unborn ht).resolve_right (by simp)⟩
  have back : ∀ t, k'.Taking t l → k.Taking t l ∨ t = k.current := fun t ht =>
    (taking_back he h.wired.phased hf ht).imp id And.left
  have forward : ∀ t, k.Taking t l → k'.Taking t l := fun t ht =>
    (taking_forward he h.wired.phased hf h.wired.unborn ht).resolve_right (by simp)
  have code := h.wired.phased k.current
  rw [hf] at code
  have hrest : Tacos.Thread.code rest = [.access (.setHolder l)] := code.tail
  cases he with
  | still _ hp => cases hp
  | block _ _ value _ sema _ _ frames =>
    have hvalue : (k'.sema (.inner l)).value = 0 := by
      rw [sema, Function.update_self]
      exact value
    have notTaking : ¬ k'.Taking k.current l := by
      intro ht
      have := ht.2
      rw [frames, pending_self] at this
      cases this
    have taking : ∀ t, k'.Taking t l ↔ k.Taking t l := by
      intro t
      refine ⟨fun ht => (back t ht).resolve_right ?_, forward t⟩
      rintro rfl
      exact notTaking ht
    cases h.state l with
    | free v o t f =>
      rw [value] at v
      cases v
    | taken w v o t f =>
      exact .taken w hvalue (holder.trans o) (fun u => (taking u).trans (t u))
        fun u hu => f u ((freeing u).mp hu)
    | held w v o t f =>
      exact .held w hvalue (holder.trans o) (fun u hu => t u ((taking u).mp hu))
        fun u hu => f u ((freeing u).mp hu)
    | freed w v o t f =>
      exact .freed w hvalue (holder.trans o) (fun u hu => t u ((taking u).mp hu))
        fun u => (freeing u).trans (f u)
  | take _ _ value _ sema _ _ frames =>
    cases h.state l with
    | free v o t f =>
      refine .taken k.current ?_ (holder.trans o) ?_ fun u hu => f u ((freeing u).mp hu)
      · rw [sema, Function.update_self]
        simp [v]
      · intro u
        constructor
        · exact fun hu => (back u hu).resolve_left (t u)
        · rintro rfl
          have hm : .access (.setHolder l) ∈ Tacos.Thread.code rest := by
            rw [hrest]
            exact List.mem_singleton_self _
          have hnone : entering rest = none := by
            rw [← entering_code, hrest]
            rfl
          refine ⟨?_, ?_⟩
          · rw [frames, pending_self]
            exact (mem_code.mp hm).1
          · rw [frames, pending_self]
            exact hnone
    | taken _ v | held _ v | freed _ v => exact (value v).elim

theorem state_set {l : Nat} (h : k.Exclusive)
    (hf : k.frames k.current = .access (.setHolder l) :: rest)
    (he : Effect k rest k' (.access (.setHolder l))) :
    (k.locks.sleep l).holder = none ∧ k'.LockState l := by
  have code := h.wired.phased k.current
  rw [hf] at code
  have hrest : Tacos.Thread.code rest = [] := code.tail
  have hnone : entering rest = none := by
    rw [← entering_code, hrest]
    rfl
  have taker : k.Taking k.current l := by
    refine ⟨by rw [hf]; exact List.mem_cons_self, ?_⟩
    rw [hf, entering_cons_of_none rfl, hnone]
  have value := value_eq he (l := l) (by simp) (by simp)
  have holder : (k'.locks.sleep l).holder = some k.current := by
    rw [he.holder l]
    simp [Kernel.held, Access.sets]
  have back : ∀ t, k'.Taking t l → k.Taking t l := fun t ht =>
    (taking_back he h.wired.phased hf ht).resolve_right (by simp)
  have written : ¬ k'.Taking k.current l := by
    intro ht
    obtain ⟨is, exec, frames⟩ := he.of_access
    have hm := ht.1
    cases (Prod.mk.inj (Except.ok.inj exec)).2
    rw [frames, pending_self] at hm
    have hc : .access (.setHolder l) ∈ Tacos.Thread.code rest := mem_code.mpr ⟨hm, rfl⟩
    rw [hrest] at hc
    cases hc
  have freeing : ∀ t, k'.Freeing t l → k.Freeing t l := fun t ht =>
    (freeing_back he hf ht).resolve_right (by simp)
  cases h.state l with
  | free v o t f => exact (t _ taker).elim
  | taken w v o t f =>
    refine ⟨o, .held k.current (value.trans v) holder ?_ fun u hu => f u (freeing u hu)⟩
    intro u hu
    have hw := (t k.current).mp taker
    have hu' := (t u).mp (back u hu)
    rw [← hw] at hu'
    exact written (hu' ▸ hu)
  | held w v o t f => exact (t _ taker).elim
  | freed w v o t f => exact (t _ taker).elim

private theorem state_take {l : Nat} (h : k.Exclusive)
    (hf : k.frames k.current = .access (.takeHolder l) :: rest)
    (he : Effect k rest k' (.access (.takeHolder l))) : k'.LockState l := by
  have holder : (k.locks.sleep l).holder = some k.current :=
    h.releasing k.current l (.inr (by rw [hf]; exact List.mem_cons_self))
  have value := value_eq he (l := l) (by simp) (by simp)
  have taking : ∀ t, k'.Taking t l → k.Taking t l := fun t ht =>
    (taking_back he h.wired.phased hf ht).resolve_right (by simp)
  obtain ⟨is, exec, frames⟩ := he.of_access
  simp only [Access.exec, holder, Except.ok.injEq, Prod.mk.injEq] at exec
  obtain ⟨-, rfl⟩ := exec
  cases h.state l with
  | free v o t f =>
    rw [holder] at o
    cases o
  | taken w v o t f =>
    rw [holder] at o
    cases o
  | freed w v o t f =>
    rw [holder] at o
    cases o
  | held w v o t f =>
    refine .freed k.current (value.trans v) ?_ (fun u hu => t u (taking u hu)) ?_
    · rw [he.holder l]
      simp [Kernel.held, Access.sets]
    · intro u
      constructor
      · exact fun hu => ((freeing_back he hf hu).resolve_left (f u)).1
      · rintro rfl
        unfold Freeing
        rw [frames, pending_self]
        exact List.mem_cons_self

/-- `up` makes the lock free again. -/
private theorem state_up {l : Nat} (h : k.Exclusive)
    (hf : k.frames k.current = .up (.inner l) :: rest) (he : Effect k rest k' (.up (.inner l))) :
    k'.LockState l := by
  have code := h.wired.phased k.current
  rw [hf] at code
  have hrest : Tacos.Thread.code rest = [] := code.tail
  have freer : k.Freeing k.current l := by
    unfold Freeing
    rw [hf]
    exact List.mem_cons_self
  have holder := holder_eq he (l := l) (by simp) (by simp)
  have taking : ∀ t, k'.Taking t l → k.Taking t l := fun t ht =>
    (taking_back he h.wired.phased hf ht).resolve_right (by simp)
  have freeing : ∀ t, k'.Freeing t l → k.Freeing t l := fun t ht =>
    (freeing_back he hf ht).resolve_right (by simp)
  have done : ¬ k'.Freeing k.current l := by
    intro ht
    unfold Freeing at ht
    have hm : .up (.inner l) ∈ Tacos.Thread.code (k'.frames k.current) := mem_code.mpr ⟨ht, rfl⟩
    cases he with
    | still _ hp => cases hp
    | up _ _ _ _ _ _ _ frames =>
      rcases frames with frames | frames
      all_goals
        rw [frames, pending_self, code_append, hrest] at hm
        cases hm
  have value : (k'.sema (.inner l)).value = (k.sema (.inner l)).value + 1 := by
    cases he with
    | still _ hp => cases hp
    | up _ _ _ _ sema => rw [sema, Function.update_self]
  cases h.state l with
  | free v o t f => exact (f _ freer).elim
  | taken w v o t f => exact (f _ freer).elim
  | held w v o t f => exact (f _ freer).elim
  | freed w v o t f =>
    refine .free (by rw [value, v]) (holder.trans o) (fun u hu => t u (taking u hu)) ?_
    intro u hu
    have hw := (f k.current).mp freer
    have hu' := (f u).mp (freeing u hu)
    rw [← hw] at hu'
    exact done (hu' ▸ hu)

/-- The step lemma for one executed instruction. -/
private theorem exec_exclusive (h : k.Exclusive) (hs : k.step .exec = some k') : k'.Exclusive := by
  obtain ⟨i, rest, hf, he⟩ := step_exec h.wired.current_ne hs
  refine ⟨h.wired.step hs, ?_, ?_⟩
  · intro l
    by_cases hdown : ∃ old, i = .downLoop (.inner l) old
    · obtain ⟨old, rfl⟩ := hdown
      exact state_down h hf he
    · by_cases hset : i = .access (.setHolder l)
      · subst hset
        exact (state_set h hf he).2
      · by_cases htake : i = .access (.takeHolder l)
        · subst htake
          exact state_take h hf he
        · by_cases hup : i = .up (.inner l)
          · subst hup
            exact state_up h hf he
          · exact state_same h hf he (fun old hi => hdown ⟨old, hi⟩) hset htake hup
  · intro t l hr
    have before : (k.locks.sleep l).holder = some t := by
      rcases hr with hr | hr
      · rcases he.mem_back hf hr with old | ⟨a, is, rfl, rfl, hj, exec, -⟩ | free
        · exact h.releasing t l (.inl old)
        · exact (a.exec_origin exec hj).2
        · cases (free (.setHolder l)).1
      · rcases he.mem_back hf hr with old | ⟨a, is, rfl, rfl, hj, exec, -⟩ | free
        · exact h.releasing t l (.inr old)
        · obtain rfl := a.exec_origin exec hj
          exact h.releasing k.current l (.inl (by rw [hf]; exact List.mem_cons_self))
        · cases free (.setHolder l)
    by_cases hset : i = .access (.setHolder l)
    · subst hset
      rw [(state_set h hf he).1] at before
      cases before
    · by_cases htake : i = .access (.takeHolder l)
      · subst htake
        -- the thread that gave the lock up has nothing left to release
        have holder := h.releasing k.current l (.inr (by rw [hf]; exact List.mem_cons_self))
        obtain rfl : t = k.current := by
          rw [holder] at before
          exact (Option.some.inj before).symm
        have code := h.wired.phased k.current
        rw [hf] at code
        have hrest : Tacos.Thread.code rest = [] := code.tail
        obtain ⟨is, exec, frames⟩ := he.of_access
        simp only [Access.exec, holder, Except.ok.injEq, Prod.mk.injEq] at exec
        obtain ⟨-, rfl⟩ := exec
        have hcode : Tacos.Thread.code (k'.frames k.current) = [.up (.inner l)] := by
          rw [frames, pending_self, code_append, hrest]
          rfl
        rcases hr with hr | hr
        all_goals
          have hm := mem_code.mpr ⟨hr, rfl⟩
          rw [hcode] at hm
          simp at hm
      · rw [holder_eq he hset htake]
        exact before

/-- Inserting instructions that neither take nor give up a lock. -/
private theorem push_exclusive (h : k.Exclusive) {is : List Instr}
    (wired : (k.push k.current is).Wired) (hent : entering is = none)
    (hset : ∀ l, .access (.setHolder l) ∉ is) (hup : ∀ l, .up (.inner l) ∉ is)
    (hfind : ∀ l, .access (.findRecord l) ∉ is) (htake : ∀ l, .access (.takeHolder l) ∉ is) :
    (k.push k.current is).Exclusive := by
  have mem : ∀ t j, j ∉ is → (j ∈ (k.push k.current is).frames t ↔ j ∈ k.frames t) := by
    intro t j hj
    by_cases ht : t = k.current
    · subst ht
      simp [push, hj]
    · simp [push, ht]
  have same : ∀ t, entering ((k.push k.current is).frames t) = entering (k.frames t) := by
    intro t
    by_cases ht : t = k.current
    · subst ht
      simp [push, entering_append, hent]
    · simp [push, ht]
  have taking : ∀ t l, (k.push k.current is).Taking t l ↔ k.Taking t l := fun t l =>
    and_congr (mem t _ (hset l)) (by rw [same])
  have freeing : ∀ t l, (k.push k.current is).Freeing t l ↔ k.Freeing t l := fun t l =>
    mem t _ (hup l)
  refine ⟨wired, ?_, ?_⟩
  · intro l
    cases h.state l with
    | free v o t f =>
      exact .free v o (fun u hu => t u ((taking u l).mp hu)) fun u hu => f u ((freeing u l).mp hu)
    | taken w v o t f =>
      exact .taken w v o (fun u => (taking u l).trans (t u)) fun u hu => f u ((freeing u l).mp hu)
    | held w v o t f =>
      exact .held w v o (fun u hu => t u ((taking u l).mp hu)) fun u hu => f u ((freeing u l).mp hu)
    | freed w v o t f =>
      exact .freed w v o (fun u hu => t u ((taking u l).mp hu)) fun u => (freeing u l).trans (f u)
  · intro t l hr
    refine h.releasing t l (hr.imp ?_ ?_)
    · exact (mem t _ (hfind l)).mp
    · exact (mem t _ (htake l)).mp

/-- The step lemma: every event keeps the states of the Sleep locks. -/
theorem step_exclusive {e : Event} (h : k.Exclusive) (hs : k.step e = some k') : k'.Exclusive := by
  have wired := h.wired.step hs
  cases e with
  | exec => exact exec_exclusive h hs
  | call c =>
    obtain ⟨-, rfl⟩ := step_call hs
    apply push_exclusive h wired <;> cases c <;> simp [Call.code, entering, Instr.enters]
  | preempt =>
    obtain ⟨-, rfl⟩ := step_preempt hs
    apply push_exclusive h wired <;> simp [entering, Instr.enters]

theorem init_exclusive {intr : Bool} {value lockid : Nat → Nat}
    (h : init intr value lockid = .ok k) : k.Exclusive := by
  have wired := init_wired h
  obtain ⟨q, all, rfl⟩ := init_eq h
  have frames : ∀ t i, i ∈ (boot intr value lockid : Kernel σ).frames t → i = .kernelThread :=
    fun t i hi => boot_frames hi
  refine ⟨wired, fun l => .free rfl rfl ?_ ?_, ?_⟩
  · intro t ht
    cases frames t _ ht.1
  · intro t ht
    cases frames t _ ht
  · rintro t l (ht | ht) <;> cases frames t _ ht

/-- Nobody holds `l` or is inside `acquire` for it. -/
structure Untouched (k : Kernel σ) (l : Nat) : Prop where
  holder : (k.locks.sleep l).holder = none
  testing : ∀ t, .access (.testHolder l) ∉ k.frames t
  reading : ∀ t, .access (.readHolder l) ∉ k.frames t
  setting : ∀ t, .access (.setHolder l) ∉ k.frames t

end Exclusion

end Kernel

end Tacos.Thread
