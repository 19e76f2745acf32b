/- GID: Tacos/Thread/Semaphore
   generality: G
   source: src/sync/sema.rs, src/thread.rs
   digest: Permits of a semaphore are conserved, and a permit that waiters could use has a woken
     thread on its way. -/

import Tacos.Thread.Donation

set_option autoImplicit false
set_option relaxedAutoImplicit false

namespace Tacos.Thread

open Tacos.Lib.Run

/-- The kernel and, for each semaphore, the increments of `up`, the completed `down`s and
the threads that `up` took out of the queue and that have not tested the value since. -/
structure Tally (σ : Type) where
  kernel : Kernel σ
  ups : SemaId → Nat
  downs : SemaId → Nat
  woken : SemaId → List Tid

namespace Kernel

variable {σ : Type} [Schedule σ]

/-- The waiters queue after `up`, and the thread it takes out. -/
def remaining (k : Kernel σ) (x : SemaId) : List Tid :=
  (k.sema x).waiters.eraseIdx (getMaxpriority k.locks.priority (k.sema x).waiters).1

def removed (k : Kernel σ) (x : SemaId) : Option Tid :=
  (k.sema x).waiters[(getMaxpriority k.locks.priority (k.sema x).waiters).1]?

end Kernel

namespace Tally

variable {σ : Type} [Schedule σ]

def track (s : Tally σ) (k : Kernel σ) : Event → Tally σ
  | .exec =>
    match (s.kernel.frames s.kernel.current).head? with
    | some (.up x) =>
      { s with
        kernel := k
        ups := Function.update s.ups x (s.ups x + 1)
        woken := Function.update s.woken x ((s.kernel.removed x).toList ++ s.woken x) }
    | some (.downLoop x _) =>
      { s with
        kernel := k
        downs := Function.update s.downs x
          (if (s.kernel.sema x).value = 0 then s.downs x else s.downs x + 1)
        woken := Function.update s.woken x ((s.woken x).erase s.kernel.current) }
    | _ => { s with kernel := k }
  | _ => { s with kernel := k }

def step (s : Tally σ) (e : Event) : Option (Tally σ) := (s.kernel.step e).map (s.track · e)

def start (k : Kernel σ) : Tally σ := ⟨k, fun _ => 0, fun _ => 0, fun _ => []⟩

end Tally

namespace Kernel

variable {σ : Type} [Schedule σ] {k k' : Kernel σ} {rest : List Instr} {i : Instr}

/-- The next thing `t` does, once it has the processor, is to test the value. -/
def Facing (k : Kernel σ) (x : SemaId) (t : Tid) : Prop :=
  ∃ old rest, code (k.frames t) = .downLoop x old :: rest

omit [Schedule σ] in
private theorem Facing.unique {x y : SemaId} {t : Tid} (hx : k.Facing x t) (hy : k.Facing y t) :
    x = y := by
  obtain ⟨_, _, hx⟩ := hx
  obtain ⟨_, _, hy⟩ := hy
  rw [hx] at hy
  cases hy
  rfl

omit [Schedule σ] in
private theorem Facing.mem {x : SemaId} {t : Tid} (h : k.Facing x t) :
    ∃ old, .downLoop x old ∈ k.frames t := by
  obtain ⟨old, rest, h⟩ := h
  refine ⟨old, (mem_code.mp ?_).1⟩
  rw [h]
  exact List.mem_cons_self

omit [Schedule σ] in
private theorem Facing.step (he : Effect k rest k' i) (hf : k.frames k.current = i :: rest)
    (unborn : k.frames k.nextTid = []) {x : SemaId} {t : Tid} (h : k.Facing x t) :
    k'.Facing x t ∨ (t = k.current ∧ ∃ old, i = .downLoop x old) := by
  obtain ⟨old, tail, hc⟩ := h
  by_cases ht : t = k.current
  · subst ht
    rw [hf] at hc
    cases hn : i.noise with
    | false =>
      rw [code_cons_of_not_noise hn] at hc
      exact .inr ⟨rfl, old, (List.cons.inj hc).1⟩
    | true =>
      rw [code_cons_of_noise hn] at hc
      have self : ∀ is, code is = [] → k'.frames = k.pending is rest → k'.Facing x k.current := by
        intro is his frames
        refine ⟨old, tail, ?_⟩
        rw [frames, pending_self, code_append, his]
        exact hc
      cases he with
      | schedule _ _ _ frames =>
        rcases frames with ⟨-, frames⟩ | frames
        · exact .inl (self [] rfl frames)
        · exact .inl (self [.restore k.intr] rfl frames)
      | still _ _ _ _ _ _ frames => exact .inl (self [] rfl frames)
      | _ => cases hn
  · rcases he.frames_other ht with same | ⟨rfl, -⟩
    · exact .inl ⟨old, tail, by rw [same]; exact hc⟩
    · rw [unborn] at hc
      cases hc

omit [Schedule σ] in
private theorem Facing.push {x : SemaId} {t u : Tid} {is : List Instr} (h : k.Facing x t)
    (quiet : t = u → code is = []) : (k.push u is).Facing x t := by
  obtain ⟨old, tail, hc⟩ := h
  by_cases ht : t = u
  · subst ht
    exact ⟨old, tail, by simp [Kernel.push, quiet rfl, hc]⟩
  · exact ⟨old, tail, by simp [Kernel.push, ht, hc]⟩

private theorem register_status {t : Tid} (h : k.register t = .ok k') : k'.status = k.status := by
  unfold register at h
  split at h
  · cases h
    rfl
  · cases h

private theorem ne_of_update {status : Tid → Status} {t u : Tid} {x : Status} (hx : x ≠ .Dying)
    (h : Function.update status u x t = .Dying) : status t = .Dying := by
  by_cases ht : t = u
  · subst ht
    rw [Function.update_self] at h
    exact (hx h).elim
  · rwa [Function.update_of_ne ht] at h

private theorem schedule_dying {t : Tid} (h : k.schedule = .ok k') (ht : k'.status t = .Dying) :
    k.status t = .Dying := by
  unfold Kernel.schedule at h
  split at h
  · cases h
  · split at h
    · cases h
    · split at h
      · cases h
        exact ht
      · split at h
        · cases h
        · unfold scheduleTail at h
          split at h
          · cases h
            exact ne_of_update (by simp) ht
          · rw [register_status h] at ht
            exact ne_of_update (by simp) (ne_of_update (by simp) ht)
          · cases h
            exact ne_of_update (by simp) ht
          · cases h

private theorem up_dying {x : SemaId} {t : Tid} (h : k.up x = .ok k') (ht : k'.status t = .Dying) :
    k.status t = .Dying := by
  obtain ⟨-, ⟨-, rfl⟩ | ⟨i, p, u, k₁, -, -, -, -, woken, rfl⟩⟩ := up_cases h
  · exact ht
  · obtain ⟨-, q, -, rfl⟩ := wakeUp_cases woken
    split at ht <;> exact ne_of_update (by simp) ht

/-- Only `exit` makes a thread dying. -/
private theorem step_dying {t : Tid} (hf : k.frames k.current = i :: rest)
    (hs : k.step .exec = some k') (ht : k'.status t = .Dying) :
    k.status t = .Dying ∨ (t = k.current ∧ i = .exit) := by
  have hk := execInstr_of_step hf hs
  cases i with
  | schedule => exact .inl (schedule_dying (k := k.pop rest) hk ht)
  | build p =>
    cases hk
    exact .inl (ne_of_update (by simp) ht)
  | registerScheduler u =>
    rw [register_status hk] at ht
    exact .inl ht
  | exit =>
    cases hk
    by_cases hc : t = k.current
    · exact .inr ⟨hc, rfl⟩
    · have same : Function.update k.status k.current .Dying t = k.status t :=
        Function.update_of_ne hc _ _
      exact .inl (same.symm.trans ht)
  | exitReturned => cases hk
  | downLoop x old =>
    cases hk
    unfold downLoop at ht
    dsimp only at ht
    split at ht
    · exact .inl (ne_of_update (by simp) ht)
    · exact .inl ht
  | up x => exact .inl (up_dying (k := k.pop rest) hk ht)
  | access a =>
    simp only [execInstr] at hk
    split at hk
    · cases hk
      exact .inl ht
    · cases hk
  | _ =>
    cases hk
    exact .inl ht

omit [Schedule σ] in
private theorem sema_eq (he : Effect k rest k' i) (hup : ∀ x, i ≠ .up x)
    (hdown : ∀ x old, i ≠ .downLoop x old) : k'.sema = k.sema := by
  cases he with
  | block x old | take x old => exact (hdown x old rfl).elim
  | up x => exact (hup x rfl).elim
  | schedule _ sema | still _ _ _ sema | build _ _ sema | exit _ sema | down _ _ sema
  | access _ _ _ sema => exact sema

private theorem sema_up {x : SemaId} (hf : k.frames k.current = .up x :: rest)
    (hs : k.step .exec = some k') :
    k'.sema = Function.update k.sema x ⟨(k.sema x).value + 1, k.remaining x⟩ := by
  have hk := execInstr_of_step hf hs
  obtain ⟨-, ⟨none, rfl⟩ | ⟨i, p, t, k₁, -, -, max, -, woken, rfl⟩⟩ := up_cases (k := k.pop rest) hk
  · have none : (k.sema x).waiters = [] := none
    have left : k.remaining x = [] := by rw [remaining, none, List.eraseIdx_nil]
    rw [left]
    rfl
  · have max : getMaxpriority k.locks.priority (k.sema x).waiters = (i, p) := max
    obtain ⟨-, q, -, rfl⟩ := wakeUp_cases woken
    rw [remaining, max]
    split <;> rfl

omit [Schedule σ] in
private theorem removed_cases (k : Kernel σ) (x : SemaId) :
    ((k.sema x).waiters = [] ∧ k.removed x = none) ∨
      ∃ t, k.removed x = some t ∧ (t :: k.remaining x).Perm (k.sema x).waiters := by
  by_cases hw : (k.sema x).waiters = []
  · exact .inl ⟨hw, by simp [removed, hw]⟩
  · obtain ⟨i, t, hmax, ht, -⟩ := getMaxpriority_spec k.locks.priority hw
    refine .inr ⟨t, by simp [removed, hmax, ht], ?_⟩
    obtain ⟨hi, rfl⟩ := List.getElem?_eq_some_iff.mp ht
    rw [remaining, hmax]
    exact List.getElem_cons_eraseIdx_perm hi

end Kernel

/-- The books of one semaphore: `n` is its initial value. -/
structure Counted {σ : Type} (k : Kernel σ) (x : SemaId) (n ups downs : Nat) (woken : List Tid) :
    Prop where
  balance : (k.sema x).value + downs = n + ups
  enough : (k.sema x).waiters ≠ [] → (k.sema x).value ≤ woken.length
  nodup : woken.Nodup
  apart : ∀ t ∈ woken, t ∉ (k.sema x).waiters
  waiting : ∀ t ∈ (k.sema x).waiters, k.Facing x t
  transit : ∀ t ∈ woken, k.Facing x t ∧ k.status t ≠ .Dying

namespace Counted

variable {σ : Type} {k k' : Kernel σ} {x : SemaId} {n ups downs : Nat} {woken : List Tid}

private theorem frame (h : Counted k x n ups downs woken) (sema : k'.sema x = k.sema x)
    (facing : ∀ t, k.Facing x t → k'.Facing x t)
    (alive : ∀ t, k.Facing x t → k.status t ≠ .Dying → k'.status t ≠ .Dying) :
    Counted k' x n ups downs woken where
  balance := by rw [sema]; exact h.balance
  enough := by rw [sema]; exact h.enough
  nodup := h.nodup
  apart := by rw [sema]; exact h.apart
  waiting := by
    rw [sema]
    exact fun t ht => facing t (h.waiting t ht)
  transit := by
    intro t ht
    obtain ⟨before, living⟩ := h.transit t ht
    exact ⟨facing t before, alive t before living⟩

variable [Schedule σ] [LawfulSchedule σ] {rest : List Instr} {i : Instr}

omit [LawfulSchedule σ] in
private theorem alive_step {t : Tid} (hf : k.frames k.current = i :: rest)
    (hs : k.step .exec = some k') (facing : k.Facing x t) (alive : k.status t ≠ .Dying) :
    k'.status t ≠ .Dying := by
  intro dying
  rcases Kernel.step_dying hf hs dying with before | ⟨rfl, rfl⟩
  · exact alive before
  · obtain ⟨old, tail, hc⟩ := facing
    rw [hf, code_cons_of_not_noise rfl] at hc
    cases hc

/-- `up` gives a permit, and takes a waiter out of the queue if there is one. -/
private theorem up (h : Counted k x n ups downs woken) (wired : k.Wired)
    (hf : k.frames k.current = .up x :: rest) (hs : k.step .exec = some k')
    (he : Kernel.Effect k rest k' (.up x)) :
    Counted k' x n (ups + 1) downs ((k.removed x).toList ++ woken) := by
  have sema : k'.sema x = ⟨(k.sema x).value + 1, k.remaining x⟩ := by
    rw [Kernel.sema_up hf hs, Function.update_self]
  have drained : (k.sema x).waiters = [] ∨ (k.sema x).value = 0 :=
    ((Kernel.step_up_iff (Kernel.managed_nil.mpr wired.manager) hf).mp (by rw [hs]; rfl)).2
  have facing : ∀ t, k.Facing x t → k'.Facing x t := fun t ht =>
    (ht.step he hf wired.unborn).resolve_right (by simp)
  have kept : (k.remaining x).Sublist (k.sema x).waiters := List.eraseIdx_sublist ..
  refine ⟨?_, ?_, ?_, ?_, ?_, ?_⟩
  · rw [sema]
    have := h.balance
    dsimp only
    omega
  · rw [sema]
    intro hr
    have hw : (k.sema x).waiters ≠ [] := fun hw => hr (List.sublist_nil.mp (hw ▸ kept))
    rcases k.removed_cases x with ⟨hnone, -⟩ | ⟨t, ht, -⟩
    · exact (hw hnone).elim
    · have hv := drained.resolve_left hw
      simp only [ht, Option.toList_some, List.length_append, List.length_singleton, hv]
      omega
  · rcases k.removed_cases x with ⟨-, ht⟩ | ⟨t, ht, perm⟩
    · simpa [ht] using h.nodup
    · rw [ht]
      refine List.nodup_cons.mpr ⟨fun hm => ?_, h.nodup⟩
      exact h.apart t hm (perm.mem_iff.mp List.mem_cons_self)
  · rw [sema]
    intro t ht hm
    rcases List.mem_append.mp ht with ht | ht
    · rcases k.removed_cases x with ⟨-, hr⟩ | ⟨u, hr, perm⟩
      · simp [hr] at ht
      · obtain rfl : t = u := by simpa [hr] using ht
        have nodup := perm.nodup_iff.mpr (wired.manager.core.waiters_nodup x)
        exact (List.nodup_cons.mp nodup).1 hm
    · exact h.apart t ht (kept.subset hm)
  · rw [sema]
    exact fun t ht => facing t (h.waiting t (kept.subset ht))
  · intro t ht
    rcases List.mem_append.mp ht with ht | ht
    · have hm : t ∈ (k.sema x).waiters := List.mem_of_getElem? (Option.mem_toList.mp ht)
      have blocked := wired.manager.core.mem_waiters x t hm
      exact ⟨facing t (h.waiting t hm), alive_step hf hs (h.waiting t hm) (by simp [blocked])⟩
    · obtain ⟨before, alive⟩ := h.transit t ht
      exact ⟨facing t before, alive_step hf hs before alive⟩

/-- A test of `down` by the current thread queues it or takes a permit. -/
private theorem test {old : Bool} (h : Counted k x n ups downs woken) (wired : k.Wired)
    (hf : k.frames k.current = .downLoop x old :: rest) (hs : k.step .exec = some k')
    (he : Kernel.Effect k rest k' (.downLoop x old)) :
    Counted k' x n ups (if (k.sema x).value = 0 then downs else downs + 1)
      (woken.erase k.current) := by
  have running : k.status k.current = .Running := by
    rcases wired.manager.settled with hr | ⟨-, rest', hf'⟩
    · exact hr
    · rw [hf] at hf'
      cases hf'
  have facing : ∀ t, t ≠ k.current → k.Facing x t → k'.Facing x t := fun t ht hx =>
    (hx.step he hf wired.unborn).resolve_right fun hc => ht hc.1
  have waiting : ∀ t ∈ (k.sema x).waiters, k'.Facing x t := by
    intro t ht
    refine facing t ?_ (h.waiting t ht)
    rintro rfl
    rw [wired.manager.core.mem_waiters x k.current ht] at running
    cases running
  have left : ∀ t ∈ woken.erase k.current, t ≠ k.current ∧ t ∈ woken := fun t ht =>
    ((h.nodup.mem_erase_iff).mp ht)
  have transit : ∀ t ∈ woken.erase k.current, k'.Facing x t ∧ k'.status t ≠ .Dying := by
    intro t ht
    obtain ⟨hne, hm⟩ := left t ht
    obtain ⟨before, alive⟩ := h.transit t hm
    exact ⟨facing t hne before, alive_step hf hs before alive⟩
  have nodup : (woken.erase k.current).Nodup := h.nodup.erase _
  cases he with
  | still _ hp => cases hp
  | block _ _ value _ sema _ _ frames =>
    have sema : k'.sema x = { k.sema x with waiters := k.current :: (k.sema x).waiters } := by
      rw [sema, Function.update_self]
    rw [if_pos value]
    refine ⟨?_, ?_, nodup, ?_, ?_, transit⟩
    · rw [sema]
      exact h.balance
    · rw [sema]
      intro _
      dsimp only
      omega
    · rw [sema]
      intro t ht hm
      obtain ⟨hne, hw⟩ := left t ht
      rcases List.mem_cons.mp hm with rfl | hm
      · exact hne rfl
      · exact h.apart t hw hm
    · rw [sema]
      intro t ht
      rcases List.mem_cons.mp ht with rfl | ht
      · refine ⟨old, code rest, ?_⟩
        rw [frames, Kernel.pending_self, code_append]
        rfl
      · exact waiting t ht
  | take _ _ value _ sema =>
    have sema : k'.sema x = { k.sema x with value := (k.sema x).value - 1 } := by
      rw [sema, Function.update_self]
    rw [if_neg value]
    refine ⟨?_, ?_, nodup, ?_, ?_, transit⟩
    · rw [sema]
      have := h.balance
      dsimp only
      omega
    · rw [sema]
      intro hw
      have := h.enough hw
      have : woken.length - 1 ≤ (woken.erase k.current).length := by
        rw [List.length_erase]
        split <;> omega
      dsimp only
      omega
    · rw [sema]
      exact fun t ht => h.apart t (left t ht).2
    · rw [sema]
      exact waiting

end Counted

namespace Tally

variable {σ : Type} [Schedule σ] [LawfulSchedule σ]

/-- The books of all semaphores, against the state the run started from. -/
structure Balanced (k₀ : Kernel σ) (s : Tally σ) : Prop where
  wired : s.kernel.Wired
  counted : ∀ x, Counted s.kernel x (k₀.sema x).value (s.ups x) (s.downs x) (s.woken x)

variable {k₀ : Kernel σ} {s s' : Tally σ}

omit [LawfulSchedule σ] in
theorem step_kernel {e : Event} (hs : s.step e = some s') :
    s.kernel.step e = some s'.kernel ∧ s' = s.track s'.kernel e := by
  obtain ⟨k, hk, rfl⟩ := Option.map_eq_some_iff.mp hs
  have same : (s.track k e).kernel = k := by
    unfold track
    split
    · split <;> rfl
    · rfl
  rw [same]
  exact ⟨hk, rfl⟩

private theorem exec_balanced {k : Kernel σ} (h : Balanced k₀ s)
    (hs : s.kernel.step .exec = some k) : Balanced k₀ (s.track k .exec) := by
  obtain ⟨i, rest, hf, he⟩ := Kernel.step_exec h.wired.current_ne hs
  have wired := h.wired.step hs
  -- semaphores that the instruction does not touch
  have frame : ∀ x, (∀ old, i ≠ .downLoop x old) → k.sema x = s.kernel.sema x →
      Counted k x (k₀.sema x).value (s.ups x) (s.downs x) (s.woken x) := by
    intro x hx sema
    refine (h.counted x).frame sema ?_ fun t => Counted.alive_step hf hs
    intro t ht
    refine (ht.step he hf h.wired.unborn).resolve_right ?_
    rintro ⟨-, old, hi⟩
    exact hx old hi
  by_cases hup : ∃ y, i = .up y
  · obtain ⟨y, rfl⟩ := hup
    simp only [track, hf, List.head?_cons]
    refine ⟨wired, fun x => ?_⟩
    by_cases hx : x = y
    · subst hx
      simpa only [Function.update_self] using (h.counted x).up h.wired hf hs he
    · simp only [Function.update_of_ne hx]
      refine frame x (by simp) ?_
      rw [Kernel.sema_up hf hs, Function.update_of_ne hx]
  · by_cases hdown : ∃ y old, i = .downLoop y old
    · obtain ⟨y, old, rfl⟩ := hdown
      simp only [track, hf, List.head?_cons]
      refine ⟨wired, fun x => ?_⟩
      by_cases hx : x = y
      · subst hx
        simpa only [Function.update_self] using (h.counted x).test h.wired hf hs he
      · simp only [Function.update_of_ne hx]
        refine frame x (fun old' heq => hx ?_) ?_
        · cases heq
          rfl
        · cases he with
          | block _ _ _ _ sema | take _ _ _ _ sema => rw [sema, Function.update_of_ne hx]
          | still _ hp => cases hp
    · have same : s.track k .exec = { s with kernel := k } := by
        simp only [track, hf, List.head?_cons]
        cases i with
        | up y => exact (hup ⟨y, rfl⟩).elim
        | downLoop y old => exact (hdown ⟨y, old, rfl⟩).elim
        | _ => rfl
      rw [same]
      refine ⟨wired, fun x => frame x (fun old hi => hdown ⟨x, old, hi⟩) ?_⟩
      rw [Kernel.sema_eq he (fun y hi => hup ⟨y, hi⟩) fun y old hi => hdown ⟨y, old, hi⟩]

private theorem push_balanced (h : Balanced k₀ s) {is : List Instr}
    (wired : (s.kernel.push s.kernel.current is).Wired)
    (quiet : s.kernel.frames s.kernel.current = [] ∨ code is = []) :
    Balanced k₀ { s with kernel := s.kernel.push s.kernel.current is } := by
  refine ⟨wired, fun x => (h.counted x).frame rfl ?_ fun _ _ alive => alive⟩
  intro t ht
  refine ht.push ?_
  rintro rfl
  refine quiet.resolve_left fun hnil => ?_
  obtain ⟨old, tail, hc⟩ := ht
  rw [hnil] at hc
  cases hc

/-- The step lemma: every event keeps the books. -/
theorem step_balanced {e : Event} (h : Balanced k₀ s) (hs : s.step e = some s') :
    Balanced k₀ s' := by
  obtain ⟨hk, htrack⟩ := step_kernel hs
  rw [htrack]
  generalize s'.kernel = k at hk
  have wired := h.wired.step hk
  cases e with
  | exec => exact exec_balanced h hk
  | call c =>
    obtain ⟨hnil, rfl⟩ := Kernel.step_call hk
    exact push_balanced h wired (.inl hnil)
  | preempt =>
    obtain ⟨-, rfl⟩ := Kernel.step_preempt hk
    exact push_balanced h wired (.inr rfl)

theorem start_balanced {intr : Bool} {value lockid : Nat → Nat}
    (h : Kernel.init intr value lockid = .ok k₀) : Balanced k₀ (start k₀) := by
  refine ⟨Kernel.init_wired h, fun x => ?_⟩
  obtain ⟨q, all, rfl⟩ := Kernel.init_eq h
  have none : (Kernel.sema { (Kernel.boot intr value lockid : Kernel σ) with
      scheduler := q, all := all } x).waiters = [] := by
    cases x <;> rfl
  refine ⟨rfl, fun hw => (hw none).elim, List.nodup_nil, by simp [start], ?_, by simp [start]⟩
  intro t ht
  rw [start, none] at ht
  cases ht

end Tally

/-- In every state that a run of `down` and `up` by any threads reaches: the value is the
initial value plus the increments minus the completed `down`s; and where it is positive
while threads wait, that many threads that `up` took out of the queue are ready or
running, and have still to test the value. -/
theorem semaphore_conservation {σ : Type} [Schedule σ] [LawfulSchedule σ] {intr : Bool}
    {value lockid : Nat → Nat} {k₀ : Kernel σ} {es : List Event} {s : Tally σ}
    (start : Kernel.init intr value lockid = .ok k₀)
    (ran : run Tally.step (.start k₀) es = some s) (x : SemaId) :
    s.downs x ≤ (k₀.sema x).value + s.ups x ∧
    (s.kernel.sema x).value = (k₀.sema x).value + s.ups x - s.downs x ∧
    ((s.kernel.sema x).waiters ≠ [] → (s.kernel.sema x).value ≤ (s.woken x).length) ∧
    (s.woken x).Nodup ∧
    ∀ t ∈ s.woken x, t ∉ (s.kernel.sema x).waiters ∧
      (s.kernel.status t = .Ready ∨ s.kernel.status t = .Running) ∧
      ∃ old, .downLoop x old ∈ s.kernel.frames t := by
  have balanced : s.Balanced k₀ :=
    run_invariant (fun _ _ _ => Tally.step_balanced) (Tally.start_balanced start) ran
  have counted := balanced.counted x
  have balance := counted.balance
  refine ⟨by omega, by omega, counted.enough, counted.nodup, ?_⟩
  intro t ht
  obtain ⟨facing, alive⟩ := counted.transit t ht
  refine ⟨counted.apart t ht, ?_, facing.mem⟩
  cases hstatus : s.kernel.status t with
  | Ready => exact .inl rfl
  | Running => exact .inr rfl
  | Dying => exact (alive hstatus).elim
  | Blocked =>
    -- a blocked thread faces the test of the semaphore it waits for
    obtain ⟨y, hy⟩ := balanced.wired.manager.core.blocked_waits t hstatus
    obtain rfl := facing.unique ((balanced.counted y).waiting t hy)
    exact (counted.apart t ht hy).elim

/-- Threads 2 and 3 wait for semaphore 0; `Initial`, which ranks higher, calls `up`. -/
def singleUpRun : List Event :=
  calling (.spawn 41) 5 ++ calling (.down 0) 4 ++ calling (.spawn 41) 5 ++ calling (.down 0) 4 ++
    calling (.setPriority 51) 3 ++ calling (.up 0) 1

/-- Then thread 3 waits while a permit is there, and thread 2 is on its way to it. -/
theorem woken_thread_in_transit : ∃ s, run Tally.step (.start bootedLocks) singleUpRun = some s ∧
    (s.kernel.sema (.user 0)).waiters = [3] ∧ (s.kernel.sema (.user 0)).value = 1 ∧
    s.woken (.user 0) = [2] ∧ (s.kernel.sema (.user 0)).value ≤ (s.woken (.user 0)).length := by
  have ran : ((run Tally.step (.start bootedLocks) singleUpRun).map fun s =>
      ((s.kernel.sema (.user 0)).waiters, (s.kernel.sema (.user 0)).value, s.woken (.user 0))) =
      some ([3], 1, [2]) := by
    decide +kernel
  obtain ⟨s, hs, hview⟩ := Option.map_eq_some_iff.mp ran
  simp only [Prod.mk.injEq] at hview
  obtain ⟨waits, one, woken⟩ := hview
  obtain ⟨-, -, enough, -⟩ := semaphore_conservation rfl hs (.user 0)
  exact ⟨s, hs, waits, one, woken, enough (by simp [waits])⟩

/-- In every state that a run reaches, a call of `up` gets through exactly when the value is below
the greatest `usize`, and nobody waits or the initial permits and those of all earlier calls of `up`
have been taken. -/
theorem up_succeeds_iff {σ : Type} [Schedule σ] [LawfulSchedule σ] {intr : Bool}
    {value lockid : Nat → Nat} {k₀ : Kernel σ} {es : List Event} {s : Tally σ} {x : SemaId}
    {rest : List Instr} (start : Kernel.init intr value lockid = .ok k₀)
    (ran : run Tally.step (.start k₀) es = some s)
    (calls : s.kernel.frames s.kernel.current = .up x :: rest) :
    (s.step .exec).isSome ↔ (s.kernel.sema x).value < 2 ^ 64 - 1 ∧
      ((s.kernel.sema x).waiters = [] ∨ (k₀.sema x).value + s.ups x = s.downs x) := by
  have balanced : s.Balanced k₀ :=
    run_invariant (fun _ _ _ => Tally.step_balanced) (Tally.start_balanced start) ran
  have balance := (balanced.counted x).balance
  have empty : (s.kernel.sema x).value = 0 ↔ (k₀.sema x).value + s.ups x = s.downs x := by omega
  have below : (s.kernel.sema x).value < 2 ^ 64 - 1 ↔
    (s.kernel.sema x).value + 1 < 2 ^ 64 := by omega
  have raises := Kernel.step_up_iff (Kernel.managed_nil.mpr balanced.wired.manager) calls
  rw [← empty, below, Tally.step, Option.isSome_map]
  exact raises

/-- With one waiter left and no permit untaken, `up` gets through. -/
theorem first_up_succeeds : ∃ s, run Tally.step (.start bootedLocks)
    (calling (.spawn 41) 5 ++ calling (.down 0) 4 ++ calling (.up 0) 0) = some s ∧
    (s.step .exec).isSome := by
  have ran : ((run Tally.step (.start bootedLocks)
      (calling (.spawn 41) 5 ++ calling (.down 0) 4 ++ calling (.up 0) 0)).map fun s =>
      (s.kernel.frames s.kernel.current, (s.kernel.sema (.user 0)).value, s.ups (.user 0),
        s.downs (.user 0))) = some ([.up (.user 0)], 0, 0, 0) := by
    decide +kernel
  obtain ⟨s, hs, hview⟩ := Option.map_eq_some_iff.mp ran
  simp only [Prod.mk.injEq] at hview
  obtain ⟨calls, value, ups, downs⟩ := hview
  refine ⟨s, hs, (up_succeeds_iff rfl hs calls).mpr ⟨?_, .inr ?_⟩⟩
  · rw [value]
    decide
  · rw [ups, downs]
    rfl

/-- A second `up` before the woken thread has run fails, although a thread still waits. -/
theorem second_up_panics : ¬ ∀ es k x rest, run Kernel.step bootedLocks es = some k →
    k.frames k.current = .up x :: rest → ∃ k', k.exec = .ok (some k') := by
  intro claim
  have ran : ((run Kernel.step bootedLocks (singleUpRun ++ calling (.up 0) 0)).map fun k =>
      (k.frames k.current, (k.step .exec).isSome)) = some ([.up (.user 0)], false) := by
    decide +kernel
  obtain ⟨k, hk, hview⟩ := Option.map_eq_some_iff.mp ran
  simp only [Prod.mk.injEq] at hview
  obtain ⟨calls, fails⟩ := hview
  obtain ⟨k', hk'⟩ := claim _ k (.user 0) [] hk calls
  simp [Kernel.step, hk'] at fails

end Tacos.Thread
