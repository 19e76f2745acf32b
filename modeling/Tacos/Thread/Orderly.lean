/- GID: Tacos/Thread/Orderly
   generality: G
   source: src/thread.rs, src/thread/manager.rs, src/sbi/timer.rs, src/trap.rs
   digest: What holds of the ready queues in every run with sleepers, whenever the timer
     interrupts come. -/

import Tacos.Thread.Timer

set_option autoImplicit false
set_option relaxedAutoImplicit false

namespace Tacos.Thread

namespace Kernel

variable {σ : Type} [Schedule σ] [LawfulSchedule σ]

/-- Every thread that the kernel refers to has been built. -/
structure Known (k : Kernel σ) : Prop where
  current : k.current < k.nextTid
  queued : ∀ t ∈ LawfulSchedule.queued k.scheduler, t < k.nextTid
  waiters : ∀ x, ∀ t ∈ (k.sema x).waiters, t < k.nextTid
  building : ∀ t, Building k.frames t → t < k.nextTid
  unborn : ∀ t, k.nextTid ≤ t → k.frames t = []

/-- Every ready thread that its creator has registered is in the ready queues. -/
def Listed (k : Kernel σ) : Prop :=
  ∀ t, k.status t = .Ready → ¬ Building k.frames t → t ∈ LawfulSchedule.queued k.scheduler

/-- What remains of the manager's invariant when a tick may wake a thread that has not yet left
the processor: nothing is said of the state of the current thread. -/
structure Orderly (k : Kernel σ) : Prop where
  admits : k.Admits
  phased : k.Phased
  known : k.Known
  listed : k.Listed

/-- Who may run after a step, who may be in the queues, and who may be ready outside of them. -/
structure Filed (k k' : Kernel σ) (i : Instr) : Prop where
  current : k'.current = k.current ∨ k'.current ∈ LawfulSchedule.queued k.scheduler
  queued : ∀ t ∈ LawfulSchedule.queued k'.scheduler, t ∈ LawfulSchedule.queued k.scheduler ∨
    t = k.current ∨ (∃ x, t ∈ (k.sema x).waiters) ∨ i = .registerScheduler t
  ready : ∀ t, k'.status t = .Ready → t ∉ LawfulSchedule.queued k'.scheduler →
    (k.status t = .Ready ∧ t ∉ LawfulSchedule.queued k.scheduler ∧ i ≠ .registerScheduler t) ∨
      (t = k.nextTid ∧ ∃ p, i = .build p)

variable {k k' : Kernel σ} {rest : List Instr} {i : Instr}

/-- Without the queues and the current thread a step can only take threads out of the ready state.
-/
private theorem Filed.still (hi : ∀ t, i ≠ .registerScheduler t)
    (scheduler : k'.scheduler = k.scheduler) (current : k'.current = k.current)
    (status : ∀ t, k'.status t = .Ready → k.status t = .Ready) : Filed k k' i where
  current := .inl current
  queued _ ht := .inl (scheduler ▸ ht)
  ready t ready out := .inl ⟨status t ready, scheduler ▸ out, hi t⟩

omit [Schedule σ] [LawfulSchedule σ] in
private theorem ready_of_left {s : Status} (hs : s ≠ .Ready) {u t : Tid}
    (ready : (k.setStatus u s).status t = .Ready) : k.status t = .Ready := by
  by_cases heq : t = u
  · subst heq
    exact (hs ((Function.update_self ..).symm.trans ready)).elim
  · exact (Function.update_of_ne heq _ _).symm.trans ready

private theorem schedule_filed (admits : k.Admits) (h : k.schedule = .ok k') :
    Filed k k' .schedule := by
  have spec := LawfulSchedule.schedule_spec k.view k.scheduler fun t _ => (admits.data t).priority
  obtain ⟨q, chosen, rfl⟩ | ⟨next, q, chosen, tail⟩ := schedule_cases h
  · rw [chosen] at spec
    obtain ⟨q', heq, perm, -⟩ | ⟨t, q', heq, -⟩ := spec
    · cases heq
      refine ⟨.inl rfl, fun t ht => .inl (perm.mem_iff.mp ht),
        fun t ready out => .inl ⟨ready, ?_, by simp⟩⟩
      exact fun ht => out (perm.mem_iff.mpr ht)
    · cases heq
  · rw [chosen] at spec
    obtain ⟨q', heq, -⟩ | ⟨t, q', heq, perm⟩ := spec
    · cases heq
    cases heq
    have here : next ∈ LawfulSchedule.queued k.scheduler := perm.mem_iff.mp List.mem_cons_self
    have stays : ∀ t ∈ LawfulSchedule.queued q, t ∈ LawfulSchedule.queued k.scheduler := fun t ht =>
      perm.mem_iff.mp (List.mem_cons_of_mem next ht)
    have settled : ∀ t, (k.switched q next).status t = .Ready → t ∉ LawfulSchedule.queued q →
        k.status t = .Ready ∧ t ∉ LawfulSchedule.queued k.scheduler := by
      intro t ready out
      have other : t ≠ next := by
        rintro rfl
        exact absurd ((Function.update_self ..).symm.trans ready) (by simp)
      refine ⟨(Function.update_of_ne other _ _).symm.trans ready, fun ht => ?_⟩
      exact ((List.mem_cons.mp (perm.mem_iff.mpr ht)).resolve_left other) |> out
    obtain ⟨-, r, registered, rfl⟩ | ⟨all, rfl⟩ := scheduleTail_cases tail
    · obtain ⟨r', same, perm'⟩ := LawfulSchedule.register_spec k.locks.priority q k.current
        (admits.data k.current).priority
      obtain rfl : r' = r := Except.ok.inj (same.symm.trans registered)
      refine ⟨.inr here, fun t ht => ?_, fun t ready out => ?_⟩
      · obtain rfl | ht := List.mem_cons.mp (perm'.mem_iff.mp ht)
        · exact .inr (.inl rfl)
        · exact .inl (stays t ht)
      · have other : t ≠ k.current := by
          rintro rfl
          exact out (perm'.mem_iff.mpr List.mem_cons_self)
        have gone : t ∉ LawfulSchedule.queued q := fun ht =>
          out (perm'.mem_iff.mpr (List.mem_cons_of_mem _ ht))
        obtain ⟨before, absent⟩ :=
          settled t ((Function.update_of_ne other _ _).symm.trans ready) gone
        exact .inl ⟨before, absent, by simp⟩
    · refine ⟨.inr here, fun t ht => .inl (stays t ht), fun t ready out => ?_⟩
      obtain ⟨before, absent⟩ := settled t ready out
      exact .inl ⟨before, absent, by simp⟩

private theorem up_filed {x : SemaId} (admits : k.Admits) (h : k.up x = .ok k') :
    Filed k k' (.up x) := by
  obtain ⟨-, ⟨-, rfl⟩ | ⟨n, p, t, k₁, -, -, -, found, woken, rfl⟩⟩ := up_cases h
  · exact .still (by simp) rfl rfl fun _ => id
  · obtain ⟨-, q, registered, rfl⟩ := wakeUp_cases woken
    obtain ⟨q', same, perm⟩ :=
      LawfulSchedule.register_spec k.locks.priority k.scheduler t (admits.data t).priority
    obtain rfl : q' = q := Except.ok.inj (same.symm.trans registered)
    have filed :
      Filed k { (k.setSema x ⟨(k.sema x).value + 1, (k.sema x).waiters.eraseIdx n⟩).setStatus
        t .Ready with scheduler := q' } (.up x) := by
      refine ⟨.inl rfl, fun u hu => ?_, fun u ready out => .inl ⟨?_, ?_, by simp⟩⟩
      · obtain rfl | hu := List.mem_cons.mp (perm.mem_iff.mp hu)
        · exact .inr (.inr (.inl ⟨x, List.mem_iff_getElem?.mpr ⟨n, found⟩⟩))
        · exact .inl hu
      · have other : u ≠ t := by
          rintro rfl
          exact out (perm.mem_iff.mpr List.mem_cons_self)
        exact (Function.update_of_ne other _ _).symm.trans ready
      · exact fun hu => out (perm.mem_iff.mpr (List.mem_cons_of_mem _ hu))
    split
    · exact ⟨filed.current, filed.queued, filed.ready⟩
    · exact filed

theorem execInstr_filed (admits : (k.pop rest).Admits) (h : (k.pop rest).execInstr i = .ok k') :
    Filed k k' i := by
  have back : ∀ {j}, Filed (k.pop rest) k' j → Filed k k' j := fun f =>
    ⟨f.current, f.queued, f.ready⟩
  cases i with
  | schedule => exact back (schedule_filed admits h)
  | up x => exact back (up_filed admits h)
  | restore | kernelThread | registerAll | down =>
    cases h
    exact .still (by simp) rfl rfl fun _ => id
  | exitReturned => cases h
  | exit =>
    cases h
    exact .still (by simp) rfl rfl fun t => ready_of_left (k := k) (by simp)
  | downLoop x old =>
    cases h
    unfold downLoop
    dsimp only
    split
    · exact .still (by simp) rfl rfl fun t => ready_of_left (k := k) (by simp)
    · exact .still (by simp) rfl rfl fun _ => id
  | access a =>
    simp only [execInstr] at h
    split at h
    · cases h
      exact .still (by simp) rfl rfl fun _ => id
    · cases h
  | build p =>
    cases h
    refine ⟨.inl rfl, fun t ht => .inl ht, fun t ready out => ?_⟩
    by_cases new : t = k.nextTid
    · exact .inr ⟨new, p, rfl⟩
    · exact .inl ⟨(Function.update_of_ne new _ _).symm.trans ready, out, by simp⟩
  | registerScheduler t =>
    obtain ⟨q, registered, rfl⟩ := register_cases h
    obtain ⟨q', same, perm⟩ :=
      LawfulSchedule.register_spec k.locks.priority k.scheduler t (admits.data t).priority
    obtain rfl : q' = q := Except.ok.inj (same.symm.trans registered)
    refine ⟨.inl rfl, fun u hu => ?_, fun u ready out => .inl ⟨ready, ?_, ?_⟩⟩
    · obtain rfl | hu := List.mem_cons.mp (perm.mem_iff.mp hu)
      · exact .inr (.inr (.inr rfl))
      · exact .inl hu
    · exact fun hu => out (perm.mem_iff.mpr (List.mem_cons_of_mem _ hu))
    · intro heq
      cases heq
      exact out (perm.mem_iff.mpr List.mem_cons_self)

theorem Effect.admits (he : Effect k rest k' i) (h : k.Admits)
    (hf : k.frames k.current = i :: rest) : k'.Admits := by
  have front : ∀ j ∈ i :: rest, j.Admits (Schedule.admits σ) := fun j hj =>
    h.code k.current j (hf ▸ hj)
  have behind : ∀ j ∈ rest, j.Admits (Schedule.admits σ) := fun j hj =>
    front j (List.mem_cons_of_mem i hj)
  have pending : ∀ is, (∀ j ∈ is, j.Admits (Schedule.admits σ)) → k'.frames = k.pending is rest →
      ∀ t, ∀ j ∈ k'.frames t, j.Admits (Schedule.admits σ) := by
    intro is his frames t j hj
    rw [frames] at hj
    by_cases ht : t = k.current
    · subst ht
      rw [pending_self] at hj
      exact (List.mem_append.mp hj).elim (his j) (behind j)
    · rw [pending_of_ne k is rest ht] at hj
      exact h.code t j hj
  have same : k'.locks = k.locks → ∀ t, (k'.locks.data t).Admits (Schedule.admits σ) := by
    intro locks
    rw [locks]
    exact h.data
  cases he with
  | schedule locks _ _ frames =>
    refine ⟨same locks, ?_⟩
    rcases frames with ⟨-, frames⟩ | frames
    · exact pending [] (by simp) frames
    · exact pending [.restore k.intr] (by simp [Instr.Admits]) frames
  | up _ _ _ locks _ _ _ frames =>
    refine ⟨same locks, ?_⟩
    rcases frames with frames | frames
    · exact pending [] (by simp) frames
    · exact pending [.schedule, .restore k.intr] (by simp [Instr.Admits]) frames
  | still _ _ locks _ _ _ frames | exit locks _ _ _ frames | down _ locks _ _ _ frames
  | block _ _ _ locks _ _ _ frames | take _ _ _ locks _ _ _ frames =>
    exact ⟨same locks, pending _ (by simp [Instr.Admits]) frames⟩
  | access a is exec _ _ _ frames =>
    obtain ⟨data, code, -⟩ := access_admits h.data (front (.access a) List.mem_cons_self) exec
    exact ⟨data, pending is code frames⟩
  | build p locks _ _ _ frames =>
    have new : (ThreadData.new p).Admits (Schedule.admits σ) :=
      ⟨front (.build p) List.mem_cons_self, by simp [ThreadData.new], by simp [ThreadData.new],
        LawfulSchedule.admits_default 0 (Nat.zero_le _)⟩
    refine ⟨?_, fun t j hj => ?_⟩
    · rw [locks]
      exact update_admits h.data new
    · rw [frames] at hj
      by_cases ht : t = k.current
      · subst ht
        rw [Function.update_self] at hj
        refine (List.mem_append.mp hj).elim (fun hj => ?_) (behind j)
        simp only [List.mem_cons, List.not_mem_nil, or_false] at hj
        rcases hj with rfl | rfl | rfl <;> trivial
      · rw [Function.update_of_ne ht] at hj
        by_cases hn : t = k.nextTid
        · subst hn
          rw [Function.update_self] at hj
          rw [List.mem_singleton.mp hj]
          trivial
        · rw [Function.update_of_ne hn] at hj
          exact h.code t j hj

omit [LawfulSchedule σ] in
/-- Only a build brings a thread that its creator has still to register. -/
theorem Effect.building_back (he : Effect k rest k' i) (h : k.Admits)
    (hf : k.frames k.current = i :: rest) {t u : Tid} (hu : .registerScheduler t ∈ k'.frames u) :
    .registerScheduler t ∈ k.frames u ∨ (t = k.nextTid ∧ ∃ p, i = .build p) := by
  have behind : .registerScheduler t ∈ rest → .registerScheduler t ∈ k.frames k.current := fun ht =>
    hf ▸ List.mem_cons_of_mem i ht
  have pending : ∀ is, .registerScheduler t ∉ is → k'.frames = k.pending is rest →
      .registerScheduler t ∈ k.frames u := by
    intro is free frames
    rw [frames] at hu
    by_cases heq : u = k.current
    · subst heq
      rw [pending_self] at hu
      exact behind ((List.mem_append.mp hu).resolve_left free)
    · rwa [pending_of_ne k is rest heq] at hu
  cases he with
  | schedule _ _ _ frames =>
    rcases frames with ⟨-, frames⟩ | frames
    · exact .inl (pending [] (by simp) frames)
    · exact .inl (pending [.restore k.intr] (by simp) frames)
  | up _ _ _ _ _ _ _ frames =>
    rcases frames with frames | frames
    · exact .inl (pending [] (by simp) frames)
    · exact .inl (pending [.schedule, .restore k.intr] (by simp) frames)
  | still _ _ _ _ _ _ frames | exit _ _ _ _ frames | down _ _ _ _ _ frames
  | block _ _ _ _ _ _ _ frames | take _ _ _ _ _ _ _ frames =>
    exact .inl (pending _ (by simp) frames)
  | access a is exec _ _ _ frames =>
    obtain ⟨-, -, free⟩ := access_admits h.data
      (h.code k.current (.access a) (hf ▸ List.mem_cons_self)) exec
    exact .inl (pending is (free t) frames)
  | build p _ _ _ _ frames =>
    rw [frames] at hu
    by_cases heq : u = k.current
    · subst heq
      rw [Function.update_self] at hu
      obtain hu | hu := List.mem_append.mp hu
      · simp only [List.mem_cons, Instr.registerScheduler.injEq, reduceCtorEq, List.not_mem_nil,
          or_false] at hu
        exact .inr ⟨hu, p, rfl⟩
      · exact .inl (behind hu)
    · rw [Function.update_of_ne heq] at hu
      by_cases hn : u = k.nextTid
      · subst hn
        rw [Function.update_self] at hu
        exact absurd (List.mem_singleton.mp hu) (by simp)
      · rw [Function.update_of_ne hn] at hu
        exact .inl hu

omit [Schedule σ] [LawfulSchedule σ] in
private theorem Effect.nextTid_of_build {p : Nat} (he : Effect k rest k' (.build p)) :
    k.nextTid < k'.nextTid := by
  cases he with
  | build _ _ _ nextTid => exact nextTid.symm ▸ Nat.lt_succ_self _
  | still _ hp => cases hp

private theorem Known.step (h : k.Known) (admits : k.Admits) (hf : k.frames k.current = i :: rest)
    (he : Effect k rest k' i) (filed : Filed k k' i) : k'.Known := by
  have grows : ∀ {t}, t < k.nextTid → t < k'.nextTid :=
    fun ht => Nat.lt_of_lt_of_le ht he.nextTid_le
  refine ⟨?_, fun t ht => ?_, fun x t ht => ?_, ?_, fun t ht => ?_⟩
  · obtain same | there := filed.current
    · exact same ▸ grows h.current
    · exact grows (h.queued _ there)
  · obtain old | rfl | ⟨x, waits⟩ | rfl := filed.queued t ht
    · exact grows (h.queued t old)
    · exact grows h.current
    · exact grows (h.waiters x t waits)
    · exact grows (h.building t ⟨k.current, hf ▸ List.mem_cons_self⟩)
  · obtain old | ⟨rfl, -⟩ := he.waiters_back ht
    · exact grows (h.waiters x t old)
    · exact grows h.current
  · rintro t ⟨u, hu⟩
    obtain old | ⟨rfl, p, rfl⟩ := he.building_back admits hf hu
    · exact grows (h.building t ⟨u, old⟩)
    · exact he.nextTid_of_build
  · have beyond : k.nextTid ≤ t := he.nextTid_le.trans ht
    obtain same | ⟨rfl, -, p, rfl⟩ := he.frames_other (h.current.trans_le beyond).ne'
    · exact same.trans (h.unborn t beyond)
    · exact (Nat.lt_irrefl _ (he.nextTid_of_build.trans_le ht)).elim

private theorem Listed.step (h : k.Listed) (known : k.Known)
    (hf : k.frames k.current = i :: rest) (he : Effect k rest k' i) (filed : Filed k k' i) :
    k'.Listed := by
  intro t ready registered
  by_contra out
  obtain ⟨before, absent, other⟩ | ⟨rfl, p, rfl⟩ := filed.ready t ready out
  · -- its creator had still to register it, and has after the step
    refine absent (h t before ?_)
    rintro ⟨u, hu⟩
    obtain still | ⟨-, rfl⟩ := he.mem_forward hf (known.unborn _ le_rfl) hu
    · exact registered ⟨u, still⟩
    · exact other rfl
  · refine registered ⟨k.current, ?_⟩
    cases he with
    | build _ _ _ _ _ frames =>
      rw [frames, Function.update_self]
      exact List.mem_cons_self
    | still _ hp => cases hp

namespace Orderly

theorem exec (h : k.Orderly) (hs : k.step .exec = some k') : k'.Orderly := by
  have built : k.current ≠ k.nextTid := h.known.current.ne
  obtain ⟨i, rest, hf, he⟩ := step_exec built hs
  have admits : (k.pop rest).Admits := by
    refine ⟨h.admits.data, fun t j hj => h.admits.code t j ?_⟩
    by_cases ht : t = k.current
    · subst ht
      exact hf ▸ List.mem_cons_of_mem i (by simpa [Kernel.pop] using hj)
    · simpa [Kernel.pop, ht] using hj
  have filed : Filed k k' i := execInstr_filed admits (execInstr_of_step hf hs)
  exact ⟨he.admits h.admits hf, step_phased h.phased built hs, h.known.step h.admits hf he filed,
    h.listed.step h.known hf he filed⟩

/-- Instructions in front of what the current thread has to execute, none of which registers. -/
theorem push (h : k.Orderly) {is : List Instr} (admits : ∀ j ∈ is, j.Admits (Schedule.admits σ))
    (free : ∀ t, .registerScheduler t ∉ is)
    (phase : Phase (Tacos.Thread.code (is ++ k.frames k.current))) :
    (k.push k.current is).Orderly := by
  have building : ∀ t, Building (k.push k.current is).frames t ↔ Building k.frames t := by
    intro t
    constructor
    · rintro ⟨u, hu⟩
      exact ⟨u, (push_back hu).resolve_left (free t)⟩
    · rintro ⟨u, hu⟩
      exact ⟨u, mem_push hu⟩
  refine ⟨h.admits.push admits, fun t => ?_, ⟨h.known.current, h.known.queued, h.known.waiters,
    fun t ht => h.known.building t ((building t).mp ht), fun t ht => ?_⟩,
    fun t ready registered => h.listed t ready (mt (building t).mpr registered)⟩
  · by_cases ht : t = k.current
    · subst ht
      simpa [Kernel.push] using phase
    · simpa [Kernel.push, ht] using h.phased t
  · have other : t ≠ k.current := (h.known.current.trans_le ht).ne'
    exact (Function.update_of_ne other _ _).trans (h.known.unborn t ht)

theorem yield (h : k.Orderly) : (k.push k.current [.schedule]).Orderly :=
  h.push (by simp [Instr.Admits]) (by simp) (h.phased k.current)

theorem call {c : Call} (h : k.Orderly) (hs : k.step (.call c) = some k') : k'.Orderly := by
  have phased := step_phased h.phased h.known.current.ne hs
  obtain ⟨-, rfl⟩ := step_call hs
  refine h.push (c.code_admits (admitted_of_call hs)) (fun t => by cases c <;> simp [Call.code]) ?_
  simpa [Kernel.push] using phased k.current

theorem leave (h : k.Orderly) {s : Status} (hs : s ≠ .Ready) (t : Tid) :
    (k.setStatus t s).Orderly :=
  ⟨⟨h.admits.data, h.admits.code⟩, h.phased, ⟨h.known.current, h.known.queued, h.known.waiters,
    h.known.building, h.known.unborn⟩, fun u ready => h.listed u (ready_of_left hs ready)⟩

theorem wakeUp {t : Tid} (h : k.Orderly) (built : t < k.nextTid) (hw : k.wakeUp t = .ok k') :
    k'.Orderly ∧ k'.nextTid = k.nextTid := by
  obtain ⟨-, q, registered, rfl⟩ := wakeUp_cases hw
  obtain ⟨q', same, perm⟩ :=
    LawfulSchedule.register_spec k.locks.priority k.scheduler t (h.admits.data t).priority
  obtain rfl : q' = q := Except.ok.inj (same.symm.trans registered)
  refine ⟨⟨⟨h.admits.data, h.admits.code⟩, h.phased, ⟨h.known.current, fun u hu => ?_,
    h.known.waiters, h.known.building, h.known.unborn⟩, fun u ready registered => ?_⟩, rfl⟩
  · obtain rfl | hu := List.mem_cons.mp (perm.mem_iff.mp hu)
    · exact built
    · exact h.known.queued u hu
  · by_cases heq : u = t
    · exact perm.mem_iff.mpr (heq ▸ List.mem_cons_self)
    · refine perm.mem_iff.mpr (List.mem_cons_of_mem t (h.listed u ?_ registered))
      exact (Function.update_of_ne heq _ _).symm.trans ready

end Orderly

theorem Wired.orderly (h : k.Wired) : k.Orderly := by
  have core : k.Core := h.manager.core
  have built : ∀ t, k.status t ≠ .Dying → t < k.nextTid := by
    intro t alive
    by_contra beyond
    exact alive (core.fresh t (Nat.le_of_not_lt beyond)).1
  refine ⟨h.manager.admits, h.phased, ⟨core.current_lt, fun t ht => built t ?_,
    fun x t ht => built t ?_, ?_, fun t ht => (core.fresh t ht).2⟩, fun t ready registered =>
    (core.mem_queue t).mpr ⟨ready, registered⟩⟩
  · simp [((core.mem_queue t).mp ht).1]
  · simp [core.mem_waiters x t ht]
  · rintro t ⟨u, hu⟩
    exact built t (by simp [core.building_ready u t hu])

end Kernel

namespace Timer

variable {σ : Type} [Schedule σ] [LawfulSchedule σ] {heap : SleepQueue} {s s' : Timer σ}

/-- The kernel is in order, and every sleeper is a thread of it. -/
structure Orderly (s : Timer σ) : Prop where
  kernel : s.kernel.Orderly
  sleepers : ∀ d ∈ s.sleepq, d.thread < s.kernel.nextTid

omit [LawfulSchedule σ] in
/-- The loop of `tick` leaves the current thread and all pending code alone. -/
theorem wakeDue_keeps {now : Int} {n : Nat} {q q' : List SleepData} {k k' : Kernel σ}
    (ran : wakeDue heap now n q k = .ok (q', k')) :
    k'.current = k.current ∧ k'.frames = k.frames := by
  induction n generalizing q k with
  | zero =>
    cases ran
    exact ⟨rfl, rfl⟩
  | succ n ih =>
    rw [wakeDue] at ran
    split at ran
    · cases ran
      exact ⟨rfl, rfl⟩
    · split at ran
      · split at ran
        · rename_i k₁ woken
          obtain ⟨current, frames⟩ := ih ran
          obtain ⟨-, r, -, rfl⟩ := Kernel.wakeUp_cases woken
          exact ⟨current, frames⟩
        · cases ran
      · cases ran
        exact ⟨rfl, rfl⟩

theorem wakeDue_orderly {now : Int} {n : Nat} {q q' : List SleepData} {k k' : Kernel σ}
    (h : k.Orderly) (built : ∀ d ∈ q, d.thread < k.nextTid)
    (ran : wakeDue heap now n q k = .ok (q', k')) :
    k'.Orderly ∧ ∀ d ∈ q', d.thread < k'.nextTid := by
  induction n generalizing q k with
  | zero =>
    cases ran
    exact ⟨h, built⟩
  | succ n ih =>
    rw [wakeDue] at ran
    split at ran
    · cases ran
      exact ⟨h, built⟩
    · rename_i d rest popped
      have hq : q ≠ [] := by
        rintro rfl
        rw [heap.pop_nil] at popped
        cases popped
      obtain ⟨d', rest', popped', perm, -⟩ := heap.pop_spec q hq
      obtain ⟨rfl, rfl⟩ := Prod.mk.inj (Option.some.inj (popped.symm.trans popped'))
      split at ran
      · split at ran
        · rename_i k₁ woken
          obtain ⟨orderly, next⟩ := h.wakeUp (built d (perm.mem_iff.mp List.mem_cons_self)) woken
          refine ih orderly (fun e he => ?_) ran
          rw [next]
          exact built e (perm.mem_iff.mp (List.mem_cons_of_mem d he))
        · cases ran
      · cases ran
        exact ⟨h, built⟩

namespace Orderly

theorem exec (h : s.Orderly) (hs : s.step heap .exec = some s') : s'.Orderly := by
  obtain ⟨k, hk, rfl⟩ := Option.map_eq_some_iff.mp hs
  refine ⟨h.kernel.exec hk, fun d hd => (h.sleepers d hd).trans_le ?_⟩
  obtain ⟨i, rest, -, he⟩ := Kernel.step_exec h.kernel.known.current.ne hk
  exact he.nextTid_le

theorem call {c : Call} (h : s.Orderly) (hs : s.step heap (.call c) = some s') : s'.Orderly := by
  obtain ⟨k, hk, rfl⟩ := step_call hs
  refine ⟨h.kernel.call hk, ?_⟩
  obtain ⟨-, rfl⟩ := Kernel.step_call hk
  exact h.sleepers

theorem doze {n : Int} (h : s.Orderly) : (s.doze n).Orderly := by
  refine ⟨h.kernel, fun d hd => ?_⟩
  obtain rfl | hd := List.mem_cons.mp hd
  · exact h.kernel.known.current
  · exact h.sleepers d hd

theorem marked (h : s.Orderly) : s.marked.Orderly :=
  ⟨(h.kernel.leave (by simp) s.kernel.current).yield, h.sleepers⟩

theorem tick (h : s.Orderly) (hs : s.step heap .tick = some s') : s'.Orderly := by
  obtain ⟨-, q, k, woken, rfl⟩ := step_tick hs
  obtain ⟨orderly, built⟩ := wakeDue_orderly h.kernel h.sleepers woken
  exact ⟨orderly.yield, built⟩

end Orderly

theorem start_orderly {intr : Bool} {value lockid : Nat → Nat} {k : Kernel σ}
    (h : Kernel.init intr value lockid = .ok k) : (start k).Orderly :=
  ⟨(Kernel.init_wired h).orderly, fun d hd => absurd hd (by simp [start])⟩

end Timer

end Tacos.Thread
