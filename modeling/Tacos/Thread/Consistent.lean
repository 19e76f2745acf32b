/- GID: Tacos/Thread/Consistent
   generality: G
   source: src/thread/manager.rs, src/thread.rs, src/sync/sema.rs
   digest: When statuses, ready queue, waiters queues and current thread agree, and what keeps
     them so. -/

import Tacos.Thread.Kernel

set_option autoImplicit false
set_option relaxedAutoImplicit false

namespace Tacos.Thread

/-- A thread object that its creator has built and not yet registered. -/
def Building (frames : Tid → List Instr) (t : Tid) : Prop :=
  ∃ u, .registerScheduler t ∈ frames u

/-- The instructions of the idle thread's program: a loop of `schedule`. -/
def Instr.idling : Instr → Bool
  | .schedule | .restore _ | .kernelThread => true
  | _ => false

/-- The bookkeeping of the manager agrees: statuses with ready queues, waiters queues and
the current thread. Nothing is said about what the current thread executes next. -/
structure Consistent {ι : Type} (status : Tid → Status) (nextTid : Tid) (queue : List Tid)
    (current : Tid) (waiters : ι → List Tid) (frames : Tid → List Instr) : Prop where
  fresh : ∀ t, nextTid ≤ t → status t = .Dying ∧ frames t = []
  current_lt : current < nextTid
  running : ∀ t, status t = .Running → t = current
  current_not_ready : status current ≠ .Ready
  queue_nodup : queue.Nodup
  mem_queue : ∀ t, t ∈ queue ↔ status t = .Ready ∧ ¬ Building frames t
  waiters_nodup : ∀ s, (waiters s).Nodup
  mem_waiters : ∀ s t, t ∈ waiters s → status t = .Blocked
  blocked_waits : ∀ t, status t = .Blocked → ∃ s, t ∈ waiters s
  waits_once : ∀ s s' t, t ∈ waiters s → t ∈ waiters s' → s = s'
  building_ready : ∀ u t, .registerScheduler t ∈ frames u → status t = .Ready
  building_once : ∀ u u' t, .registerScheduler t ∈ frames u →
    .registerScheduler t ∈ frames u' → u = u'
  building_count : ∀ u t, (frames u).count (.registerScheduler t) ≤ 1
  idle_status : status Kernel.idle = .Ready ∨ status Kernel.idle = .Running
  idle_built : ¬ Building frames Kernel.idle
  idle_frames : ∀ i ∈ frames Kernel.idle, i.idling

namespace Consistent

variable {ι : Type} {status : Tid → Status} {nextTid : Tid} {queue queue' : List Tid}
  {current : Tid} {waiters : ι → List Tid} {frames : Tid → List Instr}

theorem perm (h : Consistent status nextTid queue current waiters frames)
    (hp : queue'.Perm queue) : Consistent status nextTid queue' current waiters frames :=
  { h with
    queue_nodup := hp.nodup_iff.mpr h.queue_nodup
    mem_queue := fun t => hp.mem_iff.trans (h.mem_queue t) }

theorem idle_of_not_running (h : Consistent status nextTid queue current waiters frames)
    (hr : status current ≠ .Running) : Kernel.idle ∈ queue := by
  apply (h.mem_queue _).mpr ⟨?_, h.idle_built⟩
  rcases h.idle_status with hi | hi
  · exact hi
  · exact (hr (h.running _ hi ▸ hi)).elim

theorem current_ne_idle (h : Consistent status nextTid queue current waiters frames)
    {i : Instr} (hi : i ∈ frames current) (hn : i.idling = false) : current ≠ Kernel.idle := by
  intro he
  have := h.idle_frames i (he ▸ hi)
  rw [hn] at this
  cases this

/-- Changing one thread's instructions, without touching pending registrations. -/
theorem set_frames (h : Consistent status nextTid queue current waiters frames)
    {u : Tid} {l : List Instr} (hu : u < nextTid)
    (same : ∀ t, l.count (.registerScheduler t) = (frames u).count (.registerScheduler t))
    (hidle : u = Kernel.idle → ∀ i ∈ l, i.idling) :
    Consistent status nextTid queue current waiters (Function.update frames u l) := by
  have hmem : ∀ v t, .registerScheduler t ∈ Function.update frames u l v ↔
      .registerScheduler t ∈ frames v := by
    intro v t
    by_cases hv : v = u
    · subst hv
      rw [Function.update_self, ← List.count_pos_iff, ← List.count_pos_iff, same]
    · rw [Function.update_of_ne hv]
  have hbuild : ∀ t, Building (Function.update frames u l) t ↔ Building frames t := fun t =>
    exists_congr fun v => hmem v t
  exact
    { h with
      fresh := by
        intro t ht
        have hne : t ≠ u := (Nat.lt_of_lt_of_le hu ht).ne'
        simpa [Function.update_of_ne hne] using h.fresh t ht
      mem_queue := fun t => by rw [h.mem_queue, hbuild]
      building_ready := fun v t hv => h.building_ready v t ((hmem v t).mp hv)
      building_once := fun v v' t hv hv' =>
        h.building_once v v' t ((hmem v t).mp hv) ((hmem v' t).mp hv')
      building_count := by
        intro v t
        by_cases hv : v = u
        · subst hv
          rw [Function.update_self, same]
          exact h.building_count v t
        · rw [Function.update_of_ne hv]
          exact h.building_count v t
      idle_built := fun hb => h.idle_built ((hbuild _).mp hb)
      idle_frames := by
        intro i hi
        by_cases hv : Kernel.idle = u
        · rw [hv, Function.update_self] at hi
          exact hidle hv.symm i hi
        · rw [Function.update_of_ne hv] at hi
          exact h.idle_frames i hi }

/-- Removing the instruction that is about to be executed. -/
theorem pop (h : Consistent status nextTid queue current waiters frames) {i : Instr}
    {rest : List Instr} (hf : frames current = i :: rest)
    (hi : ∀ t, i ≠ .registerScheduler t) :
    Consistent status nextTid queue current waiters (Function.update frames current rest) := by
  apply h.set_frames h.current_lt
  · intro t
    rw [hf, List.count_cons_of_ne (hi t)]
  · intro he j hj
    exact h.idle_frames j (he ▸ hf ▸ List.mem_cons_of_mem i hj)

/-- Inserting instructions none of which registers a thread. -/
theorem push (h : Consistent status nextTid queue current waiters frames) {is : List Instr}
    {u : Tid} (hu : u < nextTid) (hi : ∀ t, .registerScheduler t ∉ is)
    (hidle : u = Kernel.idle → ∀ i ∈ is, i.idling) :
    Consistent status nextTid queue current waiters
      (Function.update frames u (is ++ frames u)) := by
  apply h.set_frames hu
  · intro t
    rw [List.count_append, List.count_eq_zero.mpr (hi t), Nat.zero_add]
  · intro he i him
    rcases List.mem_append.mp him with him | him
    · exact hidle he i him
    · exact h.idle_frames i (he ▸ him)

theorem current_not_queued (h : Consistent status nextTid queue current waiters frames) :
    current ∉ queue := fun hm => h.current_not_ready ((h.mem_queue _).mp hm).1

theorem running_not_waiting (h : Consistent status nextTid queue current waiters frames)
    {t : Tid} (hr : status t = .Running) (s : ι) : t ∉ waiters s := by
  intro hm
  rw [h.mem_waiters s t hm] at hr
  cases hr

/-- The running thread, unless it is the idle thread, marks itself as blocked or dying;
a blocked thread has put itself into one waiters queue before. -/
theorem leave (h : Consistent status nextTid queue current waiters frames)
    (hr : status current = .Running) (hi : current ≠ Kernel.idle)
    {x : Status} (hx : x = .Blocked ∨ x = .Dying) {s : ι} {waiters' : ι → List Tid}
    (waits : ∀ s' t, t ∈ waiters' s' ↔ (x = .Blocked ∧ s' = s ∧ t = current) ∨ t ∈ waiters s')
    (nodup : ∀ s', (waiters' s').Nodup) :
    Consistent (Function.update status current x) nextTid queue current waiters' frames := by
  have notWaiting := h.running_not_waiting hr
  have other : ∀ t, t ≠ current → Function.update status current x t = status t :=
    fun t ht => Function.update_of_ne ht _ _
  have self : Function.update status current x current = x := Function.update_self ..
  have notReady : x ≠ .Ready := by rcases hx with rfl | rfl <;> simp
  have notRunning : x ≠ .Running := by rcases hx with rfl | rfl <;> simp
  exact
    { fresh := by
        intro t ht
        rw [other t (Nat.lt_of_lt_of_le h.current_lt ht).ne']
        exact h.fresh t ht
      current_lt := h.current_lt
      running := by
        intro t ht
        by_cases hc : t = current
        · exact hc
        · exact h.running t (other t hc ▸ ht)
      current_not_ready := by rwa [self]
      queue_nodup := h.queue_nodup
      mem_queue := by
        intro t
        by_cases hc : t = current
        · subst hc
          simp [h.current_not_queued, notReady]
        · rw [h.mem_queue, other t hc]
      waiters_nodup := nodup
      mem_waiters := by
        intro s' t ht
        rcases (waits s' t).mp ht with ⟨hb, -, rfl⟩ | ht
        · rw [self, hb]
        · have hc : t ≠ current := fun he => notWaiting s' (he ▸ ht)
          rw [other t hc]
          exact h.mem_waiters s' t ht
      blocked_waits := by
        intro t ht
        by_cases hc : t = current
        · rw [hc, self] at ht
          exact ⟨s, (waits s t).mpr (.inl ⟨ht, rfl, hc⟩)⟩
        · obtain ⟨s', hs'⟩ := h.blocked_waits t (other t hc ▸ ht)
          exact ⟨s', (waits s' t).mpr (.inr hs')⟩
      waits_once := by
        intro s' s'' t ht ht'
        rcases (waits s' t).mp ht with ⟨-, rfl, rfl⟩ | ht
        · rcases (waits s'' t).mp ht' with ⟨-, rfl, -⟩ | ht'
          · rfl
          · exact (notWaiting _ ht').elim
        · rcases (waits s'' t).mp ht' with ⟨-, rfl, rfl⟩ | ht'
          · exact (notWaiting s' ht).elim
          · exact h.waits_once s' s'' t ht ht'
      building_ready := by
        intro u t hu
        have ready := h.building_ready u t hu
        have hc : t ≠ current := fun he => h.current_not_ready (he ▸ ready)
        rw [other t hc, ready]
      building_once := h.building_once
      building_count := h.building_count
      idle_status := by
        rw [other _ (Ne.symm hi)]
        exact h.idle_status
      idle_built := h.idle_built
      idle_frames := h.idle_frames }

theorem block [DecidableEq ι] (h : Consistent status nextTid queue current waiters frames)
    (hr : status current = .Running) (hi : current ≠ Kernel.idle) (s : ι) :
    Consistent (Function.update status current .Blocked) nextTid queue current
      (Function.update waiters s (current :: waiters s)) frames := by
  apply h.leave hr hi (.inl rfl) (s := s)
  · intro s' t
    by_cases hs : s' = s
    · subst hs
      simp
    · simp [hs]
  · intro s'
    by_cases hs : s' = s
    · subst hs
      rw [Function.update_self]
      exact List.nodup_cons.mpr ⟨h.running_not_waiting hr _, h.waiters_nodup _⟩
    · rw [Function.update_of_ne hs]
      exact h.waiters_nodup s'

theorem die [Inhabited ι] (h : Consistent status nextTid queue current waiters frames)
    (hr : status current = .Running) (hi : current ≠ Kernel.idle) :
    Consistent (Function.update status current .Dying) nextTid queue current waiters frames :=
  h.leave hr hi (.inr rfl) (s := default) (by simp) h.waiters_nodup

/-- A waiter leaves its queue, becomes ready and is registered. -/
theorem wake [DecidableEq ι] (h : Consistent status nextTid queue current waiters frames)
    {s : ι} {t : Tid} {rest : List Tid} (notCurrent : current ≠ t)
    (hp : (t :: rest).Perm (waiters s)) :
    Consistent (Function.update status t .Ready) nextTid (t :: queue) current
      (Function.update waiters s rest) frames := by
  have waiting : t ∈ waiters s := hp.mem_iff.mp List.mem_cons_self
  have blocked := h.mem_waiters s t waiting
  obtain ⟨notRest, restNodup⟩ := List.nodup_cons.mp (hp.nodup_iff.mpr (h.waiters_nodup s))
  have notQueued : t ∉ queue := by
    intro hm
    rw [((h.mem_queue t).mp hm).1] at blocked
    cases blocked
  have notBuilding : ¬ Building frames t := by
    rintro ⟨u, hu⟩
    rw [h.building_ready u t hu] at blocked
    cases blocked
  have other : ∀ u, u ≠ t → Function.update status t .Ready u = status u :=
    fun u hu => Function.update_of_ne hu _ _
  have self : Function.update status t Status.Ready t = .Ready := Function.update_self ..
  have waits : ∀ s' u, u ∈ Function.update waiters s rest s' ↔ u ≠ t ∧ u ∈ waiters s' := by
    intro s' u
    by_cases hs : s' = s
    · subst hs
      rw [Function.update_self, ← hp.mem_iff, List.mem_cons]
      constructor
      · intro hu
        exact ⟨fun he => notRest (he ▸ hu), .inr hu⟩
      · rintro ⟨hne, he | hu⟩
        · exact (hne he).elim
        · exact hu
    · rw [Function.update_of_ne hs]
      constructor
      · intro hu
        exact ⟨fun he => hs (h.waits_once s' s t (he ▸ hu) waiting), hu⟩
      · exact fun hu => hu.2
  exact
    { fresh := by
        intro u hu
        have hne : u ≠ t := by
          rintro rfl
          rw [(h.fresh u hu).1] at blocked
          cases blocked
        rw [other u hne]
        exact h.fresh u hu
      current_lt := h.current_lt
      running := by
        intro u hu
        by_cases he : u = t
        · rw [he, self] at hu
          cases hu
        · exact h.running u (other u he ▸ hu)
      current_not_ready := by
        rw [other _ notCurrent]
        exact h.current_not_ready
      queue_nodup := List.nodup_cons.mpr ⟨notQueued, h.queue_nodup⟩
      mem_queue := by
        intro u
        rw [List.mem_cons]
        by_cases he : u = t
        · subst he
          simp [notBuilding]
        · simp only [he, false_or, other u he]
          exact h.mem_queue u
      waiters_nodup := by
        intro s'
        by_cases hs : s' = s
        · subst hs
          rwa [Function.update_self]
        · rw [Function.update_of_ne hs]
          exact h.waiters_nodup s'
      mem_waiters := by
        intro s' u hu
        obtain ⟨hne, hu⟩ := (waits s' u).mp hu
        rw [other u hne]
        exact h.mem_waiters s' u hu
      blocked_waits := by
        intro u hu
        by_cases he : u = t
        · rw [he, self] at hu
          cases hu
        · obtain ⟨s', hs'⟩ := h.blocked_waits u (other u he ▸ hu)
          exact ⟨s', (waits s' u).mpr ⟨he, hs'⟩⟩
      waits_once := fun s' s'' u hu hu' =>
        h.waits_once s' s'' u ((waits s' u).mp hu).2 ((waits s'' u).mp hu').2
      building_ready := by
        intro v u hu
        have hne : u ≠ t := fun he => notBuilding ⟨v, he ▸ hu⟩
        rw [other u hne]
        exact h.building_ready v u hu
      building_once := h.building_once
      building_count := h.building_count
      idle_status := by
        by_cases he : Kernel.idle = t
        · exact .inl (he ▸ self)
        · rw [other _ he]
          exact h.idle_status
      idle_built := h.idle_built
      idle_frames := h.idle_frames }

/-- A queued thread becomes the running one. The thread it replaces keeps its status if
that is `Dying` or `Blocked`; a running one becomes ready and is registered again. -/
theorem switch (h : Consistent status nextTid queue current waiters frames)
    {next : Tid} {rest queue' : List Tid} {x : Status} (hp : (next :: rest).Perm queue)
    (hx : (status current ≠ .Running ∧ x = status current ∧ queue' = rest) ∨
      (status current = .Running ∧ x = .Ready ∧ queue' = current :: rest)) :
    Consistent (Function.update (Function.update status next .Running) current x)
      nextTid queue' next waiters frames := by
  have queued : next ∈ queue := hp.mem_iff.mp List.mem_cons_self
  obtain ⟨ready, built⟩ := (h.mem_queue next).mp queued
  obtain ⟨notRest, restNodup⟩ := List.nodup_cons.mp (hp.nodup_iff.mpr h.queue_nodup)
  have hne : next ≠ current := fun he => h.current_not_ready (he ▸ ready)
  have currentRest : current ∉ rest := fun hm =>
    h.current_not_queued (hp.mem_iff.mp (List.mem_cons_of_mem next hm))
  have currentBuilt : ¬ Building frames current := by
    rintro ⟨u, hu⟩
    exact h.current_not_ready (h.building_ready u current hu)
  set status' := Function.update (Function.update status next .Running) current x with hs
  have atCurrent : status' current = x := by simp [hs]
  have atNext : status' next = .Running := by simp [hs, Function.update_of_ne hne]
  have other : ∀ t, t ≠ current → t ≠ next → status' t = status t := by
    intro t hc hn
    simp [hs, hc, hn]
  have notRunning : x ≠ .Running := by
    rcases hx with ⟨hr, rfl, -⟩ | ⟨-, rfl, -⟩
    · exact hr
    · simp
  have sameBlocked : ∀ t, status' t = .Blocked ↔ status t = .Blocked := by
    intro t
    by_cases hc : t = current
    · subst hc
      rw [atCurrent]
      rcases hx with ⟨-, rfl, -⟩ | ⟨hr, rfl, -⟩
      · rfl
      · simp [hr]
    · by_cases hn : t = next
      · subst hn
        simp [atNext, ready]
      · rw [other t hc hn]
  exact
    { fresh := by
        intro t ht
        have hc : t ≠ current := (Nat.lt_of_lt_of_le h.current_lt ht).ne'
        have hn : t ≠ next := by
          rintro rfl
          rw [(h.fresh t ht).1] at ready
          cases ready
        rw [other t hc hn]
        exact h.fresh t ht
      current_lt := by
        by_contra hge
        rw [(h.fresh next (Nat.le_of_not_lt hge)).1] at ready
        cases ready
      running := by
        intro t ht
        by_cases hn : t = next
        · exact hn
        · by_cases hc : t = current
          · rw [hc, atCurrent] at ht
            exact (notRunning ht).elim
          · exact (hc (h.running t (other t hc hn ▸ ht))).elim
      current_not_ready := by simp [atNext]
      queue_nodup := by
        rcases hx with ⟨-, -, rfl⟩ | ⟨-, -, rfl⟩
        · exact restNodup
        · exact List.nodup_cons.mpr ⟨currentRest, restNodup⟩
      mem_queue := by
        intro t
        by_cases hc : t = current
        · subst hc
          rw [atCurrent]
          rcases hx with ⟨-, rfl, rfl⟩ | ⟨-, rfl, rfl⟩
          · simp [currentRest, h.current_not_ready]
          · simp [currentBuilt]
        · have hq : t ∈ queue' ↔ t ∈ rest := by
            rcases hx with ⟨-, -, rfl⟩ | ⟨-, -, rfl⟩
            · rfl
            · simp [hc]
          rw [hq]
          by_cases hn : t = next
          · subst hn
            simp [notRest, atNext]
          · rw [other t hc hn, ← h.mem_queue, ← hp.mem_iff, List.mem_cons]
            simp [hn]
      waiters_nodup := h.waiters_nodup
      mem_waiters := fun s t ht => (sameBlocked t).mpr (h.mem_waiters s t ht)
      blocked_waits := fun t ht => h.blocked_waits t ((sameBlocked t).mp ht)
      waits_once := h.waits_once
      building_ready := by
        intro u t hu
        have hc : t ≠ current := fun he => currentBuilt ⟨u, he ▸ hu⟩
        have hn : t ≠ next := fun he => built ⟨u, he ▸ hu⟩
        rw [other t hc hn]
        exact h.building_ready u t hu
      building_once := h.building_once
      building_count := h.building_count
      idle_status := by
        by_cases hc : Kernel.idle = current
        · rw [hc, atCurrent]
          rcases hx with ⟨hr, -, -⟩ | ⟨-, rfl, -⟩
          · rcases h.idle_status with hi | hi
            · exact (h.current_not_ready (hc ▸ hi)).elim
            · exact (hr (hc ▸ hi)).elim
          · exact .inl rfl
        · by_cases hn : Kernel.idle = next
          · rw [hn, atNext]
            exact .inr rfl
          · rw [other _ hc hn]
            exact h.idle_status
      idle_built := h.idle_built
      idle_frames := h.idle_frames }

/-- A new thread object: ready, with a fresh identifier, and one pending registration. -/
theorem build (h : Consistent status nextTid queue current waiters frames)
    (hi : current ≠ Kernel.idle) :
    Consistent (Function.update status nextTid .Ready) (nextTid + 1) queue current waiters
      (Function.update (Function.update frames nextTid [.kernelThread]) current
        (.registerScheduler nextTid :: .registerAll nextTid :: .schedule :: frames current)) := by
  obtain ⟨unborn, noCode⟩ := h.fresh nextTid le_rfl
  have hne : nextTid ≠ current := h.current_lt.ne'
  set status' := Function.update status nextTid .Ready with hs
  set frames' := Function.update (Function.update frames nextTid [.kernelThread]) current
    (.registerScheduler nextTid :: .registerAll nextTid :: .schedule :: frames current) with hf
  have self : status' nextTid = .Ready := by simp [hs]
  have other : ∀ t, t ≠ nextTid → status' t = status t := fun t ht => by simp [hs, ht]
  have atCurrent : frames' current = .registerScheduler nextTid :: .registerAll nextTid ::
      .schedule :: frames current := by simp [hf]
  have atNew : frames' nextTid = [.kernelThread] := by simp [hf, hne]
  have frames_other : ∀ t, t ≠ current → t ≠ nextTid → frames' t = frames t :=
    fun t hc hn => by simp [hf, hc, hn]
  have mem : ∀ u t, .registerScheduler t ∈ frames' u ↔
      (u = current ∧ t = nextTid) ∨ .registerScheduler t ∈ frames u := by
    intro u t
    by_cases hc : u = current
    · subst hc
      simp [atCurrent]
    · by_cases hn : u = nextTid
      · subst hn
        simp [atNew, noCode, hc]
      · simp [frames_other u hc hn, hc]
  have notBuilding : ∀ u, .registerScheduler nextTid ∉ frames u := by
    intro u hu
    rw [h.building_ready u nextTid hu] at unborn
    cases unborn
  have building : ∀ t, Building frames' t ↔ t = nextTid ∨ Building frames t := by
    intro t
    simp only [Building, mem, exists_or, exists_and_right, exists_eq, true_and]
  have notIdle : Kernel.idle ≠ nextTid := by
    intro he
    rw [← he] at unborn
    rcases h.idle_status with hi | hi <;> rw [hi] at unborn <;> cases unborn
  exact
    { fresh := by
        intro t ht
        have hn : t ≠ nextTid := (Nat.lt_of_succ_le ht).ne'
        have hc : t ≠ current := (Nat.lt_trans h.current_lt (Nat.lt_of_succ_le ht)).ne'
        rw [other t hn, frames_other t hc hn]
        exact h.fresh t (Nat.le_of_succ_le ht)
      current_lt := Nat.lt_succ_of_lt h.current_lt
      running := by
        intro t ht
        by_cases hn : t = nextTid
        · rw [hn, self] at ht
          cases ht
        · exact h.running t (other t hn ▸ ht)
      current_not_ready := by
        rw [other _ (Ne.symm hne)]
        exact h.current_not_ready
      queue_nodup := h.queue_nodup
      mem_queue := by
        intro t
        rw [h.mem_queue, building]
        by_cases hn : t = nextTid
        · subst hn
          simp [unborn]
        · simp [other t hn, hn]
      waiters_nodup := h.waiters_nodup
      mem_waiters := by
        intro s t ht
        have blocked := h.mem_waiters s t ht
        have hn : t ≠ nextTid := by
          rintro rfl
          rw [unborn] at blocked
          cases blocked
        rw [other t hn, blocked]
      blocked_waits := by
        intro t ht
        by_cases hn : t = nextTid
        · rw [hn, self] at ht
          cases ht
        · exact h.blocked_waits t (other t hn ▸ ht)
      waits_once := h.waits_once
      building_ready := by
        intro u t hu
        rcases (mem u t).mp hu with ⟨-, rfl⟩ | hu
        · exact self
        · have hn : t ≠ nextTid := fun he => notBuilding u (he ▸ hu)
          rw [other t hn]
          exact h.building_ready u t hu
      building_once := by
        intro u u' t hu hu'
        rcases (mem u t).mp hu with ⟨rfl, rfl⟩ | old
        · rcases (mem u' _).mp hu' with ⟨rfl, -⟩ | old'
          · rfl
          · exact (notBuilding _ old').elim
        · rcases (mem u' t).mp hu' with ⟨rfl, rfl⟩ | old'
          · exact (notBuilding _ old).elim
          · exact h.building_once u u' t old old'
      building_count := by
        intro u t
        by_cases hc : u = current
        · subst hc
          rw [atCurrent]
          by_cases hn : t = nextTid
          · subst hn
            simp [List.count_eq_zero.mpr (notBuilding u)]
          · have := h.building_count u t
            simpa [List.count_cons, Ne.symm hn] using this
        · by_cases hn : u = nextTid
          · subst hn
            simp [atNew]
          · rw [frames_other u hc hn]
            exact h.building_count u t
      idle_status := by
        rw [other _ notIdle]
        exact h.idle_status
      idle_built := by
        rw [building]
        rintro (he | hb)
        · exact notIdle he
        · exact h.idle_built hb
      idle_frames := by
        rw [frames_other _ (Ne.symm hi) notIdle]
        exact h.idle_frames }

/-- The pending registration of a new thread is executed. -/
theorem register (h : Consistent status nextTid queue current waiters frames)
    {t : Tid} {rest : List Instr} (hf : frames current = .registerScheduler t :: rest) :
    Consistent status nextTid (t :: queue) current waiters
      (Function.update frames current rest) := by
  have pending : .registerScheduler t ∈ frames current := hf ▸ List.mem_cons_self
  have ready := h.building_ready current t pending
  have once : .registerScheduler t ∉ rest := by
    have := h.building_count current t
    rw [hf, List.count_cons_self] at this
    exact List.count_eq_zero.mp (Nat.le_zero.mp (Nat.le_of_succ_le_succ this))
  have notQueued : t ∉ queue := fun hm => ((h.mem_queue t).mp hm).2 ⟨current, pending⟩
  have mem : ∀ u v, .registerScheduler v ∈ Function.update frames current rest u ↔
      v ≠ t ∧ .registerScheduler v ∈ frames u := by
    intro u v
    by_cases hu : u = current
    · subst hu
      rw [Function.update_self, hf, List.mem_cons]
      by_cases hv : v = t
      · subst hv
        simp [once]
      · simp [hv]
    · rw [Function.update_of_ne hu]
      constructor
      · intro hm
        refine ⟨?_, hm⟩
        rintro rfl
        exact hu (h.building_once u current v hm pending)
      · exact fun hm => hm.2
  have building : ∀ v, Building (Function.update frames current rest) v ↔
      v ≠ t ∧ Building frames v := by
    intro v
    simp only [Building, mem, exists_and_left]
  exact
    { fresh := by
        intro v hv
        rw [Function.update_of_ne (Nat.lt_of_lt_of_le h.current_lt hv).ne']
        exact h.fresh v hv
      current_lt := h.current_lt
      running := h.running
      current_not_ready := h.current_not_ready
      queue_nodup := List.nodup_cons.mpr ⟨notQueued, h.queue_nodup⟩
      mem_queue := by
        intro v
        rw [building, List.mem_cons, h.mem_queue]
        by_cases hv : v = t
        · subst hv
          simp [ready]
        · simp [hv]
      waiters_nodup := h.waiters_nodup
      mem_waiters := h.mem_waiters
      blocked_waits := h.blocked_waits
      waits_once := h.waits_once
      building_ready := fun u v hv => h.building_ready u v ((mem u v).mp hv).2
      building_once := fun u u' v hv hv' =>
        h.building_once u u' v ((mem u v).mp hv).2 ((mem u' v).mp hv').2
      building_count := by
        intro u v
        by_cases hu : u = current
        · subst hu
          rw [Function.update_self]
          have := h.building_count u v
          rw [hf] at this
          exact (List.count_le_count_cons).trans this
        · rw [Function.update_of_ne hu]
          exact h.building_count u v
      idle_status := h.idle_status
      idle_built := fun hb => h.idle_built ((building _).mp hb).2
      idle_frames := by
        intro i hi
        by_cases hu : Kernel.idle = current
        · rw [hu, Function.update_self] at hi
          exact h.idle_frames i (hu ▸ hf ▸ List.mem_cons_of_mem _ hi)
        · rw [Function.update_of_ne hu] at hi
          exact h.idle_frames i hi }

end Consistent

end Tacos.Thread
