/- GID: Tacos/Thread/Roll
   generality: G
   source: src/thread/manager.rs, src/thread/imp.rs, src/thread.rs
   digest: Which threads are in the manager's list of all threads, and when a dead one comes back
     into it. -/

import Tacos.Thread.Donation

set_option autoImplicit false
set_option relaxedAutoImplicit false

namespace Tacos.Thread

open Tacos.Lib.Run

/-- The creator of a thread has still to push it to `all`. -/
def Enlisting (frames : Tid → List Instr) (t : Tid) : Prop :=
  ∃ u, .registerAll t ∈ frames u

/-- The instructions that have to do with a push to `all`. -/
def Instr.enlists : Instr → Bool
  | .build _ | .registerAll _ => true
  | _ => false

namespace Kernel

variable {σ : Type} [Schedule σ]

/-- What an instruction does to the statuses, the current thread and the list of all threads. -/
inductive Turn (k k' : Kernel σ) : Instr → Prop where
  | stays {i : Instr} (hi : i.enlists = false) (status : k'.status = k.status)
      (current : k'.current = k.current) (all : k'.all = k.all) : Turn k k' i
  | switch (next : Tid) (x : Status) (ready : k.status next = .Ready)
      (left : (k.status k.current ≠ .Running ∧ x = k.status k.current) ∨
        (k.status k.current = .Running ∧ x = .Ready))
      (status : k'.status = Function.update (Function.update k.status next .Running) k.current x)
      (current : k'.current = next)
      (all : k'.all = if k.status k.current = .Dying then k.all.filter
        (· != k.current) else k.all) :
      Turn k k' .schedule
  | build (p : Nat) (status : k'.status = Function.update k.status k.nextTid .Ready)
      (current : k'.current = k.current) (all : k'.all = k.all) : Turn k k' (.build p)
  | enlist (t : Tid) (status : k'.status = k.status) (current : k'.current = k.current)
      (all : k'.all = k.all ++ [t]) :
      Turn k k' (.registerAll t)
  | leave {i : Instr} (x : Status) (hi : i.enlists = false) (busy : i ≠ .schedule)
      (status : k'.status = Function.update k.status k.current x) (current : k'.current = k.current)
      (all : k'.all = k.all) : Turn k k' i
  | wake (s : SemaId) (w : Tid) (blocked : k.status w = .Blocked)
      (status : k'.status = Function.update k.status w .Ready) (current : k'.current = k.current)
      (all : k'.all = k.all) : Turn k k' (.up s)

private theorem register_roll {k k' : Kernel σ} {t : Tid} (h : k.register t = .ok k') :
    k'.status = k.status ∧ k'.current = k.current ∧ k'.all = k.all := by
  unfold register at h
  split at h
  · cases h
    exact ⟨rfl, rfl, rfl⟩
  · cases h

private theorem tail_turn {k k₁ k' : Kernel σ} {next : Tid} (h : k₁.scheduleTail k.current = .ok k')
    (status : k₁.status = Function.update k.status next .Running) (current : k₁.current =
      next) (all : k₁.all = k.all)
    (ready : k.status next = .Ready) (other : k.current ≠ next) : Turn k k' .schedule := by
  have before : k₁.status k.current = k.status k.current := by
    rw [status, Function.update_of_ne other]
  have same : k₁.status = Function.update
    (Function.update k.status next .Running) k.current (k.status k.current) := by
    rw [← before, ← status, Function.update_eq_self]
  unfold scheduleTail at h
  rw [before] at h
  split at h
  · rename_i dying
    cases h
    exact .switch next _ ready (.inl ⟨by rw [dying]; decide, rfl⟩) same current
      (by rw [if_pos dying, all])
  · rename_i running
    obtain ⟨status', current', all'⟩ := register_roll h
    refine .switch next _ ready (.inr ⟨running, rfl⟩) ?_ (current'.trans current) ?_
    · rw [status', setStatus, status]
    · rw [all', if_neg (by rw [running]; decide)]
      exact all
  · rename_i blocked
    cases h
    exact .switch next _ ready (.inl ⟨by rw [blocked]; decide, rfl⟩) same current
      (by rw [if_neg (by rw [blocked]; decide), all])
  · cases h

private theorem schedule_turn {k k' : Kernel σ} (busy : k.status k.current ≠ .Ready)
    (h : k.schedule = .ok k') :
    Turn k k' .schedule := by
  unfold Kernel.schedule at h
  split at h
  · cases h
  · split at h
    · cases h
    · split at h
      · cases h
        exact .stays rfl rfl rfl rfl
      · split at h
        · cases h
        · rename_i ready
          have ready := not_not.mp ready
          refine tail_turn h rfl rfl rfl ready ?_
          intro same
          exact busy (same ▸ ready)

private theorem up_turn {k k' : Kernel σ} {s : SemaId} (h : k.up s = .ok k') :
    Turn k k' (.up s) := by
  obtain ⟨-, ⟨-, rfl⟩ | ⟨i, p, t, k₁, -, -, -, -, woken, rfl⟩⟩ := up_cases h
  · exact .stays rfl rfl rfl rfl
  · obtain ⟨blocked, q, -, rfl⟩ := wakeUp_cases woken
    split <;> exact .wake s t blocked rfl rfl rfl

theorem step_turn {k k' : Kernel σ} {i : Instr} {rest : List Instr}
    (busy : k.status k.current ≠ .Ready)
    (hf : k.frames k.current = i :: rest) (h : k.step .exec = some k') : Turn k k' i := by
  have ran := execInstr_of_step hf h
  cases i with
  | schedule =>
    have turn := schedule_turn (k := k.pop rest) busy ran
    cases turn with
    | stays hi status current all => exact .stays hi status current all
    | switch next x ready left status current all =>
      exact .switch next x ready left status current all
    | leave x hi busy status current all => exact absurd rfl busy
  | up s =>
    have turn := up_turn (k := k.pop rest) ran
    cases turn with
    | stays hi status current all => exact .stays hi status current all
    | wake s w blocked status current all => exact .wake s w blocked status current all
    | leave x hi busy status current all => exact .leave x hi busy status current all
  | restore | kernelThread | down =>
    cases ran
    exact .stays rfl rfl rfl rfl
  | build p =>
    cases ran
    exact .build p rfl rfl rfl
  | registerScheduler t =>
    obtain ⟨status, current, all⟩ := register_roll ran
    exact .stays rfl status current all
  | registerAll t =>
    cases ran
    exact .enlist t rfl rfl rfl
  | exit =>
    cases ran
    exact .leave .Dying rfl nofun rfl rfl rfl
  | exitReturned => cases ran
  | downLoop s old =>
    cases ran
    unfold downLoop
    simp only
    split
    · exact .leave .Blocked rfl nofun rfl rfl rfl
    · exact .stays rfl rfl rfl rfl
  | access a =>
    simp only [execInstr] at ran
    split at ran
    · cases ran
      exact .stays rfl rfl rfl rfl
    · cases ran

private theorem access_enlists {cur : Tid} {m m' : Locks} {a : Access} {is : List Instr}
    (he : a.exec cur m = .ok (m', is)) (t : Tid) : .registerAll t ∉ is := by
  cases a <;> simp only [Access.exec] at he <;> (repeat' split at he) <;> cases he <;> simp

omit [Schedule σ] in
private theorem count_pending {k : Kernel σ} {is rest : List Instr} {i : Instr}
    (hf : k.frames k.current = i :: rest)
    {t : Tid} (hi : i ≠ .registerAll t) (free : .registerAll t ∉ is) (u : Tid) :
    (k.pending is rest u).count (.registerAll t) = (k.frames u).count (.registerAll t) := by
  by_cases here : u = k.current
  · rw [here, pending_self, hf, List.count_append, List.count_eq_zero.mpr free,
      List.count_cons_of_ne hi, Nat.zero_add]
  · rw [pending_of_ne k is rest here]

omit [Schedule σ] in
/-- Only `build` and the push itself touch what is still to be pushed to `all`. -/
theorem Effect.enlists_same {k k' : Kernel σ} {i : Instr} {rest : List Instr}
    (he : Effect k rest k' i)
    (hf : k.frames k.current = i :: rest) (free : i.enlists = false) (t u : Tid) :
    (k'.frames u).count (.registerAll t) = (k.frames u).count (.registerAll t) := by
  have hi : i ≠ .registerAll t := by
    rintro rfl
    cases free
  cases he with
  | schedule _ _ _ frames =>
    rcases frames with ⟨-, frames⟩ | frames
    · rw [frames, count_pending hf hi (by simp)]
    · rw [frames, count_pending hf hi (by simp)]
  | build p => cases free
  | up _ _ _ _ _ _ _ frames =>
    rcases frames with frames | frames
    · rw [frames, count_pending hf hi (by simp)]
    · rw [frames, count_pending hf hi (by simp)]
  | access a is exec _ _ _ frames => rw [frames, count_pending hf hi (access_enlists exec t)]
  | still _ _ _ _ _ _ frames | exit _ _ _ _ frames | down _ _ _ _ _ frames
  | block _ _ _ _ _ _ _ frames | take _ _ _ _ _ _ _ frames =>
      rw [frames, count_pending hf hi (by simp)]

omit [Schedule σ] in
theorem Effect.nextTid_same {k k' : Kernel σ} {i : Instr} {rest : List Instr}
    (he : Effect k rest k' i)
    (free : i.enlists = false) : k'.nextTid = k.nextTid := by
  cases he with
  | build p => cases free
  | schedule _ _ nextTid | still _ _ _ _ nextTid | exit _ _ nextTid | down _ _ _ nextTid
  | block _ _ _ _ _ nextTid | take _ _ _ _ _ nextTid | up _ _ _ _ _ nextTid
  | access _ _ _ _ nextTid => exact nextTid

/-- The list of all threads: it has those that live and have been pushed, once, and none that has
died and been left behind. -/
structure Enrolled (k : Kernel σ) : Prop where
  known : ∀ t ∈ k.all, t < k.nextTid
  expected : ∀ t, Enlisting k.frames t → t < k.nextTid
  one : ∀ u u' t, .registerAll t ∈ k.frames u → .registerAll t ∈ k.frames u' → u = u'
  once : ∀ u t, (k.frames u).count (.registerAll t) ≤ 1
  missing : ∀ t, k.status t ≠ .Dying → Enlisting k.frames t → t ∉ k.all
  listed : ∀ t, t < k.nextTid → k.status t ≠ .Dying → ¬Enlisting k.frames t → k.all.count t = 1
  dead : ∀ t, k.status t = .Dying → t ≠ k.current → t ∉ k.all

namespace Enrolled

variable {k k' : Kernel σ}

omit [Schedule σ] in
private theorem enlisting_iff {t : Tid}
    (frames : ∀ u, (k'.frames u).count (.registerAll t) = (k.frames u).count (.registerAll t)) :
    Enlisting k'.frames t ↔ Enlisting k.frames t := by
  refine exists_congr fun u => ?_
  rw [← List.count_pos_iff, ← List.count_pos_iff, frames u]

omit [Schedule σ] in
/-- A step that pushes nobody: the dead stay dead, and only they are taken out. -/
theorem kept (h : k.Enrolled)
    (frames : ∀ t u, (k'.frames u).count (.registerAll t) = (k.frames u).count (.registerAll t))
    (nextTid : k'.nextTid = k.nextTid) (sub : ∀ t ∈ k'.all, t ∈ k.all)
    (counts : ∀ t, k'.status t ≠ .Dying → k'.all.count t = k.all.count t)
    (alive : ∀ t, k'.status t ≠ .Dying → k.status t ≠ .Dying)
    (dead : ∀ t, k'.status t = .Dying → t ≠ k'.current → t ∉ k'.all) : k'.Enrolled := by
  have mem : ∀ t u, .registerAll t ∈ k'.frames u ↔ .registerAll t ∈ k.frames u := by
    intro t u
    rw [← List.count_pos_iff, ← List.count_pos_iff, frames t u]
  refine ⟨?_, ?_, ?_, ?_, ?_, ?_, dead⟩
  · intro t ht
    rw [nextTid]
    exact h.known t (sub t ht)
  · intro t ht
    rw [nextTid]
    exact h.expected t ((enlisting_iff (frames t)).mp ht)
  · intro u u' t hu hu'
    exact h.one u u' t ((mem t u).mp hu) ((mem t u').mp hu')
  · intro u t
    rw [frames]
    exact h.once u t
  · intro t living enlisting ht
    exact h.missing t (alive t living) ((enlisting_iff (frames t)).mp enlisting) (sub t ht)
  · intro t ht living pushed
    rw [nextTid] at ht
    rw [counts t living]
    exact h.listed t ht (alive t living) fun old => pushed ((enlisting_iff (frames t)).mpr old)

omit [Schedule σ] in
/-- `Manager::schedule` with a switch. -/
theorem switch {next : Tid} {x : Status} (h : k.Enrolled)
    (frames : ∀ t u, (k'.frames u).count (.registerAll t) = (k.frames u).count (.registerAll t))
    (nextTid : k'.nextTid = k.nextTid) (ready : k.status next = .Ready)
    (left : (k.status k.current ≠ .Running ∧ x = k.status k.current) ∨
      (k.status k.current = .Running ∧ x = .Ready))
    (status : k'.status = Function.update (Function.update k.status next .Running) k.current x)
    (all : k'.all = if k.status k.current = .Dying then k.all.filter (· != k.current) else k.all) :
    k'.Enrolled := by
  have here : k'.status k.current = x := by rw [status, Function.update_self]
  have same : x = .Dying ↔ k.status k.current = .Dying := by
    rcases left with ⟨-, rfl⟩ | ⟨running, rfl⟩
    · exact Iff.rfl
    · rw [running]
      exact iff_of_false nofun nofun
  have others : ∀ t, t ≠ k.current → (k'.status t = .Dying ↔ k.status t = .Dying) := by
    intro t away
    rw [status, Function.update_of_ne away, Function.update_apply]
    split
    · rename_i chosen
      rw [chosen, ready]
      exact iff_of_false nofun nofun
    · exact Iff.rfl
  have dying : ∀ t, k'.status t = .Dying ↔ k.status t = .Dying := by
    intro t
    by_cases away : t = k.current
    · rw [away, here, same]
    · exact others t away
  have sub : ∀ t ∈ k'.all, t ∈ k.all := by
    intro t ht
    rw [all] at ht
    split at ht
    · exact List.mem_of_mem_filter ht
    · exact ht
  refine h.kept frames nextTid sub ?_ (fun t living dead => living ((dying t).mpr dead)) ?_
  · intro t living
    rw [all]
    split
    · rename_i gone
      have away : t ≠ k.current := by
        rintro rfl
        exact living ((dying _).mpr gone)
      rw [List.count_filter (by simpa using away)]
    · rfl
  · intro t dead away
    by_cases mine : t = k.current
    · rw [all, if_pos (mine ▸ (dying t).mp dead), mine]
      simp
    · exact fun ht => h.dead t ((dying t).mp dead) mine (sub t ht)

omit [Schedule σ] in
/-- `Builder::build` leaves a thread to be pushed. -/
theorem build {rest : List Instr} (h : k.Enrolled) (unborn : k.frames k.nextTid = [])
    (lt : k.current < k.nextTid) {p : Nat} (hf : k.frames k.current = .build p :: rest)
    (status : k'.status = Function.update k.status k.nextTid .Ready)
    (current : k'.current = k.current)
    (all : k'.all = k.all) (nextTid : k'.nextTid = k.nextTid + 1)
    (frames : k'.frames = Function.update (Function.update k.frames k.nextTid
      [.kernelThread]) k.current
      ([.registerScheduler k.nextTid, .registerAll k.nextTid, .schedule] ++ rest)) :
      k'.Enrolled := by
  have unlisted : ∀ u, .registerAll k.nextTid ∉ k.frames u := fun u hu =>
    Nat.lt_irrefl _ (h.expected k.nextTid ⟨u, hu⟩)
  have away : k.nextTid ≠ k.current := lt.ne'
  have counts : ∀ u t, (k'.frames u).count (.registerAll t) =
      (k.frames u).count (.registerAll t) + if u = k.current ∧ t = k.nextTid then 1 else 0 := by
    intro u t
    rw [frames, Function.update_apply]
    split
    · rename_i here
      subst here
      have skip : (Instr.build p :: rest).count (.registerAll t) = rest.count (.registerAll t) :=
        List.count_cons_of_ne (by simp)
      rw [hf, List.count_append, skip]
      by_cases new : t = k.nextTid
      · rw [if_pos ⟨rfl, new⟩, new]
        simp [Nat.add_comm]
      · rw [if_neg (fun both => new both.2)]
        simp [Ne.symm new]
    · rename_i other
      rw [if_neg (fun both => other both.1), Function.update_apply]
      split
      · rename_i born
        rw [born, unborn]
        rfl
      · rfl
  have mem : ∀ u t, .registerAll t ∈ k'.frames u ↔ (u = k.current ∧ t = k.nextTid) ∨
    .registerAll t ∈ k.frames u := by
    intro u t
    rw [← List.count_pos_iff, ← List.count_pos_iff, counts u t]
    split
    · rename_i new
      simp only [new, and_self, true_or, iff_true]
      omega
    · rename_i old
      simp only [old, false_or, Nat.add_zero]
  have enlisting : ∀ t, Enlisting k'.frames t ↔ t = k.nextTid ∨ Enlisting k.frames t := by
    intro t
    simp only [Enlisting, mem, exists_or, exists_and_right, exists_eq, true_and]
  have old : ∀ t, t ≠ k.nextTid → k'.status t = k.status t := by
    intro t other
    rw [status, Function.update_of_ne other]
  refine ⟨?_, ?_, ?_, ?_, ?_, ?_, ?_⟩
  · intro t ht
    rw [all] at ht
    rw [nextTid]
    exact Nat.lt_succ_of_lt (h.known t ht)
  · intro t ht
    rw [nextTid]
    rcases (enlisting t).mp ht with rfl | ht
    · exact Nat.lt_succ_self _
    · exact Nat.lt_succ_of_lt (h.expected t ht)
  · intro u u' t hu hu'
    rcases (mem u t).mp hu with ⟨rfl, rfl⟩ | hu
    · rcases (mem u' _).mp hu' with ⟨rfl, -⟩ | hu'
      · rfl
      · exact absurd hu' (unlisted u')
    · rcases (mem u' t).mp hu' with ⟨rfl, rfl⟩ | hu'
      · exact absurd hu (unlisted u)
      · exact h.one u u' t hu hu'
  · intro u t
    rw [counts]
    split
    · rename_i new
      rw [new.2, List.count_eq_zero.mpr (unlisted u)]
    · exact h.once u t
  · intro t living pushing ht
    rw [all] at ht
    rcases (enlisting t).mp pushing with rfl | pushing
    · exact Nat.lt_irrefl _ (h.known _ ht)
    · have other : t ≠ k.nextTid := (h.expected t pushing).ne
      exact h.missing t (old t other ▸ living) pushing ht
  · intro t ht living pushed
    have other : t ≠ k.nextTid := fun new => pushed ((enlisting t).mpr (.inl new))
    rw [all]
    refine h.listed t ?_ (old t other ▸ living) fun before =>
      pushed ((enlisting t).mpr (.inr before))
    rw [nextTid] at ht
    exact Nat.lt_of_le_of_ne (Nat.le_of_lt_succ ht) other
  · intro t dead elsewhere
    have other : t ≠ k.nextTid := by
      rintro rfl
      rw [status, Function.update_self] at dead
      cases dead
    rw [all]
    exact h.dead t (old t other ▸ dead) (current ▸ elsewhere)

omit [Schedule σ] in
theorem enlist {t : Tid} {rest : List Instr} (h : k.Enrolled) (living : k.status t ≠ .Dying)
    (hf : k.frames k.current = .registerAll t :: rest) (status : k'.status = k.status)
    (current : k'.current = k.current) (all : k'.all = k.all ++ [t])
    (nextTid : k'.nextTid = k.nextTid)
    (frames : k'.frames = k.pending [] rest) : k'.Enrolled := by
  have pushing : Enlisting k.frames t := ⟨k.current, hf ▸ List.mem_cons_self⟩
  have counts : ∀ u v, (k.frames u).count (.registerAll v) =
      (k'.frames u).count (.registerAll v) + if u = k.current ∧ v = t then 1 else 0 := by
    intro u v
    rw [frames]
    by_cases here : u = k.current
    · subst here
      rw [hf, pending_self, List.nil_append]
      by_cases same : v = t
      · rw [if_pos ⟨rfl, same⟩, same, List.count_cons_self]
      · have other : Instr.registerAll t ≠ .registerAll v :=
          fun eq => same (Instr.registerAll.inj eq).symm
        rw [if_neg (fun both => same both.2), List.count_cons_of_ne other, Nat.add_zero]
    · rw [pending_of_ne k [] rest here, if_neg (fun both => here both.1), Nat.add_zero]
  have gone : ∀ u, .registerAll t ∉ k'.frames u := by
    intro u hu
    have positive := List.count_pos_iff.mpr hu
    have := counts u t
    by_cases here : u = k.current
    · rw [if_pos ⟨here, rfl⟩] at this
      have := h.once u t
      omega
    · rw [if_neg (fun both => here both.1)] at this
      refine here (h.one u k.current t (List.count_pos_iff.mp (by omega)) ?_)
      rw [hf]
      exact List.mem_cons_self
  have mem : ∀ u v, .registerAll v ∈ k'.frames u ↔ v ≠ t ∧ .registerAll v ∈ k.frames u := by
    intro u v
    by_cases same : v = t
    · rw [same]
      exact iff_of_false (gone u) fun both => both.1 rfl
    · rw [← List.count_pos_iff, ← List.count_pos_iff, counts u v, if_neg (fun both => same both.2)]
      simp only [ne_eq, same, not_false_eq_true, true_and, Nat.add_zero]
  have enlisting : ∀ v, Enlisting k'.frames v ↔ v ≠ t ∧ Enlisting k.frames v := by
    intro v
    simp only [Enlisting, mem, exists_and_left]
  refine ⟨?_, ?_, ?_, ?_, ?_, ?_, ?_⟩
  · intro v hv
    rw [nextTid]
    rw [all, List.mem_append, List.mem_singleton] at hv
    rcases hv with hv | rfl
    · exact h.known v hv
    · exact h.expected v pushing
  · intro v hv
    rw [nextTid]
    exact h.expected v ((enlisting v).mp hv).2
  · intro u u' v hu hu'
    exact h.one u u' v ((mem u v).mp hu).2 ((mem u' v).mp hu').2
  · intro u v
    have := h.once u v
    have := counts u v
    omega
  · intro v alive still hv
    obtain ⟨other, before⟩ := (enlisting v).mp still
    rw [all, List.mem_append, List.mem_singleton] at hv
    exact h.missing v (status ▸ alive) before (hv.resolve_right other)
  · intro v hv alive pushed
    rw [all, List.count_append, List.count_singleton]
    rw [status] at alive
    rw [nextTid] at hv
    by_cases same : v = t
    · subst same
      rw [List.count_eq_zero.mpr (h.missing v alive pushing)]
      simp
    · rw [h.listed v hv alive fun before => pushed ((enlisting v).mpr ⟨same, before⟩)]
      simp [Ne.symm same]
  · intro v dead away hv
    rw [status] at dead
    rw [all, List.mem_append, List.mem_singleton] at hv
    rcases hv with hv | rfl
    · exact h.dead v dead (current ▸ away) hv
    · exact living dead

omit [Schedule σ] in
theorem push {is : List Instr} (h : k.Enrolled) (free : ∀ t, .registerAll t ∉ is) :
    (k.push k.current is).Enrolled := by
  refine h.kept ?_ rfl (fun _ ht => ht) (fun _ _ => rfl) (fun _ living => living) h.dead
  intro t u
  simp only [Kernel.push, Function.update_apply]
  split
  · rename_i here
    rw [here, List.count_append, List.count_eq_zero.mpr (free t), Nat.zero_add]
  · rfl

end Enrolled

variable [LawfulSchedule σ] {k k' : Kernel σ}

theorem exec_enrolled (manager : k.ManagerInv) (h : k.Enrolled) (hs : k.step .exec = some k')
    (living : ∀ t rest, k.frames k.current = .registerAll t :: rest → k.status t ≠ .Dying) :
    k'.Enrolled := by
  obtain ⟨i, rest, hf, he⟩ := step_exec manager.core.current_lt.ne hs
  have turn := step_turn manager.core.current_not_ready hf hs
  cases turn with
  | stays hi status current all =>
    refine h.kept (he.enlists_same hf hi) (he.nextTid_same hi) (by rw [all]; exact fun _ ht => ht)
      (fun t _ => by rw [all]) (by rw [status]; exact fun _ living => living) ?_
    rw [status, current, all]
    exact h.dead
  | switch next x ready left status current all =>
    exact h.switch (he.enlists_same hf rfl) (he.nextTid_same rfl) ready left status all
  | build p status current all =>
    cases he with
    | build _ _ _ nextTid _ frames =>
      exact h.build (manager.core.fresh _ le_rfl).2 manager.core.current_lt hf status
        current all nextTid frames
    | still _ passive => cases passive
  | enlist t status current all =>
    cases he with
    | still _ _ _ _ nextTid _ frames =>
      exact h.enlist (living t rest hf) hf status current all nextTid frames
  | leave x hi busy status current all =>
    have others : ∀ t, t ≠ k.current → k'.status t = k.status t := fun t away => by
      rw [status, Function.update_of_ne away]
    have running : k.status k.current = .Running := by
      rcases manager.settled with running | ⟨-, rest', hf'⟩
      · exact running
      · rw [hf] at hf'
        exact absurd (List.cons.inj hf').1 busy
    refine h.kept (he.enlists_same hf hi) (he.nextTid_same hi) (by rw [all]; exact fun _ ht => ht)
      (fun t _ => by rw [all]) ?_ ?_
    · intro t living
      by_cases mine : t = k.current
      · rw [mine, running]
        exact nofun
      · rwa [others t mine] at living
    · intro t dead away
      rw [current] at away
      rw [all]
      exact h.dead t (others t away ▸ dead) away
  | wake s w blocked status current all =>
    have dying : ∀ t, k'.status t = .Dying ↔ k.status t = .Dying := by
      intro t
      rw [status, Function.update_apply]
      split
      · rename_i woken
        rw [woken, blocked]
        exact iff_of_false nofun nofun
      · exact Iff.rfl
    refine h.kept (he.enlists_same hf rfl) (he.nextTid_same rfl) (by rw [all]; exact fun _ ht => ht)
      (fun t _ => by rw [all]) (fun t living dead => living ((dying t).mpr dead)) ?_
    intro t dead away
    rw [current] at away
    rw [all]
    exact h.dead t ((dying t).mp dead) away

/-- The step lemma. -/
theorem step_enrolled {e : Event} (manager : k.ManagerInv) (h : k.Enrolled)
    (hs : k.step e = some k')
    (living : e = .exec → ∀ t rest, k.frames k.current = .registerAll t :: rest →
      k.status t ≠ .Dying) : k'.Enrolled := by
  cases e with
  | exec => exact exec_enrolled manager h hs (living rfl)
  | preempt =>
    obtain ⟨-, rfl⟩ := step_preempt hs
    exact h.push (by simp)
  | call c =>
    obtain ⟨-, rfl⟩ := step_call hs
    refine h.push fun t => ?_
    cases c <;> simp [Call.code]

/-- A dying thread that has been left behind, or is left behind now, stays dying. -/
theorem step_dead {e : Event} (manager : k.ManagerInv) (hs : k.step e = some k') {t : Tid}
    (dead : k.status t = .Dying)
    (lt : t < k.nextTid) (left : t ≠ k.current ∨ k'.current ≠ k.current) :
    k'.status t = .Dying ∧ t ≠ k'.current ∧ t < k'.nextTid := by
  cases e with
  | preempt =>
    obtain ⟨-, rfl⟩ := step_preempt hs
    exact ⟨dead, left.resolve_right (not_not_intro rfl), lt⟩
  | call c =>
    obtain ⟨-, rfl⟩ := step_call hs
    exact ⟨dead, left.resolve_right (not_not_intro rfl), lt⟩
  | exec =>
    obtain ⟨i, rest, hf, he⟩ := step_exec manager.core.current_lt.ne hs
    have lt' : t < k'.nextTid := Nat.lt_of_lt_of_le lt he.nextTid_le
    have behind : k'.current = k.current → t ≠ k.current :=
      fun same => left.resolve_right (not_not_intro same)
    cases step_turn manager.core.current_not_ready hf hs with
    | stays _ status current _ | enlist _ status current _ =>
      rw [status, current]
      exact ⟨dead, behind current, lt'⟩
    | switch next x ready kept status current _ =>
      have other : t ≠ next := by
        rintro rfl
        rw [dead] at ready
        cases ready
      rw [status, current]
      refine ⟨?_, other, lt'⟩
      rw [Function.update_apply]
      split
      · rename_i mine
        rw [mine] at dead
        rcases kept with ⟨-, rfl⟩ | ⟨running, -⟩
        · exact dead
        · rw [dead] at running
          cases running
      · rw [Function.update_of_ne other, dead]
    | build p status current _ =>
      rw [status, current, Function.update_of_ne lt.ne]
      exact ⟨dead, behind current, lt'⟩
    | leave x _ _ status current _ =>
      rw [status, current, Function.update_of_ne (behind current)]
      exact ⟨dead, behind current, lt'⟩
    | wake _ w blocked status current _ =>
      have other : t ≠ w := by
        rintro rfl
        rw [dead] at blocked
        cases blocked
      rw [status, current, Function.update_of_ne other]
      exact ⟨dead, behind current, lt'⟩

omit [LawfulSchedule σ] in
theorem init_enrolled {intr : Bool} {value lockid : Nat → Nat}
    (h : init intr value lockid = .ok k) : k.Enrolled := by
  have all : k.all = [0, idle] := by
    unfold init at h
    split at h
    · rename_i k₁ registered
      cases h
      rw [(register_roll registered).2.2]
      rfl
    · cases h
  obtain ⟨q, _, rfl⟩ := init_eq h
  have frames : ∀ u t, .registerAll t ∉ (boot intr value lockid : Kernel σ).frames u :=
    fun u t hu => by
    cases boot_frames hu
  have none : ∀ t, ¬Enlisting (boot intr value lockid : Kernel σ).frames t :=
    fun t ⟨u, hu⟩ => frames u t hu
  refine ⟨?_, fun t ht => absurd ht (none t), fun u _ t hu _ => absurd hu (frames u t),
    fun u t => by rw [List.count_eq_zero.mpr (frames u t)]; exact Nat.zero_le 1,
    fun t _ ht => absurd ht (none t), ?_, ?_⟩
  · intro t ht
    rw [all, List.mem_pair] at ht
    show t < 2
    rcases ht with rfl | rfl <;> decide
  · intro t (ht : t < 2) _ _
    rw [all]
    rcases Nat.lt_succ_iff_lt_or_eq.mp ht with first | rfl
    · rw [Nat.lt_one_iff.mp first]
      rfl
    · rfl
  · intro t dead _ ht
    rw [all, List.mem_pair] at ht
    rcases ht with rfl | rfl <;> cases dead

end Kernel

/-- The kernel, and the threads that `schedule_tail` has found dying. -/
structure Roll (σ : Type) where
  kernel : Kernel σ
  reaped : List Tid

namespace Roll

variable {σ : Type} [Schedule σ]

def step (s : Roll σ) (e : Event) : Option (Roll σ) :=
  (s.kernel.step e).map fun k =>
    ⟨k, if k.current ≠ s.kernel.current ∧ s.kernel.status s.kernel.current =
      .Dying then s.kernel.current :: s.reaped
      else s.reaped⟩

def start (k : Kernel σ) : Roll σ := ⟨k, []⟩

/-- No creator pushes a thread to `all` that has exited already. -/
def InTime (s : Roll σ) (e : Event) : Prop :=
  e = .exec → match (s.kernel.frames s.kernel.current).head? with
    | some (.registerAll t) => s.kernel.status t ≠ .Dying
    | _ => True

instance (s : Roll σ) (e : Event) : Decidable (s.InTime e) := by
  unfold InTime
  have : Decidable (match (s.kernel.frames s.kernel.current).head? with
    | some (.registerAll t) => s.kernel.status t ≠ .Dying
    | _ => True) := by
    split <;> infer_instance
  infer_instance

variable [LawfulSchedule σ] {s s' : Roll σ}

/-- The threads that were reaped are dead, and run no more. -/
structure Inv (s : Roll σ) : Prop where
  manager : s.kernel.ManagerInv
  enrolled : s.kernel.Enrolled
  gone : ∀ t ∈ s.reaped, s.kernel.status t = .Dying ∧ t ≠ s.kernel.current ∧ t < s.kernel.nextTid

theorem Inv.step {e : Event} (inv : s.Inv) (inTime : s.InTime e)
    (hs : s.step e = some s') : s'.Inv := by
  obtain ⟨k, hk, rfl⟩ := Option.map_eq_some_iff.mp hs
  have manager := Kernel.step_managerInv _ _ _ inv.manager hk
  refine ⟨manager, Kernel.step_enrolled inv.manager inv.enrolled hk ?_, ?_⟩
  · intro executes t rest hf
    have live := inTime executes
    rw [hf] at live
    exact live
  · have kept : ∀ t ∈ s.reaped, k.status t = .Dying ∧ t ≠ k.current ∧ t < k.nextTid := by
      intro t ht
      obtain ⟨dead, away, lt⟩ := inv.gone t ht
      exact Kernel.step_dead inv.manager hk dead lt (.inl away)
    intro t ht
    simp only at ht
    split at ht
    · rename_i now
      rcases List.mem_cons.mp ht with rfl | ht
      · exact Kernel.step_dead inv.manager hk now.2 inv.manager.core.current_lt (.inr now.1)
      · exact kept t ht
    · exact kept t ht

end Roll

/-- In every run in which each creator pushes its thread to `all` before that has exited, no
thread that `schedule_tail` has found dying is in `all` at any later time, and every thread that
lives and whose `spawn` has pushed it is there exactly once. -/
theorem dead_threads_leave {σ : Type} [Schedule σ] [LawfulSchedule σ] {intr : Bool}
    {value lockid : Nat → Nat}
    {k₀ : Kernel σ} {es : List Event} {s : Roll σ} (start : Kernel.init intr value lockid = .ok k₀)
    (meets : Guarded Roll.step Roll.InTime (.start k₀) es)
    (ran : run Roll.step (.start k₀) es = some s) :
    (∀ t ∈ s.reaped, t ∉ s.kernel.all) ∧
      ∀ t, t < s.kernel.nextTid → s.kernel.status t ≠ .Dying → ¬Enlisting s.kernel.frames t →
        s.kernel.all.count t = 1 := by
  have inv : s.Inv := guarded_run_invariant (fun _ _ _ inv meets hs => Roll.Inv.step inv meets hs)
    ⟨(Kernel.init_wired start).manager, Kernel.init_enrolled start,
      fun _ ht => absurd ht List.not_mem_nil⟩ meets ran
  refine ⟨fun t ht => ?_, inv.enrolled.listed⟩
  obtain ⟨dead, away, -⟩ := inv.gone t ht
  exact inv.enrolled.dead t dead away

/-- `Initial` is preempted inside the `register` of thread 2, which exits and is reaped; then
`Initial` pushes it. -/
def lateRegister : List Event :=
  calling (.spawn 41) 2 ++ [.preempt, .exec, .exec] ++ calling .exit 2 ++ [.exec, .exec]

theorem dead_thread_stays : ∃ s, run Roll.step (.start bootedLocks) lateRegister = some s ∧
    2 ∈ s.reaped ∧ 2 ∈ s.kernel.all := by
  have ran : ((run Roll.step (.start bootedLocks) lateRegister).map
    fun s => (s.reaped, s.kernel.all)) =
      some ([2], [0, 1, 2]) := by
    decide +kernel
  obtain ⟨s, hs, view⟩ := Option.map_eq_some_iff.mp ran
  rw [Prod.mk.injEq] at view
  exact ⟨s, hs, by rw [view.1]; decide, by rw [view.2]; decide⟩

/-- Thread 2 runs and exits after its `spawn` has pushed it, and thread 3 is spawned. -/
def exitThenSpawn : List Event :=
  calling (.spawn 41) 5 ++ calling .exit 3 ++ calling (.spawn 20) 4

theorem exited_thread_left : ∃ s, Guarded Roll.step Roll.InTime (.start bootedLocks) exitThenSpawn ∧
    run Roll.step (.start bootedLocks) exitThenSpawn = some s ∧ s.reaped = [2] ∧ 2 ∉ s.kernel.all ∧
      s.kernel.all.count 3 = 1 := by
  have meets : Guarded Roll.step Roll.InTime (.start bootedLocks) exitThenSpawn := by decide +kernel
  have ran : ((run Roll.step (.start bootedLocks) exitThenSpawn).map fun s =>
      (s.reaped, s.kernel.nextTid, s.kernel.status 3, (List.range 4).map
        fun u => (s.kernel.frames u).contains (.registerAll 3))) =
      some ([2], 4, .Ready, [false, false, false, false]) := by
    decide +kernel
  obtain ⟨s, hs, view⟩ := Option.map_eq_some_iff.mp ran
  simp only [Prod.mk.injEq] at view
  obtain ⟨reaped, born, ready, code⟩ := view
  have inv : s.Inv := guarded_run_invariant (fun _ _ _ inv meets hs => Roll.Inv.step inv meets hs)
    ⟨(Kernel.init_wired rfl).manager, Kernel.init_enrolled rfl,
      fun _ ht => absurd ht List.not_mem_nil⟩ meets hs
  have pushed : ¬Enlisting s.kernel.frames 3 := by
    rintro ⟨u, hu⟩
    rcases Nat.lt_or_ge u 4 with small | large
    · have absent : (s.kernel.frames u).contains (.registerAll 3) = false := by
        have entry := congrArg (·[u]?) code
        rcases u with _ | _ | _ | _ | u <;> simp at entry <;> first | simpa using entry | omega
      simp [hu] at absent
    · rw [(inv.manager.core.fresh u (born ▸ large)).2] at hu
      cases hu
  obtain ⟨gone, listed⟩ := dead_threads_leave rfl meets hs
  exact ⟨s, meets, hs, reaped, gone 2 (by rw [reaped]; decide),
    listed 3 (by rw [born]; decide) (by rw [ready]; nofun) pushed⟩

end Tacos.Thread
