/- GID: Tacos/Thread/Critical
   generality: G
   source: src/sync/sleep.rs, src/sync/sema.rs, src/sync/mutex.rs
   digest: Threads that alternate acquire and release are never inside one Sleep lock together. -/

import Tacos.Thread.Donation

set_option autoImplicit false
set_option relaxedAutoImplicit false

namespace Tacos.Thread

open Tacos.Lib.Run

/-- The kernel and, for each Sleep lock, the threads between the return of their `acquire`
and the start of their `release`. -/
structure Critical (σ : Type) where
  kernel : Kernel σ
  inside : Nat → Tid → Bool

namespace Critical

variable {σ : Type} [Schedule σ]

def mark (s : Critical σ) (l : Nat) (b : Bool) : Nat → Tid → Bool :=
  Function.update s.inside l (Function.update (s.inside l) s.kernel.current b)

/-- `acquire` returns after its write of the holder, `release` starts with its call. -/
def track (s : Critical σ) : Event → Nat → Tid → Bool
  | .exec =>
    match (s.kernel.frames s.kernel.current).head? with
    | some (.access (.setHolder l)) => s.mark l true
    | _ => s.inside
  | .call (.release l) => s.mark l false
  | _ => s.inside

def step (s : Critical σ) (e : Event) : Option (Critical σ) :=
  (s.kernel.step e).map fun k => ⟨k, s.track e⟩

def start (k : Kernel σ) : Critical σ := ⟨k, fun _ _ => false⟩

/-- A thread acquires a lock only when it is not inside, and releases it only when it is. -/
def Alternates (s : Critical σ) : Event → Prop
  | .call (.acquire l) => s.inside l s.kernel.current = false
  | .call (.release l) => s.inside l s.kernel.current = true
  | _ => True

instance (s : Critical σ) (e : Event) : Decidable (s.Alternates e) := by
  unfold Alternates
  split <;> infer_instance

omit [Schedule σ] in
private theorem mark_eq_true {s : Critical σ} {l m : Nat} {b : Bool} {t : Tid}
    (h : s.mark l b m t = true) : (m = l ∧ t = s.kernel.current ∧ b = true) ∨
      (s.inside m t = true ∧ (m = l → t ≠ s.kernel.current)) := by
  unfold mark at h
  by_cases hm : m = l
  · subst hm
    rw [Function.update_self] at h
    by_cases ht : t = s.kernel.current
    · subst ht
      rw [Function.update_self] at h
      exact .inl ⟨rfl, rfl, h⟩
    · rw [Function.update_of_ne ht] at h
      exact .inr ⟨h, fun _ => ht⟩
  · rw [Function.update_of_ne hm] at h
    exact .inr ⟨h, fun he => (hm he).elim⟩

end Critical

namespace Kernel

variable {σ : Type} [Schedule σ] [LawfulSchedule σ]

/-- `t` is inside `release`, and is still written in the lock. -/
def Leaving (k : Kernel σ) (t : Tid) (l : Nat) : Prop :=
  .access (.assertHolder l) ∈ k.frames t ∨ k.Releasing t l

variable {k k' : Kernel σ} {rest : List Instr} {i : Instr}

omit [Schedule σ] [LawfulSchedule σ] in
private theorem Leaving.mem_code {t : Tid} {l : Nat} (h : k.Leaving t l) :
    ∃ a, (a = .assertHolder l ∨ a = .findRecord l ∨ a = .takeHolder l) ∧
      Instr.access a ∈ code (k.frames t) := by
  rcases h with h | h | h
  · exact ⟨_, .inl rfl, Thread.mem_code.mpr ⟨h, rfl⟩⟩
  · exact ⟨_, .inr (.inl rfl), Thread.mem_code.mpr ⟨h, rfl⟩⟩
  · exact ⟨_, .inr (.inr rfl), Thread.mem_code.mpr ⟨h, rfl⟩⟩

omit [Schedule σ] [LawfulSchedule σ] in
/-- A thread that has to leave a lock has called `release` before. -/
private theorem leaving_back (he : Effect k rest k' i) (hf : k.frames k.current = i :: rest)
    {t : Tid} {l : Nat} (h : k'.Leaving t l) : k.Leaving t l := by
  rcases h with h | h | h
  · rcases he.mem_back hf h with old | ⟨a, is, -, -, hj, exec, -⟩ | free
    · exact .inl old
    · exact (a.exec_origin exec hj).elim
    · exact (free (.setHolder l)).elim
  · rcases he.mem_back hf h with old | ⟨a, is, rfl, rfl, hj, exec, -⟩ | free
    · exact .inr (.inl old)
    · obtain ⟨rfl, -⟩ := a.exec_origin exec hj
      exact .inl (by rw [hf]; exact List.mem_cons_self)
    · cases (free (.setHolder l)).1
  · rcases he.mem_back hf h with old | ⟨a, is, rfl, rfl, hj, exec, -⟩ | free
    · exact .inr (.inr old)
    · obtain rfl := a.exec_origin exec hj
      exact .inr (.inl (by rw [hf]; exact List.mem_cons_self))
    · cases free (.setHolder l)

/-- The holder of a lock changes only when the holder itself is taken out. -/
private theorem holder_stays (h : k.Exclusive) (hf : k.frames k.current = i :: rest)
    (he : Effect k rest k' i) {t : Tid} {l : Nat} (holder : (k.locks.sleep l).holder = some t)
    (stays : i = .access (.takeHolder l) → t ≠ k.current) :
    (k'.locks.sleep l).holder = some t := by
  by_cases hset : i = .access (.setHolder l)
  · subst hset
    rw [(state_set h hf he).1] at holder
    cases holder
  · by_cases htake : i = .access (.takeHolder l)
    · subst htake
      have self := h.releasing k.current l (.inr (by rw [hf]; exact List.mem_cons_self))
      rw [self] at holder
      exact (stays rfl (Option.some.inj holder).symm).elim
    · rw [holder_eq he hset htake]
      exact holder

omit [Schedule σ] [LawfulSchedule σ] in
private theorem not_leaving_of_takeHolder (phased : k.Phased) {l : Nat}
    (hf : k.frames k.current = .access (.takeHolder l) :: rest)
    (he : Effect k rest k' (.access (.takeHolder l))) : ¬ k'.Leaving k.current l := by
  intro hl
  have code := phased k.current
  rw [hf] at code
  have hrest : Tacos.Thread.code rest = [] := code.tail
  obtain ⟨is, exec, frames⟩ := he.of_access
  obtain ⟨a, ha, hm⟩ := hl.mem_code
  rw [frames, pending_self, code_append, hrest, List.append_nil] at hm
  have origin := Access.exec_origin exec (Thread.mem_code.mp hm).1
  rcases ha with rfl | rfl | rfl
  · exact origin
  · cases origin.1
  · cases origin

end Kernel

namespace Critical

variable {σ : Type} [Schedule σ] [LawfulSchedule σ]

/-- Threads inside a lock are written in it and have not called `release`; threads that
have called `release` are still written in it until they are taken out. -/
structure Guards (s : Critical σ) : Prop where
  exclusive : s.kernel.Exclusive
  inside : ∀ l t, s.inside l t = true →
    (s.kernel.locks.sleep l).holder = some t ∧ ¬ s.kernel.Leaving t l
  leaving : ∀ l t, s.kernel.Leaving t l → (s.kernel.locks.sleep l).holder = some t

variable {s s' : Critical σ}

omit [LawfulSchedule σ] in
theorem step_kernel {e : Event} (hs : s.step e = some s') :
    s.kernel.step e = some s'.kernel ∧ s'.inside = s.track e := by
  obtain ⟨k, hk, rfl⟩ := Option.map_eq_some_iff.mp hs
  exact ⟨hk, rfl⟩

private theorem exec_guards (h : s.Guards) (hs : s.step .exec = some s') : s'.Guards := by
  obtain ⟨hk, hi⟩ := step_kernel hs
  have exclusive := Kernel.step_exclusive h.exclusive hk
  obtain ⟨i, rest, hf, he⟩ := Kernel.step_exec h.exclusive.wired.current_ne hk
  -- a thread that was inside and not about to leave stays inside
  have keep : ∀ l t, s.inside l t = true →
      (s'.kernel.locks.sleep l).holder = some t ∧ ¬ s'.kernel.Leaving t l := by
    intro l t ht
    obtain ⟨holder, remains⟩ := h.inside l t ht
    refine ⟨Kernel.holder_stays h.exclusive hf he holder ?_, ?_⟩
    · rintro rfl rfl
      exact remains (.inr (.inr (by rw [hf]; exact List.mem_cons_self)))
    · exact fun hl => remains (Kernel.leaving_back he hf hl)
  refine ⟨exclusive, ?_, ?_⟩
  · intro l t ht
    rw [hi, track, hf] at ht
    by_cases hset : ∃ m, i = .access (.setHolder m)
    · obtain ⟨m, rfl⟩ := hset
      rcases mark_eq_true ht with ⟨rfl, rfl, -⟩ | ⟨old, -⟩
      · -- the write of the holder is the last instruction of `acquire`
        have holder : (s'.kernel.locks.sleep l).holder = some s.kernel.current := by
          rw [he.holder l]
          simp [Kernel.held, Access.sets]
        refine ⟨holder, ?_⟩
        intro hl
        obtain ⟨a, ha, hm⟩ := (Kernel.leaving_back he hf hl).mem_code
        have code := h.exclusive.wired.phased s.kernel.current
        rw [hf] at code
        have hrest : Tacos.Thread.code rest = [] := code.tail
        rw [hf, code_cons_of_not_noise rfl, hrest] at hm
        rcases ha with rfl | rfl | rfl <;> simp at hm
      · exact keep l t old
    · refine keep l t ?_
      cases i with
      | access a =>
        cases a with
        | setHolder m => exact (hset ⟨m, rfl⟩).elim
        | _ => exact ht
      | _ => exact ht
  · intro l t hl
    refine Kernel.holder_stays h.exclusive hf he (h.leaving l t (Kernel.leaving_back he hf hl)) ?_
    rintro rfl rfl
    exact Kernel.not_leaving_of_takeHolder h.exclusive.wired.phased hf he hl

private theorem push_guards (h : s.Guards) {is : List Instr} {m : Nat → Tid → Bool}
    (exclusive : (s.kernel.push s.kernel.current is).Exclusive)
    (harmless : ∀ l, .access (.assertHolder l) ∉ is ∧ .access (.findRecord l) ∉ is ∧
      .access (.takeHolder l) ∉ is) (same : m = s.inside) :
    Guards ⟨s.kernel.push s.kernel.current is, m⟩ := by
  have back : ∀ l t, (s.kernel.push s.kernel.current is).Leaving t l → s.kernel.Leaving t l := by
    intro l t hl
    obtain ⟨ha, hf, ht⟩ := harmless l
    exact hl.imp (fun hm => (Kernel.push_back hm).resolve_left ha)
      (Or.imp (fun hm => (Kernel.push_back hm).resolve_left hf)
        fun hm => (Kernel.push_back hm).resolve_left ht)
  subst same
  refine ⟨exclusive, ?_, fun l t hl => h.leaving l t (back l t hl)⟩
  intro l t ht
  obtain ⟨holder, remains⟩ := h.inside l t ht
  exact ⟨holder, fun hl => remains (back l t hl)⟩

/-- The step lemma: threads that alternate stay guarded. -/
theorem step_guards {e : Event} (h : s.Guards) (meets : s.Alternates e) (hs : s.step e = some s') :
    s'.Guards := by
  obtain ⟨hk, hi⟩ := step_kernel hs
  have exclusive := Kernel.step_exclusive h.exclusive hk
  obtain ⟨kernel, inside⟩ := s'
  obtain rfl : inside = s.track e := hi
  cases e with
  | exec => exact exec_guards h hs
  | preempt =>
    obtain ⟨-, rfl⟩ := Kernel.step_preempt hk
    exact push_guards h exclusive (by simp) rfl
  | call c =>
    obtain ⟨hnil, rfl⟩ := Kernel.step_call hk
    by_cases hc : ∃ l, c = .release l
    · obtain ⟨l, rfl⟩ := hc
      obtain ⟨holder, -⟩ := h.inside l s.kernel.current meets
      have back : ∀ m t, (s.kernel.push s.kernel.current (Call.release l).code).Leaving t m →
          (m = l ∧ t = s.kernel.current) ∨ s.kernel.Leaving t m := by
        rintro m t (hm | hm | hm)
        · rcases Kernel.push_back hm with new | old
          · obtain rfl : m = l := by simpa [Call.code] using new
            by_cases ht : t = s.kernel.current
            · exact .inl ⟨rfl, ht⟩
            · simp only [Kernel.push, Function.update_of_ne ht] at hm
              exact .inr (.inl hm)
          · exact .inr (.inl old)
        · exact .inr (.inr (.inl ((Kernel.push_back hm).resolve_left (by simp [Call.code]))))
        · exact .inr (.inr (.inr ((Kernel.push_back hm).resolve_left (by simp [Call.code]))))
      refine ⟨exclusive, ?_, ?_⟩
      · intro m t ht
        rcases mark_eq_true ht with ⟨-, -, hb⟩ | ⟨old, other⟩
        · cases hb
        · obtain ⟨hold, remains⟩ := h.inside m t old
          refine ⟨hold, fun hl => ?_⟩
          rcases back m t hl with ⟨rfl, rfl⟩ | hl
          · exact other rfl rfl
          · exact remains hl
      · intro m t hl
        rcases back m t hl with ⟨rfl, rfl⟩ | hl
        · exact holder
        · exact h.leaving m t hl
    · refine push_guards h exclusive ?_ ?_
      · intro l
        cases c with
        | release m => exact (hc ⟨m, rfl⟩).elim
        | _ => simp [Call.code]
      · cases c with
        | release l => exact (hc ⟨l, rfl⟩).elim
        | _ => rfl

theorem start_guards {intr : Bool} {value lockid : Nat → Nat} {k : Kernel σ}
    (h : Kernel.init intr value lockid = .ok k) : (start k).Guards := by
  refine ⟨Kernel.init_exclusive h, by simp [start], ?_⟩
  obtain ⟨q, all, rfl⟩ := Kernel.init_eq h
  have frames : ∀ t i, i ∈ (Kernel.boot intr value lockid : Kernel σ).frames t →
    i = .kernelThread :=
    fun t i hi => Kernel.boot_frames hi
  rintro l t (ht | ht | ht) <;> cases frames t _ ht

/-- The assertion of `release` passes. -/
private theorem exec_assertHolder (h : s.Guards) {l : Nat}
    (hf : (s.kernel.frames s.kernel.current).head? = some (.access (.assertHolder l))) :
    (s.step .exec).isSome := by
  obtain ⟨rest, hrest⟩ := List.head?_eq_some_iff.mp hf
  have holder := h.leaving l s.kernel.current (.inl (by rw [hrest]; exact List.mem_cons_self))
  simp [step, Kernel.step, Kernel.exec, hrest, Kernel.execInstr, Access.exec, holder]

private theorem value_le_one (h : s.Guards) (l : Nat) : (s.kernel.sema (.inner l)).value ≤ 1 := by
  cases h.exclusive.state l with
  | free value | taken _ value | held _ value | freed _ value => omega

end Critical

/-- However threads that alternate `acquire` and `release` are interleaved, at most one is
inside a Sleep lock, it is the lock's holder, the lock's semaphore is at most one, and no
assertion of `release` fails. -/
theorem sleep_mutual_exclusion {σ : Type} [Schedule σ] [LawfulSchedule σ] {intr : Bool}
    {value lockid : Nat → Nat} {k₀ : Kernel σ} {es : List Event} {s : Critical σ}
    (start : Kernel.init intr value lockid = .ok k₀)
    (meets : Guarded Critical.step Critical.Alternates (.start k₀) es)
    (ran : run Critical.step (.start k₀) es = some s) (l : Nat) :
    (∀ t u, s.inside l t = true → s.inside l u = true → t = u) ∧
    (∀ t, s.inside l t = true → (s.kernel.locks.sleep l).holder = some t) ∧
    (s.kernel.sema (.inner l)).value ∈ [0, 1] ∧
    ((s.kernel.frames s.kernel.current).head? = some (.access (.assertHolder l)) →
      (s.step .exec).isSome) := by
  have guards : s.Guards := guarded_run_invariant
    (fun _ _ _ => Critical.step_guards) (Critical.start_guards start) meets ran
  refine ⟨?_, fun t ht => (guards.inside l t ht).1, ?_, Critical.exec_assertHolder guards⟩
  · intro t u ht hu
    have ht := (guards.inside l t ht).1
    rw [(guards.inside l u hu).1] at ht
    exact (Option.some.inj ht).symm
  · have := Critical.value_le_one guards l
    simp only [List.mem_cons, List.not_mem_nil, or_false]
    omega

/-- Thread 2 donates to the holder `Initial`, blocks, and gets lock 0 when `Initial` releases it. -/
def handoverRun : List Event :=
  calling (.acquire 0) 4 ++ calling (.spawn 41) 5 ++ calling (.acquire 0) 10 ++
    calling .schedule 7 ++ calling (.release 0) 16

set_option maxRecDepth 4000 in
/-- Then thread 2 alone is inside, and it is the holder. -/
theorem handover_excludes : ∃ s, run Critical.step (.start bootedLocks) handoverRun = some s ∧
    s.inside 0 2 = true ∧ (∀ t, s.inside 0 t = true → t = 2) ∧
    (s.kernel.locks.sleep 0).holder = some 2 := by
  have ran : ((run Critical.step (.start bootedLocks) handoverRun).map fun s => s.inside 0 2) =
      some true := by
    decide +kernel
  have meets : Guarded Critical.step Critical.Alternates (.start bootedLocks) handoverRun := by
    decide +kernel
  obtain ⟨s, hs, inside⟩ := Option.map_eq_some_iff.mp ran
  obtain ⟨alone, holder, -⟩ := sleep_mutual_exclusion rfl meets hs 0
  exact ⟨s, hs, inside, fun t ht => alone t 2 ht inside, holder 2 inside⟩

end Tacos.Thread
