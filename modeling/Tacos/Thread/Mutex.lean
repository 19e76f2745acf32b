/- GID: Tacos/Thread/Mutex
   generality: I
   source: src/sync/sleep.rs, src/sync/mutex.rs, src/sync/sema.rs
   digest: The mutex and the semaphores of a `Monitor` do what Sleep locks and semaphores of the
     kernel do. -/

import Tacos.Thread.Places

set_option autoImplicit false
set_option relaxedAutoImplicit false

namespace Tacos.Thread

open Tacos.Lib.Run

variable {l : Nat} {i : Instr}

/-! ## The mutex -/

/-- What happens to a monitor's mutex alone. -/
def CvEvent.mutex : CvEvent → Bool
  | .exec _ | .lock _ | .unlock _ | .setPriority _ _ => true
  | _ => false

/-- The mutex of a monitor is as a Sleep lock of the kernel. -/
structure Stands {σ : Type} (l : Nat) (s : Cells σ) (m : Monitor) : Prop where
  inner : m.inner = (s.critical.kernel.sema (.inner l)).value
  holder : m.holder = (s.critical.kernel.locks.sleep l).holder
  owner : ∀ t, m.owner = some t ↔ s.critical.kernel.Owns t l
  grip : ∀ t b, (t, b) ∈ m.grip ↔ s.borrow t = some (l, b)
  pc : ∀ t, m.pc t = place l (s.borrow t).isSome (s.critical.kernel.frames t)
  priority : m.priority = s.critical.kernel.locks.priority
  panicked : m.panicked = none

namespace Monitor

variable {m m' : Monitor} {t : Tid}

theorem step_exec (quiet : m.panicked = none) : m.step (.exec t) = m.exec t := by
  simp [step, quiet]

theorem exec_grasp {b : Bool} {rest : List Instr} (borrows : i.borrows = some (l, b))
    (at_ : m.pc t = place l false (i :: rest)) (free : m.clashes b = false) :
    m.exec t = some ({ m with grip := (t, b) :: m.grip }.goto t (place l true (i :: rest))) := by
  have grasps : ∀ p, m.grasp t b p = { m with grip := (t, b) :: m.grip }.goto t p := by
    intro p
    rw [grasp, free]
    rfl
  cases i with
  | access a =>
    cases a with
    | testHolder | assertHolder | readHolder | setHolder | takeHolder =>
      cases borrows
      rw [place_cons (p := _) (by simp [Instr.place, Instr.site]; rfl)] at at_ ⊢
      simp only [exec, at_]
      exact congrArg some (grasps _)
    | _ => cases borrows
  | _ => cases borrows

end Monitor

namespace Stands

variable {σ : Type} [Schedule σ] [LawfulSchedule σ] {s s' : Cells σ} {c : Critical σ} {m : Monitor}
  {rest : List Instr}

/-- The monitor's mutex does the same as the kernel's lock in some steps. -/
def Follows (l : Nat) (m : Monitor) (s' : Cells σ) : Prop :=
  ∃ cs m', (∀ c ∈ cs, CvEvent.mutex c = true) ∧ run Monitor.step m cs = some m' ∧ Stands l s' m'

omit [Schedule σ] [LawfulSchedule σ] in
theorem follows_of_step {e : CvEvent} {m' : Monitor} (mutex : e.mutex = true)
    (stepped : m.step e = some m') (stands : Stands l s' m') : Follows l m s' :=
  ⟨[e], m', by simp [mutex], run_cons.mpr ⟨m', stepped, rfl⟩, stands⟩

omit [Schedule σ] [LawfulSchedule σ] in
theorem carries (stands : Stands l s m)
    (value : (s'.kernel.sema (.inner l)).value = (s.kernel.sema (.inner l)).value)
    (holder : (s'.kernel.locks.sleep l).holder = (s.kernel.locks.sleep l).holder)
    (owns : ∀ t, s'.kernel.Owns t l ↔ s.kernel.Owns t l)
    (grip : ∀ t b, s'.borrow t = some (l, b) ↔ s.borrow t = some (l, b))
    (pc : ∀ t, place l (s'.borrow t).isSome (s'.kernel.frames t) =
      place l (s.borrow t).isSome (s.kernel.frames t)) :
    Stands l s' { m with priority := s'.kernel.locks.priority } where
  inner := stands.inner.trans value.symm
  holder := stands.holder.trans holder.symm
  owner t := (stands.owner t).trans (owns t).symm
  grip t b := (stands.grip t b).trans (grip t b).symm
  pc t := (stands.pc t).trans (pc t).symm
  priority := rfl
  panicked := stands.panicked

omit [Schedule σ] [LawfulSchedule σ] in
theorem follows_of_same (stands : Stands l s m)
    (priority : s'.kernel.locks.priority = s.kernel.locks.priority)
    (carried : Stands l s' { m with priority := s'.kernel.locks.priority }) : Follows l m s' := by
  rw [priority, ← stands.priority] at carried
  exact ⟨[], m, by simp, rfl, carried⟩

omit [Schedule σ] [LawfulSchedule σ] in
theorem follows_of_stored (stands : Stands l s m)
    (he : Kernel.Effect s.kernel rest s'.kernel i)
    (carried : Stands l s' { m with priority := s'.kernel.locks.priority }) : Follows l m s' := by
  have priority := he.priority
  cases stored : s.kernel.stored i with
  | none =>
    rw [stored] at priority
    exact follows_of_same stands priority carried
  | some x =>
    obtain ⟨t, p⟩ := x
    rw [stored] at priority
    rw [priority, ← stands.priority] at carried
    refine follows_of_step (e := .setPriority t p) rfl ?_ carried
    simp [Monitor.step, stands.panicked]

theorem borrows (tidy : s.Tidy) (stands : Stands l s m)
    (hf : s.kernel.frames s.kernel.current = i :: rest) {b : Nat × Bool}
    (wants : i.borrows = some b) (free : s.borrow s.kernel.current = none)
    (granted : s.conflicts b = false) :
    Follows l m { s with borrow := Function.update s.borrow s.kernel.current (some b) } := by
  obtain ⟨x, w⟩ := b
  have phased := tidy.guards.exclusive.wired.phased
  by_cases mine : x = l
  · subst mine
    have at_ : m.pc s.kernel.current = place x false (i :: rest) := by
      rw [stands.pc, free, hf]
      rfl
    have quiet : m.clashes w = false := by
      rw [Monitor.clashes, List.any_eq_false]
      rintro ⟨t, c⟩ mem
      simpa using tidy.apart granted ((stands.grip t c).mp mem)
    refine follows_of_step (e := .exec s.kernel.current) rfl
      ((Monitor.step_exec stands.panicked).trans (Monitor.exec_grasp wants at_ quiet)) ?_
    refine ⟨stands.inner, stands.holder, stands.owner, ?_, ?_, stands.priority, stands.panicked⟩
    · intro t c
      change (t, c) ∈ (s.kernel.current, w) :: m.grip ↔
        Function.update s.borrow s.kernel.current (some (x, w)) t = some (x, c)
      rw [List.mem_cons, stands.grip]
      by_cases here : t = s.kernel.current
      · subst here
        rw [Function.update_self, free]
        simp [eq_comm]
      · rw [Function.update_of_ne here]
        simp [here]
    · intro t
      change Function.update m.pc s.kernel.current (place x true (i :: rest)) t =
        place x (Function.update s.borrow s.kernel.current (some (x, w)) t).isSome
          (s.kernel.frames t)
      by_cases here : t = s.kernel.current
      · subst here
        rw [Function.update_self, Function.update_self, hf]
        rfl
      · rw [Function.update_of_ne here, Function.update_of_ne here]
        exact stands.pc t
  · obtain ⟨p, site⟩ := Instr.site_of_borrows wants
    have tail : ∀ out, place l out (i :: rest) = .idle := by
      intro out
      rw [place_cons_of_none (Instr.place_of_ne site mine), ← place_code,
        Kernel.code_tail_of_borrows phased hf wants]
      rfl
    refine follows_of_same stands rfl
      (stands.carries rfl rfl (fun _ => Iff.rfl) (fun t c => ?_) fun t => ?_)
    · change Function.update s.borrow s.kernel.current (some (x, w)) t = _ ↔ _
      by_cases here : t = s.kernel.current
      · subst here
        rw [Function.update_self, free]
        simp [mine]
      · rw [Function.update_of_ne here]
    · change place l (Function.update s.borrow s.kernel.current (some (x, w)) t).isSome
        (s.kernel.frames t) = _
      by_cases here : t = s.kernel.current
      · subst here
        rw [Function.update_self, free, hf, tail, tail]
      · rw [Function.update_of_ne here]

/-- The borrow is given back with what was done under it. -/
theorem returned (tidy : s.Tidy) (stands : Stands l s m)
    (hf : s.kernel.frames s.kernel.current = i :: rest)
    (he : Kernel.Effect s.kernel rest c.kernel i) {w : Bool} (borrows : i.borrows = some (l, w))
    {h : Option Tid} (holder : (c.kernel.locks.sleep l).holder = h) {p : CvPc}
    (at_ : place l false (c.kernel.frames s.kernel.current) = p) :
    Stands l ⟨c, Function.update s.borrow s.kernel.current none⟩
      (({ m with holder := h }.letGo s.kernel.current).goto s.kernel.current p) := by
  have down : ∀ old, i ≠ .downLoop (.inner l) old := by
    rintro old rfl
    cases borrows
  have up : i ≠ .up (.inner l) := by
    rintro rfl
    cases borrows
  have value := he.value_stays (fun old same => (down old same).elim) up
  have owns := Kernel.owns_iff tidy.guards.exclusive hf he
    (fun old same => (down old same).elim) up
  have stored : s.kernel.stored i = none := by
    cases i with
    | access a => cases a <;> first | rfl | cases borrows
    | _ => cases borrows
  have priority := he.priority
  rw [stored] at priority
  refine ⟨stands.inner.trans value.symm, holder.symm, fun t => (stands.owner t).trans (owns t).symm,
    ?_, ?_, stands.priority.trans priority.symm, stands.panicked⟩
  · intro t b
    change (t, b) ∈ m.grip.filter (fun b => b.1 != s.kernel.current) ↔
      Function.update s.borrow s.kernel.current none t = some (l, b)
    rw [List.mem_filter, stands.grip]
    by_cases here : t = s.kernel.current
    · subst here
      simp
    · simp [here]
  · intro t
    change Function.update m.pc s.kernel.current p t =
      place l (Function.update s.borrow s.kernel.current none t).isSome (c.kernel.frames t)
    by_cases here : t = s.kernel.current
    · subst here
      rw [Function.update_self, Function.update_self]
      exact at_.symm
    · rw [Function.update_of_ne here, Function.update_of_ne here,
        he.place_other tidy.guards.exclusive.wired.unborn here]
      exact stands.pc t

theorem accesses (tidy : s.Tidy) (stands : Stands l s m)
    (hf : s.kernel.frames s.kernel.current = i :: rest)
    (he : Kernel.Effect s.kernel rest c.kernel i) {w : Bool} (borrows : i.borrows = some (l, w))
    (out : s.borrow s.kernel.current = some (l, w)) :
    Follows l m ⟨c, Function.update s.borrow s.kernel.current none⟩ := by
  have tail := Kernel.code_tail_of_borrows tidy.guards.exclusive.wired.phased hf borrows
  have rests : place l false rest = .idle := by
    rw [← place_code, tail]
    rfl
  have at_ : m.pc s.kernel.current = place l true (i :: rest) := by
    rw [stands.pc, out, hf]
    rfl
  have steps : ∀ m', m.exec s.kernel.current = some m' →
      m.step (.exec s.kernel.current) = some m' :=
    fun m' done => (Monitor.step_exec stands.panicked).trans done
  cases i with
  | access a =>
    obtain ⟨is, exec, frames⟩ := he.of_access
    have self : c.kernel.frames s.kernel.current = is ++ rest := by
      rw [frames, Kernel.pending_self]
    have same : ∀ p, s.kernel.locks = c.kernel.locks →
        m.exec s.kernel.current = some ((m.letGo s.kernel.current).goto s.kernel.current p) →
        place l false (c.kernel.frames s.kernel.current) = p →
        Follows l m ⟨c, Function.update s.borrow s.kernel.current none⟩ := by
      intro p locks stepped next
      refine follows_of_step (e := .exec s.kernel.current) rfl (steps _ stepped)
        (returned tidy stands hf he borrows (h := m.holder) ?_ next)
      rw [← locks, stands.holder]
    cases a with
    | testHolder x =>
      cases borrows
      have there := at_.trans (place_site rfl)
      simp only [Access.exec] at exec
      split at exec
      · rename_i h holder
        obtain ⟨locks, rfl⟩ := Prod.mk.inj (Except.ok.inj exec)
        refine same (.acquire .again) locks ?_ ?_
        · simp [Monitor.exec, there, Monitor.enter, stands.holder, holder]
        · rw [self]
          exact place_cons (if_pos rfl)
      · rename_i holder
        obtain ⟨locks, rfl⟩ := Prod.mk.inj (Except.ok.inj exec)
        refine same (.acquire .down) locks ?_ ?_
        · simp [Monitor.exec, there, Monitor.enter, stands.holder, holder]
        · rw [self]
          exact place_cons (if_pos rfl)
    | readHolder x =>
      cases borrows
      have there := at_.trans (place_site rfl)
      simp only [Access.exec] at exec
      split at exec
      · rename_i h holder
        obtain ⟨locks, rfl⟩ := Prod.mk.inj (Except.ok.inj exec)
        refine same (.acquire .down) locks ?_ ?_
        · simp [Monitor.exec, there, Monitor.enter, stands.holder, holder]
        · rw [self]
          exact (place_cons_of_none rfl).trans
            ((place_cons_of_none rfl).trans (place_cons (if_pos rfl)))
      · cases exec
    | assertHolder x =>
      cases borrows
      have there := at_.trans (place_site rfl)
      simp only [Access.exec] at exec
      split at exec
      · rename_i h holder
        split at exec
        · rename_i mine
          obtain ⟨locks, rfl⟩ := Prod.mk.inj (Except.ok.inj exec)
          refine same (.release .take none) locks ?_ ?_
          · simp [Monitor.exec, there, Monitor.leave, stands.holder, holder, mine]
          · rw [self]
            exact place_cons (if_pos rfl)
        · cases exec
      · cases exec
    | setHolder x =>
      cases borrows
      have there := at_.trans (place_site rfl)
      obtain ⟨locks, rfl⟩ := Prod.mk.inj (Except.ok.inj exec)
      have stepped : m.exec s.kernel.current = some
          (({ m with holder := some s.kernel.current }.letGo s.kernel.current).goto
            s.kernel.current .idle) := by
        simp [Monitor.exec, there, Monitor.enter]
      refine follows_of_step (e := .exec s.kernel.current) rfl (steps _ stepped)
        (returned tidy stands hf he rfl ?_ ?_)
      · rw [← locks]
        simp [Locks.setHolder]
      · rw [self]
        exact rests
    | takeHolder x =>
      cases borrows
      have there := at_.trans (place_site rfl)
      simp only [Access.exec] at exec
      split at exec
      · rename_i h holder
        obtain ⟨locks, rfl⟩ := Prod.mk.inj (Except.ok.inj exec)
        have stepped : m.exec s.kernel.current = some
            (({ m with holder := none }.letGo s.kernel.current).goto s.kernel.current
              (.release .up none)) := by
          simp [Monitor.exec, there, Monitor.leave, stands.holder, holder]
        refine follows_of_step (e := .exec s.kernel.current) rfl (steps _ stepped)
          (returned tidy stands hf he rfl ?_ ?_)
        · rw [← locks]
          simp [Locks.setHolder]
        · rw [self]
          exact place_cons (if_pos rfl)
      · cases exec
    | _ => cases borrows
  | _ => cases borrows

theorem elsewhere (tidy : s.Tidy) (stands : Stands l s m)
    (hf : s.kernel.frames s.kernel.current = i :: rest)
    (he : Kernel.Effect s.kernel rest c.kernel i) {b : Nat × Bool} (borrows : i.borrows = some b)
    (out : s.borrow s.kernel.current = some b) (ne : b.1 ≠ l) :
    Follows l m ⟨c, Function.update s.borrow s.kernel.current none⟩ := by
  have tail := Kernel.code_tail_of_borrows tidy.guards.exclusive.wired.phased hf borrows
  have rests : ∀ out, place l out rest = .idle := by
    intro out
    rw [← place_code, tail]
    rfl
  obtain ⟨p, site⟩ := Instr.site_of_borrows borrows
  have down : ∀ old, i ≠ .downLoop (.inner l) old := by
    rintro old rfl
    cases borrows
  have up : i ≠ .up (.inner l) := by
    rintro rfl
    cases borrows
  have set : i ≠ .access (.setHolder l) := by
    rintro rfl
    cases borrows
    exact ne rfl
  have take : i ≠ .access (.takeHolder l) := by
    rintro rfl
    cases borrows
    exact ne rfl
  refine follows_of_stored stands he (stands.carries
    (he.value_stays (fun old same => (down old same).elim) up) (Kernel.holder_eq he set take)
    (Kernel.owns_iff tidy.guards.exclusive hf he (fun old same => (down old same).elim) up)
    (fun t w => ?_) fun t => ?_)
  · change Function.update s.borrow s.kernel.current none t = _ ↔ _
    by_cases here : t = s.kernel.current
    · subst here
      rw [Function.update_self, out, Option.some.injEq]
      exact ⟨fun same => (by cases same), fun same => (ne (congrArg Prod.fst same)).elim⟩
    · rw [Function.update_of_ne here]
  · by_cases here : t = s.kernel.current
    · subst here
      have before : ∀ out, place l out (s.kernel.frames s.kernel.current) = .idle := by
        intro out
        rw [hf, place_cons_of_none (Instr.place_of_ne site ne), rests]
      rw [before]
      cases i with
      | access a =>
        obtain ⟨is, exec, frames⟩ := he.of_access
        change place l _ (c.kernel.frames s.kernel.current) = _
        rw [frames, Kernel.pending_self, place_append_of_none, rests]
        intro j hj
        obtain none | ⟨x, q, r, from_, to_⟩ := Kernel.site_of_exec exec hj
        · exact Instr.place_of_site_none none
        · obtain rfl := congrArg Prod.fst (Option.some.inj (site.symm.trans from_))
          exact Instr.place_of_ne to_ ne
      | _ => cases borrows
    · change place l (Function.update s.borrow s.kernel.current none t).isSome
        (c.kernel.frames t) = _
      rw [Function.update_of_ne here, he.place_other tidy.guards.exclusive.wired.unborn here]

theorem takes {old : Bool} (tidy : s.Tidy) (stands : Stands l s m)
    (hf : s.kernel.frames s.kernel.current = .downLoop (.inner l) old :: rest)
    (he : Kernel.Effect s.kernel rest c.kernel (.downLoop (.inner l) old))
    (exclusive : c.kernel.Exclusive) (value : (s.kernel.sema (.inner l)).value ≠ 0) :
    Follows l m ⟨c, s.borrow⟩ := by
  have free : s.borrow s.kernel.current = none := by
    cases out : s.borrow s.kernel.current with
    | none => rfl
    | some b =>
      obtain noise | borrows := tidy.uses hf out
      · cases noise
      · cases borrows
  have tail : code rest = [.access (.setHolder l)] := by
    have phase := tidy.guards.exclusive.wired.phased s.kernel.current
    rw [hf] at phase
    exact phase.tail
  have at_ : m.pc s.kernel.current = .acquire .down := by
    rw [stands.pc, hf]
    exact place_cons (if_pos rfl)
  have priority := he.priority
  have holder := Kernel.holder_eq he (l := l) (by simp) (by simp)
  have unborn := tidy.guards.exclusive.wired.unborn
  have others : ∀ t out, t ≠ s.kernel.current → place l out (c.kernel.frames t) =
    place l out (s.kernel.frames t) := fun t out other => he.place_other unborn other
  cases he with
  | still _ passive => cases passive
  | block _ _ zero => exact (value zero).elim
  | take _ _ _ _ sema _ _ frames =>
    have taking : c.kernel.Taking s.kernel.current l := by
      have mem : .access (.setHolder l) ∈ code rest := by
        rw [tail]
        exact List.mem_singleton_self _
      refine ⟨?_, ?_⟩
      · rw [frames, Kernel.pending_self]
        exact (mem_code.mp mem).1
      · rw [frames, Kernel.pending_self, List.nil_append, ← entering_code, tail]
        rfl
    have stepped : m.step (.exec s.kernel.current) =
        some ({ m with inner := m.inner - 1, owner := some s.kernel.current }.goto
          s.kernel.current (.acquire .write)) := by
      have some : m.inner ≠ 0 := stands.inner ▸ value
      rw [Monitor.step_exec stands.panicked]
      simp [Monitor.exec, at_, Monitor.enter, some]
    refine follows_of_step rfl stepped ⟨?_, stands.holder.trans holder.symm, ?_, stands.grip, ?_,
      stands.priority.trans priority.symm, stands.panicked⟩
    · change m.inner - 1 = (c.kernel.sema (.inner l)).value
      rw [sema, Function.update_self, stands.inner]
    · intro t
      rw [(exclusive.state l).owns_of_taking taking]
      change some s.kernel.current = some t ↔ _
      rw [Option.some.injEq, eq_comm]
    · intro t
      change Function.update m.pc s.kernel.current _ t = place l _ (c.kernel.frames t)
      by_cases here : t = s.kernel.current
      · subst here
        rw [Function.update_self, free, frames, Kernel.pending_self, List.nil_append,
          ← place_code, tail]
        simp [place, Instr.place, Instr.site]
      · rw [Function.update_of_ne here, others t _ here]
        exact stands.pc t

theorem raises (tidy : s.Tidy) (stands : Stands l s m)
    (hf : s.kernel.frames s.kernel.current = .up (.inner l) :: rest)
    (he : Kernel.Effect s.kernel rest c.kernel (.up (.inner l)))
    (exclusive : c.kernel.Exclusive) : Follows l m ⟨c, s.borrow⟩ := by
  have tail : code rest = [] := by
    have phase := tidy.guards.exclusive.wired.phased s.kernel.current
    rw [hf] at phase
    exact phase.tail
  have rests : ∀ out, place l out rest = .idle := by
    intro out
    rw [← place_code, tail]
    rfl
  have at_ : m.pc s.kernel.current = .release .up none := by
    rw [stands.pc, hf]
    exact place_cons (if_pos rfl)
  have priority := he.priority
  have holder := Kernel.holder_eq he (l := l) (by simp) (by simp)
  have unborn := tidy.guards.exclusive.wired.unborn
  have others : ∀ t out, t ≠ s.kernel.current → place l out (c.kernel.frames t) =
    place l out (s.kernel.frames t) := fun t out other => he.place_other unborn other
  cases he with
  | still _ passive => cases passive
  | up _ _ _ _ sema _ _ frames =>
    have value : (c.kernel.sema (.inner l)).value = m.inner + 1 := by
      rw [sema, Function.update_self, stands.inner]
    -- `schedule` follows `up`, and the monitor lets other threads go first in a step of its own
    have ups : m.step (.exec s.kernel.current) =
        some ({ m with inner := m.inner + 1, owner := none }.goto s.kernel.current
          (.release .yield none)) := by
      rw [Monitor.step_exec stands.panicked]
      simp [Monitor.exec, at_, Monitor.leave]
    have yields : ({ m with inner := m.inner + 1, owner := none }.goto s.kernel.current
        (.release .yield none)).step (.exec s.kernel.current) =
        some ({ m with inner := m.inner + 1, owner := none }.goto s.kernel.current .idle) := by
      rw [Monitor.step_exec (by exact stands.panicked)]
      simp [Monitor.exec, Monitor.leave, Monitor.goto]
    refine ⟨[.exec s.kernel.current, .exec s.kernel.current], _, by simp [CvEvent.mutex],
      run_cons.mpr ⟨_, ups, run_cons.mpr ⟨_, yields, rfl⟩⟩, ?_⟩
    refine ⟨value.symm, stands.holder.trans holder.symm, ?_, stands.grip, ?_,
      stands.priority.trans priority.symm, stands.panicked⟩
    · intro t
      have free := (exclusive.state l).not_owns (by rw [value]; exact Nat.succ_ne_zero _) t
      exact ⟨fun same => (by cases same), fun owns => (free owns).elim⟩
    · intro t
      change Function.update m.pc s.kernel.current .idle t = place l _ (c.kernel.frames t)
      by_cases here : t = s.kernel.current
      · subst here
        rw [Function.update_self]
        obtain frames | frames := frames
        · rw [frames, Kernel.pending_self]
          exact (rests _).symm
        · rw [frames, Kernel.pending_self]
          exact (rests _).symm
      · rw [Function.update_of_ne here, others t _ here]
        exact stands.pc t

theorem passes (tidy : s.Tidy) (stands : Stands l s m)
    (hf : s.kernel.frames s.kernel.current = i :: rest)
    (he : Kernel.Effect s.kernel rest c.kernel i) (exclusive : c.kernel.Exclusive)
    (borrows : i.borrows = none) : Follows l m ⟨c, s.borrow⟩ := by
  by_cases up : i = .up (.inner l)
  · subst up
    exact stands.raises tidy hf he exclusive
  · by_cases down : ∃ old, i = .downLoop (.inner l) old ∧ (s.kernel.sema (.inner l)).value ≠ 0
    · obtain ⟨old, rfl, value⟩ := down
      exact stands.takes tidy hf he exclusive value
    · have waits : ∀ old, i = .downLoop (.inner l) old → (s.kernel.sema (.inner l)).value = 0 :=
        fun old same => not_not.mp fun value => down ⟨old, same, value⟩
      have set : i ≠ .access (.setHolder l) := by
        rintro rfl
        cases borrows
      have take : i ≠ .access (.takeHolder l) := by
        rintro rfl
        cases borrows
      refine follows_of_stored stands he (stands.carries (he.value_stays waits up)
        (Kernel.holder_eq he set take)
        (Kernel.owns_iff tidy.guards.exclusive hf he waits up) (fun _ _ => Iff.rfl) fun t => ?_)
      change place l (s.borrow t).isSome (c.kernel.frames t) = _
      by_cases here : t = s.kernel.current
      · subst here
        rw [hf]
        refine he.place_self ?_ borrows waits up
        cases out : s.borrow s.kernel.current with
        | none => exact .inr rfl
        | some b =>
          refine .inl ((tidy.uses hf out).resolve_right ?_)
          rw [borrows]
          exact fun same => by cases same
      · exact he.place_other tidy.guards.exclusive.wired.unborn here

omit [Schedule σ] [LawfulSchedule σ] in
/-- Code is put in front of what the current thread has to execute. -/
theorem pushes (stands : Stands l s m) {is : List Instr}
    (pushed : c.kernel = s.kernel.push s.kernel.current is) (waits : entering is = none)
    (set : .access (.setHolder l) ∉ is) (up : .up (.inner l) ∉ is) {p : CvPc}
    (at_ : place l (s.borrow s.kernel.current).isSome
      (is ++ s.kernel.frames s.kernel.current) = p) :
    Stands l ⟨c, s.borrow⟩ (m.goto s.kernel.current p) := by
  refine ⟨?_, ?_, fun t => ?_, stands.grip, fun t => ?_, ?_, stands.panicked⟩
  · change m.inner = (c.kernel.sema (.inner l)).value
    rw [pushed]
    exact stands.inner
  · change m.holder = (c.kernel.locks.sleep l).holder
    rw [pushed]
    exact stands.holder
  · change m.owner = some t ↔ c.kernel.Owns t l
    rw [pushed, Kernel.owns_push waits set up]
    exact stands.owner t
  · change Function.update m.pc s.kernel.current p t =
      place l (s.borrow t).isSome (c.kernel.frames t)
    rw [pushed, Kernel.push]
    by_cases here : t = s.kernel.current
    · subst here
      rw [Function.update_self]
      change p = place l _ (Function.update s.kernel.frames s.kernel.current _ _)
      rw [Function.update_self]
      exact at_.symm
    · rw [Function.update_of_ne here]
      change m.pc t = place l _ (Function.update s.kernel.frames s.kernel.current _ t)
      rw [Function.update_of_ne here]
      exact stands.pc t
  · change m.priority = c.kernel.locks.priority
    rw [pushed]
    exact stands.priority

omit [Schedule σ] [LawfulSchedule σ] in
/-- Code that does not move the thread is nothing to the monitor. -/
theorem follows_of_pushed (stands : Stands l s m) {is : List Instr}
    (pushed : c.kernel = s.kernel.push s.kernel.current is) (waits : entering is = none)
    (nowhere : ∀ i ∈ is, i.place l (s.borrow s.kernel.current).isSome = none)
    (set : .access (.setHolder l) ∉ is) (up : .up (.inner l) ∉ is) : Follows l m ⟨c, s.borrow⟩ := by
  have at_ := (place_append_of_none nowhere).trans (stands.pc s.kernel.current).symm
  have stays := stands.pushes pushed waits set up at_
  rw [Monitor.goto, Function.update_eq_self] at stays
  exact ⟨[], m, by simp, rfl, stays⟩

theorem calls (tidy : s.Tidy) (stands : Stands l s m) {f : Call}
    (meets : s.critical.Alternates (.call f)) (idle : s.kernel.frames s.kernel.current = [])
    (pushed : c.kernel = s.kernel.push s.kernel.current f.code) : Follows l m ⟨c, s.borrow⟩ := by
  have free := tidy.free_of_nil idle
  have waits : entering f.code = none := by cases f <;> rfl
  have set : .access (.setHolder l) ∉ f.code := by cases f <;> simp [Call.code]
  have up : .up (.inner l) ∉ f.code := by cases f <;> simp [Call.code]
  have at_ : m.pc s.kernel.current = .idle := by
    rw [stands.pc, idle]
    rfl
  have owner := (stands.owner s.kernel.current).trans (Kernel.owns_of_nil idle)
  by_cases locks : f = .acquire l
  · subst locks
    have apart : m.owner ≠ some s.kernel.current := by
      intro mine
      obtain inside | leaving := tidy.written l s.kernel.current (owner.mp mine)
      · exact Bool.false_ne_true (meets.symm.trans inside)
      · simp [Kernel.Leaving, Kernel.Releasing, idle] at leaving
    refine follows_of_step (e := .lock s.kernel.current) rfl ?_
      (stands.pushes pushed waits set up (p := .acquire .test) ?_)
    · simp [Monitor.step, stands.panicked, apart, at_]
    · rw [free]
      exact place_cons (if_pos rfl)
  · by_cases unlocks : f = .release l
    · subst unlocks
      have mine := owner.mpr (tidy.guards.inside l s.kernel.current meets).1
      refine follows_of_step (e := .unlock s.kernel.current) rfl ?_
        (stands.pushes pushed waits set up (p := .release .check none) ?_)
      · simp [Monitor.step, stands.panicked, Monitor.mayCall, mine, at_]
      · rw [free]
        exact place_cons (if_pos rfl)
    · refine stands.follows_of_pushed pushed waits (fun i hi => ?_) set up
      cases f with
      | acquire x | release x =>
        rw [List.mem_singleton.mp hi]
        refine Instr.place_of_ne rfl fun same => ?_
        subst same
        first | exact locks rfl | exact unlocks rfl
      | setPriority p =>
        simp only [Call.code, List.mem_cons, List.not_mem_nil, or_false] at hi
        rcases hi with rfl | rfl | rfl <;> rfl
      | spawn | schedule | exit | down | up =>
        rw [List.mem_singleton.mp hi]
        rfl

/-- The step lemma. -/
theorem step {e : Event} (tidy : s.Tidy) (stands : Stands l s m) (meets : s.Paired e)
    (hs : s.step e = some s') : Follows l m s' := by
  cases e with
  | exec =>
    simp only [Cells.step] at hs
    split at hs
    · rename_i b wants
      obtain ⟨i, head, borrows⟩ := Option.bind_eq_some_iff.mp wants
      obtain ⟨rest, hf⟩ := List.head?_eq_some_iff.mp head
      split at hs
      · rename_i free
        split at hs
        · cases hs
        · rename_i granted
          cases hs
          exact stands.borrows tidy hf borrows free (Bool.eq_false_iff.mpr granted)
      · rename_i held
        obtain ⟨d, hd, rfl⟩ := Option.map_eq_some_iff.mp hs
        obtain ⟨j, rest', hf', he⟩ := Kernel.step_exec
          tidy.guards.exclusive.wired.current_ne (Critical.step_kernel hd).1
        obtain ⟨rfl, rfl⟩ := List.cons.inj (hf.symm.trans hf')
        obtain ⟨b', out⟩ := Option.ne_none_iff_exists'.mp held
        obtain rfl : b' = b := by
          obtain noise | borrows' := tidy.uses hf out
          · cases i with
            | access a => cases noise
            | _ => cases borrows
          · exact Option.some.inj (borrows'.symm.trans borrows)
        obtain ⟨x, w⟩ := b'
        by_cases mine : x = l
        · subst mine
          exact stands.accesses tidy hf he borrows out
        · exact stands.elsewhere tidy hf he borrows out mine
    · rename_i wants
      obtain ⟨d, hd, rfl⟩ := Option.map_eq_some_iff.mp hs
      obtain ⟨i, rest, hf, he⟩ := Kernel.step_exec
        tidy.guards.exclusive.wired.current_ne (Critical.step_kernel hd).1
      rw [Cells.wants, hf] at wants
      exact stands.passes tidy hf he
        (Critical.step_guards tidy.guards meets hd).exclusive wants
  | call f =>
    obtain ⟨d, hd, rfl⟩ := Option.map_eq_some_iff.mp hs
    obtain ⟨idle, pushed⟩ := Kernel.step_call (Critical.step_kernel hd).1
    exact stands.calls tidy meets idle pushed
  | preempt =>
    obtain ⟨d, hd, rfl⟩ := Option.map_eq_some_iff.mp hs
    obtain ⟨-, pushed⟩ := Kernel.step_preempt (Critical.step_kernel hd).1
    refine stands.follows_of_pushed pushed rfl (fun i hi => ?_) (by simp) (by simp)
    rw [List.mem_singleton.mp hi]
    rfl

omit [LawfulSchedule σ] in
theorem panics (stands : Stands l s m) {w : Bool} (wants : s.wants = some (l, w))
    (stuck : s.step .exec = none) :
    ∃ m', m.step (.exec s.kernel.current) = some m' ∧ m'.panicked.isSome = true := by
  obtain ⟨i, head, borrows⟩ := Option.bind_eq_some_iff.mp wants
  obtain ⟨rest, hf⟩ := List.head?_eq_some_iff.mp head
  have pc := stands.pc s.kernel.current
  rw [hf] at pc
  simp only [Cells.step, wants] at stuck
  rw [Monitor.step_exec stands.panicked]
  split at stuck
  · rename_i free
    split at stuck
    · rename_i conflict
      obtain ⟨t, -, meets⟩ := List.any_eq_true.mp conflict
      have clash : m.clashes w = true := by
        cases out : s.borrow t with
        | none =>
          rw [out] at meets
          cases meets
        | some c =>
          obtain ⟨x, v⟩ := c
          rw [out] at meets
          obtain ⟨same, shared⟩ := (Bool.and_eq_true _ _).mp meets
          obtain rfl : x = l := by simpa using same
          exact List.any_eq_true.mpr ⟨(t, v), (stands.grip t v).mpr out, shared⟩
      rw [free] at pc
      have grasps : ∀ p, m.grasp s.kernel.current w p = m.panic .borrow := by
        intro p
        rw [Monitor.grasp, clash]
        rfl
      refine ⟨m.panic .borrow, ?_, rfl⟩
      cases i with
      | access a =>
        cases a with
        | testHolder | assertHolder | readHolder | setHolder | takeHolder =>
          cases borrows
          have pc := pc.trans (place_site rfl)
          simp only [Monitor.exec, pc]
          exact congrArg some (grasps _)
        | _ => cases borrows
      | _ => cases borrows
    · cases stuck
  · rename_i held
    obtain ⟨b, out⟩ := Option.ne_none_iff_exists'.mp held
    rw [out] at pc
    have fails : ∀ a, i = .access a →
        ∃ e, a.exec s.kernel.current s.kernel.locks = .error e := by
      rintro a rfl
      cases exec : a.exec s.kernel.current s.kernel.locks with
      | error e => exact ⟨e, rfl⟩
      | ok r =>
        have some : (s.kernel.step .exec).isSome := by
          simp [Kernel.step, Kernel.exec, hf, Kernel.execInstr, exec]
        rw [Critical.step, Option.map_map, Option.map_eq_none_iff] at stuck
        rw [stuck] at some
        cases some
    cases i with
    | access a =>
      obtain ⟨e, error⟩ := fails a rfl
      cases a with
      | testHolder =>
        simp only [Access.exec] at error
        split at error <;> cases error
      | setHolder => cases error
      | readHolder =>
        cases borrows
        have pc := pc.trans (place_site rfl)
        simp only [Access.exec] at error
        split at error
        · cases error
        · rename_i holder
          refine ⟨m.panic .unwrap, ?_, rfl⟩
          simp [Monitor.exec, pc, Monitor.enter, stands.holder, holder]
      | assertHolder =>
        cases borrows
        have pc := pc.trans (place_site rfl)
        refine ⟨m.panic .abort, ?_, rfl⟩
        simp only [Access.exec] at error
        split at error
        · rename_i h holder
          split at error
          · cases error
          · rename_i other
            simp [Monitor.exec, pc, Monitor.leave, stands.holder, holder, other]
        · rename_i holder
          simp [Monitor.exec, pc, Monitor.leave, stands.holder, holder]
      | takeHolder =>
        cases borrows
        have pc := pc.trans (place_site rfl)
        simp only [Access.exec] at error
        split at error
        · cases error
        · rename_i holder
          refine ⟨m.panic .abort, ?_, rfl⟩
          simp [Monitor.exec, pc, Monitor.leave, stands.holder, holder]
      | _ => cases borrows
    | _ => cases borrows

omit [LawfulSchedule σ] in
theorem start {intr : Bool} {value lockid : Nat → Nat} {k : Kernel σ}
    (h : Kernel.init intr value lockid = .ok k) (l : Nat) :
    Stands l (.start k) (.new k.locks.priority) := by
  obtain ⟨q, all, rfl⟩ := Kernel.init_eq h
  have frames : ∀ t i, i ∈ (Kernel.boot intr value lockid : Kernel σ).frames t →
    i = .kernelThread := fun t i hi => Kernel.boot_frames hi
  refine ⟨rfl, rfl, fun t => ⟨fun same => (by cases same), ?_⟩,
    fun t b => ⟨fun mem => (by cases mem), fun same => (by cases same)⟩, fun t => ?_, rfl, rfl⟩
  · rintro (taking | holder | freeing)
    · cases frames t _ taking.1
    · cases holder
    · cases frames t _ freeing
  · refine (place_of_none fun i hi => ?_).symm
    rw [frames t i hi]
    rfl

end Stands

/-- In every run of threads that pair `acquire` and `release`, each Sleep lock is as the mutex of a
monitor that does the same: in all its steps, borrows and preemptions, the lock does what the
monitor's functions say. -/
theorem sleep_is_mutex {σ : Type} [Schedule σ] [LawfulSchedule σ] {intr : Bool}
    {value lockid : Nat → Nat} {k₀ : Kernel σ} {es : List Event} {s : Cells σ}
    (start : Kernel.init intr value lockid = .ok k₀)
    (meets : Guarded Cells.step Cells.Paired (.start k₀) es)
    (ran : run Cells.step (.start k₀) es = some s) (l : Nat) :
    ∃ cs m, (∀ c ∈ cs, CvEvent.mutex c = true) ∧
      run Monitor.step (.new k₀.locks.priority) cs = some m ∧ Stands l s m := by
  have matched : ∀ (s : Cells σ) e s' m, s.Tidy ∧ Stands l s m → s.Paired e →
      s.step e = some s' → ∃ cs m', (∀ c ∈ cs, CvEvent.mutex c = true) ∧
        run Monitor.step m cs = some m' ∧ s'.Tidy ∧ Stands l s' m' := by
    rintro s e s' m ⟨tidy, stands⟩ meets hs
    obtain ⟨cs, m', mutex, ran, stands'⟩ := stands.step tidy meets hs
    exact ⟨cs, m', mutex, ran, Cells.step_tidy tidy meets hs, stands'⟩
  obtain ⟨cs, m, mutex, ran, -, stands⟩ := guarded_run_simulates matched
    ⟨Cells.start_tidy start, .start start l⟩ meets ran
  exact ⟨cs, m, mutex, ran, stands⟩

/-! ## The semaphores of waits -/

namespace Monitor

variable {σ : Type} [Schedule σ] {k k' : Kernel σ} {m : Monitor} {n : Nat}

omit [Schedule σ] in
/-- A turn of `down` does to a semaphore of a monitor what it does to one of the kernel, and blocks
the thread in the one if it does in the other. -/
theorem downTurn_eq {old : Bool} (same : m.sema n = k.sema (.user n)) (unread : m.reading n = 0)
    (runs : k.status k.current ≠ .Blocked) :
    (m.downTurn k.current n).panicked = m.panicked ∧
      (m.downTurn k.current n).sema n = (k.downLoop (.user n) old).sema (.user n) ∧
      ((m.downTurn k.current n).pc k.current = .blocked n ↔
        (k.downLoop (.user n) old).status k.current = .Blocked) := by
  by_cases zero : (k.sema (.user n)).value = 0
  · simp [downTurn, Kernel.downLoop, same, zero, unread, setSema, goto, Kernel.setSema,
      Kernel.setStatus, Kernel.push]
  · simp [downTurn, Kernel.downLoop, same, zero, setSema, goto, Kernel.setSema, runs]

/-- So does `up` when it gets through in the kernel, and it wakes the same thread. -/
theorem up_eq {t : Tid} {p : CvPc} (up : k.up (.user n) = .ok k')
    (same : m.sema n = k.sema (.user n)) (unread : m.reading n = 0)
    (priority : m.priority = k.locks.priority)
    (blocked : ∀ u ∈ (m.sema n).waiters, ∃ j, m.pc u = .blocked j) :
    (m.up t n p).panicked = m.panicked ∧
      (m.up t n p).sema n = k'.sema (.user n) ∧
      ∀ u ≠ t, k'.status u ≠ k.status u →
        ∃ j, m.pc u = .blocked j ∧ (m.up t n p).pc u = .down j := by
  obtain ⟨-, ⟨none, rfl⟩ | ⟨i, q, w, k₁, some, zero, chosen, found, woken, rfl⟩⟩ :=
    Kernel.up_cases up
  · rw [Monitor.up]
    simp only [same, none]
    refine ⟨rfl, ?_, fun u _ changed => absurd rfl changed⟩
    simp [goto, raised, setSema, Kernel.setSema]
  · obtain ⟨-, queue, -, rfl⟩ := Kernel.wakeUp_cases woken
    obtain ⟨j, there⟩ := blocked w (same ▸ List.mem_of_getElem? found)
    have first : (getMaxpriority m.priority (m.sema n).waiters).1 = i := by
      rw [priority, same, chosen]
    have wakes : m.up t n p =
        (((m.setSema n ⟨(m.sema n).value + 1, (m.sema n).waiters.eraseIdx i⟩).raised t n).goto
          w (.down j)).goto t p := by
      obtain ⟨x, xs, waiters⟩ := List.exists_cons_of_ne_nil (same ▸ some)
      rw [Monitor.up]
      simp only [waiters] at first ⊢
      rw [if_neg (by rw [same, zero]; simp), if_neg (by simp [unread])]
      simp only [first]
      rw [← waiters, same, found]
      simp only [there]
    rw [wakes]
    refine ⟨rfl, ?_, fun u other changed => ?_⟩
    · split
      · simp [goto, raised, setSema, Kernel.setSema, Kernel.push, Kernel.setStatus, same]
      · simp [goto, raised, setSema, Kernel.setSema, Kernel.setStatus, same]
    · obtain rfl : u = w := by
        by_contra ne
        refine changed ?_
        split
        · exact Function.update_of_ne ne ..
        · exact Function.update_of_ne ne ..
      refine ⟨j, there, ?_⟩
      change Function.update (Function.update m.pc u (.down j)) t p u = _
      rw [Function.update_of_ne other, Function.update_self]

end Monitor

end Tacos.Thread
