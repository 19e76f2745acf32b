/- GID: Tacos/Thread/Places
   generality: I
   source: src/sync/sleep.rs, src/sync/mutex.rs, src/sync/sema.rs
   digest: Where threads are in `acquire` and `release` of one Sleep lock, which of them owns it and
     which has its holder borrowed. -/

import Tacos.Thread.Borrow
import Tacos.Thread.Condvar

set_option autoImplicit false
set_option relaxedAutoImplicit false

namespace Tacos.Thread

/-- The Sleep lock that an instruction of `acquire` or `release` is about, and where a monitor has
the thread that comes to it, before and after it has borrowed the holder. -/
def Instr.site : Instr → Option (Nat × (Bool → CvPc))
  | .access (.testHolder l) => some (l, fun out => .acquire (if out then .testHeld else .test))
  | .access (.readHolder l) => some (l, fun out => .acquire (if out then .againHeld else .again))
  | .down (.inner l) | .downLoop (.inner l) _ => some (l, fun _ => .acquire .down)
  | .access (.setHolder l) => some (l, fun out => .acquire (if out then .writeHeld else .write))
  | .access (.assertHolder l) =>
    some (l, fun out => .release (if out then .checkHeld else .check) none)
  | .access (.findRecord l) => some (l, fun _ => .release .take none)
  | .access (.takeHolder l) => some (l, fun out => .release (if out then .takeHeld else .take) none)
  | .up (.inner l) => some (l, fun _ => .release .up none)
  | _ => none

/-- The place of an instruction in the monitor of lock `l`. -/
def Instr.place (l : Nat) (out : Bool) (i : Instr) : Option CvPc :=
  match i.site with
  | some (m, p) => if m = l then some (p out) else none
  | none => none

/-- Where the monitor of lock `l` has a thread with these instructions to execute. -/
def place (l : Nat) (out : Bool) (is : List Instr) : CvPc :=
  (is.findSome? (Instr.place l out)).getD .idle

variable {l : Nat} {out : Bool} {is js : List Instr} {i : Instr}

theorem place_cons {p : CvPc} (here : i.place l out = some p) : place l out (i :: is) = p := by
  rw [place, List.findSome?_cons, here]
  rfl

theorem place_site {p : Bool → CvPc} (site : i.site = some (l, p)) :
    place l out (i :: is) = p out := by
  refine place_cons ?_
  rw [Instr.place, site]
  exact if_pos rfl

theorem place_cons_of_none (here : i.place l out = none) :
    place l out (i :: is) = place l out is := by
  rw [place, List.findSome?_cons, here]
  rfl

theorem place_append_of_none (first : ∀ i ∈ is, i.place l out = none) :
    place l out (is ++ js) = place l out js := by
  rw [place, List.findSome?_append, List.findSome?_eq_none_iff.mpr first, Option.none_or]
  rfl

theorem place_of_none (every : ∀ i ∈ is, i.place l out = none) : place l out is = .idle := by
  rw [place, List.findSome?_eq_none_iff.mpr every]
  rfl

theorem Instr.place_of_site_none (nowhere : i.site = none) : i.place l out = none := by
  rw [Instr.place, nowhere]

theorem Instr.place_of_ne {m : Nat} {p : Bool → CvPc} (site : i.site = some (m, p)) (ne : m ≠ l) :
    i.place l out = none := by
  rw [Instr.place, site]
  exact if_neg ne

theorem Instr.site_of_noise (noise : i.noise = true) : i.site = none := by
  cases i <;> first | rfl | cases noise

theorem place_code : place l out (code is) = place l out is := by
  induction is with
  | nil => rfl
  | cons i is ih =>
    cases noise : i.noise with
    | true =>
      rw [code_cons_of_noise noise, ih,
        place_cons_of_none (Instr.place_of_site_none (Instr.site_of_noise noise))]
    | false =>
      rw [code_cons_of_not_noise noise]
      cases here : i.place l out with
      | none => rw [place_cons_of_none here, place_cons_of_none here, ih]
      | some p => rw [place_cons here, place_cons here]

/-- What an instruction borrows is the holder of the lock that it is about. -/
theorem Instr.site_of_borrows {b : Nat × Bool} (borrows : i.borrows = some b) :
    ∃ p, i.site = some (b.1, p) := by
  cases i with
  | access a =>
    cases a with
    | testHolder | assertHolder | readHolder | setHolder | takeHolder =>
      cases borrows
      exact ⟨_, rfl⟩
    | _ => cases borrows
  | _ => cases borrows

namespace Kernel

variable {σ : Type} {k k' : Kernel σ} {rest : List Instr}

/-- `t` has brought down the semaphore of lock `l` and has not brought it up again. -/
def Owns (k : Kernel σ) (t : Tid) (l : Nat) : Prop :=
  k.Taking t l ∨ (k.locks.sleep l).holder = some t ∨ k.Freeing t l

/-- A thread that has nothing to execute owns the locks in which it is written. -/
theorem owns_of_nil {t : Tid} (idle : k.frames t = []) :
    k.Owns t l ↔ (k.locks.sleep l).holder = some t := by
  constructor
  · rintro (taking | holder | freeing)
    · rw [Taking, idle] at taking
      cases taking.1
    · exact holder
    · rw [Freeing, idle] at freeing
      cases freeing
  · exact fun holder => .inr (.inl holder)

variable [Schedule σ] [LawfulSchedule σ]

theorem taking_of_setHolder (wired : k.Wired)
    (hf : k.frames k.current = .access (.setHolder l) :: rest) : k.Taking k.current l := by
  have tail : code rest = [] := by
    have phase := wired.phased k.current
    rw [hf] at phase
    exact phase.tail
  refine ⟨by rw [hf]; exact List.mem_cons_self, ?_⟩
  rw [hf, entering_cons_of_none rfl, ← entering_code, tail]
  rfl

omit [Schedule σ] [LawfulSchedule σ] in
/-- A lock that is about to be taken belongs to the thread that takes it. -/
theorem LockState.owns_of_taking (state : k.LockState l) {t : Tid} (taking : k.Taking t l)
    (u : Tid) : k.Owns u l ↔ u = t := by
  cases state with
  | taken w _ holder takes frees =>
    obtain rfl := (takes t).mp taking
    constructor
    · rintro (taking | written | freeing)
      · exact (takes u).mp taking
      · rw [holder] at written
        cases written
      · exact (frees u freeing).elim
    · exact fun same => .inl ((takes u).mpr same)
  | free _ _ none | held _ _ _ none | freed _ _ _ none => exact (none t taking).elim

omit [Schedule σ] [LawfulSchedule σ] in
theorem LockState.not_owns (state : k.LockState l) (value : (k.sema (.inner l)).value ≠ 0)
    (t : Tid) : ¬ k.Owns t l := by
  cases state with
  | free _ holder takes frees =>
    rintro (taking | written | freeing)
    · exact takes t taking
    · rw [holder] at written
      cases written
    · exact frees t freeing
  | taken _ zero | held _ zero | freed _ zero => exact (value zero).elim

theorem owns_iff (h : k.Exclusive) (hf : k.frames k.current = i :: rest) (he : Effect k rest k' i)
    (down : ∀ old, i = .downLoop (.inner l) old → (k.sema (.inner l)).value = 0)
    (up : i ≠ .up (.inner l)) (t : Tid) : k'.Owns t l ↔ k.Owns t l := by
  have written : ∀ u, (k.locks.sleep l).holder = some u → k'.Owns u l := by
    intro u holder
    by_cases set : i = .access (.setHolder l)
    · subst set
      rw [(state_set h hf he).1] at holder
      cases holder
    · by_cases take : i = .access (.takeHolder l)
      · subst take
        have mine := h.releasing k.current l (.inr (by rw [hf]; exact List.mem_cons_self))
        obtain rfl := Option.some.inj (holder.symm.trans mine)
        obtain ⟨is, exec, frames⟩ := he.of_access
        simp only [Access.exec, holder, Except.ok.injEq, Prod.mk.injEq] at exec
        obtain ⟨-, rfl⟩ := exec
        refine .inr (.inr ?_)
        rw [Freeing, frames, pending_self]
        exact List.mem_cons_self
      · exact .inr (.inl ((holder_eq he set take).trans holder))
  constructor
  · rintro (taking | holder | freeing)
    · obtain old | ⟨rfl, old, rfl⟩ := taking_back he h.wired.phased hf taking
      · exact .inl old
      · -- a thread that finds no permit goes on waiting
        have zero := down old rfl
        cases he with
        | still _ passive => cases passive
        | take _ _ value => exact (value zero).elim
        | block _ _ _ _ _ _ _ frames =>
          have waits := taking.2
          rw [frames, pending_self] at waits
          cases waits
    · by_cases set : i = .access (.setHolder l)
      · subst set
        have mine : (k'.locks.sleep l).holder = some k.current := by
          rw [he.holder l]
          simp [Kernel.held, Access.sets]
        obtain rfl := Option.some.inj (holder.symm.trans mine)
        exact .inl (taking_of_setHolder h.wired hf)
      · by_cases take : i = .access (.takeHolder l)
        · subst take
          rw [he.holder l] at holder
          simp [Kernel.held, Access.sets] at holder
        · exact .inr (.inl ((holder_eq he set take).symm.trans holder))
    · obtain old | ⟨rfl, rfl⟩ := freeing_back he hf freeing
      · exact .inr (.inr old)
      · exact .inr (.inl (h.releasing k.current l (.inr (by rw [hf]; exact List.mem_cons_self))))
  · rintro (taking | holder | freeing)
    · obtain new | ⟨rfl, rfl⟩ := taking_forward he h.wired.phased hf h.wired.unborn taking
      · exact .inl new
      · refine .inr (.inl ?_)
        rw [he.holder l]
        simp [Kernel.held, Access.sets]
    · exact written t holder
    · obtain new | ⟨-, rfl⟩ := freeing_forward he hf h.wired.unborn freeing
      · exact .inr (.inr new)
      · exact (up rfl).elim

omit [Schedule σ] [LawfulSchedule σ] in
/-- Instructions that start no `acquire` and are none of `release` leave the owners. -/
theorem owns_push {is : List Instr} (waits : entering is = none)
    (set : .access (.setHolder l) ∉ is) (up : .up (.inner l) ∉ is) (t : Tid) :
    (k.push k.current is).Owns t l ↔ k.Owns t l := by
  have mem : ∀ j ∉ is, (j ∈ (k.push k.current is).frames t ↔ j ∈ k.frames t) :=
    fun j absent => ⟨fun hj => (push_back hj).resolve_left absent, mem_push⟩
  have same : entering ((k.push k.current is).frames t) = entering (k.frames t) := by
    by_cases mine : t = k.current
    · subst mine
      simp [push, entering_append, waits]
    · simp [push, mine]
  exact or_congr (and_congr (mem _ set) (by rw [same])) (or_congr Iff.rfl (mem _ up))

end Kernel

namespace Critical

variable {σ : Type} [Schedule σ]

/-- A thread that is written in a lock is inside it or has called `release`. -/
def Written (s : Critical σ) : Prop :=
  ∀ l t, (s.kernel.locks.sleep l).holder = some t →
    s.inside l t = true ∨ s.kernel.Leaving t l

variable [LawfulSchedule σ] {s s' : Critical σ} {k' : Kernel σ} {rest : List Instr}

/-- A thread on its way out of a lock stays there as long as it is written in it. -/
private theorem leaving_forward (guards : s.Guards)
    (hf : s.kernel.frames s.kernel.current = i :: rest) (he : Kernel.Effect s.kernel rest k' i)
    {t : Tid} (take : i ≠ .access (.takeHolder l)) (leaving : s.kernel.Leaving t l) :
    k'.Leaving t l := by
  have unborn := guards.exclusive.wired.unborn
  have holder := guards.leaving l t leaving
  obtain mem | mem | mem := leaving
  · obtain still | ⟨rfl, rfl⟩ := he.mem_forward hf unborn mem
    · exact .inl still
    · obtain ⟨is, exec, frames⟩ := he.of_access
      simp only [Access.exec, holder, if_pos, Except.ok.injEq, Prod.mk.injEq] at exec
      obtain ⟨-, rfl⟩ := exec
      refine .inr (.inl ?_)
      rw [frames, Kernel.pending_self]
      exact List.mem_cons_self
  · obtain still | ⟨rfl, rfl⟩ := he.mem_forward hf unborn mem
    · exact .inr (.inl still)
    · obtain ⟨is, exec, frames⟩ := he.of_access
      refine .inr (.inr ?_)
      rw [frames, Kernel.pending_self]
      simp only [Access.exec] at exec
      split at exec
      · obtain ⟨-, rfl⟩ := Prod.mk.inj (Except.ok.inj exec)
        simp
      · obtain ⟨-, rfl⟩ := Prod.mk.inj (Except.ok.inj exec)
        simp
  · obtain still | ⟨-, rfl⟩ := he.mem_forward hf unborn mem
    · exact .inr (.inr still)
    · exact (take rfl).elim

private theorem exec_written (guards : s.Guards) (written : s.Written)
    (hs : s.step .exec = some s') : s'.Written := by
  obtain ⟨hk, inside⟩ := step_kernel hs
  obtain ⟨i, rest, hf, he⟩ := Kernel.step_exec guards.exclusive.wired.current_ne hk
  intro l t holder
  rw [inside, track, hf]
  by_cases set : i = .access (.setHolder l)
  · subst set
    have mine : (s'.kernel.locks.sleep l).holder = some s.kernel.current := by
      rw [he.holder l]
      simp [Kernel.held, Access.sets]
    obtain rfl := Option.some.inj (holder.symm.trans mine)
    exact .inl (by simp [mark])
  · by_cases take : i = .access (.takeHolder l)
    · subst take
      rw [he.holder l] at holder
      simp [Kernel.held, Access.sets] at holder
    · rw [Kernel.holder_eq he set take] at holder
      obtain old | leaving := written l t holder
      · refine .inl ?_
        cases i with
        | access a =>
          cases a with
          | setHolder m =>
            have ne : l ≠ m := fun same => set (by rw [same])
            exact (congrFun (Function.update_of_ne ne ..) t).trans old
          | _ => exact old
        | _ => exact old
      · exact .inr (leaving_forward guards hf he take leaving)

/-- The step lemma. -/
theorem step_written {e : Event} (guards : s.Guards) (written : s.Written)
    (hs : s.step e = some s') : s'.Written := by
  have stays : ∀ {is : List Instr} {l : Nat} {t : Tid}, s.kernel.Leaving t l →
      (s.kernel.push s.kernel.current is).Leaving t l := fun leaving =>
    leaving.imp Kernel.mem_push (Or.imp Kernel.mem_push Kernel.mem_push)
  cases e with
  | exec => exact exec_written guards written hs
  | preempt =>
    obtain ⟨hk, inside⟩ := step_kernel hs
    obtain ⟨-, pushed⟩ := Kernel.step_preempt hk
    intro l t holder
    rw [pushed] at holder ⊢
    rw [inside]
    exact (written l t holder).imp_right stays
  | call c =>
    obtain ⟨hk, inside⟩ := step_kernel hs
    obtain ⟨-, pushed⟩ := Kernel.step_call hk
    intro l t holder
    rw [pushed] at holder ⊢
    rw [inside]
    obtain old | leaving := written l t holder
    · by_cases out : c = .release l ∧ t = s.kernel.current
      · obtain ⟨rfl, rfl⟩ := out
        exact .inr (.inl (by simp [Kernel.push, Call.code]))
      · refine .inl ?_
        cases c with
        | release m =>
          by_cases same : l = m
          · subst same
            have ne : t ≠ s.kernel.current := fun mine => out ⟨rfl, mine⟩
            simpa [track, mark, Function.update_of_ne ne] using old
          · simpa [track, mark, Function.update_of_ne same] using old
        | _ => exact old
    · exact .inr (stays leaving)

omit [LawfulSchedule σ] in
theorem start_written {intr : Bool} {value lockid : Nat → Nat} {k : Kernel σ}
    (h : Kernel.init intr value lockid = .ok k) : (start k).Written := by
  obtain ⟨q, all, rfl⟩ := Kernel.init_eq h
  intro l t holder
  cases holder

end Critical

namespace Cells

variable {σ : Type} [Schedule σ] [LawfulSchedule σ] {s s' : Cells σ} {rest : List Instr}

/-- A thread that has a borrow out is about to use it. -/
structure Tidy (s : Cells σ) : Prop where
  guards : s.critical.Guards
  written : s.critical.Written
  borrow : ∀ t b, s.borrow t = some b →
    ∃ i is, code (s.kernel.frames t) = i :: is ∧ i.borrows = some b

/-- It uses the borrow at the next instruction that does more than pass the processor on. -/
theorem Tidy.uses (tidy : s.Tidy) (hf : s.kernel.frames s.kernel.current = i :: rest)
    {b : Nat × Bool} (out : s.borrow s.kernel.current = some b) :
    i.noise = true ∨ i.borrows = some b := by
  obtain ⟨j, is, codes, borrows⟩ := tidy.borrow _ _ out
  cases noise : i.noise with
  | true => exact .inl rfl
  | false =>
    rw [hf, code_cons_of_not_noise noise] at codes
    obtain ⟨rfl, -⟩ := List.cons.inj codes
    exact .inr borrows

theorem Tidy.free_of_nil (tidy : s.Tidy) {t : Tid} (idle : s.kernel.frames t = []) :
    s.borrow t = none := by
  cases out : s.borrow t with
  | none => rfl
  | some b =>
    obtain ⟨i, is, codes, -⟩ := tidy.borrow _ _ out
    rw [idle] at codes
    cases codes

theorem Tidy.lt_nextTid (tidy : s.Tidy) {t : Tid} {b : Nat × Bool} (out : s.borrow t = some b) :
    t < s.kernel.nextTid := by
  by_contra high
  have idle := (tidy.guards.exclusive.wired.manager.core.fresh t (Nat.not_lt.mp high)).2
  rw [tidy.free_of_nil idle] at out
  cases out

/-- A borrow that is granted meets none of the same cell, unless both are shared. -/
theorem Tidy.apart (tidy : s.Tidy) {b : Nat × Bool} (granted : s.conflicts b = false) {t : Tid}
    {c : Bool} (out : s.borrow t = some (b.1, c)) : (c || b.2) = false := by
  rw [conflicts, List.any_eq_false] at granted
  have quiet := granted t (List.mem_range.mpr (tidy.lt_nextTid out))
  rw [out] at quiet
  simpa using quiet

private theorem Tidy.borrow_other (tidy : s.Tidy) {k' : Kernel σ}
    (he : Kernel.Effect s.kernel rest k' i) {t : Tid} (other : t ≠ s.kernel.current)
    {b : Nat × Bool} (out : s.borrow t = some b) :
    ∃ i is, code (k'.frames t) = i :: is ∧ i.borrows = some b := by
  obtain same | ⟨rfl, -⟩ := he.frames_other other
  · rw [same]
    exact tidy.borrow t b out
  · rw [tidy.free_of_nil tidy.guards.exclusive.wired.unborn] at out
    cases out

private theorem Tidy.push (tidy : s.Tidy) {c : Critical σ} {is : List Instr} (guards : c.Guards)
    (written : c.Written) (pushed : c.kernel = s.kernel.push s.kernel.current is)
    (quiet : code is = [] ∨ s.borrow s.kernel.current = none) : Tidy ⟨c, s.borrow⟩ := by
  refine ⟨guards, written, fun t b out => ?_⟩
  change ∃ i js, code (c.kernel.frames t) = i :: js ∧ _
  rw [pushed]
  by_cases mine : t = s.kernel.current
  · subst mine
    obtain silent | free := quiet
    · simpa [Kernel.push, silent] using tidy.borrow _ b out
    · rw [free] at out
      cases out
  · simpa [Kernel.push, mine] using tidy.borrow t b out

/-- The step lemma. -/
theorem step_tidy {e : Event} (tidy : s.Tidy) (meets : s.Paired e) (hs : s.step e = some s') :
    s'.Tidy := by
  have both : ∀ {c : Critical σ}, s.critical.step e = some c → c.Guards ∧ c.Written :=
    fun hc => ⟨Critical.step_guards tidy.guards meets hc,
      Critical.step_written tidy.guards tidy.written hc⟩
  cases e with
  | exec =>
    simp only [step] at hs
    split at hs
    · rename_i b wants
      split at hs
      · split at hs
        · cases hs
        · cases hs
          refine ⟨tidy.guards, tidy.written, fun t c out => ?_⟩
          by_cases mine : t = s.kernel.current
          · subst mine
            obtain rfl : b = c := by simpa using out
            obtain ⟨i, head, borrows⟩ := Option.bind_eq_some_iff.mp wants
            obtain ⟨is, hf⟩ := List.head?_eq_some_iff.mp head
            have loud : i.noise = false := by
              cases i <;> first | rfl | cases borrows
            exact ⟨i, code is, by rw [hf, code_cons_of_not_noise loud], borrows⟩
          · exact tidy.borrow t c (by simpa [mine] using out)
      · obtain ⟨c, hc, rfl⟩ := Option.map_eq_some_iff.mp hs
        obtain ⟨guards, written⟩ := both hc
        obtain ⟨i, rest, hf, he⟩ := Kernel.step_exec
          tidy.guards.exclusive.wired.current_ne (Critical.step_kernel hc).1
        refine ⟨guards, written, fun t b out => ?_⟩
        by_cases mine : t = s.kernel.current
        · subst mine
          simp at out
        · exact tidy.borrow_other he mine (by simpa [mine] using out)
    · rename_i wants
      obtain ⟨c, hc, rfl⟩ := Option.map_eq_some_iff.mp hs
      obtain ⟨guards, written⟩ := both hc
      obtain ⟨i, rest, hf, he⟩ := Kernel.step_exec
        tidy.guards.exclusive.wired.current_ne (Critical.step_kernel hc).1
      refine ⟨guards, written, fun t b out => ?_⟩
      by_cases mine : t = s.kernel.current
      · subst mine
        have noise : i.noise = true := by
          refine (tidy.uses hf out).resolve_right fun borrows => ?_
          rw [Cells.wants, hf] at wants
          cases borrows.symm.trans wants
        have same : code (c.kernel.frames s.kernel.current) =
            code (s.kernel.frames s.kernel.current) := by
          rw [hf, code_cons_of_noise noise]
          cases he with
          | schedule _ _ _ frames =>
            obtain ⟨-, frames⟩ | frames := frames
            · rw [frames, Kernel.pending_self, List.nil_append]
            · rw [frames, Kernel.pending_self]
              rfl
          | still _ _ _ _ _ _ frames => rw [frames, Kernel.pending_self, List.nil_append]
          | build | exit | down | block | take | up | access => cases noise
        change ∃ i is, code (c.kernel.frames s.kernel.current) = i :: is ∧ _
        rw [same]
        exact tidy.borrow _ b out
      · exact tidy.borrow_other he mine out
  | call c =>
    obtain ⟨d, hd, rfl⟩ := Option.map_eq_some_iff.mp hs
    obtain ⟨guards, written⟩ := both hd
    obtain ⟨idle, pushed⟩ := Kernel.step_call (Critical.step_kernel hd).1
    exact tidy.push guards written pushed (.inr (tidy.free_of_nil idle))
  | preempt =>
    obtain ⟨d, hd, rfl⟩ := Option.map_eq_some_iff.mp hs
    obtain ⟨guards, written⟩ := both hd
    obtain ⟨-, pushed⟩ := Kernel.step_preempt (Critical.step_kernel hd).1
    exact tidy.push guards written pushed (.inl rfl)

theorem start_tidy {intr : Bool} {value lockid : Nat → Nat} {k : Kernel σ}
    (h : Kernel.init intr value lockid = .ok k) : (start k).Tidy :=
  ⟨Critical.start_guards h, Critical.start_written h, fun _ _ out => by cases out⟩

end Cells

namespace Kernel

variable {σ : Type} {k k' : Kernel σ} {rest : List Instr}

/-- Only a thread that takes a lock or gives it up changes the value of its semaphore. -/
theorem Effect.value_stays (he : Effect k rest k' i)
    (down : ∀ old, i = .downLoop (.inner l) old → (k.sema (.inner l)).value = 0)
    (up : i ≠ .up (.inner l)) : (k'.sema (.inner l)).value = (k.sema (.inner l)).value := by
  cases he with
  | block s old _ _ sema =>
    rw [sema]
    by_cases here : .inner l = s
    · rw [here, Function.update_self]
    · rw [Function.update_of_ne here]
  | take s old value _ sema =>
    rw [sema, Function.update_of_ne]
    rintro rfl
    exact value (down old rfl)
  | up s _ _ _ sema =>
    rw [sema, Function.update_of_ne]
    rintro rfl
    exact up rfl
  | schedule _ sema | still _ _ _ sema | build _ _ sema | exit _ sema | down _ _ sema
  | access _ _ _ sema => rw [sema]

theorem Effect.place_other (he : Effect k rest k' i) (unborn : k.frames k.nextTid = []) {t : Tid}
    (other : t ≠ k.current) : place l out (k'.frames t) = place l out (k.frames t) := by
  obtain same | ⟨rfl, new, -⟩ := he.frames_other other
  · rw [same]
  · rw [new, unborn]
    rfl

theorem site_of_exec {cur : Tid} {n n' : Locks} {a : Access} {j : Instr}
    (exec : a.exec cur n = .ok (n', is)) (hj : j ∈ is) :
    j.site = none ∨ ∃ x p q, (Instr.access a).site = some (x, p) ∧ j.site = some (x, q) := by
  cases a with
  | testHolder | readHolder | assertHolder | findRecord | takeHolder =>
    simp only [Access.exec] at exec
    repeat' split at exec
    all_goals cases exec
    all_goals
      simp only [List.mem_cons, List.cons_append, List.nil_append, List.not_mem_nil,
        or_false] at hj
      rcases hj with rfl | rfl | rfl | rfl | rfl | rfl | rfl | rfl
    all_goals first | exact .inl rfl | exact .inr ⟨_, _, _, rfl, rfl⟩
  | findAndDonate =>
    cases exec
    obtain ⟨r, -, hr⟩ := List.mem_flatMap.mp hj
    rcases List.mem_pair.mp hr with rfl | rfl <;> exact .inl rfl
  | loadAcceptor =>
    simp only [Access.exec] at exec
    split at exec
    all_goals cases exec
    · simp only [List.mem_cons, List.not_mem_nil, or_false] at hj
      rcases hj with rfl | rfl | rfl | rfl <;> exact .inl rfl
    · cases hj
  | updateStoredPrev | restoreSetted =>
    simp only [Access.exec] at exec
    split at exec
    all_goals
      cases exec
      cases hj
  | loadDonner | donateLoad | scanRecords =>
    cases exec
    rw [List.mem_singleton.mp hj]
    exact .inl rfl
  | _ =>
    cases exec
    cases hj

/-- An instruction under no borrow, which neither takes the lock nor gives it up, leaves its thread
where it is. -/
theorem Effect.place_self (he : Effect k rest k' i) (free : i.noise = true ∨ out = false)
    (borrows : i.borrows = none)
    (down : ∀ old, i = .downLoop (.inner l) old → (k.sema (.inner l)).value = 0)
    (up : i ≠ .up (.inner l)) : place l out (k'.frames k.current) = place l out (i :: rest) := by
  cases he with
  | schedule _ _ _ frames =>
    obtain ⟨-, frames⟩ | frames := frames
    · rw [frames, pending_self]
      rfl
    · rw [frames, pending_self]
      rfl
  | still i passive _ _ _ _ frames =>
    rw [frames, pending_self, place_cons_of_none]
    · rfl
    · cases i <;> first | rfl | cases passive
  | build _ _ _ _ _ frames =>
    rw [frames, Function.update_self]
    rfl
  | exit _ _ _ _ frames =>
    rw [frames, pending_self]
    rfl
  | down s _ _ _ _ frames =>
    rw [frames, pending_self]
    cases s <;> rfl
  | block s _ _ _ _ _ _ frames =>
    rw [frames, pending_self]
    cases s <;> rfl
  | take s old value _ _ _ _ frames =>
    rw [frames, pending_self]
    cases s with
    | user n => rfl
    | inner x =>
      by_cases here : x = l
      · subst here
        exact (value (down old rfl)).elim
      · exact (place_cons_of_none (Instr.place_of_ne rfl here)).symm
  | up s _ _ _ _ _ _ frames =>
    have nowhere : (Instr.up s).place l out = none := by
      cases s with
      | user n => rfl
      | inner x => exact Instr.place_of_ne rfl fun same => up (by rw [same])
    rw [place_cons_of_none nowhere]
    obtain frames | frames := frames
    · rw [frames, pending_self]
      rfl
    · rw [frames, pending_self]
      rfl
  | access a is exec _ _ _ frames =>
    obtain rfl := free.resolve_left Bool.false_ne_true
    rw [frames, pending_self]
    by_cases record : ∃ x, a = .findRecord x
    · obtain ⟨x, rfl⟩ := record
      simp only [Access.exec] at exec
      split at exec
      all_goals
        obtain ⟨-, rfl⟩ := Prod.mk.inj (Except.ok.inj exec)
        rfl
    · have nowhere : (Instr.access a).site = none := by
        cases a <;> first | rfl | exact (record ⟨_, rfl⟩).elim | cases borrows
      rw [place_cons_of_none (Instr.place_of_site_none nowhere)]
      refine place_append_of_none fun j hj => Instr.place_of_site_none ?_
      obtain none | ⟨x, p, q, some, -⟩ := site_of_exec exec hj
      · exact none
      · rw [nowhere] at some
        cases some

/-- What an instruction borrows comes last in `acquire` or `release`. -/
theorem code_tail_of_borrows (phased : k.Phased) (hf : k.frames k.current = i :: rest)
    {b : Nat × Bool} (borrows : i.borrows = some b) : code rest = [] := by
  have phase := phased k.current
  rw [hf] at phase
  cases i with
  | access a =>
    cases a with
    | testHolder | assertHolder | readHolder | setHolder | takeHolder => exact phase.tail
    | _ => cases borrows
  | _ => cases borrows

end Kernel

end Tacos.Thread
