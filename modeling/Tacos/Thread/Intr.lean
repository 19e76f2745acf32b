/- GID: Tacos/Thread/Intr
   generality: G
   source: src/sync/intr.rs, src/sbi/interrupt.rs, src/trap.rs, src/thread/manager.rs
   digest: Interrupt locks under traps at every register access, and when they nest. -/

import Tacos.Lib.Run
import Tacos.Thread.Scheduler
import Mathlib.Tactic.Common

set_option autoImplicit false
set_option relaxedAutoImplicit false

namespace Tacos.Thread.Intr

open Tacos.Lib.Run

/-- The two bits of `sie`, the bit of `sstatus` and the cells of all Intr locks. -/
structure Hart where
  stimer : Bool
  sext : Bool
  sie : Bool
  cell : Nat → Option Bool

/-- What a program does, and from `setStimer` on the accesses that its calls consist of. -/
inductive Instr where
  | acquire (l : Nat)
  | release (l : Nat)
  /-- `let old = interrupt::set(false)`, and `interrupt::set(old)` with the last such `old`. -/
  | disable
  | restore
  /-- `switch` of `Manager::schedule`. -/
  | switch
  /-- `sstatus::set_sie` -/
  | setSie
  /-- Anything that touches neither interrupts nor Intr locks. -/
  | work
  /-- The register writes of `on()` and `off()`. -/
  | setStimer
  | setSext
  | clearSext
  | clearStimer
  /-- `interrupt::set(level)` -/
  | set (level : Bool)
  | bind (old : Bool)
  /-- `Intr::acquire`: the test before the panic, and the one of the assertion. -/
  | testFree (l : Nat) (old : Bool)
  | assertFree (l : Nat) (old : Bool)
  /-- `Intr::acquire`: both halves of `self.0.set(Some(sbi::interrupt::set(false)))`. -/
  | disableAgain (l : Nat)
  | record (l : Nat) (old : Bool)
  /-- `Intr::release` returns. -/
  | released (l : Nat)
  deriving DecidableEq

/-- A program or a trap handler that is being executed, with its variables `old`. The last two
fields record the locks it has taken and not released, and the level before it took the outermost
one. -/
structure Frame where
  code : List Instr
  olds : List Bool
  held : List Nat
  before : Bool
  deriving DecidableEq

inductive Panic where
  | taken (l : Nat)
  | releaseBeforeAcquire (l : Nat)
  deriving DecidableEq

/-- The register writes of `interrupt::set(level)`: those of `on()`, those of `off()`, or none. -/
def writes (old level : Bool) : List Instr :=
  if old = level then [] else if level then [.setStimer, .setSext] else [.clearSext, .clearStimer]

def Frame.push (f : Frame) (is : List Instr) : Frame := { f with code := is ++ f.code }

def Frame.enter (f : Frame) (level : Bool) : Frame :=
  { f with before := if f.held = [] then level else f.before }

/-- One access; `f` no longer holds the instruction itself. -/
def Instr.exec (h : Hart) (f : Frame) : Instr → Option (Except Panic (Hart × Frame))
  | .acquire l => some (.ok (h,
    (f.enter h.stimer).push (writes h.stimer false ++ [.testFree l h.stimer])))
  | .testFree l old =>
    if (h.cell l).isSome then some (.error (.taken l)) else some (.ok (h,
      f.push [.assertFree l old]))
  | .assertFree l old =>
    if (h.cell l).isSome then some (.error (.taken l)) else some (.ok (h,
      f.push [.set old, .disableAgain l]))
  | .disableAgain l => some (.ok (h, f.push (writes h.stimer false ++ [.record l h.stimer])))
  | .record l old =>
    some (.ok ({ h with cell := Function.update h.cell l (some old) },
      { f with held := l :: f.held }))
  | .release l =>
    match h.cell l with
    | none => some (.error (.releaseBeforeAcquire l))
    | some old =>
      some (.ok ({ h with cell := Function.update h.cell l none },
        { f with held := f.held.erase l }.push [.set old, .released l]))
  | .released _ | .work => some (.ok (h, f))
  | .disable => some (.ok (h, f.push (writes h.stimer false ++ [.bind h.stimer])))
  | .bind old => some (.ok (h, { f with olds := old :: f.olds }))
  | .restore =>
    match f.olds with
    | [] => none
    | old :: olds => some (.ok (h, { f with olds := olds }.push [.set old]))
  | .set level => some (.ok (h, f.push (writes h.stimer level)))
  | .setStimer => some (.ok ({ h with stimer := true }, f))
  | .setSext => some (.ok ({ h with sext := true }, f))
  | .clearSext => some (.ok ({ h with sext := false }, f))
  | .clearStimer => some (.ok ({ h with stimer := false }, f))
  | .setSie => some (.ok ({ h with sie := true }, f))
  | .switch => none

/-! ## Nesting -/

/-- What a program has opened and not closed: a lock, or a variable `old`. -/
inductive Bracket where
  | lock (l : Nat)
  | masked
  deriving DecidableEq

def locks : List Bracket → List Nat
  | [] => []
  | .lock l :: s => l :: locks s
  | .masked :: s => locks s

/-- The open brackets after an instruction of a program, if it is properly nested: locks inside
one another are distinct, and `switch` stands where interrupts are off and no lock is held. -/
def after (s : List Bracket) : Instr → Option (List Bracket)
  | .acquire l => if l ∈ locks s then none else some (.lock l :: s)
  | .release l =>
    match s with
    | .lock m :: s => if m = l then some s else none
    | _ => none
  | .disable => some (.masked :: s)
  | .restore =>
    match s with
    | .masked :: s => some s
    | _ => none
  | .switch => if s ≠ [] ∧ locks s = [] then some s else none
  | .setSie | .work => some s
  | _ => none

/-- A properly nested program, which need not come to its end. -/
abbrev Program := { is : List Instr // (run after [] is).isSome }

/-- A properly nested program that closes what it opens. -/
abbrev Handler := { is : List Instr // run after [] is = some [] }

/-- What `schedule_tail` does, inside of the brackets of a `Manager::schedule`. -/
abbrev Tail := { is : List Instr // run after [.masked] is = some [.masked] }

/-! ## Threads -/

/-- The hart, the thread that it executes, and the frames of all threads, the innermost first. -/
structure System where
  hart : Hart
  current : Tid
  threads : Tid → List Frame

inductive Event where
  | exec
  | timer (handler : Handler)
  | external (handler : Handler)
  | switch (next : Tid)

namespace System

def put (s : System) (fs : List Frame) : System :=
  { s with threads := Function.update s.threads s.current fs }

/-- The next access of the current thread; at the end of a handler, the return from the trap. -/
def exec (s : System) : Option (Except Panic System) :=
  match s.threads s.current with
  | [] => none
  | f :: fs =>
    match f.code with
    | [] => if fs = [] then none else some (.ok
        { s.put fs with hart := { s.hart with sie := true } })
    | i :: is =>
      match i.exec s.hart { f with code := is } with
      | none => none
      | some (.error p) => some (.error p)
      | some (.ok (h, f)) => some (.ok { s.put (f :: fs) with hart := h })

def panics (s : System) : Option Panic :=
  match s.exec with
  | some (.error p) => some p
  | _ => none

def trap (s : System) (handler : Handler) : System :=
  { s.put (⟨handler, [], [], false⟩ :: s.threads s.current) with
    hart := { s.hart with sie := false } }

def step (s : System) : Event → Option System
  | .exec =>
    match s.exec with
    | some (.ok t) => some t
    | _ => none
  | .timer handler => if s.hart.sie && s.hart.stimer then some (s.trap handler) else none
  | .external handler => if s.hart.sie && s.hart.sext then some (s.trap handler) else none
  | .switch next =>
    match s.threads s.current with
    | ⟨.switch :: is, olds, held, before⟩ :: fs =>
      some { s.put (⟨is, olds, held, before⟩ :: fs) with current := next }
    | _ => none

/-- One thread is executing its program. The others are fresh: they come out of `schedule_tail` into
`kernel_thread`, which sets the level to `true`. -/
def start (level sie : Bool) (current : Tid) (tail : Tid → Tail) (main : Tid → Program) : System :=
  ⟨⟨level, level, sie, fun _ => none⟩, current, fun t =>
    if t = current then [⟨main t, [], [], false⟩] else [⟨(tail t).1 ++ .restore :: (main t).1,
      [true], [], false⟩]⟩

def next (s : System) : Option Instr := (s.threads s.current).head?.bind fun f => f.code.head?

/-- No timer interrupt between the two writes of `off()`. -/
def Apart (s : System) : Event → Prop
  | .timer _ => s.next ≠ some .clearStimer
  | _ => True

instance (s : System) : ∀ e, Decidable (s.Apart e)
  | .timer _ => inferInstanceAs (Decidable (_ ≠ _))
  | .exec | .external _ | .switch _ => .isTrue trivial

end System

/-! ## What a stack of open brackets says -/

/-- The interrupt level: off in every bracket. -/
def level (base : Bool) : List Bracket → Bool
  | [] => base
  | _ :: _ => false

/-- The variables `old`: each has the level outside of its bracket. -/
def olds (base : Bool) : List Bracket → List Bool
  | [] => []
  | .lock _ :: s => olds base s
  | .masked :: s => level base s :: olds base s

/-- The cells of the locks: each has the level outside of its bracket. -/
def cells (base : Bool) : List Bracket → Nat → Option Bool
  | [] => fun _ => none
  | .lock l :: s => Function.update (cells base s) l (some (level base s))
  | .masked :: s => cells base s

/-- The level outside of the outermost lock, or the level if there is none. -/
def entry (base : Bool) : List Bracket → Bool
  | [] => base
  | .lock _ :: s => entry base s
  | .masked :: s => if locks s = [] then false else entry base s

variable {base : Bool} {stack e : List Bracket}

theorem cells_of_notMem {l : Nat} (free : l ∉ locks stack) : cells base stack l = none := by
  induction stack with
  | nil => rfl
  | cons b stack ih =>
    cases b with
    | lock m =>
      rw [locks, List.mem_cons, not_or] at free
      rw [cells, Function.update_of_ne free.1]
      exact ih free.2
    | masked => exact ih free

theorem cells_of_unlocked (none : locks stack = []) : cells base stack = fun _ => .none := by
  funext l
  refine cells_of_notMem ?_
  rw [none]
  exact List.not_mem_nil

theorem entry_of_unlocked (none : locks stack = []) : entry base stack = level base stack := by
  cases stack with
  | nil => rfl
  | cons b stack =>
    cases b with
    | lock l => cases none
    | masked =>
      rw [locks] at none
      rw [entry, if_pos none]
      rfl

theorem level_eq_true (on : level base stack = true) : base = true ∧ stack = [] := by
  cases stack with
  | nil => exact ⟨on, rfl⟩
  | cons b stack => cases on

/-! ## What a frame is about to do -/

/-- The bits of `sie` say that the level is `v`; the second one follows the first one down. -/
def Bits (stimer sext v : Bool) : Prop := stimer = v ∧ (v = false → sext = false)

/-- Accesses of `interrupt::set` that bring the bits to the level `v`. -/
inductive Writes (outer : Bool) : List Instr → Bool → Bool → Bool → Prop where
  | done {stimer sext v : Bool} (bits : Bits stimer sext v) : Writes outer [] stimer sext v
  | set (v : Bool) : Writes outer [.set v] false false v
  | on : Writes outer [.setStimer, .setSext] false false true
  | onSext (sext : Bool) : Writes outer [.setSext] true sext true
  | off (sext : Bool) (was : outer = true) : Writes outer [.clearSext, .clearStimer] true sext false
  | offStimer (was : outer = true) : Writes outer [.clearStimer] true false false

/-- What follows these accesses, and the level that it needs. -/
inductive Next (base : Bool) (stack e : List Bracket) (before : Bool) :
    List Instr → Bool → Prop where
  | program {is : List Instr} (nested : run after stack is = some e)
      (entered : locks stack ≠ [] → before = entry base stack) :
      Next base stack e before is (level base stack)
  | testFree {is : List Instr} {l : Nat} (nested : run after stack (.acquire l :: is) = some e)
      (entered : before = entry base stack) :
      Next base stack e before (.testFree l (level base stack) :: is) false
  | assertFree {is : List Instr} {l : Nat} (nested : run after stack (.acquire l :: is) = some e)
      (entered : before = entry base stack) :
      Next base stack e before (.assertFree l (level base stack) :: is) false
  | disableAgain {is : List Instr} {l : Nat} (nested : run after stack (.acquire l :: is) = some e)
      (entered : before = entry base stack) :
      Next base stack e before (.disableAgain l :: is) (level base stack)
  | record {is : List Instr} {l : Nat} (nested : run after stack (.acquire l :: is) = some e)
      (entered : before = entry base stack) :
      Next base stack e before (.record l (level base stack) :: is) false
  | released {is : List Instr} {l : Nat} (nested : run after stack is = some e)
      (entered : before = entry base stack) :
      Next base stack e before (.released l :: is) (level base stack)
  | bind {is : List Instr} (nested : run after stack (.disable :: is) = some e)
      (entered : locks stack ≠ [] → before = entry base stack) :
      Next base stack e before (.bind (level base stack) :: is) false

/-- A frame with these open brackets, at these bits, that ends with the brackets `e`. -/
structure Fits (base : Bool) (stack e : List Bracket) (stimer sext : Bool) (f : Frame) : Prop where
  code : ∃ ws v is, f.code = ws ++ is ∧ Writes (level base stack) ws stimer sext v ∧
    Next base stack e f.before is v
  olds : f.olds = olds base stack
  held : f.held = locks stack
  nodup : (locks stack).Nodup

/-- The access does not panic, and the frame fits again. -/
def Goes (base : Bool) (e : List Bracket) : Option (Except Panic (Hart × Frame)) → Prop
  | none => True
  | some (.error _) => False
  | some (.ok (h, f)) => ∃ stack, Fits base stack e h.stimer h.sext f ∧ h.cell = cells base stack

theorem Writes.toOff {outer stimer sext : Bool} (bits : Bits stimer sext outer) :
    Writes outer (writes stimer false) stimer sext false := by
  obtain ⟨rfl, sext_off⟩ := bits
  cases stimer with
  | false => exact .done ⟨rfl, fun _ => sext_off rfl⟩
  | true => exact .off sext rfl

theorem Writes.ofSet (outer v : Bool) : Writes outer (writes false v) false false v := by
  cases v with
  | false => exact .done ⟨rfl, fun _ => rfl⟩
  | true => exact .on

section Access

variable {h : Hart} {f : Frame} {i : Instr}

theorem acquire_notMem {l : Nat} {is : List Instr}
    (nested : run after stack (.acquire l :: is) = some e) :
    l ∉ locks stack ∧ run after (.lock l :: stack) is = some e := by
  obtain ⟨opened, first, rest⟩ := run_cons.mp nested
  rw [after] at first
  split at first
  · cases first
  · obtain rfl := Option.some.inj first
    exact ⟨‹_›, rest⟩

theorem program_goes (bits : Bits h.stimer h.sext (level base stack))
    (cell : h.cell = cells base stack)
    (nested : run after stack (i :: f.code) = some e)
    (entered : locks stack ≠ [] → f.before = entry base stack)
    (olds : f.olds = olds base stack) (held : f.held = locks stack) (nodup : (locks stack).Nodup) :
    Goes base e (i.exec h f) := by
  have same : h.stimer = level base stack := bits.1
  obtain ⟨stack', first, rest⟩ := run_cons.mp nested
  cases i with
  | acquire l =>
    refine ⟨stack, ⟨⟨writes h.stimer false, false, _, List.append_assoc .., .toOff bits, ?_⟩,
      olds, held, nodup⟩, cell⟩
    rw [same]
    refine .testFree nested ?_
    change (if f.held = [] then level base stack else f.before) = _
    by_cases outermost : locks stack = []
    · rw [held, if_pos outermost, entry_of_unlocked outermost]
    · rw [held, if_neg outermost]
      exact entered outermost
  | release l =>
    cases stack with
    | nil => cases first
    | cons b stack =>
      cases b with
      | masked => cases first
      | lock m =>
        rw [after] at first
        split at first
        · rename_i this
          subst this
          obtain rfl := Option.some.inj first
          have free : cells base stack m = none := cells_of_notMem (List.nodup_cons.mp nodup).1
          have off : h.stimer = false ∧ h.sext = false := ⟨same, bits.2 rfl⟩
          have value : h.cell m = some (level base stack) := by
            rw [cell, cells, Function.update_self]
          simp only [Instr.exec, value]
          refine ⟨stack, ⟨⟨[.set (level base stack)], level base stack, _, rfl, ?_,
            .released rest ?_⟩, olds, ?_,
            (List.nodup_cons.mp nodup).2⟩, ?_⟩
          · rw [off.1, off.2]
            exact .set _
          · exact entered (List.cons_ne_nil _ _)
          · change f.held.erase m = _
            rw [held, locks, List.erase_cons_head]
          · change Function.update h.cell m none = _
            rw [cell, cells, Function.update_idem, ← free, Function.update_eq_self]
        · cases first
  | disable =>
    refine ⟨stack, ⟨⟨writes h.stimer false, false, _, List.append_assoc .., .toOff bits, ?_⟩,
      olds, held, nodup⟩, cell⟩
    rw [same]
    exact .bind nested entered
  | restore =>
    cases stack with
    | nil => cases first
    | cons b stack =>
      cases b with
      | lock m => cases first
      | masked =>
        obtain rfl := Option.some.inj first
        have off : h.stimer = false ∧ h.sext = false := ⟨same, bits.2 rfl⟩
        simp only [Instr.exec, olds, Intr.olds]
        refine ⟨stack, ⟨⟨[.set (level base stack)], level base stack, f.code, rfl, ?_,
          .program rest ?_⟩, rfl, held,
          nodup⟩, cell⟩
        · rw [off.1, off.2]
          exact .set _
        · intro locked
          refine (entered locked).trans ?_
          rw [entry, if_neg locked]
  | switch => trivial
  | setSie =>
    obtain rfl := Option.some.inj first
    exact ⟨stack, ⟨⟨[], _, _, rfl, .done bits, .program rest entered⟩, olds, held, nodup⟩, cell⟩
  | work =>
    obtain rfl := Option.some.inj first
    exact ⟨stack, ⟨⟨[], _, _, rfl, .done bits, .program rest entered⟩, olds, held, nodup⟩, cell⟩
  | _ => cases first

/-- An access of `Intr::acquire` or `Intr::release`, or one of `let old = ..`. -/
theorem next_goes {before v : Bool} {is : List Instr} (next : Next base stack e before (i :: is) v)
    (bits : Bits h.stimer h.sext v) (cell : h.cell = cells base stack) (code : f.code = is)
    (same : f.before = before)
    (olds : f.olds = olds base stack) (held : f.held = locks stack) (nodup : (locks stack).Nodup) :
    Goes base e (i.exec h f) := by
  subst code same
  have off : v = false → h.stimer = false ∧ h.sext = false :=
    fun low => ⟨bits.1.trans low, bits.2 low⟩
  cases next with
  | program nested entered => exact program_goes bits cell nested entered olds held nodup
  | @testFree is l nested entered =>
    have free : cells base stack l = none := cells_of_notMem (acquire_notMem nested).1
    simp only [Instr.exec, cell, free]
    exact ⟨stack, ⟨⟨[], false, _, rfl, .done bits, .assertFree nested entered⟩,
      olds, held, nodup⟩, cell⟩
  | @assertFree is l nested entered =>
    have free : cells base stack l = none := cells_of_notMem (acquire_notMem nested).1
    simp only [Instr.exec, cell, free]
    refine ⟨stack, ⟨⟨[.set (level base stack)], _, _, rfl, ?_, .disableAgain nested entered⟩,
      olds, held, nodup⟩, cell⟩
    rw [(off rfl).1, (off rfl).2]
    exact .set _
  | disableAgain nested entered =>
    have now : h.stimer = level base stack := bits.1
    refine ⟨stack, ⟨⟨writes h.stimer false, false, _, List.append_assoc .., .toOff bits, ?_⟩,
      olds, held, nodup⟩, cell⟩
    rw [now]
    exact .record nested entered
  | record nested entered =>
    obtain ⟨free, rest⟩ := acquire_notMem nested
    refine ⟨.lock _ :: stack,
      ⟨⟨[], _, _, rfl, .done bits, .program rest fun _ => entered⟩, olds, ?_,
      List.nodup_cons.mpr ⟨free, nodup⟩⟩, ?_⟩
    · exact congrArg (List.cons _) held
    · change Function.update h.cell _ _ = _
      rw [cell, cells]
  | released nested entered =>
    exact ⟨stack, ⟨⟨[], _, _, rfl, .done bits, .program nested fun _ => entered⟩,
      olds, held, nodup⟩, cell⟩
  | bind nested entered =>
    obtain ⟨opened, first, rest⟩ := run_cons.mp nested
    obtain rfl := Option.some.inj first
    refine ⟨.masked :: stack, ⟨⟨[], _, _, rfl, .done bits, .program rest ?_⟩,
      ?_, held, nodup⟩, cell⟩
    · intro locked
      exact (entered locked).trans (if_neg locked).symm
    · exact congrArg (List.cons _) olds

/-- Every access goes well, also those of `interrupt::set`. -/
theorem Fits.goes (fits : Fits base stack e h.stimer h.sext { f with code := i :: f.code })
    (cell : h.cell = cells base stack) : Goes base e (i.exec h f) := by
  obtain ⟨stimer, sext, sie, cells⟩ := h
  obtain ⟨⟨ws, v, is, code, wrote, next⟩, olds, held, nodup⟩ := fits
  cases wrote with
  | done bits =>
    obtain rfl : i :: f.code = is := code
    exact next_goes next bits cell rfl rfl olds held nodup
  | set v =>
    obtain ⟨rfl, rfl⟩ := List.cons.inj code
    exact ⟨stack, ⟨⟨writes false v, v, _, rfl, .ofSet _ v, next⟩, olds, held, nodup⟩, cell⟩
  | on =>
    obtain ⟨rfl, rest⟩ := List.cons.inj code
    exact ⟨stack, ⟨⟨[.setSext], true, is, rest, .onSext false, next⟩, olds, held, nodup⟩, cell⟩
  | onSext sext =>
    obtain ⟨rfl, rest⟩ := List.cons.inj code
    exact ⟨stack, ⟨⟨[], true, is, rest, .done ⟨rfl, fun low => nomatch low⟩, next⟩,
      olds, held, nodup⟩, cell⟩
  | off sext was =>
    obtain ⟨rfl, rest⟩ := List.cons.inj code
    exact ⟨stack, ⟨⟨[.clearStimer], false, is, rest, .offStimer was, next⟩,
      olds, held, nodup⟩, cell⟩
  | offStimer was =>
    obtain ⟨rfl, rest⟩ := List.cons.inj code
    exact ⟨stack, ⟨⟨[], false, is, rest, .done ⟨rfl, fun _ => rfl⟩, next⟩, olds, held, nodup⟩, cell⟩

end Access

/-! ## What a state says -/

theorem Next.level_eq_true {before v : Bool} {is : List Instr}
    (next : Next base stack e before is v)
    (high : v = true) : level base stack = true := by
  cases next with
  | program | disableAgain | released => exact high
  | testFree | assertFree | record | bind => cases high

/-- While interrupts are off outside of a frame's innermost bracket, they are off. -/
theorem Fits.off {stimer sext : Bool} {f : Frame} (fits : Fits base stack e stimer sext f)
    (inside : level base stack = false) : stimer = false ∧ sext = false := by
  obtain ⟨ws, v, is, -, wrote, next⟩ := fits.code
  cases v with
  | true => exact nomatch inside.symm.trans (next.level_eq_true rfl)
  | false =>
    rw [inside] at wrote
    cases wrote with
    | done bits => exact ⟨bits.1, bits.2 rfl⟩
    | set => exact ⟨rfl, rfl⟩
    | off sext was => cases was
    | offStimer was => cases was

/-- Where a trap can be taken, and not between the two writes of `off()`, nothing is open, and
whatever the trap does to the second bit, the frame fits after it. -/
theorem Fits.interrupted {stimer sext : Bool} {f : Frame} (fits : Fits base stack e stimer sext f)
    (on : (stimer = true ∧ f.code.head? ≠ some .clearStimer) ∨ sext = true) :
    stimer = true ∧ base = true ∧ stack = [] ∧ ∀ sext, Fits true [] e true sext f := by
  obtain ⟨⟨ws, v, is, code, wrote, next⟩, olds, held, nodup⟩ := fits
  have outer : stimer = true ∧ level base stack = true ∧
    ∀ sext, Writes (level base stack) ws true sext v := by
    cases wrote with
    | done bits =>
      obtain rfl : v = true := by
        cases v with
        | true => rfl
        | false =>
          obtain ⟨high, -⟩ | high := on
          · exact bits.1.symm.trans high
          · exact (bits.2 rfl).symm.trans high
      exact ⟨bits.1, next.level_eq_true rfl, fun _ => .done ⟨rfl, fun low => nomatch low⟩⟩
    | set | on =>
      obtain ⟨high, -⟩ | high := on
      · cases high
      · cases high
    | onSext => exact ⟨rfl, next.level_eq_true rfl, fun sext => .onSext sext⟩
    | off _ was => exact ⟨rfl, was, fun sext => .off sext was⟩
    | offStimer was =>
      obtain ⟨-, apart⟩ | high := on
      · exact absurd (congrArg List.head? code) apart
      · cases high
  obtain ⟨high, inside, wrote⟩ := outer
  obtain ⟨rfl, rfl⟩ := level_eq_true inside
  exact ⟨high, rfl, rfl, fun sext => ⟨⟨ws, v, is, code, wrote sext, next⟩, olds, held, nodup⟩⟩

/-- What a frame does next, if its next instruction is none of `interrupt::set`. -/
theorem Fits.next {stimer sext : Bool} {f : Frame} (fits : Fits base stack e stimer sext f)
    (boundary : ∀ ws v, Writes (level base stack) ws stimer sext v →
      ∀ i ∈ ws, f.code.head? ≠ some i) :
    ∃ v, Bits stimer sext v ∧ Next base stack e f.before f.code v := by
  obtain ⟨⟨ws, v, is, code, wrote, next⟩, -⟩ := fits
  cases ws with
  | nil =>
    cases wrote with
    | done bits => exact ⟨v, bits, code ▸ next⟩
  | cons i ws => exact absurd (congrArg List.head? code) (boundary _ v wrote i List.mem_cons_self)

theorem Writes.noProgram {outer stimer sext v : Bool} {ws : List Instr}
    (wrote : Writes outer ws stimer sext v) :
    ∀ i ∈ ws, i ≠ .switch ∧ ∀ l, i ≠ .released l := by
  intro i mem
  cases wrote with
  | done => cases mem
  | _ =>
    simp only [List.mem_cons, List.not_mem_nil, or_false] at mem
    grind

theorem Fits.ended {stimer sext : Bool} {f : Frame} (fits : Fits base stack e stimer sext f)
    (empty : f.code = []) :
    stack = e ∧ stimer = level base stack := by
  obtain ⟨v, bits, next⟩ := fits.next fun ws v wrote i mem => by
    rw [empty]
    exact nofun
  rw [empty] at next
  cases next with
  | program nested => exact ⟨Option.some.inj nested, bits.1⟩

/-- A frame that is about to switch holds no lock, with interrupts off. -/
theorem Fits.switches {stimer sext : Bool} {is : List Instr} {olds : List Bool}
    {held : List Nat} {before : Bool}
    (fits : Fits base stack e stimer sext ⟨.switch :: is, olds, held, before⟩) :
    locks stack = [] ∧ stimer = false ∧ sext = false ∧
      Fits base stack e false false ⟨is, olds, held, before⟩ := by
  obtain ⟨v, bits, next⟩ := fits.next fun ws v wrote i mem here =>
    (wrote.noProgram i mem).1 (Option.some.inj here).symm
  cases next with
  | program nested entered =>
    obtain ⟨stack', first, rest⟩ := run_cons.mp nested
    rw [after] at first
    split at first
    · rename_i closed
      obtain rfl := Option.some.inj first
      obtain ⟨b, outer, rfl⟩ := List.exists_cons_of_ne_nil closed.1
      refine ⟨closed.2, bits.1, bits.2 rfl, ?_, fits.olds, fits.held, fits.nodup⟩
      exact ⟨[], _, is, rfl, .done ⟨rfl, fun _ => rfl⟩, .program rest entered⟩
    · cases first

/-! ## Threads -/

/-- Frames below a trap's can go on with interrupts enabled. -/
def Paused : List Frame → Prop
  | [] => True
  | f :: fs => (∃ e, (fs ≠ [] → e = []) ∧ ∀ sext, Fits true [] e true sext f) ∧ Paused fs

/-- The frames of a thread that goes on at these bits. -/
inductive Ready (base : Bool) (stack : List Bracket) (stimer sext : Bool) : List Frame → Prop where
  | mk {f : Frame} {fs : List Frame} {e : List Bracket} (fits : Fits base stack e stimer sext f)
      (ends : fs ≠ [] → base = true ∧ e = []) (paused : Paused fs) :
      Ready base stack stimer sext (f :: fs)

namespace System

variable {s t : System}

/-- Only the current thread holds locks, and every other one waits behind its `switch`. -/
structure Inv (s : System) : Prop where
  current : ∃ base stack, Ready base stack s.hart.stimer s.hart.sext (s.threads s.current) ∧
    s.hart.cell = cells base stack
  others : ∀ t, t ≠ s.current → ∃ base stack, Ready base stack false false
    (s.threads t) ∧ locks stack = []

theorem put_current (s : System) (fs : List Frame) : (s.put fs).threads s.current = fs :=
  Function.update_self ..

theorem Inv.put_others (inv : s.Inv) (fs : List Frame) : ∀ t, t ≠ s.current →
    ∃ base stack, Ready base stack false false ((s.put fs).threads t) ∧ locks stack = [] := by
  intro t away
  have same : (s.put fs).threads t = s.threads t := Function.update_of_ne away ..
  rw [same]
  exact inv.others t away

theorem Inv.exec (inv : s.Inv) {r : Except Panic System} (ran : s.exec = some r) :
    ∃ t, r = .ok t ∧ t.Inv := by
  obtain ⟨base, stack, ready, cell⟩ := inv.current
  rw [System.exec] at ran
  generalize s.threads s.current = fs at ready ran
  cases ready with
  | mk fits ends paused =>
    rename_i f fs e
    obtain ⟨code, olds, held, before⟩ := f
    cases code with
    | nil =>
      obtain ⟨rfl, on⟩ := fits.ended rfl
      cases fs with
      | nil => cases ran
      | cons g gs =>
        obtain ⟨rfl, rfl⟩ := ends (List.cons_ne_nil _ _)
        obtain ⟨⟨e, closes, fits⟩, paused⟩ := paused
        obtain rfl := Option.some.inj ran
        refine ⟨_, rfl, ⟨true, [], ?_, cell⟩, inv.put_others _⟩
        change Ready true [] s.hart.stimer s.hart.sext ((s.put (g :: gs)).threads s.current)
        rw [put_current, on]
        exact .mk (fits s.hart.sext) (fun more => ⟨rfl, closes more⟩) paused
    | cons i is =>
      have goes := Fits.goes (f := ⟨is, olds, held, before⟩) fits cell
      simp only at ran
      split at ran
      · cases ran
      · rename_i failed
        rw [failed] at goes
        exact goes.elim
      · rename_i h f fine
        rw [fine] at goes
        obtain ⟨stack, fits, cell⟩ := goes
        obtain rfl := Option.some.inj ran
        refine ⟨_, rfl, ⟨base, stack, ?_, cell⟩, inv.put_others _⟩
        change Ready base stack h.stimer h.sext ((s.put (f :: fs)).threads s.current)
        rw [put_current]
        exact .mk fits ends paused

theorem Inv.trap (inv : s.Inv)
    (on : (s.hart.stimer = true ∧ s.next ≠ some .clearStimer) ∨ s.hart.sext = true)
    (handler : Handler) : (s.trap handler).Inv := by
  obtain ⟨base, stack, ready, cell⟩ := inv.current
  rw [next] at on
  refine ⟨?_, inv.put_others _⟩
  change ∃ base stack, Ready base stack s.hart.stimer s.hart.sext
    ((s.put (⟨handler, [], [], false⟩ :: s.threads s.current)).threads s.current) ∧
    s.hart.cell = cells base stack
  rw [put_current]
  generalize s.threads s.current = fs at ready on
  cases ready with
  | mk fits ends paused =>
    obtain ⟨high, rfl, rfl, resumes⟩ := fits.interrupted on
    refine ⟨true, [], .mk ⟨⟨[], true, _, rfl, ?_, ?_⟩, rfl, rfl, List.nodup_nil⟩
      (fun _ => ⟨rfl, rfl⟩) ?_, cell⟩
    · exact .done ⟨high, fun low => nomatch low⟩
    · exact .program handler.2 fun locked => absurd rfl locked
    · exact ⟨⟨_, fun more => (ends more).2, resumes⟩, paused⟩

theorem Inv.switch (inv : s.Inv) {next : Tid}
    (stepped : s.step (.switch next) = some t) : t.Inv := by
  obtain ⟨base, stack, ready, cell⟩ := inv.current
  rw [System.step] at stepped
  split at stepped
  · rename_i is olds held before fs here
    obtain rfl := Option.some.inj stepped
    rw [here] at ready
    cases ready with
    | mk fits ends paused =>
      obtain ⟨none, low, low', resumes⟩ := fits.switches
      have left : Ready base stack false false
        ((s.put (⟨is, olds, held, before⟩ :: fs)).threads s.current) := by
        rw [put_current]
        exact .mk resumes ends paused
      refine ⟨?_, ?_⟩
      · change ∃ base stack, Ready base stack s.hart.stimer s.hart.sext
          ((s.put (⟨is, olds, held, before⟩ :: fs)).threads next) ∧ s.hart.cell = cells base stack
        rw [low, low', cell, cells_of_unlocked none]
        by_cases away : next = s.current
        · exact ⟨base, stack, away ▸ left, (cells_of_unlocked none).symm⟩
        · obtain ⟨base', stack', waiting, none'⟩ :=
            inv.put_others (⟨is, olds, held, before⟩ :: fs) next away
          exact ⟨base', stack', waiting, (cells_of_unlocked none').symm⟩
      · intro u _
        by_cases here : u = s.current
        · exact ⟨base, stack, here ▸ left, none⟩
        · exact inv.put_others _ u here
  · cases stepped

theorem Inv.step (inv : s.Inv) {e : Event} (apart : s.Apart e)
    (stepped : s.step e = some t) : t.Inv := by
  cases e with
  | exec =>
    rw [System.step] at stepped
    split at stepped
    · rename_i ran
      obtain rfl := Option.some.inj stepped
      obtain ⟨u, same, kept⟩ := inv.exec ran
      obtain rfl := Except.ok.inj same
      exact kept
    · cases stepped
  | timer handler =>
    rw [System.step] at stepped
    split at stepped
    · rename_i enabled
      obtain rfl := Option.some.inj stepped
      exact inv.trap (.inl ⟨(Bool.and_eq_true_iff.mp enabled).2, apart⟩) handler
    · cases stepped
  | external handler =>
    rw [System.step] at stepped
    split at stepped
    · rename_i enabled
      obtain rfl := Option.some.inj stepped
      exact inv.trap (.inr (Bool.and_eq_true_iff.mp enabled).2) handler
    · cases stepped
  | switch next => exact inv.switch stepped

theorem start_inv (level sie : Bool) (current : Tid) (tail : Tid → Tail) (main : Tid → Program) :
    (start level sie current tail main).Inv := by
  refine ⟨⟨level, [], ?_, rfl⟩, ?_⟩
  · obtain ⟨e, nested⟩ := Option.isSome_iff_exists.mp (main current).2
    change Ready level [] level level (if current = current then _ else _)
    rw [if_pos rfl]
    refine .mk (e := e) ⟨⟨[], level, _, rfl, .done ⟨rfl, id⟩, ?_⟩, rfl, rfl,
      List.nodup_nil⟩ (absurd rfl) trivial
    exact .program nested (absurd rfl)
  · intro t (away : t ≠ current)
    obtain ⟨e, nested⟩ := Option.isSome_iff_exists.mp (main t).2
    refine ⟨true, [.masked], ?_, rfl⟩
    change Ready true [.masked] false false (if t = current then _ else _)
    rw [if_neg away]
    refine .mk (e := e) ⟨⟨[], false, _, rfl, .done ⟨rfl, fun _ => rfl⟩, ?_⟩, rfl, rfl,
      List.nodup_nil⟩ (absurd rfl) trivial
    exact .program (run_append.mpr ⟨[.masked], (tail t).2, run_cons.mpr ⟨[], rfl, nested⟩⟩)
      (absurd rfl)

/-- Interrupt locks nest, if no timer interrupt strikes between the two writes of `off()`: while a
lock is held, interrupts are off; nothing panics; and where the outermost `release` returns, the
level is the one that the outermost `acquire` found. -/
theorem locks_nest {level sie : Bool} {current : Tid} {tail : Tid → Tail}
    {main : Tid → Program} {es : List Event}
    (ran : run step (start level sie current tail main) es = some s)
    (apart : Guarded step Apart (start level sie current tail main) es) :
    ((∃ l, s.hart.cell l ≠ none) → s.hart.stimer = false ∧ s.hart.sext = false) ∧
      s.panics = none ∧
      ∀ f fs l is, s.threads s.current = f :: fs → f.code = .released l :: is → f.held = [] →
        s.hart.stimer = f.before ∧ (f.before = false → s.hart.sext = false) := by
  have inv : s.Inv := guarded_run_invariant (I := Inv)
    (fun _ _ _ here apart stepped => here.step apart stepped)
    (start_inv level sie current tail main) apart ran
  refine ⟨?_, ?_, ?_⟩
  · rintro ⟨l, taken⟩
    obtain ⟨base, stack, ready, cell⟩ := inv.current
    generalize s.threads s.current = fs at ready
    cases ready with
    | mk fits =>
      refine fits.off ?_
      cases stack with
      | nil => exact absurd (congrFun cell l) taken
      | cons b stack => rfl
  · rw [panics]
    split
    · rename_i failed
      obtain ⟨t, same, -⟩ := inv.exec failed
      cases same
    · rfl
  · intro f fs l is here code free
    obtain ⟨base, stack, ready, cell⟩ := inv.current
    rw [here] at ready
    cases ready with
    | mk fits =>
      obtain ⟨v, bits, next⟩ := fits.next fun ws v wrote i mem same =>
        (wrote.noProgram i mem).2 l (Option.some.inj (same.symm.trans (congrArg List.head? code)))
      rw [code] at next
      cases next with
      | program nested =>
        obtain ⟨stack', first, rest⟩ := run_cons.mp nested
        cases first
      | released nested entered =>
        rw [entered, entry_of_unlocked (fits.held.symm.trans free)]
        exact bits

/-- `tick` with an empty sleep queue, whose lock is the second one, and `schedule`. -/
def timerHandler : Handler :=
  ⟨[.disable, .acquire 1, .release 1, .restore, .setSie, .disable, .acquire 0, .release 0,
    .switch, .restore], by decide⟩

/-- `handle_interrupt` with a thread that waits for the disk: `up` registers it. -/
def externalHandler : Handler := ⟨[.disable, .acquire 0, .release 0, .restore], by decide⟩

/-- The first thread registers another one, with the lock of the scheduler. -/
def registering : System :=
  start true true 0 (fun _ => ⟨[], rfl⟩) fun _ => ⟨[.acquire 0, .release 0], by decide⟩

/-- A timer interrupt between the two halves of `acquire`, and then the section up to the return
of `release`. -/
def inWindow : List Event :=
  List.replicate 8 .exec ++ [.timer timerHandler] ++ List.replicate 31 .exec ++ [.switch 0] ++
    List.replicate 13 .exec

theorem locks_nest_in_window :
    ∃ s f fs, run step registering inWindow = some s ∧ s.threads s.current = f :: fs ∧
      s.hart.stimer = f.before := by
  have computed : ((run step registering inWindow).any fun s =>
      decide (s.threads s.current = [⟨[.released 0], [], [], true⟩])) = true := by decide +kernel
  obtain ⟨s, ran, facts⟩ := (Option.any_eq_true _ _).mp computed
  have here := of_decide_eq_true facts
  exact ⟨s, _, _, ran, here, ((locks_nest ran (by decide +kernel)).2.2 _ _ _ _ here rfl rfl).1⟩

/-- A timer interrupt between the two writes of `off()`, and an external one while the lock is
held. -/
def inOff : List Event :=
  List.replicate 10 .exec ++ [.timer timerHandler] ++ List.replicate 31 .exec ++ [.switch 0] ++
    List.replicate 7 .exec ++
    [.external externalHandler] ++ List.replicate 3 .exec

theorem off_interrupted : ∃ s, run step registering inOff = some s ∧
    s.hart.cell 0 = some true ∧ s.hart.sext = true ∧ s.panics = some (.taken 0) := by
  have computed : ((run step registering inOff).any fun s =>
      decide (s.hart.cell 0 = some true ∧ s.hart.sext = true ∧ s.panics = some (.taken 0))) =
        true := by decide +kernel
  obtain ⟨s, ran, facts⟩ := (Option.any_eq_true _ _).mp computed
  exact ⟨s, ran, of_decide_eq_true facts⟩

end System

end Tacos.Thread.Intr
