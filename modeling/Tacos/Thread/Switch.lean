/- GID: Tacos/Thread/Switch
   generality: I
   source: src/thread/switch.rs, src/thread/imp.rs
   digest: Every thread that is switched to goes on with the registers that it was switched from
     with. -/

import Tacos.Trap.Traps

set_option autoImplicit false
set_option relaxedAutoImplicit false

namespace Tacos.Thread.Switch

open Tacos.Lib.Bytes Tacos.Lib.Riscv Tacos.Trap

/-- `s0` to `s11`. -/
def sReg (i : Fin 12) : Reg :=
  ⟨if i.val < 2 then 8 + i else 16 + i, by have := i.isLt; split <;> omega⟩

/-- A thread's running status when it switches to another thread. -/
structure Context where
  ra : Word
  sp : Word
  s : Fin 12 → Word

def stackSize : Nat := 4096 * 4

/-- The context of a thread that has not run; `start` is where `kernel_thread_entry` is. -/
def Context.new (start stack entry : Word) : Context where
  ra := start
  sp := stack + BitVec.ofNat 64 stackSize
  s i := if i = 0 then entry else 0

def contextOf (x : Reg → Word) : Context := ⟨x Lib.Riscv.ra, x Lib.Riscv.sp, fun i => x (sReg i)⟩

def contextAt (m : Mem) (a : Nat) : Context := ⟨word m a 0, word m a 1, fun i => word m a (2 + i)⟩

def contextRegs : List (Reg × Nat) :=
  (Lib.Riscv.ra, 0) :: (Lib.Riscv.sp, 1) :: (List.finRange 12).map fun i => (sReg i, 2 + i.val)

def contextLen : Nat := 14 * 8

/-- `switch`: `sd ra, 0x0(a1)`, `ld ra, 0x0(a2)` up to `ld s11, 0x68(a2)`. -/
def switch : List Lib.Riscv.Instr := contextRegs.flatMap
    fun q => [.sd q.1 (slot q.2) a1, .ld q.1 (slot q.2) a2]

/-- `kernel_thread_entry`. -/
def kernelThreadEntry (kernelThread : Word) : List Lib.Riscv.Instr :=
  [.mv a0 (sReg 0), .j kernelThread]

theorem mem_contextRegs {q : Reg × Nat} : q ∈ contextRegs ↔
    q = (Lib.Riscv.ra, 0) ∨ q = (Lib.Riscv.sp, 1) ∨ ∃ i, q = (sReg i, 2 + i.val) := by
  simp [contextRegs, eq_comm]

variable {mmu : Mmu} {h k : Hart} {old new : Nat}

/-- Two contexts that share no memory. -/
def Apart (a b : Nat) : Prop := a + contextLen ≤ b ∨ b + contextLen ≤ a

/-- Memory that a context may be in. -/
structure Mapped (mmu : Mmu) (a : Nat) : Prop where
  small : a + contextLen ≤ 2 ^ 64
  mapped : ∀ kind, ∀ n < contextLen, mmu kind .supervisor (a + n) = true

/-- What `switch` does: the registers go to the old context and come from the new one, and the
first argument is passed on. -/
structure Switched (old new : Nat) (h k : Hart) : Prop where
  saved : contextAt k.mem old = contextOf h.x
  loaded : contextOf k.x = contextAt h.mem new
  others : ∀ r ∉ contextRegs.map Prod.fst, k.x r = h.x r
  mode : k.mode = h.mode
  mem : ∀ a, (a < old ∨ old + contextLen ≤ a) → k.mem a = h.mem a

theorem switched (mode : h.mode = .supervisor) (from_ : (h.get a1).toNat = old)
    (to_ : (h.get a2).toNat = new)
    (here : Mapped mmu old) (there : Mapped mmu new) (apart : Apart old new) :
    ∃ k, execs mmu h switch = some k ∧ Switched old new h k := by
  obtain ⟨pc, x, m, done, saved, loaded, kept, -, outside⟩ :=
    execs_swaps 14 from_ here.small contextRegs to_
    there.small apart (by rw [mode]; exact here.mapped .write)
    (by rw [mode]; exact there.mapped .read) (by decide)
    (by decide) (by decide) (by decide) (by decide)
  have first := mem_contextRegs.mpr (.inl rfl)
  have second := mem_contextRegs.mpr (.inr (.inl rfl))
  have rest : ∀ i, (sReg i, 2 + i.val) ∈ contextRegs :=
    fun i => mem_contextRegs.mpr (.inr (.inr ⟨i, rfl⟩))
  have nonzero : ∀ i, sReg i ≠ 0 := by decide
  refine ⟨_, done, ⟨?_, ?_, kept, rfl, outside⟩⟩
  · rw [contextAt, contextOf, Hart.put_mem, saved _ first, saved _ second]
    refine congrArg₂ (fun a f => Context.mk (h.x Lib.Riscv.ra) a f) rfl (funext fun i => ?_)
    exact (saved _ (rest i)).trans (reg_of_ne (nonzero i))
  · rw [contextAt, contextOf, Hart.put_x, loaded _ first, loaded _ second]
    exact congrArg _ (funext fun i => loaded _ (rest i))

/-- A hart that runs one thread after another: which one now, where the contexts of the threads
are, and what each of the others was last switched from with or made with. -/
structure Cpu where
  hart : Hart
  current : Nat
  context : Nat → Option Nat
  left : Nat → Context

/-- The memory of the contexts of the threads that do not run. -/
def Cpu.parked (s : Cpu) : Set Nat :=
  {x | ∃ t a, t ≠ s.current ∧ s.context t = some a ∧ a ≤ x ∧ x < a + contextLen}

/-- The running thread calls `switch` with its context and that of another, and comes out of it. -/
structure Switching (mmu : Mmu) (s : Cpu) (t : Nat) (k : Hart) : Prop where
  other : t ≠ s.current
  old : s.context s.current = some (s.hart.get a1).toNat
  new : s.context t = some (s.hart.get a2).toNat
  done : execs mmu s.hart switch = some k

/-- After the switch, the other thread runs. -/
def Cpu.switched (s : Cpu) (t : Nat) (k : Hart) : Cpu :=
  { s with hart := k, current := t, left := Function.update s.left s.current (contextOf s.hart.x) }

/-- The running thread does anything but touch the contexts of the others, makes a thread, lets go
of one, or switches. -/
inductive Step (mmu : Mmu) (start : Word) : Cpu → Cpu → Prop where
  | runs {s : Cpu} {k : Hart} : k.mode = .supervisor → (∀ x ∈ s.parked, k.mem x = s.hart.mem x) →
      Step mmu start s { s with hart := k }
  | creates {s : Cpu} {k : Hart} {t a : Nat} {stack entry : Word} :
      s.context t = none → Mapped mmu a →
      (∀ u b, s.context u = some b → Apart a b) → k.mode = .supervisor →
      (∀ x ∈ s.parked, k.mem x = s.hart.mem x) →
      contextAt k.mem a = .new start stack entry →
      Step mmu start s { s with
        hart := k
        context := Function.update s.context t (some a)
        left := Function.update s.left t (.new start stack entry) }
  | frees {s : Cpu} {t : Nat} : t ≠ s.current →
      Step mmu start s { s with context := Function.update s.context t none }
  | switches {s : Cpu} {k : Hart} {t : Nat} : Switching mmu s t k →
      Step mmu start s (s.switched t k)

/-- Contexts share no memory, and those of threads that do not run are as the threads were left. -/
structure Kept (mmu : Mmu) (s : Cpu) : Prop where
  mode : s.hart.mode = .supervisor
  mapped : ∀ t a, s.context t = some a → Mapped mmu a
  apart : ∀ t u a b, t ≠ u → s.context t = some a → s.context u = some b → Apart a b
  left : ∀ t a, t ≠ s.current → s.context t = some a → contextAt s.hart.mem a = s.left t

variable {start : Word} {s s' : Cpu} {t : Nat}

theorem contextAt_congr {m m' : Mem} {a : Nat}
    (same : ∀ x, a ≤ x → x < a + contextLen → m x = m' x) :
    contextAt m a = contextAt m' a := by
  have words : ∀ n < 14, word m a n = word m' a n := by
    intro n small
    rw [contextLen] at same
    exact word_congr fun x low high => same x (by omega) (by omega)
  rw [contextAt, contextAt, words 0 (by decide), words 1 (by decide)]
  exact congrArg _ (funext fun i => words _ (by have := i.isLt; omega))

theorem Kept.stays (kept : Kept mmu s) {m : Mem}
    (same : ∀ x ∈ s.parked, m x = s.hart.mem x) {a : Nat}
    (other : t ≠ s.current) (here : s.context t = some a) : contextAt m a = s.left t :=
  (contextAt_congr fun x low high => same x ⟨t, a, other, here, low, high⟩).trans
    (kept.left t a other here)

theorem Kept.switching (kept : Kept mmu s) (other : t ≠ s.current)
    (old : s.context s.current = some (s.hart.get a1).toNat)
    (new : s.context t = some (s.hart.get a2).toNat) :
    ∃ k, Switching mmu s t k ∧ Switched (s.hart.get a1).toNat (s.hart.get a2).toNat s.hart k := by
  obtain ⟨k, done, switched⟩ := switched kept.mode rfl rfl
    (kept.mapped _ _ old) (kept.mapped _ _ new)
    (kept.apart _ _ _ _ other.symm old new)
  exact ⟨k, ⟨other, old, new, done⟩, switched⟩

theorem Kept.step (kept : Kept mmu s) (step : Step mmu start s s') : Kept mmu s' := by
  cases step with
  | runs mode same =>
    exact ⟨mode, kept.mapped, kept.apart, fun t a other here => kept.stays same other here⟩
  | frees other =>
    rename_i t
    have live : ∀ u a, Function.update s.context t none u = some a → s.context u = some a := by
      intro u a here
      by_cases mine : u = t
      · rw [mine, Function.update_self] at here
        cases here
      · rwa [Function.update_of_ne mine] at here
    exact ⟨kept.mode, fun u a here => kept.mapped u a (live u a here),
      fun u v a b ne here there => kept.apart u v a b ne (live u a here) (live v b there),
      fun u a ne here => kept.left u a ne (live u a here)⟩
  | creates fresh mapped apart mode same made =>
    rename_i k t a stack entry
    have cases_ : ∀ u b, Function.update s.context t (some a) u = some b →
        u = t ∧ b = a ∨ u ≠ t ∧ s.context u = some b := by
      intro u b here
      by_cases mine : u = t
      · rw [mine, Function.update_self] at here
        exact .inl ⟨mine, (Option.some.inj here).symm⟩
      · rw [Function.update_of_ne mine] at here
        exact .inr ⟨mine, here⟩
    refine ⟨mode, ?_, ?_, ?_⟩
    · intro u b here
      obtain ⟨-, rfl⟩ | ⟨-, here⟩ := cases_ u b here
      · exact mapped
      · exact kept.mapped u b here
    · intro u v b c ne here there
      obtain ⟨rfl, rfl⟩ | ⟨-, here'⟩ := cases_ u b here
      · obtain ⟨rfl, -⟩ | ⟨-, there'⟩ := cases_ v c there
        · exact absurd rfl ne
        · exact apart v c there'
      · obtain ⟨-, rfl⟩ | ⟨-, there'⟩ := cases_ v c there
        · exact (apart u b here').symm
        · exact kept.apart u v b c ne here' there'
    · intro u b ne here
      change contextAt k.mem b = Function.update s.left t _ u
      obtain ⟨rfl, rfl⟩ | ⟨other, here'⟩ := cases_ u b here
      · rw [Function.update_self]
        exact made
      · rw [Function.update_of_ne other]
        exact kept.stays same ne here'
  | switches switching =>
    rename_i k t
    obtain ⟨other, old, new, done⟩ := switching
    obtain ⟨k', switching', switched⟩ := kept.switching other old new
    obtain rfl := Option.some.inj (done.symm.trans switching'.done)
    refine ⟨switched.mode.trans kept.mode, kept.mapped, kept.apart, ?_⟩
    intro u c ne at_
    change contextAt k.mem c = Function.update s.left s.current _ u
    change s.context u = some c at at_
    by_cases last : u = s.current
    · subst last
      obtain rfl := Option.some.inj (old.symm.trans at_)
      rw [Function.update_self]
      exact switched.saved
    · rw [Function.update_of_ne last]
      refine (contextAt_congr fun x low high => switched.mem x ?_).trans (kept.left u c last at_)
      have apart := kept.apart u s.current c _ last at_ old
      rw [Apart] at apart
      omega

theorem Kept.steps (kept : Kept mmu s) (steps : Relation.ReflTransGen (Step mmu start) s s') :
    Kept mmu s' := by
  induction steps with
  | refl => exact kept
  | tail _ step ih => exact ih.step step

/-- A step in which a thread does not run and keeps its context. -/
def Waits (mmu : Mmu) (start : Word) (t : Nat) (s s' : Cpu) : Prop :=
  Step mmu start s s' ∧ s.current ≠ t ∧ s'.context t = s.context t

theorem left_waits {a : Nat} (steps : Relation.ReflTransGen (Waits mmu start t) s s')
    (here : s.context t = some a) :
    s'.left t = s.left t ∧ s'.context t = some a := by
  induction steps with
  | refl => exact ⟨rfl, here⟩
  | tail _ link ih =>
    obtain ⟨same, here⟩ := ih
    obtain ⟨step, away, kept⟩ := link
    refine ⟨?_, kept.trans here⟩
    rw [← same]
    cases step with
    | runs _ _ => rfl
    | frees _ => rfl
    | creates fresh _ _ _ _ _ =>
      rename_i u _ _ _ _ _ _ _ _
      have ne : t ≠ u := by
        rintro rfl
        rw [fresh] at here
        cases here
      exact Function.update_of_ne ne ..
    | switches _ => exact Function.update_of_ne away.symm ..

theorem Waits.steps (steps : Relation.ReflTransGen (Waits mmu start t) s s') :
    Relation.ReflTransGen (Step mmu start) s s' :=
  Relation.ReflTransGen.mono (fun _ _ waits => waits.1) _ _ steps

/-- What a switch gives the thread that goes on, and leaves of the rest. -/
structure Resumes (c : Context) (h k : Hart) : Prop where
  context : contextOf k.x = c
  others : ∀ r ∉ contextRegs.map Prod.fst, k.x r = h.x r

theorem Kept.resumes (kept : Kept mmu s) (other : t ≠ s.current)
    (old : s.context s.current = some (s.hart.get a1).toNat)
    (new : s.context t = some (s.hart.get a2).toNat) : ∃ k, Switching mmu s t k ∧
      Resumes (s.left t) s.hart k := by
  obtain ⟨k, switching, switched⟩ := kept.switching other old new
  exact ⟨k, switching, switched.loaded.trans (kept.left t _ other new), switched.others⟩

/-- Whatever other threads do in between, a thread that is switched to goes on with the stack, the
return address and the callee-saved registers that it called `switch` with; and a new thread comes
to `kernel_thread` with its entry, on its own stack. The other registers are passed on, and no
switch faults. -/
theorem schedule_resumes {s₀ s₁ s₂ : Cpu} (kept : Kept mmu s₀)
    (before : Relation.ReflTransGen (Step mmu start) s₀ s₁) :
    (∀ u g t, t = s₁.current → Switching mmu s₁ u g →
      Relation.ReflTransGen (Waits mmu start t) (s₁.switched u g) s₂ →
      t ≠ s₂.current → s₂.context s₂.current = some (s₂.hart.get a1).toNat →
        s₂.context t = some (s₂.hart.get a2).toNat →
      ∃ k, Switching mmu s₂ t k ∧ Resumes (contextOf s₁.hart.x) s₂.hart k) ∧
    ∀ t a stack entry, s₁.context t = some a → s₁.left t = .new start stack entry →
      Relation.ReflTransGen (Waits mmu start t) s₁ s₂ → t ≠ s₂.current →
      s₂.context s₂.current = some (s₂.hart.get a1).toNat →
        s₂.context t = some (s₂.hart.get a2).toNat →
      ∃ k, Switching mmu s₂ t k ∧ Resumes (.new start stack entry) s₂.hart k ∧
        ∀ g kernelThread, contextOf g.x = contextOf k.x →
          ∃ g', execs mmu g (kernelThreadEntry kernelThread) = some g' ∧
          g'.pc = kernelThread ∧ g'.get a0 = entry ∧ g'.get Lib.Riscv.sp =
            stack + BitVec.ofNat 64 stackSize := by
  have kept₁ := kept.steps before
  constructor
  · rintro u g t rfl out away ne old new
    have left := left_waits away out.old
    have step : Step mmu start s₁ (s₁.switched u g) := .switches out
    have kept₂ := (kept₁.step step).steps (Waits.steps away)
    obtain ⟨k, switching, resumes⟩ := kept₂.resumes ne old new
    refine ⟨k, switching, ?_⟩
    rw [left.1] at resumes
    change Resumes (Function.update s₁.left s₁.current _ s₁.current) s₂.hart k at resumes
    rwa [Function.update_self] at resumes
  · intro t a stack entry here made away ne old new
    obtain ⟨k, switching, resumes⟩ := (kept₁.steps (Waits.steps away)).resumes ne old new
    rw [(left_waits away here).1, made] at resumes
    refine ⟨k, switching, resumes, ?_⟩
    intro g kernelThread same
    have regs := same.trans resumes.context
    have first : g.x (sReg 0) = entry := congrFun (congrArg Context.s regs) 0
    have stack' : g.x Lib.Riscv.sp = stack + BitVec.ofNat 64 stackSize := congrArg Context.sp regs
    refine ⟨_, (execs_next exec_mv).trans rfl, rfl, ?_, ?_⟩
    · refine (reg_update_self (by decide)).trans ?_
      exact (reg_of_ne (by decide)).trans first
    · refine (reg_update_of_ne (by decide)).trans ?_
      exact (reg_of_ne (by decide)).trans stack'

/-- Memory with the context of a thread that has not run. -/
def loneMem : Mem :=
  storeLE (storeLE (storeLE (fun _ => 0) (0x200 + 8 * 2) 8 (0x3000 : Word).toNat)
    (0x200 + 8 * 1) 8 ((0x8000 : Word) + BitVec.ofNat 64 stackSize).toNat)
    (0x200 + 8 * 0) 8 (0x5000 : Word).toNat

theorem contextAt_loneMem : contextAt loneMem 0x200 = .new 0x5000 0x8000 0x3000 := by
  have first : word loneMem 0x200 0 = 0x5000 := word_store
  have second : word loneMem 0x200 1 = 0x8000 + BitVec.ofNat 64 stackSize :=
    (word_store_of_ne (by decide)).trans word_store
  have third : word loneMem 0x200 2 = 0x3000 :=
    (word_store_of_ne (by decide)).trans ((word_store_of_ne (by decide)).trans word_store)
  have rest : ∀ n, 2 < n → word loneMem 0x200 n = 0 := by
    intro n far
    rw [loneMem, word_store_of_ne (by omega), word_store_of_ne (by omega),
      word_store_of_ne (by omega)]
    simp [word, loadLE]
  rw [contextAt, Context.new, first, second, Context.mk.injEq]
  refine ⟨rfl, rfl, funext fun i => ?_⟩
  by_cases zero : i = 0
  · subst zero
    exact third
  · rw [if_neg zero]
    refine rest _ ?_
    have ne : i.val ≠ 0 := fun same => zero (Fin.ext same)
    omega

/-- A thread that is about to switch to one that has not run. -/
def loneCpu : Cpu where
  hart := { loneHart .supervisor 0 with
    x := fun r => if r = a1 then 0x100 else if r = a2 then 0x200 else BitVec.ofNat 64 (0x1000 + r)
    mem := loneMem }
  current := 0
  context t := if t = 0 then some 0x100 else if t = 1 then some 0x200 else none
  left _ := .new 0x5000 0x8000 0x3000

/-- The other thread has run, and is about to switch back. -/
def Cpu.back (s : Cpu) (g : Hart) : Cpu :=
  { s.switched 1 g with
    hart := { g with x := Function.update (Function.update g.x a1 0x200) a2 0x100 } }

theorem kept_loneCpu : Kept (fun _ _ _ => true) loneCpu := by
  have places : ∀ t a, loneCpu.context t = some a → t = 0 ∧ a = 0x100 ∨ t = 1 ∧ a = 0x200 := by
    intro t a here
    simp only [loneCpu] at here
    split at here
    · rename_i first
      exact .inl ⟨first, (Option.some.inj here).symm⟩
    · split at here
      · rename_i second
        exact .inr ⟨second, (Option.some.inj here).symm⟩
      · cases here
  refine ⟨rfl, ?_, ?_, ?_⟩
  · intro t a here
    obtain ⟨-, rfl⟩ | ⟨-, rfl⟩ := places t a here
    · exact ⟨by decide, fun _ _ _ => rfl⟩
    · exact ⟨by decide, fun _ _ _ => rfl⟩
  · intro t u a b ne here there
    obtain ⟨rfl, rfl⟩ | ⟨rfl, rfl⟩ := places t a here
    · obtain ⟨rfl, rfl⟩ | ⟨rfl, rfl⟩ := places u b there
      · exact absurd rfl ne
      · exact .inl (by decide)
    · obtain ⟨rfl, rfl⟩ | ⟨rfl, rfl⟩ := places u b there
      · exact .inr (by decide)
      · exact absurd rfl ne
  · intro t a other here
    obtain ⟨rfl, -⟩ | ⟨-, rfl⟩ := places t a here
    · exact absurd rfl other
    · exact contextAt_loneMem

/-- The other thread comes to its entry, and the first one goes on with its registers after it. -/
theorem loneCpu_resumes : ∃ g k, Switching (fun _ _ _ => true) loneCpu 1 g ∧
    Resumes (.new 0x5000 0x8000 0x3000) loneCpu.hart g ∧
    Switching (fun _ _ _ => true) (loneCpu.back g) 0 k ∧
    ∀ i, k.x (sReg i) = BitVec.ofNat 64 (0x1000 + sReg i) := by
  have before : Relation.ReflTransGen (Step (fun _ _ _ => true) 0x5000) loneCpu loneCpu := .refl
  obtain ⟨g, away, resumes, -⟩ := (schedule_resumes kept_loneCpu before).2
    1 0x200 0x8000 0x3000 rfl rfl .refl (by decide) rfl rfl
  have mode : g.mode = .supervisor := by
    obtain ⟨k, switching, switched⟩ := kept_loneCpu.switching away.other away.old away.new
    obtain rfl := Option.some.inj (away.done.symm.trans switching.done)
    exact switched.mode
  have ran : Waits (fun _ _ _ => true) 0x5000 0 (loneCpu.switched 1 g) (loneCpu.back g) :=
    ⟨.runs mode fun _ _ => rfl, Nat.one_ne_zero, rfl⟩
  obtain ⟨k, back, again⟩ := (schedule_resumes kept_loneCpu before).1 1 g 0 rfl away
    (.single ran) Nat.zero_ne_one rfl rfl
  have others : ∀ i, sReg i ≠ a1 ∧ sReg i ≠ a2 := by decide
  refine ⟨g, k, away, resumes, back, fun i => ?_⟩
  have same : k.x (sReg i) = loneCpu.hart.x (sReg i) :=
    congrFun (congrArg Context.s again.context) i
  rw [same]
  exact (if_neg (others i).1).trans (if_neg (others i).2)

end Tacos.Thread.Switch
