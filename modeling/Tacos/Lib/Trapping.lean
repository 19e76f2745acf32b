/- GID: Tacos/Lib/Trapping
   generality: G
   source: none
   digest: Runs of a hart in which traps nest, and how straight code goes through them. -/

import Mathlib.Logic.Relation
import Tacos.Lib.Riscv

set_option autoImplicit false
set_option relaxedAutoImplicit false

namespace Tacos.Lib.Riscv

/-- The code that is listed, what memory may be accessed, and what the code that is not listed
does, one call at a time. -/
structure Platform where
  code : Word → Option Instr
  mmu : Mmu
  calls : Hart → Hart → Prop

/-- A trap that the hart may take. -/
inductive Taken (p : Platform) (h : Hart) : Cause → Word → Prop where
  | timer : h.interruptible = true → Taken p h .timer 0
  | external : h.interruptible = true → Taken p h .external 0
  | fault {i : Instr} {c : Cause} {v : Word} : p.code h.pc = some i →
      exec p.mmu h i = .fault c v → Taken p h c v

/-- An instruction, a call of code that is not listed, or a trap and all that comes before its
`sret`, which is `L`. -/
inductive Link (p : Platform) (L : Hart → Hart → Prop) : Hart → Hart → Prop where
  | exec {h k : Hart} {i : Instr} : p.code h.pc = some i → i ≠ .sret →
      exec p.mmu h i = .next k → Link p L h k
  | call {h k : Hart} : p.code h.pc = none → p.calls h k → Link p L h k
  | trap {h k : Hart} {c : Cause} {v : Word} : Taken p h c v → L (h.trap c v) k → Link p L h k

def Goes (p : Platform) (L : Hart → Hart → Prop) : Hart → Hart → Prop :=
  Relation.ReflTransGen (Link p L)

/-- All that comes up to a trap's `sret`, with traps in it that are nested less than so deep. -/
def Level (p : Platform) : Nat → Hart → Hart → Prop
  | 0, _, _ => False
  | d + 1, h, k => ∃ z, Goes p (Level p d) h z ∧ p.code z.pc = some .sret ∧
    exec p.mmu z .sret = .next k

/-- The instructions stand one after another from an address on. -/
def Placed (code : Word → Option Instr) : Word → List Instr → Prop
  | _, [] => True
  | a, i :: is => code a = some i ∧ Placed code (a + 4) is

variable {p : Platform} {L : Hart → Hart → Prop} {h k z : Hart} {i : Instr}
    {is js : List Instr} {a : Word}

theorem Placed.append : Placed p.code a (is ++ js) ↔
    Placed p.code a is ∧ Placed p.code (a + BitVec.ofNat 64 (4 * is.length)) js := by
  induction is generalizing a with
  | nil => simp [Placed]
  | cons i is ih =>
    rw [List.cons_append, Placed, Placed, ih, pc_succ, List.length_cons, and_assoc]

theorem placed_iff : Placed p.code a is ↔ ∀ n (_ : n < is.length),
    p.code (a + BitVec.ofNat 64 (4 * n)) = is[n]? := by
  induction is generalizing a with
  | nil => simp [Placed]
  | cons i is ih =>
    rw [Placed, ih]
    constructor
    · rintro ⟨first, rest⟩ n small
      cases n with
      | zero =>
        rw [Nat.mul_zero, BitVec.add_zero]
        exact first
      | succ n =>
        rw [← pc_succ]
        exact rest n (Nat.lt_of_succ_lt_succ small)
    · intro all
      refine ⟨?_, ?_⟩
      · have first := all 0 (Nat.succ_pos _)
        rwa [Nat.mul_zero, BitVec.add_zero] at first
      · intro n small
        rw [pc_succ]
        exact all (n + 1) (Nat.succ_lt_succ small)

theorem Level.sepc {d : Nat} (level : Level p d h k) : k.sepc = k.pc := by
  cases d with
  | zero => exact level.elim
  | succ d =>
    obtain ⟨z, -, -, done⟩ := level
    obtain rfl := (privileged_next done).2
    rfl

/-- No interrupt that is taken here returns. -/
def Calm (L : Hart → Hart → Prop) (h : Hart) : Prop :=
  h.interruptible = true → ∀ c k, c = .timer ∨ c = .external → ¬L (h.trap c 0) k

theorem Calm.of_masked (masked : h.interruptible = false) : Calm L h := by
  intro unmasked
  rw [masked] at unmasked
  cases unmasked

namespace Goes

/-- Where no interrupt is taken, an instruction that does not fault is carried out. -/
theorem next (goes : Goes p L h z) (away : z.pc ≠ h.pc)
    (here : p.code h.pc = some i) (calm : Calm L h)
    (done : exec p.mmu h i = .next k) : Goes p L k z := by
  obtain rfl | ⟨m, link, rest⟩ := Relation.ReflTransGen.cases_head goes
  · exact absurd rfl away
  cases link with
  | exec here' _ done' =>
    obtain rfl := Option.some.inj (here.symm.trans here')
    obtain rfl := Effect.next.inj (done.symm.trans done')
    exact rest
  | call none _ =>
    rw [here] at none
    cases none
  | trap taken level =>
    cases taken with
    | timer unmasked => exact absurd level (calm unmasked _ _ (.inl rfl))
    | external unmasked => exact absurd level (calm unmasked _ _ (.inr rfl))
    | fault here' faults =>
      obtain rfl := Option.some.inj (here.symm.trans here')
      rw [done] at faults
      cases faults

/-- Where no interrupt is taken, straight instructions that do not fault are carried out one after
another. -/
theorem line (goes : Goes p L h z) (placed : Placed p.code h.pc is)
    (away : ∀ i ∈ is, p.code z.pc ≠ some i)
    (straight : ∀ i ∈ is, i.straight = true)
    (calm : ∀ g n, n < is.length → g.pc = h.pc + BitVec.ofNat 64 (4 * n) →
      g.interruptible = h.interruptible → Calm L g)
    (done : execs p.mmu h is = some k) : Goes p L k z := by
  induction is generalizing h with
  | nil =>
    cases done
    exact goes
  | cons i is ih =>
    obtain ⟨here, rest⟩ := placed
    rw [execs] at done
    cases first : exec p.mmu h i with
    | next m =>
      rw [first] at done
      obtain ⟨pc, same⟩ := exec_straight (straight i List.mem_cons_self) first
      have apart : z.pc ≠ h.pc := fun same => away i List.mem_cons_self (same ▸ here)
      have now : Calm L h := calm h 0 (Nat.succ_pos _) (BitVec.add_zero _).symm rfl
      refine ih (goes.next apart here now first) (pc ▸ rest)
        (fun j hj => away j (List.mem_cons_of_mem i hj))
        (fun j hj => straight j (List.mem_cons_of_mem i hj)) ?_ done
      intro g n small at_ open_
      refine calm g (n + 1) (Nat.succ_lt_succ small) ?_ (open_.trans same)
      rw [at_, pc, pc_succ]
    | fault c v =>
      rw [first] at done
      cases done

theorem called (goes : Goes p L h z) (away : z.pc ≠ h.pc)
    (none : p.code h.pc = none) (calm : Calm L h) :
    ∃ k, p.calls h k ∧ Goes p L k z := by
  obtain rfl | ⟨m, link, rest⟩ := Relation.ReflTransGen.cases_head goes
  · exact absurd rfl away
  cases link with
  | exec here _ _ =>
    rw [none] at here
    cases here
  | call _ calls => exact ⟨m, calls, rest⟩
  | trap taken level =>
    cases taken with
    | timer unmasked => exact absurd level (calm unmasked _ _ (.inl rfl))
    | external unmasked => exact absurd level (calm unmasked _ _ (.inr rfl))
    | fault here _ =>
      rw [none] at here
      cases here

/-- Where no interrupt is taken, a run to a `sret` goes no further than there. -/
theorem stops (goes : Goes p L h z) (here : p.code h.pc = some .sret)
    (mode : h.mode = .supervisor) (calm : Calm L h) :
    z = h := by
  obtain rfl | ⟨m, link, -⟩ := Relation.ReflTransGen.cases_head goes
  · rfl
  cases link with
  | exec here' ne _ =>
    rw [here] at here'
    exact absurd (Option.some.inj here').symm ne
  | call none _ =>
    rw [here] at none
    cases none
  | trap taken level =>
    cases taken with
    | timer unmasked => exact absurd level (calm unmasked _ _ (.inl rfl))
    | external unmasked => exact absurd level (calm unmasked _ _ (.inr rfl))
    | fault here' faults =>
      rw [here] at here'
      obtain rfl := Option.some.inj here'
      rw [exec, privileged_of mode] at faults
      cases faults

/-- Straight instructions that do not fault may be carried out one after another. -/
theorem of_execs (placed : Placed p.code h.pc is) (straight : ∀ i ∈ is, i.straight = true)
    (done : execs p.mmu h is = some k) : Goes p L h k := by
  induction is generalizing h with
  | nil =>
    cases done
    exact .refl
  | cons i is ih =>
    obtain ⟨here, rest⟩ := placed
    rw [execs] at done
    cases first : exec p.mmu h i with
    | next m =>
      rw [first] at done
      obtain ⟨pc, -⟩ := exec_straight (straight i List.mem_cons_self) first
      have ne : i ≠ .sret := by
        rintro rfl
        cases straight .sret List.mem_cons_self
      exact .head (.exec here ne first) (ih (pc ▸ rest)
        (fun j hj => straight j (List.mem_cons_of_mem i hj)) done)
    | fault c v =>
      rw [first] at done
      cases done

/-- Where interrupts may come first, they leave what every interrupt leaves, and then the
instruction is carried out or faults. -/
theorem departs {Same : Hart → Prop} (goes : Goes p L h z) (start : Same h)
    (here : ∀ k, Same k → p.code k.pc = some i)
    (away : ¬Same z) (interrupts : ∀ k c m, Same k → c = .timer ∨ c = .external →
      L (k.trap c 0) m → Same m) :
    ∃ k m, Same k ∧ (exec p.mmu k i = .next m ∨ ∃ c v,
      exec p.mmu k i = .fault c v ∧ L (k.trap c v) m) ∧
      Goes p L h m ∧ Goes p L m z := by
  induction goes using Relation.ReflTransGen.head_induction_on with
  | refl => exact absurd start away
  | head link rest ih =>
    rename_i k m
    have whole := link
    cases link with
    | exec here' _ done =>
      obtain rfl := Option.some.inj ((here k start).symm.trans here')
      exact ⟨k, m, start, .inl done, .single whole, rest⟩
    | call none _ =>
      rw [here k start] at none
      cases none
    | trap taken level =>
      cases taken with
      | timer _ =>
        obtain ⟨g, n, same, how, before, after⟩ := ih (interrupts k _ m start (.inl rfl) level)
        exact ⟨g, n, same, how, .head whole before, after⟩
      | external _ =>
        obtain ⟨g, n, same, how, before, after⟩ := ih (interrupts k _ m start (.inr rfl) level)
        exact ⟨g, n, same, how, .head whole before, after⟩
      | fault here' faults =>
        obtain rfl := Option.some.inj ((here k start).symm.trans here')
        exact ⟨k, m, start, .inr ⟨_, _, faults, level⟩, .single whole, rest⟩

end Goes

end Tacos.Lib.Riscv
