/- GID: Tacos/Trap/User
   generality: I
   source: src/trap.rs, src/trap/pagefault.rs, src/trap/syscall.rs
   digest: A user program under the kernel runs as it does alone, with a system call for one more
     instruction. -/

import Tacos.Trap.Traps

set_option autoImplicit false
set_option relaxedAutoImplicit false

namespace Tacos.Trap

open Tacos.Lib.Bytes Tacos.Lib.Riscv

variable {l : Labels} {st : Stack} {p : Platform} {h k g z : Hart} {d : Nat} {c : Cause}
    {v : Word} {f f' : Frame}

/-- A user program by itself: its instructions, and a system call that is one more of them. -/
inductive Alone (p : Platform) : Hart → Hart → Prop where
  | exec {h k : Hart} {i : Instr} : p.code h.pc = some i → exec p.mmu h i = .next k → Alone p h k
  | ecall {h : Hart} : p.code h.pc = some .ecall → Alone p h (h.writes a0 (-1))

/-- The hart is in user mode, ready for traps that nest so deep. -/
structure Userland (l : Labels) (st : Stack) (d : Nat) (scratch : Word) (h : Hart) : Prop where
  mode : h.mode = .user
  stvec : h.stvec = l.trapEntryU
  sscratch : h.sscratch = scratch
  room : st.Room d scratch

/-- User mode may only access what the thread has to itself, and what is not listed runs as the
kernel. -/
structure Fenced (st : Stack) (p : Platform) : Prop where
  own : ∀ kind a, p.mmu kind .user a = true → a ∈ st.others
  listed : ∀ h k, p.calls h k → h.mode = .supervisor

/-- The handler returns to user mode from interrupts, with the frame as it was, and from system
calls. -/
theorem trapHandler_user {id : Nat} (user : spp f.sstatus = .user)
    (served : trapHandler l id c f = .returns f') :
    (c = .timer ∨ c = .external) ∧ f' = f ∨
      c = .userEcall ∧ f' = { f with sepc := f.sepc + 4, x := Function.update f.x a0 (-1) } := by
  have dies : pagefaultHandler l f ≠ .returns f' := by
    rw [pagefaultHandler, user]
    intro returned
    cases returned
  cases c with
  | timer => exact .inl ⟨.inl rfl, trapHandler_interrupt (.inl rfl) served⟩
  | external => exact .inl ⟨.inr rfl, trapHandler_interrupt (.inr rfl) served⟩
  | userEcall =>
    cases served
    exact .inr ⟨rfl, rfl⟩
  | loadFault => exact absurd served dies
  | storeFault => exact absurd served dies
  | fetchFault => exact absurd served dies
  | other code => cases served

/-- A trap that has returned to user mode was an interrupt, which is not seen, or a system call. -/
theorem user_trap (serves : Serves l st p) {w : Word} (ready : Userland l st (d + 1) w h)
    (level : Level p (d + 1) (h.trap c v) k) : Userland l st (d + 1) w k ∧
      ((c = .timer ∨ c = .external) ∧ Agree st.others h k ∨ c = .userEcall ∧
        Agree st.others (h.writes a0 (-1)) k) := by
  obtain ⟨user, stvec, scratch, room⟩ := ready
  obtain ⟨f, f', answered, user_sp, stack, scratch', vec⟩ :=
    answeredU serves (quiet_level serves d) stvec (scratch.symm ▸ room) level
  obtain ⟨holds, ⟨id, served⟩, x, pc, mode, status, sie, mem⟩ := answered
  have from_ : spp f.sstatus = .user := by
    rw [holds.sstatus]
    exact (spp_entered _ _).trans user
  have all : ∀ r ≠ 0, k.x r = f'.x r := by
    intro r nonzero
    by_cases here : r = sp
    · rw [here]
      exact (reg_of_ne (by decide)).symm.trans stack
    · exact x r nonzero here
  have came : ∀ r ≠ 0, f.x r = h.x r := by
    intro r nonzero
    by_cases here : r = sp
    · rw [here]
      exact user_sp.trans (reg_of_ne (by decide))
    · exact holds.x r nonzero here
  refine ⟨⟨mode.trans user, vec, scratch'.trans scratch, room⟩, ?_⟩
  obtain ⟨interrupt, rfl⟩ | ⟨rfl, rfl⟩ := trapHandler_user from_ served
  · refine .inl ⟨interrupt, fun r nonzero => (all r nonzero).trans (came r nonzero),
      pc.trans holds.sepc, mode, ?_⟩
    exact fun a mine => mem a (.inl mine)
  · refine .inr ⟨rfl, fun r nonzero => ?_, pc.trans (congrArg (· + 4) holds.sepc), mode,
      fun a mine => mem a (.inl mine)⟩
    rw [all r nonzero]
    change Function.update f.x a0 (-1) r = _
    by_cases here : r = a0
    · rw [here, Function.update_self]
      exact (h.writes_self ..).symm
    · rw [Function.update_of_ne here, Hart.writes_of_ne _ _ here]
      exact came r nonzero

/-- A step of the program by itself is the same wherever the program sees the same. -/
theorem Alone.agree (alone : Alone p h z) (user : h.mode = .user) (fenced : Fenced st p)
    (agree : Agree st.others h k) :
    ∃ z', Alone p k z' ∧ Agree st.others z z' := by
  cases alone with
  | exec here done =>
    obtain ⟨z', done', agree'⟩ := agree.exec user (by rw [user]; exact fenced.own) done
    exact ⟨z', .exec (agree.pc ▸ here) done', agree'⟩
  | ecall here => exact ⟨_, .ecall (agree.pc ▸ here), agree.writes ..⟩

theorem Alone.user (alone : Alone p h k) (user : h.mode = .user) : k.mode = .user := by
  cases alone with
  | exec _ done => exact (exec_user user done).1
  | ecall _ => exact user

theorem Userland.exec {w : Word} {i : Instr} (ready : Userland l st d w h)
    (done : Lib.Riscv.exec p.mmu h i = .next k) :
    Userland l st d w k := by
  obtain ⟨mode, scratch, vec, -, -⟩ := exec_user ready.mode done
  exact ⟨mode, vec.trans ready.stvec, scratch.trans ready.sscratch, ready.room⟩

/-- A step under the kernel is one of the program by itself, or none. -/
theorem user_link (serves : Serves l st p) (fenced : Fenced st p) {w : Word}
    (ready : Userland l st (d + 1) w h)
    (link : Link p (Level p (d + 1)) h k) : Userland l st (d + 1) w k ∧
      (Agree st.others h k ∨ ∃ z, Alone p h z ∧ Agree st.others z k) := by
  cases link with
  | exec here _ done => exact ⟨ready.exec done, .inr ⟨k, .exec here done, .refl k⟩⟩
  | call _ calls =>
    have mode := fenced.listed h k calls
    rw [ready.mode] at mode
    cases mode
  | trap taken level =>
    obtain ⟨ready', seen⟩ := user_trap serves ready level
    refine ⟨ready', ?_⟩
    obtain ⟨-, same⟩ | ⟨rfl, called⟩ := seen
    · exact .inl same
    cases taken with
    | fault here faults =>
      obtain ⟨-, rfl⟩ | c | c | ⟨_, c⟩ := exec_fault ready.mode faults
      · exact .inr ⟨_, .ecall here, called⟩
      · cases c
      · cases c
      · cases c

/-- A user program on the kernel sees what it sees when it is by itself: at every point of a run
with interrupts and system calls it has come as far as some run by itself, and is ready for the
next trap; and when system calls are answered, it can come as far as any. -/
theorem user_runs (serves : Serves l st p) (fenced : Fenced st p) {w : Word}
    (ready : Userland l st (d + 1) w h) :
    (∀ k, Goes p (Level p (d + 1)) h k → Userland l st (d + 1) w k ∧
      ∃ z, Relation.ReflTransGen (Alone p) h z ∧ Agree st.others z k) ∧
    (Answers l p → ∀ z, Relation.ReflTransGen (Alone p) h z →
      ∃ k, Goes p (Level p (d + 1)) h k ∧ Userland l st (d + 1) w k ∧ Agree st.others z k) := by
  constructor
  · intro k goes
    induction goes with
    | refl => exact ⟨ready, h, .refl, .refl h⟩
    | tail _ link ih =>
      obtain ⟨ready', z, alone, agree⟩ := ih
      obtain ⟨ready'', same | ⟨g, step, far⟩⟩ := user_link serves fenced ready' link
      · exact ⟨ready'', z, alone, agree.trans same⟩
      · obtain ⟨g', step', near⟩ := step.agree ready'.mode fenced agree.symm
        exact ⟨ready'', g', alone.tail step', near.symm.trans far⟩
  · intro answers z alone
    induction alone with
    | refl => exact ⟨h, .refl, ready, .refl h⟩
    | tail before step ih =>
      rename_i m n
      obtain ⟨k, goes, ready', agree⟩ := ih
      obtain ⟨n', step', near⟩ := step.agree (agree.mode ▸ ready'.mode) fenced agree
      cases step' with
      | exec here done =>
        exact ⟨n', goes.tail (.exec here (exec_user ready'.mode done).2.2.2.2 done),
          ready'.exec done, near⟩
      | ecall here =>
        have faults : Lib.Riscv.exec p.mmu k .ecall = .fault .userEcall 0 := by
          rw [Lib.Riscv.exec, if_pos ready'.mode]
        obtain ⟨back, level⟩ := returnsU (c := .userEcall) (v := 0) (d := d) serves answers
          (fun _ _ => ⟨0, _, rfl⟩) ready'.stvec (ready'.sscratch.symm ▸ ready'.room)
        obtain ⟨ready'', seen⟩ := user_trap serves ready' level
        obtain ⟨c | c, -⟩ | ⟨-, called⟩ := seen
        · cases c
        · cases c
        · exact ⟨back, goes.tail (.trap (.fault here faults) level), ready'', near.trans called⟩

/-- A program that makes one system call after another, with room for two frames. -/
theorem lone_runs :
    (∀ k, Goes lone (Level lone 2) (loneHart .user 0x10000) k →
      Userland loneLabels loneStack 2 0x9000 k ∧
      ∃ z, Relation.ReflTransGen (Alone lone) (loneHart .user 0x10000) z ∧
        Agree loneStack.others z k) ∧
    ∀ z, Relation.ReflTransGen (Alone lone) (loneHart .user 0x10000) z →
      ∃ k, Goes lone (Level lone 2) (loneHart .user 0x10000) k ∧
        Userland loneLabels loneStack 2 0x9000 k ∧
        Agree loneStack.others z k := by
  have fenced : Fenced loneStack lone := by
    refine ⟨fun _ a yes => ?_, fun _ _ called => called.2.1⟩
    exact (of_decide_eq_true yes : 0xB000 ≤ a ∧ a < 0xC000)
  have runs := user_runs (d := 1) serves_lone fenced (h := loneHart .user 0x10000) (w := 0x9000)
    ⟨rfl, rfl, rfl, by decide, by decide⟩
  exact ⟨runs.1, runs.2 (answers_of_code rfl)⟩

end Tacos.Trap
