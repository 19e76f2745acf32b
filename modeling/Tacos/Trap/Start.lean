/- GID: Tacos/Trap/Start
   generality: I
   source: src/trap.rs, src/userproc.rs
   digest: A user process starts where it should unless a trap comes between the write of `sepc`
     and `sret`. -/

import Tacos.Trap.Traps

set_option autoImplicit false
set_option relaxedAutoImplicit false

namespace Tacos.Trap

open Tacos.Lib.Bytes Tacos.Lib.Riscv

variable {l : Labels} {st : Stack} {p : Platform} {h k g z : Hart} {d : Nat} {c : Cause}
    {L : Hart → Hart → Prop}

/-- The code of `trap_exit_u` from where it has written `sepc`, up to its `sret`. -/
def Labels.window (l : Labels) (n : Nat) :
    Word := l.afterCallU + 4 + 4 + 4 + 4 + 4 + BitVec.ofNat 64 (4 * n)

/-- Traps that do not come in there. -/
def Outside (l : Labels) (L : Hart → Hart → Prop) (h k : Hart) : Prop :=
  L h k ∧ ∀ n ≤ (exitCodeU l).length, h.sepc ≠ l.window n

theorem Same.restored {b : Nat} (same : Same st k g) (restored : Restored l st b h k)
    (base : (h.get sp).toNat = b) :
    Restored l st b h g :=
  ⟨same.mode.trans restored.mode, same.stvec.trans restored.stvec, (same.get sp).trans restored.sp,
    (same.get t1).trans restored.sepc, same.sie.trans restored.sie,
    fun a mine => (same.mem a (by rwa [restored.sp, base])).trans (restored.mem a mine)⟩

/-- A process that has been started: in user mode with the registers of its frame, ready for its
first trap. -/
structure Started (l : Labels) (st : Stack) (f : Frame) (b : Word) (h k : Hart) : Prop where
  mode : k.mode = .user
  pc : k.pc = f.sepc
  x : ∀ r ≠ 0, k.x r = f.x r
  sscratch : k.sscratch = b + BitVec.ofNat 64 frameLen
  stvec : k.stvec = l.trapEntryU
  mem : ∀ a ∈ st.above b.toNat, k.mem a = h.mem a

theorem starts (serves : Serves l st p) (ready : Open l st d h)
    (high : (h.get sp).toNat + frameLen ≤ st.top)
    (start : h.pc = l.afterCallU) (user : spp (frameAt h.mem (h.get sp).toNat).sstatus = .user)
    (goes : Goes p (Outside l (Level p d)) h z) (ends : p.code z.pc = some .sret) :
    Started l st (frameAt h.mem (h.get sp).toNat) (h.get sp) h z.sret := by
  have quiet : Quiet l st d (Outside l (Level p d)) :=
    fun h c v k mode stvec room interrupt level =>
    quiet_level serves d h c v k mode stvec room interrupt level.1
  obtain ⟨k, goes, restored, status, mine, at_⟩ :=
    restoredU serves.usable quiet ends ready rfl high serves goes start
  obtain ⟨-, -, ⟨-, -, -, -, exit, -⟩, -⟩ := serves.user_pieces
  have here : p.code k.pc = some (.csrw .sepc t1) := by
    rw [at_]
    exact exit
  have ready' : Open l st d k := ⟨restored.mode, restored.stvec, restored.sp.symm ▸ ready.room⟩
  obtain ⟨g, m, same, done, goes⟩ := opened quiet goes ready' here (away_of ends here nofun)
    fun g same => ⟨_, exec_csrw (same.mode.trans restored.mode)⟩
  have restored' := same.restored restored rfl
  obtain rfl := Effect.next.inj (done.symm.trans (exec_csrw restored'.mode))
  have low : st.base ≤ (h.get sp).toNat := by
    have := ready.room.low
    omega
  -- Interrupts may be enabled from here on, but none comes.
  obtain ⟨resumed, stack, scratch, vec⟩ :=
    exitedU serves ends rfl low high restored' ((same.get t2).trans mine)
    (same.pc.trans at_) goes fun g' n small at_' _ _ c m _ level => level.2 n small (by
      change g'.pc = _
      rw [at_', same.pc, at_]
      rfl)
  have mode : z.sret.mode = .user := resumed.mode.trans (same.spp (status ▸ user))
  refine ⟨mode, resumed.pc, ?_, scratch, vec, resumed.mem⟩
  intro r nonzero
  by_cases other : r = sp
  · rw [other]
    exact (reg_of_ne (by decide)).symm.trans stack
  · exact resumed.x r nonzero other

/-- The window and the `sret` after it. -/
def Labels.ending (l : Labels) : List Instr := exitCodeU l ++ [.sret]

/-- Up to a `sret` with no more traps, `sepc` stays. -/
theorem keeps_sepc (serves : Serves l st p) {n : Nat} (small : n ≤ (exitCodeU l).length)
    (start : h.pc = l.window n)
    (goes : Goes p (fun _ _ => False) h z) : z.sepc = h.sepc := by
  obtain ⟨-, -, -, placed⟩ := serves.user_pieces
  have here : ∀ n < l.ending.length, p.code (l.window n) = l.ending[n]? := placed_iff.mp placed
  have len : l.ending.length = (exitCodeU l).length + 1 := by
    rw [Labels.ending, List.length_append, List.length_singleton]
  have keeps : ∀ i ∈ l.ending, i ≠ .sret → i.straight = true ∧ (∀ r, i ≠ .csrw .sepc r) ∧
    ∀ r q, i ≠ .csrrw r .sepc q := by
    intro i hi ne
    rw [Labels.ending] at hi
    have mem : i ∈ exitCodeU l := (List.mem_append.mp hi).resolve_right
      fun last => ne (List.mem_singleton.mp last)
    refine ⟨straight_exitU i mem, ?_, ?_⟩
    · rintro r rfl
      simp [exitCodeU, loads] at mem
    · rintro r q rfl
      simp [exitCodeU, loads] at mem
  suffices inside : z.sepc = h.sepc ∧ ∃ n < l.ending.length, z.pc = l.window n from inside.1
  induction goes with
  | refl => exact ⟨rfl, n, by omega, start⟩
  | tail _ link ih =>
    obtain ⟨same, n, small, at_⟩ := ih
    have there := here n small
    rw [List.getElem?_eq_getElem small, ← at_] at there
    cases link with
    | trap _ level => exact level.elim
    | call none _ =>
      rw [none] at there
      cases there
    | exec here' ne done =>
      obtain rfl := Option.some.inj (here'.symm.trans there)
      obtain ⟨straight, write, swap⟩ := keeps _ (List.getElem_mem small) ne
      have next : n + 1 < l.ending.length := by
        by_contra last
        obtain rfl : n = l.ending.length - 1 := by omega
        refine ne ?_
        simp [Labels.ending]
      refine ⟨(exec_sepc write swap done).trans same, n + 1, next, ?_⟩
      rw [(exec_straight straight done).1, at_, Labels.window, Labels.window,
        BitVec.add_assoc _ _ 4, Nat.mul_succ,
        BitVec.ofNat_add]
      rfl

/-- A user process can start, and starts at its entry with the registers of its frame whenever no
trap comes between the write of `sepc` and `sret`, whatever interrupts come before. -/
theorem user_starts (serves : Serves l st p) (ready : Open l st d h)
    (high : (h.get sp).toNat + frameLen ≤ st.top)
    (start : h.pc = l.afterCallU) (user : spp (frameAt h.mem (h.get sp).toNat).sstatus = .user) :
    (∃ z, Goes p (Outside l (Level p d)) h z ∧ p.code z.pc = some .sret) ∧
      ∀ z, Goes p (Outside l (Level p d)) h z → p.code z.pc = some .sret →
        Started l st (frameAt h.mem (h.get sp).toNat) (h.get sp) h z.sret := by
  have low : st.base ≤ (h.get sp).toNat := by
    have := ready.room.low
    omega
  constructor
  · obtain ⟨k, loads, pc, mode, stack, -⟩ :=
      reloadsU (L := Outside l (Level p d)) serves ready.mode low high start
    obtain ⟨z, exits, sret, -⟩ := exitsU (L := Outside l (Level p d)) serves mode
      (stack.symm ▸ low) (stack.symm ▸ high) pc
    exact ⟨z, loads.trans exits, sret⟩
  · intro z goes ends
    exact starts serves ready high start user goes ends

/-- A process with interrupts enabled in its frame. -/
def loneStart : Hart :=
  { loneHart .supervisor loneLabels.afterCallU with
    mem := storeLE (fun _ => 0) (0x9000 + 8 * 32) 8 (2 : Word).toNat }

theorem loneStart_sstatus : (frameAt loneStart.mem (loneStart.get sp).toNat).sstatus = 2 :=
  word_store (v := 2)

theorem lone_starts : (∃ z, Goes lone (Outside loneLabels (Level lone 2)) loneStart z ∧
    lone.code z.pc = some .sret) ∧
    ∀ z, Goes lone (Outside loneLabels (Level lone 2)) loneStart z → lone.code z.pc = some .sret →
      Started loneLabels loneStack (frameAt loneStart.mem 0x9000) 0x9000 loneStart z.sret :=
  user_starts serves_lone ⟨rfl, rfl, by decide, by decide⟩ (by decide) rfl
    (by rw [loneStart_sstatus]; decide)

/-- An interrupt that comes in between, before `stvec` is written, and is the last, makes the
process start at the address of the kernel that was interrupted. -/
theorem misplaced (serves : Serves l st p) {n : Nat} (small : n < 3) (start : h.pc = l.window n)
    (ready : Open l st d h)
    (interrupt : c = .timer ∨ c = .external) (level : Level p d (h.trap c 0) k)
    (goes : Goes p (fun _ _ => False) k z) :
    z.sret.pc = l.window n := by
  have same := quiet_level serves d h c 0 k ready.mode ready.stvec ready.room interrupt level
  have at_ : k.pc = l.window n := same.pc.trans start
  have long : n ≤ (exitCodeU l).length := Nat.le_trans (Nat.le_of_lt small) (Nat.le_add_left 3 32)
  exact (keeps_sepc serves long at_ goes).trans (level.sepc.trans at_)

/-- `start` leaves interrupts enabled, so every process may be started in user mode at an address
of the kernel. -/
theorem user_misplaced (serves : Serves l st p) (answers : Answers l p)
    (ready : Open l st (d + 1) h)
    (high : (h.get sp).toNat + frameLen ≤ st.top) (start : h.pc = l.afterCallU)
    (user : spp (frameAt h.mem (h.get sp).toNat).sstatus = .user)
    (enabled : (frameAt h.mem (h.get sp).toNat).sstatus.getLsbD sieBit = true)
    (sie : h.sie = true) :
    ∃ z, Goes p (Level p (d + 1)) h z ∧ p.code z.pc = some .sret ∧ z.sret.mode = .user ∧
      z.sret.pc = l.window 0 := by
  have low : st.base ≤ (h.get sp).toNat := by
    have := ready.room.low
    omega
  obtain ⟨k, loads, pc, mode, stack, vec, sie', status⟩ :=
    reloadsU (L := Level p (d + 1)) serves ready.mode low high start
  have ready' : Open l st (d + 1) k := ⟨mode, vec.trans ready.stvec, stack.symm ▸ ready.room⟩
  have at_ : k.pc = l.window 0 := pc.trans (BitVec.add_zero _).symm
  have unmasked : k.interruptible = true := by
    rw [Hart.interruptible, sie', sie, status, enabled, Bool.or_true]
    rfl
  obtain ⟨g, level⟩ := returnsK (c := .timer) (v := 0) serves answers
    (fun f _ => trapHandler_of_interrupt (.inl rfl) f)
    ready'.stvec ready'.room
  have same := quiet_level serves (d + 1) k .timer 0 g mode ready'.stvec
    ready'.room (.inl rfl) level
  have base := (same.get sp).trans stack
  obtain ⟨z, exits, sret, mode', status'⟩ :=
    exitsU (L := fun _ _ => False) serves (same.mode.trans mode) (base.symm ▸ low)
    (base.symm ▸ high) (same.pc.trans pc)
  refine ⟨z, loads.trans (.head (.trap (.timer unmasked) level) ?_), sret, ?_, ?_⟩
  · refine Relation.ReflTransGen.mono (fun a b link => ?_) _ _ exits
    cases link with
    | exec here ne done => exact .exec here ne done
    | call none calls => exact .call none calls
    | trap _ never => exact never.elim
  · exact (congrArg spp status').trans (same.spp (status ▸ user))
  · exact misplaced serves (by decide) at_ ready' (.inl rfl) level exits

theorem lone_misplaced : ∃ z, Goes lone (Level lone 2) loneStart z ∧
    lone.code z.pc = some .sret ∧ z.sret.mode = .user ∧
    z.sret.pc = loneLabels.window 0 :=
  user_misplaced serves_lone (answers_of_code rfl) ⟨rfl, rfl, by decide, by decide⟩ (by decide) rfl
    (by rw [loneStart_sstatus]; decide) (by rw [loneStart_sstatus]; decide) rfl

end Tacos.Trap
