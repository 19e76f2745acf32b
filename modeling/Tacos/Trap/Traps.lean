/- GID: Tacos/Trap/Traps
   generality: I
   source: src/trap.rs, src/trap/pagefault.rs
   digest: Interrupts of the kernel are not seen, and user mode sees of a trap what the handler
     answers. -/

import Tacos.Trap.Nest

set_option autoImplicit false
set_option relaxedAutoImplicit false

namespace Tacos.Trap

open Tacos.Lib.Bytes Tacos.Lib.Riscv

variable {l : Labels} {st : Stack} {p : Platform} {h k g z : Hart} {d : Nat}
    {c : Cause} {v : Word} {f : Frame}

/-- A call of `trap_handler` comes back whenever there is nothing that ends the thread or stops
the machine. -/
def Answers (l : Labels) (p : Platform) : Prop :=
  ∀ (g : Hart) (id : Nat) (f : Frame), g.pc = l.trapHandler → g.mode = .supervisor →
    trapHandler l id g.scause (frameAt g.mem (g.get sp).toNat) = .returns f → ∃ k, p.calls g k

theorem calls_back {L : Hart → Hart → Prop} (serves : Serves l st p)
    (answers : Answers l p) {id : Nat}
    (served : trapHandler l id g.scause (frameAt g.mem (g.get sp).toNat) = .returns f)
    (here : p.code g.pc = some (.call l.trapHandler)) (mode : g.mode = .supervisor)
    (arg : g.get a0 = g.get sp)
    (low : st.base + st.need ≤ (g.get sp).toNat) (high : (g.get sp).toNat + frameLen ≤ st.top) :
    ∃ k, Goes p L g k ∧ Handled l st g k ∧ k.pc = g.pc + 4 := by
  have stack : (g.links l.trapHandler).get sp = g.get sp := g.get_links_of_ne _ (by decide)
  have arg' : (g.links l.trapHandler).get a0 = g.get a0 := g.get_links_of_ne _ (by decide)
  obtain ⟨k, calls⟩ := answers (g.links l.trapHandler) id f rfl mode (by rw [stack]; exact served)
  obtain ⟨done, pc⟩ := serves.handles _ k calls rfl mode ((arg'.trans arg).trans stack.symm)
    (by rw [stack]; exact low) (by rw [stack]; exact high)
  obtain ⟨frame, same, mode', stvec, sie, mem⟩ := done
  rw [stack] at frame same mem
  refine ⟨k, ?_, ⟨frame, same, mode', stvec, sie, mem⟩, pc.trans (g.get_links_ra _)⟩
  exact .head (.exec here (fun e => by cases e) rfl) (.single (.call serves.handler calls))

/-- Words of the frame are loaded, and the status is restored. -/
theorem reloads {L : Hart → Hart → Prop} (usable : st.Usable p)
    (mode : g.mode = .supervisor) {b : Nat}
    (base : (g.get sp).toNat = b) (low : st.base ≤ b) (high : b + frameLen ≤ st.top)
    (rs : List (Reg × Nat))
    (small : ∀ q ∈ rs, q.2 < 34) (nodup : (rs.map Prod.fst).Nodup) (out : sp ∉ rs.map Prod.fst)
    (status : (t0, 32) ∈ rs)
    (line : Placed p.code g.pc (rs.map fun q => .ld q.1 (slot q.2) sp))
    (here : p.code (g.pc + BitVec.ofNat 64 (4 * rs.length)) = some (.csrw .sstatus t0)) :
    ∃ k, Goes p L g k ∧ k.pc = g.pc + BitVec.ofNat 64 (4 * rs.length) + 4 ∧
      k.mode = .supervisor ∧ k.get sp = g.get sp ∧
      k.stvec = g.stvec ∧ k.sie = g.sie ∧ k.sstatus = (frameAt g.mem b).sstatus := by
  obtain ⟨x, done, loaded, kept⟩ := execs_loads base (room_frame usable high) rs
    (mapped_frame usable mode low high .read)
    small nodup out
  have straight : ∀ i ∈ rs.map fun q : Reg × Nat => Instr.ld q.1 (slot q.2) sp,
    i.straight = true := by
    intro i hi
    obtain ⟨q, -, rfl⟩ := List.mem_map.mp hi
    rfl
  have loads := Goes.of_execs (L := L) line straight done
  have word := (reg_of_ne (by decide)).trans (loaded (t0, 32) status)
  refine ⟨_, loads.tail (.exec here nofun (exec_csrw mode)), rfl, mode, ?_, rfl, rfl, word⟩
  exact (reg_of_ne (by decide)).trans ((kept sp out).trans (reg_of_ne (by decide)).symm)

/-- From where the status is restored on, nothing stops the exit to the kernel. -/
theorem exitsK {L : Hart → Hart → Prop} (serves : Serves l st p) (mode : g.mode = .supervisor)
    (low : st.base ≤ (g.get sp).toNat) (high : (g.get sp).toNat + frameLen ≤ st.top)
    (start : g.pc = l.afterCallK + 4 + 4 + 4) : ∃ z, Goes p L g z ∧ p.code z.pc = some .sret ∧
      z.mode = .supervisor := by
  obtain ⟨-, -, -, rest⟩ := serves.kernel_pieces
  obtain ⟨exit, sret, -⟩ := Placed.append.mp rest
  obtain ⟨pc, x, done, -, -⟩ := execs_exitK (l := l) serves.usable mode rfl low high
  have there : pc = l.afterCallK + 4 + 4 + 4 + BitVec.ofNat 64 (4 * (exitCodeK l).length) := by
    rw [← start]
    exact (execs_straight straight_exitK done).1
  exact ⟨_, Goes.of_execs (by rw [start]; exact exit) straight_exitK
    done, by rw [Hart.put_pc, there]; exact sret, mode⟩

/-- From where the address to return to is restored on, nothing stops the exit to user mode. -/
theorem exitsU {L : Hart → Hart → Prop} (serves : Serves l st p) (mode : g.mode = .supervisor)
    (low : st.base ≤ (g.get sp).toNat) (high : (g.get sp).toNat + frameLen ≤ st.top)
    (start : g.pc = l.afterCallU + 4 + 4 + 4 + 4 + 4) :
    ∃ z, Goes p L g z ∧ p.code z.pc = some .sret ∧ z.mode = .supervisor ∧
      z.sstatus = g.sstatus := by
  obtain ⟨-, -, -, rest⟩ := serves.user_pieces
  obtain ⟨exit, sret, -⟩ := Placed.append.mp rest
  obtain ⟨pc, x, done, -, -⟩ := execs_exitU (l := l) serves.usable mode rfl low high
  have there : pc = l.afterCallU + 4 + 4 + 4 + 4 + 4 + BitVec.ofNat 64
    (4 * (exitCodeU l).length) := by
    rw [← start]
    exact (execs_straight straight_exitU done).1
  exact ⟨_, Goes.of_execs (by rw [start]; exact exit) straight_exitU
    done, by rw [Hart.put_pc, there]; exact sret, mode, rfl⟩

/-- From the handler on, `trap_exit_u` can come to where it has written the address to return to. -/
theorem reloadsU {L : Hart → Hart → Prop} (serves : Serves l st p) (mode : g.mode = .supervisor)
    (low : st.base ≤ (g.get sp).toNat) (high : (g.get sp).toNat + frameLen ≤ st.top)
    (start : g.pc = l.afterCallU) :
    ∃ k, Goes p L g k ∧ k.pc = l.afterCallU + 4 + 4 + 4 + 4 + 4 ∧
      k.mode = .supervisor ∧ k.get sp = g.get sp ∧
      k.stvec = g.stvec ∧ k.sie = g.sie ∧ k.sstatus = (frameAt g.mem (g.get sp).toNat).sstatus := by
  obtain ⟨-, -, ⟨first, second, third, fourth, fifth, -⟩, -⟩ := serves.user_pieces
  have far : g.pc + BitVec.ofNat 64 (4 * 3) = l.afterCallU + 4 + 4 + 4 := by
    rw [start, BitVec.add_assoc, BitVec.add_assoc]
    exact congrArg _ (by decide)
  obtain ⟨k, loads, pc, mode', stack, vec, sie, status⟩ :=
    reloads (L := L) serves.usable mode rfl low
    high [(t0, 32), (t1, 33), (t2, 2)] (by decide) (by decide) (by decide) (by decide)
    (by rw [start]; exact ⟨first, second, third, trivial⟩) ((congrArg p.code far).trans fourth)
  have at_ : k.pc = l.afterCallU + 4 + 4 + 4 + 4 := pc.trans (congrArg (· + 4) far)
  have here : p.code k.pc = some (.csrw .sepc t1) := by
    rw [at_]
    exact fifth
  exact ⟨_, loads.tail (.exec here nofun (exec_csrw mode')), congrArg (· + 4) at_, mode',
    stack, vec, sie, status⟩

theorem returnsK (serves : Serves l st p) (answers : Answers l p)
    (returns : ∀ f, Holds f (h.trap c v) → ∃ id f', trapHandler l id c f = .returns f')
    (stvec : h.stvec = l.trapEntryK)
    (room : st.Room (d + 1) (h.get sp)) : ∃ k, Level p (d + 1) (h.trap c v) k := by
  obtain ⟨low, room', high⟩ := room.entry
  have far := room'.low
  have low' : st.base ≤ (below (h.get sp)).toNat := by omega
  have start : (h.trap c v).pc = l.trapEntryK := stvec
  obtain ⟨entry, call, ⟨first, second, third, -⟩, -⟩ := serves.kernel_pieces
  obtain ⟨pc, x, m, done, stack, arg, holds, -⟩ :=
    execs_entryK (h := h.trap c v) serves.usable rfl
      (by change _ ≤ (h.get sp).toNat; omega) room.high
  obtain ⟨id, f', served⟩ := returns _ holds
  have there : pc = l.trapEntryK + BitVec.ofNat 64 (4 * entryCodeK.length) := by
    rw [← start]
    exact (execs_straight straight_entryK done).1
  have same : ((h.trap c v).put pc x m).get sp = below (h.get sp) :=
    (reg_of_ne (by decide)).trans stack
  have passed : ((h.trap c v).put pc x m).get a0 = below (h.get sp) :=
    (reg_of_ne (by decide)).trans arg
  have enters := Goes.of_execs (L := Level p d) (start ▸ entry) straight_entryK done
  obtain ⟨g, called, hand, back⟩ := calls_back (L := Level p d)
    (g := (h.trap c v).put pc x m) serves answers
    (by rw [same]; exact served) (by rw [Hart.put_pc, there]; exact call) rfl
    (passed.trans same.symm) (by rw [same]; omega)
    (by rw [same]; omega)
  have at_ : g.pc = l.afterCallK := by
    rw [back, Hart.put_pc, there]
    rfl
  have base := hand.sp.trans same
  have far' : g.pc + BitVec.ofNat 64 (4 * 2) = l.afterCallK + 4 + 4 := by
    rw [at_, BitVec.add_assoc]
    exact congrArg _ (by decide)
  obtain ⟨k, loads, pc', mode, stack', -⟩ := reloads (L := Level p d) serves.usable hand.mode
    (congrArg _ base) low' high [(t0, 32), (t1, 33)] (by decide) (by decide) (by decide) (by decide)
    (by rw [at_]; exact ⟨first, second, trivial⟩) ((congrArg p.code far').trans third)
  obtain ⟨z, exits, sret, mode'⟩ := exitsK (L := Level p d) serves mode
    (by rw [stack', base]; exact low')
    (by rw [stack', base]; exact high) (pc'.trans (congrArg (· + 4) far'))
  exact ⟨_, z, enters.trans (called.trans (loads.trans exits)), sret, privileged_of mode'⟩

theorem returnsU (serves : Serves l st p) (answers : Answers l p)
    (returns : ∀ f, Holds f (h.trap c v) → ∃ id f', trapHandler l id c f = .returns f')
    (stvec : h.stvec = l.trapEntryU)
    (room : st.Room (d + 1) h.sscratch) : ∃ k, Level p (d + 1) (h.trap c v) k := by
  obtain ⟨low, room', high⟩ := room.entry
  have far := room'.low
  have low' : st.base ≤ (below h.sscratch).toNat := by omega
  have start : (h.trap c v).pc = l.trapEntryU := stvec
  obtain ⟨entry, call, -, -⟩ := serves.user_pieces
  obtain ⟨pc, x, m, done, stack, arg, holds, -, -⟩ :=
    execs_entryU (h := h.trap c v) serves.usable rfl
      (by change _ ≤ h.sscratch.toNat; omega) room.high
  obtain ⟨id, f', served⟩ := returns _ holds
  have there : pc = l.trapEntryU + BitVec.ofNat 64 (4 * entryCodeU.length) := by
    rw [← start]
    exact (execs_straight straight_entryU done).1
  have enters := Goes.of_execs (L := Level p d) (start ▸ entry) straight_entryU done
  have same : (((h.trap c v).swaps sp).put pc x m).get sp = below h.sscratch :=
    (reg_of_ne (by decide)).trans stack
  have passed : (((h.trap c v).swaps sp).put pc x m).get a0 = below h.sscratch :=
    (reg_of_ne (by decide)).trans arg
  obtain ⟨g, called, hand, back⟩ := calls_back (L := Level p d)
    (g := ((h.trap c v).swaps sp).put pc x m) serves answers
    (by rw [same]; exact served) (by rw [Hart.put_pc, there]; exact call) rfl
    (passed.trans same.symm)
    (by rw [same]; omega) (by rw [same]; omega)
  have base := hand.sp.trans same
  obtain ⟨k, loads, pc', mode, stack', -⟩ :=
    reloadsU (L := Level p d) serves hand.mode (by rw [base]; exact low')
    (by rw [base]; exact high) (by rw [back, Hart.put_pc, there]; rfl)
  obtain ⟨z, exits, sret, mode', -⟩ := exitsU (L := Level p d) serves mode
    (by rw [stack', base]; exact low')
    (by rw [stack', base]; exact high) pc'
  exact ⟨_, z, enters.trans (called.trans (loads.trans exits)), sret, privileged_of mode'⟩

theorem trapHandler_of_interrupt (interrupt : c = .timer ∨ c = .external) (f : Frame) :
    ∃ id f', trapHandler l id c f = .returns f' := by
  obtain rfl | rfl := interrupt
  · exact ⟨0, f, rfl⟩
  · exact ⟨virtio0Id, f, rfl⟩

/-- Interrupts of the kernel return, and what they have interrupted goes on as if they had not
come, however many more come before they are done. -/
theorem interrupts_unseen (serves : Serves l st p) (answers : Answers l p)
    (interrupt : c = .timer ∨ c = .external)
    (ready : Open l st (d + 1) h) :
    (∃ k, Level p (d + 1) (h.trap c v) k) ∧ ∀ k, Level p (d + 1) (h.trap c v) k → Same st h k :=
  ⟨returnsK serves answers (fun f _ => trapHandler_of_interrupt interrupt f) ready.stvec ready.room,
    fun k level => quiet_level serves (d + 1) h c v k ready.mode ready.stvec
    ready.room interrupt level⟩

/-- Memory with a frame that the handler has made from the one that is there. -/
def storeFrame (m : Mem) (b : Nat) (f : Frame) : Mem :=
  storeLE (storeLE (storeLE m (b + 8 * 10) 8 (f.x a0).toNat) (b + 8 * 11) 8 (f.x a1).toNat)
    (b + 8 * 33) 8 f.sepc.toNat

/-- A call of `trap_handler` that no other thread runs during. -/
def trapHandlerCall (l : Labels) (id : Nat) (h k : Hart) : Prop :=
  h.pc = l.trapHandler ∧ h.mode = .supervisor ∧
    ∃ f, trapHandler l id h.scause (frameAt h.mem (h.get sp).toNat) = .returns f ∧
      k = { h with
        pc := h.get ra
        stvec := l.trapEntryK
        sstatus := withBit h.sstatus sieBit (h.scause != .external)
        mem := storeFrame h.mem (h.get sp).toNat f }

/-- The handler changes no more of the frame than two registers and the address to return to. -/
theorem trapHandler_x {id : Nat} {f' : Frame} (served : trapHandler l id c f = .returns f')
    {r : Reg} (ne₀ : r ≠ a0)
    (ne₁ : r ≠ a1) : f'.x r = f.x r := by
  have fault : ∀ f', pagefaultHandler l f = .returns f' → f'.x r = f.x r := by
    intro f' served
    rw [pagefaultHandler] at served
    split at served
    · split at served
      · cases served
        exact Function.update_of_ne ne₁ ..
      · split at served
        · cases served
          exact Function.update_of_ne ne₁ ..
        · cases served
    · cases served
  cases c with
  | timer => rw [trapHandler_interrupt (.inl rfl) served]
  | external => rw [trapHandler_interrupt (.inr rfl) served]
  | userEcall =>
    cases served
    exact Function.update_of_ne ne₀ ..
  | loadFault => exact fault f' served
  | storeFault => exact fault f' served
  | fetchFault => exact fault f' served
  | other code => cases served

theorem frameAt_storeFrame {m : Mem} {b id : Nat} {f : Frame}
    (served : trapHandler l id c (frameAt m b) = .returns f) :
    frameAt (storeFrame m b f) b = f := by
  have regs : ∀ r : Reg, word (storeFrame m b f) b r = f.x r := by
    intro r
    have small := r.isLt
    rw [storeFrame, word_store_of_ne (by omega)]
    by_cases first : r = a1
    · rw [first]
      exact word_store
    · have ne : r.val ≠ 11 := fun same => first (Fin.ext same)
      rw [word_store_of_ne ne]
      by_cases second : r = a0
      · rw [second]
        exact word_store
      · have ne' : r.val ≠ 10 := fun same => second (Fin.ext same)
        rw [word_store_of_ne ne', trapHandler_x served second first]
        rfl
  have status : word (storeFrame m b f) b 32 = f.sstatus := by
    rw [storeFrame, word_store_of_ne (by decide), word_store_of_ne (by decide),
      word_store_of_ne (by decide),
      trapHandler_sstatus served]
    rfl
  have sepc : word (storeFrame m b f) b 33 = f.sepc := word_store
  rw [frameAt, status, sepc, funext regs]

theorem storeFrame_of_not_mem {m : Mem} {b x : Nat} {f : Frame} (out : x < b ∨ b + frameLen ≤ x) :
    storeFrame m b f x = m x := by
  rw [frameLen] at out
  rw [storeFrame, storeLE_of_not_mem (by omega), storeLE_of_not_mem (by omega),
    storeLE_of_not_mem (by omega)]

/-- A machine with nothing but the code of traps serves them. -/
theorem serves_of_code {id : Nat} (calls : p.calls = trapHandlerCall l id)
    (kernel : Placed p.code l.trapEntryK (kernelCode l))
    (user : Placed p.code l.trapEntryU (userCode l)) (none : p.code l.trapHandler = none)
    (usable : st.Usable p) :
    Serves l st p := by
  refine ⟨kernel, user, none, usable, ?_⟩
  intro h k called _ _ _ low high
  rw [calls] at called
  obtain ⟨-, mode, f, served, rfl⟩ := called
  refine ⟨⟨⟨id, ?_⟩, rfl, mode, rfl, rfl, ?_⟩, rfl⟩
  · exact served.trans (congrArg _ (frameAt_storeFrame served).symm)
  · intro x mine
    refine storeFrame_of_not_mem (mine.elim (fun other => ?_) fun inside => .inr inside.1)
    have apart := usable.apart x other
    omega

theorem answers_of_code (calls : p.calls = trapHandlerCall l virtio0Id) : Answers l p := by
  rintro g id f at_ mode served
  have same : ∃ f', trapHandler l virtio0Id g.scause
    (frameAt g.mem (g.get sp).toNat) = .returns f' := by
    cases cause : g.scause with
    | external => exact ⟨_, rfl⟩
    | _ =>
      rw [cause] at served
      exact ⟨f, served⟩
  obtain ⟨f', served'⟩ := same
  rw [calls]
  exact ⟨_, at_, mode, f', served', rfl⟩

def loneLabels : Labels := ⟨0x1000, 0x2000, 0x3000, 0x4000, 0x5000⟩

def loneStack : Stack := ⟨0x8000, 0xA000, 0x100, {a | 0xB000 ≤ a ∧ a < 0xC000}⟩

/-- The code of traps, and a program that makes one system call after another. -/
def loneCode (a : Word) : Option Instr :=
  if a.toNat % 4 = 0 then
    match a.toNat / 0x1000 with
    | 1 => (userCode loneLabels)[(a.toNat - 0x1000) / 4]?
    | 2 => (kernelCode loneLabels)[(a.toNat - 0x2000) / 4]?
    | 0x10 => [.ecall, .j 0x10000][(a.toNat - 0x10000) / 4]?
    | _ => none
  else none

def lone : Platform where
  code := loneCode
  mmu
    | _, .user, a => decide (0xB000 ≤ a ∧ a < 0xC000)
    | _, .supervisor, a => decide (0x8000 ≤ a ∧ a < 0xC000)
  calls := trapHandlerCall loneLabels virtio0Id

theorem serves_lone : Serves loneLabels loneStack lone := by
  refine serves_of_code rfl (placed_iff.mpr ?_) (placed_iff.mpr ?_) rfl ⟨by decide, ?_, ?_⟩
  · decide +kernel
  · decide +kernel
  · intro a mine
    exact .inr (Nat.le_trans (by decide) mine.1)
  · intro kind a low high
    refine decide_eq_true ⟨low, Nat.lt_trans high (by decide)⟩

def loneHart (m : Mode) (pc : Word) : Hart where
  x := fun _ => 0x9000
  pc := pc
  mode := m
  sstatus := 2
  sepc := 0
  sscratch := 0x9000
  stvec := if m = .user then 0x1000 else 0x2000
  scause := .timer
  stval := 0
  sie := true
  mem := fun _ => 0

/-- A timer interrupt of the kernel with room for two frames. -/
theorem lone_interrupt_unseen :
    (∃ k, Level lone 2 ((loneHart .supervisor 0x20000).trap .timer 0) k) ∧
      ∀ k, Level lone 2 ((loneHart .supervisor 0x20000).trap .timer 0) k →
        Same loneStack (loneHart .supervisor 0x20000) k :=
  interrupts_unseen serves_lone (answers_of_code rfl) (.inl rfl) ⟨rfl, rfl, by decide, by decide⟩

end Tacos.Trap
