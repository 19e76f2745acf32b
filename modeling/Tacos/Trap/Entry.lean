/- GID: Tacos/Trap/Entry
   generality: I
   source: src/trap.rs
   digest: Traps of any nesting hand the handler the interrupted registers, and resume what it
     leaves in the frame. -/

import Tacos.Trap.Frame

set_option autoImplicit false
set_option relaxedAutoImplicit false

namespace Tacos.Trap

open Tacos.Lib.Bytes Tacos.Lib.Riscv

/-- The stack that a trap runs on, the room that the handler needs on it, and the other memory
that the thread has to itself. -/
structure Stack where
  base : Nat
  top : Nat
  need : Nat
  others : Set Nat

namespace Stack

/-- What the thread has to itself when the stack pointer is at an address. -/
def above (st : Stack) (a : Nat) : Set Nat := {x | x ∈ st.others ∨ a ≤ x ∧ x < st.top}

/-- The stack is mapped, and nothing else that the thread has is on it. -/
structure Usable (st : Stack) (p : Platform) : Prop where
  small : st.top ≤ 2 ^ 64
  apart : ∀ x ∈ st.others, x < st.base ∨ st.top ≤ x
  mapped : ∀ kind x, st.base ≤ x → x < st.top → p.mmu kind .supervisor x = true

/-- A stack pointer with room for so many frames and the handler below them. -/
structure Room (st : Stack) (d : Nat) (b : Word) : Prop where
  low : st.base + st.need + d * frameLen ≤ b.toNat
  high : b.toNat ≤ st.top

end Stack

def Labels.afterCallK (l : Labels) : Word :=
  l.trapEntryK + BitVec.ofNat 64 (4 * entryCodeK.length) + 4

def Labels.afterCallU (l : Labels) : Word :=
  l.trapEntryU + BitVec.ofNat 64 (4 * entryCodeU.length) + 4

/-- What a call of `trap_handler` with the frame at the stack pointer has done: to the frame what
the handler does, and nothing to what the thread has to itself above it. -/
structure Handled (l : Labels) (st : Stack) (h k : Hart) : Prop where
  frame : ∃ id, trapHandler l id h.scause (frameAt h.mem (h.get sp).toNat) = .returns
    (frameAt k.mem (h.get sp).toNat)
  sp : k.get sp = h.get sp
  mode : k.mode = .supervisor
  stvec : k.stvec = l.trapEntryK
  sie : k.sie = h.sie
  mem : ∀ x ∈ st.above ((h.get Lib.Riscv.sp).toNat + frameLen), k.mem x = h.mem x

/-- The platform has this code, and `trap_handler` does its part on the stack and returns to its
caller. -/
structure Serves (l : Labels) (st : Stack) (p : Platform) : Prop where
  kernel : Placed p.code l.trapEntryK (kernelCode l)
  user : Placed p.code l.trapEntryU (userCode l)
  handler : p.code l.trapHandler = none
  usable : st.Usable p
  handles : ∀ h k, p.calls h k → h.pc = l.trapHandler → h.mode = .supervisor → h.get a0 = h.get sp →
    st.base + st.need ≤ (h.get sp).toNat → (h.get sp).toNat + frameLen ≤ st.top →
    Handled l st h k ∧ k.pc = h.get ra

variable {l : Labels} {st : Stack} {p : Platform} {h k z t : Hart} {d : Nat}
    {c : Cause} {v : Word} {f : Frame}
  {L : Hart → Hart → Prop}

theorem mem_saved {r : Reg} : r ∈ saved ↔ r ≠ 0 ∧ r ≠ sp := by
  revert r
  decide

theorem length_saved : saved.length = 30 := by decide

/-- What the code around the handler puts into the frame, but for the stack pointer. -/
structure Holds (f : Frame) (h : Hart) : Prop where
  x : ∀ r ≠ 0, r ≠ sp → f.x r = h.x r
  sstatus : f.sstatus = h.sstatus
  sepc : f.sepc = h.sepc

/-- Where the frame below a stack pointer is. -/
def below (b : Word) : Word := b + -BitVec.ofNat 64 frameLen

theorem toNat_below {b : Word} (room : frameLen ≤ b.toNat) :
    (below b).toNat = b.toNat - frameLen := by
  rw [frameLen] at *
  have := b.isLt
  rw [below, frameLen, BitVec.toNat_add, BitVec.toNat_neg, BitVec.toNat_ofNat]
  omega

section Slots

variable (usable : st.Usable p) (mode : h.mode = .supervisor) {b n : Nat}
    (base : (h.get sp).toNat = b)
  (low : st.base ≤ b) (high : b + frameLen ≤ st.top)

include usable mode low high in
theorem mapped_frame (kind : Access) : ∀ n < 8 * 34, p.mmu kind h.mode (b + n) = true := by
  intro n hn
  rw [frameLen] at high
  rw [mode]
  exact usable.mapped kind _ (by omega) (by omega)

include usable high in
theorem room_frame : b + 8 * 34 ≤ 2 ^ 64 := by
  have := usable.small
  rw [frameLen] at high
  omega

include usable mode base low high

theorem exec_ld_frame (small : n < 34) (r : Reg) :
    exec p.mmu h (.ld r (slot n) sp) = .next (h.writes r (word h.mem b n)) :=
  exec_ld base (room_frame usable high) (mapped_frame usable mode low high .read) small

theorem execs_loads_frame :
    ∃ x, execs p.mmu h loads = some (h.put (h.pc + BitVec.ofNat 64 (4 * 30)) x h.mem) ∧
      (∀ r ≠ 0, r ≠ sp → x r = word h.mem b r) ∧ x sp = h.x sp := by
  have out : sp ∉ (saved.map fun r => (r, r.val)).map Prod.fst := by decide
  obtain ⟨x, done, loaded, kept⟩ := execs_loads base (room_frame usable high)
    (saved.map fun r => (r, r.val)) (mapped_frame usable mode low high .read)
    (by decide) (by decide) out
  rw [List.map_map, List.length_map, length_saved] at done
  refine ⟨x, done, ?_, kept sp out⟩
  intro r nonzero other
  exact loaded (r, r.val) (List.mem_map_of_mem (mem_saved.mpr ⟨nonzero, other⟩))

/-- The registers and some status registers go into the frame, and the frame to the handler. -/
theorem execs_frame (ts : List (Reg × Csr × Nat)) (regs : (ts.map fun t => t.1).Nodup)
    (other : ∀ t ∈ ts, t.1 ≠ 0 ∧ t.1 ≠ sp ∧ t.2.2 < 34 ∧ ∀ r ∈ saved, t.2.2 ≠ r.val)
    (slots : (ts.map fun t => t.2.2).Nodup) :
    ∃ pc x m, execs p.mmu h (saves ++ (ts.map fun t => .csrr t.1 t.2.1) ++
      (ts.map fun t => .sd t.1 (slot t.2.2) sp) ++
        [.mv a0 sp]) = some (h.put pc x m) ∧ x sp = h.x sp ∧ x a0 = h.x sp ∧
      (∀ r ≠ 0, r ≠ sp → word m b r = h.x r) ∧ (∀ t ∈ ts, word m b t.2.2 = h.csr t.2.1) ∧
      ∀ x, (x < b ∨ b + frameLen ≤ x) → m x = h.mem x := by
  have room := room_frame usable high
  have mapped := mapped_frame usable mode low high .write
  obtain ⟨m₁, done₁, saved₁, -, outside₁⟩ := execs_saves base room
    (saved.map fun r => (r, r.val)) mapped
    (by decide) (by decide)
  obtain ⟨x, done₂, read, kept⟩ := execs_reads (h := h.put (h.pc + BitVec.ofNat 64 (4 * 30)) h.x m₁)
    (ts.map fun t => (t.1, t.2.1)) mode (by rwa [List.map_map])
  have stack : x sp = h.x sp := by
    refine kept sp ?_
    intro mem
    obtain ⟨_, hq, same⟩ := List.mem_map.mp mem
    obtain ⟨t, ht, rfl⟩ := List.mem_map.mp hq
    exact (other t ht).2.1 same
  have at_ : reg x sp = h.get sp := (reg_of_ne (by decide)).trans
    (stack.trans (reg_of_ne (by decide)).symm)
  obtain ⟨m₃, done₃, saved₃, kept₃, outside₃⟩ := execs_saves
    (h := h.put (h.pc + BitVec.ofNat 64 (4 * 30) + BitVec.ofNat 64 (4 * ts.length)) x m₁)
    ((congrArg BitVec.toNat at_).trans base) room (ts.map fun t => (t.1, t.2.2)) mapped
    (fun q hq => by
      obtain ⟨t, ht, rfl⟩ := List.mem_map.mp hq
      exact (other t ht).2.2.1) (by rwa [List.map_map])
  rw [List.map_map, List.length_map] at done₁ done₂ done₃
  rw [length_saved] at done₁
  refine ⟨h.pc + BitVec.ofNat 64 (4 * 30) + BitVec.ofNat 64
    (4 * ts.length) + BitVec.ofNat 64 (4 * ts.length) + 4,
    Function.update x a0 (h.get sp), m₃, ?_, ?_, ?_, ?_, ?_, ?_⟩
  · have first : execs p.mmu h saves = some (h.put _ h.x m₁) := done₁
    have second : execs p.mmu _ (ts.map fun t => .csrr t.1 t.2.1) = some _ := done₂
    have third : execs p.mmu _ (ts.map fun t => .sd t.1 (slot t.2.2) sp) = some _ := done₃
    rw [execs_append, execs_append, execs_append, first, Option.bind_some, second,
      Option.bind_some, Hart.put_put,
      Hart.put_pc, Hart.put_mem, third, Option.bind_some, execs_next exec_mv]
    have last : ∀ g : Hart, g.x = x → g.get sp = h.get sp := by
      rintro g rfl
      exact at_
    rw [last _ rfl]
    rfl
  · rw [Function.update_of_ne (by decide), stack]
  · rw [Function.update_self]
    exact reg_of_ne (by decide)
  · intro r nonzero notSp
    have mine := mem_saved.mpr ⟨nonzero, notSp⟩
    have apart : r.val ∉ (ts.map fun t => (t.1, t.2.2)).map Prod.snd := by
      intro mem
      obtain ⟨_, hq, same⟩ := List.mem_map.mp mem
      obtain ⟨t, ht, rfl⟩ := List.mem_map.mp hq
      exact (other t ht).2.2.2 r mine same
    exact (kept₃ r apart).trans
      ((saved₁ (r, r.val) (List.mem_map_of_mem mine)).trans (reg_of_ne nonzero))
  · intro t ht
    refine (saved₃ (t.1, t.2.2) (List.mem_map_of_mem ht)).trans ?_
    refine (reg_of_ne (other t ht).1).trans
      ((read (t.1, t.2.1) (List.mem_map_of_mem ht)).trans (Hart.csr_put ..))
  · intro a out
    exact (outside₃ a out).trans (outside₁ a out)

end Slots

theorem execs_entryK (usable : st.Usable p) (mode : h.mode = .supervisor)
    (low : st.base + frameLen ≤ (h.get sp).toNat)
    (high : (h.get sp).toNat ≤ st.top) :
    ∃ pc x m, execs p.mmu h entryCodeK = some (h.put pc x m) ∧ x sp = below (h.get sp) ∧
      x a0 = below (h.get sp) ∧ Holds (frameAt m (below (h.get sp)).toNat) h ∧
      ∀ a, (a < (below (h.get sp)).toNat ∨ (h.get sp).toNat ≤ a) → m a = h.mem a := by
  have base : (below (h.get sp)).toNat = (h.get sp).toNat - frameLen := toNat_below (by omega)
  have top : (below (h.get sp)).toNat + frameLen = (h.get sp).toNat := by omega
  have moved : (h.writes sp (below (h.get sp))).x sp = below (h.get sp) :=
    h.writes_self ..
  obtain ⟨pc, x, m, done, stack, arg, regs, status, outside⟩ :=
    execs_frame (h := h.writes sp (below (h.get sp)))
      usable mode (congrArg BitVec.toNat moved) (by omega)
      (by omega) [(t0, .sstatus, 32), (t1, .sepc, 33)]
      (by decide) (by decide) (by decide)
  refine ⟨pc, x, m, ?_, stack.trans moved, arg.trans moved, ⟨?_, ?_, ?_⟩, ?_⟩
  · have first : exec p.mmu h (.addi sp sp (-BitVec.ofNat 64 frameLen)) =
        .next (h.writes sp (below (h.get sp))) := rfl
    simp only [List.append_assoc, List.map_cons, List.map_nil, List.cons_append,
      List.nil_append] at done
    rw [entryCodeK, List.cons_append, execs_next first, done, Hart.writes, Hart.put_put]
  · intro r nonzero other
    exact (regs r nonzero other).trans (h.writes_of_ne _ other)
  · exact status (t0, .sstatus, 32) (by decide)
  · exact status (t1, .sepc, 33) (by decide)
  · intro a out
    exact outside a (by omega)

/-- The entry from user mode takes the stack from `sscratch` and puts a frame on it. -/
theorem execs_entryU (usable : st.Usable p) (mode : h.mode = .supervisor)
    (low : st.base + frameLen ≤ h.sscratch.toNat)
    (high : h.sscratch.toNat ≤ st.top) :
    ∃ pc x m, execs p.mmu h entryCodeU = some ((h.swaps sp).put pc x m) ∧
      x sp = below h.sscratch ∧ x a0 = below h.sscratch ∧
      Holds (frameAt m (below h.sscratch).toNat) h ∧
      (frameAt m (below h.sscratch).toNat).x sp = h.get sp ∧
      ∀ a, (a < (below h.sscratch).toNat ∨ h.sscratch.toNat ≤ a) → m a = h.mem a := by
  have stack₀ : (h.swaps sp).get sp = h.sscratch := h.get_swaps_self (by decide)
  have base : (below ((h.swaps sp).get sp)).toNat = h.sscratch.toNat - frameLen := by
    rw [stack₀]
    exact toNat_below (by omega)
  have top : (below ((h.swaps sp).get sp)).toNat + frameLen = h.sscratch.toNat := by omega
  have moved : ((h.swaps sp).writes sp (below ((h.swaps sp).get sp))).x sp =
    below ((h.swaps sp).get sp) := Hart.writes_self ..
  obtain ⟨pc, x, m, done, stack, arg, regs, status, outside⟩ :=
    execs_frame (h := (h.swaps sp).writes sp (below ((h.swaps sp).get sp)))
      usable mode (congrArg BitVec.toNat moved) (by omega) (by omega)
      [(t0, .sstatus, 32), (t1, .sepc, 33), (t2, .sscratch, 2)] (by decide) (by decide) (by decide)
  have whole : execs p.mmu h entryCodeU = some ((h.swaps sp).put pc x m) := by
    have second : exec p.mmu (h.swaps sp) (.addi sp sp (-BitVec.ofNat 64 frameLen)) =
        .next ((h.swaps sp).writes sp (below ((h.swaps sp).get sp))) := rfl
    simp only [List.append_assoc, List.map_cons, List.map_nil, List.cons_append,
      List.nil_append] at done
    rw [entryCodeU, List.append_assoc, List.cons_append, execs_next (exec_swaps mode),
      List.cons_append, execs_next second,
      List.nil_append, done, Hart.writes, Hart.put_put]
  rw [stack₀] at stack arg moved regs status outside top
  refine ⟨pc, x, m, whole, stack.trans moved, arg.trans moved, ⟨?_, ?_, ?_⟩, ?_, ?_⟩
  · intro r nonzero other
    exact (regs r nonzero other).trans ((Hart.writes_of_ne _ _ other).trans (h.swaps_of_ne other))
  · exact status (t0, .sstatus, 32) (by decide)
  · exact status (t1, .sepc, 33) (by decide)
  · exact status (t2, .sscratch, 2) (by decide)
  · exact fun a out => outside a (by omega)

end Tacos.Trap
