/- GID: Tacos/Trap/Nest
   generality: I
   source: src/trap.rs
   digest: Traps of any nesting hand the handler the interrupted registers, and resume what it
     leaves in the frame. -/

import Tacos.Trap.Entry

set_option autoImplicit false
set_option relaxedAutoImplicit false

namespace Tacos.Trap

open Tacos.Lib.Bytes Tacos.Lib.Riscv

variable {l : Labels} {st : Stack} {p : Platform} {h k g z : Hart} {d : Nat}
    {c : Cause} {v : Word} {f : Frame}
  {L : Hart → Hart → Prop}

namespace Serves

theorem kernel_pieces (serves : Serves l st p) : Placed p.code l.trapEntryK entryCodeK ∧
    p.code (l.trapEntryK + BitVec.ofNat 64 (4 * entryCodeK.length)) = some (.call l.trapHandler) ∧
    Placed p.code l.afterCallK [.ld t0 (slot 32) sp, .ld t1 (slot 33) sp, .csrw .sstatus t0] ∧
    Placed p.code (l.afterCallK + 4 + 4 + 4) (exitCodeK l ++ [.sret]) := by
  have placed := serves.kernel
  rw [kernelCode, List.append_assoc, List.append_assoc, List.append_assoc, List.cons_append,
    List.nil_append] at placed
  obtain ⟨entry, call, rest⟩ := Placed.append.mp placed
  obtain ⟨loads, exit⟩ := Placed.append.mp rest
  have far : l.afterCallK + BitVec.ofNat 64 (4 * 3) = l.afterCallK + 4 + 4 + 4 := by
    rw [BitVec.add_assoc, BitVec.add_assoc]
    exact congrArg _ (by decide)
  exact ⟨entry, call, loads, far ▸ exit⟩

theorem user_pieces (serves : Serves l st p) : Placed p.code l.trapEntryU entryCodeU ∧
    p.code (l.trapEntryU + BitVec.ofNat 64 (4 * entryCodeU.length)) = some (.call l.trapHandler) ∧
    Placed p.code l.afterCallU
      [.ld t0 (slot 32) sp, .ld t1 (slot 33) sp, .ld t2 (slot 2) sp,
        .csrw .sstatus t0, .csrw .sepc t1] ∧
    Placed p.code (l.afterCallU + 4 + 4 + 4 + 4 + 4) (exitCodeU l ++ [.sret]) := by
  have placed := serves.user
  rw [userCode, List.append_assoc, List.append_assoc, List.append_assoc, List.cons_append,
    List.nil_append] at placed
  obtain ⟨entry, call, rest⟩ := Placed.append.mp placed
  obtain ⟨loads, exit⟩ := Placed.append.mp rest
  have far : l.afterCallU + BitVec.ofNat 64 (4 * 5) = l.afterCallU + 4 + 4 + 4 + 4 + 4 := by
    rw [BitVec.add_assoc, BitVec.add_assoc, BitVec.add_assoc, BitVec.add_assoc]
    exact congrArg _ (by decide)
  exact ⟨entry, call, loads, far ▸ exit⟩

end Serves

theorem handled (serves : Serves l st p) (goes : Goes p L g z) (ends : p.code z.pc = some .sret)
    (here : p.code g.pc = some (.call l.trapHandler)) (mode : g.mode = .supervisor)
    (masked : g.sstatus.getLsbD sieBit = false) (arg : g.get a0 = g.get sp)
    (low : st.base + st.need ≤ (g.get sp).toNat) (high : (g.get sp).toNat + frameLen ≤ st.top) :
    ∃ k, Goes p L k z ∧ Handled l st g k ∧ k.pc = g.pc + 4 := by
  have away : z.pc ≠ g.pc := by
    intro same
    rw [same, here] at ends
    cases ends
  have shut : ∀ pc x m, (g.put pc x m).interruptible = false :=
    fun _ _ _ => Hart.interruptible_of_masked masked mode
  have called := goes.next away here (.of_masked (Hart.interruptible_of_masked masked mode)) rfl
  change Goes p L (g.links l.trapHandler) z at called
  have stack : (g.links l.trapHandler).get sp = g.get sp := g.get_links_of_ne _ (by decide)
  have arg' : (g.links l.trapHandler).get a0 = g.get a0 := g.get_links_of_ne _ (by decide)
  have out : z.pc ≠ l.trapHandler := by
    intro same
    rw [same, serves.handler] at ends
    cases ends
  obtain ⟨k, calls, rest⟩ := called.called out serves.handler (.of_masked (shut ..))
  obtain ⟨done, pc⟩ := serves.handles _ k calls rfl mode ((arg'.trans arg).trans stack.symm)
    (by rw [stack]; exact low) (by rw [stack]; exact high)
  obtain ⟨frame, same, mode', stvec, sie, mem⟩ := done
  rw [stack] at frame same mem
  exact ⟨k, rest, ⟨frame, same, mode', stvec, sie, mem⟩, pc.trans (g.get_links_ra _)⟩

theorem straight_saves : ∀ i ∈ saves, i.straight = true := by
  intro i hi
  obtain ⟨r, -, rfl⟩ := List.mem_map.mp hi
  rfl

theorem straight_loads : ∀ i ∈ loads, i.straight = true := by
  intro i hi
  obtain ⟨r, -, rfl⟩ := List.mem_map.mp hi
  rfl

theorem straight_append {is js : List Instr} (first : ∀ i ∈ is, i.straight = true)
    (second : ∀ i ∈ js, i.straight = true) :
    ∀ i ∈ is ++ js, i.straight = true :=
  fun i hi => (List.mem_append.mp hi).elim (first i) (second i)

theorem straight_entryK : ∀ i ∈ entryCodeK, i.straight = true := by
  have first : ∀ i ∈ Instr.addi sp sp (-BitVec.ofNat 64 frameLen) :: saves, i.straight = true :=
    List.forall_mem_cons.mpr ⟨rfl, straight_saves⟩
  exact straight_append first (by simp [Instr.straight])

theorem straight_entryU : ∀ i ∈ entryCodeU, i.straight = true :=
  straight_append (straight_append (by simp [Instr.straight]) straight_saves)
    (by simp [Instr.straight])

theorem straight_exitK : ∀ i ∈ exitCodeK l, i.straight = true :=
  straight_append (straight_append (by simp [Instr.straight]) straight_loads)
    (by simp [Instr.straight])

theorem straight_exitU : ∀ i ∈ exitCodeU l, i.straight = true :=
  straight_append (straight_append (by simp [Instr.straight]) straight_loads)
    (by simp [Instr.straight])

/-- A run that ends at a `sret` goes on to the end of a straight line. -/
theorem lined {is : List Instr} (goes : Goes p L h z) (ends : p.code z.pc = some .sret)
    (placed : Placed p.code h.pc is)
    (straight : ∀ i ∈ is, i.straight = true)
    (calm : ∀ g n, n < is.length → g.pc = h.pc + BitVec.ofNat 64 (4 * n) →
      g.interruptible = h.interruptible → Calm L g)
    (done : execs p.mmu h is = some k) : Goes p L k z ∧
      k.pc = h.pc + BitVec.ofNat 64 (4 * is.length) := by
  refine ⟨goes.line placed ?_ straight calm done, (execs_straight straight done).1⟩
  intro i hi here
  rw [ends] at here
  obtain rfl := Option.some.inj here
  cases straight .sret hi

theorem lined_masked {is : List Instr} (goes : Goes p L h z) (ends : p.code z.pc = some .sret)
    (placed : Placed p.code h.pc is) (straight : ∀ i ∈ is, i.straight = true)
    (masked : h.interruptible = false)
    (done : execs p.mmu h is = some k) : Goes p L k z ∧
      k.pc = h.pc + BitVec.ofNat 64 (4 * is.length) :=
  lined goes ends placed straight (fun _ _ _ _ same => .of_masked (same.trans masked)) done

/-- The hart is back from the handler, with the frame below `b` as the handler has left it. -/
structure Entered (l : Labels) (st : Stack) (b : Word) (h k : Hart) : Prop where
  sp : k.get sp = below b
  mode : k.mode = .supervisor
  stvec : k.stvec = l.trapEntryK
  sie : k.sie = h.sie
  mem : ∀ x ∈ st.above b.toNat, k.mem x = h.mem x

/-- What a thread has to itself above its stack pointer is not touched by the frame that is put
below it. -/
theorem above_frame (usable : st.Usable p) {b : Word}
    (low : st.base + frameLen ≤ b.toNat) {m m' : Mem}
    (outside : ∀ a, (a < (below b).toNat ∨ b.toNat ≤ a) → m' a = m a) (x : Nat)
    (mine : x ∈ st.above b.toNat)
    (high : b.toNat ≤ st.top) : m' x = m x ∧ x ∈ st.above ((below b).toNat + frameLen) := by
  have far : (below b).toNat = b.toNat - frameLen := toNat_below (by omega)
  obtain other | inside := mine
  · have apart := usable.apart x other
    exact ⟨outside x (by omega), .inl other⟩
  · exact ⟨outside x (.inr inside.1), .inr ⟨by omega, inside.2⟩⟩

theorem enteredK (serves : Serves l st p) (goes : Goes p L (h.trap c v) z)
    (ends : p.code z.pc = some .sret)
    (stvec : h.stvec = l.trapEntryK) (low : st.base + st.need + frameLen ≤ (h.get sp).toNat)
    (high : (h.get sp).toNat ≤ st.top) :
    ∃ k id f, Goes p L k z ∧ k.pc = l.afterCallK ∧ Holds f (h.trap c v) ∧
      trapHandler l id c f = .returns (frameAt k.mem (below (h.get sp)).toNat) ∧
        Entered l st (h.get sp) h k := by
  have far : (below (h.get sp)).toNat = (h.get sp).toNat - frameLen := toNat_below (by omega)
  obtain ⟨entry, call, -, -⟩ := serves.kernel_pieces
  obtain ⟨pc, x, m, done, stack, arg, holds, outside⟩ :=
    execs_entryK (h := h.trap c v) serves.usable rfl (by change _ ≤ (h.get sp).toNat; omega) high
  have trapped : (h.trap c v).get sp = h.get sp := rfl
  have start : (h.trap c v).pc = l.trapEntryK := stvec
  rw [trapped] at stack arg holds outside
  have masked : (h.trap c v).sstatus.getLsbD sieBit = false := sie_entered _ _
  obtain ⟨goes, at_⟩ := lined_masked goes ends (start ▸ entry) straight_entryK
    (Hart.interruptible_of_masked masked rfl) done
  have there : pc = l.trapEntryK + BitVec.ofNat 64 (4 * entryCodeK.length) := by
    rw [← start]; exact at_
  have same : ((h.trap c v).put pc x m).get sp = below (h.get sp) :=
    (reg_of_ne (by decide)).trans stack
  have passed : ((h.trap c v).put pc x m).get a0 = below (h.get sp) :=
    (reg_of_ne (by decide)).trans arg
  obtain ⟨k, goes, hand, back⟩ := handled serves goes ends
    (by rw [Hart.put_pc, there]; exact call) rfl masked
    (passed.trans same.symm) (by rw [same]; omega) (by rw [same]; omega)
  obtain ⟨⟨id, served⟩, sp, mode, vec, sie, mem⟩ := hand
  rw [same] at served sp mem
  refine ⟨k, id, frameAt m (below (h.get Lib.Riscv.sp)).toNat, goes, ?_, holds, served,
    sp, mode, vec, sie, ?_⟩
  · rw [back, Hart.put_pc, there]
    rfl
  · intro y mine
    obtain ⟨kept, above⟩ := above_frame serves.usable (by omega) outside y mine high
    exact (mem y above).trans kept

theorem enteredU (serves : Serves l st p) (goes : Goes p L (h.trap c v) z)
    (ends : p.code z.pc = some .sret)
    (stvec : h.stvec = l.trapEntryU) (low : st.base + st.need + frameLen ≤ h.sscratch.toNat)
    (high : h.sscratch.toNat ≤ st.top) :
    ∃ k id f, Goes p L k z ∧ k.pc = l.afterCallU ∧ Holds f (h.trap c v) ∧ f.x sp = h.get sp ∧
      trapHandler l id c f = .returns (frameAt k.mem (below h.sscratch).toNat) ∧
        Entered l st h.sscratch h k := by
  have far : (below h.sscratch).toNat = h.sscratch.toNat - frameLen := toNat_below (by omega)
  obtain ⟨entry, call, -, -⟩ := serves.user_pieces
  obtain ⟨pc, x, m, done, stack, arg, holds, user, outside⟩ :=
    execs_entryU (h := h.trap c v) serves.usable rfl (by change _ ≤ h.sscratch.toNat; omega) high
  have trapped : (h.trap c v).sscratch = h.sscratch := rfl
  have start : (h.trap c v).pc = l.trapEntryU := stvec
  rw [trapped] at stack arg holds user outside
  have masked : (h.trap c v).sstatus.getLsbD sieBit = false := sie_entered _ _
  obtain ⟨goes, at_⟩ := lined_masked goes ends (start ▸ entry) straight_entryU
    (Hart.interruptible_of_masked masked rfl) done
  have there : pc = l.trapEntryU + BitVec.ofNat 64 (4 * entryCodeU.length) := by
    rw [← start]; exact at_
  have same : (((h.trap c v).swaps sp).put pc x m).get sp = below h.sscratch :=
    (reg_of_ne (by decide)).trans stack
  have passed : (((h.trap c v).swaps sp).put pc x m).get a0 = below h.sscratch :=
    (reg_of_ne (by decide)).trans arg
  obtain ⟨k, goes, hand, back⟩ := handled serves goes ends
    (by rw [Hart.put_pc, there]; exact call) rfl masked (passed.trans same.symm)
    (by rw [same]; omega) (by rw [same]; omega)
  obtain ⟨⟨id, served⟩, sp, mode, vec, sie, mem⟩ := hand
  rw [same] at served sp mem
  refine ⟨k, id, frameAt m (below h.sscratch).toNat, goes, ?_, holds, user, served,
    sp, mode, vec, sie, ?_⟩
  · rw [back, Hart.put_pc, there]
    rfl
  · intro y mine
    obtain ⟨kept, above⟩ := above_frame serves.usable (by omega) outside y mine high
    exact (mem y above).trans kept

/-- What code sees of an interrupt that was taken and has returned: nothing but in the status
registers. -/
structure Same (st : Stack) (h k : Hart) : Prop where
  x : ∀ r ≠ 0, k.x r = h.x r
  pc : k.pc = h.pc
  mode : k.mode = h.mode
  stvec : k.stvec = h.stvec
  sie : k.sie = h.sie
  mask : k.sstatus.getLsbD sieBit = h.sstatus.getLsbD sieBit
  spp : spp h.sstatus = .user → spp k.sstatus = .user
  mem : ∀ a ∈ st.above (h.get sp).toNat, k.mem a = h.mem a

namespace Same

theorem refl (h : Hart) : Same st h h :=
  ⟨fun _ _ => rfl, rfl, rfl, rfl, rfl, rfl, id, fun _ _ => rfl⟩

theorem get (same : Same st h k) (r : Reg) : k.get r = h.get r := by
  rw [Hart.get, Hart.get, reg, reg]
  split
  · rfl
  · rename_i nonzero
    exact same.x r nonzero

theorem trans (first : Same st h k) (second : Same st k g) : Same st h g where
  x r nonzero := (second.x r nonzero).trans (first.x r nonzero)
  pc := second.pc.trans first.pc
  mode := second.mode.trans first.mode
  stvec := second.stvec.trans first.stvec
  sie := second.sie.trans first.sie
  mask := second.mask.trans first.mask
  spp user := second.spp (first.spp user)
  mem a mine := (second.mem a (first.get sp ▸ mine)).trans (first.mem a mine)

theorem put (same : Same st h k) (pc : Word) {r : Reg} (v : Word) (ne : sp ≠ r) :
    Same st (h.put pc (Function.update h.x r v) h.mem)
      (k.put pc (Function.update k.x r v) k.mem) where
  x q nonzero := by
    by_cases here : q = r
    · rw [here, Hart.put_x, Hart.put_x, Function.update_self, Function.update_self]
    · rw [Hart.put_x, Hart.put_x, Function.update_of_ne here,
        Function.update_of_ne here, same.x q nonzero]
  pc := rfl
  mode := same.mode
  stvec := same.stvec
  sie := same.sie
  mask := same.mask
  spp := same.spp
  mem a mine := by
    refine same.mem a ?_
    rwa [Hart.get_put, reg_update_of_ne ne] at mine

theorem writes (same : Same st h k) {r : Reg} (v : Word) (ne : sp ≠ r) :
    Same st (h.writes r v) (k.writes r v) := by
  rw [Hart.writes, Hart.writes, same.pc]
  exact same.put _ v ne

theorem loaded (same : Same st h k) {b n : Nat} (base : (h.get sp).toNat = b)
    (high : b + frameLen ≤ st.top)
    (small : n < 34) :    word k.mem b n = word h.mem b n := by
  subst base
  rw [frameLen] at high
  exact word_congr fun x low top => same.mem x (.inr ⟨by omega, by omega⟩)

end Same

/-- Interrupts with room for so many frames return to what they have interrupted. -/
def Quiet (l : Labels) (st : Stack) (d : Nat) (L : Hart → Hart → Prop) : Prop :=
  ∀ h c v k, h.mode = .supervisor → h.stvec = l.trapEntryK → st.Room d (h.get sp) →
    c = .timer ∨ c = .external →
    L (h.trap c v) k → Same st h k

/-- Where the hart is in code of the kernel that an interrupt may find it in. -/
structure Open (l : Labels) (st : Stack) (d : Nat) (h : Hart) : Prop where
  mode : h.mode = .supervisor
  stvec : h.stvec = l.trapEntryK
  room : st.Room d (h.get sp)

theorem Open.same (ready : Open l st d h) (same : Same st h k) : Open l st d k :=
  ⟨same.mode.trans ready.mode, same.stvec.trans ready.stvec, (same.get sp).symm ▸ ready.room⟩

/-- Interrupts may come before an instruction, and then it is carried out or faults. -/
theorem departed {i : Instr} (quiet : Quiet l st d L) (goes : Goes p L h z) (ready : Open l st d h)
    (here : p.code h.pc = some i) (away : z.pc ≠ h.pc) :
    ∃ g m, Same st h g ∧ (exec p.mmu g i = .next m ∨ ∃ c v,
      exec p.mmu g i = .fault c v ∧ L (g.trap c v) m) ∧
      Goes p L h m ∧ Goes p L m z := by
  refine goes.departs (Same.refl h) (fun k same => same.pc.symm ▸ here)
    (fun same => away same.pc) ?_
  intro k c m same interrupt level
  have ready' := ready.same same
  exact same.trans (quiet k c 0 m ready'.mode ready'.stvec ready'.room interrupt level)

/-- Interrupts may come before an instruction that does not fault. -/
theorem opened {i : Instr} (quiet : Quiet l st d L) (goes : Goes p L h z) (ready : Open l st d h)
    (here : p.code h.pc = some i) (away : z.pc ≠ h.pc)
    (safe : ∀ g, Same st h g → ∃ m, exec p.mmu g i = .next m) :
    ∃ g m, Same st h g ∧ exec p.mmu g i = .next m ∧ Goes p L m z := by
  obtain ⟨g, m, same, done | ⟨c, v, faults, -⟩, -, rest⟩ := departed quiet goes ready here away
  · exact ⟨g, m, same, done, rest⟩
  · obtain ⟨m', done⟩ := safe g same
    rw [done] at faults
    cases faults

/-- A run that ends at a `sret` goes on from anything else. -/
theorem away_of {i : Instr} (ends : p.code z.pc = some .sret)
    (here : p.code h.pc = some i) (ne : i ≠ .sret) :
    z.pc ≠ h.pc := by
  intro same
  rw [same, here] at ends
  exact ne (Option.some.inj ends)

theorem Open.writes (ready : Open l st d h) {r : Reg} (w : Word) (ne : sp ≠ r) :
    Open l st d (h.writes r w) := by
  refine ⟨ready.mode, ready.stvec, ?_⟩
  rw [Hart.get, Hart.writes, Hart.put_x, reg_update_of_ne ne]
  exact ready.room

/-- A word of the frame is loaded, with interrupts before it. -/
theorem opened_ld (usable : st.Usable p) (quiet : Quiet l st d L)
    (same : Same st h k) (goes : Goes p L k z)
    (ready : Open l st d h) {b n : Nat} {r : Reg} (here : p.code h.pc = some (.ld r (slot n) sp))
    (ends : p.code z.pc = some .sret) (base : (h.get sp).toNat = b) (low : st.base ≤ b)
    (high : b + frameLen ≤ st.top)
    (small : n < 34) (ne : sp ≠ r) : ∃ m, Goes p L m z ∧
      Same st (h.writes r (word h.mem b n)) m := by
  have loads : ∀ g, Same st h g → exec p.mmu g (.ld r (slot n) sp) = .next
    (g.writes r (word h.mem b n)) := by
    intro g same
    rw [← same.loaded base high small]
    exact exec_ld_frame usable (same.mode.trans ready.mode)
      ((congrArg _ (same.get sp)).trans base) low high small r
  obtain ⟨g, m, again, done, rest⟩ := opened quiet goes (ready.same same) (same.pc.symm ▸ here)
    (same.pc ▸ away_of ends here nofun) fun g again => ⟨_, loads g (same.trans again)⟩
  rw [loads g (same.trans again), Effect.next.injEq] at done
  subst done
  exact ⟨_, rest, (same.trans again).writes _ ne⟩

theorem opened_status (quiet : Quiet l st d L) (same : Same st h k) (goes : Goes p L k z)
    (ready : Open l st d h)
    (here : p.code h.pc = some (.csrw .sstatus t0)) (ends : p.code z.pc = some .sret) :
    ∃ g, Same st h g ∧ Goes p L { g with sstatus := g.get t0, pc := g.pc + 4 } z := by
  obtain ⟨g, m, again, done, rest⟩ := opened quiet goes (ready.same same) (same.pc.symm ▸ here)
    (same.pc ▸ away_of ends here nofun) fun g again =>
    ⟨_, exec_csrw ((same.trans again).mode.trans ready.mode)⟩
  obtain rfl := (privileged_next done).2
  exact ⟨g, same.trans again, rest⟩

theorem below_add (b : Word) : below b + BitVec.ofNat 64 frameLen = b := by
  rw [below, BitVec.add_assoc, BitVec.add_comm (-_), BitVec.add_right_neg, BitVec.add_zero]

section Exit

variable (usable : st.Usable p) (mode : h.mode = .supervisor) {b : Nat}
    (base : (h.get sp).toNat = b) (low : st.base ≤ b)
  (high : b + frameLen ≤ st.top)

include usable mode base low high

/-- The exit to the kernel restores the registers from the frame and takes the frame off the
stack. -/
theorem execs_exitK : ∃ pc x, execs p.mmu h (exitCodeK l) =
      some ({ h with sepc := h.get t1, stvec := l.trapEntryK }.put pc x h.mem) ∧
    (∀ r ≠ 0, r ≠ sp → x r = (frameAt h.mem b).x r) ∧ x sp =
    h.get sp + BitVec.ofNat 64 frameLen := by
  have first : execs p.mmu h [.csrw .sepc t1, .la t0 l.trapEntryK, .csrw .stvec t0] =
      some ((h.writesCsr .sepc (h.get t1)).vectors l.trapEntryK) := by
    rw [execs_csrw mode, execs_vectors (by exact mode)]
    rfl
  have stack : ((h.writesCsr .sepc (h.get t1)).vectors l.trapEntryK).get sp = h.get sp :=
    Hart.get_vectors_of_ne _ _ (by decide)
  obtain ⟨x, done, loaded, kept⟩ := execs_loads_frame
    (h := (h.writesCsr .sepc (h.get t1)).vectors l.trapEntryK) usable mode
    ((congrArg _ stack).trans base) low high
  have at_ : reg x sp = h.get sp := (reg_of_ne (by decide)).trans
    (kept.trans ((reg_of_ne (by decide)).symm.trans stack))
  refine ⟨h.pc + 4 + 4 + 4 + BitVec.ofNat 64 (4 * 30) + 4, Function.update x sp
    (h.get sp + BitVec.ofNat 64 frameLen), ?_, ?_, ?_⟩
  · rw [exitCodeK, execs_append, execs_append, first, Option.bind_some, done, Option.bind_some,
      execs_next (i := .addi sp sp (BitVec.ofNat 64 frameLen)) rfl, Hart.get_put, at_]
    rfl
  · intro r nonzero other
    rw [Function.update_of_ne other, loaded r nonzero other]
    rfl
  · exact Function.update_self ..

/-- The exit to user mode restores the registers from the frame, and leaves the stack without the
frame in `sscratch`. -/
theorem execs_exitU : ∃ pc x, execs p.mmu h (exitCodeU l) =
      some ({ h with sscratch := h.get sp + BitVec.ofNat 64 frameLen, stvec := l.trapEntryU }.put pc
        x h.mem) ∧
    (∀ r ≠ 0, r ≠ sp → x r = (frameAt h.mem b).x r) ∧ x sp = h.get t2 := by
  have first : execs p.mmu h [.csrw .sscratch t2, .la t0 l.trapEntryU, .csrw .stvec t0] =
      some ((h.writesCsr .sscratch (h.get t2)).vectors l.trapEntryU) := by
    rw [execs_csrw mode, execs_vectors (by exact mode)]
    rfl
  have stack : ((h.writesCsr .sscratch (h.get t2)).vectors l.trapEntryU).get sp = h.get sp :=
    Hart.get_vectors_of_ne _ _ (by decide)
  obtain ⟨x, done, loaded, kept⟩ := execs_loads_frame
    (h := (h.writesCsr .sscratch (h.get t2)).vectors l.trapEntryU) usable mode
    ((congrArg _ stack).trans base) low high
  have at_ : reg x sp = h.get sp := (reg_of_ne (by decide)).trans
    (kept.trans ((reg_of_ne (by decide)).symm.trans stack))
  refine ⟨h.pc + 4 + 4 + 4 + BitVec.ofNat 64 (4 * 30) + 4 + 4, Function.update (Function.update x sp
    (h.get sp + BitVec.ofNat 64 frameLen)) sp (h.get t2), ?_, ?_, ?_⟩
  · rw [exitCodeU, execs_append, execs_append, first, Option.bind_some, done, Option.bind_some,
      execs_next (i := .addi sp sp (BitVec.ofNat 64 frameLen)) rfl, Hart.get_put, at_,
      execs_next (exec_swaps (by exact mode)), Hart.swaps, Hart.get_writes_self _ _ (by decide)]
    rfl
  · intro r nonzero other
    rw [Function.update_of_ne other, Function.update_of_ne other, loaded r nonzero other]
    rfl
  · exact Function.update_self ..

end Exit

/-- The hart has gone on as a frame says, and what is above the frame is untouched. -/
structure Resumed (st : Stack) (f : Frame) (h k : Hart) : Prop where
  x : ∀ r ≠ 0, r ≠ sp → k.x r = f.x r
  pc : k.pc = f.sepc
  mode : k.mode = spp f.sstatus
  sstatus : k.sstatus = returned f.sstatus
  sie : k.sie = h.sie
  mem : ∀ a ∈ st.above (h.get sp).toNat, k.mem a = h.mem a

/-- The hart is back from the handler and has loaded the address to return to from the frame at
`b`. -/
structure Restored (l : Labels) (st : Stack) (b : Nat) (h k : Hart) : Prop where
  mode : k.mode = .supervisor
  stvec : k.stvec = l.trapEntryK
  sp : k.get sp = h.get sp
  sepc : k.get t1 = (frameAt h.mem b).sepc
  sie : k.sie = h.sie
  mem : ∀ a ∈ st.above b, k.mem a = h.mem a

theorem Restored.frame {b : Nat} (restored : Restored l st b h k)
    (high : b + frameLen ≤ st.top) {r : Reg} :
    (frameAt k.mem b).x r = (frameAt h.mem b).x r := by
  have small := r.isLt
  rw [frameLen] at high
  exact word_congr fun x low' high' => restored.mem x (.inr ⟨by omega, by omega⟩)

section Back

variable (usable : st.Usable p) (quiet : Quiet l st d L) (ends : p.code z.pc = some .sret)
    (ready : Open l st d h)
  {b : Nat} (base : (h.get sp).toNat = b) (high : b + frameLen ≤ st.top)

include usable quiet ends ready base high

/-- Status and address are loaded, with interrupts before. -/
theorem loaded (goes : Goes p L h z) (first : p.code h.pc = some (.ld t0 (slot 32) sp))
    (second : p.code (h.pc + 4) = some (.ld t1 (slot 33) sp)) :
    ∃ i k, Goes p L k z ∧ Same st i k ∧ Open l st d i ∧ i.pc = h.pc + 4 + 4 ∧
      i.mem = h.mem ∧ i.get sp = h.get sp ∧
      i.get t0 = (frameAt h.mem b).sstatus ∧ i.get t1 = (frameAt h.mem b).sepc ∧ i.sie = h.sie := by
  have low : st.base ≤ b := by
    have := ready.room.low
    omega
  have stack : (h.writes t0 (frameAt h.mem b).sstatus).get sp = h.get sp :=
    Hart.get_writes_of_ne _ _ (by decide)
  have status : (h.writes t0 (frameAt h.mem b).sstatus).get t0 = (frameAt h.mem b).sstatus :=
    Hart.get_writes_self _ _ (by decide)
  have ready' : Open l st d (h.writes t0 (frameAt h.mem b).sstatus) := ready.writes _ (by decide)
  obtain ⟨k, goes, same⟩ := opened_ld usable quiet (Same.refl h) goes ready first ends base low high
    (by decide) (by decide)
  obtain ⟨k', goes, same'⟩ := opened_ld usable quiet same goes ready' second ends
    ((congrArg _ stack).trans base) low high (by decide) (by decide)
  exact ⟨_, k', goes, same', ready'.writes _ (by decide), rfl, rfl,
    (Hart.get_writes_of_ne _ _ (by decide)).trans stack,
    (Hart.get_writes_of_ne _ _ (by decide)).trans status, Hart.get_writes_self _ _ (by decide), rfl⟩

theorem restoredK (serves : Serves l st p) (goes : Goes p L h z) (start : h.pc = l.afterCallK) :
    ∃ k, Goes p L k z ∧ Restored l st b h k ∧ k.sstatus = (frameAt h.mem b).sstatus ∧
      k.pc = l.afterCallK + 4 + 4 + 4 := by
  obtain ⟨-, -, ⟨first, second, third, -⟩, -⟩ := serves.kernel_pieces
  obtain ⟨i, k, goes, same, ready', pc, mem, stack, status, sepc, sie⟩ :=
    loaded usable quiet ends ready base high goes (by rw [start]; exact first)
      (by rw [start]; exact second)
  rw [start] at pc
  obtain ⟨g, same, goes⟩ := opened_status quiet same goes ready' (by rw [pc]; exact third) ends
  refine ⟨_, goes, ⟨same.mode.trans ready'.mode, same.stvec.trans ready'.stvec,
    (same.get sp).trans stack,
    (same.get t1).trans sepc, same.sie.trans sie, ?_⟩, (same.get t0).trans status, ?_⟩
  · intro a mine
    rw [← mem]
    exact same.mem a (by rwa [stack, base])
  · rw [← pc, ← same.pc]

theorem restoredU (serves : Serves l st p) (goes : Goes p L h z) (start : h.pc = l.afterCallU) :
    ∃ k, Goes p L k z ∧ Restored l st b h k ∧ k.sstatus = (frameAt h.mem b).sstatus ∧
      k.get t2 = (frameAt h.mem b).x sp ∧ k.pc = l.afterCallU + 4 + 4 + 4 + 4 := by
  obtain ⟨-, -, ⟨first, second, third, fourth, -, -⟩, -⟩ := serves.user_pieces
  have low : st.base ≤ b := by
    have := ready.room.low
    omega
  obtain ⟨i, k, goes, same, ready', pc, mem, stack, status, sepc, sie⟩ :=
    loaded usable quiet ends ready base high goes (by rw [start]; exact first)
      (by rw [start]; exact second)
  rw [start] at pc
  obtain ⟨k, goes, same⟩ := opened_ld usable quiet same goes ready' (by rw [pc]; exact third) ends
    ((congrArg _ stack).trans base) low high (by decide) (by decide)
  rw [mem] at same
  have ready'' : Open l st d (i.writes t2 (word h.mem b 2)) := ready'.writes _ (by decide)
  have pc' : (i.writes t2 (word h.mem b 2)).pc = l.afterCallU + 4 + 4 + 4 := by
    rw [Hart.writes_pc, pc]
  have others : ∀ r, r ≠ t2 → (i.writes t2 (word h.mem b 2)).get r = i.get r :=
    fun r ne => i.get_writes_of_ne _ ne
  obtain ⟨g, same, goes⟩ := opened_status quiet same goes ready'' (by rw [pc']; exact fourth) ends
  refine ⟨_, goes, ⟨same.mode.trans ready''.mode, same.stvec.trans ready''.stvec,
    ((same.get sp).trans (others sp (by decide))).trans stack,
    ((same.get t1).trans (others t1 (by decide))).trans sepc,
    same.sie.trans sie, ?_⟩, ((same.get t0).trans (others t0 (by decide))).trans status,
    (same.get t2).trans (Hart.get_writes_self _ _ (by decide)), ?_⟩
  · intro a mine
    exact (same.mem a (by rwa [others sp (by decide), stack, base])).trans (congrFun mem a)
  · rw [← pc', ← same.pc]

end Back

/-- From the handler to the end of a trap from the kernel. -/
theorem exitedK (serves : Serves l st p) (quiet : Quiet l st d L) (goes : Goes p L h z)
    (ends : p.code z.pc = some .sret)
    (start : h.pc = l.afterCallK) (ready : Open l st d h) {b : Nat} (base : (h.get sp).toNat = b)
    (high : b + frameLen ≤ st.top) (masked : (frameAt h.mem b).sstatus.getLsbD sieBit = false) :
    Resumed st (frameAt h.mem b) h z.sret ∧ z.sret.get sp = h.get sp + BitVec.ofNat 64 frameLen ∧
      z.sret.stvec = l.trapEntryK := by
  have low : st.base ≤ b := by
    have := ready.room.low
    omega
  obtain ⟨-, -, -, rest⟩ := serves.kernel_pieces
  obtain ⟨exit, sret, -⟩ := Placed.append.mp rest
  obtain ⟨k, goes, restored, status, at_⟩ :=
    restoredK serves.usable quiet ends ready base high serves goes start
  have shut : k.interruptible = false := Hart.interruptible_of_masked
    (status ▸ masked) restored.mode
  obtain ⟨pc, x, done, regs, top⟩ := execs_exitK (l := l) serves.usable restored.mode
    ((congrArg _ restored.sp).trans base)
    low high
  obtain ⟨goes, far⟩ := lined_masked goes ends (by rw [at_]; exact exit) straight_exitK shut done
  have there : pc = l.afterCallK + 4 + 4 + 4 + BitVec.ofNat 64 (4 * (exitCodeK l).length) := by
    rw [← at_]
    exact far
  have still := (execs_straight straight_exitK done).2.trans shut
  obtain rfl := goes.stops (by rw [Hart.put_pc, there]; exact sret) restored.mode (.of_masked still)
  refine ⟨⟨fun r nonzero other => (regs r nonzero other).trans (restored.frame high), restored.sepc,
    congrArg spp status, congrArg returned status, restored.sie, ?_⟩, ?_, rfl⟩
  · intro a mine
    exact restored.mem a (base ▸ mine)
  · rw [← restored.sp]
    exact (reg_of_ne (by decide)).trans top

/-- From where `trap_exit_u` has written the address to return to, to the end of a trap from user
mode. -/
theorem exitedU (serves : Serves l st p) (ends : p.code z.pc = some .sret) {b : Nat}
    (base : (h.get sp).toNat = b)
    (low : st.base ≤ b) (high : b + frameLen ≤ st.top) (restored : Restored l st b h k)
    (user : k.get t2 = (frameAt h.mem b).x sp) (start : k.pc = l.afterCallU + 4 + 4 + 4 + 4)
    (goes : Goes p L (k.writesCsr .sepc (k.get t1)) z)
    (calm : ∀ g n, n ≤ (exitCodeU l).length → g.pc = k.pc + 4 + BitVec.ofNat 64 (4 * n) →
      g.interruptible = k.interruptible → Calm L g) :
    Resumed st { frameAt h.mem b with sstatus := k.sstatus } h z.sret ∧
    z.sret.get sp = (frameAt h.mem b).x sp ∧
      z.sret.sscratch = h.get sp + BitVec.ofNat 64 frameLen ∧ z.sret.stvec = l.trapEntryU := by
  obtain ⟨-, -, -, rest⟩ := serves.user_pieces
  obtain ⟨exit, sret, -⟩ := Placed.append.mp rest
  have pc' : (k.writesCsr .sepc (k.get t1)).pc = l.afterCallU + 4 + 4 + 4 + 4 + 4 := by
    rw [← start]
    rfl
  have stack : (k.writesCsr .sepc (k.get t1)).get sp = h.get sp := restored.sp
  obtain ⟨pc, x, done, regs, top⟩ := execs_exitU (l := l)
    (h := k.writesCsr .sepc (k.get t1)) serves.usable restored.mode
    ((congrArg _ stack).trans base) low high
  obtain ⟨goes, far⟩ := lined goes ends (by rw [pc']; exact exit) straight_exitU
    (fun g n small at_ same => calm g n (Nat.le_of_lt small) at_ same) done
  have there : pc = l.afterCallU + 4 + 4 + 4 + 4 + 4 + BitVec.ofNat 64
    (4 * (exitCodeU l).length) := by
    rw [← pc']
    exact far
  have still := (execs_straight straight_exitU done).2
  obtain rfl := goes.stops (by rw [Hart.put_pc, there]; exact sret) restored.mode
    (calm _ _ le_rfl (by rw [Hart.put_pc, there, start]) still)
  refine ⟨⟨fun r nonzero other => (regs r nonzero other).trans (restored.frame high),
    restored.sepc, rfl, rfl, restored.sie, fun a mine => restored.mem a (base ▸ mine)⟩, ?_, ?_, rfl⟩
  · exact (reg_of_ne (by decide)).trans (top.trans user)
  · exact congrArg (· + _) stack

theorem Stack.Room.entry {b : Word} (room : st.Room (d + 1) b) :
    st.base + st.need + frameLen ≤ b.toNat ∧ st.Room d (below b) ∧
      (below b).toNat + frameLen ≤ st.top := by
  obtain ⟨low, high⟩ := room
  rw [Nat.succ_mul] at low
  have far : (below b).toNat = b.toNat - frameLen := toNat_below (by omega)
  exact ⟨by omega, ⟨by omega, by omega⟩, by omega⟩

/-- How a trap ends: with what the handler has made of the frame that the trapped hart was put
into. -/
structure Answered (l : Labels) (st : Stack) (b : Word) (c : Cause) (v : Word) (f f' : Frame)
    (h k : Hart) : Prop where
  holds : Holds f (h.trap c v)
  served : ∃ id, trapHandler l id c f = .returns f'
  x : ∀ r ≠ 0, r ≠ sp → k.x r = f'.x r
  pc : k.pc = f'.sepc
  mode : k.mode = h.mode
  sstatus : k.sstatus = returned (entered h.mode h.sstatus)
  sie : k.sie = h.sie
  mem : ∀ a ∈ st.above b.toNat, k.mem a = h.mem a

theorem Resumed.answered {b : Word} {f f' : Frame} {id : Nat} (resumed : Resumed st f' g k)
    (came : Entered l st b h g)
    (holds : Holds f (h.trap c v)) (served : trapHandler l id c f = .returns f')
    (room : st.Room (d + 1) b) :
    Answered l st b c v f f' h k := by
  have status : f'.sstatus = entered h.mode h.sstatus :=
    (trapHandler_sstatus served).trans holds.sstatus
  have far : (below b).toNat = b.toNat - frameLen := toNat_below (by have := room.entry.1; omega)
  refine ⟨holds, ⟨id, served⟩, resumed.x, resumed.pc, ?_, ?_, resumed.sie.trans came.sie, ?_⟩
  · rw [resumed.mode, status, spp_entered]
  · rw [resumed.sstatus, status]
  · intro a mine
    refine (resumed.mem a ?_).trans (came.mem a mine)
    rw [came.sp]
    exact mine.imp_right fun inside => ⟨by omega, inside.2⟩

/-- A trap through the kernel's entry, whatever nests in it. -/
theorem answeredK (serves : Serves l st p) (quiet : Quiet l st d (Level p d))
    (stvec : h.stvec = l.trapEntryK)
    (room : st.Room (d + 1) (h.get sp)) (level : Level p (d + 1) (h.trap c v) k) :
    ∃ f f', Answered l st (h.get sp) c v f f' h k ∧ k.get sp = h.get sp ∧
      k.stvec = l.trapEntryK := by
  obtain ⟨low, room', high⟩ := room.entry
  obtain ⟨z, goes, ends, done⟩ := level
  obtain rfl := (privileged_next done).2
  obtain ⟨g, id, f, goes, start, holds, served, entered⟩ :=
    enteredK serves goes ends stvec low room.high
  have masked : (frameAt g.mem (below (h.get sp)).toNat).sstatus.getLsbD sieBit = false := by
    rw [trapHandler_sstatus served, holds.sstatus]
    exact sie_entered _ _
  obtain ⟨resumed, stack, vec⟩ := exitedK serves quiet goes ends start
    ⟨entered.mode, entered.stvec, entered.sp.symm ▸ room'⟩
    (congrArg _ entered.sp) high masked
  refine ⟨f, _, resumed.answered entered holds served room, ?_, vec⟩
  rw [stack, entered.sp, below_add]

/-- A trap through the user's entry, whatever nests in it. -/
theorem answeredU (serves : Serves l st p) (quiet : Quiet l st d (Level p d))
    (stvec : h.stvec = l.trapEntryU)
    (room : st.Room (d + 1) h.sscratch) (level : Level p (d + 1) (h.trap c v) k) :
    ∃ f f', Answered l st h.sscratch c v f f' h k ∧ f.x sp = h.get sp ∧ k.get sp = f'.x sp ∧
      k.sscratch = h.sscratch ∧
      k.stvec = l.trapEntryU := by
  obtain ⟨low, room', high⟩ := room.entry
  obtain ⟨z, goes, ends, done⟩ := level
  obtain rfl := (privileged_next done).2
  obtain ⟨g, id, f, goes, start, holds, user, served, entered⟩ :=
    enteredU serves goes ends stvec low room.high
  have masked : (frameAt g.mem (below h.sscratch).toNat).sstatus.getLsbD sieBit = false := by
    rw [trapHandler_sstatus served, holds.sstatus]
    exact sie_entered _ _
  have ready : Open l st d g := ⟨entered.mode, entered.stvec, entered.sp.symm ▸ room'⟩
  have base : (g.get sp).toNat = (below h.sscratch).toNat := congrArg _ entered.sp
  obtain ⟨k, goes, restored, status, mine, at_⟩ :=
    restoredU serves.usable quiet ends ready base high serves goes start
  have shut : k.interruptible = false := Hart.interruptible_of_masked
    (status ▸ masked) restored.mode
  obtain ⟨-, -, ⟨-, -, -, -, exit, -⟩, -⟩ := serves.user_pieces
  have here : p.code k.pc = some (.csrw .sepc t1) := by rw [at_]; exact exit
  have goes := goes.next (away_of ends here nofun) here (.of_masked shut) (exec_csrw restored.mode)
  obtain ⟨resumed, stack, scratch, vec⟩ :=
    exitedU serves ends base (by have := room'.low; omega) high restored mine at_ goes
    fun _ _ _ _ same => .of_masked (same.trans shut)
  rw [status] at resumed
  refine ⟨f, _, resumed.answered entered holds served room, user, stack, ?_, vec⟩
  rw [scratch, entered.sp, below_add]

/-- An interrupt in the kernel is not seen by the code that it interrupts, however many more come
before it is done. -/
theorem quiet_level (serves : Serves l st p) (d : Nat) : Quiet l st d (Level p d) := by
  induction d with
  | zero => exact fun _ _ _ _ _ _ _ _ level => level.elim
  | succ d ih =>
    intro h c v k mode stvec room interrupt level
    obtain ⟨f, f', answered, stack, vec⟩ := answeredK serves ih stvec room level
    obtain ⟨holds, ⟨id, served⟩, x, pc, mode', status, sie, mem⟩ := answered
    obtain rfl := trapHandler_interrupt interrupt served
    refine ⟨?_, pc.trans holds.sepc, mode', vec.trans stvec.symm, sie, ?_, fun _ => ?_, mem⟩
    · intro r nonzero
      by_cases here : r = sp
      · rw [here]
        exact (reg_of_ne (by decide)).symm.trans (stack.trans (reg_of_ne (by decide)))
      · exact (x r nonzero here).trans (holds.x r nonzero here)
    · rw [status, sie_returned_entered]
    · rw [status, spp_returned]

end Tacos.Trap
