/- GID: Tacos/Mem/UserBuf
   generality: I
   source: src/mem/userbuf.rs, src/trap/pagefault.rs
   digest: Bytes are copied from and to user memory, and a fault on the way is an error and not a
     panic. -/

import Tacos.Fs.Base
import Tacos.Trap.Traps

set_option autoImplicit false
set_option relaxedAutoImplicit false

namespace Tacos.Mem.UserBuf

open Tacos.Lib.Bytes Tacos.Lib.Riscv Tacos.Trap
open Tacos.Fs (inKernelSpace OsError)

variable {l : Labels} {st : Stack} {p : Platform} {h k g z : Hart} {d : Nat}
    {c : Cause} {v : Word} {f : Frame}
  {L : Hart → Hart → Prop} {i : Instr}

/-- `__knrl_read_usr_byte`. -/
def knrlReadUsrByte : List Instr := [.mv t1 a1, .li a1 0, .lb t0 0 a0, .sb t0 0 t1, .mv a0 a1, .ret]

/-- `__knrl_write_usr_byte`. -/
def knrlWriteUsrByte : List Instr := [.mv t1 a1, .li a1 0, .sb t1 0 a0, .mv a0 a1, .ret]

/-- `read_user_byte`; `call` is the status and the byte that a call of `__knrl_read_usr_byte`
leaves. -/
def readUserByte (userSrc : Nat) (call : UInt8 × UInt8) : Except OsError UInt8 :=
  if inKernelSpace userSrc then .error .badPtr
  else
    let (retStatus, byte) := call
    if retStatus = 0 then .ok byte else .error .badPtr

/-- `write_user_byte`. -/
def writeUserByte (userSrc : Nat) (retStatus : UInt8) : Except OsError Unit :=
  if inKernelSpace userSrc then .error .badPtr
  else if retStatus = 0 then .ok () else .error .badPtr

/-- The platform has the code. -/
structure Copies (l : Labels) (p : Platform) : Prop where
  read : Placed p.code l.knrlReadUsrByte UserBuf.knrlReadUsrByte
  write : Placed p.code l.knrlWriteUsrByte UserBuf.knrlWriteUsrByte

/-- From a hart that is seen as the first, runs that do not end at these addresses come past one
that is seen as the second, and some run does. -/
structure Leads (l : Labels) (st : Stack) (p : Platform) (L : Hart → Hart → Prop)
    (pcs : List Word) (g g' : Hart) :
    Prop where
  must : ∀ k z, Same st g k → Goes p L k z → z.pc ∉ pcs →
    ∃ m, Goes p L k m ∧ Goes p L m z ∧ Same st g' m
  may : Answers l p → ∀ k, Same st g k → ∃ m, Goes p L k m ∧ Same st g' m

theorem Leads.trans {ps qs : List Word} {g' g'' : Hart} (first : Leads l st p L ps g g')
    (second : Leads l st p L qs g' g'') : Leads l st p L (ps ++ qs) g g'' := by
  constructor
  · intro k z same goes out
    obtain ⟨early, late⟩ := not_or.mp (mt List.mem_append.mpr out)
    obtain ⟨m, before, after, same'⟩ := first.must k z same goes early
    obtain ⟨n, between, after', same''⟩ := second.must m z same' after late
    exact ⟨n, before.trans between, after', same''⟩
  · intro answers k same
    obtain ⟨m, before, same'⟩ := first.may answers k same
    obtain ⟨n, between, same''⟩ := second.may answers m same'
    exact ⟨n, before.trans between, same''⟩

theorem Leads.of_moves (quiet : Quiet l st d L) (ready : Open l st d g)
    (here : p.code g.pc = some i) (ne : i ≠ .sret)
    {g' : Hart} (moves : ∀ k, Same st g k → ∃ m, exec p.mmu k i = .next m ∧ Same st g' m) :
    Leads l st p L [g.pc] g g' := by
  constructor
  · intro k z same goes away
    obtain ⟨j, m, again, how, there, rest⟩ :=
      departed quiet goes (ready.same same) (same.pc.symm ▸ here)
      (same.pc.symm ▸ fun e => away (List.mem_singleton.mpr e))
    obtain ⟨m', done, seen⟩ := moves j (same.trans again)
    obtain done' | ⟨c, v, faults, -⟩ := how
    · obtain rfl := Effect.next.inj (done.symm.trans done')
      exact ⟨m', there, rest, seen⟩
    · rw [done] at faults
      cases faults
  · intro _ k same
    obtain ⟨m, done, seen⟩ := moves k same
    exact ⟨m, .single (.exec (same.pc.symm ▸ here) ne done), seen⟩

theorem moves_mv {rd rs : Reg} (ne : sp ≠ rd) (k : Hart) (same : Same st g k) :
    ∃ m, exec p.mmu k (.mv rd rs) = .next m ∧ Same st (g.writes rd (g.get rs)) m := by
  refine ⟨_, exec_mv, ?_⟩
  rw [same.get]
  exact same.writes _ ne

theorem moves_li {rd : Reg} {w : Word} (ne : sp ≠ rd) (k : Hart) (same : Same st g k) :
    ∃ m, exec p.mmu k (.li rd w) = .next m ∧ Same st (g.writes rd w) m := ⟨_, rfl, same.writes _ ne⟩

theorem moves_ret (k : Hart) (same : Same st g k) :
    ∃ m, exec p.mmu k .ret = .next m ∧ Same st (g.put (g.get ra) g.x g.mem) m := by
  refine ⟨_, rfl, same.x, same.get ra, same.mode, same.stvec, same.sie,
    same.mask, same.spp, same.mem⟩

theorem access_byte {mmu : Mmu} {kind : Access} {a : Word} {done : Hart} :
    access mmu h kind a 1 c done = if mmu kind h.mode a.toNat =
      true then .next done else .fault c a := by
  simp [access]

/-- The byte of memory that `lb` leaves in the low byte of a register. -/
theorem byte_loaded {m : Mem} {a : Nat} :
    UInt8.ofNat ((BitVec.ofNat 8 (loadLE m a 1)).signExtend 64).toNat = m a := by
  have low : ∀ n : Nat, UInt8.ofNat ((BitVec.ofNat 8 n).signExtend 64).toNat = UInt8.ofNat n := by
    intro n
    refine UInt8.toNat_inj.mp ?_
    rw [UInt8.toNat_ofNat', UInt8.toNat_ofNat', BitVec.toNat_signExtend,
      BitVec.toNat_setWidth, BitVec.toNat_ofNat]
    split
    · omega
    · omega
  rw [low]
  simp [loadLE]

/-- A byte of memory that the thread has to itself is loaded. -/
theorem moves_lb {rd base : Reg} (ne : sp ≠ rd) (mode : g.mode = .supervisor)
    (mapped : p.mmu .read .supervisor (g.get base).toNat = true)
    (mine : (g.get base).toNat ∈ st.above (g.get sp).toNat)
    (k : Hart) (same : Same st g k) : ∃ m, exec p.mmu k (.lb rd 0 base) = .next m ∧
      Same st (g.writes rd ((BitVec.ofNat 8 (loadLE g.mem (g.get base).toNat 1)).signExtend 64))
        m := by
  have byte : loadLE k.mem (g.get base).toNat 1 = loadLE g.mem (g.get base).toNat 1 := by
    refine loadLE_congr fun x low high => ?_
    obtain rfl : x = (g.get base).toNat := by omega
    exact same.mem _ mine
  rw [exec, word_add_zero, access_byte, same.get, byte,
    if_pos (by rw [same.mode, mode]; exact mapped)]
  exact ⟨_, rfl, same.writes _ ne⟩

theorem Same.stores (same : Same st g k) (a n w : Nat) :
    Same st (g.stores (storeLE g.mem a n w)) (k.stores (storeLE k.mem a n w)) where
  x := same.x
  pc := congrArg (· + 4) same.pc
  mode := same.mode
  stvec := same.stvec
  sie := same.sie
  mask := same.mask
  spp := same.spp
  mem x mine := storeLE_agree (same.mem x mine)

theorem moves_sb {src base : Reg} (mode : g.mode = .supervisor)
    (mapped : p.mmu .write .supervisor (g.get base).toNat = true) (k : Hart) (same : Same st g k) :
    ∃ m, exec p.mmu k (.sb src 0 base) = .next m ∧
      Same st (g.stores (storeLE g.mem (g.get base).toNat 1 (g.get src).toNat)) m := by
  rw [exec, word_add_zero, access_byte, same.get, same.get,
    if_pos (by rw [same.mode, mode]; exact mapped)]
  exact ⟨_, rfl, Same.stores same ..⟩

/-- A fault that the handler fixes up: the hart goes on at the exit, with `a1` set. -/
theorem fixed_up (serves : Serves l st p) (ready : Open l st (d + 1) g) {e : Word}
    (fix : ∀ f : Frame, spp f.sstatus = .supervisor → f.sepc = g.pc →
      ∀ id, trapHandler l id c f = .returns { f with x := Function.update f.x a1 1, sepc := e })
    (level : Level p (d + 1) (g.trap c v) k) :
    Same st (g.put e (Function.update g.x a1 1) g.mem) k := by
  obtain ⟨f, f', answered, stack, vec⟩ := answeredK serves
    (quiet_level serves d) ready.stvec ready.room level
  obtain ⟨holds, ⟨id, served⟩, x, pc, mode, status, sie, mem⟩ := answered
  have from_ : spp f.sstatus = .supervisor := by
    rw [holds.sstatus]
    exact (spp_entered _ _).trans ready.mode
  obtain rfl := Served.returns.inj ((fix f from_ holds.sepc id).symm.trans served)
  refine ⟨?_, pc, mode, vec.trans ready.stvec.symm, sie, ?_, fun _ => ?_, ?_⟩
  · intro r nonzero
    change k.x r = Function.update g.x a1 1 r
    by_cases here : r = sp
    · rw [here, Function.update_of_ne (by decide)]
      exact (reg_of_ne (by decide)).symm.trans (stack.trans (reg_of_ne (by decide)))
    · rw [x r nonzero here]
      change Function.update f.x a1 1 r = _
      by_cases first : r = a1
      · rw [first, Function.update_self, Function.update_self]
      · rw [Function.update_of_ne first, Function.update_of_ne first]
        exact holds.x r nonzero here
  · rw [status, sie_returned_entered]
    rfl
  · rw [status, spp_returned]
  · intro a mine
    refine mem a ?_
    rwa [Hart.get_put, reg_update_of_ne (by decide)] at mine

theorem Leads.of_faults (serves : Serves l st p) (ready : Open l st (d + 1) g)
    (here : p.code g.pc = some i) {e : Word}
    (faults : ∀ k, Same st g k → ∃ v, exec p.mmu k i = .fault c v)
    (fix : ∀ f : Frame, spp f.sstatus = .supervisor → f.sepc = g.pc →
      ∀ id, trapHandler l id c f = .returns { f with x := Function.update f.x a1 1, sepc := e }) :
    Leads l st p (Level p (d + 1)) [g.pc] g (g.put e (Function.update g.x a1 1) g.mem) := by
  have fixed : ∀ k v m, Same st g k → Level p (d + 1) (k.trap c v) m →
      Same st (g.put e (Function.update g.x a1 1) g.mem) m := fun k v m same level =>
    (same.put e 1 (by decide)).trans
      (fixed_up serves (ready.same same) (fun f from_ at_ => fix f from_ (at_.trans same.pc)) level)
  constructor
  · intro k z same goes away
    obtain ⟨j, m, again, how, there, rest⟩ :=
      departed (quiet_level serves (d + 1)) goes (ready.same same)
      (same.pc.symm ▸ here) (same.pc.symm ▸ fun e => away (List.mem_singleton.mpr e))
    obtain ⟨v, faulted⟩ := faults j (same.trans again)
    obtain done | ⟨c', v', faulted', level⟩ := how
    · rw [faulted] at done
      cases done
    · rw [faulted, Effect.fault.injEq] at faulted'
      obtain ⟨rfl, rfl⟩ := faulted'
      exact ⟨m, there, rest, fixed j v m (same.trans again) level⟩
  · intro answers k same
    have ready' := ready.same same
    obtain ⟨v, faulted⟩ := faults k same
    obtain ⟨m, level⟩ := returnsK (v := v) serves answers (fun f holds => ⟨0, _, fix f
      (by rw [holds.sstatus]; exact (spp_entered _ _).trans ready'.mode)
      (holds.sepc.trans same.pc) 0⟩)
      ready'.stvec ready'.room
    exact ⟨m, .single (.trap (.fault (same.pc.symm ▸ here) faulted) level), fixed k v m same level⟩

/-- What a call leaves: the status in `a0`, and everything but scratch registers and one byte as
it was. -/
structure Copied (st : Stack) (dst : Nat) (status : Word) (h k : Hart) : Prop where
  pc : k.pc = h.get ra
  status : k.get a0 = status
  x : ∀ r ≠ 0, r ∉ [t0, t1, a0, a1] → k.x r = h.x r
  mode : k.mode = h.mode
  stvec : k.stvec = h.stvec
  mask : k.sstatus.getLsbD sieBit = h.sstatus.getLsbD sieBit
  mem : ∀ a ∈ st.above (h.get sp).toNat, a ≠ dst → k.mem a = h.mem a

theorem Open.put (ready : Open l st d h) {pc : Word} {x : Reg → Word} {m : Mem}
    (stack : x sp = h.x sp) :
    Open l st d (h.put pc x m) :=
  ⟨ready.mode, ready.stvec, by rw [Hart.get_put, reg_of_ne (by decide), stack]; exact ready.room⟩

/-- The registers after `mv t1, a1` and `li a1, 0`. -/
def started (h : Hart) : Reg → Word := Function.update (Function.update h.x t1 (h.get a1)) a1 0

theorem started_t1 (h : Hart) : started h t1 = h.get a1 := by
  rw [started, Function.update_of_ne (by decide), Function.update_self]

theorem started_a1 (h : Hart) : started h a1 = 0 := Function.update_self ..

theorem started_of_ne (h : Hart) {r : Reg} (first : r ≠ t1) (second : r ≠ a1) :
    started h r = h.x r := by
  rw [started, Function.update_of_ne second, Function.update_of_ne first]

theorem get_started_of_ne (h : Hart) {r : Reg} (first : r ≠ t1) (second : r ≠ a1) :
    reg (started h) r = h.get r := by
  rw [reg, started_of_ne h first second]
  rfl

/-- The registers after `mv a0, a1`. -/
def ended (x : Reg → Word) : Reg → Word := Function.update x a0 (x a1)

theorem ended_a0 (x : Reg → Word) : ended x a0 = x a1 := Function.update_self ..

theorem ended_of_ne (x : Reg → Word) {r : Reg} (ne : r ≠ a0) : ended x r = x r :=
  Function.update_of_ne ne ..

theorem leads_start (quiet : Quiet l st d L) (ready : Open l st d h)
    (first : p.code h.pc = some (.mv t1 a1))
    (second : p.code (h.pc + 4) = some (.li a1 0)) :
    Leads l st p L [h.pc, h.pc + 4] h (h.put (h.pc + 4 + 4) (started h) h.mem) := by
  have moved : Leads l st p L [h.pc] h (h.writes t1 (h.get a1)) :=
    Leads.of_moves quiet ready first nofun (moves_mv (by decide))
  have ready' : Open l st d (h.writes t1 (h.get a1)) := ready.writes _ (by decide)
  exact moved.trans
    (Leads.of_moves (i := .li a1 0) quiet ready' second nofun (moves_li (by decide)))

theorem leads_end (quiet : Quiet l st d L) (ready : Open l st d g)
    (first : p.code g.pc = some (.mv a0 a1))
    (second : p.code (g.pc + 4) = some .ret) :
    Leads l st p L [g.pc, g.pc + 4] g
      (g.put (g.get ra) (ended g.x) g.mem) := by
  have moved : Leads l st p L [g.pc] g (g.writes a0 (g.get a1)) :=
    Leads.of_moves quiet ready first nofun (moves_mv (by decide))
  have ready' : Open l st d (g.writes a0 (g.get a1)) := ready.writes _ (by decide)
  have returned := Leads.of_moves (i := .ret) quiet ready' second nofun moves_ret
  rw [Hart.get_writes_of_ne _ _ (by decide)] at returned
  exact moved.trans returned

/-- The byte that is loaded, or the fault that is fixed up. -/
theorem leads_lb (serves : Serves l st p) (ready : Open l st (d + 1) g)
    (here : p.code g.pc = some (.lb t0 0 a0))
    (at_ : g.pc = l.knrlReadUsrBytePc)
    (own : p.mmu .read .supervisor (g.get a0).toNat = true →
      (g.get a0).toNat ∈ st.above (g.get sp).toNat) :
    ∃ x, Leads l st p (Level p (d + 1)) [g.pc] g (g.put (g.pc + 4) x g.mem) ∧
      (∀ r, r ≠ t0 → r ≠ a1 → x r = g.x r) ∧
      (p.mmu .read .supervisor (g.get a0).toNat = true →
        UInt8.ofNat (x t0).toNat = g.mem (g.get a0).toNat ∧ x a1 = g.x a1) ∧
      (p.mmu .read .supervisor (g.get a0).toNat = false → x a1 = 1) := by
  cases mapped : p.mmu .read .supervisor (g.get a0).toNat with
  | true =>
    refine ⟨_, Leads.of_moves (quiet_level serves (d + 1)) ready here nofun
      (moves_lb (by decide) ready.mode mapped (own mapped)), ?_, fun _ => ⟨?_, ?_⟩, nofun⟩
    · intro r first _
      exact Function.update_of_ne first ..
    · rw [Function.update_self]
      exact byte_loaded
    · exact Function.update_of_ne (by decide) ..
  | false =>
    refine ⟨Function.update g.x a1 1, ?_, ?_, nofun, fun _ => Function.update_self ..⟩
    · have exit : g.pc + 4 = l.knrlReadUsrExit := by
        rw [at_, Labels.knrlReadUsrBytePc, Labels.knrlReadUsrExit, BitVec.add_assoc]
        rfl
      rw [exit]
      refine Leads.of_faults (c := .loadFault) serves ready here ?_ ?_
      · intro k same
        refine ⟨k.get a0 + 0, ?_⟩
        rw [exec, word_add_zero, access_byte, same.get, same.mode, ready.mode, mapped,
          if_neg Bool.false_ne_true]
      · intro f from_ fault id
        rw [trapHandler, pagefaultHandler, from_]
        exact if_pos (fault.trans at_)
    · intro r _ second
      exact Function.update_of_ne second ..

/-- The byte that is stored, or the fault that is fixed up. -/
theorem leads_sb (serves : Serves l st p) (ready : Open l st (d + 1) g)
    (here : p.code g.pc = some (.sb t1 0 a0))
    (at_ : g.pc = l.knrlWriteUsrBytePc) (apart : l.knrlWriteUsrBytePc ≠ l.knrlReadUsrBytePc) :
    ∃ x m, Leads l st p (Level p (d + 1)) [g.pc] g (g.put (g.pc + 4) x m) ∧
      (∀ r, r ≠ a1 → x r = g.x r) ∧
      (p.mmu .write .supervisor (g.get a0).toNat = true →
        m = storeLE g.mem (g.get a0).toNat 1 (g.get t1).toNat ∧ x a1 = g.x a1) ∧
      (p.mmu .write .supervisor (g.get a0).toNat = false → m = g.mem ∧ x a1 = 1) := by
  cases mapped : p.mmu .write .supervisor (g.get a0).toNat with
  | true =>
    exact ⟨g.x, _, Leads.of_moves (quiet_level serves (d + 1)) ready here nofun
      (moves_sb ready.mode mapped),
      fun _ _ => rfl, fun _ => ⟨rfl, rfl⟩, nofun⟩
  | false =>
    refine ⟨Function.update g.x a1 1, g.mem, ?_, ?_, nofun, fun _ => ⟨rfl, Function.update_self ..⟩⟩
    · have exit : g.pc + 4 = l.knrlWriteUsrExit := by
        rw [at_, Labels.knrlWriteUsrBytePc, Labels.knrlWriteUsrExit, BitVec.add_assoc]
        rfl
      rw [exit]
      refine Leads.of_faults (c := .storeFault) serves ready here ?_ ?_
      · intro k same
        refine ⟨k.get a0 + 0, ?_⟩
        rw [exec, word_add_zero, access_byte, same.get, same.mode, ready.mode, mapped,
          if_neg Bool.false_ne_true]
      · intro f from_ fault id
        rw [trapHandler, pagefaultHandler, from_]
        have here' := fault.trans at_
        change (if f.sepc = l.knrlReadUsrBytePc then _ else if f.sepc =
          l.knrlWriteUsrBytePc then _ else _) = _
        rw [if_neg (by rw [here']; exact apart), if_pos here']
    · intro r other
      exact Function.update_of_ne other ..

/-- The addresses of code from one on. -/
def span : Word → Nat → List Word
  | _, 0 => []
  | a, n + 1 => a :: span (a + 4) n

theorem Leads.returns {pcs : List Word} (leads : Leads l st p L pcs h g) :
    (∀ z, Goes p L h z → z.pc ∉ pcs → ∃ k, Goes p L h k ∧ Goes p L k z ∧ Same st g k) ∧
      (Answers l p → ∃ k, Goes p L h k ∧ Same st g k) :=
  ⟨fun z goes out => leads.must h z (.refl h) goes out,
    fun answers => leads.may answers h (.refl h)⟩

/-- What `read_user_byte` makes of a call of `__knrl_read_usr_byte`. -/
def ReadsUserByte (st : Stack) (p : Platform) (h k : Hart) : Prop :=
  ∃ status, Copied st (h.get a1).toNat status h k ∧
    readUserByte (h.get a0).toNat (UInt8.ofNat status.toNat, k.mem (h.get a1).toNat) =
      if p.mmu .read .supervisor (h.get a0).toNat then .ok
        (h.mem (h.get a0).toNat) else .error .badPtr

/-- Reading a byte from user memory gives the byte, or an error if the memory cannot be read, and
changes nothing else: a run is in the call, or has come past its return; and the call returns. -/
theorem read_user_byte (serves : Serves l st p) (copies : Copies l p) (ready : Open l st (d + 1) h)
    (start : h.pc = l.knrlReadUsrByte) (user : ¬inKernelSpace (h.get a0).toNat)
    (own : p.mmu .read .supervisor (h.get a0).toNat = true →
      (h.get a0).toNat ∈ st.above (h.get sp).toNat)
    (low : (h.get sp).toNat ≤ (h.get a1).toNat) (high : (h.get a1).toNat < st.top) :
    (∀ z, Goes p (Level p (d + 1)) h z → z.pc ∉ span l.knrlReadUsrByte 6 →
      ∃ k, Goes p (Level p (d + 1)) h k ∧ Goes p (Level p (d + 1)) k z ∧ ReadsUserByte st p h k) ∧
    (Answers l p → ∃ k, Goes p (Level p (d + 1)) h k ∧ ReadsUserByte st p h k) := by
  obtain ⟨c₀, c₁, c₂, c₃, c₄, c₅, -⟩ := copies.read
  rw [← start] at c₀ c₁ c₂ c₃ c₄ c₅
  have quiet := quiet_level serves (d + 1)
  have first := leads_start quiet ready c₀ c₁
  have kept₁ : ∀ r, r ≠ t1 → r ≠ a1 → started h r = h.x r :=
    fun r first second => started_of_ne h first second
  have stack₁ : reg (started h) sp = h.get sp := get_started_of_ne h (by decide) (by decide)
  have src : reg (started h) a0 = h.get a0 := get_started_of_ne h (by decide) (by decide)
  have at_ : h.pc + 4 + 4 = l.knrlReadUsrBytePc := by
    rw [start, Labels.knrlReadUsrBytePc, BitVec.add_assoc]
    rfl
  have ready₁ : Open l st (d + 1) (h.put (h.pc + 4 + 4) (started h) h.mem) :=
    Open.put ready (kept₁ sp (by decide) (by decide))
  obtain ⟨x₂, second, kept₂, loaded, faulted⟩ := leads_lb serves ready₁ c₂ at_ (by
    rw [Hart.get_put, Hart.get_put, src, stack₁]
    exact own)
  rw [Hart.get_put, src] at loaded faulted
  have ready₂ : Open l st (d + 1) (h.put (h.pc + 4 + 4 + 4) x₂ h.mem) :=
    Open.put ready₁ (kept₂ sp (by decide) (by decide))
  have ptr₂ : reg x₂ t1 = h.get a1 := (reg_of_ne (by decide)).trans
    ((kept₂ t1 (by decide) (by decide)).trans (started_t1 h))
  have third := Leads.of_moves (i := .sb t0 0 t1) quiet ready₂ c₃ nofun (moves_sb ready.mode (by
    rw [Hart.get_put, ptr₂]
    have := ready.room.low
    exact serves.usable.mapped _ _ (by omega) high))
  rw [Hart.get_put, ptr₂] at third
  have last := leads_end
    (g := h.put (h.pc + 4 + 4 + 4 + 4) x₂ (storeLE h.mem (h.get a1).toNat 1 (reg x₂ t0).toNat))
    quiet (Open.put ready₂ rfl) c₄ c₅
  have kept : ∀ r ≠ 0, r ∉ [t0, t1, a0, a1] → ended x₂ r = h.x r := by
    intro r _ out
    simp only [List.mem_cons, List.not_mem_nil, or_false, not_or] at out
    exact (ended_of_ne x₂ out.2.2.1).trans
      ((kept₂ r out.1 out.2.2.2).trans (kept₁ r out.2.1 out.2.2.2))
  have back : reg x₂ ra = h.get ra := (reg_of_ne (by decide)).trans
    ((kept₂ ra (by decide) (by decide)).trans
    ((kept₁ ra (by decide) (by decide)).trans (reg_of_ne (by decide)).symm))
  rw [Hart.get_put, back] at last
  have post : ∀ k, Same st (h.put (h.get ra) (ended x₂)
      (storeLE h.mem (h.get a1).toNat 1 (reg x₂ t0).toNat)) k → ReadsUserByte st p h k := by
    intro k same
    have stack : reg (ended x₂) sp = h.get sp := (reg_of_ne (by decide)).trans
      ((kept sp (by decide) (by decide)).trans
      (reg_of_ne (by decide)).symm)
    have mem : ∀ a ∈ st.above (h.get sp).toNat,
        k.mem a = storeLE h.mem (h.get a1).toNat 1 (reg x₂ t0).toNat a := fun a mine =>
      same.mem a (by rw [Hart.get_put, stack]; exact mine)
    have byte : k.mem (h.get a1).toNat = UInt8.ofNat (x₂ t0).toNat := by
      rw [mem _ (.inr ⟨low, high⟩)]
      exact (storeLE_apply (k := 0) (by decide)).trans
        (by rw [Nat.pow_zero, Nat.div_one, reg_of_ne (by decide)])
    refine ⟨x₂ a1, ⟨same.pc, ?_, fun r nonzero out => (same.x r nonzero).trans
      (kept r nonzero out), same.mode, same.stvec,
      same.mask, ?_⟩, ?_⟩
    · rw [same.get, Hart.get_put, reg_of_ne (by decide), ended_a0]
    · intro a mine other
      rw [mem a mine]
      exact storeLE_of_not_mem (by omega)
    · rw [readUserByte, if_neg user, byte]
      cases mapped : p.mmu .read .supervisor (h.get a0).toNat with
      | true =>
        obtain ⟨value, zero⟩ := loaded mapped
        rw [value, zero, Hart.put_x, started_a1]
        rfl
      | false =>
        rw [faulted mapped]
        rfl
  have whole := (first.trans (second.trans (third.trans last))).returns
  constructor
  · intro z goes out
    obtain ⟨k, before, after, same⟩ := whole.1 z goes (start ▸ out)
    exact ⟨k, before, after, post k same⟩
  · intro answers
    obtain ⟨k, before, same⟩ := whole.2 answers
    exact ⟨k, before, post k same⟩

/-- The machine with one thread, with this code too. -/
def loneBuf : Platform :=
  { lone with
    code := fun a =>
      match a.toNat / 0x1000 with
      | 4 => knrlReadUsrByte[(a.toNat - 0x4000) / 4]?
      | 5 => knrlWriteUsrByte[(a.toNat - 0x5000) / 4]?
      | _ => loneCode a }

theorem serves_loneBuf : Serves loneLabels loneStack loneBuf := by
  refine serves_of_code rfl (placed_iff.mpr ?_) (placed_iff.mpr ?_) rfl ⟨serves_lone.usable.small,
    serves_lone.usable.apart, serves_lone.usable.mapped⟩
  · decide +kernel
  · decide +kernel

theorem copies_loneBuf : Copies loneLabels loneBuf :=
  ⟨⟨rfl, rfl, rfl, rfl, rfl, rfl, trivial⟩, ⟨rfl, rfl, rfl, rfl, rfl, trivial⟩⟩

/-- A hart that calls with an address: `0xB000` is mapped, and `0xD000` is not. -/
def loneCall (pc a : Word) : Hart :=
  { loneHart .supervisor pc with
    x := fun r => if r = a0 then a else if r = a1 then 0x9040 else 0x9000
    mem := fun x => if x = 0xB000 then 0x5A else 0 }

theorem lone_own (pc : Word) :
    ((loneCall pc 0xB000).get a0).toNat ∈ loneStack.above ((loneCall pc 0xB000).get sp).toNat :=
  .inl ⟨(by decide : 0xB000 ≤ 0xB000), (by decide : 0xB000 < 0xC000)⟩

/-- The call that faults, and the call that reads the byte. -/
theorem lone_reads :
    (∃ k, Goes loneBuf (Level loneBuf 2) (loneCall 0x4000 0xD000) k ∧
      ReadsUserByte loneStack loneBuf (loneCall 0x4000 0xD000) k) ∧
    ∃ k, Goes loneBuf (Level loneBuf 2) (loneCall 0x4000 0xB000) k ∧ k.mem 0x9040 = 0x5A := by
  constructor
  · exact (read_user_byte (d := 1) serves_loneBuf copies_loneBuf
      ⟨rfl, rfl, by decide, by decide⟩ rfl (by decide)
      (fun mapped => absurd mapped (by decide)) (by decide) (by decide)).2 (answers_of_code rfl)
  · obtain ⟨k, goes, status, -, read⟩ := (read_user_byte (d := 1) (h := loneCall 0x4000 0xB000)
      serves_loneBuf copies_loneBuf ⟨rfl, rfl, by decide, by decide⟩ rfl (by decide)
      (fun _ => lone_own _) (by decide) (by decide)).2 (answers_of_code rfl)
    refine ⟨k, goes, ?_⟩
    have user : ¬inKernelSpace ((loneCall 0x4000 0xB000).get a0).toNat := by decide
    have mapped : loneBuf.mmu .read .supervisor ((loneCall 0x4000 0xB000).get a0).toNat = true := by
      decide
    rw [readUserByte, if_neg user, if_pos mapped] at read
    split at read
    · exact Except.ok.inj read
    · cases read

/-- What `write_user_byte` makes of a call of `__knrl_write_usr_byte`. -/
def WritesUserByte (st : Stack) (p : Platform) (h k : Hart) : Prop :=
  ∃ status, Copied st (h.get a0).toNat status h k ∧
    writeUserByte (h.get a0).toNat (UInt8.ofNat status.toNat) =
      (if p.mmu .write .supervisor (h.get a0).toNat then .ok () else .error .badPtr) ∧
    ((h.get a0).toNat ∈ st.above (h.get sp).toNat → k.mem (h.get a0).toNat =
      if p.mmu .write .supervisor (h.get a0).toNat then UInt8.ofNat
        (h.get a1).toNat else h.mem (h.get a0).toNat)

/-- Writing a byte to user memory writes it, or gives an error if the memory cannot be written,
and changes nothing else: a run is in the call, or has come past its return; and the call returns.
-/
theorem write_user_byte (serves : Serves l st p) (copies : Copies l p) (ready : Open l st (d + 1) h)
    (start : h.pc = l.knrlWriteUsrByte) (user : ¬inKernelSpace (h.get a0).toNat) :
    (∀ z, Goes p (Level p (d + 1)) h z → z.pc ∉ span l.knrlWriteUsrByte 5 →
      ∃ k, Goes p (Level p (d + 1)) h k ∧ Goes p (Level p (d + 1)) k z ∧ WritesUserByte st p h k) ∧
    (Answers l p → ∃ k, Goes p (Level p (d + 1)) h k ∧ WritesUserByte st p h k) := by
  obtain ⟨c₀, c₁, c₂, c₃, c₄, -⟩ := copies.write
  obtain ⟨-, -, b₂, -⟩ := copies.read
  have pc : ∀ a : Word, a + 4 + 4 = a + 8 := fun a => by rw [BitVec.add_assoc]; rfl
  have apart : l.knrlWriteUsrBytePc ≠ l.knrlReadUsrBytePc := by
    intro same
    rw [pc] at b₂ c₂
    rw [Labels.knrlWriteUsrBytePc, Labels.knrlReadUsrBytePc] at same
    rw [same, b₂] at c₂
    cases c₂
  rw [← start] at c₀ c₁ c₂ c₃ c₄
  have quiet := quiet_level serves (d + 1)
  have first := leads_start quiet ready c₀ c₁
  have kept₁ : ∀ r, r ≠ t1 → r ≠ a1 → started h r = h.x r :=
    fun r first second => started_of_ne h first second
  have dst : reg (started h) a0 = h.get a0 := get_started_of_ne h (by decide) (by decide)
  have byte : reg (started h) t1 = h.get a1 := (reg_of_ne (by decide)).trans (started_t1 h)
  have ready₁ : Open l st (d + 1) (h.put (h.pc + 4 + 4) (started h) h.mem) :=
    Open.put ready (kept₁ sp (by decide) (by decide))
  obtain ⟨x₂, m, second, kept₂, stored, faulted⟩ :=
    leads_sb serves ready₁ c₂ ((pc _).trans (congrArg (· + 8) start)) apart
  rw [Hart.get_put, dst] at stored faulted
  rw [Hart.get_put, byte] at stored
  have ready₂ : Open l st (d + 1) (h.put (h.pc + 4 + 4 + 4) x₂ m) :=
    Open.put ready₁ (kept₂ sp (by decide))
  have last := leads_end (g := h.put (h.pc + 4 + 4 + 4) x₂ m) quiet ready₂ c₃ c₄
  have kept : ∀ r ≠ 0, r ∉ [t0, t1, a0, a1] → ended x₂ r = h.x r := by
    intro r _ out
    simp only [List.mem_cons, List.not_mem_nil, or_false, not_or] at out
    exact (ended_of_ne x₂ out.2.2.1).trans
      ((kept₂ r out.2.2.2).trans (kept₁ r out.2.1 out.2.2.2))
  have back : reg x₂ ra = h.get ra := (reg_of_ne (by decide)).trans ((kept₂ ra (by decide)).trans
    ((kept₁ ra (by decide) (by decide)).trans (reg_of_ne (by decide)).symm))
  rw [Hart.get_put, back] at last
  have post : ∀ k, Same st (h.put (h.get ra) (ended x₂) m) k → WritesUserByte st p h k := by
    intro k same
    have stack : reg (ended x₂) sp = h.get sp := (reg_of_ne (by decide)).trans
      ((kept sp (by decide) (by decide)).trans
      (reg_of_ne (by decide)).symm)
    have mem : ∀ a ∈ st.above (h.get sp).toNat, k.mem a = m a := fun a mine =>
      same.mem a (by rw [Hart.get_put, stack]; exact mine)
    refine ⟨x₂ a1, ⟨same.pc, ?_, fun r nonzero out => (same.x r nonzero).trans
      (kept r nonzero out), same.mode, same.stvec,
      same.mask, ?_⟩, ?_, ?_⟩
    · rw [same.get, Hart.get_put, reg_of_ne (by decide), ended_a0]
    · intro a mine other
      rw [mem a mine]
      cases mapped : p.mmu .write .supervisor (h.get a0).toNat with
      | true =>
        rw [(stored mapped).1]
        exact storeLE_of_not_mem (by omega)
      | false => rw [(faulted mapped).1, Hart.put_mem]
    · rw [writeUserByte, if_neg user]
      cases mapped : p.mmu .write .supervisor (h.get a0).toNat with
      | true =>
        rw [(stored mapped).2, Hart.put_x, started_a1]
        rfl
      | false =>
        rw [(faulted mapped).2]
        rfl
    · intro mine
      rw [mem _ mine]
      cases mapped : p.mmu .write .supervisor (h.get a0).toNat with
      | true =>
        rw [(stored mapped).1, if_pos rfl]
        exact (storeLE_apply (k := 0) (by decide)).trans (by rw [Nat.pow_zero, Nat.div_one])
      | false =>
        rw [(faulted mapped).1, if_neg Bool.false_ne_true]
        rfl
  have whole := (first.trans (second.trans last)).returns
  constructor
  · intro z goes out
    obtain ⟨k, before, after, same⟩ := whole.1 z goes (start ▸ out)
    exact ⟨k, before, after, post k same⟩
  · intro answers
    obtain ⟨k, before, same⟩ := whole.2 answers
    exact ⟨k, before, post k same⟩

/-- The call that faults, and the call that writes the byte. -/
theorem lone_writes :
    (∃ k, Goes loneBuf (Level loneBuf 2) (loneCall 0x5000 0xD000) k ∧
      WritesUserByte loneStack loneBuf (loneCall 0x5000 0xD000) k) ∧
    ∃ k, Goes loneBuf (Level loneBuf 2) (loneCall 0x5000 0xB000) k ∧ k.mem 0xB000 = 0x40 := by
  constructor
  · exact (write_user_byte (d := 1) serves_loneBuf copies_loneBuf
      ⟨rfl, rfl, by decide, by decide⟩ rfl (by decide)).2 (answers_of_code rfl)
  · obtain ⟨k, goes, status, -, -, written⟩ := (write_user_byte (d := 1)
      (h := loneCall 0x5000 0xB000) serves_loneBuf copies_loneBuf
      ⟨rfl, rfl, by decide, by decide⟩ rfl (by decide)).2 (answers_of_code rfl)
    exact ⟨k, goes, (written (lone_own _)).trans (if_pos (by decide))⟩

end Tacos.Mem.UserBuf
