/- GID: Tacos/Lib/Riscv
   generality: G
   source: none
   digest: A hart that carries out 64-bit RISC-V instructions, takes traps and returns from them. -/

import Mathlib.Data.Fin.Basic
import Tacos.Lib.Bytes

set_option autoImplicit false
set_option relaxedAutoImplicit false

namespace Tacos.Lib.Riscv

open Tacos.Lib.Bytes

abbrev Word := BitVec 64

abbrev Reg := Fin 32

def ra : Reg := 1

def sp : Reg := 2

def t0 : Reg := 5

def t1 : Reg := 6

def t2 : Reg := 7

def a0 : Reg := 10

def a1 : Reg := 11

def a2 : Reg := 12

def a7 : Reg := 17

inductive Mode where
  | user
  | supervisor
  deriving DecidableEq

inductive Access where
  | read
  | write
  deriving DecidableEq

inductive Cause where
  | timer
  | external
  | userEcall
  | loadFault
  | storeFault
  | fetchFault
  | other (code : Nat)
  deriving DecidableEq

inductive Csr where
  | sstatus
  | sepc
  | sscratch
  | stvec
  deriving DecidableEq

/-- Instructions, with labels as addresses. A pseudo instruction is one instruction. -/
inductive Instr where
  | addi (rd rs : Reg) (imm : Word)
  | li (rd : Reg) (imm : Word)
  | ld (rd : Reg) (off : Word) (base : Reg)
  | sd (src : Reg) (off : Word) (base : Reg)
  | lb (rd : Reg) (off : Word) (base : Reg)
  | sb (src : Reg) (off : Word) (base : Reg)
  | csrrw (rd : Reg) (csr : Csr) (rs : Reg)
  | csrr (rd : Reg) (csr : Csr)
  | csrw (csr : Csr) (rs : Reg)
  | call (a : Word)
  | j (a : Word)
  | jr (rs : Reg)
  | ecall
  | sret
  deriving DecidableEq

namespace Instr

abbrev mv (rd rs : Reg) : Instr := .addi rd rs 0

abbrev la (rd : Reg) (a : Word) : Instr := .li rd a

abbrev ret : Instr := .jr 1

end Instr

/-! ## The status register -/

/-- The word with one bit set or cleared. -/
def withBit (w : Word) (i : Nat) (b : Bool) : Word :=
  if b then w ||| BitVec.twoPow 64 i else w &&& ~~~BitVec.twoPow 64 i

/-- `sstatus.SIE`. -/
def sieBit : Nat := 1

/-- `sstatus.SPIE`. -/
def spieBit : Nat := 5

/-- `sstatus.SPP`. -/
def sppBit : Nat := 8

/-- The mode that a trap was taken from. -/
def spp (w : Word) : Mode := if w.getLsbD sppBit then .supervisor else .user

/-- `sstatus` when a trap has been taken. -/
def entered (m : Mode) (w : Word) : Word :=
  withBit (withBit (withBit w spieBit (w.getLsbD sieBit)) sppBit (m == .supervisor)) sieBit false

/-- `sstatus` after `sret`. -/
def returned (w : Word) : Word :=
  withBit (withBit (withBit w sieBit (w.getLsbD spieBit)) spieBit true) sppBit false

theorem getLsbD_withBit {w : Word} {i j : Nat} {b : Bool} (h : i < 64) :
    (withBit w i b).getLsbD j = if j = i then b else w.getLsbD j := by
  cases b with
  | true =>
    rw [withBit, if_pos rfl, BitVec.getLsbD_or, BitVec.getLsbD_twoPow]
    by_cases same : j = i
    · simp [same, h]
    · have other : ¬i = j := fun e => same e.symm
      simp [same, other]
  | false =>
    rw [withBit, if_neg Bool.false_ne_true, BitVec.getLsbD_and,
      BitVec.getLsbD_not, BitVec.getLsbD_twoPow]
    by_cases same : j = i
    · simp [same, h]
    · have other : ¬i = j := fun e => same e.symm
      by_cases lt : j < 64
      · simp [same, other, lt]
      · simp [same, lt, BitVec.getLsbD_of_ge _ j (Nat.le_of_not_lt lt)]

@[simp] theorem sie_entered (m : Mode) (w : Word) : (entered m w).getLsbD sieBit = false := by
  rw [entered, getLsbD_withBit (by decide), if_pos rfl]

theorem spie_entered (m : Mode) (w : Word) : (entered m w).getLsbD spieBit = w.getLsbD sieBit := by
  rw [entered, getLsbD_withBit (by decide), if_neg (by decide),
    getLsbD_withBit (by decide), if_neg (by decide),
    getLsbD_withBit (by decide), if_pos rfl]

@[simp] theorem spp_entered (m : Mode) (w : Word) : spp (entered m w) = m := by
  have bit : (entered m w).getLsbD sppBit = (m == .supervisor) := by
    rw [entered, getLsbD_withBit (by decide), if_neg (by decide),
      getLsbD_withBit (by decide), if_pos rfl]
  rw [spp, bit]
  cases m with
  | user => rfl
  | supervisor => rfl

theorem sie_returned (w : Word) : (returned w).getLsbD sieBit = w.getLsbD spieBit := by
  rw [returned, getLsbD_withBit (by decide), if_neg (by decide),
    getLsbD_withBit (by decide), if_neg (by decide),
    getLsbD_withBit (by decide), if_pos rfl]

@[simp] theorem spp_returned (w : Word) : spp (returned w) = .user := by
  rw [spp, returned, getLsbD_withBit (by decide), if_pos rfl, if_neg Bool.false_ne_true]

@[simp] theorem sie_returned_entered (m : Mode) (w : Word) :
    (returned (entered m w)).getLsbD sieBit = w.getLsbD sieBit := by
  rw [sie_returned, spie_entered]

/-! ## The hart -/

/-- A hart and the memory that it sees. `sie` tells whether timer and external interrupts are
enabled. -/
structure Hart where
  x : Reg → Word
  pc : Word
  mode : Mode
  sstatus : Word
  sepc : Word
  sscratch : Word
  stvec : Word
  scause : Cause
  stval : Word
  sie : Bool
  mem : Mem

/-- A register of a file of which the first is zero. -/
def reg (x : Reg → Word) (r : Reg) : Word := if r = 0 then 0 else x r

theorem reg_of_ne {x : Reg → Word} {r : Reg} (ne : r ≠ 0) : reg x r = x r := if_neg ne

theorem reg_update_self {x : Reg → Word} {r : Reg} {v : Word} (ne : r ≠ 0) :
    reg (Function.update x r v) r = v := by
  rw [reg_of_ne ne, Function.update_self]

theorem reg_update_of_ne {x : Reg → Word} {q r : Reg} {v : Word} (ne : q ≠ r) :
    reg (Function.update x r v) q = reg x q := by
  rw [reg, reg, Function.update_of_ne ne]

namespace Hart

def get (h : Hart) (r : Reg) : Word := reg h.x r

/-- The hart somewhere else, with other registers and memory. -/
def put (h : Hart) (pc : Word) (x : Reg → Word) (m : Mem) :
    Hart := { h with pc := pc, x := x, mem := m }

section Put

variable (h : Hart) (pc pc' : Word) (x x' : Reg → Word) (m m' : Mem) (r : Reg)

@[simp] theorem put_put : (h.put pc x m).put pc' x' m' = h.put pc' x' m' := rfl

@[simp] theorem put_self : h.put h.pc h.x h.mem = h := rfl

@[simp] theorem put_pc : (h.put pc x m).pc = pc := rfl

@[simp] theorem put_x : (h.put pc x m).x = x := rfl

@[simp] theorem put_mem : (h.put pc x m).mem = m := rfl

@[simp] theorem put_mode : (h.put pc x m).mode = h.mode := rfl

@[simp] theorem put_sstatus : (h.put pc x m).sstatus = h.sstatus := rfl

@[simp] theorem put_sepc : (h.put pc x m).sepc = h.sepc := rfl

@[simp] theorem put_sscratch : (h.put pc x m).sscratch = h.sscratch := rfl

@[simp] theorem put_stvec : (h.put pc x m).stvec = h.stvec := rfl

@[simp] theorem put_scause : (h.put pc x m).scause = h.scause := rfl

@[simp] theorem put_sie : (h.put pc x m).sie = h.sie := rfl

@[simp] theorem get_put : (h.put pc x m).get r = reg x r := rfl

end Put

def writes (h : Hart) (r : Reg) (v : Word) :
    Hart := h.put (h.pc + 4) (Function.update h.x r v) h.mem

theorem writes_self (h : Hart) (r : Reg) (v : Word) : (h.writes r v).x r = v :=
  Function.update_self ..

theorem writes_of_ne (h : Hart) {q r : Reg} (v : Word) (ne : q ≠ r) : (h.writes r v).x q = h.x q :=
  Function.update_of_ne ne ..

def stores (h : Hart) (m : Mem) : Hart := h.put (h.pc + 4) h.x m

section Writes

variable (h : Hart) (m : Mem) (q r : Reg) (v : Word)

@[simp] theorem writes_pc : (h.writes r v).pc = h.pc + 4 := rfl

@[simp] theorem writes_mem : (h.writes r v).mem = h.mem := rfl

@[simp] theorem writes_mode : (h.writes r v).mode = h.mode := rfl

@[simp] theorem writes_sie : (h.writes r v).sie = h.sie := rfl

@[simp] theorem stores_x : (h.stores m).x = h.x := rfl

@[simp] theorem stores_mem : (h.stores m).mem = m := rfl

@[simp] theorem stores_mode : (h.stores m).mode = h.mode := rfl

@[simp] theorem get_stores : (h.stores m).get r = h.get r := rfl

variable {q r}

theorem get_writes_self (ne : r ≠ 0) : (h.writes r v).get r = v := reg_update_self ne

theorem get_writes_of_ne (ne : q ≠ r) : (h.writes r v).get q = h.get q := reg_update_of_ne ne

end Writes

/-- Save a register at one address and load it from another. -/
def exchanges (h : Hart) (r : Reg) (a a' : Nat) : Hart :=
  (h.stores (storeLE h.mem a 8 (h.get r).toNat)).writes r
    (BitVec.ofNat 64 (loadLE (storeLE h.mem a 8 (h.get r).toNat) a' 8))

@[simp] theorem exchanges_mem (h : Hart) (r : Reg) (a a' : Nat) :
    (h.exchanges r a a').mem = storeLE h.mem a 8 (h.get r).toNat := rfl

theorem get_exchanges_of_ne (h : Hart) {q r : Reg} (a a' : Nat) (ne : q ≠ r) :
    (h.exchanges r a a').get q = h.get q := reg_update_of_ne ne

/-- Go to code that returns to the next instruction. -/
def links (h : Hart) (a : Word) : Hart := h.put a (Function.update h.x 1 (h.pc + 4)) h.mem

theorem get_links_ra (h : Hart) (a : Word) : (h.links a).get ra = h.pc + 4 :=
  reg_update_self (by decide)

theorem get_links_of_ne (h : Hart) (a : Word) {r : Reg} (ne : r ≠ 1) :
    (h.links a).get r = h.get r := reg_update_of_ne ne

def csr (h : Hart) : Csr → Word
  | .sstatus => h.sstatus
  | .sepc => h.sepc
  | .sscratch => h.sscratch
  | .stvec => h.stvec

def setCsr (h : Hart) (v : Word) : Csr → Hart
  | .sstatus => { h with sstatus := v }
  | .sepc => { h with sepc := v }
  | .sscratch => { h with sscratch := v }
  | .stvec => { h with stvec := v }

/-- Write a status register and go on to the next instruction. -/
def writesCsr (h : Hart) (c : Csr) (v : Word) : Hart :=
  { h.setCsr v c with pc := (h.setCsr v c).pc + 4 }

@[simp] theorem get_writesCsr (h : Hart) (c : Csr) (v : Word) (r : Reg) :
    (h.writesCsr c v).get r = h.get r := by
  cases c <;> rfl

@[simp] theorem writesCsr_mode (h : Hart) (c : Csr) (v : Word) :
    (h.writesCsr c v).mode = h.mode := by
  cases c <;> rfl

/-- Swap a register with `sscratch` and go on to the next instruction. -/
def swaps (h : Hart) (r : Reg) : Hart := { h with sscratch := h.get r }.writes r h.sscratch

theorem get_swaps_self (h : Hart) {r : Reg} (ne : r ≠ 0) : (h.swaps r).get r = h.sscratch :=
  reg_update_self ne

theorem swaps_of_ne (h : Hart) {q r : Reg} (ne : q ≠ r) : (h.swaps r).x q = h.x q :=
  Function.update_of_ne ne ..

/-- Write an address to `stvec`, by way of `t0`. -/
def vectors (h : Hart) (a : Word) : Hart := (h.writes t0 a).writesCsr .stvec a

@[simp] theorem vectors_mode (h : Hart) (a : Word) : (h.vectors a).mode = h.mode := rfl

@[simp] theorem vectors_mem (h : Hart) (a : Word) : (h.vectors a).mem = h.mem := rfl

theorem get_vectors_of_ne (h : Hart) (a : Word) {r : Reg} (ne : r ≠ t0) :
    (h.vectors a).get r = h.get r := reg_update_of_ne ne

def interruptible (h : Hart) : Bool := h.sie && (h.mode == .user || h.sstatus.getLsbD sieBit)

def trap (h : Hart) (c : Cause) (v : Word) : Hart :=
  { h with
    pc := h.stvec
    mode := .supervisor
    sstatus := entered h.mode h.sstatus
    sepc := h.pc
    scause := c
    stval := v }

def sret (h : Hart) : Hart :=
  { h with pc := h.sepc, mode := spp h.sstatus, sstatus := returned h.sstatus }

variable {h : Hart}

@[simp] theorem csr_put {pc : Word} {x : Reg → Word} {m : Mem} {c : Csr} :
    (h.put pc x m).csr c = h.csr c := by
  cases c with
  | sstatus => rfl
  | sepc => rfl
  | sscratch => rfl
  | stvec => rfl

theorem interruptible_of_masked (masked : h.sstatus.getLsbD sieBit = false)
    (mode : h.mode = .supervisor) :
    h.interruptible = false := by
  rw [interruptible, masked, mode]
  exact Bool.and_false _

end Hart

/-! ## Instructions -/

/-- An instruction is carried out, or faults. -/
inductive Effect where
  | next (h : Hart)
  | fault (c : Cause) (v : Word)

/-- Whether a byte of memory may be accessed from a mode. -/
abbrev Mmu := Access → Mode → Nat → Bool

/-- What only the supervisor may do. -/
def privileged (h done : Hart) : Effect :=
  if h.mode = .supervisor then .next done else .fault (.other 2) 0

section Exec

variable (mmu : Mmu)

/-- One access to so many bytes of memory. -/
def access (h : Hart) (kind : Access) (a : Word) (len : Nat) (c : Cause) (done : Hart) : Effect :=
  if ∀ n < len, mmu kind h.mode (a.toNat + n) = true then .next done else .fault c a

def exec (h : Hart) : Instr → Effect
  | .addi rd rs imm => .next (h.writes rd (h.get rs + imm))
  | .li rd imm => .next (h.writes rd imm)
  | .ld rd off base =>
    let a := h.get base + off
    access mmu h .read a 8 .loadFault (h.writes rd (BitVec.ofNat 64 (loadLE h.mem a.toNat 8)))
  | .sd src off base =>
    let a := h.get base + off
    access mmu h .write a 8 .storeFault (h.stores (storeLE h.mem a.toNat 8 (h.get src).toNat))
  | .lb rd off base =>
    let a := h.get base + off
    access mmu h .read a 1 .loadFault
    (h.writes rd ((BitVec.ofNat 8 (loadLE h.mem a.toNat 1)).signExtend 64))
  | .sb src off base =>
    let a := h.get base + off
    access mmu h .write a 1 .storeFault (h.stores (storeLE h.mem a.toNat 1 (h.get src).toNat))
  | .csrrw rd csr rs => privileged h ((h.setCsr (h.get rs) csr).writes rd (h.csr csr))
  | .csrr rd csr => privileged h (h.writes rd (h.csr csr))
  | .csrw csr rs =>
    let k := h.setCsr (h.get rs) csr
    privileged h { k with pc := k.pc + 4 }
  | .call a => .next (h.put a (Function.update h.x 1 (h.pc + 4)) h.mem)
  | .j a => .next { h with pc := a }
  | .jr rs => .next { h with pc := h.get rs }
  | .ecall => .fault (if h.mode = .user then .userEcall else .other 9) 0
  | .sret => privileged h h.sret

/-- Instructions carried out one after another, none of which faults. -/
def execs : Hart → List Instr → Option Hart
  | h, [] => some h
  | h, i :: is => match exec mmu h i with
    | .next k => execs k is
    | .fault _ _ => none

end Exec

/-- The instruction goes on to the next one and touches neither the mode nor what masks
interrupts. -/
def Instr.straight : Instr → Bool
  | .addi .. => true
  | .li .. => true
  | .ld .. => true
  | .sd .. => true
  | .lb .. => true
  | .sb .. => true
  | .csrrw _ csr _ => csr != .sstatus
  | .csrr .. => true
  | .csrw csr _ => csr != .sstatus
  | _ => false

/-! ## Straight lines -/

variable {mmu : Mmu} {h k z : Hart} {i : Instr} {is js : List Instr} {a : Word}

theorem pc_succ (a : Word) (n : Nat) : a + 4 + BitVec.ofNat 64 (4 * n) =
    a + BitVec.ofNat 64 (4 * (n + 1)) := by
  rw [BitVec.add_assoc, Nat.mul_succ, Nat.add_comm (4 * n), BitVec.ofNat_add]
  rfl

theorem access_next {kind : Access} {len : Nat} {c : Cause}
    (done : access mmu h kind a len c z = .next k) : k = z := by
  rw [access] at done
  split at done
  · exact (Effect.next.inj done).symm
  · cases done

theorem privileged_next (done : privileged h z = .next k) : h.mode = .supervisor ∧ k = z := by
  rw [privileged] at done
  split at done
  · rename_i mode
    exact ⟨mode, (Effect.next.inj done).symm⟩
  · cases done

theorem privileged_of (mode : h.mode = .supervisor) : privileged h z = .next z := if_pos mode

/-- A straight instruction goes on to the next one, with interrupts masked as before. -/
theorem exec_straight (straight : i.straight = true) (done : exec mmu h i = .next k) :
    k.pc = h.pc + 4 ∧ k.interruptible = h.interruptible := by
  cases i with
  | addi rd rs imm =>
    cases done
    exact ⟨rfl, rfl⟩
  | li rd imm =>
    cases done
    exact ⟨rfl, rfl⟩
  | ld rd off base =>
    rw [access_next done]
    exact ⟨rfl, rfl⟩
  | sd src off base =>
    rw [access_next done]
    exact ⟨rfl, rfl⟩
  | lb rd off base =>
    rw [access_next done]
    exact ⟨rfl, rfl⟩
  | sb src off base =>
    rw [access_next done]
    exact ⟨rfl, rfl⟩
  | csrrw rd csr rs =>
    rw [(privileged_next done).2]
    cases csr with
    | sstatus => cases straight
    | _ => exact ⟨rfl, rfl⟩
  | csrr rd csr =>
    rw [(privileged_next done).2]
    exact ⟨rfl, rfl⟩
  | csrw csr rs =>
    rw [(privileged_next done).2]
    cases csr with
    | sstatus => cases straight
    | _ => exact ⟨rfl, rfl⟩
  | _ => cases straight

theorem execs_next (done : exec mmu h i = .next k) : execs mmu h (i :: is) = execs mmu k is := by
  rw [execs, done]

theorem execs_append : execs mmu h (is ++ js) = (execs mmu h is).bind fun k => execs mmu k js := by
  induction is generalizing h with
  | nil => rfl
  | cons i is ih =>
    rw [List.cons_append, execs, execs]
    cases exec mmu h i with
    | next k => exact ih
    | fault c v => rfl

theorem execs_straight (straight : ∀ i ∈ is, i.straight = true) (done : execs mmu h is = some k) :
    k.pc = h.pc + BitVec.ofNat 64 (4 * is.length) ∧ k.interruptible = h.interruptible := by
  induction is generalizing h with
  | nil =>
    cases done
    exact ⟨(BitVec.add_zero _).symm, rfl⟩
  | cons i is ih =>
    rw [execs] at done
    cases here : exec mmu h i with
    | next m =>
      rw [here] at done
      obtain ⟨pc, open_⟩ := exec_straight (straight i List.mem_cons_self) here
      obtain ⟨end_, still⟩ := ih (fun j hj => straight j (List.mem_cons_of_mem i hj)) done
      refine ⟨?_, still.trans open_⟩
      rw [end_, pc, pc_succ, List.length_cons]
    | fault c v =>
      rw [here] at done
      cases done

/-! ## User mode -/

/-- Two harts are one to code that sees no other memory. -/
structure Agree (s : Set Nat) (h k : Hart) : Prop where
  x : ∀ r ≠ 0, k.x r = h.x r
  pc : k.pc = h.pc
  mode : k.mode = h.mode
  mem : ∀ a ∈ s, k.mem a = h.mem a

theorem storeLE_agree {m m' : Mem} {a n v x : Nat} (same : m' x = m x) :
    storeLE m' a n v x = storeLE m a n v x := by
  by_cases inside : a ≤ x ∧ x < a + n
  · obtain ⟨low, high⟩ := inside
    obtain ⟨i, rfl⟩ := Nat.exists_eq_add_of_le low
    rw [storeLE_apply (by omega), storeLE_apply (by omega)]
  · rw [storeLE_of_not_mem (by omega), storeLE_of_not_mem (by omega), same]

namespace Agree

variable {s : Set Nat}

theorem refl (h : Hart) : Agree s h h := ⟨fun _ _ => rfl, rfl, rfl, fun _ _ => rfl⟩

theorem symm (agree : Agree s h k) : Agree s k h :=
  ⟨fun r nonzero => (agree.x r nonzero).symm, agree.pc.symm, agree.mode.symm,
    fun a mine => (agree.mem a mine).symm⟩

theorem trans (first : Agree s h k) (second : Agree s k z) : Agree s h z where
  x r nonzero := (second.x r nonzero).trans (first.x r nonzero)
  pc := second.pc.trans first.pc
  mode := second.mode.trans first.mode
  mem a mine := (second.mem a mine).trans (first.mem a mine)

theorem get (agree : Agree s h k) (r : Reg) : k.get r = h.get r := by
  rw [Hart.get, Hart.get, reg, reg]
  split
  · rfl
  · rename_i nonzero
    exact agree.x r nonzero

theorem put (agree : Agree s h k) (pc : Word) (r : Reg) (v : Word) :
    Agree s (h.put pc (Function.update h.x r v) h.mem)
      (k.put pc (Function.update k.x r v) k.mem) where
  x q nonzero := by
    by_cases here : q = r
    · rw [here, Hart.put_x, Hart.put_x, Function.update_self, Function.update_self]
    · rw [Hart.put_x, Hart.put_x, Function.update_of_ne here,
        Function.update_of_ne here, agree.x q nonzero]
  pc := rfl
  mode := agree.mode
  mem := agree.mem

theorem writes (agree : Agree s h k) (r : Reg) (v : Word) :
    Agree s (h.writes r v) (k.writes r v) := by
  rw [Hart.writes, Hart.writes, agree.pc]
  exact agree.put _ r v

theorem stores (agree : Agree s h k) (a n v : Nat) :
    Agree s (h.stores (storeLE h.mem a n v)) (k.stores (storeLE k.mem a n v)) where
  x := agree.x
  pc := congrArg (· + 4) agree.pc
  mode := agree.mode
  mem x mine := storeLE_agree (agree.mem x mine)

theorem loads (agree : Agree s h k) (own : ∀ kind a, mmu kind h.mode a = true → a ∈ s)
    {kind : Access} {a : Word} {len : Nat}
    (mapped : ∀ n < len, mmu kind h.mode (a.toNat + n) = true) :
    loadLE k.mem a.toNat len = loadLE h.mem a.toNat len := by
  refine loadLE_congr fun x low high => agree.mem x ?_
  obtain ⟨n, rfl⟩ := Nat.exists_eq_add_of_le low
  exact own kind _ (mapped n (by omega))

theorem access (agree : Agree s h k) {kind : Access} {a : Word} {len : Nat}
    {c : Cause} {h' i j : Hart}
    (done : access mmu h kind a len c i = .next h')
    (both : (∀ n < len, mmu kind h.mode (a.toNat + n) = true) → Agree s i j) :
    ∃ k', Riscv.access mmu k kind a len c j = .next k' ∧ Agree s h' k' := by
  obtain rfl := access_next done
  rw [Riscv.access] at done
  split at done
  · rename_i mapped
    refine ⟨j, ?_, both mapped⟩
    rw [Riscv.access, if_pos (by rw [agree.mode]; exact mapped)]
  · cases done

theorem exec (agree : Agree s h k) (user : h.mode = .user)
    (own : ∀ kind a, mmu kind h.mode a = true → a ∈ s) {h' : Hart}
    (done : exec mmu h i = .next h') : ∃ k', Riscv.exec mmu k i = .next k' ∧ Agree s h' k' := by
  have never : ∀ done : Hart, privileged h done ≠ .next h' := fun done yes => by
    have mode := (privileged_next yes).1
    rw [user] at mode
    cases mode
  cases i with
  | addi rd rs imm =>
    cases done
    rw [Riscv.exec, agree.get rs]
    exact ⟨_, rfl, agree.writes ..⟩
  | li rd imm =>
    cases done
    exact ⟨_, rfl, agree.writes ..⟩
  | ld rd off base =>
    rw [Riscv.exec] at done ⊢
    rw [agree.get base]
    refine agree.access done fun mapped => ?_
    rw [agree.loads own mapped]
    exact agree.writes ..
  | sd src off base =>
    rw [Riscv.exec] at done ⊢
    rw [agree.get base, agree.get src]
    exact agree.access done fun _ => agree.stores ..
  | lb rd off base =>
    rw [Riscv.exec] at done ⊢
    rw [agree.get base]
    refine agree.access done fun mapped => ?_
    rw [agree.loads own mapped]
    exact agree.writes ..
  | sb src off base =>
    rw [Riscv.exec] at done ⊢
    rw [agree.get base, agree.get src]
    exact agree.access done fun _ => agree.stores ..
  | csrrw rd csr rs => exact absurd done (never _)
  | csrr rd csr => exact absurd done (never _)
  | csrw csr rs => exact absurd done (never _)
  | call a =>
    cases done
    rw [Riscv.exec, agree.pc]
    exact ⟨_, rfl, agree.put ..⟩
  | j a =>
    cases done
    exact ⟨_, rfl, agree.x, rfl, agree.mode, agree.mem⟩
  | jr rs =>
    cases done
    rw [Riscv.exec, agree.get rs]
    exact ⟨_, rfl, agree.x, rfl, agree.mode, agree.mem⟩
  | ecall => cases done
  | sret => exact absurd done (never _)

end Agree

/-- User mode stays in user mode, and does not touch the registers of the supervisor. -/
theorem exec_user (user : h.mode = .user) (done : exec mmu h i = .next k) :
    k.mode = .user ∧ k.sscratch = h.sscratch ∧ k.stvec = h.stvec ∧ k.sie = h.sie ∧ i ≠ .sret := by
  have never : ∀ done : Hart, privileged h done ≠ .next k := fun done yes => by
    have mode := (privileged_next yes).1
    rw [user] at mode
    cases mode
  cases i with
  | addi rd rs imm =>
    cases done
    exact ⟨user, rfl, rfl, rfl, nofun⟩
  | li rd imm =>
    cases done
    exact ⟨user, rfl, rfl, rfl, nofun⟩
  | ld rd off base =>
    obtain rfl := access_next done
    exact ⟨user, rfl, rfl, rfl, nofun⟩
  | sd src off base =>
    obtain rfl := access_next done
    exact ⟨user, rfl, rfl, rfl, nofun⟩
  | lb rd off base =>
    obtain rfl := access_next done
    exact ⟨user, rfl, rfl, rfl, nofun⟩
  | sb src off base =>
    obtain rfl := access_next done
    exact ⟨user, rfl, rfl, rfl, nofun⟩
  | csrrw rd csr rs => exact absurd done (never _)
  | csrr rd csr => exact absurd done (never _)
  | csrw csr rs => exact absurd done (never _)
  | call a =>
    cases done
    exact ⟨user, rfl, rfl, rfl, nofun⟩
  | j a =>
    cases done
    exact ⟨user, rfl, rfl, rfl, nofun⟩
  | jr rs =>
    cases done
    exact ⟨user, rfl, rfl, rfl, nofun⟩
  | ecall => cases done
  | sret => exact absurd done (never _)

/-- Nothing but a write to it changes where a `sret` goes. -/
theorem exec_sepc (write : ∀ r, i ≠ .csrw .sepc r) (swap : ∀ r q, i ≠ .csrrw r .sepc q)
    (done : exec mmu h i = .next k) :
    k.sepc = h.sepc := by
  cases i with
  | csrrw rd csr rs =>
    obtain rfl := (privileged_next done).2
    cases csr with
    | sepc => exact absurd rfl (swap rd rs)
    | _ => rfl
  | csrr rd csr =>
    obtain rfl := (privileged_next done).2
    rfl
  | csrw csr rs =>
    obtain rfl := (privileged_next done).2
    cases csr with
    | sepc => exact absurd rfl (write rs)
    | _ => rfl
  | ld rd off base =>
    obtain rfl := access_next done
    rfl
  | sd src off base =>
    obtain rfl := access_next done
    rfl
  | lb rd off base =>
    obtain rfl := access_next done
    rfl
  | sb src off base =>
    obtain rfl := access_next done
    rfl
  | sret =>
    obtain rfl := (privileged_next done).2
    rfl
  | ecall => cases done
  | addi rd rs imm =>
    cases done
    rfl
  | li rd imm =>
    cases done
    rfl
  | call a =>
    cases done
    rfl
  | j a =>
    cases done
    rfl
  | jr rs =>
    cases done
    rfl

theorem exec_fault {c : Cause} {v : Word} (user : h.mode = .user)
    (faults : exec mmu h i = .fault c v) :
    c = .userEcall ∧ i = .ecall ∨ c = .loadFault ∨ c = .storeFault ∨ ∃ code, c = .other code := by
  have privileged : ∀ done : Hart, privileged h done = .fault c v → ∃ code, c = .other code := by
    intro done yes
    rw [Riscv.privileged] at yes
    split at yes
    · cases yes
    · cases yes
      exact ⟨2, rfl⟩
  have accessed : ∀ {kind a len c' done}, access mmu h kind a len c' done =
    .fault c v → c = c' := by
    intro kind a len c' done yes
    rw [access] at yes
    split at yes
    · cases yes
    · cases yes
      rfl
  cases i with
  | ld rd off base => exact .inr (.inl (accessed faults))
  | sd src off base => exact .inr (.inr (.inl (accessed faults)))
  | lb rd off base => exact .inr (.inl (accessed faults))
  | sb src off base => exact .inr (.inr (.inl (accessed faults)))
  | csrrw rd csr rs => exact .inr (.inr (.inr (privileged _ faults)))
  | csrr rd csr => exact .inr (.inr (.inr (privileged _ faults)))
  | csrw csr rs => exact .inr (.inr (.inr (privileged _ faults)))
  | sret => exact .inr (.inr (.inr (privileged _ faults)))
  | ecall =>
    rw [exec, if_pos user] at faults
    cases faults
    exact .inl ⟨rfl, rfl⟩
  | addi rd rs imm => cases faults
  | li rd imm => cases faults
  | call a => cases faults
  | j a => cases faults
  | jr rs => cases faults

/-! ## Saving and loading registers -/

/-- The words from an address on, by number. -/
def word (m : Mem) (a n : Nat) : Word := BitVec.ofNat 64 (loadLE m (a + 8 * n) 8)

theorem word_congr {m m' : Mem} {a n : Nat}
    (same : ∀ x, a + 8 * n ≤ x → x < a + 8 * n + 8 → m x = m' x) :
    word m a n = word m' a n := congrArg (BitVec.ofNat 64) (loadLE_congr same)

theorem word_store {m : Mem} {a n : Nat} {v : Word} :
    word (storeLE m (a + 8 * n) 8 v.toNat) a n = v := by
  rw [word, loadLE_storeLE_of_lt v.isLt, BitVec.ofNat_toNat, BitVec.setWidth_eq]

theorem word_store_of_ne {m : Mem} {a n l : Nat} {v : Nat} (ne : n ≠ l) :
    word (storeLE m (a + 8 * l) 8 v) a n = word m a n := by
  refine word_congr fun x low high => storeLE_of_not_mem ?_
  omega

/-- The offset of a word by its number. -/
def slot (n : Nat) : Word := BitVec.ofNat 64 (8 * n)

theorem toNat_slot {b : Word} {n : Nat} (room : b.toNat + 8 * n < 2 ^ 64) :
    (b + slot n).toNat = b.toNat + 8 * n := by
  rw [slot, BitVec.toNat_add, BitVec.toNat_ofNat]
  omega

theorem word_add_zero (a : Word) : a + 0 = a := BitVec.add_zero a

theorem exec_mv {rd rs : Reg} : exec mmu h (.mv rd rs) = .next (h.writes rd (h.get rs)) := by
  rw [Instr.mv, exec]
  rw [word_add_zero]

theorem exec_csrw {c : Csr} {r : Reg} (mode : h.mode = .supervisor) :
    exec mmu h (.csrw c r) = .next (h.writesCsr c (h.get r)) := privileged_of mode

theorem execs_csrw {c : Csr} {r : Reg} (mode : h.mode = .supervisor) :
    execs mmu h (.csrw c r :: is) = execs mmu (h.writesCsr c (h.get r)) is :=
  execs_next (exec_csrw mode)

theorem exec_swaps {r : Reg} (mode : h.mode = .supervisor) :
    exec mmu h (.csrrw r .sscratch r) = .next (h.swaps r) := privileged_of mode

theorem execs_li {r : Reg} {v : Word} : execs mmu h (.li r v :: is) =
    execs mmu (h.writes r v) is := rfl

theorem execs_vectors (mode : h.mode = .supervisor) :
    execs mmu h (.la t0 a :: .csrw .stvec t0 :: is) = execs mmu (h.vectors a) is := by
  rw [execs_li, execs_csrw (by exact mode), Hart.get_writes_self _ _ (by decide)]
  rfl

/-- Registers are read from the status registers one after another. -/
theorem execs_reads (cs : List (Reg × Csr)) (mode : h.mode = .supervisor)
    (nodup : (cs.map Prod.fst).Nodup) :
    ∃ x, execs mmu h (cs.map fun q => .csrr q.1 q.2) =
      some (h.put (h.pc + BitVec.ofNat 64 (4 * cs.length)) x h.mem) ∧
      (∀ q ∈ cs, x q.1 = h.csr q.2) ∧ ∀ r ∉ cs.map Prod.fst, x r = h.x r := by
  induction cs generalizing h with
  | nil =>
    refine ⟨h.x, ?_, by simp, fun _ _ => rfl⟩
    rw [List.length_nil, Nat.mul_zero, BitVec.add_zero, Hart.put_self]
    rfl
  | cons q cs ih =>
    obtain ⟨r, c⟩ := q
    obtain ⟨own, rest⟩ := List.nodup_cons.mp nodup
    obtain ⟨x, done, read, kept⟩ := ih (h := h.writes r (h.csr c)) mode rest
    refine ⟨x, ?_, ?_, ?_⟩
    · rw [List.map_cons, execs_next (i := .csrr r c) (privileged_of mode), done, Hart.writes,
        Hart.put_put, Hart.put_pc,
        pc_succ]
      rfl
    · intro q hq
      obtain rfl | tail := List.mem_cons.mp hq
      · exact (kept r own).trans (Function.update_self ..)
      · exact (read q tail).trans (Hart.csr_put ..)
    · intro q hq
      obtain ⟨other, tail⟩ := not_or.mp (mt List.mem_cons.mpr hq)
      exact (kept q tail).trans (Function.update_of_ne other _ _)

theorem mapped_slot {kind : Access} {m : Mode} {a n len : Nat}
    (mapped : ∀ n < 8 * len, mmu kind m (a + n) = true)
    (small : n < len) : ∀ l < 8, mmu kind m (a + 8 * n + l) = true := by
  intro l hl
  rw [Nat.add_assoc]
  exact mapped _ (by omega)

section Frames

variable {b : Reg} {a n len : Nat} (base : (h.get b).toNat = a) (room : a + 8 * len ≤ 2 ^ 64)

include base room

theorem exec_sd {r : Reg} (mapped : ∀ n < 8 * len, mmu .write h.mode (a + n) = true)
    (small : n < len) :
    exec mmu h (.sd r (slot n) b) =
      .next (h.stores (storeLE h.mem (a + 8 * n) 8 (h.get r).toNat)) := by
  subst base
  rw [exec, access, toNat_slot (by omega), if_pos (mapped_slot mapped small)]

theorem exec_ld {r : Reg} (mapped : ∀ n < 8 * len, mmu .read h.mode (a + n) = true)
    (small : n < len) :
    exec mmu h (.ld r (slot n) b) = .next (h.writes r (word h.mem a n)) := by
  subst base
  rw [exec, access, toNat_slot (by omega), if_pos (mapped_slot mapped small)]
  rfl

/-- Registers are saved one after another, each in a word of its own. -/
theorem execs_saves (rs : List (Reg × Nat))
    (mapped : ∀ n < 8 * len, mmu .write h.mode (a + n) = true)
    (small : ∀ q ∈ rs, q.2 < len) (nodup : (rs.map Prod.snd).Nodup) :
    ∃ m, execs mmu h (rs.map fun q => .sd q.1 (slot q.2) b) =
        some (h.put (h.pc + BitVec.ofNat 64 (4 * rs.length)) h.x m) ∧
      (∀ q ∈ rs, word m a q.2 = h.get q.1) ∧ (∀ n ∉ rs.map Prod.snd, word m a n = word h.mem a n) ∧
      ∀ x, (x < a ∨ a + 8 * len ≤ x) → m x = h.mem x := by
  induction rs generalizing h with
  | nil =>
    refine ⟨h.mem, ?_, by simp, fun _ _ => rfl, fun _ _ => rfl⟩
    rw [List.length_nil, Nat.mul_zero, BitVec.add_zero, Hart.put_self]
    rfl
  | cons q rs ih =>
    obtain ⟨r, n⟩ := q
    have inside := small (r, n) List.mem_cons_self
    obtain ⟨own, rest⟩ := List.nodup_cons.mp nodup
    have first := exec_sd (r := r) base room mapped inside
    obtain ⟨m, done, saved, kept, outside⟩ :=
      ih (h := h.stores (storeLE h.mem (a + 8 * n) 8 (h.get r).toNat)) base mapped
        (fun q hq => small q (List.mem_cons_of_mem _ hq)) rest
    refine ⟨m, ?_, ?_, ?_, ?_⟩
    · rw [List.map_cons, execs_next first, done, Hart.stores, Hart.put_put,
        Hart.put_pc, Hart.put_x, pc_succ]
      rfl
    · intro q hq
      obtain rfl | later := List.mem_cons.mp hq
      · exact (kept n own).trans word_store
      · exact saved q later
    · intro l out
      obtain ⟨ne, later⟩ := not_or.mp (mt List.mem_cons.mpr out)
      exact (kept l later).trans (word_store_of_ne ne)
    · intro x out
      exact (outside x out).trans (storeLE_of_not_mem (by omega))

variable (len) in
/-- Registers are saved in words and loaded from others, one after another. -/
theorem execs_swaps (rs : List (Reg × Nat)) {b' : Reg} {a' : Nat} (base' : (h.get b').toNat = a')
    (room' : a' + 8 * len ≤ 2 ^ 64) (apart : a + 8 * len ≤ a' ∨ a' + 8 * len ≤ a)
    (mapped : ∀ n < 8 * len, mmu .write h.mode (a + n) = true)
    (mapped' : ∀ n < 8 * len, mmu .read h.mode (a' + n) = true)
    (small : ∀ q ∈ rs, q.2 < len) (regs : (rs.map Prod.fst).Nodup) (words : (rs.map Prod.snd).Nodup)
    (out : b ∉ rs.map Prod.fst) (out' : b' ∉ rs.map Prod.fst) :
    ∃ pc x m, execs mmu h (rs.flatMap fun q => [.sd q.1 (slot q.2) b, .ld q.1 (slot q.2) b']) =
      some (h.put pc x m) ∧
      (∀ q ∈ rs, word m a q.2 = h.get q.1) ∧ (∀ q ∈ rs, x q.1 = word h.mem a' q.2) ∧
        (∀ r ∉ rs.map Prod.fst, x r = h.x r) ∧
      (∀ n ∉ rs.map Prod.snd, word m a n = word h.mem a n) ∧
        ∀ x, (x < a ∨ a + 8 * len ≤ x) → m x = h.mem x := by
  induction rs generalizing h with
  | nil => exact ⟨h.pc, h.x, h.mem,
      rfl, by simp, by simp, fun _ _ => rfl, fun _ _ => rfl, fun _ _ => rfl⟩
  | cons q rs ih =>
    obtain ⟨r, n⟩ := q
    have inside := small (r, n) List.mem_cons_self
    obtain ⟨ownR, restR⟩ := List.nodup_cons.mp regs
    obtain ⟨ownW, restW⟩ := List.nodup_cons.mp words
    obtain ⟨ne, later⟩ := not_or.mp (mt List.mem_cons.mpr out)
    obtain ⟨ne', later'⟩ := not_or.mp (mt List.mem_cons.mpr out')
    have first := exec_sd (r := r) base room mapped inside
    have mem : ∀ x, (x < a ∨ a + 8 * len ≤ x) →
        storeLE h.mem (a + 8 * n) 8 (h.get r).toNat x = h.mem x :=
      fun x far => storeLE_of_not_mem (by omega)
    have other : ∀ l < len, word (storeLE h.mem (a + 8 * n) 8 (h.get r).toNat) a' l =
        word h.mem a' l := fun l hl => word_congr fun x low high => mem x (by omega)
    have second := exec_ld (r := r) (n := n)
      (h := h.stores (storeLE h.mem (a + 8 * n) 8 (h.get r).toNat)) base' room' mapped' inside
    have regs' : ∀ q, q ≠ r → (h.exchanges r (a + 8 * n) (a' + 8 * n)).get q = h.get q :=
      fun q apart => h.get_exchanges_of_ne _ _ apart
    obtain ⟨pc, x, m, done, saved, loaded, kept, words', outside⟩ :=
      ih (h := h.exchanges r (a + 8 * n) (a' + 8 * n)) (by rw [regs' b ne]; exact base)
      (by rw [regs' b' ne']; exact base') mapped mapped'
      (fun q hq => small q (List.mem_cons_of_mem _ hq)) restR restW later later'
    rw [Hart.exchanges_mem] at loaded words' outside
    refine ⟨pc, x, m, ?_, ?_, ?_, ?_, ?_, fun x far => (outside x far).trans (mem x far)⟩
    · rw [List.flatMap_cons, List.cons_append, execs_next first, List.cons_append,
        execs_next second, List.nil_append]
      exact done
    · intro q hq
      obtain rfl | tail := List.mem_cons.mp hq
      · exact (words' n ownW).trans word_store
      · have mem := List.mem_map_of_mem (f := Prod.fst) tail
        exact (saved q tail).trans (regs' q.1 fun same => ownR (same ▸ mem))
    · intro q hq
      obtain rfl | tail := List.mem_cons.mp hq
      · exact (kept r ownR).trans ((Function.update_self ..).trans (other n inside))
      · exact (loaded q tail).trans (other q.2 (small q (List.mem_cons_of_mem _ tail)))
    · intro q hq
      obtain ⟨apart', tail⟩ := not_or.mp (mt List.mem_cons.mpr hq)
      exact (kept q tail).trans (Function.update_of_ne apart' ..)
    · intro l hl
      obtain ⟨apart', tail⟩ := not_or.mp (mt List.mem_cons.mpr hl)
      exact (words' l tail).trans (word_store_of_ne apart')

/-- Registers are loaded one after another, each from a word of its own. -/
theorem execs_loads (rs : List (Reg × Nat))
    (mapped : ∀ n < 8 * len, mmu .read h.mode (a + n) = true)
    (small : ∀ q ∈ rs, q.2 < len) (nodup : (rs.map Prod.fst).Nodup) (out : b ∉ rs.map Prod.fst) :
    ∃ x, execs mmu h (rs.map fun q => .ld q.1 (slot q.2) b) =
        some (h.put (h.pc + BitVec.ofNat 64 (4 * rs.length)) x h.mem) ∧
      (∀ q ∈ rs, x q.1 = word h.mem a q.2) ∧ ∀ r ∉ rs.map Prod.fst, x r = h.x r := by
  induction rs generalizing h with
  | nil =>
    refine ⟨h.x, ?_, by simp, fun _ _ => rfl⟩
    rw [List.length_nil, Nat.mul_zero, BitVec.add_zero, Hart.put_self]
    rfl
  | cons q rs ih =>
    obtain ⟨r, n⟩ := q
    obtain ⟨ne, later⟩ := not_or.mp (mt List.mem_cons.mpr out)
    obtain ⟨own, rest⟩ := List.nodup_cons.mp nodup
    have first := exec_ld (r := r) base room mapped (small (r, n) List.mem_cons_self)
    have same : (h.writes r (word h.mem a n)).get b = h.get b := reg_update_of_ne ne
    obtain ⟨x, done, loaded, kept⟩ := ih (h := h.writes r (word h.mem a n))
      ((congrArg BitVec.toNat same).trans base) mapped
      (fun q hq => small q (List.mem_cons_of_mem _ hq)) rest later
    refine ⟨x, ?_, ?_, ?_⟩
    · rw [List.map_cons, execs_next first, done, Hart.writes, Hart.put_put, Hart.put_pc, pc_succ]
      rfl
    · intro q hq
      obtain rfl | tail := List.mem_cons.mp hq
      · exact (kept r own).trans (Function.update_self ..)
      · exact loaded q tail
    · intro q hq
      obtain ⟨other, tail⟩ := not_or.mp (mt List.mem_cons.mpr hq)
      exact (kept q tail).trans (Function.update_of_ne other _ _)

end Frames

end Tacos.Lib.Riscv
