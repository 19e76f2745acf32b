/- GID: Tacos/Trap/Frame
   generality: I
   source: src/trap.rs, src/trap/pagefault.rs, src/trap/syscall.rs
   digest: The trap frame, what the trap handler does to it, and the code around the handler. -/

import Tacos.Lib.Trapping

set_option autoImplicit false
set_option relaxedAutoImplicit false

namespace Tacos.Trap

open Tacos.Lib.Bytes Tacos.Lib.Riscv

/-- Where the linker puts the code that traps run through. -/
structure Labels where
  trapEntryU : Word
  trapEntryK : Word
  trapHandler : Word
  knrlReadUsrByte : Word
  knrlWriteUsrByte : Word

namespace Labels

variable (l : Labels)

/-- `__knrl_read_usr_byte_pc`, after two instructions. -/
def knrlReadUsrBytePc : Word := l.knrlReadUsrByte + 8

def knrlReadUsrExit : Word := l.knrlReadUsrByte + 12

/-- `__knrl_write_usr_byte_pc`, after two instructions. -/
def knrlWriteUsrBytePc : Word := l.knrlWriteUsrByte + 8

def knrlWriteUsrExit : Word := l.knrlWriteUsrByte + 12

end Labels

/-- The trap context. -/
structure Frame where
  x : Reg → Word
  sstatus : Word
  sepc : Word

def frameAt (m : Mem) (a : Nat) : Frame where
  x r := word m a r
  sstatus := word m a 32
  sepc := word m a 33

/-- The handler returns to the code around it, ends the thread or stops the machine. -/
inductive Served where
  | returns (f : Frame)
  | exits
  | panics

/-- `syscall::syscall_handler`. -/
def syscallHandler (_id : Word) (_args : Word × Word × Word) : Word := -1

/-- `pagefault::handler`, but for what it prints. -/
def pagefaultHandler (l : Labels) (f : Frame) : Served :=
  match spp f.sstatus with
  | .supervisor =>
    if f.sepc = l.knrlReadUsrBytePc then
      .returns { f with x := Function.update f.x a1 1, sepc := l.knrlReadUsrExit }
    else if f.sepc = l.knrlWriteUsrBytePc then
      .returns { f with x := Function.update f.x a1 1, sepc := l.knrlWriteUsrExit }
    else .panics
  | .user => .exits

def virtio0Id : Nat := 1

/-- What `trap_handler` does to the frame; `id` is the claim that it reads from the interrupt
controller. -/
def trapHandler (l : Labels) (id : Nat) (scause : Cause) (f : Frame) : Served :=
  match scause with
  | .userEcall =>
    let sepc := f.sepc + 4
    .returns { f with
      sepc := sepc
      x := Function.update f.x a0 (syscallHandler (f.x a7) (f.x a0, f.x a1, f.x a2)) }
  | .timer => .returns f
  | .external => if id = virtio0Id then .returns f else .panics
  | .loadFault => pagefaultHandler l f
  | .storeFault => pagefaultHandler l f
  | .fetchFault => pagefaultHandler l f
  | .other _ => .panics

theorem trapHandler_sstatus {l : Labels} {id : Nat} {c : Cause} {f f' : Frame}
    (served : trapHandler l id c f = .returns f') : f'.sstatus = f.sstatus := by
  have fault : ∀ f', pagefaultHandler l f = .returns f' → f'.sstatus = f.sstatus := by
    intro f' served
    rw [pagefaultHandler] at served
    split at served
    · split at served
      · cases served
        rfl
      · split at served
        · cases served
          rfl
        · cases served
    · cases served
  cases c with
  | timer =>
    cases served
    rfl
  | external =>
    rw [trapHandler] at served
    split at served
    · cases served
      rfl
    · cases served
  | userEcall =>
    cases served
    rfl
  | loadFault => exact fault f' served
  | storeFault => exact fault f' served
  | fetchFault => exact fault f' served
  | other code => cases served

/-- A frame that an interrupt returns with is the one that it came with. -/
theorem trapHandler_interrupt {l : Labels} {id : Nat} {c : Cause} {f f' : Frame}
    (interrupt : c = .timer ∨ c = .external)
    (served : trapHandler l id c f = .returns f') : f' = f := by
  rcases interrupt with rfl | rfl
  · cases served
    rfl
  · rw [trapHandler] at served
    split at served
    · cases served
      rfl
    · cases served

/-- The registers that are saved, all but the first and the stack pointer. -/
def saved : List Reg := ra :: (List.finRange 32).drop 3

/-- `sd x1, 1*8(sp)`, `sd x3, 3*8(sp)` up to `sd x31, 31*8(sp)`. -/
def saves : List Instr := saved.map fun r => .sd r (slot r) sp

/-- `ld x1, 1*8(sp)`, `ld x3, 3*8(sp)` up to `ld x31, 31*8(sp)`. -/
def loads : List Instr := saved.map fun r => .ld r (slot r) sp

def frameLen : Nat := 34 * 8

/-- `trap_entry_k` up to the call of the handler. -/
def entryCodeK : List Instr :=
  .addi sp sp (-BitVec.ofNat 64 frameLen) :: saves ++
    [.csrr t0 .sstatus, .csrr t1 .sepc, .sd t0 (slot 32) sp, .sd t1 (slot 33) sp, .mv a0 sp]

/-- `trap_exit_k`, after what restores the status. -/
def exitCodeK (l : Labels) : List Instr :=
  [.csrw .sepc t1, .la t0 l.trapEntryK, .csrw .stvec t0] ++ loads ++
    [.addi sp sp (BitVec.ofNat 64 frameLen)]

/-- `trap_entry_k` and `trap_exit_k`. -/
def kernelCode (l : Labels) : List Instr :=
  entryCodeK ++ [.call l.trapHandler] ++ [.ld t0 (slot 32) sp, .ld t1 (slot 33) sp,
    .csrw .sstatus t0] ++ exitCodeK l ++
    [.sret]

/-- `trap_entry_u` up to the call of the handler. -/
def entryCodeU : List Instr :=
  [.csrrw sp .sscratch sp, .addi sp sp (-BitVec.ofNat 64 frameLen)] ++ saves ++
    [.csrr t0 .sstatus, .csrr t1 .sepc, .csrr t2 .sscratch, .sd t0 (slot 32) sp,
      .sd t1 (slot 33) sp, .sd t2 (slot 2) sp,
      .mv a0 sp]

/-- `trap_exit_u`, after what restores the status and the address to return to. -/
def exitCodeU (l : Labels) : List Instr :=
  [.csrw .sscratch t2, .la t0 l.trapEntryU, .csrw .stvec t0] ++ loads ++
    [.addi sp sp (BitVec.ofNat 64 frameLen), .csrrw sp .sscratch sp]

/-- `trap_entry_u` and `trap_exit_u`. -/
def userCode (l : Labels) : List Instr :=
  entryCodeU ++ [.call l.trapHandler] ++
    [.ld t0 (slot 32) sp, .ld t1 (slot 33) sp, .ld t2 (slot 2) sp, .csrw .sstatus t0,
      .csrw .sepc t1] ++ exitCodeU l ++
    [.sret]

end Tacos.Trap
