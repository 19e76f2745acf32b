/- GID: Tacos/Userproc/PageTable
   generality: I
   source: src/mem/pagetable.rs, src/mem/pagetable/entry.rs, src/mem/utils.rs, src/mem/layout.rs
   digest: Sv39 page tables in kernel pages, how they are walked, built, cloned and destroyed. -/

import Tacos.Fs.Base
import Mathlib.Data.List.FinRange
import Mathlib.Data.Nat.Bitwise
import Mathlib.Logic.Function.Basic

set_option autoImplicit false
set_option relaxedAutoImplicit false

namespace Tacos.Userproc

open Tacos.Lib.Exec Tacos.Mem Tacos.Fs

/-- The bits of `PTEFlags`. -/
abbrev PTEFlags := Nat

namespace PTEFlags

def v : PTEFlags := 0b00000001
def r : PTEFlags := 0b00000010
def w : PTEFlags := 0b00000100
def x : PTEFlags := 0b00001000
def u : PTEFlags := 0b00010000
def g : PTEFlags := 0b00100000

def all : PTEFlags := 0b11111111

def contains (flags other : PTEFlags) : Bool := flags &&& other = other

def intersects (flags other : PTEFlags) : Bool := flags &&& other ≠ 0

end PTEFlags

def ppnMask : Nat := 2 ^ 44 - 1

abbrev Entry := Nat

namespace Entry

def flagShift : Nat := 10

def new (pa : Nat) (flags : PTEFlags) : Entry :=
  ((pa >>> pgShift) &&& ppnMask) <<< flagShift ||| flags

def flag (e : Entry) : PTEFlags := e &&& PTEFlags.all

def ppn (e : Entry) : Nat := e >>> flagShift &&& ppnMask

def pa (e : Entry) : Nat := ppn e <<< pgShift

def isValid (e : Entry) : Bool := PTEFlags.contains (flag e) PTEFlags.v

def isGlobal (e : Entry) : Bool := PTEFlags.contains (flag e) PTEFlags.g

def isUser (e : Entry) : Bool := PTEFlags.contains (flag e) PTEFlags.u

def isLeaf (e : Entry) : Bool :=
  PTEFlags.intersects (flag e) (PTEFlags.r ||| PTEFlags.w ||| PTEFlags.x)

end Entry

abbrev Table := Fin 512 → Entry

/-- The page tables and the user pages, both by kernel address, and the pages that `kalloc` and
the user pool hand out next. -/
structure Memory where
  tables : Nat → Table
  frames : Nat → List UInt8
  kernelFree : List Nat
  userFree : List Nat

namespace Memory

def setTable (m : Memory) (t : Nat) (tab : Table) : Memory :=
  { m with tables := Function.update m.tables t tab }

/-- `t.entries[i] = e`. -/
def setEntry (m : Memory) (t : Nat) (i : Fin 512) (e : Entry) : Memory :=
  m.setTable t (Function.update (m.tables t) i e)

end Memory

/-- Calls on the memory; none of them returns an error. -/
abbrev M := Call Memory Empty Halt

/-- `kalloc(PG_SIZE, PG_SIZE)`. -/
def kalloc : M Nat := fun m =>
  match m.kernelFree with
  | [] => .halt .assertion
  | page :: rest => .ok page { m with kernelFree := rest }

/-- `kfree(page, PG_SIZE, PG_SIZE)`. -/
def kfree (page : Nat) : M Unit :=
  Call.modify fun m => { m with kernelFree := page :: m.kernelFree }

namespace UserPool

/-- `UserPool::alloc_pages(1)`. -/
def allocPage : M Nat := fun m =>
  match m.userFree with
  | [] => .halt .assertion
  | page :: rest => .ok page { m with userFree := rest }

def deallocPages (ptr n : Nat) : M Unit :=
  Call.modify fun m =>
    { m with userFree := (List.range n).map (fun j => ptr + j * pgSize) ++ m.userFree }

end UserPool

def require (p : Prop) [Decidable p] : M Unit :=
  if p then pure () else Call.halt .assertion

/-- A sum of two `usize`. -/
def addUsize (a b : Nat) : M Nat :=
  if a + b < 2 ^ 64 then pure (a + b) else Call.halt .overflow

/-- A difference of two `usize`. -/
def subUsize (a b : Nat) : M Nat :=
  if b ≤ a then pure (a - b) else Call.halt .overflow

/-- `x.floor()`. -/
def floor (x : Nat) : Nat := (x >>> pgShift) <<< pgShift

/-- `x.is_aligned()`. -/
def IsAligned (x : Nat) : Prop := floor x = x

instance (x : Nat) : Decidable (IsAligned x) := inferInstanceAs (Decidable (_ = _))

namespace PhysAddr

/-- `PhysAddr::from(va)`. -/
def ofVa (va : Nat) : M Nat := do
  require (inKernelSpace va)
  pure (va - vmOffset)

def intoVa (pa : Nat) : M Nat := addUsize pa vmOffset

end PhysAddr

/-- A page table is the address of its entries. -/
abbrev PageTable := Nat

namespace PageTable

def px (level va : Nat) : Fin 512 :=
  ⟨(va >>> (pgShift + 9 * level)) &&& 511, Nat.and_lt_two_pow _ (by decide : 511 < 2 ^ 9)⟩

def fromRaw (entries : Nat) : M PageTable := do
  require (IsAligned entries)
  pure entries

def new : M PageTable := do
  let page ← kalloc
  Call.modify fun m => m.setTable page fun _ => 0
  fromRaw page

/-- The table that a pointer entry leads to. -/
def child (e : Entry) : M PageTable := do
  let va ← PhysAddr.intoVa e.pa
  fromRaw va

def walk (t : PageTable) (index : Fin 512) : M (Option PageTable) := fun m =>
  if (m.tables t index).isValid then (child (m.tables t index) >>= fun table => pure (some table)) m
  else .ok none m

/-- The closure of `walk_or_create`. -/
def create (t : PageTable) (index : Fin 512) (flag : PTEFlags) : M PageTable := do
  let table ← new
  let pa ← PhysAddr.ofVa table
  Call.modify fun m => m.setEntry t index (.new pa flag)
  pure table

def walkOrCreate (t : PageTable) (index : Fin 512) (isGlobal : Bool) : M PageTable := do
  let found ← walk t index
  match found with
  | some table => pure table
  | none => create t index (PTEFlags.v ||| if isGlobal then PTEFlags.g else 0)

/-- The body of the loop of `map`. -/
def mapPage (t : PageTable) (pa va : Nat) (flag : PTEFlags) : M Unit := do
  let l1 ← walkOrCreate t (px 2 va) (flag.contains PTEFlags.g)
  let l0 ← walkOrCreate l1 (px 1 va) (flag.contains PTEFlags.g)
  Call.modify fun m => m.setEntry l0 (px 0 va) (.new pa flag)

/-- The loop of `map`; the fuel is more than the number of pages. -/
def mapLoop (t : PageTable) (paEnd : Nat) (flag : PTEFlags) : Nat → Nat → Nat → M Unit
  | 0, _, _ => Call.halt .endless
  | fuel + 1, pa, va =>
    if pa < paEnd then do
      mapPage t pa va flag
      let pa ← addUsize pa pgSize
      let va ← addUsize va pgSize
      mapLoop t paEnd flag fuel pa va
    else pure ()

def map (t : PageTable) (pa va size : Nat) (flag : PTEFlags) : M Unit := do
  require (IsAligned pa ∧ IsAligned va)
  let paEnd ← addUsize pa size
  mapLoop t paEnd flag (size / pgSize + 2) pa va

def getPte (t : PageTable) (va : Nat) : M (Option Entry) := do
  let l1 ← walk t (px 2 va)
  match l1 with
  | none => pure none
  | some l1 =>
    let l0 ← walk l1 (px 1 va)
    match l0 with
    | none => pure none
    | some l0 => fun m => .ok (some (m.tables l0 (px 0 va))) m

/-- `for_each`. -/
def forEach {α : Type} (f : α → M Unit) : List α → M Unit
  | [] => pure ()
  | a :: as => do
    f a
    forEach f as

/-- What `destroy_imp` does with an entry that it does not skip. -/
def destroyEntry (level : Nat) (below : PageTable → M Unit) (e : Entry) : M Unit := do
  let va ← PhysAddr.intoVa e.pa
  if e.isLeaf then UserPool.deallocPages va (1 <<< (9 * level))
  else do
    let table ← fromRaw va
    below table

/-- The entries that `destroy_imp` does not skip. -/
def ownEntries (tab : Table) : List Entry :=
  ((List.finRange 512).map tab).filter fun e => e.isValid && !e.isGlobal

def destroyAt (level : Nat) (below : PageTable → M Unit) (t : PageTable) : M Unit := do
  let m ← Call.get
  forEach (destroyEntry level below) (ownEntries (m.tables t))
  kfree t

def destroyImp : Nat → PageTable → M Unit
  | 0 => destroyAt 0 fun _ => Call.halt .overflow
  | level + 1 => destroyAt (level + 1) (destroyImp level)

def destroy (t : PageTable) : M Unit := destroyImp 2 t

end PageTable

namespace KernelPgTable

def kernBase : Nat := 0x80200000

def vmBase : Nat := 0xFFFFFFC080000000

def plicBase : Nat := 0xC000000 + vmOffset

def mmioBase : Nat := 0x10001000 + vmOffset

/-- The flags `rx` of `init_inner`. -/
def rx : PTEFlags := PTEFlags.r ||| PTEFlags.x ||| PTEFlags.g ||| PTEFlags.v

/-- The flags `rw` of `init_inner`. -/
def rw : PTEFlags := PTEFlags.r ||| PTEFlags.w ||| PTEFlags.g ||| PTEFlags.v

/-- `KernelPgTable::clone`, where `kernel` is the one instance. -/
def clone (kernel : PageTable) : M PageTable := do
  let other ← PageTable.new
  Call.modify fun m => m.setTable other (m.tables kernel)
  pure other

/-- Build the kernel's page table; `etext` is where the linker puts the end of the kernel's text.
The new table is then put into `satp`. -/
def initInner (etext ramSize : Nat) : M PageTable := do
  let root ← PageTable.new
  let krBase := kernBase + vmOffset
  let krEnd ← addUsize vmBase ramSize
  let text ← subUsize etext krBase
  root.map kernBase krBase text rx
  let etextPa ← PhysAddr.ofVa etext
  let data ← subUsize krEnd etext
  root.map etextPa etext data rw
  let plicPa ← PhysAddr.ofVa plicBase
  root.map plicPa plicBase 0x400000 rw
  let mmioPa ← PhysAddr.ofVa mmioBase
  root.map mmioPa mmioBase pgSize rw
  pure root

end KernelPgTable

namespace Entry

theorem new_eq (pa : Nat) {flags : Nat} (h : flags < 2 ^ 10) :
    new pa flags = pa / 2 ^ 12 % 2 ^ 44 * 2 ^ 10 + flags := by
  have mask : (pa >>> pgShift) &&& ppnMask = pa / 2 ^ 12 % 2 ^ 44 := by
    rw [ppnMask, Nat.and_two_pow_sub_one_eq_mod, Nat.shiftRight_eq_div_pow]
    rfl
  rw [new, mask, flagShift, ← Nat.shiftLeft_add_eq_or_of_lt h, Nat.shiftLeft_eq]

theorem flag_new (pa : Nat) {flags : Nat} (h : flags < 2 ^ 8) : flag (new pa flags) = flags := by
  have small : flags < 2 ^ 10 := by omega
  rw [flag, new_eq pa small, show PTEFlags.all = 2 ^ 8 - 1 from rfl, Nat.and_two_pow_sub_one_eq_mod]
  exact (by omega : (pa / 2 ^ 12 % 2 ^ 44 * 2 ^ 10 + flags) % 2 ^ 8 = flags)

theorem pa_new {pa flags : Nat} (aligned : pa % 2 ^ 12 = 0) (hpa : pa < 2 ^ 56)
    (h : flags < 2 ^ 10) : Entry.pa (new pa flags) = pa := by
  have number : ppn (new pa flags) = pa / 2 ^ 12 := by
    rw [ppn, new_eq pa h, ppnMask, Nat.and_two_pow_sub_one_eq_mod,
      Nat.shiftRight_eq_div_pow, flagShift,
      Nat.mod_eq_of_lt (by omega : pa / 2 ^ 12 < 2 ^ 44)]
    omega
  rw [Entry.pa, number, Nat.shiftLeft_eq, pgShift]
  omega

end Entry

theorem vmOffset_eq : vmOffset = 2 ^ 64 - 2 ^ 38 := rfl

theorem inKernelSpace_iff {va : Nat} (h : va < 2 ^ 64) : inKernelSpace va ↔ vmOffset ≤ va := by
  have high : va &&& vmOffset = va / 2 ^ 38 * 2 ^ 38 := by
    rw [show vmOffset = (2 ^ 26 - 1) <<< 38 from rfl]
    have shifted : va / 2 ^ 38 * 2 ^ 38 = ((va >>> 38) &&& (2 ^ 26 - 1)) <<< 38 := by
      rw [Nat.and_two_pow_sub_one_eq_mod, Nat.shiftRight_eq_div_pow, Nat.shiftLeft_eq,
        Nat.mod_eq_of_lt (by omega)]
    rw [shifted]
    apply Nat.eq_of_testBit_eq
    intro j
    simp only [Nat.testBit_and, Nat.testBit_shiftLeft, Nat.testBit_shiftRight]
    by_cases hj : 38 ≤ j
    · simp [hj]
    · simp [hj]
  rw [inKernelSpace, high, vmOffset_eq]
  omega

theorem isAligned_iff (x : Nat) : IsAligned x ↔ x % 2 ^ 12 = 0 := by
  rw [IsAligned, floor, Nat.shiftRight_eq_div_pow, Nat.shiftLeft_eq, pgShift]
  omega

/-- A page of the kernel's address space. -/
structure Sane (t : Nat) : Prop where
  high : vmOffset ≤ t
  fits : t < 2 ^ 64
  aligned : t % 2 ^ 12 = 0

/-- The table that a pointer entry leads to. -/
def target (e : Entry) : Nat := e.pa + vmOffset

theorem Sane.target_new {t : Nat} (h : Sane t) {flags : Nat} (hf : flags < 2 ^ 10) :
    target (Entry.new (t - vmOffset) flags) = t := by
  have aligned := h.aligned
  have high := h.high
  have fits := h.fits
  rw [vmOffset_eq] at high
  rw [target, Entry.pa_new _ _ hf, vmOffset_eq]
  · omega
  · rw [vmOffset_eq]
    omega
  · rw [vmOffset_eq]
    omega

theorem px_eq (level va : Nat) : (PageTable.px level va).val =
    va / 2 ^ (12 + 9 * level) % 2 ^ 9 := by
  rw [PageTable.px]
  simp only [show (511 : Nat) = 2 ^ 9 - 1 from rfl, Nat.and_two_pow_sub_one_eq_mod,
    Nat.shiftRight_eq_div_pow, pgShift]

theorem require_ok {p : Prop} [Decidable p] {u : Unit} {m m' : Memory} :
    require p m = .ok u m' ↔ p ∧ m' = m := by
  rw [require]
  split
  case isTrue h => simp [h, eq_comm]
  case isFalse h => simp [h]

theorem addUsize_ok {a b n : Nat} {m m' : Memory} :
    addUsize a b m = .ok n m' ↔ n = a + b ∧ a + b < 2 ^ 64 ∧ m' = m := by
  rw [addUsize]
  split
  case isTrue h => simp only [Call.pure_apply, Outcome.ok.injEq, eq_comm, h, true_and]
  case isFalse h => simp only [Call.halt_apply, reduceCtorEq, h, false_and, and_false]

theorem subUsize_ok {a b n : Nat} {m m' : Memory} :
    subUsize a b m = .ok n m' ↔ n = a - b ∧ b ≤ a ∧ m' = m := by
  rw [subUsize]
  split
  case isTrue h => simp [h, eq_comm]
  case isFalse h => simp [h]

theorem ofVa_ok {va n : Nat} {m m' : Memory} :
    PhysAddr.ofVa va m = .ok n m' ↔ n = va - vmOffset ∧ inKernelSpace va ∧ m' = m := by
  simp only [PhysAddr.ofVa, Call.bind_eq_ok, require_ok, Call.pure_apply, Outcome.ok.injEq]
  constructor
  · rintro ⟨_, _, ⟨hva, rfl⟩, hn, rfl⟩
    exact ⟨hn.symm, hva, rfl⟩
  · rintro ⟨hn, hva, rfl⟩
    exact ⟨(), m', ⟨hva, rfl⟩, hn.symm, rfl⟩

theorem fromRaw_ok {va t : Nat} {m m' : Memory} :
    PageTable.fromRaw va m = .ok t m' ↔ t = va ∧ IsAligned va ∧ m' = m := by
  simp only [PageTable.fromRaw, Call.bind_eq_ok, require_ok, Call.pure_apply, Outcome.ok.injEq]
  constructor
  · rintro ⟨_, _, ⟨hva, rfl⟩, rfl, rfl⟩
    exact ⟨rfl, hva, rfl⟩
  · rintro ⟨rfl, hva, rfl⟩
    exact ⟨(), m', ⟨hva, rfl⟩, rfl, rfl⟩

theorem child_ok {e : Entry} {t : Nat} {m m' : Memory} :
    PageTable.child e m = .ok t m' ↔
      t = target e ∧ target e < 2 ^ 64 ∧ IsAligned (target e) ∧ m' = m := by
  simp only [PageTable.child, PhysAddr.intoVa, Call.bind_eq_ok, addUsize_ok, fromRaw_ok]
  constructor
  · rintro ⟨_, _, ⟨rfl, fits, rfl⟩, rfl, aligned, rfl⟩
    exact ⟨rfl, fits, aligned, rfl⟩
  · rintro ⟨rfl, fits, aligned, rfl⟩
    exact ⟨target e, m', ⟨rfl, fits, rfl⟩, rfl, aligned, rfl⟩

theorem walk_none {t : Nat} {i : Fin 512} {m : Memory} (h : ¬ (m.tables t i).isValid) :
    PageTable.walk t i m = .ok none m := by
  rw [PageTable.walk, if_neg h]

theorem walk_some {t : Nat} {i : Fin 512} {m : Memory} (h : (m.tables t i).isValid)
    (sane : Sane (target (m.tables t i))) :
    PageTable.walk t i m = .ok (some (target (m.tables t i))) m := by
  have stepped : PageTable.child (m.tables t i) m = .ok (target (m.tables t i)) m :=
    child_ok.mpr ⟨rfl, sane.fits, (isAligned_iff _).mpr sane.aligned, rfl⟩
  rw [PageTable.walk, if_pos h, Call.bind_ok stepped]
  rfl

theorem new_ok {t : Nat} {m m' : Memory} (h : PageTable.new m = .ok t m') :
    m.kernelFree = t :: m'.kernelFree ∧ m'.tables = Function.update m.tables t fun _ => 0 := by
  simp only [PageTable.new, Call.bind_eq_ok, Call.modify_apply, fromRaw_ok] at h
  obtain ⟨page, m₁, hk, _, m₂, h₂, rfl, -, rfl⟩ := h
  rw [kalloc] at hk
  cases free : m.kernelFree with
  | nil => simp [free] at hk
  | cons head rest =>
    rw [free] at hk
    simp only [Outcome.ok.injEq] at hk h₂
    obtain ⟨rfl, rfl⟩ := hk
    obtain ⟨-, rfl⟩ := h₂
    exact ⟨rfl, rfl⟩

end Tacos.Userproc
