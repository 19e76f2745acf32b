/- GID: Tacos/Userproc/Lending
   generality: I
   source: src/mem/malloc.rs, src/mem/palloc.rs, src/mem/pagetable.rs
   digest: Blocks of pages from the kernel's heap, and calls that do not mind more free pages. -/

import Tacos.Mem.Malloc
import Tacos.Userproc.Supply

set_option autoImplicit false
set_option relaxedAutoImplicit false

namespace Tacos.Userproc

open Tacos.Lib.Exec Tacos.Mem Tacos.Fs

namespace Palloc

def blockPages (order base : Nat) : List Nat :=
  (List.range (2 ^ order)).map fun k => base + k * pgSize

/-- A block of an order at a multiple of its size, with all of its pages free. -/
def FreeBlock (free : List Nat) (order base : Nat) : Prop :=
  base % (2 ^ order * pgSize) = 0 ∧ ∀ p ∈ blockPages order base, p ∈ free

instance (free : List Nat) (order base : Nat) : Decidable (FreeBlock free order base) :=
  inferInstanceAs (Decidable (_ ∧ _))

/-- `Palloc::alloc(n)`. Buddies that are free are always merged, so a block is found whenever there
is one. -/
def alloc (n : Nat) : M (List Nat) := fun m =>
  if n ≤ 2 ^ maxOrder then
    match m.kernelFree.find? fun base => FreeBlock m.kernelFree (Mem.orderOf n) base with
    | some base =>
      let pages := blockPages (Mem.orderOf n) base
      .ok pages { m with kernelFree := m.kernelFree.filter (· ∉ pages) }
    | none => .halt .assertion
  else .halt .assertion

def dealloc (pages : List Nat) : M Unit :=
  Call.modify fun m => { m with kernelFree := pages ++ m.kernelFree }

end Palloc

/-- The pages of a request to the kernel's heap, if it does not come from an arena. -/
def spilledPages (size : Nat) : Nat :=
  if nextPowerOfTwo size ≤ maxBlksize then 0 else (size + pgSize - 1) / pgSize

theorem spilledPages_eq_zero {size : Nat} (small : size ≤ 2 ^ 10) : spilledPages size = 0 := by
  rw [spilledPages, if_pos]
  exact Nat.pow_le_pow_right (by decide) ((nextPowerShift_le_iff size 10).mpr small)

theorem spilledPages_le_iff (size : Nat) :
    spilledPages size ≤ 2 ^ maxOrder ↔ size ≤ 2 ^ maxOrder * pgSize := by
  have page : pgSize = 2 ^ 12 := rfl
  have most : 2 ^ maxOrder * pgSize = 2 ^ 20 := rfl
  have order : 2 ^ maxOrder = 2 ^ 8 := rfl
  rw [spilledPages, most, order, page]
  split
  case isTrue arena =>
    have small : size ≤ 2 ^ 10 := (nextPowerShift_le_iff size 10).mp
      ((Nat.pow_le_pow_iff_right (by decide : 1 < 2)).mp arena)
    omega
  case isFalse => omega

/-- `kalloc(size, align)` for an alignment that is not above the size. The arenas have pages of
their own, which are not among those of this memory. -/
def kallocSize (size : Nat) : M (List Nat) :=
  if spilledPages size = 0 then pure [] else Palloc.alloc (spilledPages size)

/-- `kfree(ptr, size, align)`. -/
def kfreeSize (pages : List Nat) : M Unit := Palloc.dealloc pages

def Memory.withFree (m : Memory) (free : List Nat) : Memory := { m with kernelFree := free }

def Memory.plus (m : Memory) (more : List Nat) : Memory := m.withFree (m.kernelFree ++ more)

section Free

variable {m m' : Memory} {free more : List Nat}

@[simp] theorem Memory.withFree_tables : (m.withFree free).tables = m.tables := rfl

@[simp] theorem Memory.withFree_userFree : (m.withFree free).userFree = m.userFree := rfl

@[simp] theorem Memory.withFree_kernelFree : (m.withFree free).kernelFree = free := rfl

@[simp] theorem Memory.withFree_withFree : (m.withFree free).withFree more = m.withFree more := rfl

@[simp] theorem Memory.plus_tables : (m.plus more).tables = m.tables := rfl

@[simp] theorem Memory.plus_userFree : (m.plus more).userFree = m.userFree := rfl

@[simp] theorem Memory.plus_kernelFree : (m.plus more).kernelFree = m.kernelFree ++ more := rfl

@[simp] theorem Memory.plus_nil (m : Memory) : m.plus [] = m := by
  rw [plus, List.append_nil]
  rfl

end Free

section Frames

variable {α β : Type}

/-- Where a call returns, it returns the same with more free pages, and leaves these alone. -/
def Frames (x : M α) : Prop :=
  ∀ m a m' more, x m = .ok a m' → x (m.plus more) = .ok a (m'.plus more)

theorem Frames.pure (a : α) : Frames (pure a : M α) := by
  intro m b m' more ran
  cases ran
  rfl

theorem Frames.halt (e : Halt) : Frames (Call.halt e : M α) := fun _ _ _ _ ran => nomatch ran

theorem Frames.bind {x : M α} {f : α → M β} (hx : Frames x) (hf : ∀ a, Frames (f a)) :
    Frames (x >>= f) := by
  intro m b m' more ran
  obtain ⟨a, m₁, first, rest⟩ := Call.bind_eq_ok.mp ran
  rw [Call.bind_ok (hx m a m₁ more first)]
  exact hf a m₁ b m' more rest

/-- A change of the memory that leaves the free pages alone, or puts some in front. -/
theorem Frames.modify {g : Memory → Memory}
    (h : ∀ m more, g (m.plus more) = (g m).plus more) : Frames (Call.modify g) := by
  intro m _ m' more ran
  cases ran
  exact congrArg (Outcome.ok ()) (h m more)

theorem Frames.require (p : Prop) [Decidable p] : Frames (require p) := by
  rw [Userproc.require]
  split
  · exact .pure ()
  · exact .halt _

theorem Frames.addUsize (a b : Nat) : Frames (addUsize a b) := by
  rw [Userproc.addUsize]
  split
  · exact .pure _
  · exact .halt _

theorem Frames.subUsize (a b : Nat) : Frames (subUsize a b) := by
  rw [Userproc.subUsize]
  split
  · exact .pure _
  · exact .halt _

theorem Frames.ofVa (va : Nat) : Frames (PhysAddr.ofVa va) := .bind (.require _) fun _ => .pure _

theorem Frames.fromRaw (entries : Nat) : Frames (PageTable.fromRaw entries) :=
  .bind (.require _) fun _ => .pure _

theorem Frames.kalloc : Frames kalloc := by
  intro m page m' more ran
  rw [Userproc.kalloc] at ran ⊢
  rw [Memory.plus_kernelFree]
  cases free : m.kernelFree with
  | nil => simp [free] at ran
  | cons head rest =>
    rw [free] at ran
    cases ran
    rfl

theorem Frames.new : Frames PageTable.new :=
  .bind .kalloc fun _ => .bind (.modify fun _ _ => rfl) fun _ => .fromRaw _

theorem Frames.walk (t : PageTable) (index : Fin 512) : Frames (t.walk index) := by
  intro m a m' more ran
  rw [PageTable.walk] at ran ⊢
  split at ran
  case isTrue valid =>
    have child : Frames (PageTable.child (m.tables t index) >>= fun l => Pure.pure (some l)) :=
      .bind (.bind (.addUsize _ _) fun _ => .fromRaw _) fun _ => .pure _
    rw [Memory.plus_tables, if_pos valid]
    exact child m a m' more ran
  case isFalse invalid =>
    cases ran
    rw [Memory.plus_tables, if_neg invalid]

theorem Frames.create (t : PageTable) (index : Fin 512) (flag : PTEFlags) :
    Frames (t.create index flag) :=
  .bind .new fun _ => .bind (.ofVa _) fun _ => .bind (.modify fun _ _ => rfl) fun _ => .pure _

theorem Frames.walkOrCreate (t : PageTable) (index : Fin 512) (isGlobal : Bool) :
    Frames (t.walkOrCreate index isGlobal) := by
  refine .bind (.walk t index) fun found => ?_
  cases found with
  | none => exact .create t index _
  | some l => exact .pure l

theorem Frames.mapPage (t : PageTable) (pa va : Nat) (flag : PTEFlags) :
    Frames (t.mapPage pa va flag) :=
  .bind (.walkOrCreate t _ _) fun _ => .bind (.walkOrCreate _ _ _) fun _ => .modify fun _ _ => rfl

theorem Frames.mapLoop (t : PageTable) (paEnd : Nat) (flag : PTEFlags) (fuel : Nat) :
    ∀ pa va : Nat, Frames (t.mapLoop paEnd flag fuel pa va) := by
  induction fuel with
  | zero => exact fun _ _ => .halt _
  | succ fuel ih =>
    intro pa va
    rw [PageTable.mapLoop]
    split
    · exact .bind (.mapPage t pa va flag) fun _ => .bind (.addUsize _ _) fun _ =>
        .bind (.addUsize _ _) fun _ => ih _ _
    · exact .pure ()

theorem Frames.map (t : PageTable) (pa va size : Nat) (flag : PTEFlags) :
    Frames (t.map pa va size flag) :=
  .bind (.require _) fun _ => .bind (.addUsize _ _) fun _ => .mapLoop t _ flag _ _ _

theorem Frames.forEach {f : α → M Unit} (h : ∀ a, Frames (f a)) (as : List α) :
    Frames (PageTable.forEach f as) := by
  induction as with
  | nil => exact .pure ()
  | cons a as ih => exact .bind (h a) fun _ => ih

theorem Frames.clone (kernel : PageTable) : Frames (KernelPgTable.clone kernel) :=
  .bind .new fun _ => .bind (.modify fun _ _ => rfl) fun _ => .pure _

theorem Frames.initInner (etext ramSize : Nat) : Frames (KernelPgTable.initInner etext ramSize) :=
  .bind .new fun _ => .bind (.addUsize _ _) fun _ => .bind (.subUsize _ _) fun _ =>
    .bind (.map _ _ _ _ _) fun _ => .bind (.ofVa _) fun _ => .bind (.subUsize _ _) fun _ =>
    .bind (.map _ _ _ _ _) fun _ => .bind (.ofVa _) fun _ => .bind (.map _ _ _ _ _) fun _ =>
    .bind (.ofVa _) fun _ => .bind (.map _ _ _ _ _) fun _ => .pure _

theorem Frames.allocPage : Frames UserPool.allocPage := by
  intro m page m' more ran
  rw [UserPool.allocPage] at ran ⊢
  rw [Memory.plus_userFree]
  cases free : m.userFree with
  | nil => simp [free] at ran
  | cons head rest =>
    rw [free] at ran
    cases ran
    rfl

theorem Frames.destroyAt {level : Nat} {below : PageTable → M Unit} (h : ∀ t, Frames (below t))
    (t : PageTable) : Frames (PageTable.destroyAt level below t) := by
  have entry : ∀ e, Frames (PageTable.destroyEntry level below e) := by
    intro e
    refine .bind (.addUsize _ _) fun va => ?_
    by_cases leaf : e.isLeaf
    · rw [if_pos leaf]
      exact .modify fun _ _ => rfl
    · rw [if_neg leaf]
      exact .bind (.fromRaw va) h
  intro m _ m' more ran
  have all : Frames (PageTable.forEach (PageTable.destroyEntry level below)
      (PageTable.ownEntries (m.tables t)) >>= fun _ => kfree t) :=
    .bind (.forEach entry _) fun _ => .modify fun _ _ => rfl
  rw [PageTable.destroyAt, Call.get_bind] at ran ⊢
  exact all m () m' more ran

theorem Frames.destroy (t : PageTable) : Frames t.destroy := by
  have each : ∀ level t, Frames (PageTable.destroyImp level t) := by
    intro level
    induction level with
    | zero => exact .destroyAt fun _ => .halt _
    | succ level ih => exact .destroyAt ih
  exact each 2 t

end Frames

section Lending

variable {kernel : Nat} {users pages more : List Nat} {m m₁ m₂ m' : Memory}
  {place : Nat → Option Place} {n order base : Nat}

theorem Planted.less (h : Planted kernel users m place) (tables : m'.tables = m.tables)
    (nodup : m'.kernelFree.Nodup) (sub : ∀ t ∈ m'.kernelFree, t ∈ m.kernelFree) :
    Planted kernel users m' place := by
  refine ⟨h.toGrounded.less tables nodup sub, h.apart, ?_, ?_, ?_⟩
  · exact tables ▸ h.inherits
  · exact tables ▸ h.shares
  · exact tables ▸ h.upper

theorem Planted.perm (h : Planted kernel users m place) (tables : m'.tables = m.tables)
    (free : m'.kernelFree.Perm m.kernelFree) : Planted kernel users m' place :=
  h.less tables (free.nodup_iff.mpr h.nodup) fun _ ht => free.mem_iff.mp ht

namespace Palloc

theorem nodup_blockPages (order base : Nat) : (blockPages order base).Nodup := by
  refine List.nodup_range.map ?_
  intro a b hab
  simp only [pgSize, pgShift] at hab
  omega

theorem length_blockPages (order base : Nat) : (blockPages order base).length = 2 ^ order := by
  rw [blockPages, List.length_map, List.length_range]

theorem self_mem_blockPages (order base : Nat) : base ∈ blockPages order base :=
  List.mem_map.mpr ⟨0, List.mem_range.mpr Nat.one_le_two_pow, by rw [Nat.zero_mul, Nat.add_zero]⟩

theorem perm_filter {free : List Nat} (nodup : free.Nodup) (block : FreeBlock free order base) :
    free.Perm (blockPages order base ++ free.filter (· ∉ blockPages order base)) := by
  have inside : (free.filter (· ∈ blockPages order base)).Perm (blockPages order base) := by
    refine (List.perm_ext_iff_of_nodup (nodup.filter _) (nodup_blockPages order base)).mpr
      fun p => ?_
    rw [List.mem_filter, decide_eq_true_iff, and_iff_right_iff_imp]
    exact block.2 p
  refine (List.filter_append_perm (· ∈ blockPages order base) free).symm.trans
    (inside.append (.of_eq (List.filter_congr fun p _ => ?_)))
  rw [decide_not]

theorem alloc_ok (ran : alloc n m = .ok pages m') : n ≤ 2 ^ maxOrder ∧
    ∃ base, FreeBlock m.kernelFree (Mem.orderOf n) base ∧ pages = blockPages (Mem.orderOf n) base ∧
      m' = m.withFree (m.kernelFree.filter (· ∉ pages)) := by
  rw [alloc] at ran
  split at ran
  case isFalse => cases ran
  case isTrue small =>
    refine ⟨small, ?_⟩
    split at ran
    case h_2 => cases ran
    case h_1 base found =>
      cases ran
      have block := List.find?_some found
      exact ⟨base, of_decide_eq_true block, rfl, rfl⟩

theorem alloc_returns (small : n ≤ 2 ^ maxOrder)
    (block : FreeBlock m.kernelFree (Mem.orderOf n) base) :
    ∃ pages m', alloc n m = .ok pages m' := by
  have found : (m.kernelFree.find? fun base => FreeBlock m.kernelFree
    (Mem.orderOf n) base).isSome :=
    List.find?_isSome.mpr
      ⟨base, block.2 base (self_mem_blockPages _ base), decide_eq_true block⟩
  obtain ⟨base', found⟩ := Option.isSome_iff_exists.mp found
  refine ⟨blockPages (Mem.orderOf n) base',
    m.withFree (m.kernelFree.filter (· ∉ blockPages (Mem.orderOf n) base')), ?_⟩
  rw [alloc, if_pos small, found]
  rfl

end Palloc

/-- A memory from which these pages are lent. -/
structure Lent (m : Memory) (pages : List Nat) (m' : Memory) : Prop where
  rest : m' = m.withFree m'.kernelFree
  perm : m.kernelFree.Perm (pages ++ m'.kernelFree)

theorem kallocSize_lent (nodup : m.kernelFree.Nodup) (ran : kallocSize n m = .ok pages m') :
    Lent m pages m' := by
  rw [kallocSize] at ran
  split at ran
  case isTrue =>
    cases ran
    exact ⟨rfl, .refl _⟩
  case isFalse =>
    obtain ⟨-, base, block, rfl, rfl⟩ := Palloc.alloc_ok ran
    exact ⟨rfl, Palloc.perm_filter nodup block⟩

def Room (free : List Nat) (n : Nat) : Prop :=
  n = 0 ∨ ∃ base, Palloc.FreeBlock free (Mem.orderOf n) base

/-- The length of the block that is lent for a request of so many pages. -/
def blockLength (n : Nat) : Nat := if n = 0 then 0 else 2 ^ Mem.orderOf n

theorem kallocSize_returns (nodup : m.kernelFree.Nodup) (small : spilledPages n ≤ 2 ^ maxOrder)
    (room : Room m.kernelFree (spilledPages n)) :
    ∃ pages m', kallocSize n m = .ok pages m' ∧ Lent m pages m' ∧
      pages.length = blockLength (spilledPages n) := by
  by_cases none : spilledPages n = 0
  · have ran : kallocSize n m = .ok [] m := by
      rw [kallocSize, if_pos none]
      rfl
    exact ⟨[], m, ran, kallocSize_lent nodup ran, by rw [blockLength, if_pos none]; rfl⟩
  · obtain ⟨base, block⟩ := room.resolve_left none
    obtain ⟨pages, m', allocated⟩ := Palloc.alloc_returns small block
    have ran : kallocSize n m = .ok pages m' := by
      rw [kallocSize, if_neg none, allocated]
    obtain ⟨-, base', -, rfl, -⟩ := Palloc.alloc_ok allocated
    refine ⟨_, m', ran, kallocSize_lent nodup ran, ?_⟩
    rw [blockLength, if_neg none, Palloc.length_blockPages]

/-- A request for more pages than the allocator has in a block is refused. -/
theorem kallocSize_small (ran : kallocSize n m = .ok pages m') : spilledPages n ≤ 2 ^ maxOrder := by
  rw [kallocSize] at ran
  split at ran
  case isTrue none => exact none ▸ Nat.zero_le _
  case isFalse => exact (Palloc.alloc_ok ran).1

theorem Lent.tables (lent : Lent m pages m') : m'.tables = m.tables := by
  rw [lent.rest]
  rfl

theorem Lent.userFree (lent : Lent m pages m') : m'.userFree = m.userFree := by
  rw [lent.rest]
  rfl

theorem Lent.planted (lent : Lent m pages m') (h : Planted kernel users m place) :
    Planted kernel users m' place := by
  have nodup := (lent.perm.nodup_iff.mp h.nodup)
  refine h.less lent.tables (List.nodup_append'.mp nodup).2.1 fun t ht => ?_
  exact lent.perm.mem_iff.mpr (List.mem_append_right _ ht)

/-- What is done while pages are lent could have been done with these pages free. -/
theorem Lent.frame {α : Type} {x : M α} {a : α} (lent : Lent m pages m₁) (frames : Frames x)
    (ran : x m₁ = .ok a m₂) : x (m.withFree (m₁.kernelFree ++ pages)) = .ok a (m₂.plus pages) := by
  have more := frames m₁ a m₂ pages ran
  rw [lent.rest] at more
  exact more

end Lending

end Tacos.Userproc
