/- GID: Tacos/Mem/Palloc
   generality: I
   source: src/mem/palloc.rs
   digest: The buddy page allocator over byte memory, and the rules its free lists keep. -/

import Tacos.Lib.Buckets
import Tacos.Lib.Cover
import Tacos.Mem.Utils
import Mathlib.Algebra.Order.Ring.Nat
import Mathlib.Data.List.Pairwise
import Mathlib.Data.Nat.Bitwise

set_option autoImplicit false
set_option relaxedAutoImplicit false

namespace Tacos.Mem

open Tacos.Lib.Bytes Tacos.Lib.Buckets Tacos.Lib.Cover

def maxOrder : Nat := 8

/-- The free list of every order up to `maxOrder`; `total` is in bytes, `allocated` in
pages. -/
structure BuddyAllocator where
  freeLists : Nat → InMemList
  total : Nat
  allocated : Nat

/-- The order of a request of `n` pages. -/
def orderOf (n : Nat) : Nat := trailingZeros (nextPowerOfTwo n)

namespace BuddyAllocator

def empty : BuddyAllocator := ⟨fun _ => .new, 0, 0⟩

def setList (b : BuddyAllocator) (k : Nat) (l : InMemList) : BuddyAllocator :=
  { b with freeLists := Function.update b.freeLists k l }

/-- `self.free_lists[k].push(p)`. -/
def pushFree (b : BuddyAllocator) (m : Mem) (k p : Nat) : BuddyAllocator × Mem :=
  (b.setList k ((b.freeLists k).push m p).1, ((b.freeLists k).push m p).2)

/-- `self.free_lists[k].pop()`. -/
def popFree (b : BuddyAllocator) (m : Mem) (k : Nat) : Option (Nat × BuddyAllocator) :=
  ((b.freeLists k).pop m).map fun r => (r.1, b.setList k r.2)

/-- The loop of `insert_range`; the fuel is the number of pages. -/
def insertLoop (stop : Nat) : Nat → Nat → BuddyAllocator → Mem → Except Panic (BuddyAllocator × Mem)
  | fuel, currentStart, b, m =>
    if stop ≤ currentStart then .ok (b, m)
    else match fuel with
      | 0 => .error .endless
      | fuel + 1 =>
        let size := min (2 ^ trailingZeros currentStart) (prevPowerOfTwo (stop - currentStart))
        if trailingZeros size < pgShift then .error .underflow
        else
          let order := min (trailingZeros size - pgShift) maxOrder
          let (b, m) := b.pushFree m order currentStart
          insertLoop stop fuel (currentStart + 2 ^ order * pgSize) b m

def insertRange (b : BuddyAllocator) (m : Mem) (start stop : Nat) :
    Except Panic (BuddyAllocator × Mem) :=
  let start := roundUp start pgSize
  let stop := roundDown stop pgSize
  if stop < start then .error .underflow
  else insertLoop stop ((stop - start) / pgSize) start
  { b with total := b.total + (stop - start) } m

/-- Split a block of order `j + 1`, if there is one, into two of order `j`. -/
def splitOne (b : BuddyAllocator) (m : Mem) (j : Nat) : BuddyAllocator × Mem :=
  match b.popFree m (j + 1) with
  | none => (b, m)
  | some (block, b) =>
    let (b, m) := b.pushFree m j (block + 2 ^ j * pgSize)
    b.pushFree m j block

/-- The loop `for j in (order..order + count).rev()`. -/
def splitLoop (order : Nat) : Nat → BuddyAllocator → Mem → BuddyAllocator × Mem
  | 0, b, m => (b, m)
  | count + 1, b, m =>
    let (b, m) := b.splitOne m (order + count)
    splitLoop order count b m

def alloc (b : BuddyAllocator) (m : Mem) (n : Nat) : Except Panic (Nat × BuddyAllocator × Mem) :=
  if 2 ^ maxOrder < n then .error .tooLarge
  else
    let order := orderOf n
    match (List.range' order (maxOrder + 1 - order)).find? fun i => !(b.freeLists i).isEmpty with
    | none => .error .exhausted
    | some i =>
      let (b, m) := b.splitLoop order (i - order) m
      let b := { b with allocated := b.allocated + 2 ^ order }
      match b.popFree m order with
      | none => .error .unwrapNone
      | some (block, b) => .ok (block, b, m)

/-- The merging loop of `dealloc`, from `currOrder` up to `maxOrder`. -/
def mergeLoop : Nat → Nat → Nat → BuddyAllocator → Mem → Except Panic (BuddyAllocator × Mem)
  | 0, _, _, b, m => .ok (b, m)
  | steps + 1, currPtr, currOrder, b, m =>
    let buddy := currPtr ^^^ 2 ^ (currOrder + pgShift)
    match (b.freeLists currOrder).iterMut.find (fun blk => blk.value = buddy) m (2 ^ 64 + 1) with
    | .error p => .error p
    | .ok none => .ok (b, m)
    | .ok (some blk) =>
      let (l, m) := blk.pop (b.freeLists currOrder) m
      let b := b.setList currOrder l
      let b := ((b.popFree m currOrder).map Prod.snd).getD b
      let currPtr := min currPtr buddy
      let (b, m) := b.pushFree m (currOrder + 1) currPtr
      mergeLoop steps currPtr (currOrder + 1) b m

def dealloc (b : BuddyAllocator) (m : Mem) (ptr n : Nat) : Except Panic (BuddyAllocator × Mem) :=
  let order := orderOf n
  if maxOrder < order then .error .indexOut
  else
    let (b, m) := b.pushFree m order ptr
    match mergeLoop (maxOrder - order) ptr order b m with
    | .error p => .error p
    | .ok (b, m) =>
      if b.allocated < 2 ^ order then .error .underflow
      else .ok ({ b with allocated := b.allocated - 2 ^ order }, m)

end BuddyAllocator

/-- A block of `2 ^ order` pages. -/
structure Block where
  addr : Nat
  order : Nat
  deriving DecidableEq, Repr

def Block.span (blk : Block) : Span := ⟨blk.addr, 2 ^ blk.order * pgSize⟩

def blocks (free : Nat → List Nat) : List Block :=
  (List.range (maxOrder + 1)).flatMap fun k => (free k).map (Block.mk · k)

/-- The bytes of these blocks are the same in both memories. -/
def Keeps (m m' : Mem) (out : List Block) : Prop := ∀ blk ∈ out, ∀ x ∈ blk.span, m' x = m x

/-- The free lists hold the blocks `free`; with the blocks `out`, which are elsewhere, they
tile the managed range. -/
structure Holds (lo hi : Nat) (b : BuddyAllocator) (m : Mem) (free : Nat → List Nat)
    (out : List Block) : Prop where
  pos : 0 < lo
  fits : hi ≤ 2 ^ 64
  spells : ∀ k, (b.freeLists k).Spells m (free k)
  above : ∀ k, maxOrder < k → free k = []
  tiles : Tiles lo hi ((blocks free ++ out).map Block.span)
  order_le : ∀ blk ∈ blocks free ++ out, blk.order ≤ maxOrder
  aligned : ∀ blk ∈ blocks free ++ out, 2 ^ (blk.order + pgShift) ∣ blk.addr

section Rules

variable {lo hi k p : Nat} {b : BuddyAllocator} {m m' m'' : Mem} {free : Nat → List Nat}
  {out out' : List Block} {blk : Block}

theorem Keeps.trans (h : Keeps m m' out) (h' : Keeps m' m'' out) : Keeps m m'' out :=
  fun blk hblk x hx => (h' blk hblk x hx).trans (h blk hblk x hx)

theorem Keeps.mono (h : Keeps m m' out) (sub : out' ⊆ out) : Keeps m m' out' :=
  fun blk hblk => h blk (sub hblk)

theorem mem_blocks : blk ∈ blocks free ↔ blk.order ≤ maxOrder ∧ blk.addr ∈ free blk.order := by
  simp only [blocks, List.mem_flatMap, List.mem_range, List.mem_map]
  constructor
  · rintro ⟨k, hk, p, hp, rfl⟩
    exact ⟨Nat.le_of_lt_succ hk, hp⟩
  · rintro ⟨hk, hp⟩
    exact ⟨blk.order, Nat.lt_succ_of_le hk, blk.addr, hp, rfl⟩

theorem blocks_take {l : List Nat} (hk : k ≤ maxOrder) (h : (free k).Perm (p :: l)) :
    (⟨p, k⟩ :: blocks (Function.update free k l)).Perm (blocks free) := by
  have same : blocks (Function.update free k l) = (List.range (maxOrder + 1)).flatMap
      (Function.update (fun j => (free j).map (Block.mk · j)) k (l.map (Block.mk · k))) := by
    apply List.flatMap_congr
    intro j _
    by_cases hj : j = k
    · subst hj
      simp
    · simp [hj]
  rw [same]
  exact flatMap_take_perm List.nodup_range (by simp; omega) (h.map _)

theorem blocks_give (hk : k ≤ maxOrder) :
    (⟨p, k⟩ :: blocks free).Perm (blocks (Function.update free k (p :: free k))) := by
  have head : (Function.update free k (p :: free k) k).Perm (p :: free k) := by simp
  simpa using blocks_take hk head

theorem span_size_pos (blk : Block) : pgSize ≤ blk.span.size :=
  Nat.le_mul_of_pos_left _ (Nat.two_pow_pos _)

theorem addr_mem_span (blk : Block) : blk.addr ∈ blk.span := by
  have : 0 < blk.span.size := lt_of_lt_of_le (by decide) (span_size_pos blk)
  exact ⟨le_rfl, Nat.lt_add_of_pos_right this⟩

theorem words_apart {blk' : Block} (h : Apart blk.span blk'.span) :
    blk.addr + 8 ≤ blk'.addr ∨ blk'.addr + 8 ≤ blk.addr := by
  have size : 8 ≤ blk.span.size := le_trans (by decide) (span_size_pos blk)
  have size' : 8 ≤ blk'.span.size := le_trans (by decide) (span_size_pos blk')
  have left := h blk'.addr
  have right := h.symm blk.addr
  simp only [mem_span, Block.span] at left right size size'
  omega

theorem word_mem_span (blk : Block) {x : Nat} (h : blk.addr ≤ x)
    (h' : x < blk.addr + 8) : x ∈ blk.span := by
  have size : 8 ≤ blk.span.size := le_trans (by decide) (span_size_pos blk)
  refine ⟨h, ?_⟩
  have : blk.span.start = blk.addr := rfl
  omega

namespace Holds

theorem perm (h : Holds lo hi b m free out) (hp : out.Perm out') : Holds lo hi b m free out' where
  pos := h.pos
  fits := h.fits
  spells := h.spells
  above := h.above
  tiles := h.tiles.perm ((hp.append_left _).map _)
  order_le blk hblk := h.order_le blk ((hp.append_left _).mem_iff.mpr hblk)
  aligned blk hblk := h.aligned blk ((hp.append_left _).mem_iff.mpr hblk)

theorem bounds (h : Holds lo hi b m free out) (hblk : blk ∈ blocks free ++ out) :
    lo ≤ blk.addr ∧ blk.addr < hi :=
  h.tiles.mem_iff.mp ⟨blk.span, List.mem_map_of_mem hblk, addr_mem_span blk⟩

theorem mem (h : Holds lo hi b m free out) (hp : p ∈ free k) : ⟨p, k⟩ ∈ blocks free := by
  refine mem_blocks.mpr ⟨?_, hp⟩
  by_contra hk
  rw [h.above k (Nat.lt_of_not_le hk)] at hp
  cases hp

theorem node_lt (h : Holds lo hi b m free out) (hp : p ∈ free k) : p < 2 ^ 64 := by
  have := (h.bounds (List.mem_append_left _ (h.mem hp))).2
  have := h.fits
  simp only at *
  omega

theorem apart_free (h : Holds lo hi b m free out) (hblk : blk ∈ out) {blk' : Block}
    (hblk' : blk' ∈ blocks free) : Apart blk.span blk'.span := by
  have tiles := h.tiles.pairwise
  rw [List.map_append, List.pairwise_append] at tiles
  exact (tiles.2.2 blk'.span (List.mem_map_of_mem hblk') blk.span (List.mem_map_of_mem hblk)).symm

theorem free_apart (h : Holds lo hi b m free out) {blk' : Block} (hblk : blk ∈ blocks free)
    (hblk' : blk' ∈ blocks free) (hne : blk ≠ blk') : Apart blk.span blk'.span := by
  have tiles := h.tiles.pairwise
  rw [List.map_append, List.pairwise_append] at tiles
  have : Std.Symm fun blk blk' : Block => Apart blk.span blk'.span := ⟨fun _ _ => Apart.symm⟩
  exact (List.pairwise_map.mp tiles.1).forall hblk hblk' hne

theorem out_pairwise (h : Holds lo hi b m free out) :
    out.Pairwise fun blk blk' => Apart blk.span blk'.span := by
  have tiles := h.tiles.pairwise
  rw [List.map_append, List.pairwise_append] at tiles
  exact List.pairwise_map.mp tiles.2.1

/-- What happens inside blocks that are elsewhere does not matter to the lists. -/
theorem scribble (h : Holds lo hi b m free out)
    (same : ∀ x, m' x ≠ m x → ∃ blk ∈ out, x ∈ blk.span) : Holds lo hi b m' free out where
  pos := h.pos
  fits := h.fits
  spells k := by
    refine (h.spells k).congr fun p hp x hx hx' => ?_
    by_contra hne
    obtain ⟨blk, hblk, hmem⟩ := same x hne
    exact h.apart_free hblk (h.mem hp) x hmem (word_mem_span ⟨p, k⟩ hx hx')
  above := h.above
  tiles := h.tiles
  order_le := h.order_le
  aligned := h.aligned

theorem give (h : Holds lo hi b m free (⟨p, k⟩ :: out)) :
    Holds lo hi (b.pushFree m k p).1 (b.pushFree m k p).2 (Function.update free k (p :: free k))
      out ∧ ∀ x, x ∉ Block.span ⟨p, k⟩ → (b.pushFree m k p).2 x = m x := by
  have hk : k ≤ maxOrder := h.order_le ⟨p, k⟩ (by simp)
  have hp : p ≠ 0 := by
    have := (h.bounds (List.mem_append_right _ List.mem_cons_self)).1
    have := h.pos
    simp only at *
    omega
  have separate : ∀ j q, q ∈ free j → q + 8 ≤ p ∨ p + 8 ≤ q := fun j q hq =>
    (words_apart (h.apart_free List.mem_cons_self (h.mem hq))).symm
  have frame : ∀ x, x < p ∨ p + 8 ≤ x → (b.pushFree m k p).2 x = m x :=
    fun x hx => InMemList.push_of_not_mem hx
  have moved : (blocks (Function.update free k (p :: free k)) ++ out).Perm
      (blocks free ++ ⟨p, k⟩ :: out) :=
    ((blocks_give hk).symm.append_right out).trans List.perm_middle.symm
  refine ⟨⟨h.pos, h.fits, ?_, ?_, h.tiles.perm (moved.symm.map _), ?_, ?_⟩, ?_⟩
  · intro j
    by_cases hj : j = k
    · subst hj
      simp only [BuddyAllocator.pushFree, BuddyAllocator.setList, Function.update_self]
      exact (h.spells j).push (fun q hq => h.node_lt hq) hp fun q hq => separate j q hq
    · simp only [BuddyAllocator.pushFree, BuddyAllocator.setList, Function.update_of_ne hj]
      refine (h.spells j).congr fun q hq x hx hx' => frame x ?_
      have := separate j q hq
      omega
  · intro j hj
    rw [Function.update_of_ne (by omega)]
    exact h.above j hj
  · exact fun blk hblk => h.order_le blk (moved.mem_iff.mp hblk)
  · exact fun blk hblk => h.aligned blk (moved.mem_iff.mp hblk)
  · intro x hx
    apply frame
    by_contra hin
    exact hx (word_mem_span ⟨p, k⟩ (by simp only; omega) (by simp only; omega))

/-- Taking a block off a list, once the list is spelled without it. -/
private theorem remove {l : InMemList} {ns : List Nat} (h : Holds lo hi b m free out)
    (hp : (free k).Perm (p :: ns)) (spells : l.Spells m' ns)
    (frame : ∀ x, (∀ q ∈ free k, x < q ∨ q + 8 ≤ x) → m' x = m x) :
    Holds lo hi (b.setList k l) m' (Function.update free k ns) (⟨p, k⟩ :: out) := by
  have hk : k ≤ maxOrder := (mem_blocks.mp (h.mem (hp.mem_iff.mpr List.mem_cons_self))).1
  have moved : (blocks (Function.update free k ns) ++ ⟨p, k⟩ :: out).Perm (blocks free ++ out) :=
    List.perm_middle.trans ((blocks_take hk hp).append_right out)
  refine ⟨h.pos, h.fits, ?_, ?_, h.tiles.perm (moved.symm.map _), ?_, ?_⟩
  · intro j
    by_cases hj : j = k
    · subst hj
      simpa [BuddyAllocator.setList] using spells
    · simp only [BuddyAllocator.setList, Function.update_of_ne hj]
      refine (h.spells j).congr fun q hq x hx hx' => frame x fun r hr => ?_
      have apart := h.free_apart (h.mem hq) (h.mem hr) (by simp [hj])
      have := words_apart apart
      simp only at this
      omega
  · intro j hj
    rw [Function.update_of_ne (by omega)]
    exact h.above j hj
  · exact fun blk hblk => h.order_le blk (moved.mem_iff.mp hblk)
  · exact fun blk hblk => h.aligned blk (moved.mem_iff.mp hblk)

theorem take {ns : List Nat} (h : Holds lo hi b m free out) (hf : free k = p :: ns) :
    ∃ b', b.popFree m k = some (p, b') ∧ b'.total = b.total ∧ b'.allocated = b.allocated ∧
      Holds lo hi b' m (Function.update free k ns) (⟨p, k⟩ :: out) := by
  have spells := h.spells k
  rw [hf] at spells
  obtain ⟨pop, rest⟩ := spells.pop_eq
  refine ⟨b.setList k ⟨link m p⟩, by simp [BuddyAllocator.popFree, pop], rfl, rfl, ?_⟩
  exact h.remove (hf ▸ .refl _) rest fun _ _ => rfl

/-- Removing a block from the middle of a list through the iterator. -/
theorem unlink {l₁ l₂ : List Nat} (h : Holds lo hi b m free out) (hf : free k = l₁ ++ p :: l₂) :
    Holds lo hi (b.setList k (ListNode.pop ⟨l₁.getLast?, p⟩ (b.freeLists k) m).1)
      (ListNode.pop ⟨l₁.getLast?, p⟩ (b.freeLists k) m).2 (Function.update free k (l₁ ++ l₂))
      (⟨p, k⟩ :: out) ∧
    Keeps m (ListNode.pop ⟨l₁.getLast?, p⟩ (b.freeLists k) m).2 out := by
  have spells := h.spells k
  rw [hf] at spells
  have apart : ∀ q ∈ l₁ ++ p :: l₂, ∀ r ∈ l₁ ++ p :: l₂, q ≠ r → q + 8 ≤ r ∨ r + 8 ≤ q := by
    intro q hq r hr hne
    rw [← hf] at hq hr
    exact words_apart (h.free_apart (h.mem hq) (h.mem hr) (by simp [hne]))
  refine ⟨h.remove (hf ▸ List.perm_middle) (spells.remove apart) fun x hx => ?_, ?_⟩
  · exact InMemList.remove_of_not_mem fun q hq => hx q (hf ▸ hq)
  · intro blk hblk x hx
    refine InMemList.remove_of_not_mem fun q (hq : q ∈ l₁ ++ p :: l₂) => ?_
    have apart := h.apart_free hblk (h.mem (hf ▸ hq)) x hx
    by_contra hin
    exact apart (word_mem_span ⟨q, k⟩ (by simp only; omega) (by simp only; omega))

theorem split (h : Holds lo hi b m free (⟨p, k + 1⟩ :: out)) :
    Holds lo hi b m free (⟨p, k⟩ :: ⟨p + 2 ^ k * pgSize, k⟩ :: out) := by
  have hk := h.order_le ⟨p, k + 1⟩ (by simp)
  have hp := h.aligned ⟨p, k + 1⟩ (by simp)
  have tiles := h.tiles.perm (List.perm_middle.map Block.span)
  have size : 2 ^ (k + 1) * pgSize = 2 ^ k * pgSize + 2 ^ k * pgSize := by ring
  have half : 2 ^ (k + pgShift) ∣ p := by
    refine dvd_trans (pow_dvd_pow 2 ?_) hp
    simp only
    omega
  refine ⟨h.pos, h.fits, h.spells, h.above, ?_, ?_, ?_⟩
  · simp only [List.map_cons, Block.span, size] at tiles
    refine tiles.split.perm ?_
    simp only [List.map_append, List.map_cons, Block.span]
    exact (List.perm_middle.trans (List.perm_middle.cons _)).symm
  · intro blk hblk
    simp only [List.mem_append, List.mem_cons] at hblk
    rcases hblk with hblk | rfl | rfl | hblk
    · exact h.order_le blk (List.mem_append_left _ hblk)
    · exact Nat.le_of_succ_le hk
    · exact Nat.le_of_succ_le hk
    · exact h.order_le blk (by simp [hblk])
  · intro blk hblk
    simp only [List.mem_append, List.mem_cons] at hblk
    rcases hblk with hblk | rfl | rfl | hblk
    · exact h.aligned blk (List.mem_append_left _ hblk)
    · exact half
    · exact (Nat.dvd_add_right half).mpr (by rw [pgSize, ← pow_add])
    · exact h.aligned blk (by simp [hblk])

theorem merge (h : Holds lo hi b m free (⟨p, k⟩ :: ⟨p + 2 ^ k * pgSize, k⟩ :: out))
    (hk : k < maxOrder) (hp : 2 ^ (k + 1 + pgShift) ∣ p) :
    Holds lo hi b m free (⟨p, k + 1⟩ :: out) := by
  have size : 2 ^ (k + 1) * pgSize = 2 ^ k * pgSize + 2 ^ k * pgSize := by ring
  refine ⟨h.pos, h.fits, h.spells, h.above, ?_, ?_, ?_⟩
  · have tiles := h.tiles.perm ((List.perm_middle.trans (List.perm_middle.cons _)).map Block.span)
    simp only [List.map_cons, Block.span] at tiles
    have merged := tiles.merge
    rw [← size] at merged
    refine merged.perm ?_
    simp only [List.map_append, List.map_cons, Block.span]
    exact List.perm_middle.symm
  · intro blk hblk
    simp only [List.mem_append, List.mem_cons] at hblk
    rcases hblk with hblk | rfl | hblk
    · exact h.order_le blk (List.mem_append_left _ hblk)
    · exact hk
    · exact h.order_le blk (by simp [hblk])
  · intro blk hblk
    simp only [List.mem_append, List.mem_cons] at hblk
    rcases hblk with hblk | rfl | hblk
    · exact h.aligned blk (List.mem_append_left _ hblk)
    · exact hp
    · exact h.aligned blk (by simp [hblk])

end Holds

end Rules

end Tacos.Mem
