/- GID: Tacos/Mem/Heap
   generality: I
   source: src/mem/malloc.rs
   digest: Every history of the kernel heap keeps its live blocks apart from each other and from
     all bookkeeping. -/

import Tacos.Mem.Class

set_option autoImplicit false
set_option relaxedAutoImplicit false

namespace Tacos.Mem

open Tacos.Lib.Bytes Tacos.Lib.Buckets Tacos.Lib.Cover
open Tacos.Lib.Run (run run_invariant)
open scoped List

namespace Layout

/-- The requests the heap has to serve. -/
def Valid (l : Layout) : Prop :=
  l.size ≠ 0 ∧ isPowerOfTwo l.align = true ∧ l.align ≤ pgSize ∧ l.size ≤ 2 ^ maxOrder * pgSize

instance (l : Layout) : Decidable l.Valid := inferInstanceAs (Decidable (_ ∧ _ ∧ _ ∧ _))

def classOf (l : Layout) : Option (Fin 8) :=
  if l.effective ≤ maxBlksize then if hi : l.index < 8 then some ⟨l.index, hi⟩ else none else none

variable {l : Layout}

theorem Valid.shift (h : l.Valid) :
    ∃ k, l.effective = 2 ^ k ∧ trailingZeros l.effective = k ∧
      l.size ≤ 2 ^ k ∧ l.align ∣ 2 ^ k := by
  obtain ⟨-, power, align, size⟩ := h
  have power : l.align = 2 ^ Nat.log2 l.align := by simpa [isPowerOfTwo] using power
  have bound : Nat.log2 l.align ≤ pgShift := by
    rw [power, pgSize] at align
    exact (Nat.pow_le_pow_iff_right (by omega)).mp align
  have small : nextPowerShift l.size ≤ 20 := (nextPowerShift_le_iff l.size 20).mpr size
  have eff : l.effective = 2 ^ max (nextPowerShift l.size) (Nat.log2 l.align) := by
    rw [effective, nextPowerOfTwo]
    nth_rewrite 1 [power]
    rcases le_total (nextPowerShift l.size) (Nat.log2 l.align) with hle | hle
    · rw [max_eq_right hle, max_eq_right (Nat.pow_le_pow_right (by omega) hle)]
    · rw [max_eq_left hle, max_eq_left (Nat.pow_le_pow_right (by omega) hle)]
  refine ⟨_, eff, ?_, ?_, ?_⟩
  · rw [eff]
    simp only [pgShift] at bound
    exact trailingZeros_two_pow (by omega)
  · exact (nextPowerShift_le_iff l.size _).mp (le_max_left ..)
  · nth_rewrite 1 [power]
    exact pow_dvd_pow 2 (le_max_right ..)

/-- A small request goes to a class whose blocks are large and aligned enough. -/
theorem Valid.small (h : l.Valid) (hs : l.effective ≤ maxBlksize) :
    ∃ i : Fin 8, i.val = l.index ∧ l.classOf = some i ∧ l.size ≤ blockSize i ∧
      l.align ∣ blockSize i := by
  obtain ⟨k, eff, tz, size, align⟩ := h.shift
  have bound : k ≤ 10 := by
    rw [eff] at hs
    exact (Nat.pow_le_pow_iff_right (by omega)).mp hs
  have index : l.index = k - 3 := by rw [Layout.index, tz]
  have hi : l.index < 8 := by omega
  have grow : 2 ^ k ∣ blockSize ⟨l.index, hi⟩ := pow_dvd_pow 2 (by simp only; omega)
  refine ⟨⟨l.index, hi⟩, rfl, by simp [classOf, hs, hi], ?_, dvd_trans align grow⟩
  exact size.trans (Nat.le_of_dvd (Nat.two_pow_pos _) grow)

theorem Valid.pages_le (h : l.Valid) : l.pages ≤ 2 ^ maxOrder := by
  have size := h.2.2.2
  simp only [Layout.pages, pgSize, pgShift, maxOrder] at size ⊢
  omega

theorem Valid.large (h : l.Valid) : l.size ≤ 2 ^ orderOf l.pages * pgSize := by
  have enough := le_two_pow_orderOf h.pages_le
  have whole : l.size ≤ l.pages * pgSize := by
    simp only [Layout.pages, pgSize, pgShift]
    omega
  exact whole.trans (Nat.mul_le_mul_right _ enough)

theorem Valid.align_dvd (h : l.Valid) : l.align ∣ pgSize := by
  have power : l.align = 2 ^ Nat.log2 l.align := by simpa [isPowerOfTwo] using h.2.1
  have bound := h.2.2.1
  rw [power, pgSize] at bound ⊢
  exact pow_dvd_pow 2 ((Nat.pow_le_pow_iff_right (by omega)).mp bound)

end Layout

/-- The heap, the page allocator under it, their memory and the live blocks with the layouts
they were asked for. -/
structure HeapSys where
  heap : Heap
  palloc : BuddyAllocator
  mem : Mem
  live : List (Nat × Layout)

inductive HeapOp where
  | alloc (l : Layout)
  | dealloc (p : Nat) (l : Layout)
  | write (a : Nat) (v : UInt8)
  deriving DecidableEq, Repr

def liveSpan (r : Nat × Layout) : Span := ⟨r.1, r.2.size⟩

/-- The live blocks of a class, and those made of whole pages. -/
def takenOf (live : List (Nat × Layout)) (i : Fin 8) : List Nat :=
  live.filterMap fun r => if r.2.classOf = some i then some r.1 else none

def bigsOf (live : List (Nat × Layout)) : List Block :=
  live.filterMap fun r => if r.2.classOf = none then some ⟨r.1, orderOf r.2.pages⟩ else none

/-- All that is set aside for a live block. -/
def ownSpan (r : Nat × Layout) : Span :=
  match r.2.classOf with
  | some i => cell i r.1
  | none => Block.span ⟨r.1, orderOf r.2.pages⟩

namespace HeapSys

def step (place : Placement) (s : HeapSys) : HeapOp → Option HeapSys
  | .alloc l =>
    if l.Valid then
      match s.heap.alloc place s.palloc s.mem l with
      | .ok (p, h, b, m) => some ⟨h, b, m, (p, l) :: s.live⟩
      | .error _ => none
    else none
  | .dealloc p l =>
    if (p, l) ∈ s.live then
      match s.heap.dealloc place s.palloc s.mem p l with
      | .ok (h, b, m) => some ⟨h, b, m, s.live.erase (p, l)⟩
      | .error _ => none
    else none
  | .write a v =>
    if ∃ r ∈ s.live, a ∈ liveSpan r then some { s with mem := Function.update s.mem a v } else none

/-- The live blocks are apart from each other, from the headers of the arenas and from all
free blocks, and no call fails but for want of memory. -/
structure Safe (place : Placement) (s : HeapSys) (free : Nat → List Nat)
    (cls : Fin 8 → List Nat) : Prop where
  disjoint : s.live.Pairwise fun r r' => Apart (liveSpan r) (liveSpan r')
  aligned : ∀ r ∈ s.live, r.2.align ∣ r.1
  headers : ∀ r ∈ s.live, ∀ i, ∀ a ∈ (s.heap.descs i).arenas, Apart (liveSpan r) (header a)
  lists : ∀ i, (s.heap.descs i).freeList.Spells s.mem (cls i)
  blocks : ∀ r ∈ s.live, ∀ i, ∀ q ∈ cls i,
    Apart (liveSpan r) ⟨q, (s.heap.descs i).blockSize⟩
  pageLists : ∀ k ≤ maxOrder, (s.palloc.freeLists k).Spells s.mem (free k)
  pages : ∀ r ∈ s.live, ∀ blk ∈ Mem.blocks free, Apart (liveSpan r) blk.span
  arenas : ∀ i, ∀ a ∈ (s.heap.descs i).arenas,
    Arena.magic s.mem a = arenaMagic ∧ Arena.desc s.mem a = place.addr i
  serves : ∀ l : Layout, l.Valid → ∀ e,
    s.heap.alloc place s.palloc s.mem l = .error e → e = .exhausted
  frees : ∀ r ∈ s.live, ∃ s', s.heap.dealloc place s.palloc s.mem r.1 r.2 = .ok s'

/-- The live blocks in `kept`, and the identifying fields of all arenas, are the same. -/
structure Untouched (s s' : HeapSys) (kept : List (Nat × Layout)) : Prop where
  live : ∀ r ∈ kept, ∀ x ∈ liveSpan r, s'.mem x = s.mem x
  arenas : ∀ i, ∀ a ∈ (s.heap.descs i).arenas, a ∈ (s'.heap.descs i).arenas ∧
    ∀ x, x ∈ (⟨a, 4⟩ : Span) ∨ x ∈ (⟨a + 8, 8⟩ : Span) → s'.mem x = s.mem x

structure Inv (place : Placement) (lo hi : Nat) (s : HeapSys) (free : Nat → List Nat)
    (cls : Fin 8 → List Nat) : Prop where
  cells : Cells place lo hi s.heap s.palloc s.mem free cls (takenOf s.live) (bigsOf s.live)
  counts : Counts s.heap s.palloc s.mem cls (takenOf s.live) (bigsOf s.live)
  valid : ∀ r ∈ s.live, r.2.Valid

end HeapSys

section Live

variable {live : List (Nat × Layout)} {p : Nat} {l : Layout} {i : Fin 8}

theorem takenOf_small (hl : l.classOf = some i) :
    takenOf ((p, l) :: live) = Function.update (takenOf live) i (p :: takenOf live i) := by
  funext j
  by_cases hj : j = i
  · subst hj
    simp [takenOf, hl]
  · have hne : i ≠ j := Ne.symm hj
    simp [takenOf, hl, hj, hne]

theorem bigsOf_small (hl : l.classOf = some i) : bigsOf ((p, l) :: live) = bigsOf live := by
  simp [bigsOf, hl]

theorem takenOf_large (hl : l.classOf = none) : takenOf ((p, l) :: live) = takenOf live := by
  funext j
  simp [takenOf, hl]

theorem bigsOf_large (hl : l.classOf = none) :
    bigsOf ((p, l) :: live) = ⟨p, orderOf l.pages⟩ :: bigsOf live := by
  simp [bigsOf, hl]

private theorem ownSpan_perm (live : List (Nat × Layout)) :
    (live.map ownSpan).Perm ((List.finRange 8).flatMap (fun i => (takenOf live i).map (cell i)) ++
      (bigsOf live).map Block.span) := by
  induction live with
  | nil => simp [takenOf, bigsOf]
  | cons r live ih =>
    obtain ⟨p, l⟩ := r
    rw [List.map_cons]
    cases hl : l.classOf with
    | some i =>
      have own : ownSpan (p, l) = cell i p := by simp [ownSpan, hl]
      have same : (fun j => (takenOf live j).map (cell j)) =
          Function.update (fun j => (takenOf ((p, l) :: live) j).map (cell j)) i
            ((takenOf live i).map (cell i)) := by
        funext j
        by_cases hj : j = i
        · subst hj
          simp
        · simp [takenOf_small hl, hj]
      rw [own, bigsOf_small hl]
      refine (ih.cons _).trans ?_
      rw [← List.cons_append, same]
      refine List.Perm.append_right _ ?_
      refine flatMap_take_perm (List.nodup_finRange 8) (List.mem_finRange i) ?_
      simp [takenOf_small hl]
    | none =>
      have own : ownSpan (p, l) = Block.span ⟨p, orderOf l.pages⟩ := by simp [ownSpan, hl]
      rw [own, takenOf_large hl, bigsOf_large hl]
      exact (ih.cons _).trans List.perm_middle.symm

/-- What is set aside for a live block is a block of a class or a block of pages. -/
theorem ownSpan_cases {r : Nat × Layout} (hr : r ∈ live) :
    (∃ i, r.1 ∈ takenOf live i ∧ ownSpan r = cell i r.1) ∨
      ∃ blk ∈ bigsOf live, ownSpan r = blk.span := by
  unfold ownSpan
  split
  · rename_i i hl
    exact .inl ⟨i, List.mem_filterMap.mpr ⟨r, hr, by simp [hl]⟩, rfl⟩
  · rename_i hl
    exact .inr ⟨_, List.mem_filterMap.mpr ⟨r, hr, by simp [hl]⟩, rfl⟩

theorem liveSpan_subset {r : Nat × Layout} (hr : r.2.Valid) {x : Nat} (hx : x ∈ liveSpan r) :
    x ∈ ownSpan r := by
  obtain ⟨p, l⟩ := r
  have hr : l.Valid := hr
  unfold ownSpan
  by_cases hs : l.effective ≤ maxBlksize
  · obtain ⟨i, -, hl, size, -⟩ := Layout.Valid.small hr hs
    simp only [hl, cell, mem_span, liveSpan] at hx ⊢
    omega
  · have hl : l.classOf = none := by simp [Layout.classOf, hs]
    have size := hr.large
    simp only [hl, Block.span, mem_span, liveSpan] at hx size ⊢
    omega

end Live

namespace HeapSys

variable {place : Placement} {lo hi : Nat} {s s' : HeapSys} {free : Nat → List Nat}
  {cls : Fin 8 → List Nat}

private theorem protected_of_live {h : Heap} {live : List (Nat × Layout)} {r : Nat × Layout}
    (hr : r ∈ live) {x : Nat} (hx : x ∈ ownSpan r) :
    Protected h (takenOf live) (bigsOf live) x := by
  rcases ownSpan_cases hr with ⟨i, hi, own⟩ | ⟨blk, hblk, own⟩
  · exact .inl ⟨i, r.1, hi, own ▸ hx⟩
  · exact .inr (.inl ⟨blk, hblk, own ▸ hx⟩)

private theorem untouched_of_protected {kept : List (Nat × Layout)}
    (valid : ∀ r ∈ kept, r.2.Valid)
    (frame : ∀ x, Protected s.heap (takenOf kept) (bigsOf kept) x → s'.mem x = s.mem x)
    (arenas : ∀ i, (s.heap.descs i).arenas ⊆ (s'.heap.descs i).arenas) : Untouched s s' kept where
  live r hr x hx := frame x (protected_of_live hr (liveSpan_subset (valid r hr) hx))
  arenas i a ha := ⟨arenas i ha, fun x hx => frame x (.inr (.inr ⟨i, a, ha, hx⟩))⟩

/-- A request either gets its block or fails for want of memory. -/
theorem Inv.alloc {l : Layout} (h : s.Inv place lo hi free cls) (hl : l.Valid) :
    s.heap.alloc place s.palloc s.mem l = .error .exhausted ∨
    ∃ p h' b' m' free' cls', s.heap.alloc place s.palloc s.mem l = .ok (p, h', b', m') ∧
      Inv place lo hi ⟨h', b', m', (p, l) :: s.live⟩ free' cls' ∧
      Untouched s ⟨h', b', m', (p, l) :: s.live⟩ s.live := by
  have valid : ∀ p, ∀ r ∈ (p, l) :: s.live, r.2.Valid := by
    intro p r hr
    rcases List.mem_cons.mp hr with rfl | hr
    · exact hl
    · exact h.valid r hr
  have size := hl.1
  have power := hl.2.1
  have align : ¬ pgSize < l.align := Nat.not_lt.mpr hl.2.2.1
  by_cases hs : l.effective ≤ maxBlksize
  · obtain ⟨i, hi, hclass, -, -⟩ := hl.small hs
    have index : l.index < 8 := hi ▸ i.isLt
    have same : (⟨l.index, index⟩ : Fin 8) = i := Fin.ext hi.symm
    have route : s.heap.alloc place s.palloc s.mem l =
        Desc.alloc place s.heap s.palloc s.mem i := by
      simp [Heap.alloc, size, power, align, hs, index, same]
    rw [route]
    rcases Desc.alloc_spec h.cells h.counts i with
      fails | ⟨p, h', b', m', free', cls', alloc, cells, counts, frame, arenas⟩
    · exact .inl fails
    · refine .inr ⟨p, h', b', m', free', cls', alloc, ⟨?_, ?_, valid p⟩, ?_⟩
      · simpa only [takenOf_small hclass, bigsOf_small hclass] using cells
      · simpa only [takenOf_small hclass, bigsOf_small hclass] using counts
      · exact untouched_of_protected h.valid frame arenas
  · have hclass : l.classOf = none := by simp [Layout.classOf, hs]
    rcases alloc_spec h.cells.pages hl.pages_le with
      ⟨fails, -⟩ | ⟨p, b', m', free', alloc, holds, keeps, -, allocated, -⟩
    · exact .inl (by simp [Heap.alloc, size, power, align, hs, fails])
    · refine .inr ⟨p, { s.heap with
          spilledAlloc := (s.heap.spilledAlloc + l.effective) % 2 ^ 64
          spilledTotal := (s.heap.spilledTotal + l.pages) % 2 ^ 64 },
        b', m', free', cls, ?_, ⟨?_, ?_, valid p⟩, ?_⟩
      · simp [Heap.alloc, size, power, align, hs, alloc]
      · rw [takenOf_large hclass, bigsOf_large hclass]
        exact (h.cells.repage (holds.perm List.perm_middle.symm)
          (keeps.mono (List.subset_append_left _ _))).spill rfl
      · rw [takenOf_large hclass, bigsOf_large hclass]
        refine (h.counts.repage (keeps.mono (List.subset_append_left _ _)) ?_).spill rfl
        rw [allocated, h.counts.pages]
        simp only [List.map_append, List.sum_append, List.map_cons, List.sum_cons]
        omega
      · refine untouched_of_protected h.valid ?_ fun i => List.Subset.refl _
        intro x hx
        obtain ⟨blk, hblk, hxb⟩ := h.cells.page_of_protected hx
        exact keeps blk hblk x hxb

theorem Inv.dealloc {p : Nat} {l : Layout} (h : s.Inv place lo hi free cls)
    (hr : (p, l) ∈ s.live) :
    ∃ h' b' m' free' cls', s.heap.dealloc place s.palloc s.mem p l = .ok (h', b', m') ∧
      Inv place lo hi ⟨h', b', m', s.live.erase (p, l)⟩ free' cls' ∧
      Untouched s ⟨h', b', m', s.live.erase (p, l)⟩ (s.live.erase (p, l)) := by
  have valid : ∀ r ∈ s.live.erase (p, l), r.2.Valid := fun r hr =>
    h.valid r (List.mem_of_mem_erase hr)
  have hl : l.Valid := h.valid _ hr
  have moved := List.perm_cons_erase hr
  have cells := h.cells.perm (fun i => moved.filterMap _) (moved.filterMap _)
  have counts := h.counts.perm (fun i => moved.filterMap _) (moved.filterMap _)
  change Cells _ _ _ _ _ _ _ _ (takenOf ((p, l) :: s.live.erase (p, l)))
    (bigsOf ((p, l) :: s.live.erase (p, l))) at cells
  change Counts _ _ _ _ (takenOf ((p, l) :: s.live.erase (p, l)))
    (bigsOf ((p, l) :: s.live.erase (p, l))) at counts
  by_cases hs : l.effective ≤ maxBlksize
  · obtain ⟨i, hi, hclass, -, -⟩ := hl.small hs
    have index : l.index < 8 := hi ▸ i.isLt
    have same : (⟨l.index, index⟩ : Fin 8) = i := Fin.ext hi.symm
    rw [takenOf_small hclass, bigsOf_small hclass] at cells counts
    have mine : p ∈ cls i ++ Function.update (takenOf (s.live.erase (p, l))) i
        (p :: takenOf (s.live.erase (p, l)) i) i := by simp
    have pos : p ≠ 0 := by
      have := (cells.cell_bounds mine).1
      have := cells.pages.pos
      omega
    obtain ⟨h', m', cls', dealloc, cells', counts', frame, arenas⟩ :=
      Desc.dealloc_spec (i := i) cells counts (by rw [Function.update_self])
    rw [Function.update_idem, Function.update_eq_self] at cells' counts' frame
    refine ⟨h', s.palloc, m', free, cls', ?_, ⟨cells', counts', valid⟩, ?_⟩
    · simp [Heap.dealloc, pos, hs, index, same, dealloc]
    · refine untouched_of_protected valid frame fun i => ?_
      rw [arenas i]
      exact List.Subset.refl _
  · have hclass : l.classOf = none := by simp [Layout.classOf, hs]
    rw [takenOf_large hclass, bigsOf_large hclass] at cells counts
    have mine : (⟨p, orderOf l.pages⟩ : Block) ∈ Mem.blocks free ++
        (s.heap.pages ++ ⟨p, orderOf l.pages⟩ :: bigsOf (s.live.erase (p, l))) := by simp
    have pos : p ≠ 0 := by
      have := (cells.pages.bounds mine).1
      have := cells.pages.pos
      simp only at *
      omega
    have page : p % pgSize = 0 := by
      refine Nat.mod_eq_zero_of_dvd (dvd_trans ?_ (cells.pages.aligned _ mine))
      exact pow_dvd_pow 2 (Nat.le_add_left ..)
    have sum := counts.pages
    simp only [List.map_append, List.sum_append, List.map_cons, List.sum_cons] at sum
    obtain ⟨b', m', free', dealloc, holds, keeps, -, allocated, -⟩ :=
      dealloc_spec (cells.pages.perm List.perm_middle) (by omega)
    have moved := cells.repage holds (keeps.mono (List.subset_append_left _ _))
    refine ⟨{ s.heap with
        spilledAlloc := (s.heap.spilledAlloc + (2 ^ 64 - l.effective)) % 2 ^ 64
        spilledTotal := (s.heap.spilledTotal + (2 ^ 64 - l.pages)) % 2 ^ 64 },
      b', m', free', cls, ?_, ⟨moved.spill rfl, ?_, valid⟩, ?_⟩
    · simp [Heap.dealloc, pos, hs, page, dealloc]
    · refine (counts.repage (keeps.mono (List.subset_append_left _ _)) ?_).spill rfl
      simp only [List.map_append, List.sum_append]
      omega
    · refine untouched_of_protected valid ?_ fun i => List.Subset.refl _
      intro x hx
      obtain ⟨blk, hblk, hxb⟩ := moved.page_of_protected hx
      exact keeps blk hblk x hxb

/-- The step lemma: every operation keeps the invariant. -/
theorem step_inv {op : HeapOp} (h : ∃ free cls, s.Inv place lo hi free cls)
    (hs : s.step place op = some s') : ∃ free cls, s'.Inv place lo hi free cls := by
  obtain ⟨free, cls, h⟩ := h
  cases op with
  | alloc l =>
    by_cases hl : l.Valid
    · rcases h.alloc hl with fails | ⟨p, h', b', m', free', cls', alloc, inv, -⟩
      · simp [step, hl, fails] at hs
      · simp only [step, if_pos hl, alloc, Option.some.injEq] at hs
        exact ⟨free', cls', hs ▸ inv⟩
    · simp [step, hl] at hs
  | dealloc p l =>
    by_cases hr : (p, l) ∈ s.live
    · obtain ⟨h', b', m', free', cls', dealloc, inv, -⟩ := h.dealloc hr
      simp only [step, if_pos hr, dealloc, Option.some.injEq] at hs
      exact ⟨free', cls', hs ▸ inv⟩
    · simp [step, hr] at hs
  | write a v =>
    by_cases hw : ∃ r ∈ s.live, a ∈ liveSpan r
    · simp only [step, if_pos hw, Option.some.injEq] at hs
      subst hs
      obtain ⟨r, hr, ha⟩ := hw
      have change : ∀ x, Function.update s.mem a v x ≠ s.mem x → x = a := by
        intro x hx
        by_contra hne
        exact hx (Function.update_of_ne hne _ _)
      have own := liveSpan_subset (h.valid r hr) ha
      refine ⟨free, cls, h.cells.touch fun x hx => ?_, ⟨h.counts.pages, ?_, h.counts.free,
        h.counts.allocated⟩, h.valid⟩
      · rw [change x hx]
        rcases ownSpan_cases hr with ⟨i, hi, hown⟩ | ⟨blk, hblk, hown⟩
        · exact .inl ⟨i, r.1, hi, hown ▸ own⟩
        · exact .inr (.inl ⟨blk, hblk, hown ▸ own⟩)
      · intro i b hb
        rw [← h.counts.freeCnt i b hb]
        refine loadLE_congr fun x hx hx' => ?_
        by_contra hne
        rw [change x hne] at hx hx'
        exact h.cells.count_not_protected hb ⟨hx, hx'⟩ (protected_of_live hr own)
    · simp [step, hw] at hs

private theorem apart_of_own {r : Nat × Layout} {t : Span} (hr : r.2.Valid)
    (apart : Apart (ownSpan r) t) : Apart (liveSpan r) t :=
  fun x hx => apart x (liveSpan_subset hr hx)

theorem Inv.packed (h : s.Inv place lo hi free cls) : Packed (s.live.map ownSpan) := by
  intro x
  have once := h.cells.packed x
  have classes : cover ((List.finRange 8).flatMap fun i => (takenOf s.live i).map (cell i)) x ≤
      cover ((List.finRange 8).flatMap (classSpans s.heap cls (takenOf s.live))) x := by
    refine cover_flatMap_le fun i _ => ?_
    simp only [classSpans, List.map_append, cover_append]
    omega
  rw [cover_perm (ownSpan_perm s.live), cover_append]
  simp only [cover_append] at once
  omega

theorem Inv.inside (h : s.Inv place lo hi free cls) {r : Nat × Layout} (hr : r ∈ s.live) {a : Nat}
    (ha : a ∈ ownSpan r) : lo ≤ a ∧ a < hi := by
  obtain ⟨blk, hblk, hab⟩ := h.cells.page_of_protected (protected_of_live hr ha)
  exact h.cells.pages.tiles.mem_iff.mp
    ⟨_, List.mem_map_of_mem (List.mem_append_right _ hblk), hab⟩

private theorem Inv.disjoint (h : s.Inv place lo hi free cls) :
    s.live.Pairwise fun r r' => Apart (liveSpan r) (liveSpan r') := by
  refine (List.pairwise_map.mp h.packed.pairwise).imp_of_mem ?_
  intro r r' hr hr' apart
  exact apart_of_own (h.valid r hr) (apart_of_own (h.valid r' hr') apart.symm).symm

theorem Inv.safe (h : s.Inv place lo hi free cls) : s.Safe place free cls where
  disjoint := h.disjoint
  aligned r hr := by
    have valid := h.valid r hr
    by_cases hs : r.2.effective ≤ maxBlksize
    · obtain ⟨i, -, hl, -, align⟩ := valid.small hs
      have hi : r.1 ∈ takenOf s.live i := List.mem_filterMap.mpr ⟨r, hr, by simp [hl]⟩
      obtain ⟨a, ha, hslot⟩ := h.cells.arena_of_cell (List.mem_append_right _ hi)
      exact dvd_trans align (slot_aligned (h.cells.arena_aligned ha) hslot)
    · have hl : r.2.classOf = none := by simp [Layout.classOf, hs]
      have hb : (⟨r.1, orderOf r.2.pages⟩ : Block) ∈ bigsOf s.live :=
        List.mem_filterMap.mpr ⟨r, hr, by simp [hl]⟩
      have aligned := h.cells.pages.aligned _ (List.mem_append_right _ (List.mem_append_right _ hb))
      exact dvd_trans valid.align_dvd (dvd_trans (pow_dvd_pow 2 (Nat.le_add_left ..)) aligned)
  headers r hr i a ha := by
    refine apart_of_own (h.valid r hr) ?_
    rcases ownSpan_cases hr with ⟨j, hj, own⟩ | ⟨blk, hblk, own⟩
    · rw [own]
      exact h.cells.header_apart (List.mem_append_right _ hj) ha
    · rw [own]
      exact (h.cells.big_apart (List.mem_append_left _ (List.mem_map_of_mem ha)) hblk).symm
  lists := h.cells.spells
  blocks r hr i q hq := by
    rw [(h.cells.sizes i).1]
    have hqi : q ∈ cls i ++ takenOf s.live i := List.mem_append_left _ hq
    refine apart_of_own (h.valid r hr) ?_
    rcases ownSpan_cases hr with ⟨j, hj, own⟩ | ⟨blk, hblk, own⟩
    · rw [own]
      refine h.cells.cells_apart (List.mem_append_right _ hj) hqi ?_
      by_cases hij : j = i
      · subst hij
        exact .inr (h.cells.ne_of_taken hq hj).symm
      · exact .inl hij
    · rw [own]
      exact (h.cells.big_apart (Cells.cell_mem_classSpans hqi) hblk).symm
  pageLists k _ := h.cells.pages.spells k
  pages r hr blk hblk := by
    refine apart_of_own (h.valid r hr) ?_
    rcases ownSpan_cases hr with ⟨j, hj, own⟩ | ⟨blk', hblk', own⟩
    · rw [own]
      exact h.cells.page_apart (Cells.cell_mem_classSpans (List.mem_append_right _ hj)) hblk
    · rw [own]
      exact h.cells.pages.apart_free (List.mem_append_right _ hblk') hblk
  arenas i a ha := ⟨h.cells.magic i a ha, h.cells.desc i a ha⟩
  serves l hl e he := by
    rcases h.alloc hl with fails | ⟨p, h', b', m', free', cls', alloc, -⟩
    · rw [fails] at he
      exact (Except.error.inj he).symm
    · rw [alloc] at he
      cases he
  frees r hr := by
    obtain ⟨h', b', m', free', cls', dealloc, -⟩ := h.dealloc (p := r.1) (l := r.2) hr
    exact ⟨_, dealloc⟩

theorem start_inv {b : BuddyAllocator} {m : Mem} (holds : Holds lo hi b m free [])
    (allocated : b.allocated = 0) : Inv place lo hi ⟨.new, b, m, []⟩ free fun _ => [] := by
  have pages : Heap.pages .new = [] := by
    simp [Heap.pages, Heap.new, Desc.new]
  refine ⟨⟨?_, ?_, ?_, ?_, ?_, ?_⟩, ⟨?_, ?_, ?_, ?_⟩, by simp⟩
  · simpa [pages, bigsOf] using holds
  · exact fun i => ⟨rfl, rfl⟩
  · exact fun i => InMemList.new_spells m
  · simp [Heap.new, Desc.new, takenOf]
  · simp [Heap.new, Desc.new]
  · simp [Heap.new, Desc.new]
  · simp [allocated, pages, bigsOf]
  · simp [Heap.new, Desc.new]
  · simp [Heap.new, Desc.new]
  · simp [Heap.new, Desc.new, takenOf]

end HeapSys

/-- Every history of requests, returns and writes into live blocks keeps the heap safe, and
no call touches a live block of others or what identifies an arena. -/
theorem heap_safe (place : Placement) (m : Mem) (start stop : Nat) (pos : 0 < start)
    (fits : stop < 2 ^ 64) (ordered : roundUp start pgSize ≤ roundDown stop pgSize) :
    ∃ b m', BuddyAllocator.empty.insertRange m start stop = .ok (b, m') ∧
      ∀ ops s, run (HeapSys.step place) ⟨.new, b, m', []⟩ ops = some s →
        (∃ free cls, s.Safe place free cls) ∧
        (∀ l s', s.step place (.alloc l) = some s' → HeapSys.Untouched s s' s.live) ∧
        ∀ p l s', s.step place (.dealloc p l) = some s' →
          HeapSys.Untouched s s' (s.live.erase (p, l)) := by
  obtain ⟨b, m', free₀, insert, holds, -, allocated, -⟩ := insertRange_spec m pos fits ordered
  refine ⟨b, m', insert, fun ops s ran => ?_⟩
  have inv : ∃ free cls, s.Inv place (roundUp start pgSize) (roundDown stop pgSize) free cls :=
    run_invariant (fun _ _ _ => HeapSys.step_inv)
      ⟨free₀, _, HeapSys.start_inv holds allocated⟩ ran
  obtain ⟨free, cls, inv⟩ := inv
  refine ⟨⟨free, cls, inv.safe⟩, ?_, ?_⟩
  · intro l s' hs
    by_cases hl : l.Valid
    · rcases inv.alloc hl with fails | ⟨p, h', b', m', free', cls', alloc, -, untouched⟩
      · simp [HeapSys.step, hl, fails] at hs
      · simp only [HeapSys.step, if_pos hl, alloc, Option.some.injEq] at hs
        exact hs ▸ untouched
    · simp [HeapSys.step, hl] at hs
  · intro p l s' hs
    by_cases hr : (p, l) ∈ s.live
    · obtain ⟨h', b', m', free', cls', dealloc, -, untouched⟩ := inv.dealloc hr
      simp only [HeapSys.step, if_pos hr, dealloc, Option.some.injEq] at hs
      exact hs ▸ untouched
    · simp [HeapSys.step, hr] at hs

/-- Descriptors one after the other in the kernel's static data. -/
def staticPlacement : Placement where
  addr i := 0x80300000 + 64 * i.val
  injective := by
    intro i j h
    simp only at h
    omega
  ne_null := by
    intro i
    omega
  lt := by
    intro i
    omega

/-- Two requests of one class, one of whole pages, a write and a return. -/
def mixedOps : List HeapOp :=
  [.alloc ⟨1000, 8⟩, .alloc ⟨5000, 4096⟩, .alloc ⟨600, 512⟩, .write 8195 7,
    .dealloc 35840 ⟨1000, 8⟩]

theorem mixed_requests_safe : ∃ b m' s,
    BuddyAllocator.empty.insertRange (fun _ => 0) 5000 40000 = .ok (b, m') ∧
      run (HeapSys.step staticPlacement) ⟨.new, b, m', []⟩ mixedOps = some s ∧
      s.live = [(34816, ⟨600, 512⟩), (8192, ⟨5000, 4096⟩)] ∧
      ∃ free cls, s.Safe staticPlacement free cls := by
  obtain ⟨b, m', insert, keeps⟩ := heap_safe staticPlacement (fun _ => 0) 5000 40000 (by decide)
    (by decide) (by decide)
  have ran : ((BuddyAllocator.empty.insertRange (fun _ => 0) 5000 40000).toOption.bind fun r =>
      (run (HeapSys.step staticPlacement) ⟨.new, r.1, r.2, []⟩ mixedOps).map HeapSys.live) =
        some [(34816, ⟨600, 512⟩), (8192, ⟨5000, 4096⟩)] := by
    decide +kernel
  rw [insert, Except.toOption, Option.bind_some] at ran
  obtain ⟨s, hs, live⟩ := Option.map_eq_some_iff.mp ran
  exact ⟨b, m', s, insert, hs, live, (keeps _ s hs).1⟩

end Tacos.Mem
