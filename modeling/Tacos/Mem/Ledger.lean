/- GID: Tacos/Mem/Ledger
   generality: I
   source: src/mem/malloc.rs
   digest: The counters of the kernel heap agree with its lists, arenas and live blocks;
     zero-sized requests do not fit in. -/

import Tacos.Mem.Heap
import Mathlib.Algebra.BigOperators.Fin

set_option autoImplicit false
set_option relaxedAutoImplicit false

namespace Tacos.Mem

open Tacos.Lib.Bytes Tacos.Lib.Buckets Tacos.Lib.Cover
open Tacos.Lib.Run (run run_invariant)
open scoped List

namespace Heap

/-- One counter of the descriptors, read from all of them. -/
def overDescs (h : Heap) (counter : Desc → Nat) : Nat :=
  (List.finRange 8).foldl (fun sum i => sum + counter (h.descs i)) 0

/-- The amount of free memory in heap. -/
def free (h : Heap) : Nat := h.overDescs Desc.free

/-- How much memory was allocated from the "heap". -/
def allocated (h : Heap) : Nat := h.overDescs Desc.allocated + h.spilledAlloc

/-- The size of heap, including all metadata. -/
def total (h : Heap) : Nat := h.overDescs Desc.total + h.spilledTotal * pgSize

theorem overDescs_eq (h : Heap) (counter : Desc → Nat) :
    h.overDescs counter = ∑ i, counter (h.descs i) := by
  rw [overDescs, Fin.sum_univ_def, List.sum_eq_foldl, List.foldl_map]

/-- Every page a descriptor took is in its total. -/
def Balanced (h : Heap) : Prop := ∀ i, (h.descs i).total = pgSize * (h.descs i).arenas.length

/-- The two heaps agree on the requests that no descriptor served. -/
def SameSpill (h h' : Heap) : Prop :=
  h'.spilledAlloc = h.spilledAlloc ∧ h'.spilledTotal = h.spilledTotal

theorem Balanced.setDesc {h : Heap} {i : Fin 8} {d : Desc} (balanced : h.Balanced)
    (total : d.total = pgSize * d.arenas.length) : (h.setDesc i d).Balanced := by
  intro j
  by_cases hj : j = i
  · subst hj
    simpa [Heap.setDesc] using total
  · simpa [Heap.setDesc, hj] using balanced j

end Heap

namespace Desc

variable {place : Placement} {h h' : Heap} {b b' : BuddyAllocator} {m m' : Mem} {i : Fin 8}

theorem refill_balanced (ran : refill place h b m i = .ok (h', b', m')) (balanced : h.Balanced) :
    h'.Balanced ∧ h.SameSpill h' := by
  simp only [refill] at ran
  split at ran
  · cases ran
  · split at ran
    · cases ran
    · obtain ⟨rfl, -, -⟩ := by simpa using ran
      refine ⟨balanced.setDesc ?_, rfl, rfl⟩
      simp only [List.length_cons, Nat.mul_succ, balanced i]

theorem take_balanced {p : Nat} (ran : take place h m i = .ok (p, h', m'))
    (balanced : h.Balanced) : h'.Balanced ∧ h.SameSpill h' := by
  simp only [take] at ran
  split at ran
  · cases ran
  · split at ran
    · cases ran
    · split at ran
      · cases ran
      · split at ran
        · cases ran
        · obtain ⟨-, rfl, -⟩ := by simpa using ran
          exact ⟨balanced.setDesc (balanced i), rfl, rfl⟩

theorem alloc_balanced {p : Nat} (ran : alloc place h b m i = .ok (p, h', b', m'))
    (balanced : h.Balanced) : h'.Balanced ∧ h.SameSpill h' := by
  unfold alloc at ran
  split at ran
  · cases ran
  · rename_i h₁ b₁ m₁ filled
    have first : h₁.Balanced ∧ h.SameSpill h₁ := by
      split at filled
      · exact refill_balanced filled balanced
      · obtain ⟨rfl, -, -⟩ := by simpa using filled
        exact ⟨balanced, rfl, rfl⟩
    split at ran
    · cases ran
    · rename_i taken
      obtain ⟨-, rfl, -, -⟩ := by simpa using ran
      obtain ⟨second, alloc, total⟩ := take_balanced taken first.1
      exact ⟨second, alloc.trans first.2.1, total.trans first.2.2⟩

theorem dealloc_balanced {p : Nat} (ran : dealloc place h m i p = .ok (h', m'))
    (balanced : h.Balanced) : h'.Balanced ∧ h.SameSpill h' := by
  simp only [dealloc] at ran
  split at ran
  · cases ran
  · split at ran
    · cases ran
    · split at ran
      · cases ran
      · obtain ⟨rfl, -⟩ := by simpa using ran
        exact ⟨balanced.setDesc (balanced i), rfl, rfl⟩

end Desc

namespace Layout

variable {l : Layout}

/-- What a live request adds to `Heap::allocated`. -/
def charge (l : Layout) : Nat :=
  if maxBlksize < l.effective then l.effective else max l.effective 8

/-- A class whose blocks are as large as the charge serves the request, or none does. -/
theorem Valid.charge_cases (h : l.Valid) :
    (∃ i, l.classOf = some i ∧ l.charge = blockSize i) ∨
      l.classOf = none ∧ l.charge = l.effective ∧ l.effective ≤ 2 ^ orderOf l.pages * pgSize := by
  obtain ⟨k, eff, tz, -, -⟩ := h.shift
  by_cases hs : l.effective ≤ maxBlksize
  · obtain ⟨i, index, hclass, -, -⟩ := h.small hs
    refine .inl ⟨i, hclass, ?_⟩
    have eight : 8 = 2 ^ 3 := rfl
    rw [charge, if_neg (Nat.not_lt.mpr hs), blockSize, index, Layout.index, tz, eff, eight]
    rcases le_total k 3 with hle | hle
    · rw [Nat.sub_eq_zero_of_le hle]
      exact max_eq_right (Nat.pow_le_pow_right (by omega) hle)
    · rw [Nat.sub_add_cancel hle]
      exact max_eq_left (Nat.pow_le_pow_right (by omega) hle)
  · have pages : pgSize ≤ 2 ^ orderOf l.pages * pgSize :=
      Nat.le_mul_of_pos_left _ (Nat.two_pow_pos _)
    have size : nextPowerOfTwo l.size ≤ 2 ^ orderOf l.pages * pgSize := by
      rw [pgSize, ← pow_add, nextPowerOfTwo]
      refine Nat.pow_le_pow_right (by omega) ((nextPowerShift_le_iff _ _).mpr ?_)
      rw [pow_add]
      exact h.large
    refine .inr ⟨by simp [classOf, hs], if_pos (Nat.lt_of_not_le hs), ?_⟩
    exact max_le size (h.2.2.1.trans pages)

theorem classOf_eq_some {i : Fin 8} (h : l.classOf = some i) :
    l.effective ≤ maxBlksize ∧ l.index = i.val := by
  unfold classOf at h
  split at h
  · rename_i small
    split at h
    · obtain rfl := Option.some.inj h
      exact ⟨small, rfl⟩
    · cases h
  · cases h

theorem Valid.large_of_none (h : l.Valid) (hclass : l.classOf = none) :
    ¬ l.effective ≤ maxBlksize := by
  intro small
  obtain ⟨i, -, served, -, -⟩ := h.small small
  rw [hclass] at served
  cases served

theorem Valid.effective_le (h : l.Valid) : l.effective ≤ 2 ^ 20 := by
  have size : nextPowerOfTwo l.size ≤ 2 ^ 20 :=
    Nat.pow_le_pow_right (by omega) ((nextPowerShift_le_iff _ _).mpr h.2.2.2)
  exact max_le size (h.2.2.1.trans (by decide))

end Layout

namespace Heap

variable {place : Placement} {h h' : Heap} {b b' : BuddyAllocator} {m m' : Mem} {l : Layout}
  {i : Fin 8} {p : Nat}

theorem alloc_small (valid : l.Valid) (hclass : l.classOf = some i) :
    h.alloc place b m l = Desc.alloc place h b m i := by
  obtain ⟨small, index⟩ := Layout.classOf_eq_some hclass
  have bound : l.index < 8 := index ▸ i.isLt
  have same : (⟨l.index, bound⟩ : Fin 8) = i := Fin.ext index
  have align : ¬ pgSize < l.align := Nat.not_lt.mpr valid.2.2.1
  simp [Heap.alloc, valid.1, valid.2.1, align, small, bound, same]

theorem alloc_large (valid : l.Valid) (hclass : l.classOf = none)
    (ran : h.alloc place b m l = .ok (p, h', b', m')) :
    h' = { h with
      spilledAlloc := (h.spilledAlloc + l.effective) % 2 ^ 64
      spilledTotal := (h.spilledTotal + l.pages) % 2 ^ 64 } := by
  have large := valid.large_of_none hclass
  have align : ¬ pgSize < l.align := Nat.not_lt.mpr valid.2.2.1
  simp only [Heap.alloc, valid.1, valid.2.1, align, large] at ran
  cases served : b.alloc m l.pages with
  | error e => simp [served] at ran
  | ok out =>
    obtain ⟨q, b₁, m₁⟩ := out
    simp only [served] at ran
    obtain ⟨-, rfl, -, -⟩ := by simpa using ran
    rfl

theorem dealloc_small (pos : p ≠ 0) (hclass : l.classOf = some i)
    (ran : h.dealloc place b m p l = .ok (h', b', m')) :
    Desc.dealloc place h m i p = .ok (h', m') := by
  obtain ⟨small, index⟩ := Layout.classOf_eq_some hclass
  have bound : l.index < 8 := index ▸ i.isLt
  have same : (⟨l.index, bound⟩ : Fin 8) = i := Fin.ext index
  simp only [Heap.dealloc, pos, small, bound, same, if_true, if_false, dite_true] at ran
  split at ran
  · cases ran
  · rename_i taken
    obtain ⟨rfl, -, rfl⟩ := by simpa using ran
    exact taken

theorem dealloc_large (pos : p ≠ 0) (valid : l.Valid) (hclass : l.classOf = none)
    (ran : h.dealloc place b m p l = .ok (h', b', m')) :
    h' = { h with
      spilledAlloc := (h.spilledAlloc + (2 ^ 64 - l.effective)) % 2 ^ 64
      spilledTotal := (h.spilledTotal + (2 ^ 64 - l.pages)) % 2 ^ 64 } := by
  have large := valid.large_of_none hclass
  simp only [Heap.dealloc, pos, large, if_false] at ran
  split at ran
  · cases ran
  · split at ran
    · cases ran
    · obtain ⟨rfl, -, -⟩ := by simpa using ran
      rfl

theorem alloc_invalid (size : l.size ≠ 0) (invalid : ¬ l.Valid) :
    ∃ e ∈ [Panic.alignNotPowerOfTwo, .alignTooLarge, .tooLarge],
      h.alloc place b m l = .error e := by
  by_cases power : isPowerOfTwo l.align = true
  · by_cases align : pgSize < l.align
    · exact ⟨.alignTooLarge, by simp, by simp [Heap.alloc, size, power, align]⟩
    · have large : 2 ^ maxOrder * pgSize < l.size := by
        by_contra hle
        exact invalid ⟨size, power, by omega, by omega⟩
      have pages : 2 ^ maxOrder < l.pages := by
        simp only [Layout.pages, pgSize, pgShift, maxOrder] at large ⊢
        omega
      have eff : ¬ l.effective ≤ maxBlksize := by
        intro hle
        have round : nextPowerOfTwo l.size ≤ 2 ^ 20 :=
          (le_max_left _ _).trans (hle.trans (by decide))
        have back := (nextPowerShift_le_iff l.size 20).mp
          ((Nat.pow_le_pow_iff_right (by omega)).mp round)
        simp only [pgSize, pgShift, maxOrder] at large
        omega
      refine ⟨.tooLarge, by simp, ?_⟩
      simp [Heap.alloc, size, power, align, eff, BuddyAllocator.alloc, pages]
  · exact ⟨.alignNotPowerOfTwo, by simp, by simp [Heap.alloc, size, power]⟩

end Heap

namespace HeapSys

variable {place : Placement} {lo hi : Nat} {s s' : HeapSys}

/-- What the requests that no descriptor serves add up to. -/
def spilled (amount : Layout → Nat) (live : List (Nat × Layout)) : Nat :=
  (live.map fun r => if r.2.classOf = none then amount r.2 else 0).sum

theorem spilled_perm {amount : Layout → Nat} {live live' : List (Nat × Layout)}
    (moved : live ~ live') : spilled amount live = spilled amount live' :=
  (moved.map _).sum_eq

theorem spilled_cons (amount : Layout → Nat) (r : Nat × Layout) (live : List (Nat × Layout)) :
    spilled amount (r :: live) =
      (if r.2.classOf = none then amount r.2 else 0) + spilled amount live := by
  simp [spilled]

/-- The counters that no list determines. -/
structure Ledger (s : HeapSys) : Prop where
  balanced : s.heap.Balanced
  alloc : s.heap.spilledAlloc = spilled Layout.effective s.live % 2 ^ 64
  total : s.heap.spilledTotal = spilled Layout.pages s.live % 2 ^ 64

private theorem Ledger.of_same {h : Heap} {live : List (Nat × Layout)} {b : BuddyAllocator}
    {m : Mem} (ledger : s.Ledger) (balanced : h.Balanced) (same : s.heap.SameSpill h)
    (keeps : ∀ amount, spilled amount live = spilled amount s.live) : Ledger ⟨h, b, m, live⟩ where
  balanced := balanced
  alloc := by rw [same.1, ledger.alloc, keeps]
  total := by rw [same.2, ledger.total, keeps]

variable {free : Nat → List Nat} {cls : Fin 8 → List Nat}

theorem Inv.live_pos {r : Nat × Layout} (h : s.Inv place lo hi free cls) (hr : r ∈ s.live) :
    r.1 ≠ 0 := by
  have first : r.1 ∈ ownSpan r := by
    refine liveSpan_subset (h.valid r hr) ⟨le_rfl, ?_⟩
    exact Nat.lt_add_of_pos_right (Nat.pos_of_ne_zero (h.valid r hr).1)
  have := (h.inside hr first).1
  have := h.cells.pages.pos
  omega

private theorem spilled_served {amount : Layout → Nat} {live : List (Nat × Layout)} {p : Nat}
    {l : Layout} {i : Fin 8} (hclass : l.classOf = some i) :
    spilled amount ((p, l) :: live) = spilled amount live := by
  simp [spilled_cons, hclass]

private theorem spilled_direct {amount : Layout → Nat} {live : List (Nat × Layout)} {p : Nat}
    {l : Layout} (hclass : l.classOf = none) :
    spilled amount ((p, l) :: live) = amount l + spilled amount live := by
  simp [spilled_cons, hclass]

/-- The step lemma of the ledger. -/
theorem step_ledger {op : HeapOp} (inv : s.Inv place lo hi free cls) (ledger : s.Ledger)
    (hs : s.step place op = some s') : s'.Ledger := by
  cases op with
  | alloc l =>
    simp only [step] at hs
    split at hs
    · rename_i hl
      split at hs
      · rename_i p h b m ran
        obtain rfl := Option.some.inj hs
        rcases hl.charge_cases with ⟨i, hclass, -⟩ | ⟨hclass, -, -⟩
        · rw [Heap.alloc_small hl hclass] at ran
          obtain ⟨balanced, same⟩ := Desc.alloc_balanced ran ledger.balanced
          exact ledger.of_same balanced same fun _ => spilled_served hclass
        · obtain rfl := Heap.alloc_large hl hclass ran
          refine ⟨ledger.balanced, ?_, ?_⟩
          · simp only [spilled_direct hclass, ledger.alloc]
            omega
          · simp only [spilled_direct hclass, ledger.total]
            omega
      · cases hs
    · cases hs
  | dealloc p l =>
    simp only [step] at hs
    split at hs
    · rename_i hr
      have hl : l.Valid := inv.valid _ hr
      have pos : p ≠ 0 := inv.live_pos hr
      have moved := List.perm_cons_erase hr
      split at hs
      · rename_i h b m ran
        obtain rfl := Option.some.inj hs
        rcases hl.charge_cases with ⟨i, hclass, -⟩ | ⟨hclass, -, -⟩
        · obtain ⟨balanced, same⟩ :=
            Desc.dealloc_balanced (Heap.dealloc_small pos hclass ran) ledger.balanced
          refine ledger.of_same balanced same fun amount => ?_
          rw [spilled_perm moved, spilled_served hclass]
        · obtain rfl := Heap.dealloc_large pos hl hclass ran
          have few := hl.effective_le
          have pages : l.pages ≤ 2 ^ 8 := hl.pages_le
          have alloc := ledger.alloc
          have total := ledger.total
          rw [spilled_perm moved, spilled_direct hclass] at alloc total
          refine ⟨ledger.balanced, ?_, ?_⟩
          · simp only [alloc]
            omega
          · simp only [total]
            omega
      · cases hs
    · cases hs
  | write a v =>
    simp only [step] at hs
    split at hs
    · obtain rfl := Option.some.inj hs
      exact ⟨ledger.balanced, ledger.alloc, ledger.total⟩
    · cases hs

/-- The counters of every descriptor and of every arena are those of the lists `cls`. -/
structure Exact (s : HeapSys) (cls : Fin 8 → List Nat) : Prop where
  lists : ∀ i, (s.heap.descs i).freeList.Spells s.mem (cls i)
  blockSize : ∀ i, (s.heap.descs i).blockSize = 2 ^ (i.val + 3)
  free : ∀ i, (s.heap.descs i).free = (s.heap.descs i).blockSize * (cls i).length
  allocated : ∀ i, (s.heap.descs i).allocated =
    (s.heap.descs i).blockSize * s.live.countP fun r => r.2.classOf = some i
  arenas : ∀ i, (s.heap.descs i).arenas.Nodup
  total : ∀ i, (s.heap.descs i).total = 4096 * (s.heap.descs i).arenas.length
  freeCnt : ∀ i, ∀ a ∈ (s.heap.descs i).arenas,
    Arena.freeCnt s.mem a = (cls i).countP fun q => roundDown q pgSize = a

theorem Inv.exact (inv : s.Inv place lo hi free cls) (ledger : s.Ledger) : s.Exact cls where
  lists := inv.cells.spells
  blockSize i := (inv.cells.sizes i).1
  free i := by rw [inv.counts.free, (inv.cells.sizes i).1, Nat.mul_comm]
  allocated i := by
    have length : (takenOf s.live i).length = s.live.countP fun r => r.2.classOf = some i := by
      rw [takenOf, List.length_filterMap_eq_countP]
      refine List.countP_congr fun r _ => ?_
      split_ifs with hr <;> simp [hr]
    rw [inv.counts.allocated, (inv.cells.sizes i).1, Nat.mul_comm, length]
  arenas i := by
    have apart := (List.pairwise_append.mp inv.cells.pages.out_pairwise).1
    rw [Heap.pages, List.pairwise_flatMap] at apart
    refine (List.pairwise_map.mp (apart.1 i (List.mem_finRange i))).imp ?_
    rintro a a' disjoint rfl
    exact disjoint a (addr_mem_span _) (addr_mem_span _)
  total := ledger.balanced
  freeCnt := inv.counts.freeCnt

/-- The amounts charged to the live requests fit into the managed range. -/
theorem Inv.charges_le (inv : s.Inv place lo hi free cls) :
    (s.live.map fun r => r.2.charge).sum ≤ hi - lo := by
  have bound : (s.live.map fun r => r.2.charge).sum ≤ ((s.live.map ownSpan).map Span.size).sum := by
    rw [List.map_map]
    refine List.sum_le_sum fun r hr => ?_
    rcases (inv.valid r hr).charge_cases with ⟨i, hclass, charge⟩ | ⟨hclass, charge, fits⟩
    · simp [ownSpan, hclass, cell, charge]
    · simpa [ownSpan, hclass, Block.span, charge] using fits
  refine bound.trans (inv.packed.size_le fun t ht a ha => ?_)
  obtain ⟨r, hr, rfl⟩ := List.mem_map.mp ht
  exact inv.inside hr ha

private theorem sum_classes {live : List (Nat × Layout)} (valid : ∀ r ∈ live, r.2.Valid) :
    (∑ i, blockSize i * live.countP fun r => r.2.classOf = some i) +
      spilled Layout.effective live = (live.map fun r => r.2.charge).sum := by
  induction live with
  | nil => simp [spilled]
  | cons r live ih =>
    have rest := ih fun r' hr => valid r' (List.mem_cons_of_mem r hr)
    rw [List.map_cons, List.sum_cons, ← rest, spilled_cons]
    rcases (valid r List.mem_cons_self).charge_cases with ⟨i, hclass, charge⟩ | ⟨hclass, charge, -⟩
    · have more : ∀ j, blockSize j * (r :: live).countP (fun r => r.2.classOf = some j) =
          blockSize j * live.countP (fun r => r.2.classOf = some j) +
            if i = j then blockSize j else 0 := by
        intro j
        by_cases hj : i = j
        · subst hj
          simp [hclass, Nat.mul_succ]
        · simp [hclass, hj]
      simp only [more, Finset.sum_add_distrib, Finset.sum_ite_eq, Finset.mem_univ, if_true, hclass,
        charge, reduceCtorEq, if_false]
      omega
    · simp [hclass, charge]
      omega

/-- `Heap::allocated` is the sum of the charges. -/
theorem Inv.allocated_eq (inv : s.Inv place lo hi free cls) (ledger : s.Ledger) :
    s.heap.allocated = (s.live.map fun r => r.2.charge).sum := by
  have sum := sum_classes inv.valid
  have bound := inv.charges_le
  have fits := inv.cells.pages.fits
  have pos := inv.cells.pages.pos
  have own : ∀ i, (s.heap.descs i).allocated =
      blockSize i * s.live.countP fun r => r.2.classOf = some i := by
    intro i
    rw [(inv.exact ledger).allocated, (inv.cells.sizes i).1]
  rw [Heap.allocated, Heap.overDescs_eq, ledger.alloc]
  simp only [own]
  rw [Nat.mod_eq_of_lt (by omega), sum]

end HeapSys

namespace HeapSys

variable {place : Placement} {lo hi : Nat} {s s' : HeapSys}

/-- The invariant of the histories, with the ledger. -/
def Kept (place : Placement) (lo hi : Nat) (s : HeapSys) : Prop :=
  (∃ free cls, s.Inv place lo hi free cls) ∧ s.Ledger

theorem step_kept {op : HeapOp} (kept : s.Kept place lo hi) (hs : s.step place op = some s') :
    s'.Kept place lo hi := by
  obtain ⟨inv, ledger⟩ := kept
  refine ⟨step_inv inv hs, ?_⟩
  obtain ⟨free, cls, inv⟩ := inv
  exact step_ledger inv ledger hs

theorem Kept.allocated_eq (kept : s.Kept place lo hi) :
    s.heap.allocated = (s.live.map fun r => r.2.charge).sum := by
  obtain ⟨⟨free, cls, inv⟩, ledger⟩ := kept
  exact inv.allocated_eq ledger

/-- A served request can be given back, and then the heap is charged as before. -/
theorem Kept.restores {l : Layout} {p : Nat} {h : Heap} {b : BuddyAllocator} {m : Mem}
    (kept : s.Kept place lo hi) (size : l.size ≠ 0)
    (ran : s.heap.alloc place s.palloc s.mem l = .ok (p, h, b, m)) :
    s.step place (.alloc l) = some ⟨h, b, m, (p, l) :: s.live⟩ ∧
      ∃ h' b' m', h.dealloc place b m p l = .ok (h', b', m') ∧ h'.allocated = s.heap.allocated := by
  have valid : l.Valid := by
    by_contra invalid
    obtain ⟨e, -, refused⟩ : ∃ e ∈ _, s.heap.alloc place s.palloc s.mem l = .error e :=
      Heap.alloc_invalid size invalid
    rw [refused] at ran
    cases ran
  have served : s.step place (.alloc l) = some ⟨h, b, m, (p, l) :: s.live⟩ := by
    simp [step, valid, ran]
  have middle := step_kept kept served
  obtain ⟨⟨free, cls, inv⟩, -⟩ := middle
  obtain ⟨h', b', m', free', cls', back, -, -⟩ := inv.dealloc (p := p) (l := l) List.mem_cons_self
  refine ⟨served, h', b', m', back, ?_⟩
  have returned : step place ⟨h, b, m, (p, l) :: s.live⟩ (.dealloc p l) =
      some ⟨h', b', m', s.live⟩ := by
    simp [step, back]
  rw [(step_kept (step_kept kept served) returned).allocated_eq, kept.allocated_eq]

end HeapSys

/-- After every history of requests of non-zero size and matching returns, every counter is
exact, no counter underflows and no free list is found empty by surprise, and giving a block
back restores `Heap::allocated`. -/
theorem heap_accounting_exact (place : Placement) (m : Mem) (start stop : Nat) (pos : 0 < start)
    (fits : stop < 2 ^ 64) (ordered : roundUp start pgSize ≤ roundDown stop pgSize) :
    ∃ b m', BuddyAllocator.empty.insertRange m start stop = .ok (b, m') ∧
      ∀ ops s, run (HeapSys.step place) ⟨.new, b, m', []⟩ ops = some s →
        (∃ cls, s.Exact cls) ∧
        s.heap.allocated = (s.live.map fun r => r.2.charge).sum ∧ s.heap.allocated < 2 ^ 64 ∧
        (∀ r ∈ s.live, ∃ out, s.heap.dealloc place s.palloc s.mem r.1 r.2 = .ok out) ∧
        (∀ l e, l.size ≠ 0 → s.heap.alloc place s.palloc s.mem l = .error e →
          e ∈ [.exhausted, .alignNotPowerOfTwo, .alignTooLarge, .tooLarge]) ∧
        ∀ l p h b m, l.size ≠ 0 → s.heap.alloc place s.palloc s.mem l = .ok (p, h, b, m) →
          s.step place (.alloc l) = some ⟨h, b, m, (p, l) :: s.live⟩ ∧
          ∃ h' b' m', h.dealloc place b m p l = .ok (h', b', m') ∧
            h'.allocated = s.heap.allocated := by
  obtain ⟨b, m', free₀, insert, holds, -, allocated, -⟩ := insertRange_spec m pos fits ordered
  refine ⟨b, m', insert, fun ops s ran => ?_⟩
  have opened : HeapSys.Ledger ⟨.new, b, m', []⟩ := ⟨fun _ => rfl, rfl, rfl⟩
  have kept : s.Kept place (roundUp start pgSize) (roundDown stop pgSize) :=
    run_invariant (fun _ _ _ => HeapSys.step_kept)
      ⟨⟨free₀, _, HeapSys.start_inv holds allocated⟩, opened⟩ ran
  obtain ⟨⟨free, cls, inv⟩, ledger⟩ := kept
  have total := inv.allocated_eq ledger
  refine ⟨⟨cls, inv.exact ledger⟩, total, ?_, inv.safe.frees, ?_, ?_⟩
  · have bound := inv.charges_le
    have fits := inv.cells.pages.fits
    have pos := inv.cells.pages.pos
    omega
  · intro l e size refused
    by_cases valid : l.Valid
    · exact inv.safe.serves l valid e refused ▸ by simp
    · obtain ⟨e', mem, same⟩ : ∃ e ∈ _, s.heap.alloc place s.palloc s.mem l = .error e :=
        Heap.alloc_invalid size valid
      rw [same] at refused
      obtain rfl := Except.error.inj refused
      exact List.mem_cons_of_mem _ mem
  · intro l p h b m size served
    exact HeapSys.Kept.restores ⟨⟨free, cls, inv⟩, ledger⟩ size served

/-- A block of each kind, and the count after one of them is given back. -/
theorem mixed_requests_counted : ∃ b m' s,
    BuddyAllocator.empty.insertRange (fun _ => 0) 5000 40000 = .ok (b, m') ∧
      run (HeapSys.step staticPlacement) ⟨.new, b, m', []⟩ mixedOps = some s ∧
      (∃ cls, s.Exact cls) ∧ s.heap.allocated = 9216 := by
  obtain ⟨b, m', insert, exact⟩ := heap_accounting_exact staticPlacement (fun _ => 0) 5000 40000
    (by decide) (by decide) (by decide)
  have ran : ((BuddyAllocator.empty.insertRange (fun _ => 0) 5000 40000).toOption.bind fun r =>
      (run (HeapSys.step staticPlacement) ⟨.new, r.1, r.2, []⟩ mixedOps).map HeapSys.live) =
        some [(34816, ⟨600, 512⟩), (8192, ⟨5000, 4096⟩)] := by
    decide +kernel
  rw [insert, Except.toOption, Option.bind_some] at ran
  obtain ⟨s, hs, live⟩ := Option.map_eq_some_iff.mp ran
  obtain ⟨counters, sum, -⟩ := exact _ s hs
  refine ⟨b, m', s, insert, hs, counters, ?_⟩
  rw [sum, live]
  decide

section Zero

variable (place : Placement) (h : Heap) (b : BuddyAllocator) (m : Mem) {align : Nat}

/-- A request gets an aligned pointer, and giving it back changes nothing at all. -/
def Inert (align : Nat) (alloc : Except Panic (Nat × Heap × BuddyAllocator × Mem))
    (dealloc : Heap → BuddyAllocator → Mem → Nat → Except Panic (Heap × BuddyAllocator × Mem)) :
    Prop :=
  ∃ p h' b' m', alloc = .ok (p, h', b', m') ∧ align ∣ p ∧ dealloc h' b' m' p = .ok (h', b', m')

theorem Heap.alloc_zero : h.alloc place b m ⟨0, align⟩ = .ok (1, h, b, m) := by
  simp [Heap.alloc]

theorem Arena.fromBlock_one : Arena.fromBlock place h m 1 = .error .unwrapNone := by
  have page : roundDown 1 pgSize = 0 := by decide
  simp [Arena.fromBlock, page]

theorem Desc.dealloc_one (i : Fin 8) : ∃ e, Desc.dealloc place h m i 1 = .error e := by
  simp only [Desc.dealloc]
  split
  · exact ⟨_, rfl⟩
  · rw [Arena.fromBlock_one]
    exact ⟨_, rfl⟩

/-- The pointer of a zero-sized request cannot be given back: it is taken for a block of a
descriptor or for a page. -/
theorem Heap.dealloc_zero (align : Nat) : ∃ e, h.dealloc place b m 1 ⟨0, align⟩ = .error e := by
  unfold Heap.dealloc
  rw [if_neg Nat.one_ne_zero]
  split
  · split
    · rename_i index
      obtain ⟨e, fails⟩ := Desc.dealloc_one place h m ⟨_, index⟩
      exact ⟨e, by rw [fails]⟩
    · exact ⟨_, rfl⟩
  · exact ⟨.pageAlign, by simp [pgSize, pgShift]⟩

theorem kalloc_eq {size : Nat} (power : isPowerOfTwo align = true) (fits : size + align ≤ 2 ^ 63) :
    kalloc place h b m size align = h.alloc place b m ⟨size, align⟩ := by
  rw [kalloc, Layout.fromSizeAlign, if_pos ⟨power, fits⟩]

theorem kfree_eq {size ptr : Nat} (power : isPowerOfTwo align = true)
    (fits : size + align ≤ 2 ^ 63) :
    kfree place h b m ptr size align = h.dealloc place b m ptr ⟨size, align⟩ := by
  rw [kfree, Layout.fromSizeAlign, if_pos ⟨power, fits⟩]

/-- No zero-sized request is handled consistently; only the byte alignment gets an aligned
pointer. -/
theorem zero_sized_never (power : isPowerOfTwo align = true) (page : align ≤ pgSize) :
    ¬ Inert align (h.alloc place b m ⟨0, align⟩)
        (fun h b m p => h.dealloc place b m p ⟨0, align⟩) ∧
      ¬ Inert align (kalloc place h b m 0 align) (fun h b m p => kfree place h b m p 0 align) ∧
      ∀ p h' b' m', h.alloc place b m ⟨0, align⟩ = .ok (p, h', b', m') →
        (align ∣ p ↔ align = 1) := by
  have fits : 0 + align ≤ 2 ^ 63 := by
    have : pgSize ≤ 2 ^ 63 := by decide
    omega
  have never : ¬ Inert align (h.alloc place b m ⟨0, align⟩)
      (fun h b m p => h.dealloc place b m p ⟨0, align⟩) := by
    rintro ⟨p, h', b', m', alloc, -, back⟩
    rw [Heap.alloc_zero] at alloc
    obtain ⟨rfl, rfl, rfl, rfl⟩ := by simpa using alloc
    obtain ⟨e, fails⟩ := Heap.dealloc_zero place h b m align
    have back : h.dealloc place b m 1 ⟨0, align⟩ = .ok (h, b, m) := back
    rw [fails] at back
    cases back
  refine ⟨never, ?_, ?_⟩
  · simpa only [kalloc_eq place h b m power fits, kfree_eq place _ _ _ power fits] using never
  · intro p h' b' m' alloc
    rw [Heap.alloc_zero] at alloc
    obtain ⟨rfl, -⟩ := by simpa using alloc
    exact Nat.dvd_one

end Zero

theorem zero_sized_bytes_fail :
    ¬ Inert 1 (Heap.new.alloc staticPlacement .empty (fun _ => 0) ⟨0, 1⟩)
      fun h b m p => h.dealloc staticPlacement b m p ⟨0, 1⟩ :=
  (zero_sized_never staticPlacement .new .empty (fun _ => 0) (by decide) (by decide)).1

/-- A zero-sized request for words gets address 1 and cannot be given back. -/
theorem zero_sized_words : ¬ ∀ (h : Heap) (b : BuddyAllocator) (m : Mem) (align : Nat),
    isPowerOfTwo align = true → align ≤ pgSize →
      Inert align (h.alloc staticPlacement b m ⟨0, align⟩)
        fun h b m p => h.dealloc staticPlacement b m p ⟨0, align⟩ := by
  intro claimed
  obtain ⟨p, h, b, m, alloc, aligned, -⟩ :=
    claimed .new .empty (fun _ => 0) 8 (by decide) (by decide)
  rw [Heap.alloc_zero] at alloc
  obtain ⟨rfl, -⟩ := by simpa using alloc
  exact absurd aligned (by decide)

end Tacos.Mem
