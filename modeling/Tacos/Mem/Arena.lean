/- GID: Tacos/Mem/Arena
   generality: I
   source: src/mem/malloc.rs
   digest: How the blocks of the size classes lie in their arenas, and the rules of moving them. -/

import Tacos.Mem.Malloc

set_option autoImplicit false
set_option relaxedAutoImplicit false

namespace Tacos.Mem

open Tacos.Lib.Bytes Tacos.Lib.Buckets Tacos.Lib.Cover
open scoped List

def blockSize (i : Fin 8) : Nat := 2 ^ (i.val + 3)

def perArena (i : Fin 8) : Nat := (pgSize - roundUp descSize (blockSize i)) / blockSize i

def firstBlock (i : Fin 8) : Nat := roundUp arenaSize (blockSize i)

/-- The addresses of the blocks of the arena at `a`. -/
def slots (i : Fin 8) (a : Nat) : List Nat :=
  (List.range (perArena i)).map fun j => a + firstBlock i + j * blockSize i

/-- The bytes of a block and of an arena's header. -/
def cell (i : Fin 8) (q : Nat) : Span := ⟨q, blockSize i⟩

def header (a : Nat) : Span := ⟨a, arenaSize⟩

/-- The capacity is computed with the size of `Desc`, the offset with the size of `Arena`:
the blocks still fit behind the header. -/
theorem arena_fits (i : Fin 8) : arenaSize ≤ firstBlock i ∧
    firstBlock i + perArena i * blockSize i ≤ pgSize := by
  revert i
  decide

theorem blockSize_dvd (i : Fin 8) : blockSize i ∣ firstBlock i ∧ blockSize i ∣ pgSize := by
  revert i
  decide

theorem eight_le_blockSize (i : Fin 8) : 8 ≤ blockSize i := by
  revert i
  decide

theorem perArena_bounds (i : Fin 8) : 0 < perArena i ∧ perArena i < 2 ^ 32 := by
  revert i
  decide

theorem mem_slots {i : Fin 8} {a q : Nat} :
    q ∈ slots i a ↔ ∃ j < perArena i, q = a + firstBlock i + j * blockSize i := by
  simp [slots, eq_comm]

theorem slot_bounds {i : Fin 8} {a q : Nat} (hq : q ∈ slots i a) :
    a + arenaSize ≤ q ∧ q + blockSize i ≤ a + pgSize := by
  obtain ⟨j, hj, rfl⟩ := mem_slots.mp hq
  have fits := arena_fits i
  have last : (j + 1) * blockSize i ≤ perArena i * blockSize i := Nat.mul_le_mul_right _ hj
  rw [Nat.succ_mul] at last
  omega

theorem slot_page {i : Fin 8} {a q : Nat} (ha : pgSize ∣ a) (hq : q ∈ slots i a) :
    roundDown q pgSize = a := by
  have bounds := slot_bounds hq
  have pos := eight_le_blockSize i
  rw [pgSize] at ha bounds ⊢
  rw [roundDown_two_pow]
  obtain ⟨c, rfl⟩ := ha
  obtain ⟨r, rfl⟩ : ∃ r, q = 2 ^ pgShift * c + r := ⟨q - 2 ^ pgShift * c, by omega⟩
  rw [Nat.mul_add_mod, Nat.mod_eq_of_lt (by omega)]
  omega

theorem slot_aligned {i : Fin 8} {a q : Nat} (ha : pgSize ∣ a) (hq : q ∈ slots i a) :
    blockSize i ∣ q := by
  obtain ⟨j, -, rfl⟩ := mem_slots.mp hq
  obtain ⟨first, page⟩ := blockSize_dvd i
  exact Nat.dvd_add (Nat.dvd_add (dvd_trans page ha) first) (Nat.dvd_mul_left ..)

private theorem arena_cover (i : Fin 8) (a x : Nat) :
    cover (header a :: (slots i a).map (cell i)) x ≤ if x ∈ (⟨a, pgSize⟩ : Span) then 1 else 0 := by
  have row := Tiles.row (a + firstBlock i) (blockSize i) (perArena i) x
  have same : (slots i a).map (cell i) =
      (List.range (perArena i)).map fun j => ⟨a + firstBlock i + j * blockSize i, blockSize i⟩ := by
    simp [slots, cell]
  have fits := arena_fits i
  rw [cover_cons, same, row]
  simp only [mem_span, header]
  split_ifs <;> omega

private theorem arenas_cover (i : Fin 8) (as : List Nat) (x : Nat) :
    cover (as.map header ++ (as.flatMap (slots i)).map (cell i)) x ≤
      cover (as.map fun a => ⟨a, pgSize⟩) x := by
  induction as with
  | nil => simp
  | cons a as ih =>
    have first := arena_cover i a x
    rw [cover_append] at ih
    rw [cover_cons] at first
    simp only [List.map_cons, List.flatMap_cons, List.map_append, List.cons_append, cover_cons,
      cover_append]
    omega

/-- The arenas as blocks of the page allocator. -/
def Heap.pages (h : Heap) : List Block :=
  (List.finRange 8).flatMap fun i => (h.descs i).arenas.map (Block.mk · 0)

theorem Heap.arenas_setDesc {h : Heap} {i : Fin 8} {d : Desc}
    (arenas : d.arenas = (h.descs i).arenas) (j : Fin 8) :
    ((h.setDesc i d).descs j).arenas = (h.descs j).arenas := by
  by_cases hj : j = i
  · subst hj
    simp [Heap.setDesc, arenas]
  · simp [Heap.setDesc, hj]

theorem Heap.pages_setDesc {h : Heap} {i : Fin 8} {d : Desc}
    (arenas : d.arenas = (h.descs i).arenas) : (h.setDesc i d).pages = h.pages := by
  simp only [Heap.pages, Heap.arenas_setDesc arenas]

theorem Heap.pages_cons {h : Heap} {i : Fin 8} {d : Desc} {p : Nat}
    (arenas : d.arenas = p :: (h.descs i).arenas) :
    (⟨p, 0⟩ :: h.pages).Perm (h.setDesc i d).pages := by
  have same : (fun j => (h.descs j).arenas.map (Block.mk · 0)) =
      Function.update (fun j => ((h.setDesc i d).descs j).arenas.map (Block.mk · 0)) i
        ((h.descs i).arenas.map (Block.mk · 0)) := by
    funext j
    by_cases hj : j = i
    · subst hj
      simp
    · simp [Heap.setDesc, hj]
  rw [Heap.pages, same]
  refine flatMap_take_perm (List.nodup_finRange 8) (List.mem_finRange i) ?_
  simp [Heap.setDesc, arenas]

/-- The blocks on the free lists of the classes are `cls`, those handed out are `taken`;
together they are all blocks of all arenas. `bigs` are the pages handed out directly. -/
structure Cells (place : Placement) (lo hi : Nat) (h : Heap) (b : BuddyAllocator) (m : Mem)
    (free : Nat → List Nat) (cls taken : Fin 8 → List Nat) (bigs : List Block) : Prop where
  pages : Holds lo hi b m free (h.pages ++ bigs)
  sizes : ∀ i, (h.descs i).blockSize = blockSize i ∧ (h.descs i).blocksPerArena = perArena i
  spells : ∀ i, (h.descs i).freeList.Spells m (cls i)
  slots : ∀ i, (cls i ++ taken i).Perm ((h.descs i).arenas.flatMap (slots i))
  magic : ∀ i, ∀ a ∈ (h.descs i).arenas, Arena.magic m a = arenaMagic
  desc : ∀ i, ∀ a ∈ (h.descs i).arenas, Arena.desc m a = place.addr i

/-- Headers and blocks of one class. -/
def classSpans (h : Heap) (cls taken : Fin 8 → List Nat) (i : Fin 8) : List Span :=
  (h.descs i).arenas.map header ++ (cls i ++ taken i).map (cell i)

namespace Cells

variable {place : Placement} {lo hi : Nat} {h : Heap} {b : BuddyAllocator} {m m' : Mem}
  {free : Nat → List Nat} {cls taken : Fin 8 → List Nat} {bigs : List Block} {i j : Fin 8}
  {a q x : Nat}

theorem packed (hc : Cells place lo hi h b m free cls taken bigs) :
    Packed ((blocks free).map Block.span ++
      ((List.finRange 8).flatMap (classSpans h cls taken) ++ bigs.map Block.span)) := by
  intro x
  have once := hc.pages.tiles.packed x
  have classes : cover ((List.finRange 8).flatMap (classSpans h cls taken)) x ≤
      cover (h.pages.map Block.span) x := by
    rw [Heap.pages, List.map_flatMap]
    refine cover_flatMap_le fun i _ => ?_
    have moved := ((hc.slots i).map (cell i)).append_left ((h.descs i).arenas.map header)
    have page : Block.span ∘ (Block.mk · 0) = fun a => ⟨a, pgSize⟩ := by
      funext a
      simp [Block.span]
    rw [classSpans, cover_perm moved, List.map_map, page]
    exact arenas_cover i (h.descs i).arenas x
  simp only [List.map_append, cover_append] at once ⊢
  omega

private theorem classes_pairwise (hc : Cells place lo hi h b m free cls taken bigs) :
    (∀ i, (classSpans h cls taken i).Pairwise Apart) ∧
      ∀ i j, i ≠ j → ∀ s ∈ classSpans h cls taken i, ∀ t ∈ classSpans h cls taken j, Apart s t := by
  have pairwise := hc.packed.pairwise
  rw [List.pairwise_append, List.pairwise_append, List.pairwise_flatMap] at pairwise
  obtain ⟨own, cross⟩ := pairwise.2.1.1
  refine ⟨fun i => own i (List.mem_finRange i), fun i j hne => ?_⟩
  have symm : Std.Symm fun i j : Fin 8 => ∀ s ∈ classSpans h cls taken i,
      ∀ t ∈ classSpans h cls taken j, Apart s t :=
    ⟨fun i j hij s hs t ht => (hij t ht s hs).symm⟩
  exact cross.forall (List.mem_finRange i) (List.mem_finRange j) hne

theorem cells_pairwise (hc : Cells place lo hi h b m free cls taken bigs) (i : Fin 8) :
    (cls i ++ taken i).Pairwise fun q q' => Apart (cell i q) (cell i q') :=
  List.pairwise_map.mp (List.pairwise_append.mp (hc.classes_pairwise.1 i)).2.1

theorem cells_apart (hc : Cells place lo hi h b m free cls taken bigs) {q' : Nat}
    (hq : q ∈ cls i ++ taken i) (hq' : q' ∈ cls j ++ taken j) (hne : i ≠ j ∨ q ≠ q') :
    Apart (cell i q) (cell j q') := by
  by_cases hij : i = j
  · subst hij
    have symm : Std.Symm fun q q' : Nat => Apart (cell i q) (cell i q') := ⟨fun _ _ => Apart.symm⟩
    exact (hc.cells_pairwise i).forall hq hq' (hne.resolve_left fun hn => hn rfl)
  · exact hc.classes_pairwise.2 i j hij _ (List.mem_append_right _ (List.mem_map_of_mem hq)) _
      (List.mem_append_right _ (List.mem_map_of_mem hq'))

theorem header_apart (hc : Cells place lo hi h b m free cls taken bigs)
    (hq : q ∈ cls i ++ taken i) (ha : a ∈ (h.descs j).arenas) : Apart (cell i q) (header a) := by
  obtain ⟨own, cross⟩ := hc.classes_pairwise
  by_cases hij : i = j
  · subst hij
    exact ((List.pairwise_append.mp (own i)).2.2 _ (List.mem_map_of_mem ha) _
      (List.mem_map_of_mem hq)).symm
  · exact cross i j hij _ (List.mem_append_right _ (List.mem_map_of_mem hq)) _
      (List.mem_append_left _ (List.mem_map_of_mem ha))

theorem headers_apart (hc : Cells place lo hi h b m free cls taken bigs) {a' : Nat}
    (ha : a ∈ (h.descs i).arenas) (ha' : a' ∈ (h.descs j).arenas) (hne : i ≠ j ∨ a ≠ a') :
    Apart (header a) (header a') := by
  obtain ⟨own, cross⟩ := hc.classes_pairwise
  by_cases hij : i = j
  · subst hij
    have pairwise := (List.pairwise_append.mp (own i)).1
    have symm : Std.Symm fun a a' : Nat => Apart (header a) (header a') := ⟨fun _ _ => Apart.symm⟩
    exact (List.pairwise_map.mp pairwise).forall ha ha' (hne.resolve_left fun hn => hn rfl)
  · exact cross i j hij _ (List.mem_append_left _ (List.mem_map_of_mem ha)) _
      (List.mem_append_left _ (List.mem_map_of_mem ha'))

/-- No block occurs twice; in particular none on a free list is handed out. -/
theorem cells_nodup (hc : Cells place lo hi h b m free cls taken bigs) (i : Fin 8) :
    (cls i ++ taken i).Nodup := by
  refine (hc.cells_pairwise i).imp ?_
  rintro q q' apart rfl
  have inside : q ∈ cell i q := by
    have := eight_le_blockSize i
    simp only [cell, mem_span]
    omega
  exact apart q inside inside

theorem ne_of_taken (hc : Cells place lo hi h b m free cls taken bigs) {q' : Nat} (hq : q ∈ cls i)
    (hq' : q' ∈ taken i) : q ≠ q' := by
  rintro rfl
  exact List.disjoint_of_nodup_append (hc.cells_nodup i) hq hq'

theorem big_apart (hc : Cells place lo hi h b m free cls taken bigs) {s : Span} {blk : Block}
    (hs : s ∈ classSpans h cls taken i) (hblk : blk ∈ bigs) : Apart s blk.span := by
  have pairwise := hc.packed.pairwise
  rw [List.pairwise_append, List.pairwise_append] at pairwise
  exact pairwise.2.1.2.2 s (List.mem_flatMap.mpr ⟨i, List.mem_finRange i, hs⟩) _
    (List.mem_map_of_mem hblk)

theorem page_apart (hc : Cells place lo hi h b m free cls taken bigs) {s : Span} {blk : Block}
    (hs : s ∈ classSpans h cls taken i) (hblk : blk ∈ blocks free) : Apart s blk.span := by
  have pairwise := hc.packed.pairwise
  rw [List.pairwise_append, List.pairwise_append] at pairwise
  refine (pairwise.2.2 _ (List.mem_map_of_mem hblk) s (List.mem_append_left _ ?_)).symm
  exact List.mem_flatMap.mpr ⟨i, List.mem_finRange i, hs⟩

theorem cell_mem_classSpans (hq : q ∈ cls i ++ taken i) :
    cell i q ∈ classSpans h cls taken i := List.mem_append_right _ (List.mem_map_of_mem hq)

theorem mem_pages (ha : a ∈ (h.descs i).arenas) : ⟨a, 0⟩ ∈ h.pages :=
  List.mem_flatMap.mpr ⟨i, List.mem_finRange i, List.mem_map_of_mem ha⟩

theorem arena_aligned (hc : Cells place lo hi h b m free cls taken bigs)
    (ha : a ∈ (h.descs i).arenas) : pgSize ∣ a := by
  have := hc.pages.aligned ⟨a, 0⟩ (List.mem_append_right _ (List.mem_append_left _ (mem_pages ha)))
  simpa [pgSize] using this

theorem arena_of_cell (hc : Cells place lo hi h b m free cls taken bigs)
    (hq : q ∈ cls i ++ taken i) : ∃ a ∈ (h.descs i).arenas, q ∈ Mem.slots i a :=
  List.mem_flatMap.mp ((hc.slots i).mem_iff.mp hq)

private theorem page_span (a : Nat) : Block.span ⟨a, 0⟩ = ⟨a, pgSize⟩ := by simp [Block.span]

/-- What happens inside handed out blocks and in the counts of the arenas does not matter. -/
theorem touch (hc : Cells place lo hi h b m free cls taken bigs)
    (same : ∀ x, m' x ≠ m x → (∃ i, ∃ q ∈ taken i, x ∈ cell i q) ∨ (∃ blk ∈ bigs, x ∈ blk.span) ∨
      ∃ i, ∃ a ∈ (h.descs i).arenas, x ∈ (⟨a + 4, 4⟩ : Span)) :
    Cells place lo hi h b m' free cls taken bigs := by
  -- no header field but the count, and no link of a free block, is written
  have fields : ∀ i, ∀ a ∈ (h.descs i).arenas, ∀ x, x ∈ (⟨a, 4⟩ : Span) ∨ x ∈ (⟨a + 8, 8⟩ : Span) →
      m' x = m x := by
    intro i a ha x hx
    have inside : x ∈ header a := by
      simp only [mem_span, header, arenaSize] at hx ⊢
      omega
    by_contra hne
    rcases same x hne with ⟨j, q, hq, hxq⟩ | ⟨blk, hblk, hxb⟩ | ⟨j, a', ha', hxa⟩
    · exact hc.header_apart (List.mem_append_right _ hq) ha x hxq inside
    · exact hc.big_apart (List.mem_append_left _ (List.mem_map_of_mem ha)) hblk x inside hxb
    · by_cases heq : i = j ∧ a = a'
      · obtain ⟨rfl, rfl⟩ := heq
        simp only [mem_span] at hx hxa
        omega
      · refine hc.headers_apart ha ha' (by tauto) x inside ?_
        simp only [mem_span, header, arenaSize] at hxa ⊢
        omega
  refine ⟨?_, hc.sizes, ?_, hc.slots, ?_, ?_⟩
  · refine hc.pages.scribble fun x hne => ?_
    rcases same x hne with ⟨j, q, hq, hxq⟩ | ⟨blk, hblk, hxb⟩ | ⟨j, a, ha, hxa⟩
    · obtain ⟨a, ha, hslot⟩ := hc.arena_of_cell (List.mem_append_right _ hq)
      refine ⟨⟨a, 0⟩, List.mem_append_left _ (mem_pages ha), ?_⟩
      have bounds := slot_bounds hslot
      rw [page_span]
      simp only [mem_span, cell, arenaSize] at hxq bounds ⊢
      omega
    · exact ⟨blk, List.mem_append_right _ hblk, hxb⟩
    · refine ⟨⟨a, 0⟩, List.mem_append_left _ (mem_pages ha), ?_⟩
      rw [page_span]
      simp only [mem_span, pgSize, pgShift] at hxa ⊢
      omega
  · intro i
    refine (hc.spells i).congr fun q hq x hx hx' => ?_
    have inside : x ∈ cell i q := by
      have := eight_le_blockSize i
      simp only [mem_span, cell]
      omega
    by_contra hne
    have hqi : q ∈ cls i ++ taken i := List.mem_append_left _ hq
    rcases same x hne with ⟨j, q', hq', hxq⟩ | ⟨blk, hblk, hxb⟩ | ⟨j, a, ha, hxa⟩
    · refine hc.cells_apart hqi (List.mem_append_right _ hq') ?_ x inside hxq
      by_cases hij : i = j
      · subst hij
        exact .inr (hc.ne_of_taken hq hq')
      · exact .inl hij
    · exact hc.big_apart (cell_mem_classSpans hqi) hblk x inside hxb
    · refine hc.header_apart hqi ha x inside ?_
      simp only [mem_span, header, arenaSize] at hxa ⊢
      omega
  · intro i a ha
    rw [← hc.magic i a ha]
    exact loadLE_congr fun x hx hx' => fields i a ha x (.inl ⟨hx, hx'⟩)
  · intro i a ha
    rw [← hc.desc i a ha]
    exact loadLE_congr fun x hx hx' => fields i a ha x (.inr ⟨hx, hx'⟩)

/-- A descriptor of the same class with other counters and another split of its blocks. -/
theorem setDesc {d : Desc} {ns ts : List Nat} (hc : Cells place lo hi h b m free cls taken bigs)
    (size : d.blockSize = (h.descs i).blockSize)
    (per : d.blocksPerArena = (h.descs i).blocksPerArena) (arenas : d.arenas = (h.descs i).arenas)
    (spells : d.freeList.Spells m ns) (perm : (ns ++ ts).Perm (cls i ++ taken i)) :
    Cells place lo hi (h.setDesc i d) b m free (Function.update cls i ns)
      (Function.update taken i ts) bigs := by
  have same := fun j => Heap.arenas_setDesc arenas j
  refine ⟨?_, ?_, ?_, ?_, ?_, ?_⟩
  · rw [Heap.pages_setDesc arenas]
    exact hc.pages
  · intro j
    by_cases hj : j = i
    · subst hj
      simp [Heap.setDesc, size, per, hc.sizes j]
    · simp [Heap.setDesc, hj, hc.sizes j]
  · intro j
    by_cases hj : j = i
    · subst hj
      simpa [Heap.setDesc] using spells
    · simpa [Heap.setDesc, hj] using hc.spells j
  · intro j
    rw [same]
    by_cases hj : j = i
    · subst hj
      rw [Function.update_self, Function.update_self]
      exact perm.trans (hc.slots j)
    · rw [Function.update_of_ne hj, Function.update_of_ne hj]
      exact hc.slots j
  · intro j a ha
    exact hc.magic j a (same j ▸ ha)
  · intro j a ha
    exact hc.desc j a (same j ▸ ha)

theorem repage {b' : BuddyAllocator} {free' : Nat → List Nat} {bigs' : List Block}
    (hc : Cells place lo hi h b m free cls taken bigs)
    (holds : Holds lo hi b' m' free' (h.pages ++ bigs')) (keeps : Keeps m m' h.pages) :
    Cells place lo hi h b' m' free' cls taken bigs' := by
  have inside : ∀ i, ∀ a ∈ (h.descs i).arenas, ∀ x, a ≤ x → x < a + pgSize → m' x = m x :=
    fun i a ha x hx hx' => keeps ⟨a, 0⟩ (mem_pages ha) x (page_span a ▸ ⟨hx, hx'⟩)
  refine ⟨holds, hc.sizes, ?_, hc.slots, ?_, ?_⟩
  · intro i
    refine (hc.spells i).congr fun q hq x hx hx' => ?_
    obtain ⟨a, ha, hslot⟩ := hc.arena_of_cell (List.mem_append_left _ hq)
    have bounds := slot_bounds hslot
    have eight := eight_le_blockSize i
    exact inside i a ha x (by omega) (by omega)
  · intro i a ha
    rw [← hc.magic i a ha]
    refine loadLE_congr fun x hx hx' => inside i a ha x hx ?_
    simp only [pgSize, pgShift]
    omega
  · intro i a ha
    rw [← hc.desc i a ha]
    refine loadLE_congr fun x hx hx' => inside i a ha x (by omega) ?_
    simp only [pgSize, pgShift]
    omega

/-- A page that was handed out becomes an arena; its blocks are not on the free list yet. -/
theorem adopt {d : Desc} {p : Nat} (hc : Cells place lo hi h b m free cls taken (⟨p, 0⟩ :: bigs))
    (size : d.blockSize = (h.descs i).blockSize)
    (per : d.blocksPerArena = (h.descs i).blocksPerArena)
    (arenas : d.arenas = p :: (h.descs i).arenas) (list : d.freeList = (h.descs i).freeList)
    (magic : Arena.magic m p = arenaMagic) (desc : Arena.desc m p = place.addr i) :
    Cells place lo hi (h.setDesc i d) b m free cls
      (Function.update taken i (Mem.slots i p ++ taken i)) bigs := by
  have mem : ∀ j, ∀ a ∈ ((h.setDesc i d).descs j).arenas,
      (j = i ∧ a = p) ∨ a ∈ (h.descs j).arenas := by
    intro j a ha
    by_cases hj : j = i
    · subst hj
      simp only [Heap.setDesc, Function.update_self, arenas] at ha
      exact (List.mem_cons.mp ha).imp (fun ha => ⟨rfl, ha⟩) id
    · simp only [Heap.setDesc, Function.update_of_ne hj] at ha
      exact .inr ha
  refine ⟨?_, ?_, ?_, ?_, ?_, ?_⟩
  · exact hc.pages.perm (List.perm_middle.trans ((Heap.pages_cons arenas).append_right bigs))
  · intro j
    by_cases hj : j = i
    · subst hj
      simp [Heap.setDesc, size, per, hc.sizes j]
    · simp [Heap.setDesc, hj, hc.sizes j]
  · intro j
    by_cases hj : j = i
    · subst hj
      simpa [Heap.setDesc, list] using hc.spells j
    · simpa [Heap.setDesc, hj] using hc.spells j
  · intro j
    by_cases hj : j = i
    · subst hj
      simp only [Heap.setDesc, Function.update_self, arenas, List.flatMap_cons]
      calc cls j ++ (Mem.slots j p ++ taken j)
          = cls j ++ Mem.slots j p ++ taken j := (List.append_assoc ..).symm
        _ ~ Mem.slots j p ++ cls j ++ taken j := List.perm_append_comm.append_right _
        _ = Mem.slots j p ++ (cls j ++ taken j) := List.append_assoc ..
        _ ~ _ := (hc.slots j).append_left _
    · simp only [Heap.setDesc, Function.update_of_ne hj]
      exact hc.slots j
  · intro j a ha
    rcases mem j a ha with ⟨rfl, rfl⟩ | ha
    · exact magic
    · exact hc.magic j a ha
  · intro j a ha
    rcases mem j a ha with ⟨rfl, rfl⟩ | ha
    · exact desc
    · exact hc.desc j a ha

end Cells

end Tacos.Mem
