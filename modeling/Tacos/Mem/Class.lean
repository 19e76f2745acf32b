/- GID: Tacos/Mem/Class
   generality: I
   source: src/mem/malloc.rs
   digest: What a descriptor does to the blocks of its class when it serves a request or takes a
     block back. -/

import Tacos.Mem.Arena
import Tacos.Mem.Buddy
import Mathlib.Order.Interval.Finset.Nat

set_option autoImplicit false
set_option relaxedAutoImplicit false

namespace Tacos.Mem

open Tacos.Lib.Bytes Tacos.Lib.Buckets Tacos.Lib.Cover
open scoped List

/-- The counters agree with the lists. -/
structure Counts (h : Heap) (b : BuddyAllocator) (m : Mem) (cls taken : Fin 8 → List Nat)
    (bigs : List Block) : Prop where
  pages : b.allocated = ((h.pages ++ bigs).map fun blk => 2 ^ blk.order).sum
  freeCnt : ∀ i, ∀ a ∈ (h.descs i).arenas,
    Arena.freeCnt m a = (cls i).countP fun q => roundDown q pgSize = a
  free : ∀ i, (h.descs i).free = (cls i).length * blockSize i
  allocated : ∀ i, (h.descs i).allocated = (taken i).length * blockSize i

/-- The bytes that no call may change: the blocks handed out, and the fields of the arenas
that identify them. -/
def Protected (h : Heap) (taken : Fin 8 → List Nat) (bigs : List Block) (x : Nat) : Prop :=
  (∃ i, ∃ q ∈ taken i, x ∈ cell i q) ∨ (∃ blk ∈ bigs, x ∈ blk.span) ∨
    ∃ i, ∃ a ∈ (h.descs i).arenas, x ∈ (⟨a, 4⟩ : Span) ∨ x ∈ (⟨a + 8, 8⟩ : Span)

theorem Counts.perm {h : Heap} {b : BuddyAllocator} {m : Mem} {cls taken taken' : Fin 8 → List Nat}
    {bigs bigs' : List Block} (counts : Counts h b m cls taken bigs)
    (ht : ∀ i, (taken i).Perm (taken' i)) (hb : bigs.Perm bigs') :
    Counts h b m cls taken' bigs' where
  pages := by
    rw [counts.pages]
    exact ((hb.append_left _).map _).sum_eq
  freeCnt := counts.freeCnt
  free := counts.free
  allocated i := by rw [counts.allocated i, (ht i).length_eq]

theorem Counts.repage {h : Heap} {b b' : BuddyAllocator} {m m' : Mem} {cls taken : Fin 8 → List Nat}
    {bigs bigs' : List Block} (counts : Counts h b m cls taken bigs) (keeps : Keeps m m' h.pages)
    (pages : b'.allocated = ((h.pages ++ bigs').map fun blk => 2 ^ blk.order).sum) :
    Counts h b' m' cls taken bigs' where
  pages := pages
  freeCnt i a ha := by
    rw [← counts.freeCnt i a ha]
    refine loadLE_congr fun x hx hx' => keeps _ (Cells.mem_pages ha) x ?_
    simp only [mem_span, Block.span, pgSize, pgShift]
    omega
  free := counts.free
  allocated := counts.allocated

theorem Counts.spill {h h' : Heap} {b : BuddyAllocator} {m : Mem} {cls taken : Fin 8 → List Nat}
    {bigs : List Block} (counts : Counts h b m cls taken bigs) (descs : h'.descs = h.descs) :
    Counts h' b m cls taken bigs := by
  cases h
  cases h'
  cases descs
  exact ⟨counts.pages, counts.freeCnt, counts.free, counts.allocated⟩

theorem Placement.find_addr (place : Placement) (i : Fin 8) :
    place.find (place.addr i) = some i := by
  unfold Placement.find
  cases hfind : (List.finRange 8).find? fun j => place.addr j = place.addr i with
  | none => simpa using List.find?_eq_none.mp hfind i (List.mem_finRange i)
  | some j =>
    have same : place.addr j = place.addr i := by simpa using List.find?_some hfind
    rw [place.injective same]

theorem Heap.setDesc_setDesc (h : Heap) (i : Fin 8) (d d' : Desc) :
    (h.setDesc i d).setDesc i d' = h.setDesc i d' := by
  simp [Heap.setDesc]

namespace Cells

variable {place : Placement} {lo hi : Nat} {h : Heap} {b : BuddyAllocator} {m m' : Mem}
  {free : Nat → List Nat} {cls taken : Fin 8 → List Nat} {bigs : List Block} {i : Fin 8}
  {a q : Nat}

theorem cell_bounds (hc : Cells place lo hi h b m free cls taken bigs)
    (hq : q ∈ cls i ++ taken i) : lo ≤ q ∧ q < hi := by
  obtain ⟨a, ha, hslot⟩ := hc.arena_of_cell hq
  have bounds := slot_bounds hslot
  have eight := eight_le_blockSize i
  refine hc.pages.tiles.mem_iff.mp ⟨Block.span ⟨a, 0⟩, List.mem_map_of_mem
    (List.mem_append_right _ (List.mem_append_left _ (mem_pages ha))), ?_⟩
  simp only [mem_span, Block.span, pow_zero, one_mul]
  omega

/-- The arena of every block passes the assertions of `from_block`. -/
theorem fromBlock_eq (hc : Cells place lo hi h b m free cls taken bigs)
    (ha : a ∈ (h.descs i).arenas) (hq : q ∈ Mem.slots i a) :
    Arena.fromBlock place h m q = .ok a := by
  have aligned := hc.arena_aligned ha
  have pos : a ≠ 0 := by
    have := (hc.pages.bounds (List.mem_append_right _ (List.mem_append_left _ (mem_pages ha)))).1
    have := hc.pages.pos
    simp only at *
    omega
  have size : q % (h.descs i).blockSize = 0 := by
    rw [(hc.sizes i).1]
    exact Nat.mod_eq_zero_of_dvd (slot_aligned aligned hq)
  simp [Arena.fromBlock, slot_page aligned hq, pos, hc.magic i a ha, hc.desc i a ha,
    place.ne_null i, place.find_addr i, size]

theorem put {d : Desc} {ts : List Nat} (hc : Cells place lo hi h b m free cls taken bigs)
    (ht : (taken i).Perm (q :: ts)) (size : d.blockSize = (h.descs i).blockSize)
    (per : d.blocksPerArena = (h.descs i).blocksPerArena) (arenas : d.arenas = (h.descs i).arenas)
    (list : d.freeList = ((h.descs i).freeList.push m q).1) :
    Cells place lo hi (h.setDesc i d) b ((h.descs i).freeList.push m q).2 free
      (Function.update cls i (q :: cls i)) (Function.update taken i ts) bigs ∧
    ∀ x, ((h.descs i).freeList.push m q).2 x ≠ m x → x ∈ cell i q := by
  have eight := eight_le_blockSize i
  have hq : q ∈ taken i := ht.mem_iff.mpr List.mem_cons_self
  have hqi : q ∈ cls i ++ taken i := List.mem_append_right _ hq
  have change : ∀ x, ((h.descs i).freeList.push m q).2 x ≠ m x → x ∈ cell i q := by
    intro x hx
    by_contra hout
    refine hx (InMemList.push_of_not_mem ?_)
    simp only [mem_span, cell] at hout
    omega
  refine ⟨?_, change⟩
  have touched := hc.touch fun x hx => .inl ⟨i, q, hq, change x hx⟩
  refine touched.setDesc size per arenas ?_ ?_
  · rw [list]
    refine (hc.spells i).push ?_ ?_ ?_
    · intro r hr
      have := (hc.cell_bounds (List.mem_append_left _ hr)).2
      have := hc.pages.fits
      omega
    · have := (hc.cell_bounds hqi).1
      have := hc.pages.pos
      omega
    · intro r hr
      have apart := hc.cells_apart (List.mem_append_left _ hr) hqi (.inr (hc.ne_of_taken hr hq))
      have left := apart q
      have right := apart.symm r
      simp only [mem_span, cell] at left right
      omega
  · calc q :: cls i ++ ts ~ cls i ++ q :: ts := List.perm_middle.symm
      _ ~ cls i ++ taken i := ht.symm.append_left _

/-- The fields of an arena's header, and the blocks handed out, are apart from a count. -/
theorem count_not_protected (hc : Cells place lo hi h b m free cls taken bigs)
    (ha : a ∈ (h.descs i).arenas) {x : Nat} (hx : x ∈ (⟨a + 4, 4⟩ : Span)) :
    ¬ Protected h taken bigs x := by
  have inside : x ∈ header a := by
    simp only [mem_span, header, arenaSize] at hx ⊢
    omega
  rintro (⟨j, q, hq, hxq⟩ | ⟨blk, hblk, hxb⟩ | ⟨j, a', ha', hxa⟩)
  · exact hc.header_apart (List.mem_append_right _ hq) ha x hxq inside
  · exact hc.big_apart (List.mem_append_left _ (List.mem_map_of_mem ha)) hblk x inside hxb
  · by_cases heq : i = j ∧ a = a'
    · obtain ⟨rfl, rfl⟩ := heq
      simp only [mem_span] at hx hxa
      omega
    · refine hc.headers_apart ha ha' (by tauto) x inside ?_
      simp only [mem_span, header, arenaSize] at hxa ⊢
      omega

theorem page_of_protected (hc : Cells place lo hi h b m free cls taken bigs) {x : Nat}
    (hx : Protected h taken bigs x) : ∃ blk ∈ h.pages ++ bigs, x ∈ blk.span := by
  rcases hx with ⟨j, r, hr, hxr⟩ | ⟨blk, hblk, hxb⟩ | ⟨j, a, ha, hxa⟩
  · obtain ⟨a, ha, hslot⟩ := hc.arena_of_cell (List.mem_append_right _ hr)
    have bounds := slot_bounds hslot
    refine ⟨⟨a, 0⟩, List.mem_append_left _ (Cells.mem_pages ha), ?_⟩
    simp only [mem_span, Block.span, cell, pow_zero, one_mul] at hxr ⊢
    omega
  · exact ⟨blk, List.mem_append_right _ hblk, hxb⟩
  · refine ⟨⟨a, 0⟩, List.mem_append_left _ (Cells.mem_pages ha), ?_⟩
    simp only [mem_span, Block.span, pgSize, pgShift] at hxa ⊢
    omega

/-- A block that goes back to its list is apart from what stays protected. -/
theorem cell_not_protected {ts : List Nat} (hc : Cells place lo hi h b m free cls taken bigs)
    (ht : (taken i).Perm (q :: ts)) {x : Nat} (hx : x ∈ cell i q) :
    ¬ Protected h (Function.update taken i ts) bigs x := by
  have hqi : q ∈ cls i ++ taken i :=
    List.mem_append_right _ (ht.mem_iff.mpr List.mem_cons_self)
  rintro (⟨j, r, hr, hxr⟩ | ⟨blk, hblk, hxb⟩ | ⟨j, a, ha, hxa⟩)
  · by_cases hj : j = i
    · subst hj
      rw [Function.update_self] at hr
      have pairwise := (List.pairwise_append.mp (hc.cells_pairwise j)).2.1
      rw [ht.pairwise_iff Apart.symm] at pairwise
      exact (List.pairwise_cons.mp pairwise).1 r hr x hx hxr
    · rw [Function.update_of_ne hj] at hr
      exact hc.cells_apart hqi (List.mem_append_right _ hr) (.inl (Ne.symm hj)) x hx hxr
  · exact hc.big_apart (cell_mem_classSpans hqi) hblk x hx hxb
  · refine hc.header_apart hqi ha x hx ?_
    simp only [mem_span, header, arenaSize] at hxa ⊢
    omega

theorem perm {taken' : Fin 8 → List Nat} {bigs' : List Block}
    (hc : Cells place lo hi h b m free cls taken bigs) (ht : ∀ i, (taken i).Perm (taken' i))
    (hb : bigs.Perm bigs') : Cells place lo hi h b m free cls taken' bigs' where
  pages := hc.pages.perm (hb.append_left _)
  sizes := hc.sizes
  spells := hc.spells
  slots i := ((ht i).symm.append_left _).trans (hc.slots i)
  magic := hc.magic
  desc := hc.desc

theorem spill {h' : Heap} (hc : Cells place lo hi h b m free cls taken bigs)
    (descs : h'.descs = h.descs) : Cells place lo hi h' b m free cls taken bigs := by
  cases h
  cases h'
  cases descs
  exact ⟨hc.pages, hc.sizes, hc.spells, hc.slots, hc.magic, hc.desc⟩

/-- The blocks of a new arena go to the free list one by one. -/
theorem pushBlocks_spec {d : Desc} {p count idx : Nat} {l : InMemList} {ts : List Nat}
    (hsizes : ∀ j, (h.descs j).blockSize = blockSize j ∧ (h.descs j).blocksPerArena = perArena j)
    (hp : p ∈ d.arenas)
    (hc : Cells place lo hi (h.setDesc i { d with freeList := l }) b m free cls taken bigs)
    (ht : taken i = (List.range' idx count).map (fun k => p + firstBlock i + k * blockSize i) ++ ts)
    (hidx : idx + count = perArena i) :
    ∃ l' m', Desc.pushBlocks place h p count idx l m = .ok (l', m') ∧
      Cells place lo hi (h.setDesc i { d with freeList := l' }) b m' free
        (Function.update cls i (((List.range' idx count).map
          fun k => p + firstBlock i + k * blockSize i).reverse ++ cls i))
        (Function.update taken i ts) bigs ∧
      ∀ x, m' x ≠ m x → ∃ q ∈ Mem.slots i p, x ∈ cell i q := by
  induction count generalizing idx l m cls taken with
  | zero =>
    refine ⟨l, m, rfl, ?_, fun x hx => (hx rfl).elim⟩
    obtain rfl : ts = taken i := by simpa using ht.symm
    simpa using hc
  | succ count ih =>
    have harena : p ∈ ((h.setDesc i { d with freeList := l }).descs i).arenas := by
      simpa [Heap.setDesc] using hp
    have block : Arena.getBlock place h m p idx = .ok (p + firstBlock i + idx * blockSize i) := by
      have aligned : p % pgSize = 0 := Nat.mod_eq_zero_of_dvd (hc.arena_aligned harena)
      have inside : ¬ perArena i ≤ idx := by omega
      simp [Arena.getBlock, hc.magic i p harena, hc.desc i p harena, place.ne_null i,
        place.find_addr i, hsizes i, inside, aligned, firstBlock]
    rw [List.range'_succ, List.map_cons, List.cons_append] at ht
    set q := p + firstBlock i + idx * blockSize i with hq
    have list : ((h.setDesc i { d with freeList := l }).descs i).freeList = l := by
      simp [Heap.setDesc]
    have taken_eq : (taken i).Perm (q :: ((List.range' (idx + 1) count).map
        (fun k => p + firstBlock i + k * blockSize i) ++ ts)) := by
      rw [ht]
    obtain ⟨pushed, change⟩ := hc.put (d := { d with freeList := (l.push m q).1 }) taken_eq
      (by simp [Heap.setDesc]) (by simp [Heap.setDesc]) (by simp [Heap.setDesc]) (by rw [list])
    rw [Heap.setDesc_setDesc, list] at pushed
    rw [list] at change
    obtain ⟨l', m', loop, final, change'⟩ := ih pushed (Function.update_self ..)
      (show idx + 1 + count = perArena i by omega)
    refine ⟨l', m', ?_, ?_, ?_⟩
    · simp only [Desc.pushBlocks, block]
      exact loop
    · simpa [List.range'_succ] using final
    · intro x hx
      by_cases hsame : m' x = (l.push m q).2 x
      · exact ⟨q, mem_slots.mpr ⟨idx, by omega, rfl⟩, change x (hsame ▸ hx)⟩
      · exact change' x hsame

end Cells

section Descriptor

variable {place : Placement} {lo hi : Nat} {h : Heap} {b : BuddyAllocator} {m : Mem}
  {free : Nat → List Nat} {cls taken : Fin 8 → List Nat} {bigs : List Block} {i : Fin 8}

private theorem slots_count {p : Nat} (hp : pgSize ∣ p) (a : Nat) :
    (slots i p).countP (fun q => roundDown q pgSize = a) = if a = p then perArena i else 0 := by
  split_ifs with ha
  · subst ha
    have all : ∀ q ∈ slots i a, decide (roundDown q pgSize = a) = true := by
      intro q hq
      simpa using slot_page hp hq
    rw [List.countP_eq_length.mpr all]
    simp [slots]
  · apply List.countP_eq_zero.mpr
    intro q hq
    simpa [slot_page hp hq] using Ne.symm ha

/-- The header that a new arena gets. -/
private def stamp (place : Placement) (m : Mem) (i : Fin 8) (p n : Nat) : Mem :=
  Arena.setFreeCnt (Arena.setDesc (Arena.setMagic m p arenaMagic) p (place.addr i)) p n

private theorem stamp_fields (place : Placement) (m : Mem) (i : Fin 8) (p : Nat) {n : Nat}
    (hn : n < 2 ^ 32) :
    Arena.magic (stamp place m i p n) p = arenaMagic ∧
      Arena.desc (stamp place m i p n) p = place.addr i ∧
      Arena.freeCnt (stamp place m i p n) p = n := by
  refine ⟨?_, ?_, ?_⟩
  · rw [stamp, Arena.magic, Arena.setFreeCnt, loadLE_storeLE_of_disjoint (.inl le_rfl),
      Arena.setDesc, loadLE_storeLE_of_disjoint (.inl (by omega)), Arena.setMagic]
    exact loadLE_storeLE_of_lt (by decide)
  · rw [stamp, Arena.desc, Arena.setFreeCnt, loadLE_storeLE_of_disjoint
      (.inr le_rfl), Arena.setDesc]
    exact loadLE_storeLE_of_lt (place.lt i)
  · exact loadLE_storeLE_of_lt hn

private theorem stamp_of_not_mem {p n x : Nat} (hx : x ∉ header p) :
    stamp place m i p n x = m x := by
  simp only [mem_span, header, arenaSize] at hx
  rw [stamp, Arena.setFreeCnt, storeLE_of_not_mem (by omega), Arena.setDesc,
    storeLE_of_not_mem (by omega), Arena.setMagic, storeLE_of_not_mem (by omega)]

/-- A new arena puts all its blocks on the empty free list of its class. -/
private theorem refill_spec (hc : Cells place lo hi h b m free cls taken bigs)
    (counts : Counts h b m cls taken bigs) (hnil : cls i = []) :
    Desc.refill place h b m i = .error .exhausted ∨
    ∃ h' b' m' free' cls', Desc.refill place h b m i = .ok (h', b', m') ∧
      Cells place lo hi h' b' m' free' cls' taken bigs ∧ Counts h' b' m' cls' taken bigs ∧
      cls' i ≠ [] ∧ Keeps m m' (h.pages ++ bigs) ∧
      ∀ j, (h.descs j).arenas ⊆ (h'.descs j).arenas := by
  rcases alloc_spec hc.pages (show 1 ≤ 2 ^ maxOrder by decide) with
    ⟨fails, -⟩ | ⟨p, b₁, m₁, free₁, alloc, holds, keeps, total, allocated, -⟩
  · exact .inl (by simp [Desc.refill, fails])
  right
  have order : orderOf 1 = 0 := by decide
  rw [order] at holds allocated
  have paged : Cells place lo hi h b₁ m₁ free₁ cls taken (⟨p, 0⟩ :: bigs) :=
    hc.repage (holds.perm List.perm_middle.symm) (keeps.mono (List.subset_append_left _ _))
  have hper := (hc.sizes i).2
  have bounds := perArena_bounds i
  obtain ⟨magic, desc, cnt⟩ := stamp_fields place m₁ i p bounds.2
  -- the header lies in the new page, which nobody else uses
  have inside : ∀ x, x ∈ header p → x ∈ Block.span ⟨p, 0⟩ := by
    intro x hx
    simp only [mem_span, header, Block.span, arenaSize, pgSize, pgShift] at hx ⊢
    omega
  have stamped : Cells place lo hi h b₁ (stamp place m₁ i p (perArena i)) free₁ cls taken
      (⟨p, 0⟩ :: bigs) := by
    refine paged.touch fun x hx => .inr (.inl ⟨_, List.mem_cons_self, inside x ?_⟩)
    by_contra hn
    exact hx (stamp_of_not_mem hn)
  set d : Desc := { h.descs i with
    total := (h.descs i).total + pgSize
    free := (h.descs i).free + (h.descs i).blockSize * (h.descs i).blocksPerArena
    arenas := p :: (h.descs i).arenas } with hd
  have adopted := stamped.adopt (i := i) (d := d) rfl rfl rfl rfl magic desc
  have start : Function.update taken i (slots i p ++ taken i) i =
      (List.range' 0 (perArena i)).map
      (fun k => p + firstBlock i + k * blockSize i) ++ taken i := by
    rw [Function.update_self, slots, List.range_eq_range']
  obtain ⟨l, m₂, loop, final, change⟩ := Cells.pushBlocks_spec (d := d) hc.sizes
    List.mem_cons_self adopted start (Nat.zero_add _)
  rw [← List.range_eq_range', Function.update_idem, Function.update_eq_self, hnil,
    List.append_nil] at final
  have others : Keeps m m₂ (h.pages ++ bigs) := by
    intro blk hblk x hx
    have apart := (List.pairwise_cons.mp holds.out_pairwise).1 blk hblk
    have outside : x ∉ Block.span ⟨p, 0⟩ := fun hin => apart x hin hx
    have same : m₂ x = stamp place m₁ i p (perArena i) x := by
      by_contra hne
      obtain ⟨q, hq, hxq⟩ := change x hne
      have bounds := slot_bounds hq
      simp only [mem_span, Block.span, cell, arenaSize, pow_zero, one_mul] at outside hxq bounds
      omega
    rw [same, stamp_of_not_mem fun hin => outside (inside x hin)]
    exact keeps blk hblk x hx
  refine ⟨_, b₁, m₂, free₁, _, ?_, final, ⟨?_, ?_, ?_, ?_⟩, ?_, others, ?_⟩
  · simp only [Desc.refill, alloc, hper]
    rw [show Arena.setFreeCnt _ p (perArena i) = stamp place m₁ i p (perArena i) from rfl, loop,
      hd, hper]
  · have moved := ((Heap.pages_cons (h := h) (i := i) (d := { d with freeList := l }) (p := p)
      rfl).append_right bigs).map fun blk => 2 ^ blk.order
    rw [← moved.sum_eq, allocated, counts.pages]
    simp only [List.cons_append, List.map_cons, List.sum_cons]
    omega
  · intro j a ha
    have old : a ∈ (h.descs j).arenas → Arena.freeCnt m₂ a = Arena.freeCnt m a := by
      intro ha
      refine loadLE_congr fun x hx hx' => others _
        (List.mem_append_left _ (Cells.mem_pages ha)) x ?_
      simp only [mem_span, Block.span, pgSize, pgShift]
      omega
    by_cases hj : j = i
    · subst hj
      have aligned : pgSize ∣ p := by
        simpa [pgSize] using holds.aligned ⟨p, 0⟩ (by simp)
      rw [Function.update_self, List.countP_reverse, ← slots, slots_count aligned]
      simp only [Heap.setDesc, Function.update_self, hd] at ha
      rcases List.mem_cons.mp ha with rfl | hold
      · rw [if_pos rfl, ← cnt]
        refine loadLE_congr fun x hx hx' => ?_
        by_contra hne
        obtain ⟨q, hq, hxq⟩ := change x hne
        have bounds := slot_bounds hq
        simp only [mem_span, cell, arenaSize] at hxq bounds
        omega
      · have hne : a ≠ p := by
          rintro rfl
          have apart := (List.pairwise_cons.mp holds.out_pairwise).1 _
            (List.mem_append_left _ (Cells.mem_pages hold))
          exact apart a (addr_mem_span _) (addr_mem_span _)
        rw [if_neg hne, old hold, counts.freeCnt j a hold, hnil]
        rfl
    · simp only [Heap.setDesc, Function.update_of_ne hj] at ha
      rw [Function.update_of_ne hj, old ha, counts.freeCnt j a ha]
  · intro j
    by_cases hj : j = i
    · subst hj
      have empty := counts.free j
      rw [hnil, List.length_nil, Nat.zero_mul] at empty
      simp [Heap.setDesc, hd, empty, hper, (hc.sizes j).1, Nat.mul_comm]
    · simpa [Heap.setDesc, hj] using counts.free j
  · intro j
    by_cases hj : j = i
    · subst hj
      simpa [Heap.setDesc, hd] using counts.allocated j
    · simpa [Heap.setDesc, hj] using counts.allocated j
  · rw [Function.update_self]
    have := bounds.1
    simp
    omega
  · intro j a ha
    by_cases hj : j = i
    · subst hj
      simp [Heap.setDesc, hd, ha]
    · simpa [Heap.setDesc, hj] using ha

private theorem setFreeCnt_change {a v x : Nat} (hx : Arena.setFreeCnt m a v x ≠ m x) :
    x ∈ (⟨a + 4, 4⟩ : Span) := by
  by_contra hout
  refine hx (storeLE_of_not_mem ?_)
  simp only [mem_span] at hout
  omega

/-- Setting the count of one arena leaves the others' alone. -/
private theorem freeCnt_set (hc : Cells place lo hi h b m free cls taken bigs) {j : Fin 8}
    {a a' v : Nat} (hv : v < 2 ^ 32) (ha : a ∈ (h.descs i).arenas) (ha' : a' ∈ (h.descs j).arenas) :
    Arena.freeCnt (Arena.setFreeCnt m a v) a' =
      if i = j ∧ a = a' then v else Arena.freeCnt m a' := by
  split_ifs with heq
  · obtain ⟨-, rfl⟩ := heq
    exact loadLE_storeLE_of_lt hv
  · have apart := hc.headers_apart ha ha' (by tauto)
    refine loadLE_congr fun x hx hx' => storeLE_of_not_mem ?_
    have := apart x
    simp only [mem_span, header, arenaSize] at this
    omega

private theorem take_spec {q : Nat} {ns : List Nat}
    (hc : Cells place lo hi h b m free cls taken bigs) (counts : Counts h b m cls taken bigs)
    (hcons : cls i = q :: ns) :
    ∃ h' m', Desc.take place h m i = .ok (q, h', m') ∧
      Cells place lo hi h' b m' free (Function.update cls i ns)
        (Function.update taken i (q :: taken i)) bigs ∧
      Counts h' b m' (Function.update cls i ns) (Function.update taken i (q :: taken i)) bigs ∧
      (∀ x, Protected h taken bigs x → m' x = m x) ∧
      ∀ j, (h'.descs j).arenas = (h.descs j).arenas := by
  have hq : q ∈ cls i ++ taken i := by simp [hcons]
  obtain ⟨a, ha, hslot⟩ := hc.arena_of_cell hq
  have aligned := hc.arena_aligned ha
  have spells := hc.spells i
  rw [hcons] at spells
  obtain ⟨pop, rest⟩ := spells.pop_eq
  have size := (hc.sizes i).1
  have enough : ¬ (h.descs i).free < (h.descs i).blockSize := by
    rw [counts.free i, hcons, size, List.length_cons, Nat.succ_mul]
    omega
  set d : Desc := { h.descs i with
    freeList := ⟨link m q⟩
    allocated := (h.descs i).allocated + (h.descs i).blockSize
    free := (h.descs i).free - (h.descs i).blockSize } with hd
  have split : (ns ++ q :: taken i).Perm (cls i ++ taken i) := by
    rw [hcons]
    exact List.perm_middle
  have moved := hc.setDesc (d := d) rfl rfl rfl rest split
  have arenas : ∀ j, ((h.setDesc i d).descs j).arenas = (h.descs j).arenas :=
    Heap.arenas_setDesc (show d.arenas = (h.descs i).arenas from rfl)
  have ha' : a ∈ ((h.setDesc i d).descs i).arenas := (arenas i).symm ▸ ha
  have found := moved.fromBlock_eq ha' hslot
  have page := slot_page aligned hslot
  have cnt : Arena.freeCnt m a = (ns.countP fun q => roundDown q pgSize = a) + 1 := by
    rw [counts.freeCnt i a ha, hcons, List.countP_cons_of_pos (by simpa using page)]
  refine ⟨h.setDesc i d, Arena.setFreeCnt m a (Arena.freeCnt m a - 1), ?_, ?_, ⟨?_, ?_, ?_, ?_⟩,
    ?_, arenas⟩
  · simp [Desc.take, enough, pop, ← hd, found, cnt]
  · exact moved.touch fun x hx => .inr (.inr ⟨i, a, ha', setFreeCnt_change hx⟩)
  · rw [Heap.pages_setDesc (show d.arenas = (h.descs i).arenas from rfl)]
    exact counts.pages
  · intro j a' hj'
    rw [arenas] at hj'
    have small : Arena.freeCnt m a < 2 ^ 32 := loadLE_lt m (a + 4) 4
    rw [freeCnt_set hc (by omega) ha hj']
    split_ifs with heq
    · obtain ⟨rfl, rfl⟩ := heq
      rw [Function.update_self, cnt]
      omega
    · rw [counts.freeCnt j a' hj']
      by_cases hj : j = i
      · subst hj
        have hne : a ≠ a' := fun he => heq ⟨rfl, he⟩
        rw [Function.update_self, hcons, List.countP_cons_of_neg (by simpa [page] using hne)]
      · rw [Function.update_of_ne hj]
  · intro j
    by_cases hj : j = i
    · subst hj
      simp only [Heap.setDesc, Function.update_self, hd]
      rw [counts.free j, hcons, size, List.length_cons, Nat.succ_mul]
      omega
    · simpa [Heap.setDesc, hj] using counts.free j
  · intro j
    by_cases hj : j = i
    · subst hj
      simp only [Heap.setDesc, Function.update_self, hd]
      rw [counts.allocated j, size, List.length_cons, Nat.succ_mul]
    · simpa [Heap.setDesc, hj] using counts.allocated j
  · intro x hx
    by_contra hne
    exact hc.count_not_protected ha (setFreeCnt_change hne) hx

private theorem countP_page_le {l : List Nat} (hl : l.Nodup) (a : Nat) :
    (l.countP fun q => roundDown q pgSize = a) ≤ pgSize := by
  rw [List.countP_eq_length_filter, ← List.toFinset_card_of_nodup (hl.filter _)]
  have sub : (l.filter fun q => roundDown q pgSize = a).toFinset ⊆ Finset.Ico a (a + pgSize) := by
    intro q hq
    have page : roundDown q pgSize = a := by
      simpa using (List.mem_filter.mp (List.mem_toFinset.mp hq)).2
    have rest := Nat.mod_lt q (show 0 < 2 ^ pgShift from Nat.two_pow_pos _)
    rw [pgSize, roundDown_two_pow] at page
    have := Nat.mod_le q (2 ^ pgShift)
    rw [Finset.mem_Ico, pgSize]
    omega
  have card := Finset.card_le_card sub
  rwa [Nat.card_Ico, Nat.add_sub_cancel_left] at card

/-- A descriptor serves a request with one of its blocks, or memory is exhausted. -/
theorem Desc.alloc_spec (hc : Cells place lo hi h b m free cls taken bigs)
    (counts : Counts h b m cls taken bigs) (i : Fin 8) :
    Desc.alloc place h b m i = .error .exhausted ∨
    ∃ q h' b' m' free' cls', Desc.alloc place h b m i = .ok (q, h', b', m') ∧
      Cells place lo hi h' b' m' free' cls' (Function.update taken i (q :: taken i)) bigs ∧
      Counts h' b' m' cls' (Function.update taken i (q :: taken i)) bigs ∧
      (∀ x, Protected h taken bigs x → m' x = m x) ∧
      ∀ j, (h.descs j).arenas ⊆ (h'.descs j).arenas := by
  by_cases hnil : cls i = []
  · have empty := (hc.spells i).isEmpty_iff.mpr hnil
    rcases refill_spec hc counts hnil with
      fails | ⟨h₁, b₁, m₁, free₁, cls₁, refill, hc₁, counts₁, hne, keeps, arenas⟩
    · exact .inl (by simp [Desc.alloc, empty, fails])
    · obtain ⟨q, ns, hcons⟩ := List.exists_cons_of_ne_nil hne
      obtain ⟨h₂, m₂, take, hc₂, counts₂, frame, arenas₂⟩ := take_spec hc₁ counts₁ hcons
      refine .inr ⟨q, h₂, b₁, m₂, free₁, _, ?_, hc₂, counts₂, ?_, ?_⟩
      · simp [Desc.alloc, empty, refill, take]
      · intro x hx
        have kept : m₁ x = m x := by
          obtain ⟨blk, hblk, hxb⟩ := hc.page_of_protected hx
          exact keeps blk hblk x hxb
        rw [frame x ?_, kept]
        refine hx.imp id (Or.imp id ?_)
        rintro ⟨j, a, ha, hxa⟩
        exact ⟨j, a, arenas j ha, hxa⟩
      · intro j
        rw [arenas₂ j]
        exact arenas j
  · obtain ⟨q, ns, hcons⟩ := List.exists_cons_of_ne_nil hnil
    have full : (h.descs i).freeList.isEmpty = false := by
      simpa using fun he => hnil ((hc.spells i).isEmpty_iff.mp he)
    obtain ⟨h', m', take, hc', counts', frame, arenas⟩ := take_spec hc counts hcons
    refine .inr ⟨q, h', b, m', free, _, ?_, hc', counts', frame, fun j => ?_⟩
    · simp [Desc.alloc, full, take]
    · rw [arenas j]
      exact List.Subset.refl _

theorem Desc.dealloc_spec {q : Nat} {ts : List Nat}
    (hc : Cells place lo hi h b m free cls taken bigs) (counts : Counts h b m cls taken bigs)
    (ht : (taken i).Perm (q :: ts)) :
    ∃ h' m' cls', Desc.dealloc place h m i q = .ok (h', m') ∧
      Cells place lo hi h' b m' free cls' (Function.update taken i ts) bigs ∧
      Counts h' b m' cls' (Function.update taken i ts) bigs ∧
      (∀ x, Protected h (Function.update taken i ts) bigs x → m' x = m x) ∧
      ∀ j, (h'.descs j).arenas = (h.descs j).arenas := by
  have hq : q ∈ cls i ++ taken i := List.mem_append_right _ (ht.mem_iff.mpr List.mem_cons_self)
  obtain ⟨a, ha, hslot⟩ := hc.arena_of_cell hq
  have page := slot_page (hc.arena_aligned ha) hslot
  have size := (hc.sizes i).1
  have enough : ¬ (h.descs i).allocated < (h.descs i).blockSize := by
    rw [counts.allocated i, ht.length_eq, size, List.length_cons, Nat.succ_mul]
    omega
  set l := ((h.descs i).freeList.push m q).1 with hl
  set m₁ := ((h.descs i).freeList.push m q).2 with hm₁
  set d : Desc := { h.descs i with
    freeList := l
    allocated := (h.descs i).allocated - (h.descs i).blockSize
    free := (h.descs i).free + (h.descs i).blockSize } with hd
  obtain ⟨pushed, change⟩ := hc.put (d := d) ht rfl rfl rfl rfl
  rw [← hm₁] at pushed change
  have arenas : ∀ j, ((h.setDesc i d).descs j).arenas = (h.descs j).arenas :=
    Heap.arenas_setDesc (show d.arenas = (h.descs i).arenas from rfl)
  have ha' : a ∈ ((h.setDesc i d).descs i).arenas := (arenas i).symm ▸ ha
  have found := pushed.fromBlock_eq ha' hslot
  -- the link goes into the block, so the counts are still the old ones
  have cnt : ∀ j, ∀ a' ∈ (h.descs j).arenas, Arena.freeCnt m₁ a' =
      (cls j).countP fun q => roundDown q pgSize = a' := by
    intro j a' haj
    rw [← counts.freeCnt j a' haj]
    refine loadLE_congr fun x hx hx' => ?_
    by_contra hne
    refine hc.header_apart hq haj x (change x hne) ?_
    simp only [mem_span, header, arenaSize]
    omega
  have few : Arena.freeCnt m₁ a + 1 < 2 ^ 32 := by
    rw [cnt i a ha]
    have nodup : (cls i).Nodup := (List.nodup_append.mp (hc.cells_nodup i)).1
    have small : pgSize + 1 < 2 ^ 32 := by decide
    have := countP_page_le nodup a
    omega
  refine ⟨h.setDesc i d, Arena.setFreeCnt m₁ a (Arena.freeCnt m₁ a + 1),
    Function.update cls i (q :: cls i), ?_, ?_, ⟨?_, ?_, ?_, ?_⟩, ?_, arenas⟩
  · have room : ¬ 2 ^ 32 ≤ Arena.freeCnt m₁ a + 1 := by omega
    simp only [Desc.dealloc, ← hl, ← hm₁, if_neg enough, ← hd, found, if_neg room]
  · exact pushed.touch fun x hx => .inr (.inr ⟨i, a, ha', setFreeCnt_change hx⟩)
  · rw [Heap.pages_setDesc (show d.arenas = (h.descs i).arenas from rfl)]
    exact counts.pages
  · intro j a' hj'
    rw [freeCnt_set pushed few ha' hj']
    rw [arenas] at hj'
    split_ifs with heq
    · obtain ⟨rfl, rfl⟩ := heq
      rw [Function.update_self, cnt i a ha, List.countP_cons_of_pos (by simpa using page)]
    · rw [cnt j a' hj']
      by_cases hj : j = i
      · subst hj
        have hne : a ≠ a' := fun he => heq ⟨rfl, he⟩
        rw [Function.update_self, List.countP_cons_of_neg (by simpa [page] using hne)]
      · rw [Function.update_of_ne hj]
  · intro j
    by_cases hj : j = i
    · subst hj
      simp only [Heap.setDesc, Function.update_self, hd]
      rw [counts.free j, size, List.length_cons, Nat.succ_mul]
    · simpa [Heap.setDesc, hj] using counts.free j
  · intro j
    by_cases hj : j = i
    · subst hj
      simp only [Heap.setDesc, Function.update_self, hd]
      rw [counts.allocated j, ht.length_eq, size, List.length_cons, Nat.succ_mul]
      omega
    · simpa [Heap.setDesc, hj] using counts.allocated j
  · intro x hx
    have kept : m₁ x = m x := by
      by_contra hne
      exact hc.cell_not_protected ht (change x hne) hx
    rw [← kept]
    by_contra hne
    refine pushed.count_not_protected ha' (setFreeCnt_change hne) ?_
    refine hx.imp id (Or.imp id ?_)
    rintro ⟨j, a', haj, hxa⟩
    exact ⟨j, a', (arenas j).symm ▸ haj, hxa⟩

end Descriptor

end Tacos.Mem
