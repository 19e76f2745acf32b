/- GID: Tacos/Mem/Canonical
   generality: I
   source: src/mem/palloc.rs
   digest: The free lists of the page allocator are the largest aligned blocks of the free pages,
     so a request fails only when no such block is large enough. -/

import Tacos.Lib.Dyadic
import Tacos.Mem.Buddy
import Mathlib.Data.Nat.Log

set_option autoImplicit false
set_option relaxedAutoImplicit false

namespace Tacos.Mem

open Tacos.Lib.Bytes Tacos.Lib.Cover Tacos.Lib.Dyadic
open Tacos.Lib.Run (run run_cons run_append run_invariant)

namespace Pool

/-- The blocks on the free list of an order. -/
def freeSet (s : Pool) (k : Nat) : Set Nat :=
  {p | ∃ ns, (s.buddy.freeLists k).Spells s.mem ns ∧ p ∈ ns}

/-- The addresses of the range that no outstanding block has. -/
def freePages (lo hi : Nat) (s : Pool) : Set Nat :=
  {a | (lo ≤ a ∧ a < hi) ∧ ∀ r ∈ s.live, a ∉ (blockOf r).span}

/-- Every free list is a proper list, without repetitions, of the largest naturally aligned blocks
of at most `2 ^ maxOrder` pages that are free. -/
def Canonical (lo hi : Nat) (s : Pool) : Prop :=
  ∀ k ≤ maxOrder, ∃ ns, (s.buddy.freeLists k).Spells s.mem ns ∧ ns.Nodup ∧
    ∀ p, p ∈ ns ↔ Maximal pgShift (maxOrder + pgShift) (s.freePages lo hi) (k + pgShift) p

/-- The invariant of the allocator's histories, and that all buddies are merged. -/
structure Coalesced (lo hi : Nat) (s : Pool) : Prop where
  inv : s.Inv lo hi
  merged : ∃ free, Holds lo hi s.buddy s.mem free (s.live.map blockOf) ∧ Merged free

end Pool

section Cut

variable {lo hi : Nat} {s s' : Pool} {free : Nat → List Nat}

/-- The blocks of the free lists by the number of their bytes. -/
def pieces (free : Nat → List Nat) (j : Nat) : Set Nat := {p | ∃ k, j = k + pgShift ∧ p ∈ free k}

theorem mem_pieces {k p : Nat} : p ∈ pieces free (k + pgShift) ↔ p ∈ free k := by
  constructor
  · rintro ⟨j, same, hp⟩
    rwa [show k = j by omega]
  · exact fun hp => ⟨k, rfl, hp⟩

theorem mem_span_iff (k p a : Nat) : a ∈ Block.span ⟨p, k⟩ ↔ a ∈ block (k + pgShift) p := by
  rw [mem_span, mem_block, Block.span, pgSize, ← pow_add]

theorem Holds.cuts (h : Holds lo hi s.buddy s.mem free (s.live.map Pool.blockOf))
    (merged : Merged free) :
    Cuts pgShift (maxOrder + pgShift) (pieces free) (s.freePages lo hi) := by
  refine ⟨?_, ?_, ?_, ?_, ?_⟩
  · rintro j p ⟨k, rfl, hp⟩
    have order := (mem_blocks.mp (h.mem hp)).1
    simp only at order
    omega
  · rintro j p ⟨k, rfl, hp⟩
    exact h.aligned ⟨p, k⟩ (List.mem_append_left _ (h.mem hp))
  · intro a
    constructor
    · rintro ⟨inside, elsewhere⟩
      obtain ⟨t, ht, ha⟩ := h.tiles.mem_iff.mpr inside
      obtain ⟨blk, hblk, rfl⟩ := List.mem_map.mp ht
      rcases List.mem_append.mp hblk with hfree | hout
      · exact ⟨_, blk.addr, ⟨blk.order, rfl, (mem_blocks.mp hfree).2⟩, (mem_span_iff _ _ a).mp ha⟩
      · obtain ⟨r, hr, rfl⟩ := List.mem_map.mp hout
        exact absurd ha (elsewhere r hr)
    · rintro ⟨j, p, ⟨k, rfl, hp⟩, ha⟩
      have held := (mem_span_iff k p a).mpr ha
      refine ⟨h.tiles.mem_iff.mp ⟨_, List.mem_map_of_mem (List.mem_append_left _ (h.mem hp)), held⟩,
        ?_⟩
      intro r hr hout
      exact h.apart_free (List.mem_map_of_mem hr) (h.mem hp) a hout held
  · rintro j p ⟨k, rfl, hp⟩ j' q ⟨k', rfl, hq⟩ a ha ha'
    by_contra differ
    have blocks_differ : (⟨p, k⟩ : Block) ≠ ⟨q, k'⟩ := by
      intro same
      cases same
      exact differ ⟨rfl, rfl⟩
    exact h.free_apart (h.mem hp) (h.mem hq) blocks_differ a ((mem_span_iff k p a).mpr ha)
      ((mem_span_iff k' q a).mpr ha')
  · rintro j hj p ⟨k, rfl, hp⟩ even hbuddy
    have below : k < maxOrder := by omega
    rcases buddy_cases (dvd_trans (pow_dvd_pow 2 (Nat.le_succ _)) even) with ⟨-, flip⟩ |
      ⟨q, rfl, odd, -⟩
    · exact merged k below p hp (flip ▸ mem_pieces.mp hbuddy)
    · have divides := (Nat.dvd_add_right odd).mp even
      have small : 2 ^ (k + pgShift) < 2 ^ (k + pgShift + 1) :=
        Nat.pow_lt_pow_right (by decide) (Nat.lt_succ_self _)
      exact absurd (Nat.le_of_dvd (Nat.two_pow_pos _) divides) (by omega)

theorem Pool.Coalesced.canonical (h : s.Coalesced lo hi) : s.Canonical lo hi := by
  obtain ⟨free, holds, merged⟩ := h.merged
  intro k _
  refine ⟨free k, holds.spells k, (holds.spells k).nodup, ?_⟩
  intro p
  rw [← (holds.cuts merged).mem_iff, mem_pieces]

theorem Pool.Canonical.mem_freeSet (h : s.Canonical lo hi) {k : Nat} (hk : k ≤ maxOrder) (p : Nat) :
    p ∈ s.freeSet k ↔ Maximal pgShift (maxOrder + pgShift) (s.freePages lo hi) (k + pgShift) p := by
  obtain ⟨ns, spells, -, maximal⟩ := h k hk
  rw [← maximal]
  constructor
  · rintro ⟨ns', spells', hp⟩
    rwa [spells.unique spells']
  · exact fun hp => ⟨ns, spells, hp⟩

theorem Pool.Canonical.freeSet_eq (h : s.Canonical lo hi) (h' : s'.Canonical lo hi)
    (same : s.freePages lo hi = s'.freePages lo hi) {k : Nat} (hk : k ≤ maxOrder) :
    s.freeSet k = s'.freeSet k := by
  ext p
  rw [h.mem_freeSet hk, h'.mem_freeSet hk, same]

theorem freePages_perm (same : s.live.Perm s'.live) : s.freePages lo hi = s'.freePages lo hi := by
  ext a
  constructor
  · exact fun ha => ⟨ha.1, fun r hr => ha.2 r (same.mem_iff.mpr hr)⟩
  · exact fun ha => ⟨ha.1, fun r hr => ha.2 r (same.mem_iff.mp hr)⟩

end Cut

namespace Pool

variable {lo hi : Nat} {s t t' : Pool}

/-- The step lemma: no operation leaves two free buddies. -/
theorem step_coalesced {op : PoolOp} (h : s.Coalesced lo hi) (hs : s.step op = some t) :
    t.Coalesced lo hi := by
  refine ⟨step_inv h.inv hs, ?_⟩
  obtain ⟨free, holds, merged⟩ := h.merged
  cases op with
  | alloc n =>
    have hn : n ≤ 2 ^ maxOrder := by
      by_contra hbig
      simp [step, BuddyAllocator.alloc, Nat.lt_of_not_le hbig] at hs
    rcases alloc_spec holds hn with ⟨fails, -⟩ | ⟨p, b, m, free', alloc, holds', -, -, -, merged'⟩
    · simp [step, fails] at hs
    · simp only [step, alloc, Option.some.injEq] at hs
      subst hs
      exact ⟨free', holds', merged' merged⟩
  | dealloc p n =>
    by_cases hr : (p, n) ∈ s.live
    · have moved := (List.perm_cons_erase hr).map blockOf
      have enough : 2 ^ orderOf n ≤ s.buddy.allocated := by
        rw [h.inv.allocated_of_mem hr]
        exact Nat.le_add_right ..
      obtain ⟨b, m, free', dealloc, holds', -, -, -, merged'⟩ :=
        dealloc_spec (holds.perm moved) enough
      simp only [step, if_pos hr, dealloc, Option.some.injEq] at hs
      subst hs
      exact ⟨free', holds', merged' merged⟩
    · simp [step, hr] at hs
  | write a v =>
    by_cases hw : ∃ r ∈ s.live, a ∈ (blockOf r).span
    · simp only [step, if_pos hw, Option.some.injEq] at hs
      subst hs
      refine ⟨free, holds.scribble fun x hx => ?_, merged⟩
      obtain ⟨r, hr, ha⟩ := hw
      have hxa : x = a := by
        by_contra hne
        exact hx (Function.update_of_ne hne _ _)
      exact ⟨blockOf r, List.mem_map_of_mem hr, hxa ▸ ha⟩
    · simp [step, hw] at hs

/-- Giving back blocks takes them off the outstanding ones, in whatever order. -/
theorem live_deallocs {rs : List (Nat × Nat)}
    (ran : run step s (rs.map fun r => .dealloc r.1 r.2) = some t) :
    s.live.Perm (rs ++ t.live) := by
  induction rs generalizing s with
  | nil =>
    cases ran
    exact .refl _
  | cons r rs ih =>
    obtain ⟨u, stepped, rest⟩ := run_cons.mp ran
    rw [step] at stepped
    split at stepped
    · rename_i hr
      split at stepped
      · cases stepped
        exact (List.perm_cons_erase hr).trans ((ih rest).cons _)
      · cases stepped
    · cases stepped

end Pool

/-- Every history from `insert_range` on is coalesced. -/
theorem insertRange_coalesced (m : Mem) {start stop : Nat} (pos : 0 < start) (fits : stop < 2 ^ 64)
    (ordered : roundUp start pgSize ≤ roundDown stop pgSize) :
    ∃ b m', BuddyAllocator.empty.insertRange m start stop = .ok (b, m') ∧
      ∀ ops s, run Pool.step ⟨m', b, []⟩ ops = some s →
        s.Coalesced (roundUp start pgSize) (roundDown stop pgSize) := by
  obtain ⟨b, m', free, insert, holds, total, allocated, merged⟩ :=
    insertRange_spec m pos fits ordered
  refine ⟨b, m', insert, fun ops s ran => ?_⟩
  have first : Pool.Coalesced (roundUp start pgSize) (roundDown stop pgSize) ⟨m', b, []⟩ :=
    ⟨⟨⟨free, holds⟩, by simp, allocated, total⟩, free, holds, merged⟩
  exact run_invariant (fun _ _ _ => Pool.step_coalesced) first ran

/-- After `insert_range` and any history the free lists are the largest aligned blocks of the free
pages. So the order in which outstanding blocks come back makes no difference to them, and with all
blocks back they are what they were. -/
theorem coalescing_canonical (m : Mem) (start stop : Nat) (pos : 0 < start) (fits : stop < 2 ^ 64)
    (ordered : roundUp start pgSize ≤ roundDown stop pgSize) :
    ∃ b m', BuddyAllocator.empty.insertRange m start stop = .ok (b, m') ∧
      (∀ ops s, run Pool.step ⟨m', b, []⟩ ops = some s →
        s.Canonical (roundUp start pgSize) (roundDown stop pgSize)) ∧
      (∀ ops s, run Pool.step ⟨m', b, []⟩ ops = some s →
        ∀ rs rs' : List (Nat × Nat), rs.Perm rs' → ∀ t t',
        run Pool.step s (rs.map fun r => .dealloc r.1 r.2) = some t →
        run Pool.step s (rs'.map fun r => .dealloc r.1 r.2) = some t' →
          ∀ k ≤ maxOrder, t.freeSet k = t'.freeSet k) ∧
      ∀ ops s, run Pool.step ⟨m', b, []⟩ ops = some s → s.live = [] →
        ∀ k ≤ maxOrder, s.freeSet k = Pool.freeSet ⟨m', b, []⟩ k := by
  obtain ⟨b, m', insert, keeps⟩ := insertRange_coalesced m pos fits ordered
  refine ⟨b, m', insert, ?_, ?_, ?_⟩
  · intro ops s ran
    exact (keeps ops s ran).canonical
  · intro ops s ran rs rs' same t t' back back' k hk
    have left := (keeps _ t (run_append.mpr ⟨s, ran, back⟩)).canonical
    have right := (keeps _ t' (run_append.mpr ⟨s, ran, back'⟩)).canonical
    have live : t.live.Perm t'.live := by
      have moved := (Pool.live_deallocs back).symm.trans (Pool.live_deallocs back')
      exact (List.perm_append_left_iff rs).mp (moved.trans (same.symm.append_right _))
    exact left.freeSet_eq right (freePages_perm live) hk
  · intro ops s ran none k hk
    have first := (keeps [] ⟨m', b, []⟩ rfl).canonical
    exact (keeps ops s ran).canonical.freeSet_eq first (freePages_perm (by rw [none])) hk

/-- Two neighbours split from one block come back in either order. -/
theorem neighbours_coalesce : ∃ b m' s t t',
    BuddyAllocator.empty.insertRange (fun _ => 0) 5000 40000 = .ok (b, m') ∧
      run Pool.step ⟨m', b, []⟩ [.alloc 2, .alloc 1, .alloc 1] = some s ∧
      run Pool.step s [.dealloc 8192 2, .dealloc 32768 1] = some t ∧
      run Pool.step s [.dealloc 32768 1, .dealloc 8192 2] = some t' ∧
      s.Canonical 8192 36864 ∧ ∀ k ≤ maxOrder, t.freeSet k = t'.freeSet k := by
  obtain ⟨b, m', insert, canonical, orders, -⟩ :=
    coalescing_canonical (fun _ => 0) 5000 40000 (by decide)
    (by decide) (by decide)
  have ran : ((BuddyAllocator.empty.insertRange (fun _ => 0) 5000 40000).toOption.any fun r =>
      (run Pool.step ⟨r.2, r.1, []⟩ [.alloc 2, .alloc 1, .alloc 1]).any fun s =>
        (run Pool.step s [.dealloc 8192 2, .dealloc 32768 1]).isSome &&
          (run Pool.step s [.dealloc 32768 1, .dealloc 8192 2]).isSome) = true := by
    decide +kernel
  rw [insert, Except.toOption, Option.any_some, Option.any_eq_true] at ran
  obtain ⟨s, hs, both⟩ := ran
  rw [Bool.and_eq_true, Option.isSome_iff_exists, Option.isSome_iff_exists] at both
  obtain ⟨⟨t, ht⟩, t', ht'⟩ := both
  refine ⟨b, m', s, t, t', insert, hs, ht, ht', canonical _ s hs, ?_⟩
  exact orders _ s hs [(8192, 2), (32768, 1)] [(32768, 1), (8192, 2)] (.swap _ _ _) t t' ht ht'

theorem orderOf_eq_clog {n : Nat} (hn : n ≤ 2 ^ maxOrder) : orderOf n = Nat.clog 2 n := by
  rw [orderOf_eq hn]
  refine le_antisymm ?_ ?_
  · exact (nextPowerShift_le_iff n _).mpr (Nat.le_pow_clog (by decide) n)
  · exact (Nat.clog_le_iff_le_pow (by decide)).mpr ((nextPowerShift_le_iff n _).mp le_rfl)

/-- A request is refused when the free pages have no aligned run of its order, and only then. -/
theorem Pool.Coalesced.exhausted_iff {lo hi n : Nat} {s : Pool} (h : s.Coalesced lo hi)
    (hn : n ≤ 2 ^ maxOrder) :
    s.buddy.alloc s.mem n = .error .exhausted ↔
      ¬∃ p, 2 ^ (orderOf n + pgShift) ∣ p ∧ block (orderOf n + pgShift) p ⊆ s.freePages lo hi := by
  obtain ⟨free, holds, merged⟩ := h.merged
  have cuts := holds.cuts merged
  have hle := orderOf_le hn
  rcases alloc_spec holds hn with ⟨fails, empty⟩ | ⟨p, b, m, free', alloc, holds', -⟩
  · refine iff_of_true fails ?_
    rintro ⟨p, aligned, inside⟩
    obtain ⟨j, q, ⟨k, rfl, hq⟩, larger, -⟩ :=
      cuts.exists_superset (Nat.le_add_left _ _) (by omega) aligned inside
    rw [empty k (by omega)] at hq
    cases hq
  · refine iff_of_false (by simp [alloc]) (not_not_intro ⟨p, ?_, ?_⟩)
    · exact holds'.aligned ⟨p, orderOf n⟩ (by simp)
    · -- the block that is handed out was free
      intro a ha
      have held := (mem_span_iff (orderOf n) p a).mpr ha
      have whole : (⟨p, orderOf n⟩ : Block) ∈ ⟨p, orderOf n⟩ :: s.live.map blockOf :=
        List.mem_cons_self
      refine ⟨holds'.tiles.mem_iff.mp ⟨_, List.mem_map_of_mem
        (List.mem_append_right _ whole), held⟩, ?_⟩
      intro r hr hout
      exact (List.pairwise_cons.mp holds'.out_pairwise).1 _ (List.mem_map_of_mem hr) a held hout

/-- In every history the allocator gives up on a request of `n` pages exactly when the range has no
run of `2 ^ ⌈log₂ n⌉` free pages that is aligned to its size. -/
theorem exhausted_only_when_full (m : Mem) (start stop : Nat)
    (pos : 0 < start) (fits : stop < 2 ^ 64)
    (ordered : roundUp start pgSize ≤ roundDown stop pgSize) :
    ∃ b m', BuddyAllocator.empty.insertRange m start stop = .ok (b, m') ∧
      ∀ ops s, run Pool.step ⟨m', b, []⟩ ops = some s → ∀ n, 1 ≤ n → n ≤ 256 →
        (s.buddy.alloc s.mem n = .error .exhausted ↔
          ¬∃ p, 2 ^ (Nat.clog 2 n + pgShift) ∣ p ∧
            block (Nat.clog 2 n + pgShift) p ⊆
              s.freePages (roundUp start pgSize) (roundDown stop pgSize)) := by
  obtain ⟨b, m', insert, keeps⟩ := insertRange_coalesced m pos fits ordered
  refine ⟨b, m', insert, ?_⟩
  intro ops s ran n _ hn
  rw [← orderOf_eq_clog hn]
  exact (keeps ops s ran).exhausted_iff hn

/-- Seven pages with one block of four: a second request for four pages fails. -/
theorem four_of_seven_pages : ∃ b m' s,
    BuddyAllocator.empty.insertRange (fun _ => 0) 5000 40000 = .ok (b, m') ∧
      run Pool.step ⟨m', b, []⟩ [.alloc 3] = some s ∧
      s.buddy.alloc s.mem 4 = .error .exhausted ∧
      ¬∃ p, 2 ^ (Nat.clog 2 4 + pgShift) ∣ p ∧
        block (Nat.clog 2 4 + pgShift) p ⊆ s.freePages 8192 36864 := by
  obtain ⟨b, m', insert, exact⟩ := exhausted_only_when_full (fun _ => 0) 5000 40000 (by decide)
    (by decide) (by decide)
  have ran : ((BuddyAllocator.empty.insertRange (fun _ => 0) 5000 40000).toOption.any fun r =>
      (run Pool.step ⟨r.2, r.1, []⟩ [.alloc 3]).any fun s =>
        decide ((s.buddy.alloc s.mem 4).map Prod.fst = .error .exhausted)) = true := by
    decide +kernel
  rw [insert, Except.toOption, Option.any_some, Option.any_eq_true] at ran
  obtain ⟨s, hs, failed⟩ := ran
  have fails : s.buddy.alloc s.mem 4 = .error .exhausted := by
    cases done : s.buddy.alloc s.mem 4 with
    | ok r =>
      rw [done] at failed
      cases of_decide_eq_true failed
    | error e =>
      rw [done] at failed
      cases of_decide_eq_true failed
      rfl
  exact ⟨b, m', s, insert, hs, fails, (exact _ s hs 4 (by decide) (by decide)).mp fails⟩

end Tacos.Mem
