/- GID: Tacos/Mem/Buddy
   generality: I
   source: src/mem/palloc.rs
   digest: Every history of the page allocator keeps its range partitioned into aligned blocks. -/

import Tacos.Lib.Run
import Tacos.Mem.Palloc
import Mathlib.Data.Finset.Card
import Mathlib.Algebra.BigOperators.Group.List.Basic

set_option autoImplicit false
set_option relaxedAutoImplicit false

namespace Tacos.Mem

open Tacos.Lib.Bytes Tacos.Lib.Cover
open Tacos.Lib.Run (run run_invariant)

def SameCounters (b b' : BuddyAllocator) : Prop :=
  b'.total = b.total ∧ b'.allocated = b.allocated

/-- No free block that can be merged has its buddy on the same list. -/
def Merged (free : Nat → List Nat) : Prop :=
  ∀ k < maxOrder, ∀ p ∈ free k, p ^^^ 2 ^ (k + pgShift) ∉ free k

namespace Merged

variable {free : Nat → List Nat} {k p : Nat} {l : List Nat}

theorem update (h : Merged free) (own : k < maxOrder → ∀ p ∈ l, p ^^^ 2 ^ (k + pgShift) ∉ l) :
    Merged (Function.update free k l) := by
  intro j hj q hq
  by_cases same : j = k
  · subst same
    rw [Function.update_self] at hq ⊢
    exact own hj q hq
  · rw [Function.update_of_ne same] at hq ⊢
    exact h j hj q hq

theorem subset (h : Merged free) (sub : l ⊆ free k) : Merged (Function.update free k l) :=
  h.update fun hk p hp hq => h k hk p (sub hp) (sub hq)

theorem cons (h : Merged (Function.update free k l)) (cons : free k = p :: l)
    (alone : k < maxOrder → p ^^^ 2 ^ (k + pgShift) ∉ free k) : Merged free := by
  have back : Function.update (Function.update free k l) k (p :: l) = free := by
    rw [Function.update_idem, ← cons, Function.update_eq_self]
  rw [← back]
  refine h.update ?_
  intro hk q hq hbuddy
  have rest := h k hk
  rw [Function.update_self] at rest
  rw [← cons] at hq hbuddy
  have flip : (q ^^^ 2 ^ (k + pgShift)) ^^^ 2 ^ (k + pgShift) = q := by
    rw [Nat.xor_assoc, Nat.xor_self, Nat.xor_zero]
  have other : ∀ r ∈ free k, r = p ∨ r ∈ l := fun r hr => List.mem_cons.mp (cons ▸ hr)
  rcases other _ hq with rfl | inside
  · exact alone hk hbuddy
  · rcases other _ hbuddy with first | inside'
    · rw [← first, flip] at alone
      exact alone hk hq
    · exact rest q inside inside'

end Merged

section Operations

variable {lo hi : Nat} {b : BuddyAllocator} {m : Mem} {free : Nat → List Nat} {out : List Block}

/-- Pushing a block that is elsewhere leaves all other blocks elsewhere alone. -/
private theorem give_keeps {k p : Nat} (h : Holds lo hi b m free (⟨p, k⟩ :: out)) :
    Keeps m (b.pushFree m k p).2 out := by
  intro blk hblk x hx
  have apart := (List.pairwise_cons.mp h.out_pairwise).1 blk hblk
  exact h.give.2 x fun hx' => apart x hx' hx

private theorem splitOne_spec {j p : Nat} {ns : List Nat} (h : Holds lo hi b m free out)
    (hcons : free (j + 1) = p :: ns) :
    Holds lo hi (b.splitOne m j).1 (b.splitOne m j).2
        (Function.update (Function.update free (j + 1) ns) j
          (p :: (p + 2 ^ j * pgSize) :: free j)) out ∧
      SameCounters b (b.splitOne m j).1 ∧ Keeps m (b.splitOne m j).2 out := by
  obtain ⟨b', pop, total, allocated, taken⟩ := h.take hcons
  have halves := taken.split.perm (.swap _ _ _)
  have first := halves.give.1
  have second := first.give.1
  refine ⟨?_, ?_, ?_⟩
  · simpa [BuddyAllocator.splitOne, pop] using second
  · simp only [BuddyAllocator.splitOne, pop]
    exact ⟨total, allocated⟩
  · simp only [BuddyAllocator.splitOne, pop]
    exact ((give_keeps halves).mono (List.subset_cons_self _ _)).trans (give_keeps first)

/-- The first half of every block that is split goes on to the next order, the second one stays. -/
private theorem splitLoop_spec {order count p : Nat} {ns : List Nat} (h : Holds lo hi b m free out)
    (hcons : free (order + count) = p :: ns)
    (empty : ∀ j, order ≤ j → j < order + count → free j = []) :
    ∃ free' q ns', Holds lo hi (b.splitLoop order count m).1
      (b.splitLoop order count m).2 free' out ∧
      free' order = q :: ns' ∧ SameCounters b (b.splitLoop order count m).1 ∧
      Keeps m (b.splitLoop order count m).2 out ∧
      (Merged (Function.update free (order + count) ns) →
        Merged (Function.update free' order ns')) := by
  induction count generalizing b m free p ns with
  | zero => exact ⟨free, p, ns, h, hcons, ⟨rfl, rfl⟩, fun _ _ _ _ => rfl, fun merged => merged⟩
  | succ count ih =>
    obtain ⟨h₁, counters₁, keeps₁⟩ := splitOne_spec (j := order + count) h hcons
    rw [empty _ (Nat.le_add_right _ _) (Nat.lt_succ_self _)] at h₁
    have empty₁ : ∀ j, order ≤ j → j < order + count →
      Function.update (Function.update free (order + (count + 1)) ns)
        (order + count) [p, p + 2 ^ (order + count) * pgSize] j = [] := by
      intro j low high
      rw [Function.update_of_ne (by omega), Function.update_of_ne (by omega)]
      exact empty j low (by omega)
    obtain ⟨free₂, q, ns₂, h₂, hcons₂, counters₂, keeps₂, merged₂⟩ :=
      ih h₁ (Function.update_self ..) empty₁
    refine ⟨free₂, q, ns₂, h₂, hcons₂, ⟨?_, ?_⟩, keeps₁.trans keeps₂, ?_⟩
    · exact counters₂.1.trans counters₁.1
    · exact counters₂.2.trans counters₁.2
    · intro merged
      refine merged₂ ?_
      rw [Function.update_idem]
      refine merged.update ?_
      intro _ r hr hbuddy
      rw [List.mem_singleton] at hr hbuddy
      have bit := congrArg (fun n => n.testBit (order + count + pgShift)) (hbuddy.trans hr.symm)
      simp [Nat.testBit_xor, Nat.testBit_two_pow_self] at bit

theorem orderOf_eq {n : Nat} (hn : n ≤ 2 ^ maxOrder) : orderOf n = nextPowerShift n :=
  trailingZeros_nextPowerOfTwo (hn.trans (by decide))

theorem orderOf_le {n : Nat} (hn : n ≤ 2 ^ maxOrder) : orderOf n ≤ maxOrder := by
  rw [orderOf_eq hn]
  exact (nextPowerShift_le_iff n maxOrder).mpr hn

theorem le_two_pow_orderOf {n : Nat} (hn : n ≤ 2 ^ maxOrder) : n ≤ 2 ^ orderOf n := by
  rw [orderOf_eq hn]
  exact (nextPowerShift_le_iff n _).mp le_rfl

/-- `alloc` hands out a block of the request's order, or all lists from there on are empty. -/
theorem alloc_spec {n : Nat} (h : Holds lo hi b m free out) (hn : n ≤ 2 ^ maxOrder) :
    (b.alloc m n = .error .exhausted ∧ ∀ i, orderOf n ≤ i → free i = []) ∨
    ∃ p b' m' free', b.alloc m n = .ok (p, b', m') ∧
      Holds lo hi b' m' free' (⟨p, orderOf n⟩ :: out) ∧ Keeps m m' out ∧
      b'.total = b.total ∧ b'.allocated = b.allocated + 2 ^ orderOf n ∧
        (Merged free → Merged free') := by
  have fits : ¬ 2 ^ maxOrder < n := by omega
  have hle := orderOf_le hn
  cases hfind : (List.range' (orderOf n) (maxOrder + 1 - orderOf n)).find? fun i =>
      !(b.freeLists i).isEmpty with
  | none =>
    refine .inl ⟨by simp [BuddyAllocator.alloc, fits, hfind], fun i hi => ?_⟩
    by_cases hbig : maxOrder < i
    · exact h.above i hbig
    · have empty := List.find?_eq_none.mp hfind i (by simp [List.mem_range'_1]; omega)
      exact (h.spells i).isEmpty_iff.mp (by simpa using empty)
  | some i =>
    right
    have hrange := List.mem_range'_1.mp (List.mem_of_find?_eq_some hfind)
    have nonempty := List.find?_some hfind
    have hf : free (orderOf n + (i - orderOf n)) ≠ [] := by
      rw [Nat.add_sub_cancel' hrange.1]
      intro hnil
      simp [(h.spells i).isEmpty_iff.mpr hnil] at nonempty
    obtain ⟨p₀, ns₀, hcons₀⟩ := List.exists_cons_of_ne_nil hf
    have empty : ∀ j, orderOf n ≤ j → j < orderOf n + (i - orderOf n) → free j = [] := by
      intro j low high
      obtain ⟨-, before, after, split, none⟩ := List.find?_eq_some_iff_append.mp hfind
      have earlier : j ∈ before := by
        have hmem : j ∈ List.range' (orderOf n) (maxOrder + 1 - orderOf n) := by
          rw [List.mem_range'_1]
          omega
        have sorted : (List.range' (orderOf n) (maxOrder + 1 - orderOf n)).Pairwise (· < ·) :=
          List.pairwise_lt_range' 1 (by decide)
        rw [split] at hmem sorted
        rcases List.mem_append.mp hmem with inside | inside
        · exact inside
        · rcases List.mem_cons.mp inside with rfl | later
          · omega
          · have := (List.pairwise_cons.mp (List.pairwise_append.mp sorted).2.1).1 j later
            omega
      exact (h.spells j).isEmpty_iff.mp (by simpa using none j earlier)
    obtain ⟨free₁, p, ns, h₁, hcons, ⟨total, allocated⟩, keeps, merged⟩ :=
      splitLoop_spec h hcons₀ empty
    have h₂ : Holds lo hi { (b.splitLoop (orderOf n) (i - orderOf n) m).1 with
        allocated := (b.splitLoop (orderOf n) (i - orderOf n) m).1.allocated + 2 ^ orderOf n }
        (b.splitLoop (orderOf n) (i - orderOf n) m).2 free₁ out :=
      ⟨h₁.pos, h₁.fits, h₁.spells, h₁.above, h₁.tiles, h₁.order_le, h₁.aligned⟩
    obtain ⟨b', pop, total', allocated', taken⟩ := h₂.take hcons
    refine ⟨p, b', _, _, ?_, taken, keeps, total'.trans total, ?_, ?_⟩
    · simp [BuddyAllocator.alloc, fits, hfind, pop]
    · rw [allocated', allocated]
    · intro whole
      refine merged (whole.subset ?_)
      rw [hcons₀]
      exact List.subset_cons_self _ _

/-- Flipping the bit of a block's size leads to the other half of the next larger block. -/
theorem buddy_cases {p s : Nat} (hp : 2 ^ s ∣ p) :
    (2 ^ (s + 1) ∣ p ∧ p ^^^ 2 ^ s = p + 2 ^ s) ∨
    ∃ q, p = q + 2 ^ s ∧ 2 ^ (s + 1) ∣ q ∧ p ^^^ 2 ^ s = q := by
  obtain ⟨c, rfl⟩ := hp
  have flip : (2 ^ s * c) ^^^ 2 ^ s = 2 ^ s * (c ^^^ 1) := by
    have one : 2 ^ s = 2 ^ s * 1 := (mul_one _).symm
    nth_rewrite 2 [one]
    simp only [mul_comm (2 ^ s), ← Nat.shiftLeft_eq, Nat.shiftLeft_xor_distrib]
  rcases Nat.even_or_odd c with even | odd
  · left
    obtain ⟨d, rfl⟩ := even.two_dvd
    refine ⟨⟨d, by ring⟩, ?_⟩
    rw [flip, Nat.xor_one_of_even even]
    ring
  · right
    obtain ⟨d, rfl⟩ := odd
    refine ⟨2 ^ s * (2 * d), by ring, ⟨d, by ring⟩, ?_⟩
    rw [flip, Nat.xor_one_of_odd (by simp)]
    rfl

theorem nodes_length (h : Holds lo hi b m free out) (k : Nat) :
    (free k).length < 2 ^ 64 + 1 := by
  have sub : (free k).toFinset ⊆ Finset.range (2 ^ 64) := by
    intro p hp
    exact Finset.mem_range.mpr (h.node_lt (List.mem_toFinset.mp hp))
  have card := Finset.card_le_card sub
  rw [Finset.card_range, List.toFinset_card_of_nodup (h.spells k).nodup] at card
  omega

private theorem buddy_ne {p s : Nat} (hp : 2 ^ s ∣ p) : p ^^^ 2 ^ s ≠ p := by
  have pos : 0 < 2 ^ s := Nat.two_pow_pos s
  rcases buddy_cases hp with ⟨-, flip⟩ | ⟨q, hq, -, flip⟩ <;> omega

private theorem coalesce {k p : Nat}
    (h : Holds lo hi b m free (⟨p, k⟩ :: ⟨p ^^^ 2 ^ (k + pgShift), k⟩ :: out))
    (hk : k < maxOrder) :
    Holds lo hi b m free (⟨min p (p ^^^ 2 ^ (k + pgShift)), k + 1⟩ :: out) := by
  have hp : 2 ^ (k + pgShift) ∣ p := h.aligned ⟨p, k⟩ (by simp)
  have size : 2 ^ k * pgSize = 2 ^ (k + pgShift) := by rw [pgSize, pow_add]
  have shift : k + 1 + pgShift = k + pgShift + 1 := by omega
  rcases buddy_cases hp with ⟨even, flip⟩ | ⟨q, hq, odd, flip⟩
  · rw [flip] at h ⊢
    rw [min_eq_left (Nat.le_add_right _ _)]
    exact (size ▸ h).merge hk (shift ▸ even)
  · have halves := h.perm (.swap _ _ _)
    rw [flip] at halves ⊢
    rw [hq] at halves ⊢
    rw [min_eq_right (Nat.le_add_right _ _)]
    exact (size ▸ halves).merge hk (shift ▸ odd)

private theorem mergeLoop_spec {steps k p : Nat} {ns : List Nat} (h : Holds lo hi b m free out)
    (hk : k + steps = maxOrder) (hf : free k = p :: ns) :
    ∃ b' m' free', BuddyAllocator.mergeLoop steps p k b m = .ok (b', m') ∧ SameCounters b b' ∧
      Holds lo hi b' m' free' out ∧ Keeps m m' out ∧
        (Merged (Function.update free k ns) → Merged free') := by
  induction steps generalizing k p b m free ns with
  | zero =>
    refine ⟨b, m, free, rfl, ⟨rfl, rfl⟩, h, fun _ _ _ _ => rfl, fun merged => merged.cons hf ?_⟩
    intro below
    omega
  | succ steps ih =>
    rcases (h.spells k).find (nodes_length h k) (p ^^^ 2 ^ (k + pgShift)) with
      ⟨alone, found⟩ | ⟨l₁, l₂, hl, found⟩
    · refine ⟨b, m, free, ?_, ⟨rfl, rfl⟩, h, fun _ _ _ _ => rfl,
        fun merged => merged.cons hf fun _ => alone⟩
      simp only [BuddyAllocator.mergeLoop, found]
    · -- the block itself is at the head, so its buddy is further down
      have hp : 2 ^ (k + pgShift) ∣ p :=
        h.aligned ⟨p, k⟩ (List.mem_append_left _ (h.mem (by simp [hf])))
      obtain ⟨l₁, rfl⟩ : ∃ l, l₁ = p :: l := by
        rw [hf] at hl
        cases l₁ with
        | nil => exact (buddy_ne hp (List.cons.inj hl).1.symm).elim
        | cons q l₁ => exact ⟨l₁, by rw [(List.cons.inj hl).1]⟩
      obtain ⟨unlinked, keeps₁⟩ := h.unlink hl
      have head : Function.update free k (p :: l₁ ++ l₂) k = p :: (l₁ ++ l₂) :=
        Function.update_self ..
      obtain ⟨b₁, pop, total₁, allocated₁, taken⟩ := unlinked.take head
      have h₁ := coalesce taken (by omega)
      obtain ⟨b₂, m₂, free₂, loop, ⟨total₂, allocated₂⟩, h₂, keeps₂, merged₂⟩ :=
        ih h₁.give.1 (by omega) (Function.update_self ..)
      refine ⟨b₂, m₂, free₂, ?_, ⟨total₂.trans total₁, allocated₂.trans allocated₁⟩, h₂,
        (keeps₁.trans (give_keeps h₁)).trans keeps₂, ?_⟩
      · simp only [BuddyAllocator.mergeLoop, found, pop]
        exact loop
      · intro merged
        refine merged₂ ?_
        -- both halves have left the list, and the merged block is not counted yet
        rw [Function.update_idem, Function.update_eq_self, Function.update_idem]
        have rest : ns = l₁ ++ (p ^^^ 2 ^ (k + pgShift)) :: l₂ := by
          rw [hf] at hl
          exact (List.cons.inj hl).2
        have smaller := merged.subset (k := k) (l := l₁ ++ l₂) (by
          rw [Function.update_self, rest]
          intro q hq
          simp only [List.mem_append, List.mem_cons] at hq ⊢
          tauto)
        rwa [Function.update_idem] at smaller

/-- `dealloc` takes back a block that is elsewhere. -/
theorem dealloc_spec {n p : Nat} (h : Holds lo hi b m free (⟨p, orderOf n⟩ :: out))
    (hb : 2 ^ orderOf n ≤ b.allocated) :
    ∃ b' m' free', b.dealloc m p n = .ok (b', m') ∧ Holds lo hi b' m' free' out ∧ Keeps m m' out ∧
      b'.total = b.total ∧ b'.allocated = b.allocated - 2 ^ orderOf n ∧
        (Merged free → Merged free') := by
  have hle : orderOf n ≤ maxOrder := h.order_le ⟨p, orderOf n⟩ (by simp)
  have steps : orderOf n + (maxOrder - orderOf n) = maxOrder := by omega
  obtain ⟨b₁, m₁, free₁, loop, ⟨total, allocated⟩, h₁, keeps, merged⟩ :=
    mergeLoop_spec h.give.1 steps (Function.update_self ..)
  have allocated : b₁.allocated = b.allocated := allocated
  refine ⟨{ b₁ with allocated := b₁.allocated - 2 ^ orderOf n }, m₁, free₁,
    ?_, ?_, ?_, total, ?_, ?_⟩
  · have hbig : ¬ maxOrder < orderOf n := by omega
    have henough : ¬ b₁.allocated < 2 ^ orderOf n := by omega
    simp [BuddyAllocator.dealloc, hbig, loop, henough]
  · exact ⟨h₁.pos, h₁.fits, h₁.spells, h₁.above, h₁.tiles, h₁.order_le, h₁.aligned⟩
  · exact (give_keeps h).trans keeps
  · rw [allocated]
  · intro whole
    refine merged ?_
    rwa [Function.update_idem, Function.update_eq_self]

private theorem extend {mid k : Nat} (h : Holds lo mid b m free out) (hk : k ≤ maxOrder)
    (hmid : 2 ^ (k + pgShift) ∣ mid) (hle : lo ≤ mid) (fits : mid + 2 ^ k * pgSize ≤ 2 ^ 64) :
    Holds lo (mid + 2 ^ k * pgSize) b m free (⟨mid, k⟩ :: out) := by
  refine ⟨h.pos, fits, h.spells, h.above, ?_, ?_, ?_⟩
  · have moved : (blocks free ++ ⟨mid, k⟩ :: out).Perm (⟨mid, k⟩ :: (blocks free ++ out)) :=
      List.perm_middle
    exact (h.tiles.extend hle).perm (moved.map Block.span).symm
  · intro blk hblk
    rcases List.mem_cons.mp (List.perm_middle.mem_iff.mp hblk) with rfl | hblk
    · exact hk
    · exact h.order_le blk hblk
  · intro blk hblk
    rcases List.mem_cons.mp (List.perm_middle.mem_iff.mp hblk) with rfl | hblk
    · exact hmid
    · exact h.aligned blk hblk

private theorem trailingZerosFrom_le (w n : Nat) : trailingZerosFrom w n ≤ w := by
  induction w generalizing n with
  | zero => exact le_rfl
  | succ w ih =>
    unfold trailingZerosFrom
    split_ifs
    · omega
    · have := ih (n / 2)
      omega

/-- The order that `insert_range` chooses fits the alignment and the rest of the range. -/
private theorem insertOrder_spec {cur stop : Nat} (hcur : 2 ^ pgShift ∣ cur)
    (hstop : 2 ^ pgShift ∣ stop) (hlt : cur < stop) :
    let size := min (2 ^ trailingZeros cur) (prevPowerOfTwo (stop - cur))
    let order := min (trailingZeros size - pgShift) maxOrder
    stop ≤ 2 ^ 64 → pgShift ≤ trailingZeros size ∧ 2 ^ (order + pgShift) ∣ cur ∧
      cur + 2 ^ order * pgSize ≤ stop ∧
      (order < maxOrder → 2 ^ (order + 1 + pgShift) ∣ cur →
        stop < cur + 2 ^ (order + 1) * pgSize) := by
  intro size order hfits
  have tz : trailingZeros cur ≤ 64 := trailingZerosFrom_le 64 cur
  have rest : stop - cur ≠ 0 := by omega
  have page : 2 ^ pgShift ≤ stop - cur := Nat.le_of_dvd (by omega) (Nat.dvd_sub hstop hcur)
  have low : pgShift ≤ trailingZeros cur := le_trailingZeros (by decide) hcur
  have high : pgShift ≤ Nat.log2 (stop - cur) := (Nat.le_log2 rest).mpr page
  have hsize : trailingZeros size = min (trailingZeros cur) (Nat.log2 (stop - cur)) := by
    have : size = 2 ^ min (trailingZeros cur) (Nat.log2 (stop - cur)) := by
      rcases le_total (trailingZeros cur) (Nat.log2 (stop - cur)) with hle | hle
      · rw [min_eq_left hle]
        exact min_eq_left (Nat.pow_le_pow_right (by omega) hle)
      · rw [min_eq_right hle]
        exact min_eq_right (Nat.pow_le_pow_right (by omega) hle)
    rw [this]
    exact trailingZeros_two_pow (by omega)
  have horder : order + pgShift ≤ trailingZeros cur ∧
      order + pgShift ≤ Nat.log2 (stop - cur) := by omega
  refine ⟨by omega, ?_, ?_, ?_⟩
  · exact dvd_trans (pow_dvd_pow 2 horder.1) (trailingZeros_dvd cur)
  · have bound : 2 ^ order * pgSize ≤ stop - cur := by
      rw [pgSize, ← pow_add]
      exact (Nat.pow_le_pow_right (by omega) horder.2).trans (Nat.log2_self_le rest)
    omega
  · intro small even
    have bits : order + 1 + pgShift ≤ 64 := by
      have : maxOrder + pgShift ≤ 64 := by decide
      omega
    have aligned := le_trailingZeros bits even
    have short : Nat.log2 (stop - cur) < order + 1 + pgShift := by omega
    have bound := (Nat.log2_lt rest).mp short
    rw [pgSize, ← pow_add]
    omega

/-- The first half of a larger block is on its own only where the range ends before the second. -/
private def Greedy (stop : Nat) (free : Nat → List Nat) : Prop :=
  ∀ k < maxOrder, ∀ p ∈ free k, 2 ^ (k + 1 + pgShift) ∣ p → stop < p + 2 ^ (k + 1) * pgSize

private theorem Greedy.merged {stop : Nat} (h : Holds lo stop b m free [])
    (greedy : Greedy stop free) :
    Merged free := by
  intro k hk p hp hbuddy
  have size : 2 ^ (k + 1) * pgSize = 2 ^ k * pgSize + 2 ^ k * pgSize := by ring
  have step : 2 ^ (k + pgShift) = 2 ^ k * pgSize := by rw [pgSize, pow_add]
  have shift : k + 1 + pgShift = k + pgShift + 1 := by omega
  have room : ∀ q ∈ free k, q + 2 ^ k * pgSize ≤ stop := by
    intro q hq
    have last : q + 2 ^ k * pgSize - 1 ∈ Block.span ⟨q, k⟩ := by
      have : 0 < 2 ^ k * pgSize := Nat.mul_pos (Nat.two_pow_pos k) (by decide)
      rw [mem_span, Block.span]
      simp only
      omega
    have inside := h.tiles.mem_iff.mp ⟨_, List.mem_map_of_mem
      (List.mem_append_left _ (h.mem hq)), last⟩
    omega
  have aligned : 2 ^ (k + pgShift) ∣ p := h.aligned ⟨p, k⟩ (List.mem_append_left _ (h.mem hp))
  rcases buddy_cases aligned with ⟨even, flip⟩ | ⟨q, odd, even, flip⟩
  · rw [flip] at hbuddy
    have := greedy k hk p hp (shift ▸ even)
    have := room _ hbuddy
    omega
  · rw [flip] at hbuddy
    have := greedy k hk q hbuddy (shift ▸ even)
    have := room _ hp
    omega

private theorem insertLoop_spec {cur stop fuel : Nat} (h : Holds lo cur b m free [])
    (greedy : Greedy stop free)
    (hcur : 2 ^ pgShift ∣ cur) (hstop : 2 ^ pgShift ∣ stop) (hlo : lo ≤ cur) (hle : cur ≤ stop)
    (hfits : stop ≤ 2 ^ 64) (hfuel : stop ≤ cur + fuel * pgSize) :
    ∃ b' m' free', BuddyAllocator.insertLoop stop fuel cur b m = .ok (b', m') ∧
      SameCounters b b' ∧ Holds lo stop b' m' free' [] ∧ Merged free' := by
  induction fuel generalizing cur b m free with
  | zero =>
    obtain rfl : cur = stop := by omega
    exact ⟨b, m, free, by simp [BuddyAllocator.insertLoop], ⟨rfl, rfl⟩, h, greedy.merged h⟩
  | succ fuel ih =>
    by_cases hdone : stop ≤ cur
    · obtain rfl : cur = stop := by omega
      exact ⟨b, m, free, by simp [BuddyAllocator.insertLoop], ⟨rfl, rfl⟩, h, greedy.merged h⟩
    · obtain ⟨hpage, haligned, hroom, hlargest⟩ := insertOrder_spec hcur hstop (by omega) hfits
      rw [BuddyAllocator.insertLoop, if_neg hdone]
      simp only [if_neg (Nat.not_lt.mpr hpage)]
      set order := min (trailingZeros (min (2 ^ trailingZeros cur)
        (prevPowerOfTwo (stop - cur))) - pgShift) maxOrder with horder
      have grown := extend h (Nat.min_le_right ..) haligned hlo (hroom.trans hfits)
      have page : pgSize ≤ 2 ^ order * pgSize := Nat.le_mul_of_pos_left _ (Nat.two_pow_pos _)
      have next : 2 ^ pgShift ∣ cur + 2 ^ order * pgSize :=
        (Nat.dvd_add_right hcur).mpr (Nat.dvd_mul_left ..)
      have greedy' : Greedy stop (Function.update free order (cur :: free order)) := by
        intro k hk q hq even
        by_cases same : k = order
        · subst same
          rw [Function.update_self] at hq
          rcases List.mem_cons.mp hq with rfl | hq
          · exact hlargest hk even
          · exact greedy order hk q hq even
        · rw [Function.update_of_ne same] at hq
          exact greedy k hk q hq even
      exact ih grown.give.1 greedy' next (by omega) hroom (by rw [Nat.succ_mul] at hfuel; omega)

/-- `insert_range` into the empty allocator puts the whole range on the free lists. -/
theorem insertRange_spec (m : Mem) {start stop : Nat} (pos : 0 < start) (fits : stop < 2 ^ 64)
    (ordered : roundUp start pgSize ≤ roundDown stop pgSize) :
    ∃ b m' free, BuddyAllocator.empty.insertRange m start stop = .ok (b, m') ∧
      Holds (roundUp start pgSize) (roundDown stop pgSize) b m' free [] ∧
      b.total = roundDown stop pgSize - roundUp start pgSize ∧ b.allocated = 0 ∧ Merged free := by
  have hlo : 2 ^ pgShift ∣ roundUp start pgSize := two_pow_dvd_roundDown ..
  have hhi : 2 ^ pgShift ∣ roundDown stop pgSize := two_pow_dvd_roundDown ..
  have start_le : start ≤ roundUp start pgSize := le_roundUp start pgShift
  have le_stop : roundDown stop pgSize ≤ stop := roundDown_le ..
  set b₀ : BuddyAllocator := { BuddyAllocator.empty with
    total := 0 + (roundDown stop pgSize - roundUp start pgSize) } with hb₀
  have none : Holds (roundUp start pgSize) (roundUp start pgSize) b₀ m (fun _ => []) [] := by
    refine ⟨by
      omega, by omega, fun _ => InMemList.new_spells m, fun _ _ => rfl, Tiles.empty _, ?_, ?_⟩
    · intro blk hblk
      simp [blocks] at hblk
    · intro blk hblk
      simp [blocks] at hblk
  have fuel : roundDown stop pgSize ≤ roundUp start pgSize +
      (roundDown stop pgSize - roundUp start pgSize) / pgSize * pgSize := by
    have whole : pgSize ∣ roundDown stop pgSize - roundUp start pgSize := Nat.dvd_sub hhi hlo
    rw [Nat.div_mul_cancel whole]
    omega
  have greedy : Greedy (roundDown stop pgSize) fun _ => [] := by
    intro k _ p hp
    cases hp
  obtain ⟨b, m', free, loop, ⟨total, allocated⟩, h, merged⟩ :=
    insertLoop_spec none greedy hlo hhi le_rfl ordered (by omega) fuel
  refine ⟨b, m', free, ?_, h, ?_, allocated, merged⟩
  · simp only [BuddyAllocator.insertRange, if_neg (Nat.not_lt.mpr ordered)]
    exact loop
  · rw [total, hb₀]
    exact Nat.zero_add _

end Operations

/-- The allocator with the memory it manages and the requests it has served: address and
number of pages of every outstanding block. -/
structure Pool where
  mem : Mem
  buddy : BuddyAllocator
  live : List (Nat × Nat)

/-- What a client can do: ask for pages, give them back, and write into its own pages. -/
inductive PoolOp where
  | alloc (n : Nat)
  | dealloc (p n : Nat)
  | write (a : Nat) (v : UInt8)
  deriving DecidableEq, Repr

namespace Pool

/-- The block that serves a request. -/
def blockOf (r : Nat × Nat) : Block := ⟨r.1, orderOf r.2⟩

def step (s : Pool) : PoolOp → Option Pool
  | .alloc n =>
    match s.buddy.alloc s.mem n with
    | .ok (p, b, m) => some ⟨m, b, (p, n) :: s.live⟩
    | .error _ => none
  | .dealloc p n =>
    if (p, n) ∈ s.live then
      match s.buddy.dealloc s.mem p n with
      | .ok (b, m) => some ⟨m, b, s.live.erase (p, n)⟩
      | .error _ => none
    else none
  | .write a v =>
    if ∃ r ∈ s.live, a ∈ (blockOf r).span then some { s with mem := Function.update s.mem a v }
    else none

/-- The free and the outstanding blocks partition the range from `lo` to `hi`, and the
counters agree with them. -/
structure Partitioned (lo hi : Nat) (s : Pool) (free : Nat → List Nat) : Prop where
  spells : ∀ k ≤ maxOrder, (s.buddy.freeLists k).Spells s.mem (free k)
  disjoint : (blocks free ++ s.live.map blockOf).Pairwise fun x y => Apart x.span y.span
  covers : ∀ a, (∃ blk ∈ blocks free ++ s.live.map blockOf, a ∈ blk.span) ↔ lo ≤ a ∧ a < hi
  aligned : ∀ blk ∈ blocks free ++ s.live.map blockOf, 2 ^ blk.order * pgSize ∣ blk.addr
  enough : ∀ r ∈ s.live, r.2 ≤ 2 ^ (blockOf r).order
  allocated : s.buddy.allocated = (s.live.map fun r => 2 ^ (blockOf r).order).sum
  total : s.buddy.total = hi - lo
  -- no panic but the exhaustion of memory
  frees : ∀ r ∈ s.live, ∃ s', s.buddy.dealloc s.mem r.1 r.2 = .ok s'
  serves : ∀ n ≤ 2 ^ maxOrder, ∀ e, s.buddy.alloc s.mem n = .error e → e = .exhausted

structure Inv (lo hi : Nat) (s : Pool) : Prop where
  holds : ∃ free, Holds lo hi s.buddy s.mem free (s.live.map blockOf)
  small : ∀ r ∈ s.live, r.2 ≤ 2 ^ maxOrder
  allocated : s.buddy.allocated = (s.live.map fun r => 2 ^ (blockOf r).order).sum
  total : s.buddy.total = hi - lo

variable {lo hi : Nat} {s s' : Pool}

private theorem Inv.alloc {n : Nat} (h : s.Inv lo hi) (hs : s.step (.alloc n) = some s') :
    s'.Inv lo hi := by
  obtain ⟨free, holds⟩ := h.holds
  have hn : n ≤ 2 ^ maxOrder := by
    by_contra hbig
    simp [step, BuddyAllocator.alloc, Nat.lt_of_not_le hbig] at hs
  rcases alloc_spec holds hn with ⟨fails, -⟩ |
    ⟨p, b, m, free', alloc, holds', -, total, allocated, -⟩
  · simp [step, fails] at hs
  · simp only [step, alloc, Option.some.injEq] at hs
    subst hs
    refine ⟨⟨free', holds'⟩, ?_, ?_, total.trans h.total⟩
    · intro r hr
      rcases List.mem_cons.mp hr with rfl | hr
      · exact hn
      · exact h.small r hr
    · simp only [List.map_cons, List.sum_cons]
      rw [allocated, h.allocated]
      exact Nat.add_comm ..

theorem Inv.allocated_of_mem {p n : Nat} (h : s.Inv lo hi) (hr : (p, n) ∈ s.live) :
    s.buddy.allocated = 2 ^ orderOf n + ((s.live.erase (p, n)).map
      fun r => 2 ^ (blockOf r).order).sum := by
  have sum := ((List.perm_cons_erase hr).map fun r => 2 ^ (blockOf r).order).sum_eq
  rw [← h.allocated, List.map_cons, List.sum_cons] at sum
  exact sum

private theorem Inv.dealloc {p n : Nat} (h : s.Inv lo hi) (hr : (p, n) ∈ s.live) :
    ∃ b m, s.buddy.dealloc s.mem p n = .ok (b, m) ∧ Inv lo hi ⟨m, b, s.live.erase (p, n)⟩ := by
  obtain ⟨free, holds⟩ := h.holds
  have moved := (List.perm_cons_erase hr).map blockOf
  have sum := h.allocated_of_mem hr
  have enough : 2 ^ orderOf n ≤ s.buddy.allocated := by
    rw [sum]
    exact Nat.le_add_right ..
  obtain ⟨b, m, free', dealloc, holds', -, total, allocated, -⟩ :=
    dealloc_spec (holds.perm moved) enough
  refine ⟨b, m, dealloc, ⟨free', holds'⟩, ?_, ?_, total.trans h.total⟩
  · exact fun r hr' => h.small r (List.mem_of_mem_erase hr')
  · rw [allocated, sum]
    exact Nat.add_sub_cancel_left ..

/-- The step lemma: every operation keeps the invariant. -/
theorem step_inv {op : PoolOp} (h : s.Inv lo hi) (hs : s.step op = some s') : s'.Inv lo hi := by
  cases op with
  | alloc n => exact h.alloc hs
  | dealloc p n =>
    by_cases hr : (p, n) ∈ s.live
    · obtain ⟨b, m, dealloc, inv⟩ := h.dealloc hr
      simp only [step, if_pos hr, dealloc, Option.some.injEq] at hs
      exact hs ▸ inv
    · simp [step, hr] at hs
  | write a v =>
    by_cases hw : ∃ r ∈ s.live, a ∈ (blockOf r).span
    · simp only [step, if_pos hw, Option.some.injEq] at hs
      subst hs
      obtain ⟨free, holds⟩ := h.holds
      refine ⟨⟨free, holds.scribble fun x hx => ?_⟩, h.small, h.allocated, h.total⟩
      obtain ⟨r, hr, ha⟩ := hw
      have hxa : x = a := by
        by_contra hne
        exact hx (Function.update_of_ne hne _ _)
      exact ⟨blockOf r, List.mem_map_of_mem hr, hxa ▸ ha⟩
    · simp [step, hw] at hs

theorem Inv.partitioned (h : s.Inv lo hi) : ∃ free, s.Partitioned lo hi free := by
  obtain ⟨free, holds⟩ := h.holds
  refine ⟨free, fun k _ => holds.spells k, ?_, ?_, ?_, ?_, h.allocated, h.total, ?_, ?_⟩
  · exact List.pairwise_map.mp holds.tiles.pairwise
  · intro a
    rw [← holds.tiles.mem_iff]
    constructor
    · rintro ⟨blk, hblk, ha⟩
      exact ⟨blk.span, List.mem_map_of_mem hblk, ha⟩
    · rintro ⟨t, ht, ha⟩
      obtain ⟨blk, hblk, rfl⟩ := List.mem_map.mp ht
      exact ⟨blk, hblk, ha⟩
  · intro blk hblk
    rw [pgSize, ← pow_add]
    exact holds.aligned blk hblk
  · exact fun r hr => le_two_pow_orderOf (h.small r hr)
  · rintro ⟨p, n⟩ hr
    obtain ⟨b, m, dealloc, -⟩ := h.dealloc hr
    exact ⟨(b, m), dealloc⟩
  · intro n hn e he
    rcases alloc_spec holds hn with ⟨fails, -⟩ | ⟨p, b, m, free', alloc, -⟩
    · rw [fails] at he
      exact (Except.error.inj he).symm
    · rw [alloc] at he
      cases he

end Pool

/-- After `insert_range` every history of requests, returns and writes into outstanding
blocks keeps the range partitioned. -/
theorem buddy_partition (m : Mem) (start stop : Nat) (pos : 0 < start) (fits : stop < 2 ^ 64)
    (ordered : roundUp start pgSize ≤ roundDown stop pgSize) :
    ∃ b m', BuddyAllocator.empty.insertRange m start stop = .ok (b, m') ∧
      ∀ ops s, run Pool.step ⟨m', b, []⟩ ops = some s →
        ∃ free, s.Partitioned (roundUp start pgSize) (roundDown stop pgSize) free := by
  obtain ⟨b, m', free, insert, holds, total, allocated, -⟩ := insertRange_spec m pos fits ordered
  refine ⟨b, m', insert, fun ops s ran => ?_⟩
  have start : Pool.Inv (roundUp start pgSize) (roundDown stop pgSize) ⟨m', b, []⟩ :=
    ⟨⟨free, holds⟩, by simp, allocated, total⟩
  exact (run_invariant (fun _ _ _ => Pool.step_inv) start ran).partitioned

/-- Seven pages, not aligned as a whole: three requests, one of which splits a block, a write
and the return of the split block. -/
theorem seven_pages_partition : ∃ b m' s,
    BuddyAllocator.empty.insertRange (fun _ => 0) 5000 40000 = .ok (b, m') ∧
      run Pool.step ⟨m', b, []⟩
        [.alloc 1, .alloc 1, .alloc 3, .write 8200 7, .dealloc 8192 1] = some s ∧
      s.live = [(16384, 3), (32768, 1)] ∧ ∃ free, s.Partitioned 8192 36864 free := by
  obtain ⟨b, m', insert, keeps⟩ := buddy_partition (fun _ => 0) 5000 40000 (by decide)
    (by decide) (by decide)
  have ran : ((BuddyAllocator.empty.insertRange (fun _ => 0) 5000 40000).toOption.bind fun r =>
      (run Pool.step ⟨r.2, r.1, []⟩ [.alloc 1, .alloc 1, .alloc 3, .write 8200 7,
        .dealloc 8192 1]).map Pool.live) =
        some [(16384, 3), (32768, 1)] := by
    decide +kernel
  rw [insert, Except.toOption, Option.bind_some] at ran
  obtain ⟨s, hs, live⟩ := Option.map_eq_some_iff.mp ran
  exact ⟨b, m', s, insert, hs, live, keeps _ s hs⟩

end Tacos.Mem
