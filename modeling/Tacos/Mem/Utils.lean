/- GID: Tacos/Mem/Utils
   generality: I
   source: src/mem/utils.rs, src/mem/utils/list.rs
   digest: Rounding and powers of two on addresses, and the singly linked list kept inside free
     memory. -/

import Tacos.Lib.Bytes
import Tacos.Lib.Links
import Mathlib.Algebra.Order.Ring.Nat
import Mathlib.Data.List.Induction
import Mathlib.Data.Nat.Prime.Basic

set_option autoImplicit false
set_option relaxedAutoImplicit false

namespace Tacos.Mem

open Tacos.Lib.Bytes Tacos.Lib.Links

/-- How a function of the allocators fails. -/
inductive Panic where
  /-- Assertions, failed lookups and checked arithmetic of the page allocator. -/
  | tooLarge
  | exhausted
  | unwrapNone
  | indexOut
  | underflow
  | overflow
  /-- The iteration over a list visits more nodes than there are addresses. -/
  | endless
  /-- Assertions of the kernel heap. -/
  | alignNotPowerOfTwo
  | alignTooLarge
  | magic
  | nullDesc
  | blockIndex
  | arenaAddress
  | blockAlign
  | pageAlign
  /-- A pointer that leads to no descriptor is followed. -/
  | wildPointer
  deriving DecidableEq, Repr

def pgShift : Nat := 12

def pgSize : Nat := 2 ^ pgShift

/-- `n & !(align - 1)`; the alignments used are powers of two. -/
def roundDown (n align : Nat) : Nat := n - (n &&& (align - 1))

def roundUp (n align : Nat) : Nat := roundDown (n + align - 1) align

def trailingZerosFrom : Nat → Nat → Nat
  | 0, _ => 0
  | w + 1, n => if n % 2 = 1 then 0 else trailingZerosFrom w (n / 2) + 1

/-- `usize::trailing_zeros`, 64 for zero. -/
def trailingZeros (n : Nat) : Nat := trailingZerosFrom 64 n

/-- The exponent of the smallest power of two that is not below `n`. -/
def nextPowerShift (n : Nat) : Nat := if n ≤ 1 then 0 else Nat.log2 (n - 1) + 1

def nextPowerOfTwo (n : Nat) : Nat := 2 ^ nextPowerShift n

/-- `1 << (64 - num.leading_zeros() - 1)`. -/
def prevPowerOfTwo (num : Nat) : Nat := 2 ^ Nat.log2 num

theorem roundDown_two_pow (n k : Nat) : roundDown n (2 ^ k) = n - n % 2 ^ k := by
  rw [roundDown, Nat.and_two_pow_sub_one_eq_mod]

theorem two_pow_dvd_roundDown (n k : Nat) : 2 ^ k ∣ roundDown n (2 ^ k) := by
  rw [roundDown_two_pow]
  exact Nat.dvd_sub_mod n

theorem roundDown_le (n align : Nat) : roundDown n align ≤ n := Nat.sub_le ..

theorem le_roundUp (n k : Nat) : n ≤ roundUp n (2 ^ k) := by
  have pos : 0 < 2 ^ k := Nat.two_pow_pos k
  have rest := Nat.mod_lt (n + 2 ^ k - 1) pos
  rw [roundUp, roundDown_two_pow]
  omega

private theorem trailingZerosFrom_dvd (w n : Nat) : 2 ^ trailingZerosFrom w n ∣ n := by
  induction w generalizing n with
  | zero => simp [trailingZerosFrom]
  | succ w ih =>
    unfold trailingZerosFrom
    split_ifs with odd
    · simp
    · have even : n = 2 * (n / 2) := by omega
      rw [pow_succ']
      nth_rewrite 2 [even]
      exact Nat.mul_dvd_mul_left 2 (ih (n / 2))

private theorem le_trailingZerosFrom {w n k : Nat} (hk : k ≤ w) (h : 2 ^ k ∣ n) :
    k ≤ trailingZerosFrom w n := by
  induction w generalizing n k with
  | zero => omega
  | succ w ih =>
    cases k with
    | zero => exact Nat.zero_le _
    | succ k =>
      have half : 2 ^ k ∣ n / 2 := by
        obtain ⟨c, rfl⟩ := h
        rw [pow_succ', mul_assoc, Nat.mul_div_cancel_left _ (by omega)]
        exact Nat.dvd_mul_right ..
      have even : n % 2 ≠ 1 := by
        have two : 2 ∣ n := dvd_trans (dvd_pow_self 2 k.succ_ne_zero) h
        omega
      rw [trailingZerosFrom, if_neg even]
      have := ih (by omega) half
      omega

theorem trailingZeros_dvd (n : Nat) : 2 ^ trailingZeros n ∣ n := trailingZerosFrom_dvd 64 n

theorem le_trailingZeros {n k : Nat} (hk : k ≤ 64) (h : 2 ^ k ∣ n) : k ≤ trailingZeros n :=
  le_trailingZerosFrom hk h

theorem trailingZeros_two_pow {k : Nat} (hk : k ≤ 64) : trailingZeros (2 ^ k) = k :=
  le_antisymm (Nat.pow_dvd_pow_iff_le_right'.mp (trailingZeros_dvd (2 ^ k)))
    (le_trailingZeros hk (dvd_refl _))

theorem nextPowerShift_le_iff (n k : Nat) : nextPowerShift n ≤ k ↔ n ≤ 2 ^ k := by
  unfold nextPowerShift
  have pos : 0 < 2 ^ k := Nat.two_pow_pos k
  split_ifs with small
  · omega
  · have := @Nat.log2_lt (n - 1) k (by omega)
    omega

/-- The order of a request of `n` pages. -/
theorem trailingZeros_nextPowerOfTwo {n : Nat} (hn : n ≤ 2 ^ 64) :
    trailingZeros (nextPowerOfTwo n) = nextPowerShift n :=
  trailingZeros_two_pow ((nextPowerShift_le_iff n 64).mpr hn)

/-- A list is its head pointer; null is zero and the links are in the nodes' first words. -/
structure InMemList where
  head : Nat
  deriving DecidableEq, Repr

def link (m : Mem) (p : Nat) : Nat := loadLE m p 8

/-- A position of the iteration. The node before is `none` for the list's own head field. -/
structure IterMut where
  prev : Option Nat
  curr : Nat
  deriving DecidableEq, Repr

structure ListNode where
  prev : Option Nat
  curr : Nat
  deriving DecidableEq, Repr

namespace InMemList

def new : InMemList := ⟨0⟩

def isEmpty (l : InMemList) : Bool := l.head = 0

def push (l : InMemList) (m : Mem) (item : Nat) : InMemList × Mem :=
  (⟨item⟩, storeLE m item 8 l.head)

def pop (l : InMemList) (m : Mem) : Option (Nat × InMemList) :=
  if l.isEmpty then none else some (l.head, ⟨link m l.head⟩)

def iterMut (l : InMemList) : IterMut := ⟨none, l.head⟩

end InMemList

namespace ListNode

def value (n : ListNode) : Nat := n.curr

/-- Remove the node: the link before it, or the head field, takes over its own link. -/
def pop (n : ListNode) (l : InMemList) (m : Mem) : InMemList × Mem :=
  match n.prev with
  | none => (⟨link m n.curr⟩, m)
  | some prev => (l, storeLE m prev 8 (link m n.curr))

end ListNode

namespace IterMut

def next (it : IterMut) (m : Mem) : Option (ListNode × IterMut) :=
  if it.curr = 0 then none else some (⟨it.prev, it.curr⟩, ⟨some it.curr, link m it.curr⟩)

/-- `Iterator::find`, with a bound on the number of nodes. -/
def find (p : ListNode → Bool) (m : Mem) : Nat → IterMut → Except Panic (Option ListNode)
  | 0, _ => .error .endless
  | fuel + 1, it =>
    match it.next m with
    | none => .ok none
    | some (node, it) => if p node then .ok (some node) else find p m fuel it

end IterMut

namespace InMemList

/-- The nodes of the list, in order. -/
def Spells (l : InMemList) (m : Mem) (ns : List Nat) : Prop := Chain 0 (link m) l.head ns

variable {l : InMemList} {m m' : Mem} {ns : List Nat} {p : Nat}

theorem new_spells (m : Mem) : new.Spells m [] := rfl

theorem Spells.isEmpty_iff (h : l.Spells m ns) : l.isEmpty = true ↔ ns = [] := by
  rw [isEmpty, decide_eq_true_eq]
  exact h.eq_null_iff

theorem Spells.pop_eq (h : l.Spells m (p :: ns)) :
    l.pop m = some (p, ⟨link m p⟩) ∧ Spells ⟨link m p⟩ m ns := by
  obtain ⟨rfl, hp, hl⟩ := h
  refine ⟨?_, hl⟩
  simp [pop, isEmpty, hp]

theorem link_congr (h : ∀ x, p ≤ x → x < p + 8 → m' x = m x) : link m' p = link m p :=
  loadLE_congr h

theorem Spells.congr (h : l.Spells m ns)
    (same : ∀ p ∈ ns, ∀ x, p ≤ x → x < p + 8 → m' x = m x) : l.Spells m' ns :=
  Chain.congr h fun p hp => link_congr (same p hp)

theorem Spells.head_lt (h : l.Spells m ns) (small : ∀ p ∈ ns, p < 2 ^ 64) : l.head < 2 ^ 64 := by
  cases ns with
  | nil =>
    have : l.head = 0 := h
    omega
  | cons p ns =>
    obtain ⟨hp, -, -⟩ := h
    rw [hp]
    exact small p List.mem_cons_self

theorem Spells.push (h : l.Spells m ns) (small : ∀ q ∈ ns, q < 2 ^ 64) (hp : p ≠ 0)
    (apart : ∀ q ∈ ns, q + 8 ≤ p ∨ p + 8 ≤ q) :
    (l.push m p).1.Spells (l.push m p).2 (p :: ns) := by
  refine ⟨rfl, hp, ?_⟩
  have back : link (storeLE m p 8 l.head) p = l.head := by
    apply loadLE_storeLE_of_lt
    have := h.head_lt small
    norm_num at this ⊢
    omega
  rw [InMemList.push, back]
  refine Chain.congr h fun q hq => ?_
  exact loadLE_storeLE_of_disjoint (apart q hq)

theorem push_of_not_mem {x : Nat} (h : x < p ∨ p + 8 ≤ x) : (l.push m p).2 x = m x :=
  storeLE_of_not_mem h

private theorem find_chain (p : Nat) {fuel : Nat} {it : IterMut}
    (h : Chain 0 (link m) it.curr ns) (hf : ns.length < fuel) :
    (p ∉ ns ∧ it.find (fun n => n.value = p) m fuel = .ok none) ∨
      ∃ l₁ l₂, ns = l₁ ++ p :: l₂ ∧
        it.find (fun n => n.value = p) m fuel = .ok (some ⟨(l₁.getLast?).or it.prev, p⟩) := by
  induction ns generalizing it fuel with
  | nil =>
    obtain ⟨fuel, rfl⟩ : ∃ f, fuel = f + 1 := ⟨fuel - 1, by simp at hf; omega⟩
    have hz : it.curr = 0 := h
    refine .inl ⟨by simp, ?_⟩
    simp [IterMut.find, IterMut.next, hz]
  | cons r ns ih =>
    obtain ⟨fuel, rfl⟩ : ∃ f, fuel = f + 1 := ⟨fuel - 1, by simp at hf; omega⟩
    obtain ⟨hr, hz, hl⟩ := h
    by_cases hp : r = p
    · subst hp
      refine .inr ⟨[], ns, rfl, ?_⟩
      simp [IterMut.find, IterMut.next, hr, hz, ListNode.value]
    · have skip : it.find (fun n => n.value = p) m (fuel + 1) =
          IterMut.find (fun n => n.value = p) m fuel ⟨some r, link m r⟩ := by
        simp [IterMut.find, IterMut.next, hr, hz, ListNode.value, hp]
      rw [skip]
      have tail : Chain 0 (link m) (IterMut.curr ⟨some r, link m r⟩) ns := hl
      rcases ih tail (by simpa using hf) with ⟨absent, found⟩ | ⟨l₁, l₂, rfl, found⟩
      · exact .inl ⟨by simp [absent, Ne.symm hp], found⟩
      · refine .inr ⟨r :: l₁, l₂, rfl, ?_⟩
        rw [found, List.getLast?_cons]
        cases l₁.getLast? <;> rfl

/-- The search for an address finds its node together with the node before it. -/
theorem Spells.find (h : l.Spells m ns) {fuel : Nat} (hf : ns.length < fuel) (p : Nat) :
    (p ∉ ns ∧ l.iterMut.find (fun n => n.value = p) m fuel = .ok none) ∨
      ∃ l₁ l₂, ns = l₁ ++ p :: l₂ ∧
        l.iterMut.find (fun n => n.value = p) m fuel = .ok (some ⟨l₁.getLast?, p⟩) := by
  have head : Chain 0 (link m) l.iterMut.curr ns := h
  simpa [iterMut] using find_chain p head hf

/-- Removing a node through the iterator unlinks exactly this node. -/
theorem Spells.remove {l₁ l₂ : List Nat} (h : l.Spells m (l₁ ++ p :: l₂))
    (apart : ∀ q ∈ l₁ ++ p :: l₂, ∀ r ∈ l₁ ++ p :: l₂, q ≠ r → q + 8 ≤ r ∨ r + 8 ≤ q) :
    (ListNode.pop ⟨l₁.getLast?, p⟩ l m).1.Spells (ListNode.pop ⟨l₁.getLast?, p⟩ l m).2
      (l₁ ++ l₂) := by
  cases l₁ using List.reverseRecOn with
  | nil =>
    obtain ⟨rfl, -, hl⟩ := h
    exact hl
  | append_singleton l₁ q =>
    simp only [List.append_assoc, List.singleton_append] at h apart
    simp only [ListNode.pop, List.getLast?_append, List.getLast?_singleton, Option.some_or,
      List.append_assoc, List.singleton_append]
    refine Chain.unlink h (fun r hr hne => loadLE_storeLE_of_disjoint (apart r hr q ?_ hne)) ?_
    · simp
    · exact loadLE_storeLE_of_lt (loadLE_lt m p 8)

/-- Removing a node writes into the first words of the list's own nodes only. -/
theorem remove_of_not_mem {l₁ l₂ : List Nat} {x : Nat}
    (h : ∀ q ∈ l₁ ++ p :: l₂, x < q ∨ q + 8 ≤ x) :
    (ListNode.pop ⟨l₁.getLast?, p⟩ l m).2 x = m x := by
  cases hl : l₁.getLast? with
  | none => rfl
  | some q =>
    apply storeLE_of_not_mem
    exact h q (List.mem_append_left _ (List.mem_of_getLast? hl))

end InMemList

end Tacos.Mem
