/- GID: Tacos/Mem/Placed
   generality: G
   source: src/mem/utils/list.rs
   digest: An in-memory list with its head field in memory too, and the sequence that it stands
     for. -/

import Tacos.Mem.Utils

set_option autoImplicit false
set_option relaxedAutoImplicit false

namespace Tacos.Mem.Placed

open Tacos.Lib.Bytes Tacos.Lib.Links

/-! The list of `InMemList`, with `list` the address of its head field. -/

def isEmpty (m : Mem) (list : Nat) : Bool := link m list = 0

def push (m : Mem) (list item : Nat) : Mem :=
  let m := storeLE m item 8 (link m list)
  storeLE m list 8 item

def pop (m : Mem) (list : Nat) : Option Nat × Mem :=
  if isEmpty m list then (none, m)
  else
    let popped := link m list
    (some popped, storeLE m list 8 (link m popped))

/-- A position of the iteration; `prev` may be the address of the head field. -/
structure IterMut where
  prev : Nat
  curr : Nat

structure ListNode where
  prev : Nat
  curr : Nat
  deriving DecidableEq

def iterMut (m : Mem) (list : Nat) : IterMut := ⟨list, link m list⟩

namespace ListNode

def value (n : ListNode) : Nat := n.curr

def pop (n : ListNode) (m : Mem) : Nat × Mem := (n.curr, storeLE m n.prev 8 (link m n.curr))

end ListNode

def IterMut.next (it : IterMut) (m : Mem) : Option (ListNode × IterMut) :=
  if it.curr = 0 then none else some (⟨it.prev, it.curr⟩, ⟨it.curr, link m it.curr⟩)

/-- All nodes that the iteration comes to, with a bound on their number. -/
def visits (m : Mem) : Nat → IterMut → Except Panic (List ListNode)
  | 0, _ => .error .endless
  | fuel + 1, it =>
    match it.next m with
    | none => .ok []
    | some (node, it) =>
      match visits m fuel it with
      | .ok nodes => .ok (node :: nodes)
      | .error e => .error e

/-! Without the store of the head, these are the operations on `InMemList`. -/

theorem push_eq (m : Mem) (list item : Nat) :
    push m list item = storeLE (InMemList.push ⟨link m list⟩ m item).2 list 8
      (InMemList.push ⟨link m list⟩ m item).1.head := rfl

theorem pop_eq (m : Mem) (list : Nat) :
    pop m list = match InMemList.pop ⟨link m list⟩ m with
      | none => (none, m)
      | some (popped, l) => (some popped, storeLE m list 8 l.head) := by
  rw [pop, InMemList.pop]
  by_cases none : link m list = 0
  · simp only [isEmpty, InMemList.isEmpty, none, decide_true, if_true]
  · simp only [isEmpty, InMemList.isEmpty, none, decide_false, Bool.false_eq_true, if_false]

/-- The node before is `none` there for the head field. -/
theorem remove_eq {m : Mem} {list p : Nat} {prev : Option Nat}
    (apart : ∀ q ∈ prev, q + 8 ≤ list ∨ list + 8 ≤ q) :
    (ListNode.pop ⟨prev.getD list, p⟩ m).2 = storeLE
    (Mem.ListNode.pop ⟨prev, p⟩ ⟨link m list⟩ m).2 list 8
      (Mem.ListNode.pop ⟨prev, p⟩ ⟨link m list⟩ m).1.head := by
  cases prev with
  | none => rfl
  | some q =>
    -- the head field gets the value that it has
    funext x
    change storeLE m q 8 (link m p) x = storeLE (storeLE m q 8 (link m p)) list 8 (link m list) x
    by_cases inside : list ≤ x ∧ x < list + 8
    · obtain ⟨k, rfl⟩ := Nat.exists_eq_add_of_le inside.1
      have out := apart q rfl
      have back : storeLE (storeLE m q 8 (link m p)) list 8 (link m list)
        (list + k) = m (list + k) :=
        storeLE_loadLE m _ list list (by omega)
      rw [back, storeLE_of_not_mem (by omega)]
    · rw [storeLE_of_not_mem (m := storeLE m q 8 (link m p)) (by omega)]

def Word (p : Nat) : Prop := 8 ∣ p ∧ p < 2 ^ 64

instance (p : Nat) : Decidable (Word p) := inferInstanceAs (Decidable (_ ∧ _))

/-- The byte `x` is in none of these words. -/
def Elsewhere (ps : List Nat) (x : Nat) : Prop := ∀ p ∈ ps, x < p ∨ p + 8 ≤ x

/-- The links lead from the head field through the nodes to null: the head field is as good as a
node. -/
structure Represents (m : Mem) (list : Nat) (ns : List Nat) : Prop where
  chain : Chain 0 (link m) list (list :: ns)
  words : ∀ p ∈ list :: ns, Word p

/-- The nodes that follow `prev`. -/
def nodes : Nat → List Nat → List ListNode
  | _, [] => []
  | prev, p :: ns => ⟨prev, p⟩ :: nodes p ns

theorem nodes_value (prev : Nat) (ns : List Nat) : (nodes prev ns).map ListNode.value = ns := by
  induction ns generalizing prev with
  | nil => rfl
  | cons p ns ih => rw [nodes, List.map_cons, ih, ListNode.value]

theorem mem_nodes {prev : Nat} {ns : List Nat} {n : ListNode} (mem : n ∈ nodes prev ns) :
    ∃ l₁ l₂, prev :: ns = l₁ ++ n.prev :: n.curr :: l₂ := by
  induction ns generalizing prev with
  | nil => cases mem
  | cons p ns ih =>
    obtain rfl | later := List.mem_cons.mp mem
    · exact ⟨[], ns, rfl⟩
    · obtain ⟨l₁, l₂, split⟩ := ih later
      exact ⟨prev :: l₁, l₂, congrArg (List.cons prev) split⟩

theorem visits_eq {m : Mem} {ns : List Nat} {it : IterMut}
    (chain : Chain 0 (link m) it.curr ns) {fuel : Nat}
    (enough : ns.length < fuel) : visits m fuel it = .ok (nodes it.prev ns) := by
  induction ns generalizing it fuel with
  | nil =>
    obtain ⟨fuel, rfl⟩ := Nat.exists_eq_add_one.mpr (Nat.zero_lt_of_lt enough)
    have stop : it.curr = 0 := chain
    rw [visits, IterMut.next, if_pos stop, nodes]
  | cons p ns ih =>
    obtain ⟨fuel, rfl⟩ := Nat.exists_eq_add_one.mpr (Nat.zero_lt_of_lt enough)
    obtain ⟨here, more, rest⟩ := chain
    subst here
    have tail : Chain 0 (link m) (IterMut.curr ⟨it.curr, link m it.curr⟩) ns := rest
    have later := ih tail (Nat.lt_of_succ_lt_succ enough)
    rw [visits, IterMut.next, if_neg more, nodes]
    simp only [later]

section Operations

variable {m : Mem} {list p q v : Nat} {ns : List Nat}

theorem link_store_ne (wordp : Word p) (wordq : Word q) (ne : p ≠ q) :
    link (storeLE m q 8 v) p = link m p := by
  refine loadLE_storeLE_of_disjoint ?_
  obtain ⟨⟨a, rfl⟩, -⟩ := wordp
  obtain ⟨⟨b, rfl⟩, -⟩ := wordq
  omega

theorem link_store (small : v < 2 ^ 64) : link (storeLE m p 8 v) p = v :=
  loadLE_storeLE_of_lt (lt_of_lt_of_eq small (by norm_num))

theorem link_lt (m : Mem) (p : Nat) : link m p < 2 ^ 64 :=
  lt_of_lt_of_eq (loadLE_lt m p 8) (by norm_num)

theorem store_elsewhere {ps : List Nat} {x : Nat} (mem : p ∈ ps) (out : Elsewhere ps x) :
    storeLE m p 8 v x = m x :=
  storeLE_of_not_mem (out p mem)

namespace Represents

theorem rest (rep : Represents m list ns) : Chain 0 (link m) (link m list) ns := rep.chain.2.2

theorem visits (rep : Represents m list ns) {fuel : Nat} (enough : ns.length < fuel) :
    visits m fuel (iterMut m list) = .ok (nodes list ns) := by
  have chain : Chain 0 (link m) (iterMut m list).curr ns := rep.rest
  exact visits_eq chain enough

theorem isEmpty_iff (rep : Represents m list ns) : isEmpty m list = true ↔ ns = [] := by
  rw [isEmpty, decide_eq_true_eq]
  exact rep.rest.eq_null_iff

theorem push (rep : Represents m list ns) (word : Word p) (nonnull : p ≠ 0)
    (fresh : p ∉ list :: ns) :
    Represents (push m list p) list (p :: ns) := by
  have words : ∀ q ∈ list :: p :: ns, Word q := by
    intro q mem
    obtain rfl | rfl | old := List.mem_cons.mp mem |>.imp_right List.mem_cons.mp
    · exact rep.words q List.mem_cons_self
    · exact word
    · exact rep.words q (List.mem_cons_of_mem _ old)
  have place : Word list := rep.words list List.mem_cons_self
  have apart : p ≠ list := fun same => fresh (same ▸ List.mem_cons_self)
  have head : link (Placed.push m list p) list = p := link_store word.2
  have first : link (Placed.push m list p) p = link m list := by
    rw [Placed.push, link_store_ne word place apart, link_store (link_lt m list)]
  have others : ∀ q ∈ ns, link (Placed.push m list p) q = link m q := by
    intro q mem
    have wordq := rep.words q (List.mem_cons_of_mem _ mem)
    have notHead : q ≠ list := fun same => (List.nodup_cons.mp rep.chain.nodup).1 (same ▸ mem)
    have notNew : q ≠ p := fun same => fresh (List.mem_cons_of_mem _ (same ▸ mem))
    rw [Placed.push, link_store_ne wordq place notHead, link_store_ne wordq word notNew]
  refine ⟨⟨rfl, rep.chain.2.1, head, nonnull, ?_⟩, words⟩
  rw [first]
  exact rep.rest.congr others

theorem unlink {l₁ l₂ : List Nat} (rep : Represents m list ns)
    (split : list :: ns = l₁ ++ q :: p :: l₂) :
    Represents (storeLE m q 8 (link m p)) list (ns.erase p) := by
  have nodup := rep.chain.nodup
  have chain := rep.chain
  have words := rep.words
  have head : p ≠ list := by
    rintro rfl
    cases l₁ with
    | nil =>
      obtain ⟨rfl, rfl⟩ := List.cons.inj split
      exact (List.nodup_cons.mp nodup).1 List.mem_cons_self
    | cons r l₁ =>
      obtain ⟨rfl, rfl⟩ := List.cons.inj split
      exact (List.nodup_cons.mp nodup).1 (by simp)
  have same : list :: ns.erase p = l₁ ++ q :: l₂ := by
    rw [← List.erase_cons_tail (by simpa using head.symm), split]
    rw [split] at nodup
    have out : p ∉ l₁ ++ [q] := by
      intro mem
      rw [List.append_cons] at nodup
      exact (List.nodup_append.mp nodup).2.2 p mem p List.mem_cons_self rfl
    rw [List.append_cons, List.erase_append_right _ out, List.erase_cons_head, List.append_assoc]
    rfl
  refine ⟨?_, fun r mem => words r ?_⟩
  · rw [same]
    rw [split] at chain words
    refine chain.unlink (fun r mem ne => ?_) (link_store (link_lt m p))
    exact link_store_ne (words r mem) (words q (by simp)) ne
  · exact List.cons_subset_cons _ List.erase_subset mem

theorem pop (rep : Represents m list ns) :
    (pop m list).1 = ns.head? ∧ Represents (Placed.pop m list).2 list ns.tail := by
  cases ns with
  | nil =>
    rw [Placed.pop, if_pos (rep.isEmpty_iff.mpr rfl)]
    exact ⟨rfl, rep⟩
  | cons p ns =>
    have first : link m list = p := rep.rest.1
    have nonempty : ¬isEmpty m list = true := fun empty => nomatch rep.isEmpty_iff.mp empty
    have split : list :: p :: ns = [] ++ list :: p :: ns := rfl
    have rest := rep.unlink split
    rw [List.erase_cons_head] at rest
    rw [Placed.pop, if_neg nonempty, first]
    exact ⟨rfl, rest⟩

end Represents

/-- The list stands for a sequence: `push` is cons, `pop` is head and tail, an iteration comes to
the nodes in order and to an end, and removing a node that it came to erases this node. What is
written are the head field, the pushed word, and the word before a removed node. -/
theorem list_refines (rep : Represents m list ns) :
    (isEmpty m list = true ↔ ns = []) ∧
      (∀ p, Word p → p ≠ 0 → p ∉ list :: ns →
        Represents (push m list p) list (p :: ns) ∧ ∀ x, Elsewhere [list, p] x →
          push m list p x = m x) ∧
      ((pop m list).1 = ns.head? ∧ Represents (pop m list).2 list ns.tail ∧
        ∀ x, Elsewhere [list] x → (pop m list).2 x = m x) ∧
      ∃ visited, (∀ fuel, ns.length < fuel → visits m fuel (iterMut m list) = .ok visited) ∧
        visited.map ListNode.value = ns ∧
        ∀ n ∈ visited, (n.pop m).1 = n.value ∧ Represents (n.pop m).2 list (ns.erase n.value) ∧
          n.prev ∈ list :: ns ∧
          ∀ x, Elsewhere [n.prev] x → (n.pop m).2 x = m x := by
  refine ⟨rep.isEmpty_iff, fun p word nonnull fresh =>
    ⟨rep.push word nonnull fresh, fun x out => ?_⟩,
    ⟨rep.pop.1, rep.pop.2, fun x out => ?_⟩, nodes list ns, fun fuel enough => rep.visits enough,
    nodes_value list ns, fun n mem => ?_⟩
  · rw [push, store_elsewhere List.mem_cons_self out]
    exact store_elsewhere (List.mem_cons_of_mem _ List.mem_cons_self) out
  · rw [pop]
    split
    · rfl
    · exact store_elsewhere List.mem_cons_self out
  · obtain ⟨l₁, l₂, split⟩ := mem_nodes mem
    have before : n.prev ∈ list :: ns := by
      rw [split]
      exact List.mem_append_right _ List.mem_cons_self
    exact ⟨rfl, rep.unlink split, before, fun x out => store_elsewhere List.mem_cons_self out⟩

theorem empty_represents {list : Nat} (word : Word list) (nonnull : list ≠ 0) :
    Represents (fun _ => 0) list [] := by
  exact ⟨⟨rfl, nonnull, rfl⟩, fun p mem => List.mem_singleton.mp mem ▸ word⟩

/-- Two pushes, a whole iteration, and the removal of the last node. -/
theorem list_refines_twice : ∃ m, visits m 3 (iterMut m 8) = .ok [⟨8, 32⟩, ⟨32, 16⟩] ∧
    Represents (ListNode.pop ⟨32, 16⟩ m).2 8 [32] := by
  have none : Represents (fun _ => 0) 8 [] := empty_represents (by decide) (by decide)
  have one := ((list_refines none).2.1 16 (by decide) (by decide) (by decide)).1
  have two := ((list_refines one).2.1 32 (by decide) (by decide) (by decide)).1
  obtain ⟨-, -, -, visited, all, values, removal⟩ := list_refines two
  have same := (all 3 (by decide)).symm.trans (two.visits (by decide))
  obtain rfl := Except.ok.inj same
  exact ⟨_, all 3 (by decide), (removal ⟨32, 16⟩ (by decide)).2.1⟩

end Operations

end Tacos.Mem.Placed
