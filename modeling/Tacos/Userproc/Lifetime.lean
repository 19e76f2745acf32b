/- GID: Tacos/Userproc/Lifetime
   generality: I
   source: src/mem/pagetable.rs
   digest: How the trees of the address spaces come and go, and what an address is translated to. -/

import Tacos.Userproc.Spaces

set_option autoImplicit false
set_option relaxedAutoImplicit false

namespace Tacos.Userproc

open Tacos.Lib.Exec Tacos.Mem Tacos.Fs
open PageTable (px)

variable {kernel : Nat} {users : List Nat} {m m' : Memory} {place : Nat → Option Place}

/-- The valid mapping of an address: the entry that `get_pte` finds, if it is valid. -/
def PageTable.seen (m : Memory) (t va : Nat) : Option Entry :=
  match getPte t va m with
  | .ok (some e) _ => if e.isValid then some e else none
  | _ => none

theorem found_eq_some {c va : Nat} {e : Entry} :
    found m c (pageIndex va) = some e ↔ Leads m c va e := by
  rw [found, pageIndex, Leads]
  by_cases two : (m.tables c (px 2 va)).isValid
  · by_cases one : (m.tables (target (m.tables c (px 2 va))) (px 1 va)).isValid
    · simp [two, one]
    · simp [two, one]
  · simp [two]

theorem seen_of_getPte {c va : Nat} {r : Option Entry} (ran : PageTable.getPte c va m = .ok r m) :
    PageTable.seen m c va = r.filter Entry.isValid := by
  rw [PageTable.seen, ran]
  cases r with
  | none => rfl
  | some e => exact (Option.filter_some ..).symm

theorem Planted.seen_iff (h : Planted kernel users m place) {c va : Nat} (hc : c ∈ kernel :: users)
    {e : Entry} : PageTable.seen m c va = some e ↔ Leads m c va e ∧ e.isValid := by
  rw [seen_of_getPte (h.homed.getPte_eq hc va), Option.filter_eq_some_iff, found_eq_some]

theorem Planted.first (nodup : m.kernelFree.Nodup) (sane : ∀ t ∈ m.kernelFree, Sane t) {root : Nat}
    (ran : PageTable.new m = .ok root m') :
    Planted root [] m' (Function.update (fun _ => none) root (some (root, []))) := by
  obtain ⟨free, tables⟩ := new_ok ran
  have blank : ∀ i, ¬ (m'.tables root i).isValid := by
    intro i
    rw [tables, Function.update_self]
    exact not_isValid_zero
  have known : ∀ t ∈ [root], t = root ∨ t ∈ [] := fun t ht => .inl (List.mem_singleton.mp ht)
  refine ⟨(Grounded.first nodup sane).root free tables known ?_, List.nodup_singleton root, ?_, ?_,
    ?_⟩
  · exact fun i inner => absurd inner.2.1 not_isValid_zero
  · exact fun _ ht => nomatch ht
  · exact fun _ ht => nomatch ht
  · exact fun i valid => absurd valid (blank i)

theorem Planted.cloned (h : Planted kernel users m place) {c : Nat}
    (ran : KernelPgTable.clone kernel m = .ok c m') :
    Planted kernel (c :: users) m' (Function.update place c (some (c, []))) ∧
      place c = none ∧ m'.tables c = m.tables kernel ∧
      ∀ t p, place t = some p → m'.tables t = m.tables t := by
  obtain ⟨free, tables⟩ :=
    clone_ok (fun n hn => h.fresh hn (h.roots kernel List.mem_cons_self)) ran
  have first : c ∈ m.kernelFree := free ▸ List.mem_cons_self
  have away : ∀ t p, place t = some p → t ≠ c := fun t p ht => h.fresh first ht
  have atKernel := away kernel _ (h.roots kernel List.mem_cons_self)
  have copied : m'.tables c = m.tables kernel := by
    rw [tables, Function.update_self]
  have kept : ∀ t p, place t = some p → m'.tables t = m.tables t := by
    intro t p ht
    rw [tables, Function.update_of_ne (away t p ht)]
  have keptKernel := kept kernel _ (h.roots kernel List.mem_cons_self)
  refine ⟨?_, h.unplaced c first, copied, kept⟩
  constructor
  case toGrounded =>
    refine h.toGrounded.root free tables (fun t ht => ?_) fun i inner => ?_
    · simp only [List.mem_cons] at ht ⊢
      tauto
    · -- Whatever the copy holds is global.
      exact absurd (h.upper i inner.2.1).1 (inner.2.2 rfl (Ne.symm atKernel))
  case apart =>
    have fresh : c ∉ kernel :: users := fun hmem => away c _ (h.roots c hmem) rfl
    have apart := h.apart
    simp only [List.nodup_cons, List.mem_cons, not_or] at apart fresh ⊢
    exact ⟨⟨Ne.symm fresh.1, apart.1⟩, fresh.2, apart.2⟩
  case inherits =>
    intro t ht i valid global
    rw [keptKernel]
    rcases List.mem_cons.mp ht with rfl | user
    · rw [copied]
    · rw [kept t _ (h.roots t (List.mem_cons_of_mem _ user))] at valid global ⊢
      exact h.inherits t user i valid global
  case shares =>
    intro t ht i valid
    rw [keptKernel] at valid ⊢
    rcases List.mem_cons.mp ht with rfl | user
    · rw [copied]
    · rw [kept t _ (h.roots t (List.mem_cons_of_mem _ user))]
      exact h.shares t user i valid
  case upper =>
    intro i valid
    rw [keptKernel] at valid ⊢
    exact h.upper i valid

namespace PageTable

/-- The tables that go when a table goes, given those that go with the tables below. -/
def freedWith (freed : Nat → List Nat) (tab : Table) (t : Nat) : List Nat :=
  (ownEntries tab).flatMap (fun e => if e.isLeaf then [] else freed (target e)) ++ [t]

/-- The tables that `destroy_imp` frees, in this order. -/
def freed (tables : Nat → Table) : Nat → Nat → List Nat
  | 0, t => freedWith (fun _ => []) (tables t) t
  | level + 1, t => freedWith (freed tables level) (tables t) t

/-- A call that frees these tables and writes none. -/
def Frees (x : M Unit) (ts : (Nat → Table) → List Nat) : Prop :=
  ∀ m m', x m = .ok () m' → m'.tables = m.tables ∧ m'.kernelFree =
    (ts m.tables).reverse ++ m.kernelFree

theorem forEach_frees {α : Type} {f : α → M Unit} {ts : α → (Nat → Table) → List Nat}
    (h : ∀ a, Frees (f a) (ts a)) (as : List α) :
    Frees (forEach f as) fun tables => as.flatMap fun a => ts a tables := by
  induction as with
  | nil =>
    intro m m' ran
    cases ran
    exact ⟨rfl, rfl⟩
  | cons a as ih =>
    intro m m' ran
    rw [forEach, Call.bind_eq_ok] at ran
    obtain ⟨_, m₁, first, rest⟩ := ran
    obtain ⟨tables₁, free₁⟩ := h a m m₁ first
    obtain ⟨tables₂, free₂⟩ := ih m₁ m' rest
    refine ⟨tables₂.trans tables₁, ?_⟩
    simp only [free₂, free₁, tables₁, List.flatMap_cons, List.reverse_append, List.append_assoc]

theorem destroyEntry_frees {level : Nat} {below : PageTable → M Unit}
    {ts : Nat → (Nat → Table) → List Nat} (h : ∀ t, Frees (below t) (ts t)) (e : Entry) :
    Frees (destroyEntry level below e) fun tables =>
      if e.isLeaf then [] else ts (target e) tables := by
  intro m m' ran
  simp only [destroyEntry, PhysAddr.intoVa, Call.bind_eq_ok, addUsize_ok] at ran
  obtain ⟨va, m₁, ⟨rfl, -, rfl⟩, continued⟩ := ran
  by_cases leaf : e.isLeaf
  · rw [if_pos leaf] at continued
    simp only [if_pos leaf]
    cases continued
    exact ⟨rfl, rfl⟩
  · rw [if_neg leaf, Call.bind_eq_ok] at continued
    simp only [if_neg leaf]
    obtain ⟨t, m₂, raw, ran⟩ := continued
    obtain ⟨rfl, -, rfl⟩ := fromRaw_ok.mp raw
    exact h _ _ _ ran

theorem destroyAt_frees {level : Nat} {below : PageTable → M Unit}
    {ts : Nat → (Nat → Table) → List Nat} (h : ∀ t, Frees (below t) (ts t)) (t : PageTable) :
    Frees (destroyAt level below t) fun tables =>
      freedWith (fun l => ts l tables) (tables t) t := by
  intro m m' ran
  simp only [destroyAt, Call.get_bind, Call.bind_eq_ok, kfree, Call.modify_apply, Outcome.ok.injEq]
    at ran
  obtain ⟨_, m₁, all, -, rfl⟩ := ran
  obtain ⟨tables, free⟩ := forEach_frees (destroyEntry_frees h) _ m m₁ all
  refine ⟨tables, ?_⟩
  simp only [free, freedWith, List.reverse_append, List.reverse_singleton, List.cons_append,
    List.nil_append]

theorem destroyImp_frees (level : Nat) (t : PageTable) :
    Frees (destroyImp level t) fun tables => freed tables level t := by
  induction level generalizing t with
  | zero =>
    have below : ∀ t : Nat, Frees (Call.halt .overflow) fun _ => [] := fun _ _ _ ran => nomatch ran
    exact destroyAt_frees below t
  | succ level ih => exact destroyAt_frees ih t

end PageTable

theorem mem_ownEntries {tab : Table} {e : Entry} (h : e ∈ PageTable.ownEntries tab) :
    ∃ i, tab i = e ∧ e.isValid ∧ ¬ e.isGlobal := by
  simp only [PageTable.ownEntries, List.mem_filter, List.mem_map, List.mem_finRange, true_and,
    Bool.and_eq_true, Bool.not_eq_true'] at h
  obtain ⟨⟨i, hi⟩, valid, local'⟩ := h
  exact ⟨i, hi, valid, by simp [local']⟩

theorem Planted.freed_below (h : Planted kernel users m place) (level : Nat) :
    ∀ {t r : Nat} {q : List (Fin 512)}, place t = some (r, q) → q.length + level = 2 →
      ∀ x ∈ PageTable.freed m.tables level t, ∃ q', place x = some (r, q') ∧ q <:+ q' := by
  induction level with
  | zero =>
    intro t r q ht _ x hx
    have here : x = t := by
      simpa [PageTable.freed, PageTable.freedWith] using hx
    exact ⟨q, here ▸ ht, List.suffix_refl q⟩
  | succ level ih =>
    intro t r q ht hq x hx
    rw [PageTable.freed, PageTable.freedWith, List.mem_append, List.mem_flatMap] at hx
    rcases hx with ⟨e, he, hx⟩ | hx
    · obtain ⟨i, rfl, valid, own⟩ := mem_ownEntries he
      by_cases leaf : (m.tables t i).isLeaf
      · rw [if_pos leaf] at hx
        exact absurd hx List.not_mem_nil
      · rw [if_neg leaf] at hx
        have down := h.descends t r q i ht (by omega) valid fun _ _ => own
        obtain ⟨q', hx', suffix⟩ := ih down (by rw [List.length_cons]; omega) x hx
        exact ⟨q', hx', (List.suffix_cons i q).trans suffix⟩
    · exact ⟨q, List.mem_singleton.mp hx ▸ ht, List.suffix_refl q⟩

theorem Planted.nodup_freed (h : Planted kernel users m place) (level : Nat) :
    ∀ {t r : Nat} {q : List (Fin 512)}, place t = some (r, q) → q.length + level = 2 →
      (PageTable.freed m.tables level t).Nodup := by
  induction level with
  | zero =>
    intro t r q ht _
    have single : PageTable.freed m.tables 0 t = [t] := by
      simp [PageTable.freed, PageTable.freedWith]
    rw [single]
    exact List.nodup_singleton t
  | succ level ih =>
    intro t r q ht hq
    have down : ∀ i, (m.tables t i).isValid → ¬ (m.tables t i).isGlobal →
        place (target (m.tables t i)) = some (r, i :: q) :=
      fun i valid own => h.descends t r q i ht (by omega) valid fun _ _ => own
    have longer : ∀ i : Fin 512, (i :: q).length + level = 2 := by
      intro i
      rw [List.length_cons]
      omega
    rw [PageTable.freed, PageTable.freedWith, PageTable.ownEntries,
      List.filter_map, List.flatMap_map,
      List.nodup_append']
    refine ⟨List.nodup_flatMap.mpr ⟨?_, ?_⟩, List.nodup_singleton t, ?_⟩
    · intro i hi
      simp only [List.mem_filter, Function.comp_apply, Bool.and_eq_true, Bool.not_eq_true'] at hi
      split
      · exact List.nodup_nil
      · exact ih (down i hi.2.1 (by simp [hi.2.2])) (longer i)
    · refine List.Pairwise.imp_of_mem ?_ ((List.nodup_finRange 512).filter _)
      intro i j hi hj hne
      simp only [List.mem_filter, Function.comp_apply, Bool.and_eq_true, Bool.not_eq_true'] at hi hj
      change List.Disjoint _ _
      rw [List.disjoint_left]
      intro x hx hx'
      beta_reduce at hx hx'
      split at hx
      · exact absurd hx List.not_mem_nil
      split at hx'
      · exact absurd hx' List.not_mem_nil
      -- A table hangs below at most one of the two entries.
      obtain ⟨q₁, h₁, s₁⟩ := h.freed_below level (down i hi.2.1 (by simp [hi.2.2])) (longer i) x hx
      obtain ⟨q₂, h₂, s₂⟩ := h.freed_below level (down j hj.2.1 (by simp [hj.2.2])) (longer j) x hx'
      rw [h₁] at h₂
      cases h₂
      obtain ⟨u, hu⟩ := s₁
      obtain ⟨v, hv⟩ := s₂
      have same := (List.append_inj' (hu.trans hv.symm) rfl).2
      cases same
      exact hne rfl
    · rw [List.disjoint_singleton]
      intro ht'
      obtain ⟨i, hi, hx⟩ := List.mem_flatMap.mp ht'
      simp only [List.mem_filter, Function.comp_apply, Bool.and_eq_true, Bool.not_eq_true'] at hi
      split at hx
      · exact absurd hx List.not_mem_nil
      obtain ⟨q₁, h₁, s₁⟩ := h.freed_below level (down i hi.2.1 (by simp [hi.2.2])) (longer i) t hx
      rw [ht] at h₁
      cases h₁
      have := s₁.length_le
      rw [List.length_cons] at this
      omega

theorem Planted.destroyed (h : Planted kernel users m place) {c : Nat} (hc : c ∈ users)
    (ran : PageTable.destroy c m = .ok () m') :
    Planted kernel (users.erase c) m' (fun t => (place t).filter fun p => p.1 ≠ c) ∧
      m'.tables = m.tables := by
  obtain ⟨tables, free⟩ := PageTable.destroyImp_frees 2 c m m' ran
  have placeC := h.roots c (List.mem_cons_of_mem _ hc)
  have gone := h.freed_below 2 placeC rfl
  have nodup := h.nodup_freed 2 placeC rfl
  have apart := h.apart
  rw [List.nodup_cons] at apart
  have others : ∀ t ∈ users.erase c, t ∈ users ∧ t ≠ c := by
    intro t ht
    exact ((List.Nodup.mem_erase_iff apart.2).mp ht).symm
  have kernelNe : kernel ≠ c := by
    rintro rfl
    exact apart.1 hc
  refine ⟨?_, tables⟩
  constructor
  case toGrounded =>
    refine h.toGrounded.filtered (fun p => p.1 ≠ c) (fun _ _ keeps => keeps) tables ?_ ?_ ?_
    · rw [free]
      refine List.nodup_append'.mpr ⟨List.nodup_reverse.mpr nodup, h.nodup, ?_⟩
      intro x hx hfree
      obtain ⟨q', hx', -⟩ := gone x (List.mem_reverse.mp hx)
      rw [h.unplaced x hfree] at hx'
      cases hx'
    · intro t ht
      rw [free, List.mem_append, List.mem_reverse] at ht
      rcases ht with ht | ht
      · obtain ⟨q', ht', -⟩ := gone t ht
        refine ⟨h.placed t _ ht', fun p hp => ?_⟩
        rw [ht', Option.some.injEq] at hp
        exact fun ne => ne (congrArg Prod.fst hp).symm
      · refine ⟨h.sane t ht, fun p hp => ?_⟩
        rw [h.unplaced t ht] at hp
        cases hp
    · intro t ht
      rcases List.mem_cons.mp ht with rfl | user
      · exact ⟨List.mem_cons_self, kernelNe⟩
      · exact ⟨List.mem_cons_of_mem _ (others t user).1, (others t user).2⟩
  case apart =>
    exact List.nodup_cons.mpr ⟨fun hmem => apart.1 (others kernel hmem).1, apart.2.erase c⟩
  case inherits =>
    intro t ht
    rw [tables]
    exact h.inherits t (others t ht).1
  case shares =>
    intro t ht
    rw [tables]
    exact h.shares t (others t ht).1
  case upper =>
    rw [tables]
    exact h.upper

end Tacos.Userproc
