/- GID: Tacos/Userproc/Hanging
   generality: I
   source: src/mem/pagetable.rs
   digest: Tables that are made of free pages and hang in one place each, and what is looked up in
     them. -/

import Tacos.Userproc.PageTable
import Mathlib.Data.List.Nodup

set_option autoImplicit false
set_option relaxedAutoImplicit false

namespace Tacos.Userproc

open Tacos.Lib.Exec Tacos.Mem Tacos.Fs
open PageTable (px)

/-- How places are named: that of a root, that of the table under an entry, and the entries under
which a table has its place from the table that they are in. -/
structure Scheme (P : Type) where
  root : Nat → P
  step : P → Fin 512 → P
  inner : P → Entry → Prop
  valid : ∀ p e, inner p e → e.isValid

/-- No table hangs in two places, and none is a free page. -/
structure Grounded {P : Type} (S : Scheme P) (roots : List Nat) (m : Memory)
    (place : Nat → Option P) : Prop where
  nodup : m.kernelFree.Nodup
  sane : ∀ t ∈ m.kernelFree, Sane t
  unplaced : ∀ t ∈ m.kernelFree, place t = none
  placed : ∀ t p, place t = some p → Sane t
  rooted : ∀ t ∈ roots, place t = some (S.root t)
  hangs : ∀ t p i, place t = some p → S.inner p (m.tables t i) →
    place (target (m.tables t i)) = some (S.step p i)

/-- A fresh table `n` was hung under the entry `i` of `t`, which led nowhere. -/
structure Hung (m m' : Memory) (t : Nat) (i : Fin 512) (n : Nat) (e : Entry) : Prop where
  free : m.kernelFree = n :: m'.kernelFree
  invalid : ¬ (m.tables t i).isValid
  valid : e.isValid
  leads : target e = n
  entry : m'.tables t i = e
  blank : ∀ j, m'.tables n j = 0
  other : ∀ t' j, t' ≠ n → t' ≠ t ∨ j ≠ i → m'.tables t' j = m.tables t' j

theorem not_isValid_zero : ¬ Entry.isValid 0 := by decide

section Entries

variable {m : Memory} {e : Entry}

theorem setEntry_of_ne {l t : Nat} {i j : Fin 512} (h : t ≠ l ∨ j ≠ i) :
    (m.setEntry l i e).tables t j = m.tables t j := by
  simp only [Memory.setEntry, Memory.setTable]
  by_cases here : t = l
  · rw [here, Function.update_self, Function.update_of_ne (h.resolve_left fun hne => hne here)]
  · rw [Function.update_of_ne here]

theorem setEntry_self {l : Nat} {i : Fin 512} : (m.setEntry l i e).tables l i = e := by
  simp only [Memory.setEntry, Memory.setTable, Function.update_self]

end Entries

namespace Grounded

variable {P : Type} {S : Scheme P} {roots roots' : List Nat} {m m' : Memory}
  {place : Nat → Option P} {p : P} {t n : Nat} {i : Fin 512} {e : Entry}

theorem fresh (h : Grounded S roots m place) (hn : n ∈ m.kernelFree) (ht : place t = some p) :
    t ≠ n := by
  rintro rfl
  rw [h.unplaced t hn] at ht
  cases ht

theorem old (h : Grounded S roots m place) (hn : n ∈ m.kernelFree) {p' : P}
    (ht : place t = some p) : Function.update place n (some p') t = some p := by
  rw [Function.update_of_ne (h.fresh hn ht), ht]

theorem first (nodup : m.kernelFree.Nodup) (sane : ∀ t ∈ m.kernelFree, Sane t) :
    Grounded S [] m fun _ => none :=
  ⟨nodup, sane, fun _ _ => rfl, nofun, nofun, nofun⟩

theorem less (h : Grounded S roots m place) (tables : m'.tables = m.tables)
    (nodup : m'.kernelFree.Nodup) (sub : ∀ t ∈ m'.kernelFree, t ∈ m.kernelFree) :
    Grounded S roots m' place :=
  ⟨nodup, fun t ht => h.sane t (sub t ht), fun t ht => h.unplaced t (sub t ht), h.placed,
    h.rooted, tables ▸ h.hangs⟩

/-- The first free page becomes a table, at a place of its own. -/
theorem taken (h : Grounded S roots m place) (free : m.kernelFree = n :: m'.kernelFree)
    (here : n ∈ roots' → p = S.root n) (known : ∀ t ∈ roots', t = n ∨ t ∈ roots)
    (hangs : ∀ t q i, Function.update place n (some p) t = some q →
      S.inner q (m'.tables t i) →
        Function.update place n (some p) (target (m'.tables t i)) = some (S.step q i)) :
    Grounded S roots' m' (Function.update place n (some p)) := by
  have mem : n ∈ m.kernelFree := free ▸ List.mem_cons_self
  have rest : ∀ t ∈ m'.kernelFree, t ∈ m.kernelFree :=
    fun t ht => free ▸ List.mem_cons_of_mem _ ht
  have nodup := h.nodup
  rw [free, List.nodup_cons] at nodup
  refine ⟨nodup.2, fun t ht => h.sane t (rest t ht), ?_, ?_, ?_, hangs⟩
  · intro t ht
    rw [Function.update_of_ne (ne_of_mem_of_not_mem ht nodup.1)]
    exact h.unplaced t (rest t ht)
  · intro t q ht
    by_cases new : t = n
    · exact new ▸ h.sane n mem
    · rw [Function.update_of_ne new] at ht
      exact h.placed t q ht
  · intro t ht
    by_cases new : t = n
    · rw [new, Function.update_self, here (new ▸ ht)]
    · exact h.old mem (h.rooted t ((known t ht).resolve_left new))

/-- A new root, whose pointers lead where its own may lead. -/
theorem root (h : Grounded S roots m place) {tab : Table}
    (free : m.kernelFree = n :: m'.kernelFree)
    (tables : m'.tables = Function.update m.tables n tab)
    (known : ∀ t ∈ roots', t = n ∨ t ∈ roots)
    (leads : ∀ i, S.inner (S.root n) (tab i) →
      place (target (tab i)) = some (S.step (S.root n) i)) :
    Grounded S roots' m' (Function.update place n (some (S.root n))) := by
  have mem : n ∈ m.kernelFree := free ▸ List.mem_cons_self
  refine h.taken free (fun _ => rfl) known ?_
  intro t q i ht inner
  rw [tables] at inner ⊢
  by_cases new : t = n
  · rw [new, Function.update_self] at ht inner ⊢
    cases ht
    exact h.old mem (leads i inner)
  · rw [Function.update_of_ne new] at ht inner ⊢
    exact h.old mem (h.hangs t q i ht inner)

theorem hung (h : Grounded S roots m place) (ht : place t = some p) (new : Hung m m' t i n e) :
    Grounded S roots m' (Function.update place n (some (S.step p i))) := by
  have mem : n ∈ m.kernelFree := new.free ▸ List.mem_cons_self
  refine h.taken new.free (fun root => absurd rfl (h.fresh mem (h.rooted n root)))
    (fun t ht => .inr ht) ?_
  intro x q j hx inner
  by_cases hxn : x = n
  · -- The new table leads nowhere yet.
    rw [hxn, new.blank] at inner
    exact absurd (S.valid _ _ inner) not_isValid_zero
  rw [Function.update_of_ne hxn] at hx
  by_cases here : x = t ∧ j = i
  · obtain ⟨rfl, rfl⟩ := here
    rw [ht] at hx
    cases hx
    rw [new.entry, new.leads, Function.update_self]
  · rw [new.other x j hxn (not_and_or.mp here)] at inner ⊢
    exact h.old mem (h.hangs x q j hx inner)

/-- Nothing hangs under the entries of the lowest level. -/
theorem leaf (h : Grounded S roots m place) (ht : place t = some p) (lowest : ∀ e, ¬ S.inner p e)
    (i : Fin 512) (e : Entry) : Grounded S roots (m.setEntry t i e) place := by
  refine ⟨h.nodup, h.sane, h.unplaced, h.placed, h.rooted, ?_⟩
  intro x q j hx inner
  have away : x ≠ t := by
    rintro rfl
    rw [ht] at hx
    cases hx
    exact lowest _ inner
  rw [setEntry_of_ne (.inl away)] at inner ⊢
  exact h.hangs x q j hx inner

/-- Some of the trees go, and with them the places in them. -/
theorem filtered (h : Grounded S roots m place) (keep : P → Prop) [DecidablePred keep]
    (closed : ∀ p i, keep p → keep (S.step p i)) (tables : m'.tables = m.tables)
    (nodup : m'.kernelFree.Nodup)
    (free : ∀ t ∈ m'.kernelFree, Sane t ∧ ∀ p, place t = some p → ¬ keep p)
    (stay : ∀ t ∈ roots', t ∈ roots ∧ keep (S.root t)) :
    Grounded S roots' m' fun t => (place t).filter fun p => keep p := by
  have kept : ∀ t q, (place t).filter (fun p => keep p) = some q ↔ place t = some q ∧ keep q := by
    intro t q
    simp [Option.filter_eq_some_iff]
  refine ⟨nodup, fun t ht => (free t ht).1, ?_, ?_, ?_, ?_⟩
  · intro t ht
    refine Option.filter_eq_none_iff.mpr fun q hq => ?_
    rw [decide_eq_true_iff]
    exact (free t ht).2 q hq
  · exact fun t q ht => h.placed t q ((kept t q).mp ht).1
  · exact fun t ht => (kept t _).mpr ⟨h.rooted t (stay t ht).1, (stay t ht).2⟩
  · intro t q i ht inner
    rw [tables] at inner ⊢
    obtain ⟨ht, keeps⟩ := (kept t q).mp ht
    exact (kept _ _).mpr ⟨h.hangs t q i ht inner, closed q i keeps⟩

end Grounded

def pointerFlag (isGlobal : Bool) : PTEFlags := PTEFlags.v ||| if isGlobal then PTEFlags.g else 0

theorem pointerFlag_lt (isGlobal : Bool) : pointerFlag isGlobal < 2 ^ 8 := by
  cases isGlobal <;> decide

theorem isValid_pointer (pa : Nat) (isGlobal : Bool) :
    Entry.isValid (Entry.new pa (pointerFlag isGlobal)) := by
  rw [Entry.isValid, Entry.flag_new pa (pointerFlag_lt isGlobal)]
  cases isGlobal <;> decide

theorem isGlobal_pointer (pa : Nat) (isGlobal : Bool) :
    Entry.isGlobal (Entry.new pa (pointerFlag isGlobal)) = isGlobal := by
  rw [Entry.isGlobal, Entry.flag_new pa (pointerFlag_lt isGlobal)]
  cases isGlobal <;> decide

section Walk

variable {P : Type} {S : Scheme P} {roots : List Nat} {m m' : Memory} {place : Nat → Option P}
  {p : P} {t l c : Nat} {i : Fin 512} {isGlobal : Bool}

/-- `create` hangs the next free page under an entry that led nowhere. -/
theorem create_hangs (fresh : ∀ n ∈ m.kernelFree, t ≠ n)
    (sane : ∀ n ∈ m.kernelFree, Sane n) (invalid : ¬ (m.tables t i).isValid)
    (ran : PageTable.create t i (pointerFlag isGlobal) m = .ok l m') :
    Hung m m' t i l (Entry.new (l - vmOffset) (pointerFlag isGlobal)) := by
  simp only [PageTable.create, Call.bind_eq_ok, Call.modify_apply, ofVa_ok, Call.pure_apply,
    Outcome.ok.injEq] at ran
  obtain ⟨table, m₁, allocated, pa, m₂, ⟨hpa, -, rfl⟩, _, m₃, ⟨-, rfl⟩, rfl, rfl⟩ := ran
  obtain ⟨free, tables⟩ := new_ok allocated
  have first : table ∈ m.kernelFree := by
    rw [free]
    exact List.mem_cons_self
  have away : t ≠ table := fresh table first
  have small : pointerFlag isGlobal < 2 ^ 10 :=
    Nat.lt_trans (pointerFlag_lt isGlobal) (by decide)
  refine ⟨free, invalid, isValid_pointer _ _, (sane table first).target_new small, ?_, ?_, ?_⟩
  · simp only [Memory.setEntry, Memory.setTable, Function.update_self, hpa]
  · intro j
    simp only [Memory.setEntry, Memory.setTable]
    rw [Function.update_of_ne (Ne.symm away), tables, Function.update_self]
  · intro t' j hn hj
    simp only [Memory.setEntry, Memory.setTable]
    by_cases here : t' = t
    · rw [here] at hj ⊢
      rw [Function.update_self, Function.update_of_ne (hj.resolve_left fun hne => hne rfl), tables,
        Function.update_of_ne away]
    · rw [Function.update_of_ne here, tables, Function.update_of_ne hn]

/-- A step down leads to the table that is there, or hangs a new one. -/
theorem Grounded.walkOrCreate_cases (h : Grounded S roots m place) (ht : place t = some p)
    (below : (m.tables t i).isValid → Sane (target (m.tables t i)))
    (ran : PageTable.walkOrCreate t i isGlobal m = .ok l m') :
    (m.tables t i).isValid ∧ l = target (m.tables t i) ∧ m' = m ∨
      Hung m m' t i l (Entry.new (l - vmOffset) (pointerFlag isGlobal)) := by
  rw [PageTable.walkOrCreate, Call.bind_eq_ok] at ran
  obtain ⟨found, m₁, walked, continued⟩ := ran
  by_cases valid : (m.tables t i).isValid
  · rw [walk_some valid (below valid)] at walked
    cases walked
    cases continued
    exact .inl ⟨valid, rfl, rfl⟩
  · rw [walk_none valid] at walked
    cases walked
    exact .inr (create_hangs (fun n hn => h.fresh hn ht) h.sane valid continued)

/-- A clone has the entries of the kernel's root. -/
theorem clone_ok {kernel : Nat} (away : ∀ n ∈ m.kernelFree, kernel ≠ n)
    (ran : KernelPgTable.clone kernel m = .ok c m') :
    m.kernelFree = c :: m'.kernelFree ∧
      m'.tables = Function.update m.tables c (m.tables kernel) := by
  simp only [KernelPgTable.clone, Call.bind_eq_ok, Call.modify_apply, Call.pure_apply,
    Outcome.ok.injEq] at ran
  obtain ⟨other, m₁, new, -, -, ⟨-, rfl⟩, rfl, rfl⟩ := ran
  obtain ⟨free, tables⟩ := new_ok new
  refine ⟨free, ?_⟩
  simp only [Memory.setTable]
  rw [tables, Function.update_idem, Function.update_of_ne (away other (free ▸ List.mem_cons_self))]

end Walk

abbrev PageIndex := Fin 512 × Fin 512 × Fin 512

def pageIndex (va : Nat) : PageIndex := (px 2 va, px 1 va, px 0 va)

/-- What `get_pte` finds. -/
def found (m : Memory) (c : Nat) (s : PageIndex) : Option Entry :=
  if (m.tables c s.1).isValid then
    if (m.tables (target (m.tables c s.1)) s.2.1).isValid then
      some (m.tables (target (m.tables (target (m.tables c s.1)) s.2.1)) s.2.2)
    else none
  else none

/-- Places are the indexes that lead to a table, the last one first, from whichever root. -/
def homes : Scheme (List (Fin 512)) where
  root _ := []
  step q i := i :: q
  inner q e := q.length < 2 ∧ e.isValid
  valid _ _ inner := inner.2

/-- Each table hangs at the indexes that lead to it. -/
abbrev Homed (roots : List Nat) (m : Memory) (home : Nat → Option (List (Fin 512))) : Prop :=
  Grounded homes roots m home

section Homes

variable {rs : List Nat} {m : Memory} {home : Nat → Option (List (Fin 512))} {c : Nat}

theorem Homed.roots (h : Homed rs m home) : ∀ t ∈ rs, home t = some [] := h.rooted

theorem Homed.descends (h : Homed rs m home) (t : Nat) (q : List (Fin 512)) (i : Fin 512)
    (ht : home t = some q) (hq : q.length < 2) (valid : (m.tables t i).isValid) :
    home (target (m.tables t i)) = some (i :: q) := h.hangs t q i ht ⟨hq, valid⟩

theorem Homed.getPte_eq (h : Homed rs m home) (hc : c ∈ rs) (va : Nat) :
    PageTable.getPte c va m = .ok (found m c (pageIndex va)) m := by
  rw [PageTable.getPte, found, pageIndex]
  by_cases two : (m.tables c (px 2 va)).isValid
  · have below := h.descends c [] (px 2 va) (h.roots c hc) (by decide) two
    rw [if_pos two, Call.bind_ok (walk_some two (h.placed _ _ below))]
    dsimp only
    by_cases one : (m.tables (target (m.tables c (px 2 va))) (px 1 va)).isValid
    · have bottom := h.descends _ [px 2 va] (px 1 va) below Nat.one_lt_two one
      rw [if_pos one, Call.bind_ok (walk_some one (h.placed _ _ bottom))]
    · rw [if_neg one, Call.bind_ok (walk_none one)]
      rfl
  · rw [if_neg two, Call.bind_ok (walk_none two)]
    rfl

end Homes

/-- The partial map that a page table stands for. -/
def view (m : Memory) (c : Nat) (s : PageIndex) : Option Entry := (found m c s).filter Entry.isValid

section Views

variable {roots : List Nat} {m m' : Memory} {home home' : Nat → Option (List (Fin 512))} {c : Nat}

theorem Homed.hung_view (h : Homed roots m home) {t n : Nat} {q : List (Fin 512)}
    {i : Fin 512} {e : Entry}
    (ht : home t = some q) (hq : q.length < 2) (new : Hung m m' t i n e)
    {r : Nat} (hr : r ∈ roots) :
    view m' r = view m r := by
  have first : n ∈ m.kernelFree := new.free ▸ List.mem_cons_self
  have same : ∀ x p j, home x = some p → ¬(x = t ∧ j = i) → m'.tables x j = m.tables x j :=
    fun x p j hx away => new.other x j (h.fresh first hx) (not_and_or.mp away)
  ext1 s
  rw [view, view, found, found]
  by_cases atRoot : r = t ∧ s.1 = i
  · obtain ⟨rfl, rfl⟩ := atRoot
    rw [new.entry, new.leads, new.blank, if_pos new.valid,
      if_neg not_isValid_zero, if_neg new.invalid]
  rw [same r [] s.1 (h.roots r hr) atRoot]
  by_cases two : (m.tables r s.1).isValid
  · have below := h.descends r [] s.1 (h.roots r hr) (by decide) two
    rw [if_pos two, if_pos two]
    by_cases atMiddle : target (m.tables r s.1) = t ∧ s.2.1 = i
    · obtain ⟨rfl, rfl⟩ := atMiddle
      rw [new.entry, new.leads, new.blank, if_pos new.valid, if_neg new.invalid, Option.filter_some,
        if_neg not_isValid_zero, Option.filter_none]
    rw [same _ _ s.2.1 below atMiddle]
    by_cases one : (m.tables (target (m.tables r s.1)) s.2.1).isValid
    · have bottom := h.descends _ _ s.2.1 below Nat.one_lt_two one
      rw [if_pos one, if_pos one, same _ _ s.2.2 bottom]
      rintro ⟨rfl, -⟩
      rw [bottom] at ht
      cases ht
      exact absurd hq (Nat.lt_irrefl 2)
    · rw [if_neg one, if_neg one]
  · rw [if_neg two, if_neg two]

theorem Homed.setLeaf_view (h : Homed roots m home) {l : Nat} {i j : Fin 512}
    (hl : home l = some [j, i]) (k : Fin 512)
    (e : Entry) {r : Nat} (hr : r ∈ roots) {s : PageIndex} (other : s ≠ (i, j, k)) :
    view (m.setEntry l k e) r s = view m r s := by
  have same : ∀ x p j', home x = some p → p.length < 2 →
    (m.setEntry l k e).tables x j' = m.tables x j' := by
    intro x p j' hx hp
    refine setEntry_of_ne (.inl ?_)
    rintro rfl
    rw [hl] at hx
    cases hx
    exact absurd hp (Nat.lt_irrefl 2)
  rw [view, view, found, found, same r [] s.1 (h.roots r hr) (by decide)]
  by_cases two : (m.tables r s.1).isValid
  · have below := h.descends r [] s.1 (h.roots r hr) (by decide) two
    rw [if_pos two, if_pos two, same _ _ s.2.1 below Nat.one_lt_two]
    by_cases one : (m.tables (target (m.tables r s.1)) s.2.1).isValid
    · have bottom := h.descends _ _ s.2.1 below Nat.one_lt_two one
      rw [if_pos one, if_pos one, setEntry_of_ne]
      by_contra here
      push Not at here
      rw [here.1, hl] at bottom
      cases bottom
      exact other (Prod.ext rfl (Prod.ext rfl here.2))
    · rw [if_neg one, if_neg one]
  · rw [if_neg two, if_neg two]

/-- The table below the entry `i` of `t` is there now. -/
structure Descended (roots : List Nat) (m m' : Memory)
    (home home' : Nat → Option (List (Fin 512))) (t : Nat)
    (q : List (Fin 512)) (i : Fin 512) (l : Nat) : Prop where
  homed : Homed roots m' home'
  below : home' l = some (i :: q)
  valid : (m'.tables t i).isValid
  leads : target (m'.tables t i) = l
  kept : ∀ x p, home x = some p → home' x = some p
  other : ∀ x p j, home x = some p → x ≠ t ∨ j ≠ i → m'.tables x j = m.tables x j
  view : ∀ r ∈ roots, view m' r = view m r

theorem walkOrCreate_descended (h : Homed roots m home) {t l : Nat}
    {q : List (Fin 512)} {i : Fin 512}
    {isGlobal : Bool} (ht : home t = some q) (hq : q.length < 2)
    (ran : PageTable.walkOrCreate t i isGlobal m = .ok l m') :
    ∃ home', Descended roots m m' home home' t q i l := by
  have below : (m.tables t i).isValid → Sane (target (m.tables t i)) :=
    fun valid => h.placed _ _ (h.descends t q i ht hq valid)
  rcases h.walkOrCreate_cases ht below ran with ⟨valid, rfl, rfl⟩ | new
  · exact ⟨home, h, h.descends t q i ht hq valid, valid, rfl, fun _ _ => id,
      fun _ _ _ _ _ => rfl, fun _ _ => rfl⟩
  · have first : l ∈ m.kernelFree := new.free ▸ List.mem_cons_self
    refine ⟨_, h.hung ht new, Function.update_self .., new.entry ▸ new.valid,
      new.entry ▸ new.leads, ?_, ?_, ?_⟩
    · intro x p hx
      rw [Function.update_of_ne (h.fresh first hx), hx]
    · exact fun x p j hx => new.other x j (h.fresh first hx)
    · exact fun r hr => h.hung_view ht hq new hr

/-- What mapping a page through the root `c` comes to, the other roots included. -/
structure Overwritten (roots : List Nat) (m m' : Memory)
    (home' : Nat → Option (List (Fin 512))) (c : Nat)
    (s : PageIndex) (e : Entry) : Prop where
  homed : Homed roots m' home'
  here : e.isValid → view m' c s = some e
  other : ∀ r ∈ roots, ∀ s', s' ≠ s → view m' r s' = view m r s'

theorem mapPage_overwritten (h : Homed roots m home) (hc : c ∈ roots)
    {pa va : Nat} {flag : PTEFlags}
    (ran : PageTable.mapPage c pa va flag m = .ok () m') :
    ∃ home', Overwritten roots m m' home' c (pageIndex va) (.new pa flag) := by
  simp only [PageTable.mapPage, Call.bind_eq_ok, Call.modify_apply, Outcome.ok.injEq] at ran
  obtain ⟨l₁, m₁, ran₁, l₀, m₂, ran₂, -, rfl⟩ := ran
  obtain ⟨home₁, s₁⟩ := walkOrCreate_descended h (h.roots c hc) (by decide) ran₁
  obtain ⟨home₂, s₂⟩ := walkOrCreate_descended s₁.homed s₁.below Nat.one_lt_two ran₂
  have atMiddle := s₂.kept l₁ _ s₁.below
  have atRoot := s₂.homed.roots c hc
  have rootMiddle : c ≠ l₁ := by
    rintro rfl
    rw [atMiddle] at atRoot
    cases atRoot
  have rootBottom : c ≠ l₀ := by
    rintro rfl
    rw [s₂.below] at atRoot
    cases atRoot
  have middleBottom : l₁ ≠ l₀ := by
    rintro rfl
    rw [s₂.below] at atMiddle
    exact absurd (congrArg List.length (Option.some.inj atMiddle)) (Nat.succ_ne_self 1)
  refine ⟨home₂, s₂.homed.leaf s₂.below (fun _ inner => Nat.lt_irrefl 2 inner.1)
    (px 0 va) _, ?_, ?_⟩
  · intro valid
    have two : m₂.tables c (px 2 va) = m₁.tables c (px 2 va) :=
      s₂.other c _ _ (s₁.homed.roots c hc) (.inl rootMiddle)
    rw [view, found, pageIndex]
    simp only
    rw [setEntry_of_ne (.inl rootBottom), two, if_pos s₁.valid, s₁.leads,
      setEntry_of_ne (.inl middleBottom),
      if_pos s₂.valid, s₂.leads, setEntry_self, Option.filter_some, if_pos valid]
  · intro r hr s other
    rw [s₂.homed.setLeaf_view s₂.below (px 0 va) _ hr other, s₂.view r hr, s₁.view r hr]

end Views

end Tacos.Userproc
