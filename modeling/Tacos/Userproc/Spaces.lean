/- GID: Tacos/Userproc/Spaces
   generality: I
   source: src/mem/pagetable.rs
   digest: Where the tables of the address spaces hang, and what mapping a page does to them. -/

import Tacos.Userproc.Hanging

set_option autoImplicit false
set_option relaxedAutoImplicit false

namespace Tacos.Userproc

open Tacos.Lib.Exec Tacos.Mem Tacos.Fs

/-- Where a table hangs: the root above it and the indexes that lead to it, the last one first. -/
abbrev Place := Nat × List (Fin 512)

/-- A user's root shares the kernel's subtrees and holds its own ones under entries that are not
global. -/
def spaces (kernel : Nat) : Scheme Place where
  root t := (t, [])
  step p i := (p.1, i :: p.2)
  inner p e := p.2.length < 2 ∧ e.isValid ∧ (p.2 = [] → p.1 ≠ kernel → ¬ e.isGlobal)
  valid _ _ inner := inner.2.1

/-- The tables of the kernel's and the users' address spaces hang in trees, and the kernel's are
the same in all of them. -/
structure Planted (kernel : Nat) (users : List Nat) (m : Memory) (place : Nat → Option Place) : Prop
    extends Grounded (spaces kernel) (kernel :: users) m place where
  apart : (kernel :: users).Nodup
  inherits : ∀ t ∈ users, ∀ i, (m.tables t i).isValid → (m.tables t i).isGlobal →
    m.tables t i = m.tables kernel i
  shares : ∀ t ∈ users, ∀ i, (m.tables kernel i).isValid → m.tables t i = m.tables kernel i
  upper : ∀ i, (m.tables kernel i).isValid → (m.tables kernel i).isGlobal ∧ 256 ≤ i.val

namespace Planted

variable {kernel : Nat} {users : List Nat} {m : Memory} {place : Nat → Option Place}

theorem roots (h : Planted kernel users m place) : ∀ t ∈ kernel :: users, place t = some (t, []) :=
  h.rooted

theorem descends (h : Planted kernel users m place) (t r : Nat) (q : List (Fin 512)) (i : Fin 512)
    (ht : place t = some (r, q)) (hq : q.length < 2) (valid : (m.tables t i).isValid)
    (own : q = [] → r ≠ kernel → ¬ (m.tables t i).isGlobal) :
    place (target (m.tables t i)) = some (r, i :: q) := h.hangs t (r, q) i ht ⟨hq, valid, own⟩

end Planted

/-- What the tables of one memory keep in a later one: their places, the pointers in them, and
that a user page is mapped. -/
structure Grown (m m' : Memory) (place place' : Nat → Option Place) : Prop where
  places : ∀ t p, place t = some p → place' t = some p
  pointers : ∀ t r q i, place t = some (r, q) → q.length < 2 → (m.tables t i).isValid →
    m'.tables t i = m.tables t i
  leaves : ∀ t r q i, place t = some (r, q) → q.length = 2 →
    (m.tables t i).isValid ∧ (m.tables t i).isUser →
    (m'.tables t i).isValid ∧ (m'.tables t i).isUser

namespace Grown

variable {m m₁ m₂ : Memory} {place place₁ place₂ : Nat → Option Place}

theorem refl (m : Memory) (place : Nat → Option Place) : Grown m m place place :=
  ⟨fun _ _ h => h, fun _ _ _ _ _ _ _ => rfl, fun _ _ _ _ _ _ h => h⟩

theorem trans (h₁ : Grown m m₁ place place₁) (h₂ : Grown m₁ m₂ place₁ place₂) :
    Grown m m₂ place place₂ := by
  refine ⟨fun t p h => h₂.places t p (h₁.places t p h), ?_, ?_⟩
  · intro t r q i ht hq valid
    have first := h₁.pointers t r q i ht hq valid
    have second := h₂.pointers t r q i (h₁.places t _ ht) hq (first ▸ valid)
    exact second.trans first
  · intro t r q i ht hq mapped
    exact h₂.leaves t r q i (h₁.places t _ ht) hq (h₁.leaves t r q i ht hq mapped)

end Grown

/-- Only tables of one address space are new or have changed. -/
def Within (owner : Nat) (m m' : Memory) (place place' : Nat → Option Place) : Prop :=
  ∀ t r q, place' t = some (r, q) → r ≠ owner → place t = some (r, q) ∧ m'.tables t = m.tables t

theorem Within.trans {owner : Nat} {m m₁ m₂ : Memory} {place place₁ place₂ : Nat → Option Place}
    (h₁ : Within owner m m₁ place place₁) (h₂ : Within owner m₁ m₂ place₁ place₂) :
    Within owner m m₂ place place₂ := by
  intro t r q ht hr
  obtain ⟨ht₁, same₂⟩ := h₂ t r q ht hr
  obtain ⟨ht₀, same₁⟩ := h₁ t r q ht₁ hr
  exact ⟨ht₀, same₂.trans same₁⟩

section Walk

variable {kernel : Nat} {users : List Nat} {m m' : Memory} {place : Nat → Option Place}

/-- The table under a valid entry belongs to the same address space, or to the kernel's if the
entry is one that the root of a user's space has from the kernel's. -/
theorem Planted.descend (h : Planted kernel users m place) {t r : Nat} {q : List (Fin 512)}
    {i : Fin 512} (ht : place t = some (r, q)) (hq : q.length < 2)
    (root : q = [] → t ∈ kernel :: users)
    (valid : (m.tables t i).isValid) :
    place (target (m.tables t i)) = some (r, i :: q) ∨
      q = [] ∧ r ≠ kernel ∧ (m.tables kernel i).isValid ∧
        place (target (m.tables t i)) = some (kernel, [i]) := by
  by_cases own : q = [] → r ≠ kernel → ¬ (m.tables t i).isGlobal
  · exact .inl (h.descends t r q i ht hq valid own)
  · push Not at own
    obtain ⟨rfl, hr, global⟩ := own
    have user : t ∈ users := by
      rcases List.mem_cons.mp (root rfl) with rfl | user
      · rw [h.roots t List.mem_cons_self] at ht
        cases ht
        exact absurd rfl hr
      · exact user
    have same := h.inherits t user i valid global
    have below := h.descends kernel kernel [] i (h.roots kernel List.mem_cons_self) (by decide)
      (same ▸ valid) (fun _ hne => absurd rfl hne)
    exact .inr ⟨rfl, hr, same ▸ valid, same ▸ below⟩

theorem Planted.sane_target (h : Planted kernel users m place) {t r : Nat} {q : List (Fin 512)}
    {i : Fin 512} (ht : place t = some (r, q)) (hq : q.length < 2)
    (root : q = [] → t ∈ kernel :: users) (valid : (m.tables t i).isValid) :
    Sane (target (m.tables t i)) := by
  rcases h.descend ht hq root valid with down | ⟨-, -, -, down⟩
  · exact h.placed _ _ down
  · exact h.placed _ _ down

/-- The places in a space, without the space: tables that hang under no root are left out. -/
def homeOf (roots : List Nat) (place : Nat → Option Place) (t : Nat) : Option (List (Fin 512)) :=
  ((place t).filter fun p => p.2 = [] → t ∈ roots).map Prod.snd

theorem homeOf_eq_some {roots : List Nat} {t : Nat} {q : List (Fin 512)} :
    homeOf roots place t = some q ↔ (∃ r, place t = some (r, q)) ∧ (q = [] → t ∈ roots) := by
  simp only [homeOf, Option.map_eq_some_iff, Option.filter_eq_some_iff, decide_eq_true_iff]
  constructor
  · rintro ⟨⟨r, q'⟩, ⟨here, root⟩, rfl⟩
    exact ⟨⟨r, here⟩, root⟩
  · rintro ⟨⟨r, here⟩, root⟩
    exact ⟨(r, q), ⟨here, root⟩, rfl⟩

/-- In trees of address spaces every table hangs at the indexes that lead to it, also those that a
space has from the kernel's. -/
theorem Planted.homed (h : Planted kernel users m place) :
    Homed (kernel :: users) m (homeOf (kernel :: users) place) := by
  refine ⟨h.nodup, h.sane, ?_, ?_, ?_, ?_⟩
  · intro t ht
    rw [homeOf, h.unplaced t ht]
    rfl
  · intro t q ht
    obtain ⟨⟨r, here⟩, -⟩ := homeOf_eq_some.mp ht
    exact h.placed t _ here
  · exact fun t ht => homeOf_eq_some.mpr ⟨⟨t, h.roots t ht⟩, fun _ => ht⟩
  · intro t q i ht inner
    obtain ⟨⟨r, here⟩, root⟩ := homeOf_eq_some.mp ht
    refine homeOf_eq_some.mpr ⟨?_, fun none => absurd none (List.cons_ne_nil i q)⟩
    rcases h.descend here inner.1 root inner.2 with down | ⟨rfl, -, -, down⟩
    · exact ⟨r, down⟩
    · exact ⟨kernel, down⟩

theorem Planted.hung (h : Planted kernel users m place) {t r n : Nat} {q : List (Fin 512)}
    {i : Fin 512} {e : Entry} (ht : place t = some (r, q)) (new : Hung m m' t i n e)
    (hk : t = kernel → e.isGlobal ∧ 256 ≤ i.val ∧ users = []) (hu : t ∈ users → ¬ e.isGlobal) :
    Planted kernel users m' (Function.update place n (some (r, i :: q))) := by
  have first : n ∈ m.kernelFree := new.free ▸ List.mem_cons_self
  have root : ∀ x ∈ kernel :: users, ∀ j, x ≠ t ∨ j ≠ i → m'.tables x j = m.tables x j :=
    fun x hx j hj => new.other x j (h.fresh first (h.roots x hx)) hj
  constructor
  case toGrounded => exact h.toGrounded.hung ht new
  case apart => exact h.apart
  case inherits =>
    intro x hx j valid global
    have atKernel : m'.tables kernel j = m.tables kernel j := by
      refine root kernel List.mem_cons_self j (.inl ?_)
      rintro rfl
      rw [(hk rfl).2.2] at hx
      exact List.not_mem_nil hx
    by_cases here : x = t ∧ j = i
    · obtain ⟨rfl, rfl⟩ := here
      rw [new.entry] at global
      exact absurd global (hu hx)
    · rw [not_and_or] at here
      rw [root x (List.mem_cons_of_mem _ hx) j here] at valid global ⊢
      rw [atKernel]
      exact h.inherits x hx j valid global
  case shares =>
    intro x hx j valid
    have atKernel : m'.tables kernel j = m.tables kernel j := by
      refine root kernel List.mem_cons_self j (.inl ?_)
      rintro rfl
      rw [(hk rfl).2.2] at hx
      exact List.not_mem_nil hx
    rw [atKernel] at valid ⊢
    have same := h.shares x hx j valid
    by_cases here : x = t ∧ j = i
    · obtain ⟨rfl, rfl⟩ := here
      exact absurd (same ▸ valid) new.invalid
    · rw [not_and_or] at here
      rw [root x (List.mem_cons_of_mem _ hx) j here]
      exact same
  case upper =>
    intro j valid
    by_cases here : kernel = t ∧ j = i
    · obtain ⟨rfl, rfl⟩ := here
      rw [new.entry]
      exact ⟨(hk rfl).1, (hk rfl).2.1⟩
    · rw [not_and_or] at here
      rw [root kernel List.mem_cons_self j here] at valid ⊢
      exact h.upper j valid

theorem Hung.grown {t n : Nat} {i : Fin 512} {e : Entry} (new : Hung m m' t i n e)
    (h : Planted kernel users m place) {p : Place}
    (short : ∀ r q, place t = some (r, q) → q.length < 2) :
    Grown m m' place (Function.update place n (some p)) := by
  have first : n ∈ m.kernelFree := by
    rw [new.free]
    exact List.mem_cons_self
  refine ⟨?_, ?_, ?_⟩
  · intro x p' hx
    rw [Function.update_of_ne (h.fresh first hx), hx]
  · intro x r q j hx _ valid
    refine new.other x j (h.fresh first hx) ?_
    by_contra here
    push Not at here
    rw [here.1, here.2] at valid
    exact new.invalid valid
  · intro x r q j hx hq mapped
    have away : x ≠ t := by
      rintro rfl
      have := short r q hx
      omega
    rw [new.other x j (h.fresh first hx) (.inl away)]
    exact mapped

/-- What a table of level 2 or 1 and the table below it are after a step down. -/
structure Stepped (kernel : Nat) (users : List Nat) (m m' : Memory)
    (place place' : Nat → Option Place)
    (t r : Nat) (q : List (Fin 512)) (i : Fin 512) (l r' : Nat) : Prop where
  planted : Planted kernel users m' place'
  grown : Grown m m' place place'
  below : place' l = some (r', i :: q)
  owner : r' = r ∨ q = [] ∧ r' = kernel ∧ (m.tables kernel i).isValid
  valid : (m'.tables t i).isValid
  leads : target (m'.tables t i) = l
  other : ∀ x p j, place x = some p → x ≠ t ∨ j ≠ i → m'.tables x j = m.tables x j
  blank : ∀ x p j, place' x = some p → place x = none → ¬ (m'.tables x j).isValid
  new : ∀ x p, place' x = some p → place x = some p ∨ p = (r', i :: q)

theorem walkOrCreate_stepped (h : Planted kernel users m place) {t r l : Nat} {q : List (Fin 512)}
    {i : Fin 512} {isGlobal : Bool} (ht : place t = some (r, q)) (hq : q.length < 2)
    (root : q = [] → t ∈ kernel :: users)
    (hk : t = kernel → isGlobal = true ∧ 256 ≤ i.val ∧ users = [])
    (hu : t ∈ users → isGlobal = false)
    (ran : PageTable.walkOrCreate t i isGlobal m = .ok l m') :
    ∃ place' r', Stepped kernel users m m' place place' t r q i l r' := by
  rcases h.walkOrCreate_cases ht (h.sane_target ht hq root) ran with ⟨valid, rfl, rfl⟩ | new
  · have none_new : ∀ x p (j : Fin 512), place x = some p → place x = none →
        ¬ (m'.tables x j).isValid := by
      intro x p j hx hnone
      rw [hx] at hnone
      cases hnone
    rcases h.descend ht hq root valid with down | ⟨rfl, -, shared, down⟩
    · exact ⟨place, r, h, .refl m' place, down, .inl rfl, valid, rfl,
        fun _ _ _ _ _ => rfl, none_new,
        fun _ _ hx => .inl hx⟩
    · exact ⟨place, kernel, h, .refl m' place, down, .inr ⟨rfl, rfl, shared⟩, valid, rfl,
        fun _ _ _ _ _ => rfl, none_new, fun _ _ hx => .inl hx⟩
  · have first : l ∈ m.kernelFree := by
      rw [new.free]
      exact List.mem_cons_self
    have short : ∀ r q, place t = some (r, q) → q.length < 2 := by
      intro r' q' ht'
      rw [ht] at ht'
      cases ht'
      exact hq
    refine ⟨_, r, h.hung ht new ?_ ?_, new.grown h short, Function.update_self .., .inl rfl,
      new.entry ▸ new.valid, new.entry ▸ new.leads,
      fun x p j hx => new.other x j (h.fresh first hx), ?_, ?_⟩
    rotate_left 2
    · intro x p j hx hnone
      have : x = l := by
        by_contra hne
        rw [Function.update_of_ne hne, hnone] at hx
        cases hx
      rw [this, new.blank]
      exact not_isValid_zero
    · intro x p hx
      by_cases here : x = l
      · rw [here, Function.update_self] at hx
        cases hx
        exact .inr rfl
      · rw [Function.update_of_ne here] at hx
        exact .inl hx
    · intro hkernel
      rw [isGlobal_pointer]
      exact hk hkernel
    · intro user
      rw [isGlobal_pointer, hu user]
      decide

end Walk

section Map

open PageTable (px)

variable {kernel c va : Nat} {users : List Nat} {m m' : Memory} {place place' : Nat → Option Place}
  {e : Entry}

/-- The entry of the lowest level for an address, below two valid pointers. -/
def Leads (m : Memory) (c va : Nat) (e : Entry) : Prop :=
  (m.tables c (px 2 va)).isValid ∧
    (m.tables (target (m.tables c (px 2 va))) (px 1 va)).isValid ∧
    m.tables (target (m.tables (target (m.tables c (px 2 va))) (px 1 va))) (px 0 va) = e

/-- The two tables below a root on the way to an address. -/
theorem Planted.way (h : Planted kernel users m place) (hc : c ∈ kernel :: users)
    (two : (m.tables c (px 2 va)).isValid)
    (one : (m.tables (target (m.tables c (px 2 va))) (px 1 va)).isValid) :
    ∃ r, (r = c ∨ r = kernel ∧ (m.tables kernel (px 2 va)).isValid) ∧
      place (target (m.tables c (px 2 va))) = some (r, [px 2 va]) ∧
      place (target (m.tables (target (m.tables c (px 2 va))) (px 1 va))) =
        some (r, [px 1 va, px 2 va]) := by
  have further : ∀ r, place (target (m.tables c (px 2 va))) = some (r, [px 2 va]) →
      place (target (m.tables (target (m.tables c (px 2 va))) (px 1 va))) =
        some (r, [px 1 va, px 2 va]) :=
    fun r hr => h.descends _ r [px 2 va] (px 1 va) hr Nat.one_lt_two one fun hne => nomatch hne
  rcases h.descend (h.roots c hc) (by decide) (fun _ => hc) two with down | ⟨-, -, shared, down⟩
  · exact ⟨c, .inl rfl, down, further c down⟩
  · exact ⟨kernel, .inr ⟨rfl, shared⟩, down, further kernel down⟩

/-- A user page that is mapped at an address stays mapped, perhaps to another page. -/
theorem Leads.grown (leads : Leads m c va e) (h : Planted kernel users m place)
    (hc : c ∈ kernel :: users) (grown : Grown m m' place place') (user : e.isValid ∧ e.isUser) :
    ∃ e', Leads m' c va e' ∧ e'.isValid ∧ e'.isUser := by
  obtain ⟨two, one, leaf⟩ := leads
  obtain ⟨r, -, hone, hzero⟩ := h.way hc two one
  have sameTwo := grown.pointers c c [] (px 2 va) (h.roots c hc) (by decide) two
  have sameOne := grown.pointers _ r [px 2 va] (px 1 va) hone Nat.one_lt_two one
  have stays := grown.leaves _ r _ (px 0 va) hzero rfl (leaf ▸ user)
  refine ⟨_, ⟨?_, ?_, rfl⟩, ?_⟩
  · rw [sameTwo]
    exact two
  · rw [sameTwo, sameOne]
    exact one
  · rw [sameTwo, sameOne]
    exact stays

/-- What mapping the page of an address in the space of `c` comes to. -/
structure Mapped (kernel : Nat) (users : List Nat) (c va : Nat) (e : Entry) (m m' : Memory)
    (place place' : Nat → Option Place) : Prop where
  planted : Planted kernel users m' place'
  places : ∀ t p, place t = some p → place' t = some p
  grown : e.isValid → e.isUser → Grown m m' place place'
  within : ¬ (m.tables kernel (px 2 va)).isValid → Within c m m' place place'
  upper : ∀ j, j ≠ px 2 va → m'.tables c j = m.tables c j
  leads : Leads m' c va e
  leaves : ∀ t r q j, place' t = some (r, q) → q.length = 2 →
    m'.tables t j = e ∨ ¬ (m'.tables t j).isValid ∨
      place t = some (r, q) ∧ m'.tables t j = m.tables t j

theorem Planted.setLeaf (h : Planted kernel users m place) {l r : Nat} {q : List (Fin 512)}
    (hl : place l = some (r, q)) (hq : q.length = 2) (i : Fin 512) (e : Entry) :
    Planted kernel users (m.setEntry l i e) place := by
  have away : ∀ t r' q', place t = some (r', q') → q'.length < 2 →
      (m.setEntry l i e).tables t = m.tables t := by
    intro t r' q' ht hlt
    refine Function.update_of_ne ?_ _ _
    rintro rfl
    rw [hl] at ht
    cases ht
    omega
  have root : ∀ t ∈ kernel :: users, (m.setEntry l i e).tables t = m.tables t :=
    fun t ht => away t t [] (h.roots t ht) (by decide)
  refine ⟨h.leaf hl (fun e inner => absurd (hq ▸ inner.1) (Nat.lt_irrefl 2)) i e,
    h.apart, ?_, ?_, ?_⟩
  · intro t ht j valid global
    rw [root t (List.mem_cons_of_mem _ ht)] at valid global ⊢
    rw [root kernel List.mem_cons_self]
    exact h.inherits t ht j valid global
  · intro t ht j valid
    rw [root kernel List.mem_cons_self] at valid ⊢
    rw [root t (List.mem_cons_of_mem _ ht)]
    exact h.shares t ht j valid
  · intro j valid
    rw [root kernel List.mem_cons_self] at valid ⊢
    exact h.upper j valid

theorem Grown.setLeaf {l r : Nat} {q : List (Fin 512)} (hl : place l = some (r, q))
    (hq : q.length = 2) (i : Fin 512) (valid : e.isValid) (user : e.isUser) :
    Grown m (m.setEntry l i e) place place := by
  refine ⟨fun _ _ h => h, ?_, ?_⟩
  · intro t r' q' j ht hlt _
    refine setEntry_of_ne (.inl ?_)
    rintro rfl
    rw [hl] at ht
    cases ht
    omega
  · intro t r' q' j ht hlt mapped
    by_cases here : t = l ∧ j = i
    · rw [here.1, here.2, setEntry_self]
      exact ⟨valid, user⟩
    · rw [not_and_or] at here
      rw [setEntry_of_ne here]
      exact mapped

theorem mapPage_mapped (h : Planted kernel users m place) (hc : c ∈ kernel :: users) {pa : Nat}
    {flag : PTEFlags}
    (hk : c = kernel → flag.contains PTEFlags.g = true ∧ 256 ≤ (px 2 va).val ∧ users = [])
    (hu : c ∈ users → flag.contains PTEFlags.g = false)
    (ran : PageTable.mapPage c pa va flag m = .ok () m') :
    ∃ place', Mapped kernel users c va (Entry.new pa flag) m m' place place' := by
  simp only [PageTable.mapPage, Call.bind_eq_ok, Call.modify_apply, Outcome.ok.injEq] at ran
  obtain ⟨l₁, m₁, ran₁, l₀, m₂, ran₂, -, rfl⟩ := ran
  obtain ⟨place₁, r₁, s₁⟩ :=
    walkOrCreate_stepped h (h.roots c hc) (by decide) (fun _ => hc) hk hu ran₁
  have notRoot : l₁ ∉ kernel :: users := by
    intro root
    have := s₁.planted.roots l₁ root
    rw [s₁.below] at this
    cases this
  obtain ⟨place₂, r₀, s₂⟩ := walkOrCreate_stepped s₁.planted s₁.below Nat.one_lt_two
    (fun hne => absurd hne (List.cons_ne_nil _ _))
    (fun hne => absurd (hne ▸ List.mem_cons_self) notRoot)
    (fun user => absurd (List.mem_cons_of_mem _ user) notRoot) ran₂
  -- The second step stays in the space that the first one led to.
  obtain rfl : r₀ = r₁ := s₂.owner.resolve_right fun hne => absurd hne.1 (List.cons_ne_nil _ _)
  have apart₁ : c ≠ l₁ := fun hne => notRoot (hne ▸ hc)
  have placeC := s₂.planted.roots c hc
  have place₁' := s₂.grown.places l₁ _ s₁.below
  have apart₀ : c ≠ l₀ := by
    rintro rfl
    rw [s₂.below] at placeC
    cases placeC
  have apart₁₀ : l₁ ≠ l₀ := by
    rintro rfl
    rw [s₂.below] at place₁'
    simp at place₁'
  have entryC : ((m₂.setEntry l₀ (px 0 va) (Entry.new pa flag)).tables c) = m₁.tables c := by
    funext j
    rw [setEntry_of_ne (.inl apart₀)]
    exact s₂.other c _ j (s₁.planted.roots c hc) (.inl apart₁)
  have entry₁ : ((m₂.setEntry l₀ (px 0 va) (Entry.new pa flag)).tables l₁ (px 1 va)) =
      m₂.tables l₁ (px 1 va) := setEntry_of_ne (.inl apart₁₀)
  refine ⟨place₂, s₂.planted.setLeaf s₂.below rfl _ _,
    fun t p ht => s₂.grown.places t p (s₁.grown.places t p ht), ?_, ?_, ?_, ?_, ?_⟩
  · exact fun valid user => (s₁.grown.trans s₂.grown).trans (.setLeaf s₂.below rfl _ valid user)
  · intro lacking t r q ht hr
    obtain rfl : r₀ = c := s₁.owner.resolve_right fun shared => lacking shared.2.2
    have ht₁ : place₁ t = some (r, q) :=
      (s₂.new t _ ht).resolve_right fun new => hr (congrArg Prod.fst new)
    have ht₀ : place t = some (r, q) :=
      (s₁.new t _ ht₁).resolve_right fun new => hr (congrArg Prod.fst new)
    refine ⟨ht₀, ?_⟩
    have away : ∀ l q', place₂ l = some (r₀, q') → t ≠ l := by
      rintro l q' hl rfl
      rw [ht] at hl
      cases hl
      exact hr rfl
    funext j
    rw [setEntry_of_ne (.inl (away l₀ _ s₂.below)),
      s₂.other t _ j ht₁ (.inl (away l₁ _ place₁')),
      s₁.other t _ j ht₀ (.inl (away r₀ _ placeC))]
  · intro j hj
    rw [entryC]
    exact s₁.other c _ j (h.roots c hc) (.inr hj)
  · refine ⟨?_, ?_, ?_⟩
    · rw [entryC]
      exact s₁.valid
    · rw [entryC, s₁.leads, entry₁]
      exact s₂.valid
    · rw [entryC, s₁.leads, entry₁, s₂.leads, setEntry_self]
  · intro t r q j ht hq
    by_cases here : t = l₀ ∧ j = px 0 va
    · rw [here.1, here.2, setEntry_self]
      exact .inl rfl
    rw [not_and_or] at here
    rw [setEntry_of_ne here]
    refine .inr ?_
    cases hold₁ : place₁ t with
    | none => exact .inl (s₂.blank t _ j ht hold₁)
    | some p₁ =>
      have hp := s₂.grown.places t p₁ hold₁
      rw [ht] at hp
      cases hp
      have away : t ≠ l₁ := by
        rintro rfl
        rw [s₁.below] at hold₁
        cases hold₁
        simp at hq
      rw [s₂.other t _ j hold₁ (.inl away)]
      cases hold : place t with
      | none => exact .inl (s₁.blank t _ j hold₁ hold)
      | some p =>
        have hp := s₁.grown.places t p hold
        rw [hold₁] at hp
        cases hp
        have awayC : t ≠ c := by
          rintro rfl
          rw [h.roots t hc] at hold
          cases hold
          simp at hq
        exact .inr ⟨rfl, s₁.other t _ j hold (.inl awayC)⟩

end Map

end Tacos.Userproc
