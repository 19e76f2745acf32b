/- GID: Tacos/Userproc/Leaves
   generality: I
   source: src/mem/pagetable.rs
   digest: The tables and pages that an address space has of its own, and how mapping and
     destroying change them. -/

import Tacos.Lib.Slots
import Tacos.Userproc.Load
import Mathlib.Algebra.BigOperators.Group.Finset.Sigma

set_option autoImplicit false
set_option relaxedAutoImplicit false

namespace Tacos.Userproc

open Tacos.Lib.Exec Tacos.Lib.Slots Tacos.Mem Tacos.Fs
open PageTable (px)

/-- Where an entry leads that `destroy_imp` does not skip. -/
def Entry.down (e : Entry) : Option Nat :=
  if e.isValid && !e.isGlobal then some (target e) else none

/-- Where the entries with these indexes lead, one below the other. -/
def walkTo (tables : Nat → Table) : Nat → List (Fin 512) → Option Nat
  | t, [] => some t
  | t, i :: p => (tables t i).down.bind fun l => walkTo tables l p

/-- The indexes that lead to a table of level 1 or of level 0. -/
abbrev TableIndex := Fin 512 ⊕ Fin 512 × Fin 512

def TableIndex.path : TableIndex → List (Fin 512)
  | .inl i => [i]
  | .inr (i, j) => [i, j]

/-- The tables of a space's own below its root. -/
def tableAt (tables : Nat → Table) (c : Nat) (s : TableIndex) : Option Nat := walkTo tables c s.path

def PageIndex.path (s : PageIndex) : List (Fin 512) := [s.1, s.2.1, s.2.2]

/-- The pages that are mapped in a space's own tables. -/
def pageAt (tables : Nat → Table) (c : Nat) (s : PageIndex) : Option Nat := walkTo tables c s.path

section Walk

variable {kernel : Nat} {users : List Nat} {m m' : Memory} {place : Nat → Option Place}

theorem Entry.down_eq_some {e : Entry} {x : Nat} :
    e.down = some x ↔ (e.isValid ∧ ¬ e.isGlobal) ∧ target e = x := by
  rw [Entry.down]
  split
  case isTrue own =>
    simp only [Bool.and_eq_true, Bool.not_eq_true'] at own
    simp [own.1, own.2]
  case isFalse skipped =>
    simp only [Bool.and_eq_true, Bool.not_eq_true', not_and] at skipped
    simp only [reduceCtorEq, false_iff, not_and, Bool.not_eq_true]
    exact fun own => absurd own.2 (skipped own.1)

theorem Entry.down_of_invalid {e : Entry} (invalid : ¬ e.isValid) : e.down = none := by
  rw [Entry.down, if_neg]
  simp [invalid]

theorem Planted.place_down (h : Planted kernel users m place) {x y r : Nat} {q : List (Fin 512)}
    {i : Fin 512} (hx : place x = some (r, q)) (hq : q.length < 2)
    (down : (m.tables x i).down = some y) :
    place y = some (r, i :: q) := by
  obtain ⟨⟨valid, own⟩, rfl⟩ := Entry.down_eq_some.mp down
  exact h.descends x r q i hx hq valid fun _ _ => own

theorem walkTo_append (tables : Nat → Table) (p p' : List (Fin 512)) (t : Nat) :
    walkTo tables t (p ++ p') = (walkTo tables t p).bind fun x => walkTo tables x p' := by
  induction p generalizing t with
  | nil => rfl
  | cons i p ih =>
    rw [List.cons_append, walkTo, walkTo]
    cases (tables t i).down with
    | none => rfl
    | some l => exact ih l

theorem Planted.place_walkTo (h : Planted kernel users m place) {p : List (Fin 512)} :
    ∀ {x y r : Nat} {q : List (Fin 512)}, place x = some (r, q) → p.length + q.length ≤ 2 →
      walkTo m.tables x p = some y → place y = some (r, p.reverse ++ q) := by
  induction p with
  | nil =>
    intro x y r q hx _ walked
    cases walked
    exact hx
  | cons i p ih =>
    intro x y r q hx hq walked
    rw [List.length_cons] at hq
    rw [walkTo, Option.bind_eq_some_iff] at walked
    obtain ⟨l, down, walked⟩ := walked
    have hl := h.place_down hx (by omega) down
    rw [ih hl (by rw [List.length_cons]; omega) walked, List.reverse_cons, List.append_assoc,
      List.singleton_append]

/-- A change of the entry `i` of the table `t` is seen only on the way through it, and below it
only where the walks from there differ. -/
theorem Planted.walkTo_congr (h : Planted kernel users m place) {t r₀ : Nat} {q₀ : List (Fin 512)}
    {i : Fin 512} (ht : place t = some (r₀, q₀))
    (other : ∀ x p j, place x = some p → x ≠ t ∨ j ≠ i → m'.tables x j = m.tables x j)
    (below : ∀ j p, p.length + q₀.length ≤ 1 →
      walkTo m'.tables t (i :: j :: p) = walkTo m.tables t (i :: j :: p)) {p : List (Fin 512)} :
    ∀ {x r : Nat} {q : List (Fin 512)}, place x = some (r, q) → p.length + q.length ≤ 3 →
      ¬ (r = r₀ ∧ p.reverse ++ q = i :: q₀) → walkTo m'.tables x p = walkTo m.tables x p := by
  induction p with
  | nil =>
    intro x r q _ _ _
    rfl
  | cons j p ih =>
    intro x r q hx hq away
    rw [List.length_cons] at hq
    by_cases here : x = t ∧ j = i
    · obtain ⟨rfl, rfl⟩ := here
      rw [ht] at hx
      cases hx
      cases p with
      | nil => exact absurd ⟨rfl, rfl⟩ away
      | cons k p =>
        rw [List.length_cons] at hq
        exact below k p (by omega)
    · have same := other x _ j hx (not_and_or.mp here)
      rw [walkTo, walkTo, same]
      cases down : (m.tables x j).down with
      | none => rw [Option.bind_none, Option.bind_none]
      | some l =>
        cases p with
        | nil => rfl
        | cons k p =>
          rw [List.length_cons] at hq
          have hl := h.place_down hx (by omega) down
          refine ih hl (by simp only [List.length_cons]; omega) ?_
          rw [List.reverse_cons, List.append_assoc, List.singleton_append] at away
          exact away

theorem Hung.walkTo_eq (h : Planted kernel users m place) {t r₀ n : Nat} {q₀ : List (Fin 512)}
    {i : Fin 512} {e : Entry} (ht : place t = some (r₀, q₀)) (new : Hung m m' t i n e)
    {p : List (Fin 512)} {x r : Nat} {q : List (Fin 512)} (hx : place x = some (r, q))
    (hq : p.length + q.length ≤ 3) (away : ¬ (r = r₀ ∧ p.reverse ++ q = i :: q₀)) :
    walkTo m'.tables x p = walkTo m.tables x p := by
  have first : n ∈ m.kernelFree := by
    rw [new.free]
    exact List.mem_cons_self
  refine h.walkTo_congr ht (fun x p j hx hj => new.other x j (h.fresh first hx) hj) ?_ hx hq away
  intro j p _
  have before : walkTo m.tables t (i :: j :: p) = none := by
    rw [walkTo, Entry.down_of_invalid new.invalid]
    rfl
  rw [before, walkTo, new.entry]
  cases down : e.down with
  | none => rfl
  | some l =>
    obtain ⟨-, rfl⟩ := Entry.down_eq_some.mp down
    rw [Option.bind_some, new.leads, walkTo, new.blank, Entry.down_of_invalid not_isValid_zero]
    rfl

theorem setEntry_walkTo_eq (h : Planted kernel users m place) {l r₀ : Nat} {q₀ : List (Fin 512)}
    (hl : place l = some (r₀, q₀)) (two : q₀.length = 2) (i : Fin 512) (e : Entry)
    {p : List (Fin 512)} {x r : Nat} {q : List (Fin 512)} (hx : place x = some (r, q))
    (hq : p.length + q.length ≤ 3) (away : ¬ (r = r₀ ∧ p.reverse ++ q = i :: q₀)) :
    walkTo (m.setEntry l i e).tables x p = walkTo m.tables x p := by
  refine h.walkTo_congr hl (fun x p j _ hj => setEntry_of_ne hj) ?_ hx hq away
  intro j p short
  omega

theorem TableIndex.path_injective : Function.Injective TableIndex.path := by
  intro s s' same
  rcases s with i | ⟨i, j⟩
  · rcases s' with i' | ⟨i', j'⟩
    · rw [(List.cons.inj same).1]
    · cases same
  · rcases s' with i' | ⟨i', j'⟩
    · cases same
    · rw [(List.cons.inj same).1, (List.cons.inj (List.cons.inj same).2).1]

theorem TableIndex.length_path (s : TableIndex) : s.path.length ≤ 2 := by
  rcases s with i | ⟨i, j⟩
  · exact Nat.le_succ 1
  · exact le_rfl

theorem PageIndex.path_injective : Function.Injective PageIndex.path := by
  rintro ⟨i, j, k⟩ ⟨i', j', k'⟩ same
  cases same
  rfl

theorem PageIndex.length_path (s : PageIndex) : s.path.length = 3 := rfl

/-- A table that was hung where the space of `c` has no table becomes one of its own. -/
theorem Hung.tableAt_eq (h : Planted kernel users m place) {c t n : Nat} {q : List (Fin 512)}
    {i : Fin 512} {e : Entry} (hc : place c = some (c, [])) (ht : place t = some (c, q))
    (new : Hung m m' t i n e) (own : ¬ e.isGlobal) (reach : walkTo m.tables c q.reverse = some t)
    {s : TableIndex} (path : s.path = q.reverse ++ [i]) :
    tableAt m.tables c s = none ∧
      tableAt m'.tables c = Function.update (tableAt m.tables c) s (some n) := by
  have length : q.length + 1 ≤ 2 := by
    have := s.length_path
    rw [path, List.length_append, List.length_reverse, List.length_singleton] at this
    exact this
  have frame : ∀ p : List (Fin 512), p.length ≤ 3 → p ≠ q.reverse ++ [i] →
      walkTo m'.tables c p = walkTo m.tables c p := by
    intro p hp away
    refine new.walkTo_eq h ht hc hp fun same => away ?_
    rw [List.append_nil] at same
    rw [← List.reverse_reverse p, same.2, List.reverse_cons]
  have before : walkTo m.tables c (q.reverse ++ [i]) = none := by
    rw [walkTo_append, reach, Option.bind_some, walkTo, Entry.down_of_invalid new.invalid]
    rfl
  have reach' : walkTo m'.tables c q.reverse = some t := by
    rw [← reach]
    apply frame
    · rw [List.length_reverse]
      omega
    · intro same
      have := congrArg List.length same
      rw [List.length_append, List.length_singleton] at this
      omega
  have after : walkTo m'.tables c (q.reverse ++ [i]) = some n := by
    rw [walkTo_append, reach', Option.bind_some, walkTo, new.entry,
      Entry.down_eq_some.mpr ⟨⟨new.valid, own⟩, new.leads⟩]
    rfl
  refine ⟨by rw [tableAt, path, before], ?_⟩
  ext1 s'
  by_cases here : s' = s
  · rw [here, Function.update_self, tableAt, path, after]
  · rw [Function.update_of_ne here]
    apply frame
    · have := s'.length_path
      omega
    · rw [← path]
      exact fun same => here (TableIndex.path_injective same)

theorem Hung.pageAt_eq (h : Planted kernel users m place) {c t r n : Nat} {q : List (Fin 512)}
    {i : Fin 512} {e : Entry} (hc : place c = some (c, [])) (ht : place t = some (r, q))
    (hq : q.length < 2) (new : Hung m m' t i n e) : pageAt m'.tables c = pageAt m.tables c := by
  ext1 s
  refine new.walkTo_eq h ht hc s.length_path.le fun same => ?_
  have := congrArg List.length same.2
  rw [List.append_nil, List.length_reverse, s.length_path, List.length_cons] at this
  omega

end Walk

section Furnished

variable {kernel c : Nat} {users : List Nat} {m m' : Memory} {place place' : Nat → Option Place}

/-- What a valid entry of a table of a user's space may be: in the root one of the kernel's, else
a pointer or, in a table of level 0, a page. -/
def Fitting (q : List (Fin 512)) (e : Entry) : Prop :=
  e.isValid → q = [] ∧ e.isGlobal ∨
    ¬ e.isGlobal ∧ (q.length < 2 → ¬ e.isLeaf) ∧ (q.length = 2 → e.isLeaf ∧ Sane (target e))

/-- The tables are those of the spaces there are, and the users' hold what they may. -/
structure Furnished (kernel : Nat) (users : List Nat) (m : Memory)
    (place : Nat → Option Place) : Prop where
  rooted : ∀ t r q, place t = some (r, q) → r ∈ kernel :: users
  fitting : ∀ t r q i, place t = some (r, q) → r ∈ users → Fitting q (m.tables t i)

theorem Furnished.same (f : Furnished kernel users m place) (tables : m'.tables = m.tables) :
    Furnished kernel users m' place :=
  ⟨f.rooted, tables ▸ f.fitting⟩

theorem isLeaf_pointer (pa : Nat) (isGlobal : Bool) :
    ¬ Entry.isLeaf (Entry.new pa (pointerFlag isGlobal)) := by
  rw [Entry.isLeaf, Entry.flag_new pa (pointerFlag_lt isGlobal)]
  cases isGlobal <;> decide

theorem Fitting.pointer {q : List (Fin 512)} (hq : q.length < 2) (pa : Nat) :
    Fitting q (Entry.new pa (pointerFlag false)) := by
  intro _
  refine .inr ⟨?_, fun _ => isLeaf_pointer pa false, fun two => ?_⟩
  · rw [isGlobal_pointer]
    decide
  · omega

theorem Stepped.furnished {t r l r' : Nat} {q : List (Fin 512)} {i : Fin 512}
    (s : Stepped kernel users m m' place place' t r q i l r') (ht : place t = some (r, q))
    (hq : q.length < 2) (f : Furnished kernel users m place)
    (entry : m'.tables t i = m.tables t i ∨ ∃ pa,
      m'.tables t i = Entry.new pa (pointerFlag false)) :
    Furnished kernel users m' place' := by
  refine ⟨?_, ?_⟩
  · intro x r₁ q₁ hx
    rcases s.new x _ hx with old | new
    · exact f.rooted x r₁ q₁ old
    · cases new
      rcases s.owner with rfl | ⟨-, rfl, -⟩
      · exact f.rooted t _ q ht
      · exact List.mem_cons_self
  intro x r₁ q₁ j hx user
  cases old : place x with
  | none => exact fun valid => absurd valid (s.blank x _ j hx old)
  | some p =>
    have same := s.grown.places x p old
    rw [hx] at same
    cases same
    by_cases here : x = t ∧ j = i
    · obtain ⟨rfl, rfl⟩ := here
      rw [ht] at old
      cases old
      rcases entry with kept | ⟨pa, new⟩
      · rw [kept]
        exact f.fitting x r q j ht user
      · rw [new]
        exact .pointer hq pa
    · rw [s.other x _ j old (not_and_or.mp here)]
      exact f.fitting x r₁ q₁ j old user

/-- What an address space and the kernel's free list have together. -/
def tableStock (m : Memory) (c : Nat) : Multiset Nat := contents (tableAt m.tables c) + m.kernelFree

/-- A step down in a space's own tables leads to one of its own, and none comes from elsewhere. -/
theorem walkOrCreate_stock (h : Planted kernel users m place) {t l : Nat} {q : List (Fin 512)}
    {i : Fin 512} (hc : place c = some (c, [])) (ht : place t = some (c, q)) (hq : q.length < 2)
    (root : q = [] → t ∈ kernel :: users) (reach : walkTo m.tables c q.reverse = some t)
    (own : (m.tables t i).isValid → ¬ (m.tables t i).isGlobal) {s : TableIndex}
    (path : s.path = q.reverse ++ [i]) (ran : PageTable.walkOrCreate t i false m = .ok l m') :
    walkTo m'.tables c s.path = some l ∧ pageAt m'.tables c = pageAt m.tables c ∧
      tableStock m' c = tableStock m c := by
  rcases h.walkOrCreate_cases ht (h.sane_target ht hq root) ran with ⟨valid, rfl, rfl⟩ | new
  · refine ⟨?_, rfl, rfl⟩
    rw [path, walkTo_append, reach, Option.bind_some, walkTo,
      Entry.down_eq_some.mpr ⟨⟨valid, own valid⟩, rfl⟩]
    rfl
  · have own' : ¬ Entry.isGlobal (Entry.new (l - vmOffset) (pointerFlag false)) := by
      rw [isGlobal_pointer]
      decide
    obtain ⟨before, after⟩ := new.tableAt_eq h hc ht own' reach path
    have filled := contents_update (tableAt m.tables c) s l
    rw [before, ← after, single, Option.elim_none, add_zero] at filled
    refine ⟨?_, new.pageAt_eq h hc ht hq, ?_⟩
    · have here := congrFun after s
      rw [Function.update_self] at here
      exact here
    · rw [tableStock, tableStock, filled, new.free, ← Multiset.cons_coe, Multiset.cons_add,
        Multiset.add_cons]

/-- Writing an entry of a table of level 0 that the space of `c` has of its own. -/
theorem setLeaf_pageAt (h : Planted kernel users m place) {l : Nat} {i j k : Fin 512} {e : Entry}
    (hc : place c = some (c, [])) (hl : place l = some (c, [j, i]))
    (reach : walkTo m.tables c [i, j] = some l) (own : e.isValid ∧ ¬ e.isGlobal) :
    pageAt (m.setEntry l k e).tables c =
        Function.update (pageAt m.tables c) (i, j, k) (some (target e)) ∧
      tableAt (m.setEntry l k e).tables c = tableAt m.tables c := by
  have frame : ∀ p : List (Fin 512), p.length ≤ 3 → p ≠ [i, j, k] →
      walkTo (m.setEntry l k e).tables c p = walkTo m.tables c p := by
    intro p hp away
    refine setEntry_walkTo_eq h hl rfl k e hc hp fun same => away ?_
    rw [List.append_nil] at same
    rw [← List.reverse_reverse p, same.2]
    rfl
  constructor
  · ext1 s
    by_cases here : s = (i, j, k)
    · have reach' := frame [i, j] (Nat.le_succ 2) (by simp)
      rw [here, Function.update_self, pageAt, PageIndex.path,
        show [i, j, k] = [i, j] ++ [k] from rfl, walkTo_append, reach', reach,
          Option.bind_some, walkTo,
        setEntry_self, Entry.down_eq_some.mpr ⟨own, rfl⟩]
      rfl
    · rw [Function.update_of_ne here]
      exact frame s.path s.length_path.le fun same => here (PageIndex.path_injective same)
  · ext1 s
    have short := s.length_path
    apply frame
    · omega
    · intro same
      rw [same, List.length_cons, List.length_cons, List.length_singleton] at short
      omega

theorem Furnished.setLeaf {l r : Nat} {q : List (Fin 512)} (hl : place l = some (r, q))
    (f : Furnished kernel users m place) {e : Entry} (fitting : Fitting q e) (k : Fin 512) :
    Furnished kernel users (m.setEntry l k e) place := by
  refine ⟨f.rooted, ?_⟩
  intro x r' q' j hx user
  by_cases here : x = l ∧ j = k
  · obtain ⟨rfl, rfl⟩ := here
    rw [hl] at hx
    cases hx
    rw [setEntry_self]
    exact fitting
  · rw [setEntry_of_ne (not_and_or.mp here)]
    exact f.fitting x r' q' j hx user

/-- The pages of the users, those in the pool and what the others hold, stay as they are. -/
structure UserKept (m m' : Memory) : Prop where
  free : m'.userFree = m.userFree
  frames : m'.frames = m.frames

theorem UserKept.trans {m₁ m₂ : Memory} (first : UserKept m m₁)
    (second : UserKept m₁ m₂) : UserKept m m₂ :=
  ⟨second.free.trans first.free, second.frames.trans first.frames⟩

theorem new_keeps {t : Nat} (ran : PageTable.new m = .ok t m') : UserKept m m' := by
  simp only [PageTable.new, Call.bind_eq_ok, Call.modify_apply, fromRaw_ok] at ran
  obtain ⟨page, m₁, allocated, _, m₂, zeroed, rfl, -, rfl⟩ := ran
  rw [kalloc] at allocated
  cases free : m.kernelFree with
  | nil => simp [free] at allocated
  | cons head rest =>
    rw [free] at allocated
    cases allocated
    cases zeroed
    exact ⟨rfl, rfl⟩

theorem walkOrCreate_keeps {t l : Nat} {i : Fin 512} {isGlobal : Bool}
    (ran : PageTable.walkOrCreate t i isGlobal m = .ok l m') : UserKept m m' := by
  rw [PageTable.walkOrCreate, Call.bind_eq_ok] at ran
  obtain ⟨found, m₁, walked, continued⟩ := ran
  rw [PageTable.walk] at walked
  by_cases valid : (m.tables t i).isValid
  · rw [if_pos valid, Call.bind_eq_ok] at walked
    obtain ⟨_, m₂, child, found⟩ := walked
    obtain ⟨-, -, -, rfl⟩ := child_ok.mp child
    cases found
    cases continued
    exact ⟨rfl, rfl⟩
  · rw [if_neg valid] at walked
    cases walked
    simp only [PageTable.create, Call.bind_eq_ok, Call.modify_apply, ofVa_ok, Call.pure_apply,
      Outcome.ok.injEq] at continued
    obtain ⟨_, m₂, new, _, _, ⟨-, -, rfl⟩, _, _, ⟨-, rfl⟩, -, rfl⟩ := continued
    have kept := new_keeps new
    exact ⟨kept.free, kept.frames⟩

theorem mapLoop_keeps {t paEnd fuel : Nat} {flag : PTEFlags} :
    ∀ {pa va : Nat} {m : Memory}, PageTable.mapLoop t paEnd flag fuel pa va m = .ok () m' →
      UserKept m m' := by
  induction fuel with
  | zero =>
    intro pa va m ran
    cases ran
  | succ fuel ih =>
    intro pa va m ran
    rw [PageTable.mapLoop] at ran
    by_cases more : pa < paEnd
    · rw [if_pos more] at ran
      simp only [Call.bind_eq_ok, addUsize_ok, PageTable.mapPage, Call.modify_apply,
        Outcome.ok.injEq] at ran
      obtain ⟨_, _, ⟨l₁, m₁, first, l₀, m₂, second, -, rfl⟩, _, _, ⟨-, -, rfl⟩, _, _,
        ⟨-, -, rfl⟩, rest⟩ := ran
      have kept := (walkOrCreate_keeps first).trans (walkOrCreate_keeps second)
      have written := ih rest
      exact ⟨written.free.trans kept.free, written.frames.trans kept.frames⟩
    · rw [if_neg more] at ran
      cases ran
      exact ⟨rfl, rfl⟩

theorem map_keeps {t pa va size : Nat} {flag : PTEFlags}
    (ran : PageTable.map t pa va size flag m = .ok () m') :
    UserKept m m' := by
  simp only [PageTable.map, Call.bind_eq_ok, require_ok, addUsize_ok] at ran
  obtain ⟨_, _, ⟨-, rfl⟩, _, _, ⟨-, -, rfl⟩, looped⟩ := ran
  exact mapLoop_keeps looped

/-- A page was mapped at an address of the space of `c`. -/
structure Stored (kernel : Nat) (users : List Nat) (c va page : Nat) (m m' : Memory)
    (place' : Nat → Option Place) : Prop where
  planted : Planted kernel users m' place'
  furnished : Furnished kernel users m' place'
  user : m'.userFree = m.userFree
  pages : (px 2 va).val < 256 →
    pageAt m'.tables c = Function.update (pageAt m.tables c) (pageIndex va) (some page)
  tables : (px 2 va).val < 256 → tableStock m' c = tableStock m c

/-- With these flags `destroy_imp` takes an entry for a page. -/
structure PageFlag (flag : PTEFlags) : Prop extends UserFlag flag where
  leaf : flag.intersects (PTEFlags.r ||| PTEFlags.w ||| PTEFlags.x)

theorem mapPage_stored (h : Planted kernel users m place)
    (f : Furnished kernel users m place) (hc : c ∈ users)
    {va page : Nat} {flag : PTEFlags} (hflag : PageFlag flag) (sane : Sane page)
    (ran : PageTable.mapPage c (page - vmOffset) va flag m = .ok () m') :
    ∃ place', Stored kernel users c va page m m' place' := by
  have root : c ∈ kernel :: users := List.mem_cons_of_mem _ hc
  have notKernel : c ≠ kernel := by
    rintro rfl
    exact (List.nodup_cons.mp h.apart).1 hc
  have valid : (Entry.new (page - vmOffset) flag).isValid := by
    rw [Entry.isValid, Entry.flag_new _ hflag.small]
    exact hflag.valid
  have own : ¬ (Entry.new (page - vmOffset) flag).isGlobal := by
    rw [Entry.isGlobal, Entry.flag_new _ hflag.small, hflag.own]
    decide
  have leaf : (Entry.new (page - vmOffset) flag).isLeaf := by
    rw [Entry.isLeaf, Entry.flag_new _ hflag.small]
    exact hflag.leaf
  have back : target (Entry.new (page - vmOffset) flag) = page :=
    sane.target_new (Nat.lt_trans hflag.small (by decide))
  simp only [PageTable.mapPage, Call.bind_eq_ok, Call.modify_apply, Outcome.ok.injEq] at ran
  rw [hflag.own] at ran
  obtain ⟨l₁, m₁, ran₁, l₀, m₂, ran₂, -, rfl⟩ := ran
  have placeC := h.roots c root
  obtain ⟨place₁, r₁, s₁⟩ := walkOrCreate_stepped h placeC (by decide) (fun _ => root)
    (fun hne => absurd hne notKernel) (fun _ => rfl) ran₁
  have notRoot : l₁ ∉ kernel :: users := by
    intro isRoot
    have := s₁.planted.roots l₁ isRoot
    rw [s₁.below] at this
    cases this
  obtain ⟨place₂, r₀, s₂⟩ := walkOrCreate_stepped s₁.planted s₁.below Nat.one_lt_two
    (fun hne => absurd hne (List.cons_ne_nil _ _))
    (fun hne => absurd (hne ▸ List.mem_cons_self) notRoot)
    (fun user => absurd (List.mem_cons_of_mem _ user) notRoot) ran₂
  obtain rfl : r₀ = r₁ := s₂.owner.resolve_right fun hne => List.cons_ne_nil _ _ hne.1
  have entry : ∀ {m m' : Memory} {place : Nat → Option Place} {t r l : Nat} {q : List (Fin 512)}
      {i : Fin 512}, Planted kernel users m place → place t = some (r, q) → q.length < 2 →
      (q = [] → t ∈ kernel :: users) → PageTable.walkOrCreate t i false m = .ok l m' →
      m'.tables t i = m.tables t i ∨ ∃ pa, m'.tables t i = Entry.new pa (pointerFlag false) := by
    intro m m' place t r l q i h ht hq root ran
    rcases h.walkOrCreate_cases ht (h.sane_target ht hq root) ran with ⟨-, -, rfl⟩ | new
    · exact .inl rfl
    · exact .inr ⟨_, new.entry⟩
  have f₁ := s₁.furnished placeC (by decide) f (entry h placeC (by decide) (fun _ => root) ran₁)
  have f₂ := s₂.furnished s₁.below Nat.one_lt_two f₁
    (entry s₁.planted s₁.below Nat.one_lt_two (fun hne => absurd hne (List.cons_ne_nil _ _)) ran₂)
  have fitting : Fitting [px 1 va, px 2 va] (Entry.new (page - vmOffset) flag) := by
    intro _
    refine .inr ⟨own, fun short => absurd short (Nat.lt_irrefl 2), fun _ => ⟨leaf, ?_⟩⟩
    rw [back]
    exact sane
  -- Below the upper half, both tables are the space's own.
  have low : (px 2 va).val < 256 →
      walkTo m₂.tables c [px 2 va, px 1 va] = some l₀ ∧ place₂ l₀ = some (c, [px 1 va, px 2 va]) ∧
        pageAt m₂.tables c = pageAt m.tables c ∧ tableStock m₂ c = tableStock m c := by
    intro lower
    have lacking : ¬ (m.tables kernel (px 2 va)).isValid := by
      intro shared
      have := (h.upper _ shared).2
      omega
    obtain rfl : r₀ = c := s₁.owner.resolve_right fun shared => lacking shared.2.2
    have own₁ : (m.tables r₀ (px 2 va)).isValid → ¬ (m.tables r₀ (px 2 va)).isGlobal := by
      intro valid global
      exact lacking (h.inherits r₀ hc _ valid global ▸ valid)
    have own₂ : (m₁.tables l₁ (px 1 va)).isValid → ¬ (m₁.tables l₁ (px 1 va)).isGlobal := by
      intro valid
      rcases f₁.fitting l₁ r₀ _ (px 1 va) s₁.below hc valid with ⟨none, -⟩ | ⟨own, -⟩
      · cases none
      · exact own
    obtain ⟨reach₁, pages₁, stock₁⟩ := walkOrCreate_stock h placeC placeC
      (by decide) (fun _ => root)
      rfl own₁ (s := .inl (px 2 va)) rfl ran₁
    obtain ⟨reach₂, pages₂, stock₂⟩ := walkOrCreate_stock s₁.planted
      (s₁.planted.roots r₀ root) s₁.below
      Nat.one_lt_two (fun hne => absurd hne (List.cons_ne_nil _ _)) reach₁ own₂
      (s := .inr (px 2 va, px 1 va)) rfl ran₂
    exact ⟨reach₂, s₂.below, pages₂.trans pages₁, stock₂.trans stock₁⟩
  have rootC := s₂.planted.roots c root
  refine ⟨place₂, s₂.planted.setLeaf s₂.below rfl _ _, f₂.setLeaf s₂.below fitting _,
    (walkOrCreate_keeps ran₂).free.trans (walkOrCreate_keeps ran₁).free, ?_, ?_⟩
  · intro lower
    obtain ⟨reach, hl, pages, -⟩ := low lower
    rw [(setLeaf_pageAt s₂.planted rootC hl reach ⟨valid, own⟩).1, pages, back]
    rfl
  · intro lower
    obtain ⟨reach, hl, -, stock⟩ := low lower
    rw [← stock, tableStock, (setLeaf_pageAt s₂.planted rootC hl reach ⟨valid, own⟩).2]
    rfl

end Furnished

section Lifetime

variable {kernel c : Nat} {users : List Nat} {m m' : Memory} {place : Nat → Option Place}

theorem Planted.pruned (h : Planted kernel users m place) :
    Planted kernel users m (fun t => (place t).filter fun p => p.1 ∈ kernel :: users) := by
  refine ⟨h.toGrounded.filtered (fun p => p.1 ∈ kernel :: users) (fun _ _ keeps => keeps)
    rfl h.nodup (fun t ht => ⟨h.sane t ht, fun p hp => ?_⟩) fun t ht => ⟨ht, ht⟩, h.apart,
    h.inherits, h.shares, h.upper⟩
  rw [h.unplaced t ht] at hp
  cases hp

theorem Furnished.first (kernel : Nat) (m : Memory) (place : Nat → Option Place) :
    Furnished kernel [] m (fun t => (place t).filter fun p => p.1 ∈ [kernel]) := by
  refine ⟨?_, fun _ _ _ _ _ user => nomatch user⟩
  intro t r q ht
  exact of_decide_eq_true (Option.filter_eq_some_iff.mp ht).2

theorem Furnished.cloned (h : Planted kernel users m place) (f : Furnished kernel users m place)
    (ran : KernelPgTable.clone kernel m = .ok c m') :
    Furnished kernel (c :: users) m' (Function.update place c (some (c, []))) ∧
      (∀ p : List (Fin 512), p ≠ [] → walkTo m'.tables c p = none) ∧ m'.userFree = m.userFree ∧
      m.kernelFree = c :: m'.kernelFree := by
  obtain ⟨-, fresh, copied, kept⟩ := h.cloned ran
  have global : ∀ i, (m'.tables c i).isValid → (m'.tables c i).isGlobal := by
    intro i valid
    rw [copied] at valid ⊢
    exact (h.upper i valid).1
  have unused : c ∉ kernel :: users := by
    intro root
    rw [h.roots c root] at fresh
    cases fresh
  refine ⟨⟨?_, ?_⟩, ?_, ?_⟩
  · intro t r q ht
    by_cases here : t = c
    · rw [here, Function.update_self] at ht
      cases ht
      exact List.mem_cons_of_mem _ List.mem_cons_self
    · rw [Function.update_of_ne here] at ht
      rcases List.mem_cons.mp (f.rooted t r q ht) with rfl | user
      · exact List.mem_cons_self
      · exact List.mem_cons_of_mem _ (List.mem_cons_of_mem _ user)
  · intro t r q i ht user
    by_cases here : t = c
    · rw [here, Function.update_self] at ht
      cases ht
      rw [here]
      exact fun valid => .inl ⟨rfl, global i valid⟩
    · rw [Function.update_of_ne here] at ht
      rw [kept t _ ht]
      refine f.fitting t r q i ht ?_
      refine (List.mem_cons.mp user).resolve_left ?_
      rintro rfl
      exact unused (f.rooted t r q ht)
  · intro p some
    cases p with
    | nil => exact absurd rfl some
    | cons i p =>
      have skipped : (m'.tables c i).down = none := by
        rw [Entry.down, if_neg]
        simp only [Bool.and_eq_true, Bool.not_eq_true', not_and, Bool.not_eq_false]
        exact global i
      rw [walkTo, skipped, Option.bind_none]
  · simp only [KernelPgTable.clone, Call.bind_eq_ok, Call.modify_apply, Call.pure_apply,
      Outcome.ok.injEq] at ran
    obtain ⟨other, m₁, new, -, -, ⟨-, rfl⟩, rfl, rfl⟩ := ran
    have user := (new_keeps new).free
    have free := (new_ok new).1
    exact ⟨user, free⟩

theorem pageAt_none {tables : Nat → Table}
    (nothing : ∀ p : List (Fin 512), p ≠ [] → walkTo tables c p = none) :
    pageAt tables c = fun _ => none := by
  ext1 i
  exact nothing _ (List.cons_ne_nil _ _)

theorem tableAt_none {tables : Nat → Table}
    (nothing : ∀ p : List (Fin 512), p ≠ [] → walkTo tables c p = none) :
    tableAt tables c = fun _ => none := by
  ext1 i
  apply nothing
  rcases i with i | ⟨i, j⟩
  · exact List.cons_ne_nil _ _
  · exact List.cons_ne_nil _ _

theorem Furnished.destroyed (f : Furnished kernel users m place) (tables : m'.tables = m.tables) :
    Furnished kernel (users.erase c) m' (fun t => (place t).filter fun p => p.1 ≠ c) := by
  have kept : ∀ t r q, (place t).filter (fun p => p.1 ≠ c) = some (r, q) ↔
      place t = some (r, q) ∧ r ≠ c := by
    intro t r q
    simp [Option.filter_eq_some_iff]
  refine ⟨?_, ?_⟩
  · intro t r q ht
    obtain ⟨ht, hr⟩ := (kept t r q).mp ht
    rcases List.mem_cons.mp (f.rooted t r q ht) with rfl | user
    · exact List.mem_cons_self
    · exact List.mem_cons_of_mem _ ((List.mem_erase_of_ne hr).mpr user)
  · intro t r q i ht user
    obtain ⟨ht, -⟩ := (kept t r q).mp ht
    rw [tables]
    exact f.fitting t r q i ht (List.mem_of_mem_erase user)

/-! ### What destroying a space gives back -/

/-- What is found below the entries of a table that are not skipped. -/
def belowWith (g : Nat → Multiset Nat) (tab : Table) : Multiset Nat := ∑ i, (tab i).down.elim 0 g

def pagesBelow (tables : Nat → Table) : Nat → Nat → Multiset Nat
  | 0, t => belowWith (fun x => {x}) (tables t)
  | level + 1, t => belowWith (pagesBelow tables level) (tables t)

def tablesBelow (tables : Nat → Table) : Nat → Nat → Multiset Nat
  | 0, t => {t}
  | level + 1, t => t ::ₘ belowWith (tablesBelow tables level) (tables t)

theorem sum_ownEntries (tab : Table) (g : Nat → Multiset Nat) :
    ((PageTable.ownEntries tab).map fun e => g (target e)).sum = belowWith g tab := by
  have each : ∀ l : List (Fin 512),
      ((((l.map tab).filter fun e => e.isValid && !e.isGlobal)).map fun e => g (target e)).sum =
        (l.map fun i => (tab i).down.elim 0 g).sum := by
    intro l
    induction l with
    | nil => rfl
    | cons i l ih =>
      rw [List.map_cons, List.map_cons, List.sum_cons, ← ih, Entry.down]
      by_cases own : ((tab i).isValid && !(tab i).isGlobal) = true
      · rw [List.filter_cons, if_pos own, List.map_cons, List.sum_cons,
          if_pos own, Option.elim_some]
      · rw [List.filter_cons, if_neg own, if_neg own, Option.elim_none, zero_add]
  rw [PageTable.ownEntries, each, belowWith, Fin.sum_univ_def]

/-- A call that returns, leaves the tables alone and puts these pages into the user pool. -/
def Releases (x : M Unit) (tables : Nat → Table) (pages : Multiset Nat) : Prop :=
  ∀ m : Memory, m.tables = tables → ∃ m' ps, x m = .ok () m' ∧ m'.tables = tables ∧
    m'.userFree = ps ++ m.userFree ∧ (ps : Multiset Nat) = pages

theorem forEach_releases {α : Type} {f : α → M Unit} {tables : Nat → Table}
    {pages : α → Multiset Nat}
    {as : List α} (h : ∀ a ∈ as, Releases (f a) tables (pages a)) :
    Releases (PageTable.forEach f as) tables (as.map pages).sum := by
  induction as with
  | nil =>
    intro m same
    exact ⟨m, [], rfl, same, rfl, rfl⟩
  | cons a as ih =>
    intro m same
    obtain ⟨m₁, ps₁, ran₁, same₁, user₁, count₁⟩ := h a List.mem_cons_self m same
    obtain ⟨m₂, ps₂, ran₂, same₂, user₂, count₂⟩ :=
      ih (fun a' ha' => h a' (List.mem_cons_of_mem _ ha')) m₁ same₁
    refine ⟨m₂, ps₂ ++ ps₁, ?_, same₂, ?_, ?_⟩
    · rw [PageTable.forEach, Call.bind_ok ran₁]
      exact ran₂
    · rw [user₂, user₁, List.append_assoc]
    · rw [List.map_cons, List.sum_cons, ← Multiset.coe_add, count₁, count₂, add_comm]

theorem destroyAt_releases {level : Nat} {below : PageTable → M Unit}
    {t : Nat} {tables : Nat → Table}
    {g : Nat → Multiset Nat} (h : ∀ e ∈ PageTable.ownEntries (tables t),
      Releases (PageTable.destroyEntry level below e) tables (g (target e))) :
    Releases (PageTable.destroyAt level below t) tables (belowWith g (tables t)) := by
  intro m same
  obtain ⟨m₁, ps, ran, same₁, user, count⟩ := forEach_releases h m same
  refine ⟨{ m₁ with kernelFree := t :: m₁.kernelFree }, ps, ?_, same₁, user, ?_⟩
  · rw [PageTable.destroyAt, Call.get_bind, same, Call.bind_ok ran]
    rfl
  · rw [count, sum_ownEntries]

/-- Destroying a space gives its own pages back, each one as often as it is mapped. -/
theorem Planted.destroyImp_releases (h : Planted kernel users m place)
    (f : Furnished kernel users m place) (hc : c ∈ users) (level : Nat) :
    ∀ {t : Nat} {q : List (Fin 512)}, place t = some (c, q) → q.length + level = 2 →
      Releases (PageTable.destroyImp level t) m.tables (pagesBelow m.tables level t) := by
  induction level with
  | zero =>
    intro t q ht hq
    refine destroyAt_releases (g := fun x => {x}) fun e he => ?_
    obtain ⟨i, rfl, valid, own⟩ := mem_ownEntries he
    rcases f.fitting t c q i ht hc valid with ⟨-, global⟩ | ⟨-, -, page⟩
    · exact absurd global own
    obtain ⟨leaf, sane⟩ := page hq
    intro m₁ same
    have located : PhysAddr.intoVa (m.tables t i).pa m₁ = .ok (target (m.tables t i)) m₁ :=
      addUsize_ok.mpr ⟨rfl, sane.fits, rfl⟩
    refine ⟨{ m₁ with userFree := target (m.tables t i) :: m₁.userFree },
      [target (m.tables t i)], ?_, same,
      rfl, rfl⟩
    rw [PageTable.destroyEntry, Call.bind_ok located, if_pos leaf]
    rfl
  | succ level ih =>
    intro t q ht hq
    refine destroyAt_releases (g := pagesBelow m.tables level) fun e he => ?_
    obtain ⟨i, rfl, valid, own⟩ := mem_ownEntries he
    have pointer : ¬ (m.tables t i).isLeaf := by
      rcases f.fitting t c q i ht hc valid with ⟨-, global⟩ | ⟨-, pointer, -⟩
      · exact absurd global own
      · exact pointer (by omega)
    have down := h.descends t c q i ht (by omega) valid fun _ _ => own
    have sane := h.placed _ _ down
    intro m₁ same
    obtain ⟨m₂, ps, ran, rest⟩ := ih down (by rw [List.length_cons]; omega) m₁ same
    have located : PhysAddr.intoVa (m.tables t i).pa m₁ = .ok (target (m.tables t i)) m₁ :=
      addUsize_ok.mpr ⟨rfl, sane.fits, rfl⟩
    have raw : PageTable.fromRaw (target (m.tables t i)) m₁ = .ok (target (m.tables t i)) m₁ :=
      fromRaw_ok.mpr ⟨rfl, (isAligned_iff _).mpr sane.aligned, rfl⟩
    refine ⟨m₂, ps, ?_, rest⟩
    rw [PageTable.destroyEntry, Call.bind_ok located, if_neg pointer, Call.bind_ok raw]
    exact ran

theorem coe_flatMap_target (g : Entry → List Nat) (g' : Nat → Multiset Nat) {es : List Entry}
    (same : ∀ e ∈ es, (g e : Multiset Nat) = g' (target e)) :
    (es.flatMap g : Multiset Nat) = (es.map fun e => g' (target e)).sum := by
  induction es with
  | nil => rfl
  | cons e es ih =>
    rw [List.flatMap_cons, ← Multiset.coe_add, List.map_cons, List.sum_cons,
      same e List.mem_cons_self,
      ih fun e' he' => same e' (List.mem_cons_of_mem _ he')]

/-- The tables that go with a space are its own, each one once. -/
theorem Planted.coe_freed (h : Planted kernel users m place) (f : Furnished kernel users m place)
    (hc : c ∈ users) (level : Nat) :
    ∀ {t : Nat} {q : List (Fin 512)}, place t = some (c, q) → q.length + level = 2 →
      (PageTable.freed m.tables level t : Multiset Nat) = tablesBelow m.tables level t := by
  induction level with
  | zero =>
    intro t q _ _
    simp [PageTable.freed, PageTable.freedWith, tablesBelow]
  | succ level ih =>
    intro t q ht hq
    rw [PageTable.freed, PageTable.freedWith, ← Multiset.coe_add,
      coe_flatMap_target _ (tablesBelow m.tables level), sum_ownEntries, add_comm,
      Multiset.coe_singleton,
      Multiset.singleton_add, tablesBelow]
    intro e he
    obtain ⟨i, rfl, valid, own⟩ := mem_ownEntries he
    have pointer : ¬ (m.tables t i).isLeaf := by
      rcases f.fitting t c q i ht hc valid with ⟨-, global⟩ | ⟨-, pointer, -⟩
      · exact absurd global own
      · exact pointer (by omega)
    rw [if_neg pointer]
    exact ih (h.descends t c q i ht (by omega) valid fun _ _ => own)
      (by rw [List.length_cons]; omega)

theorem elim_sum_single {ι : Type} [Fintype ι] (o : Option Nat) (g : Nat → ι → Option Nat) :
    (o.elim 0 fun x => ∑ s, single (g x s)) = ∑ s, single (o.bind fun x => g x s) := by
  cases o with
  | none => simp [single]
  | some x => rfl

theorem pagesBelow_eq (tables : Nat → Table) (c : Nat) :
    pagesBelow tables 2 c = contents (pageAt tables c) := by
  have zero : ∀ t, pagesBelow tables 0 t = ∑ k, single (walkTo tables t [k]) := by
    intro t
    rw [pagesBelow, belowWith]
    refine Finset.sum_congr rfl fun k _ => ?_
    rw [walkTo, single]
    cases (tables t k).down with
    | none => rfl
    | some x => rfl
  have one : ∀ t, pagesBelow tables 1 t =
      ∑ s : Fin 512 × Fin 512, single (walkTo tables t [s.1, s.2]) := by
    intro t
    rw [pagesBelow, belowWith, Fintype.sum_prod_type]
    refine Finset.sum_congr rfl fun j _ => ?_
    rw [funext zero, elim_sum_single]
    rfl
  rw [pagesBelow, belowWith, contents, Fintype.sum_prod_type]
  refine Finset.sum_congr rfl fun i _ => ?_
  rw [funext one, elim_sum_single]
  rfl

theorem tablesBelow_eq (tables : Nat → Table) (c : Nat) :
    tablesBelow tables 2 c = c ::ₘ contents (tableAt tables c) := by
  have zero : ∀ t, belowWith (tablesBelow tables 0) (tables t) = ∑ j,
    single (walkTo tables t [j]) := by
    intro t
    rw [belowWith]
    refine Finset.sum_congr rfl fun j _ => ?_
    rw [walkTo, single]
    cases (tables t j).down with
    | none => rfl
    | some x => rfl
  have one : ∀ t, tablesBelow tables 1 t = {t} + ∑ j, single (walkTo tables t [j]) := by
    intro t
    rw [tablesBelow, zero, Multiset.singleton_add]
  rw [tablesBelow, belowWith, contents, Fintype.sum_sum_type, Fintype.sum_prod_type,
    ← Finset.sum_add_distrib]
  apply congrArg (Multiset.cons c)
  refine Finset.sum_congr rfl fun i _ => ?_
  rw [funext one]
  simp only [tableAt, TableIndex.path, walkTo]
  cases (tables c i).down with
  | none => simp [single]
  | some x => rfl

/-- A space of a user can be destroyed, and what it gives back is what it has of its own. -/
theorem Planted.destroy_returns (h : Planted kernel users m place)
    (f : Furnished kernel users m place) (hc : c ∈ users) :
    ∃ m' pages tables, PageTable.destroy c m = .ok () m' ∧ m'.tables = m.tables ∧
      m'.userFree = pages ++ m.userFree ∧ m'.kernelFree = tables ++ m.kernelFree ∧
      (pages : Multiset Nat) = contents (pageAt m.tables c) ∧
      (tables : Multiset Nat) = c ::ₘ contents (tableAt m.tables c) := by
  have placeC := h.roots c (List.mem_cons_of_mem _ hc)
  obtain ⟨m', pages, ran, same, user, count⟩ := h.destroyImp_releases f hc 2 placeC rfl m rfl
  obtain ⟨-, free⟩ := PageTable.destroyImp_frees 2 c m m' ran
  refine ⟨m', pages, _, ran, same, user, free, ?_, ?_⟩
  · rw [count, pagesBelow_eq]
  · rw [Multiset.coe_reverse, h.coe_freed f hc 2 placeC rfl, tablesBelow_eq]

/-- The pages that a user's space has of its own are pages of the kernel's address space. -/
theorem Planted.pageAt_sane (h : Planted kernel users m place) (f : Furnished kernel users m place)
    (hc : c ∈ users) {s : PageIndex} {page : Nat} (mapped : pageAt m.tables c s = some page) :
    Sane page := by
  rw [pageAt, PageIndex.path, show [s.1, s.2.1, s.2.2] =
    [s.1, s.2.1] ++ [s.2.2] from rfl, walkTo_append,
    Option.bind_eq_some_iff] at mapped
  obtain ⟨l, walked, mapped⟩ := mapped
  have hl := h.place_walkTo (h.roots c (List.mem_cons_of_mem _ hc)) le_rfl walked
  rw [walkTo, Option.bind_eq_some_iff] at mapped
  obtain ⟨_, down, here⟩ := mapped
  cases here
  obtain ⟨⟨valid, own⟩, rfl⟩ := Entry.down_eq_some.mp down
  rcases f.fitting l c _ s.2.2 hl hc valid with ⟨-, global⟩ | ⟨-, -, page⟩
  · exact absurd global own
  · exact (page rfl).2

end Lifetime

end Tacos.Userproc
