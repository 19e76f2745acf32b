/- GID: Tacos/Userproc/Lookup
   generality: I
   source: src/mem/pagetable.rs, src/mem/pagetable/entry.rs
   digest: Mapping and looking up as operations on a partial map from page numbers to entries. -/

import Tacos.Userproc.Isolation
import Tacos.Userproc.Leaves

set_option autoImplicit false
set_option relaxedAutoImplicit false

namespace Tacos.Userproc

open Tacos.Lib.Exec Tacos.Lib.Run Tacos.Mem Tacos.Fs
open PageTable (px seen)

theorem pageIndex_eq_iff {x y : Nat} : pageIndex x = pageIndex y ↔
    x / 2 ^ 12 % 2 ^ 27 = y / 2 ^ 12 % 2 ^ 27 := by
  have parts : ∀ level, px level x = px level y ↔
      x / 2 ^ (12 + 9 * level) % 2 ^ 9 = y / 2 ^ (12 + 9 * level) % 2 ^ 9 := by
    intro level
    rw [Fin.ext_iff, px_eq, px_eq]
  rw [pageIndex, pageIndex, Prod.mk.injEq, Prod.mk.injEq, parts, parts, parts]
  constructor
  · rintro ⟨two, one, zero⟩
    omega
  · intro same
    refine ⟨?_, ?_, ?_⟩
    · omega
    · omega
    · omega

/-- A range of pages overwrites a partial map, page by page. -/
def overwrite (flag : PTEFlags) (f : PageIndex → Option Entry) :
    Nat → Nat → Nat → PageIndex → Option Entry
  | 0, _, _ => f
  | n + 1, pa, va =>
    overwrite flag (Function.update f (pageIndex va) (some (.new pa flag))) n
      (pa + 2 ^ 12) (va + 2 ^ 12)

section Overwrite

variable {flag : PTEFlags}

theorem overwrite_other {s : PageIndex} {n : Nat} :
    ∀ {f : PageIndex → Option Entry} {pa va : Nat}, (∀ k < n, s ≠ pageIndex (va + 2 ^ 12 * k)) →
      overwrite flag f n pa va s = f s := by
  induction n with
  | zero =>
    intro f pa va _
    rfl
  | succ n ih =>
    intro f pa va away
    rw [overwrite, ih]
    · refine Function.update_of_ne ?_ ..
      have first := away 0 (Nat.succ_pos n)
      rwa [Nat.mul_zero, Nat.add_zero] at first
    · intro k hk
      have next := away (k + 1) (Nat.succ_lt_succ hk)
      rwa [show va + 2 ^ 12 * (k + 1) = va + 2 ^ 12 + 2 ^ 12 * k by omega] at next

/-- At most `2 ^ 27` pages do not overwrite one another. -/
theorem overwrite_at {n : Nat} :
    ∀ {f : PageIndex → Option Entry} {pa va k : Nat}, va % 2 ^ 12 = 0 → n ≤ 2 ^ 27 → k < n →
      overwrite flag f n pa va (pageIndex (va + 2 ^ 12 * k)) =
        some (.new (pa + 2 ^ 12 * k) flag) := by
  induction n with
  | zero =>
    intro f pa va k _ _ hk
    omega
  | succ n ih =>
    intro f pa va k aligned few hk
    rw [overwrite]
    cases k with
    | zero =>
      rw [overwrite_other, Nat.mul_zero, Nat.add_zero, Function.update_self]
      · rfl
      · intro j hj
        rw [Ne, pageIndex_eq_iff]
        omega
    | succ k =>
      have next : va + 2 ^ 12 * (k + 1) = va + 2 ^ 12 + 2 ^ 12 * k := by omega
      rw [next, ih (by omega) (by omega) (by omega)]
      exact congrArg (fun p => some (Entry.new p flag)) (by omega)

end Overwrite

section Homes

variable {roots : List Nat} {m m' : Memory} {home home' : Nat → Option (List (Fin 512))} {c : Nat}

namespace Homed

theorem seen_eq (h : Homed roots m home) (hc : c ∈ roots) (va : Nat) :
    seen m c va = view m c (pageIndex va) := seen_of_getPte (h.getPte_eq hc va)

end Homed

theorem Overwritten.update {home₁ : Nat → Option (List (Fin 512))} {s : PageIndex} {e : Entry}
    (written : Overwritten roots m m' home₁ c s e) (hc : c ∈ roots) (valid : e.isValid) :
    view m' c = Function.update (view m c) s (some e) := by
  ext1 s'
  by_cases here : s' = s
  · rw [here, Function.update_self, written.here valid]
  · rw [Function.update_of_ne here, written.other c hc s' here]

theorem isValid_new {flag : PTEFlags} (small : flag < 2 ^ 8)
    (valid : flag.contains PTEFlags.v) (pa : Nat) :
    (Entry.new pa flag).isValid := by
  rw [Entry.isValid, Entry.flag_new pa small]
  exact valid

theorem mapLoop_homed {paEnd fuel : Nat} {flag : PTEFlags} (hc : c ∈ roots) :
    ∀ {pa va : Nat} {m : Memory} {home : Nat → Option (List (Fin 512))}, Homed roots m home →
      PageTable.mapLoop c paEnd flag fuel pa va m = .ok () m' → ∃ home', Homed roots m' home' := by
  induction fuel with
  | zero =>
    intro pa va m home _ ran
    cases ran
  | succ fuel ih =>
    intro pa va m home h ran
    rw [PageTable.mapLoop] at ran
    split at ran
    · simp only [Call.bind_eq_ok, addUsize_ok] at ran
      obtain ⟨_, m₁, mapped, _, _, ⟨rfl, -, rfl⟩, _, _, ⟨rfl, -, rfl⟩, rest⟩ := ran
      obtain ⟨home₁, written⟩ := mapPage_overwritten h hc mapped
      exact ih written.homed rest
    · cases ran
      exact ⟨home, h⟩

/-- The loop of `map` overwrites the pages that are left. -/
theorem mapLoop_view {paEnd : Nat} {flag : PTEFlags} (hc : c ∈ roots) (small : flag < 2 ^ 8)
    (valid : flag.contains PTEFlags.v) {n : Nat} :
    ∀ {fuel pa va : Nat} {m : Memory} {home : Nat → Option (List (Fin 512))}, Homed roots m home →
      n = pagesOf (paEnd - pa) → PageTable.mapLoop c paEnd flag fuel pa va m = .ok () m' →
      view m' c = overwrite flag (view m c) n pa va := by
  induction n with
  | zero =>
    intro fuel pa va m home h none ran
    rw [pagesOf] at none
    cases fuel with
    | zero => cases ran
    | succ fuel =>
      rw [PageTable.mapLoop, if_neg (by omega)] at ran
      cases ran
      rfl
  | succ n ih =>
    intro fuel pa va m home h some ran
    rw [pagesOf] at some
    cases fuel with
    | zero => cases ran
    | succ fuel =>
      rw [PageTable.mapLoop, if_pos (by omega)] at ran
      simp only [Call.bind_eq_ok, addUsize_ok] at ran
      obtain ⟨_, m₁, mapped, _, _, ⟨rfl, -, rfl⟩, _, _, ⟨rfl, -, rfl⟩, rest⟩ := ran
      obtain ⟨home₁, written⟩ := mapPage_overwritten h hc mapped
      have page : pgSize = 2 ^ 12 := rfl
      rw [ih written.homed (by rw [pagesOf]; omega) rest,
        written.update hc (isValid_new small valid pa), overwrite,
        page]

theorem map_view {pa va size : Nat} {flag : PTEFlags} (h : Homed roots m home) (hc : c ∈ roots)
    (small : flag < 2 ^ 8) (valid : flag.contains PTEFlags.v)
    (ran : PageTable.map c pa va size flag m = .ok () m') :
    view m' c = overwrite flag (view m c) (pagesOf size) pa va := by
  simp only [PageTable.map, Call.bind_eq_ok, require_ok, addUsize_ok] at ran
  obtain ⟨_, _, ⟨-, rfl⟩, _, _, ⟨rfl, -, rfl⟩, looped⟩ := ran
  exact mapLoop_view hc small valid h (by rw [Nat.add_sub_cancel_left]) looped

theorem map_homed {pa va size : Nat} {flag : PTEFlags} (h : Homed roots m home) (hc : c ∈ roots)
    (ran : PageTable.map c pa va size flag m = .ok () m') : ∃ home', Homed roots m' home' := by
  simp only [PageTable.map, Call.bind_eq_ok, require_ok, addUsize_ok] at ran
  obtain ⟨_, _, ⟨-, rfl⟩, _, _, ⟨rfl, -, rfl⟩, looped⟩ := ran
  exact mapLoop_homed hc h looped

theorem mapLoop_returns (paEnd : Nat) (flag : PTEFlags) (hc : c ∈ roots) {n : Nat} :
    ∀ (fuel pa va : Nat) {m : Memory} {home : Nat → Option (List (Fin 512))}, Homed roots m home →
      n = pagesOf (paEnd - pa) → n < fuel → pa + n * 2 ^ 12 < 2 ^ 64 → va + n * 2 ^ 12 < 2 ^ 64 →
      2 * n ≤ m.kernelFree.length → ∃ m', PageTable.mapLoop c paEnd flag fuel pa va m = .ok () m' ∧
        m.kernelFree.length ≤ m'.kernelFree.length + 2 * n := by
  induction n with
  | zero =>
    intro fuel pa va m home h none enough _ _ _
    rw [pagesOf] at none
    obtain ⟨fuel, rfl⟩ : ∃ f, fuel = f + 1 := ⟨fuel - 1, by omega⟩
    rw [PageTable.mapLoop, if_neg (by omega)]
    exact ⟨m, rfl, Nat.le_refl _⟩
  | succ n ih =>
    intro fuel pa va m home h some enough fitsPa fitsVa supply
    rw [pagesOf] at some
    have page : pgSize = 2 ^ 12 := rfl
    obtain ⟨fuel, rfl⟩ : ∃ f, fuel = f + 1 := ⟨fuel - 1, by omega⟩
    obtain ⟨_, m₁, mapped, -, taken, -⟩ := mapPage_takes h hc pa flag (.inr (by omega))
    obtain ⟨home₁, written⟩ := mapPage_overwritten h hc mapped
    obtain ⟨m₂, rest, taken₂⟩ := ih fuel (pa + pgSize) (va + pgSize) written.homed
      (by rw [pagesOf]; omega) (by omega) (by omega) (by omega) (by omega)
    refine ⟨m₂, ?_, by omega⟩
    rw [PageTable.mapLoop, if_pos (by omega), Call.bind_ok mapped,
      Call.bind_ok (addUsize_ok.mpr ⟨rfl, by omega, rfl⟩),
      Call.bind_ok (addUsize_ok.mpr ⟨rfl, by omega, rfl⟩)]
    exact rest

/-- `map` returns when there are two kernel pages for each page and the addresses stay below `2 ^
64`. -/
theorem map_returns (h : Homed roots m home) (hc : c ∈ roots) {pa va size : Nat} (flag : PTEFlags)
    (alignedPa : pa % 2 ^ 12 = 0) (alignedVa : va % 2 ^ 12 = 0)
    (fitsPa : pa + pagesOf size * 2 ^ 12 < 2 ^ 64)
    (fitsVa : va + pagesOf size * 2 ^ 12 < 2 ^ 64)
    (supply : 2 * pagesOf size ≤ m.kernelFree.length) :
    ∃ m', PageTable.map c pa va size flag m = .ok () m' ∧
      m.kernelFree.length ≤ m'.kernelFree.length + 2 * pagesOf size := by
  have page : pgSize = 2 ^ 12 := rfl
  have whole : size ≤ pagesOf size * 2 ^ 12 := by
    rw [pagesOf]
    omega
  have fuel : pagesOf size < size / pgSize + 2 := by
    rw [pagesOf, page]
    omega
  obtain ⟨m', ran, taken⟩ := mapLoop_returns (pa + size) flag hc (size / pgSize + 2) pa va h
    (by rw [Nat.add_sub_cancel_left]) fuel fitsPa fitsVa supply
  refine ⟨m', ?_, taken⟩
  rw [PageTable.map, Call.bind_ok (require_ok (u := ()).mpr ⟨⟨(isAligned_iff pa).mpr alignedPa,
    (isAligned_iff va).mpr alignedVa⟩, rfl⟩), Call.bind_ok (addUsize_ok.mpr ⟨rfl, by omega, rfl⟩)]
  exact ran

end Homes

/-- The memory, and the page tables that were built in it. -/
structure Grove where
  memory : Memory
  roots : List PageTable

/-- A page table is made, cloned from one that is there, or added to. -/
inductive Build where
  | new
  | clone (kernel : PageTable)
  | map (root : PageTable) (pa va size : Nat) (flag : PTEFlags)

namespace Grove

def step (s : Grove) : Build → Option Grove
  | .new =>
    match PageTable.new s.memory with
    | .ok root m => some ⟨m, root :: s.roots⟩
    | _ => none
  | .clone kernel =>
    if kernel ∈ s.roots then
      match KernelPgTable.clone kernel s.memory with
      | .ok root m => some ⟨m, root :: s.roots⟩
      | _ => none
    else none
  | .map root pa va size flag =>
    if root ∈ s.roots then
      match root.map pa va size flag s.memory with
      | .ok _ m => some ⟨m, s.roots⟩
      | _ => none
    else none

/-- The invariant: every table hangs in one place. -/
def Rooted (s : Grove) : Prop := ∃ home, Homed s.roots s.memory home

variable {s s' : Grove} {m : Memory}

theorem Rooted.first (nodup : m.kernelFree.Nodup) (sane : ∀ t ∈ m.kernelFree, Sane t) :
    Rooted ⟨m, []⟩ :=
  ⟨fun _ => none, .first nodup sane⟩

/-- The step lemma. -/
theorem Rooted.step {b : Build} (rooted : s.Rooted) (stepped : s.step b = some s') : s'.Rooted := by
  obtain ⟨home, h⟩ := rooted
  cases b with
  | new =>
    rw [Grove.step] at stepped
    split at stepped
    · rename_i root m ran
      cases stepped
      obtain ⟨free, tables⟩ := new_ok ran
      exact ⟨_, h.root free tables (fun t ht => List.mem_cons.mp ht)
        fun i inner => absurd inner.2 not_isValid_zero⟩
    · cases stepped
  | clone kernel =>
    rw [Grove.step] at stepped
    split at stepped
    · rename_i old
      split at stepped
      · rename_i root m ran
        cases stepped
        have atKernel := h.roots kernel old
        obtain ⟨free, tables⟩ := clone_ok (fun n hn => h.fresh hn atKernel) ran
        exact ⟨_, h.root free tables (fun t ht => List.mem_cons.mp ht)
          fun i inner => h.descends kernel [] i atKernel (by decide) inner.2⟩
      · cases stepped
    · cases stepped
  | map root pa va size flag =>
    rw [Grove.step] at stepped
    split at stepped
    · rename_i old
      split at stepped
      · rename_i m ran
        cases stepped
        exact map_homed h old ran
      · cases stepped
    · cases stepped

/-- The run lemma. -/
theorem rooted_of_run {bs : List Build} (nodup : m.kernelFree.Nodup)
    (sane : ∀ t ∈ m.kernelFree, Sane t)
    (built : run step ⟨m, []⟩ bs = some s) : s.Rooted :=
  run_invariant (fun _ _ _ rooted stepped => rooted.step stepped) (Rooted.first nodup sane) built

end Grove

/-- A range was mapped: its pages are seen with their physical pages and these flags, and every
address whose page number is not that of one of them is seen as before. -/
structure RangeMapped (c pa va size : Nat) (flag : PTEFlags) (m m' : Memory) : Prop where
  returns : ∀ x, (∃ r, PageTable.getPte c x m = .ok r m) ∧ ∃ r, PageTable.getPte c x m' = .ok r m'
  mapped : size ≤ 2 ^ 39 → ∀ k < pagesOf size, ∀ o < 2 ^ 12,
    ∃ e, seen m' c (va + 2 ^ 12 * k + o) = some e ∧ e.pa = pa + 2 ^ 12 * k ∧ e.flag = flag
  other : ∀ x, (∀ k < pagesOf size, x / 2 ^ 12 % 2 ^ 27 ≠ (va + 2 ^ 12 * k) / 2 ^ 12 % 2 ^ 27) →
    seen m' c x = seen m c x

section Range

variable {roots : List Nat} {m m' : Memory} {home : Nat → Option (List (Fin 512))}
    {c pa va size : Nat}
  {flag : PTEFlags}

theorem Homed.rangeMapped (h : Homed roots m home) (hc : c ∈ roots) (alignedPa : pa % 2 ^ 12 = 0)
    (alignedVa : va % 2 ^ 12 = 0) (fitsPa : pa + size < 2 ^ 56) (small : flag < 2 ^ 8)
    (valid : flag.contains PTEFlags.v) (ran : PageTable.map c pa va size flag m = .ok () m') :
    RangeMapped c pa va size flag m m' := by
  obtain ⟨home', h'⟩ := map_homed h hc ran
  have written := map_view h hc small valid ran
  refine ⟨fun x => ⟨⟨_, h.getPte_eq hc x⟩, _, h'.getPte_eq hc x⟩, ?_, ?_⟩
  · intro few k hk o ho
    have page : pageIndex (va + 2 ^ 12 * k + o) = pageIndex (va + 2 ^ 12 * k) := by
      rw [pageIndex_eq_iff]
      omega
    have bound : pagesOf size ≤ 2 ^ 27 := by
      rw [pagesOf]
      omega
    have inside : 2 ^ 12 * k < size := by
      rw [pagesOf] at hk
      omega
    refine ⟨.new (pa + 2 ^ 12 * k) flag, ?_, Entry.pa_new (by omega) (by omega)
      (Nat.lt_trans small (by decide)), Entry.flag_new _ small⟩
    rw [h'.seen_eq hc, written, page, overwrite_at alignedVa bound hk]
  · intro x away
    rw [h'.seen_eq hc, h.seen_eq hc, written, overwrite_other]
    exact fun k hk same => away k hk (pageIndex_eq_iff.mp same)

/-- Mapping a range into a page table that was built from an empty or a cloned one adds it to the
partial map that the table stands for; it returns when there are kernel pages for the tables and
the addresses stay below `2 ^ 64`. -/
theorem map_adds_range (pa va size : Nat) (flag : PTEFlags) {bs : List Build} {s : Grove}
    (nodup : m.kernelFree.Nodup) (sane : ∀ t ∈ m.kernelFree, Sane t)
    (built : run Grove.step ⟨m, []⟩ bs = some s) (hc : c ∈ s.roots) (alignedPa : pa % 2 ^ 12 = 0)
    (alignedVa : va % 2 ^ 12 = 0) (fitsPa : pa + size < 2 ^ 56)
    (fitsVa : va + size < 2 ^ 64) (small : flag < 2 ^ 8)
    (valid : flag.contains PTEFlags.v) :
    (∀ m', PageTable.map c pa va size flag s.memory = .ok () m' →
      RangeMapped c pa va size flag s.memory m') ∧
      (2 * pagesOf size ≤ s.memory.kernelFree.length → va + pagesOf size * 2 ^ 12 ≠ 2 ^ 64 →
        ∃ m', PageTable.map c pa va size flag s.memory = .ok () m') := by
  obtain ⟨home, h⟩ := Grove.rooted_of_run nodup sane built
  refine ⟨fun m' ran => h.rangeMapped hc alignedPa alignedVa fitsPa small valid ran,
    fun supply below => ?_⟩
  have pages : pagesOf size * 2 ^ 12 < size + 2 ^ 12 := by
    rw [pagesOf]
    omega
  obtain ⟨m', ran, -⟩ := map_returns h hc flag alignedPa alignedVa (by omega) (by omega) supply
  exact ⟨m', ran⟩

end Range

/-- A page table, a page in it, and a clone of it. -/
def clonedTable : List Build :=
  [.new, .map 0xFFFFFFC081000000 0x80000000 0xFFFFFFC080000000 0x1000 KernelPgTable.rw,
    .clone 0xFFFFFFC081000000]

theorem two_pages_added : ∃ s m', run Grove.step ⟨bootMemory, []⟩ clonedTable = some s ∧
    PageTable.map 0xFFFFFFC081003000 0x87E00000 0x1FF000 0x1001 stackFlag s.memory = .ok () m' ∧
    RangeMapped 0xFFFFFFC081003000 0x87E00000 0x1FF000 0x1001 stackFlag s.memory m' := by
  have computed : (run Grove.step ⟨bootMemory, []⟩ clonedTable).map
    (fun s => (s.roots, s.memory.kernelFree.length)) =
      some ([0xFFFFFFC081003000, 0xFFFFFFC081000000], 196) := by
    decide +kernel
  obtain ⟨s, built, ended⟩ := Option.map_eq_some_iff.mp computed
  rw [Prod.mk.injEq] at ended
  have root : 0xFFFFFFC081003000 ∈ s.roots := ended.1 ▸ List.mem_cons_self
  obtain ⟨adds, returns⟩ := map_adds_range 0x87E00000 0x1FF000 0x1001 stackFlag
    bootMemory_nodup bootMemory_sane built root (by decide) (by decide) (by decide) (by decide)
    (by decide) (by decide)
  obtain ⟨m', ran⟩ := returns (by rw [ended.2]; decide) (by decide)
  exact ⟨s, m', built, ran, adds m' ran⟩

end Tacos.Userproc
