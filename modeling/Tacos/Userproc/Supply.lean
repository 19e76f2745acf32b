/- GID: Tacos/Userproc/Supply
   generality: I
   source: src/mem/pagetable.rs
   digest: How many kernel pages a mapping takes, and that it is done when they are there. -/

import Tacos.Userproc.Lifetime

set_option autoImplicit false
set_option relaxedAutoImplicit false

namespace Tacos.Userproc

open Tacos.Lib.Exec Tacos.Mem Tacos.Fs
open PageTable (px)

variable {kernel c va : Nat} {users : List Nat} {m : Memory} {place : Nat → Option Place}

/-- A call that returns, leaves the user pool alone and takes at most `n` kernel pages. -/
def Takes {α : Type} (x : M α) (m : Memory) (n : Nat) (post : α → Memory → Prop) : Prop :=
  ∃ a m', x m = .ok a m' ∧ m'.userFree = m.userFree ∧
    m.kernelFree.length ≤ m'.kernelFree.length + n ∧ post a m'

theorem new_takes {n : Nat} {rest : List Nat} (free : m.kernelFree = n :: rest) (sane : Sane n) :
    PageTable.new m = .ok n { m with
      tables := Function.update m.tables n fun _ => 0, kernelFree := rest } := by
  have allocated : kalloc m = .ok n { m with kernelFree := rest } := by
    rw [kalloc, free]
  rw [PageTable.new, Call.bind_ok allocated, Call.modify_bind]
  exact fromRaw_ok.mpr ⟨rfl, (isAligned_iff n).mpr sane.aligned, rfl⟩

theorem create_takes (t : Nat) (i : Fin 512) (flag : PTEFlags)
    (sane : ∀ n ∈ m.kernelFree, Sane n) (supply : m.kernelFree ≠ []) :
    Takes (PageTable.create t i flag) m 1 fun _ _ => True := by
  cases free : m.kernelFree with
  | nil => exact absurd free supply
  | cons n rest =>
    have first := sane n (free ▸ List.mem_cons_self)
    have new := new_takes free first
    have inKernel := (inKernelSpace_iff first.fits).mpr first.high
    rw [Takes, PageTable.create, Call.bind_ok new, Call.bind_ok (ofVa_ok.mpr ⟨rfl, inKernel, rfl⟩)]
    refine ⟨n, _, rfl, rfl, ?_, trivial⟩
    rw [free]
    exact le_rfl

theorem Grounded.walkOrCreate_takes {P : Type} {S : Scheme P} {roots : List Nat}
    {place : Nat → Option P} (h : Grounded S roots m place) {t : Nat} {i : Fin 512}
    (isGlobal : Bool) (below : (m.tables t i).isValid → Sane (target (m.tables t i)))
    (supply : (m.tables t i).isValid ∨ m.kernelFree ≠ []) :
    Takes (PageTable.walkOrCreate t i isGlobal) m 1 fun l m' =>
      (m.tables t i).isValid → l = target (m.tables t i) ∧ m' = m := by
  by_cases valid : (m.tables t i).isValid
  · rw [Takes, PageTable.walkOrCreate, Call.bind_ok (walk_some valid (below valid))]
    exact ⟨_, m, rfl, rfl, Nat.le_add_right _ 1, fun _ => ⟨rfl, rfl⟩⟩
  · obtain ⟨l, m', ran, user, taken, -⟩ :=
      create_takes t i (pointerFlag isGlobal) h.sane (supply.resolve_left valid)
    rw [Takes, PageTable.walkOrCreate, Call.bind_ok (walk_none valid)]
    exact ⟨l, m', ran, user, taken, fun hvalid => absurd hvalid valid⟩

def Ready (m : Memory) (c va : Nat) : Prop :=
  (m.tables c (px 2 va)).isValid ∧ (m.tables (target (m.tables c (px 2 va))) (px 1 va)).isValid

instance (m : Memory) (c va : Nat) : Decidable (Ready m c va) := inferInstanceAs (Decidable (_ ∧ _))

theorem mapPage_takes {roots : List Nat} {home : Nat → Option (List (Fin 512))}
    (h : Homed roots m home) (hc : c ∈ roots) (pa : Nat) (flag : PTEFlags)
    (supply : Ready m c va ∨ 2 ≤ m.kernelFree.length) :
    Takes (PageTable.mapPage c pa va flag) m 2 fun _ m' =>
      Ready m c va → m'.kernelFree = m.kernelFree := by
  have some : ∀ {k : Nat}, k + 1 ≤ m.kernelFree.length → m.kernelFree ≠ [] := by
    intro k hk hnil
    rw [hnil, List.length_nil] at hk
    omega
  obtain ⟨l₁, m₁, ran₁, user₁, taken₁, post₁⟩ :=
    h.walkOrCreate_takes (flag.contains PTEFlags.g)
      (fun valid => h.placed _ _ (h.descends c [] _ (h.roots c hc) (by decide) valid))
      (supply.imp (fun ready => ready.1) fun two => some two)
  obtain ⟨home₁, s₁⟩ := walkOrCreate_descended h (h.roots c hc) (by decide) ran₁
  have supply₁ : (m₁.tables l₁ (px 1 va)).isValid ∨ m₁.kernelFree ≠ [] := by
    rcases supply with ready | two
    · obtain ⟨rfl, rfl⟩ := post₁ ready.1
      exact .inl ready.2
    · refine .inr fun hnil => ?_
      rw [hnil, List.length_nil] at taken₁
      omega
  obtain ⟨l₀, m₂, ran₂, user₂, taken₂, post₂⟩ :=
    s₁.homed.walkOrCreate_takes (flag.contains PTEFlags.g)
      (fun valid => s₁.homed.placed _ _ (s₁.homed.descends l₁ _ _ s₁.below Nat.one_lt_two valid))
      supply₁
  rw [Takes, PageTable.mapPage, Call.bind_ok ran₁, Call.bind_ok ran₂]
  refine ⟨(), _, rfl, user₂.trans user₁, ?_, ?_⟩
  · show m.kernelFree.length ≤ m₂.kernelFree.length + 2
    omega
  · intro ready
    obtain ⟨rfl, rfl⟩ := post₁ ready.1
    obtain ⟨-, rfl⟩ := post₂ ready.2
    rfl

/-- A range within one page is mapped when there are two kernel pages. -/
theorem mapOne_takes {roots : List Nat} {home : Nat → Option (List (Fin 512))}
    (h : Homed roots m home) (hc : c ∈ roots) (pa va size : Nat) (flag : PTEFlags)
    (pos : 0 < size) (small : size ≤ pgSize) (sane : Sane (pa + vmOffset))
    (alignedVa : va % 2 ^ 12 = 0) (fits : va + pgSize < 2 ^ 64)
    (supply : 2 ≤ m.kernelFree.length) :
    Takes (PageTable.map c pa va size flag) m 2 fun _ _ => True := by
  obtain ⟨_, m', ran, user, taken, -⟩ := mapPage_takes h hc pa flag (.inr supply)
  have page : pgSize = 2 ^ 12 := rfl
  have sanePa := sane.aligned
  have fitsPa := sane.fits
  have offset := vmOffset_eq
  refine ⟨(), m', ?_, user, taken, trivial⟩
  have aligned : IsAligned pa ∧ IsAligned va :=
    ⟨(isAligned_iff pa).mpr (by omega), (isAligned_iff va).mpr alignedVa⟩
  have twice : ∃ fuel, size / pgSize + 2 = fuel + 1 + 1 := ⟨size / pgSize, rfl⟩
  obtain ⟨fuel, twice⟩ := twice
  rw [PageTable.map, Call.bind_ok (require_ok (u := ()).mpr ⟨aligned, rfl⟩),
    Call.bind_ok (addUsize_ok.mpr ⟨rfl, by omega, rfl⟩), twice, PageTable.mapLoop,
    if_pos (by omega), Call.bind_ok ran, Call.bind_ok (addUsize_ok.mpr ⟨rfl, by omega, rfl⟩),
    Call.bind_ok (addUsize_ok.mpr ⟨rfl, fits, rfl⟩), PageTable.mapLoop, if_neg (by omega)]
  rfl

/-- The number of tables of the lowest level for `n` pages from an address on. -/
def regions (va n : Nat) : Nat := (va / 2 ^ 12 % 512 + n + 511) / 512

theorem px_succ_page (level : Nat) (hlevel : level = 1 ∨ level = 2) (aligned : va % 2 ^ 12 = 0)
    (inside : (va + 2 ^ 12) / 2 ^ 12 % 512 ≠ 0) : px level (va + 2 ^ 12) = px level va := by
  apply Fin.ext
  rw [px_eq, px_eq]
  rcases hlevel with rfl | rfl
  · omega
  · omega

/-- The loop over `n` pages returns when there are two kernel pages for each region; a region that
is under way has taken its two, which count as `credit`. -/
theorem mapLoop_takes {paEnd : Nat} {flag : PTEFlags} (hflag : flag.contains PTEFlags.g = true)
    {n : Nat} : ∀ (fuel pa va credit : Nat) {m : Memory} {place : Nat → Option Place},
      Planted kernel [] m place → n = (paEnd - pa + (2 ^ 12 - 1)) / 2 ^ 12 → n < fuel →
      va % 2 ^ 12 = 0 → vmOffset ≤ va → va + n * 2 ^ 12 < 2 ^ 64 → pa + n * 2 ^ 12 < 2 ^ 64 →
      credit = 0 ∨ credit = 2 ∧ Ready m kernel va ∧ va / 2 ^ 12 % 512 ≠ 0 →
      2 * regions va n ≤ m.kernelFree.length + credit →
      ∃ m', PageTable.mapLoop kernel paEnd flag fuel pa va m = .ok () m' ∧
        m'.userFree = m.userFree ∧
        m.kernelFree.length + credit ≤ m'.kernelFree.length + 2 * regions va n ∧
        ∃ place', Planted kernel [] m' place' := by
  induction n with
  | zero =>
    intro fuel pa va credit m place h hn hfuel _ _ _ _ lent enough
    obtain ⟨fuel, rfl⟩ : ∃ f, fuel = f + 1 := ⟨fuel - 1, by omega⟩
    rw [PageTable.mapLoop, if_neg (by omega)]
    refine ⟨m, rfl, rfl, ?_, place, h⟩
    rw [regions]
    omega
  | succ n ih =>
    intro fuel pa va credit m place h hn hfuel aligned lower fitsVa fitsPa lent enough
    obtain ⟨fuel, rfl⟩ : ∃ f, fuel = f + 1 := ⟨fuel - 1, by omega⟩
    have high : 256 ≤ (px 2 va).val := by
      simp only [px, show (511 : Nat) = 2 ^ 9 - 1 from rfl, Nat.and_two_pow_sub_one_eq_mod,
        Nat.shiftRight_eq_div_pow, pgShift]
      rw [vmOffset_eq] at lower
      omega
    have atKernel : kernel = kernel → flag.contains PTEFlags.g = true ∧ 256 ≤ (px 2 va).val ∧
        ([] : List Nat) = [] := fun _ => ⟨hflag, high, rfl⟩
    have some : 1 ≤ regions va (n + 1) := by
      rw [regions]
      omega
    have supply : Ready m kernel va ∨ 2 ≤ m.kernelFree.length := by
      rcases lent with none | ⟨-, ready, -⟩
      · exact .inr (by omega)
      · exact .inl ready
    obtain ⟨_, m₁, ran, user, taken, post⟩ := mapPage_takes h.homed List.mem_cons_self pa flag
      supply
    obtain ⟨place₁, mapped⟩ := mapPage_mapped h List.mem_cons_self atKernel
      (fun hmem => absurd hmem List.not_mem_nil) ran
    have left : m.kernelFree.length + credit ≤ m₁.kernelFree.length + 2 := by
      rcases lent with none | ⟨two, ready, -⟩
      · omega
      · rw [post ready]
        omega
    -- The next page is below the same tables unless it starts a region.
    have next : ∃ credit₁, (credit₁ = 0 ∨ credit₁ = 2 ∧ Ready m₁ kernel (va + 2 ^ 12) ∧
          (va + 2 ^ 12) / 2 ^ 12 % 512 ≠ 0) ∧
        2 * regions (va + 2 ^ 12) n + 2 = 2 * regions va (n + 1) + credit₁ := by
      by_cases inside : (va + 2 ^ 12) / 2 ^ 12 % 512 ≠ 0
      · have two := px_succ_page 2 (.inr rfl) aligned inside
        have one := px_succ_page 1 (.inl rfl) aligned inside
        have ready : Ready m₁ kernel (va + 2 ^ 12) := by
          rw [Ready, two, one]
          exact ⟨mapped.leads.1, mapped.leads.2.1⟩
        refine ⟨2, .inr ⟨rfl, ready, inside⟩, ?_⟩
        rw [regions, regions]
        omega
      · refine ⟨0, .inl rfl, ?_⟩
        rw [regions, regions]
        omega
    obtain ⟨credit₁, lent₁, count⟩ := next
    obtain ⟨m₂, rest, user₂, taken₂, planted₂⟩ := ih fuel (pa + 2 ^ 12) (va + 2 ^ 12) credit₁
      mapped.planted (by omega) (by omega) (by omega) (by omega) (by omega) (by omega) lent₁
      (by omega)
    refine ⟨m₂, ?_, user₂.trans user, by omega, planted₂⟩
    rw [PageTable.mapLoop, if_pos (by omega), Call.bind_ok ran,
      Call.bind_ok (addUsize_ok.mpr ⟨rfl, by rw [pgSize, pgShift]; omega, rfl⟩),
      Call.bind_ok (addUsize_ok.mpr ⟨rfl, by rw [pgSize, pgShift]; omega, rfl⟩)]
    exact rest

def pagesOf (size : Nat) : Nat := (size + (2 ^ 12 - 1)) / 2 ^ 12

theorem map_takes (pa va size : Nat) {flag : PTEFlags} (hflag : flag.contains PTEFlags.g = true)
    (h : Planted kernel [] m place) (alignedPa : pa % 2 ^ 12 = 0) (alignedVa : va % 2 ^ 12 = 0)
    (lower : vmOffset ≤ va) (fitsVa : va + pagesOf size * 2 ^ 12 < 2 ^ 64)
    (fitsPa : pa + pagesOf size * 2 ^ 12 < 2 ^ 64)
    (enough : 2 * regions va (pagesOf size) ≤ m.kernelFree.length) :
    ∃ m', PageTable.map kernel pa va size flag m = .ok () m' ∧ m'.userFree = m.userFree ∧
      m.kernelFree.length ≤ m'.kernelFree.length + 2 * regions va (pagesOf size) ∧
      ∃ place', Planted kernel [] m' place' := by
  rw [pagesOf] at fitsVa fitsPa enough ⊢
  have fuel : (size + (2 ^ 12 - 1)) / 2 ^ 12 < size / pgSize + 2 := by
    rw [show pgSize = 2 ^ 12 from rfl]
    omega
  obtain ⟨m', ran, user, taken, planted⟩ := mapLoop_takes hflag (size / pgSize + 2) pa va 0 h
    (by rw [Nat.add_sub_cancel_left]) fuel alignedVa lower fitsVa fitsPa (.inl rfl) enough
  refine ⟨m', ?_, user, taken, planted⟩
  have aligned : IsAligned pa ∧ IsAligned va :=
    ⟨(isAligned_iff pa).mpr alignedPa, (isAligned_iff va).mpr alignedVa⟩
  rw [PageTable.map, Call.bind_ok (require_ok (u := ()).mpr ⟨aligned, rfl⟩),
    Call.bind_ok (addUsize_ok.mpr ⟨rfl, by omega, rfl⟩)]
  exact ran

/-- The kernel pages for the kernel's own page table. -/
def kernelPages (etext ramSize : Nat) : Nat :=
  1 + 2 * regions (KernelPgTable.kernBase + vmOffset)
      (pagesOf (etext - (KernelPgTable.kernBase + vmOffset))) +
    2 * regions etext (pagesOf (KernelPgTable.vmBase + ramSize - etext)) + 6

/-- The kernel's page table is built when there are two kernel pages for each region. -/
theorem initInner_takes (nodup : m.kernelFree.Nodup) (sane : ∀ t ∈ m.kernelFree, Sane t)
    {etext ramSize : Nat} (aligned : etext % 2 ^ 12 = 0)
    (above : KernelPgTable.kernBase + vmOffset ≤ etext)
    (below : etext ≤ KernelPgTable.vmBase + ramSize)
    (fits : KernelPgTable.vmBase + ramSize + 2 ^ 12 < 2 ^ 64)
    (enough : kernelPages etext ramSize ≤ m.kernelFree.length) :
    Takes (KernelPgTable.initInner etext ramSize) m (kernelPages etext ramSize)
      fun _ _ => True := by
  have rx : PTEFlags.contains KernelPgTable.rx PTEFlags.g = true := by decide
  have rw : PTEFlags.contains KernelPgTable.rw PTEFlags.g = true := by decide
  have offset := vmOffset_eq
  have base : KernelPgTable.kernBase = 0x80200000 := rfl
  have vm : KernelPgTable.vmBase = vmOffset + 0x80000000 := rfl
  have inPlic : inKernelSpace KernelPgTable.plicBase := by decide
  have inMmio : inKernelSpace KernelPgTable.mmioBase := by decide
  have inText : inKernelSpace etext := (inKernelSpace_iff (by omega)).mpr (by omega)
  have plicRegions : regions KernelPgTable.plicBase (pagesOf 0x400000) = 2 := by decide
  have mmioRegions : regions KernelPgTable.mmioBase (pagesOf pgSize) = 1 := by decide
  rw [kernelPages] at enough ⊢
  cases free : m.kernelFree with
  | nil =>
    rw [free, List.length_nil] at enough
    omega
  | cons root rest =>
    have new := new_takes free (sane root (free ▸ List.mem_cons_self))
    have planted₀ := Planted.first nodup sane new
    rw [free, List.length_cons] at enough
    obtain ⟨m₁, text, user₁, taken₁, place₁, planted₁⟩ := map_takes KernelPgTable.kernBase
      (KernelPgTable.kernBase + vmOffset) (etext - (KernelPgTable.kernBase + vmOffset)) rx planted₀
      (by decide) (by decide) (by omega) (by rw [pagesOf]; omega) (by rw [pagesOf]; omega)
      (by simp only; omega)
    simp only at user₁ taken₁
    obtain ⟨m₂, data, user₂, taken₂, place₂, planted₂⟩ := map_takes (etext - vmOffset) etext
      (KernelPgTable.vmBase + ramSize - etext) rw planted₁ (by omega) aligned (by omega)
      (by rw [pagesOf]; omega) (by rw [pagesOf]; omega) (by omega)
    obtain ⟨m₃, plic, user₃, taken₃, place₃, planted₃⟩ := map_takes
      (KernelPgTable.plicBase - vmOffset) KernelPgTable.plicBase 0x400000 rw planted₂ (by decide)
      (by decide) (by decide) (by decide) (by decide) (by omega)
    obtain ⟨m₄, mmio, user₄, taken₄, -⟩ := map_takes
      (KernelPgTable.mmioBase - vmOffset) KernelPgTable.mmioBase pgSize rw planted₃ (by decide)
      (by decide) (by decide) (by decide) (by decide) (by omega)
    refine ⟨root, m₄, ?_, ?_, ?_, trivial⟩
    · rw [KernelPgTable.initInner, Call.bind_ok new,
        Call.bind_ok (addUsize_ok.mpr ⟨rfl, by omega, rfl⟩),
        Call.bind_ok (subUsize_ok.mpr ⟨rfl, above, rfl⟩), Call.bind_ok text,
        Call.bind_ok (ofVa_ok.mpr ⟨rfl, inText, rfl⟩),
        Call.bind_ok (subUsize_ok.mpr ⟨rfl, below, rfl⟩), Call.bind_ok data,
        Call.bind_ok (ofVa_ok.mpr ⟨rfl, inPlic, rfl⟩), Call.bind_ok plic,
        Call.bind_ok (ofVa_ok.mpr ⟨rfl, inMmio, rfl⟩), Call.bind_ok mmio]
      rfl
    · rw [user₄, user₃, user₂, user₁]
    · rw [free, List.length_cons]
      omega

end Tacos.Userproc
