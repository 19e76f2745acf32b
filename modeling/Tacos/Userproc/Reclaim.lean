/- GID: Tacos/Userproc/Reclaim
   generality: I
   source: src/userproc/load.rs, src/mem/pagetable.rs, src/thread/imp.rs
   digest: Which pages a loaded executable takes, and when destroying its space gives all of them
     back. -/

import Tacos.Userproc.Isolation
import Tacos.Userproc.Leaves

set_option autoImplicit false
set_option relaxedAutoImplicit false

namespace Tacos.Userproc

open Tacos.Lib.Exec Tacos.Lib.Run Tacos.Lib.Slots Tacos.Mem Tacos.Fs
open PageTable (px)

section Loader

variable {kernel c : Nat} {users : List Nat} {m m₁ m₂ m' : Memory}
  {place place' place₁ place₂ : Nat → Option Place} {vas vas' bufs bufs' : List Nat}

/-- These pages were taken from the user pool and mapped at these addresses of the space of `c`. -/
structure Filled (kernel : Nat) (users : List Nat) (c : Nat) (vas bufs : List Nat) (m m' : Memory)
    (place' : Nat → Option Place) : Prop where
  planted : Planted kernel users m' place'
  furnished : Furnished kernel users m' place'
  user : m.userFree = bufs ++ m'.userFree
  count : vas.length = bufs.length
  pages : (∀ va ∈ vas, (px 2 va).val < 256) →
    pageAt m'.tables c = fill (pageAt m.tables c) ((vas.map pageIndex).zip bufs)
  tables : (∀ va ∈ vas, (px 2 va).val < 256) → tableStock m' c = tableStock m c

theorem Filled.trans (first : Filled kernel users c vas bufs m m₁ place₁)
    (second : Filled kernel users c vas' bufs' m₁ m₂ place₂) :
    Filled kernel users c (vas ++ vas') (bufs ++ bufs') m m₂ place₂ := by
  have left : (∀ va ∈ vas ++ vas', (px 2 va).val < 256) → ∀ va ∈ vas, (px 2 va).val < 256 :=
    fun low va hva => low va (List.mem_append_left _ hva)
  have right : (∀ va ∈ vas ++ vas', (px 2 va).val < 256) → ∀ va ∈ vas', (px 2 va).val < 256 :=
    fun low va hva => low va (List.mem_append_right _ hva)
  refine ⟨second.planted, second.furnished, ?_, ?_, ?_, ?_⟩
  · rw [first.user, second.user, List.append_assoc]
  · rw [List.length_append, List.length_append, first.count, second.count]
  · intro low
    rw [second.pages (right low), first.pages (left low), List.map_append,
      List.zip_append (by rw [List.length_map, first.count])]
    exact (List.foldl_append ..).symm
  · intro low
    rw [second.tables (right low), first.tables (left low)]

theorem Filled.nil (h : Planted kernel users m place) (f : Furnished kernel users m place) :
    Filled kernel users c [] [] m m place :=
  ⟨h, f, rfl, rfl, fun _ => rfl, fun _ => rfl⟩

theorem Filled.page (h : Planted kernel users m place) (f : Furnished kernel users m place)
    (hc : c ∈ users) {va buf : Nat} {flag : PTEFlags} (hflag : PageFlag flag) (sane : Sane buf)
    (free : m.userFree = buf :: m₁.userFree) (tables : m₁.tables = m.tables)
    (kernelFree : m₁.kernelFree = m.kernelFree)
    (ran : PageTable.mapPage c (buf - vmOffset) va flag m₁ = .ok () m') :
    ∃ place', Filled kernel users c [va] [buf] m m' place' := by
  have planted : Planted kernel users m₁ place :=
    (Installed.of_same (c := c) h tables kernelFree).planted
  have furnished : Furnished kernel users m₁ place := ⟨f.rooted, tables ▸ f.fitting⟩
  obtain ⟨place', stored⟩ := mapPage_stored planted furnished hc hflag sane ran
  refine ⟨place', stored.planted, stored.furnished, ?_, rfl, ?_, ?_⟩
  · rw [free, stored.user]
    rfl
  · intro low
    rw [stored.pages (low va List.mem_cons_self), tables]
    rfl
  · intro low
    rw [stored.tables (low va List.mem_cons_self), tableStock, tableStock, tables, kernelFree]

theorem allocPage_user {page : Nat} (ran : UserPool.allocPage m = .ok page m') :
    m.userFree = page :: m'.userFree := by
  rw [UserPool.allocPage] at ran
  cases free : m.userFree with
  | nil => simp [free] at ran
  | cons head rest =>
    rw [free] at ran
    cases ran
    rfl

theorem fillPage_user {filebuf : List UInt8} {page readpos stop : Nat}
    (ran : fillPage filebuf page readpos stop m = .ok () m') : m'.userFree = m.userFree := by
  rw [fillPage] at ran
  split at ran
  · cases ran
    rfl
  · cases ran

theorem leafFlag_page (phdr : ProgramHeader) : PageFlag phdr.leafFlag := by
  refine ⟨leafFlag_user phdr, ?_⟩
  rw [ProgramHeader.leafFlag]
  cases phdr.execute <;> cases phdr.write <;> decide

theorem loadPages_filled {filebuf : List UInt8} {flag : PTEFlags} {ubase pages : Nat}
    (hc : c ∈ users) (hflag : PageFlag flag) :
    ∀ {p readbytes readpos left : Nat} {m : Memory} {place : Nat → Option Place},
      Planted kernel users m place → Furnished kernel users m place → (∀ t ∈ m.userFree, Sane t) →
      loadPages filebuf c flag ubase pages p readbytes readpos m = .ok left m' →
      ∃ place' bufs, Filled kernel users c
        ((List.range pages).map fun k => ubase + (p + k) * pgSize) bufs m m' place' := by
  induction pages with
  | zero =>
    intro p readbytes readpos left m place h f _ ran
    cases ran
    exact ⟨place, [], .nil h f⟩
  | succ pages ih =>
    intro p readbytes readpos left m place h f sane ran
    simp only [loadPages, Call.bind_eq_ok, addUsize_ok, ofVa_ok] at ran
    obtain ⟨buf, _, allocated, _, m₁, ⟨rfl, -, rfl⟩, _, _, filled, _, _, ⟨rfl, -, rfl⟩, _, m₂,
      ⟨located, -, rfl⟩, _, m₃, mapped, rest⟩ := ran
    rw [located] at mapped
    obtain ⟨tables₁, free₁⟩ := allocPage_ok allocated
    obtain ⟨tables₂, free₂⟩ := fillPage_ok filled
    have taken := allocPage_user allocated
    rw [← fillPage_user filled] at taken
    obtain ⟨place₁, here⟩ := Filled.page h f hc hflag (sane buf (taken ▸ List.mem_cons_self)) taken
      (tables₂.trans tables₁) (free₂.trans free₁) (map_page Nat.one_pos (by decide) mapped)
    have sane₁ : ∀ t ∈ m₃.userFree, Sane t := by
      intro t ht
      refine sane t ?_
      rw [here.user]
      exact List.mem_append_right _ ht
    obtain ⟨place₂, bufs, further⟩ := ih here.planted here.furnished sane₁ rest
    have all := here.trans further
    refine ⟨place₂, buf :: bufs, ?_⟩
    rw [pages_succ]
    exact all

theorem loadSegment_filled {filebuf : List UInt8} {phdr : ProgramHeader} (hc : c ∈ users)
    (h : Planted kernel users m place) (f : Furnished kernel users m place)
    (sane : ∀ t ∈ m.userFree, Sane t) (ran : loadSegment filebuf c phdr m = .ok () m') :
    ∃ place' bufs, Filled kernel users c phdr.addresses bufs m m' place' := by
  simp only [loadSegment, Call.bind_eq_ok, require_ok, addUsize_ok] at ran
  obtain ⟨_, _, ⟨-, rfl⟩, _, _, ⟨-, rfl⟩, _, _, ⟨rfl, -, rfl⟩, pages, m₁,
    divided, _, _, ⟨rfl, -, rfl⟩,
    left, m₂, loaded, -, rfl⟩ := ran
  obtain ⟨rfl, rfl⟩ := divRoundUp_ok divided
  obtain ⟨place', bufs, filled⟩ := loadPages_filled hc (leafFlag_page phdr) h f sane loaded
  refine ⟨place', bufs, ?_⟩
  rw [ProgramHeader.addresses]
  simpa only [Nat.zero_add] using filled

theorem forEach_filled {filebuf : List UInt8} (hc : c ∈ users) {phdrs : List ProgramHeader} :
    ∀ {m : Memory} {place : Nat → Option Place}, Planted kernel users m place →
      Furnished kernel users m place → (∀ t ∈ m.userFree, Sane t) →
      PageTable.forEach (loadSegment filebuf c) phdrs m = .ok () m' →
      ∃ place' bufs, Filled kernel users c (phdrs.flatMap ProgramHeader.addresses) bufs m
        m' place' := by
  induction phdrs with
  | nil =>
    intro m place h f _ ran
    cases ran
    exact ⟨place, [], .nil h f⟩
  | cons phdr phdrs ih =>
    intro m place h f sane ran
    rw [PageTable.forEach, Call.bind_eq_ok] at ran
    obtain ⟨_, m₁, first, rest⟩ := ran
    obtain ⟨place₁, bufs, here⟩ := loadSegment_filled hc h f sane first
    have sane₁ : ∀ t ∈ m₁.userFree, Sane t :=
      fun t ht => sane t (here.user ▸ List.mem_append_right _ ht)
    obtain ⟨place₂, bufs', further⟩ := ih here.planted here.furnished sane₁ rest
    exact ⟨place₂, bufs ++ bufs', here.trans further⟩

theorem initUserStack_filled (hc : c ∈ users) (h : Planted kernel users m place)
    (f : Furnished kernel users m place) (sane : ∀ t ∈ m.userFree, Sane t)
    (ran : initUserStack c 0x80500000 m = .ok () m') :
    ∃ place' buf, Filled kernel users c [stackPage] [buf] m m' place' := by
  simp only [initUserStack, Call.bind_eq_ok, require_ok, ofVa_ok] at ran
  obtain ⟨_, m, ⟨-, rfl⟩, buf, _, allocated, _, m₁, ⟨located, -, rfl⟩, mapped⟩ := ran
  rw [located] at mapped
  obtain ⟨tables, free⟩ := allocPage_ok allocated
  have taken := allocPage_user allocated
  have stack : PageFlag stackFlag := ⟨⟨by decide, by decide, by decide, by decide⟩, by decide⟩
  obtain ⟨place', here⟩ := Filled.page h f hc stack
    (sane buf (taken ▸ List.mem_cons_self)) taken tables free
    (map_page (by decide) le_rfl mapped)
  exact ⟨place', buf, here⟩

/-- The order of the free pages does not matter to what was filled. -/
theorem Filled.reordered {free free' more : List Nat}
    (h : Filled kernel users c vas bufs (m.withFree free) (m'.withFree free') place')
    (before : free.Perm (m.plus more).kernelFree) (after : free'.Perm (m'.plus more).kernelFree) :
    Filled kernel users c vas bufs (m.plus more) (m'.plus more) place' := by
  refine ⟨h.planted.perm rfl after.symm, h.furnished.same rfl, h.user, h.count, h.pages,
    fun low => ?_⟩
  have stock := h.tables low
  rw [tableStock, tableStock, Memory.withFree_kernelFree, Memory.withFree_kernelFree,
    Multiset.coe_eq_coe.mpr before, Multiset.coe_eq_coe.mpr after] at stock
  exact stock

theorem loadExecutable_filled {parse : List UInt8 → Option Elf} {buf : List UInt8} {elf : Elf64}
    {more : List Nat} (parsed : parse buf = some (.elf64 elf)) (hc : c ∈ users)
    (h : Planted kernel users (m.plus more) place) (f : Furnished kernel users (m.plus more) place)
    (sane : ∀ t ∈ m.userFree, Sane t) {r : Except OsError ExecInfo}
    (ran : loadExecutable parse (.ok buf) c m = .ok r m') :
    ∃ place' bufs,
      Filled kernel users c (elf.addresses ++ [stackPage]) bufs (m.plus more)
        (m'.plus more) place' := by
  rw [loadExecutable, Call.bind_eq_ok] at ran
  obtain ⟨_, m₁, loaded, rest⟩ := ran
  obtain ⟨free, free', before, after, loaded⟩ := loadElf_framed h.nodup_of_plus loaded more
  simp only [loadContents, parsed, Call.bind_eq_ok, Call.pure_apply, Outcome.ok.injEq] at loaded
  obtain ⟨_, _, loaded, rfl, rfl⟩ := loaded
  simp only [Call.bind_eq_ok, Call.pure_apply, Outcome.ok.injEq] at rest
  obtain ⟨_, m₂, stacked, rfl, rfl⟩ := rest
  have frames : Frames (initUserStack c 0x80500000) := .initUserStack _
  have ready : Planted kernel users (m.withFree free) place := h.perm rfl before
  obtain ⟨place₁, bufs, first⟩ := forEach_filled hc ready (f.same rfl) sane loaded
  have first := first.reordered before after
  obtain ⟨place₂, buf', second⟩ := initUserStack_filled hc first.planted first.furnished
    (fun t ht => sane t (first.user ▸ List.mem_append_right _ ht)) (frames _ _ _ more stacked)
  exact ⟨place₂, bufs ++ [buf'], first.trans second⟩

end Loader

section Systems

variable {m m' : Memory}

theorem initInner_userFree {etext ramSize root : Nat}
    (ran : KernelPgTable.initInner etext ramSize m = .ok root m') : m'.userFree = m.userFree := by
  simp only [KernelPgTable.initInner, Call.bind_eq_ok, addUsize_ok, subUsize_ok, ofVa_ok,
    Call.pure_apply, Outcome.ok.injEq] at ran
  obtain ⟨_, m₁, new, _, _, ⟨-, -, rfl⟩, _, _, ⟨-, -, rfl⟩, _, m₂, text, _, _, ⟨-, -, rfl⟩, _, _,
    ⟨-, -, rfl⟩, _, m₃, data, _, _, ⟨-, -, rfl⟩, _, m₄, plic, _, _, ⟨-, -, rfl⟩, _,
    m₅, mmio, -, rfl⟩ := ran
  rw [(map_keeps mmio).free, (map_keeps plic).free, (map_keeps data).free,
    (map_keeps text).free, (new_keeps new).free]

/-- The tables in a memory are where they should be, and the user pool holds pages. -/
structure Provided (kernel : Nat) (users : List Nat) (m : Memory) : Prop where
  planted : ∃ place, Planted kernel users m place ∧ Furnished kernel users m place
  sane : ∀ t ∈ m.userFree, Sane t

def Stocked (s : System) : Prop := Provided s.kernel s.users s.whole

theorem boot_stocked (nodup : m.kernelFree.Nodup) (sane : ∀ t ∈ m.kernelFree, Sane t)
    (saneUser : ∀ t ∈ m.userFree, Sane t) {etext ramSize : Nat} {s : System}
    (booted : boot etext ramSize m = some s) : Stocked s := by
  obtain ⟨place, planted, -⟩ := boot_isolated nodup sane booted
  rw [boot] at booted
  split at booted
  case h_2 => cases booted
  case h_1 root m' ran =>
    cases booted
    refine ⟨⟨_, planted.pruned, .first root _ place⟩, ?_⟩
    show ∀ t ∈ m'.userFree, Sane t
    rw [initInner_userFree ran]
    exact saneUser

/-- A space that is destroyed leaves the others as they should be. -/
theorem Provided.destroyed {kernel c : Nat} {users more : List Nat} {place : Nat → Option Place}
    (planted : Planted kernel users (m.plus more) place)
    (furnished : Furnished kernel users (m.plus more) place) (sane : ∀ t ∈ m.userFree, Sane t)
    (hc : c ∈ users) (ran : PageTable.destroy c m = .ok () m') :
    Provided kernel (users.erase c) (m'.plus more) := by
  have ran' := Frames.destroy c _ _ _ more ran
  obtain ⟨m₁, pages, tables, ran₁, -, user, -, count, -⟩ := planted.destroy_returns furnished hc
  rw [ran'] at ran₁
  cases ran₁
  obtain ⟨planted', same⟩ := planted.destroyed hc ran'
  refine ⟨⟨_, planted', furnished.destroyed same⟩, ?_⟩
  intro t ht
  rw [user, List.mem_append] at ht
  rcases ht with ht | ht
  · rw [← Multiset.mem_coe, count, mem_contents] at ht
    obtain ⟨s, mapped⟩ := ht
    exact planted.pageAt_sane furnished hc mapped
  · exact sane t ht

theorem step_stocked {parse : List UInt8 → Option Elf} {s t : System} {ev : Event} (h : Stocked s)
    (stepped : step parse s ev = some t) : Stocked t := by
  obtain ⟨⟨place, planted, furnished⟩, sane⟩ := h
  cases ev with
  | execute file =>
    rw [step] at stepped
    cases ran : execute parse s.kernel file s.memory with
    | err e _ => cases e
    | halt _ =>
      rw [ran] at stepped
      cases stepped
    | ok found m' =>
      rw [ran] at stepped
      rw [execute, Call.bind_eq_ok] at ran
      obtain ⟨c, m₁, cloned, ran⟩ := ran
      rw [Call.bind_eq_ok] at ran
      obtain ⟨loaded, m₂, load, rest⟩ := ran
      have cloned' := Frames.clone s.kernel _ _ _ s.lent cloned
      obtain ⟨planted₁, -⟩ := planted.cloned cloned'
      obtain ⟨furnished₁, -, user₁, -⟩ := furnished.cloned planted cloned'
      have sane₁ : ∀ t ∈ m₁.userFree, Sane t := fun t ht => sane t (user₁ ▸ ht)
      have hc : c ∈ c :: s.users := List.mem_cons_self
      rcases loadExecutable_cases planted₁.nodup_of_plus load with
        ⟨buf, elf, info, rfl, parsed, rfl⟩ | ⟨⟨e, rfl⟩, same, perm⟩
      · simp only [Call.bind_eq_ok, Call.pure_apply, Outcome.ok.injEq] at rest
        obtain ⟨stack, m₃, allocated, rfl, rfl⟩ := rest
        cases stepped
        obtain ⟨place₂, bufs, filled⟩ := loadExecutable_filled parsed hc
          planted₁ furnished₁ sane₁ load
        have lent := kallocSize_lent filled.planted.nodup_of_plus allocated
        have apart := List.nodup_cons.mp planted₁.apart
        obtain ⟨tables, free⟩ := System.whole_started (s := s) (List.nodup_cons.mp apart.2).1 lent
        refine ⟨⟨place₂, filled.planted.perm tables free, filled.furnished.same tables⟩, ?_⟩
        intro t ht
        have ht : t ∈ m₂.userFree := lent.userFree ▸ ht
        refine sane₁ t ?_
        show t ∈ (m₁.plus s.lent).userFree
        rw [filled.user]
        exact List.mem_append_right _ ht
      · rw [Call.bind_eq_ok] at rest
        obtain ⟨_, m₃, destroyed, rest⟩ := rest
        cases rest
        cases stepped
        have tables : m₂.tables = m₁.tables := by
          rw [same]
          rfl
        have planted₂ : Planted s.kernel (c :: s.users) (m₂.plus s.lent)
            (Function.update place c (some (c, []))) :=
          planted₁.perm tables (perm.append_right s.lent)
        have furnished₂ : Furnished s.kernel (c :: s.users) (m₂.plus s.lent)
            (Function.update place c (some (c, []))) := furnished₁.same tables
        have user : m₂.userFree = m₁.userFree := by
          rw [same]
          rfl
        have := Provided.destroyed planted₂ furnished₂ (user ▸ sane₁) hc destroyed
        rw [List.erase_cons_head] at this
        exact this
  | exit pt =>
    rw [step] at stepped
    split at stepped
    case isFalse => cases stepped
    case isTrue hpt =>
      split at stepped
      case h_2 => cases stepped
      case h_1 m' dropped =>
        cases stepped
        rw [Process.drop, kfreeSize, Palloc.dealloc, Call.modify_bind] at dropped
        have planted₁ : Planted s.kernel s.users ({ s.memory with
            kernelFree := s.stackPages pt ++ s.memory.kernelFree }.plus
              ((s.users.erase pt).flatMap s.stackPages)) place :=
          planted.perm rfl (System.whole_ended hpt)
        exact Provided.destroyed planted₁ (furnished.same rfl) sane hpt dropped

theorem Stocked.provided {s : System} (h : Stocked s) : Provided s.kernel s.users s.memory := by
  obtain ⟨⟨place, planted, furnished⟩, sane⟩ := h
  exact ⟨⟨place, planted.less rfl planted.nodup_of_plus fun _ ht => List.mem_append_left _ ht,
    furnished.same rfl⟩, sane⟩

theorem run_stocked {parse : List UInt8 → Option Elf} {s t : System}
    {es : List Event} (h : Stocked s)
    (ran : run (step parse) s es = some t) : Stocked t :=
  run_invariant (fun _ _ _ => step_stocked) h ran

/-- The space of `c` is destroyed, and both pools hold again what they held before it was there.
The tables that it reaches through global entries are not among that. -/
structure GivenBack (before m : Memory) (c : Nat) (m' : Memory) : Prop where
  returns : PageTable.destroy c m = .ok () m'
  pages : m'.userFree.Perm before.userFree
  tables : m'.kernelFree.Perm before.kernelFree
  shared : ∀ i, (m.tables c i).isValid → (m.tables c i).isGlobal →
    target (m.tables c i) ∉ m'.kernelFree ∧
      ∀ j, (m.tables (target (m.tables c i)) j).isValid →
        target (m.tables (target (m.tables c i)) j) ∉ m'.kernelFree

/-- No page of the executable or of the stack has the indexes of another. -/
def Elf64.Distinct (elf : Elf64) : Prop := ((elf.addresses ++ [stackPage]).map pageIndex).Nodup

instance (elf : Elf64) : Decidable elf.Distinct :=
  inferInstanceAs (Decidable (List.Nodup _))

theorem Stocked.givenBack_iff {parse : List UInt8 → Option Elf} {s : System} (h : Stocked s)
    {buf : List UInt8} {elf : Elf64} (parsed : parse buf = some (.elf64 elf)) (lower : elf.Lower)
    {c : Nat} {m₁ m₂ : Memory} (cloned : KernelPgTable.clone s.kernel s.memory = .ok c m₁)
    {r : Except OsError ExecInfo} (loaded : loadExecutable parse (.ok buf) c m₁ = .ok r m₂) :
    (∃ m₃, GivenBack s.memory m₂ c m₃) ↔ elf.Distinct := by
  obtain ⟨⟨place, planted, furnished⟩, sane⟩ := h.provided
  obtain ⟨planted₁, -⟩ := planted.cloned cloned
  obtain ⟨furnished₁, nothing, user₁, free₁⟩ := furnished.cloned planted cloned
  have hc : c ∈ c :: s.users := List.mem_cons_self
  have root : c ∈ s.kernel :: c :: s.users := List.mem_cons_of_mem _ hc
  rw [← Memory.plus_nil m₁] at planted₁ furnished₁
  obtain ⟨place₂, bufs, filled⟩ :=
    loadExecutable_filled parsed hc planted₁ furnished₁ (user₁ ▸ sane) loaded
  rw [Memory.plus_nil] at planted₁ furnished₁
  rw [Memory.plus_nil, Memory.plus_nil] at filled
  have low := elf.lower_iff.mp lower
  obtain ⟨m₃, pages, tables, ran, -, user, free, pagesCount, tablesCount⟩ :=
    filled.planted.destroy_returns filled.furnished hc
  have noPages := pageAt_none nothing
  have noTables := tableAt_none nothing
  -- The tables are always given back: what the space and the free list have together stays the
  -- same.
  have allTables : m₃.kernelFree.Perm s.memory.kernelFree := by
    have stock := filled.tables low
    rw [tableStock, tableStock, noTables, contents_empty, zero_add] at stock
    rw [← Multiset.coe_eq_coe, free, free₁, ← Multiset.coe_add, tablesCount,
      Multiset.cons_add, stock]
    rfl
  have allPages : m₃.userFree.Perm s.memory.userFree ↔ elf.Distinct := by
    rw [← Multiset.coe_eq_coe, user, ← user₁, filled.user, ← Multiset.coe_add, ← Multiset.coe_add,
      add_left_inj, pagesCount, filled.pages low, noPages]
    have count := filled.count
    rw [← List.length_map (f := pageIndex)] at count
    have taken : (((elf.addresses ++ [stackPage]).map pageIndex).zip bufs).map Prod.snd = bufs :=
      List.map_snd_zip count.ge
    have used : (((elf.addresses ++ [stackPage]).map pageIndex).zip bufs).map Prod.fst =
        (elf.addresses ++ [stackPage]).map pageIndex := List.map_fst_zip count.le
    have filledAll := contents_fill_empty_iff
      (((elf.addresses ++ [stackPage]).map pageIndex).zip bufs)
    rw [taken, used] at filledAll
    exact filledAll
  have elsewhere : ∀ x p, place₂ x = some (s.kernel, p) → x ∉ m₃.kernelFree := by
    intro x p hx hfree
    obtain ⟨planted₃, -⟩ := filled.planted.destroyed hc ran
    have gone := planted₃.unplaced x hfree
    have notKernel : s.kernel ≠ c := by
      rintro rfl
      exact (List.nodup_cons.mp planted₁.apart).1 hc
    rw [hx, Option.filter_some, if_pos (decide_eq_true notKernel)] at gone
    cases gone
  constructor
  · rintro ⟨m₄, back⟩
    have same := back.returns
    rw [ran] at same
    cases same
    exact allPages.mp back.pages
  · intro distinct
    refine ⟨m₃, ran, allPages.mpr distinct, allTables, ?_⟩
    intro i valid global
    have same := filled.planted.inherits c hc i valid global
    have hone := filled.planted.descends s.kernel s.kernel [] i
      (filled.planted.roots s.kernel List.mem_cons_self) (by decide) (same ▸ valid)
      (fun _ hne => absurd rfl hne)
    rw [← same] at hone
    refine ⟨elsewhere _ _ hone, ?_⟩
    intro j valid'
    exact elsewhere _ _ (filled.planted.descends _ s.kernel [i] j hone Nat.one_lt_two valid'
      fun hne => absurd hne (List.cons_ne_nil _ _))

/-- A loaded executable of the lower half gives everything back when its space is destroyed if and
only if no two of its pages, the stack's included, have the same indexes. -/
theorem destroyed_gives_back_iff {parse : List UInt8 → Option Elf} {etext ramSize : Nat}
    (nodup : m.kernelFree.Nodup) (sane : ∀ t ∈ m.kernelFree, Sane t)
    (saneUser : ∀ t ∈ m.userFree, Sane t) {start s : System}
    (booted : boot etext ramSize m = some start) {es : List Event}
    (ran : run (step parse) start es = some s) {buf : List UInt8} {elf : Elf64}
    (parsed : parse buf = some (.elf64 elf)) (lower : elf.Lower) {c : Nat} {m₁ m₂ : Memory}
    (cloned : KernelPgTable.clone s.kernel s.memory = .ok c m₁) {r : Except OsError ExecInfo}
    (loaded : loadExecutable parse (.ok buf) c m₁ = .ok r m₂) :
    (∃ m₃, GivenBack s.memory m₂ c m₃) ↔ elf.Distinct :=
  (run_stocked (boot_stocked nodup sane saneUser booted) ran).givenBack_iff
    parsed lower cloned loaded

def headerBytes (phdr : ProgramHeader) : List UInt8 :=
  writeLE 4 (if phdr.phType = .load then 1 else 0) ++
    writeLE 4 ((if phdr.execute then 1 else 0) + (if phdr.write then 2 else 0) + 4) ++
    writeLE 8 phdr.offset.toNat ++ writeLE 8 phdr.vaddr.toNat ++ writeLE 8 phdr.vaddr.toNat ++
    writeLE 8 phdr.filesz.toNat ++ writeLE 8 phdr.memsz.toNat ++ writeLE 8 4096

/-- An executable of nothing but its headers. -/
def executable (entry : Nat) (phdrs : List ProgramHeader) : List UInt8 :=
  [0x7f, 0x45, 0x4c, 0x46, 2, 1, 1] ++ writeLE 9 0 ++ writeLE 2 2 ++ writeLE 2 243 ++ writeLE 4 1 ++
    writeLE 8 entry ++ writeLE 8 64 ++ writeLE 8 0 ++ writeLE 4 0 ++ writeLE 2 64 ++ writeLE 2 56 ++
    writeLE 2 phdrs.length ++ writeLE 6 0 ++ phdrs.flatMap headerBytes

/-- A segment of the bytes behind the first header, after `imageHeader`'s. -/
def dataHeader (vaddr : UInt64) : ProgramHeader where
  phType := .load
  offset := 0x80
  vaddr := vaddr
  filesz := 48
  memsz := 48
  execute := false
  write := true

/-- Text and data of one program, in pages of their own. -/
theorem separate_segments_given_back :
    ∃ start c m₁ r m₂ m₃, boot bootEtext bootRam bootMemory = some start ∧
      KernelPgTable.clone start.kernel start.memory = .ok c m₁ ∧
      loadExecutable Elf.fromBytes
        (.ok (executable 0x10000 [imageHeader 0x10000, dataHeader 0x11080]))
        c m₁ = .ok r m₂ ∧ GivenBack start.memory m₂ c m₃ := by
  have parsed : Elf.fromBytes (executable 0x10000 [imageHeader 0x10000, dataHeader 0x11080]) =
      some (.elf64 ⟨0x10000, [imageHeader 0x10000, dataHeader 0x11080]⟩) := by decide +kernel
  have segments : Elf64.segments ⟨0x10000, [imageHeader 0x10000, dataHeader 0x11080]⟩ =
      [imageHeader 0x10000, dataHeader 0x11080] := by decide
  have length : (executable 0x10000 [imageHeader 0x10000, dataHeader 0x11080]).length = 176 := by
    decide +kernel
  have loadable : ∀ p ∈ [imageHeader 0x10000, dataHeader 0x11080], p.Loadable 176 := by
    intro p hp
    simp only [List.mem_cons, List.not_mem_nil, or_false] at hp
    rcases hp with rfl | rfl
    · exact ⟨by decide, by decide, by decide, by decide, fun _ => by decide⟩
    · exact ⟨by decide, by decide, by decide, by decide, fun _ => by decide⟩
  obtain ⟨start, c, m₁, r, m₂, booted, cloned, loaded⟩ := booted_loads parsed
    (by rw [segments, length]; exact loadable) (by rw [length]; decide) (by decide)
  obtain ⟨m₃, back⟩ := (destroyed_gives_back_iff bootMemory_nodup bootMemory_sane
    bootMemory_saneUser booted
    (run_nil (step Elf.fromBytes) start) parsed (by decide) cloned loaded).mpr (by decide)
  exact ⟨start, c, m₁, r, m₂, m₃, booted, cloned, loaded, back⟩

/-- Text and data of one program that share a page: the page of the text is lost. -/
theorem shared_page_lost :
    ∃ start c m₁ r m₂, boot bootEtext bootRam bootMemory = some start ∧
      KernelPgTable.clone start.kernel start.memory = .ok c m₁ ∧
      loadExecutable Elf.fromBytes
        (.ok (executable 0x10000 [imageHeader 0x10000, dataHeader 0x10080]))
        c m₁ = .ok r m₂ ∧ ¬ ∃ m₃, GivenBack start.memory m₂ c m₃ := by
  have parsed : Elf.fromBytes (executable 0x10000 [imageHeader 0x10000, dataHeader 0x10080]) =
      some (.elf64 ⟨0x10000, [imageHeader 0x10000, dataHeader 0x10080]⟩) := by decide +kernel
  have segments : Elf64.segments ⟨0x10000, [imageHeader 0x10000, dataHeader 0x10080]⟩ =
      [imageHeader 0x10000, dataHeader 0x10080] := by decide
  have length : (executable 0x10000 [imageHeader 0x10000, dataHeader 0x10080]).length = 176 := by
    decide +kernel
  have loadable : ∀ p ∈ [imageHeader 0x10000, dataHeader 0x10080], p.Loadable 176 := by
    intro p hp
    simp only [List.mem_cons, List.not_mem_nil, or_false] at hp
    rcases hp with rfl | rfl
    · exact ⟨by decide, by decide, by decide, by decide, fun _ => by decide⟩
    · exact ⟨by decide, by decide, by decide, by decide, fun _ => by decide⟩
  obtain ⟨start, c, m₁, r, m₂, booted, cloned, loaded⟩ := booted_loads parsed
    (by rw [segments, length]; exact loadable) (by rw [length]; decide) (by decide)
  have stocked := boot_stocked bootMemory_nodup bootMemory_sane bootMemory_saneUser booted
  refine ⟨start, c, m₁, r, m₂, booted, cloned, loaded, fun back => ?_⟩
  exact absurd ((stocked.givenBack_iff parsed (by decide) cloned loaded).mp back) (by decide)

end Systems

end Tacos.Userproc
