/- GID: Tacos/Userproc/Malformed
   generality: I
   source: src/userproc.rs, src/userproc/load.rs, src/mem/pagetable.rs
   digest: Files that are no executables or malformed ones, and which of them stop the machine. -/

import Tacos.Userproc.Reclaim

set_option autoImplicit false
set_option relaxedAutoImplicit false

namespace Tacos.Userproc

open Tacos.Lib.Exec Tacos.Lib.Run Tacos.Mem Tacos.Fs

variable {m m' : Memory}

theorem map_fits {t pa va size : Nat} {flag : PTEFlags} (pos : 0 < size)
    (ran : PageTable.map t pa va size flag m = .ok () m') : va + pgSize < 2 ^ 64 := by
  simp only [PageTable.map, Call.bind_eq_ok, require_ok, addUsize_ok] at ran
  obtain ⟨_, _, ⟨-, rfl⟩, _, _, ⟨rfl, -, rfl⟩, looped⟩ := ran
  rw [PageTable.mapLoop, if_pos (by omega)] at looped
  simp only [Call.bind_eq_ok, addUsize_ok] at looped
  obtain ⟨_, _, -, _, _, -, _, _, ⟨-, fits, -⟩, -⟩ := looped
  exact fits

/-- What the pages of a segment that were loaded tell of the file and of the addresses. -/
theorem loadPages_bounds {filebuf : List UInt8} {c ubase : Nat} {flag : PTEFlags} {pages : Nat} :
    ∀ {p readbytes readpos left : Nat} {m : Memory},
      loadPages filebuf c flag ubase pages p readbytes readpos m = .ok left m' →
      left = readbytes - pages * 2 ^ 12 ∧
        (pages ≠ 0 → readpos + min readbytes (pages * 2 ^ 12) ≤ filebuf.length ∧
          ubase + (p + pages) * 2 ^ 12 < 2 ^ 64) := by
  have page : pgSize = 2 ^ 12 := rfl
  induction pages with
  | zero =>
    intro p readbytes readpos left m ran
    cases ran
    exact ⟨by omega, fun some => absurd rfl some⟩
  | succ pages ih =>
    intro p readbytes readpos left m ran
    simp only [loadPages, Call.bind_eq_ok, addUsize_ok] at ran
    obtain ⟨buf, _, -, _, m₁, ⟨rfl, -, rfl⟩, _, m₂, filled, _, _, ⟨rfl, -, rfl⟩,
      pa, m₃, -, _, m₄, mapped,
      rest⟩ := ran
    have fits : ubase + p * 2 ^ 12 + 2 ^ 12 < 2 ^ 64 := map_fits Nat.one_pos mapped
    have inside : readpos + min readbytes pgSize ≤ filebuf.length := by
      rw [fillPage] at filled
      split at filled
      case isTrue inside => exact inside
      case isFalse => cases filled
    obtain ⟨rfl, further⟩ := ih rest
    refine ⟨by omega, fun _ => ?_⟩
    by_cases last : pages = 0
    · subst last
      exact ⟨by omega, by omega⟩
    · obtain ⟨inside', fits'⟩ := further last
      rw [Nat.add_assoc p 1 pages, Nat.add_comm 1 pages] at fits'
      exact ⟨by omega, fits'⟩

theorem loadSegment_loadable {filebuf : List UInt8} {c : Nat} {phdr : ProgramHeader}
    (ran : loadSegment filebuf c phdr m = .ok () m') : phdr.Loadable filebuf.length := by
  have page : pgSize = 2 ^ 12 := rfl
  simp only [loadSegment, Call.bind_eq_ok, require_ok, addUsize_ok] at ran
  obtain ⟨_, _, ⟨-, rfl⟩, _, _, ⟨offset, rfl⟩, _, _, ⟨rfl, -, rfl⟩, pages, m₁,
    divided, _, _, ⟨rfl, -, rfl⟩,
    left, m₂, loaded, none, rfl⟩ := ran
  have size : phdr.pageoff + phdr.memsz.toNat + pgSize < 2 ^ 64 := by
    simp only [divRoundUp, Call.bind_eq_ok, addUsize_ok] at divided
    obtain ⟨_, _, ⟨-, size, -⟩, -⟩ := divided
    exact size
  obtain ⟨rfl, rfl⟩ := divRoundUp_ok divided
  rw [← phdr.length_addresses] at loaded
  obtain ⟨rfl, bounds⟩ := loadPages_bounds loaded
  have covered : phdr.filesz.toNat + phdr.pageoff ≤ phdr.addresses.length * 2 ^ 12 :=
    Nat.le_of_sub_eq_zero none
  have low : phdr.ubase < 2 ^ 64 := by
    rw [ProgramHeader.ubase, page, roundDown_two_pow]
    have := phdr.vaddr.toNat_lt
    omega
  refine ⟨offset, size, covered, ?_, ?_⟩
  · by_cases empty : phdr.addresses.length = 0
    · rw [empty, Nat.zero_mul]
      exact low
    · have fits := (bounds empty).2
      rw [Nat.zero_add] at fits
      exact fits
  · intro some
    have := (bounds (mt List.length_eq_zero_iff.mp some)).1
    omega

theorem forEach_loadable {filebuf : List UInt8} {c : Nat} {phdrs : List ProgramHeader} :
    ∀ {m : Memory}, PageTable.forEach (loadSegment filebuf c) phdrs m = .ok () m' →
      ∀ p ∈ phdrs, p.Loadable filebuf.length := by
  induction phdrs with
  | nil => exact fun _ p hp => nomatch hp
  | cons phdr phdrs ih =>
    intro m ran p hp
    rw [PageTable.forEach, Call.bind_eq_ok] at ran
    obtain ⟨_, m₁, first, rest⟩ := ran
    rcases List.mem_cons.mp hp with rfl | hp
    · exact loadSegment_loadable first
    · exact ih rest p hp

theorem loadExecutable_loadable {parse : List UInt8 → Option Elf} {buf : List UInt8} {elf : Elf64}
    (parsed : parse buf = some (.elf64 elf)) {c : Nat} {r : Except OsError ExecInfo}
    (ran : loadExecutable parse (.ok buf) c m = .ok r m') :
    ∀ p ∈ elf.segments, p.Loadable buf.length := by
  simp only [loadExecutable, loadElf, loadContents, parsed, Call.bind_eq_ok] at ran
  obtain ⟨_, _, ⟨_, _, -, _, _, ⟨_, _, loaded, -⟩, -⟩, -⟩ := ran
  exact forEach_loadable loaded

/-- A process is started, or the call fails and both pools hold the pages that they held. -/
def Clean (parse : List UInt8 → Option Elf) (s : System) (file : Contents) : Prop :=
  (∃ p m, execute parse s.kernel file s.memory = .ok (some p) m) ∨
    ∃ m, execute parse s.kernel file s.memory = .ok none m ∧
      m.userFree = s.memory.userFree ∧ m.kernelFree.Perm s.memory.kernelFree

/-- There are the pages that are asked for: one for the root, a block for the buffer of the file
if the page allocator has blocks of that size, with each page of the executable and the one of the
stack two for the tables above it, and in the end a block for the stack of the thread. -/
structure Fits (parse : List UInt8 → Option Elf) (s : System) (file : Contents) : Prop where
  root : 1 ≤ s.memory.kernelFree.length
  buffer : spilledPages file.buffer ≤ 2 ^ maxOrder →
    Room s.memory.kernelFree.tail (spilledPages file.buffer)
  user : ∀ buf elf, file = .ok buf → parse buf = some (.elf64 elf) →
    elf.addresses.length + 1 ≤ s.memory.userFree.length
  tables : ∀ buf elf, file = .ok buf → parse buf = some (.elf64 elf) →
    2 * (elf.addresses.length + 1) + 1 + blockLength (spilledPages buf.length) ≤
      s.memory.kernelFree.length
  stack : ∀ c m₁ info m₂, KernelPgTable.clone s.kernel s.memory = .ok c m₁ →
    loadExecutable parse file c m₁ = .ok (.ok info) m₂ → Room m₂.kernelFree (spilledPages stackSize)

/-- The file's buffer is one that the page allocator has blocks for, and every segment of the
executable in it, if there is one, can be loaded. -/
structure Wellformed (parse : List UInt8 → Option Elf) (file : Contents) : Prop where
  buffer : file.buffer ≤ 2 ^ maxOrder * pgSize
  segments : ∀ buf elf, file = .ok buf → parse buf = some (.elf64 elf) →
    ∀ p ∈ elf.segments, p.Loadable buf.length

theorem execute_wellformed {parse : List UInt8 → Option Elf} {kernel : PageTable} {file : Contents}
    {found : Option Process} (ran : execute parse kernel file m = .ok found m') :
    Wellformed parse file := by
  rw [execute, Call.bind_eq_ok] at ran
  obtain ⟨c, m₁, -, ran⟩ := ran
  rw [Call.bind_eq_ok] at ran
  obtain ⟨loaded, m₂, load, -⟩ := ran
  constructor
  · simp only [loadExecutable, loadElf, Call.bind_eq_ok] at load
    obtain ⟨_, _, ⟨_, _, allocated, -⟩, -⟩ := load
    exact (spilledPages_le_iff _).mp (kallocSize_small allocated)
  · rintro buf elf rfl parsed
    exact loadExecutable_loadable parsed load

theorem Stocked.clone_returns {s : System} (h : Stocked s) (root : 1 ≤ s.memory.kernelFree.length) :
    ∃ c m₁, KernelPgTable.clone s.kernel s.memory = .ok c m₁ ∧ m₁.userFree = s.memory.userFree ∧
      s.memory.kernelFree = c :: m₁.kernelFree := by
  obtain ⟨⟨place, planted, furnished⟩, -⟩ := h.provided
  cases free : s.memory.kernelFree with
  | nil =>
    rw [free, List.length_nil] at root
    omega
  | cons c rest =>
    have new := new_takes free (planted.sane c (free ▸ List.mem_cons_self))
    have cloned : KernelPgTable.clone s.kernel s.memory = .ok c _ := Call.bind_ok new
    exact ⟨c, _, cloned, rfl, rfl⟩

theorem Stocked.clone_destroyed {s : System} (h : Stocked s) {c : Nat} {m₁ m₂ : Memory}
    (cloned : KernelPgTable.clone s.kernel s.memory = .ok c m₁)
    (same : m₂ = m₁.withFree m₂.kernelFree)
    (perm : m₂.kernelFree.Perm m₁.kernelFree) :
    ∃ m₃, PageTable.destroy c m₂ = .ok () m₃ ∧ m₃.userFree = s.memory.userFree ∧
      m₃.kernelFree.Perm s.memory.kernelFree := by
  obtain ⟨⟨place, planted, furnished⟩, -⟩ := h.provided
  obtain ⟨planted₁, -⟩ := planted.cloned cloned
  obtain ⟨furnished₁, nothing, user₁, free₁⟩ := furnished.cloned planted cloned
  have tables₂ : m₂.tables = m₁.tables := by
    rw [same]
    rfl
  have user₂ : m₂.userFree = m₁.userFree := by
    rw [same]
    rfl
  have furnished₂ := furnished₁.same tables₂
  obtain ⟨m₃, pages, tables, ran, -, user, free, pagesCount, tablesCount⟩ :=
    (planted₁.perm tables₂ perm).destroy_returns furnished₂ List.mem_cons_self
  have noPages : pageAt m₁.tables c = fun _ => none := pageAt_none nothing
  have noTables : tableAt m₁.tables c = fun _ => none := tableAt_none nothing
  rw [tables₂, noPages, Lib.Slots.contents_empty, Multiset.coe_eq_zero] at pagesCount
  rw [tables₂, noTables, Lib.Slots.contents_empty, Multiset.cons_zero, Multiset.coe_eq_singleton]
    at tablesCount
  refine ⟨m₃, ran, ?_, ?_⟩
  · rw [user, pagesCount, List.nil_append, user₂, user₁]
  · rw [free, tablesCount, free₁]
    exact perm.cons c

/-- A file with a buffer that is no executable of 64 bits is refused. -/
theorem loadExecutable_refuses {parse : List UInt8 → Option Elf} {file : Contents}
    {c : Nat} {e : OsError}
    (nodup : m.kernelFree.Nodup) (small : file.buffer ≤ 2 ^ maxOrder * pgSize)
    (room : Room m.kernelFree (spilledPages file.buffer))
    (refused : ∀ m, loadContents parse file c m = .ok (.error e) m) :
    ∃ m', loadExecutable parse file c m = .ok (.error e) m' := by
  obtain ⟨pages, m₁, allocated, -⟩ :=
    kallocSize_returns nodup ((spilledPages_le_iff _).mpr small) room
  have loaded : loadElf parse file c m =
      .ok (.error e) { m₁ with kernelFree := pages ++ m₁.kernelFree } := by
    rw [loadElf, Call.bind_ok allocated, Call.bind_ok (refused m₁)]
    rfl
  refine ⟨{ m₁ with kernelFree := pages ++ m₁.kernelFree }, ?_⟩
  rw [loadExecutable, Call.bind_ok loaded]
  rfl

theorem Stocked.clean_iff {parse : List UInt8 → Option Elf} {s : System} (h : Stocked s)
    {file : Contents} (fits : Fits parse s file) : Clean parse s file ↔ Wellformed parse file := by
  obtain ⟨c, m₁, cloned, user₁, free₁⟩ := h.clone_returns fits.root
  constructor
  · rintro (⟨p, m, ran⟩ | ⟨m, ran, -⟩)
    · exact execute_wellformed ran
    · exact execute_wellformed ran
  · intro wellformed
    obtain ⟨⟨place, planted, furnished⟩, sane⟩ := h.provided
    obtain ⟨planted₁, -⟩ := planted.cloned cloned
    have room := fits.buffer ((spilledPages_le_iff _).mpr wellformed.buffer)
    rw [free₁, List.tail_cons] at room
    -- Whatever is not an executable of 64 bits is refused before a page is mapped.
    have refused : ∀ e, (∀ m, loadContents parse file c m = .ok (.error e) m) →
      Clean parse s file := by
      intro e refused
      obtain ⟨m₂, loaded⟩ := loadExecutable_refuses planted₁.nodup wellformed.buffer room refused
      rcases loadExecutable_cases planted₁.nodup loaded with ⟨_, _, _, -, -, hne⟩ | ⟨-, same, perm⟩
      · cases hne
      · obtain ⟨m₃, destroyed, clean⟩ := h.clone_destroyed cloned same perm
        refine .inr ⟨m₃, ?_, clean⟩
        rw [execute, Call.bind_ok cloned, Call.bind_ok loaded]
        simp only
        rw [Call.bind_ok destroyed]
        rfl
    cases file with
    | error e => exact refused e.error fun _ => rfl
    | ok buf =>
      cases parsed : parse buf with
      | none =>
        refine refused .unknownFormat fun _ => ?_
        rw [loadContents]
        simp only [parsed]
        rfl
      | some found =>
        cases found with
        | elf32 =>
          refine refused .unknownFormat fun _ => ?_
          rw [loadContents]
          simp only [parsed]
          rfl
        | elf64 elf =>
          have tables := fits.tables buf elf rfl parsed
          rw [free₁, List.length_cons] at tables
          obtain ⟨m₂, loaded⟩ := loadExecutable_returns parsed List.mem_cons_self
            (wellformed.segments buf elf rfl parsed) wellformed.buffer room planted₁ (user₁ ▸ sane)
            (user₁ ▸ fits.user buf elf rfl parsed) (by omega)
          have root : c ∈ c :: s.users := List.mem_cons_self
          rw [← Memory.plus_nil m₁] at planted₁
          obtain ⟨place₂, installed⟩ := loadExecutable_installed parsed root planted₁ loaded
          obtain ⟨stack, m₃, allocated, -⟩ := kallocSize_returns installed.planted.nodup_of_plus
            (by decide) (fits.stack c m₁ _ m₂ cloned loaded)
          refine .inl ⟨⟨c, stack⟩, m₃, ?_⟩
          rw [execute, Call.bind_ok cloned, Call.bind_ok loaded]
          simp only
          rw [Call.bind_ok allocated]
          rfl

/-- A file for which there are the pages is executed or refused cleanly if and only if it has at
most 1 MiB and its segments, where it is an executable, are loadable ones. -/
theorem execute_clean_iff {parse : List UInt8 → Option Elf} {etext ramSize : Nat}
    (nodup : m.kernelFree.Nodup) (sane : ∀ t ∈ m.kernelFree, Sane t)
    (saneUser : ∀ t ∈ m.userFree, Sane t) {start s : System}
    (booted : boot etext ramSize m = some start) {es : List Event}
    (ran : run (step parse) start es = some s) {file : Contents}
    (fits : Fits parse s file) : Clean parse s file ↔ Wellformed parse file :=
  (run_stocked (boot_stocked nodup sane saneUser booted) ran).clean_iff fits

theorem boot_fits {start : System} {used : List Nat}
    (booted : boot bootEtext bootRam bootMemory = some start)
    (left : start.memory.kernelFree = used ++ bootMemory.kernelFree.drop 133)
    (user : start.memory.userFree = bootMemory.userFree)
    (users : start.memory.userFree.length = 256)
    {buf : List UInt8} {elf : Elf64} (parsed : Elf.fromBytes buf = some (.elf64 elf))
    (small : buf.length ≤ 2 ^ 10) (few : elf.addresses.length ≤ 8) :
    Fits Elf.fromBytes start (.ok buf) := by
  have arena := spilledPages_eq_zero small
  have supply : 67 ≤ start.memory.kernelFree.length := by
    rw [left, List.length_append, List.length_drop, bootMemory, List.length_map, List.length_range]
    omega
  constructor
  case root => omega
  case buffer => exact fun _ => .inl arena
  case user =>
    rintro _ _ ⟨⟩ parsed'
    rw [parsed] at parsed'
    cases parsed'
    omega
  case tables =>
    rintro _ _ ⟨⟩ parsed'
    rw [parsed] at parsed'
    cases parsed'
    rw [arena, blockLength, if_pos rfl]
    omega
  case stack =>
    intro c m₁ info m₂ cloned loaded
    obtain ⟨c', m₁', r, m₂', rest, cloned', loaded', last⟩ :=
      booted_leaves booted left user users parsed
      (loadExecutable_loadable parsed loaded) small few
    rw [cloned] at cloned'
    cases cloned'
    rw [loaded] at loaded'
    cases loaded'
    have block : Palloc.FreeBlock (bootMemory.kernelFree.drop 152) 2 0xFFFFFFC0810A0000 := by
      decide +kernel
    refine .inr ⟨0xFFFFFFC0810A0000, block.1, fun p hp => ?_⟩
    rw [last]
    exact List.mem_append_right _ (block.2 p hp)

/-- A program of one page is executed. -/
theorem image_executed : ∃ start, boot bootEtext bootRam bootMemory = some start ∧
    Fits Elf.fromBytes start (.ok (image 0x10000)) ∧
      Clean Elf.fromBytes start (.ok (image 0x10000)) := by
  obtain ⟨start, used, booted, left, user, users⟩ := boot_supply
  have parsed : Elf.fromBytes (image 0x10000) = some (.elf64 ⟨0x10000, [imageHeader 0x10000]⟩) := by
    decide +kernel
  have segments : Elf64.segments ⟨0x10000, [imageHeader 0x10000]⟩ = [imageHeader 0x10000] := by
    decide
  have loadable : (imageHeader 0x10000).Loadable (image 0x10000).length :=
    ⟨by decide, by decide, by decide, by decide, fun _ => by decide⟩
  have fits := boot_fits booted left user users parsed (by decide) (by decide)
  refine ⟨start, booted, fits,
    (execute_clean_iff bootMemory_nodup bootMemory_sane bootMemory_saneUser
    booted (run_nil (step Elf.fromBytes) start) fits).mpr ⟨by decide, ?_⟩⟩
  rintro _ _ ⟨⟩ parsed'
  rw [parsed] at parsed'
  cases parsed'
  rw [segments]
  exact fun p hp => List.mem_singleton.mp hp ▸ loadable

/-- A program header whose offset in the file is not that of its address in a page. -/
def crookedHeader : ProgramHeader := { imageHeader 0x10000 with offset := 1, filesz := 100 }

/-- With that header the machine stops. -/
theorem crooked_image_halts : ∃ start, boot bootEtext bootRam bootMemory = some start ∧
    Fits Elf.fromBytes start (.ok (executable 0x10000 [crookedHeader])) ∧
    ∃ e, execute Elf.fromBytes start.kernel
      (.ok (executable 0x10000 [crookedHeader])) start.memory =
      .halt e := by
  obtain ⟨start, used, booted, left, user, users⟩ := boot_supply
  have parsed : Elf.fromBytes (executable 0x10000 [crookedHeader]) =
      some (.elf64 ⟨0x10000, [crookedHeader]⟩) := by decide +kernel
  refine ⟨start, booted, boot_fits booted left user users parsed (by decide) (by decide), ?_⟩
  cases ran : execute Elf.fromBytes start.kernel
    (.ok (executable 0x10000 [crookedHeader])) start.memory with
  | err e _ => cases e
  | halt e => exact ⟨e, rfl⟩
  | ok found m =>
    have crooked := ((execute_wellformed ran).segments _ _ rfl parsed
      crookedHeader (by decide)).offset
    exact absurd crooked (by decide)

end Tacos.Userproc
