/- GID: Tacos/Userproc/Load
   generality: I
   source: src/userproc/load.rs, src/userproc.rs, src/thread/imp.rs
   digest: The loader of executables, which pages it installs and when it returns. -/

import Tacos.Userproc.Lending

set_option autoImplicit false
set_option relaxedAutoImplicit false

namespace Tacos.Userproc

open Tacos.Lib.Exec Tacos.Mem Tacos.Fs
open PageTable (px)

inductive ProgramType where
  | load
  | other
  deriving DecidableEq

/-- What the loader reads of a `ProgramHeaderEntry`. -/
structure ProgramHeader where
  phType : ProgramType
  offset : UInt64
  vaddr : UInt64
  filesz : UInt64
  memsz : UInt64
  /-- `flags().contains(EXECUTE)` -/
  execute : Bool
  /-- `flags().contains(WRITE)` -/
  write : Bool
  deriving DecidableEq

structure Elf64 where
  entryPoint : UInt64
  programHeaders : List ProgramHeader
  deriving DecidableEq

inductive Elf where
  | elf32
  | elf64 (elf : Elf64)
  deriving DecidableEq

structure ExecInfo where
  entryPoint : Nat
  initSp : Nat

def pgMask : Nat := pgSize - 1

namespace ProgramHeader

def leafFlag (phdr : ProgramHeader) : PTEFlags :=
  PTEFlags.v ||| PTEFlags.u ||| PTEFlags.r ||| (if phdr.execute then PTEFlags.x else 0) |||
    (if phdr.write then PTEFlags.w else 0)

def ubase (phdr : ProgramHeader) : Nat := roundDown phdr.vaddr.toNat pgSize

def pageoff (phdr : ProgramHeader) : Nat := phdr.vaddr.toNat &&& pgMask

def addresses (phdr : ProgramHeader) : List Nat :=
  (List.range ((phdr.pageoff + phdr.memsz.toNat + pgSize - 1) / pgSize)).map
    fun k => phdr.ubase + k * pgSize

end ProgramHeader

def divRoundUp (n : Nat) : M Nat := do
  let top ← addUsize n pgSize
  pure (roundDown (top - 1) pgSize / pgSize)

/-- `page[..readsz].copy_from_slice(&filebuf[readpos..stop])`, and zeros behind. -/
def fillPage (filebuf : List UInt8) (page readpos stop : Nat) : M Unit := fun m =>
  if stop ≤ filebuf.length then
    .ok () { m with
      frames := Function.update m.frames page
        ((filebuf.drop readpos).take (stop - readpos) ++ .replicate (pgSize - (stop - readpos)) 0) }
  else .halt .bounds

/-- The loop of `load_segment` from page `p` on; it returns what is left of `readbytes`. -/
def loadPages (filebuf : List UInt8) (pagetable : PageTable) (flag : PTEFlags) (ubase : Nat) :
    Nat → Nat → Nat → Nat → M Nat
  | 0, _, readbytes, _ => pure readbytes
  | pages + 1, p, readbytes, readpos => do
    let buf ← UserPool.allocPage
    let readsz := min readbytes pgSize
    let stop ← addUsize readpos readsz
    fillPage filebuf buf readpos stop
    let uaddr ← addUsize ubase (p * pgSize)
    let pa ← PhysAddr.ofVa buf
    pagetable.map pa uaddr 1 flag
    loadPages filebuf pagetable flag ubase pages (p + 1) (readbytes - readsz) stop

def loadSegment (filebuf : List UInt8) (pagetable : PageTable) (phdr : ProgramHeader) : M Unit := do
  require (phdr.phType = .load)
  let fileoff := phdr.offset.toNat
  require (fileoff &&& pgMask = phdr.pageoff)
  let size ← addUsize phdr.pageoff phdr.memsz.toNat
  let pages ← divRoundUp size
  let readbytes ← addUsize phdr.filesz.toNat phdr.pageoff
  let left ← loadPages filebuf pagetable phdr.leafFlag phdr.ubase pages 0 readbytes
    (roundDown fileoff pgSize)
  require (left = 0)

/-- A file that cannot be read, and the length of the buffer there is by then. -/
structure ReadError where
  buffer : Nat
  error : OsError

/-- What comes of reading a whole file: a buffer of its length, or an error. -/
abbrev Contents := Except ReadError (List UInt8)

/-- The length of the buffer that is allocated for a file. -/
def Contents.buffer : Contents → Nat
  | .ok buf => buf.length
  | .error e => e.buffer

/-- Load the segments of a file that was read; `parse` is `Elf::from_bytes`. -/
def loadContents (parse : List UInt8 → Option Elf) (file : Contents) (pagetable : PageTable) :
    M (Except OsError ExecInfo) :=
  match file with
  | .error e => pure (.error e.error)
  | .ok buf =>
    match parse buf with
    | some (.elf64 elf) => do
      PageTable.forEach (loadSegment buf pagetable)
        (elf.programHeaders.filter fun p => p.phType = .load)
      pure (.ok ⟨elf.entryPoint.toNat, 0x80500000⟩)
    | some .elf32 | none => pure (.error .unknownFormat)

/-- Read the file into a buffer and load its segments; the buffer is dropped at the end. -/
def loadElf (parse : List UInt8 → Option Elf) (file : Contents) (pagetable : PageTable) :
    M (Except OsError ExecInfo) := do
  let buf ← kallocSize file.buffer
  let loaded ← loadContents parse file pagetable
  kfreeSize buf
  pure loaded

/-- The flags of the page of the user's stack. -/
def stackFlag : PTEFlags := PTEFlags.v ||| PTEFlags.r ||| PTEFlags.w ||| PTEFlags.u

def initUserStack (pagetable : PageTable) (initSp : Nat) : M Unit := do
  require (initSp % pgSize = 0)
  let stackVa ← UserPool.allocPage
  let stackPa ← PhysAddr.ofVa stackVa
  pagetable.map stackPa (floor (initSp - 1)) pgSize stackFlag

/-- The file is then protected from being written. -/
def loadExecutable (parse : List UInt8 → Option Elf) (file : Contents) (pagetable : PageTable) :
    M (Except OsError ExecInfo) := do
  let loaded ← loadElf parse file pagetable
  match loaded with
  | .error e => pure (.error e)
  | .ok execInfo => do
    initUserStack pagetable execInfo.initSp
    pure (.ok execInfo)

def stackSize : Nat := pgSize * 4

/-- What the new thread owns: its page table and the pages of its stack. -/
structure Process where
  pagetable : PageTable
  stack : List Nat

/-- `Thread::drop`. -/
def Process.drop (p : Process) : M Unit := do
  kfreeSize p.stack
  p.pagetable.destroy

/-- The new thread, if there is one; its stack is allocated when it is built. -/
def execute (parse : List UInt8 → Option Elf) (kernel : PageTable) (file : Contents) :
    M (Option Process) := do
  let pt ← KernelPgTable.clone kernel
  let loaded ← loadExecutable parse file pt
  match loaded with
  | .ok _ => do
    let stack ← kallocSize stackSize
    pure (some ⟨pt, stack⟩)
  | .error _ => do
    pt.destroy
    pure none

section Install

variable {kernel c : Nat} {users : List Nat} {m m₁ m₂ m' : Memory}
  {place place' place₁ place₂ : Nat → Option Place} {vas vas' : List Nat}

/-- User pages were mapped at these addresses of the space of `c`. -/
structure Installed (kernel : Nat) (users : List Nat) (c : Nat) (vas : List Nat) (m m' : Memory)
    (place place' : Nat → Option Place) : Prop where
  planted : Planted kernel users m' place'
  grown : Grown m m' place place'
  within : (∀ va ∈ vas, (px 2 va).val < 256) → Within c m m' place place'
  upper : (∀ va ∈ vas, (px 2 va).val < 256) → ∀ j : Fin 512, 256 ≤ j.val →
    m'.tables c j = m.tables c j
  maps : ∀ va ∈ vas, ∃ e, Leads m' c va e ∧ e.isValid ∧ e.isUser

/-- A call that touches neither the tables nor the pages they are made of. -/
theorem Installed.of_same (h : Planted kernel users m place) (tables : m'.tables = m.tables)
    (free : m'.kernelFree = m.kernelFree) : Installed kernel users c [] m m' place place := by
  have planted := h.perm tables (.of_eq free)
  refine ⟨planted, ⟨fun _ _ ht => ht, ?_, ?_⟩, fun _ t _ _ ht _ => ⟨ht, congrFun tables t⟩, ?_, ?_⟩
  · intro t _ _ i _ _ _
    rw [tables]
  · intro t _ _ i _ _ mapped
    rw [tables]
    exact mapped
  · intro _ j _
    rw [tables]
  · exact fun _ hva => nomatch hva

theorem Installed.trans (hc : c ∈ kernel :: users)
    (first : Installed kernel users c vas m m₁ place place₁)
    (second : Installed kernel users c vas' m₁ m₂ place₁ place₂) :
    Installed kernel users c (vas ++ vas') m m₂ place place₂ := by
  refine ⟨second.planted, first.grown.trans second.grown, ?_, ?_, ?_⟩
  · intro low
    exact (first.within fun va hva => low va (List.mem_append_left _ hva)).trans
      (second.within fun va hva => low va (List.mem_append_right _ hva))
  · intro low j hj
    rw [second.upper (fun va hva => low va (List.mem_append_right _ hva)) j hj,
      first.upper (fun va hva => low va (List.mem_append_left _ hva)) j hj]
  · intro va hva
    rcases List.mem_append.mp hva with hva | hva
    · obtain ⟨e, leads, user⟩ := first.maps va hva
      exact leads.grown first.planted hc second.grown user
    · exact second.maps va hva

/-- The loop of `map` runs once for at most a page. -/
theorem map_page {t pa va size : Nat} {flag : PTEFlags} (pos : 0 < size) (small : size ≤ pgSize)
    (ran : PageTable.map t pa va size flag m = .ok () m') :
    PageTable.mapPage t pa va flag m = .ok () m' := by
  simp only [PageTable.map, Call.bind_eq_ok, require_ok, addUsize_ok] at ran
  obtain ⟨_, _, ⟨-, rfl⟩, paEnd, _, ⟨rfl, -, rfl⟩, looped⟩ := ran
  have again : ∀ fuel va' x x', PageTable.mapLoop t (pa + size) flag fuel
    (pa + pgSize) va' x = .ok () x' →
      x' = x := by
    intro fuel va' x x' ran
    cases fuel with
    | zero => cases ran
    | succ fuel =>
      rw [PageTable.mapLoop, if_neg (by omega)] at ran
      cases ran
      rfl
  rw [PageTable.mapLoop, if_pos (by omega)] at looped
  simp only [Call.bind_eq_ok, addUsize_ok] at looped
  obtain ⟨_, m₁, mapped, _, _, ⟨rfl, -, rfl⟩, _, _, ⟨rfl, -, rfl⟩, rest⟩ := looped
  rw [again _ _ _ _ rest]
  exact mapped

/-- The flags of a page of a user's program. -/
structure UserFlag (flag : PTEFlags) : Prop where
  small : flag < 2 ^ 8
  valid : flag.contains PTEFlags.v
  user : flag.contains PTEFlags.u
  own : flag.contains PTEFlags.g = false

theorem leafFlag_user (phdr : ProgramHeader) : UserFlag phdr.leafFlag := by
  rw [ProgramHeader.leafFlag]
  cases phdr.execute <;> cases phdr.write <;> exact ⟨by decide, by decide, by decide, by decide⟩

theorem mapPage_installed (h : Planted kernel users m place) (hc : c ∈ users) {pa va : Nat}
    {flag : PTEFlags} (hflag : UserFlag flag) (ran : PageTable.mapPage c pa va flag m = .ok () m') :
    ∃ place', Installed kernel users c [va] m m' place place' := by
  have hkernel : c ≠ kernel := by
    rintro rfl
    exact (List.nodup_cons.mp h.apart).1 hc
  obtain ⟨place', mapped⟩ := mapPage_mapped h (List.mem_cons_of_mem _ hc)
    (fun hne => absurd hne hkernel) (fun _ => hflag.own) ran
  have valid : (Entry.new pa flag).isValid := by
    rw [Entry.isValid, Entry.flag_new pa hflag.small]
    exact hflag.valid
  have user : (Entry.new pa flag).isUser := by
    rw [Entry.isUser, Entry.flag_new pa hflag.small]
    exact hflag.user
  refine ⟨place', mapped.planted, mapped.grown valid user, ?_, ?_, ?_⟩
  · intro low
    refine mapped.within fun shared => ?_
    have := (h.upper _ shared).2
    have := low va List.mem_cons_self
    omega
  · intro low j hj
    refine mapped.upper j ?_
    rintro rfl
    have := low va List.mem_cons_self
    omega
  · intro va' hva'
    rw [List.mem_singleton.mp hva']
    exact ⟨_, mapped.leads, valid, user⟩

theorem allocPage_ok {page : Nat} (ran : UserPool.allocPage m = .ok page m') :
    m'.tables = m.tables ∧ m'.kernelFree = m.kernelFree := by
  rw [UserPool.allocPage] at ran
  cases free : m.userFree with
  | nil => simp [free] at ran
  | cons head rest =>
    rw [free] at ran
    cases ran
    exact ⟨rfl, rfl⟩

theorem fillPage_ok {filebuf : List UInt8} {page readpos stop : Nat}
    (ran : fillPage filebuf page readpos stop m = .ok () m') :
    m'.tables = m.tables ∧ m'.kernelFree = m.kernelFree := by
  rw [fillPage] at ran
  split at ran
  · cases ran
    exact ⟨rfl, rfl⟩
  · cases ran

/-- The addresses of the pages from the `p`-th on. -/
theorem pages_succ (ubase p pages : Nat) :
    ((List.range (pages + 1)).map fun k => ubase + (p + k) * pgSize) =
    (ubase + p * pgSize) :: (List.range pages).map fun k => ubase + (p + 1 + k) * pgSize := by
  rw [List.range_succ_eq_map, List.map_cons, List.map_map, Nat.add_zero]
  refine congrArg (List.cons _) (List.map_congr_left fun k _ => ?_)
  rw [Function.comp_apply, show p + k.succ = p + 1 + k by omega]

theorem loadPages_installed {filebuf : List UInt8} {flag : PTEFlags} {ubase pages : Nat}
    (hc : c ∈ users) (hflag : UserFlag flag) :
    ∀ {p readbytes readpos left : Nat} {m : Memory} {place : Nat → Option Place},
      Planted kernel users m place →
      loadPages filebuf c flag ubase pages p readbytes readpos m = .ok left m' →
      ∃ place', Installed kernel users c
        ((List.range pages).map fun k => ubase + (p + k) * pgSize) m m' place place' := by
  induction pages with
  | zero =>
    intro p readbytes readpos left m place h ran
    cases ran
    exact ⟨place, .of_same h rfl rfl⟩
  | succ pages ih =>
    intro p readbytes readpos left m place h ran
    simp only [loadPages, Call.bind_eq_ok, addUsize_ok, ofVa_ok] at ran
    obtain ⟨buf, _, allocated, _, m₁, ⟨rfl, -, rfl⟩, _, _, filled, _, _, ⟨rfl, -, rfl⟩, _, m₂,
      ⟨-, -, rfl⟩, _, m₃, mapped, rest⟩ := ran
    obtain ⟨tables₁, free₁⟩ := allocPage_ok allocated
    obtain ⟨tables₂, free₂⟩ := fillPage_ok filled
    have prepared : Installed kernel users c [] m m₂ place place :=
      .of_same h (tables₂.trans tables₁) (free₂.trans free₁)
    obtain ⟨place₁, here⟩ := mapPage_installed prepared.planted hc hflag
      (map_page Nat.one_pos (by decide) mapped)
    obtain ⟨place₂, further⟩ := ih here.planted rest
    have root := List.mem_cons_of_mem kernel hc
    have all := (prepared.trans root here).trans root further
    refine ⟨place₂, ?_⟩
    rw [pages_succ]
    exact all

theorem roundDown_div (x : Nat) : roundDown x pgSize / pgSize = x / pgSize := by
  rw [show pgSize = 2 ^ 12 from rfl, roundDown_two_pow]
  omega

theorem divRoundUp_ok {n k : Nat} (ran : divRoundUp n m = .ok k m') :
    k = (n + pgSize - 1) / pgSize ∧ m' = m := by
  simp only [divRoundUp, Call.bind_eq_ok, addUsize_ok, Call.pure_apply, Outcome.ok.injEq] at ran
  obtain ⟨_, _, ⟨rfl, -, rfl⟩, rfl, rfl⟩ := ran
  exact ⟨roundDown_div _, rfl⟩

theorem loadSegment_installed {filebuf : List UInt8} {phdr : ProgramHeader} (hc : c ∈ users)
    (h : Planted kernel users m place) (ran : loadSegment filebuf c phdr m = .ok () m') :
    ∃ place', Installed kernel users c phdr.addresses m m' place place' := by
  simp only [loadSegment, Call.bind_eq_ok, require_ok, addUsize_ok] at ran
  obtain ⟨_, _, ⟨-, rfl⟩, _, _, ⟨-, rfl⟩, _, _, ⟨rfl, -, rfl⟩, pages, m₁,
    divided, _, _, ⟨rfl, -, rfl⟩,
    left, m₂, loaded, -, rfl⟩ := ran
  obtain ⟨rfl, rfl⟩ := divRoundUp_ok divided
  obtain ⟨place', installed⟩ := loadPages_installed hc (leafFlag_user phdr) h loaded
  refine ⟨place', ?_⟩
  rw [ProgramHeader.addresses]
  simpa only [Nat.zero_add] using installed

theorem forEach_installed {filebuf : List UInt8} (hc : c ∈ users) {phdrs : List ProgramHeader} :
    ∀ {m : Memory} {place : Nat → Option Place}, Planted kernel users m place →
      PageTable.forEach (loadSegment filebuf c) phdrs m = .ok () m' →
      ∃ place', Installed kernel users c (phdrs.flatMap ProgramHeader.addresses)
        m m' place place' := by
  induction phdrs with
  | nil =>
    intro m place h ran
    cases ran
    exact ⟨place, .of_same h rfl rfl⟩
  | cons phdr phdrs ih =>
    intro m place h ran
    rw [PageTable.forEach, Call.bind_eq_ok] at ran
    obtain ⟨_, m₁, first, rest⟩ := ran
    obtain ⟨place₁, here⟩ := loadSegment_installed hc h first
    obtain ⟨place₂, further⟩ := ih here.planted rest
    exact ⟨place₂, here.trans (List.mem_cons_of_mem _ hc) further⟩

def stackPage : Nat := 0x804ff000

theorem initUserStack_installed (hc : c ∈ users) (h : Planted kernel users m place)
    (ran : initUserStack c 0x80500000 m = .ok () m') :
    ∃ place', Installed kernel users c [stackPage] m m' place place' := by
  simp only [initUserStack, Call.bind_eq_ok, require_ok, ofVa_ok] at ran
  obtain ⟨_, m, ⟨-, rfl⟩, buf, _, allocated, _, m₁, ⟨-, -, rfl⟩, mapped⟩ := ran
  obtain ⟨tables, free⟩ := allocPage_ok allocated
  have prepared : Installed kernel users c [] m m₁ place place := .of_same h tables free
  obtain ⟨place', here⟩ := mapPage_installed prepared.planted hc
    ⟨by decide, by decide, by decide, by decide⟩ (map_page (by decide) le_rfl mapped)
  exact ⟨place', prepared.trans (List.mem_cons_of_mem _ hc) here⟩

/-- The addresses that an executable asks for. -/
def Elf64.addresses (elf : Elf64) : List Nat :=
  (elf.programHeaders.filter fun p => p.phType = .load).flatMap ProgramHeader.addresses

theorem Frames.fillPage (filebuf : List UInt8) (page readpos stop : Nat) :
    Frames (fillPage filebuf page readpos stop) := by
  intro m _ m' more ran
  rw [Userproc.fillPage] at ran ⊢
  split at ran
  case isTrue inside =>
    cases ran
    rw [if_pos inside]
    rfl
  case isFalse => cases ran

theorem Frames.loadPages (filebuf : List UInt8) (flag : PTEFlags) (ubase pages : Nat) :
    ∀ p readbytes readpos : Nat,
      Frames (loadPages filebuf c flag ubase pages p readbytes readpos) := by
  induction pages with
  | zero => exact fun _ _ _ => .pure _
  | succ pages ih =>
    intro p readbytes readpos
    exact .bind .allocPage fun _ => .bind (.addUsize _ _)
      fun _ => .bind (.fillPage _ _ _ _) fun _ =>
      .bind (.addUsize _ _) fun _ => .bind (.ofVa _) fun _ => .bind (.map _ _ _ _ _) fun _ =>
      ih _ _ _

theorem Frames.loadSegment (filebuf : List UInt8) (phdr : ProgramHeader) :
    Frames (loadSegment filebuf c phdr) :=
  .bind (.require _) fun _ => .bind (.require _) fun _ => .bind (.addUsize _ _) fun _ =>
    .bind (.bind (.addUsize _ _) fun _ => .pure _) fun _ => .bind (.addUsize _ _) fun _ =>
    .bind (.loadPages _ _ _ _ _ _ _) fun _ => .require _

theorem Frames.loadContents (parse : List UInt8 → Option Elf) (file : Contents) :
    Frames (loadContents parse file c) := by
  cases file with
  | error e => exact .pure _
  | ok buf =>
    rw [Userproc.loadContents]
    cases parse buf with
    | none => exact .pure _
    | some elf =>
      cases elf with
      | elf32 => exact .pure _
      | elf64 elf => exact .bind (.forEach (.loadSegment buf) _) fun _ => .pure _

theorem Frames.initUserStack (initSp : Nat) : Frames (initUserStack c initSp) :=
  .bind (.require _) fun _ => .bind .allocPage fun _ => .bind (.ofVa _) fun _ => .map _ _ _ _ _

/-- A file whose buffer comes from an arena does not see which pages are free. -/
theorem Frames.loadExecutable (parse : List UInt8 → Option Elf) {file : Contents}
    (arena : spilledPages file.buffer = 0) : Frames (loadExecutable parse file c) := by
  have allocated : Frames (kallocSize file.buffer) := by
    rw [kallocSize, if_pos arena]
    exact .pure []
  refine .bind (.bind allocated fun _ => .bind (.loadContents parse file) fun _ =>
    .bind (.modify fun m more => ?_) fun _ => .pure _) fun loaded => ?_
  · simp only [Memory.plus, Memory.withFree, List.append_assoc]
  · cases loaded with
    | error e => exact .pure _
    | ok info => exact .bind (.initUserStack _) fun _ => .pure _

/-- Loading a file from a buffer is loading it without one, save for the order of the free pages. -/
theorem loadElf_framed {parse : List UInt8 → Option Elf} {file : Contents}
    {r : Except OsError ExecInfo} (nodup : m.kernelFree.Nodup)
    (ran : loadElf parse file c m = .ok r m') (more : List Nat) :
    ∃ free free', free.Perm (m.plus more).kernelFree ∧ free'.Perm (m'.plus more).kernelFree ∧
      loadContents parse file c (m.withFree free) = .ok r (m'.withFree free') := by
  simp only [loadElf, kfreeSize, Palloc.dealloc, Call.bind_eq_ok, Call.modify_apply,
    Call.pure_apply, Outcome.ok.injEq] at ran
  obtain ⟨buf, m₁, allocated, _, m₂, loaded, _, _, ⟨-, rfl⟩, rfl, rfl⟩ := ran
  have lent := kallocSize_lent nodup allocated
  have frames : Frames (loadContents parse file c) := .loadContents parse file
  refine ⟨m₁.kernelFree ++ buf ++ more, m₂.kernelFree ++ buf ++ more, ?_, ?_,
    frames _ _ _ more (lent.frame frames loaded)⟩
  · exact (List.perm_append_comm.trans lent.perm.symm).append_right more
  · exact List.perm_append_comm.append_right more

/-- The order of the free pages does not matter to what was installed. -/
theorem Installed.reordered {free free' more : List Nat}
    (h : Installed kernel users c vas (m.withFree free) (m'.withFree free') place place')
    (perm : free'.Perm (m'.plus more).kernelFree) :
    Installed kernel users c vas (m.plus more) (m'.plus more) place place' :=
  ⟨h.planted.perm rfl perm.symm, ⟨h.grown.places, h.grown.pointers, h.grown.leaves⟩, h.within,
    h.upper, h.maps⟩

theorem Planted.nodup_of_plus {more : List Nat} (h : Planted kernel users (m.plus more) place) :
    m.kernelFree.Nodup :=
  (List.nodup_append'.mp h.nodup).1

theorem loadExecutable_installed {parse : List UInt8 → Option Elf} {buf : List UInt8} {elf : Elf64}
    {more : List Nat} (parsed : parse buf = some (.elf64 elf)) (hc : c ∈ users)
    (h : Planted kernel users (m.plus more) place) {r : Except OsError ExecInfo}
    (ran : loadExecutable parse (.ok buf) c m = .ok r m') :
    ∃ place', Installed kernel users c (elf.addresses ++ [stackPage]) (m.plus more) (m'.plus more)
      place place' := by
  rw [loadExecutable, Call.bind_eq_ok] at ran
  obtain ⟨_, m₁, loaded, rest⟩ := ran
  obtain ⟨free, free', before, after, loaded⟩ := loadElf_framed h.nodup_of_plus loaded more
  simp only [loadContents, parsed, Call.bind_eq_ok, Call.pure_apply, Outcome.ok.injEq] at loaded
  obtain ⟨_, _, loaded, rfl, rfl⟩ := loaded
  simp only [Call.bind_eq_ok, Call.pure_apply, Outcome.ok.injEq] at rest
  obtain ⟨_, m₂, stacked, rfl, rfl⟩ := rest
  have frames : Frames (initUserStack c 0x80500000) := .initUserStack _
  have ready : Planted kernel users (m.withFree free) place := h.perm rfl before
  obtain ⟨place₁, first⟩ := forEach_installed hc ready loaded
  have first := first.reordered after
  obtain ⟨place₂, second⟩ :=
    initUserStack_installed hc first.planted (frames _ _ _ more stacked)
  exact ⟨place₂, first.trans (List.mem_cons_of_mem _ hc) second⟩

theorem allocPage_returns {page : Nat} {rest : List Nat} (free : m.userFree = page :: rest) :
    UserPool.allocPage m = .ok page { m with userFree := rest } := by
  rw [UserPool.allocPage, free]

/-- The pages of a segment are loaded when the file has the bytes and both pools the pages. -/
theorem loadPages_returns {filebuf : List UInt8} {flag : PTEFlags} {ubase : Nat} {pages : Nat}
    (hc : c ∈ users) (hflag : UserFlag flag) (aligned : ubase % 2 ^ 12 = 0)
    (small : filebuf.length < 2 ^ 64) :
    ∀ (p readbytes readpos : Nat) {m : Memory} {place : Nat → Option Place},
      Planted kernel users m place → readpos + readbytes ≤ filebuf.length →
      ubase + (p + pages) * 2 ^ 12 < 2 ^ 64 → (∀ t ∈ m.userFree, Sane t) →
      pages ≤ m.userFree.length → 2 * pages ≤ m.kernelFree.length →
      ∃ m', loadPages filebuf c flag ubase pages p readbytes readpos m =
          .ok (readbytes - pages * 2 ^ 12) m' ∧
        m'.userFree = m.userFree.drop pages ∧
        m.kernelFree.length ≤ m'.kernelFree.length + 2 * pages := by
  have page : pgSize = 2 ^ 12 := rfl
  induction pages with
  | zero =>
    intro p readbytes readpos m place _ _ _ _ _ _
    rw [loadPages]
    exact ⟨m, rfl, rfl, le_rfl⟩
  | succ pages ih =>
    intro p readbytes readpos m place h file fits sane users' kernel'
    have fits' : ubase + (p + 1 + pages) * 2 ^ 12 < 2 ^ 64 := by
      rw [Nat.add_assoc p 1 pages, Nat.add_comm 1 pages]
      exact fits
    cases free : m.userFree with
    | nil =>
      rw [free, List.length_nil] at users'
      omega
    | cons buf rest =>
      rw [free] at sane
      rw [free, List.length_cons] at users'
      have saneBuf := sane buf List.mem_cons_self
      have allocated := allocPage_returns free
      have product : p * pgSize = p * 2 ^ 12 := rfl
      have back : buf - vmOffset + vmOffset = buf := Nat.sub_add_cancel saneBuf.high
      generalize hm₁ : ({ m with
        userFree := rest,
        frames := Function.update m.frames buf
          ((filebuf.drop readpos).take (readpos + min readbytes pgSize - readpos) ++
            .replicate (pgSize - (readpos + min readbytes pgSize - readpos)) 0) } : Memory) = m₁
      have filled : fillPage filebuf buf readpos (readpos + min readbytes pgSize)
          { m with userFree := rest } = .ok () m₁ := by
        rw [fillPage, if_pos (by omega), ← hm₁]
      have same : m₁.tables = m.tables ∧ m₁.kernelFree = m.kernelFree ∧ m₁.userFree = rest := by
        rw [← hm₁]
        exact ⟨rfl, rfl, rfl⟩
      have prepared : Installed kernel users c [] m m₁ place place := .of_same h same.1 same.2.1
      obtain ⟨_, m₂, mapped, user, taken, -⟩ := mapOne_takes prepared.planted.homed
        (List.mem_cons_of_mem _ hc) (buf - vmOffset) (ubase + p * pgSize) 1 flag Nat.one_pos
        (by decide) (back.symm ▸ saneBuf) (by omega) (by omega) (by rw [same.2.1]; omega)
      obtain ⟨place₂, here⟩ := mapPage_installed prepared.planted hc hflag
        (map_page Nat.one_pos (by decide) mapped)
      obtain ⟨m₃, ran, user₃, taken₃⟩ := ih (p + 1) (readbytes - min readbytes pgSize)
        (readpos + min readbytes pgSize) here.planted (by omega) fits'
        (fun t ht => sane t (List.mem_cons_of_mem _ (same.2.2 ▸ user ▸ ht)))
        (by rw [user, same.2.2]; omega) (by rw [same.2.1] at taken; omega)
      refine ⟨m₃, ?_, ?_, ?_⟩
      · have inKernel := (inKernelSpace_iff saneBuf.fits).mpr saneBuf.high
        have located : PhysAddr.ofVa buf m₁ = .ok (buf - vmOffset) m₁ :=
          ofVa_ok.mpr ⟨Eq.refl _, inKernel, rfl⟩
        have left : readbytes - min readbytes pgSize - pages * 2 ^ 12 =
            readbytes - (pages + 1) * 2 ^ 12 := by omega
        rw [loadPages, Call.bind_ok allocated, Call.bind_ok (addUsize_ok.mpr ⟨rfl, by omega, rfl⟩),
          Call.bind_ok filled, Call.bind_ok (addUsize_ok.mpr ⟨rfl, by omega, rfl⟩),
          Call.bind_ok located, Call.bind_ok mapped, ran, left]
      · rw [user₃, user, same.2.2, List.drop_succ_cons]
      · rw [same.2.1] at taken
        omega

/-- What the loader asserts of a segment, and what it takes for the sums and the slices in it. -/
structure ProgramHeader.Loadable (phdr : ProgramHeader) (file : Nat) : Prop where
  offset : phdr.offset.toNat &&& pgMask = phdr.pageoff
  size : phdr.pageoff + phdr.memsz.toNat + pgSize < 2 ^ 64
  covered : phdr.filesz.toNat + phdr.pageoff ≤ phdr.addresses.length * 2 ^ 12
  fits : phdr.ubase + phdr.addresses.length * 2 ^ 12 < 2 ^ 64
  inside : phdr.addresses ≠ [] →
    roundDown phdr.offset.toNat pgSize + (phdr.filesz.toNat + phdr.pageoff) ≤ file

theorem ProgramHeader.length_addresses (phdr : ProgramHeader) :
    phdr.addresses.length = (phdr.pageoff + phdr.memsz.toNat + pgSize - 1) / pgSize := by
  rw [ProgramHeader.addresses, List.length_map, List.length_range]

theorem ProgramHeader.ubase_aligned (phdr : ProgramHeader) : phdr.ubase % 2 ^ 12 = 0 := by
  rw [ProgramHeader.ubase, show pgSize = 2 ^ 12 from rfl, roundDown_two_pow]
  omega

theorem loadSegment_of_pages {filebuf : List UInt8} {phdr : ProgramHeader}
    (load : phdr.phType = .load)
    (loadable : phdr.Loadable filebuf.length)
    (ran : loadPages filebuf c phdr.leafFlag phdr.ubase phdr.addresses.length 0
      (phdr.filesz.toNat + phdr.pageoff) (roundDown phdr.offset.toNat pgSize) m =
        .ok (phdr.filesz.toNat + phdr.pageoff - phdr.addresses.length * 2 ^ 12) m') :
    loadSegment filebuf c phdr m = .ok () m' := by
  have page : pgSize = 2 ^ 12 := rfl
  have count := phdr.length_addresses
  have fits := loadable.fits
  have size := loadable.size
  have covered := loadable.covered
  have none : phdr.filesz.toNat + phdr.pageoff - phdr.addresses.length * 2 ^ 12 = 0 :=
    Nat.sub_eq_zero_of_le covered
  have divided : divRoundUp (phdr.pageoff + phdr.memsz.toNat) m = .ok phdr.addresses.length m := by
    rw [divRoundUp, Call.bind_ok (addUsize_ok.mpr ⟨rfl, size, rfl⟩), count, roundDown_div]
    rfl
  have sum : phdr.filesz.toNat + phdr.pageoff < 2 ^ 64 := by
    omega
  rw [loadSegment, Call.bind_ok (require_ok (u := ()).mpr ⟨load, rfl⟩),
    Call.bind_ok (require_ok (u := ()).mpr ⟨loadable.offset, rfl⟩),
    Call.bind_ok (addUsize_ok.mpr ⟨rfl, by omega, rfl⟩), Call.bind_ok divided,
    Call.bind_ok (addUsize_ok.mpr ⟨rfl, sum, rfl⟩), Call.bind_ok ran]
  exact require_ok.mpr ⟨none, rfl⟩

theorem loadSegment_returns {filebuf : List UInt8} {phdr : ProgramHeader} (hc : c ∈ users)
    (load : phdr.phType = .load) (loadable : phdr.Loadable filebuf.length)
    (small : filebuf.length < 2 ^ 64)
    (h : Planted kernel users m place) (sane : ∀ t ∈ m.userFree, Sane t)
    (user : phdr.addresses.length ≤ m.userFree.length)
    (supply : 2 * phdr.addresses.length ≤ m.kernelFree.length) :
    ∃ m', loadSegment filebuf c phdr m = .ok () m' ∧
      m'.userFree = m.userFree.drop phdr.addresses.length ∧
      m.kernelFree.length ≤ m'.kernelFree.length + 2 * phdr.addresses.length := by
  have fits := loadable.fits
  obtain ⟨m', ran, user', taken⟩ : ∃ m', loadPages filebuf c phdr.leafFlag phdr.ubase
      phdr.addresses.length 0 (phdr.filesz.toNat + phdr.pageoff)
      (roundDown phdr.offset.toNat pgSize) m =
        .ok (phdr.filesz.toNat + phdr.pageoff - phdr.addresses.length * 2 ^ 12) m' ∧
      m'.userFree = m.userFree.drop phdr.addresses.length ∧
      m.kernelFree.length ≤ m'.kernelFree.length + 2 * phdr.addresses.length := by
    by_cases none : phdr.addresses = []
    · -- The file is not looked at for a segment without pages.
      rw [none, List.length_nil, loadPages]
      exact ⟨m, rfl, rfl, le_rfl⟩
    · exact loadPages_returns hc (leafFlag_user phdr) phdr.ubase_aligned small 0
        (phdr.filesz.toNat + phdr.pageoff) (roundDown phdr.offset.toNat pgSize)
        h (loadable.inside none)
        (by rw [Nat.zero_add]; exact fits) sane user supply
  exact ⟨m', loadSegment_of_pages load loadable ran, user', taken⟩

theorem forEach_returns {filebuf : List UInt8} (hc : c ∈ users) (small : filebuf.length < 2 ^ 64)
    {phdrs : List ProgramHeader} :
    ∀ {m : Memory} {place : Nat → Option Place},
      (∀ p ∈ phdrs, p.phType = .load ∧ p.Loadable filebuf.length) → Planted kernel users m place →
      (∀ t ∈ m.userFree, Sane t) →
      (phdrs.flatMap ProgramHeader.addresses).length ≤ m.userFree.length →
      2 * (phdrs.flatMap ProgramHeader.addresses).length ≤ m.kernelFree.length →
      ∃ m', PageTable.forEach (loadSegment filebuf c) phdrs m = .ok () m' ∧
        m'.userFree = m.userFree.drop (phdrs.flatMap ProgramHeader.addresses).length ∧
        m.kernelFree.length ≤
          m'.kernelFree.length + 2 * (phdrs.flatMap ProgramHeader.addresses).length := by
  induction phdrs with
  | nil =>
    intro m place _ _ _ _ _
    exact ⟨m, rfl, rfl, le_rfl⟩
  | cons phdr phdrs ih =>
    intro m place each h sane user supply
    rw [List.flatMap_cons, List.length_append] at user supply ⊢
    obtain ⟨load, loadable⟩ := each phdr List.mem_cons_self
    obtain ⟨m₁, first, user₁, taken₁⟩ :=
      loadSegment_returns hc load loadable small h sane (by omega) (by omega)
    obtain ⟨place₁, here⟩ := loadSegment_installed hc h first
    have left := congrArg List.length user₁
    rw [List.length_drop] at left
    obtain ⟨m₂, rest, user₂, taken₂⟩ :=
      ih (fun p hp => each p (List.mem_cons_of_mem _ hp)) here.planted
      (fun t ht => sane t (List.mem_of_mem_drop (user₁ ▸ ht))) (by omega) (by omega)
    refine ⟨m₂, ?_, ?_, by omega⟩
    · rw [PageTable.forEach, Call.bind_ok first]
      exact rest
    · rw [user₂, user₁, List.drop_drop]

theorem initUserStack_returns (hc : c ∈ users) (h : Planted kernel users m place)
    (sane : ∀ t ∈ m.userFree, Sane t) (user : 1 ≤ m.userFree.length)
    (supply : 2 ≤ m.kernelFree.length) :
    ∃ m', initUserStack c 0x80500000 m = .ok () m' := by
  cases free : m.userFree with
  | nil =>
    rw [free] at user
    cases user
  | cons buf rest =>
    have saneBuf := sane buf (free ▸ List.mem_cons_self)
    have inKernel := (inKernelSpace_iff saneBuf.fits).mpr saneBuf.high
    have back : buf - vmOffset + vmOffset = buf := Nat.sub_add_cancel saneBuf.high
    have prepared : Installed kernel users c [] m { m with userFree := rest } place place :=
      .of_same h rfl rfl
    obtain ⟨_, m', mapped, -⟩ := mapOne_takes prepared.planted.homed
      (List.mem_cons_of_mem _ hc) (buf - vmOffset) (floor (0x80500000 - 1)) pgSize stackFlag
      (by decide) le_rfl (back.symm ▸ saneBuf) (by decide) (by decide) supply
    have located : PhysAddr.ofVa buf { m with userFree := rest } =
        .ok (buf - vmOffset) { m with userFree := rest } :=
      ofVa_ok.mpr ⟨Eq.refl _, inKernel, rfl⟩
    refine ⟨m', ?_⟩
    rw [initUserStack, Call.bind_ok (require_ok (u := ()).mpr ⟨by decide, rfl⟩),
      Call.bind_ok (allocPage_returns free), Call.bind_ok located]
    exact mapped

def Elf64.segments (elf : Elf64) : List ProgramHeader :=
  elf.programHeaders.filter fun p => p.phType = .load

/-- An executable is loaded when there is room for the file, its segments can be loaded and both
pools have the pages. -/
theorem loadExecutable_returns {parse : List UInt8 → Option Elf} {buf : List UInt8} {elf : Elf64}
    (parsed : parse buf = some (.elf64 elf)) (hc : c ∈ users)
    (loadable : ∀ p ∈ elf.segments, p.Loadable buf.length)
    (small : buf.length ≤ 2 ^ maxOrder * pgSize)
    (room : Room m.kernelFree (spilledPages buf.length))
    (h : Planted kernel users m place) (sane : ∀ t ∈ m.userFree, Sane t)
    (user : elf.addresses.length + 1 ≤ m.userFree.length)
    (supply : 2 * elf.addresses.length + 2 + blockLength (spilledPages buf.length) ≤
      m.kernelFree.length) :
    ∃ m', loadExecutable parse (.ok buf) c m = .ok (.ok ⟨elf.entryPoint.toNat, 0x80500000⟩) m' := by
  have each : ∀ p ∈ elf.segments, p.phType = .load ∧ p.Loadable buf.length := by
    intro p hp
    exact ⟨of_decide_eq_true (List.mem_filter.mp hp).2, loadable p hp⟩
  obtain ⟨pages, m₁, allocated, lent, length⟩ :=
    kallocSize_returns h.nodup ((spilledPages_le_iff _).mpr small) room
  have left := lent.perm.length_eq
  rw [List.length_append, length] at left
  rw [Elf64.addresses] at user supply
  obtain ⟨m₂, loaded, user₂, taken⟩ := forEach_returns hc
    (Nat.lt_of_le_of_lt small (by decide)) each
    (lent.planted h) (lent.userFree ▸ sane) (by rw [lent.userFree]; exact Nat.le_of_succ_le user)
    (by rw [Elf64.segments]; omega)
  rw [Elf64.segments] at loaded user₂ taken
  have contents : loadContents parse (.ok buf) c m₁ =
      .ok (.ok ⟨elf.entryPoint.toNat, 0x80500000⟩) m₂ := by
    rw [loadContents]
    simp only [parsed]
    rw [Call.bind_ok loaded]
    rfl
  have elf64 : loadElf parse (.ok buf) c m = .ok (.ok ⟨elf.entryPoint.toNat, 0x80500000⟩)
      { m₂ with kernelFree := pages ++ m₂.kernelFree } := by
    rw [loadElf, Contents.buffer, Call.bind_ok allocated, Call.bind_ok contents]
    rfl
  obtain ⟨free, free', before, after, framed⟩ := loadElf_framed h.nodup elf64 []
  simp only [loadContents, parsed, Call.bind_eq_ok, Call.pure_apply, Outcome.ok.injEq] at framed
  obtain ⟨_, _, framed, -, rfl⟩ := framed
  rw [Memory.plus_nil] at before
  have ready : Planted kernel users (m.withFree free) place := h.perm rfl before
  obtain ⟨place₁, installed⟩ := forEach_installed hc ready framed
  have planted₂ := (installed.reordered after).planted
  rw [Memory.plus_nil] at planted₂
  obtain ⟨m₃, stacked⟩ := initUserStack_returns hc planted₂
    (fun t ht => sane t (List.mem_of_mem_drop (lent.userFree ▸ user₂ ▸ ht)))
    (by simp only [user₂, lent.userFree, List.length_drop]; omega)
    (by simp only [List.length_append]; omega)
  refine ⟨m₃, ?_⟩
  rw [loadExecutable, Call.bind_ok elf64]
  simp only
  rw [Call.bind_ok stacked]
  rfl

end Install

end Tacos.Userproc
