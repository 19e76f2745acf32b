/- GID: Tacos/Userproc/Image
   generality: I
   source: src/userproc/load.rs, src/mem/pagetable.rs
   digest: The memory image of a loaded segment: how its pages are mapped, and what they hold. -/

import Tacos.Userproc.Lookup

set_option autoImplicit false
set_option relaxedAutoImplicit false

namespace Tacos.Userproc

open Tacos.Lib.Exec Tacos.Lib.Run Tacos.Mem Tacos.Fs
open PageTable (px seen)

/-- What the user finds at an address: the byte of the page that it is mapped to. -/
def byteAt (m : Memory) (c a : Nat) : Option UInt8 :=
  (seen m c a).bind fun e => (m.frames (target e))[a % 2 ^ 12]?

/-- The bytes from the first page of a segment on: `readbytes` of the file, then zeros. -/
def segmentByte (filebuf : List UInt8) (readpos readbytes x : Nat) : UInt8 :=
  if x < readbytes then filebuf.getD (readpos + x) 0 else 0

section Fill

variable {filebuf : List UInt8} {readpos readbytes : Nat}

/-- What `fill_page` puts into a page. -/
theorem filled_at (file : readpos + readbytes ≤ filebuf.length) {i : Nat} (hi : i < 2 ^ 12) :
    ((filebuf.drop readpos).take (readpos + min readbytes pgSize - readpos) ++
      List.replicate (pgSize - (readpos + min readbytes pgSize - readpos)) 0)[i]? =
        some (segmentByte filebuf readpos readbytes i) := by
  have page : pgSize = 2 ^ 12 := rfl
  have part : readpos + min readbytes pgSize - readpos = min readbytes pgSize :=
    Nat.add_sub_cancel_left ..
  have length : ((filebuf.drop readpos).take (min readbytes pgSize)).length =
    min readbytes pgSize := by
    rw [List.length_take, List.length_drop]
    omega
  rw [part, segmentByte]
  by_cases inside : i < readbytes
  · rw [List.getElem?_append_left (by omega), List.getElem?_take, if_pos (by omega),
      List.getElem?_drop, if_pos inside,
      List.getD_eq_getElem?_getD, List.getElem?_eq_getElem (by omega)]
    rfl
  · rw [List.getElem?_append_right (by omega), List.getElem?_replicate,
      if_pos (by omega), if_neg inside]

theorem segmentByte_next (x : Nat) :
    segmentByte filebuf (readpos + min readbytes pgSize) (readbytes - min readbytes pgSize) x =
      segmentByte filebuf readpos readbytes (2 ^ 12 + x) := by
  have page : pgSize = 2 ^ 12 := rfl
  rw [segmentByte, segmentByte]
  by_cases inside : 2 ^ 12 + x < readbytes
  · rw [if_pos (by omega), if_pos inside, show readpos + min readbytes pgSize + x =
      readpos + (2 ^ 12 + x) by omega]
  · rw [if_neg (by omega), if_neg inside]

end Fill

section Loading

variable {roots : List Nat} {c : Nat} {flag : PTEFlags} {filebuf : List UInt8}

/-- A page is mapped with these flags and holds these bytes. -/
def PageHolds (m : Memory) (c : Nat) (flag : PTEFlags) (va : Nat) (bytes : Nat → UInt8) : Prop :=
  ∃ page, Sane page ∧ view m c (pageIndex va) = some (.new (page - vmOffset) flag) ∧
    ∀ i < 2 ^ 12, (m.frames page)[i]? = some (bytes i)

/-- The pages from `va` on hold a part of the file and zeros; the other pages that are mapped, and
what pages outside the pool hold, stay as they are. -/
structure Holds (roots : List Nat) (c : Nat) (flag : PTEFlags) (va pages : Nat)
    (bytes : Nat → UInt8) (m m' : Memory) :
    Prop where
  homed : ∃ home, Homed roots m' home
  user : m'.userFree = m.userFree.drop pages
  kernel : m.kernelFree.length ≤ m'.kernelFree.length + 2 * pages
  each : ∀ k < pages, PageHolds m' c flag (va + k * 2 ^ 12) fun i => bytes (k * 2 ^ 12 + i)
  frames : ∀ x, x ∉ m.userFree → m'.frames x = m.frames x
  other : ∀ s, (∀ k < pages, s ≠ pageIndex (va + k * 2 ^ 12)) → view m' c s = view m c s

/-- A page is mapped, of which the memory has the first byte's address. -/
theorem map_one {m : Memory} {home : Nat → Option (List (Fin 512))}
    (h : Homed roots m home) (hc : c ∈ roots)
    (small : flag < 2 ^ 8) (valid : flag.contains PTEFlags.v) (pa va : Nat)
    (alignedPa : pa % 2 ^ 12 = 0)
    (alignedVa : va % 2 ^ 12 = 0) (fitsPa : pa + 2 ^ 12 < 2 ^ 64) (fitsVa : va + 2 ^ 12 < 2 ^ 64)
    (supply : 2 ≤ m.kernelFree.length) :
    ∃ m', PageTable.map c pa va 1 flag m = .ok () m' ∧ (∃ home', Homed roots m' home') ∧
      UserKept m m' ∧
      m.kernelFree.length ≤ m'.kernelFree.length + 2 ∧
      view m' c = Function.update (view m c) (pageIndex va) (some (.new pa flag)) := by
  have one : pagesOf 1 = 1 := rfl
  have belowPa : pa + pagesOf 1 * 2 ^ 12 < 2 ^ 64 := by rwa [one, Nat.one_mul]
  have belowVa : va + pagesOf 1 * 2 ^ 12 < 2 ^ 64 := by rwa [one, Nat.one_mul]
  have enough : 2 * pagesOf 1 ≤ m.kernelFree.length := by rwa [one]
  obtain ⟨m', ran, taken⟩ := map_returns h hc flag alignedPa alignedVa belowPa belowVa enough
  exact ⟨m', ran, map_homed h hc ran, map_keeps ran, taken, map_view h hc small valid ran⟩

theorem Holds.first {m m₁ m' : Memory} {buf va pages : Nat} {rest : List Nat} {content : List UInt8}
    {bytes bytes' : Nat → UInt8} (free : m.userFree = buf :: rest)
    (nodup : m.userFree.Nodup) (saneBuf : Sane buf)
    (aligned : va % 2 ^ 12 = 0) (few : pages + 1 ≤ 2 ^ 27) (user : m₁.userFree = rest)
    (kernel : m.kernelFree.length ≤ m₁.kernelFree.length + 2)
    (frames : m₁.frames = Function.update m.frames buf content)
    (mapped : view m₁ c = Function.update (view m c) (pageIndex va)
      (some (.new (buf - vmOffset) flag)))
    (holds : ∀ i < 2 ^ 12, content[i]? = some (bytes i))
    (shifted : ∀ x, bytes' x = bytes (2 ^ 12 + x))
    (others : Holds roots c flag (va + 2 ^ 12) pages bytes' m₁ m') :
    Holds roots c flag va (pages + 1) bytes m m' := by
  rw [free, List.nodup_cons] at nodup
  have next : ∀ k, va + 2 ^ 12 + k * 2 ^ 12 = va + (k + 1) * 2 ^ 12 := by omega
  refine ⟨others.homed, ?_, ?_, ?_, ?_, ?_⟩
  · rw [others.user, user, free, List.drop_succ_cons]
  · have := others.kernel
    omega
  · intro k hk
    cases k with
    | zero =>
      refine ⟨buf, saneBuf, ?_, fun i hi => ?_⟩
      · rw [Nat.zero_mul, Nat.add_zero, others.other, mapped, Function.update_self]
        intro k hk
        rw [Ne, pageIndex_eq_iff]
        omega
      · rw [others.frames buf (user ▸ nodup.1), frames, Function.update_self, holds i hi]
        simp only [Nat.zero_mul, Nat.zero_add]
    | succ k =>
      obtain ⟨page, sane, at_k, inside⟩ := others.each k (Nat.lt_of_succ_lt_succ hk)
      refine ⟨page, sane, next k ▸ at_k, fun i hi => ?_⟩
      have found := inside i hi
      dsimp only at found ⊢
      rw [found, shifted, show 2 ^ 12 + (k * 2 ^ 12 + i) = (k + 1) * 2 ^ 12 + i by omega]
  · intro x hx
    rw [free, List.mem_cons, not_or] at hx
    rw [others.frames x (user ▸ hx.2), frames, Function.update_of_ne hx.1]
  · intro s away
    rw [others.other s fun k hk => next k ▸ away (k + 1) (Nat.succ_lt_succ hk),
      mapped, Function.update_of_ne]
    have here := away 0 (Nat.succ_pos pages)
    rwa [Nat.zero_mul, Nat.add_zero] at here

/-- The loop of `load_segment`. -/
theorem loadPages_holds (hc : c ∈ roots) (small : flag < 2 ^ 8)
    (valid : flag.contains PTEFlags.v) {ubase : Nat}
    (aligned : ubase % 2 ^ 12 = 0) (fileSmall : filebuf.length < 2 ^ 64) {pages : Nat} :
    ∀ (p readbytes readpos : Nat) {m : Memory} {home : Nat → Option (List (Fin 512))},
      Homed roots m home →
      readpos + readbytes ≤ filebuf.length → pages ≤ 2 ^ 27 →
        ubase + (p + pages) * 2 ^ 12 < 2 ^ 64 →
      m.userFree.Nodup → (∀ t ∈ m.userFree, Sane t) → pages ≤ m.userFree.length →
        2 * pages ≤ m.kernelFree.length →
      ∃ m', loadPages filebuf c flag ubase pages p readbytes readpos m =
        .ok (readbytes - pages * 2 ^ 12) m' ∧
        Holds roots c flag (ubase + p * 2 ^ 12) pages
          (segmentByte filebuf readpos readbytes) m m' := by
  have page : pgSize = 2 ^ 12 := rfl
  induction pages with
  | zero =>
    intro p readbytes readpos m home h _ _ _ _ _ _ _
    rw [loadPages]
    exact ⟨m, rfl, ⟨home, h⟩, rfl, Nat.le_refl _, fun k none =>
      absurd none (Nat.not_lt_zero k), fun _ _ => rfl,
      fun _ _ => rfl⟩
  | succ pages ih =>
    intro p readbytes readpos m home h file few fits nodup sane users' kernel'
    have further : ubase + (p + 1 + pages) * 2 ^ 12 < 2 ^ 64 := by
      rw [Nat.add_assoc p 1 pages, Nat.add_comm 1 pages]
      exact fits
    cases free : m.userFree with
    | nil =>
      rw [free, List.length_nil] at users'
      omega
    | cons buf rest =>
      have saneBuf := sane buf (free ▸ List.mem_cons_self)
      have saneRest : ∀ t ∈ rest, Sane t := fun t ht => sane t (free ▸ List.mem_cons_of_mem buf ht)
      have nodupRest : rest.Nodup := (List.nodup_cons.mp (free ▸ nodup)).2
      rw [free, List.length_cons] at users'
      have physical : (buf - vmOffset) % 2 ^ 12 = 0 ∧ buf - vmOffset + 2 ^ 12 < 2 ^ 64 := by
        have offset := vmOffset_eq
        have := saneBuf.high
        have := saneBuf.aligned
        have := saneBuf.fits
        omega
      generalize hm₁ : ({ m with
        userFree := rest,
        frames := Function.update m.frames buf
          ((filebuf.drop readpos).take (readpos + min readbytes pgSize - readpos) ++
            .replicate (pgSize - (readpos + min readbytes pgSize - readpos)) 0) } : Memory) = m₁
      have filled : fillPage filebuf buf readpos (readpos + min readbytes pgSize)
          { m with userFree := rest } = .ok () m₁ := by
        rw [fillPage, if_pos (by omega), ← hm₁]
      have h₁ : Homed roots m₁ home := by
        rw [← hm₁]
        exact h.less rfl h.nodup fun _ ht => ht
      have same : m₁.userFree = rest ∧ m₁.kernelFree = m.kernelFree ∧ view m₁ c = view m c := by
        rw [← hm₁]
        exact ⟨rfl, rfl, rfl⟩
      obtain ⟨user₁, kernel₁, view₁⟩ := same
      rw [← kernel₁] at kernel'
      have product : p * pgSize = p * 2 ^ 12 := rfl
      obtain ⟨m₂, ran, ⟨home₂, h₂⟩, kept, taken, written⟩ :=
        map_one h₁ hc small valid (buf - vmOffset)
        (ubase + p * pgSize) physical.1 (by omega) physical.2 (by omega) (by omega)
      obtain ⟨m₃, looped, others⟩ := ih (p + 1) (readbytes - min readbytes pgSize)
        (readpos + min readbytes pgSize) h₂
        (by omega) (by omega) further (kept.free.trans user₁ ▸ nodupRest)
        (kept.free.trans user₁ ▸ saneRest)
        (by rw [kept.free, user₁]; omega) (by omega)
      refine ⟨m₃, ?_, ?_⟩
      · have inKernel := (inKernelSpace_iff saneBuf.fits).mpr saneBuf.high
        have located : PhysAddr.ofVa buf m₁ = .ok (buf - vmOffset) m₁ :=
          ofVa_ok.mpr ⟨rfl, inKernel, rfl⟩
        have left : readbytes - min readbytes pgSize - pages * 2 ^ 12 =
          readbytes - (pages + 1) * 2 ^ 12 := by omega
        rw [loadPages, Call.bind_ok (allocPage_returns free),
          Call.bind_ok (addUsize_ok.mpr ⟨rfl, by omega, rfl⟩),
          Call.bind_ok filled, Call.bind_ok (addUsize_ok.mpr ⟨rfl, by omega, rfl⟩),
          Call.bind_ok located,
          Call.bind_ok ran, looped, left]
      · have frames₂ := kept.frames
        rw [← hm₁] at frames₂
        rw [show ubase + (p + 1) * 2 ^ 12 = ubase + p * 2 ^ 12 + 2 ^ 12 by omega] at others
        exact Holds.first free nodup saneBuf (by omega) few (kept.free.trans user₁)
          (kernel₁ ▸ taken) frames₂
          (written.trans (by rw [view₁, page])) (fun i hi => filled_at file hi)
          segmentByte_next others

/-- A segment to load of the lower half, whose offset in the file is that of its address in the
page. -/
structure ProgramHeader.Placed (phdr : ProgramHeader) (file : Nat) : Prop where
  load : phdr.phType = .load
  congruent : phdr.offset.toNat % 2 ^ 12 = phdr.vaddr.toNat % 2 ^ 12
  sizes : phdr.filesz.toNat ≤ phdr.memsz.toNat
  inside : phdr.offset.toNat + phdr.filesz.toNat ≤ file
  lower : phdr.vaddr.toNat + phdr.memsz.toNat ≤ 2 ^ 38

/-- The bytes of a segment are the user's to read, to write and to execute where its header says
so, and are those of the file and then zeros. -/
def Imaged (filebuf : List UInt8) (phdr : ProgramHeader) (c : Nat) (m : Memory) : Prop :=
  ∀ a, phdr.vaddr.toNat ≤ a → a < phdr.vaddr.toNat + phdr.memsz.toNat →
    (∃ e, seen m c a = some e ∧ e.isUser ∧ e.flag.contains PTEFlags.r ∧
      e.flag.contains PTEFlags.w = phdr.write ∧ e.flag.contains PTEFlags.x = phdr.execute) ∧
    byteAt m c a =
      if a < phdr.vaddr.toNat + phdr.filesz.toNat then filebuf[phdr.offset.toNat +
        (a - phdr.vaddr.toNat)]?
      else some 0

namespace ProgramHeader

variable {phdr : ProgramHeader} {file : Nat}

theorem ubase_eq (phdr : ProgramHeader) :
    phdr.ubase = phdr.vaddr.toNat - phdr.vaddr.toNat % 2 ^ 12 := by
  rw [ubase, show pgSize = 2 ^ 12 from rfl, roundDown_two_pow]

theorem pageoff_eq (phdr : ProgramHeader) : phdr.pageoff = phdr.vaddr.toNat % 2 ^ 12 :=
  Nat.and_two_pow_sub_one_eq_mod phdr.vaddr.toNat 12

theorem Placed.loadable (placed : phdr.Placed file) : phdr.Loadable file := by
  have page : pgSize = 2 ^ 12 := rfl
  have count := phdr.length_addresses
  have congruent := placed.congruent
  have sizes := placed.sizes
  have inside := placed.inside
  have lower := placed.lower
  rw [page] at count
  refine ⟨?_, ?_, ?_, ?_, fun _ => ?_⟩
  · rw [pageoff_eq]
    exact (Nat.and_two_pow_sub_one_eq_mod phdr.offset.toNat 12).trans congruent
  · rw [pageoff_eq, page]
    omega
  · rw [pageoff_eq] at count ⊢
    omega
  · rw [pageoff_eq] at count
    rw [ubase_eq]
    omega
  · rw [pageoff_eq, page, roundDown_two_pow]
    omega

theorem Placed.few (placed : phdr.Placed file) : phdr.addresses.length ≤ 2 ^ 27 := by
  have count := phdr.length_addresses
  have lower := placed.lower
  rw [show pgSize = 2 ^ 12 from rfl, pageoff_eq] at count
  omega

theorem flag_leafFlag (phdr : ProgramHeader) : phdr.leafFlag.contains PTEFlags.r ∧
    phdr.leafFlag.contains PTEFlags.w = phdr.write ∧
      phdr.leafFlag.contains PTEFlags.x = phdr.execute := by
  rw [leafFlag]
  cases phdr.execute <;> cases phdr.write <;> exact ⟨by decide, by decide, by decide⟩

end ProgramHeader

theorem Holds.imaged {phdr : ProgramHeader} {m m' : Memory} (hc : c ∈ roots)
    (placed : phdr.Placed filebuf.length)
    (holds : Holds roots c phdr.leafFlag phdr.ubase phdr.addresses.length
      (segmentByte filebuf (roundDown phdr.offset.toNat pgSize)
        (phdr.filesz.toNat + phdr.pageoff)) m m') :
    Imaged filebuf phdr c m' := by
  intro a from_start before_end
  obtain ⟨home', h'⟩ := holds.homed
  have user := leafFlag_user phdr
  have small : phdr.leafFlag < 2 ^ 8 := user.small
  have congruent := placed.congruent
  have inside := placed.inside
  have count := phdr.length_addresses
  rw [show pgSize = 2 ^ 12 from rfl, ProgramHeader.pageoff_eq] at count
  have ubase := phdr.ubase_eq
  -- The page of the address, and where it is in the page.
  have whole : phdr.ubase + (a - phdr.ubase) / 2 ^ 12 * 2 ^ 12 + a % 2 ^ 12 = a := by omega
  have within : (a - phdr.ubase) / 2 ^ 12 < phdr.addresses.length := by omega
  obtain ⟨page, sane, mapped, bytes⟩ := holds.each _ within
  have same : pageIndex a = pageIndex (phdr.ubase + (a - phdr.ubase) / 2 ^ 12 * 2 ^ 12) := by
    rw [pageIndex_eq_iff]
    omega
  have found : seen m' c a = some (.new (page - vmOffset) phdr.leafFlag) := by
    rw [h'.seen_eq hc, same, mapped]
  refine ⟨⟨_, found, ?_, ?_⟩, ?_⟩
  · rw [Entry.isUser, Entry.flag_new _ small]
    exact user.user
  · rw [Entry.flag_new _ small]
    exact phdr.flag_leafFlag
  · rw [byteAt, found, Option.bind_some, sane.target_new (Nat.lt_trans small (by decide)),
      bytes _ (Nat.mod_lt _ (by decide))]
    dsimp only
    rw [segmentByte, ProgramHeader.pageoff_eq, show pgSize = 2 ^ 12 from rfl, roundDown_two_pow]
    by_cases inFile : a < phdr.vaddr.toNat + phdr.filesz.toNat
    · rw [if_pos (by omega), if_pos inFile, List.getD_eq_getElem?_getD,
        List.getElem?_eq_getElem (by omega),
        List.getElem?_eq_getElem (by omega), Option.getD_some]
      congr 2
      omega
    · rw [if_neg (by omega), if_neg inFile]

/-- A segment is loaded into a page table that was built from an empty or a cloned one, and its
image is right. -/
theorem segment_imaged {m : Memory} {bs : List Build} {s : Grove} (nodup : m.kernelFree.Nodup)
    (sane : ∀ t ∈ m.kernelFree, Sane t) (built : run Grove.step ⟨m, []⟩ bs = some s)
    (hc : c ∈ s.roots)
    {phdr : ProgramHeader} (placed : phdr.Placed filebuf.length)
    (fileSmall : filebuf.length < 2 ^ 64)
    (userNodup : s.memory.userFree.Nodup) (userSane : ∀ t ∈ s.memory.userFree, Sane t)
    (user : phdr.addresses.length ≤ s.memory.userFree.length)
    (kernel : 2 * phdr.addresses.length ≤ s.memory.kernelFree.length) :
    ∃ m', loadSegment filebuf c phdr s.memory = .ok () m' ∧ Imaged filebuf phdr c m' := by
  obtain ⟨home, h⟩ := Grove.rooted_of_run nodup sane built
  have flag := leafFlag_user phdr
  have loadable := placed.loadable
  have file : roundDown phdr.offset.toNat pgSize + (phdr.filesz.toNat + phdr.pageoff) ≤
    filebuf.length := by
    have congruent := placed.congruent
    have inside := placed.inside
    rw [phdr.pageoff_eq, show pgSize = 2 ^ 12 from rfl, roundDown_two_pow]
    omega
  obtain ⟨m', ran, holds⟩ := loadPages_holds hc flag.small flag.valid phdr.ubase_aligned fileSmall 0
    (phdr.filesz.toNat + phdr.pageoff) (roundDown phdr.offset.toNat pgSize) h file placed.few
    (by rw [Nat.zero_add]; exact loadable.fits) userNodup userSane user kernel
  rw [Nat.zero_mul, Nat.add_zero] at holds
  exact ⟨m', loadSegment_of_pages placed.load loadable ran, holds.imaged hc placed⟩

end Loading

theorem bootMemory_nodupUser : bootMemory.userFree.Nodup := by
  refine List.nodup_range.map ?_
  intro a b hab
  simp only at hab
  omega

/-- Three bytes of data and two pages of zeros. -/
def bssHeader : ProgramHeader where
  phType := .load
  offset := 0x10
  vaddr := 0x400010
  filesz := 3
  memsz := 0x2000
  execute := false
  write := true

def bssFile : List UInt8 := List.replicate 16 0 ++ [1, 2, 3]

theorem bss_imaged : ∃ s m', run Grove.step ⟨bootMemory, []⟩ clonedTable = some s ∧
    loadSegment bssFile 0xFFFFFFC081003000 bssHeader s.memory = .ok () m' ∧
    Imaged bssFile bssHeader 0xFFFFFFC081003000 m' := by
  have computed : (run Grove.step ⟨bootMemory, []⟩ clonedTable).map
      (fun s => (s.roots, s.memory.kernelFree.length, decide
        (s.memory.userFree = bootMemory.userFree))) =
      some ([0xFFFFFFC081003000, 0xFFFFFFC081000000], 196, true) := by
    decide +kernel
  obtain ⟨s, built, ended⟩ := Option.map_eq_some_iff.mp computed
  simp only [Prod.mk.injEq] at ended
  obtain ⟨roots, kernel, same⟩ := ended
  have user := of_decide_eq_true same
  obtain ⟨m', ran, imaged⟩ := segment_imaged bootMemory_nodup bootMemory_sane built
    (roots ▸ List.mem_cons_self)
    (⟨by decide, by decide, by decide, by decide, by decide⟩ :
      bssHeader.Placed bssFile.length) (by decide)
    (user ▸ bootMemory_nodupUser) (user ▸ bootMemory_saneUser) (by rw [user]; decide +kernel)
    (by rw [kernel]; decide +kernel)
  exact ⟨s, m', built, ran, imaged⟩

end Tacos.Userproc
