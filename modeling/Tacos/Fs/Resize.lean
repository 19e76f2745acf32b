/- GID: Tacos/Fs/Resize
   generality: I
   source: src/fs/disk/inode.rs
   digest: One account of the five ways in which a file changes its length. -/

import Tacos.Fs.Transfer

set_option autoImplicit false
set_option relaxedAutoImplicit false

namespace Tacos.Fs

open Tacos.Lib.Exec FreeMap

namespace Inode

/-- The bytes that the sectors of an in-memory inode are allocated for. -/
def total (i : Inode) : Nat := i.data.len + i.desc.shrinkLen

def sectors (i : Inode) : Nat := (i.total + 511) / 512

def Owns (i : Inode) (y : Nat) : Prop := InRun i.data.start i.sectors y

instance (i : Inode) (y : Nat) : Decidable (i.Owns y) := inferInstanceAs (Decidable (InRun _ _ _))

end Inode

/-- What is true of an in-memory inode alone: its data sectors are inside the disk and marked, its
own sector is marked, is none of them and holds what is in memory. -/
structure Settled (s : Sys) (id : Nat) : Prop where
  size_lt : s.freeMap.size < 2 ^ 32
  total_lt : (s.inodes id).total < 2 ^ 32
  fits : (s.inodes id).data.start + (s.inodes id).sectors ≤ s.freeMap.size
  marked : ∀ y, (s.inodes id).Owns y → s.freeMap.bit y = true
  home : s.freeMap.bit (s.inodes id).desc.sector = true
  apart : ¬(s.inodes id).Owns (s.inodes id).desc.sector
  flushed : s.disk (s.inodes id).desc.sector = (s.inodes id).data.toSector

/-- The free map has room for the file to grow to `n` bytes, in place or elsewhere. -/
def Grants (m : FreeMap) (i : Inode) (n : Nat) : Prop :=
  i.total < n →
    (∃ m', inPlaceAlloc (i.data.start + i.sectors) ((n + 511) / 512 - i.sectors) m = .ok () m') ∨
      (inPlaceAlloc (i.data.start + i.sectors) ((n + 511) / 512 - i.sectors) m =
          .err .diskSectorAllocFail m ∧
        ∃ start m', alloc ((n + 511) / 512) m = .ok start m')

/-- The search for sectors right after the file, which is to grow to `n` bytes, runs off the end of
the disk. -/
def Overruns (m : FreeMap) (i : Inode) (n : Nat) : Prop :=
  i.sectors < (n + 511) / 512 ∧ PastEnd m (i.data.start + i.sectors) ((n + 511) / 512 - i.sectors)

/-- Where the data of the file is once it has grown to `n` bytes: where it was, or where the free
map has room for all of it. -/
def grownStart (m : FreeMap) (i : Inode) (n : Nat) : Nat :=
  if i.total < n ∧
      (inPlaceAlloc (i.data.start + i.sectors) ((n + 511) / 512 - i.sectors) m).isOk = false then
    match alloc ((n + 511) / 512) m with
    | .ok start _ => start
    | _ => i.data.start
  else i.data.start

/-- A change of the length of a file to `n`, whichever way it is made. The new data sectors are
old ones or were free, no other bit changes but those of sectors given up, the data that was
there comes along, and sectors that the file did not have keep what they held. -/
structure Resized (s t : Sys) (id n : Nat) : Prop where
  frame : t = { s with
    disk := t.disk
    freeMap := t.freeMap
    inodes := Function.update s.inodes id (t.inodes id) }
  desc : (t.inodes id).desc =
    { (s.inodes id).desc with shrinkLen := (t.inodes id).desc.shrinkLen }
  len : (t.inodes id).data.len = n
  magic : (t.inodes id).data.magic = (s.inodes id).data.magic
  total : (t.inodes id).total = max (s.inodes id).total n
  size : t.freeMap.size = s.freeMap.size
  fits : (t.inodes id).data.start + (t.inodes id).sectors ≤ t.freeMap.size
  marked : ∀ y, (t.inodes id).Owns y → t.freeMap.bit y = true
  grown : ∀ y, (t.inodes id).Owns y → (s.inodes id).Owns y ∨ s.freeMap.bit y = false
  kept : ∀ y, ¬(s.inodes id).Owns y → ¬(t.inodes id).Owns y → t.freeMap.bit y = s.freeMap.bit y
  freed : ∀ y, (s.inodes id).Owns y → ¬(t.inodes id).Owns y → t.freeMap.bit y = false
  flushed : t.disk (s.inodes id).desc.sector = (t.inodes id).data.toSector
  content : ∀ j < (s.inodes id).sectors,
    t.disk ((t.inodes id).data.start + j) = s.disk ((s.inodes id).data.start + j)
  elsewhere : ∀ y, y ≠ (s.inodes id).desc.sector → ¬(t.inodes id).Owns y → t.disk y = s.disk y
  granted : Grants s.freeMap (s.inodes id) n
  start : (t.inodes id).data.start = grownStart s.freeMap (s.inodes id) n
  fresh : ∀ j, (s.inodes id).sectors ≤ j → j < (t.inodes id).sectors →
    t.disk ((t.inodes id).data.start + j) = s.disk ((t.inodes id).data.start + j)

namespace Inode

variable {s t : Sys} {id : Nat}

/-- The state with an inode replaced in memory and on the disk. -/
def settle (s : Sys) (id : Nat) (i : Inode) : Sys := { s with
  inodes := Function.update s.inodes id i
  disk := Function.update s.disk i.desc.sector i.data.toSector }

@[simp] theorem settle_inodes (s : Sys) (id : Nat) (i : Inode) : (settle s id i).inodes id = i :=
  Function.update_self ..

theorem flushLen_eq (free : .virtio ∉ s.held) (i : Inode) (newlen : Nat) :
    (setInode id i >>= fun _ => flushLen id newlen) s =
      .ok () (settle s id ⟨i.desc, { i.data with len := newlen }⟩) := by
  rw [setInode_bind, flushLen, getInode_bind]
  simp only [Function.update_self, setInode_bind, Function.update_idem]
  refine writeSector_eq ?_ _ _
  exact free

/-- No more sectors are needed: shrinking, and growing into what was cut off before. -/
theorem resized_within (settled : Settled s id) {n : Nat} (h : n ≤ (s.inodes id).total) :
    Resized s (settle s id ⟨{ (s.inodes id).desc with shrinkLen := (s.inodes id).total - n },
      { (s.inodes id).data with len := n }⟩) id n := by
  have total : ∀ d : DiskInode, d.len = n →
      (⟨{ (s.inodes id).desc with shrinkLen := (s.inodes id).total - n }, d⟩ : Inode).total =
        (s.inodes id).total := by
    intro d hd
    change d.len + ((s.inodes id).total - n) = _
    omega
  have owns : ∀ y, (⟨{ (s.inodes id).desc with shrinkLen := (s.inodes id).total - n },
      { (s.inodes id).data with len := n }⟩ : Inode).Owns y ↔ (s.inodes id).Owns y := by
    intro y
    rw [Owns, Owns, sectors, total _ rfl]
    rfl
  refine ⟨?_, ?_, ?_, ?_, ?_, rfl, ?_, ?_, ?_, ?_, ?_, ?_, ?_, ?_, fun more => by omega, ?_, ?_⟩ <;>
    simp only [settle_inodes]
  · rfl
  · rw [total _ rfl, max_eq_left h]
  · rw [sectors, total _ rfl]
    exact settled.fits
  · intro y hy
    exact settled.marked y ((owns y).mp hy)
  · intro y hy
    exact .inl ((owns y).mp hy)
  · intro y _ _
    rfl
  · intro y hy hy'
    exact absurd ((owns y).mpr hy) hy'
  · exact Function.update_self ..
  · intro j hj
    refine Function.update_of_ne ?_ _ _
    intro heq
    exact settled.apart (heq ▸ ⟨Nat.le_add_right .., Nat.add_lt_add_left hj _⟩)
  · intro y hy _
    exact Function.update_of_ne hy _ _
  · rw [grownStart, if_neg (by omega)]
  · intro j low high
    rw [sectors, total _ rfl, ← sectors] at high
    omega

/-- The sectors after the file are marked and become part of it. -/
theorem resized_inPlace (settled : Settled s id) {n : Nat} (small : n < 2 ^ 32)
    (more : (s.inodes id).total < n) {m : FreeMap}
    (marks : Marks s.freeMap m ((s.inodes id).data.start + (s.inodes id).sectors)
      ((n + 511) / 512 - (s.inodes id).sectors))
    (free : ∀ y, InRun ((s.inodes id).data.start + (s.inodes id).sectors)
      ((n + 511) / 512 - (s.inodes id).sectors) y → y < s.freeMap.size ∧ s.freeMap.bit y = false)
    (got : inPlaceAlloc ((s.inodes id).data.start + (s.inodes id).sectors)
      ((n + 511) / 512 - (s.inodes id).sectors) s.freeMap = .ok () m) :
    Resized s (settle { s with freeMap := m } id ⟨{ (s.inodes id).desc with shrinkLen := 0 },
      { (s.inodes id).data with len := n }⟩) id n := by
  have sectors : (⟨{ (s.inodes id).desc with shrinkLen := 0 },
    { (s.inodes id).data with len := n }⟩ :
      Inode).sectors = (n + 511) / 512 := rfl
  have old : (s.inodes id).sectors = ((s.inodes id).total + 511) / 512 := rfl
  have new : ∀ y, (⟨{ (s.inodes id).desc with shrinkLen := 0 },
    { (s.inodes id).data with len := n }⟩ :
      Inode).Owns y ↔ (s.inodes id).Owns y ∨
      InRun ((s.inodes id).data.start + (s.inodes id).sectors)
        ((n + 511) / 512 - (s.inodes id).sectors) y := by
    intro y
    simp only [Owns, sectors, InRun]
    omega
  have fits : (s.inodes id).data.start + (n + 511) / 512 ≤ s.freeMap.size := by
    by_cases none : (n + 511) / 512 = (s.inodes id).sectors
    · rw [none]
      exact settled.fits
    · have last := (free ((s.inodes id).data.start + ((n + 511) / 512 - 1)) ⟨by omega, by omega⟩).1
      omega
  refine ⟨?_, ?_, ?_, ?_, ?_, marks.size, ?_, ?_, ?_, ?_, ?_, ?_, ?_, ?_,
    fun _ => .inl ⟨m, got⟩, ?_, ?_⟩ <;>
    simp only [settle_inodes]
  · rfl
  · change n + 0 = _
    omega
  · rw [sectors]
    exact fits.trans marks.size.ge
  · intro y hy
    refine (marks.bit y).trans ?_
    obtain hold | hnew := (new y).mp hy
    · rw [settled.marked y hold, Bool.true_or]
    · rw [decide_eq_true hnew, Bool.or_true]
  · intro y hy
    exact ((new y).mp hy).imp_right fun hnew => (free y hnew).2
  · intro y _ hy
    refine (marks.bit y).trans ?_
    rw [decide_eq_false (fun hrun => hy ((new y).mpr (.inr hrun))), Bool.or_false]
  · intro y hy hy'
    exact absurd ((new y).mpr (.inl hy)) hy'
  · exact Function.update_self ..
  · intro j hj
    refine Function.update_of_ne ?_ _ _
    intro heq
    exact settled.apart (heq ▸ ⟨Nat.le_add_right .., Nat.add_lt_add_left hj _⟩)
  · intro y hy _
    exact Function.update_of_ne hy _ _
  · rw [grownStart, if_neg]
    rintro ⟨-, failed⟩
    rw [got] at failed
    cases failed
  · intro j low high
    refine Function.update_of_ne ?_ _ _
    intro heq
    rw [sectors] at high
    have clear := (free ((s.inodes id).data.start + j) ⟨by omega, by omega⟩).2
    rw [heq, settled.home] at clear
    cases clear

/-- The data is copied to sectors that were free and the old ones are given back. -/
theorem resized_relocate (settled : Settled s id) {n start : Nat} (more : (s.inodes id).total < n)
    {m m' : FreeMap} (fits : start + (n + 511) / 512 ≤ s.freeMap.size)
    (free : ∀ y, InRun start ((n + 511) / 512) y → s.freeMap.bit y = false)
    (marks : Marks s.freeMap m start ((n + 511) / 512))
    (clears : Clears m m' (s.inodes id).data.start (s.inodes id).sectors) {d : Nat → Sector}
    (copied : ∀ j < (s.inodes id).sectors, d (start + j) = s.disk ((s.inodes id).data.start + j))
    (rest : ∀ y, ¬InRun start (s.inodes id).sectors y → d y = s.disk y)
    (refused : inPlaceAlloc ((s.inodes id).data.start + (s.inodes id).sectors)
      ((n + 511) / 512 - (s.inodes id).sectors) s.freeMap = .err .diskSectorAllocFail s.freeMap)
    (got : alloc ((n + 511) / 512) s.freeMap = .ok start m) :
    Resized s (settle { s with freeMap := m', disk := d } id
      ⟨{ (s.inodes id).desc with shrinkLen := 0 },
      { (s.inodes id).data with start := start, len := n }⟩) id n := by
  have sectors : (⟨{ (s.inodes id).desc with shrinkLen := 0 },
      { (s.inodes id).data with start := start, len := n }⟩ :
      Inode).sectors = (n + 511) / 512 := rfl
  have new : ∀ y, (⟨{ (s.inodes id).desc with shrinkLen := 0 },
      { (s.inodes id).data with start := start, len := n }⟩ : Inode).Owns y ↔
        InRun start ((n + 511) / 512) y := fun y => Iff.rfl
  have apart : ∀ y, InRun start ((n + 511) / 512) y → ¬(s.inodes id).Owns y := by
    intro y hy hold
    have := free y hy
    rw [settled.marked y hold] at this
    exact Bool.noConfusion this
  have home : ¬InRun start ((n + 511) / 512) (s.inodes id).desc.sector := by
    intro hrun
    have := free _ hrun
    rw [settled.home] at this
    exact Bool.noConfusion this
  have bit : ∀ y, m'.bit y = ((s.freeMap.bit y || decide (InRun start ((n + 511) / 512) y)) &&
      !decide ((s.inodes id).Owns y)) := by
    intro y
    rw [clears.bit, marks.bit]
    rfl
  have old : (s.inodes id).sectors ≤ (n + 511) / 512 := by
    rw [Inode.sectors]
    omega
  refine ⟨?_, ?_, ?_, ?_, ?_, clears.size.trans marks.size, ?_, ?_, ?_, ?_, ?_, ?_, ?_, ?_,
    fun _ => .inr ⟨refused, start, m, got⟩, ?_, ?_⟩ <;> simp only [settle_inodes]
  · rfl
  · change n + 0 = _
    omega
  · rw [sectors]
    exact fits.trans (clears.size.trans marks.size).ge
  · intro y hy
    refine (bit y).trans ?_
    rw [decide_eq_true ((new y).mp hy), decide_eq_false (apart y ((new y).mp hy)), Bool.or_true]
    rfl
  · intro y hy
    exact .inr (free y ((new y).mp hy))
  · intro y hold hnew
    refine (bit y).trans ?_
    rw [decide_eq_false hold, decide_eq_false fun hrun => hnew ((new y).mpr hrun), Bool.or_false,
      Bool.not_false, Bool.and_true]
  · intro y hy _
    refine (bit y).trans ?_
    rw [decide_eq_true hy, Bool.not_true, Bool.and_false]
  · exact Function.update_self ..
  · intro j hj
    refine (Function.update_of_ne ?_ _ _).trans (copied j hj)
    intro heq
    exact home (heq ▸ ⟨Nat.le_add_right .., Nat.add_lt_add_left (lt_of_lt_of_le hj old) _⟩)
  · intro y hy hnew
    exact (Function.update_of_ne hy _ _).trans
      (rest y fun hrun => hnew
        ((new y).mpr ⟨hrun.1, lt_of_lt_of_le hrun.2 (Nat.add_le_add_left old _)⟩))
  · rw [grownStart, if_pos ⟨more, by rw [refused]; rfl⟩, got]
  · intro j low high
    rw [sectors] at high
    refine (Function.update_of_ne ?_ _ _).trans (rest _ fun hrun => ?_)
    · intro heq
      exact home (heq ▸ ⟨Nat.le_add_right .., Nat.add_lt_add_left high _⟩)
    · exact absurd hrun.2 (by omega)

private theorem resized_self (settled : Settled s id) : Resized s s id (s.inodes id).data.len := by
  have same :
    (⟨{ (s.inodes id).desc with shrinkLen := (s.inodes id).total - (s.inodes id).data.len },
      { (s.inodes id).data with len := (s.inodes id).data.len }⟩ : Inode) = s.inodes id := by
    rw [total, Nat.add_sub_cancel_left]
  have unchanged : settle s id (s.inodes id) = s := by
    rw [settle, ← settled.flushed, Function.update_eq_self, Function.update_eq_self]
  have resized := resized_within settled (Nat.le_add_right (s.inodes id).data.len
    (s.inodes id).desc.shrinkLen)
  rw [same, unchanged] at resized
  exact resized

/-- Where a call to change the length ends: it is changed, or the call fails without a change, or
the machine stops; the last two only when the free map has no room. -/
def ResizeEnds (s : Sys) (id n : Nat) (o : Outcome Sys OsError Halt Unit) : Prop :=
  (∃ t, o = .ok () t ∧ Resized s t id n) ∨
    (o = .err .diskSectorAllocFail s ∧ ¬Grants s.freeMap (s.inodes id) n ∧
      ¬Overruns s.freeMap (s.inodes id) n) ∨
      ∃ h, o = .halt h ∧ ¬Grants s.freeMap (s.inodes id) n ∧ Overruns s.freeMap (s.inodes id) n

theorem relocate_ends (settled : Settled s id) (virtio : .virtio ∉ s.held) {n : Nat}
    (small : n < 2 ^ 32) (more : (s.inodes id).total < n)
    (refused : inPlaceAlloc ((s.inodes id).data.start + (s.inodes id).sectors)
      ((n + 511) / 512 - (s.inodes id).sectors) s.freeMap = .err .diskSectorAllocFail s.freeMap)
    (inside : ¬Overruns s.freeMap (s.inodes id) n) :
    ResizeEnds s id n (relocate id n (s.inodes id).total s) := by
  have cnt : bytesToSectors n = (n + 511) / 512 := bytesToSectors_of_lt small
  have old : bytesToSectors (s.inodes id).total = (s.inodes id).sectors :=
    bytesToSectors_of_lt settled.total_lt
  rw [relocate, getInode_bind, cnt, old]
  have larger : (s.inodes id).sectors ≤ (n + 511) / 512 := by
    rw [Inode.sectors]
    omega
  obtain ⟨start, m, got, past, free, marks⟩ | ⟨none, -⟩ :=
    alloc_cases s.freeMap (show 0 < (n + 511) / 512 by omega)
  · have fits := le_of_lt past
    -- The copy goes to free sectors, so the old ones are read before anything overwrites them.
    have disjoint : start + 0 + (s.inodes id).sectors ≤ (s.inodes id).data.start + 0 ∨
        (s.inodes id).data.start + 0 + (s.inodes id).sectors ≤ start + 0 := by
      by_contra overlap
      have hy := settled.marked (max start (s.inodes id).data.start) ⟨by omega, by omega⟩
      rw [free _ ⟨by omega, by omega⟩] at hy
      exact Bool.noConfusion hy
    have size := settled.size_lt
    have hfits := settled.fits
    obtain ⟨m', k, freed, hk, clears, stop⟩ :=
      dealloc_ok (hfits.trans marks.size.ge) (marks.size.symm ▸ size : m.size < 2 ^ 32)
    have all : k = (s.inodes id).sectors := by
      by_contra hne
      have hlt : k < (s.inodes id).sectors := lt_of_le_of_ne hk hne
      have bit := stop hlt
      rw [marks.bit, settled.marked _ ⟨Nat.le_add_right .., Nat.add_lt_add_left hlt _⟩,
        Bool.true_or] at bit
      exact Bool.noConfusion bit
    rw [all] at clears
    left
    refine ⟨_, ?_, resized_relocate settled more fits free marks clears
      (d := fun y => if start + 0 ≤ y ∧ y < start + 0 + (s.inodes id).sectors then
        s.disk ((s.inodes id).data.start + (y - start)) else s.disk y) ?_ ?_ refused got⟩
    · rw [Call.bind_ok (onFreeMap_ok got), Call.bind_ok
        (copyFrom_eq (s := { s with freeMap := m }) _ _ virtio
        (by omega) (by omega) disjoint), Call.bind_ok (onFreeMap_ok freed)]
      refine flushLen_eq ?_ _ _
      exact virtio
    · intro j hj
      rw [if_pos (by omega)]
      congr 1
      omega
    · intro y hy
      rw [if_neg]
      intro hin
      exact hy ⟨by omega, by omega⟩
  · refine .inr (.inl ⟨Call.bind_err (onFreeMap_err none), ?_, inside⟩)
    intro grants
    obtain ⟨m', h⟩ | ⟨-, start, m', h⟩ := grants more
    · rw [refused] at h
      cases h
    · rw [none] at h
      cases h

theorem extend_ends (settled : Settled s id) (virtio : .virtio ∉ s.held) {n : Nat}
    (small : n < 2 ^ 32) (more : (s.inodes id).total < n) :
    ResizeEnds s id n (extend id n (s.inodes id).total s) := by
  have cnt : bytesToSectors n = (n + 511) / 512 := bytesToSectors_of_lt small
  have old : bytesToSectors (s.inodes id).total = (s.inodes id).sectors :=
    bytesToSectors_of_lt settled.total_lt
  have sum : (s.inodes id).data.start + (s.inodes id).sectors < 2 ^ 32 :=
    lt_of_le_of_lt settled.fits settled.size_lt
  rw [extend, getInode_bind, cnt, old, Call.bind_ok (addU32_eq sum)]
  generalize hstart : (s.inodes id).data.start + (s.inodes id).sectors = start
  generalize hcnt : (n + 511) / 512 - (s.inodes id).sectors = cnt
  have inPlace : ∀ m, inPlaceAlloc start cnt s.freeMap = .ok () m → Marks s.freeMap m start cnt →
      (∀ y, InRun start cnt y → y < s.freeMap.size ∧ s.freeMap.bit y = false) → ∃ t,
      (Call.attempt (onFreeMap (inPlaceAlloc start cnt)) >>= fun inPlace =>
          if inPlace.isOk then do
            setInode id ⟨{ (s.inodes id).desc with shrinkLen := 0 }, (s.inodes id).data⟩
            flushLen id n
          else relocate id n (s.inodes id).total) s = .ok () t ∧ Resized s t id n := by
    intro m got marks free
    subst hstart hcnt
    refine ⟨_, ?_, resized_inPlace settled small more marks free got⟩
    rw [Call.bind_ok (Call.attempt_ok (onFreeMap_ok got)),
      if_pos (show (Except.ok () : Except OsError Unit).isOk from rfl)]
    refine flushLen_eq ?_ _ _
    exact virtio
  have stays : ∀ h, inPlaceAlloc start cnt s.freeMap = .halt h →
    ¬Grants s.freeMap (s.inodes id) n := by
    intro h stopped grants
    subst hstart hcnt
    obtain ⟨m', got⟩ | ⟨got, -⟩ := grants more
    · rw [stopped] at got
      cases got
    · rw [stopped] at got
      cases got
  by_cases none : cnt = 0
  · refine .inl (inPlace s.freeMap (by rw [none]; rfl) ⟨rfl, fun y => ?_⟩ fun y hy => absurd hy ?_)
    · rw [none, decide_eq_false (by unfold InRun; omega), Bool.or_false]
    · rw [none]
      unfold InRun
      omega
  · obtain ⟨m, got, free, marks, -⟩ | ⟨refused, inside, -⟩ | ⟨⟨h, stopped⟩, past⟩ :=
      inPlaceAlloc_cases s.freeMap _ (Nat.pos_of_ne_zero none)
    · exact .inl (inPlace m got marks free)
    · rw [Call.bind_ok (Call.attempt_err (onFreeMap_err refused)),
        if_neg (show ¬(Except.error .diskSectorAllocFail :
          Except OsError Unit).isOk from Bool.false_ne_true)]
      subst hstart hcnt
      exact relocate_ends settled virtio small more refused fun past => inside past.2
    · refine .inr (.inr ⟨h, Call.bind_halt (Call.attempt_halt (onFreeMap_halt stopped)),
        stays _ stopped, ?_⟩)
      subst hstart hcnt
      exact ⟨by omega, past⟩

theorem resizeLocked_ends (settled : Settled s id) (virtio : .virtio ∉ s.held) {n : Nat}
    (small : n < 2 ^ 32) : ResizeEnds s id n (resizeLocked id n s) := by
  have total_lt := settled.total_lt
  rw [resizeLocked, getInode_bind]
  by_cases same : n = (s.inodes id).data.len
  · rw [if_pos same]
    exact .inl ⟨s, rfl, same ▸ resized_self settled⟩
  rw [if_neg same]
  by_cases shrink : n < (s.inodes id).data.len
  · have sum : (s.inodes id).desc.shrinkLen + ((s.inodes id).data.len - n) =
      (s.inodes id).total - n := by
      rw [total]
      omega
    rw [if_pos shrink, Call.bind_ok (addU32_eq (by omega)), sum]
    refine .inl ⟨_, flushLen_eq virtio _ _, resized_within settled ?_⟩
    rw [total]
    omega
  · rw [if_neg shrink, Call.bind_ok (addU32_eq total_lt)]
    by_cases within : n ≤ (s.inodes id).total
    · rw [show ((s.inodes id).data.len + (s.inodes id).desc.shrinkLen) =
        (s.inodes id).total from rfl,
        if_pos within]
      exact .inl ⟨_, flushLen_eq virtio _ _, resized_within settled within⟩
    · rw [show ((s.inodes id).data.len + (s.inodes id).desc.shrinkLen) =
        (s.inodes id).total from rfl,
        if_neg within]
      exact extend_ends settled virtio small (by omega)

end Inode

theorem Settled.lock {s : Sys} {id : Nat} (settled : Settled s id) (ls : List Lock) :
    Settled { s with held := ls } id :=
  ⟨settled.size_lt, settled.total_lt, settled.fits, settled.marked, settled.home,
    settled.apart, settled.flushed⟩

theorem Resized.unlock {s t : Sys} {id n : Nat} {ls : List Lock}
    (resized : Resized { s with held := ls } t id n) :
    Resized s { t with held := s.held } id n := by
  refine ⟨?_, resized.desc, resized.len, resized.magic, resized.total, resized.size, resized.fits,
    resized.marked, resized.grown, resized.kept, resized.freed, resized.flushed, resized.content,
    resized.elsewhere, resized.granted, resized.start, resized.fresh⟩
  conv_lhs => rw [resized.frame]

theorem Resized.held {s t : Sys} {id n : Nat} (resized : Resized s t id n) : t.held = s.held := by
  rw [resized.frame]

theorem Resized.byte {s t : Sys} {id n k : Nat} (resized : Resized s t id n)
    (hk : k < (s.inodes id).data.len) :
    fileByte t.disk (t.inodes id).data.start k = fileByte s.disk (s.inodes id).data.start k := by
  refine fileByte_congr (resized.content (k / 512) ?_)
  rw [Inode.sectors, Inode.total]
  omega

namespace Inode

variable {s : Sys} {id : Nat}

private theorem ResizeEnds.lock {n : Nat} {l : Lock} {x : M Unit} (free : l ∉ s.held)
    (inside : ResizeEnds { s with held := l :: s.held } id n (x { s with held := l :: s.held })) :
    ResizeEnds s id n (Fs.lock l x s) := by
  obtain ⟨t, got, resized⟩ | ⟨failed, full⟩ | ⟨h, stopped, full⟩ := inside
  · exact .inl ⟨{ t with held := s.held }, lock_ok free got resized.held, resized.unlock⟩
  · exact .inr (.inl ⟨lock_err (t := { s with held := l :: s.held }) free failed rfl, full⟩)
  · exact .inr (.inr ⟨h, lock_halt free stopped, full⟩)

theorem resizeInner_ends (settled : Settled s id) (freeMap : .freeMap ∉ s.held)
    (virtio : .virtio ∉ s.held) (size : Nat) :
    ResizeEnds s id (size % 2 ^ 32) (resizeInner id size s) := by
  apply ResizeEnds.lock freeMap
  apply resizeLocked_ends (settled.lock _) _ (Nat.mod_lt size (by norm_num))
  simpa using virtio

theorem resize_ends (settled : Settled s id) (inode : .inode id ∉ s.held)
    (freeMap : .freeMap ∉ s.held)
    (virtio : .virtio ∉ s.held) (size : Nat) :
    ResizeEnds s id (size % 2 ^ 32) (resize id size s) := by
  apply ResizeEnds.lock inode
  apply resizeInner_ends (settled.lock _)
  · simpa using freeMap
  · simpa using virtio

end Inode

theorem Resized.settled {s t : Sys} {id n : Nat} (resized : Resized s t id n)
    (settled : Settled s id)
    (small : n < 2 ^ 32) : Settled t id := by
  have sector : (t.inodes id).desc.sector = (s.inodes id).desc.sector := by rw [resized.desc]
  have not_owned : ¬(t.inodes id).Owns (s.inodes id).desc.sector := by
    intro hy
    obtain hold | hfree := resized.grown _ hy
    · exact settled.apart hold
    · rw [settled.home] at hfree
      exact Bool.noConfusion hfree
  have total_lt := settled.total_lt
  refine ⟨resized.size ▸
    settled.size_lt, by rw [resized.total]; omega, resized.fits, resized.marked, ?_, ?_, ?_⟩
  · rw [sector, resized.kept _ settled.apart not_owned, settled.home]
  · rw [sector]
    exact not_owned
  · rw [sector]
    exact resized.flushed

namespace Inode

variable {s : Sys} {id : Nat}

theorem readAt_cases (inode : .inode id ∉ s.held) (virtio : .virtio ∉ s.held)
    (buf : Slice) (off : Nat) :
    readAt id buf off s = .ok (bytesFrom s.disk (s.inodes id).data.start off
        (min ((s.inodes id).data.len - off) buf.bytes.length)) s ∨
      readAt id buf off s = .err .badPtr s ∧ ∃ p, Blocked (s.inodes id).data.len off buf 0 p := by
  have hv : .virtio ∉ Lock.inode id :: s.held := by simpa using virtio
  have loop := readLoop_cases (s := { s with held := .inode id :: s.held }) (s.inodes id).data.start
    (s.inodes id).data.len off buf hv (show buf.bytes.length - 0 < buf.bytes.length + 1 by omega)
  obtain got | ⟨failed, bad⟩ := loop
  · exact .inl (lock_ok (t := { s with held := .inode id :: s.held }) inode got rfl)
  · exact .inr ⟨lock_err (t := { s with held := .inode id :: s.held }) inode failed rfl, bad⟩

/-- The length that a write first makes the file have. -/
def writeLen (i : Inode) (buf : Slice) (off : Nat) : Nat :=
  if i.data.len < off + buf.bytes.length then (off + buf.bytes.length) % 2 ^ 32 else i.data.len

/-- Where a write ends: it is refused without a change, the machine stops, or the length is
changed where needed and then the bytes are transferred. -/
def WriteAtEnds (s : Sys) (id : Nat) (buf : Slice) (off : Nat)
    (o : Outcome Sys OsError Halt Nat) : Prop :=
  (∃ e, o = .err e s ∧ (0 < (s.inodes id).desc.denyWrite ∨
      (s.inodes id).data.len < off + buf.bytes.length ∧
        ¬Grants s.freeMap (s.inodes id) ((off + buf.bytes.length) % 2 ^ 32) ∧
          ¬Overruns s.freeMap (s.inodes id) ((off + buf.bytes.length) % 2 ^ 32))) ∨
    (∃ h, o = .halt h ∧ (s.inodes id).desc.denyWrite = 0 ∧
        (2 ^ 64 ≤ off + buf.bytes.length ∨ (s.inodes id).data.len < off + buf.bytes.length ∧
          ¬Grants s.freeMap (s.inodes id) ((off + buf.bytes.length) % 2 ^ 32) ∧
            Overruns s.freeMap (s.inodes id) ((off + buf.bytes.length) % 2 ^ 32))) ∨
      ((s.inodes id).desc.denyWrite = 0 ∧ ∃ t, Resized s t id (writeLen (s.inodes id) buf off) ∧
        WriteEnds t (t.inodes id).data.start (t.inodes id).data.len off buf 0
          (min ((t.inodes id).data.len - off) buf.bytes.length) o)

private theorem WriteEnds.unlock {t : Sys} {start len off n : Nat}
    {buf : Slice} {l : Lock} {x : M Nat}
    (free : l ∉ s.held) (kept : t.held = l :: s.held)
    (h : WriteEnds t start len off buf 0 n (x { s with held := l :: s.held })) :
    WriteEnds { t with held := s.held } start len off buf 0 n (Fs.lock l x s) := by
  obtain ⟨got, clear⟩ | ⟨m, hm, failed, bad⟩ := h
  · exact .inl ⟨lock_ok free got kept, clear⟩
  · exact .inr ⟨m, hm, lock_err free failed kept, bad⟩

/-- The second section of `write_at`, which no longer asks whether writing is denied. -/
def writeSection (id : Nat) (buf : Slice) (off : Nat) : M Nat := Fs.lock (.inode id) do
  if 2 ^ 64 ≤ off + buf.bytes.length then Call.halt .overflow
  else
    ensureLen id (off + buf.bytes.length)
    let i ← getInode id
    writeLoop i.data.start i.data.len buf (buf.bytes.length + 1) 0 off

private theorem writeAt_eq (inode : .inode id ∉ s.held) (buf : Slice) (off : Nat)
    (allowed : (s.inodes id).desc.denyWrite = 0) :
    writeAt id buf off s = writeSection id buf off s := by
  have first : Fs.lock (.inode id) (do return (← getInode id).desc.denyWrite) s =
      .ok (s.inodes id).desc.denyWrite s :=
    lock_ok (t := { s with held := .inode id :: s.held }) inode rfl rfl
  rw [writeAt, Call.bind_ok first, if_neg (by omega)]
  rfl

theorem writeAt_denied (inode : .inode id ∉ s.held) (buf : Slice) (off : Nat)
    (denied : 0 < (s.inodes id).desc.denyWrite) :
    writeAt id buf off s = .err .invalidFileMode s := by
  have first : Fs.lock (.inode id) (do return (← getInode id).desc.denyWrite) s =
      .ok (s.inodes id).desc.denyWrite s :=
    lock_ok (t := { s with held := .inode id :: s.held }) inode rfl rfl
  rw [writeAt, Call.bind_ok first, if_pos denied]
  rfl

/-- The loop of a write, from the state that the change of length leaves. -/
private theorem writeLoop_start (virtio : .virtio ∉ s.held) (buf : Slice) (off : Nat) :
    WriteEnds s (s.inodes id).data.start (s.inodes id).data.len off buf 0
      (min ((s.inodes id).data.len - off) buf.bytes.length)
      ((getInode id >>= fun i => writeLoop i.data.start i.data.len buf
        (buf.bytes.length + 1) 0 off) s) :=
  writeLoop_ends _ _ off buf virtio (show buf.bytes.length - 0 < buf.bytes.length + 1 by omega)

private theorem writeSection_within (inode : .inode id ∉ s.held) (virtio : .virtio ∉ s.held)
    (buf : Slice) (off : Nat)
    (short : ¬(s.inodes id).data.len < off + buf.bytes.length)
    (small : off + buf.bytes.length < 2 ^ 64) :
    WriteEnds s (s.inodes id).data.start (s.inodes id).data.len off buf 0
      (min ((s.inodes id).data.len - off) buf.bytes.length)
      (writeSection id buf off s) := by
  have hv : .virtio ∉ Lock.inode id :: s.held := by simpa using virtio
  have ensure : ensureLen id (off + buf.bytes.length) { s with held := .inode id :: s.held } =
      .ok () { s with held := .inode id :: s.held } := by
    rw [ensureLen, getInode_bind, if_neg short, Call.pure_apply]
  refine WriteEnds.unlock (t := { s with held := .inode id :: s.held }) inode rfl ?_
  rw [if_neg (by omega), Call.bind_ok ensure]
  exact writeLoop_start hv buf off

theorem writeAt_within (inode : .inode id ∉ s.held) (virtio : .virtio ∉ s.held)
    (buf : Slice) (off : Nat)
    (allowed : (s.inodes id).desc.denyWrite = 0)
    (short : ¬(s.inodes id).data.len < off + buf.bytes.length)
    (small : off + buf.bytes.length < 2 ^ 64) :
    WriteEnds s (s.inodes id).data.start (s.inodes id).data.len off buf 0
      (min ((s.inodes id).data.len - off) buf.bytes.length)
      (writeAt id buf off s) := by
  rw [writeAt_eq inode buf off allowed]
  exact writeSection_within inode virtio buf off short small

/-- Where the second section of a write ends: there is no room and nothing is changed, the machine
stops, or the length is changed where needed and then the bytes are transferred. -/
def WriteSectionEnds (s : Sys) (id : Nat) (buf : Slice) (off : Nat)
    (o : Outcome Sys OsError Halt Nat) : Prop :=
  (o = .err .diskSectorAllocFail s ∧ (s.inodes id).data.len < off + buf.bytes.length ∧
      ¬Grants s.freeMap (s.inodes id) ((off + buf.bytes.length) % 2 ^ 32) ∧
        ¬Overruns s.freeMap (s.inodes id) ((off + buf.bytes.length) % 2 ^ 32)) ∨
    (∃ h, o = .halt h ∧ (2 ^ 64 ≤ off + buf.bytes.length ∨
      (s.inodes id).data.len < off + buf.bytes.length ∧
        ¬Grants s.freeMap (s.inodes id) ((off + buf.bytes.length) % 2 ^ 32) ∧
          Overruns s.freeMap (s.inodes id) ((off + buf.bytes.length) % 2 ^ 32))) ∨
      ∃ t, Resized s t id (writeLen (s.inodes id) buf off) ∧
        WriteEnds t (t.inodes id).data.start (t.inodes id).data.len off buf 0
          (min ((t.inodes id).data.len - off) buf.bytes.length) o

theorem writeSection_ends (settled : Settled s id) (inode : .inode id ∉ s.held)
    (freeMap : .freeMap ∉ s.held)
    (virtio : .virtio ∉ s.held) (buf : Slice) (off : Nat) :
    WriteSectionEnds s id buf off (writeSection id buf off s) := by
  by_cases huge : 2 ^ 64 ≤ off + buf.bytes.length
  · refine .inr (.inl ⟨.overflow, ?_, .inl huge⟩)
    apply lock_halt inode
    rw [if_pos huge, Call.halt_apply]
  by_cases longer : (s.inodes id).data.len < off + buf.bytes.length
  · have hf : .freeMap ∉ Lock.inode id :: s.held := by simpa using freeMap
    have hv : .virtio ∉ Lock.inode id :: s.held := by simpa using virtio
    have len : writeLen (s.inodes id) buf off = (off + buf.bytes.length) % 2 ^ 32 := if_pos longer
    have ensure : ensureLen id (off + buf.bytes.length) { s with held := .inode id :: s.held } =
        resizeInner id (off + buf.bytes.length) { s with held := .inode id :: s.held } := by
      rw [ensureLen, getInode_bind, if_pos longer]
    obtain ⟨t, got, resized⟩ | ⟨failed, full⟩ | ⟨h, stopped, full⟩ :=
      resizeInner_ends (settled.lock (.inode id :: s.held)) hf hv (off + buf.bytes.length)
    · refine .inr (.inr ⟨{ t with held := s.held }, len ▸ resized.unlock, ?_⟩)
      refine WriteEnds.unlock inode resized.held ?_
      rw [if_neg huge, Call.bind_ok (ensure.trans got)]
      exact writeLoop_start (resized.held ▸ hv) buf off
    · refine .inl ⟨?_, longer, full⟩
      apply lock_err (t := { s with held := .inode id :: s.held }) inode _ rfl
      rw [if_neg huge, Call.bind_err (ensure.trans failed)]
    · refine .inr (.inl ⟨h, lock_halt inode ?_, .inr ⟨longer, full⟩⟩)
      rw [if_neg huge, Call.bind_halt (ensure.trans stopped)]
  · have len : writeLen (s.inodes id) buf off = (s.inodes id).data.len := if_neg longer
    exact .inr (.inr ⟨s, len ▸ resized_self settled,
      writeSection_within inode virtio buf off longer (by omega)⟩)

theorem writeAt_ends (settled : Settled s id) (inode : .inode id ∉ s.held)
    (freeMap : .freeMap ∉ s.held)
    (virtio : .virtio ∉ s.held) (buf : Slice) (off : Nat) :
    WriteAtEnds s id buf off (writeAt id buf off s) := by
  by_cases denied : 0 < (s.inodes id).desc.denyWrite
  · exact .inl ⟨.invalidFileMode, writeAt_denied inode buf off denied, .inl denied⟩
  have allowed : (s.inodes id).desc.denyWrite = 0 := by omega
  rw [writeAt_eq inode buf off allowed]
  obtain ⟨failed, full⟩ | ⟨h, stopped, why⟩ | ends :=
    writeSection_ends settled inode freeMap virtio buf off
  · exact .inl ⟨.diskSectorAllocFail, failed, .inr full⟩
  · exact .inr (.inl ⟨h, stopped, allowed, why⟩)
  · exact .inr (.inr ⟨allowed, ends⟩)

end Inode

end Tacos.Fs
