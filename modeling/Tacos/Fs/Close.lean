/- GID: Tacos/Fs/Close
   generality: I
   source: src/fs/disk/inode.rs
   digest: What closing an inode gives back, sector by sector. -/

import Tacos.Fs.Steps

set_option autoImplicit false
set_option relaxedAutoImplicit false

namespace Tacos.Fs

open Tacos.Lib.Exec Tacos.Lib.Ownership FreeMap Inode

variable {slots slots' : Slots} {s t : Sys} {x id : Nat}

/-- The sectors behind the last one of the length, as many whole ones as were cut off. -/
def Inode.Tail (i : Inode) (y : Nat) : Prop :=
  InRun (i.data.start + (i.data.len + 511) / 512) (i.desc.shrinkLen / 512) y

/-- The sectors of the length. -/
def Inode.Head (i : Inode) (y : Nat) : Prop := InRun i.data.start ((i.data.len + 511) / 512) y

instance (i : Inode) (y : Nat) : Decidable (i.Tail y) := inferInstanceAs (Decidable (InRun _ _ _))

instance (i : Inode) (y : Nat) : Decidable (i.Head y) := inferInstanceAs (Decidable (InRun _ _ _))

theorem Inode.Head.owns {i : Inode} {y : Nat} (h : i.Head y) : i.Owns y := by
  refine ⟨h.1, lt_of_lt_of_le h.2 (Nat.add_le_add_left ?_ _)⟩
  rw [Inode.sectors, Inode.total]
  omega

theorem Inode.Tail.owns {i : Inode} {y : Nat} (h : i.Tail y) : i.Owns y := by
  have low := h.1
  have high := h.2
  refine ⟨by omega, ?_⟩
  rw [Inode.sectors, Inode.total]
  omega

theorem dealloc_marked {m : FreeMap} {sector cnt : Nat} (inside : sector + cnt ≤ m.size)
    (small : m.size < 2 ^ 32) (marked : ∀ y, InRun sector cnt y → m.bit y = true) :
    ∃ n, dealloc sector cnt m = .ok () n ∧ Clears m n sector cnt := by
  obtain ⟨n, k, got, hk, clears, stop⟩ := dealloc_ok inside small
  have all : k = cnt := by
    by_contra hne
    have hlt : k < cnt := lt_of_le_of_ne hk hne
    have bit := stop hlt
    rw [marked _ ⟨Nat.le_add_right .., Nat.add_lt_add_left hlt _⟩] at bit
    cases bit
  exact ⟨n, got, all ▸ clears⟩

theorem trim_ends {i : Inode} (freeMap : .freeMap ∉ s.held) (size : s.freeMap.size < 2 ^ 32)
    (fits : i.data.start + i.sectors ≤ s.freeMap.size)
    (marked : ∀ y, i.Tail y → s.freeMap.bit y = true) :
    (∃ e, trim i s = .halt e ∧ 0 < i.desc.shrinkLen ∧ 2 ^ 32 ≤ i.data.len + 512) ∨
      ∃ n, trim i s = .ok () { s with freeMap := n } ∧ n.size = s.freeMap.size ∧
        ∀ y, n.bit y = (s.freeMap.bit y && !decide (i.Tail y)) := by
  rw [Inode.sectors, Inode.total] at fits
  rw [trim]
  by_cases some : 0 < i.desc.shrinkLen
  · rw [if_pos some]
    by_cases huge : 2 ^ 32 ≤ i.data.len + 512
    · refine .inl ⟨.overflow, ?_, some, huge⟩
      rw [Call.bind_halt]
      rw [addU32, if_neg (by omega), Call.halt_apply]
    · right
      have round : i.data.len + 512 - 1 = i.data.len + 511 := by omega
      rw [Call.bind_ok (addU32_eq (by omega)), round, Call.bind_ok (addU32_eq (by omega))]
      obtain ⟨n, got, clears⟩ := dealloc_marked (by omega) size marked
      refine ⟨n, ?_, clears.size, clears.bit⟩
      exact lock_ok (t := { s with freeMap := n, held := .freeMap :: s.held })
        freeMap (onFreeMap_ok got) rfl
  · rw [if_neg some]
    refine .inr ⟨s.freeMap, rfl, rfl, ?_⟩
    intro y
    have none : ¬i.Tail y := by
      have zero : i.desc.shrinkLen = 0 := by omega
      unfold Inode.Tail InRun
      omega
    rw [decide_eq_false none, Bool.not_false, Bool.and_true]

/-- The root directory can be read and written by a thread that holds these locks. -/
structure RootReady (s : Sys) : Prop where
  ready : FileReady s 0
  small : (s.inodeOf 0).data.len < 2 ^ 32
  allowed : (s.inodeOf 0).desc.denyWrite = 0

/-- The state with the entries of a number struck out and another free map. -/
def Sys.forget (s : Sys) (inum p : Nat) (n : FreeMap) : Sys :=
  { (s.strike inum 0).setPos 0 p with freeMap := n }

/-- What an inode that is removed from the disk gives back. -/
theorem erase_ends {i : Inode} (removed : i.desc.removed = true) (root : RootReady s)
    (rootDir : .rootDir ∉ s.held) (freeMap : .freeMap ∉ s.held) (size : s.freeMap.size < 2 ^ 32)
    (len : i.data.len < 2 ^ 32) (fits : i.data.start + (i.data.len + 511) / 512 ≤ s.freeMap.size)
    (home : i.desc.sector < s.freeMap.size) (marked : ∀ y, i.Head y → s.freeMap.bit y = true)
    (homeMarked : s.freeMap.bit i.desc.sector = true) (apart : ¬i.Head i.desc.sector) :
    ∃ p n, erase i s = .ok () (s.forget i.desc.sector p n) ∧ n.size = s.freeMap.size ∧
      ∀ y, n.bit y = (s.freeMap.bit y && !decide (y = i.desc.sector ∨ i.Head y)) := by
  have cnt : bytesToSectors i.data.len = (i.data.len + 511) / 512 := bytesToSectors_of_lt len
  have ready : FileReady { s with held := .rootDir :: s.held } 0 := by
    refine ⟨root.ready.known, ?_, ?_⟩
    · change Lock.inode (s.file 0).vnode ∉ Lock.rootDir :: s.held
      exact fun h => root.ready.inode (List.mem_of_ne_of_mem (by simp) h)
    · change Lock.virtio ∉ Lock.rootDir :: s.held
      exact fun h => root.ready.virtio (List.mem_of_ne_of_mem (by simp) h)
  obtain ⟨p, struck⟩ := RootDir.remove_ok i.desc.sector ready root.small root.allowed
  obtain ⟨m, first, clearsM⟩ := dealloc_marked fits size marked
  have homeM : ∀ y, InRun i.desc.sector 1 y → m.bit y = true := by
    intro y hy
    have here : y = i.desc.sector := by
      have low := hy.1
      have high := hy.2
      omega
    have out : ¬InRun i.data.start ((i.data.len + 511) / 512) i.desc.sector := apart
    rw [here, clearsM.bit, homeMarked, decide_eq_false out]
    rfl
  obtain ⟨n, second, clearsN⟩ :=
    dealloc_marked (show i.desc.sector + 1 ≤ m.size by rw [clearsM.size]; exact home)
    (clearsM.size ▸ size) homeM
  refine ⟨p, n, ?_, clearsN.size.trans clearsM.size, ?_⟩
  · rw [erase, if_pos removed]
    have inner : ∀ u : Sys, u.freeMap = s.freeMap → .freeMap ∉ u.held →
        lock .freeMap (do
          onFreeMap (FreeMap.dealloc i.data.start (bytesToSectors i.data.len))
          onFreeMap (FreeMap.dealloc i.desc.sector 1)) u = .ok () { u with freeMap := n } := by
      intro u hu free
      refine lock_ok (t := { u with freeMap := n, held := .freeMap :: u.held }) free ?_ rfl
      have one : onFreeMap (FreeMap.dealloc i.data.start (bytesToSectors i.data.len))
          { u with held := .freeMap :: u.held } = .ok ()
          { u with freeMap := m, held := .freeMap :: u.held } := by
        refine onFreeMap_ok ?_
        rw [cnt]
        exact hu.symm ▸ first
      rw [Call.bind_ok one]
      exact onFreeMap_ok second
    have known : expect (RootDir.remove i.desc.sector) { s with held := .rootDir :: s.held } =
        .ok () ((({ s with held := .rootDir :: s.held } : Sys).strike
          i.desc.sector 0).setPos 0 p) := by
      rw [expect, Call.bind_ok (Call.attempt_ok struck)]
      rfl
    refine lock_ok (t := { s.forget i.desc.sector p n with held := .rootDir :: s.held }) rootDir ?_
      rfl
    rw [Call.bind_ok known]
    refine inner _ rfl ?_
    change Lock.freeMap ∉ Lock.rootDir :: s.held
    exact fun h => freeMap (List.mem_of_ne_of_mem (by simp) h)
  · intro y
    have one : InRun i.desc.sector 1 y ↔ y = i.desc.sector := by
      unfold InRun
      omega
    rw [clearsN.bit, clearsM.bit]
    by_cases here : y = i.desc.sector
    · rw [decide_eq_true (one.mpr here), decide_eq_true (Or.inl here),
        Bool.not_true, Bool.and_false,
        Bool.and_false]
    · simp only [one, here, decide_false, Bool.not_false, Bool.and_true, false_or]
      rfl

/-- What closing an inode does: the cut off sectors are given back, and all that is left of a
removed one. -/
structure Closed (s t : Sys) (id : Nat) : Prop where
  size : t.freeMap.size = s.freeMap.size
  bit : ∀ y, t.freeMap.bit y = (s.freeMap.bit y && !decide ((s.inodes id).Tail y) &&
    !decide ((s.inodes id).desc.removed = true ∧
      (y = (s.inodes id).desc.sector ∨ (s.inodes id).Head y)))
  frame : t = if (s.inodes id).desc.removed then
      s.forget (s.inodes id).desc.sector (t.file 0).pos t.freeMap
    else { s with freeMap := t.freeMap }

theorem Inode.Tail.not_head {i : Inode} {y : Nat} (h : i.Tail y) : ¬i.Head y := by
  have low := h.1
  rintro ⟨-, high⟩
  omega

/-- An inode other than the root directory's is closed, unless the rounding of its length
overflows. -/
theorem close_ends (sound : Sound slots s) (h : slots x = some (.opened id)) (ne : x ≠ 1)
    (idle : s.held = []) :
    (∃ e, close id s = .halt e ∧ 0 < (s.inodes id).desc.shrinkLen ∧
        2 ^ 32 ≤ (s.inodes id).data.len + 512) ∨
      ∃ t, close id s = .ok () t ∧ Closed s t id := by
  have settled := sound.settled h
  have sector := sound.sector_eq h
  have apart : id ≠ (s.file 0).vnode := by
    rintro rfl
    exact ne (sound.opened_inj h sound.root.slot)
  have free : Lock.inode id ∉ s.held := by simp [idle]
  have freeMap : Lock.freeMap ∉ Lock.inode id :: s.held := by simp [idle]
  have root : ∀ n, RootReady { s with freeMap := n, held := Lock.inode id :: s.held } := by
    intro n
    refine ⟨⟨sound.root.known, ?_, ?_⟩, ?_, sound.root.allowed⟩
    · change Lock.inode (s.file 0).vnode ∉ Lock.inode id :: s.held
      simpa [idle] using Ne.symm apart
    · change Lock.virtio ∉ Lock.inode id :: s.held
      simp [idle]
    · change (s.inodeOf 0).data.len < 2 ^ 32
      exact sound.root.len
  obtain ⟨e, stops, some, huge⟩ | ⟨m, trims, sizeM, bitM⟩ :=
    trim_ends (s := { s with held := Lock.inode id :: s.held }) freeMap settled.size_lt
      settled.fits fun y hy => settled.marked y hy.owns
  · refine .inl ⟨e, lock_halt free ?_, some, huge⟩
    rw [getInode_bind, Call.bind_halt stops]
  right
  simp only at trims sizeM bitM
  by_cases removed : (s.inodes id).desc.removed = true
  · have homeM : m.bit (s.inodes id).desc.sector = true := by
      rw [bitM, settled.home, decide_eq_false fun hy => settled.apart hy.owns]
      rfl
    have fits := settled.fits
    have total := settled.total_lt
    have within := sound.in_disk _ settled.home
    rw [Inode.sectors, Inode.total] at fits
    rw [Inode.total] at total
    obtain ⟨p, n, erases, sizeN, bitN⟩ := erase_ends removed (root m) (by simp [idle]) freeMap
      (sizeM ▸ settled.size_lt) (by omega) (sizeM ▸ by omega) (sizeM ▸ within) (fun y hy => by
        change m.bit y = true
        rw [bitM, settled.marked y hy.owns, decide_eq_false fun hq => hq.not_head hy]
        rfl) homeM fun hy => settled.apart hy.owns
    have pos : ((s.forget (s.inodes id).desc.sector p n).file 0).pos = p := by
      have ready : FileReady (s.strike (s.inodes id).desc.sector 0) 0 := by
        refine ⟨sound.root.known, ?_, ?_⟩
        · change Lock.inode (s.file 0).vnode ∉ s.held
          simp [idle]
        · change Lock.virtio ∉ s.held
          simp [idle]
      exact ready.pos_setPos p
    refine ⟨s.forget (s.inodes id).desc.sector p n, ?_, sizeN.trans sizeM, ?_, ?_⟩
    · refine lock_ok
        (t := { s.forget (s.inodes id).desc.sector p n with held := Lock.inode id :: s.held })
        free ?_ rfl
      rw [getInode_bind, Call.bind_ok trims]
      exact erases
    · intro y
      change n.bit y = _
      rw [bitN]
      change (m.bit y && _) = _
      rw [bitM]
      simp only [removed, true_and]
    · rw [removed, if_pos rfl, pos]
      rfl
  · refine ⟨{ s with freeMap := m }, ?_, sizeM, ?_, ?_⟩
    · refine lock_ok (t := { s with freeMap := m, held := Lock.inode id :: s.held }) free ?_ rfl
      rw [getInode_bind, Call.bind_ok trims, erase, if_neg removed, Call.pure_apply]
    · intro y
      have stays : ¬((s.inodes id).desc.removed = true ∧
          (y = (s.inodes id).desc.sector ∨ (s.inodes id).Head y)) := fun hy => removed hy.1
      change m.bit y = _
      rw [bitM, decide_eq_false stays, Bool.not_false, Bool.and_true]
    · rw [if_neg removed]

/-- What is left of an inode when it is closed. -/
def leftover (i : Inode) : Option Slot := if i.desc.removed then none else some .closed

theorem leftover_cases (i : Inode) : leftover i = none ∨ leftover i = some .closed := by
  unfold leftover
  split
  · exact .inl rfl
  · exact .inr rfl

theorem leftover_ne_opened (i : Inode) (id : Nat) : leftover i ≠ some (.opened id) := by
  intro opened
  obtain none | closed := leftover_cases i
  · rw [none] at opened
    cases opened
  · rw [closed] at opened
    cases opened

/-- With nothing or an inode on the disk in the place of one number, the inodes in memory are old
ones of others. -/
theorem update_opened {slot : Option Slot} {y : Nat} (out : ∀ id, slot ≠ some (.opened id))
    (hy : Function.update slots x slot y = some (.opened id)) :
    y ≠ x ∧ slots y = some (.opened id) := by
  by_cases here : y = x
  · rw [here, Function.update_self] at hy
    exact absurd hy (out id)
  · rw [Function.update_of_ne here] at hy
    exact ⟨here, hy⟩

namespace Sound

theorem setPos (sound : Sound slots s) (p : Nat) : Local slots slots s (s.setPos 0 p) ∅ := by
  have file : (s.setPos 0 p).file 0 = { s.file 0 with pos := p } := file_setPos p sound.root.known
  have inode : (s.setPos 0 p).inodeOf 0 = s.inodeOf 0 := by
    rw [Sys.inodeOf, file]
    rfl
  refine ⟨⟨sound.size_lt, sound.in_disk, sound.exclusive, sound.placed, ?_⟩, fun _ _ => rfl,
    fun _ _ _ _ => rfl, fun _ _ _ _ => rfl, fun _ _ => rfl⟩
  refine ⟨?_, ?_, inode ▸ sound.root.len, inode ▸ sound.root.allowed⟩
  · rw [lookup_setPos, if_pos rfl, Option.isSome_map]
    exact sound.root.known
  · rw [file]
    exact sound.root.slot

/-- Closing gives up only sectors of the inode, and those of its length only if it was removed. -/
theorem closes (sound : Sound slots s) (h : slots x = some (.opened id)) (ne : x ≠ 1)
    (closed : Closed s t id) :
    Local slots (Function.update slots x (leftover (s.inodes id))) s t {1, x} := by
  have sector := sound.sector_eq h
  have fewer : ∀ y, t.freeMap.bit y = true → s.freeMap.bit y = true := by
    intro y hy
    rw [closed.bit, Bool.and_eq_true, Bool.and_eq_true] at hy
    exact hy.1.1
  have others : ∀ y, y ≠ x → ¬(s.inodes id).Owns y → t.freeMap.bit y = s.freeMap.bit y := by
    intro y hne hown
    have tail : ¬(s.inodes id).Tail y := fun hy => hown hy.owns
    have rest : ¬((s.inodes id).desc.removed = true ∧
        (y = (s.inodes id).desc.sector ∨ (s.inodes id).Head y)) := by
      rintro ⟨-, here | head⟩
      · exact hne (here.trans sector)
      · exact hown head.owns
    rw [closed.bit, decide_eq_false tail, decide_eq_false rest, Bool.not_false,
      Bool.and_true, Bool.and_true]
  have kept : leftover (s.inodes id) = some .closed → ∀ y, y = x ∨ (s.inodes id).Head y →
      t.freeMap.bit y = true := by
    intro stays y hy
    have unremoved : ¬(s.inodes id).desc.removed = true := by
      intro removed
      rw [leftover, if_pos removed] at stays
      cases stays
    have tail : ¬(s.inodes id).Tail y := by
      rcases hy with rfl | head
      · exact fun hy => (sound.settled h).apart (sector.symm ▸ hy.owns)
      · exact fun hy => hy.not_head head
    have mine : y ∈ owned slots s x := (mem_owned_opened h y).mpr (hy.imp_right Inode.Head.owns)
    rw [closed.bit, sound.marked mine, decide_eq_false tail, decide_eq_false fun h => unremoved h.1]
    rfl
  have left := leftover_cases (s.inodes id)
  have frame := closed.frame
  by_cases removed : (s.inodes id).desc.removed = true
  · rw [if_pos removed] at frame
    have struck := sound.strikes (s.inodes id).desc.sector
    have moved := struck.trans (struck.sound.setPos (t.file 0).pos)
    have last := moved.sound.releases h ne (leftover (s.inodes id)) left
      closed.size fewer others kept
    rw [frame]
    refine (moved.trans last).mono ?_
    rintro y ((hy | hy) | hy)
    · exact .inl hy
    · exact hy.elim
    · exact .inr hy
  · rw [if_neg removed] at frame
    rw [frame]
    refine (sound.releases h ne _ left closed.size fewer others kept).mono ?_
    exact Set.subset_insert 1 {x}

end Sound

end Tacos.Fs
