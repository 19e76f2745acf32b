/- GID: Tacos/Fs/Steps
   generality: I
   source: src/fs/disk/inode.rs, src/fs/disk.rs, src/fs/disk/free_map.rs
   digest: Writing, creating, opening, closing and erasing an inode, as steps of one owner. -/

import Tacos.Fs.Sound
import Tacos.Fs.DiskFs

set_option autoImplicit false
set_option relaxedAutoImplicit false

namespace Tacos.Fs

open Tacos.Lib.Exec Tacos.Lib.Ownership FreeMap Inode

variable {slots slots' : Slots} {s t : Sys} {x id : Nat}

/-- `RootKept` looks only at the file descriptors and the inodes. -/
theorem RootKept.of_same (h : RootKept slots s) (files : t.files = s.files)
    (inodes : t.inodes = s.inodes) :
    RootKept slots t := by
  have file : t.file 0 = s.file 0 := by rw [Sys.file, files, ← Sys.file]
  have inode : t.inodeOf 0 = s.inodeOf 0 := by rw [Sys.inodeOf, file, inodes, ← Sys.inodeOf]
  exact ⟨files ▸ h.known, file ▸ h.slot, inode ▸ h.len, inode ▸ h.allowed⟩

theorem Inode.overwrite_eq {i : Inode} {off : Nat} {bytes : List UInt8}
    (fits : off + bytes.length ≤ i.total)
    {y : Nat} (hy : ¬i.Owns y) (d : Nat → Sector) : overwrite d i.data.start off bytes y = d y := by
  by_cases none : bytes.length = 0
  · rw [List.length_eq_zero_iff.mp none, overwrite_nil]
  · apply overwrite_of_not_mem
    by_contra inside
    refine hy ⟨by omega, ?_⟩
    rw [Inode.sectors]
    omega

/-- Free sectors were marked, among them all of `A`, and no mark was lost. -/
structure Taken (m n : FreeMap) (A : Nat → Prop) : Prop where
  size : n.size = m.size
  in_disk : ∀ y, n.bit y = true → m.bit y = true ∨ y < m.size
  kept : ∀ y, m.bit y = true → n.bit y = true
  free : ∀ y, A y → m.bit y = false
  marked : ∀ y, A y → n.bit y = true

namespace Taken

variable {l m n : FreeMap} {A B : Nat → Prop}

theorem trans (first : Taken l m A) (second : Taken m n B) : Taken l n fun y => A y ∨ B y := by
  refine ⟨second.size.trans first.size, ?_, fun y hy => second.kept y (first.kept y hy), ?_, ?_⟩
  · intro y hy
    obtain old | inside := second.in_disk y hy
    · exact first.in_disk y old
    · exact .inr (first.size ▸ inside)
  · rintro y (hA | hB)
    · exact first.free y hA
    · by_contra marked
      have old := first.kept y (Bool.not_eq_false _ ▸ marked)
      rw [second.free y hB] at old
      cases old
  · rintro y (hA | hB)
    · exact second.kept y (first.marked y hA)
    · exact second.marked y hB

theorem apart (first : Taken l m A) (second : Taken m n B) {y : Nat} (hA : A y) : ¬B y := by
  intro hB
  have marked := first.marked y hA
  rw [second.free y hB] at marked
  cases marked

end Taken

theorem alloc_taken {m n : FreeMap} {cnt start : Nat} (got : alloc cnt m = .ok start n) :
    Taken m n (InRun start cnt) ∧ start + cnt ≤ m.size := by
  by_cases none : cnt = 0
  · subst none
    rw [alloc_zero, Outcome.ok.injEq] at got
    obtain ⟨rfl, rfl⟩ := got
    have empty : ∀ y, ¬InRun 0 0 y := by
      intro y hy
      exact absurd hy.2 (by omega)
    exact ⟨⟨rfl, fun y hy => .inl hy, fun y hy => hy, fun y hy => (empty y hy).elim,
      fun y hy => (empty y hy).elim⟩, Nat.zero_le _⟩
  · obtain ⟨start', n', found, past, free, marks⟩ | ⟨failed, -⟩ :=
      alloc_cases m (Nat.pos_of_ne_zero none)
    · have fits := le_of_lt past
      rw [found, Outcome.ok.injEq] at got
      obtain ⟨rfl, rfl⟩ := got
      refine ⟨⟨marks.size, ?_, ?_, free, ?_⟩, fits⟩
      · intro y hy
        rw [marks.bit, Bool.or_eq_true, decide_eq_true_eq] at hy
        exact hy.imp_right fun inside => lt_of_lt_of_le inside.2 fits
      · intro y hy
        rw [marks.bit, hy, Bool.true_or]
      · intro y hy
        rw [marks.bit, decide_eq_true hy, Bool.or_true]
    · rw [failed] at got
      cases got

/-- The disk with a new inode written to its sector and its data zeroed. -/
def createdDisk (d : Nat → Sector) (sector start cnt : Nat) (i : DiskInode) :
    Nat → Sector := fun y =>
  if InRun start cnt y then fun _ => 0 else Function.update d sector i.toSector y

theorem Inode.create_eq (sector start len : Nat) (virtio : .virtio ∉ s.held)
    (fits : start + bytesToSectors len ≤ 2 ^ 32) :
    Inode.create sector start len s = .ok s.nextInode { s with
      disk := createdDisk s.disk sector start (bytesToSectors len) ⟨start, len % 2 ^ 32,
        inodeMagic, fun _ => 0⟩
      inodes := Function.update s.inodes s.nextInode
        ⟨.new sector 0, ⟨start, len % 2 ^ 32, inodeMagic, fun _ => 0⟩⟩
      nextInode := s.nextInode + 1 } := by
  have zeroed : ∀ b, zeroFrom start (bytesToSectors len) 0
    { s with disk := Function.update s.disk sector b } = _ :=
    fun b => zeroFrom_eq (s := { s with disk := Function.update s.disk sector b }) start virtio fits
  rw [Inode.create, Call.bind_ok (writeSector_eq virtio sector _), Call.bind_ok (zeroed _)]
  rfl

theorem Inode.openAt_eq (sector : Nat) (virtio : .virtio ∉ s.held) :
    Inode.openAt sector s = if (DiskInode.ofSector (s.disk sector)).magic = inodeMagic then
        .ok s.nextInode { s with
          inodes := Function.update s.inodes s.nextInode ⟨.new sector 0,
            DiskInode.ofSector (s.disk sector)⟩
          nextInode := s.nextInode + 1 }
      else .err .openInvalidInode s := by
  rw [Inode.openAt, Call.bind_ok (readSector_eq virtio sector)]
  by_cases magic : (DiskInode.ofSector (s.disk sector)).magic = inodeMagic
  · rw [if_pos magic, if_neg (not_not.mpr magic)]
    rfl
  · rw [if_neg magic, if_pos magic, Call.throw_apply]

namespace Sound

theorem wrote (sound : Sound slots s) (h : slots x = some (.opened id))
    {off : Nat} {bytes : List UInt8}
    (fits : off + bytes.length ≤ (s.inodes id).total) :
    Local slots slots s (s.wrote (s.inodes id).data.start off bytes) {x} := by
  have disk : ∀ x', x' ≠ x → ∀ y ∈ owned slots s x',
      (s.wrote (s.inodes id).data.start off bytes).disk y = s.disk y := by
    intro x' ne y hy
    refine Inode.overwrite_eq fits (fun hown => ?_) _
    exact sound.other ne hy ((mem_owned_opened h y).mpr (.inr hown))
  have concerns : Concerns slots slots s (s.wrote (s.inodes id).data.start off bytes) x :=
    ⟨fun _ _ => rfl, fun _ _ _ _ => rfl, fun x' ne known =>
      disk x' ne x' (self_mem_owned known), rfl, le_rfl⟩
  refine concerns.local (concerns.sound sound sound.in_disk ?_ ?_ ?_ ?_ ?_) disk
  · have placed := sound.placed x
    rw [Placed, h] at placed ⊢
    refine ⟨placed.1, placed.2.1, placed.2.2.1, placed.2.2.2.1, placed.2.2.2.2.1,
      ?_, placed.2.2.2.2.2.2⟩
    exact (Inode.overwrite_eq fits placed.2.2.2.2.1 _).trans placed.2.2.2.2.2.1
  · intro y hy
    rw [mem_owned_opened h] at hy ⊢
    exact .inl hy
  · intro y hy
    rw [mem_owned_opened h] at hy
    exact sound.marked ((mem_owned_opened h y).mpr hy)
  · exact fun x' _ y hy => sound.marked hy
  · exact sound.root.of_same rfl rfl

theorem refl (sound : Sound slots s) : Local slots slots s s {x} :=
  ⟨sound, fun _ _ => rfl, fun _ _ _ _ => rfl, fun _ _ _ _ => rfl, fun _ _ => rfl⟩

/-- A change of what only the in-memory inode knows, the allocated length apart. -/
theorem describe (sound : Sound slots s) (h : slots x = some (.opened id))
    (ne : x ≠ 1) {d : InodeDesc}
    (sector : d.sector = (s.inodes id).desc.sector)
    (shrink : d.shrinkLen = (s.inodes id).desc.shrinkLen) :
    Local slots slots s { s with inodes := Function.update s.inodes id ⟨d, (s.inodes id).data⟩ }
      {x} := by
  generalize ht : ({ s with inodes := Function.update s.inodes id ⟨d, (s.inodes id).data⟩ } : Sys) =
    t
  have here : t.inodes id = ⟨d, (s.inodes id).data⟩ := by
    rw [← ht]
    exact Function.update_self ..
  have total : (t.inodes id).total = (s.inodes id).total := by
    rw [here, Inode.total, Inode.total, shrink]
  have owns : ∀ y, (t.inodes id).Owns y ↔ (s.inodes id).Owns y := by
    intro y
    rw [Inode.Owns, Inode.Owns, Inode.sectors, Inode.sectors, total, here]
  have inode : ∀ x', x' ≠ x → ∀ id', slots x' = some (.opened id') →
    t.inodes id' = s.inodes id' := by
    intro x' hx' id' h'
    have hid : id' ≠ id := fun e => hx' (sound.opened_inj h' (e ▸ h))
    rw [← ht]
    exact Function.update_of_ne hid _ _
  have disk : t.disk = s.disk := by rw [← ht]
  have bits : t.freeMap = s.freeMap := by rw [← ht]
  have concerns : Concerns slots slots s t x :=
    ⟨fun _ _ => rfl, inode, fun _ _ _ => by rw [disk], by rw [bits], by rw [← ht]⟩
  refine concerns.local (concerns.sound sound (bits ▸ sound.in_disk) ?_ ?_ ?_ ?_ ?_)
    fun _ _ _ _ => by rw [disk]
  · have placed := sound.placed x
    rw [Placed, h] at placed ⊢
    simp only at placed ⊢
    rw [total, owns, Inode.sectors, total, disk, bits, here, sector]
    refine ⟨placed.1, ?_, placed.2.2⟩
    rw [← ht]
    exact placed.2.1
  · intro y hy
    rw [mem_owned_opened h, owns] at hy
    exact .inl ((mem_owned_opened h y).mpr hy)
  · intro y hy
    rw [mem_owned_opened h, owns] at hy
    rw [bits]
    exact sound.marked ((mem_owned_opened h y).mpr hy)
  · intro x' _ y hy
    rw [bits]
    exact sound.marked hy
  · exact sound.rootKept concerns ne (by rw [← ht])

/-- Another free map of the same size, in which what the inodes own is marked. -/
theorem remaps (sound : Sound slots s) {m : FreeMap} (size : m.size = s.freeMap.size)
    (inside : ∀ y, m.bit y = true → y < s.freeMap.size)
    (kept : ∀ x', ∀ y ∈ owned slots s x', m.bit y = true) :
    Local slots slots s { s with freeMap := m } ∅ := by
  refine ⟨⟨size ▸ sound.size_lt, ?_, ⟨sound.exclusive.apart, kept⟩, ?_,
    sound.root.of_same rfl rfl⟩, fun _ _ => rfl, fun _ _ _ _ => rfl, fun _ _ _ _ => rfl,
    fun _ _ => rfl⟩
  · intro y hy
    change y < m.size
    rw [size]
    exact inside y hy
  · intro x'
    have placed := sound.placed x'
    rw [Placed] at placed ⊢
    cases hs : slots x' with
    | none => trivial
    | some slot =>
      rw [hs] at placed
      cases slot with
      | opened id =>
        simp only at placed ⊢
        rw [size]
        exact placed
      | closed =>
        simp only at placed ⊢
        rw [size]
        exact placed

theorem takes (sound : Sound slots s) {m : FreeMap} {A : Nat → Prop} (taken : Taken s.freeMap m A) :
    Local slots slots s { s with freeMap := m } ∅ :=
  sound.remaps taken.size (fun y hy => (taken.in_disk y hy).elim (sound.in_disk y) id)
    fun x' y hy => taken.kept y (sound.exclusive.marked x' y hy)

theorem slot_none (sound : Sound slots s) (free : s.freeMap.bit x = false) : slots x = none := by
  by_contra known
  have marked := sound.marked (self_mem_owned (Option.isSome_iff_ne_none.mpr known))
  rw [free] at marked
  exact Bool.noConfusion marked

theorem mem_owned_closed (h : slots x = some .closed) (y : Nat) :
    y ∈ owned slots s x ↔ y = x ∨ InRun (DiskInode.ofSector (s.disk x)).start
      (((DiskInode.ofSector (s.disk x)).len + 511) / 512) y := by
  change ((slots x).isSome ∧ (y = x ∨ dataOf slots s x y)) ↔ _
  rw [dataOf, h]
  simp

/-- A new inode in memory is out of the way of all others. -/
theorem concerns_newInode (sound : Sound slots s) (i : Inode) {d : Nat → Sector} {m : FreeMap}
    (disk : ∀ x', x' ≠ x → (slots x').isSome → d x' = s.disk x') (size : m.size = s.freeMap.size) :
    Concerns slots (Function.update slots x (some (.opened s.nextInode))) s
      { s with
        disk := d
        freeMap := m
        inodes := Function.update s.inodes s.nextInode i
        nextInode := s.nextInode + 1 } x := by
  refine ⟨fun x' hx' => Function.update_of_ne hx' _ _, ?_, disk, size, Nat.le_succ _⟩
  intro x' _ id' h'
  exact Function.update_of_ne (Nat.ne_of_lt (sound.lt_nextInode h')) _ _

theorem opens (sound : Sound slots s) (h : slots x = some .closed) :
    Local slots (Function.update slots x (some (.opened s.nextInode))) s
      { s with
        inodes := Function.update s.inodes s.nextInode ⟨.new x 0, DiskInode.ofSector (s.disk x)⟩
        nextInode := s.nextInode + 1 } {x} := by
  have ne : x ≠ 1 := by
    rintro rfl
    rw [sound.root.slot] at h
    cases h
  have slot : Function.update slots x (some (.opened s.nextInode)) x = some (.opened s.nextInode) :=
    Function.update_self ..
  have concerns := sound.concerns_newInode (x := x) ⟨.new x 0, DiskInode.ofSector (s.disk x)⟩
    (d := s.disk) (m := s.freeMap) (fun _ _ _ => rfl) rfl
  have placed := sound.placed x
  rw [Placed, h] at placed
  simp only at placed
  have mine : ∀ y, y ∈ owned (Function.update slots x (some (.opened s.nextInode)))
      { s with
        inodes := Function.update s.inodes s.nextInode ⟨.new x 0, DiskInode.ofSector (s.disk x)⟩
        nextInode := s.nextInode + 1 } x ↔ y ∈ owned slots s x := by
    intro y
    rw [mem_owned_opened slot, mem_owned_closed h]
    simp only [Function.update_self]
    rfl
  refine concerns.local (concerns.sound sound sound.in_disk ?_ ?_ ?_ ?_ ?_) fun _ _ _ _ => rfl
  · rw [Placed, slot]
    simp only [Function.update_self]
    refine ⟨rfl, Nat.lt_succ_self _, (DiskInode.ofSector_lt _).2, placed.2.1, ?_, ?_, placed.1⟩
    · intro hown
      refine placed.2.2 ?_
      rw [dataOf, h]
      exact hown
    · exact (DiskInode.toSector_ofSector _).symm
  · exact fun y hy => .inl ((mine y).mp hy)
  · exact fun y hy => sound.marked ((mine y).mp hy)
  · exact fun x' _ y hy => sound.marked hy
  · exact sound.rootKept concerns ne rfl

/-- A new inode takes free sectors, among them one for itself and those for its data. -/
theorem creates (sound : Sound slots s) {start len : Nat} {n : FreeMap}
    {d : Nat → Sector} {A : Nat → Prop}
    (small : len < 2 ^ 32) (taken : Taken s.freeMap n A) (home : A x)
    (data : ∀ y, InRun start ((len + 511) / 512) y → A y)
    (apart : ¬InRun start ((len + 511) / 512) x)
    (fits : start + (len + 511) / 512 ≤ s.freeMap.size) {p : Fin 500 → UInt8}
    (flushed : d x = (⟨start, len, inodeMagic, p⟩ : DiskInode).toSector)
    (elsewhere : ∀ y, ¬A y → d y = s.disk y) :
    Local slots (Function.update slots x (some (.opened s.nextInode))) s
      { s with
        disk := d
        freeMap := n
        inodes := Function.update s.inodes s.nextInode ⟨.new x 0, ⟨start, len, inodeMagic, p⟩⟩
        nextInode := s.nextInode + 1 } {x} := by
  have ne : x ≠ 1 := by
    rintro rfl
    have slot := sound.root.slot
    rw [sound.slot_none (taken.free 1 home)] at slot
    cases slot
  have slot : Function.update slots x (some (.opened s.nextInode)) x = some (.opened s.nextInode) :=
    Function.update_self ..
  have disk : ∀ x', x' ≠ x → ∀ y ∈ owned slots s x', d y = s.disk y := by
    intro x' _ y hy
    refine elsewhere y fun hA => ?_
    have marked := sound.marked hy
    rw [taken.free y hA] at marked
    cases marked
  have concerns := sound.concerns_newInode (x := x) ⟨.new x 0,
    ⟨start, len, inodeMagic, p⟩⟩ (d := d) (m := n)
    (fun x' hx' known => disk x' hx' x' (self_mem_owned known)) taken.size
  have mine : ∀ y, y ∈ owned (Function.update slots x (some (.opened s.nextInode)))
      { s with
        disk := d
        freeMap := n
        inodes := Function.update s.inodes s.nextInode ⟨.new x 0, ⟨start, len, inodeMagic, p⟩⟩
        nextInode := s.nextInode + 1 } x → A y := by
    intro y hy
    rw [mem_owned_opened slot] at hy
    simp only [Function.update_self] at hy
    rcases hy with rfl | hy
    · exact home
    · exact data y hy
  refine concerns.local (concerns.sound sound ?_ ?_ ?_ ?_ ?_ ?_) disk
  · intro y hy
    change y < n.size
    rw [taken.size]
    exact (taken.in_disk y hy).elim (sound.in_disk y) id
  · rw [Placed, slot]
    simp only [Function.update_self]
    refine ⟨rfl, Nat.lt_succ_self _, small, ?_, apart, flushed, trivial⟩
    rw [taken.size]
    exact fits
  · exact fun y hy => .inr (taken.free y (mine y hy))
  · exact fun y hy => taken.marked y (mine y hy)
  · exact fun x' _ y hy => taken.kept y (sound.marked hy)
  · exact sound.rootKept concerns ne rfl

/-- An inode leaves memory and gives up marks of its own sectors; if it stays on the disk it keeps
those of its length. -/
theorem releases (sound : Sound slots s) (h : slots x = some (.opened id))
    (ne : x ≠ 1) {n : FreeMap}
    (slot : Option Slot) (left : slot = none ∨ slot = some .closed) (size : n.size = s.freeMap.size)
    (fewer : ∀ y, n.bit y = true → s.freeMap.bit y = true)
    (others : ∀ y, y ≠ x → ¬(s.inodes id).Owns y → n.bit y = s.freeMap.bit y)
    (kept : slot = some .closed → ∀ y, y = x ∨ InRun (s.inodes id).data.start
      (((s.inodes id).data.len + 511) / 512) y → n.bit y = true) :
    Local slots (Function.update slots x slot) s { s with freeMap := n } {x} := by
  have slotX : Function.update slots x slot x = slot := Function.update_self ..
  have concerns : Concerns slots (Function.update slots x slot) s { s with freeMap := n } x :=
    ⟨fun x' hx' => Function.update_of_ne hx' _ _, fun _ _ _ _ => rfl,
      fun _ _ _ => rfl, size, le_rfl⟩
  have data := sound.ofSector_eq h
  have placed := sound.placed x
  rw [Placed, h] at placed
  simp only at placed
  have shorter : ((s.inodes id).data.len + 511) / 512 ≤ (s.inodes id).sectors := by
    rw [Inode.sectors, Inode.total]
    omega
  have mine : ∀ y, y ∈ owned (Function.update slots x slot) { s with freeMap := n } x →
      slot = some .closed ∧ (y = x ∨ InRun (s.inodes id).data.start
        (((s.inodes id).data.len + 511) / 512) y) := by
    intro y hy
    rcases left with rfl | rfl
    · exact absurd hy (not_mem_owned_none slotX y)
    · have := (mem_owned_closed slotX y).mp hy
      simp only [data] at this
      exact ⟨rfl, this⟩
  have owns : ∀ y, InRun (s.inodes id).data.start (((s.inodes id).data.len + 511) / 512) y →
      (s.inodes id).Owns y :=
      fun y hy => ⟨hy.1, lt_of_lt_of_le hy.2 (Nat.add_le_add_left shorter _)⟩
  refine concerns.local (concerns.sound sound ?_ ?_ ?_ ?_ ?_ ?_) fun _ _ _ _ => rfl
  · intro y hy
    change y < n.size
    rw [size]
    exact sound.in_disk y (fewer y hy)
  · rw [Placed, slotX]
    rcases left with rfl | rfl
    · trivial
    · have fits := placed.2.2.2.1
      refine ⟨?_, ?_, ?_⟩
      · simp only [data]
        exact sound.magic_eq h
      · simp only [data]
        rw [size]
        omega
      · rw [dataOf, slotX]
        simp only [data]
        exact fun hrun => placed.2.2.2.2.1 (owns x hrun)
  · intro y hy
    refine .inl ((mem_owned_opened h y).mpr ((mine y hy).2.imp_right (owns y)))
  · exact fun y hy => kept (mine y hy).1 y (mine y hy).2
  · intro x' hx' y hy
    have out := sound.other hx' hy
    rw [mem_owned_opened h, not_or] at out
    change n.bit y = true
    rw [others y out.1 out.2]
    exact sound.marked hy
  · exact sound.rootKept concerns ne rfl

theorem strikes (sound : Sound slots s) (inum : Nat) :
    Local slots slots s (s.strike inum 0) {1} := by
  have h := sound.root.slot
  have total : (s.inodeOf 0).data.len ≤ (s.inodeOf 0).total := Nat.le_add_right _ _
  have same : ∀ y, ¬(s.inodeOf 0).Owns y → (s.strike inum 0).disk y = s.disk y := by
    intro y hy
    funext j
    have hj := j.isLt
    refine if_neg ?_
    rintro ⟨low, -, -, inside, -⟩
    refine hy ⟨low, ?_⟩
    rw [Inode.sectors]
    omega
  have disk : ∀ x', x' ≠ 1 → ∀ y ∈ owned slots s x', (s.strike inum 0).disk y = s.disk y := by
    intro x' ne y hy
    refine same y fun hown => ?_
    exact sound.other ne hy ((mem_owned_opened h y).mpr (.inr hown))
  have concerns : Concerns slots slots s (s.strike inum 0) 1 :=
    ⟨fun _ _ => rfl, fun _ _ _ _ => rfl, fun x' ne known =>
      disk x' ne x' (self_mem_owned known), rfl, le_rfl⟩
  refine concerns.local (concerns.sound sound sound.in_disk ?_ ?_ ?_ ?_ ?_) disk
  · have placed := sound.placed 1
    rw [Placed, h] at placed ⊢
    refine ⟨placed.1, placed.2.1, placed.2.2.1, placed.2.2.2.1, placed.2.2.2.2.1,
      ?_, placed.2.2.2.2.2.2⟩
    exact (same 1 placed.2.2.2.2.1).trans placed.2.2.2.2.2.1
  · intro y hy
    rw [mem_owned_opened h] at hy ⊢
    exact .inl hy
  · intro y hy
    rw [mem_owned_opened h] at hy
    exact sound.marked ((mem_owned_opened h y).mpr hy)
  · exact fun x' _ y hy => sound.marked hy
  · exact sound.root.of_same rfl rfl

end Sound

end Tacos.Fs
