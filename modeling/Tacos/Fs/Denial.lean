/- GID: Tacos/Fs/Denial
   generality: I
   source: src/fs/disk/inode.rs, src/fs.rs, src/fs/disk.rs
   digest: Threads that deny writing, write and change lengths in turns, and what a denied file
     keeps. -/

import Tacos.Fs.Growth
import Tacos.Fs.Session

set_option autoImplicit false
set_option relaxedAutoImplicit false

namespace Tacos.Fs

open Tacos.Lib.Exec Tacos.Lib.Run FreeMap Inode RootDir
open Store (emptyDisk blank_emptyDisk)

/-! ## Sections under the lock of an inode -/

namespace Inode

/-- The first section of `write_at`. -/
def checkWrite (id : Nat) : M Unit := do
  let denyWrite ← lock (.inode id) do return (← getInode id).desc.denyWrite
  if 0 < denyWrite then Call.throw .invalidFileMode else pure ()

theorem writeAt_eq_sections (id : Nat) (buf : Slice) (off : Nat) :
    writeAt id buf off = (do checkWrite id; writeSection id buf off) := by
  funext s
  rw [writeAt, Call.bind_apply, Call.bind_apply, checkWrite, Call.bind_apply]
  cases lock (.inode id) (do return (← getInode id).desc.denyWrite) s with
  | ok n t =>
    by_cases denied : 0 < n
    · simp only [if_pos denied, Call.throw_apply]
    · simp only [if_neg denied, Call.pure_apply, writeSection]
  | err e t => rfl
  | halt e => rfl

/-- `Vnode::deny_write`. -/
def denyWrite (id : Nat) : M Unit := lock (.inode id) do
  let i ← getInode id
  let count ← addU32 i.desc.denyWrite 1
  setInode id { i with desc := { i.desc with denyWrite := count } }

end Inode

/-- The state in which a descriptor is marked as one that denies writing. -/
def Sys.flagged (s : Sys) (h : Nat) : Sys :=
  { s with
    files := s.files.map fun p => if p.1 = h then (h, { p.2 with denyWrite := true }) else p }

def Sys.denied (s : Sys) (id : Nat) : Sys := { s with
  inodes := Function.update s.inodes id ⟨{ (s.inodes id).desc with
    denyWrite := (s.inodes id).desc.denyWrite + 1 }, (s.inodes id).data⟩ }

namespace DiskFs

/-- `File::deny_write`. -/
def denyWrite (h : Nat) : M Unit := do
  let f ← File.getFile h
  Call.modify fun s => s.flagged h
  Inode.denyWrite f.vnode

/-- The first section of the drop of a `File`. -/
def dropStart (h : Nat) : M Unit := do
  let f ← File.getFile h
  allowWrite f

/-- The rest of the drop of a `File`: its fields are dropped. -/
def dropVnode (h : Nat) : M Unit := do
  let f ← File.getFile h
  Call.modify fun s => { s with files := s.files.filter (·.1 != h) }
  dropArc f.vnode

/-- The part of `create` on an existing path that comes before the lock of the inode. The `Arc` that
it ends with is kept as the descriptor that `create` is going to return. -/
def createLookup (path : Path) : M Nat := do
  let inum ← lock .rootDir (expect (RootDir.path2inum path))
  let vnode ← upgradeOrOpen inum
  newFile vnode

/-- The rest of `create` on an existing path; the `Arc` is dropped when it fails. -/
def createTruncate (h : Nat) : M Unit := do
  let f ← File.getFile h
  match ← Call.attempt (Inode.resize f.vnode 0) with
  | .ok () => pure ()
  | .error e =>
    dropVnode h
    Call.throw e

/-- What the thread that has a descriptor is in the middle of: a write that was found to be allowed,
a drop that has allowed writing, or the creation of a file that exists. -/
inductive Pending where
  | write (buf : Slice) (off : Nat)
  | drop
  | create

/-- The file system and the calls in progress, by descriptor: a `File` is used by one thread at a
time. -/
structure Threads where
  sys : Sys
  calls : Nat → Option Pending

/-- What a thread does before another one has its turn. -/
inductive Turn where
  | denyWrite (h : Nat)
  | checkWrite (h : Nat) (buf : Slice) (off : Nat)
  | write (h : Nat)
  | setLen (h size : Nat)
  | createLookup (path : Path)
  | createTruncate (h : Nat)
  | dropStart (h : Nat)
  | dropVnode (h : Nat)

namespace Threads

/-- A call that is over when the turn is. -/
def whole {α : Type} (st : Threads) (h : Nat) (call : M α) : Option Threads :=
  if (st.calls h).isNone then (onFile st.sys h call).map fun s => { st with sys := s } else none

def starts {α : Type} (st : Threads) (h : Nat) (rest : Pending) (call : M α) : Option Threads :=
  if (st.calls h).isNone ∧ h ≠ 0 ∧ h ∈ st.sys.files.map Prod.fst then
    match call st.sys with
    | .ok _ s => some ⟨s, Function.update st.calls h (some rest)⟩
    | .err _ s => some { st with sys := s }
    | .halt _ => none
  else none

def ends {α : Type} (st : Threads) (h : Nat) (call : M α) : Option Threads :=
  (onFile st.sys h call).map fun s => ⟨s, Function.update st.calls h none⟩

/-- One turn; none if it cannot be taken or the machine stops. -/
def turn (st : Threads) : Turn → Option Threads
  | .denyWrite h => st.whole h (DiskFs.denyWrite h)
  | .checkWrite h buf off => st.starts h (.write buf off) (Inode.checkWrite (st.sys.file h).vnode)
  | .write h =>
    match st.calls h with
    | some (.write buf off) => st.ends h (Inode.writeSection (st.sys.file h).vnode buf off)
    | _ => none
  | .setLen h size => st.whole h (File.setLen h size)
  | .createLookup path =>
    match lock .rootDir (RootDir.contains path) st.sys with
    | .ok true s =>
      match DiskFs.createLookup path s with
      | .ok h t => some ⟨t, Function.update st.calls h (some .create)⟩
      | .err _ t => some { st with sys := t }
      | .halt _ => none
    | _ => none
  | .createTruncate h =>
    match st.calls h with
    | some .create => st.ends h (DiskFs.createTruncate h)
    | _ => none
  | .dropStart h => st.starts h .drop (DiskFs.dropStart h)
  | .dropVnode h =>
    match st.calls h with
    | some .drop => st.ends h (DiskFs.dropVnode h)
    | _ => none

end Threads

end DiskFs

/-! ## What is kept -/

variable {slots : Slots} {s t : Sys} {x id h : Nat}

namespace SameFile

theorem of_same (data : (t.inodes id).data = (s.inodes id).data)
    (disk : t.disk = s.disk) : SameFile s t id := by
  refine ⟨by rw [data], fun k _ => ?_⟩
  rw [Sys.byte, Sys.byte, data, disk]

theorem trans {u : Sys} (first : SameFile s t id) (second : SameFile t u id) : SameFile s u id := by
  refine ⟨second.1.trans first.1, fun k hk => ?_⟩
  rw [second.2 k (first.1 ▸ hk), first.2 k hk]

end SameFile

theorem Local.sameFile {slots' : Slots} {X : Set Nat} (loc : Local slots slots' s t X)
    (hx : slots x = some (.opened id)) (out : x ∉ X) : SameFile s t id := by
  have same := loc.inode x out id hx
  refine ⟨by rw [same], fun k hk => ?_⟩
  rw [Sys.byte, Sys.byte, same]
  refine fileByte_congr (loc.disk x out _ ((mem_owned_opened hx _).mpr (.inr ?_)))
  refine ⟨Nat.le_add_right _ _, Nat.add_lt_add_left ?_ _⟩
  rw [Inode.sectors, Inode.total]
  omega

theorem sameFile_resized {n : Nat} (change : Resized s t id n) :
    SameFile s t id ↔ n = (s.inodes id).data.len := by
  constructor
  · intro same
    exact change.len.symm.trans same.1
  · intro same
    exact ⟨change.len.trans same, fun k hk => change.byte hk⟩

/-- After a change of length and a transfer the file is the same if the length is, and the bytes
that were transferred were there. -/
theorem sameFile_wrote {n off : Nat} {bytes : List UInt8} (change : Resized s t id n) :
    SameFile s (t.wrote (t.inodes id).data.start off bytes) id ↔ n = (s.inodes id).data.len ∧
      ∀ k < bytes.length, off + k < (s.inodes id).data.len →
        bytes.getD k 0 = s.byte id (off + k) := by
  have len : ((t.wrote (t.inodes id).data.start off bytes).inodes id).data.len = n := change.len
  rw [SameFile, len]
  refine and_congr_right fun _ => ?_
  constructor
  · intro same k hk inside
    have here := same (off + k) inside
    rwa [change.byte_wrote inside, if_pos ⟨by omega, by omega⟩, Nat.add_sub_cancel_left] at here
  · intro same k hk
    rw [change.byte_wrote hk]
    by_cases covered : off ≤ k ∧ k < off + bytes.length
    · have here := same (k - off) (by omega) (by omega)
      rw [if_pos covered, here, Nat.add_sub_cancel' covered.1]
    · rw [if_neg covered]

/-- Every inode in memory that is denied writing has the length and the bytes that it had. -/
def Kept (s t : Sys) : Prop :=
  ∀ id, s.referenced id = true → 0 < (s.inodes id).desc.denyWrite → SameFile s t id

/-- The file has the length already, or there is no room for it. -/
def ResizeHarmless (s : Sys) (i : Inode) (n : Nat) : Prop :=
  n = i.data.len ∨ ¬Accommodates s.freeMap i n

/-- There is no room for the length that the write needs, or the file has that length, and each byte
before the first sector that cannot be handed to the device is the one that is there. -/
def WriteHarmless (s : Sys) (i : Inode) (buf : Slice) (off : Nat) : Prop :=
  ¬Accommodates s.freeMap i (writeLen i buf off) ∨ writeLen i buf off = i.data.len ∧
    ∀ k < buf.bytes.length, off + k < i.data.len → (∀ p ≤ k, ¬Blocked i.data.len off buf 0 p) →
      buf.bytes.getD k 0 = fileByte s.disk i.data.start (off + k)

theorem Kept.of_same (data : ∀ id, (t.inodes id).data = (s.inodes id).data)
    (disk : t.disk = s.disk) : Kept s t :=
  fun id _ _ => .of_same (data id) disk

namespace Mounted

/-- An inode that is denied writing has a sector of its own, and is not the root directory's. -/
theorem slot_of_denied (m : Mounted slots s) (live : s.referenced id = true)
    (denied : 0 < (s.inodes id).desc.denyWrite) : ∃ x, slots x = some (.opened id) ∧ x ≠ 1 := by
  obtain ⟨p, hp, rfl⟩ := referenced_iff.mp live
  obtain ⟨x, hx, -⟩ := m.linked.live p hp
  refine ⟨x, hx, ?_⟩
  rintro rfl
  have root := m.sound.root.slot
  rw [hx, Option.some.injEq, Slot.opened.injEq] at root
  have allowed := m.sound.root.allowed
  rw [Sys.inodeOf, ← root] at allowed
  omega

theorem kept_iff (m : Mounted slots s) (hx : slots x = some (.opened id))
    (loc : Local slots slots s t {x}) :
    Kept s t ↔ (0 < (s.inodes id).desc.denyWrite → SameFile s t id) := by
  constructor
  · intro kept
    exact kept id (m.linked.referenced hx)
  · intro same id' live denied
    obtain ⟨x', hx', -⟩ := m.slot_of_denied live denied
    by_cases here : x' = x
    · subst here
      rw [hx, Option.some.injEq, Slot.opened.injEq] at hx'
      exact hx' ▸ same (hx' ▸ denied)
    · exact loc.sameFile hx' here

theorem resize_kept_iff (m : Mounted slots s) (hx : slots x = some (.opened id))
    (ne : x ≠ 1) {size : Nat}
    (stepped : DiskFs.after (Inode.resize id size) s = some t) : Mounted slots t ∧
      (Kept s t ↔ (0 < (s.inodes id).desc.denyWrite →
        ResizeHarmless s (s.inodes id) (size % 2 ^ 32))) := by
  obtain ⟨u, done, change, -, place⟩ | ⟨failed, -, full⟩ | ⟨e, stops, -⟩ :=
    resize_outcomes m.sound hx m.idle size
  · rw [DiskFs.after_ok done, Option.some.injEq] at stepped
    subst stepped
    have small : size % 2 ^ 32 < 2 ^ 32 := Nat.mod_lt _ (by norm_num)
    refine ⟨(m.resized hx ne small change).mounted, ?_⟩
    rw [m.kept_iff hx (m.sound.resized hx ne small change), sameFile_resized change]
    refine imp_congr_right fun _ => ?_
    constructor
    · exact .inl
    · rintro (same | full)
      · exact same
      · exact absurd place full
  · rw [DiskFs.after_err failed, Option.some.injEq] at stepped
    subst stepped
    exact ⟨m, fun _ _ => .inr full, fun _ => .of_same (fun _ => rfl) rfl⟩
  · rw [DiskFs.after_halt stops] at stepped
    cases stepped

theorem writeSection_kept_iff (m : Mounted slots s) (hx : slots x = some (.opened id)) (ne : x ≠ 1)
    {buf : Slice} {off : Nat}
    (stepped : DiskFs.after (Inode.writeSection id buf off) s = some t) : Mounted slots t ∧
      (Kept s t ↔ (0 < (s.inodes id).desc.denyWrite → WriteHarmless s (s.inodes id) buf off)) := by
  have free : ∀ l, l ∉ s.held := by simp [m.idle]
  have settled := m.sound.settled hx
  obtain ⟨failed, grow, full, inside⟩ | ⟨e, stops, -⟩ | ⟨u, change, ends⟩ :=
    writeSection_ends settled (free _) (free _) (free _) buf off
  · rw [DiskFs.after_err failed, Option.some.injEq] at stepped
    subst stepped
    have len : writeLen (s.inodes id) buf off = (off + buf.bytes.length) % 2 ^ 32 := if_pos grow
    rw [← len] at full inside
    refine ⟨m, fun _ _ => .inl ?_, fun _ => .of_same (fun _ => rfl) rfl⟩
    exact fun place => full ((grants_iff _ _ _).mpr ⟨inside, place⟩)
  · rw [DiskFs.after_halt stops] at stepped
    cases stepped
  have small : writeLen (s.inodes id) buf off < 2 ^ 32 := by
    have total := settled.total_lt
    rw [Inode.total] at total
    unfold writeLen
    split <;> omega
  have place := ((grants_iff _ _ _).mp change.granted).2
  have resized := m.resized hx ne small change
  -- The transfer covers the part of the buffer that the file has room for and the device takes.
  obtain ⟨c, wrote, taken⟩ : ∃ c ≤ min ((u.inodes id).data.len - off) buf.bytes.length,
      t = u.wrote (u.inodes id).data.start off (buf.bytes.take c) ∧
        ∀ k < buf.bytes.length, off + k < (u.inodes id).data.len →
          (k < c ↔ ∀ p ≤ k, ¬Blocked (u.inodes id).data.len off buf 0 p) := by
    obtain ⟨done, clear⟩ | ⟨c, bound, failed, blocked, before⟩ := ends
    · rw [DiskFs.after_ok done, Option.some.injEq] at stepped
      refine ⟨_, le_rfl, stepped.symm, fun k hk inside => ?_⟩
      exact ⟨fun _ p _ => clear p, fun _ => by omega⟩
    · rw [DiskFs.after_err failed, Option.some.injEq] at stepped
      rw [Nat.zero_add] at blocked before
      refine ⟨c, bound, stepped.symm, fun k _ _ => ?_⟩
      constructor
      · exact fun hk p hp => before p (by omega)
      · intro clear
        by_contra late
        exact clear c (by omega) blocked
  obtain ⟨rfl, taken⟩ := taken
  have size : (buf.bytes.take c).length = c := by
    rw [List.length_take]
    omega
  have fits : off + (buf.bytes.take c).length ≤ (u.inodes id).total ∨ c = 0 := by
    rw [size, Inode.total]
    omega
  have written : Carried slots slots u (u.wrote (u.inodes id).data.start off (buf.bytes.take c)) ∧
      Local slots slots u (u.wrote (u.inodes id).data.start off (buf.bytes.take c)) {x} := by
    obtain inside | rfl := fits
    · exact ⟨resized.mounted.wrote hx ne inside, resized.mounted.sound.wrote hx inside⟩
    · rw [List.take_zero, Sys.wrote_nil]
      exact ⟨.of_disk resized.mounted rfl rfl rfl, resized.mounted.sound.refl⟩
  have loc := ((m.sound.resized hx ne small change).trans written.2).mono (Set.union_self _).subset
  refine ⟨written.1.mounted, ?_⟩
  rw [m.kept_iff hx loc, sameFile_wrote change, WriteHarmless]
  refine imp_congr_right fun _ => ?_
  have byte : ∀ k < c, (buf.bytes.take c).getD k 0 = buf.bytes.getD k 0 := by
    intro k hk
    rw [List.getD_eq_getElem?_getD, List.getD_eq_getElem?_getD, List.getElem?_take_of_lt hk]
  rw [change.len] at taken
  constructor
  · rintro ⟨len, same⟩
    refine .inr ⟨len, fun k hk inside clear => ?_⟩
    rw [len] at taken
    have early := (taken k hk inside).mpr clear
    rw [← byte k early]
    exact same k (by omega) inside
  · rintro (full | ⟨len, same⟩)
    · exact absurd place full
    refine ⟨len, fun k hk inside => ?_⟩
    rw [len] at taken
    rw [byte k (by omega)]
    have short : k < buf.bytes.length := by
      rw [List.length_take] at hk
      omega
    exact same k short inside ((taken k short inside).mp (by omega))

end Mounted

/-! ## Turns -/

namespace DiskFs

theorem links_flagged (s : Sys) (h : Nat) : (s.flagged h).links = s.links := by
  rw [Sys.links, Sys.links, Sys.flagged, List.map_map]
  apply List.map_congr_left
  rintro ⟨n, f⟩ -
  by_cases here : n = h
  · simp [here]
  · simp [here]

theorem lookup_flagged (s : Sys) (ne : h ≠ 0) :
    (s.flagged h).files.lookup 0 = s.files.lookup 0 := by
  rw [Sys.flagged]
  induction s.files with
  | nil => rfl
  | cons p rest ih =>
    obtain ⟨n, f⟩ := p
    rw [List.map_cons, List.lookup_cons, List.lookup_cons, ih]
    by_cases here : n = h
    · have other : (0 == n) = false := beq_false_of_ne (here ▸ Ne.symm ne)
      have other' : (0 == h) = false := beq_false_of_ne (Ne.symm ne)
      simp [here, other']
    · simp [here]

theorem denyWrite_cases (idle : s.held = []) (id : Nat) :
    Inode.denyWrite id s = .halt .overflow ∨ Inode.denyWrite id s = .ok () (s.denied id) := by
  have free : Lock.inode id ∉ s.held := by simp [idle]
  by_cases room : (s.inodes id).desc.denyWrite + 1 < 2 ^ 32
  · right
    refine lock_ok (t := { s.denied id with held := .inode id :: s.held }) free ?_ rfl
    rw [getInode_bind]
    exact Call.bind_ok (addU32_eq room)
  · left
    refine lock_halt free ?_
    rw [getInode_bind, addU32, if_neg room, Call.halt_bind]

theorem denied_data (s : Sys) (id id' : Nat) :
    ((s.denied id).inodes id').data = (s.inodes id').data := by
  change (Function.update s.inodes id _ id').data = _
  by_cases here : id' = id
  · rw [here, Function.update_self]
  · rw [Function.update_of_ne here]

theorem denied_mounted (m : Mounted slots s) (hx : slots x = some (.opened id)) (ne : x ≠ 1) :
    Mounted slots (s.denied id) :=
  (m.describe (d := { (s.inodes id).desc with denyWrite := (s.inodes id).desc.denyWrite + 1 }) hx ne
    rfl rfl).mounted

theorem denyWrite_kept (m : Mounted slots s) (ne : h ≠ 0)
    (hx : slots x = some (.opened (s.file h).vnode)) (other : x ≠ 1)
    (stepped : after (denyWrite h) s = some t) : Mounted slots t ∧ Kept s t := by
  have first : File.getFile h s = .ok (s.file h) s := rfl
  have flag : (Call.modify fun s => s.flagged h : M Unit) s = .ok () (s.flagged h) := rfl
  have m₁ : Mounted slots (s.flagged h) :=
    (files_carried m (links_flagged s h) (lookup_flagged s ne)).mounted
  rw [denyWrite, after_bind_ok first, after_bind_ok flag] at stepped
  obtain stops | counted := denyWrite_cases m₁.idle (s.file h).vnode
  · rw [after_halt stops] at stepped
    cases stepped
  · rw [after_ok counted, Option.some.injEq] at stepped
    subst stepped
    exact ⟨denied_mounted m₁ hx other, .of_same (denied_data (s.flagged h) _) rfl⟩

theorem checkWrite_cases (idle : s.held = []) (id : Nat) : Inode.checkWrite id s = .ok () s ∨
    Inode.checkWrite id s = .err .invalidFileMode s := by
  have first : lock (.inode id)
    (do return (← getInode id).desc.denyWrite) s = .ok (s.inodes id).desc.denyWrite s :=
    lock_ok (t := { s with held := .inode id :: s.held }) (by simp [idle]) rfl rfl
  rw [Inode.checkWrite, Call.bind_ok first]
  by_cases denied : 0 < (s.inodes id).desc.denyWrite
  · exact .inr (if_pos denied ▸ rfl)
  · exact .inl (if_neg denied ▸ rfl)

theorem dropStart_kept (m : Mounted slots s) (hx : slots x = some (.opened (s.file h).vnode))
    (other : x ≠ 1) :
    (∃ e, dropStart h s = .halt e) ∨ ∃ t, dropStart h s = .ok
    () t ∧ Mounted slots t ∧ Kept s t := by
  have first : File.getFile h s = .ok (s.file h) s := rfl
  rw [dropStart, Call.bind_ok first]
  obtain ⟨stops, -⟩ | allowed := m.allowWrite_cases (s.file h)
  · exact .inl ⟨_, stops⟩
  · refine .inr ⟨_, allowed, (m.allow_carried hx other).mounted, .of_same (fun id => ?_) ?_⟩
    · by_cases here : id = (s.file h).vnode
      · exact here ▸ (Mounted.allow_inode s (s.file h)).1
      · rw [Sys.allow]
        split
        · exact congrArg Inode.data (Function.update_of_ne here _ _)
        · rfl
    · obtain ⟨-, -, -, -, -, disk, -⟩ := Mounted.allow_fields s (s.file h)
      exact disk

theorem closed_sameFile {id' : Nat} (sound : Sound slots s) (closed : Closed s t id)
    (hx : slots x = some (.opened id')) (ne : x ≠ 1) : SameFile s t id' := by
  have frame := closed.frame
  split at frame
  · have struck := (sound.strikes (s.inodes id).desc.sector).sameFile hx ne
    refine struck.trans (.of_same ?_ ?_)
    · rw [frame]
      rfl
    · rw [frame]
      rfl
  · refine .of_same ?_ ?_
    · rw [frame]
    · rw [frame]

theorem dropVnode_kept {f : File} (m : Mounted slots s) (mine : (h, f) ∈ s.files) (ne : h ≠ 0)
    (stepped : after (dropVnode h) s = some t) : (∃ slots', Mounted slots' t) ∧ Kept s t := by
  obtain ⟨x, hx, -⟩ := m.slot_of_mem mine ne
  have unfolded : dropVnode h s = dropArc f.vnode (s.dropped h) := by
    have first : File.getFile h s = .ok f s :=
      congrArg (fun f => Outcome.ok f s) (m.file_of_mem mine)
    rw [dropVnode, Call.bind_ok first]
    rfl
  obtain ⟨e, stops, -⟩ | ⟨-, done, carried⟩ | ⟨last, u, done, closed, carried⟩ :=
    m.dropArc_cases mine ne hx
  · rw [after_halt (unfolded.trans stops)] at stepped
    cases stepped
  · rw [after_ok (unfolded.trans done), Option.some.injEq] at stepped
    subst stepped
    exact ⟨⟨_, carried.mounted⟩, .of_same (fun _ => rfl) rfl⟩
  · rw [after_ok (unfolded.trans done), Option.some.injEq] at stepped
    subst stepped
    refine ⟨⟨_, carried.mounted⟩, fun id live denied => ?_⟩
    obtain ⟨x', hx', other⟩ := m.slot_of_denied live denied
    have sound : Sound slots (s.dropped h) :=
      m.sound.of_files (s.dropped h).files s.nextFile s.inodeTable (Mounted.lookup_dropped s ne)
    have fewer : SameFile s (s.dropped h) id := .of_same rfl rfl
    exact fewer.trans (closed_sameFile sound closed hx' other)

theorem createLookup_found {path : Path} (m : Mounted slots s) (found : find path s.entries = .ok x)
    (hx : slots x = some (.opened id)) : ∃ p, createLookup path s =
      .ok s.nextFile ((s.setPos 0 p).opened id) ∧
      Mounted slots ((s.setPos 0 p).opened id) := by
  obtain ⟨ne, -⟩ := m.slot_of_find found
  obtain ⟨p, looked⟩ := m.expect_path2inum found
  have m₁ := m.setPos p
  refine ⟨p, ?_, (m₁.newFile_carried hx ne).mounted⟩
  rw [createLookup, Call.bind_ok looked, Call.bind_ok (m₁.upgradeOrOpen_opened hx)]
  rfl

theorem createTruncate_eq (m : Mounted slots s) (hx : slots x = some (.opened (s.file h).vnode)) :
    after (createTruncate h) s = after (Inode.resize (s.file h).vnode 0) s := by
  have first : File.getFile h s = .ok (s.file h) s := rfl
  rw [createTruncate, after_bind_ok first]
  -- Cutting a file asks for no sectors.
  obtain ⟨u, done, -⟩ | ⟨-, -, full⟩ | ⟨e, stops, -⟩ := resize_outcomes m.sound hx m.idle 0
  · rw [after_bind_ok (Call.attempt_ok done), after_ok done]
    rfl
  · exact absurd (fun needed => absurd needed (by omega)) full
  · rw [after, Call.bind_halt (Call.attempt_halt stops), after_halt stops]

namespace Threads

variable {st st' : Threads} {a : Turn}

/-- The turn leaves each inode in memory that is denied writing with its length and its bytes. -/
def Protects (st : Threads) (a : Turn) : Prop := ∀ st', st.turn a = some st' → Kept st.sys st'.sys

/-- A file that is created again is open. -/
def Finds (st : Threads) : Turn → Prop
  | .createLookup path => ∀ x, find path st.sys.entries = .ok x → (st.sys.upgrade x).isSome
  | _ => True

/-- While writing is denied, a write that was found to be allowed comes to nothing, and so does a
change of length. -/
def Harmless (st : Threads) : Turn → Prop
  | .write h => ∀ buf off, st.calls h = some (.write buf off) →
    0 < (st.sys.inodeOf h).desc.denyWrite →
      WriteHarmless st.sys (st.sys.inodeOf h) buf off
  | .setLen h size => 0 < (st.sys.inodeOf h).desc.denyWrite →
      ResizeHarmless st.sys (st.sys.inodeOf h) (size % 2 ^ 32)
  | .createTruncate h => 0 < (st.sys.inodeOf h).desc.denyWrite → (st.sys.inodeOf h).data.len = 0
  | _ => True

theorem whole_eq_some {α : Type} {call : M α} (stepped : st.whole h call = some st') :
    onFile st.sys h call = some st'.sys := by
  rw [whole] at stepped
  split at stepped
  · obtain ⟨s, done, rfl⟩ := Option.map_eq_some_iff.mp stepped
    exact done
  · cases stepped

theorem ends_eq_some {α : Type} {call : M α} (stepped : st.ends h call = some st') :
    onFile st.sys h call = some st'.sys := by
  obtain ⟨s, done, rfl⟩ := Option.map_eq_some_iff.mp stepped
  exact done

theorem starts_eq_some {α : Type} {call : M α} {rest : Pending}
    (stepped : st.starts h rest call = some st') :
    onFile st.sys h call = some st'.sys := by
  rw [starts] at stepped
  split at stepped
  · rename_i enabled
    rw [onFile, if_pos enabled.2]
    split at stepped
    · cases stepped
      rename_i done
      exact after_ok done
    · cases stepped
      rename_i failed
      exact after_err failed
    · cases stepped
  · cases stepped

/-- A turn that comes to an end leaves a file system in order, and keeps the inodes that are denied
writing exactly if it is harmless. -/
theorem turn_kept_iff (m : Mounted slots st.sys) (fine : Finds st a)
    (stepped : st.turn a = some st') :
    (∃ slots', Mounted slots' st'.sys) ∧ (Kept st.sys st'.sys ↔ Harmless st a) := by
  cases a with
  | denyWrite h =>
    obtain ⟨ne, ⟨x, hx, other⟩, stepped⟩ := onFile_eq_some m (whole_eq_some stepped)
    obtain ⟨mounted, kept⟩ := denyWrite_kept m ne hx other stepped
    exact ⟨⟨_, mounted⟩, fun _ => trivial, fun _ => kept⟩
  | checkWrite h buf off =>
    obtain ⟨-, -, stepped⟩ := onFile_eq_some m (starts_eq_some stepped)
    have same : st.sys = st'.sys := by
      obtain done | failed := checkWrite_cases m.idle (st.sys.file h).vnode
      · exact Option.some.inj ((after_ok done).symm.trans stepped)
      · exact Option.some.inj ((after_err failed).symm.trans stepped)
    rw [← same]
    exact ⟨⟨_, m⟩, fun _ => trivial, fun _ => .of_same (fun _ => rfl) rfl⟩
  | write h =>
    change (match st.calls h with
      | some (.write buf off) => st.ends h (Inode.writeSection (st.sys.file h).vnode buf off)
      | _ => none) = some st' at stepped
    split at stepped
    · rename_i buf off pending
      obtain ⟨-, ⟨x, hx, other⟩, stepped⟩ := onFile_eq_some m (ends_eq_some stepped)
      obtain ⟨mounted, kept⟩ := m.writeSection_kept_iff hx other stepped
      refine ⟨⟨_, mounted⟩, kept.trans ⟨fun harmless buf' off' pending' => ?_,
        fun harmless => harmless _ _ pending⟩⟩
      rw [pending, Option.some.injEq, Pending.write.injEq] at pending'
      obtain ⟨rfl, rfl⟩ := pending'
      exact harmless
    · cases stepped
  | setLen h size =>
    obtain ⟨-, ⟨x, hx, other⟩, stepped⟩ := onFile_eq_some m (whole_eq_some stepped)
    have first : File.getFile h st.sys = .ok (st.sys.file h) st.sys := rfl
    rw [File.setLen, after_bind_ok first] at stepped
    obtain ⟨mounted, kept⟩ := m.resize_kept_iff hx other stepped
    exact ⟨⟨_, mounted⟩, kept⟩
  | createLookup path =>
    obtain ⟨p, looked⟩ := m.contains path
    rw [turn, looked] at stepped
    cases found : find path st.sys.entries with
    | error e =>
      rw [found] at stepped
      cases stepped
    | ok x =>
      obtain ⟨id, up⟩ := Option.isSome_iff_exists.mp (fine x found)
      have m₁ := m.setPos p
      obtain ⟨q, done, mounted⟩ := createLookup_found m₁ (by rw [m.entries_setPos]; exact found)
        ((m.linked.upgrade x id).mp up)
      rw [found] at stepped
      simp only [Except.isOk, Except.toBool, done] at stepped
      cases stepped
      exact ⟨⟨_, mounted⟩, fun _ => trivial, fun _ => .of_same (fun _ => rfl) rfl⟩
  | createTruncate h =>
    change (match st.calls h with
      | some .create => st.ends h (DiskFs.createTruncate h)
      | _ => none) = some st' at stepped
    split at stepped
    · obtain ⟨-, ⟨x, hx, other⟩, stepped⟩ := onFile_eq_some m (ends_eq_some stepped)
      rw [createTruncate_eq m hx] at stepped
      obtain ⟨mounted, kept⟩ := m.resize_kept_iff hx other stepped
      refine ⟨⟨_, mounted⟩, kept.trans (imp_congr_right fun _ => ?_)⟩
      constructor
      · rintro (empty | full)
        · exact empty.symm
        · exact absurd (fun needed => absurd needed (by omega)) full
      · exact fun empty => .inl empty.symm
    · cases stepped
  | dropStart h =>
    obtain ⟨-, ⟨x, hx, other⟩, stepped⟩ := onFile_eq_some m (starts_eq_some stepped)
    obtain ⟨e, stops⟩ | ⟨t, done, mounted, kept⟩ := dropStart_kept m hx other
    · rw [after_halt stops] at stepped
      cases stepped
    · rw [after_ok done, Option.some.injEq] at stepped
      exact stepped ▸ ⟨⟨_, mounted⟩, fun _ => trivial, fun _ => kept⟩
  | dropVnode h =>
    change (match st.calls h with
      | some .drop => st.ends h (DiskFs.dropVnode h)
      | _ => none) = some st' at stepped
    split at stepped
    · have enabled := ends_eq_some stepped
      obtain ⟨ne, -, stepped⟩ := onFile_eq_some m enabled
      obtain ⟨f, mine⟩ : ∃ f, (h, f) ∈ st.sys.files := by
        rw [onFile] at enabled
        split at enabled
        · rename_i known
          obtain ⟨⟨h', f⟩, mine, same⟩ := List.mem_map.mp known.2
          obtain rfl : h' = h := same
          exact ⟨f, mine⟩
        · cases enabled
      obtain ⟨mounted, kept⟩ := dropVnode_kept m mine ne stepped
      exact ⟨mounted, fun _ => trivial, fun _ => kept⟩
    · cases stepped

/-- In a run of turns of any number of threads, with calls in any stage, every turn keeps the length
and the bytes of the inodes that are denied writing exactly if every turn is harmless. -/
theorem denied_files_kept_iff {as : List Turn} (m : Mounted slots st.sys)
    (meets : Guarded turn Finds st as)
    (ran : run turn st as = some st') : Guarded turn Protects st as ↔
      Guarded turn Harmless st as := by
  refine guarded_congr (I := fun st => ∃ slots, Mounted slots st.sys) ?_ ⟨slots, m⟩ meets ran
  rintro st a st' ⟨slots, m⟩ fine stepped
  obtain ⟨mounted, kept⟩ := turn_kept_iff m fine stepped
  refine ⟨mounted, Iff.trans ⟨fun protects => protects st' stepped, fun kept st'' again => ?_⟩ kept⟩
  obtain rfl := Option.some.inj (stepped.symm.trans again)
  exact kept

/-! ## Two handles of one file -/

/-- The turn is harmless for a reason that can be computed. -/
def Calm (st : Threads) : Turn → Prop
  | .write h => (st.sys.inodeOf h).desc.denyWrite = 0
  | .setLen h size => (st.sys.inodeOf h).desc.denyWrite = 0 ∨
    size % 2 ^ 32 = (st.sys.inodeOf h).data.len
  | .createTruncate h => (st.sys.inodeOf h).desc.denyWrite = 0 ∨ (st.sys.inodeOf h).data.len = 0
  | _ => True

theorem Calm.harmless (calm : Calm st a) : Harmless st a := by
  cases a with
  | write h =>
    have allowed : (st.sys.inodeOf h).desc.denyWrite = 0 := calm
    intro buf off _ denied
    omega
  | setLen h size =>
    intro denied
    obtain allowed | same := calm
    · omega
    · exact .inl same
  | createTruncate h =>
    intro denied
    obtain allowed | empty := calm
    · omega
    · exact empty
  | denyWrite h => trivial
  | checkWrite h buf off => trivial
  | createLookup path => trivial
  | dropStart h => trivial
  | dropVnode h => trivial

instance (st : Threads) (a : Turn) : Decidable (Calm st a) :=
  match a with
  | .write _ => inferInstanceAs (Decidable (_ = _))
  | .setLen _ _ => inferInstanceAs (Decidable (_ ∨ _))
  | .createTruncate _ => inferInstanceAs (Decidable (_ ∨ _))
  | .denyWrite _ => .isTrue trivial
  | .checkWrite _ _ _ => .isTrue trivial
  | .createLookup _ => .isTrue trivial
  | .dropStart _ => .isTrue trivial
  | .dropVnode _ => .isTrue trivial

instance (st : Threads) (a : Turn) : Decidable (Finds st a) :=
  match a with
  | .createLookup path => inferInstanceAs (Decidable (Reopens st.sys (.create path)))
  | .denyWrite _ => .isTrue trivial
  | .checkWrite _ _ _ => .isTrue trivial
  | .write _ => .isTrue trivial
  | .setLen _ _ => .isTrue trivial
  | .createTruncate _ => .isTrue trivial
  | .dropStart _ => .isTrue trivial
  | .dropVnode _ => .isTrue trivial

def quiet (s : Sys) : Threads := ⟨s, fun _ => none⟩

/-- A write, a denial under which nothing happens to the file, its end, and a change of length. -/
def heeds : List Turn :=
  [.checkWrite 2 (File.vec [7]) 0, .write 2, .denyWrite 1, .checkWrite 2 (File.vec [8]) 0,
    .setLen 2 1, .dropStart 1,
    .dropVnode 1, .setLen 2 0]

def twice : List Request := [.create [97], .openFile [97]]

/-- Whether the state in which a new file has two handles has the property. -/
def shared (p : Sys → Bool) : Bool :=
  match mount 64 emptyDisk with
  | .ok () s => decide (Guarded request Reopens s twice) && (run request s twice).any p
  | _ => false

theorem of_shared {p : Sys → Bool} (computed : shared p = true) :
    ∃ s t slots, mount 64 emptyDisk = .ok () s ∧
    run request s twice = some t ∧ Mounted slots t ∧ p t = true := by
  rw [shared] at computed
  split at computed
  · rename_i s mounted
    rw [Bool.and_eq_true, decide_eq_true_iff] at computed
    obtain ⟨t, ran, here⟩ := (Option.any_eq_true _ _).mp computed.2
    obtain ⟨slots, m⟩ := run_mounted (mount_mounted blank_emptyDisk mounted) computed.1 ran
    exact ⟨s, t, slots, mounted, ran, m, here⟩
  · cases computed

theorem running_file_kept : ∃ s t st, mount 64 emptyDisk = .ok () s ∧ run request s twice = some t ∧
    run turn (quiet t) heeds = some st ∧ Guarded turn Protects (quiet t) heeds := by
  have computed : shared (fun t => (run turn (quiet t) heeds).isSome &&
      decide (Guarded turn Finds (quiet t) heeds) && decide
        (Guarded turn Calm (quiet t) heeds)) = true := by
    decide +kernel
  obtain ⟨s, t, slots, mounted, ran, m, facts⟩ := of_shared computed
  rw [Bool.and_eq_true, Bool.and_eq_true, decide_eq_true_iff, decide_eq_true_iff,
    Option.isSome_iff_exists] at facts
  obtain ⟨⟨⟨st, taken⟩, finds⟩, calm⟩ := facts
  refine ⟨s, t, st, mounted, ran, taken, (denied_files_kept_iff m finds taken).mpr ?_⟩
  exact calm.imp fun _ _ => Calm.harmless

/-- A file that is denied writing is cut, it is created again, and a write that was allowed goes
on. -/
def cuts : List (List Turn) :=
  [[.denyWrite 1, .setLen 2 5],
    [.setLen 2 5, .denyWrite 1, .createLookup [97], .createTruncate 3],
    [.checkWrite 2 (File.vec [7]) 0, .denyWrite 1, .write 2]]

/-- Whether some turn of a run changes the length of an inode that is denied writing. -/
def lengthens : Threads → List Turn → Bool
  | _, [] => false
  | st, a :: as =>
    match st.turn a with
    | some st' => lengthens st' as || st.sys.files.any fun p =>
        decide (0 < (st.sys.inodes p.2.vnode).desc.denyWrite ∧
          (st'.sys.inodes p.2.vnode).data.len ≠ (st.sys.inodes p.2.vnode).data.len)
    | none => false

theorem not_protects {as : List Turn} (found : lengthens st as = true) :
    ¬Guarded turn Protects st as := by
  induction as generalizing st with
  | nil => cases found
  | cons a as ih =>
    rintro ⟨protects, rest⟩
    rw [lengthens] at found
    split at found
    · rename_i st' taken
      obtain later | now := (Bool.or_eq_true _ _).mp found
      · exact ih later (rest st' taken)
      · obtain ⟨p, hp, facts⟩ := List.any_eq_true.mp now
        obtain ⟨denied, changed⟩ := of_decide_eq_true facts
        have live : st.sys.referenced p.2.vnode = true :=
          List.any_eq_true.mpr ⟨p, hp, beq_self_eq_true _⟩
        exact changed (protects st' taken p.2.vnode live denied).1
    · cases found

theorem running_file_changed : ∃ s t, mount 64 emptyDisk = .ok () s ∧ run request s twice = some t ∧
    ∀ as ∈ cuts, (run turn (quiet t) as).isSome ∧ Guarded turn Finds (quiet t) as ∧
      ¬Guarded turn Protects (quiet t) as := by
  have computed : shared (fun t => cuts.all fun as => (run turn (quiet t) as).isSome &&
      decide (Guarded turn Finds (quiet t) as) && lengthens
        (quiet t) as) = true := by decide +kernel
  obtain ⟨s, t, -, mounted, ran, -, facts⟩ := of_shared computed
  refine ⟨s, t, mounted, ran, fun as mem => ?_⟩
  have fact := List.all_eq_true.mp facts as mem
  rw [Bool.and_eq_true, Bool.and_eq_true, decide_eq_true_iff] at fact
  exact ⟨fact.1.1, fact.1.2, not_protects fact.2⟩

end Threads

end DiskFs

end Tacos.Fs
