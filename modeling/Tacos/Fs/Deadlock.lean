/- GID: Tacos/Fs/Deadlock
   generality: I
   source: src/fs/disk.rs, src/fs/disk/inode.rs, src/fs/disk/dir.rs, src/fs/disk/free_map.rs,
     src/fs.rs
   digest: Which locks each operation takes, and the one call that waits for its own thread. -/

import Tacos.Fs.Handles

set_option autoImplicit false
set_option relaxedAutoImplicit false

namespace Tacos.Fs

open Tacos.Lib.Exec Tacos.Lib.Run FreeMap Inode RootDir
open Store (emptyDisk blank_emptyDisk)

variable {α β : Type} {S : Lock → Prop} {F : List (Nat × Nat)}

/-! ## Calls on the free map -/

/-- A call on the free map, which has no locks of its own. -/
def Quiet (y : FreeMap.Op α) : Prop := ∀ m l, y m ≠ .halt (.deadlock l)

namespace Quiet

theorem pure (a : α) : Quiet (pure a : FreeMap.Op α) := by
  intro m l h
  cases h

theorem throw (e : OsError) : Quiet (Call.throw e : FreeMap.Op α) := by
  intro m l h
  cases h

theorem bind {y : FreeMap.Op α} {f : α → FreeMap.Op β} (first : Quiet y)
    (second : ∀ a, Quiet (f a)) :
    Quiet (y >>= f) := by
  intro m l h
  rw [Call.bind_apply] at h
  cases hy : y m with
  | ok a n =>
    rw [hy] at h
    exact second a n l h
  | err e n =>
    rw [hy] at h
    cases h
  | halt e =>
    rw [hy, Outcome.halt.injEq] at h
    rw [h] at hy
    exact first m l hy

theorem ite {c : Prop} [Decidable c] {y z : FreeMap.Op α} (yes : Quiet y) (no : Quiet z) :
    Quiet (if c then y else z) := by
  split
  · exact yes
  · exact no

theorem addU32 (a b : Nat) : Quiet (Fs.addU32 a b) := by
  refine ite (pure _) ?_
  intro m l h
  cases h

theorem get (sector : Nat) : Quiet (FreeMap.get sector) := by
  intro m l h
  rw [FreeMap.get] at h
  split at h <;> cases h

theorem set (sector : Nat) : Quiet (FreeMap.set sector) := by
  intro m l h
  rw [FreeMap.set] at h
  split at h <;> cases h

theorem reset (sector : Nat) : Quiet (FreeMap.reset sector) := by
  intro m l h
  rw [FreeMap.reset] at h
  split at h <;> cases h

theorem isFree (i cnt : Nat) : Quiet (FreeMap.isFree i cnt) := by
  induction cnt generalizing i with
  | zero => exact pure _
  | succ cnt ih => exact bind (get i) fun _ => ite (pure _) (ih _)

theorem setAll (i cnt : Nat) : Quiet (FreeMap.setAll i cnt) := by
  induction cnt generalizing i with
  | zero => exact pure _
  | succ cnt ih => exact bind (set i) fun _ => ih _

theorem allocFrom (cnt left i : Nat) : Quiet (FreeMap.allocFrom cnt left i) := by
  induction left generalizing i with
  | zero => exact throw _
  | succ left ih =>
    refine bind (isFree i cnt) fun _ => ite ?_ (ih _)
    exact bind (setAll i cnt) fun _ => pure _

theorem alloc (cnt : Nat) : Quiet (FreeMap.alloc cnt) := by
  refine ite (pure _) (bind ?_ fun m => ite (throw _) (allocFrom _ _ _))
  intro m l h
  cases h

theorem inPlaceAlloc (start cnt : Nat) : Quiet (FreeMap.inPlaceAlloc start cnt) := by
  refine ite (pure _) (bind (addU32 _ _) fun _ => bind (isFree _ _)
    fun _ => ite (setAll _ _) (throw _))

theorem resetWhile (i cnt : Nat) : Quiet (FreeMap.resetWhile i cnt) := by
  induction cnt generalizing i with
  | zero => exact pure _
  | succ cnt ih =>
    refine bind (get i) fun _ => ite ?_ (pure _)
    exact bind (reset i) fun _ => ih _

theorem dealloc (sector cnt : Nat) : Quiet (FreeMap.dealloc sector cnt) :=
  bind (addU32 _ _) fun _ => resetWhile _ _

end Quiet

/-! ## Calls under locks -/

/-- The locks that a call may still take are free, and the descriptors are these. -/
structure Free (S : Lock → Prop) (F : List (Nat × Nat)) (s : Sys) : Prop where
  free : ∀ l, S l → l ∉ s.held
  links : s.links = F

/-- With the locks of `S` free, the call does not wait for its own thread, and it keeps the
descriptors. -/
structure Calm (S : Lock → Prop) (F : List (Nat × Nat)) (x : M α) (Q : α → Prop) : Prop where
  unblocked : Unblocked Halt.deadlock (Free S F) x Q

def vnodeOf (F : List (Nat × Nat)) (h : Nat) : Nat := (F.lookup h).getD 0

theorem vnodeOf_links (s : Sys) (h : Nat) : vnodeOf s.links h = (s.file h).vnode := by
  rw [vnodeOf, Sys.file, Sys.links]
  induction s.files with
  | nil => rfl
  | cons p fs ih =>
    rw [List.map_cons, List.lookup_cons, List.lookup_cons]
    cases h == p.1 with
    | true => rfl
    | false => exact ih

namespace Calm

variable {x : M α} {Q : α → Prop} {l : Lock}

theorem lock (free : S l) (body : Calm (fun k => S k ∧ k ≠ l) F x Q) :
    Calm S F (Fs.lock l x) Q := by
  refine ⟨Unblocked.withLock ?_ ?_ ?_ body.unblocked⟩
  · intro s hs
    exact hs.free l free
  · intro s hs
    refine ⟨?_, hs.links⟩
    intro k hk held
    cases List.mem_cons.mp held with
    | inl same => exact hk.2 same
    | inr other => exact hs.free k hk.1 other
  · intro s t hs ht _
    exact ⟨hs.free, ht.links⟩

theorem mono {S' : Lock → Prop} (fewer : ∀ l, S' l → S l)
    (calm : Calm S' F x Q) : Calm S F x Q := by
  constructor
  intro s hs
  have out := calm.unblocked s ⟨fun l hl => hs.free l (fewer l hl), hs.links⟩
  have again : ∀ t : Sys, t.held = s.held → ∀ l, S l → l ∉ t.held := by
    intro t same l hl
    rw [same]
    exact hs.free l hl
  cases hx : x s with
  | ok a t =>
    rw [hx] at out
    exact ⟨out.1, ⟨again t out.2.2, out.2.1.links⟩, out.2.2⟩
  | err e t =>
    rw [hx] at out
    exact ⟨⟨again t out.2, out.1.links⟩, out.2⟩
  | halt e =>
    rw [hx] at out
    exact out

theorem bind {f : α → M β} {R : β → Prop} (first : Calm S F x Q)
    (second : ∀ a, Q a → Calm S F (f a) R) :
    Calm S F (x >>= f) R := ⟨Unblocked.bind first.unblocked fun a ha => (second a ha).unblocked⟩

theorem pure {a : α} (h : Q a) : Calm S F (pure a : M α) Q := ⟨Unblocked.pure h⟩

theorem throw (e : OsError) : Calm S F (Call.throw e : M α) Q := ⟨Unblocked.throw e⟩

theorem halt {e : Halt} (other : ∀ l, e ≠ .deadlock l) :
    Calm S F (Call.halt e : M α) Q := ⟨Unblocked.halt other⟩

theorem ite {c : Prop} [Decidable c] {y : M α} (yes : c → Calm S F x Q) (no : ¬c → Calm S F y Q) :
    Calm S F (if c then x else y) Q :=
  ⟨Unblocked.ite (fun h => (yes h).unblocked) fun h => (no h).unblocked⟩

theorem attempt (calm : Calm S F x Q) : Calm S F (Call.attempt x) fun r => ∀ a, r = .ok a → Q a :=
  ⟨Unblocked.attempt calm.unblocked⟩

theorem modify {g : Sys → Sys} (links : ∀ s, (g s).links = s.links)
    (held : ∀ s, (g s).held = s.held) :
    Calm S F (Call.modify g : M Unit) fun _ => True := by
  refine ⟨Unblocked.modify ?_ held⟩
  intro s hs
  refine ⟨?_, (links s).trans hs.links⟩
  rw [held]
  exact hs.free

theorem addU32 (a b : Nat) : Calm S F (Fs.addU32 a b : M Nat) fun _ => True :=
  ite (fun _ => pure trivial) fun _ => halt fun _ h => nomatch h

theorem onFreeMap {y : FreeMap.Op α} (quiet : Quiet y) : Calm S F (Fs.onFreeMap y) fun _ => True :=
  ⟨Unblocked.zoom quiet (fun _ _ hs => ⟨hs.free, hs.links⟩) fun _ _ => rfl⟩

theorem readSector (sector : Nat) (virtio : S .virtio) :
    Calm S F (Virtio.readSector sector) fun _ => True := by
  refine lock virtio ?_
  constructor
  intro s hs
  exact ⟨trivial, hs, rfl⟩

theorem writeSector (sector : Nat) (buf : Sector) (virtio : S .virtio) :
    Calm S F (Virtio.writeSector sector buf) fun _ => True :=
  lock virtio (modify (fun _ => rfl) fun _ => rfl)

theorem getInode (id : Nat) : Calm S F (Fs.getInode id) fun _ => True := by
  constructor
  intro s hs
  exact ⟨trivial, hs, rfl⟩

theorem setInode (id : Nat) (i : Inode) : Calm S F (Fs.setInode id i) fun _ => True :=
  modify (fun _ => rfl) fun _ => rfl

theorem newInode (i : Inode) : Calm S F (Fs.newInode i) fun _ => True := by
  constructor
  intro s hs
  exact ⟨trivial, ⟨hs.free, hs.links⟩, rfl⟩

/-! ## Inodes -/

theorem zeroFrom (start cnt i : Nat) (virtio : S .virtio) :
    Calm S F (Inode.zeroFrom start cnt i) fun _ => True := by
  induction cnt generalizing i with
  | zero => exact pure trivial
  | succ cnt ih =>
    refine bind (addU32 _ _) fun _ _ => ?_
    exact bind (writeSector _ _ virtio) fun _ _ => ih _

theorem create (sector start len : Nat) (virtio : S .virtio) :
    Calm S F (Inode.create sector start len) fun _ => True := by
  refine bind (writeSector _ _ virtio) fun _ _ => ?_
  exact bind (zeroFrom _ _ _ virtio) fun _ _ => newInode _

theorem openAt (sector : Nat) (virtio : S .virtio) :
    Calm S F (Inode.openAt sector) fun _ => True := by
  refine bind (readSector _ virtio) fun _ _ => ?_
  exact ite (fun _ => throw _) fun _ => newInode _

theorem flushLen (id newlen : Nat) (virtio : S .virtio) :
    Calm S F (Inode.flushLen id newlen) fun _ => True := by
  refine bind (getInode _) fun _ _ => ?_
  exact bind (setInode _ _) fun _ _ => writeSector _ _ virtio

theorem copyFrom (oldStart newStart cnt i : Nat) (virtio : S .virtio) :
    Calm S F (Inode.copyFrom oldStart newStart cnt i) fun _ => True := by
  induction cnt generalizing i with
  | zero => exact pure trivial
  | succ cnt ih =>
    refine bind (addU32 _ _) fun _ _ => ?_
    refine bind (readSector _ virtio) fun _ _ => ?_
    refine bind (addU32 _ _) fun _ _ => ?_
    exact bind (writeSector _ _ virtio) fun _ _ => ih _

theorem relocate (id newlen oldlen : Nat) (virtio : S .virtio) :
    Calm S F (Inode.relocate id newlen oldlen) fun _ => True := by
  refine bind (getInode _) fun _ _ => ?_
  refine bind (onFreeMap (Quiet.alloc _)) fun _ _ => ?_
  refine bind (copyFrom _ _ _ _ virtio) fun _ _ => ?_
  refine bind (onFreeMap (Quiet.dealloc _ _)) fun _ _ => ?_
  exact bind (setInode _ _) fun _ _ => flushLen _ _ virtio

theorem extend (id newlen oldlen : Nat) (virtio : S .virtio) :
    Calm S F (Inode.extend id newlen oldlen) fun _ => True := by
  refine bind (getInode _) fun _ _ => ?_
  refine bind (addU32 _ _) fun _ _ => ?_
  refine bind (attempt (onFreeMap (Quiet.inPlaceAlloc _ _))) fun _ _ => ?_
  refine ite (fun _ => ?_) fun _ => relocate _ _ _ virtio
  exact bind (setInode _ _) fun _ _ => flushLen _ _ virtio

theorem resizeLocked (id newlen : Nat) (virtio : S .virtio) :
    Calm S F (Inode.resizeLocked id newlen) fun _ => True := by
  refine bind (getInode _) fun _ _ => ?_
  refine ite (fun _ => pure trivial) fun _ => ite (fun _ => ?_) fun _ => ?_
  · refine bind (addU32 _ _) fun _ _ => ?_
    exact bind (setInode _ _) fun _ _ => flushLen _ _ virtio
  · refine bind (addU32 _ _) fun _ _ => ?_
    refine ite (fun _ => ?_) fun _ => extend _ _ _ virtio
    exact bind (setInode _ _) fun _ _ => flushLen _ _ virtio

theorem resizeInner (id size : Nat) (freeMap : S .freeMap) (virtio : S .virtio) :
    Calm S F (Inode.resizeInner id size) fun _ => True :=
  lock freeMap (resizeLocked _ _ ⟨virtio, by decide⟩)

theorem len (id : Nat) (inode : S (.inode id)) : Calm S F (Inode.len id) fun _ => True :=
  lock inode (bind (getInode _) fun _ _ => pure trivial)

theorem readLoop (start len : Nat) (buf : Slice) (fuel bytesRead off : Nat) (virtio : S .virtio) :
    Calm S F (Inode.readLoop start len buf fuel bytesRead off) fun _ => True := by
  induction fuel generalizing bytesRead off with
  | zero => exact halt fun _ h => nomatch h
  | succ fuel ih =>
    refine ite (fun _ => pure trivial) fun _ => ite (fun _ => ?_) fun _ => ?_
    · refine ite (fun _ => ?_) fun _ => throw _
      refine bind (readSector _ virtio) fun _ _ => ?_
      exact bind (ih _ _) fun _ _ => pure trivial
    · refine bind (readSector _ virtio) fun _ _ => ?_
      exact bind (ih _ _) fun _ _ => pure trivial

theorem readAt (id : Nat) (buf : Slice) (off : Nat) (inode : S (.inode id)) (virtio : S .virtio) :
    Calm S F (Inode.readAt id buf off) fun _ => True :=
  lock inode (bind (getInode _) fun _ _ => readLoop _ _ _ _ _ _ ⟨virtio, by simp⟩)

theorem writeLoop (start len : Nat) (buf : Slice) (fuel bytesWritten off : Nat)
    (virtio : S .virtio) :
    Calm S F (Inode.writeLoop start len buf fuel bytesWritten off) fun _ => True := by
  induction fuel generalizing bytesWritten off with
  | zero => exact halt fun _ h => nomatch h
  | succ fuel ih =>
    refine ite (fun _ => pure trivial) fun _ => ite (fun _ => ?_) fun _ => ?_
    · refine ite (fun _ => ?_) fun _ => throw _
      exact bind (writeSector _ _ virtio) fun _ _ => ih _ _
    · refine bind (readSector _ virtio) fun _ _ => ?_
      exact bind (writeSector _ _ virtio) fun _ _ => ih _ _

theorem ensureLen (id stop : Nat) (freeMap : S .freeMap) (virtio : S .virtio) :
    Calm S F (Inode.ensureLen id stop) fun _ => True := by
  refine bind (getInode _) fun _ _ => ?_
  exact ite (fun _ => resizeInner _ _ freeMap virtio) fun _ => pure trivial

theorem writeAt (id : Nat) (buf : Slice) (off : Nat) (inode : S (.inode id)) (freeMap : S .freeMap)
    (virtio : S .virtio) : Calm S F (Inode.writeAt id buf off) fun _ => True := by
  refine bind (lock inode (Q := fun _ => True) ?_) fun _ _ => ?_
  · exact bind (getInode _) fun _ _ => pure trivial
  · refine ite (fun _ => throw _) fun _ => lock inode ?_
    refine ite (fun _ => halt fun _ h => nomatch h) fun _ => ?_
    refine bind (ensureLen _ _ ⟨freeMap, by simp⟩ ⟨virtio, by simp⟩) fun _ _ => ?_
    exact bind (getInode _) fun _ _ => writeLoop _ _ _ _ _ _ ⟨virtio, by simp⟩

theorem resize (id newlen : Nat) (inode : S (.inode id))
    (freeMap : S .freeMap) (virtio : S .virtio) :
    Calm S F (Inode.resize id newlen) fun _ => True :=
  lock inode (resizeInner _ _ ⟨freeMap, by simp⟩ ⟨virtio, by simp⟩)

theorem markRemoved (id : Nat) (inode : S (.inode id)) : Calm S F (Inode.remove id) fun _ => True :=
  lock inode (bind (getInode _) fun _ _ => setInode _ _)

/-! ## File descriptors -/

/-- The locks that a transfer through the inode `id` takes. -/
def Usable (S : Lock → Prop) (id : Nat) : Prop := S (.inode id) ∧ S .freeMap ∧ S .virtio

variable {h : Nat}

theorem getFile (h : Nat) : Calm S F (File.getFile h) fun f => f.vnode = vnodeOf F h := by
  constructor
  intro s hs
  refine ⟨?_, hs, rfl⟩
  rw [← hs.links, vnodeOf_links]

theorem onVnode {y : Nat → M α} (calm : Calm S F (y (vnodeOf F h)) Q) :
    Calm S F (fun s => y (s.file h).vnode s) Q := by
  constructor
  intro s hs
  have same : vnodeOf F h = (s.file h).vnode := by
    rw [← hs.links, vnodeOf_links]
  rw [same] at calm
  exact calm.unblocked s hs

theorem getPos (h : Nat) : Calm S F (File.descriptor h).getPos fun _ => True := by
  constructor
  intro s hs
  exact ⟨trivial, hs, rfl⟩

theorem moved (h p : Nat) : Calm S F (Call.modify ((File.descriptor h).setPos p)) fun _ => True :=
  modify (fun s => links_setPos s h p) fun _ => rfl

theorem read (buf : Slice) (usable : Usable S (vnodeOf F h)) :
    Calm S F (File.read h buf) fun _ => True := by
  refine bind (getPos h) fun off _ => ?_
  refine bind (onVnode (y := fun id => Inode.readAt id buf off)
    (readAt _ buf off usable.1 usable.2.2)) fun _ _ => ?_
  exact bind (moved _ _) fun _ _ => pure trivial

theorem write (buf : Slice) (usable : Usable S (vnodeOf F h)) :
    Calm S F (File.write h buf) fun _ => True := by
  refine bind (getPos h) fun off _ => ?_
  refine bind (onVnode (y := fun id => Inode.writeAt id buf off)
    (writeAt _ buf off usable.1 usable.2.1 usable.2.2)) fun _ _ => ?_
  exact bind (moved _ _) fun _ _ => pure trivial

theorem seek (pos : SeekFrom) (usable : Usable S (vnodeOf F h)) :
    Calm S F (File.seek h pos) fun _ => True := by
  refine bind (onVnode (y := Inode.len) (len _ usable.1)) fun n _ => ?_
  refine bind (getPos h) fun cur _ => ?_
  cases pos.newPos n cur with
  | some newPos => exact bind (moved _ _) fun _ _ => pure trivial
  | none => exact halt fun _ h => nomatch h

theorem rewind (usable : Usable S (vnodeOf F h)) : Calm S F (File.rewind h) fun _ => True :=
  bind (seek _ usable) fun _ _ => pure trivial

theorem readExactLoop (fuel : Nat) (buf : Slice) (usable : Usable S (vnodeOf F h)) :
    Calm S F ((File.descriptor h).readExactLoop fuel buf) fun _ => True := by
  induction fuel generalizing buf with
  | zero => exact halt fun _ h => nomatch h
  | succ fuel ih =>
    refine ite (fun _ => pure trivial) fun _ => ?_
    refine bind (read _ usable) fun _ _ => ?_
    refine ite (fun _ => throw _) fun _ => ?_
    exact bind (ih _) fun _ _ => pure trivial

theorem writeAllLoop (fuel : Nat) (buf : Slice) (usable : Usable S (vnodeOf F h)) :
    Calm S F ((File.descriptor h).writeAllLoop fuel buf) fun _ => True := by
  induction fuel generalizing buf with
  | zero => exact halt fun _ h => nomatch h
  | succ fuel ih =>
    refine ite (fun _ => pure trivial) fun _ => ?_
    refine bind (write _ usable) fun _ _ => ?_
    exact ite (fun _ => throw _) fun _ => ih _

/-! ## The root directory -/

theorem readEntry (usable : Usable S (vnodeOf F 0)) : Calm S F readEntry fun _ => True :=
  bind (readExactLoop _ _ usable) fun _ _ => pure trivial

theorem rounds : Calm S F rounds fun _ => True := by
  constructor
  intro s hs
  exact ⟨trivial, hs, rfl⟩

theorem path2inumLoop (path : Path) (fuel : Nat) (usable : Usable S (vnodeOf F 0)) :
    Calm S F (path2inumLoop path fuel) fun _ => True := by
  induction fuel with
  | zero => exact halt fun _ h => nomatch h
  | succ fuel ih =>
    refine bind (attempt (readEntry usable)) fun r _ => ?_
    cases r with
    | error e => exact throw _
    | ok entry =>
      refine ite (fun _ => ite (fun _ => ?_) fun _ => throw _) fun _ => ih
      exact ite (fun _ => pure trivial) fun _ => ih

theorem path2inum (path : Path) (usable : Usable S (vnodeOf F 0)) :
    Calm S F (RootDir.path2inum path) fun _ => True := by
  refine bind (rewind usable) fun _ _ => ?_
  exact bind rounds fun _ _ => path2inumLoop _ _ usable

theorem contains (path : Path) (usable : Usable S (vnodeOf F 0)) :
    Calm S F (RootDir.contains path) fun _ => True :=
  bind (attempt (path2inum path usable)) fun _ _ => pure trivial

theorem firstInvalidLoop (fuel : Nat) (usable : Usable S (vnodeOf F 0)) :
    Calm S F (firstInvalidLoop fuel) fun _ => True := by
  induction fuel with
  | zero => exact halt fun _ h => nomatch h
  | succ fuel ih =>
    refine bind (attempt (readEntry usable)) fun r _ => ?_
    cases r with
    | error e => exact throw _
    | ok entry => exact ite (fun _ => ih) fun _ => seek _ usable

theorem insert (path : Path) (inum : Nat) (usable : Usable S (vnodeOf F 0)) :
    Calm S F (RootDir.insert path inum) fun _ => True := by
  refine ite (fun _ => ?_) fun _ => throw _
  refine bind (Q := fun _ => True) ?_ fun _ _ => ?_
  · refine bind (rewind usable) fun _ _ => ?_
    exact bind rounds fun _ _ => firstInvalidLoop _ usable
  · refine bind (Q := fun _ => True) ?_ fun _ _ => ?_
    · exact ite (fun _ => pure trivial) fun _ => halt fun _ h => nomatch h
    · exact bind (seek _ usable) fun _ _ => writeAllLoop _ _ usable

theorem removeLoop (inum fuel : Nat) (usable : Usable S (vnodeOf F 0)) :
    Calm S F (removeLoop inum fuel) fun _ => True := by
  induction fuel with
  | zero => exact halt fun _ h => nomatch h
  | succ fuel ih =>
    refine bind (attempt (readEntry usable)) fun r _ => ?_
    cases r with
    | error e => exact pure trivial
    | ok entry =>
      refine ite (fun _ => ?_) fun _ => ih
      refine bind (seek _ usable) fun _ _ => ?_
      exact bind (writeAllLoop _ _ usable) fun _ _ => ih

/-- `RootDir::remove`. -/
theorem struck (inum : Nat) (usable : Usable S (vnodeOf F 0)) :
    Calm S F (RootDir.remove inum) fun _ => True := by
  refine bind (rewind usable) fun _ _ => ?_
  exact bind rounds fun _ _ => removeLoop _ _ usable

theorem expect (calm : Calm S F x Q) : Calm S F (Fs.expect x) Q := by
  refine bind (attempt calm) fun r hr => ?_
  cases r with
  | ok a => exact pure (hr a rfl)
  | error e => exact halt fun _ h => nomatch h

/-! ## Closing an inode -/

theorem trim (i : Inode) (freeMap : S .freeMap) : Calm S F (Inode.trim i) fun _ => True := by
  rw [Inode.trim]
  refine ite (fun _ => ?_) fun _ => pure trivial
  refine bind (addU32 _ _) fun _ _ => bind (addU32 _ _) fun _ _ => ?_
  exact lock freeMap (onFreeMap (Quiet.dealloc _ _))

/-- An inode other than the root directory's is closed with the locks of the directory and of the
free map. -/
theorem close {id : Nat} (other : id ≠ vnodeOf F 0) (inode : S (.inode id)) (rootDir : S .rootDir)
    (usable : Usable S (vnodeOf F 0)) : Calm S F (Inode.close id) fun _ => True := by
  refine lock inode (bind (getInode _) fun i _ => ?_)
  refine bind (trim i ⟨usable.2.1, by simp⟩) fun _ _ => ?_
  refine ite (fun _ => lock ⟨rootDir, by simp⟩ ?_) fun _ => pure trivial
  have inner : Usable (fun k => (S k ∧ k ≠ .inode id) ∧ k ≠ .rootDir) (vnodeOf F 0) :=
    ⟨⟨⟨usable.1, by simpa using other.symm⟩, by simp⟩, ⟨⟨usable.2.1, by simp⟩, by simp⟩,
      ⟨⟨usable.2.2, by simp⟩, by simp⟩⟩
  refine bind (expect (struck _ inner)) fun _ _ => ?_
  refine lock inner.2.1 (bind (onFreeMap (Quiet.dealloc _ _)) fun _ _ => ?_)
  exact onFreeMap (Quiet.dealloc _ _)

theorem dropArc {id : Nat} (root : (F.lookup 0).isSome)
    (inode : S (.inode id)) (rootDir : S .rootDir)
    (usable : Usable S (vnodeOf F 0)) : Calm S F (Fs.dropArc id) fun _ => True := by
  constructor
  intro s hs
  rw [Fs.dropArc, Call.get_bind]
  by_cases live : s.referenced id = true
  · rw [if_pos live]
    exact ⟨trivial, hs, rfl⟩
  · rw [if_neg live]
    refine (close ?_ inode rootDir usable).unblocked s hs
    rintro rfl
    refine live ?_
    obtain ⟨r, hr⟩ := Option.isSome_iff_exists.mp root
    rw [referenced_iff, hs.links, vnodeOf, hr]
    obtain ⟨before, after, split, -⟩ := List.lookup_eq_some_iff.mp hr
    refine ⟨(0, r), ?_, rfl⟩
    rw [split]
    simp

theorem withArc {id : Nat} (root : (F.lookup 0).isSome)
    (inode : S (.inode id)) (rootDir : S .rootDir)
    (usable : Usable S (vnodeOf F 0)) (calm : Calm S F x Q) : Calm S F (Fs.withArc id x) Q := by
  refine bind (attempt calm) fun r hr => ?_
  cases r with
  | ok a => exact pure (hr a rfl)
  | error e => exact bind (dropArc root inode rootDir usable) fun _ _ => throw _

/-! ## The calls on the file system -/

theorem keepArc {id : Nat} (live : ∃ p ∈ F, p.2 = id) : Calm S F (Fs.dropArc id) fun _ => True := by
  constructor
  intro s hs
  have referenced : s.referenced id = true := by
    rw [referenced_iff, hs.links]
    exact live
  rw [Fs.dropArc, Call.get_bind, if_pos referenced]
  exact ⟨trivial, hs, rfl⟩

theorem upgrade (inum : Nat) : Calm S F (Fs.upgrade inum) fun o => ∀ id, o = some id →
    ∃ p ∈ F, p.2 = id := by
  constructor
  intro s hs
  refine ⟨?_, hs, rfl⟩
  intro id up
  rw [← hs.links]
  exact (upgrade_iff.mp up).2

theorem register (inum vnode : Nat) (table : S .inodeTable) :
    Calm S F (Fs.register inum vnode) fun _ => True :=
  lock table (modify (fun _ => rfl) fun _ => rfl)

theorem upgradeOrOpen (inum : Nat) (table : S .inodeTable) (virtio : S .virtio) :
    Calm S F (DiskFs.upgradeOrOpen inum) fun _ => True := by
  refine lock table (bind (upgrade inum) fun o _ => ?_)
  cases o with
  | some arc => exact pure trivial
  | none => exact openAt _ ⟨virtio, by simp⟩

theorem removeOpen (inum : Nat) (table : S .inodeTable) (inodes : ∀ id, S (.inode id)) :
    Calm S F (DiskFs.removeOpen inum) fun _ => True := by
  refine lock table (bind (upgrade inum) fun o live => ?_)
  cases o with
  | some arc =>
    refine bind (markRemoved arc ⟨inodes arc, by simp⟩) fun _ _ => ?_
    exact bind (keepArc (live arc rfl)) fun _ _ => pure trivial
  | none => exact pure trivial

def All (_ : Lock) : Prop := True

theorem all (id : Nat) : Usable All id := ⟨trivial, trivial, trivial⟩

theorem under (l : Lock) (other : ∀ id, l ≠ .inode id) (freeMap : l ≠ .freeMap)
    (virtio : l ≠ .virtio) (id : Nat) :
    Usable (fun k => All k ∧ k ≠ l) id :=
  ⟨⟨trivial, (other id).symm⟩, ⟨trivial, freeMap.symm⟩, ⟨trivial, virtio.symm⟩⟩

theorem underRoot (id : Nat) : Usable (fun k => All k ∧ k ≠ .rootDir) id :=
  under .rootDir (fun _ h => nomatch h) (by decide) (by decide) id

theorem createInode (path : Path) (root : (F.lookup 0).isSome) :
    Calm All F (DiskFs.createInode path) fun _ => True := by
  refine bind (lock trivial (contains path (underRoot _)))
    fun found _ => ite (fun _ => ?_) fun _ => ?_
  · refine bind (lock trivial (expect (path2inum path (underRoot _)))) fun _ _ => ?_
    refine bind (upgradeOrOpen _ trivial trivial) fun _ _ => ?_
    refine bind (withArc root trivial trivial (all _) (resize _ _ trivial trivial trivial))
      fun _ _ => ?_
    exact pure trivial
  · refine bind (lock trivial (onFreeMap (Quiet.alloc _))) fun _ _ => ?_
    refine bind (lock trivial (onFreeMap (Quiet.alloc _))) fun _ _ => ?_
    refine bind (create _ _ _ trivial) fun _ _ => ?_
    refine bind (register _ _ trivial) fun _ _ => ?_
    refine bind (withArc root trivial trivial (all _) (lock trivial (insert _ _ (underRoot _))))
      fun _ _ => ?_
    exact pure trivial

theorem allowWrite (f : File) (inode : S (.inode f.vnode)) :
    Calm S F (DiskFs.allowWrite f) fun _ => True := by
  refine ite (fun _ => lock inode (bind (getInode _) fun _ _ => ?_)) fun _ => pure trivial
  exact ite (fun _ => halt fun _ h => nomatch h) fun _ => setInode _ _

end Calm

/-! ## Waiting for oneself -/

def Waits (x : M α) (s : Sys) : Prop := ∃ l, x s = .halt (.deadlock l)

variable {x : M α} {Q : α → Prop} {s t : Sys}

theorem Calm.not_waits (calm : Calm S F x Q) (free : Free S F s) : ¬Waits x s := by
  rintro ⟨l, waits⟩
  have out := calm.unblocked s free
  rw [waits] at out
  exact out l rfl

theorem not_waits_bind {f : α → M β} (calm : Calm S F x Q) (free : Free S F s)
    (rest : ∀ a t, Q a → Free S F t → ¬Waits (f a) t) : ¬Waits (x >>= f) s := by
  rintro ⟨l, waits⟩
  have out := calm.unblocked s free
  rw [Call.bind_apply] at waits
  cases hx : x s with
  | ok a t =>
    rw [hx] at waits out
    exact rest a t out.1 out.2.1 ⟨l, waits⟩
  | err e t =>
    rw [hx] at waits
    cases waits
  | halt e =>
    rw [hx] at waits out
    exact out l (Outcome.halt.inj waits)

theorem not_waits_newFile (vnode : Nat) : ¬Waits (newFile vnode) s := by
  rintro ⟨l, waits⟩
  cases waits

/-- What holds of the file system between any two calls: no lock is held, the root directory is
open, not protected and not longer than a `u32` says, and an `Arc` in use has an address that was
given out. -/
structure Booted (s : Sys) : Prop where
  idle : s.held = []
  root : (s.files.lookup 0).isSome
  small : (s.inodeOf 0).data.len < 2 ^ 32
  allowed : (s.inodeOf 0).desc.denyWrite = 0
  fresh : ∀ p ∈ s.links, p.2 < s.nextInode

theorem Mounted.booted {slots : Slots} (m : Mounted slots s) : Booted s := by
  exact ⟨m.idle, m.sound.root.known, m.sound.root.len, m.sound.root.allowed, m.inside⟩

namespace Booted

variable {path : Path} {x id h : Nat}

theorem free (b : Booted s) : Free Calm.All s.links s := by
  refine ⟨?_, rfl⟩
  intro l _ held
  rw [b.idle] at held
  cases held

theorem rooted (b : Booted s) : (s.links.lookup 0).isSome := by
  obtain ⟨f, hf⟩ := Option.isSome_iff_exists.mp b.root
  obtain ⟨before, after, split, other⟩ := List.lookup_eq_some_iff.mp hf
  rw [Sys.links, split]
  refine Option.isSome_iff_exists.mpr ⟨f.vnode, List.lookup_eq_some_iff.mpr
    ⟨before.map fun p => (p.1, p.2.vnode),
    after.map fun p => (p.1, p.2.vnode), by simp, ?_⟩⟩
  intro q hq
  obtain ⟨p, hp, rfl⟩ := List.mem_map.mp hq
  exact other p hp

theorem ready (b : Booted s) : FileReady { s with held := .rootDir :: s.held } 0 :=
  ⟨b.root, by simp [b.idle], by simp [b.idle]⟩

theorem setPos (b : Booted s) (p : Nat) : Booted (s.setPos 0 p) := by
  have file : (s.setPos 0 p).file 0 = { s.file 0 with pos := p } := file_setPos p b.root
  have inode : (s.setPos 0 p).inodeOf 0 = s.inodeOf 0 := by
    rw [Sys.inodeOf, file]
    rfl
  refine ⟨b.idle, ?_, inode ▸ b.small, inode ▸ b.allowed, ?_⟩
  · rw [lookup_setPos, if_pos rfl, Option.isSome_map]
    exact b.root
  · rw [links_setPos]
    exact b.fresh

/-! The removal, up to the question whether the inode is in memory. -/

theorem remove_found (b : Booted s) (found : find path s.entries = .ok x) :
    ∃ p q, DiskFs.remove path s = lock .rootDir (do
        RootDir.remove x
        if ← DiskFs.removeOpen x then pure ()
        else
          let inode ← Inode.openAt x
          Inode.remove inode
          dropArc inode) (s.setPos 0 p) ∧
      RootDir.remove x { s.setPos 0 p with held := .rootDir :: s.held } =
        .ok () { (s.strike x 0).setPos 0 q with held := .rootDir :: s.held } := by
  obtain ⟨p, got⟩ := path2inum_eq path b.ready
  have looked : lock .rootDir (RootDir.path2inum path) s = .ok x (s.setPos 0 p) := by
    refine lock_ok (t := { s.setPos 0 p with held := .rootDir :: s.held }) (by simp [b.idle]) ?_ rfl
    rw [got]
    change Outcome.ofExcept (find path s.entries) _ = _
    rw [found]
    rfl
  have b₁ := b.setPos p
  obtain ⟨q, struck⟩ := RootDir.remove_ok x b₁.ready b₁.small b₁.allowed
  refine ⟨p, q, Call.bind_ok looked, ?_⟩
  have ready : FileReady s 0 := ⟨b.root, by simp [b.idle], by simp [b.idle]⟩
  rw [← ready.strike_setPos x 0 p q]
  exact struck

theorem remove_missing (b : Booted s) {e : OsError} (missing : find path s.entries = .error e) :
    ¬Waits (DiskFs.remove path) s := by
  obtain ⟨p, got⟩ := path2inum_eq path b.ready
  have looked : lock .rootDir (RootDir.path2inum path) s = .err e (s.setPos 0 p) := by
    refine lock_err (t := { s.setPos 0 p with held := .rootDir :: s.held })
      (by simp [b.idle]) ?_ rfl
    rw [got]
    change Outcome.ofExcept (find path s.entries) _ = _
    rw [missing]
    rfl
  rintro ⟨l, waits⟩
  rw [DiskFs.remove, Call.bind_err looked] at waits
  cases waits

theorem removeOpen_true {v : Sys} {b : Bool} (table : .inodeTable ∉ s.held)
    (up : s.upgrade x = some id)
    (done : DiskFs.removeOpen x s = .ok b v) : b = true := by
  obtain ⟨m, inner, -⟩ := (withLock_eq_ok table).mp done
  have first : Fs.upgrade x { s with held := .inodeTable :: s.held } =
      .ok (some id) { s with held := .inodeTable :: s.held } :=
      congrArg (fun o => Outcome.ok o _) up
  change (Fs.upgrade x >>= _) { s with held := .inodeTable :: s.held } = _ at inner
  rw [Call.bind_ok first] at inner
  obtain ⟨_, _, -, inner⟩ := Call.bind_eq_ok.mp inner
  obtain ⟨_, _, -, inner⟩ := Call.bind_eq_ok.mp inner
  exact (Outcome.ok.inj inner).1.symm

theorem removeOpen_none (table : .inodeTable ∉ s.held) (up : s.upgrade x = none) :
    DiskFs.removeOpen x s = .ok false s := by
  refine lock_ok (t := { s with held := .inodeTable :: s.held }) table ?_ rfl
  have first : Fs.upgrade x { s with held := .inodeTable :: s.held } =
      .ok none { s with held := .inodeTable :: s.held } := congrArg (fun o => Outcome.ok o _) up
  rw [Call.bind_ok first]
  rfl

theorem upgrade_struck (s : Sys) (x q : Nat) :
    ({ (s.strike x 0).setPos 0 q with held := .rootDir :: s.held } : Sys).upgrade x =
      s.upgrade x := by
  have links : ({ (s.strike x 0).setPos 0 q with held := .rootDir :: s.held } :
    Sys).links = s.links :=
    links_setPos _ 0 q
  ext id
  rw [upgrade_iff, upgrade_iff, links]
  rfl

theorem not_waits_lock {l : Lock} {call : M α} (free : l ∉ s.held)
    (calm : ¬Waits call { s with held := l :: s.held }) : ¬Waits (lock l call) s := by
  rintro ⟨k, waits⟩
  cases inner : call { s with held := l :: s.held } with
  | ok a t =>
    rw [lock, withLock_ok free inner] at waits
    cases waits
  | err e t =>
    rw [lock, withLock_err free inner] at waits
    cases waits
  | halt e =>
    rw [lock, withLock_halt free inner] at waits
    exact calm ⟨k, inner.trans waits⟩

/-- The file to be removed is in the directory and not in memory, and what is on the disk in its
place, with its entries struck out, is an inode. -/
def ClosedFile (s : Sys) (path : Path) : Prop :=
  ∃ x, find path s.entries = .ok x ∧ s.upgrade x = none ∧
    (DiskInode.ofSector ((s.strike x 0).disk x)).magic = inodeMagic

theorem remove_waits_iff (b : Booted s) (path : Path) :
    Waits (DiskFs.remove path) s ↔ ClosedFile s path := by
  cases found : find path s.entries with
  | error e =>
    refine ⟨fun waits => absurd waits (b.remove_missing found), ?_⟩
    rintro ⟨x, named, -⟩
    rw [found] at named
    cases named
  | ok x =>
    obtain ⟨p, q, unfolded, struck⟩ := b.remove_found found
    have free : Free (fun k => k ≠ .rootDir) s.links
        { (s.strike x 0).setPos 0 q with held := .rootDir :: s.held } := by
      refine ⟨?_, links_setPos _ 0 q⟩
      intro k hk held
      rw [b.idle, List.mem_singleton] at held
      exact hk held
    have table : Lock.inodeTable ∉
      ({ (s.strike x 0).setPos 0 q with held := .rootDir :: s.held } : Sys).held :=
      free.free _ (by decide)
    cases up : s.upgrade x with
    | some id =>
      constructor
      · intro waits
        rw [Waits, unfolded] at waits
        refine absurd waits (not_waits_lock (by simp [b.idle]) ?_)
        rintro ⟨l, waits⟩
        change (RootDir.remove x >>= _) { s.setPos 0 p with held := .rootDir :: s.held } =
          _ at waits
        rw [Call.bind_ok struck, Call.bind_apply] at waits
        have calm := (Calm.removeOpen x (S := fun k => k ≠ .rootDir) (F := s.links) (by decide)
          fun _ => by simp).unblocked _ free
        cases marked : DiskFs.removeOpen x
          { (s.strike x 0).setPos 0 q with held := .rootDir :: s.held } with
        | ok c v =>
          rw [marked, removeOpen_true table ((upgrade_struck s x q).trans up) marked] at waits
          cases waits
        | err e v =>
          rw [marked] at waits
          cases waits
        | halt e =>
          rw [marked] at waits calm
          exact calm l (Outcome.halt.inj waits)
      · rintro ⟨y, named, missing, -⟩
        rw [found] at named
        cases named
        rw [up] at missing
        cases missing
    | none =>
      have entered : (do
          RootDir.remove x
          if ← DiskFs.removeOpen x then pure ()
          else
            let inode ← Inode.openAt x
            Inode.remove inode
            dropArc inode : M Unit) { s.setPos 0 p with held := .rootDir :: s.held } = (do
          let inode ← Inode.openAt x
          Inode.remove inode
          dropArc inode : M Unit)
          { (s.strike x 0).setPos 0 q with held := .rootDir :: s.held } := by
        rw [Call.bind_ok struck, Call.bind_ok
          (removeOpen_none table ((upgrade_struck s x q).trans up))]
        rfl
      by_cases magic : (DiskInode.ofSector ((s.strike x 0).disk x)).magic = inodeMagic
      · refine ⟨fun _ => ⟨x, found, up, magic⟩, fun _ => ⟨.rootDir, ?_⟩⟩
        have fresh : ((s.strike x 0).setPos 0 q).referenced s.nextInode = false := by
          rw [Bool.eq_false_iff, ne_eq, referenced_iff, links_setPos]
          rintro ⟨p, hp, same⟩
          exact absurd (b.fresh p hp) (by rw [same]; exact Nat.lt_irrefl _)
        rw [unfolded]
        refine lock_halt (by simp [b.idle]) ?_
        refine entered.trans ?_
        exact openRemove_deadlock
          (s := { (s.strike x 0).setPos 0 q with held := .rootDir :: s.held })
          (free.free _ (by decide)) (free.free _ (by simp)) List.mem_cons_self magic fresh
      · constructor
        · intro waits
          rw [Waits, unfolded] at waits
          refine absurd waits (not_waits_lock (by simp [b.idle]) ?_)
          rintro ⟨l, waits⟩
          have read := (Inode.openAt_eq x (free.free _ (by decide : Lock.virtio ≠ .rootDir))).trans
            (if_neg magic)
          have ended := entered.symm.trans waits
          rw [Call.bind_err read] at ended
          cases ended
        · rintro ⟨y, named, -, holds⟩
          rw [found] at named
          cases named
          exact absurd holds magic

end Booted

namespace DiskFs

/-- The call of a request waits for a lock that its own thread holds. -/
def RequestWaits (s : Sys) : Request → Prop
  | .create path => Waits (create path) s
  | .openFile path => Waits (openFile path) s
  | .remove path => Waits (remove path) s
  | .drop h => (h ≠ 0 ∧ h ∈ s.files.map Prod.fst) ∧ Waits (dropFile h) s

def RemovesClosed (s : Sys) : Request → Prop
  | .remove path => Booted.ClosedFile s path
  | _ => False

variable {h : Nat}

theorem create_not_waits (b : Booted s) (path : Path) : ¬Waits (create path) s :=
  not_waits_bind (Calm.createInode path b.rooted) b.free fun _ _ _ _ => not_waits_newFile _

theorem openFile_not_waits (b : Booted s) (path : Path) : ¬Waits (openFile path) s := by
  refine not_waits_bind (Calm.lock trivial (Calm.contains path (Calm.underRoot _))) b.free ?_
  intro found t _ free
  cases found with
  | false =>
    rintro ⟨l, waits⟩
    cases waits
  | true =>
    refine not_waits_bind (Calm.lock trivial
      (Calm.expect (Calm.path2inum path (Calm.underRoot _)))) free ?_
    intro inum t _ free
    refine not_waits_bind (Calm.lock trivial (Calm.upgrade inum)) free ?_
    intro o t _ free
    cases o with
    | some arc => exact not_waits_newFile arc
    | none =>
      refine not_waits_bind (Calm.openAt inum trivial) free ?_
      intro vnode t _ free
      refine not_waits_bind (Calm.register inum vnode trivial) free ?_
      intro _ t _ _
      exact not_waits_newFile vnode

theorem dropFile_not_waits (b : Booted s) (ne : h ≠ 0) : ¬Waits (dropFile h) s := by
  refine not_waits_bind (Calm.getFile h) b.free ?_
  intro f t _ free
  refine not_waits_bind (Calm.allowWrite f trivial) free ?_
  intro _ u _ free
  have links : ({ u with files := u.files.filter (·.1 != h) } : Sys).links =
    s.links.filter (·.1 != h) := by
    rw [← free.links, Sys.links, Sys.links, List.filter_map]
    rfl
  have rooted : ((s.links.filter (·.1 != h)).lookup 0).isSome := by
    obtain ⟨r, hr⟩ := Option.isSome_iff_exists.mp b.rooted
    obtain ⟨before, after, split, other⟩ := List.lookup_eq_some_iff.mp hr
    refine Option.isSome_iff_exists.mpr ⟨r, List.lookup_eq_some_iff.mpr ⟨before.filter (·.1 != h),
      after.filter (·.1 != h), ?_, ?_⟩⟩
    · rw [split, List.filter_append, List.filter_cons, if_pos (by simpa using ne.symm)]
    · intro q hq
      exact other q (List.mem_filter.mp hq).1
  exact (Calm.dropArc rooted trivial trivial (Calm.all _)).not_waits
    (s := { u with files := u.files.filter (·.1 != h) }) ⟨free.free, links⟩

theorem requestWaits_iff (b : Booted s) (r : Request) : RequestWaits s r ↔ RemovesClosed s r := by
  cases r with
  | create path => exact ⟨fun waits => create_not_waits b path waits, False.elim⟩
  | openFile path => exact ⟨fun waits => openFile_not_waits b path waits, False.elim⟩
  | remove path => exact b.remove_waits_iff path
  | drop h => exact ⟨fun waits => dropFile_not_waits b waits.1.1 waits.2, False.elim⟩

/-- A call never waits for its own thread, unless it removes a file that is not open. -/
theorem no_self_deadlock_iff (b : Booted s) (r : Request) :
    ¬RequestWaits s r ↔ ¬RemovesClosed s r :=
  not_congr (requestWaits_iff b r)

theorem removing_a_closed_file_waits : ∃ s t, mount 64 emptyDisk = .ok () s ∧
    run request s [.create [97], .drop 1] = some t ∧ t.held = [] ∧
      remove [97] t = .halt (.deadlock .rootDir) := by
  have computed : ends [.create [97], .drop 1] (fun t => decide (t.held = []) &&
      match remove [97] t with
      | .halt h => decide (h = .deadlock .rootDir)
      | _ => false) = true := by decide +kernel
  obtain ⟨s, t, mounted, ran, both⟩ := of_ends computed
  rw [Bool.and_eq_true, decide_eq_true_iff] at both
  refine ⟨s, t, mounted, ran, both.1, ?_⟩
  have stops := both.2
  split at stops
  · rename_i h done
    rw [done, of_decide_eq_true stops]
  · cases stops

theorem open_file_removed : ∃ s t, mount 64 emptyDisk = .ok () s ∧
    run request s [.create [97]] = some t ∧ Booted t ∧
      (¬RequestWaits t (.remove [97]) ↔ ¬RemovesClosed t (.remove [97])) := by
  have computed : ends [.create [97]] (fun _ => true) = true := by decide +kernel
  obtain ⟨s, t, mounted, ran, -⟩ := of_ends computed
  obtain ⟨u, stepped, rest⟩ := run_cons.mp ran
  cases Option.some.inj rest
  have m := mount_mounted blank_emptyDisk mounted
  have fine : Reopens s (.create [97]) := by
    intro x found
    obtain ⟨e, he, names, -⟩ := find_ok found
    obtain ⟨a, b, n, _, frame⟩ := mount_blank blank_emptyDisk mounted
    rw [frame] at he
    rw [DirEntry.names, entries_formatted e he] at names
    cases names
  obtain ⟨slots, made⟩ := request_mounted m fine stepped
  exact ⟨s, t, mounted, ran, made.booted, no_self_deadlock_iff made.booted _⟩

end DiskFs

end Tacos.Fs
