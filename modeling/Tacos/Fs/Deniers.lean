/- GID: Tacos/Fs/Deniers
   generality: I
   source: src/fs.rs, src/fs/disk/inode.rs
   digest: The handles of one inode, how many of them deny writing, and the counter of the inode. -/

import Tacos.Fs.Denial

set_option autoImplicit false
set_option relaxedAutoImplicit false

namespace Tacos.Fs

open Tacos.Lib.Exec Tacos.Lib.Run FreeMap Inode
open Store (emptyDisk blank_emptyDisk)

namespace DiskFs

/-- `File::clone`, which is derived: every field is copied. -/
def cloneFile (h : Nat) : M Nat := fun s =>
  .ok s.nextFile { s with files := (s.nextFile, s.file h) :: s.files, nextFile := s.nextFile + 1 }

/-- What is done with the handles of one inode. -/
inductive HandleOp where
  | new
  | clone (h : Nat)
  | denyWrite (h : Nat)
  | drop (h : Nat)

/-- The handle is on the inode, and it is not the root directory's. -/
def On (s : Sys) (id h : Nat) : Prop := h ≠ 0 ∧ (s.files.lookup h).map File.vnode = some id

instance (s : Sys) (id h : Nat) : Decidable (On s id h) := inferInstanceAs (Decidable (_ ∧ _))

/-- One operation on the handles of an inode; a new one needs an `Arc`, which some handle has. -/
def handle (id : Nat) (s : Sys) : HandleOp → Option Sys
  | .new => if s.referenced id then after (newFile id) s else none
  | .clone h => if On s id h then after (cloneFile h) s else none
  | .denyWrite h => if On s id h then after (denyWrite h) s else none
  | .drop h => if On s id h then after (dropFile h) s else none

/-- A handle of the inode whose flag is set. -/
def denies (id : Nat) (p : Nat × File) : Bool := p.2.vnode == id && p.2.denyWrite

def deniers (s : Sys) (id : Nat) : Nat := s.files.countP (denies id)

/-- The counter counts the deniers; so it can be taken down when one of them is dropped, and without
any of them a write is not refused. -/
structure Counted (id : Nat) (s : Sys) : Prop where
  count : (s.inodes id).desc.denyWrite = deniers s id
  noUnderflow : ∀ p ∈ s.files, denies id p = true → 0 < (s.inodes id).desc.denyWrite
  writable : (∀ p ∈ s.files, denies id p = false) → ∀ buf off,
    Inode.writeAt id buf off s = Inode.writeSection id buf off s

/-- The operation does not copy the flag of a denier, and does not deny writing twice by one
handle. -/
def Single (s : Sys) : HandleOp → Prop
  | .clone h => (s.file h).denyWrite = false
  | .denyWrite h => (s.file h).denyWrite = false
  | _ => True

variable {slots : Slots} {s t : Sys} {x id h : Nat} {f : File}

theorem counted_of_count (idle : s.held = [])
    (count : (s.inodes id).desc.denyWrite = deniers s id) : Counted id s := by
  refine ⟨count, ?_, ?_⟩
  · intro p hp denying
    rw [count]
    exact List.countP_pos_iff.mpr ⟨p, hp, denying⟩
  · intro none buf off
    have zero : deniers s id = 0 := by
      rw [deniers, List.countP_eq_zero]
      intro p hp
      rw [none p hp]
      exact Bool.false_ne_true
    have check : Inode.checkWrite id s = .ok () s := by
      have first : lock (.inode id)
        (do return (← getInode id).desc.denyWrite) s = .ok (s.inodes id).desc.denyWrite s :=
        lock_ok (t := { s with held := .inode id :: s.held }) (by simp [idle]) rfl rfl
      rw [Inode.checkWrite, Call.bind_ok first, if_neg (by omega), Call.pure_apply]
    rw [Inode.writeAt_eq_sections, Call.bind_ok check]

/-- The descriptors are numbered apart: those before and after the one with this number have
others. -/
theorem split_files (m : Mounted slots s) (mine : (h, f) ∈ s.files) : ∃ before after,
    s.files = before ++ (h, f) :: after ∧ (∀ p ∈ before, p.1 ≠ h) ∧ ∀ p ∈ after, p.1 ≠ h := by
  have nodup := m.linked.nodup
  rw [Sys.links, List.map_map] at nodup
  obtain ⟨before, after, split⟩ := List.append_of_mem mine
  refine ⟨before, after, split, ?_, ?_⟩
  · rintro ⟨n, g⟩ hp rfl
    rw [split, List.map_append, List.map_cons, List.nodup_append] at nodup
    exact nodup.2.2 n (List.mem_map.mpr ⟨(n, g), hp, rfl⟩) n List.mem_cons_self rfl
  · rintro ⟨n, g⟩ hp rfl
    rw [split, List.map_append, List.map_cons, List.nodup_append] at nodup
    exact (List.nodup_cons.mp nodup.2.1).1 (List.mem_map.mpr ⟨(n, g), hp, rfl⟩)

theorem deniers_flagged (m : Mounted slots s) (mine : (h, f) ∈ s.files) (on : f.vnode = id) :
    deniers (s.flagged h) id = deniers s id + if f.denyWrite then 0 else 1 := by
  obtain ⟨before, after, split, low, high⟩ := split_files m mine
  have same : ∀ l : List (Nat × File), (∀ p ∈ l, p.1 ≠ h) →
      l.map (fun p => if p.1 = h then (h, { p.2 with denyWrite := true }) else p) = l := by
    intro l other
    refine (List.map_congr_left fun p hp => if_neg (other p hp)).trans (List.map_id l)
  rw [deniers, deniers, Sys.flagged, split, List.map_append, List.map_cons,
    same before low, same after high,
    List.countP_append, List.countP_append, List.countP_cons, List.countP_cons]
  simp only [denies, if_true, on, beq_self_eq_true, Bool.true_and]
  cases f.denyWrite with
  | true => simp
  | false =>
    simp
    omega

theorem deniers_dropped (m : Mounted slots s) (mine : (h, f) ∈ s.files) (on : f.vnode = id) :
    deniers (s.dropped h) id + (if f.denyWrite then 1 else 0) = deniers s id := by
  obtain ⟨before, after, split, low, high⟩ := split_files m mine
  have same : ∀ l : List (Nat × File), (∀ p ∈ l, p.1 ≠ h) → l.filter (·.1 != h) = l := by
    intro l other
    exact List.filter_eq_self.mpr fun p hp => bne_iff_ne.mpr (other p hp)
  have out : ((h, f) :: after).filter (·.1 != h) = after := by
    rw [List.filter_cons, if_neg (by simp), same after high]
  rw [deniers, deniers, Sys.dropped, split, List.filter_append, same before low,
    out, List.countP_append,
    List.countP_append, List.countP_cons, Nat.add_assoc]
  simp only [denies, on, beq_self_eq_true, Bool.true_and]

theorem deniers_setPos (s : Sys) (p : Nat) : deniers (s.setPos h p) id = deniers s id := by
  rw [deniers, Sys.setPos, List.countP_map, deniers]
  congr 1
  funext q
  rw [Function.comp_apply]
  split <;> rfl

theorem closed_counts (closed : Closed s t id) : t.inodes = s.inodes ∧
    deniers t id = deniers s id := by
  have frame := closed.frame
  split at frame
  · rw [frame]
    exact ⟨rfl, deniers_setPos (s.strike (s.inodes id).desc.sector 0) _⟩
  · rw [frame]
    exact ⟨rfl, rfl⟩

theorem mem_of_on (on : On s id h) : ∃ f, (h, f) ∈ s.files ∧ f.vnode = id := by
  obtain ⟨f, found, vnode⟩ := Option.map_eq_some_iff.mp on.2
  obtain ⟨before, after, split, -⟩ := List.lookup_eq_some_iff.mp found
  refine ⟨f, ?_, vnode⟩
  rw [split]
  simp

/-- The file system is in order, and the inode is in memory or gone. -/
def Standing (x id : Nat) (s : Sys) : Prop :=
  ∃ slots, Mounted slots s ∧ (slots x = some (.opened id) ∨ s.referenced id = false)

theorem referenced_of_mem (mine : (h, f) ∈ s.files) (vnode : f.vnode = id) :
    s.referenced id = true := by
  rw [Sys.referenced, List.any_eq_true]
  exact ⟨(h, f), mine, beq_iff_eq.mpr vnode⟩

theorem added_mounted (m : Mounted slots s) (hx : slots x = some (.opened id)) (ne : x ≠ 1)
    (vnode : f.vnode = id) :
    Mounted slots { s with files := (s.nextFile, f) :: s.files, nextFile := s.nextFile + 1 } := by
  have opened := (m.newFile_carried hx ne).mounted
  have files : Carried slots slots _ { s.opened id with files := (s.nextFile, f) :: s.files } :=
    files_carried opened
    (by rw [Sys.links, Sys.links, List.map_cons, Sys.opened, List.map_cons, vnode]; rfl) (by
      have pos := m.nextFile_pos
      have other : (0 == s.nextFile) = false := beq_false_of_ne (by omega)
      rw [Sys.opened, List.lookup_cons, List.lookup_cons, other])
  exact files.mounted

theorem added (m : Mounted slots s) (hx : slots x = some (.opened id))
    (ne : x ≠ 1) (vnode : f.vnode = id)
    (done : t = { s with files := (s.nextFile, f) :: s.files, nextFile := s.nextFile + 1 }) :
    Standing x id t ∧ (t.inodes id).desc.denyWrite = (s.inodes id).desc.denyWrite ∧
      deniers t id = deniers s id + if f.denyWrite then 1 else 0 := by
  subst done
  refine ⟨⟨slots, added_mounted m hx ne vnode, .inl hx⟩, rfl, ?_⟩
  rw [deniers, List.countP_cons, deniers]
  simp only [denies, vnode, beq_self_eq_true, Bool.true_and]

/-- What a denial by a handle adds to the counter and to the deniers. -/
theorem denied_counts (m : Mounted slots s) (hx : slots x = some (.opened id)) (ne : x ≠ 1)
    (mine : (h, f) ∈ s.files)
    (vnode : f.vnode = id) (nonzero : h ≠ 0) (stepped : after (denyWrite h) s = some t) :
    Standing x id t ∧ (t.inodes id).desc.denyWrite = (s.inodes id).desc.denyWrite + 1 ∧
      deniers t id = deniers s id + if f.denyWrite then 0 else 1 := by
  have file := m.file_of_mem mine
  have first : File.getFile h s = .ok (s.file h) s := rfl
  have flag : (Call.modify fun s => s.flagged h : M Unit) s = .ok () (s.flagged h) := rfl
  have m₁ : Mounted slots (s.flagged h) :=
    (files_carried m (links_flagged s h) (lookup_flagged s nonzero)).mounted
  rw [denyWrite, after_bind_ok first, after_bind_ok flag, file, vnode] at stepped
  obtain stops | counted := denyWrite_cases m₁.idle id
  · rw [after_halt stops] at stepped
    cases stepped
  · rw [after_ok counted, Option.some.injEq] at stepped
    subst stepped
    refine ⟨⟨slots, denied_mounted m₁ hx ne, .inl hx⟩, ?_, deniers_flagged m mine vnode⟩
    change (Function.update (s.flagged h).inodes id _ id).desc.denyWrite = _
    rw [Function.update_self]
    rfl

/-- What the drop of a handle takes from the counter and from the deniers. -/
theorem dropped_counts (m : Mounted slots s) (hx : slots x = some (.opened id))
    (mine : (h, f) ∈ s.files)
    (vnode : f.vnode = id) (nonzero : h ≠ 0) (stepped : after (dropFile h) s = some t) :
    Standing x id t ∧ (t.inodes id).desc.denyWrite =
      (s.inodes id).desc.denyWrite - (if f.denyWrite then 1 else 0) ∧
      deniers t id + (if f.denyWrite then 1 else 0) = deniers s id := by
  obtain ⟨files, -⟩ := Mounted.allow_fields s f
  have count : (((s.allow f).dropped h).inodes id).desc.denyWrite =
      (s.inodes id).desc.denyWrite - (if f.denyWrite then 1 else 0) := by
    change ((s.allow f).inodes id).desc.denyWrite = _
    rw [Sys.allow]
    by_cases denying : f.denyWrite = true
    · rw [if_pos denying, if_pos denying, vnode]
      change (Function.update s.inodes id _ id).desc.denyWrite = _
      rw [Function.update_self]
    · rw [if_neg denying, if_neg denying, Nat.sub_zero]
  have left : deniers ((s.allow f).dropped h) id + (if f.denyWrite then 1 else 0) =
    deniers s id := by
    have same : deniers ((s.allow f).dropped h) id = deniers (s.dropped h) id := by
      rw [deniers, deniers, Sys.dropped, Sys.dropped, files]
    rw [same, deniers_dropped m mine vnode]
  obtain ⟨e, stops, -⟩ | ⟨more, done, carried⟩ | ⟨last, u, done, closed, carried⟩ :=
    m.dropFile_cases mine nonzero (vnode ▸ hx)
  · rw [after_halt stops] at stepped
    cases stepped
  · rw [after_ok done, Option.some.injEq] at stepped
    subst stepped
    exact ⟨⟨slots, carried.mounted, .inl hx⟩, count, left⟩
  · rw [after_ok done, Option.some.injEq] at stepped
    subst stepped
    rw [vnode] at closed last
    obtain ⟨inodes, flags⟩ := closed_counts closed
    obtain ⟨links, -⟩ := Mounted.closed_fields closed
    have same : u.links = (s.dropped h).links := by
      rw [links, Sys.links, Sys.links, Sys.dropped, Sys.dropped, files]
    refine ⟨⟨_, carried.mounted, .inr ?_⟩, inodes ▸ count, flags ▸ left⟩
    cases live : u.referenced id with
    | false => rfl
    | true =>
      rw [referenced_iff, same, ← referenced_iff, last] at live
      cases live

/-- An operation leaves the file system in order, and the counter right exactly if it is single. -/
theorem handle_counted {op : HandleOp} (stands : Standing x id s) (ne : x ≠ 1)
    (stepped : handle id s op = some t) :
    Standing x id t ∧ ((s.inodes id).desc.denyWrite = deniers s id →
      ((t.inodes id).desc.denyWrite = deniers t id ↔ Single s op)) := by
  obtain ⟨slots, m, hx | gone⟩ := stands
  · cases op with
    | new =>
      rw [handle, if_pos (m.linked.referenced hx)] at stepped
      obtain rfl := Option.some.inj stepped
      obtain ⟨stands, counter, flags⟩ := added (f := .new id) m hx ne rfl rfl
      refine ⟨stands, fun count => ⟨fun _ => trivial, fun _ => ?_⟩⟩
      exact counter.trans (count.trans flags.symm)
    | clone h =>
      rw [handle] at stepped
      split at stepped
      · rename_i on
        obtain ⟨f, mine, vnode⟩ := mem_of_on on
        obtain rfl := m.file_of_mem mine
        obtain rfl := Option.some.inj stepped
        obtain ⟨stands, counter, flags⟩ := added m hx ne vnode rfl
        refine ⟨stands, fun count => ?_⟩
        rw [Single, counter, flags, count]
        cases (s.file h).denyWrite <;> simp
      · cases stepped
    | denyWrite h =>
      rw [handle] at stepped
      split at stepped
      · rename_i on
        obtain ⟨f, mine, vnode⟩ := mem_of_on on
        obtain ⟨stands, counter, flags⟩ := denied_counts m hx ne mine vnode on.1 stepped
        refine ⟨stands, fun count => ?_⟩
        rw [Single, m.file_of_mem mine, counter, flags, count]
        cases f.denyWrite <;> simp
      · cases stepped
    | drop h =>
      rw [handle] at stepped
      split at stepped
      · rename_i on
        obtain ⟨f, mine, vnode⟩ := mem_of_on on
        obtain ⟨stands, counter, flags⟩ := dropped_counts m hx mine vnode on.1 stepped
        refine ⟨stands, fun count => ⟨fun _ => trivial, fun _ => ?_⟩⟩
        rw [counter, count, ← flags]
        omega
      · cases stepped
  · -- Without a handle there is nothing to do any operation with.
    have none : ∀ h, ¬On s id h := by
      intro h on
      obtain ⟨f, mine, vnode⟩ := mem_of_on on
      rw [referenced_of_mem mine vnode] at gone
      cases gone
    cases op with
    | new =>
      rw [handle, gone] at stepped
      cases stepped
    | clone h =>
      rw [handle, if_neg (none h)] at stepped
      cases stepped
    | denyWrite h =>
      rw [handle, if_neg (none h)] at stepped
      cases stepped
    | drop h =>
      rw [handle, if_neg (none h)] at stepped
      cases stepped

/-- In a run of operations on the handles of an inode, the counter counts the deniers in every
state exactly if no operation copies the flag of a denier or lets a handle deny twice. -/
theorem deniers_counted_iff {ops : List HandleOp} (m : Mounted slots s)
    (hx : slots x = some (.opened id)) (ne : x ≠ 1)
    (count : Counted id s) (ran : run (handle id) s ops = some t) :
    (∀ as bs u, ops = as ++ bs → run (handle id) s as = some u → Counted id u) ↔ Guarded
    (handle id) Single s ops := by
  refine reached_iff_guarded (I := Standing x id) ?_ ?_ ⟨slots, m, .inl hx⟩ count ran
  · intro u op v stands stepped
    exact (handle_counted stands ne stepped).1
  · intro u op v stands counted stepped
    obtain ⟨⟨_, after, -⟩, exactly⟩ := handle_counted stands ne stepped
    rw [← exactly counted.count]
    exact ⟨fun counted => counted.count, counted_of_count after.idle⟩

instance (s : Sys) : ∀ op, Decidable (Single s op)
  | .new => .isTrue trivial
  | .clone h => inferInstanceAs (Decidable ((s.file h).denyWrite = false))
  | .denyWrite h => inferInstanceAs (Decidable ((s.file h).denyWrite = false))
  | .drop _ => .isTrue trivial

/-- One handle denies writing while others come and go. -/
def visitors : List HandleOp := [.denyWrite 1, .clone 2, .new, .denyWrite 4, .drop 1, .drop 4]

theorem visitors_counted : ∃ s t u, mount 64 emptyDisk = .ok () s ∧
    run request s Threads.twice = some t ∧
    run (handle (t.file 2).vnode) t visitors = some u ∧ Counted (t.file 2).vnode u := by
  have computed : Threads.shared (fun t => decide (On t (t.file 2).vnode 2) &&
      decide ((t.inodes (t.file 2).vnode).desc.denyWrite = deniers t (t.file 2).vnode) &&
      decide (Guarded (handle (t.file 2).vnode) Single t visitors) &&
      (run (handle (t.file 2).vnode) t visitors).isSome) = true := by decide +kernel
  obtain ⟨s, t, slots, mounted, ran, m, facts⟩ := Threads.of_shared computed
  simp only [Bool.and_eq_true, decide_eq_true_iff, Option.isSome_iff_exists] at facts
  obtain ⟨⟨⟨on, count⟩, single⟩, u, taken⟩ := facts
  obtain ⟨f, mine, vnode⟩ := mem_of_on on
  obtain ⟨x, hx, ne⟩ := m.slot_of_mem mine on.1
  have all := (deniers_counted_iff m (vnode ▸ hx) ne
    (counted_of_count m.idle count) taken).mpr single
  exact ⟨s, t, u, mounted, ran, taken, all visitors [] u (List.append_nil _).symm taken⟩

/-- After a denier was copied the counter is taken below zero, and after a handle denied twice
nobody is left who could allow writing. -/
theorem copied_and_doubled_denials : ∃ s t u v, mount 64 emptyDisk = .ok () s ∧
    run request s Threads.twice = some t ∧
    run (handle (t.file 2).vnode) t [.denyWrite 1, .clone 1, .drop 1] = some u ∧
      (u.inodes (t.file 2).vnode).desc.denyWrite = 0 ∧ deniers u (t.file 2).vnode = 1 ∧
        dropFile 3 u = .halt .overflow ∧
    run (handle (t.file 2).vnode) t [.denyWrite 1, .denyWrite 1, .drop 1] = some v ∧
      (v.inodes (t.file 2).vnode).desc.denyWrite = 1 ∧ deniers v (t.file 2).vnode = 0 := by
  have computed : Threads.shared (fun t =>
      (run (handle (t.file 2).vnode) t [.denyWrite 1, .clone 1, .drop 1]).any (fun u =>
        decide ((u.inodes (t.file 2).vnode).desc.denyWrite = 0 ∧ deniers u (t.file 2).vnode = 1) &&
          match dropFile 3 u with
          | .halt .overflow => true
          | _ => false) &&
      (run (handle (t.file 2).vnode) t [.denyWrite 1, .denyWrite 1, .drop 1]).any (fun v =>
        decide ((v.inodes (t.file 2).vnode).desc.denyWrite = 1 ∧
          deniers v (t.file 2).vnode = 0))) = true := by
    decide +kernel
  obtain ⟨s, t, -, mounted, ran, -, facts⟩ := Threads.of_shared computed
  rw [Bool.and_eq_true, Option.any_eq_true, Option.any_eq_true] at facts
  obtain ⟨⟨u, copied, below⟩, v, doubled, left⟩ := facts
  rw [Bool.and_eq_true, decide_eq_true_iff] at below
  rw [decide_eq_true_iff] at left
  refine ⟨s, t, u, v, mounted, ran, copied, below.1.1, below.1.2, ?_, doubled, left.1, left.2⟩
  have stops := below.2
  split at stops
  · rename_i done
    exact done
  · cases stops

end DiskFs

end Tacos.Fs
