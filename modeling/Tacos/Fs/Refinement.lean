/- GID: Tacos/Fs/Refinement
   generality: I
   source: src/fs/disk.rs, src/fs/disk/inode.rs, src/fs.rs
   digest: Runs of all calls and of restarts are runs of a store of named files with the same
     answers. -/

import Tacos.Fs.Requests

set_option autoImplicit false
set_option relaxedAutoImplicit false

namespace Tacos.Fs

open Tacos.Lib Tacos.Lib.Exec Tacos.Lib.Run FreeMap Inode RootDir
open Store (emptyDisk blank_emptyDisk)

/-- `Seek::len` of a file. -/
def File.len (h : Nat) : M Nat := do
  let f ← getFile h
  Inode.len f.vnode

/-- The machine is switched off and on: what was not on the disk is gone. -/
def Sys.boot (s : Sys) : Sys := { emptyDisk with disk := s.disk }

namespace DiskFs

abbrev Reply := FileStore.Answer Nat UInt8 OsError

/-- The answer of a call and the state after it; none if the machine stops. -/
def reply {α : Type} (call : M α) (f : α → Reply) (s : Sys) : Option (Reply × Sys) :=
  match call s with
  | .ok a t => some (f a, t)
  | .err e t => some (.failed e, t)
  | .halt _ => none

/-- A call on a descriptor that exists and is not the root directory's. -/
def replyOn {α : Type} (s : Sys) (h : Nat) (call : M α) (f : α → Reply) : Option (Reply × Sys) :=
  if h ≠ 0 ∧ h ∈ s.files.map Prod.fst then reply call f s else none

def perform (s : Sys) : Use → Option (Reply × Sys)
  | .act (.call (.create path)) => reply (create path) .handle s
  | .act (.call (.openFile path)) => reply (openFile path) .handle s
  | .act (.call (.remove path)) => reply (remove path) (fun _ => .done) s
  | .act (.call (.drop h)) => replyOn s h (dropFile h) fun _ => .done
  | .act (.write h buf) => replyOn s h (File.write h buf) .count
  | .act (.seek h pos) => replyOn s h (File.seek h pos) .count
  | .act (.setLen h size) => replyOn s h (File.setLen h size) fun _ => .done
  | .read h buf => replyOn s h (File.read h buf) .bytes
  | .clone h => replyOn s h (cloneFile h) .handle
  | .denyWrite h => replyOn s h (denyWrite h) fun _ => .done

/-- The calls of one thread, and restarts of the machine. -/
inductive Event where
  | use (a : Use)
  | len (h : Nat)
  | reboot

/-- One call, or the disk is unmounted and mounted again after a restart. -/
def happen (capacity : Nat) (s : Sys) : Event → Option (Reply × Sys)
  | .use a => perform s a
  | .len h => replyOn s h (File.len h) .count
  | .reboot => match unmount s with
    | .ok () u => reply (mount capacity) (fun _ => .done) u.boot
    | _ => none

def step (capacity : Nat) (s : Sys) (e : Event × Reply) : Option Sys :=
  (happen capacity s e.1).bind fun p => if p.1 = e.2 then some p.2 else none

/-- What an event is on a store. -/
def Event.shown : Event → FileStore.Action Path Nat UInt8
  | .use (.act (.call (.create path))) => .create path
  | .use (.act (.call (.openFile path))) => .openFile path
  | .use (.act (.call (.remove path))) => .remove path
  | .use (.act (.call (.drop h))) => .drop h
  | .use (.act (.write h buf)) => .write h buf.bytes
  | .use (.act (.seek h pos)) => .seek h pos.newPos
  | .use (.act (.setLen h size)) => .setLen h size
  | .use (.read h buf) => .read h buf.bytes.length
  | .use (.clone h) => .clone h
  | .use (.denyWrite h) => .denyWrite h
  | .len h => .len h
  | .reboot => .reboot

/-- A path that is created is one that an entry can hold, and if it exists, it is open. Buffers
are the kernel's, lengths and ends of writes are below 2^32, and when the machine restarts, no
file is open. -/
def Fits (s : Sys) : Event → Prop
  | .use (.act (.call (.create path))) => Reopens s (.create path) ∧ Nameable path
  | .use (.act (.write h buf)) => buf.InKernel ∧ (s.file h).pos + buf.bytes.length < 2 ^ 32
  | .use (.act (.setLen _ size)) => size < 2 ^ 32
  | .use (.read _ buf) => buf.InKernel
  | .reboot => ∀ p ∈ s.files, p.1 = 0
  | _ => True

/-- What calls say when there is no file, when writing is denied, and when the disk is full. -/
def codes : FileStore.Codes OsError := ⟨.noSuchFile, .invalidFileMode, .diskSectorAllocFail⟩

variable {slots : Slots} {s t u : Sys} {x h capacity size : Nat} {f : File}
    {path : Path} {r : Reply}

section Reply

variable {α : Type} {call : M α} {g : α → Reply}

theorem reply_ok {a : α} (done : call s = .ok a t) : reply call g s = some (g a, t) := by
  rw [reply, done]

theorem reply_err {e : OsError} (failed : call s = .err e t) :
    reply call g s = some (.failed e, t) := by
  rw [reply, failed]

theorem reply_halt {e : Halt} (stops : call s = .halt e) : reply call g s = none := by
  rw [reply, stops]

theorem after_of_reply (got : reply call g s = some (r, t)) : after call s = some t := by
  cases done : call s with
  | ok a u =>
    rw [reply_ok done] at got
    cases got
    rw [after, done]
  | err e u =>
    rw [reply_err done] at got
    cases got
    rw [after, done]
  | halt e =>
    rw [reply_halt done] at got
    cases got

theorem replyOn_eq_some (m : Mounted slots s) (got : replyOn s h call g = some (r, t)) :
    (∃ f x, Handle slots s h f x) ∧ reply call g s = some (r, t) := by
  rw [replyOn] at got
  split at got
  · rename_i enabled
    obtain ⟨⟨h', f⟩, mine, same⟩ := List.mem_map.mp enabled.2
    obtain rfl : h' = h := same
    exact ⟨⟨f, m.handle enabled.1 mine⟩, got⟩
  · cases got

theorem onFile_of_replyOn (got : replyOn s h call g = some (r, t)) : onFile s h call = some t := by
  rw [replyOn] at got
  rw [onFile]
  split at got
  · rename_i enabled
    rw [if_pos enabled]
    exact after_of_reply got
  · cases got

end Reply

theorem use_of_perform {a : Use} (got : perform s a = some (r, t)) : use s a = some t := by
  cases a with
  | act a =>
    cases a with
    | call c =>
      cases c with
      | create path => exact after_of_reply got
      | openFile path => exact after_of_reply got
      | remove path => exact after_of_reply got
      | drop h => exact onFile_of_replyOn got
    | write h buf => exact onFile_of_replyOn got
    | seek h pos => exact onFile_of_replyOn got
    | setLen h size => exact onFile_of_replyOn got
  | read h buf => exact onFile_of_replyOn got
  | clone h => exact onFile_of_replyOn got
  | denyWrite h => exact onFile_of_replyOn got

theorem step_eq_some {e : Event} : step capacity s (e, r) = some t ↔
    happen capacity s e = some (r, t) := by
  rw [step, Option.bind_eq_some_iff]
  constructor
  · rintro ⟨⟨r', t'⟩, got, same⟩
    split at same
    · rename_i here
      obtain rfl : r' = r := here
      obtain rfl : t' = t := Option.some.inj same
      exact got
    · cases same
  · intro got
    exact ⟨(r, t), got, if_pos rfl⟩

theorem request_does (m : Mounted slots s) (proper : Proper s) {c : Request}
    (drops : ∀ h, c ≠ .drop h)
    (fits : Fits s (.use (.act (.call c)))) (got : perform s (.act (.call c)) = some (r, t)) :
    FileStore.Does codes s.store (Event.shown (.use (.act (.call c)))) r t.store ∧ Proper t := by
  have free : s.store.files s.nextFile = none := store_files_none (.inr m.unused)
  cases c with
  | create path =>
    change reply (create path) .handle s = some (r, t) at got
    cases lookup : find path s.entries with
    | ok x =>
      obtain ⟨id, up⟩ := Option.isSome_iff_exists.mp (fits.1 x lookup)
      obtain ⟨u, done, alike, kept⟩ := create_existing_shown m proper lookup
        ((m.linked.upgrade x id).mp up)
      rw [reply_ok done] at got
      cases got
      exact ⟨.emptied (store_names.mpr lookup) free alike, kept⟩
    | error e₀ =>
      have missing : s.store.names path = none := by
        change (find path s.entries).toOption = none
        rw [lookup]
        rfl
      obtain ⟨e, stops⟩ | ⟨e, u, failed, alike, kept⟩ | ⟨x, u, done, dead, alike, kept⟩ :=
        create_new_shown m proper fits.2 lookup
      · rw [reply_halt stops] at got
        cases got
      · rw [reply_err failed] at got
        cases got
        exact ⟨.unmade missing alike, kept⟩
      · rw [reply_ok done] at got
        cases got
        exact ⟨.made missing dead free alike, kept⟩
  | openFile path =>
    change reply (openFile path) .handle s = some (r, t) at got
    cases lookup : find path s.entries with
    | ok x =>
      obtain ⟨u, done, alike, kept⟩ := openFile_shown m proper lookup
      rw [reply_ok done] at got
      cases got
      exact ⟨.opened (store_names.mpr lookup) free alike, kept⟩
    | error e =>
      obtain ⟨p, failed⟩ := m.openFile_missing lookup
      obtain ⟨alike, kept⟩ := shown_looked m proper p
      rw [reply_err failed] at got
      cases got
      refine ⟨.unknown ?_ alike, kept⟩
      change (find path s.entries).toOption = none
      rw [lookup]
      rfl
  | remove path =>
    change reply (remove path) (fun _ => .done) s = some (r, t) at got
    cases lookup : find path s.entries with
    | ok x =>
      obtain ⟨-, ⟨id, hx⟩ | hx⟩ := m.slot_of_find lookup
      · obtain ⟨u, done, alike, kept⟩ := remove_shown m proper lookup hx
        rw [reply_ok done] at got
        cases got
        exact ⟨.removed (store_names.mpr lookup) alike, kept⟩
      · rw [reply_halt (m.remove_closed lookup hx)] at got
        cases got
    | error e =>
      have unnamed : s.store.names path = none := by
        change (find path s.entries).toOption = none
        rw [lookup]
        rfl
      have missing := lookup
      rw [(store_unnamed m).mp unnamed] at missing
      cases missing
      obtain ⟨p, failed⟩ := m.remove_missing lookup
      obtain ⟨alike, kept⟩ := shown_looked m proper p
      rw [reply_err failed] at got
      cases got
      exact ⟨.unnamed unnamed alike, kept⟩
  | drop h => exact absurd rfl (drops h)

theorem alike_refl (s : Sys) : s.store.Alike s.store := ⟨rfl, rfl, fun _ _ => rfl, fun _ _ => rfl⟩

/-- Each call does what it does on a store, and answers what it answers there. -/
theorem use_does {a : Use} (m : Mounted slots s) (proper : Proper s) (fits : Fits s (.use a))
    (got : perform s a = some (r, t)) :
    FileStore.Does codes s.store (Event.shown (.use a)) r t.store ∧ Proper t := by
  cases a with
  | act a =>
    cases a with
    | call c =>
      cases c with
      | create path => exact request_does m proper (fun h same => nomatch same) fits got
      | openFile path => exact request_does m proper (fun h same => nomatch same) fits got
      | remove path => exact request_does m proper (fun h same => nomatch same) fits got
      | drop h =>
        obtain ⟨⟨f, x, handle⟩, got⟩ := replyOn_eq_some m got
        obtain ⟨e, stops⟩ | ⟨u, done, alike, kept⟩ := drop_shown m proper handle
        · rw [reply_halt stops] at got
          cases got
        · rw [reply_ok done] at got
          cases got
          exact ⟨.dropped (handle.shown m) alike, kept⟩
    | write h buf =>
      obtain ⟨⟨f, x, handle⟩, got⟩ := replyOn_eq_some m got
      obtain ⟨kernel, small⟩ := fits
      rw [handle.file] at small
      have count := store_denials_opened m handle.slot
      obtain ⟨denied, failed⟩ | ⟨allowed, ⟨longer, failed⟩ | ⟨e, stops⟩ | ⟨u, change, done⟩⟩ :=
        write_answers m handle kernel small
      · rw [reply_err failed] at got
        cases got
        exact ⟨.denied (handle.shown m) (count ▸ denied) (alike_refl s), proper⟩
      · rw [reply_err failed] at got
        cases got
        refine ⟨.unwritten (handle.shown m) (count ▸ allowed) ?_ (alike_refl s), proper⟩
        rw [handle.length m]
        exact longer
      · rw [reply_halt stops] at got
        cases got
      · obtain ⟨⟨new, wrote, alike⟩, kept⟩ := wrote_shown m proper handle small change rfl
        rw [reply_ok done] at got
        cases got
        exact ⟨.wrote (handle.shown m) (count ▸ allowed) wrote alike, kept⟩
    | seek h pos =>
      obtain ⟨⟨f, x, handle⟩, got⟩ := replyOn_eq_some m got
      obtain ⟨e, stops⟩ | ⟨p, target, done⟩ := seek_answers m handle pos
      · rw [reply_halt stops] at got
        cases got
      · obtain ⟨alike, kept⟩ := shown_moved m proper handle p
        rw [reply_ok done] at got
        cases got
        exact ⟨.moved (handle.shown m) target alike, kept⟩
    | setLen h size =>
      obtain ⟨⟨f, x, handle⟩, got⟩ := replyOn_eq_some m got
      obtain ⟨longer, failed⟩ | ⟨e, stops⟩ | ⟨u, done, change⟩ := setLen_answers m handle fits
      · rw [reply_err failed] at got
        cases got
        refine ⟨.uncut (handle.shown m) ?_ (alike_refl s), proper⟩
        rw [handle.length m]
        exact longer
      · rw [reply_halt stops] at got
        cases got
      · obtain ⟨⟨new, cut, alike⟩, kept⟩ := setLen_shown m proper handle fits change
        rw [reply_ok done] at got
        cases got
        exact ⟨.cut (handle.shown m) cut alike, kept⟩
  | read h buf =>
    obtain ⟨⟨f, x, handle⟩, got⟩ := replyOn_eq_some m got
    obtain ⟨bytes, done, same⟩ := read_answers m handle fits
    obtain ⟨alike, kept⟩ := shown_moved m proper handle (f.pos + bytes.length)
    rw [reply_ok done] at got
    cases got
    exact ⟨.read (handle.shown m) same alike, kept⟩
  | clone h =>
    obtain ⟨⟨f, x, handle⟩, got⟩ := replyOn_eq_some m got
    obtain ⟨u, done, alike, kept⟩ := clone_shown m proper handle
    rw [reply_ok done] at got
    cases got
    exact ⟨.cloned (handle.shown m) (store_files_none (.inr m.unused)) alike, kept⟩
  | denyWrite h =>
    obtain ⟨⟨f, x, handle⟩, got⟩ := replyOn_eq_some m got
    obtain ⟨alike, kept⟩ := denyWrite_shown m proper handle (after_of_reply got)
    have first : File.getFile h s = .ok (s.file h) s := rfl
    have flag : (Call.modify fun s => s.flagged h : M Unit) s = .ok () (s.flagged h) := rfl
    have ends : denyWrite h s = Inode.denyWrite (s.file h).vnode (s.flagged h) :=
      (Call.bind_ok first).trans (Call.bind_ok flag)
    obtain stops | counted := denyWrite_cases (s := s.flagged h) m.idle (s.file h).vnode
    · rw [reply_halt (ends.trans stops)] at got
      cases got
    · rw [reply_ok (ends.trans counted)] at got
      cases got
      exact ⟨.forbidden (handle.shown m) alike, kept⟩

theorem len_does (m : Mounted slots s) (got : replyOn s h (File.len h) .count = some (r, t)) :
    FileStore.Does codes s.store (.len h) r t.store ∧ t = s := by
  obtain ⟨⟨f, x, handle⟩, got⟩ := replyOn_eq_some m got
  have first : File.getFile h s = .ok f s := congrArg (fun f => Outcome.ok f s) handle.file
  have length : Inode.len f.vnode s = .ok (s.inodes f.vnode).data.len s :=
    lock_ok (t := { s with held := .inode f.vnode :: s.held }) (by simp [m.idle]) rfl rfl
  have ends : File.len h s = Inode.len f.vnode s := Call.bind_ok first
  rw [reply_ok (ends.trans length)] at got
  cases got
  rw [← handle.length m]
  exact ⟨.measured (handle.shown m) (alike_refl s), rfl⟩

theorem proper_of_empty (empty : ∀ e ∈ s.entries, e.isValid = false) : Proper s := by
  constructor
  · intro i j e e' here _ valid
    rw [empty e (List.mem_of_getElem? here)] at valid
    cases valid
  · intro x id _ _ e he valid
    rw [empty e he] at valid
    cases valid

/-- Right after a disk was mounted, no inode but the root directory's is in memory. -/
theorem loaded_proper {known : Nat → Bool} (archive : Archive known size s.disk)
    (idle : s.held = [])
    (unique : Unique (entriesOn s.disk)) : Proper (s.loaded size) := by
  have m := loaded_mounted archive idle
  refine ⟨loaded_entries ▸ unique, ?_⟩
  intro x id up _ e he valid
  have hx := (m.linked.upgrade x id).mp up
  obtain ⟨-, ne⟩ := m.known e he valid
  rw [archived] at hx
  split at hx
  · rename_i one
    rw [one]
    exact ne
  · split at hx <;> cases hx

/-- After a restart the files are the same, and none is open. -/
theorem reboot_shown (home : Home size slots s) (proper : Proper s) (only : ∀ p ∈ s.files, p.1 = 0)
    (cap : capacity % 2 ^ 32 = size) {b : Sys} (idle : b.held = [])
    (disk : b.disk = s.flushed.disk) :
    ∃ t, mount capacity b = .ok () t ∧ s.store.Alike t.store ∧ Proper t ∧
      ∃ slots', Home size slots' t := by
  have m := home.mounted
  have archive := home.flushed_archive (m.alone only)
  rw [← disk] at archive
  obtain ⟨t, mounted, same⟩ := home.remount only cap idle disk
  have loads := mount_loads capacity idle (archive.magic _ archive.map) (cap ▸ archive.mapLen)
    (archive.magic _ archive.root)
  rw [cap, mounted] at loads
  obtain rfl : t = b.loaded size := (Outcome.ok.inj loads).2
  have home' := loaded_home archive idle
  have entries : (b.loaded size).entries = s.entries := by
    rw [loaded_entries, disk, home.flushed_entries]
  have unique : Unique (entriesOn b.disk) := by
    have same : entriesOn b.disk = s.entries := loaded_entries.symm.trans entries
    rw [same]
    exact proper.unique
  have shut : ∀ {u : Sys}, (∀ p ∈ u.files, p.1 = 0) → ∀ h, u.store.files h = none := by
    intro u alone h
    by_cases zero : h = 0
    · exact store_files_none (.inl zero)
    cases found : u.files.lookup h with
    | none => exact store_files_none (.inr found)
    | some f => exact absurd (alone _ (mem_of_lookup found)) zero
  have alone : ∀ p ∈ (b.loaded size).files, p.1 = 0 := by
    intro p mine
    rw [List.mem_singleton.mp mine]
  have closed : ∀ x, ¬(b.loaded size).store.Open x := by
    rintro x ⟨h, d, file, -⟩
    rw [shut alone h] at file
    cases file
  have names : (b.loaded size).store.names = s.store.names := store_names_kept entries
  refine ⟨_, mounted, ⟨names, ?_, ?_, fun x here => absurd here (closed x)⟩,
    loaded_proper archive idle unique, _, home'⟩
  · funext h
    rw [shut alone h, shut only h]
  · rintro x (here | ⟨path, named⟩)
    · exact absurd here (closed x)
    · have found' := store_names.mp named
      have found : find path s.entries = .ok x := entries ▸ found'
      -- The two readings of the whole file agree.
      obtain ⟨u, read⟩ := m.readWhole_found found
      obtain ⟨u', read'⟩ := home'.mounted.readWhole_found found'
      obtain ⟨r, before, after⟩ := same.bytes path
      rw [read] at before
      rw [read'] at after
      have one := before.trans after.symm
      rw [store_bytes home'.mounted (known_of_live home'.mounted (.inr ⟨path, named⟩)).1,
        store_bytes m (known_of_live m (.inr ⟨path, store_names.mpr found⟩)).1]
      exact (Except.ok.inj (Option.some.inj one)).symm

/-- The file system is in order, on a disk of a size. -/
def InOrder (size : Nat) (s : Sys) : Prop := Proper s ∧ ∃ slots, Home size slots s

/-- A disk to start from: nothing is on it, or a file system without two entries for a name or an
inode. -/
def Startable (size : Nat) (b : Sys) : Prop :=
  Blank b ∨ b.held = [] ∧ Unique (entriesOn b.disk) ∧ ∃ known, Archive known size b.disk

theorem Startable.inOrder {b : Sys} (startable : Startable (capacity % 2 ^ 32) b)
    (mounted : mount capacity b = .ok () s) : InOrder (capacity % 2 ^ 32) s := by
  obtain blank | ⟨idle, unique, known, archive⟩ := startable
  · obtain ⟨a, c, n, layout, frame⟩ := mount_blank blank mounted
    refine ⟨proper_of_empty ?_, mount_home (.inl blank) mounted⟩
    rw [frame]
    exact entries_formatted
  · refine ⟨?_, mount_home (.inr ⟨idle, known, archive⟩) mounted⟩
    have loads := mount_loads capacity idle (archive.magic _ archive.map) archive.mapLen
      (archive.magic _ archive.root)
    rw [mounted] at loads
    obtain rfl : s = b.loaded (capacity % 2 ^ 32) := (Outcome.ok.inj loads).2
    exact loaded_proper archive idle unique

theorem Fits.registered {a : Use} (fits : Fits s (.use a)) : Registered s a := by
  cases a with
  | act a =>
    cases a with
    | call c =>
      cases c with
      | create path => exact fits.1
      | openFile path => trivial
      | remove path => trivial
      | drop h => trivial
    | write h buf => trivial
    | seek h pos => trivial
    | setLen h size => trivial
  | read h buf => trivial
  | clone h => trivial
  | denyWrite h => trivial

/-- Each event does what it does on a store, and leaves the file system in order. -/
theorem event_does {e : Event} (order : InOrder (capacity % 2 ^ 32) s) (fits : Fits s e)
    (got : happen capacity s e = some (r, t)) :
    FileStore.Does codes s.store e.shown r t.store ∧ InOrder (capacity % 2 ^ 32) t := by
  obtain ⟨proper, slots, home⟩ := order
  have m := home.mounted
  cases e with
  | use a =>
    obtain ⟨does, proper'⟩ := use_does m proper fits got
    obtain ⟨slots', X, confined, concerned⟩ := use_confined m fits.registered (use_of_perform got)
    exact ⟨does, proper', slots', home.carried (confined.carried m concerned)⟩
  | len h =>
    obtain ⟨does, rfl⟩ := len_does m got
    exact ⟨does, proper, slots, home⟩
  | reboot =>
    obtain ⟨u, mounted, alike, proper', home'⟩ :=
      reboot_shown (b := s.flushed.boot) home proper fits rfl rfl rfl
    have got' : reply (mount capacity) (fun _ => .done) s.flushed.boot = some (r, t) := by
      rw [happen, home.unmount_eq] at got
      exact got
    rw [reply_ok mounted] at got'
    cases got'
    refine ⟨.rebooted (fun h => ?_) alike, proper', home'⟩
    by_cases zero : h = 0
    · exact store_files_none (.inl zero)
    cases found : s.files.lookup h with
    | none => exact store_files_none (.inr found)
    | some f => exact absurd (fits _ (mem_of_lookup found)) zero

/-- Runs of calls and restarts, with what they answer, are runs of a store of named files. -/
theorem calls_refine {b : Sys} {es : List (Event × Reply)}
    (startable : Startable (capacity % 2 ^ 32) b)
    (mounted : mount capacity b = .ok () s)
    (meets : Guarded (step capacity) (fun s e => Fits s e.1) s es)
    (ran : run (step capacity) s es = some t) :
    FileStore.Runs codes s.store (es.map fun e => (e.1.shown, e.2)) t.store :=
  FileStore.Runs.of_run (fun _ e _ order fits stepped =>
    event_does order fits ((step_eq_some (r := e.2)).mp stepped))
    (startable.inOrder mounted) meets ran

theorem run_inOrder {es : List (Event × Reply)} (order : InOrder (capacity % 2 ^ 32) s)
    (meets : Guarded (step capacity) (fun s e => Fits s e.1) s es)
    (ran : run (step capacity) s es = some t) :
    InOrder (capacity % 2 ^ 32) t :=
  guarded_run_invariant (I := InOrder (capacity % 2 ^ 32))
    (fun _ e _ order fits stepped => (event_does order fits
      ((step_eq_some (r := e.2)).mp stepped)).2) order meets ran

instance (path : Path) : Decidable (Nameable path) := decidable_of_iff
  (path ≠ [] ∧ 0 ∉ path ∧ path.getD 0 0 ≠ DirEntry.tombstone)
  ⟨fun h => ⟨h.1, h.2.1, h.2.2⟩, fun h => ⟨h.some, h.noNul, h.noMark⟩⟩

instance (buf : Slice) : Decidable buf.InKernel :=
  inferInstanceAs (Decidable (∀ i < buf.bytes.length, inKernelSpace (buf.addr + i)))

instance (s : Sys) : ∀ e, Decidable (Fits s e)
  | .use (.act (.call (.create path))) =>
    inferInstanceAs (Decidable (Reopens s (.create path) ∧ Nameable path))
  | .use (.act (.call (.openFile _))) => .isTrue trivial
  | .use (.act (.call (.remove _))) => .isTrue trivial
  | .use (.act (.call (.drop _))) => .isTrue trivial
  | .use (.act (.write h buf)) =>
    inferInstanceAs (Decidable (buf.InKernel ∧ (s.file h).pos + buf.bytes.length < 2 ^ 32))
  | .use (.act (.seek _ _)) => .isTrue trivial
  | .use (.act (.setLen _ size)) => inferInstanceAs (Decidable (size < 2 ^ 32))
  | .use (.read _ buf) => inferInstanceAs (Decidable buf.InKernel)
  | .use (.clone _) => .isTrue trivial
  | .use (.denyWrite _) => .isTrue trivial
  | .len _ => .isTrue trivial
  | .reboot => inferInstanceAs (Decidable (∀ p ∈ s.files, p.1 = 0))

/-- A file is made, denied, closed, and found again after a restart. -/
def tour : List (Event × Reply) :=
  [(.use (.act (.call (.create [97]))), .handle 1),
    (.use (.act (.write 1 (File.vec [1, 2, 3]))), .count 3),
    (.use (.denyWrite 1), .done), (.use (.act (.write 1 (File.vec [4]))), .failed .invalidFileMode),
    (.use (.act (.call (.drop 1))), .done), (.reboot, .done),
    (.use (.act (.call (.openFile [97]))), .handle 1),
    (.use (.read 1 (File.vec (List.replicate 8 0))), .bytes [1, 2, 3])]

theorem tour_refines : ∃ s t, mount 64 emptyDisk = .ok () s ∧
    Guarded (step 64) (fun s e => Fits s e.1) s tour ∧ run (step 64) s tour = some t ∧
    FileStore.Runs codes s.store (tour.map fun e => (e.1.shown, e.2)) t.store := by
  have computed : (match mount 64 emptyDisk with
      | .ok () s => decide (Guarded (step 64) (fun s e => Fits s e.1) s tour) &&
          (run (step 64) s tour).isSome
      | _ => false) = true := by decide +kernel
  split at computed
  · rename_i s mounted
    rw [Bool.and_eq_true, decide_eq_true_iff, Option.isSome_iff_exists] at computed
    obtain ⟨meets, t, ran⟩ := computed
    exact ⟨s, t, mounted, meets, ran, calls_refine (.inl blank_emptyDisk) mounted meets ran⟩
  · cases computed

/-- The event neither creates nor removes the path, and does not write to its file or change its
length. -/
def Spares (path : Path) (s : Sys) : Event → Prop
  | .use (.act (.call (.create q))) => q ≠ path
  | .use (.act (.call (.remove q))) => q ≠ path
  | .use (.act (.write h _)) => find path s.entries ≠ .ok (s.inodes (s.file h).vnode).desc.sector
  | .use (.act (.setLen h _)) => find path s.entries ≠ .ok (s.inodes (s.file h).vnode).desc.sector
  | _ => True

theorem sector_of_shown {d : FileStore.Descriptor Nat} (shown : s.store.files h = some d) :
    d.file = (s.inodes (s.file h).vnode).desc.sector := by
  by_cases zero : h = 0
  · rw [store_files_none (.inl zero)] at shown
    cases shown
  change (if h = 0 then none else _) = _ at shown
  rw [if_neg zero, Option.map_eq_some_iff] at shown
  obtain ⟨f, found, rfl⟩ := shown
  rw [Sys.file, found]
  rfl

/-- What spares a path does not alter its file, and does not remove it. -/
theorem Spares.apart {e : Event} (proper : Proper s) (named : find path s.entries = .ok x)
    (spares : Spares path s e) :
    e.shown ≠ .remove path ∧ ¬FileStore.Alters s.store x e.shown := by
  have through : ∀ h, find path s.entries ≠ .ok (s.inodes (s.file h).vnode).desc.sector →
      ¬∃ d, s.store.files h = some d ∧ d.file = x := by
    rintro h other ⟨d, shown, rfl⟩
    rw [sector_of_shown shown] at named
    exact other named
  cases e with
  | use a =>
    cases a with
    | act a =>
      cases a with
      | call c =>
        cases c with
        | create q =>
          refine ⟨nofun, fun here => ?_⟩
          -- Two names for one file would be two entries with its number.
          obtain ⟨e, he, names, number⟩ := find_ok (store_names.mp here)
          obtain ⟨e', he', names', number'⟩ := find_ok named
          have valid := names_iff.mp names
          have valid' := names_iff.mp names'
          have one := proper.unique.same he he' valid.1 valid'.1 (.inr (number.trans number'.symm))
          exact spares (valid.2.symm.trans ((congrArg DirEntry.cstr one).trans valid'.2))
        | openFile q => exact ⟨nofun, id⟩
        | remove q =>
          refine ⟨fun same => ?_, id⟩
          cases same
          exact spares rfl
        | drop h => exact ⟨nofun, id⟩
      | write h buf => exact ⟨nofun, through h spares⟩
      | seek h pos => exact ⟨nofun, id⟩
      | setLen h size => exact ⟨nofun, through h spares⟩
    | read h buf => exact ⟨nofun, id⟩
    | clone h => exact ⟨nofun, id⟩
    | denyWrite h => exact ⟨nofun, id⟩
  | len h => exact ⟨nofun, id⟩
  | reboot => exact ⟨nofun, id⟩

/-- A path that leads to an inode and what reading its file gives, in terms of the store. -/
theorem readWhole_shown (m : Mounted slots s) (named : find path s.entries = .ok x) :
    (readWhole path s).result = some (.ok (s.store.bytes x)) := by
  obtain ⟨u, read⟩ := m.readWhole_found named
  rw [read, store_bytes m (known_of_live m (.inr ⟨path, store_names.mpr named⟩)).1]
  rfl

/-- The bytes of a file stay through all calls on other files, through reading, opening and
closing it, through calls that fail, and through restarts. -/
theorem file_survives {b : Sys} {made es : List (Event × Reply)} {xs : List UInt8}
    (startable : Startable (capacity % 2 ^ 32) b) (mounted : mount capacity b = .ok () s)
    (fits : Guarded (step capacity) (fun s e => Fits s e.1) s made)
    (first : run (step capacity) s made = some u)
    (meets : Guarded (step capacity) (fun s e => Fits s e.1 ∧ Spares path s e.1) u es)
    (ran : run (step capacity) u es = some t) (there : (readWhole path u).result = some (.ok xs)) :
    (readWhole path t).result = some (.ok xs) := by
  have order := run_inOrder (startable.inOrder mounted) fits first
  obtain ⟨slots, home⟩ := order.2
  cases lookup : find path u.entries with
  | error e =>
    obtain ⟨v, failed⟩ := home.mounted.readWhole_missing lookup
    rw [failed] at there
    cases there
  | ok x =>
    have bytes : u.store.bytes x = xs := by
      rw [readWhole_shown home.mounted lookup] at there
      cases there
      rfl
    have kept : InOrder (capacity % 2 ^ 32) t ∧ t.store.names path = some x ∧
      t.store.bytes x = xs := by
      refine guarded_run_invariant
        (I := fun s => InOrder (capacity % 2 ^ 32) s ∧ s.store.names path =
          some x ∧ s.store.bytes x = xs)
        ?_ ⟨order, store_names.mpr lookup, bytes⟩ meets ran
      rintro v ⟨e, r⟩ w ⟨order, named, same⟩ ⟨fits, spares⟩ stepped
      obtain ⟨does, order'⟩ := event_does order fits (step_eq_some.mp stepped)
      obtain ⟨stays, apart⟩ := spares.apart order.1 (store_names.mp named)
      obtain ⟨named', same'⟩ := does.stays named stays apart
      exact ⟨order', named', same'.trans same⟩
    obtain ⟨⟨-, slots', home'⟩, named, same⟩ := kept
    rw [readWhole_shown home'.mounted (store_names.mp named), same]

instance (path : Path) (s : Sys) : ∀ e, Decidable (Spares path s e)
  | .use (.act (.call (.create q))) => inferInstanceAs (Decidable (q ≠ path))
  | .use (.act (.call (.openFile _))) => .isTrue trivial
  | .use (.act (.call (.remove q))) => inferInstanceAs (Decidable (q ≠ path))
  | .use (.act (.call (.drop _))) => .isTrue trivial
  | .use (.act (.write h _)) =>
    inferInstanceAs (Decidable (find path s.entries ≠ .ok (s.inodes (s.file h).vnode).desc.sector))
  | .use (.act (.seek _ _)) => .isTrue trivial
  | .use (.act (.setLen h _)) =>
    inferInstanceAs (Decidable (find path s.entries ≠ .ok (s.inodes (s.file h).vnode).desc.sector))
  | .use (.read _ _) => .isTrue trivial
  | .use (.clone _) => .isTrue trivial
  | .use (.denyWrite _) => .isTrue trivial
  | .len _ => .isTrue trivial
  | .reboot => .isTrue trivial

def makes : List (Event × Reply) :=
  [(.use (.act (.call (.create [97]))), .handle 1),
    (.use (.act (.write 1 (File.vec [1, 2, 3]))), .count 3)]

/-- Another file is made and written, both are closed, and the machine restarts. -/
def others : List (Event × Reply) :=
  [(.use (.act (.call (.create [98]))), .handle 2),
    (.use (.act (.write 2 (File.vec [4, 5]))), .count 2),
    (.use (.act (.call (.drop 1))), .done), (.use (.act (.call (.drop 2))), .done),
    (.reboot, .done)]

theorem others_spare : ∃ s u t, mount 64 emptyDisk = .ok () s ∧
    Guarded (step 64) (fun s e => Fits s e.1) s makes ∧
    run (step 64) s makes = some u ∧ Guarded (step 64) (fun s e => Fits s e.1 ∧
      Spares [97] s e.1) u others ∧
    run (step 64) u others = some t ∧ (readWhole [97] u).result = some (.ok [1, 2, 3]) ∧
    (readWhole [97] t).result = some (.ok [1, 2, 3]) := by
  have computed : (match mount 64 emptyDisk with
      | .ok () s => decide (Guarded (step 64) (fun s e => Fits s e.1) s makes) &&
        (run (step 64) s makes).any fun u =>
          decide (Guarded (step 64) (fun s e => Fits s e.1 ∧ Spares [97] s e.1) u others) &&
            (run (step 64) u others).isSome &&
            decide ((readWhole [97] u).result = some (.ok [1, 2, 3]))
      | _ => false) = true := by decide +kernel
  split at computed
  · rename_i s mounted
    rw [Bool.and_eq_true, decide_eq_true_iff, Option.any_eq_true] at computed
    obtain ⟨fits, u, first, rest⟩ := computed
    rw [Bool.and_eq_true, Bool.and_eq_true, decide_eq_true_iff, decide_eq_true_iff,
      Option.isSome_iff_exists] at rest
    obtain ⟨⟨meets, t, ran⟩, there⟩ := rest
    exact ⟨s, u, t, mounted, fits, first, meets, ran, there,
      file_survives (.inl blank_emptyDisk) mounted fits first meets ran there⟩
  · cases computed

end DiskFs

end Tacos.Fs
