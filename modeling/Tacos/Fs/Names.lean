/- GID: Tacos/Fs/Names
   generality: I
   source: src/fs/disk/dir.rs, src/fs/disk/path.rs
   digest: The root directory as a list of entries: lookups, and what each change does to them. -/

import Mathlib.Data.List.TakeWhile
import Tacos.Fs.Mount

set_option autoImplicit false
set_option relaxedAutoImplicit false

namespace Tacos.Fs

open Tacos.Lib.Exec Tacos.Lib.Ownership FreeMap Inode RootDir

/-- A name that a directory entry can hold: ASCII without NUL, of 1 to 27 bytes and not marked as
invalid by its first one. -/
structure WellNamed (path : Path) : Prop where
  some : path ≠ []
  short : path.length ≤ 27
  ascii : isAscii path = true
  noNul : 0 ∉ path
  noMark : path.getD 0 0 ≠ DirEntry.tombstone

theorem wellNamed_a : WellNamed [97] := ⟨by decide, by decide, by decide, by decide, by decide⟩

theorem isUtf8_of_ascii {path : Path} (ascii : isAscii path = true) : isUtf8 path = true := by
  rw [isUtf8]
  induction path with
  | nil => rfl
  | cons b rest ih =>
    rw [isAscii, List.all_cons, Bool.and_eq_true] at ascii
    have small : b.toNat < 0x80 := UInt8.lt_iff_toNat_lt.mp (of_decide_eq_true ascii.1)
    rw [isUtf8From]
    simp only [if_true, if_pos small]
    exact ih ascii.2

/-- An entry that is made of at most 27 bytes holds them up to the first NUL. -/
theorem cstr_entryOf_of_short {path : Path} (short : path.length ≤ 27) (inum : Nat) :
    (entryOf path inum).cstr = path.takeWhile (· != 0) := by
  have bytes : List.ofFn (entryOf path inum).name = path ++ List.replicate
    (28 - path.length) 0 := by
    apply List.ext_getElem
    · rw [List.length_ofFn, List.length_append, List.length_replicate]
      omega
    · intro k hk hk'
      rw [List.getElem_ofFn]
      change path.getD k 0 = _
      rw [List.getElem_append]
      split
      · rename_i inside
        rw [List.getD_eq_getElem _ _ inside]
      · rename_i outside
        rw [List.getElem_replicate, List.getD_eq_default _ _ (by omega)]
  have rest : List.replicate (28 - path.length) (0 : UInt8) = 0 :: List.replicate
    (27 - path.length) 0 := by
    rw [← List.replicate_succ]
    congr 1
    omega
  have stop : ∀ p l : List UInt8, (p ++ 0 :: l).takeWhile (· != 0) = p.takeWhile (· != 0) := by
    intro p l
    induction p with
    | nil => rfl
    | cons b p ih => rw [List.cons_append, List.takeWhile_cons, List.takeWhile_cons, ih]
  rw [DirEntry.cstr, DirEntry.toBytes, bytes, List.append_assoc, rest, List.cons_append, stop]

theorem cstr_entryOf {path : Path} (named : WellNamed path) (inum : Nat) :
    (entryOf path inum).cstr = path := by
  rw [cstr_entryOf_of_short named.short, List.takeWhile_eq_self_iff]
  intro b hb
  rw [bne_iff_ne]
  rintro rfl
  exact named.noNul hb

theorem isValid_entryOf {path : Path} (named : WellNamed path) (inum : Nat) :
    (entryOf path inum).isValid = true := by
  have first : (entryOf path inum).name 0 = path.getD 0 0 := rfl
  have pos : 0 < path.length := List.length_pos_iff.mpr named.some
  have nonzero : path.getD 0 0 ≠ 0 := by
    rw [List.getD_eq_getElem _ _ pos]
    intro zero
    exact named.noNul (zero ▸ List.getElem_mem pos)
  rw [DirEntry.isValid, first, Bool.and_eq_true, bne_iff_ne, bne_iff_ne]
  exact ⟨named.noMark, nonzero⟩

theorem not_isValid_invalidate (e : DirEntry) : e.invalidate.isValid = false := by
  rw [DirEntry.isValid, DirEntry.invalidate]
  simp

/-- Whether an entry is the one of a path. -/
def DirEntry.names (e : DirEntry) (path : Path) : Bool := e.isValid && e.cstr == path

theorem names_entryOf {path : Path} (named : WellNamed path) (inum : Nat) :
    (entryOf path inum).names path = true := by
  rw [DirEntry.names, isValid_entryOf named, cstr_entryOf named, Bool.true_and, beq_self_eq_true]

def Readable (es : List DirEntry) : Prop := ∀ e ∈ es, e.isValid = true → isUtf8 e.cstr = true

/-- A lookup that passes readable entries has its answer from them or behind them. -/
theorem find_append {as : List DirEntry} (readable : Readable as)
    (path : Path) (bs : List DirEntry) :
    find path (as ++ bs) = match as.find? (·.names path) with
      | some e => .ok e.inum
      | none => find path bs := by
  induction as with
  | nil => rfl
  | cons e as ih =>
    have rest := ih fun e' he' => readable e' (List.mem_cons_of_mem e he')
    rw [List.cons_append, find, List.find?_cons]
    by_cases valid : e.isValid = true
    · rw [if_pos valid, if_pos (readable e List.mem_cons_self valid)]
      by_cases here : path = e.cstr
      · have names : e.names path = true := by
          rw [DirEntry.names, valid, here, Bool.true_and, beq_self_eq_true]
        rw [if_pos here, names]
      · have names : e.names path = false := by
          rw [DirEntry.names, valid, Bool.true_and, beq_eq_false_iff_ne]
          exact Ne.symm here
        rw [if_neg here, names, rest]
    · have names : e.names path = false := by
        rw [DirEntry.names, Bool.eq_false_iff.mpr valid, Bool.false_and]
      rw [if_neg valid, names, rest]

theorem find_unreadable {as bs : List DirEntry} {path : Path} (unreadable : ¬Readable as)
    (fresh : ∀ e ∈ as, ¬e.names path = true) :
    find path (as ++ bs) = .error .cstrFormatErr := by
  induction as with
  | nil => exact absurd (fun e he => absurd he List.not_mem_nil) unreadable
  | cons e as ih =>
    have rest : ¬Readable as → find path (as ++ bs) = .error .cstrFormatErr :=
      fun bad => ih bad fun e' he' => fresh e' (List.mem_cons_of_mem e he')
    rw [List.cons_append, find]
    by_cases valid : e.isValid = true
    · rw [if_pos valid]
      by_cases utf8 : isUtf8 e.cstr = true
      · have other : path ≠ e.cstr := by
          intro here
          apply fresh e List.mem_cons_self
          rw [DirEntry.names, valid, here, Bool.true_and, beq_self_eq_true]
        rw [if_pos utf8, if_neg other]
        apply rest
        intro readable
        apply unreadable
        intro e' he' valid'
        obtain rfl | later := List.mem_cons.mp he'
        · exact utf8
        · exact readable e' later valid'
      · rw [if_neg utf8]
    · rw [if_neg valid]
      apply rest
      intro readable
      apply unreadable
      intro e' he' valid'
      obtain rfl | later := List.mem_cons.mp he'
      · exact absurd valid' valid
      · exact readable e' later valid'

/-- In a readable directory a lookup finds the first entry of the path. -/
theorem find_eq {es : List DirEntry} (readable : Readable es) (path : Path) :
    find path es = match es.find? (·.names path) with
      | some e => .ok e.inum
      | none => .error .noSuchFile := by
  have whole := find_append readable path []
  rwa [List.append_nil] at whole

theorem find_ok {es : List DirEntry} {path : Path} {inum : Nat} (found : find path es = .ok inum) :
    ∃ e ∈ es, e.names path = true ∧ e.inum = inum := by
  induction es with
  | nil => cases found
  | cons e es ih =>
    have later : find path es = .ok inum → ∃ e' ∈ e :: es,
      e'.names path = true ∧ e'.inum = inum := by
      intro h
      obtain ⟨e', he', rest⟩ := ih h
      exact ⟨e', List.mem_cons_of_mem e he', rest⟩
    rw [find] at found
    split at found
    · rename_i valid
      split at found
      · split at found
        · rename_i here
          refine ⟨e, List.mem_cons_self, ?_, Except.ok.inj found⟩
          rw [DirEntry.names, valid, here, Bool.true_and, beq_self_eq_true]
        · exact later found
      · cases found
    · exact later found

/-- What is in a directory without the path when an entry of it is put into an unused place. -/
theorem find_set {es : List DirEntry} (readable : Readable es) {path : Path}
    (named : WellNamed path) {e : OsError}
    (missing : find path es = .error e) {i : Nat}
    (slot : es.findIdx? (fun e => !e.isValid) = some i) (inum : Nat) :
    find path (es.set i (entryOf path inum)) = .ok inum := by
  have bound : i < es.length := (List.findIdx?_eq_some_iff_findIdx_eq.mp slot).1
  have readable' : Readable (es.set i (entryOf path inum)) := by
    intro e he valid
    obtain old | rfl := List.mem_or_eq_of_mem_set he
    · exact readable e old valid
    · rw [cstr_entryOf named]
      exact isUtf8_of_ascii named.ascii
  have none : ∀ e ∈ es, ¬e.names path = true := by
    rw [find_eq readable] at missing
    split at missing
    · cases missing
    · rename_i nothing
      exact List.find?_eq_none.mp nothing
  have there : entryOf path inum ∈ es.set i (entryOf path inum) := List.mem_set bound _
  rw [find_eq readable']
  cases found : (es.set i (entryOf path inum)).find? (·.names path) with
  | none => exact absurd (names_entryOf named inum) (List.find?_eq_none.mp found _ there)
  | some e =>
    have names := List.find?_some found
    obtain old | rfl := List.mem_or_eq_of_mem_set (List.mem_of_find?_eq_some found)
    · exact absurd names (none e old)
    · rfl

variable {slots slots' : Slots} {s t : Sys}

theorem entries_congr (len : (t.inodeOf 0).data.len = (s.inodeOf 0).data.len)
    (bytes : ∀ i < (s.inodeOf 0).data.len,
      fileByte t.disk (t.inodeOf 0).data.start i = fileByte s.disk (s.inodeOf 0).data.start i) :
    t.entries = s.entries := by
  rw [Sys.entries, Sys.entries, len]
  apply List.map_congr_left
  intro k hk
  rw [List.mem_range] at hk
  apply entryAt_congr
  intro i hi
  exact bytes (32 * k + i) (by omega)

/-- A step that leaves the root directory alone leaves its entries alone. -/
theorem Local.entries {X : Set Nat} (loc : Local slots slots' s t X)
    (sound : Sound slots s) (out : 1 ∉ X)
    (file : (t.file 0).vnode = (s.file 0).vnode) : t.entries = s.entries := by
  have root := sound.root.slot
  have inode : t.inodeOf 0 = s.inodeOf 0 := by
    rw [Sys.inodeOf, file]
    exact loc.inode 1 out _ root
  refine entries_congr (by rw [inode]) ?_
  intro i hi
  rw [inode]
  refine fileByte_congr (loc.disk 1 out _ ((mem_owned_opened root _).mpr (.inr ?_)))
  refine ⟨Nat.le_add_right _ _, Nat.add_lt_add_left ?_ _⟩
  change i / 512 < (s.inodeOf 0).sectors
  rw [Inode.sectors, Inode.total]
  omega

theorem entries_wrote {i : Nat} {e : DirEntry} (small : e.inum < 2 ^ 32) :
    (s.wrote (s.inodeOf 0).data.start (32 * i) e.toBytes).entries = s.entries.set i e := by
  apply List.ext_getElem
  · rw [length_entries, List.length_set, length_entries]
    rfl
  · intro k hk hk'
    rw [List.getElem_set]
    simp only [Sys.entries, List.getElem_map, List.getElem_range]
    change entryAt (overwrite s.disk (s.inodeOf 0).data.start (32 * i) e.toBytes)
      (s.inodeOf 0).data.start k = _
    rw [entryAt_overwrite _ _ _ _ small]
    by_cases here : k = i
    · rw [if_pos here, if_pos here.symm]
    · rw [if_neg here, if_neg (Ne.symm here)]

theorem entryAt_inum_lt (d : Nat → Sector) (start k : Nat) : (entryAt d start k).inum < 2 ^ 32 := by
  have words : (256 : Nat) ^ 4 = 2 ^ 32 := by norm_num
  rw [← words]
  exact Tacos.Lib.Bytes.loadLE_lt (fun i => (bytesFrom d start (32 * k) 32).getD i 0) 28 4

/-- An entry without its inode number, if it has this one. -/
def DirEntry.strike (inum : Nat) (e : DirEntry) : DirEntry :=
  if e.inum = inum then e.invalidate else e

theorem entryAt_struck (d : Nat → Sector) (start inum : Nat) {k n : Nat} (h : k < n) :
    entryAt (struck d start inum 0 n) start k = (entryAt d start k).strike inum := by
  have bytes : ∀ i < 32, fileByte (struck d start inum 0 n) start (32 * k + i) =
      if i = 0 ∧ (entryAt d start k).inum = inum then DirEntry.tombstone else fileByte d
        start (32 * k + i) := by
    intro i hi
    rw [fileByte_struck, show (32 * k + i) / 32 = k by omega]
    refine if_congr ?_ rfl rfl
    constructor
    · exact fun h => ⟨by omega, h.2.2.2⟩
    · exact fun h => ⟨by omega, Nat.zero_le _, ‹_›, h.2⟩
  rw [DirEntry.strike]
  by_cases here : (entryAt d start k).inum = inum
  · rw [if_pos here]
    -- The bytes of the struck entry are those of the entry with its first byte replaced.
    have same : bytesFrom (struck d start inum 0 n) start
      (32 * k) 32 = (entryAt d start k).invalidate.toBytes := by
      apply List.ext_getElem
      · rw [length_bytesFrom, DirEntry.length_toBytes]
      · intro i hi hi'
        rw [length_bytesFrom] at hi
        rw [← List.getD_eq_getElem _ 0 hi', DirEntry.toBytes_invalidate _ hi]
        simp only [bytesFrom, List.getElem_map, List.getElem_range]
        rw [bytes i hi]
        by_cases first : i = 0
        · rw [if_pos ⟨first, here⟩, if_pos first]
        · rw [if_neg (fun h => first h.1), if_neg first, entryAt, DirEntry.toBytes_ofBytes _ hi,
            List.getD_eq_getElem _ _ (by rw [length_bytesFrom]; exact hi)]
          simp only [bytesFrom, List.getElem_map, List.getElem_range]
    rw [entryAt, same]
    exact DirEntry.ofBytes_toBytes
      (by rw [DirEntry.invalidate_inum]; exact entryAt_inum_lt d start k)
  · rw [if_neg here]
    apply entryAt_congr
    intro i hi
    rw [bytes i hi, if_neg fun h => here h.2]

theorem entries_strike (s : Sys) (inum : Nat) :
    (s.strike inum 0).entries = s.entries.map (DirEntry.strike inum) := by
  apply List.ext_getElem
  · rw [length_entries, List.length_map, length_entries]
    rfl
  · intro k hk hk'
    rw [List.getElem_map]
    simp only [Sys.entries, List.getElem_map, List.getElem_range]
    rw [length_entries] at hk
    exact entryAt_struck _ _ _ hk

/-- A valid entry of a directory with a number struck out is an old one of another number. -/
theorem mem_map_strike {es : List DirEntry} {inum : Nat} {e : DirEntry}
    (he : e ∈ es.map (DirEntry.strike inum))
    (valid : e.isValid = true) : e ∈ es ∧ e.inum ≠ inum := by
  obtain ⟨old, hold, rfl⟩ := List.mem_map.mp he
  rw [DirEntry.strike] at valid ⊢
  split at valid
  · rw [not_isValid_invalidate] at valid
    cases valid
  · rename_i ne
    rw [if_neg ne]
    exact ⟨hold, ne⟩

end Tacos.Fs
