/- GID: Tacos/Fs/HostFiles
   generality: I
   source: mkfs.c, src/fs/disk.rs, src/fs/disk/free_map.rs, src/fs/disk/inode.rs, src/fs/disk/dir.rs
   digest: The image made from host files is a file system of the kernel, with these files. -/

import Tacos.Fs.Mkfs
import Tacos.Fs.Unmount
import Mathlib.Data.List.TakeWhile

set_option autoImplicit false
set_option relaxedAutoImplicit false

namespace Tacos.Fs

open Tacos.Lib.Bytes Tacos.Lib.Tiling Tacos.Lib.Ownership FreeMap Inode RootDir

namespace Mkfs

/-- Host files that an image can be made from. -/
structure Hosted (files : List HostFile) : Prop where
  few : files.length ≤ maxFiles
  named : ∀ f ∈ files, WellNamed f.name
  distinct : (files.map HostFile.name).Nodup
  noSwap : ∀ f ∈ files, f.name ≠ swapFname
  fits : totalFileNum files.length + roundUp freemapBytes sectorSize +
    roundUp ((files.length + 1 + freeNumber) * 32) sectorSize +
      (files.map fun f => roundUp f.bytes.length sectorSize).sum + roundUp
      swapSpace sectorSize ≤ sectorNum

variable {files : List HostFile} {memory : Nat → UInt8} {x : Nat}

theorem roundUp_sectorSize (n : Nat) : roundUp n sectorSize = (n + 511) / 512 := by
  rw [roundUp, sectorSize, show n + 512 - 1 = n + 511 by omega]

theorem getElem_sizes (h : x < (sizes files).length) :
    (sizes files)[x] = ((lens files).getD x 0 + 511) / 512 := by
  have inside : x < (lens files).length := by rw [length_lens, ← length_sizes]; exact h
  simp only [sizes, List.getElem_map, roundUp_sectorSize]
  rw [List.getD_eq_getElem _ _ inside]

theorem le_start (x : Nat) : totalFileNum files.length ≤ start files x := Nat.le_add_right _ _

theorem end_le_start {x' : Nat} (h : x < x') (bound : x < totalFileNum files.length) :
    start files x + ((lens files).getD x 0 + 511) / 512 ≤ start files x' := by
  have inside : x < (sizes files).length := by rw [length_sizes]; exact bound
  have before := startOf_add_le (totalFileNum files.length) (sizes files) h inside
  rwa [getElem_sizes] at before

theorem used_eq : used files = totalFileNum files.length + roundUp freemapBytes sectorSize +
    roundUp ((files.length + 1 + freeNumber) * 32) sectorSize +
      (files.map fun f => roundUp f.bytes.length sectorSize).sum +
        roundUp swapSpace sectorSize := by
  have total : used files = totalFileNum files.length + (sizes files).sum := by
    rw [used, start, ← length_sizes, startOf_length, length_sizes]
  rw [total, sizes, lens]
  simp only [List.map_append, List.map_cons, List.map_nil, List.map_map, List.sum_append,
    List.sum_cons, List.sum_nil]
  change _ + (_ + (_ + 0) + (files.map fun f => roundUp f.bytes.length sectorSize).sum + (_ + 0)) =
    _
  omega

namespace Hosted

theorem used_le (hosted : Hosted files) : used files ≤ sectorNum := used_eq ▸ hosted.fits

theorem end_le_used (_ : Hosted files) (h : x < totalFileNum files.length) :
    start files x + ((lens files).getD x 0 + 511) / 512 ≤ used files := end_le_start h h

theorem small (hosted : Hosted files) (h : x < totalFileNum files.length) :
    start files x < 2 ^ 32 ∧ (lens files).getD x 0 < 2 ^ 32 := by
  have last := le_trans (hosted.end_le_used h) hosted.used_le
  rw [sectorNum_eq] at last
  omega

end Hosted

theorem length_bytes_content (memory : Nat → UInt8) (x : Nat) :
    ((Part.content x).bytes files memory).length = (lens files).getD x 0 := by
  rw [← length_contents files memory, List.getD_eq_getElem?_getD, List.getElem?_map, Part.bytes,
    List.getD_eq_getElem?_getD]
  cases (contents files memory)[x]? <;> rfl

/-- The sectors of a part. -/
def Part.Spans (files : List HostFile) (p : Part) (y : Nat) : Prop :=
  match p with
  | .inode x => y = x
  | .content x => InRun (start files x) (((lens files).getD x 0 + 511) / 512) y

theorem Part.spans_iff (memory : Nat → UInt8) (p : Part) (y : Nat) : p.Spans files y ↔
    InRun (p.sector files) (((p.bytes files memory).length + 511) / 512) y := by
  cases p with
  | inode x =>
    rw [Part.bytes, length_ondiskInode, Part.sector, Part.Spans, InRun]
    omega
  | content x =>
    rw [length_bytes_content, Part.sector, Part.Spans]

theorem Part.apart {p q : Part} (hp : p.number < totalFileNum files.length)
    (hq : q.number < totalFileNum files.length)
    (ne : p ≠ q) {y : Nat} (inside : p.Spans files y) : ¬q.Spans files y := by
  intro also
  cases p with
  | inode x =>
    obtain rfl : y = x := inside
    cases q with
    | inode x' =>
      obtain rfl : y = x' := also
      exact ne rfl
    | content x' => exact absurd (le_trans (le_start x') also.1) (Nat.not_le.mpr hp)
  | content x =>
    cases q with
    | inode x' =>
      obtain rfl : y = x' := also
      exact absurd (le_trans (le_start x) inside.1) (Nat.not_le.mpr hq)
    | content x' =>
      have low := inside.1
      have high := inside.2
      have low' := also.1
      have high' := also.2
      obtain before | rfl | after := Nat.lt_trichotomy x x'
      · have := end_le_start before hp
        omega
      · exact ne rfl
      · have := end_le_start after hq
        omega

theorem burnt_burn (disk : Nat → Sector) (p : Part) :
    Burnt files memory (burn files memory disk p) p := by
  intro k hk
  rw [burn, fwriteAt, fileByte_overwrite, if_pos ⟨Nat.zero_le k, by omega⟩, Nat.sub_zero]

theorem burn_keeps (disk : Nat → Sector) (p q : Part) (hp : p.number < totalFileNum files.length)
    (hq : q.number < totalFileNum files.length) (ne : p ≠ q) (burnt : Burnt files memory disk p) :
    Burnt files memory (burn files memory disk q) p := by
  intro k hk
  rw [← burnt k hk]
  apply fileByte_congr
  have mine : p.Spans files (p.sector files + k / 512) := by
    rw [Part.spans_iff memory, InRun]
    omega
  have other := Part.apart hp hq ne mine
  rw [Part.spans_iff memory, InRun] at other
  apply overwrite_of_not_mem
  omega

theorem number_lt_of_mem_order {p : Part} (h : p ∈ order files.length) :
    p.number < totalFileNum files.length := by
  rw [order, List.mem_append, List.mem_append] at h
  rw [totalFileNum]
  obtain (first | file) | last := h
  · obtain rfl | rfl : p = .inode 1 ∨ p = .content 1 := by simpa using first
    · exact (show 1 < files.length + 2 + 1 by omega)
    · exact (show 1 < files.length + 2 + 1 by omega)
  · obtain ⟨i, hi, here⟩ := List.mem_flatMap.mp file
    have bound : i < files.length := by simpa using hi
    obtain rfl | rfl : p = .content (i + 2) ∨ p = .inode (i + 2) := by simpa using here
    · exact (show i + 2 < files.length + 2 + 1 by omega)
    · exact (show i + 2 < files.length + 2 + 1 by omega)
  · obtain rfl | rfl | rfl | rfl : p = .content (files.length + 2) ∨ p = .inode (files.length + 2) ∨
        p = .inode 0 ∨ p = .content 0 := by simpa using last
    · exact (show files.length + 2 < files.length + 2 + 1 by omega)
    · exact (show files.length + 2 < files.length + 2 + 1 by omega)
    · exact (show 0 < files.length + 2 + 1 by omega)
    · exact (show 0 < files.length + 2 + 1 by omega)

theorem mem_order (h : x < totalFileNum files.length) :
    Part.inode x ∈ order files.length ∧ Part.content x ∈ order files.length := by
  rw [totalFileNum] at h
  obtain rfl | rfl | rfl | ⟨i, hi, rfl⟩ : x = 0 ∨ x = 1 ∨ x = files.length + 2 ∨
    ∃ i < files.length, x = i + 2 := by
    by_cases file : 2 ≤ x ∧ x < files.length + 2
    · exact .inr (.inr (.inr ⟨x - 2, by omega, by omega⟩))
    · omega
  · simp [order]
  · simp [order]
  · simp [order]
  · have here : ∀ p ∈ [Part.content (i + 2), .inode (i + 2)], p ∈ order files.length := by
      intro p hp
      rw [order, List.mem_append, List.mem_append]
      exact .inl (.inr (List.mem_flatMap.mpr ⟨i, by simpa using hi, hp⟩))
    exact ⟨here _ (by simp), here _ (by simp)⟩

theorem burnt_image (memory : Nat → UInt8) {p : Part} (h : p ∈ order files.length) :
    Burnt files memory (makeDiskImg files memory) p := by
  rw [makeDiskImg_eq]
  exact holds_of_mem (S := fun p => p.number < totalFileNum files.length) burnt_burn burn_keeps
    (fun _ h => number_lt_of_mem_order h) h _

theorem getD_u32 (m : Mem) (n a : Nat) {k : Nat} (h : k < 4) :
    (u32 n).getD k 0 = storeLE m a 4 n (a + k) := by
  rw [storeLE_apply h, u32, List.getD_eq_getElem _ _
    (by rw [List.length_map, List.length_range]; exact h),
    List.getElem_map, List.getElem_range]

theorem getD_ondiskInode (start len : Nat) {k : Nat} (h : k < 512) :
    (ondiskInode start len).getD k 0 =
      (⟨start, len, inodeMagic, fun _ => 0⟩ : DiskInode).toSector ⟨k, h⟩ := by
  rw [DiskInode.toSector]
  by_cases head : k < 12
  · rw [dif_pos head, ondiskInode, List.getD_append _ _ _ _
      (by simp only [List.length_append, length_u32]; omega)]
    change _ = storeLE (storeLE (storeLE (fun _ => 0) 0 4 start) 4 4 len) 8 4 inodeMagic k
    by_cases second : k < 8
    · rw [List.getD_append _ _ _ _ (by simp only [List.length_append, length_u32]; omega),
        storeLE_of_not_mem (by omega)]
      by_cases first : k < 4
      · rw [List.getD_append _ _ _ _ (by rw [length_u32]; exact first),
          storeLE_of_not_mem (by omega),
          getD_u32 (fun _ => 0) _ 0 first, Nat.zero_add]
      · rw [List.getD_append_right _ _ _ _ (by rw [length_u32]; omega), length_u32,
          getD_u32 _ _ 4 (by omega),
          show 4 + (k - 4) = k by omega]
    · rw [List.getD_append_right _ _ _ _ (by simp only [List.length_append, length_u32]; omega)]
      simp only [List.length_append, length_u32]
      rw [getD_u32 _ _ 8 (by omega), show 8 + (k - (4 + 4)) = k by omega]
      rfl
  · rw [dif_neg head, ondiskInode, List.getD_append_right _ _ _ _
      (by simp only [List.length_append, length_u32]; omega)]
    simp only [List.length_append, length_u32]
    rw [List.getD_replicate _ (by omega)]

theorem inodeOn_image (memory : Nat → UInt8) (hosted : Hosted files)
    (h : x < totalFileNum files.length) :
    inodeOn (makeDiskImg files memory) x = ⟨start files x, (lens files).getD x 0,
      inodeMagic, fun _ => 0⟩ := by
  obtain ⟨startLt, lenLt⟩ := hosted.small h
  have burnt := burnt_image memory (mem_order h).1
  have sector : makeDiskImg files memory x =
      (⟨start files x, (lens files).getD x 0, inodeMagic, fun _ => 0⟩ : DiskInode).toSector := by
    funext k
    have byte := burnt k.val (by rw [Part.bytes, length_ondiskInode]; exact k.isLt)
    rw [Part.bytes, getD_ondiskInode _ _ k.isLt, Part.sector, fileByte,
      Nat.div_eq_of_lt k.isLt, Nat.add_zero] at byte
    rw [← byte]
    congr 1
    exact Fin.ext (Nat.mod_eq_of_lt k.isLt).symm
  rw [inodeOn, sector]
  refine DiskInode.ofSector_toSector startLt lenLt ?_
  change inodeMagic < 2 ^ 32
  decide

theorem runOn_image (hosted : Hosted files) (h : x < totalFileNum files.length) (y : Nat) :
    RunOn (makeDiskImg files memory) x y ↔ (Part.content x).Spans files y := by
  rw [RunOn, inodeOn_image memory hosted h, Part.Spans]

theorem bytesFrom_image (memory : Nat → UInt8) (h : x < totalFileNum files.length) :
    bytesFrom (makeDiskImg files memory) (start files x) 0 ((lens files).getD x 0) =
      (contents files memory).getD x [] := by
  have burnt := burnt_image memory (mem_order h).2
  apply List.ext_getElem
  · rw [length_bytesFrom, ← length_bytes_content memory, Part.bytes]
  · intro k hk hk'
    simp only [bytesFrom, List.getElem_map, List.getElem_range, Nat.zero_add]
    rw [← List.getD_eq_getElem _ 0 hk']
    exact burnt k hk'

/-- The map with the first `n` sectors marked. -/
def markedTo (size n : Nat) : FreeMap :=
  (List.range n).foldl (fun m i => m.modifyByte i (· ||| mask i)) (zeros size)

theorem markedTo_spec {size n : Nat} (h : n ≤ size) :
    (markedTo size n).size = size ∧ ∀ y, (markedTo size n).bit y = decide (y < n) := by
  induction n with
  | zero =>
    refine ⟨rfl, fun y => ?_⟩
    rw [markedTo, List.range_zero, List.foldl_nil, bit_zeros, decide_eq_false (Nat.not_lt_zero y)]
  | succ n ih =>
    obtain ⟨sizeEq, bits⟩ := ih (Nat.le_of_succ_le h)
    have step : markedTo size (n + 1) = (markedTo size n).modifyByte n (· ||| mask n) := by
      rw [markedTo, List.range_succ, List.foldl_append]
      rfl
    rw [step]
    refine ⟨sizeEq, fun y => ?_⟩
    rw [bit_set (by rw [sizeEq]; exact h), bits, ← Bool.decide_or]
    congr 1
    exact propext (by omega)

/-- The bytes that `free_map_set` makes are those of the kernel's map. -/
theorem bits_markedTo (size n : Nat) :
    (markedTo size n).bits = (List.range n).foldl freeMapSet
    (List.replicate ((size + 7) / 8) 0) := by
  rw [markedTo]
  exact (List.foldl_hom FreeMap.bits fun _ _ => rfl).symm

theorem mapOn_image (hosted : Hosted files) :
    mapOn sectorNum (makeDiskImg files memory) = markedTo sectorNum (used files) := by
  have zero : 0 < totalFileNum files.length := Nat.succ_pos _
  have inode := inodeOn_image memory hosted zero
  have len : (lens files).getD 0 0 = (sectorNum + 7) / 8 := by
    simp only [lens, List.cons_append, List.getD_cons_zero]
    rfl
  have bytes := bytesFrom_image memory zero
  have content : (contents files memory).getD 0 [] = (markedTo sectorNum (used files)).bits := by
    rw [bits_markedTo]
    simp only [contents, List.cons_append, List.getD_cons_zero]
    rfl
  apply mapOn_eq (markedTo_spec hosted.used_le).1
  rw [← content, ← bytes, len, show freeMapSector = 0 from rfl, inode]

/-- The names in the root directory, in the order of the inode numbers from 2 on. -/
def names (files : List HostFile) : List Path := files.map HostFile.name ++ [swapFname]

theorem wellNamed_swapFname : WellNamed swapFname :=
  ⟨by decide, by decide, by decide, by decide, by decide⟩

theorem length_names (files : List HostFile) : (names files).length = files.length + 1 := by
  rw [names, List.length_append, List.length_map]
  rfl

namespace Hosted

theorem wellNamed (hosted : Hosted files) : ∀ name ∈ names files, WellNamed name := by
  intro name mem
  obtain file | swap := List.mem_append.mp mem
  · obtain ⟨f, hf, rfl⟩ := List.mem_map.mp file
    exact hosted.named f hf
  · rw [List.mem_singleton.mp swap]
    exact wellNamed_swapFname

theorem nodup_names (hosted : Hosted files) : (names files).Nodup := by
  refine List.nodup_append.mpr ⟨hosted.distinct, List.nodup_singleton _, ?_⟩
  intro a ha b hb
  obtain ⟨f, hf, rfl⟩ := List.mem_map.mp ha
  rw [List.mem_singleton.mp hb]
  exact hosted.noSwap f hf

end Hosted

theorem strncpy_eq {name : Path} (named : WellNamed name) :
    strncpy name fileNameLenMax = List.ofFn (entryOf name 0).name := by
  have short := named.short
  have whole : name.takeWhile (· != 0) = name := by
    apply List.takeWhile_eq_self_iff.mpr
    intro b hb
    rw [bne_iff_ne]
    rintro rfl
    exact named.noNul hb
  rw [strncpy, whole, fileNameLenMax]
  apply List.ext_getElem
  · rw [List.length_take, List.length_append, List.length_replicate, List.length_ofFn]
    omega
  · intro k hk hk'
    rw [List.getElem_take, List.getElem_ofFn]
    change _ = name.getD k 0
    rw [List.getElem_append]
    split
    · rename_i inside
      rw [List.getD_eq_getElem _ _ inside]
    · rename_i outside
      rw [List.getElem_replicate, List.getD_eq_default _ _ (by omega)]

theorem ofBytes_dentry {name : Path} (named : WellNamed name) {inum : Nat} (small : inum < 2 ^ 32) :
    DirEntry.ofBytes (dentry name inum) = entryOf name inum := by
  have number : u32 inum = (List.range 4).map (storeLE (fun _ => 0) 0 4 inum) := by
    apply List.map_congr_left
    intro k hk
    have byte := storeLE_apply (m := fun _ => 0) (a := 0) (v := inum) (List.mem_range.mp hk)
    rw [Nat.zero_add] at byte
    exact byte.symm
  have bytes : dentry name inum = (entryOf name inum).toBytes := by
    rw [dentry, strncpy_eq named, number]
    rfl
  rw [bytes]
  exact DirEntry.ofBytes_toBytes small

theorem root_lt : rootDirSector < totalFileNum files.length := by
  change 1 < files.length + 2 + 1
  omega

theorem entriesOn_image (hosted : Hosted files) :
    entriesOn (makeDiskImg files memory) = (dentries files).map DirEntry.ofBytes := by
  have len : (lens files).getD 1 0 = (files.length + 1 + freeNumber) * 32 := by
    simp only [lens, List.cons_append, List.getD_cons_succ, List.getD_cons_zero]
  have content : (contents files memory).getD 1 [] = (dentries files).flatten := by
    simp only [contents, List.cons_append, List.getD_cons_succ, List.getD_cons_zero]
    rfl
  have burnt : Burnt files memory (makeDiskImg files memory) (.content 1) :=
    burnt_image memory (mem_order root_lt).2
  rw [entriesOn, inodeOn_image memory hosted root_lt]
  simp only [rootDirSector, len]
  rw [Nat.mul_div_cancel _ (by decide : 0 < 32), ← length_dentries]
  apply List.ext_getElem
  · rw [List.length_map, List.length_range, List.length_map]
  · intro k hk hk'
    rw [List.length_map] at hk'
    rw [List.getElem_map, List.getElem_range, List.getElem_map, entryAt]
    have blockLength := length_of_mem_dentries _ (List.getElem_mem hk')
    congr 1
    apply List.ext_getElem
    · rw [length_bytesFrom, blockLength]
    · intro j hj hj'
      rw [length_bytesFrom] at hj
      have inside : 32 * k + j < ((Part.content 1).bytes files memory).length := by
        rw [length_bytes_content, len, ← length_dentries]
        omega
      simp only [bytesFrom, List.getElem_map, List.getElem_range]
      refine (burnt (32 * k + j) inside).trans ?_
      rw [Part.bytes, content, List.getD_eq_getElem?_getD,
        getElem_flatten length_of_mem_dentries hk' hj,
        List.getElem?_eq_getElem hj', Option.getD_some]

theorem mem_entriesOn (hosted : Hosted files) {e : DirEntry}
    (he : e ∈ entriesOn (makeDiskImg files memory)) :
    (∃ i, ∃ h : i < (names files).length, e = entryOf (names files)[i] (i + 2)) ∨
      e.isValid = false := by
  rw [entriesOn_image hosted] at he
  obtain ⟨b, hb, rfl⟩ := List.mem_map.mp he
  obtain named | unused := List.mem_append.mp hb
  · obtain ⟨i, hi, rfl⟩ := List.mem_mapIdx.mp named
    have few := hosted.few
    have bound : i < files.length + 1 := (length_names files) ▸ hi
    rw [maxFiles] at few
    exact .inl ⟨i, hi, ofBytes_dentry (hosted.wellNamed _ (List.getElem_mem hi)) (by omega)⟩
  · right
    rw [List.eq_of_mem_replicate unused]
    rfl

theorem entryOf_mem (hosted : Hosted files) {i : Nat} (h : i < (names files).length) :
    entryOf (names files)[i] (i + 2) ∈ entriesOn (makeDiskImg files memory) := by
  rw [entriesOn_image hosted]
  have few := hosted.few
  have bound : i < files.length + 1 := (length_names files) ▸ h
  rw [maxFiles] at few
  rw [← ofBytes_dentry (hosted.wellNamed _ (List.getElem_mem h)) (by omega)]
  apply List.mem_map_of_mem
  exact List.mem_append_left _ (List.mem_mapIdx.mpr ⟨i, h, rfl⟩)

theorem readable_image (hosted : Hosted files) :
    Readable (entriesOn (makeDiskImg files memory)) := by
  intro e he valid
  obtain ⟨i, h, rfl⟩ | unused := mem_entriesOn hosted he
  · have named := hosted.wellNamed _ (List.getElem_mem h)
    rw [cstr_entryOf named]
    exact isUtf8_of_ascii named.ascii
  · rw [unused] at valid
    cases valid

theorem find_name (hosted : Hosted files) {i : Nat} (h : i < (names files).length) :
    find (names files)[i] (entriesOn (makeDiskImg files memory)) = .ok (i + 2) := by
  have named := hosted.wellNamed _ (List.getElem_mem h)
  rw [find_eq (readable_image hosted)]
  cases found : (entriesOn (makeDiskImg files memory)).find? (·.names (names files)[i]) with
  | none =>
    exact absurd (names_entryOf named _) (List.find?_eq_none.mp found _ (entryOf_mem hosted h))
  | some e =>
    have here := List.find?_some found
    rw [DirEntry.names, Bool.and_eq_true, beq_iff_eq] at here
    obtain ⟨j, hj, rfl⟩ | unused := mem_entriesOn hosted (List.mem_of_find?_eq_some found)
    · have same := here.2
      rw [cstr_entryOf (hosted.wellNamed _ (List.getElem_mem hj))] at same
      obtain rfl : j = i := (List.Nodup.getElem_inj_iff hosted.nodup_names).mp same
      rfl
    · rw [unused] at here
      exact absurd here.1 Bool.false_ne_true

theorem mem_names_of_find (hosted : Hosted files) {path : Path}
    (found : find path (entriesOn (makeDiskImg files memory)) = .ok x) : path ∈ names files := by
  obtain ⟨e, he, here, -⟩ := find_ok found
  rw [DirEntry.names, Bool.and_eq_true, beq_iff_eq] at here
  obtain ⟨i, h, rfl⟩ | unused := mem_entriesOn hosted he
  · rw [← here.2, cstr_entryOf (hosted.wellNamed _ (List.getElem_mem h))]
    exact List.getElem_mem h
  · rw [unused] at here
    exact absurd here.1 Bool.false_ne_true

def numbered (files : List HostFile) (x : Nat) : Bool := x < totalFileNum files.length

theorem ownedOn_image (hosted : Hosted files) {y : Nat}
    (mine : y ∈ ownedOn (numbered files) (makeDiskImg files memory) x) :
    x < totalFileNum files.length ∧ ∃ p : Part, p.number = x ∧ p.Spans files y := by
  obtain ⟨known, own⟩ := mine
  have bound := of_decide_eq_true known
  refine ⟨bound, ?_⟩
  obtain rfl | data := own
  · exact ⟨.inode y, rfl, rfl⟩
  · exact ⟨.content x, rfl, (runOn_image hosted bound y).mp data⟩

theorem spans_lt_used (hosted : Hosted files) {p : Part}
    (bound : p.number < totalFileNum files.length) {y : Nat}
    (inside : p.Spans files y) : y < used files := by
  cases p with
  | inode x =>
    obtain rfl : y = x := inside
    exact lt_of_lt_of_le bound (le_start _)
  | content x => exact lt_of_lt_of_le inside.2 (hosted.end_le_used bound)

theorem bit_mapOn (hosted : Hosted files) (y : Nat) :
    (mapOn sectorNum (makeDiskImg files memory)).bit y = decide (y < used files) := by
  rw [mapOn_image hosted, (markedTo_spec hosted.used_le).2]

theorem archive_image (memory : Nat → UInt8) (hosted : Hosted files) :
    Archive (numbered files) sectorNum (makeDiskImg files memory) := by
  have known : ∀ x, numbered files x = true → x < totalFileNum files.length :=
    fun x h => of_decide_eq_true h
  have inode : ∀ x, numbered files x = true → inodeOn (makeDiskImg files memory) x = _ :=
    fun x h => inodeOn_image memory hosted (known x h)
  have zero : numbered files freeMapSector = true := decide_eq_true (Nat.succ_pos _)
  refine ⟨by
    rw [sectorNum_eq]; norm_num, ?_, ⟨?_, ?_⟩, ?_, ?_, ?_, zero, ?_, decide_eq_true root_lt,
    readable_image hosted, ?_⟩
  · intro y hy
    rw [bit_mapOn hosted, decide_eq_true_eq] at hy
    exact lt_of_lt_of_le hy hosted.used_le
  · intro x x' ne y hy hy'
    obtain ⟨bound, p, number, inside⟩ := ownedOn_image hosted hy
    obtain ⟨bound', q, number', also⟩ := ownedOn_image hosted hy'
    refine Part.apart (number ▸ bound) (number' ▸ bound') ?_ inside also
    rintro rfl
    exact ne (number.symm.trans number')
  · intro x y hy
    obtain ⟨bound, p, number, inside⟩ := ownedOn_image hosted hy
    change (mapOn sectorNum (makeDiskImg files memory)).bit y = true
    rw [bit_mapOn hosted]
    exact decide_eq_true (spans_lt_used hosted (number ▸ bound) inside)
  · intro x h
    rw [inode x h]
  · intro x h
    rw [inode x h]
    exact le_trans (hosted.end_le_used (known x h)) hosted.used_le
  · intro x h inside
    rw [runOn_image hosted (known x h)] at inside
    exact Part.apart (p := .content x) (q := .inode x) (known x h) (known x h) (by simp) inside rfl
  · rw [inode _ zero]
    simp only [lens, freeMapSector, List.cons_append, List.getD_cons_zero]
    rfl
  · intro e he valid
    obtain ⟨i, h, rfl⟩ | unused := mem_entriesOn hosted he
    · rw [length_names] at h
      refine ⟨decide_eq_true ?_, ?_, ?_⟩
      · change i + 2 < files.length + 2 + 1
        omega
      · exact Nat.succ_ne_zero _
      · change i + 2 ≠ 1
        omega
    · rw [unused] at valid
      cases valid

theorem mount_image (hosted : Hosted files) {b : Sys} (idle : b.held = [])
    (disk : b.disk = makeDiskImg files memory) :
    DiskFs.mount sectorNum b = .ok () (b.loaded sectorNum) := by
  have archive := archive_image memory hosted
  have size : sectorNum % 2 ^ 32 = sectorNum := by
    rw [sectorNum_eq]
    norm_num
  have loads := mount_loads sectorNum idle (by rw [disk]; exact archive.magic _ archive.map)
    (by rw [disk, size]; exact archive.mapLen) (by rw [disk]; exact archive.magic _ archive.root)
  rwa [size] at loads

/-- What the kernel has of host files: they and the swap file can be opened, with the host's
bytes, and the sectors that the map has marked are those of the inodes and of their data, each of
one only. -/
structure Served (files : List HostFile) (t : Sys) : Prop where
  opens : ∀ path, (∃ h u, DiskFs.openFile path t = .ok h u) ↔
    path ∈ files.map HostFile.name ∨ path = swapFname
  bytes : ∀ f ∈ files, (DiskFs.readWhole f.name t).result = some (.ok f.bytes)
  swap : ∃ bytes, (DiskFs.readWhole swapFname t).result = some (.ok bytes) ∧
    bytes.length = 4 * 2 ^ 20
  marked : ∀ y, t.freeMap.bit y = true ↔ y < files.length + 3 ∨
    ∃ x < files.length + 3, RunOn t.disk x y
  behind : ∀ x < files.length + 3, ∀ y, RunOn t.disk x y → files.length + 3 ≤ y
  apart : ∀ x < files.length + 3, ∀ x' < files.length + 3, x ≠ x' →
    ∀ y, RunOn t.disk x y → ¬RunOn t.disk x' y

theorem readWhole_name (hosted : Hosted files) {b : Sys} (idle : b.held = [])
    (disk : b.disk = makeDiskImg files memory) {i : Nat} (h : i < (names files).length) :
    (DiskFs.readWhole (names files)[i] (b.loaded sectorNum)).result =
      some (.ok ((contents files memory).getD (i + 2) [])) := by
  have archive := archive_image memory hosted
  rw [← disk] at archive
  have mounted := loaded_mounted archive idle
  have found : find (names files)[i] (b.loaded sectorNum).entries = .ok (i + 2) := by
    rw [loaded_entries, disk]
    exact find_name hosted h
  obtain ⟨u, read⟩ := mounted.readWhole_found found
  have bound : i + 2 < totalFileNum files.length := by
    rw [length_names] at h
    rw [totalFileNum]
    omega
  have slot : archived (numbered files) (b.nextInode + 1) (i + 2) = some .closed :=
    archived_closed (by rw [rootDirSector]; omega) (decide_eq_true bound)
  have data : (Store.mk (b.loaded sectorNum) (archived (numbered files) (b.nextInode + 1))).data
    (i + 2) =
      inodeOn (makeDiskImg files memory) (i + 2) :=
      (Store.data_closed slot).trans (by rw [← disk]; rfl)
  have content : content (archived (numbered files) (b.nextInode + 1))
    (b.loaded sectorNum) (i + 2) =
      (contents files memory).getD (i + 2) [] := by
    rw [content, data, inodeOn_image memory hosted bound]
    change bytesFrom b.disk _ 0 _ = _
    rw [disk]
    exact bytesFrom_image memory bound
  rw [read, content]
  rfl

/-- The kernel loads the image of host files as it was meant. -/
theorem image_served (hosted : Hosted files) {b : Sys} (idle : b.held = [])
    (disk : b.disk = makeDiskImg files memory) :
    DiskFs.mount sectorNum b = .ok () (b.loaded sectorNum) ∧ Served files (b.loaded sectorNum) := by
  have archive := archive_image memory hosted
  rw [← disk] at archive
  have mounted := loaded_mounted archive idle
  have same : (b.loaded sectorNum).disk = makeDiskImg files memory := disk
  refine ⟨mount_image hosted idle disk, ?_, ?_, ?_, ?_, ?_, ?_⟩
  · intro path
    have listed : path ∈ files.map HostFile.name ∨ path = swapFname ↔ path ∈ names files := by
      rw [names, List.mem_append, List.mem_singleton]
    rw [listed]
    constructor
    · rintro ⟨h, u, opened⟩
      cases found : find path (b.loaded sectorNum).entries with
      | ok x =>
        rw [loaded_entries, disk] at found
        exact mem_names_of_find hosted found
      | error e =>
        obtain ⟨p, failed⟩ := mounted.openFile_missing found
        rw [failed] at opened
        cases opened
    · intro mem
      obtain ⟨i, h, rfl⟩ := List.getElem_of_mem mem
      have found : find (names files)[i] (b.loaded sectorNum).entries = .ok (i + 2) := by
        rw [loaded_entries, disk]
        exact find_name hosted h
      obtain ⟨p, opened⟩ := mounted.openFile_found found
      exact ⟨_, _, opened⟩
  · intro f hf
    obtain ⟨i, h, rfl⟩ := List.getElem_of_mem hf
    have inside : i < (names files).length := by
      rw [length_names]
      omega
    have name : (names files)[i] = files[i].name := by
      simp only [names]
      rw [List.getElem_append_left (by rw [List.length_map]; exact h), List.getElem_map]
    have read := readWhole_name hosted idle disk inside
    rwa [name, contents_file h] at read
  · have inside : files.length < (names files).length := by
      rw [length_names]
      exact Nat.lt_succ_self _
    have name : (names files)[files.length] = swapFname := by
      simp only [names]
      rw [List.getElem_append_right (by rw [List.length_map])]
      simp
    have read := readWhole_name hosted idle disk inside
    rw [name, contents_swap] at read
    refine ⟨swapContent memory, read, ?_⟩
    rw [swapContent, List.length_map, List.length_range]
    rfl
  · intro y
    change (mapOn sectorNum b.disk).bit y = true ↔ _
    rw [disk, bit_mapOn hosted, decide_eq_true_eq, same]
    constructor
    · intro inside
      by_cases first : y < files.length + 3
      · exact .inl first
      · obtain ⟨x, bound, before, low, high⟩ := exists_run (totalFileNum files.length) (sizes files)
          (Nat.le_of_not_lt first) inside (by rw [length_sizes])
        rw [getElem_sizes bound] at high
        exact .inr ⟨x, before, (runOn_image hosted before y).mpr ⟨low, high⟩⟩
    · rintro (first | ⟨x, bound, inside⟩)
      · exact lt_of_lt_of_le first (le_start _)
      · exact spans_lt_used hosted (p := .content x) bound ((runOn_image hosted bound y).mp inside)
  · intro x bound y inside
    rw [same, runOn_image hosted bound] at inside
    exact le_trans (le_start x) inside.1
  · intro x bound x' bound' ne y inside also
    rw [same, runOn_image hosted bound] at inside
    rw [same, runOn_image hosted bound'] at also
    refine Part.apart (p := .content x) (q := .content x') bound bound' ?_ inside also
    simpa using ne

def twoFiles : List HostFile := [⟨[97], [1, 2, 3]⟩, ⟨[98], []⟩]

theorem two_files_served : DiskFs.mount sectorNum
    { Store.emptyDisk with disk := makeDiskImg twoFiles fun _ => 0 } =
    .ok () (Sys.loaded { Store.emptyDisk with disk := makeDiskImg twoFiles fun _ => 0 } sectorNum) ∧
      Served twoFiles (Sys.loaded { Store.emptyDisk with disk := makeDiskImg twoFiles fun _ => 0 }
        sectorNum) := by
  refine image_served ⟨by decide, ?_, by decide, by decide, by decide⟩ rfl rfl
  intro f hf
  obtain rfl | rfl : f = ⟨[97], [1, 2, 3]⟩ ∨ f = ⟨[98], []⟩ := by simpa [twoFiles] using hf
  · exact ⟨by decide, by decide, by decide, by decide, by decide⟩
  · exact ⟨by decide, by decide, by decide, by decide, by decide⟩

end Mkfs

end Tacos.Fs
