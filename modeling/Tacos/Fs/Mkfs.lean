/- GID: Tacos/Fs/Mkfs
   generality: I
   source: mkfs.c
   digest: The disk image that is made from host files, and where each inode and its data are in
     it. -/

import Tacos.Fs.Names
import Tacos.Lib.Tiling

set_option autoImplicit false
set_option relaxedAutoImplicit false

namespace Tacos.Fs

open Tacos.Lib.Bytes Tacos.Lib.Tiling FreeMap Inode

namespace Mkfs

/-- `ROUNDUP`. -/
def roundUp (n div : Nat) : Nat := (n + div - 1) / div

/-- `TOTAL_FILE_NUM`: the free map, the root directory and the swap file are added. -/
def totalFileNum (objFileNum : Nat) : Nat := objFileNum + 2 + 1

def sectorSize : Nat := 512
def fileNameLenMax : Nat := 28
def maxFiles : Nat := 200
def magic : Nat := 0x494e4f44
def diskSize : Nat := 10 <<< 20
def sectorNum : Nat := roundUp diskSize sectorSize
def freemapBytes : Nat := roundUp sectorNum 8
def swapSpace : Nat := 4 <<< 20
def freeNumber : Nat := 10

/-- `".glbswap"`. -/
def swapFname : Path := [46, 103, 108, 98, 115, 119, 97, 112]

/-- An entry of `filenames` and the file of the host under the same index of `files`. -/
structure HostFile where
  name : Path
  bytes : List UInt8

/-- The bytes of a `uint32_t`. -/
def u32 (n : Nat) : List UInt8 := (List.range 4).map fun i => UInt8.ofNat (n / 256 ^ i)

/-- The bytes of a `struct ondisk_inode`. -/
def ondiskInode (start len : Nat) : List UInt8 :=
  u32 start ++ u32 len ++ u32 magic ++ List.replicate 500 0

/-- `strncpy` into zeroed memory. -/
def strncpy (src : List UInt8) (n : Nat) : List UInt8 :=
  (src.takeWhile (· != 0) ++ List.replicate n 0).take n

/-- The bytes of a `struct dentry`. -/
def dentry (name : Path) (inum : Nat) : List UInt8 := strncpy name fileNameLenMax ++ u32 inum

/-- `free_map_set`. -/
def freeMapSet (freeMap : List UInt8) (idx : Nat) : List UInt8 :=
  freeMap.modify (idx / 8) (· ||| 1 <<< UInt8.ofNat (idx % 8))

/-- `fseek` to a sector and `fwrite`. -/
def fwriteAt (disk : Nat → Sector) (sector : Nat) (bytes : List UInt8) :
    Nat → Sector := overwrite disk sector 0 bytes

/-- The entries of the host files, that of the swap file and unused ones. -/
def rootDirContent (files : List HostFile) : List UInt8 :=
  ((files.map HostFile.name ++ [swapFname]).mapIdx (fun i name => dentry name (i + 2)) ++
    List.replicate freeNumber (List.replicate 32 0)).flatten

/-- The loop over the host files: the next sector and the disk. -/
def copyFiles : (i current : Nat) → List HostFile → (Nat → Sector) → Nat × (Nat → Sector)
  | _, current, [], disk => (current, disk)
  | i, current, f :: files, disk =>
    let disk := fwriteAt disk current f.bytes
    let disk := fwriteAt disk (i + 2) (ondiskInode current f.bytes.length)
    copyFiles (i + 1) (current + roundUp f.bytes.length sectorSize) files disk

/-- What is written for the swap file: 8192 times 512 bytes from a buffer of 512 bytes, so that
most of it is whatever lies behind the buffer. -/
def swapContent (memory : Nat → UInt8) : List UInt8 :=
  (List.range (roundUp swapSpace sectorSize * sectorSize)).map memory

def makeDiskImg (files : List HostFile) (memory : Nat → UInt8) : Nat → Sector :=
  let fileNumber := files.length
  let freeMapContentStart := totalFileNum fileNumber
  let rootContentStart := freeMapContentStart + roundUp freemapBytes sectorSize
  let rootContentLen := (fileNumber + 1 + freeNumber) * 32
  let disk := fwriteAt (fun _ _ => 0) rootDirSector (ondiskInode rootContentStart rootContentLen)
  let disk := fwriteAt disk rootContentStart (rootDirContent files)
  let (current, disk) := copyFiles 0
    (rootContentStart + roundUp rootContentLen sectorSize) files disk
  let disk := fwriteAt disk current (swapContent memory)
  let disk := fwriteAt disk (fileNumber + 2) (ondiskInode current swapSpace)
  let current := current + roundUp swapSpace sectorSize
  let freeMap := (List.range current).foldl freeMapSet (List.replicate freemapBytes 0)
  let disk := fwriteAt disk freeMapSector (ondiskInode freeMapContentStart freemapBytes)
  fwriteAt disk freeMapContentStart freeMap

theorem sectorNum_eq : sectorNum = 20480 := rfl

/-- The lengths of the files, by inode number. -/
def lens (files : List HostFile) : List Nat :=
  [freemapBytes, (files.length + 1 + freeNumber) * 32] ++ files.map (·.bytes.length) ++ [swapSpace]

/-- The sectors of the files, by inode number. -/
def sizes (files : List HostFile) : List Nat := (lens files).map (roundUp · sectorSize)

/-- The first data sector of a file, by inode number. -/
def start (files : List HostFile) (x : Nat) :
    Nat := startOf (totalFileNum files.length) (sizes files) x

def used (files : List HostFile) : Nat := start files (totalFileNum files.length)

variable {files : List HostFile} {memory : Nat → UInt8}

@[simp] theorem length_lens : (lens files).length = totalFileNum files.length := by
  rw [lens, List.length_append, List.length_append, List.length_map]
  change 2 + files.length + 1 = files.length + 2 + 1
  omega

@[simp] theorem length_sizes : (sizes files).length = totalFileNum files.length := by
  rw [sizes, List.length_map, length_lens]

def freeMapContent (files : List HostFile) : List UInt8 :=
  (List.range (used files)).foldl freeMapSet (List.replicate freemapBytes 0)

/-- The contents of the files, by inode number. -/
def contents (files : List HostFile) (memory : Nat → UInt8) : List (List UInt8) :=
  [freeMapContent files, rootDirContent files] ++ files.map HostFile.bytes ++ [swapContent memory]

@[simp] theorem length_u32 (n : Nat) : (u32 n).length = 4 := rfl

@[simp] theorem length_ondiskInode (start len : Nat) : (ondiskInode start len).length = 512 := by
  simp only [ondiskInode, List.length_append, length_u32, List.length_replicate]

@[simp] theorem length_dentry (name : Path) (inum : Nat) : (dentry name inum).length = 32 := by
  rw [dentry, strncpy, List.length_append, List.length_take, List.length_append,
    List.length_replicate, length_u32]
  rw [Nat.min_eq_left (Nat.le_add_left _ _), fileNameLenMax]

theorem length_foldl_freeMapSet (idxs : List Nat) (freeMap : List UInt8) :
    (idxs.foldl freeMapSet freeMap).length = freeMap.length := by
  induction idxs generalizing freeMap with
  | nil => rfl
  | cons idx idxs ih => rw [List.foldl_cons, ih, freeMapSet, List.length_modify]

/-- The entries of the root directory as they are written. -/
def dentries (files : List HostFile) : List (List UInt8) :=
  (files.map HostFile.name ++ [swapFname]).mapIdx (fun i name => dentry name (i + 2)) ++
    List.replicate freeNumber (List.replicate 32 0)

theorem length_of_mem_dentries : ∀ b ∈ dentries files, b.length = 32 := by
  intro b hb
  obtain named | unused := List.mem_append.mp hb
  · obtain ⟨i, hi, rfl⟩ := List.mem_mapIdx.mp named
    exact length_dentry _ _
  · rw [List.eq_of_mem_replicate unused, List.length_replicate]

theorem length_dentries : (dentries files).length = files.length + 1 + freeNumber := by
  rw [dentries, List.length_append, List.length_mapIdx, List.length_append,
    List.length_map, List.length_replicate]
  rfl

theorem length_rootDirContent : (rootDirContent files).length =
    (files.length + 1 + freeNumber) * 32 := by
  rw [← length_dentries, Nat.mul_comm]
  exact length_flatten length_of_mem_dentries

theorem length_contents (files : List HostFile) (memory : Nat → UInt8) :
    (contents files memory).map List.length = lens files := by
  have map : (freeMapContent files).length = freemapBytes := by
    rw [freeMapContent, length_foldl_freeMapSet, List.length_replicate]
  have swap : (swapContent memory).length = swapSpace := by
    rw [swapContent, List.length_map, List.length_range]
    rfl
  simp only [contents, lens, List.map_append, List.map_cons, List.map_nil, List.map_map, map, swap,
    length_rootDirContent]
  rfl

/-- The inode of a number, or the content of its file. -/
inductive Part where
  | inode (x : Nat)
  | content (x : Nat)

namespace Part

def number : Part → Nat
  | inode x => x
  | content x => x

def sector (files : List HostFile) : Part → Nat
  | inode x => x
  | content x => start files x

def bytes (files : List HostFile) (memory : Nat → UInt8) : Part → List UInt8
  | inode x => ondiskInode (start files x) ((lens files).getD x 0)
  | content x => (contents files memory).getD x []

end Part

def burn (files : List HostFile) (memory : Nat → UInt8) (disk : Nat → Sector)
    (p : Part) : Nat → Sector :=
  fwriteAt disk (p.sector files) (p.bytes files memory)

def Burnt (files : List HostFile) (memory : Nat → UInt8) (disk : Nat → Sector) (p : Part) : Prop :=
  ∀ k < (p.bytes files memory).length, fileByte disk (p.sector files) k =
    (p.bytes files memory).getD k 0

def order (n : Nat) : List Part :=
  [.inode 1, .content 1] ++ (List.range' 0 n).flatMap
    (fun i => [.content (i + 2), .inode (i + 2)]) ++
    [.content (n + 2), .inode (n + 2), .inode 0, .content 0]

theorem lens_file {i : Nat} (h : i < files.length) :
    (lens files).getD (i + 2) 0 = files[i].bytes.length := by
  change (files.map (·.bytes.length) ++ [swapSpace]).getD i 0 = _
  rw [List.getD_append _ _ _ _ (by rw [List.length_map]; exact h),
    List.getD_eq_getElem _ _ (by rw [List.length_map]; exact h),
    List.getElem_map]

theorem contents_file {i : Nat} (h : i < files.length) :
    (contents files memory).getD (i + 2) [] = files[i].bytes := by
  change (files.map HostFile.bytes ++ [swapContent memory]).getD i [] = _
  rw [List.getD_append _ _ _ _ (by rw [List.length_map]; exact h),
    List.getD_eq_getElem _ _ (by rw [List.length_map]; exact h),
    List.getElem_map]

theorem lens_swap : (lens files).getD (files.length + 2) 0 = swapSpace := by
  change (files.map (·.bytes.length) ++ [swapSpace]).getD files.length 0 = _
  rw [List.getD_append_right _ _ _ _ (by rw [List.length_map]), List.length_map,
    Nat.sub_self, List.getD_cons_zero]

theorem contents_swap : (contents files memory).getD (files.length + 2) [] =
    swapContent memory := by
  change (files.map HostFile.bytes ++ [swapContent memory]).getD files.length [] = _
  rw [List.getD_append_right _ _ _ _ (by rw [List.length_map]), List.length_map,
    Nat.sub_self, List.getD_cons_zero]

theorem start_succ {x : Nat} (h : x < totalFileNum files.length) :
    start files (x + 1) = start files x + roundUp ((lens files).getD x 0) sectorSize := by
  rw [start, startOf_succ _ _ (by rw [length_sizes]; exact h), ← start]
  congr 1
  simp only [sizes, List.getElem_map]
  rw [List.getD_eq_getElem _ _ (by rw [length_lens]; exact h)]

/-- The loop writes the contents and the inodes of the files one after the other. -/
theorem copyFiles_eq (memory : Nat → UInt8) {fs : List HostFile} {i : Nat}
    (rest : files.drop i = fs) (bound : i ≤ files.length)
    (disk : Nat → Sector) :
    copyFiles i (start files (i + 2)) fs disk = (start files (files.length + 2),
      ((List.range' i (files.length - i)).flatMap fun i =>
        [Part.content (i + 2), .inode (i + 2)]).foldl
        (burn files memory) disk) := by
  induction fs generalizing i disk with
  | nil =>
    have done : files.length ≤ i := List.drop_eq_nil_iff.mp rest
    have last : i = files.length := le_antisymm bound done
    rw [last, Nat.sub_self]
    rfl
  | cons f fs ih =>
    have inside : i < files.length := by
      by_contra out
      rw [List.drop_eq_nil_of_le (Nat.le_of_not_lt out)] at rest
      cases rest
    rw [List.drop_eq_getElem_cons inside] at rest
    obtain ⟨file, rest⟩ := List.cons.inj rest
    have next : start files (i + 3) = start files (i + 2) + roundUp f.bytes.length sectorSize := by
      rw [start_succ (show i + 2 < files.length + 2 + 1 by omega), lens_file inside, file]
    have content : (Part.content (i + 2)).bytes files memory = f.bytes := by
      rw [Part.bytes, contents_file inside, file]
    have inode : (Part.inode (i + 2)).bytes files memory = ondiskInode
      (start files (i + 2)) f.bytes.length := by
      rw [Part.bytes, lens_file inside, file]
    have count : files.length - i = files.length - (i + 1) + 1 := by omega
    rw [copyFiles, ← next, ih rest inside, count, List.range'_succ,
      List.flatMap_cons, List.foldl_append]
    simp only [List.foldl_cons, List.foldl_nil, burn, content, inode]
    rfl

theorem makeDiskImg_eq :
    makeDiskImg files memory = (order files.length).foldl (burn files memory) (fun _ _ => 0) := by
  have map : start files 1 = totalFileNum files.length + roundUp freemapBytes sectorSize :=
    start_succ (x := 0) (Nat.succ_pos _)
  have root : start files 2 = start files 1 + roundUp
    ((files.length + 1 + freeNumber) * 32) sectorSize :=
    start_succ (x := 1) (show 1 < files.length + 2 + 1 by omega)
  have loop : ∀ disk, copyFiles 0 (start files 2) files disk = _ :=
    copyFiles_eq memory List.drop_zero (Nat.zero_le _)
  have last : used files = start files (files.length + 2) + roundUp swapSpace sectorSize := by
    rw [used, totalFileNum, start_succ (show files.length + 2 < files.length + 2 + 1 by omega),
      lens_swap]
  have mapInode : (Part.inode 0).bytes files memory = ondiskInode
    (totalFileNum files.length) freemapBytes := by
    rw [Part.bytes, start, startOf_zero, lens]
    simp only [List.cons_append, List.getD_cons_zero]
  have mapContent : (Part.content 0).bytes files memory =
      (List.range (used files)).foldl freeMapSet (List.replicate freemapBytes 0) := by
    rw [Part.bytes, contents, ← freeMapContent]
    simp only [List.cons_append, List.getD_cons_zero]
  have rootInode : (Part.inode 1).bytes files memory =
      ondiskInode (start files 1) ((files.length + 1 + freeNumber) * 32) := by
    rw [Part.bytes, lens]
    simp only [List.cons_append, List.getD_cons_succ, List.getD_cons_zero]
  have rootContent : (Part.content 1).bytes files memory = rootDirContent files := by
    rw [Part.bytes, contents]
    simp only [List.cons_append, List.getD_cons_succ, List.getD_cons_zero]
  have swapContent : (Part.content (files.length + 2)).bytes files memory =
    swapContent memory := contents_swap
  have swapInode : (Part.inode (files.length + 2)).bytes files memory =
      ondiskInode (start files (files.length + 2)) swapSpace := by rw [Part.bytes, lens_swap]
  have first : start files 0 = totalFileNum files.length := rfl
  simp only [makeDiskImg, order, List.foldl_append, ← map, ← root, loop, ← last]
  simp only [List.foldl_cons, List.foldl_nil, burn, Part.sector, mapInode, mapContent,
    rootInode, rootContent,
    swapContent, swapInode, first, Nat.sub_zero, freeMapSector, rootDirSector]

end Mkfs

end Tacos.Fs
