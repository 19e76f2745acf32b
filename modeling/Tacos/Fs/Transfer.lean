/- GID: Tacos/Fs/Transfer
   generality: I
   source: src/fs/disk/inode.rs, src/device/virtio.rs
   digest: What the sector loops of an inode read and write, byte by byte. -/

import Tacos.Fs.DiskFs
import Mathlib.Data.List.OfFn

set_option autoImplicit false
set_option relaxedAutoImplicit false

namespace Tacos.Fs

open Tacos.Lib.Exec Tacos.Lib.Bytes

variable {s t : Sys} {l : Lock}

section Guard

variable {α : Type} {x : M α}

theorem lock_ok {a : α} (free : l ∉ s.held) (h : x { s with held := l :: s.held } = .ok a t)
    (kept : t.held = l :: s.held) : lock l x s = .ok a { t with held := s.held } := by
  rw [lock, withLock_ok free h]
  simp only [Locks.held, Locks.setHeld, kept, List.erase_cons_head]

theorem lock_err {e : OsError} (free : l ∉ s.held) (h : x { s with held := l :: s.held } = .err e t)
    (kept : t.held = l :: s.held) : lock l x s = .err e { t with held := s.held } := by
  rw [lock, withLock_err free h]
  simp only [Locks.held, Locks.setHeld, kept, List.erase_cons_head]

theorem lock_halt {e : Halt} (free : l ∉ s.held) (h : x { s with held := l :: s.held } = .halt e) :
    lock l x s = .halt e := by
  rw [lock, withLock_halt free h]

variable {y : FreeMap.Op α} {m : FreeMap}

theorem onFreeMap_ok {a : α} (h : y s.freeMap = .ok a m) :
    onFreeMap y s = .ok a { s with freeMap := m } := Call.zoom_ok h

theorem onFreeMap_err {e : OsError} (h : y s.freeMap = .err e m) :
    onFreeMap y s = .err e { s with freeMap := m } := Call.zoom_err h

theorem onFreeMap_halt {e : Halt} (h : y s.freeMap = .halt e) : onFreeMap y s = .halt e :=
  Call.zoom_halt h

end Guard

theorem readSector_eq (free : .virtio ∉ s.held) (sector : Nat) :
    Virtio.readSector sector s = .ok (s.disk sector) s :=
  lock_ok (t := { s with held := .virtio :: s.held }) free rfl rfl

theorem writeSector_eq (free : .virtio ∉ s.held) (sector : Nat) (buf : Sector) :
    Virtio.writeSector sector buf s = .ok () { s with disk := Function.update s.disk sector buf } :=
  lock_ok (t := { s with disk := Function.update s.disk sector buf, held := .virtio :: s.held })
    free rfl rfl

theorem addU32_eq {σ : Type} {s : σ} {a b : Nat} (h : a + b < 2 ^ 32) :
    addU32 a b s = .ok (a + b) s := by
  rw [addU32, if_pos h, Call.pure_apply]

namespace DiskInode

private theorem load_toSector (d : DiskInode) {a : Nat} (h : a + 4 ≤ 12) :
    loadLE (fun k => d.toSector (Fin.ofNat 512 k)) a 4 =
      loadLE (storeLE (storeLE (storeLE (fun _ => 0) 0 4 d.start) 4 4 d.len) 8 4 d.magic) a 4 := by
  apply loadLE_congr
  intro k _ hk
  have small : k % 512 = k := Nat.mod_eq_of_lt (by omega)
  have head : (Fin.ofNat 512 k).val < 12 := by
    rw [Fin.val_ofNat, small]
    omega
  rw [toSector, dif_pos head, Fin.val_ofNat, small]

theorem ofSector_toSector {d : DiskInode} (start : d.start < 2 ^ 32) (len : d.len < 2 ^ 32)
    (magic : d.magic < 2 ^ 32) : ofSector d.toSector = d := by
  have words : (256 : Nat) ^ 4 = 2 ^ 32 := by norm_num
  have hstart : (ofSector d.toSector).start = d.start := by
    refine (load_toSector d (by omega)).trans ?_
    rw [loadLE_storeLE_of_disjoint (by omega), loadLE_storeLE_of_disjoint (by omega),
      loadLE_storeLE_of_lt (words ▸ start)]
  have hlen : (ofSector d.toSector).len = d.len := by
    refine (load_toSector d (by omega)).trans ?_
    rw [loadLE_storeLE_of_disjoint (by omega), loadLE_storeLE_of_lt (words ▸ len)]
  have hmagic : (ofSector d.toSector).magic = d.magic := by
    refine (load_toSector d (by omega)).trans ?_
    rw [loadLE_storeLE_of_lt (words ▸ magic)]
  have hpadding : (ofSector d.toSector).padding = d.padding := by
    funext k
    have tail : ¬k.val + 12 < 12 := by omega
    change d.toSector ⟨k.val + 12, _⟩ = d.padding k
    rw [toSector, dif_neg tail]
    rfl
  cases h : ofSector d.toSector
  cases d
  simp_all only

theorem toSector_ofSector (b : Sector) : (ofSector b).toSector = b := by
  funext k
  by_cases head : k.val < 12
  · rw [toSector, dif_pos head]
    have byte : ∀ a, a ≤ k.val → k.val < a + 4 → ∀ m : Mem,
        storeLE m a 4 (loadLE (fun j => b (Fin.ofNat 512 j)) a 4) k.val = b k := by
      intro a low high m
      have stored := storeLE_loadLE (fun j => b (Fin.ofNat 512 j)) m a a
        (show k.val - a < 4 by omega)
      rw [show a + (k.val - a) = k.val by omega] at stored
      rw [stored]
      congr 1
      apply Fin.ext
      exact Nat.mod_eq_of_lt k.isLt
    by_cases magic : 8 ≤ k.val
    · exact byte 8 magic (by omega) _
    · rw [storeLE_of_not_mem (by omega)]
      by_cases len : 4 ≤ k.val
      · exact byte 4 len (by omega) _
      · rw [storeLE_of_not_mem (by omega)]
        exact byte 0 (by omega) (by omega) _
  · rw [toSector, dif_neg head]
    change b ⟨k.val - 12 + 12, _⟩ = b k
    congr 1
    apply Fin.ext
    change k.val - 12 + 12 = k.val
    omega

theorem ofSector_lt (b : Sector) : (ofSector b).start < 2 ^ 32 ∧ (ofSector b).len < 2 ^ 32 := by
  have words : (256 : Nat) ^ 4 = 2 ^ 32 := by norm_num
  have start := loadLE_lt (fun k => b (Fin.ofNat 512 k)) 0 4
  have len := loadLE_lt (fun k => b (Fin.ofNat 512 k)) 4 4
  rw [words] at start len
  exact ⟨start, len⟩

end DiskInode

/-- The `k`-th byte of the file whose data starts at a sector. -/
def fileByte (d : Nat → Sector) (start k : Nat) : UInt8 := d (start + k / 512) (Fin.ofNat 512 k)

/-- The disk with the bytes of a file from `off` on replaced. -/
def overwrite (d : Nat → Sector) (start off : Nat) (bytes : List UInt8) : Nat → Sector := fun y j =>
  if start ≤ y ∧ off ≤ (y - start) * 512 + j.val ∧
    (y - start) * 512 + j.val < off + bytes.length then
    bytes.getD ((y - start) * 512 + j.val - off) 0
  else d y j

theorem fileByte_congr {d e : Nat → Sector} {start start' k : Nat}
    (h : d (start + k / 512) = e (start' + k / 512)) :
    fileByte d start k = fileByte e start' k := by
  rw [fileByte, fileByte, h]

theorem fileByte_overwrite (d : Nat → Sector) (start off : Nat) (bytes : List UInt8) (k : Nat) :
    fileByte (overwrite d start off bytes) start k =
      if off ≤ k ∧ k < off + bytes.length then bytes.getD (k - off) 0 else fileByte d start k := by
  have index : (start + k / 512 - start) * 512 + (Fin.ofNat 512 k).val = k := by
    rw [Fin.val_ofNat]
    omega
  rw [fileByte, overwrite, index]
  simp only [Nat.le_add_right, true_and, fileByte]

theorem overwrite_nil (d : Nat → Sector) (start off : Nat) : overwrite d start off [] = d := by
  funext y j
  rw [overwrite, if_neg]
  simp only [List.length_nil]
  omega

theorem overwrite_append (d : Nat → Sector) (start off : Nat) (bytes more : List UInt8) :
    overwrite (overwrite d start off bytes) start (off + bytes.length) more =
      overwrite d start off (bytes ++ more) := by
  funext y j
  simp only [overwrite, List.length_append, List.getD_eq_getElem?_getD]
  by_cases second : start ≤ y ∧ off + bytes.length ≤ (y - start) * 512 + j.val ∧
      (y - start) * 512 + j.val < off + bytes.length + more.length
  · rw [if_pos second, if_pos (by omega), List.getElem?_append_right (by omega), Nat.sub_sub]
  · rw [if_neg second]
    by_cases first : start ≤ y ∧ off ≤ (y - start) * 512 + j.val ∧
        (y - start) * 512 + j.val < off + bytes.length
    · rw [if_pos first, if_pos (by omega), List.getElem?_append_left (by omega)]
    · rw [if_neg first, if_neg (by omega)]

/-- Sectors of the file that hold none of the replaced bytes, and all other sectors, stay. -/
theorem overwrite_of_not_mem {d : Nat → Sector} {start off : Nat} {bytes : List UInt8} {y : Nat}
    (h : y < start + off / 512 ∨ start + (off + bytes.length + 511) / 512 ≤ y) :
    overwrite d start off bytes y = d y := by
  funext j
  have := j.isLt
  rw [overwrite, if_neg]
  omega

theorem update_eq_overwrite {d : Nat → Sector} {start off : Nat} {bytes : List UInt8} {b : Sector}
    (fits : off % 512 + bytes.length ≤ 512)
    (inside : ∀ j : Fin 512, off % 512 ≤ j.val → j.val < off % 512 + bytes.length →
      b j = bytes.getD (j.val - off % 512) 0)
    (outside : ∀ j : Fin 512, ¬(off % 512 ≤ j.val ∧ j.val < off % 512 + bytes.length) →
      b j = d (start + off / 512) j) :
    Function.update d (start + off / 512) b = overwrite d start off bytes := by
  funext y j
  have hj := j.isLt
  by_cases hy : y = start + off / 512
  · subst hy
    rw [Function.update_self, overwrite]
    have index : (start + off / 512 - start) * 512 + j.val = off - off % 512 + j.val := by omega
    rw [index]
    by_cases hin : off % 512 ≤ j.val ∧ j.val < off % 512 + bytes.length
    · rw [if_pos (by omega), inside j hin.1 hin.2]
      congr 1
      omega
    · rw [if_neg (by omega), outside j hin]
  · rw [Function.update_of_ne hy, overwrite, if_neg]
    omega

/-- The state with some bytes of a file on the disk replaced. -/
def Sys.wrote (s : Sys) (start off : Nat) (bytes : List UInt8) : Sys :=
  { s with disk := overwrite s.disk start off bytes }

theorem Sys.wrote_nil (s : Sys) (start off : Nat) : s.wrote start off [] = s := by
  rw [wrote, overwrite_nil]

theorem Sys.wrote_append (s : Sys) (start off : Nat) (bytes more : List UInt8) :
    (s.wrote start off bytes).wrote start (off + bytes.length) more = s.wrote start off
    (bytes ++ more) := by
  rw [wrote, wrote, overwrite_append]
  rfl

namespace Inode

theorem zeroFrom_eq (start : Nat) {cnt i : Nat} (free : .virtio ∉ s.held)
    (fits : start + i + cnt ≤ 2 ^ 32) :
    zeroFrom start cnt i s = .ok ()
      { s with
        disk := fun y =>
          if start + i ≤ y ∧ y < start + i + cnt then fun _ => 0 else s.disk y } := by
  induction cnt generalizing s i with
  | zero =>
    have same : (fun y => if start + i ≤ y ∧ y < start + i + 0 then fun _ =>
      0 else s.disk y) = s.disk := by
      funext y
      exact if_neg (by omega)
    rw [same]
    rfl
  | succ cnt ih =>
    rw [zeroFrom, Call.bind_ok (addU32_eq (by omega)), Call.bind_ok (writeSector_eq free _ _),
      ih (s := { s with disk := Function.update s.disk (start + i) fun _ => 0 })
      (i := i + 1) free (by omega)]
    congr 2
    funext y
    dsimp only
    by_cases hy : y = start + i
    · rw [if_neg (by omega), if_pos (by omega), hy, Function.update_self]
    · rw [Function.update_of_ne hy]
      exact if_congr (by omega) rfl rfl

theorem copyFrom_eq (oldStart newStart : Nat) {cnt i : Nat} (free : .virtio ∉ s.held)
    (old : oldStart + i + cnt ≤ 2 ^ 32) (new : newStart + i + cnt ≤ 2 ^ 32)
    (apart : newStart + i + cnt ≤ oldStart + i ∨ oldStart + i + cnt ≤ newStart + i) :
    copyFrom oldStart newStart cnt i s = .ok ()
      { s with disk := fun y => if newStart + i ≤ y ∧ y < newStart + i + cnt then
          s.disk (oldStart + (y - newStart)) else s.disk y } := by
  induction cnt generalizing s i with
  | zero =>
    have same : (fun y => if newStart + i ≤ y ∧ y < newStart + i + 0 then
        s.disk (oldStart + (y - newStart)) else s.disk y) = s.disk := by
      funext y
      exact if_neg (by omega)
    rw [same]
    rfl
  | succ cnt ih =>
    rw [copyFrom, Call.bind_ok (addU32_eq (by omega)), Call.bind_ok (readSector_eq free _),
      Call.bind_ok (addU32_eq (by omega)), Call.bind_ok (writeSector_eq free _ _),
      ih (s := { s with disk := Function.update s.disk (newStart + i) (s.disk (oldStart + i)) })
        (i := i + 1) free (by omega) (by omega) (by omega)]
    congr 2
    funext y
    dsimp only
    by_cases hy : y = newStart + i
    · rw [if_neg (by omega), if_pos (by omega), hy, Function.update_self]
      congr 1
      omega
    · rw [Function.update_of_ne hy]
      by_cases later : newStart + (i + 1) ≤ y ∧ y < newStart + (i + 1) + cnt
      · rw [if_pos later, if_pos (by omega), Function.update_of_ne (by omega)]
      · rw [if_neg later, if_neg (by omega)]

/-- The bytes of a file from `off` on. -/
def bytesFrom (d : Nat → Sector) (start off n : Nat) : List UInt8 :=
  (List.range n).map fun k => fileByte d start (off + k)

@[simp] theorem length_bytesFrom (d : Nat → Sector) (start off n : Nat) :
    (bytesFrom d start off n).length = n := by
  rw [bytesFrom, List.length_map, List.length_range]

theorem bytesFrom_add (d : Nat → Sector) (start off m n : Nat) :
    bytesFrom d start off (m + n) = bytesFrom d start off m ++ bytesFrom d start (off + m) n := by
  simp only [bytesFrom, List.range_add, List.map_append, List.map_map,
    Function.comp_def, Nat.add_assoc]

private theorem ofFn_eq_bytesFrom (d : Nat → Sector) (start : Nat) {off : Nat}
    (aligned : off % 512 = 0) :
    List.ofFn (d (start + off / 512)) = bytesFrom d start off 512 := by
  apply List.ext_getElem
  · rw [List.length_ofFn, length_bytesFrom]
  · intro k hk _
    rw [List.length_ofFn] at hk
    simp only [bytesFrom, List.getElem_ofFn, List.getElem_map, List.getElem_range, fileByte]
    have sector : (off + k) / 512 = off / 512 := by omega
    have index : (⟨k, hk⟩ : Fin 512) = Fin.ofNat 512 (off + k) := by
      apply Fin.ext
      rw [Fin.val_ofNat]
      change k = (off + k) % 512
      omega
    rw [sector, ← index]

private theorem map_bounce_eq_bytesFrom (d : Nat → Sector) (start : Nat) {off chunk : Nat}
    (fits : off % 512 + chunk ≤ 512) :
    (List.range chunk).map (fun k => d (start + off / 512) (Fin.ofNat 512 (off % 512 + k))) =
      bytesFrom d start off chunk := by
  apply List.map_congr_left
  intro k hk
  rw [List.mem_range] at hk
  have sector : (off + k) / 512 = off / 512 := by omega
  have index : Fin.ofNat 512 (off % 512 + k) = Fin.ofNat 512 (off + k) := by
    apply Fin.ext
    rw [Fin.val_ofNat, Fin.val_ofNat]
    omega
  rw [fileByte, sector, index]

/-- From the `p`-th byte of the buffer on a whole sector is to be handed to the device, and the
address cannot be translated. The byte `bytesWritten` of the buffer goes to `off` in the file. -/
structure Blocked (len off : Nat) (buf : Slice) (bytesWritten p : Nat) : Prop where
  next : bytesWritten ≤ p
  aligned : (off + (p - bytesWritten)) % 512 = 0
  inside : off + (p - bytesWritten) + 512 ≤ len
  whole : p + 512 ≤ buf.bytes.length
  fits : buf.fits p = true
  lost : ¬buf.reachable p

theorem Blocked.not_mapped {len off n : Nat} {buf : Slice} {bytesWritten p : Nat}
    (h : Blocked len off buf bytesWritten p) (hp : p < n) : ¬buf.Mapped n :=
  fun mapped => h.lost (mapped.reachable hp h.fits)

theorem Blocked.not_inKernel {len off : Nat} {buf : Slice} {bytesWritten p : Nat}
    (h : Blocked len off buf bytesWritten p) : ¬buf.InKernel := by
  intro kernel
  have whole := h.whole
  exact h.not_mapped (by omega) kernel.mapped

/-- A sector that starts here blocks the loop if it is whole and cannot be handed to the device. -/
theorem blocked_at_iff {len off done : Nat} {buf : Slice} : Blocked len off buf done done ↔
    (off % 512 = 0 ∧ off + 512 ≤ len ∧ 512 ≤ buf.bytes.length - done) ∧ buf.fits done = true ∧
      ¬buf.reachable done := by
  constructor
  · rintro ⟨-, aligned, inside, whole, fits, lost⟩
    rw [Nat.sub_self, Nat.add_zero] at aligned inside
    exact ⟨⟨aligned, inside, by omega⟩, fits, lost⟩
  · rintro ⟨⟨aligned, inside, whole⟩, fits, lost⟩
    refine ⟨le_rfl, ?_, ?_, by omega, fits, lost⟩
    · rw [Nat.sub_self]
      exact aligned
    · rw [Nat.sub_self]
      exact inside

/-- After a chunk the same places are ahead as before it, those inside the chunk apart. -/
theorem blocked_after_chunk {len off chunk done p : Nat} {buf : Slice} :
    Blocked len (off + chunk) buf (done + chunk) p ↔
      Blocked len off buf done p ∧ done + chunk ≤ p := by
  constructor
  · intro later
    have next := later.next
    have place : off + chunk + (p - (done + chunk)) = off + (p - done) := by omega
    exact ⟨⟨by
      omega, place ▸ later.aligned, place ▸ later.inside, later.whole,
        later.fits, later.lost⟩, next⟩
  · rintro ⟨blocked, next⟩
    have place : off + chunk + (p - (done + chunk)) = off + (p - done) := by omega
    exact ⟨next, place ▸ blocked.aligned, place ▸ blocked.inside, blocked.whole,
      blocked.fits, blocked.lost⟩

/-- What one turn of the loops moves: it stays inside one sector, the file and the buffer. -/
structure Chunk (len off rest chunk : Nat) : Prop where
  sector : off % 512 + chunk ≤ 512
  buffer : chunk ≤ rest
  total : min (len - off) rest = chunk + min (len - (off + chunk)) (rest - chunk)
  ends : chunk = 0 → min (len - off) rest = 0
  whole : chunk = 512 ↔ off % 512 = 0 ∧ off + 512 ≤ len ∧ 512 ≤ rest

theorem chunkSize_chunk (len off rest : Nat) : Chunk len off rest (chunkSize len off rest) := by
  have hchunk : chunkSize len off rest = min (min (len - off) (512 - off % 512)) rest := rfl
  generalize chunkSize len off rest = chunk at hchunk
  constructor <;> omega

/-- Reading takes what the file has, up to the length of the buffer; only a sector that cannot be
handed to the device makes it fail. -/
theorem readLoop_cases (start len off : Nat) (buf : Slice) {fuel bytesRead : Nat}
    (free : .virtio ∉ s.held) (enough : buf.bytes.length - bytesRead < fuel) :
    readLoop start len buf fuel bytesRead off s =
        .ok (bytesFrom s.disk start off (min (len - off) (buf.bytes.length - bytesRead))) s ∨
      readLoop start len buf fuel bytesRead off s = .err .badPtr s ∧
        ∃ p, Blocked len off buf bytesRead p := by
  induction fuel generalizing bytesRead off with
  | zero => omega
  | succ fuel ih =>
    rw [readLoop]
    obtain ⟨sector, buffer, total, ends, whole⟩ :=
      chunkSize_chunk len off (buf.bytes.length - bytesRead)
    generalize chunkSize len off (buf.bytes.length - bytesRead) = chunk at *
    by_cases done : chunk = 0
    · rw [if_pos done, ends done]
      exact .inl rfl
    rw [if_neg done]
    -- Both ways of reading a chunk give the same bytes, and the rest is read in the same state.
    have rest := ih (off + chunk) (show buf.bytes.length - (bytesRead + chunk) < fuel by omega)
    rw [Nat.sub_sub] at total
    by_cases direct : chunk = 512 ∧ buf.fits bytesRead
    · rw [if_pos direct]
      by_cases hr : buf.reachable bytesRead
      · rw [if_pos hr, Call.bind_ok (readSector_eq free _)]
        obtain hrest | ⟨hrest, p, bad⟩ := rest
        · left
          rw [Call.bind_ok hrest, Call.pure_apply, total, bytesFrom_add,
            ofFn_eq_bytesFrom _ _ (whole.mp direct.1).1, direct.1]
        · exact .inr ⟨Call.bind_err hrest, p, (blocked_after_chunk.mp bad).1⟩
      · rw [if_neg hr]
        exact .inr ⟨rfl, bytesRead, blocked_at_iff.mpr ⟨whole.mp direct.1, direct.2, hr⟩⟩
    · rw [if_neg direct, Call.bind_ok (readSector_eq free _)]
      obtain hrest | ⟨hrest, p, bad⟩ := rest
      · left
        rw [Call.bind_ok hrest, Call.pure_apply, total, bytesFrom_add,
          map_bounce_eq_bytesFrom _ _ sector]
      · exact .inr ⟨Call.bind_err hrest, p, (blocked_after_chunk.mp bad).1⟩

/-- What a write that has `n` bytes to go comes to: it replaces the bytes of the file that the
buffer covers, or those before the first sector that cannot be handed to the device. -/
def WriteEnds (s : Sys) (start len off : Nat) (buf : Slice) (bytesWritten n : Nat)
    (o : Outcome Sys OsError Halt Nat) : Prop :=
  (o = .ok (bytesWritten + n) (s.wrote start off ((buf.bytes.drop bytesWritten).take n)) ∧
      ∀ p, ¬Blocked len off buf bytesWritten p) ∨
    ∃ m ≤ n, o = .err .badPtr (s.wrote start off ((buf.bytes.drop bytesWritten).take m)) ∧
      Blocked len off buf bytesWritten (bytesWritten + m) ∧
        ∀ p < bytesWritten + m, ¬Blocked len off buf bytesWritten p

theorem writeLoop_ends (start len off : Nat) (buf : Slice) {fuel bytesWritten : Nat}
    (free : .virtio ∉ s.held) (enough : buf.bytes.length - bytesWritten < fuel) :
    WriteEnds s start len off buf bytesWritten (min (len - off) (buf.bytes.length - bytesWritten))
      (writeLoop start len buf fuel bytesWritten off s) := by
  induction fuel generalizing s bytesWritten off with
  | zero => omega
  | succ fuel ih =>
    rw [writeLoop]
    obtain ⟨sector, buffer, total, ends, whole⟩ :=
      chunkSize_chunk len off (buf.bytes.length - bytesWritten)
    generalize chunkSize len off (buf.bytes.length - bytesWritten) = chunk at *
    by_cases done : chunk = 0
    · have none := ends done
      rw [if_pos done, none]
      left
      rw [List.take_zero, Sys.wrote_nil]
      refine ⟨rfl, fun p blocked => ?_⟩
      have inside := blocked.inside
      have fits := blocked.whole
      have next := blocked.next
      clear total
      omega
    rw [if_neg done, total, Nat.sub_sub]
    clear total ends
    -- Inside of this chunk no sector starts.
    have within : ∀ p, Blocked len off buf bytesWritten p →
      p < bytesWritten + chunk → p = bytesWritten := by
      intro p blocked near
      have next := blocked.next
      have aligned := blocked.aligned
      omega
    have size : ((buf.bytes.drop bytesWritten).take chunk).length = chunk := by
      rw [List.length_take, List.length_drop]
      omega
    have byte : ∀ k, k < chunk →
        buf.bytes.getD (bytesWritten + k) 0 =
        ((buf.bytes.drop bytesWritten).take chunk).getD k 0 := by
      intro k hk
      rw [List.getD_eq_getElem?_getD, List.getD_eq_getElem?_getD, List.getElem?_take_of_lt hk,
        List.getElem?_drop]
    have join : ∀ m, (s.wrote start off ((buf.bytes.drop bytesWritten).take chunk)).wrote start
          (off + chunk) ((buf.bytes.drop (bytesWritten + chunk)).take m) =
        s.wrote start off ((buf.bytes.drop bytesWritten).take (chunk + m)) := by
      intro m
      rw [List.take_add, List.drop_drop, ← Sys.wrote_append, size]
    -- Both ways of writing a chunk leave the same disk, and the rest is written from there.
    have step : ¬Blocked len off buf bytesWritten bytesWritten → ∀ b : Sector,
        Function.update s.disk (start + off / 512) b =
          overwrite s.disk start off ((buf.bytes.drop bytesWritten).take chunk) →
        WriteEnds s start len off buf bytesWritten
          (chunk + min (len - (off + chunk)) (buf.bytes.length - (bytesWritten + chunk)))
          ((Virtio.writeSector (start + off / 512) b >>= fun _ =>
            writeLoop start len buf fuel (bytesWritten + chunk) (off + chunk)) s) := by
      intro here b hb
      rw [Call.bind_ok (writeSector_eq free _ _), hb]
      obtain ⟨hrest, clear⟩ | ⟨m, hm, hrest, bad, clear⟩ := ih
        (s := s.wrote start off ((buf.bytes.drop bytesWritten).take chunk)) (off + chunk) free
        (show buf.bytes.length - (bytesWritten + chunk) < fuel by omega)
      · rw [join, Nat.add_assoc] at hrest
        refine .inl ⟨hrest, fun p blocked => ?_⟩
        by_cases near : p < bytesWritten + chunk
        · exact here (within p blocked near ▸ blocked)
        · exact clear p (blocked_after_chunk.mpr ⟨blocked, by omega⟩)
      · rw [join] at hrest
        rw [Nat.add_assoc] at bad clear
        refine .inr ⟨chunk +
          m, by omega, hrest, (blocked_after_chunk.mp bad).1, fun p hp blocked => ?_⟩
        by_cases near : p < bytesWritten + chunk
        · exact here (within p blocked near ▸ blocked)
        · exact clear p hp (blocked_after_chunk.mpr ⟨blocked, by omega⟩)
    by_cases direct : chunk = 512 ∧ buf.fits bytesWritten
    · rw [if_pos direct]
      by_cases hr : buf.reachable bytesWritten
      · rw [if_pos hr]
        apply step fun blocked => blocked.lost hr
        refine update_eq_overwrite (by omega) (fun j _ _ => ?_) fun j hj => ?_
        · rw [byte _ (by omega)]
          congr 1
          omega
        · omega
      · rw [if_neg hr]
        refine .inr ⟨0, Nat.zero_le _, ?_, ?_, ?_⟩
        · rw [List.take_zero, Sys.wrote_nil]
          rfl
        · exact blocked_at_iff.mpr ⟨whole.mp direct.1, direct.2, hr⟩
        · intro p hp blocked
          have next := blocked.next
          omega
    · rw [if_neg direct, Call.bind_ok (readSector_eq free _)]
      have here : ¬Blocked len off buf bytesWritten bytesWritten := fun blocked =>
        direct ⟨whole.mpr (blocked_at_iff.mp blocked).1, blocked.fits⟩
      apply step here
      refine update_eq_overwrite (by omega) (fun j low high => ?_) fun j hj => ?_
      · rw [size] at high
        rw [if_pos ⟨low, high⟩, byte _ (by omega)]
      · rw [size] at hj
        rw [if_neg hj]

end Inode

end Tacos.Fs
