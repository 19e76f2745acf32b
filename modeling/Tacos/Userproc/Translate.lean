/- GID: Tacos/Userproc/Translate
   generality: I
   source: src/mem.rs, src/mem/pagetable.rs
   digest: What the kernel translates the addresses of a user's buffer to, and when that is the
     user's memory. -/

import Tacos.Userproc.Lookup

set_option autoImplicit false
set_option relaxedAutoImplicit false

namespace Tacos.Userproc

open Tacos.Lib.Exec Tacos.Lib.Run Tacos.Mem Tacos.Fs
open PageTable (px seen)

/-- The page table of the current thread, if it has one, and the kernel's. -/
structure CurrentTable where
  pagetable : Option PageTable
  kernel : PageTable

namespace CurrentTable

/-- `mem::get_pte`. -/
def getPte (t : CurrentTable) (va : Nat) : M (Option Entry) :=
  match t.pagetable with
  | some pt => pt.getPte va
  | none => t.kernel.getPte va

def inSamePage (va₁ va₂ : Nat) : Bool := va₁ / pgSize = va₂ / pgSize

/-- `mem::translate`. -/
def translate (t : CurrentTable) (va len : Nat) : M (Option Nat) :=
  if inKernelSpace va then pure (some va)
  else do
    let stop ← addUsize va len
    let last ← subUsize stop 1
    if !inSamePage va last then pure none
    else do
      let pageoff := va &&& 0xFFF
      let pte ← t.getPte va
      match pte with
      | none => pure none
      | some pte => do
        let page ← PhysAddr.intoVa pte.pa
        pure (some (page ||| pageoff))

def root (t : CurrentTable) : PageTable := t.pagetable.getD t.kernel

theorem getPte_root (t : CurrentTable) (va : Nat) : t.getPte va = t.root.getPte va := by
  rw [getPte, root]
  cases t.pagetable <;> rfl

end CurrentTable

/-- The kernel address of the byte of a user's memory that a range begins at: the range is in one
page of the lower half, which has a valid, user-accessible leaf entry. -/
def userAddress (m : Memory) (c va len : Nat) : Option Nat :=
  if va < 2 ^ 38 ∧ va / 2 ^ 12 = (va + len - 1) / 2 ^ 12 then
    match seen m c va with
    | some e => if e.isUser ∧ e.isLeaf then some (e.pa + vmOffset + va % 2 ^ 12) else none
    | none => none
  else none

/-- The entry of the lowest level, below the entries of the upper two. -/
def leafEntry (m : Memory) (c va : Nat) : Entry :=
  m.tables (target (m.tables (target (m.tables c (px 2 va))) (px 1 va))) (px 0 va)

/-- When a range is translated as it should be: it crosses the end of a page, or a table for it is
missing, or the address is in the lower half and its entry is valid, is the user's, is a leaf and
names a page of the kernel's window. -/
def Translatable (m : Memory) (c va len : Nat) : Prop :=
  va / 2 ^ 12 ≠ (va + len - 1) / 2 ^ 12 ∨ ¬Ready m c va ∨
    va < 2 ^ 38 ∧ (leafEntry m c va).isValid ∧ (leafEntry m c va).isUser ∧
      (leafEntry m c va).isLeaf ∧ target (leafEntry m c va) < 2 ^ 64

section Translate

variable {roots : List Nat} {m : Memory} {home : Nat → Option (List (Fin 512))}
    {t : CurrentTable} {va len : Nat}

theorem found_ready (m : Memory) (c va : Nat) :
    (Ready m c va ∧ found m c (pageIndex va) = some (leafEntry m c va)) ∨
      (¬Ready m c va ∧ found m c (pageIndex va) = none) := by
  rw [found, pageIndex, Ready]
  by_cases two : (m.tables c (px 2 va)).isValid
  · rw [if_pos two]
    by_cases one : (m.tables (target (m.tables c (px 2 va))) (px 1 va)).isValid
    · rw [if_pos one]
      exact .inl ⟨⟨two, one⟩, rfl⟩
    · rw [if_neg one]
      exact .inr ⟨fun ready => one ready.2, rfl⟩
  · rw [if_neg two]
    exact .inr ⟨fun ready => two ready.1, rfl⟩

theorem Entry.pa_aligned (e : Entry) : e.pa % 2 ^ 12 = 0 := by
  rw [Entry.pa, Nat.shiftLeft_eq, show pgShift = 12 from rfl, Nat.mul_mod_left]

theorem or_offset {page : Nat} (aligned : page % 2 ^ 12 = 0) (va : Nat) :
    page ||| (va &&& 0xFFF) = page + va % 2 ^ 12 := by
  have offset : va &&& 0xFFF = va % 2 ^ 12 := Nat.and_two_pow_sub_one_eq_mod va 12
  have whole : page = 2 ^ 12 * (page / 2 ^ 12) := by omega
  rw [offset, whole, Nat.two_pow_add_eq_or_of_lt (Nat.mod_lt _ (by decide))]

/-- Within a page, a user's address is translated by the entry of the lowest level, whatever it
is. -/
theorem translate_eq (h : Homed roots m home) (ht : t.root ∈ roots)
    (user : ¬inKernelSpace va) (pos : 1 ≤ len)
    (fits : va + len < 2 ^ 64) :
    t.translate va len m =
      if va / 2 ^ 12 ≠ (va + len - 1) / 2 ^ 12 then .ok none m
      else if ¬Ready m t.root va then .ok none m
      else if target (leafEntry m t.root va) < 2 ^ 64 then
        .ok (some (target (leafEntry m t.root va) + va % 2 ^ 12)) m
      else .halt .overflow := by
  have samePage : CurrentTable.inSamePage va (va + len - 1) = decide
    (va / 2 ^ 12 = (va + len - 1) / 2 ^ 12) := rfl
  rw [CurrentTable.translate, if_neg user, Call.bind_ok (addUsize_ok.mpr ⟨rfl, fits, rfl⟩),
    Call.bind_ok (subUsize_ok.mpr ⟨rfl, by omega, rfl⟩)]
  by_cases same : va / 2 ^ 12 = (va + len - 1) / 2 ^ 12
  · rw [samePage, decide_eq_true same, if_neg (by decide), if_neg (not_not_intro same),
      CurrentTable.getPte_root, Call.bind_ok (h.getPte_eq ht va)]
    obtain ⟨ready, found⟩ | ⟨missing, found⟩ := found_ready m t.root va
    · rw [found, if_neg (not_not_intro ready)]
      dsimp only
      split
      · rename_i below
        have located : PhysAddr.intoVa (leafEntry m t.root va).pa m = .ok
          (target (leafEntry m t.root va)) m :=
          addUsize_ok.mpr ⟨rfl, below, rfl⟩
        rw [Call.bind_ok located, or_offset]
        · rfl
        · have aligned := Entry.pa_aligned (leafEntry m t.root va)
          rw [target, vmOffset_eq]
          omega
      · rename_i above
        have located : PhysAddr.intoVa (leafEntry m t.root va).pa m = .halt .overflow := by
          rw [PhysAddr.intoVa, addUsize]
          exact congrFun (if_neg above) m
        exact Call.bind_halt located
    · rw [found, if_pos missing]
      rfl
  · rw [samePage, decide_eq_false same, if_pos (by decide), if_pos same]
    rfl

theorem seen_leaf (h : Homed roots m home) {c : Nat} (hc : c ∈ roots) (va : Nat) :
    seen m c va = if Ready m c va ∧
      (leafEntry m c va).isValid then some (leafEntry m c va) else none := by
  rw [h.seen_eq hc, view]
  obtain ⟨ready, found⟩ | ⟨missing, found⟩ := found_ready m c va
  · rw [found, Option.filter_some]
    simp only [ready, true_and]
  · rw [found, Option.filter_none, if_neg fun both => missing both.1]

/-- The user's memory, within a page whose tables are there. -/
theorem userAddress_ready (h : Homed roots m home) {c : Nat} (hc : c ∈ roots)
    (same : va / 2 ^ 12 = (va + len - 1) / 2 ^ 12) (ready : Ready m c va) :
    userAddress m c va len =
      if va < 2 ^ 38 ∧ (leafEntry m c va).isValid ∧ (leafEntry m c va).isUser ∧
          (leafEntry m c va).isLeaf then
        some (target (leafEntry m c va) + va % 2 ^ 12)
      else none := by
  rw [userAddress, seen_leaf h hc]
  by_cases low : va < 2 ^ 38
  · rw [if_pos ⟨low, same⟩]
    by_cases valid : (leafEntry m c va).isValid
    · rw [if_pos ⟨ready, valid⟩]
      simp only [low, valid, true_and]
      rfl
    · rw [if_neg fun both => valid both.2, if_neg fun all => valid all.2.1]
  · rw [if_neg fun both => low both.1, if_neg fun all => low all.1]

theorem userAddress_none (h : Homed roots m home) {c : Nat} (hc : c ∈ roots)
    (away : va / 2 ^ 12 ≠ (va + len - 1) / 2 ^ 12 ∨ ¬Ready m c va) :
    userAddress m c va len = none := by
  rw [userAddress, seen_leaf h hc]
  split
  · rename_i both
    rw [if_neg fun ready => (away.resolve_left (not_not_intro both.2)) ready.1]
  · rfl

/-- A range is translated to the user's memory, or to nothing where there is none, if and only if
it is translatable. -/
theorem Homed.translates_iff (h : Homed roots m home) (ht : t.root ∈ roots)
    (user : ¬inKernelSpace va) (pos : 1 ≤ len)
    (fits : va + len < 2 ^ 64) :
    t.translate va len m = .ok (userAddress m t.root va len) m ↔ Translatable m t.root va len := by
  rw [translate_eq h ht user pos fits, Translatable]
  by_cases same : va / 2 ^ 12 = (va + len - 1) / 2 ^ 12
  · rw [if_neg (not_not_intro same)]
    by_cases ready : Ready m t.root va
    · rw [if_neg (not_not_intro ready), userAddress_ready h ht same ready]
      constructor
      · intro right
        refine .inr (.inr ?_)
        split at right
        · rename_i below
          split at right
          · rename_i all
            exact ⟨all.1, all.2.1, all.2.2.1, all.2.2.2, below⟩
          · cases right
        · cases right
      · rintro (crosses | missing | ⟨low, valid, mine, leaf, below⟩)
        · exact absurd same crosses
        · exact absurd ready missing
        · rw [if_pos below, if_pos ⟨low, valid, mine, leaf⟩]
    · rw [if_pos ready, userAddress_none h ht (.inr ready)]
      exact ⟨fun _ => .inr (.inl ready), fun _ => rfl⟩
  · rw [if_pos same, userAddress_none h ht (.inl same)]
    exact ⟨fun _ => .inl same, fun _ => rfl⟩

/-- In every page table that was built from an empty or a cloned one. -/
theorem translate_user_iff {bs : List Build} {s : Grove} (nodup : m.kernelFree.Nodup)
    (sane : ∀ t ∈ m.kernelFree, Sane t)
    (built : run Grove.step ⟨m, []⟩ bs = some s) (ht : t.root ∈ s.roots)
    (user : ¬inKernelSpace va) (pos : 1 ≤ len)
    (fits : va + len < 2 ^ 64) :
    t.translate va len s.memory = .ok (userAddress s.memory t.root va len) s.memory ↔
      Translatable s.memory t.root va len := by
  obtain ⟨home, h⟩ := Grove.rooted_of_run nodup sane built
  exact h.translates_iff ht user pos fits

end Translate

/-- A user's page table with one page, at `0x1FF000`. -/
def userTable : List Build :=
  clonedTable ++ [.map 0xFFFFFFC081003000 0x87E00000 0x1FF000 0x1000 stackFlag]

def userCurrent : CurrentTable := ⟨some 0xFFFFFFC081003000, 0xFFFFFFC081000000⟩

/-- The page before it is not mapped, and is translated to the beginning of the kernel's window. -/
theorem unmapped_translated : ∃ s, run Grove.step ⟨bootMemory, []⟩ userTable = some s ∧
    userCurrent.root ∈ s.roots ∧
    (userCurrent.translate 0x1FE000 8 s.memory).result = some (.ok (some vmOffset)) ∧
    userCurrent.translate 0x1FE000 8 s.memory ≠
      .ok (userAddress s.memory userCurrent.root 0x1FE000 8) s.memory := by
  have computed : (run Grove.step ⟨bootMemory, []⟩ userTable).map (fun s => (s.roots,
      (userCurrent.translate 0x1FE000 8 s.memory).result,
      userAddress s.memory userCurrent.root 0x1FE000 8)) =
      some ([0xFFFFFFC081003000, 0xFFFFFFC081000000], some (.ok (some vmOffset)), none) := by
    decide +kernel
  obtain ⟨s, built, ended⟩ := Option.map_eq_some_iff.mp computed
  simp only [Prod.mk.injEq] at ended
  obtain ⟨roots, translated, nothing⟩ := ended
  refine ⟨s, built, roots ▸ List.mem_cons_self, translated, fun right => ?_⟩
  rw [right, nothing] at translated
  cases translated

/-- The mapped page is translated as it should be. -/
theorem mapped_translated : ∃ s, run Grove.step ⟨bootMemory, []⟩ userTable = some s ∧
    userCurrent.translate 0x1FF010 8 s.memory =
      .ok (userAddress s.memory userCurrent.root 0x1FF010 8) s.memory := by
  have computed : (run Grove.step ⟨bootMemory, []⟩ userTable).map (fun s => (s.roots,
      decide (leafEntry s.memory userCurrent.root 0x1FF010 = .new 0x87E00000 stackFlag))) =
      some ([0xFFFFFFC081003000, 0xFFFFFFC081000000], true) := by
    decide +kernel
  obtain ⟨s, built, ended⟩ := Option.map_eq_some_iff.mp computed
  rw [Prod.mk.injEq] at ended
  obtain ⟨roots, leaf⟩ := ended
  refine ⟨s, built, ?_⟩
  refine (translate_user_iff bootMemory_nodup bootMemory_sane built
    (roots ▸ List.mem_cons_self) (by decide)
    (by decide) (by decide)).mpr (.inr (.inr ?_))
  rw [of_decide_eq_true leaf]
  exact ⟨by decide, by decide, by decide, by decide, by decide⟩

end Tacos.Userproc
