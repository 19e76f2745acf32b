/- GID: Tacos/Userproc/Isolation
   generality: I
   source: src/userproc.rs, src/userproc/load.rs, src/mem/pagetable.rs, src/thread/imp.rs
   digest: Processes that start and end, and when loading one leaves the kernel's addresses alone.
     -/

import Tacos.Lib.Run
import Tacos.Userproc.Load

set_option autoImplicit false
set_option relaxedAutoImplicit false

namespace Tacos.Userproc

open Tacos.Lib.Exec Tacos.Lib.Run Tacos.Mem Tacos.Fs
open PageTable (px seen)

/-- The memory, the kernel's page table, those of the user processes and the pages of the stacks of
their threads. -/
structure System where
  memory : Memory
  kernel : PageTable
  users : List PageTable
  stackPages : PageTable → List Nat

inductive Event where
  | execute (file : Contents)
  | exit (pt : PageTable)

/-- The system once the kernel's page table is up. -/
def boot (etext ramSize : Nat) (m : Memory) : Option System :=
  match KernelPgTable.initInner etext ramSize m with
  | .ok root m' => some ⟨m', root, [], fun _ => []⟩
  | _ => none

/-- A process is started, or one ends and its thread is dropped. -/
def step (parse : List UInt8 → Option Elf) (s : System) : Event → Option System
  | .execute file =>
    match execute parse s.kernel file s.memory with
    | .ok (some p) m => some ⟨m, s.kernel, p.pagetable :: s.users,
        Function.update s.stackPages p.pagetable p.stack⟩
    | .ok none m => some ⟨m, s.kernel, s.users, s.stackPages⟩
    | _ => none
  | .exit pt =>
    if pt ∈ s.users then
      match Process.drop ⟨pt, s.stackPages pt⟩ s.memory with
      | .ok () m => some ⟨m, s.kernel, s.users.erase pt, s.stackPages⟩
      | _ => none
    else none

def System.lent (s : System) : List Nat := s.users.flatMap s.stackPages

/-- The memory with the stacks' pages among the free ones. -/
def System.whole (s : System) : Memory := s.memory.plus s.lent

section Isolation

variable {kernel c va : Nat} {users : List Nat} {m m₁ m₂ m' : Memory}
  {place place₁ place₂ place' : Nat → Option Place} {e : Entry}

/-- Every page that the kernel's tables map is out of reach of user mode. -/
def Supervised (kernel : Nat) (m : Memory) (place : Nat → Option Place) : Prop :=
  ∀ t q i, place t = some (kernel, q) → q.length = 2 → (m.tables t i).isValid →
    ¬ (m.tables t i).isUser

/-- The address spaces in a memory are as they should be. -/
def Secluded (kernel : Nat) (users : List Nat) (m : Memory) : Prop :=
  ∃ place, Planted kernel users m place ∧ Supervised kernel m place

def Isolated (s : System) : Prop := Secluded s.kernel s.users s.whole

/-- Through no root but `c` is a kernel address translated in another way, and through `c` no
kernel address is newly mapped to a user page. -/
def Untouched (roots : List Nat) (c : Nat) (m m' : Memory) : Prop :=
  ∀ va < 2 ^ 64, inKernelSpace va →
    (∀ t ∈ roots, seen m' t va = seen m t va) ∧
      ∀ e, seen m' c va = some e → e.isUser → seen m c va = some e

theorem px_kernel (lower : vmOffset ≤ va) (fits : va < 2 ^ 64) : 256 ≤ (px 2 va).val := by
  rw [px_eq]
  rw [vmOffset_eq] at lower
  omega

/-- The kernel address that is translated like another address of the upper half. -/
def kernelTwin (va : Nat) : Nat := vmOffset + va % 2 ^ 38

theorem kernelTwin_lt (va : Nat) : kernelTwin va < 2 ^ 64 := by
  rw [kernelTwin, vmOffset_eq]
  omega

theorem kernelTwin_kernel (va : Nat) : inKernelSpace (kernelTwin va) :=
  (inKernelSpace_iff (kernelTwin_lt va)).mpr (Nat.le_add_right _ _)

theorem px_kernelTwin (high : 256 ≤ (px 2 va).val) (level : Fin 3) :
    px level (kernelTwin va) = px level va := by
  apply Fin.ext
  rw [px_eq] at high
  rw [px_eq, px_eq, kernelTwin, vmOffset_eq]
  have three : level.val = 0 ∨ level.val = 1 ∨ level.val = 2 := by omega
  rcases three with zero | one | two
  · rw [zero]
    omega
  · rw [one]
    omega
  · rw [two]
    omega

theorem leads_kernelTwin (high : 256 ≤ (px 2 va).val) :
    Leads m c (kernelTwin va) e ↔ Leads m c va e := by
  have two := px_kernelTwin high 2
  have one := px_kernelTwin high 1
  have zero := px_kernelTwin high 0
  simp only [Fin.isValue, Fin.val_two, Fin.val_one, Fin.val_zero] at two one zero
  rw [Leads, Leads, two, one, zero]

/-- What is seen through a root depends on its own tables and on the kernel's. -/
theorem Leads.kept (h : Planted kernel users m place)
    (same : ∀ x r q, place x = some (r, q) → r ≠ c → m'.tables x = m.tables x) {t : Nat}
    (ht : t ∈ kernel :: users) (htc : t ≠ c) (hkc : kernel ≠ c) (leads : Leads m t va e) :
    Leads m' t va e := by
  obtain ⟨two, one, leaf⟩ := leads
  obtain ⟨r, owner, hone, hzero⟩ := h.way ht two one
  have hr : r ≠ c := by
    rcases owner with rfl | ⟨rfl, -⟩
    · exact htc
    · exact hkc
  have sameTwo := same t t [] (h.roots t ht) htc
  have sameOne := same _ _ _ hone hr
  have sameZero := same _ _ _ hzero hr
  refine ⟨?_, ?_, ?_⟩
  · rw [sameTwo]
    exact two
  · rw [sameTwo, sameOne]
    exact one
  · rw [sameTwo, sameOne, sameZero]
    exact leaf

theorem leads_of_root {t : Nat} (same : m.tables t (px 2 va) = m.tables c (px 2 va)) :
    Leads m t va e ↔ Leads m c va e := by
  rw [Leads, Leads, same]

theorem seen_eq_of_leads (h : Planted kernel users m place) (h' : Planted kernel users m' place')
    {t : Nat} (ht : t ∈ kernel :: users) (same : ∀ e, Leads m' t va e ↔ Leads m t va e) :
    seen m' t va = seen m t va := by
  ext e
  rw [h'.seen_iff ht, h.seen_iff ht, same]

theorem Installed.untouched_iff {vas : List Nat} (h : Planted kernel (c :: users) m place)
    (supervised : Supervised kernel m place) (copied : m.tables c = m.tables kernel)
    (installed : Installed kernel (c :: users) c vas m m' place place') :
    Untouched (kernel :: users) c m m' ↔ ∀ va ∈ vas, (px 2 va).val < 256 := by
  have root : c ∈ kernel :: c :: users := List.mem_cons_of_mem _ List.mem_cons_self
  have hkernel : kernel ∈ kernel :: c :: users := List.mem_cons_self
  have apart := h.apart
  simp only [List.nodup_cons, List.mem_cons, not_or] at apart
  have hkc : kernel ≠ c := apart.1.1
  constructor
  · -- A page in the upper half is seen at a kernel address.
    intro untouched va hva
    by_contra high
    push Not at high
    obtain ⟨e, leads, valid, user⟩ := installed.maps va hva
    have after : seen m' c (kernelTwin va) = some e :=
      (installed.planted.seen_iff root).mpr ⟨(leads_kernelTwin high).mpr leads, valid⟩
    have before := (untouched _ (kernelTwin_lt va) (kernelTwin_kernel va)).2 e after user
    obtain ⟨leads', -⟩ := (h.seen_iff root).mp before
    obtain ⟨two, one, leaf⟩ := (leads_of_root (congrFun copied _).symm).mpr leads'
    obtain ⟨r, owner, -, hzero⟩ := h.way hkernel two one
    have hr : r = kernel := by
      rcases owner with rfl | ⟨rfl, -⟩
      · rfl
      · rfl
    rw [hr] at hzero
    refine supervised _ _ (px 0 (kernelTwin va)) hzero rfl ?_ ?_
    · rw [leaf]
      exact valid
    · rw [leaf]
      exact user
  · intro low va fits inKernel
    have within := installed.within low
    have high := px_kernel ((inKernelSpace_iff fits).mp inKernel) fits
    have upper := installed.upper low _ high
    have forth : ∀ x r q, place x = some (r, q) → r ≠ c → m'.tables x = m.tables x :=
      fun x r q hx hr => (within x r q (installed.grown.places x _ hx) hr).2
    have back : ∀ x r q, place' x = some (r, q) → r ≠ c → m.tables x = m'.tables x :=
      fun x r q hx hr => (within x r q hx hr).2.symm
    have others : ∀ t ∈ kernel :: users, ∀ e, Leads m' t va e ↔ Leads m t va e := by
      intro t ht e
      have ht' : t ∈ kernel :: c :: users := by
        rcases List.mem_cons.mp ht with rfl | ht
        · exact List.mem_cons_self
        · exact List.mem_cons_of_mem _ (List.mem_cons_of_mem _ ht)
      have htc : t ≠ c := by
        rintro rfl
        rcases List.mem_cons.mp ht with rfl | ht
        · exact hkc rfl
        · exact apart.2.1 ht
      exact ⟨.kept installed.planted back ht' htc hkc, .kept h forth ht' htc hkc⟩
    constructor
    · intro t ht
      have ht' : t ∈ kernel :: c :: users := by
        rcases List.mem_cons.mp ht with rfl | ht
        · exact List.mem_cons_self
        · exact List.mem_cons_of_mem _ (List.mem_cons_of_mem _ ht)
      exact seen_eq_of_leads h installed.planted ht' (others t ht)
    · intro e seen' _
      obtain ⟨leads, valid⟩ := (installed.planted.seen_iff root).mp seen'
      -- The upper half of the clone is the kernel's before and after.
      have sameAfter : m'.tables kernel (px 2 va) = m'.tables c (px 2 va) := by
        rw [upper, copied, forth kernel kernel [] (h.roots kernel hkernel) hkc]
      have atKernel := (others kernel List.mem_cons_self e).mp ((leads_of_root sameAfter).mpr leads)
      exact (h.seen_iff root).mpr ⟨(leads_of_root (congrFun copied _).symm).mp atKernel, valid⟩

/-- The flags of a page of the kernel. -/
structure KernelFlag (flag : PTEFlags) : Prop where
  small : flag < 2 ^ 8
  global : flag.contains PTEFlags.g = true
  supervisor : flag.contains PTEFlags.u = false

theorem mapLoop_secluded {paEnd fuel : Nat} {flag : PTEFlags} (hflag : KernelFlag flag) :
    ∀ {pa va : Nat} {m : Memory}, vmOffset ≤ va → Secluded kernel [] m →
      PageTable.mapLoop kernel paEnd flag fuel pa va m = .ok () m' → Secluded kernel [] m' := by
  induction fuel with
  | zero =>
    intro pa va m _ _ ran
    cases ran
  | succ fuel ih =>
    rintro pa va m hva ⟨place, h, supervised⟩ ran
    rw [PageTable.mapLoop] at ran
    by_cases more : pa < paEnd
    · rw [if_pos more] at ran
      simp only [Call.bind_eq_ok, addUsize_ok] at ran
      obtain ⟨_, m₁, here, _, _, ⟨rfl, -, rfl⟩, _, m₁, ⟨rfl, fits, rfl⟩, rest⟩ := ran
      have high := px_kernel hva (by omega)
      obtain ⟨place', mapped⟩ := mapPage_mapped h List.mem_cons_self
        (fun _ => ⟨hflag.global, high, rfl⟩) (fun user => absurd user List.not_mem_nil) here
      refine ih (by omega) ⟨place', mapped.planted, ?_⟩ rest
      intro t q i ht hq valid user
      rcases mapped.leaves t kernel q i ht hq with new | blank | ⟨old, same⟩
      · simp only [new, Entry.isUser] at user
        rw [Entry.flag_new pa hflag.small, hflag.supervisor] at user
        cases user
      · exact blank valid
      · simp only [same] at valid user
        exact supervised t q i old hq valid user
    · rw [if_neg more] at ran
      cases ran
      exact ⟨place, h, supervised⟩

theorem map_secluded {pa va size : Nat} {flag : PTEFlags} (hflag : KernelFlag flag)
    (hva : vmOffset ≤ va) (h : Secluded kernel [] m)
    (ran : PageTable.map kernel pa va size flag m = .ok () m') : Secluded kernel [] m' := by
  simp only [PageTable.map, Call.bind_eq_ok, require_ok, addUsize_ok] at ran
  obtain ⟨_, _, ⟨-, rfl⟩, _, _, ⟨rfl, -, rfl⟩, looped⟩ := ran
  exact mapLoop_secluded hflag hva h looped

theorem first_secluded (nodup : m.kernelFree.Nodup) (sane : ∀ t ∈ m.kernelFree, Sane t) {root : Nat}
    (ran : PageTable.new m = .ok root m') : Secluded root [] m' := by
  refine ⟨_, .first nodup sane ran, ?_⟩
  intro t q i ht hq
  by_cases here : t = root
  · rw [here, Function.update_self] at ht
    cases ht
    cases hq
  · rw [Function.update_of_ne here] at ht
    cases ht

theorem boot_isolated (nodup : m.kernelFree.Nodup) (sane : ∀ t ∈ m.kernelFree, Sane t)
    {etext ramSize : Nat} {s : System} (booted : boot etext ramSize m = some s) : Isolated s := by
  rw [boot] at booted
  split at booted
  case h_2 => cases booted
  case h_1 root m' ran =>
    cases booted
    simp only [KernelPgTable.initInner, Call.bind_eq_ok, addUsize_ok, subUsize_ok, ofVa_ok,
      Call.pure_apply, Outcome.ok.injEq] at ran
    obtain ⟨_, m₁, new, _, _, ⟨-, -, rfl⟩, _, _, ⟨-, above, rfl⟩, _, m₂, text,
      _, _, ⟨-, -, rfl⟩, _, _,
      ⟨-, -, rfl⟩, _, m₃, data, _, _, ⟨-, -, rfl⟩, _, m₄, plic, _, _, ⟨-, -, rfl⟩,
      _, m₅, mmio, rfl, rfl⟩ :=
      ran
    have first := first_secluded nodup sane new
    have rx : KernelFlag KernelPgTable.rx := ⟨by decide, by decide, by decide⟩
    have rw : KernelFlag KernelPgTable.rw := ⟨by decide, by decide, by decide⟩
    have lower : vmOffset ≤ etext := Nat.le_trans (Nat.le_add_left _ _) above
    have afterText := map_secluded rx (Nat.le_add_left _ _) first text
    have afterData := map_secluded rw lower afterText data
    have afterPlic := map_secluded rw (Nat.le_add_left _ _) afterData plic
    have afterMmio := map_secluded rw (Nat.le_add_left _ _) afterPlic mmio
    rw [Isolated, System.whole, System.lent, List.flatMap_nil, Memory.plus_nil]
    exact afterMmio

/-- Every page that the executable asks for is in the lower half of the address space. -/
def Elf64.Lower (elf : Elf64) : Prop := ∀ va ∈ elf.addresses, (px 2 va).val < 256

instance (elf : Elf64) : Decidable elf.Lower :=
  inferInstanceAs (Decidable (∀ va ∈ elf.addresses, (px 2 va).val < 256))

/-- The executable in a file, if there is one, asks for pages of the lower half only. -/
def Benign (parse : List UInt8 → Option Elf) : Event → Prop
  | .execute file => ∀ buf elf, file = .ok buf → parse buf = some (.elf64 elf) → elf.Lower
  | .exit _ => True

/-- Loading fails for a file that is no executable, and then the memory is as before, save for the
order of the free pages. -/
theorem loadExecutable_cases {parse : List UInt8 → Option Elf} {file : Contents}
    {r : Except OsError ExecInfo} (nodup : m.kernelFree.Nodup)
    (ran : loadExecutable parse file c m = .ok r m') :
    (∃ buf elf info, file = .ok buf ∧ parse buf = some (.elf64 elf) ∧ r = .ok info) ∨
      (∃ e, r = .error e) ∧ m' = m.withFree m'.kernelFree ∧ m'.kernelFree.Perm m.kernelFree := by
  rw [loadExecutable, Call.bind_eq_ok] at ran
  obtain ⟨_, m₁, loadedElf, rest⟩ := ran
  obtain ⟨free, free', before, after, contents⟩ := loadElf_framed nodup loadedElf []
  rw [Memory.plus_nil] at before after
  -- A file that is refused is refused with nothing done.
  have refused : ∀ e, loadContents parse file c (m.withFree free) = .ok
    (.error e) (m.withFree free) →
      (∃ e, r = .error e) ∧ m' = m.withFree m'.kernelFree ∧ m'.kernelFree.Perm m.kernelFree := by
    intro e nothing
    rw [nothing, Outcome.ok.injEq] at contents
    obtain ⟨rfl, same⟩ := contents
    cases rest
    obtain rfl : free = free' := congrArg Memory.kernelFree same
    have kept : m' = m.withFree m'.kernelFree :=
      (congrArg (fun m => Memory.withFree m m'.kernelFree) same).symm
    exact ⟨⟨e, rfl⟩, kept, after.symm.trans before⟩
  cases file with
  | error e => exact .inr (refused e.error rfl)
  | ok buf =>
    rw [loadContents] at refused contents
    cases parsed : parse buf with
    | none =>
      simp only [parsed] at refused
      exact .inr (refused .unknownFormat rfl)
    | some elf =>
      cases elf with
      | elf32 =>
        simp only [parsed] at refused
        exact .inr (refused .unknownFormat rfl)
      | elf64 elf =>
        simp only [parsed, Call.bind_eq_ok, Call.pure_apply, Outcome.ok.injEq] at contents
        obtain ⟨_, _, -, rfl, -⟩ := contents
        simp only [Call.bind_eq_ok, Call.pure_apply, Outcome.ok.injEq] at rest
        obtain ⟨_, _, -, rfl, -⟩ := rest
        exact .inl ⟨buf, elf, _, rfl, parsed, rfl⟩

theorem stackPage_lower : (px 2 stackPage).val < 256 := by decide

theorem Elf64.lower_iff (elf : Elf64) :
    elf.Lower ↔ ∀ va ∈ elf.addresses ++ [stackPage], (px 2 va).val < 256 := by
  constructor
  · intro low va hva
    rcases List.mem_append.mp hva with hva | hva
    · exact low va hva
    · rw [List.mem_singleton.mp hva]
      exact stackPage_lower
  · exact fun low va hva => low va (List.mem_append_left _ hva)

theorem Supervised.cloned (supervised : Supervised kernel m place)
    (kept : ∀ t p, place t = some p → m'.tables t = m.tables t) :
    Supervised kernel m' (Function.update place c (some (c, []))) := by
  intro t q i ht hq
  by_cases here : t = c
  · rw [here, Function.update_self] at ht
    cases ht
    cases hq
  · rw [Function.update_of_ne here] at ht
    rw [kept t _ ht]
    exact supervised t q i ht hq

/-- The stack of a new thread is taken from the free pages. -/
theorem System.whole_started {s : System} {stack : List Nat} (fresh : c ∉ s.users)
    (lent : Lent m stack m') :
    (System.whole ⟨m', s.kernel, c :: s.users, Function.update s.stackPages c stack⟩).tables =
      m.tables ∧
      (System.whole ⟨m', s.kernel, c :: s.users,
        Function.update s.stackPages c stack⟩).kernelFree.Perm (m.plus s.lent).kernelFree := by
  have others : s.users.flatMap (Function.update s.stackPages c stack) = s.lent := by
    refine List.flatMap_congr fun pt hpt => Function.update_of_ne ?_ _ _
    rintro rfl
    exact fresh hpt
  have all : (c :: s.users).flatMap (Function.update s.stackPages c stack) = stack ++ s.lent := by
    rw [List.flatMap_cons, Function.update_self, others]
  refine ⟨lent.tables, ?_⟩
  simp only [System.whole, Memory.plus_kernelFree]
  rw [System.lent, all, ← List.append_assoc]
  exact (List.perm_append_comm.trans lent.perm.symm).append_right _

/-- With the stack of the thread that ends the whole memory is the same. -/
theorem System.whole_ended {s : System} {pt : PageTable} (hpt : pt ∈ s.users) :
    ({ s.memory with kernelFree := s.stackPages pt ++ s.memory.kernelFree }.plus
      ((s.users.erase pt).flatMap s.stackPages)).kernelFree.Perm s.whole.kernelFree := by
  have all := (List.perm_cons_erase hpt).flatMap_right s.stackPages
  rw [List.flatMap_cons] at all
  simp only [System.whole, System.lent, Memory.plus_kernelFree]
  refine .trans ?_ (all.symm.append_left _)
  rw [← List.append_assoc]
  exact List.perm_append_comm.append_right _

/-- A space that is destroyed is gone from the whole memory, where the other stacks' pages are
free. -/
theorem Secluded.destroyed {more : List Nat} (h : Planted kernel users (m.plus more) place)
    (supervised : Supervised kernel m place) (hc : c ∈ users)
    (ran : PageTable.destroy c m = .ok () m') : Secluded kernel (users.erase c) (m'.plus more) := by
  obtain ⟨planted, tables⟩ := h.destroyed hc (Frames.destroy c _ _ _ more ran)
  refine ⟨_, planted, ?_⟩
  intro x q i hx hq
  rw [tables]
  exact supervised x q i (Option.eq_some_of_filter_eq_some hx) hq

theorem step_isolated {parse : List UInt8 → Option Elf} {s t : System} {ev : Event}
    (h : Isolated s) (benign : Benign parse ev) (stepped : step parse s ev = some t) :
    Isolated t := by
  obtain ⟨place, planted, supervised⟩ := h
  cases ev with
  | execute file =>
    rw [step] at stepped
    cases ran : execute parse s.kernel file s.memory with
    | err e _ => cases e
    | halt _ =>
      rw [ran] at stepped
      cases stepped
    | ok found m' =>
      rw [ran] at stepped
      rw [execute, Call.bind_eq_ok] at ran
      obtain ⟨c, m₁, cloned, ran⟩ := ran
      rw [Call.bind_eq_ok] at ran
      obtain ⟨loaded, m₂, load, rest⟩ := ran
      obtain ⟨planted₁, -, -, kept⟩ := planted.cloned (Frames.clone s.kernel _ _ _ s.lent cloned)
      have supervised₁ := supervised.cloned (c := c) kept
      have apart := List.nodup_cons.mp planted₁.apart
      have hc : c ∈ c :: s.users := List.mem_cons_self
      rcases loadExecutable_cases planted₁.nodup_of_plus load with
        ⟨buf, elf, info, rfl, parsed, rfl⟩ | ⟨⟨e, rfl⟩, same, perm⟩
      · simp only [Call.bind_eq_ok, Call.pure_apply, Outcome.ok.injEq] at rest
        obtain ⟨stack, m₃, allocated, rfl, rfl⟩ := rest
        cases stepped
        obtain ⟨place₂, installed⟩ := loadExecutable_installed parsed hc planted₁ load
        have within := installed.within (elf.lower_iff.mp (benign buf elf rfl parsed))
        obtain ⟨tables, free⟩ := System.whole_started (s := s) (List.nodup_cons.mp apart.2).1
          (kallocSize_lent installed.planted.nodup_of_plus allocated)
        refine ⟨place₂, installed.planted.perm tables free, ?_⟩
        intro x q i hx hq
        obtain ⟨hx₁, same⟩ := within x _ q hx fun hne => apart.1 (hne ▸ hc)
        rw [tables]
        simp only [Memory.plus_tables] at same
        rw [same]
        exact supervised₁ x q i hx₁ hq
      · rw [Call.bind_eq_ok] at rest
        obtain ⟨_, m₃, destroyed, rest⟩ := rest
        cases rest
        cases stepped
        have planted₂ : Planted s.kernel (c :: s.users) (m₂.plus s.lent) _ :=
          planted₁.perm (by rw [same]; rfl) (perm.append_right s.lent)
        have supervised₂ :
            Supervised s.kernel m₂ (Function.update place c (some (c, []))) := by
          rw [same]
          exact supervised₁
        have := Secluded.destroyed planted₂ supervised₂ hc destroyed
        rw [List.erase_cons_head] at this
        exact this
  | exit pt =>
    rw [step] at stepped
    split at stepped
    case isFalse => cases stepped
    case isTrue hpt =>
      split at stepped
      case h_2 => cases stepped
      case h_1 m' dropped =>
        cases stepped
        rw [Process.drop, kfreeSize, Palloc.dealloc, Call.modify_bind] at dropped
        have planted₁ : Planted s.kernel s.users ({ s.memory with
            kernelFree := s.stackPages pt ++ s.memory.kernelFree }.plus
              ((s.users.erase pt).flatMap s.stackPages)) place :=
          planted.perm rfl (System.whole_ended hpt)
        exact Secluded.destroyed planted₁ supervised hpt dropped

theorem Isolated.planted {s : System} (h : Isolated s) :
    ∃ place, Planted s.kernel s.users s.memory place ∧ Supervised s.kernel s.memory place := by
  obtain ⟨place, planted, supervised⟩ := h
  exact ⟨place, planted.less rfl planted.nodup_of_plus fun _ ht => List.mem_append_left _ ht,
    supervised⟩

theorem Isolated.untouched_iff {parse : List UInt8 → Option Elf} {s : System} (h : Isolated s)
    {buf : List UInt8} {elf : Elf64} (parsed : parse buf = some (.elf64 elf))
    (cloned : KernelPgTable.clone s.kernel s.memory = .ok c m₁) {r : Except OsError ExecInfo}
    (loaded : loadExecutable parse (.ok buf) c m₁ = .ok r m₂) :
    Untouched (s.kernel :: s.users) c m₁ m₂ ↔ elf.Lower := by
  obtain ⟨place, planted, supervised⟩ := h.planted
  obtain ⟨planted₁, -, copied, kept⟩ := planted.cloned cloned
  have atKernel := kept _ _ (planted.roots _ List.mem_cons_self)
  rw [← Memory.plus_nil m₁] at planted₁
  obtain ⟨place₂, installed⟩ := loadExecutable_installed parsed List.mem_cons_self planted₁ loaded
  rw [Memory.plus_nil] at planted₁
  rw [Memory.plus_nil, Memory.plus_nil] at installed
  rw [elf.lower_iff]
  exact installed.untouched_iff planted₁ (supervised.cloned kept) (copied.trans atKernel.symm)

def readLE (bytes : List UInt8) (offset len : Nat) : Nat :=
  ((bytes.drop offset).take len).foldr (fun b acc => b.toNat + 256 * acc) 0

def programHeaderAt (bytes : List UInt8) (offset : Nat) : ProgramHeader where
  phType := if readLE bytes offset 4 = 1 then .load else .other
  offset := .ofNat (readLE bytes (offset + 8) 8)
  vaddr := .ofNat (readLE bytes (offset + 16) 8)
  filesz := .ofNat (readLE bytes (offset + 32) 8)
  memsz := .ofNat (readLE bytes (offset + 40) 8)
  execute := (readLE bytes (offset + 4) 4).testBit 0
  write := (readLE bytes (offset + 4) 4).testBit 1

/-- What `Elf::from_bytes` reads of a little-endian file. -/
def Elf.fromBytes (bytes : List UInt8) : Option Elf :=
  if bytes.length < 64 ∨ bytes.take 4 ≠ [0x7f, 0x45, 0x4c, 0x46] then none
  else if readLE bytes 4 1 = 1 then some .elf32
  else if readLE bytes 4 1 = 2 then
    some (.elf64 ⟨.ofNat (readLE bytes 24 8), (List.range (readLE bytes 56 2)).map fun k =>
      programHeaderAt bytes (readLE bytes 32 8 + k * readLE bytes 54 2)⟩)
  else none

def writeLE (len n : Nat) : List UInt8 := (List.range len).map fun k => UInt8.ofNat (n / 256 ^ k)

/-- An executable of one segment, the file itself, for a given address. -/
def image (vaddr : Nat) : List UInt8 :=
  [0x7f, 0x45, 0x4c, 0x46, 2, 1, 1] ++ writeLE 9 0 ++ writeLE 2 2 ++ writeLE 2 243 ++ writeLE 4 1 ++
    writeLE 8 vaddr ++ writeLE 8 64 ++ writeLE 8 0 ++ writeLE 4 0 ++ writeLE 2 64 ++ writeLE 2 56 ++
    writeLE 2 1 ++ writeLE 6 0 ++ writeLE 4 1 ++ writeLE 4 5 ++ writeLE 8 0 ++ writeLE 8 vaddr ++
    writeLE 8 vaddr ++ writeLE 8 120 ++ writeLE 8 120 ++ writeLE 8 4096

def imageHeader (vaddr : UInt64) : ProgramHeader where
  phType := .load
  offset := 0
  vaddr := vaddr
  filesz := 120
  memsz := 120
  execute := true
  write := false

def bootMemory : Memory where
  tables := fun _ _ => 0
  frames := fun _ => []
  kernelFree := (List.range 200).map fun k => 0xFFFFFFC081000000 + k * 2 ^ 12
  userFree := (List.range 256).map fun k => 0xFFFFFFC087E00000 + k * 2 ^ 12

def bootEtext : Nat := 0xFFFFFFC080400000

def bootRam : Nat := 0x8000000

theorem bootMemory_nodup : bootMemory.kernelFree.Nodup := by
  refine List.nodup_range.map ?_
  intro a b hab
  simp only at hab
  omega

theorem bootMemory_sane : ∀ t ∈ bootMemory.kernelFree, Sane t := by
  intro t ht
  obtain ⟨k, hk, rfl⟩ := List.mem_map.mp ht
  have := List.mem_range.mp hk
  refine ⟨?_, by omega, by omega⟩
  rw [vmOffset_eq]
  omega

theorem bootMemory_saneUser : ∀ t ∈ bootMemory.userFree, Sane t := by
  intro t ht
  obtain ⟨k, hk, rfl⟩ := List.mem_map.mp ht
  have := List.mem_range.mp hk
  refine ⟨?_, by omega, by omega⟩
  rw [vmOffset_eq]
  omega

/-- The machine boots, and the pages that it did not need are left. -/
theorem boot_supply : ∃ start used, boot bootEtext bootRam bootMemory = some start ∧
    start.memory.kernelFree = used ++ bootMemory.kernelFree.drop 133 ∧
    start.memory.userFree = bootMemory.userFree ∧ start.memory.userFree.length = 256 := by
  have pages : kernelPages bootEtext bootRam = 133 := by decide
  have split : bootMemory = (bootMemory.withFree (bootMemory.kernelFree.take 133)).plus
      (bootMemory.kernelFree.drop 133) := by
    rw [Memory.plus, Memory.withFree_kernelFree, List.take_append_drop]
    rfl
  have supply : (bootMemory.kernelFree.take 133).length = 133 := by
    rw [bootMemory, List.length_take, List.length_map, List.length_range]
    rfl
  have users : bootMemory.userFree.length = 256 := by
    rw [bootMemory, List.length_map, List.length_range]
  -- The boot runs on the first pages, and leaves the others alone.
  obtain ⟨root, m, ran, user, taken, -⟩ :=
    initInner_takes (m := bootMemory.withFree (bootMemory.kernelFree.take 133))
    (bootMemory_nodup.sublist (List.take_sublist _ _))
    (fun t ht => bootMemory_sane t (List.mem_of_mem_take ht))
    (by decide : bootEtext % 2 ^ 12 = 0) (by decide)
    (by decide : bootEtext ≤ _ + bootRam) (by decide)
    (by rw [pages, Memory.withFree_kernelFree, supply])
  have booted := Frames.initInner bootEtext bootRam _ _ _ (bootMemory.kernelFree.drop 133) ran
  rw [← split] at booted
  refine ⟨⟨m.plus (bootMemory.kernelFree.drop 133), root, [], fun _ => []⟩, m.kernelFree, ?_, rfl,
    user, ?_⟩
  · rw [boot, booted]
  · show m.userFree.length = 256
    rw [user, Memory.withFree_userFree, users]

/-- A small program is loaded after the boot, wherever it asks to be, and takes none of the last
pages. -/
theorem booted_leaves {start : System} {used : List Nat}
    (booted : boot bootEtext bootRam bootMemory = some start)
    (left : start.memory.kernelFree = used ++ bootMemory.kernelFree.drop 133)
    (user : start.memory.userFree = bootMemory.userFree)
    (users : start.memory.userFree.length = 256)
    {buf : List UInt8} {elf : Elf64} (parsed : Elf.fromBytes buf = some (.elf64 elf))
    (loadable : ∀ p ∈ elf.segments, p.Loadable buf.length) (small : buf.length ≤ 2 ^ 10)
    (few : elf.addresses.length ≤ 8) :
    ∃ c m₁ r m₂ rest, KernelPgTable.clone start.kernel start.memory = .ok c m₁ ∧
      loadExecutable Elf.fromBytes (.ok buf) c m₁ = .ok r m₂ ∧
      m₂.kernelFree = rest ++ bootMemory.kernelFree.drop 152 := by
  obtain ⟨place, planted, -⟩ := (boot_isolated bootMemory_nodup bootMemory_sane booted).planted
  have arena := spilledPages_eq_zero small
  -- The clone and the load are run on what there is but for the last pages.
  generalize hm : start.memory.withFree (used ++ (bootMemory.kernelFree.drop 133).take 19) = m
  have last : bootMemory.kernelFree.drop 152 = (bootMemory.kernelFree.drop 133).drop 19 := by
    rw [List.drop_drop]
  have split : start.memory = m.plus (bootMemory.kernelFree.drop 152) := by
    rw [← hm, Memory.plus, Memory.withFree_withFree, Memory.withFree_kernelFree, List.append_assoc,
      last, List.take_append_drop, ← left]
    rfl
  have length : m.kernelFree.length = used.length + 19 := by
    rw [← hm, Memory.withFree_kernelFree, List.length_append, List.length_take, List.length_drop,
      bootMemory, List.length_map, List.length_range]
    rfl
  have user' : m.userFree = start.memory.userFree := by
    rw [← hm]
    rfl
  rw [split] at planted
  have planted : Planted start.kernel start.users m place :=
    planted.less rfl planted.nodup_of_plus fun _ ht => List.mem_append_left _ ht
  cases free : m.kernelFree with
  | nil =>
    rw [free, List.length_nil] at length
    omega
  | cons c rest =>
    have new := new_takes free (planted.sane c (free ▸ List.mem_cons_self))
    have cloned : KernelPgTable.clone start.kernel m = .ok c _ := Call.bind_ok new
    obtain ⟨planted₁, -⟩ := planted.cloned cloned
    rw [free, List.length_cons] at length
    obtain ⟨m₂, loaded⟩ := loadExecutable_returns parsed List.mem_cons_self loadable
      (Nat.le_trans small (by decide)) (.inl arena) planted₁ (user' ▸ user ▸ bootMemory_saneUser)
      (by show elf.addresses.length + 1 ≤ m.userFree.length; rw [user', users]; omega)
      (by rw [arena, blockLength, if_pos rfl]; show _ ≤ rest.length; omega)
    have frames : Frames (loadExecutable Elf.fromBytes (.ok buf) c) := .loadExecutable _ arena
    refine ⟨c, _, _, _, m₂.kernelFree, ?_, frames _ _ _ _ loaded, rfl⟩
    rw [split]
    exact Frames.clone start.kernel _ _ _ _ cloned

theorem booted_loads {buf : List UInt8} {elf : Elf64}
    (parsed : Elf.fromBytes buf = some (.elf64 elf))
    (loadable : ∀ p ∈ elf.segments, p.Loadable buf.length) (small : buf.length ≤ 2 ^ 10)
    (few : elf.addresses.length ≤ 8) :
    ∃ start c m₁ r m₂, boot bootEtext bootRam bootMemory = some start ∧
      KernelPgTable.clone start.kernel start.memory = .ok c m₁ ∧
      loadExecutable Elf.fromBytes (.ok buf) c m₁ = .ok r m₂ := by
  obtain ⟨start, used, booted, left, user, users⟩ := boot_supply
  obtain ⟨c, m₁, r, m₂, -, cloned, loaded, -⟩ :=
    booted_leaves booted left user users parsed loadable small few
  exact ⟨start, c, m₁, r, m₂, booted, cloned, loaded⟩

/-- In a system that has been benign so far, an executable is loaded without a trace in the
kernel's address space if and only if it asks for pages of the lower half only. -/
theorem load_untouched_iff {parse : List UInt8 → Option Elf} {etext ramSize : Nat}
    (nodup : m.kernelFree.Nodup) (sane : ∀ t ∈ m.kernelFree, Sane t) {start s : System}
    (booted : boot etext ramSize m = some start) {es : List Event}
    (meets : Guarded (step parse) (fun _ => Benign parse) start es)
    (ran : run (step parse) start es = some s) {buf : List UInt8} {elf : Elf64}
    (parsed : parse buf = some (.elf64 elf))
    (cloned : KernelPgTable.clone s.kernel s.memory = .ok c m₁) {r : Except OsError ExecInfo}
    (loaded : loadExecutable parse (.ok buf) c m₁ = .ok r m₂) :
    Untouched (s.kernel :: s.users) c m₁ m₂ ↔ elf.Lower := by
  have isolated : Isolated s :=
    guarded_run_invariant (fun _ _ _ h benign stepped => step_isolated h benign stepped)
      (boot_isolated nodup sane booted) meets ran
  exact isolated.untouched_iff parsed cloned loaded

/-- A program that asks for the page at `0x10000` leaves the kernel alone. -/
theorem low_image_untouched :
    ∃ start c m₁ r m₂, boot bootEtext bootRam bootMemory = some start ∧
      KernelPgTable.clone start.kernel start.memory = .ok c m₁ ∧
      loadExecutable Elf.fromBytes (.ok (image 0x10000)) c m₁ = .ok r m₂ ∧
      Untouched (start.kernel :: start.users) c m₁ m₂ := by
  have parsed : Elf.fromBytes (image 0x10000) = some (.elf64 ⟨0x10000, [imageHeader 0x10000]⟩) := by
    decide +kernel
  have segments : Elf64.segments ⟨0x10000, [imageHeader 0x10000]⟩ = [imageHeader 0x10000] := by
    decide
  have loadable : (imageHeader 0x10000).Loadable (image 0x10000).length :=
    ⟨by decide, by decide, by decide, by decide, fun _ => by decide⟩
  obtain ⟨start, c, m₁, r, m₂, booted, cloned, loaded⟩ := booted_loads parsed
    (by rw [segments]; exact fun p hp => List.mem_singleton.mp hp ▸ loadable)
    (by decide) (by decide)
  have meets : Guarded (step Elf.fromBytes) (fun _ => Benign Elf.fromBytes) start [] := trivial
  have untouched := (load_untouched_iff bootMemory_nodup bootMemory_sane booted meets
    (run_nil (step Elf.fromBytes) start) parsed cloned loaded).mpr (by decide)
  exact ⟨start, c, m₁, r, m₂, booted, cloned, loaded, untouched⟩

/-- A program that asks for the page where the kernel's text is gets it. -/
theorem high_image_touches :
    ∃ start c m₁ r m₂, boot bootEtext bootRam bootMemory = some start ∧
      KernelPgTable.clone start.kernel start.memory = .ok c m₁ ∧
      loadExecutable Elf.fromBytes (.ok (image 0xFFFFFFC080200000)) c m₁ = .ok r m₂ ∧
      ¬ Untouched (start.kernel :: start.users) c m₁ m₂ := by
  have parsed : Elf.fromBytes (image 0xFFFFFFC080200000) =
      some (.elf64 ⟨0xFFFFFFC080200000, [imageHeader 0xFFFFFFC080200000]⟩) := by
    decide +kernel
  have segments : Elf64.segments ⟨0xFFFFFFC080200000, [imageHeader 0xFFFFFFC080200000]⟩ =
    [imageHeader 0xFFFFFFC080200000] := by decide
  have loadable : (imageHeader 0xFFFFFFC080200000).Loadable (image 0xFFFFFFC080200000).length :=
    ⟨by decide, by decide, by decide, by decide, fun _ => by decide⟩
  obtain ⟨start, c, m₁, r, m₂, booted, cloned, loaded⟩ := booted_loads parsed
    (by rw [segments]; exact fun p hp => List.mem_singleton.mp hp ▸ loadable)
    (by decide) (by decide)
  refine ⟨start, c, m₁, r, m₂, booted, cloned, loaded, fun untouched => ?_⟩
  have isolated := boot_isolated bootMemory_nodup bootMemory_sane booted
  exact absurd ((isolated.untouched_iff parsed cloned loaded).mp untouched) (by decide)

end Isolation

end Tacos.Userproc
