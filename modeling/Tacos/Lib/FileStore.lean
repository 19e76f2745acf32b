/- GID: Tacos/Lib/FileStore
   generality: G
   source: none
   digest: Files with names and descriptors, what each call on them may do, and what runs of calls
     keep. -/

import Mathlib.Data.List.Basic
import Mathlib.Logic.Function.Basic
import Tacos.Lib.Run

set_option autoImplicit false
set_option relaxedAutoImplicit false

namespace Tacos.Lib.FileStore

open Tacos.Lib.Run

universe u v w

/-- A descriptor: the file that it is on, its cursor, and whether it denies writing. -/
structure Descriptor (X : Type v) where
  file : X
  pos : Nat
  denies : Bool

/-- Files with their bytes, the names and descriptors that lead to them, and how often writing to
each file is denied. -/
structure Store (N : Type u) (X : Type v) (H α : Type w) where
  names : N → Option X
  bytes : X → List α
  files : H → Option (Descriptor X)
  denials : X → Nat

variable {N : Type u} {X : Type v} {H α ε : Type w}

/-- The calls. A seek goes where a function of the length and of the cursor says. -/
inductive Action (N : Type u) (H α : Type w) where
  | create (n : N)
  | openFile (n : N)
  | remove (n : N)
  | drop (h : H)
  | read (h : H) (k : Nat)
  | write (h : H) (xs : List α)
  | seek (h : H) (target : Nat → Nat → Option Nat)
  | setLen (h : H) (k : Nat)
  | len (h : H)
  | clone (h : H)
  | denyWrite (h : H)
  | reboot

inductive Answer (H α ε : Type w) where
  | handle (h : H)
  | done
  | bytes (xs : List α)
  | count (k : Nat)
  | failed (e : ε)
  deriving DecidableEq

/-- What a call says when there is no such name, when writing is denied, and when there is no
room. -/
structure Codes (ε : Type w) where
  missing : ε
  denied : ε
  full : ε

/-- The bytes of a file after a write: it is as long as it has to be, the bytes are there, and those
outside of their range are as before. -/
structure Wrote (old new : List α) (pos : Nat) (xs : List α) : Prop where
  length : new.length = max old.length (pos + xs.length)
  inside : ∀ i < xs.length, new[pos + i]? = xs[i]?
  outside : ∀ i < old.length, ¬(pos ≤ i ∧ i < pos + xs.length) → new[i]? = old[i]?

/-- The bytes of a file after a change of its length. -/
structure Cut (old new : List α) (k : Nat) : Prop where
  length : new.length = k
  kept : ∀ i < old.length, i < k → new[i]? = old[i]?

namespace Store

variable (s t : Store N X H α)

def Open (x : X) : Prop := ∃ h d, s.files h = some d ∧ d.file = x

def Live (x : X) : Prop := s.Open x ∨ ∃ n, s.names n = some x

/-- Two stores that differ only in files that nobody can get to, and in denials for files that are
not open. -/
structure Alike : Prop where
  names : t.names = s.names
  files : t.files = s.files
  bytes : ∀ x, t.Live x → t.bytes x = s.bytes x
  denials : ∀ x, t.Open x → t.denials x = s.denials x

/-- What a name leads to is changed. -/
def name [DecidableEq N] (n : N) (x? : Option X) : Store N X H α :=
  { s with names := Function.update s.names n x? }

def put [DecidableEq H] (h : H) (d? : Option (Descriptor X)) :
    Store N X H α := { s with files := Function.update s.files h d? }

section Changes

variable [DecidableEq X]

def fill (x : X) (xs : List α) : Store N X H α := { s with bytes := Function.update s.bytes x xs }

def count (x : X) (k : Nat) : Store N X H α := { s with denials := Function.update s.denials x k }

/-- A descriptor that denies writing no longer does. -/
def released (d : Descriptor X) : Store N X H α :=
  if d.denies then s.count d.file (s.denials d.file - 1) else s

@[simp] theorem released_names (d : Descriptor X) : (s.released d).names = s.names := by
  rw [released]
  split <;> rfl

@[simp] theorem released_bytes (d : Descriptor X) : (s.released d).bytes = s.bytes := by
  rw [released]
  split <;> rfl

@[simp] theorem released_files (d : Descriptor X) : (s.released d).files = s.files := by
  rw [released]
  split <;> rfl

theorem released_denials (d : Descriptor X) (x : X) : (s.released d).denials x =
    if d.denies = true ∧ x = d.file then s.denials d.file - 1 else s.denials x := by
  rw [released]
  by_cases denies : d.denies = true
  · rw [if_pos denies]
    by_cases here : x = d.file
    · rw [if_pos ⟨denies, here⟩, here]
      exact Function.update_self ..
    · rw [if_neg fun both => here both.2]
      exact Function.update_of_ne here _ _
  · rw [if_neg denies, if_neg fun both => denies both.1]

variable [DecidableEq H]

open Classical in
/-- A new descriptor at the start of a file. Denials are forgotten while a file is not open. -/
noncomputable def opened (x : X) (h : H) : Store N X H α :=
  (if s.Open x then s else s.count x 0).put h (some ⟨x, 0, false⟩)

@[simp] theorem opened_names (x : X) (h : H) : (s.opened x h).names = s.names := by
  rw [opened]
  split <;> rfl

@[simp] theorem opened_bytes (x : X) (h : H) : (s.opened x h).bytes = s.bytes := by
  rw [opened]
  split <;> rfl

@[simp] theorem opened_files (x : X) (h : H) :
    (s.opened x h).files = Function.update s.files h (some ⟨x, 0, false⟩) := by
  rw [opened]
  split <;> rfl

theorem opened_denials_same {x : X} (here : s.Open x) (h : H) :
    (s.opened x h).denials = s.denials := by
  rw [opened, if_pos here]
  rfl

theorem opened_denials_new {x : X} (closed : ¬s.Open x) (h : H) :
    (s.opened x h).denials = Function.update s.denials x 0 := by
  rw [opened, if_neg closed]
  rfl

end Changes

end Store

open Store

variable [DecidableEq N] [DecidableEq X] [DecidableEq H]

/-- What each call may answer, and what it leaves. A call that fails changes nothing. -/
inductive Does (c : Codes ε) (s : Store N X H α) : Action N H α →
    Answer H α ε → Store N X H α → Prop
  | made {t : Store N X H α} {n : N} {h : H} {x : X} : s.names n = none →
    ¬s.Live x → s.files h = none →
      Alike (((s.name n (some x)).fill x []).opened x h) t → Does c s (.create n) (.handle h) t
  | emptied {t : Store N X H α} {n : N} {h : H} {x : X} : s.names n = some x → s.files h = none →
      Alike ((s.fill x []).opened x h) t → Does c s (.create n) (.handle h) t
  | unmade {t : Store N X H α} {n : N} {e : ε} : s.names n = none → Alike s t →
    Does c s (.create n) (.failed e) t
  | opened {t : Store N X H α} {n : N} {h : H} {x : X} : s.names n = some x → s.files h = none →
      Alike (s.opened x h) t → Does c s (.openFile n) (.handle h) t
  | unknown {t : Store N X H α} {n : N} : s.names n = none → Alike s t →
      Does c s (.openFile n) (.failed c.missing) t
  | removed {t : Store N X H α} {n : N} {x : X} : s.names n = some x → Alike (s.name n none) t →
      Does c s (.remove n) .done t
  | unnamed {t : Store N X H α} {n : N} : s.names n = none → Alike s t →
    Does c s (.remove n) (.failed c.missing) t
  | dropped {t : Store N X H α} {h : H} {d : Descriptor X} : s.files h = some d →
      Alike ((s.released d).put h none) t → Does c s (.drop h) .done t
  | read {t : Store N X H α} {h : H} {k : Nat} {d : Descriptor X} {xs : List α} :
  s.files h = some d →
      xs = ((s.bytes d.file).drop d.pos).take k →
        Alike (s.put h (some { d with pos := d.pos + xs.length })) t →
      Does c s (.read h k) (.bytes xs) t
  | wrote {t : Store N X H α} {h : H} {xs new : List α} {d : Descriptor X} : s.files h = some d →
      s.denials d.file = 0 → Wrote (s.bytes d.file) new d.pos xs →
      Alike ((s.fill d.file new).put h (some { d with pos := d.pos + xs.length })) t →
      Does c s (.write h xs) (.count xs.length) t
  | denied {t : Store N X H α} {h : H} {xs : List α} {d : Descriptor X} : s.files h = some d →
      s.denials d.file ≠ 0 → Alike s t → Does c s (.write h xs) (.failed c.denied) t
  | unwritten {t : Store N X H α} {h : H} {xs : List α} {d : Descriptor X} : s.files h = some d →
      s.denials d.file = 0 → (s.bytes d.file).length < d.pos + xs.length → Alike s t →
      Does c s (.write h xs) (.failed c.full) t
  | moved {t : Store N X H α} {h : H} {target : Nat → Nat → Option Nat}
      {p : Nat} {d : Descriptor X} :
      s.files h = some d → target (s.bytes d.file).length d.pos = some p →
      Alike (s.put h (some { d with pos := p })) t → Does c s (.seek h target) (.count p) t
  | cut {t : Store N X H α} {h : H} {k : Nat} {new : List α} {d : Descriptor X} :
      s.files h = some d →
      Cut (s.bytes d.file) new k → Alike (s.fill d.file new) t → Does c s (.setLen h k) .done t
  | uncut {t : Store N X H α} {h : H} {k : Nat} {d : Descriptor X} : s.files h = some d →
      (s.bytes d.file).length < k → Alike s t → Does c s (.setLen h k) (.failed c.full) t
  | measured {t : Store N X H α} {h : H} {d : Descriptor X} : s.files h = some d → Alike s t →
      Does c s (.len h) (.count (s.bytes d.file).length) t
  | cloned {t : Store N X H α} {h k : H} {d : Descriptor X} :
      s.files h = some d → s.files k = none →
      Alike (s.put k (some d)) t → Does c s (.clone h) (.handle k) t
  | forbidden {t : Store N X H α} {h : H} {d : Descriptor X} : s.files h = some d →
      Alike ((s.count d.file (s.denials d.file + 1)).put h (some { d with denies := true })) t →
      Does c s (.denyWrite h) .done t
  | rebooted {t : Store N X H α} : (∀ h, s.files h = none) → Alike s t → Does c s .reboot .done t

/-- Calls one after another with their answers. -/
inductive Runs (c : Codes ε) : Store N X H α → List (Action N H α × Answer H α ε) →
    Store N X H α → Prop
  | nil (s : Store N X H α) : Runs c s [] s
  | cons {s t u : Store N X H α} {a : Action N H α} {r : Answer H α ε}
    {rest : List (Action N H α × Answer H α ε)} :
      Does c s a r t → Runs c t rest u → Runs c s ((a, r) :: rest) u

/-- The calls that may change the bytes of a file: a new creation of its name, and writes and
changes of the length through its descriptors. -/
def Alters (s : Store N X H α) (x : X) : Action N H α → Prop
  | .create n => s.names n = some x
  | .write h _ => ∃ d, s.files h = some d ∧ d.file = x
  | .setLen h _ => ∃ d, s.files h = some d ∧ d.file = x
  | _ => False

variable {c : Codes ε} {s t : Store N X H α} {a : Action N H α} {r : Answer H α ε} {x : X} {n : N}

namespace Does

theorem named (does : Does c s a r t) (here : s.names n = some x) (stays : a ≠ .remove n) :
    t.names n = some x := by
  cases does with
  | @made _ n' h x' free new unused result =>
    have other : n ≠ n' := by
      rintro rfl
      rw [free] at here
      cases here
    rw [result.names, opened_names]
    exact (Function.update_of_ne other _ _).trans here
  | emptied named unused result =>
    rw [result.names, opened_names]
    exact here
  | opened named unused result =>
    rw [result.names, opened_names]
    exact here
  | @removed _ n' x' named result =>
    have other : n ≠ n' := by
      rintro rfl
      exact stays rfl
    rw [result.names]
    exact (Function.update_of_ne other _ _).trans here
  | @dropped _ h d mine result =>
    rw [result.names]
    exact (congrFun (released_names s d) n).trans here
  | unmade free result | unknown free result | unnamed free result => rw [result.names, here]
  | read mine same result | moved mine same result
  | cut mine same result => rw [result.names]; exact here
  | wrote mine allowed same result => rw [result.names]; exact here
  | denied mine _ result | uncut mine _ result => rw [result.names, here]
  | unwritten mine allowed _ result => rw [result.names, here]
  | measured mine result => rw [result.names, here]
  | cloned mine unused result => rw [result.names]; exact here
  | forbidden mine result => rw [result.names]; exact here
  | rebooted shut result => rw [result.names, here]

/-- A file that somebody can get to before and after a call has the same bytes, unless the call is
one that may change them. -/
theorem bytes_kept (does : Does c s a r t) (live : s.Live x) (still : t.Live x)
    (apart : ¬Alters s x a) :
    t.bytes x = s.bytes x := by
  cases does with
  | @made _ n' h x' free new unused result =>
    have other : x ≠ x' := by
      rintro rfl
      exact new live
    rw [result.bytes x still, opened_bytes]
    exact Function.update_of_ne other _ _
  | @emptied _ n' h x' named unused result =>
    have other : x ≠ x' := by
      rintro rfl
      exact apart named
    rw [result.bytes x still, opened_bytes]
    exact Function.update_of_ne other _ _
  | @wrote _ h xs new d mine allowed same result =>
    have other : x ≠ d.file := by
      rintro rfl
      exact apart ⟨d, mine, rfl⟩
    rw [result.bytes x still]
    exact Function.update_of_ne other _ _
  | @cut _ h k new d mine same result =>
    have other : x ≠ d.file := by
      rintro rfl
      exact apart ⟨d, mine, rfl⟩
    rw [result.bytes x still]
    exact Function.update_of_ne other _ _
  | opened named unused result => rw [result.bytes x still, opened_bytes]
  | @dropped _ h d mine result =>
    rw [result.bytes x still]
    exact congrFun (released_bytes s d) x
  | removed named result => rw [result.bytes x still]; rfl
  | unmade free result | unknown free result | unnamed free result => exact result.bytes x still
  | read mine same result | moved mine same result => rw [result.bytes x still]; rfl
  | denied mine _ result | uncut mine _ result => exact result.bytes x still
  | unwritten mine allowed _ result => exact result.bytes x still
  | measured mine result => exact result.bytes x still
  | cloned mine unused result => rw [result.bytes x still]; rfl
  | forbidden mine result => rw [result.bytes x still]; rfl
  | rebooted shut result => exact result.bytes x still

/-- A call that neither removes a name nor may change its file's bytes leaves both. -/
theorem stays (does : Does c s a r t) (here : s.names n = some x) (kept : a ≠ .remove n)
    (apart : ¬Alters s x a) :
    t.names n = some x ∧ t.bytes x = s.bytes x := by
  have there := does.named here kept
  exact ⟨there, does.bytes_kept (.inr ⟨n, here⟩) (.inr ⟨n, there⟩) apart⟩

end Does

/-- A system each of whose guarded steps shows as a call on a store shows each guarded run as
calls. -/
theorem Runs.of_run {S A : Type*} {step : S → A × Answer H α ε → Option S}
    {guard : S → A × Answer H α ε → Prop}
    {I : S → Prop} {view : S → Store N X H α} {call : A → Action N H α}
    (shows : ∀ s e t, I s → guard s e → step s e = some t →
      Does c (view s) (call e.1) e.2 (view t) ∧ I t)
    {s t : S} {es : List (A × Answer H α ε)} (start : I s) (meets : Guarded step guard s es)
    (ran : run step s es = some t) :
    Runs c (view s) (es.map fun e => (call e.1, e.2)) (view t) := by
  induction es generalizing s with
  | nil =>
    obtain rfl := Option.some.inj ran
    exact .nil _
  | cons e es ih =>
    obtain ⟨m, he, hm⟩ := run_cons.mp ran
    obtain ⟨does, keeps⟩ := shows s e m start meets.1 he
    exact .cons does (ih keeps (meets.2 m he) hm)

end Tacos.Lib.FileStore
