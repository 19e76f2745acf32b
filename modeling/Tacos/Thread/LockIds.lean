/- GID: Tacos/Thread/LockIds
   generality: I
   source: src/sync/sleep.rs
   digest: How Sleep locks get their identifiers, and when no two get the same. -/

import Tacos.Lib.Run
import Mathlib.Data.Finset.Card
import Mathlib.Order.Interval.Finset.Nat

set_option autoImplicit false
set_option relaxedAutoImplicit false

namespace Tacos.Thread

open Tacos.Lib.Run

/-- The shared counter, the threads that have added to it and have still to read it, and the
identifiers of the locks with their creators, in the order of creation. -/
structure LockIds where
  globalLockid : Nat
  creating : List Nat
  created : List (Nat × Nat)

namespace LockIds

/-- The two atomic steps of `Sleep::default`. -/
inductive Creation where
  | fetchAdd (t : Nat)
  | load (t : Nat)

def start : LockIds := ⟨0, [], []⟩

/-- A thread creates one lock at a time, and the counter is a `u32`. -/
def step (s : LockIds) : Creation → Option LockIds
  | .fetchAdd t =>
    if t ∈ s.creating then none
    else some { s with globalLockid := (s.globalLockid + 1) % 2 ^ 32, creating := t :: s.creating }
  | .load t =>
    if t ∈ s.creating then
      some { s with creating := s.creating.erase t, created := s.created ++ [(t, s.globalLockid)] }
    else none

def lockids (s : LockIds) : List Nat := s.created.map Prod.snd

/-- A thread adds to the counter only while no other one has still to read it, and before 2^32 locks
are there. -/
def Alone (s : LockIds) : Creation → Prop
  | .fetchAdd _ => s.creating = [] ∧ s.created.length < 2 ^ 32
  | .load _ => True

instance (s : LockIds) : ∀ e, Decidable (Alone s e)
  | .fetchAdd _ => inferInstanceAs (Decidable (_ ∧ _))
  | .load _ => .isTrue trivial

def adds (s : LockIds) : Nat := s.created.length + s.creating.length

variable {s t m : LockIds} {es : List Creation} {e : Creation}

structure Counted (s : LockIds) : Prop where
  counter : s.globalLockid = s.adds % 2 ^ 32
  small : ∀ i ∈ s.lockids, i < 2 ^ 32

theorem start_counted : start.Counted := ⟨rfl, fun _ none => nomatch none⟩

/-- One step: the counter goes up, or a lock gets the value that it has. -/
theorem step_cases (stepped : step s e = some t) :
    (∃ c, e = .fetchAdd c ∧ t = ⟨(s.globalLockid + 1) % 2 ^ 32, c :: s.creating, s.created⟩) ∨
      ∃ c, e = .load c ∧ c ∈ s.creating ∧
        t = ⟨s.globalLockid, s.creating.erase c, s.created ++ [(c, s.globalLockid)]⟩ := by
  cases e with
  | fetchAdd c =>
    rw [step] at stepped
    split at stepped
    · cases stepped
    · exact .inl ⟨c, rfl, (Option.some.inj stepped).symm⟩
  | load c =>
    rw [step] at stepped
    split at stepped
    · exact .inr ⟨c, rfl, ‹_›, (Option.some.inj stepped).symm⟩
    · cases stepped

theorem adds_load {c : Nat} (mem : c ∈ s.creating) (created : List (Nat × Nat))
    (one : created.length = 1) :
    adds ⟨s.globalLockid, s.creating.erase c, s.created ++ created⟩ = s.adds := by
  have pos := List.length_pos_of_mem mem
  simp only [adds, List.length_append, List.length_erase_of_mem mem, one]
  omega

theorem Counted.step (counted : s.Counted) (stepped : step s e = some t) : t.Counted := by
  obtain ⟨c, -, rfl⟩ | ⟨c, -, mem, rfl⟩ := step_cases stepped
  · refine ⟨?_, counted.small⟩
    have counter := counted.counter
    simp only [adds, List.length_cons] at counter ⊢
    omega
  · refine ⟨?_, ?_⟩
    · rw [adds_load mem _ rfl]
      exact counted.counter
    · intro i hi
      rw [lockids, List.map_append, List.mem_append] at hi
      obtain old | new := hi
      · exact counted.small i old
      · rw [List.map_singleton, List.mem_singleton] at new
        rw [new, counted.counter]
        exact Nat.mod_lt _ (Nat.two_pow_pos 32)

/-- The locks are numbered one after the other. -/
structure Orderly (s : LockIds) : Prop where
  counted : s.Counted
  one : s.creating.length ≤ 1
  bound : s.adds ≤ 2 ^ 32
  numbered : s.lockids = (List.range s.created.length).map fun i => (i + 1) % 2 ^ 32

theorem Orderly.step (orderly : s.Orderly) (alone : Alone s e)
    (stepped : step s e = some t) : t.Orderly := by
  have counted := orderly.counted.step stepped
  have one := orderly.one
  obtain ⟨c, rfl, rfl⟩ | ⟨c, rfl, mem, rfl⟩ := step_cases stepped
  · obtain ⟨nobody, room⟩ := alone
    refine ⟨counted, ?_, ?_, orderly.numbered⟩
    · simp only [nobody, List.length_cons, List.length_nil]
      omega
    · simp only [adds, nobody, List.length_cons, List.length_nil]
      omega
  · have pos := List.length_pos_of_mem mem
    refine ⟨counted, ?_, ?_, ?_⟩
    · simp only [List.length_erase_of_mem mem]
      omega
    · rw [adds_load mem _ rfl]
      exact orderly.bound
    · have value : s.globalLockid = (s.created.length + 1) % 2 ^ 32 := by
        rw [orderly.counted.counter, adds]
        omega
      simp only [lockids, List.map_append, List.map_singleton,
        List.length_append, List.length_singleton,
        List.range_succ, value]
      rw [← orderly.numbered, lockids]

theorem Orderly.nodup (orderly : s.Orderly) : s.lockids.Nodup := by
  have bound := orderly.bound
  rw [orderly.numbered]
  refine List.Nodup.map_on ?_ List.nodup_range
  intro i hi j hj same
  rw [List.mem_range] at hi hj
  rw [adds] at bound
  omega

/-- What a run adds to the locks has values that the counter has on the way. -/
theorem run_created (counted : s.Counted) (ran : run step s es = some t) :
    t.Counted ∧ s.adds ≤ t.adds ∧
    ∃ new, t.created = s.created ++ new ∧ ∀ p ∈ new, ∃ c ∈ Finset.Icc s.adds t.adds,
      p.2 = c % 2 ^ 32 := by
  induction es generalizing s with
  | nil =>
    obtain rfl := Option.some.inj ran
    exact ⟨counted, le_rfl, [], (List.append_nil _).symm, fun _ none => nomatch none⟩
  | cons e es ih =>
    obtain ⟨m, first, rest⟩ := run_cons.mp ran
    obtain ⟨final, more, new, created, values⟩ := ih (counted.step first) rest
    obtain ⟨c, -, rfl⟩ | ⟨c, -, mem, rfl⟩ := step_cases first
    · have grown : s.adds ≤ adds ⟨(s.globalLockid + 1) % 2 ^ 32, c :: s.creating, s.created⟩ := by
        simp only [adds, List.length_cons]
        omega
      refine ⟨final, grown.trans more, new, created, fun p hp => ?_⟩
      obtain ⟨v, hv, same⟩ := values p hp
      rw [Finset.mem_Icc] at hv
      exact ⟨v, Finset.mem_Icc.mpr ⟨grown.trans hv.1, hv.2⟩, same⟩
    · rw [adds_load mem _ rfl] at more values
      refine ⟨final, more, (c, s.globalLockid) :: new, ?_, ?_⟩
      · rw [created, List.append_assoc]
        rfl
      · intro p hp
        obtain rfl | later := List.mem_cons.mp hp
        · exact ⟨s.adds, Finset.mem_Icc.mpr ⟨le_rfl, more⟩, counted.counter⟩
        · exact values p later

theorem length_le_of_nodup {l : List Nat} {a b : Nat} (nodup : l.Nodup)
    (values : ∀ i ∈ l, ∃ c ∈ Finset.Icc a b, i = c % 2 ^ 32) : l.length ≤ b + 1 - a := by
  have sub : l.toFinset ⊆ (Finset.Icc a b).image (· % 2 ^ 32) := by
    intro i hi
    obtain ⟨c, hc, rfl⟩ := values i (List.mem_toFinset.mp hi)
    exact Finset.mem_image_of_mem _ hc
  calc l.length = l.toFinset.card := (List.toFinset_card_of_nodup nodup).symm
    _ ≤ ((Finset.Icc a b).image (· % 2 ^ 32)).card := Finset.card_le_card sub
    _ ≤ (Finset.Icc a b).card := Finset.card_image_le
    _ = b + 1 - a := Nat.card_Icc a b

/-- If all creations come to an end with different values, then at most one is in progress at any
time: values that are passed over are missing at the end. -/
theorem at_most_one (counted : s.Counted) (ran : run step s es = some t) (done : t.creating = [])
    (nodup : t.lockids.Nodup) : s.creating.length ≤ 1 ∧ s.adds ≤ 2 ^ 32 := by
  obtain ⟨final, more, new, created, values⟩ := run_created counted ran
  have all : t.adds = t.created.length := by rw [adds, done, List.length_nil, Nat.add_zero]
  have split : t.lockids = s.lockids ++ new.map Prod.snd := by
    rw [lockids, created, List.map_append, lockids]
  have some : new.length ≤ t.adds + 1 - s.adds := by
    rw [← List.length_map (f := Prod.snd)]
    refine length_le_of_nodup (List.Nodup.of_append_right (split ▸ nodup)) fun i hi => ?_
    obtain ⟨p, hp, rfl⟩ := List.mem_map.mp hi
    exact values p hp
  have few : t.lockids.length ≤ 2 ^ 32 := by
    have low : ∀ i ∈ t.lockids, ∃ c ∈ Finset.Icc 0 (2 ^ 32 - 1), i = c % 2 ^ 32 := by
      intro i hi
      have small := final.small i hi
      exact ⟨i, Finset.mem_Icc.mpr ⟨Nat.zero_le i, by omega⟩, (Nat.mod_eq_of_lt small).symm⟩
    have bound := length_le_of_nodup nodup low
    omega
  have length : t.created.length = s.created.length + new.length := by
    rw [created, List.length_append]
  rw [lockids, List.length_map] at few
  have here : s.adds = s.created.length + s.creating.length := rfl
  omega

theorem guarded_of_nodup (counted : s.Counted) (ran : run step s es = some t)
    (done : t.creating = [])
    (nodup : t.lockids.Nodup) : Guarded step Alone s es := by
  induction es generalizing s with
  | nil => trivial
  | cons e es ih =>
    obtain ⟨m, first, rest⟩ := run_cons.mp ran
    obtain ⟨one, bound⟩ := at_most_one (counted.step first) rest done nodup
    constructor
    · obtain ⟨c, rfl, rfl⟩ | ⟨c, rfl, -⟩ := step_cases first
      · simp only [adds, List.length_cons] at one bound
        refine ⟨List.length_eq_zero_iff.mp (by omega), ?_⟩
        omega
      · trivial
    · intro m' first'
      obtain rfl := Option.some.inj (first.symm.trans first')
      exact ih (counted.step first) rest

/-- No two locks have one identifier if creations do not overlap and there are at most 2^32 of
them; and a run in which all creations come to an end gives different identifiers only then. -/
theorem lockids_unique_iff (ran : run step start es = some s) :
    (Guarded step Alone start es → s.lockids.Nodup) ∧
      (s.creating = [] → (s.lockids.Nodup ↔ Guarded step Alone start es)) := by
  have enough : Guarded step Alone start es → s.lockids.Nodup := by
    intro meets
    have first : start.Orderly := ⟨start_counted, by decide, by decide, rfl⟩
    have last := guarded_run_invariant (I := Orderly)
      (fun _ _ _ here alone stepped => here.step alone stepped) first
      meets ran
    exact last.nodup
  exact ⟨enough, fun done => ⟨guarded_of_nodup start_counted ran done, enough⟩⟩

/-- Two locks of one thread and one of another, one after the other. -/
theorem lockids_in_turn :
    ∃ s, run step start [.fetchAdd 0, .load 0, .fetchAdd 1, .load 1,
      .fetchAdd 0, .load 0] = some s ∧
      s.lockids.Nodup := by
  have ran : run step start [.fetchAdd 0, .load 0, .fetchAdd 1, .load 1, .fetchAdd 0, .load 0] =
      some ⟨3, [], [(0, 1), (1, 2), (0, 3)]⟩ := rfl
  exact ⟨_, ran, (lockids_unique_iff ran).1 (by decide)⟩

/-- Two threads that both add before they read. -/
theorem lockids_collide : ∃ s, run step start [.fetchAdd 0, .fetchAdd 1,
    .load 0, .load 1] = some s ∧
    ¬s.lockids.Nodup :=
  ⟨⟨2, [], [(0, 2), (1, 2)]⟩, rfl, by decide⟩

end LockIds

end Tacos.Thread
