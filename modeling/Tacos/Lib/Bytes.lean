/- GID: Tacos/Lib/Bytes
   generality: G
   source: none
   digest: Byte-addressed memory with little-endian loads and stores of any width. -/

import Mathlib.Logic.Function.Basic
import Mathlib.Tactic.Ring

set_option autoImplicit false
set_option relaxedAutoImplicit false

namespace Tacos.Lib.Bytes

/-- One byte at every address. -/
abbrev Mem := Nat → UInt8

/-- The number in the `n` bytes from `a` on, least significant byte first. -/
def loadLE (m : Mem) (a : Nat) : Nat → Nat
  | 0 => 0
  | n + 1 => (m a).toNat + 256 * loadLE m (a + 1) n

/-- Write the lowest `n` bytes of `v` from `a` on. -/
def storeLE (m : Mem) (a : Nat) : Nat → Nat → Mem
  | 0, _ => m
  | n + 1, v => Function.update (storeLE m (a + 1) n (v / 256)) a (UInt8.ofNat v)

variable {m m' : Mem} {a n v x : Nat}

theorem loadLE_lt (m : Mem) (a n : Nat) : loadLE m a n < 256 ^ n := by
  induction n generalizing a with
  | zero => simp [loadLE]
  | succ n ih =>
    have low : (m a).toNat < 256 := (m a).toNat_lt
    have high := ih (a + 1)
    rw [loadLE, pow_succ]
    omega

theorem loadLE_congr (h : ∀ x, a ≤ x → x < a + n → m x = m' x) :
    loadLE m a n = loadLE m' a n := by
  induction n generalizing a with
  | zero => rfl
  | succ n ih =>
    rw [loadLE, loadLE, h a le_rfl (by omega), ih fun x hx hx' => h x (by omega) (by omega)]

theorem storeLE_of_not_mem (h : x < a ∨ a + n ≤ x) : storeLE m a n v x = m x := by
  induction n generalizing a v with
  | zero => rfl
  | succ n ih =>
    have hx : x ≠ a := by omega
    rw [storeLE, Function.update_of_ne hx]
    exact ih (by omega)

theorem loadLE_storeLE (m : Mem) (a n v : Nat) : loadLE (storeLE m a n v) a n = v % 256 ^ n := by
  induction n generalizing m a v with
  | zero => simp [loadLE, Nat.mod_one]
  | succ n ih =>
    have rest : loadLE (storeLE m a (n + 1) v) (a + 1) n = v / 256 % 256 ^ n := by
      rw [← ih m (a + 1) (v / 256)]
      apply loadLE_congr
      intro x hx _
      rw [storeLE, Function.update_of_ne (by omega)]
    have byte : (UInt8.ofNat v).toNat = v % 256 := UInt8.toNat_ofNat'
    rw [loadLE, rest, storeLE, Function.update_self, byte, pow_succ,
      mul_comm (256 ^ n), Nat.mod_mul]

theorem loadLE_storeLE_of_lt (h : v < 256 ^ n) : loadLE (storeLE m a n v) a n = v := by
  rw [loadLE_storeLE, Nat.mod_eq_of_lt h]

theorem loadLE_storeLE_of_disjoint {b k : Nat} (h : a + n ≤ b ∨ b + k ≤ a) :
    loadLE (storeLE m b k v) a n = loadLE m a n := by
  apply loadLE_congr
  intro x hx hx'
  exact storeLE_of_not_mem (by omega)

/-- The bytes that a loaded number is stored as are the bytes it was loaded from. -/
theorem storeLE_loadLE (m m' : Mem) (a b : Nat) {n k : Nat} (h : k < n) :
    storeLE m' a n (loadLE m b n) (a + k) = m (b + k) := by
  induction n generalizing a b k with
  | zero => omega
  | succ n ih =>
    have low : (m b).toNat < 256 := (m b).toNat_lt
    rw [storeLE, loadLE]
    cases k with
    | zero =>
      simp only [Nat.add_zero, Function.update_self]
      rw [← UInt8.toNat_inj, UInt8.toNat_ofNat']
      omega
    | succ k =>
      have rest : ((m b).toNat + 256 * loadLE m (b + 1) n) / 256 = loadLE m (b + 1) n := by omega
      rw [Function.update_of_ne (by omega), rest, show a + (k + 1) = a + 1 + k by omega,
        show b + (k + 1) = b + 1 + k by omega]
      exact ih (a + 1) (b + 1) (by omega)

theorem storeLE_apply {k : Nat} (h : k < n) :
    storeLE m a n v (a + k) = UInt8.ofNat (v / 256 ^ k) := by
  induction n generalizing a v k with
  | zero => omega
  | succ n ih =>
    rw [storeLE]
    cases k with
    | zero =>
      simp only [Nat.add_zero, Function.update_self, pow_zero, Nat.div_one]
    | succ k =>
      rw [Function.update_of_ne (by omega), show a + (k + 1) = a + 1 + k by omega, ih (by omega),
        Nat.div_div_eq_div_mul, pow_succ']

end Tacos.Lib.Bytes
