import Mathlib

/-!
# 64-bit arithmetic

The source's `u64` values are natural numbers here, with the width written out where an operation
can leave it. A checked operation returns `none` where the source's returns `None`, a saturating one
stops at `u64Max`.
-/

namespace Avalanche

/-- `u64::MAX`. Unification must not count down from it. -/
@[irreducible] def u64Max : ℕ := 2 ^ 64 - 1

theorem u64Max_eq : u64Max = 18446744073709551615 := by
  norm_num [u64Max]

def checkedAdd (a b : ℕ) : Option ℕ := if a + b ≤ u64Max then some (a + b) else none

def checkedSub (a b : ℕ) : Option ℕ := if b ≤ a then some (a - b) else none

def checkedMul (a b : ℕ) : Option ℕ := if a * b ≤ u64Max then some (a * b) else none

def saturatingAdd (a b : ℕ) : ℕ := min (a + b) u64Max

def saturatingMul (a b : ℕ) : ℕ := min (a * b) u64Max

theorem checkedAdd_eq_some_iff {a b c : ℕ} :
    checkedAdd a b = some c ↔ a + b ≤ u64Max ∧ a + b = c := by
  by_cases h : a + b ≤ u64Max <;> simp [checkedAdd, h]

theorem saturatingAdd_le (a b : ℕ) : saturatingAdd a b ≤ u64Max := min_le_right _ _

theorem saturatingAdd_of_le {a b : ℕ} (h : a + b ≤ u64Max) : saturatingAdd a b = a + b :=
  min_eq_left h

/-- The machine word, as a number. -/
theorem UInt64.toNat_le_u64Max (n : UInt64) : n.toNat ≤ u64Max := by
  have h := n.toNat_lt
  rw [u64Max]
  omega

theorem UInt64.toNat_ofNat_of_le {n : ℕ} (h : n ≤ u64Max) : (UInt64.ofNat n).toNat = n := by
  rw [u64Max] at h
  exact UInt64.toNat_ofNat_of_lt' (by rw [UInt64.size]; omega)

end Avalanche
