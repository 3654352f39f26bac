import Avalanche.Utils.Checked

/-!
# Bounded integer arithmetic of the gas clock

The clock adds, subtracts and multiplies with a bound in place of an overflow, and scales by a
fraction with the product taken in 128 bits. A quotient that does not fit 64 bits, or a zero
denominator, is an overflow (`none`).
-/

namespace Avalanche.Sae

/-- `min(a + b, ceil)`. -/
def boundedAdd (a b ceil : ℕ) : ℕ := ((checkedAdd a b).map (min · ceil)).getD ceil

/-- `max(a - b, floor)`. -/
def boundedSub (a b floor : ℕ) : ℕ := ((checkedSub a b).map (max · floor)).getD floor

/-- `min(a * b, ceil)`. -/
def boundedMultiply (a b ceil : ℕ) : ℕ := ((checkedMul a b).map (min · ceil)).getD ceil

/-- `⌊a * b / den⌋`. -/
def mulDivFloor (a b den : ℕ) : Option ℕ :=
  if den = 0 then none
  else if a * b / den ≤ u64Max then some (a * b / den)
  else none

/-- `⌈a * b / den⌉`. -/
def mulDivCeil (a b den : ℕ) : Option ℕ :=
  if den = 0 then none
  else if a * b ⌈/⌉ den ≤ u64Max then some (a * b ⌈/⌉ den)
  else none

/-! ## What the bounded operations compute -/

theorem boundedAdd_eq {a b : ℕ} : boundedAdd a b u64Max = min (a + b) u64Max := by
  by_cases h : a + b ≤ u64Max
  · simp [boundedAdd, checkedAdd, h]
  · simp [boundedAdd, checkedAdd, h, le_of_not_ge h]

theorem boundedMultiply_eq {a b : ℕ} : boundedMultiply a b u64Max = min (a * b) u64Max := by
  by_cases h : a * b ≤ u64Max
  · simp [boundedMultiply, checkedMul, h]
  · simp [boundedMultiply, checkedMul, h, le_of_not_ge h]

theorem boundedSub_eq {a b : ℕ} : boundedSub a b 0 = a - b := by
  by_cases h : b ≤ a
  · simp [boundedSub, checkedSub, h]
  · simp [boundedSub, checkedSub, h, Nat.sub_eq_zero_of_le (le_of_not_ge h)]

theorem mulDivFloor_of_le {a b den : ℕ} (hden : 0 < den) (h : a * b / den ≤ u64Max) :
    mulDivFloor a b den = some (a * b / den) := by
  rw [mulDivFloor, if_neg hden.ne', if_pos h]

theorem mulDivCeil_of_le {a b den : ℕ} (hden : 0 < den) (h : a * b ⌈/⌉ den ≤ u64Max) :
    mulDivCeil a b den = some (a * b ⌈/⌉ den) := by
  rw [mulDivCeil, if_neg hden.ne', if_pos h]

end Avalanche.Sae
