import Avalanche.Platform.State
import Avalanche.Sae.GasPrice

/-!
# Fees and rewards

The fee of a tx is a constant before Etna, and the gas of its complexity at the current price after
it. An active L1 validator pays by the second, at a price that follows the number of active ones.
A staker is promised a part of what remains under the supply cap.
-/

namespace Avalanche.Platform

/-! ### Tx fees -/

/-- The terms of `gas::calculate_price` are those of the price of the gas clock; see
`calculatePrice256_eq`. -/
def calculatePrice (minPrice excess k : ℕ) : ℕ := Sae.calculatePrice minPrice excess (max k 1)

section Price256

variable (add mul : ℕ → ℕ → Option ℕ)

/-- The loop of `gas::calculate_price`, over the additions and multiplications of 256-bit words. -/
def priceLoop256 (num den maxOutput : ℕ) : ℕ → ℕ → ℕ → ℕ → Option ℕ
  | 0, _, _, _ => none
  | fuel + 1, i, output, accum =>
    if accum = 0 then some (output / den)
    else (add output accum).bind fun output ↦
      if maxOutput ≤ output then some u64Max
      else (mul accum num).bind fun product ↦ (add i 1).bind fun i' ↦
        priceLoop256 num den maxOutput fuel i' output (product / den / i)

/-- `gas::calculate_price`. -/
def calculatePrice256 (minPrice excess k : ℕ) : Option ℕ :=
  (mul minPrice (max k 1)).bind fun accum ↦ (mul (max k 1) u64Max).bind fun maxOutput ↦
    priceLoop256 add mul excess (max k 1) maxOutput (max k 1 * u64Max + 1) 1 0 accum

/-- An operation that drops what lies above 256 bits, as the source has it. -/
def wrapping256 (op : ℕ → ℕ → ℕ) (a b : ℕ) : Option ℕ := some (op a b % 2 ^ 256)

/-- An operation that fails where the other one drops something. -/
def checked256 (op : ℕ → ℕ → ℕ) (a b : ℕ) : Option ℕ :=
  if op a b < 2 ^ 256 then some (op a b) else none

variable {add mul}

theorem u64Max_pow_lt : u64Max * u64Max < 2 ^ 128 ∧ u64Max * u64Max * u64Max < 2 ^ 192 := by
  norm_num [u64Max_eq]

/-- The sums and products of the loop stay below `2 ^ 192`, so what the operations do above that
does not matter. -/
theorem priceLoop256_eq (hadd : ∀ a b, a + b < 2 ^ 256 → add a b = some (a + b))
    (hmul : ∀ a b, a * b < 2 ^ 256 → mul a b = some (a * b)) {num den fuel i output accum : ℕ}
    (hnum : num ≤ u64Max) (hden : den ≤ u64Max) (hout : output < den * u64Max)
    (haccum : accum ≤ u64Max * u64Max) (hi : i + fuel ≤ 2 ^ 192) :
    priceLoop256 add mul num den (den * u64Max) fuel i output accum
      = Sae.priceLoop num den (den * u64Max) fuel i output accum := by
  induction fuel generalizing i output accum with
  | zero => rfl
  | succ fuel ih =>
    obtain ⟨hsquare, hcube⟩ := u64Max_pow_lt
    have hbound : den * u64Max ≤ u64Max * u64Max := Nat.mul_le_mul_right _ hden
    rw [priceLoop256, Sae.priceLoop]
    by_cases hzero : accum = 0
    · rw [if_pos hzero, if_pos hzero]
    · rw [if_neg hzero, if_neg hzero, hadd output accum (by omega), Option.bind_some]
      by_cases hmax : den * u64Max ≤ output + accum
      · rw [if_pos hmax, if_pos hmax]
      · have hproduct : accum * num ≤ den * (u64Max * u64Max) := by
          rw [← Nat.mul_assoc]
          exact Nat.mul_le_mul (by omega) hnum
        have hcube' : den * (u64Max * u64Max) ≤ u64Max * u64Max * u64Max := by
          rw [Nat.mul_comm den]
          exact Nat.mul_le_mul_left _ hden
        rw [if_neg hmax, if_neg hmax, hmul accum num (by omega), Option.bind_some,
          hadd i 1 (by omega), Option.bind_some]
        refine ih (by omega) ?_ (by omega)
        exact (Nat.div_le_self _ i).trans (Nat.div_le_of_le_mul hproduct)

theorem calculatePrice256_eq (hadd : ∀ a b, a + b < 2 ^ 256 → add a b = some (a + b))
    (hmul : ∀ a b, a * b < 2 ^ 256 → mul a b = some (a * b)) {minPrice excess k : ℕ}
    (hmin : minPrice ≤ u64Max) (hexcess : excess ≤ u64Max) (hk : k ≤ u64Max) :
    calculatePrice256 add mul minPrice excess k = some (calculatePrice minPrice excess k) := by
  obtain ⟨hsquare, -⟩ := u64Max_pow_lt
  have hpos : 0 < max k 1 := by omega
  have hone : 1 ≤ u64Max := by
    rw [u64Max_eq]
    omega
  have haccum := Nat.mul_le_mul hmin (max_le hk hone)
  have hmax := Nat.mul_le_mul_right u64Max (max_le hk hone)
  obtain ⟨price, hprice⟩ := Sae.exists_priceLoop_eq minPrice excess (max k 1)
  rw [calculatePrice256, hmul _ _ (by omega), Option.bind_some, hmul _ _ (by omega),
    Option.bind_some, priceLoop256_eq hadd hmul hexcess (max_le hk hone)
      (Nat.mul_pos hpos hone) haccum (by omega), hprice, calculatePrice,
    Sae.calculatePrice_of_loop hpos.ne' hprice]

theorem wrapping256_eq {op : ℕ → ℕ → ℕ} (a b : ℕ) (h : op a b < 2 ^ 256) :
    wrapping256 op a b = some (op a b) := by
  rw [wrapping256, Nat.mod_eq_of_lt h]

/-- The loop of `calculate_price` ends with a price. It is at least the minimum price, grows with
both arguments, and is the largest one exactly when a sum of the series reaches the bound. The
256-bit copy returns the same price, also with operations that fail instead of wrapping. -/
theorem calculatePrice_spec (minPrice excess k : UInt64) (hk : 0 < k.toNat) :
    (∃ price, Sae.priceLoop excess.toNat k.toNat (k.toNat * u64Max) (k.toNat * u64Max + 1) 1 0
        (minPrice.toNat * k.toNat) = some price ∧
      Sae.calculatePrice minPrice.toNat excess.toNat k.toNat = price) ∧
    minPrice.toNat ≤ Sae.calculatePrice minPrice.toNat excess.toNat k.toNat ∧
    (∀ minPrice' excess' : UInt64, minPrice ≤ minPrice' → excess ≤ excess' →
      Sae.calculatePrice minPrice.toNat excess.toNat k.toNat
        ≤ Sae.calculatePrice minPrice'.toNat excess'.toNat k.toNat) ∧
    (Sae.calculatePrice minPrice.toNat excess.toNat k.toNat = u64Max ↔
      ∃ n, k.toNat * u64Max ≤ Sae.partialSum minPrice.toNat excess.toNat k.toNat n) ∧
    calculatePrice256 (wrapping256 (· + ·)) (wrapping256 (· * ·)) minPrice.toNat excess.toNat
      k.toNat
      = some (Sae.calculatePrice minPrice.toNat excess.toNat k.toNat) ∧
    calculatePrice256 (checked256 (· + ·)) (checked256 (· * ·)) minPrice.toNat excess.toNat k.toNat
      = some (Sae.calculatePrice minPrice.toNat excess.toNat k.toNat) := by
  have hmin := UInt64.toNat_le_u64Max minPrice
  have hexcess := UInt64.toNat_le_u64Max excess
  have hcopy : calculatePrice minPrice.toNat excess.toNat k.toNat
      = Sae.calculatePrice minPrice.toNat excess.toNat k.toNat := by
    rw [calculatePrice, Nat.max_eq_left hk]
  obtain ⟨price, hprice⟩ := Sae.exists_priceLoop_eq minPrice.toNat excess.toNat k.toNat
  refine ⟨⟨price, hprice, Sae.calculatePrice_of_loop hk.ne' hprice⟩,
    Sae.le_calculatePrice hmin _ hk, fun minPrice' excess' hle hle' ↦ ?_,
    Sae.calculatePrice_eq_max_iff _ _ hk, ?_, ?_⟩
  · exact Sae.calculatePrice_le_calculatePrice _ (UInt64.le_iff_toNat_le.mp hle)
      (UInt64.le_iff_toNat_le.mp hle')
  · rw [← hcopy]
    exact calculatePrice256_eq wrapping256_eq wrapping256_eq hmin hexcess
      (UInt64.toNat_le_u64Max k)
  · rw [← hcopy]
    exact calculatePrice256_eq (fun _ _ h ↦ if_pos h) (fun _ _ h ↦ if_pos h) hmin hexcess
      (UInt64.toNat_le_u64Max k)

theorem calculatePrice_spec_example : 7 ≤ Sae.calculatePrice 7 3 5 :=
  (calculatePrice_spec 7 3 5 (by decide)).2.1

end Price256

/-- Bandwidth, database reads and writes, and computation. -/
structure Dimensions where
  bandwidth : ℕ
  dbRead : ℕ
  dbWrite : ℕ
  compute : ℕ

def Dimensions.toList (d : Dimensions) : List ℕ := [d.bandwidth, d.dbRead, d.dbWrite, d.compute]

def dotToGas (complexity weights : Dimensions) : Except Error ℕ :=
  (complexity.toList.zip weights.toList).foldlM
    (fun res p ↦ do
      let term ← orError (checkedMul p.1 p.2) .feeOverflow
      orError (checkedAdd res term) .feeOverflow) 0

def baseTxComplexity : Dimensions := ⟨2 + 4 + 4 + 32 + 4 + 4 + 4 + 4, 0, 0, 0⟩

inductive FeeCalculator
  | static (txFee : ℕ)
  | dynamic (weights : Dimensions) (price : ℕ)

namespace FeeCalculator

def forFork (etnaActive : Bool) (txFee excess : ℕ) : FeeCalculator :=
  if etnaActive then dynamic ⟨1, 1000, 1000, 4⟩ (calculatePrice 1 excess 2164043)
  else static txFee

def calculateFee (complexity : Dimensions) : FeeCalculator → Except Error ℕ
  | static txFee => .ok txFee
  | dynamic weights price => do
    let gas ← dotToGas complexity weights
    orError (checkedMul gas price) .feeOverflow

end FeeCalculator

/-! ### The continuous fee of L1 validators -/

structure L1State where
  current : ℕ
  excess : ℕ

structure L1Config where
  target : ℕ
  minPrice : ℕ
  k : ℕ

namespace L1State

def advanceOne (s : L1State) (target : ℕ) : L1State :=
  { s with
    excess :=
      if s.current < target then s.excess - (target - s.current)
      else if s.current > target then saturatingAdd s.excess (s.current - target)
      else s.excess }

def advanceTime (s : L1State) (target seconds : ℕ) : L1State :=
  { s with
    excess :=
      if s.current < target then s.excess - saturatingMul (target - s.current) seconds
      else if s.current > target then
        saturatingAdd s.excess (saturatingMul (s.current - target) seconds)
      else s.excess }

/-- The loop of `cost_of`, with `n` seconds to go. Once the excess is zero it stays there. -/
def costLoop (c : L1Config) : ℕ → L1State → ℕ → ℕ
  | 0, _, cost => cost
  | n + 1, s, cost =>
    let s := s.advanceOne c.target
    if s.excess = 0 then saturatingAdd cost (saturatingMul c.minPrice (n + 1))
    else
      match checkedAdd cost (calculatePrice c.minPrice s.excess c.k) with
      | some cost => costLoop c n s cost
      | none => u64Max

def costOf (s : L1State) (c : L1Config) (seconds : ℕ) : ℕ :=
  if s.current = c.target then saturatingMul seconds (calculatePrice c.minPrice s.excess c.k)
  else costLoop c seconds s 0

end L1State

/-! ### Staking rewards -/

structure RewardConfig where
  maxConsumptionRate : ℕ
  minConsumptionRate : ℕ
  mintingPeriod : ℕ
  supplyCap : ℕ

def percentDenominator : ℕ := 1000000

/-- The reward for `stakedAmount` over `stakedDuration` nanoseconds. The divisions are of big
integers, and panic on zero. -/
def RewardConfig.calculate (config : RewardConfig) (stakedDuration stakedAmount currentSupply : ℕ) :
    Except Error ℕ := do
  let rate := (config.maxConsumptionRate - config.minConsumptionRate) * stakedDuration
    + config.minConsumptionRate * config.mintingPeriod
  let remainingSupply := config.supplyCap - currentSupply
  require (config.mintingPeriod ≠ 0 ∧ currentSupply ≠ 0) .panicked
  let reward := remainingSupply * rate * stakedAmount * stakedDuration
    / (config.mintingPeriod * percentDenominator) / currentSupply / config.mintingPeriod
  .ok (if reward ≤ u64Max then min remainingSupply reward else remainingSupply)

end Avalanche.Platform
