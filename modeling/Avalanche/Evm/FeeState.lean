import Avalanche.Evm.Header
import Avalanche.Library.Wire
import Avalanche.Sae.GasPrice

/-!
# What the fee rules carry from block to block

From Apricot Phase 3 on, the price of gas follows the gas of the last ten seconds, kept slot by slot
in a window. From Fortuna on it follows a state of three numbers instead: the gas that can still be
spent, the excess of what was spent over the target, and the excess that sets the target. Both are
written at the front of a header's extra data. Beside them stand the cost of a block that comes too
early and the excess that sets the least delay between two blocks.
-/

namespace Avalanche.Evm

open Except (require orError)

/-! ### The window of Apricot Phase 3 -/

def windowLen : ℕ := 10

def windowSize : ℕ := windowLen * 8

def intrinsicBlockGas : ℕ := 1000000

structure Window where
  slots : List ℕ
  length_slots : slots.length = windowLen
deriving DecidableEq

namespace Window

def default : Window := ⟨List.replicate windowLen 0, List.length_replicate⟩

/-- The amounts go to the last slot. -/
def add (w : Window) (amounts : List ℕ) : Window :=
  ⟨w.slots.modify 9 fun last ↦ amounts.foldl saturatingAdd last, by
    rw [List.length_modify, w.length_slots]⟩

/-- The first `n` slots are forgotten. -/
def shift (w : Window) (n : ℕ) : Window :=
  if h : n < windowLen then
    ⟨w.slots.drop n ++ List.replicate n 0, by
      rw [List.length_append, List.length_drop, List.length_replicate, w.length_slots]
      exact Nat.sub_add_cancel h.le⟩
  else default

def sum (w : Window) : ℕ := w.slots.foldl saturatingAdd 0

def fromBytes (bytes : Bytes) : Option Window :=
  if bytes.length < windowSize then none
  else some ⟨(List.range windowLen).map fun i ↦ Wire.ofBe ((bytes.drop (8 * i)).take 8), by simp⟩

def toBytes (w : Window) : Bytes := w.slots.flatMap (Wire.be 8)

end Window

structure BaseFeeParams where
  targetGas : ℕ
  changeDenominator : ℕ
  minBaseFee : ℕ
  maxBaseFee : ℕ

def gwei (n : ℕ) : ℕ := n * 1000000000

namespace BaseFeeParams

def ap3 : BaseFeeParams := ⟨10000000, 12, gwei 75, gwei 225⟩

def ap4 : BaseFeeParams := ⟨10000000, 12, gwei 25, gwei 1000⟩

def ap5 : BaseFeeParams := ⟨15000000, 36, gwei 25, u256Max⟩

def etna : BaseFeeParams := ⟨15000000, 36, gwei 1, u256Max⟩

/-- `clamp` to the least and the largest fee. -/
def clamp (params : BaseFeeParams) (value : ℕ) : ℕ :=
  if value < params.minBaseFee then params.minBaseFee
  else if value > params.maxBaseFee then params.maxBaseFee
  else value

/-- What a gap to the target moves the fee by, before time is counted. -/
def delta (params : BaseFeeParams) (gap parentBaseFee : ℕ) : ℕ :=
  max (min (gap * parentBaseFee) u256Max / params.targetGas / params.changeDenominator) 1

end BaseFeeParams

def baseFeeFromWindow (params : BaseFeeParams) (window : Window) (parentBaseFee timeElapsed : ℕ) :
    ℕ :=
  let totalGas := window.sum
  let target := params.targetGas
  if totalGas = target then parentBaseFee
  else if totalGas > target then
    let delta := params.delta (totalGas - target) parentBaseFee
    params.clamp (min (parentBaseFee + delta) u256Max)
  else
    let delta := params.delta (target - totalGas) parentBaseFee
    let windowsElapsed := timeElapsed / windowLen
    let delta := if windowsElapsed > 1 then min (delta * windowsElapsed) u256Max else delta
    params.clamp (parentBaseFee - delta)

/-! ### The cost of a block -/

def targetBlockRate : ℕ := 2

def minBlockGasCost : ℕ := 0

def maxBlockGasCost : ℕ := 1000000

def blockGasCostStepAp4 : ℕ := 50000

def blockGasCostStepAp5 : ℕ := 200000

def ap4BlockGasCost (parentCost : Option ℕ) (step timeElapsed : ℕ) : ℕ :=
  match parentCost with
  | none => minBlockGasCost
  | some parent =>
    let deviation := max (targetBlockRate - timeElapsed) (timeElapsed - targetBlockRate)
    let change := saturatingMul step deviation
    let cost :=
      if timeElapsed > targetBlockRate then (checkedSub parent change).getD minBlockGasCost
      else (checkedAdd parent change).getD maxBlockGasCost
    max minBlockGasCost (min cost maxBlockGasCost)

def blockGasCost (parentCost : Option ℕ) (step timeElapsed : ℕ) (granite : Bool) : ℕ :=
  if granite then 0 else ap4BlockGasCost parentCost step timeElapsed

/-! ### The state of Fortuna -/

/-- `Gas::add_over_time`. -/
def addOverTime (gas gasRate duration : ℕ) : ℕ :=
  match checkedMul gasRate duration with
  | none => u64Max
  | some added => (checkedAdd gas added).getD u64Max

/-- `Gas::sub_over_time`. -/
def subOverTime (gas gasRate duration : ℕ) : ℕ :=
  match checkedMul gasRate duration with
  | none => 0
  | some toRemove => (checkedSub gas toRemove).getD 0

structure GasState where
  capacity : ℕ
  excess : ℕ
deriving DecidableEq

namespace GasState

def advance (s : GasState) (maxCapacity capacityRate targetRate duration : ℕ) : GasState where
  capacity := min (addOverTime s.capacity capacityRate duration) maxCapacity
  excess := subOverTime s.excess targetRate duration

def consume (s : GasState) (gas : ℕ) : Except Error GasState := do
  let capacity ← orError (checkedSub s.capacity gas) .feeOverflow
  .ok ⟨capacity, (checkedAdd s.excess gas).getD u64Max⟩

end GasState

def minTargetPerSecond : ℕ := 1000000

def maxTargetExcessDiff : ℕ := 2 ^ 15

def targetConversion : ℕ := 1024 * maxTargetExcessDiff

def minGasPrice : ℕ := 1

def timeToFillCapacity : ℕ := 5

def targetToMax : ℕ := 2

def targetToPriceUpdateConversion : ℕ := 87

def targetToMaxCapacity : ℕ := targetToMax * timeToFillCapacity

def maxTargetExcess : ℕ := 1024950627

def stateSize : ℕ := 24

structure Acp176State where
  gas : GasState
  targetExcess : ℕ
deriving DecidableEq

/-- `target_excess_step`: towards the desired excess, by no more than the largest difference. -/
def targetExcessStep (excess desired : ℕ) : ℕ :=
  let change := min (max (excess - desired) (desired - excess)) maxTargetExcessDiff
  if excess < desired then excess + change else excess - change

def scaleExcess (excess newTarget oldTarget : ℕ) : ℕ :=
  if oldTarget = 0 then excess else min (excess * newTarget / oldTarget) u64Max

namespace Acp176State

def default : Acp176State := ⟨⟨0, 0⟩, 0⟩

def target (s : Acp176State) : ℕ :=
  Sae.calculatePrice minTargetPerSecond s.targetExcess targetConversion

def maxCapacity (s : Acp176State) : ℕ := saturatingMul s.target targetToMaxCapacity

def gasPrice (s : Acp176State) : ℕ :=
  Sae.calculatePrice minGasPrice s.gas.excess (saturatingMul s.target targetToPriceUpdateConversion)

def advanceSeconds (s : Acp176State) (seconds : ℕ) : Acp176State :=
  let t := s.target
  let r := saturatingMul t targetToMax
  let c := saturatingMul r timeToFillCapacity
  { s with gas := s.gas.advance c r t seconds }

def advanceMilliseconds (s : Acp176State) (milliseconds : ℕ) : Acp176State :=
  let t := s.target
  let targetPerMs := t / 1000
  let maxPerMs := saturatingMul targetPerMs targetToMax
  let maxCapacity := saturatingMul (saturatingMul t targetToMax) timeToFillCapacity
  { s with gas := s.gas.advance maxCapacity maxPerMs targetPerMs milliseconds }

def consumeGas (s : Acp176State) (gasUsed extraGasUsed : ℕ) : Except Error Acp176State := do
  let gas ← s.gas.consume gasUsed
  let gas ← gas.consume extraGasUsed
  .ok { s with gas := gas }

def updateTargetExcess (s : Acp176State) (desired : ℕ) : Acp176State :=
  let stepped := { s with targetExcess := targetExcessStep s.targetExcess desired }
  let newTarget := stepped.target
  { stepped with gas :=
      ⟨min s.gas.capacity (saturatingMul newTarget targetToMaxCapacity),
        scaleExcess s.gas.excess newTarget s.target⟩ }

/-- The first 24 bytes. -/
def fromBytes (bytes : Bytes) : Option Acp176State :=
  if bytes.length < stateSize then none
  else
    let word i := Wire.ofBe ((bytes.drop (8 * i)).take 8)
    some ⟨⟨word 0, word 1⟩, word 2⟩

end Acp176State

/-- The least excess whose target is the desired one or more. -/
def desiredTargetExcess (desiredTarget : ℕ) : ℕ :=
  Bisect.first (fun mid ↦ Acp176State.target ⟨⟨0, 0⟩, mid⟩ ≥ desiredTarget) maxTargetExcess

/-! ### The least delay between two blocks -/

def minDelayMilliseconds : ℕ := 1

def conversionRate : ℕ := 2 ^ 20

def maxDelayExcessDiff : ℕ := 200

def initialDelayExcess : ℕ := 7970124

def maxDelayExcess : ℕ := 46516320

/-- `DelayExcess::delay`, in milliseconds. -/
def delay (excess : ℕ) : ℕ := Sae.calculatePrice minDelayMilliseconds excess conversionRate

/-- The least excess whose delay is the desired one or longer. -/
def desiredDelayExcess (desiredDelay : ℕ) : ℕ :=
  Bisect.first (fun mid ↦ delay mid ≥ desiredDelay) maxDelayExcess

/-- `calculate_delay_excess`. -/
def calculateDelayExcess (excess desired : ℕ) : ℕ :=
  let change := min (max (excess - desired) (desired - excess)) maxDelayExcessDiff
  if excess < desired then excess + change else excess - change

end Avalanche.Evm
