import Avalanche.Platform.Backend

/-!
# The advance of chain time

When the time of the chain moves, pending stakers whose time has come are promoted, validators
before delegators; permissioned validators whose time is over are removed; and from Etna on the L1
validators are charged for the seconds that have passed. The new time itself is not checked.
-/

namespace Avalanche.Platform

open Sae (nanosPerSecond)

def Priority.pendingToCurrent : Priority → Priority
  | primaryNetworkValidatorPending => primaryNetworkValidatorCurrent
  | primaryNetworkDelegatorApricotPending
  | primaryNetworkDelegatorBanffPending => primaryNetworkDelegatorCurrent
  | subnetPermissionlessValidatorPending => subnetPermissionlessValidatorCurrent
  | subnetPermissionlessDelegatorPending => subnetPermissionlessDelegatorCurrent
  | subnetPermissionedValidatorPending => subnetPermissionedValidatorCurrent
  | other => other

/-- Pending stakers, each with the current staker it becomes. -/
structure Promotions where
  validators : List (Staker × Staker) := []
  delegators : List (Staker × Staker) := []

namespace Backend

variable (b : Backend)

/-- The potential reward of a staker over `duration` nanoseconds, which is added to the supply. -/
def mintReward (c : Chain) (subnet : Id) (duration weight supply : ℕ) :
    Except Error (Chain × ℕ) := do
  require (duration ≤ u64Max) .overflow
  let potentialReward ← b.staking.rewardConfig.calculate duration weight supply
  let newSupply ← orError (checkedAdd supply potentialReward) .overflow
  .ok (c.setCurrentSupply subnet newSupply, potentialReward)

/-- One pending staker whose time has come. Permissioned validators earn no reward. -/
def promote (s : Chain × Promotions) (pending : Staker) : Except Error (Chain × Promotions) := do
  let toAdd := { pending with
    nextTime := pending.endTime
    priority := pending.priority.pendingToCurrent }
  let (c, toAdd) ←
    if pending.priority ≠ .subnetPermissionedValidatorPending then do
      let supply ← s.1.currentSupply pending.subnetId
      let duration ← orError (durationSince pending.endTime pending.startTime) .stakeTooShort
      let (c, potentialReward) ← b.mintReward s.1 pending.subnetId duration pending.weight supply
      .ok (c, { toAdd with potentialReward := potentialReward })
    else .ok (s.1, toAdd)
  if pending.priority.isPendingValidator then
    .ok (c, { s.2 with validators := s.2.validators ++ [(pending, toAdd)] })
  else if pending.priority.isPendingDelegator then
    .ok (c, { s.2 with delegators := s.2.delegators ++ [(pending, toAdd)] })
  else .error .wrongTxType

def promoteValidator (c : Chain) (p : Staker × Staker) : Except Error Chain := do
  let c ← c.putCurrentValidator p.2
  .ok (c.deletePendingValidator p.1)

def promoteDelegator (c : Chain) (p : Staker × Staker) : Chain :=
  (c.putCurrentDelegator p.2).deletePendingDelegator p.1

def l1Config : L1Config where
  target := 10000
  minPrice := 512
  k := if b.networkId = 1 then 1246488515 else 51937021

/-- Charges the continuous fee, and deactivates the L1 validators it is no longer covered by. -/
def advanceValidatorFeeState (c : Chain) (seconds : ℕ) : Except Error (Chain × Bool) := do
  let actives := c.activeL1Validators
  let feeState : L1State := ⟨actives.length, c.l1ValidatorExcess⟩
  let validatorCost := feeState.costOf b.l1Config seconds
  let accruedFees ← orError (checkedAdd c.accruedFees validatorCost) .overflow
  let covered := actives.takeWhile fun v ↦ ¬v.endAccumulatedFee.toNat > accruedFees
  let c := covered.foldl (fun c v ↦ c.putL1Validator { v with endAccumulatedFee := 0 }) c
  let advanced := feeState.advanceTime b.l1Config.target seconds
  .ok ((c.setL1ValidatorExcess advanced.excess).setAccruedFees accruedFees, covered ≠ [])

/-- The stakers that move at `newTime`: the first two parts of `advance_time_to`. -/
def advanceStakers (c : Chain) (newTime : ℤ) : Except Error (Chain × Bool) := do
  let due := c.pendingStakers.takeWhile fun s ↦ ¬s.startTime > newTime
  let (c, promotions) ← due.foldlM b.promote (c, {})
  let c ← promotions.validators.foldlM promoteValidator c
  let c := promotions.delegators.foldl promoteDelegator c
  let ended := c.currentStakers.takeWhile fun s ↦
    ¬s.endTime > newTime ∧ ¬s.priority ≠ .subnetPermissionedValidatorCurrent
  .ok (ended.foldl Chain.deleteCurrentValidator c,
    promotions.validators ≠ [] ∨ promotions.delegators ≠ [] ∨ ended ≠ [])

/-- Returns whether the validator set has changed. -/
def advanceTimeTo (c : Chain) (newTime : ℤ) : Except Error (Chain × Bool) := do
  let (c, changed) ← b.advanceStakers c newTime
  if !b.isEtnaActivated newTime then .ok (c.setTimestamp newTime, changed)
  else do
    let seconds := ((durationSince newTime c.timestamp).map (· / nanosPerSecond)).getD 0
    let (c, l1Changed) ← b.advanceValidatorFeeState c seconds
    .ok (c.setTimestamp newTime, changed || l1Changed)

end Backend

end Avalanche.Platform
