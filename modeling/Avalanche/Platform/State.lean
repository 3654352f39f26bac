import Avalanche.Platform.Staker

/-!
# The P-Chain state

The persisted base of the diff stack. Its spaces are maps; the tables that only mirror one of them
for a restart are left out, but for the reward UTXOs: those are read from memory if any were added
since the start of the node, and from the disk otherwise, and adding one starts a new list in memory
without looking at the disk.

The reads and writes below are those of the `Chain` trait, in its order.
-/

open Std

namespace Avalanche.Platform

inductive Error
  | wrongTxType
  | invalidProofOfPossession
  | feeOverflow
  | codec
  | notFound
  | invalidComponent
  | outputsNotSorted
  | inputsNotSortedUnique
  | invalidLocktime
  | nestedStakeableLock
  | emptyNodeId
  | overflow
  | stakeTooShort
  | flowCheckFailed
  | wrongNumberOfCredentials
  | unauthorizedModification
  | etnaUpgradeNotActive
  | couldNotLoadL1Validator
  | warpMessageContainsStaleNonce
  | removingLastValidator
  | stateCorruption
  | warpMessageExpired
  | warpMessageNotYetAllowed
  | wrongWarpMessageSource
  /-- The node stops: a division by zero. -/
  | panicked
deriving DecidableEq

/-- A check, and the error it fails with. -/
def require (p : Prop) [Decidable p] (e : Error) : Except Error Unit :=
  if p then .ok () else .error e

theorem require_eq_ok_iff {p : Prop} [Decidable p] {e : Error} {u : Unit} :
    require p e = .ok u ↔ p := by
  by_cases h : p <;> simp [require, h]

/-- A value that may be missing, and the error it is missed with. -/
def orError {α : Type} (x : Option α) (e : Error) : Except Error α := x.elim (.error e) .ok

theorem orError_eq_ok_iff {α : Type} {x : Option α} {e : Error} {a : α} :
    orError x e = .ok a ↔ x = some a := by
  rcases x with - | b <;> simp [orError]

/-- The gas meter. -/
structure GasState where
  capacity : ℕ := 0
  excess : ℕ := 0
deriving DecidableEq, Inhabited

/-- L1 validators are listed under their validation ids. -/
def L1Validator.Keyed (map : ExtTreeMap Id L1Validator) : Prop :=
  ∀ (id : Id) (v : L1Validator), map[id]? = some v → v.validationId = id

theorem L1Validator.keyed_empty : L1Validator.Keyed ∅ := fun _ _ h ↦ by simp at h

theorem L1Validator.Keyed.insert {map : ExtTreeMap Id L1Validator} (h : L1Validator.Keyed map)
    (new : L1Validator) : L1Validator.Keyed (map.insert new.validationId new) := by
  intro id v hv
  rw [TreeMap.getElem?_insert_eq] at hv
  split at hv
  next heq =>
    obtain rfl := Option.some.inj hv
    exact heq
  next => exact h id v hv

theorem L1Validator.Keyed.mem_map_snd {map : ExtTreeMap Id L1Validator} (h : L1Validator.Keyed map)
    {v : L1Validator} : v ∈ map.toList.map Prod.snd ↔ map[v.validationId]? = some v := by
  rw [List.mem_map]
  refine ⟨?_, fun hv ↦ ⟨(v.validationId, v), ?_, rfl⟩⟩
  · rintro ⟨⟨id, v⟩, hv, rfl⟩
    rw [ExtTreeMap.mem_toList_iff_getElem?_eq_some] at hv
    rwa [h id v hv]
  · exact ExtTreeMap.mem_toList_iff_getElem?_eq_some.mpr hv

structure State where
  timestamp : ℤ
  feeState : GasState
  l1ValidatorExcess : ℕ
  accruedFees : ℕ
  supply : ExtTreeMap Id ℕ
  utxos : ExtTreeMap Id Bytes
  current : Stakers
  pending : Stakers
  stakingInfo : ExtTreeMap ValidatorKey StakingInfo
  l1Validators : ExtTreeMap Id L1Validator
  subnetIds : List Id
  subnetOwners : ExtTreeMap Id Bytes
  subnetManagers : ExtTreeMap Id Bytes
  chainIndex : ExtTreeMap Id (List Id)
  rewardUtxoIndex : ExtTreeMap Id (List Bytes)
  /-- The reward UTXOs on disk, by tx and ordinal. -/
  rewardUtxos : ExtTreeMap Id (ExtTreeMap ℕ Bytes)
  txs : ExtTreeMap Id Bytes
  l1Validators_keyed : L1Validator.Keyed l1Validators

/-- `list`, with `x` at its end if it is not in it. -/
def pushNew {α : Type} [DecidableEq α] (list : List α) (x : α) : List α :=
  if x ∈ list then list else list ++ [x]

/-- A sum of weights as `u64`s, from `total` on. -/
def addWeights (total : ℕ) (weights : List ℕ) : Except Error ℕ :=
  weights.foldlM (fun total w ↦ orError (checkedAdd total w) .overflow) total

/-- The weights that the validators of a map have in a subnet, in the order of the map. -/
def L1Validator.weights (map : ExtTreeMap Id L1Validator) (subnet : Id) : List ℕ :=
  (map.toList.filter fun p ↦ p.2.subnetId = subnet).map fun p ↦ p.2.weight.toNat

/-- `sort_by(L1Validator::compare)`. -/
def L1Validator.sorted (list : List L1Validator) : List L1Validator :=
  list.mergeSort fun a b ↦ a.compare b ≠ .gt

namespace State

/-- A state without anything in it. -/
def new : State where
  timestamp := 0
  feeState := {}
  l1ValidatorExcess := 0
  accruedFees := 0
  supply := ∅
  utxos := ∅
  current := .empty
  pending := .empty
  stakingInfo := ∅
  l1Validators := ∅
  subnetIds := []
  subnetOwners := ∅
  subnetManagers := ∅
  chainIndex := ∅
  rewardUtxoIndex := ∅
  rewardUtxos := ∅
  txs := ∅
  l1Validators_keyed := L1Validator.keyed_empty

def setTimestamp (s : State) (t : ℤ) : State := { s with timestamp := t }

def currentSupply (s : State) (subnet : Id) : Except Error ℕ := .ok (s.supply[subnet]?.getD 0)

def setCurrentSupply (s : State) (subnet : Id) (supply : ℕ) : State :=
  { s with supply := s.supply.insert subnet supply }

def setFeeState (s : State) (fee : GasState) : State := { s with feeState := fee }

def setL1ValidatorExcess (s : State) (excess : ℕ) : State := { s with l1ValidatorExcess := excess }

def setAccruedFees (s : State) (v : ℕ) : State := { s with accruedFees := v }

/-- A lookup that fails with `database.ErrNotFound`. -/
def found {α : Type} (x : Option α) : Except Error α := orError x .notFound

def getUtxo (s : State) (id : Id) : Except Error Bytes := found s.utxos[id]?

def addUtxo (s : State) (id : Id) (utxo : Bytes) : State :=
  { s with utxos := s.utxos.insert id utxo }

def deleteUtxo (s : State) (id : Id) : State := { s with utxos := s.utxos.erase id }

def getCurrentValidator (s : State) (subnet : Id) (node : NodeId) : Except Error Staker :=
  found (s.current.getValidator subnet node)

def putCurrentValidator (s : State) (x : Staker) : Except Error State :=
  if !x.priority.isCurrent then .error .wrongTxType
  else .ok
    { s with
      stakingInfo := s.stakingInfo.insertIfNew x.key default
      current := s.current.putValidator x }

def deleteCurrentValidator (s : State) (x : Staker) : State :=
  { s with
    stakingInfo := s.stakingInfo.erase x.key
    current := s.current.deleteValidator x }

def putCurrentDelegator (s : State) (x : Staker) : State :=
  { s with current := s.current.putDelegator x }

def deleteCurrentDelegator (s : State) (x : Staker) : State :=
  { s with current := s.current.deleteDelegator x }

def currentStakers (s : State) : List Staker := s.current.toVec

def getStakingInfo (s : State) (subnet : Id) (node : NodeId) : Except Error StakingInfo := do
  let _ ← s.getCurrentValidator subnet node
  .ok (s.stakingInfo[(toLex (subnet, node) : ValidatorKey)]?.getD default)

def setStakingInfo (s : State) (subnet : Id) (node : NodeId) (info : StakingInfo) :
    Except Error State := do
  let _ ← s.getCurrentValidator subnet node
  .ok { s with stakingInfo := s.stakingInfo.insert (toLex (subnet, node) : ValidatorKey) info }

def putPendingValidator (s : State) (x : Staker) : Except Error State :=
  if !x.priority.isPending then .error .wrongTxType
  else .ok { s with pending := s.pending.putValidator x }

def deletePendingValidator (s : State) (x : Staker) : State :=
  { s with pending := s.pending.deleteValidator x }

def putPendingDelegator (s : State) (x : Staker) : State :=
  { s with pending := s.pending.putDelegator x }

def deletePendingDelegator (s : State) (x : Staker) : State :=
  { s with pending := s.pending.deleteDelegator x }

def pendingStakers (s : State) : List Staker := s.pending.toVec

def getL1Validator (s : State) (validationId : Id) : Except Error L1Validator :=
  found s.l1Validators[validationId]?

def putL1Validator (s : State) (v : L1Validator) : State :=
  { s with
    l1Validators := s.l1Validators.insert v.validationId v
    l1Validators_keyed := s.l1Validators_keyed.insert v }

def weightOfL1Validators (s : State) (subnet : Id) : Except Error ℕ :=
  addWeights 0 (L1Validator.weights s.l1Validators subnet)

def activeL1Validators (s : State) : List L1Validator :=
  L1Validator.sorted ((s.l1Validators.toList.map Prod.snd).filter L1Validator.isActive)

theorem mem_activeL1Validators {s : State} {v : L1Validator} : v ∈ s.activeL1Validators ↔
    s.l1Validators[v.validationId]? = some v ∧ v.isActive = true := by
  rw [activeL1Validators, L1Validator.sorted, (List.mergeSort_perm _ _).mem_iff, List.mem_filter,
    s.l1Validators_keyed.mem_map_snd]

def subnets (s : State) : List Id := s.subnetIds

def addSubnet (s : State) (subnet : Id) : State :=
  { s with subnetIds := pushNew s.subnetIds subnet }

def getSubnetOwner (s : State) (subnet : Id) : Except Error Bytes := found s.subnetOwners[subnet]?

def setSubnetOwner (s : State) (subnet : Id) (owner : Bytes) : State :=
  { s with subnetOwners := s.subnetOwners.insert subnet owner }

def getSubnetManager (s : State) (subnet : Id) : Except Error Bytes :=
  found s.subnetManagers[subnet]?

def setSubnetManager (s : State) (subnet : Id) (manager : Bytes) : State :=
  { s with subnetManagers := s.subnetManagers.insert subnet manager }

def chains (s : State) (subnet : Id) : List Id := s.chainIndex[subnet]?.getD []

def addChain (s : State) (subnet chain : Id) : State :=
  { s with chainIndex := s.chainIndex.insert subnet (pushNew (s.chains subnet) chain) }

/-- The reward UTXOs on disk, in the order of their ordinals. -/
def readRewardUtxosFromDisk (s : State) (txId : Id) : List Bytes :=
  (s.rewardUtxos[txId]?.getD ∅).toList.map Prod.snd

def getRewardUtxos (s : State) (txId : Id) : List Bytes :=
  s.rewardUtxoIndex[txId]?.getD (s.readRewardUtxosFromDisk txId)

def addRewardUtxo (s : State) (txId : Id) (utxo : Bytes) : State :=
  let list := s.rewardUtxoIndex[txId]?.getD []
  { s with
    rewardUtxos := s.rewardUtxos.insert txId
      ((s.rewardUtxos[txId]?.getD ∅).insert list.length utxo)
    rewardUtxoIndex := s.rewardUtxoIndex.insert txId (list ++ [utxo]) }

def getTx (s : State) (txId : Id) : Except Error Bytes := found s.txs[txId]?

def addTx (s : State) (txId : Id) (bytes : Bytes) : State :=
  { s with txs := s.txs.insert txId bytes }

end State

end Avalanche.Platform
