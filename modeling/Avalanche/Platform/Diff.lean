import Avalanche.Platform.State

/-!
# Diffs

A `Diff` lies over a parent, which is the state or another diff. It records the writes made to it,
each kind in a way of its own, and a read looks at what was recorded before it asks the parent.
`Diff.apply` replays the records on a state, and `Chain.flatten` does so for a whole stack from the
bottom.
-/

open Std

namespace Avalanche.Platform

/-- A recorded write to a staker set. -/
inductive StakerOp
  | putValidator (s : Staker)
  | deleteValidator (s : Staker)
  | putDelegator (s : Staker)
  | deleteDelegator (s : Staker)
deriving DecidableEq

/-- A recorded write to the UTXO set. -/
inductive UtxoOp
  | add (utxo : Bytes)
  | delete
deriving DecidableEq

/-- The records of a diff, without its parent. -/
structure Diff where
  timestamp : Option ℤ
  feeState : Option GasState
  l1ValidatorExcess : Option ℕ
  accruedFees : Option ℕ
  supply : ExtTreeMap Id ℕ
  utxos : ExtTreeMap Id UtxoOp
  currentOps : List StakerOp
  pendingOps : List StakerOp
  currentValidators : ExtTreeMap ValidatorKey (Option Staker)
  stakingInfo : ExtTreeMap ValidatorKey StakingInfo
  l1Validators : ExtTreeMap Id L1Validator
  addedSubnets : List Id
  subnetOwners : ExtTreeMap Id Bytes
  subnetManagers : ExtTreeMap Id Bytes
  addedChains : ExtTreeMap Id (List Id)
  rewardUtxos : ExtTreeMap Id (List Bytes)
  txs : ExtTreeMap Id Bytes
  l1Validators_keyed : L1Validator.Keyed l1Validators

namespace Diff

def new : Diff where
  timestamp := none
  feeState := none
  l1ValidatorExcess := none
  accruedFees := none
  supply := ∅
  utxos := ∅
  currentOps := []
  pendingOps := []
  currentValidators := ∅
  stakingInfo := ∅
  l1Validators := ∅
  addedSubnets := []
  subnetOwners := ∅
  subnetManagers := ∅
  addedChains := ∅
  rewardUtxos := ∅
  txs := ∅
  l1Validators_keyed := L1Validator.keyed_empty

def setTimestamp (d : Diff) (t : ℤ) : Diff := { d with timestamp := some t }

def setCurrentSupply (d : Diff) (subnet : Id) (supply : ℕ) : Diff :=
  { d with supply := d.supply.insert subnet supply }

def setFeeState (d : Diff) (fee : GasState) : Diff := { d with feeState := some fee }

def setL1ValidatorExcess (d : Diff) (excess : ℕ) : Diff :=
  { d with l1ValidatorExcess := some excess }

def setAccruedFees (d : Diff) (v : ℕ) : Diff := { d with accruedFees := some v }

def addUtxo (d : Diff) (id : Id) (utxo : Bytes) : Diff :=
  { d with utxos := d.utxos.insert id (.add utxo) }

def deleteUtxo (d : Diff) (id : Id) : Diff := { d with utxos := d.utxos.insert id .delete }

def putCurrentValidator (d : Diff) (s : Staker) : Except Error Diff :=
  if !s.priority.isCurrent then .error .wrongTxType
  else .ok
    { d with
      stakingInfo := d.stakingInfo.insertIfNew s.key default
      currentValidators := d.currentValidators.insert s.key (some s)
      currentOps := d.currentOps ++ [.putValidator s] }

def deleteCurrentValidator (d : Diff) (s : Staker) : Diff :=
  { d with
    stakingInfo := d.stakingInfo.erase s.key
    currentValidators := d.currentValidators.insert s.key none
    currentOps := d.currentOps ++ [.deleteValidator s] }

def putCurrentDelegator (d : Diff) (s : Staker) : Diff :=
  { d with currentOps := d.currentOps ++ [.putDelegator s] }

def deleteCurrentDelegator (d : Diff) (s : Staker) : Diff :=
  { d with currentOps := d.currentOps ++ [.deleteDelegator s] }

/-- The insertion of `set_staking_info`, after its check. -/
def setStakingInfo (d : Diff) (subnet : Id) (node : NodeId) (info : StakingInfo) : Diff :=
  { d with stakingInfo := d.stakingInfo.insert (toLex (subnet, node) : ValidatorKey) info }

def putPendingValidator (d : Diff) (s : Staker) : Except Error Diff :=
  if !s.priority.isPending then .error .wrongTxType
  else .ok { d with pendingOps := d.pendingOps ++ [.putValidator s] }

def deletePendingValidator (d : Diff) (s : Staker) : Diff :=
  { d with pendingOps := d.pendingOps ++ [.deleteValidator s] }

def putPendingDelegator (d : Diff) (s : Staker) : Diff :=
  { d with pendingOps := d.pendingOps ++ [.putDelegator s] }

def deletePendingDelegator (d : Diff) (s : Staker) : Diff :=
  { d with pendingOps := d.pendingOps ++ [.deleteDelegator s] }

def putL1Validator (d : Diff) (v : L1Validator) : Diff :=
  { d with
    l1Validators := d.l1Validators.insert v.validationId v
    l1Validators_keyed := d.l1Validators_keyed.insert v }

def addSubnet (d : Diff) (subnet : Id) : Diff :=
  { d with addedSubnets := pushNew d.addedSubnets subnet }

def setSubnetOwner (d : Diff) (subnet : Id) (owner : Bytes) : Diff :=
  { d with subnetOwners := d.subnetOwners.insert subnet owner }

def setSubnetManager (d : Diff) (subnet : Id) (manager : Bytes) : Diff :=
  { d with subnetManagers := d.subnetManagers.insert subnet manager }

def addChain (d : Diff) (subnet chain : Id) : Diff :=
  { d with addedChains := d.addedChains.insert subnet (d.addedChains[subnet]?.getD [] ++ [chain]) }

def addRewardUtxo (d : Diff) (txId : Id) (utxo : Bytes) : Diff :=
  { d with rewardUtxos := d.rewardUtxos.insert txId (d.rewardUtxos[txId]?.getD [] ++ [utxo]) }

def addTx (d : Diff) (txId : Id) (bytes : Bytes) : Diff :=
  { d with txs := d.txs.insert txId bytes }

end Diff

/-! ## Replaying a diff -/

namespace State

def applyUtxoOp (s : State) (id : Id) : UtxoOp → State
  | .add utxo => s.addUtxo id utxo
  | .delete => s.deleteUtxo id

def applyCurrentOp (s : State) : StakerOp → Except Error State
  | .putValidator x => s.putCurrentValidator x
  | .deleteValidator x => .ok (s.deleteCurrentValidator x)
  | .putDelegator x => .ok (s.putCurrentDelegator x)
  | .deleteDelegator x => .ok (s.deleteCurrentDelegator x)

def applyPendingOp (s : State) : StakerOp → Except Error State
  | .putValidator x => s.putPendingValidator x
  | .deleteValidator x => .ok (s.deletePendingValidator x)
  | .putDelegator x => .ok (s.putPendingDelegator x)
  | .deleteDelegator x => .ok (s.deletePendingDelegator x)

end State

namespace Diff

/-- The scalars of a diff, then its supplies and UTXOs. -/
def applyScalars (d : Diff) (base : State) : State :=
  let base := d.timestamp.elim base base.setTimestamp
  let base := d.feeState.elim base base.setFeeState
  let base := d.l1ValidatorExcess.elim base base.setL1ValidatorExcess
  let base := d.accruedFees.elim base base.setAccruedFees
  let base := d.supply.toList.foldl (fun s p ↦ s.setCurrentSupply p.1 p.2) base
  d.utxos.toList.foldl (fun s p ↦ s.applyUtxoOp p.1 p.2) base

/-- The staker operations, and the staking infos after them. -/
def applyStakers (d : Diff) (base : State) : Except Error State := do
  let base ← d.currentOps.foldlM State.applyCurrentOp base
  let base ← d.pendingOps.foldlM State.applyPendingOp base
  d.stakingInfo.toList.foldlM (fun s p ↦ s.setStakingInfo p.1.1 p.1.2 p.2) base

/-- The rest. -/
def applyTables (d : Diff) (base : State) : State :=
  let base := d.l1Validators.toList.foldl (fun s p ↦ s.putL1Validator p.2) base
  let base := d.addedSubnets.foldl State.addSubnet base
  let base := d.subnetOwners.toList.foldl (fun s p ↦ s.setSubnetOwner p.1 p.2) base
  let base := d.subnetManagers.toList.foldl (fun s p ↦ s.setSubnetManager p.1 p.2) base
  let base := d.addedChains.toList.foldl (fun s p ↦ p.2.foldl (fun s c ↦ s.addChain p.1 c) s) base
  let base := d.rewardUtxos.toList.foldl
    (fun s p ↦ p.2.foldl (fun s utxo ↦ s.addRewardUtxo p.1 utxo) s) base
  d.txs.toList.foldl (fun s p ↦ s.addTx p.1 p.2) base

def apply (d : Diff) (base : State) : Except Error State :=
  (d.applyStakers (d.applyScalars base)).map d.applyTables

end Diff

/-! ## The stack -/

/-- A state, or a diff over a parent. -/
inductive Chain
  | state (s : State)
  | diff (parent : Chain) (d : Diff)

namespace Chain

/-- The state to which all the diffs have been applied, from the bottom. -/
def flatten : Chain → Except Error State
  | state s => .ok s
  | diff parent d => parent.flatten >>= d.apply

/-! ### Reads -/

def timestamp : Chain → ℤ
  | state s => s.timestamp
  | diff parent d => d.timestamp.getD parent.timestamp

def currentSupply : Chain → Id → Except Error ℕ
  | state s, subnet => s.currentSupply subnet
  | diff parent d, subnet =>
    match d.supply[subnet]? with
    | some v => .ok v
    | none => parent.currentSupply subnet

def feeState : Chain → GasState
  | state s => s.feeState
  | diff parent d => d.feeState.getD parent.feeState

def l1ValidatorExcess : Chain → ℕ
  | state s => s.l1ValidatorExcess
  | diff parent d => d.l1ValidatorExcess.getD parent.l1ValidatorExcess

def accruedFees : Chain → ℕ
  | state s => s.accruedFees
  | diff parent d => d.accruedFees.getD parent.accruedFees

def getUtxo : Chain → Id → Except Error Bytes
  | state s, id => s.getUtxo id
  | diff parent d, id =>
    match d.utxos[id]? with
    | some (.add utxo) => .ok utxo
    | some .delete => .error .notFound
    | none => parent.getUtxo id

def getCurrentValidator : Chain → Id → NodeId → Except Error Staker
  | state s, subnet, node => s.getCurrentValidator subnet node
  | diff parent d, subnet, node =>
    match d.currentValidators[(toLex (subnet, node) : ValidatorKey)]? with
    | some (some s) => .ok s
    | some none => .error .notFound
    | none => parent.getCurrentValidator subnet node

/-- The stakers of the parent: what the diff has recorded is not looked at. -/
def currentStakers : Chain → List Staker
  | state s => s.currentStakers
  | diff parent _ => parent.currentStakers

def getStakingInfo : Chain → Id → NodeId → Except Error StakingInfo
  | state s, subnet, node => s.getStakingInfo subnet node
  | diff parent d, subnet, node =>
    match d.stakingInfo[(toLex (subnet, node) : ValidatorKey)]? with
    | some info => .ok info
    | none => do
      let _ ← (diff parent d).getCurrentValidator subnet node
      parent.getStakingInfo subnet node

/-- The stakers of the parent, likewise. -/
def pendingStakers : Chain → List Staker
  | state s => s.pendingStakers
  | diff parent _ => parent.pendingStakers

def getL1Validator : Chain → Id → Except Error L1Validator
  | state s, id => s.getL1Validator id
  | diff parent d, id =>
    match d.l1Validators[id]? with
    | some v => .ok v
    | none => parent.getL1Validator id

/-- The weight of the parent and that of the records, whatever the records replace. -/
def weightOfL1Validators : Chain → Id → Except Error ℕ
  | state s, subnet => s.weightOfL1Validators subnet
  | diff parent d, subnet => do
    let total ← parent.weightOfL1Validators subnet
    addWeights total (L1Validator.weights d.l1Validators subnet)

/-- A validator of a diff over the active ones of its parent. -/
def overlayActive (byId : ExtTreeMap Id L1Validator) (p : Id × L1Validator) :
    ExtTreeMap Id L1Validator :=
  if p.2.isActive then byId.insert p.1 p.2 else byId.erase p.1

theorem getElem?_overlayActive (byId : ExtTreeMap Id L1Validator) (p : Id × L1Validator) (id : Id) :
    (overlayActive byId p)[id]?
      = if p.1 = id then (some p.2).filter L1Validator.isActive else byId[id]? := by
  rw [overlayActive]
  by_cases hactive : p.2.isActive = true
  · rw [if_pos hactive, TreeMap.getElem?_insert_eq, Option.filter_some, if_pos hactive]
  · rw [if_neg hactive, TreeMap.getElem?_erase_eq, Option.filter_some, if_neg hactive]

/-- The map of the active validators of a diff over a chain with the records `look`. -/
theorem getElem?_byId (d : Diff) (look : Id → Option L1Validator) {l : List L1Validator}
    (hl : ∀ v, v ∈ l ↔ look v.validationId = some v ∧ v.isActive = true)
    (hlook : ∀ id v, look id = some v → v.validationId = id) (id : Id) :
    (d.l1Validators.toList.foldl overlayActive
      (l.foldl (fun map v ↦ map.insert v.validationId v) ∅))[id]?
      = ((d.l1Validators[id]?).or (look id)).filter L1Validator.isActive := by
  refine (TreeMap.foldl_toList (fun (m : ExtTreeMap Id L1Validator) (k : Id) ↦ m[k]?)
    (fun v _ ↦ (some v).filter L1Validator.isActive) getElem?_overlayActive _ _ id).trans ?_
  rcases d.l1Validators[id]? with - | w
  · rw [Option.elim_none, Option.none_or]
    obtain h | ⟨hnone, h⟩ := TreeMap.getElem?_foldl_insert L1Validator.validationId
      (fun id ↦ (look id).filter L1Validator.isActive)
      (fun v hv ↦ Option.filter_eq_some_iff.mpr ((hl v).mp hv)) ∅ id
    · exact h
    · rw [h, ExtTreeMap.getElem?_empty, eq_comm, Option.filter_eq_none_iff]
      intro v hv hactive
      have hid := hlook id v hv
      exact hnone v ((hl v).mpr ⟨hid ▸ hv, hactive⟩) hid
  · rfl

def activeL1Validators : Chain → List L1Validator
  | state s => s.activeL1Validators
  | diff parent d =>
    let byId := parent.activeL1Validators.foldl (fun map v ↦ map.insert v.validationId v) ∅
    let byId := d.l1Validators.toList.foldl overlayActive byId
    L1Validator.sorted (byId.toList.map Prod.snd)

def subnets : Chain → List Id
  | state s => s.subnets
  | diff parent d => d.addedSubnets.foldl pushNew parent.subnets

def getSubnetOwner : Chain → Id → Except Error Bytes
  | state s, subnet => s.getSubnetOwner subnet
  | diff parent d, subnet =>
    match d.subnetOwners[subnet]? with
    | some owner => .ok owner
    | none => parent.getSubnetOwner subnet

def getSubnetManager : Chain → Id → Except Error Bytes
  | state s, subnet => s.getSubnetManager subnet
  | diff parent d, subnet =>
    match d.subnetManagers[subnet]? with
    | some manager => .ok manager
    | none => parent.getSubnetManager subnet

def chains : Chain → Id → List Id
  | state s, subnet => s.chains subnet
  | diff parent d, subnet => (d.addedChains[subnet]?.getD []).foldl pushNew (parent.chains subnet)

def getRewardUtxos : Chain → Id → List Bytes
  | state s, txId => s.getRewardUtxos txId
  | diff parent d, txId => parent.getRewardUtxos txId ++ d.rewardUtxos[txId]?.getD []

def getTx : Chain → Id → Except Error Bytes
  | state s, txId => s.getTx txId
  | diff parent d, txId =>
    match d.txs[txId]? with
    | some bytes => .ok bytes
    | none => parent.getTx txId

/-! ### Writes -/

/-- A write, to a state or into the records of a diff. -/
def update (f : State → State) (g : Diff → Diff) : Chain → Chain
  | state s => state (f s)
  | diff parent d => diff parent (g d)

/-- A write that may fail. -/
def updateM (f : State → Except Error State) (g : Diff → Except Error Diff) :
    Chain → Except Error Chain
  | state s => (f s).map state
  | diff parent d => (g d).map (diff parent)

def setTimestamp (c : Chain) (t : ℤ) : Chain := c.update (·.setTimestamp t) (·.setTimestamp t)

def setCurrentSupply (c : Chain) (subnet : Id) (supply : ℕ) : Chain :=
  c.update (·.setCurrentSupply subnet supply) (·.setCurrentSupply subnet supply)

def setFeeState (c : Chain) (fee : GasState) : Chain :=
  c.update (·.setFeeState fee) (·.setFeeState fee)

def setL1ValidatorExcess (c : Chain) (excess : ℕ) : Chain :=
  c.update (·.setL1ValidatorExcess excess) (·.setL1ValidatorExcess excess)

def setAccruedFees (c : Chain) (v : ℕ) : Chain := c.update (·.setAccruedFees v) (·.setAccruedFees v)

def addUtxo (c : Chain) (id : Id) (utxo : Bytes) : Chain :=
  c.update (·.addUtxo id utxo) (·.addUtxo id utxo)

def deleteUtxo (c : Chain) (id : Id) : Chain := c.update (·.deleteUtxo id) (·.deleteUtxo id)

def putCurrentValidator (c : Chain) (s : Staker) : Except Error Chain :=
  c.updateM (·.putCurrentValidator s) (·.putCurrentValidator s)

def deleteCurrentValidator (c : Chain) (s : Staker) : Chain :=
  c.update (·.deleteCurrentValidator s) (·.deleteCurrentValidator s)

def putCurrentDelegator (c : Chain) (s : Staker) : Chain :=
  c.update (·.putCurrentDelegator s) (·.putCurrentDelegator s)

def deleteCurrentDelegator (c : Chain) (s : Staker) : Chain :=
  c.update (·.deleteCurrentDelegator s) (·.deleteCurrentDelegator s)

/-- The check of a diff looks at the diff itself. -/
def setStakingInfo (c : Chain) (subnet : Id) (node : NodeId) (info : StakingInfo) :
    Except Error Chain :=
  c.updateM (·.setStakingInfo subnet node info) fun d ↦ do
    let _ ← c.getCurrentValidator subnet node
    .ok (d.setStakingInfo subnet node info)

def putPendingValidator (c : Chain) (s : Staker) : Except Error Chain :=
  c.updateM (·.putPendingValidator s) (·.putPendingValidator s)

def deletePendingValidator (c : Chain) (s : Staker) : Chain :=
  c.update (·.deletePendingValidator s) (·.deletePendingValidator s)

def putPendingDelegator (c : Chain) (s : Staker) : Chain :=
  c.update (·.putPendingDelegator s) (·.putPendingDelegator s)

def deletePendingDelegator (c : Chain) (s : Staker) : Chain :=
  c.update (·.deletePendingDelegator s) (·.deletePendingDelegator s)

def putL1Validator (c : Chain) (v : L1Validator) : Chain :=
  c.update (·.putL1Validator v) (·.putL1Validator v)

def addSubnet (c : Chain) (subnet : Id) : Chain :=
  c.update (·.addSubnet subnet) (·.addSubnet subnet)

def setSubnetOwner (c : Chain) (subnet : Id) (owner : Bytes) : Chain :=
  c.update (·.setSubnetOwner subnet owner) (·.setSubnetOwner subnet owner)

def setSubnetManager (c : Chain) (subnet : Id) (manager : Bytes) : Chain :=
  c.update (·.setSubnetManager subnet manager) (·.setSubnetManager subnet manager)

def addChain (c : Chain) (subnet chain : Id) : Chain :=
  c.update (·.addChain subnet chain) (·.addChain subnet chain)

def addRewardUtxo (c : Chain) (txId : Id) (utxo : Bytes) : Chain :=
  c.update (·.addRewardUtxo txId utxo) (·.addRewardUtxo txId utxo)

def addTx (c : Chain) (txId : Id) (bytes : Bytes) : Chain :=
  c.update (·.addTx txId bytes) (·.addTx txId bytes)

/-- The state at the bottom. -/
def base : Chain → State
  | state s => s
  | diff parent _ => parent.base

end Chain

/-- A call of one of the writes. -/
inductive Mutation
  | setTimestamp (t : ℤ)
  | setCurrentSupply (subnet : Id) (supply : ℕ)
  | setFeeState (fee : GasState)
  | setL1ValidatorExcess (excess : ℕ)
  | setAccruedFees (v : ℕ)
  | addUtxo (id : Id) (utxo : Bytes)
  | deleteUtxo (id : Id)
  | putCurrentValidator (s : Staker)
  | deleteCurrentValidator (s : Staker)
  | putCurrentDelegator (s : Staker)
  | deleteCurrentDelegator (s : Staker)
  | setStakingInfo (subnet : Id) (node : NodeId) (info : StakingInfo)
  | putPendingValidator (s : Staker)
  | deletePendingValidator (s : Staker)
  | putPendingDelegator (s : Staker)
  | deletePendingDelegator (s : Staker)
  | putL1Validator (v : L1Validator)
  | addSubnet (subnet : Id)
  | setSubnetOwner (subnet : Id) (owner : Bytes)
  | setSubnetManager (subnet : Id) (manager : Bytes)
  | addChain (subnet chain : Id)
  | addRewardUtxo (txId : Id) (utxo : Bytes)
  | addTx (txId : Id) (bytes : Bytes)

def Chain.mutate (c : Chain) : Mutation → Except Error Chain
  | .setTimestamp t => .ok (c.setTimestamp t)
  | .setCurrentSupply subnet supply => .ok (c.setCurrentSupply subnet supply)
  | .setFeeState fee => .ok (c.setFeeState fee)
  | .setL1ValidatorExcess excess => .ok (c.setL1ValidatorExcess excess)
  | .setAccruedFees v => .ok (c.setAccruedFees v)
  | .addUtxo id utxo => .ok (c.addUtxo id utxo)
  | .deleteUtxo id => .ok (c.deleteUtxo id)
  | .putCurrentValidator s => c.putCurrentValidator s
  | .deleteCurrentValidator s => .ok (c.deleteCurrentValidator s)
  | .putCurrentDelegator s => .ok (c.putCurrentDelegator s)
  | .deleteCurrentDelegator s => .ok (c.deleteCurrentDelegator s)
  | .setStakingInfo subnet node info => c.setStakingInfo subnet node info
  | .putPendingValidator s => c.putPendingValidator s
  | .deletePendingValidator s => .ok (c.deletePendingValidator s)
  | .putPendingDelegator s => .ok (c.putPendingDelegator s)
  | .deletePendingDelegator s => .ok (c.deletePendingDelegator s)
  | .putL1Validator v => .ok (c.putL1Validator v)
  | .addSubnet subnet => .ok (c.addSubnet subnet)
  | .setSubnetOwner subnet owner => .ok (c.setSubnetOwner subnet owner)
  | .setSubnetManager subnet manager => .ok (c.setSubnetManager subnet manager)
  | .addChain subnet chain => .ok (c.addChain subnet chain)
  | .addRewardUtxo txId utxo => .ok (c.addRewardUtxo txId utxo)
  | .addTx txId bytes => .ok (c.addTx txId bytes)

end Avalanche.Platform
