import Avalanche.Library.Loop
import Avalanche.Platform.Diff

/-!
# Replaying a diff

Each loop of `Diff.apply` writes one part of the state, so what it leaves is the state with that
part replaced by a fold over it. `Diff.applied` names the parts, and `Diff.apply_eq` says when
`apply` gets to the end: the operations of its logs are on stakers of their kind, and a staking info
belongs to a validator that is current after them.
-/

open Std

namespace Avalanche.Platform

/-! ### What `apply` leaves -/

/-- A recorded operation on the stakers it is meant for. -/
def Stakers.applyOp (x : Stakers) : StakerOp → Stakers
  | .putValidator s => x.putValidator s
  | .deleteValidator s => x.deleteValidator s
  | .putDelegator s => x.putDelegator s
  | .deleteDelegator s => x.deleteDelegator s

/-- What an operation on the current stakers does to the staking infos. -/
def stakingOp (infos : ExtTreeMap ValidatorKey StakingInfo) :
    StakerOp → ExtTreeMap ValidatorKey StakingInfo
  | .putValidator s => infos.insertIfNew s.key default
  | .deleteValidator s => infos.erase s.key
  | .putDelegator _ => infos
  | .deleteDelegator _ => infos

/-- The UTXO set after a recorded write. -/
def applyUtxoOp (utxos : ExtTreeMap Id Bytes) (p : Id × UtxoOp) : ExtTreeMap Id Bytes :=
  match p.2 with
  | .add utxo => utxos.insert p.1 utxo
  | .delete => utxos.erase p.1

/-- What is under the id of a recorded write. -/
def UtxoOp.result : UtxoOp → Option Bytes
  | .add utxo => some utxo
  | .delete => none

theorem getElem?_applyUtxoOp (utxos : ExtTreeMap Id Bytes) (p : Id × UtxoOp) (id : Id) :
    (applyUtxoOp utxos p)[id]? = if p.1 = id then p.2.result else utxos[id]? := by
  rcases p with ⟨id', utxo | -⟩
  · exact TreeMap.getElem?_insert_eq _ _ _ _
  · exact TreeMap.getElem?_erase_eq _ _ _

/-- The validators of a map that keeps each under its id. -/
def L1Map := { map : ExtTreeMap Id L1Validator // L1Validator.Keyed map }

def L1Map.put (map : L1Map) (v : L1Validator) : L1Map :=
  ⟨map.1.insert v.validationId v, map.2.insert v⟩

/-- The chain index after one more chain of a subnet. -/
def addChainTo (index : ExtTreeMap Id (List Id)) (subnet chain : Id) : ExtTreeMap Id (List Id) :=
  index.insert subnet (pushNew (index[subnet]?.getD []) chain)

/-- The reward UTXOs in memory and on disk. -/
abbrev RewardTables := ExtTreeMap Id (List Bytes) × ExtTreeMap Id (ExtTreeMap ℕ Bytes)

def RewardTables.add (t : RewardTables) (txId : Id) (utxo : Bytes) : RewardTables :=
  let list := t.1[txId]?.getD []
  (t.1.insert txId (list ++ [utxo]),
    t.2.insert txId ((t.2[txId]?.getD ∅).insert list.length utxo))

namespace Diff

variable (d : Diff) (s : State)

/-- The rewards after those of a diff. -/
def rewardTables : RewardTables :=
  d.rewardUtxos.toList.foldl (fun t p ↦ p.2.foldl (fun t utxo ↦ t.add p.1 utxo) t)
    (s.rewardUtxoIndex, s.rewardUtxos)

/-- The L1 validators after those of a diff. -/
def l1Map : L1Map :=
  d.l1Validators.toList.foldl (fun map p ↦ map.put p.2) ⟨s.l1Validators, s.l1Validators_keyed⟩

/-- The state after `apply`, part by part. -/
def applied : State where
  timestamp := d.timestamp.getD s.timestamp
  feeState := d.feeState.getD s.feeState
  l1ValidatorExcess := d.l1ValidatorExcess.getD s.l1ValidatorExcess
  accruedFees := d.accruedFees.getD s.accruedFees
  supply := d.supply.toList.foldl TreeMap.put s.supply
  utxos := d.utxos.toList.foldl applyUtxoOp s.utxos
  current := d.currentOps.foldl Stakers.applyOp s.current
  pending := d.pendingOps.foldl Stakers.applyOp s.pending
  stakingInfo := d.stakingInfo.toList.foldl TreeMap.put
    (d.currentOps.foldl stakingOp s.stakingInfo)
  l1Validators := (d.l1Map s).1
  subnetIds := d.addedSubnets.foldl pushNew s.subnetIds
  subnetOwners := d.subnetOwners.toList.foldl TreeMap.put s.subnetOwners
  subnetManagers := d.subnetManagers.toList.foldl TreeMap.put s.subnetManagers
  chainIndex := d.addedChains.toList.foldl
    (fun m p ↦ p.2.foldl (fun m c ↦ addChainTo m p.1 c) m) s.chainIndex
  rewardUtxoIndex := (d.rewardTables s).1
  rewardUtxos := (d.rewardTables s).2
  txs := d.txs.toList.foldl TreeMap.put s.txs
  l1Validators_keyed := (d.l1Map s).2

end Diff

/-! ### The loops, each on the part it writes -/

namespace State

theorem foldl_setCurrentSupply (l : List (Id × ℕ)) (s : State) :
    l.foldl (fun s p ↦ s.setCurrentSupply p.1 p.2) s
      = { s with supply := l.foldl TreeMap.put s.supply } :=
  TreeMap.foldl_part supply (fun s m ↦ { s with supply := m }) TreeMap.put l s

theorem foldl_applyUtxoOp (l : List (Id × UtxoOp)) (s : State) :
    l.foldl (fun s p ↦ s.applyUtxoOp p.1 p.2) s
      = { s with utxos := l.foldl Platform.applyUtxoOp s.utxos } := by
  have hstep : (fun (s : State) (p : Id × UtxoOp) ↦ s.applyUtxoOp p.1 p.2)
      = fun s p ↦ { s with utxos := Platform.applyUtxoOp s.utxos p } := by
    funext s ⟨id, op⟩
    rcases op with utxo | - <;> rfl
  rw [hstep]
  exact TreeMap.foldl_part utxos (fun s m ↦ { s with utxos := m }) Platform.applyUtxoOp l s

theorem foldl_putL1Validator (l : List (Id × L1Validator)) (s : State) :
    l.foldl (fun s p ↦ s.putL1Validator p.2) s =
      { s with
        l1Validators := (l.foldl (fun (map : L1Map) p ↦ map.put p.2)
          ⟨s.l1Validators, s.l1Validators_keyed⟩).1
        l1Validators_keyed := (l.foldl (fun (map : L1Map) p ↦ map.put p.2)
          ⟨s.l1Validators, s.l1Validators_keyed⟩).2 } :=
  TreeMap.foldl_part (fun s ↦ (⟨s.l1Validators, s.l1Validators_keyed⟩ : L1Map))
    (fun s m ↦ { s with l1Validators := m.1, l1Validators_keyed := m.2 })
    (fun map p ↦ L1Map.put map p.2) l s

theorem foldl_addSubnet (l : List Id) (s : State) :
    l.foldl addSubnet s = { s with subnetIds := l.foldl pushNew s.subnetIds } :=
  TreeMap.foldl_part subnetIds (fun s m ↦ { s with subnetIds := m }) pushNew l s

theorem foldl_setSubnetOwner (l : List (Id × Bytes)) (s : State) :
    l.foldl (fun s p ↦ s.setSubnetOwner p.1 p.2) s
      = { s with subnetOwners := l.foldl TreeMap.put s.subnetOwners } :=
  TreeMap.foldl_part subnetOwners (fun s m ↦ { s with subnetOwners := m }) TreeMap.put l s

theorem foldl_setSubnetManager (l : List (Id × Bytes)) (s : State) :
    l.foldl (fun s p ↦ s.setSubnetManager p.1 p.2) s
      = { s with subnetManagers := l.foldl TreeMap.put s.subnetManagers } :=
  TreeMap.foldl_part subnetManagers (fun s m ↦ { s with subnetManagers := m }) TreeMap.put l s

theorem foldl_addChain (l : List (Id × List Id)) (s : State) :
    l.foldl (fun s p ↦ p.2.foldl (fun s c ↦ s.addChain p.1 c) s) s =
      { s with
        chainIndex :=
          l.foldl (fun m p ↦ p.2.foldl (fun m c ↦ addChainTo m p.1 c) m) s.chainIndex } :=
  TreeMap.foldl_foldl_part chainIndex (fun s m ↦ { s with chainIndex := m }) addChainTo l s

theorem foldl_addRewardUtxo (l : List (Id × List Bytes)) (s : State) :
    l.foldl (fun s p ↦ p.2.foldl (fun s utxo ↦ s.addRewardUtxo p.1 utxo) s) s =
      let t := l.foldl (fun (t : RewardTables) p ↦ p.2.foldl (fun t utxo ↦ t.add p.1 utxo) t)
        (s.rewardUtxoIndex, s.rewardUtxos)
      { s with rewardUtxoIndex := t.1, rewardUtxos := t.2 } :=
  TreeMap.foldl_foldl_part (fun s ↦ (s.rewardUtxoIndex, s.rewardUtxos))
    (fun s t ↦ { s with rewardUtxoIndex := t.1, rewardUtxos := t.2 }) RewardTables.add l s

theorem foldl_addTx (l : List (Id × Bytes)) (s : State) :
    l.foldl (fun s p ↦ s.addTx p.1 p.2) s
      = { s with txs := l.foldl TreeMap.put s.txs } :=
  TreeMap.foldl_part txs (fun s m ↦ { s with txs := m }) TreeMap.put l s

/-- The loop over the current operations, which may put current stakers only. -/
theorem foldlM_applyCurrentOp {ops : List StakerOp}
    (hops : ∀ x, .putValidator x ∈ ops → x.priority.isCurrent = true) (s : State) :
    ops.foldlM applyCurrentOp s = .ok
      { s with
        stakingInfo := ops.foldl stakingOp s.stakingInfo
        current := ops.foldl Stakers.applyOp s.current } := by
  induction ops generalizing s with
  | nil => rfl
  | cons op ops ih =>
    have hop : s.applyCurrentOp op = .ok
        { s with stakingInfo := stakingOp s.stakingInfo op, current := s.current.applyOp op } := by
      rcases op with x | x | x | x
      · have hx := hops x List.mem_cons_self
        simp [applyCurrentOp, putCurrentValidator, hx, stakingOp, Stakers.applyOp]
      · rfl
      · rfl
      · rfl
    rw [List.foldlM_cons, hop]
    exact ih (fun x hx ↦ hops x (List.mem_cons_of_mem op hx)) _

theorem foldlM_applyPendingOp {ops : List StakerOp}
    (hops : ∀ x, .putValidator x ∈ ops → x.priority.isPending = true) (s : State) :
    ops.foldlM applyPendingOp s = .ok
      { s with pending := ops.foldl Stakers.applyOp s.pending } := by
  induction ops generalizing s with
  | nil => rfl
  | cons op ops ih =>
    have hop : s.applyPendingOp op = .ok { s with pending := s.pending.applyOp op } := by
      rcases op with x | x | x | x
      · have hx := hops x List.mem_cons_self
        simp [applyPendingOp, putPendingValidator, hx, Stakers.applyOp]
      · rfl
      · rfl
      · rfl
    rw [List.foldlM_cons, hop]
    exact ih (fun x hx ↦ hops x (List.mem_cons_of_mem op hx)) _

/-- The loop over the staking infos, all of current validators. -/
theorem foldlM_setStakingInfo {l : List (ValidatorKey × StakingInfo)} {s : State}
    (hl : ∀ p ∈ l, ∃ x, s.getCurrentValidator p.1.1 p.1.2 = .ok x) :
    l.foldlM (fun s p ↦ s.setStakingInfo p.1.1 p.1.2 p.2) s = .ok
      { s with stakingInfo := l.foldl TreeMap.put s.stakingInfo } := by
  induction l generalizing s with
  | nil => rfl
  | cons p l ih =>
    obtain ⟨x, hx⟩ := hl p List.mem_cons_self
    have hstep : s.setStakingInfo p.1.1 p.1.2 p.2
        = .ok { s with stakingInfo := s.stakingInfo.insert p.1 p.2 } := by
      rw [setStakingInfo, hx]
      rfl
    rw [List.foldlM_cons, hstep]
    exact ih fun q hq ↦ hl q (List.mem_cons_of_mem p hq)

end State

namespace Diff

variable {d : Diff} {s : State}

theorem applyScalars_eq (d : Diff) (s : State) : d.applyScalars s =
    { s with
      timestamp := d.timestamp.getD s.timestamp
      feeState := d.feeState.getD s.feeState
      l1ValidatorExcess := d.l1ValidatorExcess.getD s.l1ValidatorExcess
      accruedFees := d.accruedFees.getD s.accruedFees
      supply := d.supply.toList.foldl TreeMap.put s.supply
      utxos := d.utxos.toList.foldl applyUtxoOp s.utxos } := by
  rw [applyScalars, State.foldl_applyUtxoOp, State.foldl_setCurrentSupply]
  rcases d.timestamp with - | t <;> rcases d.feeState with - | f <;>
    rcases d.l1ValidatorExcess with - | e <;> rcases d.accruedFees with - | a <;> rfl

theorem applyTables_eq (d : Diff) (s : State) : d.applyTables s =
    { s with
      l1Validators := (d.l1Map s).1
      subnetIds := d.addedSubnets.foldl pushNew s.subnetIds
      subnetOwners := d.subnetOwners.toList.foldl TreeMap.put s.subnetOwners
      subnetManagers := d.subnetManagers.toList.foldl TreeMap.put s.subnetManagers
      chainIndex := d.addedChains.toList.foldl
        (fun m p ↦ p.2.foldl (fun m c ↦ addChainTo m p.1 c) m) s.chainIndex
      rewardUtxoIndex := (d.rewardTables s).1
      rewardUtxos := (d.rewardTables s).2
      txs := d.txs.toList.foldl TreeMap.put s.txs
      l1Validators_keyed := (d.l1Map s).2 } := by
  rw [applyTables, State.foldl_putL1Validator, State.foldl_addSubnet, State.foldl_setSubnetOwner,
    State.foldl_setSubnetManager, State.foldl_addChain, State.foldl_addRewardUtxo,
    State.foldl_addTx]
  rfl

/-- `apply` succeeds if the validators of its staking infos are current after its operations. -/
theorem apply_eq (hcurrent : ∀ x, .putValidator x ∈ d.currentOps → x.priority.isCurrent = true)
    (hpending : ∀ x, .putValidator x ∈ d.pendingOps → x.priority.isPending = true)
    (hinfo : ∀ (key : ValidatorKey) info, d.stakingInfo[key]? = some info →
      ((d.applied s).current.validators[key]?).isSome = true) :
    d.apply s = .ok (d.applied s) := by
  have hvalidator : ∀ p ∈ d.stakingInfo.toList, ∃ x,
      ((d.applied s).current.validators[p.1]?) = some x := fun p hp ↦
    Option.isSome_iff_exists.mp
      (hinfo p.1 p.2 (ExtTreeMap.mem_toList_iff_getElem?_eq_some.mp hp))
  rw [apply, applyScalars_eq]
  refine Except.map_eq_ok_iff.mpr ⟨_, Except.bind_eq_ok_iff.mpr
    ⟨_, State.foldlM_applyCurrentOp hcurrent _, Except.bind_eq_ok_iff.mpr
      ⟨_, State.foldlM_applyPendingOp hpending _, State.foldlM_setStakingInfo fun p hp ↦ ?_⟩⟩, ?_⟩
  · obtain ⟨x, hx⟩ := hvalidator p hp
    exact ⟨x, congrArg State.found hx⟩
  · rw [applyTables_eq]
    rfl

end Diff

end Avalanche.Platform
