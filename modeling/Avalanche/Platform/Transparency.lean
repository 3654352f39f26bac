import Avalanche.Platform.Replay

/-!
# Reading through diffs

A read on a stack of diffs is compared with the read on the state to which the stack has been
applied. Most agree whatever was written (`Chain.Agrees`). Three do not: the staker lists are those
of the state at the bottom, the weight of a subnet counts an L1 validator again at each diff that
replaces it, and rewards that are on disk only are forgotten by a state as soon as one is added.
Each has its own condition.
-/

open Std

namespace Avalanche.Platform

/-! ### What a diff records -/

/-- The records of a diff over `parent` agree with each other. -/
structure Diff.Wf (parent : Chain) (d : Diff) : Prop where
  current_ok : ∀ x, .putValidator x ∈ d.currentOps → x.priority.isCurrent = true
  pending_ok : ∀ x, .putValidator x ∈ d.pendingOps → x.priority.isPending = true
  /-- The table of validators is that of the recorded operations. -/
  validators_eq : ∀ (x : Stakers) (key : ValidatorKey),
    (d.currentOps.foldl Stakers.applyOp x).validators[key]?
      = (d.currentValidators[key]?).getD x.validators[key]?
  infos_eq : ∀ (infos : ExtTreeMap ValidatorKey StakingInfo) (key : ValidatorKey),
    d.currentValidators[key]? = none → (d.currentOps.foldl stakingOp infos)[key]? = infos[key]?
  /-- A validator of the diff has a staking info in it. -/
  seeded : ∀ (key : ValidatorKey) (x : Staker), d.currentValidators[key]? = some (some x) →
    (d.stakingInfo[key]?).isSome = true
  /-- A staking info of the diff is that of a validator. -/
  visible : ∀ (subnet : Id) (node : NodeId),
    (d.stakingInfo[(toLex (subnet, node) : ValidatorKey)]?).isSome = true →
      ∃ x, (Chain.diff parent d).getCurrentValidator subnet node = .ok x

namespace Diff

variable {parent : Chain} {d d' : Diff}

theorem wf_new (parent : Chain) : Diff.new.Wf parent where
  current_ok _ h := by simp [new] at h
  pending_ok _ h := by simp [new] at h
  validators_eq x key := by simp [new]
  infos_eq infos key _ := rfl
  seeded key x h := by simp [new] at h
  visible subnet node h := by simp [new] at h

/-- Only the staker records matter. -/
theorem Wf.congr (h : d.Wf parent) (hcurrent : d'.currentOps = d.currentOps)
    (hpending : d'.pendingOps = d.pendingOps)
    (hvalidators : d'.currentValidators = d.currentValidators)
    (hinfo : d'.stakingInfo = d.stakingInfo) : d'.Wf parent where
  current_ok := hcurrent ▸ h.current_ok
  pending_ok := hpending ▸ h.pending_ok
  validators_eq := hcurrent ▸ hvalidators ▸ h.validators_eq
  infos_eq := hcurrent ▸ hvalidators ▸ h.infos_eq
  seeded := hvalidators ▸ hinfo ▸ h.seeded
  visible subnet node hsome := by
    rw [hinfo] at hsome
    obtain ⟨x, hx⟩ := h.visible subnet node hsome
    exact ⟨x, by rwa [Chain.getCurrentValidator, hvalidators]⟩

/-- An operation on the validator under `key`, of which the diff records `r`. -/
theorem Wf.validatorOp (h : d.Wf parent) {key : ValidatorKey} {r : Option Staker} {op : StakerOp}
    {infos : ExtTreeMap ValidatorKey StakingInfo}
    (hput : ∀ x, op = .putValidator x → x.priority.isCurrent = true)
    (hvalidators : ∀ (x : Stakers) (k : ValidatorKey),
      (x.applyOp op).validators[k]? = if key = k then r else x.validators[k]?)
    (hop : ∀ m (k : ValidatorKey), key ≠ k → (stakingOp m op)[k]? = m[k]?)
    (hinfos : ∀ k : ValidatorKey, key ≠ k → infos[k]? = d.stakingInfo[k]?)
    (hself : (infos[key]?).isSome = r.isSome) :
    Wf parent
      { d with
        stakingInfo := infos
        currentValidators := d.currentValidators.insert key r
        currentOps := d.currentOps ++ [op] } := by
  refine ⟨fun y hy ↦ ?_, h.pending_ok, fun stakers k ↦ ?_, fun m k hk ↦ ?_, fun k y hy ↦ ?_,
    fun subnet node hsome ↦ ?_⟩
  · rcases List.mem_append.mp hy with hy | hy
    · exact h.current_ok y hy
    · exact hput y (List.mem_singleton.mp hy).symm
  · simp only [List.foldl_append, List.foldl_cons, List.foldl_nil, hvalidators,
      TreeMap.getElem?_insert_eq]
    split_ifs
    · rfl
    · exact h.validators_eq stakers k
  · simp only [TreeMap.getElem?_insert_eq] at hk
    split_ifs at hk with hne
    rw [List.foldl_append, List.foldl_cons, List.foldl_nil, hop _ _ hne]
    exact h.infos_eq m k hk
  · simp only [TreeMap.getElem?_insert_eq] at hy
    split_ifs at hy with heq
    · rw [← heq, hself, Option.some.inj hy, Option.isSome_some]
    · rw [hinfos k heq]
      exact h.seeded k y hy
  · simp only [Chain.getCurrentValidator, TreeMap.getElem?_insert_eq]
    by_cases heq : key = toLex (subnet, node)
    · rw [← heq, hself] at hsome
      obtain ⟨x, rfl⟩ := Option.isSome_iff_exists.mp hsome
      rw [if_pos heq]
      exact ⟨x, rfl⟩
    · rw [hinfos _ heq] at hsome
      rw [if_neg heq]
      exact h.visible subnet node hsome

/-- Putting a validator. -/
theorem Wf.putCurrentValidator (h : d.Wf parent) {x : Staker} (hx : x.priority.isCurrent = true) :
    Wf parent
      { d with
        stakingInfo := d.stakingInfo.insertIfNew x.key default
        currentValidators := d.currentValidators.insert x.key (some x)
        currentOps := d.currentOps ++ [.putValidator x] } := by
  refine h.validatorOp (fun y hy ↦ ?_) (fun stakers k ↦ ?_)
    (fun m _ hne ↦ TreeMap.getElem?_insertIfNew_of_ne hne m _)
    (fun _ hne ↦ TreeMap.getElem?_insertIfNew_of_ne hne _ _)
    (TreeMap.isSome_getElem?_insertIfNew_self _ _ _)
  · cases hy
    exact hx
  · rw [Stakers.applyOp, Stakers.validators_putValidator, TreeMap.getElem?_insert_eq]

/-- Deleting a validator. -/
theorem Wf.deleteCurrentValidator (h : d.Wf parent) (x : Staker) :
    (d.deleteCurrentValidator x).Wf parent := by
  have herase (m : ExtTreeMap ValidatorKey StakingInfo) (k : ValidatorKey) (hne : x.key ≠ k) :
      (m.erase x.key)[k]? = m[k]? := by rw [TreeMap.getElem?_erase_eq, if_neg hne]
  refine h.validatorOp nofun (fun stakers k ↦ ?_) herase (herase _) (by simp)
  rw [Stakers.applyOp, Stakers.validators_deleteValidator, TreeMap.getElem?_erase_eq]

/-- An operation on delegators. -/
theorem Wf.delegatorOp (h : d.Wf parent) {op : StakerOp} (hput : ∀ x, op ≠ .putValidator x)
    (hvalidators : ∀ x : Stakers, (x.applyOp op).validators = x.validators)
    (hinfos : ∀ infos, stakingOp infos op = infos) :
    Wf parent { d with currentOps := d.currentOps ++ [op] } := by
  refine ⟨fun y hy ↦ ?_, h.pending_ok, fun stakers key ↦ ?_, fun infos key hkey ↦ ?_, h.seeded,
    h.visible⟩
  · rcases List.mem_append.mp hy with hy | hy
    · exact h.current_ok y hy
    · exact absurd (List.mem_singleton.mp hy).symm (hput y)
  · simp only [List.foldl_append, List.foldl_cons, List.foldl_nil, hvalidators]
    exact h.validators_eq stakers key
  · simp only [List.foldl_append, List.foldl_cons, List.foldl_nil, hinfos]
    exact h.infos_eq infos key hkey

/-- An operation on the pending stakers. -/
theorem Wf.pendingOp (h : d.Wf parent) {op : StakerOp}
    (hput : ∀ x, op = .putValidator x → x.priority.isPending = true) :
    Wf parent { d with pendingOps := d.pendingOps ++ [op] } := by
  refine ⟨h.current_ok, fun y hy ↦ ?_, h.validators_eq, h.infos_eq, h.seeded, h.visible⟩
  rcases List.mem_append.mp hy with hy | hy
  · exact h.pending_ok y hy
  · exact hput y (List.mem_singleton.mp hy).symm

/-- Setting the staking info of a validator. -/
theorem Wf.setStakingInfo (h : d.Wf parent) {subnet : Id} {node : NodeId} {x : Staker}
    (hx : (Chain.diff parent d).getCurrentValidator subnet node = .ok x) (info : StakingInfo) :
    (d.setStakingInfo subnet node info).Wf parent := by
  refine ⟨h.current_ok, h.pending_ok, h.validators_eq, h.infos_eq, fun key y hy ↦ ?_,
    fun subnet' node' hsome ↦ ?_⟩
  · simp only [Diff.setStakingInfo, TreeMap.getElem?_insert_eq]
    split
    next => rfl
    next => exact h.seeded key y hy
  · simp only [Diff.setStakingInfo, TreeMap.getElem?_insert_eq] at hsome
    split at hsome
    next heq =>
      obtain ⟨rfl, rfl⟩ := Prod.ext_iff.mp (toLex.injective heq)
      exact ⟨x, hx⟩
    next => exact h.visible subnet' node' hsome

end Diff

/-! ### Reads that agree -/

namespace Chain

/-- Every diff of the stack is consistent. -/
def Wf : Chain → Prop
  | state _ => True
  | diff parent d => parent.Wf ∧ d.Wf parent

/-- The state that `flatten` comes to. -/
def flat : Chain → State
  | state s => s
  | diff parent d => d.applied parent.flat

/-- The reads of a chain that do not depend on what its diffs hold. -/
structure Agrees (c : Chain) (s : State) : Prop where
  timestamp : c.timestamp = s.timestamp
  feeState : c.feeState = s.feeState
  l1ValidatorExcess : c.l1ValidatorExcess = s.l1ValidatorExcess
  accruedFees : c.accruedFees = s.accruedFees
  currentSupply : ∀ subnet, c.currentSupply subnet = s.currentSupply subnet
  getUtxo : ∀ id, c.getUtxo id = s.getUtxo id
  getCurrentValidator : ∀ subnet node,
    c.getCurrentValidator subnet node = s.getCurrentValidator subnet node
  getStakingInfo : ∀ subnet node, c.getStakingInfo subnet node = s.getStakingInfo subnet node
  getL1Validator : ∀ id, c.getL1Validator id = s.getL1Validator id
  activeL1Validators : c.activeL1Validators = s.activeL1Validators
  subnets : c.subnets = s.subnets
  getSubnetOwner : ∀ subnet, c.getSubnetOwner subnet = s.getSubnetOwner subnet
  getSubnetManager : ∀ subnet, c.getSubnetManager subnet = s.getSubnetManager subnet
  chains : ∀ subnet, c.chains subnet = s.chains subnet
  getTx : ∀ txId, c.getTx txId = s.getTx txId

theorem agrees_state (s : State) : (state s).Agrees s :=
  ⟨rfl, rfl, rfl, rfl, fun _ ↦ rfl, fun _ ↦ rfl, fun _ _ ↦ rfl, fun _ _ ↦ rfl, fun _ ↦ rfl, rfl,
    rfl, fun _ ↦ rfl, fun _ ↦ rfl, fun _ ↦ rfl, fun _ ↦ rfl⟩

end Chain

namespace Diff

variable {parent : Chain} {d : Diff} {s : State}

theorem getUtxo_applied (hs : parent.Agrees s) (id : Id) :
    (Chain.diff parent d).getUtxo id = (d.applied s).getUtxo id := by
  have hutxo : (d.utxos.toList.foldl applyUtxoOp s.utxos)[id]?
      = (d.utxos[id]?).elim s.utxos[id]? UtxoOp.result :=
    TreeMap.foldl_toList (fun (m : ExtTreeMap Id Bytes) (k : Id) ↦ m[k]?) (fun op _ ↦ op.result)
      getElem?_applyUtxoOp d.utxos s.utxos id
  rw [State.getUtxo, applied, Chain.getUtxo, hutxo, hs.getUtxo]
  rcases d.utxos[id]? with - | utxo | - <;> rfl

theorem getCurrentValidator_applied (h : d.Wf parent) (hs : parent.Agrees s) (subnet : Id)
    (node : NodeId) : (Chain.diff parent d).getCurrentValidator subnet node
      = (d.applied s).getCurrentValidator subnet node := by
  have hvalidator := h.validators_eq s.current (toLex (subnet, node))
  rw [State.getCurrentValidator, Stakers.getValidator, applied, hvalidator,
    Chain.getCurrentValidator, hs.getCurrentValidator]
  rcases d.currentValidators[(toLex (subnet, node) : ValidatorKey)]? with - | - | x <;> rfl

theorem getStakingInfo_applied (h : d.Wf parent) (hs : parent.Agrees s) (subnet : Id)
    (node : NodeId) : (Chain.diff parent d).getStakingInfo subnet node
      = (d.applied s).getStakingInfo subnet node := by
  have hvalidator := getCurrentValidator_applied h hs subnet node
  have hinfo : (d.applied s).stakingInfo[(toLex (subnet, node) : ValidatorKey)]?
      = (d.stakingInfo[(toLex (subnet, node) : ValidatorKey)]?).or
        (d.currentOps.foldl stakingOp s.stakingInfo)[(toLex (subnet, node) : ValidatorKey)]? :=
    TreeMap.getElem?_foldl_put _ _ _
  rw [State.getStakingInfo, hinfo, ← hvalidator, Chain.getStakingInfo]
  rcases hown : d.stakingInfo[(toLex (subnet, node) : ValidatorKey)]? with - | info
  · -- without an info of its own the diff has not touched the validator
    rcases hread : (Chain.diff parent d).getCurrentValidator subnet node with e | x
    · rfl
    · have huntouched : d.currentValidators[(toLex (subnet, node) : ValidatorKey)]? = none := by
        rcases hrecord : d.currentValidators[(toLex (subnet, node) : ValidatorKey)]? with - | - | y
        · rfl
        · rw [Chain.getCurrentValidator, hrecord] at hread
          exact absurd hread (by simp)
        · have := h.seeded _ y hrecord
          rw [hown] at this
          exact absurd this (by simp)
      rw [h.infos_eq s.stakingInfo _ huntouched]
      rw [Chain.getCurrentValidator, huntouched] at hread
      simp only [hs.getStakingInfo, State.getStakingInfo, ← hs.getCurrentValidator, hread]
      rfl
  · obtain ⟨x, hx⟩ := h.visible subnet node (by rw [hown]; rfl)
    rw [hx]
    rfl

/-- The L1 validators of a diff, laid over those of the state. -/
theorem l1Map_eq (d : Diff) (s : State) :
    (d.l1Map s).1 = d.l1Validators.toList.foldl TreeMap.put s.l1Validators := by
  have hkeyed : ∀ p ∈ d.l1Validators.toList, p.2.validationId = p.1 := fun p hp ↦
    d.l1Validators_keyed p.1 p.2 (ExtTreeMap.mem_toList_iff_getElem?_eq_some.mp hp)
  rw [l1Map]
  generalize d.l1Validators.toList = l at hkeyed
  suffices hfold : ∀ map : L1Map, (l.foldl (fun map p ↦ map.put p.2) map).1
      = l.foldl TreeMap.put map.1 from hfold _
  induction l with
  | nil => exact fun _ ↦ rfl
  | cons p l ih =>
    intro map
    rw [List.foldl_cons, List.foldl_cons, ih fun q hq ↦ hkeyed q (List.mem_cons_of_mem p hq)]
    show List.foldl TreeMap.put (map.1.insert p.2.validationId p.2) l = _
    rw [hkeyed p List.mem_cons_self]
    rfl

theorem getElem?_l1Validators_applied (d : Diff) (s : State) (id : Id) :
    (d.applied s).l1Validators[id]? = (d.l1Validators[id]?).or s.l1Validators[id]? := by
  show (d.l1Map s).1[id]? = _
  rw [l1Map_eq]
  exact TreeMap.getElem?_foldl_put _ _ _

theorem activeL1Validators_applied (hs : parent.Agrees s) :
    (Chain.diff parent d).activeL1Validators = (d.applied s).activeL1Validators := by
  rw [Chain.activeL1Validators, State.activeL1Validators, hs.activeL1Validators]
  set byId := d.l1Validators.toList.foldl Chain.overlayActive
    (s.activeL1Validators.foldl (fun map v ↦ map.insert v.validationId v) ∅) with hbyId
  -- the same map is left if the inactive ones are dropped at the end
  have hfilter : byId = (d.applied s).l1Validators.filter fun _ v ↦ v.isActive := by
    refine ExtTreeMap.ext_getElem? fun id ↦ ?_
    rw [hbyId, Chain.getElem?_byId d _ (fun _ ↦ State.mem_activeL1Validators) s.l1Validators_keyed,
      ExtTreeMap.getElem?_filter', getElem?_l1Validators_applied]
  rw [hfilter, ExtTreeMap.toList_filter, List.filter_map]
  rfl

theorem getD_foldl_addChainTo (cs : List Id) (m : ExtTreeMap Id (List Id)) (subnet k : Id) :
    ((cs.foldl (fun m c ↦ addChainTo m subnet c) m)[k]?).getD []
      = if subnet = k then cs.foldl pushNew (m[k]?.getD []) else m[k]?.getD [] := by
  induction cs generalizing m with
  | nil => simp
  | cons c cs ih =>
    rw [List.foldl_cons, ih, addChainTo, TreeMap.getElem?_insert_eq]
    by_cases hk : subnet = k
    · rw [if_pos hk, if_pos hk, if_pos hk, hk]
      rfl
    · rw [if_neg hk, if_neg hk, if_neg hk]

theorem chains_applied (hs : parent.Agrees s) (subnet : Id) :
    (Chain.diff parent d).chains subnet = (d.applied s).chains subnet := by
  have hchains : ((d.addedChains.toList.foldl
        (fun m p ↦ p.2.foldl (fun m c ↦ addChainTo m p.1 c) m) s.chainIndex)[subnet]?).getD []
      = (d.addedChains[subnet]?).elim (s.chains subnet)
        (fun cs ↦ cs.foldl pushNew (s.chains subnet)) :=
    TreeMap.foldl_toList (fun (m : ExtTreeMap Id (List Id)) (k : Id) ↦ m[k]?.getD [])
      (fun cs list ↦ cs.foldl pushNew list) (fun m p ↦ getD_foldl_addChainTo p.2 m p.1)
      d.addedChains s.chainIndex subnet
  rw [State.chains, applied, hchains, Chain.chains, hs.chains]
  rcases d.addedChains[subnet]? with - | cs <;> rfl

/-- One diff over a parent that agrees with a state. -/
theorem Wf.agrees (h : d.Wf parent) (hs : parent.Agrees s) :
    (Chain.diff parent d).Agrees (d.applied s) where
  timestamp := by rw [Chain.timestamp, hs.timestamp, applied]
  feeState := by rw [Chain.feeState, hs.feeState, applied]
  l1ValidatorExcess := by rw [Chain.l1ValidatorExcess, hs.l1ValidatorExcess, applied]
  accruedFees := by rw [Chain.accruedFees, hs.accruedFees, applied]
  currentSupply subnet := by
    rw [State.currentSupply, applied, TreeMap.getElem?_foldl_put, Chain.currentSupply,
      hs.currentSupply]
    rcases d.supply[subnet]? with - | v <;> rfl
  getUtxo := getUtxo_applied hs
  getCurrentValidator := getCurrentValidator_applied h hs
  getStakingInfo := getStakingInfo_applied h hs
  getL1Validator id := by
    rw [State.getL1Validator, getElem?_l1Validators_applied, Chain.getL1Validator,
      hs.getL1Validator]
    rcases d.l1Validators[id]? with - | v <;> rfl
  activeL1Validators := activeL1Validators_applied hs
  subnets := by
    rw [Chain.subnets, hs.subnets]
    rfl
  getSubnetOwner subnet := by
    rw [State.getSubnetOwner, applied, TreeMap.getElem?_foldl_put, Chain.getSubnetOwner,
      hs.getSubnetOwner]
    rcases d.subnetOwners[subnet]? with - | owner <;> rfl
  getSubnetManager subnet := by
    rw [State.getSubnetManager, applied, TreeMap.getElem?_foldl_put, Chain.getSubnetManager,
      hs.getSubnetManager]
    rcases d.subnetManagers[subnet]? with - | manager <;> rfl
  chains := chains_applied hs
  getTx txId := by
    rw [State.getTx, applied, TreeMap.getElem?_foldl_put, Chain.getTx, hs.getTx]
    rcases d.txs[txId]? with - | bytes <;> rfl

theorem Wf.apply_eq (h : d.Wf parent) (hs : parent.Agrees s) : d.apply s = .ok (d.applied s) := by
  refine Diff.apply_eq h.current_ok h.pending_ok fun key info hinfo ↦ ?_
  obtain ⟨x, hx⟩ := h.visible key.1 key.2
    (by rw [show toLex (key.1, key.2) = key from rfl, hinfo]; rfl)
  rw [getCurrentValidator_applied h hs, State.getCurrentValidator, Stakers.getValidator] at hx
  change State.found ((d.applied s).current.validators[key]?) = .ok x at hx
  rw [orError_eq_ok_iff.mp hx, Option.isSome_some]

end Diff

namespace Chain

variable {c : Chain}

/-- A consistent stack can be applied, and its reads agree with the outcome. -/
theorem Wf.flatten (h : c.Wf) : c.flatten = .ok c.flat ∧ c.Agrees c.flat := by
  induction c with
  | state s => exact ⟨rfl, agrees_state s⟩
  | diff parent d ih =>
    obtain ⟨hflatten, hagrees⟩ := ih h.1
    exact ⟨Except.bind_eq_ok_iff.mpr ⟨parent.flat, hflatten, h.2.apply_eq hagrees⟩,
      h.2.agrees hagrees⟩

/-- A property of every diff of the stack and what it lies over. -/
def Forall (P : Chain → Diff → Prop) : Chain → Prop
  | state _ => True
  | diff parent d => parent.Forall P ∧ P parent d

theorem currentStakers_flat (h : c.Forall fun _ d ↦ d.currentOps = []) :
    c.currentStakers = c.flat.currentStakers := by
  induction c with
  | state s => rfl
  | diff parent d ih =>
    have hflat : (d.applied parent.flat).current = parent.flat.current := by
      rw [Diff.applied, h.2]; rfl
    rw [currentStakers, ih h.1, flat, State.currentStakers, State.currentStakers, hflat]

theorem pendingStakers_flat (h : c.Forall fun _ d ↦ d.pendingOps = []) :
    c.pendingStakers = c.flat.pendingStakers := by
  induction c with
  | state s => rfl
  | diff parent d ih =>
    have hflat : (d.applied parent.flat).pending = parent.flat.pending := by
      rw [Diff.applied, h.2]; rfl
    rw [pendingStakers, ih h.1, flat, State.pendingStakers, State.pendingStakers, hflat]

end Chain

/-! ### Weights -/

theorem addWeights_eq {total : ℕ} (h : total ≤ u64Max) (ws : List ℕ) :
    addWeights total ws
      = if total + ws.sum ≤ u64Max then .ok (total + ws.sum) else .error .overflow := by
  induction ws generalizing total with
  | nil =>
    rw [List.sum_nil, Nat.add_zero, if_pos h]
    rfl
  | cons w ws ih =>
    rw [List.sum_cons, ← Nat.add_assoc]
    by_cases hw : total + w ≤ u64Max
    · have hadd : checkedAdd total w = some (total + w) := checkedAdd_eq_some_iff.mpr ⟨hw, rfl⟩
      have hstep : addWeights total (w :: ws) = addWeights (total + w) ws := by
        rw [addWeights, List.foldlM_cons, hadd]
        rfl
      rw [hstep, ih hw]
    · have hadd : checkedAdd total w = none := by
        rw [checkedAdd, if_neg hw]
      rw [if_neg (by omega), addWeights, List.foldlM_cons, hadd]
      rfl

/-- The weight of a validator in a subnet. -/
def L1Validator.weightIn (subnet : Id) (v : L1Validator) : ℕ :=
  if v.subnetId = subnet then v.weight.toNat else 0

theorem L1Validator.sum_weights (map : ExtTreeMap Id L1Validator) (subnet : Id) :
    (L1Validator.weights map subnet).sum = TreeMap.sumOn (L1Validator.weightIn subnet) map := by
  rw [weights, TreeMap.sumOn]
  induction map.toList with
  | nil => rfl
  | cons p l ih =>
    rw [List.map_cons, List.sum_cons, ← ih, L1Validator.weightIn]
    by_cases hp : p.2.subnetId = subnet
    · simp [hp]
    · simp [hp]

theorem State.weightOfL1Validators_eq (s : State) (subnet : Id) :
    s.weightOfL1Validators subnet =
      if TreeMap.sumOn (L1Validator.weightIn subnet) s.l1Validators ≤ u64Max then
        .ok (TreeMap.sumOn (L1Validator.weightIn subnet) s.l1Validators)
      else .error .overflow := by
  rw [weightOfL1Validators, addWeights_eq (Nat.zero_le _), L1Validator.sum_weights, Nat.zero_add]

namespace Chain

variable {c : Chain}

/-- The validators of the diff replace none that has a weight. -/
def HidesNoWeight (parent : Chain) (d : Diff) : Prop :=
  ∀ id v, d.l1Validators[id]? = some v → ∀ old, parent.getL1Validator id = .ok old → old.weight = 0

theorem weightOfL1Validators_flat (hwf : c.Wf) (h : c.Forall HidesNoWeight) (subnet : Id) :
    c.weightOfL1Validators subnet = c.flat.weightOfL1Validators subnet := by
  induction c with
  | state s => rfl
  | diff parent d ih =>
    obtain ⟨-, hagrees⟩ := hwf.1.flatten
    have hshare : ∀ p ∈ d.l1Validators.toList,
        TreeMap.share (L1Validator.weightIn subnet) parent.flat.l1Validators p.1 = 0 := by
      intro p hp
      have hp' := ExtTreeMap.mem_toList_iff_getElem?_eq_some.mp hp
      rw [TreeMap.share]
      rcases hold : parent.flat.l1Validators[p.1]? with - | old
      · rfl
      · have hread : parent.getL1Validator p.1 = .ok old := by
          rw [hagrees.getL1Validator, State.getL1Validator, hold]
          rfl
        have hzero := h.2 p.1 p.2 hp' old hread
        rw [Option.elim_some, L1Validator.weightIn, hzero, UInt64.toNat_zero, ite_self]
    have hsum : TreeMap.sumOn (L1Validator.weightIn subnet) (d.applied parent.flat).l1Validators
        = TreeMap.sumOn (L1Validator.weightIn subnet) parent.flat.l1Validators
          + TreeMap.sumOn (L1Validator.weightIn subnet) d.l1Validators := by
      show TreeMap.sumOn _ (d.l1Map parent.flat).1 = _
      rw [Diff.l1Map_eq]
      exact TreeMap.sumOn_foldl_put _ (TreeMap.pairwise_fst_toList _) hshare
    rw [weightOfL1Validators, ih hwf.1 h.1, flat, State.weightOfL1Validators_eq,
      State.weightOfL1Validators_eq, hsum]
    set below := TreeMap.sumOn (L1Validator.weightIn subnet) parent.flat.l1Validators
    by_cases hbelow : below ≤ u64Max
    · rw [if_pos hbelow]
      show addWeights below _ = _
      rw [addWeights_eq hbelow, L1Validator.sum_weights]
    · rw [if_neg hbelow, if_neg (by omega)]
      rfl

end Chain

/-! ### Reward UTXOs -/

/-- What there is of the rewards of a tx: a list in memory, or a space on disk. -/
def RewardTables.view (t : RewardTables) (txId : Id) : List Bytes ⊕ Option (ExtTreeMap ℕ Bytes) :=
  (t.1[txId]?).elim (.inr t.2[txId]?) .inl

/-- The list in memory that an addition goes on with. -/
def inMemory : List Bytes ⊕ Option (ExtTreeMap ℕ Bytes) → List Bytes
  | .inl list => list
  | .inr _ => []

/-- The rewards after some more. -/
def addedRewards (us : List Bytes) (v : List Bytes ⊕ Option (ExtTreeMap ℕ Bytes)) :
    List Bytes ⊕ Option (ExtTreeMap ℕ Bytes) :=
  if us = [] then v else .inl (inMemory v ++ us)

theorem addedRewards_cons (u : Bytes) (us : List Bytes)
    (v : List Bytes ⊕ Option (ExtTreeMap ℕ Bytes)) :
    addedRewards us (.inl (inMemory v ++ [u])) = addedRewards (u :: us) v := by
  rw [addedRewards, addedRewards, if_neg (List.cons_ne_nil u us)]
  by_cases hus : us = []
  · rw [if_pos hus, hus]
  · rw [if_neg hus, inMemory, List.append_assoc, List.singleton_append]

theorem RewardTables.view_foldl_add (us : List Bytes) (t : RewardTables) (txId k : Id) :
    RewardTables.view (us.foldl (fun t utxo ↦ RewardTables.add t txId utxo) t) k
      = if txId = k then addedRewards us (RewardTables.view t k) else RewardTables.view t k := by
  induction us generalizing t with
  | nil => rw [addedRewards, if_pos rfl, ite_self, List.foldl_nil]
  | cons u us ih =>
    have hadd : RewardTables.view (RewardTables.add t txId u) k = if txId = k then
        .inl (inMemory (RewardTables.view t k) ++ [u]) else RewardTables.view t k := by
      simp only [RewardTables.view, RewardTables.add, TreeMap.getElem?_insert_eq]
      by_cases hk : txId = k
      · subst hk
        rcases t.1[txId]? with - | list <;> simp [inMemory]
      · simp [hk]
    rw [List.foldl_cons, ih, hadd]
    by_cases hk : txId = k
    · rw [if_pos hk, if_pos hk, if_pos hk, addedRewards_cons]
    · rw [if_neg hk, if_neg hk, if_neg hk]

namespace State

/-- The rewards of a tx in a state. -/
def rewardView (s : State) (txId : Id) : List Bytes ⊕ Option (ExtTreeMap ℕ Bytes) :=
  RewardTables.view (s.rewardUtxoIndex, s.rewardUtxos) txId

/-- The reward UTXOs of a tx are in memory, or there are none. -/
def RewardsLoaded (s : State) (txId : Id) : Prop :=
  s.rewardUtxoIndex[txId]? = none → s.readRewardUtxosFromDisk txId = []

theorem getRewardUtxos_eq (s : State) (txId : Id) :
    s.getRewardUtxos txId
      = (s.rewardView txId).elim id fun disk ↦ (disk.getD ∅).toList.map Prod.snd := by
  rw [getRewardUtxos, rewardView, RewardTables.view]
  rcases s.rewardUtxoIndex[txId]? with - | list <;> rfl

/-- Rewards that are loaded are those an addition goes on with. -/
theorem rewardsLoaded_iff (s : State) (txId : Id) :
    s.RewardsLoaded txId ↔ s.getRewardUtxos txId = inMemory (s.rewardView txId) := by
  rw [RewardsLoaded, getRewardUtxos, rewardView, RewardTables.view]
  rcases s.rewardUtxoIndex[txId]? with - | list
  · simp [inMemory]
  · simp [inMemory]

end State

theorem Diff.rewardView_applied (d : Diff) (s : State) (txId : Id) :
    (d.applied s).rewardView txId
      = addedRewards (d.rewardUtxos[txId]?.getD []) (s.rewardView txId) := by
  have hview : RewardTables.view (d.rewardTables s) txId
      = (d.rewardUtxos[txId]?).elim (s.rewardView txId)
        (fun us ↦ addedRewards us (s.rewardView txId)) :=
    TreeMap.foldl_toList RewardTables.view addedRewards
      (fun t p ↦ RewardTables.view_foldl_add p.2 t p.1) d.rewardUtxos _ txId
  show RewardTables.view (d.rewardTables s) txId = _
  rw [hview]
  rcases d.rewardUtxos[txId]? with - | us <;> rfl

namespace Chain

variable {c : Chain}

/-- The rewards of a tx that gets some in a diff are loaded in the state at the bottom. -/
def RewardsLoaded (c : Chain) (txId : Id) : Prop :=
  c.base.RewardsLoaded txId ∨ c.Forall fun _ d ↦ d.rewardUtxos[txId]? = none

theorem getRewardUtxos_flat {txId : Id} (h : c.RewardsLoaded txId) :
    c.getRewardUtxos txId = c.flat.getRewardUtxos txId := by
  rcases h with hloaded | hnone
  · -- they stay loaded
    suffices hboth : c.getRewardUtxos txId = c.flat.getRewardUtxos txId ∧
        c.flat.RewardsLoaded txId from hboth.1
    induction c with
    | state s => exact ⟨rfl, hloaded⟩
    | diff parent d ih =>
      obtain ⟨hread, hparent⟩ := ih hloaded
      rw [State.rewardsLoaded_iff] at hparent ⊢
      rw [getRewardUtxos, hread, flat, State.getRewardUtxos_eq (d.applied parent.flat),
        Diff.rewardView_applied, addedRewards]
      by_cases hus : d.rewardUtxos[txId]?.getD [] = []
      · rw [if_pos hus, hus, List.append_nil, ← State.getRewardUtxos_eq]
        exact ⟨rfl, hparent⟩
      · rw [if_neg hus, hparent]
        exact ⟨rfl, rfl⟩
  · induction c with
    | state s => rfl
    | diff parent d ih =>
      rw [getRewardUtxos, ih hnone.1, flat, State.getRewardUtxos_eq, State.getRewardUtxos_eq,
        Diff.rewardView_applied, hnone.2, addedRewards, Option.getD_none, if_pos rfl,
        List.append_nil]

end Chain

end Avalanche.Platform
