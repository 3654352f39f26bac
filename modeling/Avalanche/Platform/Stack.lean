import Avalanche.Platform.Transparency

/-!
# Stacks of diffs

A stack is built from below: a diff is put over it, and written to. Every write keeps the records of
its diff in order, so that a stack can always be applied, and the conditions of the reads are
conditions on the writes made to each diff.
-/

open Std

namespace Avalanche.Platform

namespace Mutation

/-- The write is one to the current stakers. -/
def writesCurrent : Mutation → Bool
  | putCurrentValidator _ | deleteCurrentValidator _ | putCurrentDelegator _
  | deleteCurrentDelegator _ => true
  | _ => false

/-- The write is one to the pending stakers. -/
def writesPending : Mutation → Bool
  | putPendingValidator _ | deletePendingValidator _ | putPendingDelegator _
  | deletePendingDelegator _ => true
  | _ => false

end Mutation

namespace Chain

/-- A call of a write, which changes nothing if it fails. -/
def attempt (c : Chain) (m : Mutation) : Chain :=
  match c.mutate m with
  | .ok c' => c'
  | .error _ => c

/-- A new diff over a chain, and writes to it. -/
def push (c : Chain) (ms : List Mutation) : Chain := ms.foldl attempt (diff c .new)

/-- A stack of diffs over a state, by the writes made to each while it was on top. -/
def build (s : State) (levels : List (List Mutation)) : Chain := levels.foldl push (state s)

end Chain

namespace Diff

variable {parent : Chain} {d : Diff}

/-- What a write records. -/
structure Wrote (parent : Chain) (d : Diff) (m : Mutation) (d' : Diff) : Prop where
  wf : d.Wf parent → d'.Wf parent
  currentOps : m.writesCurrent = false → d'.currentOps = d.currentOps
  pendingOps : m.writesPending = false → d'.pendingOps = d.pendingOps
  l1Validators : ∀ id v, d'.l1Validators[id]? = some v →
    d.l1Validators[id]? = some v ∨ m = .putL1Validator v ∧ v.validationId = id
  rewardUtxos : ∀ txId, (∀ utxo, m ≠ .addRewardUtxo txId utxo) →
    d'.rewardUtxos[txId]? = d.rewardUtxos[txId]?

/-- A write of which nothing but the staker records need be said. -/
theorem Wrote.of_wf {m : Mutation} {d' : Diff} (hwf : d.Wf parent → d'.Wf parent)
    (hcurrent : m.writesCurrent = true ∨ d'.currentOps = d.currentOps)
    (hpending : m.writesPending = true ∨ d'.pendingOps = d.pendingOps)
    (hl1 : d'.l1Validators = d.l1Validators) (hreward : d'.rewardUtxos = d.rewardUtxos) :
    Wrote parent d m d' :=
  ⟨hwf, fun h ↦ hcurrent.resolve_left (by simp [h]), fun h ↦ hpending.resolve_left (by simp [h]),
    fun _ _ h ↦ .inl (hl1 ▸ h), fun _ _ ↦ by rw [hreward]⟩

/-- Nothing is recorded. -/
theorem Wrote.refl (parent : Chain) (d : Diff) (m : Mutation) : Wrote parent d m d :=
  .of_wf id (.inr rfl) (.inr rfl) rfl rfl

/-- A write that does not concern stakers. -/
theorem Wrote.of_eq {m : Mutation} {d' : Diff} (hcurrent : d'.currentOps = d.currentOps)
    (hpending : d'.pendingOps = d.pendingOps)
    (hvalidators : d'.currentValidators = d.currentValidators)
    (hinfo : d'.stakingInfo = d.stakingInfo) (hl1 : d'.l1Validators = d.l1Validators)
    (hreward : d'.rewardUtxos = d.rewardUtxos) : Wrote parent d m d' :=
  .of_wf (fun h ↦ h.congr hcurrent hpending hvalidators hinfo) (.inr hcurrent) (.inr hpending) hl1
    hreward

theorem wrote_putL1Validator (parent : Chain) (d : Diff) (v : L1Validator) :
    Wrote parent d (.putL1Validator v) (d.putL1Validator v) := by
  refine ⟨fun h ↦ h.congr rfl rfl rfl rfl, fun _ ↦ rfl, fun _ ↦ rfl, fun id w hw ↦ ?_,
    fun _ _ ↦ rfl⟩
  simp only [Diff.putL1Validator, TreeMap.getElem?_insert_eq] at hw
  split at hw
  next heq =>
    obtain rfl := Option.some.inj hw
    exact .inr ⟨rfl, heq⟩
  next => exact .inl hw

theorem wrote_addRewardUtxo (parent : Chain) (d : Diff) (txId : Id) (utxo : Bytes) :
    Wrote parent d (.addRewardUtxo txId utxo) (d.addRewardUtxo txId utxo) := by
  refine ⟨fun h ↦ h.congr rfl rfl rfl rfl, fun _ ↦ rfl, fun _ ↦ rfl, fun _ _ h ↦ .inl h,
    fun k hk ↦ ?_⟩
  simp only [Diff.addRewardUtxo, TreeMap.getElem?_insert_eq]
  rw [if_neg]
  rintro rfl
  exact hk utxo rfl

/-- Every write records at most what it is about. -/
theorem exists_attempt (parent : Chain) (d : Diff) (m : Mutation) :
    ∃ d', (Chain.diff parent d).attempt m = .diff parent d' ∧ Wrote parent d m d' := by
  rcases m with t | ⟨subnet, supply⟩ | fee | excess | v | ⟨id, utxo⟩ | id | x | x | x | x |
    ⟨subnet, node, info⟩ | x | x | x | x | v | subnet | ⟨subnet, owner⟩ | ⟨subnet, manager⟩ |
    ⟨subnet, chain⟩ | ⟨txId, utxo⟩ | ⟨txId, bytes⟩
  case putCurrentValidator =>
    by_cases hx : x.priority.isCurrent = true
    · refine ⟨_, ?_, .of_wf (fun h ↦ h.putCurrentValidator hx) (.inl rfl) (.inr rfl) rfl rfl⟩
      simp [Chain.attempt, Chain.mutate, Chain.putCurrentValidator, Chain.updateM,
        Diff.putCurrentValidator, hx, Except.map]
    · refine ⟨d, ?_, .refl parent d _⟩
      simp [Chain.attempt, Chain.mutate, Chain.putCurrentValidator, Chain.updateM,
        Diff.putCurrentValidator, hx, Except.map]
  case deleteCurrentValidator =>
    exact ⟨_, rfl, .of_wf (fun h ↦ h.deleteCurrentValidator x) (.inl rfl) (.inr rfl) rfl rfl⟩
  case putCurrentDelegator | deleteCurrentDelegator =>
    exact ⟨_, rfl, .of_wf (fun h ↦ h.delegatorOp (by simp) (fun _ ↦ rfl) fun _ ↦ rfl)
      (.inl rfl) (.inr rfl) rfl rfl⟩
  case setStakingInfo =>
    rcases hread : (Chain.diff parent d).getCurrentValidator subnet node with e | x
    · refine ⟨d, ?_, .refl parent d _⟩
      simp [Chain.attempt, Chain.mutate, Chain.setStakingInfo, Chain.updateM, hread, Except.map,
        bind, Except.bind]
    · refine ⟨d.setStakingInfo subnet node info, ?_, .of_wf (fun h ↦ h.setStakingInfo hread info)
        (.inr rfl) (.inr rfl) rfl rfl⟩
      simp [Chain.attempt, Chain.mutate, Chain.setStakingInfo, Chain.updateM, hread, Except.map,
        bind, Except.bind]
  case putPendingValidator =>
    by_cases hx : x.priority.isPending = true
    · have hput : ∀ y, StakerOp.putValidator x = .putValidator y → y.priority.isPending = true := by
        rintro y ⟨⟩
        exact hx
      refine ⟨_, ?_, .of_wf (fun h ↦ h.pendingOp hput) (.inr rfl) (.inl rfl) rfl rfl⟩
      simp [Chain.attempt, Chain.mutate, Chain.putPendingValidator, Chain.updateM,
        Diff.putPendingValidator, hx, Except.map]
    · refine ⟨d, ?_, .refl parent d _⟩
      simp [Chain.attempt, Chain.mutate, Chain.putPendingValidator, Chain.updateM,
        Diff.putPendingValidator, hx, Except.map]
  case deletePendingValidator | putPendingDelegator | deletePendingDelegator =>
    exact ⟨_, rfl, .of_wf (fun h ↦ h.pendingOp (by simp)) (.inr rfl) (.inl rfl) rfl rfl⟩
  case putL1Validator => exact ⟨_, rfl, wrote_putL1Validator parent d v⟩
  case addRewardUtxo => exact ⟨_, rfl, wrote_addRewardUtxo parent d txId utxo⟩
  all_goals exact ⟨_, rfl, .of_eq rfl rfl rfl rfl rfl rfl⟩

/-- The records of a new diff after some writes. -/
structure Recorded (parent : Chain) (ms : List Mutation) (d : Diff) : Prop where
  wf : d.Wf parent
  currentOps : (∀ m ∈ ms, m.writesCurrent = false) → d.currentOps = []
  pendingOps : (∀ m ∈ ms, m.writesPending = false) → d.pendingOps = []
  l1Validators : ∀ id v, d.l1Validators[id]? = some v → .putL1Validator v ∈ ms ∧ v.validationId = id
  rewardUtxos : ∀ txId, (∀ utxo, .addRewardUtxo txId utxo ∉ ms) → d.rewardUtxos[txId]? = none

theorem exists_push (parent : Chain) (ms : List Mutation) :
    ∃ d, parent.push ms = .diff parent d ∧ Recorded parent ms d := by
  induction ms using List.reverseRecOn with
  | nil =>
    refine ⟨.new, rfl, wf_new parent, fun _ ↦ rfl, fun _ ↦ rfl, fun id v h ↦ ?_, fun txId _ ↦ ?_⟩
    · simp [Diff.new] at h
    · simp [Diff.new]
  | append_singleton ms m ih =>
    obtain ⟨d, hpush, hd⟩ := ih
    obtain ⟨d', hattempt, hwrote⟩ := exists_attempt parent d m
    refine ⟨d', ?_, hwrote.wf hd.wf, fun hms ↦ ?_, fun hms ↦ ?_, fun id v hv ↦ ?_,
      fun txId hms ↦ ?_⟩
    · rw [← hattempt, ← hpush, Chain.push, Chain.push, List.foldl_append]
      rfl
    · rw [hwrote.currentOps (hms m (by simp))]
      exact hd.currentOps fun m' hm' ↦ hms m' (List.mem_append_left _ hm')
    · rw [hwrote.pendingOps (hms m (by simp))]
      exact hd.pendingOps fun m' hm' ↦ hms m' (List.mem_append_left _ hm')
    · rcases hwrote.l1Validators id v hv with hv | ⟨rfl, hid⟩
      · obtain ⟨hmem, hid⟩ := hd.l1Validators id v hv
        exact ⟨List.mem_append_left _ hmem, hid⟩
      · exact ⟨by simp, hid⟩
    · rw [hwrote.rewardUtxos txId fun utxo hm ↦ hms utxo (by simp [hm])]
      exact hd.rewardUtxos txId fun utxo hmem ↦ hms utxo (List.mem_append_left _ hmem)

end Diff

namespace Chain

/-- The L1 validators put into a level replace none of the levels below that has a weight. -/
def PutsHideNoWeight (s : State) (levels : List (List Mutation)) : Prop :=
  ∀ below ms, below ++ [ms] <+: levels → ∀ v, .putL1Validator v ∈ ms →
    ∀ old, (build s below).getL1Validator v.validationId = .ok old → old.weight = 0

theorem build_concat (s : State) (levels : List (List Mutation)) (ms : List Mutation) :
    build s (levels ++ [ms]) = (build s levels).push ms := by
  rw [build, List.foldl_append]
  rfl

theorem wf_build (s : State) (levels : List (List Mutation)) : (build s levels).Wf := by
  induction levels using List.reverseRecOn with
  | nil => trivial
  | append_singleton levels ms ih =>
    obtain ⟨d, hpush, hd⟩ := Diff.exists_push (build s levels) ms
    rw [build_concat, hpush]
    exact ⟨ih, hd.wf⟩

/-- A property of the records of every level. -/
theorem forall_build {P : Chain → Diff → Prop} (s : State) (levels : List (List Mutation))
    (hP : ∀ below ms d, below ++ [ms] <+: levels → Diff.Recorded (build s below) ms d →
      P (build s below) d) : (build s levels).Forall P := by
  induction levels using List.reverseRecOn with
  | nil => trivial
  | append_singleton levels ms ih =>
    obtain ⟨d, hpush, hd⟩ := Diff.exists_push (build s levels) ms
    rw [build_concat, hpush]
    exact ⟨ih fun below ms' d' hle ↦ hP below ms' d' (hle.trans (List.prefix_append _ _)),
      hP levels ms d (List.prefix_refl _) hd⟩

theorem base_build (s : State) (levels : List (List Mutation)) : (build s levels).base = s := by
  induction levels using List.reverseRecOn with
  | nil => rfl
  | append_singleton levels ms ih =>
    obtain ⟨d, hpush, -⟩ := Diff.exists_push (build s levels) ms
    rw [build_concat, hpush, base, ih]

/-- **Reading through a stack of diffs.** Every stack can be applied. The reads of `Agrees` return
what they return on the state it is applied to. The staker lists do so if no staker was written, the
weight of a subnet if no L1 validator with a weight was replaced, and the reward UTXOs of a tx if
none were added or those of the state had been loaded. -/
theorem reads_of_build (s : State) (levels : List (List Mutation)) :
    ∃ flat, (build s levels).flatten = .ok flat ∧ (build s levels).Agrees flat ∧
      ((∀ ms ∈ levels, ∀ m ∈ ms, m.writesCurrent = false) →
        (build s levels).currentStakers = flat.currentStakers) ∧
      ((∀ ms ∈ levels, ∀ m ∈ ms, m.writesPending = false) →
        (build s levels).pendingStakers = flat.pendingStakers) ∧
      (PutsHideNoWeight s levels → ∀ subnet,
        (build s levels).weightOfL1Validators subnet = flat.weightOfL1Validators subnet) ∧
      ∀ txId, (s.RewardsLoaded txId ∨ ∀ ms ∈ levels, ∀ utxo, .addRewardUtxo txId utxo ∉ ms) →
        (build s levels).getRewardUtxos txId = flat.getRewardUtxos txId := by
  have hwf := wf_build s levels
  obtain ⟨hflatten, hagrees⟩ := hwf.flatten
  have hmem : ∀ below ms, below ++ [ms] <+: levels → ms ∈ levels := fun below ms hle ↦
    hle.subset (List.mem_append_right below (List.mem_singleton_self ms))
  refine ⟨_, hflatten, hagrees, fun h ↦ ?_, fun h ↦ ?_, fun h ↦ ?_, fun txId h ↦ ?_⟩
  · exact currentStakers_flat (forall_build s levels fun below ms d hle hd ↦
      hd.currentOps (h ms (hmem below ms hle)))
  · exact pendingStakers_flat (forall_build s levels fun below ms d hle hd ↦
      hd.pendingOps (h ms (hmem below ms hle)))
  · refine weightOfL1Validators_flat hwf (forall_build s levels fun below ms d hle hd ↦ ?_)
    intro id v hv old hold
    obtain ⟨hput, rfl⟩ := hd.l1Validators id v hv
    exact h below ms hle v hput old hold
  · refine getRewardUtxos_flat (h.imp (fun h ↦ by rwa [base_build]) fun h ↦ ?_)
    exact forall_build s levels fun below ms d hle hd ↦
      hd.rewardUtxos txId (h ms (hmem below ms hle))

/-- A current validator of the primary network. -/
def loneValidator : Staker :=
  .newCurrent 1 0 none 0 1 0 1 0 .primaryNetworkValidatorCurrent

/-- An L1 validator of weight `weight`. -/
def loneL1Validator (weight : UInt64) : L1Validator where
  validationId := 0
  subnetId := 0
  nodeId := 0
  publicKey := []
  remainingBalanceOwner := []
  deactivationOwner := []
  startTime := 0
  weight := weight
  minNonce := 0
  endAccumulatedFee := 0

/-- A restarted state, with a reward on disk. -/
def restarted : State :=
  { State.new with
    rewardUtxos := (∅ : ExtTreeMap Id (ExtTreeMap ℕ Bytes)).insert 0
      ((∅ : ExtTreeMap ℕ Bytes).insert 0 [1]) }

/-- A validator that was put is not among the stakers of its diff. An L1 validator whose weight was
changed counts with both. A restarted state that gets a reward loses the one on its disk. -/
theorem reads_ne_flatten :
    (build .new [[.putCurrentValidator loneValidator]]).currentStakers = [] ∧
      (build .new [[.putCurrentValidator loneValidator]]).flatten.map State.currentStakers
        = .ok [loneValidator] ∧
      (build .new [[.putL1Validator (loneL1Validator 3)],
        [.putL1Validator (loneL1Validator 5)]]).weightOfL1Validators 0 = .ok 8 ∧
      ((build .new [[.putL1Validator (loneL1Validator 3)],
        [.putL1Validator (loneL1Validator 5)]]).flatten >>= (·.weightOfL1Validators 0)) = .ok 5 ∧
      (build restarted [[.addRewardUtxo 0 [2]]]).getRewardUtxos 0 = [[1], [2]] ∧
      (build restarted [[.addRewardUtxo 0 [2]]]).flatten.map (·.getRewardUtxos 0) = .ok [[2]] := by
  refine ⟨?_, ?_, ?_, ?_, ?_, ?_⟩ <;> decide +kernel

end Chain

end Avalanche.Platform
