import Avalanche.Platform.L1Balance

/-!
# Active L1 validators are covered

When time advances, the active validators are charged in the order in which their balances end, and
those that are not covered any more are deactivated. So an active validator is covered for some time
still. Two kinds of txs break that: one that tops up an inactive validator by nothing makes it
active without a balance, and one that names a removed validator finds a balance on record that was
not watched since the removal.
-/

open Std

namespace Avalanche.Platform

/-! ### The order of the active validators -/

namespace L1Validator

instance : TransCmp L1Validator.compare :=
  inferInstanceAs (TransCmp (compareLex (compareOn L1Validator.endAccumulatedFee)
    (compareOn L1Validator.validationId)))

theorem endAccumulatedFee_le_of_compare {a b : L1Validator} (h : a.compare b ≠ .gt) :
    a.endAccumulatedFee ≤ b.endAccumulatedFee := by
  refine UInt64.not_lt.mp fun hlt ↦ h ?_
  rw [L1Validator.compare, Ordering.then_eq_gt]
  exact .inl (Std.compare_eq_gt.mpr hlt)

theorem pairwise_sorted (l : List L1Validator) :
    (L1Validator.sorted l).Pairwise fun a b ↦ a.endAccumulatedFee ≤ b.endAccumulatedFee := by
  refine (List.pairwise_mergeSort (fun a b c hab hbc ↦ ?_) (fun a b ↦ ?_) l).imp fun h ↦
    endAccumulatedFee_le_of_compare (of_decide_eq_true h)
  · simp only [decide_eq_true_eq, ne_eq, ← Ordering.isLE_iff_ne_gt] at *
    exact TransCmp.isLE_trans hab hbc
  · simp only [Bool.or_eq_true, decide_eq_true_eq, ne_eq]
    refine or_iff_not_imp_left.mpr fun h hgt ↦ ?_
    rw [not_not, OrientedCmp.gt_iff_lt, hgt] at h
    cases h

end L1Validator

/-- A list that is ordered by when `p` stops to hold. -/
theorem mem_takeWhile_of_pairwise {α : Type} {p : α → Bool} {l : List α}
    (hl : l.Pairwise fun a b ↦ p b = true → p a = true) {a : α} (ha : a ∈ l) (hp : p a = true) :
    a ∈ l.takeWhile p := by
  induction l with
  | nil => exact ha
  | cons b l ih =>
    obtain ⟨hb, hl⟩ := List.pairwise_cons.mp hl
    rcases List.mem_cons.mp ha with rfl | ha
    · rw [List.takeWhile_cons, if_pos hp]
      exact List.mem_cons_self
    · rw [List.takeWhile_cons, if_pos (hb a ha hp)]
      exact List.mem_cons_of_mem b (ih hl ha)

namespace Chain

theorem pairwise_activeL1Validators (c : Chain) :
    c.activeL1Validators.Pairwise fun a b ↦ a.endAccumulatedFee ≤ b.endAccumulatedFee := by
  rcases c with s | ⟨parent, d⟩ <;> exact L1Validator.pairwise_sorted _

/-- The active validators are those whose record is active. -/
theorem mem_activeL1Validators {c : Chain} {v : L1Validator} : v ∈ c.activeL1Validators ↔
    c.getL1Validator v.validationId = .ok v ∧ v.isActive = true := by
  induction c generalizing v with
  | state s => rw [activeL1Validators, State.mem_activeL1Validators, getL1Validator,
      State.getL1Validator, State.found, orError_eq_ok_iff]
  | diff parent d ih =>
    have hget := getElem?_byId d (fun id ↦ (parent.getL1Validator id).toOption)
      (l := parent.activeL1Validators) (fun _ ↦ by rw [ih, Except.toOption_eq_some_iff])
      (fun _ _ h ↦ validationId_of_getL1Validator (Except.toOption_eq_some_iff.mp h))
    have hread : ∀ id v, (d.l1Validators[id]?).or (parent.getL1Validator id).toOption = some v ↔
        getL1Validator (.diff parent d) id = .ok v := fun id v ↦ by
      rw [getL1Validator]
      rcases d.l1Validators[id]? with - | w
      · exact Except.toOption_eq_some_iff
      · simp
    have hkeyed : L1Validator.Keyed _ := fun id v hv ↦ by
      rw [hget, Option.filter_eq_some_iff, hread] at hv
      exact validationId_of_getL1Validator hv.1
    rw [activeL1Validators, L1Validator.sorted, (List.mergeSort_perm _ _).mem_iff,
      hkeyed.mem_map_snd, hget, Option.filter_eq_some_iff, hread]

/-- Every active validator is covered for some time still. -/
def Solvent (c : Chain) : Prop :=
  ∀ id v, c.getL1Validator id = .ok v → v.isActive = true →
    c.accruedFees < v.endAccumulatedFee.toNat

theorem Solvent.of_sameL1 {c c' : Chain} (h : c.Solvent) (hsame : c.SameL1 c') : c'.Solvent := by
  intro id v hv hactive
  rw [hsame.getL1Validator] at hv
  rw [hsame.accruedFees]
  exact h id v hv hactive

/-! ### The advance of time -/

theorem sameL1_foldl {α : Type} {f : Chain → α → Chain} (hf : ∀ (c : Chain) a, c.SameL1 (f c a))
    (l : List α) (c : Chain) : c.SameL1 (l.foldl f c) := by
  induction l generalizing c with
  | nil => exact .refl c
  | cons a l ih => exact (hf c a).trans (ih (f c a))

end Chain

namespace Backend

variable {b : Backend} {c c' : Chain} {changed : Bool}

theorem sameL1_promote {s s' : Chain × Promotions} {pending : Staker}
    (h : b.promote s pending = .ok s') : s.1.SameL1 s'.1 := by
  simp only [promote, mintReward] at h
  by_cases hrewarded : pending.priority ≠ .subnetPermissionedValidatorPending
  · rw [if_pos hrewarded] at h
    simp only [Except.bind_eq_ok_iff, Except.ok.injEq] at h
    obtain ⟨supply, -, duration, -, _, ⟨_, -, reward, -, newSupply, -, rfl⟩, _, rfl, h⟩ := h
    have hsame : s.1.SameL1 (s.1.setCurrentSupply pending.subnetId newSupply) :=
      Chain.sameL1_mutate (m := .setCurrentSupply _ _) rfl rfl
    split at h
    next => exact Except.ok.inj h ▸ hsame
    next =>
      split at h
      next => exact Except.ok.inj h ▸ hsame
      next => cases h
  · rw [if_neg hrewarded] at h
    simp only [Except.bind_eq_ok_iff, Except.ok.injEq] at h
    obtain ⟨_, rfl, h⟩ := h
    split at h
    next => exact Except.ok.inj h ▸ .refl s.1
    next =>
      split at h
      next => exact Except.ok.inj h ▸ .refl s.1
      next => cases h

theorem sameL1_promoteValidator {p : Staker × Staker} (h : promoteValidator c p = .ok c') :
    c.SameL1 c' := by
  simp only [promoteValidator, Except.bind_eq_ok_iff, Except.ok.injEq] at h
  obtain ⟨mid, hput, rfl⟩ := h
  exact (Chain.sameL1_mutate (m := .putCurrentValidator _) rfl hput).trans
    (Chain.sameL1_mutate (m := .deletePendingValidator _) rfl rfl)

/-- The stakers that move are no L1 validators. -/
theorem sameL1_advanceStakers {newTime : ℤ}
    (h : b.advanceStakers c newTime = .ok (c', changed)) : c.SameL1 c' := by
  simp only [advanceStakers, Except.bind_eq_ok_iff, Except.ok.injEq, Prod.mk.injEq] at h
  obtain ⟨⟨c₁, promotions⟩, hpromote, c₂, hvalidators, rfl, -⟩ := h
  have h₁ : c.SameL1 c₁ := Except.foldlM_inv (I := fun s : Chain × Promotions ↦ c.SameL1 s.1)
    (fun s a s' _ hs hs' ↦ hs.trans (sameL1_promote hs')) (.refl c) hpromote
  have h₂ : c₁.SameL1 c₂ := Except.foldlM_inv (I := fun c' ↦ c₁.SameL1 c')
    (fun s a s' _ hs hs' ↦ hs.trans (sameL1_promoteValidator hs')) (.refl c₁) hvalidators
  have h₃ : c₂.SameL1 (promotions.delegators.foldl promoteDelegator c₂) :=
    Chain.sameL1_foldl (fun c p ↦
      (Chain.sameL1_mutate (m := .putCurrentDelegator _) rfl rfl).trans
        (Chain.sameL1_mutate (m := .deletePendingDelegator _) rfl rfl)) _ c₂
  exact h₁.trans (h₂.trans (h₃.trans (Chain.sameL1_foldl (fun c x ↦
    Chain.sameL1_mutate (m := .deleteCurrentValidator _) rfl rfl) _ _)))

/-- A record after validators were deactivated is one of those, or was not touched. -/
theorem getL1Validator_foldl_deactivate {l : List L1Validator} {id : Id} {v : L1Validator}
    (h : (l.foldl (fun c v ↦
      c.putL1Validator { v with endAccumulatedFee := 0 }) c).getL1Validator id = .ok v) :
    v.endAccumulatedFee = 0 ∨ c.getL1Validator id = .ok v ∧ ∀ w ∈ l, w.validationId ≠ id := by
  induction l generalizing c with
  | nil => exact .inr ⟨h, fun w hw ↦ absurd hw List.not_mem_nil⟩
  | cons a l ih =>
    rcases ih h with hzero | ⟨hread, hl⟩
    · exact .inl hzero
    · rw [Chain.getL1Validator_putL1Validator] at hread
      split at hread
      next => exact .inl (Except.ok.inj hread ▸ rfl)
      next hid => exact .inr ⟨hread, List.forall_mem_cons.mpr ⟨hid, hl⟩⟩

/-- After the fee was charged, the active validators are those it has not used up. -/
theorem solvent_advanceValidatorFeeState {seconds : ℕ}
    (h : b.advanceValidatorFeeState c seconds = .ok (c', changed)) : c'.Solvent := by
  simp only [advanceValidatorFeeState, Except.bind_eq_ok_iff, orError_eq_ok_iff, Except.ok.injEq,
    Prod.mk.injEq] at h
  obtain ⟨accruedFees, -, rfl, -⟩ := h
  set covered := c.activeL1Validators.takeWhile fun v ↦ ¬v.endAccumulatedFee.toNat > accruedFees
    with hcovered
  set mid := covered.foldl (fun c v ↦ c.putL1Validator { v with endAccumulatedFee := 0 }) c
    with hmid
  set excess := (L1State.advanceTime _ _ _).excess
  have hfees : ((mid.setL1ValidatorExcess excess).setAccruedFees accruedFees).accruedFees
      = accruedFees := by
    rcases mid with s | ⟨parent, d⟩ <;> rfl
  have hrecords : ((mid.setL1ValidatorExcess excess).setAccruedFees accruedFees).getL1Validator
      = mid.getL1Validator := by
    rcases mid with s | ⟨parent, d⟩ <;> rfl
  intro id v hv hactive
  rw [hrecords, hmid] at hv
  rw [hfees]
  have hend : v.endAccumulatedFee ≠ 0 := by
    simp only [L1Validator.isActive, Bool.and_eq_true, decide_eq_true_eq] at hactive
    exact hactive.2
  obtain ⟨hread, hother⟩ := (getL1Validator_foldl_deactivate hv).resolve_left hend
  have hid := Chain.validationId_of_getL1Validator hread
  by_contra hle
  refine hother v (mem_takeWhile_of_pairwise (c.pairwise_activeL1Validators.imp fun hab hb ↦ ?_)
    (Chain.mem_activeL1Validators.mpr ⟨hid ▸ hread, hactive⟩) (by simpa using hle)) hid
  have := UInt64.le_iff_toNat_le.mp hab
  simp only [decide_eq_true_eq, gt_iff_lt] at hb ⊢
  omega

theorem solvent_advanceTimeTo {newTime : ℤ} (hc : c.Solvent)
    (h : b.advanceTimeTo c newTime = .ok (c', changed)) : c'.Solvent := by
  simp only [advanceTimeTo, Except.bind_eq_ok_iff] at h
  obtain ⟨⟨c₁, changed₁⟩, hstakers, h⟩ := h
  have htime : ∀ c : Chain, c.SameL1 (c.setTimestamp newTime) :=
    fun c ↦ Chain.sameL1_mutate (m := .setTimestamp newTime) rfl rfl
  split at h
  next =>
    obtain ⟨rfl, -⟩ := Prod.mk.inj (Except.ok.inj h)
    exact hc.of_sameL1 ((sameL1_advanceStakers hstakers).trans (htime c₁))
  next =>
    simp only [Except.bind_eq_ok_iff] at h
    obtain ⟨⟨c₂, changed₂⟩, hcharged, h⟩ := h
    obtain ⟨rfl, -⟩ := Prod.mk.inj (Except.ok.inj h)
    exact (solvent_advanceValidatorFeeState hcharged).of_sameL1 (htime c₂)

end Backend

/-! ### Txs -/

namespace L1TxExecutor

variable {e : L1TxExecutor} {c c' : Chain} {α : Type} {err : Error}

/-- What a tx adds to the balance of a validator. -/
def topUp (e : L1TxExecutor) : Option UInt64 :=
  match e.tx.unsigned with
  | .increaseL1ValidatorBalance tx => some tx.balance
  | _ => none

/-- The validator that the tx names is not a removed one whose balance on record has run out since,
and if it is inactive, the tx does not activate it for nothing. -/
def KeepsSolvent (c : Chain) (e : L1TxExecutor) : Prop :=
  ∀ id ∈ e.namedValidation, ∀ v ∈ (c.getL1Validator id).toOption,
    (v.weight = 0 → v.endAccumulatedFee = 0 ∨ c.accruedFees < v.endAccumulatedFee.toNat) ∧
    (v.endAccumulatedFee = 0 → e.topUp = some 0 → c.accruedFees = 0)

instance (c : Chain) (e : L1TxExecutor) : Decidable (KeepsSolvent c e) :=
  decidable_of_iff (e.namedValidation.all fun id ↦ (c.getL1Validator id).toOption.all fun v ↦
      (v.weight = 0 → v.endAccumulatedFee = 0 ∨ c.accruedFees < v.endAccumulatedFee.toNat) ∧
      (v.endAccumulatedFee = 0 → e.topUp = some 0 → c.accruedFees = 0))
    (by simp [KeepsSolvent, Option.all_eq_true, imp_iff_not_or])

theorem visit_granted (hkind : e.isUpdate = false) (h : e.visit c = .ok c') : Granted c c' := by
  rw [visit] at h
  cases htx : e.tx.unsigned <;> rw [htx] at h <;> rw [isUpdate, htx] at hkind
  case convertSubnetToL1 => exact (convertSubnetToL1_eq_ok h).1
  case registerL1Validator => exact (registerL1Validator_eq_ok h).1
  case setL1ValidatorWeight => cases hkind
  case increaseL1ValidatorBalance => cases hkind
  case disableL1Validator => cases hkind
  all_goals exact absurd h (by simp)

theorem Granted.solvent (h : Granted c c') (hc : c.Solvent) : c'.Solvent := by
  intro id v hv hactive
  rw [h.accruedFees]
  rcases h.getL1Validator id v hv with hold | hzero | hcovered
  · exact hc id v hold hactive
  · simp [L1Validator.isActive, hzero] at hactive
  · exact hcovered

/-- The record of a validator that has a balance on record is covered, before a tx that may name
it. -/
theorem KeepsSolvent.covered (h : KeepsSolvent c e) (hc : c.Solvent) {id : Id} {v : L1Validator}
    (hnamed : e.namedValidation = some id) (hread : c.getL1Validator id = .ok v)
    (hend : v.endAccumulatedFee ≠ 0) : c.accruedFees < v.endAccumulatedFee.toNat := by
  by_cases hweight : v.weight = 0
  · exact ((h id hnamed v (Except.toOption_eq_some_iff.mpr hread)).1 hweight).resolve_left hend
  · exact hc id v hread (by simp [L1Validator.isActive, hweight, hend])

theorem Updated.solvent {id : Id} {v v' : L1Validator} (h : e.Updated c c' id v v')
    (hkeeps : KeepsSolvent c e) (hc : c.Solvent) : c'.Solvent := by
  intro k w hw hactive
  rw [h.accruedFees]
  rw [h.write] at hw
  split at hw
  next =>
    obtain rfl := Except.ok.inj hw
    simp only [L1Validator.isActive, Bool.and_eq_true, decide_eq_true_eq] at hactive
    have hpos : v'.endAccumulatedFee.toNat ≠ 0 := fun hzero ↦
      hactive.2 (UInt64.toNat_inj.mp hzero)
    have hfree := (hkeeps id h.named v (Except.toOption_eq_some_iff.mpr h.read)).2
    rw [h.endFee] at hpos ⊢
    by_cases hend : v.endAccumulatedFee = 0
    · -- only a top-up gives it a balance
      cases htx : e.tx.unsigned <;> simp only [endFeeAfter, htx, hend, UInt64.toNat_zero,
        ne_eq, not_true_eq_false] at hpos
      case increaseL1ValidatorBalance tx =>
        simp only [endFeeAfter, htx, hend, if_true] at hpos ⊢
        by_cases hbalance : tx.balance = 0
        · have hzero := hfree hend (by simp [topUp, htx, hbalance])
          omega
        · have : tx.balance.toNat ≠ 0 := fun hzero ↦ hbalance (UInt64.toNat_inj.mp hzero)
          omega
    · have hcovered := hkeeps.covered hc h.named h.read hend
      cases htx : e.tx.unsigned <;> simp only [endFeeAfter, htx] at hpos ⊢
      case increaseL1ValidatorBalance tx =>
        rw [if_neg hend]
        omega
      case disableL1Validator => exact absurd rfl hpos
      all_goals exact hcovered
  next => exact hc k w hw hactive

theorem solvent_visit (hkeeps : KeepsSolvent c e) (hc : c.Solvent) (h : e.visit c = .ok c') :
    c'.Solvent := by
  by_cases hkind : e.isUpdate = true
  · obtain ⟨id, v, v', hupdated⟩ := visit_updated hkind h
    exact hupdated.solvent hkeeps hc
  · exact (visit_granted (by simpa using hkind) h).solvent hc

/-! ### The guard against minting -/

/-- The computation does not fail with `StateCorruption`. -/
def Sound {α : Type} (x : Except Error α) : Prop := x ≠ .error .stateCorruption

section Rules

variable {β σ : Type} {x : Except Error α}

@[simp] theorem sound_ok (a : α) : Sound (.ok a) := by simp [Sound]

@[simp] theorem sound_bind_iff {f : α → Except Error β} :
    Sound (x >>= f) ↔ Sound x ∧ ∀ a, x = .ok a → Sound (f a) := by
  simp only [Sound, ne_eq, Except.bind_eq_error_iff, not_or, not_exists, not_and]

theorem Sound.bind {f : α → Except Error β} (hx : Sound x)
    (hf : ∀ a, x = .ok a → Sound (f a)) : Sound (x >>= f) :=
  sound_bind_iff.mpr ⟨hx, hf⟩

@[simp] theorem sound_map_iff {f : α → β} : Sound (x.map f) ↔ Sound x := by
  rw [Sound, Sound, ne_eq, ne_eq, Except.map_eq_error_iff]

@[simp] theorem sound_mapError (h : err ≠ .stateCorruption) :
    Sound (x.mapError fun _ ↦ err) := fun herror ↦ by
  obtain ⟨-, -, rfl⟩ := Except.mapError_eq_error_iff.mp herror
  exact h rfl

@[simp] theorem sound_require {p : Prop} [Decidable p] (h : err ≠ .stateCorruption) :
    Sound (Platform.require p err) := by
  by_cases hp : p <;> simp [Sound, Platform.require, hp, h]

@[simp] theorem sound_orError {x : Option α} (h : err ≠ .stateCorruption) :
    Sound (Platform.orError x err) := by
  rcases x with - | a <;> simp [Sound, Platform.orError, h]

@[simp] theorem sound_foldlM {f : σ → α → Except Error σ} {l : List α} {s : σ}
    (h : ∀ s a, Sound (f s a)) : Sound (l.foldlM f s) := fun herror ↦ by
  obtain ⟨a, -, s', h'⟩ := Except.exists_of_foldlM_eq_error herror
  exact h s' a h'

@[simp] theorem sound_forM {f : α → Except Error Unit} {l : List α} (h : ∀ a, Sound (f a)) :
    Sound (forM l f) := fun herror ↦ by
  obtain ⟨a, -, h'⟩ := Except.exists_of_forM_eq_error herror
  exact h a h'

end Rules

@[simp] theorem sound_verify_output (o : Output) : Sound o.verify := by
  induction o with
  | transfer amt owners => simp [Output.verify, OutputOwners.verify]
  | stakeableLock locktime out ih => simp [Output.verify, ih]

@[simp] theorem sound_verify_input (i : Input) : Sound i.verify := by
  induction i with
  | transfer amt sigIndices => simp [Input.verify]
  | stakeableLock locktime input ih => simp [Input.verify, ih]

@[simp] theorem sound_requireEtna (e : L1TxExecutor) (c : Chain) (base : BaseTx) :
    Sound (e.requireEtna c base) := by
  simp [requireEtna, BaseTx.syntacticVerify, TransferableOutput.verify, TransferableInput.verify]

@[simp] theorem sound_fee (b : Backend) (c : Chain) : Sound (b.fee c) := by
  rw [Backend.fee]
  cases b.feeCalculator c with
  | static txFee => exact sound_ok txFee
  | dynamic weights price =>
    refine Sound.bind (sound_foldlM fun _ _ ↦ ?_) fun _ _ ↦ ?_ <;> simp

@[simp] theorem sound_produceOne (sha256 : Bytes → Id) (txId : Id) (c : Chain)
    (p : TransferableOutput × ℕ) : Sound (produceOne sha256 txId c p) := by
  simp [produceOne]

@[simp] theorem sound_verifyAndApplyBase (e : L1TxExecutor) (c : Chain) (base : BaseTx) :
    Sound (e.verifyAndApplyBase c base) := by
  simp [verifyAndApplyBase, Backend.verifySpend, Backend.consumeProduce, produce]

@[simp] theorem sound_unmarshal (w : Wire α) (bytes : Bytes) : Sound (Codec.unmarshal w bytes) := by
  simp [Codec.unmarshal]

@[simp] theorem sound_verifyAuthorization (b : Backend) (tx : Tx) (unsignedBytes : Bytes)
    (owner : OutputOwners) (auth : Auth) :
    Sound (b.verifyAuthorization tx unsignedBytes owner auth) := by
  simp [Backend.verifyAuthorization]

@[simp] theorem sound_getSubnetOwner (c : Chain) (subnet : Id) :
    Sound (c.getSubnetOwner subnet) := by
  induction c with
  | state s => exact sound_orError (by simp)
  | diff parent d ih =>
    rw [Chain.getSubnetOwner]
    split
    next => exact sound_ok _
    next => exact ih

@[simp] theorem sound_getL1Validator (c : Chain) (id : Id) : Sound (c.getL1Validator id) := by
  induction c with
  | state s => exact sound_orError (by simp)
  | diff parent d ih =>
    rw [Chain.getL1Validator]
    split
    next => exact sound_ok _
    next => exact ih

@[simp] theorem sound_key (bls : Bls) (p : ProofOfPossession) : Sound (p.key bls) :=
  sound_orError (by simp)

@[simp] theorem sound_nodeIdOfSlice (bytes : Bytes) : Sound (nodeIdOfSlice bytes) := by
  rw [nodeIdOfSlice]
  split <;> simp [Sound]

@[simp] theorem sound_endFee (balance : UInt64) (currentFees : ℕ) :
    Sound (endFee balance currentFees) := by
  rw [endFee]
  split <;> simp

@[simp] theorem sound_convertOne (e : L1TxExecutor) (tx : ConvertSubnetToL1Tx) (startTime fees : ℕ)
    (c : Chain) (p : ConvertSubnetToL1Validator × ℕ) :
    Sound (e.convertOne tx startTime fees c p) := by
  simp [convertOne]

theorem sound_convertSubnetToL1 (e : L1TxExecutor) (c : Chain) (tx : ConvertSubnetToL1Tx) :
    Sound (e.convertSubnetToL1 c tx) := by
  have hmarshal : Sound (SubnetConversion.marshal tx.chainId tx.address) := by
    rw [SubnetConversion.marshal]
    split <;> simp [Sound]
  simp [convertSubnetToL1, Backend.verifySubnetAuthorization, Backend.decodeOwner, chainTimeUnix,
    hmarshal]

@[simp] theorem sound_verifyL1Conversion (c : Chain) (subnet chain : Id) (address : Bytes) :
    Sound (verifyL1Conversion c subnet chain address) := by
  simp [verifyL1Conversion, SubnetConversion.unmarshal]

/-- The decoding and the signature check of messages do not fail with `StateCorruption`. -/
def WarpSound (w : Warp) : Prop :=
  ∀ message, Sound (w.parse message) ∧ Sound (w.verifySignature message)

theorem WarpSound.verifyWarpMessage {w : Warp} (hw : WarpSound w) (message : Bytes) :
    Sound (w.verifyWarpMessage message) := by
  have hpayload (p : RegistryPayload) : Sound p.verify := by
    cases p <;> simp [RegistryPayload.verify, RegisterL1Validator.verify, L1ValidatorWeight.verify]
  simp [Warp.verifyWarpMessage, hw message, hpayload]

theorem sound_registerL1Validator (hwarp : WarpSound e.warp) (c : Chain)
    (tx : RegisterL1ValidatorTx) : Sound (e.registerL1Validator c tx) := by
  refine (sound_requireEtna e c tx.base).bind fun _ _ ↦
    (sound_verifyAndApplyBase e c tx.base).bind fun mid _ ↦
      (hwarp.verifyWarpMessage tx.message).bind fun parsed _ ↦ ?_
  split
  next msg _ => simp [chainTimeUnix, ProofOfPossession.verify]
  next => simp [Sound]

theorem sound_refund {v : L1Validator} (h : c.accruedFees < v.endAccumulatedFee.toNat)
    (outs : List TransferableOutput) : Sound (e.refund c v outs) := by
  have hguard : Sound (require (c.accruedFees < v.endAccumulatedFee.toNat) .stateCorruption) := by
    rw [require, if_pos h]
    exact sound_ok ()
  simp [refund, unmarshalMessageOwner, Backend.decodeOwner, hguard]

section Covered

variable (hcovered : ∀ id v, e.namedValidation = some id → c.getL1Validator id = .ok v →
  v.endAccumulatedFee ≠ 0 → c.accruedFees < v.endAccumulatedFee.toNat)
include hcovered

theorem sound_setL1ValidatorWeight (hwarp : WarpSound e.warp) {tx : SetL1ValidatorWeightTx}
    (htx : e.tx.unsigned = .setL1ValidatorWeight tx) : Sound (e.setL1ValidatorWeight c tx) := by
  refine (sound_requireEtna e c tx.base).bind fun _ _ ↦
    (sound_verifyAndApplyBase e c tx.base).bind fun mid hbase ↦
      (hwarp.verifyWarpMessage tx.message).bind fun parsed hparsed ↦ ?_
  have hmid := (verifyAndApplyBase_eq_ok hbase).1
  cases hpayload : parsed.payload with
  | l1ValidatorWeight msg =>
    refine Sound.bind (by simp) fun v hread ↦ Sound.bind (by simp) fun _ _ ↦
      (sound_verifyL1Conversion _ _ _ _).bind fun _ _ ↦ ?_
    rw [Except.mapError_eq_ok_iff, hmid.getL1Validator] at hread
    have hnamed : e.namedValidation = some msg.validationId := namedValidation_of_weightMessage
      (by simp [weightMessage, htx, hparsed, hpayload, Except.toOption])
    split
    next =>
      refine Sound.bind (Sound.bind (by simp) fun _ _ ↦ Sound.bind (by simp) fun _ _ ↦ ?_)
        fun _ _ ↦ sound_ok _
      split
      next hend =>
        refine sound_refund ?_ _
        rw [hmid.accruedFees]
        exact hcovered _ v hnamed hread hend
      next => exact sound_ok mid
    next => exact sound_ok _
  | _ => simp [Sound]

theorem sound_disableL1Validator {tx : DisableL1ValidatorTx}
    (htx : e.tx.unsigned = .disableL1Validator tx) : Sound (e.disableL1Validator c tx) := by
  refine (sound_requireEtna e c tx.base).bind fun _ _ ↦ Sound.bind (by simp) fun v hread ↦
    Sound.bind (by simp [unmarshalMessageOwner, Backend.decodeOwner]) fun _ _ ↦
      (sound_verifyAuthorization _ _ _ _ _).bind fun _ _ ↦
        (sound_verifyAndApplyBase e c tx.base).bind fun mid hbase ↦ ?_
  have hmid := (verifyAndApplyBase_eq_ok hbase).1
  split
  next => exact sound_ok mid
  next hend =>
    refine (sound_refund ?_ _).bind fun _ _ ↦ sound_ok _
    rw [hmid.accruedFees]
    exact hcovered _ v (by simp [namedValidation, htx]) (Except.mapError_eq_ok_iff.mp hread) hend

end Covered

/-- In a solvent state the guard is not reached. -/
theorem sound_visit (hwarp : WarpSound e.warp) (hkeeps : KeepsSolvent c e) (hc : c.Solvent) :
    Sound (e.visit c) := by
  have hcovered : ∀ id v, e.namedValidation = some id → c.getL1Validator id = .ok v →
      v.endAccumulatedFee ≠ 0 → c.accruedFees < v.endAccumulatedFee.toNat :=
    fun id v hnamed hread hend ↦ hkeeps.covered hc hnamed hread hend
  rw [visit]
  cases htx : e.tx.unsigned
  case convertSubnetToL1 tx => exact sound_convertSubnetToL1 e c tx
  case registerL1Validator tx => exact sound_registerL1Validator hwarp c tx
  case setL1ValidatorWeight tx => exact sound_setL1ValidatorWeight hcovered hwarp htx
  case increaseL1ValidatorBalance tx => simp [increaseL1ValidatorBalance]
  case disableL1Validator tx => exact sound_disableL1Validator hcovered htx
  all_goals simp [Sound]

end L1TxExecutor

/-! ### Runs -/

namespace L1Event

def KeepsSolvent (c : Chain) : L1Event → Prop
  | tx e => e.KeepsSolvent c
  | advanceTime _ _ => True

instance (c : Chain) (ev : L1Event) : Decidable (KeepsSolvent c ev) :=
  match ev with
  | tx e => inferInstanceAs (Decidable (e.KeepsSolvent c))
  | advanceTime _ _ => .isTrue trivial

variable {c c' : Chain}

theorem solvent_step {ev : L1Event} (hkeeps : KeepsSolvent c ev) (hc : c.Solvent)
    (h : step c ev = .ok c') : c'.Solvent := by
  cases ev with
  | tx e => exact L1TxExecutor.solvent_visit hkeeps hc h
  | advanceTime b newTime =>
    obtain ⟨⟨c', changed⟩, hadvance, rfl⟩ := Except.map_eq_ok_iff.mp h
    exact Backend.solvent_advanceTimeTo hc hadvance

theorem solvent_run {evs : List L1Event} (hrun : evs.foldlM step c = .ok c')
    (halong : Run.Along step KeepsSolvent c evs) (hc : c.Solvent) : c'.Solvent := by
  induction evs generalizing c with
  | nil => exact Except.ok.inj hrun ▸ hc
  | cons ev evs ih =>
    obtain ⟨mid, hstep, hrest⟩ := Run.foldlM_cons_eq_ok_iff.mp hrun
    exact ih hrest (halong.2 mid hstep) (solvent_step halong.1 hc hstep)

/-- **Active validators are covered.** From a state without L1 validators, through txs that keep it
so and advances of time, every active validator is covered beyond the accrued fees, and no tx that
keeps it so fails with `StateCorruption`. -/
theorem solvent_of_keepsSolvent {evs : List L1Event} (hstart : ∀ id v, c.getL1Validator id ≠ .ok v)
    (hrun : evs.foldlM step c = .ok c') (halong : Run.Along step KeepsSolvent c evs) :
    (∀ id v, c'.getL1Validator id = .ok v → v.isActive = true →
      c'.accruedFees < v.endAccumulatedFee.toNat) ∧
    ∀ e : L1TxExecutor, L1TxExecutor.WarpSound e.warp → e.KeepsSolvent c' →
      e.visit c' ≠ .error .stateCorruption := by
  have hsolvent : c'.Solvent := solvent_run hrun halong fun id v hv ↦ absurd hv (hstart id v)
  exact ⟨hsolvent, fun e hwarp hkeeps ↦ L1TxExecutor.sound_visit hwarp hkeeps hsolvent⟩

/-- One second after the epoch. -/
def demoAdvance : L1Event := .advanceTime L1TxExecutor.demoBackend 1000000000

def demoIncrease (n : Id) (balance : UInt64) : L1Event :=
  demoTx n fun base ↦ .increaseL1ValidatorBalance ⟨base, demoId, balance⟩

theorem getL1Validator_demoStart (id : Id) (v : L1Validator) :
    demoStart.getL1Validator id ≠ .ok v := by
  have hempty : demoStart.getL1Validator id = .error .notFound := by
    simp [demoStart, Chain.getL1Validator, Diff.new, State.getL1Validator, State.found, orError,
      State.addUtxo, State.setSubnetOwner, State.new]
  rw [hempty]
  simp

theorem solvent_of_demo :
    Run.Along step KeepsSolvent demoStart [demoConvert 0, demoAdvance, demoIncrease 1 5] ∧
      ∃ c', [demoConvert 0, demoAdvance, demoIncrease 1 5].foldlM step demoStart = .ok c' ∧
        (∀ id v, c'.getL1Validator id = .ok v → v.isActive = true →
          c'.accruedFees < v.endAccumulatedFee.toNat) ∧
        ∀ e : L1TxExecutor, L1TxExecutor.WarpSound e.warp → e.KeepsSolvent c' →
          e.visit c' ≠ .error .stateCorruption := by
  have halong : Run.Along step KeepsSolvent demoStart
      [demoConvert 0, demoAdvance, demoIncrease 1 5] := by decide +kernel
  obtain ⟨c', hrun⟩ := Except.isOk_iff.mp (show (([demoConvert 0, demoAdvance,
    demoIncrease 1 5].foldlM step demoStart).isOk) = true by decide +kernel)
  exact ⟨halong, c', hrun, solvent_of_keepsSolvent getL1Validator_demoStart hrun halong⟩

/-- After a second an inactive validator is topped up by nothing. It is active, and covered up to
the fees that have accrued; it cannot be disabled. -/
theorem insolvent_of_free_increase :
    ([demoConvert 0, demoAdvance, demoIncrease 1 0].foldlM step demoStart >>= fun c ↦
        (c.getL1Validator demoId).map fun v ↦ (v.isActive, v.endAccumulatedFee, c.accruedFees))
      = .ok (true, 512, 512) ∧
    ([demoConvert 0, demoAdvance, demoIncrease 1 0, demoDisable 2].foldlM step demoStart).map
      (fun _ ↦ ()) = .error .stateCorruption := by
  refine ⟨?_, ?_⟩ <;> decide +kernel

end L1Event

end Avalanche.Platform
