import Avalanche.Platform.AdvanceTime
import Avalanche.Platform.L1Lifecycle

/-!
# The balances of L1 validators

A balance that a tx grants is recorded in the validator, as the point up to which its fees are
covered. The flow check of the tx does not know of it: the inputs are compared with the outputs and
the fee alone. So nothing is ever paid for a balance, and a run in which anything is refunded has
refunded more than was paid.
-/

namespace Avalanche.Platform

/-- What moves the balances. -/
inductive L1Event
  | tx (e : L1TxExecutor)
  | advanceTime (b : Backend) (newTime : ℤ)

def L1Event.step (c : Chain) : L1Event → Except Error Chain
  | tx e => e.visit c
  | advanceTime b newTime => (b.advanceTimeTo c newTime).map Prod.fst

namespace L1TxExecutor

variable {e : L1TxExecutor} {c c' : Chain}
variable {tx : ConvertSubnetToL1Tx}

/-! ### What a tx pays -/

/-- The part of the tx that pays. -/
def base (e : L1TxExecutor) : Option BaseTx :=
  match e.tx.unsigned with
  | .convertSubnetToL1 tx => some tx.base
  | .registerL1Validator tx => some tx.base
  | .setL1ValidatorWeight tx => some tx.base
  | .increaseL1ValidatorBalance tx => some tx.base
  | .disableL1Validator tx => some tx.base
  | _ => none

/-- The validators that the tx grants a balance to. -/
def fundedValidations (e : L1TxExecutor) : List Id :=
  match e.tx.unsigned with
  | .convertSubnetToL1 tx => tx.validators.zipIdx.map fun p ↦
    e.backend.sha256 ((Wire.word 32).put tx.subnet ++ Wire.u32.put (UInt32.ofNat p.2))
  | .registerL1Validator tx =>
    ((e.warp.verifyWarpMessage tx.message).toOption.map fun parsed ↦
      e.backend.sha256 parsed.payloadBytes).toList
  | .increaseL1ValidatorBalance tx => [tx.validationId]
  | _ => []

/-- What the tx pays beyond its outputs and its fee. -/
def surplus (e : L1TxExecutor) (c : Chain) : ℤ :=
  match e.base, (e.backend.fee c).toOption with
  | some base, some fee => claimed base.ins - amountOf base.outs - fee
  | _, _ => 0

/-- What the tx pays for the balance of a validator. -/
def funded (e : L1TxExecutor) (c : Chain) (id : Id) : ℤ :=
  if id ∈ e.fundedValidations then e.surplus c else 0

/-- What the tx refunds of the balance of a validator. -/
def refunded (e : L1TxExecutor) (c : Chain) (id : Id) : ℕ :=
  if e.isRefund ∧ e.namedValidation = some id then
    (c.getL1Validator id).toOption.elim 0 fun v ↦
      if v.endAccumulatedFee = 0 then 0 else v.endAccumulatedFee.toNat - c.accruedFees
  else 0

theorem fee_putL1Validator (b : Backend) (c : Chain) (v : L1Validator) :
    b.fee (c.putL1Validator v) = b.fee c := by
  rcases c with s | ⟨parent, d⟩ <;> rfl

theorem endFee_eq_ok {balance endAccumulatedFee : UInt64} {currentFees : ℕ}
    (h : endFee balance currentFees = .ok endAccumulatedFee) :
    endAccumulatedFee = 0 ∨ currentFees < endAccumulatedFee.toNat := by
  rw [endFee] at h
  by_cases hbalance : balance ≠ 0
  · rw [if_pos hbalance, Except.map_eq_ok_iff] at h
    obtain ⟨total, htotal, rfl⟩ := h
    obtain ⟨hle, rfl⟩ := checkedAdd_eq_some_iff.mp (orError_eq_ok_iff.mp htotal)
    have hpos : balance.toNat ≠ 0 := fun hzero ↦ hbalance (UInt64.toNat_inj.mp hzero)
    rw [UInt64.toNat_ofNat_of_le hle]
    omega
  · rw [if_neg hbalance] at h
    exact .inl (Except.ok.inj h).symm

/-- The records are those of before, or new ones that are inactive or covered for some time. -/
structure Granted (c c' : Chain) : Prop where
  accruedFees : c'.accruedFees = c.accruedFees
  getL1Validator : ∀ id v, c'.getL1Validator id = .ok v → c.getL1Validator id = .ok v ∨
    v.endAccumulatedFee = 0 ∨ c.accruedFees < v.endAccumulatedFee.toNat

theorem Granted.of_sameL1 (h : c.SameL1 c') : Granted c c' :=
  ⟨h.accruedFees, fun id v hv ↦ .inl (by rwa [← h.getL1Validator])⟩

theorem Granted.trans {c₁ c₂ c₃ : Chain} (h₁ : Granted c₁ c₂) (h₂ : Granted c₂ c₃) :
    Granted c₁ c₃ := by
  refine ⟨h₂.accruedFees.trans h₁.accruedFees, fun id v hv ↦ ?_⟩
  rcases h₂.getL1Validator id v hv with hv | hend
  · exact h₁.getL1Validator id v hv
  · rw [h₁.accruedFees] at hend
    exact .inr hend

theorem Granted.put {v : L1Validator}
    (hv : v.endAccumulatedFee = 0 ∨ c.accruedFees < v.endAccumulatedFee.toNat) :
    Granted c (c.putL1Validator v) := by
  refine ⟨c.accruedFees_putL1Validator v, fun id w hw ↦ ?_⟩
  rw [Chain.getL1Validator_putL1Validator] at hw
  split at hw
  next => exact .inr (Except.ok.inj hw ▸ hv)
  next => exact .inl hw

theorem convertOne_eq_ok {startTime : ℕ} {p : ConvertSubnetToL1Validator × ℕ}
    (h : e.convertOne tx startTime c.accruedFees c p = .ok c') :
    Granted c c' ∧ e.backend.fee c' = e.backend.fee c := by
  simp only [convertOne, Except.bind_eq_ok_iff, Except.ok.injEq] at h
  obtain ⟨-, -, nodeId, -, publicKey, -, endAccumulatedFee, hend, rfl⟩ := h
  exact ⟨.put (endFee_eq_ok hend), fee_putL1Validator _ _ _⟩

theorem foldlM_convertOne {startTime : ℕ} {l : List (ConvertSubnetToL1Validator × ℕ)}
    (h : l.foldlM (e.convertOne tx startTime c.accruedFees) c = .ok c') :
    Granted c c' ∧ e.backend.fee c' = e.backend.fee c := by
  refine Except.foldlM_inv (I := fun mid ↦ Granted c mid ∧ e.backend.fee mid = e.backend.fee c)
    (fun mid p next _ hmid hnext ↦ ?_) ⟨.of_sameL1 (.refl c), rfl⟩ h
  rw [← hmid.1.accruedFees] at hnext
  obtain ⟨hgranted, hfee⟩ := convertOne_eq_ok hnext
  exact ⟨hmid.1.trans hgranted, hfee.trans hmid.2⟩

/-- The inputs of a tx claim its outputs and its fee, and no more. -/
def Paid (e : L1TxExecutor) (c : Chain) (base : BaseTx) : Prop :=
  ∃ fee, e.backend.fee c = .ok fee ∧ claimed base.ins = fee + amountOf base.outs

theorem convertSubnetToL1_eq_ok
    (h : e.convertSubnetToL1 c tx = .ok c') : Granted c c' ∧ e.Paid c tx.base := by
  simp only [convertSubnetToL1, Except.bind_eq_ok_iff, Except.ok.injEq] at h
  obtain ⟨-, -, -, -, startTime, -, mid, hconvert, mid', hbase, conversion, -, rfl⟩ := h
  obtain ⟨hgranted, hfee⟩ := foldlM_convertOne hconvert
  obtain ⟨hsame, hpaid⟩ := verifyAndApplyBase_eq_ok hbase
  rw [hfee] at hpaid
  exact ⟨hgranted.trans (.of_sameL1 (hsame.trans
    (Chain.sameL1_mutate (m := .setSubnetManager _ _) rfl rfl))), hpaid⟩

theorem registerL1Validator_eq_ok {tx : RegisterL1ValidatorTx}
    (h : e.registerL1Validator c tx = .ok c') : Granted c c' ∧ e.Paid c tx.base := by
  simp only [registerL1Validator, Except.bind_eq_ok_iff] at h
  obtain ⟨-, -, mid, hbase, parsed, -, h⟩ := h
  obtain ⟨hsame, hpaid⟩ := verifyAndApplyBase_eq_ok hbase
  refine ⟨(Granted.of_sameL1 hsame).trans ?_, hpaid⟩
  cases hpayload : parsed.payload <;> rw [hpayload] at h
  case registerL1Validator msg =>
    simp only [Except.bind_eq_ok_iff, Except.ok.injEq] at h
    obtain ⟨-, -, currentUnix, -, -, -, -, -, -, -, nodeId, -, publicKey, -, endAccumulatedFee,
      hend, rfl⟩ := h
    exact .put (endFee_eq_ok hend)
  all_goals exact absurd h (by simp)

theorem visit_paid (h : e.visit c = .ok c') : ∃ base, e.base = some base ∧ e.Paid c base := by
  rw [visit] at h
  cases htx : e.tx.unsigned <;> rw [htx] at h <;> simp only [base, htx, Option.some.injEq,
    exists_eq_left']
  case convertSubnetToL1 => exact (convertSubnetToL1_eq_ok h).2
  case registerL1Validator => exact (registerL1Validator_eq_ok h).2
  case setL1ValidatorWeight =>
    simp only [setL1ValidatorWeight, Except.bind_eq_ok_iff] at h
    obtain ⟨-, -, mid, hbase, -⟩ := h
    exact (verifyAndApplyBase_eq_ok hbase).2
  case increaseL1ValidatorBalance =>
    simp only [increaseL1ValidatorBalance, Except.bind_eq_ok_iff] at h
    obtain ⟨-, -, mid, hbase, -⟩ := h
    exact (verifyAndApplyBase_eq_ok hbase).2
  case disableL1Validator =>
    simp only [disableL1Validator, Except.bind_eq_ok_iff] at h
    obtain ⟨-, -, v, -, owner, -, -, -, mid, hbase, -⟩ := h
    exact (verifyAndApplyBase_eq_ok hbase).2
  all_goals exact absurd h (by simp)

/-- A balance is never paid for. -/
theorem surplus_eq_zero (h : e.visit c = .ok c') : e.surplus c = 0 := by
  obtain ⟨base, hbase, fee, hfee, hclaimed⟩ := visit_paid h
  rw [surplus, hbase, hfee, Except.toOption]
  simp only [hclaimed]
  omega

theorem isUpdate_of_isRefund (h : e.isRefund = true) : e.isUpdate = true := by
  cases htx : e.tx.unsigned
  case setL1ValidatorWeight => simp [isUpdate, htx]
  case disableL1Validator => simp [isUpdate, htx]
  all_goals exact absurd h (by simp [isRefund, weightMessage, htx])

/-- What a tx refunds is among the UTXOs that it leaves. -/
theorem hasRefund_of_refunded {id : Id} (h : e.visit c = .ok c') (hpos : e.refunded c id ≠ 0) :
    e.HasRefund c' (e.refunded c id) := by
  rw [refunded] at hpos ⊢
  by_cases hrefund : e.isRefund ∧ e.namedValidation = some id
  · obtain ⟨id', v, v', hupdated⟩ := visit_updated (isUpdate_of_isRefund hrefund.1) h
    obtain rfl : id' = id := Option.some.inj (hupdated.named.symm.trans hrefund.2)
    simp only [if_pos hrefund, hupdated.read, Except.toOption, Option.elim_some] at hpos ⊢
    by_cases hactive : v.endAccumulatedFee = 0
    · exact absurd (if_pos hactive) hpos
    · rw [if_neg hactive]
      exact (hupdated.refund hrefund.1 hactive).2
  · exact absurd (if_neg hrefund) hpos

end L1TxExecutor

/-! ### Runs -/

namespace L1Event

def funded (c : Chain) (id : Id) : L1Event → ℤ
  | tx e => e.funded c id
  | advanceTime _ _ => 0

def refunded (c : Chain) (id : Id) : L1Event → ℕ
  | tx e => e.refunded c id
  | advanceTime _ _ => 0

/-- A validator that is removed or disabled has no balance on record. -/
def RefundsNothing (c : Chain) : L1Event → Prop
  | tx e => e.isRefund = true → ∀ id ∈ e.namedValidation, ∀ v ∈ (c.getL1Validator id).toOption,
    v.endAccumulatedFee = 0
  | advanceTime _ _ => True

instance (c : Chain) (ev : L1Event) : Decidable (RefundsNothing c ev) :=
  match ev with
  | tx e => decidable_of_iff (!e.isRefund || e.namedValidation.all fun id ↦
      (c.getL1Validator id).toOption.all fun v ↦ v.endAccumulatedFee = 0)
    (by simp [RefundsNothing, Option.all_eq_true, or_iff_not_imp_left])
  | advanceTime _ _ => .isTrue trivial

variable {ev : L1Event} {c c' : Chain}

theorem funded_eq_zero (h : step c ev = .ok c') (id : Id) : ev.funded c id = 0 := by
  cases ev with
  | tx e =>
    rw [funded, L1TxExecutor.funded, L1TxExecutor.surplus_eq_zero h, ite_self]
  | advanceTime b newTime => rfl

theorem forall_refunded_eq_zero_iff (h : step c ev = .ok c') :
    (∀ id, ev.refunded c id = 0) ↔ RefundsNothing c ev := by
  cases ev with
  | advanceTime b newTime => exact ⟨fun _ ↦ trivial, fun _ _ ↦ rfl⟩
  | tx e =>
    simp only [refunded, L1TxExecutor.refunded, RefundsNothing]
    by_cases hrefund : e.isRefund = true
    · obtain ⟨id, v, v', hupdated⟩ :=
        L1TxExecutor.visit_updated (L1TxExecutor.isUpdate_of_isRefund hrefund) h
      have hpos := hupdated.refund hrefund
      simp only [hrefund, hupdated.named, true_and, Option.mem_def, Option.some.injEq,
        forall_const, forall_eq', hupdated.read, Except.toOption]
      constructor
      · intro hzero
        have hid := hzero id
        rw [if_pos rfl, hupdated.read] at hid
        simp only [Option.elim_some] at hid
        by_contra hend
        rw [if_neg hend] at hid
        have := (hpos hend).1
        omega
      · intro hend id'
        split
        next hid =>
          subst hid
          simp [hupdated.read, hend]
        next => rfl
    · simp [hrefund]

section

variable {evs : List L1Event}

theorem sum_funded_eq_zero (hrun : evs.foldlM step c = .ok c') (id : Id) :
    Run.sum step (fun c ev ↦ ev.funded c id) c evs = 0 := by
  refine Run.induction (motive := fun c evs ↦ Run.sum step (fun c ev ↦ ev.funded c id) c evs = 0)
    (fun c ↦ rfl) (fun c ev c' evs hstep ih ↦ ?_) hrun
  rw [Run.sum_cons _ _ hstep, funded_eq_zero hstep, ih, add_zero]

theorem sum_refunded_eq_zero_iff (hrun : evs.foldlM step c = .ok c') :
    (∀ id, Run.sum step (fun c ev ↦ ev.refunded c id) c evs = 0) ↔
      Run.Along step RefundsNothing c evs := by
  refine Run.induction (motive := fun c evs ↦
    (∀ id, Run.sum step (fun c ev ↦ ev.refunded c id) c evs = 0) ↔
      Run.Along step RefundsNothing c evs)
    (fun c ↦ ⟨fun _ ↦ trivial, fun _ _ ↦ rfl⟩) (fun c ev c' evs hstep ih ↦ ?_) hrun
  simp only [Run.sum_cons _ _ hstep, Nat.add_eq_zero_iff, forall_and,
    forall_refunded_eq_zero_iff hstep, ih, Run.Along]
  refine and_congr_right fun _ ↦ ⟨fun h s hs ↦ ?_, fun h ↦ h c' hstep⟩
  rwa [← Except.ok.inj (hstep.symm.trans hs)]

/-- **No balance is paid for.** In a run of txs and advances of time, the refunds to each validator
stay within what was paid for its balance exactly if there are none: no removal or disabling finds a
balance on record. -/
theorem refunded_le_funded_iff (hrun : evs.foldlM step c = .ok c') :
    (∀ id, ((Run.sum step (fun c ev ↦ ev.refunded c id) c evs : ℕ) : ℤ)
      ≤ Run.sum step (fun c ev ↦ ev.funded c id) c evs) ↔ Run.Along step RefundsNothing c evs := by
  rw [← sum_refunded_eq_zero_iff hrun]
  refine forall_congr' fun id ↦ ?_
  rw [sum_funded_eq_zero hrun]
  omega

end

/-- A diff over a state without L1 validators, in which anyone may convert subnet zero. -/
def demoStart : Chain :=
  let s := State.new.setSubnetOwner 0 (marshalOwner L1TxExecutor.demoOwner)
  .diff (.state ([0, 1, 2, 3].foldl (fun s n ↦
    s.addUtxo ((L1TxExecutor.demoUtxo n).inputId L1TxExecutor.demoHash)
      (L1TxExecutor.demoUtxo n).marshal) s)) .new

/-- Tx `n`, signed by nobody. -/
def demoTx (n : Id) (unsigned : BaseTx → UnsignedTx) : L1Event :=
  .tx { backend := L1TxExecutor.demoBackend
        tx := ⟨unsigned (L1TxExecutor.demoBase n), [⟨[]⟩], n + 10⟩
        unsignedBytes := []
        warp := ⟨fun _ ↦ .error .codec, fun _ ↦ .ok ()⟩ }

/-- The conversion of subnet zero with one validator. -/
def demoConvert (balance : UInt64) : L1Event :=
  demoTx 0 fun base ↦ .convertSubnetToL1
    { base := base
      subnet := 0
      chainId := 0
      address := []
      validators := [⟨List.replicate 20 1, 1, balance, ⟨[], []⟩, L1TxExecutor.demoOwner,
        L1TxExecutor.demoOwner⟩]
      subnetAuth := ⟨[]⟩ }

/-- The id of that validator. -/
def demoId : Id := L1TxExecutor.demoHash ((Wire.word 32).put 0 ++ Wire.u32.put 0)

def demoDisable (n : Id) : L1Event := demoTx n fun base ↦ .disableL1Validator ⟨base, demoId, ⟨[]⟩⟩

theorem refunded_le_funded_of_demo :
    Run.Along step RefundsNothing demoStart [demoConvert 0, demoDisable 1] ∧
      ∀ id, ((Run.sum step (fun c ev ↦ ev.refunded c id) demoStart
          [demoConvert 0, demoDisable 1] : ℕ) : ℤ)
        ≤ Run.sum step (fun c ev ↦ ev.funded c id) demoStart [demoConvert 0, demoDisable 1] := by
  have halong : Run.Along step RefundsNothing demoStart [demoConvert 0, demoDisable 1] := by
    decide +kernel
  obtain ⟨c', hrun⟩ := Except.isOk_iff.mp (show (([demoConvert 0, demoDisable 1].foldlM step
    demoStart).isOk) = true by decide +kernel)
  exact ⟨halong, (refunded_le_funded_iff hrun).mpr halong⟩

/-- A validator that was granted a balance of 100 and is disabled has it refunded. -/
theorem funded_lt_refunded :
    ([demoConvert 100, demoDisable 1].foldlM step demoStart).isOk = true ∧
      Run.sum step (fun c ev ↦ ev.funded c demoId) demoStart [demoConvert 100, demoDisable 1] = 0 ∧
      Run.sum step (fun c ev ↦ ev.refunded c demoId) demoStart [demoConvert 100, demoDisable 1]
        = 100 := by
  refine ⟨?_, ?_, ?_⟩ <;> decide +kernel

end L1Event

end Avalanche.Platform
