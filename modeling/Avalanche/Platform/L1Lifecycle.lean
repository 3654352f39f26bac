import Avalanche.Library.Run
import Avalanche.Platform.L1Executor

/-!
# Nonces and removals of L1 validators

What the txs on an L1 validator do to its record, and what follows for the messages that set its
weight. A removed validator keeps its record, with weight zero, and the executors go on reading it;
its last nonce is not used up when it is the greatest one. As long as a removed validator is named
by outdated messages only, the nonces of its messages grow and the removal is the end of it.
-/

namespace Avalanche.Platform

/-! ### Records -/

/-- A removed validator has weight zero, and has been sent a message. -/
def L1Validator.Removed (v : L1Validator) : Prop := v.weight = 0 ∧ v.minNonce ≠ 0

instance : DecidablePred L1Validator.Removed := fun v ↦
  inferInstanceAs (Decidable (v.weight = 0 ∧ v.minNonce ≠ 0))

/-- The write is one to the L1 validators or their fees. -/
def Mutation.writesL1 : Mutation → Bool
  | putL1Validator _ | setAccruedFees _ => true
  | _ => false

/-- A check that comes before a result. -/
theorem ite_eq_iff_of_error {α : Type} {p : Prop} [Decidable p] {e : Error} {x : Except Error α}
    {a : α} : (if p then .error e else x) = .ok a ↔ ¬p ∧ x = .ok a := by
  by_cases h : p <;> simp [h]

namespace Chain

theorem getL1Validator_putL1Validator (c : Chain) (v : L1Validator) (id : Id) :
    (c.putL1Validator v).getL1Validator id
      = if v.validationId = id then .ok v else c.getL1Validator id := by
  rcases c with s | ⟨parent, d⟩
  · simp only [putL1Validator, update, getL1Validator, State.getL1Validator, State.putL1Validator,
      TreeMap.getElem?_insert_eq]
    split <;> rfl
  · simp only [putL1Validator, update, getL1Validator, Diff.putL1Validator,
      TreeMap.getElem?_insert_eq]
    by_cases h : v.validationId = id
    · rw [if_pos h, if_pos h]
    · rw [if_neg h, if_neg h]

/-- A record is found under its id. -/
theorem validationId_of_getL1Validator {c : Chain} {id : Id} {v : L1Validator}
    (h : c.getL1Validator id = .ok v) : v.validationId = id := by
  induction c with
  | state s => exact s.l1Validators_keyed id v (orError_eq_ok_iff.mp h)
  | diff parent d ih =>
    rw [getL1Validator] at h
    rcases hd : d.l1Validators[id]? with - | w
    · rw [hd] at h
      exact ih h
    · rw [hd] at h
      exact Except.ok.inj h ▸ d.l1Validators_keyed id w hd

/-- The chains hold the same L1 validators and the same fees. -/
structure SameL1 (c c' : Chain) : Prop where
  getL1Validator : c'.getL1Validator = c.getL1Validator
  accruedFees : c'.accruedFees = c.accruedFees

theorem SameL1.refl (c : Chain) : c.SameL1 c := ⟨rfl, rfl⟩

theorem SameL1.trans {c₁ c₂ c₃ : Chain} (h₁ : c₁.SameL1 c₂) (h₂ : c₂.SameL1 c₃) : c₁.SameL1 c₃ :=
  ⟨h₂.getL1Validator.trans h₁.getL1Validator, h₂.accruedFees.trans h₁.accruedFees⟩

/-- A write to a state or into a diff that may fail and leaves the L1 validators alone. -/
theorem sameL1_updateM {f : State → Except Error State} {g : Diff → Except Error Diff}
    (hf : ∀ s s', f s = .ok s' → s'.l1Validators = s.l1Validators ∧ s'.accruedFees = s.accruedFees)
    (hg : ∀ d d', g d = .ok d' → d'.l1Validators = d.l1Validators ∧ d'.accruedFees = d.accruedFees)
    {c c' : Chain} (h : c.updateM f g = .ok c') : c.SameL1 c' := by
  rcases c with s | ⟨parent, d⟩ <;> rw [updateM, Except.map_eq_ok_iff] at h
  · obtain ⟨s', hs, rfl⟩ := h
    obtain ⟨hl1, hfees⟩ := hf s s' hs
    exact ⟨funext fun id ↦ by simp only [getL1Validator, State.getL1Validator, hl1], hfees⟩
  · obtain ⟨d', hd, rfl⟩ := h
    obtain ⟨hl1, hfees⟩ := hg d d' hd
    exact ⟨funext fun id ↦ by simp only [getL1Validator, hl1], by simp only [accruedFees, hfees]⟩

/-- Only two of the writes are to the L1 validators and their fees. -/
theorem sameL1_mutate {c c' : Chain} {m : Mutation} (hm : m.writesL1 = false)
    (h : c.mutate m = .ok c') : c.SameL1 c' := by
  cases m
  case setAccruedFees => cases hm
  case putL1Validator => cases hm
  case putCurrentValidator =>
    refine sameL1_updateM (fun s s' hs ↦ ?_) (fun d d' hd ↦ ?_) h
    · simp only [State.putCurrentValidator, ite_eq_iff_of_error, Except.ok.injEq] at hs
      exact hs.2 ▸ ⟨rfl, rfl⟩
    · simp only [Diff.putCurrentValidator, ite_eq_iff_of_error, Except.ok.injEq] at hd
      exact hd.2 ▸ ⟨rfl, rfl⟩
  case putPendingValidator =>
    refine sameL1_updateM (fun s s' hs ↦ ?_) (fun d d' hd ↦ ?_) h
    · simp only [State.putPendingValidator, ite_eq_iff_of_error, Except.ok.injEq] at hs
      exact hs.2 ▸ ⟨rfl, rfl⟩
    · simp only [Diff.putPendingValidator, ite_eq_iff_of_error, Except.ok.injEq] at hd
      exact hd.2 ▸ ⟨rfl, rfl⟩
  case setStakingInfo =>
    refine sameL1_updateM (fun s s' hs ↦ ?_) (fun d d' hd ↦ ?_) h
    · simp only [State.setStakingInfo, Except.bind_eq_ok_iff, Except.ok.injEq] at hs
      obtain ⟨x, -, rfl⟩ := hs
      exact ⟨rfl, rfl⟩
    · simp only [Except.bind_eq_ok_iff, Except.ok.injEq] at hd
      obtain ⟨x, -, rfl⟩ := hd
      exact ⟨rfl, rfl⟩
  all_goals
    obtain rfl := Except.ok.inj h
    rcases c with s | ⟨parent, d⟩ <;> exact ⟨rfl, rfl⟩

theorem accruedFees_putL1Validator (c : Chain) (v : L1Validator) :
    (c.putL1Validator v).accruedFees = c.accruedFees := by
  rcases c with s | ⟨parent, d⟩ <;> rfl

theorem getUtxo_addUtxo (c : Chain) (id : Id) (utxo : Bytes) :
    (c.addUtxo id utxo).getUtxo id = .ok utxo := by
  rcases c with s | ⟨parent, d⟩
  · simp [addUtxo, update, getUtxo, State.getUtxo, State.addUtxo, State.found, orError]
  · simp [addUtxo, update, getUtxo, Diff.addUtxo]

theorem getUtxo_putL1Validator (c : Chain) (v : L1Validator) (id : Id) :
    (c.putL1Validator v).getUtxo id = c.getUtxo id := by
  rcases c with s | ⟨parent, d⟩ <;> rfl

end Chain

namespace L1TxExecutor

variable {e : L1TxExecutor} {c c' : Chain}

/-! ### What the handlers do -/

theorem verifyAndApplyBase_eq_ok {base : BaseTx} (h : e.verifyAndApplyBase c base = .ok c') :
    c.SameL1 c' ∧
      ∃ fee, e.backend.fee c = .ok fee ∧ claimed base.ins = fee + amountOf base.outs := by
  simp only [verifyAndApplyBase, Except.bind_eq_ok_iff] at h
  obtain ⟨fee, hfee, ⟨⟩, hspend, hexchange⟩ := h
  exact ⟨Backend.consumeProduce_inv (I := c.SameL1)
    (fun _ id utxo h ↦ h.trans (Chain.sameL1_mutate (m := .addUtxo id utxo) rfl rfl))
    (fun _ id h ↦ h.trans (Chain.sameL1_mutate (m := .deleteUtxo id) rfl rfl)) (.refl c) hexchange,
    fee, hfee, (Backend.verifySpend_eq_ok hspend).2.2⟩

/-- Among the UTXOs is a refund of `amount` by the tx. -/
def HasRefund (e : L1TxExecutor) (c : Chain) (amount : ℕ) : Prop :=
  ∃ index owner, (e.refundUtxo index owner amount).out.amount.toNat = amount ∧
    c.getUtxo ((e.refundUtxo index owner amount).inputId e.backend.sha256)
      = .ok (e.refundUtxo index owner amount).marshal

theorem HasRefund.putL1Validator {amount : ℕ} (h : e.HasRefund c amount) (v : L1Validator) :
    e.HasRefund (c.putL1Validator v) amount := by
  obtain ⟨index, owner, hamount, hutxo⟩ := h
  exact ⟨index, owner, hamount, by rw [Chain.getUtxo_putL1Validator, hutxo]⟩

theorem refund_eq_ok {v : L1Validator} {outs : List TransferableOutput}
    (h : e.refund c v outs = .ok c') :
    c.SameL1 c' ∧ c.accruedFees < v.endAccumulatedFee.toNat ∧
      e.HasRefund c' (v.endAccumulatedFee.toNat - c.accruedFees) := by
  simp only [refund, Except.bind_eq_ok_iff, require_eq_ok_iff, Except.ok.injEq] at h
  obtain ⟨owner, -, -, hfees, -, -, rfl⟩ := h
  refine ⟨Chain.sameL1_mutate (m := .addUtxo _ _) rfl rfl, Nat.lt_of_not_le hfees, _, owner, ?_,
    Chain.getUtxo_addUtxo _ _ _⟩
  exact UInt64.toNat_ofNat_of_le ((Nat.sub_le _ _).trans (UInt64.toNat_le_u64Max _))

theorem removeL1Validator_eq_ok {v : L1Validator} {outs : List TransferableOutput}
    (h : e.removeL1Validator c v outs = .ok c') :
    c.SameL1 c' ∧ (v.endAccumulatedFee ≠ 0 → c.accruedFees < v.endAccumulatedFee.toNat ∧
      e.HasRefund c' (v.endAccumulatedFee.toNat - c.accruedFees)) := by
  simp only [removeL1Validator, Except.bind_eq_ok_iff] at h
  obtain ⟨-, -, -, -, h⟩ := h
  by_cases hactive : v.endAccumulatedFee ≠ 0
  · rw [if_pos hactive] at h
    exact (refund_eq_ok h).imp_right fun hrefund _ ↦ hrefund
  · rw [if_neg hactive] at h
    exact ⟨Except.ok.inj h ▸ .refl c, fun h ↦ absurd h hactive⟩

/-- The weight message that a tx carries, if it is one and passes its checks. -/
def weightMessage (e : L1TxExecutor) : Option L1ValidatorWeight :=
  match e.tx.unsigned with
  | .setL1ValidatorWeight tx =>
    match (e.warp.verifyWarpMessage tx.message).toOption.map ParsedWarp.payload with
    | some (.l1ValidatorWeight msg) => some msg
    | _ => none
  | _ => none

/-- The validator that a tx is about. -/
def namedValidation (e : L1TxExecutor) : Option Id :=
  match e.tx.unsigned with
  | .increaseL1ValidatorBalance tx => some tx.validationId
  | .disableL1Validator tx => some tx.validationId
  | _ => e.weightMessage.map L1ValidatorWeight.validationId

/-- The txs on a validator that exists. -/
def isUpdate (e : L1TxExecutor) : Bool :=
  match e.tx.unsigned with
  | .setL1ValidatorWeight _ => true
  | .increaseL1ValidatorBalance _ => true
  | .disableL1Validator _ => true
  | _ => false

/-- A removal or a disabling. -/
def isRefund (e : L1TxExecutor) : Bool :=
  match e.tx.unsigned with
  | .disableL1Validator _ => true
  | _ => e.weightMessage.any fun msg ↦ msg.weight = 0

/-- Where the fees of a validator end after the tx. -/
def endFeeAfter (e : L1TxExecutor) (accruedFees : ℕ) (v : L1Validator) : ℕ :=
  match e.tx.unsigned with
  | .increaseL1ValidatorBalance tx =>
    (if v.endAccumulatedFee = 0 then accruedFees else v.endAccumulatedFee.toNat) + tx.balance.toNat
  | .disableL1Validator _ => 0
  | _ => v.endAccumulatedFee.toNat

/-- A tx has replaced the record `v` of the validator it names by `v'`. -/
structure Updated (e : L1TxExecutor) (c c' : Chain) (id : Id) (v v' : L1Validator) : Prop where
  named : e.namedValidation = some id
  read : c.getL1Validator id = .ok v
  write : ∀ k, c'.getL1Validator k = if id = k then .ok v' else c.getL1Validator k
  /-- A weight message is for a nonce that has not been passed, and goes past it. -/
  message : ∀ msg, e.weightMessage = some msg →
    v.minNonce ≤ msg.nonce ∧ v'.minNonce = UInt64.ofNat (saturatingAdd msg.nonce.toNat 1) ∧
      v'.weight = msg.weight ∧ (msg.nonce = UInt64.ofNat u64Max → msg.weight = 0)
  other : e.weightMessage = none → v'.minNonce = v.minNonce ∧ v'.weight = v.weight
  accruedFees : c'.accruedFees = c.accruedFees
  endFee : v'.endAccumulatedFee.toNat = e.endFeeAfter c.accruedFees v
  /-- What the validator has not used of its balance is refunded. -/
  refund : e.isRefund = true → v.endAccumulatedFee ≠ 0 →
    c.accruedFees < v.endAccumulatedFee.toNat ∧
      e.HasRefund c' (v.endAccumulatedFee.toNat - c.accruedFees)

/-- Putting a changed record of a validator that was there. -/
theorem write_of_put {id : Id} {v v' : L1Validator} {mid : Chain}
    (hmid : c.SameL1 mid) (hread : c.getL1Validator id = .ok v)
    (hv : v'.validationId = v.validationId) (k : Id) :
    (mid.putL1Validator v').getL1Validator k = if id = k then .ok v' else c.getL1Validator k := by
  rw [Chain.getL1Validator_putL1Validator, hmid.getL1Validator, hv,
    Chain.validationId_of_getL1Validator hread]

theorem accruedFees_of_put {mid : Chain} (hmid : c.SameL1 mid) (v : L1Validator) :
    (mid.putL1Validator v).accruedFees = c.accruedFees := by
  rw [Chain.accruedFees_putL1Validator, hmid.accruedFees]

theorem verify_of_verifyWarpMessage {warp : Warp} {message : Bytes} {parsed : ParsedWarp}
    (h : warp.verifyWarpMessage message = .ok parsed) : parsed.payload.verify = .ok () := by
  simp only [Warp.verifyWarpMessage, Except.bind_eq_ok_iff, Except.ok.injEq] at h
  obtain ⟨parsed', -, ⟨⟩, hverify, ⟨⟩, -, rfl⟩ := h
  exact hverify

theorem setL1ValidatorWeight_updated {tx : SetL1ValidatorWeightTx}
    (htx : e.tx.unsigned = .setL1ValidatorWeight tx) (h : e.setL1ValidatorWeight c tx = .ok c') :
    ∃ id v v', e.Updated c c' id v v' := by
  simp only [setL1ValidatorWeight, Except.bind_eq_ok_iff] at h
  obtain ⟨-, -, mid, hbase, parsed, hparsed, h⟩ := h
  rcases hpayload : parsed.payload with _ | msg | _ <;> rw [hpayload] at h
  case l1ValidatorWeight =>
    simp only [Except.bind_eq_ok_iff, require_eq_ok_iff, Except.mapError_eq_ok_iff] at h
    obtain ⟨v, hread, ⟨⟩, hnonce, ⟨⟩, -, h⟩ := h
    have hmid := (verifyAndApplyBase_eq_ok hbase).1
    obtain ⟨mid', hmid', hrefund, rfl⟩ : ∃ mid', mid.SameL1 mid' ∧
        (msg.weight = 0 → v.endAccumulatedFee ≠ 0 → mid.accruedFees < v.endAccumulatedFee.toNat ∧
          e.HasRefund mid' (v.endAccumulatedFee.toNat - mid.accruedFees)) ∧
        mid'.putL1Validator { v with
          minNonce := UInt64.ofNat (saturatingAdd msg.nonce.toNat 1)
          weight := msg.weight } = c' := by
      by_cases hweight : msg.weight = 0
      · rw [if_pos hweight, Except.bind_eq_ok_iff] at h
        obtain ⟨mid', hremove, hput⟩ := h
        obtain ⟨hmid', hrefund⟩ := removeL1Validator_eq_ok hremove
        exact ⟨mid', hmid', fun _ ↦ hrefund, Except.ok.inj hput⟩
      · rw [if_neg hweight] at h
        exact ⟨mid, .refl mid, fun h ↦ absurd h hweight, Except.ok.inj h⟩
    have hmsg : e.weightMessage = some msg := by
      simp [weightMessage, htx, hparsed, hpayload, Except.toOption]
    rw [hmid.getL1Validator] at hread
    have hverify := verify_of_verifyWarpMessage hparsed
    rw [hpayload, RegistryPayload.verify, L1ValidatorWeight.verify, require_eq_ok_iff] at hverify
    exact ⟨msg.validationId, v, _,
      { named := by simp [namedValidation, htx, hmsg]
        read := hread
        write := write_of_put (hmid.trans hmid') hread rfl
        message := fun msg' hmsg' ↦ by
          cases hmsg.symm.trans hmsg'
          exact ⟨UInt64.not_lt.mp hnonce, rfl, rfl, fun hlast ↦
            Classical.byContradiction fun hweight ↦ hverify ⟨hlast, hweight⟩⟩
        other := fun hnone ↦ absurd (hmsg.symm.trans hnone) (Option.some_ne_none msg)
        accruedFees := accruedFees_of_put (hmid.trans hmid') _
        endFee := by simp [endFeeAfter, htx]
        refund := fun hremoval hactive ↦ by
          have hweight : msg.weight = 0 := by simpa [isRefund, htx, hmsg] using hremoval
          obtain ⟨hfees, hrefund⟩ := hrefund hweight hactive
          rw [hmid.accruedFees] at hfees hrefund
          exact ⟨hfees, hrefund.putL1Validator _⟩ }⟩
  all_goals exact absurd h (by simp)

theorem increaseL1ValidatorBalance_updated {tx : IncreaseL1ValidatorBalanceTx}
    (htx : e.tx.unsigned = .increaseL1ValidatorBalance tx)
    (h : e.increaseL1ValidatorBalance c tx = .ok c') : ∃ id v v', e.Updated c c' id v v' := by
  simp only [increaseL1ValidatorBalance, Except.bind_eq_ok_iff, orError_eq_ok_iff,
    checkedAdd_eq_some_iff, Except.ok.injEq] at h
  obtain ⟨-, -, mid, hbase, v, hread, fee, ⟨hle, rfl⟩, rfl⟩ := h
  have hmid := (verifyAndApplyBase_eq_ok hbase).1
  rw [hmid.getL1Validator] at hread
  rw [hmid.accruedFees] at hle
  exact ⟨tx.validationId, v, _,
    { named := by simp [namedValidation, htx]
      read := hread
      write := write_of_put hmid hread rfl
      message := fun msg hmsg ↦ absurd hmsg (by simp [weightMessage, htx])
      other := fun _ ↦ ⟨rfl, rfl⟩
      accruedFees := accruedFees_of_put hmid _
      endFee := by
        rw [hmid.accruedFees]
        simpa [endFeeAfter, htx] using UInt64.toNat_ofNat_of_le hle
      refund := fun hremoval ↦ absurd hremoval (by simp [isRefund, htx, weightMessage]) }⟩

theorem disableL1Validator_updated {tx : DisableL1ValidatorTx}
    (htx : e.tx.unsigned = .disableL1Validator tx) (h : e.disableL1Validator c tx = .ok c') :
    ∃ id v v', e.Updated c c' id v v' := by
  simp only [disableL1Validator, Except.bind_eq_ok_iff, Except.mapError_eq_ok_iff] at h
  obtain ⟨-, -, v, hread, owner, -, -, -, mid, hbase, h⟩ := h
  have hmid := (verifyAndApplyBase_eq_ok hbase).1
  have hnone : ∀ msg, e.weightMessage = some msg → False := fun msg hmsg ↦
    absurd hmsg (by simp [weightMessage, htx])
  by_cases hactive : v.endAccumulatedFee = 0
  · rw [if_pos hactive, Except.ok.injEq] at h
    subst h
    refine ⟨tx.validationId, v, v,
      { named := by simp [namedValidation, htx]
        read := hread
        write := fun k ↦ ?_
        message := fun msg hmsg ↦ (hnone msg hmsg).elim
        other := fun _ ↦ ⟨rfl, rfl⟩
        accruedFees := hmid.accruedFees
        endFee := by simp [endFeeAfter, htx, hactive]
        refund := fun _ h ↦ absurd hactive h }⟩
    rw [hmid.getL1Validator]
    by_cases hk : tx.validationId = k
    · rw [if_pos hk, ← hk, hread]
    · rw [if_neg hk]
  · rw [if_neg hactive] at h
    simp only [Except.bind_eq_ok_iff, Except.ok.injEq] at h
    obtain ⟨mid', hrefund, rfl⟩ := h
    obtain ⟨hmid', hfees, hrefund⟩ := refund_eq_ok hrefund
    rw [hmid.accruedFees] at hfees hrefund
    exact ⟨tx.validationId, v, _,
      { named := by simp [namedValidation, htx]
        read := hread
        write := write_of_put (hmid.trans hmid') hread rfl
        message := fun msg hmsg ↦ (hnone msg hmsg).elim
        other := fun _ ↦ ⟨rfl, rfl⟩
        accruedFees := accruedFees_of_put (hmid.trans hmid') _
        endFee := by simp [endFeeAfter, htx]
        refund := fun _ _ ↦ ⟨hfees, hrefund.putL1Validator _⟩ }⟩

/-- Every tx on a validator replaces its record. -/
theorem visit_updated (hkind : e.isUpdate = true) (h : e.visit c = .ok c') :
    ∃ id v v', e.Updated c c' id v v' := by
  rw [visit] at h
  cases htx : e.tx.unsigned <;> rw [htx] at h <;> rw [isUpdate, htx] at hkind
  case setL1ValidatorWeight => exact setL1ValidatorWeight_updated htx h
  case increaseL1ValidatorBalance => exact increaseL1ValidatorBalance_updated htx h
  case disableL1Validator => exact disableL1Validator_updated htx h
  all_goals exact absurd hkind (by simp)

theorem namedValidation_of_weightMessage {msg : L1ValidatorWeight}
    (h : e.weightMessage = some msg) : e.namedValidation = some msg.validationId := by
  cases htx : e.tx.unsigned
  case setL1ValidatorWeight => simp [namedValidation, htx, h]
  all_goals exact absurd h (by simp [weightMessage, htx])

/-! ### One tx -/

namespace Updated

variable {id : Id} {v v' : L1Validator} {msg : L1ValidatorWeight}

theorem read_eq (h : e.Updated c c' id v v') : c'.getL1Validator id = .ok v' := by
  rw [h.write, if_pos rfl]

theorem id_eq (h : e.Updated c c' id v v') (hmsg : e.weightMessage = some msg) :
    msg.validationId = id :=
  Option.some.inj ((namedValidation_of_weightMessage hmsg).symm.trans h.named)

theorem toNat_minNonce (h : e.Updated c c' id v v') (hmsg : e.weightMessage = some msg) :
    v'.minNonce.toNat = min (msg.nonce.toNat + 1) u64Max := by
  rw [(h.message msg hmsg).2.1, UInt64.toNat_ofNat_of_le (saturatingAdd_le _ _), saturatingAdd]

theorem minNonce_le (h : e.Updated c c' id v v') : v.minNonce ≤ v'.minNonce := by
  rcases hmsg : e.weightMessage with - | msg
  · exact UInt64.le_of_eq (h.other hmsg).1.symm
  · have hnonce := UInt64.le_iff_toNat_le.mp (h.message msg hmsg).1
    have hlast := UInt64.toNat_le_u64Max msg.nonce
    rw [UInt64.le_iff_toNat_le, h.toNat_minNonce hmsg]
    omega

/-- The next nonce is past that of the message, unless the message has used the last one. -/
theorem nonce_lt (h : e.Updated c c' id v v') (hmsg : e.weightMessage = some msg)
    (hweight : msg.weight ≠ 0) : msg.nonce < v'.minNonce := by
  have hlast : msg.nonce.toNat ≠ u64Max := fun hlast ↦
    hweight ((h.message msg hmsg).2.2.2 (by rw [← hlast, UInt64.ofNat_toNat]))
  have hle := UInt64.toNat_le_u64Max msg.nonce
  rw [UInt64.lt_iff_toNat_lt, h.toNat_minNonce hmsg]
  omega

end Updated

/-! ### Runs -/

def step (c : Chain) (e : L1TxExecutor) : Except Error Chain := e.visit c

/-- The tx does not name a removed validator. -/
def NamesUnremoved (c : Chain) (e : L1TxExecutor) : Prop :=
  ∀ id ∈ e.namedValidation, ∀ v ∈ (c.getL1Validator id).toOption, ¬v.Removed

theorem Updated.removed {id : Id} {v v' : L1Validator} {msg : L1ValidatorWeight}
    (h : e.Updated c c' id v v') (hmsg : e.weightMessage = some msg) (hweight : msg.weight = 0) :
    v'.Removed := by
  refine ⟨(h.message msg hmsg).2.2.1.trans hweight, fun hzero ↦ ?_⟩
  have hnonce := h.toNat_minNonce hmsg
  rw [hzero, UInt64.toNat_zero, u64Max_eq] at hnonce
  omega

section

variable {es : List L1TxExecutor}

/-- No tx of such a run is about a validator that is removed already. -/
theorem unnamed_of_removed (hrun : es.foldlM step c = .ok c')
    (hkind : ∀ e ∈ es, e.isUpdate = true)
    (halong : Run.Along step NamesUnremoved c es) {id : Id} {v : L1Validator}
    (hread : c.getL1Validator id = .ok v) (hremoved : v.Removed) :
    ∀ e ∈ es, e.namedValidation ≠ some id := by
  revert hkind halong hread
  refine Run.induction (motive := fun c es ↦ (∀ e ∈ es, e.isUpdate = true) →
    Run.Along step NamesUnremoved c es → c.getL1Validator id = .ok v →
      ∀ e ∈ es, e.namedValidation ≠ some id) (fun c _ _ _ e he ↦ by simp at he) ?_ hrun
  intro c e c' es hstep ih hkind halong hread
  have hother : e.namedValidation ≠ some id := fun hnamed ↦
    halong.1 id hnamed v (Except.toOption_eq_some_iff.mpr hread) hremoved
  obtain ⟨id', w, w', hupdated⟩ := visit_updated (hkind e (by simp)) hstep
  have hid : id' ≠ id := fun hid ↦ hother (hid ▸ hupdated.named)
  have hrest := ih (fun e he ↦ hkind e (by simp [he])) (halong.2 c' hstep)
    (by rw [hupdated.write, if_neg hid, hread])
  exact List.forall_mem_cons.mpr ⟨hother, hrest⟩

/-- The messages of a run carry nonces that were not passed before it. -/
theorem minNonce_le_of_run (hrun : es.foldlM step c = .ok c')
    (hkind : ∀ e ∈ es, e.isUpdate = true) {id : Id} {v : L1Validator}
    (hread : c.getL1Validator id = .ok v) :
    ∀ e ∈ es, ∀ msg, e.weightMessage = some msg → msg.validationId = id →
      v.minNonce ≤ msg.nonce := by
  revert hkind v
  refine Run.induction (motive := fun c es ↦ (∀ e ∈ es, e.isUpdate = true) →
    ∀ {v : L1Validator}, c.getL1Validator id = .ok v → ∀ e ∈ es, ∀ msg,
      e.weightMessage = some msg → msg.validationId = id → v.minNonce ≤ msg.nonce)
    (fun c _ _ _ e he ↦ by simp at he) ?_ hrun
  intro c e c' es hstep ih hkind v hread
  obtain ⟨id', w, w', hupdated⟩ := visit_updated (hkind e (by simp)) hstep
  refine List.forall_mem_cons.mpr ⟨fun msg hmsg hid ↦ ?_, ?_⟩
  · obtain rfl : id' = id := (hupdated.id_eq hmsg).symm.trans hid
    obtain rfl := Except.ok.inj (hupdated.read.symm.trans hread)
    exact (hupdated.message msg hmsg).1
  · have hkind' : ∀ e ∈ es, e.isUpdate = true := fun e he ↦ hkind e (by simp [he])
    by_cases hid : id' = id
    · subst hid
      obtain rfl := Except.ok.inj (hupdated.read.symm.trans hread)
      exact fun e he msg hmsg hid ↦
        UInt64.le_trans hupdated.minNonce_le (ih hkind' hupdated.read_eq e he msg hmsg hid)
    · exact ih hkind' (by rw [hupdated.write, if_neg hid, hread])

/-- While no tx names a removed validator, the messages on a validator carry greater and greater
nonces, and none of the txs after a removal names the validator. -/
theorem pairwise_of_run (hrun : es.foldlM step c = .ok c')
    (hkind : ∀ e ∈ es, e.isUpdate = true)
    (halong : Run.Along step NamesUnremoved c es) :
    es.Pairwise fun e₁ e₂ ↦ ∀ m₁, e₁.weightMessage = some m₁ →
      (∀ m₂, e₂.weightMessage = some m₂ → m₂.validationId = m₁.validationId →
        m₁.nonce < m₂.nonce) ∧
      (m₁.weight = 0 → e₂.namedValidation ≠ some m₁.validationId) := by
  induction es generalizing c with
  | nil => exact .nil
  | cons e es ih =>
    obtain ⟨mid, hstep, hrest⟩ := Run.foldlM_cons_eq_ok_iff.mp hrun
    have hkind' : ∀ e ∈ es, e.isUpdate = true := fun e he ↦ hkind e (by simp [he])
    have halong' := halong.2 mid hstep
    refine .cons (fun e₂ he₂ m₁ hm₁ ↦ ?_) (ih hrest hkind' halong')
    obtain ⟨id, v, v', hupdated⟩ := visit_updated (hkind e (by simp)) hstep
    have hid := hupdated.id_eq hm₁
    -- a removal is the end; any other message leaves a nonce to go past
    have hremoval : m₁.weight = 0 → e₂.namedValidation ≠ some m₁.validationId := fun hweight ↦
      hid ▸ unnamed_of_removed hrest hkind' halong' hupdated.read_eq
        (hupdated.removed hm₁ hweight) e₂ he₂
    refine ⟨fun m₂ hm₂ hsame ↦ ?_, hremoval⟩
    have hweight : m₁.weight ≠ 0 := fun hweight ↦
      hremoval hweight (hsame ▸ namedValidation_of_weightMessage hm₂)
    exact UInt64.lt_of_lt_of_le (hupdated.nonce_lt hm₁ hweight)
      (minNonce_le_of_run hrest hkind' hupdated.read_eq e₂ he₂ m₂ hm₂ (hsame.trans hid))

end

/-! ### Attempts -/

/-- A tx that fails leaves the chain as it was. -/
def attempt (c : Chain) (e : L1TxExecutor) : Except Error Chain := .ok ((e.visit c).toOption.getD c)

/-- The txs of a sequence of attempts that execute. -/
def executed : Chain → List L1TxExecutor → List L1TxExecutor
  | _, [] => []
  | c, e :: es =>
    match e.visit c with
    | .ok c' => e :: executed c' es
    | .error _ => executed c es

/-- If the tx names a removed validator, it carries a message with a nonce that was passed. -/
def StaleIfRemoved (c : Chain) (e : L1TxExecutor) : Prop :=
  ∀ id ∈ e.namedValidation, ∀ v ∈ (c.getL1Validator id).toOption,
    v.Removed → ∃ msg ∈ e.weightMessage, msg.nonce < v.minNonce

instance (c : Chain) (e : L1TxExecutor) : Decidable (StaleIfRemoved c e) :=
  decidable_of_iff (e.namedValidation.all fun id ↦ (c.getL1Validator id).toOption.all fun v ↦
      !decide v.Removed || e.weightMessage.any fun msg ↦ msg.nonce < v.minNonce)
    (by simp [StaleIfRemoved, Option.all_eq_true, Option.any_eq_true, or_iff_not_imp_left])

/-- An outdated message is refused. -/
theorem namesUnremoved_of_visit (hkind : e.isUpdate = true) (hstale : StaleIfRemoved c e)
    (h : e.visit c = .ok c') : NamesUnremoved c e := by
  intro id hid v hv hremoved
  obtain ⟨msg, hmsg, hnonce⟩ := hstale id hid v hv hremoved
  obtain ⟨id', w, w', hupdated⟩ := visit_updated hkind h
  obtain rfl : id' = id := Option.some.inj (hupdated.named.symm.trans hid)
  obtain rfl := Except.ok.inj (hupdated.read.symm.trans (Except.toOption_eq_some_iff.mp hv))
  exact UInt64.not_lt.mpr (hupdated.message msg hmsg).1 hnonce

/-- What is executed is a run of its own. -/
theorem executed_run {es : List L1TxExecutor} (hkind : ∀ e ∈ es, e.isUpdate = true)
    (halong : Run.Along attempt StaleIfRemoved c es) :
    (∃ c', (executed c es).foldlM step c = .ok c') ∧ (∀ e ∈ executed c es, e.isUpdate = true) ∧
      Run.Along step NamesUnremoved c (executed c es) := by
  induction es generalizing c with
  | nil => exact ⟨⟨c, rfl⟩, by simp [executed], trivial⟩
  | cons e es ih =>
    have hkind' : ∀ e ∈ es, e.isUpdate = true := fun e he ↦ hkind e (by simp [he])
    have halong' := halong.2 _ rfl
    rcases hvisit : e.visit c with err | mid <;> rw [hvisit] at halong'
    · simp only [executed, hvisit]
      exact ih hkind' halong'
    · obtain ⟨⟨c', hrun⟩, hkinds, hunremoved⟩ := ih hkind' halong'
      simp only [executed, hvisit]
      refine ⟨⟨c', Run.foldlM_cons_eq_ok_iff.mpr ⟨mid, hvisit, hrun⟩⟩,
        List.forall_mem_cons.mpr ⟨hkind e (by simp), hkinds⟩,
        namesUnremoved_of_visit (hkind e (by simp)) halong.1 hvisit, fun mid' hmid' ↦ ?_⟩
      rwa [← Except.ok.inj (hvisit.symm.trans hmid')]

/-- **Nonces and removals.** Let any txs on L1 validators be tried one after the other. As long as
those that name a removed validator carry outdated messages, the messages executed for a validator
have greater and greater nonces, and no tx that is executed after a removal names the validator. -/
theorem pairwise_executed {es : List L1TxExecutor} (hkind : ∀ e ∈ es, e.isUpdate = true)
    (halong : Run.Along attempt StaleIfRemoved c es) :
    (executed c es).Pairwise fun e₁ e₂ ↦ ∀ m₁, e₁.weightMessage = some m₁ →
      (∀ m₂, e₂.weightMessage = some m₂ → m₂.validationId = m₁.validationId →
        m₁.nonce < m₂.nonce) ∧
      (m₁.weight = 0 → e₂.namedValidation ≠ some m₁.validationId) := by
  obtain ⟨⟨c', hrun⟩, hkinds, hunremoved⟩ := executed_run hkind halong
  exact pairwise_of_run hrun hkinds hunremoved

/-! ### A small network -/

/-- Some function of the bytes, where the node has a hash. -/
def demoHash (bytes : Bytes) : Id := BitVec.ofNat 256 (Wire.ofBe bytes % (2 ^ 256 - 189))

/-- All forks are active, and every key is one. -/
def demoBackend : Backend where
  upgrades := ⟨0⟩
  staking := ⟨⟨0, 0, 0, 0⟩⟩
  txFee := 0
  networkId := 1
  avaxAssetId := 7
  fx := ⟨0, true, fun _ _ ↦ none⟩
  bls := ⟨fun bytes ↦ some ⟨bytes⟩, fun _ _ _ ↦ true⟩
  sha256 := demoHash

/-- Nobody has to sign for it. -/
def demoOwner : PChainOwner := ⟨0, ⟨[], by norm_num⟩⟩

/-- UTXO `n` pays the fee of one tx. -/
def demoUtxo (n : Id) : Utxo := ⟨n, 0, 7, .transfer 58 demoOwner.owners⟩

def demoBase (n : Id) : BaseTx := ⟨[], [⟨n, 0, 7, .transfer 58 []⟩], []⟩

/-- An active validator of subnet zero, whose manager is at the empty address of chain zero. -/
def demoValidator (id : Id) : L1Validator where
  validationId := id
  subnetId := 0
  nodeId := 0
  publicKey := []
  remainingBalanceOwner := marshalOwner demoOwner
  deactivationOwner := marshalOwner demoOwner
  startTime := 0
  weight := 1
  minNonce := 0
  endAccumulatedFee := 100

/-- A diff over a state with two validators and the fees of three txs. -/
def demoChain : Chain :=
  let s := ((State.new.putL1Validator (demoValidator 1)).putL1Validator (demoValidator 2))
    |>.setSubnetManager 0 (Codec.marshal SubnetConversion.wire ⟨0, 0, ⟨[], by norm_num⟩⟩)
  .diff (.state ([0, 1, 2].foldl
    (fun s n ↦ s.addUtxo ((demoUtxo n).inputId demoHash) (demoUtxo n).marshal) s)) .new

/-- Tx `n`, which carries the weight message `msg`. -/
def demoSetWeight (n : Id) (msg : L1ValidatorWeight) : L1TxExecutor where
  backend := demoBackend
  tx := ⟨.setL1ValidatorWeight ⟨demoBase n, []⟩, [], n + 10⟩
  unsignedBytes := []
  warp := ⟨fun _ ↦ .ok ⟨0, [], .l1ValidatorWeight msg, []⟩, fun _ ↦ .ok ()⟩

/-- A change of weight, the removal, and the removal once more. -/
def demoAttempts : List L1TxExecutor :=
  [demoSetWeight 0 ⟨1, 3, 5⟩, demoSetWeight 1 ⟨1, 4, 0⟩, demoSetWeight 2 ⟨1, 4, 0⟩]

theorem pairwise_executed_demo :
    Run.Along attempt StaleIfRemoved demoChain demoAttempts ∧
      (executed demoChain demoAttempts).length = 2 ∧
      (executed demoChain demoAttempts).Pairwise fun e₁ e₂ ↦ ∀ m₁, e₁.weightMessage = some m₁ →
        (∀ m₂, e₂.weightMessage = some m₂ → m₂.validationId = m₁.validationId →
          m₁.nonce < m₂.nonce) ∧
        (m₁.weight = 0 → e₂.namedValidation ≠ some m₁.validationId) := by
  have halong : Run.Along attempt StaleIfRemoved demoChain demoAttempts := by decide +kernel
  exact ⟨halong, by decide +kernel, pairwise_executed (by decide) halong⟩

/-- A validator can be removed twice, by messages with the same nonce. -/
theorem visit_removed_again :
    ([demoSetWeight 0 ⟨1, UInt64.ofNat u64Max, 0⟩,
        demoSetWeight 1 ⟨1, UInt64.ofNat u64Max, 0⟩].foldlM step demoChain).isOk = true ∧
      (demoSetWeight 0 ⟨1, UInt64.ofNat u64Max, 0⟩).weightMessage
        = some ⟨1, UInt64.ofNat u64Max, 0⟩ ∧
      (demoSetWeight 1 ⟨1, UInt64.ofNat u64Max, 0⟩).weightMessage
        = some ⟨1, UInt64.ofNat u64Max, 0⟩ := by
  refine ⟨?_, ?_, ?_⟩ <;> decide +kernel

end L1TxExecutor

end Avalanche.Platform
