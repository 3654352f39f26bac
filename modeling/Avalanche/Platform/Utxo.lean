import Avalanche.Platform.Components
import Avalanche.Platform.Diff

/-!
# UTXOs

The UTXO set holds encoded UTXOs under the hash of the tx and index that made them. A tx takes those
it names out of the set and puts its outputs in; before that, the amounts its inputs claim are
compared with its outputs and its fee.

The hash is a parameter.
-/

namespace Avalanche.Platform

variable {outs : List TransferableOutput}

structure Utxo where
  txId : Id
  outputIndex : UInt32
  assetId : Id
  out : Output
deriving DecidableEq

namespace Utxo

def inputId (sha256 : Bytes → Id) (u : Utxo) : Id := utxoId sha256 u.txId u.outputIndex

def wire : Wire Utxo :=
  ((Wire.word 32).pair (Wire.u32.pair ((Wire.word 32).pair Output.wire))).map
    (fun p ↦ ⟨p.1, p.2.1, p.2.2.1, p.2.2.2⟩) (fun u ↦ (u.txId, u.outputIndex, u.assetId, u.out))
    fun _ ↦ rfl

def marshal (u : Utxo) : Bytes := Codec.marshal wire u

def unmarshal (bytes : Bytes) : Except Error Utxo := Codec.unmarshal wire bytes

end Utxo

/-- Output `index` of tx `txId`. -/
def TransferableOutput.utxo (txId : Id) (index : ℕ) (o : TransferableOutput) : Utxo :=
  ⟨txId, UInt32.ofNat index, o.assetId, o.out⟩

section

variable (sha256 : Bytes → Id)

def consume (c : Chain) (ins : List TransferableInput) : Chain :=
  ins.foldl (fun c i ↦ c.deleteUtxo (i.inputId sha256)) c

/-- The round of `produce` for one output. -/
def produceOne (txId : Id) (c : Chain) (p : TransferableOutput × ℕ) : Except Error Chain := do
  require (p.2 < 2 ^ 32) .overflow
  let utxo := p.1.utxo txId p.2
  .ok (c.addUtxo (utxo.inputId sha256) utxo.marshal)

def produce (c : Chain) (txId : Id) (outs : List TransferableOutput) : Except Error Chain :=
  outs.zipIdx.foldlM (produceOne sha256 txId) c

/-- The amount an input claims is added up, once its UTXO has been found. The amount of the UTXO is
not looked at. -/
def spendInput (c : Chain) (assetId : Id) (consumed : ℕ) (i : TransferableInput) :
    Except Error ℕ := do
  require (i.assetId = assetId) .invalidComponent
  let bytes ← c.getUtxo (i.inputId sha256)
  let utxo ← Utxo.unmarshal bytes
  require (utxo.assetId = assetId) .invalidComponent
  orError (checkedAdd consumed i.amount.toNat) .overflow

def spendOutput (assetId : Id) (produced : ℕ) (o : TransferableOutput) : Except Error ℕ := do
  require (o.assetId = assetId) .invalidComponent
  orError (checkedAdd produced o.amount.toNat) .overflow

def verifySpend (c : Chain) (ins : List TransferableInput) (outs : List TransferableOutput)
    (fee : ℕ) (assetId : Id) : Except Error Unit := do
  let consumed ← ins.foldlM (spendInput sha256 c assetId) 0
  let produced ← outs.foldlM (spendOutput assetId) fee
  require (¬produced ≠ consumed) .invalidComponent

end

/-! ### What the checks say -/

/-- The amount that inputs claim. -/
def claimed (ins : List TransferableInput) : ℕ := (ins.map (·.amount.toNat)).sum

/-- The amount of outputs. -/
def amountOf (outs : List TransferableOutput) : ℕ := (outs.map (·.amount.toNat)).sum

variable {sha256 : Bytes → Id} {c : Chain} {assetId : Id}

/-- An input whose UTXO is there, of the asset. -/
def Spendable (sha256 : Bytes → Id) (c : Chain) (assetId : Id) (i : TransferableInput) : Prop :=
  ∃ bytes utxo, c.getUtxo (i.inputId sha256) = .ok bytes ∧ Utxo.unmarshal bytes = .ok utxo ∧
    utxo.assetId = assetId

theorem spendInput_eq_ok {consumed total : ℕ} {i : TransferableInput}
    (h : spendInput sha256 c assetId consumed i = .ok total) :
    Spendable sha256 c assetId i ∧ total = consumed + i.amount.toNat := by
  simp only [spendInput, Except.bind_eq_ok_iff, require_eq_ok_iff, orError_eq_ok_iff,
    checkedAdd_eq_some_iff] at h
  obtain ⟨-, -, bytes, hbytes, utxo, hutxo, -, hasset, -, rfl⟩ := h
  exact ⟨⟨bytes, utxo, hbytes, hutxo, hasset⟩, rfl⟩

theorem foldlM_spendInput {ins : List TransferableInput} {consumed total : ℕ}
    (h : ins.foldlM (spendInput sha256 c assetId) consumed = .ok total) :
    (∀ i ∈ ins, Spendable sha256 c assetId i) ∧ total = consumed + claimed ins := by
  induction ins generalizing consumed with
  | nil =>
    obtain rfl : consumed = total := Except.ok.inj h
    exact ⟨fun _ hi ↦ absurd hi List.not_mem_nil, rfl⟩
  | cons i ins ih =>
    rw [List.foldlM_cons, Except.bind_eq_ok_iff] at h
    obtain ⟨mid, hi, h⟩ := h
    obtain ⟨hspend, rfl⟩ := spendInput_eq_ok hi
    obtain ⟨hrest, rfl⟩ := ih h
    refine ⟨List.forall_mem_cons.mpr ⟨hspend, hrest⟩, ?_⟩
    rw [claimed, claimed, List.map_cons, List.sum_cons, Nat.add_assoc]

theorem foldlM_spendOutput {produced total : ℕ}
    (h : outs.foldlM (spendOutput assetId) produced = .ok total) :
    (∀ o ∈ outs, o.assetId = assetId) ∧ total = produced + amountOf outs := by
  induction outs generalizing produced with
  | nil =>
    obtain rfl : produced = total := Except.ok.inj h
    exact ⟨fun _ ho ↦ absurd ho List.not_mem_nil, rfl⟩
  | cons o outs ih =>
    rw [List.foldlM_cons, Except.bind_eq_ok_iff] at h
    obtain ⟨mid, ho, h⟩ := h
    simp only [spendOutput, Except.bind_eq_ok_iff, require_eq_ok_iff, orError_eq_ok_iff,
      checkedAdd_eq_some_iff] at ho
    obtain ⟨-, hasset, -, rfl⟩ := ho
    obtain ⟨hrest, rfl⟩ := ih h
    refine ⟨List.forall_mem_cons.mpr ⟨hasset, hrest⟩, ?_⟩
    rw [amountOf, amountOf, List.map_cons, List.sum_cons, Nat.add_assoc]

/-- The flow check: every input has its UTXO, and the inputs claim what the outputs and the fee
need. -/
theorem verifySpend_eq_ok {ins : List TransferableInput} {fee : ℕ}
    {u : Unit} (h : verifySpend sha256 c ins outs fee assetId = .ok u) :
    (∀ i ∈ ins, Spendable sha256 c assetId i) ∧ (∀ o ∈ outs, o.assetId = assetId) ∧
      claimed ins = fee + amountOf outs := by
  simp only [verifySpend, Except.bind_eq_ok_iff, require_eq_ok_iff, not_not] at h
  obtain ⟨consumed, hins, produced, houts, heq⟩ := h
  obtain ⟨hspend, rfl⟩ := foldlM_spendInput hins
  obtain ⟨hassets, rfl⟩ := foldlM_spendOutput houts
  exact ⟨hspend, hassets, by rw [heq, Nat.zero_add]⟩

end Avalanche.Platform
