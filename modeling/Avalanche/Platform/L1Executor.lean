import Avalanche.Platform.Backend

/-!
# The lifecycle of L1 validators

Five kinds of txs convert a subnet, register a validator, change its weight, pay for it and disable
it. A validator is active until the fees accrued since the start of the chain reach its
`endAccumulatedFee`; what is left of its balance is refunded when it is removed or disabled.

Registrations and weights come in Warp messages. Their decoding and the signatures are a parameter,
the checks of their contents are not.
-/

namespace Avalanche.Platform

open Sae (nanosPerSecond)

/-! ### Warp messages -/

def PChainOwner.isValid (o : PChainOwner) : Bool :=
  if o.threshold = 0 then o.addresses.1.isEmpty else o.threshold.toNat ≤ o.addresses.1.length

structure RegisterL1Validator where
  subnetId : Id
  nodeId : Bytes
  blsPublicKey : Bytes
  expiry : UInt64
  remainingBalanceOwner : PChainOwner
  disableOwner : PChainOwner
  weight : UInt64
deriving DecidableEq

def RegisterL1Validator.verify (m : RegisterL1Validator) : Except Error Unit := do
  require (m.subnetId ≠ Id.empty) .invalidComponent
  require (m.weight ≠ 0) .invalidComponent
  require (¬(m.nodeId.length ≠ 20 ∨ m.nodeId.all (· = 0))) .invalidComponent
  require (m.remainingBalanceOwner.isValid ∧ m.disableOwner.isValid) .invalidComponent

structure L1ValidatorWeight where
  validationId : Id
  nonce : UInt64
  weight : UInt64
deriving DecidableEq

/-- The last nonce is for a removal. -/
def L1ValidatorWeight.verify (m : L1ValidatorWeight) : Except Error Unit :=
  require (¬(m.nonce = UInt64.ofNat u64Max ∧ m.weight ≠ 0)) .invalidComponent

inductive RegistryPayload
  | registerL1Validator (m : RegisterL1Validator)
  | l1ValidatorWeight (m : L1ValidatorWeight)
  /-- The two kinds that no tx of the P-Chain carries, which are always well formed. -/
  | other
deriving DecidableEq

def RegistryPayload.verify : RegistryPayload → Except Error Unit
  | registerL1Validator m => m.verify
  | l1ValidatorWeight m => m.verify
  | other => .ok ()

structure ParsedWarp where
  sourceChainId : Id
  sourceAddress : Bytes
  payload : RegistryPayload
  payloadBytes : Bytes
deriving DecidableEq

/-- The decoding of messages, and the check of their signatures. -/
structure Warp where
  parse : Bytes → Except Error ParsedWarp
  verifySignature : Bytes → Except Error Unit

def Warp.verifyWarpMessage (w : Warp) (message : Bytes) : Except Error ParsedWarp := do
  let parsed ← w.parse message
  parsed.payload.verify
  w.verifySignature message
  .ok parsed

/-! ### Conversions and owners -/

/-- What is recorded as the manager of a converted subnet. -/
structure SubnetConversion where
  conversionId : Id
  chainId : Id
  addr : { l : Bytes // l.length < 2 ^ 32 }

namespace SubnetConversion

def wire : Wire SubnetConversion :=
  ((Wire.word 32).pair ((Wire.word 32).pair (Wire.list Wire.u8))).map
    (fun p ↦ ⟨p.1, p.2.1, p.2.2⟩) (fun s ↦ (s.conversionId, s.chainId, s.addr)) fun _ ↦ rfl

/-- A slice of at least `2 ^ 31` bytes cannot be written. -/
def marshal (chainId : Id) (addr : Bytes) : Except Error Bytes :=
  if h : addr.length < 2 ^ 31 then
    .ok (Codec.marshal wire ⟨Id.empty, chainId, ⟨addr, h.trans (by norm_num)⟩⟩)
  else .error .codec

def unmarshal (bytes : Bytes) : Except Error SubnetConversion := Codec.unmarshal wire bytes

end SubnetConversion

def PChainOwner.owners (o : PChainOwner) : OutputOwners := .new 0 o.threshold o.addresses

def marshalOwner (o : PChainOwner) : Bytes := Codec.marshal Owner.wire (.secp256k1 o.owners)

def unmarshalMessageOwner (bytes : Bytes) : Except Error PChainOwner :=
  (Backend.decodeOwner bytes).map fun o ↦ ⟨o.threshold, ⟨o.addrs, o.length_addrs⟩⟩

/-! ### The executor -/

structure L1TxExecutor where
  backend : Backend
  tx : Tx
  unsignedBytes : Bytes
  warp : Warp

namespace L1TxExecutor

variable (e : L1TxExecutor)

/-- The flow check over the embedded base tx, and the exchange of its inputs for its outputs. -/
def verifyAndApplyBase (c : Chain) (base : BaseTx) : Except Error Chain := do
  let fee ← e.backend.fee c
  e.backend.verifySpend c base.ins base.outs fee
  e.backend.consumeProduce c e.tx.id base.ins base.outs

/-- What comes first in every handler. -/
def requireEtna (c : Chain) (base : BaseTx) : Except Error Unit := do
  require (e.backend.isEtnaActivated c.timestamp) .etnaUpgradeNotActive
  base.syntacticVerify

def chainTimeUnix (c : Chain) : Except Error ℕ :=
  (orError (durationSince c.timestamp 0) .overflow).map (· / nanosPerSecond)

def verifyL1Conversion (c : Chain) (subnet expectedChain : Id) (expectedAddress : Bytes) :
    Except Error Unit := do
  let bytes ← (c.getSubnetManager subnet).mapError fun _ ↦ .wrongWarpMessageSource
  let conversion ← SubnetConversion.unmarshal bytes
  require (¬(expectedChain ≠ conversion.chainId ∨ expectedAddress ≠ conversion.addr.1))
    .wrongWarpMessageSource

def refundUtxo (outputIndex : UInt32) (owner : PChainOwner) (amount : ℕ) : Utxo where
  txId := e.tx.id
  outputIndex := outputIndex
  assetId := e.backend.avaxAssetId
  out := .transfer (UInt64.ofNat amount) owner.owners

/-- Returns what is left of the balance of an active validator, as the output after `outs`. -/
def refund (c : Chain) (v : L1Validator) (outs : List TransferableOutput) : Except Error Chain := do
  let owner ← unmarshalMessageOwner v.remainingBalanceOwner
  require (¬v.endAccumulatedFee.toNat ≤ c.accruedFees) .stateCorruption
  require (outs.length < 2 ^ 32) .overflow
  let utxo := e.refundUtxo (UInt32.ofNat outs.length) owner
    (v.endAccumulatedFee.toNat - c.accruedFees)
  .ok (c.addUtxo (utxo.inputId e.backend.sha256) utxo.marshal)

/-- The end of the fees a balance covers; without a balance the validator is inactive. -/
def endFee (balance : UInt64) (currentFees : ℕ) : Except Error UInt64 :=
  if balance ≠ 0 then (orError (checkedAdd balance.toNat currentFees) .overflow).map UInt64.ofNat
  else .ok 0

/-- A validator of a conversion. The room for another active one is not checked. -/
def convertOne (tx : ConvertSubnetToL1Tx) (startTime currentFees : ℕ) (c : Chain)
    (p : ConvertSubnetToL1Validator × ℕ) : Except Error Chain := do
  require (p.2 < 2 ^ 32) .overflow
  let nodeId ← nodeIdOfSlice p.1.nodeId
  let publicKey ← p.1.signer.key e.backend.bls
  let endAccumulatedFee ← endFee p.1.balance currentFees
  .ok (c.putL1Validator
    { validationId := e.backend.sha256
        ((Wire.word 32).put tx.subnet ++ Wire.u32.put (UInt32.ofNat p.2))
      subnetId := tx.subnet
      nodeId := nodeId
      publicKey := publicKey.serialize
      remainingBalanceOwner := marshalOwner p.1.remainingBalanceOwner
      deactivationOwner := marshalOwner p.1.deactivationOwner
      startTime := UInt64.ofNat startTime
      weight := p.1.weight
      minNonce := 0
      endAccumulatedFee := endAccumulatedFee })

def convertSubnetToL1 (c : Chain) (tx : ConvertSubnetToL1Tx) : Except Error Chain := do
  e.requireEtna c tx.base
  e.backend.verifySubnetAuthorization c e.tx e.unsignedBytes tx.subnet tx.subnetAuth
  let startTime ← chainTimeUnix c
  let c ← tx.validators.zipIdx.foldlM (e.convertOne tx startTime c.accruedFees) c
  let c ← e.verifyAndApplyBase c tx.base
  let conversion ← SubnetConversion.marshal tx.chainId tx.address
  .ok (c.setSubnetManager tx.subnet conversion)

def registerExpiryWindow : ℕ := 24 * 60 * 60

/-- Whether a message was issued before is not checked. -/
def registerL1Validator (c : Chain) (tx : RegisterL1ValidatorTx) : Except Error Chain := do
  e.requireEtna c tx.base
  let c ← e.verifyAndApplyBase c tx.base
  let parsed ← e.warp.verifyWarpMessage tx.message
  match parsed.payload with
  | .registerL1Validator msg => do
    verifyL1Conversion c msg.subnetId parsed.sourceChainId parsed.sourceAddress
    let currentUnix ← chainTimeUnix c
    require (¬msg.expiry.toNat ≤ currentUnix) .warpMessageExpired
    require (¬msg.expiry.toNat - currentUnix > registerExpiryWindow) .warpMessageNotYetAllowed
    let pop : ProofOfPossession := ⟨msg.blsPublicKey, tx.proofOfPossession⟩
    pop.verify e.backend.bls
    let nodeId ← nodeIdOfSlice msg.nodeId
    let publicKey ← pop.key e.backend.bls
    let endAccumulatedFee ← endFee tx.balance c.accruedFees
    .ok (c.putL1Validator
      { validationId := e.backend.sha256 parsed.payloadBytes
        subnetId := msg.subnetId
        nodeId := nodeId
        publicKey := publicKey.serialize
        remainingBalanceOwner := marshalOwner msg.remainingBalanceOwner
        deactivationOwner := marshalOwner msg.disableOwner
        startTime := UInt64.ofNat currentUnix
        weight := msg.weight
        minNonce := 0
        endAccumulatedFee := endAccumulatedFee })
  | _ => .error .invalidComponent

/-- The refund of a removal: only the last validator of a subnet cannot be removed. -/
def removeL1Validator (c : Chain) (v : L1Validator) (outs : List TransferableOutput) :
    Except Error Chain := do
  let totalWeight ← (c.weightOfL1Validators v.subnetId).mapError fun _ ↦ .couldNotLoadL1Validator
  require (totalWeight ≠ v.weight.toNat) .removingLastValidator
  if v.endAccumulatedFee ≠ 0 then e.refund c v outs else .ok c

def setL1ValidatorWeight (c : Chain) (tx : SetL1ValidatorWeightTx) : Except Error Chain := do
  e.requireEtna c tx.base
  let c ← e.verifyAndApplyBase c tx.base
  let parsed ← e.warp.verifyWarpMessage tx.message
  match parsed.payload with
  | .l1ValidatorWeight msg => do
    let v ← (c.getL1Validator msg.validationId).mapError fun _ ↦ .couldNotLoadL1Validator
    require (¬msg.nonce < v.minNonce) .warpMessageContainsStaleNonce
    verifyL1Conversion c v.subnetId parsed.sourceChainId parsed.sourceAddress
    let c ← if msg.weight = 0 then e.removeL1Validator c v tx.base.outs else .ok c
    .ok (c.putL1Validator
      { v with
        minNonce := UInt64.ofNat (saturatingAdd msg.nonce.toNat 1)
        weight := msg.weight })
  | _ => .error .invalidComponent

def increaseL1ValidatorBalance (c : Chain) (tx : IncreaseL1ValidatorBalanceTx) :
    Except Error Chain := do
  e.requireEtna c tx.base
  let c ← e.verifyAndApplyBase c tx.base
  let v ← c.getL1Validator tx.validationId
  -- an inactive validator is activated
  let start := if v.endAccumulatedFee = 0 then c.accruedFees else v.endAccumulatedFee.toNat
  let endAccumulatedFee ← orError (checkedAdd start tx.balance.toNat) .overflow
  .ok (c.putL1Validator { v with endAccumulatedFee := UInt64.ofNat endAccumulatedFee })

def disableL1Validator (c : Chain) (tx : DisableL1ValidatorTx) : Except Error Chain := do
  e.requireEtna c tx.base
  let v ← (c.getL1Validator tx.validationId).mapError fun _ ↦ .couldNotLoadL1Validator
  let disableOwner ← unmarshalMessageOwner v.deactivationOwner
  e.backend.verifyAuthorization e.tx e.unsignedBytes disableOwner.owners tx.disableAuth
  let c ← e.verifyAndApplyBase c tx.base
  if v.endAccumulatedFee = 0 then .ok c
  else do
    let c ← e.refund c v tx.base.outs
    .ok (c.putL1Validator { v with endAccumulatedFee := 0 })

/-- The kinds of txs the executor is for; it rejects the others. -/
def visit (c : Chain) : Except Error Chain :=
  match e.tx.unsigned with
  | .convertSubnetToL1 tx => e.convertSubnetToL1 c tx
  | .registerL1Validator tx => e.registerL1Validator c tx
  | .setL1ValidatorWeight tx => e.setL1ValidatorWeight c tx
  | .increaseL1ValidatorBalance tx => e.increaseL1ValidatorBalance c tx
  | .disableL1Validator tx => e.disableL1Validator c tx
  | _ => .error .wrongTxType

end L1TxExecutor

end Avalanche.Platform
