import Avalanche.Evm.FeeRules
import Avalanche.Evm.Firewood
import Avalanche.Platform.Components

/-!
# Atomic transactions

An import takes UTXOs that another chain has left in shared memory and credits accounts of the EVM;
an export debits accounts and leaves UTXOs for another chain. This file has what a block reads off
its atomic txs: the shared-memory requests they stand for, the ids of what they consume, and their
gas. What a tx does to the accounts is not executed when a block is verified.

Left out are the fields that no function here reads: those that only tell networks and chains apart,
the credentials, and the amounts; the encoding of a tx is kept as bytes.
-/

namespace Avalanche.Evm

open Std
open Except (require orError)
open Platform (OutputOwners utxoId)

/-! ### Outputs and inputs -/

inductive Output
  | secpMint (owners : OutputOwners)
  | secpTransfer (amt : UInt64) (owners : OutputOwners)
deriving DecidableEq

namespace Output

def owners : Output → OutputOwners
  | secpMint o => o
  | secpTransfer _ o => o

/-- The type id of an output and its fields. -/
def wire : Wire Output where
  put
    | secpMint o => Wire.u32.put 6 ++ OutputOwners.wire.put o
    | secpTransfer amt o => Wire.u32.put 7 ++ (Wire.u64.pair OutputOwners.wire).put (amt, o)
  get bytes := do
    let (typeId, bytes) ← Wire.u32.get bytes
    if typeId = 6 then
      let (o, bytes) ← OutputOwners.wire.get bytes
      some (secpMint o, bytes)
    else if typeId = 7 then
      let ((amt, o), bytes) ← (Wire.u64.pair OutputOwners.wire).get bytes
      some (secpTransfer amt o, bytes)
    else none
  get_put o rest := by
    cases o with
    | secpMint o =>
      simp [Wire.get_put]
    | secpTransfer amt o =>
      simp [Wire.get_put]

end Output

structure TransferableOutput where
  assetId : Id
  out : Output
deriving DecidableEq

structure TransferableInput where
  txId : Id
  outputIndex : UInt32
  sigIndices : List ℕ
deriving DecidableEq

def TransferableInput.inputId (sha256 : Bytes → Id) (i : TransferableInput) : Id :=
  utxoId sha256 i.txId i.outputIndex

/-- An account that is debited, with the nonce it uses up. -/
structure EvmInput where
  address : Address
  nonce : ℕ
deriving DecidableEq

structure UnsignedImportTx where
  sourceChain : Id
  importedInputs : List TransferableInput
deriving DecidableEq

structure UnsignedExportTx where
  destinationChain : Id
  ins : List EvmInput
  exportedOutputs : List TransferableOutput
deriving DecidableEq

inductive AtomicTx
  | import_ (tx : UnsignedImportTx)
  | export_ (tx : UnsignedExportTx)
deriving DecidableEq

structure Tx where
  unsigned : AtomicTx
  id : Id
  unsignedBytes : Bytes
deriving DecidableEq

/-! ### Requests to shared memory -/

structure Element where
  key : Id
  value : Bytes
  traits : List Address
deriving DecidableEq

structure Requests where
  remove : List Id := []
  put : List Element := []
deriving DecidableEq

/-- A UTXO as the receiving chain reads it. -/
structure ExportUtxo where
  txId : Id
  outputIndex : UInt32
  assetId : Id
  out : Output
deriving DecidableEq

namespace ExportUtxo

def inputId (sha256 : Bytes → Id) (u : ExportUtxo) : Id := utxoId sha256 u.txId u.outputIndex

def wire : Wire ExportUtxo :=
  ((Wire.word 32).pair (Wire.u32.pair ((Wire.word 32).pair Output.wire))).map
    (fun p ↦ ⟨p.1, p.2.1, p.2.2.1, p.2.2.2⟩) (fun u ↦ (u.txId, u.outputIndex, u.assetId, u.out))
    fun _ ↦ rfl

end ExportUtxo

/-- `Manager::marshal`, which refuses more than the largest size. -/
def marshal {α : Type} (w : Wire α) (a : α) : Option Bytes :=
  let bytes := Platform.Codec.marshal w a
  if bytes.length > Platform.Codec.maxSize then none else some bytes

variable (sha256 : Bytes → Id)

/-- The element an exported output becomes. -/
def exportElement (txId : Id) (p : TransferableOutput × ℕ) : Option Element := do
  guard (p.2 < 2 ^ 32)
  let utxo : ExportUtxo := ⟨txId, UInt32.ofNat p.2, p.1.assetId, p.1.out⟩
  let value ← marshal ExportUtxo.wire utxo
  some ⟨utxo.inputId sha256, value, p.1.out.owners.addrs⟩

/-- The chain a tx deals with, and what it asks of the memory shared with it. -/
def AtomicTx.atomicOps (txId : Id) : AtomicTx → Option (Id × Requests)
  | .import_ tx => some (tx.sourceChain, { remove := tx.importedInputs.map (·.inputId sha256) })
  | .export_ tx => do
    let put ← tx.exportedOutputs.zipIdx.mapM (exportElement sha256 txId)
    some (tx.destinationChain, { put := put })

/-! ### What a tx consumes -/

/-- The packed nonce, length and bytes of an address. -/
def exportInputId (nonce : ℕ) (address : Address) : Id := BitVec.ofNat 64 nonce ++ 20#32 ++ address

def inputUtxos : AtomicTx → Finset Id
  | .import_ tx => (tx.importedInputs.map (·.inputId sha256)).toFinset
  | .export_ tx => (tx.ins.map fun i ↦ exportInputId i.nonce i.address).toFinset

/-- The loop of `verify_no_conflicts` over the txs that are left, with the ids seen before. -/
def verifyNoConflictsFrom (ancestorInputs : Finset Id) :
    Finset Id → List AtomicTx → Except Error Unit
  | _, [] => .ok ()
  | seen, tx :: txs => do
    let inputs := inputUtxos sha256 tx
    require (Disjoint inputs ancestorInputs) .conflictingAtomicInputs
    require (Disjoint inputs seen) .conflictingAtomicInputs
    verifyNoConflictsFrom ancestorInputs (seen ∪ inputs) txs

def verifyNoConflicts (txs : List AtomicTx) (ancestorInputs : Finset Id) : Except Error Unit :=
  verifyNoConflictsFrom sha256 ancestorInputs ∅ txs

/-! ### Gas -/

def txBytesGas : ℕ := 1

def costPerSignature : ℕ := 1000

def ap5AtomicGasLimit : ℕ := 100000

def ap5AtomicTxIntrinsicGas : ℕ := 10000

/-- `Input::cost`. -/
def TransferableInput.cost (i : TransferableInput) : Except Error ℕ :=
  orError (checkedMul i.sigIndices.length costPerSignature) .feeOverflow

/-- The gas the verifier counts: the unsigned bytes, the signatures and the fixed fee. -/
def Tx.gasUsed (tx : Tx) (fixedFee : Bool) : Except Error ℕ := do
  require (tx.unsignedBytes.length ≤ u64Max) .feeOverflow
  let cost ← orError (checkedMul txBytesGas tx.unsignedBytes.length) .feeOverflow
  let cost ← match tx.unsigned with
    | .import_ utx => utx.importedInputs.foldlM (fun cost input ↦ do
        let c ← input.cost
        orError (checkedAdd cost c) .feeOverflow) cost
    | .export_ utx => do
      let sigCost ← orError (checkedMul utx.ins.length costPerSignature) .feeOverflow
      orError (checkedAdd cost sigCost) .feeOverflow
  if fixedFee then orError (checkedAdd cost ap5AtomicTxIntrinsicGas) .feeOverflow else .ok cost

def verifyExtDataGasUsed {R : Type} (spec : AvaChainSpec) (header : AvaHeader R)
    (atomicTxs : List Tx) : Except Error Unit := do
  let phase := spec.forkAt header.time
  if phase < .apricotPhase4 then .ok ()
  else
    let claimed := header.extDataGasUsed
    if phase ≥ .apricotPhase5 ∧ ¬spec.isFortuna header.time then
      require (claimed.any (· ≤ ap5AtomicGasLimit)) (.tooLargeExtDataGasUsed claimed)
    let total ← atomicTxs.foldlM (fun total tx ↦ do
      let gas ← tx.gasUsed (phase ≥ .apricotPhase5)
      orError (checkedAdd total gas) .feeOverflow) 0
    require (claimed = some total) (.invalidExtDataGasUsed claimed total)

end Avalanche.Evm
