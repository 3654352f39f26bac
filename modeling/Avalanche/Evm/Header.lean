import Avalanche.Evm.ChainSpec
import Avalanche.Types.Id
import Avalanche.Utils.Checked

/-!
# Headers

The header of a C-Chain block. The root of the state is of a type of its own, `R`: the state store
is a map, and what identifies a map among all others cannot be a word of fixed size. The other
hashes are 256-bit words, and the integers are numbers with the width written out where an operation
can leave it.

The errors are those of the checks a block goes through, with the values they report.
-/

namespace Avalanche.Evm

abbrev Bytes := List UInt8

/-- A 20-byte account address. -/
abbrev Address := BitVec 160

/-- `U256::MAX`. -/
@[irreducible] def u256Max : ℕ := 2 ^ 256 - 1

inductive Error
  | invalidBlockNumber (number : ℕ)
  | invalidDifficulty (difficulty : ℕ)
  | invalidNonce (nonce : ℕ)
  | invalidMixDigest (mixDigest : B256)
  | invalidExtraLength (expected : String) (got : ℕ)
  | invalidBlockVersion (version : ℕ)
  | txRootMismatch (header calculated : B256)
  | invalidUncleHash (uncleHash : B256)
  | invalidCoinbase (coinbase : Address)
  | gasPriceTooLow (tx : B256) (have_ min : ℕ)
  | nilBaseFee
  | invalidBlockGasCost (cost : Option ℕ)
  | missingParentBeaconRoot
  | parentBeaconRootNonEmpty (root : B256)
  | blobGasUsedNilInCancun
  | blobsNotEnabled (used : ℕ)
  | invalidExcessBlobGas (excess : Option ℕ)
  | parentBeaconRootBeforeCancun
  | excessBlobGasBeforeCancun
  | blobGasUsedBeforeCancun
  | blobGasUsedMismatch (header calculated : ℕ)
  | gasLimitMismatch (have_ want : ℕ)
  | gasLimitMismatchInFork (fork : String) (have_ want : ℕ)
  | gasLimitOutOfRange (have_ min max : ℕ)
  | gasLimitOutOfBound (have_ want limit : ℕ)
  | gasUsedOverCapacity (have_ capacity : ℕ)
  | gasUsedRelativeToCapacity (cause : Error)
  | totalIntrinsicGasExceedsClaimed (intrinsic claimed : ℕ)
  | blockTooOld (have_ parent : ℕ)
  | blockTooFarInFuture (have_ allowed : ℕ)
  | timeMillisecondsBeforeGranite
  | timeMillisecondsRequired
  | timeMillisecondsMismatched (time expected : ℕ)
  | minDelayNotMet (actual required : ℕ)
  | invalidFeeState (text : String)
  | incorrectFeeState
  | invalidExtraPrefix (expected found : Bytes)
  | baseFeeMismatch (expected found : Option ℕ)
  | blockGasCostMismatch (have_ want : Option ℕ)
  | extDataGasUsedBeforeFork (value : ℕ)
  | nilExtDataGasUsed
  | extDataGasUsedTooLarge (value : ℕ)
  | tooLargeExtDataGasUsed (claimed : Option ℕ)
  | invalidExtDataGasUsed (have_ : Option ℕ) (want : ℕ)
  | remoteMinDelayExcessNil
  | incorrectMinDelayExcess (expected found : ℕ)
  | feeOverflow
  | nilTx
  | missingUtxos
  | conflictingAtomicInputs
  | stateForHashNotFound
  | missingProposal
  | noGasUsed
  | execution
deriving DecidableEq

structure AvaHeader (R : Type) where
  parentHash : B256
  uncleHash : B256
  coinbase : Address
  stateRoot : R
  txRoot : B256
  receiptRoot : B256
  bloom : Bytes
  difficulty : ℕ
  number : ℕ
  gasLimit : ℕ
  gasUsed : ℕ
  time : ℕ
  extra : Bytes
  mixDigest : B256
  /-- The eight bytes, as the big-endian number they spell. -/
  nonce : ℕ
  extDataHash : B256
  baseFee : Option ℕ
  extDataGasUsed : Option ℕ
  blockGasCost : Option ℕ
  blobGasUsed : Option ℕ
  excessBlobGas : Option ℕ
  parentBeaconRoot : Option B256
  timeMilliseconds : Option ℕ
  minDelayExcess : Option ℕ
deriving DecidableEq

/-- `header_time_ms`: the millisecond field, or the seconds if there is none. -/
def AvaHeader.timeMs {R : Type} (h : AvaHeader R) : ℕ :=
  h.timeMilliseconds.getD (saturatingMul h.time 1000)

end Avalanche.Evm
