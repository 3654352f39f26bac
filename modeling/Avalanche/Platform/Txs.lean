import Avalanche.Platform.Components
import Avalanche.Platform.Fee

/-!
# Txs

The txs about L1 validators, with the fields that their execution reads. BLS keys and signatures are
a parameter.
-/

namespace Avalanche.Platform

/-! ### Keys -/

/-- What is asked of the BLS library. -/
structure Bls where
  fromCompressed : Bytes → Option PublicKey
  /-- Whether the signature is one, and proves the possession of the key. -/
  verifyPop : PublicKey → Bytes → Bytes → Bool

structure ProofOfPossession where
  publicKey : Bytes
  proof : Bytes
deriving DecidableEq

namespace ProofOfPossession

def key (bls : Bls) (p : ProofOfPossession) : Except Error PublicKey :=
  orError (bls.fromCompressed p.publicKey) .invalidProofOfPossession

def verify (bls : Bls) (p : ProofOfPossession) : Except Error Unit := do
  let pk ← p.key bls
  require (bls.verifyPop pk p.proof p.publicKey) .invalidProofOfPossession

end ProofOfPossession

/-- `NodeId::from_slice`. -/
def nodeIdOfSlice (bytes : Bytes) : Except Error NodeId :=
  if bytes.length = 20 then .ok (BitVec.ofNat 160 (Wire.ofBe bytes)) else .error .emptyNodeId

/-! ### L1 validators -/

/-- `message.PChainOwner`. -/
structure PChainOwner where
  threshold : UInt32
  addresses : { l : List ShortId // l.length < 2 ^ 32 }
deriving DecidableEq

structure ConvertSubnetToL1Validator where
  nodeId : Bytes
  weight : UInt64
  balance : UInt64
  signer : ProofOfPossession
  remainingBalanceOwner : PChainOwner
  deactivationOwner : PChainOwner
deriving DecidableEq

structure ConvertSubnetToL1Tx where
  base : BaseTx
  subnet : Id
  chainId : Id
  address : Bytes
  validators : List ConvertSubnetToL1Validator
  subnetAuth : Auth
deriving DecidableEq

structure RegisterL1ValidatorTx where
  base : BaseTx
  balance : UInt64
  proofOfPossession : Bytes
  message : Bytes
deriving DecidableEq

structure SetL1ValidatorWeightTx where
  base : BaseTx
  message : Bytes
deriving DecidableEq

structure IncreaseL1ValidatorBalanceTx where
  base : BaseTx
  validationId : Id
  balance : UInt64
deriving DecidableEq

structure DisableL1ValidatorTx where
  base : BaseTx
  validationId : Id
  disableAuth : Auth
deriving DecidableEq

/-! ### All of them -/

/-- The kinds of txs that the executor of L1 validators is for, and the rest, which it rejects. -/
inductive UnsignedTx
  | convertSubnetToL1 (tx : ConvertSubnetToL1Tx)
  | registerL1Validator (tx : RegisterL1ValidatorTx)
  | setL1ValidatorWeight (tx : SetL1ValidatorWeightTx)
  | increaseL1ValidatorBalance (tx : IncreaseL1ValidatorBalanceTx)
  | disableL1Validator (tx : DisableL1ValidatorTx)
  | other
deriving DecidableEq

structure Credential where
  sigs : List Bytes
deriving DecidableEq

structure Tx where
  unsigned : UnsignedTx
  creds : List Credential
  id : Id
deriving DecidableEq

end Avalanche.Platform
