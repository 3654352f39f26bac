import Avalanche.Platform.Txs
import Avalanche.Platform.Utxo
import Avalanche.Sae.ProxyTime

/-!
# The context of the executors

The settings of the network and what the executors share: the forks, the fee in force, the flow
check, and the authorisation by the owner of a subnet or of a validator. What lies outside of the
P-Chain is a parameter: the hash and the recovery of a signer.
-/

namespace Avalanche

namespace Platform

open Sae (nanosPerSecond i64Max)

/-! ### Times -/

/-- `duration_since`, in nanoseconds. -/
def durationSince (t earlier : ℤ) : Option ℕ :=
  if earlier ≤ t then some (t - earlier).toNat else none

/-! ### Settings -/

structure UpgradeSchedule where
  etnaTime : ℤ

structure StakingConfig where
  rewardConfig : RewardConfig

/-- The secp256k1 checks: the clock they read, and the address that signed a hash. -/
structure Fx where
  clock : ℕ
  bootstrapped : Bool
  recover : Id → Bytes → Option ShortId

structure Backend where
  upgrades : UpgradeSchedule
  staking : StakingConfig
  txFee : ℕ
  networkId : ℕ
  avaxAssetId : Id
  fx : Fx
  bls : Bls
  sha256 : Bytes → Id

namespace Backend

variable (b : Backend)

def isEtnaActivated (t : ℤ) : Bool := t ≥ b.upgrades.etnaTime

/-! ### State changes -/

def feeCalculator (c : Chain) : FeeCalculator :=
  .forFork (b.isEtnaActivated c.timestamp) b.txFee c.feeState.excess

/-- Every tx pays for the complexity of a base tx. -/
def fee (c : Chain) : Except Error ℕ := (b.feeCalculator c).calculateFee baseTxComplexity

/-- The flow check; its errors are not told apart. -/
def verifySpend (c : Chain) (ins : List TransferableInput) (outs : List TransferableOutput)
    (fee : ℕ) : Except Error Unit :=
  (Platform.verifySpend b.sha256 c ins outs fee b.avaxAssetId).mapError fun _ ↦ .flowCheckFailed

/-- The outputs of tx `txId` for its inputs. -/
def consumeProduce (c : Chain) (txId : Id) (ins : List TransferableInput)
    (outs : List TransferableOutput) : Except Error Chain :=
  produce b.sha256 (consume b.sha256 c ins) txId outs

theorem verifySpend_eq_ok {b : Backend} {c : Chain} {ins : List TransferableInput}
    {outs : List TransferableOutput} {fee : ℕ} {u : Unit}
    (h : b.verifySpend c ins outs fee = .ok u) :
    (∀ i ∈ ins, Spendable b.sha256 c b.avaxAssetId i) ∧ (∀ o ∈ outs, o.assetId = b.avaxAssetId) ∧
      claimed ins = fee + amountOf outs :=
  Platform.verifySpend_eq_ok (Except.mapError_eq_ok_iff.mp h)

/-- What every write of a UTXO keeps is kept by the exchange of inputs for outputs. -/
theorem consumeProduce_inv {I : Chain → Prop} (hadd : ∀ c id utxo, I c → I (c.addUtxo id utxo))
    (hdelete : ∀ c id, I c → I (c.deleteUtxo id)) {b : Backend} {c c' : Chain} {txId : Id}
    {ins : List TransferableInput} {outs : List TransferableOutput} (hc : I c)
    (h : b.consumeProduce c txId ins outs = .ok c') : I c' := by
  have hconsumed : I (consume b.sha256 c ins) :=
    List.foldlRecOn ins _ hc fun c hc i _ ↦ hdelete c _ hc
  refine Except.foldlM_inv (fun mid p next _ hmid hnext ↦ ?_) hconsumed h
  simp only [produceOne, Except.bind_eq_ok_iff, require_eq_ok_iff, Except.ok.injEq] at hnext
  obtain ⟨-, -, rfl⟩ := hnext
  exact hadd mid _ _ hmid

/-! ### Authorisation -/

def verifyCredentials (unsignedBytes : Bytes) (auth : Auth) (cred : Credential)
    (owner : OutputOwners) : Bool :=
  !decide (owner.locktime.toNat > b.fx.clock) &&
    decide (owner.threshold = UInt32.ofNat auth.sigIndices.length) &&
    decide (auth.sigIndices.length = cred.sigs.length) &&
    (!b.fx.bootstrapped ||
      (auth.sigIndices.zip cred.sigs).all fun p ↦
        match owner.addrs[p.1.toNat]? with
        | none => false
        | some expected => b.fx.recover (b.sha256 unsignedBytes) p.2 = some expected)

/-- The last credential has to stand for the owner. -/
def verifyAuthorization (tx : Tx) (unsignedBytes : Bytes) (owner : OutputOwners) (auth : Auth) :
    Except Error Unit := do
  let cred ← orError tx.creds.getLast? .wrongNumberOfCredentials
  require (b.verifyCredentials unsignedBytes auth cred owner) .unauthorizedModification

def decodeOwner (bytes : Bytes) : Except Error OutputOwners :=
  (Codec.unmarshal Owner.wire bytes).map Owner.owners

def verifySubnetAuthorization (c : Chain) (tx : Tx) (unsignedBytes : Bytes) (subnet : Id)
    (auth : Auth) : Except Error Unit := do
  let bytes ← c.getSubnetOwner subnet
  let owner ← decodeOwner bytes
  b.verifyAuthorization tx unsignedBytes owner auth

end Backend

end Platform

end Avalanche
