import Avalanche.Evm.Canonical

/-!
# Blocks and their lifecycle

A block goes through three kinds of checks before it is executed: of its own form, of its header
against the parent's, and of its atomic txs. Executing it gives a change of the state, which is
proposed and put aside; the block is valid if the root and the gas are those its header declares.
Accepting a block commits what was put aside under its root, hands its atomic txs to the backend,
appends it to the canonical store and lists its txs there, one write after the other.

The execution of the EVM, the roots of lists and the recovery of signers are parameters. The txs of
the EVM keep the fields that the checks read, and their hash.
-/

namespace Avalanche.Evm

open Std
open Except (require orError)

/-! ### Transactions of the EVM -/

structure TransactionSigned where
  hash : B256
  maxFeePerGas : ℕ
  gasLimit : ℕ
  input : Bytes
  isCreate : Bool
  /-- For every address of the list, the number of its storage keys. -/
  accessList : Option (List ℕ)
  /-- The number of blobs, for a blob tx. -/
  blobVersionedHashes : Option ℕ
deriving DecidableEq

structure RecoveredTx where
  inner : TransactionSigned
  signer : Address
deriving DecidableEq

def intrinsicGas (tx : TransactionSigned) (shanghai : Bool) : ℕ :=
  let gas := if tx.isCreate then 53000 else 21000
  let nonzero := tx.input.countP (· ≠ 0)
  let zeros := tx.input.length - nonzero
  let gas := saturatingAdd gas (saturatingMul nonzero 16)
  let gas := saturatingAdd gas (saturatingMul zeros 4)
  let gas :=
    if tx.isCreate ∧ shanghai then
      saturatingAdd gas (saturatingMul ((tx.input.length + 31) / 32) 2)
    else gas
  match tx.accessList with
  | none => gas
  | some list =>
    saturatingAdd (saturatingAdd gas (saturatingMul list.length 2400)) (saturatingMul list.sum 1900)

/-! ### The environment of an execution -/

/-- The header as the executor sees it. -/
structure EthHeader (R : Type) where
  parentHash : B256
  ommersHash : B256
  beneficiary : Address
  stateRoot : Option R
  transactionsRoot : Option B256
  receiptsRoot : Option B256
  difficulty : ℕ
  number : ℕ
  gasLimit : ℕ
  gasUsed : ℕ
  timestamp : ℕ
  extraData : Bytes
  mixHash : B256
  baseFeePerGas : Option ℕ
  blobGasUsed : Option ℕ
  excessBlobGas : Option ℕ
  parentBeaconBlockRoot : Option B256
deriving DecidableEq

structure AvaEvmEnv (R : Type) where
  header : EthHeader R
  /-- From Durango on the random value is the header's difficulty, and the difficulty is zero. -/
  random : Option ℕ
deriving DecidableEq

/-- The receipt of a tx: its envelope, the gas of the block up to it, and how many logs it has. -/
structure EthReceipt where
  envelope : Bytes
  cumulativeGasUsed : ℕ
  logs : ℕ
deriving DecidableEq

structure ExecOutcome where
  gasUsed : ℕ
  bundle : HashedPostState

/-- The chain, and what the source takes from elsewhere. -/
structure AvaEvmConfig (R : Type) where
  chainSpec : AvaChainSpec
  hashing : Hashing R
  sha256 : Bytes → Id
  /-- `keccak256` of the encoded header. -/
  headerHash : AvaHeader R → B256
  calculateTransactionRoot : List TransactionSigned → B256
  tryIntoRecovered : TransactionSigned → Option RecoveredTx
  encodeBlockReceipts : List EthReceipt → Bytes
  /-- `execute_batch`, over a view of the state. -/
  execute : AvaEvmEnv R → World → List RecoveredTx → Except Error ExecOutcome

namespace AvaEvmConfig

variable {R : Type} (cfg : AvaEvmConfig R)

def evmEnvForHeader (header : EthHeader R) : AvaEvmEnv R where
  header := header
  random :=
    if cfg.chainSpec.forkAt header.timestamp ≥ .durango then some header.difficulty else none

end AvaEvmConfig

/-! ### Blocks -/

structure EvmBlock (R : Type) where
  header : AvaHeader R
  transactions : List TransactionSigned
  atomicTxs : List Tx
  extData : Bytes
  version : ℕ
  hash : B256
deriving DecidableEq

/-- The empty-ommer sentinel. -/
def emptyOmmerRootHash : B256 := 0x1dcc4de8dec75d7aab85b567b6ccd41ad312451b948a7413f0a142fd40d49347

def blackholeAddress : Address := 0x0100000000000000000000000000000000000000

def ap0MinGasPrice : ℕ := 470000000000

def ap1MinGasPrice : ℕ := 225000000000

def ap0MaxExtraDataSize : ℕ := 64

def dataGasPerBlob : ℕ := 131072

namespace EvmBlock

variable {R : Type}

def ethEnvHeader (b : EvmBlock R) : Except Error (EthHeader R) := do
  let h := b.header
  require (∀ fee ∈ h.baseFee, fee ≤ u64Max) .nilBaseFee
  .ok {
    parentHash := h.parentHash
    ommersHash := h.uncleHash
    beneficiary := h.coinbase
    stateRoot := some h.stateRoot
    transactionsRoot := some h.txRoot
    receiptsRoot := some h.receiptRoot
    difficulty := h.difficulty
    number := h.number
    gasLimit := h.gasLimit
    gasUsed := h.gasUsed
    timestamp := h.time
    extraData := h.extra
    mixHash := h.mixDigest
    baseFeePerGas := h.baseFee
    blobGasUsed := h.blobGasUsed
    excessBlobGas := h.excessBlobGas
    parentBeaconBlockRoot := h.parentBeaconRoot }

/-- The length rules of a header's extra data. -/
def verifyExtraLength (phase : AvaPhase) (extraLen : ℕ) : Except Error Unit :=
  if phase ≥ .fortuna then require (¬extraLen < stateSize) (.invalidExtraLength ">= 24" extraLen)
  else if phase ≥ .durango then
    require (¬extraLen < windowSize) (.invalidExtraLength ">= 80" extraLen)
  else if phase ≥ .apricotPhase3 then
    require (extraLen = windowSize) (.invalidExtraLength "== 80" extraLen)
  else if phase ≥ .apricotPhase1 then require (extraLen = 0) (.invalidExtraLength "== 0" extraLen)
  else require (¬extraLen > ap0MaxExtraDataSize) (.invalidExtraLength "<= 64" extraLen)

def checkMinGasPrice (b : EvmBlock R) (min : ℕ) : Except Error Unit :=
  b.transactions.forM fun tx ↦
    require (¬tx.maxFeePerGas < min) (.gasPriceTooLow tx.hash tx.maxFeePerGas min)

/-- From Etna on the fields of Cancun are there and zero, before they are absent. -/
def verifyCancunFields (phase : AvaPhase) (h : AvaHeader R) : Except Error Unit :=
  if phase ≥ .etna then do
    let root ← orError h.parentBeaconRoot .missingParentBeaconRoot
    require (root = 0) (.parentBeaconRootNonEmpty root)
    let used ← orError h.blobGasUsed .blobGasUsedNilInCancun
    require (used = 0) (.blobsNotEnabled used)
    require (h.excessBlobGas = some 0) (.invalidExcessBlobGas h.excessBlobGas)
  else do
    require h.parentBeaconRoot.isNone .parentBeaconRootBeforeCancun
    require h.excessBlobGas.isNone .excessBlobGasBeforeCancun
    require h.blobGasUsed.isNone .blobGasUsedBeforeCancun

def syntacticVerify (cfg : AvaEvmConfig R) (b : EvmBlock R) : Except Error Unit := do
  let h := b.header
  require (¬h.number > u64Max) (.invalidBlockNumber h.number)
  require (h.difficulty = 1) (.invalidDifficulty h.difficulty)
  require (h.nonce = 0) (.invalidNonce h.nonce)
  require (h.mixDigest = 0) (.invalidMixDigest h.mixDigest)
  let phase := cfg.chainSpec.forkAt h.time
  verifyExtraLength phase h.extra.length
  require (b.version = 0) (.invalidBlockVersion b.version)
  let txRoot := cfg.calculateTransactionRoot b.transactions
  require (txRoot = h.txRoot) (.txRootMismatch h.txRoot txRoot)
  require (h.uncleHash = emptyOmmerRootHash) (.invalidUncleHash h.uncleHash)
  require (h.coinbase = blackholeAddress) (.invalidCoinbase h.coinbase)
  if phase < .apricotPhase1 then b.checkMinGasPrice ap0MinGasPrice
  else if phase < .apricotPhase3 then b.checkMinGasPrice ap1MinGasPrice
  require (¬(phase ≥ .apricotPhase3 ∧ h.baseFee.isNone)) .nilBaseFee
  require (phase ≥ .apricotPhase4 → h.blockGasCost.any (· ≤ u64Max))
    (.invalidBlockGasCost h.blockGasCost)
  verifyCancunFields phase h
  let blobs := (b.transactions.map fun tx ↦ tx.blobVersionedHashes.getD 0).sum
  let calculated := saturatingMul blobs dataGasPerBlob
  let declared := h.blobGasUsed.getD 0
  require (declared = calculated) (.blobGasUsedMismatch declared calculated)

def verifyIntrinsicGas (cfg : AvaEvmConfig R) (b : EvmBlock R) (parent : AvaHeader R) :
    Except Error Unit := do
  (verifyGasUsed cfg.chainSpec parent b.header).mapError .gasUsedRelativeToCapacity
  let shanghai : Bool := cfg.chainSpec.forkAt b.header.time ≥ .durango
  let total := b.transactions.foldl
    (fun total tx ↦ saturatingAdd total (intrinsicGas tx shanghai)) 0
  require (¬total > b.header.gasUsed) (.totalIntrinsicGasExceedsClaimed total b.header.gasUsed)

def recoverSenders (cfg : AvaEvmConfig R) (b : EvmBlock R) : Except Error (List RecoveredTx) :=
  b.transactions.mapM fun tx ↦ orError (cfg.tryIntoRecovered tx) .nilTx

end EvmBlock

/-! ### The lifecycle -/

structure EvmBlockContext (R : Type) where
  state : FirewoodStateProvider R
  canonical : CanonicalStore R
  atomicBackend : Option AtomicBackend

namespace EvmBlockContext

variable {R : Type}

/-- The source leaves the inputs of processing ancestors to a later version. -/
def processingAncestorInputs (_ctx : EvmBlockContext R) : Finset Id := ∅

end EvmBlockContext

namespace EvmBlock

variable {R : Type} (cfg : AvaEvmConfig R)

/-- The check of the atomic txs against shared memory, once the node is bootstrapped. -/
def verifyPresence (b : EvmBlock R) (ctx : EvmBlockContext R) (bootstrapped : Bool) :
    Except Error Unit :=
  match ctx.atomicBackend with
  | some backend =>
    if bootstrapped then
      verifyUtxosPresent cfg.sha256 backend.sharedMemory b.atomicTxs b.header.number b.hash
    else .ok ()
  | none => .ok ()

/-- The gas the header claims is checked once the node is bootstrapped. -/
def verifyClaimedGas (b : EvmBlock R) (parent : AvaHeader R) (bootstrapped : Bool) :
    Except Error Unit :=
  if bootstrapped then b.verifyIntrinsicGas cfg parent else .ok ()

/-- All that is checked before the block is executed; the result are its txs. -/
def verifyBeforeExecution (b : EvmBlock R) (ctx : EvmBlockContext R) (parent : AvaHeader R)
    (nowMs : ℕ) (bootstrapped : Bool) : Except Error (List RecoveredTx) := do
  b.syntacticVerify cfg
  verifyHeaderGasFields cfg.chainSpec parent b.header
  verifyMinDelayExcess cfg.chainSpec parent b.header
  verifyTime cfg.chainSpec parent b.header nowMs
  b.verifyClaimedGas cfg parent bootstrapped
  verifyExtDataGasUsed cfg.chainSpec b.header b.atomicTxs
  b.verifyPresence cfg ctx bootstrapped
  verifyNoConflicts cfg.sha256 (b.atomicTxs.map (·.unsigned)) ctx.processingAncestorInputs
  b.recoverSenders cfg

/-- The execution of a block over a view of its parent's state. The pre-hook of a verification does
nothing: what the atomic txs change is left to a later version. -/
def executeOn (b : EvmBlock R) (view : World) (txs : List RecoveredTx) :
    Except Error ExecOutcome := do
  let header ← b.ethEnvHeader
  cfg.execute (cfg.evmEnvForHeader header) view txs

/-- The rows of a block, in the order in which they are written. -/
def canonicalRows (b : EvmBlock R) (receipts : List EthReceipt) : List (Row R) :=
  CanonicalStore.rows b.header.number b.hash b.header.stateRoot b.extData
    (cfg.encodeBlockReceipts receipts)

/-- The loop of `index_accepted_receipts` over the txs that are left. It stops at a receipt with
less gas than the one before, and where the logs cannot be counted any more. -/
def txRows (number : ℕ) : ℕ → ℕ → List (RecoveredTx × EthReceipt) → List (Row R)
  | _, _, [] => []
  | cumulativeBefore, logCountBefore, (tx, receipt) :: rest =>
    if receipt.cumulativeGasUsed < cumulativeBefore then []
    else match checkedAdd logCountBefore receipt.logs with
      | none => []
      | some logCount =>
        .txNumber tx.inner.hash number :: txRows number receipt.cumulativeGasUsed logCount rest

/-- The rows of `index_accepted_receipts`. Where it fails, the acceptance goes on. -/
def indexAcceptedReceipts (b : EvmBlock R) (receipts : List EthReceipt) : List (Row R) :=
  match b.recoverSenders cfg, b.ethEnvHeader with
  | .ok txs, .ok _ =>
    if txs.length ≠ receipts.length then [] else txRows b.header.number 0 0 (txs.zip receipts)
  | _, _ => []

variable [DecidableEq R]

/-- What is proposed stays put aside unless the block turns out to be invalid. -/
def verifyWithPredicates (b : EvmBlock R) (parentStateRoot : R) (parent : AvaHeader R) (nowMs : ℕ)
    (bootstrapped : Bool) : Handler Error (EvmBlockContext R) R := do
  let ctx ← get
  let txs ← liftM (b.verifyBeforeExecution cfg ctx parent nowMs bootstrapped)
  let view ← liftM (ctx.state.historyByStateRoot cfg.hashing parentStateRoot)
  let outcome ← liftM (b.executeOn cfg view txs)
  let (precommit, state) := ctx.state.proposeFromBundle cfg.hashing outcome.bundle
  set { ctx with state := state }
  if precommit ≠ b.header.stateRoot then
    set { ctx with state := state.discard precommit }
    throw Error.missingProposal
  else if outcome.gasUsed ≠ b.header.gasUsed then
    set { ctx with state := state.discard precommit }
    throw Error.noGasUsed
  else
    return precommit

/-- The receipts are those that the block's own context kept from its verification. -/
def accept (b : EvmBlock R) (precommitRoot : R) (receipts : List EthReceipt) :
    Handler Error (EvmBlockContext R) Unit := do
  let state ← liftM ((← get).state.commit precommitRoot)
  modify fun ctx ↦ { ctx with state := state }
  match (← get).atomicBackend with
  | none => pure ()
  | some backend =>
    let accepted := AtomicBackend.accept cfg.sha256 b.header.number b.atomicTxs
    modify fun ctx ↦ { ctx with atomicBackend := some (accepted.exec backend) }
    liftM (accepted.outcome backend)
  let canonical ← liftM ((← get).canonical.appendCanonical b.header.number b.hash b.header.stateRoot
    b.extData (cfg.encodeBlockReceipts receipts))
  modify fun ctx ↦ { ctx with canonical := canonical }
  unless receipts.isEmpty do
    modify fun ctx ↦ { ctx with
      canonical := (b.indexAcceptedReceipts cfg receipts).foldl CanonicalStore.put ctx.canonical }

def reject (precommitRoot : R) : Handler Error (EvmBlockContext R) Unit :=
  modify fun ctx ↦ { ctx with state := ctx.state.discard precommitRoot }

end EvmBlock

/-! ### What a verification and an acceptance do -/

namespace EvmBlock

variable {R : Type} (cfg : AvaEvmConfig R)
variable {ctx : EvmBlockContext R} {b : EvmBlock R} {root : R} {ops : FirewoodOps}

/-- The acceptance of the block by the backend. -/
abbrev acceptAtomic (b : EvmBlock R) : Handler Error AtomicBackend Unit :=
  AtomicBackend.accept cfg.sha256 b.header.number b.atomicTxs

/-- The rows after the tip are all of one kind. -/
theorem eq_txNumber_of_mem_txRows {number cumulative logs : ℕ}
    {l : List (RecoveredTx × EthReceipt)} {row : Row R}
    (h : row ∈ txRows number cumulative logs l) : ∃ txHash, row = .txNumber txHash number := by
  induction l generalizing cumulative logs with
  | nil => cases h
  | cons p rest ih =>
    rw [txRows] at h
    split at h
    · cases h
    split at h
    · cases h
    rcases List.mem_cons.mp h with rfl | h
    · exact ⟨_, rfl⟩
    · exact ih h

theorem eq_txNumber_of_mem_indexAcceptedReceipts {receipts : List EthReceipt} {row : Row R}
    (h : row ∈ b.indexAcceptedReceipts cfg receipts) :
    ∃ txHash, row = .txNumber txHash b.header.number := by
  rw [indexAcceptedReceipts] at h
  split at h
  · split at h
    · cases h
    · exact eq_txNumber_of_mem_txRows h
  · cases h

theorem indexAcceptedReceipts_nil (b : EvmBlock R) : b.indexAcceptedReceipts cfg [] = [] := by
  rw [indexAcceptedReceipts]
  split
  · simp [txRows]
  · rfl

/-- The operations that executing a block over `view` asks for, and the gas it takes. -/
def outcomeOn (b : EvmBlock R) (view : World) : Except Error (FirewoodOps × ℕ) := do
  let txs ← b.recoverSenders cfg
  let out ← b.executeOn cfg view txs
  .ok (hashedPostStateToBatchops out.bundle, out.gasUsed)

section Checks

variable {cfg} {parent : AvaHeader R} {nowMs : ℕ} {bootstrapped : Bool} {txs : List RecoveredTx}

/-- The checks, one by one. -/
theorem verifyBeforeExecution_eq_ok_iff :
    b.verifyBeforeExecution cfg ctx parent nowMs bootstrapped = .ok txs ↔
      b.syntacticVerify cfg = .ok () ∧
      verifyHeaderGasFields cfg.chainSpec parent b.header = .ok () ∧
      verifyMinDelayExcess cfg.chainSpec parent b.header = .ok () ∧
      verifyTime cfg.chainSpec parent b.header nowMs = .ok () ∧
      b.verifyClaimedGas cfg parent bootstrapped = .ok () ∧
      verifyExtDataGasUsed cfg.chainSpec b.header b.atomicTxs = .ok () ∧
      b.verifyPresence cfg ctx bootstrapped = .ok () ∧
      verifyNoConflicts cfg.sha256 (b.atomicTxs.map (·.unsigned)) ctx.processingAncestorInputs
        = .ok () ∧
      b.recoverSenders cfg = .ok txs := by
  simp only [verifyBeforeExecution, Except.bind_unit_eq_ok_iff]

theorem recoverSenders_of_verifyBeforeExecution
    (h : b.verifyBeforeExecution cfg ctx parent nowMs bootstrapped = .ok txs) :
    b.recoverSenders cfg = .ok txs := by
  obtain ⟨-, -, -, -, -, -, -, -, h⟩ := verifyBeforeExecution_eq_ok_iff.mp h
  exact h

end Checks

variable [DecidableEq R]

/-- Either nothing happens before the block is refused, or it is executed over a retained revision.
The operations are then proposed against the *tip*: if they lead to the root and the gas of the
header they stay put aside under that root, and if not, nothing stays put aside under the root they
lead to. -/
theorem verifyWithPredicates_cases (b : EvmBlock R) (root : R) (parent : AvaHeader R) (nowMs : ℕ)
    (bootstrapped : Bool) (ctx : EvmBlockContext R) :
    let m := b.verifyWithPredicates cfg root parent nowMs bootstrapped
    (∃ e, m.outcome ctx = .error e ∧ m.exec ctx = ctx ∧
      ∀ txs view, b.verifyBeforeExecution cfg ctx parent nowMs bootstrapped = .ok txs →
        ctx.state.historyByStateRoot cfg.hashing root = .ok view →
        ∀ p, b.outcomeOn cfg view ≠ .ok p) ∨
    ∃ txs view ops gas, b.verifyBeforeExecution cfg ctx parent nowMs bootstrapped = .ok txs ∧
      ctx.state.historyByStateRoot cfg.hashing root = .ok view ∧
      b.outcomeOn cfg view = .ok (ops, gas) ∧
      ((cfg.hashing.root (ctx.state.db.tip.propose ops) = b.header.stateRoot ∧
          gas = b.header.gasUsed ∧ m.outcome ctx = .ok b.header.stateRoot ∧
          m.exec ctx = { ctx with state := ctx.state.stashProposal b.header.stateRoot ops }) ∨
        (¬(cfg.hashing.root (ctx.state.db.tip.propose ops) = b.header.stateRoot ∧
            gas = b.header.gasUsed) ∧ (∃ e, m.outcome ctx = .error e) ∧
          m.exec ctx = { ctx with
            state := ctx.state.discard (cfg.hashing.root (ctx.state.db.tip.propose ops)) })) := by
  intro m
  rcases hpre : b.verifyBeforeExecution cfg ctx parent nowMs bootstrapped with e | txs
  · left
    simp [m, verifyWithPredicates, Handler.outcome_bind, Handler.exec_bind, hpre]
  rcases hview : ctx.state.historyByStateRoot cfg.hashing root with e | view
  · left
    simp [m, verifyWithPredicates, Handler.outcome_bind, Handler.exec_bind, hpre, hview]
  rcases hout : b.executeOn cfg view txs with e | out
  · left
    refine ⟨e, ?_, ?_, ?_⟩
    · simp [m, verifyWithPredicates, Handler.outcome_bind, hpre, hview, hout]
    · simp [m, verifyWithPredicates, Handler.exec_bind, hpre, hview, hout]
    · rintro _ _ ⟨⟩ ⟨⟩ p hp
      rw [outcomeOn, recoverSenders_of_verifyBeforeExecution hpre, Except.ok_bind, hout] at hp
      cases hp
  right
  have hon : b.outcomeOn cfg view = .ok (hashedPostStateToBatchops out.bundle, out.gasUsed) := by
    rw [outcomeOn, recoverSenders_of_verifyBeforeExecution hpre, Except.ok_bind, hout,
      Except.ok_bind]
  refine ⟨txs, view, _, _, rfl, rfl, hon, ?_⟩
  simp only [m, verifyWithPredicates, Handler.outcome_bind, Handler.exec_bind, hpre, hview, hout,
    Handler.outcome_get, Handler.exec_get, Handler.outcome_liftM, Handler.exec_liftM,
    Handler.outcome_set, Handler.exec_set, FirewoodStateProvider.proposeFromBundle,
    FirewoodStateProvider.proposeAndStash]
  by_cases hroot : cfg.hashing.root (ctx.state.db.tip.propose
      (hashedPostStateToBatchops out.bundle)) = b.header.stateRoot
  · by_cases hgas : out.gasUsed = b.header.gasUsed
    · left
      simp [hroot, hgas]
    · right
      simp [hroot, hgas, Handler.outcome_bind, Handler.exec_bind]
  · right
    simp [hroot, Handler.outcome_bind, Handler.exec_bind]

/-- What is left of an acceptance once the state is committed, if the backend does not fail: the
block is appended to the canonical store, or has the wrong number for it. -/
theorem accept_of_atomic (hstash : ctx.state.stash root = some ops)
    (hatomic : ∀ backend ∈ ctx.atomicBackend, (b.acceptAtomic cfg).outcome backend = .ok ())
    (receipts : List EthReceipt) :
    let append := ctx.canonical.appendCanonical b.header.number b.hash b.header.stateRoot b.extData
      (cfg.encodeBlockReceipts receipts)
    (b.accept cfg root receipts).outcome ctx = append.map (fun _ ↦ ()) ∧
      (b.accept cfg root receipts).exec ctx =
        { state := ctx.state.committed root ops
          canonical := (append.map ((b.indexAcceptedReceipts cfg receipts).foldl
            CanonicalStore.put)).toOption.getD ctx.canonical
          atomicBackend := ctx.atomicBackend.map (b.acceptAtomic cfg).exec } := by
  intro append
  have hcommit := FirewoodStateProvider.commit_of_stash hstash
  rcases hbackend : ctx.atomicBackend with - | backend
  · rcases happend : append with e | canonical <;> simp only [append] at happend <;>
      rcases receipts with - | ⟨receipt, receipts⟩ <;>
      simp [accept, Handler.outcome_bind, Handler.exec_bind, hcommit, hbackend, happend, Except.map,
        Except.toOption, indexAcceptedReceipts_nil]
  · have hbackend' := hatomic backend hbackend
    rcases happend : append with e | canonical <;> simp only [append] at happend <;>
      rcases receipts with - | ⟨receipt, receipts⟩ <;>
      simp [accept, Handler.outcome_bind, Handler.exec_bind, hcommit, hbackend, hbackend', happend,
        Except.map, Except.toOption, indexAcceptedReceipts_nil]

/-- A block whose operations are put aside and whose number is the next one is accepted, if its
atomic txs do not fail. -/
theorem accept_of_next (hstash : ctx.state.stash root = some ops)
    (hnext : ctx.canonical.next = .ok b.header.number)
    (hatomic : ∀ backend ∈ ctx.atomicBackend, (b.acceptAtomic cfg).outcome backend = .ok ())
    (receipts : List EthReceipt) :
    (b.accept cfg root receipts).outcome ctx = .ok () ∧
      (b.accept cfg root receipts).exec ctx =
        { state := ctx.state.committed root ops
          canonical := (b.canonicalRows cfg receipts ++ b.indexAcceptedReceipts cfg receipts).foldl
            CanonicalStore.put ctx.canonical
          atomicBackend := ctx.atomicBackend.map (b.acceptAtomic cfg).exec } := by
  have happend : ctx.canonical.appendCanonical b.header.number b.hash b.header.stateRoot b.extData
      (cfg.encodeBlockReceipts receipts) = .ok ((b.canonicalRows cfg receipts).foldl
        CanonicalStore.put ctx.canonical) := by
    simp [CanonicalStore.appendCanonical, hnext, require, canonicalRows]
  obtain ⟨hout, hexec⟩ := accept_of_atomic cfg hstash hatomic receipts
  rw [happend] at hout hexec
  exact ⟨hout, by rw [hexec, List.foldl_append]; rfl⟩

/-- The same for a block without atomic txs, or a node without a backend. -/
theorem accept_of_stash (hstash : ctx.state.stash root = some ops)
    (hnext : ctx.canonical.next = .ok b.header.number)
    (hatomic : ctx.atomicBackend = none ∨ b.atomicTxs = []) (receipts : List EthReceipt) :
    (b.accept cfg root receipts).outcome ctx = .ok () ∧
      (b.accept cfg root receipts).exec ctx =
        { state := ctx.state.committed root ops
          canonical := (b.canonicalRows cfg receipts ++ b.indexAcceptedReceipts cfg receipts).foldl
            CanonicalStore.put ctx.canonical
          atomicBackend := ctx.atomicBackend } := by
  have hnil : ∀ backend ∈ ctx.atomicBackend, (b.acceptAtomic cfg).outcome backend = .ok () ∧
      (b.acceptAtomic cfg).exec backend = backend := by
    intro backend hbackend
    rcases hatomic with h | h
    · cases h.symm.trans hbackend
    · rw [acceptAtomic, h]
      exact AtomicBackend.accept_nil cfg.sha256 b.header.number backend
  obtain ⟨hout, hexec⟩ := accept_of_next cfg hstash hnext (fun _ h ↦ (hnil _ h).1) receipts
  refine ⟨hout, ?_⟩
  rw [hexec]
  rcases hbackend : ctx.atomicBackend with - | backend
  · rfl
  · rw [Option.map_some, (hnil backend hbackend).2]

/-- An acceptance goes through its stores one after the other, and stops where one fails. -/
theorem accept_cases (b : EvmBlock R) (root : R) (receipts : List EthReceipt)
    (ctx : EvmBlockContext R) :
    let m := b.accept cfg root receipts
    let atomic := b.acceptAtomic cfg
    let append := ctx.canonical.appendCanonical b.header.number b.hash b.header.stateRoot b.extData
      (cfg.encodeBlockReceipts receipts)
    (∃ e, ctx.state.stash root = none ∧ m.outcome ctx = .error e ∧ m.exec ctx = ctx) ∨
    ∃ ops, ctx.state.stash root = some ops ∧
      let state := ctx.state.committed root ops
      ((∃ backend e, ctx.atomicBackend = some backend ∧ atomic.outcome backend = .error e ∧
          m.outcome ctx = .error e ∧
          m.exec ctx = ⟨state, ctx.canonical, some (atomic.exec backend)⟩) ∨
        ((∀ backend ∈ ctx.atomicBackend, atomic.outcome backend = .ok ()) ∧
          ((∃ e, append = .error e ∧ m.outcome ctx = .error e ∧
              m.exec ctx = ⟨state, ctx.canonical, ctx.atomicBackend.map atomic.exec⟩) ∨
            ∃ canonical, append = .ok canonical ∧ m.outcome ctx = .ok () ∧
              m.exec ctx = ⟨state, (b.indexAcceptedReceipts cfg receipts).foldl CanonicalStore.put
                canonical, ctx.atomicBackend.map atomic.exec⟩))) := by
  intro m atomic append
  rcases hstash : ctx.state.stash root with - | ops
  · left
    have hcommit : ctx.state.commit root = .error .missingProposal := by
      simp [FirewoodStateProvider.commit, hstash, orError]
    simp [m, accept, Handler.outcome_bind, Handler.exec_bind, hcommit]
  right
  refine ⟨ops, rfl, ?_⟩
  have hcommit := FirewoodStateProvider.commit_of_stash hstash
  by_cases hok : ∀ backend ∈ ctx.atomicBackend, atomic.outcome backend = .ok ()
  · right
    obtain ⟨hout, hexec⟩ := accept_of_atomic cfg hstash hok receipts
    refine ⟨hok, ?_⟩
    rcases happend : append with e | canonical <;> simp only [append] at happend <;>
      rw [happend] at hout hexec
    · exact .inl ⟨e, rfl, hout, hexec⟩
    · exact .inr ⟨canonical, rfl, hout, hexec⟩
  · left
    push Not at hok
    obtain ⟨backend, hbackend, hne⟩ := hok
    rcases hatomic : atomic.outcome backend with e | ⟨⟩
    · refine ⟨backend, e, hbackend, hatomic, ?_⟩
      simp [m, atomic, accept, Handler.outcome_bind, Handler.exec_bind, hcommit,
        Option.mem_def.mp hbackend, hatomic]
    · exact absurd hatomic hne

end EvmBlock

end Avalanche.Evm
