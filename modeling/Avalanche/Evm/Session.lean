import Avalanche.Evm.Vm

/-!
# Sessions

A session is the VM together with the blocks that have been accepted so far, which the VM does not
keep as such. The engine follows the rules of Snowman: it decides a block once, it accepts a block
only when the parent is the last accepted block, and it knows a block by its id.
-/

namespace Avalanche.Evm

open Std

structure Session (R : Type) where
  vm : Vm R
  /-- The last one first. -/
  accepted : List (EvmBlock R)

namespace Session

variable {R : Type}

def acceptedIds (s : Session R) : List Id := s.accepted.map (·.hash)

/-- A block that was verified and has been neither accepted nor rejected. -/
structure Undecided (s : Session R) (b : EvmBlock R) (root : R) : Prop where
  verified : s.vm.verified[b.hash]? = some ⟨b, root⟩
  not_accepted : b.hash ∉ s.acceptedIds

/-- A VM that has just been opened: nothing is undecided. -/
structure Opened (s : Session R) : Prop where
  lastAccepted_mem : s.vm.lastAccepted.1 ∈ s.acceptedIds
  verified_accepted : ∀ id pb, s.vm.verified[id]? = some pb → id ∈ s.acceptedIds

variable [DecidableEq R] {b : EvmBlock R} {s : Session R}

theorem undecided_of_any (hnot : b.hash ∉ s.acceptedIds)
    (h : (s.vm.verified[b.hash]?).any (·.block = b)) : ∃ root, s.Undecided b root := by
  rcases hv : s.vm.verified[b.hash]? with - | ⟨block, root⟩
  · rw [hv] at h
    cases h
  · obtain rfl : block = b := by simpa [hv] using h
    exact ⟨root, hv, hnot⟩

/-- The rules the engine follows. It may reject any undecided block. -/
def Legal (s : Session R) : Event R → Prop
  | .verify b _ _ =>
    b.hash ∉ s.acceptedIds ∧ ∀ pb ∈ s.vm.verified[b.hash]?, pb.block = b
  | .accept b _ =>
    b.hash ∉ s.acceptedIds ∧ b.header.parentHash = s.vm.lastAccepted.1 ∧
      (s.vm.verified[b.hash]?).any (·.block = b)
  | .reject b => b.hash ∉ s.acceptedIds ∧ (s.vm.verified[b.hash]?).any (·.block = b)

instance (s : Session R) : DecidablePred s.Legal := by
  rintro (_ | _ | _) <;> unfold Legal <;> infer_instance

variable (cfg : AvaEvmConfig R)

/-- A step of the VM. -/
def onVm (m : Handler Error (Vm R) Unit) : Handler Error (Session R) Unit :=
  Handler.zoom (·.vm) (fun vm s ↦ { s with vm := vm }) m

def handle : Event R → Handler Error (Session R) Unit
  | .verify b nowMs bootstrapped => onVm (Vm.verify cfg b nowMs bootstrapped)
  | .accept b receipts => do
    onVm (Vm.accept cfg b receipts)
    modify fun s ↦ { s with accepted := b :: s.accepted }
  | .reject b => onVm (Vm.reject b)

def run (s : Session R) (events : List (Event R)) : Session R :=
  Handler.execAll (handle cfg) s events

variable {cfg}

/-- An undecided block leaves the tree and nothing stays put aside under its root. -/
theorem exec_reject {root : R} (hb : s.Undecided b root) :
    (handle cfg (.reject b)).exec s = { s with vm := { s.vm with
      ctx := { s.vm.ctx with state := s.vm.ctx.state.discard root }
      verified := s.vm.verified.erase b.hash } } := by
  simp [handle, onVm, Vm.reject, Vm.onCtx, EvmBlock.reject, Handler.exec_bind, hb.verified]

variable (cfg) in
/-- An acceptance of a block whose operations are put aside. -/
theorem accept_of_stash {root : R} {ops : FirewoodOps}
    (hb : s.vm.verified[b.hash]? = some ⟨b, root⟩) (hstash : s.vm.ctx.state.stash root = some ops)
    (hnext : s.vm.ctx.canonical.next = .ok b.header.number)
    (hatomic : s.vm.ctx.atomicBackend = none ∨ b.atomicTxs = []) (receipts : List EthReceipt) :
    (handle cfg (.accept b receipts)).outcome s = .ok () ∧
      ((handle cfg (.accept b receipts)).exec s).accepted = b :: s.accepted ∧
      ((handle cfg (.accept b receipts)).exec s).vm.lastAccepted = (b.hash, b.header.number) ∧
      ((handle cfg (.accept b receipts)).exec s).vm.verified = s.vm.verified ∧
      ((handle cfg (.accept b receipts)).exec s).vm.ctx.state.db.tip
        = s.vm.ctx.state.db.tip.propose ops := by
  obtain ⟨hout, hexec⟩ := EvmBlock.accept_of_stash cfg hstash hnext hatomic receipts
  simp [handle, onVm, Vm.accept, Vm.onCtx, Handler.outcome_bind, Handler.exec_bind, hb, hout, hexec,
    Except.orError, Db.commit]

end Session

/-! ### A chain before its first upgrade

The smallest chain the results are tried on: no upgrade is active, the root of a state is the state,
and a tx uses up a nonce of its signer, who pays for the gas of a transfer. -/

namespace Plain

def spec : AvaChainSpec where
  networkUpgrades := ⟨u64Max, u64Max, u64Max, u64Max, u64Max, u64Max, u64Max, u64Max, u64Max,
    u64Max, u64Max, u64Max, u64Max, u64Max⟩

/-- What a tx leaves of the account of its signer. -/
def pay (w : World) (tx : RecoveredTx) : Except Error World := do
  let info := (w.basicAccount tx.signer).getD .default
  let fee := 21000 * tx.inner.maxFeePerGas
  Except.require (fee ≤ info.balance) .execution
  let info := { info with nonce := info.nonce + 1, balance := info.balance - fee }
  .ok { w with accounts := w.accounts.insert tx.signer info }

def execute (_env : AvaEvmEnv World) (view : World) (txs : List RecoveredTx) :
    Except Error ExecOutcome := do
  let w ← txs.foldlM pay view
  .ok ⟨21000 * txs.length, txs.foldl (fun accounts tx ↦
    accounts.insert tx.signer (w.basicAccount tx.signer)) ∅, ∅⟩

def config : AvaEvmConfig World where
  chainSpec := spec
  hashing := ⟨id, Function.injective_id⟩
  sha256 bytes := BitVec.ofNat 256 (Wire.ofBe bytes)
  headerHash h := BitVec.ofNat 256 h.number
  calculateTransactionRoot txs := BitVec.ofNat 256 txs.length
  tryIntoRecovered tx := some ⟨tx, 7⟩
  encodeBlockReceipts receipts := receipts.flatMap (·.envelope)
  execute := execute

def tx : TransactionSigned := ⟨0, ap0MinGasPrice, 21000, [], false, none, none⟩

/-- The account of all txs after one of them, with what is left of its funds. -/
def paidAccount : Account := ⟨1, 10 ^ 16 - 21000 * ap0MinGasPrice, none⟩

/-- The state with only that account, before the tx and after it. -/
def rich : World := ⟨(∅ : ExtTreeMap Address Account).insert 7 ⟨0, 10 ^ 16, none⟩, ∅⟩

def paid : World := ⟨(∅ : ExtTreeMap Address Account).insert 7 paidAccount, ∅⟩

/-- Block `number` of a chain, with hash `hash`, on top of the block with hash `parent`. -/
def block (number : ℕ) (hash parent : B256) (root : World) (txs : List TransactionSigned)
    (atomicTxs : List Tx) : EvmBlock World where
  header :=
    { parentHash := parent, uncleHash := emptyOmmerRootHash, coinbase := blackholeAddress,
      stateRoot := root, txRoot := BitVec.ofNat 256 txs.length, receiptRoot := 0, bloom := [],
      difficulty := 1, number := number, gasLimit := 8000000, gasUsed := 21000 * txs.length,
      time := number, extra := [], mixDigest := 0, nonce := 0, extDataHash := 0, baseFee := none,
      extDataGasUsed := none, blockGasCost := none, blobGasUsed := none, excessBlobGas := none,
      parentBeaconRoot := none, timeMilliseconds := none, minDelayExcess := none }
  transactions := txs
  atomicTxs := atomicTxs
  extData := []
  version := 0
  hash := hash

def genesis : EvmBlock World := block 0 100 0 rich [] []

/-- The chain with nothing but its genesis block, and shared memory `backend`. -/
def start (backend : Option AtomicBackend) : Session World where
  vm :=
    { ctx := ⟨.openAt ⟨rich, []⟩, .new, backend⟩
      verified := (∅ : ExtTreeMap Id (ProcessingBlock World)).insert 100 ⟨genesis, rich⟩
      lastAccepted := (100, 0) }
  accepted := [genesis]

theorem start_opened (backend : Option AtomicBackend) : (start backend).Opened where
  lastAccepted_mem := List.mem_singleton.mpr rfl
  verified_accepted id pb h := by
    simp only [start, TreeMap.getElem?_insert_eq] at h
    split at h
    · rename_i hid
      rw [← hid]
      exact List.mem_singleton.mpr rfl
    · simp at h

end Plain

end Avalanche.Evm
