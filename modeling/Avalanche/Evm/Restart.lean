import Avalanche.Evm.Crash

/-!
# Opening the C-Chain again

The genesis block is not stored. Every start makes its header anew, from the genesis and the root
the database has by then, and the id of that header is what the chain is known by. A database
without state gets the allocation first; any other one is taken as it is, whatever blocks it has
seen.
-/

namespace Avalanche.Evm

open Std

/-- `EMPTY_ROOT_HASH`. -/
def emptyRootHash : B256 := 0x56e81f171bcc55a6ff8345e692c0f86e5b48e01b996cadc001622fb5e363b421

/-- The genesis as parsed. -/
structure CChainGenesis where
  parentHash : B256
  coinbase : Address
  difficulty : ℕ
  number : ℕ
  gasLimit : ℕ
  gasUsed : ℕ
  timestamp : ℕ
  extra : Bytes
  mixDigest : B256
  nonce : ℕ
  baseFee : Option ℕ
  blobGasUsed : Option ℕ
  excessBlobGas : Option ℕ
  /-- The allocation with the accounts of the precompiles that are active by then. -/
  genesisAlloc : NetworkUpgrades → HashedPostState

namespace CChainGenesis

variable {R : Type} (cfg : AvaEvmConfig R) (genesis : CChainGenesis)

def genesisHeader (root : R) (upgrades : NetworkUpgrades) : AvaHeader R :=
  let ts := genesis.timestamp
  let since {α : Type} (phase : AvaPhase) (a : α) : Option α :=
    if upgrades.activation phase ≤ ts then some a else none
  { parentHash := genesis.parentHash
    uncleHash := emptyOmmerRootHash
    coinbase := genesis.coinbase
    stateRoot := root
    txRoot := emptyRootHash
    receiptRoot := emptyRootHash
    bloom := List.replicate 256 0
    difficulty := genesis.difficulty
    number := genesis.number
    gasLimit := genesis.gasLimit
    gasUsed := genesis.gasUsed
    time := ts
    extra := genesis.extra
    mixDigest := genesis.mixDigest
    nonce := genesis.nonce
    extDataHash := 0
    baseFee := since .apricotPhase3 (genesis.baseFee.getD BaseFeeParams.ap3.maxBaseFee)
    extDataGasUsed := since .etna 0
    blockGasCost := since .etna 0
    blobGasUsed := since .etna (genesis.blobGasUsed.getD 0)
    excessBlobGas := since .etna (genesis.excessBlobGas.getD 0)
    parentBeaconRoot := since .etna 0
    timeMilliseconds := since .granite (saturatingMul ts 1000)
    minDelayExcess := since .granite initialDelayExcess }

/-- The id of the genesis block over a state. -/
def idAt (w : World) : Id :=
  cfg.headerHash (genesis.genesisHeader (cfg.hashing.root w) cfg.chainSpec.networkUpgrades)

/-- `EvmVm::from_genesis`, as far as the id of the genesis block and the state go. -/
def fromGenesis [DecidableEq R] (p : FirewoodStateProvider R) :
    Except Error (Id × FirewoodStateProvider R) := do
  let p ← if p.root cfg.hashing = cfg.hashing.root .empty then
      let proposal := p.proposeFromBundle cfg.hashing
        (genesis.genesisAlloc cfg.chainSpec.networkUpgrades)
      proposal.2.commit proposal.1
    else .ok p
  .ok (genesis.idAt cfg p.db.tip, p)

/-- The state a start leaves. -/
def opened (w : World) : World :=
  if w = .empty then
    w.propose (hashedPostStateToBatchops (genesis.genesisAlloc cfg.chainSpec.networkUpgrades))
  else w

variable [DecidableEq R]

/-- A start always succeeds. -/
theorem fromGenesis_eq (p : FirewoodStateProvider R) :
    ∃ q, q.db.tip = genesis.opened cfg p.db.tip ∧
      genesis.fromGenesis cfg p = .ok (genesis.idAt cfg (genesis.opened cfg p.db.tip), q) := by
  have hroot : p.root cfg.hashing = cfg.hashing.root .empty ↔ p.db.tip = .empty :=
    cfg.hashing.injective.eq_iff
  by_cases h : p.db.tip = .empty
  · rw [fromGenesis, if_pos (hroot.mpr h)]
    simp only [FirewoodStateProvider.proposeFromBundle, FirewoodStateProvider.proposeAndStash,
      FirewoodStateProvider.stashProposal, FirewoodStateProvider.commit, Function.update_self,
      opened, if_pos h]
    exact ⟨_, rfl, rfl⟩
  · rw [fromGenesis, if_neg (hroot.not.mpr h), opened, if_neg h]
    exact ⟨p, rfl, rfl⟩

end CChainGenesis

section Again

variable {R : Type} [DecidableEq R] {cfg : AvaEvmConfig R} {start ctx : EvmBlockContext R}
  {blocks : List (EvmBlock R)}

/-- The root of the state is that of the last accepted block. -/
theorem Chain.root (h : Chain cfg start blocks ctx) :
    ctx.state.root cfg.hashing
      = (blocks.getLast?.map (·.header.stateRoot)).getD (start.state.root cfg.hashing) := by
  induction h with
  | start => rfl
  | stash _ _ ih => exact ih
  | accept _ hb _ =>
    rw [hb.exec.2.2, List.getLast?_concat, Option.map_some, Option.getD_some, ← hb.root]
    rfl

/-- A start after blocks have been accepted gives the id of genesis if they have led back to the
state it left, and no other way unless two headers of genesis have the same hash. -/
theorem fromGenesis_again (genesis : CChainGenesis) (p₀ : FirewoodStateProvider R) :
    ∃ id p, genesis.fromGenesis cfg p₀ = .ok (id, p) ∧
      ∀ start blocks ctx, start.state = p → Chain cfg start blocks ctx →
        cfg.hashing.root ctx.state.db.tip
          = (blocks.getLast?.map (·.header.stateRoot)).getD (p.root cfg.hashing) ∧
        ∃ id' p', genesis.fromGenesis cfg ctx.stop.state = .ok (id', p') ∧
          (genesis.opened cfg ctx.state.db.tip = p.db.tip → id' = id) ∧
          ((∀ w, genesis.idAt cfg w = id → w = p.db.tip) → id' = id →
            genesis.opened cfg ctx.state.db.tip = p.db.tip) := by
  obtain ⟨p, htip, hfirst⟩ := genesis.fromGenesis_eq cfg p₀
  refine ⟨_, p, hfirst, ?_⟩
  rintro start blocks ctx rfl hchain
  obtain ⟨p', -, hagain⟩ := genesis.fromGenesis_eq cfg ctx.stop.state
  refine ⟨hchain.root, _, p', hagain, fun hsame ↦ ?_, fun hpre hid ↦ hpre _ hid⟩
  rw [← htip, ← hsame]
  rfl

end Again

namespace Plain

/-- A genesis that funds the account of all txs. -/
def richGenesis : CChainGenesis :=
  { parentHash := 0, coinbase := 0, difficulty := 0, number := 0, gasLimit := 8000000, gasUsed := 0,
    timestamp := 0, extra := [], mixDigest := 0, nonce := 0, baseFee := none, blobGasUsed := none,
    excessBlobGas := none,
    genesisAlloc := fun _ ↦ ⟨(∅ : ExtTreeMap Address (Option Account)).insert 7
      (some ⟨0, 10 ^ 16, none⟩), ∅⟩ }

/-- Headers over another state have another hash. -/
def rootConfig : AvaEvmConfig World :=
  { config with headerHash := fun h ↦ if h.stateRoot = rich then 1 else 2 }

/-- The state the first start leaves. -/
def startedState : FirewoodStateProvider World :=
  (richGenesis.fromGenesis rootConfig (.openAt ⟨.empty, []⟩)).toOption.elim (.openAt ⟨.empty, []⟩)
    (·.2)

def started : EvmBlockContext World := { firstCtx with state := startedState }

/-- A block with a tx, and one without, -/
def blockOf (txs : List TransactionSigned) : EvmBlock World :=
  block 1 101 100 (if txs = [] then rich else paid) txs []

def opsOf (txs : List TransactionSigned) : FirewoodOps :=
  if txs = [] then [] else [.putAccount 7 paidAccount]

/-- are verified -/
def startedCtx (txs : List TransactionSigned) : EvmBlockContext World :=
  { started with state := started.state.stashProposal (blockOf txs).header.stateRoot (opsOf txs) }

/-- and can be accepted. -/
theorem startedCtx_next {txs : List TransactionSigned} (h : txs = [] ∨ txs = [tx]) :
    Next rootConfig (startedCtx txs) (blockOf txs) (opsOf txs) [] where
  stash := by rcases h with rfl | rfl <;> decide +kernel
  root := by rcases h with rfl | rfl <;> decide +kernel
  accepts := by
    obtain ⟨⟨⟩, h⟩ := Except.isOk_iff.mp (show (((blockOf txs).accept rootConfig
      (blockOf txs).header.stateRoot []).outcome (startedCtx txs)).isOk = true by
        rcases h with rfl | rfl <;> decide +kernel)
    exact h

theorem startedState_eq {id : Id} {p : FirewoodStateProvider World}
    (h : richGenesis.fromGenesis rootConfig (.openAt ⟨.empty, []⟩) = .ok (id, p)) :
    started.state = p := by
  rw [started, startedState, h]
  rfl

end Plain

open Plain in
/-- A block without txs leaves the chain its id. -/
theorem fromGenesis_again_empty : ∃ id p ctx id' p',
    richGenesis.fromGenesis rootConfig (.openAt ⟨.empty, []⟩) = .ok (id, p) ∧ started.state = p ∧
      Chain rootConfig started [blockOf []] ctx ∧
      richGenesis.fromGenesis rootConfig ctx.stop.state = .ok (id', p') ∧ id' = id := by
  obtain ⟨id, p, hfirst, hagain⟩ :
      ∃ id p, richGenesis.fromGenesis rootConfig (.openAt ⟨.empty, []⟩) = .ok (id, p) ∧ _ :=
    fromGenesis_again richGenesis (.openAt ⟨.empty, []⟩)
  have hstate := startedState_eq hfirst
  have hstart : Chain rootConfig started [] started := .start
  have hchain := (hstart.stash _).accept (startedCtx_next (.inl rfl))
  obtain ⟨-, id', p', hsecond, hsame, -⟩ := hagain _ _ _ hstate hchain
  refine ⟨id, p, _, id', p', hfirst, hstate, hchain, hsecond, hsame ?_⟩
  rw [← hstate]
  decide +kernel

open Plain in
/-- A block with a tx gives the chain another id. -/
theorem fromGenesis_first_ne : ∃ id p ctx id' p',
    richGenesis.fromGenesis rootConfig (.openAt ⟨.empty, []⟩) = .ok (id, p) ∧ started.state = p ∧
      Chain rootConfig started [blockOf [tx]] ctx ∧
      richGenesis.fromGenesis rootConfig ctx.stop.state = .ok (id', p') ∧ id ≠ id' := by
  obtain ⟨p, -, hp⟩ := richGenesis.fromGenesis_eq rootConfig (.openAt ⟨.empty, []⟩)
  obtain ⟨p', -, hp'⟩ := richGenesis.fromGenesis_eq rootConfig
    (((blockOf [tx]).accept rootConfig (blockOf [tx]).header.stateRoot []).exec
      (startedCtx [tx])).stop.state
  exact ⟨_, p, _, _, p', hp, startedState_eq hp, .accept (.stash _ .start)
    (startedCtx_next (.inr rfl)), hp', by decide +kernel⟩

end Avalanche.Evm
