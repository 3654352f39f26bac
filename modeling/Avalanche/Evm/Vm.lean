import Avalanche.Evm.Block

/-!
# The VM and its processing tree

The VM keeps every block that has passed verification, with the root it led to; accepted blocks stay
there too. A block is verified against the root of the committed state if its parent is the last
accepted block, and otherwise against the root its parent led to.

What the engine does is a sequence of verifications, acceptances and rejections. The clock and
whether the node is bootstrapped are read anew at every verification.
-/

namespace Avalanche.Evm

open Std
open Except (require orError)

structure ProcessingBlock (R : Type) where
  block : EvmBlock R
  precommitRoot : R
deriving DecidableEq

structure Vm (R : Type) where
  ctx : EvmBlockContext R
  verified : ExtTreeMap Id (ProcessingBlock R)
  lastAccepted : Id × ℕ

/-- What the engine asks of the VM. -/
inductive Event (R : Type)
  | verify (b : EvmBlock R) (nowMs : ℕ) (bootstrapped : Bool)
  | accept (b : EvmBlock R) (receipts : List EthReceipt)
  | reject (b : EvmBlock R)

namespace Vm

variable {R : Type} [DecidableEq R] (cfg : AvaEvmConfig R)

def parentStateRoot (vm : Vm R) (parent : Id) : Except Error R :=
  if vm.lastAccepted.1 = parent then .ok (vm.ctx.state.root cfg.hashing)
  else orError ((vm.verified[parent]?).map (·.precommitRoot)) .missingProposal

def parentHeader (vm : Vm R) (parent : Id) : Except Error (AvaHeader R) :=
  orError ((vm.verified[parent]?).map (·.block.header)) .missingProposal

/-- A step of a block's lifecycle, on the stores of the VM. -/
def onCtx {α : Type} (m : Handler Error (EvmBlockContext R) α) : Handler Error (Vm R) α :=
  Handler.zoom (·.ctx) (fun ctx vm ↦ { vm with ctx := ctx }) m

def verify (b : EvmBlock R) (nowMs : ℕ) (bootstrapped : Bool) : Handler Error (Vm R) Unit := do
  let vm ← get
  let parentRoot ← liftM (vm.parentStateRoot cfg b.header.parentHash)
  let parentHeader ← liftM (vm.parentHeader b.header.parentHash)
  let precommit ← onCtx (b.verifyWithPredicates cfg parentRoot parentHeader nowMs bootstrapped)
  modify fun vm ↦ { vm with verified := vm.verified.insert b.hash ⟨b, precommit⟩ }

def accept (b : EvmBlock R) (receipts : List EthReceipt) : Handler Error (Vm R) Unit := do
  let vm ← get
  let precommit ← liftM
    (orError ((vm.verified[b.hash]?).map (·.precommitRoot)) Error.missingProposal)
  onCtx (b.accept cfg precommit receipts)
  modify fun vm ↦ { vm with lastAccepted := (b.hash, b.header.number) }

def reject (b : EvmBlock R) : Handler Error (Vm R) Unit := do
  match (← get).verified[b.hash]? with
  | none => pure ()
  | some pb =>
    modify fun vm ↦ { vm with verified := vm.verified.erase b.hash }
    onCtx (EvmBlock.reject pb.precommitRoot)

/-- A verification either changes nothing and fails, or executes the block over the revision of the
root its parent led to. -/
theorem verify_cases (b : EvmBlock R) (nowMs : ℕ) (bootstrapped : Bool) (vm : Vm R) :
    let m := verify cfg b nowMs bootstrapped
    (∃ e, m.outcome vm = .error e ∧ m.exec vm = vm ∧
      ∀ root header txs view, vm.parentStateRoot cfg b.header.parentHash = .ok root →
        vm.parentHeader b.header.parentHash = .ok header →
        b.verifyBeforeExecution cfg vm.ctx header nowMs bootstrapped = .ok txs →
        vm.ctx.state.historyByStateRoot cfg.hashing root = .ok view →
        ∀ p, b.outcomeOn cfg view ≠ .ok p) ∨
    ∃ root header txs view ops gas, vm.parentStateRoot cfg b.header.parentHash = .ok root ∧
      vm.parentHeader b.header.parentHash = .ok header ∧
      b.verifyBeforeExecution cfg vm.ctx header nowMs bootstrapped = .ok txs ∧
      vm.ctx.state.historyByStateRoot cfg.hashing root = .ok view ∧
      b.outcomeOn cfg view = .ok (ops, gas) ∧
      ((cfg.hashing.root (vm.ctx.state.db.tip.propose ops) = b.header.stateRoot ∧
          gas = b.header.gasUsed ∧ m.outcome vm = .ok () ∧
          m.exec vm = { vm with
            ctx := { vm.ctx with state := vm.ctx.state.stashProposal b.header.stateRoot ops }
            verified := vm.verified.insert b.hash ⟨b, b.header.stateRoot⟩ }) ∨
        (¬(cfg.hashing.root (vm.ctx.state.db.tip.propose ops) = b.header.stateRoot ∧
            gas = b.header.gasUsed) ∧ (∃ e, m.outcome vm = .error e) ∧
          m.exec vm = { vm with
            ctx := { vm.ctx with state :=
              vm.ctx.state.discard (cfg.hashing.root (vm.ctx.state.db.tip.propose ops)) } })) := by
  intro m
  rcases hroot : vm.parentStateRoot cfg b.header.parentHash with e | root
  · left
    simp [m, verify, Handler.outcome_bind, Handler.exec_bind, hroot]
  rcases hheader : vm.parentHeader b.header.parentHash with e | header
  · left
    simp [m, verify, Handler.outcome_bind, Handler.exec_bind, hroot, hheader]
  rcases b.verifyWithPredicates_cases cfg root header nowMs bootstrapped vm.ctx with
    ⟨e, hout, hexec, hnot⟩ | ⟨txs, view, ops, gas, hpre, hview, hon, hcase⟩
  · left
    refine ⟨e, ?_, ?_, ?_⟩
    · simp [m, verify, onCtx, Handler.outcome_bind, hroot, hheader, hout]
    · simp [m, verify, onCtx, Handler.exec_bind, hroot, hheader, hout, hexec]
    · rintro _ _ txs view ⟨⟩ ⟨⟩
      exact hnot txs view
  right
  refine ⟨root, header, txs, view, ops, gas, rfl, rfl, hpre, hview, hon, ?_⟩
  rcases hcase with ⟨hdeclared, hgas, hout, hexec⟩ | ⟨hne, ⟨e, hout⟩, hexec⟩
  · left
    refine ⟨hdeclared, hgas, ?_, ?_⟩ <;>
      simp [m, verify, onCtx, Handler.outcome_bind, Handler.exec_bind, hroot, hheader, hout, hexec]
  · right
    refine ⟨hne, ⟨e, ?_⟩, ?_⟩ <;>
      simp [m, verify, onCtx, Handler.outcome_bind, Handler.exec_bind, hroot, hheader, hout, hexec]

/-- An acceptance runs on the stores of the VM, and moves the last accepted block if it returns. -/
theorem accept_cases (b : EvmBlock R) (receipts : List EthReceipt) (vm : Vm R) :
    let m := accept cfg b receipts
    (∃ e, m.outcome vm = .error e ∧ m.exec vm = vm) ∨
    ∃ pb, vm.verified[b.hash]? = some pb ∧
      let accepted := b.accept cfg pb.precommitRoot receipts
      ((∃ e, accepted.outcome vm.ctx = .error e ∧ m.outcome vm = .error e ∧
          m.exec vm = { vm with ctx := accepted.exec vm.ctx }) ∨
        (accepted.outcome vm.ctx = .ok () ∧ m.outcome vm = .ok () ∧
          m.exec vm = { vm with
            ctx := accepted.exec vm.ctx
            lastAccepted := (b.hash, b.header.number) })) := by
  intro m
  rcases hpb : vm.verified[b.hash]? with - | pb
  · left
    simp [m, accept, Handler.outcome_bind, Handler.exec_bind, hpb, orError]
  right
  refine ⟨pb, rfl, ?_⟩
  rcases hout : (b.accept cfg pb.precommitRoot receipts).outcome vm.ctx with e | ⟨⟩
  · left
    simp [m, accept, onCtx, Handler.outcome_bind, Handler.exec_bind, hpb, orError, hout]
  · right
    simp [m, accept, onCtx, Handler.outcome_bind, Handler.exec_bind, hpb, orError, hout]

/-- The block's parent is not the last accepted block, and what it led to is not committed. -/
def Ahead (vm : Vm R) (b : EvmBlock R) : Prop :=
  vm.lastAccepted.1 ≠ b.header.parentHash ∧
    ∀ pb ∈ vm.verified[b.header.parentHash]?, ∀ w ∈ vm.ctx.state.db.tip :: vm.ctx.state.db.older,
      cfg.hashing.root w ≠ pb.precommitRoot

variable {cfg} in
/-- There is no revision such a block could be executed over. -/
theorem verify_of_ahead {vm : Vm R} {b : EvmBlock R} (h : vm.Ahead cfg b) (nowMs : ℕ)
    (bootstrapped : Bool) :
    (∃ e, (verify cfg b nowMs bootstrapped).outcome vm = .error e) ∧
      (verify cfg b nowMs bootstrapped).exec vm = vm := by
  obtain ⟨hlast, hnone⟩ := h
  rcases verify_cases cfg b nowMs bootstrapped vm with
    ⟨e, hout, hexec, -⟩ | ⟨root, header, txs, view, ops, gas, hroot, -, -, hview, -⟩
  · exact ⟨⟨e, hout⟩, hexec⟩
  -- otherwise the root of the parent would be found
  rw [parentStateRoot, if_neg hlast, Except.orError_eq_ok_iff, Option.map_eq_some_iff] at hroot
  obtain ⟨pb, hpb, rfl⟩ := hroot
  rw [FirewoodStateProvider.historyByStateRoot, Except.orError_eq_ok_iff] at hview
  have hmem := List.mem_of_find?_eq_some hview
  have hfound := List.find?_some hview
  exact absurd (of_decide_eq_true hfound) (hnone pb hpb view hmem)

end Vm

end Avalanche.Evm
