import Avalanche.Evm.Session

/-!
# Verifying ahead of acceptance

The engine may verify a whole chain of blocks before it accepts the first of them, or decide each
block before it looks at the next. The verdicts and the committed roots should be the same.

They are not: a block is executed over a *committed* revision with the root its parent led to, and
the state of a parent that is still undecided is not committed. So the second block of a chain is
refused, whatever it contains, unless the first one happens to lead back to a retained revision; and
then what it changes is proposed against the tip instead of its parent's state, and put aside under
a root that an undecided block may have, too. `Unaffected` says that none of this matters to a
chain, and the two ways of deciding it agree exactly then.
-/

namespace Avalanche.Evm

open Std

/-- A block, with what the node reads and keeps when it verifies the block. -/
structure Candidate (R : Type) where
  block : EvmBlock R
  nowMs : ℕ
  bootstrapped : Bool
  receipts : List EthReceipt

namespace Candidate

variable {R : Type} (cfg : AvaEvmConfig R)

/-- A chain on top of the block `id`, from number `n` on. -/
def IsChain : Id → ℕ → List (Candidate R) → Prop
  | _, _, [] => True
  | id, n, c :: l => c.block.header.parentHash = id ∧ c.block.header.number = n ∧ n ≤ u64Max ∧
    IsChain c.block.hash (n + 1) l

instance decidableIsChain : ∀ (id : Id) (n : ℕ) (l : List (Candidate R)), Decidable (IsChain id n l)
  | _, _, [] => .isTrue trivial
  | id, n, c :: l =>
    have : Decidable (IsChain c.block.hash (n + 1) l) := decidableIsChain _ _ l
    decidable_of_iff (c.block.header.parentHash = id ∧ c.block.header.number = n ∧ n ≤ u64Max ∧
      IsChain c.block.hash (n + 1) l) Iff.rfl

/-- The acceptance of the block by the backend. -/
def atomicAccept (c : Candidate R) : Handler Error AtomicBackend Unit :=
  AtomicBackend.accept cfg.sha256 c.block.header.number c.block.atomicTxs

/-- The atomic txs of the blocks can be applied one after the other. -/
def Applies : Option AtomicBackend → List (Candidate R) → Prop
  | _, [] => True
  | backend, c :: l => (∀ b ∈ backend, (c.atomicAccept cfg).outcome b = .ok ()) ∧
    Applies (backend.map (c.atomicAccept cfg).exec) l

/-- The checks before the execution, with what the node shares with other chains. -/
def passes (ctx : EvmBlockContext R) (backend : Option AtomicBackend) (parent : AvaHeader R)
    (c : Candidate R) : Bool :=
  (c.block.verifyBeforeExecution cfg { ctx with atomicBackend := backend } parent c.nowMs
    c.bootstrapped).isOk

/-- The operations lead from `w` to what the header declares. -/
def Leads (c : Candidate R) (w : World) (ops : FirewoodOps) (gas : ℕ) : Prop :=
  cfg.hashing.root (w.propose ops) = c.block.header.stateRoot ∧ gas = c.block.header.gasUsed

instance [DecidableEq R] (c : Candidate R) (w : World) (ops : FirewoodOps) (gas : ℕ) :
    Decidable (c.Leads cfg w ops gas) := by
  unfold Leads
  infer_instance

end Candidate

namespace Vm

variable {R : Type} [DecidableEq R] (cfg : AvaEvmConfig R)

/-- The verdict on a block, and the VM after it. -/
def tryVerify (vm : Vm R) (c : Candidate R) : Bool × Vm R :=
  let m := verify cfg c.block c.nowMs c.bootstrapped
  ((m.outcome vm).isOk, m.exec vm)

/-- The root that accepting a block commits, and the VM after it. -/
def tryAccept (vm : Vm R) (c : Candidate R) : Option R × Vm R :=
  let m := accept cfg c.block c.receipts
  let vm' := m.exec vm
  (if (m.outcome vm).isOk then some (vm'.ctx.state.root cfg.hashing) else none, vm')

def verifyAll (vm : Vm R) : List (Candidate R) → List Bool × Vm R
  | [] => ([], vm)
  | c :: l =>
    let (verdict, vm) := vm.tryVerify cfg c
    let (verdicts, vm) := vm.verifyAll l
    (verdict :: verdicts, vm)

def acceptAll (vm : Vm R) : List (Candidate R) → List (Option R) × Vm R
  | [] => ([], vm)
  | c :: l =>
    let (root, vm) := vm.tryAccept cfg c
    let (roots, vm) := vm.acceptAll l
    (root :: roots, vm)

/-- All blocks are verified, then all are accepted: the verdicts and the committed roots. -/
def decideAhead (vm : Vm R) (chain : List (Candidate R)) : List Bool × List (Option R) :=
  let (verdicts, vm) := vm.verifyAll cfg chain
  (verdicts, (vm.acceptAll cfg chain).1)

/-- Every block is verified and accepted before the next: the verdicts and the committed roots. -/
def decideEach (vm : Vm R) : List (Candidate R) → List Bool × List (Option R)
  | [] => ([], [])
  | c :: l =>
    let (verdict, vm) := vm.tryVerify cfg c
    let (root, vm) := vm.tryAccept cfg c
    let (verdicts, roots) := vm.decideEach l
    (verdict :: verdicts, root :: roots)

/-- The revisions that a block can be executed over. -/
def revisions (vm : Vm R) : List World := vm.ctx.state.db.tip :: vm.ctx.state.db.older

/-- The blocks follow the last accepted one, none of them has been verified before, and their atomic
txs can be applied. -/
structure Upcoming (vm : Vm R) (chain : List (Candidate R)) : Prop where
  isChain : ∃ n, vm.ctx.canonical.next = .ok n ∧ Candidate.IsChain vm.lastAccepted.1 n chain
  nodup : (vm.lastAccepted.1 :: chain.map (·.block.hash)).Nodup
  fresh : ∀ c ∈ chain, vm.verified[c.block.hash]? = none
  applies : Candidate.Applies cfg vm.ctx.atomicBackend chain

/-- Nothing changes for a chain that is verified while blocks with the roots `undecided` are not
decided. `w` is the state of the first block's parent and `backend` what the node shares with other
chains by then. Of a block that can be executed over `w`, the verdict is the same if `w` has to be
found among the revisions, the backend is that of `vm` and the operations are proposed against the
tip of `vm`; and they do not lead to the root of an undecided block from there. -/
def Unaffected (vm : Vm R) :
    Option AtomicBackend → List R → World → AvaHeader R → List (Candidate R) → Prop
  | _, _, _, _, [] => True
  | backend, undecided, w, parent, c :: l =>
    match c.block.outcomeOn cfg w with
    | .error _ => True
    | .ok (ops, gas) =>
      let looked := w ∈ vm.revisions ∧ c.passes cfg vm.ctx vm.ctx.atomicBackend parent
      let valid := c.passes cfg vm.ctx backend parent ∧ c.Leads cfg w ops gas
      (valid ↔ looked ∧ c.Leads cfg vm.ctx.state.db.tip ops gas) ∧
        (looked → cfg.hashing.root (vm.ctx.state.db.tip.propose ops) ∉ undecided) ∧
        (valid → vm.Unaffected (backend.map (c.atomicAccept cfg).exec)
          (c.block.header.stateRoot :: undecided) (w.propose ops) c.block.header l)

instance decidableUnaffected (vm : Vm R) : ∀ (backend : Option AtomicBackend) (undecided : List R)
    (w : World) (parent : AvaHeader R) (l : List (Candidate R)),
    Decidable (vm.Unaffected cfg backend undecided w parent l)
  | _, _, _, _, [] => .isTrue trivial
  | backend, undecided, w, parent, c :: l => by
    have (ops : FirewoodOps) := decidableUnaffected vm (backend.map (c.atomicAccept cfg).exec)
      (c.block.header.stateRoot :: undecided) (w.propose ops) c.block.header l
    unfold Unaffected
    split <;> infer_instance

variable {cfg} {vm v : Vm R} {c : Candidate R} {l : List (Candidate R)}

/-! ### One verification -/

/-- The VM finds the parent `id`, with its state and its header. -/
structure Sees (cfg : AvaEvmConfig R) (v : Vm R) (id : Id) (w : World) (header : AvaHeader R) :
    Prop where
  root : v.parentStateRoot cfg id = .ok (cfg.hashing.root w)
  header : v.parentHeader id = .ok header

omit [DecidableEq R] in
theorem passes_of_atomicBackend (ctx ctx' : EvmBlockContext R) (parent : AvaHeader R) :
    c.passes cfg ctx ctx'.atomicBackend parent
      = (c.block.verifyBeforeExecution cfg ctx' parent c.nowMs c.bootstrapped).isOk := rfl

/-- A revision is found under its root. -/
theorem historyByStateRoot_of_mem {w : World} (h : w ∈ v.revisions) :
    v.ctx.state.historyByStateRoot cfg.hashing (cfg.hashing.root w) = .ok w := by
  rw [FirewoodStateProvider.historyByStateRoot, Except.orError_eq_ok_iff]
  obtain ⟨w', hw'⟩ : ∃ w', (v.ctx.state.db.tip :: v.ctx.state.db.older).find?
      (fun w' ↦ cfg.hashing.root w' = cfg.hashing.root w) = some w' :=
    Option.isSome_iff_exists.mp (List.find?_isSome.mpr ⟨w, h, by simp⟩)
  have hroot := List.find?_some hw'
  rw [hw', cfg.hashing.injective (of_decide_eq_true hroot)]

theorem mem_of_historyByStateRoot {w view : World}
    (h : v.ctx.state.historyByStateRoot cfg.hashing (cfg.hashing.root w) = .ok view) :
    view = w ∧ w ∈ v.revisions := by
  rw [FirewoodStateProvider.historyByStateRoot, Except.orError_eq_ok_iff] at h
  have hroot := List.find?_some h
  obtain rfl : view = w := cfg.hashing.injective (of_decide_eq_true hroot)
  exact ⟨rfl, List.mem_of_find?_eq_some h⟩

/-- The VM once a block is found valid. -/
def stashed (v : Vm R) (c : Candidate R) (ops : FirewoodOps) : Vm R :=
  { v with
    ctx := { v.ctx with state := v.ctx.state.stashProposal c.block.header.stateRoot ops }
    verified := v.verified.insert c.block.hash ⟨c.block, c.block.header.stateRoot⟩ }

theorem verified_stashed (v : Vm R) (c : Candidate R) (ops : FirewoodOps) (id : Id) :
    (v.stashed c ops).verified[id]? = if c.block.hash = id then
      some ⟨c.block, c.block.header.stateRoot⟩ else v.verified[id]? :=
  TreeMap.getElem?_insert_eq ..

/-- The VM once a block is found invalid that leads to `root`. -/
def discarded (v : Vm R) (root : R) : Vm R :=
  { v with ctx := { v.ctx with state := v.ctx.state.discard root } }

variable (vm) in
/-- What verifying a block does whose parent is found. -/
theorem tryVerify_of_sees {parent : AvaHeader R} {w : World}
    (hsees : v.Sees cfg c.block.header.parentHash w parent) :
    v.tryVerify cfg c = match c.block.outcomeOn cfg w with
      | .error _ => (false, v)
      | .ok (ops, gas) =>
        if w ∈ v.revisions ∧ c.passes cfg vm.ctx v.ctx.atomicBackend parent then
          if c.Leads cfg v.ctx.state.db.tip ops gas then (true, v.stashed c ops)
          else (false, v.discarded (cfg.hashing.root (v.ctx.state.db.tip.propose ops)))
        else (false, v) := by
  rw [passes_of_atomicBackend]
  rcases verify_cases cfg c.block c.nowMs c.bootstrapped v with ⟨e, hout, hexec, hnot⟩ |
    ⟨root, header, txs, view, ops, gas, hroot, hheader, hpre, hview, hon, hcase⟩
  · have hrefused : v.tryVerify cfg c = (false, v) := by
      simp [tryVerify, hout, hexec, Except.isOk, Except.toBool]
    rcases hon : c.block.outcomeOn cfg w with e | ⟨ops, gas⟩
    · exact hrefused
    · refine hrefused.trans (if_neg fun hfound ↦ ?_).symm
      obtain ⟨hmem, hpass⟩ := hfound
      obtain ⟨txs, htxs⟩ := Except.isOk_iff.mp hpass
      exact hnot _ _ _ _ hsees.root hsees.header htxs (historyByStateRoot_of_mem hmem) _ hon
  · cases hroot.symm.trans hsees.root
    cases hheader.symm.trans hsees.header
    obtain ⟨rfl, hmem⟩ := mem_of_historyByStateRoot hview
    simp only [hon, hpre]
    rw [if_pos ⟨hmem, rfl⟩]
    rcases hcase with ⟨hdeclared, hgas, hout, hexec⟩ | ⟨hne, ⟨e, hout⟩, hexec⟩
    · rw [if_pos ⟨hdeclared, hgas⟩, tryVerify, hout, hexec]
      rfl
    · rw [if_neg (show ¬c.Leads cfg v.ctx.state.db.tip ops gas from hne), tryVerify, hout, hexec]
      rfl

/-- A block whose parent is not in the tree is refused. -/
theorem tryVerify_of_none (h : v.verified[c.block.header.parentHash]? = none) :
    v.tryVerify cfg c = (false, v) := by
  rcases verify_cases cfg c.block c.nowMs c.bootstrapped v with ⟨e, hout, hexec, -⟩ |
    ⟨root, header, txs, view, ops, gas, -, hheader, -⟩
  · simp [tryVerify, hout, hexec, Except.isOk, Except.toBool]
  · rw [parentHeader, h] at hheader
    cases hheader

/-- A verification only adds the block to the tree. -/
theorem verified_tryVerify {id : Id} (h : id ≠ c.block.hash) :
    (v.tryVerify cfg c).2.verified[id]? = v.verified[id]? := by
  rcases verify_cases cfg c.block c.nowMs c.bootstrapped v with ⟨e, -, hexec, -⟩ |
    ⟨_, _, _, _, _, _, -, -, -, -, -, ⟨-, -, -, hexec⟩ | ⟨-, -, hexec⟩⟩
  · rw [tryVerify, hexec]
  · rw [tryVerify, hexec]
    exact (TreeMap.getElem?_insert_eq ..).trans (if_neg h.symm)
  · rw [tryVerify, hexec]

theorem verified_verifyAll {id : Id} (h : ∀ c ∈ l, id ≠ c.block.hash) :
    (v.verifyAll cfg l).2.verified[id]? = v.verified[id]? := by
  induction l generalizing v with
  | nil => rfl
  | cons c l ih =>
    exact (ih fun c' hc' ↦ h c' (by simp [hc'])).trans (verified_tryVerify (h c (by simp)))

/-! ### One acceptance -/

theorem tryAccept_of_none (h : v.verified[c.block.hash]? = none) :
    v.tryAccept cfg c = (none, v) := by
  rcases accept_cases cfg c.block c.receipts v with ⟨e, hout, hexec⟩ | ⟨pb, hpb, -⟩
  · simp [tryAccept, hout, hexec, Except.isOk, Except.toBool]
  · cases h.symm.trans hpb

theorem accept_eq {root : R} (h : v.verified[c.block.hash]? = some ⟨c.block, root⟩) :
    (accept cfg c.block c.receipts).exec v = { v with
        ctx := (c.block.accept cfg root c.receipts).exec v.ctx
        lastAccepted := if ((c.block.accept cfg root c.receipts).outcome v.ctx).isOk then
          (c.block.hash, c.block.header.number) else v.lastAccepted } ∧
      ((accept cfg c.block c.receipts).outcome v).isOk
        = ((c.block.accept cfg root c.receipts).outcome v.ctx).isOk := by
  rcases hout : (c.block.accept cfg root c.receipts).outcome v.ctx with e | ⟨⟩ <;>
    simp [accept, onCtx, Handler.outcome_bind, Handler.exec_bind, h, Except.orError, hout,
      Except.isOk, Except.toBool]

theorem verified_tryAccept : (v.tryAccept cfg c).2.verified = v.verified := by
  rcases accept_cases cfg c.block c.receipts v with
    ⟨e, -, hexec⟩ | ⟨pb, -, ⟨-, -, -, hexec⟩ | ⟨-, -, hexec⟩⟩ <;> rw [tryAccept, hexec]

/-- What was put aside under the root of a block is gone after its acceptance, and nothing new is
put aside. -/
theorem stash_tryAccept {root : R} (h : v.verified[c.block.hash]? = some ⟨c.block, root⟩) :
    (v.tryAccept cfg c).2.ctx.state.stash = Function.update v.ctx.state.stash root none := by
  rw [tryAccept, (accept_eq h).1]
  rcases EvmBlock.accept_cases cfg c.block root c.receipts v.ctx with
    ⟨e, hstash, -, hexec⟩ |
      ⟨ops, -, ⟨_, _, -, -, -, hexec⟩ | ⟨-, ⟨_, -, -, hexec⟩ | ⟨_, -, -, hexec⟩⟩⟩
  · rw [hexec, ← hstash, Function.update_eq_self]
  all_goals simp [hexec, FirewoodStateProvider.discard]

/-- A block whose operations are put aside is accepted, and its state committed. -/
theorem tryAccept_of_stash {ops : FirewoodOps} {gas n : ℕ}
    (hverified : v.verified[c.block.hash]? = some ⟨c.block, c.block.header.stateRoot⟩)
    (hstash : v.ctx.state.stash c.block.header.stateRoot = some ops)
    (hleads : c.Leads cfg v.ctx.state.db.tip ops gas)
    (hnext : v.ctx.canonical.next = .ok n) (hnumber : c.block.header.number = n)
    (hatomic : ∀ b ∈ v.ctx.atomicBackend, (c.atomicAccept cfg).outcome b = .ok ()) :
    (v.tryAccept cfg c).1 = some c.block.header.stateRoot ∧
      (v.tryAccept cfg c).2.ctx.state.db.tip = v.ctx.state.db.tip.propose ops ∧
      (v.tryAccept cfg c).2.ctx.atomicBackend
        = v.ctx.atomicBackend.map (c.atomicAccept cfg).exec ∧
      (v.tryAccept cfg c).2.ctx.canonical.tip = some n ∧
      (v.tryAccept cfg c).2.lastAccepted = (c.block.hash, n) := by
  subst hnumber
  obtain ⟨hout, hexec⟩ := EvmBlock.accept_of_next cfg hstash hnext hatomic c.receipts
  have htip : ((c.block.canonicalRows cfg c.receipts ++ c.block.indexAcceptedReceipts cfg
      c.receipts).foldl CanonicalStore.put v.ctx.canonical).tip = some c.block.header.number := by
    rw [List.foldl_append]
    refine List.foldlRecOn (motive := fun store : CanonicalStore R ↦
      store.tip = some c.block.header.number) _ CanonicalStore.put rfl
        fun store hstore row hrow ↦ ?_
    obtain ⟨txHash, rfl⟩ := EvmBlock.eq_txNumber_of_mem_indexAcceptedReceipts cfg hrow
    exact hstore
  simp only [tryAccept, (accept_eq hverified).1, (accept_eq hverified).2, hout, hexec]
  refine ⟨?_, rfl, rfl, htip, rfl⟩
  rw [← hleads.1]
  rfl

/-! ### Many acceptances -/

theorem acceptAll_append (l₁ l₂ : List (Candidate R)) :
    v.acceptAll cfg (l₁ ++ l₂) = ((v.acceptAll cfg l₁).1 ++ ((v.acceptAll cfg l₁).2.acceptAll cfg
      l₂).1, ((v.acceptAll cfg l₁).2.acceptAll cfg l₂).2) := by
  induction l₁ generalizing v with
  | nil => rfl
  | cons c l₁ ih => simp only [List.cons_append, acceptAll, ih]

theorem length_acceptAll : (v.acceptAll cfg l).1.length = l.length := by
  induction l generalizing v with
  | nil => rfl
  | cons c l ih => simp [acceptAll, ih]

theorem verified_acceptAll : (v.acceptAll cfg l).2.verified = v.verified := by
  induction l generalizing v with
  | nil => rfl
  | cons c l ih => exact ih.trans verified_tryAccept

theorem acceptAll_of_none (h : ∀ c ∈ l, v.verified[c.block.hash]? = none) :
    (v.acceptAll cfg l).1 = List.replicate l.length none := by
  induction l with
  | nil => rfl
  | cons c l ih =>
    rw [acceptAll, tryAccept_of_none (h c (by simp))]
    simp only [List.length_cons, List.replicate_succ, ih fun c' hc' ↦ h c' (by simp [hc'])]

/-- Every block has been verified, with the root of its header. -/
def Verified (v : Vm R) (l : List (Candidate R)) : Prop :=
  ∀ c ∈ l, v.verified[c.block.hash]? = some ⟨c.block, c.block.header.stateRoot⟩

/-- What is not put aside does not come back, and the roots of accepted blocks go. -/
theorem stash_acceptAll_eq_none (hl : v.Verified l) {root : R}
    (h : v.ctx.state.stash root = none ∨ root ∈ l.map (·.block.header.stateRoot)) :
    (v.acceptAll cfg l).2.ctx.state.stash root = none := by
  induction l generalizing v with
  | nil => simpa [acceptAll] using h
  | cons c l ih =>
    have hc := hl c (by simp)
    refine ih (v := (v.tryAccept cfg c).2) (fun c' hc' ↦ ?_) ?_
    · rw [verified_tryAccept, hl c' (by simp [hc'])]
    · rw [stash_tryAccept hc, Function.update_apply]
      by_cases hroot : root = c.block.header.stateRoot
      · exact .inl (if_pos hroot)
      · rw [if_neg hroot]
        simpa [hroot] using h

/-- A block under whose root nothing is put aside by then is not accepted. -/
theorem acceptAll_getElem?_eq_none {l₁ l₂ : List (Candidate R)}
    (hc : v.verified[c.block.hash]? = some ⟨c.block, c.block.header.stateRoot⟩)
    (hstash : (v.acceptAll cfg l₁).2.ctx.state.stash c.block.header.stateRoot = none) :
    (v.acceptAll cfg (l₁ ++ c :: l₂)).1[l₁.length]? = some none := by
  rw [acceptAll_append, List.getElem?_append_right (by rw [length_acceptAll]), length_acceptAll,
    Nat.sub_self]
  set v' := (v.acceptAll cfg l₁).2 with hv'
  have hc' : v'.verified[c.block.hash]? = some ⟨c.block, c.block.header.stateRoot⟩ := by
    rw [hv', verified_acceptAll, hc]
  have hout : ((accept cfg c.block c.receipts).outcome v').isOk = false := by
    rw [(accept_eq hc').2]
    rcases EvmBlock.accept_cases cfg c.block c.block.header.stateRoot c.receipts v'.ctx with
      ⟨e, -, hout, -⟩ | ⟨ops, hops, -⟩
    · rw [hout]
      rfl
    · cases hstash.symm.trans hops
  simp [acceptAll, tryAccept, hout]

/-- The undecided blocks, with what they were verified to do, lead from the state of `vm` to `w`,
and the next number is `n` after them. -/
inductive Path (cfg : AvaEvmConfig R) (vm : Vm R) :
    List (Candidate R × FirewoodOps) → World → Option AtomicBackend → ℕ → Prop
  | nil {n : ℕ} : vm.ctx.canonical.next = .ok n →
    Path cfg vm [] vm.ctx.state.db.tip vm.ctx.atomicBackend n
  | snoc {l w backend n c ops gas} : Path cfg vm l w backend n → n ≤ u64Max →
    c.block.header.number = n → c.Leads cfg w ops gas →
    (∀ b ∈ backend, (c.atomicAccept cfg).outcome b = .ok ()) →
    Path cfg vm (l ++ [(c, ops)]) (w.propose ops) (backend.map (c.atomicAccept cfg).exec) (n + 1)

omit [DecidableEq R] in
theorem next_of_tip {store : CanonicalStore R} {n : ℕ} (h : store.tip = some n)
    (hn : n + 1 ≤ u64Max) : store.next = .ok (n + 1) := by
  rw [CanonicalStore.next, h]
  exact Except.orError_eq_ok_iff.mpr (checkedAdd_eq_some_iff.mpr ⟨hn, rfl⟩)

/-- All of them are accepted, if they are put aside under different roots. -/
theorem acceptAll_path {l : List (Candidate R × FirewoodOps)} {w : World}
    {backend : Option AtomicBackend} {n : ℕ} (h : Path cfg vm l w backend n)
    (hdb : v.ctx.state.db = vm.ctx.state.db) (hcanonical : v.ctx.canonical = vm.ctx.canonical)
    (hbackend : v.ctx.atomicBackend = vm.ctx.atomicBackend)
    (hverified : v.Verified (l.map (·.1)))
    (hstash : ∀ p ∈ l, v.ctx.state.stash p.1.block.header.stateRoot = some p.2)
    (hnodup : (l.map (·.1.block.header.stateRoot)).Nodup) :
    (v.acceptAll cfg (l.map (·.1))).1 = l.map (some ·.1.block.header.stateRoot) ∧
      (v.acceptAll cfg (l.map (·.1))).2.ctx.state.db.tip = w ∧
      (v.acceptAll cfg (l.map (·.1))).2.ctx.atomicBackend = backend ∧
      (n ≤ u64Max → (v.acceptAll cfg (l.map (·.1))).2.ctx.canonical.next = .ok n) ∧
      ∀ root, root ∉ l.map (·.1.block.header.stateRoot) →
        (v.acceptAll cfg (l.map (·.1))).2.ctx.state.stash root = v.ctx.state.stash root := by
  induction h with
  | nil hn => simp [acceptAll, hdb, hcanonical, hbackend, hn]
  | @snoc l w backend n c ops gas _ hmax hnumber hleads hatomic ih =>
    rw [List.map_append, List.nodup_append] at hnodup
    obtain ⟨hroots, htip, hback, hnext, hkept⟩ := ih
      (fun c hc ↦ hverified c (by simp only [List.map_append, List.mem_append]; exact .inl hc))
      (fun p hp ↦ hstash p (by simp [hp])) hnodup.1
    have hc : v.verified[c.block.hash]? = some ⟨c.block, c.block.header.stateRoot⟩ :=
      hverified c (by simp)
    have hnew : c.block.header.stateRoot ∉ l.map (·.1.block.header.stateRoot) :=
      fun hmem ↦ hnodup.2.2 _ hmem _ (by simp) rfl
    rw [List.map_append, List.map_singleton, acceptAll_append]
    set v' := (v.acceptAll cfg (l.map (·.1))).2 with hv'
    have hc' : v'.verified[c.block.hash]? = some ⟨c.block, c.block.header.stateRoot⟩ := by
      rw [hv', verified_acceptAll, hc]
    have hops : v'.ctx.state.stash c.block.header.stateRoot = some ops := by
      rw [hkept _ hnew]
      exact hstash (c, ops) (by simp)
    obtain ⟨hsome, htip', hback', hlast, -⟩ := tryAccept_of_stash hc' hops (htip ▸ hleads)
      (hnext hmax) hnumber (hback ▸ hatomic)
    refine ⟨?_, ?_, ?_, ?_, ?_⟩
    · simp [acceptAll, hroots, hsome]
    · rw [← htip]
      exact htip'
    · rw [← hback]
      exact hback'
    · exact fun hn ↦ next_of_tip hlast hn
    · intro root hroot
      rw [List.map_append, List.mem_append, not_or] at hroot
      have hne : root ≠ c.block.header.stateRoot := by simpa using hroot.2
      exact (congrFun (stash_tryAccept hc') root).trans
        ((Function.update_of_ne hne _ _).trans (hkept root hroot.1))

/-! ### Blocks whose parent is refused -/

theorem verifyAll_of_none {id : Id} {n : ℕ} (hl : Candidate.IsChain id n l)
    (hid : v.verified[id]? = none) (hfresh : ∀ c ∈ l, v.verified[c.block.hash]? = none) :
    v.verifyAll cfg l = (List.replicate l.length false, v) := by
  induction l generalizing id n with
  | nil => rfl
  | cons c l ih =>
    rw [verifyAll, tryVerify_of_none (hl.1 ▸ hid)]
    simp only [ih hl.2.2.2 (hfresh c (by simp)) fun c' hc' ↦ hfresh c' (by simp [hc'])]
    rfl

theorem decideEach_of_none {id : Id} {n : ℕ} (hl : Candidate.IsChain id n l)
    (hid : v.verified[id]? = none) (hfresh : ∀ c ∈ l, v.verified[c.block.hash]? = none) :
    v.decideEach cfg l = (List.replicate l.length false, List.replicate l.length none) := by
  induction l generalizing id n with
  | nil => rfl
  | cons c l ih =>
    rw [decideEach, tryVerify_of_none (hl.1 ▸ hid)]
    simp only [tryAccept_of_none (hfresh c (by simp)),
      ih hl.2.2.2 (hfresh c (by simp)) fun c' hc' ↦ hfresh c' (by simp [hc'])]
    rfl

/-! ### The two ways -/

/-- Between the blocks of a chain: `a` has verified the blocks of `done` and decided none of them,
and `e` has decided them one by one. -/
structure Between (cfg : AvaEvmConfig R) (vm a e : Vm R) (done : List (Candidate R × FirewoodOps))
    (id : Id) (n : ℕ) (backend : Option AtomicBackend) (w : World) (header : AvaHeader R)
    (l : List (Candidate R)) : Prop where
  db : a.ctx.state.db = vm.ctx.state.db
  canonical : a.ctx.canonical = vm.ctx.canonical
  atomicBackend : a.ctx.atomicBackend = vm.ctx.atomicBackend
  lastAccepted : ∀ c ∈ l, c.block.hash ≠ a.lastAccepted.1
  sees : a.Sees cfg id w header
  verified : a.Verified (done.map (·.1))
  stash : ∀ p ∈ done, a.ctx.state.stash p.1.block.header.stateRoot = some p.2
  path : Path cfg vm done w backend n
  roots : (done.map (·.1.block.header.stateRoot)).Nodup
  fresh : ∀ c ∈ l, a.verified[c.block.hash]? = none
  tip : e.ctx.state.db.tip = w
  atomicBackend' : e.ctx.atomicBackend = backend
  next : n ≤ u64Max → e.ctx.canonical.next = .ok n
  sees' : e.Sees cfg id w header
  fresh' : ∀ c ∈ l, e.verified[c.block.hash]? = none
  isChain : Candidate.IsChain id n l
  applies : Candidate.Applies cfg backend l
  nodup : (l.map (·.block.hash)).Nodup

/-- The verdicts on the blocks to come are the same, and all roots are. -/
def Agree (cfg : AvaEvmConfig R) (a e : Vm R) (done : List (Candidate R × FirewoodOps))
    (l : List (Candidate R)) : Prop :=
  (a.verifyAll cfg l).1 = (e.decideEach cfg l).1 ∧
    ((a.verifyAll cfg l).2.acceptAll cfg (done.map (·.1) ++ l)).1
      = done.map (some ·.1.block.header.stateRoot) ++ (e.decideEach cfg l).2

variable {a e : Vm R} {done : List (Candidate R × FirewoodOps)} {id : Id} {n : ℕ}
  {backend : Option AtomicBackend} {w : World} {header : AvaHeader R}

section Next

variable (h : Between cfg vm a e done id n backend w header (c :: l))

include h

omit [DecidableEq R] in
theorem Between.hash_ne : ∀ c' ∈ l, c.block.hash ≠ c'.block.hash := fun c' hc' heq ↦
  (List.nodup_cons.mp h.nodup).1 (List.mem_map.mpr ⟨c', hc', heq.symm⟩)

omit [DecidableEq R] in
/-- The blocks to come have other hashes than those that are verified. -/
theorem Between.hash_ne_done :
    ∀ c₀ ∈ done.map (·.1), ∀ c' ∈ c :: l, c₀.block.hash ≠ c'.block.hash := by
  intro c₀ hc₀ c' hc' heq
  have hnone := h.fresh c' hc'
  rw [← heq, h.verified c₀ hc₀] at hnone
  cases hnone

/-- If both refuse the next block, and what `a` has put aside stays there, they agree. -/
theorem Between.agree_of_refused {a' e' : Vm R} (ha : a.tryVerify cfg c = (false, a'))
    (he : e.tryVerify cfg c = (false, e'))
    (hctx : a'.ctx.state.db = a.ctx.state.db ∧ a'.ctx.canonical = a.ctx.canonical ∧
      a'.ctx.atomicBackend = a.ctx.atomicBackend)
    (hverified : a'.verified = a.verified) (hverified' : e'.verified = e.verified)
    (hstash : ∀ p ∈ done, a'.ctx.state.stash p.1.block.header.stateRoot
      = a.ctx.state.stash p.1.block.header.stateRoot) : Agree cfg a e done (c :: l) := by
  have hfresh : ∀ c' ∈ c :: l, a'.verified[c'.block.hash]? = none := hverified ▸ h.fresh
  have hfresh' : ∀ c' ∈ c :: l, e'.verified[c'.block.hash]? = none := hverified' ▸ h.fresh'
  have htail := List.forall_mem_cons.mp hfresh
  have htail' := List.forall_mem_cons.mp hfresh'
  obtain ⟨hroots, -⟩ := acceptAll_path h.path (hctx.1.trans h.db) (hctx.2.1.trans h.canonical)
    (hctx.2.2.trans h.atomicBackend) (v := a') (fun c hc ↦ hverified ▸ h.verified c hc)
    (fun p hp ↦ (hstash p hp).trans (h.stash p hp)) h.roots
  rw [Agree, verifyAll, ha, decideEach, he]
  simp only [verifyAll_of_none h.isChain.2.2.2 htail.1 htail.2, tryAccept_of_none htail'.1,
    decideEach_of_none h.isChain.2.2.2 htail'.1 htail'.2, acceptAll_append, hroots, true_and]
  rw [acceptAll_of_none fun c hc ↦ by rw [verified_acceptAll, hfresh c hc]]
  rfl

/-- If nothing is put aside any more for an undecided block, they do not agree. -/
theorem Between.not_agree_of_discarded {a' : Vm R} (ha : a.tryVerify cfg c = (false, a'))
    (hverified : a'.verified = a.verified) {p : Candidate R × FirewoodOps} (hp : p ∈ done)
    (hstash : a'.ctx.state.stash p.1.block.header.stateRoot = none) :
    ¬Agree cfg a e done (c :: l) := by
  rintro ⟨-, hroots⟩
  have hfresh : ∀ c' ∈ c :: l, a'.verified[c'.block.hash]? = none := hverified ▸ h.fresh
  have htail := List.forall_mem_cons.mp hfresh
  have hall : a'.Verified (done.map (·.1)) := fun c hc ↦ hverified ▸ h.verified c hc
  obtain ⟨l₁, l₂, rfl⟩ := List.append_of_mem hp
  have hget := congrArg (·[(l₁.map (·.1)).length]?) hroots
  rw [verifyAll, ha] at hget
  simp only [verifyAll_of_none h.isChain.2.2.2 htail.1 htail.2, List.map_append, List.map_cons,
    List.append_assoc, List.cons_append] at hget
  rw [acceptAll_getElem?_eq_none (hall _ (by simp)) (stash_acceptAll_eq_none
    (fun c hc ↦ hall c (by simp only [List.map_append, List.mem_append]; exact .inl hc))
    (.inl hstash))] at hget
  simp at hget

/-- Nor if two undecided blocks have the same root. -/
theorem Between.not_agree_of_mem_roots {a' e' : Vm R}
    (ha : a.tryVerify cfg c = (true, a')) (he : e.tryVerify cfg c = (true, e'))
    (hverified : a'.verified = a.verified.insert c.block.hash ⟨c.block, c.block.header.stateRoot⟩)
    (hsome : (e'.tryAccept cfg c).1 = some c.block.header.stateRoot)
    (hmem : c.block.header.stateRoot ∈ done.map (·.1.block.header.stateRoot)) :
    ¬Agree cfg a e done (c :: l) := by
  rintro ⟨-, hroots⟩
  set v := (a'.verifyAll cfg l).2 with hv
  have hc : v.verified[c.block.hash]? = some ⟨c.block, c.block.header.stateRoot⟩ := by
    rw [hv, verified_verifyAll h.hash_ne, hverified, TreeMap.getElem?_insert_eq, if_pos rfl]
  have hall : v.Verified (done.map (·.1)) := by
    intro c₀ hc₀
    have hne := h.hash_ne_done c₀ hc₀
    rw [hv, verified_verifyAll fun c' hc' ↦ hne c' (by simp [hc']), hverified,
      TreeMap.getElem?_insert_eq, if_neg (hne c (by simp)).symm, h.verified c₀ hc₀]
  have hget := congrArg (·[(done.map (·.1)).length]?) hroots
  rw [verifyAll, ha, decideEach, he] at hget
  simp only [← hv, hsome] at hget
  rw [acceptAll_getElem?_eq_none hc (stash_acceptAll_eq_none hall (.inr (by simpa using hmem)))]
    at hget
  simp at hget

/-- A valid block is accepted right away. -/
theorem Between.tryAccept_stashed {ops : FirewoodOps} {gas : ℕ} (hleads : c.Leads cfg w ops gas) :
    ((e.stashed c ops).tryAccept cfg c).1 = some c.block.header.stateRoot ∧
      ((e.stashed c ops).tryAccept cfg c).2.ctx.state.db.tip = w.propose ops ∧
      ((e.stashed c ops).tryAccept cfg c).2.ctx.atomicBackend
        = backend.map (c.atomicAccept cfg).exec ∧
      ((e.stashed c ops).tryAccept cfg c).2.ctx.canonical.tip = some n ∧
      ((e.stashed c ops).tryAccept cfg c).2.lastAccepted = (c.block.hash, n) := by
  have hverified : (e.stashed c ops).verified[c.block.hash]?
      = some ⟨c.block, c.block.header.stateRoot⟩ := by rw [verified_stashed, if_pos rfl]
  have hstash : (e.stashed c ops).ctx.state.stash c.block.header.stateRoot = some ops :=
    Function.update_self ..
  have htip : (e.stashed c ops).ctx.state.db.tip = w := h.tip
  have hback : (e.stashed c ops).ctx.atomicBackend = backend := h.atomicBackend'
  rw [← htip] at hleads
  have haccept := tryAccept_of_stash hverified hstash hleads (h.next h.isChain.2.2.1) h.isChain.2.1
    (hback ▸ h.applies.1)
  rwa [htip, hback] at haccept

/-- With a new root it joins the undecided ones. -/
theorem Between.verify {ops : FirewoodOps} {gas : ℕ} (hleads : c.Leads cfg w ops gas)
    (hnew : c.block.header.stateRoot ∉ done.map (·.1.block.header.stateRoot)) :
    Between cfg vm (a.stashed c ops) ((e.stashed c ops).tryAccept cfg c).2 (done ++ [(c, ops)])
      c.block.hash (n + 1) (backend.map (c.atomicAccept cfg).exec) (w.propose ops)
      c.block.header l := by
  obtain ⟨-, htip, hback, hlast, haccepted⟩ := h.tryAccept_stashed hleads
  have hverified : ((e.stashed c ops).tryAccept cfg c).2.verified = (e.stashed c ops).verified :=
    verified_tryAccept
  exact {
    db := h.db
    canonical := h.canonical
    atomicBackend := h.atomicBackend
    lastAccepted := fun c' hc' ↦ h.lastAccepted c' (by simp [hc'])
    sees :=
      { root := by
          have hroot : (a.stashed c ops).lastAccepted.1 ≠ c.block.hash :=
            (h.lastAccepted c (by simp)).symm
          rw [parentStateRoot, if_neg hroot, verified_stashed, if_pos rfl, hleads.1]
          rfl
        header := by
          rw [parentHeader, verified_stashed, if_pos rfl]
          rfl }
    verified := by
      intro c₀ hc₀
      rw [List.map_append, List.mem_append] at hc₀
      rcases hc₀ with hc₀ | hc₀
      · rw [verified_stashed, if_neg (h.hash_ne_done c₀ hc₀ c (by simp)).symm,
          h.verified c₀ hc₀]
      · obtain rfl : c₀ = c := by simpa using hc₀
        rw [verified_stashed, if_pos rfl]
    stash := by
      intro p hp
      rcases List.mem_append.mp hp with hp | hp
      · have hroot : p.1.block.header.stateRoot ≠ c.block.header.stateRoot := fun heq ↦
          hnew (heq ▸ List.mem_map_of_mem hp)
        exact (Function.update_of_ne hroot _ _).trans (h.stash p hp)
      · obtain rfl := List.mem_singleton.mp hp
        exact Function.update_self ..
    path := h.path.snoc h.isChain.2.2.1 h.isChain.2.1 hleads h.applies.1
    roots := by
      rw [List.map_append, List.map_singleton, List.nodup_append]
      exact ⟨h.roots, List.nodup_singleton _, fun r hr r' hr' heq ↦
        hnew (List.mem_singleton.mp hr' ▸ heq ▸ hr)⟩
    fresh := fun c' hc' ↦ by
      rw [verified_stashed, if_neg (h.hash_ne c' hc'), h.fresh c' (by simp [hc'])]
    tip := htip
    atomicBackend' := hback
    next := next_of_tip hlast
    sees' :=
      { root := by
          rw [parentStateRoot, if_pos (by rw [haccepted]), FirewoodStateProvider.root, htip]
        header := by
          rw [parentHeader, hverified, verified_stashed, if_pos rfl]
          rfl }
    fresh' := fun c' hc' ↦ by
      rw [hverified, verified_stashed, if_neg (h.hash_ne c' hc'), h.fresh' c' (by simp [hc'])]
    isChain := h.isChain.2.2.2
    applies := h.applies.2
    nodup := (List.nodup_cons.mp h.nodup).2 }

end Next

/-- Different verdicts. -/
theorem not_agree_of_ne {a' e' : Vm R} {verdict verdict' : Bool}
    (ha : a.tryVerify cfg c = (verdict, a')) (he : e.tryVerify cfg c = (verdict', e'))
    (hne : verdict ≠ verdict') : ¬Agree cfg a e done (c :: l) := by
  rintro ⟨hverdicts, -⟩
  rw [verifyAll, ha, decideEach, he] at hverdicts
  exact hne (List.cons.inj hverdicts).1

/-- The two ways agree on the blocks to come exactly if those are not affected. -/
theorem Between.agree_iff (h : Between cfg vm a e done id n backend w header l)
    {undecided : List R}
    (hundecided : ∀ root, root ∈ undecided ↔ root ∈ done.map (·.1.block.header.stateRoot)) :
    Agree cfg a e done l ↔ vm.Unaffected cfg backend undecided w header l := by
  induction l generalizing a e done id n backend w header undecided with
  | nil =>
    refine iff_of_true ⟨rfl, ?_⟩ trivial
    obtain ⟨hroots, -⟩ := acceptAll_path h.path h.db h.canonical h.atomicBackend h.verified h.stash
      h.roots
    simp [verifyAll, decideEach, hroots]
  | cons c l ih =>
    have hmem : w ∈ e.revisions := h.tip ▸ List.mem_cons_self
    have hrevisions : a.revisions = vm.revisions := by rw [revisions, h.db, revisions]
    have hsees : a.Sees cfg c.block.header.parentHash w header := h.isChain.1 ▸ h.sees
    have hsees' : e.Sees cfg c.block.header.parentHash w header := h.isChain.1 ▸ h.sees'
    have ha := tryVerify_of_sees vm hsees
    have he := tryVerify_of_sees vm hsees'
    rcases hon : c.block.outcomeOn cfg w with e | ⟨ops, gas⟩
    · simp only [hon] at ha he
      simp only [Unaffected, hon, iff_true]
      exact h.agree_of_refused ha he ⟨rfl, rfl, rfl⟩ rfl rfl fun _ _ ↦ rfl
    simp only [hon, hrevisions, h.atomicBackend, h.db] at ha
    simp only [hon, hmem, true_and, h.atomicBackend', h.tip] at he
    simp only [Unaffected, hon]
    by_cases hvalid : c.passes cfg vm.ctx backend header ∧ c.Leads cfg w ops gas
    · rw [if_pos hvalid.1, if_pos hvalid.2] at he
      by_cases hahead : (w ∈ vm.revisions ∧ c.passes cfg vm.ctx vm.ctx.atomicBackend header) ∧
        c.Leads cfg vm.ctx.state.db.tip ops gas
      · rw [if_pos hahead.1, if_pos hahead.2] at ha
        obtain ⟨hsome, -⟩ := h.tryAccept_stashed hvalid.2
        rw [hahead.2.1]
        by_cases hnew : c.block.header.stateRoot ∈ undecided
        · exact iff_of_false (h.not_agree_of_mem_roots ha he rfl hsome ((hundecided _).mp hnew))
            fun hun ↦ hun.2.1 hahead.1 hnew
        · have hmem : ∀ root, root ∈ c.block.header.stateRoot :: undecided ↔
              root ∈ (done ++ [(c, ops)]).map (·.1.block.header.stateRoot) := by
            simp [hundecided, or_comm]
          have hjoin := ih (h.verify hvalid.2 fun hmem ↦ hnew ((hundecided _).mpr hmem)) hmem
          have hcons : Agree cfg a e done (c :: l) ↔ Agree cfg (a.stashed c ops)
              ((e.stashed c ops).tryAccept cfg c).2 (done ++ [(c, ops)]) l := by
            simp [Agree, verifyAll, decideEach, ha, he, hsome]
          rw [hcons, hjoin]
          exact ⟨fun hun ↦ ⟨iff_of_true hvalid hahead, fun _ ↦ hnew, fun _ ↦ hun⟩,
            fun hun ↦ hun.2.2 hvalid⟩
      · have hfalse : ∃ a', a.tryVerify cfg c = (false, a') := by
          rw [ha]
          split
          · rename_i hlooked
            exact ⟨_, if_neg fun hleads ↦ hahead ⟨hlooked, hleads⟩⟩
          · exact ⟨_, rfl⟩
        obtain ⟨a', ha'⟩ := hfalse
        exact iff_of_false (not_agree_of_ne ha' he (by decide)) fun hun ↦ hahead (hun.1.mp hvalid)
    · obtain ⟨e', he', hverified'⟩ : ∃ e', e.tryVerify cfg c = (false, e') ∧
          e'.verified = e.verified := by
        rw [he]
        split
        · rename_i hpass
          exact ⟨_, if_neg fun hleads ↦ hvalid ⟨hpass, hleads⟩, rfl⟩
        · exact ⟨_, rfl, rfl⟩
      by_cases hlooked : w ∈ vm.revisions ∧ c.passes cfg vm.ctx vm.ctx.atomicBackend header
      · rw [if_pos hlooked] at ha
        by_cases hleads : c.Leads cfg vm.ctx.state.db.tip ops gas
        · rw [if_pos hleads] at ha
          exact iff_of_false (not_agree_of_ne ha he' (by decide))
            fun hun ↦ hvalid (hun.1.mpr ⟨hlooked, hleads⟩)
        rw [if_neg hleads] at ha
        by_cases hmem : cfg.hashing.root (vm.ctx.state.db.tip.propose ops) ∈ undecided
        · obtain ⟨p, hp, hroot⟩ := List.mem_map.mp ((hundecided _).mp hmem)
          refine iff_of_false (h.not_agree_of_discarded ha rfl hp ?_)
            fun hun ↦ hun.2.1 hlooked hmem
          rw [hroot]
          exact Function.update_self ..
        · refine iff_of_true (h.agree_of_refused ha he' ⟨rfl, rfl, rfl⟩ rfl hverified'
            fun p hp ↦ Function.update_of_ne (fun heq ↦ hmem ?_) _ _)
            ⟨iff_of_false hvalid fun hboth ↦ hleads hboth.2, fun _ ↦ hmem,
              fun hv ↦ absurd hv hvalid⟩
          rw [← heq, hundecided]
          exact List.mem_map_of_mem hp
      · rw [if_neg hlooked] at ha
        exact iff_of_true (h.agree_of_refused ha he' ⟨rfl, rfl, rfl⟩ rfl hverified' fun _ _ ↦ rfl)
          ⟨iff_of_false hvalid fun hboth ↦ hlooked hboth.1, fun hboth ↦ absurd hboth hlooked,
            fun hv ↦ absurd hv hvalid⟩

/-- **Verifying ahead.** For every chain of new blocks on top of the last accepted one: verifying
all of them and then accepting all of them gives the verdicts and roots of deciding them one at a
time exactly if the chain is not affected by undecided parents. -/
theorem decideAhead_eq_iff {chain : List (Candidate R)} (h : vm.Upcoming cfg chain) :
    vm.decideAhead cfg chain = vm.decideEach cfg chain ↔
      ∀ pb ∈ vm.verified[vm.lastAccepted.1]?, vm.Unaffected cfg vm.ctx.atomicBackend []
        vm.ctx.state.db.tip pb.block.header chain := by
  obtain ⟨n, hnext, hchain⟩ := h.isChain
  rcases hpb : vm.verified[vm.lastAccepted.1]? with - | pb
  · -- not even the last accepted block is known
    refine iff_of_true ?_ (by simp)
    rw [decideAhead, verifyAll_of_none hchain hpb h.fresh, decideEach_of_none hchain hpb h.fresh]
    simp only [acceptAll_of_none h.fresh]
  · have hsees : vm.Sees cfg vm.lastAccepted.1 vm.ctx.state.db.tip pb.block.header :=
      ⟨by rw [parentStateRoot, if_pos rfl]; rfl, by rw [parentHeader, hpb]; rfl⟩
    have hnodup := List.nodup_cons.mp h.nodup
    have hbetween : Between cfg vm vm vm [] vm.lastAccepted.1 n vm.ctx.atomicBackend
        vm.ctx.state.db.tip pb.block.header chain := {
      db := rfl
      canonical := rfl
      atomicBackend := rfl
      lastAccepted := fun c hc heq ↦ hnodup.1 (List.mem_map.mpr ⟨c, hc, heq⟩)
      sees := hsees
      verified := fun c hc ↦ by simp at hc
      stash := fun p hp ↦ by simp at hp
      path := .nil hnext
      roots := List.nodup_nil
      fresh := h.fresh
      tip := rfl
      atomicBackend' := rfl
      next := fun _ ↦ hnext
      sees' := hsees
      fresh' := h.fresh
      isChain := hchain
      applies := h.applies
      nodup := hnodup.2 }
    have hnil : ∀ root, root ∈ ([] : List R) ↔
        root ∈ ([] : List (Candidate R × FirewoodOps)).map (·.1.block.header.stateRoot) := by simp
    simpa [decideAhead, Agree, Prod.ext_iff] using hbetween.agree_iff hnil

end Vm

/-! ### A block and its child -/

namespace Plain

/-- A block with a tx and one without, in this order or in the other one. -/
def pair (txFirst : Bool) : List (Candidate World) :=
  if txFirst then
    [⟨block 1 101 100 paid [tx] [], 2000, true, []⟩, ⟨block 2 102 101 paid [] [], 3000, true, []⟩]
  else
    [⟨block 1 101 100 rich [] [], 2000, true, []⟩, ⟨block 2 102 101 paid [tx] [], 3000, true, []⟩]

theorem pair_upcoming (txFirst : Bool) : (start none).vm.Upcoming config (pair txFirst) where
  isChain := ⟨1, rfl, by cases txFirst <;> decide +kernel⟩
  nodup := by cases txFirst <;> decide +kernel
  fresh := by cases txFirst <;> decide +kernel
  applies := by cases txFirst <;> exact ⟨fun _ hb ↦ (by cases hb), fun _ hb ↦ (by cases hb),
    trivial⟩

end Plain

namespace Vm

/-- One at a time both blocks are valid and accepted, and ahead of acceptance the second is not. -/
theorem pair_decideAhead_ne :
    let vm := (Plain.start none).vm
    vm.Upcoming Plain.config (Plain.pair true) ∧
      vm.decideEach Plain.config (Plain.pair true)
        = ([true, true], [some Plain.paid, some Plain.paid]) ∧
      vm.decideAhead Plain.config (Plain.pair true)
        = ([true, false], [some Plain.paid, none]) := by
  refine ⟨Plain.pair_upcoming true, by decide +kernel, by decide +kernel⟩

/-- With the empty block first, whose state is the committed one, nothing changes. -/
theorem pair_decideAhead_eq :
    let vm := (Plain.start none).vm
    vm.decideAhead Plain.config (Plain.pair false) = vm.decideEach Plain.config (Plain.pair false) ∧
      vm.decideEach Plain.config (Plain.pair false)
        = ([true, true], [some Plain.rich, some Plain.paid]) := by
  refine ⟨(decideAhead_eq_iff (Plain.pair_upcoming false)).mpr fun pb hpb ↦ ?_, by decide +kernel⟩
  obtain rfl : (⟨Plain.genesis, Plain.rich⟩ : ProcessingBlock World) = pb :=
    Option.some.inj hpb
  decide +kernel

end Vm

end Avalanche.Evm
