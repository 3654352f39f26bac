import Avalanche.Evm.Session
import Avalanche.Library.Ancestry

/-!
# Consuming an atomic input once

No two atomic txs of accepted blocks should consume the same id: an import a UTXO that another chain
has sent, an export a nonce of an account.

Within a block the verification compares its txs. Against accepted blocks an import is protected by
shared memory, which the UTXO has left by then. But nothing is compared with ancestors that are
still processing, nothing protects the nonces of exports, and the presence of UTXOs is only looked
up by a bootstrapped node with a backend. `Apart` asks for what is missing, and along runs that keep
to it nothing is consumed twice.

The other chains take part in a run: they put UTXOs into shared memory at any time, each UTXO comes
from one chain, and one that was consumed does not come back.
-/

namespace Avalanche.Evm

open Std

/-! ### What a block consumes -/

variable (sha256 : Bytes → Id)

namespace AtomicTx

/-- The UTXOs an import takes, each with the chain it comes from. -/
def imports : AtomicTx → List (Id × Id)
  | .import_ tx => tx.importedInputs.map fun i ↦ (tx.sourceChain, i.inputId sha256)
  | .export_ _ => []

/-- The nonces an export uses up. -/
def exports : AtomicTx → List Id
  | .import_ _ => []
  | .export_ tx => tx.ins.map fun i ↦ exportInputId i.nonce i.address

theorem mem_inputUtxos_iff {tx : AtomicTx} {id : Id} :
    id ∈ inputUtxos sha256 tx ↔ (∃ peer, (peer, id) ∈ tx.imports sha256) ∨ id ∈ tx.exports := by
  cases tx with
  | import_ tx => simp [inputUtxos, imports, exports]
  | export_ tx => simp [inputUtxos, imports, exports]

end AtomicTx

theorem mem_remove_requestsTo_iff {txs : List Tx} {peer key : Id} :
    key ∈ (requestsTo sha256 peer txs).remove ↔
      ∃ tx ∈ txs, (peer, key) ∈ tx.unsigned.imports sha256 := by
  simp only [requestsTo, List.mem_flatMap, List.mem_filterMap, Option.filter_eq_some_iff,
    decide_eq_true_eq]
  constructor
  · rintro ⟨⟨chain, requests⟩, ⟨tx, htx, hops, rfl⟩, hkey⟩
    refine ⟨tx, htx, ?_⟩
    cases hu : tx.unsigned with
    | import_ utx =>
      rw [hu, AtomicTx.atomicOps, Option.some.injEq, Prod.mk.injEq] at hops
      obtain ⟨rfl, rfl⟩ := hops
      simpa [AtomicTx.imports] using hkey
    | export_ utx =>
      rw [hu, AtomicTx.atomicOps, Option.bind_eq_bind, Option.bind_eq_some_iff] at hops
      obtain ⟨put, -, hops⟩ := hops
      obtain ⟨rfl, rfl⟩ := hops
      cases hkey
  · rintro ⟨tx, htx, hmem⟩
    cases hu : tx.unsigned with
    | import_ utx =>
      rw [hu, AtomicTx.imports, List.mem_map] at hmem
      obtain ⟨i, hi, heq⟩ := hmem
      obtain ⟨rfl, rfl⟩ := heq
      exact ⟨(utx.sourceChain, _), ⟨tx, htx, by rw [hu]; rfl, rfl⟩, List.mem_map_of_mem hi⟩
    | export_ utx =>
      rw [hu] at hmem
      cases hmem

namespace EvmBlock

variable {R : Type}

def imports (b : EvmBlock R) : List (Id × Id) := b.atomicTxs.flatMap (·.unsigned.imports sha256)

def exports (b : EvmBlock R) : List Id := b.atomicTxs.flatMap (·.unsigned.exports)

/-- All that the atomic txs of a block consume. -/
def inputs (b : EvmBlock R) : Finset Id :=
  b.atomicTxs.toFinset.biUnion fun tx ↦ inputUtxos sha256 tx.unsigned

theorem mem_inputs_iff {b : EvmBlock R} {id : Id} :
    id ∈ b.inputs sha256 ↔ (∃ peer, (peer, id) ∈ b.imports sha256) ∨ id ∈ b.exports := by
  simp only [inputs, Finset.mem_biUnion, List.mem_toFinset, AtomicTx.mem_inputUtxos_iff, imports,
    exports, List.mem_flatMap]
  constructor
  · rintro ⟨tx, htx, ⟨peer, hmem⟩ | hmem⟩
    · exact .inl ⟨peer, tx, htx, hmem⟩
    · exact .inr ⟨tx, htx, hmem⟩
  · rintro (⟨peer, tx, htx, hmem⟩ | ⟨tx, htx, hmem⟩)
    · exact ⟨tx, htx, .inl ⟨peer, hmem⟩⟩
    · exact ⟨tx, htx, .inr hmem⟩

end EvmBlock

/-! ### What a verification makes sure of -/

variable {sha256}

/-- The txs are disjoint from what was seen before, and from each other. -/
theorem pairwise_of_verifyNoConflictsFrom {ancestors seen : Finset Id} {txs : List AtomicTx}
    (h : verifyNoConflictsFrom sha256 ancestors seen txs = .ok ()) :
    (∀ tx ∈ txs, Disjoint (inputUtxos sha256 tx) seen) ∧
      (txs.map (inputUtxos sha256)).Pairwise Disjoint := by
  induction txs generalizing seen with
  | nil => simp
  | cons tx txs ih =>
    simp only [verifyNoConflictsFrom, Except.bind_eq_ok_iff, Except.require_eq_ok_iff] at h
    obtain ⟨-, -, -, hseen, h⟩ := h
    obtain ⟨hfirst, hrest⟩ := ih h
    simp only [Finset.disjoint_union_right] at hfirst
    refine ⟨?_, ?_⟩
    · rw [List.forall_mem_cons]
      exact ⟨hseen, fun tx' htx' ↦ (hfirst tx' htx').1⟩
    · rw [List.map_cons, List.pairwise_cons]
      refine ⟨fun inputs hmem ↦ ?_, hrest⟩
      obtain ⟨tx', htx', rfl⟩ := List.mem_map.mp hmem
      exact (hfirst tx' htx').2.symm

theorem present_of_verifyUtxosPresent {m : SharedMemory} {txs : List Tx} {height : ℕ} {id : Id}
    (h : verifyUtxosPresent sha256 m txs height id = .ok ())
    (hbonus : isBonusBlock height id = false)
    {tx : Tx} (htx : tx ∈ txs) {p : Id × Id} (hp : p ∈ tx.unsigned.imports sha256) :
    m.inbound.Present (elementKey p.1 p.2) := by
  rw [verifyUtxosPresent, if_neg (by simp [hbonus]), Except.forM_eq_ok_iff] at h
  have hget := h tx htx
  cases hu : tx.unsigned with
  | import_ utx =>
    rw [hu] at hp hget
    obtain ⟨i, hi, rfl⟩ := List.mem_map.mp hp
    rw [AtomicTx.atomicOps, Except.orError, Option.elim_some, Except.ok_bind,
      Except.bind_eq_ok_iff] at hget
    obtain ⟨values, hvalues, -⟩ := hget
    exact SharedMemory.present_of_get hvalues (List.mem_map_of_mem hi)
  | export_ utx =>
    rw [hu] at hp
    cases hp

namespace EvmBlock

variable {R : Type} {cfg : AvaEvmConfig R} {b : EvmBlock R} {ctx : EvmBlockContext R}
  {parent : AvaHeader R} {nowMs : ℕ} {bootstrapped : Bool} {txs : List RecoveredTx}

theorem pairwise_of_verifyBeforeExecution
    (h : b.verifyBeforeExecution cfg ctx parent nowMs bootstrapped = .ok txs) :
    (b.atomicTxs.map fun tx ↦ inputUtxos cfg.sha256 tx.unsigned).Pairwise Disjoint := by
  obtain ⟨-, -, -, -, -, -, -, hconflicts, -⟩ := verifyBeforeExecution_eq_ok_iff.mp h
  have hpair := (pairwise_of_verifyNoConflictsFrom hconflicts).2
  rwa [List.map_map] at hpair

theorem present_of_verifyBeforeExecution
    (h : b.verifyBeforeExecution cfg ctx parent nowMs bootstrapped = .ok txs)
    (hboot : bootstrapped = true) (hbonus : isBonusBlock b.header.number b.hash = false)
    {backend : AtomicBackend} (hbackend : ctx.atomicBackend = some backend) {p : Id × Id}
    (hp : p ∈ b.imports cfg.sha256) :
    backend.sharedMemory.inbound.Present (elementKey p.1 p.2) := by
  obtain ⟨-, -, -, -, -, -, hpresence, -⟩ := verifyBeforeExecution_eq_ok_iff.mp h
  rw [verifyPresence, hbackend] at hpresence
  simp only [hboot, if_true] at hpresence
  obtain ⟨tx, htx, hp⟩ := List.mem_flatMap.mp hp
  exact present_of_verifyUtxosPresent hpresence hbonus htx hp

end EvmBlock

/-! ### Runs -/

/-- The other chain puts an element into the half this chain receives in. -/
def SharedMemory.deliver (m : SharedMemory) (peer : Id) (e : Element) : SharedMemory :=
  ((SharedMemory.mk m.outbound m.inbound).setValue peer m.inbound e).elim m fun inbound ↦
    { m with inbound := inbound }

theorem SharedMemory.present_of_deliver {m : SharedMemory} {peer : Id} {e : Element}
    {k : BitVec 512} (h : (m.deliver peer e).inbound.Present k) :
    m.inbound.Present k ∨ k = elementKey peer e.key := by
  rw [deliver, setValue] at h
  split at h
  · rw [Option.elim_some, Half.present_insert] at h
    split at h
    · rename_i heq
      exact .inr heq.symm
    · exact .inl h
  · split at h
    · exact .inl h
    · exact .inl (Half.present_erase.mp h).2

namespace Session

variable {R : Type} [DecidableEq R] (cfg : AvaEvmConfig R)

/-- No two atomic txs of accepted blocks consume the same id. -/
def NoConflict (s : Session R) : Prop :=
  ((s.accepted.flatMap (·.atomicTxs)).map fun tx ↦
    inputUtxos cfg.sha256 tx.unsigned).Pairwise Disjoint

/-- The parent of a block, as long as it is not decided. -/
def parent (s : Session R) (b : EvmBlock R) : Option (EvmBlock R) :=
  if b.header.parentHash ∈ s.acceptedIds then none
  else (s.vm.verified[b.header.parentHash]?).map (·.block)

/-- What happens in a run. -/
inductive Step (R : Type)
  | engine (e : Event R)
  | deliver (peer : Id) (e : Element)

def step : Step R → Handler Error (Session R) Unit
  | .engine e => handle cfg e
  | .deliver peer e => modify fun s ↦ { s with vm := { s.vm with ctx := { s.vm.ctx with
      atomicBackend := s.vm.ctx.atomicBackend.map fun backend ↦
        { backend with sharedMemory := backend.sharedMemory.deliver peer e } } } }

/-- The rules of a run, with the chain each UTXO comes from. A block is verified before its
children, and a UTXO that was consumed does not come back. -/
def Rules (home : Id → Id) (s : Session R) : Step R → Prop
  | .engine (.verify b nowMs bootstrapped) => s.Legal (.verify b nowMs bootstrapped) ∧
    ((s.vm.verified[b.hash]?).isSome ∨
      ∀ p ∈ s.vm.verified.toList, p.2.block.header.parentHash = b.hash → p.1 ∈ s.acceptedIds)
  | .engine (.accept b receipts) => s.Legal (.accept b receipts)
  | .engine (.reject b) => s.Legal (.reject b)
  | .deliver peer e => home e.key = peer ∧ ∀ a ∈ s.accepted, e.key ∉ a.inputs cfg.sha256

instance (home : Id → Id) (s : Session R) : DecidablePred (s.Rules cfg home) := by
  rintro ((_ | _ | _) | _) <;> unfold Rules <;> infer_instance

/-- The presence of what a block imports is looked up, it has no input in common with a processing
ancestor, and none with an accepted block that one of the two exports. -/
def Apart (s : Session R) : Step R → Prop
  | .engine (.verify b _ bootstrapped) =>
    (b.imports cfg.sha256 = [] ∨ (s.vm.ctx.atomicBackend.isSome ∧ bootstrapped = true ∧
      isBonusBlock b.header.number b.hash = false)) ∧
    (∀ a, Ancestry.Below s.parent b a → Disjoint (a.inputs cfg.sha256) (b.inputs cfg.sha256)) ∧
    ∀ a ∈ s.accepted, ∀ id ∈ a.inputs cfg.sha256, id ∈ b.inputs cfg.sha256 →
      id ∉ a.exports ∧ id ∉ b.exports
  | _ => True

/-- Nothing was imported or exported before, and every UTXO in shared memory is from its chain. -/
structure Fresh (home : Id → Id) (s : Session R) : Prop where
  opened : s.Opened
  no_txs : ∀ b ∈ s.accepted, b.atomicTxs = []
  homed : ∀ backend ∈ s.vm.ctx.atomicBackend, ∀ peer key,
    backend.sharedMemory.inbound.Present (elementKey peer key) → home key = peer

/-- An element that other chains sent and that was not consumed yet. -/
def Waiting (ctx : EvmBlockContext R) (k : BitVec 512) : Prop :=
  ∃ backend ∈ ctx.atomicBackend, backend.sharedMemory.inbound.Present k

/-- A block that was verified and is not decided. -/
def Processing (s : Session R) (b : EvmBlock R) : Prop :=
  b.hash ∉ s.acceptedIds ∧ (s.vm.verified[b.hash]?).any (·.block = b) = true

/-- A block that can still be accepted: its processing ancestors lead to the last accepted block. -/
def Live (s : Session R) (b : EvmBlock R) : Prop :=
  ∃ a, Ancestry.AtOrBelow s.parent b a ∧ a.header.parentHash = s.vm.lastAccepted.1

/-- What holds between the steps of a run. -/
structure Separated (home : Id → Id) (s : Session R) : Prop where
  lastAccepted_mem : s.vm.lastAccepted.1 ∈ s.acceptedIds
  keyed : ∀ id pb, s.vm.verified[id]? = some pb → id ∉ s.acceptedIds → pb.block.hash = id
  own : ∀ b, s.Processing b →
    (b.atomicTxs.map fun tx ↦ inputUtxos cfg.sha256 tx.unsigned).Pairwise Disjoint ∧
      ∀ p ∈ b.imports cfg.sha256, home p.2 = p.1
  apart : ∀ b a, s.Processing b → Ancestry.Below s.parent b a →
    Disjoint (a.inputs cfg.sha256) (b.inputs cfg.sha256)
  live : ∀ b, s.Processing b → s.Live b →
    ∀ a ∈ s.accepted, Disjoint (a.inputs cfg.sha256) (b.inputs cfg.sha256)
  noConflict : s.NoConflict cfg
  home_accepted : ∀ a ∈ s.accepted, ∀ p ∈ a.imports cfg.sha256, home p.2 = p.1
  waiting : ∀ p : Id × Id, Waiting s.vm.ctx (elementKey p.1 p.2) →
    home p.2 = p.1 ∧ ∀ a ∈ s.accepted, p ∉ a.imports cfg.sha256

variable {cfg} {home : Id → Id} {s : Session R} {b : EvmBlock R}

theorem Fresh.separated (h : s.Fresh home) : s.Separated cfg home := by
  have hnone : ∀ b, ¬s.Processing b := by
    intro b hb
    obtain ⟨root, hundecided⟩ := undecided_of_any hb.1 hb.2
    exact hb.1 (h.opened.verified_accepted _ _ hundecided.verified)
  have hflat : s.accepted.flatMap (·.atomicTxs) = [] := List.flatMap_eq_nil_iff.mpr h.no_txs
  have himports : ∀ a ∈ s.accepted, a.imports cfg.sha256 = [] := fun a ha ↦ by
    rw [EvmBlock.imports, h.no_txs a ha, List.flatMap_nil]
  refine ⟨h.opened.lastAccepted_mem, ?_, fun b hb ↦ absurd hb (hnone b),
    fun b _ hb ↦ absurd hb (hnone b), fun b hb ↦ absurd hb (hnone b), ?_, ?_, ?_⟩
  · intro id pb hpb hid
    exact absurd (h.opened.verified_accepted id pb hpb) hid
  · rw [NoConflict, hflat]
    exact List.Pairwise.nil
  · intro a ha p hp
    rw [himports a ha] at hp
    cases hp
  · rintro p ⟨backend, hbackend, hp⟩
    refine ⟨h.homed backend hbackend _ _ hp, fun a ha ↦ ?_⟩
    rw [himports a ha]
    exact List.not_mem_nil

/-- What stands above a block is processing. -/
theorem Separated.processing_parent (h : s.Separated cfg home) {a b : EvmBlock R}
    (hab : s.parent b = some a) : s.Processing a ∧ a.hash = b.header.parentHash := by
  rw [parent] at hab
  split at hab
  · cases hab
  · rename_i hnot
    obtain ⟨pb, hpb, rfl⟩ := Option.map_eq_some_iff.mp hab
    have hkey := h.keyed _ pb hpb hnot
    refine ⟨⟨hkey ▸ hnot, ?_⟩, hkey⟩
    rw [hkey, hpb]
    simp

/-! ### Verifications -/

/-- A verified block has no input in common with accepted ones: what both import has left shared
memory. -/
theorem Separated.disjoint_accepted (h : s.Separated cfg home)
    (hpresent : ∀ p ∈ b.imports cfg.sha256, Waiting s.vm.ctx (elementKey p.1 p.2))
    (hexports : ∀ a ∈ s.accepted, ∀ id ∈ a.inputs cfg.sha256, id ∈ b.inputs cfg.sha256 →
      id ∉ a.exports ∧ id ∉ b.exports) {a : EvmBlock R} (ha : a ∈ s.accepted) :
    Disjoint (a.inputs cfg.sha256) (b.inputs cfg.sha256) := by
  rw [Finset.disjoint_left]
  intro id hida hidb
  obtain ⟨hna, hnb⟩ := hexports a ha id hida hidb
  obtain ⟨peer, hpa⟩ := (EvmBlock.mem_inputs_iff _).mp hida |>.resolve_right hna
  obtain ⟨peer', hpb⟩ := (EvmBlock.mem_inputs_iff _).mp hidb |>.resolve_right hnb
  obtain ⟨hhome, hnot⟩ := h.waiting _ (hpresent _ hpb)
  -- both take the UTXO from the chain it comes from
  obtain rfl : peer = peer' := (h.home_accepted a ha _ hpa).symm.trans hhome
  exact hnot a ha hpa

/-- Neither the state nor what leaves shared memory matters. -/
theorem Separated.ctx (h : s.Separated cfg home) {ctx : EvmBlockContext R}
    (hctx : ∀ k, Waiting ctx k → Waiting s.vm.ctx k) :
    Separated cfg home { s with vm := { s.vm with ctx := ctx } } :=
  { h with waiting := fun p hp ↦ h.waiting p (hctx _ hp) }

theorem Separated.insert (h : s.Separated cfg home) (root : R)
    (hlegal : b.hash ∉ s.acceptedIds ∧ ∀ pb ∈ s.vm.verified[b.hash]?, pb.block = b)
    (hfirst : (s.vm.verified[b.hash]?).isSome ∨ (b.header.parentHash ≠ b.hash ∧
      ∀ p ∈ s.vm.verified.toList, p.2.block.header.parentHash = b.hash → p.1 ∈ s.acceptedIds))
    (hown : (b.atomicTxs.map fun tx ↦ inputUtxos cfg.sha256 tx.unsigned).Pairwise Disjoint ∧
      ∀ p ∈ b.imports cfg.sha256, home p.2 = p.1)
    (happart : ∀ a, Ancestry.Below s.parent b a →
      Disjoint (a.inputs cfg.sha256) (b.inputs cfg.sha256))
    (haccepted : ∀ a ∈ s.accepted, Disjoint (a.inputs cfg.sha256) (b.inputs cfg.sha256)) :
    Separated cfg home { s with vm := { s.vm with
      verified := s.vm.verified.insert b.hash ⟨b, root⟩ } } := by
  obtain ⟨hnot, hsame⟩ := hlegal
  set s' : Session R := { s with vm := { s.vm with
    verified := s.vm.verified.insert b.hash ⟨b, root⟩ } } with hs'
  have hget : ∀ id, s'.vm.verified[id]?
      = if b.hash = id then some ⟨b, root⟩ else s.vm.verified[id]? :=
    TreeMap.getElem?_insert_eq _ _ _
  have hcases : ∀ c, s'.Processing c → c = b ∨ s.Processing c := by
    rintro c ⟨hc, hany⟩
    rw [hget] at hany
    split at hany
    · exact .inl (by simpa [eq_comm] using hany)
    · exact .inr ⟨hc, hany⟩
  have hprocessing : ∀ c, s.Processing c → s'.Processing c := by
    rintro c ⟨hc, hany⟩
    refine ⟨hc, ?_⟩
    rw [hget]
    split
    · rename_i hhash
      obtain ⟨r, hundecided⟩ := undecided_of_any hc hany
      rw [← hsame ⟨c, r⟩ (hhash ▸ hundecided.verified)]
      simp
    · exact hany
  -- a block that comes in has no children yet, so no processing block gets another parent
  have hparent : ∀ c, s'.Processing c → s'.parent c = s.parent c := by
    intro c hc
    have hids : s'.acceptedIds = s.acceptedIds := rfl
    rw [parent, parent, hids, hget]
    split
    · rfl
    split
    · rename_i hchild
      rcases hv : s.vm.verified[b.hash]? with - | pb
      · rw [hv, Option.isSome_none] at hfirst
        obtain ⟨hself, hchildren⟩ := hfirst.resolve_left Bool.false_ne_true
        rcases hcases c hc with rfl | hold
        · exact absurd hchild.symm hself
        · obtain ⟨r, hundecided⟩ := undecided_of_any hold.1 hold.2
          exact absurd (hchildren (c.hash, ⟨c, r⟩)
            (ExtTreeMap.mem_toList_iff_getElem?_eq_some.mpr hundecided.verified) hchild.symm) hold.1
      · rw [← hchild, hv, Option.map_some, Option.map_some, hsame pb hv]
    · rfl
  have hup : ∀ c d, s'.Processing c → Ancestry.AtOrBelow s.parent c d →
      s'.parent d = s.parent d := by
    intro c d hc hcd
    refine hparent d ?_
    rcases Ancestry.atOrBelow_iff.mp hcd with rfl | hbelow
    · exact hc
    · obtain ⟨e, -, he⟩ := Ancestry.below_iff_child.mp hbelow
      exact hprocessing d (h.processing_parent he).1
  refine ⟨h.lastAccepted_mem, ?_, ?_, ?_, ?_, h.noConflict, h.home_accepted, h.waiting⟩
  · intro id pb hpb hid
    rw [hget] at hpb
    split at hpb
    · rename_i hhash
      obtain rfl := Option.some.inj hpb
      exact hhash
    · exact h.keyed id pb hpb hid
  · intro c hc
    rcases hcases c hc with rfl | hold
    · exact hown
    · exact h.own c hold
  · intro c a hc hca
    rw [Ancestry.below_congr (hup c · hc)] at hca
    rcases hcases c hc with rfl | hold
    · exact happart a hca
    · exact h.apart c a hold hca
  · rintro c hc ⟨a, hca, ha⟩
    rw [Ancestry.atOrBelow_congr (hup c · hc)] at hca
    rcases hcases c hc with rfl | hold
    · exact haccepted
    · exact h.live c hold ⟨a, hca, ha⟩

theorem Separated.verify (h : s.Separated cfg home) {nowMs : ℕ} {bootstrapped : Bool}
    (hrules : s.Rules cfg home (.engine (.verify b nowMs bootstrapped)))
    (hapart : s.Apart cfg (.engine (.verify b nowMs bootstrapped))) :
    Separated cfg home ((handle cfg (.verify b nowMs bootstrapped)).exec s) := by
  obtain ⟨hlegal, hfirst⟩ := hrules
  obtain ⟨hlookup, hancestors, hexports⟩ := hapart
  have hexec : (handle cfg (.verify b nowMs bootstrapped)).exec s
      = { s with vm := (Vm.verify cfg b nowMs bootstrapped).exec s.vm } := rfl
  rw [hexec]
  rcases Vm.verify_cases cfg b nowMs bootstrapped s.vm with
    ⟨e, -, hvm, -⟩ | ⟨root, header, txs, view, ops, gas, hroot, -, hpre, -, -, hcase⟩
  · rw [hvm]
    exact h
  rcases hcase with ⟨-, -, -, hvm⟩ | ⟨-, -, hvm⟩
  · rw [hvm]
    have hpresent : ∀ p ∈ b.imports cfg.sha256, Waiting s.vm.ctx (elementKey p.1 p.2) := by
      intro p hp
      rcases hlookup with hnil | ⟨hsome, hboot, hbonus⟩
      · rw [hnil] at hp
        cases hp
      · obtain ⟨backend, hbackend⟩ := Option.isSome_iff_exists.mp hsome
        exact ⟨backend, hbackend,
          EvmBlock.present_of_verifyBeforeExecution hpre hboot hbonus hbackend hp⟩
    have hinsert : Separated cfg home { s with vm := { s.vm with
        verified := s.vm.verified.insert b.hash ⟨b, b.header.stateRoot⟩ } } := by
      refine h.insert _ hlegal ?_ ⟨EvmBlock.pairwise_of_verifyBeforeExecution hpre, fun p hp ↦ ?_⟩
        hancestors fun a ha ↦ h.disjoint_accepted hpresent hexports ha
      · by_cases hsome : (s.vm.verified[b.hash]?).isSome
        · exact .inl hsome
        -- a block that is its own parent is not found
        refine .inr ⟨fun hself ↦ ?_, hfirst.resolve_left hsome⟩
        have hlast : s.vm.lastAccepted.1 ≠ b.hash := fun heq ↦ hlegal.1 (heq ▸ h.lastAccepted_mem)
        rw [Option.not_isSome_iff_eq_none] at hsome
        simp [Vm.parentStateRoot, hself, hlast, hsome, Except.orError] at hroot
      · exact (h.waiting p (hpresent p hp)).1
    exact hinsert.ctx fun _ hk ↦ hk
  · rw [hvm]
    exact h.ctx fun _ hk ↦ hk

/-! ### Decisions and deliveries -/

/-- What the acceptance of a block leaves of shared memory was there before, and what the block
imports is not left. -/
theorem waiting_of_accept {root : R} {receipts : List EthReceipt} {ctx : EvmBlockContext R}
    {k : BitVec 512} (hk : Waiting ((b.accept cfg root receipts).exec ctx) k) : Waiting ctx k ∧
      ((b.accept cfg root receipts).outcome ctx = .ok () →
        ∀ p ∈ b.imports cfg.sha256, elementKey p.1 p.2 ≠ k) := by
  obtain ⟨backend, hbackend, hk⟩ := hk
  have hatomic : ∀ old : AtomicBackend,
      ((b.acceptAtomic cfg).exec old).sharedMemory.inbound.Present k →
        old.sharedMemory.inbound.Present k ∧
      ((b.acceptAtomic cfg).outcome old = .ok () →
        ∀ p ∈ b.imports cfg.sha256, elementKey p.1 p.2 ≠ k) := by
    intro old hk
    rcases AtomicBackend.accept_cases cfg.sha256 b.header.number b.atomicTxs old with
      ⟨e, hout, hmemory⟩ | ⟨atomicOps, ops, memory, hmerge, -, happly, -, hexec⟩
    · rw [hmemory] at hk
      exact ⟨hk, fun hok ↦ by rw [hout] at hok; cases hok⟩
    · rw [hexec, SharedMemory.present_apply happly] at hk
      refine ⟨hk.2, fun _ p hp ↦ ?_⟩
      have hkey : p.2 ∈ (requestsTo cfg.sha256 p.1 b.atomicTxs).remove :=
        (mem_remove_requestsTo_iff _).mpr (List.mem_flatMap.mp hp)
      obtain ⟨requests, hrequests, hmem⟩ := exists_of_mem_remove hmerge hkey
      exact hk.1 _ hrequests _ hmem
  rcases EvmBlock.accept_cases cfg b root receipts ctx with
    ⟨e, -, hout, hexec⟩ | ⟨ops, -, ⟨old, e, hold, hfail, hout, hexec⟩ | ⟨hok, hcase⟩⟩
  · rw [hexec] at hbackend
    exact ⟨⟨backend, hbackend, hk⟩, fun hok ↦ by rw [hout] at hok; cases hok⟩
  · rw [hexec] at hbackend
    obtain rfl := Option.mem_some.mp hbackend
    exact ⟨⟨old, hold, (hatomic old hk).1⟩, fun hok ↦ by rw [hout] at hok; cases hok⟩
  · have hmap : ((b.accept cfg root receipts).exec ctx).atomicBackend =
        ctx.atomicBackend.map (b.acceptAtomic cfg).exec := by
      rcases hcase with ⟨e, -, -, hexec⟩ | ⟨canonical, -, -, hexec⟩ <;> rw [hexec]
    rw [hmap] at hbackend
    obtain ⟨old, hold, rfl⟩ := Option.mem_map.mp hbackend
    exact ⟨⟨old, hold, (hatomic old hk).1⟩, fun _ ↦ (hatomic old hk).2 (hok old hold)⟩

/-- The last accepted block is now the parent of the blocks that can still be accepted. -/
theorem Separated.accept_valid (h : s.Separated cfg home)
    (hb : s.Processing b) (hparent : b.header.parentHash = s.vm.lastAccepted.1)
    {ctx : EvmBlockContext R} (hctx : ∀ k, Waiting ctx k → Waiting s.vm.ctx k ∧
      ∀ p ∈ b.imports cfg.sha256, elementKey p.1 p.2 ≠ k) :
    Separated cfg home ⟨{ s.vm with ctx := ctx, lastAccepted := (b.hash, b.header.number) },
      b :: s.accepted⟩ := by
  set s' : Session R := ⟨{ s.vm with ctx := ctx, lastAccepted := (b.hash, b.header.number) },
    b :: s.accepted⟩ with hs'
  have hids : s'.acceptedIds = b.hash :: s.acceptedIds := rfl
  have hprocessing : ∀ c, s'.Processing c → s.Processing c := fun c hc ↦
    ⟨fun hmem ↦ hc.1 (List.mem_cons_of_mem _ hmem), hc.2⟩
  have hup : ∀ c a, s'.parent c = some a → s.parent c = some a := by
    intro c a hca
    rw [parent, hids] at hca
    rw [parent]
    split at hca
    · cases hca
    · rename_i hnot
      rw [if_neg fun hmem ↦ hnot (List.mem_cons_of_mem _ hmem)]
      exact hca
  have hlive : s.Live b := ⟨b, Ancestry.AtOrBelow.refl b, hparent⟩
  have hbaccepted := h.live b hb hlive
  refine ⟨?_, ?_, fun c hc ↦ h.own c (hprocessing c hc), ?_, ?_, ?_, ?_, ?_⟩
  · exact List.mem_cons_self
  · intro id pb hpb hid
    exact h.keyed id pb hpb fun hmem ↦ hid (List.mem_cons_of_mem _ hmem)
  · intro c a hc hca
    exact h.apart c a (hprocessing c hc) (Ancestry.Below.mono hup hca)
  · -- such a block stood below the accepted one
    rintro c hc ⟨a, hca, ha⟩
    have hca' : Ancestry.AtOrBelow s.parent c a := Ancestry.AtOrBelow.mono hup hca
    have hab : s.parent a = some b := by
      obtain ⟨r, hundecided⟩ := undecided_of_any hb.1 hb.2
      rw [parent, ha, if_neg hb.1, hundecided.verified, Option.map_some]
    have hcb : Ancestry.Below s.parent c b := Ancestry.below_iff_child.mpr ⟨a, hca', hab⟩
    have hcold := h.live c (hprocessing c hc) ⟨b, hcb.atOrBelow, hparent⟩
    intro d hd
    rcases List.mem_cons.mp hd with rfl | hd
    · exact h.apart c d (hprocessing c hc) hcb
    · exact hcold d hd
  · rw [NoConflict, List.flatMap_cons, List.map_append, List.pairwise_append]
    refine ⟨(h.own b hb).1, h.noConflict, ?_⟩
    intro x hx y hy
    obtain ⟨tx, htx, rfl⟩ := List.mem_map.mp hx
    obtain ⟨tx', htx', rfl⟩ := List.mem_map.mp hy
    obtain ⟨a, ha, htx'⟩ := List.mem_flatMap.mp htx'
    refine ((hbaccepted a ha).symm.mono ?_ ?_)
    · exact Finset.subset_biUnion_of_mem (fun tx : Tx ↦ inputUtxos cfg.sha256 tx.unsigned)
        (List.mem_toFinset.mpr htx)
    · exact Finset.subset_biUnion_of_mem (fun tx : Tx ↦ inputUtxos cfg.sha256 tx.unsigned)
        (List.mem_toFinset.mpr htx')
  · intro a ha
    rcases List.mem_cons.mp ha with rfl | ha
    · exact (h.own a hb).2
    · exact h.home_accepted a ha
  · intro p hp
    obtain ⟨hold, hnew⟩ := hctx _ hp
    exact ⟨(h.waiting p hold).1, List.forall_mem_cons.mpr
      ⟨fun hmem ↦ hnew p hmem rfl, (h.waiting p hold).2⟩⟩

theorem Separated.accept (h : s.Separated cfg home) {receipts : List EthReceipt}
    (hlegal : s.Legal (.accept b receipts)) :
    Separated cfg home ((handle cfg (.accept b receipts)).exec s) := by
  obtain ⟨hnot, hparent, hany⟩ := hlegal
  rcases Vm.accept_cases cfg b receipts s.vm with
    ⟨e, hout, hexec⟩ | ⟨pb, -, ⟨e, -, hout, hexec⟩ | ⟨hok, hout, hexec⟩⟩
  · have hs : (handle cfg (.accept b receipts)).exec s = s := by
      simp [handle, onVm, Handler.exec_bind, hout, hexec]
    rw [hs]
    exact h
  · have hs : (handle cfg (.accept b receipts)).exec s = { s with vm := { s.vm with
        ctx := (b.accept cfg pb.precommitRoot receipts).exec s.vm.ctx } } := by
      simp [handle, onVm, Handler.exec_bind, hout, hexec]
    rw [hs]
    exact h.ctx fun k hk ↦ (waiting_of_accept hk).1
  · have hs : (handle cfg (.accept b receipts)).exec s =
        ⟨{ s.vm with
            ctx := (b.accept cfg pb.precommitRoot receipts).exec s.vm.ctx
            lastAccepted := (b.hash, b.header.number) }, b :: s.accepted⟩ := by
      simp [handle, onVm, Handler.exec_bind, hout, hexec]
    rw [hs]
    exact h.accept_valid ⟨hnot, hany⟩ hparent fun k hk ↦
      (waiting_of_accept hk).imp_right fun hnew ↦ hnew hok

theorem Separated.reject (h : s.Separated cfg home)
    (hlegal : s.Legal (.reject b)) : Separated cfg home ((handle cfg (.reject b)).exec s) := by
  obtain ⟨hnot, hany⟩ := hlegal
  obtain ⟨root, hb⟩ := undecided_of_any hnot hany
  rw [exec_reject hb]
  have herase : ∀ (id : Id) (pb : ProcessingBlock R), (s.vm.verified.erase b.hash)[id]? = some pb →
      s.vm.verified[id]? = some pb := by
    intro id pb hpb
    rw [TreeMap.getElem?_erase_eq] at hpb
    split at hpb
    · cases hpb
    · exact hpb
  set s' : Session R := { s with vm := { s.vm with
    ctx := { s.vm.ctx with state := s.vm.ctx.state.discard root }
    verified := s.vm.verified.erase b.hash } } with hs'
  have hprocessing : ∀ c, s'.Processing c → s.Processing c := by
    rintro c ⟨hc, hany⟩
    refine ⟨hc, ?_⟩
    rcases hv : s'.vm.verified[c.hash]? with - | pb
    · rw [hv] at hany
      cases hany
    · rw [herase c.hash pb hv, ← hv]
      exact hany
  have hup : ∀ c a, s'.parent c = some a → s.parent c = some a := by
    intro c a hca
    have hids : s'.acceptedIds = s.acceptedIds := rfl
    rw [parent, hids] at hca
    rw [parent]
    split at hca
    · cases hca
    · rename_i hacc
      obtain ⟨pb, hpb, rfl⟩ := Option.map_eq_some_iff.mp hca
      rw [if_neg hacc, herase _ pb hpb, Option.map_some]
  refine ⟨h.lastAccepted_mem, fun id pb hpb ↦ h.keyed id pb (herase id pb hpb),
    fun c hc ↦ h.own c (hprocessing c hc),
    fun c a hc hca ↦ h.apart c a (hprocessing c hc) (Ancestry.Below.mono hup hca),
    fun c hc ⟨a, hca, ha⟩ ↦ h.live c (hprocessing c hc) ⟨a, Ancestry.AtOrBelow.mono hup hca, ha⟩,
    h.noConflict, h.home_accepted, h.waiting⟩

theorem Separated.deliver (h : s.Separated cfg home) {peer : Id} {e : Element}
    (hrules : s.Rules cfg home (.deliver peer e)) :
    Separated cfg home ((step cfg (.deliver peer e)).exec s) := by
  obtain ⟨hhome, hnew⟩ := hrules
  refine { h with waiting := fun p ⟨backend, hbackend, hp⟩ ↦ ?_ }
  obtain ⟨old, hold, rfl⟩ := Option.mem_map.mp hbackend
  rcases SharedMemory.present_of_deliver hp with hk | hk
  · exact h.waiting p ⟨old, hold, hk⟩
  · rw [elementKey, elementKey, append_inj] at hk
    obtain ⟨hpeer, hkey⟩ := hk
    refine ⟨hpeer ▸ hkey ▸ hhome, fun a ha hmem ↦ hnew a ha ?_⟩
    exact (EvmBlock.mem_inputs_iff _).mpr (.inl ⟨p.1, hkey ▸ hmem⟩)

/-- Along a run that keeps to the rules and whose verified blocks are apart, no atomic input is
consumed twice. -/
theorem noConflict_of_apart {steps : List (Step R)} (hs : s.Fresh home)
    (h : Handler.Along (step cfg) (fun s e ↦ s.Rules cfg home e ∧ s.Apart cfg e) s steps) :
    (Handler.execAll (step cfg) s steps).NoConflict cfg := by
  suffices hsep : Separated cfg home (Handler.execAll (step cfg) s steps) from hsep.noConflict
  refine Handler.execAll_of_along ?_ h hs.separated
  rintro s ((⟨b, nowMs, bootstrapped⟩ | ⟨b, receipts⟩ | ⟨b⟩) | ⟨peer, e⟩) hsep ⟨hrules, hapart⟩
  · exact hsep.verify hrules hapart
  · exact hsep.accept hrules
  · exact hsep.reject hrules
  · exact hsep.deliver hrules

end Session

/-! ### A UTXO that two blocks import -/

namespace Plain

/-- A tx that imports UTXO `n` of chain 9. -/
def importTx (n : Id) : Tx := ⟨.import_ ⟨9, [⟨n, 0, []⟩]⟩, n + 50, []⟩

/-- Two UTXOs are there. -/
def utxoBackend : AtomicBackend :=
  ⟨∅, ⟨((∅ : Half).insert (elementKey 9 (Platform.utxoId config.sha256 5 0)) ⟨true, [], []⟩).insert
    (elementKey 9 (Platform.utxoId config.sha256 6 0)) ⟨true, [], []⟩, ∅⟩⟩

/-- A block that imports the first. -/
def importBlock : EvmBlock World := block 1 101 100 rich [] [importTx 5]

/-- A block on top of it with a tx of the EVM, which imports UTXO `n`. -/
def importNext (n : Id) : EvmBlock World := block 2 102 101 paid [tx] [importTx n]

end Plain

namespace Session

/-- Both blocks are verified before the first is accepted, and then both are accepted. -/
def importTwice (n : Id) : List (Step World) :=
  [.engine (.verify Plain.importBlock 2000 true), .engine (.verify (Plain.importNext n) 2000 true),
    .engine (.accept Plain.importBlock []), .engine (.accept (Plain.importNext n) [])]

theorem plain_fresh : (Plain.start (some Plain.utxoBackend)).Fresh fun _ ↦ 9 where
  opened := Plain.start_opened _
  no_txs b hb := by
    obtain rfl := List.mem_singleton.mp hb
    rfl
  homed backend hbackend peer key hpresent := by
    obtain rfl := Option.mem_some.mp hbackend
    simp only [Plain.utxoBackend, Half.present_insert, elementKey] at hpresent
    split at hpresent
    · rename_i heq
      exact (append_inj.mp heq).1
    split at hpresent
    · rename_i heq
      exact (append_inj.mp heq).1
    · simp [Half.Present] at hpresent

theorem importTwice_noConflict :
    let s := Handler.execAll (step Plain.config) (Plain.start (some Plain.utxoBackend))
      (importTwice 6)
    s.accepted = [Plain.importNext 6, Plain.importBlock, Plain.genesis] ∧
      s.NoConflict Plain.config := by
  refine ⟨by decide +kernel, noConflict_of_apart plain_fresh ?_⟩
  have hgenesis : ∀ (b : EvmBlock World), ∀ a ∈ [Plain.genesis],
      ∀ id ∈ a.inputs Plain.config.sha256, id ∈ b.inputs Plain.config.sha256 →
        id ∉ a.exports ∧ id ∉ b.exports := by
    intro b a ha id hid
    obtain rfl := List.mem_singleton.mp ha
    simp [EvmBlock.inputs, Plain.genesis, Plain.block] at hid
  refine ⟨⟨by decide +kernel, .inr ⟨rfl, rfl, by decide +kernel⟩, fun a ha ↦ ?_, hgenesis _⟩,
    ⟨by decide +kernel, .inr ⟨by decide +kernel, rfl, by decide +kernel⟩, fun a ha ↦ ?_, ?_⟩,
    ⟨by decide +kernel, trivial⟩, ⟨by decide +kernel, trivial⟩, trivial⟩
  · have hnone : (Plain.start (some Plain.utxoBackend)).parent Plain.importBlock = none := by
      decide +kernel
    exact absurd ha (Ancestry.not_below_of_top hnone)
  · -- the first block is the only ancestor that is not decided
    set s := (step Plain.config (.engine (.verify Plain.importBlock 2000 true))).exec
      (Plain.start (some Plain.utxoBackend))
    have hup : s.parent (Plain.importNext 6) = some Plain.importBlock := by decide +kernel
    have htop : s.parent Plain.importBlock = none := by decide +kernel
    obtain rfl := ((Ancestry.below_iff_of_up hup).mp ha).eq_of_top htop
    decide +kernel
  · rw [show ((step Plain.config (.engine (.verify Plain.importBlock 2000 true))).exec
      (Plain.start (some Plain.utxoBackend))).accepted = [Plain.genesis] by decide +kernel]
    exact hgenesis _

theorem importTwice_conflict : (Plain.start (some Plain.utxoBackend)).Fresh (fun _ ↦ 9) ∧
    Handler.Along (step Plain.config) (Rules Plain.config fun _ ↦ 9)
      (Plain.start (some Plain.utxoBackend)) (importTwice 5) ∧
    ¬(Handler.execAll (step Plain.config) (Plain.start (some Plain.utxoBackend))
      (importTwice 5)).NoConflict Plain.config := by
  refine ⟨plain_fresh, by decide +kernel, ?_⟩
  unfold NoConflict
  decide +kernel

end Session

end Avalanche.Evm
