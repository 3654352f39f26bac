import Avalanche.Evm.Session

/-!
# Stopping in the middle of an acceptance

An acceptance writes to four stores, one after the other: the state, the atomic trie, shared memory
and the canonical store, the last one row by row. A node that stops in between and is opened again
reads where it was from the canonical store alone. What it finds should be the state, the rows and
the atomic effects of exactly the blocks up to the canonical tip.

The writes of an acceptance are listed here, and `accept_eq_writes` says that they are what it does.
The state is committed first and the tip is written after all that a node looks for, so whatever
lies in between shows: a stop is harmless before the first write and from the tip on, while the txs
of the block are listed, and otherwise only if the block changes neither the state nor, once the
trie is written, the atomic effects.
-/

namespace Avalanche.Evm

open Std

/-! ### The writes of an acceptance -/

/-- A write that is durable by itself. -/
inductive Write (R : Type)
  | state (ops : FirewoodOps)
  | trie (ops : List (BitVec 320 × Requests))
  | memory (requests : ExtTreeMap Id Requests)
  | row (row : Row R)

namespace EvmBlockContext

variable {R : Type}

def write (ctx : EvmBlockContext R) : Write R → EvmBlockContext R
  | .state ops => { ctx with state := { ctx.state with
      db := ctx.state.db.commit (ctx.state.db.tip.propose ops) } }
  | .trie ops => { ctx with atomicBackend := ctx.atomicBackend.map fun backend ↦
      { backend with trie := backend.trie.commit ops } }
  | .memory requests => { ctx with atomicBackend := ctx.atomicBackend.map fun backend ↦
      { backend with
        sharedMemory := (backend.sharedMemory.apply requests).getD backend.sharedMemory } }
  | .row row => { ctx with canonical := ctx.canonical.put row }

/-- What is left when the node stops: nothing is put aside any more. -/
def stop (ctx : EvmBlockContext R) : EvmBlockContext R :=
  { ctx with state := .openAt ctx.state.db }

end EvmBlockContext

namespace EvmBlock

variable {R : Type} (cfg : AvaEvmConfig R)

/-- The writes of the backend: the trie, and the memory if there is anything to ask of it. -/
def atomicWrites (b : EvmBlock R) : List (Write R) :=
  match mergeAtomicOps cfg.sha256 b.atomicTxs with
  | .error _ => []
  | .ok atomicOps =>
    match AtomicTrie.opsForBlock b.header.number atomicOps with
    | none => []
    | some ops => .trie ops :: if atomicOps = ∅ then [] else [.memory atomicOps]

/-- The writes before the tip of the canonical store moves. -/
def innerWrites (b : EvmBlock R) (ctx : EvmBlockContext R) (receipts : List EthReceipt) :
    List (Write R) :=
  (if ctx.atomicBackend.isSome then b.atomicWrites cfg else []) ++
    (b.canonicalRows cfg receipts).dropLast.map .row

/-- The writes up to that of the tip. -/
def tipWrites (b : EvmBlock R) (ctx : EvmBlockContext R) (ops : FirewoodOps)
    (receipts : List EthReceipt) : List (Write R) :=
  .state ops :: (b.innerWrites cfg ctx receipts ++ [.row (.tip b.header.number)])

/-- All writes of an acceptance, in order. -/
def writes (b : EvmBlock R) (ctx : EvmBlockContext R) (ops : FirewoodOps)
    (receipts : List EthReceipt) : List (Write R) :=
  b.tipWrites cfg ctx ops receipts ++ (b.indexAcceptedReceipts cfg receipts).map .row

end EvmBlock

/-! ### Opening a node -/

/-- `EvmVm::new`: the canonical store says where the chain is. -/
def Vm.new {R : Type} (ctx : EvmBlockContext R) (genesisId : Id) : Vm R where
  ctx := ctx
  verified := ∅
  lastAccepted :=
    match ctx.canonical.tip with
    | some height => match ctx.canonical.canonical[height]? with
      | some hash => (hash, height)
      | none => (genesisId, 0)
    | none => (genesisId, 0)

section Spec

variable {R : Type} [DecidableEq R] (cfg : AvaEvmConfig R)

/-- The block has been verified on top of what is committed, and can be accepted. -/
structure Next (ctx : EvmBlockContext R) (b : EvmBlock R) (ops : FirewoodOps)
    (receipts : List EthReceipt) : Prop where
  stash : ctx.state.stash b.header.stateRoot = some ops
  root : cfg.hashing.root (ctx.state.db.tip.propose ops) = b.header.stateRoot
  accepts : (b.accept cfg b.header.stateRoot receipts).outcome ctx = .ok ()

/-- The stores of a chain that starts. -/
structure Genesis (start : EvmBlockContext R) : Prop where
  tip : start.canonical.tip = none
  trie : ∀ backend ∈ start.atomicBackend, backend.trie = ∅

/-- The stores after blocks have been accepted. What is put aside changes in between. -/
inductive Chain (start : EvmBlockContext R) : List (EvmBlock R) → EvmBlockContext R → Prop
  | start : Chain start [] start
  | stash {blocks ctx} (stash : R → Option FirewoodOps) : Chain start blocks ctx →
    Chain start blocks { ctx with state := { ctx.state with stash := stash } }
  | accept {blocks ctx} {b : EvmBlock R} {ops receipts} : Chain start blocks ctx →
    Next cfg ctx b ops receipts →
    Chain start (blocks ++ [b]) ((b.accept cfg b.header.stateRoot receipts).exec ctx)

/-- The effects of blocks on the trie and on shared memory. -/
def effects (start : Option AtomicBackend) (blocks : List (EvmBlock R)) : Option AtomicBackend :=
  blocks.foldl (fun backend b ↦
    backend.map (AtomicBackend.accept cfg.sha256 b.header.number b.atomicTxs).exec) start

/-- The root recorded for the canonical tip. -/
def recordedRoot (start : EvmBlockContext R) (c : CanonicalStore R) : Option R :=
  match c.tip with
  | none => some (start.state.root cfg.hashing)
  | some tip => c.header[tip]?

/-- What an opened node should find. -/
structure Recovered (start : EvmBlockContext R) (blocks : List (EvmBlock R)) (vm : Vm R) :
    Prop where
  root : recordedRoot cfg start vm.ctx.canonical = some (vm.ctx.state.root cfg.hashing)
  rows : ∀ tip, vm.ctx.canonical.tip = some tip →
    vm.ctx.canonical.canonical[tip]? = some vm.lastAccepted.1 ∧
      (vm.ctx.canonical.number[vm.lastAccepted.1]?).isSome
  atomic : vm.ctx.atomicBackend =
    effects cfg start.atomicBackend (blocks.take vm.lastAccepted.2)

end Spec

/-! ### An acceptance is its writes -/

section Writes

variable {R : Type} {cfg : AvaEvmConfig R} {ctx : EvmBlockContext R} {b : EvmBlock R}
  {ops : FirewoodOps} {receipts : List EthReceipt}

/-- What the acceptance of the next block leaves. -/
theorem Next.exec [DecidableEq R] (h : Next cfg ctx b ops receipts) :
    ctx.canonical.next = .ok b.header.number ∧
    (∀ backend ∈ ctx.atomicBackend, (b.acceptAtomic cfg).outcome backend = .ok ()) ∧
    (b.accept cfg b.header.stateRoot receipts).exec ctx =
      { state := ctx.state.committed b.header.stateRoot ops
        canonical := (b.canonicalRows cfg receipts ++ b.indexAcceptedReceipts cfg receipts).foldl
          CanonicalStore.put ctx.canonical
        atomicBackend := ctx.atomicBackend.map (b.acceptAtomic cfg).exec } := by
  have haccepts := h.accepts
  rcases EvmBlock.accept_cases cfg b b.header.stateRoot receipts ctx with
    ⟨e, -, hout, -⟩ | ⟨ops', hstash, ⟨-, e, -, -, hout, -⟩ | ⟨hatomic, hcase⟩⟩
  · cases hout.symm.trans haccepts
  · cases hout.symm.trans haccepts
  cases h.stash.symm.trans hstash
  rcases hcase with ⟨e, -, hout, -⟩ | ⟨canonical, happend, -, hexec⟩
  · cases hout.symm.trans haccepts
  rw [CanonicalStore.appendCanonical, Except.bind_eq_ok_iff] at happend
  obtain ⟨expected, hnext, happend⟩ := happend
  rw [Except.bind_unit_eq_ok_iff, Except.require_eq_ok_iff] at happend
  obtain ⟨rfl, happend⟩ := happend
  obtain rfl := Except.ok.inj happend
  exact ⟨hnext, hatomic, by rw [hexec, List.foldl_append]; rfl⟩

theorem atomicWrites_of_ok {backend : AtomicBackend}
    (h : (b.acceptAtomic cfg).outcome backend = .ok ()) :
    ∃ atomicOps ops memory, mergeAtomicOps cfg.sha256 b.atomicTxs = .ok atomicOps ∧
      AtomicTrie.opsForBlock b.header.number atomicOps = some ops ∧
      backend.sharedMemory.apply atomicOps = some memory ∧
      b.atomicWrites cfg = .trie ops :: (if atomicOps = ∅ then [] else [.memory atomicOps]) ∧
      (b.acceptAtomic cfg).exec backend = ⟨backend.trie.commit ops, memory⟩ := by
  rcases AtomicBackend.accept_cases cfg.sha256 b.header.number b.atomicTxs backend with
    ⟨e, hout, -⟩ | ⟨atomicOps, ops, memory, hmerge, hops, happly, -, hexec⟩
  · cases hout.symm.trans h
  · refine ⟨atomicOps, ops, memory, hmerge, hops, happly, ?_, hexec⟩
    rw [EvmBlock.atomicWrites, hmerge]
    simp only [hops]

/-- The writes of the backend do what its acceptance does. -/
theorem foldl_atomicWrites {ctx : EvmBlockContext R} (h : ∀ backend ∈ ctx.atomicBackend,
      (b.acceptAtomic cfg).outcome backend = .ok ()) :
    (if ctx.atomicBackend.isSome then b.atomicWrites cfg else []).foldl EvmBlockContext.write ctx =
      { ctx with atomicBackend := ctx.atomicBackend.map (b.acceptAtomic cfg).exec } := by
  obtain ⟨state, canonical, - | backend⟩ := ctx
  · rfl
  obtain ⟨atomicOps, ops, memory, -, -, happly, hwrites, hexec⟩ :=
    atomicWrites_of_ok (h backend rfl)
  rw [Option.isSome_some, if_pos rfl, hwrites]
  by_cases hempty : atomicOps = ∅
  · subst hempty
    obtain rfl : backend.sharedMemory = memory :=
      Option.some.inj ((SharedMemory.apply_empty _).symm.trans happly)
    simp [EvmBlockContext.write, hexec]
  · simp [EvmBlockContext.write, hempty, hexec, happly]

theorem foldl_rows (rows : List (Row R)) (ctx : EvmBlockContext R) :
    (rows.map Write.row).foldl EvmBlockContext.write ctx =
      { ctx with canonical := rows.foldl CanonicalStore.put ctx.canonical } := by
  induction rows generalizing ctx with
  | nil => rfl
  | cons row rows ih =>
    rw [List.map_cons, List.foldl_cons, ih]
    rfl

/-- The writes up to the tip move everything but the list of txs. -/
theorem foldl_tipWrites [DecidableEq R] (h : Next cfg ctx b ops receipts) :
    (b.tipWrites cfg ctx ops receipts).foldl EvmBlockContext.write ctx =
      { state := { ctx.state with db := ctx.state.db.commit (ctx.state.db.tip.propose ops) }
        canonical := (b.canonicalRows cfg receipts).foldl CanonicalStore.put ctx.canonical
        atomicBackend := ctx.atomicBackend.map (b.acceptAtomic cfg).exec } := by
  obtain ⟨-, hatomic, -⟩ := h.exec
  rw [EvmBlock.tipWrites, EvmBlock.innerWrites, List.foldl_cons, List.foldl_append,
    List.foldl_append]
  have hstate : (ctx.write (.state ops)).atomicBackend = ctx.atomicBackend := rfl
  rw [← hstate, foldl_atomicWrites (hstate ▸ hatomic), foldl_rows]
  rfl

/-- An acceptance that returns has done its writes, in order, and nothing else that lasts. -/
theorem accept_eq_writes [DecidableEq R] (h : Next cfg ctx b ops receipts) :
    ((b.accept cfg b.header.stateRoot receipts).exec ctx).stop =
      ((b.writes cfg ctx ops receipts).foldl EvmBlockContext.write ctx).stop := by
  rw [h.exec.2.2, EvmBlock.writes, List.foldl_append, List.foldl_append, foldl_tipWrites h,
    foldl_rows]
  rfl

end Writes

/-! ### What the stores of a chain hold -/

section Grown

variable {R : Type} (cfg : AvaEvmConfig R)

/-- Everything is where the canonical store says, and the trie has nothing above the tip. -/
structure Grown (start : EvmBlockContext R) (blocks : List (EvmBlock R)) (ctx : EvmBlockContext R) :
    Prop where
  tip : ctx.canonical.tip = if blocks = [] then none else some blocks.length
  root : recordedRoot cfg start ctx.canonical = some (ctx.state.root cfg.hashing)
  rows : ∀ tip, ctx.canonical.tip = some tip → ∃ hash, ctx.canonical.canonical[tip]? = some hash ∧
    (ctx.canonical.number[hash]?).isSome
  atomic : ctx.atomicBackend = effects cfg start.atomicBackend blocks
  trie : ∀ backend ∈ ctx.atomicBackend, ∀ height chain, blocks.length < height → height ≤ u64Max →
    backend.trie[trieKey height chain]? = none

variable {cfg} {start ctx : EvmBlockContext R} {blocks : List (EvmBlock R)} {b : EvmBlock R}
  {ops : FirewoodOps} {receipts : List EthReceipt}

theorem Genesis.grown (h : Genesis start) : Grown cfg start [] start := by
  refine ⟨by rw [h.tip, if_pos rfl], by rw [recordedRoot, h.tip], ?_, rfl, ?_⟩
  · intro tip htip
    cases h.tip.symm.trans htip
  · intro backend hbackend height chain _ _
    rw [h.trie backend hbackend, ExtTreeMap.getElem?_empty]

/-- The next block has the number after the tip. -/
theorem Grown.number (h : Grown cfg start blocks ctx)
    (hnext : ctx.canonical.next = .ok b.header.number) :
    b.header.number = blocks.length + 1 ∧ b.header.number ≤ u64Max := by
  rw [CanonicalStore.next, h.tip] at hnext
  by_cases hblocks : blocks = []
  · simp only [hblocks, if_true, Except.ok.injEq] at hnext
    rw [← hnext, hblocks, u64Max_eq]
    exact ⟨rfl, by norm_num⟩
  · simp only [if_neg hblocks] at hnext
    rw [Except.orError_eq_ok_iff, checkedAdd_eq_some_iff] at hnext
    exact ⟨hnext.2.symm, hnext.2 ▸ hnext.1⟩

/-- Once the tip is written the chain has the block, however many of its txs are listed. -/
theorem Grown.accepted [DecidableEq R] (h : Grown cfg start blocks ctx)
    (hb : Next cfg ctx b ops receipts) (state : FirewoodStateProvider R)
    (hstate : state.db = ctx.state.db.commit (ctx.state.db.tip.propose ops)) {rows : List (Row R)}
    (hrows : ∀ row ∈ rows, row ∈ b.indexAcceptedReceipts cfg receipts) :
    Grown cfg start (blocks ++ [b])
      { state := state
        canonical := (b.canonicalRows cfg receipts ++ rows).foldl CanonicalStore.put ctx.canonical
        atomicBackend := ctx.atomicBackend.map (b.acceptAtomic cfg).exec } := by
  obtain ⟨hnext, hatomic, -⟩ := hb.exec
  obtain ⟨hnumber, hmax⟩ := h.number hnext
  rw [List.foldl_append]
  refine List.foldlRecOn (motive := fun canonical ↦ Grown cfg start (blocks ++ [b])
    ⟨state, canonical, _⟩) rows CanonicalStore.put ?_ fun canonical hgrown row hrow ↦ ?_
  · refine ⟨?_, ?_, ?_, ?_, ?_⟩
    · simp [EvmBlock.canonicalRows, CanonicalStore.rows, CanonicalStore.put, hnumber]
    · simp [recordedRoot, EvmBlock.canonicalRows, CanonicalStore.rows, CanonicalStore.put,
        FirewoodStateProvider.root, hstate, Db.commit, hb.root]
    · intro tip htip
      simp only [EvmBlock.canonicalRows, CanonicalStore.rows, CanonicalStore.put, List.foldl_cons,
        List.foldl_nil, Option.some.injEq] at htip
      refine ⟨b.hash, ?_, ?_⟩
      · simp [EvmBlock.canonicalRows, CanonicalStore.rows, CanonicalStore.put, htip]
      · simp [EvmBlock.canonicalRows, CanonicalStore.rows, CanonicalStore.put]
    · have heffects := h.atomic
      rw [effects] at heffects
      rw [effects, List.foldl_append, ← heffects]
      rfl
    · intro backend hbackend height chain hlt hle
      obtain ⟨old, hold, rfl⟩ := Option.mem_map.mp hbackend
      obtain ⟨atomicOps, trieOps, memory, -, htrie, -, -, hold'⟩ :=
        atomicWrites_of_ok (hatomic old hold)
      rw [List.length_append, List.length_singleton] at hlt
      rw [hold', AtomicTrie.getElem?_commit_of_ne htrie hmax hle (by omega)]
      exact h.trie old hold height chain (by omega) hle
  · -- a row about a tx is nothing that is looked at
    obtain ⟨txHash, rfl⟩ :=
      EvmBlock.eq_txNumber_of_mem_indexAcceptedReceipts cfg (hrows row hrow)
    exact ⟨hgrown.tip, hgrown.root, hgrown.rows, hgrown.atomic, hgrown.trie⟩

theorem Grown.accept [DecidableEq R] (h : Grown cfg start blocks ctx)
    (hb : Next cfg ctx b ops receipts) :
    Grown cfg start (blocks ++ [b]) ((b.accept cfg b.header.stateRoot receipts).exec ctx) := by
  rw [hb.exec.2.2]
  exact h.accepted hb _ rfl fun _ hrow ↦ hrow

theorem Chain.grown [DecidableEq R] (hstart : Genesis start) (h : Chain cfg start blocks ctx) :
    Grown cfg start blocks ctx := by
  induction h with
  | start => exact hstart.grown
  | stash stash _ ih => exact ⟨ih.tip, ih.root, ih.rows, ih.atomic, ih.trie⟩
  | accept _ hb ih => exact ih.accept hb

/-- The canonical store leads back to the last block. -/
theorem Grown.lastAccepted (h : Grown cfg start blocks ctx) (genesisId : Id) :
    (Vm.new ctx.stop genesisId).lastAccepted.2 = blocks.length ∧
      ∀ tip, ctx.canonical.tip = some tip →
        ctx.canonical.canonical[tip]? = some (Vm.new ctx.stop genesisId).lastAccepted.1 := by
  have htip := h.tip
  by_cases hblocks : blocks = []
  · rw [if_pos hblocks] at htip
    refine ⟨?_, fun tip hsome ↦ ?_⟩
    · simp [Vm.new, EvmBlockContext.stop, htip, hblocks]
    · cases htip.symm.trans hsome
  · rw [if_neg hblocks] at htip
    obtain ⟨hash, hhash, -⟩ := h.rows _ htip
    refine ⟨?_, fun tip hsome ↦ ?_⟩
    · simp [Vm.new, EvmBlockContext.stop, htip, hhash]
    · cases htip.symm.trans hsome
      simp [Vm.new, EvmBlockContext.stop, htip, hhash]

theorem Grown.recovered (h : Grown cfg start blocks ctx) (rest : List (EvmBlock R))
    (genesisId : Id) : Recovered cfg start (blocks ++ rest) (Vm.new ctx.stop genesisId) := by
  obtain ⟨hheight, hhash⟩ := h.lastAccepted genesisId
  refine ⟨h.root, fun tip htip ↦ ?_, ?_⟩
  · obtain ⟨hash, hrow, hnumber⟩ := h.rows tip htip
    have hlast := hhash tip htip
    refine ⟨hlast, ?_⟩
    cases hrow.symm.trans hlast
    exact hnumber
  · rw [hheight, List.take_left]
    exact h.atomic

/-! ### Writes in between -/

variable {l : List (Write R)}

/-- What no write changes stays. -/
theorem foldl_write_of_forall {α : Type} (f : EvmBlockContext R → α)
    (h : ∀ w ∈ l, ∀ c : EvmBlockContext R, f (c.write w) = f c) (c : EvmBlockContext R) :
    f (l.foldl EvmBlockContext.write c) = f c :=
  List.foldlRecOn (motive := fun c' ↦ f c' = f c) l EvmBlockContext.write rfl
    fun c' hc' w hw ↦ (h w hw c').trans hc'

/-- The writes of the backend are to the trie and to the memory. -/
theorem mem_atomicWrites {w : Write R} (hw : w ∈ b.atomicWrites cfg) :
    (∃ ops, w = .trie ops) ∨ ∃ requests, w = .memory requests := by
  rw [EvmBlock.atomicWrites] at hw
  split at hw
  · cases hw
  split at hw
  · cases hw
  rcases List.mem_cons.mp hw with rfl | hw
  · exact .inl ⟨_, rfl⟩
  · split at hw
    · cases hw
    · exact .inr ⟨_, List.mem_singleton.mp hw⟩

/-- The writes between the first and the last are to the backend, or rows under the block's number
and hash. -/
theorem mem_innerWrites {w : Write R} (hw : w ∈ b.innerWrites cfg ctx receipts) :
    (ctx.atomicBackend.isSome ∧ ((∃ ops, w = .trie ops) ∨ ∃ requests, w = .memory requests)) ∨
      ∃ row ∈ (b.canonicalRows cfg receipts).dropLast, w = .row row := by
  rw [EvmBlock.innerWrites, List.mem_append] at hw
  rcases hw with hw | hw
  · split at hw
    · rename_i hsome
      exact .inl ⟨hsome, mem_atomicWrites hw⟩
    · cases hw
  · obtain ⟨row, hrow, rfl⟩ := List.mem_map.mp hw
    exact .inr ⟨row, hrow, rfl⟩

/-- A row of the next block, the tip apart, does not change what the canonical store says. -/
theorem Grown.put (h : Grown cfg start blocks ctx) (hnumber : b.header.number = blocks.length + 1)
    {row : Row R} (hrow : row ∈ (b.canonicalRows cfg receipts).dropLast) :
    Grown cfg start blocks { ctx with canonical := ctx.canonical.put row } := by
  have hne : ∀ tip, ctx.canonical.tip = some tip → b.header.number ≠ tip := by
    intro tip hsome
    rw [h.tip] at hsome
    split at hsome
    · cases hsome
    · rw [← Option.some.inj hsome, hnumber]
      omega
  simp only [EvmBlock.canonicalRows, CanonicalStore.rows, List.dropLast, List.mem_cons,
    List.not_mem_nil, or_false] at hrow
  rcases hrow with rfl | rfl | rfl | rfl | rfl
  · refine ⟨h.tip, ?_, h.rows, h.atomic, h.trie⟩
    rw [← h.root, recordedRoot, recordedRoot]
    rcases htip : ctx.canonical.tip with - | tip
    · simp [CanonicalStore.put, htip]
    · simp [CanonicalStore.put, htip, TreeMap.getElem?_insert_eq, hne tip htip]
  · refine ⟨h.tip, h.root, fun tip htip ↦ ?_, h.atomic, h.trie⟩
    simpa [CanonicalStore.put, TreeMap.getElem?_insert_eq, hne tip htip] using h.rows tip htip
  · refine ⟨h.tip, h.root, fun tip htip ↦ ?_, h.atomic, h.trie⟩
    obtain ⟨hash, hhash, hsome⟩ := h.rows tip htip
    refine ⟨hash, hhash, ?_⟩
    simp only [CanonicalStore.put, TreeMap.getElem?_insert_eq]
    split
    · rfl
    · exact hsome
  all_goals exact ⟨h.tip, h.root, h.rows, h.atomic, h.trie⟩

/-- As long as the tip is not written, the canonical store says what it said. -/
theorem Grown.innerWrites (h : Grown cfg start blocks ctx)
    (hnumber : b.header.number = blocks.length + 1)
    (hl : ∀ w ∈ l, w ∈ b.innerWrites cfg ctx receipts) {c : EvmBlockContext R}
    (hc : c.canonical = ctx.canonical) :
    Grown cfg start blocks
      { ctx with canonical := (l.foldl EvmBlockContext.write c).canonical } := by
  refine List.foldlRecOn (motive := fun c' : EvmBlockContext R ↦
    Grown cfg start blocks { ctx with canonical := c'.canonical })
    l EvmBlockContext.write (by rwa [hc]) fun c' hc' w hw ↦ ?_
  rcases mem_innerWrites (hl w hw) with ⟨-, ⟨_, rfl⟩ | ⟨_, rfl⟩⟩ | ⟨row, hrow, rfl⟩
  · exact hc'
  · exact hc'
  · exact hc'.put hnumber hrow

/-- The state is the new one as soon as it is committed. -/
theorem state_of_innerWrites (hl : ∀ w ∈ l, w ∈ b.innerWrites cfg ctx receipts)
    (c : EvmBlockContext R) : (l.foldl EvmBlockContext.write c).state = c.state := by
  refine foldl_write_of_forall (·.state) (fun w hw c' ↦ ?_) c
  rcases mem_innerWrites (hl w hw) with ⟨-, ⟨_, rfl⟩ | ⟨_, rfl⟩⟩ | ⟨row, -, rfl⟩ <;> rfl

theorem atomicBackend_of_rows (hl : ∀ w ∈ l, ∃ row, w = .row row) (c : EvmBlockContext R) :
    (l.foldl EvmBlockContext.write c).atomicBackend = c.atomicBackend := by
  refine foldl_write_of_forall (·.atomicBackend) (fun w hw c' ↦ ?_) c
  obtain ⟨row, rfl⟩ := hl w hw
  rfl

theorem trie_of_memory_rows
    (hl : ∀ w ∈ l, (∃ requests, w = .memory requests) ∨ ∃ row, w = .row row)
    (c : EvmBlockContext R) :
    (l.foldl EvmBlockContext.write c).atomicBackend.map (·.trie)
      = c.atomicBackend.map (·.trie) := by
  refine foldl_write_of_forall (fun c ↦ c.atomicBackend.map (·.trie)) (fun w hw c' ↦ ?_) c
  rcases hl w hw with ⟨requests, rfl⟩ | ⟨row, rfl⟩
  · simp only [EvmBlockContext.write, Option.map_map]
    rfl
  · rfl

end Grown

/-! ### Stopping in between -/

section Stop

variable {R : Type} [DecidableEq R] {cfg : AvaEvmConfig R} {start ctx : EvmBlockContext R}
  {blocks : List (EvmBlock R)} {b : EvmBlock R} {ops : FirewoodOps} {receipts : List EthReceipt}

/-- The backend is as before if it has not been written yet, or if the block has no atomic txs. -/
theorem atomicBackend_of_innerWrites (h : Grown cfg start blocks ctx)
    (hb : Next cfg ctx b ops receipts) {c : EvmBlockContext R}
    (hc : c.atomicBackend = ctx.atomicBackend) (j : ℕ) :
    (((b.innerWrites cfg ctx receipts).take j).foldl EvmBlockContext.write c).atomicBackend
        = ctx.atomicBackend ↔ j = 0 ∨ b.atomicTxs = [] ∨ ctx.atomicBackend = none := by
  obtain ⟨hnext, hatomic, -⟩ := hb.exec
  obtain ⟨hnumber, hmax⟩ := h.number hnext
  rcases hbackend : ctx.atomicBackend with - | backend
  · refine iff_of_true ?_ (.inr (.inr rfl))
    rw [atomicBackend_of_rows, hc, hbackend]
    intro w hw
    rcases mem_innerWrites (List.mem_of_mem_take hw) with ⟨hsome, -⟩ | ⟨row, -, rfl⟩
    · rw [hbackend] at hsome
      cases hsome
    · exact ⟨row, rfl⟩
  obtain ⟨atomicOps, trieOps, memory, hmerge, htrie, -, hwrites, -⟩ :=
    atomicWrites_of_ok (hatomic backend hbackend)
  rcases j with - | j
  · refine iff_of_true ?_ (.inl rfl)
    rw [List.take_zero, List.foldl_nil, hc, hbackend]
  -- the trie is written first
  rw [EvmBlock.innerWrites, hbackend, Option.isSome_some, if_pos rfl, hwrites, List.cons_append,
    List.take_succ_cons, List.foldl_cons]
  set c' := c.write (.trie trieOps) with hc'
  have hbackend' : c'.atomicBackend
      = some { backend with trie := backend.trie.commit trieOps } := by
    rw [hc', EvmBlockContext.write, hc, hbackend]
    rfl
  have hnone : ∀ chain, backend.trie[trieKey b.header.number chain]? = none := fun chain ↦
    h.trie backend hbackend _ chain (by omega) hmax
  have hnil : trieOps = [] ↔ b.atomicTxs = [] := by
    rw [AtomicTrie.opsForBlock_eq_nil_iff htrie, mergeAtomicOps_eq_empty_iff hmerge]
  constructor
  · intro heq
    right
    left
    rw [← hnil, ← AtomicTrie.commit_eq_iff htrie hnone]
    have htries := congrArg (Option.map (·.trie)) heq
    rw [trie_of_memory_rows, hbackend', Option.map_some, Option.map_some,
      Option.some.injEq] at htries
    · exact htries
    · intro w hw
      rcases List.mem_append.mp (List.mem_of_mem_take hw) with hw | hw
      · split at hw
        · cases hw
        · exact .inl ⟨_, List.mem_singleton.mp hw⟩
      · obtain ⟨row, -, rfl⟩ := List.mem_map.mp hw
        exact .inr ⟨row, rfl⟩
  · rintro (hzero | htxs | hnone')
    · cases hzero
    · have hempty : atomicOps = ∅ := (mergeAtomicOps_eq_empty_iff hmerge).mpr htxs
      rw [if_pos hempty, List.nil_append, atomicBackend_of_rows, hbackend', hnil.mpr htxs]
      · rfl
      · intro w hw
        obtain ⟨row, -, rfl⟩ := List.mem_map.mp (List.mem_of_mem_take hw)
        exact ⟨row, rfl⟩
    · cases hnone'

/-- A stop after the state is committed and before the tip is written shows, unless the block
changes nothing that has been written. -/
theorem recovered_inner_iff (h : Grown cfg start blocks ctx) (hb : Next cfg ctx b ops receipts)
    (genesisId : Id) (j : ℕ) :
    Recovered cfg start (blocks ++ [b]) (Vm.new (((b.innerWrites cfg ctx receipts).take j).foldl
        EvmBlockContext.write (ctx.write (.state ops))).stop genesisId) ↔
      ctx.state.root cfg.hashing = b.header.stateRoot ∧
        (j = 0 ∨ b.atomicTxs = [] ∨ ctx.atomicBackend = none) := by
  have hl : ∀ w ∈ (b.innerWrites cfg ctx receipts).take j, w ∈ b.innerWrites cfg ctx receipts :=
    fun w hw ↦ List.mem_of_mem_take hw
  set c := ctx.write (.state ops) with hc
  set c' := ((b.innerWrites cfg ctx receipts).take j).foldl EvmBlockContext.write c with hc'
  -- with the old state and the old backend the node would recover
  have hold := (h.innerWrites (h.number hb.exec.1).1 hl (c := c) rfl).recovered [b] genesisId
  rw [← hc'] at hold
  have hroot : (Vm.new c'.stop genesisId).ctx.state.root cfg.hashing = b.header.stateRoot := by
    rw [← hb.root]
    simp [Vm.new, EvmBlockContext.stop, FirewoodStateProvider.root, FirewoodStateProvider.openAt,
      hc', state_of_innerWrites hl, hc, EvmBlockContext.write, Db.commit]
  have hatomic := atomicBackend_of_innerWrites h hb (c := c) rfl j
  constructor
  · intro hnew
    have hfound := hnew.root
    rw [hroot] at hfound
    exact ⟨Option.some.inj (hold.root.symm.trans hfound),
      hatomic.mp (hnew.atomic.trans hold.atomic.symm)⟩
  · rintro ⟨hsame, hcase⟩
    refine ⟨?_, hold.rows, (hatomic.mpr hcase).trans hold.atomic⟩
    rw [hroot, ← hsame]
    exact hold.root

/-- **Stopping an acceptance.** For every accepted chain, every next block and every stop between
two writes: the node recovers if nothing was written or the tip was, or if the block leaves the
state as it is and its effects on the backend, if any, are not written yet. -/
theorem recovered_iff (hstart : Genesis start) (h : Chain cfg start blocks ctx)
    (hb : Next cfg ctx b ops receipts) (genesisId : Id) (k : ℕ) :
    Recovered cfg start (blocks ++ [b]) (Vm.new (((b.writes cfg ctx ops receipts).take k).foldl
        EvmBlockContext.write ctx).stop genesisId) ↔
      k = 0 ∨ (b.tipWrites cfg ctx ops receipts).length ≤ k ∨
        (ctx.state.root cfg.hashing = b.header.stateRoot ∧
          (k = 1 ∨ b.atomicTxs = [] ∨ ctx.atomicBackend = none)) := by
  have hgrown := h.grown hstart
  rcases k with - | j
  · refine iff_of_true ?_ (.inl rfl)
    exact hgrown.recovered [b] genesisId
  by_cases htip : (b.tipWrites cfg ctx ops receipts).length ≤ j + 1
  · refine iff_of_true ?_ (.inr (.inl htip))
    rw [EvmBlock.writes, List.take_append, List.take_of_length_le htip, List.foldl_append,
      foldl_tipWrites hb, ← List.map_take, foldl_rows, ← List.foldl_append]
    have hrecovered (n : ℕ) := (hgrown.accepted hb { ctx.state with
      db := ctx.state.db.commit (ctx.state.db.tip.propose ops) } rfl
      fun _ hrow ↦ List.mem_of_mem_take (i := n) hrow).recovered [] genesisId
    simp only [List.append_nil] at hrecovered
    exact hrecovered _
  have hj : j ≤ (b.innerWrites cfg ctx receipts).length := by
    rw [EvmBlock.tipWrites, List.length_cons, List.length_append, List.length_singleton] at htip
    omega
  have htake : (b.writes cfg ctx ops receipts).take (j + 1)
      = .state ops :: (b.innerWrites cfg ctx receipts).take j := by
    rw [EvmBlock.writes, List.take_append_of_le_length (by omega), EvmBlock.tipWrites,
      List.take_succ_cons, List.take_append_of_le_length hj]
  rw [htake, List.foldl_cons, recovered_inner_iff hgrown hb genesisId j]
  simp [htip]

end Stop

/-! ### A block with a tx -/

namespace Plain

def first : EvmBlock World := block 1 101 100 paid [tx] []

def firstReceipts : List EthReceipt := [⟨[], 21000, 0⟩]

/-- The stores once the block is verified. -/
def firstCtx : EvmBlockContext World := ((start none).run config [.verify first 2000 true]).vm.ctx

theorem firstCtx_genesis : Genesis firstCtx where
  tip := by decide +kernel
  trie backend hbackend := by
    have hnone : firstCtx.atomicBackend = none := by decide +kernel
    cases hnone.symm.trans hbackend

theorem first_next : Next config firstCtx first [.putAccount 7 paidAccount] firstReceipts where
  stash := by decide +kernel
  root := by decide +kernel
  accepts := by
    obtain ⟨⟨⟩, h⟩ := Except.isOk_iff.mp (show ((first.accept config first.header.stateRoot
      firstReceipts).outcome firstCtx).isOk = true by decide +kernel)
    exact h

/-- What a node finds that is opened after the first `k` writes. -/
def firstStopped (k : ℕ) : Vm World :=
  Vm.new (((first.writes config firstCtx [.putAccount 7 paidAccount] firstReceipts).take k).foldl
    EvmBlockContext.write firstCtx).stop 100

end Plain

open Plain in
/-- Of the eight writes the last is missing, which lists the tx: the node recovers. -/
theorem recovered_first :
    (first.writes config firstCtx [.putAccount 7 paidAccount] firstReceipts).length = 8 ∧
      Recovered config firstCtx [first] (firstStopped 7) :=
  ⟨by decide +kernel, (recovered_iff firstCtx_genesis .start first_next 100 7).mpr
    (.inr (.inl (by decide +kernel)))⟩

open Plain in
/-- The state is committed and the tip is not: the node finds a state that is not recorded. -/
theorem not_recovered_first : Genesis firstCtx ∧ Chain config firstCtx [] firstCtx ∧
    Next config firstCtx first [.putAccount 7 paidAccount] firstReceipts ∧
    ¬Recovered config firstCtx [first] (firstStopped 1) := by
  refine ⟨firstCtx_genesis, .start, first_next, fun h ↦ ?_⟩
  exact absurd h.root (by decide +kernel)

end Avalanche.Evm
