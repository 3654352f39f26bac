import Avalanche.Sae.Frontier

/-!
# Recovery

After a restart the frontier is rebuilt from disk: the canonical chain is linked again from the
synchronous block up to the head, every block gets its execution results back, and one walk from the
head decides what has settled. The live VM settled step by step, on a chain whose lower part it had
severed, and skipped a step whenever execution lagged.

Both come to the same block. S has finished at the settlement instant of the last accepted block,
since instants do not fall along the chain, and after an acceptance that did not lag everything
between S and its parent is passed (`Settlement`). A block is never passed and finished, so there is
one such S, and the walk of the recovery finds it.

The times are those of `Block::timestamp()`, where a header time that no `SystemTime` can hold reads
as the epoch. Heights are below `u64::MAX`: the loop that rebuilds the chain counts them with
`saturating_add` and ends above the head, so it would not end at a head of that height.
-/

open Std

namespace Avalanche.Sae

/-- The durable disk. -/
structure RecoverySource where
  lastSynchronous : Block
  headHeight : ℕ
  canonicalEthBlock : ℕ → Option EthBlock
  executionResults : ℕ → Option ExecutionResults

inductive RecoverError
  | missingCanonicalBlock (height : ℕ)
  | missingExecutionResults (height : ℕ)
  | rebuild (height : ℕ) (e : Block.Error)
  | restore (height : ℕ) (e : Block.Error)
  /-- A `Restore` of the block that could not be settled. -/
  | settle (e : Vm.Error)
  | diverges
deriving DecidableEq

/-- The chain while it is being rebuilt. -/
structure Rebuilt where
  heap : Heap
  byHeight : ExtTreeMap ℕ ℕ
  head : ℕ
  nextHeight : ℕ

/-- The state the loop starts in. -/
def Rebuilt.start (src : RecoverySource) : Rebuilt where
  heap := Heap.singleton src.lastSynchronous
  byHeight := (∅ : ExtTreeMap ℕ ℕ).insert src.lastSynchronous.height 0
  head := 0
  nextHeight := saturatingAdd src.lastSynchronous.height 1

/-- One round of the loop that rebuilds the canonical chain. -/
def rebuildStep (src : RecoverySource) (s : Rebuilt) : Except RecoverError (Option Rebuilt) :=
  if s.nextHeight ≤ src.headHeight then
    match src.canonicalEthBlock s.nextHeight with
    | none => .error (.missingCanonicalBlock s.nextHeight)
    | some eth =>
      match Block.new s.heap eth (some s.head) with
      | .error e => .error (.rebuild s.nextHeight e)
      | .ok b =>
        match src.executionResults b.height with
        | none => .error (.missingExecutionResults b.height)
        | some results =>
          match b.markExecuted results with
          | .error e => .error (.restore b.height e)
          | .ok b =>
            .ok (some
              { heap := s.heap.alloc b
                byHeight := s.byHeight.insert s.nextHeight s.heap.size
                head := s.heap.size
                nextHeight := saturatingAdd s.nextHeight 1 })
  else .ok none

/-- The loop of `advance_chain_executed` and `advance_chain_accepted`. -/
def advanceChain (advance : Frontier → ℕ → Frontier) (byHeight : ExtTreeMap ℕ ℕ) (to_ : ℕ) :
    ℕ → ℕ → Frontier → Option Frontier
  | 0, _, _ => none
  | fuel + 1, h, f =>
    if h ≤ to_ then
      let f := match byHeight[h]? with
        | some b => advance f b
        | none => f
      advanceChain advance byHeight to_ fuel (saturatingAdd h 1) f
    else some f

def advanceChainExecuted (heap : Heap) : ExtTreeMap ℕ ℕ → ℕ → ℕ → ℕ → Frontier → Option Frontier :=
  advanceChain fun f b ↦ f.advanceExecuted heap b

def advanceChainAccepted (heap : Heap) : ExtTreeMap ℕ ℕ → ℕ → ℕ → ℕ → Frontier → Option Frontier :=
  advanceChain fun f b ↦ f.advanceAccepted heap b

/-- The walk back from the head. -/
def settleHead (vm : Vm) (head : ℕ) : Except RecoverError Vm :=
  match (vm.heap.blocks head).parentBlock with
  | none => .ok vm
  | some parent =>
    match vm.heap.lastToSettleAt ((vm.heap.blocks head).timestamp - tau) parent with
    | none => .error .diverges
    | some (none, _) => .ok vm
    | some (some candidate, _) =>
      match vm.settleUpTo candidate with
      | .error e => .error (.settle e)
      | .ok (vm, _) => .ok vm

structure Recovered where
  heap : Heap
  frontier : Frontier
  /-- The store of the VM, by hash. -/
  blocks : ExtTreeMap B256 ℕ
  heightIndex : ExtTreeMap ℕ B256
  head : ℕ

/-- The seed of the VM. The store and the index keep the blocks from S on. -/
def Recovered.assemble (s : Rebuilt) (vm : Vm) : Recovered :=
  let settledHeight := (vm.heap.blocks vm.frontier.lastSettled).height
  let kept := s.byHeight.filter fun h _ ↦ h ≥ settledHeight
  { heap := vm.heap
    frontier := vm.frontier
    blocks := kept.toList.foldl (fun map p ↦ map.insert (vm.heap.blocks p.2).hash p.2) ∅
    heightIndex := kept.map fun _ b ↦ (vm.heap.blocks b).hash
    head := s.head }

def recover (src : RecoverySource) : Except RecoverError Recovered := do
  let syncHeight := src.lastSynchronous.height
  let rounds := src.headHeight - syncHeight + 2
  let s ← Loop.run (rebuildStep src) .diverges rounds (Rebuilt.start src)
  let to_ := (s.heap.blocks s.head).height
  let some frontier := advanceChainExecuted s.heap s.byHeight to_ rounds
    (saturatingAdd syncHeight 1) (Frontier.new s.heap 0) | .error .diverges
  let some frontier := advanceChainAccepted s.heap s.byHeight to_ rounds
    (saturatingAdd syncHeight 1) frontier | .error .diverges
  let vm ← settleHead ⟨s.heap, frontier, false⟩ s.head
  .ok (Recovered.assemble s vm)

/-! ## What the live run leaves behind -/

namespace Vm

variable {vm vm' : Vm}

/-- The settlement instant of the last accepted block. -/
def settleAt (vm : Vm) : ℤ := (vm.heap.blocks vm.frontier.lastAccepted).timestamp - tau

/-- S has finished at the settlement instant, and unless execution lagged nothing above it has. -/
structure Settlement (vm : Vm) : Prop where
  lt : vm.frontier.lastSettled = 0 ∨ vm.frontier.lastSettled < vm.frontier.lastAccepted
  finished : vm.frontier.lastSettled = 0 ∨
    Heap.Finished (vm.heap.blocks vm.frontier.lastSettled) vm.settleAt
  passed : vm.lagging = false → ∀ i, vm.frontier.lastSettled < i → i < vm.frontier.lastAccepted →
    Heap.Passed (vm.heap.blocks i) vm.settleAt

end Vm

namespace Heap

theorem Finished.not_passed {b : Block} {settleAt : ℤ} (h : Finished b settleAt) :
    ¬ Passed b settleAt := by
  obtain ⟨hts, t, ht, hle⟩ := h
  rintro (hlt | ⟨t', ht', hlt⟩)
  · omega
  · cases ht.symm.trans ht'
    omega

theorem Finished.mono {b : Block} {settleAt settleAt' : ℤ} (h : Finished b settleAt)
    (hle : settleAt ≤ settleAt') : Finished b settleAt' := by
  obtain ⟨hts, t, ht, htle⟩ := h
  exact ⟨hts.trans hle, t, ht, htle.trans hle⟩

end Heap

namespace Vm

variable {vm vm' : Vm} {blocks : List EthBlock}

/-- Accepting a block whose time is not earlier keeps the settlement facts. -/
theorem Settlement.extend (h : vm.Settlement) (hholds : vm.Holds blocks)
    {last eth : EthBlock} (hlast : blocks.getLast? = some last)
    (hparent : eth.parentHash = last.hash)
    (hnumber : eth.number = last.number + 1) (hfresh : ∀ b ∈ blocks, b.hash ≠ eth.hash)
    (htime : vm.frontier.lastAccepted = 0 ∨ last.systemTime ≤ eth.systemTime)
    (hext : vm.extend eth = .ok vm') : vm'.Settlement := by
  obtain ⟨vm₁, stop, hext₁, hholds', -, hexec, hstops, hS, hlag⟩ :=
    hholds.extend hlast hparent hnumber hfresh
  obtain rfl := Except.ok.inj (hext₁.symm.trans hext)
  have hA : vm₁.frontier.lastAccepted = vm.frontier.lastAccepted + 1 := by
    have h₁ := hholds.length_eq
    have h₂ := hholds'.length_eq
    rw [List.length_append, List.length_singleton] at h₂
    omega
  have hat : vm₁.settleAt = eth.systemTime - tau := by
    rw [settleAt, Block.timestamp, hholds'.eth_lastAccepted List.getLast?_concat]
  have hsettled_lt := hholds.chain.settled_lt
  -- what was settled before has still finished
  have hold : vm.frontier.lastSettled = 0 ∨
      Heap.Finished (vm₁.heap.blocks vm.frontier.lastSettled) (eth.systemTime - tau) := by
    rcases htime with hA0 | htime
    · have := hholds.settled_le
      have := hholds.executed_le
      exact .inl (by omega)
    rcases h.finished with hzero | hfin
    · exact .inl hzero
    · right
      have heth : (vm₁.heap.blocks vm.frontier.lastSettled).eth
          = (vm.heap.blocks vm.frontier.lastSettled).eth := by
        have h₁ := hholds'.eth_eq vm.frontier.lastSettled (by
          have h₁ := hholds'.accepted_eq
          have h₂ := hholds.accepted_eq
          omega)
        rw [List.getElem?_append_left (hholds.size_eq ▸ hsettled_lt),
          hholds.eth_eq _ hsettled_lt] at h₁
        exact (Option.some.inj h₁).symm
      refine (hfin.mono ?_).of_execution heth fun _ ↦ (hexec _ hsettled_lt).trans
      rw [settleAt, Block.timestamp, hholds.eth_lastAccepted hlast]
      exact Int.sub_le_sub_right htime tau
  have hsettled_le := hholds.settled_le.trans hholds.executed_le
  rcases hstops with ⟨c, hle, hc, hfin, hpass⟩ | ⟨hpos, hpass⟩ | ⟨floor, i, hle, hi, hund⟩
  · have hS' : vm₁.frontier.lastSettled = c := hS
    refine ⟨.inr (by omega), ?_, fun _ i hi hlt ↦ ?_⟩
    · rw [hS', hat]
      exact hfin
    · rw [hat]
      exact hpass i (hS' ▸ hi) (by omega)
  · -- the walk leaves the severed end only if S has not finished
    have hS' : vm₁.frontier.lastSettled = vm.frontier.lastSettled := hS
    rcases hold with hzero | hfin
    · omega
    · exact absurd (hpass _ le_rfl hsettled_le) hfin.not_passed
  · have hS' : vm₁.frontier.lastSettled = vm.frontier.lastSettled := by
      rw [hS]
      rcases floor with - | c <;> rfl
    refine ⟨.inr (by omega), ?_, fun hlagging ↦ ?_⟩
    · rw [hS', hat]
      exact hold
    · rw [hlag.mpr rfl] at hlagging
      cases hlagging

/-- Completing a block keeps the settlement facts. -/
theorem Settlement.complete (h : vm.Settlement) (hholds : vm.Holds blocks)
    {block : ℕ} (hnext : block = vm.frontier.lastExecuted + 1)
    (hle : block ≤ vm.frontier.lastAccepted) {results : ExecutionResults}
    (hcomp : vm.complete block results = .ok vm') : vm'.Settlement := by
  obtain ⟨vm₁, hcomp₁, hholds', -, hS, hheap, hlag⟩ := hholds.complete hnext hle results
  obtain rfl := Except.ok.inj (hcomp₁.symm.trans hcomp)
  have hA : vm₁.frontier.lastAccepted = vm.frontier.lastAccepted :=
    Nat.succ_injective (hholds'.length_eq.trans hholds.length_eq.symm)
  have heth : ∀ i, (vm₁.heap.blocks i).eth = (vm.heap.blocks i).eth := fun i ↦ by
    rw [hheap]
    exact Heap.map_blocks_store Block.eth (·.withResults results) (fun _ ↦ rfl) vm.heap block i
  have hat : vm₁.settleAt = vm.settleAt := by
    rw [settleAt, settleAt, hA, Block.timestamp, Block.timestamp, heth]
  have hsame : ∀ i, i ≠ block → vm₁.heap.blocks i = vm.heap.blocks i := fun i hi ↦ by
    rw [hheap, Heap.blocks_store, if_neg hi]
  have hblock := hle.trans_lt hholds.accepted_lt
  have hunexecuted : (vm.heap.blocks block).executedByGasTime = none := by
    have hnot : ¬ (vm.heap.blocks block).executed = true := by
      rw [hholds.executed_iff block hblock]
      omega
    rw [Block.executed, Option.isSome_iff_ne_none, not_not] at hnot
    rw [Block.executedByGasTime, hnot, Option.map_none]
  have hsettled := hholds.settled_le
  refine ⟨?_, ?_, fun hlagging i hi hlt ↦ ?_⟩
  · rw [hA, hS]
    exact h.lt
  · rw [hat, hS, hsame vm.frontier.lastSettled (by omega)]
    exact h.finished
  · rw [hat]
    rw [hS] at hi
    rw [hA] at hlt
    have hpassed := h.passed (hlag ▸ hlagging) i hi hlt
    by_cases hib : i = block
    · -- it was passed for its time, as it had no results
      rcases hpassed with hts | ⟨t, ht, -⟩
      · left
        rwa [Block.timestamp, heth]
      · rw [hib, hunexecuted] at ht
        cases ht
    · rwa [hsame i hib]

/-- The settlement facts hold after every run of a linear chain with non-decreasing times. -/
theorem Linear.settlement {genesis : EthBlock} {events : List Event} (h : Linear genesis events)
    (htimes : (acceptedBlocks events).IsChain fun a b ↦ a.systemTime ≤ b.systemTime)
    (results : ExecutionResults) {vm : Vm} (hrun : (start genesis results).run events = .ok vm) :
    vm.Settlement := by
  induction h generalizing vm with
  | nil =>
    cases hrun
    exact ⟨.inl rfl, .inl rfl, fun _ i _ hi ↦ absurd hi (Nat.not_lt_zero i)⟩
  | @accept events last eth h hlast hparent hnumber hfresh ih =>
    have happ : acceptedBlocks (events ++ [.accept eth]) = acceptedBlocks events ++ [eth] := by
      simp [acceptedBlocks]
    rw [happ, List.isChain_append] at htimes
    obtain ⟨htimes, -, hle⟩ := htimes
    obtain ⟨vm₀, hrun₀, hholds, -⟩ := h.holds results
    rw [run_concat, hrun₀] at hrun
    refine (ih htimes hrun₀).extend hholds hlast hparent hnumber hfresh ?_ hrun
    rcases hnil : acceptedBlocks events with - | ⟨b, rest⟩
    · left
      have hA := hholds.length_eq
      rw [chainOf, hnil, List.length_singleton] at hA
      omega
    · right
      refine hle last ?_ eth rfl
      rw [chainOf, hnil, List.getLast?_cons_cons] at hlast
      rw [hnil]
      exact hlast
  | @complete events block res h hnext haccepted ih =>
    have happ : acceptedBlocks (events ++ [.complete block res]) = acceptedBlocks events := by
      simp [acceptedBlocks]
    rw [happ] at htimes
    obtain ⟨vm₀, hrun₀, hholds, hE, -⟩ := h.holds results
    rw [run_concat, hrun₀] at hrun
    have hA := hholds.length_eq
    rw [chainOf, List.length_cons] at hA
    exact (ih htimes hrun₀).complete hholds (hE ▸ hnext) (by omega) hrun

end Vm

/-! ## The rebuilt chain -/

/-- The disk under a VM: its accepted blocks, and results for each of them that agree with those it
has executed. -/
structure RecoverySource.DiskOf (src : RecoverySource) (vm : Vm) : Prop where
  lastSynchronous_eq : src.lastSynchronous = vm.heap.blocks 0
  headHeight_eq : src.headHeight = (vm.heap.blocks vm.frontier.lastAccepted).height
  canonical_eq : ∀ r < vm.heap.size, r ≠ 0 →
    src.canonicalEthBlock (vm.heap.blocks r).height = some (vm.heap.blocks r).eth
  results_eq : ∀ r < vm.heap.size, r ≠ 0 →
    ∃ results, src.executionResults (vm.heap.blocks r).height = some results ∧
      ∀ live, (vm.heap.blocks r).execution = some live → live = results

/-- The heap holds the first blocks of the chain of `vm`, up to `k`, executed and with all their
links. -/
structure Heap.Copies (heap : Heap) (vm : Vm) (k : ℕ) : Prop where
  size_eq : heap.size = k + 1
  zero_eq : heap.blocks 0 = vm.heap.blocks 0
  block_eq : ∀ i, i ≠ 0 → i ≤ k →
    ∃ results, heap.blocks i = ⟨(vm.heap.blocks i).eth, some ⟨some (i - 1)⟩, false, some results⟩ ∧
      ∀ live, (vm.heap.blocks i).execution = some live → live = results

namespace Heap.Copies

variable {heap : Heap} {vm : Vm} {k : ℕ} {i : ℕ}

theorem eth_eq (h : heap.Copies vm k) (hi : i ≤ k) :
    (heap.blocks i).eth = (vm.heap.blocks i).eth := by
  by_cases hi0 : i = 0
  · rw [hi0, h.zero_eq]
  · obtain ⟨results, hblock, -⟩ := h.block_eq i hi0 hi
    rw [hblock]

/-- One more block. -/
theorem alloc (h : heap.Copies vm k) {results : ExecutionResults}
    (hlive : ∀ live, (vm.heap.blocks (k + 1)).execution = some live → live = results) :
    (heap.alloc ⟨(vm.heap.blocks (k + 1)).eth, some ⟨some k⟩, false, some results⟩).Copies vm
      (k + 1) := by
  refine ⟨by rw [size_alloc, h.size_eq], ?_, fun i hi0 hi ↦ ?_⟩
  · rw [blocks_alloc_of_lt _ (by rw [h.size_eq]; omega), h.zero_eq]
  · rcases Nat.lt_or_eq_of_le hi with hlt | rfl
    · rw [blocks_alloc_of_lt _ (by rw [h.size_eq]; omega)]
      exact h.block_eq i hi0 (by omega)
    · refine ⟨results, ?_, hlive⟩
      rw [← h.size_eq, blocks_alloc_size, h.size_eq]
      rfl

theorem execution_eq (h : heap.Copies vm k) (hi0 : i ≠ 0) (hi : i ≤ k)
    {live : ExecutionResults} (hexec : (vm.heap.blocks i).execution = some live) :
    (heap.blocks i).execution = some live := by
  obtain ⟨results, hblock, hlive⟩ := h.block_eq i hi0 hi
  rw [hblock, hlive live hexec]

/-- A copy of the whole chain is a chain of which only the synchronous block is settled. -/
theorem chain (h : heap.Copies vm k) {settled : ℕ} (hchain : vm.heap.Chain settled)
    (hsize : k < vm.heap.size) : heap.Chain 0 := by
  have hzero : (heap.blocks 0).synchronous = true ∧ (heap.blocks 0).ancestry = none := by
    rw [h.zero_eq]
    have hpos := Nat.zero_lt_of_lt hsize
    exact ⟨(hchain.synchronous_iff 0 hpos).mpr rfl,
      (hchain.ancestry_eq 0 hpos).trans (if_pos (Nat.zero_le _))⟩
  have hlinks : ∀ i < heap.size, ((heap.blocks i).synchronous = true ↔ i = 0) ∧
      (heap.blocks i).ancestry = if i ≤ 0 then none else some ⟨some (i - 1)⟩ := fun i hi ↦ by
    rw [h.size_eq] at hi
    by_cases hi0 : i = 0
    · simp [hi0, hzero]
    · obtain ⟨results, hblock, -⟩ := h.block_eq i hi0 (by omega)
      simp [hblock, hi0]
  refine ⟨by rw [h.size_eq]; omega, fun i hi ↦ (hlinks i hi).1, fun i hi ↦ (hlinks i hi).2,
    fun i hi ↦ ?_⟩
  · rw [h.size_eq] at hi
    rw [Block.height, Block.height, h.eth_eq (by omega), h.eth_eq (Nat.zero_le k)]
    exact hchain.height_eq i (by omega)

theorem executed (h : heap.Copies vm k) (hzero : (vm.heap.blocks 0).executed = true)
    (hi : i ≤ k) : (heap.blocks i).executed = true := by
  by_cases hi0 : i = 0
  · rw [hi0, h.zero_eq, hzero]
  · obtain ⟨results, hblock, -⟩ := h.block_eq i hi0 hi
    rw [hblock]
    rfl

end Heap.Copies

/-- Every block of a linear chain names the one before it. -/
theorem Vm.Linear.linked {genesis : EthBlock} {events : List Vm.Event}
    (h : Vm.Linear genesis events) :
    (Vm.chainOf genesis events).IsChain fun a b ↦ b.parentHash = a.hash := by
  induction h with
  | nil => exact List.isChain_singleton _
  | accept h hlast hparent hnumber hfresh ih =>
    rw [Vm.chainOf_accept, List.isChain_append]
    refine ⟨ih, List.isChain_singleton _, fun a ha b hb ↦ ?_⟩
    obtain rfl := Option.some.inj hb
    cases hlast.symm.trans ha
    exact hparent
  | complete h hnext haccepted ih =>
    rw [Vm.chainOf_complete]
    exact ih

section Rebuild

variable {vm : Vm} {src : RecoverySource} {blocks : List EthBlock}

/-- The loop has rebuilt the chain up to `k`. -/
structure Rebuilt.UpTo (vm : Vm) (k : ℕ) (s : Rebuilt) : Prop where
  copies : s.heap.Copies vm k
  head_eq : s.head = k
  nextHeight_eq : s.nextHeight = (vm.heap.blocks 0).height + k + 1
  byHeight_eq : ∀ i ≤ k, s.byHeight[(vm.heap.blocks 0).height + i]? = some i

/-- One round of the loop below the head. -/
theorem Rebuilt.UpTo.step {k : ℕ} {s : Rebuilt} (h : s.UpTo vm k) (hholds : vm.Holds blocks)
    (hlinked : blocks.IsChain fun a b ↦ b.parentHash = a.hash) (hdisk : src.DiskOf vm)
    (hk : k < vm.frontier.lastAccepted) (hhead : src.headHeight < u64Max) :
    ∃ s', rebuildStep src s = .ok (some s') ∧ s'.UpTo vm (k + 1) := by
  have hsize : k + 1 < vm.heap.size := by
    have := hholds.accepted_lt
    omega
  have hheight := hholds.chain.height_eq _ hsize
  have hheadHeight := hdisk.headHeight_eq
  rw [hholds.chain.height_eq _ hholds.accepted_lt] at hheadHeight
  have hnext : s.nextHeight = (vm.heap.blocks (k + 1)).height := by
    rw [h.nextHeight_eq, hheight]
    omega
  obtain ⟨results, hresults, hlive⟩ := hdisk.results_eq _ hsize (Nat.succ_ne_zero k)
  have hparent : (vm.heap.blocks (k + 1)).eth.parentHash = (vm.heap.blocks k).hash := by
    have hk₀ := hholds.eth_eq k (by omega)
    have hk₁ := hholds.eth_eq (k + 1) hsize
    rw [List.isChain_iff_getElem] at hlinked
    have hlink := hlinked k (hholds.size_eq ▸ hsize)
    rwa [(List.getElem?_eq_some_iff.mp hk₀).2, (List.getElem?_eq_some_iff.mp hk₁).2] at hlink
  have hnew : Block.new s.heap (vm.heap.blocks (k + 1)).eth (some s.head)
      = .ok ⟨(vm.heap.blocks (k + 1)).eth, some ⟨some k⟩, false, none⟩ := by
    have hnumber : (vm.heap.blocks k).height = (vm.heap.blocks (k + 1)).eth.number - 1 := by
      change (vm.heap.blocks k).height = (vm.heap.blocks (k + 1)).height - 1
      rw [hholds.chain.height_eq k (by omega), hheight]
      omega
    rw [Block.height] at hnumber
    simp [Block.new, Block.hash, Block.height, h.head_eq, h.copies.eth_eq le_rfl, hparent, hnumber]
  have hle : s.nextHeight ≤ src.headHeight := by
    omega
  have hsat : saturatingAdd s.nextHeight 1 = s.nextHeight + 1 := saturatingAdd_of_le (by omega)
  refine ⟨⟨s.heap.alloc ⟨(vm.heap.blocks (k + 1)).eth, some ⟨some k⟩, false, some results⟩,
    s.byHeight.insert s.nextHeight s.heap.size, s.heap.size, saturatingAdd s.nextHeight 1⟩, ?_,
    h.copies.alloc hlive, h.copies.size_eq, ?_, ?_⟩
  · rw [rebuildStep, if_pos hle, hnext, hdisk.canonical_eq _ hsize (Nat.succ_ne_zero k)]
    simp only [hnew]
    rw [show Block.height ⟨(vm.heap.blocks (k + 1)).eth, some ⟨some k⟩, false, none⟩
      = (vm.heap.blocks (k + 1)).height from rfl, hresults]
    rfl
  · show saturatingAdd s.nextHeight 1 = _
    omega
  · intro i hi
    rw [TreeMap.getElem?_insert_eq, hnext, hheight, h.copies.size_eq]
    split
    next heq => rw [Option.some_inj]; omega
    next hne => exact h.byHeight_eq i (by omega)

/-- The loop rebuilds the chain up to a head below the last height. -/
theorem rebuild_spec (hholds : vm.Holds blocks)
    (hlinked : blocks.IsChain fun a b ↦ b.parentHash = a.hash) (hdisk : src.DiskOf vm)
    (hhead : src.headHeight < u64Max) {fuel : ℕ} (hfuel : vm.frontier.lastAccepted < fuel) :
    ∃ s, Loop.run (rebuildStep src) .diverges fuel (Rebuilt.start src) = .ok s ∧
      s.UpTo vm vm.frontier.lastAccepted := by
  set n := vm.frontier.lastAccepted with hn
  have hheadHeight : src.headHeight = (vm.heap.blocks 0).height + n := by
    rw [hdisk.headHeight_eq, hholds.chain.height_eq _ hholds.accepted_lt]
  have hstart : (Rebuilt.start src).UpTo vm 0 := by
    refine ⟨⟨rfl, hdisk.lastSynchronous_eq, fun i hi0 hi ↦ absurd (Nat.le_zero.mp hi) hi0⟩, rfl, ?_,
      fun i hi ↦ ?_⟩
    · show saturatingAdd src.lastSynchronous.height 1 = _
      rw [hdisk.lastSynchronous_eq]
      exact saturatingAdd_of_le (by omega)
    · show ((∅ : ExtTreeMap ℕ ℕ).insert src.lastSynchronous.height 0)[_]? = some i
      rw [Nat.le_zero.mp hi, hdisk.lastSynchronous_eq]
      exact ExtTreeMap.getElem?_insert_self
  obtain ⟨-, s, hrun, -, hs⟩ := Loop.run_bounded (e := RecoverError.diverges)
    (f := rebuildStep src) (I := fun m s ↦ ∃ k, m + k = n ∧ s.UpTo vm k)
    (Q := fun s ↦ s.UpTo vm n)
    (fun m s ⟨k, hmk, hs⟩ ↦ by
      rcases Nat.lt_or_ge k n with hk | hk
      · obtain ⟨s', hstep, hs'⟩ := hs.step hholds hlinked hdisk hk hhead
        exact .inr ⟨m - 1, s', hstep, ⟨k + 1, by omega, hs'⟩, by omega⟩
      · obtain rfl : k = n := by omega
        refine .inl ⟨?_, hs⟩
        rw [rebuildStep, if_neg (by rw [hs.nextHeight_eq]; omega)])
    ⟨0, rfl, hstart⟩ hfuel
  exact ⟨s, hrun, hs⟩

/-! ## The frontier over it -/

/-- The loop of the two advances, over the blocks above `k`. -/
theorem advanceChain_spec {g : Frontier → ℕ → Frontier} {byHeight : ExtTreeMap ℕ ℕ}
    {I : ℕ → Frontier → Prop} {base n : ℕ} (hby : ∀ i ≤ n, byHeight[base + i]? = some i)
    (hmax : base + n < u64Max) (hstep : ∀ k f, k < n → I k f → I (k + 1) (g f (k + 1)))
    {fuel k : ℕ} {f : Frontier} (hk : k ≤ n) (hI : I k f) (hfuel : n - k < fuel) :
    ∃ f', advanceChain g byHeight (base + n) fuel (base + k + 1) f = some f' ∧ I n f' := by
  induction fuel generalizing k f with
  | zero => omega
  | succ fuel ih =>
    rw [advanceChain]
    rcases Nat.lt_or_eq_of_le hk with hlt | rfl
    · rw [if_pos (by omega), Nat.add_assoc, hby (k + 1) hlt, saturatingAdd_of_le (by omega)]
      exact ih hlt (hstep k f hlt hI) (by omega)
    · rw [if_neg (by omega)]
      exact ⟨f, rfl, hI⟩

/-- Over a rebuilt chain the two advances move E and A to its top. -/
theorem advance_spec {heap : Heap} {byHeight : ExtTreeMap ℕ ℕ} {base n : ℕ} (hchain : heap.Chain 0)
    (hsize : heap.size = n + 1)
    (hinj : ∀ i < heap.size, ∀ j < heap.size, (heap.blocks i).hash = (heap.blocks j).hash → i = j)
    (hby : ∀ i ≤ n, byHeight[base + i]? = some i) (hmax : base + n < u64Max) {fuel : ℕ}
    (hfuel : n < fuel) :
    ∃ f₁ f₂, advanceChainExecuted heap byHeight (base + n) fuel (base + 1) (Frontier.new heap 0)
        = some f₁ ∧
      advanceChainAccepted heap byHeight (base + n) fuel (base + 1) f₁ = some f₂ ∧
      f₂.lastSettled = 0 ∧ f₂.lastExecuted = n ∧ f₂.lastAccepted = n ∧
      Frontier.Covers f₂.consensusCritical heap 0 n := by
  have hadvances : ∀ k < n, Frontier.advances heap k (k + 1) = true := fun k hk ↦
    hchain.advances (Nat.lt_succ_self k) (by omega)
  obtain ⟨f₁, hf₁, hE⟩ := advanceChain_spec (g := fun f b ↦ f.advanceExecuted heap b)
    (I := fun k f ↦ f = { Frontier.new heap 0 with lastExecuted := k }) hby hmax
    (fun k f hk hf ↦ by rw [hf]; exact if_pos (hadvances k hk)) (Nat.zero_le n) rfl hfuel
  obtain ⟨f₂, hf₂, hA⟩ := advanceChain_spec (g := fun f b ↦ f.advanceAccepted heap b)
    (I := fun k f ↦ f.lastSettled = 0 ∧ f.lastExecuted = n ∧ f.lastAccepted = k ∧
      Frontier.Covers f.consensusCritical heap 0 k) hby hmax
    (fun k f hk hf ↦ by
      obtain ⟨hS, hE, hA, hcovers⟩ := hf
      rw [Frontier.advanceAccepted, hA, if_pos (hadvances k hk)]
      exact ⟨hS, hE, rfl, hcovers.insert (Nat.zero_le _) fun i hi ↦
        hinj i (by omega) _ (by omega)⟩)
    (f := f₁) (Nat.zero_le n)
    (by rw [hE]; exact ⟨rfl, rfl, rfl, Frontier.Covers.singleton heap 0⟩) hfuel
  exact ⟨f₁, f₂, hf₁, hf₂, hA⟩

/-- Over a rebuilt chain the walk from the head settles up to the last block that had finished. -/
theorem settleHead_spec {head : ℕ} (h : vm.Sound) (hS : vm.frontier.lastSettled = 0)
    (hE : vm.frontier.lastExecuted = head) (hhead : head + 1 = vm.heap.size) :
    ∃ vm' c, settleHead vm head = .ok vm' ∧ vm.SettledTo vm' c ∧ c ≤ head - 1 ∧
      (c = 0 ∨ Heap.Finished (vm.heap.blocks c) ((vm.heap.blocks head).timestamp - tau)) ∧
      ∀ i, c < i → i < head →
        Heap.Passed (vm.heap.blocks i) ((vm.heap.blocks head).timestamp - tau) := by
  have hchain : vm.heap.Chain 0 := hS ▸ h.chain
  rcases Nat.eq_zero_or_pos head with rfl | hpos
  · refine ⟨vm, 0, ?_, hS ▸ h.settledTo, le_rfl, .inl rfl,
      fun i _ hi ↦ absurd hi (Nat.not_lt_zero i)⟩
    rw [settleHead, hchain.parentBlock_of_le le_rfl]
  obtain ⟨out, hwalk, hstops⟩ := hchain.lastToSettleAt_spec
    ((vm.heap.blocks head).timestamp - tau) (Nat.zero_le (head - 1)) (by omega)
  rcases hstops with ⟨c, hle, hc, hfin, hpass⟩ | ⟨hzero, -⟩ | ⟨floor, i, hle, hi, hund⟩
  · obtain ⟨vm', newly, hupto, hsettled⟩ := h.settleUpTo (c := c) (by omega) (by omega)
    refine ⟨vm', c, ?_, hsettled, hc, hfin, fun i hci hi ↦ hpass i hci (by omega)⟩
    rw [settleHead, hchain.parentBlock_of_lt hpos (by omega)]
    simp only [hwalk, hupto]
  · omega
  · -- every block has its results
    have hexec := (h.executed_iff i (by omega)).mpr (by omega)
    rw [Block.executed, Option.isSome_iff_exists] at hexec
    obtain ⟨results, hresults⟩ := hexec
    have hnone := hund.2
    rw [Block.executedByGasTime, hresults] at hnone
    cases hnone

/-- What the recovery comes to. -/
structure Recovered.Of (rec : Recovered) (vm : Vm) : Prop where
  covers : Frontier.Covers rec.frontier.consensusCritical rec.heap rec.frontier.lastSettled
    rec.frontier.lastAccepted
  accepted_eq : rec.frontier.lastAccepted = vm.frontier.lastAccepted
  eth_eq : ∀ i ≤ vm.frontier.lastAccepted, (rec.heap.blocks i).eth = (vm.heap.blocks i).eth
  execution_eq : ∀ i, i ≠ 0 → i ≤ vm.frontier.lastAccepted → ∀ live,
    (vm.heap.blocks i).execution = some live → (rec.heap.blocks i).execution = some live
  settled_le : rec.frontier.lastSettled ≤ vm.frontier.lastAccepted - 1
  finished : rec.frontier.lastSettled = 0 ∨
    Heap.Finished (rec.heap.blocks rec.frontier.lastSettled) vm.settleAt
  passed : ∀ i, rec.frontier.lastSettled < i → i < vm.frontier.lastAccepted →
    Heap.Passed (rec.heap.blocks i) vm.settleAt

/-- The state over a rebuilt chain, before anything settles. -/
theorem Heap.Copies.sound {heap : Heap} {f : Frontier}
    (h : heap.Copies vm vm.frontier.lastAccepted) (hholds : vm.Holds blocks)
    (hinj : ∀ i < heap.size, ∀ j < heap.size, (heap.blocks i).hash = (heap.blocks j).hash → i = j)
    (hS : f.lastSettled = 0) (hE : f.lastExecuted = vm.frontier.lastAccepted)
    (hA : f.lastAccepted = vm.frontier.lastAccepted)
    (hcovers : Frontier.Covers f.consensusCritical heap 0 vm.frontier.lastAccepted) :
    (Vm.mk heap f false).Sound := by
  have hexecuted : (vm.heap.blocks 0).executed = true :=
    (hholds.executed_iff 0 (Nat.zero_lt_of_lt hholds.accepted_lt)).mpr (Nat.zero_le _)
  refine ⟨hS ▸ h.chain hholds.chain hholds.accepted_lt, ?_, ?_, ?_, fun i hi ↦ ?_, hinj, ?_⟩
  · show f.lastSettled ≤ f.lastExecuted
    omega
  · show f.lastExecuted ≤ f.lastAccepted
    omega
  · rw [h.size_eq, hA]
    exact Nat.lt_succ_self _
  · have hi' : i < vm.frontier.lastAccepted + 1 := h.size_eq ▸ hi
    rw [hE]
    exact ⟨fun _ ↦ Nat.le_of_lt_succ hi', fun _ ↦ h.executed hexecuted (Nat.le_of_lt_succ hi')⟩
  · rw [hS, hA]
    exact hcovers

/-- The recovery from a head below the last height. -/
theorem recover_spec (hholds : vm.Holds blocks)
    (hlinked : blocks.IsChain fun a b ↦ b.parentHash = a.hash) (hdisk : src.DiskOf vm)
    (hhead : src.headHeight < u64Max) : ∃ rec, recover src = .ok rec ∧ rec.Of vm := by
  have hsize := hholds.accepted_eq
  have hheadHeight := hdisk.headHeight_eq
  rw [hholds.chain.height_eq _ hholds.accepted_lt] at hheadHeight
  have hsync : src.lastSynchronous.height = (vm.heap.blocks 0).height := by
    rw [hdisk.lastSynchronous_eq]
  have hrounds : src.headHeight - src.lastSynchronous.height + 2
      = vm.frontier.lastAccepted + 2 := by
    omega
  have hfirst : saturatingAdd src.lastSynchronous.height 1 = (vm.heap.blocks 0).height + 1 := by
    rw [hsync]
    exact saturatingAdd_of_le (by omega)
  obtain ⟨s, hrun, hs⟩ := rebuild_spec hholds hlinked hdisk hhead
    (Nat.lt_add_of_pos_right (Nat.two_pos))
  have hcopies := hs.copies
  have hinj : ∀ i < s.heap.size, ∀ j < s.heap.size,
      (s.heap.blocks i).hash = (s.heap.blocks j).hash → i = j := fun i hi j hj ↦ by
    rw [hcopies.size_eq] at hi hj
    rw [Block.hash, Block.hash, hcopies.eth_eq (Nat.le_of_lt_succ hi),
      hcopies.eth_eq (Nat.le_of_lt_succ hj)]
    exact hholds.hash_inj i (by omega) j (by omega)
  have hto : (s.heap.blocks s.head).height
      = (vm.heap.blocks 0).height + vm.frontier.lastAccepted := by
    rw [hs.head_eq, Block.height, hcopies.eth_eq le_rfl]
    exact hholds.chain.height_eq _ hholds.accepted_lt
  obtain ⟨f₁, f₂, hf₁, hf₂, hS, hE, hA, hcovers⟩ := advance_spec
    (hcopies.chain hholds.chain hholds.accepted_lt) hcopies.size_eq hinj hs.byHeight_eq
    (hheadHeight ▸ hhead) (Nat.lt_add_of_pos_right (Nat.two_pos))
  have hsound := hcopies.sound hholds hinj hS hE hA hcovers
  obtain ⟨vm₁, c, hsettle, hsettled, hc, hfin, hpass⟩ :=
    settleHead_spec hsound hS (hE.trans hs.head_eq.symm) (by rw [hs.head_eq, hcopies.size_eq])
  have hrecover : recover src = .ok (Recovered.assemble s vm₁) := by
    rw [recover, hrounds, hrun]
    refine Except.bind_eq_ok_iff.mpr ⟨s, rfl, ?_⟩
    simp only [hto, hfirst, hf₁, hf₂]
    exact Except.bind_eq_ok_iff.mpr ⟨vm₁, hsettle, rfl⟩
  have hat : ((Vm.mk s.heap f₂ false).heap.blocks s.head).timestamp - tau = vm.settleAt := by
    rw [hs.head_eq, Vm.settleAt, Block.timestamp, Block.timestamp]
    exact congrArg (·.systemTime - tau) (hcopies.eth_eq le_rfl)
  rw [hat, hs.head_eq] at hpass
  rw [hat] at hfin
  rw [hs.head_eq] at hc
  have hS₁ : (Recovered.assemble s vm₁).frontier.lastSettled = c := hsettled.lastSettled
  refine ⟨_, hrecover, ?_, ?_, fun i hi ↦ ?_, fun i hi0 hi live hlive ↦ ?_, ?_, ?_, ?_⟩
  · exact hsettled.sound.covers
  · exact hsettled.lastAccepted.trans hA
  · exact (hsettled.eth i).trans (hcopies.eth_eq hi)
  · exact (hsettled.execution i).trans (hcopies.execution_eq hi0 hi hlive)
  · rw [hS₁]
    exact hc
  · rw [hS₁]
    exact hfin.imp_right (·.of_execution (hsettled.eth c) fun _ ↦ (hsettled.execution c).trans)
  · intro i hi hlt
    exact (hpass i (hS₁ ▸ hi) hlt).of_execution (hsettled.eth i) fun _ ↦
      (hsettled.execution i).trans

end Rebuild

/-! ## The recovered frontier is the live one -/

variable {rec : Recovered} {vm : Vm} {blocks : List EthBlock}

/-- The walk of the recovery ends at the live S. -/
theorem Recovered.Of.settled_eq (h : rec.Of vm) (hsettlement : vm.Settlement)
    (hlag : vm.lagging = false) :
    rec.frontier.lastSettled = vm.frontier.lastSettled := by
  have hle := h.settled_le
  have hlt := hsettlement.lt
  rcases Nat.lt_trichotomy rec.frontier.lastSettled vm.frontier.lastSettled with
    hbelow | heq | habove
  · rcases hsettlement.finished with hzero | hfin
    · omega
    · have hfin' := hfin.of_execution (h.eth_eq _ (by omega))
        (h.execution_eq _ (by omega) (by omega))
      exact absurd (h.passed _ hbelow (by omega)) hfin'.not_passed
  · exact heq
  · rcases h.finished with hzero | hfin
    · omega
    · have hpassed := hsettlement.passed hlag _ habove (by omega)
      exact absurd (hpassed.of_execution (h.eth_eq _ (by omega))
        (h.execution_eq _ (by omega) (by omega))) hfin.not_passed

/-- The recovered frontier has the A and S of the live VM, and the hashes of its map. -/
structure Recovered.SameFrontier (rec : Recovered) (vm : Vm) : Prop where
  accepted : (rec.heap.blocks rec.frontier.lastAccepted).eth
    = (vm.heap.blocks vm.frontier.lastAccepted).eth
  settled : (rec.heap.blocks rec.frontier.lastSettled).eth
    = (vm.heap.blocks vm.frontier.lastSettled).eth
  critical : ∀ hash, hash ∈ rec.frontier.consensusCritical ↔ hash ∈ vm.frontier.consensusCritical

/-- A map of the blocks of a range has their hashes as keys. -/
theorem Frontier.Covers.mem_iff {map : ExtTreeMap B256 ℕ} {heap : Heap} {low high : ℕ}
    (h : Frontier.Covers map heap low high) (hash : B256) :
    hash ∈ map ↔ ∃ r, low ≤ r ∧ r ≤ high ∧ (heap.blocks r).hash = hash := by
  rw [ExtTreeMap.mem_iff_isSome_getElem?, Option.isSome_iff_exists]
  exact exists_congr fun r ↦ h hash r

/-- The frontiers agree if the two S do. -/
theorem Recovered.Of.sameFrontier (h : rec.Of vm) (hholds : vm.Holds blocks)
    (hS : rec.frontier.lastSettled = vm.frontier.lastSettled) : rec.SameFrontier vm := by
  have hle := h.settled_le
  refine ⟨?_, ?_, fun hash ↦ ?_⟩
  · rw [h.accepted_eq, h.eth_eq _ le_rfl]
  · rw [hS, h.eth_eq _ (by omega)]
  · rw [h.covers.mem_iff, hholds.covers.mem_iff, hS, h.accepted_eq]
    refine exists_congr fun r ↦ and_congr_right fun _ ↦ and_congr_right fun hr ↦ ?_
    rw [Block.hash, Block.hash, h.eth_eq r hr]

/-- **Recovery rebuilds the live frontier**, after every run with non-decreasing times whose last
acceptance did not lag. -/
theorem recover_sameFrontier {genesis : EthBlock} {events : List Vm.Event}
    (h : Vm.Linear genesis events)
    (hheights : ∀ b ∈ Vm.chainOf genesis events, b.number < u64Max)
    (htimes : (Vm.acceptedBlocks events).IsChain fun a b ↦ a.systemTime ≤ b.systemTime)
    {results : ExecutionResults} {vm : Vm} (hrun : (Vm.start genesis results).run events = .ok vm)
    (hlag : vm.lagging = false) {src : RecoverySource} (hdisk : src.DiskOf vm) :
    ∃ rec, recover src = .ok rec ∧ rec.SameFrontier vm := by
  obtain ⟨vm₀, hrun₀, hholds, -⟩ := h.holds results
  obtain rfl := Except.ok.inj (hrun₀.symm.trans hrun)
  have hhead : src.headHeight < u64Max := by
    rw [hdisk.headHeight_eq]
    exact hheights _ (List.mem_of_getElem? (hholds.eth_eq _ hholds.accepted_lt))
  obtain ⟨rec, hrec, hof⟩ := recover_spec hholds h.linked hdisk hhead
  exact ⟨rec, hrec, hof.sameFrontier hholds
    (hof.settled_eq (h.settlement htimes results hrun) hlag)⟩

/-- The disk of a VM. The blocks it has not executed come to the results `rest`. -/
def Vm.disk (vm : Vm) (rest : ExecutionResults) : RecoverySource where
  lastSynchronous := vm.heap.blocks 0
  headHeight := (vm.heap.blocks vm.frontier.lastAccepted).height
  canonicalEthBlock height := some (vm.heap.blocks (height - (vm.heap.blocks 0).height)).eth
  executionResults height :=
    some ((vm.heap.blocks (height - (vm.heap.blocks 0).height)).execution.getD rest)

theorem Vm.Holds.diskOf_disk (h : vm.Holds blocks) (rest : ExecutionResults) :
    (vm.disk rest).DiskOf vm := by
  have hindex : ∀ r < vm.heap.size, (vm.heap.blocks r).height - (vm.heap.blocks 0).height = r :=
    fun r hr ↦ by rw [h.chain.height_eq r hr, Nat.add_sub_cancel_left]
  refine ⟨rfl, rfl, fun r hr _ ↦ ?_, fun r hr _ ↦ ?_⟩
  · simp only [Vm.disk, hindex r hr]
  · refine ⟨(vm.heap.blocks r).execution.getD rest, ?_, fun live hlive ↦ ?_⟩
    · simp only [Vm.disk, hindex r hr]
    · rw [hlive, Option.getD_some]

/-- The second block of the small chain has settled the first. -/
theorem recover_sameFrontier_small :
    ∃ vm, (Vm.start (Vm.smallBlock 0 0) (Vm.smallResults 0)).run Vm.smallEvents = .ok vm ∧
      vm.frontier.lastSettled = 1 ∧
      ∃ rec, recover (vm.disk (Vm.smallResults 101)) = .ok rec ∧ rec.SameFrontier vm := by
  obtain ⟨vm, hrun, hholds, -⟩ := Vm.linear_smallEvents.holds (Vm.smallResults 0)
  have heval : ((Vm.start (Vm.smallBlock 0 0) (Vm.smallResults 0)).run Vm.smallEvents).toOption.any
      (fun vm ↦ vm.lagging = false ∧ vm.frontier.lastSettled = 1) = true := by
    decide +kernel
  rw [hrun, Except.toOption, Option.any_some, decide_eq_true_eq] at heval
  exact ⟨vm, hrun, heval.2, recover_sameFrontier Vm.linear_smallEvents (by decide +kernel)
    (by decide +kernel) hrun heval.1 (hholds.diskOf_disk (Vm.smallResults 101))⟩

end Avalanche.Sae
