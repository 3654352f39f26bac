import Avalanche.Library.Loop
import Avalanche.Library.TreeMap
import Avalanche.Sae.Blocks

/-!
# The three frontiers

The VM keeps three pointers into the chain, to the last accepted (A), the last executed (E) and the
last settled (S) block, and a map of the blocks from S to A. Accepting a block settles those of its
ancestors that had finished executing five seconds of gas time before it. An executor completes the
accepted blocks in order, at any later time.

Nothing in the frontier checks that the pointers are in order. It follows from the steps: what
`last_to_settle_at` returns has been executed, so S stays at or below E (`settle_spec`), and only
accepted blocks are executed. `frontier_of_run` says so for every interleaving of whole steps.
-/

open Std

namespace Avalanche.Sae

/-- The settlement delay of five seconds. -/
def tau : ℤ := 5 * nanosPerSecond

structure Frontier where
  lastSettled : ℕ
  lastExecuted : ℕ
  lastAccepted : ℕ
  /-- The blocks from S to A, by hash. -/
  consensusCritical : ExtTreeMap B256 ℕ

namespace Frontier

/-- All pointers at the synchronous block `genesis`. -/
def new (heap : Heap) (genesis : ℕ) : Frontier where
  lastSettled := genesis
  lastExecuted := genesis
  lastAccepted := genesis
  consensusCritical := (∅ : ExtTreeMap B256 ℕ).insert (heap.blocks genesis).hash genesis

/-- Whether `block` is strictly higher than what the pointer is at. -/
def advances (heap : Heap) (ptr block : ℕ) : Bool :=
  (heap.blocks block).height > (heap.blocks ptr).height

def advanceAccepted (f : Frontier) (heap : Heap) (block : ℕ) : Frontier :=
  if advances heap f.lastAccepted block then
    { f with
      lastAccepted := block
      consensusCritical := f.consensusCritical.insert (heap.blocks block).hash block }
  else f

def advanceExecuted (f : Frontier) (heap : Heap) (block : ℕ) : Frontier :=
  if advances heap f.lastExecuted block then { f with lastExecuted := block } else f

/-- Also evicts what lies below the new floor. -/
def advanceSettled (f : Frontier) (heap : Heap) (block : ℕ) : Frontier :=
  if advances heap f.lastSettled block then
    { f with
      lastSettled := block
      consensusCritical := f.consensusCritical.filter fun _ b ↦
        (heap.blocks b).height ≥ (heap.blocks block).height }
  else f

/-- The map holds the blocks from `low` to `high` under their hashes. -/
def Covers (map : ExtTreeMap B256 ℕ) (heap : Heap) (low high : ℕ) : Prop :=
  ∀ hash r, map[hash]? = some r ↔ low ≤ r ∧ r ≤ high ∧ (heap.blocks r).hash = hash

def heightsOrdered (f : Frontier) (heap : Heap) : Bool :=
  (heap.blocks f.lastSettled).height ≤ (heap.blocks f.lastExecuted).height &&
    (heap.blocks f.lastExecuted).height ≤ (heap.blocks f.lastAccepted).height

theorem Covers.singleton (heap : Heap) (r : ℕ) :
    Covers ((∅ : ExtTreeMap B256 ℕ).insert (heap.blocks r).hash r) heap r r := by
  intro hash r'
  rw [TreeMap.getElem?_insert_eq]
  split
  next heq =>
    rw [Option.some_inj]
    exact ⟨fun h ↦ h ▸ ⟨le_rfl, le_rfl, heq⟩, fun h ↦ Nat.le_antisymm h.1 h.2.1⟩
  next hne =>
    rw [ExtTreeMap.getElem?_empty]
    simp only [reduceCtorEq, false_iff, not_and]
    intro hle hge heq
    exact hne (Nat.le_antisymm hle hge ▸ heq)

/-- The next block of the chain inserted. Under its hash there is no other. -/
theorem Covers.insert {map : ExtTreeMap B256 ℕ} {heap : Heap} {low high : ℕ}
    (h : Covers map heap low high) (hle : low ≤ high + 1)
    (hinj : ∀ i ≤ high + 1, (heap.blocks i).hash = (heap.blocks (high + 1)).hash → i = high + 1) :
    Covers (map.insert (heap.blocks (high + 1)).hash (high + 1)) heap low (high + 1) := by
  intro hash r
  rw [TreeMap.getElem?_insert_eq]
  split
  next heq =>
    rw [Option.some_inj]
    exact ⟨fun hr ↦ hr ▸ ⟨hle, le_rfl, heq⟩, fun hr ↦ (hinj r hr.2.1 (hr.2.2.trans heq.symm)).symm⟩
  next hne =>
    rw [h hash r]
    refine and_congr_right fun _ ↦ ⟨fun ⟨hr, hhash⟩ ↦ ⟨hr.trans (Nat.le_succ _), hhash⟩, ?_⟩
    rintro ⟨hr, hhash⟩
    refine ⟨?_, hhash⟩
    rcases Nat.lt_or_eq_of_le hr with hlt | rfl
    · exact Nat.le_of_lt_succ hlt
    · exact absurd hhash hne

end Frontier

structure Vm where
  heap : Heap
  frontier : Frontier
  /-- Whether the settle call of the last accept reported `ExecutionLagging`. -/
  lagging : Bool

namespace Vm

inductive Error
  | block (e : Block.Error)
  | diverges
deriving DecidableEq

/-- A VM at its synchronous block. -/
def start (genesis : EthBlock) (results : ExecutionResults) : Vm :=
  let heap := Heap.singleton (Block.markSynchronous genesis results)
  ⟨heap, Frontier.new heap 0, false⟩

/-- Marks one block settled and moves the frontier to it. -/
def settleOne (vm : Vm) (r : ℕ) : Except Error Vm :=
  match (vm.heap.blocks r).markSettled with
  | .error e => .error (.block e)
  | .ok b =>
    let heap := vm.heap.store r b
    .ok { vm with heap := heap, frontier := vm.frontier.advanceSettled heap r }

/-- Marks the blocks of a range settled, in its order, skipping those that are. -/
def settleRange (vm : Vm) : List ℕ → Except Error (Vm × List ℕ)
  | [] => .ok (vm, [])
  | r :: range =>
    if (vm.heap.blocks r).settled then vm.settleRange range
    else do
      let vm ← vm.settleOne r
      let (vm, newly) ← vm.settleRange range
      .ok (vm, r :: newly)

/-- Settles what lies above the last settled block, up to `candidate`. -/
def settleUpTo (vm : Vm) (candidate : ℕ) : Except Error (Vm × List ℕ) :=
  let current := vm.frontier.lastSettled
  if (vm.heap.blocks candidate).height ≤ (vm.heap.blocks current).height then .ok (vm, [])
  else
    match vm.heap.between current candidate with
    | none => .error .diverges
    | some range => vm.settleRange range

/-- `settle`, with the newly settled blocks; `none` is `ExecutionLagging`. -/
def settle (vm : Vm) (accepted : ℕ) : Except Error (Vm × Option (List ℕ)) :=
  match (vm.heap.blocks accepted).parentBlock with
  | none => .ok (vm, some [])
  | some parent =>
    match vm.heap.lastToSettleAt ((vm.heap.blocks accepted).timestamp - tau) parent with
    | none => .error .diverges
    | some (_, false) => .ok (vm, none)
    | some (none, true) => .ok (vm, some [])
    | some (some candidate, true) =>
      (vm.settleUpTo candidate).map fun out ↦ (out.1, some out.2)

/-- `Vm::accept`. An execution that lags does not stop it. -/
def accept (vm : Vm) (block : ℕ) : Except Error Vm :=
  (vm.settle block).map fun out ↦
    { out.1 with
      frontier := out.1.frontier.advanceAccepted out.1.heap block
      lagging := out.2.isNone }

/-- A block verified on top of the last accepted one, and accepted. -/
def extend (vm : Vm) (eth : EthBlock) : Except Error Vm :=
  match Block.new vm.heap eth (some vm.frontier.lastAccepted) with
  | .error e => .error (.block e)
  | .ok b => ({ vm with heap := vm.heap.alloc b } : Vm).accept vm.heap.size

/-- An executor completion: `mark_executed`, then `advance_executed`. -/
def complete (vm : Vm) (block : ℕ) (results : ExecutionResults) : Except Error Vm :=
  match (vm.heap.blocks block).markExecuted results with
  | .error e => .error (.block e)
  | .ok b =>
    let heap := vm.heap.store block b
    .ok { vm with heap := heap, frontier := vm.frontier.advanceExecuted heap block }

inductive Event
  | accept (eth : EthBlock)
  | complete (block : ℕ) (results : ExecutionResults)

def step (vm : Vm) : Event → Except Error Vm
  | .accept eth => vm.extend eth
  | .complete block results => vm.complete block results

/-- The events one after another. -/
def run (vm : Vm) (events : List Event) : Except Error Vm := events.foldlM step vm

theorem run_concat (vm : Vm) (events : List Event) (e : Event) :
    vm.run (events ++ [e]) = vm.run events >>= fun vm ↦ vm.step e := by
  simp [run, List.foldlM_append]

/-! ## The events of a linear chain -/

def acceptedBlocks (events : List Event) : List EthBlock :=
  events.filterMap fun
    | .accept eth => some eth
    | .complete _ _ => none

def completions (events : List Event) : ℕ :=
  events.countP fun
    | .accept _ => false
    | .complete _ _ => true

/-- The blocks of a run, from the synchronous one on. -/
def chainOf (genesis : EthBlock) (events : List Event) : List EthBlock :=
  genesis :: acceptedBlocks events

/-- A linear chain is accepted, and its blocks are completed in order after their acceptance. Hashes
do not collide. -/
inductive Linear (genesis : EthBlock) : List Event → Prop
  | nil : Linear genesis []
  | accept {events : List Event} {last eth : EthBlock} (h : Linear genesis events)
      (hlast : (chainOf genesis events).getLast? = some last) (hparent : eth.parentHash = last.hash)
      (hnumber : eth.number = last.number + 1)
      (hfresh : ∀ b ∈ chainOf genesis events, b.hash ≠ eth.hash) :
      Linear genesis (events ++ [.accept eth])
  | complete {events : List Event} {block : ℕ} {results : ExecutionResults}
      (h : Linear genesis events) (hnext : block = completions events + 1)
      (haccepted : block ≤ (acceptedBlocks events).length) :
      Linear genesis (events ++ [.complete block results])

@[simp] theorem chainOf_accept (genesis : EthBlock) (events : List Event) (eth : EthBlock) :
    chainOf genesis (events ++ [.accept eth]) = chainOf genesis events ++ [eth] := by
  simp [chainOf, acceptedBlocks]

@[simp] theorem chainOf_complete (genesis : EthBlock) (events : List Event) (block : ℕ)
    (results : ExecutionResults) :
    chainOf genesis (events ++ [.complete block results]) = chainOf genesis events := by
  simp [chainOf, acceptedBlocks]

/-! ## What holds between steps -/

/-- The pointers are in order, and the blocks and the map agree with them. The heap may hold blocks
above the last accepted one. -/
structure Sound (vm : Vm) : Prop where
  chain : vm.heap.Chain vm.frontier.lastSettled
  settled_le : vm.frontier.lastSettled ≤ vm.frontier.lastExecuted
  executed_le : vm.frontier.lastExecuted ≤ vm.frontier.lastAccepted
  accepted_lt : vm.frontier.lastAccepted < vm.heap.size
  executed_iff : ∀ i < vm.heap.size,
    (vm.heap.blocks i).executed = true ↔ i ≤ vm.frontier.lastExecuted
  hash_inj : ∀ i < vm.heap.size, ∀ j < vm.heap.size,
    (vm.heap.blocks i).hash = (vm.heap.blocks j).hash → i = j
  covers : Frontier.Covers vm.frontier.consensusCritical vm.heap vm.frontier.lastSettled
    vm.frontier.lastAccepted

/-- `vm'` is `vm` with the chain settled up to `c`. -/
structure SettledTo (vm vm' : Vm) (c : ℕ) : Prop where
  sound : vm'.Sound
  lastSettled : vm'.frontier.lastSettled = c
  lastExecuted : vm'.frontier.lastExecuted = vm.frontier.lastExecuted
  lastAccepted : vm'.frontier.lastAccepted = vm.frontier.lastAccepted
  size : vm'.heap.size = vm.heap.size
  eth : ∀ i, (vm'.heap.blocks i).eth = (vm.heap.blocks i).eth
  execution : ∀ i, (vm'.heap.blocks i).execution = (vm.heap.blocks i).execution

variable {vm vm' : Vm}

theorem Sound.executed_lt (h : vm.Sound) : vm.frontier.lastExecuted < vm.heap.size :=
  h.executed_le.trans_lt h.accepted_lt

theorem Sound.settledTo (h : vm.Sound) : vm.SettledTo vm vm.frontier.lastSettled :=
  ⟨h, rfl, rfl, rfl, rfl, fun _ ↦ rfl, fun _ ↦ rfl⟩

theorem SettledTo.trans {vm'' : Vm} {c c' : ℕ} (h : vm.SettledTo vm' c)
    (h' : vm'.SettledTo vm'' c') : vm.SettledTo vm'' c' where
  sound := h'.sound
  lastSettled := h'.lastSettled
  lastExecuted := h'.lastExecuted.trans h.lastExecuted
  lastAccepted := h'.lastAccepted.trans h.lastAccepted
  size := h'.size.trans h.size
  eth i := (h'.eth i).trans (h.eth i)
  execution i := (h'.execution i).trans (h.execution i)

end Vm

namespace Heap

variable {heap : Heap} {settled : ℕ}

theorem blocks_store (heap : Heap) (r : ℕ) (b : Block) (i : ℕ) :
    (heap.store r b).blocks i = if i = r then b else heap.blocks i := Function.update_apply _ _ _ _

/-- A field that an update of a block keeps is the same everywhere. -/
theorem map_blocks_store {α : Type} (f : Block → α) (g : Block → Block) (hg : ∀ b, f (g b) = f b)
    (heap : Heap) (r i : ℕ) :
    f ((heap.store r (g (heap.blocks r))).blocks i) = f (heap.blocks i) := by
  rw [blocks_store]
  split
  next h => rw [hg, h]
  next => rfl

theorem blocks_alloc_of_lt (b : Block) {i : ℕ} (hi : i < heap.size) :
    (heap.alloc b).blocks i = heap.blocks i := Function.update_of_ne hi.ne _ _

@[simp] theorem blocks_alloc_size (heap : Heap) (b : Block) :
    (heap.alloc b).blocks heap.size = b := Function.update_self _ _ _

@[simp] theorem size_alloc (heap : Heap) (b : Block) : (heap.alloc b).size = heap.size + 1 := rfl

/-- A block is an old one, or the one on top. -/
theorem alloc_cases {b : Block} {i : ℕ} (hi : i < (heap.alloc b).size) :
    i < heap.size ∧ (heap.alloc b).blocks i = heap.blocks i ∨
      i = heap.size ∧ (heap.alloc b).blocks i = b := by
  rcases Nat.lt_or_eq_of_le (Nat.le_of_lt_succ hi) with hi | rfl
  · exact .inl ⟨hi, blocks_alloc_of_lt b hi⟩
  · exact .inr ⟨rfl, blocks_alloc_size heap b⟩

/-- A higher block advances a pointer. -/
theorem Chain.advances (h : Chain heap settled) {i j : ℕ} (hij : i < j) (hj : j < heap.size) :
    Frontier.advances heap i j = true := by
  rw [Frontier.advances, decide_eq_true_eq, gt_iff_lt, ← Nat.not_le,
    h.height_le_iff hj (hij.trans hj), Nat.not_le]
  exact hij

/-- An update of a block that keeps what it is, apart from its links. -/
theorem Chain.store (h : Chain heap settled) {settled' r : ℕ} (g : Block → Block)
    (hg : ∀ b, (g b).synchronous = b.synchronous ∧ (g b).height = b.height)
    (hlt : settled' < heap.size) (hancestry : ∀ i < heap.size,
      ((heap.store r (g (heap.blocks r))).blocks i).ancestry
        = if i ≤ settled' then none else some ⟨some (i - 1)⟩) :
    Chain (heap.store r (g (heap.blocks r))) settled' where
  settled_lt := hlt
  synchronous_iff i hi := by
    rw [map_blocks_store Block.synchronous g fun b ↦ (hg b).1]
    exact h.synchronous_iff i hi
  ancestry_eq := hancestry
  height_eq i hi := by
    simp only [map_blocks_store Block.height g fun b ↦ (hg b).2]
    exact h.height_eq i hi

/-- Severing the next block of a chain. -/
theorem Chain.sever (h : Chain heap settled) (hlt : settled + 1 < heap.size) :
    Chain (heap.store (settled + 1) (heap.blocks (settled + 1)).severed)
      (settled + 1) := by
  refine h.store Block.severed (fun _ ↦ ⟨rfl, rfl⟩) hlt fun i hi ↦ ?_
  rw [blocks_store]
  split
  next heq =>
    rw [if_pos heq.le]
    rfl
  next hne =>
    rw [h.ancestry_eq i hi]
    have hiff : i ≤ settled ↔ i ≤ settled + 1 := by
      rw [Nat.le_succ_iff]
      exact ⟨.inl, fun h ↦ h.resolve_right hne⟩
    simp only [hiff]

/-- A block on top of a chain. -/
theorem Chain.alloc (h : Chain heap settled) {b : Block}
    (hancestry : b.ancestry = some ⟨some (heap.size - 1)⟩) (hsync : b.synchronous = false)
    (hheight : b.height = (heap.blocks (heap.size - 1)).height + 1) :
    Chain (heap.alloc b) settled := by
  have hpos := Nat.zero_lt_of_lt h.settled_lt
  refine ⟨h.settled_lt.trans (Nat.lt_succ_self _), fun i hi ↦ ?_, fun i hi ↦ ?_, fun i hi ↦ ?_⟩
  · rcases alloc_cases hi with ⟨hi, hblock⟩ | ⟨rfl, hblock⟩ <;> rw [hblock]
    · exact h.synchronous_iff i hi
    · simp [hsync, hpos.ne']
  · rcases alloc_cases hi with ⟨hi, hblock⟩ | ⟨rfl, hblock⟩ <;> rw [hblock]
    · exact h.ancestry_eq i hi
    · rw [hancestry, if_neg (Nat.not_le.mpr h.settled_lt)]
  · rw [blocks_alloc_of_lt b hpos]
    rcases alloc_cases hi with ⟨hi, hblock⟩ | ⟨rfl, hblock⟩ <;> rw [hblock]
    · exact h.height_eq i hi
    · rw [hheight, h.height_eq _ (by omega)]
      omega

/-- Storing results does not change the chain. -/
theorem Chain.execute (h : Chain heap settled) (r : ℕ) (results : ExecutionResults) :
    Chain (heap.store r ((heap.blocks r).withResults results)) settled := by
  refine h.store (·.withResults results) (fun _ ↦ ⟨rfl, rfl⟩) h.settled_lt fun i hi ↦ ?_
  rw [map_blocks_store Block.ancestry (·.withResults results) fun _ ↦ rfl]
  exact h.ancestry_eq i hi

end Heap

namespace Vm

variable {vm vm' : Vm}
variable {blocks : List EthBlock} {genesis : EthBlock}

/-! ## Settling -/

/-- Settling the next executed block. -/
theorem Sound.settleOne (h : vm.Sound) (hlt : vm.frontier.lastSettled < vm.frontier.lastExecuted) :
    ∃ vm', vm.settleOne (vm.frontier.lastSettled + 1) = .ok vm' ∧
      vm.SettledTo vm' (vm.frontier.lastSettled + 1) := by
  set next := vm.frontier.lastSettled + 1 with hnext
  have hsize : next < vm.heap.size := by
    have := h.executed_lt
    omega
  set heap := vm.heap.store next (vm.heap.blocks next).severed with hheap
  have hchain : heap.Chain next := h.chain.sever hsize
  have hunsettled : ¬ (vm.heap.blocks next).settled = true := by
    rw [h.chain.settled_iff hsize]
    omega
  have hmark : vm.settleOne next
      = .ok { vm with heap := heap, frontier := vm.frontier.advanceSettled heap next } := by
    simp [Vm.settleOne, Block.markSettled, hunsettled, ← hheap]
  refine ⟨_, hmark, ?_⟩
  have hfrontier : vm.frontier.advanceSettled heap next =
      { vm.frontier with
        lastSettled := next
        consensusCritical := vm.frontier.consensusCritical.filter fun _ b ↦
          (heap.blocks b).height ≥ (heap.blocks next).height } :=
    if_pos (hchain.advances (Nat.lt_succ_self _) hsize)
  rw [hfrontier]
  have hhash : ∀ i, (heap.blocks i).hash = (vm.heap.blocks i).hash :=
    Heap.map_blocks_store Block.hash Block.severed (fun _ ↦ rfl) vm.heap next
  refine ⟨⟨hchain, hlt, h.executed_le, h.accepted_lt, ?_, ?_, ?_⟩, rfl, rfl, rfl, rfl,
    Heap.map_blocks_store Block.eth Block.severed (fun _ ↦ rfl) vm.heap next,
    Heap.map_blocks_store Block.execution Block.severed (fun _ ↦ rfl) vm.heap next⟩
  · intro i hi
    rw [Heap.map_blocks_store Block.executed Block.severed (fun _ ↦ rfl) vm.heap next]
    exact h.executed_iff i hi
  · intro i hi j hj
    rw [hhash, hhash]
    exact h.hash_inj i hi j hj
  · intro hash r
    rw [ExtTreeMap.getElem?_filter', Option.filter_eq_some_iff, h.covers hash r, hhash]
    simp only [ge_iff_le, decide_eq_true_eq]
    constructor
    · rintro ⟨⟨hs, ha, heq⟩, hle⟩
      exact ⟨(hchain.height_le_iff hsize (ha.trans_lt h.accepted_lt)).mp hle, ha, heq⟩
    · rintro ⟨hs, ha, heq⟩
      exact ⟨⟨by omega, ha, heq⟩,
        (hchain.height_le_iff hsize (ha.trans_lt h.accepted_lt)).mpr hs⟩

/-- Settling a range of executed blocks. -/
theorem Sound.settleRange (h : vm.Sound) {n : ℕ}
    (hle : vm.frontier.lastSettled + n ≤ vm.frontier.lastExecuted) :
    ∃ vm' newly, vm.settleRange (List.range' (vm.frontier.lastSettled + 1) n) = .ok (vm', newly) ∧
      vm.SettledTo vm' (vm.frontier.lastSettled + n) := by
  induction n generalizing vm with
  | zero => exact ⟨vm, [], rfl, h.settledTo⟩
  | succ n ih =>
    have hsize : vm.frontier.lastSettled + 1 < vm.heap.size := by
      have := h.executed_lt
      omega
    obtain ⟨vm₁, hone, hsettled⟩ := h.settleOne (by omega)
    obtain ⟨vm₂, newly, hrest, hsettled'⟩ := ih hsettled.sound (by
      rw [hsettled.lastSettled, hsettled.lastExecuted]
      omega)
    rw [hsettled.lastSettled] at hrest hsettled'
    refine ⟨vm₂, (vm.frontier.lastSettled + 1) :: newly, ?_, ?_⟩
    · have hunsettled : ¬ (vm.heap.blocks (vm.frontier.lastSettled + 1)).settled = true := by
        rw [h.chain.settled_iff hsize]
        omega
      rw [List.range'_succ, Vm.settleRange, if_neg hunsettled]
      exact Except.bind_eq_ok_iff.mpr
        ⟨vm₁, hone, Except.bind_eq_ok_iff.mpr ⟨(vm₂, newly), hrest, rfl⟩⟩
    · have := hsettled.trans hsettled'
      rwa [show vm.frontier.lastSettled + 1 + n = vm.frontier.lastSettled + (n + 1) by
        omega] at this

/-- Settling up to an executed block at or above S. -/
theorem Sound.settleUpTo (h : vm.Sound) {c : ℕ} (hle : vm.frontier.lastSettled ≤ c)
    (hexec : c ≤ vm.frontier.lastExecuted) :
    ∃ vm' newly, vm.settleUpTo c = .ok (vm', newly) ∧ vm.SettledTo vm' c := by
  have hsize : c < vm.heap.size := hexec.trans_lt h.executed_lt
  have hheights := h.chain.height_le_iff hsize h.chain.settled_lt
  by_cases hold : (vm.heap.blocks c).height ≤ (vm.heap.blocks vm.frontier.lastSettled).height
  · have hceq : c = vm.frontier.lastSettled := Nat.le_antisymm (hheights.mp hold) hle
    exact ⟨vm, [], if_pos hold, hceq ▸ h.settledTo⟩
  · obtain ⟨vm', newly, hrange, hsettled⟩ := h.settleRange
      (n := c - vm.frontier.lastSettled) (by omega)
    refine ⟨vm', newly, ?_, ?_⟩
    · simp [Vm.settleUpTo, hold, h.chain.between_eq hle hsize, hrange]
    · rwa [show vm.frontier.lastSettled + (c - vm.frontier.lastSettled) = c by omega] at hsettled

/-- The block that is last settled once the walk has ended at `stop`. -/
def settledBy (current : ℕ) : Option ℕ × Bool → ℕ
  | (some c, true) => c
  | _ => current

/-- Settling on behalf of a block whose parent is on the chain: the walk ends, and S moves to where
it ended. -/
theorem Sound.settle_spec (h : vm.Sound) {accepted : ℕ}
    (hlt : vm.frontier.lastSettled < accepted) (hsize : accepted < vm.heap.size) :
    ∃ vm' newly stop, vm.settle accepted = .ok (vm', newly) ∧
      Heap.Stops vm.heap vm.frontier.lastSettled
        ((vm.heap.blocks accepted).timestamp - tau) (accepted - 1) stop ∧
      (newly.isNone = true ↔ stop.2 = false) ∧
      vm.SettledTo vm' (settledBy vm.frontier.lastSettled stop) := by
  have hparent := h.chain.parentBlock_of_lt hlt hsize
  obtain ⟨stop, hwalk, hstops⟩ := h.chain.lastToSettleAt_spec
    ((vm.heap.blocks accepted).timestamp - tau) (Nat.le_sub_one_of_lt hlt)
    (show accepted - 1 < vm.heap.size by omega)
  rcases id hstops with ⟨c, hle, hc, hfin, hpass⟩ | ⟨hpos, hpass⟩ | ⟨floor, i, hle, hi, hund⟩
  · -- the candidate has been executed
    have hexec : c ≤ vm.frontier.lastExecuted := by
      rcases hfin with rfl | ⟨-, t, ht, -⟩
      · exact Nat.zero_le _
      · refine (h.executed_iff c (by omega)).mp ?_
        rw [Block.executed]
        rw [Block.executedByGasTime, Option.map_eq_some_iff] at ht
        obtain ⟨results, hresults, -⟩ := ht
        rw [hresults, Option.isSome_some]
    obtain ⟨vm', newly, hupto, hsettled⟩ := h.settleUpTo hle hexec
    refine ⟨vm', some newly, (some c, true), ?_, hstops, by simp, hsettled⟩
    simp [Vm.settle, hparent, hwalk, hupto, Except.map]
  · exact ⟨vm, some [], (none, true), by simp [Vm.settle, hparent, hwalk], hstops, by simp,
      h.settledTo⟩
  · refine ⟨vm, none, (floor, false), by simp [Vm.settle, hparent, hwalk], hstops, by simp, ?_⟩
    have hcur : settledBy vm.frontier.lastSettled (floor, false) = vm.frontier.lastSettled := by
      rcases floor with - | c <;> rfl
    rw [hcur]
    exact h.settledTo

/-! ## The two steps -/

/-- The state between steps: the heap holds the given blocks, and the last of them is accepted. -/
structure Holds (vm : Vm) (blocks : List EthBlock) : Prop extends vm.Sound where
  accepted_eq : vm.frontier.lastAccepted + 1 = vm.heap.size
  size_eq : vm.heap.size = blocks.length
  eth_eq : ∀ i < vm.heap.size, blocks[i]? = some (vm.heap.blocks i).eth

/-- A block put on top of the chain, and not yet accepted. -/
theorem Sound.alloc (h : vm.Sound) {b : Block}
    (haccepted : vm.frontier.lastAccepted + 1 = vm.heap.size)
    (hancestry : b.ancestry = some ⟨some vm.frontier.lastAccepted⟩) (hsync : b.synchronous = false)
    (hexec : b.execution = none)
    (hheight : b.height = (vm.heap.blocks vm.frontier.lastAccepted).height + 1)
    (hfresh : ∀ i < vm.heap.size, (vm.heap.blocks i).hash ≠ b.hash) :
    ({ vm with heap := vm.heap.alloc b } : Vm).Sound := by
  have hlast : vm.heap.size - 1 = vm.frontier.lastAccepted := by omega
  have hexecuted_le := h.executed_le
  refine ⟨h.chain.alloc (hlast ▸ hancestry) hsync (hlast ▸ hheight), h.settled_le, h.executed_le,
    h.accepted_lt.trans (Nat.lt_succ_self _), fun i hi ↦ ?_, fun i hi j hj ↦ ?_, fun hash r ↦ ?_⟩
  · rcases Heap.alloc_cases hi with ⟨hi, hblock⟩ | ⟨rfl, hblock⟩ <;> rw [hblock]
    · exact h.executed_iff i hi
    · rw [Block.executed, hexec]
      simp only [Option.isSome_none, Bool.false_eq_true, false_iff, Nat.not_le]
      omega
  · rcases Heap.alloc_cases hi with ⟨hi, hblock⟩ | ⟨rfl, hblock⟩ <;>
      rcases Heap.alloc_cases hj with ⟨hj, hblock'⟩ | ⟨rfl, hblock'⟩ <;> simp only [hblock, hblock']
    · exact h.hash_inj i hi j hj
    · exact fun heq ↦ absurd heq (hfresh i hi)
    · exact fun heq ↦ absurd heq.symm (hfresh j hj)
    · exact fun _ ↦ trivial
  · rw [h.covers hash r]
    refine and_congr_right fun _ ↦ and_congr_right fun hr ↦ ?_
    rw [Heap.blocks_alloc_of_lt b (hr.trans_lt h.accepted_lt)]

/-- The block on top of the chain becomes the last accepted one. -/
theorem Sound.advanceAccepted (h : vm.Sound)
    (haccepted : vm.frontier.lastAccepted + 2 = vm.heap.size) (lagging : Bool) :
    let block := vm.frontier.lastAccepted + 1
    let frontier := vm.frontier.advanceAccepted vm.heap block
    frontier.lastAccepted = block ∧ frontier.lastExecuted = vm.frontier.lastExecuted ∧
      frontier.lastSettled = vm.frontier.lastSettled ∧ (Vm.mk vm.heap frontier lagging).Sound := by
  intro block frontier
  have hblock : block < vm.heap.size := by omega
  have hfrontier : frontier = { vm.frontier with
      lastAccepted := block
      consensusCritical :=
        vm.frontier.consensusCritical.insert (vm.heap.blocks block).hash block } :=
    if_pos (h.chain.advances (Nat.lt_succ_self _) hblock)
  have hsettled := h.settled_le
  have hexecuted := h.executed_le
  rw [hfrontier]
  exact ⟨rfl, rfl, rfl, h.chain, h.settled_le, hexecuted.trans (Nat.le_succ _), hblock,
    h.executed_iff, h.hash_inj, h.covers.insert (by omega) fun i hi ↦
      h.hash_inj _ (Nat.lt_of_le_of_lt hi hblock) _ hblock⟩

theorem Holds.length_eq (h : vm.Holds blocks) : vm.frontier.lastAccepted + 1 = blocks.length :=
  h.accepted_eq.trans h.size_eq

theorem Holds.eth_lastAccepted (h : vm.Holds blocks) {last : EthBlock}
    (hlast : blocks.getLast? = some last) :
    (vm.heap.blocks vm.frontier.lastAccepted).eth = last := by
  rw [List.getLast?_eq_getElem?, ← h.size_eq, ← h.accepted_eq, Nat.add_sub_cancel,
    h.eth_eq _ h.accepted_lt] at hlast
  exact Option.some.inj hlast

/-- The checks of `set_ancestors` pass for the next block of the chain. -/
theorem Holds.new_eq_ok (h : vm.Holds blocks) {last eth : EthBlock}
    (hlast : blocks.getLast? = some last) (hparent : eth.parentHash = last.hash)
    (hnumber : eth.number = last.number + 1) :
    Block.new vm.heap eth (some vm.frontier.lastAccepted)
      = .ok ⟨eth, some ⟨some vm.frontier.lastAccepted⟩, false, none⟩ := by
  simp [Block.new, Block.hash, Block.height, h.eth_lastAccepted hlast, hparent, hnumber]

/-- Accepting the next block of the chain. S moves to where the walk from its parent ends. -/
theorem Holds.extend (h : vm.Holds blocks) {last eth : EthBlock}
    (hlast : blocks.getLast? = some last) (hparent : eth.parentHash = last.hash)
    (hnumber : eth.number = last.number + 1) (hfresh : ∀ b ∈ blocks, b.hash ≠ eth.hash) :
    ∃ vm' stop, vm.extend eth = .ok vm' ∧ vm'.Holds (blocks ++ [eth]) ∧
      vm'.frontier.lastExecuted = vm.frontier.lastExecuted ∧
      (∀ i < vm.heap.size, (vm'.heap.blocks i).execution = (vm.heap.blocks i).execution) ∧
      Heap.Stops vm'.heap vm.frontier.lastSettled (eth.systemTime - tau) vm.frontier.lastAccepted
        stop ∧
      vm'.frontier.lastSettled = settledBy vm.frontier.lastSettled stop ∧
      (vm'.lagging = true ↔ stop.2 = false) := by
  have heth := h.eth_lastAccepted hlast
  have hnew := h.new_eq_ok hlast hparent hnumber
  have haccepted := h.accepted_eq
  set b : Block := ⟨eth, some ⟨some vm.frontier.lastAccepted⟩, false, none⟩ with hb
  -- the block is put on the chain
  have hsound : ({ vm with heap := vm.heap.alloc b } : Vm).Sound := by
    refine h.toSound.alloc h.accepted_eq rfl rfl rfl ?_ fun i hi ↦ ?_
    · rw [Block.height, Block.height, heth]
      exact hnumber
    · exact hfresh _ (List.mem_of_getElem? (h.eth_eq i hi))
  -- what it settles
  obtain ⟨vm₁, newly, stop, hsettle, hstops, hnone, hsettled⟩ := hsound.settle_spec
    (h.chain.settled_lt : vm.frontier.lastSettled < vm.heap.size) (Nat.lt_succ_self _)
  have hsize₁ : vm₁.heap.size = vm.heap.size + 1 := hsettled.size
  have haccepted₁ : vm₁.frontier.lastAccepted = vm.frontier.lastAccepted := hsettled.lastAccepted
  -- it becomes the last accepted block
  obtain ⟨hA, hE, hS, hsound'⟩ := hsettled.sound.advanceAccepted (by omega) newly.isNone
  rw [show vm₁.frontier.lastAccepted + 1 = vm.heap.size by omega] at hA hE hS hsound'
  have hblocks : ∀ i, (vm₁.heap.blocks i).eth = ((vm.heap.alloc b).blocks i).eth := hsettled.eth
  have hexecution : ∀ i < vm.heap.size,
      (vm₁.heap.blocks i).execution = (vm.heap.blocks i).execution := fun i hi ↦ by
    rw [← Heap.blocks_alloc_of_lt b hi]
    exact hsettled.execution i
  refine ⟨⟨vm₁.heap, vm₁.frontier.advanceAccepted vm₁.heap vm.heap.size, newly.isNone⟩, stop, ?_,
    ⟨hsound', ?_, ?_, fun i hi ↦ ?_⟩, hE.trans hsettled.lastExecuted, hexecution, ?_,
    hS.trans hsettled.lastSettled, hnone⟩
  · rw [Vm.extend, hnew]
    exact Except.map_eq_ok_iff.mpr ⟨(vm₁, newly), hsettle, rfl⟩
  · rw [hA, hsize₁]
  · rw [List.length_append, ← h.size_eq]
    exact hsize₁
  · rw [hblocks i]
    rcases Heap.alloc_cases (b := b) (hsettled.size ▸ hi) with ⟨hi, hblock⟩ | ⟨rfl, hblock⟩ <;>
      rw [hblock]
    · rw [List.getElem?_append_left (h.size_eq ▸ hi)]
      exact h.eth_eq i hi
    · rw [h.size_eq, List.getElem?_concat_length]
  · have hts : ((vm.heap.alloc b).blocks vm.heap.size).timestamp = eth.systemTime := by
      rw [Heap.blocks_alloc_size, Block.timestamp]
    rw [show vm.heap.size - 1 = vm.frontier.lastAccepted by omega] at hstops
    rw [hts] at hstops
    exact hstops.congr (fun i _ ↦ hblocks i) fun i _ ↦ hsettled.execution i

/-- Completing the next block of the chain. -/
theorem Holds.complete (h : vm.Holds blocks) {block : ℕ}
    (hnext : block = vm.frontier.lastExecuted + 1) (hle : block ≤ vm.frontier.lastAccepted)
    (results : ExecutionResults) :
    ∃ vm', vm.complete block results = .ok vm' ∧ vm'.Holds blocks ∧
      vm'.frontier.lastExecuted = block ∧ vm'.frontier.lastSettled = vm.frontier.lastSettled ∧
      vm'.heap = vm.heap.store block ((vm.heap.blocks block).withResults results) ∧
      vm'.lagging = vm.lagging := by
  have hblock : block < vm.heap.size := hle.trans_lt h.accepted_lt
  set heap := vm.heap.store block ((vm.heap.blocks block).withResults results) with hheap
  have hfield : ∀ {α : Type} (f : Block → α), (∀ b : Block, f (b.withResults results) = f b) →
      ∀ i, f (heap.blocks i) = f (vm.heap.blocks i) := fun f hf i ↦
    Heap.map_blocks_store f (·.withResults results) hf vm.heap block i
  have hchain : heap.Chain vm.frontier.lastSettled := h.chain.execute block results
  have hunexecuted : ¬ (vm.heap.blocks block).executed = true := by
    rw [h.executed_iff block hblock]
    omega
  have hfrontier : vm.frontier.advanceExecuted heap block
      = { vm.frontier with lastExecuted := block } := if_pos (hchain.advances (by omega) hblock)
  have hsettled := h.settled_le
  refine ⟨⟨heap, { vm.frontier with lastExecuted := block }, vm.lagging⟩, ?_, ?_, rfl, rfl, rfl,
    rfl⟩
  · simp [Vm.complete, Block.markExecuted, hunexecuted, ← hheap, hfrontier]
  · refine ⟨⟨hchain, ?_, hle, h.accepted_lt, fun i hi ↦ ?_, ?_, ?_⟩, h.accepted_eq, h.size_eq, ?_⟩
    · show vm.frontier.lastSettled ≤ block
      omega
    · rw [hheap, Heap.blocks_store]
      split
      next heq => simp [Block.executed, Block.withResults, heq]
      next hne =>
        rw [h.executed_iff i hi]
        show i ≤ vm.frontier.lastExecuted ↔ i ≤ block
        omega
    · intro i hi j hj
      rw [hfield Block.hash fun _ ↦ rfl, hfield Block.hash fun _ ↦ rfl]
      exact h.hash_inj i hi j hj
    · intro hash r
      rw [hfield Block.hash fun _ ↦ rfl]
      exact h.covers hash r
    · intro i hi
      rw [hfield Block.eth fun _ ↦ rfl]
      exact h.eth_eq i hi

theorem holds_start (genesis : EthBlock) (results : ExecutionResults) :
    (start genesis results).Holds [genesis] := by
  have hsize : ∀ i, i < (start genesis results).heap.size → i = 0 := fun i hi ↦ Nat.lt_one_iff.mp hi
  refine ⟨⟨⟨Nat.one_pos, fun i hi ↦ ?_, fun i hi ↦ ?_, fun i hi ↦ ?_⟩, le_rfl, le_rfl, Nat.one_pos,
    fun i hi ↦ ?_, fun i hi j hj _ ↦ ?_, Frontier.Covers.singleton _ 0⟩, rfl, rfl, fun i hi ↦ ?_⟩
  · exact ⟨fun _ ↦ hsize i hi, fun _ ↦ rfl⟩
  · rw [hsize i hi]
    rfl
  · rw [hsize i hi]
    rfl
  · rw [hsize i hi]
    exact ⟨fun _ ↦ le_rfl, fun _ ↦ rfl⟩
  · rw [hsize i hi, hsize j hj]
  · rw [hsize i hi]
    rfl

/-! ## Runs -/

/-- The pointers of `vm'` are at or above those of `vm`. -/
structure AtOrAbove (vm vm' : Vm) : Prop where
  settled : (vm.heap.blocks vm.frontier.lastSettled).height
    ≤ (vm'.heap.blocks vm'.frontier.lastSettled).height
  executed : (vm.heap.blocks vm.frontier.lastExecuted).height
    ≤ (vm'.heap.blocks vm'.frontier.lastExecuted).height
  accepted : (vm.heap.blocks vm.frontier.lastAccepted).height
    ≤ (vm'.heap.blocks vm'.frontier.lastAccepted).height

/-- The frontier invariant, in terms of heights. -/
structure InOrder (vm : Vm) (blocks : List EthBlock) : Prop where
  /-- The heap holds the synchronous block and the accepted ones. -/
  blocks_eq : (List.range vm.heap.size).map (fun r ↦ (vm.heap.blocks r).eth) = blocks
  ordered : vm.frontier.heightsOrdered vm.heap = true
  settled : ∀ r < vm.heap.size,
    (vm.heap.blocks r).height ≤ (vm.heap.blocks vm.frontier.lastSettled).height →
      (vm.heap.blocks r).settled = true ∧ (vm.heap.blocks r).executed = true
  not_settled : ∀ r < vm.heap.size,
    (vm.heap.blocks vm.frontier.lastSettled).height < (vm.heap.blocks r).height →
      (vm.heap.blocks r).settled = false
  /-- The map holds the blocks from S to A under their hashes, and nothing else. -/
  critical_iff : ∀ hash r, vm.frontier.consensusCritical[hash]? = some r ↔
    r < vm.heap.size ∧ (vm.heap.blocks r).hash = hash ∧
      (vm.heap.blocks vm.frontier.lastSettled).height ≤ (vm.heap.blocks r).height ∧
      (vm.heap.blocks r).height ≤ (vm.heap.blocks vm.frontier.lastAccepted).height

theorem Holds.inOrder (h : vm.Holds blocks) : vm.InOrder blocks := by
  have hS := h.chain.settled_lt
  have hE := h.executed_lt
  refine ⟨?_, ?_, fun r hr hle ↦ ?_, fun r hr hlt ↦ ?_, fun hash r ↦ ?_⟩
  · refine List.ext_getElem? fun i ↦ ?_
    rcases Nat.lt_or_ge i vm.heap.size with hi | hi
    · rw [h.eth_eq i hi]
      simp [hi]
    · rw [List.getElem?_eq_none (by simpa using hi), List.getElem?_eq_none (h.size_eq ▸ hi)]
  · rw [Frontier.heightsOrdered, Bool.and_eq_true, decide_eq_true_eq, decide_eq_true_eq,
      h.chain.height_le_iff hS hE, h.chain.height_le_iff hE h.accepted_lt]
    exact ⟨h.settled_le, h.executed_le⟩
  · rw [h.chain.height_le_iff hr hS] at hle
    exact ⟨(h.chain.settled_iff hr).mpr hle, (h.executed_iff r hr).mpr (hle.trans h.settled_le)⟩
  · rw [← Bool.not_eq_true, h.chain.settled_iff hr, ← h.chain.height_le_iff hr hS]
    exact Nat.not_le.mpr hlt
  · rw [h.covers hash r]
    constructor
    · rintro ⟨hs, ha, hhash⟩
      have hr := ha.trans_lt h.accepted_lt
      exact ⟨hr, hhash, (h.chain.height_le_iff hS hr).mpr hs,
        (h.chain.height_le_iff hr h.accepted_lt).mpr ha⟩
    · rintro ⟨hr, hhash, hs, ha⟩
      exact ⟨(h.chain.height_le_iff hS hr).mp hs, (h.chain.height_le_iff hr h.accepted_lt).mp ha,
        hhash⟩

/-- The height of a block on the chain, from its position. -/
theorem Holds.height_eq {rest : List EthBlock} (h : vm.Holds (genesis :: rest))
    {i : ℕ} (hi : i < vm.heap.size) : (vm.heap.blocks i).height = genesis.number + i := by
  have hzero := h.eth_eq 0 (Nat.zero_lt_of_lt hi)
  rw [List.getElem?_cons_zero, Option.some_inj] at hzero
  rw [h.chain.height_eq i hi, Block.height, ← hzero]

/-- Positions that do not fall are heights that do not fall. -/
theorem Holds.atOrAbove {rest rest' : List EthBlock}
    (h : vm.Holds (genesis :: rest)) (h' : vm'.Holds (genesis :: rest'))
    (hS : vm.frontier.lastSettled ≤ vm'.frontier.lastSettled)
    (hE : vm.frontier.lastExecuted ≤ vm'.frontier.lastExecuted)
    (hA : vm.frontier.lastAccepted ≤ vm'.frontier.lastAccepted) : vm.AtOrAbove vm' := by
  refine ⟨?_, ?_, ?_⟩
  · rw [h.height_eq h.chain.settled_lt, h'.height_eq h'.chain.settled_lt]
    omega
  · rw [h.height_eq h.executed_lt, h'.height_eq h'.executed_lt]
    omega
  · rw [h.height_eq h.accepted_lt, h'.height_eq h'.accepted_lt]
    omega

theorem AtOrAbove.refl (vm : Vm) : vm.AtOrAbove vm := ⟨le_rfl, le_rfl, le_rfl⟩

theorem AtOrAbove.trans {vm'' : Vm} (h : vm.AtOrAbove vm') (h' : vm'.AtOrAbove vm'') :
    vm.AtOrAbove vm'' :=
  ⟨h.settled.trans h'.settled, h.executed.trans h'.executed, h.accepted.trans h'.accepted⟩

/-- A walk ends at or above what is settled. -/
theorem le_settledBy {heap : Heap} {settled r : ℕ} {settleAt : ℤ} {stop : Option ℕ × Bool}
    (h : Heap.Stops heap settled settleAt r stop) : settled ≤ settledBy settled stop := by
  rcases h with ⟨c, hle, -, -, -⟩ | - | ⟨floor, -⟩
  · exact hle
  · exact le_rfl
  · rcases floor with - | c <;> exact le_rfl

/-- The states of a run come in order, up to `vm`. -/
def Rises (first : Vm) (genesis : EthBlock) (events : List Event) (vm : Vm) : Prop :=
  ∀ earlier, earlier <+: events → ∃ vm₀, first.run earlier = .ok vm₀ ∧
    vm₀.InOrder (chainOf genesis earlier) ∧ vm₀.AtOrAbove vm

theorem Rises.concat {first : Vm} {events : List Event} {e : Event}
    (h : Rises first genesis events vm) (hrun : first.run events = .ok vm)
    (hstep : vm.step e = .ok vm') (horder : vm'.InOrder (chainOf genesis (events ++ [e])))
    (habove : vm.AtOrAbove vm') :
    first.run (events ++ [e]) = .ok vm' ∧ Rises first genesis (events ++ [e]) vm' := by
  have hrun : first.run (events ++ [e]) = .ok vm' := by
    rw [run_concat, hrun]
    exact hstep
  refine ⟨hrun, fun earlier hearlier ↦ ?_⟩
  rcases List.prefix_concat_iff.mp hearlier with rfl | hearlier
  · exact ⟨vm', hrun, horder, .refl vm'⟩
  · obtain ⟨vm₀, hrun₀, horder₀, habove₀⟩ := h earlier hearlier
    exact ⟨vm₀, hrun₀, horder₀, habove₀.trans habove⟩

/-- A run of a linear chain returns, in a state that holds its blocks. -/
theorem Linear.holds {events : List Event} (h : Linear genesis events)
    (results : ExecutionResults) :
    ∃ vm, (start genesis results).run events = .ok vm ∧ vm.Holds (chainOf genesis events) ∧
      vm.frontier.lastExecuted = completions events ∧
      Rises (start genesis results) genesis events vm := by
  induction h with
  | nil =>
    refine ⟨_, rfl, holds_start genesis results, rfl, fun earlier hearlier ↦ ?_⟩
    rw [List.prefix_nil.mp hearlier]
    exact ⟨_, rfl, (holds_start genesis results).inOrder, .refl _⟩
  | @accept events last eth h hlast hparent hnumber hfresh ih =>
    obtain ⟨vm, hrun, hholds, hE, hrises⟩ := ih
    obtain ⟨vm', stop, hext, hholds', hE', -, hstops, hS', -⟩ :=
      hholds.extend hlast hparent hnumber hfresh
    have hA := hholds.length_eq
    have hA' := hholds'.length_eq
    rw [List.length_append] at hA'
    rw [← chainOf_accept] at hholds'
    have habove : vm.AtOrAbove vm' :=
      Holds.atOrAbove hholds hholds' (hS' ▸ le_settledBy hstops) hE'.ge (by omega)
    obtain ⟨hrun', hrises'⟩ := hrises.concat (e := .accept eth) hrun hext hholds'.inOrder habove
    refine ⟨vm', hrun', hholds', ?_, hrises'⟩
    rw [hE', hE]
    simp [completions]
  | @complete events block res h hnext haccepted ih =>
    obtain ⟨vm, hrun, hholds, hE, hrises⟩ := ih
    have hA := hholds.length_eq
    rw [chainOf, List.length_cons] at hA
    obtain ⟨vm', hcomp, hholds', hE', hS', -, -⟩ := hholds.complete (hE ▸ hnext) (by omega) res
    have hA' := hholds'.length_eq
    rw [chainOf, List.length_cons] at hA'
    rw [← chainOf_complete genesis events block res] at hholds'
    have habove : vm.AtOrAbove vm' :=
      Holds.atOrAbove hholds hholds' hS'.ge (by omega) (by omega)
    obtain ⟨hrun', hrises'⟩ := hrises.concat (e := .complete block res) hrun hcomp hholds'.inOrder
      habove
    refine ⟨vm', hrun', hholds', ?_, hrises'⟩
    rw [hE', hnext]
    simp [completions]

/-- **The frontier invariant.** For every interleaving of acceptances of a linear chain and of
completions in chain order, the run returns, the pointers are in order in every state it reaches,
and no pointer moves back. -/
theorem frontier_of_run {genesis : EthBlock} {events : List Event} (h : Linear genesis events)
    (results : ExecutionResults) :
    ∃ vm, (start genesis results).run events = .ok vm ∧ vm.InOrder (chainOf genesis events) ∧
      ∀ earlier, earlier <+: events → ∃ vm₀, (start genesis results).run earlier = .ok vm₀ ∧
        vm₀.InOrder (chainOf genesis earlier) ∧ vm₀.AtOrAbove vm := by
  obtain ⟨vm, hrun, hholds, -, hrises⟩ := h.holds results
  exact ⟨vm, hrun, hholds.inOrder, hrises⟩

/-- Block `n` of a small chain. -/
def smallBlock (n : Fin 4) (timestamp : ℕ) : EthBlock where
  hash := BitVec.ofNat 256 (n + 1)
  parentHash := BitVec.ofNat 256 n
  number := n
  timestamp := timestamp
  number_le := by
    rw [u64Max_eq]
    omega

/-- Results of a block that finished at the given second. -/
def smallResults (seconds : Fin 200) : ExecutionResults where
  gasTime := ⟨seconds, 0, 1, Nat.one_pos, by rw [u64Max_eq]; omega, by rw [u64Max_eq]; omega⟩
  baseFee := 0
  receiptRoot := 0
  postStateRoot := 0

instance neZeroBlocks : NeZero 4 := ⟨by decide⟩

instance neZeroSeconds : NeZero 200 := ⟨by decide⟩

/-- The first block is accepted and executed, and settled by the second. -/
def smallEvents : List Event :=
  [.accept (smallBlock 1 1), .complete 1 (smallResults 2), .accept (smallBlock 2 100)]

theorem linear_smallEvents : Linear (smallBlock 0 0) smallEvents := by
  have h₁ : Linear (smallBlock 0 0) ([] ++ [.accept (smallBlock 1 1)]) :=
    .accept .nil rfl rfl rfl (by decide)
  exact (h₁.complete rfl le_rfl).accept rfl rfl rfl (by decide)

theorem frontier_of_run_small :
    ∃ vm, (start (smallBlock 0 0) (smallResults 0)).run smallEvents = .ok vm ∧
      vm.InOrder (chainOf (smallBlock 0 0) smallEvents) ∧
      ∀ earlier, earlier <+: smallEvents →
        ∃ vm₀, (start (smallBlock 0 0) (smallResults 0)).run earlier = .ok vm₀ ∧
          vm₀.InOrder (chainOf (smallBlock 0 0) earlier) ∧ vm₀.AtOrAbove vm :=
  frontier_of_run linear_smallEvents (smallResults 0)

example : (((start (smallBlock 0 0) (smallResults 0)).run smallEvents).toOption.map
    (·.frontier.lastSettled)) = some 1 := by decide +kernel

end Vm

end Avalanche.Sae
