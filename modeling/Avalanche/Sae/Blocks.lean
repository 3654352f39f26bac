import Avalanche.Sae.ProxyTime
import Avalanche.Types.Id

/-!
# Blocks and their settlement

A block is shared: its parent link and its execution results are set and cleared in place, so blocks
live in a heap and an `Arc<Block>` is a number, the reference to a place in it. Executing a block
stores its results, settling it severs its ancestry.

`lastToSettleAt` walks down from a block to the last ancestor that had finished executing at an
instant. Every block it comes to is in one of three situations, `Passed`, `Finished` or `Undecided`,
and `lastToSettleAt_spec` says where the walk stops on a chain whose lower part has been settled and
severed.
-/

namespace Avalanche.Sae

/-- The header fields of the wire block. -/
@[ext] structure EthBlock where
  hash : B256
  parentHash : B256
  number : ℕ
  timestamp : ℕ
  number_le : number ≤ u64Max

instance : DecidableEq EthBlock := fun _ _ ↦ decidable_of_iff _ EthBlock.ext_iff.symm

/-- The block time as a `SystemTime`, in nanoseconds from the epoch. One that a `SystemTime` cannot
hold is the epoch. -/
def EthBlock.systemTime (eth : EthBlock) : ℤ :=
  if eth.timestamp ≤ i64Max then eth.timestamp * nanosPerSecond else 0

structure ExecutionResults where
  gasTime : Time
  baseFee : ℕ
  receiptRoot : B256
  postStateRoot : B256
deriving DecidableEq

/-- The link a block holds until it settles. -/
structure Ancestry where
  parent : Option ℕ
deriving DecidableEq

structure Block where
  eth : EthBlock
  ancestry : Option Ancestry
  synchronous : Bool
  execution : Option ExecutionResults
deriving DecidableEq

/-- The blocks in memory, of which the first `size` references are in use. -/
structure Heap where
  blocks : ℕ → Block
  size : ℕ

namespace Block

inductive Error
  | parentHashMismatch (got want : B256)
  | heightNotIncrementing (parent own : ℕ)
  | reExecuted (height : ℕ)
  | reSettled (height : ℕ)
deriving DecidableEq

def hash (b : Block) : B256 := b.eth.hash

def height (b : Block) : ℕ := b.eth.number

def timestamp (b : Block) : ℤ := b.eth.systemTime

def parentBlock (b : Block) : Option ℕ := b.ancestry.bind Ancestry.parent

def executed (b : Block) : Bool := b.execution.isSome

def settled (b : Block) : Bool := b.ancestry.isNone

def executedByGasTime (b : Block) : Option Time := b.execution.map ExecutionResults.gasTime

/-- A new block, with the checks of `set_ancestors`. -/
def new (heap : Heap) (eth : EthBlock) (parent : Option ℕ) : Except Error Block :=
  let b : Block := ⟨eth, some ⟨parent⟩, false, none⟩
  match parent with
  | none => .ok b
  | some p =>
    let got := (heap.blocks p).hash
    if got ≠ eth.parentHash then .error (.parentHashMismatch got eth.parentHash)
    else if (heap.blocks p).height ≠ eth.number - 1 then
      .error (.heightNotIncrementing (heap.blocks p).height eth.number)
    else .ok b

/-- The block with its results. -/
def withResults (b : Block) (results : ExecutionResults) : Block :=
  { b with execution := some results }

/-- The block without its link. -/
def severed (b : Block) : Block := { b with ancestry := none }

def markExecuted (b : Block) (results : ExecutionResults) : Except Error Block :=
  if b.executed then .error (.reExecuted b.height) else .ok (b.withResults results)

def markSettled (b : Block) : Except Error Block :=
  if b.settled then .error (.reSettled b.height) else .ok b.severed

/-- The genesis or last block before streaming execution, which has settled itself. -/
def markSynchronous (eth : EthBlock) (results : ExecutionResults) : Block :=
  ⟨eth, none, true, some results⟩

end Block

namespace Heap

/-- The block behind a reference replaced. -/
def store (heap : Heap) (r : ℕ) (b : Block) : Heap :=
  { heap with blocks := Function.update heap.blocks r b }

/-- A block added, under the next reference. -/
def alloc (heap : Heap) (b : Block) : Heap :=
  ⟨Function.update heap.blocks heap.size b, heap.size + 1⟩

/-- A heap with one block. -/
def singleton (b : Block) : Heap := ⟨fun _ ↦ b, 1⟩

/-- The ancestors of `cur`, itself included, down to `from_` and without it, from the top. `none` is
a walk that has used up its fuel. -/
def ancestors (heap : Heap) (from_ : ℕ) : ℕ → Option ℕ → Option (List ℕ)
  | 0, _ => none
  | _ + 1, none => some []
  | fuel + 1, some r =>
    if r = from_ then some []
    else (ancestors heap from_ fuel (heap.blocks r).parentBlock).map (r :: ·)

/-- `Range::between`, in increasing height. -/
def between (heap : Heap) (from_ to_ : ℕ) : Option (List ℕ) :=
  (heap.ancestors from_ (heap.size + 1) (some to_)).map List.reverse

/-- The nearest synchronous ancestor. -/
def nearestSettledFloor (heap : Heap) : ℕ → Option ℕ → Option (Option ℕ)
  | 0, _ => none
  | _ + 1, none => some none
  | fuel + 1, some r =>
    if (heap.blocks r).synchronous then some (some r)
    else nearestSettledFloor heap fuel (heap.blocks r).parentBlock

/-- The loop of `last_to_settle_at`, with the candidate and whether it is known. -/
def settleWalk (heap : Heap) (settleAt : ℤ) : ℕ → Option ℕ → Option (Option ℕ × Bool)
  | 0, _ => none
  | _ + 1, none => some (none, true)
  | fuel + 1, some r =>
    let b := heap.blocks r
    if b.synchronous then some (some r, true)
    else if b.timestamp > settleAt then settleWalk heap settleAt fuel b.parentBlock
    else
      match b.executedByGasTime with
      | some gasTime =>
        if gasTime.asTime ≤ settleAt then some (some r, true)
        else settleWalk heap settleAt fuel b.parentBlock
      | none => (heap.nearestSettledFloor fuel b.parentBlock).map (·, false)

def lastToSettleAt (heap : Heap) (settleAt : ℤ) (parent : ℕ) : Option (Option ℕ × Bool) :=
  heap.settleWalk settleAt (heap.size + 1) (some parent)

/-! ## Chains -/

/-- The blocks of the heap are one chain, from the synchronous block at `0` upwards, and the links
of those up to `settled` have been severed. -/
structure Chain (heap : Heap) (settled : ℕ) : Prop where
  settled_lt : settled < heap.size
  synchronous_iff : ∀ i < heap.size, (heap.blocks i).synchronous = true ↔ i = 0
  ancestry_eq : ∀ i < heap.size,
    (heap.blocks i).ancestry = if i ≤ settled then none else some ⟨some (i - 1)⟩
  height_eq : ∀ i < heap.size, (heap.blocks i).height = (heap.blocks 0).height + i

variable {heap : Heap} {settled : ℕ}

namespace Chain

variable (h : Chain heap settled) {i : ℕ}
include h

theorem parentBlock_of_le (hi : i ≤ settled) : (heap.blocks i).parentBlock = none := by
  rw [Block.parentBlock, h.ancestry_eq i (hi.trans_lt h.settled_lt), if_pos hi, Option.bind_none]

theorem parentBlock_of_lt (hlt : settled < i) (hi : i < heap.size) :
    (heap.blocks i).parentBlock = some (i - 1) := by
  rw [Block.parentBlock, h.ancestry_eq i hi, if_neg (Nat.not_le.mpr hlt), Option.bind_some]

theorem settled_iff (hi : i < heap.size) :
    (heap.blocks i).settled = true ↔ i ≤ settled := by
  rw [Block.settled, h.ancestry_eq i hi]
  by_cases hle : i ≤ settled
  · simp [hle]
  · simp [hle]

theorem height_le_iff {i j : ℕ} (hi : i < heap.size) (hj : j < heap.size) :
    (heap.blocks i).height ≤ (heap.blocks j).height ↔ i ≤ j := by
  rw [h.height_eq i hi, h.height_eq j hj]
  omega

/-- The range between two blocks above the severed part. -/
theorem ancestors_eq {from_ r : ℕ} (hfrom : settled ≤ from_) (hle : from_ ≤ r) (hr : r < heap.size)
    {fuel : ℕ} (hfuel : r < fuel + from_) :
    heap.ancestors from_ fuel (some r) = some (List.range' (from_ + 1) (r - from_)).reverse := by
  induction fuel generalizing r with
  | zero => omega
  | succ fuel ih =>
    rw [ancestors]
    rcases hle.eq_or_lt with rfl | hlt
    · simp
    · have hr' : r - from_ = (r - 1 - from_) + 1 := by omega
      rw [if_neg hlt.ne', h.parentBlock_of_lt (hfrom.trans_lt hlt) hr,
        ih (by omega) (by omega) (by omega), hr', List.range'_concat, List.reverse_append]
      have htop : from_ + 1 + 1 * (r - 1 - from_) = r := by omega
      rw [htop]
      rfl

theorem between_eq {to_ : ℕ} (hle : settled ≤ to_) (hr : to_ < heap.size) :
    heap.between settled to_ = some (List.range' (settled + 1) (to_ - settled)) := by
  rw [between, h.ancestors_eq le_rfl hle hr (by omega), Option.map_some, List.reverse_reverse]

theorem nearestSettledFloor_isSome {r fuel : ℕ} (hr : r < heap.size) (hfuel : r + 1 < fuel) :
    (heap.nearestSettledFloor fuel (some r)).isSome := by
  induction fuel generalizing r with
  | zero => omega
  | succ fuel ih =>
    rw [nearestSettledFloor]
    split
    · rfl
    · rcases Nat.lt_or_ge settled r with hlt | hge
      · rw [h.parentBlock_of_lt hlt hr]
        exact ih (by omega) (by omega)
      · rw [h.parentBlock_of_le hge]
        obtain ⟨fuel, rfl⟩ : ∃ f, fuel = f + 1 := Nat.exists_eq_succ_of_ne_zero (by omega)
        rfl

end Chain

/-! ## Where the walk stops -/

/-- The block had not finished at the instant. -/
def Passed (b : Block) (settleAt : ℤ) : Prop :=
  settleAt < b.timestamp ∨ ∃ t, b.executedByGasTime = some t ∧ settleAt < t.asTime

/-- The block had finished at the instant. -/
def Finished (b : Block) (settleAt : ℤ) : Prop :=
  b.timestamp ≤ settleAt ∧ ∃ t, b.executedByGasTime = some t ∧ t.asTime ≤ settleAt

/-- The block might have finished at the instant, and has not been executed. -/
def Undecided (b : Block) (settleAt : ℤ) : Prop :=
  b.timestamp ≤ settleAt ∧ b.executedByGasTime = none

section Results

variable {b b' : Block} (heth : b'.eth = b.eth)
  (hexec : ∀ results, b.execution = some results → b'.execution = some results) {settleAt : ℤ}
include heth hexec

/-- A block that has finished has finished wherever its results are known. -/
theorem Finished.of_execution (h : Finished b settleAt) : Finished b' settleAt := by
  obtain ⟨hts, t, ht, hle⟩ := h
  obtain ⟨results, hresults, rfl⟩ := Option.map_eq_some_iff.mp ht
  refine ⟨?_, results.gasTime, ?_, hle⟩
  · rwa [Block.timestamp, heth]
  · rw [Block.executedByGasTime, hexec results hresults, Option.map_some]

theorem Passed.of_execution (h : Passed b settleAt) : Passed b' settleAt := by
  rcases h with hts | ⟨t, ht, hlt⟩
  · left
    rwa [Block.timestamp, heth]
  · obtain ⟨results, hresults, rfl⟩ := Option.map_eq_some_iff.mp ht
    refine .inr ⟨results.gasTime, ?_, hlt⟩
    rw [Block.executedByGasTime, hexec results hresults, Option.map_some]

end Results

/-- What the walk from `r` returns. -/
inductive Stops (heap : Heap) (settled : ℕ) (settleAt : ℤ) (r : ℕ) : Option ℕ × Bool → Prop
  | at_ (c : ℕ) (hle : settled ≤ c) (hc : c ≤ r)
      (hfin : c = 0 ∨ Finished (heap.blocks c) settleAt)
      (hpass : ∀ i, c < i → i ≤ r → Passed (heap.blocks i) settleAt) :
      Stops heap settled settleAt r (some c, true)
  | off (hpos : 0 < settled)
      (hpass : ∀ i, settled ≤ i → i ≤ r → Passed (heap.blocks i) settleAt) :
      Stops heap settled settleAt r (none, true)
  | lags (floor : Option ℕ) (i : ℕ) (hle : settled ≤ i) (hi : i ≤ r)
      (hund : Undecided (heap.blocks i) settleAt) :
      Stops heap settled settleAt r (floor, false)

variable {settleAt : ℤ} {r : ℕ}

/-- A walk that goes on below a block it has passed. -/
theorem Stops.up {out : Option ℕ × Bool} (hlt : settled < r)
    (hpassed : Passed (heap.blocks r) settleAt) (h : Stops heap settled settleAt (r - 1) out) :
    Stops heap settled settleAt r out := by
  have hcases : ∀ i, i ≤ r → i ≤ r - 1 ∨ i = r := fun i hi ↦ by omega
  rcases h with ⟨c, hle, hc, hfin, hpass⟩ | ⟨hpos, hpass⟩ | ⟨floor, i, hle, hi, hund⟩
  · refine .at_ c hle (by omega) hfin fun i hci hi ↦ ?_
    rcases hcases i hi with hi | rfl
    · exact hpass i hci hi
    · exact hpassed
  · refine .off hpos fun i hsi hi ↦ ?_
    rcases hcases i hi with hi | rfl
    · exact hpass i hsi hi
    · exact hpassed
  · exact .lags floor i hle (by omega) hund

/-- The walk depends on headers and results only. -/
theorem Stops.congr {heap' : Heap} {out : Option ℕ × Bool}
    (h : Stops heap settled settleAt r out)
    (heth : ∀ i ≤ r, (heap'.blocks i).eth = (heap.blocks i).eth)
    (hexec : ∀ i ≤ r, (heap'.blocks i).execution = (heap.blocks i).execution) :
    Stops heap' settled settleAt r out := by
  rcases h with ⟨c, hle, hc, hfin, hpass⟩ | ⟨hpos, hpass⟩ | ⟨floor, i, hle, hi, hund⟩
  · exact .at_ c hle hc
      (hfin.imp_right (Finished.of_execution (heth c hc) fun _ ↦ (hexec c hc).trans))
      fun i hci hi ↦ (hpass i hci hi).of_execution (heth i hi) fun _ ↦ (hexec i hi).trans
  · exact .off hpos fun i hsi hi ↦
      (hpass i hsi hi).of_execution (heth i hi) fun _ ↦ (hexec i hi).trans
  · refine .lags floor i hle hi ?_
    rw [Undecided, Block.timestamp, Block.executedByGasTime, heth i hi, hexec i hi]
    exact hund

/-- The walk from a block of the chain returns. -/
theorem Chain.settleWalk_spec (h : Chain heap settled) {r fuel : ℕ}
    (hle : settled ≤ r) (hr : r < heap.size) (hfuel : r + 1 < fuel) :
    ∃ out, heap.settleWalk settleAt fuel (some r) = some out ∧
      Stops heap settled settleAt r out := by
  induction fuel generalizing r with
  | zero => omega
  | succ fuel ih =>
    -- a block that is passed leads to its parent, or off the severed end
    have hgo : r ≠ 0 → Passed (heap.blocks r) settleAt →
        ∃ out, heap.settleWalk settleAt fuel (heap.blocks r).parentBlock = some out ∧
          Stops heap settled settleAt r out := by
      intro hr0 hpassed
      rcases hle.eq_or_lt with rfl | hlt
      · obtain ⟨fuel, rfl⟩ : ∃ f, fuel = f + 1 := Nat.exists_eq_succ_of_ne_zero (by omega)
        rw [h.parentBlock_of_le le_rfl]
        refine ⟨(none, true), rfl, .off (Nat.pos_of_ne_zero hr0) fun i hsi hi ↦ ?_⟩
        rwa [le_antisymm hi hsi]
      · rw [h.parentBlock_of_lt hlt hr]
        obtain ⟨out, hout, hstops⟩ := ih (Nat.le_sub_one_of_lt hlt) (by omega) (by omega)
        exact ⟨out, hout, hstops.up hlt hpassed⟩
    by_cases hsync : (heap.blocks r).synchronous = true
    · refine ⟨(some r, true), by simp [settleWalk, hsync], .at_ r hle le_rfl ?_ ?_⟩
      · exact .inl ((h.synchronous_iff r hr).mp hsync)
      · intro i hri hi
        omega
    · have hr0 : r ≠ 0 := fun hr0 ↦ hsync ((h.synchronous_iff r hr).mpr hr0)
      by_cases hts : (heap.blocks r).timestamp > settleAt
      · obtain ⟨out, hout, hstops⟩ := hgo hr0 (.inl hts)
        exact ⟨out, by simpa [settleWalk, hsync, hts] using hout, hstops⟩
      · have hts' := Int.not_lt.mp hts
        rcases hgas : (heap.blocks r).executedByGasTime with - | t
        · obtain ⟨floor, hfloor⟩ : ∃ floor,
              heap.nearestSettledFloor fuel (heap.blocks r).parentBlock = some floor := by
            rcases hle.eq_or_lt with rfl | hlt
            · obtain ⟨fuel, rfl⟩ : ∃ f, fuel = f + 1 := Nat.exists_eq_succ_of_ne_zero (by omega)
              rw [h.parentBlock_of_le le_rfl]
              exact ⟨none, rfl⟩
            · rw [h.parentBlock_of_lt hlt hr]
              exact Option.isSome_iff_exists.mp
                (h.nearestSettledFloor_isSome (by omega) (by omega))
          exact ⟨(floor, false), by simp [settleWalk, hsync, hts, hgas, hfloor],
            .lags floor r hle le_rfl ⟨hts', hgas⟩⟩
        · by_cases hfin : t.asTime ≤ settleAt
          · refine ⟨(some r, true), by simp [settleWalk, hsync, hts, hgas, hfin],
              .at_ r hle le_rfl (.inr ⟨hts', t, hgas, hfin⟩) fun i hri hi ↦ ?_⟩
            omega
          · obtain ⟨out, hout, hstops⟩ := hgo hr0 (.inr ⟨t, hgas, Int.not_le.mp hfin⟩)
            exact ⟨out, by simpa [settleWalk, hsync, hts, hgas, hfin] using hout, hstops⟩

theorem Chain.lastToSettleAt_spec (h : Chain heap settled) (settleAt : ℤ)
    (hle : settled ≤ r) (hr : r < heap.size) :
    ∃ out, heap.lastToSettleAt settleAt r = some out ∧ Stops heap settled settleAt r out :=
  h.settleWalk_spec hle hr (by omega)

end Heap

end Avalanche.Sae
