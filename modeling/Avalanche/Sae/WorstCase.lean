import Avalanche.Sae.GasTime
import Avalanche.Types.Id

/-!
# Worst-case bounds and execution

A block is agreed on before it is executed. The builder replays the blocks of the queue with the
gas they can use at most and attaches to each the base fee it found and the clock it ended at.
The executor later runs the same blocks with the gas they really use, and refuses a block whose
base fee exceeds the bound.

`execute_of_replay` says that it never has to: the executor's clock trails the builder's, block
after block. The builder's clock must not run past the last second a `u64` can count. There
`Time::tick` keeps the second and still wraps the fraction, so the clock falls back behind one that
has used less gas, and `execute_refused_at_end_of_time` is a block that is then refused.
-/

namespace Avalanche.Sae

/-- A header with its hash. The other fields are read by the hooks only. -/
structure SealedHeader (ρ : Type) where
  hash : B256
  parentHash : B256
  fields : ρ

/-- The two hooks that steer the clock, as functions of the header. -/
structure Hooks (ρ : Type) where
  blockTime : SealedHeader ρ → UInt64 × UInt32
  gasConfigAfter : SealedHeader ρ → UInt64 × GasPriceConfig

/-- The clock at the start of a block. -/
def Hooks.before {ρ : Type} (hooks : Hooks ρ) (h : SealedHeader ρ) (clock : GasTime) : GasTime :=
  clock.beforeBlock (hooks.blockTime h).1 (hooks.blockTime h).2

/-- The clock at the end of a block that uses `gas`. -/
def Hooks.after {ρ : Type} (hooks : Hooks ρ) (h : SealedHeader ρ) (gas : UInt64) (clock : GasTime) :
    GasTime :=
  clock.afterBlock gas (hooks.gasConfigAfter h).1 (hooks.gasConfigAfter h).2

structure WorstCaseBounds where
  maxBaseFee : ℕ
  latestEndTime : GasTime
deriving DecidableEq

namespace WorstCase

inductive Error
  | nonConsecutiveBlocks (expected got : B256)
  | queueFull (size max : ℕ)
  | baseFeeBoundExceeded (actual max : ℕ)
  | noCurrentBlock
deriving DecidableEq

def maxGasSecondsPerBlock : ℕ := 5 * 2

def maxFullBlocksInOpenQueue : ℕ := 2

def maxFullBlocksInClosedQueue : ℕ := maxFullBlocksInOpenQueue + 1

/-- The maximum block size for the clock's rate, capped so that a full closed queue fits. -/
def safeMaxBlockSize (clock : GasTime) : ℕ :=
  let maxSafeRate := u64Max / (maxFullBlocksInClosedQueue * maxGasSecondsPerBlock)
  min (min clock.rate maxSafeRate * maxGasSecondsPerBlock) u64Max

/-- `worstcase::State`, without the burners' balances. -/
structure State (ρ : Type) where
  hooks : Hooks ρ
  clock : GasTime
  expectedParentHash : B256
  qSize : ℕ
  blockSize : UInt64
  maxBlockSize : ℕ
  baseFee : ℕ
  curr : Option (SealedHeader ρ)

variable {ρ : Type}

def State.new (hooks : Hooks ρ) (clock : GasTime) (expectedParentHash : B256) : State ρ where
  hooks := hooks
  clock := clock
  expectedParentHash := expectedParentHash
  qSize := 0
  blockSize := 0
  maxBlockSize := 0
  baseFee := 0
  curr := none

def State.startBlock (s : State ρ) (h : SealedHeader ρ) : Except Error (State ρ) :=
  if h.parentHash ≠ s.expectedParentHash then
    .error (.nonConsecutiveBlocks s.expectedParentHash h.parentHash)
  else
    let clock := s.hooks.before h s.clock
    let maxBlockSize := safeMaxBlockSize clock
    let maxOpenQSize := min (maxFullBlocksInOpenQueue * maxBlockSize) u64Max
    if s.qSize > maxOpenQSize then .error (.queueFull s.qSize maxOpenQSize)
    else
      .ok { s with
        clock := clock
        blockSize := 0
        maxBlockSize := maxBlockSize
        baseFee := clock.price
        expectedParentHash := h.hash
        curr := some h }

/-- The block's operations applied. Of the fields here `State::apply` changes the block size only,
which any amount of `gas` may end at. -/
def State.applied (s : State ρ) (gas : UInt64) : State ρ := { s with blockSize := gas }

def State.finishBlock (s : State ρ) : Except Error (State ρ × WorstCaseBounds) :=
  match s.curr with
  | none => .error .noCurrentBlock
  | some curr =>
    let clock := s.hooks.after curr s.blockSize s.clock
    .ok ({ s with clock := clock, qSize := saturatingAdd s.qSize s.blockSize.toNat },
      { maxBaseFee := s.baseFee, latestEndTime := clock })

/-- One block of the replay, from `start_block` to `finish_block`. -/
def State.replayBlock (s : State ρ) (h : SealedHeader ρ) (gas : UInt64) :
    Except Error (State ρ × WorstCaseBounds) := do
  let s ← s.startBlock h
  (s.applied gas).finishBlock

/-- The bounds of a list of blocks with their predicted gas. -/
def State.replay (s : State ρ) : List (SealedHeader ρ × UInt64) →
    Except Error (List WorstCaseBounds)
  | [] => .ok []
  | (h, gas) :: blocks => do
    let (s, bounds) ← s.replayBlock h gas
    (s.replay blocks).map (bounds :: ·)

def checkBaseFeeBound (bounds : WorstCaseBounds) (baseFee : ℕ) : Except Error Unit :=
  if baseFee > bounds.maxBaseFee then .error (.baseFeeBoundExceeded baseFee bounds.maxBaseFee)
  else .ok ()

end WorstCase

/-! ## Execution -/

inductive ExecError
  | parentMismatch (parent last : B256)
  | worstCase (e : WorstCase.Error)
deriving DecidableEq

structure StepOutput where
  baseFee : ℕ
  gasTime : GasTime
  gasConsumed : UInt64
deriving DecidableEq

variable {ρ : Type}

/-- The end of a step whose base fee is `baseFee` and whose clock ends at `gasTime`. -/
def boundedOutput (bounds : WorstCaseBounds) (baseFee : ℕ) (gasTime : GasTime) (gasUsed : UInt64) :
    Except ExecError StepOutput :=
  match WorstCase.checkBaseFeeBound bounds baseFee with
  | .error e => .error (.worstCase e)
  | .ok () => .ok ⟨baseFee, gasTime, gasUsed⟩

/-- `execute_step` for a block on which the driver returns, with `gasUsed`. -/
def executeStep (hooks : Hooks ρ) (lastExecuted : B256) (parentGasClock : GasTime)
    (bounds : WorstCaseBounds) (h : SealedHeader ρ) (gasUsed : UInt64) :
    Except ExecError StepOutput :=
  if h.parentHash ≠ lastExecuted then .error (.parentMismatch h.parentHash lastExecuted)
  else
    boundedOutput bounds (hooks.before h parentGasClock).price
      (hooks.after h gasUsed (hooks.before h parentGasClock)) gasUsed

/-- The blocks executed one after another, each with the gas it uses and the bounds attached. -/
def execute (hooks : Hooks ρ) (lastExecuted : B256) (clock : GasTime) :
    List (SealedHeader ρ × UInt64 × WorstCaseBounds) → Except ExecError (List StepOutput)
  | [] => .ok []
  | (h, gasUsed, bounds) :: blocks => do
    let out ← executeStep hooks lastExecuted clock bounds h gasUsed
    (execute hooks h.hash out.gasTime blocks).map (out :: ·)

/-! ## The executor stays within the bounds -/

/-- A block of the queue, with the gas predicted for it and the gas it really uses. -/
structure QueuedBlock (ρ : Type) where
  header : SealedHeader ρ
  predicted : UInt64
  realised : UInt64

/-- What the builder replays. -/
def predictedRun (blocks : List (QueuedBlock ρ)) : List (SealedHeader ρ × UInt64) :=
  blocks.map fun b ↦ (b.header, b.predicted)

/-- What the executor runs, once the bounds are attached. -/
def realisedRun (blocks : List (QueuedBlock ρ)) (bounds : List WorstCaseBounds) :
    List (SealedHeader ρ × UInt64 × WorstCaseBounds) :=
  blocks.zipWith (fun b bound ↦ (b.header, b.realised, bound)) bounds

/-- No block of the replay ends past the last second of the clock. -/
def EndsInRange (hooks : Hooks ρ) (clock : GasTime) : List (SealedHeader ρ × UInt64) → Prop
  | [] => True
  | (h, gas) :: blocks =>
    (hooks.before h clock).endSecond gas (hooks.gasConfigAfter h).1 ≤ u64Max ∧
      EndsInRange hooks (hooks.after h gas (hooks.before h clock)) blocks

instance decidableEndsInRange (hooks : Hooks ρ) (clock : GasTime) :
    (blocks : List (SealedHeader ρ × UInt64)) → Decidable (EndsInRange hooks clock blocks)
  | [] => inferInstanceAs (Decidable True)
  | (_, _) :: blocks =>
    @instDecidableAnd _ _ (Nat.decLe _ _) (decidableEndsInRange hooks _ blocks)

/-- The realised price and clock are within the bounds. -/
def Within (out : StepOutput) (bounds : WorstCaseBounds) : Prop :=
  out.baseFee ≤ bounds.maxBaseFee ∧ out.gasTime.compare bounds.latestEndTime ≠ .gt

section Step

variable {s s' : WorstCase.State ρ} {h : SealedHeader ρ} {bounds : WorstCaseBounds}
  {clock : GasTime}

theorem WorstCase.State.startBlock_eq_ok (hok : s.startBlock h = .ok s') :
    h.parentHash = s.expectedParentHash ∧ s'.hooks = s.hooks ∧ s'.clock = s.hooks.before h s.clock ∧
      s'.expectedParentHash = h.hash ∧ s'.baseFee = (s.hooks.before h s.clock).price ∧
      s'.curr = some h := by
  rw [startBlock] at hok
  by_cases hparent : h.parentHash ≠ s.expectedParentHash
  · rw [if_pos hparent] at hok
    cases hok
  · rw [if_neg hparent] at hok
    dsimp only at hok
    split at hok
    next => cases hok
    next =>
      cases hok
      exact ⟨not_not.mp hparent, rfl, rfl, rfl, rfl, rfl⟩

/-- What a replayed block says about the state before and after it. -/
theorem WorstCase.State.replayBlock_eq_ok {gas : UInt64}
    (hok : s.replayBlock h gas = .ok (s', bounds)) :
    h.parentHash = s.expectedParentHash ∧ s'.expectedParentHash = h.hash ∧ s'.hooks = s.hooks ∧
      s'.clock = s.hooks.after h gas (s.hooks.before h s.clock) ∧
      bounds = ⟨(s.hooks.before h s.clock).price, s'.clock⟩ := by
  obtain ⟨t, hstart, hfinish⟩ := Except.bind_eq_ok_iff.mp hok
  obtain ⟨hparent, hhooks, hclock, hhash, hfee, hcurr⟩ := startBlock_eq_ok hstart
  have hcurr' : (t.applied gas).curr = some h := hcurr
  rw [finishBlock, hcurr'] at hfinish
  simp only [applied, hhooks, hclock, hfee] at hfinish
  cases hfinish
  exact ⟨hparent, hhash, rfl, rfl, rfl⟩

theorem boundedOutput_of_le {baseFee : ℕ} {gasTime : GasTime} {gasUsed : UInt64}
    (hfee : baseFee ≤ bounds.maxBaseFee) :
    boundedOutput bounds baseFee gasTime gasUsed = .ok ⟨baseFee, gasTime, gasUsed⟩ := by
  rw [boundedOutput, WorstCase.checkBaseFeeBound, if_neg (Nat.not_lt.mpr hfee)]

/-- One block: the executor accepts it and its clock goes on trailing. -/
theorem executeStep_of_replayBlock {predicted realised : UInt64}
    (hok : s.replayBlock h predicted = .ok (s', bounds)) (htrail : clock.Trails s.clock)
    (hgas : realised ≤ predicted)
    (hend : (s.hooks.before h s.clock).endSecond predicted (s.hooks.gasConfigAfter h).1 ≤ u64Max) :
    ∃ out, executeStep s.hooks s.expectedParentHash clock bounds h realised = .ok out ∧
      Within out bounds ∧ out.gasTime.Trails s'.clock := by
  obtain ⟨hparent, -, -, hclock, rfl⟩ := WorstCase.State.replayBlock_eq_ok hok
  have hbefore : (s.hooks.before h clock).Trails (s.hooks.before h s.clock) :=
    htrail.beforeBlock _ _
  have hafter : (s.hooks.after h realised (s.hooks.before h clock)).Trails s'.clock := by
    rw [hclock]
    exact hbefore.afterBlock hgas hend _
  rw [executeStep, if_neg (not_not.mpr hparent), boundedOutput_of_le hbefore.price_le]
  exact ⟨_, rfl, ⟨hbefore.price_le, hafter.compare_ne_gt⟩, hafter⟩

end Step

/-- The run, for an executor that trails the builder at its start. -/
theorem execute_of_trails {blocks : List (QueuedBlock ρ)}
    (hgas : ∀ b ∈ blocks, b.realised ≤ b.predicted)
    {s : WorstCase.State ρ} {clock : GasTime} {bounds : List WorstCaseBounds}
    (hreplay : s.replay (predictedRun blocks) = .ok bounds)
    (hrange : EndsInRange s.hooks s.clock (predictedRun blocks)) (htrail : clock.Trails s.clock) :
    ∃ outs, execute s.hooks s.expectedParentHash clock (realisedRun blocks bounds) = .ok outs ∧
      List.Forall₂ Within outs bounds := by
  induction blocks generalizing s clock bounds with
  | nil =>
    cases hreplay
    exact ⟨[], rfl, .nil⟩
  | cons b blocks ih =>
    obtain ⟨⟨s', bound⟩, hblock, hrest⟩ := Except.bind_eq_ok_iff.mp hreplay
    obtain ⟨bounds, hbounds, rfl⟩ := Except.map_eq_ok_iff.mp hrest
    obtain ⟨hend, hrange⟩ := hrange
    obtain ⟨-, hhash, hhooks, hclock, -⟩ := WorstCase.State.replayBlock_eq_ok hblock
    obtain ⟨out, hout, hwithin, htrail'⟩ := executeStep_of_replayBlock hblock htrail
      (hgas b List.mem_cons_self) hend
    rw [← hclock, ← hhooks] at hrange
    obtain ⟨outs, houts, hall⟩ := ih (fun b' hb' ↦ hgas b' (List.mem_cons_of_mem _ hb'))
      hbounds hrange htrail'
    rw [hhooks, hhash] at houts
    refine ⟨out :: outs, ?_, .cons hwithin hall⟩
    exact Except.bind_eq_ok_iff.mpr ⟨out, hout, Except.map_eq_ok_iff.mpr ⟨outs, houts, rfl⟩⟩

/-- For every start, all headers and hooks, and all amounts of gas that do not exceed the predicted
ones, the executor accepts every block the builder has replayed, at a base fee and an end time
within the bounds attached to it, while the builder's clock stays in range. -/
theorem execute_of_replay (hooks : Hooks ρ) (start : GasTime) (parent : B256)
    (blocks : List (QueuedBlock ρ)) (hgas : ∀ b ∈ blocks, b.realised ≤ b.predicted)
    {bounds : List WorstCaseBounds}
    (hreplay : (WorstCase.State.new hooks start parent).replay (predictedRun blocks) = .ok bounds)
    (hrange : EndsInRange hooks start (predictedRun blocks)) :
    ∃ outs, execute hooks parent start (realisedRun blocks bounds) = .ok outs ∧
      List.Forall₂ Within outs bounds :=
  execute_of_trails hgas hreplay hrange .refl

/-! ## Two runs -/

/-- Hooks that read the block time from the header and keep the target at four. -/
def fixedHooks : Hooks (UInt64 × UInt32) where
  blockTime h := h.fields
  gasConfigAfter _ := (4, ⟨1, 1, false⟩)

/-- A clock at the given second, without excess. -/
def fixedClock (unixSeconds : UInt64) : GasTime :=
  .fromExcess unixSeconds 4 0 ⟨1, 1, false⟩ (Nat.zero_le _)

/-- Two blocks, of which the first uses less gas than predicted and the second is built at `time`.
-/
def fixedBlocks (time : UInt64 × UInt32) : List (QueuedBlock (UInt64 × UInt32)) :=
  [⟨⟨1, 0, (0, 0)⟩, 8, 7⟩, ⟨⟨2, 1, time⟩, 0, 0⟩]

theorem execute_of_replay_fixed :
    ∃ bounds, (WorstCase.State.new fixedHooks (fixedClock 100) 0).replay
        (predictedRun (fixedBlocks (101, 800000000))) = .ok bounds ∧
      ∃ outs, execute fixedHooks 0 (fixedClock 100)
          (realisedRun (fixedBlocks (101, 800000000)) bounds) = .ok outs ∧
        List.Forall₂ Within outs bounds := by
  have hsome : ((WorstCase.State.new fixedHooks (fixedClock 100) 0).replay
      (predictedRun (fixedBlocks (101, 800000000)))).toOption.isSome := by decide +kernel
  obtain ⟨bounds, hbounds⟩ := Option.isSome_iff_exists.mp hsome
  have hreplay := Except.toOption_eq_some_iff.mp hbounds
  exact ⟨bounds, hreplay, execute_of_replay fixedHooks (fixedClock 100) 0
    (fixedBlocks (101, 800000000)) (by decide) hreplay (by decide +kernel)⟩

/-- In the last second of the clock the builder's tick keeps the second and drops the fraction. The
executor, seven eighths of a second in, is then the clock ahead: before the second block the builder
decays its excess and the executor does not, and the block is refused. -/
theorem execute_refused_at_end_of_time :
    (∀ b ∈ fixedBlocks (18446744073709551615, 800000000), b.realised ≤ b.predicted) ∧
      ∃ bounds, (WorstCase.State.new fixedHooks (fixedClock 18446744073709551615) 0).replay
          (predictedRun (fixedBlocks (18446744073709551615, 800000000))) = .ok bounds ∧
        execute fixedHooks 0 (fixedClock 18446744073709551615)
            (realisedRun (fixedBlocks (18446744073709551615, 800000000)) bounds)
          = .error (.worstCase (.baseFeeBoundExceeded 2 1)) := by
  refine ⟨by decide, ?_⟩
  have hrun : ((WorstCase.State.new fixedHooks (fixedClock 18446744073709551615) 0).replay
      (predictedRun (fixedBlocks (18446744073709551615, 800000000)))).toOption.any (fun bounds ↦
        decide (execute fixedHooks 0 (fixedClock 18446744073709551615)
            (realisedRun (fixedBlocks (18446744073709551615, 800000000)) bounds)
          = .error (.worstCase (.baseFeeBoundExceeded 2 1)))) := by decide +kernel
  generalize (WorstCase.State.new fixedHooks (fixedClock 18446744073709551615) 0).replay
    (predictedRun (fixedBlocks (18446744073709551615, 800000000))) = replayed at hrun ⊢
  rcases replayed with e | bounds
  · cases hrun
  · exact ⟨bounds, rfl, of_decide_eq_true hrun⟩

end Avalanche.Sae
