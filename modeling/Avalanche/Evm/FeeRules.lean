import Avalanche.Evm.FeeState

/-!
# The fee rules of a header

Each rule is looked up by the phase at the block's time: what the base fee, the gas limit, the extra
data, the cost of the block and the least delay have to be, given the parent's header. The verifier
compares a header with them; the builder fills a header from them.
-/

namespace Avalanche.Evm

open Except (require orError)

variable {R : Type}

inductive FeeRegime
  | legacy
  | window
  | acp176
deriving DecidableEq

def regimeForPhase (phase : AvaPhase) : FeeRegime :=
  if phase < .apricotPhase3 then .legacy
  else if phase < .fortuna then .window
  else .acp176

def windowParamsForPhase (phase : AvaPhase) : BaseFeeParams :=
  if phase ≥ .etna then .etna
  else if phase ≥ .apricotPhase5 then .ap5
  else if phase ≥ .apricotPhase4 then .ap4
  else .ap3

/-- The parent's part of the context in which the next block is priced. -/
inductive AvaFeeState
  | window (window : Window) (baseFee : ℕ)
  | acp176 (state : Acp176State)
deriving DecidableEq

def AvaFeeState.default : AvaFeeState := .window .default 0

structure AvaNextBlockCtx where
  timestamp : ℕ
  timestampMs : ℕ
  parentFeeState : AvaFeeState := .default

def parseFeeState (which : String) (extra : Bytes) : Except Error Acp176State :=
  orError (Acp176State.fromBytes extra) <| .invalidFeeState <|
    "parsing " ++ which ++ " fee state: insufficient length for fee state: expected at least " ++
      toString stateSize ++ " bytes, got " ++ toString extra.length

def feeStateBeforeBlock (spec : AvaChainSpec) (parent : AvaHeader R) (timeMs : ℕ) :
    Except Error Acp176State := do
  let timestamp := timeMs / 1000
  let parentMs := parent.timeMs
  require (¬timeMs < parentMs) <| .invalidFeeState <|
    "timestamp " ++ toString timestamp ++ " prior to parent timestamp " ++ toString parent.time
  let state ←
    if spec.isFortuna parent.time ∧ parent.number ≠ 0 then parseFeeState "parent" parent.extra
    else .ok .default
  .ok <|
    if spec.isGranite timestamp then state.advanceMilliseconds (timeMs - parentMs)
    else if spec.isFortuna timestamp then state.advanceSeconds (timestamp - parent.time)
    else state

def feeStateAfterBlock (spec : AvaChainSpec) (parent : AvaHeader R) (time : ℕ) (timeMs : Option ℕ)
    (gasUsed extDataGasUsed : ℕ) (desiredTargetExcess : Option ℕ) : Except Error Acp176State := do
  let state ← feeStateBeforeBlock spec parent (timeMs.getD (saturatingMul time 1000))
  let state ← state.consumeGas gasUsed extDataGasUsed
  .ok (desiredTargetExcess.elim state state.updateTargetExcess)

def baseFee (cs : AvaChainSpec) (parent : AvaHeader R) (ctx : AvaNextBlockCtx) : Except Error ℕ :=
  let phase := cs.forkAt ctx.timestamp
  match regimeForPhase phase with
  | .legacy => .error .nilBaseFee
  | .window =>
    match ctx.parentFeeState with
    | .window window parentBase =>
      .ok <| min (baseFeeFromWindow (windowParamsForPhase phase) window parentBase
        (ctx.timestamp - parent.time)) u64Max
    | .acp176 _ => .error .nilBaseFee
  | .acp176 => do
    let state ← feeStateBeforeBlock cs parent ctx.timestampMs
    .ok state.gasPrice

def apricotPhase1GasLimit : ℕ := 8000000

def cortinaGasLimit : ℕ := 15000000

def ap0MinGasLimit : ℕ := 5000

def ap0MaxGasLimit : ℕ := 0x7fffffffffffffff

def ap0GasLimitBoundDivisor : ℕ := 1024

def verifyGasLimit (spec : AvaChainSpec) (parent header : AvaHeader R) : Except Error Unit := do
  let phase := spec.forkAt header.time
  if phase ≥ .fortuna then
    let state ← feeStateBeforeBlock spec parent header.timeMs
    require (header.gasLimit = state.maxCapacity)
      (.gasLimitMismatch header.gasLimit state.maxCapacity)
  else if phase ≥ .cortina then
    require (header.gasLimit = cortinaGasLimit)
      (.gasLimitMismatchInFork "Cortina" header.gasLimit cortinaGasLimit)
  else if phase ≥ .apricotPhase1 then
    require (header.gasLimit = apricotPhase1GasLimit)
      (.gasLimitMismatchInFork "ApricotPhase1" header.gasLimit apricotPhase1GasLimit)
  else
    require (¬(header.gasLimit < ap0MinGasLimit ∨ header.gasLimit > ap0MaxGasLimit))
      (.gasLimitOutOfRange header.gasLimit ap0MinGasLimit ap0MaxGasLimit)
    let diff := max (parent.gasLimit - header.gasLimit) (header.gasLimit - parent.gasLimit)
    let limit := parent.gasLimit / ap0GasLimitBoundDivisor
    require (¬diff ≥ limit) (.gasLimitOutOfBound header.gasLimit parent.gasLimit limit)

def gasCapacity (spec : AvaChainSpec) (parent : AvaHeader R) (timeMs : ℕ) : Except Error ℕ :=
  let phase := spec.forkAt (timeMs / 1000)
  if phase ≥ .fortuna then do
    let state ← feeStateBeforeBlock spec parent timeMs
    .ok state.gas.capacity
  else if phase ≥ .cortina then .ok cortinaGasLimit
  else if phase ≥ .apricotPhase1 then .ok apricotPhase1GasLimit
  else .ok parent.gasLimit

/-- The gas a header claims, with that of the atomic txs from Fortuna on. -/
def claimedGas (spec : AvaChainSpec) (header : AvaHeader R) : Except Error ℕ :=
  match header.extDataGasUsed with
  | some ext =>
    if spec.isFortuna header.time then do
      require (ext ≤ u64Max) (.extDataGasUsedTooLarge ext)
      orError (checkedAdd header.gasUsed ext) .feeOverflow
    else .ok header.gasUsed
  | none => .ok header.gasUsed

def verifyGasUsed (spec : AvaChainSpec) (parent header : AvaHeader R) : Except Error Unit := do
  let gasUsed ← claimedGas spec header
  let capacity ← gasCapacity spec parent header.timeMs
  require (¬gasUsed > capacity) (.gasUsedOverCapacity gasUsed capacity)

def maxFutureBlockTimeMs : ℕ := 10000

def verifyTime (spec : AvaChainSpec) (parent header : AvaHeader R) (nowMs : ℕ) :
    Except Error Unit := do
  let headerMs := header.timeMs
  let parentMs := parent.timeMs
  require (¬headerMs < parentMs) (.blockTooOld headerMs parentMs)
  let maxMs := saturatingAdd nowMs maxFutureBlockTimeMs
  require (¬headerMs > maxMs) (.blockTooFarInFuture headerMs maxMs)
  if ¬spec.isGranite header.time then
    require header.timeMilliseconds.isNone .timeMillisecondsBeforeGranite
  else
    let ms ← orError header.timeMilliseconds .timeMillisecondsRequired
    require (header.time = ms / 1000) (.timeMillisecondsMismatched header.time (ms / 1000))
    match parent.minDelayExcess with
    | none => .ok ()
    | some excess =>
      require (¬headerMs - parentMs < delay excess)
        (.minDelayNotMet (headerMs - parentMs) (delay excess))

/-- `opt_u256_to_u64`. -/
def optU256ToU64 (v : Option ℕ) : ℕ := min (v.getD 0) u64Max

def feeWindow (spec : AvaChainSpec) (parent : AvaHeader R) (timestamp : ℕ) :
    Except Error Window := do
  if ¬spec.isApricotPhase3 parent.time ∨ parent.number = 0 then
    .ok .default
  else
    let window ← orError (Window.fromBytes parent.extra)
      (.invalidFeeState "parsing parent fee window")
    require (¬timestamp < parent.time) <| .invalidFeeState <|
      "timestamp " ++ toString timestamp ++ " prior to parent timestamp " ++ toString parent.time
    let timeElapsed := timestamp - parent.time
    let (blockGasCost, parentExtGasUsed) :=
      if spec.isApricotPhase5 parent.time then (0, optU256ToU64 parent.extDataGasUsed)
      else if spec.isApricotPhase4 parent.time then
        (ap4BlockGasCost (parent.blockGasCost.map (min · u64Max)) blockGasCostStepAp4 timeElapsed,
          optU256ToU64 parent.extDataGasUsed)
      else (intrinsicBlockGas, 0)
    .ok ((window.add [parent.gasUsed, parentExtGasUsed, blockGasCost]).shift timeElapsed)

/-- The target the header claims is taken as the one its builder desired. -/
def verifyExtraPrefix (spec : AvaChainSpec) (parent header : AvaHeader R) : Except Error Unit := do
  let phase := spec.forkAt header.time
  if phase ≥ .fortuna then
    let claimed ← parseFeeState "remote" header.extra
    let expected ← feeStateAfterBlock spec parent header.time header.timeMilliseconds header.gasUsed
      (optU256ToU64 header.extDataGasUsed) (some claimed.targetExcess)
    require (claimed = expected) .incorrectFeeState
  else if phase ≥ .apricotPhase3 then
    let window ← feeWindow spec parent header.time
    require (window.toBytes <+: header.extra) (.invalidExtraPrefix window.toBytes header.extra)
  else .ok ()

def parentFeeStateOf (spec : AvaChainSpec) (parent : AvaHeader R) : Except Error AvaFeeState :=
  match regimeForPhase (spec.forkAt parent.time) with
  | .acp176 =>
    if parent.number ≠ 0 then do
      let state ← parseFeeState "parent" parent.extra
      .ok (.acp176 state)
    else .ok (.acp176 .default)
  | .window =>
    if parent.number ≠ 0 ∧ spec.isApricotPhase3 parent.time then do
      let window ← orError (Window.fromBytes parent.extra)
        (.invalidFeeState "parsing parent fee window")
      .ok (.window window (parent.baseFee.getD 0))
    else .ok (.window .default (parent.baseFee.getD 0))
  | .legacy => .ok .default

def expectedBlockGasCost (spec : AvaChainSpec) (parent : AvaHeader R) (timestamp : ℕ) : Option ℕ :=
  if ¬spec.isApricotPhase4 timestamp then none
  else
    let step := if spec.isApricotPhase5 timestamp then blockGasCostStepAp5 else blockGasCostStepAp4
    some (blockGasCost (parent.blockGasCost.map (min · u64Max)) step (timestamp - parent.time)
      (spec.isGranite timestamp))

/-- The base fee a header has to carry. -/
def expectedBaseFee (spec : AvaChainSpec) (parent header : AvaHeader R) : Except Error (Option ℕ) :=
  if spec.forkAt header.time ≥ .apricotPhase3 then do
    let parentFeeState ← parentFeeStateOf spec parent
    let fee ← baseFee spec parent
      { timestamp := header.time, timestampMs := header.timeMs, parentFeeState := parentFeeState }
    .ok (some fee)
  else .ok none

def verifyHeaderGasFields (spec : AvaChainSpec) (parent header : AvaHeader R) :
    Except Error Unit := do
  verifyGasLimit spec parent header
  verifyExtraPrefix spec parent header
  let expected ← expectedBaseFee spec parent header
  require (header.baseFee = expected) (.baseFeeMismatch expected header.baseFee)
  let want := expectedBlockGasCost spec parent header.time
  require (header.blockGasCost = want) (.blockGasCostMismatch header.blockGasCost want)
  match header.extDataGasUsed with
  | none => require (spec.forkAt header.time < .apricotPhase4) .nilExtDataGasUsed
  | some v =>
    require (¬spec.forkAt header.time < .apricotPhase4) (.extDataGasUsedBeforeFork v)
    require (¬v > u64Max) (.extDataGasUsedTooLarge v)

def minDelayExcessOf (spec : AvaChainSpec) (parent : AvaHeader R) (timestamp : ℕ)
    (desired : Option ℕ) : Except Error (Option ℕ) := do
  if ¬spec.isGranite timestamp then .ok none
  else
    let excess ←
      if spec.isGranite parent.time then
        orError parent.minDelayExcess (.invalidFeeState "parent min delay excess is nil")
      else .ok initialDelayExcess
    .ok (some (desired.elim excess (calculateDelayExcess excess)))

def verifyMinDelayExcess (spec : AvaChainSpec) (parent header : AvaHeader R) :
    Except Error Unit := do
  if ¬spec.isGranite header.time then .ok ()
  else
    let found ← orError header.minDelayExcess .remoteMinDelayExcessNil
    let expected ← minDelayExcessOf spec parent header.time (some found)
    let expected ← orError expected (.invalidFeeState "expected min delay excess absent at Granite")
    require (found = expected) (.incorrectMinDelayExcess expected found)

end Avalanche.Evm
