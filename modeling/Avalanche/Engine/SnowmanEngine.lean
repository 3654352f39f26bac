import Avalanche.Engine.Poll
import Avalanche.Library.Handler
import Avalanche.Snowman.Topological
import Avalanche.Utils.Checked

/-!
# The snowman engine

The engine issues blocks into the consensus core, requests the ancestors it does not have, asks a
sample of the validators what they prefer and records the answers once a poll is finished.

The consensus core, the virtual machine and the validator manager are behind traits in the source.
Here they are operations on one state `W` of everything outside the engine: an operation may change
all of it, return anything and fail, so that a statement about every engine holds of every
implementation, and a random sampler is one that draws from `W`. An engine handler that fails keeps
what it has written, and the loop that drives the engine logs the error and goes on.

Loops that the source writes with `loop` and `while` run with fuel, and running out of it is the
fault `EngineError.diverges`.

Four fields are history, and no operation reads them: `drawn` counts the request ids, `samples`
lists the samples a poll was opened on, `recorded` the results passed to the consensus core, and
`sent` the outgoing messages.
-/

namespace Avalanche

open Std

/-- Why an engine handler does not return normally. -/
inductive EngineError where
  | halted
  | vm (msg : String)
  | consensus (e : SnowError)
  /-- A loop ran out of fuel. -/
  | diverges
deriving DecidableEq, Repr

/-- The consensus core, as operations on the outside world. -/
structure SnowmanConsensus (W : Type) where
  numProcessing : W → ℕ
  processing : W → Id → Bool
  isPreferred : W → Id → Bool
  lastAccepted : W → Id × ℕ
  preference : W → Id
  preferenceAtHeight : W → ℕ → Option Id
  getParent : W → Id → Option Id
  add : Block → W → Except SnowError Unit × W
  recordPoll : Bag Id → W → Except SnowError Unit × W

/-- The virtual machine, as operations on the outside world. -/
structure ChainVm (W : Type) where
  lastAccepted : W → Except String Id × W
  parseBlock : List UInt8 → W → Except String Block × W
  getBlock : Id → W → Except String Block × W
  getBlockIdAtHeight : ℕ → W → Except String Id × W
  buildBlock : W → Except String Block × W
  setPreference : Id → W → Except String Unit × W
  /-- `verify` of a block. -/
  verify : Block → W → Except String Unit × W
  /-- `accept` of a block. -/
  accept : Block → W → Except String Unit × W

/-- The validator manager. `sample` draws ids for a subnet, as many as it is asked for, or fails. -/
structure ValidatorManager (W : Type) where
  sample : Id → ℕ → W → Option (List NodeId) × W
  length_sample : ∀ {subnet size w ids}, (sample subnet size w).1 = some ids → ids.length = size

/-- What the engine depends on. -/
structure EngineConfig (W : Type) where
  subnetId : Id
  params : Parameters
  consensus : SnowmanConsensus W
  vm : ChainVm W
  validators : ValidatorManager W
  /-- Whether the halt signal was fired. -/
  isCancelled : W → Bool

/-- An outgoing message. -/
inductive Outbound where
  | get (node : NodeId) (req : UInt32) (blkId : Id)
  | pushQuery (nodes : Finset NodeId) (req : UInt32) (bytes : List UInt8) (requestedHeight : ℕ)
  | pullQuery (nodes : Finset NodeId) (req : UInt32) (blkId : Id) (requestedHeight : ℕ)
  | chits (node : NodeId) (req : UInt32) (preference preferenceAtHeight lastAcceptedId : Id)
      (lastAcceptedHeight : ℕ)
deriving DecidableEq

/-- The engine, next to the world outside. -/
structure SnowmanEngine (W : Type) where
  world : W
  requestId : UInt32
  /-- Outstanding polls by request id. -/
  polls : PollSet
  /-- Outstanding `Get` requests. -/
  blkReqs : ExtTreeMap (NodeId ×ₗ UInt32) Id
  /-- The same, by block. -/
  blkReqsById : ExtTreeMap Id (NodeId × UInt32)
  /-- The last accepted blocks the peers reported. -/
  acceptedFrontiers : ExtTreeMap NodeId (Id × ℕ)
  pendingBuildBlocks : UInt32
  drawn : ℕ
  samples : List (Bag NodeId)
  recorded : List (Bag Id)
  sent : List Outbound

/-- A handler of the engine. -/
abbrev EngineM (W α : Type) := Handler EngineError (SnowmanEngine W) α

namespace SnowmanEngine

variable {W α : Type}

/-- A fresh engine. -/
def new (cfg : EngineConfig W) (world : W) : SnowmanEngine W where
  world := world
  requestId := 0
  polls := PollSet.new
    (EarlyTermFactory.newPoll ⟨cfg.params.alphaPreference, cfg.params.alphaConfidence⟩)
  blkReqs := ∅
  blkReqsById := ∅
  acceptedFrontiers := ∅
  pendingBuildBlocks := 0
  drawn := 0
  samples := []
  recorded := []
  sent := []

/-- Runs an operation of the outside. -/
def outside (f : W → α × W) : EngineM W α :=
  modifyGet fun e ↦ ((f e.world).1, { e with world := (f e.world).2 })

/-- Sends a message. -/
def send (m : Outbound) : EngineM W Unit := modify fun e ↦ { e with sent := e.sent ++ [m] }

/-- Counts the request id up and returns it. -/
def nextRequestId : EngineM W UInt32 :=
  modifyGet fun e ↦
    (e.requestId + 1, { e with requestId := e.requestId + 1, drawn := e.drawn + 1 })

variable (cfg : EngineConfig W)

/-! ## Predicates -/

/-- A block at or below the last accepted height is decided. -/
def isDecided (w : W) (blk : Block) : Bool := blk.height ≤ (cfg.consensus.lastAccepted w).2

def shouldIssueBlock (w : W) (blk : Block) : Bool :=
  if isDecided cfg w blk then false else !cfg.consensus.processing w blk.id

/-- A child of the last accepted block or of a processing one may be added. -/
def canIssueChildOn (w : W) (parentId : Id) : Bool :=
  parentId == (cfg.consensus.lastAccepted w).1 || cfg.consensus.processing w parentId

/-! ## Asking -/

/-- Tells the virtual machine what is preferred. -/
def setVmPreference : EngineM W Unit := do
  let pref := cfg.consensus.preference (← get).world
  match ← outside (cfg.vm.setPreference pref) with
  | .ok () => return ()
  | .error msg => throw (.vm msg)

/-- Opens a poll over the drawn validators; `false` if the request id is in flight. -/
def addPoll (req : UInt32) (vdrIds : List NodeId) : EngineM W Bool :=
  modifyGet fun e ↦
    let vdrBag := vdrIds.foldl Bag.add Bag.new
    let (added, polls) := e.polls.add req vdrBag
    (added, { e with
      polls := polls
      samples := if added then e.samples ++ [vdrBag] else e.samples })

/-- The height to ask for. -/
def nextHeight (w : W) : ℕ := saturatingAdd (cfg.consensus.lastAccepted w).2 1

/-- Samples `k` validators and opens a poll over them. Returns whether a poll was opened. -/
def sendQuery (blkId : Id) (blkBytes : Option (List UInt8)) (push : Bool) : EngineM W Bool := do
  match ← outside (cfg.validators.sample cfg.subnetId cfg.params.k.toNat) with
  | none => return false
  | some vdrIds =>
    if vdrIds.isEmpty then return false
    let height := nextHeight cfg (← get).world
    let req ← nextRequestId
    if ← addPoll req vdrIds then
      if push then send (.pushQuery vdrIds.toFinset req (blkBytes.getD []) height)
      else send (.pullQuery vdrIds.toFinset req blkId height)
      return true
    else return false

/-- Opens polls on the preference until enough are outstanding. -/
def repollLoop (pref : Id) : ℕ → EngineM W Unit
  | 0 => throw .diverges
  | fuel + 1 => do
    if (← get).polls.len < cfg.params.concurrentRepolls.toNat then
      if ← sendQuery cfg pref none false then repollLoop pref fuel

def repoll (fuel : ℕ) : EngineM W Unit := do
  repollLoop cfg (cfg.consensus.preference (← get).world) fuel

/-- Asks a single sampled validator what it prefers. -/
def gossip : EngineM W Unit := do
  let pref := cfg.consensus.preference (← get).world
  match ← outside (cfg.validators.sample cfg.subnetId 1) with
  | none => return ()
  | some vdrIds =>
    if vdrIds.isEmpty then return ()
    let height := nextHeight cfg (← get).world
    let req ← nextRequestId
    if ← addPoll req vdrIds then send (.pullQuery vdrIds.toFinset req pref height)

/-! ## Issuing -/

/-- Requests a block, unless it is requested already. -/
def sendRequest (node : NodeId) (blkId : Id) : EngineM W Unit := do
  if (← get).blkReqsById.contains blkId then return ()
  let req ← nextRequestId
  modify fun e ↦ { e with
    blkReqs := e.blkReqs.insert (toLex (node, req)) blkId
    blkReqsById := e.blkReqsById.insert blkId (node, req) }
  send (.get node req blkId)

/-- Forgets the request for a block. -/
def clearRequest (blkId : Id) : EngineM W Unit := modify fun e ↦
  match e.blkReqsById[blkId]? with
  | none => e
  | some (node, req) => { e with
      blkReqsById := e.blkReqsById.erase blkId
      blkReqs := e.blkReqs.erase (toLex (node, req)) }

/-- A request will not be answered. -/
def getFailed (node : NodeId) (req : UInt32) : EngineM W Unit := modify fun e ↦
  match e.blkReqs[toLex (node, req)]? with
  | none => e
  | some blkId => { e with
      blkReqs := e.blkReqs.erase (toLex (node, req))
      blkReqsById := e.blkReqsById.erase blkId }

/-- Verifies a block and adds it; returns whether it was added. -/
def addUnverifiedBlockToConsensus (blk : Block) : EngineM W Bool := do
  if cfg.isCancelled (← get).world then throw .halted
  match ← outside (cfg.vm.verify blk) with
  | .error _ => return false
  | .ok () =>
    match ← outside (cfg.consensus.add blk) with
    | .ok () => return true
    | .error e => throw (.consensus e)

/-- Walks from `current` up to a block that is issued, collecting the ancestry, oldest first. Stops
with `none` when it has to request a parent. -/
def walkAncestry (node : NodeId) : ℕ → Block → List Block → EngineM W (Option (List Block))
  | 0, _, _ => throw .diverges
  | fuel + 1, current, chain => do
    if !shouldIssueBlock cfg (← get).world current then return some chain
    let parentId := current.parent
    let chain := current :: chain
    if canIssueChildOn cfg (← get).world parentId then return some chain
    match ← outside (cfg.vm.getBlock parentId) with
    | .ok parent => walkAncestry node fuel parent chain
    | .error _ =>
      sendRequest node parentId
      return none

/-- Issues one block of the ancestry; returns whether it was added. -/
def issueBlock (block : Block) : EngineM W Bool := do
  if cfg.consensus.processing (← get).world block.id then return false
  if !canIssueChildOn cfg (← get).world block.parent then return false
  clearRequest block.id
  let added ← addUnverifiedBlockToConsensus cfg block
  if added then
    setVmPreference cfg
    if cfg.consensus.isPreferred (← get).world block.id then
      let _ ← sendQuery cfg block.id (some block.bytes) true
  return added

/-- Issues the ancestry from the oldest block on; returns whether any was added. -/
def issueChain : List Block → EngineM W Bool
  | [] => return false
  | block :: chain => do
    let added ← issueBlock cfg block
    let anyAdded ← issueChain chain
    return added || anyAdded

/-- Issues a block and its ancestors, requesting a missing one from `node`. -/
def issueFrom (fuel : ℕ) (node : NodeId) (blk : Block) : EngineM W Unit := do
  match ← walkAncestry cfg node fuel blk [] with
  | none => return ()
  | some chain =>
    if let some head := chain.getLast? then clearRequest head.id
    let anyAdded ← issueChain cfg chain
    if anyAdded && cfg.consensus.numProcessing (← get).world > 0 then repoll cfg fuel

/-- Issues the block with an id, requesting it if it is not there. -/
def issueFromById (fuel : ℕ) (node : NodeId) (blkId : Id) : EngineM W Unit := do
  match ← outside (cfg.vm.getBlock blkId) with
  | .ok blk => issueFrom cfg fuel node blk
  | .error _ => sendRequest node blkId

/-- A block arrived. -/
def put (fuel : ℕ) (node : NodeId) (req : UInt32) (container : List UInt8) : EngineM W Unit := do
  match ← outside (cfg.vm.parseBlock container) with
  | .error _ => getFailed node req
  | .ok blk =>
    match (← get).blkReqs[toLex (node, req)]? with
    | none => issueFrom cfg fuel node blk
    | some expected =>
      if blk.id ≠ expected then getFailed node req else issueFrom cfg fuel node blk

/-! ## Answering -/

/-- Answers a query with what is preferred and accepted. -/
def sendChits (node : NodeId) (req : UInt32) (requestedHeight : ℕ) : EngineM W Unit := do
  let w := (← get).world
  let (lastAcceptedId, lastAcceptedHeight) := cfg.consensus.lastAccepted w
  let preference := cfg.consensus.preference w
  let preferenceAtHeight ←
    if requestedHeight < lastAcceptedHeight then do
      match ← outside (cfg.vm.getBlockIdAtHeight requestedHeight) with
      | .ok id => pure id
      | .error _ => pure lastAcceptedId
    else pure ((cfg.consensus.preferenceAtHeight w requestedHeight).getD preference)
  send (.chits node req preference preferenceAtHeight lastAcceptedId lastAcceptedHeight)

def pullQuery (fuel : ℕ) (node : NodeId) (req : UInt32) (blkId : Id) (requestedHeight : ℕ) :
    EngineM W Unit := do
  sendChits cfg node req requestedHeight
  issueFromById cfg fuel node blkId

def pushQuery (fuel : ℕ) (node : NodeId) (req : UInt32) (container : List UInt8)
    (requestedHeight : ℕ) : EngineM W Unit := do
  sendChits cfg node req requestedHeight
  match ← outside (cfg.vm.parseBlock container) with
  | .ok blk => issueFrom cfg fuel node blk
  | .error _ => return ()

/-! ## Voting -/

/-- The nearest processing ancestor of a block, itself included. -/
def getProcessingAncestor (w : W) : ℕ → Id → Except EngineError (Option Id)
  | 0, _ => .error .diverges
  | fuel + 1, current =>
    if cfg.consensus.processing w current then .ok (some current)
    else
      match cfg.consensus.getParent w current with
      | some parent => getProcessingAncestor w fuel parent
      | none => .ok none

/-- A response reaches the polls. -/
def respond (req : UInt32) (r : Response) : EngineM W (List (Bag Id)) :=
  modifyGet fun e ↦ ((e.polls.respond req r).1, { e with polls := (e.polls.respond req r).2 })

/-- Registers a vote for the nearest processing ancestor; `none` if there is none. -/
def applyVote (fuel : ℕ) (req : UInt32) (node : NodeId) (vote : Id) :
    EngineM W (Option (List (Bag Id))) := do
  match getProcessingAncestor cfg (← get).world fuel vote with
  | .error e => throw e
  | .ok none => return none
  | .ok (some ancestor) => return some (← respond req (.vote node ancestor))

/-- Records a result in the consensus core. -/
def recordPoll (result : Bag Id) : EngineM W Unit := do
  modify fun e ↦ { e with recorded := e.recorded ++ [result] }
  match ← outside (cfg.consensus.recordPoll result) with
  | .ok () => return ()
  | .error e => throw (.consensus e)

def recordPolls : List (Bag Id) → EngineM W Unit
  | [] => return ()
  | result :: results => do
    recordPoll cfg result
    recordPolls results

/-- Records the finished polls and goes on polling while blocks are processing. -/
def processPollResults (fuel : ℕ) (results : List (Bag Id)) : EngineM W Unit := do
  if results.isEmpty then return ()
  recordPolls cfg results
  setVmPreference cfg
  if cfg.consensus.numProcessing (← get).world > 0 then repoll cfg fuel

/-- A vote arrived. It goes to the first of the two preferred blocks with a processing ancestor. -/
def chits (fuel : ℕ) (node : NodeId) (req : UInt32)
    (preferredId preferredIdAtHeight acceptedId : Id)
    (acceptedHeight : ℕ) : EngineM W Unit := do
  modify fun e ↦ { e with
    acceptedFrontiers := e.acceptedFrontiers.insert node (acceptedId, acceptedHeight) }
  issueFromById cfg fuel node preferredId
  if preferredId ≠ preferredIdAtHeight then issueFromById cfg fuel node preferredIdAtHeight
  let mut applied ← applyVote cfg fuel req node preferredId
  if applied.isNone ∧ preferredId ≠ preferredIdAtHeight then
    applied ← applyVote cfg fuel req node preferredIdAtHeight
  match applied with
  | some results => processPollResults cfg fuel results
  | none =>
    let results ← respond req (.drop node)
    processPollResults cfg fuel results

/-- A query failed. It counts as a vote for the peer's last accepted block, if that is known. -/
def queryFailed (fuel : ℕ) (node : NodeId) (req : UInt32) : EngineM W Unit := do
  match (← get).acceptedFrontiers[node]? with
  | some (acceptedId, acceptedHeight) =>
    chits cfg fuel node req acceptedId acceptedId acceptedId acceptedHeight
  | none =>
    let results ← respond req (.drop node)
    processPollResults cfg fuel results

/-! ## Building -/

/-- Builds and issues blocks while there are build requests and room for processing blocks. -/
def buildBlocks (fuel : ℕ) : ℕ → EngineM W Unit
  | 0 => throw .diverges
  | rounds + 1 => do
    if (← get).pendingBuildBlocks > 0 ∧
        saturatingU32 (cfg.consensus.numProcessing (← get).world)
          < cfg.params.optimalProcessing.toNat then
      modify fun e ↦ { e with pendingBuildBlocks := e.pendingBuildBlocks - 1 }
      match ← outside cfg.vm.buildBlock with
      | .error _ => return ()
      | .ok blk =>
        issueFrom cfg fuel 0 blk
        buildBlocks fuel rounds

/-- The virtual machine has pending transactions. -/
def notifyPendingTxs (fuel : ℕ) : EngineM W Unit := do
  modify fun e ↦ { e with
    pendingBuildBlocks :=
      if e.pendingBuildBlocks = 0xffffffff then e.pendingBuildBlocks else e.pendingBuildBlocks + 1 }
  buildBlocks cfg fuel fuel

/-! ## Runs -/

/-- What the engine is asked to do. -/
inductive Message where
  | put (node : NodeId) (req : UInt32) (container : List UInt8)
  | getFailed (node : NodeId) (req : UInt32)
  | pullQuery (node : NodeId) (req : UInt32) (blkId : Id) (requestedHeight : ℕ)
  | pushQuery (node : NodeId) (req : UInt32) (container : List UInt8) (requestedHeight : ℕ)
  | chits (node : NodeId) (req : UInt32) (preferredId preferredIdAtHeight acceptedId : Id)
      (acceptedHeight : ℕ)
  | queryFailed (node : NodeId) (req : UInt32)
  | gossip
  | notifyPendingTxs
deriving DecidableEq

/-- The handler of a message. -/
def handle (fuel : ℕ) : Message → EngineM W Unit
  | .put node req container => put cfg fuel node req container
  | .getFailed node req => getFailed node req
  | .pullQuery node req blkId height => pullQuery cfg fuel node req blkId height
  | .pushQuery node req container height => pushQuery cfg fuel node req container height
  | .chits node req preferredId preferredIdAtHeight acceptedId acceptedHeight =>
    chits cfg fuel node req preferredId preferredIdAtHeight acceptedId acceptedHeight
  | .queryFailed node req => queryFailed cfg fuel node req
  | .gossip => gossip cfg
  | .notifyPendingTxs => notifyPendingTxs cfg fuel

/-- The engine after a list of messages. -/
def run (fuel : ℕ) (world : W) (msgs : List Message) : SnowmanEngine W :=
  Handler.execAll (handle cfg fuel) (new cfg world) msgs

end SnowmanEngine

end Avalanche
