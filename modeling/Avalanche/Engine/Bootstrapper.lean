import Avalanche.Engine.Interval
import Avalanche.Engine.SnowmanEngine

/-!
# The bootstrapper

The bootstrapper asks the beacons for their last accepted blocks, asks them which of these they have
accepted, fetches the ancestry of the blocks that enough weight reports, and accepts what it fetched
by ascending height. Then it hands over to the engine.

As with the engine, the virtual machine and the block acceptor are operations on one state `W` of
everything outside, a handler that fails keeps what it has written, and the loop that drives the
bootstrapper logs the error and goes on with the next message.

Three fields are history, and no handler reads them: `reported` lists the `Accepted` replies that
were counted, `accepted` the blocks that were accepted, and `sent` the outgoing messages.
-/

namespace Avalanche.Bootstrap

open Std

/-- The phase of the bootstrapper. -/
inductive Phase where
  | initializing
  | discoveringFrontier
  | agreeingFrontier
  | fetching
  | executing
  | finished
deriving DecidableEq, Repr

/-- The state of the consensus context. -/
inductive EngineState where
  | initializing
  | bootstrapping
  | normalOp
deriving DecidableEq, Repr

/-- What the bootstrapper depends on. -/
structure Config (W : Type) where
  vm : ChainVm W
  /-- The block acceptor of the consensus context. -/
  blockAcceptor : Id → List UInt8 → W → Except String Unit × W
  /-- The beacons with their weights. -/
  beacons : ExtTreeMap NodeId ℕ
  /-- Whether the halt signal was fired. -/
  isCancelled : W → Bool

namespace Config

variable {W : Type}

/-- The total weight of the beacons. -/
def totalWeight (cfg : Config W) : ℕ := cfg.beacons.values.foldl saturatingAdd 0

/-- The weight that an accepted id has to exceed. -/
def weightThreshold (cfg : Config W) : ℕ := cfg.totalWeight / 2

end Config

/-- An outgoing message. -/
inductive Outbound where
  | getAcceptedFrontier (beacons : List NodeId) (req : UInt32)
  | getAccepted (beacons : List NodeId) (req : UInt32) (ids : List Id)
  | getAncestors (node : NodeId) (req : UInt32) (blkId : Id)
deriving DecidableEq, Repr

/-- The fetched bytes by height. -/
abbrev Blocks := ExtTreeMap ℕ (List UInt8)

/-- Adds a block; returns whether its parent should be fetched. A block at or below the last
accepted height, or at a height that is known, is not added. -/
def addBlock (tree : Tree) (blocks : Blocks) (lastAcceptedHeight height : ℕ)
    (blkBytes : List UInt8) : Bool × Tree × Blocks :=
  if height ≤ lastAcceptedHeight || tree.contains height then (false, tree, blocks)
  else
    let blocks := blocks.insert height blkBytes
    let tree := tree.add height
    let nextHeight := height - 1
    (nextHeight != lastAcceptedHeight && !tree.contains nextHeight, tree, blocks)

/-- The last block of a reply with each id. -/
def byId (chain : List Block) : ExtTreeMap Id Block :=
  chain.foldl (fun m b ↦ m.insert b.id b) ∅

/-- Adds blocks from `current` upwards as long as the reply has the parents. Returns the parent that
is missing, if there is one; `none` for the whole result if the fuel is used up. -/
def walkChain (lastAcceptedHeight : ℕ) (chain : List Block) :
    ℕ → Block → Tree → Blocks → Option (Tree × Blocks × Option Id)
  | 0, _, _, _ => none
  | fuel + 1, current, tree, blocks =>
    let (wantsParent, tree, blocks) :=
      addBlock tree blocks lastAcceptedHeight current.height current.bytes
    if wantsParent then
      match (byId chain)[current.parent]? with
      | some parent => walkChain lastAcceptedHeight chain fuel parent tree blocks
      | none => some (tree, blocks, some current.parent)
    else some (tree, blocks, none)

/-- The bootstrapper, next to the world outside. -/
structure Bootstrapper (W : Type) where
  world : W
  /-- The state of the consensus context. -/
  state : EngineState
  phase : Phase
  requestId : UInt32
  /-- The last accepted height, as read at the start. -/
  lastAcceptedHeight : ℕ
  /-- The last accepted blocks that beacons reported. -/
  frontierReplies : ExtTreeMap NodeId Id
  /-- The beacons that replied to the frontier query or failed to. -/
  frontierResponded : ExtTreeSet NodeId
  /-- The weight that reported each id as accepted. -/
  acceptedWeight : ExtTreeMap Id ℕ
  /-- The beacons that replied to the accepted query or failed to. -/
  acceptedReplies : ExtTreeSet NodeId
  /-- The blocks whose ancestry is fetched. -/
  acceptedTips : ExtTreeSet Id
  /-- Outstanding requests, with the wanted block. -/
  outstanding : ExtTreeMap (NodeId ×ₗ UInt32) Id
  tree : Tree
  blocks : Blocks
  /-- The number of the next beacon to ask. -/
  fetchCursor : UInt64
  finished : Bool
  reported : List (NodeId × List Id)
  accepted : List Block
  sent : List Outbound

/-- A handler of the bootstrapper. -/
abbrev BootstrapM (W α : Type) := Handler EngineError (Bootstrapper W) α

namespace Bootstrapper

variable {W α : Type}

/-- A bootstrapper that has not started. -/
def new (world : W) : Bootstrapper W where
  world := world
  state := .initializing
  phase := .initializing
  requestId := 0
  lastAcceptedHeight := 0
  frontierReplies := ∅
  frontierResponded := ∅
  acceptedWeight := ∅
  acceptedReplies := ∅
  acceptedTips := ∅
  outstanding := ∅
  tree := Tree.new
  blocks := ∅
  fetchCursor := 0
  finished := false
  reported := []
  accepted := []
  sent := []

/-- Runs an operation of the outside, and fails if it does. -/
def outside (f : W → Except String α × W) : BootstrapM W α := do
  match ← modifyGet fun b ↦ ((f b.world).1, { b with world := (f b.world).2 }) with
  | .ok a => return a
  | .error msg => throw (.vm msg)

/-- Sends a message. -/
def send (m : Outbound) : BootstrapM W Unit :=
  modify fun b ↦ { b with sent := b.sent ++ [m] }

variable (cfg : Config W)

def checkHalt : BootstrapM W Unit := do
  if cfg.isCancelled (← get).world then throw .halted

/-- Hands over to normal operation, once. -/
def finish : BootstrapM W Unit := modify fun b ↦
  if b.finished then b else { b with finished := true, phase := .finished, state := .normalOp }

/-! ## Executing -/

/-- Takes the block at a height out, and verifies and accepts it if it is not decided. -/
def executeHeight (lastAcceptedHeight height : ℕ) : BootstrapM W Unit := do
  checkHalt cfg
  match (← get).blocks[height]? with
  | none => return ()
  | some blkBytes =>
    modify fun b ↦ { b with blocks := b.blocks.erase height, tree := b.tree.remove height }
    if height ≤ lastAcceptedHeight then return ()
    let blk ← outside (cfg.vm.parseBlock blkBytes)
    outside (cfg.vm.verify blk)
    outside (cfg.blockAcceptor blk.id blk.bytes)
    outside (cfg.vm.accept blk)
    modify fun b ↦ { b with accepted := b.accepted ++ [blk] }

/-- Goes through the heights in the given order. -/
def executeHeights (lastAcceptedHeight : ℕ) : List ℕ → BootstrapM W Unit
  | [] => return ()
  | height :: heights => do
    executeHeight cfg lastAcceptedHeight height
    executeHeights lastAcceptedHeight heights

/-- Executes the fetched blocks by ascending height. -/
def execute : BootstrapM W Unit := do
  executeHeights cfg (← get).lastAcceptedHeight (← get).blocks.keys

/-- Executes and hands over once nothing is outstanding. -/
def tryStartExecuting : BootstrapM W Unit := do
  if !(← get).outstanding.isEmpty then return ()
  if (← get).phase = .finished then return ()
  modify fun b ↦ { b with phase := .executing }
  execute cfg
  finish

/-! ## Fetching -/

/-- Requests a block from the next beacon, unless it is requested already. -/
def fetch (blkId : Id) : BootstrapM W Unit := do
  if (← get).outstanding.values.contains blkId then return ()
  let beacons := cfg.beacons.keys
  match beacons[(← get).fetchCursor.toNat % beacons.length]? with
  | none => return ()
  | some node =>
    let req := (← get).requestId + 1
    modify fun b ↦ { b with
      fetchCursor := b.fetchCursor + 1
      requestId := req
      outstanding := b.outstanding.insert (toLex (node, req)) blkId }
    send (.getAncestors node req blkId)

/-- Adds a reply to the fetched blocks and requests the parent it does not have. -/
def processChain (chain : List Block) (first : Block) : BootstrapM W Unit := do
  let b ← get
  match walkChain b.lastAcceptedHeight chain (chain.length + 1) first b.tree b.blocks with
  | none => throw .diverges
  | some (tree, blocks, missing) =>
    modify fun b ↦ { b with tree := tree, blocks := blocks }
    match missing with
    | none => return ()
    | some parentId => fetch cfg parentId

/-- Parses containers one by one; the first failure is an error. -/
def batchedParseBlock : List (List UInt8) → BootstrapM W (List Block)
  | [] => return []
  | container :: containers => do
    let blk ← outside (cfg.vm.parseBlock container)
    return blk :: (← batchedParseBlock containers)

/-- A reply to a request for ancestors. -/
def ancestors (node : NodeId) (req : UInt32) (containers : List (List UInt8)) :
    BootstrapM W Unit := do
  match (← get).outstanding[toLex (node, req)]? with
  | none => return ()
  | some wanted =>
    modify fun b ↦ { b with outstanding := b.outstanding.erase (toLex (node, req)) }
    if containers.isEmpty then fetch cfg wanted
    else
      match ← batchedParseBlock cfg containers with
      | [] => fetch cfg wanted
      | first :: rest =>
        if first.id ≠ wanted then fetch cfg wanted
        else
          processChain cfg (first :: rest) first
          tryStartExecuting cfg

/-- A request for ancestors failed. -/
def getAncestorsFailed (node : NodeId) (req : UInt32) : BootstrapM W Unit := do
  match (← get).outstanding[toLex (node, req)]? with
  | none => return ()
  | some wanted =>
    modify fun b ↦ { b with outstanding := b.outstanding.erase (toLex (node, req)) }
    fetch cfg wanted

def fetchAll : List Id → BootstrapM W Unit
  | [] => return ()
  | tip :: tips => do
    fetch cfg tip
    fetchAll tips

/-- Takes the ids that enough weight reported as tips and fetches them. -/
def beginFetching : BootstrapM W Unit := do
  modify fun b ↦ { b with
    acceptedTips := ExtTreeSet.ofList
      ((b.acceptedWeight.toList.filter fun p ↦ cfg.weightThreshold < p.2).map Prod.fst)
    phase := .fetching }
  fetchAll cfg (← get).acceptedTips.toList
  tryStartExecuting cfg

/-! ## Agreeing on the tips -/

/-- Counts a response and returns whether it is the first of its beacon. -/
def firstResponse (node : NodeId) : BootstrapM W Bool := modifyGet fun b ↦
  (!b.acceptedReplies.contains node, { b with acceptedReplies := b.acceptedReplies.insert node })

/-- Adds the weight of a beacon to every id of its list. -/
def tally (weight : ℕ) (containerIds : List Id) (acceptedWeight : ExtTreeMap Id ℕ) :
    ExtTreeMap Id ℕ :=
  containerIds.foldl (fun m id ↦ m.insert id (saturatingAdd (m[id]?.getD 0) weight)) acceptedWeight

/-- A beacon replied to the accepted query. -/
def acceptedReply (node : NodeId) (containerIds : List Id) : BootstrapM W Unit := do
  if (← get).phase ≠ .agreeingFrontier ∨ node ∉ cfg.beacons then return ()
  if !(← firstResponse node) then return ()
  let weight := cfg.beacons[node]?.getD 0
  modify fun b ↦ { b with
    acceptedWeight := tally weight containerIds b.acceptedWeight
    reported := b.reported ++ [(node, containerIds)] }
  if (← get).acceptedReplies.size = cfg.beacons.size then beginFetching cfg

/-- A beacon failed to reply to the accepted query. -/
def getAcceptedFailed (node : NodeId) : BootstrapM W Unit := do
  if (← get).phase ≠ .agreeingFrontier ∨ node ∉ cfg.beacons then return ()
  if !(← firstResponse node) then return ()
  if (← get).acceptedReplies.size = cfg.beacons.size then beginFetching cfg

/-! ## Discovering the frontier -/

/-- Asks the beacons for their last accepted blocks under a fresh request id. -/
def queryFrontier : BootstrapM W Unit := do
  modify fun b ↦ { b with requestId := b.requestId + 1 }
  send (.getAcceptedFrontier cfg.beacons.keys (← get).requestId)

def restartFrontierDiscovery : BootstrapM W Unit := do
  modify fun b ↦ { b with frontierResponded := ∅, frontierReplies := ∅ }
  queryFrontier cfg

/-- Asks the beacons which of the reported blocks they have accepted. -/
def beginFrontierAgreement : BootstrapM W Unit := do
  modify fun b ↦ { b with phase := .agreeingFrontier, requestId := b.requestId + 1 }
  let frontier : ExtTreeSet Id := ExtTreeSet.ofList (← get).frontierReplies.values
  send (.getAccepted cfg.beacons.keys (← get).requestId frontier.toList)

def maybeBeginFrontierAgreement : BootstrapM W Unit := do
  if (← get).frontierResponded.size ≠ cfg.beacons.size then return ()
  if (← get).frontierReplies.isEmpty then restartFrontierDiscovery cfg
  else beginFrontierAgreement cfg

/-- A beacon responded to the frontier query, with its last accepted block or by failing. -/
def frontierResponse (node : NodeId) (reply : Option Id) : BootstrapM W Unit := do
  if (← get).phase ≠ .discoveringFrontier ∨ node ∉ cfg.beacons then return ()
  if (← get).frontierResponded.contains node then return ()
  modify fun b ↦ { b with
    frontierResponded := b.frontierResponded.insert node
    frontierReplies := reply.elim b.frontierReplies fun id ↦ b.frontierReplies.insert node id }
  maybeBeginFrontierAgreement cfg

/-- A beacon replied to the frontier query. -/
def acceptedFrontier (node : NodeId) (containerId : Id) : BootstrapM W Unit :=
  frontierResponse cfg node (some containerId)

/-- A beacon failed to reply to the frontier query. -/
def getAcceptedFrontierFailed (node : NodeId) : BootstrapM W Unit :=
  frontierResponse cfg node none

/-- Reads the last accepted height and asks the beacons. -/
def start (startReqId : UInt32) : BootstrapM W Unit := do
  checkHalt cfg
  modify fun b ↦ { b with requestId := startReqId, state := .bootstrapping }
  let lastAcceptedId ← outside cfg.vm.lastAccepted
  let blk ← outside (cfg.vm.getBlock lastAcceptedId)
  modify fun b ↦ { b with
    lastAcceptedHeight := blk.height
    phase := .discoveringFrontier }
  queryFrontier cfg
  if cfg.beacons.isEmpty then finish

/-! ## Runs -/

/-- What the bootstrapper is asked to do. -/
inductive Message where
  | start (startReqId : UInt32)
  | acceptedFrontier (node : NodeId) (req : UInt32) (containerId : Id)
  | getAcceptedFrontierFailed (node : NodeId) (req : UInt32)
  | accepted (node : NodeId) (req : UInt32) (containerIds : List Id)
  | getAcceptedFailed (node : NodeId) (req : UInt32)
  | ancestors (node : NodeId) (req : UInt32) (containers : List (List UInt8))
  | getAncestorsFailed (node : NodeId) (req : UInt32)
deriving DecidableEq, Repr

/-- The handler of a message. Replies in the first two rounds are matched by their sender, not by
their request id. -/
def handle : Message → BootstrapM W Unit
  | .start startReqId => start cfg startReqId
  | .acceptedFrontier node _ containerId => acceptedFrontier cfg node containerId
  | .getAcceptedFrontierFailed node _ => getAcceptedFrontierFailed cfg node
  | .accepted node _ containerIds => acceptedReply cfg node containerIds
  | .getAcceptedFailed node _ => getAcceptedFailed cfg node
  | .ancestors node req containers => ancestors cfg node req containers
  | .getAncestorsFailed node req => getAncestorsFailed cfg node req

/-- The bootstrapper after a list of messages. -/
def run (world : W) (msgs : List Message) : Bootstrapper W :=
  Handler.execAll (handle cfg) (new world) msgs

end Bootstrapper

end Avalanche.Bootstrap
