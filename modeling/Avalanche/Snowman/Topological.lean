import Avalanche.Library.Loop
import Avalanche.Snow.Tree

/-!
# The snowman consensus

`Topological` holds the last accepted block and all pending blocks in a tree. Every block with
children owns a snowball tree that decides between them. A poll is pushed towards the last accepted
block by a topological sort, every block whose children got enough votes records the poll, and all
others falter.

The maps and sets of the source are ordered, and so are they here: iteration goes by ascending key.
The vote stack is a list whose head is the top. Loops that the source writes with `while` run with
fuel; on a tree of blocks whose heights grow by one the fuel is never used up, and running out of it
is its own fault, `Fault.diverges`. An error of a callback is critical and halts the chain, so a
call that fails returns no state.

What the instance does to the outside, the calls of the block acceptor and of `accept` and `reject`
on blocks, is kept in `log`, in the order of the calls.
-/

namespace Avalanche

open Std

/-- Why a call does not return normally. -/
inductive Fault where
  /-- The call returns an error. -/
  | error (e : SnowError)
  /-- A loop ran out of fuel. -/
  | diverges
deriving DecidableEq, Repr

/-- A block as the consensus core sees it. `accept` and `reject` are what the calls return. -/
structure Block where
  id : Id
  parent : Id
  height : ℕ
  bytes : List UInt8
  accept : Except SnowError Unit
  reject : Except SnowError Unit

/-- A call out of the instance. -/
inductive Decision where
  /-- The block acceptor is told about a block. -/
  | acceptor (containerId : Id) (bytes : List UInt8)
  | accept (block : Block)
  | reject (block : Block)

/-- The state of a single block in the tree. -/
structure SnowmanBlock (F : Factory) where
  /-- The block; `none` for the block the instance was started on. -/
  blk : Option Block
  /-- This node and its descendants must reset before the next positive vote. -/
  shouldFalter : Bool
  /-- The instance deciding this block's child; `none` until a child is issued. -/
  sb : Option (Tree F)
  /-- The blocks naming this block as their parent. -/
  children : ExtTreeMap Id Block

namespace SnowmanBlock

variable {F : Factory}

/-- The node of the block the instance is started on. -/
def genesis : SnowmanBlock F := ⟨none, false, none, ∅⟩

/-- A processing node. -/
def processing (blk : Block) : SnowmanBlock F := ⟨some blk, false, none, ∅⟩

/-- Whether the node is at or below the last accepted height. -/
def decided (n : SnowmanBlock F) (lastAcceptedHeight : ℕ) : Bool :=
  match n.blk with
  | none => true
  | some blk => blk.height ≤ lastAcceptedHeight

/-- Marks the node to falter. -/
def falter (n : SnowmanBlock F) : SnowmanBlock F := { n with shouldFalter := true }

/-- Adds a child, creating the snowball tree for the first one. -/
def addChild (n : SnowmanBlock F) (params : Parameters) (child : Block) : SnowmanBlock F :=
  let sb :=
    match n.sb with
    | none => Tree.new F params child.id
    | some sb => sb.add child.id
  { n with sb := some sb, children := n.children.insert child.id child }

end SnowmanBlock

/-- The state of a block during the topological sort. -/
structure KahnNode where
  /-- The number of unprocessed children. -/
  inDegree : ℤ
  /-- Accumulated votes for this block's children. -/
  votes : Bag Id

/-- `KahnNode::default()`. -/
def KahnNode.default : KahnNode := ⟨0, Bag.new⟩

/-- An entry of the vote stack. -/
structure Votes where
  parentId : Id
  votes : Bag Id

/-- The snowman consensus. -/
structure Topological (F : Factory) where
  /-- How often `recordPoll` was called. -/
  pollNumber : ℕ
  /-- What the block acceptor returns. -/
  blockAcceptor : Id → List UInt8 → Except SnowError Unit
  params : Parameters
  lastAcceptedId : Id
  lastAcceptedHeight : ℕ
  /-- The last accepted block and all pending blocks. -/
  blocks : ExtTreeMap Id (SnowmanBlock F)
  /-- The preferred blocks. -/
  preferredIds : ExtTreeSet Id
  /-- The preferred block at each height. -/
  preferredHeights : ExtTreeMap ℕ Id
  /-- The preferred block with the highest height. -/
  preference : Id
  /-- Calls made so far. -/
  log : List Decision

namespace Topological

variable {F : Factory}

/-- `u64::saturating_add(1)`. -/
def saturatingSucc64 (n : ℕ) : ℕ := min (n + 1) (2 ^ 64 - 1)

/-- An instance rooted at the last accepted block. -/
def new (F : Factory) (blockAcceptor : Id → List UInt8 → Except SnowError Unit)
    (params : Parameters) (lastAcceptedId : Id) (lastAcceptedHeight : ℕ) :
    Except SnowError (Topological F) := do
  params.verify
  return {
    pollNumber := 0
    blockAcceptor := blockAcceptor
    params := params
    lastAcceptedId := lastAcceptedId
    lastAcceptedHeight := lastAcceptedHeight
    blocks := (∅ : ExtTreeMap Id (SnowmanBlock F)).insert lastAcceptedId SnowmanBlock.genesis
    preferredIds := ∅
    preferredHeights := ∅
    preference := lastAcceptedId
    log := [] }

/-! ## Vote propagation -/

/-- The parent of a pending block; `none` for a block that is unknown or decided, where votes are
dropped and walks towards the last accepted block end. -/
def pendingParent (t : Topological F) (id : Id) : Option Id := do
  let n ← t.blocks[id]?
  if n.decided t.lastAcceptedHeight then none
  else
    let blk ← n.blk
    some blk.parent

/-- The nodes of the topological sort, and those without unprocessed children. -/
structure Kahn where
  nodes : ExtTreeMap Id KahnNode
  leaves : ExtTreeSet Id

namespace Kahn

/-- `kahn_nodes.entry(id).or_default()`, changed by `f`. -/
def modify (k : Kahn) (id : Id) (f : KahnNode → KahnNode) : Kahn :=
  { k with nodes := k.nodes.insert id (f (k.nodes[id]?.getD KahnNode.default)) }

def insertLeaf (k : Kahn) (id : Id) : Kahn := { k with leaves := k.leaves.insert id }

def removeLeaf (k : Kahn) (id : Id) : Kahn := { k with leaves := k.leaves.erase id }

end Kahn

/-- One step up from `cursor`, counting it as a child of its parent. The walk is over, with no
cursor, when it meets a node that was seen before. -/
def inDegreeStep (t : Topological F) : Option Id × Kahn → Option (Option Id × Kahn)
  | (none, _) => none
  | (some cursor, k) => do
    let parentId ← t.pendingParent cursor
    let previouslySeen := k.nodes.contains parentId
    let k := k.modify parentId fun n ↦ { n with inDegree := n.inDegree + 1 }
    if previouslySeen then some (none, k.removeLeaf parentId)
    else some (some parentId, k)

/-- Enters one voted block into the sort. -/
def addVote (t : Topological F) (votes : Bag Id) (k : Kahn) (vote : Id) : Except Fault Kahn :=
  match t.pendingParent vote with
  | none => .ok k
  | some parentId =>
    let previouslySeen := k.nodes.contains parentId
    let k := k.modify parentId fun n ↦ { n with votes := n.votes.addCount vote (votes.count vote) }
    if previouslySeen then .ok k
    else
      (Loop.run (fun s ↦ .ok (t.inDegreeStep s)) .diverges (t.blocks.size + 1)
        (some parentId, k.insertLeaf parentId)).map Prod.snd

/-- Sets up the topological ordering of the blocks reachable from the votes. -/
def calculateInDegree (t : Topological F) (votes : Bag Id) : Except Fault Kahn :=
  votes.list.foldlM (t.addVote votes) ⟨∅, ∅⟩

/-- Takes the first leaf off, moves its votes to the stack if they reach the threshold and passes
their number on to its parent. -/
def pushStep (t : Topological F) (s : Kahn × List Votes) : Option (Kahn × List Votes) := do
  let (k, voteStack) := s
  let leafId ← k.leaves.toList.head?
  let k := k.removeLeaf leafId
  let kahn := k.nodes[leafId]?.getD KahnNode.default
  let (k, voteStack) :=
    if kahn.votes.len ≥ t.params.alphaPreference.toNat then
      (k.modify leafId fun n ↦ { n with votes := Bag.new }, ⟨leafId, kahn.votes⟩ :: voteStack)
    else (k, voteStack)
  match t.pendingParent leafId with
  | none => some (k, voteStack)
  | some parentId =>
    let parentKahn := k.nodes[parentId]?.getD KahnNode.default
    let k := k.modify parentId fun n ↦
      { inDegree := n.inDegree - 1, votes := n.votes.addCount leafId kahn.votes.len }
    if parentKahn.inDegree - 1 = 0 then some (k.insertLeaf parentId, voteStack)
    else some (k, voteStack)

/-- Turns the sort into a branch of snowball instances with at least the preference threshold. -/
def pushVotes (t : Topological F) (k : Kahn) : Except Fault (List Votes) :=
  (Loop.run (fun s ↦ .ok (t.pushStep s)) .diverges (k.nodes.size + 1) (k, [])).map Prod.snd

/-! ## Accepting and rejecting -/

/-- Turns the error of a callback into a fault. -/
def callback (r : Except SnowError Unit) : Except Fault Unit :=
  match r with
  | .ok () => .ok ()
  | .error e => .error (.error e)

/-- Calls `reject` on the blocks. -/
def rejectBlocks (log : List Decision) : List Block → Except Fault (List Decision)
  | [] => .ok log
  | b :: bs => do
    callback b.reject
    rejectBlocks (log ++ [.reject b]) bs

/-- Takes one rejected block out and rejects its children. -/
def rejectStep (s : Topological F × List Id) : Except Fault (Option (Topological F × List Id)) :=
  let (t, rejected) := s
  match rejected with
  | [] => .ok none
  | rejectedId :: rejected =>
    match t.blocks[rejectedId]? with
    | none => .ok (some (t, rejected))
    | some rejectedNode => do
      let log ← rejectBlocks t.log (rejectedNode.children.toList.map Prod.snd)
      .ok (some ({ t with blocks := t.blocks.erase rejectedId, log := log },
        rejectedNode.children.keys.reverse ++ rejected))

/-- Rejects all descendants of the already rejected blocks, last one first. -/
def rejectTransitively (t : Topological F) (rejected : List Id) : Except Fault (Topological F) :=
  (Loop.run rejectStep .diverges (t.blocks.size + rejected.length + 1)
    (t, rejected.reverse)).map Prod.fst

/-- Accepts the preferred child of a block and rejects its siblings with all their descendants. -/
def acceptPreferredChild (t : Topological F) (parentId : Id) : Except Fault (Topological F) := do
  match t.blocks[parentId]? with
  | none => .error (.error .unknownParentBlock)
  | some n =>
    let pref := (n.sb.map Tree.preference).getD Id.empty
    match n.children[pref]? with
    | none => .error (.error .unknownParentBlock)
    | some prefChild =>
      let rejects := n.children.toList.filter fun c ↦ c.1 ≠ pref
      callback (t.blockAcceptor pref prefChild.bytes)
      callback prefChild.accept
      let t := { t with
        lastAcceptedId := pref
        lastAcceptedHeight := prefChild.height
        preferredIds := t.preferredIds.erase pref
        preferredHeights := t.preferredHeights.erase prefChild.height
        log := t.log ++ [Decision.acceptor pref prefChild.bytes, Decision.accept prefChild] }
      let log ← rejectBlocks t.log (rejects.map Prod.snd)
      rejectTransitively { t with log := log } (rejects.map Prod.fst)

/-! ## Voting -/

/-- Carries out a pending falter and records the poll on the node's snowball tree. Returns the node,
whether the tree is finalized and what it prefers. -/
def pollNode (n : SnowmanBlock F) (votes : Bag Id) : SnowmanBlock F × Bool × Id :=
  let n :=
    if n.shouldFalter then
      { n with sb := n.sb.map Tree.recordUnsuccessfulPoll, shouldFalter := false }
    else n
  match n.sb with
  | none => (n, false, Id.empty)
  | some sb =>
    let sb := (sb.recordPoll votes).1
    ({ n with sb := some sb }, sb.finalized, sb.preference)

/-- Marks the children of a block to falter, except `nextId` unless the falter is transitive. -/
def falterChildren (t : Topological F) (parentId : Id) (transitively : Bool) (nextId : Id) :
    Topological F :=
  let childIds := (t.blocks[parentId]?.map fun n ↦ n.children.keys).getD []
  { t with
    blocks := childIds.foldl (fun blocks childId ↦
      if !transitively && childId == nextId then blocks
      else blocks.modify childId SnowmanBlock.falter) t.blocks }

/-- Applies the entries of the vote stack from the top. -/
def voteLoop : List Votes → Topological F → Id → Bool → Except Fault (Topological F × Id)
  | [], t, newPreferred, _ => .ok (t, newPreferred)
  | vote :: voteStack, t, newPreferred, onPreferredBranch =>
    match t.blocks[vote.parentId]? with
    | none => .ok (t, newPreferred)
    | some n => do
      let (polled, finalized, parentPreference) := pollNode n vote.votes
      let t := { t with blocks := t.blocks.insert vote.parentId polled }
      let t ←
        if finalized && t.lastAcceptedId == vote.parentId then do
          let t ← t.acceptPreferredChild vote.parentId
          pure { t with blocks := t.blocks.erase vote.parentId }
        else pure t
      let newPreferred := if onPreferredBranch then parentPreference else newPreferred
      -- `Id.empty` stands for the absence of a next entry
      let nextId := (voteStack.head?.map Votes.parentId).getD Id.empty
      let onPreferredBranch := onPreferredBranch && nextId == parentPreference
      -- read after the removal of an accepted block's parent
      let t := t.falterChildren vote.parentId n.shouldFalter nextId
      voteLoop voteStack t newPreferred onPreferredBranch

/-- Applies the vote stack; returns the preferred block after the last one that was polled. -/
def vote (t : Topological F) (voteStack : List Votes) : Except Fault (Topological F × Id) :=
  if voteStack.isEmpty then
    .ok ({ t with blocks := t.blocks.modify t.lastAcceptedId SnowmanBlock.falter },
      t.preference)
  else voteLoop voteStack t t.lastAcceptedId true

/-! ## The consensus interface -/

def numProcessing (t : Topological F) : ℕ := t.blocks.size - 1

def processing (t : Topological F) (blockId : Id) : Bool :=
  if blockId = t.lastAcceptedId then false else t.blocks.contains blockId

def isPreferred (t : Topological F) (blockId : Id) : Bool :=
  blockId == t.lastAcceptedId || t.preferredIds.contains blockId

def lastAccepted (t : Topological F) : Id × ℕ := (t.lastAcceptedId, t.lastAcceptedHeight)

def preferenceAtHeight (t : Topological F) (height : ℕ) : Option Id :=
  if height = t.lastAcceptedHeight then some t.lastAcceptedId else t.preferredHeights[height]?

def getParent (t : Topological F) (id : Id) : Option Id := do
  let n ← t.blocks[id]?
  let blk ← n.blk
  some blk.parent

/-- Adds a block below a known one. -/
def add (t : Topological F) (block : Block) : Except SnowError (Topological F) :=
  if t.processing block.id then .error .duplicateAdd
  else
    match t.blocks[block.parent]? with
    | none => .error .unknownParentBlock
    | some parentNode =>
      let t := { t with
        blocks := (t.blocks.insert block.parent
          (parentNode.addChild t.params block)).insert block.id
          (SnowmanBlock.processing block) }
      -- extending the preference makes this the new preference
      if t.preference = block.parent then
        .ok { t with
          preference := block.id
          preferredIds := t.preferredIds.insert block.id
          preferredHeights := t.preferredHeights.insert block.height block.id }
      else .ok t

/-- One step from the preferred block down to the last accepted one. -/
def ancestorStep (s : Topological F × Id) : Option (Topological F × Id) := do
  let (t, cursor) := s
  let block ← t.blocks[cursor]?
  if block.decided t.lastAcceptedHeight then none
  else
    let blk ← block.blk
    some ({ t with
      preferredIds := t.preferredIds.insert cursor
      preferredHeights := t.preferredHeights.insert blk.height cursor }, blk.parent)

/-- One step from the preferred block to its preferred child. -/
def descendantStep (s : Topological F × Id) : Option (Topological F × Id) := do
  let (t, cursor) := s
  let block ← t.blocks[cursor]?
  let sb ← block.sb
  let next := sb.preference
  let preferredHeights :=
    match t.blocks[next]? >>= SnowmanBlock.blk with
    | some blk => t.preferredHeights.insert blk.height next
    | none => t.preferredHeights
  some ({ t with
    preference := next
    preferredIds := t.preferredIds.insert next
    preferredHeights := preferredHeights }, next)

/-- Records the results of a network poll. -/
def recordPoll (t : Topological F) (voteBag : Bag Id) : Except Fault (Topological F) := do
  let t := { t with pollNumber := saturatingSucc64 t.pollNumber }
  let voteStack ←
    if voteBag.len ≥ t.params.alphaPreference.toNat then do
      let k ← t.calculateInDegree voteBag
      t.pushVotes k
    else pure []
  let (t, preferred) ← t.vote voteStack
  if t.preferredIds.contains preferred then return t
  let t := { t with preferredIds := ∅, preferredHeights := ∅, preference := preferred }
  let (t, _) ← Loop.run (fun s ↦ .ok (ancestorStep s)) .diverges (t.blocks.size + 1)
    (t, t.preference)
  let (t, _) ← Loop.run (fun s ↦ .ok (descendantStep s)) .diverges (t.blocks.size + 1)
    (t, t.preference)
  return t

end Topological

end Avalanche
