import Avalanche.Types.Id
import Avalanche.Utils.Bag
import Avalanche.Snow.Factory

/-!
# The snowball tree

A modified patricia tree over 256-bit choices. A *unary* node stands for a run of unary instances
that have always been polled together, a *binary* node decides a single bit. Votes are routed down
the path their bits name.

A poll that misses the threshold must reset every instance below. The tree defers that: the flag
`shouldReset` of a node says that its own instance is already reset and that the reset still has to
be handed to what lies below, which happens the next time a poll descends there.

An absent child (`None` in the source) and the transient placeholder (`Node::Empty`) are both
`Node.empty`: adding to it or polling it does nothing, which is what the source does with `None`.
The two-element arrays of a binary node are functions of the bit.
-/

namespace Avalanche

/-- A node of the patricia tree: a unary run or a single binary split. -/
inductive Node (F : Factory) where
  /-- Identical unary instances over the bits `[decidedPrefix, commonPrefix)`. -/
  | unary (preference : Id) (decidedPrefix commonPrefix : ℕ) (snow : F.Unary)
      (shouldReset : Bool) (child : Node F)
  /-- A single binary instance deciding on `bit`. -/
  | binary (preferences : Bool → Id) (bit : ℕ) (snow : F.Binary)
      (shouldReset : Bool → Bool) (children : Bool → Node F)
  /-- No node. -/
  | empty

namespace Node

variable {F : Factory}

/-- The choice this subtree prefers. -/
def preference : Node F → Id
  | unary preference _ _ _ _ _ => preference
  | binary preferences _ snow _ _ => preferences (F.binaryPreference snow)
  | empty => Id.empty

/-- The number of bits decided above this node. -/
def decidedPrefix : Node F → ℕ
  | unary _ decidedPrefix _ _ _ _ => decidedPrefix
  | binary _ bit _ _ _ => bit
  | empty => numBits

/-- Whether the instance of this node is finalized. -/
def finalized : Node F → Bool
  | unary _ _ _ snow _ _ => F.unaryFinalized snow
  | binary _ _ snow _ _ => F.binaryFinalized snow
  | empty => false

/-- Whether there is a node here. -/
def isSome : Node F → Bool
  | empty => false
  | _ => true

/-- The branch of a newly added choice: one run down to the last bit. -/
def newChild (params : Parameters) (newChoice : Id) (index : ℕ) : Node F :=
  .unary newChoice (index + 1) numBits (F.newUnary params) false .empty

/-- Splits a unary run at `index`, the first bit where `newChoice` leaves its preference. -/
def split (params : Parameters) (newChoice preference : Id) (decidedPrefix commonPrefix : ℕ)
    (snow : F.Unary) (shouldReset : Bool) (child : Node F) (index : ℕ) : Node F :=
  let bit := preference.bit index
  let b (children : Bool → Node F) : Node F :=
    .binary (fun side ↦ if side = bit then preference else newChoice) index (F.extend snow bit)
      (fun _ ↦ shouldReset) children
  let newChild := newChild params newChoice index
  if decidedPrefix = commonPrefix - 1 then
    -- only voting over one bit
    b fun side ↦ if side = bit then child else if child.isSome then newChild else .empty
  else if index = decidedPrefix then
    -- split on the first bit
    b fun side ↦
      if side = bit then .unary preference (decidedPrefix + 1) commonPrefix snow shouldReset child
      else newChild
  else if index = commonPrefix - 1 then
    -- split on the last bit
    .unary preference decidedPrefix (commonPrefix - 1) snow shouldReset
      (b fun side ↦ if side = bit then child else if child.isSome then newChild else .empty)
  else
    -- split on an interior bit
    .unary preference decidedPrefix index snow false
      (b fun side ↦
        if side = bit then .unary preference (index + 1) commonPrefix snow shouldReset child
        else newChild)

/-- Adds a choice below this node. -/
def add (params : Parameters) (newChoice : Id) : Node F → Node F
  | unary preference decidedPrefix commonPrefix snow shouldReset child =>
    if F.unaryFinalized snow then
      .unary preference decidedPrefix commonPrefix snow shouldReset child
    else
      match firstDifferenceSubset decidedPrefix commonPrefix preference newChoice with
      | none =>
        .unary preference decidedPrefix commonPrefix snow shouldReset (child.add params newChoice)
      | some index =>
        split params newChoice preference decidedPrefix commonPrefix snow shouldReset child index
  | binary preferences bit snow shouldReset children =>
    .binary preferences bit snow shouldReset fun side ↦
      if side = newChoice.bit bit then (children side).add params newChoice else children side
  | empty => .empty

/-- Routes a poll down this subtree, after handing down a pending `reset`. Returns the node that
takes this node's place and whether the poll was successful here. -/
def recordPoll (params : Parameters) : Node F → Bag Id → Bool → Node F × Bool
  | unary preference decidedPrefix commonPrefix snow shouldReset child, votes, reset =>
    let snow := if reset then F.unaryRecordUnsuccessfulPoll snow else snow
    let shouldReset := shouldReset || reset
    let numVotes := saturatingU32 votes.len
    if numVotes < params.alphaPreference.toNat then
      (.unary preference decidedPrefix commonPrefix (F.unaryRecordUnsuccessfulPoll snow) true child,
        false)
    else
      let snow := F.unaryRecordPoll snow numVotes
      if child.isSome then
        let newChild := (child.recordPoll params votes shouldReset).1
        -- once decided, the child takes over
        if F.unaryFinalized snow then (newChild, true)
        else (.unary newChild.preference decidedPrefix commonPrefix snow false newChild, true)
      else (.unary preference decidedPrefix commonPrefix snow false child, true)
  | binary preferences bitIndex snow shouldReset children, votes, reset =>
    let split1 := votes.filter fun id ↦ id.bit bitIndex
    let split0 := votes.filter fun id ↦ !id.bit bitIndex
    -- only care which bit is set if a successful poll can happen
    let bit := decide (saturatingU32 split1.len ≥ params.alphaPreference.toNat)
    let snow := if reset then F.binaryRecordUnsuccessfulPoll snow else snow
    let shouldReset := if reset then Function.update shouldReset bit true else shouldReset
    let shouldReset := Function.update shouldReset (!bit) true
    let prunedVotes := if bit then split1 else split0
    let numVotes := saturatingU32 prunedVotes.len
    if numVotes < params.alphaPreference.toNat then
      (.binary preferences bitIndex (F.binaryRecordUnsuccessfulPoll snow)
        (Function.update shouldReset bit true) children, false)
    else
      let snow := F.binaryRecordPoll snow numVotes bit
      if (children bit).isSome then
        let newChild := ((children bit).recordPoll params prunedVotes (shouldReset bit)).1
        -- decided by this poll, on `bit`
        if F.binaryFinalized snow then (newChild, true)
        else
          (.binary (Function.update preferences bit newChild.preference) bitIndex snow
            (Function.update shouldReset bit false) (Function.update children bit newChild), true)
      else (.binary preferences bitIndex snow (Function.update shouldReset bit false) children,
        true)
  | empty, _, _ => (.empty, false)

end Node

/-- A patricia tree of snow instances over 256-bit choices. -/
structure Tree (F : Factory) where
  /-- The root node, holding the whole subtree. -/
  node : Node F
  /-- The configuration applied to every instance. -/
  params : Parameters
  /-- A reset to hand to the root on the next poll. -/
  shouldReset : Bool

namespace Tree

variable {F : Factory}

/-- A tree initially preferring `choice`. -/
def new (F : Factory) (params : Parameters) (choice : Id) : Tree F :=
  ⟨.unary choice 0 numBits (F.newUnary params) false .empty, params, false⟩

def preference (t : Tree F) : Id := t.node.preference

def finalized (t : Tree F) : Bool := t.node.finalized

/-- Adds a choice, unless it was already decided against. -/
def add (t : Tree F) (choice : Id) : Tree F :=
  if equalSubset 0 t.node.decidedPrefix t.node.preference choice then
    { t with node := t.node.add t.params choice }
  else t

/-- Records a poll; votes for choices that were decided against are dropped. -/
def recordPoll (t : Tree F) (votes : Bag Id) : Tree F × Bool :=
  let filtered := votes.filter fun id ↦ equalSubset 0 t.node.decidedPrefix t.preference id
  let (newNode, successful) := t.node.recordPoll t.params filtered t.shouldReset
  ({ t with node := newNode, shouldReset := false }, successful)

/-- Defers a reset of every instance to the next poll. -/
def recordUnsuccessfulPoll (t : Tree F) : Tree F := { t with shouldReset := true }

end Tree

end Avalanche
