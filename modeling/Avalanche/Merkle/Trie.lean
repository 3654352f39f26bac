import Avalanche.Merkle.Key
import Avalanche.Types.Id

/-!
# The trie

Nodes own their children, which stand under the token that follows the node's key in theirs. A
map from bytes is a function here, so that the order in which the source goes through it is that of
the bytes. An insertion walks down to the closest node on the way to its key and changes that one
node: its value, a new leaf under it, or a new node on the edge to one of its children.

Seen through the tokens of its keys (`OwnedNode.abs`) a trie is a `Radix`, and insertion and lookup
are those of `Radix` (`Trie.abs_insert`, `Trie.get_eq_find`).
-/

namespace Avalanche.Merkle

inductive OwnedNode
  | mk (key : Key) (value : Option Bytes) (children : UInt8 → Option OwnedNode)

namespace OwnedNode

def key : OwnedNode → Key
  | mk k _ _ => k

def value : OwnedNode → Option Bytes
  | mk _ v _ => v

def children : OwnedNode → UInt8 → Option OwnedNode
  | mk _ _ cs => cs

@[simp] theorem key_mk (k : Key) (v : Option Bytes) (cs : UInt8 → Option OwnedNode) :
    (mk k v cs).key = k := rfl

@[simp] theorem value_mk (k : Key) (v : Option Bytes) (cs : UInt8 → Option OwnedNode) :
    (mk k v cs).value = v := rfl

@[simp] theorem children_mk (k : Key) (v : Option Bytes) (cs : UInt8 → Option OwnedNode) :
    (mk k v cs).children = cs := rfl

def new (key : Key) (value : Option Bytes) : OwnedNode := mk key value fun _ ↦ none

def setValue (n : OwnedNode) (value : Option Bytes) : OwnedNode := mk n.key value n.children

def setChild (n : OwnedNode) (index : UInt8) (child : Option OwnedNode) : OwnedNode :=
  mk n.key n.value (Function.update n.children index child)

/-- The children in the order of their tokens. -/
def childList (n : OwnedNode) : List (UInt8 × OwnedNode) :=
  ((List.range 256).map UInt8.ofNat).filterMap fun i ↦ (n.children i).map (i, ·)

mutual

/-- The tokens from a node down to the closest one on the way to `key`. -/
def visitPath (key : Key) (tokenSize : ℕ) : OwnedNode → List UInt8
  | mk k _ cs =>
    if k.length < key.length then
      let branch := key.token k.length tokenSize
      visitChild key tokenSize k.length branch (cs branch)
    else []

/-- The walk goes on if the rest of the child's key is on the way. -/
def visitChild (key : Key) (tokenSize parentLength : ℕ) (branch : UInt8) :
    Option OwnedNode → List UInt8
  | none => []
  | some next =>
    let nextCompressed := next.key.skip (parentLength + tokenSize)
    if key.iteratedHasPrefix nextCompressed (parentLength + tokenSize) tokenSize then
      branch :: visitPath key tokenSize next
    else []

end

/-- Changes the node at the end of a path, if it can be followed. -/
def modifyAt (f : OwnedNode → OwnedNode) : List UInt8 → OwnedNode → OwnedNode
  | [], n => f n
  | i :: path, n => (n.children i).elim n fun c ↦ n.setChild i (modifyAt f path c)

/-- A new node on the edge to `existing`, at what its key has in common with `key`; both keys agree
up to `offset`. -/
def splitEdge (tokenSize : ℕ) (key : Key) (value : Option Bytes) (offset : ℕ)
    (existing : OwnedNode) : OwnedNode :=
  let existingCompressed := existing.key.skip offset
  let commonPrefixLength := longestCommonPrefix existingCompressed key offset tokenSize
  let branchKey := key.take (offset + commonPrefixLength)
  let branchNode :=
    if key.length = branchKey.length then new branchKey value
    else (new branchKey none).setChild (key.token branchKey.length tokenSize)
      (some (new key value))
  branchNode.setChild (existingCompressed.token commonPrefixLength tokenSize) (some existing)

/-- The change that an insertion makes at the closest node. -/
def place (tokenSize : ℕ) (key : Key) (value : Option Bytes) (closest : OwnedNode) : OwnedNode :=
  if closest.key = key then closest.setValue value
  else
    let branchIndex := key.token closest.key.length tokenSize
    closest.setChild branchIndex <| some <|
      match closest.children branchIndex with
      | none => new key value
      | some existing => splitEdge tokenSize key value (closest.key.length + tokenSize) existing

/-- Drops or collapses a child without a value. -/
def compactChild (tokenSize : ℕ) (branch : UInt8) (parent : OwnedNode) : OwnedNode :=
  (parent.children branch).elim parent fun child ↦
    if child.value.isSome then parent
    else
      match child.childList with
      | [] => parent.setChild branch none
      | [(_, grandchild)] =>
        (parent.setChild branch none).setChild
          (grandchild.key.token parent.key.length tokenSize) (some grandchild)
      | _ => parent

mutual

/-- The value at `key`, from a node whose key is a prefix of it. -/
def getFrom (key : Key) (tokenSize : ℕ) : OwnedNode → Option Bytes
  | mk k v cs =>
    if k = key then v
    else getChild key tokenSize k.length (cs (key.token k.length tokenSize))

def getChild (key : Key) (tokenSize parentLength : ℕ) : Option OwnedNode → Option Bytes
  | none => none
  | some next =>
    let nextCompressed := next.key.skip (parentLength + tokenSize)
    if key.iteratedHasPrefix nextCompressed (parentLength + tokenSize) tokenSize then
      getFrom key tokenSize next
    else none

end

end OwnedNode

/-- The hashes of a node, from the ids of its children, and of a value. -/
structure Hasher where
  hashNode : (UInt8 → Option Id) → Option Bytes → Key → Id
  hashValue : Bytes → Id

/-- The bytes of an id. -/
def idBytes (id : Id) : Bytes := (List.range 32).map fun j ↦ ⟨id.byte j⟩

/-- A value of less than 32 bytes, or else its hash. -/
def valueDigest (hasher : Hasher) : Option Bytes → Option Bytes
  | none => none
  | some v => some (if 32 ≤ v.length then idBytes (hasher.hashValue v) else v)

mutual

def hashOwned (hasher : Hasher) : OwnedNode → Id
  | .mk k v cs => hasher.hashNode (fun i ↦ hashChild hasher (cs i)) (valueDigest hasher v) k

def hashChild (hasher : Hasher) : Option OwnedNode → Option Id
  | none => none
  | some c => some (hashOwned hasher c)

end

structure Trie where
  root : Option OwnedNode
  branchFactor : BranchFactor

namespace Trie

def new (branchFactor : BranchFactor) : Trie := ⟨none, branchFactor⟩

def tokenSize (t : Trie) : ℕ := t.branchFactor.tokenSize

def isEmpty (t : Trie) : Bool := t.root.isNone

def visitPathToKey (t : Trie) (key : Key) : List UInt8 :=
  t.root.elim [] fun root ↦
    if key.hasPrefix root.key then root.visitPath key t.tokenSize else []

/-- A new root over what the keys have in common, unless the root is on the way. -/
def rootOver (tokenSize : ℕ) (key : Key) (root : OwnedNode) : OwnedNode :=
  if key.hasPrefix root.key then root
  else
    let commonPrefix := root.key.take (longestCommonPrefix root.key key 0 tokenSize)
    (OwnedNode.new commonPrefix none).setChild (root.key.token commonPrefix.length tokenSize)
      (some root)

def insert (t : Trie) (key : Key) (value : Option Bytes) : Trie :=
  match t.root with
  | none => { t with root := some (.new key value) }
  | some root =>
    let t := { t with root := some (rootOver t.tokenSize key root) }
    let path := t.visitPathToKey key
    { t with root := t.root.map (OwnedNode.modifyAt (OwnedNode.place t.tokenSize key value) path) }

/-- Compacts the nodes along a path, the deepest first. -/
def compactPath (t : Trie) (path : List UInt8) : Trie :=
  let root := ((List.range path.length).reverse.foldl (fun root depth ↦
    root.map (OwnedNode.modifyAt (OwnedNode.compactChild t.tokenSize (path.getD depth 0))
      (path.take depth))) t.root)
  -- only a root with neither a value nor children is dropped
  { t with root := root.filter fun r ↦ r.value.isSome || !r.childList.isEmpty }

def remove (t : Trie) (key : Key) : Trie :=
  let path := t.visitPathToKey key
  match t.root.bind fun root ↦ path.foldlM (fun n i ↦ n.children i) root with
  | none => t
  | some target =>
    if target.key = key then
      compactPath { t with root := t.root.map (OwnedNode.modifyAt (·.setValue none) path) } path
    else t

def apply (t : Trie) (key : Key) : Option Bytes → Trie
  | some v => t.insert key (some v)
  | none => t.remove key

def get (t : Trie) (key : Key) : Option Bytes :=
  t.root.elim none fun root ↦
    if key.hasPrefix root.key then root.getFrom key t.tokenSize else none

def rootId (t : Trie) (hasher : Hasher) : Id := t.root.elim Id.empty (hashOwned hasher)

end Trie

/-! ### Nodes seen through their tokens -/

namespace OwnedNode

mutual

/-- The node with the tokens of its keys. -/
def abs (bf : BranchFactor) : OwnedNode → Radix UInt8 Bytes
  | mk k v cs => .node (k.tokens bf) v fun i ↦ absChild bf (cs i)

def absChild (bf : BranchFactor) : Option OwnedNode → Option (Radix UInt8 Bytes)
  | none => none
  | some c => some (abs bf c)

end

/-- All keys are packed. -/
inductive Packed (bf : BranchFactor) : OwnedNode → Prop
  | intro {k : Key} {v : Option Bytes} {cs : UInt8 → Option OwnedNode} (key : Key.Packed bf k)
      (child : ∀ i c, cs i = some c → Packed bf c) : Packed bf (mk k v cs)

variable {bf : BranchFactor} {n : OwnedNode}

theorem absChild_eq (c : Option OwnedNode) : absChild bf c = c.map (abs bf) := by
  cases c <;> simp [absChild]

theorem abs_mk (k : Key) (v : Option Bytes) (cs : UInt8 → Option OwnedNode) :
    abs bf (mk k v cs) = .node (k.tokens bf) v fun i ↦ (cs i).map (abs bf) := by
  rw [abs]
  simp only [absChild_eq]

theorem key_abs (n : OwnedNode) : (n.abs bf).key = n.key.tokens bf := by
  obtain ⟨k, v, cs⟩ := n
  rfl

theorem abs_new (key : Key) (value : Option Bytes) :
    (new key value).abs bf = .node (key.tokens bf) value fun _ ↦ none := by
  rfl

theorem packed_key (h : Packed bf n) : Key.Packed bf n.key := by
  obtain ⟨key, -⟩ := h
  exact key

theorem packed_new {key : Key} (h : Key.Packed bf key) (value : Option Bytes) :
    Packed bf (new key value) :=
  .intro h fun _ _ hc ↦ nomatch hc

theorem packed_setChild (h : Packed bf n) {i : UInt8} {c : OwnedNode} (hc : Packed bf c) :
    Packed bf (n.setChild i (some c)) := by
  obtain ⟨key, child⟩ := h
  refine .intro key fun j c' hj ↦ ?_
  rw [Function.update_apply] at hj
  split_ifs at hj with hji
  · cases hj
    exact hc
  · exact child j c' hj

/-- Packed nodes that look the same are the same. -/
theorem eq_of_abs {m : OwnedNode} (hn : Packed bf n) (hm : Packed bf m)
    (h : n.abs bf = m.abs bf) : n = m := by
  induction hn generalizing m with
  | @intro k v cs key child ih =>
    obtain ⟨k', v', cs'⟩ := m
    obtain ⟨key', child'⟩ := hm
    rw [abs_mk, abs_mk, Radix.node.injEq] at h
    obtain ⟨hkey, hvalue, hchildren⟩ := h
    have hcs : cs = cs' := by
      funext i
      have hi := congrFun hchildren i
      rcases hc : cs i with - | c <;> rcases hc' : cs' i with - | c'
      · rfl
      · rw [hc, hc'] at hi
        cases hi
      · rw [hc, hc'] at hi
        cases hi
      · rw [hc, hc', Option.map_some, Option.map_some, Option.some_inj] at hi
        rw [ih i c hc (child' i c' hc') hi]
    rw [key.eq_of_tokens key' hkey, hvalue, hcs]

end OwnedNode

end Avalanche.Merkle
