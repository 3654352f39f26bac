import Avalanche.Evm.Header
import Avalanche.Library.TreeMap
import Avalanche.Library.Loop

/-!
# The state of record

The state of the EVM is a map in a Firewood database: account leaves under addresses and storage
leaves under an address and a slot (the source hashes both, the model keeps the names). The database
has a committed tip and keeps a number of earlier revisions; the root of a map is its identity.

What executing a block changes is turned into a list of batch operations. They are proposed against
the tip, which gives the root they lead to, and put aside *under that root*; committing a root takes
the operations put aside under it and applies them to whatever the tip is by then.
-/

namespace Avalanche.Evm

open Std
open Except (orError)

structure Account where
  nonce : ℕ
  balance : ℕ
  /-- `none` for the hash of no code. -/
  bytecodeHash : Option B256
deriving DecidableEq

/-- `AccountInfo::default`. -/
def Account.default : Account := ⟨0, 0, none⟩

/-- The place of a storage leaf. -/
def storageKey (addr : Address) (slot : B256) : BitVec 416 := addr ++ slot

structure World where
  accounts : ExtTreeMap Address Account
  storage : ExtTreeMap (BitVec 416) ℕ
deriving DecidableEq

inductive BatchOp
  | putAccount (addr : Address) (account : Account)
  | deleteAccount (addr : Address)
  | putSlot (addr : Address) (slot : B256) (value : ℕ)
  | deleteSlot (addr : Address) (slot : B256)
  /-- Every leaf under an address. -/
  | deleteRange (addr : Address)
deriving DecidableEq

abbrev FirewoodOps := List BatchOp

namespace World

def empty : World := ⟨∅, ∅⟩

/-- `basic_account`. -/
def basicAccount (w : World) (addr : Address) : Option Account := w.accounts[addr]?

def applyOp (w : World) : BatchOp → World
  | .putAccount addr account => { w with accounts := w.accounts.insert addr account }
  | .deleteAccount addr => { w with accounts := w.accounts.erase addr }
  | .putSlot addr slot value => { w with storage := w.storage.insert (storageKey addr slot) value }
  | .deleteSlot addr slot => { w with storage := w.storage.erase (storageKey addr slot) }
  | .deleteRange addr =>
    { accounts := w.accounts.erase addr
      storage := w.storage.filter fun key _ ↦ key.extractLsb' 256 160 ≠ addr }

/-- The map a proposal of `ops` against `w` stands for. -/
def propose (w : World) (ops : FirewoodOps) : World := ops.foldl applyOp w

end World

/-! ### From a state change to operations -/

structure HashedStorage where
  wiped : Bool
  storage : ExtTreeMap B256 ℕ

/-- What a block changes: an account is replaced or destroyed, its slots are written. -/
structure HashedPostState where
  accounts : ExtTreeMap Address (Option Account)
  storages : ExtTreeMap Address HashedStorage

def HashedStorage.ops (addr : Address) (s : HashedStorage) : FirewoodOps :=
  (if s.wiped then [.deleteRange addr] else []) ++
    s.storage.toList.map fun p ↦
      if p.2 = 0 then .deleteSlot addr p.1 else .putSlot addr p.1 p.2

/-- The storage first, then the accounts. -/
def hashedPostStateToBatchops (h : HashedPostState) : FirewoodOps :=
  h.storages.toList.flatMap (fun p ↦ p.2.ops p.1) ++
    h.accounts.toList.map fun p ↦
      match p.2 with
      | none => .deleteAccount p.1
      | some account => .putAccount p.1 account

/-! ### The database -/

/-- The root of a map, which no other map has. -/
structure Hashing (R : Type) where
  root : World → R
  injective : Function.Injective root

/-- `MAX_REVISIONS`. -/
def maxRevisions : ℕ := 256

structure Db where
  tip : World
  /-- The revisions before the tip that are still there, the last one first. -/
  older : List World

namespace Db

def commit (d : Db) (w : World) : Db := ⟨w, (d.tip :: d.older).take (maxRevisions - 1)⟩

end Db

structure FirewoodStateProvider (R : Type) where
  db : Db
  stash : R → Option FirewoodOps

namespace FirewoodStateProvider

variable {R : Type} [DecidableEq R] (hashing : Hashing R)

/-- `Db::new` over a database whose tip is `w`, with nothing put aside. -/
def openAt (d : Db) : FirewoodStateProvider R := ⟨d, fun _ ↦ none⟩

def root (p : FirewoodStateProvider R) : R := hashing.root p.db.tip

def historyByStateRoot (p : FirewoodStateProvider R) (root : R) : Except Error World :=
  orError ((p.db.tip :: p.db.older).find? fun w ↦ hashing.root w = root) .stateForHashNotFound

def stashProposal (p : FirewoodStateProvider R) (root : R) (ops : FirewoodOps) :
    FirewoodStateProvider R :=
  { p with stash := Function.update p.stash root (some ops) }

def proposeAndStash (p : FirewoodStateProvider R) (ops : FirewoodOps) :
    R × FirewoodStateProvider R :=
  let root := hashing.root (p.db.tip.propose ops)
  (root, p.stashProposal root ops)

def proposeFromBundle (p : FirewoodStateProvider R) (bundle : HashedPostState) :
    R × FirewoodStateProvider R :=
  p.proposeAndStash hashing (hashedPostStateToBatchops bundle)

/-- `discard`, and the second half of `take_stashed`. -/
def discard (p : FirewoodStateProvider R) (root : R) : FirewoodStateProvider R :=
  { p with stash := Function.update p.stash root none }

/-- The operations are taken out of the stash before they are committed, and what they lead to is
not compared with the root. -/
def commit (p : FirewoodStateProvider R) (root : R) : Except Error (FirewoodStateProvider R) := do
  let ops ← orError (p.stash root) .missingProposal
  .ok { p.discard root with db := p.db.commit (p.db.tip.propose ops) }

/-- What a commit of the operations put aside under a root leaves. -/
abbrev committed (p : FirewoodStateProvider R) (root : R) (ops : FirewoodOps) :
    FirewoodStateProvider R :=
  { p.discard root with db := p.db.commit (p.db.tip.propose ops) }

theorem commit_of_stash {p : FirewoodStateProvider R} {root : R} {ops : FirewoodOps}
    (h : p.stash root = some ops) : p.commit root = .ok (p.committed root ops) := by
  simp [commit, h, orError]

@[simp] theorem discard_stashProposal (p : FirewoodStateProvider R) (root : R) (ops : FirewoodOps) :
    (p.stashProposal root ops).discard root = p.discard root := by
  simp [stashProposal, discard]

/-- The tip is a revision like any other, and the first to be found. -/
theorem historyByStateRoot_root (p : FirewoodStateProvider R) :
    p.historyByStateRoot hashing (p.root hashing) = .ok p.db.tip := by
  simp [historyByStateRoot, root, orError]

end FirewoodStateProvider

end Avalanche.Evm
