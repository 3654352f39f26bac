import Avalanche.Evm.SharedMemory

/-!
# The canonical store

What is kept of an accepted block beside the state: the root its header declares, its hash under its
number, its number under its hash, its body and its receipts, and how far the chain goes. A block is
appended row by row, each row a write of its own, and the tip last. The number of the block under
the hash of each of its txs comes after the tip.
-/

namespace Avalanche.Evm

open Std
open Except (require orError)

structure CanonicalStore (R : Type) where
  header : ExtTreeMap ℕ R
  canonical : ExtTreeMap ℕ B256
  number : ExtTreeMap B256 ℕ
  body : ExtTreeMap ℕ Bytes
  receipts : ExtTreeMap ℕ Bytes
  txNumber : ExtTreeMap B256 ℕ
  tip : Option ℕ

/-- A row of the store. -/
inductive Row (R : Type)
  | header (number : ℕ) (root : R)
  | canonical (number : ℕ) (hash : B256)
  | number (hash : B256) (number : ℕ)
  | body (number : ℕ) (body : Bytes)
  | receipts (number : ℕ) (receipts : Bytes)
  | txNumber (txHash : B256) (number : ℕ)
  | tip (number : ℕ)

namespace CanonicalStore

variable {R : Type}

def new : CanonicalStore R := ⟨∅, ∅, ∅, ∅, ∅, ∅, none⟩

def put (c : CanonicalStore R) : Row R → CanonicalStore R
  | .header n root => { c with header := c.header.insert n root }
  | .canonical n hash => { c with canonical := c.canonical.insert n hash }
  | .number hash n => { c with number := c.number.insert hash n }
  | .body n body => { c with body := c.body.insert n body }
  | .receipts n receipts => { c with receipts := c.receipts.insert n receipts }
  | .txNumber txHash n => { c with txNumber := c.txNumber.insert txHash n }
  | .tip n => { c with tip := some n }

/-- The number the next block has to have. -/
def next (c : CanonicalStore R) : Except Error ℕ :=
  match c.tip with
  | some tip => orError (checkedAdd tip 1) .feeOverflow
  | none => .ok 1

/-- The rows of a block, in the order in which they are written. -/
def rows (number : ℕ) (hash : B256) (header : R) (body receipts : Bytes) : List (Row R) :=
  [.header number header, .canonical number hash, .number hash number, .body number body,
    .receipts number receipts, .tip number]

def appendCanonical (c : CanonicalStore R) (number : ℕ) (hash : B256) (header : R)
    (body receipts : Bytes) : Except Error (CanonicalStore R) := do
  let expected ← c.next
  require (number = expected) .nilTx
  .ok ((rows number hash header body receipts).foldl put c)

end CanonicalStore

end Avalanche.Evm
