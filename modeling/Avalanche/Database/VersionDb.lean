import Avalanche.Library.Overlay

/-!
# An overlay over a database

A `VersionDb` keeps the writes that have not been committed in memory, over a base database. A read
looks there first. Committing writes all of them to the base and forgets them; a commit batch is the
same list of writes, handed out to be written to the base later, and they are kept.

The base is an in-memory database. The order in which the hash map of pending writes lists its
entries is a parameter.
-/

open Std Overlay

namespace Avalanche.Database

abbrev Bytes := List UInt8

inductive Error
  | closed
  | notFound
deriving DecidableEq

/-! ### Batches -/

structure BatchOp where
  key : Bytes
  value : Bytes
  delete : Bool
deriving DecidableEq

/-- The recorded writes, in order. -/
structure BatchOps where
  ops : List BatchOp := []

namespace BatchOps

def put (b : BatchOps) (key value : Bytes) : BatchOps := ⟨b.ops ++ [⟨key, value, false⟩]⟩

def delete (b : BatchOps) (key : Bytes) : BatchOps := ⟨b.ops ++ [⟨key, [], true⟩]⟩

end BatchOps

/-! ### The base -/

/-- An in-memory database, which is closed if there is no map. -/
structure MemDb where
  db : Option (ExtTreeMap Bytes Bytes)

namespace MemDb

def has (d : MemDb) (key : Bytes) : Except Error Bool :=
  match d.db with
  | none => .error .closed
  | some map => .ok (map.contains key)

def get (d : MemDb) (key : Bytes) : Except Error Bytes :=
  match d.db with
  | none => .error .closed
  | some map => map[key]?.elim (.error .notFound) .ok

/-- One write of a batch. -/
def writeOp (map : ExtTreeMap Bytes Bytes) (op : BatchOp) : ExtTreeMap Bytes Bytes :=
  if op.delete then map.erase op.key else map.insert op.key op.value

def write (d : MemDb) (b : BatchOps) : Except Error MemDb :=
  match d.db with
  | none => .error .closed
  | some map => .ok ⟨some (b.ops.foldl writeOp map)⟩

/-- The loop of `snapshot`, over the entries from its lower bound on. -/
def snapshotLoop (start pre : Bytes) : List (Bytes × Bytes) → List (Bytes × Bytes)
  | [] => []
  | (k, v) :: rest =>
    if !pre.isPrefixOf k then
      if compare k pre = .lt then snapshotLoop start pre rest else []
    else if compare k start = .lt then snapshotLoop start pre rest
    else (k, v) :: snapshotLoop start pre rest

/-- The entries with a prefix, from a start on. -/
def snapshot (d : MemDb) (start pre : Bytes) : Except Error (List (Bytes × Bytes)) :=
  match d.db with
  | none => .error .closed
  | some map =>
    let lower := if compare start pre = .gt then start else pre
    .ok (snapshotLoop start pre (map.toList.filter fun p ↦ compare p.1 lower ≠ .lt))

end MemDb

/-! ### The overlay -/

/-- A value to be written, or a deletion. -/
structure ValueOrDelete where
  value : Bytes
  delete : Bool
deriving DecidableEq

abbrev Mem := ExtTreeMap Bytes ValueOrDelete

/-- An order in which a hash map lists its entries. -/
structure HashOrder where
  list : Mem → List (Bytes × ValueOrDelete)
  perm : ∀ mem, (list mem).Perm mem.toList

structure Inner where
  mem : Mem
  db : MemDb

/-- A database with an overlay, which is closed if there is nothing in it. -/
structure VersionDb where
  inner : Option Inner

namespace VersionDb

def new (db : MemDb) : VersionDb := ⟨some ⟨∅, db⟩⟩

variable (order : HashOrder)

/-- The pending writes as a batch. -/
def pendingBatch (mem : Mem) : BatchOps :=
  (order.list mem).foldl
    (fun batch p ↦ if p.2.delete then batch.delete p.1 else batch.put p.1 p.2.value) {}

def commit (v : VersionDb) : Except Error VersionDb :=
  match v.inner with
  | none => .error .closed
  | some inner => do
    let db ← inner.db.write (pendingBatch order inner.mem)
    .ok ⟨some ⟨∅, db⟩⟩

def abort (v : VersionDb) : VersionDb := ⟨v.inner.map fun inner ↦ { inner with mem := ∅ }⟩

def commitBatch (v : VersionDb) : Except Error BatchOps :=
  match v.inner with
  | none => .error .closed
  | some inner => .ok (pendingBatch order inner.mem)

/-- `VersionCommitBatch::write`: a batch of the base with the writes of another. -/
def writeCommitBatch (v : VersionDb) (b : BatchOps) : Except Error VersionDb :=
  match v.inner with
  | none => .error .closed
  | some inner => do
    let batch := b.ops.foldl
      (fun (batch : BatchOps) op ↦
        if op.delete then batch.delete op.key else batch.put op.key op.value) {}
    let db ← inner.db.write batch
    .ok ⟨some { inner with db := db }⟩

def has (v : VersionDb) (key : Bytes) : Except Error Bool :=
  match v.inner with
  | none => .error .closed
  | some inner =>
    match inner.mem[key]? with
    | some vd => .ok (!vd.delete)
    | none => inner.db.has key

def get (v : VersionDb) (key : Bytes) : Except Error Bytes :=
  match v.inner with
  | none => .error .closed
  | some inner =>
    match inner.mem[key]? with
    | some vd => if vd.delete then .error .notFound else .ok vd.value
    | none => inner.db.get key

def put (v : VersionDb) (key value : Bytes) : Except Error VersionDb :=
  match v.inner with
  | none => .error .closed
  | some inner => .ok ⟨some { inner with mem := inner.mem.insert key ⟨value, false⟩ }⟩

def delete (v : VersionDb) (key : Bytes) : Except Error VersionDb :=
  match v.inner with
  | none => .error .closed
  | some inner => .ok ⟨some { inner with mem := inner.mem.insert key ⟨[], true⟩ }⟩

/-- `VersionBatch::write`: the writes go into the overlay. -/
def writeBatch (v : VersionDb) (b : BatchOps) : Except Error VersionDb :=
  match v.inner with
  | none => .error .closed
  | some inner =>
    .ok ⟨some { inner with
      mem := b.ops.foldl (fun mem op ↦ mem.insert op.key ⟨op.value, op.delete⟩) inner.mem }⟩

end VersionDb

/-! ### The iterator -/

/-- What is left of the overlay and of the base, and the entry shown. -/
structure VersionIterator where
  entries : List (Bytes × ValueOrDelete) := []
  baseEntries : List (Bytes × Bytes) := []
  baseErr : Option Error := none
  key : Option Bytes := none
  value : Option Bytes := none
  err : Option Error := none

namespace VersionIterator

/-- The loop of `next`: the next entry, and what is left. Every round that shows none takes an entry
off the overlay. -/
def loop : List (Bytes × ValueOrDelete) → List (Bytes × Bytes) →
    Option (Bytes × Bytes) × List (Bytes × ValueOrDelete) × List (Bytes × Bytes)
  | [], [] => (none, [], [])
  | (k, vd) :: entries, [] =>
    if !vd.delete then (some (k, vd.value), entries, []) else loop entries []
  | [], (k, v) :: base => (some (k, v), [], base)
  | (memKey, vd) :: entries, (dbKey, v) :: base =>
    if compare memKey dbKey = .lt then
      if !vd.delete then (some (memKey, vd.value), entries, (dbKey, v) :: base)
      else loop entries ((dbKey, v) :: base)
    else if compare dbKey memKey = .lt then (some (dbKey, v), (memKey, vd) :: entries, base)
    else if !vd.delete then (some (memKey, vd.value), entries, base)
    else loop entries base

/-- A call of `next`, on an iterator of `v`. -/
def next (v : VersionDb) (it : VersionIterator) : VersionIterator × Bool :=
  if v.inner.isNone then ({ it with key := none, value := none, err := some .closed }, false)
  else
    let (entry, entries, baseEntries) := loop it.entries it.baseEntries
    ({ it with
      entries := entries
      baseEntries := baseEntries
      key := entry.map Prod.fst
      value := entry.map Prod.snd }, entry.isSome)

def error (it : VersionIterator) : Except Error Unit :=
  match it.err, it.baseErr with
  | some e, _ => .error e
  | none, some e => .error e
  | none, none => .ok ()

end VersionIterator

def VersionDb.newIteratorWithStartAndPrefix (order : HashOrder) (v : VersionDb)
    (start pre : Bytes) : VersionIterator :=
  match v.inner with
  | none => { err := some .closed }
  | some inner =>
    let entries := (order.list inner.mem).filter fun p ↦
      pre.isPrefixOf p.1 && compare p.1 start ≠ .lt
    let entries := entries.mergeSort fun p q ↦ compare p.1 q.1 ≠ .gt
    match inner.db.snapshot start pre with
    | .ok baseEntries => { entries := entries, baseEntries := baseEntries }
    | .error e => { entries := entries, baseErr := some e }

end Avalanche.Database
