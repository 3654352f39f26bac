import Avalanche.Library.Handler
import Avalanche.Library.Loop
import Avalanche.Library.Wire
import Avalanche.Types.Id

/-!
# The index of accepted containers

Accepted containers are numbered in the order they come in. Three rows are written for each: the
container under its number, the number under the id of the container, and the next number. They are
staged in an overlay over the database and committed together; the next number is also kept in
memory.

A write to the database may fail, and then leaves it as it was. The rows of the source have prefixes
in the database; here each kind has its own kind of key.
-/

open Except (orError require)

namespace Avalanche.Indexer

abbrev Bytes := List UInt8

inductive DbError
  | notFound
  /-- The write failed. -/
  | io
deriving DecidableEq

inductive Error
  | noContainerAtIndex (index : UInt64)
  | database (e : DbError)
  | readFailed (e : DbError)
  | serializeContainer (id : Id)
  | unmarshalContainer
  /-- A packed number that does not have eight bytes. -/
  | unexpectedSize
deriving DecidableEq

/-! ### Containers -/

structure Container where
  id : Id
  bytes : Bytes
  timestamp : Int64
deriving DecidableEq

namespace Container

/-- The fields after the version. -/
def wire : Wire (Id × { l : Bytes // l.length < 2 ^ 32 } × UInt64) :=
  (Wire.word 32).pair ((Wire.list Wire.u8).pair Wire.u64)

/-- A container of `2 ^ 31` bytes or more cannot be written. -/
def marshal (c : Container) : Except Error Bytes :=
  if h : c.bytes.length < 2 ^ 31 then
    .ok (Wire.u16.put 0 ++ wire.put (c.id, ⟨c.bytes, h.trans (by decide)⟩, c.timestamp.toUInt64))
  else .error (.serializeContainer c.id)

def unmarshal (src : Bytes) : Except Error Container := do
  let (version, src) ← orError (Wire.u16.get src) .unmarshalContainer
  require (version = 0) .unmarshalContainer
  let ((id, bytes, timestamp), src) ← orError (wire.get src) .unmarshalContainer
  require (src = []) .unmarshalContainer
  return ⟨id, bytes.1, timestamp.toInt64⟩

theorem unmarshal_of_marshal {c : Container} {bytes : Bytes} (h : c.marshal = .ok bytes) :
    unmarshal bytes = .ok c := by
  rw [marshal] at h
  split at h
  case isFalse => cases h
  case isTrue hlength =>
    cases h
    have hwire := wire.get_put (c.id, ⟨c.bytes, hlength.trans (by decide)⟩, c.timestamp.toUInt64) []
    rw [List.append_nil] at hwire
    refine Except.bind_eq_ok_iff.mpr ⟨_, Except.orError_eq_ok_iff.mpr (Wire.u16.get_put _ _), ?_⟩
    refine Except.bind_unit_eq_ok_iff.mpr ⟨Except.require_eq_ok_iff.mpr rfl, ?_⟩
    refine Except.bind_eq_ok_iff.mpr ⟨_, Except.orError_eq_ok_iff.mpr hwire, ?_⟩
    refine Except.bind_unit_eq_ok_iff.mpr ⟨Except.require_eq_ok_iff.mpr rfl, ?_⟩
    rfl

end Container

/-! ### The database -/

inductive Key
  | nextAcceptedIndex
  /-- A container, under the packed number. -/
  | container (index : Bytes)
  | index (id : Id)
deriving DecidableEq

abbrev Db := Key → Option Bytes

def parseU64 (bytes : Bytes) : Except Error UInt64 :=
  if bytes.length = 8 then do
    let (n, _) ← orError (Wire.u64.get bytes) .unexpectedSize
    return n
  else .error .unexpectedSize

theorem parseU64_put (n : UInt64) : parseU64 (Wire.u64.put n) = .ok n := by
  have hget := Wire.u64.get_put n []
  rw [List.append_nil] at hget
  have hlength : (Wire.u64.put n).length = 8 := Wire.length_be 8 _
  rw [parseU64, if_pos hlength, hget]
  rfl

/-- An index over its database. -/
structure Index where
  nextAcceptedIndex : UInt64
  base : Db
  /-- The rows that have not been committed. -/
  mem : Db

namespace Index

/-- A read through the overlay. -/
def read (s : Index) (key : Key) : Except DbError Bytes :=
  ((s.mem key).or (s.base key)).elim (.error .notFound) .ok

def put (s : Index) (key : Key) (value : Bytes) : Index :=
  { s with mem := Function.update s.mem key (some value) }

/-- Writes the overlay to the database and clears it; `works` says whether the write does. -/
def commit (works : Bool) : Handler Error Index Unit := do
  if works then
    modify fun s ↦ { s with base := fun key ↦ (s.mem key).or (s.base key), mem := fun _ ↦ none }
  else throw (.database .io)

/-- Opens the index over a database. -/
def new (base : Db) : Except Error Index :=
  match base .nextAcceptedIndex with
  | none => .ok ⟨0, base, fun _ ↦ none⟩
  | some bytes => do
    let next ← parseU64 bytes
    return ⟨next, base, fun _ ↦ none⟩

def saturatingAddOne (n : UInt64) : UInt64 := if n = 0xffffffffffffffff then n else n + 1

theorem toNat_saturatingAddOne {n : UInt64} (h : n ≠ 0xffffffffffffffff) :
    (saturatingAddOne n).toNat = n.toNat + 1 := by
  have hmax : (0xffffffffffffffff : UInt64).toNat = 2 ^ 64 - 1 := by decide
  have hne : n.toNat ≠ 2 ^ 64 - 1 := fun heq ↦ h (UInt64.toNat_inj.mp (heq.trans hmax.symm))
  have hlt := n.toNat_lt
  rw [saturatingAddOne, if_neg h, UInt64.toNat_add]
  exact Nat.mod_eq_of_lt (by simp; omega)

/-- Indexes an accepted container, unless it has been already. -/
def accept (works : Bool) (now : Int64) (containerId : Id) (containerBytes : Bytes) :
    Handler Error Index Unit := do
  let s ← get
  match s.read (.index containerId) with
  | .ok _ => return ()
  | .error .notFound =>
    let marshaled ← liftM (Container.marshal ⟨containerId, containerBytes, now⟩)
    let nextBytes := Wire.u64.put s.nextAcceptedIndex
    modify (·.put (.container nextBytes) marshaled)
    modify (·.put (.index containerId) nextBytes)
    let next := saturatingAddOne s.nextAcceptedIndex
    modify fun s ↦ { s with nextAcceptedIndex := next }
    modify (·.put .nextAcceptedIndex (Wire.u64.put next))
    commit works
  | .error e => throw (.database e)

/-! ### Reads -/

def lastAcceptedIndex (next : UInt64) : Option UInt64 := if next = 0 then none else some (next - 1)

def containerByIndexBytes (s : Index) (key : Bytes) : Except Error Container := do
  let bytes ← (s.read (.container key)).mapError .readFailed
  Container.unmarshal bytes

def containerAt (s : Index) (next index : UInt64) : Except Error Container := do
  let last ← orError (lastAcceptedIndex next) (.noContainerAtIndex index)
  require (¬ index > last) (.noContainerAtIndex index)
  s.containerByIndexBytes (Wire.u64.put index)

def getContainerByIndex (s : Index) (index : UInt64) : Except Error Container :=
  s.containerAt s.nextAcceptedIndex index

def getIndex (s : Index) (containerId : Id) : Except Error UInt64 := do
  let bytes ← (s.read (.index containerId)).mapError .database
  parseU64 bytes

def getContainerById (s : Index) (containerId : Id) : Except Error Container := do
  let indexBytes ← (s.read (.index containerId)).mapError .database
  s.containerByIndexBytes indexBytes

end Index

end Avalanche.Indexer
