import Avalanche.Library.TreeMap
import Avalanche.Codec.Packer

/-!
# The linear codec

The codecs of the primitive types, of fixed arrays, strings, vectors and ordered maps, and the
manager, which frames a value with the version of its codec.

The entries of a map are written in the order of the bytes of their keys. The reader insists on that
order, comparing what each key would be written as.

A type the codec is used at is a `Ty`; its values, with the order that a map keyed by them needs,
are its `Kind`.
-/

open Std

namespace Avalanche.Codec

def maxSliceLen : ℕ := 2 ^ 31 - 1

class Serializable (α : Type) where
  marshalInto : α → Writer → Writer
  size : α → ℕ

/-- Reading is into a value that is there already. -/
class Deserializable (α : Type) where
  unmarshalFrom : α → Reader → α × Reader

open Serializable Deserializable

/-! ### Primitive types -/

instance : Serializable UInt8 where
  marshalInto v p := p.packByte v
  size _ := 1

instance : Deserializable UInt8 where
  unmarshalFrom _ p := p.unpackByte

instance : Serializable UInt16 where
  marshalInto v p := p.packU16 v
  size _ := 2

instance : Deserializable UInt16 where
  unmarshalFrom _ p := p.unpackU16

instance : Serializable UInt32 where
  marshalInto v p := p.packU32 v
  size _ := 4

instance : Deserializable UInt32 where
  unmarshalFrom _ p := p.unpackU32

instance : Serializable UInt64 where
  marshalInto v p := p.packU64 v
  size _ := 8

instance : Deserializable UInt64 where
  unmarshalFrom _ p := p.unpackU64

instance : Serializable Bool where
  marshalInto v p := p.packBool v
  size _ := 1

instance : Deserializable Bool where
  unmarshalFrom _ p := p.unpackBool

instance : Serializable String where
  marshalInto s p := p.packStr s
  size s := saturatingAdd 2 s.toByteArray.data.toList.length

instance : Deserializable String where
  unmarshalFrom _ p := p.unpackStr

/-- `[u8; n]`, which has no length on the wire. -/
instance (n : ℕ) : Serializable (Vector UInt8 n) where
  marshalInto v p := p.packFixedBytes v.toList
  size _ := n

/-- `raw` as an array, if it is of that length. -/
def fillArray {n : ℕ} (v : Vector UInt8 n) (raw : Bytes) : Vector UInt8 n :=
  if h : raw.length = n then ⟨raw.toArray, h⟩ else v

instance (n : ℕ) : Deserializable (Vector UInt8 n) where
  unmarshalFrom v p :=
    let (raw, p) := p.unpackFixedBytes n
    (fillArray v raw, p)

/-! ### Vectors -/

def packCount (p : Writer) (len : ℕ) : Writer :=
  if len > maxSliceLen then p.addError .oversized else p.packU32 (UInt32.ofNat len)

section Vec

variable {α : Type}

/-- The elements of a vector, none of which may be empty on the wire. -/
def marshalElems [Serializable α] : List α → Writer → Writer
  | [], p => p
  | elem :: l, p =>
    let before := p.bytes.length
    let p := marshalInto elem p
    if p.err.isNone ∧ p.bytes.length = before then p.addError .invalidInput
    else marshalElems l p

def unmarshalElems [Deserializable α] [Inhabited α] : ℕ → List α → Reader → Option (List α) × Reader
  | 0, out, p => (some out, p)
  | count + 1, out, p =>
    let before := p.offset
    let (elem, p) := unmarshalFrom default p
    if p.err.isSome then (none, p)
    else if p.offset = before then (none, p.addError .invalidInput)
    else unmarshalElems count (out ++ [elem]) p

instance [Serializable α] : Serializable (List α) where
  marshalInto l p := marshalElems l (packCount p l.length)
  size l := l.foldl (fun total elem ↦ saturatingAdd total (size elem)) 4

instance [Deserializable α] [Inhabited α] : Deserializable (List α) where
  unmarshalFrom l p :=
    let (count, p) := p.unpackU32
    if p.err.isSome then (l, p)
    else
      let (out, p) := unmarshalElems count.toNat [] p
      (out.getD l, p)

end Vec

/-! ### Maps -/

section Map

variable {κ β : Type} [Serializable κ]

/-- A key on its own. -/
def marshalKey (k : κ) : Writer := marshalInto k { maxSize := max (size k) 1 }

def keyEntry (e : κ × β) : Except PackerError (Bytes × κ × β) :=
  match (marshalKey e.1).err with
  | some err => .error err
  | none => .ok ((marshalKey e.1).bytes, e)

/-- Entries in the order of the bytes of their keys. -/
def sortEntries (entries : List (Bytes × κ × β)) : List (Bytes × κ × β) :=
  entries.mergeSort fun a b ↦ (compare a.1 b.1).isLE

def marshalEntries [Serializable β] : List (Bytes × κ × β) → Writer → Writer
  | [], p => p
  | (keyBytes, _, v) :: entries, p =>
    let p := marshalInto v (p.packFixedBytes keyBytes)
    if p.err.isSome then p else marshalEntries entries p

variable [Ord κ] [TransOrd κ]

def unmarshalEntries [Deserializable κ] [Inhabited κ] [Deserializable β] [Inhabited β] :
    ℕ → Option Bytes → ExtTreeMap κ β → Reader → Option (ExtTreeMap κ β) × Reader
  | 0, _, out, p => (some out, p)
  | count + 1, prevKeyBytes, out, p =>
    let (k, p) := unmarshalFrom default p
    if p.err.isSome then (none, p)
    else
      let keyBytes := (marshalKey k).bytes
      if prevKeyBytes.any fun prev ↦ (compare keyBytes prev).isLE then
        (none, p.addError .invalidInput)
      else
        let (v, p) := unmarshalFrom default p
        if p.err.isSome then (none, p)
        else unmarshalEntries count (some keyBytes) (out.insert k v) p

instance [Serializable β] : Serializable (ExtTreeMap κ β) where
  marshalInto m p :=
    let p := packCount p m.size
    if p.err.isSome then p
    else
      match m.toList.mapM keyEntry with
      | .error err => p.addError err
      | .ok entries => marshalEntries (sortEntries entries) p
  size m :=
    m.toList.foldl (fun total e ↦ saturatingAdd (saturatingAdd total (size e.1)) (size e.2)) 4

instance [Deserializable κ] [Inhabited κ] [Deserializable β] [Inhabited β] :
    Deserializable (ExtTreeMap κ β) where
  unmarshalFrom m p :=
    let (count, p) := p.unpackU32
    if p.err.isSome then (m, p)
    else
      let (out, p) := unmarshalEntries count.toNat none ∅ p
      (out.getD m, p)

end Map

/-! ### Types -/

inductive Ty
  | u8
  | u16
  | u32
  | u64
  | bool
  | string
  | array (n : UInt64)
  | vec (t : Ty)
  | map (k v : Ty)
deriving DecidableEq

/-- A type with its order and its codec. -/
structure Kind where
  carrier : Type
  [ord : Ord carrier]
  [transOrd : TransOrd carrier]
  [lawfulEqOrd : LawfulEqOrd carrier]
  [inhabited : Inhabited carrier]
  [serializable : Serializable carrier]
  [deserializable : Deserializable carrier]

attribute [instance] Kind.ord Kind.transOrd Kind.lawfulEqOrd Kind.inhabited Kind.serializable
  Kind.deserializable

section MapOrder

variable {κ β : Type} [Ord κ] [TransOrd κ] [Ord β]

/-- Maps are compared as the lists of their entries are. -/
instance mapOrd : Ord (ExtTreeMap κ β) where
  compare m m' := @compare _ (@List.instOrd _ lexOrd) m.toList m'.toList

instance transOrdMap [TransOrd β] : TransOrd (ExtTreeMap κ β) :=
  letI : Ord (κ × β) := lexOrd
  have horiented : OrientedOrd (List (κ × β)) := inferInstance
  have htrans : TransOrd (List (κ × β)) := inferInstance
  { eq_swap := horiented.eq_swap
    isLE_trans := htrans.isLE_trans }

instance lawfulEqOrdMap [LawfulEqOrd κ] [LawfulEqOrd β] : LawfulEqOrd (ExtTreeMap κ β) :=
  letI : Ord (κ × β) := lexOrd
  have hlawful : LawfulEqOrd (List (κ × β)) := inferInstance
  { compare_self := hlawful.compare_self
    eq_of_compare := fun h ↦ ExtTreeMap.toList_inj.mp (hlawful.eq_of_compare h) }

end MapOrder

def Ty.kind : Ty → Kind
  | u8 => { carrier := UInt8 }
  | u16 => { carrier := UInt16 }
  | u32 => { carrier := UInt32 }
  | u64 => { carrier := UInt64 }
  | bool => { carrier := Bool }
  | string => { carrier := String }
  | array n => { carrier := Vector UInt8 n.toNat }
  | vec t => { carrier := List t.kind.carrier }
  | map k v => { carrier := ExtTreeMap k.kind.carrier v.kind.carrier }

/-- The values of a type. -/
abbrev Ty.Value (t : Ty) : Type := t.kind.carrier

/-! ### The manager -/

inductive CodecError
  | maxSliceLenExceeded
  | unknownVersion
  | unmarshalTooBig
  | cantPackVersion
  | cantUnpackVersion
  | extraSpace
  | packer (err : PackerError)
deriving DecidableEq

def mapPackerError : PackerError → CodecError
  | .oversized => .maxSliceLenExceeded
  | err => .packer err

/-- The error of a packer that has one. -/
def packerResult {α : Type} (a : α) (err : Option PackerError) : Except CodecError α :=
  err.elim (.ok a) fun e ↦ .error (mapPackerError e)

/-- A manager, with the versions its codec is registered under. The size limit is a `usize`. -/
structure Manager where
  maxSize : ℕ
  maxSize_le : maxSize ≤ u64Max
  codecs : List UInt16

namespace Manager

variable {α : Type}

def codec (m : Manager) (version : UInt16) : Except CodecError Unit :=
  if version ∈ m.codecs then .ok () else .error .unknownVersion

def size [Serializable α] (m : Manager) (version : UInt16) (value : α) : Except CodecError ℕ := do
  m.codec version
  (checkedAdd (Serializable.size value) 2).elim (.error .maxSliceLenExceeded) .ok

def marshal [Serializable α] (m : Manager) (version : UInt16) (value : α) :
    Except CodecError Bytes := do
  let size ← m.size version value
  let p : Writer := { maxSize := max m.maxSize size }
  let p := p.packU16 version
  if p.err.isSome then .error .cantPackVersion
  else
    let p := marshalInto value p
    packerResult p.bytes p.err

/-- Reads into `dst`. -/
def unmarshal [Deserializable α] (m : Manager) (src : Bytes) (dst : α) :
    Except CodecError (UInt16 × α) :=
  if src.length > m.maxSize then .error .unmarshalTooBig
  else
    let p : Reader := { src }
    let (version, p) := p.unpackU16
    if p.err.isSome then .error .cantUnpackVersion
    else do
      m.codec version
      let (dst, p) := unmarshalFrom dst p
      let offset ← packerResult p.offset p.err
      -- the check for trailing bytes
      if offset ≠ src.length then .error .extraSpace else .ok (version, dst)

end Manager

end Avalanche.Codec
