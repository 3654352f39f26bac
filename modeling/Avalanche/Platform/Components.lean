import Avalanche.Library.Loop
import Avalanche.Library.Wire
import Avalanche.Platform.State

/-!
# Inputs and outputs

The parts of which the txs are made, as they are encoded: an output belongs to owners and may be
locked, an input names the UTXO it spends and the amount it spends of it. The lists of a tx are
checked to be in the order of their encodings, the inputs strictly by the UTXO they name.

The fields that only tell the chain of a tx apart are left out.
-/

namespace Avalanche

/-- A 20-byte address. -/
abbrev ShortId := BitVec 160

namespace Platform

/-- Every two neighbours are related. -/
def windowsAll {α : Type} (p : α → α → Bool) : List α → Bool
  | a :: b :: l => p a b && windowsAll p (b :: l)
  | _ => true

/-! ### The codec -/

namespace Codec

/-- `DEFAULT_MAX_SIZE`. -/
def maxSize : ℕ := 256 * 1024

/-- The version, then the fields. -/
def marshal {α : Type} (w : Wire α) (a : α) : Bytes := Wire.u16.put 0 ++ w.put a

/-- Bytes that are the encoding of a value, and nothing else. -/
def decode {α : Type} (w : Wire α) (bytes : Bytes) : Option α := do
  let (version, bytes) ← Wire.u16.get bytes
  if version ≠ 0 then none
  let (a, bytes) ← w.get bytes
  if bytes = [] then some a else none

def unmarshal {α : Type} (w : Wire α) (bytes : Bytes) : Except Error α := do
  require (¬bytes.length > maxSize) .codec
  orError (decode w bytes) .codec

end Codec

/-! ### Owners -/

structure OutputOwners where
  locktime : UInt64
  threshold : UInt32
  addrs : List ShortId
  /-- The encoding has four bytes for the number of addresses. -/
  length_addrs : addrs.length < 2 ^ 32
deriving DecidableEq

namespace OutputOwners

def new (locktime : UInt64) (threshold : UInt32)
    (addrs : { l : List ShortId // l.length < 2 ^ 32 }) :
    OutputOwners :=
  ⟨locktime, threshold, addrs.1, addrs.2⟩

def wire : Wire OutputOwners :=
  (Wire.u64.pair (Wire.u32.pair (Wire.list (Wire.word 20)))).map
    (fun p ↦ .new p.1 p.2.1 p.2.2) (fun o ↦ (o.locktime, o.threshold, ⟨o.addrs, o.length_addrs⟩))
    fun _ ↦ rfl

def verify (o : OutputOwners) : Except Error Unit := do
  require (¬o.threshold > UInt32.ofNat o.addrs.length) .invalidComponent
  require (¬(o.threshold = 0 ∧ o.addrs ≠ [])) .invalidComponent
  require (windowsAll (· < ·) o.addrs) .invalidComponent

end OutputOwners

/-- The owner of a subnet or of a reward. -/
inductive Owner
  | secp256k1 (owners : OutputOwners)
deriving DecidableEq

namespace Owner

def owners : Owner → OutputOwners
  | secp256k1 o => o

/-- The type id of an owner and its fields. -/
def wire : Wire Owner where
  put o := Wire.u32.put 11 ++ OutputOwners.wire.put o.owners
  get bytes := do
    let (typeId, bytes) ← Wire.u32.get bytes
    if typeId ≠ 11 then none
    let (o, bytes) ← OutputOwners.wire.get bytes
    some (secp256k1 o, bytes)
  get_put o rest := by
    simp [Wire.get_put, owners]

end Owner

/-- The indices of the signers that stand for an owner. -/
structure Auth where
  sigIndices : List UInt32
deriving DecidableEq

/-! ### Outputs -/

inductive Output
  | transfer (amt : UInt64) (owners : OutputOwners)
  | stakeableLock (locktime : UInt64) (out : Output)
deriving DecidableEq

namespace Output

def amount : Output → UInt64
  | transfer amt _ => amt
  | stakeableLock _ out => out.amount

def isStakeableLock : Output → Bool
  | transfer _ _ => false
  | stakeableLock _ _ => true

def verify : Output → Except Error Unit
  | transfer amt owners => do
    require (amt ≠ 0) .invalidComponent
    owners.verify
  | stakeableLock locktime out => do
    require (locktime ≠ 0) .invalidLocktime
    require (¬out.isStakeableLock) .nestedStakeableLock
    out.verify

/-- The type id of an output and its fields. -/
def marshalInto : Output → Bytes
  | transfer amt owners => Wire.u32.put 7 ++ (Wire.u64.pair OutputOwners.wire).put (amt, owners)
  | stakeableLock locktime out => Wire.u32.put 22 ++ (Wire.u64.put locktime ++ out.marshalInto)

/-- Reads an output with fewer than `n` locks around it. -/
def unmarshalFrom : ℕ → Bytes → Option (Output × Bytes)
  | 0, _ => none
  | n + 1, bytes => do
    let (typeId, bytes) ← Wire.u32.get bytes
    if typeId = 7 then
      let (p, bytes) ← (Wire.u64.pair OutputOwners.wire).get bytes
      some (transfer p.1 p.2, bytes)
    else if typeId = 22 then
      let (locktime, bytes) ← Wire.u64.get bytes
      let (out, bytes) ← unmarshalFrom n bytes
      some (stakeableLock locktime out, bytes)
    else none

/-- The number of locks. -/
def depth : Output → ℕ
  | transfer _ _ => 0
  | stakeableLock _ out => out.depth + 1

theorem depth_le_length (o : Output) : o.depth ≤ o.marshalInto.length := by
  induction o with
  | transfer amt owners => exact Nat.zero_le _
  | stakeableLock locktime out ih =>
    have hput : (Wire.u32.put 22).length = 4 := Wire.length_be 4 _
    rw [depth, marshalInto, List.length_append, List.length_append, hput]
    omega

theorem unmarshalFrom_marshalInto (o : Output) {n : ℕ} (h : o.depth < n) (rest : Bytes) :
    unmarshalFrom n (o.marshalInto ++ rest) = some (o, rest) := by
  obtain ⟨n, rfl⟩ := Nat.exists_eq_succ_of_ne_zero (Nat.ne_zero_of_lt h)
  induction o generalizing n with
  | transfer amt owners =>
    rw [unmarshalFrom, marshalInto, List.append_assoc, Wire.get_put]
    simp [Wire.get_put]
  | stakeableLock locktime out ih =>
    have hlt : out.depth < n := Nat.lt_of_succ_lt_succ h
    obtain ⟨m, rfl⟩ := Nat.exists_eq_succ_of_ne_zero (Nat.ne_zero_of_lt hlt)
    rw [unmarshalFrom, marshalInto, List.append_assoc, Wire.get_put, List.append_assoc]
    simp [Wire.get_put, ih m hlt]

/-- An output has no more locks than bytes. -/
def wire : Wire Output where
  put := marshalInto
  get bytes := unmarshalFrom (bytes.length + 1) bytes
  get_put o rest := by
    refine o.unmarshalFrom_marshalInto (Nat.lt_succ_of_le ?_) rest
    rw [List.length_append]
    exact o.depth_le_length.trans (Nat.le_add_right _ _)

end Output

structure TransferableOutput where
  assetId : Id
  out : Output
deriving DecidableEq

namespace TransferableOutput

def amount (o : TransferableOutput) : UInt64 := o.out.amount

def outBytes (o : TransferableOutput) : Bytes := o.out.marshalInto

def verify (o : TransferableOutput) : Except Error Unit := o.out.verify

protected def compare (a b : TransferableOutput) : Ordering :=
  (Ord.compare a.assetId b.assetId).then (Ord.compare a.outBytes b.outBytes)

end TransferableOutput

def isSortedTransferableOutputs (outs : List TransferableOutput) : Bool :=
  windowsAll (fun a b ↦ a.compare b ≠ .gt) outs

/-! ### Inputs -/

inductive Input
  | transfer (amt : UInt64) (sigIndices : List UInt32)
  | stakeableLock (locktime : UInt64) (input : Input)
deriving DecidableEq

namespace Input

def amount : Input → UInt64
  | transfer amt _ => amt
  | stakeableLock _ input => input.amount

def isStakeableLock : Input → Bool
  | transfer _ _ => false
  | stakeableLock _ _ => true

def verify : Input → Except Error Unit
  | transfer amt sigIndices => do
    require (amt ≠ 0) .invalidComponent
    require (windowsAll (· < ·) sigIndices) .invalidComponent
  | stakeableLock locktime input => do
    require (locktime ≠ 0) .invalidLocktime
    require (¬input.isStakeableLock) .nestedStakeableLock
    input.verify

end Input

/-- The id of output `index` of a tx. -/
def utxoId (sha256 : Bytes → Id) (txId : Id) (index : UInt32) : Id :=
  sha256 (Wire.u64.put index.toUInt64 ++ (Wire.word 32).put txId)

structure TransferableInput where
  txId : Id
  outputIndex : UInt32
  assetId : Id
  input : Input
deriving DecidableEq

namespace TransferableInput

def amount (i : TransferableInput) : UInt64 := i.input.amount

def inputId (sha256 : Bytes → Id) (i : TransferableInput) : Id := utxoId sha256 i.txId i.outputIndex

protected def compare (a b : TransferableInput) : Ordering :=
  (Ord.compare a.txId b.txId).then (Ord.compare a.outputIndex b.outputIndex)

def verify (i : TransferableInput) : Except Error Unit := i.input.verify

end TransferableInput

def isSortedAndUniqueTransferableInputs (ins : List TransferableInput) : Bool :=
  windowsAll (fun a b ↦ a.compare b = .lt) ins

/-! ### The common part of a tx -/

structure BaseTx where
  outs : List TransferableOutput
  ins : List TransferableInput
  memo : Bytes
deriving DecidableEq

def maxMemoSize : ℕ := 256

/-- The result is remembered with the tx; the tx is not changed after that. -/
def BaseTx.syntacticVerify (tx : BaseTx) : Except Error Unit := do
  require (¬tx.memo.length > maxMemoSize) .invalidComponent
  tx.outs.forM (·.verify)
  tx.ins.forM (·.verify)
  require (isSortedTransferableOutputs tx.outs) .outputsNotSorted
  require (isSortedAndUniqueTransferableInputs tx.ins) .inputsNotSortedUnique

end Platform

end Avalanche
