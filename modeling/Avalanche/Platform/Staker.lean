import Avalanche.Library.TreeMap
import Avalanche.Types.Id
import Avalanche.Utils.Checked

/-!
# Stakers and L1 validators

A staker is ordered by the time of its next move, then by its priority and the id of its tx. Stakers
are kept in an ordered set, which compares by that key only, beside a table of the validators by
subnet and node. Putting a validator replaces the one in the table; a set that holds another staker
under the same key keeps it.

Times are `SystemTime`s, in nanoseconds from the epoch.
-/

open Std

namespace Avalanche

namespace Platform

abbrev Bytes := List UInt8

/-- A BLS key, as the bytes of its uncompressed form. -/
structure PublicKey where
  serialize : Bytes
deriving DecidableEq

inductive Priority
  | primaryNetworkDelegatorApricotPending
  | primaryNetworkValidatorPending
  | primaryNetworkDelegatorBanffPending
  | subnetPermissionlessValidatorPending
  | subnetPermissionlessDelegatorPending
  | subnetPermissionedValidatorPending
  | subnetPermissionedValidatorCurrent
  | subnetPermissionlessDelegatorCurrent
  | subnetPermissionlessValidatorCurrent
  | primaryNetworkDelegatorCurrent
  | primaryNetworkValidatorCurrent
deriving DecidableEq

namespace Priority

def asU8 : Priority → ℕ
  | primaryNetworkDelegatorApricotPending => 1
  | primaryNetworkValidatorPending => 2
  | primaryNetworkDelegatorBanffPending => 3
  | subnetPermissionlessValidatorPending => 4
  | subnetPermissionlessDelegatorPending => 5
  | subnetPermissionedValidatorPending => 6
  | subnetPermissionedValidatorCurrent => 7
  | subnetPermissionlessDelegatorCurrent => 8
  | subnetPermissionlessValidatorCurrent => 9
  | primaryNetworkDelegatorCurrent => 10
  | primaryNetworkValidatorCurrent => 11

def isCurrentValidator : Priority → Bool
  | primaryNetworkValidatorCurrent
  | subnetPermissionedValidatorCurrent
  | subnetPermissionlessValidatorCurrent => true
  | _ => false

def isCurrentDelegator : Priority → Bool
  | primaryNetworkDelegatorCurrent
  | subnetPermissionlessDelegatorCurrent => true
  | _ => false

def isPendingValidator : Priority → Bool
  | primaryNetworkValidatorPending
  | subnetPermissionedValidatorPending
  | subnetPermissionlessValidatorPending => true
  | _ => false

def isPendingDelegator : Priority → Bool
  | primaryNetworkDelegatorApricotPending
  | primaryNetworkDelegatorBanffPending
  | subnetPermissionlessDelegatorPending => true
  | _ => false

def isCurrent (p : Priority) : Bool := p.isCurrentValidator || p.isCurrentDelegator

def isPending (p : Priority) : Bool := p.isPendingValidator || p.isPendingDelegator

end Priority

/-- What stakers are ordered by. -/
abbrev OrderKey := ℤ ×ₗ ℕ ×ₗ Id

/-- A subnet and a node. -/
abbrev ValidatorKey := Id ×ₗ NodeId

instance transOrdValidatorKey : TransOrd ValidatorKey := inferInstance

structure Staker where
  txId : Id
  nodeId : NodeId
  publicKey : Option PublicKey
  subnetId : Id
  weight : ℕ
  startTime : ℤ
  endTime : ℤ
  potentialReward : ℕ
  nextTime : ℤ
  priority : Priority
deriving DecidableEq

namespace Staker

def orderKey (s : Staker) : OrderKey := toLex (s.nextTime, toLex (s.priority.asU8, s.txId))

/-- The place of a validator in the table. -/
def key (s : Staker) : ValidatorKey := toLex (s.subnetId, s.nodeId)

/-- A current staker, which is next moved at its end. -/
def newCurrent (txId : Id) (nodeId : NodeId) (publicKey : Option PublicKey) (subnetId : Id)
    (weight : ℕ) (startTime endTime : ℤ) (potentialReward : ℕ) (priority : Priority) : Staker where
  txId := txId
  nodeId := nodeId
  publicKey := publicKey
  subnetId := subnetId
  weight := weight
  startTime := startTime
  endTime := endTime
  potentialReward := potentialReward
  nextTime := endTime
  priority := priority

end Staker

/-- The mutable part of a validator, which the chain only stores and returns. -/
structure StakingInfo where
  delegateeReward : ℕ := 0
deriving DecidableEq, Inhabited

structure L1Validator where
  validationId : Id
  subnetId : Id
  nodeId : NodeId
  publicKey : Bytes
  remainingBalanceOwner : Bytes
  deactivationOwner : Bytes
  startTime : UInt64
  weight : UInt64
  minNonce : UInt64
  endAccumulatedFee : UInt64
deriving DecidableEq

namespace L1Validator

/-- The order in which the continuous fee is charged. -/
protected def compare (a b : L1Validator) : Ordering :=
  (Ord.compare a.endAccumulatedFee b.endAccumulatedFee).then
    (Ord.compare a.validationId b.validationId)

def isActive (v : L1Validator) : Bool := v.weight ≠ 0 && v.endAccumulatedFee ≠ 0

end L1Validator

/-- A set of stakers lists each under what it is ordered by. -/
def Staker.Keyed (set : ExtTreeMap OrderKey Staker) : Prop :=
  ∀ (k : OrderKey) (s : Staker), set[k]? = some s → s.orderKey = k

/-- Current or pending stakers. -/
structure Stakers where
  set : ExtTreeMap OrderKey Staker
  validators : ExtTreeMap ValidatorKey Staker
  set_keyed : Staker.Keyed set

namespace Stakers

def empty : Stakers where
  set := ∅
  validators := ∅
  set_keyed k s h := by simp at h

theorem keyed_insertIfNew {set : ExtTreeMap OrderKey Staker} (h : Staker.Keyed set) (new : Staker) :
    Staker.Keyed (set.insertIfNew new.orderKey new) := by
  intro k s hk
  rw [ExtTreeMap.getElem?_insertIfNew] at hk
  split at hk
  next hnew =>
    obtain rfl := Option.some.inj hk
    exact LawfulEqOrd.compare_eq_iff_eq.mp hnew.1
  next => exact h k s hk

theorem keyed_erase {set : ExtTreeMap OrderKey Staker} (h : Staker.Keyed set) (old : OrderKey) :
    Staker.Keyed (set.erase old) := by
  intro k s hk
  rw [ExtTreeMap.getElem?_erase] at hk
  split at hk
  next => exact absurd hk.symm (Option.some_ne_none s)
  next => exact h k s hk

def putDelegator (x : Stakers) (s : Staker) : Stakers :=
  { x with
    set := x.set.insertIfNew s.orderKey s
    set_keyed := keyed_insertIfNew x.set_keyed s }

def deleteDelegator (x : Stakers) (s : Staker) : Stakers :=
  { x with
    set := x.set.erase s.orderKey
    set_keyed := keyed_erase x.set_keyed s.orderKey }

/-- The validator of the same subnet and node goes first. -/
def putValidator (x : Stakers) (s : Staker) : Stakers :=
  let x := match x.validators[s.key]? with
    | some prev => x.deleteDelegator prev
    | none => x
  { x.putDelegator s with validators := x.validators.insert s.key s }

def deleteValidator (x : Stakers) (s : Staker) : Stakers :=
  { x.deleteDelegator s with validators := x.validators.erase s.key }

def getValidator (x : Stakers) (subnet : Id) (node : NodeId) : Option Staker :=
  x.validators[(toLex (subnet, node) : ValidatorKey)]?

def toVec (x : Stakers) : List Staker := x.set.toList.map Prod.snd

@[simp] theorem validators_putValidator (x : Stakers) (s : Staker) :
    (x.putValidator s).validators = x.validators.insert s.key s := by
  rw [putValidator]
  rcases x.validators[s.key]? with - | prev <;> rfl

@[simp] theorem validators_deleteValidator (x : Stakers) (s : Staker) :
    (x.deleteValidator s).validators = x.validators.erase s.key := rfl

end Stakers

end Platform

end Avalanche
