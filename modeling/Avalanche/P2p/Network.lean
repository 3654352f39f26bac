import Avalanche.Networking.Router

/-!
# Application requests

The clients of a `P2pNetwork` share one counter of request numbers and one map from the numbers of
requests in flight to their callbacks. A callback leaves the map when it is called, and when the
call of `app_request` that put it there fails or is dropped before its message was sent.

The map is keyed by the number alone: neither `handleAppResponse` nor `handleAppRequestFailed` can
compare the node that a message is from with the node that was asked.
-/

namespace Avalanche.P2p

open Networking

structure AppError where
  code : ℤ
  message : String
deriving DecidableEq

inductive Error
  | requestPending (requestId : BitVec 32)
deriving DecidableEq

/-- The requests in flight, with callbacks of type `κ`, and the next number. -/
structure P2pNetwork (κ : Type) where
  pending : AList fun _ : BitVec 32 ↦ κ
  requestId : BitVec 32

/-- A callback that is called, with its arguments. -/
structure Call (κ : Type) where
  callback : κ
  node : NodeId
  result : Except AppError Bytes

namespace P2pNetwork

variable {κ : Type}

def new : P2pNetwork κ := ⟨∅, 0⟩

/-- The callback under a number is taken out and called. -/
def resolve (net : P2pNetwork κ) (node : NodeId) (requestId : BitVec 32)
    (result : Except AppError Bytes) : P2pNetwork κ × Option (Call κ) :=
  ({ net with pending := net.pending.erase requestId },
    (net.pending.lookup requestId).map fun callback ↦ ⟨callback, node, result⟩)

def handleAppRequestFailed (net : P2pNetwork κ) (node : NodeId) (requestId : BitVec 32)
    (err : AppError) : P2pNetwork κ × Option (Call κ) :=
  net.resolve node requestId (.error err)

def handleAppResponse (net : P2pNetwork κ) (node : NodeId) (requestId : BitVec 32)
    (response : Bytes) : P2pNetwork κ × Option (Call κ) :=
  net.resolve node requestId (.ok response)

/-- What the engine hands to the VM of an op. -/
def handle (net : P2pNetwork κ) (node : NodeId) : InboundOp → P2pNetwork κ × Option (Call κ)
  | .appResponse requestId bytes => net.handleAppResponse node requestId bytes
  | .appRequestFailed requestId code message =>
    net.handleAppRequestFailed node requestId ⟨code, message⟩
  | _ => (net, none)

/-- `app_request` takes the next number, `fetch_add`. -/
def fetchRequestId (net : P2pNetwork κ) : P2pNetwork κ × BitVec 32 :=
  ({ net with requestId := net.requestId + 1 }, net.requestId)

/-- `app_request` puts its callback under the number, unless there is one already. -/
def insertPending (net : P2pNetwork κ) (requestId : BitVec 32) (callback : κ) :
    Except Error (P2pNetwork κ) :=
  if (net.pending.lookup requestId).isSome then .error (.requestPending requestId)
  else .ok { net with pending := net.pending.insert requestId callback }

/-- `PendingGuard::drop` of an armed guard. -/
def dropGuard (net : P2pNetwork κ) (requestId : BitVec 32) : P2pNetwork κ :=
  { net with pending := net.pending.erase requestId }

end P2pNetwork

/-- The number of the application request that an op answers. -/
def appRequestId : InboundOp → Option (BitVec 32)
  | .appResponse requestId _ | .appRequestFailed requestId _ _ => some requestId
  | _ => none

/-- Only the failure of an application request answers one. -/
theorem appRequestId_failed {op : BitVec 8} {requestId i : BitVec 32}
    (h : appRequestId (.failed op requestId) = some i) : op = Op.appRequest ∧ i = requestId := by
  by_cases hop : op = Op.appRequest
  · subst hop
    exact ⟨rfl, (Option.some.inj h).symm⟩
  · rw [InboundOp.failed] at h
    split_ifs at h <;> cases h

/-- The VM hears of an op that answers an application request, and of no other. -/
theorem P2pNetwork.handle_eq {κ : Type} (net : P2pNetwork κ) (node : NodeId) (op : InboundOp) :
    (∃ i result, appRequestId op = some i ∧ net.handle node op = net.resolve node i result) ∨
    net.handle node op = (net, none) := by
  cases op with
  | appResponse i bytes => exact .inl ⟨i, .ok bytes, rfl, rfl⟩
  | appRequestFailed i code message => exact .inl ⟨i, .error ⟨code, message⟩, rfl, rfl⟩
  | _ => exact .inr rfl

end Avalanche.P2p
