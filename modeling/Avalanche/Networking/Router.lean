import Avalanche.Networking.Timeout

/-!
# The chain router

Messages that come from peers are handed to the handler of the chain they are for, and for every
request that the chain has sent a failure is handed to it when the request is failed early or has
timed out. A failure is made by whoever takes the entry of the request out of the registry. A
message from a peer is handed on as it is: `handleInbound` does not look at the registry, and
`onResponse`, which takes the entry out for an answer, is a method of its own.
-/

namespace Avalanche.Networking

abbrev Bytes := List UInt8

/-! ### Ops -/

namespace Op

def get : BitVec 8 := 1
def getAncestors : BitVec 8 := 2
def getAcceptedFrontier : BitVec 8 := 3
def getAccepted : BitVec 8 := 4
def query : BitVec 8 := 5
def appRequest : BitVec 8 := 6
def getStateSummaryFrontier : BitVec 8 := 7
def getAcceptedStateSummary : BitVec 8 := 8

end Op

/-- An op for a chain handler. -/
inductive InboundOp
  | get (requestId : BitVec 32) (containerId : Id)
  | getAcceptedFrontier (requestId : BitVec 32)
  | getAccepted (requestId : BitVec 32) (containerIds : List Id)
  | getAncestors (requestId : BitVec 32) (containerId : Id)
  | put (requestId : BitVec 32) (container : Bytes)
  | getFailed (requestId : BitVec 32)
  | queryFailed (requestId : BitVec 32)
  | getAncestorsFailed (requestId : BitVec 32)
  | getAcceptedFrontierFailed (requestId : BitVec 32)
  | getAcceptedFailed (requestId : BitVec 32)
  | getStateSummaryFrontierFailed (requestId : BitVec 32)
  | getAcceptedStateSummaryFailed (requestId : BitVec 32)
  | appRequestFailed (requestId : BitVec 32) (code : ℤ) (message : String)
  | appRequest (requestId : BitVec 32) (deadlineNanos : ℕ) (bytes : Bytes)
  | appResponse (requestId : BitVec 32) (bytes : Bytes)
  | acceptedFrontier (requestId : BitVec 32) (containerId : Id)
  | accepted (requestId : BitVec 32) (containerIds : List Id)
  | ancestors (requestId : BitVec 32) (containers : List Bytes)
  | pushQuery (requestId : BitVec 32) (container : Bytes) (requestedHeight : ℕ)
  | pullQuery (requestId : BitVec 32) (containerId : Id) (requestedHeight : ℕ)
  | chits (requestId : BitVec 32) (preferredId preferredIdAtHeight acceptedId : Id)
      (acceptedHeight : ℕ)
deriving DecidableEq

/-- The sentinel `AppError::timeout`. -/
def timeoutError : ℤ × String := (-1, "timed out")

namespace InboundOp

/-- The failure of a request; for an unknown tag that of a `Get`. -/
def failed (opTag : BitVec 8) (requestId : BitVec 32) : InboundOp :=
  if opTag = Op.get then getFailed requestId
  else if opTag = Op.getAncestors then getAncestorsFailed requestId
  else if opTag = Op.getAcceptedFrontier then getAcceptedFrontierFailed requestId
  else if opTag = Op.getAccepted then getAcceptedFailed requestId
  else if opTag = Op.query then queryFailed requestId
  else if opTag = Op.appRequest then
    appRequestFailed requestId timeoutError.1 timeoutError.2
  else if opTag = Op.getStateSummaryFrontier then getStateSummaryFrontierFailed requestId
  else if opTag = Op.getAcceptedStateSummary then getAcceptedStateSummaryFailed requestId
  else getFailed requestId

/-- The kind and number of the request that an op concludes: the answers, and the failures. -/
def concludes : InboundOp → Option (BitVec 8 × BitVec 32)
  | put requestId _ | getFailed requestId => some (Op.get, requestId)
  | ancestors requestId _ | getAncestorsFailed requestId => some (Op.getAncestors, requestId)
  | acceptedFrontier requestId _ | getAcceptedFrontierFailed requestId =>
    some (Op.getAcceptedFrontier, requestId)
  | accepted requestId _ | getAcceptedFailed requestId => some (Op.getAccepted, requestId)
  | chits requestId _ _ _ _ | queryFailed requestId => some (Op.query, requestId)
  | appResponse requestId _ | appRequestFailed requestId _ _ => some (Op.appRequest, requestId)
  | getStateSummaryFrontierFailed requestId => some (Op.getStateSummaryFrontier, requestId)
  | getAcceptedStateSummaryFailed requestId => some (Op.getAcceptedStateSummary, requestId)
  | _ => none

end InboundOp

/-- A decoded message of a peer for a chain. -/
structure InboundMessage where
  node : NodeId
  chain : Id
  op : InboundOp
deriving DecidableEq

/-- The outstanding request that a message concludes. -/
def InboundMessage.concludes (msg : InboundMessage) : Option RequestId :=
  msg.op.concludes.map fun (op, requestId) ↦ ⟨msg.node, msg.chain, requestId, op⟩

/-! ### The router -/

/-- The sink of a chain's handler, with the test whether it takes messages of a node. -/
class ChainMessageSink (χ : Type) where
  shouldHandle : χ → NodeId → Bool

/-- A sink with the default test, which takes the messages of every node. -/
instance : ChainMessageSink Unit := ⟨fun _ _ ↦ true⟩

/-- What is pushed into a sink: a message of a peer, or the failure of a request. -/
inductive Delivery (χ : Type)
  | routed (sink : χ) (msg : InboundMessage)
  | failed (sink : χ) (id : RequestId)

namespace Delivery

variable {χ : Type}

def sink : Delivery χ → χ
  | routed sink _ | failed sink _ => sink

def node : Delivery χ → NodeId
  | routed _ msg => msg.node
  | failed _ id => id.node

def op : Delivery χ → InboundOp
  | routed _ msg => msg.op
  | failed _ id => .failed id.op id.requestId

/-- The outstanding request that the push is an outcome of. -/
def concludes : Delivery χ → Option RequestId
  | routed _ msg => msg.concludes
  | failed _ id => some id

end Delivery

structure ChainRouter (α χ : Type) where
  chains : AList fun _ : Id ↦ χ
  timeouts : ManagerState α (Option χ)

/-- The calls of the router and the turns of the timer, each one locked step. -/
inductive Event (χ : Type)
  | addChain (chain : Id) (handler : χ)
  | handleInbound (msg : InboundMessage)
  | registerRequest (now : ℕ) (id : RequestId)
  | failRequest (id : RequestId)
  | onResponse (now : ℕ) (id : RequestId)
  | fireExpired (now : ℕ) (id : RequestId)

namespace ChainRouter

variable {α χ : Type} (A : Averager α)

def new (timeouts : ManagerState α (Option χ)) : ChainRouter α χ := ⟨∅, timeouts⟩

def handlerFor (r : ChainRouter α χ) (chain : Id) : Option χ := r.chains.lookup chain

def addChain (r : ChainRouter α χ) (chain : Id) (handler : χ) : ChainRouter α χ :=
  { r with chains := r.chains.insert chain handler }

def handleInbound [ChainMessageSink χ] (r : ChainRouter α χ) (msg : InboundMessage) :
    Option (Delivery χ) :=
  match r.handlerFor msg.chain with
  | none => none
  | some handler =>
    if ChainMessageSink.shouldHandle handler msg.node then some (.routed handler msg) else none

/-- The handler of the chain is looked up now and kept for the timeout. -/
def registerRequest (r : ChainRouter α χ) (now : ℕ) (id : RequestId) : ChainRouter α χ :=
  { r with timeouts := r.timeouts.put now id true (r.handlerFor id.chain) }

def failRequest (r : ChainRouter α χ) (id : RequestId) : ChainRouter α χ × Option (Delivery χ) :=
  let (timeouts, claimed) := r.timeouts.cancel id
  let r := { r with timeouts }
  (r, if claimed then (r.handlerFor id.chain).map (.failed · id) else none)

def onResponse (r : ChainRouter α χ) (now : ℕ) (id : RequestId) : ChainRouter α χ :=
  { r with timeouts := r.timeouts.remove A now id }

/-- A turn of the timer; the handler kept in the entry gets the failure. -/
def fireExpired (r : ChainRouter α χ) (now : ℕ) (id : RequestId) :
    ChainRouter α χ × Option (Delivery χ) :=
  let (timeouts, handler) := r.timeouts.fireExpired A now id
  ({ r with timeouts }, handler.join.map (.failed · id))

def step [ChainMessageSink χ] (r : ChainRouter α χ) :
    Event χ → ChainRouter α χ × Option (Delivery χ)
  | .addChain chain handler => (r.addChain chain handler, none)
  | .handleInbound msg => (r, r.handleInbound msg)
  | .registerRequest now id => (r.registerRequest now id, none)
  | .failRequest id => r.failRequest id
  | .onResponse now id => (r.onResponse A now id, none)
  | .fireExpired now id => r.fireExpired A now id

/-- The request is in the registry. -/
def Pending (r : ChainRouter α χ) (id : RequestId) : Prop :=
  (r.timeouts.pending.lookup id).isSome

/-! ### What the steps push -/

section Cases

variable {A} {r : ChainRouter α χ} {now : ℕ} {id : RequestId}

/-- What is pending after an entry was taken was pending before, under another key. -/
theorem pending_of_erase {r' : ChainRouter α χ} {q : RequestId}
    (h : r'.timeouts.pending = r.timeouts.pending.erase id) (hq : r'.Pending q) :
    q ≠ id ∧ r.Pending q := by
  rw [Pending, h, ManagerState.lookup_erase_eq] at hq
  split at hq
  · cases hq
  · exact ⟨‹_›, hq⟩

theorem handleInbound_eq_some [ChainMessageSink χ] {msg : InboundMessage} {d : Delivery χ}
    (h : r.handleInbound msg = some d) :
    ∃ handler, r.handlerFor msg.chain = some handler ∧ d = .routed handler msg := by
  rw [handleInbound] at h
  split at h
  · cases h
  · rename_i handler hhandler
    split at h
    · exact ⟨handler, hhandler, (Option.some.inj h).symm⟩
    · cases h

/-- A request that is failed leaves the registry, and a failure is pushed only if it was there. -/
theorem failRequest_cases (r : ChainRouter α χ) (id : RequestId) :
    (r.failRequest id).1.chains = r.chains ∧
    (r.failRequest id).1.timeouts.pending = r.timeouts.pending.erase id ∧
    ((r.failRequest id).2 = none ∨
      ∃ handler, r.handlerFor id.chain = some handler ∧ r.Pending id ∧
        (r.failRequest id).2 = some (.failed handler id)) := by
  refine ⟨rfl, rfl, ?_⟩
  simp only [failRequest, ManagerState.cancel, handlerFor, Pending]
  by_cases hclaimed : (r.timeouts.pending.lookup id).isSome
  · cases hhandler : r.chains.lookup id.chain <;> simp [hclaimed]
  · simp [hclaimed]

/-- A failure is pushed by the timer only as the request leaves the registry. -/
theorem fireExpired_cases (A : Averager α) (r : ChainRouter α χ) (now : ℕ) (id : RequestId) :
    r.fireExpired A now id = (r, none) ∨
    ∃ t, r.timeouts.pending.lookup id = some t ∧
      (r.fireExpired A now id).1.chains = r.chains ∧
      (r.fireExpired A now id).1.timeouts.pending = r.timeouts.pending.erase id ∧
      (r.fireExpired A now id).2 = t.handler.map (.failed · id) := by
  rcases r.timeouts.fireExpired_cases A now id with h | ⟨t, ht, hhandler, hpending⟩
  · exact .inl (by simp [fireExpired, h])
  · refine .inr ⟨t, ht, rfl, hpending, ?_⟩
    simp [fireExpired, hhandler, Option.join]

end Cases

end ChainRouter

end Avalanche.Networking
