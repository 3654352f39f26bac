import Avalanche.Types.Id

/-!
# The registry of outstanding requests

Every request that is sent has an entry under the node, the chain, the wire number and the tag of
its kind, with the time at which it is given up. An entry leaves the registry when a response is
observed, when the request is failed early, or when its time has come: whoever finds the entry takes
it out, so each entry is taken once.

The time allowed follows an average of the observed latencies, which the source keeps in floating
point. Nothing but the deadlines depends on it, and it stays a parameter here.
-/

namespace Avalanche.Networking

/-- The key of an outstanding request. -/
structure RequestId where
  node : NodeId
  chain : Id
  requestId : BitVec 32
  op : BitVec 8
deriving DecidableEq

/-- The latency averager: how an observed latency at a time changes it, and the timeout it
predicts, the average times the coefficient in whole nanoseconds. -/
structure Averager (α : Type) where
  observe : α → ℕ → ℕ → α
  predict : α → ℕ

/-- An average that stays at ten nanoseconds. -/
def Averager.steady : Averager Unit := ⟨fun _ _ _ ↦ (), fun _ ↦ 10⟩

/-- An entry; `handler` is what the timeout handler has captured. -/
structure PendingTimeout (η : Type) where
  deadline : ℕ
  duration : ℕ
  measureLatency : Bool
  handler : η

/-- `AdaptiveTimeoutConfig`, with the averager in its initial state. -/
structure TimeoutConfig (α : Type) where
  averager : α
  initialTimeout : ℕ
  minimumTimeout : ℕ
  maximumTimeout : ℕ

structure ManagerState (α η : Type) where
  averager : α
  minimumTimeout : ℕ
  maximumTimeout : ℕ
  currentTimeout : ℕ
  pending : AList fun _ : RequestId ↦ PendingTimeout η

namespace ManagerState

variable {α η : Type}

/-- `AdaptiveTimeoutManager::new`. -/
def new (config : TimeoutConfig α) : ManagerState α η where
  averager := config.averager
  minimumTimeout := config.minimumTimeout
  maximumTimeout := config.maximumTimeout
  currentTimeout := config.initialTimeout
  pending := ∅

variable (A : Averager α)

def observeLatency (st : ManagerState α η) (latency now : ℕ) : ManagerState α η :=
  let averager := A.observe st.averager latency now
  let timeout := A.predict averager
  { st with
    averager
    currentTimeout :=
      if timeout > st.maximumTimeout then st.maximumTimeout
      else if timeout < st.minimumTimeout then st.minimumTimeout
      else timeout }

/-- Registers an entry; one that is there under the same key is replaced. -/
def put (st : ManagerState α η) (now : ℕ) (id : RequestId) (measureLatency : Bool) (handler : η) :
    ManagerState α η :=
  let pending := st.pending.erase id
  let duration := st.currentTimeout
  { st with
    pending := pending.insert id { deadline := now + duration, duration, measureLatency, handler } }

/-- Takes the entry of a request that was answered. -/
def remove (st : ManagerState α η) (now : ℕ) (id : RequestId) : ManagerState α η :=
  match st.pending.lookup id with
  | none => st
  | some t =>
    let st := { st with pending := st.pending.erase id }
    if t.measureLatency then
      let registeredAt := if t.duration ≤ t.deadline then t.deadline - t.duration else t.deadline
      st.observeLatency A (now - registeredAt) now
    else st

/-- Takes the entry of a request that is failed early, and says whether it was there. -/
def cancel (st : ManagerState α η) (id : RequestId) : ManagerState α η × Bool :=
  ({ st with pending := st.pending.erase id }, (st.pending.lookup id).isSome)

/-- Whether `id` may be the entry that expires next: its time has come, and it is among the
earliest of those whose time has come. -/
def expires (st : ManagerState α η) (now : ℕ) (t : PendingTimeout η) : Bool :=
  decide (t.deadline ≤ now) &&
    (st.pending.entries.filter fun e ↦ e.2.deadline ≤ now).all fun e ↦ t.deadline ≤ e.2.deadline

/-- One turn of the loop of `fire_expired`, with the entry it picks: the earliest of the expired
entries in the order of a hash map, so of entries with the same deadline it may be any. The handler
to run is returned. -/
def fireExpired (st : ManagerState α η) (now : ℕ) (id : RequestId) : ManagerState α η × Option η :=
  match st.pending.lookup id with
  | none => (st, none)
  | some t =>
    if st.expires now t then
      let st := { st with pending := st.pending.erase id }
      (if t.measureLatency then st.observeLatency A t.duration now else st, some t.handler)
    else (st, none)

/-! ### The entries afterwards -/

variable {A} {st : ManagerState α η} {now : ℕ} {id : RequestId}

theorem lookup_put (m : Bool) (h : η) (q : RequestId) :
    (st.put now id m h).pending.lookup q =
      if q = id then some ⟨now + st.currentTimeout, st.currentTimeout, m, h⟩
      else st.pending.lookup q := by
  split
  case isTrue hq => subst hq; simp [put]
  case isFalse hq => simp [put, AList.lookup_insert_ne hq, AList.lookup_erase_ne hq]

theorem lookup_erase_eq (q : RequestId) :
    (st.pending.erase id).lookup q = if q = id then none else st.pending.lookup q := by
  split
  case isTrue hq => subst hq; simp
  case isFalse hq => exact AList.lookup_erase_ne hq

theorem lookup_remove (q : RequestId) :
    (st.remove A now id).pending.lookup q = if q = id then none else st.pending.lookup q := by
  rw [remove]
  cases h : st.pending.lookup id with
  | none =>
    by_cases hq : q = id
    · subst hq
      simp [h]
    · simp [hq]
  | some t =>
    rw [← lookup_erase_eq]
    simp only
    split <;> rfl

/-- Either nothing expires, or the entry is taken and its handler run. -/
theorem fireExpired_cases (A : Averager α) (st : ManagerState α η) (now : ℕ) (id : RequestId) :
    st.fireExpired A now id = (st, none) ∨
    ∃ t, st.pending.lookup id = some t ∧ (st.fireExpired A now id).2 = some t.handler ∧
      (st.fireExpired A now id).1.pending = st.pending.erase id := by
  rw [fireExpired]
  cases h : st.pending.lookup id with
  | none => exact .inl rfl
  | some t =>
    simp only
    split
    · refine .inr ⟨t, rfl, rfl, ?_⟩
      split <;> rfl
    · exact .inl rfl

end ManagerState

end Avalanche.Networking
