import Avalanche.Library.Steps
import Avalanche.Networking.Router

/-!
# One outcome per request

A session is a router with the history of what was registered and what was pushed. The outcomes of a
request are the pushes that conclude it, counted from its last registration.

Failures are no danger: one is pushed only by the step that takes the request out of the registry,
and the registry takes one entry for each registration. The answers of peers pass by the registry,
so there can be an outcome while the request is still pending, and one after it has been concluded.
`Claimed` rules out these two, and `along_claimed_iff` says that nothing less will do: a run meets
it at every step if and only if at each of its points no request has two outcomes, nor gets a second
one if the sender fails a request next.
-/

namespace Avalanche.Networking

/-- What happens to a request, as far as its outcomes go. -/
inductive Entry (χ : Type)
  | registered (id : RequestId)
  | pushed (d : Delivery χ)

/-- The number of outcomes since the last registration, newest entry first; none for a request that
was never registered. -/
def outcomes {χ : Type} (id : RequestId) : List (Entry χ) → Option ℕ
  | [] => none
  | .registered q :: log => if q = id then some 0 else outcomes id log
  | .pushed d :: log =>
    if d.concludes = some id then (outcomes id log).map (· + 1) else outcomes id log

theorem outcomes_pushed_of_eq {χ : Type} {id : RequestId} {d : Delivery χ} {log : List (Entry χ)}
    (h : d.concludes = some id) :
    outcomes id (.pushed d :: log) = (outcomes id log).map (· + 1) := if_pos h

theorem outcomes_pushed_of_ne {χ : Type} {id : RequestId} {d : Delivery χ} {log : List (Entry χ)}
    (h : d.concludes ≠ some id) : outcomes id (.pushed d :: log) = outcomes id log := if_neg h

structure Session (α χ : Type) where
  router : ChainRouter α χ
  log : List (Entry χ)

namespace Session

variable {α χ : Type}
variable {r : ChainRouter α χ} {id : RequestId}

/-- A router that has been given no chain and no request. -/
def new (config : TimeoutConfig α) : Session α χ := ⟨.new (.new config), []⟩

/-- No request that was registered has two outcomes. -/
def OneOutcome (s : Session α χ) : Prop :=
  ∀ id n, outcomes id s.log = some n → n ≤ 1

/-! ### The invariant -/

/-- No request has two outcomes, and one that is pending has none. -/
structure Counted (s : Session α χ) : Prop where
  le_one : s.OneOutcome
  of_pending : ∀ id, s.router.Pending id → outcomes id s.log = some 0

variable {s : Session α χ}

/-- Nothing is counted for a step that pushes nothing and registers nothing. -/
theorem Counted.of_pending_subset (h : s.Counted)
    (hr : ∀ id, r.Pending id → s.router.Pending id) : Counted ⟨r, s.log⟩ :=
  ⟨h.le_one, fun id hid ↦ h.of_pending id (hr id hid)⟩

/-- A push is counted for a request that leaves the registry or was taken out of it before. -/
theorem Counted.pushed {d : Delivery χ} (h : s.Counted)
    (hd : ∀ id, d.concludes = some id → ∀ n, outcomes id s.log = some n → ¬ r.Pending id ∧ n = 0)
    (hr : ∀ id, r.Pending id → s.router.Pending id) : Counted ⟨r, .pushed d :: s.log⟩ := by
  constructor
  · intro id n hn
    by_cases hid : d.concludes = some id
    · rw [outcomes_pushed_of_eq hid, Option.map_eq_some_iff] at hn
      obtain ⟨m, hm, rfl⟩ := hn
      rw [(hd id hid m hm).2]
    · rw [outcomes_pushed_of_ne hid] at hn
      exact h.le_one id n hn
  · intro id hpending
    have hzero := h.of_pending id (hr id hpending)
    by_cases hid : d.concludes = some id
    · exact absurd hpending (hd id hid 0 hzero).1
    · rw [outcomes_pushed_of_ne hid, hzero]

/-- The entry of a request is taken out, and its failure pushed if there is a handler for it. -/
theorem Counted.taken {push : Option (Delivery χ)}
    (h : s.Counted) (hr : r.timeouts.pending = s.router.timeouts.pending.erase id)
    (hpush : ∀ d, push = some d → s.router.Pending id ∧ d.concludes = some id) :
    Counted ⟨r, push.toList.map .pushed ++ s.log⟩ := by
  have hsub : ∀ q, r.Pending q → s.router.Pending q :=
    fun q hq ↦ (ChainRouter.pending_of_erase hr hq).2
  cases push with
  | none => exact h.of_pending_subset hsub
  | some d =>
    obtain ⟨hid, hd⟩ := hpush d rfl
    refine h.pushed (fun q hq n hn ↦ ?_) hsub
    cases hd.symm.trans hq
    rw [h.of_pending id hid] at hn
    exact ⟨fun hpending ↦ (ChainRouter.pending_of_erase hr hpending).1 rfl,
      (Option.some.inj hn).symm⟩

theorem Counted.registered (h : s.Counted) (hr : ∀ q, q ≠ id → r.Pending q → s.router.Pending q) :
    Counted ⟨r, .registered id :: s.log⟩ := by
  constructor
  · intro q n hn
    by_cases hq : id = q
    · rw [outcomes, if_pos hq] at hn
      cases hn
      exact Nat.zero_le 1
    · rw [outcomes, if_neg hq] at hn
      exact h.le_one q n hn
  · intro q hpending
    by_cases hq : id = q
    · rw [outcomes, if_pos hq]
    · rw [outcomes, if_neg hq]
      exact h.of_pending q (hr q (Ne.symm hq) hpending)

theorem counted_new (config : TimeoutConfig α) : (new config : Session α χ).Counted where
  le_one id n h := by cases h
  of_pending id h := by simp [new, ChainRouter.new, ChainRouter.Pending, ManagerState.new] at h

/-! ### Steps -/

variable [ChainMessageSink χ] (A : Averager α)

/-- The entries of a step. -/
def entries (e : Event χ) (push : Option (Delivery χ)) : List (Entry χ) :=
  push.toList.map .pushed ++
    match e with
    | .registerRequest _ id => [.registered id]
    | _ => []

def step (s : Session α χ) (e : Event χ) : Session α χ :=
  let (router, push) := s.router.step A e
  ⟨router, entries e push ++ s.log⟩

/-- A message that is handed to a chain and concludes a registered request finds the request taken
out of the registry and without an outcome. -/
def Claimed (s : Session α χ) : Event χ → Prop
  | .handleInbound msg => (s.router.handleInbound msg).isSome →
      ∀ id, msg.concludes = some id → ∀ n, outcomes id s.log = some n →
        ¬ s.router.Pending id ∧ n = 0
  | _ => True

variable {A}

/-- The step lemma. -/
theorem Counted.step (h : s.Counted) {e : Event χ} (he : s.Claimed e) :
    (s.step A e).Counted := by
  cases e with
  | addChain chain handler => exact h.of_pending_subset fun _ hid ↦ hid
  | handleInbound msg =>
    cases hpush : s.router.handleInbound msg with
    | none => simpa [Session.step, ChainRouter.step, hpush, entries] using h
    | some d =>
      obtain ⟨handler, -, rfl⟩ := ChainRouter.handleInbound_eq_some hpush
      simpa [Session.step, ChainRouter.step, hpush, entries]
        using h.pushed (d := .routed handler msg) (he (by rw [hpush]; rfl)) fun _ hid ↦ hid
  | registerRequest now id =>
    refine h.registered (r := s.router.registerRequest now id) fun q hq hpending ↦ ?_
    rwa [ChainRouter.Pending, ChainRouter.registerRequest, ManagerState.lookup_put, if_neg hq]
      at hpending
  | failRequest id =>
    obtain ⟨-, hpending, hpush⟩ := s.router.failRequest_cases id
    simp only [Session.step, ChainRouter.step, entries, List.append_nil]
    refine h.taken hpending fun d hd ↦ ?_
    rcases hpush with hpush | ⟨handler, -, hid, hpush⟩
    · cases hpush.symm.trans hd
    · cases hpush.symm.trans hd
      exact ⟨hid, rfl⟩
  | onResponse now id =>
    refine h.of_pending_subset (r := s.router.onResponse A now id) fun q hq ↦ ?_
    rw [ChainRouter.Pending, ChainRouter.onResponse, ManagerState.lookup_remove] at hq
    split at hq
    · cases hq
    · exact hq
  | fireExpired now id =>
    rcases s.router.fireExpired_cases A now id with hnone | ⟨t, ht, -, hpending, hpush⟩
    · simpa [Session.step, ChainRouter.step, hnone, entries] using h
    · simp only [Session.step, ChainRouter.step, entries, List.append_nil]
      refine h.taken hpending fun d hd ↦ ?_
      rw [hpush, Option.map_eq_some_iff] at hd
      obtain ⟨handler, -, rfl⟩ := hd
      exact ⟨by rw [ChainRouter.Pending, ht]; rfl, rfl⟩

/-! ### Runs -/

/-- A message that is handed on adds an outcome to the request it concludes. -/
theorem outcomes_handleInbound {msg : InboundMessage} {n : ℕ}
    (hpush : (s.router.handleInbound msg).isSome) (hid : msg.concludes = some id)
    (hn : outcomes id s.log = some n) :
    outcomes id (s.step A (.handleInbound msg)).log = some (n + 1) := by
  obtain ⟨d, hd⟩ := Option.isSome_iff_exists.mp hpush
  obtain ⟨handler, -, rfl⟩ := ChainRouter.handleInbound_eq_some hd
  have hlog : (s.step A (.handleInbound msg)).log = .pushed (.routed handler msg) :: s.log := by
    simp [Session.step, ChainRouter.step, hd, entries]
  rw [hlog, outcomes_pushed_of_eq (by exact hid), hn, Option.map_some]

/-- A pending request that is failed gets an outcome, if its chain has a handler. -/
theorem outcomes_failRequest {n : ℕ} (hid : s.router.Pending id)
    (hhandler : (s.router.handlerFor id.chain).isSome) (hn : outcomes id s.log = some n) :
    outcomes id (s.step A (.failRequest id)).log = some (n + 1) := by
  obtain ⟨handler, hhandler⟩ := Option.isSome_iff_exists.mp hhandler
  have hlog : (s.step A (.failRequest id)).log = .pushed (.failed handler id) :: s.log := by
    rw [ChainRouter.handlerFor] at hhandler
    rw [ChainRouter.Pending] at hid
    simp [Session.step, ChainRouter.step, ChainRouter.failRequest, ManagerState.cancel,
      ChainRouter.handlerFor, hid, hhandler, entries]
  rw [hlog, outcomes_pushed_of_eq rfl, hn, Option.map_some]

/-- The chain of a message that is handed on has a handler. -/
theorem handlerFor_isSome {msg : InboundMessage}
    (hpush : (s.router.handleInbound msg).isSome) (hid : msg.concludes = some id) :
    (s.router.handlerFor id.chain).isSome := by
  obtain ⟨d, hd⟩ := Option.isSome_iff_exists.mp hpush
  obtain ⟨handler, hhandler, -⟩ := ChainRouter.handleInbound_eq_some hd
  rw [InboundMessage.concludes, Option.map_eq_some_iff] at hid
  obtain ⟨q, -, rfl⟩ := hid
  rw [hhandler]
  rfl

/-- If there is at most one outcome after a step, and after failing any request next, then the
message of that step was claimed. -/
theorem claimed_of_oneOutcome {e : Event χ} (h : (s.step A e).OneOutcome)
    (hfail : ∀ id, ((s.step A e).step A (.failRequest id)).OneOutcome) : s.Claimed e := by
  cases e with
  | handleInbound msg =>
    intro hpush id hid n hn
    have hn' := outcomes_handleInbound (A := A) hpush hid hn
    refine ⟨fun hpending ↦ ?_, by have := h id _ hn'; omega⟩
    -- the request is still pending, so that failing it makes a second outcome
    have hn'' := outcomes_failRequest (A := A) (s := s.step A (.handleInbound msg)) hpending
      (handlerFor_isSome hpush hid) hn'
    have := hfail id id _ hn''
    omega
  | _ => trivial

/-- The answers of a run are all claimed if and only if, at each point of it, no request has two
outcomes, and none gets a second one if a request is failed next. -/
theorem along_claimed_iff (A : Averager α) (config : TimeoutConfig α) (l : List (Event χ)) :
    Steps.Along (step A) Claimed (new config) l ↔
      ∀ p, p <+: l → (Steps.exec (step A) (new config) p).OneOutcome ∧
        ∀ id, (Steps.exec (step A) (new config) (p ++ [.failRequest id])).OneOutcome := by
  constructor
  · rintro h p ⟨m, rfl⟩
    have hp := Steps.exec_of_along (fun s e hs he ↦ Counted.step hs he)
      (Steps.along_append.mp h).1 (counted_new config)
    refine ⟨hp.le_one, fun id ↦ ?_⟩
    rw [Steps.exec_append]
    exact (Counted.step (A := A) (e := .failRequest id) hp trivial).le_one
  · intro h
    rw [Steps.along_iff]
    intro p e hp
    have hpe := h (p ++ [e]) hp
    simp only [List.append_assoc, Steps.exec_append, Steps.exec_cons, Steps.exec_nil] at hpe
    exact claimed_of_oneOutcome hpe.1 hpe.2

/-! ### A request that is answered in time -/

/-- Node `1` is asked for a block at time `0`, with `10` nanoseconds to answer, and answers with it.
The entry of the request stays, and its time comes. -/
def answeredRun : List (Event Unit) :=
  [.addChain 7 (), .registerRequest 0 ⟨1, 7, 42, Op.get⟩, .handleInbound ⟨1, 7, .put 42 [0xbb]⟩,
    .fireExpired 10 ⟨1, 7, 42, Op.get⟩]

/-- The handler gets the answer and the failure. -/
theorem answered_not_oneOutcome :
    ¬ (Steps.exec (step .steady) (new ⟨(), 10, 5, 20⟩) answeredRun).OneOutcome := by
  intro h
  have htwo := h ⟨1, 7, 42, Op.get⟩ 2 (by rfl)
  omega

end Session

end Avalanche.Networking
