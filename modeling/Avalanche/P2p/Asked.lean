import Avalanche.Library.Steps
import Avalanche.P2p.Network

/-!
# Replies come from the node that was asked

A node runs the requests of the clients, the router, and the ops on their way from the router to the
VM in any interleaving. A call of `app_request` takes three locked steps: it takes a number, puts
its callback under it, and registers the request with the router; it ends when the message was sent,
or fails or is dropped and takes its callback back. Ops that were pushed may reach the VM in any
order, since the router pushes failures on tasks of their own.

That a callback is called at most once holds in every run. Whom the reply is from is checked nowhere
on the way, so it depends on the peers: `Answered` asks of every reply that the router hands on that
its number was not issued for another node last, and of every number that is issued that nothing
under it is still on its way for another node, which only matters once the counter wraps around.
-/

namespace Avalanche.P2p

open Networking

/-- A request that a client was asked to make: the count of the call, and the node. -/
structure Asked where
  serial : ℕ
  node : NodeId
deriving DecidableEq

/-- A call of `app_request` that has not returned; `guarded` once its callback was put. -/
structure Request where
  node : NodeId
  requestId : BitVec 32
  guarded : Bool

/-- A callback that was called, and the push that was the cause. -/
structure Called (χ : Type) where
  call : Call Asked
  cause : Delivery χ

structure Node (α χ : Type) where
  network : P2pNetwork Asked
  router : ChainRouter α χ
  /-- The calls that have not returned, by their count. -/
  requests : AList fun _ : ℕ ↦ Request
  serial : ℕ
  /-- The pushes on their way to the VM. -/
  queue : List (Delivery χ)
  called : List (Called χ)
  /-- The node for which a number was last issued. -/
  asked : BitVec 32 → Option NodeId

inductive Step (χ : Type)
  | appRequest (node : NodeId)
  | insertPending (serial : ℕ)
  | sendAppRequest (now serial : ℕ)
  | sent (serial : ℕ)
  | dropped (serial : ℕ)
  | router (e : Event χ)
  | deliver (i : ℕ)

namespace Node

variable {α χ : Type} [ChainMessageSink χ] [DecidableEq χ]

def new (config : TimeoutConfig α) : Node α χ where
  network := .new
  router := .new (.new config)
  requests := ∅
  serial := 0
  queue := []
  called := []
  asked := fun _ ↦ none

variable (A : Averager α) (chain : Id) (sink : χ)

/-- What others do with the router. The application requests of the chain are registered by its
clients, and its handler is added for it alone. -/
def foreign : Event χ → Bool
  | .registerRequest _ id => decide (¬(id.chain = chain ∧ id.op = Op.appRequest))
  | .addChain c handler => decide (handler = sink → c = chain)
  | _ => true

def push (s : Node α χ) (r : ChainRouter α χ × Option (Delivery χ)) : Node α χ :=
  { s with router := r.1, queue := s.queue ++ r.2.toList }

def step (s : Node α χ) : Step χ → Node α χ
  | .appRequest node =>
    let (network, requestId) := s.network.fetchRequestId
    { s with
      network
      requests := s.requests.insert s.serial ⟨node, requestId, false⟩
      serial := s.serial + 1
      asked := Function.update s.asked requestId (some node) }
  | .insertPending serial =>
    match s.requests.lookup serial with
    | some r =>
      if r.guarded then s
      else match s.network.insertPending r.requestId ⟨serial, r.node⟩ with
        | .ok network =>
          { s with network, requests := s.requests.insert serial { r with guarded := true } }
        | .error _ => { s with requests := s.requests.erase serial }
    | none => s
  | .sendAppRequest now serial =>
    match s.requests.lookup serial with
    | some r =>
      if r.guarded then
        s.push (s.router.step A (.registerRequest now ⟨r.node, chain, r.requestId, Op.appRequest⟩))
      else s
    | none => s
  | .sent serial =>
    match s.requests.lookup serial with
    | some r => if r.guarded then { s with requests := s.requests.erase serial } else s
    | none => s
  | .dropped serial =>
    match s.requests.lookup serial with
    | some r =>
      if r.guarded then
        { s with
          network := s.network.dropGuard r.requestId
          requests := s.requests.erase serial }
      else s
    | none => s
  | .router e => if foreign chain sink e then s.push (s.router.step A e) else s
  | .deliver i =>
    match s.queue[i]? with
    | some d =>
      let s := { s with queue := s.queue.eraseIdx i }
      if d.sink = sink then
        let (network, call) := s.network.handle d.node d.op
        { s with network, called := call.toList.map (⟨·, d⟩) ++ s.called }
      else s
    | none => s

/-- A message received from the node, or the failure of an application request to it. -/
def IsFrom (chain : Id) (node : NodeId) : Delivery χ → Prop
  | .routed _ msg => msg.node = node
  | .failed _ id => id.node = node ∧ id.chain = chain ∧ id.op = Op.appRequest

/-- Every callback was called at most once, and for the node that was asked. -/
structure FromAsked (chain : Id) (s : Node α χ) : Prop where
  once : (s.called.map (·.call.callback.serial)).Nodup
  isFrom : ∀ c ∈ s.called, IsFrom chain c.call.callback.node c.cause

/-- Replies are from nodes for which their number was last issued, if it was, and what is still on
its way under a number that is issued is for the same node. -/
def Answered (s : Node α χ) : Step χ → Prop
  | .appRequest node =>
    (s.network.pending.lookup s.network.requestId).all (·.node = node) ∧
    (∀ r ∈ s.requests.entries, r.2.requestId = s.network.requestId → r.2.node = node) ∧
    (∀ id ∈ s.router.timeouts.pending.keys, id.chain = chain → id.op = Op.appRequest →
      id.requestId = s.network.requestId → id.node = node) ∧
    ∀ d ∈ s.queue, d.sink = sink → appRequestId d.op = some s.network.requestId → d.node = node
  | .router (.handleInbound msg) =>
    s.router.handlerFor msg.chain = some sink →
      (appRequestId msg.op).all fun i ↦ (s.asked i).all (· = msg.node)
  | _ => True

instance decidableAnswered (s : Node α χ) : ∀ e, Decidable (s.Answered chain sink e)
  | .appRequest _ => inferInstanceAs (Decidable (_ ∧ _ ∧ _ ∧ _))
  | .router (.handleInbound _) => inferInstanceAs (Decidable (_ → _))
  | .router (.addChain ..) | .router (.registerRequest ..) | .router (.failRequest _)
  | .router (.onResponse ..) | .router (.fireExpired ..) | .insertPending _ | .sendAppRequest ..
  | .sent _ | .dropped _ | .deliver _ => .isTrue trivial

/-! ### What a step can do -/

/-- Callbacks, calls and pushes may have gone away. -/
structure Fewer (s' s : Node α χ) : Prop where
  called : s'.called = s.called
  serial : s'.serial = s.serial
  router : s'.router = s.router
  asked : s'.asked = s.asked
  pending : ∀ i a, s'.network.pending.lookup i = some a → s.network.pending.lookup i = some a
  requests : ∀ k r, s'.requests.lookup k = some r → s.requests.lookup k = some r
  queue : s'.queue ⊆ s.queue

/-- A call starts, puts its callback or registers its request; the router takes a step; a reply
calls a callback; or things go away. -/
inductive Change (s : Node α χ) : Step χ → Node α χ → Prop
  | started (node : NodeId) : Change s (.appRequest node)
      { s with
        network := s.network.fetchRequestId.1
        requests := s.requests.insert s.serial ⟨node, s.network.requestId, false⟩
        serial := s.serial + 1
        asked := Function.update s.asked s.network.requestId (some node) }
  | put (k : ℕ) (r : Request) (hk : s.requests.lookup k = some r) (hr : r.guarded = false) :
      Change s (.insertPending k)
        { s with
          network.pending := s.network.pending.insert r.requestId ⟨k, r.node⟩
          requests := s.requests.insert k { r with guarded := true } }
  | registered (now k : ℕ) (r : Request) (hk : s.requests.lookup k = some r) :
      Change s (.sendAppRequest now k)
        (s.push (s.router.registerRequest now ⟨r.node, chain, r.requestId, Op.appRequest⟩, none))
  | routed (ev : Event χ) (hev : foreign chain sink ev) :
      Change s (.router ev) (s.push (s.router.step A ev))
  | resolved (n : ℕ) (d : Delivery χ) (i : BitVec 32) (a : Asked) (result : Except AppError Bytes)
      (hd : d ∈ s.queue) (hsink : d.sink = sink) (hop : appRequestId d.op = some i)
      (ha : s.network.pending.lookup i = some a) : Change s (.deliver n)
        { s with
          network.pending := s.network.pending.erase i
          queue := s.queue.eraseIdx n
          called := ⟨⟨a, d.node, result⟩, d⟩ :: s.called }
  | fewer (e : Step χ) (s' : Node α χ) (h : s'.Fewer s) : Change s e s'

omit [ChainMessageSink χ] [DecidableEq χ] in
theorem Fewer.refl (s : Node α χ) : s.Fewer s :=
  ⟨rfl, rfl, rfl, rfl, fun _ _ h ↦ h, fun _ _ h ↦ h, fun _ h ↦ h⟩

theorem lookup_of_erase {κ : Type} {β : Type} [DecidableEq κ] {m : AList fun _ : κ ↦ β} {i j : κ}
    {b : β} (h : (m.erase i).lookup j = some b) : m.lookup j = some b := by
  by_cases hji : j = i
  · rw [hji, AList.lookup_erase] at h
    cases h
  · rwa [AList.lookup_erase_ne hji] at h

theorem step_change (s : Node α χ) (e : Step χ) :
    Change A chain sink s e (s.step A chain sink e) := by
  have hsame : Change A chain sink s e s := .fewer e s (.refl s)
  have hgone : ∀ k, ({ s with requests := s.requests.erase k } : Node α χ).Fewer s :=
    fun k ↦ { Fewer.refl s with requests := fun _ _ h ↦ lookup_of_erase h }
  cases e with
  | appRequest node => exact .started node
  | insertPending k =>
    simp only [step, P2pNetwork.insertPending]
    split
    · rename_i r hk
      split
      · exact hsame
      · rename_i hr
        split_ifs
        · exact .fewer _ _ (hgone k)
        · exact .put k r hk (by simpa using hr)
    · exact hsame
  | sendAppRequest now k =>
    simp only [step]
    split
    · rename_i r hk
      split
      · exact .registered now k r hk
      · exact hsame
    · exact hsame
  | sent k =>
    simp only [step]
    split
    · split
      · exact .fewer _ _ (hgone k)
      · exact hsame
    · exact hsame
  | dropped k =>
    simp only [step]
    split
    · split
      · exact .fewer _ _ { hgone k with pending := fun _ _ h ↦ lookup_of_erase h }
      · exact hsame
    · exact hsame
  | router ev =>
    simp only [step]
    split
    · rename_i hev
      exact .routed ev hev
    · exact hsame
  | deliver n =>
    have hq : ({ s with queue := s.queue.eraseIdx n } : Node α χ).Fewer s :=
      { Fewer.refl s with queue := List.eraseIdx_subset }
    simp only [step]
    split
    · rename_i d hd
      split
      · rename_i hsink
        rcases s.network.handle_eq d.node d.op with ⟨i, result, hi, heq⟩ | heq
        · rw [heq, P2pNetwork.resolve]
          cases ha : s.network.pending.lookup i with
          | none => exact .fewer _ _ { hq with pending := fun _ _ h ↦ lookup_of_erase h }
          | some a => exact .resolved n d i a result (List.mem_of_getElem? hd) hsink hi ha
        · rw [heq]
          exact .fewer _ _ hq
      · exact .fewer _ _ hq
    · exact hsame

/-! ### Called at most once -/

/-- The calls whose callback was called, waits, or is still to be put. -/
def serials (s : Node α χ) : Multiset ℕ :=
  Multiset.map (fun c : Called χ ↦ c.call.callback.serial) s.called +
    Multiset.map (fun e : Σ _ : BitVec 32, Asked ↦ e.2.serial) s.network.pending.entries +
    Multiset.map Sigma.fst
      (Multiset.filter (fun e : Σ _ : ℕ, Request ↦ e.2.guarded = false) s.requests.entries)

structure Once (s : Node α χ) : Prop where
  nodup : s.serials.Nodup
  lt : ∀ k ∈ s.serials, k < s.serial

section Entries

variable {κ β : Type} [DecidableEq κ] {m m' : AList fun _ : κ ↦ β} {i : κ} {b : β}

theorem entries_le (h : ∀ i b, m.lookup i = some b → m'.lookup i = some b) :
    (m.entries : Multiset (Σ _ : κ, β)) ≤ m'.entries :=
  Multiset.coe_le.mpr <| m.nodupKeys.nodup.subperm fun e he ↦
    AList.mem_lookup_iff.mp (h e.1 e.2 (AList.mem_lookup_iff.mpr he))

theorem cons_entries_erase_le (h : m.lookup i = some b) :
    (⟨i, b⟩ ::ₘ (m.erase i).entries : Multiset (Σ _ : κ, β)) ≤ m.entries := by
  refine (Multiset.cons_le_of_notMem fun hmem ↦ ?_).mpr
    ⟨AList.mem_lookup_iff.mp h, entries_le fun _ _ ↦ lookup_of_erase⟩
  have hlookup := AList.mem_lookup_iff.mpr hmem
  rw [AList.lookup_erase] at hlookup
  cases hlookup

theorem forall_lookup_insert {P : κ → β → Prop} (hb : P i b)
    (h : ∀ j c, m.lookup j = some c → P j c) (j : κ) (c : β)
    (hj : (m.insert i b).lookup j = some c) : P j c := by
  by_cases hji : j = i
  · subst hji
    rw [AList.lookup_insert] at hj
    cases hj
    exact hb
  · exact h j c (by rwa [AList.lookup_insert_ne hji] at hj)

end Entries

section Once

omit [ChainMessageSink χ] [DecidableEq χ]

variable {s s' : Node α χ}

theorem once_new (config : TimeoutConfig α) : (new config : Node α χ).Once := by
  constructor <;> simp [serials, new, P2pNetwork.new]

theorem Once.of_le (h : s.Once) (hserial : s'.serial = s.serial) (hle : s'.serials ≤ s.serials) :
    s'.Once :=
  ⟨Multiset.nodup_of_le hle h.nodup, fun k hk ↦ hserial ▸ h.lt k (Multiset.mem_of_le hle hk)⟩

/-- A call starts under a number above all others. -/
theorem Once.of_le_cons (h : s.Once) (hserial : s'.serial = s.serial + 1)
    (hle : s'.serials ≤ s.serial ::ₘ s.serials) : s'.Once := by
  refine ⟨Multiset.nodup_of_le hle ?_, fun k hk ↦ ?_⟩
  · exact Multiset.nodup_cons.mpr ⟨fun hmem ↦ (h.lt _ hmem).false, h.nodup⟩
  · rw [hserial]
    rcases Multiset.mem_cons.mp (Multiset.mem_of_le hle hk) with rfl | hk
    · exact Nat.lt_succ_self _
    · exact (h.lt k hk).trans (Nat.lt_succ_self _)

end Once

variable {A chain sink} {s : Node α χ}

theorem Once.change {s' : Node α χ} {e : Step χ} (h : s.Once)
    (hs : Change A chain sink s e s') : s'.Once := by
  cases hs with
  | started node =>
    refine h.of_le_cons rfl ?_
    rw [serials, serials, AList.entries_insert, ← Multiset.cons_coe,
      Multiset.filter_cons_of_pos _ (by rfl), Multiset.map_cons, Multiset.add_cons]
    exact Multiset.cons_le_cons _ (Multiset.add_le_add_left (Multiset.map_le_map
      (Multiset.filter_le_filter _ (List.kerase_sublist _ _).subperm)))
  | put k r hk hr =>
    -- the call's own number goes from the requests to the callbacks
    refine h.of_le rfl ?_
    have hrequest := Multiset.map_le_map (f := Sigma.fst)
      (Multiset.filter_le_filter (fun e ↦ e.2.guarded = false) (cons_entries_erase_le hk))
    rw [Multiset.filter_cons_of_pos _ (by exact hr), Multiset.map_cons] at hrequest
    rw [serials, AList.entries_insert, AList.entries_insert, ← Multiset.cons_coe,
      ← Multiset.cons_coe, Multiset.map_cons, Multiset.filter_cons_of_neg _ (by simp),
      Multiset.add_cons, Multiset.cons_add, ← Multiset.add_cons]
    exact add_le_add (Multiset.add_le_add_left (Multiset.map_le_map
      (List.kerase_sublist _ _).subperm)) hrequest
  | registered now k r hk => exact h.of_le rfl (le_refl s.serials)
  | routed ev hev => exact h.of_le rfl (le_refl s.serials)
  | resolved n d i a result hd hsink hop ha =>
    have hcalled := Multiset.map_le_map (f := fun e ↦ e.2.serial) (cons_entries_erase_le ha)
    refine h.of_le rfl (Multiset.add_le_add_right ?_)
    rw [← Multiset.cons_coe, Multiset.map_cons, Multiset.cons_add, ← Multiset.add_cons]
    exact Multiset.add_le_add_left hcalled
  | fewer e s' hfewer =>
    refine h.of_le hfewer.serial ?_
    rw [serials, hfewer.called]
    exact add_le_add (add_le_add le_rfl (Multiset.map_le_map (entries_le hfewer.pending)))
      (Multiset.map_le_map (Multiset.filter_le_filter _ (entries_le hfewer.requests)))

/-! ### Called for the node that was asked -/

/-- What the router holds for the chain is for nodes for which the numbers were last issued. -/
structure Registered (chain : Id) (sink : χ) (asked : BitVec 32 → Option NodeId)
    (r : ChainRouter α χ) : Prop where
  handler : ∀ c, r.handlerFor c = some sink → c = chain
  kept : ∀ id t, r.timeouts.pending.lookup id = some t → t.handler = some sink → id.chain = chain
  asked : ∀ id, r.Pending id → id.chain = chain → id.op = Op.appRequest →
    asked id.requestId = some id.node

/-- A push that answers an application request is for the node for which the number was last issued,
if it was. -/
def Matches (chain : Id) (sink : χ) (asked : BitVec 32 → Option NodeId) (d : Delivery χ) : Prop :=
  d.sink = sink → ∀ i, appRequestId d.op = some i →
    (∀ n, asked i = some n → n = d.node) ∧ IsFrom chain d.node d

section Registered

variable {asked : BitVec 32 → Option NodeId} {r r' : ChainRouter α χ}

omit [ChainMessageSink χ] [DecidableEq χ]

theorem Registered.erase (h : Registered chain sink asked r) {id : RequestId}
    (hchains : r'.chains = r.chains)
    (hpending : r'.timeouts.pending = r.timeouts.pending.erase id) :
    Registered chain sink asked r' where
  handler c hc := h.handler c (by rwa [ChainRouter.handlerFor, hchains] at hc)
  kept q t hq := h.kept q t (lookup_of_erase (hpending ▸ hq))
  asked q hq := h.asked q (ChainRouter.pending_of_erase hpending hq).2

theorem Registered.register (h : Registered chain sink asked r) (now : ℕ) {id : RequestId}
    (hid : id.chain = chain → id.op = Op.appRequest → asked id.requestId = some id.node) :
    Registered chain sink asked (r.registerRequest now id) where
  handler := h.handler
  kept q t hq ht := by
    rw [ChainRouter.registerRequest, ManagerState.lookup_put] at hq
    split at hq
    · rename_i heq
      cases hq
      exact h.handler q.chain (heq ▸ ht)
    · exact h.kept q t hq ht
  asked q hq := by
    rw [ChainRouter.Pending, ChainRouter.registerRequest, ManagerState.lookup_put] at hq
    split at hq
    · rename_i heq
      exact heq ▸ hid
    · exact h.asked q hq

/-- The failure of a pending request matches. -/
theorem Registered.matches_failed (h : Registered chain sink asked r) {id : RequestId}
    {handler : χ} (hid : r.Pending id) (hchain : handler = sink → id.chain = chain) :
    Matches chain sink asked (.failed handler id) := by
  intro hsink i hi
  obtain ⟨hop, rfl⟩ := appRequestId_failed hi
  have hchain := hchain hsink
  have hasked := h.asked id hid hchain hop
  exact ⟨fun n hn ↦ Option.some.inj (hn.symm.trans hasked), rfl, hchain, hop⟩

end Registered

/-- What others do with the router keeps what it holds, and what is pushed matches, if replies are
from nodes for which their number was last issued, if it was. -/
theorem Registered.step {asked : BitVec 32 → Option NodeId} {r : ChainRouter α χ} {ev : Event χ}
    (h : Registered chain sink asked r) (hev : foreign chain sink ev)
    (hmsg : ∀ msg, ev = .handleInbound msg → r.handlerFor msg.chain = some sink →
      ∀ i, appRequestId msg.op = some i → ∀ n, asked i = some n → n = msg.node) :
    Registered chain sink asked (r.step A ev).1 ∧
      ∀ d, (r.step A ev).2 = some d → Matches chain sink asked d := by
  cases ev with
  | addChain c handler =>
    refine ⟨⟨fun c' hc' ↦ ?_, h.kept, h.asked⟩, fun d hd ↦ by cases hd⟩
    refine forall_lookup_insert (P := fun c h ↦ h = sink → c = chain) ?_ ?_ c' sink hc' rfl
    · simpa [foreign, ← imp_iff_not_or] using hev
    · rintro c _ hc rfl
      exact h.handler c hc
  | handleInbound msg =>
    refine ⟨h, fun d hd ↦ ?_⟩
    obtain ⟨handler, hhandler, rfl⟩ := ChainRouter.handleInbound_eq_some hd
    rintro rfl i hi
    exact ⟨hmsg msg rfl hhandler i hi, rfl⟩
  | registerRequest now id =>
    refine ⟨h.register now fun hchain hop ↦ ?_, fun d hd ↦ by cases hd⟩
    simp [foreign, hchain, hop] at hev
  | failRequest id =>
    obtain ⟨hchains, hpending, hpush⟩ := r.failRequest_cases id
    refine ⟨h.erase hchains hpending, fun d hd ↦ ?_⟩
    rw [ChainRouter.step] at hd
    rcases hpush with hpush | ⟨handler, hhandler, hid, hpush⟩
    · rw [hpush] at hd
      cases hd
    · rw [hpush] at hd
      cases hd
      exact h.matches_failed hid fun heq ↦ h.handler _ (heq ▸ hhandler)
  | onResponse now id =>
    refine ⟨⟨h.handler, fun q t hq ↦ ?_, fun q hq ↦ ?_⟩, fun d hd ↦ by cases hd⟩
    · rw [ChainRouter.step, ChainRouter.onResponse, ManagerState.lookup_remove] at hq
      split at hq
      · cases hq
      · exact h.kept q t hq
    · rw [ChainRouter.Pending, ChainRouter.step, ChainRouter.onResponse,
        ManagerState.lookup_remove] at hq
      split at hq
      · cases hq
      · exact h.asked q hq
  | fireExpired now id =>
    rw [ChainRouter.step]
    rcases r.fireExpired_cases A now id with hnone | ⟨t, ht, hchains, hpending, hpush⟩
    · rw [hnone]
      exact ⟨h, fun d hd ↦ by cases hd⟩
    · refine ⟨h.erase hchains hpending, fun d hd ↦ ?_⟩
      rw [hpush, Option.map_eq_some_iff] at hd
      obtain ⟨handler, hhandler, rfl⟩ := hd
      exact h.matches_failed (by rw [ChainRouter.Pending, ht]; rfl)
        fun heq ↦ h.kept id t ht (heq ▸ hhandler)

/-- Everything that is on its way under a number is for the node for which it was last issued, if it
was. -/
structure Matched (chain : Id) (sink : χ) (s : Node α χ) : Prop where
  pending : ∀ i a, s.network.pending.lookup i = some a → s.asked i = some a.node
  requests : ∀ k r, s.requests.lookup k = some r → s.asked r.requestId = some r.node
  router : Registered chain sink s.asked s.router
  queue : ∀ d ∈ s.queue, Matches chain sink s.asked d
  called : ∀ c ∈ s.called, IsFrom chain c.call.callback.node c.cause

omit [ChainMessageSink χ] [DecidableEq χ] in
theorem matched_new (config : TimeoutConfig α) :
    (new config : Node α χ).Matched chain sink where
  pending := by simp [new, P2pNetwork.new]
  requests := by simp [new]
  router := by
    constructor <;> simp [new, ChainRouter.new, ChainRouter.handlerFor, ChainRouter.Pending,
      ManagerState.new]
  queue := by simp [new]
  called := by simp [new]

/-- What was true of the node for a number stays true if the number is issued for it again. -/
theorem update_asked {asked : BitVec 32 → Option NodeId} {i j : BitVec 32} {node n : NodeId}
    (h : asked j = some n) (hij : j = i → n = node) :
    Function.update asked i (some node) j = some n := by
  by_cases hj : j = i
  · rw [hj, Function.update_self, hij hj]
  · rw [Function.update_of_ne hj, h]

omit [ChainMessageSink χ] [DecidableEq χ] in
theorem Matched.started (h : s.Matched chain sink) {node : NodeId}
    (hs : s.Answered chain sink (.appRequest node)) :
    Matched chain sink
      { s with
        network := s.network.fetchRequestId.1
        requests := s.requests.insert s.serial ⟨node, s.network.requestId, false⟩
        serial := s.serial + 1
        asked := Function.update s.asked s.network.requestId (some node) } := by
  obtain ⟨hpending, hrequests, hrouter, hqueue⟩ := hs
  constructor
  · intro i a hi
    refine update_asked (h.pending i a hi) fun hij ↦ ?_
    rw [show s.network.pending.lookup s.network.requestId = some a from hij ▸ hi] at hpending
    simpa using hpending
  · refine forall_lookup_insert (Function.update_self ..) fun k r hk ↦ ?_
    exact update_asked (h.requests k r hk) (hrequests ⟨k, r⟩ (AList.mem_lookup_iff.mp hk))
  · refine ⟨h.router.handler, h.router.kept, fun id hid hchain hop ↦ ?_⟩
    refine update_asked (h.router.asked id hid hchain hop) fun hij ↦ ?_
    exact hrouter id (AList.mem_keys.mp (AList.lookup_isSome.mp hid)) hchain hop hij
  · intro d hd hsink i hi
    obtain ⟨hasked, hfrom⟩ := h.queue d hd hsink i hi
    refine ⟨fun n hn ↦ ?_, hfrom⟩
    change Function.update s.asked s.network.requestId (some node) i = some n at hn
    rw [Function.update_apply] at hn
    split_ifs at hn with hij
    · exact (Option.some.inj hn).symm.trans (hqueue d hd hsink (hij ▸ hi)).symm
    · exact hasked n hn
  · exact h.called

omit [ChainMessageSink χ] [DecidableEq χ] in
theorem Matched.push (h : s.Matched chain sink) {r : ChainRouter α χ × Option (Delivery χ)}
    (hr : Registered chain sink s.asked r.1)
    (hd : ∀ d, r.2 = some d → Matches chain sink s.asked d) : (s.push r).Matched chain sink := by
  refine ⟨h.pending, h.requests, hr, fun d hmem ↦ ?_, h.called⟩
  rcases List.mem_append.mp hmem with hmem | hmem
  · exact h.queue d hmem
  · exact hd d (Option.mem_toList.mp hmem)

theorem Matched.change {s' : Node α χ} {e : Step χ} (h : s.Matched chain sink)
    (he : s.Answered chain sink e) (hs : Change A chain sink s e s') : s'.Matched chain sink := by
  cases hs with
  | started node => exact h.started he
  | put k r hk hr =>
    have hasked := h.requests k r hk
    exact ⟨forall_lookup_insert hasked h.pending, forall_lookup_insert hasked h.requests, h.router,
      h.queue, h.called⟩
  | registered now k r hk =>
    exact h.push (h.router.register now fun _ _ ↦ h.requests k r hk) fun d hd ↦ by cases hd
  | routed ev hev =>
    obtain ⟨hrouter, hpush⟩ := h.router.step (A := A) hev fun msg hmsg hhandler i hi ↦ by
      subst hmsg
      intro n hn
      simpa [hi, hn] using he hhandler
    exact h.push hrouter hpush
  | resolved n d i a result hd hsink hop ha =>
    refine ⟨fun j b hj ↦ h.pending j b (lookup_of_erase hj), h.requests, h.router,
      fun d' hd' ↦ h.queue d' (List.eraseIdx_subset hd'), fun c hc ↦ ?_⟩
    rcases List.mem_cons.mp hc with rfl | hc
    · -- the number was last issued for the node of the callback and for that of the push
      obtain ⟨hasked, hfrom⟩ := h.queue d hd hsink i hop
      have hnode : a.node = d.node := hasked a.node (h.pending i a ha)
      rwa [hnode]
    · exact h.called c hc
  | fewer e s' hfewer =>
    have hasked := hfewer.asked
    constructor
    · exact fun i a hi ↦ hasked ▸ h.pending i a (hfewer.pending i a hi)
    · exact fun k r hk ↦ hasked ▸ h.requests k r (hfewer.requests k r hk)
    · exact hasked ▸ hfewer.router ▸ h.router
    · exact fun d hd ↦ hasked ▸ h.queue d (hfewer.queue hd)
    · exact hfewer.called ▸ h.called

/-! ### Runs -/

/-- In every run whose replies are answers, every callback is called at most once, and for the node
that was asked. -/
theorem fromAsked_of_answered (A : Averager α) (config : TimeoutConfig α) (chain : Id) (sink : χ)
    {l : List (Step χ)} (h : Steps.Along (step A chain sink) (Answered chain sink) (new config) l)
    {p : List (Step χ)} (hp : p <+: l) :
    (Steps.exec (step A chain sink) (new config) p).FromAsked chain := by
  obtain ⟨m, rfl⟩ := hp
  have honce : Once (Steps.exec (step A chain sink) (new config) p) :=
    Steps.exec_of_step (fun s e hs ↦ Once.change hs (s.step_change A chain sink e))
      (once_new config) p
  have hmatched := Steps.exec_of_along
    (fun s e hs he ↦ Matched.change hs he (s.step_change A chain sink e))
    (Steps.along_append.mp h).1 (matched_new config)
  exact ⟨(List.Nodup.of_append_left honce.nodup).of_append_left, hmatched.called⟩

/-- Node `1` is sent the first request of chain `7`, and the router gets a response to it from
`sender`. -/
def responseRun (sender : NodeId) : List (Step Unit) :=
  [.router (.addChain 7 ()), .appRequest 1, .insertPending 0, .sendAppRequest 0 0, .sent 0,
    .router (.handleInbound ⟨sender, 7, .appResponse 0 [0xaa]⟩), .deliver 0]

theorem response_fromAsked :
    (Steps.exec (step .steady 7 ()) (new ⟨(), 10, 5, 20⟩) (responseRun 1)).called.length = 1 ∧
    (Steps.exec (step .steady 7 ()) (new ⟨(), 10, 5, 20⟩) (responseRun 1)).FromAsked 7 :=
  ⟨by decide +kernel, fromAsked_of_answered .steady _ 7 () (by decide +kernel)
    (List.prefix_refl _)⟩

/-- The number is all that has to be guessed: node `2` answers for node `1`. -/
theorem response_not_fromAsked :
    ¬ (Steps.exec (step .steady 7 ()) (new ⟨(), 10, 5, 20⟩) (responseRun 2)).FromAsked 7 := by
  intro h
  have hnode : (2 : NodeId) = 1 := h.isFrom _ (List.mem_cons_self ..)
  revert hnode
  decide

end Node

end Avalanche.P2p
