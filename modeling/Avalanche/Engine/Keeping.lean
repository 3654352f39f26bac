import Avalanche.Engine.SnowmanEngine

/-!
# What the handlers of the engine keep

An invariant of the engine may speak about `pending`, the results that have left the polls and are
about to be recorded. `Invariant` lists the single updates it has to survive, and the rules below
carry it through the handlers, up to `Invariant.handle`. Requests are left to the caller, so that
what holds only as long as nothing is requested is carried as far as that.
-/

set_option mvcgen.warning false

namespace Avalanche.SnowmanEngine

open Std.Do

/-- An invariant that survives the updates of the engine, where polls are opened on samples of a
`size`. -/
structure Invariant (W : Type) where
  holds : List (Bag Id) → SnowmanEngine W → Prop
  size : ℕ → Prop
  world : ∀ {pending e} w, holds pending e → holds pending { e with world := w }
  sent : ∀ {pending e} m, holds pending e → holds pending { e with sent := e.sent ++ [m] }
  requestId : ∀ {pending e}, holds pending e →
    holds pending { e with requestId := e.requestId + 1, drawn := e.drawn + 1 }
  frontiers : ∀ {pending e} l, holds pending e → holds pending { e with acceptedFrontiers := l }
  building : ∀ {pending e} n, holds pending e → holds pending { e with pendingBuildBlocks := n }
  clear : ∀ {pending e} blkId, holds pending e → holds pending ((clearRequest blkId).exec e)
  forget : ∀ {pending e}, holds pending e → holds [] e
  record : ∀ {pending e result}, holds (result :: pending) e →
    holds pending { e with recorded := e.recorded ++ [result] }
  answer : ∀ {e} req r, holds [] e →
    holds (e.polls.respond req r).1 { e with polls := (e.polls.respond req r).2 }
  opened : ∀ {e} req {sample : Bag NodeId}, size sample.len → holds [] e → holds [] { e with
    polls := { e.polls with polls := e.polls.polls.insert req (e.polls.factory sample) }
    samples := e.samples ++ [sample] }

namespace Invariant

variable {W : Type} {cfg : EngineConfig W} {I : Invariant W} {pending : List (Bag Id)}

@[spec] theorem outside {α : Type} (f : W → α × W) : Handler.Keeps (I.holds pending) (outside f) :=
  Handler.spec_modifyGet fun _ he ↦ I.world _ he

@[spec] theorem send (m : Outbound) : Handler.Keeps (I.holds pending) (send m) :=
  Handler.spec_modifyGet fun _ he ↦ I.sent m he

@[spec] theorem nextRequestId : Handler.Keeps (I.holds pending) nextRequestId :=
  Handler.spec_modifyGet fun _ he ↦ I.requestId he

@[spec] theorem clearRequest (blkId : Id) : Handler.Keeps (I.holds pending) (clearRequest blkId) :=
  Handler.spec_of_exec fun _ he ↦ I.clear blkId he

@[spec] theorem setVmPreference : Handler.Keeps (I.holds pending) (setVmPreference cfg) := by
  mvcgen [SnowmanEngine.setVmPreference]

@[spec] theorem addUnverifiedBlockToConsensus (blk : Block) :
    Handler.Keeps (I.holds pending) (addUnverifiedBlockToConsensus cfg blk) := by
  mvcgen [SnowmanEngine.addUnverifiedBlockToConsensus]

@[spec] theorem sendChits (node : NodeId) (req : UInt32) (requestedHeight : ℕ) :
    Handler.Keeps (I.holds pending) (sendChits cfg node req requestedHeight) := by
  mvcgen [SnowmanEngine.sendChits]

/-! ## Votes on the way to the consensus core -/

@[spec] theorem respond (req : UInt32) (r : Response) :
    Handler.Spec (I.holds []) (respond req r) (fun results ↦ I.holds results) (I.holds []) :=
  Handler.spec_modifyGet fun _ he ↦ I.answer req r he

/-- The results of the polls that a vote sets free are pending. -/
@[spec] theorem applyVote (fuel : ℕ) (req : UInt32) (node : NodeId) (vote : Id) :
    Handler.Spec (I.holds []) (applyVote cfg fuel req node vote)
      (fun applied ↦ I.holds (applied.getD []))
      (I.holds []) := by
  mvcgen [SnowmanEngine.applyVote]

@[spec] theorem recordPoll (result : Bag Id) :
    Handler.Spec (I.holds (result :: pending)) (recordPoll cfg result) (fun _ ↦ I.holds pending)
      (I.holds []) := by
  mvcgen [SnowmanEngine.recordPoll, SnowmanEngine.outside]
  · exact I.world _ (I.record (by assumption))
  · exact I.forget (I.world _ (I.record (by assumption)))

@[spec] theorem recordPolls (results : List (Bag Id)) :
    Handler.Spec (I.holds results) (recordPolls cfg results) (fun _ ↦ I.holds []) (I.holds []) := by
  induction results with
  | nil => mvcgen [SnowmanEngine.recordPolls]
  | cons result results ih => mvcgen [SnowmanEngine.recordPolls, ih]

/-! ## Polls over samples of the I.size -/

@[spec] theorem addPoll (req : UInt32) {vdrIds : List NodeId} (hsize : I.size vdrIds.length) :
    Handler.Keeps (I.holds []) (addPoll req vdrIds) := by
  refine Handler.spec_modifyGet fun e he ↦ ?_
  by_cases hmem : req ∈ e.polls.polls
  · simpa [PollSet.add, hmem] using he
  · have hsample : I.size (vdrIds.foldl Bag.add Bag.new).len := by
      simpa [Bag.foldl_add, Bag.len] using hsize
    simpa [PollSet.add, hmem] using I.opened req hsample he

theorem sampled (subnet : Id) (n : ℕ) :
    Handler.Spec (I.holds []) (SnowmanEngine.outside (cfg.validators.sample subnet n))
      (fun r e ↦ I.holds [] e ∧ ∀ ids, r = some ids → ids.length = n) (I.holds []) :=
  Handler.spec_modifyGet fun _ he ↦ ⟨I.world _ he, fun _ hids ↦ cfg.validators.length_sample hids⟩

/-- Gossip opens a poll over one draw. -/
@[spec] theorem gossip (hone : I.size 1) : Handler.Keeps (I.holds []) (gossip cfg) := by
  mvcgen [SnowmanEngine.gossip, sampled, -Invariant.outside]
  all_goals simp_all

variable (hk : I.size cfg.params.k.toNat)
include hk

@[spec] theorem sendQuery (blkId : Id) (blkBytes : Option (List UInt8)) (push : Bool) :
    Handler.Keeps (I.holds []) (sendQuery cfg blkId blkBytes push) := by
  mvcgen [SnowmanEngine.sendQuery, sampled, -Invariant.outside]
  all_goals simp_all

@[spec] theorem repoll (fuel : ℕ) : Handler.Keeps (I.holds []) (repoll cfg fuel) := by
  have hloop (pref : Id) : Handler.Keeps (I.holds []) (repollLoop cfg pref fuel) := by
    induction fuel with
    | zero => mvcgen [repollLoop]
    | succ fuel ih => mvcgen [repollLoop, ih]
  mvcgen [SnowmanEngine.repoll, hloop]

theorem processPollResults (fuel : ℕ) (results : List (Bag Id)) :
    Handler.Spec (I.holds results) (processPollResults cfg fuel results) (fun _ ↦ I.holds [])
      (I.holds []) := by
  mvcgen [SnowmanEngine.processPollResults]
  exact I.forget (by assumption)

@[spec] theorem issueChain (chain : List Block) :
    Handler.Keeps (I.holds []) (issueChain cfg chain) := by
  have hone (block : Block) : Handler.Keeps (I.holds []) (issueBlock cfg block) := by
    mvcgen [issueBlock]
  induction chain with
  | nil => mvcgen [SnowmanEngine.issueChain]
  | cons block chain ih => mvcgen [SnowmanEngine.issueChain, hone, ih]

/-! ## Handlers that may request a block -/

variable (hrequest : ∀ node blkId, Handler.Keeps (I.holds []) (sendRequest node blkId))
include hrequest

theorem issueFrom (fuel : ℕ) (node : NodeId) (blk : Block) :
    Handler.Keeps (I.holds []) (issueFrom cfg fuel node blk) := by
  have hwalk (fuel : ℕ) (current : Block) (chain : List Block) :
      Handler.Keeps (I.holds []) (walkAncestry cfg node fuel current chain) := by
    induction fuel generalizing current chain with
    | zero => mvcgen [walkAncestry]
    | succ fuel ih => mvcgen [walkAncestry, hrequest, ih]
  mvcgen [SnowmanEngine.issueFrom, hwalk]

theorem issueFromById (fuel : ℕ) (node : NodeId) (blkId : Id) :
    Handler.Keeps (I.holds []) (issueFromById cfg fuel node blkId) := by
  have hissue := issueFrom hk hrequest
  mvcgen [SnowmanEngine.issueFromById, hissue, hrequest]

theorem chits (fuel : ℕ) (node : NodeId) (req : UInt32)
    (preferredId preferredIdAtHeight acceptedId : Id) (acceptedHeight : ℕ) :
    Handler.Keeps (I.holds [])
      (chits cfg fuel node req preferredId preferredIdAtHeight acceptedId acceptedHeight) := by
  have hissue := issueFromById hk hrequest
  have hprocess := processPollResults hk
  mvcgen [SnowmanEngine.chits, hissue, hprocess]
  · exact I.frontiers _ (by assumption)
  -- the first of two votes has reached no poll
  all_goals exact I.forget (by assumption)

theorem buildBlocks (fuel rounds : ℕ) :
    Handler.Keeps (I.holds []) (buildBlocks cfg fuel rounds) := by
  have hissue := issueFrom hk hrequest
  induction rounds with
  | zero => mvcgen [SnowmanEngine.buildBlocks]
  | succ rounds ih =>
    mvcgen [SnowmanEngine.buildBlocks, hissue, ih]
    exact I.building _ (by assumption)

/-- Every handler keeps the invariant. -/
theorem handle (hfailed : ∀ node req, Handler.Keeps (I.holds []) (getFailed node req)) (fuel : ℕ)
    {m : Message} (hm : m = .gossip → I.size 1) :
    Handler.Keeps (I.holds []) (handle cfg fuel m) := by
  have hissue := issueFrom hk hrequest
  have hissueById := issueFromById hk hrequest
  have hchits := chits hk hrequest
  have hbuild := buildBlocks hk hrequest
  cases m with
  | put node req container => mvcgen [SnowmanEngine.handle, put, hfailed, hissue]
  | getFailed node req => exact hfailed node req
  | pullQuery node req blkId height => mvcgen [SnowmanEngine.handle, pullQuery, hissueById]
  | pushQuery node req container height => mvcgen [SnowmanEngine.handle, pushQuery, hissue]
  | chits node req preferredId preferredIdAtHeight acceptedId acceptedHeight =>
    exact hchits fuel node req preferredId preferredIdAtHeight acceptedId acceptedHeight
  | queryFailed node req =>
    have hprocess := processPollResults hk
    mvcgen [SnowmanEngine.handle, queryFailed, hchits, hprocess]
  | gossip => exact gossip (hm rfl)
  | notifyPendingTxs =>
    mvcgen [SnowmanEngine.handle, notifyPendingTxs, hbuild]
    exact I.building _ (by assumption)

end Invariant

end Avalanche.SnowmanEngine
