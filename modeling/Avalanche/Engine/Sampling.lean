import Avalanche.Engine.Keeping
import Avalanche.Snowman.Run

/-!
# What the consensus core gets to see

Every result that the engine records comes from a poll of its own over a full sample of `k` draws,
as long as the engine does not gossip: `gossip` opens a poll over a single draw, and its result
reaches the consensus core like any other.

`Accounted` is the invariant behind it: there is a ledger of the outstanding polls in which the
recorded results, and those that have left the polls and are about to be recorded, stand at
different samples. Each handler keeps it. An error on the way loses results, never samples.
-/

set_option mvcgen.warning false

namespace Avalanche

theorem PollSet.From.append {samples : List (Bag NodeId)} {source : List ℕ}
    {results : List (Bag Id)} (h : From samples source results) (more : List (Bag NodeId)) :
    From (samples ++ more) source results := by
  refine List.Forall₂.imp ?_ h
  rintro i votes ⟨sample, hsample, htallied⟩
  refine ⟨sample, ?_, htallied⟩
  rw [List.getElem?_append_left (List.getElem?_eq_some_iff.mp hsample).1, hsample]

namespace SnowmanEngine

variable {W : Type} {k : ℕ} {cfg : EngineConfig W} {e : SnowmanEngine W} {pending : List (Bag Id)}

/-- The recorded results and those in `pending` come from different samples of `k` draws. -/
def Accounted (k : ℕ) (pending : List (Bag Id)) (e : SnowmanEngine W) : Prop :=
  ∃ owner used done source, e.polls.Ledger e.samples owner used ∧ (done ++ source).Nodup ∧
    (∀ i ∈ done ++ source, i ∈ used) ∧ PollSet.From e.samples done e.recorded ∧
    PollSet.From e.samples source pending ∧ ∀ sample ∈ e.samples, sample.len = k

theorem accounted_new (cfg : EngineConfig W) (world : W) : Accounted k [] (new cfg world) :=
  ⟨fun _ ↦ 0, [], [], [], PollSet.Ledger.new (Poll.counts_newPoll _), List.nodup_nil, by simp,
    .nil, .nil, by simp [new]⟩

/-- Results that are not recorded may be forgotten. -/
theorem Accounted.forget (h : Accounted k pending e) : Accounted k [] e := by
  obtain ⟨owner, used, done, source, hledger, hnodup, hused, hdone, -, hlen⟩ := h
  refine ⟨owner, used, done, [], hledger, ?_, ?_, hdone, .nil, hlen⟩
  · rw [List.append_nil]
    exact (List.nodup_append.mp hnodup).1
  · intro i hi
    rw [List.append_nil] at hi
    exact hused i (List.mem_append_left _ hi)

theorem Accounted.record {result : Bag Id} (h : Accounted k (result :: pending) e) :
    Accounted k pending { e with recorded := e.recorded ++ [result] } := by
  obtain ⟨owner, used, done, source, hledger, hnodup, hused, hdone, hsource, hlen⟩ := h
  cases hsource with
  | @cons i _ source _ hi hsource =>
    refine ⟨owner, used, done ++ [i], source, hledger, ?_, ?_, ?_, hsource, hlen⟩
    · rwa [List.append_assoc]
    · rwa [List.append_assoc]
    · exact List.rel_append hdone (.cons hi .nil)

theorem Accounted.respond (h : Accounted k [] e) (req : UInt32) (r : Response) :
    Accounted k (e.polls.respond req r).1 { e with polls := (e.polls.respond req r).2 } := by
  obtain ⟨owner, used, done, source, hledger, hnodup, hused, hdone, hsource, hlen⟩ := h
  cases hsource
  obtain ⟨source, hledger', hsource⟩ := hledger.respond req r
  rw [List.append_nil] at hnodup hused
  refine ⟨owner, used ++ source, done, source, hledger', ?_, ?_, hdone, hsource, hlen⟩
  · have hnew := List.nodup_append.mp hledger'.nodup
    exact List.nodup_append.mpr ⟨hnodup, hnew.2.1, fun i hi j hj ↦ hnew.2.2 i (hused i hi) j hj⟩
  · intro i hi
    rw [List.mem_append] at hi ⊢
    exact hi.imp_left (hused i)

/-- A poll is opened over `k` draws. -/
theorem Accounted.open (h : Accounted k [] e) (req : UInt32) {sample : Bag NodeId}
    (hsample : sample.len = k) :
    Accounted k [] { e with
      polls := { e.polls with polls := e.polls.polls.insert req (e.polls.factory sample) }
      samples := e.samples ++ [sample] } := by
  obtain ⟨owner, used, done, source, hledger, hnodup, hused, hdone, hsource, hlen⟩ := h
  refine ⟨_, used, done, source, hledger.insert req sample, hnodup, hused, hdone.append _,
    hsource.append _, ?_⟩
  intro s hs
  rw [List.mem_append, List.mem_singleton] at hs
  obtain hs | rfl := hs
  · exact hlen s hs
  · exact hsample

/-- The handlers that request nothing keep `Accounted`, and requests are no part of it. -/
def accounted (W : Type) (k : ℕ) : Invariant W where
  holds := Accounted k
  size := (· = k)
  world _ h := h
  sent _ h := h
  requestId h := h
  frontiers _ h := h
  building _ h := h
  clear blkId h := by
    rw [clearRequest, Handler.exec_modify]
    split <;> exact h
  forget := Accounted.forget
  record := Accounted.record
  answer req r h := h.respond req r
  opened req _ hsize h := h.open req hsize

theorem accounted_handle (fuel : ℕ) {m : Message} (hm : m = .gossip → cfg.params.k = 1) :
    Handler.Keeps (Accounted cfg.params.k.toNat []) (handle cfg fuel m) := by
  have hrequest (node : NodeId) (blkId : Id) :
      Handler.Keeps (Accounted (W := W) cfg.params.k.toNat []) (sendRequest node blkId) := by
    mvcgen [sendRequest, nextRequestId, send]
  have hfailed (node : NodeId) (req : UInt32) :
      Handler.Keeps (Accounted (W := W) cfg.params.k.toNat []) (getFailed node req) := by
    refine Handler.spec_of_exec fun e h ↦ ?_
    rw [getFailed, Handler.exec_modify]
    split <;> exact h
  refine Invariant.handle (I := accounted W cfg.params.k.toNat) rfl hrequest hfailed fuel ?_
  intro hgossip
  exact congrArg UInt32.toNat (hm hgossip).symm

/-! ## Runs -/

/-- The recorded results are tallied from samples of `k` draws, no two from the same one. -/
def FullSamples (k : ℕ) (e : SnowmanEngine W) : Prop :=
  ∃ source : List ℕ, source.Nodup ∧ List.Forall₂ (fun i votes ↦
    ∃ sample, e.samples[i]? = some sample ∧ sample.len = k ∧ Tallied sample votes) source e.recorded

theorem Accounted.fullSamples (h : Accounted k [] e) : FullSamples k e := by
  obtain ⟨owner, used, done, source, -, hnodup, -, hdone, -, hlen⟩ := h
  refine ⟨done, (List.nodup_append.mp hnodup).1, List.Forall₂.imp ?_ hdone⟩
  rintro i votes ⟨sample, hsample, htallied⟩
  exact ⟨sample, hsample, hlen sample (List.mem_of_getElem? hsample), htallied⟩

/-- **Full samples.** In a run without gossip, or with samples of one draw, every recorded result
comes from a poll of its own over `k` draws, in which each validator's draws count once. -/
theorem fullSamples_run (fuel : ℕ) (world : W) {msgs : List Message}
    (hgossip : .gossip ∈ msgs → cfg.params.k = 1) :
    FullSamples cfg.params.k.toNat (run cfg fuel world msgs) := by
  refine Accounted.fullSamples (Handler.Keeps.execAll (fun m hm ↦ ?_) (accounted_new cfg world))
  exact accounted_handle fuel fun h ↦ hgossip (h ▸ hm)

end SnowmanEngine

/-! ## An engine over the snowman consensus -/

/-- The snowman consensus as the core of an engine. -/
def Topological.consensus {F : Factory} : SnowmanConsensus (Topological F) where
  numProcessing := numProcessing
  processing := processing
  isPreferred := isPreferred
  lastAccepted := lastAccepted
  preference := Topological.preference
  preferenceAtHeight := preferenceAtHeight
  getParent := getParent
  add b t :=
    match t.add b with
    | .ok t => (.ok (), t)
    | .error e => (.error e, t)
  recordPoll votes t :=
    match t.recordPoll votes with
    | .ok t => (.ok (), t)
    | .error (.error e) => (.error e, t)
    | .error .diverges => (.error (.other "diverges"), t)

namespace SnowmanEngine

open Topological

/-- A virtual machine that knows the one block `2` on top of block `1`. -/
def demoVm {W : Type} : ChainVm W where
  lastAccepted w := (.ok 1, w)
  parseBlock _ w := (.ok (exampleBlock 2 1 1), w)
  getBlock id w := (if id = 2 then .ok (exampleBlock 2 1 1) else .error "not found", w)
  getBlockIdAtHeight _ w := (.error "not found", w)
  buildBlock w := (.error "no transactions", w)
  setPreference _ w := (.ok (), w)
  verify _ w := (.ok (), w)
  accept _ w := (.ok (), w)

/-- Samples of three draws, all of validator `7`. -/
def demoConfig : EngineConfig (Topological snowballFactory) where
  subnetId := 0
  params := { exampleParams with k := 3, alphaPreference := 2, alphaConfidence := 2 }
  consensus := Topological.consensus
  vm := demoVm
  validators := ⟨fun _ size w ↦ (some (List.replicate size 7), w), by simp +contextual [eq_comm]⟩
  isCancelled _ := false

/-- Block `2` is put, and the validator votes for it. -/
theorem fullSamples_demo :
    let e := run demoConfig 10 exampleInstance [.put 7 0 [], .chits 7 1 2 2 1 0]
    e.recorded = [⟨[2, 2, 2]⟩] ∧ FullSamples 3 e :=
  ⟨by decide +kernel, fullSamples_run 10 exampleInstance (by simp)⟩

/-- After gossip, a single draw's vote is recorded while the samples are of three draws. -/
theorem gossip_recorded :
    let e := run demoConfig 10 exampleInstance [.gossip, .chits 7 1 2 2 1 0]
    e.recorded = [⟨[2]⟩] ∧ ¬ FullSamples 3 e := by
  intro e
  have hrecorded : e.recorded = [⟨[2]⟩] := by decide +kernel
  have hsamples : e.samples = [⟨[7]⟩, ⟨[7, 7, 7]⟩] := by decide +kernel
  refine ⟨hrecorded, ?_⟩
  rintro ⟨source, -, hfrom⟩
  rw [hrecorded, hsamples] at hfrom
  obtain ⟨i, -, ⟨sample, hsample, hlen, choice, hvotes⟩, -⟩ := List.forall₂_cons_right_iff.mp hfrom
  have hmem : sample = ⟨[7]⟩ ∨ sample = ⟨[7, 7, 7]⟩ := by
    simpa using List.mem_of_getElem? hsample
  obtain rfl | rfl := hmem
  · cases hlen
  · -- the three draws vote together or not at all
    have hcount := hvotes.length_eq
    cases hchoice : choice 7#160 <;> simp [hchoice] at hcount

end SnowmanEngine

end Avalanche
