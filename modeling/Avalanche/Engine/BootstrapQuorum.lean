import Avalanche.Engine.Bootstrapper

/-!
# The quorum behind the tips

The weight tallied for an id is at most the weight of the beacons that reported it, as long as no
reply lists an id twice: a beacon is counted once, but each occurrence in its list counts. If also
the beacons' weights fit into 64 bits, the tips are reported by more than half of the weight
(`quorum_of_mem_acceptedTips`). `tip_without_quorum` is a tip that one of three beacons made on its
own.

The handlers that neither count replies nor pick tips leave the ballot alone, whatever is said about
it; this is shown once, for an arbitrary property.
-/

set_option mvcgen.warning false

namespace Avalanche.Bootstrap

open Std Std.Do

namespace Config

variable {W : Type} (cfg : Config W)

/-- The weight of a beacon, and zero for other nodes. -/
def weightOf (node : NodeId) : ℕ := cfg.beacons[node]?.getD 0

/-- The total weight of the beacons, however large. -/
def weight : ℕ := cfg.beacons.values.sum

theorem foldl_saturatingAdd (l : List ℕ) {a : ℕ} (ha : a ≤ u64Max) :
    l.foldl saturatingAdd a = min (a + l.sum) u64Max := by
  induction l generalizing a with
  | nil => simpa using ha
  | cons x l ih =>
    rw [List.foldl_cons, ih (saturatingAdd_le a x), List.sum_cons, saturatingAdd]
    omega

theorem totalWeight_eq : cfg.totalWeight = min cfg.weight u64Max := by
  rw [totalWeight, foldl_saturatingAdd _ (Nat.zero_le _), Nat.zero_add]
  rfl

end Config

namespace Bootstrapper

variable {W : Type} {cfg : Config W}

/-! ## The ballot -/

/-- A property of what the second round has brought so far: the tallied weights, who responded, the
tips, and the counted replies. -/
abbrev BallotProp :=
  ExtTreeMap Id ℕ → ExtTreeSet NodeId → ExtTreeSet Id → List (NodeId × List Id) → Prop

/-- The property holds of the ballot of `b`. -/
def Ballot (P : BallotProp) (b : Bootstrapper W) : Prop :=
  P b.acceptedWeight b.acceptedReplies b.acceptedTips b.reported

section Frame

variable {P : BallotProp}

theorem outside_ballot {α : Type} (f : W → Except String α × W) :
    Handler.Keeps (Ballot P) (outside f) := by
  mvcgen [outside]

theorem send_ballot (m : Outbound) : Handler.Keeps (Ballot (W := W) P) (send m) :=
  Handler.spec_modifyGet fun _ h ↦ h

variable (cfg : Config W)

theorem checkHalt_ballot : Handler.Keeps (Ballot P) (checkHalt cfg) := by
  mvcgen [checkHalt]

theorem finish_ballot : Handler.Keeps (Ballot (W := W) P) finish := by
  refine Handler.spec_modifyGet fun b h ↦ ?_
  dsimp only
  split <;> exact h

theorem executeHeight_ballot (last height : ℕ) :
    Handler.Keeps (Ballot P) (executeHeight cfg last height) := by
  mvcgen [executeHeight, checkHalt_ballot, outside_ballot]

theorem executeHeights_ballot (last : ℕ) (heights : List ℕ) :
    Handler.Keeps (Ballot P) (executeHeights cfg last heights) := by
  induction heights with
  | nil => mvcgen [executeHeights]
  | cons height heights ih => mvcgen [executeHeights, executeHeight_ballot, ih]

theorem tryStartExecuting_ballot :
    Handler.Keeps (Ballot P) (tryStartExecuting cfg) := by
  mvcgen [tryStartExecuting, execute, executeHeights_ballot, finish_ballot]

theorem fetch_ballot (blkId : Id) :
    Handler.Keeps (Ballot P) (fetch cfg blkId) := by
  mvcgen [fetch, send_ballot]

theorem fetchAll_ballot (tips : List Id) :
    Handler.Keeps (Ballot P) (fetchAll cfg tips) := by
  induction tips with
  | nil => mvcgen [fetchAll]
  | cons tip tips ih => mvcgen [fetchAll, fetch_ballot, ih]

theorem processChain_ballot (chain : List Block) (first : Block) :
    Handler.Keeps (Ballot P) (processChain cfg chain first) := by
  mvcgen [processChain, fetch_ballot]

theorem batchedParseBlock_ballot (containers : List (List UInt8)) :
    Handler.Keeps (Ballot P) (batchedParseBlock cfg containers) := by
  induction containers with
  | nil => mvcgen [batchedParseBlock]
  | cons container containers ih => mvcgen [batchedParseBlock, outside_ballot, ih]

theorem ancestors_ballot (node : NodeId) (req : UInt32)
    (containers : List (List UInt8)) :
    Handler.Keeps (Ballot P) (ancestors cfg node req containers) := by
  mvcgen [ancestors, batchedParseBlock_ballot, fetch_ballot, processChain_ballot,
    tryStartExecuting_ballot]

theorem getAncestorsFailed_ballot (node : NodeId) (req : UInt32) :
    Handler.Keeps (Ballot P) (getAncestorsFailed cfg node req) := by
  mvcgen [getAncestorsFailed, fetch_ballot]

theorem queryFrontier_ballot :
    Handler.Keeps (Ballot P) (queryFrontier cfg) := by
  mvcgen [queryFrontier, send_ballot]

theorem frontierResponse_ballot (node : NodeId) (reply : Option Id) :
    Handler.Keeps (Ballot P) (frontierResponse cfg node reply) := by
  mvcgen [frontierResponse, maybeBeginFrontierAgreement, restartFrontierDiscovery,
    beginFrontierAgreement, queryFrontier_ballot, send_ballot]

theorem start_ballot (startReqId : UInt32) :
    Handler.Keeps (Ballot P) (start cfg startReqId) := by
  mvcgen [start, checkHalt_ballot, outside_ballot, queryFrontier_ballot, finish_ballot]

end Frame

/-! ## Responses -/

/-- Who responds in the second round with this message, and the reply unless it is a failure. -/
def Message.response : Message → Option (NodeId × Option (List Id))
  | .accepted node _ ids => some (node, some ids)
  | .getAcceptedFailed node _ => some (node, none)
  | _ => none

/-- A response is counted. -/
def counted (cfg : Config W) (node : NodeId) (reply : Option (List Id)) (b : Bootstrapper W) :
    Bootstrapper W :=
  let b := { b with acceptedReplies := b.acceptedReplies.insert node }
  reply.elim b fun ids ↦ { b with
    acceptedWeight := tally (cfg.weightOf node) ids b.acceptedWeight
    reported := b.reported ++ [(node, ids)] }

section Respond

variable {b : Bootstrapper W} {node : NodeId} {reply : Option (List Id)} {m : Message}

/-- A second response of a beacon changes nothing. -/
theorem counted_of_mem (hnode : node ∈ b.acceptedReplies) : counted cfg node none b = b := by
  have hset : b.acceptedReplies.insert node = b.acceptedReplies := by
    refine ExtTreeSet.ext_mem fun n ↦ ?_
    rw [ExtTreeSet.mem_insert, LawfulEqCmp.compare_eq_iff_eq, or_iff_right_of_imp]
    rintro rfl
    exact hnode
  rw [counted, hset]
  rfl

/-- A response changes nothing, or it is the first one of a beacon in the second round. Then it is
counted, and the last one picks the tips. -/
theorem handle_response (cfg : Config W) (hm : m.response = some (node, reply))
    (b : Bootstrapper W) :
    (handle cfg m).exec b = b ∨
      b.phase = .agreeingFrontier ∧ node ∈ cfg.beacons ∧ node ∉ b.acceptedReplies ∧
        (handle cfg m).exec b =
          if (counted cfg node reply b).acceptedReplies.size = cfg.beacons.size
            then (beginFetching cfg).exec (counted cfg node reply b)
            else counted cfg node reply b := by
  have hfirst : (firstResponse node).outcome b = .ok (!b.acceptedReplies.contains node) := rfl
  have hinsert : (firstResponse node).exec b = counted cfg node none b := rfl
  by_cases hguard : b.phase ≠ .agreeingFrontier ∨ node ∉ cfg.beacons
  · left
    cases m <;> cases hm <;>
      simp [handle, acceptedReply, getAcceptedFailed, Handler.exec_bind, hguard]
  by_cases hmem : node ∈ b.acceptedReplies
  · left
    rw [counted_of_mem hmem] at hinsert
    cases m <;> cases hm <;>
      simp [handle, acceptedReply, getAcceptedFailed, Handler.exec_bind, hguard, hfirst, hinsert,
        hmem]
  · refine .inr ⟨not_not.mp (not_or.mp hguard).1, not_not.mp (not_or.mp hguard).2, hmem, ?_⟩
    rw [Bool.eq_false_iff.mpr (mt ExtTreeSet.contains_iff_mem.mp hmem)] at hfirst
    by_cases hsize : (b.acceptedReplies.insert node).size = cfg.beacons.size <;>
      cases m <;> cases hm <;>
      simp [handle, acceptedReply, getAcceptedFailed, Handler.exec_bind, hguard, hfirst, hinsert,
        counted, Config.weightOf, hsize]

/-- All other messages leave the ballot alone. -/
theorem handle_ballot (hm : m.response = none) {P : BallotProp} :
    Handler.Keeps (Ballot P) (handle cfg m) := by
  cases m with
  | start startReqId => exact start_ballot cfg startReqId
  | acceptedFrontier node req containerId =>
    exact frontierResponse_ballot cfg node (some containerId)
  | getAcceptedFrontierFailed node req => exact frontierResponse_ballot cfg node none
  | accepted => cases hm
  | getAcceptedFailed => cases hm
  | ancestors node req containers => exact ancestors_ballot cfg node req containers
  | getAncestorsFailed node req => exact getAncestorsFailed_ballot cfg node req

/-- To keep a property of the ballot it is enough to keep it when a response is counted. -/
theorem Ballot.step {P : BallotProp} (h : Ballot P b)
    (hcounted : ∀ node reply, m.response = some (node, reply) →
      b.phase = .agreeingFrontier → node ∈ cfg.beacons → node ∉ b.acceptedReplies →
      Ballot P (if (counted cfg node reply b).acceptedReplies.size = cfg.beacons.size
        then (beginFetching cfg).exec (counted cfg node reply b) else counted cfg node reply b)) :
    Ballot P ((handle cfg m).exec b) := by
  rcases hm : m.response with - | ⟨node, reply⟩
  · exact Handler.Spec.exec (handle_ballot hm) h
  · obtain hsame | ⟨hphase, hnode, hfirst, hexec⟩ := handle_response cfg hm b
    · rwa [hsame]
    · rw [hexec]
      exact hcounted node reply hm hphase hnode hfirst

end Respond

/-! ## The tally -/

/-- A list without repetitions adds the weight once to each of its ids. -/
theorem getElem?_tally (weight : ℕ) {ids : List Id} (hids : ids.Nodup) (m : ExtTreeMap Id ℕ)
    (id : Id) : (tally weight ids m)[id]? =
      if id ∈ ids then some (saturatingAdd (m[id]?.getD 0) weight) else m[id]? := by
  induction ids generalizing m with
  | nil => rfl
  | cons x ids ih =>
    obtain ⟨hx, hids⟩ := List.nodup_cons.mp hids
    refine (ih hids _).trans ?_
    rw [TreeMap.getElem?_insert_eq]
    by_cases hid : x = id
    · subst hid
      simp [hx]
    · simp [hid, Ne.symm hid]

/-- Beacons of more than half of the weight reported the id. -/
def Quorum (cfg : Config W) (reported : List (NodeId × List Id)) (id : Id) : Prop :=
  ∃ S : Finset NodeId, (∀ node ∈ S, node ∈ cfg.beacons ∧ ∃ ids, (node, ids) ∈ reported ∧ id ∈ ids) ∧
    cfg.weight < 2 * ∑ node ∈ S, cfg.weightOf node

/-- Tallied weights are backed by beacons that reported the id, and tips by a quorum. -/
structure Quorate (cfg : Config W) (weights : ExtTreeMap Id ℕ) (replies : ExtTreeSet NodeId)
    (tips : ExtTreeSet Id) (reported : List (NodeId × List Id)) : Prop where
  backed : ∀ (id : Id) w, weights[id]? = some w → ∃ S : Finset NodeId,
    (∀ node ∈ S, node ∈ replies ∧ node ∈ cfg.beacons ∧ ∃ ids, (node, ids) ∈ reported ∧ id ∈ ids) ∧
    w ≤ ∑ node ∈ S, cfg.weightOf node
  tips : ∀ id ∈ tips, Quorum cfg reported id

namespace Quorate

variable {weights : ExtTreeMap Id ℕ} {replies : ExtTreeSet NodeId} {tips : ExtTreeSet Id}
  {reported : List (NodeId × List Id)}

theorem new (cfg : Config W) (world : W) : Ballot (Quorate cfg) (Bootstrapper.new world) where
  backed id w h := by simp [Bootstrapper.new] at h
  tips id h := by simp [Bootstrapper.new] at h

variable (h : Quorate cfg weights replies tips reported)

include h

/-- A response that is not a reply backs nothing. -/
theorem respond (node : NodeId) : Quorate cfg weights (replies.insert node) tips reported where
  backed id w hw := by
    obtain ⟨S, hS, hle⟩ := h.backed id w hw
    exact ⟨S, fun n hn ↦ ⟨ExtTreeSet.mem_insert.mpr (Or.inr (hS n hn).1), (hS n hn).2⟩, hle⟩
  tips := h.tips

/-- What is tallied for an id, nothing included, is backed. -/
theorem exists_backing (id : Id) : ∃ S : Finset NodeId,
    (∀ node ∈ S, node ∈ replies ∧ node ∈ cfg.beacons ∧ ∃ ids, (node, ids) ∈ reported ∧ id ∈ ids) ∧
    weights[id]?.getD 0 ≤ ∑ node ∈ S, cfg.weightOf node := by
  cases hw : weights[id]? with
  | none => exact ⟨∅, by simp, by simp⟩
  | some w => exact h.backed id w hw

/-- A first reply backs the ids it lists. -/
theorem reply {node : NodeId} (hnode : node ∉ replies) (hbeacon : node ∈ cfg.beacons)
    {ids : List Id} (hids : ids.Nodup) :
    Quorate cfg (tally (cfg.weightOf node) ids weights) (replies.insert node) tips
      (reported ++ [(node, ids)]) where
  backed id w hw := by
    have hold {n : NodeId} (hn : n ∈ replies ∧ n ∈ cfg.beacons ∧
        ∃ ids, (n, ids) ∈ reported ∧ id ∈ ids) : n ∈ replies.insert node ∧ n ∈ cfg.beacons ∧
          ∃ ids', (n, ids') ∈ reported ++ [(node, ids)] ∧ id ∈ ids' := by
      obtain ⟨hr, hb, ids', hmem, hid'⟩ := hn
      exact ⟨ExtTreeSet.mem_insert.mpr (Or.inr hr), hb, ids', List.mem_append_left _ hmem, hid'⟩
    obtain ⟨S, hS, hle⟩ := h.exists_backing id
    rw [getElem?_tally _ hids] at hw
    by_cases hid : id ∈ ids
    · -- the new beacon joins those that backed the id before
      rw [if_pos hid, Option.some.injEq] at hw
      have hnotin : node ∉ S := fun hmem ↦ hnode (hS node hmem).1
      refine ⟨insert node S, fun n hn ↦ ?_, ?_⟩
      · obtain rfl | hn := Finset.mem_insert.mp hn
        · have hself : n ∈ replies.insert n :=
            ExtTreeSet.mem_insert.mpr (Or.inl ReflOrd.compare_self)
          exact ⟨hself, hbeacon, ids, by simp, hid⟩
        · exact hold (hS n hn)
      · rw [Finset.sum_insert hnotin, ← hw, saturatingAdd]
        omega
    · rw [if_neg hid] at hw
      rw [hw, Option.getD_some] at hle
      exact ⟨S, fun n hn ↦ hold (hS n hn), hle⟩
  tips id hid := by
    obtain ⟨S, hS, hlt⟩ := h.tips id hid
    refine ⟨S, fun n hn ↦ ?_, hlt⟩
    obtain ⟨hb, ids', hmem, hid'⟩ := hS n hn
    exact ⟨hb, ids', List.mem_append_left _ hmem, hid'⟩

/-- Weight over the threshold is more than half, if the total fits. -/
theorem pick (hweight : cfg.weight ≤ u64Max) :
    Quorate cfg weights replies
      (ExtTreeSet.ofList ((weights.toList.filter fun p ↦ cfg.weightThreshold < p.2).map Prod.fst))
      reported where
  backed := h.backed
  tips id hid := by
    have hid' : id ∈ (weights.toList.filter fun p ↦ cfg.weightThreshold < p.2).map Prod.fst := by
      simpa using hid
    obtain ⟨⟨id', w⟩, hmem, rfl⟩ := List.mem_map.mp hid'
    obtain ⟨hmem, hlt⟩ := List.mem_filter.mp hmem
    rw [decide_eq_true_eq, Config.weightThreshold, Config.totalWeight_eq,
      min_eq_left hweight] at hlt
    obtain ⟨S, hS, hle⟩ := h.backed id' w (ExtTreeMap.mem_toList_iff_getElem?_eq_some.mp hmem)
    refine ⟨S, fun n hn ↦ (hS n hn).2, ?_⟩
    omega

end Quorate

/-! ## Counting replies -/

theorem beginFetching_quorate (hweight : cfg.weight ≤ u64Max) :
    Handler.Keeps (Ballot (Quorate cfg)) (beginFetching cfg) := by
  mvcgen [beginFetching, fetchAll_ballot, tryStartExecuting_ballot]
  exact Quorate.pick (by assumption) hweight

/-- **A real quorum.** If the weights fit into 64 bits and no reply lists an id twice, every tip was
reported by distinct beacons of more than half of the weight. -/
theorem quorum_of_mem_acceptedTips (world : W) {msgs : List Message}
    (hweight : cfg.weight ≤ u64Max)
    (hmsgs : ∀ node req ids, .accepted node req ids ∈ msgs → ids.Nodup) :
    ∀ id ∈ (run cfg world msgs).acceptedTips, Quorum cfg (run cfg world msgs).reported id := by
  have h : Ballot (Quorate cfg) (run cfg world msgs) := by
    refine Handler.Keeps.execAll (fun m hm ↦ Handler.spec_of_exec fun b h ↦ ?_)
      (Quorate.new cfg world)
    refine h.step fun node reply hr _ hnode hfirst ↦ ?_
    have hcounted : Ballot (Quorate cfg) (counted cfg node reply b) := by
      cases m <;> cases hr
      · exact Quorate.reply h hfirst hnode (hmsgs _ _ _ hm)
      · exact Quorate.respond h node
    split_ifs
    · exact Handler.Spec.exec (beginFetching_quorate hweight) hcounted
    · exact hcounted
  exact h.tips

/-! ## Three beacons -/

/-- The block at a height of a chain of three, whose bytes are its height. -/
def demoBlock (height : ℕ) : Block :=
  ⟨BitVec.ofNat 256 (height + 10), BitVec.ofNat 256 (height + 9), height, [UInt8.ofNat height],
    .ok (), .ok ()⟩

/-- The blocks by their bytes. -/
def demoParse (bytes : List UInt8) : Except String Block :=
  if bytes = [0] then .ok (demoBlock 0)
  else if bytes = [1] then .ok (demoBlock 1)
  else if bytes = [2] then .ok (demoBlock 2)
  else .error "malformed"

/-- A virtual machine that has accepted the block at height zero. -/
def demoVm : ChainVm Unit where
  lastAccepted w := (.ok 10, w)
  parseBlock bytes w := (demoParse bytes, w)
  getBlock id w := (if id = 10 then .ok (demoBlock 0) else .error "not found", w)
  getBlockIdAtHeight _ w := (.error "not found", w)
  buildBlock w := (.error "no transactions", w)
  setPreference _ w := (.ok (), w)
  verify _ w := (.ok (), w)
  accept _ w := (.ok (), w)

/-- The beacons have weight one each. -/
def demoConfig (beacons : List NodeId) : Config Unit where
  vm := demoVm
  blockAcceptor _ _ w := (.ok (), w)
  beacons := beacons.foldl (fun m node ↦ m.insert node 1) ∅
  isCancelled _ := false

/-- The three beacons report their frontiers, and then what they have accepted. -/
def demoAgreement (reply₁ reply₂ reply₃ : List Id) : List Message :=
  [.start 0, .acceptedFrontier 1 1 12, .acceptedFrontier 2 1 12, .acceptedFrontier 3 1 12,
    .accepted 1 2 reply₁, .accepted 2 2 reply₂, .accepted 3 2 reply₃]

/-- Two of three beacons are a quorum. -/
theorem quorum_demo :
    let b := run (demoConfig [1, 2, 3]) () (demoAgreement [12] [12, 11] [])
    12 ∈ b.acceptedTips ∧ ∀ id ∈ b.acceptedTips, Quorum (demoConfig [1, 2, 3]) b.reported id := by
  refine ⟨by decide +kernel, quorum_of_mem_acceptedTips () (by decide +kernel) ?_⟩
  intro node req ids h
  simp only [demoAgreement, List.mem_cons, reduceCtorEq, Message.accepted.injEq, List.not_mem_nil,
    false_or, or_false] at h
  obtain ⟨-, -, rfl⟩ | ⟨-, -, rfl⟩ | ⟨-, -, rfl⟩ := h <;> decide

/-- One of three beacons lists an id twice, and nobody else reports it. -/
theorem tip_without_quorum :
    let b := run (demoConfig [1, 2, 3]) () (demoAgreement [12, 12] [] [])
    12 ∈ b.acceptedTips ∧ ¬ Quorum (demoConfig [1, 2, 3]) b.reported 12 := by
  intro b
  have hreported : b.reported = [(1, [12, 12]), (2, []), (3, [])] := by decide +kernel
  refine ⟨by decide +kernel, ?_⟩
  rintro ⟨S, hS, hlt⟩
  have hsub : S ⊆ {1} := fun node hnode ↦ by
    obtain ⟨-, ids, hmem, hid⟩ := hS node hnode
    rw [hreported] at hmem
    simp only [List.mem_cons, Prod.mk.injEq, List.not_mem_nil, or_false] at hmem
    obtain ⟨rfl, -⟩ | ⟨-, rfl⟩ | ⟨-, rfl⟩ := hmem
    · exact Finset.mem_singleton_self _
    · cases hid
    · cases hid
  have hle := Finset.sum_le_sum_of_subset (f := (demoConfig [1, 2, 3]).weightOf) hsub
  rw [Finset.sum_singleton, show (demoConfig [1, 2, 3]).weightOf 1 = 1 by decide +kernel] at hle
  rw [show (demoConfig [1, 2, 3]).weight = 3 by decide +kernel] at hlt
  omega

end Bootstrapper

end Avalanche.Bootstrap
