import Avalanche.Engine.BootstrapChain

/-!
# Handing over

A beacon that fails to reply counts towards the completion of the round like one that replies. So
the bootstrapper may hand over to normal operation without having heard from anybody
(`finished_without_reply`). If the beacons that fail hold less than half of the weight, a majority
has replied once the bootstrapper has finished, and every id that a majority reported is a block of
the chain that is accepted (`majority_accepted`): what enough weight reports is a tip, and the
blocks at and below the tips are executed.
-/

set_option mvcgen.warning false

namespace Avalanche.Bootstrap

open Std Std.Do

variable {W : Type} {cfg : Config W}

namespace Bootstrapper

variable {failing : Finset NodeId}

/-! ## The tally counts every reply -/

/-- A reply adds the weight of its beacon, at least once, to every id it lists. -/
theorem le_getD_tally (weight : ℕ) (ids : List Id) {m : ExtTreeMap Id ℕ} {id : Id} {x : ℕ}
    (h : min x u64Max ≤ m[id]?.getD 0) :
    min (x + if id ∈ ids then weight else 0) u64Max ≤ (tally weight ids m)[id]?.getD 0 := by
  induction ids generalizing m x with
  | nil => simpa [tally] using h
  | cons y ids ih =>
    by_cases hy : y = id
    · subst hy
      have hstep : min (x + weight) u64Max ≤
          (m.insert y (saturatingAdd (m[y]?.getD 0) weight))[y]?.getD 0 := by
        rw [TreeMap.getElem?_insert_eq, if_pos rfl, Option.getD_some, saturatingAdd]
        omega
      have hrest := ih hstep
      rw [if_pos List.mem_cons_self]
      refine Nat.le_trans ?_ hrest
      omega
    · have hstep : min x u64Max ≤
          (m.insert y (saturatingAdd (m[y]?.getD 0) weight))[id]?.getD 0 := by
        rwa [TreeMap.getElem?_insert_eq, if_neg hy]
      have hmem : id ∈ y :: ids ↔ id ∈ ids := by simp [Ne.symm hy]
      simp only [hmem]
      exact ih hstep

/-- The beacons that responded either replied or are among those that fail, and the weight of all
that reported an id is tallied. -/
structure Counted (cfg : Config W) (failing : Finset NodeId) (weights : ExtTreeMap Id ℕ)
    (replies : ExtTreeSet NodeId) (_tips : ExtTreeSet Id) (reported : List (NodeId × List Id)) :
    Prop where
  mem : ∀ node ∈ replies, node ∈ cfg.beacons
  replied : ∀ node ∈ replies, (∃ ids, (node, ids) ∈ reported) ∨ node ∈ failing
  responded : ∀ node ids, (node, ids) ∈ reported → node ∈ replies
  tallied : ∀ (id : Id) (S : Finset NodeId),
    (∀ node ∈ S, ∃ ids, (node, ids) ∈ reported ∧ id ∈ ids) →
      min (∑ node ∈ S, cfg.weightOf node) u64Max ≤ weights[id]?.getD 0

/-- Once all beacons have responded, the ids with enough weight are tips. -/
structure Picked (cfg : Config W) (failing : Finset NodeId) (weights : ExtTreeMap Id ℕ)
    (replies : ExtTreeSet NodeId) (tips : ExtTreeSet Id) (reported : List (NodeId × List Id)) :
    Prop extends Counted cfg failing weights replies tips reported where
  picked : (∀ node ∈ cfg.beacons, node ∈ replies) → cfg.beacons.keys ≠ [] →
    ∀ id : Id, cfg.weightThreshold < weights[id]?.getD 0 → id ∈ tips

namespace Counted

variable {failing : Finset NodeId} {weights : ExtTreeMap Id ℕ} {replies : ExtTreeSet NodeId}
  {tips : ExtTreeSet Id} {reported : List (NodeId × List Id)} {node : NodeId}
  (h : Counted cfg failing weights replies tips reported)

include h

/-- A beacon fails to reply. -/
theorem fail (hnode : node ∈ cfg.beacons) (hfailing : node ∈ failing) :
    Counted cfg failing weights (replies.insert node) tips reported where
  mem := mem_insert_reply h.mem hnode
  replied n hn := by
    rw [ExtTreeSet.mem_insert, LawfulEqCmp.compare_eq_iff_eq] at hn
    obtain rfl | hn := hn
    · exact Or.inr hfailing
    · exact h.replied n hn
  responded n ids hn := ExtTreeSet.mem_insert.mpr (Or.inr (h.responded n ids hn))
  tallied := h.tallied

/-- A beacon replies for the first time. -/
theorem reply (hnode : node ∈ cfg.beacons) (hfirst : node ∉ replies) (ids : List Id) :
    Counted cfg failing (tally (cfg.weightOf node) ids weights) (replies.insert node) tips
      (reported ++ [(node, ids)]) where
  mem := mem_insert_reply h.mem hnode
  replied n hn := by
    rw [ExtTreeSet.mem_insert, LawfulEqCmp.compare_eq_iff_eq] at hn
    obtain rfl | hn := hn
    · exact Or.inl ⟨ids, by simp⟩
    · refine (h.replied n hn).imp_left ?_
      rintro ⟨ids', hids'⟩
      exact ⟨ids', List.mem_append_left _ hids'⟩
  responded n ids' hn := by
    rw [ExtTreeSet.mem_insert, LawfulEqCmp.compare_eq_iff_eq]
    obtain hn | hn := List.mem_append.mp hn
    · exact Or.inr (h.responded n ids' hn)
    · exact Or.inl (Prod.mk.inj (List.mem_singleton.mp hn)).1.symm
  tallied id S hS := by
    -- the beacons of `S` other than the new one reported the id before
    have hold : ∀ n ∈ S.erase node, ∃ ids, (n, ids) ∈ reported ∧ id ∈ ids := fun n hn ↦ by
      obtain ⟨hne, hn⟩ := Finset.mem_erase.mp hn
      obtain ⟨ids', hmem, hid⟩ := hS n hn
      obtain hmem | hmem := List.mem_append.mp hmem
      · exact ⟨ids', hmem, hid⟩
      · exact absurd (Prod.mk.inj (List.mem_singleton.mp hmem)).1 hne
    refine Nat.le_trans ?_ (le_getD_tally (cfg.weightOf node) ids (h.tallied id _ hold))
    by_cases hmem : node ∈ S
    · have hid : id ∈ ids := by
        obtain ⟨ids', hmem', hid⟩ := hS node hmem
        obtain hmem' | hmem' := List.mem_append.mp hmem'
        · exact absurd (h.responded node ids' hmem') hfirst
        · rwa [← (Prod.mk.inj (List.mem_singleton.mp hmem')).2]
      rw [if_pos hid, Finset.sum_erase_add _ _ hmem]
    · rw [Finset.erase_eq_of_notMem hmem]
      omega

/-- As long as a beacon is missing nothing has to be picked. -/
theorem picked_of_size_ne (hsize : replies.size ≠ cfg.beacons.size) :
    Picked cfg failing weights replies tips reported where
  toCounted := h
  picked hall := absurd ((size_eq_iff h.mem).mpr hall) hsize

theorem pick : Picked cfg failing weights replies
    (ExtTreeSet.ofList ((weights.toList.filter fun p ↦ cfg.weightThreshold < p.2).map Prod.fst))
    reported where
  mem := h.mem
  replied := h.replied
  responded := h.responded
  tallied := h.tallied
  picked _ _ id hlt := by
    obtain ⟨w, hw⟩ : ∃ w, weights[id]? = some w := by
      cases hw : weights[id]? with
      | none =>
        rw [hw] at hlt
        exact absurd hlt (Nat.not_lt_zero _)
      | some w => exact ⟨w, rfl⟩
    rw [hw, Option.getD_some] at hlt
    exact ExtTreeSet.mem_ofList.mpr (by simpa using ⟨w, hw, hlt⟩)

end Counted

theorem Picked.new (cfg : Config W) (failing : Finset NodeId) (world : W) :
    Ballot (Picked cfg failing) (Bootstrapper.new world) where
  mem node h := absurd h ExtTreeSet.not_mem_empty
  replied node h := absurd h ExtTreeSet.not_mem_empty
  responded node ids h := by cases h
  tallied id S hS := by
    have hempty : S = ∅ := Finset.eq_empty_of_forall_notMem fun node hnode ↦ by
      obtain ⟨ids, hmem, -⟩ := hS node hnode
      cases hmem
    simp [hempty]
  picked hall hne := by
    obtain ⟨node, hnode⟩ := List.exists_mem_of_ne_nil _ hne
    exact absurd (hall node (ExtTreeMap.mem_keys.mp hnode)) ExtTreeSet.not_mem_empty

theorem beginFetching_picked (cfg : Config W) (failing : Finset NodeId) :
    Handler.Spec (Ballot (Counted cfg failing)) (beginFetching cfg)
      (fun _ ↦ Ballot (Picked cfg failing)) (Ballot (Picked cfg failing)) := by
  mvcgen [beginFetching, fetchAll_ballot, tryStartExecuting_ballot]
  exact Counted.pick (by assumption)

theorem picked_run (cfg : Config W) (world : W) {msgs : List Message}
    (hmsgs : ∀ node req, .getAcceptedFailed node req ∈ msgs → node ∈ failing) :
    Ballot (Picked cfg failing) (run cfg world msgs) := by
  refine Handler.Keeps.execAll (fun m hm ↦ Handler.spec_of_exec fun b h ↦ ?_)
    (Picked.new cfg failing world)
  refine h.step fun node reply hr _ hnode hfirst ↦ ?_
  have hcounted : Ballot (Counted cfg failing) (counted cfg node reply b) := by
    cases m <;> cases hr
    · exact h.toCounted.reply hnode hfirst _
    · exact h.toCounted.fail hnode (hmsgs _ _ hm)
  split_ifs with hsize
  · exact Handler.Spec.exec (beginFetching_picked cfg failing) hcounted
  · exact hcounted.picked_of_size_ne hsize

/-! ## Majorities -/

theorem sum_weightOf_beacons (cfg : Config W) :
    ∑ node ∈ cfg.beacons.keys.toFinset, cfg.weightOf node = cfg.weight := by
  rw [List.sum_toFinset _ ExtTreeMap.nodup_keys, Config.weight, TreeMap.values_eq,
    ← ExtTreeMap.map_fst_toList_eq_keys, List.map_map]
  refine congrArg List.sum (List.map_congr_left fun p hp ↦ ?_)
  have hget := ExtTreeMap.mem_toList_iff_getElem?_eq_some.mp hp
  rw [Function.comp_apply, Config.weightOf, hget, Option.getD_some]

/-- If the beacons that fail hold less than half of the weight, the others hold more. -/
theorem majority_of_failing (hfailing : 2 * ∑ node ∈ failing, cfg.weightOf node < cfg.weight) :
    cfg.weight < 2 * ∑ node ∈ cfg.beacons.keys.toFinset \ failing, cfg.weightOf node := by
  have hsplit := Finset.sum_inter_add_sum_sdiff cfg.beacons.keys.toFinset failing cfg.weightOf
  have hle : ∑ node ∈ cfg.beacons.keys.toFinset ∩ failing, cfg.weightOf node ≤
      ∑ node ∈ failing, cfg.weightOf node :=
    Finset.sum_le_sum_of_subset Finset.inter_subset_right
  rw [sum_weightOf_beacons] at hsplit
  omega

/-- What a majority reported is a tip. -/
theorem Picked.mem_tips {weights : ExtTreeMap Id ℕ}
    {replies : ExtTreeSet NodeId} {tips : ExtTreeSet Id} {reported : List (NodeId × List Id)}
    (h : Picked cfg failing weights replies tips reported)
    (hall : ∀ node ∈ cfg.beacons, node ∈ replies) {id : Id} (hquorum : Quorum cfg reported id) :
    id ∈ tips := by
  obtain ⟨S, hS, hlt⟩ := hquorum
  have htally := h.tallied id S fun node hnode ↦ (hS node hnode).2
  refine h.picked hall (fun hnil ↦ ?_) id ?_
  · have hempty : S = ∅ := Finset.eq_empty_of_forall_notMem fun node hnode ↦ by
      have hmem := ExtTreeMap.mem_keys.mpr (hS node hnode).1
      rw [hnil] at hmem
      cases hmem
    rw [hempty, Finset.sum_empty] at hlt
    exact absurd hlt (Nat.not_lt_zero _)
  · rw [Config.weightThreshold, Config.totalWeight_eq]
    have hpos : 0 < u64Max := by
      rw [u64Max_eq]
      decide
    omega

/-- A bootstrapper that has finished has heard from all beacons. -/
theorem Stage.complete_of_finished {L : Lineage cfg} {b : Bootstrapper W} (h : Stage L b)
    (hfin : b.finished = true) : ∀ node ∈ cfg.beacons, node ∈ b.acceptedReplies := by
  cases h with
  | waiting h => cases h.idle.finished.symm.trans hfin
  | seeking h => cases h.finished.symm.trans hfin
  | executed h => exact h.complete

/-- **No premature handover.** In an orderly run in which the beacons that fail to say what they
have accepted hold less than half of the weight, the bootstrapper finishes only after beacons of
more than half of the weight replied, and every id that such a majority reported is that of the last
accepted block, of one below it, or of a block that was accepted. -/
theorem majority_accepted (L : Lineage cfg) (world : W) {msgs : List Message}
    (hrun : Handler.Along (handle cfg) (Orderly L) (new world) msgs) {failing : Finset NodeId}
    (hmsgs : ∀ node req, .getAcceptedFailed node req ∈ msgs → node ∈ failing)
    (hfailing : 2 * ∑ node ∈ failing, cfg.weightOf node < cfg.weight) :
    let b := run cfg world msgs
    b.finished = true →
      (∃ S : Finset NodeId, (∀ node ∈ S, node ∈ cfg.beacons ∧ ∃ ids, (node, ids) ∈ b.reported) ∧
        cfg.weight < 2 * ∑ node ∈ S, cfg.weightOf node) ∧
      ∀ id, Quorum cfg b.reported id →
        (∃ h ≤ L.base, id = (L.block h).id) ∨ ∃ blk ∈ b.accepted, blk.id = id := by
  intro b hfin
  have hstage : Stage L b := stage_run L world hrun
  have hpicked : Ballot (Picked cfg failing) b := picked_run cfg world hmsgs
  have hcomplete := hstage.complete_of_finished hfin
  refine ⟨⟨_, fun node hnode ↦ ?_, majority_of_failing hfailing⟩, fun id hquorum ↦ ?_⟩
  · obtain ⟨hmem, hnot⟩ := Finset.mem_sdiff.mp hnode
    have hbeacon := ExtTreeMap.mem_keys.mp (List.mem_toFinset.mp hmem)
    exact ⟨hbeacon, (hpicked.replied node (hcomplete node hbeacon)).resolve_right hnot⟩
  · have htip := hpicked.mem_tips hcomplete hquorum
    obtain ⟨h, htop, rfl⟩ := tipsOnChain_run L world hrun id (ExtTreeSet.mem_toList.mpr htip)
    obtain hlt | hle := Nat.lt_or_ge L.base h
    · have hu : L.Under b.acceptedTips h := ⟨h, Nat.le_refl h, htop, htip⟩
      exact Or.inr ⟨_, hstage.block_mem_accepted hfin hlt hu, rfl⟩
    · exact Or.inl ⟨h, hle, rfl⟩

/-- The beacon replies and is a majority. -/
theorem majority_accepted_demo :
    let b := run (demoConfig [1]) () (demoFetch [[2], [1]])
    b.finished = true ∧ Quorum (demoConfig [1]) b.reported 12 ∧
      ∃ blk ∈ b.accepted, blk.id = 12 := by
  intro b
  have hfin : b.finished = true := by decide +kernel
  have hquorum : Quorum (demoConfig [1]) b.reported 12 := by
    have hreported : b.reported = [(1, [11, 12])] := by decide +kernel
    refine ⟨{1}, fun node hnode ↦ ?_, by decide +kernel⟩
    obtain rfl := Finset.mem_singleton.mp hnode
    rw [hreported]
    exact ⟨by decide +kernel, [11, 12], List.mem_singleton_self _, by decide⟩
  have hmsgs : ∀ node req, .getAcceptedFailed node req ∈ demoFetch [[2], [1]] →
      node ∈ (∅ : Finset NodeId) := by
    intro node req h
    simp [demoFetch] at h
  obtain ⟨-, hall⟩ :=
    majority_accepted demoLineage () demoFetch_orderly hmsgs (by decide +kernel) hfin
  refine ⟨hfin, hquorum, (hall 12 hquorum).resolve_left ?_⟩
  rintro ⟨h, hle, hid⟩
  obtain rfl := Nat.le_zero.mp hle
  exact absurd hid (by decide)

/-- The only beacon fails, and the bootstrapper finishes. -/
theorem finished_without_reply :
    let b := run (demoConfig [1]) () [.start 0, .acceptedFrontier 1 1 12, .getAcceptedFailed 1 2]
    0 < (demoConfig [1]).weight ∧ b.finished = true ∧ b.state = .normalOp ∧
      ¬ ∃ S : Finset NodeId,
        (∀ node ∈ S, node ∈ (demoConfig [1]).beacons ∧ ∃ ids, (node, ids) ∈ b.reported) ∧
        (demoConfig [1]).weight < 2 * ∑ node ∈ S, (demoConfig [1]).weightOf node := by
  intro b
  have hreported : b.reported = [] := by decide +kernel
  refine ⟨by decide +kernel, by decide +kernel, by decide +kernel, ?_⟩
  rintro ⟨S, hS, hlt⟩
  have hempty : S = ∅ := Finset.eq_empty_of_forall_notMem fun node hnode ↦ by
    obtain ⟨-, ids, hmem⟩ := hS node hnode
    cases hmem
  rw [hempty, Finset.sum_empty] at hlt
  exact absurd hlt (Nat.not_lt_zero _)

end Bootstrapper

end Avalanche.Bootstrap
