import Avalanche.Engine.Poll
import Avalanche.Library.Ancestry
import Avalanche.Library.CountWhere

/-!
# Early termination of polls

Consensus counts a vote for a block towards every processing ancestor of it. A poll decides whether
it may stop early from the votes for single ids. The two agree on blocks none of whose proper
descendants got a vote. For the others the same predicate has to be asked of the votes that
consensus will count: `sameOutcome_iff` says that an early result is as good as every full one
exactly if it holds there too. `early_result_differs` is a poll that stops although its last voter
decides.

The tree of processing blocks is any parent function; a block is processing if it has a parent in
it.
-/

namespace Avalanche

open Ancestry

/-- The votes for a block and its descendants. -/
noncomputable def votesFor (up : Id → Option Id) (votes : Bag Id) (b : Id) : ℕ :=
  countWhere votes.items fun v ↦ AtOrBelow up v b

/-- The votes for a block and its descendants reach either threshold in both results or in none. -/
def EarlyTermFactory.SameOutcome (f : EarlyTermFactory) (up : Id → Option Id)
    (early full : Bag Id) (b : Id) : Prop :=
  (f.alphaPreference.toNat ≤ votesFor up early b ↔ f.alphaPreference.toNat ≤ votesFor up full b) ∧
  (f.alphaConfidence.toNat ≤ votesFor up early b ↔ f.alphaConfidence.toNat ≤ votesFor up full b)

/-- A vote, if there is one, is for a processing block. -/
def Response.ForProcessing (up : Id → Option Id) (r : Response) : Prop :=
  ∀ id ∈ r.choice, (up id).isSome

namespace Poll

variable {p : Poll} {up : Id → Option Id} {f : EarlyTermFactory}

/-- The poll after a list of responses. -/
def after (p : Poll) (responses : List Response) : Poll := responses.foldl respond p

/-! ## The predicate -/

theorem shouldTerminate_iff {freq remaining a c : ℕ} (hac : a ≤ c) :
    shouldTerminate freq remaining a c = true ↔
      (a ≤ freq ↔ a ≤ freq + remaining) ∧ (c ≤ freq ↔ c ≤ freq + remaining) := by
  simp only [shouldTerminate, Bool.or_eq_true, Bool.and_eq_true, decide_eq_true_eq]
  omega

/-- What `finished` finds out while validators are awaited. -/
theorem finished_eq_true (hopen : p.terminated = false) (hout : p.polled.len ≠ 0)
    (h : p.finished.1 = true) :
    p.votes.len + p.polled.len < p.alphaPreference.toNat ∨
      p.votes.items ≠ [] ∧ ∀ id ∈ p.votes.items,
        shouldTerminate (p.votes.count id) p.polled.len p.alphaPreference.toNat
          p.alphaConfidence.toNat = true := by
  by_cases hmax : p.votes.len + p.polled.len < p.alphaPreference.toNat
  · exact Or.inl hmax
  · right
    by_cases hnil : p.votes.items = []
    · simp [finished, hopen, hout, hmax, Bag.list, hnil] at h
    · refine ⟨hnil, ?_⟩
      have hlist : p.votes.list ≠ [] := by simpa [Bag.list] using hnil
      simpa [finished, hopen, hout, hmax, hlist] using h

/-! ## Votes along responses -/

theorem respond_frame (p : Poll) (r : Response) :
    (p.respond r).terminated = p.terminated ∧
      (p.respond r).alphaPreference = p.alphaPreference ∧
      (p.respond r).alphaConfidence = p.alphaConfidence := by
  cases r with
  | vote vdr id =>
    unfold respond vote
    by_cases h : p.polled.count vdr = 0 <;> simp [h, removePolled]
  | drop vdr =>
    unfold respond drop
    by_cases h : p.polled.count vdr = 0 <;> simp [h, removePolled]

theorem after_frame (p : Poll) (responses : List Response) :
    (p.after responses).terminated = p.terminated ∧
      (p.after responses).alphaPreference = p.alphaPreference ∧
      (p.after responses).alphaConfidence = p.alphaConfidence := by
  -- only `finished` sets the flag, and responses leave the thresholds alone
  induction responses generalizing p with
  | nil => exact ⟨rfl, rfl, rfl⟩
  | cons r responses ih =>
    obtain ⟨h₁, h₂, h₃⟩ := p.respond_frame r
    obtain ⟨ih₁, ih₂, ih₃⟩ := ih (p.respond r)
    exact ⟨ih₁.trans h₁, ih₂.trans h₂, ih₃.trans h₃⟩

theorem Counts.after {sample : Bag NodeId} (h : p.Counts sample) (responses : List Response) :
    (p.after responses).Counts sample := by
  induction responses generalizing p with
  | nil => exact h
  | cons r responses ih => exact ih (h.respond r)

/-- A response takes the draws of its validator off the awaited ones. -/
theorem len_polled_respond (p : Poll) (r : Response) :
    (p.respond r).polled.len + p.polled.count r.vdr = p.polled.len := by
  have hsplit := List.length_eq_countP_add_countP (· == r.vdr) (l := p.polled.items)
  rw [List.countP_eq_length_filter (l := p.polled.items) (p := fun a ↦ decide ¬(a == r.vdr) = true)]
    at hsplit
  have hfilter : p.polled.items.filter (fun a ↦ decide ¬(a == r.vdr) = true)
      = p.polled.items.filter (· ≠ r.vdr) := by
    simp
  rw [Bag.len, (p.polled_respond r).length_eq, ← hfilter, Bag.count, List.count, Bag.len, add_comm]
  exact hsplit.symm

/-- Among the new votes, those that count for `P` are at most the draws taken off. -/
theorem countWhere_respond (p : Poll) (r : Response) (P : Id → Prop) :
    countWhere p.votes.items P ≤ countWhere (p.respond r).votes.items P ∧
      countWhere (p.respond r).votes.items P + (p.respond r).polled.len
        ≤ countWhere p.votes.items P + p.polled.len := by
  have hlen := p.len_polled_respond r
  have hnew := countWhere_le_length
    ((r.choice.map fun id ↦ List.replicate (p.polled.count r.vdr) id).getD []) P
  have hle : ((r.choice.map fun id ↦ List.replicate (p.polled.count r.vdr) id).getD []).length
      ≤ p.polled.count r.vdr := by
    cases r.choice <;> simp
  rw [p.votes_respond r, countWhere_append]
  omega

theorem countWhere_after (p : Poll) (responses : List Response) (P : Id → Prop) :
    countWhere p.votes.items P ≤ countWhere (p.after responses).votes.items P ∧
      countWhere (p.after responses).votes.items P + (p.after responses).polled.len
        ≤ countWhere p.votes.items P + p.polled.len := by
  induction responses generalizing p with
  | nil => exact ⟨le_rfl, le_rfl⟩
  | cons r responses ih =>
    have h := p.countWhere_respond r P
    have ih := ih (p.respond r)
    exact ⟨h.1.trans ih.1, ih.2.trans h.2⟩

/-! ## Everybody votes for one block -/

/-- The validators of `l` vote for `b`. -/
def allVote (l : List NodeId) (b : Id) : List Response := l.map fun vdr ↦ .vote vdr b

/-- Votes for `b` move their draws to a property that `b` has. -/
theorem countWhere_allVote (p : Poll) (l : List NodeId) {b : Id} {P : Id → Prop} (hb : P b) :
    countWhere (p.after (allVote l b)).votes.items P + (p.after (allVote l b)).polled.len
      = countWhere p.votes.items P + p.polled.len := by
  induction l generalizing p with
  | nil => rfl
  | cons vdr l ih =>
    refine (ih (p.respond (.vote vdr b))).trans ?_
    have hlen := p.len_polled_respond (.vote vdr b)
    have hall : countWhere (List.replicate (p.polled.count vdr) b) P = p.polled.count vdr := by
      rw [countWhere_eq_length.mpr (by simp [hb]), List.length_replicate]
    rw [p.votes_respond, Response.choice_vote, Response.vdr_vote, Option.map_some,
      Option.getD_some, countWhere_append, hall]
    rw [Response.vdr_vote] at hlen
    omega

/-- Nobody who voted is awaited. -/
theorem notMem_polled_allVote (p : Poll) (l : List NodeId) (b : Id) :
    ∀ vdr ∈ (p.after (allVote l b)).polled.items, vdr ∈ p.polled.items ∧ vdr ∉ l := by
  induction l generalizing p with
  | nil => simp [after, allVote]
  | cons node l ih =>
    intro vdr hvdr
    obtain ⟨hmem, hl⟩ := ih (p.respond (.vote node b)) vdr hvdr
    rw [(p.polled_respond _).mem_iff, List.mem_filter, decide_eq_true_eq, Response.vdr_vote] at hmem
    exact ⟨hmem.1, List.not_mem_cons_of_ne_of_not_mem hmem.2 hl⟩

theorem polled_allVote (p : Poll) (b : Id) :
    (p.after (allVote p.polled.list b)).polled.len = 0 := by
  rw [Bag.len, List.length_eq_zero_iff, List.eq_nil_iff_forall_not_mem]
  intro vdr hvdr
  obtain ⟨hmem, hl⟩ := p.notMem_polled_allVote _ b vdr hvdr
  exact hl (Bag.mem_list.mpr hmem)

/-! ## The outcome -/

/-- A block whose transitive votes satisfy the predicate has its outcome settled. -/
theorem sameOutcome_of_shouldTerminate (hac : f.alphaPreference ≤ f.alphaConfidence) {b : Id}
    (h : shouldTerminate (votesFor up p.votes b) p.polled.len f.alphaPreference.toNat
      f.alphaConfidence.toNat = true)
    {rest : List Response} (hrest : (p.after rest).polled.len = 0) :
    f.SameOutcome up p.votes (p.after rest).votes b := by
  obtain ⟨hge, hle⟩ := p.countWhere_after rest fun v ↦ AtOrBelow up v b
  rw [shouldTerminate_iff (UInt32.le_iff_toNat_le.mp hac)] at h
  unfold EarlyTermFactory.SameOutcome votesFor at *
  omega

/-- Without votes below it, a block has only its own ones. -/
theorem votesFor_eq_count {b : Id} (h : ∀ v ∈ p.votes.items, ¬ Below up v b) :
    votesFor up p.votes b = p.votes.count b := by
  rw [votesFor, Bag.count, ← countWhere_eq_count]
  refine countWhere_congr fun v hv ↦ ?_
  rw [atOrBelow_iff]
  exact or_iff_left (h v hv)

/-- A finished poll has settled every block that got no vote through a descendant. -/
theorem shouldTerminate_of_finished {k : ℕ} (hk : k / 2 < p.alphaPreference.toNat)
    (hac : p.alphaPreference ≤ p.alphaConfidence) (hlen : p.votes.len + p.polled.len ≤ k)
    (hopen : p.terminated = false) (hout : p.polled.len ≠ 0) (hfin : p.finished.1 = true) {b : Id}
    (hb : ∀ v ∈ p.votes.items, ¬ Below up v b) :
    shouldTerminate (votesFor up p.votes b) p.polled.len p.alphaPreference.toNat
      p.alphaConfidence.toNat = true := by
  have hac' := UInt32.le_iff_toNat_le.mp hac
  have hcount : p.votes.count b ≤ p.votes.len := List.count_le_length
  rw [votesFor_eq_count hb, shouldTerminate_iff hac']
  obtain hmax | ⟨hne, hall⟩ := finished_eq_true hopen hout hfin
  · omega
  · by_cases hmem : b ∈ p.votes.items
    · exact (shouldTerminate_iff hac').mp (hall b hmem)
    · -- whatever settled a voted id leaves fewer than a majority of the draws to come
      have hzero : p.votes.count b = 0 := List.count_eq_zero.mpr hmem
      obtain ⟨v, hv⟩ := List.exists_mem_of_ne_nil _ hne
      have hv' := (shouldTerminate_iff hac').mp (hall v hv)
      have hvlen : p.votes.count v ≤ p.votes.len := List.count_le_length
      omega

/-- **Early termination.** A poll that finishes with validators outstanding has the outcome of every
completion, for every processing block, exactly if each block with a vote below it satisfies the
termination predicate with the votes counted transitively. -/
theorem sameOutcome_iff {k : ℕ} (hk : k / 2 < f.alphaPreference.toNat)
    (hac : f.alphaPreference ≤ f.alphaConfidence) {sample : Bag NodeId} (hsample : sample.len = k)
    {responses : List Response} (hp : p = (f.newPoll sample).after responses)
    (hout : p.polled.len ≠ 0) (hfin : p.finished.1 = true) :
    (∀ rest : List Response, (∀ r ∈ rest, r.ForProcessing up) → (p.after rest).polled.len = 0 →
        ∀ b, (up b).isSome → f.SameOutcome up p.votes (p.after rest).votes b) ↔
      ∀ b, (up b).isSome → (∃ v ∈ p.votes.items, Below up v b) →
        shouldTerminate (votesFor up p.votes b) p.polled.len f.alphaPreference.toNat
          f.alphaConfidence.toNat = true := by
  obtain ⟨hopen, hpref, hconf⟩ : p.terminated = false ∧ p.alphaPreference = f.alphaPreference ∧
      p.alphaConfidence = f.alphaConfidence := hp ▸ after_frame (f.newPoll sample) responses
  have hlen : p.votes.len + p.polled.len ≤ k := by
    rw [hp, ← hsample]
    exact ((counts_newPoll f sample).after responses).len_le
  constructor
  · intro h b hb _
    -- everybody who is awaited may vote for `b` itself
    have hall := p.countWhere_allVote p.polled.list
      (P := fun v ↦ AtOrBelow up v b) (AtOrBelow.refl b)
    have hdone := p.polled_allVote b
    have hsame := h (allVote p.polled.list b) (by simp [allVote, Response.ForProcessing, hb]) hdone
      b hb
    rw [hdone, add_zero] at hall
    unfold EarlyTermFactory.SameOutcome at hsame
    rw [shouldTerminate_iff (UInt32.le_iff_toNat_le.mp hac)]
    unfold votesFor at *
    rwa [hall] at hsame
  · intro h rest _ hrest b hb
    refine sameOutcome_of_shouldTerminate hac ?_ hrest
    by_cases hbelow : ∃ v ∈ p.votes.items, Below up v b
    · exact h b hb hbelow
    · rw [← hpref, ← hconf]
      refine shouldTerminate_of_finished (k := k) ?_ ?_ hlen hopen hout hfin ?_
      · rwa [hpref]
      · rwa [hpref, hconf]
      · exact fun v hv hvb ↦ hbelow ⟨v, hv, hvb⟩

/-! ## A chain of two blocks -/

/-- Block `2` extends block `1`, which extends the last accepted block `0`. -/
def twoBlocks : Id → Option Id := fun id ↦
  if id = 1 then some 0 else if id = 2 then some 1 else none

theorem atOrBelow_twoBlocks {v : Id} : AtOrBelow twoBlocks v 1 ↔ v = 1 ∨ v = 2 := by
  constructor
  · intro h
    obtain rfl | h := atOrBelow_iff.mp h
    · exact Or.inl rfl
    · obtain ⟨c, hvc, hc⟩ := below_iff_child.mp h
      have hc2 : c = 2 := by
        unfold twoBlocks at hc
        split_ifs at hc with h1 h2
        · cases hc
        · exact h2
      obtain rfl | hv := atOrBelow_iff.mp hvc
      · exact Or.inr hc2
      · obtain ⟨d, -, hd⟩ := below_iff_child.mp hv
        rw [hc2] at hd
        unfold twoBlocks at hd
        split_ifs at hd with h1 h2 <;> cases hd
  · rintro (rfl | rfl)
    · exact AtOrBelow.refl 1
    · exact (below_of_up (by decide)).atOrBelow

theorem votesFor_twoBlocks (votes : Bag Id) :
    votesFor twoBlocks votes 1 = votes.count 1 + votes.count 2 := by
  rw [votesFor, Bag.count, Bag.count, ← countWhere_eq_count, ← countWhere_eq_count, ← countWhere_or]
  · exact countWhere_congr fun _ _ ↦ atOrBelow_twoBlocks
  · rintro a - rfl
    decide

/-- Two of three draws for block `1` settle a poll with both thresholds at two. -/
theorem sameOutcome_of_majority :
    let f : EarlyTermFactory := ⟨2, 2⟩
    let p := (f.newPoll ⟨[1, 2, 3]⟩).after [.vote 1 1, .vote 2 1]
    ∀ rest : List Response, (∀ r ∈ rest, r.ForProcessing twoBlocks) →
      (p.after rest).polled.len = 0 →
      ∀ b, (twoBlocks b).isSome → f.SameOutcome twoBlocks p.votes (p.after rest).votes b := by
  intro f p
  have hsample : (⟨[1, 2, 3]⟩ : Bag NodeId).len = 3 := rfl
  have hp : p = (f.newPoll ⟨[1, 2, 3]⟩).after [.vote 1 1, .vote 2 1] := rfl
  refine (sameOutcome_iff (by decide) (by decide) hsample hp (by decide +kernel)
    (by decide +kernel)).mpr ?_
  rintro b hb ⟨v, hv, hvb⟩
  -- only block `0` is below block `1`, and it is not processing
  have hv1 : v = 1 := by
    have hitems : p.votes.items = [1, 1] := by decide +kernel
    rw [hitems] at hv
    simpa using hv
  subst hv1
  obtain ⟨c, hc, hcb⟩ := below_iff_up.mp hvb
  obtain rfl : 0 = c := Option.some.inj hc
  obtain rfl | hlow := atOrBelow_iff.mp hcb
  · cases hb
  · obtain ⟨d, hd, -⟩ := below_iff_up.mp hlow
    cases hd

/-- One vote for each of the two blocks finishes a poll of three draws with both thresholds at
three. The two votes count for block `1` together, and the third voter, whose vote for either block
would have reached both thresholds, is not waited for. -/
theorem early_result_differs :
    let f : EarlyTermFactory := ⟨3, 3⟩
    let sample : Bag NodeId := ⟨[1, 2, 3]⟩
    let p := (f.newPoll sample).after [.vote 1 1, .vote 2 2]
    let rest : List Response := [.vote 3 2]
    sample.len / 2 < f.alphaPreference.toNat ∧ f.alphaPreference ≤ f.alphaConfidence ∧
      f.alphaConfidence.toNat ≤ sample.len ∧ p.polled.len ≠ 0 ∧ p.finished.1 = true ∧
      (p.after rest).polled.len = 0 ∧ (twoBlocks 1).isSome = true ∧ (twoBlocks 2).isSome = true ∧
      votesFor twoBlocks p.votes 1 < f.alphaPreference.toNat ∧
      f.alphaConfidence.toNat ≤ votesFor twoBlocks (p.after rest).votes 1 := by
  intro f sample p rest
  refine ⟨by decide, by decide, by decide, by decide +kernel, by decide +kernel,
    by decide +kernel, by decide, by decide, ?_, ?_⟩
  · rw [votesFor_twoBlocks]
    decide +kernel
  · rw [votesFor_twoBlocks]
    decide +kernel

end Poll

end Avalanche
