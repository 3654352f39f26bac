import Avalanche.Library.TreeMap
import Avalanche.Types.Id
import Avalanche.Utils.Bag

/-!
# Outstanding polls

A `Poll` waits for the validators of one sample. A validator drawn several times answers once, and
its answer weighs as much as it was drawn. A poll may finish before everybody has answered; a
`PollSet` hands the results out in the order of the request ids, so that a finished poll waits for
every older one.

`Poll.Counts` relates a poll to the sample it was opened on: who answered, and what, determines both
the votes and the validators still awaited. `PollSet.Ledger` lifts it to the whole set, given the
list of all samples a poll was ever opened on: no two results come from the same one.

The source adds `usize` values with `saturating_add` before it compares them with a `u32` threshold.
Saturation does not change such a comparison, so the sums here are plain.
-/

namespace Avalanche

open Std

/-! ## A single poll -/

/-- An outstanding poll. -/
structure Poll where
  /-- The validators still expected to respond. -/
  polled : Bag NodeId
  /-- The votes received so far. -/
  votes : Bag Id
  alphaPreference : UInt32
  alphaConfidence : UInt32
  /-- The flag `finished`, which is never cleared. -/
  terminated : Bool
deriving DecidableEq, Repr

/-- What a sampled validator does in the end. -/
inductive Response where
  | vote (vdr : NodeId) (id : Id)
  | drop (vdr : NodeId)
deriving DecidableEq, Repr

namespace Response

/-- Who responds. -/
def vdr : Response → NodeId
  | vote vdr _ => vdr
  | drop vdr => vdr

/-- The block voted for. -/
def choice : Response → Option Id
  | vote _ id => some id
  | drop _ => none

@[simp] theorem vdr_vote (node : NodeId) (id : Id) : (vote node id).vdr = node := rfl

@[simp] theorem vdr_drop (node : NodeId) : (drop node).vdr = node := rfl

@[simp] theorem choice_vote (node : NodeId) (id : Id) : (vote node id).choice = some id := rfl

@[simp] theorem choice_drop (node : NodeId) : (drop node).choice = none := rfl

end Response

namespace Poll

/-- Removes a validator from the outstanding ones by rebuilding the bag without it. -/
def removePolled (p : Poll) (vdr : NodeId) : Poll :=
  { p with
    polled := p.polled.list.foldl
      (fun remaining node ↦
        if node = vdr then remaining else remaining.addCount node (p.polled.count node))
      Bag.new }

/-- Registers a vote. A validator that is not awaited is ignored. -/
def vote (p : Poll) (vdr : NodeId) (vote : Id) : Poll :=
  let count := p.polled.count vdr
  if count = 0 then p
  else
    let p := p.removePolled vdr
    { p with votes := p.votes.addCount vote count }

/-- Drops a future response. -/
def drop (p : Poll) (vdr : NodeId) : Poll :=
  let count := p.polled.count vdr
  if count = 0 then p else p.removePolled vdr

/-- The termination predicate for one id. -/
def shouldTerminate (freq remaining alphaPref alphaConf : ℕ) : Bool :=
  let maxPossible := freq + remaining
  maxPossible < alphaPref || (alphaPref ≤ freq && maxPossible < alphaConf) || alphaConf ≤ freq

/-- Whether the poll has terminated; the answer `true` is remembered. -/
def finished (p : Poll) : Bool × Poll :=
  if p.terminated then (true, p)
  else
    let remaining := p.polled.len
    if remaining = 0 then (true, { p with terminated := true })
    else
      let maxPossible := p.votes.len + remaining
      let alphaPref := p.alphaPreference.toNat
      let alphaConf := p.alphaConfidence.toNat
      if maxPossible < alphaPref then (true, { p with terminated := true })
      else
        let ids := p.votes.list
        if ids.isEmpty then (false, p)
        else
          let allSettled := ids.all fun id ↦
            shouldTerminate (p.votes.count id) remaining alphaPref alphaConf
          (allSettled, { p with terminated := allSettled })

/-- The accumulated votes. -/
def result (p : Poll) : Bag Id := p.votes

/-- A response arrives. -/
def respond (p : Poll) : Response → Poll
  | .vote vdr id => p.vote vdr id
  | .drop vdr => p.drop vdr

end Poll

/-- Builds polls from samples. -/
abbrev PollFactory := Bag NodeId → Poll

/-- Parameters of polls that terminate as soon as the outcome looks settled. -/
structure EarlyTermFactory where
  alphaPreference : UInt32
  alphaConfidence : UInt32
deriving DecidableEq, Repr

/-- Builds a poll waiting for `validators`. -/
def EarlyTermFactory.newPoll (f : EarlyTermFactory) : PollFactory := fun validators ↦
  ⟨validators, Bag.new, f.alphaPreference, f.alphaConfidence, false⟩

/-! ## The set of polls -/

/-- The outstanding polls by request id. -/
structure PollSet where
  factory : PollFactory
  polls : ExtTreeMap UInt32 Poll

namespace PollSet

/-- The empty set. -/
def new (factory : PollFactory) : PollSet := ⟨factory, ∅⟩

/-- Opens a poll, unless the request id is in flight. -/
def add (s : PollSet) (requestId : UInt32) (validators : Bag NodeId) : Bool × PollSet :=
  if requestId ∈ s.polls then (false, s)
  else (true, { s with polls := s.polls.insert requestId (s.factory validators) })

/-- The loop of `drainFinished` over the remaining keys. -/
def drainKeys : List UInt32 → PollSet → List (Bag Id) × PollSet
  | [], s => ([], s)
  | key :: keys, s =>
    match s.polls[key]? with
    | none => ([], s)
    | some poll =>
      let (finished, poll) := poll.finished
      if finished then
        let (results, s) := drainKeys keys { s with polls := s.polls.erase key }
        (poll.result :: results, s)
      else ([], { s with polls := s.polls.insert key poll })

/-- Takes out finished polls from the oldest on, up to the first unfinished one. -/
def drainFinished (s : PollSet) : List (Bag Id) × PollSet := drainKeys s.polls.keys s

/-- A response to `requestId` arrives; returns the results of the polls it completes. -/
def respond (s : PollSet) (requestId : UInt32) (r : Response) : List (Bag Id) × PollSet :=
  match s.polls[requestId]? with
  | none => ([], s)
  | some poll =>
    let (finished, poll) := (poll.respond r).finished
    let s := { s with polls := s.polls.insert requestId poll }
    if finished then s.drainFinished else ([], s)

/-- Registers a vote. -/
def vote (s : PollSet) (requestId : UInt32) (vdr : NodeId) (vote : Id) :
    List (Bag Id) × PollSet := s.respond requestId (.vote vdr vote)

/-- Drops a response. -/
def drop (s : PollSet) (requestId : UInt32) (vdr : NodeId) : List (Bag Id) × PollSet :=
  s.respond requestId (.drop vdr)

/-- The number of outstanding polls. -/
def len (s : PollSet) : ℕ := s.polls.size

end PollSet

/-! ## What a poll counts -/

namespace Poll

variable {p : Poll} {sample : Bag NodeId}

theorem count_foldl_addCount (bag : Bag NodeId) (vdr node : NodeId) (l : List NodeId)
    (hl : l.Nodup) (start : Bag NodeId) :
    (l.foldl (fun remaining n ↦
        if n = vdr then remaining else remaining.addCount n (bag.count n)) start).count node
      = start.count node + if node ∈ l ∧ node ≠ vdr then bag.count node else 0 := by
  induction l generalizing start with
  | nil => simp
  | cons n l ih =>
    obtain ⟨hn, hl⟩ := List.nodup_cons.mp hl
    rw [List.foldl_cons, ih hl]
    by_cases hv : n = vdr
    · subst hv
      have hiff : (node ∈ n :: l ∧ node ≠ n) ↔ (node ∈ l ∧ node ≠ n) := by
        rw [List.mem_cons]
        tauto
      simp only [if_true, hiff]
    · rw [if_neg hv, Bag.count_addCount]
      by_cases hnode : n = node
      · subst hnode
        simp [hn, hv]
      · simp [hnode, Ne.symm hnode]

/-- Removing a validator drops exactly its draws. -/
theorem polled_removePolled (p : Poll) (vdr : NodeId) :
    (p.removePolled vdr).polled.items.Perm (p.polled.items.filter (· ≠ vdr)) := by
  rw [List.perm_iff_count]
  intro node
  have h := count_foldl_addCount p.polled vdr node p.polled.list p.polled.nodup_list Bag.new
  simp only [Bag.count_new, zero_add, Bag.mem_list] at h
  refine h.trans ?_
  by_cases hv : node = vdr
  · subst hv
    rw [if_neg (by simp), List.count_eq_zero.mpr (by simp)]
  · rw [List.count_filter (by simpa using hv), Bag.count]
    by_cases hmem : node ∈ p.polled.items
    · rw [if_pos ⟨hmem, hv⟩]
    · rw [if_neg (by simp [hmem]), List.count_eq_zero.mpr hmem]

@[simp] theorem votes_removePolled (p : Poll) (vdr : NodeId) :
    (p.removePolled vdr).votes = p.votes := rfl

/-- The validators that are still awaited after a response. -/
theorem polled_respond (p : Poll) (r : Response) :
    (p.respond r).polled.items.Perm (p.polled.items.filter (· ≠ r.vdr)) := by
  have hself (vdr : NodeId) (h : p.polled.count vdr = 0) :
      p.polled.items.Perm (p.polled.items.filter (· ≠ vdr)) := by
    rw [List.filter_eq_self.mpr]
    intro node hnode
    rw [decide_eq_true_eq]
    rintro rfl
    exact List.count_eq_zero.mp h hnode
  cases r with
  | vote vdr id =>
    by_cases h : p.polled.count vdr = 0
    · rw [show p.respond (.vote vdr id) = p from if_pos h]
      exact hself vdr h
    · rw [show p.respond (.vote vdr id) = _ from if_neg h]
      exact p.polled_removePolled vdr
  | drop vdr =>
    by_cases h : p.polled.count vdr = 0
    · rw [show p.respond (.drop vdr) = p from if_pos h]
      exact hself vdr h
    · rw [show p.respond (.drop vdr) = _ from if_neg h]
      exact p.polled_removePolled vdr

/-- The votes after a response: the draws of an awaited voter are added. -/
theorem votes_respond (p : Poll) (r : Response) :
    (p.respond r).votes.items = p.votes.items ++
      (r.choice.map fun id ↦ List.replicate (p.polled.count r.vdr) id).getD [] := by
  cases r with
  | vote vdr id =>
    unfold respond vote
    by_cases h : p.polled.count vdr = 0
    · simp [h]
    · simp [h, Bag.addCount]
  | drop vdr =>
    unfold respond drop
    by_cases h : p.polled.count vdr = 0 <;> simp [h]

@[simp] theorem polled_finished (p : Poll) : p.finished.2.polled = p.polled := by
  simp only [finished]
  split_ifs <;> rfl

@[simp] theorem votes_finished (p : Poll) : p.finished.2.votes = p.votes := by
  simp only [finished]
  split_ifs <;> rfl

/-- The poll waits for the draws of `sample` whose validator has not answered, and holds one vote
for each draw whose validator answered with a vote. -/
structure CountsWith (p : Poll) (sample : Bag NodeId) (answer : NodeId → Option (Option Id)) :
    Prop where
  polled : p.polled.items.Perm (sample.items.filter fun node ↦ (answer node).isNone)
  votes : p.votes.items.Perm (sample.items.filterMap fun node ↦ (answer node).join)

/-- The poll was opened on `sample`. -/
def Counts (p : Poll) (sample : Bag NodeId) : Prop := ∃ answer, p.CountsWith sample answer

theorem counts_newPoll (f : EarlyTermFactory) (sample : Bag NodeId) :
    (f.newPoll sample).Counts sample := by
  refine ⟨fun _ ↦ none, ?_, ?_⟩
  · simp [EarlyTermFactory.newPoll]
  · simp [EarlyTermFactory.newPoll]

/-- One more answer adds one vote for every draw of its validator. -/
theorem perm_filterMap_update {answer : NodeId → Option (Option Id)} {vdr : NodeId}
    (h : answer vdr = none) (choice : Option Id) (l : List NodeId) :
    (l.filterMap fun node ↦ (Function.update answer vdr (some choice) node).join).Perm
      ((l.filterMap fun node ↦ (answer node).join) ++
        (choice.map fun id ↦ List.replicate (l.count vdr) id).getD []) := by
  induction l with
  | nil => cases choice <;> simp
  | cons node l ih =>
    by_cases hnode : node = vdr
    · subst hnode
      cases choice with
      | none => simpa [h] using ih
      | some id =>
        simp only [List.filterMap_cons, Function.update_self, h, Option.join_some,
          Option.join_none, List.count_cons_self, Option.map_some, Option.getD_some,
          List.replicate_succ] at ih ⊢
        exact (ih.cons id).trans List.perm_middle.symm
    · have hcount : (node :: l).count vdr = l.count vdr := List.count_cons_of_ne hnode
      rw [hcount, List.filterMap_cons, List.filterMap_cons, Function.update_of_ne hnode]
      cases (answer node).join with
      | none => exact ih
      | some id => exact ih.cons id

theorem Counts.respond (h : p.Counts sample) (r : Response) : (p.respond r).Counts sample := by
  obtain ⟨answer, hpolled, hvotes⟩ := h
  by_cases hans : answer r.vdr = none
  · refine ⟨Function.update answer r.vdr (some r.choice), ?_, ?_⟩
    · refine (p.polled_respond r).trans ((hpolled.filter _).trans ?_)
      rw [List.filter_filter]
      refine List.Perm.of_eq (List.filter_congr fun node _ ↦ ?_)
      by_cases hnode : node = r.vdr
      · simp [hnode]
      · simp [hnode]
    · have hcount : p.polled.count r.vdr = sample.items.count r.vdr := by
        rw [Bag.count, hpolled.count_eq, List.count_filter (by simp [hans])]
      rw [p.votes_respond r, hcount]
      exact (hvotes.append_right _).trans (perm_filterMap_update hans _ _).symm
  · -- a second answer finds no draw of its validator
    have hcount : p.polled.items.count r.vdr = 0 := by
      rw [hpolled.count_eq, List.count_eq_zero]
      simp [hans]
    refine ⟨answer, ?_, ?_⟩
    · refine (p.polled_respond r).trans ?_
      rw [List.filter_eq_self.mpr]
      · exact hpolled
      · intro node hnode
        rw [decide_eq_true_eq]
        rintro rfl
        exact List.count_eq_zero.mp hcount hnode
    · have hnil : ((r.choice.map fun id ↦ List.replicate (p.polled.count r.vdr) id).getD [])
          = [] := by
        rw [Bag.count, hcount]
        cases r.choice <;> rfl
      rw [p.votes_respond r, hnil, List.append_nil]
      exact hvotes

theorem Counts.finished (h : p.Counts sample) : p.finished.2.Counts sample := by
  obtain ⟨answer, hpolled, hvotes⟩ := h
  exact ⟨answer, by rwa [polled_finished], by rwa [votes_finished]⟩

/-- Votes and awaited draws together are no more than the draws. -/
theorem Counts.len_le (h : p.Counts sample) : p.votes.len + p.polled.len ≤ sample.len := by
  obtain ⟨answer, hpolled, hvotes⟩ := h
  rw [Bag.len, Bag.len, Bag.len, hvotes.length_eq, hpolled.length_eq]
  induction sample.items with
  | nil => simp
  | cons node l ih =>
    rw [List.filterMap_cons, List.filter_cons]
    cases hans : answer node with
    | none =>
      simp
      omega
    | some choice =>
      cases choice with
      | none =>
        simp
        omega
      | some id =>
        simp
        omega

end Poll

/-- The votes are cast by validators of the sample, each for one block and with as many votes as it
was drawn. -/
def Tallied (sample : Bag NodeId) (votes : Bag Id) : Prop :=
  ∃ choice : NodeId → Option Id, votes.items.Perm (sample.items.filterMap choice)

theorem Poll.Counts.tallied {p : Poll} {sample : Bag NodeId} (h : p.Counts sample) :
    Tallied sample p.votes := by
  obtain ⟨answer, -, hvotes⟩ := h
  exact ⟨fun node ↦ (answer node).join, hvotes⟩

/-! ## Results and samples -/

namespace PollSet

variable {s : PollSet} {samples : List (Bag NodeId)} {owner : UInt32 → ℕ} {done : List ℕ}

/-- `samples` are the samples a poll was ever opened on, and `done` the positions of those whose
result was handed out; `owner` gives the position of an outstanding poll. -/
structure Ledger (s : PollSet) (samples : List (Bag NodeId)) (owner : UInt32 → ℕ)
    (done : List ℕ) : Prop where
  fresh : ∀ sample, (s.factory sample).Counts sample
  counts : ∀ {r p}, s.polls[r]? = some p →
    ∃ sample, samples[owner r]? = some sample ∧ p.Counts sample
  notMem : ∀ {r p}, s.polls[r]? = some p → owner r ∉ done
  inj : ∀ {r p r' p'}, s.polls[r]? = some p → s.polls[r']? = some p' → owner r = owner r' → r = r'
  lt : ∀ i ∈ done, i < samples.length
  nodup : done.Nodup

/-- The results are tallied from the samples at the positions `source`. -/
def From (samples : List (Bag NodeId)) (source : List ℕ) (results : List (Bag Id)) : Prop :=
  List.Forall₂ (fun i votes ↦ ∃ sample, samples[i]? = some sample ∧ Tallied sample votes)
    source results

namespace Ledger

theorem new {factory : PollFactory} (h : ∀ sample, (factory sample).Counts sample) :
    (PollSet.new factory).Ledger [] owner [] where
  fresh := h
  counts h := by simp [PollSet.new] at h
  notMem _ := List.not_mem_nil
  inj h := by simp [PollSet.new] at h
  lt := by simp
  nodup := List.nodup_nil

variable {r : UInt32}

theorem owner_lt (h : s.Ledger samples owner done) {p : Poll}
    (hp : s.polls[r]? = some p) : owner r < samples.length := by
  obtain ⟨sample, hsample, -⟩ := h.counts hp
  exact (List.getElem?_eq_some_iff.mp hsample).1

/-- Opening a poll adds its sample to the list. -/
theorem insert (h : s.Ledger samples owner done) (r : UInt32) (sample : Bag NodeId) :
    ({ s with polls := s.polls.insert r (s.factory sample) } : PollSet).Ledger
      (samples ++ [sample]) (Function.update owner r samples.length) done := by
  have hget {r' : UInt32} {q : Poll} (hq : (s.polls.insert r (s.factory sample))[r']? = some q) :
      r' = r ∧ q = s.factory sample ∨ r' ≠ r ∧ s.polls[r']? = some q := by
    rw [TreeMap.getElem?_insert_eq] at hq
    by_cases hr : r = r'
    · rw [if_pos hr, Option.some.injEq] at hq
      exact Or.inl ⟨hr.symm, hq.symm⟩
    · rw [if_neg hr] at hq
      exact Or.inr ⟨Ne.symm hr, hq⟩
  refine ⟨h.fresh, ?_, ?_, ?_, ?_, h.nodup⟩
  · intro r' q hq
    obtain ⟨rfl, rfl⟩ | ⟨hr, hq⟩ := hget hq
    · exact ⟨sample, by simp, h.fresh sample⟩
    · obtain ⟨sample', hsample', hc⟩ := h.counts hq
      refine ⟨sample', ?_, hc⟩
      rw [Function.update_of_ne hr, List.getElem?_append_left (h.owner_lt hq), hsample']
  · intro r' q hq
    obtain ⟨rfl, rfl⟩ | ⟨hr, hq⟩ := hget hq
    · rw [Function.update_self]
      exact fun hdone ↦ lt_irrefl _ (h.lt _ hdone)
    · rw [Function.update_of_ne hr]
      exact h.notMem hq
  · intro r₁ p₁ r₂ p₂ h₁ h₂ heq
    obtain ⟨rfl, -⟩ | ⟨hr₁, h₁'⟩ := hget h₁ <;> obtain ⟨rfl, -⟩ | ⟨hr₂, h₂'⟩ := hget h₂
    · rfl
    · rw [Function.update_self, Function.update_of_ne hr₂] at heq
      exact absurd heq.symm (h.owner_lt h₂').ne
    · rw [Function.update_self, Function.update_of_ne hr₁] at heq
      exact absurd heq (h.owner_lt h₁').ne
    · rw [Function.update_of_ne hr₁, Function.update_of_ne hr₂] at heq
      exact h.inj h₁' h₂' heq
  · intro i hi
    rw [List.length_append]
    exact Nat.lt_add_right _ (h.lt i hi)

/-- A poll is replaced by one over the same sample. -/
theorem replace (h : s.Ledger samples owner done) {p p' : Poll}
    (hp : s.polls[r]? = some p) (hkeep : ∀ sample, p.Counts sample → p'.Counts sample) :
    ({ s with polls := s.polls.insert r p' } : PollSet).Ledger samples owner done := by
  have hget {r' : UInt32} {q : Poll} (hq : (s.polls.insert r p')[r']? = some q) :
      ∃ q', s.polls[r']? = some q' ∧ ∀ sample, q'.Counts sample → q.Counts sample := by
    rw [TreeMap.getElem?_insert_eq] at hq
    by_cases hr : r = r'
    · rw [if_pos hr, Option.some.injEq] at hq
      exact ⟨p, hr ▸ hp, hq ▸ hkeep⟩
    · rw [if_neg hr] at hq
      exact ⟨q, hq, fun _ hc ↦ hc⟩
  refine ⟨h.fresh, ?_, ?_, ?_, h.lt, h.nodup⟩
  · intro r' q hq
    obtain ⟨q', hq', hkeep'⟩ := hget hq
    obtain ⟨sample, hsample, hc⟩ := h.counts hq'
    exact ⟨sample, hsample, hkeep' sample hc⟩
  · intro r' q hq
    obtain ⟨q', hq', -⟩ := hget hq
    exact h.notMem hq'
  · intro r₁ p₁ r₂ p₂ h₁ h₂ heq
    obtain ⟨q₁, h₁, -⟩ := hget h₁
    obtain ⟨q₂, h₂, -⟩ := hget h₂
    exact h.inj h₁ h₂ heq

/-- A poll is closed. -/
theorem close (h : s.Ledger samples owner done) {p : Poll}
    (hp : s.polls[r]? = some p) :
    ({ s with polls := s.polls.erase r } : PollSet).Ledger samples owner (done ++ [owner r]) := by
  have hget {r' : UInt32} {q : Poll} (hq : (s.polls.erase r)[r']? = some q) :
      r ≠ r' ∧ s.polls[r']? = some q := by
    rw [TreeMap.getElem?_erase_eq] at hq
    by_cases hr : r = r'
    · simp [hr] at hq
    · rw [if_neg hr] at hq
      exact ⟨hr, hq⟩
  refine ⟨h.fresh, fun hq ↦ h.counts (hget hq).2, ?_,
    fun h₁ h₂ ↦ h.inj (hget h₁).2 (hget h₂).2, ?_, ?_⟩
  · intro r' q hq
    obtain ⟨hne, hq⟩ := hget hq
    rw [List.mem_append, List.mem_singleton, not_or]
    exact ⟨h.notMem hq, fun heq ↦ hne (h.inj hp hq heq.symm)⟩
  · intro i hi
    rw [List.mem_append, List.mem_singleton] at hi
    obtain hi | rfl := hi
    · exact h.lt i hi
    · exact h.owner_lt hp
  · rw [List.nodup_append_comm, List.singleton_append, List.nodup_cons]
    exact ⟨h.notMem hp, h.nodup⟩

/-- What is drained comes from samples that gave no result before. -/
theorem drainKeys (keys : List UInt32) (h : s.Ledger samples owner done) :
    ∃ source, (PollSet.drainKeys keys s).2.Ledger samples owner (done ++ source) ∧
      From samples source (PollSet.drainKeys keys s).1 := by
  induction keys generalizing s done with
  | nil => exact ⟨[], by simpa [PollSet.drainKeys] using h, .nil⟩
  | cons key keys ih =>
    cases hp : s.polls[key]? with
    | none =>
      exact ⟨[], by simpa [PollSet.drainKeys, hp] using h, by simp [PollSet.drainKeys, hp, From]⟩
    | some p =>
      cases hfin : p.finished.1 with
      | false =>
        have hs : PollSet.drainKeys (key :: keys) s
            = ([], { s with polls := s.polls.insert key p.finished.2 }) := by
          simp [PollSet.drainKeys, hp, hfin]
        rw [hs]
        exact ⟨[], by simpa using h.replace hp fun _ hc ↦ hc.finished, .nil⟩
      | true =>
        obtain ⟨source, hledger, hfrom⟩ := ih (h.close hp)
        obtain ⟨sample, hsample, hc⟩ := h.counts hp
        have hs : PollSet.drainKeys (key :: keys) s
            = (p.votes :: (PollSet.drainKeys keys { s with polls := s.polls.erase key }).1,
              (PollSet.drainKeys keys { s with polls := s.polls.erase key }).2) := by
          simp [PollSet.drainKeys, hp, hfin, Poll.result]
        rw [hs]
        exact ⟨owner key :: source, by simpa using hledger,
          .cons ⟨sample, hsample, hc.tallied⟩ hfrom⟩

/-- The results that a response sets free come from samples that gave no result before. -/
theorem respond (h : s.Ledger samples owner done) (r : UInt32) (x : Response) :
    ∃ source, (s.respond r x).2.Ledger samples owner (done ++ source) ∧
      From samples source (s.respond r x).1 := by
  cases hp : s.polls[r]? with
  | none => exact ⟨[], by simpa [PollSet.respond, hp] using h, by simp [PollSet.respond, hp, From]⟩
  | some p =>
    have hl := h.replace hp fun _ hc ↦ (hc.respond x).finished
    cases hfin : (p.respond x).finished.1 with
    | false =>
      exact ⟨[], by simpa [PollSet.respond, hp, hfin] using hl,
        by simp [PollSet.respond, hp, hfin, From]⟩
    | true =>
      simpa [PollSet.respond, hp, hfin, drainFinished] using hl.drainKeys _

end Ledger

end PollSet

end Avalanche
