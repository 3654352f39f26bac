import Avalanche.Library.Steps
import Avalanche.Snow.TreeFinality

/-!
# The polls that finalize a tree

A tree is finalized by `beta` polls in a row. A streak for a choice is an end of the run without an
unsuccessful poll whose polls all have `alphaConfidence` votes for the choice; while nothing is
decided, the counter of every choice that is still allowed is the number of polls of such a streak
(`Counts`). The poll that completes `beta` ends the count, and a decided tree does not move again.
-/

namespace Avalanche

namespace TreeOp

/-- Whether a call is a poll. -/
def isPoll : TreeOp → Bool
  | .recordPoll _ => true
  | _ => false

/-- No unsuccessful poll, and every poll has at least `alpha` votes for `id`. -/
def Streak (alpha : ℕ) (id : Id) (ops : List TreeOp) : Prop :=
  .recordUnsuccessfulPoll ∉ ops ∧ ∀ votes, .recordPoll votes ∈ ops → alpha ≤ votes.count id

/-- The choices added along the calls. -/
def added (choices : List Id) : List TreeOp → List Id
  | [] => choices
  | add choice :: ops => added (choice :: choices) ops
  | _ :: ops => added choices ops

variable {p : Parameters} {choices : List Id} {ops ops' : List TreeOp} {alpha : ℕ} {id : Id}

theorem added_append : added choices (ops ++ ops') = added (added choices ops) ops' := by
  induction ops generalizing choices with
  | nil => rfl
  | cons op ops ih => cases op <;> exact ih

theorem allowed_append :
    Allowed p choices (ops ++ ops') ↔ Allowed p choices ops ∧
      Allowed p (added choices ops) ops' := by
  induction ops generalizing choices with
  | nil => simp [Allowed, added]
  | cons op ops ih =>
    cases op with
    | add choice => exact ih
    | recordPoll votes => simp only [List.cons_append, Allowed, ih, added, and_assoc]
    | recordUnsuccessfulPoll => exact ih

theorem streak_nil : Streak alpha id [] := ⟨List.not_mem_nil, fun _ h ↦ nomatch h⟩

theorem Streak.add (h : Streak alpha id ops) (choice : Id) :
    Streak alpha id (ops ++ [.add choice]) := by
  simpa [Streak] using h

theorem Streak.recordPoll (h : Streak alpha id ops) {votes : Bag Id}
    (hvotes : alpha ≤ votes.count id) : Streak alpha id (ops ++ [.recordPoll votes]) := by
  refine ⟨by simpa using h.1, fun votes' hmem ↦ ?_⟩
  rcases List.mem_append.mp hmem with hmem | hmem
  · exact h.2 votes' hmem
  · cases List.mem_singleton.mp hmem
    exact hvotes

/-- The run ends in a streak for `id` with `n` polls. -/
def EndsIn (alpha : ℕ) (id : Id) (n : ℕ) (ops : List TreeOp) : Prop :=
  ∃ earlier streak, ops = earlier ++ streak ∧ Streak alpha id streak ∧ streak.countP isPoll = n

theorem endsIn_zero (alpha : ℕ) (id : Id) (ops : List TreeOp) : EndsIn alpha id 0 ops :=
  ⟨ops, [], (List.append_nil ops).symm, streak_nil, rfl⟩

theorem EndsIn.add {n : ℕ} (h : EndsIn alpha id n ops) (choice : Id) :
    EndsIn alpha id n (ops ++ [.add choice]) := by
  obtain ⟨earlier, streak, rfl, hstreak, rfl⟩ := h
  refine ⟨earlier, streak ++ [.add choice], List.append_assoc .., hstreak.add choice, ?_⟩
  rw [List.countP_append]
  rfl

theorem EndsIn.recordPoll {n : ℕ} (h : EndsIn alpha id n ops) {votes : Bag Id}
    (hvotes : alpha ≤ votes.count id) : EndsIn alpha id (n + 1) (ops ++ [.recordPoll votes]) := by
  obtain ⟨earlier, streak, rfl, hstreak, rfl⟩ := h
  refine ⟨earlier, streak ++ [.recordPoll votes], List.append_assoc .., hstreak.recordPoll hvotes,
    ?_⟩
  rw [List.countP_append]
  rfl

end TreeOp

namespace Tree

open TreeOp Steps

variable {F : LawfulFactory} {t : Tree F} {choices : List Id} {ops : List TreeOp} {p : Parameters}

/-! ### Before the tree is decided -/

/-- After the calls `ops`, nothing is decided and every counter is the length of a streak. -/
structure Counts (t : Tree F) (choices : List Id) (ops : List TreeOp) : Prop where
  undecided : t.Undecided choices
  prefers : t.PrefersOnly (· ∈ choices)
  endsIn : ∀ id ∈ choices, t.allows id = true →
    EndsIn t.params.alphaConfidence.toNat id (t.level id) ops

theorem counts_new (hp : p.Verified) (choice : Id) :
    (Tree.new F p choice).Counts [choice] [] := by
  obtain ⟨hundecided, hlevel⟩ := undecided_new (F := F) hp choice
  refine ⟨hundecided, prefersOnly_new (List.mem_singleton.mpr rfl), fun id _ _ ↦ ?_⟩
  rw [hlevel id]
  exact endsIn_zero _ _ _

theorem Counts.add (hp : t.params.Verified) (h : t.Counts choices ops) (choice : Id) :
    (t.add choice).Counts (choice :: choices) (ops ++ [.add choice]) := by
  obtain ⟨hundecided, hallows, hlevel, hnew⟩ := h.undecided.add hp choice
  have hprefers : t.PrefersOnly (· ∈ choice :: choices) :=
    h.prefers.mono fun _ ↦ List.mem_cons_of_mem choice
  refine ⟨hundecided, hprefers.add List.mem_cons_self, fun id hid hallow ↦ ?_⟩
  rw [params_add]
  rw [hallows] at hallow
  by_cases hmem : id ∈ choices
  · rw [hlevel id hmem]
    exact (h.endsIn id hmem hallow).add choice
  · -- a new choice starts with no polls
    obtain rfl : id = choice := (List.mem_cons.mp hid).resolve_right hmem
    rw [hnew h.prefers hmem]
    exact endsIn_zero _ _ _

theorem Counts.recordUnsuccessfulPoll (h : t.Counts choices ops) :
    t.recordUnsuccessfulPoll.Counts choices (ops ++ [.recordUnsuccessfulPoll]) := by
  obtain ⟨hundecided, hlevel⟩ := h.undecided.recordUnsuccessfulPoll
  refine ⟨hundecided, h.prefers.recordUnsuccessfulPoll, fun id _ _ ↦ ?_⟩
  rw [hlevel id]
  exact endsIn_zero _ _ _

/-- A poll that does not decide the tree continues the streaks or starts them again. -/
theorem Counts.recordPoll (hp : t.params.Verified) (h : t.Counts choices ops) {votes : Bag Id}
    (hk : votes.len ≤ t.params.k.toNat) (hvotes : ∀ id ∈ votes.items, id ∈ choices)
    (hf : (t.recordPoll votes).1.finalized = false) :
    (t.recordPoll votes).1.Counts choices (ops ++ [.recordPoll votes]) := by
  obtain ⟨hfin, -⟩ | ⟨hundecided, hlevel⟩ := h.undecided.recordPoll_cases hp hk hvotes
  · cases hf.symm.trans hfin
  · refine ⟨hundecided, h.prefers.recordPoll votes, fun id hid hallow ↦ ?_⟩
    obtain ⟨hallow', hlevel'⟩ := hlevel id hid hallow
    rw [params_recordPoll, hlevel']
    split_ifs with hcount
    · exact (h.endsIn id hid hallow').recordPoll hcount
    · exact endsIn_zero _ _ _

/-- The poll that decides the tree completes a streak of `beta` for its preference. -/
theorem Counts.endsIn_of_finalized (hp : t.params.Verified) (h : t.Counts choices ops)
    {votes : Bag Id} (hk : votes.len ≤ t.params.k.toNat) (hvotes : ∀ id ∈ votes.items, id ∈ choices)
    (hf : (t.recordPoll votes).1.finalized = true) :
    EndsIn t.params.alphaConfidence.toNat (t.recordPoll votes).1.preference
        (t.params.beta.toNat - 1) ops ∧
      t.params.alphaConfidence.toNat ≤ votes.count (t.recordPoll votes).1.preference := by
  obtain ⟨-, hallow, hcount, hbeta⟩ | ⟨hundecided, -⟩ := h.undecided.recordPoll_cases hp hk hvotes
  · set id := (t.recordPoll votes).1.preference
    have hpos : 0 < votes.count id :=
      (hp.alphaPreference_pos.trans_le hp.bounds.2.1).trans_le hcount
    have hid : id ∈ choices := hvotes id (List.count_pos_iff.mp hpos)
    have hlt := h.undecided.level_lt hp id
    have hlevel : t.level id = t.params.beta.toNat - 1 := by omega
    refine ⟨?_, hcount⟩
    rw [← hlevel]
    exact h.endsIn id hid hallow
  · cases hundecided.finalized.symm.trans hf

/-! ### Whole runs -/

/-- What holds along every run of allowed calls. -/
structure Tracked (t : Tree F) (choices : List Id) (ops : List TreeOp) : Prop where
  refines : ∃ r, t.Refines choices r
  counts : t.finalized = false → t.Counts choices ops

theorem tracked_new (hp : p.Verified) (choice : Id) :
    (Tree.new F p choice).Tracked [choice] [] :=
  ⟨⟨_, refines_new hp choice⟩, fun _ ↦ counts_new hp choice⟩

theorem Tracked.settled (h : t.Tracked choices ops) (hf : t.finalized = true) :
    t.node.Settled t.params := by
  obtain ⟨r, -, hlive | ⟨hsettled, -⟩⟩ := h.refines
  · cases hlive.finalized.symm.trans hf
  · exact hsettled

/-- A decided tree does not move, whatever it is called with. -/
theorem settled_apply (h : t.node.Settled t.params) (op : TreeOp) :
    (t.apply op).node.Settled (t.apply op).params ∧ (t.apply op).preference = t.preference := by
  cases op with
  | add choice =>
    rw [apply, Tree.add]
    split_ifs
    · simp only [Tree.preference, h.add choice]
      exact ⟨h, trivial⟩
    · exact ⟨h, rfl⟩
  | recordPoll votes => exact h.recordPoll _ _
  | recordUnsuccessfulPoll => exact ⟨h, rfl⟩

theorem settled_exec (h : t.node.Settled t.params) (ops : List TreeOp) :
    (exec Tree.apply t ops).finalized = true ∧
      (exec Tree.apply t ops).preference = t.preference := by
  have hrun : (exec Tree.apply t ops).node.Settled (exec Tree.apply t ops).params ∧
      (exec Tree.apply t ops).preference = t.preference := exec_of_step
    (I := fun t' : Tree F ↦ t'.node.Settled t'.params ∧ t'.preference = t.preference)
    (fun t' op ht' ↦ ⟨(settled_apply ht'.1 op).1, (settled_apply ht'.1 op).2.trans ht'.2⟩)
    ⟨h, rfl⟩ ops
  exact ⟨hrun.1.finalized, hrun.2⟩

theorem Tracked.apply (hp : t.params.Verified) (h : t.Tracked choices ops) {op : TreeOp}
    (hop : Allowed t.params choices [op]) :
    (t.apply op).Tracked (added choices [op]) (ops ++ [op]) := by
  obtain ⟨r, hr⟩ := h.refines
  -- an undecided tree has never been decided
  have hbefore (hf : (t.apply op).finalized = false) : t.Counts choices ops := by
    refine h.counts (Bool.eq_false_iff.mpr fun ht ↦ ?_)
    have hfin := (settled_apply (h.settled ht) op).1.finalized
    exact Bool.false_ne_true (hf.symm.trans hfin)
  cases op with
  | add choice => exact ⟨⟨_, hr.add hp choice⟩, fun hf ↦ (hbefore hf).add hp choice⟩
  | recordPoll votes =>
    exact ⟨⟨_, hr.recordPoll hop.1.1 hop.1.2⟩,
      fun hf ↦ (hbefore hf).recordPoll hp hop.1.1 hop.1.2 hf⟩
  | recordUnsuccessfulPoll =>
    exact ⟨⟨_, hr.recordUnsuccessfulPoll⟩, fun hf ↦ (hbefore hf).recordUnsuccessfulPoll⟩

theorem params_exec (t : Tree F) (ops : List TreeOp) :
    (exec Tree.apply t ops).params = t.params :=
  exec_of_step (I := fun t' : Tree F ↦ t'.params = t.params)
    (fun t' op ht' ↦ (params_apply t' op).trans ht') rfl ops

theorem tracked_exec (hp : p.Verified) (choice : Id) {ops : List TreeOp}
    (hops : Allowed p [choice] ops) :
    (exec Tree.apply (Tree.new F p choice) ops).Tracked (added [choice] ops) ops := by
  induction ops using List.reverseRecOn with
  | nil => exact tracked_new hp choice
  | append_singleton ops op ih =>
    obtain ⟨hops, hop⟩ := allowed_append.mp hops
    have hparams := params_exec (Tree.new F p choice) ops
    rw [exec_append, added_append]
    exact (ih hops).apply (by rw [hparams]; exact hp) (by rw [hparams]; exact hop)

/-- **A tree is finalized by `beta` confident polls in a row, for good**: if a poll finalizes it,
that poll and the `beta - 1` polls before it all had `alphaConfidence` votes for the preference and
no unsuccessful poll came between them, and afterwards no call changes the preference or the
finalized flag. -/
theorem finalized_by_streak (F : LawfulFactory) {p : Parameters} (hp : p.Verified) (choice : Id)
    {ops : List TreeOp} {votes : Bag Id} (hops : Allowed p [choice] (ops ++ [.recordPoll votes]))
    (hbefore : (exec Tree.apply (Tree.new F p choice) ops).finalized = false)
    (hafter : (exec Tree.apply (Tree.new F p choice)
      (ops ++ [.recordPoll votes])).finalized = true) :
    let decided := exec Tree.apply (Tree.new F p choice) (ops ++ [.recordPoll votes])
    p.alphaConfidence.toNat ≤ votes.count decided.preference ∧
      EndsIn p.alphaConfidence.toNat decided.preference (p.beta.toNat - 1) ops ∧
      ∀ rest, (exec Tree.apply decided rest).finalized = true ∧
        (exec Tree.apply decided rest).preference = decided.preference := by
  intro decided
  have hparams := params_exec (Tree.new F p choice) ops
  have hsettled := (tracked_exec hp choice hops).settled hafter
  obtain ⟨hops, hpoll⟩ := allowed_append.mp hops
  have hcounts := (tracked_exec hp choice hops).counts hbefore
  have hdecided : decided = (exec Tree.apply (Tree.new F p choice) ops).apply
      (.recordPoll votes) := exec_append _ _ _
  have hfin : ((exec Tree.apply (Tree.new F p choice) ops).apply
      (.recordPoll votes)).finalized = true := hdecided ▸ hafter
  obtain ⟨hends, hvotes⟩ := hcounts.endsIn_of_finalized (by rw [hparams]; exact hp)
    (by rw [hparams]; exact hpoll.1.1) hpoll.1.2 hfin
  have hpreference : decided.preference
      = ((exec Tree.apply (Tree.new F p choice) ops).recordPoll votes).1.preference :=
    congrArg Tree.preference hdecided
  rw [hparams, ← hpreference] at hends hvotes
  exact ⟨hvotes, hends, settled_exec hsettled⟩

/-- Two polls in a row for the second choice, after a reset. -/
theorem finalized_by_streak_example :
    let earlier : List TreeOp :=
      [.add 1#256, .recordPoll ⟨[1#256]⟩, .recordUnsuccessfulPoll, .recordPoll ⟨[1#256]⟩]
    let decided := exec Tree.apply (Tree.new snowballFactory exampleParams 0#256)
      (earlier ++ [.recordPoll ⟨[1#256]⟩])
    decided.preference = 1#256 ∧ EndsIn 1 1#256 1 earlier ∧
      ∀ rest, (exec Tree.apply decided rest).finalized = true ∧
        (exec Tree.apply decided rest).preference = 1#256 := by
  intro earlier decided
  have hops : Allowed exampleParams [0#256] (earlier ++ [.recordPoll ⟨[1#256]⟩]) := by
    simp [earlier, Allowed, Bag.len, exampleParams]
  have hpreference : decided.preference = 1#256 := by decide +kernel
  obtain ⟨-, hends, hrest⟩ := finalized_by_streak snowballFactory (p := exampleParams) (by decide)
    0#256 hops (by decide +kernel) (by decide +kernel)
  refine ⟨hpreference, ?_, fun rest ↦ ?_⟩
  · rw [← hpreference]
    exact hends
  · rw [← hpreference]
    exact hrest rest

end Tree

end Avalanche
