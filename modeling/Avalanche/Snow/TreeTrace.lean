import Avalanche.Snow.TreeRefinement

/-!
# Runs of the snowball tree

The calls a caller may make on a tree, and the two traces they leave: the preference and the
finalized flag after every call on the tree, and on the reference trie. The relation `Tree.Refines`
between the two is kept by every allowed call, so the traces agree.

A caller only polls with choices it has added, at most `k` of them. Once every bit is decided the
reference trie has nothing left to poll while the tree keeps its last node around; `Node.Settled`
nodes no longer move.
-/

namespace Avalanche

open BitTrie

/-! ## Settled nodes -/

namespace Node

variable {F : LawfulFactory} {p : Parameters} {n : Node F}

theorem Settled.finalized (h : n.Settled p) : n.finalized = true := by
  cases n with
  | unary => exact h.2.1
  | binary => exact h.2.1
  | empty => exact h.elim

theorem Settled.add (h : n.Settled p) (id : Id) : n.add p id = n := by
  cases n with
  | unary => rw [Node.add, if_pos h.2.1]
  | binary preferences bit snow shouldReset children =>
    rw [Node.add]
    congr 1
    funext side
    rw [h.2.2 side]
    split_ifs <;> rfl
  | empty => rfl

/-- A poll no longer moves a settled node, however many votes it has. -/
theorem Settled.recordPoll (h : n.Settled p) (votes : Bag Id) (reset : Bool) :
    (n.recordPoll p votes reset).1.Settled p ∧
      (n.recordPoll p votes reset).1.preference = n.preference := by
  cases n with
  | unary preference decidedPrefix commonPrefix snow shouldReset child =>
    obtain ⟨hok, hf, rfl⟩ := h
    have hok' : F.UnaryOk p (resetUnaryIf reset snow) := by
      cases reset
      · exact hok
      · exact F.unary_reset_ok hok
    have hf' : F.unaryFinalized (resetUnaryIf reset snow) = true := by
      cases reset
      · exact hf
      · exact (F.unary_finalized_reset snow).trans hf
    rw [Node.recordPoll]
    by_cases hn : saturatingU32 votes.len < p.alphaPreference.toNat
    · rw [if_pos hn]
      exact ⟨⟨F.unary_reset_ok hok', (F.unary_finalized_reset _).trans hf', rfl⟩, rfl⟩
    · rw [if_neg hn]
      exact ⟨⟨F.unary_recordPoll_ok _ hok',
        (F.unary_finalized_recordPoll _ hok').mpr (Or.inl hf'), rfl⟩, rfl⟩
  | binary preferences bitIndex snow shouldReset children =>
    obtain ⟨hok, hf, hempty⟩ := h
    have hok' : F.BinaryOk p (resetBinaryIf reset snow) := by
      cases reset
      · exact hok
      · exact F.binary_reset_ok hok
    have hf' : F.binaryFinalized (resetBinaryIf reset snow) = true := by
      cases reset
      · exact hf
      · exact (F.binary_finalized_reset snow).trans hf
    have hpref : F.binaryPreference (resetBinaryIf reset snow) = F.binaryPreference snow := by
      cases reset
      · rfl
      · exact F.binary_preference_reset snow
    rw [Node.recordPoll]
    rw [← resetBinaryIf]
    set bit := decide (saturatingU32 (votes.filter fun id ↦ id.bit bitIndex).len
      ≥ p.alphaPreference.toNat)
    set numVotes := saturatingU32 (if bit then votes.filter fun id ↦ id.bit bitIndex
      else votes.filter fun id ↦ !id.bit bitIndex).len
    by_cases hn : numVotes < p.alphaPreference.toNat
    · rw [if_pos hn]
      refine ⟨⟨F.binary_reset_ok hok', (F.binary_finalized_reset _).trans hf', hempty⟩, ?_⟩
      rw [Node.preference, F.binary_preference_reset, hpref, Node.preference]
    · have hn' := Nat.not_lt.mp hn
      rw [if_neg hn, hempty bit]
      have hfin := (F.binary_finalized_recordPoll bit hok' hn').mpr (Or.inl hf')
      refine ⟨⟨F.binary_recordPoll_ok _ _ hok', hfin, hempty⟩, ?_⟩
      simp only [isSome, Bool.false_eq_true, if_false, Node.preference]
      rw [F.preference_of_finalized hfin, F.binary_slush_recordPoll bit hok' hn', hf', if_pos rfl,
        ← F.preference_of_finalized hf', hpref]
  | empty => exact h.elim

end Node

/-! ## The relation -/

/-- The tree and the reference trie are in the same state, after the choices `added`. -/
structure Tree.Live {F : LawfulFactory} (t : Tree F) (added : List Id)
    (r : Reference F) : Prop where
  valid : t.node.Valid r.decided
  isSome : t.node.isSome = true
  trie_eq : r.trie = t.node.expand t.shouldReset
  sound : r.trie.Sound t.params
  /-- Every added choice that has not been decided against has its instances. -/
  routes : ∀ id ∈ added, id.bitsFrom 0 r.decided.length = r.decided →
    r.trie.Routes id r.decided.length

/-- The tree stands for the reference trie: in the same state, or both decided on one choice. -/
def Tree.Refines {F : LawfulFactory} (t : Tree F) (added : List Id)
    (r : Reference F) : Prop :=
  r.params = t.params ∧
    (t.Live added r ∨
      (t.node.Settled t.params ∧ r.decided = t.preference.bitsFrom 0 numBits ∧ r.trie = .leaf))

namespace Tree

variable {F : LawfulFactory} {t : Tree F} {added : List Id} {r : Reference F}

theorem Live.equalSubset_iff (h : t.Live added r) (id : Id) :
    equalSubset 0 t.node.decidedPrefix t.preference id = Reference.agrees r.decided id := by
  have hle := h.valid.length_le
  have hpath := (Node.bits_of_append hle (h.valid.preference_bits h.isSome)).1
  rw [Bool.eq_iff_iff, ← h.valid.length, equalSubset_zero_iff hle, Reference.agrees, beq_iff_eq,
    Tree.preference, hpath]

theorem Refines.preference_eq (h : t.Refines added r) : t.preference = r.preference := by
  obtain ⟨-, hlive | ⟨-, hdecided, htrie⟩⟩ := h
  · rw [Reference.preference, hlive.trie_eq, Node.preferred_expand,
      ← hlive.valid.preference_bits hlive.isSome, Id.ofBits_bitsFrom]
    rfl
  · rw [Reference.preference, hdecided, htrie, preferred, List.append_nil, Id.ofBits_bitsFrom]

theorem Live.finalized (h : t.Live added r) : t.finalized = false := by
  rw [Tree.finalized, ← h.valid.rootFinalized_expand t.shouldReset, ← h.trie_eq,
    h.sound.rootFinalized]

theorem Refines.finalized_eq (h : t.Refines added r) : t.finalized = r.finalized := by
  obtain ⟨-, hlive | ⟨hsettled, hdecided, -⟩⟩ := h
  · have hne := (hlive.valid.isSome_iff.mp hlive.isSome).ne
    rw [hlive.finalized, Reference.finalized]
    exact (beq_eq_false_iff_ne.mpr hne).symm
  · rw [Tree.finalized, hsettled.finalized, Reference.finalized, hdecided, Id.length_bitsFrom,
      beq_self_eq_true]

theorem refines_new {p : Parameters} (hp : p.Verified) (choice : Id) :
    (Tree.new F p choice).Refines [choice] (Reference.new F p choice) := by
  have hvalid : (Tree.new F p choice).node.Valid [] :=
    ⟨⟨rfl, by decide, le_rfl⟩, rfl, by simp [preferred], by simp, by simp [Node.Valid]⟩
  refine ⟨rfl, Or.inl ⟨hvalid, rfl, rfl, (sound_chain_newUnary hp _).1, fun id hid _ ↦ ?_⟩⟩
  rw [List.mem_singleton.mp hid]
  exact routes_fresh _ _ _

theorem Refines.add (hp : t.params.Verified) (h : t.Refines added r) (choice : Id) :
    (t.add choice).Refines (choice :: added) (r.add choice) := by
  obtain ⟨hparams, hlive | ⟨hsettled, hdecided, htrie⟩⟩ := h
  · rw [Tree.add, Reference.add, ← hlive.equalSubset_iff]
    cases hagree : equalSubset 0 t.node.decidedPrefix t.node.preference choice with
    | true =>
      have hid : choice.bitsFrom 0 r.decided.length = r.decided := by
        have := (hlive.equalSubset_iff choice).symm.trans hagree
        exact beq_iff_eq.mp this
      have hsound := hlive.sound
      rw [hlive.trie_eq] at hsound
      obtain ⟨hvalid, hexp⟩ := hlive.valid.add hsound hid
      have hagree' : equalSubset 0 t.node.decidedPrefix t.preference choice = true := hagree
      rw [if_pos rfl, if_pos hagree', hparams]
      refine ⟨rfl, Or.inl ⟨hvalid, ?_, ?_, hlive.sound.add hp _ _, fun id hid' hag ↦ ?_⟩⟩
      · rw [hvalid.isSome_iff, ← hlive.valid.isSome_iff, hlive.isSome]
      · rw [hexp, hlive.trie_eq]
      · obtain rfl | hmem := List.mem_cons.mp hid'
        · exact routes_add_self _ _ _ _
        · exact (hlive.routes id hmem hag).add choice
    | false =>
      have hagree' : ¬ equalSubset 0 t.node.decidedPrefix t.preference choice = true := by
        rw [Tree.preference, hagree]
        exact Bool.false_ne_true
      rw [if_neg Bool.false_ne_true, if_neg hagree']
      refine ⟨hparams, Or.inl { hlive with routes := fun id hid' hag ↦ ?_ }⟩
      obtain rfl | hmem := List.mem_cons.mp hid'
      · exfalso
        rw [hlive.equalSubset_iff, Reference.agrees, beq_iff_eq] at hagree'
        exact hagree' hag
      · exact hlive.routes id hmem hag
  · have hr : r.add choice = r := by
      rw [Reference.add, htrie]
      split_ifs
      · rw [BitTrie.add, ← htrie]
      · rfl
    have ht : t.add choice = t := by
      rw [Tree.add, hsettled.add]
      exact ite_self _
    rw [hr, ht]
    exact ⟨hparams, Or.inr ⟨hsettled, hdecided, htrie⟩⟩

theorem Refines.recordUnsuccessfulPoll (h : t.Refines added r) :
    t.recordUnsuccessfulPoll.Refines added r.recordUnsuccessfulPoll := by
  obtain ⟨hparams, hlive | ⟨hsettled, hdecided, htrie⟩⟩ := h
  · refine ⟨hparams, Or.inl ⟨hlive.valid, hlive.isSome, ?_, hlive.sound.resetAll, fun id hid hag ↦
      routes_resetAll.mpr (hlive.routes id hid hag)⟩⟩
    rw [Reference.recordUnsuccessfulPoll, hlive.trie_eq, Node.resetAll_expand]
    rfl
  · refine ⟨hparams, Or.inr ⟨hsettled, hdecided, ?_⟩⟩
    rw [Reference.recordUnsuccessfulPoll, htrie]
    rfl

theorem Refines.recordPoll (h : t.Refines added r) {votes : Bag Id}
    (hk : votes.len ≤ t.params.k.toNat) (hvotes : ∀ id ∈ votes.items, id ∈ added) :
    (t.recordPoll votes).1.Refines added (r.recordPoll votes) := by
  have hmax := hk.trans (UInt32.toNat_le_u32Max t.params.k)
  obtain ⟨hparams, hlive | ⟨hsettled, hdecided, htrie⟩⟩ := h
  · set filtered := votes.filter (Reference.agrees r.decided) with hfiltered
    have hcode : (votes.filter fun id ↦ equalSubset 0 t.node.decidedPrefix t.preference id)
        = filtered := Bag.filter_congr fun id _ ↦ hlive.equalSubset_iff id
    have hroute : ∀ id ∈ filtered.items, (t.node.expand t.shouldReset).Routes id
        r.decided.length := by
      intro id hid
      obtain ⟨hmem, hag⟩ := List.mem_filter.mp hid
      rw [← hlive.trie_eq]
      exact hlive.routes id (hvotes id hmem) (beq_iff_eq.mp hag)
    have hsound := hlive.sound
    rw [hlive.trie_eq] at hsound
    have hrep := hlive.valid.recordPoll hlive.isSome hsound
      ((Bag.len_filter_le _ _).trans hmax) hroute
    have hpolled := hlive.sound.polled_poll r.decided.length filtered
    rw [← hlive.trie_eq] at hrep
    rw [Tree.recordPoll, hcode, Reference.recordPoll, ← hfiltered, hparams]
    set t' := r.trie.poll t.params r.decided.length filtered with ht'
    have hroutes : ∀ id ∈ added,
        id.bitsFrom 0 (t'.dropDecided r.decided).1.length = (t'.dropDecided r.decided).1 →
          (t'.dropDecided r.decided).2.Routes id (t'.dropDecided r.decided).1.length :=
      fun id hid hag ↦ (routes_poll.mpr (hlive.routes id hid
        (agrees_of_isPrefix (dropDecided_isPrefix _ _) hag))).dropDecided hag
    have hdrop := hpolled.sound_dropDecided r.decided
    obtain ⟨path', hvalid, hsome, heq⟩ | ⟨hsettled, heq⟩ := hrep
    · rw [heq] at hroutes hdrop ⊢
      exact ⟨rfl, Or.inl ⟨hvalid, hsome, rfl, hdrop, hroutes⟩⟩
    · rw [heq]
      exact ⟨rfl, Or.inr ⟨hsettled, rfl, rfl⟩⟩
  · obtain ⟨hsettled', hpref⟩ := hsettled.recordPoll
      (votes.filter fun id ↦ equalSubset 0 t.node.decidedPrefix t.preference id) t.shouldReset
    refine ⟨?_, Or.inr ⟨hsettled', ?_, ?_⟩⟩
    · exact hparams
    · rw [Reference.recordPoll, htrie, Tree.preference, Tree.recordPoll]
      rw [hpref]
      exact hdecided
    · rw [Reference.recordPoll, htrie]
      rfl

end Tree

/-! ## Traces -/

/-- A call on a tree. -/
inductive TreeOp where
  | add (choice : Id)
  | recordPoll (votes : Bag Id)
  | recordUnsuccessfulPoll
deriving DecidableEq, Repr

/-- After the choices `added`, every poll of the calls has at most `k` votes, all of them for
choices added before it. -/
def TreeOp.Allowed (p : Parameters) : List Id → List TreeOp → Prop
  | _, [] => True
  | added, add choice :: ops => TreeOp.Allowed p (choice :: added) ops
  | added, recordPoll votes :: ops =>
    (votes.len ≤ p.k.toNat ∧ ∀ id ∈ votes.items, id ∈ added) ∧ TreeOp.Allowed p added ops
  | added, recordUnsuccessfulPoll :: ops => TreeOp.Allowed p added ops

/-- What `observe` shows of a state before the first call and after every call. -/
def traceOf {σ α : Type} (step : σ → TreeOp → σ) (observe : σ → α) : σ → List TreeOp → List α
  | s, [] => [observe s]
  | s, op :: ops => observe s :: traceOf step observe (step s op) ops

namespace Tree

variable {F : Factory}

def apply (t : Tree F) : TreeOp → Tree F
  | .add choice => t.add choice
  | .recordPoll votes => (t.recordPoll votes).1
  | .recordUnsuccessfulPoll => t.recordUnsuccessfulPoll

/-- The preference and the finalized flag, along the calls. -/
def trace (t : Tree F) : List TreeOp → List (Id × Bool) :=
  traceOf Tree.apply (fun t ↦ (t.preference, t.finalized)) t

@[simp] theorem params_apply (t : Tree F) (op : TreeOp) : (t.apply op).params = t.params := by
  cases op with
  | add choice =>
    rw [apply, add]
    split_ifs <;> rfl
  | recordPoll votes => rfl
  | recordUnsuccessfulPoll => rfl

end Tree

namespace Reference

variable {F : Factory}

def apply (r : Reference F) : TreeOp → Reference F
  | .add choice => r.add choice
  | .recordPoll votes => r.recordPoll votes
  | .recordUnsuccessfulPoll => r.recordUnsuccessfulPoll

/-- The preference and the finalized flag, along the calls. -/
def trace (r : Reference F) : List TreeOp → List (Id × Bool) :=
  traceOf Reference.apply (fun r ↦ (r.preference, r.finalized)) r

end Reference

theorem Tree.Refines.trace_eq {F : LawfulFactory} {t : Tree F} {added : List Id}
    {r : Reference F} (hp : t.params.Verified) (h : t.Refines added r)
    {ops : List TreeOp} (hops : TreeOp.Allowed t.params added ops) : t.trace ops = r.trace ops := by
  induction ops generalizing t r added with
  | nil => rw [Tree.trace, traceOf, h.preference_eq, h.finalized_eq]; rfl
  | cons op ops ih =>
    have hstep : ∃ added', (t.apply op).Refines added' (r.apply op) ∧
        TreeOp.Allowed t.params added' ops := by
      cases op with
      | add choice => exact ⟨_, h.add hp choice, hops⟩
      | recordPoll votes => exact ⟨_, h.recordPoll hops.1.1 hops.1.2, hops.2⟩
      | recordUnsuccessfulPoll => exact ⟨_, h.recordUnsuccessfulPoll, hops⟩
    obtain ⟨added', href, hallowed⟩ := hstep
    have hrest := ih (t := t.apply op) (by rwa [Tree.params_apply]) href
      (by rwa [Tree.params_apply])
    rw [Tree.trace, Reference.trace, traceOf, traceOf, h.preference_eq, h.finalized_eq]
    exact congrArg _ hrest

/-- **The compressed, lazily reset tree behaves like the plain bit trie**: along every sequence of
allowed calls, both show the same preference and the same finalized flag after every call. -/
theorem tree_trace_eq_reference_trace (F : LawfulFactory) {params : Parameters}
    (hp : params.Verified) (choice : Id) {ops : List TreeOp}
    (hops : TreeOp.Allowed params [choice] ops) :
    (Tree.new F params choice).trace ops
      = (Reference.new F params choice).trace ops :=
  (Tree.refines_new hp choice).trace_eq hp hops

/-- A run that splits the first choice, flips to the new one and decides it. -/
def exampleOps : List TreeOp :=
  [.add 1#256, .recordPoll ⟨[1#256]⟩, .recordUnsuccessfulPoll, .recordPoll ⟨[1#256]⟩,
    .recordPoll ⟨[1#256]⟩]

theorem tree_trace_eq_reference_trace_example :
    exampleParams.Verified ∧ TreeOp.Allowed exampleParams [0#256] exampleOps ∧
      (Tree.new snowballFactory exampleParams 0#256).trace exampleOps
        = (Reference.new snowballFactory exampleParams 0#256).trace exampleOps := by
  have hp : exampleParams.Verified := by decide
  have hops : TreeOp.Allowed exampleParams [0#256] exampleOps := by
    simp [TreeOp.Allowed, exampleOps, Bag.len, exampleParams]
  exact ⟨hp, hops, tree_trace_eq_reference_trace snowballFactory hp 0#256 hops⟩

end Avalanche
