import Avalanche.Snowman.Preference
import Avalanche.Snowman.VotePush

/-!
# Runs of the consensus

A run starts at a new instance and makes calls of `add` and `recordPoll`. An `add` that fails leaves
the instance as it is; a failing `recordPoll` halts the chain, so a run goes on only after calls
that returned. What callers promise is a condition on each call, given what happened before.

The tree of blocks stays well formed along every run in which children are one height above their
parent, and no call ever fails if no callback does.
-/

namespace Avalanche

open Std Ancestry

namespace SnowmanBlock

variable {F : Factory} {n : SnowmanBlock F} {params : Parameters}

@[simp] theorem children_addChild (n : SnowmanBlock F) (b : Block) :
    (n.addChild params b).children = n.children.insert b.id b := rfl

theorem TreeOk.addChild (h : n.TreeOk params) (b : Block) :
    (n.addChild params b).TreeOk params := by
  have hself : ∃ a, (n.children.insert b.id b)[b.id]? = some a := ⟨b, by simp⟩
  have hold : ∀ c : Id, (∃ a, n.children[c]? = some a) →
      ∃ a, (n.children.insert b.id b)[c]? = some a := by
    rintro c ⟨a, ha⟩
    by_cases hc : b.id = c
    · exact hc ▸ hself
    · exact ⟨a, by simp [ExtTreeMap.getElem?_insert, hc, ha]⟩
  unfold TreeOk at h ⊢
  cases hsb : n.sb with
  | none =>
    simp only [SnowmanBlock.addChild, hsb]
    exact ⟨rfl, Tree.prefersOnly_new hself⟩
  | some sb =>
    rw [hsb] at h
    simp only [SnowmanBlock.addChild, hsb]
    exact ⟨by simpa using h.1, (h.2.mono hold).add hself⟩

end SnowmanBlock

namespace Topological

variable {F : Factory} {t t' : Topological F} {b : Block} {pn : SnowmanBlock F} {votes : Bag Id}
variable {I : Topological F → Prop}

/-! ## Adding a block -/

/-- The tree of blocks with `b` below its parent `pn`. -/
def grown (t : Topological F) (pn : SnowmanBlock F) (b : Block) : Topological F :=
  { t with
    blocks := (t.blocks.insert b.parent (pn.addChild t.params b)).insert b.id
      (SnowmanBlock.processing b) }

/-- What a successful `add` does. -/
theorem add_cases (h : t.add b = .ok t') :
    t.processing b.id = false ∧ ∃ pn, t.blocks[b.parent]? = some pn ∧
      t' = if t.preference = b.parent then
          (t.grown pn b).withPreferred (t.preferredIds.insert b.id)
            (t.preferredHeights.insert b.height b.id) b.id
        else t.grown pn b := by
  unfold add at h
  split at h
  case isTrue => cases h
  case isFalse hproc =>
    refine ⟨Bool.eq_false_of_not_eq_true hproc, ?_⟩
    split at h
    case h_1 => cases h
    case h_2 pn hpn =>
      refine ⟨pn, hpn, ?_⟩
      dsimp only at h
      split at h
      case isTrue hpref =>
        cases h
        rw [if_pos hpref]
        rfl
      case isFalse hpref =>
        cases h
        rw [if_neg hpref]
        rfl

theorem blocks_eq_none_of_processing {id : Id} (h : t.processing id = false)
    (hid : id ≠ t.lastAcceptedId) : t.blocks[id]? = none := by
  rw [processing, if_neg hid] at h
  cases hn : t.blocks[id]? with
  | none => rfl
  | some n =>
    have hmem : id ∈ t.blocks := ExtTreeMap.mem_iff_isSome_getElem?.mpr (by rw [hn]; rfl)
    rw [ExtTreeMap.contains_iff_mem.mpr hmem] at h
    cases h

theorem blocks_grown (t : Topological F) (pn : SnowmanBlock F) (b : Block) (x : Id) :
    (t.grown pn b).blocks[x]? = if b.id = x then some (SnowmanBlock.processing b)
      else if b.parent = x then some (pn.addChild t.params b) else t.blocks[x]? := by
  simp [grown, ExtTreeMap.getElem?_insert]

/-- A node of the new tree is the new block, its parent or an old node. -/
theorem grown_cases {x : Id} {n' : SnowmanBlock F} (hn' : (t.grown pn b).blocks[x]? = some n') :
    (x = b.id ∧ n' = SnowmanBlock.processing b) ∨
      (x = b.parent ∧ x ≠ b.id ∧ n' = pn.addChild t.params b) ∨
      (x ≠ b.id ∧ x ≠ b.parent ∧ t.blocks[x]? = some n') := by
  rw [blocks_grown] at hn'
  by_cases hx : b.id = x
  · rw [if_pos hx] at hn'
    exact Or.inl ⟨hx.symm, (Option.some.inj hn').symm⟩
  rw [if_neg hx] at hn'
  by_cases hp : b.parent = x
  · rw [if_pos hp] at hn'
    exact Or.inr (Or.inl ⟨hp.symm, Ne.symm hx, (Option.some.inj hn').symm⟩)
  · rw [if_neg hp] at hn'
    exact Or.inr (Or.inr ⟨Ne.symm hx, Ne.symm hp, hn'⟩)

section Grown

variable (hpn : t.blocks[b.parent]? = some pn) (hnew : t.blocks[b.id]? = none)

include hpn hnew

theorem parent_ne_id : b.parent ≠ b.id := fun heq ↦ by
  rw [heq, hnew] at hpn
  cases hpn

/-- Old nodes stay, with at most one child more. -/
theorem grown_of_some {x : Id} {n : SnowmanBlock F} (hn : t.blocks[x]? = some n) :
    ∃ n', (t.grown pn b).blocks[x]? = some n' ∧ n'.blk = n.blk ∧
      ∀ c : Id, b.id ≠ c → n'.children[c]? = n.children[c]? := by
  have hx : b.id ≠ x := fun heq ↦ by
    rw [← heq, hnew] at hn
    cases hn
  rw [blocks_grown, if_neg hx]
  by_cases hp : b.parent = x
  · rw [if_pos hp]
    rw [← hp, hpn] at hn
    obtain rfl := Option.some.inj hn
    refine ⟨_, rfl, rfl, fun c hc ↦ ?_⟩
    simp [ExtTreeMap.getElem?_insert, hc]
  · rw [if_neg hp]
    exact ⟨n, hn, rfl, fun _ _ ↦ rfl⟩

omit hnew in
theorem heightOf_grown {x : Id} (hx : x ≠ b.id) : (t.grown pn b).heightOf x = t.heightOf x := by
  change (if x = t.lastAcceptedId then t.lastAcceptedHeight else _) = _
  congr 3
  rw [blocks_grown, if_neg (Ne.symm hx)]
  by_cases hp : b.parent = x
  · rw [if_pos hp, ← hp, hpn]
    rfl
  · rw [if_neg hp]

theorem WellFormed.grown (hw : t.WellFormed) (hheight : b.height = t.heightOf b.parent + 1) :
    (t.grown pn b).WellFormed := by
  have hroot : b.id ≠ t.lastAcceptedId := fun heq ↦ by
    obtain ⟨n, hn, -⟩ := hw.root
    rw [heq, hn] at hnew
    cases hnew
  have hlow : t.lastAcceptedHeight < b.height := by
    by_cases hp : b.parent = t.lastAcceptedId
    · rw [hheight, hp, heightOf, if_pos rfl]
      omega
    · obtain ⟨a, ha, hlt, -⟩ := hw.pending hpn hp
      rw [hheight, heightOf_of_ne hpn ha hp]
      omega
  have hparent : (t.grown pn b).blocks[b.parent]? = some (pn.addChild t.params b) := by
    rw [blocks_grown, if_neg (parent_ne_id hpn hnew).symm, if_pos rfl]
  -- old edges stay
  have hchild : ∀ {x c : Id} {n : SnowmanBlock F} {a : Block}, t.blocks[x]? = some n →
      n.children[c]? = some a → a.id = c ∧ a.parent = x ∧
        a.height = (t.grown pn b).heightOf x + 1 ∧ c ≠ t.lastAcceptedId ∧
        ∃ m, (t.grown pn b).blocks[c]? = some m ∧ m.blk = some a := by
    intro x c n a hn hc
    obtain ⟨h1, h2, h3, h4, m, hm, hma⟩ := hw.child hn hc
    have hx : x ≠ b.id := fun heq ↦ by
      rw [heq, hnew] at hn
      cases hn
    obtain ⟨m', hm', hblk, -⟩ := grown_of_some hpn hnew hm
    exact ⟨h1, h2, by rw [heightOf_grown hpn hx, h3], h4, m', hm', hblk.trans hma⟩
  constructor
  case root =>
    obtain ⟨n, hn, hd⟩ := hw.root
    obtain ⟨n', hn', hblk, -⟩ := grown_of_some hpn hnew hn
    exact ⟨n', hn', by rwa [SnowmanBlock.decided, hblk]⟩
  case pending =>
    have hold : ∀ {x : Id} {n' : SnowmanBlock F}, t.blocks[x]? = some n' →
        x ≠ t.lastAcceptedId → ∃ a, n'.blk = some a ∧ t.lastAcceptedHeight < a.height ∧
          ∃ qn, (t.grown pn b).blocks[a.parent]? = some qn ∧ qn.children[x]? = some a := by
      intro x n' hn' hx
      obtain ⟨a, ha, hlt, qn, hqn, hc⟩ := hw.pending hn' hx
      obtain ⟨qn', hqn', -, hch⟩ := grown_of_some hpn hnew hqn
      refine ⟨a, ha, hlt, qn', hqn', ?_⟩
      rw [hch x, hc]
      rintro rfl
      cases hnew.symm.trans hn'
    intro x n' hn' hx
    obtain ⟨rfl, rfl⟩ | ⟨rfl, -, rfl⟩ | ⟨-, -, hn'⟩ := grown_cases hn'
    · exact ⟨b, rfl, hlow, _, hparent, by simp⟩
    · obtain ⟨a, ha, hrest⟩ := hold hpn hx
      exact ⟨a, ha, hrest⟩
    · exact hold hn' hx
  case child =>
    intro x n' c a hn' hc
    obtain ⟨rfl, rfl⟩ | ⟨rfl, hne, rfl⟩ | ⟨-, -, hn'⟩ := grown_cases hn'
    · simp [SnowmanBlock.processing] at hc
    · rw [SnowmanBlock.children_addChild, ExtTreeMap.getElem?_insert] at hc
      simp only [LawfulEqCmp.compare_eq_iff_eq] at hc
      by_cases hbc : b.id = c
      · rw [if_pos hbc] at hc
        obtain rfl := Option.some.inj hc
        refine ⟨hbc, rfl, ?_, hbc ▸ hroot, SnowmanBlock.processing b, ?_, rfl⟩
        · rw [heightOf_grown hpn hne, hheight]
        · rw [blocks_grown, if_pos hbc]
      · rw [if_neg hbc] at hc
        exact hchild hpn hc
    · exact hchild hn' hc
  case tree =>
    intro x n' hn'
    obtain ⟨-, rfl⟩ | ⟨-, -, rfl⟩ | ⟨-, -, hn'⟩ := grown_cases hn'
    · exact fun c ↦ by simp [SnowmanBlock.processing]
    · exact (hw.tree hpn).addChild b
    · exact hw.tree hn'

end Grown

/-! ## What a poll does to the tree -/

/-- The instance with the poll counted. -/
def counted (t : Topological F) : Topological F :=
  { t with pollNumber := saturatingSucc64 t.pollNumber }

/-- A poll finds its stack, applies it and rebuilds the preferred branch if it moved. -/
theorem recordPoll_eq (t : Topological F) (votes : Bag Id) :
    t.recordPoll votes = (do
      let stack ← t.counted.voteStack votes
      let r ← t.counted.vote stack
      if r.1.preferredIds.contains r.2 then return r.1 else r.1.rebuild r.2) := by
  unfold recordPoll voteStack
  by_cases hlen : votes.len ≥ t.params.alphaPreference.toNat
  · simp only [counted, ge_iff_le, hlen, if_true, bind_assoc]
    rfl
  · simp only [counted, ge_iff_le, hlen, if_false, pure_bind]
    rfl

/-- What the entries keep, the loop keeps. -/
theorem voteLoop_inv (hstep : ∀ t vote n nextId t', I t → t.blocks[vote.parentId]? = some n →
      t.voteStep vote n nextId = .ok t' → I t')
    {stack : List Votes} {newPreferred : Id} {onPreferredBranch : Bool}
    {r : Topological F × Id} (ht : I t)
    (h : voteLoop stack t newPreferred onPreferredBranch = .ok r) : I r.1 := by
  induction stack generalizing t newPreferred onPreferredBranch with
  | nil =>
    cases h
    exact ht
  | cons vote stack ih =>
    cases hn : t.blocks[vote.parentId]? with
    | none =>
      rw [voteLoop_cons_of_none _ _ _ _ _ hn] at h
      cases h
      exact ht
    | some n =>
      rw [voteLoop_cons _ _ _ _ _ hn] at h
      obtain ⟨t₁, ht₁, h⟩ := Except.bind_eq_ok_iff.mp h
      exact ih (hstep t vote n _ t₁ ht hn ht₁) h

/-- The loop returns if every entry is processed, and keeps what the entries keep. -/
theorem exists_voteLoop (hstep : ∀ t vote n nextId, I t → t.blocks[vote.parentId]? = some n →
      ∃ t', t.voteStep vote n nextId = .ok t' ∧ I t')
    (stack : List Votes) (newPreferred : Id) (onPreferredBranch : Bool) (ht : I t) :
    ∃ r, voteLoop stack t newPreferred onPreferredBranch = .ok r ∧ I r.1 := by
  induction stack generalizing t newPreferred onPreferredBranch with
  | nil => exact ⟨_, rfl, ht⟩
  | cons vote stack ih =>
    cases hn : t.blocks[vote.parentId]? with
    | none => exact ⟨_, voteLoop_cons_of_none _ _ _ _ _ hn, ht⟩
    | some n =>
      obtain ⟨t₁, ht₁, hinv⟩ := hstep t vote n (nextId stack) ht hn
      rw [voteLoop_cons _ _ _ _ _ hn, ht₁]
      exact ih _ _ hinv

/-- The last accepted block marked to falter, which is what an empty stack does. -/
def faltered (t : Topological F) : Topological F :=
  { t with blocks := t.blocks.modify t.lastAcceptedId SnowmanBlock.falter }

theorem blocks_faltered (t : Topological F) (x : Id) :
    t.faltered.blocks[x]?
      = if t.lastAcceptedId = x then t.blocks[x]?.map SnowmanBlock.falter else t.blocks[x]? := by
  simp only [faltered, ExtTreeMap.getElem?_modify, LawfulEqCmp.compare_eq_iff_eq]
  by_cases hx : t.lastAcceptedId = x
  · rw [if_pos hx, if_pos hx, hx]
  · rw [if_neg hx, if_neg hx]

theorem sameShape_faltered (t : Topological F) : SameShape t t.faltered where
  params := rfl
  lastAcceptedId := rfl
  lastAcceptedHeight := rfl
  blocks x := by
    rw [blocks_faltered]
    split
    · rw [Option.map_map]
      rfl
    · rfl

theorem WellFormed.faltered (hw : t.WellFormed) : t.faltered.WellFormed := by
  refine (sameShape_faltered t).wellFormed hw fun {x m} hm ↦ ?_
  rw [blocks_faltered] at hm
  split at hm
  · obtain ⟨n, hn, rfl⟩ := Option.map_eq_some_iff.mp hm
    exact (hw.tree hn).congr rfl rfl
  · exact hw.tree hm

theorem vote_eq (t : Topological F) (stack : List Votes) :
    t.vote stack = if stack = [] then .ok (t.faltered, t.preference)
      else voteLoop stack t t.lastAcceptedId true := by
  cases stack <;> rfl

/-- The rebuilding of the preferred branch only chooses preferred blocks. -/
theorem WellFormed.exists_rebuild_eq (hw : t.WellFormed) (p : Id) :
    ∃ ids heights preference, t.rebuild p = .ok (t.withPreferred ids heights preference) := by
  cases hp : t.blocks[p]? with
  | none => exact exists_rebuild_of_none hp
  | some n =>
    obtain ⟨v, hv, hrebuilt⟩ := exists_rebuild hw hp
    exact ⟨_, _, _, hrebuilt.rest ▸ hv⟩

/-- What a poll does after the entries of its stack. -/
theorem recordPoll_returns (h : t.recordPoll votes = .ok t') :
    ∃ stack u p, t.counted.voteStack votes = .ok stack ∧
      ((stack = [] ∧ u = t.counted.faltered ∧ p = t.preference) ∨
        (stack ≠ [] ∧ voteLoop stack t.counted t.lastAcceptedId true = .ok (u, p))) ∧
      (p ∈ u.preferredIds ∧ t' = u ∨ u.rebuild p = .ok t') := by
  rw [recordPoll_eq] at h
  obtain ⟨stack, hstack, h⟩ := Except.bind_eq_ok_iff.mp h
  obtain ⟨⟨u, p⟩, hvote, h⟩ := Except.bind_eq_ok_iff.mp h
  refine ⟨stack, u, p, hstack, ?_, ?_⟩
  · rw [vote_eq] at hvote
    split at hvote
    case isTrue hnil =>
      cases hvote
      exact Or.inl ⟨hnil, rfl, rfl⟩
    case isFalse hne => exact Or.inr ⟨hne, hvote⟩
  · split at h
    next hmem =>
      cases h
      exact Or.inl ⟨hmem, rfl⟩
    · exact Or.inr h

/-- What a poll keeps: a property that counting, single entries, faltering and the choice of the
preferred blocks keep. -/
theorem recordPoll_inv (hcount : ∀ t, I t → I t.counted)
    (hstep : ∀ t vote n nextId t', I t → t.blocks[vote.parentId]? = some n →
      t.voteStep vote n nextId = .ok t' → I t')
    (hfalter : ∀ t, I t → I t.faltered)
    (hpref : ∀ t ids heights preference, I t → I (t.withPreferred ids heights preference))
    (hw : ∀ t, I t → t.WellFormed)
    (ht : I t) (h : t.recordPoll votes = .ok t') : I t' := by
  obtain ⟨stack, u, p, -, hvote, h⟩ := recordPoll_returns h
  have hu : I u := by
    obtain ⟨-, rfl, -⟩ | ⟨-, hloop⟩ := hvote
    · exact hfalter _ (hcount t ht)
    · exact voteLoop_inv hstep (hcount t ht) hloop
  obtain ⟨-, rfl⟩ | h := h
  · exact hu
  · obtain ⟨ids, heights, preference, heq⟩ := (hw u hu).exists_rebuild_eq p
    cases heq.symm.trans h
    exact hpref u _ _ _ hu

/-- A poll returns if every entry is processed. -/
theorem exists_recordPoll (hcount : ∀ t, I t → I t.counted)
    (hstep : ∀ t vote n nextId, I t → t.blocks[vote.parentId]? = some n →
      ∃ t', t.voteStep vote n nextId = .ok t' ∧ I t')
    (hfalter : ∀ t, I t → I t.faltered) (hw : ∀ t, I t → t.WellFormed)
    (halpha : 0 < t.params.alphaPreference.toNat) (ht : I t) (votes : Bag Id) :
    ∃ t', t.recordPoll votes = .ok t' := by
  have hc := hcount t ht
  obtain ⟨stack, hstack, -⟩ := exists_voteStack (t := t.counted) (hw _ hc).ranked halpha votes
  obtain ⟨⟨u, p⟩, hvote, hu⟩ : ∃ r, t.counted.vote stack = .ok r ∧ I r.1 := by
    rw [vote_eq]
    split
    · exact ⟨_, rfl, hfalter _ hc⟩
    · exact exists_voteLoop hstep stack _ _ hc
  rw [recordPoll_eq, hstack]
  change ∃ t', (t.counted.vote stack >>= _) = Except.ok t'
  rw [hvote]
  change ∃ t', (if u.preferredIds.contains p = true then Except.ok u else u.rebuild p)
    = Except.ok t'
  split
  · exact ⟨u, rfl⟩
  · obtain ⟨ids, heights, preference, heq⟩ := (hw u hu).exists_rebuild_eq p
    exact ⟨_, heq⟩

/-! ## Runs -/

end Topological

/-- A call of the consensus interface that changes the instance. -/
inductive Call where
  | add (block : Block)
  | recordPoll (votes : Bag Id)

/-- A call and the instance it was made on. -/
structure Event (F : Factory) where
  state : Topological F
  call : Call

namespace Topological

variable {F : Factory} {t t' : Topological F} {b : Block}

/-- The instance after a call. An `add` that fails changes nothing. -/
def step (t : Topological F) : Call → Except Fault (Topological F)
  | .add block =>
    match t.add block with
    | .ok t' => .ok t'
    | .error _ => .ok t
  | .recordPoll votes => t.recordPoll votes

/-- The history of a run, latest call first, and the instance it led to. What callers promise about
a call is `admissible`, given the history and the instance. -/
inductive Run (admissible : List (Event F) → Topological F → Call → Prop) (t₀ : Topological F) :
    List (Event F) → Topological F → Prop
  | start : Run admissible t₀ [] t₀
  | next {history : List (Event F)} {t t' : Topological F} (call : Call)
      (run : Run admissible t₀ history t) (promised : admissible history t call)
      (returned : t.step call = .ok t') : Run admissible t₀ (⟨t, call⟩ :: history) t'

end Topological

/-- The block that a call added, if it did. -/
def Event.added {F : Factory} (e : Event F) : Option Block :=
  match e.call with
  | .add block =>
    match e.state.add block with
    | .ok _ => some block
    | .error _ => none
  | .recordPoll _ => none

/-- The blocks added in the course of a run, latest first. -/
def added {F : Factory} (history : List (Event F)) : List Block := history.filterMap Event.added

namespace Topological

variable {F : Factory} {t t' : Topological F} {b : Block}
variable {blockAcceptor : Id → List UInt8 → Except SnowError Unit} {params : Parameters}
    {lastAcceptedId : Id} {lastAcceptedHeight : ℕ} {votes : Bag Id}

/-- A block is one height above its parent. -/
def HeightOk (t : Topological F) (b : Block) : Prop :=
  (∃ n, t.blocks[b.parent]? = some n) → b.height = t.heightOf b.parent + 1

/-- An `add` call either succeeds or changes nothing. -/
theorem step_add_cases (h : t.step (.add b) = .ok t') (history : List (Event F)) :
    (t.add b = .ok t' ∧ added (⟨t, .add b⟩ :: history) = b :: added history) ∨
      (t' = t ∧ added (⟨t, .add b⟩ :: history) = added history) := by
  unfold step at h
  cases hadd : t.add b with
  | ok t₁ =>
    simp only [hadd] at h
    cases h
    exact Or.inl ⟨rfl, by simp [added, Event.added, hadd]⟩
  | error e =>
    simp only [hadd] at h
    cases h
    exact Or.inr ⟨rfl, by simp [added, Event.added, hadd]⟩

section New

variable (h : new F blockAcceptor params lastAcceptedId lastAcceptedHeight = .ok t)

include h

/-- A new instance. -/
theorem new_cases : params.Verified ∧ t = {
    pollNumber := 0
    blockAcceptor := blockAcceptor
    params := params
    lastAcceptedId := lastAcceptedId
    lastAcceptedHeight := lastAcceptedHeight
    blocks := (∅ : ExtTreeMap Id (SnowmanBlock F)).insert lastAcceptedId SnowmanBlock.genesis
    preferredIds := ∅
    preferredHeights := ∅
    preference := lastAcceptedId
    log := [] } := by
  obtain ⟨⟨⟩, hverify, h⟩ := Except.bind_eq_ok_iff.mp h
  cases h
  exact ⟨hverify, rfl⟩

theorem blocks_new (x : Id) :
    t.blocks[x]? = if lastAcceptedId = x then some SnowmanBlock.genesis else none := by
  obtain ⟨-, rfl⟩ := new_cases h
  simp [ExtTreeMap.getElem?_insert]

theorem wellFormed_new : t.WellFormed := by
  have hblocks := blocks_new h
  have hgenesis : ∀ {x : Id} {n : SnowmanBlock F}, t.blocks[x]? = some n →
      x = t.lastAcceptedId ∧ n = SnowmanBlock.genesis := by
    intro x n hn
    rw [hblocks] at hn
    split at hn
    case isTrue hx =>
      obtain ⟨-, rfl⟩ := new_cases h
      exact ⟨hx.symm, (Option.some.inj hn).symm⟩
    case isFalse => cases hn
  constructor
  case root =>
    refine ⟨SnowmanBlock.genesis, ?_, rfl⟩
    obtain ⟨-, rfl⟩ := new_cases h
    rw [hblocks, if_pos rfl]
  case pending => exact fun hn hx ↦ absurd (hgenesis hn).1 hx
  case child =>
    intro x n c b hn hc
    rw [(hgenesis hn).2] at hc
    simp [SnowmanBlock.genesis] at hc
  case tree =>
    intro x n hn
    rw [(hgenesis hn).2]
    exact fun c ↦ by simp [SnowmanBlock.genesis]

end New

theorem sameShape_withPreferred (t : Topological F) (ids : ExtTreeSet Id)
    (heights : ExtTreeMap ℕ Id) (preference : Id) :
    SameShape t (t.withPreferred ids heights preference) := ⟨rfl, rfl, rfl, fun _ ↦ rfl⟩

theorem sameShape_counted (t : Topological F) : SameShape t t.counted :=
  ⟨rfl, rfl, rfl, fun _ ↦ rfl⟩

theorem WellFormed.withPreferred (hw : t.WellFormed) (ids : ExtTreeSet Id)
    (heights : ExtTreeMap ℕ Id) (preference : Id) :
    (t.withPreferred ids heights preference).WellFormed :=
  (sameShape_withPreferred t ids heights preference).wellFormed hw fun hn ↦ hw.tree hn

theorem WellFormed.counted (hw : t.WellFormed) : t.counted.WellFormed :=
  (sameShape_counted t).wellFormed hw fun hn ↦ hw.tree hn

theorem WellFormed.add (hw : t.WellFormed) (hid : b.id ≠ t.lastAcceptedId) (hheight : t.HeightOk b)
    (h : t.add b = .ok t') : t'.WellFormed := by
  obtain ⟨hproc, pn, hpn, rfl⟩ := add_cases h
  have hnew := blocks_eq_none_of_processing hproc hid
  have hgrown := hw.grown hpn hnew (hheight ⟨pn, hpn⟩)
  split
  · exact hgrown.withPreferred _ _ _
  · exact hgrown

/-- A poll keeps the tree well formed, whatever was voted. -/
theorem WellFormed.recordPoll (hw : t.WellFormed)
    (h : t.recordPoll votes = .ok t') : t'.WellFormed :=
  recordPoll_inv (fun _ hw ↦ hw.counted) (fun _ _ _ _ _ hw hn h ↦ wellFormed_voteStep hw hn h)
    (fun _ hw ↦ hw.faltered) (fun _ _ _ _ hw ↦ hw.withPreferred _ _ _) (fun _ hw ↦ hw) hw h

/-- The blocks on the stack have children. -/
theorem Stacked.exists_child {stack : List Votes} (h : Stacked t votes stack)
    (halpha : 0 < t.params.alphaPreference.toNat) {e : Votes} (he : e ∈ stack) :
    ∃ c, t.pendingParent c = some e.parentId := by
  obtain ⟨v, -, hv⟩ := countWhere_pos.mp (halpha.trans_le (h.entry e he).heavy)
  obtain ⟨c, -, hc⟩ := below_iff_child.mp hv
  exact ⟨c, hc⟩

/-- The stack starts at the last accepted block. -/
theorem Stacked.head_eq (hw : t.WellFormed) {e : Votes} {rest : List Votes}
    (h : Stacked t votes (e :: rest)) (halpha : 0 < t.params.alphaPreference.toNat)
    (hlen : votes.len < 2 * t.params.alphaPreference.toNat) : e.parentId = t.lastAcceptedId := by
  obtain ⟨-, hroot⟩ := h.isChain hw.ranked hlen
  obtain ⟨c, hc⟩ := h.exists_child halpha (List.mem_cons_self ..)
  obtain ⟨-, m, hm⟩ := hw.exists_of_pendingParent hc
  by_contra hne
  obtain ⟨p, -, hp, -⟩ := hw.pendingParent_isSome hm hne
  cases (hroot _ rfl).symm.trans hp

/-- A poll keeps the parameters. -/
theorem params_recordPoll (hw : t.WellFormed) (h : t.recordPoll votes = .ok t') :
    t'.params = t.params := by
  refine (recordPoll_inv (I := fun u ↦ u.WellFormed ∧ u.params = t.params)
    (fun _ h ↦ ⟨h.1.counted, h.2⟩) ?_ (fun _ h ↦ ⟨h.1.faltered, h.2⟩)
    (fun _ _ _ _ h ↦ ⟨h.1.withPreferred _ _ _, h.2⟩) (fun _ h ↦ h.1) ⟨hw, rfl⟩ h).2
  rintro u vote n nextId u' ⟨hwu, hparams⟩ hn hstep
  exact ⟨wellFormed_voteStep hwu hn hstep,
    ((Within.refl hwu).voteStep hwu hn hstep).params.trans hparams⟩

/-! ## A small instance -/

/-- A block without content whose callbacks do not fail. -/
def exampleBlock (id parent : Id) (height : ℕ) : Block := ⟨id, parent, height, [], .ok (), .ok ()⟩

/-- An instance started on block 1 at height 0. -/
def exampleInstance : Topological snowballFactory where
  pollNumber := 0
  blockAcceptor := fun _ _ ↦ .ok ()
  params := exampleParams
  lastAcceptedId := 1#256
  lastAcceptedHeight := 0
  blocks := (∅ : ExtTreeMap Id (SnowmanBlock snowballFactory)).insert 1#256
    SnowmanBlock.genesis
  preferredIds := ∅
  preferredHeights := ∅
  preference := 1#256
  log := []

theorem new_exampleInstance :
    new snowballFactory (fun _ _ ↦ .ok ()) exampleParams 1#256 0 = .ok exampleInstance :=
  rfl

end Topological

end Avalanche
