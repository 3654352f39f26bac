import Avalanche.Snowman.Accept

/-!
# One entry of the vote stack

`voteLoop` polls the snowball tree of one block after the other. This file says once what one entry
does to the tree of blocks: `voteStep` polls a node and then either marks its children or, when the
tree of the last accepted block is decided, accepts a child. A block that was accepted has left its
parent's place in the map, so in that case no child is marked.
-/

namespace Avalanche

open Std Ancestry

namespace SnowmanBlock

variable {F : Factory} {n : SnowmanBlock F} {sb : Tree F} {params : Parameters}

/-- The tree of a node before it is polled: a pending falter is carried out first. -/
def ready (n : SnowmanBlock F) (sb : Tree F) : Tree F :=
  if n.shouldFalter then sb.recordUnsuccessfulPoll else sb

theorem TreeOk.ready (h : n.TreeOk params) (hsb : n.sb = some sb) :
    (n.ready sb).params = params ∧
      (n.ready sb).PrefersOnly fun c ↦ ∃ b, n.children[c]? = some b := by
  rw [TreeOk, hsb] at h
  unfold SnowmanBlock.ready
  split
  · exact ⟨h.1, h.2.recordUnsuccessfulPoll⟩
  · exact h

theorem TreeOk.preference (h : n.TreeOk params) (hsb : n.sb = some sb) :
    ∃ b, n.children[sb.preference]? = some b := by
  rw [TreeOk, hsb] at h
  exact h.2.preference

theorem TreeOk.congr {m : SnowmanBlock F} (h : n.TreeOk params) (hsb : m.sb = n.sb)
    (hchildren : m.children = n.children) : m.TreeOk params := by
  unfold TreeOk at h ⊢
  rw [hsb, hchildren]
  exact h

end SnowmanBlock

namespace Topological

variable {F : Factory} {t t' : Topological F} {n : SnowmanBlock F} {sb : Tree F} {id : Id}
  {vote : Votes}

/-! ## Polling a node -/

theorem pollNode_of_some (hsb : n.sb = some sb) (votes : Bag Id) :
    pollNode n votes =
      ({ n with sb := some ((n.ready sb).recordPoll votes).1, shouldFalter := false },
        ((n.ready sb).recordPoll votes).1.finalized,
        ((n.ready sb).recordPoll votes).1.preference) := by
  obtain ⟨blk, shouldFalter, sb', children⟩ := n
  obtain rfl : sb' = some sb := hsb
  cases shouldFalter <;> rfl

theorem pollNode_of_none (hsb : n.sb = none) (votes : Bag Id) :
    pollNode n votes = ({ n with shouldFalter := false }, false, Id.empty) := by
  obtain ⟨blk, shouldFalter, sb', children⟩ := n
  obtain rfl : sb' = none := hsb
  cases shouldFalter <;> rfl

theorem shape_pollNode (n : SnowmanBlock F) (votes : Bag Id) :
    (pollNode n votes).1.shape = n.shape := by
  cases hsb : n.sb with
  | none => rw [pollNode_of_none hsb]; rfl
  | some sb => rw [pollNode_of_some hsb]; rfl

theorem treeOk_pollNode {params : Parameters} (h : n.TreeOk params) (votes : Bag Id) :
    (pollNode n votes).1.TreeOk params := by
  cases hsb : n.sb with
  | none =>
    rw [pollNode_of_none hsb]
    exact h.congr rfl rfl
  | some sb =>
    rw [pollNode_of_some hsb]
    obtain ⟨hparams, honly⟩ := h.ready hsb
    exact ⟨by simpa using hparams, honly.recordPoll votes⟩

/-- The tree of blocks with the node at `id` polled. -/
def polled (t : Topological F) (id : Id) (n : SnowmanBlock F) (votes : Bag Id) : Topological F :=
  { t with blocks := t.blocks.insert id (pollNode n votes).1 }

theorem blocks_polled (t : Topological F) (id x : Id) (n : SnowmanBlock F) (votes : Bag Id) :
    (t.polled id n votes).blocks[x]?
      = if id = x then some (pollNode n votes).1 else t.blocks[x]? := by
  simp [polled, ExtTreeMap.getElem?_insert]

theorem sameShape_polled (hn : t.blocks[id]? = some n) (votes : Bag Id) :
    SameShape t (t.polled id n votes) where
  params := rfl
  lastAcceptedId := rfl
  lastAcceptedHeight := rfl
  blocks x := by
    rw [blocks_polled]
    by_cases hx : id = x
    · rw [if_pos hx, ← hx, hn]
      exact congrArg some (shape_pollNode n votes)
    · rw [if_neg hx]

theorem WellFormed.polled (hw : t.WellFormed) (hn : t.blocks[id]? = some n) (votes : Bag Id) :
    (t.polled id n votes).WellFormed := by
  refine (sameShape_polled hn votes).wellFormed hw fun {x m} hm ↦ ?_
  rw [blocks_polled] at hm
  by_cases hx : id = x
  · rw [if_pos hx] at hm
    exact Option.some.inj hm ▸ treeOk_pollNode (hw.tree hn) votes
  · rw [if_neg hx] at hm
    exact hw.tree hm

/-! ## Marking children -/

/-- The child `x` of a polled block is marked. -/
def Marks (t : Topological F) (parentId : Id) (transitively : Bool) (nextId x : Id) : Prop :=
  (∃ n : SnowmanBlock F, t.blocks[parentId]? = some n ∧ x ∈ n.children.keys) ∧
    (transitively = true ∨ x ≠ nextId)

/-- Marking a list of nodes. -/
theorem getElem?_foldl_mark (l : List Id) (skip : Id → Bool)
    (blocks : ExtTreeMap Id (SnowmanBlock F)) (x : Id) :
    (l.foldl (fun blocks childId ↦ if skip childId then blocks
      else blocks.modify childId SnowmanBlock.falter) blocks)[x]?
      = if x ∈ l ∧ skip x = false then
          blocks[x]?.map SnowmanBlock.falter
        else blocks[x]? := by
  induction l generalizing blocks with
  | nil => simp
  | cons c l ih =>
    rw [List.foldl_cons, ih]
    cases hskip : skip c with
    | true =>
      by_cases hx : x = c
      · subst hx
        simp [hskip]
      · simp [hx]
    | false =>
      by_cases hx : x = c
      · subst hx
        have hidem : SnowmanBlock.falter ∘ SnowmanBlock.falter (F := F) = SnowmanBlock.falter := rfl
        by_cases hl : x ∈ l
        · simp [hskip, hl, hidem]
        · simp [hskip, hl]
      · simp [hx, Ne.symm hx, ExtTreeMap.getElem?_modify]

open Classical in
theorem blocks_falterChildren (t : Topological F) (parentId : Id) (transitively : Bool)
    (nextId x : Id) :
    (t.falterChildren parentId transitively nextId).blocks[x]?
      = if Marks t parentId transitively nextId x then
          t.blocks[x]?.map SnowmanBlock.falter
        else t.blocks[x]? := by
  unfold falterChildren
  rw [getElem?_foldl_mark]
  congr 1
  rw [eq_iff_iff, Marks]
  cases hn : t.blocks[parentId]? with
  | none => simp
  | some n => cases transitively <;> simp

theorem of_some_falterChildren {parentId nextId x : Id} {transitively : Bool}
    {m : SnowmanBlock F}
    (hm : (t.falterChildren parentId transitively nextId).blocks[x]? = some m) :
    ∃ n, t.blocks[x]? = some n ∧ m.blk = n.blk ∧ m.sb = n.sb ∧ m.children = n.children := by
  rw [blocks_falterChildren] at hm
  split at hm
  · obtain ⟨n, hn, rfl⟩ := Option.map_eq_some_iff.mp hm
    exact ⟨n, hn, rfl, rfl, rfl⟩
  · exact ⟨m, hm, rfl, rfl, rfl⟩

theorem sameShape_falterChildren (t : Topological F) (parentId : Id) (transitively : Bool)
    (nextId : Id) : SameShape t (t.falterChildren parentId transitively nextId) where
  params := rfl
  lastAcceptedId := rfl
  lastAcceptedHeight := rfl
  blocks x := by
    rw [blocks_falterChildren]
    split
    · rw [Option.map_map]
      rfl
    · rfl

theorem WellFormed.falterChildren (hw : t.WellFormed) (parentId : Id) (transitively : Bool)
    (nextId : Id) : (t.falterChildren parentId transitively nextId).WellFormed := by
  refine (sameShape_falterChildren t parentId transitively nextId).wellFormed hw fun {x m} hm ↦ ?_
  obtain ⟨n, hn, -, hsb, hchildren⟩ := of_some_falterChildren hm
  exact (hw.tree hn).congr hsb hchildren

/-- A block that is not in the tree has no children to mark. -/
theorem falterChildren_of_none {parentId : Id} (h : t.blocks[parentId]? = none)
    (transitively : Bool) (nextId : Id) : t.falterChildren parentId transitively nextId = t := by
  simp [Topological.falterChildren, h]

/-! ## The step -/

/-- What `voteLoop` does with one entry for a block of the tree. -/
def voteStep (t : Topological F) (vote : Votes) (n : SnowmanBlock F) (nextId : Id) :
    Except Fault (Topological F) :=
  if (pollNode n vote.votes).2.1 && t.lastAcceptedId == vote.parentId then do
    let t ← (t.polled vote.parentId n vote.votes).acceptPreferredChild vote.parentId
    let t := { t with blocks := t.blocks.erase vote.parentId }
    pure (t.falterChildren vote.parentId n.shouldFalter nextId)
  else
    pure ((t.polled vote.parentId n vote.votes).falterChildren vote.parentId n.shouldFalter nextId)

/-- The block whose entry is next; `Id.empty` stands for none. -/
def nextId (voteStack : List Votes) : Id := (voteStack.head?.map Votes.parentId).getD Id.empty

theorem voteLoop_cons (vote : Votes) (voteStack : List Votes) (t : Topological F)
    (newPreferred : Id) (onPreferredBranch : Bool) (hn : t.blocks[vote.parentId]? = some n) :
    voteLoop (vote :: voteStack) t newPreferred onPreferredBranch = (do
      let t ← t.voteStep vote n (nextId voteStack)
      voteLoop voteStack t
        (if onPreferredBranch then (pollNode n vote.votes).2.2 else newPreferred)
        (onPreferredBranch && nextId voteStack == (pollNode n vote.votes).2.2)) := by
  rw [voteLoop, hn]
  simp only [voteStep, polled, nextId, pure_bind]
  by_cases hcond : ((pollNode n vote.votes).2.1 && t.lastAcceptedId == vote.parentId) = true
  · simp only [if_pos hcond, bind_assoc, pure_bind]
  · simp only [if_neg hcond, pure_bind]

theorem voteLoop_cons_of_none (vote : Votes) (voteStack : List Votes) (t : Topological F)
    (newPreferred : Id) (onPreferredBranch : Bool) (hn : t.blocks[vote.parentId]? = none) :
    voteLoop (vote :: voteStack) t newPreferred onPreferredBranch = .ok (t, newPreferred) := by
  rw [voteLoop, hn]

/-- A tree that a poll has decided prefers a child of its block. -/
theorem exists_preferred (hw : t.WellFormed) (hn : t.blocks[id]? = some n) {votes : Bag Id}
    (hfin : (pollNode n votes).2.1 = true) :
    ∃ sb b, (t.polled id n votes).blocks[id]? = some (pollNode n votes).1 ∧
      (pollNode n votes).1.sb = some sb ∧ sb.preference = (pollNode n votes).2.2 ∧
      (pollNode n votes).1.children[sb.preference]? = some b := by
  have hn' : (t.polled id n votes).blocks[id]? = some (pollNode n votes).1 := by
    rw [blocks_polled, if_pos rfl]
  cases hsb : n.sb with
  | none => simp [pollNode_of_none hsb] at hfin
  | some sb =>
    have hsb' : (pollNode n votes).1.sb = some ((n.ready sb).recordPoll votes).1 := by
      rw [pollNode_of_some hsb]
    obtain ⟨b, hb⟩ := ((hw.polled hn votes).tree hn').preference hsb'
    exact ⟨_, b, hn', hsb', by rw [pollNode_of_some hsb], hb⟩

/-- What one entry can do. -/
theorem voteStep_cases (hw : t.WellFormed) {nextId : Id}
    (hn : t.blocks[vote.parentId]? = some n) (h : t.voteStep vote n nextId = .ok t') :
    (((pollNode n vote.votes).2.1 = false ∨ t.lastAcceptedId ≠ vote.parentId) ∧
      t' = (t.polled vote.parentId n vote.votes).falterChildren vote.parentId
        n.shouldFalter nextId) ∨
    ((pollNode n vote.votes).2.1 = true ∧ t.lastAcceptedId = vote.parentId ∧
      ∃ b, Accepted (t.polled vote.parentId n vote.votes) t' b ∧
        b.id = (pollNode n vote.votes).2.2) := by
  rw [voteStep] at h
  split at h
  case isFalse hcond =>
    cases h
    refine Or.inl ⟨?_, rfl⟩
    by_contra hnot
    obtain ⟨hfin, hroot⟩ := not_or.mp hnot
    exact hcond (by simp [Bool.eq_true_of_not_eq_false hfin, not_not.mp hroot])
  case isTrue hcond =>
    obtain ⟨hfin, hroot⟩ := (Bool.and_eq_true _ _).mp hcond
    replace hroot : t.lastAcceptedId = vote.parentId := LawfulBEq.eq_of_beq hroot
    refine Or.inr ⟨hfin, hroot, ?_⟩
    obtain ⟨t₂, ht₂, h⟩ := Except.bind_eq_ok_iff.mp h
    cases h
    have hgone : ({ t₂ with
        blocks := t₂.blocks.erase vote.parentId } : Topological F).blocks[vote.parentId]?
        = none := by simp
    rw [falterChildren_of_none hgone]
    obtain ⟨sb, b, hn', hsb, hpref, hb⟩ := exists_preferred hw hn hfin
    have hw' := hw.polled hn vote.votes
    rw [← hroot] at hn' hw' ht₂ ⊢
    exact ⟨b, accepted_of_acceptPreferredChild hw' hn' hsb hb ht₂,
      (hw'.holds_child hn' hb).1.trans hpref⟩

theorem wellFormed_voteStep (hw : t.WellFormed) {nextId : Id}
    (hn : t.blocks[vote.parentId]? = some n) (h : t.voteStep vote n nextId = .ok t') :
    t'.WellFormed := by
  obtain ⟨-, rfl⟩ | ⟨-, -, b, hacc, -⟩ := voteStep_cases hw hn h
  · exact (hw.polled hn vote.votes).falterChildren _ _ _
  · exact hacc.wellFormed (hw.polled hn vote.votes)

/-- No callback of the blocks in the tree fails, nor does the block acceptor. -/
structure CallbacksOk (t : Topological F) : Prop where
  blockAcceptor : ∀ id bytes, t.blockAcceptor id bytes = .ok ()
  accept : ∀ b, t.Holds b → b.accept = .ok ()
  reject : ∀ b, t.Holds b → b.reject = .ok ()

theorem SameShape.holds_iff {b : Block} (h : SameShape t t') : t'.Holds b ↔ t.Holds b := by
  constructor
  · rintro ⟨n', hn', hb⟩
    obtain ⟨n, hn, hblk, -⟩ := h.of_some hn'
    exact ⟨n, hn, hblk ▸ hb⟩
  · rintro ⟨n, hn, hb⟩
    obtain ⟨n', hn', hblk, -⟩ := h.symm.of_some hn
    exact ⟨n', hn', hblk ▸ hb⟩

/-- An entry is processed if no callback fails. -/
theorem exists_voteStep (hw : t.WellFormed) (hok : t.CallbacksOk)
    (hn : t.blocks[vote.parentId]? = some n) (nextId : Id) :
    ∃ t', t.voteStep vote n nextId = .ok t' := by
  rw [voteStep]
  split
  case isFalse => exact ⟨_, rfl⟩
  case isTrue hcond =>
    obtain ⟨hfin, hroot⟩ := (Bool.and_eq_true _ _).mp hcond
    replace hroot : t.lastAcceptedId = vote.parentId := LawfulBEq.eq_of_beq hroot
    obtain ⟨sb, b, hn', hsb, -, hb⟩ := exists_preferred hw hn hfin
    have hw' := hw.polled hn vote.votes
    have hshape := sameShape_polled hn vote.votes
    rw [← hroot] at hn' hw' hshape ⊢
    obtain ⟨t₁, ht₁⟩ := exists_acceptPreferredChild hw' hn' hsb hb (hok.blockAcceptor _ _)
      (hok.accept b (hshape.holds_iff.mp (hw'.holds_child hn' hb).2.1))
      (fun c hc ↦ hok.reject c (hshape.holds_iff.mp hc))
    change (t.polled t.lastAcceptedId n vote.votes).acceptPreferredChild t.lastAcceptedId = _ at ht₁
    rw [ht₁]
    exact ⟨_, rfl⟩

/-! ## The tree during a poll -/

/-- The tree of `t` is the part of the tree of `t₀` at and below the last accepted block of `t`. -/
structure Within (t₀ t : Topological F) : Prop where
  params : t.params = t₀.params
  up : ∀ x p, t.pendingParent x = some p ↔
    t₀.pendingParent x = some p ∧ Below t₀.pendingParent x t.lastAcceptedId

namespace Within

variable {t₀ : Topological F} {x y : Id}

theorem refl (hw : t.WellFormed) : Within t t where
  params := rfl
  up x p := by
    refine ⟨fun hp ↦ ⟨hp, ?_⟩, And.left⟩
    obtain ⟨⟨n, hn⟩, -⟩ := hw.exists_of_pendingParent hp
    refine hw.below_root hn fun heq ↦ ?_
    rw [heq, hw.pendingParent_root] at hp
    cases hp

theorem of_sameShape (h : Within t₀ t) (hshape : SameShape t t') : Within t₀ t' where
  params := hshape.params.trans h.params
  up x p := by rw [hshape.pendingParent, hshape.lastAcceptedId, h.up]

theorem below_iff (h : Within t₀ t) : Below t.pendingParent x y ↔
    Below t₀.pendingParent x y ∧ AtOrBelow t₀.pendingParent y t.lastAcceptedId := by
  constructor
  · intro hxy
    induction hxy with
    | single hstep =>
      obtain ⟨hup, hbelow⟩ := (h.up _ _).mp hstep
      exact ⟨below_of_up hup, (below_iff_of_up hup).mp hbelow⟩
    | tail _ hstep ih =>
      obtain ⟨hup, hbelow⟩ := (h.up _ _).mp hstep
      exact ⟨ih.1.trans_atOrBelow (below_of_up hup).atOrBelow, (below_iff_of_up hup).mp hbelow⟩
  · rintro ⟨hxy, hle⟩
    induction hxy using Relation.TransGen.head_induction_on with
    | single hstep =>
      exact below_of_up ((h.up _ _).mpr ⟨hstep, below_iff_up.mpr ⟨_, hstep, hle⟩⟩)
    | head hstep hbelow ih =>
      refine below_iff_up.mpr ⟨_, (h.up _ _).mpr ⟨hstep, ?_⟩, ih.atOrBelow⟩
      exact below_iff_up.mpr ⟨_, hstep, hbelow.to_reflTransGen.trans hle⟩

/-- A block of the smaller tree is at or below its root in the larger one. -/
theorem atOrBelow_root (h : Within t₀ t) (hw : t.WellFormed) {n : SnowmanBlock F}
    (hn : t.blocks[x]? = some n) : AtOrBelow t₀.pendingParent x t.lastAcceptedId := by
  rcases atOrBelow_iff.mp (hw.atOrBelow_root hn) with rfl | hbelow
  · exact AtOrBelow.refl _
  · exact (h.below_iff.mp hbelow).1.atOrBelow

theorem atOrBelow_of_atOrBelow (h : Within t₀ t) (hxy : AtOrBelow t.pendingParent x y) :
    AtOrBelow t₀.pendingParent x y := by
  rcases atOrBelow_iff.mp hxy with rfl | hbelow
  · exact AtOrBelow.refl _
  · exact (h.below_iff.mp hbelow).1.atOrBelow

theorem accept (h : Within t₀ t) (hw : t.WellFormed) {b : Block} (hacc : Accepted t t' b) :
    Within t₀ t' where
  params := hacc.params.trans h.params
  up x p := by
    have hb := ((h.up _ _).mp hacc.parent).2.atOrBelow
    rw [hacc.pendingParent_iff hw, hacc.lastAcceptedId, h.up, h.below_iff]
    constructor
    · exact fun ⟨⟨hp, _⟩, hxb, _⟩ ↦ ⟨hp, hxb⟩
    · exact fun ⟨hp, hxb⟩ ↦ ⟨⟨hp, hxb.trans_atOrBelow hb⟩, hxb, hb⟩

theorem voteStep (h : Within t₀ t) (hw : t.WellFormed) {vote : Votes} {nextId : Id}
    (hn : t.blocks[vote.parentId]? = some n) (hstep : t.voteStep vote n nextId = .ok t') :
    Within t₀ t' := by
  have hpolled := h.of_sameShape (sameShape_polled hn vote.votes)
  rcases voteStep_cases hw hn hstep with ⟨-, rfl⟩ | ⟨-, -, b, hacc, -⟩
  · exact hpolled.of_sameShape (sameShape_falterChildren _ _ _ _)
  · exact hpolled.accept (hw.polled hn vote.votes) hacc

end Within

end Topological

end Avalanche
