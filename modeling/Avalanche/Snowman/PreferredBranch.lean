import Avalanche.Snowman.Run

/-!
# The preferred-branch invariant

`Branch` says that the preferred blocks an instance keeps are those met when following preferences
from the last accepted block. Adding a block can only extend the branch at its end, since no new
choice moves the preference of a snowball tree.

A poll may move preferences, but only along the vote stack. The proof follows the loop with the
block `newPreferred`: it is always on the branch, and nothing at or below it has been polled yet. If
it is still one of the kept preferred blocks when the loop ends, then every preference on the way to
it was kept, so that the branch did not move at all; this is why the early return is right.
Otherwise the branch is collected again.
-/

namespace Avalanche

open Std Ancestry

namespace Topological

variable {F : LawfulFactory} {t t' : Topological F} {x y : Id}

/-- The kept preferred blocks are those met when following preferences from the last accepted
block. -/
structure Branch (t : Topological F) : Prop where
  ids : ∀ y, y ∈ t.preferredIds ↔ Below t.preferredChild t.lastAcceptedId y
  path : AtOrBelow t.preferredChild t.lastAcceptedId t.preference
  tip : t.preferredChild t.preference = none
  indexed : t.Indexed t.preferredIds t.preferredHeights

theorem Indexed.congr {ids : ExtTreeSet Id} {heights : ExtTreeMap ℕ Id} (h : t.Indexed ids heights)
    (heq : ∀ y ∈ ids, t'.heightOf y = t.heightOf y) : t'.Indexed ids heights := by
  intro k y
  rw [h k y]
  exact and_congr_right fun hy ↦ by rw [heq y hy]

namespace Branch

/-- The tip is the only block of the branch without a preferred child. -/
theorem eq_tip (h : t.Branch) (hx : AtOrBelow t.preferredChild t.lastAcceptedId x)
    (hnone : t.preferredChild x = none) : x = t.preference := by
  rcases hx.comparable h.path with hle | hle
  · exact hle.eq_of_top hnone
  · exact (hle.eq_of_top h.tip).symm

/-- The branch stays if the tree keeps its shape and no preference on the branch moves. -/
theorem of_sameShape (h : t.Branch) (hshape : SameShape t t')
    (hids : t'.preferredIds = t.preferredIds) (hheights : t'.preferredHeights = t.preferredHeights)
    (hpref : t'.preference = t.preference)
    (hchild : ∀ x, AtOrBelow t.preferredChild t.lastAcceptedId x →
      t'.preferredChild x = t.preferredChild x) : t'.Branch where
  ids y := by rw [hids, hshape.lastAcceptedId, h.ids, below_congr hchild]
  path := by rw [hpref, hshape.lastAcceptedId, atOrBelow_congr hchild]; exact h.path
  tip := by rw [hpref, hchild _ h.path]; exact h.tip
  indexed := by
    rw [hids, hheights]
    exact h.indexed.congr fun y _ ↦ hshape.heightOf y

/-- Accepting the first block of the branch takes it off. -/
theorem accept (h : t.Branch) (hw : t.WellFormed) {b : Block} (hacc : Accepted t t' b) :
    t'.Branch := by
  have hroot : t.preferredChild t.lastAcceptedId = some b.id :=
    preferredChild_eq_some_iff.mpr hacc.preferred
  have hstep (y : Id) : Below t.preferredChild t.lastAcceptedId y ↔
      AtOrBelow t.preferredChild b.id y :=
    below_iff_of_up hroot
  have hchild : ∀ x, AtOrBelow t.preferredChild b.id x →
      t'.preferredChild x = t.preferredChild x := by
    intro x hx
    rw [preferredChild, preferredChild, hacc.kept (hw.atOrBelow_of_preferred hx)]
  have hpref : t'.preference = t.preference := by rw [hacc.rest]
  have hpath : AtOrBelow t.preferredChild b.id t.preference := by
    rcases atOrBelow_iff.mp h.path with heq | hbelow
    · have htip := h.tip
      rw [← heq, hroot] at htip
      cases htip
    · exact (hstep _).mp hbelow
  constructor
  case ids =>
    intro y
    rw [hacc.lastAcceptedId, below_congr hchild]
    have hids : t'.preferredIds = t.preferredIds.erase b.id := by rw [hacc.rest]
    rw [hids, ExtTreeSet.mem_erase, h.ids, hstep, atOrBelow_iff]
    simp only [ne_eq, LawfulEqCmp.compare_eq_iff_eq]
    constructor
    · rintro ⟨hne, rfl | hbelow⟩
      · exact absurd rfl hne
      · exact hbelow
    · refine fun hbelow ↦ ⟨fun heq ↦ ?_, Or.inr hbelow⟩
      exact hw.ranked.not_below_self _ (hw.below_of_preferred (heq ▸ hbelow))
  case path => rw [hpref, hacc.lastAcceptedId, atOrBelow_congr hchild]; exact hpath
  case tip => rw [hpref, hchild _ hpath]; exact h.tip
  case indexed =>
    have hmem : b.id ∈ t.preferredIds := (h.ids _).mpr (below_of_up hroot)
    have herase := h.indexed.erase hmem
    rw [hacc.heightOf_accepted hw] at herase
    have hids : t'.preferredIds = t.preferredIds.erase b.id := by rw [hacc.rest]
    have hheights : t'.preferredHeights = t.preferredHeights.erase b.height := by rw [hacc.rest]
    rw [hids, hheights]
    refine herase.congr fun y hy ↦ ?_
    have hy' := (h.ids y).mp (ExtTreeSet.mem_of_mem_erase hy)
    exact hacc.heightOf_eq hw (hw.atOrBelow_of_preferred ((hstep y).mp hy'))

end Branch

/-! ## Rebuilding -/

/-- A block on the way back from a preferred block is preferred. -/
theorem WellFormed.below_preferred (hw : t.WellFormed)
    (hx : AtOrBelow t.preferredChild t.lastAcceptedId x) (hxy : AtOrBelow t.pendingParent x y)
    (hy : Below t.pendingParent y t.lastAcceptedId) :
    Below t.preferredChild t.lastAcceptedId y := by
  induction hx with
  | refl =>
    exact absurd (hxy.trans_below hy) (hw.ranked.not_below_self _)
  | @tail z x hz hstep ih =>
    rcases atOrBelow_iff.mp hxy with rfl | hbelow
    · exact Relation.TransGen.tail' hz hstep
    · exact ih ((below_iff_of_up (hw.pendingParent_of_preferredChild hstep)).mp hbelow)

theorem WellFormed.exists_of_branch (hw : t.WellFormed)
    (hx : AtOrBelow t.preferredChild t.lastAcceptedId x) : ∃ n, t.blocks[x]? = some n := by
  rcases atOrBelow_iff.mp (hw.atOrBelow_of_preferred hx) with rfl | hbelow
  · obtain ⟨n, hn, -⟩ := hw.root
    exact ⟨n, hn⟩
  · obtain ⟨p, hp, -⟩ := below_iff_up.mp hbelow
    exact (hw.exists_of_pendingParent hp).1

/-- Collecting the branch again from one of its blocks. -/
theorem Rebuilt.branch (h : Rebuilt t x t') (hw : t.WellFormed)
    (hx : AtOrBelow t.preferredChild t.lastAcceptedId x) : t'.Branch := by
  have hla : t'.lastAcceptedId = t.lastAcceptedId := by rw [h.rest]; rfl
  have hchild : t'.preferredChild = t.preferredChild := by rw [h.rest]; rfl
  have hheight : t'.heightOf = t.heightOf := by rw [h.rest]; rfl
  constructor
  case ids =>
    intro y
    rw [h.ids, hla, hchild]
    constructor
    · rintro (⟨hxy, hy⟩ | hbelow)
      · exact hw.below_preferred hx hxy hy
      · exact hx.trans_below hbelow
    · intro hy
      rcases hx.comparable hy.atOrBelow with hxy | hyx
      · rcases atOrBelow_iff.mp hxy with rfl | hbelow
        · exact Or.inl ⟨AtOrBelow.refl _, hw.below_of_preferred hy⟩
        · exact Or.inr hbelow
      · exact Or.inl ⟨hw.atOrBelow_of_preferred hyx, hw.below_of_preferred hy⟩
  case path => rw [hla, hchild]; exact hx.trans h.path
  case tip => rw [hchild]; exact h.tip
  case indexed => exact fun k y ↦ by rw [hheight]; exact h.indexed k y

/-! ## Adding a block -/

section Grown

variable {b : Block} {pn : SnowmanBlock F}

theorem preferredChild_grown (hpn : t.blocks[b.parent]? = some pn) (x : Id) :
    (t.grown pn b).preferredChild x = if b.id = x then none
      else if b.parent = x ∧ pn.sb = none then some b.id else t.preferredChild x := by
  rw [preferredChild, blocks_grown]
  by_cases hx : b.id = x
  · rw [if_pos hx, if_pos hx]
    rfl
  rw [if_neg hx, if_neg hx]
  by_cases hp : b.parent = x
  · rw [if_pos hp]
    rcases hsb : pn.sb with _ | sb
    · rw [if_pos ⟨hp, rfl⟩]
      simp [SnowmanBlock.addChild, hsb, Tree.preference, Tree.new, Node.preference]
    · rw [if_neg (by simp), ← hp, preferredChild, hpn]
      simp [SnowmanBlock.addChild, hsb, Tree.preference_add]
  · rw [if_neg hp, if_neg fun h ↦ hp h.1, preferredChild]

/-- A block added elsewhere leaves the branch as it is. -/
theorem Branch.grown (h : t.Branch) (hw : t.WellFormed) (hpn : t.blocks[b.parent]? = some pn)
    (hnew : t.blocks[b.id]? = none) (hpref : t.preference ≠ b.parent) : (t.grown pn b).Branch := by
  have hchild : ∀ x, AtOrBelow t.preferredChild t.lastAcceptedId x →
      (t.grown pn b).preferredChild x = t.preferredChild x := by
    intro x hx
    have hid : b.id ≠ x := by
      rintro rfl
      obtain ⟨n, hn⟩ := hw.exists_of_branch hx
      cases hnew.symm.trans hn
    rw [preferredChild_grown hpn, if_neg hid, if_neg]
    rintro ⟨rfl, hsb⟩
    exact hpref (h.eq_tip hx (by simp [preferredChild, hpn, hsb])).symm
  constructor
  case ids => exact fun y ↦ (h.ids y).trans (below_congr hchild).symm
  case path => exact (atOrBelow_congr hchild).mpr h.path
  case tip => exact (hchild _ h.path).trans h.tip
  case indexed =>
    refine h.indexed.congr fun y hy ↦ heightOf_grown hpn ?_
    rintro rfl
    obtain ⟨n, hn⟩ := hw.exists_of_branch ((h.ids _).mp hy).atOrBelow
    cases hnew.symm.trans hn

/-- A block added at the end of the branch becomes its new end. -/
theorem Branch.extend (h : t.Branch) (hw : t.WellFormed) (hpn : t.blocks[b.parent]? = some pn)
    (hnew : t.blocks[b.id]? = none) (hheight : b.height = t.heightOf b.parent + 1)
    (hpref : t.preference = b.parent) :
    ((t.grown pn b).withPreferred (t.preferredIds.insert b.id)
      (t.preferredHeights.insert b.height b.id) b.id).Branch := by
  have hold : ∀ {x}, AtOrBelow t.preferredChild t.lastAcceptedId x → b.id ≠ x := by
    rintro x hx rfl
    obtain ⟨n, hn⟩ := hw.exists_of_branch hx
    cases hnew.symm.trans hn
  have hsb : pn.sb = none := by
    have htip := h.tip
    rw [hpref, preferredChild, hpn] at htip
    rcases hsb : pn.sb with _ | sb
    · rfl
    · simp [hsb] at htip
  have hlast : (t.grown pn b).preferredChild b.parent = some b.id := by
    rw [preferredChild_grown hpn, if_neg (parent_ne_id hpn hnew).symm, if_pos ⟨rfl, hsb⟩]
  have hend : (t.grown pn b).preferredChild b.id = none := by
    rw [preferredChild_grown hpn, if_pos rfl]
  -- before the end of the branch nothing changed
  have hbelow : ∀ x, Below (t.grown pn b).preferredChild t.lastAcceptedId x ↔
      x = b.id ∨ Below t.preferredChild t.lastAcceptedId x := by
    refine fun x ↦ below_extend (hpref ▸ h.path) (hpref ▸ h.tip) (fun y hy hne ↦ ?_) hlast hend
    rw [preferredChild_grown hpn, if_neg (hold hy), if_neg fun hp ↦ hne hp.1.symm]
  constructor
  case ids =>
    intro y
    refine Iff.trans ?_ (hbelow y).symm
    rw [← h.ids, eq_comm]
    exact ExtTreeSet.mem_insert.trans (by rw [LawfulEqCmp.compare_eq_iff_eq])
  case path => exact ((hbelow _).mpr (Or.inl rfl)).atOrBelow
  case tip => exact hend
  case indexed =>
    have hbh : (t.grown pn b).heightOf b.id = b.height := by
      have hne : b.id ≠ t.lastAcceptedId := hold (AtOrBelow.refl _)
      exact heightOf_of_ne (n := SnowmanBlock.processing b) (by rw [blocks_grown, if_pos rfl]) rfl
        hne
    have hold' : (t.grown pn b).Indexed t.preferredIds t.preferredHeights :=
      h.indexed.congr fun y hy ↦ heightOf_grown hpn (hold ((h.ids y).mp hy).atOrBelow).symm
    have hinsert := hold'.insert (x := b.id) fun y hy ↦ by
      have hy' := (h.ids y).mp hy
      have hle : t.heightOf y ≤ t.heightOf b.parent := by
        rcases hy'.atOrBelow.comparable h.path with hle | hle
        · exact hpref ▸ hw.ranked.le_of_atOrBelow (hw.atOrBelow_of_preferred hle)
        · exact Nat.le_of_eq (by rw [← hle.eq_of_top h.tip, hpref])
      rw [hbh, heightOf_grown hpn (hold hy'.atOrBelow).symm]
      omega
    rw [hbh] at hinsert
    exact hinsert

theorem Branch.add (h : t.Branch) (hw : t.WellFormed) (hid : b.id ≠ t.lastAcceptedId)
    (hheight : t.HeightOk b) (hadd : t.add b = .ok t') : t'.Branch := by
  obtain ⟨hproc, pn, hpn, rfl⟩ := add_cases hadd
  have hnew := blocks_eq_none_of_processing hproc hid
  split
  case isTrue hpref => exact h.extend hw hpn hnew (hheight ⟨pn, hpn⟩) hpref
  case isFalse hpref => exact h.grown hw hpn hnew hpref

end Grown

/-! ## Polling along the branch -/

/-- The loop over the vote stack, with the entries of `s` left. The tree it started on is `t₀`. -/
structure Following (t₀ t : Topological F) (newPreferred : Id) (onPreferredBranch : Bool)
    (s : List Id) : Prop where
  wellFormed : t.WellFormed
  within : Within t₀ t
  path : AtOrBelow t.preferredChild t.lastAcceptedId newPreferred
  root : t.lastAcceptedId ∉ t.preferredIds
  /-- The kept blocks that are still in the tree contain their ancestors. -/
  closed : ∀ y ∈ t.preferredIds, ∀ p, t.pendingParent y = some p →
    p = t.lastAcceptedId ∨ p ∈ t.preferredIds
  /-- As long as the loop follows the kept branch, no preference on it moved. -/
  branch : (newPreferred = t.lastAcceptedId ∨ newPreferred ∈ t.preferredIds) →
    (∃ y ∈ t.preferredIds, Below t.pendingParent y t.lastAcceptedId) → t.Branch
  head : onPreferredBranch = true → ∀ a ∈ s.head?, a = newPreferred
  /-- Off the branch only blocks aside from it are polled. -/
  off : onPreferredBranch = false → ∀ a ∈ s,
    ¬ AtOrBelow t₀.pendingParent a newPreferred ∧ ¬ AtOrBelow t₀.pendingParent newPreferred a

section Step

variable {n : SnowmanBlock F} {sb : Tree F} {votes : Bag Id} {e q : Id}

theorem preferredChild_polled (hsb : n.sb = some sb) (t : Topological F) (e x : Id) :
    (t.polled e n votes).preferredChild x
      = if e = x then some (pollNode n votes).2.2 else t.preferredChild x := by
  rw [preferredChild, blocks_polled]
  by_cases hx : e = x
  · rw [if_pos hx, if_pos hx, pollNode_of_some hsb]
    rfl
  · rw [if_neg hx, if_neg hx, preferredChild]

theorem preferredChild_falterChildren (t : Topological F) (e : Id) (transitively : Bool)
    (next : Id) : (t.falterChildren e transitively next).preferredChild = t.preferredChild := by
  funext x
  rw [preferredChild, preferredChild, blocks_falterChildren]
  split
  · rcases t.blocks[x]? with _ | n <;> rfl
  · rfl

/-- The blocks after a child of `e` in the stack lie aside from every other child of `e`. -/
theorem WellFormed.aside {t₀ : Topological F} (hw : t₀.WellFormed) {s : List Id}
    (hchain : (e :: s).IsChain fun a b ↦ t₀.pendingParent b = some a)
    (hq : t₀.pendingParent q = some e) (hne : ∀ a ∈ s.head?, a ≠ q) :
    ∀ a ∈ s, ¬ AtOrBelow t₀.pendingParent a q ∧ ¬ AtOrBelow t₀.pendingParent q a := by
  rcases s with _ | ⟨c, s⟩
  · simp
  · obtain ⟨hc, hchain⟩ := List.isChain_cons_cons.mp hchain
    have hcq : c ≠ q := hne c rfl
    have hle : ∀ a ∈ c :: s, AtOrBelow t₀.pendingParent a c := by
      intro a ha
      rcases List.mem_cons.mp ha with rfl | ha
      · exact AtOrBelow.refl _
      · exact (below_of_isChain hchain a ha).atOrBelow
    intro a ha
    constructor
    · exact fun haq ↦ hcq (hw.ranked.child_unique (hle a ha) haq hc hq)
    · exact fun hqa ↦ hcq (hw.ranked.child_unique (hqa.trans (hle a ha)) (AtOrBelow.refl q) hc hq)

end Step

namespace Following

variable {t₀ : Topological F} {np : Id} {on : Bool} {s : List Id} {vote : Votes}
  {n : SnowmanBlock F}
variable {stack : List Votes}

/-- A block of the stack has a child in the tree, so that its snowball tree exists. -/
theorem exists_tree (h : Following t₀ t np on s) (hn : t.blocks[x]? = some n)
    (hchild : ∃ c, t₀.pendingParent c = some x) : ∃ sb, n.sb = some sb := by
  obtain ⟨c, hc⟩ := hchild
  have hup : t.pendingParent c = some x := (h.within.up _ _).mpr
    ⟨hc, (below_iff_of_up hc).mpr (h.within.atOrBelow_root h.wellFormed hn)⟩
  rcases hsb : n.sb with _ | sb
  · have hnone : t.preferredChild x = none := by simp [preferredChild, hn, hsb]
    exact absurd hup ((h.wellFormed.preferredChild_eq_none_iff hn).mp hnone c)
  · exact ⟨sb, rfl⟩

/-- Whether the next entry is polled on the branch. -/
theorem next (hw₀ : t₀.WellFormed) {q e : Id}
    (hchain : (e :: stack.map Votes.parentId).IsChain fun a b ↦ t₀.pendingParent b = some a)
    (hq : t₀.pendingParent q = some e) :
    ((nextId stack == q) = true → ∀ a ∈ (stack.map Votes.parentId).head?, a = q) ∧
      ((nextId stack == q) = false → ∀ a ∈ stack.map Votes.parentId,
        ¬ AtOrBelow t₀.pendingParent a q ∧ ¬ AtOrBelow t₀.pendingParent q a) := by
  have hhead : ∀ a ∈ (stack.map Votes.parentId).head?, a = nextId stack := by
    rcases stack with _ | ⟨v, stack⟩
    · simp
    · intro a ha
      exact (Option.some.inj ha).symm
  constructor
  · exact fun heq a ha ↦ (hhead a ha).trans (LawfulBEq.eq_of_beq heq)
  · refine fun hne ↦ hw₀.aside hchain hq fun a ha heq ↦ ?_
    rw [← hhead a ha, heq, beq_self_eq_true] at hne
    cases hne

/-- An entry on the branch that accepts nothing. -/
theorem poll_on (hw₀ : t₀.WellFormed) (nextId' : Id)
    (h : Following t₀ t np true (vote.parentId :: stack.map Votes.parentId))
    (hchain : (vote.parentId :: stack.map Votes.parentId).IsChain
      fun a b ↦ t₀.pendingParent b = some a)
    (hchild : ∃ c, t₀.pendingParent c = some vote.parentId)
    (hn : t.blocks[vote.parentId]? = some n) :
    Following t₀
      ((t.polled vote.parentId n vote.votes).falterChildren vote.parentId n.shouldFalter nextId')
      (pollNode n vote.votes).2.2 (nextId stack == (pollNode n vote.votes).2.2)
      (stack.map Votes.parentId) := by
  have hw := h.wellFormed
  obtain ⟨sb, hsb⟩ := h.exists_tree hn hchild
  set e := vote.parentId with he
  obtain rfl : e = np := h.head rfl e rfl
  set q := (pollNode n vote.votes).2.2 with hq
  set u := (t.polled e n vote.votes).falterChildren e n.shouldFalter nextId' with hu
  have hshape : SameShape t u :=
    (sameShape_polled hn vote.votes).trans (sameShape_falterChildren _ _ _ _)
  have hwu : u.WellFormed := (hw.polled hn vote.votes).falterChildren _ _ _
  have hpc (x : Id) : u.preferredChild x = if e = x then some q else t.preferredChild x := by
    rw [hu, preferredChild_falterChildren, preferredChild_polled hsb]
  have hupq : t.pendingParent q = some e := by
    rw [← hshape.pendingParent]
    exact hwu.pendingParent_of_preferredChild (by rw [hpc, if_pos rfl])
  have hqroot : q ≠ t.lastAcceptedId := fun heq ↦ by
    rw [heq, hw.pendingParent_root] at hupq
    cases hupq
  obtain ⟨hnext, haside⟩ := next hw₀ hchain ((h.within.up _ _).mp hupq).1
  constructor
  case wellFormed => exact hwu
  case within => exact h.within.of_sameShape hshape
  case path =>
    have hpath : AtOrBelow u.preferredChild t.lastAcceptedId e :=
      h.path.of_agree fun c _ hc ↦ by rw [hpc, if_neg (Ne.symm hc)]
    exact hpath.tail (by rw [Step, hpc, if_pos rfl])
  case root => exact h.root
  case closed => rw [hshape.pendingParent]; exact h.closed
  case branch =>
    rintro (heq | hmem) -
    · exact absurd heq hqroot
    · -- a kept block below `e` means that the branch passed through `e` and on to it
      have hbelow : Below t.pendingParent q t.lastAcceptedId := by
        obtain ⟨⟨m, hm⟩, -⟩ := hw.exists_of_pendingParent hupq
        exact hw.below_root hm hqroot
      have hbranch : t.Branch := h.branch (h.closed q hmem e hupq) ⟨q, hmem, hbelow⟩
      obtain ⟨c, -, hc⟩ := below_iff_child.mp ((hbranch.ids q).mp hmem)
      obtain rfl : c = e := Option.some_injective _
        ((hw.pendingParent_of_preferredChild hc).symm.trans hupq)
      refine hbranch.of_sameShape hshape rfl rfl rfl fun x _ ↦ ?_
      rw [hpc]
      by_cases hx : e = x
      · rw [if_pos hx, ← hx, hc]
      · rw [if_neg hx]
  case head => exact hnext
  case off => exact haside

/-- An entry that accepts a block is on the branch. -/
theorem poll_accept (hw₀ : t₀.WellFormed) {b : Block}
    (h : Following t₀ t np true (vote.parentId :: stack.map Votes.parentId))
    (hchain : (vote.parentId :: stack.map Votes.parentId).IsChain
      fun a b ↦ t₀.pendingParent b = some a)
    (hchild : ∃ c, t₀.pendingParent c = some vote.parentId)
    (hn : t.blocks[vote.parentId]? = some n) (hroot : t.lastAcceptedId = vote.parentId)
    (hacc : Accepted (t.polled vote.parentId n vote.votes) t' b)
    (hb : b.id = (pollNode n vote.votes).2.2) :
    Following t₀ t' b.id (nextId stack == b.id) (stack.map Votes.parentId) := by
  have hw := h.wellFormed
  obtain ⟨sb, hsb⟩ := h.exists_tree hn hchild
  set e := vote.parentId with he
  obtain rfl : e = np := h.head rfl e rfl
  set u := t.polled e n vote.votes with hu
  have hshape : SameShape t u := sameShape_polled hn vote.votes
  have hwu : u.WellFormed := hw.polled hn vote.votes
  have hwithin : Within t₀ u := h.within.of_sameShape hshape
  have hids : t'.preferredIds = t.preferredIds.erase b.id := by rw [hacc.rest]; rfl
  have hupb : u.pendingParent b.id = some e := hroot ▸ hacc.parent
  obtain ⟨hnext, haside⟩ := next hw₀ hchain ((hwithin.up _ _).mp hupb).1
  constructor
  case wellFormed => exact hacc.wellFormed hwu
  case within => exact hwithin.accept hwu hacc
  case path => rw [hacc.lastAcceptedId]; exact AtOrBelow.refl _
  case root =>
    rw [hids, hacc.lastAcceptedId, ExtTreeSet.mem_erase]
    simp
  case closed =>
    rw [hids, hacc.lastAcceptedId]
    intro y hy p hp
    obtain ⟨hup, hyb⟩ := (hacc.pendingParent_iff hwu).mp hp
    rcases h.closed y (ExtTreeSet.mem_of_mem_erase hy) p (hshape.pendingParent ▸ hup) with
      hpla | hpmem
    · have hpb := (below_iff_of_up hup).mp hyb
      exact absurd (hpla ▸ hpb) (hacc.not_root_atOrBelow hwu)
    · by_cases heq : p = b.id
      · exact Or.inl heq
      · refine Or.inr (ExtTreeSet.mem_erase.mpr ⟨?_, hpmem⟩)
        simpa using Ne.symm heq
  case branch =>
    rintro - ⟨y, hy, hyb⟩
    rw [hids] at hy
    rw [hacc.lastAcceptedId] at hyb
    have hymem := ExtTreeSet.mem_of_mem_erase hy
    have hybu : Below u.pendingParent y b.id := by
      obtain ⟨hy₀, -⟩ := (hwithin.accept hwu hacc).below_iff.mp hyb
      exact hwithin.below_iff.mpr ⟨hy₀, ((hwithin.up _ _).mp hupb).2.atOrBelow⟩
    have hbranch : t.Branch := h.branch (Or.inl hroot.symm) ⟨y, hymem, by
      rw [← hshape.pendingParent, hroot]
      exact hybu.trans_atOrBelow (below_of_up hupb).atOrBelow⟩
    -- the branch goes through the accepted block, so the preference did not move
    obtain ⟨c, hc, hcy⟩ := below_iff_up.mp ((hbranch.ids y).mp hymem)
    have hupc := hw.pendingParent_of_preferredChild hc
    rw [hroot, ← hshape.pendingParent] at hupc
    have hyc : AtOrBelow u.pendingParent y c := by
      rw [hshape.pendingParent]
      exact hw.atOrBelow_of_preferred hcy
    obtain rfl : c = b.id := hwu.ranked.child_unique hyc hybu.atOrBelow hupc hupb
    refine Branch.accept (hbranch.of_sameShape hshape rfl rfl rfl fun x _ ↦ ?_) hwu hacc
    rw [hu, preferredChild_polled hsb]
    by_cases hx : e = x
    · rw [if_pos hx, ← hb, ← hx, ← hroot, hc]
    · rw [if_neg hx]
  case head => exact hnext
  case off => exact haside

/-- An entry off the branch. -/
theorem poll_off (nextId' : Id)
    (h : Following t₀ t np false (vote.parentId :: stack.map Votes.parentId))
    (hchild : ∃ c, t₀.pendingParent c = some vote.parentId)
    (hn : t.blocks[vote.parentId]? = some n) :
    t.lastAcceptedId ≠ vote.parentId ∧ Following t₀
      ((t.polled vote.parentId n vote.votes).falterChildren vote.parentId n.shouldFalter nextId')
      np false (stack.map Votes.parentId) := by
  have hw := h.wellFormed
  obtain ⟨sb, hsb⟩ := h.exists_tree hn hchild
  set e := vote.parentId with he
  set u := (t.polled e n vote.votes).falterChildren e n.shouldFalter nextId' with hu
  have hshape : SameShape t u :=
    (sameShape_polled hn vote.votes).trans (sameShape_falterChildren _ _ _ _)
  have hwu : u.WellFormed := (hw.polled hn vote.votes).falterChildren _ _ _
  obtain ⟨hnot, hnot'⟩ := h.off rfl e List.mem_cons_self
  -- `e` is not on the branch to `np`, nor on the way on from there
  have hne : ∀ x, AtOrBelow t.preferredChild x np ∨ AtOrBelow t.preferredChild np x → e ≠ x := by
    rintro x (hx | hx) rfl
    · exact hnot' (h.within.atOrBelow_of_atOrBelow (hw.atOrBelow_of_preferred hx))
    · exact hnot (h.within.atOrBelow_of_atOrBelow (hw.atOrBelow_of_preferred hx))
  have hpc : ∀ x, e ≠ x → u.preferredChild x = t.preferredChild x := by
    intro x hx
    rw [hu, preferredChild_falterChildren, preferredChild_polled hsb, if_neg hx]
  refine ⟨(hne _ (Or.inl h.path)).symm, ?_⟩
  constructor
  case wellFormed => exact hwu
  case within => exact h.within.of_sameShape hshape
  case path => exact h.path.of_agree fun c hc _ ↦ hpc c (hne c (Or.inl hc))
  case root => exact h.root
  case closed => rw [hshape.pendingParent]; exact h.closed
  case branch =>
    intro hnp hy
    rw [hshape.pendingParent] at hy
    refine (h.branch hnp hy).of_sameShape hshape rfl rfl rfl fun x hx ↦ hpc x (hne x ?_)
    exact hx.comparable h.path
  case head => simp
  case off => exact fun _ a ha ↦ h.off rfl a (List.mem_cons_of_mem _ ha)

/-- The whole loop. -/
theorem loop (hw₀ : t₀.WellFormed) {r : Topological F × Id}
    (h : Following t₀ t np on (stack.map Votes.parentId))
    (hchain : (stack.map Votes.parentId).IsChain fun a b ↦ t₀.pendingParent b = some a)
    (hchild : ∀ v ∈ stack, ∃ c, t₀.pendingParent c = some v.parentId)
    (hloop : voteLoop stack t np on = .ok r) : ∃ on' s', Following t₀ r.1 r.2 on' s' := by
  induction stack generalizing t np on with
  | nil =>
    cases hloop
    exact ⟨on, [], h⟩
  | cons vote stack ih =>
    rcases hn : t.blocks[vote.parentId]? with _ | n
    · rw [voteLoop_cons_of_none _ _ _ _ _ hn] at hloop
      cases hloop
      exact ⟨on, _, h⟩
    rw [voteLoop_cons _ _ _ _ _ hn] at hloop
    obtain ⟨t₁, hstep, hloop⟩ := Except.bind_eq_ok_iff.mp hloop
    have hchild₁ := hchild vote List.mem_cons_self
    have hchain' : (stack.map Votes.parentId).IsChain fun a b ↦ t₀.pendingParent b = some a :=
      hchain.tail
    refine ih ?_ hchain' (fun v hv ↦ hchild v (List.mem_cons_of_mem _ hv)) hloop
    rcases on with _ | _
    · obtain ⟨hroot, hoff⟩ := h.poll_off (nextId stack) hchild₁ hn
      rcases voteStep_cases h.wellFormed hn hstep with ⟨-, rfl⟩ | ⟨-, heq, -⟩
      · exact hoff
      · exact absurd heq hroot
    · rcases voteStep_cases h.wellFormed hn hstep with ⟨-, rfl⟩ | ⟨-, hroot, b, hacc, hb⟩
      · exact h.poll_on hw₀ _ hchain hchild₁ hn
      · exact hb ▸ h.poll_accept hw₀ hchain hchild₁ hn hroot hacc hb

end Following

/-- The loop starts on the branch, at the last accepted block. -/
theorem Branch.following (h : t.Branch) (hw : t.WellFormed) {s : List Id}
    (hhead : ∀ a ∈ s.head?, a = t.lastAcceptedId) :
    Following t t t.lastAcceptedId true s where
  wellFormed := hw
  within := Within.refl hw
  path := AtOrBelow.refl _
  root hroot := hw.ranked.not_below_self _ (hw.below_of_preferred ((h.ids _).mp hroot))
  closed y hy p hp := by
    obtain ⟨c, hc, hcy⟩ := below_iff_child.mp ((h.ids y).mp hy)
    obtain rfl : c = p := Option.some_injective _
      ((hw.pendingParent_of_preferredChild hcy).symm.trans hp)
    exact (atOrBelow_iff.mp hc).imp Eq.symm (h.ids c).mpr
  branch _ _ := h
  head _ := hhead
  off hoff := by cases hoff

/-- A poll with at most `k` votes keeps the branch. -/
theorem Branch.recordPoll (h : t.Branch) (hw : t.WellFormed) (hp : t.params.Verified)
    {votes : Bag Id} (hk : votes.len ≤ t.params.k.toNat) (hpoll : t.recordPoll votes = .ok t') :
    t'.Branch := by
  have hc : t.counted.Branch := h.of_sameShape (sameShape_counted t) rfl rfl rfl fun _ _ ↦ rfl
  have hwc := hw.counted
  obtain ⟨stack, u, p, hstack, hvote, hpoll⟩ := recordPoll_returns hpoll
  -- after voting, the new preferred block is on the branch, and a kept one only if nothing moved
  have hfollow : ∃ on s, Following t.counted u p on s := by
    obtain ⟨stack', hstack', hst⟩ := exists_voteStack (t := t.counted) hwc.ranked
      hp.alphaPreference_pos votes
    cases hstack.symm.trans hstack'
    rcases hvote with ⟨-, rfl, rfl⟩ | ⟨-, hloop⟩
    · have hf : t.counted.faltered.Branch :=
        hc.of_sameShape (sameShape_faltered _) rfl rfl rfl fun x _ ↦ by
          rw [preferredChild, preferredChild, blocks_faltered]
          split
          · rcases t.counted.blocks[x]? with _ | n <;> rfl
          · rfl
      have hstart := hf.following hwc.faltered (s := []) (by simp)
      exact ⟨false, [], hwc.faltered, (Within.refl hwc).of_sameShape (sameShape_faltered _),
        hf.path, hstart.root, hstart.closed, fun _ _ ↦ hf, by simp, by simp⟩
    · have hlen : votes.len < 2 * t.params.alphaPreference.toNat := by
        have := hp.bounds.1
        omega
      refine (hc.following hwc fun a ha ↦ ?_).loop hwc (hst.isChain hwc.ranked hlen).1
        (fun v ↦ hst.exists_child hp.alphaPreference_pos) hloop
      rcases stack with - | ⟨e, rest⟩
      · cases ha
      · rw [← Option.some.inj ha]
        exact hst.head_eq hwc hp.alphaPreference_pos hlen
  obtain ⟨on, s, hf⟩ := hfollow
  have hwu := hf.wellFormed
  rcases hpoll with ⟨hmem, rfl⟩ | hpoll
  · refine hf.branch (Or.inr hmem) ⟨p, hmem, ?_⟩
    rcases atOrBelow_iff.mp hf.path with heq | hbelow
    · exact absurd (heq ▸ hmem) hf.root
    · exact hwu.below_of_preferred hbelow
  · obtain ⟨m, hm⟩ := hwu.exists_of_branch hf.path
    obtain ⟨v, hv, hrebuilt⟩ := exists_rebuild hwu hm
    cases hv.symm.trans hpoll
    exact hrebuilt.branch hwu hf.path

/-! ## Along a run -/

/-- The preferred blocks of an instance are those met from the last accepted block on, when moving
to the preference of the current block's snowball tree until a block without children is reached. -/
structure FollowsPreferences (t : Topological F) : Prop where
  ids : ∀ y, y ∈ t.preferredIds ↔
    t.processing y = true ∧ Below t.preferredChild t.lastAcceptedId y
  met : AtOrBelow t.preferredChild t.lastAcceptedId t.preference
  last : ∃ n, t.blocks[t.preference]? = some n ∧ ∀ c : Id, n.children[c]? = none
  heights : ∀ (h : ℕ) (y : Id), t.preferredHeights[h]? = some y ↔
    y ∈ t.preferredIds ∧ ∃ b, t.Holds b ∧ b.id = y ∧ b.height = h

theorem Branch.followsPreferences (h : t.Branch) (hw : t.WellFormed) : t.FollowsPreferences := by
  have hmem : ∀ y ∈ t.preferredIds, y ≠ t.lastAcceptedId ∧ ∃ n, t.blocks[y]? = some n := by
    intro y hy
    have hbelow := (h.ids y).mp hy
    refine ⟨fun heq ↦ ?_, hw.exists_of_branch hbelow.atOrBelow⟩
    exact hw.ranked.not_below_self _ (hw.below_of_preferred (heq ▸ hbelow))
  constructor
  case ids =>
    intro y
    refine ⟨fun hy ↦ ⟨?_, (h.ids y).mp hy⟩, fun hy ↦ (h.ids y).mpr hy.2⟩
    obtain ⟨hne, n, hn⟩ := hmem y hy
    rw [processing, if_neg hne, ExtTreeMap.contains_iff_mem, ExtTreeMap.mem_iff_isSome_getElem?, hn]
    rfl
  case met => exact h.path
  case last =>
    obtain ⟨n, hn⟩ := hw.exists_of_branch h.path
    refine ⟨n, hn, fun c ↦ ?_⟩
    rcases hc : n.children[c]? with _ | b
    · rfl
    · exact absurd (hw.pendingParent_iff_child.mpr ⟨n, b, hn, hc⟩)
        ((hw.preferredChild_eq_none_iff hn).mp h.tip c)
  case heights =>
    intro k y
    rw [h.indexed k y]
    refine and_congr_right fun hy ↦ ?_
    obtain ⟨hne, n, hn⟩ := hmem y hy
    obtain ⟨b, hb, -, pn, hpn, hc⟩ := hw.pending hn hne
    obtain ⟨hid, hholds, -⟩ := hw.holds_child hpn hc
    rw [heightOf_of_ne hn hb hne]
    constructor
    · exact fun hk ↦ ⟨b, hholds, hid, hk⟩
    · rintro ⟨c, hc, hcid, rfl⟩
      rw [hholds.eq hc (hid.trans hcid.symm)]

/-- What the caller promises: children are one height above their parent, an id belongs to one block
only, and a bag has at most `k` votes. -/
def BranchPromise (_ : List (Event F)) (t : Topological F) : Call → Prop
  | .add b => t.HeightOk b ∧ (b.id = t.lastAcceptedId → b.height = t.lastAcceptedHeight)
  | .recordPoll votes => votes.len ≤ t.params.k.toNat

section Runs

variable {blockAcceptor : Id → List UInt8 → Except SnowError Unit} {params : Parameters}
  {lastAcceptedId : Id} {lastAcceptedHeight : ℕ} {t₀ : Topological F}
  {history : List (Event F)}

theorem branch_new
    (h : new F blockAcceptor params lastAcceptedId lastAcceptedHeight = .ok t) :
    t.Branch := by
  have hnone : ∀ x, t.preferredChild x = none := by
    intro x
    rw [preferredChild, blocks_new h]
    split <;> rfl
  obtain ⟨-, rfl⟩ := new_cases h
  refine ⟨fun y ↦ ?_, AtOrBelow.refl _, hnone _, indexed_empty _⟩
  exact iff_of_false (by simp) (not_below_of_top (hnone _))

/-- A block below a known one is higher than the last accepted block. -/
theorem HeightOk.ne_lastAccepted {b : Block} (hheight : t.HeightOk b) (hw : t.WellFormed)
    (hpn : ∃ n, t.blocks[b.parent]? = some n)
    (hid : b.id = t.lastAcceptedId → b.height = t.lastAcceptedHeight) :
    b.id ≠ t.lastAcceptedId := by
  intro heq
  have hroot : t.heightOf t.lastAcceptedId = t.lastAcceptedHeight := by simp [heightOf]
  obtain ⟨n, hn⟩ := hpn
  have hle := hw.ranked.le_of_atOrBelow (hw.atOrBelow_root hn)
  have hb := hheight ⟨n, hn⟩
  rw [hid heq] at hb
  omega

theorem Run.branch
    (hnew : new F blockAcceptor params lastAcceptedId lastAcceptedHeight = .ok t₀)
    (hrun : Run BranchPromise t₀ history t) : t.WellFormed ∧ t.params.Verified ∧ t.Branch := by
  induction hrun with
  | start =>
    obtain ⟨hp, ht⟩ := new_cases hnew
    exact ⟨wellFormed_new hnew, by rwa [ht], branch_new hnew⟩
  | @next history t t' call _ hpromise hstep ih =>
    obtain ⟨hw, hp, hbranch⟩ := ih
    rcases call with b | votes
    · obtain ⟨hheight, hid⟩ := hpromise
      rcases step_add_cases hstep history with ⟨hadd, -⟩ | ⟨rfl, -⟩
      · obtain ⟨-, pn, hpn, ht'⟩ := add_cases hadd
        have hne := hheight.ne_lastAccepted hw ⟨pn, hpn⟩ hid
        refine ⟨hw.add hne hheight hadd, ?_, hbranch.add hw hne hheight hadd⟩
        rw [ht']
        split <;> exact hp
      · exact ⟨hw, hp, hbranch⟩
    · refine ⟨hw.recordPoll hstep, ?_, hbranch.recordPoll hw hp hpromise hstep⟩
      exact params_recordPoll hw hstep ▸ hp

/-- **The preferred branch**: every instance reached by a run keeps exactly the blocks met when
following preferences from the last accepted block. -/
theorem followsPreferences_of_run
    (hnew : new F blockAcceptor params lastAcceptedId lastAcceptedHeight = .ok t₀)
    (hrun : Run BranchPromise t₀ history t) : t.FollowsPreferences := by
  obtain ⟨hw, -, hbranch⟩ := Run.branch hnew hrun
  exact hbranch.followsPreferences hw

end Runs

/-- Two blocks on top of each other are added and the upper one is polled. -/
theorem followsPreferences_of_run_example :
    ∃ (history : List (Event snowballFactory)) (t : Topological snowballFactory),
      Run BranchPromise exampleInstance history t ∧
        (t.preference, t.preferredIds.toList) = (3#256, [2#256, 3#256]) ∧ t.FollowsPreferences := by
  obtain ⟨t₁, t₂, ht₁, ht₂, hheight, hroot, hparams⟩ : ∃ t₁ t₂,
      exampleInstance.step (.add (exampleBlock 2#256 1#256 1)) = .ok t₁ ∧
      t₁.step (.add (exampleBlock 3#256 2#256 2)) = .ok t₂ ∧
      t₁.HeightOk (exampleBlock 3#256 2#256 2) ∧ t₁.lastAcceptedId = 1#256 ∧
      t₂.params = exampleParams := ⟨_, _, rfl, rfl, fun _ ↦ rfl, rfl, rfl⟩
  have hrun₁ := Run.next (.add (exampleBlock 2#256 1#256 1)) (.start : Run BranchPromise _ _ _)
    ⟨fun _ ↦ rfl, fun h ↦ absurd h (by decide)⟩ ht₁
  have hrun₂ := Run.next (.add (exampleBlock 3#256 2#256 2)) hrun₁
    ⟨hheight, fun h ↦ absurd (hroot ▸ h) (by decide)⟩ ht₂
  have hval : (((exampleInstance.step (.add (exampleBlock 2#256 1#256 1))).bind fun t ↦
      (t.step (.add (exampleBlock 3#256 2#256 2))).bind fun t ↦
      (t.recordPoll ⟨[3#256]⟩).map fun t ↦ (t.preference, t.preferredIds.toList)).toOption)
      = some (3#256, [2#256, 3#256]) := by
    decide +kernel
  rw [ht₁, Except.bind, ht₂, Except.bind] at hval
  rcases ht₃ : t₂.recordPoll ⟨[3#256]⟩ with _ | t₃
  · rw [ht₃] at hval
    cases hval
  rw [ht₃] at hval
  have hk : (⟨[3#256]⟩ : Bag Id).len ≤ t₂.params.k.toNat := by
    rw [hparams]
    decide
  have hrun₃ := Run.next (.recordPoll ⟨[3#256]⟩) hrun₂ hk ht₃
  exact ⟨_, t₃, hrun₃, Option.some.inj hval,
    followsPreferences_of_run new_exampleInstance hrun₃⟩

end Topological

end Avalanche
