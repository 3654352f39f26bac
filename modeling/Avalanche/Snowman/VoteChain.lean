import Avalanche.Library.Steps
import Avalanche.Snowman.Run

/-!
# Vote propagation computes the transitive votes

What the two passes of the vote propagation leave on the stack, stated without them: the blocks
whose proper descendants got the preference threshold, as a branch from the last accepted block
downwards, each with the votes for the subtree of each of its children (`TransitiveVotes`). There is
only one such stack, so it does not matter which leaf the second pass takes off next.
-/

namespace Avalanche

open Std Ancestry

namespace Topological

variable {F : Factory} {t : Topological F} {votes : Bag Id} {stack stack' : List Votes}
variable {rank : Id → ℕ}

/-- The votes for `x` and for the blocks below it. -/
noncomputable def subtreeVotes (t : Topological F) (votes : Bag Id) (x : Id) : ℕ :=
  countWhere votes.items fun v ↦ AtOrBelow t.pendingParent v x

/-- The stack holds the blocks whose proper descendants got the threshold, from the last accepted
block downwards, with the votes for the subtrees of their children. -/
structure TransitiveVotes (t : Topological F) (votes : Bag Id) (stack : List Votes) : Prop where
  mem_iff : ∀ x, x ∈ stack.map Votes.parentId ↔
    t.params.alphaPreference.toNat ≤ t.votesBelow votes x
  head : ∀ x ∈ (stack.map Votes.parentId).head?, x = t.lastAcceptedId
  /-- The next block is the one child whose subtree got the threshold. -/
  chain : (stack.map Votes.parentId).IsChain fun a b ↦ ∀ c, t.pendingParent c = some a →
    (t.params.alphaPreference.toNat ≤ t.subtreeVotes votes c ↔ c = b)
  child : (stack.map Votes.parentId).IsChain fun a b ↦ t.pendingParent b = some a
  count : ∀ e ∈ stack, ∀ c, e.votes.count c
    = if t.pendingParent c = some e.parentId then t.subtreeVotes votes c else 0

/-- Two stacks with the same blocks, each with the same number of votes for every block. -/
def SameVotes (stack stack' : List Votes) : Prop :=
  List.Forall₂ (fun e e' ↦ e.parentId = e'.parentId ∧ ∀ c, e.votes.count c = e'.votes.count c)
    stack stack'

/-- The second pass when it takes the blocks off in the given order. -/
def pushInOrder (t : Topological F) (s : Kahn × List Votes) (order : List Id) : Kahn × List Votes :=
  Steps.exec (fun s leafId ↦ t.pushAt leafId s) s order

/-- Every block is a leaf when it is taken off. -/
def LeafOrder (t : Topological F) (s : Kahn × List Votes) (order : List Id) : Prop :=
  Steps.Along (fun s leafId ↦ t.pushAt leafId s) (fun s leafId ↦ leafId ∈ s.1.leaves) s order

/-! ### The shape of the stack -/

theorem subtreeVotes_eq (hr : Ranked t.pendingParent rank) (votes : Bag Id)
    (x : Id) : t.subtreeVotes votes x = votes.count x + t.votesBelow votes x := by
  rw [subtreeVotes, votesBelow, Bag.count, ← countWhere_eq_count, ← countWhere_or]
  · exact countWhere_congr fun v _ ↦ atOrBelow_iff
  · rintro v - rfl hbelow
    exact hr.not_below_self v hbelow

/-- Two children of one block cannot both get the threshold. -/
theorem eq_of_subtreeVotes (hr : Ranked t.pendingParent rank)
    (hlen : votes.len < 2 * t.params.alphaPreference.toNat) {a b c : Id}
    (hb : t.pendingParent b = some a) (hc : t.pendingParent c = some a)
    (hbv : t.params.alphaPreference.toNat ≤ t.subtreeVotes votes b)
    (hcv : t.params.alphaPreference.toNat ≤ t.subtreeVotes votes c) : c = b := by
  by_contra hne
  have hle := countWhere_add_le (l := votes.items) (P := fun v ↦ AtOrBelow t.pendingParent v c)
    (Q := fun v ↦ AtOrBelow t.pendingParent v b)
    fun v _ hvc hvb ↦ hne (hr.child_unique hvc hvb hc hb)
  rw [subtreeVotes] at hbv hcv
  rw [Bag.len] at hlen
  omega

theorem Stacked.mem_iff (h : Stacked t votes stack) (x : Id) :
    x ∈ stack.map Votes.parentId ↔ t.params.alphaPreference.toNat ≤ t.votesBelow votes x := by
  constructor
  · intro hx
    obtain ⟨e, he, rfl⟩ := List.mem_map.mp hx
    exact (h.entry e he).heavy
  · intro hx
    obtain ⟨e, he, rfl⟩ := h.complete x hx
    exact List.mem_map_of_mem he

theorem Stacked.transitiveVotes (hw : t.WellFormed) (halpha : 0 < t.params.alphaPreference.toNat)
    (hlen : votes.len < 2 * t.params.alphaPreference.toNat) (h : Stacked t votes stack) :
    TransitiveVotes t votes stack := by
  obtain ⟨hchain, -⟩ := h.isChain hw.ranked hlen
  refine ⟨h.mem_iff, fun x hx ↦ ?_, ?_, hchain, fun e he c ↦ ?_⟩
  · cases stack with
    | nil => cases hx
    | cons e rest =>
      cases hx
      exact h.head_eq hw halpha hlen
  · -- every block after the first is heavy, so its subtree is
    refine hchain.imp_of_mem_imp fun a b _ hb hab c hc ↦ ⟨fun hcv ↦ ?_, ?_⟩
    · refine eq_of_subtreeVotes hw.ranked hlen hab hc ?_ hcv
      rw [subtreeVotes_eq hw.ranked]
      exact ((h.mem_iff b).mp hb).trans (Nat.le_add_left _ _)
    · rintro rfl
      rw [subtreeVotes_eq hw.ranked]
      exact ((h.mem_iff _).mp hb).trans (Nat.le_add_left _ _)
  · rw [(h.entry e he).count c, subtreeVotes_eq hw.ranked]

/-! ### Uniqueness -/

/-- A branch is determined by its members. -/
theorem eq_of_isChain (hr : Ranked t.pendingParent rank) {l l' : List Id}
    (h : l.IsChain fun a b ↦ t.pendingParent b = some a)
    (h' : l'.IsChain fun a b ↦ t.pendingParent b = some a) (hmem : ∀ x, x ∈ l ↔ x ∈ l') :
    l = l' := by
  have hsorted {m : List Id} (hm : m.IsChain fun a b ↦ t.pendingParent b = some a) :
      m.Pairwise fun a b ↦ rank a < rank b :=
    List.isChain_iff_pairwise.mp (hm.imp fun a b hab ↦ hr b a hab)
  have hnodup {m : List Id} (hm : m.Pairwise fun a b ↦ rank a < rank b) : m.Nodup :=
    hm.imp fun hab heq ↦ (heq ▸ hab).ne rfl
  have hperm : l.Perm l' :=
    (List.perm_ext_iff_of_nodup (hnodup (hsorted h)) (hnodup (hsorted h'))).mpr hmem
  exact hperm.eq_of_pairwise (fun a b _ _ hab hba ↦ absurd hba hab.le.not_gt) (hsorted h)
    (hsorted h')

theorem TransitiveVotes.sameVotes (hw : t.WellFormed) (h : TransitiveVotes t votes stack)
    (h' : TransitiveVotes t votes stack') : SameVotes stack stack' := by
  have hids : stack.map Votes.parentId = stack'.map Votes.parentId :=
    eq_of_isChain hw.ranked h.child h'.child fun x ↦ (h.mem_iff x).trans (h'.mem_iff x).symm
  have hforall : List.Forall₂ (fun e e' : Votes ↦ e.parentId = e'.parentId) stack stack' := by
    have heq : List.Forall₂ Eq (stack.map Votes.parentId) (stack'.map Votes.parentId) := by
      rw [List.forall₂_eq_eq_eq, hids]
    exact List.forall₂_map_right_iff.mp (List.forall₂_map_left_iff.mp heq)
  refine (List.forall₂_iff_zip.mpr ⟨hforall.length_eq, fun {e e'} hmem ↦ ?_⟩)
  have hid : e.parentId = e'.parentId := List.forall₂_iff_zip.mp hforall |>.2 hmem
  obtain ⟨he, he'⟩ := List.of_mem_zip hmem
  refine ⟨hid, fun c ↦ ?_⟩
  rw [h.count e he c, h'.count e' he' c, hid]

/-! ### Every order -/

/-- Whatever leaves are taken off, the invariant is kept, and every one of them is a new block of
the sort. -/
theorem Pushed.inOrder (hr : Ranked t.pendingParent rank) {K D : Finset Id}
    (hK : Ancestors t votes K) {s : Kahn × List Votes} (h : Pushed t votes K D s.1 s.2)
    {order : List Id} (horder : t.LeafOrder s order) :
    ∃ D', Pushed t votes K D' (t.pushInOrder s order).1 (t.pushInOrder s order).2 ∧
      (K \ D').card + order.length ≤ (K \ D).card := by
  induction order generalizing s D with
  | nil => exact ⟨D, h, le_rfl⟩
  | cons leafId order ih =>
    obtain ⟨hleaf, horder⟩ := horder
    obtain ⟨hpushed, hlt⟩ := h.take hr hK hleaf
    obtain ⟨D', hpushed', hle⟩ := ih hpushed horder
    refine ⟨D', hpushed', ?_⟩
    rw [List.length_cons]
    omega

/-- **Vote propagation computes the transitive votes.** For a bag with at most `k` votes the two
passes end, and the stack they leave is the branch of the blocks whose proper descendants got the
preference threshold, from the last accepted block downwards, with the votes for the subtree of each
child. Taking the leaves off in another order ends as well, with the same stack. -/
theorem pushVotes_transitiveVotes (hw : t.WellFormed) (hk : votes.len ≤ t.params.k.toNat)
    (halpha : t.params.k.toNat / 2 < t.params.alphaPreference.toNat) :
    ∃ kahn stack, t.calculateInDegree votes = .ok kahn ∧ t.pushVotes kahn = .ok stack ∧
      TransitiveVotes t votes stack ∧
      ∀ order, t.LeafOrder (kahn, []) order → order.length ≤ kahn.nodes.size ∧
        ((∀ x, x ∉ (t.pushInOrder (kahn, []) order).1.leaves) →
          SameVotes (t.pushInOrder (kahn, []) order).2 stack) := by
  have hpos : 0 < t.params.alphaPreference.toNat := by omega
  have hlen : votes.len < 2 * t.params.alphaPreference.toNat := by omega
  obtain ⟨kahn, hkahn, hsorted⟩ := exists_calculateInDegree hw.ranked votes
  obtain ⟨stack, hstack, hstacked⟩ := exists_pushVotes hw.ranked hpos hsorted
  have htransitive := hstacked.transitiveVotes hw hpos hlen
  refine ⟨kahn, stack, hkahn, hstack, htransitive, fun order horder ↦ ?_⟩
  have hK := hsorted.ancestors
  obtain ⟨D, hpushed, hle⟩ := Pushed.inOrder hw.ranked hK (s := (kahn, [])) hsorted.pushed horder
  constructor
  · have hcard : kahn.keys.card ≤ kahn.nodes.size := by
      rw [← ExtTreeMap.length_keys]
      exact List.toFinset_card_le _
    rw [Finset.sdiff_empty] at hle
    omega
  · intro hleaves
    have hdone := hpushed.sdiff_eq_empty hw.ranked hleaves
    exact ((hpushed.stacked hK hpos hdone).transitiveVotes hw hpos hlen).sameVotes hw htransitive

/-- One vote for the last of two blocks: the stack is the branch above it. -/
theorem pushVotes_transitiveVotes_example :
    ∃ t : Topological snowballFactory, t.WellFormed ∧
      ∃ kahn stack, t.calculateInDegree ⟨[3#256]⟩ = .ok kahn ∧ t.pushVotes kahn = .ok stack ∧
        stack.map Votes.parentId = [1#256, 2#256] ∧ TransitiveVotes t ⟨[3#256]⟩ stack := by
  have hw := wellFormed_new new_exampleInstance
  obtain ⟨t₁, ht₁, hheight, hlast⟩ : ∃ t₁,
    exampleInstance.add (exampleBlock 2#256 1#256 1) = .ok t₁ ∧
      t₁.HeightOk (exampleBlock 3#256 2#256 2) ∧ 3#256 ≠ t₁.lastAcceptedId :=
    ⟨_, rfl, fun _ ↦ rfl, by decide⟩
  have hw₁ : t₁.WellFormed := hw.add (by decide) (fun _ ↦ rfl) ht₁
  obtain ⟨t₂, ht₂⟩ : ∃ t₂, t₁.add (exampleBlock 3#256 2#256 2) = .ok t₂ := by
    cases ht₁
    exact ⟨_, rfl⟩
  have hw₂ : t₂.WellFormed := hw₁.add hlast hheight ht₂
  have hparams : t₂.params = exampleParams := by
    cases ht₁
    cases ht₂
    rfl
  have hk : (⟨[3#256]⟩ : Bag Id).len ≤ t₂.params.k.toNat := by
    rw [hparams]
    decide
  obtain ⟨kahn, stack, hkahn, hstack, htransitive, -⟩ :=
    pushVotes_transitiveVotes hw₂ hk (by rw [hparams]; decide)
  refine ⟨t₂, hw₂, kahn, stack, hkahn, hstack, ?_, htransitive⟩
  have hval : ((exampleInstance.add (exampleBlock 2#256 1#256 1)).toOption.bind fun t ↦
      (t.add (exampleBlock 3#256 2#256 2)).toOption.bind fun t ↦
      (t.calculateInDegree ⟨[3#256]⟩).toOption.bind fun kahn ↦
      (t.pushVotes kahn).toOption.map fun stack ↦ stack.map Votes.parentId)
      = some [1#256, 2#256] := by
    decide +kernel
  rw [ht₁, Except.toOption, Option.bind_some, ht₂, Except.toOption, Option.bind_some, hkahn,
    Except.toOption, Option.bind_some, hstack] at hval
  exact Option.some.inj hval

end Topological

end Avalanche
