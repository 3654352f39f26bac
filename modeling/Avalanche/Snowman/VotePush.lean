import Avalanche.Snowman.Votes

/-!
# The vote stack

The second pass of the vote propagation takes the blocks of the sort off, children first. `Pushed`
is its invariant for the set `D` of blocks taken off so far. When nothing is left, every block whose
proper descendants got the preference threshold is on the stack, with the votes that reached each of
its children.

A bag with at most `k` votes has room for one branch only, since two disjoint sets of votes cannot
both reach the threshold. The stack then lists this branch from the last accepted block downwards.
-/

namespace Avalanche

open Std Ancestry

namespace Topological

variable {F : Factory} {t : Topological F} {votes : Bag Id} {rank : Id → ℕ}

/-- The votes for blocks below `x`. -/
noncomputable def votesBelow (t : Topological F) (votes : Bag Id) (x : Id) : ℕ :=
  countWhere votes.items fun v ↦ Below t.pendingParent v x

/-- A stack entry holds the votes that reached the children of its block. -/
structure Entry (t : Topological F) (votes : Bag Id) (e : Votes) : Prop where
  heavy : t.params.alphaPreference.toNat ≤ t.votesBelow votes e.parentId
  len : e.votes.len = t.votesBelow votes e.parentId
  count : ∀ c, e.votes.count c
    = if t.pendingParent c = some e.parentId then votes.count c + t.votesBelow votes c else 0

/-- The state of a block of the sort `K` once the blocks of `D` have handed on their votes. -/
structure Collected (t : Topological F) (votes : Bag Id) (K D : Finset Id) (x : Id)
    (n : KahnNode) : Prop where
  inDegree : n.inDegree = ((K.filter fun c ↦ c ∉ D ∧ t.pendingParent c = some x).card : ℤ)
  count : ∀ c, n.votes.count c
    = if t.pendingParent c = some x then votes.count c + (if c ∈ D then t.votesBelow votes c else 0)
      else 0
  len : n.votes.len = countWhere votes.items fun v ↦
    ∃ c, t.pendingParent c = some x ∧ (v = c ∨ (c ∈ D ∧ Below t.pendingParent v c))

/-- The sort after taking the blocks of `D` off, children first. -/
structure Pushed (t : Topological F) (votes : Bag Id) (K D : Finset Id) (k : Kahn)
    (stack : List Votes) : Prop where
  keys : k.keys = K
  down : ∀ x ∈ D, ∀ c ∈ K, t.pendingParent c = some x → c ∈ D
  node : ∀ x ∉ D, Collected t votes K D x (k.node x)
  leaves : ∀ x, x ∈ k.leaves ↔ x ∉ D ∧ x ∈ K ∧ (k.node x).inDegree = 0
  entry : ∀ e ∈ stack, Entry t votes e ∧ e.parentId ∈ D
  complete : ∀ x ∈ D, t.params.alphaPreference.toNat ≤ t.votesBelow votes x →
    ∃ e ∈ stack, e.parentId = x
  order : stack.Pairwise fun e e' ↦ ¬ AtOrBelow t.pendingParent e.parentId e'.parentId

/-- What the first pass leaves behind is closed under going up from the votes. -/
structure Ancestors (t : Topological F) (votes : Bag Id) (K : Finset Id) : Prop where
  entered : ∀ v ∈ votes.items, ∀ p, t.pendingParent v = some p → p ∈ K
  closed : ∀ x ∈ K, ∀ p, t.pendingParent x = some p → p ∈ K

theorem Ancestors.mem {K : Finset Id} (hK : Ancestors t votes K) {v x : Id} (hv : v ∈ votes.items)
    (hx : Below t.pendingParent v x) : x ∈ K := by
  induction hx with
  | single h => exact hK.entered v hv _ h
  | tail _ h ih => exact hK.closed _ ih _ h

theorem Ancestors.votesBelow_eq_zero {K : Finset Id} (hK : Ancestors t votes K) {x : Id}
    (hx : x ∉ K) : t.votesBelow votes x = 0 := by
  by_contra hne
  obtain ⟨v, hv, hbelow⟩ := countWhere_pos.mp (Nat.pos_of_ne_zero hne)
  exact hx (hK.mem hv hbelow)

theorem Sorted.ancestors {k : Kahn} (h : Sorted t votes votes.list.toFinset none k) :
    Ancestors t votes k.keys where
  entered v hv := h.entered v (by simpa using hv)
  closed x hx p hp := h.closed (by simpa [Kahn.counted] using hx) hp

/-- The second pass starts with what the first one leaves. -/
theorem Sorted.pushed {k : Kahn} (h : Sorted t votes votes.list.toFinset none k) :
    Pushed t votes k.keys ∅ k [] where
  keys := rfl
  down := by simp
  node x _ :=
    { inDegree := by simp [h.inDegree, Kahn.counted]
      count := fun c ↦ by
        rw [h.count x c]
        by_cases hc : c ∈ votes.items
        · simp [hc]
        · simp [hc, Bag.count, List.count_eq_zero_of_not_mem hc]
      len := by
        rw [h.len x]
        exact countWhere_congr fun v hv ↦ by simp [hv] }
  leaves x := by simp [h.leaves x]
  entry := by simp
  complete := by simp
  order := List.Pairwise.nil

namespace Pushed

variable {K D : Finset Id} {k : Kahn} {stack : List Votes} {x : Id} {n : KahnNode}

/-- The children of a leaf are done. -/
theorem children_done (h : Pushed t votes K D k stack) (hx : x ∈ k.leaves) {c : Id} (hc : c ∈ K)
    (hcx : t.pendingParent c = some x) : c ∈ D := by
  obtain ⟨hxD, -, hzero⟩ := (h.leaves x).mp hx
  have hcard := (h.node x hxD).inDegree
  by_contra hcD
  have hpos : 0 < (K.filter fun c ↦ c ∉ D ∧ t.pendingParent c = some x).card :=
    Finset.card_pos.mpr ⟨c, Finset.mem_filter.mpr ⟨hc, hcD, hcx⟩⟩
  omega

/-- What a leaf has collected is what its stack entry has to hold. -/
theorem leaf_votes (hK : Ancestors t votes K) (h : Pushed t votes K D k stack)
    (hx : x ∈ k.leaves) :
    (k.node x).votes.len = t.votesBelow votes x ∧ ∀ c, (k.node x).votes.count c
      = if t.pendingParent c = some x then votes.count c + t.votesBelow votes c else 0 := by
  have hxD := ((h.leaves x).mp hx).1
  constructor
  · rw [(h.node x hxD).len]
    refine countWhere_congr fun v hv ↦ ?_
    rw [below_iff_child]
    refine exists_congr fun c ↦ ?_
    rw [atOrBelow_iff]
    constructor
    · rintro ⟨hcx, rfl | ⟨-, hbelow⟩⟩
      · exact ⟨Or.inl rfl, hcx⟩
      · exact ⟨Or.inr hbelow, hcx⟩
    · rintro ⟨heq | hbelow, hcx⟩
      · exact ⟨hcx, Or.inl heq⟩
      · exact ⟨hcx, Or.inr ⟨h.children_done hx (hK.mem hv hbelow) hcx, hbelow⟩⟩
  · intro c
    rw [(h.node x hxD).count c]
    by_cases hcx : t.pendingParent c = some x
    · by_cases hc : c ∈ K
      · rw [if_pos (h.children_done hx hc hcx)]
      · rw [hK.votesBelow_eq_zero hc]
        simp
    · rw [if_neg hcx, if_neg hcx]

/-- A block at or below a finished one is finished. -/
theorem mem_of_atOrBelow (hK : Ancestors t votes K) (h : Pushed t votes K D k stack) {y : Id}
    (hx : x ∈ K) (hxy : AtOrBelow t.pendingParent x y) (hy : y ∈ D) : x ∈ D := by
  induction hxy using Relation.ReflTransGen.head_induction_on with
  | refl => exact hy
  | head hstep _ ih => exact h.down _ (ih (hK.closed _ hx _ hstep)) _ hx hstep

/-! ### One step -/

end Pushed

/-- What `pushStep` does with the leaf it takes off. -/
def pushAt (t : Topological F) (leafId : Id) (s : Kahn × List Votes) : Kahn × List Votes :=
  let (k, voteStack) := s
  let k := k.removeLeaf leafId
  let kahn := k.nodes[leafId]?.getD KahnNode.default
  let (k, voteStack) :=
    if kahn.votes.len ≥ t.params.alphaPreference.toNat then
      (k.modify leafId fun n ↦ { n with votes := Bag.new }, ⟨leafId, kahn.votes⟩ :: voteStack)
    else (k, voteStack)
  match t.pendingParent leafId with
  | none => (k, voteStack)
  | some parentId =>
    let parentKahn := k.nodes[parentId]?.getD KahnNode.default
    let k := k.modify parentId fun n ↦
      { inDegree := n.inDegree - 1, votes := n.votes.addCount leafId kahn.votes.len }
    if parentKahn.inDegree - 1 = 0 then (k.insertLeaf parentId, voteStack) else (k, voteStack)

/-- The source takes the first leaf. -/
theorem pushStep_eq_map (s : Kahn × List Votes) :
    t.pushStep s = s.1.leaves.toList.head?.map fun leafId ↦ t.pushAt leafId s := by
  obtain ⟨k, stack⟩ := s
  unfold pushStep pushAt
  cases hhead : k.leaves.toList.head? with
  | none => simp [hhead]
  | some leafId =>
    simp only [hhead, Option.bind_eq_bind, Option.bind_some, Option.map_some]
    cases t.pendingParent leafId with
    | none => rfl
    | some p => exact (apply_ite some _ _ _).symm

namespace Pushed

variable {K D : Finset Id} {k : Kahn} {stack : List Votes} {x : Id} {n : KahnNode}

/-- The sort without the leaf `x`, whose votes are moved to the stack if they reach the
threshold. -/
def taken (t : Topological F) (k : Kahn) (x : Id) (n : KahnNode) : Kahn :=
  if n.votes.len ≥ t.params.alphaPreference.toNat then
    (k.removeLeaf x).modify x fun n ↦ { n with votes := Bag.new }
  else k.removeLeaf x

/-- The stack after taking the leaf `x` off. -/
def takenStack (t : Topological F) (stack : List Votes) (x : Id) (n : KahnNode) : List Votes :=
  if n.votes.len ≥ t.params.alphaPreference.toNat then ⟨x, n.votes⟩ :: stack else stack

theorem node_taken (k : Kahn) {y : Id} (hy : x ≠ y) : (taken t k x n).node y = k.node y := by
  unfold taken
  split
  · rw [Kahn.node_modify, if_neg hy, Kahn.node_removeLeaf]
  · rw [Kahn.node_removeLeaf]

theorem keys_taken (hx : x ∈ k.keys) : (taken t k x n).keys = k.keys := by
  unfold taken
  split
  · rw [Kahn.keys_modify_of_mem (by simpa using hx), Kahn.keys_removeLeaf]
  · rw [Kahn.keys_removeLeaf]

theorem mem_leaves_taken {y : Id} : y ∈ (taken t k x n).leaves ↔ x ≠ y ∧ y ∈ k.leaves := by
  unfold taken
  split
  · rw [Kahn.leaves_modify, Kahn.mem_leaves_removeLeaf]
  · rw [Kahn.mem_leaves_removeLeaf]

theorem pushAt_eq (k : Kahn) (stack : List Votes) (x : Id) :
    t.pushAt x (k, stack) =
      match t.pendingParent x with
      | none => (taken t k x (k.node x), takenStack t stack x (k.node x))
      | some p =>
        let k' := taken t k x (k.node x)
        let k'' := k'.modify p fun m ↦
          { inDegree := m.inDegree - 1, votes := m.votes.addCount x (k.node x).votes.len }
        (if (k'.node p).inDegree - 1 = 0 then k''.insertLeaf p else k'',
          takenStack t stack x (k.node x)) := by
  unfold pushAt taken takenStack
  by_cases hlen : (k.node x).votes.len ≥ t.params.alphaPreference.toNat
  all_goals
    simp only [Kahn.nodes_removeLeaf, ← Kahn.node.eq_1, hlen, if_true, if_false]
    cases t.pendingParent x with
    | none => rfl
    | some p => exact (apply_ite (fun k ↦ (k, _)) _ _ _).symm

end Pushed

namespace Collected

variable {K D : Finset Id} {x p : Id} {n : KahnNode}

/-- A block that is not the parent of the one taken off collects nothing. -/
theorem insert_of_ne (h : Collected t votes K D p n) (hx : t.pendingParent x ≠ some p) :
    Collected t votes K (insert x D) p n := by
  have hiff : ∀ c, t.pendingParent c = some p → (c ∈ insert x D ↔ c ∈ D) := by
    intro c hc
    refine ⟨fun hmem ↦ ?_, Finset.mem_insert_of_mem⟩
    obtain rfl | hmem := Finset.mem_insert.mp hmem
    · exact absurd hc hx
    · exact hmem
  refine ⟨?_, fun c ↦ ?_, ?_⟩
  · rw [h.inDegree]
    congr 2
    refine Finset.filter_congr fun c _ ↦ and_congr_left fun hc ↦ ?_
    rw [hiff c hc]
  · rw [h.count c]
    by_cases hc : t.pendingParent c = some p
    · simp only [if_pos hc, hiff c hc]
    · rw [if_neg hc, if_neg hc]
  · rw [h.len]
    refine countWhere_congr fun v _ ↦ exists_congr fun c ↦ and_congr_right fun hc ↦ ?_
    rw [hiff c hc]

/-- The parent of the block taken off has one unfinished child less and gets its votes. -/
theorem insert_child (hr : Ranked t.pendingParent rank) (h : Collected t votes K D p n)
    (hx : t.pendingParent x = some p) (hK : x ∈ K) (hD : x ∉ D) :
    Collected t votes K (insert x D) p
      { inDegree := n.inDegree - 1, votes := n.votes.addCount x (t.votesBelow votes x) } := by
  refine ⟨?_, fun c ↦ ?_, ?_⟩
  · have herase : (K.filter fun c ↦ c ∉ insert x D ∧ t.pendingParent c = some p)
        = (K.filter fun c ↦ c ∉ D ∧ t.pendingParent c = some p).erase x := by
      ext c
      simp only [Finset.mem_filter, Finset.mem_erase, Finset.mem_insert, not_or]
      tauto
    have hmem : x ∈ K.filter fun c ↦ c ∉ D ∧ t.pendingParent c = some p :=
      Finset.mem_filter.mpr ⟨hK, hD, hx⟩
    have hpos := Finset.card_pos.mpr ⟨x, hmem⟩
    dsimp only
    rw [h.inDegree, herase, Finset.card_erase_of_mem hmem]
    omega
  · rw [Bag.count_addCount, h.count c]
    by_cases hc : x = c
    · subst hc
      simp [hx, hD]
    · simp [hc, Ne.symm hc]
  · rw [Bag.len_addCount, h.len, votesBelow, ← countWhere_or]
    · refine countWhere_congr fun v _ ↦ ?_
      constructor
      · rintro (⟨c, hc, hv⟩ | hv)
        · exact ⟨c, hc, hv.imp_right fun hv ↦ ⟨Finset.mem_insert_of_mem hv.1, hv.2⟩⟩
        · exact ⟨x, hx, Or.inr ⟨Finset.mem_insert_self _ _, hv⟩⟩
      · rintro ⟨c, hc, rfl | ⟨hmem, hv⟩⟩
        · exact Or.inl ⟨v, hc, Or.inl rfl⟩
        · obtain rfl | hmem := Finset.mem_insert.mp hmem
          · exact Or.inr hv
          · exact Or.inl ⟨c, hc, Or.inr ⟨hmem, hv⟩⟩
    · -- a vote below `x` reaches `p` through `x`, so it was not collected before
      rintro v - ⟨c, hc, hv⟩ hbelow
      have hvc : AtOrBelow t.pendingParent v c := by
        obtain rfl | ⟨-, hv⟩ := hv
        · exact AtOrBelow.refl _
        · exact hv.atOrBelow
      obtain rfl : c = x := hr.child_unique hvc hbelow.atOrBelow hc hx
      obtain rfl | ⟨hmem, -⟩ := hv
      · exact hr.not_below_self _ hbelow
      · exact hD hmem

end Collected

namespace Pushed

variable {K D : Finset Id} {k : Kahn} {stack : List Votes} {x p : Id} {n : KahnNode}

/-- The part of the invariant about the stack. -/
theorem take_stack (hK : Ancestors t votes K) (h : Pushed t votes K D k stack)
    (hx : x ∈ k.leaves) :
    (∀ e ∈ takenStack t stack x (k.node x), Entry t votes e ∧ e.parentId ∈ insert x D) ∧
      (∀ y ∈ insert x D, t.params.alphaPreference.toNat ≤ t.votesBelow votes y →
        ∃ e ∈ takenStack t stack x (k.node x), e.parentId = y) ∧
      (takenStack t stack x (k.node x)).Pairwise fun e e' ↦
        ¬ AtOrBelow t.pendingParent e.parentId e'.parentId := by
  obtain ⟨hlen, hcount⟩ := h.leaf_votes hK hx
  obtain ⟨hxD, hxK, -⟩ := (h.leaves x).mp hx
  have hold : ∀ e ∈ stack, Entry t votes e ∧ e.parentId ∈ insert x D := fun e he ↦
    ⟨(h.entry e he).1, Finset.mem_insert_of_mem (h.entry e he).2⟩
  unfold takenStack
  by_cases hheavy : (k.node x).votes.len ≥ t.params.alphaPreference.toNat
  · rw [if_pos hheavy]
    refine ⟨?_, ?_, List.pairwise_cons.mpr ⟨?_, h.order⟩⟩
    · intro e he
      obtain rfl | he := List.mem_cons.mp he
      · exact ⟨⟨hlen ▸ hheavy, hlen, hcount⟩, Finset.mem_insert_self _ _⟩
      · exact hold e he
    · intro y hy hyheavy
      obtain rfl | hy := Finset.mem_insert.mp hy
      · exact ⟨_, List.mem_cons_self, rfl⟩
      · obtain ⟨e, he, heq⟩ := h.complete y hy hyheavy
        exact ⟨e, List.mem_cons_of_mem _ he, heq⟩
    · exact fun e he hxe ↦ hxD (h.mem_of_atOrBelow hK hxK hxe (h.entry e he).2)
  · rw [if_neg hheavy]
    refine ⟨hold, ?_, h.order⟩
    intro y hy hyheavy
    obtain rfl | hy := Finset.mem_insert.mp hy
    · exact absurd (hlen ▸ hyheavy) hheavy
    · exact h.complete y hy hyheavy

theorem down_insert (h : Pushed t votes K D k stack) (hx : x ∈ k.leaves) :
    ∀ y ∈ insert x D, ∀ c ∈ K, t.pendingParent c = some y → c ∈ insert x D := by
  intro y hy c hc hcy
  obtain rfl | hy := Finset.mem_insert.mp hy
  · exact Finset.mem_insert_of_mem (h.children_done hx hc hcy)
  · exact Finset.mem_insert_of_mem (h.down y hy c hc hcy)

/-- Taking off a block without a pending parent. -/
theorem take_root (hK : Ancestors t votes K) (h : Pushed t votes K D k stack) (hx : x ∈ k.leaves)
    (hup : t.pendingParent x = none) :
    Pushed t votes K (insert x D) (taken t k x (k.node x)) (takenStack t stack x (k.node x)) := by
  have hxK := ((h.leaves x).mp hx).2.1
  obtain ⟨hentry, hcomplete, horder⟩ := h.take_stack hK hx
  refine ⟨?_, h.down_insert hx, fun y hy ↦ ?_, fun y ↦ ?_, hentry, hcomplete, horder⟩
  · rw [keys_taken (h.keys ▸ hxK), h.keys]
  · obtain ⟨hyx, hyD⟩ := not_or.mp (mt Finset.mem_insert.mpr hy)
    rw [node_taken k (Ne.symm hyx)]
    exact (h.node y hyD).insert_of_ne (by simp [hup])
  · rw [mem_leaves_taken, h.leaves y, Finset.mem_insert, not_or]
    by_cases hy : x = y
    · simp [hy]
    · rw [node_taken k hy]
      simp [hy, Ne.symm hy]

/-- Taking off a block and passing its votes on to its parent, which becomes a leaf if this was its
last unfinished child. -/
theorem take_child (hr : Ranked t.pendingParent rank) (hK : Ancestors t votes K)
    (h : Pushed t votes K D k stack) (hx : x ∈ k.leaves) (hup : t.pendingParent x = some p) :
    let k' := taken t k x (k.node x)
    let k'' := k'.modify p fun m ↦
      { inDegree := m.inDegree - 1, votes := m.votes.addCount x (k.node x).votes.len }
    Pushed t votes K (insert x D)
      (if (k'.node p).inDegree - 1 = 0 then k''.insertLeaf p else k'')
      (takenStack t stack x (k.node x)) := by
  intro k' k''
  obtain ⟨hxD, hxK, -⟩ := (h.leaves x).mp hx
  have hpK := hK.closed x hxK p hup
  have hxp : x ≠ p := fun heq ↦ (hr _ _ hup).ne (congrArg rank heq.symm)
  have hpD : p ∉ D := fun hp ↦ hxD (h.down p hp x hxK hup)
  obtain ⟨hentry, hcomplete, horder⟩ := h.take_stack hK hx
  have hkeys : k''.keys = K := by
    have htaken : k'.keys = K := by rw [keys_taken (h.keys ▸ hxK), h.keys]
    rw [Kahn.keys_modify_of_mem (htaken ▸ hpK), htaken]
  have hnode (y : Id) : k''.node y = if p = y then
      { inDegree := (k.node p).inDegree - 1
        votes := (k.node p).votes.addCount x (k.node x).votes.len } else k'.node y := by
    rw [Kahn.node_modify, node_taken k hxp]
  rw [node_taken k hxp]
  set deg := (k.node p).inDegree - 1 with hdeg
  have hleaves (y : Id) : y ∈ (if deg = 0 then k''.insertLeaf p else k'').leaves
      ↔ (deg = 0 ∧ p = y) ∨ (x ≠ y ∧ y ∈ k.leaves) := by
    split
    case isTrue hzero =>
      rw [Kahn.mem_leaves_insertLeaf, Kahn.leaves_modify, mem_leaves_taken]
      simp [hzero]
    case isFalse hzero =>
      rw [Kahn.leaves_modify, mem_leaves_taken]
      simp [hzero]
  have hnodes (y : Id) : (if deg = 0 then k''.insertLeaf p else k'').node y = k''.node y := by
    split <;> rfl
  refine ⟨?_, h.down_insert hx, fun y hy ↦ ?_, fun y ↦ ?_, hentry, hcomplete, horder⟩
  · split <;> exact hkeys
  · obtain ⟨hyx, hyD⟩ := not_or.mp (mt Finset.mem_insert.mpr hy)
    rw [hnodes, hnode]
    by_cases hpy : p = y
    · subst hpy
      rw [if_pos rfl, (h.leaf_votes hK hx).1]
      exact (h.node p hpD).insert_child hr hup hxK hxD
    · rw [if_neg hpy, node_taken k (Ne.symm hyx)]
      exact (h.node y hyD).insert_of_ne fun heq ↦ hpy (Option.some.inj (hup.symm.trans heq))
  · rw [hleaves, hnodes, hnode, h.leaves y, Finset.mem_insert, not_or]
    by_cases hpy : p = y
    · subst hpy
      have hmdeg := (h.node p hpD).inDegree
      have hpos : 0 < (K.filter fun c ↦ c ∉ D ∧ t.pendingParent c = some p).card :=
        Finset.card_pos.mpr ⟨x, Finset.mem_filter.mpr ⟨hxK, hxD, hup⟩⟩
      have hne : (k.node p).inDegree ≠ 0 := by omega
      simp [hne, hpD, hpK, Ne.symm hxp, hdeg]
    · by_cases hxy : x = y
      · simp [hxy, hpy]
      · rw [if_neg hpy, node_taken k hxy]
        simp [hpy, hxy, Ne.symm hxy]

/-- Every sort with an unfinished block has a leaf: an unfinished block of the highest rank. -/
theorem exists_leaf (hr : Ranked t.pendingParent rank) (h : Pushed t votes K D k stack)
    (hne : (K \ D).Nonempty) : ∃ x, x ∈ k.leaves := by
  obtain ⟨x, hx, hmax⟩ := Finset.exists_max_image (K \ D) rank hne
  obtain ⟨hxK, hxD⟩ := Finset.mem_sdiff.mp hx
  refine ⟨x, (h.leaves x).mpr ⟨hxD, hxK, ?_⟩⟩
  rw [(h.node x hxD).inDegree, Finset.filter_eq_empty_iff.mpr]
  · rfl
  · rintro c hc ⟨hcD, hcx⟩
    exact (hr _ _ hcx).not_ge (hmax c (Finset.mem_sdiff.mpr ⟨hc, hcD⟩))

/-- Taking off any of the leaves. -/
theorem take (hr : Ranked t.pendingParent rank) (hK : Ancestors t votes K)
    (h : Pushed t votes K D k stack) (hx : x ∈ k.leaves) :
    Pushed t votes K (insert x D) (t.pushAt x (k, stack)).1 (t.pushAt x (k, stack)).2 ∧
      (K \ insert x D).card < (K \ D).card := by
  obtain ⟨hxD, hxK, -⟩ := (h.leaves x).mp hx
  refine ⟨?_, ?_⟩
  · rw [pushAt_eq]
    cases hup : t.pendingParent x with
    | none => exact h.take_root hK hx hup
    | some p => exact h.take_child hr hK hx hup
  · rw [Finset.sdiff_insert]
    exact Finset.card_erase_lt_of_mem (Finset.mem_sdiff.mpr ⟨hxK, hxD⟩)

/-- With no leaf left, everything is done. -/
theorem sdiff_eq_empty (hr : Ranked t.pendingParent rank) (h : Pushed t votes K D k stack)
    (hleaves : ∀ x, x ∉ k.leaves) : K \ D = ∅ :=
  Finset.not_nonempty_iff_eq_empty.mp fun hne ↦
    (h.exists_leaf hr hne).elim fun x hx ↦ hleaves x hx

/-- One step of the second pass. -/
theorem step (hr : Ranked t.pendingParent rank) (hK : Ancestors t votes K)
    (h : Pushed t votes K D k stack) :
    (t.pushStep (k, stack) = none ∧ K \ D = ∅) ∨
      ∃ s' D', t.pushStep (k, stack) = some s' ∧ Pushed t votes K D' s'.1 s'.2 ∧
        (K \ D').card < (K \ D).card := by
  rw [pushStep_eq_map]
  cases hhead : k.leaves.toList.head? with
  | none =>
    refine Or.inl ⟨rfl, h.sdiff_eq_empty hr fun x hx ↦ ?_⟩
    have hmem := ExtTreeSet.mem_toList.mpr hx
    rw [List.head?_eq_none_iff.mp hhead] at hmem
    cases hmem
  | some x =>
    have hx : x ∈ k.leaves := ExtTreeSet.mem_toList.mp (List.mem_of_head? hhead)
    exact Or.inr ⟨_, insert x D, rfl, h.take hr hK hx⟩

end Pushed

/-- What the vote stack is: the blocks whose proper descendants got the preference threshold, each
above none of the blocks on top of it. -/
structure Stacked (t : Topological F) (votes : Bag Id) (stack : List Votes) : Prop where
  entry : ∀ e ∈ stack, Entry t votes e
  complete : ∀ x, t.params.alphaPreference.toNat ≤ t.votesBelow votes x →
    ∃ e ∈ stack, e.parentId = x
  order : stack.Pairwise fun e e' ↦ ¬ AtOrBelow t.pendingParent e.parentId e'.parentId

/-- When everything is taken off, the stack is complete. -/
theorem Pushed.stacked {K D : Finset Id} {k : Kahn} {stack : List Votes}
    (h : Pushed t votes K D k stack) (hK : Ancestors t votes K)
    (halpha : 0 < t.params.alphaPreference.toNat) (hdone : K \ D = ∅) : Stacked t votes stack where
  entry e he := (h.entry e he).1
  complete x hheavy := by
    have hxK : x ∈ K := by
      by_contra hx
      have := hK.votesBelow_eq_zero hx
      omega
    exact h.complete x (Finset.sdiff_eq_empty_iff_subset.mp hdone hxK) hheavy
  order := h.order

/-- The second pass always ends. -/
theorem exists_pushVotes (hr : Ranked t.pendingParent rank)
    (halpha : 0 < t.params.alphaPreference.toNat) {k : Kahn}
    (h : Sorted t votes votes.list.toFinset none k) :
    ∃ stack, t.pushVotes k = .ok stack ∧ Stacked t votes stack := by
  have hK := h.ancestors
  have hsize : (k.keys \ ∅).card < k.nodes.size + 1 := by
    rw [Finset.sdiff_empty, Nat.lt_succ_iff, ← ExtTreeMap.length_keys]
    exact List.toFinset_card_le _
  obtain ⟨-, s, hrun, -, hstacked⟩ := Loop.run_bounded (e := Fault.diverges)
    (f := fun s ↦ .ok (t.pushStep s))
    (I := fun m (s : Kahn × List Votes) ↦
      ∃ D, Pushed t votes k.keys D s.1 s.2 ∧ (k.keys \ D).card = m)
    (Q := fun s ↦ Stacked t votes s.2)
    (fun m s ⟨D, hs, hm⟩ ↦ by
      obtain ⟨hnone, hempty⟩ | ⟨s', D', hnext, hs', hlt⟩ := hs.step hr hK
      · exact Or.inl ⟨congrArg Except.ok hnone, hs.stacked hK halpha hempty⟩
      · exact Or.inr ⟨_, s', congrArg Except.ok hnext, ⟨D', hs', rfl⟩, hm ▸ hlt⟩)
    (s := (k, [])) ⟨∅, h.pushed, rfl⟩ hsize
  exact ⟨s.2, by rw [pushVotes, hrun]; rfl, hstacked⟩

/-- The empty stack is right for a poll with too few votes. -/
theorem stacked_nil (h : votes.len < t.params.alphaPreference.toNat) : Stacked t votes [] where
  entry := by simp
  complete x hx := by
    have := countWhere_le_length votes.items fun v ↦ Below t.pendingParent v x
    have hlen : votes.items.length = votes.len := rfl
    rw [votesBelow] at hx
    omega
  order := List.Pairwise.nil

/-- The stack `recordPoll` works with. -/
def voteStack (t : Topological F) (voteBag : Bag Id) : Except Fault (List Votes) :=
  if voteBag.len ≥ t.params.alphaPreference.toNat then do
    let k ← t.calculateInDegree voteBag
    t.pushVotes k
  else pure []

theorem exists_voteStack (hr : Ranked t.pendingParent rank)
    (halpha : 0 < t.params.alphaPreference.toNat) (votes : Bag Id) :
    ∃ stack, t.voteStack votes = .ok stack ∧ Stacked t votes stack := by
  unfold voteStack
  by_cases hlen : votes.len ≥ t.params.alphaPreference.toNat
  · obtain ⟨k, hk, hs⟩ := exists_calculateInDegree hr votes
    obtain ⟨stack, hstack, hst⟩ := exists_pushVotes hr halpha hs
    refine ⟨stack, ?_, hst⟩
    rw [if_pos hlen, hk]
    exact hstack
  · rw [if_neg hlen]
    exact ⟨[], rfl, stacked_nil (Nat.lt_of_not_le hlen)⟩

/-! ## One branch -/

/-- Votes below a block are below its parent. -/
theorem votesBelow_le {x p : Id} (hp : AtOrBelow t.pendingParent x p) :
    t.votesBelow votes x ≤ t.votesBelow votes p :=
  countWhere_mono fun _ _ hv ↦ hv.trans_atOrBelow hp

/-- Two blocks that both got the threshold share a vote, so one is above the other. -/
theorem comparable_of_heavy {α : ℕ} {x y : Id} (hα : votes.len < 2 * α)
    (hx : α ≤ t.votesBelow votes x) (hy : α ≤ t.votesBelow votes y) :
    AtOrBelow t.pendingParent x y ∨ AtOrBelow t.pendingParent y x := by
  by_contra hnot
  have hle := countWhere_add_le (l := votes.items) (P := fun v ↦ Below t.pendingParent v x)
    (Q := fun v ↦ Below t.pendingParent v y)
    fun v _ hvx hvy ↦ hnot (hvx.atOrBelow.comparable hvy.atOrBelow)
  rw [votesBelow] at hx hy
  rw [Bag.len] at hα
  omega

/-- The stack of a poll with at most `k` votes is a branch from the last accepted block. -/
theorem Stacked.isChain (hr : Ranked t.pendingParent rank) {stack : List Votes}
    (h : Stacked t votes stack) (hlen : votes.len < 2 * t.params.alphaPreference.toNat) :
    (stack.map Votes.parentId).IsChain (fun a b ↦ t.pendingParent b = some a) ∧
      ∀ a ∈ (stack.map Votes.parentId).head?, t.pendingParent a = none := by
  have hheavy : ∀ a ∈ stack.map Votes.parentId,
      t.params.alphaPreference.toNat ≤ t.votesBelow votes a := by
    intro a ha
    obtain ⟨e, he, rfl⟩ := List.mem_map.mp ha
    exact (h.entry e he).heavy
  refine hr.isChain (List.pairwise_map.mpr h.order) ?_ ?_ (by simp)
  · exact fun a ha b hb ↦ comparable_of_heavy hlen (hheavy a ha) (hheavy b hb)
  · intro a ha p hp
    obtain ⟨e, he, heq⟩ := h.complete p
      ((hheavy a ha).trans (votesBelow_le (below_of_up hp).atOrBelow))
    exact Or.inl (List.mem_map.mpr ⟨e, he, heq⟩)

end Topological

end Avalanche
