import Avalanche.Library.CountWhere
import Avalanche.Snowman.BlockTree

/-!
# Vote propagation

A vote for a block counts for all its ancestors. `calculateInDegree` and `pushVotes` compute this by
a topological sort over the ancestors of the voted blocks: a block is taken off once all its
children in the sort are done, and hands the number of votes it collected on to its parent.

Everything here is about the parent function `pendingParent` and a rank that falls along it.
`Sorted` is what the first pass establishes, vote by vote; `Pushed` is kept by the second pass while
the set of finished blocks grows.
-/

namespace Avalanche

open Std Ancestry

namespace Topological

variable {F : Factory} {t : Topological F} {votes : Bag Id} {rank : Id → ℕ}

/-! ## The sort as a finite map -/

namespace Kahn

variable {k : Kahn}

/-- The blocks in the sort. -/
def keys (k : Kahn) : Finset Id := k.nodes.keys.toFinset

theorem mem_keys {x : Id} : x ∈ k.keys ↔ ∃ n, k.nodes[x]? = some n := by
  rw [keys, List.mem_toFinset, ExtTreeMap.mem_keys, ExtTreeMap.mem_iff_isSome_getElem?,
    Option.isSome_iff_exists]

theorem contains_eq_true_iff {x : Id} : k.nodes.contains x = true ↔ x ∈ k.keys := by
  rw [mem_keys, ← Option.isSome_iff_exists, ← ExtTreeMap.mem_iff_isSome_getElem?,
    ExtTreeMap.contains_iff_mem]

theorem nodes_modify (k : Kahn) (id x : Id) (f : KahnNode → KahnNode) :
    (k.modify id f).nodes[x]?
      = if id = x then some (f (k.nodes[id]?.getD KahnNode.default)) else k.nodes[x]? := by
  simp [modify, ExtTreeMap.getElem?_insert]

@[simp] theorem leaves_modify (k : Kahn) (id : Id) (f : KahnNode → KahnNode) :
    (k.modify id f).leaves = k.leaves := rfl

@[simp] theorem keys_modify (k : Kahn) (id : Id) (f : KahnNode → KahnNode) :
    (k.modify id f).keys = insert id k.keys := by
  ext x
  rw [Finset.mem_insert, mem_keys, mem_keys, nodes_modify]
  by_cases hx : id = x
  · simp [hx]
  · simp [hx, Ne.symm hx]

theorem keys_modify_of_mem {id : Id} (h : id ∈ k.keys) (f : KahnNode → KahnNode) :
    (k.modify id f).keys = k.keys := by
  rw [keys_modify, Finset.insert_eq_of_mem h]

@[simp] theorem nodes_removeLeaf (k : Kahn) (id : Id) : (k.removeLeaf id).nodes = k.nodes := rfl

@[simp] theorem keys_insertLeaf (k : Kahn) (id : Id) : (k.insertLeaf id).keys = k.keys := rfl

@[simp] theorem keys_removeLeaf (k : Kahn) (id : Id) : (k.removeLeaf id).keys = k.keys := rfl

theorem mem_leaves_insertLeaf {id x : Id} :
    x ∈ (k.insertLeaf id).leaves ↔ id = x ∨ x ∈ k.leaves := by
  simp [insertLeaf]

theorem mem_leaves_removeLeaf {id x : Id} :
    x ∈ (k.removeLeaf id).leaves ↔ id ≠ x ∧ x ∈ k.leaves := by
  simp [removeLeaf]

/-- The entry of a block, by default that of one which is not in the sort. -/
def node (k : Kahn) (x : Id) : KahnNode := k.nodes[x]?.getD KahnNode.default

theorem node_modify (k : Kahn) (id x : Id) (f : KahnNode → KahnNode) :
    (k.modify id f).node x = if id = x then f (k.node id) else k.node x := by
  rw [node, nodes_modify]
  split <;> rfl

@[simp] theorem node_insertLeaf (k : Kahn) (id x : Id) : (k.insertLeaf id).node x = k.node x := rfl

@[simp] theorem node_removeLeaf (k : Kahn) (id x : Id) : (k.removeLeaf id).node x = k.node x := rfl

theorem node_of_notMem {x : Id} (h : x ∉ k.keys) : k.node x = KahnNode.default := by
  rw [node]
  cases hn : k.nodes[x]? with
  | none => rfl
  | some n => exact absurd (mem_keys.mpr ⟨n, hn⟩) h

end Kahn

/-! ## The first pass -/

/-- The blocks in the sort that are counted as children of their parents: all but the cursor. -/
def Kahn.counted (k : Kahn) (cursor : Option Id) : Finset Id := k.keys \ cursor.toFinset

/-- The sort after entering the votes for `V`, while the walk towards the last accepted block stands
at `cursor`, which is not yet counted as a child of its parent. -/
structure Sorted (t : Topological F) (votes : Bag Id) (V : Finset Id) (cursor : Option Id)
    (k : Kahn) : Prop where
  entered : ∀ v ∈ V, ∀ p, t.pendingParent v = some p → p ∈ k.keys
  cursor_mem : ∀ c, cursor = some c → c ∈ k.keys
  inDegree : ∀ x, (k.node x).inDegree
    = (((k.counted cursor).filter fun c ↦ t.pendingParent c = some x).card : ℤ)
  leaves : ∀ x, x ∈ k.leaves ↔ x ∈ k.keys ∧ (k.node x).inDegree = 0
  count : ∀ x c, (k.node x).votes.count c
    = if c ∈ V ∧ t.pendingParent c = some x then votes.count c else 0
  len : ∀ x, (k.node x).votes.len
    = countWhere votes.items fun v ↦ v ∈ V ∧ t.pendingParent v = some x

namespace Sorted

theorem empty (t : Topological F) (votes : Bag Id) : Sorted t votes ∅ none ⟨∅, ∅⟩ where
  entered := by simp
  cursor_mem := by simp
  inDegree x := by
    rw [Kahn.counted, show Kahn.keys ⟨∅, ∅⟩ = ∅ from rfl]
    simp [Kahn.node, KahnNode.default]
  leaves := by simp [Kahn.mem_keys]
  count := by simp [Kahn.node, KahnNode.default]
  len := by simp [Kahn.node, KahnNode.default]

variable {V : Finset Id} {k : Kahn} {cursor : Option Id} {c q : Id}

/-- The parent of a block that is counted is in the sort, since it has a child. -/
theorem closed (h : Sorted t votes V cursor k) (hc : c ∈ k.counted cursor)
    (hq : t.pendingParent c = some q) : q ∈ k.keys := by
  by_contra hnot
  have hdeg := h.inDegree q
  rw [Kahn.node_of_notMem hnot] at hdeg
  have hzero : ((k.counted cursor).filter fun c ↦ t.pendingParent c = some q).card = 0 :=
    Int.ofNat_eq_zero.mp hdeg.symm
  exact Finset.filter_eq_empty_iff.mp (Finset.card_eq_zero.mp hzero) hc hq

/-- The walk is over when it reaches a block without a pending parent. -/
theorem stop (h : Sorted t votes V (some c) k) (hc : t.pendingParent c = none) :
    Sorted t votes V none k := by
  refine ⟨h.entered, by simp, fun x ↦ ?_, h.leaves, h.count, h.len⟩
  rw [h.inDegree]
  congr 2
  ext d
  simp only [Kahn.counted, Finset.mem_filter, Finset.mem_sdiff, Option.mem_toFinset]
  refine ⟨fun ⟨hd, hx⟩ ↦ ⟨⟨hd.1, by simp⟩, hx⟩, fun ⟨hd, hx⟩ ↦ ⟨⟨hd.1, fun heq ↦ ?_⟩, hx⟩⟩
  rw [← Option.mem_some.mp heq, hc] at hx
  cases hx

/-- The walk counts the cursor as a child of its parent. -/
theorem inDegree_modify (h : Sorted t votes V (some c) k) (hc : t.pendingParent c = some q)
    {D : Finset Id} (hD : D = insert c (k.counted (some c))) (x : Id) :
    ((k.modify q fun n ↦ { n with inDegree := n.inDegree + 1 }).node x).inDegree
      = ((D.filter fun c ↦ t.pendingParent c = some x).card : ℤ) := by
  have hnot : c ∉ k.counted (some c) := by simp [Kahn.counted]
  rw [Kahn.node_modify, hD, Finset.filter_insert, hc]
  by_cases hx : q = x
  · subst hx
    rw [if_pos rfl, if_pos rfl, Finset.card_insert_of_notMem (by simp [hnot]), h.inDegree]
    rfl
  · rw [if_neg hx, if_neg fun heq ↦ hx (Option.some.inj heq), h.inDegree]

theorem votes_modify (k : Kahn) (x : Id) :
    ((k.modify q fun n ↦ { n with inDegree := n.inDegree + 1 }).node x).votes
    = (k.node x).votes := by
  rw [Kahn.node_modify]
  split
  · rename_i heq
    rw [heq]
  · rfl

/-- The walk meets a block that was seen before. -/
theorem meet (h : Sorted t votes V (some c) k) (hc : t.pendingParent c = some q)
    (hq : q ∈ k.keys) :
    Sorted t votes V none
      ((k.modify q fun n ↦ { n with inDegree := n.inDegree + 1 }).removeLeaf q) := by
  have hkeys := Kahn.keys_modify_of_mem hq fun n ↦ { n with inDegree := n.inDegree + 1 }
  refine ⟨hkeys ▸ h.entered, by simp, fun x ↦ h.inDegree_modify hc ?_ x, fun x ↦ ?_,
    fun x ↦ votes_modify k x ▸ h.count x, fun x ↦ votes_modify k x ▸ h.len x⟩
  · rw [Kahn.counted, Kahn.keys_removeLeaf, hkeys, Kahn.counted]
    simp [Finset.sdiff_singleton_eq_erase, h.cursor_mem c rfl]
  · rw [Kahn.mem_leaves_removeLeaf, Kahn.leaves_modify, h.leaves, Kahn.keys_removeLeaf, hkeys]
    rw [Kahn.node_removeLeaf, Kahn.node_modify]
    split
    · subst x
      refine iff_of_false (fun hne ↦ hne.1 rfl) fun hzero ↦ ?_
      have hdeg := h.inDegree q
      have := hzero.2
      dsimp only at this
      omega
    · simp [*]

/-- The walk enters a new block, whose only child in the sort is the one it comes from. -/
theorem advance (h : Sorted t votes V (some c) k)
    (hc : t.pendingParent c = some q) (hq : q ∉ k.keys) :
    Sorted t votes V (some q) (k.modify q fun n ↦ { n with inDegree := n.inDegree + 1 }) := by
  have hcmem := h.cursor_mem c rfl
  have hkeys := k.keys_modify q fun n ↦ { n with inDegree := n.inDegree + 1 }
  refine ⟨?_, ?_, fun x ↦ h.inDegree_modify hc ?_ x, fun x ↦ ?_,
    fun x ↦ votes_modify k x ▸ h.count x, fun x ↦ votes_modify k x ▸ h.len x⟩
  · rw [hkeys]
    exact fun v hv p hp ↦ Finset.mem_insert_of_mem (h.entered v hv p hp)
  · rw [hkeys]
    exact fun d hd ↦ Finset.mem_insert.mpr (Or.inl (Option.some.inj hd).symm)
  · rw [Kahn.counted, hkeys, Kahn.counted]
    simp [Finset.sdiff_singleton_eq_erase, hcmem, hq]
  · rw [Kahn.leaves_modify, h.leaves, hkeys, Kahn.node_modify, Finset.mem_insert]
    split
    · subst x
      simp [hq, Kahn.node_of_notMem hq, KahnNode.default]
    · simp [*, eq_comm]

/-- Entering a vote for a child of a block: its votes go to the block, which becomes a leaf and the
start of a walk if it was not seen before. -/
theorem enter (h : Sorted t votes V none k) {v : Id} (hv : v ∉ V)
    (hq : t.pendingParent v = some q) :
    let k' := k.modify q fun n ↦ { n with votes := n.votes.addCount v (votes.count v) }
    if q ∈ k.keys then Sorted t votes (insert v V) none k'
    else Sorted t votes (insert v V) (some q) (k'.insertLeaf q) := by
  intro k'
  have hnode (x : Id) : k'.node x = if q = x then
      { k.node q with votes := (k.node q).votes.addCount v (votes.count v) } else k.node x :=
    Kahn.node_modify k q x _
  have hdegree (x : Id) : (k'.node x).inDegree = (k.node x).inDegree := by
    rw [hnode]
    split <;> simp [*]
  have hkeys : k'.keys = insert q k.keys := Kahn.keys_modify _ _ _
  have hcount (x c : Id) : (k'.node x).votes.count c
      = if c ∈ insert v V ∧ t.pendingParent c = some x then votes.count c else 0 := by
    rw [hnode]
    by_cases hx : q = x
    · rw [if_pos hx, Bag.count_addCount, h.count, hx]
      by_cases hc : v = c
      · subst hc
        simp [hv, hq, hx]
      · simp [hc, Ne.symm hc]
    · rw [if_neg hx, h.count]
      by_cases hc : c = v
      · subst hc
        simp [hv, hq, hx]
      · simp [hc]
  have hlen (x : Id) : (k'.node x).votes.len
      = countWhere votes.items fun w ↦ w ∈ insert v V ∧ t.pendingParent w = some x := by
    have hor (w : Id) : (w ∈ insert v V ∧ t.pendingParent w = some x)
        ↔ (w ∈ V ∧ t.pendingParent w = some x) ∨ (w = v ∧ q = x) := by
      by_cases hw : w = v
      · subst hw
        simp [hq, hv]
      · simp [hw]
    rw [hnode, countWhere_congr fun w _ ↦ hor w,
      countWhere_or fun w _ hw (heq : w = v ∧ q = x) ↦ hv (heq.1 ▸ hw.1), ← h.len]
    by_cases hx : q = x
    · simp [hx, Bag.len_addCount, countWhere_eq_count, Bag.count]
    · simp [hx]
  have hentered : ∀ w ∈ insert v V, ∀ p, t.pendingParent w = some p → p ∈ insert q k.keys := by
    intro w hw p hp
    obtain rfl | hw := Finset.mem_insert.mp hw
    · exact Finset.mem_insert.mpr (Or.inl (Option.some.inj (hp.symm.trans hq)))
    · exact Finset.mem_insert_of_mem (h.entered w hw p hp)
  rw [← hkeys] at hentered
  split_ifs with hmem
  · refine ⟨hentered, by simp, fun x ↦ ?_, fun x ↦ ?_, hcount, hlen⟩
    · rw [hdegree, h.inDegree, Kahn.counted, Kahn.counted, hkeys, Finset.insert_eq_of_mem hmem]
    · rw [hdegree, Kahn.leaves_modify, h.leaves, hkeys, Finset.insert_eq_of_mem hmem]
  · refine ⟨hentered, ?_, fun x ↦ ?_, fun x ↦ ?_, hcount, hlen⟩
    · rintro _ ⟨⟩
      exact hkeys ▸ Finset.mem_insert_self _ _
    · refine (hdegree x).trans ((h.inDegree x).trans ?_)
      rw [Kahn.counted, Kahn.counted, Kahn.keys_insertLeaf, hkeys]
      simp [Finset.sdiff_singleton_eq_erase, hmem]
    · rw [Kahn.mem_leaves_insertLeaf, Kahn.leaves_modify, h.leaves, Kahn.keys_insertLeaf, hkeys,
        Finset.mem_insert]
      rw [Kahn.node_insertLeaf, hdegree]
      by_cases hx : q = x
      · subst hx
        simp [Kahn.node_of_notMem hmem, KahnNode.default]
      · simp [hx, Ne.symm hx]

/-- A vote for a block without a pending parent is dropped. -/
theorem skip (h : Sorted t votes V none k) {v : Id} (hv : t.pendingParent v = none) :
    Sorted t votes (insert v V) none k := by
  have hiff (c x : Id) : (c ∈ insert v V ∧ t.pendingParent c = some x)
      ↔ c ∈ V ∧ t.pendingParent c = some x := by
    by_cases hc : c = v
    · simp [hc, hv]
    · simp [hc]
  refine ⟨fun w hw p hp ↦ h.entered w ((hiff w p).mp ⟨hw, hp⟩).1 p hp, h.cursor_mem, h.inDegree,
    h.leaves, ?_, ?_⟩
  · simpa only [hiff] using h.count
  · simpa only [hiff] using h.len

/-- The blocks a walk can still reach from the cursor. -/
def remaining (t : Topological F) (rank : Id → ℕ) : Option Id → ℕ
  | none => 0
  | some c => (t.blocks.keys.toFinset.filter fun x ↦ rank x ≤ rank c).card

theorem inDegreeStep_eq (k : Kahn) (hc : t.pendingParent c = some q) :
    t.inDegreeStep (some c, k) =
      let k' := k.modify q fun n ↦ { n with inDegree := n.inDegree + 1 }
      if q ∈ k.keys then some (none, k'.removeLeaf q) else some (some q, k') := by
  simp only [inDegreeStep, hc, Option.bind_eq_bind, Option.bind_some, Kahn.contains_eq_true_iff]

/-- One step of the walk. -/
theorem step (hr : Ranked t.pendingParent rank) {s : Option Id × Kahn}
    (h : Sorted t votes V s.1 s.2) :
    (t.inDegreeStep s = none ∧ Sorted t votes V none s.2) ∨
      ∃ s', t.inDegreeStep s = some s' ∧ Sorted t votes V s'.1 s'.2 ∧
        remaining t rank s'.1 < remaining t rank s.1 := by
  obtain ⟨cursor, k⟩ := s
  cases cursor with
  | none => exact Or.inl ⟨rfl, h⟩
  | some c =>
    cases hc : t.pendingParent c with
    | none => exact Or.inl ⟨by simp [inDegreeStep, hc], h.stop hc⟩
    | some q =>
      obtain ⟨n, -, hn, -⟩ := pendingParent_eq_some_iff.mp hc
      have hmem := mem_keys_toFinset hn
      have hlt := hr _ _ hc
      refine Or.inr ?_
      rw [inDegreeStep_eq k hc]
      by_cases hq : q ∈ k.keys
      · refine ⟨_, if_pos hq, h.meet hc hq, ?_⟩
        exact Finset.card_pos.mpr ⟨c, Finset.mem_filter.mpr ⟨hmem, le_rfl⟩⟩
      · refine ⟨_, if_neg hq, h.advance hc hq, ?_⟩
        exact Loop.card_filter_lt (fun x (hx : rank x ≤ rank q) ↦ hx.trans hlt.le) hmem
          (le_rfl : rank c ≤ rank c) hlt.not_ge

theorem remaining_le (t : Topological F) (rank : Id → ℕ) (cursor : Option Id) :
    remaining t rank cursor ≤ t.blocks.size := by
  cases cursor with
  | none => exact Nat.zero_le _
  | some c =>
    refine (Finset.card_filter_le _ _).trans ((List.toFinset_card_le _).trans ?_)
    rw [ExtTreeMap.length_keys]

/-- The whole walk. -/
theorem walk (hr : Ranked t.pendingParent rank) (h : Sorted t votes V (some c) k) :
    ∃ k', (Loop.run (fun s ↦ .ok (t.inDegreeStep s)) Fault.diverges (t.blocks.size + 1)
      (some c, k)).map Prod.snd = .ok k' ∧ Sorted t votes V none k' := by
  obtain ⟨s', hrun, -, hstop⟩ := Loop.run_total (e := Fault.diverges)
    (f := fun s ↦ .ok (t.inDegreeStep s))
    (I := fun s : Option Id × Kahn ↦ Sorted t votes V s.1 s.2)
    (Q := fun s ↦ Sorted t votes V none s.2) (μ := fun s ↦ remaining t rank s.1)
    (fun s hs ↦ by
      obtain ⟨hnone, hstop⟩ | ⟨s', hnext, hs', hlt⟩ := hs.step hr
      · exact Or.inl ⟨by rw [hnone], hstop⟩
      · exact Or.inr ⟨s', by rw [hnext], hs', hlt⟩)
    (s := (some c, k)) h (Nat.lt_succ_of_le (remaining_le t rank _))
  exact ⟨s'.2, by rw [hrun]; rfl, hstop⟩

theorem addVote (hr : Ranked t.pendingParent rank) (h : Sorted t votes V none k) {v : Id}
    (hv : v ∉ V) :
    ∃ k', t.addVote votes k v = .ok k' ∧ Sorted t votes (insert v V) none k' := by
  unfold Topological.addVote
  cases hp : t.pendingParent v with
  | none => exact ⟨k, rfl, h.skip hp⟩
  | some q =>
    have henter := h.enter hv hp
    dsimp only at henter ⊢
    by_cases hq : q ∈ k.keys
    · rw [if_pos hq] at henter
      rw [if_pos (Kahn.contains_eq_true_iff.mpr hq)]
      exact ⟨_, rfl, henter⟩
    · rw [if_neg hq] at henter
      rw [if_neg (fun hc ↦ hq (Kahn.contains_eq_true_iff.mp hc))]
      exact henter.walk hr

theorem foldlM (hr : Ranked t.pendingParent rank) {l : List Id} (hl : l.Nodup)
    (h : Sorted t votes V none k) (hdisj : ∀ v ∈ l, v ∉ V) :
    ∃ k', l.foldlM (t.addVote votes) k = .ok k' ∧ Sorted t votes (V ∪ l.toFinset) none k' := by
  induction l generalizing k V with
  | nil => exact ⟨k, rfl, by simpa using h⟩
  | cons v l ih =>
    obtain ⟨hvl, hl⟩ := List.nodup_cons.mp hl
    obtain ⟨k₁, hk₁, hs₁⟩ := h.addVote hr (hdisj v List.mem_cons_self)
    obtain ⟨k₂, hk₂, hs₂⟩ := ih hl hs₁ fun w hw hmem ↦ by
      obtain rfl | hmem := Finset.mem_insert.mp hmem
      · exact hvl hw
      · exact hdisj w (List.mem_cons_of_mem _ hw) hmem
    refine ⟨k₂, by rw [List.foldlM_cons, hk₁]; exact hk₂, ?_⟩
    rwa [List.toFinset_cons, Finset.union_insert, ← Finset.insert_union]

end Sorted

/-- The first pass always ends, with every vote entered. -/
theorem exists_calculateInDegree (hr : Ranked t.pendingParent rank) (votes : Bag Id) :
    ∃ k, t.calculateInDegree votes = .ok k ∧ Sorted t votes votes.list.toFinset none k := by
  obtain ⟨k, hk, hs⟩ := (Sorted.empty t votes).foldlM hr votes.nodup_list (by simp)
  exact ⟨k, hk, by simpa using hs⟩

end Topological

end Avalanche
