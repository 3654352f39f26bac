import Avalanche.Snowman.BlockTree

/-!
# Accepting a block

Accepting the preferred child of the last accepted block rejects every other child with all its
descendants. `Accepted` says what is left: of the tree the part at or below the accepted block, and
in the log one call for each block that is gone.

Callbacks may fail, and then the call returns no state. The results come in two forms: what holds if
a call returns, and that it does return if no callback fails.
-/

namespace Avalanche

open Std Ancestry

namespace Topological

variable {F : Factory} {t u : Topological F}

/-- The block `b` is in the tree. -/
def Holds (t : Topological F) (b : Block) : Prop :=
  ∃ n : SnowmanBlock F, t.blocks[b.id]? = some n ∧ n.blk = some b

theorem Holds.eq {a b : Block} (ha : t.Holds a) (hb : t.Holds b) (hid : a.id = b.id) : a = b := by
  obtain ⟨n, hn, ha⟩ := ha
  obtain ⟨m, hm, hb⟩ := hb
  rw [hid, hm] at hn
  rw [← Option.some.inj hn, hb] at ha
  exact (Option.some.inj ha).symm

namespace WellFormed

variable {n : SnowmanBlock F}

/-- The children listed at a node are blocks of the tree. -/
theorem holds_child (h : t.WellFormed) {id c : Id} {b : Block}
    (hn : t.blocks[id]? = some n) (hc : n.children[c]? = some b) :
    b.id = c ∧ t.Holds b ∧ t.pendingParent b.id = some id := by
  obtain ⟨hid, -, -, -, m, hm, hb⟩ := h.child hn hc
  refine ⟨hid, ⟨m, hid ▸ hm, hb⟩, ?_⟩
  rw [hid]
  exact h.pendingParent_iff_child.mpr ⟨n, b, hn, hc⟩

theorem exists_child (h : t.WellFormed) {id c : Id}
    (hn : t.blocks[id]? = some n) (hc : t.pendingParent c = some id) :
    ∃ b, n.children[c]? = some b := by
  obtain ⟨m, b, hm, hb⟩ := h.pendingParent_iff_child.mp hc
  rw [hn] at hm
  exact ⟨b, Option.some.inj hm ▸ hb⟩

theorem holds_of_mem_children (h : t.WellFormed) {id : Id} {b : Block}
    (hn : t.blocks[id]? = some n) (hb : b ∈ n.children.toList.map Prod.snd) :
    t.Holds b ∧ t.pendingParent b.id = some id := by
  obtain ⟨⟨c, b⟩, hc, rfl⟩ := List.mem_map.mp hb
  exact (h.holds_child hn (ExtTreeMap.mem_toList_iff_getElem?_eq_some.mp hc)).2

/-- The ids of listed children are their keys. -/
theorem map_id_filter_children (h : t.WellFormed) {id : Id}
    (hn : t.blocks[id]? = some n) (keep : Id × Block → Bool) :
    ((n.children.toList.filter keep).map Prod.snd).map Block.id
      = (n.children.toList.filter keep).map Prod.fst := by
  rw [List.map_map]
  refine List.map_congr_left fun c hc ↦ ?_
  have hmem := (List.mem_filter.mp hc).1
  exact (h.holds_child hn (ExtTreeMap.mem_toList_iff_getElem?_eq_some.mp hmem)).1

end WellFormed

/-! ## Rejecting blocks -/

theorem callback_eq_ok_iff {r : Except SnowError Unit} : callback r = .ok () ↔ r = .ok () := by
  unfold callback
  split <;> simp

theorem rejectBlocks_eq_ok_iff {log log' : List Decision} {bs : List Block} :
    rejectBlocks log bs = .ok log' ↔
      (∀ b ∈ bs, b.reject = .ok ()) ∧ log' = log ++ bs.map Decision.reject := by
  induction bs generalizing log with
  | nil => simp [rejectBlocks, eq_comm]
  | cons b bs ih =>
    rw [rejectBlocks, List.forall_mem_cons]
    cases hb : callback b.reject with
    | error e =>
      have hne : b.reject ≠ .ok () := fun heq ↦ by simp [callback_eq_ok_iff.mpr heq] at hb
      simp [hne, Bind.bind, Except.bind]
    | ok v =>
      have hok : b.reject = .ok () := callback_eq_ok_iff.mp hb
      simp [ih, hok]

/-- Rejecting transitively from `start`, with the ids of `R` taken out of the tree `t` so far and
the blocks of `rej` rejected. The stack `s.2` holds the rejected ones that are still in the tree. -/
structure Rejecting (t u : Topological F) (start : List Id) (R : Finset Id) (rej : List Block)
    (s : Topological F × List Id) : Prop where
  rest : s.1 = { u with blocks := s.1.blocks, log := u.log ++ rej.map Decision.reject }
  blocks : ∀ id : Id, s.1.blocks[id]? = if id ∈ R then none else t.blocks[id]?
  stack_nodup : s.2.Nodup
  stack_notMem : ∀ x ∈ s.2, x ∉ R
  rej_nodup : (rej.map Block.id).Nodup
  mem_rej : ∀ x, x ∈ rej.map Block.id ↔ x ∈ R ∨ x ∈ s.2
  holds : ∀ b ∈ rej, t.Holds b
  origin : ∀ x, x ∈ R ∨ x ∈ s.2 → x ∈ start ∨ ∃ p ∈ R, t.pendingParent x = some p
  closed : ∀ x, ∀ p ∈ R, t.pendingParent x = some p → x ∈ R ∨ x ∈ s.2
  start_mem : ∀ x ∈ start, x ∈ R ∨ x ∈ s.2

namespace Rejecting

variable {start : List Id} {R : Finset Id} {rej : List Block} {s : Topological F × List Id}
  {x : Id} {n : SnowmanBlock F}

theorem init (hu : u.blocks = t.blocks) {sibs : List Block} (hnodup : (sibs.map Block.id).Nodup)
    (hholds : ∀ b ∈ sibs, t.Holds b) :
    Rejecting t u (sibs.map Block.id) ∅ sibs
      ({ u with log := u.log ++ sibs.map Decision.reject }, (sibs.map Block.id).reverse) where
  rest := rfl
  blocks id := by simp [hu]
  stack_nodup := List.nodup_reverse.mpr hnodup
  stack_notMem := by simp
  rej_nodup := hnodup
  mem_rej x := by simp
  holds := hholds
  origin x hx := by simpa using hx
  closed := by simp
  start_mem x hx := by simpa using hx

/-- Taking one block out. -/
theorem take (hw : t.WellFormed) {v : Topological F} {xs : List Id}
    (h : Rejecting t u start R rej (v, x :: xs)) (hn : t.blocks[x]? = some n)
    (hstart : ∀ c ∈ start, t.pendingParent c ≠ some x) :
    let kids := n.children.toList.map Prod.snd
    Rejecting t u start (insert x R) (rej ++ kids)
      ({ v with blocks := v.blocks.erase x, log := v.log ++ kids.map Decision.reject },
        n.children.keys.reverse ++ xs) := by
  intro kids
  obtain ⟨hxs, hxsn⟩ := List.nodup_cons.mp h.stack_nodup
  have hxR : x ∉ R := h.stack_notMem x List.mem_cons_self
  have hids : kids.map Block.id = n.children.keys := by
    simpa [kids] using hw.map_id_filter_children hn fun _ ↦ true
  have hkid : ∀ c, c ∈ n.children.keys ↔ t.pendingParent c = some x := by
    intro c
    rw [ExtTreeMap.mem_keys, ExtTreeMap.mem_iff_isSome_getElem?, Option.isSome_iff_exists]
    exact ⟨fun ⟨b, hb⟩ ↦ hw.pendingParent_iff_child.mpr ⟨n, b, hn, hb⟩, hw.exists_child hn⟩
  -- the children of `x` were not rejected before, since `x` was still in the tree
  have hfresh : ∀ c ∈ n.children.keys, ¬ (c ∈ R ∨ c ∈ x :: xs) := by
    intro c hc hmem
    obtain hcs | ⟨p, hp, hcp⟩ := h.origin c hmem
    · exact hstart c hcs ((hkid c).mp hc)
    · rw [(hkid c).mp hc] at hcp
      exact hxR (Option.some.inj hcp ▸ hp)
  constructor
  case rest =>
    have hlog : v.log = u.log ++ rej.map Decision.reject := congrArg Topological.log h.rest
    have hrest := h.rest
    dsimp only at hrest ⊢
    rw [hlog, List.map_append, ← List.append_assoc]
    conv_lhs => rw [hrest]
  case blocks =>
    intro id
    rw [ExtTreeMap.getElem?_erase, h.blocks id]
    by_cases hid : x = id
    · simp [hid]
    · simp [hid, Ne.symm hid]
  case stack_nodup =>
    refine List.nodup_append.mpr ⟨List.nodup_reverse.mpr ExtTreeMap.nodup_keys, hxsn, ?_⟩
    rintro a ha b hb rfl
    exact hfresh a (List.mem_reverse.mp ha) (Or.inr (List.mem_cons_of_mem _ hb))
  case stack_notMem =>
    intro y hy hmem
    obtain hkeys | hxs' : y ∈ n.children.keys.reverse ∨ y ∈ xs := List.mem_append.mp hy
    · refine hfresh y (List.mem_reverse.mp hkeys) ?_
      obtain rfl | hmem := Finset.mem_insert.mp hmem
      · exact Or.inr List.mem_cons_self
      · exact Or.inl hmem
    · obtain rfl | hmem := Finset.mem_insert.mp hmem
      · exact hxs hxs'
      · exact h.stack_notMem y (List.mem_cons_of_mem _ hxs') hmem
  case rej_nodup =>
    rw [List.map_append, hids]
    refine List.nodup_append.mpr ⟨h.rej_nodup, ExtTreeMap.nodup_keys, ?_⟩
    rintro a ha b hb rfl
    exact hfresh a hb ((h.mem_rej a).mp ha)
  case mem_rej =>
    intro y
    rw [List.map_append, List.mem_append, hids, h.mem_rej y]
    simp only [List.mem_cons, Finset.mem_insert, List.mem_append, List.mem_reverse]
    tauto
  case holds =>
    intro b hb
    obtain hb | hb := List.mem_append.mp hb
    · exact h.holds b hb
    · exact (hw.holds_of_mem_children hn hb).1
  case origin =>
    intro y hy
    have hcases : y ∈ n.children.keys ∨ y ∈ R ∨ y ∈ x :: xs := by
      simp only [Finset.mem_insert, List.mem_append, List.mem_reverse, List.mem_cons] at hy ⊢
      tauto
    obtain hy | hy := hcases
    · exact Or.inr ⟨x, Finset.mem_insert_self _ _, (hkid y).mp hy⟩
    · exact (h.origin y hy).imp_right fun ⟨p, hp, hyp⟩ ↦ ⟨p, Finset.mem_insert_of_mem hp, hyp⟩
  case closed =>
    intro y p hp hyp
    simp only [Finset.mem_insert, List.mem_append, List.mem_reverse]
    obtain rfl | hp := Finset.mem_insert.mp hp
    · exact Or.inr (Or.inl ((hkid y).mpr hyp))
    · have := h.closed y p hp hyp
      simp only [List.mem_cons] at this
      tauto
  case start_mem =>
    intro y hy
    have := h.start_mem y hy
    simp only [Finset.mem_insert, List.mem_append, List.mem_cons] at this ⊢
    tauto

/-- A block that waits to be taken out is still in the tree. -/
theorem exists_of_mem (h : Rejecting t u start R rej s) (hx : x ∈ s.2) :
    ∃ n, t.blocks[x]? = some n ∧ s.1.blocks[x]? = some n := by
  obtain ⟨b, hb, rfl⟩ := List.mem_map.mp ((h.mem_rej x).mpr (Or.inr hx))
  obtain ⟨n, hn, -⟩ := h.holds b hb
  exact ⟨n, hn, by rw [h.blocks, if_neg (h.stack_notMem _ hx), hn]⟩

/-- When nothing waits, all descendants of the first blocks are gone, and only they. -/
theorem mem_rej_iff (hw : t.WellFormed) (h : Rejecting t u start R rej s) (hs : s.2 = []) :
    x ∈ rej.map Block.id ↔ ∃ c ∈ start, AtOrBelow t.pendingParent x c := by
  have hR (y : Id) : y ∈ R ∨ y ∈ s.2 ↔ y ∈ R := by simp [hs]
  rw [h.mem_rej, hR]
  constructor
  · intro hx
    induction hk : t.heightOf x using Nat.strong_induction_on generalizing x with
    | _ k ih =>
      obtain hstart | ⟨p, hp, hxp⟩ := h.origin x (Or.inl hx)
      · exact ⟨x, hstart, AtOrBelow.refl x⟩
      · obtain ⟨c, hc, hpc⟩ := ih _ (hk ▸ hw.ranked _ _ hxp) hp rfl
        exact ⟨c, hc, (below_of_up hxp).atOrBelow.trans hpc⟩
  · rintro ⟨c, hc, hxc⟩
    induction hxc using Relation.ReflTransGen.head_induction_on with
    | refl => exact (hR c).mp (h.start_mem c hc)
    | head hstep _ ih => exact (hR _).mp (h.closed _ _ ih hstep)

/-- The blocks rejecting starts from are children of the last accepted block, so no block that waits
is a parent of one. -/
theorem ne_pendingParent (hw : t.WellFormed) (h : Rejecting t u start R rej s)
    (hstart : ∀ c ∈ start, t.pendingParent c = some t.lastAcceptedId) (hx : x ∈ s.2) :
    ∀ c ∈ start, t.pendingParent c ≠ some x := by
  intro c hc hcx
  rw [hstart c hc] at hcx
  obtain rfl := Option.some.inj hcx
  have hroot := hw.pendingParent_root
  obtain hs | ⟨p, -, hp⟩ := h.origin _ (Or.inr hx)
  · rw [hstart _ hs] at hroot
    cases hroot
  · cases hp.symm.trans hroot

theorem step (hw : t.WellFormed) (h : Rejecting t u start R rej s)
    (hstart : ∀ c ∈ start, t.pendingParent c = some t.lastAcceptedId) :
    (s.2 = [] ∧ rejectStep s = .ok none) ∨
      ∃ x n, x ∈ s.2 ∧ t.blocks[x]? = some n ∧ ∃ s' rej',
        Rejecting t u start (insert x R) rej' s' ∧ s'.1.blocks.size < s.1.blocks.size ∧
        rejectStep s = (rejectBlocks s.1.log (n.children.toList.map Prod.snd)).map
          fun _ ↦ some s' := by
  obtain ⟨v, stack⟩ := s
  cases stack with
  | nil => exact Or.inl ⟨rfl, rfl⟩
  | cons x xs =>
    obtain ⟨n, hn, hvn⟩ := h.exists_of_mem (x := x) List.mem_cons_self
    refine Or.inr ⟨x, n, List.mem_cons_self, hn, _, _,
      h.take hw hn (h.ne_pendingParent hw hstart List.mem_cons_self), ?_, ?_⟩
    · have hmem : x ∈ v.blocks := ExtTreeMap.mem_iff_isSome_getElem?.mpr (by
        rw [hvn]
        rfl)
      have hpos : v.blocks.size ≠ 0 :=
        mt ExtTreeMap.eq_empty_iff_size_eq_zero.mpr (ExtTreeMap.ne_empty_of_mem hmem)
      dsimp only
      rw [ExtTreeMap.size_erase, if_pos (ExtTreeMap.contains_iff_mem.mpr hmem)]
      omega
    · have hstep : rejectStep (v, x :: xs) = (do
          let log ← rejectBlocks v.log (n.children.toList.map Prod.snd)
          .ok (some ({ v with blocks := v.blocks.erase x, log := log },
            n.children.keys.reverse ++ xs))) := by
        simp only [rejectStep, hvn]
      rw [hstep]
      cases hlog : rejectBlocks v.log (n.children.toList.map Prod.snd) with
      | error e => rfl
      | ok log =>
        rw [(rejectBlocks_eq_ok_iff.mp hlog).2]
        rfl

end Rejecting

section RejectTransitively

variable {sibs : List Block} (hw : t.WellFormed) (hu : u.blocks = t.blocks)
  (hnodup : (sibs.map Block.id).Nodup) (hholds : ∀ b ∈ sibs, t.Holds b)
  (hup : ∀ c ∈ sibs.map Block.id, t.pendingParent c = some t.lastAcceptedId)
include hw hu hnodup hholds hup

/-- What rejecting transitively does, if it returns. -/
theorem rejectTransitively_spec {t' : Topological F}
    (hrun : rejectTransitively { u with log := u.log ++ sibs.map Decision.reject }
      (sibs.map Block.id) = .ok t') :
    ∃ rej : List Block,
      t' = { u with blocks := t'.blocks, log := u.log ++ rej.map Decision.reject } ∧
      (rej.map Block.id).Nodup ∧ (∀ b ∈ rej, t.Holds b) ∧
      (∀ x, x ∈ rej.map Block.id ↔ ∃ c ∈ sibs.map Block.id, AtOrBelow t.pendingParent x c) ∧
      ∀ id : Id, t'.blocks[id]? = if id ∈ rej.map Block.id then none else t.blocks[id]? := by
  obtain ⟨s, hs, rfl⟩ := Except.map_eq_ok_iff.mp hrun
  obtain ⟨⟨R, rej, hinv⟩, hdone⟩ := Loop.run_inv
    (I := fun s ↦ ∃ R rej, Rejecting t u (sibs.map Block.id) R rej s)
    (fun s s' ⟨R, rej, h⟩ hnext ↦ by
      obtain ⟨-, hnone⟩ | ⟨x, n, -, -, s₁, rej₁, h₁, -, heq⟩ := h.step hw hup
      · cases hnone.symm.trans hnext
      · obtain ⟨-, -, hs₁⟩ := Except.map_eq_ok_iff.mp (heq ▸ hnext)
        exact ⟨_, _, Option.some.inj hs₁ ▸ h₁⟩)
    ⟨∅, sibs, Rejecting.init hu hnodup hholds⟩ hs
  have hempty : s.2 = [] := by
    obtain ⟨hnil, -⟩ | ⟨x, n, -, -, s₁, rej₁, -, -, heq⟩ := hinv.step hw hup
    · exact hnil
    · obtain ⟨-, -, hs₁⟩ := Except.map_eq_ok_iff.mp (heq ▸ hdone)
      cases hs₁
  refine ⟨rej, hinv.rest, hinv.rej_nodup, hinv.holds, fun x ↦ hinv.mem_rej_iff hw hempty, ?_⟩
  intro id
  rw [hinv.blocks id]
  congr 1
  rw [eq_iff_iff, hinv.mem_rej]
  simp [hempty]

/-- Rejecting transitively returns if no call fails. -/
theorem exists_rejectTransitively (hok : ∀ b, t.Holds b → b.reject = .ok ()) :
    ∃ t', rejectTransitively { u with log := u.log ++ sibs.map Decision.reject }
      (sibs.map Block.id) = .ok t' := by
  obtain ⟨s, hs, -⟩ := Loop.run_total (f := rejectStep) (e := Fault.diverges)
    (I := fun s ↦ ∃ R rej, Rejecting t u (sibs.map Block.id) R rej s) (Q := fun s ↦ s.2 = [])
    (μ := fun s ↦ s.1.blocks.size)
    (fun s ⟨R, rej, h⟩ ↦ by
      obtain ⟨hnil, hnone⟩ | ⟨x, n, -, hn, s₁, rej₁, h₁, hlt, heq⟩ := h.step hw hup
      · exact Or.inl ⟨hnone, hnil⟩
      · have hkids : ∀ b ∈ n.children.toList.map Prod.snd, b.reject = .ok () := fun b hb ↦
          hok b (hw.holds_of_mem_children hn hb).1
        refine Or.inr ⟨s₁, ?_, ⟨_, _, h₁⟩, hlt⟩
        rw [heq, rejectBlocks_eq_ok_iff.mpr ⟨hkids, rfl⟩]
        rfl)
    ⟨∅, sibs, Rejecting.init hu hnodup hholds⟩
    (show u.blocks.size < u.blocks.size + (sibs.map Block.id).length + 1 by omega)
  exact ⟨s.1, by rw [rejectTransitively, hs]; rfl⟩

end RejectTransitively

/-! ## Accepting -/

/-- The block `b` was accepted, all blocks not at or below it were rejected, and the parent of `b`
was taken out. -/
structure Accepted (t t' : Topological F) (b : Block) : Prop where
  holds : t.Holds b
  parent : t.pendingParent b.id = some t.lastAcceptedId
  /-- The accepted block is the one the last accepted block's tree prefers. -/
  preferred : ∃ n sb, t.blocks[t.lastAcceptedId]? = some n ∧ n.sb = some sb ∧ sb.preference = b.id
  rest : t' = { t with
    lastAcceptedId := b.id
    lastAcceptedHeight := b.height
    preferredIds := t.preferredIds.erase b.id
    preferredHeights := t.preferredHeights.erase b.height
    blocks := t'.blocks
    log := t'.log }
  kept : ∀ {id : Id}, AtOrBelow t.pendingParent id b.id → t'.blocks[id]? = t.blocks[id]?
  removed : ∀ {id : Id}, ¬ AtOrBelow t.pendingParent id b.id → t'.blocks[id]? = none
  log : ∃ rej : List Block,
    t'.log = t.log ++ [Decision.acceptor b.id b.bytes, Decision.accept b]
      ++ rej.map Decision.reject ∧
      (rej.map Block.id).Nodup ∧
      ∀ c, c ∈ rej ↔ t.Holds c ∧ c.id ≠ t.lastAcceptedId ∧ ¬ AtOrBelow t.pendingParent c.id b.id

/-- The state between the calls for the accepted block and those for its siblings. -/
def acceptChild (t : Topological F) (b : Block) : Topological F :=
  { t with
    lastAcceptedId := b.id
    lastAcceptedHeight := b.height
    preferredIds := t.preferredIds.erase b.id
    preferredHeights := t.preferredHeights.erase b.height
    log := t.log ++ [Decision.acceptor b.id b.bytes, Decision.accept b] }

/-- The children other than `pref`. -/
def siblings (n : SnowmanBlock F) (pref : Id) : List (Id × Block) :=
  n.children.toList.filter fun c ↦ c.1 ≠ pref

theorem mem_siblings {n : SnowmanBlock F} {pref c : Id} {b : Block} :
    (c, b) ∈ siblings n pref ↔ n.children[c]? = some b ∧ c ≠ pref := by
  rw [siblings, List.mem_filter, ExtTreeMap.mem_toList_iff_getElem?_eq_some]
  simp

section Accept

variable {n : SnowmanBlock F} {sb : Tree F} {b : Block}

theorem acceptPreferredChild_eq (hw : t.WellFormed) (hn : t.blocks[t.lastAcceptedId]? = some n)
    (hsb : n.sb = some sb) (hb : n.children[sb.preference]? = some b) :
    t.acceptPreferredChild t.lastAcceptedId = (do
      callback (t.blockAcceptor b.id b.bytes)
      callback b.accept
      let log ← rejectBlocks (t.acceptChild b).log ((siblings n b.id).map Prod.snd)
      rejectTransitively { t.acceptChild b with log := log } ((siblings n b.id).map Prod.fst)) := by
  obtain ⟨hid, -⟩ := hw.holds_child hn hb
  rw [acceptPreferredChild, hn]
  simp only [hsb, Option.map_some, Option.getD_some, hb]
  rw [← hid]
  rfl

theorem nodup_siblings (n : SnowmanBlock F) (pref : Id) :
    ((siblings n pref).map Prod.fst).Nodup := by
  have hkeys : (n.children.toList.map Prod.fst).Nodup := by
    rw [ExtTreeMap.map_fst_toList_eq_keys]
    exact ExtTreeMap.nodup_keys
  exact hkeys.sublist (List.filter_sublist.map _)

theorem WellFormed.map_id_siblings (hw : t.WellFormed) {id : Id} (hn : t.blocks[id]? = some n)
    (pref : Id) :
    ((siblings n pref).map Prod.snd).map Block.id = (siblings n pref).map Prod.fst :=
  hw.map_id_filter_children hn _

theorem WellFormed.holds_siblings (hw : t.WellFormed) {id : Id} (hn : t.blocks[id]? = some n)
    (pref : Id) :
    ∀ a ∈ (siblings n pref).map Prod.snd, t.Holds a ∧ t.pendingParent a.id = some id := by
  intro a ha
  exact hw.holds_of_mem_children hn ((List.filter_sublist.map _).subset ha)

theorem accepted_of_acceptPreferredChild (hw : t.WellFormed)
    (hn : t.blocks[t.lastAcceptedId]? = some n) (hsb : n.sb = some sb)
    (hb : n.children[sb.preference]? = some b) {t₁ : Topological F}
    (h : t.acceptPreferredChild t.lastAcceptedId = .ok t₁) :
    Accepted t { t₁ with blocks := t₁.blocks.erase t.lastAcceptedId } b := by
  obtain ⟨hid, hholds, hparent⟩ := hw.holds_child hn hb
  have hids := hw.map_id_siblings hn b.id
  have hsibs := hw.holds_siblings hn b.id
  rw [acceptPreferredChild_eq hw hn hsb hb] at h
  obtain ⟨-, -, h⟩ := Except.bind_eq_ok_iff.mp h
  obtain ⟨-, -, h⟩ := Except.bind_eq_ok_iff.mp h
  obtain ⟨log, hlog, h⟩ := Except.bind_eq_ok_iff.mp h
  rw [(rejectBlocks_eq_ok_iff.mp hlog).2, ← hids] at h
  obtain ⟨rej, hrest, hnodup, hrejholds, hmem, hblocks⟩ :=
    rejectTransitively_spec (u := t.acceptChild b) hw rfl (hids ▸ nodup_siblings n b.id)
      (fun a ha ↦ (hsibs a ha).1) (List.forall_mem_map.mpr fun a ha ↦ (hsibs a ha).2) h
  -- a pending block is below the accepted one or below one of its siblings
  have hside : ∀ {id : Id}, Below t.pendingParent id t.lastAcceptedId →
      (id ∈ rej.map Block.id ↔ ¬ AtOrBelow t.pendingParent id b.id) := by
    intro id hbelow
    rw [hmem]
    constructor
    · rintro ⟨c, hc, hidc⟩ hidb
      obtain ⟨a, ha, rfl⟩ := List.mem_map.mp hc
      have heq := hw.ranked.child_unique hidc hidb (hsibs a ha).2 hparent
      obtain ⟨⟨c, a⟩, hca, rfl⟩ := List.mem_map.mp ha
      obtain ⟨hchild, hne⟩ := mem_siblings.mp hca
      exact hne ((hw.holds_child hn hchild).1.symm.trans heq)
    · intro hnot
      obtain ⟨c, hidc, hc⟩ := below_iff_child.mp hbelow
      obtain ⟨a, ha⟩ := hw.exists_child hn hc
      have hac : a.id = c := (hw.holds_child hn ha).1
      have hcb : c ≠ b.id := fun heq ↦ hnot (heq ▸ hidc)
      exact ⟨c, List.mem_map.mpr ⟨a, List.mem_map.mpr ⟨(c, a), mem_siblings.mpr ⟨ha, hcb⟩, rfl⟩,
        hac⟩, hidc⟩
  have hbelow : ∀ {id : Id}, AtOrBelow t.pendingParent id b.id →
      Below t.pendingParent id t.lastAcceptedId := fun hle ↦ hle.trans_below (below_of_up hparent)
  constructor
  case holds => exact hholds
  case parent => exact hparent
  case preferred => exact ⟨n, sb, hn, hsb, hid.symm⟩
  case rest =>
    rw [hrest]
    rfl
  case kept =>
    intro id hle
    have hne : t.lastAcceptedId ≠ id := fun heq ↦
      hw.ranked.not_below_self _ (hbelow (heq ▸ hle))
    have hnot : id ∉ rej.map Block.id := fun hrej ↦ (hside (hbelow hle)).mp hrej hle
    rw [ExtTreeMap.getElem?_erase, hblocks, if_neg hnot]
    simp [hne]
  case removed =>
    intro id hnot
    rw [ExtTreeMap.getElem?_erase, hblocks]
    by_cases hid : t.lastAcceptedId = id
    · simp [hid]
    · cases hidn : t.blocks[id]? with
      | none => simp
      | some m => simp [(hside (hw.below_root hidn (Ne.symm hid))).mpr hnot]
  case log =>
    refine ⟨rej, ?_, hnodup, fun c ↦ ⟨fun hc ↦ ?_, ?_⟩⟩
    · rw [hrest]
      rfl
    · have hcmem := List.mem_map_of_mem (f := Block.id) hc
      obtain ⟨d, hd, hcd⟩ := (hmem c.id).mp hcmem
      obtain ⟨a, ha, rfl⟩ := List.mem_map.mp hd
      have hcb := hcd.trans_below (below_of_up (hsibs a ha).2)
      refine ⟨hrejholds c hc, fun heq ↦ ?_, (hside hcb).mp hcmem⟩
      rw [heq] at hcb
      exact hw.ranked.not_below_self _ hcb
    · rintro ⟨⟨m, hm, hmc⟩, hne, hnot⟩
      obtain ⟨c', hc', heq⟩ := List.mem_map.mp ((hside (hw.below_root hm hne)).mpr hnot)
      obtain rfl : c' = c := (hrejholds c' hc').eq ⟨m, hm, hmc⟩ heq
      exact hc'

/-- Accepting returns if no callback fails. -/
theorem exists_acceptPreferredChild (hw : t.WellFormed)
    (hn : t.blocks[t.lastAcceptedId]? = some n) (hsb : n.sb = some sb)
    (hb : n.children[sb.preference]? = some b)
    (hacceptor : t.blockAcceptor b.id b.bytes = .ok ()) (haccept : b.accept = .ok ())
    (hok : ∀ b, t.Holds b → b.reject = .ok ()) :
    ∃ t₁, t.acceptPreferredChild t.lastAcceptedId = .ok t₁ := by
  have hids := hw.map_id_siblings hn b.id
  have hsibs := hw.holds_siblings hn b.id
  obtain ⟨t₁, ht₁⟩ := exists_rejectTransitively (u := t.acceptChild b) hw rfl
    (hids ▸ nodup_siblings n b.id) (fun a ha ↦ (hsibs a ha).1)
    (List.forall_mem_map.mpr fun a ha ↦ (hsibs a ha).2) hok
  refine ⟨t₁, ?_⟩
  rw [acceptPreferredChild_eq hw hn hsb hb, callback_eq_ok_iff.mpr hacceptor,
    callback_eq_ok_iff.mpr haccept,
    rejectBlocks_eq_ok_iff.mpr ⟨fun a ha ↦ hok a (hsibs a ha).1, rfl⟩, ← ht₁, hids]
  rfl

end Accept

namespace Accepted

variable {t' : Topological F} {b : Block} {id : Id}

theorem ne_root (hw : t.WellFormed) (h : Accepted t t' b) : b.id ≠ t.lastAcceptedId := fun heq ↦ by
  have hparent := h.parent
  rw [heq, hw.pendingParent_root] at hparent
  cases hparent

theorem lastAcceptedId (h : Accepted t t' b) : t'.lastAcceptedId = b.id := by rw [h.rest]

theorem lastAcceptedHeight (h : Accepted t t' b) : t'.lastAcceptedHeight = b.height := by
  rw [h.rest]

theorem params (h : Accepted t t' b) : t'.params = t.params := by rw [h.rest]

theorem heightOf_accepted (hw : t.WellFormed) (h : Accepted t t' b) :
    t.heightOf b.id = b.height := by
  obtain ⟨n, hn, hb⟩ := h.holds
  simp [Topological.heightOf, h.ne_root hw, hn, hb]

/-- The last accepted block is above what is kept. -/
theorem not_root_atOrBelow (hw : t.WellFormed) (h : Accepted t t' b) :
    ¬ AtOrBelow t.pendingParent t.lastAcceptedId b.id := fun hle ↦
  hw.ranked.not_below_self _ (hle.trans_below (below_of_up h.parent))

theorem ne_root_of_atOrBelow (hw : t.WellFormed) (h : Accepted t t' b)
    (hle : AtOrBelow t.pendingParent id b.id) : id ≠ t.lastAcceptedId := fun heq ↦
  h.not_root_atOrBelow hw (heq ▸ hle)

theorem of_some (h : Accepted t t' b) {n : SnowmanBlock F} (hn : t'.blocks[id]? = some n) :
    AtOrBelow t.pendingParent id b.id ∧ t.blocks[id]? = some n := by
  by_cases hle : AtOrBelow t.pendingParent id b.id
  · exact ⟨hle, (h.kept hle).symm.trans hn⟩
  · rw [h.removed hle] at hn
    cases hn

theorem heightOf_eq (hw : t.WellFormed) (h : Accepted t t' b)
    (hle : AtOrBelow t.pendingParent id b.id) : t'.heightOf id = t.heightOf id := by
  by_cases hid : id = b.id
  · rw [hid, h.heightOf_accepted hw, Topological.heightOf, h.lastAcceptedId, if_pos rfl,
      h.lastAcceptedHeight]
  · rw [Topological.heightOf, Topological.heightOf, h.lastAcceptedId, if_neg hid,
      if_neg (h.ne_root_of_atOrBelow hw hle), h.kept hle]

theorem wellFormed (hw : t.WellFormed) (h : Accepted t t' b) : t'.WellFormed := by
  constructor
  case root =>
    obtain ⟨n, hn, hb⟩ := h.holds
    refine ⟨n, by rw [h.lastAcceptedId, h.kept (AtOrBelow.refl _), hn], ?_⟩
    simp [SnowmanBlock.decided, hb, h.lastAcceptedHeight]
  case pending =>
    intro id n hn hid
    rw [h.lastAcceptedId] at hid
    obtain ⟨hle, hn⟩ := h.of_some hn
    obtain ⟨c, hc, -, pn, hpn, hchild⟩ := hw.pending hn (h.ne_root_of_atOrBelow hw hle)
    have hup : t.pendingParent id = some c.parent :=
      hw.pendingParent_iff.mpr ⟨h.ne_root_of_atOrBelow hw hle, n, c, hn, hc, rfl⟩
    obtain heq | hbelow := atOrBelow_iff.mp hle
    · exact absurd heq hid
    refine ⟨c, hc, ?_, pn, (h.kept ((below_iff_of_up hup).mp hbelow)).trans hpn, hchild⟩
    have hlt := hw.ranked.lt_of_below hbelow
    have hheight : t.heightOf id = c.height := by
      simp [Topological.heightOf, h.ne_root_of_atOrBelow hw hle, hn, hc]
    rw [h.lastAcceptedHeight]
    rwa [h.heightOf_accepted hw, hheight] at hlt
  case child =>
    intro id n c a hn hc
    obtain ⟨hle, hn⟩ := h.of_some hn
    obtain ⟨h1, h2, h3, h4, m, hm, hma⟩ := hw.child hn hc
    have hup : t.pendingParent c = some id := hw.pendingParent_iff_child.mpr ⟨n, a, hn, hc⟩
    have hcb : Below t.pendingParent c b.id := (below_iff_of_up hup).mpr hle
    refine ⟨h1, h2, by rw [h.heightOf_eq hw hle, h3], ?_, m, (h.kept hcb.atOrBelow).trans hm, hma⟩
    rw [h.lastAcceptedId]
    exact fun heq ↦ hw.ranked.not_below_self _ (heq ▸ hcb)
  case tree =>
    intro id n hn
    rw [h.params]
    exact hw.tree (h.of_some hn).2

/-- Parents are unchanged below the accepted block, and gone elsewhere. -/
theorem pendingParent_iff (hw : t.WellFormed) (h : Accepted t t' b) {p : Id} :
    t'.pendingParent id = some p ↔ t.pendingParent id = some p ∧ Below t.pendingParent id b.id := by
  rw [(h.wellFormed hw).pendingParent_iff_child, hw.pendingParent_iff_child]
  constructor
  · rintro ⟨n, a, hn, hc⟩
    obtain ⟨hle, hn⟩ := h.of_some hn
    have hup := hw.pendingParent_iff_child.mpr ⟨n, a, hn, hc⟩
    exact ⟨⟨n, a, hn, hc⟩, (below_iff_of_up hup).mpr hle⟩
  · rintro ⟨⟨n, a, hn, hc⟩, hbelow⟩
    have hup := hw.pendingParent_iff_child.mpr ⟨n, a, hn, hc⟩
    exact ⟨n, a, (h.kept ((below_iff_of_up hup).mp hbelow)).trans hn, hc⟩

end Accepted

end Topological

end Avalanche
