import Avalanche.Snowman.Voting

/-!
# The preferred branch

From a block the preferred branch goes on to the child its snowball tree prefers. `preferredChild`
is this partial function; the sets that `Topological` keeps are to contain what is met along it from
the last accepted block. The vocabulary of `Ancestry` is used for it in the other direction: `Below
t.preferredChild x y` says that `y` is met when following preferences from `x`.

`rebuild` is the second half of `recordPoll`. It collects the ancestors of the new preferred block
and then everything on from there; `Rebuilt` says what comes out.
-/

namespace Avalanche

open Std Ancestry

namespace Topological

variable {F : Factory} {t t' : Topological F} {x y : Id}
variable {n : SnowmanBlock F} {ids : ExtTreeSet Id} {heights : ExtTreeMap ℕ Id}

/-- The child that the snowball tree of a block prefers. -/
def preferredChild (t : Topological F) (id : Id) : Option Id := do
  let n ← t.blocks[id]?
  let sb ← n.sb
  some sb.preference

theorem preferredChild_eq_some_iff : t.preferredChild x = some y ↔
    ∃ n sb, t.blocks[x]? = some n ∧ n.sb = some sb ∧ sb.preference = y := by
  unfold preferredChild
  cases hn : t.blocks[x]? with
  | none => simp
  | some n => cases hsb : n.sb <;> simp [hsb]

namespace WellFormed

/-- The preferred child is a child. -/
theorem pendingParent_of_preferredChild (hw : t.WellFormed) (h : t.preferredChild x = some y) :
    t.pendingParent y = some x := by
  obtain ⟨n, sb, hn, hsb, rfl⟩ := preferredChild_eq_some_iff.mp h
  obtain ⟨b, hb⟩ := (hw.tree hn).preference hsb
  exact hw.pendingParent_iff_child.mpr ⟨n, b, hn, hb⟩

theorem below_of_preferred (hw : t.WellFormed) (h : Below t.preferredChild x y) :
    Below t.pendingParent y x := by
  induction h with
  | single h => exact below_of_up (hw.pendingParent_of_preferredChild h)
  | tail _ h ih =>
    exact below_iff_up.mpr ⟨_, hw.pendingParent_of_preferredChild h, ih.atOrBelow⟩

theorem atOrBelow_of_preferred (hw : t.WellFormed) (h : AtOrBelow t.preferredChild x y) :
    AtOrBelow t.pendingParent y x := by
  obtain rfl | h := atOrBelow_iff.mp h
  · exact AtOrBelow.refl _
  · exact (hw.below_of_preferred h).atOrBelow

/-- Without a preferred child there is no child at all. -/
theorem preferredChild_eq_none_iff (hw : t.WellFormed) {n : SnowmanBlock F}
    (hn : t.blocks[x]? = some n) :
    t.preferredChild x = none ↔ ∀ c, t.pendingParent c ≠ some x := by
  constructor
  · intro hnone c hc
    obtain ⟨b, hb⟩ := hw.exists_child hn hc
    have htree := hw.tree hn
    cases hsb : n.sb with
    | none =>
      rw [SnowmanBlock.TreeOk, hsb] at htree
      rw [htree c] at hb
      cases hb
    | some sb => simp [preferredChild, hn, hsb] at hnone
  · intro hnone
    cases hc : t.preferredChild x with
    | none => rfl
    | some c => exact absurd (hw.pendingParent_of_preferredChild hc) (hnone c)

end WellFormed

theorem heightOf_of_ne {b : Block} (hn : t.blocks[x]? = some n)
    (hb : n.blk = some b) (hx : x ≠ t.lastAcceptedId) : t.heightOf x = b.height := by
  simp [heightOf, hx, hn, hb]

/-! ## Sets indexed by height -/

/-- The map of heights lists the blocks of the set. -/
def Indexed (t : Topological F) (ids : ExtTreeSet Id) (heights : ExtTreeMap ℕ Id) : Prop :=
  ∀ (h : ℕ) (y : Id), heights[h]? = some y ↔ y ∈ ids ∧ t.heightOf y = h

theorem indexed_empty (t : Topological F) : t.Indexed ∅ ∅ := by
  intro h y
  simp

theorem Indexed.insert (h : t.Indexed ids heights) (hx : ∀ y ∈ ids, t.heightOf y ≠ t.heightOf x) :
    t.Indexed (ids.insert x) (heights.insert (t.heightOf x) x) := by
  intro k y
  rw [ExtTreeMap.getElem?_insert, ExtTreeSet.mem_insert]
  simp only [Std.LawfulEqCmp.compare_eq_iff_eq]
  by_cases hk : t.heightOf x = k
  · rw [if_pos hk]
    constructor
    · intro hy
      obtain rfl := Option.some.inj hy
      exact ⟨Or.inl rfl, hk⟩
    · rintro ⟨rfl | hy, hyk⟩
      · rfl
      · exact absurd (hyk.trans hk.symm) (hx y hy)
  · rw [if_neg hk, h k y]
    constructor
    · exact fun ⟨hy, hyk⟩ ↦ ⟨Or.inr hy, hyk⟩
    · rintro ⟨rfl | hy, hyk⟩
      · exact absurd hyk hk
      · exact ⟨hy, hyk⟩

/-- Two blocks of an indexed set at one height are the same. -/
theorem Indexed.eq (h : t.Indexed ids heights)
    (hx : x ∈ ids) (hy : y ∈ ids) (heq : t.heightOf x = t.heightOf y) : x = y := by
  have hx' := (h _ x).mpr ⟨hx, rfl⟩
  have hy' := (h _ y).mpr ⟨hy, rfl⟩
  rw [heq, hy'] at hx'
  exact (Option.some.inj hx').symm

theorem Indexed.erase (h : t.Indexed ids heights)
    (hx : x ∈ ids) : t.Indexed (ids.erase x) (heights.erase (t.heightOf x)) := by
  intro k y
  rw [ExtTreeMap.getElem?_erase, ExtTreeSet.mem_erase]
  simp only [Std.LawfulEqCmp.compare_eq_iff_eq, ne_eq]
  by_cases hk : t.heightOf x = k
  · rw [if_pos hk]
    constructor
    · intro hy
      cases hy
    · rintro ⟨⟨hne, hy⟩, hyk⟩
      exact absurd (h.eq hx hy (hk.trans hyk.symm)) hne
  · rw [if_neg hk, h k y]
    constructor
    · exact fun ⟨hy, hyk⟩ ↦ ⟨⟨fun heq ↦ hk (heq ▸ hyk), hy⟩, hyk⟩
    · exact fun ⟨⟨_, hy⟩, hyk⟩ ↦ ⟨hy, hyk⟩

/-! ## Rebuilding the branch -/

/-- The instance with other preferred blocks. -/
def withPreferred (t : Topological F) (ids : ExtTreeSet Id) (heights : ExtTreeMap ℕ Id)
    (preference : Id) : Topological F :=
  { t with preferredIds := ids, preferredHeights := heights, preference := preference }

/-- The end of `recordPoll`: the preferred blocks are collected again. -/
def rebuild (t : Topological F) (preferred : Id) : Except Fault (Topological F) := do
  let t := t.withPreferred ∅ ∅ preferred
  let (t, _) ← Loop.run (fun s ↦ .ok (ancestorStep s)) .diverges (t.blocks.size + 1)
    (t, t.preference)
  let (t, _) ← Loop.run (fun s ↦ .ok (descendantStep s)) .diverges (t.blocks.size + 1)
    (t, t.preference)
  return t

/-- The blocks of the tree whose height satisfies `p`. -/
def blocksAt (t : Topological F) (p : ℕ → Prop) [DecidablePred p] : Finset Id :=
  t.blocks.keys.toFinset.filter fun x ↦ p (t.heightOf x)

theorem card_blocksAt_le (t : Topological F) (p : ℕ → Prop) [DecidablePred p] :
    (t.blocksAt p).card ≤ t.blocks.size := by
  refine (Finset.card_filter_le _ _).trans ((List.toFinset_card_le _).trans ?_)
  rw [ExtTreeMap.length_keys]

/-- On the way from `preferred` to the last accepted block, standing at `s.2`. -/
structure Ascending (t : Topological F) (preferred : Id) (s : Topological F × Id) : Prop where
  rest : s.1 = t.withPreferred s.1.preferredIds s.1.preferredHeights preferred
  mem : ∃ n, t.blocks[s.2]? = some n
  path : AtOrBelow t.pendingParent preferred s.2
  ids : ∀ y, y ∈ s.1.preferredIds ↔
    AtOrBelow t.pendingParent preferred y ∧ Below t.pendingParent y s.2
  indexed : t.Indexed s.1.preferredIds s.1.preferredHeights

/-- On the way on from `preferred` along preferences, standing at `s.2`. -/
structure Descending (t : Topological F) (preferred : Id) (s : Topological F × Id) : Prop where
  rest : s.1 = t.withPreferred s.1.preferredIds s.1.preferredHeights s.2
  mem : ∃ n, t.blocks[s.2]? = some n
  path : AtOrBelow t.preferredChild preferred s.2
  ids : ∀ y, y ∈ s.1.preferredIds ↔
    (AtOrBelow t.pendingParent preferred y ∧ Below t.pendingParent y t.lastAcceptedId) ∨
      (Below t.preferredChild preferred y ∧ AtOrBelow t.preferredChild y s.2)
  indexed : t.Indexed s.1.preferredIds s.1.preferredHeights

/-- One step towards the last accepted block. -/
theorem Ascending.step (hw : t.WellFormed) {s : Topological F × Id} (h : Ascending t x s) :
    (ancestorStep s = none ∧ s.2 = t.lastAcceptedId) ∨
      ∃ s', ancestorStep s = some s' ∧ Ascending t x s' ∧
        (t.blocksAt (· ≤ t.heightOf s'.2)).card < (t.blocksAt (· ≤ t.heightOf s.2)).card := by
  obtain ⟨u, cursor⟩ := s
  obtain ⟨n, hn⟩ := h.mem
  have hrest : u = t.withPreferred u.preferredIds u.preferredHeights x := h.rest
  have hun : u.blocks[cursor]? = some n := by
    rw [hrest]
    exact hn
  have hheight : u.lastAcceptedHeight = t.lastAcceptedHeight := by rw [hrest]; rfl
  by_cases hroot : cursor = t.lastAcceptedId
  · refine Or.inl ⟨?_, hroot⟩
    obtain ⟨m, hm, hd⟩ := hw.root
    rw [hroot, hm] at hn
    obtain rfl := Option.some.inj hn
    simp [ancestorStep, hun, hheight, hd]
  · obtain ⟨b, hb, -, pn, hpn, -⟩ := hw.pending hn hroot
    have hd : n.decided t.lastAcceptedHeight = false := hw.not_decided hn hroot
    have hup : t.pendingParent cursor = some b.parent :=
      hw.pendingParent_iff.mpr ⟨hroot, n, b, hn, hb, rfl⟩
    have hbh := heightOf_of_ne hn hb hroot
    refine Or.inr ⟨(t.withPreferred (u.preferredIds.insert cursor)
      (u.preferredHeights.insert (t.heightOf cursor) cursor) x, b.parent), ?_, ?_, ?_⟩
    · simp only [ancestorStep, hun, hheight, hd, hb, Option.bind_eq_bind, Option.bind_some,
        Bool.false_eq_true, if_false, hbh]
      rw [hrest]
      rfl
    · refine ⟨rfl, ⟨pn, hpn⟩, h.path.trans (below_of_up hup).atOrBelow, ?_, ?_⟩
      · intro y
        change y ∈ u.preferredIds.insert cursor ↔ _
        rw [ExtTreeSet.mem_insert, h.ids y]
        simp only [LawfulEqCmp.compare_eq_iff_eq]
        constructor
        · rintro (rfl | ⟨hxy, hyc⟩)
          · exact ⟨h.path, below_of_up hup⟩
          · exact ⟨hxy, hyc.trans_atOrBelow (below_of_up hup).atOrBelow⟩
        · rintro ⟨hxy, hyp⟩
          -- a block above the cursor would be at or above its parent
          obtain hyc | hcy := hxy.comparable h.path
          · exact (atOrBelow_iff.mp hyc).imp Eq.symm fun hyc ↦ ⟨hxy, hyc⟩
          · obtain heq | hcy := atOrBelow_iff.mp hcy
            · exact Or.inl heq
            · have hpy := (below_iff_of_up hup).mp hcy
              exact absurd (hpy.trans_below hyp) (hw.ranked.not_below_self _)
      · refine h.indexed.insert fun y hy ↦ ?_
        exact (hw.ranked.lt_of_below ((h.ids y).mp hy).2).ne'
    · have hlt := hw.ranked _ _ hup
      exact Loop.card_filter_lt (fun y (hy : t.heightOf y ≤ t.heightOf b.parent) ↦ hy.trans hlt.le)
        (mem_keys_toFinset hn) (le_rfl : t.heightOf cursor ≤ t.heightOf cursor) hlt.not_ge

/-- One step along the preferences. -/
theorem Descending.step (hw : t.WellFormed) {s : Topological F × Id} (h : Descending t x s) :
    (descendantStep s = none ∧ t.preferredChild s.2 = none) ∨
      ∃ s', descendantStep s = some s' ∧ Descending t x s' ∧
        (t.blocksAt (t.heightOf s'.2 ≤ ·)).card < (t.blocksAt (t.heightOf s.2 ≤ ·)).card := by
  obtain ⟨u, cursor⟩ := s
  obtain ⟨n, hn⟩ := h.mem
  have hrest : u = t.withPreferred u.preferredIds u.preferredHeights cursor := h.rest
  have hblocks : u.blocks = t.blocks := by rw [hrest]; rfl
  cases hsb : n.sb with
  | none =>
    refine Or.inl ⟨by simp [descendantStep, hblocks, hn, hsb], ?_⟩
    simp [preferredChild, hn, hsb]
  | some sb =>
    have hpc : t.preferredChild cursor = some sb.preference :=
      preferredChild_eq_some_iff.mpr ⟨n, sb, hn, hsb, rfl⟩
    have hup := hw.pendingParent_of_preferredChild hpc
    obtain ⟨hne, m, b, hm, hb, hbp⟩ := hw.pendingParent_iff.mp hup
    have hbh := heightOf_of_ne hm hb hne
    have hlt := hw.ranked _ _ hup
    refine Or.inr ⟨(t.withPreferred (u.preferredIds.insert sb.preference)
      (u.preferredHeights.insert (t.heightOf sb.preference) sb.preference) sb.preference,
      sb.preference), ?_, ?_, ?_⟩
    · simp only [descendantStep, hblocks, hn, hsb, hm, hb, Option.bind_eq_bind, Option.bind_some,
        hbh]
      rw [hrest]
      rfl
    · refine ⟨rfl, ⟨m, hm⟩, h.path.tail hpc, ?_, ?_⟩
      · intro y
        change y ∈ u.preferredIds.insert sb.preference ↔ _
        rw [ExtTreeSet.mem_insert, h.ids y]
        simp only [LawfulEqCmp.compare_eq_iff_eq]
        constructor
        · rintro (rfl | hup | ⟨hxy, hyc⟩)
          · exact Or.inr ⟨Relation.TransGen.tail' h.path hpc, AtOrBelow.refl _⟩
          · exact Or.inl hup
          · exact Or.inr ⟨hxy, hyc.tail hpc⟩
        · rintro (hup | ⟨hxy, hyn⟩)
          · exact Or.inr (Or.inl hup)
          · obtain rfl | hyn := atOrBelow_iff.mp hyn
            · exact Or.inl rfl
            · obtain ⟨c, hyc, hc⟩ := below_iff_child.mp hyn
              have hcx := hw.pendingParent_of_preferredChild hc
              cases hcx.symm.trans hup
              exact Or.inr (Or.inr ⟨hxy, hyc⟩)
      · refine h.indexed.insert fun y hy ↦ ?_
        have hle : t.heightOf y ≤ t.heightOf cursor := by
          obtain ⟨hxy, -⟩ | ⟨-, hyc⟩ := (h.ids y).mp hy
          · exact (hw.ranked.le_of_atOrBelow hxy).trans
              (hw.ranked.le_of_atOrBelow (hw.atOrBelow_of_preferred h.path))
          · exact hw.ranked.le_of_atOrBelow (hw.atOrBelow_of_preferred hyc)
        exact (hle.trans_lt hlt).ne
    · exact Loop.card_filter_lt
        (fun y (hy : t.heightOf sb.preference ≤ t.heightOf y) ↦ hlt.le.trans hy)
        (mem_keys_toFinset hn) (le_rfl : t.heightOf cursor ≤ t.heightOf cursor) hlt.not_ge

/-- The preferred blocks were collected again from `preferred`. -/
structure Rebuilt (t : Topological F) (preferred : Id) (t' : Topological F) : Prop where
  rest : t' = t.withPreferred t'.preferredIds t'.preferredHeights t'.preference
  ids : ∀ y, y ∈ t'.preferredIds ↔
    (AtOrBelow t.pendingParent preferred y ∧ Below t.pendingParent y t.lastAcceptedId) ∨
      Below t.preferredChild preferred y
  path : AtOrBelow t.preferredChild preferred t'.preference
  tip : t.preferredChild t'.preference = none
  indexed : t.Indexed t'.preferredIds t'.preferredHeights

/-- Rebuilding from a block of the tree always returns. -/
theorem exists_rebuild (hw : t.WellFormed) (hn : t.blocks[x]? = some n) :
    ∃ t', t.rebuild x = .ok t' ∧ Rebuilt t x t' := by
  obtain ⟨⟨u, a⟩, hrun₁, hup, hroot⟩ := Loop.run_total (e := Fault.diverges)
    (f := fun s ↦ .ok (ancestorStep s)) (I := Ascending t x) (Q := fun s ↦ s.2 = t.lastAcceptedId)
    (μ := fun s ↦ (t.blocksAt (· ≤ t.heightOf s.2)).card)
    (fun s hs ↦ (hs.step hw).imp (fun h ↦ ⟨congrArg Except.ok h.1, h.2⟩)
      fun ⟨s', hnext, hs', hlt⟩ ↦ ⟨s', congrArg Except.ok hnext, hs', hlt⟩)
    (s := (t.withPreferred ∅ ∅ x, x))
    { rest := rfl
      mem := ⟨n, hn⟩
      path := AtOrBelow.refl x
      ids := fun y ↦ by
        change y ∈ (∅ : ExtTreeSet Id) ↔ _
        refine iff_of_false (by simp) fun ⟨hxy, hyx⟩ ↦ ?_
        exact hw.ranked.not_below_self _ (hxy.trans_below hyx)
      indexed := indexed_empty t }
    (Nat.lt_succ_of_le (card_blocksAt_le t _))
  obtain rfl : a = t.lastAcceptedId := hroot
  have hrest : u = t.withPreferred u.preferredIds u.preferredHeights x := hup.rest
  have hpref : u.preference = x := by rw [hrest]; rfl
  have hsize : u.blocks.size = t.blocks.size := by rw [hrest]; rfl
  obtain ⟨⟨v, c⟩, hrun₂, hdown, htip⟩ := Loop.run_total (e := Fault.diverges)
    (f := fun s ↦ .ok (descendantStep s)) (I := Descending t x)
    (Q := fun s ↦ t.preferredChild s.2 = none)
    (μ := fun s ↦ (t.blocksAt (t.heightOf s.2 ≤ ·)).card)
    (fun s hs ↦ (hs.step hw).imp (fun h ↦ ⟨congrArg Except.ok h.1, h.2⟩)
      fun ⟨s', hnext, hs', hlt⟩ ↦ ⟨s', congrArg Except.ok hnext, hs', hlt⟩)
    (s := (u, x))
    { rest := hrest
      mem := ⟨n, hn⟩
      path := AtOrBelow.refl x
      ids := fun y ↦ by
        refine (hup.ids y).trans ⟨Or.inl, fun h ↦ h.resolve_right fun ⟨hxy, hyx⟩ ↦ ?_⟩
        exact hw.ranked.not_below_self _
          ((hw.atOrBelow_of_preferred hyx).trans_below (hw.below_of_preferred hxy))
      indexed := hup.indexed }
    (Nat.lt_succ_of_le (card_blocksAt_le t _))
  have hv : v = t.withPreferred v.preferredIds v.preferredHeights c := hdown.rest
  have hvpref : v.preference = c := by rw [hv]; rfl
  refine ⟨v, ?_, ?_⟩
  · refine Except.bind_eq_ok_iff.mpr ⟨(u, t.lastAcceptedId), hrun₁,
      Except.bind_eq_ok_iff.mpr ⟨(v, c), ?_, rfl⟩⟩
    rw [hpref, hsize]
    exact hrun₂
  · refine ⟨by rw [hvpref]; exact hv, fun y ↦ ?_, hvpref ▸ hdown.path, hvpref ▸ htip,
      hdown.indexed⟩
    refine (hdown.ids y).trans (or_congr_right ⟨And.left, fun hxy ↦ ⟨hxy, ?_⟩⟩)
    -- the walk ends at the tip, so what is met from `x` lies before it
    obtain hyc | hcy := hxy.atOrBelow.comparable hdown.path
    · exact hyc
    · exact hcy.eq_of_top htip ▸ AtOrBelow.refl _

/-- Rebuilding from a block that is not in the tree returns too. -/
theorem exists_rebuild_of_none (hx : t.blocks[x]? = none) :
    ∃ ids heights preference, t.rebuild x = .ok (t.withPreferred ids heights preference) := by
  refine ⟨∅, ∅, x, ?_⟩
  have hup : ancestorStep (t.withPreferred ∅ ∅ x, x) = none := by
    simp [ancestorStep, withPreferred, hx]
  have hdown : descendantStep (t.withPreferred ∅ ∅ x, x) = none := by
    simp [descendantStep, withPreferred, hx]
  exact Except.bind_eq_ok_iff.mpr ⟨(t.withPreferred ∅ ∅ x, x),
    Loop.run_done (congrArg Except.ok hup) _,
    Except.bind_eq_ok_iff.mpr ⟨(t.withPreferred ∅ ∅ x, x),
      Loop.run_done (congrArg Except.ok hdown) _, rfl⟩⟩

end Topological

end Avalanche
