import Avalanche.Library.Ancestry
import Avalanche.Snow.TreePreference
import Avalanche.Snowman.Topological

/-!
# The tree of blocks

`Topological.WellFormed` is what every operation keeps about the map of blocks: it is a tree rooted
at the last accepted block, linked both ways, heights grow by one from parent to child, and every
block with children owns a snowball tree over exactly those children. Nothing here depends on what
the polls contained.

The parent function of the tree is `pendingParent`. It is the one the source follows everywhere, and
it stops at the last accepted block.
-/

namespace Avalanche

open Std Ancestry

/-- The snowball tree of a node decides between its children, and exists once there is one. -/
def SnowmanBlock.TreeOk {F : Factory} (params : Parameters) (n : SnowmanBlock F) : Prop :=
  match n.sb with
  | none => ∀ c : Id, n.children[c]? = none
  | some sb => sb.params = params ∧ sb.PrefersOnly fun c ↦ ∃ b, n.children[c]? = some b

/-- What of a node no poll touches. -/
def SnowmanBlock.shape {F : Factory} (n : SnowmanBlock F) : Option Block × ExtTreeMap Id Block :=
  (n.blk, n.children)

namespace Topological

variable {F : Factory} {t t' : Topological F}

/-- The height of a block of the tree. -/
def heightOf (t : Topological F) (id : Id) : ℕ :=
  if id = t.lastAcceptedId then t.lastAcceptedHeight
  else ((t.blocks[id]? >>= SnowmanBlock.blk).map Block.height).getD 0

/-- The blocks form a tree rooted at the last accepted block. -/
structure WellFormed (t : Topological F) : Prop where
  root : ∃ n, t.blocks[t.lastAcceptedId]? = some n ∧ n.decided t.lastAcceptedHeight = true
  /-- A pending block is listed by its parent. -/
  pending : ∀ {id : Id} {n : SnowmanBlock F}, t.blocks[id]? = some n → id ≠ t.lastAcceptedId →
    ∃ b, n.blk = some b ∧ t.lastAcceptedHeight < b.height ∧
      ∃ pn, t.blocks[b.parent]? = some pn ∧ pn.children[id]? = some b
  /-- A listed child is a pending block one height up. -/
  child : ∀ {id : Id} {n : SnowmanBlock F} {c : Id} {b : Block}, t.blocks[id]? = some n →
    n.children[c]? = some b →
    b.id = c ∧ b.parent = id ∧ b.height = t.heightOf id + 1 ∧ c ≠ t.lastAcceptedId ∧
      ∃ m, t.blocks[c]? = some m ∧ m.blk = some b
  tree : ∀ {id : Id} {n : SnowmanBlock F}, t.blocks[id]? = some n → n.TreeOk t.params

/-! ## Going up -/

theorem pendingParent_eq_some_iff {id p : Id} :
    t.pendingParent id = some p ↔ ∃ n b, t.blocks[id]? = some n ∧
      n.decided t.lastAcceptedHeight = false ∧ n.blk = some b ∧ b.parent = p := by
  unfold pendingParent
  cases hn : t.blocks[id]? with
  | none => simp
  | some n =>
    cases hd : n.decided t.lastAcceptedHeight with
    | true => simp [hd]
    | false => cases hb : n.blk <;> simp [hd, hb]

theorem mem_keys_toFinset {id : Id} {n : SnowmanBlock F} (hn : t.blocks[id]? = some n) :
    id ∈ t.blocks.keys.toFinset := by
  rw [List.mem_toFinset, ExtTreeMap.mem_keys, ExtTreeMap.mem_iff_isSome_getElem?, hn]
  rfl

namespace WellFormed

variable {n : SnowmanBlock F} {id p : Id} (h : t.WellFormed)

include h

theorem not_decided (hn : t.blocks[id]? = some n) (hid : id ≠ t.lastAcceptedId) :
    n.decided t.lastAcceptedHeight = false := by
  obtain ⟨b, hb, hlt, -⟩ := h.pending hn hid
  simp [SnowmanBlock.decided, hb, hlt]

theorem pendingParent_root : t.pendingParent t.lastAcceptedId = none := by
  obtain ⟨n, hn, hd⟩ := h.root
  simp [pendingParent, hn, hd]

theorem pendingParent_iff :
    t.pendingParent id = some p ↔ id ≠ t.lastAcceptedId ∧
      ∃ n b, t.blocks[id]? = some n ∧ n.blk = some b ∧ b.parent = p := by
  rw [pendingParent_eq_some_iff]
  constructor
  · rintro ⟨n, b, hn, hd, hb, hp⟩
    refine ⟨?_, n, b, hn, hb, hp⟩
    rintro rfl
    obtain ⟨m, hm, hdm⟩ := h.root
    cases hn.symm.trans hm
    exact Bool.false_ne_true (hd.symm.trans hdm)
  · rintro ⟨hid, n, b, hn, hb, hp⟩
    exact ⟨n, b, hn, h.not_decided hn hid, hb, hp⟩

/-- `pendingParent` and the children maps describe the same edges. -/
theorem pendingParent_iff_child :
    t.pendingParent id = some p ↔ ∃ n b, t.blocks[p]? = some n ∧ n.children[id]? = some b := by
  rw [h.pendingParent_iff]
  constructor
  · rintro ⟨hid, n, b, hn, hb, rfl⟩
    obtain ⟨b', hb', -, pn, hpn, hc⟩ := h.pending hn hid
    cases hb.symm.trans hb'
    exact ⟨pn, b, hpn, hc⟩
  · rintro ⟨n, b, hn, hc⟩
    obtain ⟨-, hp, -, hne, m, hm, hb⟩ := h.child hn hc
    exact ⟨hne, m, b, hm, hb, hp⟩

theorem pendingParent_isSome (hn : t.blocks[id]? = some n) (hid : id ≠ t.lastAcceptedId) :
    ∃ p pn, t.pendingParent id = some p ∧ t.blocks[p]? = some pn := by
  obtain ⟨b, hb, -, pn, hpn, -⟩ := h.pending hn hid
  exact ⟨b.parent, pn, h.pendingParent_iff.mpr ⟨hid, n, b, hn, hb, rfl⟩, hpn⟩

theorem heightOf_eq (hp : t.pendingParent id = some p) : t.heightOf id = t.heightOf p + 1 := by
  obtain ⟨n, b, hn, hc⟩ := h.pendingParent_iff_child.mp hp
  obtain ⟨-, -, hheight, hne, m, hm, hb⟩ := h.child hn hc
  rw [← hheight, heightOf, if_neg hne, hm]
  simp [hb]

/-- Heights fall on the way up. -/
theorem ranked : Ranked t.pendingParent t.heightOf := fun _ _ hp ↦ by
  have := h.heightOf_eq hp
  omega

theorem exists_of_pendingParent (hp : t.pendingParent id = some p) :
    (∃ n, t.blocks[id]? = some n) ∧ ∃ pn, t.blocks[p]? = some pn := by
  obtain ⟨n, b, hn, hc⟩ := h.pendingParent_iff_child.mp hp
  obtain ⟨-, -, -, -, m, hm, -⟩ := h.child hn hc
  exact ⟨⟨m, hm⟩, ⟨n, hn⟩⟩

/-- Every block of the tree descends from the last accepted one. -/
theorem atOrBelow_root (hn : t.blocks[id]? = some n) :
    AtOrBelow t.pendingParent id t.lastAcceptedId := by
  induction hk : t.heightOf id using Nat.strong_induction_on generalizing id n with
  | _ k ih =>
    by_cases hid : id = t.lastAcceptedId
    · rw [hid]
      exact AtOrBelow.refl _
    · obtain ⟨p, pn, hp, hpn⟩ := h.pendingParent_isSome hn hid
      have hlt := h.ranked _ _ hp
      exact (below_of_up hp).atOrBelow.trans (ih _ (hk ▸ hlt) hpn rfl)

theorem below_root (hn : t.blocks[id]? = some n) (hid : id ≠ t.lastAcceptedId) :
    Below t.pendingParent id t.lastAcceptedId := by
  obtain heq | hbelow := atOrBelow_iff.mp (h.atOrBelow_root hn)
  · exact absurd heq hid
  · exact hbelow

end WellFormed

/-! ## Keeping the shape -/

/-- The two trees of blocks differ at most in their snowball trees and falter flags. -/
structure SameShape (t t' : Topological F) : Prop where
  params : t'.params = t.params
  lastAcceptedId : t'.lastAcceptedId = t.lastAcceptedId
  lastAcceptedHeight : t'.lastAcceptedHeight = t.lastAcceptedHeight
  blocks : ∀ id : Id, t'.blocks[id]?.map SnowmanBlock.shape = t.blocks[id]?.map SnowmanBlock.shape

namespace SameShape

variable (h : SameShape t t')

include h

theorem trans {t'' : Topological F} (h' : SameShape t' t'') : SameShape t t'' :=
  ⟨h'.params.trans h.params, h'.lastAcceptedId.trans h.lastAcceptedId,
    h'.lastAcceptedHeight.trans h.lastAcceptedHeight, fun id ↦ (h'.blocks id).trans (h.blocks id)⟩

theorem of_some {id : Id} {n' : SnowmanBlock F} (hn' : t'.blocks[id]? = some n') :
    ∃ n, t.blocks[id]? = some n ∧ n'.blk = n.blk ∧ n'.children = n.children := by
  have hid := h.blocks id
  rw [hn'] at hid
  cases hn : t.blocks[id]? with
  | none => simp [hn] at hid
  | some n =>
    simp only [hn, Option.map_some, Option.some.injEq, SnowmanBlock.shape, Prod.mk.injEq] at hid
    exact ⟨n, rfl, hid.1, hid.2⟩

theorem symm : SameShape t' t :=
  ⟨h.params.symm, h.lastAcceptedId.symm, h.lastAcceptedHeight.symm, fun id ↦ (h.blocks id).symm⟩

theorem heightOf (id : Id) : t'.heightOf id = t.heightOf id := by
  have hblk : (t'.blocks[id]? >>= SnowmanBlock.blk) = (t.blocks[id]? >>= SnowmanBlock.blk) := by
    have hid := congrArg (Option.map Prod.fst) (h.blocks id)
    cases hn : t.blocks[id]? <;> cases hn' : t'.blocks[id]? <;> simp_all [SnowmanBlock.shape]
  rw [Topological.heightOf, Topological.heightOf, h.lastAcceptedId, h.lastAcceptedHeight, hblk]

theorem pendingParent : t'.pendingParent = t.pendingParent := by
  funext id
  have hid := h.blocks id
  unfold Topological.pendingParent
  rw [h.lastAcceptedHeight]
  cases hn : t.blocks[id]? with
  | none =>
    cases hn' : t'.blocks[id]? with
    | none => rfl
    | some n' => simp [hn, hn'] at hid
  | some n =>
    cases hn' : t'.blocks[id]? with
    | none => simp [hn, hn'] at hid
    | some n' =>
      simp only [hn, hn', Option.map_some, Option.some.injEq, SnowmanBlock.shape,
        Prod.mk.injEq] at hid
      have hd : n'.decided t.lastAcceptedHeight = n.decided t.lastAcceptedHeight := by
        rw [SnowmanBlock.decided, SnowmanBlock.decided, hid.1]
      simp [hd, hid.1]

theorem wellFormed (hw : t.WellFormed)
    (htree : ∀ {id : Id} {n : SnowmanBlock F}, t'.blocks[id]? = some n → n.TreeOk t.params) :
    t'.WellFormed where
  root := by
    obtain ⟨n, hn, hd⟩ := hw.root
    obtain ⟨n', hn', hb, -⟩ := h.symm.of_some hn
    rw [h.lastAcceptedId, h.lastAcceptedHeight]
    exact ⟨n', hn', by rwa [SnowmanBlock.decided, ← hb]⟩
  pending := by
    intro id n' hn' hid
    obtain ⟨n, hn, hb, -⟩ := h.of_some hn'
    rw [h.lastAcceptedId] at hid
    obtain ⟨b, hbn, hlt, pn, hpn, hc⟩ := hw.pending hn hid
    obtain ⟨pn', hpn', -, hch⟩ := h.symm.of_some hpn
    exact ⟨b, hb.trans hbn, by rwa [h.lastAcceptedHeight], pn', hpn', by rwa [← hch]⟩
  child := by
    intro id n' c b hn' hc
    obtain ⟨n, hn, -, hch⟩ := h.of_some hn'
    rw [hch] at hc
    obtain ⟨h1, h2, h3, h4, m, hm, hmb⟩ := hw.child hn hc
    obtain ⟨m', hm', hb', -⟩ := h.symm.of_some hm
    exact ⟨h1, h2, by rwa [h.heightOf], by rwa [h.lastAcceptedId], m', hm', hb'.symm.trans hmb⟩
  tree := by
    intro id n hn
    rw [h.params]
    exact htree hn

end SameShape

end Topological

end Avalanche
