import Avalanche.Merkle.Trie

/-!
# Tries built by insertions

The walk, the change at its end and the lookup are compared with those of `Radix`, node by node. A
trie that was built by insertions is then canonical, holds the value last inserted at each key, and
is determined by those values: the order of the insertions and the values that were overwritten
leave no trace in it, nor in its root id.
-/

namespace Avalanche.Merkle

namespace Key

variable {bf : BranchFactor} {k key : Key}

theorem Packed.length_eq (hk : Packed bf k) : k.length = bf.tokenSize * (k.tokens bf).length := by
  rw [length_tokens, tokenSize_mul_div hk.aligned]

/-- The token that follows a shorter key. -/
theorem Packed.getElem?_of_lt (hk : Packed bf k) (hkey : Packed bf key)
    (hlt : k.length < key.length) :
    (key.tokens bf)[(k.tokens bf).length]? = some (key.token k.length bf.tokenSize) := by
  have hpos := bf.tokenSize_pos
  rw [hk.length_eq, hkey.length_eq, Nat.mul_lt_mul_left hpos, length_tokens] at hlt
  rw [getElem?_tokens, if_pos (by rwa [length_tokens] at hlt ⊢), ← hk.length_eq]

theorem Packed.length_lt (hk : Packed bf k) (hkey : Packed bf key)
    (hpre : k.tokens bf <+: key.tokens bf) (hne : k ≠ key) : k.length < key.length := by
  rw [hk.length_eq, hkey.length_eq, Nat.mul_lt_mul_left bf.tokenSize_pos]
  refine hpre.length_le.lt_of_ne fun hlength ↦ hne ?_
  exact hk.eq_of_tokens hkey (hpre.eq_of_length hlength)

/-- The walk goes on exactly if the next key is on the way. -/
theorem iteratedHasPrefix_skip_iff {next : Key} (hk : Packed bf k) (hkey : Packed bf key)
    (hnext : Packed bf next) {t : UInt8} (hstep : k.tokens bf ++ [t] <+: next.tokens bf)
    (hway : k.tokens bf ++ [t] <+: key.tokens bf) :
    key.iteratedHasPrefix (next.skip (k.length + bf.tokenSize)) (k.length + bf.tokenSize)
      bf.tokenSize = true ↔ next.tokens bf <+: key.tokens bf := by
  have hoffset : k.length + bf.tokenSize = bf.tokenSize * (k.tokens bf ++ [t]).length := by
    rw [hk.length_eq, List.length_append, List.length_singleton, Nat.mul_add, Nat.mul_one]
  have hle : bf.tokenSize * (k.tokens bf ++ [t]).length ≤ key.length := by
    rw [hkey.length_eq]
    exact Nat.mul_le_mul_left _ hway.length_le
  have haligned : bf.tokenSize ∣
      (next.skip (bf.tokenSize * (k.tokens bf ++ [t]).length)).length := by
    rw [length_skip]
    exact Nat.dvd_sub hnext.aligned (Nat.dvd_mul_right _ _)
  rw [hoffset, iteratedHasPrefix_iff hkey.aligned haligned hle, tokens_skip hnext.aligned]
  obtain ⟨rest, hrest⟩ := hstep
  obtain ⟨rest', hrest'⟩ := hway
  rw [← hrest, ← hrest', List.drop_left, List.drop_left, List.prefix_append_right_inj]

end Key

namespace OwnedNode

open Radix (Canonical)

variable {bf : BranchFactor} {key : Key} {value : Option Bytes}
variable {n : OwnedNode}

theorem map_update (cs : UInt8 → Option OwnedNode) (i : UInt8) (c : OwnedNode) :
    (fun j ↦ (Function.update cs i (some c) j).map (abs bf))
      = Function.update (fun j ↦ (cs j).map (abs bf)) i (some (c.abs bf)) := by
  funext j
  rw [Function.update_apply, Function.update_apply]
  split <;> rfl

theorem abs_setChild (n : OwnedNode) (i : UInt8) (c : OwnedNode) :
    (n.setChild i (some c)).abs bf
      = .node (n.abs bf).key (n.abs bf).value
          (Function.update (n.abs bf).children i (some (c.abs bf))) := by
  obtain ⟨k, v, cs⟩ := n
  rw [setChild, abs_mk, abs_mk]
  exact congrArg (Radix.node (k.tokens bf) v) (map_update cs i c)

theorem abs_setValue (n : OwnedNode) (v : Option Bytes) :
    (n.setValue v).abs bf = .node (n.abs bf).key v (n.abs bf).children := by
  obtain ⟨k, w, cs⟩ := n
  rfl

/-- A node at the common part of two keys, over a node that is not on the way to `key`: `b` has a
leaf at `key`, or the value itself. -/
theorem abs_split {next branch : OwnedNode} {branchKey : Key} {existingIndex : UInt8}
    (hkey : Key.Packed bf key) (hbranchKey : Key.Packed bf branchKey)
    (hcommon : branchKey.tokens bf = Radix.common (next.key.tokens bf) (key.tokens bf))
    (hindex : (next.key.tokens bf)[(branchKey.tokens bf).length]? = some existingIndex)
    (hbranch : branch = if key.length = branchKey.length then new branchKey value
      else (new branchKey none).setChild (key.token branchKey.length bf.tokenSize)
        (some (new key value))) :
    (branch.setChild existingIndex (some next)).abs bf
      = Radix.split (key.tokens bf) value (next.abs bf) := by
  have hright := Radix.common_prefix_right (next.key.tokens bf) (key.tokens bf)
  have hlength : key.length = branchKey.length ↔ key.tokens bf = branchKey.tokens bf := by
    rw [hkey.length_eq, hbranchKey.length_eq, Nat.mul_right_inj bf.tokenSize_pos.ne']
    rw [← hcommon] at hright
    exact ⟨fun h ↦ (hright.eq_of_length h.symm).symm, fun h ↦ congrArg List.length h⟩
  rw [abs_setChild, Radix.split, key_abs next, ← hcommon]
  by_cases heq : key.length = branchKey.length
  · have htokens := hlength.mp heq
    rw [hbranch, if_pos heq, abs_new, Radix.key_node, Radix.value_node, Radix.children_node,
      if_pos htokens]
    congr 1
    funext t
    have hnone : (key.tokens bf)[(branchKey.tokens bf).length]? = none := by
      rw [htokens, List.getElem?_eq_none le_rfl]
    rw [Function.update_apply, hindex, hnone]
    simp [eq_comm]
  · have htokens : ¬key.tokens bf = branchKey.tokens bf := fun h ↦ heq (hlength.mpr h)
    have hleaf : (key.tokens bf)[(branchKey.tokens bf).length]?
        = some (key.token branchKey.length bf.tokenSize) := by
      refine hbranchKey.getElem?_of_lt hkey (hbranchKey.length_lt hkey (hcommon ▸ hright) ?_)
      rintro rfl
      exact htokens rfl
    rw [hbranch, if_neg heq, abs_setChild, abs_new, abs_new, Radix.key_node, Radix.key_node,
      Radix.value_node, Radix.value_node, Radix.children_node, Radix.children_node,
      if_neg htokens]
    congr 1
    funext t
    rw [Function.update_apply, Function.update_apply, hindex, hleaf]
    simp [eq_comm]

/-- The common part of two keys that agree up to an offset. -/
theorem length_common {q l m : List UInt8} (hl : q <+: l) (hm : q <+: m) :
    (Radix.common l m).length
      = q.length + (Radix.common (l.drop q.length) (m.drop q.length)).length := by
  obtain ⟨l, rfl⟩ := hl
  obtain ⟨m, rfl⟩ := hm
  rw [Radix.common_append, List.length_append, List.drop_left, List.drop_left]

/-- A new node on an edge. -/
theorem abs_splitEdge {next : OwnedNode} (hkey : Key.Packed bf key)
    (hnext : Key.Packed bf next.key) {q : List UInt8} (hstep : q <+: next.key.tokens bf)
    (hway : q <+: key.tokens bf) (hnot : ¬next.key.tokens bf <+: key.tokens bf) :
    (splitEdge bf.tokenSize key value (bf.tokenSize * q.length) next).abs bf
      = Radix.split (key.tokens bf) value (next.abs bf) := by
  have hright := Radix.common_prefix_right (next.key.tokens bf) (key.tokens bf)
  have hleft := Radix.common_prefix_left (next.key.tokens bf) (key.tokens bf)
  have hlength := length_common hstep hway
  set c := Radix.common ((next.key.tokens bf).drop q.length) ((key.tokens bf).drop q.length)
  have haligned : bf.tokenSize ∣ (next.key.skip (bf.tokenSize * q.length)).length := by
    rw [Key.length_skip]
    exact Nat.dvd_sub hnext.aligned (Nat.dvd_mul_right _ _)
  have hskip := Key.tokens_skip hnext.aligned q.length
  have hlcp : longestCommonPrefix (next.key.skip (bf.tokenSize * q.length)) key
      (bf.tokenSize * q.length) bf.tokenSize = bf.tokenSize * c.length := by
    rw [longestCommonPrefix_eq haligned hkey.aligned, hskip]
  have hbranchKey : bf.tokenSize * q.length + bf.tokenSize * c.length
      = bf.tokenSize * (Radix.common (next.key.tokens bf) (key.tokens bf)).length := by
    rw [hlength, Nat.mul_add]
  have htake : (key.take (bf.tokenSize
      * (Radix.common (next.key.tokens bf) (key.tokens bf)).length)).tokens bf
        = Radix.common (next.key.tokens bf) (key.tokens bf) := by
    rw [Key.tokens_take hkey, ← List.prefix_iff_eq_take.mp hright]
  -- the edge goes on after the common part
  obtain ⟨u, hu⟩ := Radix.exists_getElem? hleft fun heq ↦ hnot (heq ▸ hright)
  have hindex : (next.key.skip (bf.tokenSize * q.length)).token (bf.tokenSize * c.length)
      bf.tokenSize = u := by
    have hget : ((next.key.skip (bf.tokenSize * q.length)).tokens bf)[c.length]? = some u := by
      rw [hskip, List.getElem?_drop, ← hlength, hu]
    rw [Key.getElem?_tokens] at hget
    split_ifs at hget
    exact Option.some_inj.mp hget
  simp only [splitEdge, hlcp, hbranchKey, hindex]
  refine abs_split hkey (Key.packed_take hkey _) htake ?_ rfl
  rw [htake]
  exact hu

theorem packed_splitEdge {next : OwnedNode} (hkey : Key.Packed bf key) (hnext : Packed bf next)
    (q : List UInt8) :
    Packed bf (splitEdge bf.tokenSize key value (bf.tokenSize * q.length) next) := by
  have haligned : bf.tokenSize ∣ (next.key.skip (bf.tokenSize * q.length)).length := by
    rw [Key.length_skip]
    exact Nat.dvd_sub (packed_key hnext).aligned (Nat.dvd_mul_right _ _)
  rw [splitEdge]
  simp only [longestCommonPrefix_eq haligned hkey.aligned, ← Nat.mul_add]
  refine packed_setChild ?_ hnext
  split
  · exact packed_new (Key.packed_take hkey _) value
  · exact packed_setChild (packed_new (Key.packed_take hkey _) none) (packed_new hkey value)

theorem place_self (tokenSize : ℕ) :
    n.place tokenSize n.key value = n.setValue value := by
  rw [place, if_pos rfl]

theorem place_of_ne (tokenSize : ℕ) (hne : n.key ≠ key) :
    n.place tokenSize key value = n.setChild (key.token n.key.length tokenSize)
      (some ((n.children (key.token n.key.length tokenSize)).elim (new key value)
        (splitEdge tokenSize key value (n.key.length + tokenSize)))) := by
  rw [place, if_neg hne]
  rcases hc : n.children (key.token n.key.length tokenSize) with - | existing <;> simp [hc]

theorem visitPath_of_lt {k : Key} {v : Option Bytes} {cs : UInt8 → Option OwnedNode}
    {tokenSize : ℕ} (hlt : k.length < key.length) :
    visitPath key tokenSize (mk k v cs) = visitChild key tokenSize k.length
      (key.token k.length tokenSize) (cs (key.token k.length tokenSize)) := by
  rw [visitPath, if_pos hlt]

/-- **The walk and the change at its end are an insertion.** -/
theorem insert_spec (hn : Packed bf n) (hcanonical : Canonical (n.abs bf))
    (hkey : Key.Packed bf key) (hpre : n.key.tokens bf <+: key.tokens bf)
    (value : Option Bytes) :
    (n.modifyAt (place bf.tokenSize key value) (n.visitPath key bf.tokenSize)).abs bf
        = Radix.insert (key.tokens bf) value (n.abs bf) ∧
      Packed bf (n.modifyAt (place bf.tokenSize key value) (n.visitPath key bf.tokenSize)) := by
  induction hn with
  | @intro k v cs hk child ih =>
    have hn : Packed bf (mk k v cs) := .intro hk child
    rw [abs_mk] at hcanonical ⊢
    obtain ⟨-, step, childCanonical⟩ := hcanonical
    by_cases heq : k = key
    · -- the node itself
      subst heq
      rw [visitPath, if_neg (lt_irrefl _), modifyAt,
        show place bf.tokenSize k value (mk k v cs) = _ from place_self bf.tokenSize, abs_setValue,
        abs_mk, Radix.insert, if_pos rfl]
      exact ⟨rfl, .intro hk child⟩
    · have hlt := hk.length_lt hkey hpre heq
      have htoken := hk.getElem?_of_lt hkey hlt
      set t := key.token k.length bf.tokenSize with ht
      have hway := Radix.append_singleton_isPrefix hpre htoken
      have htokens : ¬key.tokens bf = k.tokens bf := fun h ↦ heq (hk.eq_of_tokens hkey h.symm)
      have hoffset : k.length + bf.tokenSize = bf.tokenSize * (k.tokens bf ++ [t]).length := by
        rw [hk.length_eq, List.length_append, List.length_singleton, Nat.mul_add, Nat.mul_one]
      rw [visitPath_of_lt hlt, ← ht, Radix.insert, if_neg htokens, htoken, Option.elim_some]
      rcases hc : cs t with - | next
      · -- a new leaf
        rw [visitChild, modifyAt, place_of_ne _ (show (mk k v cs).key ≠ key from heq)]
        simp only [key_mk, children_mk, ← ht, hc, Option.elim_none]
        rw [abs_setChild, abs_mk, abs_new, Option.map_none, Radix.graft]
        exact ⟨rfl, packed_setChild hn (packed_new hkey value)⟩
      · have hcabs : (fun i ↦ (cs i).map (abs bf)) t = some (next.abs bf) :=
          congrArg (Option.map (abs bf)) hc
        have hstep : k.tokens bf ++ [t] <+: next.key.tokens bf := by
          rw [← key_abs]
          exact step t _ hcabs
        have hnext := child t next hc
        have hiff := Key.iteratedHasPrefix_skip_iff hk hkey (packed_key hnext) hstep hway
        rw [visitChild, Option.map_some, Radix.graft, key_abs]
        by_cases hon : next.key.tokens bf <+: key.tokens bf
        · -- the walk goes on
          obtain ⟨habs, hpacked⟩ := ih t next hc (childCanonical t _ hcabs) hon
          rw [if_pos (hiff.mpr hon), if_pos hon, modifyAt, children_mk, hc, Option.elim_some,
            abs_setChild, abs_mk, habs]
          exact ⟨rfl, packed_setChild hn hpacked⟩
        · -- the edge is split
          rw [if_neg fun h ↦ hon (hiff.mp h), if_neg hon, modifyAt,
            place_of_ne _ (show (mk k v cs).key ≠ key from heq)]
          simp only [key_mk, children_mk, ← ht, hc, Option.elim_some, hoffset]
          rw [abs_setChild, abs_mk, abs_splitEdge hkey (packed_key hnext) hstep hway hon]
          exact ⟨rfl, packed_setChild hn (packed_splitEdge hkey hnext _)⟩

/-- Lookup. -/
theorem getFrom_eq_find (hn : Packed bf n) (hcanonical : Canonical (n.abs bf))
    (hkey : Key.Packed bf key) (hpre : n.key.tokens bf <+: key.tokens bf) :
    n.getFrom key bf.tokenSize = Radix.find (key.tokens bf) (n.abs bf) := by
  induction hn with
  | @intro k v cs hk child ih =>
    rw [key_mk] at hpre
    rw [abs_mk] at hcanonical ⊢
    obtain ⟨-, step, childCanonical⟩ := hcanonical
    rw [getFrom]
    by_cases heq : k = key
    · rw [if_pos heq, heq, Radix.find_node_self]
    · have hlt := hk.length_lt hkey hpre heq
      have htoken := hk.getElem?_of_lt hkey hlt
      set t := key.token k.length bf.tokenSize
      have hway := Radix.append_singleton_isPrefix hpre htoken
      rw [if_neg heq, Radix.find_node_of_isPrefix hway]
      rcases hc : cs t with - | next
      · rw [getChild, Option.map_none, Option.bind_none]
      · have hcabs : (fun i ↦ (cs i).map (abs bf)) t = some (next.abs bf) :=
          congrArg (Option.map (abs bf)) hc
        have hstep : k.tokens bf ++ [t] <+: next.key.tokens bf := by
          rw [← key_abs]
          exact step t _ hcabs
        have hiff := Key.iteratedHasPrefix_skip_iff hk hkey (packed_key (child t next hc)) hstep
          hway
        rw [getChild, Option.map_some, Option.bind_some]
        by_cases hon : next.key.tokens bf <+: key.tokens bf
        · rw [if_pos (hiff.mpr hon)]
          exact ih t next hc (childCanonical t _ hcabs) hon
        · rw [if_neg fun h ↦ hon (hiff.mp h)]
          refine ((childCanonical t _ hcabs).find_eq_none ?_).symm
          rwa [key_abs]

theorem setChild_comm {i j : UInt8} (hij : i ≠ j) (c d : Option OwnedNode) :
    (n.setChild i c).setChild j d = (n.setChild j d).setChild i c := by
  simp only [setChild, children_mk, key_mk, value_mk]
  rw [Function.update_comm hij]

/-- The walk ends at a root over a node that is not on the way. -/
theorem modifyAt_over {p : Key} {u : UInt8} {root : OwnedNode} (hp : Key.Packed bf p)
    (hkey : Key.Packed bf key) (hpkey : p.tokens bf <+: key.tokens bf)
    (hu : (key.tokens bf)[(p.tokens bf).length]? ≠ some u) :
    ((new p none).setChild u (some root)).modifyAt (place bf.tokenSize key value)
      (((new p none).setChild u (some root)).visitPath key bf.tokenSize)
        = (if key.length = p.length then new p value
          else (new p none).setChild (key.token p.length bf.tokenSize)
            (some (new key value))).setChild u (some root) := by
  have hover : (new p none).setChild u (some root)
      = mk p none (Function.update (fun _ ↦ none) u (some root)) := rfl
  by_cases heq : p = key
  · subst heq
    rw [hover, visitPath, if_neg (lt_irrefl _), modifyAt, if_pos rfl]
    exact place_self bf.tokenSize
  · have hlt := hp.length_lt hkey hpkey heq
    have hne : u ≠ key.token p.length bf.tokenSize := fun h ↦
      hu (h ▸ hp.getElem?_of_lt hkey hlt)
    have hnone : Function.update (fun _ ↦ none) u (some root) (key.token p.length bf.tokenSize)
        = none := Function.update_of_ne hne.symm _ _
    rw [if_neg hlt.ne', ← setChild_comm hne, hover, visitPath_of_lt hlt, hnone, visitChild,
      modifyAt, place_of_ne _ (show (mk p none _).key ≠ key from heq)]
    simp only [key_mk, children_mk, hnone, Option.elim_none]

end OwnedNode

namespace Trie

open Radix (Canonical)

variable {t : Trie} {key : Key}
variable {bf : BranchFactor}

/-- The keys of a trie are packed, and it is canonical. -/
def Good (t : Trie) : Prop :=
  ∀ root ∈ t.root, root.Packed t.branchFactor ∧ Canonical (root.abs t.branchFactor)

/-- The trie seen through its tokens. -/
def abs (t : Trie) : Option (Radix UInt8 Bytes) := t.root.map (OwnedNode.abs t.branchFactor)

theorem good_new (bf : BranchFactor) : Good (new bf) := fun _ h ↦ nomatch h

/-- A new root takes the old one and the new key below it. -/
theorem place_rootOver {root : OwnedNode} (hroot : root.Packed bf)
    (hkey : Key.Packed bf key) (hnot : ¬root.key.tokens bf <+: key.tokens bf)
    (value : Option Bytes) :
    let root' := rootOver bf.tokenSize key root
    let placed := root'.modifyAt (OwnedNode.place bf.tokenSize key value)
      (root'.visitPath key bf.tokenSize)
    key.hasPrefix root'.key = true ∧
      placed.abs bf = Radix.split (key.tokens bf) value (root.abs bf) ∧ placed.Packed bf := by
  have hrootKey := OwnedNode.packed_key hroot
  have hright := Radix.common_prefix_right (root.key.tokens bf) (key.tokens bf)
  have hleft := Radix.common_prefix_left (root.key.tokens bf) (key.tokens bf)
  have hlcp : longestCommonPrefix root.key key 0 bf.tokenSize
      = bf.tokenSize * (Radix.common (root.key.tokens bf) (key.tokens bf)).length := by
    have h := longestCommonPrefix_eq hrootKey.aligned hkey.aligned 0
    rwa [Nat.mul_zero, List.drop_zero] at h
  obtain ⟨p, hp⟩ : ∃ p, p = root.key.take (longestCommonPrefix root.key key 0 bf.tokenSize) :=
    ⟨_, rfl⟩
  have hpacked : Key.Packed bf p := by
    rw [hp, hlcp]
    exact Key.packed_take hrootKey _
  have htokens : p.tokens bf = Radix.common (root.key.tokens bf) (key.tokens bf) := by
    rw [hp, hlcp, Key.tokens_take hrootKey, ← List.prefix_iff_eq_take.mp hleft]
  have hpkey : p.tokens bf <+: key.tokens bf := htokens ▸ hright
  have hlt : p.length < root.key.length :=
    hpacked.length_lt hrootKey (htokens ▸ hleft) fun heq ↦ hnot (heq ▸ hpkey)
  have hu := hpacked.getElem?_of_lt hrootKey hlt
  have hnotKey : (key.tokens bf)[(p.tokens bf).length]?
      ≠ some (root.key.token p.length bf.tokenSize) := by
    rw [htokens] at hu ⊢
    exact Radix.getElem?_common_ne hu
  have hover : rootOver bf.tokenSize key root = (OwnedNode.new p none).setChild
      (root.key.token p.length bf.tokenSize) (some root) := by
    rw [rootOver, if_neg fun h ↦ hnot ((Key.hasPrefix_iff_tokens hkey hrootKey).mp h), ← hp]
  simp only [hover, OwnedNode.modifyAt_over hpacked hkey hpkey hnotKey]
  refine ⟨(Key.hasPrefix_iff_tokens hkey hpacked).mpr hpkey,
    OwnedNode.abs_split hkey hpacked htokens hu rfl, OwnedNode.packed_setChild ?_ hroot⟩
  split
  · exact OwnedNode.packed_new hpacked value
  · exact OwnedNode.packed_setChild (OwnedNode.packed_new hpacked none)
      (OwnedNode.packed_new hkey value)

theorem branchFactor_insert (t : Trie) (key : Key) (value : Option Bytes) :
    (t.insert key value).branchFactor = t.branchFactor := by
  rw [insert]
  split <;> rfl

/-- **Insertion refines that of `Radix`.** -/
theorem abs_insert (h : t.Good) (hkey : Key.Packed t.branchFactor key) (value : Option Bytes) :
    (t.insert key value).abs
        = some (Radix.graft (key.tokens t.branchFactor) value t.abs) ∧
      ∀ root ∈ (t.insert key value).root, root.Packed t.branchFactor := by
  obtain ⟨root, bf⟩ := t
  rcases root with - | root
  · refine ⟨congrArg some (OwnedNode.abs_new key value), ?_⟩
    rintro root ⟨⟩
    exact OwnedNode.packed_new hkey value
  · obtain ⟨hroot, hcanonical⟩ := h root rfl
    have hiff := Key.hasPrefix_iff_tokens hkey (OwnedNode.packed_key hroot)
    have hinsert : (insert ⟨some root, bf⟩ key value).root
        = some ((rootOver bf.tokenSize key root).modifyAt (OwnedNode.place bf.tokenSize key value)
            (if key.hasPrefix (rootOver bf.tokenSize key root).key
              then (rootOver bf.tokenSize key root).visitPath key bf.tokenSize else [])) := rfl
    rw [abs, abs, branchFactor_insert, hinsert, Option.map_some, Option.map_some, Radix.graft,
      OwnedNode.key_abs]
    by_cases hon : root.key.tokens bf <+: key.tokens bf
    · have hover : rootOver bf.tokenSize key root = root := by
        rw [rootOver, if_pos (hiff.mpr hon)]
      obtain ⟨habs, hpacked⟩ := OwnedNode.insert_spec hroot hcanonical hkey hon value
      rw [hover, if_pos (hiff.mpr hon), if_pos hon]
      refine ⟨congrArg some habs, ?_⟩
      rintro _ ⟨⟩
      exact hpacked
    · obtain ⟨hpre, habs, hpacked⟩ := place_rootOver hroot hkey hon value
      rw [if_pos hpre, if_neg hon]
      refine ⟨congrArg some habs, ?_⟩
      rintro _ ⟨⟩
      exact hpacked

theorem get_eq_find (h : t.Good) (hkey : Key.Packed t.branchFactor key) :
    t.get key = t.abs.bind (Radix.find (key.tokens t.branchFactor)) := by
  obtain ⟨root, bf⟩ := t
  rcases root with - | root
  · rfl
  · obtain ⟨hroot, hcanonical⟩ := h root rfl
    have hiff := Key.hasPrefix_iff_tokens hkey (OwnedNode.packed_key hroot)
    rw [get, abs, Option.elim_some, Option.map_some, Option.bind_some]
    by_cases hon : root.key.tokens bf <+: key.tokens bf
    · rw [if_pos (hiff.mpr hon)]
      exact OwnedNode.getFrom_eq_find hroot hcanonical hkey hon
    · rw [if_neg fun h ↦ hon (hiff.mp h)]
      refine (hcanonical.find_eq_none ?_).symm
      rwa [OwnedNode.key_abs]

/-- **Insertion keeps a trie good and changes one value.** -/
theorem good_insert (h : t.Good) (hkey : Key.Packed t.branchFactor key) (v : Bytes) :
    (t.insert key (some v)).Good ∧ ∀ tokens, (t.insert key (some v)).abs.bind (Radix.find tokens)
      = if tokens = key.tokens t.branchFactor then some v else t.abs.bind (Radix.find tokens) := by
  obtain ⟨habs, hpacked⟩ := abs_insert h hkey (some v)
  have hcanonical : ∀ c ∈ t.abs, Canonical c := by
    intro c hc
    obtain ⟨root, hroot, rfl⟩ := Option.map_eq_some_iff.mp hc
    exact (h root hroot).2
  obtain ⟨hgraft, hfind, -⟩ :=
    Radix.inserted_graft hcanonical (key.tokens t.branchFactor) v
  refine ⟨fun root hroot ↦ ?_, fun tokens ↦ ?_⟩
  · rw [branchFactor_insert]
    refine ⟨hpacked root hroot, ?_⟩
    rw [abs, Option.mem_def.mp hroot, branchFactor_insert, Option.map_some, Option.some_inj] at habs
    rwa [habs]
  · rw [habs, Option.bind_some, hfind]

/-- **A good trie is determined by its values.** -/
theorem Good.ext {t' : Trie} (h : t.Good) (h' : t'.Good) (hbf : t.branchFactor = t'.branchFactor)
    (hfind : ∀ tokens, t.abs.bind (Radix.find tokens) = t'.abs.bind (Radix.find tokens)) :
    t = t' := by
  obtain ⟨root, bf⟩ := t
  obtain ⟨root', bf'⟩ := t'
  cases hbf
  rcases root with - | root <;> rcases root' with - | root'
  · rfl
  · obtain ⟨tokens, v, hv⟩ := (h' root' rfl).2.exists_find
    exact nomatch (hfind tokens).trans hv
  · obtain ⟨tokens, v, hv⟩ := (h root rfl).2.exists_find
    exact nomatch (hfind tokens).symm.trans hv
  · obtain ⟨hpacked, hcanonical⟩ := h root rfl
    obtain ⟨hpacked', hcanonical'⟩ := h' root' rfl
    rw [OwnedNode.eq_of_abs hpacked hpacked' (hcanonical.ext hcanonical' hfind)]

/-! ### Runs of insertions -/

/-- The trie that insertions at the keys of all bits of some bytes build. -/
def ofInserts (bf : BranchFactor) (kvs : List (Bytes × Bytes)) : Trie :=
  kvs.foldl (fun t p ↦ t.apply (.fromBytes p.1) (some p.2)) (new bf)

/-- The value last inserted at a key. -/
def lastInserted (kvs : List (Bytes × Bytes)) (key : Bytes) : Option Bytes :=
  kvs.foldl (fun found p ↦ if p.1 = key then some p.2 else found) none

theorem ofInserts_append_singleton (bf : BranchFactor) (kvs : List (Bytes × Bytes))
    (p : Bytes × Bytes) :
    ofInserts bf (kvs ++ [p]) = (ofInserts bf kvs).insert (.fromBytes p.1) (some p.2) := by
  rw [ofInserts, List.foldl_append]
  rfl

theorem lastInserted_append_singleton (kvs : List (Bytes × Bytes)) (p : Bytes × Bytes)
    (key : Bytes) :
    lastInserted (kvs ++ [p]) key = if p.1 = key then some p.2 else lastInserted kvs key := by
  rw [lastInserted, List.foldl_append]
  rfl

theorem tokens_fromBytes_inj {a b : Bytes} :
    (Key.fromBytes a).tokens bf = (Key.fromBytes b).tokens bf ↔ a = b := by
  refine ⟨fun h ↦ ?_, fun h ↦ by rw [h]⟩
  exact congrArg Key.value
    ((Key.packed_fromBytes bf a).eq_of_tokens (Key.packed_fromBytes bf b) h)

theorem branchFactor_ofInserts (bf : BranchFactor) (kvs : List (Bytes × Bytes)) :
    (ofInserts bf kvs).branchFactor = bf := by
  induction kvs using List.reverseRecOn with
  | nil => rfl
  | append_singleton kvs p ih => rw [ofInserts_append_singleton, branchFactor_insert, ih]

/-- The values in a trie that was built by insertions. -/
theorem built (bf : BranchFactor) (kvs : List (Bytes × Bytes)) :
    (ofInserts bf kvs).Good ∧ ∀ tokens v,
      (ofInserts bf kvs).abs.bind (Radix.find tokens) = some v ↔
        ∃ key, (Key.fromBytes key).tokens bf = tokens ∧ lastInserted kvs key = some v := by
  induction kvs using List.reverseRecOn with
  | nil => exact ⟨good_new bf, fun tokens v ↦ iff_of_false nofun fun ⟨_, _, h⟩ ↦ nomatch h⟩
  | append_singleton kvs p ih =>
    obtain ⟨hgood, hvalues⟩ := ih
    have hpacked : Key.Packed (ofInserts bf kvs).branchFactor (.fromBytes p.1) :=
      Key.packed_fromBytes _ p.1
    obtain ⟨hgood', hfind⟩ := good_insert hgood hpacked p.2
    rw [ofInserts_append_singleton]
    refine ⟨hgood', fun tokens v ↦ ?_⟩
    rw [hfind, branchFactor_ofInserts]
    simp only [lastInserted_append_singleton]
    split
    case isTrue htokens =>
      subst htokens
      constructor
      · exact fun hv ↦ ⟨p.1, rfl, by rw [if_pos rfl, hv]⟩
      · rintro ⟨key, hkey, hv⟩
        rwa [if_pos (tokens_fromBytes_inj.mp hkey).symm] at hv
    case isFalse htokens =>
      rw [hvalues]
      refine exists_congr fun key ↦ and_congr_right fun hkey ↦ ?_
      rw [if_neg]
      rintro rfl
      exact htokens hkey.symm

theorem get_ofInserts (bf : BranchFactor) (kvs : List (Bytes × Bytes)) (key : Bytes) :
    (ofInserts bf kvs).get (.fromBytes key) = lastInserted kvs key := by
  obtain ⟨hgood, hvalues⟩ := built bf kvs
  have hpacked : Key.Packed (ofInserts bf kvs).branchFactor (.fromBytes key) :=
    Key.packed_fromBytes _ key
  rw [get_eq_find hgood hpacked, branchFactor_ofInserts]
  refine Option.ext fun v ↦ ?_
  rw [hvalues]
  constructor
  · rintro ⟨key', hkey', hv⟩
    rwa [tokens_fromBytes_inj.mp hkey'] at hv
  · exact fun hv ↦ ⟨key, rfl, hv⟩

/-- Nothing is found at a key that is not one of whole bytes. -/
theorem get_ofInserts_of_ne (bf : BranchFactor) (kvs : List (Bytes × Bytes)) {k : Key}
    (hk : Key.Packed bf k) (hne : ∀ key, k ≠ .fromBytes key) : (ofInserts bf kvs).get k = none := by
  obtain ⟨hgood, hvalues⟩ := built bf kvs
  have hpacked : Key.Packed (ofInserts bf kvs).branchFactor k := by rwa [branchFactor_ofInserts]
  rw [get_eq_find hgood hpacked, branchFactor_ofInserts, Option.eq_none_iff_forall_ne_some]
  intro v hv
  obtain ⟨key, htokens, -⟩ := (hvalues _ v).mp hv
  exact hne key (hk.eq_of_tokens (Key.packed_fromBytes bf key) htokens.symm)

/-- The trie depends on the resulting map only. -/
theorem ofInserts_eq {kvs kvs' : List (Bytes × Bytes)}
    (h : ∀ key, lastInserted kvs key = lastInserted kvs' key) :
    ofInserts bf kvs = ofInserts bf kvs' := by
  obtain ⟨hgood, hvalues⟩ := built bf kvs
  obtain ⟨hgood', hvalues'⟩ := built bf kvs'
  refine hgood.ext hgood' ?_ fun tokens ↦ Option.ext fun v ↦ ?_
  · rw [branchFactor_ofInserts, branchFactor_ofInserts]
  · rw [hvalues, hvalues']
    simp only [h]

end Trie

namespace OwnedNode

/-- A node is at or below another one. -/
inductive Reaches : OwnedNode → OwnedNode → Prop
  | refl (n : OwnedNode) : Reaches n n
  | child {n c m : OwnedNode} {i : UInt8} (hc : n.children i = some c) (h : Reaches c m) :
      Reaches n m

variable {bf : BranchFactor} {n : OwnedNode}

theorem Reaches.good {m : OwnedNode} (h : n.Reaches m) (hn : Packed bf n)
    (hcanonical : Radix.Canonical (n.abs bf)) :
    Packed bf m ∧ Radix.Canonical (m.abs bf) := by
  induction h with
  | refl n => exact ⟨hn, hcanonical⟩
  | @child n c m i hc _ ih =>
    obtain ⟨-, child⟩ := hn
    rw [abs_mk] at hcanonical
    obtain ⟨-, -, childCanonical⟩ := hcanonical
    exact ih (child i c hc) (childCanonical i _ (congrArg (Option.map (abs bf)) hc))

/-- A node with a value, or with two children. -/
theorem branches (hcanonical : Radix.Canonical (n.abs bf)) (hvalue : n.value = none) :
    ∃ i j, i ≠ j ∧ (n.children i).isSome ∧ (n.children j).isSome := by
  obtain ⟨k, v, cs⟩ := n
  rw [abs_mk] at hcanonical
  obtain ⟨branch, -, -⟩ := hcanonical
  simpa only [Option.isSome_map, children_mk] using branch hvalue

/-- The key of a child goes on with its token. -/
theorem child_key (hn : Packed bf n) (hcanonical : Radix.Canonical (n.abs bf)) {i : UInt8}
    {c : OwnedNode} (hc : n.children i = some c) :
    c.key.hasPrefix n.key = true ∧ n.key.length + bf.tokenSize ≤ c.key.length ∧
      c.key.token n.key.length bf.tokenSize = i := by
  obtain ⟨k, v, cs⟩ := n
  obtain ⟨hk, child⟩ := hn
  have hckey := packed_key (child i c hc)
  rw [abs_mk] at hcanonical
  obtain ⟨-, step, -⟩ := hcanonical
  have hstep := step i _ (congrArg (Option.map (abs bf)) hc)
  rw [key_abs] at hstep
  have hpre : k.tokens bf <+: c.key.tokens bf := (List.prefix_append _ _).trans hstep
  have hle : k.length + bf.tokenSize ≤ c.key.length := by
    have hlength := Nat.mul_le_mul_left bf.tokenSize hstep.length_le
    rwa [List.length_append, List.length_singleton, Nat.mul_add, Nat.mul_one, ← hk.length_eq,
      ← hckey.length_eq] at hlength
  have hpos := bf.tokenSize_pos
  refine ⟨(Key.hasPrefix_iff_tokens hckey hk).mpr hpre, hle, ?_⟩
  have htoken := hk.getElem?_of_lt hckey (by omega)
  rw [Radix.prefix_getElem? hstep, Option.some_inj] at htoken
  exact htoken.symm

end OwnedNode

/-- **A trie built by insertions represents its map canonically.** A lookup returns the value last
inserted, and nothing at a key that cannot be inserted; a node other than the root has a value or at
least two children; the key of a child goes on from that of its parent with the token that the child
is stored under; and the root id depends on the resulting map alone, whatever the order of the
insertions and the values overwritten. -/
theorem Trie.ofInserts_canonical (bf : BranchFactor) (kvs : List (Bytes × Bytes)) :
    (∀ key, (Trie.ofInserts bf kvs).get (.fromBytes key) = Trie.lastInserted kvs key) ∧
      (∀ k, Key.Packed bf k → (∀ key, k ≠ .fromBytes key) → (Trie.ofInserts bf kvs).get k = none) ∧
      (∀ root ∈ (Trie.ofInserts bf kvs).root, ∀ n, root.Reaches n → ∀ i c,
        n.children i = some c →
          (c.value = none → ∃ j j', j ≠ j' ∧ (c.children j).isSome ∧ (c.children j').isSome) ∧
          c.key.hasPrefix n.key = true ∧ n.key.length + bf.tokenSize ≤ c.key.length ∧
          c.key.token n.key.length bf.tokenSize = i) ∧
      ∀ kvs', (∀ key, Trie.lastInserted kvs key = Trie.lastInserted kvs' key) →
        ∀ hasher, (Trie.ofInserts bf kvs).rootId hasher
          = (Trie.ofInserts bf kvs').rootId hasher := by
  refine ⟨Trie.get_ofInserts bf kvs, fun _ ↦ Trie.get_ofInserts_of_ne bf kvs, ?_,
    fun kvs' h hasher ↦ ?_⟩
  · intro root hroot n hn i c hc
    obtain ⟨hgood, -⟩ := Trie.built bf kvs
    have hroot' := hgood root hroot
    rw [Trie.branchFactor_ofInserts] at hroot'
    obtain ⟨hpacked, hcanonical⟩ := hn.good hroot'.1 hroot'.2
    obtain ⟨-, hchild⟩ :=
      (OwnedNode.Reaches.child hc (.refl c)).good hpacked hcanonical
    exact ⟨OwnedNode.branches hchild, OwnedNode.child_key hpacked hcanonical hc⟩
  · rw [Trie.ofInserts_eq h]

end Avalanche.Merkle
