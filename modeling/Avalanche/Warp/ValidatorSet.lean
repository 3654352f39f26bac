import Avalanche.Library.Loop
import Avalanche.Platform.Staker

/-!
# The set of validators that sign

The validators of a subnet are merged by their BLS key: nodes that share a key become one entry with
the sum of their weights, and a node without a key has no entry. All of them count in the total
weight. The entries are ordered by the bytes of their keys, and a position in that order stands for
an entry in the signatures.
-/

open Std
open Except (orError)

namespace Avalanche.Warp

open Platform (Bytes PublicKey)

structure GetValidatorOutput where
  nodeId : NodeId
  publicKey : Option PublicKey
  weight : ℕ
deriving DecidableEq

structure WarpSet where
  validators : List GetValidatorOutput
  totalWeight : ℕ
deriving DecidableEq

inductive ValidatorsError
  | weightOverflow
deriving DecidableEq

abbrev ByKey := ExtTreeMap Bytes (PublicKey × ℕ)

/-- The entry of a key, new if there is none. -/
def ByKey.entry (byKey : ByKey) (pk : PublicKey) : PublicKey × ℕ :=
  byKey[pk.serialize]?.getD (pk, 0)

/-- Adds the weight of a node to the entry of its key. -/
def addWeight (byKey : ByKey) (pk : PublicKey) (weight : ℕ) : ByKey :=
  let entry := byKey.entry pk
  byKey.insert pk.serialize (entry.1, saturatingAdd entry.2 weight)

/-- One round of the loop of `flatten_validator_set`. -/
def flattenStep (acc : ByKey × ℕ) (vdr : GetValidatorOutput) :
    Except ValidatorsError (ByKey × ℕ) := do
  let totalWeight ← orError (checkedAdd acc.2 vdr.weight) .weightOverflow
  return (vdr.publicKey.elim acc.1 fun pk ↦ addWeight acc.1 pk vdr.weight, totalWeight)

def flattenValidatorSet (set : ExtTreeMap NodeId GetValidatorOutput) :
    Except ValidatorsError WarpSet := do
  let (byKey, totalWeight) ← set.values.foldlM flattenStep (∅, 0)
  return ⟨byKey.values.map fun entry ↦ ⟨0#160, some entry.1, entry.2⟩, totalWeight⟩

/-! ### Weights -/

/-- The sum of the weights in a list. -/
def weightOf (vdrs : List GetValidatorOutput) : ℕ := (vdrs.map GetValidatorOutput.weight).sum

/-- The members whose key is among some keys. -/
def withKey (keys : List PublicKey) (vdrs : List GetValidatorOutput) : List GetValidatorOutput :=
  vdrs.filter fun vdr ↦ ∃ pk ∈ vdr.publicKey, pk ∈ keys

/-- The weight that an entry contributes when its key is among some keys. -/
def keyWeight (keys : List PublicKey) (entry : PublicKey × ℕ) : ℕ :=
  if entry.1 ∈ keys then entry.2 else 0

@[simp] theorem weightOf_nil : weightOf [] = 0 := rfl

@[simp] theorem weightOf_cons (vdr : GetValidatorOutput) (vdrs : List GetValidatorOutput) :
    weightOf (vdr :: vdrs) = vdr.weight + weightOf vdrs := by
  rw [weightOf, List.map_cons, List.sum_cons, weightOf]

theorem weightOf_append (vdrs vdrs' : List GetValidatorOutput) :
    weightOf (vdrs ++ vdrs') = weightOf vdrs + weightOf vdrs' := by
  rw [weightOf, List.map_append, List.sum_append, weightOf, weightOf]

theorem withKey_append (keys : List PublicKey) (vdrs vdrs' : List GetValidatorOutput) :
    withKey keys (vdrs ++ vdrs') = withKey keys vdrs ++ withKey keys vdrs' :=
  List.filter_append _ _

/-! ### The loop -/

/-- The entries and the total weight after the loop has seen some nodes. -/
structure Flattened (seen : List GetValidatorOutput) (acc : ByKey × ℕ) : Prop where
  total : acc.2 = weightOf seen
  keyed : ∀ (k : Bytes) entry, acc.1[k]? = some entry → entry.1.serialize = k
  /-- Whatever keys are chosen, the entries have the weight of the nodes. -/
  sum : ∀ keys, TreeMap.sumOn (keyWeight keys) acc.1 = weightOf (withKey keys seen)
  le : ∀ (k : Bytes) entry, acc.1[k]? = some entry → entry.2 ≤ acc.2
  /-- Every key of a node has its entry. -/
  complete : ∀ vdr ∈ seen, ∀ pk ∈ vdr.publicKey, (acc.1[pk.serialize]?).isSome

theorem flattened_nil : Flattened [] (∅, 0) where
  total := rfl
  keyed _ _ h := by simp at h
  sum _ := rfl
  le _ _ h := by simp at h
  complete _ h := nomatch h

theorem serialize_injective : Function.Injective PublicKey.serialize := by
  rintro ⟨a⟩ ⟨b⟩ rfl
  rfl

namespace Flattened

variable {seen : List GetValidatorOutput} {acc : ByKey × ℕ}

theorem entry_fst (h : Flattened seen acc) (pk : PublicKey) : (acc.1.entry pk).1 = pk := by
  rw [ByKey.entry]
  rcases hget : acc.1[pk.serialize]? with - | entry
  · rfl
  · exact serialize_injective (h.keyed _ _ hget)

theorem entry_snd_le (h : Flattened seen acc) (pk : PublicKey) : (acc.1.entry pk).2 ≤ acc.2 := by
  rw [ByKey.entry]
  rcases hget : acc.1[pk.serialize]? with - | entry
  · exact Nat.zero_le _
  · exact h.le _ _ hget

theorem share_eq (h : Flattened seen acc) (keys : List PublicKey) (pk : PublicKey) :
    TreeMap.share (keyWeight keys) acc.1 pk.serialize
      = if pk ∈ keys then (acc.1.entry pk).2 else 0 := by
  have hfst := h.entry_fst pk
  rw [TreeMap.share, ByKey.entry] at *
  rcases hget : acc.1[pk.serialize]? with - | entry
  · simp
  · rw [hget, Option.getD_some] at hfst
    rw [Option.elim_some, keyWeight, hfst, Option.getD_some]

/-- One more node. -/
theorem step (h : Flattened seen acc) {vdr : GetValidatorOutput} {acc' : ByKey × ℕ}
    (hstep : flattenStep acc vdr = .ok acc') : Flattened (seen ++ [vdr]) acc' := by
  obtain ⟨total, htotal, hacc⟩ := Except.bind_eq_ok_iff.mp hstep
  rw [Except.orError_eq_ok_iff, checkedAdd_eq_some_iff] at htotal
  obtain ⟨hbound, rfl⟩ := htotal
  cases hacc
  have hweight : acc.2 + vdr.weight = weightOf (seen ++ [vdr]) := by
    rw [weightOf_append, weightOf_cons, weightOf_nil, h.total, Nat.add_zero]
  rcases hpk : vdr.publicKey with - | pk
  · -- a node without a key only adds to the total
    rw [Option.elim_none]
    have hwith : ∀ keys, withKey keys (seen ++ [vdr]) = withKey keys seen := fun keys ↦ by
      rw [withKey_append, withKey, withKey, List.filter_singleton]
      simp [hpk]
    refine ⟨hweight, h.keyed, fun keys ↦ by rw [hwith, h.sum],
      fun k entry hget ↦ (h.le k entry hget).trans (Nat.le_add_right _ _), ?_⟩
    intro v hv pk hvpk
    rcases List.mem_append.mp hv with hv | hv
    · exact h.complete v hv pk hvpk
    · rw [List.mem_singleton.mp hv, hpk] at hvpk
      cases hvpk
  · -- the weights of a key never exceed the total, so that the sum does not saturate
    have hle := h.entry_snd_le pk
    have hadd : addWeight acc.1 pk vdr.weight
        = acc.1.insert pk.serialize (pk, (acc.1.entry pk).2 + vdr.weight) := by
      rw [addWeight, h.entry_fst, saturatingAdd_of_le (by omega)]
    rw [Option.elim_some, hadd]
    refine ⟨hweight, fun k entry hget ↦ ?_, fun keys ↦ ?_, fun k entry hget ↦ ?_, ?_⟩
    · rw [TreeMap.getElem?_insert_eq] at hget
      split_ifs at hget with hk
      · cases hget
        exact hk
      · exact h.keyed k entry hget
    · have hinsert := TreeMap.sumOn_insert (keyWeight keys) acc.1 pk.serialize
        (pk, (acc.1.entry pk).2 + vdr.weight)
      have hwith : weightOf (withKey keys (seen ++ [vdr]))
          = weightOf (withKey keys seen) + if pk ∈ keys then vdr.weight else 0 := by
        rw [withKey_append, weightOf_append, withKey, withKey, List.filter_singleton]
        by_cases hkeys : pk ∈ keys <;> simp [hpk, hkeys]
      rw [h.share_eq, h.sum, keyWeight] at hinsert
      rw [hwith]
      by_cases hkeys : pk ∈ keys
      · simp only [if_pos hkeys] at hinsert ⊢
        omega
      · simp only [if_neg hkeys] at hinsert ⊢
        omega
    · rw [TreeMap.getElem?_insert_eq] at hget
      split_ifs at hget with hk
      · cases hget
        exact Nat.add_le_add_right hle _
      · exact (h.le k entry hget).trans (Nat.le_add_right _ _)
    · intro v hv pk' hvpk
      rw [TreeMap.getElem?_insert_eq]
      split_ifs with hk
      · rfl
      · rcases List.mem_append.mp hv with hv | hv
        · exact h.complete v hv pk' hvpk
        · rw [List.mem_singleton.mp hv, hpk] at hvpk
          cases hvpk
          exact absurd rfl hk

theorem run (h : Flattened seen acc) {vdrs : List GetValidatorOutput} {acc' : ByKey × ℕ}
    (hrun : vdrs.foldlM flattenStep acc = .ok acc') : Flattened (seen ++ vdrs) acc' := by
  induction vdrs generalizing seen acc with
  | nil =>
    cases hrun
    rwa [List.append_nil]
  | cons vdr vdrs ih =>
    rw [List.foldlM_cons, Except.bind_eq_ok_iff] at hrun
    obtain ⟨mid, hmid, hrun⟩ := hrun
    have hseen := ih (h.step hmid) hrun
    rwa [List.append_assoc] at hseen

end Flattened

/-! ### The flattened set -/

/-- The entry of a key as a validator. -/
def output (entry : PublicKey × ℕ) : GetValidatorOutput := ⟨0#160, some entry.1, entry.2⟩

theorem weightOf_withKey_map_output (keys : List PublicKey) (entries : List (PublicKey × ℕ)) :
    weightOf (withKey keys (entries.map output)) = (entries.map (keyWeight keys)).sum := by
  induction entries with
  | nil => rfl
  | cons entry entries ih =>
    rw [List.map_cons, List.map_cons, List.sum_cons, ← ih, keyWeight]
    by_cases hkeys : entry.1 ∈ keys <;> simp [withKey, output, hkeys]

/-- What a flattened set is: each key of a node has exactly one entry, and whatever keys are chosen,
their entries have the weight of the nodes with those keys. -/
structure IsFlat (nodes : List GetValidatorOutput) (warpSet : WarpSet) : Prop where
  total : warpSet.totalWeight = weightOf nodes
  nodup : (warpSet.validators.map GetValidatorOutput.publicKey).Nodup
  keyed : ∀ vdr ∈ warpSet.validators, vdr.publicKey.isSome
  sum : ∀ keys, weightOf (withKey keys warpSet.validators) = weightOf (withKey keys nodes)
  complete : ∀ node ∈ nodes, ∀ pk ∈ node.publicKey,
    some pk ∈ warpSet.validators.map GetValidatorOutput.publicKey

theorem isFlat_of_flattenValidatorSet {set : ExtTreeMap NodeId GetValidatorOutput}
    {warpSet : WarpSet} (h : flattenValidatorSet set = .ok warpSet) :
    IsFlat set.values warpSet := by
  obtain ⟨⟨byKey, total⟩, hrun, hset⟩ := Except.bind_eq_ok_iff.mp h
  cases hset
  have hflat : Flattened set.values (byKey, total) := flattened_nil.run hrun
  have hvalues : byKey.values.map output = byKey.toList.map fun p ↦ output p.2 := by
    rw [TreeMap.values_eq, List.map_map]
    rfl
  have hmem : ∀ p ∈ byKey.toList, p.2.1.serialize = p.1 := fun p hp ↦
    hflat.keyed _ _ (ExtTreeMap.mem_toList_iff_getElem?_eq_some.mp hp)
  refine ⟨hflat.total, ?_, ?_, fun keys ↦ ?_, fun node hnode pk hpk ↦ ?_⟩
  · change ((byKey.values.map output).map _).Nodup
    rw [hvalues, List.map_map, List.Nodup, List.pairwise_map]
    refine (TreeMap.pairwise_fst_toList byKey).imp_of_mem fun {p q} hp hq hne heq ↦ hne ?_
    rw [← hmem p hp, ← hmem q hq, Option.some_inj.mp heq]
  · intro vdr hvdr
    obtain ⟨entry, -, rfl⟩ := List.mem_map.mp hvdr
    rfl
  · change weightOf (withKey keys (byKey.values.map output)) = _
    rw [weightOf_withKey_map_output, ← hflat.sum, TreeMap.sumOn, TreeMap.values_eq, List.map_map]
    rfl
  · obtain ⟨entry, hentry⟩ := Option.isSome_iff_exists.mp (hflat.complete node hnode pk hpk)
    rw [← serialize_injective (hflat.keyed _ _ hentry)]
    refine List.mem_map.mpr ⟨output entry, List.mem_map_of_mem ?_, rfl⟩
    exact TreeMap.mem_values.mpr ⟨_, hentry⟩

end Avalanche.Warp
