import Avalanche.Library.TreeMap

/-!
# The keys at which two maps differ

The keys of both maps are put together, sorted and freed from repetitions. Those at which the maps
differ come in ascending order, each one once.
-/

open Std

namespace TreeMap

variable {κ β : Type} [Ord κ] [TransOrd κ] [LawfulEqOrd κ] [DecidableEq κ]

/-- The keys of both maps in order. Among sorted keys the repeated ones are next to each other. -/
def allKeys (before after : ExtTreeMap κ β) : List κ :=
  ((before.keys ++ after.keys).insertionSort fun a b ↦ (compare a b).isLE).destutter (· ≠ ·)

/-- The keys at which two maps differ. -/
def changedKeys [DecidableEq β] (before after : ExtTreeMap κ β) : List κ :=
  (allKeys before after).filter fun k ↦ before[k]? ≠ after[k]?

variable {before after : ExtTreeMap κ β} {k : κ}

omit [LawfulEqOrd κ] [DecidableEq κ] in
theorem pairwise_sorted (l : List κ) :
    (l.insertionSort fun a b ↦ (compare a b).isLE).Pairwise fun a b ↦ (compare a b).isLE := by
  have : Std.Total fun a b : κ ↦ (compare a b).isLE = true := by
    refine ⟨fun a b ↦ ?_⟩
    have hswap : compare b a = (compare a b).swap := OrientedCmp.eq_swap
    rw [hswap]
    cases compare a b <;> decide
  have : IsTrans κ fun a b ↦ (compare a b).isLE = true := ⟨fun _ _ _ ↦ TransCmp.isLE_trans⟩
  exact List.pairwise_insertionSort _ l

theorem allKeys_eq_dedup (before after : ExtTreeMap κ β) :
    allKeys before after
      = ((before.keys ++ after.keys).insertionSort fun a b ↦ (compare a b).isLE).dedup := by
  have : Std.Antisymm fun a b : κ ↦ (compare a b).isLE = true :=
    ⟨fun a b hab hba ↦ LawfulEqOrd.compare_eq_iff_eq.mp (OrientedCmp.isLE_antisymm hab hba)⟩
  exact (pairwise_sorted _).destutter_eq_dedup

theorem mem_allKeys : k ∈ allKeys before after ↔ k ∈ before ∨ k ∈ after := by
  rw [allKeys_eq_dedup, List.mem_dedup, List.mem_insertionSort, List.mem_append,
    ExtTreeMap.mem_keys, ExtTreeMap.mem_keys]

theorem pairwise_allKeys (before after : ExtTreeMap κ β) :
    (allKeys before after).Pairwise fun a b ↦ compare a b = .lt := by
  rw [allKeys_eq_dedup]
  have hsorted := (pairwise_sorted (before.keys ++ after.keys)).sublist (List.dedup_sublist _)
  refine (hsorted.and (List.nodup_dedup _)).imp fun {a b} ⟨hle, hne⟩ ↦ ?_
  rcases hcmp : compare a b with - | - | -
  · rfl
  · exact absurd (LawfulEqOrd.compare_eq_iff_eq.mp hcmp) hne
  · rw [hcmp] at hle
    exact absurd hle (by decide)

variable [DecidableEq β]

theorem mem_changedKeys : k ∈ changedKeys before after ↔ before[k]? ≠ after[k]? := by
  rw [changedKeys, List.mem_filter, decide_eq_true_eq, and_iff_right_iff_imp, mem_allKeys]
  intro hne
  by_contra hnot
  rw [not_or] at hnot
  exact hne (by rw [ExtTreeMap.getElem?_eq_none hnot.1, ExtTreeMap.getElem?_eq_none hnot.2])

theorem pairwise_changedKeys (before after : ExtTreeMap κ β) :
    (changedKeys before after).Pairwise fun a b ↦ compare a b = .lt :=
  (pairwise_allKeys before after).filter _

theorem nodup_changedKeys (before after : ExtTreeMap κ β) : (changedKeys before after).Nodup := by
  refine (pairwise_changedKeys before after).imp fun {a b} hlt heq ↦ ?_
  rw [heq, ReflOrd.compare_self] at hlt
  cases hlt

end TreeMap
