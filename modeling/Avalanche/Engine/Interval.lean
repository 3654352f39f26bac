import Avalanche.Library.TreeMap
import Avalanche.Utils.Checked

/-!
# The heights that have been fetched

The bootstrapper keeps the heights of the blocks it has as a union of intervals, stored under their
upper bounds. `Tree` is that structure, and `Tree.WellFormed` says that the intervals do not
overlap. Adding and removing a height extends, merges, shrinks and splits intervals; in terms of the
set of heights, `Tree.Mem`, it adds and removes one element, and `contains` decides the set.

Heights are `u64` values. Where the source writes `saturating_add(1)` and `saturating_sub(1)` on the
bounds of an interval, the bound it moves towards shows that nothing saturates, and the plain
operations stand here. The count of the heights is read by nobody and left out.
-/

namespace Avalanche.Bootstrap

open Std

/-- A closed range of heights. -/
structure Interval where
  lowerBound : ℕ
  upperBound : ℕ
deriving DecidableEq, Repr

namespace Interval

def contains (i : Interval) (height : ℕ) : Bool := i.lowerBound ≤ height && height ≤ i.upperBound

def adjacentToLowerBound (i : Interval) (height : ℕ) : Bool :=
  height < u64Max && saturatingAdd height 1 == i.lowerBound

def adjacentToUpperBound (i : Interval) (height : ℕ) : Bool :=
  i.upperBound < u64Max && saturatingAdd i.upperBound 1 == height

variable {i : Interval} {height : ℕ}

theorem contains_iff :
    i.contains height = true ↔ i.lowerBound ≤ height ∧ height ≤ i.upperBound := by
  simp [contains]

theorem succ_eq_of_adjacentToLowerBound
    (h : i.adjacentToLowerBound height = true) : height + 1 = i.lowerBound := by
  simp only [adjacentToLowerBound, Bool.and_eq_true, decide_eq_true_eq, beq_iff_eq] at h
  rw [← h.2, saturatingAdd_of_le h.1]

theorem succ_eq_of_adjacentToUpperBound
    (h : i.adjacentToUpperBound height = true) : i.upperBound + 1 = height := by
  simp only [adjacentToUpperBound, Bool.and_eq_true, decide_eq_true_eq, beq_iff_eq] at h
  rw [← h.2, saturatingAdd_of_le h.1]

end Interval

/-- A set of heights as intervals, stored under their upper bounds. -/
structure Tree where
  known : ExtTreeMap ℕ Interval

namespace Tree

/-- The empty tree. -/
def new : Tree := ⟨∅⟩

/-- The first interval that does not end before `height`. -/
def ceiling (t : Tree) (height : ℕ) : Option Interval :=
  (TreeMap.entryFrom t.known height).map Prod.snd

/-- The last interval that does not end after `height`. -/
def floor (t : Tree) (height : ℕ) : Option Interval :=
  (TreeMap.entryUpTo t.known height).map Prod.snd

def contains (t : Tree) (height : ℕ) : Bool := (t.ceiling height).any fun i ↦ i.contains height

/-- Adds a height, merging or extending the intervals next to it. -/
def add (t : Tree) (height : ℕ) : Tree :=
  if t.contains height then t
  else
    match (t.ceiling height).filter fun i ↦ i.adjacentToLowerBound height,
        (t.floor height).filter fun i ↦ i.adjacentToUpperBound height with
    | some upper, some lower =>
      ⟨(t.known.erase lower.upperBound).insert upper.upperBound
        { upper with lowerBound := lower.lowerBound }⟩
    | some upper, none => ⟨t.known.insert upper.upperBound { upper with lowerBound := height }⟩
    | none, some lower =>
      ⟨(t.known.erase lower.upperBound).insert height { lower with upperBound := height }⟩
    | none, none => ⟨t.known.insert height ⟨height, height⟩⟩

/-- Removes a height, shrinking or splitting the interval it is in. -/
def remove (t : Tree) (height : ℕ) : Tree :=
  match (t.ceiling height).filter fun i ↦ i.contains height with
  | none => t
  | some higher =>
    if higher.lowerBound = higher.upperBound then ⟨t.known.erase higher.upperBound⟩
    else if higher.lowerBound = height then
      ⟨t.known.insert higher.upperBound { higher with lowerBound := higher.lowerBound + 1 }⟩
    else if higher.upperBound = height then
      ⟨(t.known.erase higher.upperBound).insert (higher.upperBound - 1)
        { higher with upperBound := higher.upperBound - 1 }⟩
    else
      ⟨(t.known.insert (height - 1) ⟨higher.lowerBound, height - 1⟩).insert higher.upperBound
        { higher with lowerBound := height + 1 }⟩

/-! ## The set of heights -/

/-- The interval is stored. -/
def Has (t : Tree) (i : Interval) : Prop := t.known[i.upperBound]? = some i

/-- The height is in one of the intervals. -/
def Mem (t : Tree) (height : ℕ) : Prop :=
  ∃ i : Interval, t.Has i ∧ i.lowerBound ≤ height ∧ height ≤ i.upperBound

/-- Intervals are stored under their upper bounds, and an earlier one ends before a later one. -/
structure WellFormed (t : Tree) : Prop where
  key : ∀ {k : ℕ} {i : Interval}, t.known[k]? = some i → i.upperBound = k
  nonempty : ∀ {i : Interval}, t.Has i → i.lowerBound ≤ i.upperBound
  disjoint : ∀ {i j : Interval}, t.Has i → t.Has j → i.upperBound < j.upperBound →
    i.upperBound < j.lowerBound

variable {t : Tree} {height : ℕ} {i : Interval}

theorem wellFormed_new : new.WellFormed where
  key h := by simp [new] at h
  nonempty h := by simp [Has, new] at h
  disjoint h := by simp [Has, new] at h

theorem not_mem_new (height : ℕ) : ¬ new.Mem height := by
  rintro ⟨i, h, -⟩
  simp [Has, new] at h

theorem WellFormed.has_of_getElem? (hw : t.WellFormed) {k : ℕ} (h : t.known[k]? = some i) :
    t.Has i := by
  rw [← hw.key h] at h
  exact h

/-- Two stored intervals that share a height are the same. -/
theorem WellFormed.eq_of_mem (hw : t.WellFormed) {j : Interval} (hi : t.Has i) (hj : t.Has j)
    (hi' : i.lowerBound ≤ height ∧ height ≤ i.upperBound)
    (hj' : j.lowerBound ≤ height ∧ height ≤ j.upperBound) : i = j := by
  obtain hlt | heq | hgt := Nat.lt_trichotomy i.upperBound j.upperBound
  · have := hw.disjoint hi hj hlt
    omega
  · rw [Has, heq] at hi
    exact Option.some.inj (hi.symm.trans hj)
  · have := hw.disjoint hj hi hgt
    omega

theorem has_of_ceiling (hw : t.WellFormed) (h : t.ceiling height = some i) : t.Has i := by
  obtain ⟨⟨k, j⟩, hp, rfl⟩ := Option.map_eq_some_iff.mp h
  exact hw.has_of_getElem? (TreeMap.entryFrom_eq_some hp).1

theorem has_of_floor (hw : t.WellFormed) (h : t.floor height = some i) : t.Has i := by
  obtain ⟨⟨k, j⟩, hp, rfl⟩ := Option.map_eq_some_iff.mp h
  exact hw.has_of_getElem? (TreeMap.entryUpTo_eq_some hp).1

/-- The first interval that does not end before a height of the set contains it. -/
theorem ceiling_of_mem (hw : t.WellFormed) (hi : t.Has i)
    (hmem : i.lowerBound ≤ height ∧ height ≤ i.upperBound) : t.ceiling height = some i := by
  cases hc : TreeMap.entryFrom t.known height with
  | none => exact absurd (TreeMap.entryFrom_eq_none hc hi) (by omega)
  | some p =>
    obtain ⟨hget, hle, hleast⟩ := TreeMap.entryFrom_eq_some hc
    have hp := hw.has_of_getElem? hget
    have hkey := hw.key hget
    have hple := hleast _ _ hi hmem.2
    rw [ceiling, hc, Option.map_some, Option.some.injEq]
    refine @WellFormed.eq_of_mem _ height _ hw _ hp hi ⟨?_, by omega⟩ hmem
    obtain hlt | heq := (hkey ▸ hple : p.2.upperBound ≤ i.upperBound).lt_or_eq
    · have := hw.disjoint hp hi hlt
      omega
    · rw [Has, heq, show t.known[i.upperBound]? = some i from hi, Option.some.injEq] at hp
      rw [← hp]
      exact hmem.1

theorem contains_iff (hw : t.WellFormed) : t.contains height = true ↔ t.Mem height := by
  constructor
  · intro h
    cases hc : t.ceiling height with
    | none => simp [contains, hc] at h
    | some i =>
      rw [contains, hc, Option.any_some, Interval.contains_iff] at h
      exact ⟨i, has_of_ceiling hw hc, h⟩
  · rintro ⟨i, hi, hmem⟩
    rw [contains, ceiling_of_mem hw hi hmem, Option.any_some, Interval.contains_iff]
    exact hmem

/-! ## Taking out and putting in whole intervals -/

/-- The tree without a stored interval. -/
def erase (t : Tree) (i : Interval) : Tree := ⟨t.known.erase i.upperBound⟩

/-- The tree with an interval stored. -/
def insert (t : Tree) (i : Interval) : Tree := ⟨t.known.insert i.upperBound i⟩

theorem has_erase {j : Interval} :
    (t.erase i).Has j ↔ i.upperBound ≠ j.upperBound ∧ t.Has j := by
  rw [Has, erase, TreeMap.getElem?_erase_eq]
  by_cases h : i.upperBound = j.upperBound <;> simp [h, Has]

theorem has_insert {j : Interval} :
    (t.insert i).Has j ↔ j = i ∨ i.upperBound ≠ j.upperBound ∧ t.Has j := by
  rw [Has, insert, TreeMap.getElem?_insert_eq]
  by_cases h : i.upperBound = j.upperBound
  · simp [h, eq_comm]
  · have hne : j ≠ i := fun heq ↦ h (heq ▸ rfl)
    simp [h, hne, Has]

theorem WellFormed.erase (hw : t.WellFormed) (i : Interval) : (t.erase i).WellFormed where
  key {k j} h := by
    rw [Tree.erase, TreeMap.getElem?_erase_eq] at h
    split at h
    · cases h
    · exact hw.key h
  nonempty h := hw.nonempty (has_erase.mp h).2
  disjoint h h' := hw.disjoint (has_erase.mp h).2 (has_erase.mp h').2

/-- Taking a stored interval out takes its heights out. -/
theorem mem_erase (hw : t.WellFormed) (hi : t.Has i) :
    (t.erase i).Mem height ↔
      t.Mem height ∧ ¬ (i.lowerBound ≤ height ∧ height ≤ i.upperBound) := by
  constructor
  · rintro ⟨j, hj, hmem⟩
    obtain ⟨hne, hj⟩ := has_erase.mp hj
    exact ⟨⟨j, hj, hmem⟩, fun h ↦ hne (by rw [hw.eq_of_mem hi hj h hmem])⟩
  · rintro ⟨⟨j, hj, hmem⟩, hnot⟩
    refine ⟨j, has_erase.mpr ⟨fun heq ↦ hnot ?_, hj⟩, hmem⟩
    rw [Has, heq, show t.known[j.upperBound]? = some j from hj, Option.some.injEq] at hi
    rw [← hi]
    exact hmem

/-- An interval apart from the set may be stored, and adds its heights. -/
theorem WellFormed.insert (hw : t.WellFormed) (hi : i.lowerBound ≤ i.upperBound)
    (hapart : ∀ x, i.lowerBound ≤ x → x ≤ i.upperBound → ¬ t.Mem x) :
    (t.insert i).WellFormed ∧ ∀ x, (t.insert i).Mem x ↔
      (i.lowerBound ≤ x ∧ x ≤ i.upperBound) ∨ t.Mem x := by
  -- a stored interval lies on one side of `i`
  have hside {j : Interval} (hj : t.Has j) :
      j.upperBound < i.lowerBound ∨ i.upperBound < j.lowerBound := by
    have hj' := hw.nonempty hj
    by_contra hcon
    by_cases hle : i.lowerBound ≤ j.lowerBound
    · exact hapart j.lowerBound hle (by omega) ⟨j, hj, by omega⟩
    · exact hapart i.lowerBound (by omega) (by omega) ⟨j, hj, by omega⟩
  refine ⟨⟨?_, ?_, ?_⟩, fun x ↦ ?_⟩
  · intro k j h
    rw [Tree.insert, TreeMap.getElem?_insert_eq] at h
    split at h
    next heq => exact (Option.some.inj h) ▸ heq
    next => exact hw.key h
  · intro j h
    obtain rfl | ⟨-, h⟩ := has_insert.mp h
    · exact hi
    · exact hw.nonempty h
  · intro j j' h h' hlt
    obtain rfl | ⟨-, hj⟩ := has_insert.mp h <;> obtain rfl | ⟨-, hj'⟩ := has_insert.mp h'
    · omega
    · have := hside hj'
      omega
    · have := hw.nonempty hj
      have := hside hj
      omega
    · exact hw.disjoint hj hj' hlt
  · constructor
    · rintro ⟨j, hj, hmem⟩
      obtain rfl | ⟨-, hj⟩ := has_insert.mp hj
      · exact Or.inl hmem
      · exact Or.inr ⟨j, hj, hmem⟩
    · rintro (hmem | ⟨j, hj, hmem⟩)
      · exact ⟨i, has_insert.mpr (Or.inl rfl), hmem⟩
      · refine ⟨j, has_insert.mpr (Or.inr ⟨fun heq ↦ ?_, hj⟩), hmem⟩
        have := hside hj
        omega

/-- Storing an interval under the key of a stored one replaces it. -/
theorem insert_eq (t : Tree) (i : Interval) (lo : ℕ) :
    (⟨t.known.insert i.upperBound { i with lowerBound := lo }⟩ : Tree)
      = (t.erase i).insert { i with lowerBound := lo } := by
  rw [insert, erase, mk.injEq]
  refine ExtTreeMap.ext_getElem? fun k ↦ ?_
  rw [TreeMap.getElem?_insert_eq, TreeMap.getElem?_insert_eq, TreeMap.getElem?_erase_eq]
  split <;> rfl

/-- A stored interval may be replaced by one that meets no other. -/
theorem WellFormed.replace (hw : t.WellFormed) (hi : t.Has i) {j : Interval}
    (hj : j.lowerBound ≤ j.upperBound)
    (hapart : ∀ x, j.lowerBound ≤ x → x ≤ j.upperBound → t.Mem x →
      i.lowerBound ≤ x ∧ x ≤ i.upperBound) :
    ((t.erase i).insert j).WellFormed ∧ ∀ x, ((t.erase i).insert j).Mem x ↔
      (j.lowerBound ≤ x ∧ x ≤ j.upperBound) ∨
        t.Mem x ∧ ¬ (i.lowerBound ≤ x ∧ x ≤ i.upperBound) := by
  have key := (hw.erase i).insert hj fun x hlo hhi hx ↦ by
    obtain ⟨hx, hnot⟩ := (mem_erase hw hi).mp hx
    exact hnot (hapart x hlo hhi hx)
  refine ⟨key.1, fun x ↦ (key.2 x).trans ?_⟩
  rw [mem_erase hw hi]

/-! ## Adding and removing a height -/

theorem adjacent_of_ceiling (hw : t.WellFormed)
    (h : (t.ceiling height).filter (fun i ↦ i.adjacentToLowerBound height) = some i) :
    t.Has i ∧ height + 1 = i.lowerBound := by
  obtain ⟨hi, hadj⟩ := Option.filter_eq_some_iff.mp h
  exact ⟨has_of_ceiling hw hi, Interval.succ_eq_of_adjacentToLowerBound hadj⟩

theorem adjacent_of_floor (hw : t.WellFormed)
    (h : (t.floor height).filter (fun i ↦ i.adjacentToUpperBound height) = some i) :
    t.Has i ∧ i.upperBound + 1 = height := by
  obtain ⟨hi, hadj⟩ := Option.filter_eq_some_iff.mp h
  exact ⟨has_of_floor hw hi, Interval.succ_eq_of_adjacentToUpperBound hadj⟩

/-- Adding a height adds it to the set. -/
theorem WellFormed.add (hw : t.WellFormed) (height : ℕ) :
    (t.add height).WellFormed ∧ ∀ x, (t.add height).Mem x ↔ x = height ∨ t.Mem x := by
  have hsub {i : Interval} (hi : t.Has i) (x : ℕ) (h : i.lowerBound ≤ x ∧ x ≤ i.upperBound) :
      t.Mem x := ⟨i, hi, h⟩
  by_cases hc : t.contains height = true
  · have hmem := (contains_iff hw).mp hc
    rw [Tree.add, if_pos hc]
    exact ⟨hw, fun x ↦ ⟨Or.inr, fun h ↦ h.elim (fun heq ↦ heq ▸ hmem) id⟩⟩
  · have hnot : ∀ x, t.Mem x → x ≠ height := fun x hx heq ↦
      hc ((contains_iff hw).mpr (heq ▸ hx))
    rw [Tree.add, if_neg hc]
    split
    next upper lower hu hl =>
      obtain ⟨hu, hu'⟩ := adjacent_of_ceiling hw hu
      obtain ⟨hl, hl'⟩ := adjacent_of_floor hw hl
      have hune := hw.nonempty hu
      have hlne := hw.nonempty hl
      have hmem (x : ℕ) := @mem_erase _ x _ hw hl
      obtain ⟨hw', hmem'⟩ := (hw.erase lower).replace (has_erase.mpr ⟨by omega, hu⟩)
        (j := { upper with lowerBound := lower.lowerBound }) (by dsimp only; omega)
        fun x hlo hhi hx ↦ by
          obtain ⟨hx, hout⟩ := (hmem x).mp hx
          have := hnot x hx
          dsimp only at hlo hhi
          omega
      rw [← insert_eq] at hw' hmem'
      refine ⟨hw', fun x ↦ (hmem' x).trans ?_⟩
      grind
    next upper hu hl =>
      obtain ⟨hu, hu'⟩ := adjacent_of_ceiling hw hu
      have hune := hw.nonempty hu
      obtain ⟨hw', hmem'⟩ := hw.replace hu (j := { upper with lowerBound := height })
        (by dsimp only; omega) fun x hlo hhi hx ↦ by
          have := hnot x hx
          dsimp only at hlo hhi
          omega
      rw [← insert_eq] at hw' hmem'
      refine ⟨hw', fun x ↦ (hmem' x).trans ?_⟩
      grind
    next lower hu hl =>
      obtain ⟨hl, hl'⟩ := adjacent_of_floor hw hl
      have hlne := hw.nonempty hl
      obtain ⟨hw', hmem'⟩ := hw.replace hl (j := { lower with upperBound := height })
        (by dsimp only; omega) fun x hlo hhi hx ↦ by
          have := hnot x hx
          dsimp only at hlo hhi
          omega
      refine ⟨hw', fun x ↦ (hmem' x).trans ?_⟩
      grind
    next =>
      obtain ⟨hw', hmem'⟩ := hw.insert (i := ⟨height, height⟩) le_rfl fun x hlo hhi hx ↦
        hnot x hx (Nat.le_antisymm hhi hlo)
      refine ⟨hw', fun x ↦ (hmem' x).trans ?_⟩
      grind

/-- Removing a height removes it from the set. -/
theorem WellFormed.remove (hw : t.WellFormed) (height : ℕ) :
    (t.remove height).WellFormed ∧ ∀ x, (t.remove height).Mem x ↔ x ≠ height ∧ t.Mem x := by
  rw [Tree.remove]
  split
  next hnone =>
    have hnot : ¬ t.Mem height := by
      rintro ⟨i, hi, hmem⟩
      rw [ceiling_of_mem hw hi hmem, Option.filter_some, if_pos (Interval.contains_iff.mpr hmem)]
        at hnone
      cases hnone
    exact ⟨hw, fun x ↦ ⟨fun hx ↦ ⟨fun heq ↦ hnot (heq ▸ hx), hx⟩, And.right⟩⟩
  next i hsome =>
    obtain ⟨hceiling, hin⟩ := Option.filter_eq_some_iff.mp hsome
    have hi := has_of_ceiling hw hceiling
    have hsub (x : ℕ) (h : i.lowerBound ≤ x ∧ x ≤ i.upperBound) : t.Mem x := ⟨i, hi, h⟩
    have hpart (j : Interval) (hj : i.lowerBound ≤ j.lowerBound ∧ j.lowerBound ≤ j.upperBound ∧
        j.upperBound ≤ i.upperBound) :=
      hw.replace hi hj.2.1 fun x hlo hhi _ ↦ ⟨hj.1.trans hlo, hhi.trans hj.2.2⟩
    rw [Interval.contains_iff] at hin
    split_ifs with hone hlower hupper
    · refine ⟨hw.erase i, fun x ↦ (mem_erase hw hi).trans ?_⟩
      grind
    · obtain ⟨hw', hmem⟩ := hpart { i with lowerBound := i.lowerBound + 1 } (by grind)
      rw [← insert_eq] at hw' hmem
      exact ⟨hw', fun x ↦ (hmem x).trans (by grind)⟩
    · obtain ⟨hw', hmem⟩ := hpart { i with upperBound := i.upperBound - 1 } (by grind)
      exact ⟨hw', fun x ↦ (hmem x).trans (by grind)⟩
    · -- the upper part takes the place of the interval, the lower part is new
      obtain ⟨hw', hmem⟩ := hpart { i with lowerBound := height + 1 } (by grind)
      rw [← insert_eq] at hw' hmem
      obtain ⟨hw'', hmem'⟩ := hw'.insert (i := ⟨i.lowerBound, height - 1⟩) (by grind)
        fun x hlo hhi hx ↦ by
          have := (hmem x).mp hx
          grind
      have hswap : (t.known.insert (height - 1) ⟨i.lowerBound, height - 1⟩).insert i.upperBound
            { i with lowerBound := height + 1 }
          = (t.known.insert i.upperBound { i with lowerBound := height + 1 }).insert (height - 1)
            ⟨i.lowerBound, height - 1⟩ :=
        ExtTreeMap.ext_getElem? fun k ↦ by grind [TreeMap.getElem?_insert_eq]
      rw [hswap]
      refine ⟨hw'', fun x ↦ (hmem' x).trans ?_⟩
      rw [hmem]
      grind

inductive Op
  | add (height : ℕ)
  | remove (height : ℕ)

def apply (t : Tree) : Op → Tree
  | .add height => t.add height
  | .remove height => t.remove height

/-- What a change does to a set of heights. -/
def Op.on (s : Set ℕ) : Op → Set ℕ
  | .add height => Insert.insert height s
  | .remove height => s \ {height}

/-- **The tree is a set.** After any changes the stored intervals are disjoint, and `contains` holds
of the heights that have been added and not been removed since. -/
theorem contains_of_run (ops : List Op) :
    (ops.foldl apply new).WellFormed ∧ ∀ height,
      (ops.foldl apply new).contains height = true ↔ height ∈ ops.foldl Op.on ∅ := by
  suffices h : (ops.foldl apply new).WellFormed ∧
      ∀ x, (ops.foldl apply new).Mem x ↔ x ∈ ops.foldl Op.on ∅ from
    ⟨h.1, fun x ↦ (contains_iff h.1).trans (h.2 x)⟩
  induction ops using List.reverseRecOn with
  | nil => exact ⟨wellFormed_new, fun x ↦ iff_of_false (not_mem_new x) id⟩
  | append_singleton ops op ih =>
    simp only [List.foldl_append, List.foldl_cons, List.foldl_nil]
    cases op with
    | add height =>
      obtain ⟨hw, hmem⟩ := ih.1.add height
      exact ⟨hw, fun x ↦ (hmem x).trans (or_congr_right (ih.2 x))⟩
    | remove height =>
      obtain ⟨hw, hmem⟩ := ih.1.remove height
      exact ⟨hw, fun x ↦ (hmem x).trans (and_comm.trans (and_congr_left fun _ ↦ ih.2 x))⟩

end Tree

end Avalanche.Bootstrap
