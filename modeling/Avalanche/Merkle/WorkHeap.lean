import Avalanche.Library.TreeMap
import Avalanche.Merkle.Key
import Avalanche.Types.Id

/-!
# The heap of ranges

The sync driver keeps the ranges it has to fetch, and those it has fetched, in heaps. A heap is a
map from the start of a range, where an open start comes first; the range of the highest priority is
taken out first, and among those the one that was put in first. Ranges that touch and that were
fetched at the same root are merged into one.
-/

open Std

namespace Avalanche.Merkle

inductive Priority
  | low
  | med
  | high
  | retry
deriving DecidableEq

namespace Priority

def toNat : Priority → ℕ
  | low => 1
  | med => 2
  | high => 3
  | retry => 4

instance : Max Priority where
  max a b := if a.toNat ≤ b.toNat then b else a

end Priority

/-- A range of the keyspace, with the root it was fetched at. -/
structure WorkItem where
  (start end' : Option Bytes)
  priority : Priority
  localRoot : Id
  attempt : UInt32
  seq : UInt64
deriving DecidableEq

def WorkItem.new (localRoot : Id) (start end' : Option Bytes) (priority : Priority) : WorkItem :=
  ⟨start, end', priority, localRoot, 0, 0⟩

structure WorkHeap where
  /-- The ranges by their starts. -/
  items : ExtTreeMap (Option Bytes) WorkItem
  nextSeq : UInt64
  closed : Bool

namespace WorkHeap

def new : WorkHeap := ⟨∅, 0, false⟩

def insert (h : WorkHeap) (item : WorkItem) : WorkHeap :=
  if h.closed then h
  else { h with
    items := h.items.insert item.start { item with seq := h.nextSeq }
    nextSeq := h.nextSeq + 1 }

/-- Whether `b` is to be taken rather than `a`, which stands before it in the map. -/
def WorkItem.below (a b : WorkItem) : Bool :=
  ((compare a.priority.toNat b.priority.toNat).then (compare b.seq a.seq)) ≠ .gt

/-- The key that `max_by` finds. -/
def maxKey (l : List (Option Bytes × WorkItem)) : Option (Option Bytes × WorkItem) :=
  l.foldl (fun best p ↦
    some (best.elim p fun q ↦ if WorkItem.below q.2 p.2 then p else q)) none

def getWork (h : WorkHeap) : Option (WorkItem × WorkHeap) := do
  if h.closed then none
  else
    let (key, item) ← maxKey h.items.toList
    some (item, { h with items := h.items.erase key })

/-- Changes the range under a key, if there is one. -/
def modifyAt (items : ExtTreeMap (Option Bytes) WorkItem) (key : Option Bytes)
    (f : WorkItem → WorkItem) : ExtTreeMap (Option Bytes) WorkItem :=
  items[key]?.elim items fun item ↦ items.insert key (f item)

/-- The range that ends where `item` starts. -/
def beforeKey (h : WorkHeap) (item : WorkItem) : Option (Option Bytes × WorkItem) :=
  (h.items.toList.filter fun p ↦ compare p.1 item.start = .lt).getLast?.filter fun p ↦
    p.2.localRoot = item.localRoot ∧ p.2.end' = item.start

/-- The range that starts where `item` ends. -/
def afterKey (h : WorkHeap) (item : WorkItem) : Option (Option Bytes × WorkItem) :=
  (h.items.toList.find? fun p ↦ compare p.1 item.start ≠ .lt).filter fun p ↦
    p.2.localRoot = item.localRoot ∧ item.end' = p.2.start

def mergeInsert (h : WorkHeap) (item : WorkItem) : WorkHeap :=
  if h.closed then h
  else
    match h.beforeKey item, h.afterKey item with
    | some (bk, _), some (ak, after) =>
      { h with items := modifyAt (h.items.erase ak) bk fun before ↦
        let priority := max (max before.priority item.priority) after.priority
        { before with end' := after.end', priority := priority } }
    | some (bk, _), none =>
      { h with items := modifyAt h.items bk fun before ↦
        { before with end' := item.end', priority := max before.priority item.priority } }
    | none, some (ak, after) =>
      let merged :=
        { after with start := item.start, priority := max after.priority item.priority }
      { h with items := (h.items.erase ak).insert item.start merged }
    | none, none => h.insert item

/-! ### The roots in a heap -/

/-- Every range was fetched at a root with `P`. -/
def Roots (P : Id → Prop) (items : ExtTreeMap (Option Bytes) WorkItem) : Prop :=
  ∀ (key : Option Bytes) item, items[key]? = some item → P item.localRoot

section Roots

variable {P : Id → Prop} {items : ExtTreeMap (Option Bytes) WorkItem}

theorem Roots.insert (h : Roots P items) (key : Option Bytes) {item : WorkItem}
    (hitem : P item.localRoot) : Roots P (items.insert key item) := by
  intro key' item' hget
  rw [TreeMap.getElem?_insert_eq] at hget
  split_ifs at hget with hkey
  · cases hget
    exact hitem
  · exact h key' item' hget

theorem Roots.erase (h : Roots P items) (key : Option Bytes) : Roots P (items.erase key) := by
  intro key' item hget
  rw [TreeMap.getElem?_erase_eq] at hget
  split_ifs at hget with hkey
  exact h key' item hget

theorem Roots.modifyAt (h : Roots P items) (key : Option Bytes) {f : WorkItem → WorkItem}
    (hf : ∀ item, (f item).localRoot = item.localRoot) : Roots P (modifyAt items key f) := by
  rw [WorkHeap.modifyAt]
  rcases hget : items[key]? with - | item
  · exact h
  · refine h.insert key ?_
    rw [hf]
    exact h key item hget

end Roots

variable {P : Id → Prop} {h : WorkHeap} {item : WorkItem}

theorem roots_insert (hroots : Roots P h.items) (hitem : P item.localRoot) :
    Roots P (h.insert item).items := by
  rw [insert]
  split
  · exact hroots
  · exact hroots.insert _ hitem

/-- What is merged has the root of what was put in. -/
theorem roots_mergeInsert (hroots : Roots P h.items) (hitem : P item.localRoot) :
    Roots P (h.mergeInsert item).items := by
  rw [mergeInsert]
  split
  · exact hroots
  · split
    next => exact (hroots.erase _).modifyAt _ fun _ ↦ rfl
    next => exact hroots.modifyAt _ fun _ ↦ rfl
    next hafter =>
      obtain ⟨-, hroot⟩ := Option.filter_eq_some_iff.mp hafter
      refine (hroots.erase _).insert _ ?_
      rwa [(of_decide_eq_true hroot).1]
    next => exact roots_insert hroots hitem

@[simp] theorem closed_insert : (h.insert item).closed = h.closed := by
  rw [insert]
  split <;> rfl

@[simp] theorem closed_mergeInsert : (h.mergeInsert item).closed = h.closed := by
  rw [mergeInsert]
  split
  · rfl
  · split
    next => rfl
    next => rfl
    next => rfl
    next => exact closed_insert

theorem maxKey_isSome {l : List (Option Bytes × WorkItem)} (hl : l ≠ []) :
    (maxKey l).isSome := by
  obtain ⟨p, l, rfl⟩ := List.exists_cons_of_ne_nil hl
  exact List.foldlRecOn (motive := fun best : Option _ ↦ best.isSome = true) l _ rfl
    fun _ _ _ _ ↦ rfl

/-- A heap that is not closed gives work until it is empty. -/
theorem roots_of_getWork_eq_none (hclosed : h.closed = false) (hnone : h.getWork = none) :
    Roots P h.items := by
  have hempty : h.items.toList = [] := by
    by_contra hne
    obtain ⟨p, hp⟩ := Option.isSome_iff_exists.mp (maxKey_isSome hne)
    simp [getWork, hclosed, hp] at hnone
  intro key item hget
  have hmem := ExtTreeMap.mem_toList_iff_getElem?_eq_some.mpr hget
  rw [hempty] at hmem
  cases hmem

theorem closed_of_getWork {h' : WorkHeap} (hsome : h.getWork = some (item, h')) :
    h'.closed = h.closed := by
  rw [getWork] at hsome
  split at hsome
  · cases hsome
  · obtain ⟨p, -, hp⟩ := Option.bind_eq_some_iff.mp hsome
    cases hp
    rfl

end WorkHeap

end Avalanche.Merkle
