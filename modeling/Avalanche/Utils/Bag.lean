import Mathlib

/-!
# Vote bags

A `Bag` is a multiset of votes. The source keeps a hash map of counts next to the total; here the
bag is the list of its votes, so that a count is `List.count` and the total is the length. The
order of the list stands for the arbitrary iteration order of the hash map: a statement proved for
every `Bag` holds whatever order `list` hands the elements out in.
-/

namespace Avalanche

/-- A multiset of votes, listed one by one. -/
structure Bag (α : Type) where
  /-- Every vote, with repetitions. -/
  items : List α
deriving DecidableEq, Repr

namespace Bag

variable {α : Type}

/-- The empty bag. -/
def new : Bag α := ⟨[]⟩

/-- Adds `count` occurrences of `v`. -/
def addCount (b : Bag α) (v : α) (count : ℕ) : Bag α := ⟨b.items ++ List.replicate count v⟩

/-- Adds one occurrence of `v`. -/
def add (b : Bag α) (v : α) : Bag α := b.addCount v 1

/-- The number of occurrences of `v`. -/
def count [DecidableEq α] (b : Bag α) (v : α) : ℕ := b.items.count v

/-- The total number of occurrences. -/
def len (b : Bag α) : ℕ := b.items.length

/-- The distinct elements. -/
def list [DecidableEq α] (b : Bag α) : List α := b.items.dedup

/-- The votes for elements that `keep` accepts, with their counts. -/
def filter (b : Bag α) (keep : α → Bool) : Bag α := ⟨b.items.filter keep⟩

@[simp] theorem items_new : (new : Bag α).items = [] := rfl

@[simp] theorem len_new : (new : Bag α).len = 0 := rfl

@[simp] theorem count_new [DecidableEq α] (v : α) : (new : Bag α).count v = 0 := rfl

@[simp] theorem len_addCount (b : Bag α) (v : α) (n : ℕ) :
    (b.addCount v n).len = b.len + n := by
  simp [len, addCount]

theorem count_addCount [DecidableEq α] (b : Bag α) (v w : α) (n : ℕ) :
    (b.addCount v n).count w = b.count w + if v = w then n else 0 := by
  simp [count, addCount, List.count_append, List.count_replicate]

/-- A bag filled from a list holds the list. -/
theorem foldl_add (b : Bag α) (l : List α) : l.foldl add b = ⟨b.items ++ l⟩ := by
  induction l generalizing b with
  | nil => simp
  | cons v l ih => simp [ih, add, addCount]

theorem items_filter (b : Bag α) (keep : α → Bool) :
    (b.filter keep).items = b.items.filter keep := rfl

theorem filter_congr {b : Bag α} {p q : α → Bool} (h : ∀ a ∈ b.items, p a = q a) :
    b.filter p = b.filter q := by
  simp only [filter, mk.injEq]
  exact List.filter_congr h

theorem filter_eq_self {b : Bag α} {p : α → Bool} (h : ∀ a ∈ b.items, p a = true) :
    b.filter p = b := by
  cases b
  simp only [filter, mk.injEq]
  exact List.filter_eq_self.mpr h

theorem len_filter_le (b : Bag α) (p : α → Bool) : (b.filter p).len ≤ b.len :=
  List.length_filter_le _ _

@[simp] theorem mem_list [DecidableEq α] {b : Bag α} {v : α} :
    v ∈ b.list ↔ v ∈ b.items := List.mem_dedup

theorem nodup_list [DecidableEq α] (b : Bag α) : b.list.Nodup := List.nodup_dedup _

end Bag

end Avalanche
