import Avalanche.Library.Steps
import Avalanche.Merkle.WorkHeap

/-!
# Moving the target of a sync

Completions of ranges and updates of the target run side by side. Each is cut at the points where
another one can come in between: the load of the target, its store, the locks of the two heaps, each
move of a range and each insertion. A task that waits for a lock stays where it is.

A completion decides by one load whether its range is stale and inserts it later. Between the two an
update can store a new target and empty the heap of processed ranges, and the insertion then puts a
stale range there. `processed_current_of_fine` says that this is the only way: as long as no
insertion comes so late, the processed ranges are current whenever nothing is in progress.
-/

open Std

namespace Avalanche.Merkle

/-- Where a call of `complete_work_item` or `update_sync_target` has come to. -/
inductive Task
  | completing (work : WorkItem) (root : Id)
  /-- The target has been loaded, the insertion is left. -/
  | inserting (stale : Bool) (item : WorkItem)
  | updating (newRoot : Id)
  /-- The target has been loaded and is another one. -/
  | storing (newRoot : Id)
  /-- The target has been stored. -/
  | locking
  /-- The lock of the processed ranges is held. -/
  | lockingUnprocessed
  /-- Both locks are held. -/
  | draining
deriving DecidableEq

/-- An update that has stored its target and has not finished. -/
def Task.Pending (t : Task) : Prop := t = .locking ∨ t = .lockingUnprocessed ∨ t = .draining

structure Syncer where
  targetRoot : Id
  unprocessed : WorkHeap
  processed : WorkHeap
  tasks : List Task

namespace Syncer

def new (targetRoot : Id) : Syncer := ⟨targetRoot, .new, .new, []⟩

def processedLocked (s : Syncer) : Bool :=
  s.tasks.any fun t ↦ t = .lockingUnprocessed ∨ t = .draining

def unprocessedLocked (s : Syncer) : Bool := s.tasks.any fun t ↦ t = .draining

def setTask (s : Syncer) (i : ℕ) (t : Task) : Syncer := { s with tasks := s.tasks.set i t }

def endTask (s : Syncer) (i : ℕ) : Syncer := { s with tasks := s.tasks.eraseIdx i }

/-- The next step of task `i`. -/
def advance (s : Syncer) (i : ℕ) : Task → Syncer
  | .completing work root =>
    s.setTask i (.inserting (s.targetRoot ≠ root)
      (.new root work.start work.end' work.priority))
  | .inserting true item =>
    if s.unprocessedLocked then s
    else endTask { s with unprocessed := s.unprocessed.insert { item with priority := .high } } i
  | .inserting false item =>
    if s.processedLocked then s
    else endTask { s with processed := s.processed.mergeInsert item } i
  | .updating newRoot =>
    if s.targetRoot = newRoot then s.endTask i else s.setTask i (.storing newRoot)
  | .storing newRoot => setTask { s with targetRoot := newRoot } i .locking
  | .locking => if s.processedLocked then s else s.setTask i .lockingUnprocessed
  | .lockingUnprocessed => if s.unprocessedLocked then s else s.setTask i .draining
  | .draining =>
    match s.processed.getWork with
    | some (item, processed) =>
      { s with
        processed := processed
        unprocessed := s.unprocessed.insert { item with priority := .high } }
    -- both locks are dropped
    | none => s.endTask i

inductive Event
  | completeWorkItem (work : WorkItem) (root : Id)
  | updateSyncTarget (newRoot : Id)
  /-- Task `i` takes a step. -/
  | run (i : ℕ)

def step (s : Syncer) : Event → Syncer
  | .completeWorkItem work root => { s with tasks := s.tasks ++ [.completing work root] }
  | .updateSyncTarget newRoot => { s with tasks := s.tasks ++ [.updating newRoot] }
  | .run i => s.tasks[i]?.elim s (s.advance i)

/-! ### Updates that have still to empty the heap -/

/-- Some update is to empty the heap of processed ranges. -/
def Pending (s : Syncer) : Prop := ∃ t ∈ s.tasks, Task.Pending t

/-- A range that was loaded as current is inserted while it still is, or before an update that has
stored its target has locked the heap. -/
def InTime (s : Syncer) : Task → Prop
  | .inserting false item =>
    s.processedLocked = false → item.localRoot = s.targetRoot ∨ .locking ∈ s.tasks
  | _ => True

instance (s : Syncer) : DecidablePred s.InTime
  | .inserting false item =>
    inferInstanceAs (Decidable (s.processedLocked = false →
      item.localRoot = s.targetRoot ∨ .locking ∈ s.tasks))
  | .inserting true _ | .completing .. | .updating _ | .storing _ | .locking
  | .lockingUnprocessed | .draining => .isTrue trivial

/-- The condition on a step. -/
def Fine (s : Syncer) : Event → Prop
  | .run i => ∀ t ∈ s.tasks[i]?, s.InTime t
  | _ => True

instance (s : Syncer) : DecidablePred s.Fine
  | .run i => inferInstanceAs (Decidable (∀ t ∈ s.tasks[i]?, s.InTime t))
  | .completeWorkItem .. | .updateSyncTarget _ => .isTrue trivial

/-- The processed ranges are current, or will be moved. -/
structure Tidy (s : Syncer) : Prop where
  closed : s.processed.closed = false
  roots : s.Pending ∨ WorkHeap.Roots (· = s.targetRoot) s.processed.items

theorem tidy_new (targetRoot : Id) : Tidy (new targetRoot) where
  closed := rfl
  roots := .inr fun _ _ h ↦ by simp [new, WorkHeap.new] at h

variable {s : Syncer} {i : ℕ} {t : Task}

/-- The other tasks stay when one is changed. -/
theorem pending_of_set (h : s.Pending) (hi : s.tasks[i]? = some t) (ht : ¬t.Pending) (t' : Task) :
    ∃ u ∈ s.tasks.set i t', Task.Pending u := by
  obtain ⟨u, hu, hpending⟩ := h
  obtain ⟨j, hj⟩ := List.getElem?_of_mem hu
  have hne : i ≠ j := by
    rintro rfl
    cases hi.symm.trans hj
    exact ht hpending
  refine ⟨u, List.mem_of_getElem? (i := j) ?_, hpending⟩
  rwa [List.getElem?_set_ne hne]

theorem pending_of_erase (h : s.Pending) (hi : s.tasks[i]? = some t) (ht : ¬t.Pending) :
    ∃ u ∈ s.tasks.eraseIdx i, Task.Pending u := by
  obtain ⟨u, hu, hpending⟩ := h
  obtain ⟨j, hj⟩ := List.getElem?_of_mem hu
  refine ⟨u, ?_, hpending⟩
  rw [List.mem_eraseIdx_iff_getElem?]
  refine ⟨j, ?_, hj⟩
  rintro rfl
  cases hi.symm.trans hj
  exact ht hpending

theorem pending_set {t' : Task} (hi : s.tasks[i]? = some t) (ht' : t'.Pending) :
    ∃ u ∈ s.tasks.set i t', Task.Pending u := by
  obtain ⟨hlt, -⟩ := List.getElem?_eq_some_iff.mp hi
  exact ⟨t', List.mem_set hlt t', ht'⟩

/-- A step of one task. -/
theorem Tidy.advance (h : Tidy s) (hi : s.tasks[i]? = some t) (hfine : s.InTime t) :
    Tidy (s.advance i t) := by
  cases t with
  | completing work root =>
    refine ⟨h.closed, h.roots.imp_left fun hp ↦ pending_of_set hp hi ?_ _⟩
    rintro (ht | ht | ht) <;> cases ht
  | inserting stale item =>
    have hnot : ¬Task.Pending (.inserting stale item) := by
      rintro (ht | ht | ht) <;> cases ht
    cases stale with
    | true =>
      rw [Syncer.advance]
      split
      · exact h
      · exact ⟨h.closed, h.roots.imp_left fun hp ↦ pending_of_erase hp hi hnot⟩
    | false =>
      rw [Syncer.advance]
      split
      · exact h
      case isFalse hlock =>
        refine ⟨WorkHeap.closed_mergeInsert.trans h.closed, ?_⟩
        -- an update that waits for the lock will move the range
        obtain hroot | hlocking := hfine (Bool.not_eq_true _ ▸ hlock)
        · exact h.roots.imp (fun hp ↦ pending_of_erase hp hi hnot)
            fun hroots ↦ WorkHeap.roots_mergeInsert hroots hroot
        · exact .inl (pending_of_erase ⟨_, hlocking, .inl rfl⟩ hi hnot)
  | updating newRoot =>
    have hnot : ¬Task.Pending (.updating newRoot) := by
      rintro (ht | ht | ht) <;> cases ht
    rw [Syncer.advance]
    split
    · exact ⟨h.closed, h.roots.imp_left fun hp ↦ pending_of_erase hp hi hnot⟩
    · exact ⟨h.closed, h.roots.imp_left fun hp ↦ pending_of_set hp hi hnot _⟩
  | storing newRoot => exact ⟨h.closed, .inl (pending_set hi (.inl rfl))⟩
  | locking =>
    rw [Syncer.advance]
    split
    · exact h
    · exact ⟨h.closed, .inl (pending_set hi (.inr (.inl rfl)))⟩
  | lockingUnprocessed =>
    rw [Syncer.advance]
    split
    · exact h
    · exact ⟨h.closed, .inl (pending_set hi (.inr (.inr rfl)))⟩
  | draining =>
    rw [Syncer.advance]
    split
    next item processed hwork =>
      refine ⟨(WorkHeap.closed_of_getWork hwork).trans h.closed, .inl ?_⟩
      exact ⟨.draining, List.mem_of_getElem? hi, .inr (.inr rfl)⟩
    next hnone =>
      -- the heap has been emptied under the lock
      exact ⟨h.closed, .inr (WorkHeap.roots_of_getWork_eq_none h.closed hnone)⟩

theorem Tidy.step (h : Tidy s) {e : Event} (hfine : Fine s e) : Tidy (s.step e) := by
  cases e with
  | completeWorkItem work root =>
    refine ⟨h.closed, h.roots.imp_left ?_⟩
    exact fun ⟨t, ht, hp⟩ ↦ ⟨t, List.mem_append_left _ ht, hp⟩
  | updateSyncTarget newRoot =>
    refine ⟨h.closed, h.roots.imp_left ?_⟩
    exact fun ⟨t, ht, hp⟩ ↦ ⟨t, List.mem_append_left _ ht, hp⟩
  | run i =>
    rw [Syncer.step]
    rcases hi : s.tasks[i]? with - | t
    · exact h
    · exact h.advance hi (hfine t hi)

/-- **No stale range is left as processed, as long as no insertion comes late.** In every
interleaving whose insertions meet the condition, whenever no call is in progress every processed
range was fetched at the current target. -/
theorem processed_current_of_fine {targetRoot : Id} {events : List Event}
    (hfine : Steps.Along step Fine (new targetRoot) events) :
    let s := Steps.exec step (new targetRoot) events
    s.tasks = [] → ∀ item ∈ s.processed.items.values, item.localRoot = s.targetRoot := by
  intro s hidle item hitem
  have htidy : Tidy s :=
    Steps.exec_of_along (I := Tidy) (fun _ _ h hf ↦ h.step hf) hfine (tidy_new targetRoot)
  obtain ⟨key, hget⟩ := TreeMap.mem_values.mp hitem
  obtain ⟨t, ht, -⟩ | hroots := htidy.roots
  · rw [hidle] at ht
    cases ht
  · exact hroots key item hget

/-- A range is completed, moved by an update, and completed again at the new target. -/
theorem processed_current_of_fine_example :
    ∃ events, Steps.Along step Fine (new 1#256) events ∧
      (Steps.exec step (new 1#256) events).tasks = [] ∧
      (Steps.exec step (new 1#256) events).targetRoot = 2#256 ∧
      (Steps.exec step (new 1#256) events).processed.items.values.length = 1 ∧
      ∀ item ∈ (Steps.exec step (new 1#256) events).processed.items.values,
        item.localRoot = (Steps.exec step (new 1#256) events).targetRoot := by
  refine ⟨[.completeWorkItem (.new 0#256 none none .low) 1#256, .run 0, .run 0,
    .updateSyncTarget 2#256, .run 0, .run 0, .run 0, .run 0, .run 0, .run 0,
    .completeWorkItem (.new 0#256 none none .low) 2#256, .run 0, .run 0],
    by decide +kernel, by decide +kernel, by decide +kernel, by decide +kernel, ?_⟩
  exact processed_current_of_fine (by decide +kernel) (by decide +kernel)

/-- **A stale range is left as processed.** The completion loads the target before the update stores
the new one, and inserts its range after the update has emptied the heap. -/
theorem exists_stale_processed :
    let work : WorkItem := .new 0#256 none none .low
    let events : List Event := [.completeWorkItem work 1#256, .run 0,
      .updateSyncTarget 2#256, .run 1, .run 1, .run 1, .run 1, .run 1, .run 0]
    let s := Steps.exec step (new 1#256) events
    s.tasks = [] ∧ s.targetRoot = 2#256 ∧
      s.processed.items.values.map WorkItem.localRoot = [1#256] := by
  decide +kernel

end Syncer

end Avalanche.Merkle
