import Avalanche.Database.VersionDb

/-!
# An overlay is transparent

A `PlainDb` is an ordered map with a list of pending writes, and its view is the map with the writes
made to it. A `VersionDb` that takes the same calls answers every read as that view does. Committing
turns the view into the base, and aborting turns the base into the view.
-/

open Std Overlay

namespace Avalanche.Database

/-! ### Writes as edits -/

def BatchOp.edit (op : BatchOp) : Edit Bytes Bytes :=
  (op.key, if op.delete then none else some op.value)

/-- What a pending write does to its key. -/
def ValueOrDelete.result (vd : ValueOrDelete) : Option Bytes :=
  if vd.delete then none else some vd.value

def editOf (p : Bytes × ValueOrDelete) : Edit Bytes Bytes := (p.1, p.2.result)

theorem MemDb.foldl_writeOp (ops : List BatchOp) (map : ExtTreeMap Bytes Bytes) :
    ops.foldl MemDb.writeOp map = edits map (ops.map BatchOp.edit) := by
  have hop : ∀ map op, MemDb.writeOp map op = Overlay.edit map op.edit := by
    intro map op
    rw [MemDb.writeOp, Overlay.edit, BatchOp.edit]
    rcases op.delete <;> rfl
  rw [edits, List.foldl_map]
  exact congrArg (fun f ↦ ops.foldl f map) (funext₂ hop)

/-- The ops recorded of writes that come as a list. -/
theorem ops_foldl_record {α : Type} (key value : α → Bytes) (delete : α → Bool) (l : List α)
    (b : BatchOps) :
    (l.foldl (fun batch a ↦ if delete a then batch.delete (key a) else batch.put (key a) (value a))
      b).ops.map BatchOp.edit
      = b.ops.map BatchOp.edit ++
        l.map fun a ↦ (key a, if delete a then none else some (value a)) := by
  induction l generalizing b with
  | nil => rw [List.foldl_nil, List.map_nil, List.append_nil]
  | cons a l ih =>
    rw [List.foldl_cons, ih, List.map_cons]
    rcases hdelete : delete a <;> simp [BatchOps.put, BatchOps.delete, BatchOp.edit]

/-! ### The pending writes -/

namespace VersionDb

/-- The base with the pending writes made to it. -/
def overlay (mem : Mem) (base : ExtTreeMap Bytes Bytes) : ExtTreeMap Bytes Bytes :=
  edits base (mem.toList.map editOf)

theorem distinctKeys (mem : Mem) : DistinctKeys (mem.toList.map editOf) := by
  rw [DistinctKeys, List.pairwise_map]
  exact TreeMap.pairwise_fst_toList mem

theorem getElem?_overlay (mem : Mem) (base : ExtTreeMap Bytes Bytes) (key : Bytes) :
    (overlay mem base)[key]? = mem[key]?.elim base[key]? ValueOrDelete.result := by
  rcases hkey : mem[key]? with - | vd
  · refine getElem?_edits_of_forall_ne (fun e he ↦ ?_) base
    obtain ⟨p, hp, rfl⟩ := List.mem_map.mp he
    exact TreeMap.not_mem_fst_of_none hkey p hp
  · refine getElem?_edits_of_mem (distinctKeys mem) (List.mem_map.mpr ⟨(key, vd), ?_, rfl⟩) base
    exact ExtTreeMap.mem_toList_iff_getElem?_eq_some.mpr hkey

@[simp] theorem overlay_empty (base : ExtTreeMap Bytes Bytes) : overlay ∅ base = base :=
  ExtTreeMap.ext_getElem? fun key ↦ by simp [getElem?_overlay]

/-- A write to the overlay comes after all the others. -/
theorem overlay_insert (mem : Mem) (base : ExtTreeMap Bytes Bytes) (key : Bytes)
    (vd : ValueOrDelete) :
    overlay (mem.insert key vd) base = edit (overlay mem base) (key, vd.result) := by
  refine ExtTreeMap.ext_getElem? fun key' ↦ ?_
  rw [getElem?_overlay, TreeMap.getElem?_insert_eq, getElem?_edit]
  split
  · rfl
  · exact (getElem?_overlay mem base key').symm

theorem overlay_foldl_insert (ops : List BatchOp) (mem : Mem) (base : ExtTreeMap Bytes Bytes) :
    overlay (ops.foldl (fun mem op ↦ mem.insert op.key ⟨op.value, op.delete⟩) mem) base
      = edits (overlay mem base) (ops.map BatchOp.edit) := by
  induction ops generalizing mem with
  | nil => rfl
  | cons op ops ih => rw [List.foldl_cons, ih, overlay_insert, List.map_cons, edits_cons]; rfl

/-- The batch of the pending writes does what they do, in whatever order it lists them. -/
theorem edits_pendingBatch (order : HashOrder) (mem : Mem) (base : ExtTreeMap Bytes Bytes) :
    edits base ((pendingBatch order mem).ops.map BatchOp.edit) = overlay mem base := by
  rw [pendingBatch, ops_foldl_record, List.map_nil, List.nil_append]
  exact edits_perm (distinctKeys mem) ((order.perm mem).symm.map editOf) base

end VersionDb

/-! ### The iterator -/

namespace VersionIterator

/-- The pending write of a key that comes before all the others. -/
theorem advance_pending {k : Bytes} {vd : ValueOrDelete} {es : List (Bytes × ValueOrDelete)}
    {b : Option Bytes} {bs out : List (Bytes × Bytes)}
    (h : Merged (((k, vd) :: es).map editOf) (b.toList.map (k, ·) ++ bs) out) (hbs : Below k bs) :
    vd.result.elim (Merged (es.map editOf) bs out) fun v ↦
      ∃ out', out = (k, v) :: out' ∧ Merged (es.map editOf) bs out' :=
  h.advance (e := some vd.result) (ascending_cons.mp h.edits_ascending).1 hbs

/-- The loop shows what comes next. -/
theorem loop_spec {es : List (Bytes × ValueOrDelete)} {bs out : List (Bytes × Bytes)}
    (h : Merged (es.map editOf) bs out) :
    (loop es bs).1 = out.head? ∧
      Merged ((loop es bs).2.1.map editOf) (loop es bs).2.2 out.tail := by
  have hput : ∀ vd : ValueOrDelete, (!vd.delete) = true → vd.result = some vd.value := by
    intro vd hvd
    simp_all [ValueOrDelete.result]
  have hdelete : ∀ vd : ValueOrDelete, ¬(!vd.delete) = true → vd.result = none := by
    intro vd hvd
    simp_all [ValueOrDelete.result]
  fun_induction loop es bs generalizing out with
  | case1 =>
    obtain rfl := h.nil
    exact ⟨rfl, h⟩
  | case2 k vd es hvd =>
    have hadvance := advance_pending (b := none) h nofun
    rw [hput vd hvd] at hadvance
    obtain ⟨out', rfl, hout'⟩ := hadvance
    exact ⟨rfl, hout'⟩
  | case3 k vd es hvd ih =>
    have hadvance := advance_pending (b := none) h nofun
    rw [hdelete vd hvd] at hadvance
    exact ih hadvance
  | case4 k v bs =>
    obtain ⟨out', rfl, hout'⟩ := h.advance (e := none) (b := some v) nofun
      (ascending_cons.mp h.base_ascending).1
    exact ⟨rfl, hout'⟩
  | case5 memKey vd es dbKey v bs hlt hvd =>
    have hadvance := advance_pending (b := none) h (.cons hlt h.base_ascending)
    rw [hput vd hvd] at hadvance
    obtain ⟨out', rfl, hout'⟩ := hadvance
    exact ⟨rfl, hout'⟩
  | case6 memKey vd es dbKey v bs hlt hvd ih =>
    have hadvance := advance_pending (b := none) h (.cons hlt h.base_ascending)
    rw [hdelete vd hvd] at hadvance
    exact ih hadvance
  | case7 memKey vd es dbKey v bs _ hlt =>
    obtain ⟨out', rfl, hout'⟩ := h.advance (e := none) (b := some v)
      (.cons hlt h.edits_ascending) (ascending_cons.mp h.base_ascending).1
    exact ⟨rfl, hout'⟩
  | case8 memKey vd es dbKey v bs hge hle hvd =>
    obtain rfl : memKey = dbKey := eq_of_not_lt hge hle
    have hadvance := advance_pending (b := some v) h (ascending_cons.mp h.base_ascending).1
    rw [hput vd hvd] at hadvance
    obtain ⟨out', rfl, hout'⟩ := hadvance
    exact ⟨rfl, hout'⟩
  | case9 memKey vd es dbKey v bs hge hle hvd ih =>
    obtain rfl : memKey = dbKey := eq_of_not_lt hge hle
    have hadvance := advance_pending (b := some v) h (ascending_cons.mp h.base_ascending).1
    rw [hdelete vd hvd] at hadvance
    exact ih hadvance

end VersionIterator

/-! ### The entries of the base -/

theorem compare_cons (b c : UInt8) (k l : Bytes) :
    compare (b :: k) (c :: l) = (compare b c).then (compare k l) := List.compareLex_cons_cons

theorem compare_ne_gt_of_isPrefix {pre k : Bytes} (h : pre <+: k) : compare pre k ≠ .gt := by
  induction pre generalizing k with
  | nil =>
    obtain - | ⟨b, k⟩ := k
    · decide
    · rw [show compare [] (b :: k) = .lt from List.compareLex_nil_cons]
      decide
  | cons b pre ih =>
    obtain ⟨l, rfl⟩ := h
    rw [List.cons_append, compare_cons, ReflOrd.compare_self]
    exact ih (List.prefix_append pre l)

/-- Byte strings between a prefix and one that has it have it too. -/
theorem isPrefix_of_between {pre k k' : Bytes} (hpre : compare pre k ≠ .gt)
    (hk : compare k k' ≠ .gt) (hk' : pre <+: k') : pre <+: k := by
  induction pre generalizing k k' with
  | nil => exact List.nil_prefix
  | cons b pre ih =>
    obtain ⟨l, rfl⟩ := hk'
    obtain - | ⟨c, k⟩ := k
    · exact absurd (show compare (b :: pre) [] = .gt from List.compareLex_cons_nil) hpre
    · rw [compare_cons] at hpre
      rw [List.cons_append, compare_cons] at hk
      obtain rfl : b = c := by
        refine eq_of_not_lt (fun hlt ↦ hk ?_) fun hlt ↦ hpre ?_
        · rw [OrientedCmp.gt_of_lt hlt]
          rfl
        · rw [OrientedCmp.gt_of_lt hlt]
          rfl
      rw [ReflOrd.compare_self] at hpre hk
      exact (List.prefix_cons_inj b).mpr (ih hpre hk (List.prefix_append pre l))

namespace MemDb

/-- The entries an iterator goes through. -/
def inRange (start pre : Bytes) (key : Bytes) : Bool :=
  pre.isPrefixOf key && compare key start ≠ .lt

theorem snapshotLoop_eq (start pre : Bytes) {l : List (Bytes × Bytes)} (hl : Ascending l) :
    snapshotLoop start pre l = l.filter fun p ↦ inRange start pre p.1 := by
  induction l with
  | nil => rfl
  | cons p l ih =>
    obtain ⟨k, v⟩ := p
    obtain ⟨hbelow, hl⟩ := ascending_cons.mp hl
    rw [snapshotLoop, List.filter_cons]
    by_cases hk : pre.isPrefixOf k = true
    · by_cases hstart : compare k start = .lt <;> simp [inRange, hk, hstart, ih hl]
    · by_cases hlt : compare k pre = .lt
      · simp [inRange, hk, hlt, ih hl]
      · -- no key that comes later has the prefix
        have hrest : l.filter (fun p ↦ inRange start pre p.1) = [] := by
          refine List.filter_eq_nil_iff.mpr fun p hp hrange ↦ hk ?_
          rw [inRange, Bool.and_eq_true, List.isPrefixOf_iff_prefix] at hrange
          refine List.isPrefixOf_iff_prefix.mpr (isPrefix_of_between ?_ ?_ hrange.1)
          · exact fun hgt ↦ hlt (OrientedCmp.lt_of_gt hgt)
          · rw [hbelow p hp]
            decide
        have hout : inRange start pre k = false := by simp [inRange, hk]
        have hnot : (!pre.isPrefixOf k) = true := by
          rw [Bool.not_eq_true']
          exact Bool.eq_false_iff.mpr hk
        rw [hrest, hout, if_pos hnot, if_neg hlt]
        rfl

/-- The snapshot has the entries with the prefix, from the start on. -/
theorem snapshot_eq (map : ExtTreeMap Bytes Bytes) (start pre : Bytes) :
    snapshot ⟨some map⟩ start pre = .ok (map.toList.filter fun p ↦ inRange start pre p.1) := by
  simp only [snapshot]
  rw [snapshotLoop_eq start pre ((ascending_toList map).filter _), List.filter_filter]
  congr 1
  refine List.filter_congr fun p _ ↦ ?_
  rw [Bool.and_eq_left_iff_imp]
  intro hrange
  rw [inRange, Bool.and_eq_true, List.isPrefixOf_iff_prefix] at hrange
  rw [decide_eq_true_eq]
  split
  · exact decide_eq_true_eq.mp hrange.2
  · exact fun hlt ↦ compare_ne_gt_of_isPrefix hrange.1 (OrientedCmp.gt_of_lt hlt)

end MemDb

/-! ### Reads -/

/-- The map of the base. -/
def VersionDb.base? (v : VersionDb) : Option (ExtTreeMap Bytes Bytes) := v.inner.bind (·.db.db)

/-- A database is open, over a base that is. -/
def VersionDb.IsOpen (v : VersionDb) (mem : Mem) (base : ExtTreeMap Bytes Bytes) : Prop :=
  v.inner = some ⟨mem, ⟨some base⟩⟩

namespace VersionIterator

/-- The iterator after a call of `next` at each of the states that its database goes through. -/
def after (it : VersionIterator) (vs : List VersionDb) : VersionIterator :=
  vs.foldl (fun it v ↦ (it.next v).1) it

/-- An iterator goes through the entries of a list: the call of `next` that comes after `n` others
shows the entry `n`, whatever is written to the database in between. -/
def GoesThrough (it : VersionIterator) (out : List (Bytes × Bytes)) : Prop :=
  ∀ vs v, (∀ v' ∈ v :: vs, v'.inner.isSome = true) →
    let (it', more) := (it.after vs).next v
    more = (out[vs.length]?).isSome ∧ it'.key = (out[vs.length]?).map Prod.fst ∧
      it'.value = (out[vs.length]?).map Prod.snd ∧ it'.error = .ok ()

theorem next_eq {v : VersionDb} (hv : v.inner.isSome = true) (it : VersionIterator) :
    it.next v =
      ({ it with
        entries := (loop it.entries it.baseEntries).2.1
        baseEntries := (loop it.entries it.baseEntries).2.2
        key := (loop it.entries it.baseEntries).1.map Prod.fst
        value := (loop it.entries it.baseEntries).1.map Prod.snd },
        (loop it.entries it.baseEntries).1.isSome) := by
  rw [next, if_neg]
  rwa [Option.isNone_iff_eq_none, ← Ne, Option.ne_none_iff_isSome]

theorem goesThrough {it : VersionIterator} {out : List (Bytes × Bytes)}
    (h : Merged (it.entries.map editOf) it.baseEntries out) (herr : it.err = none)
    (hbase : it.baseErr = none) : it.GoesThrough out := by
  intro vs v hopen
  -- the induction is on the calls made before
  induction vs generalizing it out with
  | nil =>
    obtain ⟨hhead, -⟩ := loop_spec h
    rw [after, List.foldl_nil, next_eq (hopen v List.mem_cons_self), hhead,
      List.head?_eq_getElem?]
    exact ⟨rfl, rfl, rfl, by simp only [error, herr, hbase]⟩
  | cons w vs ih =>
    obtain ⟨-, htail⟩ := loop_spec h
    have hw : w.inner.isSome = true := hopen w (by simp)
    have hopen' : ∀ v' ∈ v :: vs, v'.inner.isSome = true := by
      intro v' hv'
      rcases List.mem_cons.mp hv' with rfl | hv'
      · exact hopen v' List.mem_cons_self
      · exact hopen v' (by simp [hv'])
    have hmerged : Merged ((it.next w).1.entries.map editOf) (it.next w).1.baseEntries
        out.tail := by
      rwa [next_eq hw]
    have hnext := ih hmerged (by rwa [next_eq hw]) (by rwa [next_eq hw]) hopen'
    rw [List.getElem?_tail] at hnext
    exact hnext

end VersionIterator

namespace VersionDb

/-- A database answers every read as a map does. -/
structure Answers (order : HashOrder) (v : VersionDb) (map : ExtTreeMap Bytes Bytes) : Prop where
  get : ∀ key, v.get key = map[key]?.elim (.error .notFound) .ok
  has : ∀ key, v.has key = .ok (map.contains key)
  iterator : ∀ start pre, (v.newIteratorWithStartAndPrefix order start pre).GoesThrough
    (map.toList.filter fun p ↦ MemDb.inRange start pre p.1)

variable {order : HashOrder} {v : VersionDb} {mem : Mem} {base : ExtTreeMap Bytes Bytes}

/-- The pending writes in a range, in order. -/
def sortedEntries (order : HashOrder) (mem : Mem) (start pre : Bytes) :
    List (Bytes × ValueOrDelete) :=
  ((order.list mem).filter fun p ↦ MemDb.inRange start pre p.1).mergeSort fun p q ↦
    compare p.1 q.1 ≠ .gt

theorem mem_sortedEntries {start pre : Bytes} {p : Bytes × ValueOrDelete} :
    p ∈ sortedEntries order mem start pre ↔
      mem[p.1]? = some p.2 ∧ MemDb.inRange start pre p.1 = true := by
  rw [sortedEntries, (List.mergeSort_perm _ _).mem_iff, List.mem_filter, (order.perm mem).mem_iff,
    ← ExtTreeMap.mem_toList_iff_getElem?_eq_some]

theorem ascending_sortedEntries (order : HashOrder) (mem : Mem) (start pre : Bytes) :
    Ascending (sortedEntries order mem start pre) := by
  have hle : (fun p q : Bytes × ValueOrDelete ↦ decide (compare p.1 q.1 ≠ .gt))
      = fun p q ↦ (compare p.1 q.1).isLE := by
    funext p q
    cases compare p.1 q.1 <;> rfl
  have hlist : (order.list mem).Pairwise fun p q ↦ p.1 ≠ q.1 :=
    (order.perm mem).symm.pairwise (TreeMap.pairwise_fst_toList mem) fun h ↦ h.symm
  rw [sortedEntries, hle]
  exact ascending_mergeSort (hlist.filter _)

theorem merged_sortedEntries (order : HashOrder) (mem : Mem) (base : ExtTreeMap Bytes Bytes)
    (start pre : Bytes) :
    Merged ((sortedEntries order mem start pre).map editOf)
      (base.toList.filter fun p ↦ MemDb.inRange start pre p.1)
      ((overlay mem base).toList.filter fun p ↦ MemDb.inRange start pre p.1) where
  edits_ascending := List.pairwise_map.mpr (ascending_sortedEntries order mem start pre)
  base_ascending := (ascending_toList base).filter _
  out_ascending := (ascending_toList _).filter _
  mem_iff key value := by
    have hedit : ∀ o, (key, o) ∈ (sortedEntries order mem start pre).map editOf ↔
        mem[key]?.map ValueOrDelete.result = some o ∧ MemDb.inRange start pre key = true := by
      intro o
      simp only [List.mem_map, mem_sortedEntries, editOf, Prod.exists, Prod.mk.injEq,
        Option.map_eq_some_iff]
      constructor
      · rintro ⟨k, vd, ⟨hvd, hrange⟩, rfl, rfl⟩
        exact ⟨⟨vd, hvd, rfl⟩, hrange⟩
      · rintro ⟨⟨vd, hvd, rfl⟩, hrange⟩
        exact ⟨key, vd, ⟨hvd, hrange⟩, rfl, rfl⟩
    simp only [hedit, List.mem_filter, ExtTreeMap.mem_toList_iff_getElem?_eq_some, getElem?_overlay]
    rcases mem[key]? with - | vd
    · simp
    · simp

theorem commit_eq (order : HashOrder) (mem : Mem) (base : ExtTreeMap Bytes Bytes) :
    commit order ⟨some ⟨mem, ⟨some base⟩⟩⟩ = .ok ⟨some ⟨∅, ⟨some (overlay mem base)⟩⟩⟩ := by
  rw [← edits_pendingBatch order, ← MemDb.foldl_writeOp]
  rfl

theorem writeCommitBatch_eq (mem : Mem) (base : ExtTreeMap Bytes Bytes) (b : BatchOps) :
    writeCommitBatch ⟨some ⟨mem, ⟨some base⟩⟩⟩ b
      = .ok ⟨some ⟨mem, ⟨some (b.ops.foldl MemDb.writeOp base)⟩⟩⟩ := by
  simp only [writeCommitBatch, MemDb.write, MemDb.foldl_writeOp, ops_foldl_record]
  rfl

theorem IsOpen.answers (h : v.IsOpen mem base) (order : HashOrder) :
    v.Answers order (overlay mem base) := by
  obtain ⟨inner⟩ := v
  obtain rfl := h
  refine ⟨fun key ↦ ?_, fun key ↦ ?_, fun start pre ↦ ?_⟩
  · simp only [VersionDb.get, getElem?_overlay]
    rcases mem[key]? with - | ⟨value, - | -⟩ <;> rfl
  · simp only [VersionDb.has, ExtTreeMap.contains_eq_isSome_getElem?, getElem?_overlay]
    rcases mem[key]? with - | ⟨value, - | -⟩
    · simp only [MemDb.has, ExtTreeMap.contains_eq_isSome_getElem?, Option.elim_none]
    · rfl
    · rfl
  · have hmerged := merged_sortedEntries order mem base start pre
    simp only [newIteratorWithStartAndPrefix, MemDb.snapshot_eq]
    exact VersionIterator.goesThrough hmerged rfl rfl

end VersionDb

/-! ### Runs -/

/-- A call that writes. The batches that were handed out are numbered. -/
inductive Call
  | put (key value : Bytes)
  | delete (key : Bytes)
  | writeBatch (b : BatchOps)
  | commit
  | abort
  | commitBatch
  | writeCommitBatch (i : ℕ)

/-- A database, and the batches it has handed out. -/
structure Session where
  db : VersionDb
  batches : List BatchOps := []

/-- A call on a database. -/
def Session.call (order : HashOrder) (s : Session) : Call → Except Error Session
  | .put key value => do
    let db ← s.db.put key value
    .ok { s with db := db }
  | .delete key => do
    let db ← s.db.delete key
    .ok { s with db := db }
  | .writeBatch b => do
    let db ← s.db.writeBatch b
    .ok { s with db := db }
  | .commit => do
    let db ← s.db.commit order
    .ok { s with db := db }
  | .abort => .ok { s with db := s.db.abort }
  | .commitBatch => do
    let b ← s.db.commitBatch order
    .ok { s with batches := s.batches ++ [b] }
  | .writeCommitBatch i =>
    match s.batches[i]? with
    | none => .ok s
    | some b => do
      let db ← s.db.writeCommitBatch b
      .ok { s with db := db }

/-- An ordered map, the writes that are pending, and those that were handed out. -/
structure PlainDb where
  base : ExtTreeMap Bytes Bytes
  pending : List BatchOp := []
  batches : List (List BatchOp) := []

namespace PlainDb

/-- The base with the pending writes made to it. -/
def view (p : PlainDb) : ExtTreeMap Bytes Bytes := p.pending.foldl MemDb.writeOp p.base

/-- A call on a plain map. -/
def call (p : PlainDb) : Call → PlainDb
  | .put key value => { p with pending := p.pending ++ [⟨key, value, false⟩] }
  | .delete key => { p with pending := p.pending ++ [⟨key, [], true⟩] }
  | .writeBatch b => { p with pending := p.pending ++ b.ops }
  | .commit => { p with base := p.view, pending := [] }
  | .abort => { p with pending := [] }
  | .commitBatch => { p with batches := p.batches ++ [p.pending] }
  | .writeCommitBatch i =>
    match p.batches[i]? with
    | none => p
    | some ops => { p with base := ops.foldl MemDb.writeOp p.base }

end PlainDb

/-- A database and a plain map that have taken the same calls. -/
structure Simulates (s : Session) (p : PlainDb) : Prop where
  isOpen : ∃ mem, s.db.IsOpen mem p.base ∧
    ∀ map, VersionDb.overlay mem map = p.pending.foldl MemDb.writeOp map
  batches : List.Forall₂
    (fun b ops ↦ ∀ map, b.ops.foldl MemDb.writeOp map = ops.foldl MemDb.writeOp map)
    s.batches p.batches

variable {s : Session} {p : PlainDb}

theorem Simulates.call (h : Simulates s p) (order : HashOrder) (c : Call) :
    ∃ s', s.call order c = .ok s' ∧ Simulates s' (p.call c) := by
  obtain ⟨⟨mem, hopen, hmem⟩, hbatches⟩ := h
  obtain ⟨⟨inner⟩, batches⟩ := s
  obtain rfl := hopen
  rcases c with ⟨key, value⟩ | key | b | - | - | - | i
  · refine ⟨_, rfl, ⟨_, rfl, fun map ↦ ?_⟩, hbatches⟩
    rw [VersionDb.overlay_insert, hmem, PlainDb.call, List.foldl_append]
    rfl
  · refine ⟨_, rfl, ⟨_, rfl, fun map ↦ ?_⟩, hbatches⟩
    rw [VersionDb.overlay_insert, hmem, PlainDb.call, List.foldl_append]
    rfl
  · refine ⟨_, rfl, ⟨_, rfl, fun map ↦ ?_⟩, hbatches⟩
    rw [VersionDb.overlay_foldl_insert, hmem, PlainDb.call, List.foldl_append,
      ← MemDb.foldl_writeOp]
  · -- the pending writes become part of the base
    have hcall := VersionDb.commit_eq order mem p.base
    refine ⟨⟨⟨some ⟨∅, ⟨some (VersionDb.overlay mem p.base)⟩⟩⟩, batches⟩, ?_,
      ⟨∅, ?_, VersionDb.overlay_empty⟩, hbatches⟩
    · rw [Session.call, hcall]
      rfl
    · rw [hmem]
      rfl
  · exact ⟨_, rfl, ⟨∅, rfl, VersionDb.overlay_empty⟩, hbatches⟩
  · refine ⟨_, rfl, ⟨mem, rfl, hmem⟩, List.rel_append hbatches (.cons (fun map ↦ ?_) .nil)⟩
    rw [MemDb.foldl_writeOp, VersionDb.edits_pendingBatch, hmem]
  · -- a batch that was handed out does to the base what its writes do
    have hlength := hbatches.length_eq
    by_cases hi : i < batches.length
    · have hi' : i < p.batches.length := hlength ▸ hi
      have hbatch := (List.forall₂_iff_get.mp hbatches).2 i hi hi'
      refine ⟨⟨⟨some ⟨mem, ⟨some (batches[i].ops.foldl MemDb.writeOp p.base)⟩⟩⟩, batches⟩, ?_,
        ⟨mem, ?_, ?_⟩, ?_⟩
      · simp only [Session.call, List.getElem?_eq_getElem hi, VersionDb.writeCommitBatch_eq]
        rfl
      · simp only [PlainDb.call, List.getElem?_eq_getElem hi']
        exact congrArg (fun base ↦ some (Inner.mk mem ⟨some base⟩)) (hbatch p.base)
      · simpa only [PlainDb.call, List.getElem?_eq_getElem hi'] using hmem
      · simpa only [PlainDb.call, List.getElem?_eq_getElem hi'] using hbatches
    · have hi' : p.batches[i]? = none := List.getElem?_eq_none (hlength ▸ Nat.le_of_not_lt hi)
      refine ⟨⟨⟨some ⟨mem, ⟨some p.base⟩⟩⟩, batches⟩, ?_, ⟨mem, ?_, ?_⟩, ?_⟩
      · simp only [Session.call, List.getElem?_eq_none (Nat.le_of_not_lt hi)]
      · simp only [PlainDb.call, hi']
        rfl
      · simpa only [PlainDb.call, hi'] using hmem
      · simpa only [PlainDb.call, hi'] using hbatches

/-- The same calls lead to states that simulate each other. -/
theorem Simulates.calls (h : Simulates s p) (order : HashOrder) (calls : List Call) :
    ∃ s', calls.foldlM (Session.call order) s = .ok s' ∧
      Simulates s' (calls.foldl PlainDb.call p) := by
  induction calls generalizing s p with
  | nil => exact ⟨s, rfl, h⟩
  | cons c calls ih =>
    obtain ⟨mid, hcall, hmid⟩ := h.call order c
    obtain ⟨s', hcalls, hs'⟩ := ih hmid
    exact ⟨s', by rw [List.foldlM_cons, hcall]; exact hcalls, hs'⟩

/-- **An overlay is transparent.** After any calls, a database answers every read as the base with
the pending writes made to it. A commit makes the base that map and does not change the answers;
after an abort the answers are those of the base. -/
theorem versionDb_transparent (order : HashOrder) (base : ExtTreeMap Bytes Bytes)
    (calls : List Call) :
    ∃ s, calls.foldlM (Session.call order) ⟨.new ⟨some base⟩, []⟩ = .ok s ∧
      let p := calls.foldl PlainDb.call ⟨base, [], []⟩
      s.db.Answers order p.view ∧ s.db.base? = some p.base ∧
      (∃ db, s.db.commit order = .ok db ∧ db.Answers order p.view ∧ db.base? = some p.view) ∧
      s.db.abort.Answers order p.base ∧ s.db.abort.base? = some p.base := by
  have hnew : Simulates ⟨.new ⟨some base⟩, []⟩ ⟨base, [], []⟩ :=
    ⟨⟨∅, rfl, VersionDb.overlay_empty⟩, .nil⟩
  obtain ⟨s, hrun, ⟨mem, hopen, hmem⟩, -⟩ := hnew.calls order calls
  refine ⟨s, hrun, ?_⟩
  intro p
  have hview : VersionDb.overlay mem p.base = p.view := hmem p.base
  obtain ⟨⟨inner⟩, batches⟩ := s
  obtain rfl := hopen
  have hcommit : VersionDb.IsOpen ⟨some ⟨∅, ⟨some p.view⟩⟩⟩ ∅ p.view := rfl
  have habort : VersionDb.IsOpen ⟨some ⟨∅, ⟨some p.base⟩⟩⟩ ∅ p.base := rfl
  refine ⟨hview ▸ VersionDb.IsOpen.answers rfl order, rfl, ⟨_, VersionDb.commit_eq order mem p.base,
    ?_, congrArg some hview⟩, ?_, rfl⟩
  · rw [hview]
    simpa only [VersionDb.overlay_empty] using hcommit.answers order
  · have hanswers := habort.answers order
    exact hanswers

end Avalanche.Database
