import Avalanche.Archive.Key

/-!
# A height-versioned store

Every write of a batch is kept under its key and the height of the batch. A read at a height seeks
to the first entry of its key from that height on, which is the newest version that is not newer.
`IsLatest` says which write this is, over all the writes made so far; the store answers every read
with it, whatever heights the batches had.
-/

open Std

namespace Avalanche.Archive

open Database (Bytes MemDb BatchOps)

variable {l : List Version} {map : ExtTreeMap Bytes Bytes}

/-! ### Values -/

/-- A value, told apart from a tombstone by one more byte. -/
def newDbValue (value : Bytes) : Bytes := 0x00 :: value

/-- The value, and whether there is one: a tombstone is empty. -/
def parseDbValue : Bytes → Bytes × Bool
  | _ :: rest => (rest, true)
  | [] => ([], false)

/-! ### Batches -/

inductive Op
  | put (key : Slice) (value : Bytes)
  | delete (key : Slice)
deriving DecidableEq

namespace Op

def key : Op → Slice
  | put key _ => key
  | delete key => key

/-- What is stored for the write. -/
def dbValue : Op → Bytes
  | put _ value => newDbValue value
  | delete _ => []

/-- The value it leaves, which is empty for a deletion. -/
def value : Op → Bytes
  | put _ value => value
  | delete _ => []

def exists_ : Op → Bool
  | put _ _ => true
  | delete _ => false

end Op

/-- Writes that are stamped with one height. -/
structure ArchiveBatch where
  height : UInt64
  ops : List Op

/-- Adds one write to the batch for the base; a deletion is a tombstone. -/
def Op.stage (height : UInt64) (batch : BatchOps) : Op → BatchOps
  | put key value => batch.put (newDbKeyFromUser key.1 height).1 (newDbValue value)
  | delete key => batch.put (newDbKeyFromUser key.1 height).1 []

def ArchiveBatch.write (b : ArchiveBatch) (db : MemDb) : Except Error MemDb :=
  let batch := b.ops.foldl (Op.stage b.height) {}
  let batch := batch.put heightKey (Wire.u64.put b.height)
  (db.write batch).mapError .database

/-- Batches written one after the other. -/
def writeAll (db : MemDb) (batches : List ArchiveBatch) : Except Error MemDb :=
  batches.foldlM (fun db b ↦ b.write db) db

/-! ### Reads -/

/-- The last written height. -/
def height (db : MemDb) : Except Error UInt64 := do
  let bytes ← (db.get heightKey).mapError .database
  if bytes.length = 8 then
    let (height, _) ← Except.orError (Wire.u64.get bytes) .unexpectedSize
    return height
  else .error .unexpectedSize

/-- A read view at a height. -/
structure Reader where
  db : MemDb
  height : UInt64

namespace Reader

/-- The value of the newest version at or below the height, its height, and whether it exists. -/
def getEntry (r : Reader) (key : Bytes) : Except Error (Bytes × UInt64 × Bool) := do
  let (dbKey, pre) := newDbKeyFromUser key r.height
  let entries ← (r.db.snapshot dbKey pre).mapError .database
  match entries with
  | [] => .error .notFound
  | (curKey, curValue) :: _ =>
    let (_, height) ← parseDbKeyFromUser curKey
    let (value, exists_) := parseDbValue curValue
    return (value, height, exists_)

def get (r : Reader) (key : Bytes) : Except Error Bytes := do
  let (value, _, exists_) ← r.getEntry key
  if exists_ then return value else .error .notFound

def has (r : Reader) (key : Bytes) : Except Error Bool :=
  match r.get key with
  | .ok _ => .ok true
  | .error .notFound => .ok false
  | .error e => .error e

def getHeight (r : Reader) (key : Bytes) : Except Error UInt64 := do
  let (_, height, exists_) ← r.getEntry key
  if exists_ then return height else .error .notFound

end Reader

/-! ### What a read should see -/

/-- A write with the height it was made at. -/
abbrev Version := UInt64 × Op

/-- The writes of the batches, in order. -/
def versions (batches : List ArchiveBatch) : List Version :=
  batches.flatMap fun b ↦ b.ops.map (b.height, ·)

/-- No later write has the key and the height of `v`. -/
def IsLast (l : List Version) (v : Version) : Prop :=
  ∃ before after, l = before ++ v :: after ∧ ∀ v' ∈ after, ¬ (v'.2.key = v.2.key ∧ v'.1 = v.1)

/-- The write of `key` with the greatest height at most `h`, and the last one with that height. -/
structure IsLatest (l : List Version) (key : Slice) (h : UInt64) (v : Version) : Prop where
  key_eq : v.2.key = key
  le : v.1 ≤ h
  last : IsLast l v
  greatest : ∀ v' ∈ l, v'.2.key = key → v'.1 ≤ h → v'.1 ≤ v.1

theorem IsLast.mem {v : Version} (h : IsLast l v) : v ∈ l := by
  obtain ⟨before, after, rfl, -⟩ := h
  exact List.mem_append_right _ List.mem_cons_self

theorem isLast_append_singleton {v w : Version} :
    IsLast (l ++ [w]) v ↔ v = w ∨ IsLast l v ∧ ¬ (w.2.key = v.2.key ∧ w.1 = v.1) := by
  constructor
  · rintro ⟨before, after, heq, hafter⟩
    rcases List.eq_nil_or_concat after with rfl | ⟨after, w', rfl⟩
    · exact .inl (List.append_inj_right' heq rfl |> List.singleton_inj.mp).symm
    · rw [List.concat_eq_append, ← List.cons_append, ← List.append_assoc] at heq
      obtain ⟨hl, hw⟩ := List.append_inj' heq rfl
      obtain rfl := List.singleton_inj.mp hw
      rw [List.concat_eq_append, List.forall_mem_append] at hafter
      exact .inr ⟨⟨before, after, hl, hafter.1⟩, hafter.2 w List.mem_cons_self⟩
  · rintro (rfl | ⟨⟨before, after, rfl, hafter⟩, hw⟩)
    · exact ⟨l, [], rfl, fun _ h ↦ nomatch h⟩
    · refine ⟨before, after ++ [w], by simp, fun v' hv' ↦ ?_⟩
      rcases List.mem_append.mp hv' with hv' | hv'
      · exact hafter v' hv'
      · rwa [List.mem_singleton.mp hv']

/-- A key written at a height has a last write there. -/
theorem exists_isLast {v : Version} (hv : v ∈ l) :
    ∃ v', IsLast l v' ∧ v'.2.key = v.2.key ∧ v'.1 = v.1 := by
  induction l using List.reverseRecOn with
  | nil => cases hv
  | append_singleton l w ih =>
    by_cases hsame : w.2.key = v.2.key ∧ w.1 = v.1
    · exact ⟨w, isLast_append_singleton.mpr (.inl rfl), hsame⟩
    · rcases List.mem_append.mp hv with hv | hv
      · obtain ⟨v', hlast, hkey, hheight⟩ := ih hv
        refine ⟨v', isLast_append_singleton.mpr (.inr ⟨hlast, ?_⟩), hkey, hheight⟩
        rwa [hkey, hheight]
      · rw [List.mem_singleton.mp hv] at hsame
        exact absurd ⟨rfl, rfl⟩ hsame

/-! ### What is stored -/

/-- The key of a version in the base. -/
def Version.dbKey (v : Version) : Bytes := (newDbKeyFromUser v.2.key.1 v.1).1

theorem Version.dbKey_eq_iff {v w : Version} :
    v.dbKey = w.dbKey ↔ v.2.key = w.2.key ∧ v.1 = w.1 := newDbKeyFromUser_inj

/-- The base holds the last write of every key at every height, and nothing else but a height. -/
structure Stored (map : ExtTreeMap Bytes Bytes) (l : List Version) : Prop where
  version : ∀ v, IsLast l v → map[v.dbKey]? = some v.2.dbValue
  only : ∀ k bytes, map[k]? = some bytes → k = heightKey ∨ ∃ v, IsLast l v ∧ k = v.dbKey

theorem stored_empty : Stored ∅ [] where
  version v hv := absurd hv.mem List.not_mem_nil
  only k bytes h := by simp at h

theorem Stored.put (h : Stored map l)
    (w : Version) : Stored (map.insert w.dbKey w.2.dbValue) (l ++ [w]) where
  version v hv := by
    rw [TreeMap.getElem?_insert_eq]
    rcases isLast_append_singleton.mp hv with rfl | ⟨hv, hne⟩
    · rw [if_pos rfl]
    · rw [if_neg (mt Version.dbKey_eq_iff.mp hne), h.version v hv]
  only k bytes hk := by
    rw [TreeMap.getElem?_insert_eq] at hk
    split at hk
    case isTrue heq => exact .inr ⟨w, isLast_append_singleton.mpr (.inl rfl), heq.symm⟩
    case isFalse hne =>
      obtain hheight | ⟨v, hv, rfl⟩ := h.only k bytes hk
      · exact .inl hheight
      · refine .inr ⟨v, isLast_append_singleton.mpr (.inr ⟨hv, fun hsame ↦ hne ?_⟩), rfl⟩
        exact Version.dbKey_eq_iff.mpr hsame

theorem Stored.putHeight (h : Stored map l)
    (bytes : Bytes) : Stored (map.insert heightKey bytes) l where
  version v hv := by
    have hne : heightKey ≠ v.dbKey := (newDbKeyFromUser_ne_heightKey _ _).symm
    rw [TreeMap.getElem?_insert_eq, if_neg hne, h.version v hv]
  only k bytes hk := by
    rw [TreeMap.getElem?_insert_eq] at hk
    split at hk
    case isTrue heq => exact .inl heq.symm
    case isFalse => exact h.only k bytes hk

/-- The writes of a batch, one after the other. -/
def ArchiveBatch.put (b : ArchiveBatch) (map : ExtTreeMap Bytes Bytes) : ExtTreeMap Bytes Bytes :=
  (b.ops.foldl (fun map op ↦ map.insert (Version.dbKey (b.height, op)) op.dbValue) map).insert
    heightKey (Wire.u64.put b.height)

theorem ops_foldl_stage (height : UInt64) (ops : List Op) (batch : BatchOps) :
    (ops.foldl (Op.stage height) batch).ops
      = batch.ops ++ ops.map fun op ↦ ⟨Version.dbKey (height, op), op.dbValue, false⟩ := by
  induction ops generalizing batch with
  | nil => simp
  | cons op ops ih =>
    rw [List.foldl_cons, ih]
    cases op <;> simp [Op.stage, BatchOps.put, Version.dbKey, Op.key, Op.dbValue]

theorem ArchiveBatch.write_eq (b : ArchiveBatch) (map : ExtTreeMap Bytes Bytes) :
    b.write ⟨some map⟩ = .ok ⟨some (b.put map)⟩ := by
  rw [ArchiveBatch.write, BatchOps.put, ops_foldl_stage, MemDb.write, ArchiveBatch.put]
  simp only [Except.mapError, List.nil_append, List.foldl_append, List.foldl_map]
  rfl

theorem Stored.batch (h : Stored map l)
    (b : ArchiveBatch) : Stored (b.put map) (l ++ b.ops.map (b.height, ·)) := by
  refine Stored.putHeight ?_ _
  obtain ⟨height, ops⟩ := b
  induction ops generalizing map l with
  | nil => simpa using h
  | cons op ops ih =>
    have hstep := ih (h.put (height, op))
    rwa [List.append_assoc, List.singleton_append] at hstep

/-- Every batch is written, and the base holds the last write of every key at every height. -/
theorem exists_writeAll (h : Stored map l) (batches : List ArchiveBatch) :
    ∃ map', writeAll ⟨some map⟩ batches = .ok ⟨some map'⟩ ∧
      Stored map' (l ++ versions batches) := by
  induction batches generalizing map l with
  | nil => exact ⟨map, rfl, by simpa [versions] using h⟩
  | cons b batches ih =>
    obtain ⟨map', hrun, hstored⟩ := ih (h.batch b)
    refine ⟨map', ?_, ?_⟩
    · rw [writeAll, List.foldlM_cons, b.write_eq]
      exact hrun
    · rwa [List.append_assoc] at hstored

/-! ### Reading -/

theorem parseDbValue_dbValue (op : Op) : parseDbValue op.dbValue = (op.value, op.exists_) := by
  cases op <;> rfl

section Read

variable {map : ExtTreeMap Bytes Bytes} {l : List Version} {key : Slice} {h : UInt64}

/-- The entries the iterator of a read goes through. -/
def entries (map : ExtTreeMap Bytes Bytes) (key : Slice) (h : UInt64) : List (Bytes × Bytes) :=
  map.toList.filter fun p ↦
    MemDb.inRange (newDbKeyFromUser key.1 h).1 (newDbKeyFromUser key.1 h).2 p.1

/-- A version is among the entries if it is one of the key and not newer than the height. -/
theorem inRange_dbKey {v : Version} :
    MemDb.inRange (newDbKeyFromUser key.1 h).1 (newDbKeyFromUser key.1 h).2 v.dbKey = true ↔
      v.2.key = key ∧ v.1 ≤ h := by
  rw [MemDb.inRange, Bool.and_eq_true, List.isPrefixOf_iff_prefix, decide_eq_true_eq]
  constructor
  · rintro ⟨hpre, hstart⟩
    have hkey : key = v.2.key := eq_of_isPrefix hpre
    refine ⟨hkey.symm, ?_⟩
    rw [Version.dbKey, ← hkey, compare_newDbKeyFromUser] at hstart
    exact UInt64.le_iff_toNat_le.mpr (Nat.not_lt.mp fun hlt ↦ hstart (compare_lt_iff_lt.mpr hlt))
  · rintro ⟨rfl, hle⟩
    refine ⟨isPrefix_newDbKeyFromUser _ _ _, ?_⟩
    rw [Version.dbKey, compare_newDbKeyFromUser]
    exact fun hlt ↦ Nat.not_lt.mpr (UInt64.le_iff_toNat_le.mp hle) (compare_lt_iff_lt.mp hlt)

theorem Stored.mem_entries (hs : Stored map l) {v : Version} (hv : v ∈ l) (hkey : v.2.key = key)
    (hle : v.1 ≤ h) : ∃ v', IsLast l v' ∧ v'.2.key = key ∧ v'.1 = v.1 ∧
      (v'.dbKey, v'.2.dbValue) ∈ entries map key h := by
  obtain ⟨v', hlast, hkey', hheight⟩ := exists_isLast hv
  refine ⟨v', hlast, hkey'.trans hkey, hheight, List.mem_filter.mpr ⟨?_, ?_⟩⟩
  · exact ExtTreeMap.mem_toList_iff_getElem?_eq_some.mpr (hs.version v' hlast)
  · exact inRange_dbKey.mpr ⟨hkey'.trans hkey, hheight ▸ hle⟩

/-- Every entry is the last write of the key at a height that is not above the one read at. -/
theorem Stored.of_mem_entries (hs : Stored map l) {p : Bytes × Bytes} (hp : p ∈ entries map key h) :
    ∃ v, IsLast l v ∧ v.2.key = key ∧ v.1 ≤ h ∧ p = (v.dbKey, v.2.dbValue) := by
  obtain ⟨hmem, hrange⟩ := List.mem_filter.mp hp
  have hget := ExtTreeMap.mem_toList_iff_getElem?_eq_some.mp hmem
  obtain hheight | ⟨v, hv, hk⟩ := hs.only p.1 p.2 hget
  · rw [hheight, MemDb.inRange, Bool.and_eq_true, List.isPrefixOf_iff_prefix] at hrange
    exact absurd hrange.1 (not_isPrefix_heightKey key h)
  · rw [hk] at hrange hget
    obtain ⟨hkey, hle⟩ := inRange_dbKey.mp hrange
    refine ⟨v, hv, hkey, hle, Prod.ext hk ?_⟩
    exact Option.some.inj (hget.symm.trans (hs.version v hv))

theorem getEntry_eq (map : ExtTreeMap Bytes Bytes) (key : Slice) (h : UInt64) :
    Reader.getEntry ⟨⟨some map⟩, h⟩ key.1 = match entries map key h with
      | [] => .error .notFound
      | (curKey, curValue) :: _ => (do
        let (_, height) ← parseDbKeyFromUser curKey
        let (value, exists_) := parseDbValue curValue
        return (value, height, exists_)) := by
  rw [Reader.getEntry]
  dsimp only
  rw [MemDb.snapshot_eq]
  rfl

/-- The iterator stands on the latest version, or there is none. -/
theorem Stored.getEntry (hs : Stored map l) (key : Slice) (h : UInt64) :
    (∃ v, IsLatest l key h v ∧
        Reader.getEntry ⟨⟨some map⟩, h⟩ key.1 = .ok (v.2.value, v.1, v.2.exists_)) ∨
      (∀ v ∈ l, v.2.key = key → h < v.1) ∧
        Reader.getEntry ⟨⟨some map⟩, h⟩ key.1 = .error .notFound := by
  rw [getEntry_eq]
  rcases hentries : entries map key h with - | ⟨p, rest⟩
  · refine .inr ⟨fun v hv hkey ↦ UInt64.not_le.mp fun hle ↦ ?_, rfl⟩
    obtain ⟨v', -, -, -, hmem⟩ := hs.mem_entries hv hkey hle
    rw [hentries] at hmem
    cases hmem
  · obtain ⟨v, hlast, hkey, hle, rfl⟩ := hs.of_mem_entries (hentries ▸ List.mem_cons_self)
    refine .inl ⟨v, ⟨hkey, hle, hlast, fun w hw hkey' hle' ↦ ?_⟩, ?_⟩
    · -- an entry that comes later is an older version
      obtain ⟨w', -, hkey'', hheight, hmem⟩ := hs.mem_entries hw hkey' hle'
      rw [← hheight]
      have hsorted : Overlay.Ascending (entries map key h) :=
        (Overlay.ascending_toList map).filter _
      rw [hentries] at hmem hsorted
      rcases List.mem_cons.mp hmem with heq | hmem
      · obtain ⟨hdbKey, -⟩ := Prod.mk.inj heq
        rw [(Version.dbKey_eq_iff.mp hdbKey).2]
        exact UInt64.le_refl _
      · have hlt := (Overlay.ascending_cons.mp hsorted).1 _ hmem
        rw [Version.dbKey, Version.dbKey, hkey, hkey'', compare_newDbKeyFromUser,
          compare_lt_iff_lt] at hlt
        exact UInt64.le_iff_toNat_le.mpr hlt.le
    · have hparse := parseDbKeyFromUser_newDbKeyFromUser v.2.key v.1
      change (do
        let (_, height) ← parseDbKeyFromUser (newDbKeyFromUser v.2.key.1 v.1).1
        let (value, exists_) := parseDbValue v.2.dbValue
        return (value, height, exists_)) = _
      rw [hparse, parseDbValue_dbValue]
      rfl

end Read

/-! ### The versioned map -/

/-- The last batch leaves its height. -/
theorem getElem?_heightKey {map map' : ExtTreeMap Bytes Bytes} {batches : List ArchiveBatch}
    (h : writeAll ⟨some map⟩ batches = .ok ⟨some map'⟩) :
    map'[heightKey]? = batches.getLast?.elim map[heightKey]? fun b ↦
      some (Wire.u64.put b.height) := by
  induction batches generalizing map with
  | nil =>
    cases h
    rfl
  | cons b batches ih =>
    rw [writeAll, List.foldlM_cons, b.write_eq] at h
    rw [ih h, ArchiveBatch.put, TreeMap.getElem?_insert_eq, if_pos rfl, List.getLast?_cons]
    cases batches.getLast? <;> rfl

theorem height_of_getElem? {b : UInt64}
    (h : map[heightKey]? = some (Wire.u64.put b)) : height ⟨some map⟩ = .ok b := by
  have hget := Wire.u64.get_put b []
  rw [List.append_nil] at hget
  simp only [height, MemDb.get, h, Option.elim_some, Except.mapError, Except.ok_bind, length_putU64,
    if_true, hget, Except.orError]
  rfl

/-- What a read answers when `v` is the version it should see. -/
def Reader.Answers (r : Reader) (key : Slice) (v : Version) : Prop :=
  r.getEntry key.1 = .ok (v.2.value, v.1, v.2.exists_) ∧
    r.get key.1 = (if v.2.exists_ then .ok v.2.value else .error .notFound) ∧
    r.has key.1 = .ok v.2.exists_ ∧
    r.getHeight key.1 = (if v.2.exists_ then .ok v.1 else .error .notFound)

/-- What a read answers when there is no version it should see. -/
def Reader.AnswersNone (r : Reader) (key : Slice) : Prop :=
  r.getEntry key.1 = .error .notFound ∧ r.get key.1 = .error .notFound ∧
    r.has key.1 = .ok false ∧ r.getHeight key.1 = .error .notFound

theorem Reader.answers {r : Reader} {key : Slice} {v : Version}
    (h : r.getEntry key.1 = .ok (v.2.value, v.1, v.2.exists_)) : r.Answers key v := by
  have hget : r.get key.1 = if v.2.exists_ then .ok v.2.value else .error .notFound := by
    rw [Reader.get, h]
    rfl
  refine ⟨h, hget, ?_, ?_⟩
  · rw [Reader.has, hget]
    cases v.2.exists_ <;> rfl
  · rw [Reader.getHeight, h]
    rfl

theorem Reader.answersNone {r : Reader} {key : Slice} (h : r.getEntry key.1 = .error .notFound) :
    r.AnswersNone key := by
  have hget : r.get key.1 = .error .notFound := by
    rw [Reader.get, h]
    rfl
  refine ⟨h, hget, ?_, ?_⟩
  · rw [Reader.has, hget]
  · rw [Reader.getHeight, h]
    rfl

/-- **The archive is a versioned map.** After any batches, at whatever heights, a read of a key at a
height sees the last write with the greatest height that is not above it, made for exactly that key,
and finds nothing if there is none; and the height of the archive is that of the last batch. -/
theorem archive_isVersionedMap (batches : List ArchiveBatch) :
    ∃ db, writeAll ⟨some ∅⟩ batches = .ok db ∧
      (∀ key h,
        (∃ v, IsLatest (versions batches) key h v ∧ Reader.Answers ⟨db, h⟩ key v) ∨
          (∀ v ∈ versions batches, v.2.key = key → h < v.1) ∧ Reader.AnswersNone ⟨db, h⟩ key) ∧
      height db = batches.getLast?.elim (.error (.database .notFound)) fun b ↦ .ok b.height := by
  obtain ⟨map, hrun, hstored⟩ := exists_writeAll stored_empty batches
  refine ⟨⟨some map⟩, hrun, fun key h ↦ ?_, ?_⟩
  · obtain ⟨v, hlatest, hget⟩ | ⟨hnone, hget⟩ := hstored.getEntry key h
    · exact .inl ⟨v, hlatest, Reader.answers hget⟩
    · exact .inr ⟨hnone, Reader.answersNone hget⟩
  · have hheight := getElem?_heightKey hrun
    cases hlast : batches.getLast? with
    | none =>
      rw [hlast] at hheight
      have hempty : map[heightKey]? = none := by simpa using hheight
      simp only [height, MemDb.get, hempty, Option.elim_none, Except.mapError]
      rfl
    | some b =>
      rw [hlast] at hheight
      exact height_of_getElem? hheight

end Avalanche.Archive
