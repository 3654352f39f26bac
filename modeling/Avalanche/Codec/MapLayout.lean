import Avalanche.Codec.Layout
import Avalanche.Library.Overlay

/-!
# What the codec writes of a map

The entries of a map go out in the order of the bytes of their keys, which need not be the order of
the keys. No form of a key is the beginning of another, so that no two keys have the same bytes and
the order is strict; the reader, which asks for a strict order, accepts that one list of entries and
no other.
-/

open Std

namespace Avalanche.Codec.Layout

open Serializable Deserializable

variable {κ β : Type} [Serializable κ] [Deserializable κ] (K : Layout κ) {k : κ}

/-- A key that a buffer can hold. -/
def Key (k : κ) : Prop := K.Encodable k ∧ (K.raw k).length ≤ u64Max

/-- The buffer for a key is as long as the key. -/
private theorem room_marshalKey (h : (K.raw k).length ≤ u64Max) :
    Writer.Room { maxSize := max (size k) 1 } (K.raw k).length := by
  refine ⟨rfl, ?_⟩
  rw [K.size_eq, min_eq_left h, List.length_nil, Nat.zero_add]
  exact le_max_left _ _

theorem marshalKey_eq (h : K.Key k) :
    marshalKey k = { bytes := K.raw k, maxSize := max (size k) 1 } :=
  (K.writes k).eq_append h.1 (K.room_marshalKey h.2)

theorem key_of_marshalKey (h : (marshalKey k).err = none) : K.Key k := by
  obtain ⟨hok, hroom⟩ := (K.writes k).of_err_eq ⟨rfl, Nat.zero_le _⟩ h
  refine ⟨hok, hroom.fits.trans' (Nat.le_add_left _ _) |>.trans ?_⟩
  rw [K.size_eq]
  exact max_le (min_le_right _ _) (by rw [u64Max_eq]; decide)

/-- Entries with the bytes of their keys. -/
def keyed (es : List (κ × β)) : List (Bytes × κ × β) := es.map fun e ↦ (K.raw e.1, e)

theorem mapM_keyEntry {es : List (κ × β)} (h : ∀ e ∈ es, K.Key e.1) :
    es.mapM keyEntry = .ok (K.keyed es) := by
  induction es with
  | nil => rfl
  | cons e es ih =>
    obtain ⟨hkey, h⟩ := List.forall_mem_cons.mp h
    have hentry : keyEntry e = .ok (K.raw e.1, e) := by
      rw [keyEntry, K.marshalKey_eq hkey]
    rw [List.mapM_cons, hentry, ih h]
    rfl

theorem key_of_mapM_keyEntry {es : List (κ × β)} {l : List (Bytes × κ × β)}
    (h : es.mapM keyEntry = .ok l) : ∀ e ∈ es, K.Key e.1 := by
  induction es generalizing l with
  | nil => exact nofun
  | cons e es ih =>
    rw [List.mapM_cons] at h
    rcases herr : (marshalKey e.1).err with - | err
    · refine List.forall_mem_cons.mpr ⟨K.key_of_marshalKey herr, ?_⟩
      rcases hes : es.mapM keyEntry with err | l'
      · rw [keyEntry, herr, hes] at h
        exact absurd h nofun
      · exact ih hes
    · rw [keyEntry, herr] at h
      exact absurd h nofun

/-! ### The order of the entries -/

section Order

variable [Ord κ] [TransOrd κ]

/-- The entries of a map as they are written. -/
def entries (m : ExtTreeMap κ β) : List (Bytes × κ × β) := sortEntries (K.keyed m.toList)

theorem entries_perm (m : ExtTreeMap κ β) : (K.entries m).Perm (K.keyed m.toList) :=
  List.mergeSort_perm _ _

variable [LawfulEqOrd κ]

theorem ascending_entries {m : ExtTreeMap κ β} (h : ∀ e ∈ m.toList, K.Key e.1) :
    Overlay.Ascending (K.entries m) := by
  refine Overlay.ascending_mergeSort ?_
  rw [keyed, List.pairwise_map]
  refine (Overlay.ascending_toList m).imp_of_mem fun {e e'} he he' hlt heq ↦ ?_
  rw [K.eq_of_raw_eq (h e he).1 (h e' he').1 heq, ReflOrd.compare_self] at hlt
  cases hlt

/-- Entries put into a map one by one. -/
def inserts (out : ExtTreeMap κ β) (es : List (κ × β)) : ExtTreeMap κ β :=
  es.foldl (fun m e ↦ m.insert e.1 e.2) out

omit [Serializable κ] [Deserializable κ] [LawfulEqOrd κ] in
theorem inserts_eq_edits (out : ExtTreeMap κ β) (es : List (κ × β)) :
    inserts out es = Overlay.edits out (es.map fun e ↦ (e.1, some e.2)) := by
  rw [inserts, Overlay.edits, List.foldl_map]
  rfl

/-- `es` are the entries of a map in the order of the bytes of their keys. -/
structure Lists (m : ExtTreeMap κ β) (es : List (κ × β)) : Prop where
  ascending : Overlay.Ascending (K.keyed es)
  mem_iff : ∀ k v, (k, v) ∈ es ↔ m[k]? = some v

theorem lists_inserts {es : List (κ × β)} (h : Overlay.Ascending (K.keyed es)) :
    K.Lists (inserts ∅ es) es := by
  classical
  have hdistinct : Overlay.DistinctKeys (es.map fun e ↦ (e.1, some e.2)) := by
    rw [Overlay.Ascending, keyed, List.pairwise_map] at h
    rw [Overlay.DistinctKeys, List.pairwise_map]
    refine h.imp fun {e e'} hlt heq ↦ ?_
    rw [heq, ReflOrd.compare_self] at hlt
    exact absurd hlt (by simp)
  refine ⟨h, fun k v ↦ ?_⟩
  rw [inserts_eq_edits, Overlay.getElem?_edits_eq_some_iff hdistinct]
  simp

namespace Lists

variable {K} {m : ExtTreeMap κ β} {es : List (κ × β)}

theorem inserts_eq (h : K.Lists m es) : inserts ∅ es = m := by
  refine ExtTreeMap.ext_getElem? fun k ↦ Option.ext fun v ↦ ?_
  rw [← (K.lists_inserts h.ascending).mem_iff, h.mem_iff]

theorem mem_toList_iff (h : K.Lists m es) (e : κ × β) : e ∈ m.toList ↔ e ∈ es := by
  rw [h.mem_iff, ExtTreeMap.mem_toList_iff_getElem?_eq_some]

theorem entries_eq (h : K.Lists m es) (hkeys : ∀ e ∈ es, K.Key e.1) : K.entries m = K.keyed es := by
  refine (K.ascending_entries fun e he ↦ hkeys e ((h.mem_toList_iff e).mp he)).eq_of_mem_iff
    h.ascending fun p ↦ ?_
  rw [(K.entries_perm m).mem_iff, keyed, keyed, List.mem_map, List.mem_map]
  simp only [h.mem_toList_iff]

theorem size_eq (h : K.Lists m es) (hkeys : ∀ e ∈ es, K.Key e.1) : m.size = es.length := by
  have hlength := (K.entries_perm m).length_eq
  rwa [h.entries_eq hkeys, keyed, keyed, List.length_map, List.length_map,
    ExtTreeMap.length_toList, eq_comm] at hlength

end Lists

theorem exists_lists {m : ExtTreeMap κ β} (h : ∀ e ∈ m.toList, K.Key e.1) : ∃ es, K.Lists m es := by
  have hmem {p : Bytes × κ × β} : p ∈ K.entries m ↔ p.2 ∈ m.toList ∧ p.1 = K.raw p.2.1 := by
    obtain ⟨b, e⟩ := p
    rw [(K.entries_perm m).mem_iff, keyed, List.mem_map]
    constructor
    · rintro ⟨e', he', heq⟩
      obtain ⟨rfl, rfl⟩ := Prod.mk.inj heq
      exact ⟨he', rfl⟩
    · rintro ⟨he, hb⟩
      exact ⟨e, he, Prod.ext hb.symm rfl⟩
  have hkeyed : K.keyed ((K.entries m).map Prod.snd) = K.entries m := by
    rw [keyed, List.map_map]
    refine (List.map_congr_left fun p hp ↦ ?_).trans (List.map_id _)
    exact Prod.ext (hmem.mp hp).2.symm rfl
  refine ⟨(K.entries m).map Prod.snd, ?_, fun k v ↦ ?_⟩
  · rw [hkeyed]
    exact K.ascending_entries h
  · rw [← ExtTreeMap.mem_toList_iff_getElem?_eq_some, List.mem_map]
    constructor
    · rintro ⟨p, hp, heq⟩
      exact heq ▸ (hmem.mp hp).1
    · intro he
      exact ⟨(K.raw k, k, v), hmem.mpr ⟨he, rfl⟩, rfl⟩

omit [Ord κ] [TransOrd κ] [LawfulEqOrd κ] in
/-- Only a map of one entry can have a key without bytes. -/
theorem length_le_one_or_of_ascending {es : List (κ × β)} (h : Overlay.Ascending (K.keyed es))
    (hkeys : ∀ e ∈ es, K.Key e.1) : es.length ≤ 1 ∨ ∀ e ∈ es, K.raw e.1 ≠ [] := by
  by_contra! hcon
  obtain ⟨hlength, e, he, hnil⟩ := hcon
  obtain - | ⟨a, - | ⟨b, es⟩⟩ := es
  · exact absurd he List.not_mem_nil
  · exact absurd hlength (by simp)
  -- the bytes of a key without any are the beginning of all
  · have hsame (e') (he' : e' ∈ a :: b :: es) : e.1 = e'.1 :=
      K.eq_of_append_eq (hkeys e he).1 (hkeys e' he').1
        (show K.raw e.1 ++ K.raw e'.1 = K.raw e'.1 ++ [] by
          rw [hnil, List.nil_append, List.append_nil])
    have hlt := (Overlay.ascending_cons.mp h).1 (K.raw b.1, b) List.mem_cons_self
    dsimp only at hlt
    rw [← hsame a (by simp), ← hsame b (by simp), ReflOrd.compare_self] at hlt
    exact absurd hlt nofun

end Order

/-! ### Writing -/

section Write

variable [Serializable β] [Deserializable β] (V : Layout β)

/-- An entry on the wire. -/
def rawEntry (e : Bytes × κ × β) : Bytes := e.1 ++ V.raw e.2.2

omit [Serializable κ] [Deserializable κ] in
theorem marshalEntries_writes (l : List (Bytes × κ × β)) :
    Writer.Writes (marshalEntries l) (∀ e ∈ l, V.Encodable e.2.2) (l.flatMap V.rawEntry) := by
  induction l with
  | nil => exact Writer.Writes.nothing.congr (by simp)
  | cons e l ih =>
    obtain ⟨keyBytes, k, v⟩ := e
    rw [List.forall_mem_cons]
    have hentry := ((Writer.packFixedBytes_writes keyBytes).comp (V.writes v)).comp ih.unlessErr
    rwa [true_and] at hentry

theorem flatMap_keyed_cons (k : κ) (v : β) (es : List (κ × β)) :
    (K.keyed ((k, v) :: es)).flatMap V.rawEntry
      = K.raw k ++ (V.raw v ++ (K.keyed es).flatMap V.rawEntry) := by
  rw [keyed, List.map_cons, List.flatMap_cons, rawEntry, List.append_assoc]
  rfl

/-- An entry that can be written. -/
def Entry (e : κ × β) : Prop := K.Key e.1 ∧ V.Encodable e.2

variable [Ord κ] [TransOrd κ]

theorem marshalInto_map_writes (m : ExtTreeMap κ β) :
    Writer.Writes (marshalInto m) (m.size ≤ maxSliceLen ∧ ∀ e ∈ m.toList, K.Entry V e)
      (rawCount m.size ++ (K.entries m).flatMap V.rawEntry) := by
  rcases hes : m.toList.mapM keyEntry with err | l
  · have hfail : Writer.Writes (fun p ↦ p.addError err) (∀ e ∈ m.toList, K.Entry V e)
        ((K.entries m).flatMap V.rawEntry) := by
      refine Writer.Writes.fail (fun h ↦ ?_) err
      rw [K.mapM_keyEntry fun e he ↦ (h e he).1] at hes
      exact absurd hes (by simp)
    refine ((packCount_writes m.size).comp hfail.unlessErr).of_eq fun p ↦ ?_
    simp only [marshalInto, hes]
  · have hkeys := K.key_of_mapM_keyEntry hes
    obtain rfl : K.keyed m.toList = l := Except.ok.inj ((K.mapM_keyEntry hkeys).symm.trans hes)
    have hwrites : Writer.Writes (marshalEntries (K.entries m)) (∀ e ∈ m.toList, K.Entry V e)
        ((K.entries m).flatMap V.rawEntry) := by
      refine (V.marshalEntries_writes (K.entries m)).congr ?_
      simp only [(K.entries_perm m).mem_iff, keyed, List.forall_mem_map]
      exact ⟨fun h e he ↦ ⟨hkeys e he, h e he⟩, fun h e he ↦ (h e he).2⟩
    refine ((packCount_writes m.size).comp hwrites.unlessErr).of_eq fun p ↦ ?_
    simp only [marshalInto, hes]
    rfl

end Write

/-! ### Reading -/

section Read

variable [Serializable β] [Deserializable β] (V : Layout β) [Ord κ] [TransOrd κ] [Inhabited κ]
  [Inhabited β]
variable {prev : Option Bytes} {es : List (κ × β)}

/-- The bytes of the entries lie above those of the key before them. -/
def Climbs (prev : Option Bytes) (es : List (κ × β)) : Prop :=
  Overlay.Ascending (K.keyed es) ∧ ∀ b ∈ prev, Overlay.Below b (K.keyed es)

omit [Serializable β] [Deserializable β] [Ord κ] [TransOrd κ] [Inhabited κ] [Inhabited β] in
theorem climbs_cons {e : κ × β} :
    K.Climbs prev (e :: es) ↔
      (∀ b ∈ prev, compare b (K.raw e.1) = .lt) ∧ K.Climbs (some (K.raw e.1)) es := by
  constructor
  · rintro ⟨hasc, hbelow⟩
    obtain ⟨hfst, hasc⟩ := Overlay.ascending_cons.mp hasc
    refine ⟨fun b hb ↦ hbelow b hb (K.raw e.1, e) List.mem_cons_self, hasc, fun b hb ↦ ?_⟩
    obtain rfl := Option.some_inj.mp hb
    exact hfst
  · rintro ⟨hlt, hasc, hbelow⟩
    have hasc' : Overlay.Ascending (K.keyed (e :: es)) :=
      Overlay.ascending_cons.mpr ⟨hbelow _ rfl, hasc⟩
    exact ⟨hasc', fun b hb ↦ Overlay.Below.cons (hlt b hb) hasc'⟩

/-- The comparison that the reader makes. -/
private theorem any_isLE_eq_false_iff {key : Bytes} :
    prev.any (fun b ↦ (compare key b).isLE) = false ↔ ∀ b ∈ prev, compare b key = .lt := by
  rcases prev with - | b
  · simp
  · rw [Option.any_some, OrientedOrd.eq_swap (a := key)]
    simp only [Option.mem_some_iff, forall_eq']
    rcases compare b key <;> simp

theorem unmarshalEntries_raw {out : ExtTreeMap κ β}
    {p : Reader} {rest : Bytes} (hes : ∀ e ∈ es, K.Entry V e) (hclimbs : K.Climbs prev es)
    (hp : p.At ((K.keyed es).flatMap V.rawEntry ++ rest)) :
    unmarshalEntries es.length prev out p
      = (some (inserts out es), p.advance ((K.keyed es).flatMap V.rawEntry).length) := by
  induction es generalizing prev out p with
  | nil => rfl
  | cons e es ih =>
    obtain ⟨⟨hkey, hv⟩, hes⟩ := List.forall_mem_cons.mp hes
    obtain ⟨hlt, hclimbs⟩ := K.climbs_cons.mp hclimbs
    rw [flatMap_keyed_cons, List.append_assoc, List.append_assoc] at hp
    have hp' := hp.advance
    rw [List.length_cons, unmarshalEntries, (K.reads default).read_raw hkey.1 hp]
    dsimp only
    rw [hp'.if_err, K.marshalKey_eq hkey, any_isLE_eq_false_iff.mpr hlt,
      if_neg Bool.false_ne_true, (V.reads default).read_raw hv hp']
    dsimp only
    rw [hp'.advance.if_err, ih hes hclimbs hp'.advance, Reader.advance_advance,
      Reader.advance_advance, flatMap_keyed_cons, List.length_append, List.length_append]
    rfl

theorem unmarshalEntries_canonical {count : ℕ} {out : ExtTreeMap κ β}
    {p : Reader} {bytes : Bytes} (hp : p.At bytes) (hlimit : bytes.length < decodeLimit)
    (herr : (unmarshalEntries count prev out p).2.err = none) :
    ∃ (es : List (κ × β)) (rest : Bytes), es.length = count ∧ (∀ e ∈ es, K.Entry V e) ∧
      K.Climbs prev es ∧ bytes = (K.keyed es).flatMap V.rawEntry ++ rest := by
  induction count generalizing prev out p bytes with
  | zero => exact ⟨[], bytes, rfl, by simp, ⟨.nil, fun _ _ ↦ by simp [Overlay.Below, keyed]⟩, rfl⟩
  | succ count ih =>
    rcases hk : unmarshalFrom (default : κ) p with ⟨k, p₁⟩
    rcases hv : unmarshalFrom (default : β) p₁ with ⟨v, p₂⟩
    rw [unmarshalEntries, hk] at herr
    dsimp only at herr
    rw [hv] at herr
    obtain ⟨hp₁, hstep⟩ := Reader.of_if_err herr
    split at hstep
    · exact absurd hstep (Reader.addError_err_ne_none _ _)
    next hprev =>
      obtain ⟨hp₂, hnext⟩ := Reader.of_if_err hstep
      obtain ⟨rest, hkok, rfl, hlimit₁, rfl⟩ := (K.reads default).result hp hlimit hk hp₁
      obtain ⟨rest', hvok, rfl, hlimit₂, rfl⟩ :=
        (V.reads default).result hp.advance hlimit₁ hv hp₂
      have hkey : K.Key k := by
        refine ⟨hkok, ?_⟩
        rw [List.length_append] at hlimit
        have hle : decodeLimit ≤ u64Max := by rw [u64Max_eq]; decide
        omega
      rw [K.marshalKey_eq hkey] at hnext hprev
      rw [Bool.not_eq_true, any_isLE_eq_false_iff] at hprev
      obtain ⟨es, rest, rfl, hes, hclimbs, rfl⟩ := ih hp.advance.advance hlimit₂ hnext
      refine ⟨(k, v) :: es, rest, rfl, List.forall_mem_cons.mpr ⟨⟨hkey, hvok⟩, hes⟩,
        K.climbs_cons.mpr ⟨hprev, hclimbs⟩, ?_⟩
      rw [flatMap_keyed_cons, List.append_assoc, List.append_assoc]

omit [Ord κ] [TransOrd κ] [Inhabited κ] [Inhabited β] in
theorem length_le_flatMap_keyed (hasc : Overlay.Ascending (K.keyed es))
    (hes : ∀ e ∈ es, K.Entry V e) :
    es.length ≤ max 1 ((K.keyed es).flatMap V.rawEntry).length := by
  rcases K.length_le_one_or_of_ascending hasc fun e he ↦ (hes e he).1 with hle | hne
  · exact hle.trans (le_max_left _ _)
  · have hlength : es.length ≤ ((K.keyed es).flatMap V.rawEntry).length := by
      rw [keyed, List.flatMap_map, List.length_flatMap, ← List.length_map fun e ↦ _]
      refine List.length_le_sum_of_one_le _ fun n hn ↦ ?_
      obtain ⟨e, he, rfl⟩ := List.mem_map.mp hn
      rw [rawEntry, List.length_append]
      exact Nat.le_add_right_of_le (List.length_pos_iff.mpr (hne e he))
    exact hlength.trans (le_max_right _ _)

private theorem saturatingAdd_assoc (a b c : ℕ) :
    saturatingAdd (saturatingAdd a b) c = saturatingAdd a (saturatingAdd b c) := by
  simp only [saturatingAdd]
  omega

omit [Inhabited κ] [Inhabited β] in
theorem size_map_eq (m : ExtTreeMap κ β) :
    size m = min (rawCount m.size ++ (K.entries m).flatMap V.rawEntry).length u64Max := by
  have hfour : 4 = min 4 u64Max := by rw [u64Max_eq]; rfl
  have hentry (e : κ × β) : saturatingAdd (size e.1) (size e.2)
      = min (V.rawEntry (K.raw e.1, e)).length u64Max := by
    rw [K.size_eq, V.size_eq, rawEntry, List.length_append, saturatingAdd]
    dsimp only
    omega
  have hlength : ((K.entries m).flatMap V.rawEntry).length
      = (m.toList.map fun e ↦ (V.rawEntry (K.raw e.1, e)).length).sum := by
    rw [List.length_flatMap, ((K.entries_perm m).map _).sum_eq, keyed, List.map_map]
    rfl
  show m.toList.foldl (fun total e ↦ saturatingAdd (saturatingAdd total (size e.1)) (size e.2)) 4
    = _
  simp only [saturatingAdd_assoc]
  rw [hfour, foldl_saturatingAdd hentry, List.length_append, length_rawCount, hlength]

variable [LawfulEqOrd κ]

def map : Layout (ExtTreeMap κ β) where
  raw m := rawCount m.size ++ (K.entries m).flatMap V.rawEntry
  Encodable m := m.size ≤ maxSliceLen ∧ ∀ e ∈ m.toList, K.Entry V e
  size_eq := K.size_map_eq V
  writes := K.marshalInto_map_writes V
  reads := by
    -- the entries in the order of their bytes are what the reader goes through
    have hlists {m : ExtTreeMap κ β} (hm : ∀ e ∈ m.toList, K.Entry V e) :
        ∃ es, K.Lists m es ∧ (∀ e ∈ es, K.Entry V e) ∧ K.entries m = K.keyed es ∧
          m.size = es.length := by
      obtain ⟨es, hes⟩ := K.exists_lists fun e he ↦ (hm e he).1
      have hentry : ∀ e ∈ es, K.Entry V e := fun e he ↦ hm e ((hes.mem_toList_iff e).mpr he)
      exact ⟨es, hes, hentry, hes.entries_eq fun e he ↦ (hentry e he).1,
        hes.size_eq fun e he ↦ (hentry e he).1⟩
    refine counted_reads (unmarshalEntries · none ∅) (fun m hm ↦ ?_)
      (fun {p m rest} hm hp ↦ ?_) fun {p count bytes} hp hlimit herr ↦ ?_
    · obtain ⟨es, hes, hentry, hentries, hsize⟩ := hlists hm
      rw [hentries, hsize]
      exact K.length_le_flatMap_keyed V hes.ascending hentry
    · obtain ⟨es, hes, hentry, hentries, hsize⟩ := hlists hm
      rw [hentries] at hp ⊢
      rw [hsize, K.unmarshalEntries_raw V hentry ⟨hes.ascending, by simp⟩ hp, hes.inserts_eq]
    · obtain ⟨es, rest, hlength, hentry, hclimbs, hbytes⟩ :=
        K.unmarshalEntries_canonical V hp hlimit herr
      have hes := K.lists_inserts hclimbs.1
      have hkeys : ∀ e ∈ es, K.Key e.1 := fun e he ↦ (hentry e he).1
      refine ⟨inserts ∅ es, rest, (hes.size_eq hkeys).trans hlength, fun e he ↦ ?_, ?_⟩
      · exact hentry e ((hes.mem_toList_iff e).mp he)
      · rw [hes.entries_eq hkeys, hbytes]

end Read

end Avalanche.Codec.Layout
