import Avalanche.Chains.SharedMemory
import Avalanche.Codec.Packer
import Avalanche.Database.PlainMap

/-!
# Reading shared memory by traits

`indexed` goes through the index rows of one trait after the other and collects the values of the
elements they name, up to a limit. A row is its namespace, the trait and the key of an element. The
cursor of the page before is of no use to it: the trait is not looked at, and the key is compared
with whole rows, which start with the namespace.

A page is the beginning of a list of hits, in which an element stands once for each of its traits
that is asked for (`pages_spec`). After the first page the same one comes again, or an empty one. So
paging is complete exactly if every element has a hit on the first page, and no page holds an
element twice exactly if the first one does not (`paginates_iff`).
-/

namespace Avalanche.Chains

open Std
open Codec (Reader)
open Database (MemDb)

inductive IndexedError
  | database (err : Database.Error)
  | other (msg : String)

def unpackTraits : ℕ → Reader → List Bytes × Reader
  | 0, p => ([], p)
  | n + 1, p =>
    let (t, p) := p.unpackBytes
    let (traits, p) := unpackTraits n p
    (t :: traits, p)

def decodeDbElement (raw : Bytes) : Except IndexedError DbElement :=
  let (version, p) := Reader.unpackU16 ⟨raw, 0, none⟩
  if version ≠ 0 then .error (.other s!"unexpected atomic codec version {version}")
  else
    let (present, p) := p.unpackBool
    let (value, p) := p.unpackBytes
    let (count, p) := p.unpackU32
    let (traits, p) := unpackTraits count.toNat p
    if p.err.isSome then .error (.other "malformed atomic dbElement")
    else .ok ⟨present, value, traits⟩

structure Page where
  values : List Bytes := []
  lastTrait : Bytes := []
  lastKey : Bytes := []
  /-- The keys of the values, which the source does not return. -/
  keys : List Bytes := []

/-- A database, and the namespaces of what a chain receives from a peer. -/
structure View where
  db : MemDb
  indexNs : Bytes
  valueNs : Bytes

namespace View

variable (v : View)

def element (key : Bytes) : Except IndexedError DbElement := do
  decodeDbElement (← (v.db.get (v.valueNs ++ key)).mapError .database)

/-- The keys in the rows of a trait that the iterator of the database gives. -/
def keys (startKey t : Bytes) : List Bytes :=
  let traitPrefix := v.indexNs ++ indexKey t []
  ((v.db.snapshot startKey traitPrefix).toOption.getD []).map (·.1.drop traitPrefix.length)

/-- The loop over the rows of a trait, and whether it breaks off the loop over the traits. -/
def collect (t : Bytes) (limit : ℕ) : List Bytes → Page → Except IndexedError (Bool × Page)
  | [], page => .ok (false, page)
  | key :: keys, page =>
    if page.values.length ≥ limit then .ok (true, page)
    else do
      let elem ← v.element key
      collect t limit keys <|
        if elem.present then ⟨page.values ++ [elem.value], t, key, page.keys ++ [key]⟩ else page

def indexedLoop (startKey : Bytes) (limit : ℕ) : List Bytes → Page → Except IndexedError Page
  | [], page => .ok page
  | t :: traits, page => do
    let (full, page) ← v.collect t limit (v.keys startKey t) page
    if full then return page
    indexedLoop startKey limit traits page

def indexed (traits : List Bytes) (_startTrait startKey : Bytes) (limit : ℕ) :
    Except IndexedError Page := v.indexedLoop startKey limit traits {}

/-- The pages, each asked for with the last trait and key of the one before. -/
def pages (traits : List Bytes) (limit : ℕ) : ℕ → Except IndexedError Page
  | 0 => v.indexed traits [] [] limit
  | k + 1 => do
    let page ← pages traits limit k
    v.indexed traits page.lastTrait page.lastKey limit

/-- The keys of a page. -/
def pageKeys (traits : List Bytes) (limit k : ℕ) : List Bytes :=
  (v.pages traits limit k).toOption.elim [] Page.keys

/-- The keys of the pages before a page. -/
def returned (traits : List Bytes) (limit k : ℕ) : List Bytes :=
  (List.range k).flatMap (v.pageKeys traits limit)

/-- The element is present and has one of the traits. -/
def Wanted (traits : List Bytes) (key : Bytes) : Prop :=
  ∃ elem, v.element key = .ok elem ∧ elem.present = true ∧ ∃ t ∈ traits, t ∈ elem.traits

/-- Paging comes to a page with nothing new, everything wanted has been returned before such a page,
and no page holds an element twice. -/
structure Paginates (traits : List Bytes) (limit : ℕ) : Prop where
  ok : ∀ k, ∃ page, v.pages traits limit k = .ok page
  ends : ∃ k, v.pageKeys traits limit k ⊆ v.returned traits limit k
  complete : ∀ k, v.pageKeys traits limit k ⊆ v.returned traits limit k →
    ∀ key, v.Wanted traits key → key ∈ v.returned traits limit k
  nodup : ∀ k, (v.pageKeys traits limit k).Nodup

/-! ### Hits -/

def value (key : Bytes) : Bytes := (v.element key).toOption.elim [] (·.value)

/-- The keys that the traits lead to, in the order of the loops. -/
def hits (startKey : Bytes) (traits : List Bytes) : List Bytes := traits.flatMap (v.keys startKey)

/-- The index has a row for each trait of each present element, and no others. -/
structure Sound (v : View) (map : ExtTreeMap Bytes Bytes) : Prop where
  db_eq : v.db = ⟨some map⟩
  row_iff : ∀ t key, v.indexNs ++ indexKey t key ∈ map ↔
    ∃ elem, v.element key = .ok elem ∧ elem.present = true ∧ t ∈ elem.traits

/-- The values and the last key of a page are those of its keys. -/
structure Keyed (v : View) (page : Page) : Prop where
  values : page.values = page.keys.map v.value
  lastKey : page.lastKey = page.keys.getLastD []

variable {v} {map : ExtTreeMap Bytes Bytes} {t startKey key : Bytes} {traits : List Bytes}
  {limit : ℕ}

theorem collect_spec {keys : List Bytes} (hkeys : ∀ key ∈ keys, ∃ elem, v.element key = .ok elem ∧
    elem.present = true) {page : Page} (hpage : v.Keyed page) :
    ∃ full page', v.collect t limit keys page = .ok (full, page') ∧ v.Keyed page' ∧
      page'.keys = page.keys ++ keys.take (limit - page.keys.length) ∧
      (full = true → limit ≤ page'.keys.length) := by
  induction keys generalizing page with
  | nil => exact ⟨false, page, rfl, hpage, by simp, nofun⟩
  | cons key keys ih =>
    obtain ⟨⟨elem, helem, hpresent⟩, hkeys⟩ := List.forall_mem_cons.mp hkeys
    have hlength : page.values.length = page.keys.length := by rw [hpage.values, List.length_map]
    rw [collect, hlength]
    by_cases hfull : page.keys.length ≥ limit
    · exact ⟨true, page, if_pos hfull, hpage, by simp [Nat.sub_eq_zero_of_le hfull], fun _ ↦ hfull⟩
    · have hvalue : v.value key = elem.value := by rw [value, helem]; rfl
      have hnext : v.Keyed ⟨page.values ++ [elem.value], t, key, page.keys ++ [key]⟩ :=
        ⟨by simp [hpage.values, hvalue], by simp⟩
      obtain ⟨full, page', hcollect, hpage', hkeys', hlimit⟩ := ih hkeys hnext
      refine ⟨full, page', ?_, hpage', ?_, hlimit⟩
      · rw [if_neg hfull, helem]
        simpa [bind, Except.bind, hpresent] using hcollect
      · have hsub : limit - page.keys.length = limit - (page.keys.length + 1) + 1 := by omega
        rw [hkeys', hsub, List.take_succ_cons]
        simp

theorem indexedLoop_spec (hkeys : ∀ key ∈ v.hits startKey traits, ∃ elem, v.element key = .ok elem ∧
    elem.present = true) {page : Page} (hpage : v.Keyed page) :
    ∃ page', v.indexedLoop startKey limit traits page = .ok page' ∧ v.Keyed page' ∧
      page'.keys = page.keys ++ (v.hits startKey traits).take (limit - page.keys.length) := by
  induction traits generalizing page with
  | nil => exact ⟨page, rfl, hpage, by simp [hits]⟩
  | cons t traits ih =>
    obtain ⟨htrait, hkeys⟩ : _ ∧ _ := List.forall_mem_append.mp hkeys
    obtain ⟨full, page', hcollect, hpage', hkeys', hlimit⟩ := collect_spec htrait hpage
    have hlength := congrArg List.length hkeys'
    rw [List.length_append, List.length_take] at hlength
    obtain ⟨page'', hloop, hpage'', hkeys''⟩ := ih hkeys hpage'
    rw [indexedLoop, hcollect, hits, List.flatMap_cons, List.take_append, ← hits,
      ← List.append_assoc, ← hkeys', show limit - page.keys.length - (v.keys startKey t).length
        = limit - page'.keys.length by omega]
    rcases full with - | -
    · exact ⟨page'', hloop, hpage'', hkeys''⟩
    · -- the page is full, and nothing more is taken
      exact ⟨page', rfl, hpage', by simp [Nat.sub_eq_zero_of_le (hlimit rfl)]⟩

/-- The rows of a namespace compare alike with what does not start with it. -/
theorem compare_append_of_not_prefix {ns c : Bytes} (h : ¬ns <+: c) (x y : Bytes) :
    compare (ns ++ x) c = compare (ns ++ y) c := by
  induction ns generalizing c with
  | nil => exact absurd List.nil_prefix h
  | cons a ns ih =>
    rcases c with - | ⟨b, c⟩
    · exact (show compare (a :: (ns ++ x)) [] = .gt from List.compareLex_cons_nil).trans
        (show compare (a :: (ns ++ y)) [] = .gt from List.compareLex_cons_nil).symm
    · rw [List.cons_append, List.cons_append, Database.compare_cons, Database.compare_cons]
      rcases hab : compare a b with - | -
      · rfl
      · obtain rfl := LawfulEqOrd.compare_eq_iff_eq.mp hab
        exact ih fun hc ↦ h (List.prefix_cons_inj a |>.mpr hc)
      · rfl

variable (v t) in
theorem row_injective : Function.Injective (v.indexNs ++ indexKey t ·) := fun a b hab ↦ by
  simpa [indexKey] using hab

theorem compare_nil_ne (row : Bytes) : compare row [] ≠ .lt := by
  rcases row with - | ⟨b, row⟩
  · decide
  · rw [show compare (b :: row) [] = .gt from List.compareLex_cons_nil]
    decide

namespace Sound

variable (h : v.Sound map)
include h

/-- The keys are those of the rows of a trait. -/
theorem map_row_keys : (v.keys startKey t).map (v.indexNs ++ indexKey t ·) =
    map.keys.filter (MemDb.inRange startKey (v.indexNs ++ indexKey t [])) := by
  rw [keys, h.db_eq, MemDb.snapshot_eq, ← ExtTreeMap.map_fst_toList_eq_keys, List.filter_map]
  refine List.map_map.trans (List.map_congr_left fun p hp ↦ ?_)
  have hrange := (List.mem_filter.mp hp).2
  rw [MemDb.inRange, Bool.and_eq_true, List.isPrefixOf_iff_prefix] at hrange
  obtain ⟨key, hkey⟩ := hrange.1
  rw [Function.comp_apply, ← hkey, List.drop_left]
  simp [indexKey]

theorem mem_keys_iff : key ∈ v.keys startKey t ↔
    v.indexNs ++ indexKey t key ∈ map ∧ compare (v.indexNs ++ indexKey t key) startKey ≠ .lt := by
  rw [← List.mem_map_of_injective (row_injective v t), h.map_row_keys, List.mem_filter]
  simp [MemDb.inRange, indexKey]

theorem nodup_keys : (v.keys startKey t).Nodup := by
  refine .of_map (v.indexNs ++ indexKey t ·) ?_
  rw [h.map_row_keys]
  exact map.nodup_keys.filter _

theorem of_mem_hits (hkey : key ∈ v.hits startKey traits) : v.Wanted traits key := by
  obtain ⟨t, ht, hkey⟩ := List.mem_flatMap.mp hkey
  obtain ⟨elem, helem, hpresent, hmem⟩ := (h.row_iff t key).mp (h.mem_keys_iff.mp hkey).1
  exact ⟨elem, helem, hpresent, t, ht, hmem⟩

theorem mem_hits_iff : key ∈ v.hits [] traits ↔ v.Wanted traits key :=
  ⟨h.of_mem_hits, fun ⟨elem, helem, hpresent, t, ht, hmem⟩ ↦ List.mem_flatMap.mpr
    ⟨t, ht, h.mem_keys_iff.mpr ⟨(h.row_iff t key).mpr ⟨elem, helem, hpresent, hmem⟩,
      compare_nil_ne _⟩⟩⟩

/-- A page holds the first hits. -/
theorem indexed_spec (startKey : Bytes) (traits : List Bytes) (limit : ℕ) (startTrait : Bytes) :
    ∃ page, v.indexed traits startTrait startKey limit = .ok page ∧ v.Keyed page ∧
      page.keys = (v.hits startKey traits).take limit :=
  indexedLoop_spec (fun _ hkey ↦ (h.of_mem_hits hkey).imp fun _ helem ↦ ⟨helem.1, helem.2.1⟩)
    ⟨rfl, rfl⟩

/-- A cursor outside of the namespace is before all rows or after all of them. -/
theorem hits_of_not_prefix {c : Bytes} (hc : ¬v.indexNs <+: c) (traits : List Bytes) :
    v.hits c traits = v.hits [] traits ∨ v.hits c traits = [] := by
  have hrow {t row : Bytes} (hrange : (v.indexNs ++ indexKey t []).isPrefixOf row = true) :
      compare row c = compare (v.indexNs ++ []) c := by
    obtain ⟨key, rfl⟩ := List.isPrefixOf_iff_prefix.mp hrange
    rw [List.append_assoc]
    exact compare_append_of_not_prefix hc _ _
  by_cases hlt : compare (v.indexNs ++ []) c = .lt
  · refine .inr (List.flatMap_eq_nil_iff.mpr fun t _ ↦ (row_injective v t).list_map ?_)
    rw [h.map_row_keys, List.map_nil, List.filter_eq_nil_iff]
    intro row _ hrange
    rw [MemDb.inRange, Bool.and_eq_true, decide_eq_true_eq] at hrange
    exact hrange.2 ((hrow hrange.1).trans hlt)
  · refine .inl (congrArg (traits.flatMap ·) (funext fun t ↦ (row_injective v t).list_map ?_))
    rw [h.map_row_keys, h.map_row_keys]
    refine List.filter_congr fun row _ ↦ ?_
    rw [Bool.eq_iff_iff, MemDb.inRange, MemDb.inRange, Bool.and_eq_true, Bool.and_eq_true,
      decide_eq_true_eq, decide_eq_true_eq]
    exact and_congr_right fun hrange ↦ iff_of_true (hrow hrange ▸ hlt) (compare_nil_ne row)

/-- Every page holds the first hits, or nothing. -/
theorem pages_spec (hns : ∀ key ∈ v.hits [] traits, ¬v.indexNs <+: key) (limit k : ℕ) :
    ∃ page, v.pages traits limit k = .ok page ∧ v.Keyed page ∧
      (page.keys = (v.hits [] traits).take limit ∨ k ≠ 0 ∧ page.keys = []) := by
  induction k with
  | zero =>
    obtain ⟨page, hpage, hkeyed, hkeys⟩ := h.indexed_spec [] traits limit []
    exact ⟨page, hpage, hkeyed, .inl hkeys⟩
  | succ k ih =>
    obtain ⟨page, hpage, hkeyed, hkeys⟩ := ih
    obtain ⟨next, hnext, hkeyed', hkeys'⟩ :=
      h.indexed_spec page.lastKey traits limit page.lastTrait
    refine ⟨next, by rw [pages, hpage]; exact hnext, hkeyed', ?_⟩
    have hcursor : page.lastKey = [] ∨ page.lastKey ∈ v.hits [] traits := by
      rw [hkeyed.lastKey]
      rcases hlast : page.keys.getLast? with - | key
      · left
        simp [List.getLastD_eq_getLast?, hlast]
      · right
        have hmem := List.mem_of_getLast? hlast
        rcases hkeys with hkeys | ⟨-, hkeys⟩
        · rw [List.getLastD_eq_getLast?, hlast]
          exact List.mem_of_mem_take (hkeys ▸ hmem)
        · rw [hkeys] at hmem
          cases hmem
    rw [hkeys']
    rcases hcursor with hnil | hmem
    · exact .inl (by rw [hnil])
    · rcases h.hits_of_not_prefix (hns _ hmem) traits with hall | hnone
      · exact .inl (by rw [hall])
      · exact .inr ⟨Nat.succ_ne_zero k, by rw [hnone, List.take_nil]⟩

theorem pageKeys_spec (hns : ∀ key ∈ v.hits [] traits, ¬v.indexNs <+: key) (limit k : ℕ) :
    v.pageKeys traits limit k = (v.hits [] traits).take limit ∨
      k ≠ 0 ∧ v.pageKeys traits limit k = [] := by
  obtain ⟨page, hpage, -, hkeys⟩ := h.pages_spec hns limit k
  rwa [pageKeys, hpage]

/-- **When paging is complete.** If no key of an element starts with the namespace of the index:
paging returns everything and nothing twice on one page exactly if the hits on the first page are
all the elements, each once. -/
theorem paginates_iff (hns : ∀ key ∈ v.hits [] traits, ¬v.indexNs <+: key) :
    v.Paginates traits limit ↔ ((v.hits [] traits).take limit).Nodup ∧
      v.hits [] traits ⊆ (v.hits [] traits).take limit := by
  have hpages := h.pageKeys_spec hns limit
  have hfirst : v.pageKeys traits limit 0 = (v.hits [] traits).take limit :=
    (hpages 0).resolve_right fun hnot ↦ hnot.1 rfl
  have hone : v.returned traits limit 1 = (v.hits [] traits).take limit := by
    simp [returned, hfirst]
  have hends : v.pageKeys traits limit 1 ⊆ v.returned traits limit 1 := by
    rw [hone]
    rcases hpages 1 with hpage | ⟨-, hpage⟩ <;> simp [hpage]
  constructor
  · intro hall
    refine ⟨hfirst ▸ hall.nodup 0, fun key hkey ↦ ?_⟩
    exact hone ▸ hall.complete 1 hends key (h.mem_hits_iff.mp hkey)
  · rintro ⟨hnodup, hall⟩
    refine ⟨fun k ↦ (h.pages_spec hns limit k).imp fun _ hpage ↦ hpage.1, ⟨1, hends⟩,
      fun k hnew key hkey ↦ ?_, fun k ↦ ?_⟩
    · have hkey' := hall (h.mem_hits_iff.mpr hkey)
      rcases k with - | k
      · exact hnew (hfirst ▸ hkey')
      · exact List.mem_flatMap.mpr ⟨0, by simp, hfirst ▸ hkey'⟩
    · rcases hpages k with hpage | ⟨-, hpage⟩ <;> simp [hpage, hnodup]

end Sound

/-- An element with the traits `[1]` and `[2]`, and one with the given trait. -/
def pair (t : UInt8) : ExtTreeMap Bytes Bytes :=
  .ofList ([([9] ++ indexKey [1] [0], []), ([9] ++ indexKey [2] [0], []),
    ([9] ++ indexKey [t] [5], []),
    ([8, 0], [0, 0, 1, 0, 0, 0, 1, 70, 0, 0, 0, 2, 0, 0, 0, 1, 1, 0, 0, 0, 1, 2]),
    ([8, 5], [0, 0, 1, 0, 0, 0, 1, 75, 0, 0, 0, 1, 0, 0, 0, 1, t])] : List (Bytes × Bytes))

theorem sound_pair : Sound ⟨⟨some (pair 1)⟩, [9], [8]⟩ (pair 1) := by
  have hrows : ∀ row, row ∈ pair 1 ↔ row = [9] ++ indexKey [1] [0] ∨
      row = [9] ++ indexKey [2] [0] ∨ row = [9] ++ indexKey [1] [5] ∨ row = [8, 0] ∨
        row = [8, 5] := fun row ↦ by
    simp [pair, ExtTreeMap.mem_ofList]
  have hfirst : element ⟨⟨some (pair 1)⟩, [9], [8]⟩ [0] = .ok ⟨true, [70], [[1], [2]]⟩ := by rfl
  have hsecond : element ⟨⟨some (pair 1)⟩, [9], [8]⟩ [5] = .ok ⟨true, [75], [[1]]⟩ := by rfl
  refine ⟨rfl, fun t key ↦ ?_⟩
  have hinj {t₀ key₀ : Bytes} (hlength : t₀.length + key₀.length = 2)
      (heq : [9] ++ indexKey t key = [9] ++ indexKey t₀ key₀) : t = t₀ ∧ key = key₀ := by
    have heq := List.append_cancel_left heq
    have hsame := congrArg List.length heq
    simp only [indexKey, List.length_append, Wire.length_be] at hsame
    exact indexKey_inj (by omega) (by omega) heq
  constructor
  · intro hrow
    rcases (hrows _).mp hrow with heq | heq | heq | heq | heq
    · obtain ⟨rfl, rfl⟩ := hinj rfl heq
      exact ⟨_, hfirst, rfl, by simp⟩
    · obtain ⟨rfl, rfl⟩ := hinj rfl heq
      exact ⟨_, hfirst, rfl, by simp⟩
    · obtain ⟨rfl, rfl⟩ := hinj rfl heq
      exact ⟨_, hsecond, rfl, by simp⟩
    all_goals simp at heq
  · rintro ⟨elem, helem, -, hmem⟩
    have hkey : key = [0] ∨ key = [5] := by
      by_contra hnot
      have hnone : (pair 1)[8 :: key]? = none := by simpa [hrows] using hnot
      simp [element, MemDb.get, hnone, Except.mapError, bind, Except.bind] at helem
    rw [hrows]
    rcases hkey with rfl | rfl
    · obtain rfl := Except.ok.inj (hfirst.symm.trans helem)
      rcases List.mem_pair.mp hmem with rfl | rfl <;> simp
    · obtain rfl := Except.ok.inj (hsecond.symm.trans helem)
      obtain rfl := List.mem_singleton.mp hmem
      simp

/-- The first two hits are the two elements, and the third is the first element again. -/
theorem paginates_iff_pair : Paginates ⟨⟨some (pair 1)⟩, [9], [8]⟩ [[1], [2]] 2 :=
  (sound_pair.paginates_iff (by decide +kernel)).mpr (by decide +kernel)

/-- A page of two holds the first element twice, and the page after it is the same. -/
theorem pair_page :
    let v : View := ⟨⟨some (pair 2)⟩, [9], [8]⟩
    (v.indexed [[1], [2]] [] [] 2).toOption.map (fun p ↦ (p.values, p.lastTrait, p.lastKey))
        = some ([[70], [70]], [2], [0]) ∧
      (v.indexed [[1], [2]] [2] [0] 2).toOption.map (·.values) = some [[70], [70]] ∧
      (v.element [5]).toOption.map (fun e ↦ (e.present, e.traits)) = some (true, [[2]]) := by
  decide +kernel

end View
end Avalanche.Chains
