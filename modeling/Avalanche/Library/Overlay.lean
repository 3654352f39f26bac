import Avalanche.Library.TreeMap

/-!
# Edits laid over an ordered map

An edit writes a value under a key, or deletes the key. A list of edits is applied to a map from the
front; when no key comes twice in it, the order of the edits does not matter.

`Merged` is the specification of a walk along sorted edits and sorted entries at the same time: what
is still to be shown, given what is left of either.
-/

open Std

namespace Overlay

variable {κ β : Type} [Ord κ] [TransOrd κ]

/-! ### Edits -/

/-- An edit of a key, a deletion if there is no value. -/
abbrev Edit (κ β : Type) := κ × Option β

/-- One edit of a map. -/
def edit (m : ExtTreeMap κ β) (e : Edit κ β) : ExtTreeMap κ β :=
  e.2.elim (m.erase e.1) (m.insert e.1)

/-- A list of edits, the first one first. -/
def edits (m : ExtTreeMap κ β) (l : List (Edit κ β)) : ExtTreeMap κ β := l.foldl edit m

@[simp] theorem edits_cons (m : ExtTreeMap κ β) (e : Edit κ β) (l : List (Edit κ β)) :
    edits m (e :: l) = edits (edit m e) l := rfl

/-- No key is edited twice. -/
def DistinctKeys (l : List (Edit κ β)) : Prop := l.Pairwise fun e e' ↦ e.1 ≠ e'.1

section Lookup

variable [LawfulEqOrd κ] [DecidableEq κ] {l : List (Edit κ β)} {k : κ}

theorem getElem?_edit (m : ExtTreeMap κ β) (e : Edit κ β) (k : κ) :
    (edit m e)[k]? = if e.1 = k then e.2 else m[k]? := by
  obtain ⟨k', - | v⟩ := e
  · exact TreeMap.getElem?_erase_eq m k' k
  · exact TreeMap.getElem?_insert_eq m k' v k

theorem getElem?_edits_of_forall_ne (hl : ∀ e ∈ l, e.1 ≠ k) (m : ExtTreeMap κ β) :
    (edits m l)[k]? = m[k]? := by
  induction l generalizing m with
  | nil => rfl
  | cons e l ih =>
    rw [List.forall_mem_cons] at hl
    rw [edits_cons, ih hl.2, getElem?_edit, if_neg hl.1]

theorem getElem?_edits_of_mem (hl : DistinctKeys l) {o : Option β} (ho : (k, o) ∈ l)
    (m : ExtTreeMap κ β) : (edits m l)[k]? = o := by
  induction l generalizing m with
  | nil => exact absurd ho List.not_mem_nil
  | cons e l ih =>
    rw [DistinctKeys, List.pairwise_cons] at hl
    rw [edits_cons]
    rcases List.mem_cons.mp ho with rfl | ho
    · rw [getElem?_edits_of_forall_ne fun e' he' ↦ (hl.1 e' he').symm, getElem?_edit, if_pos rfl]
    · exact ih hl.2 ho _

/-- What is found is a value of the edits, or one of the map that no edit is about. -/
theorem getElem?_edits_eq_some_iff (hl : DistinctKeys l) {m : ExtTreeMap κ β} {v : β} :
    (edits m l)[k]? = some v ↔ (k, some v) ∈ l ∨ m[k]? = some v ∧ ∀ o, (k, o) ∉ l := by
  by_cases hk : ∃ o, (k, o) ∈ l
  · obtain ⟨o, ho⟩ := hk
    rw [getElem?_edits_of_mem hl ho]
    constructor
    · rintro rfl
      exact .inl ho
    · rintro (hv | ⟨-, hnone⟩)
      · rw [← getElem?_edits_of_mem hl ho m, getElem?_edits_of_mem hl hv]
      · exact absurd ho (hnone o)
  · push Not at hk
    rw [getElem?_edits_of_forall_ne fun e he heq ↦ hk e.2 (heq ▸ he)]
    exact ⟨fun h ↦ .inr ⟨h, hk⟩, fun h ↦ h.elim (fun h ↦ absurd h (hk _)) (·.1)⟩

/-- The order of the edits does not matter. -/
theorem edits_perm {l' : List (Edit κ β)} (hl : DistinctKeys l) (hperm : l.Perm l')
    (m : ExtTreeMap κ β) : edits m l' = edits m l := by
  have hl' : DistinctKeys l' := hperm.pairwise hl fun h ↦ h.symm
  refine ExtTreeMap.ext_getElem? fun k ↦ Option.ext fun v ↦ ?_
  rw [getElem?_edits_eq_some_iff hl', getElem?_edits_eq_some_iff hl]
  simp only [hperm.mem_iff]

end Lookup

/-! ### Sorted entries -/

section Ascending

variable {γ : Type}
variable {l : List (κ × γ)}

/-- Entries in the order of their keys, with no key twice. -/
def Ascending (l : List (κ × γ)) : Prop := l.Pairwise fun p q ↦ compare p.1 q.1 = .lt

theorem ascending_toList (m : ExtTreeMap κ γ) : Ascending m.toList := ExtTreeMap.ordered_keys_toList

/-- Sorting puts entries with different keys in order. -/
theorem ascending_mergeSort [LawfulEqOrd κ] (hl : l.Pairwise fun p q ↦ p.1 ≠ q.1) :
    Ascending (l.mergeSort fun p q ↦ (compare p.1 q.1).isLE) := by
  have htotal (p q : κ × γ) : (compare p.1 q.1).isLE || (compare q.1 p.1).isLE := by
    rw [OrientedOrd.eq_swap (a := q.1)]
    cases compare p.1 q.1 <;> rfl
  have hsorted := List.pairwise_mergeSort (fun _ _ _ ↦ TransCmp.isLE_trans) htotal l
  refine (hsorted.and ((List.mergeSort_perm l _).symm.pairwise hl fun h ↦ h.symm)).imp
    fun {p q} ⟨hle, hne⟩ ↦ ?_
  rcases hcmp : compare p.1 q.1 with - | - | -
  · rfl
  · exact absurd (LawfulEqOrd.compare_eq_iff_eq.mp hcmp) hne
  · rw [hcmp] at hle
    cases hle

/-- The key of a pair lies below all those of a list. -/
def Below (k : κ) (l : List (κ × γ)) : Prop := ∀ p ∈ l, compare k p.1 = .lt

omit [TransOrd κ] in
theorem ascending_cons {p : κ × γ} :
    Ascending (p :: l) ↔ Below p.1 l ∧ Ascending l := List.pairwise_cons

theorem Below.cons {k k' : κ} {v : γ} (h : compare k k' = .lt)
    (hl : Ascending ((k', v) :: l)) : Below k ((k', v) :: l) := by
  intro p hp
  rcases List.mem_cons.mp hp with rfl | hp
  · exact h
  · exact TransCmp.lt_trans h ((ascending_cons.mp hl).1 p hp)

theorem Below.ne {k : κ} (h : Below k l) {p : κ × γ} (hp : p ∈ l) :
    p.1 ≠ k := by
  rintro rfl
  exact absurd (h p hp) (by rw [ReflOrd.compare_self]; decide)

omit [TransOrd κ] in
theorem eq_of_not_lt [OrientedOrd κ] [LawfulEqOrd κ] {k k' : κ} (h : compare k k' ≠ .lt)
    (h' : compare k' k ≠ .lt) : k = k' := by
  rcases hcmp : compare k k' with - | - | -
  · exact absurd hcmp h
  · exact LawfulEqOrd.compare_eq_iff_eq.mp hcmp
  · exact absurd (OrientedCmp.lt_of_gt hcmp) h'

/-- The entries determine the list. -/
theorem Ascending.eq_of_mem_iff {l l' : List (κ × γ)} (h : Ascending l) (h' : Ascending l')
    (hmem : ∀ p, p ∈ l ↔ p ∈ l') : l = l' := by
  have hasymm : ∀ p q : κ × γ, compare p.1 q.1 = .lt → compare q.1 p.1 = .lt → p = q :=
    fun p q hpq hqp ↦ absurd hqp (by rw [OrientedCmp.gt_of_lt hpq]; decide)
  have : Std.Antisymm fun p q : κ × γ ↦ compare p.1 q.1 = .lt := ⟨hasymm⟩
  have : Std.Irrefl fun p q : κ × γ ↦ compare p.1 q.1 = .lt :=
    ⟨fun p ↦ by rw [ReflOrd.compare_self]; decide⟩
  exact List.Pairwise.eq_of_mem_iff h h' hmem

/-- An initial part of a list consists of the entries up to its last key. -/
theorem Ascending.mem_initial_iff {l l' : List (κ × γ)} (h : Ascending l) (hinitial : l' <+: l)
    {p q : κ × γ} (hlast : l'.getLast? = some q) :
    p ∈ l' ↔ p ∈ l ∧ compare p.1 q.1 ≠ .gt := by
  obtain ⟨front, rfl⟩ := List.getLast?_eq_some_iff.mp hlast
  obtain ⟨back, rfl⟩ := hinitial
  obtain ⟨hfront, -, hback⟩ := List.pairwise_append.mp h
  constructor
  · intro hp
    refine ⟨List.mem_append_left back hp, ?_⟩
    rcases List.mem_append.mp hp with hp | hp
    · rw [(List.pairwise_append.mp hfront).2.2 p hp q (List.mem_singleton_self q)]
      decide
    · rw [List.mem_singleton.mp hp, ReflOrd.compare_self]
      decide
  · rintro ⟨hp, hle⟩
    rcases List.mem_append.mp hp with hp | hp
    · exact hp
    · have hlt := hback q (List.mem_append_right front (List.mem_singleton_self q)) p hp
      exact absurd (OrientedCmp.gt_of_lt hlt) hle

/-- An entry with the least key comes first. -/
theorem Ascending.eq_cons (hl : Ascending l) {p : κ × γ} (hp : p ∈ l)
    (hmin : ∀ q ∈ l, q = p ∨ compare p.1 q.1 = .lt) : ∃ l', l = p :: l' := by
  obtain - | ⟨q, l⟩ := l
  · exact absurd hp List.not_mem_nil
  · rcases List.mem_cons.mp hp with rfl | hp
    · exact ⟨l, rfl⟩
    · have hqp := (ascending_cons.mp hl).1 p hp
      rcases hmin q List.mem_cons_self with rfl | hpq
      · exact ⟨l, rfl⟩
      · exact absurd hpq (by rw [OrientedCmp.gt_of_lt hqp]; decide)

end Ascending

/-! ### The walk -/

/-- `out` is what edits show that lie over entries. -/
structure Merged (es : List (Edit κ β)) (bs out : List (κ × β)) : Prop where
  edits_ascending : Ascending es
  base_ascending : Ascending bs
  out_ascending : Ascending out
  mem_iff : ∀ k v, (k, v) ∈ out ↔ (k, some v) ∈ es ∨ (k, v) ∈ bs ∧ ∀ o, (k, o) ∉ es

omit [TransOrd κ] in
theorem Merged.nil {out : List (κ × β)} (h : Merged [] [] out) : out = [] := by
  rw [List.eq_nil_iff_forall_not_mem]
  rintro ⟨k, v⟩ hp
  simp [h.mem_iff] at hp

/-- The next key is one of the edits, of the entries, or of both. It is shown if the edit writes a
value, or if there is none. -/
theorem Merged.advance {k : κ} {e : Option (Option β)} {b : Option β} {es : List (Edit κ β)}
    {bs out : List (κ × β)}
    (h : Merged (e.toList.map (k, ·) ++ es) (b.toList.map (k, ·) ++ bs) out)
    (hes : Below k es) (hbs : Below k bs) :
    (e.getD b).elim (Merged es bs out) fun v ↦
      ∃ out', out = (k, v) :: out' ∧ Merged es bs out' := by
  have hes' : Ascending es := (List.pairwise_append.mp h.edits_ascending).2.1
  have hbs' : Ascending bs := (List.pairwise_append.mp h.base_ascending).2.1
  -- at the key itself the head decides, at every other key the tails do
  have hself : ∀ v, (k, v) ∈ out ↔ e.getD b = some v := by
    intro v
    have hes₀ : ∀ o, (k, o) ∉ es := fun o ho ↦ hes.ne ho rfl
    have hbs₀ : ∀ o, (k, o) ∉ bs := fun o ho ↦ hbs.ne ho rfl
    rw [h.mem_iff]
    rcases e with - | o <;> rcases b with - | b <;> simp [hes₀, hbs₀, eq_comm]
  have hother : ∀ k' v, k' ≠ k →
      ((k', v) ∈ out ↔ (k', some v) ∈ es ∨ (k', v) ∈ bs ∧ ∀ o, (k', o) ∉ es) := by
    intro k' v hne
    rw [h.mem_iff]
    simp [Ne.symm hne]
  have hrest : ∀ v, ¬((k, some v) ∈ es ∨ (k, v) ∈ bs ∧ ∀ o, (k, o) ∉ es) := by
    rintro v (hmem | ⟨hmem, -⟩)
    · exact hes.ne hmem rfl
    · exact hbs.ne hmem rfl
  rcases hshown : e.getD b with - | v
  · refine ⟨hes', hbs', h.out_ascending, fun k' v ↦ ?_⟩
    by_cases hk : k' = k
    · subst hk
      refine iff_of_false ?_ (hrest v)
      rw [hself, hshown]
      exact nofun
    · exact hother k' v hk
  · obtain ⟨out', rfl⟩ : ∃ out', out = (k, v) :: out' := by
      refine h.out_ascending.eq_cons ((hself v).mpr hshown) fun ⟨k', v'⟩ hq ↦ ?_
      by_cases hk : k' = k
      · subst hk
        rw [hself, hshown, Option.some_inj] at hq
        exact .inl (by rw [hq])
      · rcases (hother k' v' hk).mp hq with hq | ⟨hq, -⟩
        · exact .inr (hes _ hq)
        · exact .inr (hbs _ hq)
    obtain ⟨hbelow, hout⟩ := ascending_cons.mp h.out_ascending
    refine ⟨out', rfl, hes', hbs', hout, fun k' v' ↦ ?_⟩
    by_cases hk : k' = k
    · subst hk
      exact iff_of_false (fun hmem ↦ hbelow.ne hmem rfl) (hrest v')
    · rw [← hother k' v' hk, List.mem_cons, Prod.mk.injEq, or_iff_right fun h ↦ hk h.1]

end Overlay
