import Mathlib

/-!
# Finite maps that are replayed and summed

`foldl_toList` is the rule for a loop over the entries of a map that writes, for each entry, what is
observed at its key and nothing else. What is observed afterwards at a key depends on the entry
under that key alone, whatever the order of the loop. A map laid over another one is the case where
the observation is a lookup.

`sumOn f m` adds up a quantity over the entries. An insertion replaces the share of its key and an
erasure drops it.

`entryFrom` and `entryUpTo` find the entries next to a key.
-/

open Std

namespace TreeMap

/-- Pairs are ordered by their first components, and then by their second. -/
instance lawfulEqOrdLex {α β : Type} [Ord α] [Ord β] [LawfulEqOrd α] [LawfulEqOrd β] :
    LawfulEqOrd (α ×ₗ β) where
  compare_self {a} := by
    show (compare a.1 a.1).then (compare a.2 a.2) = .eq
    rw [ReflOrd.compare_self, ReflOrd.compare_self]
    rfl
  eq_of_compare {a b} h := by
    change (compare a.1 b.1).then (compare a.2 b.2) = .eq at h
    rw [Ordering.then_eq_eq, LawfulEqOrd.compare_eq_iff_eq, LawfulEqOrd.compare_eq_iff_eq] at h
    exact Prod.ext h.1 h.2

variable {α β : Type} [Ord α] [TransOrd α] [LawfulEqOrd α] {m : ExtTreeMap α β}

theorem getElem?_insert_eq [DecidableEq α] (m : ExtTreeMap α β) (k : α) (v : β) (k' : α) :
    (m.insert k v)[k']? = if k = k' then some v else m[k']? := by
  rw [ExtTreeMap.getElem?_insert]
  simp only [LawfulEqOrd.compare_eq_iff_eq]

theorem getElem?_erase_eq [DecidableEq α] (m : ExtTreeMap α β) (k k' : α) :
    (m.erase k)[k']? = if k = k' then none else m[k']? := by
  rw [ExtTreeMap.getElem?_erase]
  simp only [LawfulEqOrd.compare_eq_iff_eq]

theorem getElem?_insertIfNew_of_ne {k k' : α} (h : k ≠ k') (m : ExtTreeMap α β) (v : β) :
    (m.insertIfNew k v)[k']? = m[k']? := by
  rw [ExtTreeMap.getElem?_insertIfNew, if_neg]
  exact fun hand ↦ h (LawfulEqOrd.compare_eq_iff_eq.mp hand.1)

theorem isSome_getElem?_insertIfNew_self (m : ExtTreeMap α β) (k : α) (v : β) :
    ((m.insertIfNew k v)[k]?).isSome = true := by
  rw [ExtTreeMap.getElem?_insertIfNew]
  split
  next => rfl
  next hnot =>
    rw [not_and, not_not] at hnot
    exact ExtTreeMap.mem_iff_isSome_getElem?.mp (hnot ReflOrd.compare_self)

theorem pairwise_fst_toList (m : ExtTreeMap α β) :
    m.toList.Pairwise fun p q ↦ p.1 ≠ q.1 :=
  ExtTreeMap.distinct_keys_toList.imp fun h heq ↦ h (LawfulEqOrd.compare_eq_iff_eq.mpr heq)

theorem nodup_toList (m : ExtTreeMap α β) : m.toList.Nodup :=
  (pairwise_fst_toList m).imp fun h heq ↦ h (congrArg Prod.fst heq)

theorem not_mem_fst_of_none {k : α} (h : m[k]? = none) : ∀ p ∈ m.toList, p.1 ≠ k := by
  rintro ⟨k', v⟩ hp rfl
  rw [ExtTreeMap.mem_toList_iff_getElem?_eq_some, h] at hp
  exact Option.some_ne_none _ hp.symm

section Replay

variable {σ ω : Type} {step : σ → α × β → σ} (f : σ → α → ω) (u : β → ω → ω)

omit [Ord α] [TransOrd α] [LawfulEqOrd α] in
/-- A loop that never comes to a key does not change what is observed there. -/
theorem foldl_of_forall_ne (hother : ∀ s p k, p.1 ≠ k → f (step s p) k = f s k)
    {l : List (α × β)} {k : α} (hl : ∀ p ∈ l, p.1 ≠ k) (s : σ) :
    f (l.foldl step s) k = f s k := by
  induction l generalizing s with
  | nil => rfl
  | cons p l ih =>
    rw [List.foldl_cons, ih fun q hq ↦ hl q (List.mem_cons_of_mem p hq)]
    exact hother s p k (hl p List.mem_cons_self)

/-- What a loop over the entries leaves to be observed. -/
theorem foldl_toList [DecidableEq α]
    (hstep : ∀ s p k, f (step s p) k = if p.1 = k then u p.2 (f s k) else f s k)
    (m : ExtTreeMap α β) (s : σ) (k : α) :
    f (m.toList.foldl step s) k = (m[k]?).elim (f s k) (fun v ↦ u v (f s k)) := by
  have hother (s : σ) (p : α × β) (k : α) (hne : p.1 ≠ k) : f (step s p) k = f s k := by
    rw [hstep, if_neg hne]
  rcases hk : m[k]? with - | v
  · exact foldl_of_forall_ne f hother (not_mem_fst_of_none hk) s
  · -- the loop comes to the key once
    obtain ⟨l₁, l₂, hl⟩ :=
      List.append_of_mem (ExtTreeMap.mem_toList_iff_getElem?_eq_some.mpr hk)
    have hdistinct := pairwise_fst_toList m
    rw [hl, List.pairwise_append, List.pairwise_cons] at hdistinct
    obtain ⟨-, ⟨hafter, -⟩, hbefore⟩ := hdistinct
    rw [hl, List.foldl_append, List.foldl_cons,
      foldl_of_forall_ne f hother (fun p hp ↦ (hafter p hp).symm), hstep, if_pos rfl,
      foldl_of_forall_ne f hother fun p hp ↦ hbefore p hp _ List.mem_cons_self]
    rfl

end Replay

/-- One more entry. -/
def put (m : ExtTreeMap α β) (p : α × β) : ExtTreeMap α β := m.insert p.1 p.2

theorem getElem?_put [DecidableEq α] (m : ExtTreeMap α β) (p : α × β) (k : α) :
    (put m p)[k]? = if p.1 = k then some p.2 else m[k]? := getElem?_insert_eq m p.1 p.2 k

/-- Everything that is put into a map is there, under its key. -/
theorem isSome_foldl_put [DecidableEq α] {l : List (α × β)} {p : α × β} (hp : p ∈ l)
    (m : ExtTreeMap α β) : ((l.foldl put m)[p.1]?).isSome = true := by
  obtain ⟨l₁, l₂, rfl⟩ := List.append_of_mem hp
  rw [List.foldl_append, List.foldl_cons]
  refine List.foldlRecOn (motive := fun m ↦ (m[p.1]?).isSome = true) l₂ put ?_ fun m hm q _ ↦ ?_
  · rw [getElem?_put, if_pos rfl]
    rfl
  · rw [getElem?_put]
    split
    · rfl
    · exact hm

/-- A map with the entries of another one put into it. -/
theorem getElem?_foldl_put [DecidableEq α] (top base : ExtTreeMap α β) (k : α) :
    (top.toList.foldl put base)[k]? = top[k]?.or base[k]? := by
  have hfold := foldl_toList (fun (m : ExtTreeMap α β) (k : α) ↦ m[k]?) (fun v _ ↦ some v)
    getElem?_put top base k
  rw [hfold]
  rcases top[k]? with - | v <;> rfl

omit [LawfulEqOrd α] in
/-- The values are those of the entries, in order. -/
theorem values_eq (m : ExtTreeMap α β) : m.values = m.toList.map Prod.snd := by
  obtain ⟨m⟩ := m
  induction m using ExtDTreeMap.inductionOn with
  | _ t =>
    change t.inner.values = (DTreeMap.Internal.Impl.Const.toList t.inner).map Prod.snd
    rw [DTreeMap.Internal.Impl.values_eq_map_snd,
      DTreeMap.Internal.Impl.Const.toList_eq_toListModel_map, List.map_map]
    rfl

theorem mem_values {v : β} : v ∈ m.values ↔ ∃ k : α, m[k]? = some v := by
  simp [values_eq, ExtTreeMap.mem_toList_iff_getElem?_eq_some]

/-- What is found under a key of a list's members is one of them, or was there before. -/
theorem getElem?_foldl_insert_cases [DecidableEq α] {key : β → α} {l : List β}
    {m : ExtTreeMap α β} {k : α} {v : β}
    (h : (l.foldl (fun m v ↦ m.insert (key v) v) m)[k]? = some v) :
    (v ∈ l ∧ key v = k) ∨ m[k]? = some v := by
  induction l generalizing m with
  | nil => exact .inr h
  | cons w l ih =>
    obtain ⟨hv, hk⟩ | h := ih h
    · exact .inl ⟨List.mem_cons_of_mem w hv, hk⟩
    · rw [getElem?_insert_eq] at h
      split_ifs at h with hk
      · cases h
        exact .inl ⟨List.mem_cons_self, hk⟩
      · exact .inr h

/-- The members of a list under a key by which they can be looked up. -/
theorem getElem?_foldl_insert [DecidableEq α] (key : β → α) (look : α → Option β) {l : List β}
    (hl : ∀ v ∈ l, look (key v) = some v) (m : ExtTreeMap α β) (k : α) :
    (l.foldl (fun m v ↦ m.insert (key v) v) m)[k]? = look k ∨
      (∀ v ∈ l, key v ≠ k) ∧ (l.foldl (fun m v ↦ m.insert (key v) v) m)[k]? = m[k]? := by
  induction l generalizing m with
  | nil => exact .inr ⟨by simp, rfl⟩
  | cons w l ih =>
    rw [List.forall_mem_cons] at hl
    obtain h | ⟨hnone, h⟩ := ih hl.2 (m.insert (key w) w)
    · exact .inl h
    · rw [List.foldl_cons, h, getElem?_insert_eq]
      by_cases hw : key w = k
      · rw [if_pos hw, ← hw, hl.1]
        exact .inl rfl
      · rw [if_neg hw]
        exact .inr ⟨List.forall_mem_cons.mpr ⟨hw, hnone⟩, rfl⟩

section Part

variable {σ μ γ δ : Type} (get : σ → μ) (put : σ → μ → σ)

/-- A loop that reads and writes one part of a state. -/
theorem foldl_part (g : μ → γ → μ) (l : List γ) (s : σ)
    (hget : ∀ s m, get (put s m) = m := by intros; rfl)
    (hput : ∀ s m m', put (put s m) m' = put s m' := by intros; rfl)
    (hself : ∀ s, put s (get s) = s := by intros; rfl) :
    l.foldl (fun s a ↦ put s (g (get s) a)) s = put s (l.foldl g (get s)) := by
  induction l generalizing s with
  | nil => exact (hself s).symm
  | cons a l ih => rw [List.foldl_cons, ih, hget, hput, List.foldl_cons]

/-- The same for a loop over lists. -/
theorem foldl_foldl_part (g : μ → δ → γ → μ) (l : List (δ × List γ)) (s : σ)
    (hget : ∀ s m, get (put s m) = m := by intros; rfl)
    (hput : ∀ s m m', put (put s m) m' = put s m' := by intros; rfl)
    (hself : ∀ s, put s (get s) = s := by intros; rfl) :
    l.foldl (fun s p ↦ p.2.foldl (fun s c ↦ put s (g (get s) p.1 c)) s) s
      = put s (l.foldl (fun m p ↦ p.2.foldl (fun m c ↦ g m p.1 c) m) (get s)) := by
  have hstep (s : σ) (p : δ × List γ) :=
    foldl_part get put (fun m c ↦ g m p.1 c) p.2 s hget hput hself
  simp only [hstep]
  exact foldl_part get put (fun m p ↦ p.2.foldl (fun m c ↦ g m p.1 c) m) l s hget hput hself

end Part

/-! ## Sums over the entries -/

/-- The sum of `f` over the values. -/
def sumOn (f : β → ℕ) (m : ExtTreeMap α β) : ℕ := (m.toList.map fun p ↦ f p.2).sum

/-- The share of a key in a sum. -/
def share (f : β → ℕ) (m : ExtTreeMap α β) (k : α) : ℕ := (m[k]?).elim 0 f

variable [DecidableEq α] {k : α}

theorem sumOn_eq (f : β → ℕ) (m : ExtTreeMap α β) (k : α) :
    sumOn f m = share f m k + sumOn f (m.erase k) := by
  rcases hk : m[k]? with - | v
  · have hsame : m.erase k = m := ExtTreeMap.ext_getElem? fun k' ↦ by
      rw [getElem?_erase_eq]
      split
      next heq => rw [← heq, hk]
      next => rfl
    rw [share, hk, hsame, Option.elim_none, Nat.zero_add]
  · have hperm : m.toList.Perm ((k, v) :: (m.erase k).toList) := by
      have hnot : (k, v) ∉ (m.erase k).toList := by
        simp [ExtTreeMap.mem_toList_iff_getElem?_eq_some]
      rw [List.perm_ext_iff_of_nodup (nodup_toList m)
        (List.nodup_cons.mpr ⟨hnot, nodup_toList _⟩)]
      rintro ⟨k', v'⟩
      rw [List.mem_cons, ExtTreeMap.mem_toList_iff_getElem?_eq_some,
        ExtTreeMap.mem_toList_iff_getElem?_eq_some, getElem?_erase_eq, Prod.mk.injEq]
      by_cases hkk : k = k'
      · subst hkk
        simp [hk, eq_comm]
      · simp [hkk, Ne.symm hkk]
    rw [sumOn, (hperm.map _).sum_eq, List.map_cons, List.sum_cons, share, hk, Option.elim_some,
      sumOn]

/-- Two maps that agree but for one key. -/
theorem sumOn_add_share {m' : ExtTreeMap α β} (f : β → ℕ)
    (h : ∀ k', k' ≠ k → m'[k']? = m[k']?) :
    sumOn f m' + share f m k = sumOn f m + share f m' k := by
  have hsame : m'.erase k = m.erase k := ExtTreeMap.ext_getElem? fun k' ↦ by
    rw [getElem?_erase_eq, getElem?_erase_eq]
    split
    next => rfl
    next hne => exact h k' (Ne.symm hne)
  rw [sumOn_eq f m k, sumOn_eq f m' k, hsame]
  omega

theorem sumOn_insert (f : β → ℕ) (m : ExtTreeMap α β) (k : α) (v : β) :
    sumOn f (m.insert k v) + share f m k = sumOn f m + f v := by
  rw [sumOn_add_share f fun k' hne ↦ by rw [getElem?_insert_eq, if_neg hne.symm]]
  rw [share, getElem?_insert_eq, if_pos rfl, Option.elim_some]

/-- The sum over a map laid over another, where it hides nothing. -/
theorem sumOn_foldl_put (f : β → ℕ) {l : List (α × β)}
    (hl : l.Pairwise fun p q ↦ p.1 ≠ q.1) {base : ExtTreeMap α β}
    (h : ∀ p ∈ l, share f base p.1 = 0) :
    sumOn f (l.foldl put base) = sumOn f base + (l.map fun p ↦ f p.2).sum := by
  induction l generalizing base with
  | nil => rfl
  | cons p l ih =>
    rw [List.pairwise_cons] at hl
    have hrest : ∀ q ∈ l, share f (put base p) q.1 = 0 := fun q hq ↦ by
      rw [share, getElem?_put, if_neg (hl.1 q hq)]
      exact h q (List.mem_cons_of_mem p hq)
    have hput : sumOn f (put base p) + share f base p.1 = sumOn f base + f p.2 :=
      sumOn_insert f base p.1 p.2
    have hp := h p List.mem_cons_self
    rw [List.foldl_cons, ih hl.2 hrest, List.map_cons, List.sum_cons]
    omega

/-! ## Nearest entries -/

section Nearest

variable {γ : Type} {m : ExtTreeMap ℕ γ} {p : ℕ × γ} {k : ℕ}

/-- The entry with the least key from `k` on. -/
def entryFrom (m : ExtTreeMap ℕ γ) (k : ℕ) : Option (ℕ × γ) := m.toList.find? fun p ↦ k ≤ p.1

/-- The entry with the greatest key up to `k`. -/
def entryUpTo (m : ExtTreeMap ℕ γ) (k : ℕ) : Option (ℕ × γ) :=
  m.toList.reverse.find? fun p ↦ p.1 ≤ k

/-- The first hit in a list comes before the others. -/
theorem find?_first {δ : Type} {r : δ → δ → Prop} {q : δ → Bool} {l : List δ} {a : δ}
    (hl : l.Pairwise r) (h : l.find? q = some a) :
    a ∈ l ∧ q a = true ∧ ∀ b ∈ l, q b = true → b = a ∨ r a b := by
  refine ⟨List.mem_of_find?_eq_some h, List.find?_some h, fun b hb hqb ↦ ?_⟩
  obtain ⟨-, l₁, l₂, rfl, hno⟩ := List.find?_eq_some_iff_append.mp h
  rw [List.pairwise_append, List.pairwise_cons] at hl
  rw [List.mem_append, List.mem_cons] at hb
  obtain hb | rfl | hb := hb
  · exact absurd hqb (by simpa using hno b hb)
  · exact .inl rfl
  · exact .inr (hl.2.1.1 b hb)

theorem entryFrom_eq_some (h : entryFrom m k = some p) :
    m[p.1]? = some p.2 ∧ k ≤ p.1 ∧ ∀ (k' : ℕ) v, m[k']? = some v → k ≤ k' → p.1 ≤ k' := by
  obtain ⟨hmem, hk, hfirst⟩ := find?_first ExtTreeMap.ordered_keys_toList h
  refine ⟨ExtTreeMap.mem_toList_iff_getElem?_eq_some.mp hmem, of_decide_eq_true hk, ?_⟩
  intro k' v hv hk'
  rcases hfirst (k', v) (ExtTreeMap.mem_toList_iff_getElem?_eq_some.mpr hv) (decide_eq_true hk')
    with rfl | hlt
  · exact le_rfl
  · exact (Nat.compare_eq_lt.mp hlt).le

theorem entryFrom_eq_none (h : entryFrom m k = none) {k' : ℕ} {v : γ}
    (hv : m[k']? = some v) : k' < k := by
  have := List.find?_eq_none.mp h (k', v) (ExtTreeMap.mem_toList_iff_getElem?_eq_some.mpr hv)
  simpa using this

theorem entryUpTo_eq_some (h : entryUpTo m k = some p) :
    m[p.1]? = some p.2 ∧ p.1 ≤ k ∧ ∀ (k' : ℕ) v, m[k']? = some v → k' ≤ k → k' ≤ p.1 := by
  obtain ⟨hmem, hk, hfirst⟩ :=
    find?_first (List.pairwise_reverse.mpr ExtTreeMap.ordered_keys_toList) h
  rw [List.mem_reverse] at hmem
  refine ⟨ExtTreeMap.mem_toList_iff_getElem?_eq_some.mp hmem, of_decide_eq_true hk, ?_⟩
  intro k' v hv hk'
  rcases hfirst (k', v) (List.mem_reverse.mpr (ExtTreeMap.mem_toList_iff_getElem?_eq_some.mpr hv))
    (decide_eq_true hk') with rfl | hlt
  · exact le_rfl
  · exact (Nat.compare_eq_lt.mp hlt).le

end Nearest

end TreeMap
