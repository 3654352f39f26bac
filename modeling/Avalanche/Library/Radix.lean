import Mathlib

/-!
# Path-compressed tries

A `Radix τ ν` has values of `ν` at lists of tokens of `τ`. A node carries its whole key, and its
children stand under the token that follows that key in theirs. A trie is `Canonical` if a node
without a value has at least two children.

A canonical trie is determined by the values that are found in it (`Canonical.ext`): the key of its
root is the longest common part of the keys with a value, and what is below a child are the keys
that go on with its token. `graft` puts in a value, keeps the trie canonical and changes what is
found under its key alone, so that two sequences of insertions with the same outcome build the same
trie.
-/

variable {τ ν : Type*}

/-- A node with its key, its value and its children. -/
inductive Radix (τ ν : Type*)
  | node (key : List τ) (value : Option ν) (children : τ → Option (Radix τ ν))

namespace Radix

def key : Radix τ ν → List τ
  | node k _ _ => k

def value : Radix τ ν → Option ν
  | node _ v _ => v

def children : Radix τ ν → τ → Option (Radix τ ν)
  | node _ _ cs => cs

@[simp] theorem key_node (k : List τ) (v : Option ν) (cs : τ → Option (Radix τ ν)) :
    (node k v cs).key = k := rfl

@[simp] theorem value_node (k : List τ) (v : Option ν) (cs : τ → Option (Radix τ ν)) :
    (node k v cs).value = v := rfl

@[simp] theorem children_node (k : List τ) (v : Option ν) (cs : τ → Option (Radix τ ν)) :
    (node k v cs).children = cs := rfl

/-! ### Common parts of lists -/

section Common

variable [DecidableEq τ]

/-- The longest common prefix. -/
def common : List τ → List τ → List τ
  | a :: l, b :: m => if a = b then a :: common l m else []
  | _, _ => []

theorem common_prefix_left (l m : List τ) : common l m <+: l := by
  fun_induction common l m with
  | case1 l a m ih => exact (List.prefix_cons_inj a).mpr ih
  | case2 => exact List.nil_prefix
  | case3 => exact List.nil_prefix

theorem common_prefix_right (l m : List τ) : common l m <+: m := by
  fun_induction common l m with
  | case1 l a m ih => exact (List.prefix_cons_inj a).mpr ih
  | case2 => exact List.nil_prefix
  | case3 => exact List.nil_prefix

theorem prefix_common {p l m : List τ} (hl : p <+: l) (hm : p <+: m) : p <+: common l m := by
  induction p generalizing l m with
  | nil => exact List.nil_prefix
  | cons a p ih =>
    obtain ⟨l, rfl⟩ := hl
    obtain ⟨m, rfl⟩ := hm
    rw [List.cons_append, List.cons_append, common, if_pos rfl]
    exact (List.prefix_cons_inj a).mpr (ih ⟨l, rfl⟩ ⟨m, rfl⟩)

theorem common_append (p l m : List τ) : common (p ++ l) (p ++ m) = p ++ common l m := by
  induction p with
  | nil => rfl
  | cons a p ih => rw [List.cons_append, List.cons_append, common, if_pos rfl, ih, List.cons_append]

/-- After their common prefix two lists go on differently, or one of them ends. -/
theorem getElem?_common_ne {l m : List τ} {a : τ} (hl : l[(common l m).length]? = some a) :
    m[(common l m).length]? ≠ some a := by
  fun_induction common l m with
  | case1 l b m ih => simpa using ih (by simpa using hl)
  | case2 b l c m hne =>
    simp only [List.length_nil, List.getElem?_cons_zero, Option.some_inj] at hl
    exact fun hb ↦ hne (hl.trans (Option.some_inj.mp hb).symm)
  | case3 l m hnot =>
    cases l with
    | nil => simp at hl
    | cons b l =>
      cases m with
      | nil => simp
      | cons c m => exact (hnot b l c m rfl rfl).elim

end Common

variable {k key : List τ}

theorem prefix_getElem? {t : τ} (h : k ++ [t] <+: key) :
    key[k.length]? = some t := by
  obtain ⟨rest, rfl⟩ := h
  simp

theorem append_singleton_isPrefix {t : τ} (h : k <+: key)
    (ht : key[k.length]? = some t) : k ++ [t] <+: key := by
  obtain ⟨rest, rfl⟩ := h
  cases rest with
  | nil => simp at ht
  | cons b rest =>
    simp only [List.getElem?_append_right le_rfl, Nat.sub_self, List.getElem?_cons_zero,
      Option.some_inj] at ht
    rw [ht]
    exact ⟨rest, by simp⟩

/-- A proper extension has a token at the length of what it extends. -/
theorem exists_getElem? (h : k <+: key) (hne : key ≠ k) :
    ∃ t, key[k.length]? = some t := by
  obtain ⟨rest, rfl⟩ := h
  cases rest with
  | nil => exact absurd (List.append_nil k) hne
  | cons b rest => exact ⟨b, by simp⟩

/-- What is common to two extensions by different tokens is common to what they extend. -/
theorem prefix_of_prefix_of_ne {p k l m : List τ} {t t' : τ} (hne : t ≠ t') (hl : k ++ [t] <+: l)
    (hm : k ++ [t'] <+: m) (hpl : p <+: l) (hpm : p <+: m) : p <+: k := by
  have hkl : k <+: l := (List.prefix_append k [t]).trans hl
  rcases List.prefix_or_prefix_of_prefix hpl hkl with h | h
  · exact h
  · by_cases heq : p = k
    · rw [heq]
    · obtain ⟨u, hu⟩ := exists_getElem? h heq
      have hul : l[k.length]? = some u :=
        prefix_getElem? ((append_singleton_isPrefix h hu).trans hpl)
      have hum : m[k.length]? = some u :=
        prefix_getElem? ((append_singleton_isPrefix h hu).trans hpm)
      rw [prefix_getElem? hl, Option.some_inj] at hul
      rw [prefix_getElem? hm, Option.some_inj] at hum
      exact absurd (hul.trans hum.symm) hne

/-! ### Lookup -/

section Find

variable [DecidableEq τ]

mutual

/-- The value at a key: it is looked for along the tokens. -/
def find (key : List τ) : Radix τ ν → Option ν
  | node k v cs => if key = k then v else key[k.length]?.elim none fun t ↦ findChild key (cs t)

def findChild (key : List τ) : Option (Radix τ ν) → Option ν
  | none => none
  | some c => find key c

end

theorem findChild_eq (key : List τ) (c : Option (Radix τ ν)) :
    findChild key c = c.bind (find key) := by
  cases c <;> simp [findChild]

variable {key k : List τ} {v w : Option ν} {cs : τ → Option (Radix τ ν)} {t : τ}

theorem find_node_self : find k (node k v cs) = v := by
  rw [find, if_pos rfl]

theorem find_node_of_getElem? (hne : key ≠ k) (ht : key[k.length]? = some t) :
    find key (node k v cs) = (cs t).bind (find key) := by
  rw [find, if_neg hne, ht, Option.elim_some, findChild_eq]

theorem find_node_of_none (hne : key ≠ k) (hnone : key[k.length]? = none) :
    find key (node k v cs) = none := by
  rw [find, if_neg hne, hnone, Option.elim_none]

omit [DecidableEq τ] in
theorem ne_of_append_singleton_isPrefix (h : k ++ [t] <+: key) : key ≠ k := by
  rintro rfl
  have hlength := h.length_le
  simp at hlength

theorem find_node_of_isPrefix (h : k ++ [t] <+: key) :
    find key (node k v cs) = (cs t).bind (find key) :=
  find_node_of_getElem? (ne_of_append_singleton_isPrefix h) (prefix_getElem? h)

/-! ### Canonical tries -/

/-- A node without a value branches, and a child's key goes on with its token. -/
inductive Canonical : Radix τ ν → Prop
  | intro {k : List τ} {v : Option ν} {cs : τ → Option (Radix τ ν)}
      (branch : v = none → ∃ t t', t ≠ t' ∧ (cs t).isSome ∧ (cs t').isSome)
      (step : ∀ t c, cs t = some c → k ++ [t] <+: c.key)
      (child : ∀ t c, cs t = some c → Canonical c) : Canonical (node k v cs)

omit [DecidableEq τ] in
theorem canonical_leaf (key : List τ) (v : ν) :
    Canonical (node key (some v) fun _ ↦ none : Radix τ ν) :=
  .intro (fun h ↦ nomatch h) (fun _ _ h ↦ nomatch h) fun _ _ h ↦ nomatch h

namespace Canonical

variable {n m : Radix τ ν} {a : ν}

/-- What is found lies below the root. -/
theorem prefix_of_find (h : Canonical n) (hfind : find key n = some a) : n.key <+: key := by
  induction h with
  | @intro k v cs _ step _ ih =>
    by_cases hne : key = k
    · rw [hne]
      exact List.prefix_rfl
    · rcases ht : key[k.length]? with - | t
      · rw [find_node_of_none hne ht] at hfind
        cases hfind
      · rw [find_node_of_getElem? hne ht, Option.bind_eq_some_iff] at hfind
        obtain ⟨c, hc, hfind⟩ := hfind
        exact (List.prefix_append k [t]).trans ((step t c hc).trans (ih t c hc hfind))

theorem find_eq_none (h : Canonical n) (hnot : ¬n.key <+: key) : find key n = none := by
  rcases hfind : find key n with - | a
  · rfl
  · exact absurd (h.prefix_of_find hfind) hnot

/-- A child's values are found from its parent. -/
theorem find_child (h : Canonical (node k v cs)) {c : Radix τ ν} (hc : cs t = some c)
    (hfind : find key c = some a) : find key (node k v cs) = some a ∧ k ++ [t] <+: key := by
  obtain ⟨-, step, child⟩ := h
  have hpre := (step t c hc).trans ((child t c hc).prefix_of_find hfind)
  rw [find_node_of_isPrefix hpre, hc]
  exact ⟨hfind, hpre⟩

/-- There is a value in every canonical trie. -/
theorem exists_find (h : Canonical n) : ∃ key a, find key n = some a := by
  induction h with
  | @intro k v cs branch step child ih =>
    rcases hv : v with - | a
    · obtain ⟨t, -, -, ht, -⟩ := branch hv
      obtain ⟨c, hc⟩ := Option.isSome_iff_exists.mp ht
      obtain ⟨key, a, hfind⟩ := ih t c hc
      rw [hv] at branch
      exact ⟨key, a, (find_child (.intro branch step child) hc hfind).1⟩
    · exact ⟨k, a, find_node_self⟩

/-- A part of all keys with a value is a part of the key of the root. -/
theorem prefix_key (h : Canonical n) {p : List τ} (hp : ∀ key a, find key n = some a → p <+: key) :
    p <+: n.key := by
  obtain ⟨k, v, cs⟩ := n
  rcases hv : v with - | a
  · subst hv
    obtain ⟨branch, -, child⟩ := id h
    obtain ⟨t, t', hne, ht, ht'⟩ := branch rfl
    obtain ⟨c, hc⟩ := Option.isSome_iff_exists.mp ht
    obtain ⟨c', hc'⟩ := Option.isSome_iff_exists.mp ht'
    obtain ⟨key, a, hfind⟩ := (child t c hc).exists_find
    obtain ⟨key', a', hfind'⟩ := (child t' c' hc').exists_find
    obtain ⟨hfind, hpre⟩ := h.find_child hc hfind
    obtain ⟨hfind', hpre'⟩ := h.find_child hc' hfind'
    exact prefix_of_prefix_of_ne hne hpre hpre' (hp key a hfind) (hp key' a' hfind')
  · rw [hv] at hp
    exact hp k a find_node_self

/-- What is found in a child. -/
theorem find_child_eq (h : Canonical (node k v cs)) {c : Radix τ ν} (hc : cs t = some c)
    (key : List τ) : find key c = if k ++ [t] <+: key then find key (node k v cs) else none := by
  obtain ⟨-, step, child⟩ := h
  split
  case isTrue hpre => rw [find_node_of_isPrefix hpre, hc, Option.bind_some]
  case isFalse hnot =>
    exact (child t c hc).find_eq_none fun hkey ↦ hnot ((step t c hc).trans hkey)

/-- There is a child under a token when there is a value at a key that goes on with it. -/
theorem isSome_child_iff (h : Canonical (node k v cs)) (t : τ) :
    (cs t).isSome ↔ ∃ key a, k ++ [t] <+: key ∧ find key (node k v cs) = some a := by
  constructor
  · intro ht
    obtain ⟨c, hc⟩ := Option.isSome_iff_exists.mp ht
    obtain ⟨-, -, child⟩ := id h
    obtain ⟨key, a, hfind⟩ := (child t c hc).exists_find
    obtain ⟨hfind, hpre⟩ := h.find_child hc hfind
    exact ⟨key, a, hpre, hfind⟩
  · rintro ⟨key, a, hpre, hfind⟩
    rw [find_node_of_isPrefix hpre, Option.bind_eq_some_iff] at hfind
    obtain ⟨c, hc, -⟩ := hfind
    rw [hc]
    rfl

/-- **A canonical trie is determined by its values.** -/
theorem ext (hn : Canonical n) (hm : Canonical m) (h : ∀ key, find key n = find key m) :
    n = m := by
  induction hn generalizing m with
  | @intro k v cs branch step child ih =>
    have hn : Canonical (node k v cs) := .intro branch step child
    obtain ⟨k', v', cs'⟩ := m
    -- each root's key is a part of all the keys with a value
    have hkey : k = k' := by
      have hle : k <+: k' := hm.prefix_key fun key a hfind ↦
        hn.prefix_of_find ((h key).trans hfind)
      have hge : k' <+: k := hn.prefix_key fun key a hfind ↦
        hm.prefix_of_find ((h key).symm.trans hfind)
      exact hle.eq_of_length (hle.length_le.antisymm hge.length_le)
    subst hkey
    have hvalue : v = v' := by
      have hk := h k
      rwa [find_node_self, find_node_self] at hk
    have hchildren : cs = cs' := by
      funext t
      have hsome : (cs t).isSome ↔ (cs' t).isSome := by
        rw [hn.isSome_child_iff, hm.isSome_child_iff]
        simp only [h]
      rcases hc : cs t with - | c
      · rw [hc] at hsome
        exact (Option.not_isSome_iff_eq_none.mp (fun hs ↦ nomatch hsome.mpr hs)).symm
      · rw [hc] at hsome
        obtain ⟨c', hc'⟩ := Option.isSome_iff_exists.mp (hsome.mp rfl)
        obtain ⟨-, -, child'⟩ := id hm
        rw [hc', ih t c hc (child' t c' hc') fun key ↦ ?_]
        rw [hn.find_child_eq hc, hm.find_child_eq hc', h]
    rw [hvalue, hchildren]

end Canonical

/-! ### Insertion -/

/-- A node over one that is not on the way to `key`, and a leaf at `key`. -/
def split (key : List τ) (v : Option ν) (c : Radix τ ν) : Radix τ ν :=
  let p := common c.key key
  node p (if key = p then v else none) fun t ↦
    if c.key[p.length]? = some t then some c
    else if key[p.length]? = some t then some (node key v fun _ ↦ none) else none

mutual

/-- Puts a value in at or below a node whose key is a prefix of `key`. -/
def insert (key : List τ) (v : Option ν) : Radix τ ν → Radix τ ν
  | node k w cs =>
    if key = k then node k v cs
    else key[k.length]?.elim (node k w cs) fun t ↦
      node k w (Function.update cs t (some (graft key v (cs t))))

/-- Puts a value in where a node, or none, stands. -/
def graft (key : List τ) (v : Option ν) : Option (Radix τ ν) → Radix τ ν
  | none => node key v fun _ ↦ none
  | some c => if c.key <+: key then insert key v c else split key v c

end

/-- What comes of putting in a value. -/
structure Inserted (key : List τ) (a : ν) (o : Option (Radix τ ν)) (r : Radix τ ν) : Prop where
  canonical : Canonical r
  find : ∀ key', find key' r = if key' = key then some a else o.bind (find key')
  below : ∀ p, p <+: key → (∀ c ∈ o, p <+: c.key) → p <+: r.key

theorem find_leaf (key' : List τ) :
    find key' (node key v fun _ ↦ none : Radix τ ν) = if key' = key then v else none := by
  rw [find]
  rcases key'[key.length]? with - | t <;> simp [findChild]

theorem inserted_leaf (key : List τ) (a : ν) :
    Inserted key a none (node key (some a) fun _ ↦ none) where
  canonical := canonical_leaf key a
  find key' := find_leaf key'
  below _ hp _ := hp

theorem inserted_split {c : Radix τ ν} (hc : Canonical c) (hnot : ¬c.key <+: key) (a : ν) :
    Inserted key a (some c) (split key (some a) c) := by
  have hleft := common_prefix_left c.key key
  have hright := common_prefix_right c.key key
  obtain ⟨u, hu⟩ := exists_getElem? hleft fun heq ↦ hnot (heq ▸ hright)
  have hstep := append_singleton_isPrefix hleft hu
  have hchild (t : τ) (c' : Radix τ ν) (hc' : (split key (some a) c).children t = some c') :
      common c.key key ++ [t] <+: c'.key ∧ Canonical c' := by
    simp only [split, children_node] at hc'
    split_ifs at hc' with h h'
    · cases hc'
      exact ⟨append_singleton_isPrefix hleft h, hc⟩
    · cases hc'
      exact ⟨append_singleton_isPrefix hright h', canonical_leaf key a⟩
  refine ⟨.intro (fun hnone ↦ ?_) (fun t c' hc' ↦ (hchild t c' hc').1)
    fun t c' hc' ↦ (hchild t c' hc').2, fun key' ↦ ?_,
    fun p hp hpc ↦ prefix_common (hpc c rfl) hp⟩
  · have hne : key ≠ common c.key key := fun heq ↦ by
      rw [if_pos heq] at hnone
      cases hnone
    obtain ⟨u', hu'⟩ := exists_getElem? hright hne
    refine ⟨u, u', fun heq ↦ getElem?_common_ne hu (heq ▸ hu'), ?_, ?_⟩
    · rw [if_pos hu]
      rfl
    · split <;> rfl
  · -- below `c` every key goes on with `u` after the common part, and `key` does not
    have hnone : key'[(common c.key key).length]? ≠ some u → find key' c = none := fun hne ↦
      hc.find_eq_none fun hpre ↦ hne (prefix_getElem? (hstep.trans hpre))
    rw [Option.bind_some, split]
    by_cases hkey : key' = key
    · subst hkey
      rw [if_pos rfl]
      by_cases hp : key' = common c.key key'
      · rw [← hp, find_node_self, if_pos rfl]
      · obtain ⟨t, ht⟩ := exists_getElem? hright hp
        rw [find_node_of_getElem? hp ht, if_neg fun hut ↦ getElem?_common_ne hut ht, if_pos ht,
          Option.bind_some, find_node_self]
    rw [if_neg hkey]
    by_cases hgo : key'[(common c.key key).length]? = some u
    · have hp : key' ≠ common c.key key := by
        rintro rfl
        simp at hgo
      rw [find_node_of_getElem? hp hgo, if_pos hu, Option.bind_some]
    rw [hnone hgo]
    by_cases hp : key' = common c.key key
    · rw [hp, find_node_self, if_neg fun heq ↦ hkey (hp.trans heq.symm)]
    · rcases ht : key'[(common c.key key).length]? with - | t
      · rw [find_node_of_none hp ht]
      · rw [find_node_of_getElem? hp ht, if_neg fun h ↦ hgo (ht.trans (h.symm.trans hu))]
        split
        · rw [Option.bind_some, find_leaf, if_neg hkey]
        · rfl

/-- Putting in a value at one child. -/
theorem inserted_update {cs : τ → Option (Radix τ ν)} {w : Option ν}
    (h : Canonical (node k w cs)) (hk : k <+: key) (ht : key[k.length]? = some t) {a : ν}
    {r : Radix τ ν} (hr : Inserted key a (cs t) r) :
    Inserted key a (some (node k w cs)) (node k w (Function.update cs t (some r))) := by
  obtain ⟨branch, step, child⟩ := h
  have hpre := append_singleton_isPrefix hk ht
  have hsome {u : τ} (hu : (cs u).isSome) : (Function.update cs t (some r) u).isSome := by
    rw [Function.update_apply]
    split
    · rfl
    · exact hu
  have hstep (u : τ) (c : Radix τ ν) (hc : Function.update cs t (some r) u = some c) :
      k ++ [u] <+: c.key ∧ Canonical c := by
    rw [Function.update_apply] at hc
    split_ifs at hc with hut
    · cases hc
      rw [hut]
      exact ⟨hr.below _ hpre fun c' hc' ↦ step t c' hc', hr.canonical⟩
    · exact ⟨step u c hc, child u c hc⟩
  refine ⟨.intro (fun hnone ↦ ?_) (fun u c hc ↦ (hstep u c hc).1) fun u c hc ↦ (hstep u c hc).2,
    fun key' ↦ ?_, fun p _ hp ↦ hp (node k w cs) rfl⟩
  · obtain ⟨u, u', hne, hu, hu'⟩ := branch hnone
    exact ⟨u, u', hne, hsome hu, hsome hu'⟩
  · have hne : key ≠ k := ne_of_append_singleton_isPrefix hpre
    rw [Option.bind_some]
    by_cases hp : key' = k
    · rw [hp, find_node_self, find_node_self, if_neg hne.symm]
    · rcases hu : key'[k.length]? with - | u
      · rw [find_node_of_none hp hu, find_node_of_none hp hu, if_neg]
        rintro rfl
        exact nomatch hu.symm.trans ht
      · rw [find_node_of_getElem? hp hu, find_node_of_getElem? hp hu, Function.update_apply]
        by_cases hut : u = t
        · rw [if_pos hut, Option.bind_some, hr.find, hut]
        · rw [if_neg hut, if_neg]
          rintro rfl
          exact hut (Option.some_inj.mp (hu.symm.trans ht))

theorem inserted_insert {n : Radix τ ν} (h : Canonical n) (hn : n.key <+: key) (a : ν) :
    Inserted key a (some n) (insert key (some a) n) := by
  induction h with
  | @intro k w cs branch step child ih =>
    have hcanonical : Canonical (node k w cs) := .intro branch step child
    change k <+: key at hn
    rw [insert]
    by_cases heq : key = k
    · rw [if_pos heq]
      refine ⟨.intro (fun h ↦ nomatch h) step child, fun key' ↦ ?_,
        fun p _ hp ↦ hp (node k w cs) rfl⟩
      rw [heq, Option.bind_some]
      by_cases hp : key' = k
      · rw [hp, find_node_self, if_pos rfl]
      · rw [if_neg hp, find, find, if_neg hp, if_neg hp]
    · obtain ⟨t, ht⟩ := exists_getElem? hn heq
      rw [if_neg heq, ht, Option.elim_some]
      refine inserted_update hcanonical hn ht ?_
      rcases hc : cs t with - | c
      · exact inserted_leaf key a
      · rw [graft]
        split
        case isTrue hpre => exact ih t c hc hpre
        case isFalse hnot => exact inserted_split (child t c hc) hnot a

/-- **Insertion.** The trie stays canonical, and nothing else changes. -/
theorem inserted_graft {o : Option (Radix τ ν)} (h : ∀ c ∈ o, Canonical c) (key : List τ) (a : ν) :
    Inserted key a o (graft key (some a) o) := by
  rcases o with - | c
  · exact inserted_leaf key a
  · rw [graft]
    split
    case isTrue hpre => exact inserted_insert (h c rfl) hpre a
    case isFalse hnot => exact inserted_split (h c rfl) hnot a

end Find

end Radix
