import Avalanche.Snow.BitTrie
import Avalanche.Snow.Tree

/-!
# The snowball tree computes the plain bit trie

`Node.expand` writes a compressed, lazily reset node out as the bit trie it stands for: a unary run
becomes a chain of equal instances, and a pending reset is carried out. `Node.Valid` says what the
compression relies on: the runs tile the bits below the path, a node that still owes a reset to its
children has already reset itself, and every cached preference is the one the instances below vote
for.

Adding a choice commutes with `expand` exactly (`expand_add`). A poll commutes with it up to the
finalized instances at the root, which the tree drops on the way (`recordPoll_spec`). A tree that
has decided every bit keeps its last node; from then on nothing about it changes (`Settled`).
-/

namespace Avalanche

namespace Node

open BitTrie

section Definitions

variable {F : Factory}

/-- A unary instance after a pending reset. -/
def resetUnaryIf (reset : Bool) (snow : F.Unary) : F.Unary :=
  if reset then F.unaryRecordUnsuccessfulPoll snow else snow

/-- A binary instance after a pending reset. -/
def resetBinaryIf (reset : Bool) (snow : F.Binary) : F.Binary :=
  if reset then F.binaryRecordUnsuccessfulPoll snow else snow

/-- The bit trie a node stands for when a `reset` is pending above it. -/
def expand : Node F → Bool → BitTrie F
  | unary preference decidedPrefix commonPrefix snow shouldReset child, reset =>
    chain (preference.bitsFrom decidedPrefix (commonPrefix - decidedPrefix))
      (resetUnaryIf reset snow) (child.expand (shouldReset || reset))
  | binary _ _ snow shouldReset children, reset =>
    .binary (resetBinaryIf reset snow) fun side ↦
      (children side).expand (shouldReset side || reset)
  | empty, _ => .leaf

/-- The node is a proper compression of the bits below `path`. -/
def Valid : Node F → List Bool → Prop
  | unary preference decidedPrefix commonPrefix snow shouldReset child, path =>
    (path.length = decidedPrefix ∧ decidedPrefix < commonPrefix ∧ commonPrefix ≤ numBits) ∧
      preference.bitsFrom 0 decidedPrefix = path ∧
      (child.expand false).preferred = preference.bitsFrom commonPrefix (numBits - commonPrefix) ∧
      (shouldReset = true → F.unaryRecordUnsuccessfulPoll snow = snow) ∧
      child.Valid (preference.bitsFrom 0 commonPrefix)
  | binary preferences bit _ _ children, path =>
    (path.length = bit ∧ bit < numBits) ∧ ∀ side,
      (preferences side).bitsFrom 0 (bit + 1) = path ++ [side] ∧
        ((children side).expand false).preferred
          = (preferences side).bitsFrom (bit + 1) (numBits - (bit + 1)) ∧
        (children side).Valid (path ++ [side])
  | empty, path => path.length = numBits

end Definitions

theorem bitsFrom_split (id : Id) {a b c : ℕ} (hab : a ≤ b) (hbc : b ≤ c) :
    id.bitsFrom a (c - a) = id.bitsFrom a (b - a) ++ id.bitsFrom b (c - b) := by
  rw [show c - a = (b - a) + (c - b) by omega, Id.bitsFrom_add, show a + (b - a) = b by omega]

theorem bitsFrom_zero_split (id : Id) {a b : ℕ} (h : a ≤ b) :
    id.bitsFrom 0 b = id.bitsFrom 0 a ++ id.bitsFrom a (b - a) :=
  bitsFrom_split id (Nat.zero_le a) h

theorem bitsFrom_zero_succ (id : Id) (n : ℕ) :
    id.bitsFrom 0 (n + 1) = id.bitsFrom 0 n ++ [id.bit n] := by
  rw [Id.bitsFrom_add, zero_add, Id.bitsFrom_succ, Id.bitsFrom_zero]

/-- Reading off a cached preference: the bits of the path, then those voted for below. -/
theorem bits_of_append {id : Id} {path xs : List Bool} (hle : path.length ≤ numBits)
    (h : id.bitsFrom 0 numBits = path ++ xs) :
    id.bitsFrom 0 path.length = path ∧ xs = id.bitsFrom path.length (numBits - path.length) := by
  rw [bitsFrom_zero_split id hle] at h
  obtain ⟨h0, h1⟩ := List.append_inj h (by simp)
  exact ⟨h0, h1.symm⟩

section Lawful

variable {F : LawfulFactory} {path : List Bool} {n : Node F}

/-! ## Pending resets -/

theorem resetUnaryIf_or {snow : F.Unary} {shouldReset : Bool}
    (h : shouldReset = true → F.unaryRecordUnsuccessfulPoll snow = snow) (reset : Bool) :
    resetUnaryIf (shouldReset || reset) snow = resetUnaryIf reset snow := by
  cases shouldReset with
  | false => rfl
  | true => cases reset <;> simp [resetUnaryIf, h rfl]

theorem resetBinaryIf_extend (reset : Bool) (snow : F.Unary) (bit : Bool) :
    resetBinaryIf reset (F.extend snow bit) = F.extend (resetUnaryIf reset snow) bit := by
  cases reset with
  | false => rfl
  | true => exact F.reset_extend snow bit

/-- A pending reset is a reset of everything below. -/
theorem expand_true (n : Node F) : n.expand true = (n.expand false).resetAll := by
  induction n with
  | empty => rfl
  | unary preference decidedPrefix commonPrefix snow shouldReset child ih =>
    cases shouldReset <;> simp [expand, resetUnaryIf, ih]
  | binary preferences bit snow shouldReset children ih =>
    simp only [expand, resetBinaryIf, resetAll, Bool.or_true, Bool.or_false, if_true,
      Bool.false_eq_true, if_false]
    congr 1
    funext side
    cases shouldReset side <;> simp [ih]

@[simp] theorem preferred_expand (n : Node F) (reset : Bool) :
    (n.expand reset).preferred = (n.expand false).preferred := by
  cases reset with
  | false => rfl
  | true => rw [expand_true, preferred_resetAll]

@[simp] theorem expand_empty (reset : Bool) : (empty : Node F).expand reset = .leaf := rfl

theorem expand_newChild (p : Parameters) (id : Id) (index : ℕ) (reset : Bool) :
    (newChild p id index : Node F).expand reset = fresh p id (index + 1) := by
  cases reset <;> simp [newChild, expand, fresh, resetUnaryIf, F.reset_newUnary]

/-- The cached preference of a node: its path, then what the instances below vote for. -/
theorem Valid.preference_bits (h : n.Valid path)
    (hn : n.isSome = true) :
    n.preference.bitsFrom 0 numBits = path ++ (n.expand false).preferred := by
  cases n with
  | empty => simp [isSome] at hn
  | unary preference decidedPrefix commonPrefix snow shouldReset child =>
    obtain ⟨⟨-, hlt, hle⟩, hpath, hpref, -⟩ := h
    rw [Node.preference, bitsFrom_zero_split _ (hlt.le.trans hle), hpath,
      bitsFrom_split _ hlt.le hle, expand, preferred_chain, preferred_expand, hpref]
  | binary preferences bit snow shouldReset children =>
    obtain ⟨⟨-, hlt⟩, hside⟩ := h
    obtain ⟨hpath, hpref, -⟩ := hside (F.binaryPreference snow)
    rw [Node.preference, bitsFrom_zero_split _ hlt, hpath, ← hpref]
    simp [expand, preferred, resetBinaryIf]

theorem chain_bitsFrom_succ (id : Id) {a b : ℕ} (h : a < b) (snow : F.Unary)
    (t : BitTrie F) : chain (id.bitsFrom a (b - a)) snow t
      = .unary (id.bit a) snow (chain (id.bitsFrom (a + 1) (b - (a + 1))) snow t) := by
  rw [show b - a = (b - (a + 1)) + 1 by omega, Id.bitsFrom_succ, chain_cons]

/-- The first instance of the expansion is the instance of the node. -/
theorem Valid.rootFinalized_expand (h : n.Valid path)
    (reset : Bool) : (n.expand reset).rootFinalized = n.finalized := by
  cases n with
  | empty => rfl
  | unary preference decidedPrefix commonPrefix snow shouldReset child =>
    rw [expand, chain_bitsFrom_succ _ h.1.2.1]
    cases reset with
    | false => rfl
    | true => exact F.unary_finalized_reset snow
  | binary preferences bit snow shouldReset children =>
    cases reset with
    | false => rfl
    | true => exact F.binary_finalized_reset snow

theorem Valid.length (h : n.Valid path) :
    path.length = n.decidedPrefix := by
  cases n with
  | empty => exact h
  | unary => exact h.1.1
  | binary => exact h.1.1

theorem Valid.length_le (h : n.Valid path) :
    path.length ≤ numBits := by
  cases n with
  | empty => exact h.le
  | unary => exact h.1.1.le.trans (h.1.2.1.le.trans h.1.2.2)
  | binary => exact h.1.1.le.trans h.1.2.le

/-- There is a node below every path that is not complete. -/
theorem Valid.isSome_iff (h : n.Valid path) :
    n.isSome = true ↔ path.length < numBits := by
  cases n with
  | empty => exact iff_of_false Bool.false_ne_true h.not_lt
  | unary => exact iff_of_true rfl (h.1.1.trans_lt (h.1.2.1.trans_le h.1.2.2))
  | binary => exact iff_of_true rfl (h.1.1.trans_lt h.1.2)

theorem Valid.eq_empty_iff (h : n.Valid path) :
    n = .empty ↔ path.length = numBits := by
  rw [← h.length_le.not_lt_iff_eq, ← h.isSome_iff]
  cases n <;> simp [Node.isSome]

/-! ## Adding a choice -/

/-- What stays below the new binary node on the old side. -/
def lower (preference : Id) (commonPrefix : ℕ) (snow : F.Unary) (shouldReset : Bool)
    (child : Node F) (index : ℕ) : Node F :=
  if index + 1 = commonPrefix then child
  else .unary preference (index + 1) commonPrefix snow shouldReset child

/-- What the new binary node has on the side of the new choice. -/
def other (p : Parameters) (newChoice : Id) (commonPrefix : ℕ) (child : Node F)
    (index : ℕ) : Node F :=
  if index + 1 = commonPrefix ∧ child.isSome = false then .empty else newChild p newChoice index

/-- The binary node a split makes. -/
def branch (p : Parameters) (newChoice preference : Id) (commonPrefix : ℕ) (snow : F.Unary)
    (shouldReset : Bool) (child : Node F) (index : ℕ) : Node F :=
  .binary (fun side ↦ if side = preference.bit index then preference else newChoice) index
    (F.extend snow (preference.bit index)) (fun _ ↦ shouldReset) fun side ↦
      if side = preference.bit index then lower preference commonPrefix snow shouldReset child index
      else other p newChoice commonPrefix child index

theorem preference_branch (p : Parameters) (newChoice preference : Id) (commonPrefix : ℕ)
    (snow : F.Unary) (shouldReset : Bool) (child : Node F) (index : ℕ) :
    (branch p newChoice preference commonPrefix snow shouldReset child index).preference
      = preference := by
  simp [branch, Node.preference, F.preference_extend]

/-- The four cases of a split along two questions: is there something of the run left below the
split, and is there something left above it? -/
theorem split_eq (p : Parameters) (newChoice preference : Id) {decidedPrefix commonPrefix : ℕ}
    (snow : F.Unary) (shouldReset : Bool) (child : Node F) {index : ℕ}
    (hlo : decidedPrefix ≤ index) (hhi : index < commonPrefix) :
    split p newChoice preference decidedPrefix commonPrefix snow shouldReset child index
      = if index = decidedPrefix then
          branch p newChoice preference commonPrefix snow shouldReset child index
        else .unary preference decidedPrefix index snow
          (if index + 1 = commonPrefix then shouldReset else false)
          (branch p newChoice preference commonPrefix snow shouldReset child index) := by
  have hchild : (if child.isSome = true then newChild p newChoice index
      else (.empty : Node F))
      = if child.isSome = false then .empty else newChild p newChoice index := by
    cases child.isSome <;> simp
  unfold split branch lower other
  by_cases h1 : index + 1 = commonPrefix
  · by_cases h2 : index = decidedPrefix
    · rw [if_pos (by omega), if_pos h2]
      simp [h1, hchild]
    · rw [if_neg (by omega), if_neg h2, if_pos (by omega), if_neg h2,
        show commonPrefix - 1 = index by omega]
      simp [h1, hchild]
  · by_cases h2 : index = decidedPrefix
    · subst h2
      rw [if_neg (by omega), if_pos rfl, if_pos rfl]
      simp [h1]
    · rw [if_neg (by omega), if_neg h2, if_neg (by omega), if_neg h2]
      simp [h1]

section Split

variable {p : Parameters} {newChoice preference : Id} {decidedPrefix commonPrefix index : ℕ}
  {snow : F.Unary} {shouldReset : Bool} {child : Node F} {path : List Bool}
  (h : (unary preference decidedPrefix commonPrefix snow shouldReset child).Valid path)

include h

theorem isSome_child : child.isSome = false ↔ commonPrefix = numBits := by
  obtain ⟨⟨-, -, hle⟩, -, -, -, hchild⟩ := h
  rw [← Bool.not_eq_true, hchild.isSome_iff, Id.length_bitsFrom]
  omega

theorem expand_lower (reset : Bool) :
    (lower preference commonPrefix snow shouldReset child index).expand (shouldReset || reset)
      = chain (preference.bitsFrom (index + 1) (commonPrefix - (index + 1)))
          (resetUnaryIf reset snow) (child.expand (shouldReset || reset)) := by
  unfold lower
  split_ifs with hlast
  · simp [hlast]
  · rw [expand, resetUnaryIf_or h.2.2.2.1, ← Bool.or_assoc, Bool.or_self]

theorem expand_other (reset : Bool) :
    (other p newChoice commonPrefix child index).expand reset = fresh p newChoice (index + 1) := by
  unfold other
  split_ifs with hlast
  · simp [fresh, hlast.1, (isSome_child h).mp hlast.2]
  · exact expand_newChild _ _ _ _

theorem expand_branch (reset : Bool) :
    (branch p newChoice preference commonPrefix snow shouldReset child index).expand reset
      = .binary (F.extend (resetUnaryIf reset snow) (preference.bit index)) fun side ↦
          if side = preference.bit index then
            chain (preference.bitsFrom (index + 1) (commonPrefix - (index + 1)))
              (resetUnaryIf reset snow) (child.expand (shouldReset || reset))
          else fresh p newChoice (index + 1) := by
  rw [branch, expand, resetBinaryIf_extend]
  congr 1
  funext side
  split_ifs
  · exact expand_lower h reset
  · exact expand_other h _

/-- A split is the split of the chain it stands for. -/
theorem expand_split (hlo : decidedPrefix ≤ index) (hhi : index < commonPrefix)
    (hsame : newChoice.bitsFrom decidedPrefix (index - decidedPrefix)
      = preference.bitsFrom decidedPrefix (index - decidedPrefix))
    (hne : newChoice.bit index ≠ preference.bit index) (reset : Bool) :
    (split p newChoice preference decidedPrefix commonPrefix snow shouldReset child index).expand
        reset
      = ((unary preference decidedPrefix commonPrefix snow shouldReset child).expand reset).add p
          newChoice decidedPrefix := by
  have hbits : preference.bitsFrom decidedPrefix (commonPrefix - decidedPrefix)
      = preference.bitsFrom decidedPrefix (index - decidedPrefix)
        ++ preference.bit index :: preference.bitsFrom (index + 1)
          (commonPrefix - (index + 1)) := by
    rw [bitsFrom_split preference hlo hhi.le, show commonPrefix - index
      = (commonPrefix - (index + 1)) + 1 by omega, Id.bitsFrom_succ]
  have hadd : decidedPrefix + (index - decidedPrefix) = index := by omega
  have hrhs := @add_chain_of_ne F decidedPrefix p (preference.bit index) newChoice
    (preference.bitsFrom decidedPrefix (index - decidedPrefix)) (by rwa [Id.length_bitsFrom])
    (by rwa [Id.length_bitsFrom, hadd])
    (preference.bitsFrom (index + 1) (commonPrefix - (index + 1))) (resetUnaryIf reset snow)
    (child.expand (shouldReset || reset))
  rw [Id.length_bitsFrom, hadd, ← hbits] at hrhs
  rw [expand, hrhs, split_eq _ _ _ _ _ _ hlo hhi]
  split_ifs with h1 h2
  · rw [expand_branch h, h1, Nat.sub_self, Id.bitsFrom_zero, chain_nil]
  · rw [expand, expand_branch h, resetUnaryIf_or h.2.2.2.1, ← Bool.or_assoc, Bool.or_self]
  · rw [expand, expand_branch h, Bool.false_or]

theorem valid_lower (hhi : index < commonPrefix) :
    (lower preference commonPrefix snow shouldReset child index).Valid
        (preference.bitsFrom 0 (index + 1)) ∧
      ((lower preference commonPrefix snow shouldReset child index).expand false).preferred
        = preference.bitsFrom (index + 1) (numBits - (index + 1)) := by
  obtain ⟨⟨-, -, hle⟩, -, hpref, hsr, hchild⟩ := h
  unfold lower
  split_ifs with hlast
  · rw [hlast]
    exact ⟨hchild, hpref⟩
  · refine ⟨⟨⟨by simp, by omega, hle⟩, rfl, hpref, hsr, hchild⟩, ?_⟩
    rw [expand, preferred_chain, preferred_expand, hpref, ← bitsFrom_split _ (by omega) hle]

theorem valid_other (hhi : index < commonPrefix) :
    (other p newChoice commonPrefix child index).Valid (newChoice.bitsFrom 0 (index + 1)) ∧
      ((other p newChoice commonPrefix child index).expand false).preferred
        = newChoice.bitsFrom (index + 1) (numBits - (index + 1)) := by
  refine ⟨?_, by rw [expand_other h, fresh, preferred_chain]; simp [preferred]⟩
  have hle := h.1.2.2
  unfold other
  simp only [isSome_child h]
  split_ifs with hlast
  · simp [Valid, hlast]
  · exact ⟨⟨by simp, by omega, le_rfl⟩, rfl, by simp [preferred], by simp, by simp [Valid]⟩

theorem valid_branch (hhi : index < commonPrefix)
    (hsame : newChoice.bitsFrom 0 index = preference.bitsFrom 0 index)
    (hne : newChoice.bit index ≠ preference.bit index) :
    (branch p newChoice preference commonPrefix snow shouldReset child index).Valid
      (preference.bitsFrom 0 index) := by
  refine ⟨⟨by simp, hhi.trans_le h.1.2.2⟩, fun side ↦ ?_⟩
  dsimp only
  by_cases hside : side = preference.bit index
  · rw [if_pos hside, if_pos hside, hside, ← bitsFrom_zero_succ]
    obtain ⟨hvalid, hlow⟩ := valid_lower h hhi
    exact ⟨rfl, hlow, hvalid⟩
  · have hbit : side = newChoice.bit index := by
      cases side <;> cases hb : newChoice.bit index <;> simp_all
    rw [if_neg hside, if_neg hside, hbit, ← hsame, ← bitsFrom_zero_succ]
    obtain ⟨hvalid, hlow⟩ := valid_other h hhi
    exact ⟨rfl, hlow, hvalid⟩

theorem valid_split (hlo : decidedPrefix ≤ index) (hhi : index < commonPrefix)
    (hsame : newChoice.bitsFrom 0 index = preference.bitsFrom 0 index)
    (hne : newChoice.bit index ≠ preference.bit index) :
    (split p newChoice preference decidedPrefix commonPrefix snow shouldReset child index).Valid
      path := by
  have hbranch := valid_branch (p := p) h hhi hsame hne
  have hle := h.1.2.2
  rw [split_eq _ _ _ _ _ _ hlo hhi, ← h.2.1]
  by_cases heq : index = decidedPrefix
  · rw [if_pos heq, ← heq]
    exact hbranch
  · rw [if_neg heq]
    refine ⟨⟨by simp, by omega, by omega⟩, rfl, ?_, fun hr ↦ h.2.2.2.1 ?_, hbranch⟩
    · -- the preference above the split is the old one
      have hbits := hbranch.preference_bits rfl
      rw [preference_branch, bitsFrom_zero_split preference (by omega : index ≤ _)] at hbits
      exact (List.append_cancel_left hbits).symm
    · by_cases hc : index + 1 = commonPrefix
      · rwa [if_pos hc] at hr
      · rw [if_neg hc] at hr
        exact absurd hr Bool.false_ne_true

end Split

variable {path : List Bool} {p : Parameters}

/-- **Adding a choice commutes with the expansion**, and keeps the compression proper. -/
theorem Valid.add {n : Node F} (h : n.Valid path)
    {reset : Bool} (hs : (n.expand reset).Sound p) {id : Id}
    (hid : id.bitsFrom 0 path.length = path) :
    (n.add p id).Valid path ∧
      (n.add p id).expand reset = (n.expand reset).add p id path.length := by
  induction n generalizing path reset with
  | empty => exact ⟨h, rfl⟩
  | unary preference decidedPrefix commonPrefix snow shouldReset child ih =>
    have hf := (h.rootFinalized_expand reset).symm.trans hs.rootFinalized
    have hnode := h
    obtain ⟨⟨hlen, hlt, hle⟩, hpath, hpref, hsr, hchild⟩ := h
    rw [hlen, ← hpath] at hid
    have hspec := @firstDifferenceSubset_spec decidedPrefix _ hle preference id
    rw [Node.add, if_neg (by rw [Node.finalized] at hf; simp [hf])]
    cases hdiff : firstDifferenceSubset decidedPrefix commonPrefix preference id with
    | none =>
      rw [hdiff] at hspec
      have hrun : id.bitsFrom decidedPrefix (commonPrefix - decidedPrefix)
          = preference.bitsFrom decidedPrefix (commonPrefix - decidedPrefix) :=
        Id.bitsFrom_eq_iff.mpr fun i h1 h2 ↦ (hspec i h1 (by omega)).symm
      have hall : id.bitsFrom 0 commonPrefix = preference.bitsFrom 0 commonPrefix := by
        rw [bitsFrom_zero_split _ hlt.le, bitsFrom_zero_split _ hlt.le, hid, hrun]
      obtain ⟨hvalid, hexp⟩ := ih hchild hs.of_chain (by rwa [Id.length_bitsFrom])
      refine ⟨⟨⟨hlen, hlt, hle⟩, hpath, ?_, hsr, hvalid⟩, ?_⟩
      · rw [← hpref, ← preferred_expand _ (shouldReset || reset), hexp, preferred_add,
          preferred_expand]
      · rw [expand, expand, hexp, hlen, add_chain_of_eq (by rwa [Id.length_bitsFrom]),
          Id.length_bitsFrom, Id.length_bitsFrom,
          show decidedPrefix + (commonPrefix - decidedPrefix) = commonPrefix by omega]
    | some index =>
      rw [hdiff] at hspec
      obtain ⟨hlo, hhi, hne, hsame⟩ := hspec
      have hrun : id.bitsFrom decidedPrefix (index - decidedPrefix)
          = preference.bitsFrom decidedPrefix (index - decidedPrefix) :=
        Id.bitsFrom_eq_iff.mpr fun i h1 h2 ↦ (hsame i h1 (by omega)).symm
      have hall : id.bitsFrom 0 index = preference.bitsFrom 0 index := by
        rw [bitsFrom_zero_split _ hlo, bitsFrom_zero_split _ hlo, hid, hrun]
      refine ⟨valid_split hnode hlo hhi hall (Ne.symm hne), ?_⟩
      rw [hlen]
      exact expand_split hnode hlo hhi hrun (Ne.symm hne) reset
  | binary preferences bit snow shouldReset children ih =>
    obtain ⟨⟨hlen, hlt⟩, hsides⟩ := h
    have hid' : id.bitsFrom 0 (path ++ [id.bit bit]).length = path ++ [id.bit bit] := by
      rw [List.length_append, List.length_singleton, bitsFrom_zero_succ, hid, hlen]
    have hstep (side : Bool) (hside : side = id.bit bit) :=
      ih side (hsides side).2.2 (hs.2.2 side).2 (by rwa [hside])
    refine ⟨⟨⟨hlen, hlt⟩, fun side ↦ ?_⟩, ?_⟩
    · obtain ⟨hbits, hpref, hchild⟩ := hsides side
      dsimp only
      split_ifs with hside
      · obtain ⟨hvalid, hexp⟩ := hstep side hside
        refine ⟨hbits, ?_, hvalid⟩
        rw [← hpref, ← preferred_expand _ (shouldReset side || reset), hexp, preferred_add,
          preferred_expand]
      · exact ⟨hbits, hpref, hchild⟩
    · rw [Node.add, expand, expand, BitTrie.add, hlen]
      congr 1
      funext side
      split_ifs with hside
      · rw [(hstep side hside).2, List.length_append, List.length_singleton, hlen]
      · rfl

/-! ## Recording a poll -/

theorem resetAll_expand (n : Node F) (reset : Bool) :
    (n.expand reset).resetAll = n.expand true := by
  cases reset with
  | false => exact (expand_true n).symm
  | true => rw [expand_true, resetAll_resetAll]

/-- The last node of a fully decided tree: finalized, with nothing below. -/
def Settled (p : Parameters) : Node F → Prop
  | unary _ _ _ snow _ child =>
    F.UnaryOk p snow ∧ F.unaryFinalized snow = true ∧ child = .empty
  | binary _ _ snow _ children =>
    F.BinaryOk p snow ∧ F.binaryFinalized snow = true ∧ ∀ side, children side = .empty
  | empty => False

/-- How a node that replaces `n` below `path` relates to the polled trie `t`: it stands for `t`
without the finalized instances at its root, or it is the last node of a decided tree. -/
def Replaces (p : Parameters) (n' : Node F) (path : List Bool)
    (t : BitTrie F) : Prop :=
  (∃ path', n'.Valid path' ∧ n'.isSome = true ∧ t.dropDecided path = (path', n'.expand false)) ∨
    (n'.Settled p ∧ t.dropDecided path = (n'.preference.bitsFrom 0 numBits, .leaf))

theorem replaces_of_eq {m : Node F} {t : BitTrie F}
    (hvalid : m.Valid path) (hsome : m.isSome = true) (hexp : m.expand false = t)
    (hf : t.rootFinalized = false) : m.Replaces p path t :=
  Or.inl ⟨path, hvalid, hsome, by rw [dropDecided_of_not_rootFinalized hf, hexp]⟩

/-- If nothing at the root finalized, the new node stands for the polled trie in place. -/
theorem Replaces.in_place {n' : Node F} {t : BitTrie F}
    (h : n'.Replaces p path t) (hlt : path.length < numBits) (hf : t.rootFinalized = false) :
    n'.Valid path ∧ n'.isSome = true ∧ n'.expand false = t := by
  rw [Replaces, dropDecided_of_not_rootFinalized hf] at h
  obtain ⟨path', hvalid, hsome, heq⟩ | ⟨-, heq⟩ := h
  · obtain ⟨rfl, rfl⟩ := Prod.mk.inj heq
    exact ⟨hvalid, hsome, rfl⟩
  · have hlen := congrArg List.length (Prod.mk.inj heq).1
    rw [Id.length_bitsFrom] at hlen
    omega

theorem unary_recordPoll (p : Parameters) (preference : Id) (decidedPrefix commonPrefix : ℕ)
    (snow : F.Unary) (shouldReset : Bool) (child : Node F) {votes : Bag Id}
    (hk : votes.len ≤ u32Max) (reset : Bool) :
    (unary preference decidedPrefix commonPrefix snow shouldReset child).recordPoll p votes reset
      = if votes.len < p.alphaPreference.toNat then
          (.unary preference decidedPrefix commonPrefix
            (F.unaryRecordUnsuccessfulPoll (resetUnaryIf reset snow)) true child, false)
        else
          let snow' := F.unaryRecordPoll (resetUnaryIf reset snow) votes.len
          let newChild := (child.recordPoll p votes (shouldReset || reset)).1
          if child.isSome then
            if F.unaryFinalized snow' then (newChild, true)
            else (.unary newChild.preference decidedPrefix commonPrefix snow' false newChild, true)
          else (.unary preference decidedPrefix commonPrefix snow' false child, true) := by
  rw [recordPoll, saturatingU32_of_le hk]
  rfl

theorem agreeing_true (votes : Bag Id) (d : ℕ) :
    (votes.filter fun id ↦ id.bit d) = agreeing votes d true :=
  Bag.filter_congr fun id _ ↦ by simp

theorem agreeing_false (votes : Bag Id) (d : ℕ) :
    (votes.filter fun id ↦ !id.bit d) = agreeing votes d false :=
  Bag.filter_congr fun id _ ↦ by simp

theorem binary_recordPoll (p : Parameters) (preferences : Bool → Id) (bitIndex : ℕ)
    (snow : F.Binary) (shouldReset : Bool → Bool) (children : Bool → Node F)
    {votes : Bag Id} (hk : votes.len ≤ u32Max) (reset : Bool) {bit : Bool}
    (hbit : bit = decide (p.alphaPreference.toNat ≤ (agreeing votes bitIndex true).len)) :
    (binary preferences bitIndex snow shouldReset children).recordPoll p votes reset
      = if (agreeing votes bitIndex bit).len < p.alphaPreference.toNat then
          (.binary preferences bitIndex (F.binaryRecordUnsuccessfulPoll (resetBinaryIf reset snow))
            (fun _ ↦ true) children, false)
        else
          let snow' := F.binaryRecordPoll (resetBinaryIf reset snow)
            (agreeing votes bitIndex bit).len bit
          let newChild := ((children bit).recordPoll p (agreeing votes bitIndex bit)
            (shouldReset bit || reset)).1
          if (children bit).isSome then
            if F.binaryFinalized snow' then (newChild, true)
            else (.binary (Function.update preferences bit newChild.preference) bitIndex snow'
              (fun side ↦ if side = bit then false else true)
              (Function.update children bit newChild), true)
          else (.binary preferences bitIndex snow' (fun side ↦ if side = bit then false else true)
            children, true) := by
  have hle (side : Bool) : (agreeing votes bitIndex side).len ≤ u32Max :=
    (len_agreeing_le _ _ _).trans hk
  have hpruned : (if bit = true then agreeing votes bitIndex true
      else agreeing votes bitIndex false) = agreeing votes bitIndex bit := by
    cases bit <;> rfl
  -- the flags after handing the reset down: the other side owes one, this side owes its old one
  have hflag : ∀ value, Function.update (Function.update
      (if reset = true then Function.update shouldReset bit true else shouldReset) (!bit) true)
        bit value = fun side ↦ if side = bit then value else true := by
    intro value
    funext side
    cases side <;> cases bit <;> simp [Function.update]
  have hown : Function.update
      (if reset = true then Function.update shouldReset bit true else shouldReset) (!bit) true bit
        = (shouldReset bit || reset) := by
    rw [Function.update_of_ne (by simp)]
    cases reset <;> simp
  rw [recordPoll, agreeing_true, agreeing_false]
  simp only [saturatingU32_of_le (hle _), ge_iff_le, ← hbit, hpruned, hflag, hown]
  simp only [ite_self]
  rfl

section Poll

variable {p : Parameters} {path : List Bool} {votes : Bag Id} {reset : Bool} {n : Node F}

theorem replaces_unary_recordPoll {preference : Id} {decidedPrefix commonPrefix : ℕ}
    {snow : F.Unary} {shouldReset : Bool} {child : Node F}
    (hn : n = unary preference decidedPrefix commonPrefix snow shouldReset child)
    (h : n.Valid path) (hs : (n.expand reset).Sound p) (hk : votes.len ≤ u32Max)
    (hroute : ∀ id ∈ votes.items, (n.expand reset).Routes id path.length)
    (ih : child.isSome = true →
      ((child.recordPoll p votes (shouldReset || reset)).1).Replaces p
        (preference.bitsFrom 0 commonPrefix)
        ((child.expand (shouldReset || reset)).poll p commonPrefix votes)) :
    (n.recordPoll p votes reset).1.Replaces p path ((n.expand reset).poll p path.length votes) := by
  subst hn
  have hpolled := hs.polled_poll path.length votes
  have hroot := hs.rootFinalized
  rw [h.rootFinalized_expand] at hroot
  obtain ⟨⟨hlen, hlt, hle⟩, hpath, hpref, hsr, hchild⟩ := h
  rw [unary_recordPoll _ _ _ _ _ _ _ hk]
  by_cases hn : votes.len < p.alphaPreference.toNat
  · -- too few votes: this node resets and owes the reset to its child
    rw [if_pos hn, poll_of_lt hn, expand, resetAll_chain, resetAll_expand]
    refine replaces_of_eq (m := .unary ..) ⟨⟨hlen, hlt, hle⟩, hpath, hpref, fun _ ↦
      F.unary_reset_reset _, hchild⟩ rfl rfl ?_
    rw [chain_bitsFrom_succ _ hlt, rootFinalized, F.unary_finalized_reset]
    cases reset with
    | false => exact hroot
    | true => exact (F.unary_finalized_reset snow).trans hroot
  have hbits : ∀ id ∈ votes.items,
      id.bitsFrom path.length (preference.bitsFrom decidedPrefix
        (commonPrefix - decidedPrefix)).length
        = preference.bitsFrom decidedPrefix (commonPrefix - decidedPrefix) :=
    fun id hid ↦ (routes_chain.mp (hroute id hid)).1
  have hpathrun : path ++ preference.bitsFrom decidedPrefix (commonPrefix - decidedPrefix)
      = preference.bitsFrom 0 commonPrefix := by
    rw [bitsFrom_zero_split _ hlt.le, hpath]
  rw [expand, poll_chain hbits (Nat.not_lt.mp hn), Id.length_bitsFrom, hlen,
    show decidedPrefix + (commonPrefix - decidedPrefix) = commonPrefix by omega] at hpolled ⊢
  rw [if_neg hn]
  dsimp only
  set snow' := F.unaryRecordPoll (resetUnaryIf reset snow) votes.len with hsnow'
  have hne : preference.bitsFrom decidedPrefix (commonPrefix - decidedPrefix) ≠ [] := by
    rw [← List.length_pos_iff_ne_nil, Id.length_bitsFrom]
    omega
  cases hsome : child.isSome with
  | true =>
    have hc := ih hsome
    rw [if_pos rfl]
    cases hf : F.unaryFinalized snow' with
    | true =>
      rw [if_pos rfl, Replaces, dropDecided_chain hf, hpathrun]
      exact hc
    | false =>
      rw [if_neg Bool.false_ne_true]
      have hcommon := hchild.isSome_iff.mp hsome
      obtain ⟨hvalid, hsome', hexp⟩ := hc.in_place hcommon (hpolled.of_chain hne hf)
      set newChild := (child.recordPoll p votes (shouldReset || reset)).1
      -- the new preference still runs through this node
      obtain ⟨hnew0, hnew1⟩ := bits_of_append hcommon.le (hvalid.preference_bits hsome')
      rw [Id.length_bitsFrom] at hnew0 hnew1
      have hnew2 := hnew0
      rw [bitsFrom_zero_split _ hlt.le, bitsFrom_zero_split _ hlt.le] at hnew2
      obtain ⟨hnew3, hnew4⟩ := List.append_inj hnew2 (by simp)
      refine replaces_of_eq (m := .unary ..) ⟨⟨hlen, hlt, hle⟩, hnew3.trans hpath, hnew1,
        fun hr ↦ absurd hr Bool.false_ne_true, by rwa [hnew0]⟩ rfl ?_ ?_
      · rw [expand, Bool.or_false, hexp, hnew4]
        rfl
      · rw [chain_bitsFrom_succ _ hlt]
        exact hf
  | false =>
    rw [if_neg Bool.false_ne_true]
    have hcommon := (isSome_child ⟨⟨hlen, hlt, hle⟩, hpath, hpref, hsr, hchild⟩).mp hsome
    obtain rfl := hchild.eq_empty_iff.mpr (by rw [Id.length_bitsFrom, hcommon])
    cases hf : F.unaryFinalized snow' with
    | true =>
      rw [chain_bitsFrom_succ _ hlt] at hpolled
      refine Or.inr ⟨⟨hpolled.1, hf, rfl⟩, ?_⟩
      rw [dropDecided_chain hf, hpathrun, hcommon]
      rfl
    | false =>
      refine replaces_of_eq (m := .unary ..) ⟨⟨hlen, hlt, hle⟩, hpath, hpref,
        fun hr ↦ absurd hr Bool.false_ne_true, hchild⟩ rfl rfl ?_
      rw [chain_bitsFrom_succ _ hlt]
      exact hf

theorem replaces_binary_recordPoll {preferences : Bool → Id} {bitIndex : ℕ}
    {snow : F.Binary} {shouldReset : Bool → Bool} {children : Bool → Node F}
    (hn : n = binary preferences bitIndex snow shouldReset children)
    (h : n.Valid path) (hs : (n.expand reset).Sound p) (hk : votes.len ≤ u32Max)
    (ih : ∀ side, (children side).isSome = true →
      (((children side).recordPoll p (agreeing votes bitIndex side)
        (shouldReset side || reset)).1).Replaces p (path ++ [side])
        (((children side).expand (shouldReset side || reset)).poll p (bitIndex + 1)
          (agreeing votes bitIndex side))) :
    (n.recordPoll p votes reset).1.Replaces p path ((n.expand reset).poll p path.length votes) := by
  subst hn
  have hpolled := hs.polled_poll path.length votes
  have hroot := hs.rootFinalized
  obtain ⟨hok, hnf, -⟩ := hs
  obtain ⟨⟨hlen, hlt⟩, hsides⟩ := id h
  rw [hlen, expand, poll_binary _ _ _ _ _ rfl] at hpolled ⊢
  rw [binary_recordPoll _ _ _ _ _ _ hk _ rfl]
  set bit := decide (p.alphaPreference.toNat ≤ (agreeing votes bitIndex true).len)
  by_cases hn : (agreeing votes bitIndex bit).len < p.alphaPreference.toNat
  · rw [if_pos hn, if_pos hn]
    refine replaces_of_eq (m := .binary ..) ⟨⟨hlen, hlt⟩, hsides⟩ rfl ?_ ?_
    · simp only [expand, resetAll, resetAll_expand, Bool.true_or]
      rfl
    · rw [rootFinalized_resetAll]
      exact hnf
  rw [if_neg hn] at hpolled ⊢
  rw [if_neg hn]
  dsimp only
  set snow' := F.binaryRecordPoll (resetBinaryIf reset snow) (agreeing votes bitIndex bit).len bit
    with hsnow'
  have hlenbit : (path ++ [bit]).length = bitIndex + 1 := by simp [hlen]
  -- a finalizing poll decides on the bit it is about
  have hdecide : F.binaryFinalized snow' = true → F.binaryPreference snow' = bit := fun hf ↦ by
    rw [F.preference_of_finalized hf, hsnow', F.binary_slush_recordPoll bit hok (Nat.not_lt.mp hn),
      hnf, if_neg Bool.false_ne_true]
  obtain ⟨hbits, hpref, hchild⟩ := hsides bit
  cases hsome : (children bit).isSome with
  | true =>
    have hc := ih bit hsome
    rw [if_pos rfl]
    set newChild := ((children bit).recordPoll p (agreeing votes bitIndex bit)
      (shouldReset bit || reset)).1
    cases hf : F.binaryFinalized snow' with
    | true =>
      rw [if_pos rfl, Replaces, dropDecided, if_pos hf, hdecide hf, if_pos rfl]
      exact hc
    | false =>
      rw [if_neg Bool.false_ne_true]
      have hshort := hchild.isSome_iff.mp hsome
      have hcf := ((hpolled.2 bit).1 hf).1
      simp only [if_true] at hcf
      obtain ⟨hvalid, hsome', hexp⟩ := hc.in_place hshort hcf
      obtain ⟨hnew0, hnew1⟩ := bits_of_append hshort.le (hvalid.preference_bits hsome')
      rw [hlenbit] at hnew0 hnew1
      refine replaces_of_eq (m := .binary ..) ⟨⟨hlen, hlt⟩, fun side ↦ ?_⟩ rfl ?_ hf
      · by_cases hside : side = bit
        · rw [hside, Function.update_self, Function.update_self]
          exact ⟨hnew0, hnew1, hvalid⟩
        · rw [Function.update_of_ne hside, Function.update_of_ne hside]
          exact hsides side
      · rw [expand]
        congr 1
        funext side
        by_cases hside : side = bit
        · rw [hside, Function.update_self, if_pos rfl, if_pos rfl]
          exact hexp
        · rw [Function.update_of_ne hside, if_neg hside, if_neg hside, resetAll_expand]
          rfl
  | false =>
    rw [if_neg Bool.false_ne_true]
    have hlast : bitIndex + 1 = numBits := by
      have hfull := mt hchild.isSome_iff.mpr (by simp [hsome])
      omega
    have hempty : ∀ side, children side = .empty := fun side ↦
      (hsides side).2.2.eq_empty_iff.mpr (by simp [hlen, hlast])
    cases hf : F.binaryFinalized snow' with
    | true =>
      refine Or.inr ⟨⟨hpolled.1, hf, hempty⟩, ?_⟩
      rw [dropDecided, if_pos hf, hdecide hf, if_pos rfl, hempty, Node.preference, hdecide hf,
        ← hlast, hbits]
      rfl
    | false =>
      refine replaces_of_eq (m := .binary ..) ⟨⟨hlen, hlt⟩, hsides⟩ rfl ?_ hf
      rw [expand]
      congr 1
      funext side
      rw [hempty]
      split_ifs <;> rfl

/-- **Recording a poll commutes with the expansion**, up to the decided bits. -/
theorem Valid.recordPoll (h : n.Valid path) (hn : n.isSome = true)
    (hs : (n.expand reset).Sound p) (hk : votes.len ≤ u32Max)
    (hroute : ∀ id ∈ votes.items, (n.expand reset).Routes id path.length) :
    (n.recordPoll p votes reset).1.Replaces p path ((n.expand reset).poll p path.length votes) := by
  induction n generalizing path votes reset with
  | empty => exact absurd hn Bool.false_ne_true
  | unary preference decidedPrefix commonPrefix snow shouldReset child ih =>
    refine replaces_unary_recordPoll rfl h hs hk hroute fun hsome ↦ ?_
    have hc := ih h.2.2.2.2 hsome hs.of_chain hk fun id hid ↦ ?_
    · rwa [Id.length_bitsFrom] at hc
    · have hr := (routes_chain.mp (hroute id hid)).2
      obtain ⟨⟨hlen, hlt, -⟩, -⟩ := h
      rw [Id.length_bitsFrom, hlen, show decidedPrefix + (commonPrefix - decidedPrefix)
        = commonPrefix by omega] at hr
      rwa [Id.length_bitsFrom]
  | binary preferences bit snow shouldReset children ih =>
    refine replaces_binary_recordPoll rfl h hs hk fun side hsome ↦ ?_
    have hlen := h.1.1
    have hc := ih side (h.2 side).2.2 hsome (hs.2.2 side).2
      ((len_agreeing_le votes bit side).trans hk) fun id hid ↦ ?_
    · rwa [List.length_append, List.length_singleton, hlen] at hc
    · obtain ⟨hmem, hside⟩ := List.mem_filter.mp hid
      have hr := hroute id hmem
      rw [hlen] at hr
      rw [List.length_append, List.length_singleton, hlen]
      rwa [← of_decide_eq_true hside]

end Poll

end Lawful

end Node

end Avalanche
