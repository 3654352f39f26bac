import Avalanche.Snow.Tree

/-!
# What a snowball tree prefers

Two facts a caller relies on, whatever it polls with: every preference cached anywhere in the tree
is one of the added choices, and adding a choice does not move the preference.
-/

namespace Avalanche

namespace Node

variable {F : Factory} {S S' : Id → Prop} {n : Node F} {p : Parameters}

/-- Every preference cached in the node satisfies `S`. -/
def PrefersOnly (S : Id → Prop) : Node F → Prop
  | unary preference _ _ _ _ child => S preference ∧ child.PrefersOnly S
  | binary preferences _ _ _ children =>
    ∀ side, S (preferences side) ∧ (children side).PrefersOnly S
  | empty => True

theorem PrefersOnly.preference (h : n.PrefersOnly S) (hn : n.isSome = true) : S n.preference := by
  cases n with
  | unary => exact h.1
  | binary => exact (h _).1
  | empty => exact absurd hn Bool.false_ne_true

theorem PrefersOnly.mono (h : n.PrefersOnly S) (hS : ∀ id, S id → S' id) : n.PrefersOnly S' := by
  induction n with
  | unary _ _ _ _ _ _ ih => exact ⟨hS _ h.1, ih h.2⟩
  | binary _ _ _ _ _ ih => exact fun side ↦ ⟨hS _ (h side).1, ih side (h side).2⟩
  | empty => trivial

theorem prefersOnly_split {newChoice preference : Id} {decidedPrefix commonPrefix index : ℕ}
    {snow : F.Unary} {shouldReset : Bool} {child : Node F} (hnew : S newChoice)
    (hpref : S preference) (hchild : child.PrefersOnly S) :
    (split p newChoice preference decidedPrefix commonPrefix snow shouldReset child
      index).PrefersOnly S := by
  have hprefs (side bit : Bool) : S (if side = bit then preference else newChoice) :=
    iteInduction (fun _ ↦ hpref) fun _ ↦ hnew
  have hfresh : (newChild p newChoice index : Node F).PrefersOnly S := ⟨hnew, trivial⟩
  have hsides {c d : Node F} (hc : c.PrefersOnly S) (hd : d.PrefersOnly S) (side bit : Bool) :
      (if side = bit then c else d).PrefersOnly S := iteInduction (fun _ ↦ hc) fun _ ↦ hd
  have hother : (if child.isSome = true then newChild p newChoice index
      else (.empty : Node F)).PrefersOnly S := iteInduction (fun _ ↦ hfresh) fun _ ↦ trivial
  have hrest (d : ℕ) : (unary preference d commonPrefix snow shouldReset child).PrefersOnly S :=
    ⟨hpref, hchild⟩
  unfold split
  by_cases h1 : decidedPrefix = commonPrefix - 1
  · rw [if_pos h1]
    exact fun side ↦ ⟨hprefs side _, hsides hchild hother side _⟩
  rw [if_neg h1]
  by_cases h2 : index = decidedPrefix
  · rw [if_pos h2]
    exact fun side ↦ ⟨hprefs side _, hsides (hrest _) hfresh side _⟩
  rw [if_neg h2]
  by_cases h3 : index = commonPrefix - 1
  · rw [if_pos h3]
    exact ⟨hpref, fun side ↦ ⟨hprefs side _, hsides hchild hother side _⟩⟩
  · rw [if_neg h3]
    exact ⟨hpref, fun side ↦ ⟨hprefs side _, hsides (hrest _) hfresh side _⟩⟩

theorem PrefersOnly.add (h : n.PrefersOnly S) {id : Id} (hid : S id) :
    (n.add p id).PrefersOnly S := by
  induction n with
  | unary preference decidedPrefix commonPrefix snow shouldReset child ih =>
    rw [Node.add]
    split_ifs
    · exact h
    · split
      · exact ⟨h.1, ih h.2⟩
      · exact prefersOnly_split hid h.1 h.2
  | binary preferences bit snow shouldReset children ih =>
    intro side
    refine ⟨(h side).1, ?_⟩
    dsimp only
    split_ifs
    · exact ih side (h side).2
    · exact (h side).2
  | empty => trivial

theorem isSome_split {newChoice preference : Id} {decidedPrefix commonPrefix index : ℕ}
    {snow : F.Unary} {shouldReset : Bool} {child : Node F} :
    (split p newChoice preference decidedPrefix commonPrefix snow shouldReset child index).isSome
      = true := by
  unfold split
  split_ifs <;> rfl

theorem isSome_add (hn : n.isSome = true) (id : Id) : (n.add p id).isSome = true := by
  cases n with
  | unary =>
    rw [Node.add]
    split_ifs
    · rfl
    · split
      · rfl
      · exact isSome_split
  | binary => rfl
  | empty => exact hn

/-- A poll leaves a node in place of a node, and only moves cached preferences around. -/
theorem PrefersOnly.recordPoll (h : n.PrefersOnly S) (hn : n.isSome = true) (votes : Bag Id)
    (reset : Bool) :
    (n.recordPoll p votes reset).1.PrefersOnly S ∧
      (n.recordPoll p votes reset).1.isSome = true := by
  induction n generalizing votes reset with
  | unary preference decidedPrefix commonPrefix snow shouldReset child ih =>
    rw [Node.recordPoll]
    generalize (if reset = true then F.unaryRecordUnsuccessfulPoll snow else snow) = snow'
    by_cases h1 : saturatingU32 votes.len < p.alphaPreference.toNat
    · rw [if_pos h1]
      exact ⟨h, rfl⟩
    rw [if_neg h1]
    by_cases h2 : child.isSome = true
    · rw [if_pos h2]
      obtain ⟨hchild, hsome⟩ := ih h.2 h2 votes (shouldReset || reset)
      split
      · exact ⟨hchild, hsome⟩
      · exact ⟨⟨hchild.preference hsome, hchild⟩, rfl⟩
    · rw [if_neg h2]
      exact ⟨h, rfl⟩
  | binary preferences bitIndex snow shouldReset children ih =>
    rw [Node.recordPoll]
    generalize (if reset = true then F.binaryRecordUnsuccessfulPoll snow else snow) = snow'
    set bit := decide (saturatingU32 (votes.filter fun id ↦ id.bit bitIndex).len
      ≥ p.alphaPreference.toNat)
    set flags := Function.update
      (if reset then Function.update shouldReset bit true else shouldReset) (!bit) true
    set pruned := if bit then votes.filter fun id ↦ id.bit bitIndex
      else votes.filter fun id ↦ !id.bit bitIndex
    by_cases h1 : saturatingU32 pruned.len < p.alphaPreference.toNat
    · rw [if_pos h1]
      exact ⟨h, rfl⟩
    rw [if_neg h1]
    by_cases h2 : (children bit).isSome = true
    · rw [if_pos h2]
      obtain ⟨hchild, hsome⟩ := ih bit (h bit).2 h2 pruned (flags bit)
      split
      · exact ⟨hchild, hsome⟩
      · refine ⟨fun side ↦ ?_, rfl⟩
        by_cases hside : side = bit
        · rw [hside, Function.update_self, Function.update_self]
          exact ⟨hchild.preference hsome, hchild⟩
        · rw [Function.update_of_ne hside, Function.update_of_ne hside]
          exact h side
    · rw [if_neg h2]
      exact ⟨h, rfl⟩
  | empty => exact absurd hn Bool.false_ne_true

end Node

namespace Node

variable {F : LawfulFactory} {p : Parameters}

/-- Adding a choice does not move the preference. -/
theorem preference_add (n : Node F) (id : Id) : (n.add p id).preference = n.preference := by
  cases n with
  | unary preference decidedPrefix commonPrefix snow shouldReset child =>
    rw [Node.add]
    split_ifs
    · rfl
    · split
      · rfl
      · unfold split
        split_ifs <;> simp [Node.preference, F.preference_extend]
  | binary => rfl
  | empty => rfl

end Node

namespace Tree

section Factory

variable {F : Factory} {S : Id → Prop} {t : Tree F}

/-- The tree holds a choice, and prefers only choices that satisfy `S`. -/
def PrefersOnly (S : Id → Prop) (t : Tree F) : Prop := t.node.PrefersOnly S ∧ t.node.isSome = true

theorem PrefersOnly.preference (h : t.PrefersOnly S) : S t.preference :=
  Node.PrefersOnly.preference h.1 h.2

theorem PrefersOnly.mono {S' : Id → Prop} (h : t.PrefersOnly S) (hS : ∀ id, S id → S' id) :
    t.PrefersOnly S' := ⟨Node.PrefersOnly.mono h.1 hS, h.2⟩

theorem prefersOnly_new {p : Parameters} {choice : Id} (h : S choice) :
    (Tree.new F p choice).PrefersOnly S := ⟨⟨h, trivial⟩, rfl⟩

theorem PrefersOnly.add (h : t.PrefersOnly S) {choice : Id} (hc : S choice) :
    (t.add choice).PrefersOnly S := by
  rw [Tree.add]
  split_ifs
  · exact ⟨Node.PrefersOnly.add h.1 hc, Node.isSome_add h.2 choice⟩
  · exact h

theorem PrefersOnly.recordPoll (h : t.PrefersOnly S) (votes : Bag Id) :
    (t.recordPoll votes).1.PrefersOnly S := Node.PrefersOnly.recordPoll h.1 h.2 _ _

theorem PrefersOnly.recordUnsuccessfulPoll (h : t.PrefersOnly S) :
    t.recordUnsuccessfulPoll.PrefersOnly S := h

@[simp] theorem params_add (t : Tree F) (choice : Id) : (t.add choice).params = t.params := by
  rw [Tree.add]
  split_ifs <;> rfl

@[simp] theorem params_recordPoll (t : Tree F) (votes : Bag Id) :
    (t.recordPoll votes).1.params = t.params := rfl

end Factory

/-- Adding a choice does not move the preference. -/
theorem preference_add {F : LawfulFactory} (t : Tree F) (choice : Id) :
    (t.add choice).preference = t.preference := by
  rw [Tree.add]
  split_ifs
  · exact Node.preference_add _ _
  · rfl

end Tree

end Avalanche
