import Avalanche.Types.Id
import Avalanche.Utils.Bag
import Avalanche.Snow.Factory

/-!
# The plain bit trie

What the snowball tree is meant to compute, without compression and without deferred resets: one
snow instance for every undecided bit position of every added choice. A position where the added
choices agree has a unary instance, a position where they part a binary one. A poll gives each
instance the votes that agree with the path leading to it; every instance that misses the
preference threshold is reset at once.

`Reference` adds the bits already decided. Choices and votes that disagree with them are ignored,
and finalized instances at the root move their bit there.

The second half shows what keeps finalization in order. An instance counts a subset of the polls
its parent counts, so along every path the confidence does not grow (`Sound`) and no instance
finalizes before the one above it (`Polled`).
-/

namespace Avalanche

/-- One instance per undecided bit. -/
inductive BitTrie (F : Factory) where
  | leaf
  | unary (bit : Bool) (snow : F.Unary) (child : BitTrie F)
  | binary (snow : F.Binary) (children : Bool → BitTrie F)

namespace BitTrie

section Definitions

variable {F : Factory}

/-- One copy of `snow` for each of the bits, above `t`. -/
def chain (bits : List Bool) (snow : F.Unary) (t : BitTrie F) : BitTrie F :=
  bits.foldr (fun bit child ↦ .unary bit snow child) t

/-- The instances of a choice that nothing else shares, from bit `d` on. -/
def fresh (params : Parameters) (id : Id) (d : ℕ) : BitTrie F :=
  chain (id.bitsFrom d (numBits - d)) (F.newUnary params) .leaf

/-- The bits of the preferred choice below this position. -/
def preferred : BitTrie F → List Bool
  | leaf => []
  | unary bit _ child => bit :: child.preferred
  | binary snow children =>
    F.binaryPreference snow :: (children (F.binaryPreference snow)).preferred

/-- Resets every instance. -/
def resetAll : BitTrie F → BitTrie F
  | leaf => .leaf
  | unary bit snow child => .unary bit (F.unaryRecordUnsuccessfulPoll snow) child.resetAll
  | binary snow children =>
    .binary (F.binaryRecordUnsuccessfulPoll snow) fun side ↦ (children side).resetAll

/-- Adds the instances of `id` below bit `d`. -/
def add (params : Parameters) (id : Id) : ℕ → BitTrie F → BitTrie F
  | _, leaf => .leaf
  | d, unary bit snow child =>
    if id.bit d = bit then .unary bit snow (child.add params id (d + 1))
    else .binary (F.extend snow bit) fun side ↦
      if side = bit then child else fresh params id (d + 1)
  | d, binary snow children =>
    .binary snow fun side ↦
      if side = id.bit d then (children side).add params id (d + 1) else children side

/-- The votes that have bit `side` at position `d`. -/
def agreeing (votes : Bag Id) (d : ℕ) (side : Bool) : Bag Id :=
  votes.filter fun id ↦ id.bit d = side

/-- Gives every instance below bit `d` the votes that agree with the path to it. -/
def poll (params : Parameters) : ℕ → BitTrie F → Bag Id → BitTrie F
  | _, leaf, _ => .leaf
  | d, unary bit snow child, votes =>
    let votes := agreeing votes d bit
    if votes.len < params.alphaPreference.toNat then resetAll (.unary bit snow child)
    else .unary bit (F.unaryRecordPoll snow votes.len) (child.poll params (d + 1) votes)
  | d, binary snow children, votes =>
    if params.alphaPreference.toNat ≤ (agreeing votes d true).len then
      .binary (F.binaryRecordPoll snow (agreeing votes d true).len true) fun side ↦
        if side then (children side).poll params (d + 1) (agreeing votes d side)
        else (children side).resetAll
    else if params.alphaPreference.toNat ≤ (agreeing votes d false).len then
      .binary (F.binaryRecordPoll snow (agreeing votes d false).len false) fun side ↦
        if side then (children side).resetAll
        else (children side).poll params (d + 1) (agreeing votes d side)
    else resetAll (.binary snow children)

/-- Whether the first instance is finalized. -/
def rootFinalized : BitTrie F → Bool
  | leaf => false
  | unary _ snow _ => F.unaryFinalized snow
  | binary snow _ => F.binaryFinalized snow

/-- Moves the bits of finalized instances at the root to the decided bits. -/
def dropDecided : List Bool → BitTrie F → List Bool × BitTrie F
  | decided, leaf => (decided, .leaf)
  | decided, unary bit snow child =>
    if F.unaryFinalized snow then dropDecided (decided ++ [bit]) child
    else (decided, .unary bit snow child)
  | decided, binary snow children =>
    if F.binaryFinalized snow then
      dropDecided (decided ++ [F.binaryPreference snow]) (children (F.binaryPreference snow))
    else (decided, .binary snow children)

/-- The instances on the path of `id` from bit `d` on are all there. -/
def Routes (id : Id) : ℕ → BitTrie F → Prop
  | _, leaf => True
  | d, unary bit _ child => id.bit d = bit ∧ child.Routes id (d + 1)
  | d, binary _ children => (children (id.bit d)).Routes id (d + 1)

end Definitions

end BitTrie

/-- The bit trie together with the bits decided so far. -/
structure Reference (F : Factory) where
  /-- The decided bits, from bit `0` on. -/
  decided : List Bool
  /-- One instance per undecided bit position. -/
  trie : BitTrie F
  /-- The configuration applied to every instance. -/
  params : Parameters

namespace Reference

variable {F : Factory}

/-- A reference trie initially holding `choice` alone. -/
def new (F : Factory) (params : Parameters) (choice : Id) : Reference F :=
  ⟨[], BitTrie.fresh params choice 0, params⟩

/-- Whether `id` has the decided bits. -/
def agrees (decided : List Bool) (id : Id) : Bool := id.bitsFrom 0 decided.length == decided

def preference (r : Reference F) : Id := Id.ofBits (r.decided ++ r.trie.preferred)

/-- Every bit is decided. -/
def finalized (r : Reference F) : Bool := r.decided.length == numBits

def add (r : Reference F) (choice : Id) : Reference F :=
  if agrees r.decided choice then
    { r with trie := r.trie.add r.params choice r.decided.length }
  else r

def recordPoll (r : Reference F) (votes : Bag Id) : Reference F :=
  let polled := r.trie.poll r.params r.decided.length (votes.filter (agrees r.decided))
  let (decided, trie) := polled.dropDecided r.decided
  { r with decided := decided, trie := trie }

def recordUnsuccessfulPoll (r : Reference F) : Reference F := { r with trie := r.trie.resetAll }

end Reference

namespace BitTrie

/-! ## Chains -/

section Chains

variable {F : Factory}
variable {bits : List Bool} {d : ℕ} {params : Parameters} {votes : Bag Id} {bit : Bool} {id : Id}

@[simp] theorem chain_nil (snow : F.Unary) (t : BitTrie F) : chain [] snow t = t := rfl

@[simp] theorem chain_cons (bit : Bool) (bits : List Bool) (snow : F.Unary) (t : BitTrie F) :
    chain (bit :: bits) snow t = .unary bit snow (chain bits snow t) := rfl

theorem chain_append (xs ys : List Bool) (snow : F.Unary) (t : BitTrie F) :
    chain (xs ++ ys) snow t = chain xs snow (chain ys snow t) := by
  simp [chain, List.foldr_append]

@[simp] theorem preferred_chain (bits : List Bool) (snow : F.Unary) (t : BitTrie F) :
    (chain bits snow t).preferred = bits ++ t.preferred := by
  induction bits with
  | nil => rfl
  | cons bit bits ih => simp [preferred, ih]

@[simp] theorem resetAll_chain (bits : List Bool) (snow : F.Unary) (t : BitTrie F) :
    (chain bits snow t).resetAll = chain bits (F.unaryRecordUnsuccessfulPoll snow) t.resetAll := by
  induction bits with
  | nil => rfl
  | cons bit bits ih => simp [resetAll, ih]

theorem routes_chain {snow : F.Unary} {t : BitTrie F} :
    (chain bits snow t).Routes id d ↔
      id.bitsFrom d bits.length = bits ∧ t.Routes id (d + bits.length) := by
  induction bits generalizing d with
  | nil => simp
  | cons bit bits ih =>
    rw [chain_cons, Routes, ih, List.length_cons, Id.bitsFrom_succ, List.cons.injEq, and_assoc,
      show d + 1 + bits.length = d + (bits.length + 1) by omega]

theorem add_chain_of_eq
    (h : id.bitsFrom d bits.length = bits) (snow : F.Unary) (t : BitTrie F) :
    (chain bits snow t).add params id d = chain bits snow (t.add params id (d + bits.length)) := by
  induction bits generalizing d with
  | nil => rfl
  | cons bit bits ih =>
    rw [List.length_cons, Id.bitsFrom_succ, List.cons.injEq] at h
    rw [chain_cons, add, if_pos h.1, ih h.2, List.length_cons, chain_cons,
      show d + 1 + bits.length = d + (bits.length + 1) by omega]

/-- Adding a choice that leaves the chain after the bits `xs`. -/
theorem add_chain_of_ne {xs : List Bool}
    (h : id.bitsFrom d xs.length = xs) (hne : id.bit (d + xs.length) ≠ bit) (ys : List Bool)
    (snow : F.Unary) (t : BitTrie F) :
    (chain (xs ++ bit :: ys) snow t).add params id d
      = chain xs snow (.binary (F.extend snow bit) fun side ↦
          if side = bit then chain ys snow t else fresh params id (d + xs.length + 1)) := by
  rw [chain_append, add_chain_of_eq h, chain_cons, add, if_neg hne]

theorem dropDecided_chain {snow : F.Unary} (hf : F.unaryFinalized snow = true)
    (decided bits : List Bool) (t : BitTrie F) :
    (chain bits snow t).dropDecided decided = t.dropDecided (decided ++ bits) := by
  induction bits generalizing decided with
  | nil => simp
  | cons bit bits ih => rw [chain_cons, dropDecided, if_pos hf, ih, List.append_assoc]; rfl

theorem dropDecided_of_not_rootFinalized {t : BitTrie F} (h : t.rootFinalized = false)
    (decided : List Bool) : t.dropDecided decided = (decided, t) := by
  cases t with
  | leaf => rfl
  | unary bit snow child => rw [dropDecided, if_neg (by simpa [rootFinalized] using h)]
  | binary snow children => rw [dropDecided, if_neg (by simpa [rootFinalized] using h)]

theorem len_agreeing_le (votes : Bag Id) (d : ℕ) (side : Bool) :
    (agreeing votes d side).len ≤ votes.len := Bag.len_filter_le _ _

theorem agreeing_eq_self
    (h : ∀ id ∈ votes.items, id.bit d = bit) : agreeing votes d bit = votes :=
  Bag.filter_eq_self fun id hid ↦ by simpa using h id hid

/-- A poll whose votes all follow a chain reaches every instance of it with the same count. -/
theorem poll_chain (h : ∀ id ∈ votes.items, id.bitsFrom d bits.length = bits)
    (hn : params.alphaPreference.toNat ≤ votes.len) (snow : F.Unary) (t : BitTrie F) :
    (chain bits snow t).poll params d votes
      = chain bits (F.unaryRecordPoll snow votes.len) (t.poll params (d + bits.length) votes) := by
  induction bits generalizing d with
  | nil => rfl
  | cons bit bits ih =>
    simp only [List.length_cons, Id.bitsFrom_succ, List.cons.injEq] at h
    rw [chain_cons, poll]
    simp only [agreeing_eq_self fun id hid ↦ (h id hid).1]
    rw [if_neg (by omega), ih fun id hid ↦ (h id hid).2, chain_cons, List.length_cons,
      show d + 1 + bits.length = d + (bits.length + 1) by omega]

/-- A poll below the threshold resets the whole subtrie. -/
theorem poll_of_lt
    (hn : votes.len < params.alphaPreference.toNat) (d : ℕ) (t : BitTrie F) :
    t.poll params d votes = t.resetAll := by
  have hlt (side : Bool) : (agreeing votes d side).len < params.alphaPreference.toNat :=
    lt_of_le_of_lt (len_agreeing_le _ _ _) hn
  cases t with
  | leaf => rfl
  | unary bit snow child => rw [poll, if_pos (hlt _)]
  | binary snow children =>
    rw [poll, if_neg (Nat.not_le.mpr (hlt true)), if_neg (Nat.not_le.mpr (hlt false))]

/-- The two ways a poll can go at a binary instance, with the bit it is about made explicit. -/
theorem poll_binary (params : Parameters) (d : ℕ) (snow : F.Binary) (children : Bool → BitTrie F)
    (votes : Bag Id)
    (hbit : bit = decide (params.alphaPreference.toNat ≤ (agreeing votes d true).len)) :
    (binary snow children).poll params d votes
      = if (agreeing votes d bit).len < params.alphaPreference.toNat then
          resetAll (.binary snow children)
        else .binary (F.binaryRecordPoll snow (agreeing votes d bit).len bit) fun side ↦
          if side = bit then (children side).poll params (d + 1) (agreeing votes d side)
          else (children side).resetAll := by
  rw [poll]
  by_cases h1 : params.alphaPreference.toNat ≤ (agreeing votes d true).len
  · rw [if_pos h1, hbit, decide_eq_true h1, if_neg (Nat.not_lt.mpr h1)]
  · rw [if_neg h1, hbit, decide_eq_false h1]
    by_cases h0 : params.alphaPreference.toNat ≤ (agreeing votes d false).len
    · rw [if_pos h0, if_neg (Nat.not_lt.mpr h0)]
      congr 1
      funext side
      cases side <;> simp
    · rw [if_neg h0, if_pos (Nat.lt_of_not_le h0)]

end Chains

/-! ## Resets -/

section Lawful

variable {F : LawfulFactory}
variable {id : Id} {t : BitTrie F} {p : Parameters} {d : ℕ}

@[simp] theorem resetAll_resetAll (t : BitTrie F) : t.resetAll.resetAll = t.resetAll := by
  induction t with
  | leaf => rfl
  | unary bit snow child ih => simp [resetAll, F.unary_reset_reset, ih]
  | binary snow children ih => simp [resetAll, F.binary_reset_reset, ih]

@[simp] theorem preferred_resetAll (t : BitTrie F) :
    t.resetAll.preferred = t.preferred := by
  induction t with
  | leaf => rfl
  | unary bit snow child ih => simp [resetAll, preferred, ih]
  | binary snow children ih => simp [resetAll, preferred, F.binary_preference_reset, ih]

@[simp] theorem rootFinalized_resetAll (t : BitTrie F) :
    t.resetAll.rootFinalized = t.rootFinalized := by
  cases t with
  | leaf => rfl
  | unary bit snow child => exact F.unary_finalized_reset snow
  | binary snow children => exact F.binary_finalized_reset snow

@[simp] theorem routes_resetAll :
    t.resetAll.Routes id d ↔ t.Routes id d := by
  induction t generalizing d with
  | leaf => rfl
  | unary bit snow child ih => simp [resetAll, Routes, ih]
  | binary snow children ih => simp [resetAll, Routes, ih]

/-! ## Confidence along a path -/

/-- The confidence of the first instance. -/
def confidence : BitTrie F → ℕ
  | leaf => 0
  | unary _ snow _ => F.unaryConfidence snow
  | binary snow _ => F.binaryConfidence snow

/-- The confidence a binary instance lends to one of its sides. -/
def sideConfidence (F : LawfulFactory) (snow : F.Binary) (side : Bool) : ℕ :=
  if F.slush snow = side then F.binaryConfidence snow else 0

theorem sideConfidence_le (snow : F.Binary) (side : Bool) :
    sideConfidence F snow side ≤ F.binaryConfidence snow := by
  rw [sideConfidence]
  split_ifs
  · exact le_rfl
  · exact Nat.zero_le _

/-- No instance is finalized, and none is more confident than the one above it. -/
def Sound (p : Parameters) : BitTrie F → Prop
  | leaf => True
  | unary _ snow child =>
    F.UnaryOk p snow ∧ F.unaryFinalized snow = false ∧
      child.confidence ≤ F.unaryConfidence snow ∧ child.Sound p
  | binary snow children =>
    F.BinaryOk p snow ∧ F.binaryFinalized snow = false ∧
      ∀ side, (children side).confidence ≤ sideConfidence F snow side ∧ (children side).Sound p

/-- What a poll of a sound trie leaves: instances finalize from the root on. -/
def Polled (p : Parameters) : BitTrie F → Prop
  | leaf => True
  | unary _ snow child =>
    F.UnaryOk p snow ∧
      (F.unaryFinalized snow = false →
        child.rootFinalized = false ∧ child.confidence ≤ F.unaryConfidence snow) ∧
      child.Polled p
  | binary snow children =>
    F.BinaryOk p snow ∧
      ∀ side, (F.binaryFinalized snow = false → (children side).rootFinalized = false ∧
        (children side).confidence ≤ sideConfidence F snow side) ∧ (children side).Polled p

theorem Sound.rootFinalized (h : t.Sound p) :
    t.rootFinalized = false := by
  cases t with
  | leaf => rfl
  | unary bit snow child => exact h.2.1
  | binary snow children => exact h.2.1

theorem Sound.of_chain {bits : List Bool} {snow : F.Unary}
    (h : (chain bits snow t).Sound p) : t.Sound p := by
  induction bits with
  | nil => exact h
  | cons bit bits ih => exact ih h.2.2.2

theorem Polled.of_chain {bits : List Bool} {snow : F.Unary}
    (h : (chain bits snow t).Polled p) (hbits : bits ≠ [])
    (hf : F.unaryFinalized snow = false) : t.rootFinalized = false := by
  induction bits with
  | nil => exact absurd rfl hbits
  | cons bit bits ih =>
    obtain ⟨-, hlow, hchild⟩ := h
    cases bits with
    | nil => exact (hlow hf).1
    | cons bit' bits => exact ih hchild (by simp)

theorem confidence_resetAll (t : BitTrie F) : t.resetAll.confidence = 0 := by
  cases t with
  | leaf => rfl
  | unary bit snow child => exact F.unary_confidence_reset snow
  | binary snow children => exact F.binary_confidence_reset snow

theorem Sound.resetAll (h : t.Sound p) :
    t.resetAll.Sound p := by
  induction t with
  | leaf => trivial
  | unary bit snow child ih =>
    obtain ⟨hok, hf, -, hchild⟩ := h
    refine ⟨F.unary_reset_ok hok, by rw [F.unary_finalized_reset, hf], ?_, ih hchild⟩
    rw [confidence_resetAll]
    exact Nat.zero_le _
  | binary snow children ih =>
    obtain ⟨hok, hf, hchildren⟩ := h
    refine ⟨F.binary_reset_ok hok, by rw [F.binary_finalized_reset, hf], fun side ↦ ⟨?_, ?_⟩⟩
    · rw [confidence_resetAll]
      exact Nat.zero_le _
    · exact ih side (hchildren side).2

theorem Sound.polled (h : t.Sound p) : t.Polled p := by
  induction t with
  | leaf => trivial
  | unary bit snow child ih =>
    obtain ⟨hok, hf, hconf, hchild⟩ := h
    exact ⟨hok, fun _ ↦ ⟨hchild.rootFinalized, hconf⟩, ih hchild⟩
  | binary snow children ih =>
    obtain ⟨hok, hf, hchildren⟩ := h
    exact ⟨hok, fun side ↦ ⟨fun _ ↦ ⟨(hchildren side).2.rootFinalized, (hchildren side).1⟩,
      ih side (hchildren side).2⟩⟩

/-- As long as the first instance is not finalized, none is. -/
theorem Polled.sound (h : t.Polled p) (hf : t.rootFinalized = false) : t.Sound p := by
  induction t with
  | leaf => trivial
  | unary bit snow child ih =>
    obtain ⟨hok, hlow, hchild⟩ := h
    obtain ⟨hcf, hconf⟩ := hlow hf
    exact ⟨hok, hf, hconf, ih hchild hcf⟩
  | binary snow children ih =>
    obtain ⟨hok, hchildren⟩ := h
    refine ⟨hok, hf, fun side ↦ ?_⟩
    obtain ⟨hlow, hchild⟩ := hchildren side
    obtain ⟨hcf, hconf⟩ := hlow hf
    exact ⟨hconf, ih side hchild hcf⟩

theorem Polled.sound_dropDecided (h : t.Polled p)
    (decided : List Bool) : (t.dropDecided decided).2.Sound p := by
  induction t generalizing decided with
  | leaf => trivial
  | unary bit snow child ih =>
    rw [dropDecided]
    split_ifs with hf
    · exact ih h.2.2 _
    · exact h.sound (Bool.eq_false_of_not_eq_true hf)
  | binary snow children ih =>
    rw [dropDecided]
    split_ifs with hf
    · exact ih _ (h.2 _).2 _
    · exact h.sound (Bool.eq_false_of_not_eq_true hf)

/-- What a poll with `n` votes does to the first instance: it finalizes only with a confident poll
that completes `beta`, and otherwise its confidence grows by at most that poll. -/
def RootStep (p : Parameters) (n : ℕ) (t t' : BitTrie F) : Prop :=
  (t'.rootFinalized = true → p.alphaConfidence.toNat ≤ n ∧ p.beta.toNat ≤ t.confidence + 1) ∧
    (t'.rootFinalized = false →
      t'.confidence ≤ if p.alphaConfidence.toNat ≤ n then t.confidence + 1 else 0)

theorem Sound.rootStep_resetAll (h : t.Sound p) (n : ℕ) : RootStep p n t t.resetAll := by
  rw [RootStep, rootFinalized_resetAll, h.rootFinalized, confidence_resetAll]
  exact ⟨fun hf ↦ absurd hf Bool.false_ne_true, fun _ ↦ Nat.zero_le _⟩

/-- The instance at the root counts the poll from a counter that is at most its own. -/
theorem Sound.rootStep_of (h : t.Sound p) {t' : BitTrie F} {n n' c : ℕ} (hn : n' ≤ n)
    (hc : c ≤ t.confidence)
    (hfin : t'.rootFinalized = true → t.rootFinalized = true ∨
      (p.alphaConfidence.toNat ≤ n' ∧ p.beta.toNat ≤ c + 1))
    (hconf : t'.confidence = if p.alphaConfidence.toNat ≤ n' then c + 1 else 0) :
    RootStep p n t t' := by
  constructor
  · intro hfin'
    obtain hold | ⟨h1, h2⟩ := hfin hfin'
    · cases h.rootFinalized.symm.trans hold
    · exact ⟨h1.trans hn, by omega⟩
  · intro _
    rw [hconf]
    split_ifs <;> omega

theorem Sound.rootStep_poll (h : t.Sound p) (d : ℕ)
    (votes : Bag Id) : RootStep p votes.len t (t.poll p d votes) := by
  cases t with
  | leaf => exact h.rootStep_resetAll _
  | unary bit snow child =>
    obtain ⟨hok, hf, -⟩ := id h
    rw [poll]
    split_ifs
    · exact h.rootStep_resetAll _
    · exact h.rootStep_of (len_agreeing_le votes d bit) le_rfl
        (F.unary_finalized_recordPoll _ hok).mp (F.unary_confidence_recordPoll _ hok hf)
  | binary snow children =>
    obtain ⟨hok, hf, -⟩ := id h
    rw [poll_binary _ _ _ _ _ rfl]
    set bit := decide (p.alphaPreference.toNat ≤ (agreeing votes d true).len)
    split_ifs with hn
    · exact h.rootStep_resetAll _
    · have hn' := Nat.not_lt.mp hn
      exact h.rootStep_of (len_agreeing_le votes d bit) (sideConfidence_le snow bit)
        (F.binary_finalized_recordPoll bit hok hn').mp
        (F.binary_confidence_recordPoll bit hok hn' hf)

/-- An instance below one with counter `c` stays behind it if that one does not finalize. -/
theorem RootStep.below {t' : BitTrie F} {n c : ℕ} (h : RootStep p n t t') (hc : t.confidence ≤ c)
    (hnot : ¬ (p.alphaConfidence.toNat ≤ n ∧ p.beta.toNat ≤ c + 1)) :
    t'.rootFinalized = false ∧
      t'.confidence ≤ if p.alphaConfidence.toNat ≤ n then c + 1 else 0 := by
  have hf : t'.rootFinalized = false := by
    rw [Bool.eq_false_iff]
    intro hf
    obtain ⟨h1, h2⟩ := h.1 hf
    exact hnot ⟨h1, by omega⟩
  refine ⟨hf, (h.2 hf).trans ?_⟩
  split_ifs <;> omega

/-- **Finalization goes from the root down.** -/
theorem Sound.polled_poll (h : t.Sound p) (d : ℕ)
    (votes : Bag Id) : (t.poll p d votes).Polled p := by
  induction t generalizing d votes with
  | leaf => trivial
  | unary bit snow child ih =>
    obtain ⟨hok, hf, hconf, hchild⟩ := id h
    rw [poll]
    by_cases hn : (agreeing votes d bit).len < p.alphaPreference.toNat
    · rw [if_pos hn]
      exact h.resetAll.polled
    · rw [if_neg hn]
      refine ⟨F.unary_recordPoll_ok _ hok, fun hnot ↦ ?_, ih hchild _ _⟩
      rw [Bool.eq_false_iff, Ne, F.unary_finalized_recordPoll _ hok, not_or] at hnot
      rw [F.unary_confidence_recordPoll _ hok hf]
      exact (hchild.rootStep_poll _ _).below hconf hnot.2
  | binary snow children ih =>
    obtain ⟨hok, hf, hchildren⟩ := id h
    rw [poll_binary _ _ _ _ _ rfl]
    set bit := decide (p.alphaPreference.toNat ≤ (agreeing votes d true).len)
    by_cases hn : (agreeing votes d bit).len < p.alphaPreference.toNat
    · rw [if_pos hn]
      exact h.resetAll.polled
    · rw [if_neg hn]
      have hn' := Nat.not_lt.mp hn
      refine ⟨F.binary_recordPoll_ok _ _ hok, fun side ↦ ?_⟩
      obtain ⟨hconf, hchild⟩ := hchildren side
      dsimp only
      by_cases hside : side = bit
      · subst hside
        rw [if_pos rfl]
        refine ⟨fun hnot ↦ ?_, ih bit hchild _ _⟩
        rw [Bool.eq_false_iff, Ne, F.binary_finalized_recordPoll bit hok hn', not_or] at hnot
        rw [sideConfidence, F.binary_slush_recordPoll bit hok hn', hf, if_neg Bool.false_ne_true,
          if_pos rfl, F.binary_confidence_recordPoll bit hok hn' hf]
        exact (hchild.rootStep_poll _ _).below hconf hnot.2
      · rw [if_neg hside]
        refine ⟨fun _ ↦ ⟨?_, ?_⟩, hchild.resetAll.polled⟩
        · rw [rootFinalized_resetAll, hchild.rootFinalized]
        · rw [confidence_resetAll]
          exact Nat.zero_le _

/-! ## Adding a choice -/

theorem confidence_newUnary (p : Parameters) : F.unaryConfidence (F.newUnary p) = 0 := by
  rw [← F.reset_newUnary, F.unary_confidence_reset]

theorem sound_chain_newUnary (hp : p.Verified) (bits : List Bool) :
    (chain bits (F.newUnary p) .leaf : BitTrie F).Sound p ∧
      (chain bits (F.newUnary p) .leaf : BitTrie F).confidence = 0 := by
  induction bits with
  | nil => exact ⟨trivial, rfl⟩
  | cons bit bits ih =>
    have hle := ih.2.le.trans (Nat.zero_le (F.unaryConfidence (F.newUnary p)))
    exact ⟨⟨F.newUnary_ok hp, F.finalized_newUnary p, hle, ih.1⟩, confidence_newUnary p⟩

@[simp] theorem preferred_add (p : Parameters) (id : Id) (d : ℕ) (t : BitTrie F) :
    (t.add p id d).preferred = t.preferred := by
  induction t generalizing d with
  | leaf => rfl
  | unary bit snow child ih =>
    rw [add]
    split_ifs
    · rw [preferred, preferred, ih]
    · simp [preferred, F.preference_extend]
  | binary snow children ih =>
    simp only [add, preferred]
    split_ifs <;> simp [ih]

theorem confidence_add (p : Parameters) (id : Id) (d : ℕ) (t : BitTrie F) :
    (t.add p id d).confidence = t.confidence := by
  cases t with
  | leaf => rfl
  | unary bit snow child =>
    rw [add]
    split_ifs
    · rfl
    · exact F.confidence_extend snow bit
  | binary snow children => rfl

theorem Sound.add (hp : p.Verified) (h : t.Sound p) (id : Id) (d : ℕ) : (t.add p id d).Sound p := by
  induction t generalizing d with
  | leaf => trivial
  | unary bit snow child ih =>
    obtain ⟨hok, hf, hconf, hchild⟩ := h
    rw [BitTrie.add]
    split_ifs
    · exact ⟨hok, hf, by rwa [confidence_add], ih hchild _⟩
    · refine ⟨F.extend_ok bit hok, by rw [F.finalized_extend, hf], fun side ↦ ?_⟩
      rw [sideConfidence, F.slush_extend, F.confidence_extend]
      dsimp only
      by_cases hside : side = bit
      · rw [if_pos hside, if_pos hside.symm]
        exact ⟨hconf, hchild⟩
      · rw [if_neg hside, if_neg (Ne.symm hside)]
        obtain ⟨hsound, hzero⟩ := sound_chain_newUnary hp (id.bitsFrom (d + 1) (numBits - (d + 1)))
        exact ⟨hzero.le, hsound⟩
  | binary snow children ih =>
    obtain ⟨hok, hf, hchildren⟩ := h
    refine ⟨hok, hf, fun side ↦ ?_⟩
    dsimp only
    split_ifs
    · exact ⟨by rw [confidence_add]; exact (hchildren side).1, ih side (hchildren side).2 _⟩
    · exact hchildren side

theorem routes_fresh (p : Parameters) (id : Id) (d : ℕ) :
    (fresh p id d : BitTrie F).Routes id d :=
  routes_chain.mpr ⟨by simp, trivial⟩

theorem routes_add_self (p : Parameters) (id : Id) (d : ℕ) (t : BitTrie F) :
    (t.add p id d).Routes id d := by
  induction t generalizing d with
  | leaf => trivial
  | unary bit snow child ih =>
    rw [add]
    split_ifs with hbit
    · exact ⟨hbit, ih _⟩
    · simp only [Routes, if_neg hbit]
      exact routes_fresh _ _ _
  | binary snow children ih =>
    simp only [add, Routes, if_true]
    exact ih _ _

theorem Routes.add (h : t.Routes id d) (id' : Id) : (t.add p id' d).Routes id d := by
  induction t generalizing d with
  | leaf => trivial
  | unary bit snow child ih =>
    obtain ⟨hbit, hchild⟩ := h
    rw [BitTrie.add]
    split_ifs
    · exact ⟨hbit, ih hchild⟩
    · simpa only [Routes, if_pos hbit] using hchild
  | binary snow children ih =>
    simp only [BitTrie.add, Routes]
    split_ifs
    · exact ih _ h
    · exact h

/-! ## Routing through a poll -/

theorem routes_poll {votes : Bag Id} :
    (t.poll p d votes).Routes id d ↔ t.Routes id d := by
  induction t generalizing d votes with
  | leaf => rfl
  | unary bit snow child ih =>
    rw [poll]
    split_ifs
    · exact routes_resetAll
    · rw [Routes, ih, Routes]
  | binary snow children ih =>
    rw [poll_binary _ _ _ _ _ rfl]
    split_ifs
    · exact routes_resetAll
    · simp only [Routes]
      split_ifs
      · exact ih _
      · exact routes_resetAll

/-- Dropping decided bits only extends them. -/
theorem dropDecided_isPrefix (decided : List Bool) (t : BitTrie F) :
    decided <+: (t.dropDecided decided).1 := by
  induction t generalizing decided with
  | leaf => exact List.prefix_rfl
  | unary bit snow child ih =>
    rw [dropDecided]
    split_ifs
    · exact (List.prefix_append _ _).trans (ih _)
    · exact List.prefix_rfl
  | binary snow children ih =>
    rw [dropDecided]
    split_ifs
    · exact (List.prefix_append _ _).trans (ih _ _)
    · exact List.prefix_rfl

theorem agrees_of_isPrefix {xs ys : List Bool} (h : xs <+: ys)
    (hid : id.bitsFrom 0 ys.length = ys) : id.bitsFrom 0 xs.length = xs := by
  obtain ⟨zs, rfl⟩ := h
  rw [List.length_append, Id.bitsFrom_add] at hid
  exact (List.append_inj hid (by simp)).1

/-- A bit that is dropped is one of the choices that survive. -/
theorem bit_of_dropDecided {decided : List Bool} {bit : Bool}
    (hid : id.bitsFrom 0 (t.dropDecided (decided ++ [bit])).1.length
      = (t.dropDecided (decided ++ [bit])).1) : id.bit decided.length = bit := by
  have hbits := agrees_of_isPrefix (dropDecided_isPrefix _ _) hid
  rw [List.length_append, Id.bitsFrom_add] at hbits
  simpa [Id.bitsFrom_succ] using (List.append_inj hbits (by simp)).2

/-- A choice that survives the decided bits keeps its instances. -/
theorem Routes.dropDecided {decided : List Bool} (h : t.Routes id decided.length)
    (hid : id.bitsFrom 0 (t.dropDecided decided).1.length = (t.dropDecided decided).1) :
    (t.dropDecided decided).2.Routes id (t.dropDecided decided).1.length := by
  induction t generalizing decided with
  | leaf => trivial
  | unary bit snow child ih =>
    rw [BitTrie.dropDecided] at hid ⊢
    split_ifs at hid ⊢
    · exact ih (by simpa using h.2) hid
    · exact h
  | binary snow children ih =>
    rw [BitTrie.dropDecided] at hid ⊢
    split_ifs at hid ⊢
    · refine ih _ ?_ hid
      simpa [Routes, bit_of_dropDecided hid] using h
    · exact h

end Lawful

end BitTrie

end Avalanche
