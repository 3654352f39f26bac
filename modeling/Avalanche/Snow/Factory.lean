import Avalanche.Snow.Snowflake

/-!
# Factories of snow instances

The snowball tree is generic in the instances it is made of. `Factory` is the interface it calls;
`LawfulFactory` adds what the tree relies on, as proofs that travel with the factory, so that no
tree can be built over instances that do not behave. Both factories of the source are lawful:
`snowballFactory` and `snowflakeFactory`.

The laws speak of an instance only through three observations: whether it is finalized, how many
consecutive confident polls it has counted (`confidence`) and, for a binary instance, which choice
those polls were for (`slush`). `Ok p` says that the instance was made for parameters `p` and has
only seen calls the tree makes.
-/

namespace Avalanche

/-- Produces unary instances and the binary instances they extend into. -/
structure Factory where
  /-- The unary instance type. -/
  Unary : Type
  /-- The binary instance type. -/
  Binary : Type
  newUnary : Parameters → Unary
  unaryRecordPoll : Unary → ℕ → Unary
  unaryRecordUnsuccessfulPoll : Unary → Unary
  unaryFinalized : Unary → Bool
  extend : Unary → Bool → Binary
  binaryPreference : Binary → Bool
  binaryRecordPoll : Binary → ℕ → Bool → Binary
  binaryRecordUnsuccessfulPoll : Binary → Binary
  binaryFinalized : Binary → Bool

/-- A factory whose instances count consecutive confident polls and nothing else before they
finalize. -/
structure LawfulFactory extends Factory where
  UnaryOk : Parameters → Unary → Prop
  BinaryOk : Parameters → Binary → Prop
  /-- Consecutive confident polls counted so far. -/
  unaryConfidence : Unary → ℕ
  /-- Consecutive confident polls for `slush` counted so far. -/
  binaryConfidence : Binary → ℕ
  /-- The choice of the last successful poll. -/
  slush : Binary → Bool
  newUnary_ok : ∀ {p}, p.Verified → UnaryOk p (newUnary p)
  finalized_newUnary : ∀ p, unaryFinalized (newUnary p) = false
  reset_newUnary : ∀ p, unaryRecordUnsuccessfulPoll (newUnary p) = newUnary p
  unary_reset_reset : ∀ u, unaryRecordUnsuccessfulPoll (unaryRecordUnsuccessfulPoll u)
    = unaryRecordUnsuccessfulPoll u
  unary_reset_ok : ∀ {p u}, UnaryOk p u → UnaryOk p (unaryRecordUnsuccessfulPoll u)
  unary_finalized_reset : ∀ u, unaryFinalized (unaryRecordUnsuccessfulPoll u) = unaryFinalized u
  unary_confidence_reset : ∀ u, unaryConfidence (unaryRecordUnsuccessfulPoll u) = 0
  unary_recordPoll_ok : ∀ {p u} (n), UnaryOk p u → UnaryOk p (unaryRecordPoll u n)
  unary_finalized_recordPoll : ∀ {p u} (n), UnaryOk p u →
    (unaryFinalized (unaryRecordPoll u n) = true ↔ unaryFinalized u = true ∨
      (p.alphaConfidence.toNat ≤ n ∧ p.beta.toNat ≤ unaryConfidence u + 1))
  unary_confidence_recordPoll : ∀ {p u} (n), UnaryOk p u → unaryFinalized u = false →
    unaryConfidence (unaryRecordPoll u n)
      = if p.alphaConfidence.toNat ≤ n then unaryConfidence u + 1 else 0
  unary_confidence_lt : ∀ {p u}, UnaryOk p u → unaryFinalized u = false →
    unaryConfidence u < p.beta.toNat
  extend_ok : ∀ {p u} (b), UnaryOk p u → BinaryOk p (extend u b)
  reset_extend : ∀ u b, binaryRecordUnsuccessfulPoll (extend u b)
    = extend (unaryRecordUnsuccessfulPoll u) b
  preference_extend : ∀ u b, binaryPreference (extend u b) = b
  finalized_extend : ∀ u b, binaryFinalized (extend u b) = unaryFinalized u
  confidence_extend : ∀ u b, binaryConfidence (extend u b) = unaryConfidence u
  slush_extend : ∀ u b, slush (extend u b) = b
  binary_reset_reset : ∀ b, binaryRecordUnsuccessfulPoll (binaryRecordUnsuccessfulPoll b)
    = binaryRecordUnsuccessfulPoll b
  binary_reset_ok : ∀ {p b}, BinaryOk p b → BinaryOk p (binaryRecordUnsuccessfulPoll b)
  binary_finalized_reset : ∀ b, binaryFinalized (binaryRecordUnsuccessfulPoll b) = binaryFinalized b
  binary_preference_reset : ∀ b,
    binaryPreference (binaryRecordUnsuccessfulPoll b) = binaryPreference b
  binary_slush_reset : ∀ b, slush (binaryRecordUnsuccessfulPoll b) = slush b
  binary_confidence_reset : ∀ b, binaryConfidence (binaryRecordUnsuccessfulPoll b) = 0
  binary_recordPoll_ok : ∀ {p b} (n c), BinaryOk p b → BinaryOk p (binaryRecordPoll b n c)
  binary_finalized_recordPoll : ∀ {p b} {n} (c), BinaryOk p b → p.alphaPreference.toNat ≤ n →
    (binaryFinalized (binaryRecordPoll b n c) = true ↔ binaryFinalized b = true ∨
      (p.alphaConfidence.toNat ≤ n ∧
        p.beta.toNat ≤ (if slush b = c then binaryConfidence b else 0) + 1))
  binary_confidence_recordPoll : ∀ {p b} {n} (c), BinaryOk p b → p.alphaPreference.toNat ≤ n →
    binaryFinalized b = false → binaryConfidence (binaryRecordPoll b n c)
      = if p.alphaConfidence.toNat ≤ n then (if slush b = c then binaryConfidence b else 0) + 1
        else 0
  binary_confidence_lt : ∀ {p b}, BinaryOk p b → binaryFinalized b = false →
    binaryConfidence b < p.beta.toNat
  binary_slush_recordPoll : ∀ {p b} {n} (c), BinaryOk p b → p.alphaPreference.toNat ≤ n →
    slush (binaryRecordPoll b n c) = if binaryFinalized b then slush b else c
  preference_of_finalized : ∀ {b}, binaryFinalized b = true → binaryPreference b = slush b

instance LawfulFactory.instCoeFactory : Coe LawfulFactory Factory := ⟨toFactory⟩

/-! ## Snowflake instances -/

/-- A unary snowflake made for `p`: one condition, one counter, below `beta` until finalized. -/
def UnarySnowflake.Ok (p : Parameters) (s : UnarySnowflake) : Prop :=
  s.alphaPreference = p.alphaPreference.toNat ∧
    s.conditions = TerminationCondition.single p.alphaConfidence.toNat p.beta.toNat ∧
    ∃ c, s.confidence = [c] ∧ (s.finalized = false → c < p.beta.toNat)

/-- A binary snowflake made for `p`. -/
def BinarySnowflake.Ok (p : Parameters) (s : BinarySnowflake) : Prop :=
  s.alphaPreference = p.alphaPreference.toNat ∧
    s.conditions = TerminationCondition.single p.alphaConfidence.toNat p.beta.toNat ∧
    ∃ c, s.confidence = [c] ∧ (s.finalized = false → c < p.beta.toNat)

namespace UnarySnowflake

variable {p : Parameters} {s : UnarySnowflake}

theorem ok_new (hp : p.Verified) :
    (new p.alphaPreference.toNat
      (TerminationCondition.single p.alphaConfidence.toNat p.beta.toNat)).Ok p :=
  ⟨rfl, rfl, 0, rfl, fun _ ↦ hp.bounds.2.2.2⟩

theorem Ok.reset (hp : p.Verified) (h : s.Ok p) : s.recordUnsuccessfulPoll.Ok p := by
  obtain ⟨h1, h2, c, hc, -⟩ := h
  exact ⟨h1, h2, 0, by simp [recordUnsuccessfulPoll, hc], fun _ ↦ hp.bounds.2.2.2⟩

theorem reset_reset (s : UnarySnowflake) :
    s.recordUnsuccessfulPoll.recordUnsuccessfulPoll = s.recordUnsuccessfulPoll := by
  simp [recordUnsuccessfulPoll]

/-- A poll on an instance with one condition, spelled out. -/
theorem recordPoll_eq (h : s.Ok p) (n : ℕ) :
    s.recordPoll n
      = if n < p.alphaConfidence.toNat then { s with confidence := [0] }
        else { s with
          confidence := [saturatingSucc (s.confidence.headD 0)]
          finalized := s.finalized ||
            decide (saturatingSucc (s.confidence.headD 0) ≥ p.beta.toNat) } := by
  obtain ⟨-, h2, c, hc, -⟩ := h
  rw [recordPoll, h2, hc, TerminationCondition.pollAll_single]
  by_cases hn : n < p.alphaConfidence.toNat <;> simp [hn]

theorem Ok.recordPoll (n : ℕ) (hp : p.Verified) (h : s.Ok p) : (s.recordPoll n).Ok p := by
  rw [recordPoll_eq h]
  obtain ⟨h1, h2, c, hc, hlt⟩ := h
  split_ifs with hn
  · exact ⟨h1, h2, 0, rfl, fun _ ↦ hp.bounds.2.2.2⟩
  · refine ⟨h1, h2, _, rfl, fun hf ↦ ?_⟩
    simp only [Bool.or_eq_false_iff, decide_eq_false_iff_not, ge_iff_le, not_le] at hf
    exact hf.2

theorem confidence_lt (h : s.Ok p) (hf : s.finalized = false) :
    s.confidence.headD 0 < p.beta.toNat := by
  obtain ⟨-, -, c, hc, hlt⟩ := h
  rw [hc]
  exact hlt hf

theorem saturatingSucc_confidence (h : s.Ok p) (hf : s.finalized = false) :
    saturatingSucc (s.confidence.headD 0) = s.confidence.headD 0 + 1 :=
  saturatingSucc_of_lt (lt_of_lt_of_le (confidence_lt h hf) (UInt32.toNat_le_u32Max p.beta))

theorem finalized_recordPoll (h : s.Ok p) (n : ℕ) :
    ((s.recordPoll n).finalized = true ↔ s.finalized = true ∨
      (p.alphaConfidence.toNat ≤ n ∧ p.beta.toNat ≤ s.confidence.headD 0 + 1)) := by
  rw [recordPoll_eq h]
  cases hf : s.finalized with
  | true => split_ifs <;> simp
  | false =>
    rw [saturatingSucc_confidence h hf]
    split_ifs with hn
    · simp [Nat.not_le.mpr hn]
    · simp [Nat.not_lt.mp hn]

theorem confidence_recordPoll (h : s.Ok p) (hf : s.finalized = false) (n : ℕ) :
    (s.recordPoll n).confidence.headD 0
      = if p.alphaConfidence.toNat ≤ n then s.confidence.headD 0 + 1 else 0 := by
  rw [recordPoll_eq h, saturatingSucc_confidence h hf]
  by_cases hn : n < p.alphaConfidence.toNat
  · rw [if_pos hn, if_neg (by omega)]
    rfl
  · rw [if_neg hn, if_pos (by omega)]
    rfl

end UnarySnowflake

namespace BinarySnowflake

variable {p : Parameters} {s : BinarySnowflake}

theorem Ok.reset (hp : p.Verified) (h : s.Ok p) : s.recordUnsuccessfulPoll.Ok p := by
  obtain ⟨h1, h2, c, hc, -⟩ := h
  exact ⟨h1, h2, 0, by simp [recordUnsuccessfulPoll, hc], fun _ ↦ hp.bounds.2.2.2⟩

theorem reset_reset (s : BinarySnowflake) :
    s.recordUnsuccessfulPoll.recordUnsuccessfulPoll = s.recordUnsuccessfulPoll := by
  simp [recordUnsuccessfulPoll]

theorem recordPoll_of_finalized (hf : s.finalized = true) (n : ℕ) (c : Bool) :
    s.recordPoll n c = s := by
  simp [recordPoll, hf]

theorem confidence_lt (h : s.Ok p) (hf : s.finalized = false) :
    s.confidence.headD 0 < p.beta.toNat :=
  UnarySnowflake.confidence_lt (s := ⟨_, _, s.confidence, _⟩) h hf

/-- The counter a poll for `c` starts from: changing preference loses it. -/
def carried (s : BinarySnowflake) (c : Bool) : ℕ :=
  if s.preference = c then s.confidence.headD 0 else 0

/-- The unary instance whose counter a poll for `c` moves. -/
def counting (s : BinarySnowflake) (c : Bool) : UnarySnowflake :=
  ⟨s.alphaPreference, s.conditions,
    if c ≠ s.preference then s.confidence.map fun _ ↦ 0 else s.confidence, s.finalized⟩

theorem confidence_counting (h : s.Ok p) (c : Bool) :
    (s.counting c).confidence = [s.carried c] := by
  obtain ⟨-, -, d, hd, -⟩ := h
  by_cases hc : s.preference = c
  · simp [counting, carried, hd, hc]
  · simp [counting, carried, hd, hc, Ne.symm hc]

theorem Ok.counting (hp : p.Verified) (h : s.Ok p) (c : Bool) : (s.counting c).Ok p := by
  refine ⟨h.1, h.2.1, _, confidence_counting h c, fun hf ↦ ?_⟩
  unfold carried
  split_ifs
  · exact confidence_lt h hf
  · exact hp.bounds.2.2.2

/-- A poll that reaches the preference threshold moves the counter, and the preference to `c`. -/
theorem recordPoll_eq (h : s.Ok p) (hf : s.finalized = false) {n : ℕ}
    (hn : p.alphaPreference.toNat ≤ n) (c : Bool) :
    s.recordPoll n c = ((s.counting c).recordPoll n).extend c := by
  simp [recordPoll, hf, Nat.not_lt.mpr (h.1.trans_le hn), UnarySnowflake.recordPoll,
    UnarySnowflake.extend, counting]

theorem Ok.recordPoll (n : ℕ) (c : Bool) (hp : p.Verified) (h : s.Ok p) :
    (s.recordPoll n c).Ok p := by
  cases hf : s.finalized with
  | true => rwa [recordPoll_of_finalized hf]
  | false =>
    by_cases hn : n < p.alphaPreference.toNat
    · have heq : s.recordPoll n c = s.recordUnsuccessfulPoll := by
        simp [BinarySnowflake.recordPoll, hf, h.1, hn]
      rw [heq]
      exact h.reset hp
    · rw [recordPoll_eq h hf (by omega)]
      exact (h.counting hp c).recordPoll n hp

theorem finalized_recordPoll (hp : p.Verified) (h : s.Ok p) {n : ℕ}
    (hn : p.alphaPreference.toNat ≤ n) (c : Bool) :
    ((s.recordPoll n c).finalized = true ↔ s.finalized = true ∨
      (p.alphaConfidence.toNat ≤ n ∧ p.beta.toNat ≤ s.carried c + 1)) := by
  cases hf : s.finalized with
  | true => simp [recordPoll_of_finalized hf, hf]
  | false =>
    have hunary := UnarySnowflake.finalized_recordPoll (h.counting hp c) n
    rw [confidence_counting h] at hunary
    rw [recordPoll_eq h hf hn, ← hf]
    exact hunary

theorem confidence_recordPoll (hp : p.Verified) (h : s.Ok p) (hf : s.finalized = false) {n : ℕ}
    (hn : p.alphaPreference.toNat ≤ n) (c : Bool) :
    (s.recordPoll n c).confidence.headD 0
      = if p.alphaConfidence.toNat ≤ n then s.carried c + 1 else 0 := by
  have hunary := UnarySnowflake.confidence_recordPoll (h.counting hp c) hf n
  rw [confidence_counting h] at hunary
  rw [recordPoll_eq h hf hn]
  exact hunary

theorem preference_recordPoll (h : s.Ok p) {n : ℕ} (hn : p.alphaPreference.toNat ≤ n) (c : Bool) :
    (s.recordPoll n c).preference = if s.finalized then s.preference else c := by
  cases hf : s.finalized with
  | true => simp [recordPoll_of_finalized hf]
  | false =>
    rw [recordPoll_eq h hf hn]
    rfl

end BinarySnowflake

/-! ## The factories of the source -/

/-- Unary and binary snowflakes. -/
def snowflakeFactory : LawfulFactory where
  Unary := UnarySnowflake
  Binary := BinarySnowflake
  newUnary p := UnarySnowflake.new p.alphaPreference.toNat
    (TerminationCondition.single p.alphaConfidence.toNat p.beta.toNat)
  unaryRecordPoll := UnarySnowflake.recordPoll
  unaryRecordUnsuccessfulPoll := UnarySnowflake.recordUnsuccessfulPoll
  unaryFinalized := UnarySnowflake.finalized
  extend := UnarySnowflake.extend
  binaryPreference := BinarySnowflake.preference
  binaryRecordPoll := BinarySnowflake.recordPoll
  binaryRecordUnsuccessfulPoll := BinarySnowflake.recordUnsuccessfulPoll
  binaryFinalized := BinarySnowflake.finalized
  UnaryOk p s := p.Verified ∧ s.Ok p
  BinaryOk p s := p.Verified ∧ s.Ok p
  unaryConfidence s := s.confidence.headD 0
  binaryConfidence s := s.confidence.headD 0
  slush := BinarySnowflake.preference
  newUnary_ok hp := ⟨hp, UnarySnowflake.ok_new hp⟩
  finalized_newUnary _ := rfl
  reset_newUnary _ := rfl
  unary_reset_reset := UnarySnowflake.reset_reset
  unary_reset_ok h := ⟨h.1, h.2.reset h.1⟩
  unary_finalized_reset _ := rfl
  unary_confidence_reset s := by
    cases hs : s.confidence <;> simp [UnarySnowflake.recordUnsuccessfulPoll, hs]
  unary_recordPoll_ok n h := ⟨h.1, h.2.recordPoll n h.1⟩
  unary_finalized_recordPoll n h := UnarySnowflake.finalized_recordPoll h.2 n
  unary_confidence_recordPoll n h hf := UnarySnowflake.confidence_recordPoll h.2 hf n
  unary_confidence_lt h hf := UnarySnowflake.confidence_lt h.2 hf
  extend_ok _ h := h
  reset_extend _ _ := rfl
  preference_extend _ _ := rfl
  finalized_extend _ _ := rfl
  confidence_extend _ _ := rfl
  slush_extend _ _ := rfl
  binary_reset_reset := BinarySnowflake.reset_reset
  binary_reset_ok h := ⟨h.1, h.2.reset h.1⟩
  binary_finalized_reset _ := rfl
  binary_preference_reset _ := rfl
  binary_slush_reset _ := rfl
  binary_confidence_reset s := by
    cases hs : s.confidence <;> simp [BinarySnowflake.recordUnsuccessfulPoll, hs]
  binary_recordPoll_ok n c h := ⟨h.1, h.2.recordPoll n c h.1⟩
  binary_finalized_recordPoll c h hn := BinarySnowflake.finalized_recordPoll h.1 h.2 hn c
  binary_confidence_recordPoll c h hn hf := BinarySnowflake.confidence_recordPoll h.1 h.2 hf hn c
  binary_confidence_lt h hf := BinarySnowflake.confidence_lt h.2 hf
  binary_slush_recordPoll c h hn := BinarySnowflake.preference_recordPoll h.2 hn c
  preference_of_finalized _ := rfl

namespace BinarySnowball

/-- The popularity layer never touches what the snowflake underneath does with a poll. -/
theorem snowflake_recordPoll (s : BinarySnowball) (n : ℕ) (c : Bool) :
    (s.recordPoll n c).snowflake = s.snowflake.recordPoll n c := by
  unfold recordPoll
  cases c <;> simp only [cond_true, cond_false] <;> split_ifs <;> rfl

end BinarySnowball

/-- Unary and binary snowballs. -/
def snowballFactory : LawfulFactory where
  Unary := UnarySnowball
  Binary := BinarySnowball
  newUnary p := UnarySnowball.new p.alphaPreference.toNat
    (TerminationCondition.single p.alphaConfidence.toNat p.beta.toNat)
  unaryRecordPoll := UnarySnowball.recordPoll
  unaryRecordUnsuccessfulPoll := UnarySnowball.recordUnsuccessfulPoll
  unaryFinalized s := s.snowflake.finalized
  extend := UnarySnowball.extend
  binaryPreference := BinarySnowball.preference
  binaryRecordPoll := BinarySnowball.recordPoll
  binaryRecordUnsuccessfulPoll := BinarySnowball.recordUnsuccessfulPoll
  binaryFinalized s := s.snowflake.finalized
  UnaryOk p s := p.Verified ∧ s.snowflake.Ok p
  BinaryOk p s := p.Verified ∧ s.snowflake.Ok p
  unaryConfidence s := s.snowflake.confidence.headD 0
  binaryConfidence s := s.snowflake.confidence.headD 0
  slush s := s.snowflake.preference
  newUnary_ok hp := ⟨hp, UnarySnowflake.ok_new hp⟩
  finalized_newUnary _ := rfl
  reset_newUnary _ := rfl
  unary_reset_reset s := by
    simp [UnarySnowball.recordUnsuccessfulPoll, UnarySnowflake.reset_reset]
  unary_reset_ok h := ⟨h.1, h.2.reset h.1⟩
  unary_finalized_reset _ := rfl
  unary_confidence_reset s := snowflakeFactory.unary_confidence_reset s.snowflake
  unary_recordPoll_ok n h := ⟨h.1, h.2.recordPoll n h.1⟩
  unary_finalized_recordPoll n h := UnarySnowflake.finalized_recordPoll h.2 n
  unary_confidence_recordPoll n h hf := UnarySnowflake.confidence_recordPoll h.2 hf n
  unary_confidence_lt h hf := UnarySnowflake.confidence_lt h.2 hf
  extend_ok _ h := h
  reset_extend _ _ := rfl
  preference_extend _ _ := ite_self _
  finalized_extend _ _ := rfl
  confidence_extend _ _ := rfl
  slush_extend _ _ := rfl
  binary_reset_reset s := by
    simp [BinarySnowball.recordUnsuccessfulPoll, BinarySnowflake.reset_reset]
  binary_reset_ok h := ⟨h.1, h.2.reset h.1⟩
  binary_finalized_reset _ := rfl
  binary_preference_reset _ := rfl
  binary_slush_reset _ := rfl
  binary_confidence_reset s := snowflakeFactory.binary_confidence_reset s.snowflake
  binary_recordPoll_ok n c h := by
    rw [BinarySnowball.snowflake_recordPoll]
    exact ⟨h.1, h.2.recordPoll n c h.1⟩
  binary_finalized_recordPoll c h hn := by
    rw [BinarySnowball.snowflake_recordPoll]
    exact BinarySnowflake.finalized_recordPoll h.1 h.2 hn c
  binary_confidence_recordPoll c h hn hf := by
    rw [BinarySnowball.snowflake_recordPoll]
    exact BinarySnowflake.confidence_recordPoll h.1 h.2 hf hn c
  binary_confidence_lt h hf := BinarySnowflake.confidence_lt h.2 hf
  binary_slush_recordPoll c h hn := by
    rw [BinarySnowball.snowflake_recordPoll]
    exact BinarySnowflake.preference_recordPoll h.2 hn c
  preference_of_finalized hf := by
    simp [BinarySnowball.preference, hf]

end Avalanche
