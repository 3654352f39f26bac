import Avalanche.Snow.Parameters

/-!
# Slush, snowflake and snowball instances

A *snowflake* counts consecutive successful polls, one counter for each termination condition, and
finalizes when a counter reaches its `beta`. A *snowball* layers preference-by-popularity on top.
The unary instances decide on a single value, the binary ones between `false` (bit `0`) and `true`
(bit `1`).

Counters are `u32` in the source and saturate; they are natural numbers here with the saturation
written out.
-/

namespace Avalanche

/-- One `(alpha_confidence, beta)` termination condition. -/
structure TerminationCondition where
  /-- Vote threshold to increment this condition's confidence counter. -/
  alphaConfidence : ℕ
  /-- Consecutive successful polls required to finalize via this condition. -/
  beta : ℕ
deriving DecidableEq, Repr

namespace TerminationCondition

/-- A single-condition list. -/
def single (alphaConfidence beta : ℕ) : List TerminationCondition := [⟨alphaConfidence, beta⟩]

/-- The loop over the conditions that both snowflakes run on a successful poll. Missing one
threshold clears that counter and all later ones; reaching `beta` stops the loop with `true`. -/
def pollAll (count : ℕ) : List TerminationCondition → List ℕ → List ℕ × Bool
  | c :: cs, f :: fs =>
    if count < c.alphaConfidence then ((f :: fs).map fun _ ↦ 0, false)
    else if saturatingSucc f ≥ c.beta then (saturatingSucc f :: fs, true)
    else
      let (rest, fin) := pollAll count cs fs
      (saturatingSucc f :: rest, fin)
  | _, fs => (fs, false)

theorem pollAll_single (count a b f : ℕ) :
    pollAll count (single a b) [f]
      = if count < a then ([0], false)
        else ([saturatingSucc f], decide (saturatingSucc f ≥ b)) := by
  by_cases h1 : count < a <;> by_cases h2 : saturatingSucc f ≥ b <;> simp [pollAll, single, h1, h2]

end TerminationCondition

/-! ## Unary instances -/

/-- A unary snowflake instance. -/
structure UnarySnowflake where
  alphaPreference : ℕ
  conditions : List TerminationCondition
  confidence : List ℕ
  finalized : Bool
deriving DecidableEq, Repr

/-- A binary slush instance: the choice that last had a successful poll. -/
structure BinarySlush where
  preference : Bool
deriving DecidableEq, Repr

/-- A binary snowflake instance deciding between bit `0` and bit `1`. -/
structure BinarySnowflake where
  slush : BinarySlush
  alphaPreference : ℕ
  conditions : List TerminationCondition
  confidence : List ℕ
  finalized : Bool
deriving DecidableEq, Repr

namespace UnarySnowflake

def new (alphaPreference : ℕ) (conditions : List TerminationCondition) : UnarySnowflake :=
  ⟨alphaPreference, conditions, List.replicate conditions.length 0, false⟩

/-- Records a poll where `count` nodes preferred the choice. -/
def recordPoll (s : UnarySnowflake) (count : ℕ) : UnarySnowflake :=
  let (confidence, fin) := TerminationCondition.pollAll count s.conditions s.confidence
  { s with confidence := confidence, finalized := s.finalized || fin }

/-- Records an unsuccessful poll, clearing all confidence. -/
def recordUnsuccessfulPoll (s : UnarySnowflake) : UnarySnowflake :=
  { s with confidence := s.confidence.map fun _ ↦ 0 }

/-- Extends this unary instance into a binary one rooted at `choice`. -/
def extend (s : UnarySnowflake) (choice : Bool) : BinarySnowflake :=
  ⟨⟨choice⟩, s.alphaPreference, s.conditions, s.confidence, s.finalized⟩

end UnarySnowflake

/-! ## Binary instances -/

namespace BinarySnowflake

def preference (s : BinarySnowflake) : Bool := s.slush.preference

/-- Records an unsuccessful poll, clearing all confidence. -/
def recordUnsuccessfulPoll (s : BinarySnowflake) : BinarySnowflake :=
  { s with confidence := s.confidence.map fun _ ↦ 0 }

/-- Records a poll where `count` nodes preferred `choice`. -/
def recordPoll (s : BinarySnowflake) (count : ℕ) (choice : Bool) : BinarySnowflake :=
  if s.finalized then s
  else if count < s.alphaPreference then s.recordUnsuccessfulPoll
  else
    -- changing preference resets confidence before the slush update
    let confidence := if choice ≠ s.preference then s.confidence.map fun _ ↦ 0 else s.confidence
    let (confidence, fin) := TerminationCondition.pollAll count s.conditions confidence
    { s with slush := ⟨choice⟩, confidence := confidence, finalized := s.finalized || fin }

end BinarySnowflake

/-- A unary snowball instance: a unary snowflake plus a poll-count preference strength. -/
structure UnarySnowball where
  snowflake : UnarySnowflake
  preferenceStrength : ℕ
deriving DecidableEq, Repr

/-- A binary snowball instance: preference-by-popularity on a binary snowflake. -/
structure BinarySnowball where
  snowflake : BinarySnowflake
  preferred : Bool
  /-- Total polls that preferred bit `0`. -/
  strength0 : ℕ
  /-- Total polls that preferred bit `1`. -/
  strength1 : ℕ
deriving DecidableEq, Repr

namespace BinarySnowball

/-- `preference_strength[choice]`. -/
def strength (s : BinarySnowball) (choice : Bool) : ℕ :=
  bif choice then s.strength1 else s.strength0

/-- Builds a binary snowball from an extended unary snowflake. -/
def fromExtension (snowflake : BinarySnowflake) (choice : Bool) (unaryStrength : ℕ) :
    BinarySnowball :=
  ⟨snowflake, choice, bif choice then 0 else unaryStrength, bif choice then unaryStrength else 0⟩

/-- The finalized choice, or the popularity-leading one before finalization. -/
def preference (s : BinarySnowball) : Bool :=
  if s.snowflake.finalized then s.snowflake.preference else s.preferred

/-- Records a poll where `count` nodes preferred `choice`. -/
def recordPoll (s : BinarySnowball) (count : ℕ) (choice : Bool) : BinarySnowball :=
  let s :=
    if count ≥ s.snowflake.alphaPreference then
      let s : BinarySnowball := bif choice then { s with strength1 := saturatingSucc s.strength1 }
        else { s with strength0 := saturatingSucc s.strength0 }
      if s.strength choice > s.strength (!choice) then { s with preferred := choice } else s
    else s
  { s with snowflake := s.snowflake.recordPoll count choice }

/-- Records an unsuccessful poll on the underlying snowflake. -/
def recordUnsuccessfulPoll (s : BinarySnowball) : BinarySnowball :=
  { s with snowflake := s.snowflake.recordUnsuccessfulPoll }

end BinarySnowball

namespace UnarySnowball

def new (alphaPreference : ℕ) (conditions : List TerminationCondition) : UnarySnowball :=
  ⟨UnarySnowflake.new alphaPreference conditions, 0⟩

/-- Records a poll where `count` nodes preferred the choice. -/
def recordPoll (s : UnarySnowball) (count : ℕ) : UnarySnowball :=
  let strength :=
    if count ≥ s.snowflake.alphaPreference then saturatingSucc s.preferenceStrength
    else s.preferenceStrength
  ⟨s.snowflake.recordPoll count, strength⟩

/-- Records an unsuccessful poll, clearing snowflake confidence. -/
def recordUnsuccessfulPoll (s : UnarySnowball) : UnarySnowball :=
  { s with snowflake := s.snowflake.recordUnsuccessfulPoll }

/-- Extends this unary instance into a binary snowball rooted at `choice`. -/
def extend (s : UnarySnowball) (choice : Bool) : BinarySnowball :=
  BinarySnowball.fromExtension (s.snowflake.extend choice) choice s.preferenceStrength

end UnarySnowball

end Avalanche
