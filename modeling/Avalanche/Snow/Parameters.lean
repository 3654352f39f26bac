import Mathlib

/-!
# Snowball parameters

The thresholds are `u32` values. `Parameters.verify` is the gate every consensus instance passes
before it is built; the inequalities it leaves behind are collected in `Parameters.Verified`.
-/

namespace Avalanche

/-- Errors of the consensus crate that the modelled code returns. -/
inductive SnowError where
  | parametersInvalid (msg : String)
  | duplicateAdd
  | unknownParentBlock
  | other (msg : String)
deriving DecidableEq, Repr

/-- `u32::MAX`. -/
def u32Max : ℕ := 2 ^ 32 - 1

/-- `u32::saturating_add(1)`, on a counter kept as a natural number. -/
def saturatingSucc (n : ℕ) : ℕ := min (n + 1) u32Max

/-- `u32::try_from(n).unwrap_or(u32::MAX)`. -/
def saturatingU32 (n : ℕ) : ℕ := min n u32Max

theorem saturatingSucc_of_lt {n : ℕ} (h : n < u32Max) : saturatingSucc n = n + 1 :=
  min_eq_left h

theorem saturatingU32_of_le {n : ℕ} (h : n ≤ u32Max) : saturatingU32 n = n := min_eq_left h

theorem UInt32.toNat_le_u32Max (x : UInt32) : x.toNat ≤ u32Max :=
  Nat.le_sub_one_of_lt x.toNat_lt

/-- Parameters required for snowball consensus. -/
structure Parameters where
  /-- Nodes sampled per poll. -/
  k : UInt32
  /-- Vote threshold to change preference. -/
  alphaPreference : UInt32
  /-- Vote threshold to increment a confidence counter. -/
  alphaConfidence : UInt32
  /-- Consecutive successful polls required to finalize. -/
  beta : UInt32
  /-- Target number of outstanding polls while work is processing. -/
  concurrentRepolls : UInt32
  /-- Soft cap used to throttle block building. -/
  optimalProcessing : UInt32
  /-- Unhealthy above this many outstanding items. -/
  maxOutstandingItems : UInt32
  /-- Unhealthy when an item processes longer than this, in nanoseconds. -/
  maxItemProcessingTime : ℕ
deriving DecidableEq, Repr

namespace Parameters

/-- Whether the parameters describe a valid initialization, with the failing condition. -/
def verify (p : Parameters) : Except SnowError Unit :=
  if p.alphaPreference ≤ p.k / 2 then
    .error (.parametersInvalid <|
      s!"k = {p.k}, alphaPreference = {p.alphaPreference}: " ++
        "fails the condition that: k/2 < alphaPreference")
  else if p.alphaConfidence < p.alphaPreference then
    .error (.parametersInvalid <|
      s!"alphaPreference = {p.alphaPreference}, alphaConfidence = {p.alphaConfidence}: " ++
        "fails the condition that: alphaPreference <= alphaConfidence")
  else if p.k < p.alphaConfidence then
    .error (.parametersInvalid <|
      s!"k = {p.k}, alphaConfidence = {p.alphaConfidence}: " ++
        "fails the condition that: alphaConfidence <= k")
  else if p.alphaConfidence = 3 ∧ p.alphaPreference = 28 then
    .error (.parametersInvalid <|
      s!"alphaConfidence = {p.alphaConfidence}, alphaPreference = {p.alphaPreference}: " ++
        "fails the condition that: alphaPreference <= alphaConfidence")
  else if p.concurrentRepolls = 0 then
    .error (.parametersInvalid <|
      s!"concurrentRepolls = {p.concurrentRepolls}: " ++
        "fails the condition that: 0 < concurrentRepolls")
  else if p.concurrentRepolls > p.beta then
    .error (.parametersInvalid <|
      s!"concurrentRepolls = {p.concurrentRepolls}, beta = {p.beta}: " ++
        "fails the condition that: concurrentRepolls <= beta")
  else if p.optimalProcessing = 0 then
    .error (.parametersInvalid <|
      s!"optimalProcessing = {p.optimalProcessing}: " ++
        "fails the condition that: 0 < optimalProcessing")
  else if p.maxOutstandingItems = 0 then
    .error (.parametersInvalid <|
      s!"maxOutstandingItems = {p.maxOutstandingItems}: " ++
        "fails the condition that: 0 < maxOutstandingItems")
  else if p.maxItemProcessingTime = 0 then
    .error (.parametersInvalid
      "maxItemProcessingTime = 0: fails the condition that: 0 < maxItemProcessingTime")
  else .ok ()

/-- The parameters passed `verify`. -/
def Verified (p : Parameters) : Prop := p.verify = .ok ()

instance (p : Parameters) : Decidable p.Verified :=
  inferInstanceAs (Decidable (p.verify = .ok ()))

/-- Every inequality `verify` checks, on natural numbers. -/
theorem Verified.bounds {p : Parameters} (h : p.Verified) :
    p.k.toNat / 2 < p.alphaPreference.toNat ∧
      p.alphaPreference.toNat ≤ p.alphaConfidence.toNat ∧
      p.alphaConfidence.toNat ≤ p.k.toNat ∧ 0 < p.beta.toNat := by
  unfold Verified verify at h
  split_ifs at h with h1 h2 h3 _ h5 h6
  rw [UInt32.le_iff_toNat_le, UInt32.toNat_div] at h1
  rw [UInt32.lt_iff_toNat_lt] at h2 h3
  rw [gt_iff_lt, UInt32.lt_iff_toNat_lt] at h6
  have h5' : p.concurrentRepolls.toNat ≠ 0 := fun h0 ↦ h5 (UInt32.toNat_inj.mp h0)
  have h2n : (2 : UInt32).toNat = 2 := rfl
  rw [h2n] at h1
  omega

/-- Two disjoint groups of voters of one sample cannot both reach the preference threshold. -/
theorem Verified.not_both {p : Parameters} (h : p.Verified) {m n : ℕ}
    (hsum : m + n ≤ p.k.toNat) (hm : p.alphaPreference.toNat ≤ m) :
    n < p.alphaPreference.toNat := by
  have := h.bounds.1
  omega

theorem Verified.alphaPreference_pos {p : Parameters} (h : p.Verified) :
    0 < p.alphaPreference.toNat := by
  have := h.bounds.1
  omega

end Parameters

/-- One vote per poll, two confident polls in a row to decide. -/
def exampleParams : Parameters where
  k := 1
  alphaPreference := 1
  alphaConfidence := 1
  beta := 2
  concurrentRepolls := 1
  optimalProcessing := 1
  maxOutstandingItems := 1
  maxItemProcessingTime := 1

end Avalanche
