import Avalanche.Sae.GasPrice
import Avalanche.Sae.ProxyTime

/-!
# The gas clock

Gas is time: consuming `2 * target` of it passes a second. On top of the proxy clock the gas clock
keeps the excess that drives the price. Before a block the clock catches up with the block's time
and the excess decays by half of the gas skipped; after it the clock ticks by the gas used, the
excess grows by half of that, and both are rescaled to the target and configuration that come into
effect. The excess is never left below the one of the minimum price.

A clock `g` trails a clock `g'` of the same target and configuration if it is at no later an
instant and has no more excess. Every mutation keeps that, since a clock that is behind skips more
gas when it catches up, and it is what bounds one run of blocks by another.
-/

namespace Avalanche.Sae

structure GasPriceConfig where
  minPrice : UInt64
  targetToExcessScaling : UInt64
  staticPricing : Bool
deriving DecidableEq

def targetToRate : ℕ := 2

def minTarget : ℕ := 1

def maxTarget : ℕ := u64Max / targetToRate

def clampTarget (target : ℕ) : ℕ := max minTarget (min target maxTarget)

def rateOf (target : ℕ) : ℕ := boundedMultiply target targetToRate u64Max

def excessScalingFactorOf (scaling target : ℕ) : ℕ := boundedMultiply scaling target u64Max

/-- `⌈oldX * newK / oldK⌉`, saturated. The products are taken in 256 bits and do not overflow. -/
def scaleExcess (oldX newTarget newScaling oldTarget oldScaling : ℕ) : ℕ :=
  let newK := newTarget * newScaling
  let oldK := oldTarget * oldScaling
  if oldK = 0 then oldX else min ((oldX * newK + (oldK - 1)) / oldK) u64Max

/-- Raises an excess to the one of the minimum price. -/
def enforceMinExcess (config : GasPriceConfig) (target excess : ℕ) : ℕ :=
  let k := excessScalingFactorOf config.targetToExcessScaling.toNat target
  if calculatePriceXk excess k ≥ config.minPrice.toNat then excess
  else max excess (excessForPrice config.minPrice.toNat k)

/-! ## The minimum excess -/

section MinExcess

variable {config : GasPriceConfig} {target x y : ℕ}

theorem le_enforceMinExcess (config : GasPriceConfig) (target x : ℕ) :
    x ≤ enforceMinExcess config target x := by
  rw [enforceMinExcess]
  split
  · exact le_rfl
  · exact le_max_left _ _

theorem enforceMinExcess_le (hx : x ≤ u64Max) : enforceMinExcess config target x ≤ u64Max := by
  rw [enforceMinExcess]
  split
  · exact hx
  · exact max_le hx (excessForPrice_le _ _)

theorem enforceMinExcess_mono (h : x ≤ y) :
    enforceMinExcess config target x ≤ enforceMinExcess config target y := by
  set k := excessScalingFactorOf config.targetToExcessScaling.toNat target with hk
  by_cases hx : calculatePriceXk x k ≥ config.minPrice.toNat
  · calc enforceMinExcess config target x = x := if_pos hx
      _ ≤ y := h
      _ ≤ enforceMinExcess config target y := le_enforceMinExcess _ _ _
  · have hEx : enforceMinExcess config target x = max x (excessForPrice config.minPrice.toNat k) :=
      if_neg hx
    rw [hEx]
    by_cases hy : calculatePriceXk y k ≥ config.minPrice.toNat
    · -- the excess reaches the minimum price, so the bisection ended at or below it
      have hEy : enforceMinExcess config target y = y := if_pos hy
      rw [hEy]
      exact max_le h (excessForPrice_le_of_le hy)
    · have hEy : enforceMinExcess config target y
          = max y (excessForPrice config.minPrice.toNat k) :=
        if_neg hy
      rw [hEy]
      exact max_le_max_right _ h

theorem enforceMinExcess_idem :
    enforceMinExcess config target (enforceMinExcess config target x)
      = enforceMinExcess config target x := by
  set k := excessScalingFactorOf config.targetToExcessScaling.toNat target with hk
  by_cases hx : calculatePriceXk x k ≥ config.minPrice.toNat
  · have hEx : enforceMinExcess config target x = x := if_pos hx
    rw [hEx, hEx]
  · have hEx : enforceMinExcess config target x = max x (excessForPrice config.minPrice.toNat k) :=
      if_neg hx
    rw [hEx, enforceMinExcess]
    split
    · rfl
    · exact max_eq_left (le_max_right _ _)

/-- What lies above an excess that needs no raising needs none either. -/
theorem enforceMinExcess_eq_of_le (hx : enforceMinExcess config target x = x) (h : x ≤ y) :
    enforceMinExcess config target y = y := by
  set k := excessScalingFactorOf config.targetToExcessScaling.toNat target with hk
  by_cases hy : calculatePriceXk y k ≥ config.minPrice.toNat
  · exact if_pos hy
  · have hnx : ¬ calculatePriceXk x k ≥ config.minPrice.toNat := fun hge ↦
      hy (hge.trans (calculatePriceXk_mono k h))
    have hEx : enforceMinExcess config target x = max x (excessForPrice config.minPrice.toNat k) :=
      if_neg hnx
    have hEy : enforceMinExcess config target y = max y (excessForPrice config.minPrice.toNat k) :=
      if_neg hy
    rw [hEx] at hx
    rw [hEy]
    exact max_eq_left ((le_max_right _ _).trans (hx.le.trans h))

theorem rateOf_eq (h : target ≤ maxTarget) : rateOf target = 2 * target := by
  have hle : target * 2 ≤ u64Max := by
    rw [maxTarget, targetToRate] at h
    omega
  rw [rateOf, targetToRate, boundedMultiply_eq, min_eq_left hle, Nat.mul_comm]

theorem clampTarget_pos (target : ℕ) : 0 < clampTarget target :=
  Nat.lt_of_lt_of_le Nat.one_pos (le_max_left minTarget _)

theorem clampTarget_le (target : ℕ) : clampTarget target ≤ maxTarget :=
  max_le (by rw [minTarget, maxTarget, targetToRate, u64Max_eq]; omega) (min_le_right _ _)

theorem rateOf_clampTarget_pos (target : ℕ) : 0 < rateOf (clampTarget target) := by
  rw [rateOf_eq (clampTarget_le target)]
  have := clampTarget_pos target
  omega

theorem rateOf_le (target : ℕ) : rateOf target ≤ u64Max := by
  rw [rateOf, boundedMultiply_eq]
  exact min_le_right _ _

theorem scaleExcess_le {newTarget newScaling oldTarget oldScaling : ℕ} (hx : x ≤ u64Max) :
    scaleExcess x newTarget newScaling oldTarget oldScaling ≤ u64Max := by
  rw [scaleExcess]
  split
  · exact hx
  · exact min_le_right _ _

theorem scaleExcess_mono {newTarget newScaling oldTarget oldScaling : ℕ} (h : x ≤ y) :
    scaleExcess x newTarget newScaling oldTarget oldScaling
      ≤ scaleExcess y newTarget newScaling oldTarget oldScaling := by
  rw [scaleExcess, scaleExcess]
  split
  · exact h
  · have hmul := Nat.mul_le_mul_right (newTarget * newScaling) h
    exact min_le_min_right _ (Nat.div_le_div_right (by omega))

end MinExcess

/-! ## The clock -/

/-- `gastime::GasTime`, an instant and the excess of the dynamic fee. -/
@[ext] structure GasTime where
  inner : Time
  target : ℕ
  excess : ℕ
  config : GasPriceConfig
  target_pos : 0 < target
  target_le : target ≤ maxTarget
  /-- The rate is pinned to the target. -/
  hertz_eq : inner.hertz = rateOf target
  excess_le : excess ≤ u64Max
  /-- The excess is not below the one of the minimum price. -/
  enforced : enforceMinExcess config target excess = excess

instance : DecidableEq GasTime := fun _ _ ↦ decidable_of_iff _ GasTime.ext_iff.symm

namespace GasTime

/-- The clock with its excess raised to the minimum, as every constructor and `after_block` end. -/
def enforce (inner : Time) (target excess : ℕ) (config : GasPriceConfig) (pos : 0 < target)
    (le : target ≤ maxTarget) (hertz : inner.hertz = rateOf target) (fits : excess ≤ u64Max) :
    GasTime where
  inner := inner
  target := target
  excess := enforceMinExcess config target excess
  config := config
  target_pos := pos
  target_le := le
  hertz_eq := hertz
  excess_le := enforceMinExcess_le fits
  enforced := enforceMinExcess_idem

/-- A clock at `unixSeconds` with the given excess, which static pricing drops. -/
def fromExcess (unixSeconds : UInt64) (target startingExcess : ℕ) (config : GasPriceConfig)
    (fits : startingExcess ≤ u64Max) : GasTime :=
  enforce
    (Time.new unixSeconds 0 (rateOf (clampTarget target)) (rateOf_clampTarget_pos target)
      (rateOf_le _))
    (clampTarget target) (if config.staticPricing then 0 else startingExcess) config
    (clampTarget_pos target) (clampTarget_le target) (Time.hertz_new _ _ _ _ _)
    (by
      split
      · exact Nat.zero_le _
      · exact fits)

def rate (g : GasTime) : ℕ := g.inner.hertz

def excessScalingFactor (g : GasTime) : ℕ :=
  excessScalingFactorOf g.config.targetToExcessScaling.toNat g.target

/-- The base fee. -/
def price (g : GasTime) : ℕ :=
  max (calculatePriceXk g.excess g.excessScalingFactor) g.config.minPrice.toNat

/-- The fraction of a second that `nanos` are, in gas. -/
def gasFraction (rate : ℕ) (nanos : UInt32) : ℕ :=
  (mulDivCeil nanos.toNat rate nanosPerSecond).getD rate

/-- The excess once `sec` seconds and the fraction `frac` of one have been skipped. -/
def decayedExcess (g : GasTime) (sec frac : ℕ) : ℕ :=
  boundedSub (boundedSub g.excess (boundedMultiply sec g.target u64Max) 0)
    ((mulDivFloor frac g.target g.rate).getD 0) 0

variable (g : GasTime)

theorem decayedExcess_le (sec frac : ℕ) : g.decayedExcess sec frac ≤ u64Max := by
  rw [decayedExcess, boundedSub_eq, boundedSub_eq]
  exact (Nat.sub_le _ _).trans ((Nat.sub_le _ _).trans g.excess_le)

theorem hertz_fastForwardTo (dest : UInt64) (destFrac : ℕ) :
    (g.inner.fastForwardTo dest destFrac).1.hertz = rateOf g.target := by
  rw [Time.hertz_fastForwardTo, g.hertz_eq]

/-- The clock moved to the instant `ff.1`, having skipped `ff.2`. -/
def skipTo (g : GasTime) (ff : Time × ℕ × ℕ) (hertz : ff.1.hertz = rateOf g.target) : GasTime :=
  if ff.2.1 = 0 ∧ ff.2.2 = 0 then
    { inner := ff.1
      target := g.target
      excess := g.excess
      config := g.config
      target_pos := g.target_pos
      target_le := g.target_le
      hertz_eq := hertz
      excess_le := g.excess_le
      enforced := g.enforced }
  else
    enforce ff.1 g.target (g.decayedExcess ff.2.1 ff.2.2) g.config g.target_pos g.target_le hertz
      (g.decayedExcess_le ff.2.1 ff.2.2)

/-- Catches up with the block's time and decays the excess by the gas skipped. -/
def beforeBlock (g : GasTime) (unixSeconds : UInt64) (nanos : UInt32) : GasTime :=
  g.skipTo (g.inner.fastForwardTo unixSeconds (gasFraction g.rate nanos))
    (g.hertz_fastForwardTo unixSeconds (gasFraction g.rate nanos))

/-- The excess once `used` gas has been consumed. -/
def tickedExcess (g : GasTime) (used : UInt64) : ℕ :=
  if g.config.staticPricing then g.excess
  else boundedAdd g.excess ((mulDivFloor used.toNat (g.rate - g.target) g.rate).getD 0) u64Max

theorem le_tickedExcess (used : UInt64) : g.excess ≤ g.tickedExcess used := by
  rw [tickedExcess, boundedAdd_eq]
  split
  · exact le_rfl
  · exact le_min (Nat.le_add_right _ _) g.excess_le

theorem tickedExcess_le (used : UInt64) : g.tickedExcess used ≤ u64Max := by
  rw [tickedExcess, boundedAdd_eq]
  split
  · exact g.excess_le
  · exact min_le_right _ _

/-- Advances the clock by the gas `used`. -/
def tick (g : GasTime) (used : UInt64) : GasTime :=
  { g with
    inner := g.inner.tick used.toNat
    excess := g.tickedExcess used
    hertz_eq := g.hertz_eq
    excess_le := g.tickedExcess_le used
    enforced := enforceMinExcess_eq_of_le g.enforced (g.le_tickedExcess used) }

/-- The excess brought to the target and configuration that come into effect. -/
def rescaledExcess (g : GasTime) (newTarget : ℕ) (config : GasPriceConfig) : ℕ :=
  if config.staticPricing then 0
  else scaleExcess g.excess newTarget config.targetToExcessScaling.toNat g.target
    g.config.targetToExcessScaling.toNat

theorem rescaledExcess_le (newTarget : ℕ) (config : GasPriceConfig) :
    g.rescaledExcess newTarget config ≤ u64Max := by
  rw [rescaledExcess]
  split
  · exact Nat.zero_le _
  · exact scaleExcess_le g.excess_le

/-- Ticks by the gas `used` and moves to the target and configuration that come into effect. -/
def afterBlock (g : GasTime) (used newTarget : UInt64) (config : GasPriceConfig) : GasTime :=
  let target := clampTarget newTarget.toNat
  enforce
    ((g.tick used).inner.setRate (rateOf target) (rateOf_clampTarget_pos newTarget.toNat)
      (rateOf_le target))
    target ((g.tick used).rescaledExcess target config) config (clampTarget_pos newTarget.toNat)
    (clampTarget_le newTarget.toNat) (Time.hertz_setRate _ _ _ _)
    ((g.tick used).rescaledExcess_le target config)

def compare (g g' : GasTime) : Ordering := g.inner.compare g'.inner

variable {g g' : GasTime}

theorem rate_eq : g.rate = 2 * g.target := g.hertz_eq.trans (rateOf_eq g.target_le)

/-! ## What each mutation does to the instant and the excess -/

/-- The target's share of an amount of gas is half of it. -/
theorem mulDivFloor_target {amount : ℕ} (h : amount ≤ u64Max) :
    mulDivFloor amount g.target g.rate = some (amount / 2) := by
  have hpos := g.target_pos
  have hhalf : amount * g.target / g.rate = amount / 2 := by
    rw [g.rate_eq, Nat.mul_div_mul_right _ _ hpos]
  rw [mulDivFloor_of_le (by rw [g.rate_eq]; omega) (by rw [hhalf]; omega), hhalf]

theorem decayedExcess_eq {sec frac : ℕ} (h : frac < g.rate) :
    g.decayedExcess sec frac = g.excess - (sec * g.rate + frac) / 2 := by
  have hfrac : frac ≤ u64Max := h.le.trans g.inner.hertz_le
  have hx := g.excess_le
  have hhalf : (sec * g.rate + frac) / 2 = sec * g.target + frac / 2 := by
    rw [g.rate_eq, show sec * (2 * g.target) = 2 * (sec * g.target) by ring,
      Nat.mul_add_div Nat.two_pos]
  rw [decayedExcess, boundedSub_eq, boundedSub_eq, boundedMultiply_eq, g.mulDivFloor_target hfrac,
    Option.getD_some, hhalf]
  rcases le_total (sec * g.target) u64Max with hle | hge
  · rw [min_eq_left hle, Nat.sub_sub]
  · -- the product saturates, and the excess is gone either way
    omega

theorem tickedExcess_eq (used : UInt64) :
    g.tickedExcess used
      = if g.config.staticPricing then g.excess else min (g.excess + used.toNat / 2) u64Max := by
  have hsub : g.rate - g.target = g.target := by
    have := g.rate_eq
    omega
  rw [tickedExcess, hsub, g.mulDivFloor_target (UInt64.toNat_le_u64Max used), Option.getD_some,
    boundedAdd_eq]

section SkipTo

variable (g) (ff : Time × ℕ × ℕ) (hertz : ff.1.hertz = rateOf g.target)

theorem inner_skipTo : (g.skipTo ff hertz).inner = ff.1 := by
  rw [skipTo]
  split <;> rfl

theorem target_skipTo : (g.skipTo ff hertz).target = g.target := by
  rw [skipTo]
  split <;> rfl

theorem config_skipTo : (g.skipTo ff hertz).config = g.config := by
  rw [skipTo]
  split <;> rfl

theorem excess_skipTo (hfrac : ff.2.2 < g.rate) :
    (g.skipTo ff hertz).excess
      = enforceMinExcess g.config g.target (g.excess - (ff.2.1 * g.rate + ff.2.2) / 2) := by
  rw [skipTo]
  by_cases hzero : ff.2.1 = 0 ∧ ff.2.2 = 0
  · rw [if_pos hzero, hzero.1, hzero.2, Nat.zero_mul, Nat.zero_add, Nat.zero_div, Nat.sub_zero,
      g.enforced]
  · rw [if_neg hzero, ← g.decayedExcess_eq hfrac]
    rfl

end SkipTo

/-- The position the clock aims at before a block. -/
def blockPosition (g : GasTime) (unixSeconds : UInt64) (nanos : UInt32) : ℕ :=
  g.inner.target unixSeconds (gasFraction g.rate nanos)

@[simp] theorem target_beforeBlock (s : UInt64) (n : UInt32) :
    (g.beforeBlock s n).target = g.target := target_skipTo _ _ _

@[simp] theorem config_beforeBlock (s : UInt64) (n : UInt32) :
    (g.beforeBlock s n).config = g.config := config_skipTo _ _ _

theorem units_beforeBlock (s : UInt64) (n : UInt32) :
    (g.beforeBlock s n).inner.units = max g.inner.units (g.blockPosition s n) := by
  rw [beforeBlock, inner_skipTo, (g.inner.fastForwardTo_spec s _).1, blockPosition]

/-- The excess decays by half of the gas skipped. -/
theorem excess_beforeBlock (s : UInt64) (n : UInt32) :
    (g.beforeBlock s n).excess
      = enforceMinExcess g.config g.target
          (g.excess - (g.blockPosition s n - g.inner.units) / 2) := by
  obtain ⟨-, hfrac, hskip⟩ := g.inner.fastForwardTo_spec s (gasFraction g.rate n)
  rw [beforeBlock, excess_skipTo _ _ _ hfrac, blockPosition, ← hskip, rate]

/-! ## Clocks that trail others -/

/-- `g` is at no later an instant than `g'`, with no more excess. -/
structure Trails (g g' : GasTime) : Prop where
  target : g.target = g'.target
  config : g.config = g'.config
  units : g.inner.units ≤ g'.inner.units
  excess : g.excess ≤ g'.excess

/-- The second in which the clock stands after a block, had it room for every number of them. -/
def endSecond (g : GasTime) (used newTarget : UInt64) : ℕ :=
  let rate := rateOf (clampTarget newTarget.toNat)
  Time.rescaled (g.inner.units + used.toNat) g.inner.hertz rate / rate

theorem Trails.refl : g.Trails g := ⟨rfl, rfl, le_rfl, le_rfl⟩

section Trails

variable (h : g.Trails g')
include h

theorem Trails.hertz_eq : g.inner.hertz = g'.inner.hertz := by
  rw [g.hertz_eq, g'.hertz_eq, h.target]

theorem Trails.rate_eq : g.rate = g'.rate := h.hertz_eq

theorem Trails.price_le : g.price ≤ g'.price := by
  have hk : g.excessScalingFactor = g'.excessScalingFactor := by
    rw [excessScalingFactor, excessScalingFactor, h.config, h.target]
  rw [price, price, hk, h.config]
  exact max_le_max_right _ (calculatePriceXk_mono _ h.excess)

theorem Trails.compare_ne_gt : g.compare g' ≠ .gt := (Time.compare_ne_gt_iff h.hertz_eq).mpr h.units

/-- Both clocks aim at the same instant; the one behind skips more gas and decays more. -/
theorem Trails.beforeBlock (s : UInt64) (n : UInt32) :
    (g.beforeBlock s n).Trails (g'.beforeBlock s n) := by
  have hpos : g.blockPosition s n = g'.blockPosition s n := by
    rw [blockPosition, blockPosition, h.rate_eq, Time.target_eq_of_hertz h.hertz_eq]
  have hunits := h.units
  have hexcess := h.excess
  refine ⟨?_, ?_, ?_, ?_⟩
  · rw [target_beforeBlock, target_beforeBlock, h.target]
  · rw [config_beforeBlock, config_beforeBlock, h.config]
  · rw [units_beforeBlock, units_beforeBlock, hpos]
    exact max_le_max_right _ hunits
  · rw [excess_beforeBlock, excess_beforeBlock, hpos, h.config, h.target]
    exact enforceMinExcess_mono (by omega)

theorem Trails.tickedExcess_le {used used' : UInt64} (hused : used ≤ used') :
    g.tickedExcess used ≤ g'.tickedExcess used' := by
  have hexcess := h.excess
  have hnat : used.toNat ≤ used'.toNat := UInt64.le_iff_toNat_le.mp hused
  rw [tickedExcess_eq, tickedExcess_eq, h.config]
  split
  · exact hexcess
  · exact min_le_min_right _ (by omega)

theorem Trails.rescaledExcess_le (newTarget : ℕ) (config : GasPriceConfig) :
    g.rescaledExcess newTarget config ≤ g'.rescaledExcess newTarget config := by
  rw [rescaledExcess, rescaledExcess, h.config, h.target]
  split
  · exact le_rfl
  · exact scaleExcess_mono h.excess

end Trails

/-- Floor division undoes a change of rate up to its rounding. -/
theorem div_le_rescaled_div {units old new : ℕ} (hold : 0 < old) (hnew : 0 < new) :
    units / old ≤ Time.rescaled units old new / new := by
  rw [Nat.le_div_iff_mul_le hnew, Time.rescaled, Nat.ceilDiv_eq_add_pred_div,
    Nat.le_div_iff_mul_le hold]
  have hmul : units / old * new * old ≤ units * new := by
    rw [Nat.mul_right_comm]
    exact Nat.mul_le_mul_right _ (Nat.div_mul_le_self _ _)
  omega

theorem units_tick {used newTarget : UInt64}
    (hend : g.endSecond used newTarget ≤ u64Max) :
    (g.tick used).inner.units = g.inner.units + used.toNat := by
  refine Time.units_tick (le_trans ?_ hend)
  exact div_le_rescaled_div g.inner.hertz_pos (rateOf_clampTarget_pos _)

/-- After a block that ends in range the position has moved by the gas used and been rescaled. -/
theorem units_afterBlock {used newTarget : UInt64} {config : GasPriceConfig}
    (hend : g.endSecond used newTarget ≤ u64Max) :
    (g.afterBlock used newTarget config).inner.units
      = Time.rescaled (g.inner.units + used.toNat) g.inner.hertz
          (rateOf (clampTarget newTarget.toNat)) := by
  have htick := g.units_tick hend
  have hfits : Time.rescaled (g.tick used).inner.units (g.tick used).inner.hertz
      (rateOf (clampTarget newTarget.toNat)) / rateOf (clampTarget newTarget.toNat) ≤ u64Max := by
    rw [htick]
    exact hend
  rw [← htick]
  exact Time.units_setRate (rateOf_clampTarget_pos newTarget.toNat) (rateOf_le _) hfits

theorem Trails.endSecond_le (h : g.Trails g') {used used' : UInt64} (hused : used ≤ used')
    (newTarget : UInt64) : g.endSecond used newTarget ≤ g'.endSecond used' newTarget := by
  have hnat : used.toNat ≤ used'.toNat := UInt64.le_iff_toNat_le.mp hused
  have hunits := h.units
  rw [endSecond, endSecond, h.hertz_eq]
  exact Nat.div_le_div_right (Time.rescaled_mono (by omega))

theorem Trails.tick (h : g.Trails g') {used used' newTarget : UInt64} (hused : used ≤ used')
    (hend : g'.endSecond used' newTarget ≤ u64Max) : (g.tick used).Trails (g'.tick used') := by
  have hnat : used.toNat ≤ used'.toNat := UInt64.le_iff_toNat_le.mp hused
  have hunits := h.units
  refine ⟨h.target, h.config, ?_, h.tickedExcess_le hused⟩
  rw [g.units_tick ((h.endSecond_le hused newTarget).trans hend), g'.units_tick hend]
  omega

/-- A block that uses no more gas keeps the order, as long as the clock ahead ends in range. -/
theorem Trails.afterBlock (h : g.Trails g') {used used' newTarget : UInt64} (hused : used ≤ used')
    (hend : g'.endSecond used' newTarget ≤ u64Max) (config : GasPriceConfig) :
    (g.afterBlock used newTarget config).Trails (g'.afterBlock used' newTarget config) := by
  have htick := h.tick hused hend
  refine ⟨rfl, rfl, ?_, enforceMinExcess_mono (htick.rescaledExcess_le _ config)⟩
  have hnat : used.toNat ≤ used'.toNat := UInt64.le_iff_toNat_le.mp hused
  have hunits := h.units
  rw [g.units_afterBlock ((h.endSecond_le hused newTarget).trans hend), g'.units_afterBlock hend,
    h.hertz_eq]
  exact Time.rescaled_mono (by omega)

-- The blocks that use the clock rely on the order above, never on how it is computed.
attribute [irreducible] beforeBlock afterBlock price

end GasTime

end Avalanche.Sae
