import Avalanche.Sae.IntMath

/-!
# The proxy clock

An instant is a number of whole seconds and a fraction of a second counted in proxy units (gas),
`hertz` of them to a second. Seconds saturate at `u64Max`; the fraction is always below `hertz`.

The position of a clock is `units`, its instant counted in proxy units from the epoch. Away from
the saturation the three mutations are arithmetic on positions: a tick adds, a fast-forward takes a
maximum, a change of rate rescales and rounds up. Two clocks of one rate compare as their positions.
-/

namespace Avalanche.Sae

@[irreducible] def nanosPerSecond : ℕ := 1000000000

theorem nanosPerSecond_pos : 0 < nanosPerSecond := by
  unfold nanosPerSecond
  decide

/-- `i64::MAX`, the last second of a `SystemTime`. -/
@[irreducible] def i64Max : ℕ := 2 ^ 63 - 1

/-- `proxytime::Time<u64>`. -/
@[ext] structure Time where
  seconds : ℕ
  fraction : ℕ
  hertz : ℕ
  fraction_lt : fraction < hertz
  seconds_le : seconds ≤ u64Max
  hertz_le : hertz ≤ u64Max
deriving DecidableEq

namespace Time

variable {t t' : Time}

theorem hertz_pos (t : Time) : 0 < t.hertz := Nat.zero_lt_of_lt t.fraction_lt

/-- Advances the clock by `d` proxy units. -/
def tick (t : Time) (d : ℕ) : Time where
  seconds := saturatingAdd t.seconds (min ((t.fraction + d) / t.hertz) u64Max)
  fraction := (t.fraction + d) % t.hertz
  hertz := t.hertz
  fraction_lt := Nat.mod_lt _ t.hertz_pos
  seconds_le := saturatingAdd_le _ _
  hertz_le := t.hertz_le

/-- A clock at `seconds` with the sub-second part `frac` normalised by a tick. -/
def new (seconds : UInt64) (frac hertz : ℕ) (pos : 0 < hertz) (le : hertz ≤ u64Max) : Time :=
  tick ⟨seconds.toNat, 0, hertz, pos, UInt64.toNat_le_u64Max seconds, le⟩ frac

/-- Whether `(sec, num)` is strictly later. -/
def isFuture (t : Time) (sec num : ℕ) : Bool :=
  if sec ≠ t.seconds then decide (sec > t.seconds) else decide (num > t.fraction)

/-- The instant `(dest, destFrac)` with the fraction brought below one second. -/
def normalise (t : Time) (dest destFrac : ℕ) : ℕ × ℕ :=
  (saturatingAdd dest (min (destFrac / t.hertz) u64Max), destFrac % t.hertz)

theorem normalise_fst_le (t : Time) (dest destFrac : ℕ) : (t.normalise dest destFrac).1 ≤ u64Max :=
  saturatingAdd_le _ _

theorem normalise_snd_lt (t : Time) (dest destFrac : ℕ) : (t.normalise dest destFrac).2 < t.hertz :=
  Nat.mod_lt _ t.hertz_pos

/-- How far the clock moves to reach the later instant `(dest, destFrac)`: whole seconds and the
numerator of the fraction, with a second borrowed where the fraction falls. -/
def gap (t : Time) (dest destFrac : ℕ) : ℕ × ℕ :=
  if t.fraction > destFrac then (dest - t.seconds - 1, t.hertz + destFrac - t.fraction)
  else (dest - t.seconds, destFrac - t.fraction)

/-- Sets the clock to `(dest, destFrac)` if that is in the future, returning how far it advanced. -/
def fastForwardTo (t : Time) (dest : UInt64) (destFrac : ℕ) : Time × ℕ × ℕ :=
  let at_ := t.normalise dest.toNat destFrac
  if t.isFuture at_.1 at_.2 then
    ({ seconds := at_.1
       fraction := at_.2
       hertz := t.hertz
       fraction_lt := t.normalise_snd_lt _ _
       seconds_le := t.normalise_fst_le _ _
       hertz_le := t.hertz_le }, t.gap at_.1 at_.2)
  else (t, 0, 0)

theorem mul_ceilDiv_le (t : Time) (hertz : ℕ) : t.fraction * hertz ⌈/⌉ t.hertz ≤ hertz := by
  have h : t.fraction * hertz ≤ hertz * t.hertz := by
    rw [Nat.mul_comm hertz]
    exact Nat.mul_le_mul_right _ t.fraction_lt.le
  have hpos := t.hertz_pos
  calc (t.fraction * hertz + t.hertz - 1) / t.hertz
      ≤ (hertz * t.hertz + (t.hertz - 1)) / t.hertz := Nat.div_le_div_right (by omega)
    _ = hertz := by
      rw [Nat.mul_comm, Nat.mul_add_div hpos, Nat.div_eq_of_lt (by omega), Nat.add_zero]

/-- The rescaled fraction fits, so the `expect` in `set_rate` never fires. -/
theorem mulDivCeil_fraction (t : Time) {hertz : ℕ} (le : hertz ≤ u64Max) :
    mulDivCeil t.fraction hertz t.hertz = some (t.fraction * hertz ⌈/⌉ t.hertz) :=
  mulDivCeil_of_le t.hertz_pos ((t.mul_ceilDiv_le hertz).trans le)

/-- Changes the rate, rescaling the fraction and rounding it up. -/
def setRate (t : Time) (hertz : ℕ) (pos : 0 < hertz) (le : hertz ≤ u64Max) : Time :=
  let frac := (mulDivCeil t.fraction hertz t.hertz).getD 0
  if h : frac ≥ hertz then
    -- the ceiling reached a whole second
    { seconds := saturatingAdd t.seconds 1
      fraction := frac - hertz
      hertz := hertz
      fraction_lt := by
        have hle := t.mul_ceilDiv_le hertz
        simp only [frac, t.mulDivCeil_fraction le, Option.getD_some]
        omega
      seconds_le := saturatingAdd_le _ _
      hertz_le := le }
  else
    { seconds := t.seconds
      fraction := frac
      hertz := hertz
      fraction_lt := Nat.lt_of_not_ge h
      seconds_le := t.seconds_le
      hertz_le := le }

/-- Compares two instants, whose rates may differ, by cross-multiplying the fractions. -/
def compare (t t' : Time) : Ordering :=
  (Ord.compare t.seconds t'.seconds).then
    (Ord.compare (t.fraction * t'.hertz) (t'.fraction * t.hertz))

/-- The instant as a `SystemTime`, in nanoseconds from the epoch and rounded up. One that a
`SystemTime` cannot hold is the epoch. -/
def asTime (t : Time) : ℤ :=
  let nanos := (mulDivCeil t.fraction nanosPerSecond t.hertz).getD nanosPerSecond
  let secs := min t.seconds i64Max
  if secs + nanos / nanosPerSecond ≤ i64Max then secs * nanosPerSecond + nanos else 0

/-! ## Positions -/

/-- The instant counted in proxy units. -/
def units (t : Time) : ℕ := t.seconds * t.hertz + t.fraction

theorem units_lt_units_iff (h : t.hertz = t'.hertz) :
    t.units < t'.units ↔
      t.seconds < t'.seconds ∨ t.seconds = t'.seconds ∧ t.fraction < t'.fraction := by
  have hf := t.fraction_lt
  have hf' := t'.fraction_lt
  rw [units, units, ← h]
  rcases lt_trichotomy t.seconds t'.seconds with hlt | heq | hgt
  · have := Nat.mul_le_mul_right t.hertz (Nat.succ_le_of_lt hlt)
    rw [Nat.succ_mul] at this
    omega
  · simp [heq]
  · have := Nat.mul_le_mul_right t.hertz (Nat.succ_le_of_lt hgt)
    rw [Nat.succ_mul] at this
    omega

/-- Clocks of one rate compare as their positions. -/
theorem compare_ne_gt_iff (h : t.hertz = t'.hertz) : t.compare t' ≠ .gt ↔ t.units ≤ t'.units := by
  rw [← not_lt, units_lt_units_iff h.symm, compare, not_iff_not]
  rcases lt_trichotomy t.seconds t'.seconds with hlt | heq | hgt
  · simp [compare_lt_iff_lt.mpr hlt, hlt.not_gt, hlt.ne']
  · rw [heq, compare_eq_iff_eq.mpr rfl, Ordering.eq_then, h, compare_gt_iff_gt]
    simp [Nat.mul_lt_mul_right (h ▸ t.hertz_pos)]
  · simp [compare_gt_iff_gt.mpr hgt, hgt]

@[simp] theorem hertz_tick (t : Time) (d : ℕ) : (t.tick d).hertz = t.hertz := rfl

@[simp] theorem hertz_new (seconds : UInt64) (frac hertz : ℕ) (pos : 0 < hertz)
    (le : hertz ≤ u64Max) : (new seconds frac hertz pos le).hertz = hertz := rfl

theorem add_units_div (t : Time) (d : ℕ) :
    (t.units + d) / t.hertz = t.seconds + (t.fraction + d) / t.hertz := by
  rw [units, Nat.mul_comm, Nat.add_assoc, Nat.mul_add_div t.hertz_pos]

/-- A tick that does not saturate adds to the position. -/
theorem units_tick {d : ℕ} (h : (t.units + d) / t.hertz ≤ u64Max) :
    (t.tick d).units = t.units + d := by
  rw [add_units_div] at h
  have hsec : (t.tick d).seconds = t.seconds + (t.fraction + d) / t.hertz := by
    show saturatingAdd t.seconds (min ((t.fraction + d) / t.hertz) u64Max) = _
    rw [Nat.min_eq_left (by omega), saturatingAdd_of_le h]
  have hmod := Nat.div_add_mod (t.fraction + d) t.hertz
  have hfrac : (t.tick d).fraction = (t.fraction + d) % t.hertz := rfl
  rw [units, hsec, hfrac, hertz_tick, Nat.add_mul, units, Nat.mul_comm (_ / _)]
  omega

/-- The position a fast-forward aims at. -/
def target (t : Time) (dest : UInt64) (destFrac : ℕ) : ℕ :=
  (t.normalise dest.toNat destFrac).1 * t.hertz + (t.normalise dest.toNat destFrac).2

theorem isFuture_iff {sec num : ℕ} (h : num < t.hertz) :
    t.isFuture sec num = true ↔ t.units < sec * t.hertz + num := by
  have hf := t.fraction_lt
  rw [isFuture, units]
  rcases lt_trichotomy sec t.seconds with hlt | heq | hgt
  · have := Nat.mul_le_mul_right t.hertz (Nat.succ_le_of_lt hlt)
    rw [Nat.succ_mul] at this
    simp only [hlt.ne, ne_eq, not_false_eq_true, if_true, decide_eq_true_eq]
    omega
  · simp [heq]
  · have := Nat.mul_le_mul_right t.hertz (Nat.succ_le_of_lt hgt)
    rw [Nat.succ_mul] at this
    simp only [hgt.ne', ne_eq, not_false_eq_true, if_true, decide_eq_true_eq]
    omega

theorem gap_spec {sec num : ℕ} (h : num < t.hertz) (hlt : t.units < sec * t.hertz + num) :
    (t.gap sec num).2 < t.hertz ∧
      (t.gap sec num).1 * t.hertz + (t.gap sec num).2 = sec * t.hertz + num - t.units := by
  have hf := t.fraction_lt
  have hsec : t.seconds ≤ sec := by
    by_contra hgt
    have := Nat.mul_le_mul_right t.hertz (Nat.succ_le_of_lt (Nat.lt_of_not_ge hgt))
    rw [Nat.succ_mul] at this
    rw [units] at hlt
    omega
  by_cases hfrac : t.fraction > num
  · have hne : t.seconds < sec := by
      rcases hsec.lt_or_eq with h' | h'
      · exact h'
      · rw [units, h'] at hlt
        omega
    have hmul : (sec - t.seconds - 1) * t.hertz
        = sec * t.hertz - t.seconds * t.hertz - t.hertz := by
      rw [Nat.sub_mul, Nat.sub_mul, Nat.one_mul]
    have hle := Nat.mul_le_mul_right t.hertz (Nat.succ_le_of_lt hne)
    rw [Nat.succ_mul] at hle
    rw [gap, if_pos hfrac, units]
    dsimp only
    omega
  · have hmul : (sec - t.seconds) * t.hertz = sec * t.hertz - t.seconds * t.hertz :=
      Nat.sub_mul _ _ _
    have hle := Nat.mul_le_mul_right t.hertz hsec
    rw [gap, if_neg hfrac, units]
    dsimp only
    omega

@[simp] theorem hertz_fastForwardTo (dest : UInt64) (destFrac : ℕ) :
    (t.fastForwardTo dest destFrac).1.hertz = t.hertz := by
  rw [fastForwardTo]
  split <;> rfl

/-- A fast-forward moves the position up to its target, and reports by how much. -/
theorem fastForwardTo_spec (t : Time) (dest : UInt64) (destFrac : ℕ) :
    (t.fastForwardTo dest destFrac).1.units = max t.units (t.target dest destFrac) ∧
      (t.fastForwardTo dest destFrac).2.2 < t.hertz ∧
      (t.fastForwardTo dest destFrac).2.1 * t.hertz + (t.fastForwardTo dest destFrac).2.2
        = t.target dest destFrac - t.units := by
  have hmod := t.normalise_snd_lt dest.toNat destFrac
  rw [fastForwardTo]
  by_cases h : t.units < t.target dest destFrac
  · rw [if_pos ((isFuture_iff hmod).mpr h)]
    exact ⟨(Nat.max_eq_right h.le).symm, gap_spec hmod h⟩
  · rw [if_neg (mt (isFuture_iff hmod).mp h)]
    refine ⟨(Nat.max_eq_left (Nat.le_of_not_lt h)).symm, t.hertz_pos, ?_⟩
    simp only [Nat.zero_mul, Nat.zero_add]
    omega

theorem target_eq_of_hertz (h : t.hertz = t'.hertz) (dest : UInt64) (destFrac : ℕ) :
    t.target dest destFrac = t'.target dest destFrac := by
  simp only [target, normalise, h]

@[simp] theorem hertz_setRate (t : Time) (hertz : ℕ) (pos : 0 < hertz) (le : hertz ≤ u64Max) :
    (t.setRate hertz pos le).hertz = hertz := by
  rw [setRate]
  split <;> rfl

/-- The position at the new rate, rounded up. -/
def rescaled (units old new : ℕ) : ℕ := units * new ⌈/⌉ old

theorem rescaled_mono {u v old new : ℕ} (h : u ≤ v) : rescaled u old new ≤ rescaled v old new := by
  have := Nat.mul_le_mul_right new h
  exact Nat.div_le_div_right (by omega)

theorem rescaled_units (t : Time) (hertz : ℕ) :
    rescaled t.units t.hertz hertz = t.seconds * hertz + (t.fraction * hertz ⌈/⌉ t.hertz) := by
  have hpos := t.hertz_pos
  rw [rescaled, units, Nat.ceilDiv_eq_add_pred_div, Nat.ceilDiv_eq_add_pred_div]
  have h : (t.seconds * t.hertz + t.fraction) * hertz + t.hertz - 1
      = t.hertz * (t.seconds * hertz) + (t.fraction * hertz + t.hertz - 1) := by
    have : (t.seconds * t.hertz + t.fraction) * hertz
        = t.hertz * (t.seconds * hertz) + t.fraction * hertz := by ring
    omega
  rw [h, Nat.mul_add_div hpos]

/-- A change of rate that does not saturate rescales the position. -/
theorem units_setRate {hertz : ℕ} (pos : 0 < hertz) (le : hertz ≤ u64Max)
    (h : rescaled t.units t.hertz hertz / hertz ≤ u64Max) :
    (t.setRate hertz pos le).units = rescaled t.units t.hertz hertz := by
  have hle := t.mul_ceilDiv_le hertz
  have hfrac : (mulDivCeil t.fraction hertz t.hertz).getD 0 = t.fraction * hertz ⌈/⌉ t.hertz := by
    rw [t.mulDivCeil_fraction le, Option.getD_some]
  rw [rescaled_units] at h ⊢
  by_cases hge : (mulDivCeil t.fraction hertz t.hertz).getD 0 ≥ hertz
  · have heq : t.fraction * hertz ⌈/⌉ t.hertz = hertz := le_antisymm hle (hfrac ▸ hge)
    rw [heq, Nat.mul_comm, Nat.mul_add_div pos, Nat.div_self pos] at h
    rw [setRate, dif_pos hge]
    show saturatingAdd t.seconds 1 * hertz + ((mulDivCeil t.fraction hertz t.hertz).getD 0 - hertz)
      = _
    rw [hfrac, heq, saturatingAdd_of_le h, Nat.add_mul]
    omega
  · rw [setRate, dif_neg hge]
    show t.seconds * hertz + (mulDivCeil t.fraction hertz t.hertz).getD 0 = _
    rw [hfrac]

end Time

end Avalanche.Sae
