import Avalanche.Library.Bisect
import Avalanche.Sae.IntMath

/-!
# The gas price

The price of gas is an integer approximation of `minPrice * e ^ (excess / k)`: the terms of the
series are added up, scaled by `k`, until one of them rounds to zero or the sum reaches the largest
price. `excessForPrice` goes back from a price to an excess by bisection.

What the clock relies on is order: the price grows with the excess, and no excess that reaches a
price lies below the one the bisection returns.
-/

namespace Avalanche.Sae

/-- The loop of `calculate_price`, with the numerator `num` and denominator `den` of the exponent.
`none` is a loop that has used up its fuel. -/
def priceLoop (num den maxOutput : ℕ) : ℕ → ℕ → ℕ → ℕ → Option ℕ
  | 0, _, _, _ => none
  | fuel + 1, i, output, accum =>
    if accum = 0 then some (output / den)
    else if maxOutput ≤ output + accum then some u64Max
    else priceLoop num den maxOutput fuel (i + 1) (output + accum) (accum * num / den / i)

/-- Every round adds a positive term, so a round for each value up to the largest output is enough.
-/
def calculatePrice (minPrice excess excessConversionConstant : ℕ) : ℕ :=
  if excessConversionConstant = 0 then minPrice
  else
    let maxOutput := excessConversionConstant * u64Max
    (priceLoop excess excessConversionConstant maxOutput (maxOutput + 1) 1 0
      (minPrice * excessConversionConstant)).getD u64Max

def calculatePriceXk (x k : ℕ) : ℕ := calculatePrice 1 x k

/-- One round of the bisection for the least excess whose price reaches `p`. -/
def bisectStep (p k : ℕ) (s : ℕ × ℕ) : Option (ℕ × ℕ) :=
  if s.1 < s.2 then
    let mid := s.1 + (s.2 - s.1) / 2
    if calculatePriceXk mid k ≥ p then some (s.1, mid) else some (mid + 1, s.2)
  else none

/-- An integer approximation of `ln p * k`. A price that no excess gives exactly is approached from
below. -/
def excessForPrice (p k : ℕ) : ℕ :=
  if p ≤ 1 then 0
  else
    match Loop.run (fun s ↦ .ok (bisectStep p k s)) () 65 (1, u64Max) with
    | .ok (lo, _) => if calculatePriceXk lo k > p then lo - 1 else lo
    | .error () => 0

/-! ## The price is defined and grows with the excess -/

section PriceLoop

variable {num num' den maxOutput : ℕ}

theorem priceLoop_isSome {fuel i output accum : ℕ} (hle : output ≤ maxOutput)
    (hfuel : maxOutput < fuel + output) :
    (priceLoop num den maxOutput fuel i output accum).isSome := by
  induction fuel generalizing i output accum with
  | zero => omega
  | succ fuel ih =>
    rw [priceLoop]
    by_cases hzero : accum = 0
    · simp [hzero]
    · rw [if_neg hzero]
      by_cases hmax : maxOutput ≤ output + accum
      · simp [hmax]
      · rw [if_neg hmax]
        exact ih (by omega) (by omega)

/-- The price lies between what has been added up so far and the largest price. -/
theorem priceLoop_bounds {fuel i output accum price : ℕ}
    (hle : output ≤ den * u64Max)
    (h : priceLoop num den (den * u64Max) fuel i output accum = some price) :
    output / den ≤ price ∧ price ≤ u64Max := by
  induction fuel generalizing i output accum with
  | zero => cases h
  | succ fuel ih =>
    have hdiv : output / den ≤ u64Max := Nat.div_le_of_le_mul hle
    rw [priceLoop] at h
    by_cases hzero : accum = 0
    · rw [if_pos hzero] at h
      cases h
      exact ⟨le_rfl, hdiv⟩
    · rw [if_neg hzero] at h
      by_cases hmax : den * u64Max ≤ output + accum
      · rw [if_pos hmax] at h
        cases h
        exact ⟨hdiv, le_rfl⟩
      · rw [if_neg hmax] at h
        obtain ⟨hlow, hhigh⟩ := ih (by omega) h
        exact ⟨(Nat.div_le_div_right (Nat.le_add_right _ _)).trans hlow, hhigh⟩

/-- Two runs side by side: the one that is ahead in sum and term stays ahead. -/
theorem priceLoop_mono (hnum : num ≤ num')
    {fuel i output output' accum accum' price price' : ℕ}
    (hout : output ≤ output') (hout' : output' ≤ den * u64Max) (hacc : accum ≤ accum')
    (h : priceLoop num den (den * u64Max) fuel i output accum = some price)
    (h' : priceLoop num' den (den * u64Max) fuel i output' accum' = some price') :
    price ≤ price' := by
  induction fuel generalizing i output output' accum accum' with
  | zero => cases h
  | succ fuel ih =>
    have hprice := (priceLoop_bounds (hout.trans hout') h).2
    by_cases hzero : accum = 0
    · -- the run behind has stopped at what it has added up
      rw [priceLoop, if_pos hzero] at h
      cases h
      exact (Nat.div_le_div_right hout).trans (priceLoop_bounds hout' h').1
    · have hzero' : accum' ≠ 0 := by omega
      rw [priceLoop, if_neg hzero'] at h'
      by_cases hmax' : den * u64Max ≤ output' + accum'
      · rw [if_pos hmax'] at h'
        cases h'
        exact hprice
      · have hmax : ¬ den * u64Max ≤ output + accum := by omega
        rw [if_neg hmax'] at h'
        rw [priceLoop, if_neg hzero, if_neg hmax] at h
        refine ih (by omega) (by omega) ?_ h h'
        exact Nat.div_le_div_right (Nat.div_le_div_right (Nat.mul_le_mul hacc hnum))

end PriceLoop

/-- The loop of `calculate_price` ends with a price. -/
theorem exists_priceLoop_eq (minPrice excess k : ℕ) :
    ∃ price, priceLoop excess k (k * u64Max) (k * u64Max + 1) 1 0 (minPrice * k) = some price :=
  Option.isSome_iff_exists.mp (priceLoop_isSome (Nat.zero_le _) (by omega))

theorem calculatePrice_of_loop {minPrice excess k price : ℕ} (hk : k ≠ 0)
    (h : priceLoop excess k (k * u64Max) (k * u64Max + 1) 1 0 (minPrice * k) = some price) :
    calculatePrice minPrice excess k = price := by
  simp only [calculatePrice, if_neg hk, h, Option.getD_some]

/-- The price grows with the minimum price and with the excess. -/
theorem calculatePrice_le_calculatePrice (k : ℕ) {minPrice minPrice' x y : ℕ}
    (hmin : minPrice ≤ minPrice') (h : x ≤ y) :
    calculatePrice minPrice x k ≤ calculatePrice minPrice' y k := by
  by_cases hk : k = 0
  · rwa [calculatePrice, calculatePrice, if_pos hk, if_pos hk]
  · obtain ⟨price, hprice⟩ := exists_priceLoop_eq minPrice x k
    obtain ⟨price', hprice'⟩ := exists_priceLoop_eq minPrice' y k
    rw [calculatePrice_of_loop hk hprice, calculatePrice_of_loop hk hprice']
    exact priceLoop_mono h le_rfl (Nat.zero_le _) (Nat.mul_le_mul_right k hmin) hprice hprice'

theorem calculatePrice_mono (minPrice k : ℕ) {x y : ℕ} (h : x ≤ y) :
    calculatePrice minPrice x k ≤ calculatePrice minPrice y k :=
  calculatePrice_le_calculatePrice k le_rfl h

theorem calculatePriceXk_mono (k : ℕ) {x y : ℕ} (h : x ≤ y) :
    calculatePriceXk x k ≤ calculatePriceXk y k := calculatePrice_mono 1 k h

/-! ## The series that is added up -/

section Series

/-- The terms of the series, each of them rounded down twice. -/
def term (minPrice excess k : ℕ) : ℕ → ℕ
  | 0 => minPrice * k
  | n + 1 => term minPrice excess k n * excess / k / (n + 1)

/-- The sum of the first `n` terms. -/
def partialSum (minPrice excess k n : ℕ) : ℕ := ∑ j ∈ Finset.range n, term minPrice excess k j

variable {minPrice excess k : ℕ}

theorem partialSum_succ (n : ℕ) :
    partialSum minPrice excess k (n + 1)
      = partialSum minPrice excess k n + term minPrice excess k n :=
  Finset.sum_range_succ _ n

/-- After a term that is zero there is none that is not. -/
theorem term_eq_zero_of_le {m n : ℕ} (h : term minPrice excess k m = 0) (hle : m ≤ n) :
    term minPrice excess k n = 0 := by
  induction n, hle using Nat.le_induction with
  | base => exact h
  | succ n _ ih => simp [term, ih]

/-- No sum is above the one that ends at a term that is zero. -/
theorem partialSum_le_of_term_eq_zero {m : ℕ} (h : term minPrice excess k m = 0) (n : ℕ) :
    partialSum minPrice excess k n ≤ partialSum minPrice excess k m := by
  refine Finset.sum_le_sum_of_ne_zero fun j _ hj ↦ Finset.mem_range.mpr ?_
  by_contra hle
  exact hj (term_eq_zero_of_le h (Nat.le_of_not_lt hle))

/-- The loop, entered with the first `n` terms added up, ends at a sum that reaches the bound or at
the first term that is zero. -/
theorem priceLoop_series {fuel n price : ℕ} (hlt : partialSum minPrice excess k n < k * u64Max)
    (h : priceLoop excess k (k * u64Max) fuel (n + 1) (partialSum minPrice excess k n)
      (term minPrice excess k n) = some price) :
    (price = u64Max ∧ ∃ m, k * u64Max ≤ partialSum minPrice excess k m) ∨
      ∃ m, term minPrice excess k m = 0 ∧ partialSum minPrice excess k m < k * u64Max ∧
        price = partialSum minPrice excess k m / k := by
  induction fuel generalizing n with
  | zero => cases h
  | succ fuel ih =>
    rw [priceLoop] at h
    by_cases hzero : term minPrice excess k n = 0
    · rw [if_pos hzero, Option.some_inj] at h
      exact .inr ⟨n, hzero, hlt, h.symm⟩
    · rw [if_neg hzero, ← partialSum_succ] at h
      by_cases hmax : k * u64Max ≤ partialSum minPrice excess k (n + 1)
      · rw [if_pos hmax, Option.some_inj] at h
        exact .inl ⟨h.symm, n + 1, hmax⟩
      · rw [if_neg hmax] at h
        exact ih (Nat.lt_of_not_le hmax) h

/-- The price is the largest one if a sum reaches the bound, and otherwise the whole series. -/
theorem calculatePrice_cases (minPrice excess : ℕ) (hk : 0 < k) :
    (calculatePrice minPrice excess k = u64Max ∧ ∃ m, k * u64Max ≤ partialSum minPrice excess k m) ∨
      ∃ m, term minPrice excess k m = 0 ∧ partialSum minPrice excess k m < k * u64Max ∧
        calculatePrice minPrice excess k = partialSum minPrice excess k m / k := by
  obtain ⟨price, hprice⟩ := exists_priceLoop_eq minPrice excess k
  rw [calculatePrice_of_loop hk.ne' hprice]
  have hmax : 0 < u64Max := by
    rw [u64Max_eq]
    omega
  exact priceLoop_series (n := 0) (Nat.mul_pos hk hmax) hprice

theorem calculatePrice_eq_max_iff (minPrice excess : ℕ) (hk : 0 < k) :
    calculatePrice minPrice excess k = u64Max ↔
      ∃ m, k * u64Max ≤ partialSum minPrice excess k m := by
  refine ⟨fun h ↦ ?_, fun ⟨n, hn⟩ ↦ ?_⟩
  · obtain ⟨-, hreach⟩ | ⟨m, -, hlt, hprice⟩ := calculatePrice_cases minPrice excess hk
    · exact hreach
    · have := Nat.div_lt_of_lt_mul hlt
      omega
  · obtain ⟨hprice, -⟩ | ⟨m, hzero, hlt, -⟩ := calculatePrice_cases minPrice excess hk
    · exact hprice
    · have := partialSum_le_of_term_eq_zero hzero n
      omega

theorem le_calculatePrice {minPrice : ℕ} (hmin : minPrice ≤ u64Max) (excess : ℕ) (hk : 0 < k) :
    minPrice ≤ calculatePrice minPrice excess k := by
  obtain ⟨hprice, -⟩ | ⟨m, hzero, -, hprice⟩ := calculatePrice_cases minPrice excess hk
  · rwa [hprice]
  · rw [hprice, Nat.le_div_iff_mul_le hk]
    have hone := partialSum_le_of_term_eq_zero hzero 1
    rwa [partialSum, Finset.sum_range_one] at hone

/-- Without excess the price is the minimum price. -/
theorem calculatePrice_zero {minPrice : ℕ} (hmin : minPrice ≤ u64Max) (hk : 0 < k) :
    calculatePrice minPrice 0 k = minPrice := by
  refine le_antisymm ?_ (le_calculatePrice hmin 0 hk)
  have hsum (n : ℕ) : partialSum minPrice 0 k n ≤ k * minPrice := by
    have hone := partialSum_le_of_term_eq_zero (show term minPrice 0 k 1 = 0 by simp [term]) n
    rwa [partialSum, partialSum, Finset.sum_range_one, term, Nat.mul_comm] at hone
  obtain ⟨hprice, n, hn⟩ | ⟨n, -, -, hprice⟩ := calculatePrice_cases minPrice 0 hk
  · rw [hprice]
    exact Nat.le_of_mul_le_mul_left (hn.trans (hsum n)) hk
  · rw [hprice]
    exact Nat.div_le_of_le_mul (hsum n)

theorem calculatePriceXk_zero (k : ℕ) : calculatePriceXk 0 k = 1 := by
  rw [calculatePriceXk]
  rcases Nat.eq_zero_or_pos k with rfl | hk
  · rfl
  · exact calculatePrice_zero (by rw [u64Max_eq]; omega) hk

end Series

/-! ## The bisection inverts the price -/

/-- Sixty-five rounds close the bracket. Then `lo` is below every excess that reaches `p`, and
reaches it itself unless none does. -/
theorem exists_bisect_eq {p : ℕ} (k : ℕ) (hp : 1 < p) :
    ∃ lo, Loop.run (fun s ↦ .ok (bisectStep p k s)) () 65 (1, u64Max) = .ok (lo, lo) ∧
      1 ≤ lo ∧ lo ≤ u64Max ∧ (∀ y, p ≤ calculatePriceXk y k → lo ≤ y) ∧
      (lo = u64Max ∨ p ≤ calculatePriceXk lo k) := by
  have hmono (x y : ℕ) (hxy : x ≤ y) (hx : calculatePriceXk x k ≥ p) : calculatePriceXk y k ≥ p :=
    hx.trans (calculatePriceXk_mono k hxy)
  refine Bisect.exists_run_eq 1 u64Max 64 hmono (fun y hy ↦ ?_) (by rw [u64Max_eq]; omega)
    (by rw [u64Max_eq]; omega)
  rcases Nat.eq_zero_or_pos y with rfl | hpos
  · rw [calculatePriceXk_zero] at hy
    omega
  · exact hpos

theorem excessForPrice_le_of_le {p k y : ℕ} (h : p ≤ calculatePriceXk y k) :
    excessForPrice p k ≤ y := by
  rw [excessForPrice]
  by_cases hp : p ≤ 1
  · rw [if_pos hp]
    exact Nat.zero_le _
  · obtain ⟨lo, hrun, -, -, hbelow, -⟩ := exists_bisect_eq k (Nat.lt_of_not_ge hp)
    have hlo := hbelow y h
    rw [if_neg hp, hrun]
    dsimp only
    split <;> omega

theorem excessForPrice_le (p k : ℕ) : excessForPrice p k ≤ u64Max := by
  rw [excessForPrice]
  by_cases hp : p ≤ 1
  · rw [if_pos hp]
    exact Nat.zero_le _
  · obtain ⟨lo, hrun, -, hle, -⟩ := exists_bisect_eq k (Nat.lt_of_not_ge hp)
    rw [if_neg hp, hrun]
    dsimp only
    split <;> omega

theorem excessForPrice_eq {p k lo : ℕ} (hp : 1 < p)
    (hrun : Loop.run (fun s ↦ .ok (bisectStep p k s)) () 65 (1, u64Max) = .ok (lo, lo)) :
    excessForPrice p k = if calculatePriceXk lo k > p then lo - 1 else lo := by
  rw [excessForPrice, if_neg (Nat.not_le.mpr hp), hrun]

/-- The excess of a price that some excess has is the least one that reaches it. That of any other
price above one is the greatest one that stays below it. -/
theorem excessForPrice_inverts (p k : UInt64) :
    ((∃ x : UInt64, calculatePriceXk x.toNat k.toNat = p.toNat) →
      IsLeast {x | x ≤ u64Max ∧ p.toNat ≤ calculatePriceXk x k.toNat}
        (excessForPrice p.toNat k.toNat)) ∧
    ((∀ x : UInt64, calculatePriceXk x.toNat k.toNat ≠ p.toNat) → 1 < p.toNat →
      IsGreatest {x | x ≤ u64Max ∧ calculatePriceXk x k.toNat < p.toNat}
        (excessForPrice p.toNat k.toNat)) := by
  constructor
  · rintro ⟨x, hx⟩
    refine ⟨⟨excessForPrice_le _ _, ?_⟩, fun y hy ↦ excessForPrice_le_of_le hy.2⟩
    by_cases hp : p.toNat ≤ 1
    · rw [excessForPrice, if_pos hp, calculatePriceXk_zero]
      exact hp
    · obtain ⟨lo, hrun, -, -, hbelow, habove⟩ := exists_bisect_eq k.toNat (Nat.lt_of_not_ge hp)
      -- the least excess that reaches the price lies at or below the one that has it
      have hlo : lo ≤ x.toNat := hbelow _ hx.ge
      have hle : calculatePriceXk lo k.toNat ≤ p.toNat := hx ▸ calculatePriceXk_mono _ hlo
      rw [excessForPrice_eq (Nat.lt_of_not_ge hp) hrun, if_neg (Nat.not_lt.mpr hle)]
      rcases habove with hmax | hreach
      · have hxlo : x.toNat = lo := le_antisymm (hmax ▸ UInt64.toNat_le_u64Max x) hlo
        rw [← hxlo, hx]
      · exact hreach
  · intro hnone hp
    obtain ⟨lo, hrun, hpos, hmax, hbelow, habove⟩ := exists_bisect_eq k.toNat hp
    have hne : calculatePriceXk lo k.toNat ≠ p.toNat := by
      have hword := hnone (UInt64.ofNat lo)
      rwa [UInt64.toNat_ofNat_of_le hmax] at hword
    rw [excessForPrice_eq hp hrun]
    by_cases hgt : calculatePriceXk lo k.toNat > p.toNat
    · rw [if_pos hgt]
      refine ⟨⟨by omega, ?_⟩, fun y hy ↦ ?_⟩
      · by_contra hge
        have := hbelow _ (Nat.le_of_not_lt hge)
        omega
      · by_contra hlt
        have := calculatePriceXk_mono k.toNat (show lo ≤ y by omega)
        exact absurd hy.2 (by omega)
    · rw [if_neg hgt]
      have hlo : lo = u64Max := by
        rcases habove with h | h
        · exact h
        · omega
      exact ⟨⟨hmax, by omega⟩, fun y hy ↦ hlo ▸ hy.1⟩

end Avalanche.Sae
