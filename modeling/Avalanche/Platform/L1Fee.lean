import Avalanche.Platform.Fee

/-!
# The continuous fee, second by second

The excess moves by the same amount every second, and each second costs what the price is after its
move. `exactCost` adds these prices up. The source takes shortcuts: it moves the excess over many
seconds at once, multiplies where the price does not change, and stops counting where the excess has
come down to zero. `fee_exact` says that none of them shows.
-/

namespace Avalanche.Platform.L1State

/-- The loop of `seconds_remaining`, with `n` seconds to go. -/
def secondsLoop (c : L1Config) (maxSeconds : ℕ) : ℕ → L1State → ℕ → ℕ
  | 0, _, _ => maxSeconds
  | n + 1, s, funds =>
    let seconds := maxSeconds - (n + 1)
    let s := s.advanceOne c.target
    if s.excess = 0 then
      min ((checkedAdd seconds (funds / c.minPrice)).getD maxSeconds) maxSeconds
    else
      let price := calculatePrice c.minPrice s.excess c.k
      if price > funds then seconds else secondsLoop c maxSeconds n s (funds - price)

def secondsRemaining (s : L1State) (c : L1Config) (maxSeconds funds : ℕ) : ℕ :=
  if c.minPrice = 0 then maxSeconds
  else if s.current = c.target then
    min (funds / calculatePrice c.minPrice s.excess c.k) maxSeconds
  else secondsLoop c maxSeconds maxSeconds s funds

/-- What `n` seconds cost, each at the price after it. -/
def exactCost (s : L1State) (c : L1Config) (n : ℕ) : ℕ :=
  ∑ i ∈ Finset.range n,
    calculatePrice c.minPrice (((advanceOne · c.target)^[i + 1] s).excess) c.k

variable {s : L1State} {c : L1Config}

@[simp] theorem exactCost_zero : s.exactCost c 0 = 0 := rfl

theorem exactCost_succ (n : ℕ) :
    s.exactCost c (n + 1) = calculatePrice c.minPrice (s.advanceOne c.target).excess c.k
      + (s.advanceOne c.target).exactCost c n := by
  rw [exactCost, Finset.sum_range_succ', Nat.add_comm]
  rfl

/-- If no second changes the price, the cost is a multiple of it. -/
theorem exactCost_eq_mul {price : ℕ} (P : L1State → Prop)
    (hP : ∀ s, P s → P (s.advanceOne c.target) ∧
      calculatePrice c.minPrice (s.advanceOne c.target).excess c.k = price)
    (h : P s) (n : ℕ) : s.exactCost c n = n * price := by
  induction n generalizing s with
  | zero => rw [exactCost_zero, Nat.zero_mul]
  | succ n ih => rw [exactCost_succ, (hP s h).2, ih (hP s h).1, Nat.succ_mul, Nat.add_comm]

theorem exactCost_of_eq (h : s.current = c.target) (n : ℕ) :
    s.exactCost c n = n * calculatePrice c.minPrice s.excess c.k := by
  have hone : s.advanceOne c.target = s := by
    rw [advanceOne, if_neg h.not_lt, if_neg h.symm.not_lt]
  refine exactCost_eq_mul (· = s) (fun s' hs' ↦ ?_) rfl n
  rw [hs', hone]
  exact ⟨rfl, rfl⟩

/-- An excess that has come down to zero stays there. -/
theorem excess_advanceOne_eq_zero {target : ℕ} (h : (s.advanceOne target).excess = 0) :
    ((s.advanceOne target).advanceOne target).excess = 0 := by
  have hmax := u64Max_eq
  simp only [advanceOne, saturatingAdd] at h ⊢
  split_ifs at h ⊢ <;> omega

section

variable (hmin : c.minPrice ≤ u64Max)
include hmin

theorem calculatePrice_zero_excess : calculatePrice c.minPrice 0 c.k = c.minPrice :=
  Sae.calculatePrice_zero hmin (by omega)

theorem exactCost_of_excess_eq_zero (h : (s.advanceOne c.target).excess = 0) (n : ℕ) :
    s.exactCost c n = n * c.minPrice := by
  refine exactCost_eq_mul (fun s ↦ (s.advanceOne c.target).excess = 0) (fun s hs ↦ ?_) h n
  exact ⟨excess_advanceOne_eq_zero hs, by rw [hs, calculatePrice_zero_excess hmin]⟩

/-- The loop of `cost_of` adds up the cost, as far as it fits. -/
theorem costLoop_eq (n : ℕ) {cost : ℕ} (hcost : cost ≤ u64Max) :
    costLoop c n s cost = min (cost + s.exactCost c n) u64Max := by
  induction n generalizing s cost with
  | zero =>
    rw [costLoop, exactCost_zero]
    omega
  | succ n ih =>
    rw [costLoop]
    by_cases hzero : (s.advanceOne c.target).excess = 0
    · rw [if_pos hzero, exactCost_of_excess_eq_zero hmin hzero, saturatingAdd, saturatingMul,
        Nat.mul_comm]
      omega
    · rw [if_neg hzero, exactCost_succ, checkedAdd]
      by_cases hfits : cost + calculatePrice c.minPrice (s.advanceOne c.target).excess c.k ≤ u64Max
      · simp only [if_pos hfits, ih hfits]
        omega
      · simp only [if_neg hfits]
        omega

theorem costOf_eq (n : ℕ) : s.costOf c n = min (s.exactCost c n) u64Max := by
  rw [costOf]
  by_cases htarget : s.current = c.target
  · rw [if_pos htarget, exactCost_of_eq htarget, saturatingMul]
  · rw [if_neg htarget, costLoop_eq hmin n (Nat.zero_le _), Nat.zero_add]

variable (hpos : 0 < c.minPrice)
include hpos

/-- The loop of `seconds_remaining` goes on for as many seconds as the funds pay for. -/
theorem secondsLoop_spec {maxSeconds : ℕ} (hmax : maxSeconds ≤ u64Max) (n funds : ℕ)
    (hn : n ≤ maxSeconds) :
    ∃ j, secondsLoop c maxSeconds n s funds = maxSeconds - n + j ∧
      IsGreatest {m | m ≤ n ∧ s.exactCost c m ≤ funds} j := by
  induction n generalizing s funds with
  | zero => exact ⟨0, rfl, ⟨le_rfl, Nat.zero_le _⟩, fun m hm ↦ hm.1⟩
  | succ n ih =>
    rw [secondsLoop]
    by_cases hzero : (s.advanceOne c.target).excess = 0
    · refine ⟨min (funds / c.minPrice) (n + 1), ?_, ⟨min_le_right _ _, ?_⟩, fun m hm ↦ ?_⟩
      · rw [if_pos hzero, checkedAdd]
        split_ifs
        · rw [Option.getD_some]
          omega
        · rw [Option.getD_none]
          omega
      · rw [exactCost_of_excess_eq_zero hmin hzero]
        exact (Nat.mul_le_mul_right _ (min_le_left _ _)).trans (Nat.div_mul_le_self _ _)
      · obtain ⟨hle, hm⟩ := hm
        rw [exactCost_of_excess_eq_zero hmin hzero] at hm
        exact le_min ((Nat.le_div_iff_mul_le hpos).mpr hm) hle
    · rw [if_neg hzero]
      by_cases hprice : calculatePrice c.minPrice (s.advanceOne c.target).excess c.k > funds
      · -- the next second is too expensive
        refine ⟨0, if_pos hprice, ⟨Nat.zero_le _, Nat.zero_le _⟩, fun m hm ↦ ?_⟩
        obtain ⟨-, hm⟩ := hm
        rcases m with - | m
        · exact le_rfl
        · rw [exactCost_succ] at hm
          omega
      · obtain ⟨j, hj, ⟨hjn, hjcost⟩, hgreatest⟩ := ih (s := s.advanceOne c.target)
          (funds - calculatePrice c.minPrice (s.advanceOne c.target).excess c.k) (by omega)
        refine ⟨j + 1, ?_, ⟨by omega, ?_⟩, fun m hm ↦ ?_⟩
        · rw [if_neg hprice, hj]
          omega
        · rw [exactCost_succ]
          omega
        · obtain ⟨hle, hm⟩ := hm
          rcases m with - | m
          · exact Nat.zero_le _
          · rw [exactCost_succ] at hm
            exact Nat.succ_le_succ (hgreatest ⟨by omega, by omega⟩)

theorem secondsRemaining_spec {maxSeconds : ℕ} (hmax : maxSeconds ≤ u64Max) (funds : ℕ) :
    IsGreatest {m | m ≤ maxSeconds ∧ s.exactCost c m ≤ funds}
      (s.secondsRemaining c maxSeconds funds) := by
  rw [secondsRemaining, if_neg hpos.ne']
  by_cases htarget : s.current = c.target
  · have hprice : 0 < calculatePrice c.minPrice s.excess c.k :=
      hpos.trans_le (Sae.le_calculatePrice hmin _ (by omega))
    rw [if_pos htarget]
    refine ⟨⟨min_le_right _ _, ?_⟩, fun m hm ↦ ?_⟩
    · rw [exactCost_of_eq htarget]
      exact (Nat.mul_le_mul_right _ (min_le_left _ _)).trans (Nat.div_mul_le_self _ _)
    · obtain ⟨hle, hm⟩ := hm
      rw [exactCost_of_eq htarget] at hm
      exact le_min ((Nat.le_div_iff_mul_le hprice).mpr hm) hle
  · obtain ⟨j, hj, hgreatest⟩ := secondsLoop_spec hmin hpos hmax maxSeconds funds le_rfl (s := s)
    rw [if_neg htarget, hj, Nat.sub_self, Nat.zero_add]
    exact hgreatest

end

/-- Two advances are one over the sum of their seconds. -/
theorem advanceTime_advanceTime (h : s.excess ≤ u64Max) (target a b : ℕ) :
    (s.advanceTime target a).advanceTime target b = s.advanceTime target (a + b) := by
  simp only [advanceTime, saturatingAdd, saturatingMul, Nat.mul_add, L1State.mk.injEq, true_and]
  split_ifs <;> omega

/-- The closed form of an advance is the loop over its seconds. -/
theorem advanceTime_eq_iterate (h : s.excess ≤ u64Max) (target n : ℕ) :
    s.advanceTime target n = (advanceOne · target)^[n] s := by
  induction n with
  | zero => simp [advanceTime, saturatingMul, saturatingAdd, h]
  | succ n ih =>
    have hone : ∀ s : L1State, s.excess ≤ u64Max →
        s.advanceTime target 1 = s.advanceOne target := by
      intro s h
      simp only [advanceTime, advanceOne, saturatingMul, saturatingAdd, L1State.mk.injEq, true_and]
      split_ifs <;> omega
    have hle : (s.advanceTime target n).excess ≤ u64Max := by
      simp only [advanceTime, saturatingAdd]
      split_ifs <;> omega
    rw [← advanceTime_advanceTime h, hone _ hle, ih, Function.iterate_succ_apply']

/-- The shortcuts of the fee compute what one second after the other does. -/
theorem fee_exact (current excess target minPrice k : UInt64) (hmin : 0 < minPrice) :
    let s : L1State := ⟨current.toNat, excess.toNat⟩
    let c : L1Config := ⟨target.toNat, minPrice.toNat, k.toNat⟩
    (∀ n, s.advanceTime c.target n = (advanceOne · c.target)^[n] s) ∧
    (∀ a b, s.advanceTime c.target (a + b) = (s.advanceTime c.target a).advanceTime c.target b) ∧
    (∀ n, s.costOf c n = min (s.exactCost c n) u64Max) ∧
    ∀ maxSeconds funds : UInt64,
      IsGreatest {n | n ≤ maxSeconds.toNat ∧ s.exactCost c n ≤ funds.toNat}
        (s.secondsRemaining c maxSeconds.toNat funds.toNat) := by
  have hle := UInt64.toNat_le_u64Max minPrice
  have hexcess := UInt64.toNat_le_u64Max excess
  refine ⟨advanceTime_eq_iterate hexcess _, fun a b ↦ ?_, costOf_eq hle, fun maxSeconds funds ↦ ?_⟩
  · exact (advanceTime_advanceTime hexcess _ a b).symm
  · have hpos : 0 < minPrice.toNat := UInt64.lt_iff_toNat_lt.mp hmin
    exact secondsRemaining_spec hle hpos (UInt64.toNat_le_u64Max maxSeconds) _

/-- Three validators over a target of two: the excess grows by one a second. -/
theorem fee_exact_example :
    (⟨3, 0⟩ : L1State).advanceTime 2 2 = (advanceOne · 2)^[2] ⟨3, 0⟩ ∧
      (⟨3, 0⟩ : L1State).costOf ⟨2, 5, 1⟩ 2
        = min ((⟨3, 0⟩ : L1State).exactCost ⟨2, 5, 1⟩ 2) u64Max :=
  have h := fee_exact 3 0 2 5 1 (by decide)
  ⟨h.1 2, h.2.2.1 2⟩

end Avalanche.Platform.L1State
