import Mathlib.Data.Int.CardIntervalMod
import Mathlib.Data.Nat.Count

/-!
# Uniform draws by rejection

`uint64_inclusive` turns raw 64-bit draws into a value of `[0, n]`. Its three branches are one
scheme: a raw value is cut to a window of `p` values, kept if it is below `K`, a multiple of
`n + 1`, and reduced modulo `n + 1`.
-/

namespace Avalanche

/-- Draws until `accept` takes a raw value; the result and the draws left over. -/
def redraw (accept : ℕ → Option ℕ) : List ℕ → Option (ℕ × List ℕ)
  | [] => none
  | raw :: src =>
    match accept raw with
    | some v => some (v, src)
    | none => redraw accept src

/-- All numbers are `u64`; only the first sum can wrap around. -/
def uint64Inclusive (n : ℕ) (src : List ℕ) : Option (ℕ × List ℕ) :=
  if n &&& (n + 1) % 2 ^ 64 = 0 then
    redraw (fun raw ↦ some (raw &&& n)) src
  else if n > 2 ^ 63 - 1 then
    redraw (fun v ↦ if v > n then none else some v) src
  else
    let max := (2 ^ 63 - 1) - 2 ^ 63 % (n + 1)
    redraw (fun raw ↦
      let v := raw &&& (2 ^ 63 - 1)
      if v > max then none else some (v % (n + 1))) src

theorem redraw_singleton {accept : ℕ → Option ℕ} {raw r : ℕ} :
    redraw accept [raw] = some (r, []) ↔ accept raw = some r := by
  simp only [redraw]
  cases accept raw with
  | none => simp
  | some v => simp

theorem count_congr {p q : ℕ → Prop} [DecidablePred p] [DecidablePred q] {n : ℕ}
    (h : ∀ x < n, p x ↔ q x) : Nat.count p n = Nat.count q n := by
  rw [Nat.count_eq_card_filter_range, Nat.count_eq_card_filter_range,
    Finset.filter_congr fun x hx ↦ h x (Finset.mem_range.mp hx)]

/-- The numbers below `a * p` that fall into the first `K` of their window of `p` and leave the
remainder `r`: the same number of them for each `r`. -/
theorem count_window {m K p r : ℕ} (hdvd : m ∣ K) (hK : K ≤ p) (hr : r < m) (a : ℕ) :
    Nat.count (fun x ↦ x % p < K ∧ x % p % m = r) (a * p) = a * (K / m) := by
  have hwindow : Nat.count (fun x ↦ x < K ∧ x % m = r) p = K / m := by
    obtain ⟨d, rfl⟩ := Nat.exists_eq_add_of_le hK
    have hin : Nat.count (fun x ↦ x < K ∧ x % m = r) K = Nat.count (· ≡ r [MOD m]) K :=
      count_congr fun x hx ↦ by simp [hx, Nat.ModEq, Nat.mod_eq_of_lt hr]
    rw [Nat.count_add, hin, Nat.count_modEq_card _ (by omega), Nat.mod_eq_zero_of_dvd hdvd]
    simp
  induction a with
  | zero => simp
  | succ a ih =>
    rw [Nat.succ_mul, Nat.count_add, ih, Nat.succ_mul, ← hwindow]
    congr 1
    exact count_congr fun x hx ↦ by rw [Nat.mul_add_mod_of_lt hx]

variable {n : ℕ} (hn : n < 2 ^ 64)

include hn

theorem exists_two_pow (h : n &&& (n + 1) % 2 ^ 64 = 0) : ∃ k ≤ 64, n + 1 = 2 ^ k := by
  by_cases hlast : n + 1 = 2 ^ 64
  · exact ⟨64, le_rfl, hlast⟩
  · rw [Nat.mod_eq_of_lt (by omega), Nat.and_comm] at h
    obtain ⟨k, hk⟩ := (Nat.and_sub_one_eq_zero_iff_isPowerOfTwo n.succ_ne_zero).mp h
    exact ⟨k, (Nat.pow_le_pow_iff_right one_lt_two).mp (hk ▸ hn), hk⟩

/-- Each branch accepts the raw values in the first `K` of a window of `p`, with `n + 1 ∣ K`, and
reduces them modulo `n + 1`. -/
theorem exists_window : ∃ a p K : ℕ, a * p = 2 ^ 64 ∧ n + 1 ∣ K ∧ 0 < K ∧ K ≤ p ∧
    ∀ raw < 2 ^ 64, ∀ r, uint64Inclusive n [raw] = some (r, []) ↔
      raw % p < K ∧ raw % p % (n + 1) = r := by
  by_cases hmask : n &&& (n + 1) % 2 ^ 64 = 0
  · obtain ⟨k, hle, hk⟩ := exists_two_pow hn hmask
    refine ⟨1, 2 ^ 64, 2 ^ 64, by norm_num, hk ▸ pow_dvd_pow 2 hle, by norm_num, le_rfl,
      fun raw hraw r ↦ ?_⟩
    rw [uint64Inclusive, if_pos hmask, redraw_singleton, Option.some.injEq, Nat.mod_eq_of_lt hraw,
      hk, ← Nat.and_two_pow_sub_one_eq_mod, ← hk, Nat.add_sub_cancel]
    exact (and_iff_right hraw).symm
  by_cases hbig : n > 2 ^ 63 - 1
  · refine ⟨1, 2 ^ 64, n + 1, by norm_num, dvd_rfl, n.succ_pos, hn, fun raw hraw r ↦ ?_⟩
    rw [uint64Inclusive, if_neg hmask, if_pos hbig, redraw_singleton, Nat.mod_eq_of_lt hraw]
    by_cases hv : raw < n + 1
    · simp [hv, Nat.lt_succ_iff.mp hv, Nat.mod_eq_of_lt hv]
    · simp [hv, Nat.lt_of_succ_le (Nat.not_lt.mp hv)]
  · have hmod : 2 ^ 63 % (n + 1) < n + 1 := Nat.mod_lt _ n.succ_pos
    refine ⟨2, 2 ^ 63, 2 ^ 63 - 2 ^ 63 % (n + 1), by norm_num, Nat.dvd_sub_mod _, by omega,
      Nat.sub_le _ _, fun raw _ r ↦ ?_⟩
    rw [uint64Inclusive, if_neg hmask, if_neg hbig, redraw_singleton]
    simp only [Nat.and_two_pow_sub_one_eq_mod]
    split
    · simp only [reduceCtorEq, false_iff]
      omega
    · rw [Option.some.injEq]
      exact (and_iff_right (by omega)).symm

omit hn

/-- Among the raw draws accepted at once, every result in `[0, n]` has the same number of raw
values, and no other result has any. -/
theorem uint64Inclusive_unbiased (n : UInt64) : ∃ c > 0, ∀ r,
    Nat.count (fun raw ↦ uint64Inclusive n.toNat [raw] = some (r, [])) (2 ^ 64) =
      if r ≤ n.toNat then c else 0 := by
  obtain ⟨a, p, K, hp, hdvd, hK, hKp, haccept⟩ := exists_window n.toNat_lt
  have ha : 0 < a := Nat.pos_of_ne_zero fun h ↦ by simp [h] at hp
  have hdiv : 0 < K / (n.toNat + 1) := Nat.div_pos (Nat.le_of_dvd hK hdvd) n.toNat.succ_pos
  refine ⟨a * (K / (n.toNat + 1)), Nat.mul_pos ha hdiv, fun r ↦ ?_⟩
  rw [count_congr fun raw hraw ↦ haccept raw hraw r, ← hp]
  split
  case isTrue hr => exact count_window hdvd hKp (Nat.lt_succ_of_le hr) a
  case isFalse hr =>
    rw [Nat.count_eq_card_filter_range, Finset.card_eq_zero, Finset.filter_eq_empty_iff]
    rintro x - ⟨-, rfl⟩
    exact hr (Nat.lt_succ_iff.mp (Nat.mod_lt _ (Nat.succ_pos _)))

end Avalanche
