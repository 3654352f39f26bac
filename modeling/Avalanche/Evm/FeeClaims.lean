import Avalanche.Evm.FeeRules

/-!
# What a header may claim

A builder turns the target and the delay it desires into an excess by bisection, and the header
claims the excess that results. The verifier does not know what was desired: it takes the claim
itself for it.

The base fee before Fortuna is verified on one path and the gas window on another. The window of a
header has the gas of its parent in it, the base fee is that of the window before. `SameFee` says
for which sums of the two windows this makes no difference.
-/

namespace Avalanche.Evm

/-! ## The excess of a desired target or delay -/

theorem target_mono {s s' : Acp176State} (h : s.targetExcess ≤ s'.targetExcess) :
    s.target ≤ s'.target := Sae.calculatePrice_mono _ _ h

/-- Both searches find the least excess that reaches what is desired, or end at the largest. -/
theorem desiredExcess_optimal (target delay' : UInt64) :
    ((∃ q ≤ maxTargetExcess, target.toNat ≤ Acp176State.target ⟨⟨0, 0⟩, q⟩) →
      IsLeast {q | q ≤ maxTargetExcess ∧ target.toNat ≤ Acp176State.target ⟨⟨0, 0⟩, q⟩}
        (desiredTargetExcess target.toNat)) ∧
    ((∀ q ≤ maxTargetExcess, Acp176State.target ⟨⟨0, 0⟩, q⟩ < target.toNat) →
      desiredTargetExcess target.toNat = maxTargetExcess) ∧
    ((∃ q ≤ maxDelayExcess, delay'.toNat ≤ delay q) →
      IsLeast {q | q ≤ maxDelayExcess ∧ delay'.toNat ≤ delay q}
        (desiredDelayExcess delay'.toNat)) ∧
    ((∀ q ≤ maxDelayExcess, delay q < delay'.toNat) →
      desiredDelayExcess delay'.toNat = maxDelayExcess) := by
  have htarget (x y : ℕ) (hxy : x ≤ y) (hx : Acp176State.target ⟨⟨0, 0⟩, x⟩ ≥ target.toNat) :
      Acp176State.target ⟨⟨0, 0⟩, y⟩ ≥ target.toNat := hx.trans (target_mono hxy)
  have hdelay (x y : ℕ) (hxy : x ≤ y) (hx : delay x ≥ delay'.toNat) : delay y ≥ delay'.toNat :=
    hx.trans (Sae.calculatePrice_mono _ _ hxy)
  obtain ⟨htarget, htop⟩ := Bisect.first_spec maxTargetExcess htarget (by decide)
  obtain ⟨hdelay, hlong⟩ := Bisect.first_spec maxDelayExcess hdelay (by decide)
  exact ⟨htarget, fun h ↦ htop fun q hq ↦ Nat.not_le.mpr (h q hq), hdelay,
    fun h ↦ hlong fun q hq ↦ Nat.not_le.mpr (h q hq)⟩

/-! ## The window and the base fee -/

namespace Window

variable {w : Window}

/-- Every slot fits its word. -/
def Fits (w : Window) : Prop := ∀ n ∈ w.slots, n ≤ u64Max

theorem fits_of_fromBytes {bytes : Bytes} (h : fromBytes bytes = some w) : w.Fits := by
  rw [fromBytes, Option.ite_none_left_eq_some, Option.some_inj] at h
  rw [← h.2]
  refine List.forall_mem_map.mpr fun i _ ↦ ?_
  have hlt := Wire.ofBe_lt ((bytes.drop (8 * i)).take 8)
  have hle : 256 ^ ((bytes.drop (8 * i)).take 8).length ≤ 256 ^ 8 :=
    Nat.pow_le_pow_right (by omega) (List.length_take_le _ _)
  rw [u64Max_eq]
  omega

theorem Fits.add (h : w.Fits) (amounts : List ℕ) : (w.add amounts).Fits := by
  intro n hn
  obtain ⟨i, hi, rfl⟩ := List.mem_iff_getElem.mp hn
  simp only [Window.add, List.getElem_modify]
  split_ifs
  · exact List.foldlRecOn (motive := (· ≤ u64Max)) amounts saturatingAdd
      (h _ (List.getElem_mem _)) fun _ _ _ _ ↦ saturatingAdd_le _ _
  · exact h _ (List.getElem_mem _)

theorem Fits.shift (h : w.Fits) (n : ℕ) : (w.shift n).Fits := by
  have hzero {k m : ℕ} (hm : m ∈ List.replicate k 0) : m ≤ u64Max :=
    (List.eq_of_mem_replicate hm).trans_le (Nat.zero_le _)
  rw [Window.shift]
  split_ifs
  · exact List.forall_mem_append.mpr ⟨fun m hm ↦ h m (List.mem_of_mem_drop hm), fun m ↦ hzero⟩
  · exact fun m ↦ hzero

theorem map_words {l : List ℕ} (h : ∀ n ∈ l, n ≤ u64Max) (rest : Bytes) :
    ((List.range l.length).map fun i ↦
      Wire.ofBe (((l.flatMap (Wire.be 8) ++ rest).drop (8 * i)).take 8)) = l := by
  induction l with
  | nil => rfl
  | cons n l ih =>
    obtain ⟨hn, hl⟩ := List.forall_mem_cons.mp h
    rw [u64Max_eq] at hn
    rw [List.length_cons, List.range_succ_eq_map, List.map_cons, List.map_map]
    congr 1
    · simp [Wire.ofBe_be]
      omega
    · refine (List.map_congr_left fun i _ ↦ ?_).trans (ih hl)
      rw [Function.comp_apply, List.flatMap_cons, List.append_assoc, List.drop_append,
        List.drop_of_length_le (by simp), Wire.length_be, Nat.mul_succ, Nat.add_sub_cancel]
      rfl

theorem fromBytes_toBytes (h : w.Fits) (rest : Bytes) : fromBytes (w.toBytes ++ rest) = some w := by
  have hlength : windowSize ≤ (w.toBytes ++ rest).length := by
    simp [toBytes, List.length_flatMap, w.length_slots, windowSize]
  have hwords := map_words h rest
  rw [w.length_slots] at hwords
  rw [fromBytes, if_neg (Nat.not_lt.mpr hlength), Option.some_inj]
  obtain ⟨slots, hslots⟩ := w
  rw [Window.mk.injEq]
  exact hwords

end Window

/-! ## When two windows price alike -/

namespace BaseFeeParams

variable {params : BaseFeeParams} {w w' : Window} {parentFee elapsed : ℕ}

/-- What the parent's fee is moved to by a sum that is not the target, before it is clamped. -/
def moved (params : BaseFeeParams) (parentFee elapsed sum : ℕ) : ℕ :=
  if sum > params.targetGas then
    min (parentFee + params.delta (sum - params.targetGas) parentFee) u256Max
  else
    let delta := params.delta (params.targetGas - sum) parentFee
    let windows := elapsed / windowLen
    parentFee - if windows > 1 then min (delta * windows) u256Max else delta

/-- The fee of the first sum, as far as it fits 64 bits, is that of the second. A sum at the target
leaves the parent's fee alone, so that the other one has to move it against a clamp. If neither is,
the fee is moved to the same number, or both times to or below the least fee, or both times to or
above the largest. -/
def SameFee (params : BaseFeeParams) (parentFee elapsed sum sum' : ℕ) : Prop :=
  let top := min params.maxBaseFee u64Max
  let moved := params.moved parentFee elapsed
  if sum = params.targetGas then
    if sum' = params.targetGas then parentFee ≤ u64Max
    else if sum' > params.targetGas then parentFee = params.maxBaseFee ∧ parentFee ≤ u64Max
    else parentFee = params.minBaseFee ∨
      u64Max < parentFee ∧ moved sum' = u64Max ∧ u64Max < params.maxBaseFee
  else if sum' = params.targetGas then
    if sum > params.targetGas then parentFee = top else parentFee = params.minBaseFee
  else moved sum = moved sum' ∧ moved sum ≤ top ∨
    moved sum ≤ params.minBaseFee ∧ moved sum' ≤ params.minBaseFee ∨
    top ≤ moved sum ∧ (moved sum' = top ∨ params.maxBaseFee = top ∧ top ≤ moved sum')

instance decidableSameFee (sum sum' : ℕ) :
    Decidable (params.SameFee parentFee elapsed sum sum') := by
  unfold SameFee
  infer_instance

theorem baseFeeFromWindow_eq : baseFeeFromWindow params w parentFee elapsed
    = if w.sum = params.targetGas then parentFee
      else params.clamp (params.moved parentFee elapsed w.sum) := by
  rw [baseFeeFromWindow, moved]
  split_ifs <;> rfl

variable (parentFee elapsed) in
/-- A sum above the target raises the fee, as far as the word goes. -/
theorem le_moved {sum : ℕ} (h : params.targetGas < sum) :
    min (parentFee + 1) u256Max ≤ params.moved parentFee elapsed sum := by
  have hdelta : 1 ≤ params.delta (sum - params.targetGas) parentFee := le_max_right _ _
  rw [moved, if_pos h]
  omega

variable (parentFee elapsed) in
/-- A sum below the target lowers it. -/
theorem moved_le {sum : ℕ} (h : sum < params.targetGas) :
    params.moved parentFee elapsed sum ≤ parentFee - 1 := by
  have hdelta : 1 ≤ params.delta (params.targetGas - sum) parentFee := le_max_right _ _
  rw [moved, if_neg h.not_gt]
  refine Nat.sub_le_sub_left ?_ _
  split
  next hwindows => exact le_min (Nat.mul_pos hdelta (by omega)) (by decide +kernel)
  next => exact hdelta

/-- The fees agree in the cases of `SameFee` and in no other. -/
theorem min_baseFeeFromWindow_eq_iff (hpos : 0 < params.minBaseFee)
    (hfits : params.minBaseFee < u64Max) (hlt : params.minBaseFee < params.maxBaseFee)
    (hne : params.maxBaseFee ≠ u64Max) :
    min (baseFeeFromWindow params w parentFee elapsed) u64Max
        = baseFeeFromWindow params w' parentFee elapsed ↔
      params.SameFee parentFee elapsed w.sum w'.sum := by
  have h64 : u64Max < u256Max := by decide +kernel
  have hclamp : ∀ fee, params.clamp fee = max params.minBaseFee (min fee params.maxBaseFee) := by
    intro fee
    rw [clamp]
    split_ifs <;> omega
  rw [baseFeeFromWindow_eq, baseFeeFromWindow_eq, SameFee]
  by_cases hs : w.sum = params.targetGas <;> by_cases hs' : w'.sum = params.targetGas <;>
    simp only [hs, hs', if_true, if_false, hclamp]
  · omega
  · rcases Nat.lt_or_gt_of_ne hs' with hlow | hhigh
    · have hmoved := moved_le parentFee elapsed hlow
      rw [if_neg hlow.not_gt]
      omega
    · have hmoved := le_moved parentFee elapsed hhigh
      rw [if_pos hhigh]
      omega
  · rcases Nat.lt_or_gt_of_ne hs with hlow | hhigh
    · have hmoved := moved_le parentFee elapsed hlow
      rw [if_neg hlow.not_gt]
      omega
    · have hmoved := le_moved parentFee elapsed hhigh
      rw [if_pos hhigh]
      omega
  · omega

/-- The parameters of every phase leave room between the clamps. -/
theorem windowParamsForPhase_bounds (phase : AvaPhase) :
    let params := windowParamsForPhase phase
    0 < params.minBaseFee ∧ params.minBaseFee < u64Max ∧ params.minBaseFee < params.maxBaseFee ∧
      params.maxBaseFee ≠ u64Max := by
  rw [windowParamsForPhase]
  split_ifs <;> decide +kernel

end BaseFeeParams

section Verified

variable {R : Type}

/-- A verified base fee is the one of the parent's window as the parent left it, without the
parent's own gas and without the time since. It is the fee of the window that the header carries
exactly if the two sums come to the same fee. -/
theorem verified_baseFee (spec : AvaChainSpec) {parent header : AvaHeader R}
    (hnumber : parent.number ≠ 0) (hparent : spec.isApricotPhase3 parent.time)
    (hwindow : regimeForPhase (spec.forkAt header.time) = .window)
    (h : verifyHeaderGasFields spec parent header = .ok ()) :
    ∃ w w', Window.fromBytes parent.extra = some w ∧ Window.fromBytes header.extra = some w' ∧
      let params := windowParamsForPhase (spec.forkAt header.time)
      let parentFee := parent.baseFee.getD 0
      let elapsed := header.time - parent.time
      header.baseFee = some (min (baseFeeFromWindow params w parentFee elapsed) u64Max) ∧
        (header.baseFee = some (baseFeeFromWindow params w' parentFee elapsed) ↔
          params.SameFee parentFee elapsed w.sum w'.sum) := by
  have hphase : ¬spec.forkAt header.time ≥ .fortuna ∧ spec.forkAt header.time ≥ .apricotPhase3 := by
    rw [regimeForPhase] at hwindow
    split_ifs at hwindow with hlow hhigh
    exact ⟨not_le.mpr hhigh, not_lt.mp hlow⟩
  simp only [verifyHeaderGasFields, Except.bind_eq_ok_iff, Except.require_eq_ok_iff] at h
  obtain ⟨-, -, ⟨⟩, hextra, fee, hfee, -, hbase, -⟩ := h
  simp only [verifyExtraPrefix, if_neg hphase.1, if_pos hphase.2, Except.bind_eq_ok_iff,
    Except.require_eq_ok_iff] at hextra
  obtain ⟨w', hw', rest, hrest⟩ := hextra
  simp only [feeWindow, hparent, hnumber, not_true, or_self, if_false, Except.bind_eq_ok_iff,
    Except.orError_eq_ok_iff, Except.ok.injEq] at hw'
  obtain ⟨w, hw, -, -, rfl⟩ := hw'
  simp only [expectedBaseFee, if_pos hphase.2, Except.bind_eq_ok_iff, Except.ok.injEq] at hfee
  obtain ⟨state, hstate, fee', hfee', rfl⟩ := hfee
  simp only [baseFee, hwindow] at hfee'
  have hstate : state = .window w (parent.baseFee.getD 0) := by
    have hlow : ¬spec.forkAt parent.time < .apricotPhase3 := not_lt.mpr (of_decide_eq_true hparent)
    by_cases hhigh : spec.forkAt parent.time < .fortuna
    · simp only [parentFeeStateOf, regimeForPhase, if_neg hlow, if_pos hhigh, ne_eq, hnumber,
        hparent, not_false_eq_true, and_self, if_true, Except.bind_eq_ok_iff,
        Except.orError_eq_ok_iff, hw, Option.some_inj, exists_eq_left', Except.ok.injEq] at hstate
      exact hstate.symm
    · simp only [parentFeeStateOf, regimeForPhase, if_neg hlow, if_neg hhigh, ne_eq, hnumber,
        not_false_eq_true, if_true, Except.bind_eq_ok_iff, Except.ok.injEq] at hstate
      obtain ⟨s, -, rfl⟩ := hstate
      cases hfee'
  subst hstate
  obtain rfl := Except.ok.inj hfee'
  have hfits gas := ((Window.fits_of_fromBytes hw).add gas).shift (header.time - parent.time)
  obtain ⟨hpos, hmin, hlt, hne⟩ :=
    BaseFeeParams.windowParamsForPhase_bounds (spec.forkAt header.time)
  refine ⟨w, _, hw, hrest ▸ Window.fromBytes_toBytes (hfits _) _, hbase, ?_⟩
  rw [hbase, Option.some_inj]
  exact BaseFeeParams.min_baseFeeFromWindow_eq_iff hpos hmin hlt hne

/-- A schedule that stays in Apricot Phase 3. -/
def ap3Spec : AvaChainSpec := ⟨⟨0, 0, 0, 9, 9, 9, 9, 9, 9, 9, 9, 9, 9, 9⟩⟩

/-- A block of Apricot Phase 3, at the given second and with the given window. -/
def ap3Header (time gasUsed fee : ℕ) (slots : List ℕ) : AvaHeader Unit where
  parentHash := 0
  uncleHash := 0
  coinbase := 0
  stateRoot := ()
  txRoot := 0
  receiptRoot := 0
  bloom := []
  difficulty := 0
  number := time + 1
  gasLimit := apricotPhase1GasLimit
  gasUsed := gasUsed
  time := time
  extra := slots.flatMap (Wire.be 8)
  mixDigest := 0
  nonce := 0
  extDataHash := 0
  baseFee := fee
  extDataGasUsed := none
  blockGasCost := none
  blobGasUsed := none
  excessBlobGas := none
  parentBeaconRoot := none
  timeMilliseconds := none
  minDelayExcess := none

/-- A parent that used no gas at the least fee, and the block a second later. -/
def idleParent : AvaHeader Unit := ap3Header 0 0 (gwei 75) (List.replicate 10 0)

def idleHeader : AvaHeader Unit := ap3Header 1 0 (gwei 75) [0, 0, 0, 0, 0, 0, 0, 0, 1000000, 0]

/-- A parent that used twice the target, and the block a second later. -/
def busyParent : AvaHeader Unit := ap3Header 0 20000000 (gwei 100) (List.replicate 10 0)

def busyHeader : AvaHeader Unit := ap3Header 1 0 91666666667 [0, 0, 0, 0, 0, 0, 0, 0, 21000000, 0]

theorem verified_of_isOk {parent header : AvaHeader R} {spec : AvaChainSpec}
    (h : (verifyHeaderGasFields spec parent header).isOk = true) :
    verifyHeaderGasFields spec parent header = .ok () := by
  obtain ⟨⟨⟩, h⟩ := Except.isOk_iff.mp h
  exact h

/-- The two windows have different sums, and the fee stays at the least one for both. -/
theorem idleHeader_baseFee : ∃ w w', Window.fromBytes idleParent.extra = some w ∧
    Window.fromBytes idleHeader.extra = some w' ∧ w.sum ≠ w'.sum ∧
      idleHeader.baseFee = some (baseFeeFromWindow .ap3 w' (gwei 75) 1) := by
  have hverified : verifyHeaderGasFields ap3Spec idleParent idleHeader = .ok () :=
    verified_of_isOk (by decide +kernel)
  obtain ⟨w, w', hw, hw', -, hiff⟩ := verified_baseFee ap3Spec (by decide) (by decide +kernel)
    (by decide +kernel) hverified
  have hall : ∀ w ∈ Window.fromBytes idleParent.extra, ∀ w' ∈ Window.fromBytes idleHeader.extra,
      w.sum ≠ w'.sum ∧ BaseFeeParams.ap3.SameFee (gwei 75) 1 w.sum w'.sum := by decide +kernel
  obtain ⟨hsum, hsame⟩ := hall w hw w' hw'
  exact ⟨w, w', hw, hw', hsum, hiff.mpr hsame⟩

/-- The gas of the parent should raise the fee, and the fee that is accepted has fallen. -/
theorem busyHeader_baseFee_ne : verifyHeaderGasFields ap3Spec busyParent busyHeader = .ok () ∧
    ∃ w, Window.fromBytes busyHeader.extra = some w ∧
      baseFeeFromWindow .ap3 w (gwei 100) 1 = 109166666666 ∧
      busyHeader.baseFee = some 91666666667 := by
  refine ⟨verified_of_isOk (by decide +kernel), ⟨[0, 0, 0, 0, 0, 0, 0, 0, 21000000, 0], rfl⟩,
    ?_, ?_, rfl⟩
  · decide +kernel
  · decide +kernel

end Verified

end Avalanche.Evm
