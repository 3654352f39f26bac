import Mathlib

/-!
# Identifiers and their bits

An `Id` is 32 bytes. It is kept here as one 256-bit word read big-endian, so that the byte-wise
order under which the source sorts its maps is the numeric order of the word.

Bit indices run least significant bit first *inside* a byte and byte by byte from the front: index
`7` is the top bit of byte `0`, index `8` the bottom bit of byte `1`. Every routine on bit ranges
goes through `Id.byte` and masks, as the source does; the two specification theorems
`equalSubset_eq_true_iff` and `firstDifferenceSubset_spec` say what they compute bit by bit, and
nothing downstream unfolds the masks again.
-/

namespace Avalanche

/-- A 32-byte identifier, as the big-endian number its bytes spell. -/
abbrev Id := BitVec 256

/-- A 20-byte identifier of a node. -/
abbrev NodeId := BitVec 160

/-- A hash of the Ethereum side. -/
abbrev B256 := BitVec 256

-- Maps over identifiers name these orders, and carry no proofs of their own.
instance transOrdId : Std.TransOrd Id := inferInstance

instance lawfulEqOrdId : Std.LawfulEqOrd Id := inferInstance

instance lawfulBEqId : LawfulBEq Id := inferInstance

instance transOrdNodeId : Std.TransOrd NodeId := inferInstance

instance lawfulEqOrdNodeId : Std.LawfulEqOrd NodeId := inferInstance

instance transOrdRequest : Std.TransOrd (NodeId ×ₗ UInt32) := inferInstance

/-- The number of bits a patricia tree manages. -/
def numBits : ℕ := 256

namespace Id

/-- The all-zero identifier `Id::EMPTY`. -/
def empty : Id := 0#256

/-- Byte `j`, counted from the front. -/
def byte (id : Id) (j : ℕ) : BitVec 8 := id.extractLsb' (8 * (31 - j)) 8

/-- Bit `i`: least significant bit first inside byte `i / 8`. -/
def bit (id : Id) (i : ℕ) : Bool := (id.byte (i / 8)).getLsbD (i % 8)

theorem bit_eq_getLsbD (id : Id) (i : ℕ) :
    id.bit i = id.getLsbD (8 * (31 - i / 8) + i % 8) := by
  have hlt : i % 8 < 8 := Nat.mod_lt _ (by norm_num)
  rw [bit, byte, BitVec.getLsbD_extractLsb']
  simp [hlt]

/-- Two identifiers with the same 256 bits are equal. -/
theorem ext_bit {a b : Id} (h : ∀ i, i < numBits → a.bit i = b.bit i) : a = b := by
  apply BitVec.eq_of_getLsbD_eq
  intro n hn
  -- position `n` of the word is bit `n % 8` of byte `31 - n / 8`
  have hb := h (8 * (31 - n / 8) + n % 8) (by unfold numBits; omega)
  have hdiv : (8 * (31 - n / 8) + n % 8) / 8 = 31 - n / 8 := by omega
  have hmod : (8 * (31 - n / 8) + n % 8) % 8 = n % 8 := by omega
  rw [bit_eq_getLsbD, bit_eq_getLsbD, hdiv, hmod,
    show 8 * (31 - (31 - n / 8)) + n % 8 = n by omega] at hb
  exact hb

end Id

/-! ## Masked bytes

The source masks a byte inside an `i32`: `-1 << s` clears the low `s` bits, `(1 << (t + 1)) - 1`
keeps the low `t + 1`. -/

/-- `-1 << startBit`. -/
def startMask (startBit : ℕ) : BitVec 32 := (-1#32) <<< startBit

/-- `(1 << (stopBit + 1)) - 1`. -/
def stopMask (stopBit : ℕ) : BitVec 32 := (1#32 <<< (stopBit + 1)) - 1#32

/-- `mask & i32::from(byte)`. -/
def masked (mask : BitVec 32) (b : BitVec 8) : BitVec 32 := mask &&& b.setWidth 32

/-- `u8::trailing_zeros`. -/
def trailingZeros (b : BitVec 8) : ℕ := ((List.range 8).find? fun i ↦ b.getLsbD i).getD 8

theorem getLsbD_startMask {s i : ℕ} (hs : s < 8) (hi : i < 8) :
    (startMask s).getLsbD i = decide (s ≤ i) := by
  have key : ∀ s < 8, ∀ i < 8, (startMask s).getLsbD i = decide (s ≤ i) := by decide
  exact key s hs i hi

theorem getLsbD_stopMask {t i : ℕ} (ht : t < 8) (hi : i < 8) :
    (stopMask t).getLsbD i = decide (i ≤ t) := by
  have key : ∀ t < 8, ∀ i < 8, (stopMask t).getLsbD i = decide (i ≤ t) := by decide
  exact key t ht i hi

theorem getLsbD_masked (mask : BitVec 32) (b : BitVec 8) (i : ℕ) :
    (masked mask b).getLsbD i = (mask.getLsbD i && b.getLsbD i) := by
  rw [masked, BitVec.getLsbD_and, BitVec.getLsbD_setWidth]
  by_cases hi : i < 32
  · simp [hi]
  · simp [hi, BitVec.getLsbD_of_ge _ _ (by omega : 8 ≤ i)]

/-- Masked bytes agree exactly when the bytes agree on the bits the mask keeps. -/
theorem masked_eq_masked_iff (mask : BitVec 32) (b c : BitVec 8) :
    masked mask b = masked mask c ↔
      ∀ i, i < 8 → mask.getLsbD i = true → b.getLsbD i = c.getLsbD i := by
  constructor
  · intro h i _ hm
    have := congrArg (fun w ↦ w.getLsbD i) h
    simpa [getLsbD_masked, hm] using this
  · intro h
    apply BitVec.eq_of_getLsbD_eq
    intro i _
    rw [getLsbD_masked, getLsbD_masked]
    by_cases hi : i < 8
    · cases hm : mask.getLsbD i with
      | false => simp
      | true => simp [h i hi hm]
    · simp [BitVec.getLsbD_of_ge _ _ (by omega : 8 ≤ i)]

theorem trailingZeros_spec {b : BitVec 8} (h : b ≠ 0#8) :
    trailingZeros b < 8 ∧ b.getLsbD (trailingZeros b) = true ∧
      ∀ i, i < trailingZeros b → b.getLsbD i = false := by
  revert b
  decide +kernel

/-! ## Bit ranges -/

/-- Whether two identifiers agree on the bits `[start, stop)`. -/
def equalSubset (start stop : ℤ) (id1 id2 : Id) : Bool :=
  let stop := stop - 1
  if start > stop ∨ stop < 0 then true
  else if stop ≥ numBits then false
  else
    let startIndex := (start / 8).toNat
    let stopIndex := (stop / 8).toNat
    -- the whole bytes strictly between the first and the last one
    if startIndex + 1 < stopIndex ∧
        ¬((List.range' (startIndex + 1) (stopIndex - (startIndex + 1))).all
          fun j ↦ id1.byte j == id2.byte j) then false
    else
      let startBit := (start % 8).toNat
      let stopBit := (stop % 8).toNat
      if startIndex = stopIndex then
        let mask := startMask startBit &&& stopMask stopBit
        masked mask (id1.byte startIndex) == masked mask (id2.byte startIndex)
      else
        masked (startMask startBit) (id1.byte startIndex)
            == masked (startMask startBit) (id2.byte startIndex)
          && masked (stopMask stopBit) (id1.byte stopIndex)
            == masked (stopMask stopBit) (id2.byte stopIndex)

/-- The first bit of `[start, stop)` on which two identifiers differ, if any. -/
def firstDifferenceSubset (start stop : ℤ) (id1 id2 : Id) : Option ℕ :=
  let stop := stop - 1
  if start > stop ∨ stop < 0 ∨ stop ≥ numBits then none
  else
    let startIndex := (start / 8).toNat
    let stopIndex := (stop / 8).toNat
    let startBit := (start % 8).toNat
    let stopBit := (stop % 8).toNat
    -- the position of the lowest set bit of `v1 ^ v2` in byte `j`
    let found (v1 v2 : BitVec 32) (j : ℕ) : ℕ := trailingZeros ((v1 ^^^ v2).setWidth 8) + j * 8
    if startIndex = stopIndex then
      let mask := startMask startBit &&& stopMask stopBit
      let v1 := masked mask (id1.byte startIndex)
      let v2 := masked mask (id2.byte startIndex)
      if v1 = v2 then none else some (found v1 v2 startIndex)
    else
      let start1 := masked (startMask startBit) (id1.byte startIndex)
      let start2 := masked (startMask startBit) (id2.byte startIndex)
      if start1 ≠ start2 then some (found start1 start2 startIndex)
      else
        match (List.range' (startIndex + 1) (stopIndex - (startIndex + 1))).find?
            fun i ↦ id1.byte i != id2.byte i with
        | some i => some (found ((id1.byte i).setWidth 32) ((id2.byte i).setWidth 32) i)
        | none =>
          let stop1 := masked (stopMask stopBit) (id1.byte stopIndex)
          let stop2 := masked (stopMask stopBit) (id2.byte stopIndex)
          if stop1 ≠ stop2 then some (found stop1 stop2 stopIndex) else none

/-! ## What the ranges compute -/

theorem Id.bit_mul_add (a : Id) (j : ℕ) {r : ℕ} (hr : r < 8) :
    a.bit (8 * j + r) = (a.byte j).getLsbD r := by
  rw [Id.bit, show (8 * j + r) / 8 = j by omega, show (8 * j + r) % 8 = r by omega]

section Ranges

variable {a b : Id} {s m t j : ℕ} {mask : BitVec 32}

/-- Two identifiers agree on the bits `[s, t)`. -/
def Id.Agree (a b : Id) (s t : ℕ) : Prop := ∀ i, s ≤ i → i < t → a.bit i = b.bit i

theorem Id.Agree.append (h : a.Agree b s m) (h' : a.Agree b m t) : a.Agree b s t :=
  fun i hs ht ↦ (Nat.lt_or_ge i m).elim (h i hs) fun hm ↦ h' i hm ht

theorem Id.Agree.mono {s' t' : ℕ} (h : a.Agree b s t) (hs : s ≤ s') (ht : t' ≤ t) :
    a.Agree b s' t' := fun i hi hi' ↦ h i (hs.trans hi) (hi'.trans_le ht)

/-- The first of the bits `[s, t)` on which two identifiers differ. -/
def Id.FirstDifference (a b : Id) (s t : ℕ) : Option ℕ → Prop
  | none => a.Agree b s t
  | some d => s ≤ d ∧ d < t ∧ a.bit d ≠ b.bit d ∧ a.Agree b s d

theorem Id.FirstDifference.after {o : Option ℕ} (h : a.Agree b s m) (hle : s ≤ m)
    (h' : a.FirstDifference b m t o) : a.FirstDifference b s t o := by
  cases o with
  | none => exact h.append h'
  | some d =>
    obtain ⟨hmd, hdt, hne, hbefore⟩ := h'
    exact ⟨hle.trans hmd, hdt, hne, h.append hbefore⟩

/-- The mask keeps the bits from `lo` to `hi` of a byte. -/
def Keeps (mask : BitVec 32) (lo hi : ℕ) : Prop :=
  hi < 8 ∧ ∀ r < 8, mask.getLsbD r = true ↔ lo ≤ r ∧ r ≤ hi

theorem keeps_startMask (s : ℕ) : Keeps (startMask (s % 8)) (s % 8) 7 := by
  refine ⟨by omega, fun r hr ↦ ?_⟩
  rw [getLsbD_startMask (Nat.mod_lt _ (by norm_num)) hr, decide_eq_true_eq]
  omega

theorem keeps_stopMask (t : ℕ) : Keeps (stopMask (t % 8)) 0 (t % 8) := by
  refine ⟨by omega, fun r hr ↦ ?_⟩
  rw [getLsbD_stopMask (Nat.mod_lt _ (by norm_num)) hr, decide_eq_true_eq]
  omega

theorem keeps_startMask_and_stopMask (s t : ℕ) :
    Keeps (startMask (s % 8) &&& stopMask (t % 8)) (s % 8) (t % 8) := by
  refine ⟨by omega, fun r hr ↦ ?_⟩
  rw [BitVec.getLsbD_and, Bool.and_eq_true, (keeps_startMask s).2 r hr, (keeps_stopMask t).2 r hr]
  omega

/-- Masked bytes at one index agree exactly when the identifiers agree on the bits of that byte
which the mask keeps. -/
theorem masked_byte_eq_iff {lo hi : ℕ} (hmask : Keeps mask lo hi) :
    masked mask (a.byte j) = masked mask (b.byte j) ↔ a.Agree b (8 * j + lo) (8 * j + hi + 1) := by
  obtain ⟨hhi, hmask⟩ := hmask
  rw [masked_eq_masked_iff]
  constructor
  · intro h i hlo hi'
    have hbit := h (i % 8) (by omega) ((hmask _ (by omega)).mpr (by omega))
    rwa [Id.bit, Id.bit, show i / 8 = j by omega]
  · intro h r hr hm
    have hbit := h (8 * j + r) (by have := (hmask r hr).mp hm; omega)
      (by have := (hmask r hr).mp hm; omega)
    rwa [a.bit_mul_add j hr, b.bit_mul_add j hr] at hbit

theorem masked_startMask_zero (b : BitVec 8) : masked (startMask 0) b = b.setWidth 32 := by
  revert b
  decide +kernel

theorem keeps_startMask_zero : Keeps (startMask 0) 0 7 := keeps_startMask 0

theorem byte_eq_iff : a.byte j = b.byte j ↔ a.Agree b (8 * j) (8 * (j + 1)) := by
  rw [show 8 * (j + 1) = 8 * j + 7 + 1 by omega, ← Nat.add_zero (8 * j),
    ← masked_byte_eq_iff keeps_startMask_zero, masked_startMask_zero, masked_startMask_zero]
  refine ⟨congrArg _, fun h ↦ BitVec.eq_of_toNat_eq ?_⟩
  have hnat := congrArg BitVec.toNat h
  rwa [BitVec.toNat_setWidth_of_le (by decide), BitVec.toNat_setWidth_of_le (by decide)] at hnat

theorem agree_of_bytes (h : ∀ i, s ≤ i → i < t → a.byte i = b.byte i) :
    a.Agree b (8 * s) (8 * t) := fun i hs ht ↦
  byte_eq_iff.mp (h (i / 8) (by omega) (by omega)) i (by omega) (by omega)

/-- The lowest set bit of the difference of two masked bytes is the first kept bit on which the
identifiers differ. -/
theorem firstDifference_masked {lo hi : ℕ} (hmask : Keeps mask lo hi)
    (h : masked mask (a.byte j) ≠ masked mask (b.byte j)) :
    a.FirstDifference b (8 * j + lo) (8 * j + hi + 1)
      (some (trailingZeros ((masked mask (a.byte j) ^^^ masked mask (b.byte j)).setWidth 8)
        + j * 8)) := by
  set d := (masked mask (a.byte j) ^^^ masked mask (b.byte j)).setWidth 8 with hd
  have hbit (i : ℕ) (hi : i < 8) : d.getLsbD i
      = (mask.getLsbD i && (a.bit (8 * j + i) ^^ b.bit (8 * j + i))) := by
    rw [hd, BitVec.getLsbD_setWidth, BitVec.getLsbD_xor, getLsbD_masked, getLsbD_masked,
      a.bit_mul_add j hi, b.bit_mul_add j hi]
    cases mask.getLsbD i <;> simp [hi]
  have hne : d ≠ 0#8 := by
    intro h0
    refine h ((masked_eq_masked_iff _ _ _).mpr fun i hi hm ↦ ?_)
    have hzero := hbit i hi
    rw [h0, hm, a.bit_mul_add j hi, b.bit_mul_add j hi] at hzero
    simpa using hzero
  obtain ⟨hlt, hset, hmin⟩ := trailingZeros_spec hne
  rw [hbit _ hlt, Bool.and_eq_true, hmask.2 _ hlt] at hset
  have hdiff : a.bit (8 * j + trailingZeros d) ≠ b.bit (8 * j + trailingZeros d) := by
    simpa using hset.2
  rw [show trailingZeros d + j * 8 = 8 * j + trailingZeros d by omega]
  refine ⟨by omega, by omega, hdiff, fun i hlo hi' ↦ ?_⟩
  have hzero := hmin (i % 8) (by omega)
  have hkept := (hmask.2 (i % 8) (by omega)).mpr (by omega)
  rw [hbit _ (by omega), hkept, show 8 * j + i % 8 = i by omega] at hzero
  simpa using hzero

end Ranges

theorem toNat_div_eight (n : ℕ) : ((n : ℤ) / 8).toNat = n / 8 := by omega

theorem toNat_mod_eight (n : ℕ) : ((n : ℤ) % 8).toNat = n % 8 := by omega

/-- `equal_subset` compares exactly the bits of its range. -/
theorem equalSubset_eq_true_iff {start stop : ℕ} (hstop : stop ≤ numBits) (a b : Id) :
    equalSubset start stop a b = true ↔ a.Agree b start stop := by
  unfold equalSubset
  by_cases hempty : stop ≤ start
  · rw [if_pos (Or.inl (by omega))]
    exact iff_of_true rfl fun i _ _ ↦ by omega
  obtain ⟨t, rfl⟩ : ∃ t, stop = t + 1 := ⟨stop - 1, by omega⟩
  rw [if_neg (by omega), if_neg (by omega)]
  simp only [Nat.cast_add, Nat.cast_one, add_sub_cancel_right, toNat_div_eight, toNat_mod_eight]
  by_cases hsame : start / 8 = t / 8
  · rw [if_neg (by omega), if_pos hsame, beq_iff_eq,
      masked_byte_eq_iff (keeps_startMask_and_stopMask start t),
      show 8 * (start / 8) + start % 8 = start by omega,
      show 8 * (start / 8) + t % 8 + 1 = t + 1 by omega]
  · rw [if_neg hsame]
    have hfirst := masked_byte_eq_iff (a := a) (b := b) (j := start / 8) (keeps_startMask start)
    have hlast := masked_byte_eq_iff (a := a) (b := b) (j := t / 8) (keeps_stopMask t)
    rw [Nat.div_add_mod] at hfirst
    rw [Nat.add_assoc, ← Nat.add_assoc _ _ 1, Nat.div_add_mod, Nat.add_zero] at hlast
    split_ifs with hmid
    · obtain ⟨hgap, hmid⟩ := hmid
      refine iff_of_false id fun h ↦ hmid ?_
      rw [List.all_eq_true]
      intro j hj
      rw [List.mem_range'_1] at hj
      rw [beq_iff_eq, byte_eq_iff]
      exact h.mono (by omega) (by omega)
    · rw [Bool.and_eq_true, beq_iff_eq, beq_iff_eq, hfirst, hlast]
      constructor
      · rintro ⟨hlow, hhigh⟩
        refine (hlow.append ?_).append hhigh
        refine agree_of_bytes (s := start / 8 + 1) fun i hs ht ↦ ?_
        have hall := not_and_not_right.mp hmid (by omega)
        exact beq_iff_eq.mp (List.all_eq_true.mp hall i (List.mem_range'_1.mpr (by omega)))
      · intro h
        exact ⟨h.mono le_rfl (by omega), h.mono (by omega) le_rfl⟩

/-- `first_difference_subset` returns the lowest bit of its range on which the identifiers differ,
and nothing exactly when there is none. -/
theorem firstDifferenceSubset_spec {start stop : ℕ} (hstop : stop ≤ numBits) (a b : Id) :
    a.FirstDifference b start stop (firstDifferenceSubset start stop a b) := by
  unfold firstDifferenceSubset
  by_cases hempty : stop ≤ start
  · rw [if_pos (Or.inl (by omega))]
    exact fun i _ _ ↦ by omega
  obtain ⟨t, rfl⟩ : ∃ t, stop = t + 1 := ⟨stop - 1, by omega⟩
  rw [if_neg (by omega)]
  simp only [Nat.cast_add, Nat.cast_one, add_sub_cancel_right, toNat_div_eight, toNat_mod_eight]
  have hkeep := keeps_startMask_and_stopMask start t
  have hstart := keeps_startMask start
  by_cases hsame : start / 8 = t / 8
  · rw [if_pos hsame]
    split_ifs with heq
    · have hagree := (masked_byte_eq_iff hkeep).mp heq
      exact hagree.mono (by omega) (by omega)
    · have hdiff := firstDifference_masked hkeep heq
      rwa [Nat.div_add_mod, show 8 * (start / 8) + t % 8 + 1 = t + 1 by omega] at hdiff
  rw [if_neg hsame]
  split
  case isTrue hfirst =>
    obtain ⟨hlo, hhi, hne, hbefore⟩ := firstDifference_masked hstart hfirst
    exact ⟨by omega, by omega, hne, hbefore.mono (by omega) le_rfl⟩
  case isFalse hfirst =>
    have hlow := (masked_byte_eq_iff hstart).mp (not_not.mp hfirst)
    rw [Nat.div_add_mod] at hlow
    cases hfind : (List.range' (start / 8 + 1) (t / 8 - (start / 8 + 1))).find?
        fun i ↦ a.byte i != b.byte i with
    | some j =>
      obtain ⟨hne, hmem, hprev⟩ := List.find?_range'_eq_some.mp hfind
      rw [List.mem_range'_1] at hmem
      have hmask : masked (startMask 0) (a.byte j) ≠ masked (startMask 0) (b.byte j) := by
        rw [Ne, masked_byte_eq_iff keeps_startMask_zero]
        exact fun h ↦ bne_iff_ne.mp hne (byte_eq_iff.mpr h)
      obtain ⟨hlo, hhi, hdiff, hbefore⟩ := firstDifference_masked keeps_startMask_zero hmask
      simp only [masked_startMask_zero] at hlo hhi hdiff hbefore
      have hmid : a.Agree b (8 * (start / 8 + 1)) (8 * j) := agree_of_bytes fun i hs ht ↦ by
        simpa using hprev i hs ht
      exact .after (hlow.append hmid) (by omega) ⟨hlo, by omega, hdiff, hbefore⟩
    | none =>
      have hmid : a.Agree b (8 * (start / 8 + 1)) (8 * (t / 8)) := agree_of_bytes fun i hs ht ↦ by
        simpa using List.find?_eq_none.mp hfind i (List.mem_range'_1.mpr (by omega))
      refine .after (hlow.append hmid) (by omega) ?_
      dsimp only
      split_ifs with hlast
      · have hdiff := firstDifference_masked (keeps_stopMask t) hlast
        rwa [Nat.add_zero, Nat.div_add_mod] at hdiff
      · have hagree := (masked_byte_eq_iff (keeps_stopMask t)).mp (not_not.mp hlast)
        rwa [Nat.add_zero, Nat.div_add_mod] at hagree

/-! ## Bit strings -/

namespace Id

/-- The `n` bits of an id from position `start` on. -/
def bitsFrom (id : Id) (start n : ℕ) : List Bool := (List.range' start n).map id.bit

/-- The id with the given bits, read like `bit`; missing bits are `false`. -/
def ofBits (bits : List Bool) : Id :=
  BitVec.ofFnLE fun n : Fin 256 ↦ bits.getD (8 * (31 - n / 8) + n % 8) false

@[simp] theorem length_bitsFrom (id : Id) (start n : ℕ) : (id.bitsFrom start n).length = n := by
  simp [bitsFrom]

@[simp] theorem bitsFrom_zero (id : Id) (start : ℕ) : id.bitsFrom start 0 = [] := rfl

theorem bitsFrom_succ (id : Id) (start n : ℕ) :
    id.bitsFrom start (n + 1) = id.bit start :: id.bitsFrom (start + 1) n := rfl

theorem bitsFrom_add (id : Id) (start m n : ℕ) :
    id.bitsFrom start (m + n) = id.bitsFrom start m ++ id.bitsFrom (start + m) n := by
  rw [bitsFrom, ← List.range'_append, List.map_append, one_mul]
  rfl

theorem bitsFrom_eq_iff {a b : Id} {start n : ℕ} :
    a.bitsFrom start n = b.bitsFrom start n ↔
      ∀ i, start ≤ i → i < start + n → a.bit i = b.bit i := by
  simp [bitsFrom, List.mem_range'_1]

/-- An id is determined by its bits. -/
theorem eq_of_bitsFrom_eq {a b : Id} (h : a.bitsFrom 0 numBits = b.bitsFrom 0 numBits) : a = b :=
  ext_bit fun i hi ↦ bitsFrom_eq_iff.mp h i (Nat.zero_le i) (by simpa using hi)

theorem bit_ofBits {bits : List Bool} {i : ℕ} (hi : i < numBits) :
    (ofBits bits).bit i = bits.getD i false := by
  have hi' : i < 256 := hi
  rw [bit_eq_getLsbD, ofBits, BitVec.getLsbD_ofFnLE, dif_pos (by omega)]
  congr 1
  dsimp only
  omega

@[simp] theorem ofBits_bitsFrom (id : Id) : ofBits (id.bitsFrom 0 numBits) = id := by
  refine ext_bit fun i hi ↦ ?_
  rw [bit_ofBits hi, bitsFrom, List.getD_eq_getElem?_getD]
  simp [hi]

end Id

theorem equalSubset_zero_iff {n : ℕ} (hn : n ≤ numBits) (a b : Id) :
    equalSubset 0 n a b = true ↔ b.bitsFrom 0 n = a.bitsFrom 0 n := by
  have h := @equalSubset_eq_true_iff 0 n hn a b
  rw [Nat.cast_zero] at h
  rw [h, Id.bitsFrom_eq_iff]
  simp [Id.Agree, eq_comm]

end Avalanche
