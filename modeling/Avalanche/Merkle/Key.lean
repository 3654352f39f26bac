import Avalanche.Library.Radix

/-!
# Bit paths

A key is a path of tokens of one, two, four or eight bits, packed into bytes from the high bits on.
Its length is in bits, and what is left of the last byte is zero.

The routines below work on bytes, with shifts and masks, as the source does. What they compute is
said bit by bit (`bit_token`, `bit_take`, `bit_skip`, `hasPrefix_iff`), and from there on a key is
the list of its tokens; nothing downstream unfolds a shift.
-/

namespace Avalanche.Merkle

abbrev Bytes := List UInt8

inductive BranchFactor
  | two
  | four
  | sixteen
  | twoFiftySix
deriving DecidableEq

/-- The number of bits of a token. -/
def BranchFactor.tokenSize : BranchFactor → ℕ
  | two => 1
  | four => 2
  | sixteen => 4
  | twoFiftySix => 8

theorem BranchFactor.tokenSize_pos (bf : BranchFactor) : 0 < bf.tokenSize := by
  cases bf <;> decide

/-! ### Bits of a byte -/

def shr (x : UInt8) (n : ℕ) : UInt8 := ⟨x.toBitVec >>> n⟩

def shl (x : UInt8) (n : ℕ) : UInt8 := ⟨x.toBitVec <<< n⟩

/-- Bit `i` of a byte, the highest first. -/
def highBit (x : UInt8) (i : ℕ) : Bool := x.toBitVec.getLsbD (7 - i)

theorem highBit_shr {x : UInt8} {n i : ℕ} (hi : i < 8) :
    highBit (shr x n) i = (decide (n ≤ i) && highBit x (i - n)) := by
  rw [highBit, highBit, shr, BitVec.getLsbD_ushiftRight]
  by_cases hn : n ≤ i
  · rw [show n + (7 - i) = 7 - (i - n) by omega]
    simp [hn]
  · rw [BitVec.getLsbD_of_ge _ _ (by omega)]
    simp [hn]

theorem highBit_shl {x : UInt8} {n i : ℕ} (hi : i < 8) :
    highBit (shl x n) i = (decide (i + n < 8) && highBit x (i + n)) := by
  rw [highBit, highBit, shl, BitVec.getLsbD_shiftLeft]
  by_cases hn : i + n < 8
  · rw [show 7 - i - n = 7 - (i + n) by omega]
    simp [hn]
    omega
  · simp [hn]
    omega

theorem highBit_and (x y : UInt8) (i : ℕ) :
    highBit (x &&& y) i = (highBit x i && highBit y i) := by
  simp [highBit]

theorem highBit_or (x y : UInt8) (i : ℕ) :
    highBit (x ||| y) i = (highBit x i || highBit y i) := by
  simp [highBit]

theorem highBit_ones {i : ℕ} : highBit 0xFF i = true := by
  have hones : (0xFF : UInt8).toBitVec = BitVec.allOnes 8 := rfl
  rw [highBit, hones, BitVec.getLsbD_allOnes]
  exact decide_eq_true (by omega)

theorem highBit_zero (i : ℕ) : highBit 0 i = false := by
  simp [highBit]

theorem UInt8.ext_highBit {x y : UInt8} (h : ∀ i < 8, highBit x i = highBit y i) : x = y := by
  refine UInt8.toBitVec_inj.mp (BitVec.eq_of_getLsbD_eq fun i hi ↦ ?_)
  have hi' := h (7 - i) (by omega)
  rwa [highBit, highBit, show 7 - (7 - i) = i by omega] at hi'

/-! ### Keys -/

/-- Packed tokens, and the number of their bits. -/
structure Key where
  value : Bytes
  length : ℕ
deriving DecidableEq

def dualBitIndex (shift : ℕ) : ℕ := (8 - shift) % 8

theorem dualBitIndex_of_pos {shift : ℕ} (h : 0 < shift) : dualBitIndex shift = (8 - shift) := by
  rw [dualBitIndex]
  omega

def bytesNeeded (bits : ℕ) : ℕ := if bits % 8 = 0 then bits / 8 else bits / 8 + 1

/-- Copies bytes shifted to the left. -/
def shiftCopy (shift : ℕ) : Bytes → Bytes
  | [] => []
  | [x] => [shl x shift]
  | x :: y :: src => (shl x shift ||| shr y (dualBitIndex shift)) :: shiftCopy shift (y :: src)

namespace Key

def empty : Key := ⟨[], 0⟩

/-- All bits of the bytes. The source's length saturates at keys of `2 ^ 61` bytes, more than a
memory holds. -/
def fromBytes (bytes : Bytes) : Key := ⟨bytes, 8 * bytes.length⟩

/-- A byte of the key; the source panics on an index past the end. -/
def byte (k : Key) (i : ℕ) : UInt8 := k.value.getD i 0

def token (k : Key) (bitIndex tokenSize : ℕ) : UInt8 :=
  let shifted := shr (k.byte (bitIndex / 8)) (dualBitIndex ((bitIndex + tokenSize) % 8))
  shifted &&& shr 0xFF (dualBitIndex tokenSize)

/-- Whether `p` is a prefix of the key. -/
def hasPrefix (k p : Key) : Bool :=
  if k.length < p.length then false
  else
    let remainderBitCount := p.length % 8
    if remainderBitCount = 0 then p.value.isPrefixOf k.value
    else
      let mask := shr 0xFF remainderBitCount
      let last := p.value.length - 1
      -- the bits past the end of `p` are masked out
      if (p.byte last ||| mask) ≠ (k.byte last ||| mask) then false
      else (p.value.take last).isPrefixOf k.value

/-- Whether `p` is a prefix of the key from `bitsOffset` on. -/
def iteratedHasPrefix (k p : Key) (bitsOffset tokenSize : ℕ) : Bool :=
  if k.length < bitsOffset ∨ k.length - bitsOffset < p.length then false
  else (List.range ((p.length + tokenSize - 1) / tokenSize)).all fun j ↦
    k.token (bitsOffset + tokenSize * j) tokenSize = p.token (tokenSize * j) tokenSize

/-- The key without its first bits. -/
def skip (k : Key) (bitsToSkip : ℕ) : Key :=
  if k.length ≤ bitsToSkip then empty
  else
    let newLength := k.length - bitsToSkip
    let tail := k.value.drop (bitsToSkip / 8)
    if bitsToSkip % 8 = 0 then ⟨tail, newLength⟩
    else ⟨(shiftCopy (bitsToSkip % 8) tail).take (bytesNeeded newLength), newLength⟩

/-- The first bits of the key. -/
def take (k : Key) (bitsToTake : ℕ) : Key :=
  if k.length ≤ bitsToTake then k
  else
    let remainderBits := bitsToTake % 8
    if remainderBits = 0 then ⟨k.value.take (bitsToTake / 8), bitsToTake⟩
    else
      let n := bytesNeeded bitsToTake
      let buffer := k.value.take n
      ⟨buffer.set (n - 1) (buffer.getD (n - 1) 0 &&& shl 0xFF (dualBitIndex remainderBits)),
        bitsToTake⟩

end Key

/-- The number of bits in whole tokens that `first` and `second` from `secondOffset` on share. -/
def longestCommonPrefix (first second : Key) (secondOffset tokenSize : ℕ) : ℕ :=
  tokenSize * ((List.range first.length).takeWhile fun j ↦
    tokenSize * j < first.length ∧ tokenSize * j + secondOffset < second.length ∧
      first.token (tokenSize * j) tokenSize
        = second.token (tokenSize * j + secondOffset) tokenSize).length

namespace Key

/-! ### Bits of a key -/

def bit (k : Key) (i : ℕ) : Bool := highBit (k.byte (i / 8)) (i % 8)

variable {bf : BranchFactor} {k p : Key}

theorem bit_mul_add {i : ℕ} (hi : i < 8) (j : ℕ) : k.bit (8 * j + i) = highBit (k.byte j) i := by
  rw [bit, show (8 * j + i) / 8 = j by omega, show (8 * j + i) % 8 = i by omega]

/-- Bytes agree when their bits do. -/
theorem forall_byte_iff {n : ℕ} :
    (∀ j < n, p.byte j = k.byte j) ↔ ∀ i < 8 * n, k.bit i = p.bit i := by
  constructor
  · intro h i hi
    rw [bit, bit, h (i / 8) (by omega)]
  · intro h j hj
    refine UInt8.ext_highBit fun i hi ↦ ?_
    rw [← bit_mul_add hi, ← bit_mul_add hi, h (8 * j + i) (by omega)]

/-- A token does not cross the end of a byte. -/
theorem mod_add_tokenSize_le (bf : BranchFactor) {b : ℕ} (hb : bf.tokenSize ∣ b) :
    b % 8 + bf.tokenSize ≤ 8 := by
  obtain ⟨q, rfl⟩ := hb
  cases bf <;> simp only [BranchFactor.tokenSize] <;> omega

/-- A token is made of the bits from its index on. -/
theorem highBit_token {b j : ℕ} (hb : bf.tokenSize ∣ b) (hj : j < 8) :
    highBit (k.token b bf.tokenSize) j
      = (decide (8 - bf.tokenSize ≤ j) && k.bit (b + (j - (8 - bf.tokenSize)))) := by
  have hle := mod_add_tokenSize_le bf hb
  have hpos := bf.tokenSize_pos
  have hdual : dualBitIndex ((b + bf.tokenSize) % 8) = 8 - (b % 8 + bf.tokenSize) := by
    rw [dualBitIndex]
    omega
  rw [token, highBit_and, highBit_shr hj, highBit_shr hj, highBit_ones, bit, hdual,
    dualBitIndex_of_pos hpos]
  by_cases h : 8 - bf.tokenSize ≤ j
  · have hdiv : (b + (j - (8 - bf.tokenSize))) / 8 = b / 8 := by omega
    have hmod : (b + (j - (8 - bf.tokenSize))) % 8 = j - (8 - (b % 8 + bf.tokenSize)) := by omega
    have hle' : 8 - (b % 8 + bf.tokenSize) ≤ j := by omega
    simp [h, hle', hdiv, hmod]
  · simp [h]

/-- Two tokens are equal when their bits are. -/
theorem token_eq_token_iff {b b' : ℕ} (hb : bf.tokenSize ∣ b) (hb' : bf.tokenSize ∣ b') :
    k.token b bf.tokenSize = p.token b' bf.tokenSize ↔
      ∀ i < bf.tokenSize, k.bit (b + i) = p.bit (b' + i) := by
  have hle := mod_add_tokenSize_le bf hb
  constructor
  · intro h i hi
    have hbit := congrArg (highBit · (8 - bf.tokenSize + i)) h
    simp only [highBit_token hb (show 8 - bf.tokenSize + i < 8 by omega),
      highBit_token hb' (show 8 - bf.tokenSize + i < 8 by omega), Nat.le_add_right,
      decide_true, Bool.true_and, Nat.add_sub_cancel_left] at hbit
    exact hbit
  · intro h
    refine UInt8.ext_highBit fun j hj ↦ ?_
    rw [highBit_token hb hj, highBit_token hb' hj]
    by_cases hle : 8 - bf.tokenSize ≤ j
    · rw [h (j - (8 - bf.tokenSize)) (by omega)]
    · simp [hle]

/-- Packed tokens: whole tokens, as many bytes as they need, and zeros after them. -/
structure Packed (bf : BranchFactor) (k : Key) : Prop where
  aligned : bf.tokenSize ∣ k.length
  size : k.value.length = bytesNeeded k.length
  padding : ∀ i, k.length ≤ i → k.bit i = false

/-- Packed keys with the same bits. -/
theorem Packed.ext (hk : Packed bf k) (hp : Packed bf p) (hlength : k.length = p.length)
    (h : ∀ i < k.length, k.bit i = p.bit i) : k = p := by
  have hbit : ∀ i, k.bit i = p.bit i := fun i ↦ by
    rcases lt_or_ge i k.length with hi | hi
    · exact h i hi
    · rw [hk.padding i hi, hp.padding i (hlength ▸ hi)]
  have hbyte : ∀ j < k.value.length, k.byte j = p.byte j :=
    forall_byte_iff.mpr fun i _ ↦ (hbit i).symm
  obtain ⟨kv, kl⟩ := k
  obtain ⟨pv, pl⟩ := p
  cases hlength
  have hsize : kv.length = pv.length := hk.size.trans hp.size.symm
  refine congrArg (Key.mk · kl) (List.ext_getElem hsize fun j hj hj' ↦ ?_)
  have hj'' := hbyte j hj
  simpa [byte, List.getD_eq_getElem?_getD, hj, hj'] using hj''

theorem packed_fromBytes (bf : BranchFactor) (bytes : Bytes) : Packed bf (fromBytes bytes) where
  aligned := by
    have h8 : bf.tokenSize ∣ 8 := by cases bf <;> decide
    exact h8.mul_right _
  size := by
    change bytes.length = bytesNeeded (8 * bytes.length)
    rw [bytesNeeded, if_pos (by omega)]
    omega
  padding i hi := by
    change 8 * bytes.length ≤ i at hi
    have hbyte : (fromBytes bytes).byte (i / 8) = 0 := by
      rw [byte, List.getD_eq_getElem?_getD, List.getElem?_eq_none (by
        change bytes.length ≤ i / 8
        omega), Option.getD_none]
    rw [bit, hbyte, highBit_zero]

/-! ### Taking and skipping -/

theorem length_take (n : ℕ) : (k.take n).length = min n k.length := by
  rw [take]
  by_cases hle : k.length ≤ n
  · rw [if_pos hle, min_eq_right hle]
  · rw [if_neg hle, min_eq_left (by omega)]
    by_cases hr : n % 8 = 0 <;> simp only [hr, if_true, if_false]

theorem length_skip (n : ℕ) : (k.skip n).length = k.length - n := by
  rw [skip]
  by_cases hle : k.length ≤ n
  · rw [if_pos hle, Nat.sub_eq_zero_of_le hle]
    rfl
  · rw [if_neg hle]
    by_cases hr : n % 8 = 0 <;> simp only [hr, if_true, if_false]

/-- The bits that are taken. -/
theorem bit_take {n : ℕ} (hn : n < k.length) (hsize : k.value.length = bytesNeeded k.length)
    (i : ℕ) : (k.take n).bit i = (decide (i < n) && k.bit i) := by
  rw [take, if_neg (by omega)]
  by_cases hr : n % 8 = 0
  · have hbyte : (Key.mk (k.value.take (n / 8)) n).byte (i / 8)
        = if i < n then k.byte (i / 8) else 0 := by
      rw [byte, List.getD_eq_getElem?_getD, List.getElem?_take]
      by_cases hi : i < n
      · rw [if_pos hi, if_pos (by omega), byte, List.getD_eq_getElem?_getD]
      · rw [if_neg hi, if_neg (by omega), Option.getD_none]
    simp only [hr, if_true]
    rw [bit, hbyte, bit]
    by_cases hi : i < n <;> simp [hi, highBit_zero]
  · have hneeded : bytesNeeded n = n / 8 + 1 := by rw [bytesNeeded, if_neg hr]
    have hlength : n / 8 < k.value.length := by
      rw [hsize, bytesNeeded]
      split <;> omega
    simp only [hr, if_false, hneeded, Nat.add_sub_cancel]
    -- the last byte is masked
    have hbyte : ∀ j, (Key.mk ((k.value.take (n / 8 + 1)).set (n / 8)
        ((k.value.take (n / 8 + 1)).getD (n / 8) 0 &&& shl 0xFF (dualBitIndex (n % 8)))) n).byte j
        = if j < n / 8 then k.byte j
          else if j = n / 8 then k.byte j &&& shl 0xFF (dualBitIndex (n % 8)) else 0 := fun j ↦ by
      simp only [byte, List.getD_eq_getElem?_getD, List.getElem?_set, List.getElem?_take,
        List.length_take]
      rcases Nat.lt_trichotomy j (n / 8) with hj | rfl | hj
      · rw [if_neg (by omega), if_pos (by omega), if_pos hj]
      · simp [hlength]
      · rw [if_neg (by omega), if_neg (by omega), if_neg (by omega), if_neg (by omega),
          Option.getD_none]
    have hdual := dualBitIndex_of_pos (Nat.pos_of_ne_zero hr)
    rw [bit, hbyte, bit]
    rcases Nat.lt_trichotomy (i / 8) (n / 8) with hj | hj | hj
    · rw [if_pos hj]
      simp [show i < n by omega]
    · rw [if_neg (by omega), if_pos hj, highBit_and, highBit_shl (by omega), highBit_ones, hdual]
      by_cases hi : i < n
      · simp [hi, show i % 8 + (8 - n % 8) < 8 by omega]
      · simp [hi, show ¬i % 8 + (8 - n % 8) < 8 by omega]
    · rw [if_neg (by omega), if_neg (by omega), highBit_zero]
      simp [show ¬i < n by omega]

theorem getD_shiftCopy (shift : ℕ) (src : Bytes) (j : ℕ) :
    (shiftCopy shift src).getD j 0
      = (shl (src.getD j 0) shift ||| shr (src.getD (j + 1) 0) (dualBitIndex shift)) := by
  have hshl : shl 0 shift = 0 := by simp [shl]
  have hshr : shr 0 (dualBitIndex shift) = 0 := by simp [shr]
  fun_induction shiftCopy shift src generalizing j with
  | case1 => simp [hshl, hshr]
  | case2 x =>
    cases j with
    | zero => simp [hshr]
    | succ j => simp [hshl, hshr]
  | case3 x y src ih =>
    cases j with
    | zero => rfl
    | succ j => exact ih j

/-- The bits after those that are skipped. -/
theorem bit_skip {n i : ℕ} (hi : i < k.length - n) : (k.skip n).bit i = k.bit (n + i) := by
  rw [skip, if_neg (by omega)]
  by_cases hr : n % 8 = 0
  · simp only [hr, if_true]
    rw [bit, bit, byte, byte, List.getD_eq_getElem?_getD, List.getD_eq_getElem?_getD,
      List.getElem?_drop, show (n + i) / 8 = n / 8 + i / 8 by omega,
      show (n + i) % 8 = i % 8 by omega]
  · have hneeded : i / 8 < bytesNeeded (k.length - n) := by
      rw [bytesNeeded]
      split <;> omega
    have hdual := dualBitIndex_of_pos (Nat.pos_of_ne_zero hr)
    have hdrop : ∀ j, (k.value.drop (n / 8)).getD j 0 = k.byte (n / 8 + j) := fun j ↦ by
      rw [byte, List.getD_eq_getElem?_getD, List.getElem?_drop, List.getD_eq_getElem?_getD]
    simp only [hr, if_false]
    rw [bit, byte, List.getD_eq_getElem?_getD, List.getElem?_take, if_pos hneeded,
      ← List.getD_eq_getElem?_getD, getD_shiftCopy, hdrop, hdrop, highBit_or,
      highBit_shl (by omega), highBit_shr (by omega), hdual, bit]
    -- the bit comes from the byte or from the next one
    by_cases hcarry : i % 8 + n % 8 < 8
    · rw [show (n + i) / 8 = n / 8 + i / 8 by omega, show (n + i) % 8 = i % 8 + n % 8 by omega]
      simp [hcarry]
    · rw [show (n + i) / 8 = n / 8 + (i / 8 + 1) by omega,
        show (n + i) % 8 = i % 8 - (8 - n % 8) by omega]
      have hle : 8 - n % 8 ≤ i % 8 := by omega
      simp [hcarry, hle]

/-! ### Prefixes -/

theorem prefix_iff_getD (l m : Bytes) :
    l <+: m ↔ l.length ≤ m.length ∧ ∀ j < l.length, l.getD j 0 = m.getD j 0 := by
  constructor
  · rintro ⟨rest, rfl⟩
    refine ⟨by simp, fun j hj ↦ ?_⟩
    simp [List.getElem?_append_left hj]
  · rintro ⟨hle, h⟩
    refine List.prefix_iff_getElem?.mpr fun j hj ↦ ?_
    have hbyte := h j hj
    rw [List.getD_eq_getElem _ _ hj, List.getD_eq_getElem _ _ (hj.trans_le hle)] at hbyte
    rw [List.getElem?_eq_getElem (hj.trans_le hle), hbyte]

/-- A prefix has the first bits. -/
theorem hasPrefix_iff (hk : Packed bf k) (hp : Packed bf p) :
    k.hasPrefix p = true ↔ p.length ≤ k.length ∧ ∀ i < p.length, k.bit i = p.bit i := by
  have hpsize := hp.size
  have hksize := hk.size
  rw [hasPrefix]
  by_cases hlt : k.length < p.length
  · rw [if_pos hlt]
    exact iff_of_false Bool.false_ne_true fun h ↦ absurd h.1 (Nat.not_le.mpr hlt)
  · have hbytes : p.value.length ≤ k.value.length := by
      rw [hpsize, hksize, bytesNeeded, bytesNeeded]
      split <;> split <;> omega
    rw [if_neg hlt, and_iff_right (Nat.not_lt.mp hlt)]
    by_cases hr : p.length % 8 = 0
    · simp only [hr, if_true]
      rw [bytesNeeded, if_pos hr] at hpsize
      rw [List.isPrefixOf_iff_prefix, prefix_iff_getD, and_iff_right hbytes,
        show p.length = 8 * p.value.length by omega]
      exact forall_byte_iff
    · simp only [hr, if_false]
      rw [bytesNeeded, if_neg hr] at hpsize
      have hlast : p.value.length - 1 = p.length / 8 := by omega
      have htake : (p.value.take (p.length / 8)).isPrefixOf k.value = true ↔
          ∀ i < 8 * (p.length / 8), k.bit i = p.bit i := by
        rw [List.isPrefixOf_iff_prefix, prefix_iff_getD, List.length_take,
          min_eq_left (by omega), and_iff_right (by omega), ← forall_byte_iff]
        refine forall₂_congr fun j hj ↦ ?_
        rw [byte, byte, List.getD_eq_getElem?_getD, List.getElem?_take, if_pos hj,
          ← List.getD_eq_getElem?_getD]
      -- the masked bytes agree when the bits before the end do
      have hmask : (p.byte (p.length / 8) ||| shr 0xFF (p.length % 8))
            = (k.byte (p.length / 8) ||| shr 0xFF (p.length % 8)) ↔
          ∀ i < p.length % 8, highBit (k.byte (p.length / 8)) i
            = highBit (p.byte (p.length / 8)) i := by
        constructor
        · intro h i hi
          have hbit := congrArg (highBit · i) h
          simp only [highBit_or, highBit_shr (show i < 8 by omega),
            show ¬p.length % 8 ≤ i by omega, decide_false, Bool.false_and, Bool.or_false] at hbit
          exact hbit.symm
        · intro h
          refine UInt8.ext_highBit fun i hi ↦ ?_
          rw [highBit_or, highBit_or, highBit_shr hi, highBit_ones]
          by_cases hle : p.length % 8 ≤ i
          · simp [hle]
          · rw [h i (by omega)]
      rw [hlast, ite_not, Bool.if_false_right, Bool.and_eq_true, decide_eq_true_iff, htake, hmask]
      constructor
      · rintro ⟨hlastBits, hfirst⟩ i hi
        rcases lt_or_ge i (8 * (p.length / 8)) with hi' | hi'
        · exact hfirst i hi'
        · have hbit := hlastBits (i % 8) (by omega)
          rwa [show p.length / 8 = i / 8 by omega] at hbit
      · intro h
        refine ⟨fun i hi ↦ ?_, fun i hi ↦ h i (by omega)⟩
        rw [← bit_mul_add (by omega), ← bit_mul_add (by omega), h _ (by omega)]

/-! ### Keys as lists of tokens -/

/-- The tokens of a key. -/
def tokens (bf : BranchFactor) (k : Key) : List UInt8 :=
  (List.range (k.length / bf.tokenSize)).map fun j ↦ k.token (bf.tokenSize * j) bf.tokenSize

@[simp] theorem length_tokens : (k.tokens bf).length = k.length / bf.tokenSize := by
  rw [tokens, List.length_map, List.length_range]

theorem getElem?_tokens (j : ℕ) :
    (k.tokens bf)[j]? = if j < k.length / bf.tokenSize
      then some (k.token (bf.tokenSize * j) bf.tokenSize) else none := by
  rw [tokens, List.getElem?_map]
  split
  case isTrue h => rw [List.getElem?_range h, Option.map_some]
  case isFalse h => rw [List.getElem?_eq_none (by simpa using h), Option.map_none]

theorem forall_token_iff {off n : ℕ} (hoff : bf.tokenSize ∣ off) :
    (∀ j < n, k.token (off + bf.tokenSize * j) bf.tokenSize
        = p.token (bf.tokenSize * j) bf.tokenSize) ↔
      ∀ i < bf.tokenSize * n, k.bit (off + i) = p.bit i := by
  have hpos := bf.tokenSize_pos
  have htoken : ∀ j, (k.token (off + bf.tokenSize * j) bf.tokenSize
      = p.token (bf.tokenSize * j) bf.tokenSize ↔
        ∀ i < bf.tokenSize, k.bit (off + bf.tokenSize * j + i) = p.bit (bf.tokenSize * j + i)) :=
    fun j ↦ token_eq_token_iff (hoff.add (Nat.dvd_mul_right _ _)) (Nat.dvd_mul_right _ _)
  constructor
  · intro h i hi
    have hj : i / bf.tokenSize < n := Nat.div_lt_of_lt_mul hi
    have hbit := (htoken _).mp (h _ hj) (i % bf.tokenSize) (Nat.mod_lt _ hpos)
    rwa [Nat.add_assoc, Nat.div_add_mod] at hbit
  · intro h j hj
    refine (htoken j).mpr fun i hi ↦ ?_
    have hlt : bf.tokenSize * j + i < bf.tokenSize * n := by
      calc bf.tokenSize * j + i < bf.tokenSize * j + bf.tokenSize := by omega
        _ = bf.tokenSize * (j + 1) := by ring
        _ ≤ bf.tokenSize * n := Nat.mul_le_mul_left _ hj
    have hbit := h _ hlt
    rwa [← Nat.add_assoc] at hbit

theorem tokenSize_mul_div (h : bf.tokenSize ∣ k.length) :
    bf.tokenSize * (k.length / bf.tokenSize) = k.length := Nat.mul_div_cancel' h

/-- The tokens of a key are a prefix of those of another, from an offset on. -/
theorem tokens_prefix_drop_iff (hk : bf.tokenSize ∣ k.length) (hp : bf.tokenSize ∣ p.length)
    (o : ℕ) :
    p.tokens bf <+: (k.tokens bf).drop o ↔ p.length ≤ k.length - bf.tokenSize * o ∧
      ∀ j < p.length / bf.tokenSize, k.token (bf.tokenSize * o + bf.tokenSize * j) bf.tokenSize
        = p.token (bf.tokenSize * j) bf.tokenSize := by
  have hpos := bf.tokenSize_pos
  obtain ⟨a, ha⟩ := hk
  obtain ⟨b, hb⟩ := hp
  have hka : k.length / bf.tokenSize = a := by rw [ha, Nat.mul_div_cancel_left _ hpos]
  have hpb : p.length / bf.tokenSize = b := by rw [hb, Nat.mul_div_cancel_left _ hpos]
  have hlength : p.length ≤ k.length - bf.tokenSize * o ↔ b ≤ a - o := by
    rw [ha, hb, ← Nat.mul_sub, Nat.mul_le_mul_left_iff hpos]
  rw [hlength, hpb, List.prefix_iff_getElem?]
  simp only [length_tokens, hpb, List.getElem?_drop, getElem?_tokens, hka]
  constructor
  · intro h
    have hle : b ≤ a - o := by
      by_contra hlt
      have hj := h (a - o) (by omega)
      rw [if_neg (by omega)] at hj
      cases hj
    refine ⟨hle, fun j hj ↦ ?_⟩
    have htoken := h j hj
    rw [if_pos (by omega), Option.some_inj, Nat.mul_add] at htoken
    rw [htoken]
    simp [tokens]
  · rintro ⟨hle, h⟩ j hj
    rw [if_pos (by omega), Nat.mul_add, h j hj]
    simp [tokens]

theorem hasPrefix_iff_tokens (hk : Packed bf k) (hp : Packed bf p) :
    k.hasPrefix p = true ↔ p.tokens bf <+: k.tokens bf := by
  have hdrop := tokens_prefix_drop_iff hk.aligned hp.aligned 0
  rw [List.drop_zero] at hdrop
  have hforall : (∀ j < p.length / bf.tokenSize,
      k.token (bf.tokenSize * 0 + bf.tokenSize * j) bf.tokenSize
        = p.token (bf.tokenSize * j) bf.tokenSize) ↔ ∀ i < p.length, k.bit i = p.bit i := by
    rw [forall_token_iff (Nat.dvd_mul_right _ _), tokenSize_mul_div hp.aligned]
    simp only [Nat.mul_zero, Nat.zero_add]
  rw [hdrop, hforall, hasPrefix_iff hk hp, Nat.mul_zero, Nat.sub_zero]

/-- A packed key is its tokens. -/
theorem Packed.eq_of_tokens (hk : Packed bf k) (hp : Packed bf p)
    (h : k.tokens bf = p.tokens bf) : k = p := by
  have hpk := (hasPrefix_iff hk hp).mp ((hasPrefix_iff_tokens hk hp).mpr (h ▸ List.prefix_rfl))
  have hkp := (hasPrefix_iff hp hk).mp ((hasPrefix_iff_tokens hp hk).mpr (h ▸ List.prefix_rfl))
  exact hk.ext hp (hkp.1.antisymm hpk.1) fun i hi ↦ hpk.2 i (hi.trans_le hkp.1)

theorem packed_take (hk : Packed bf k) (o : ℕ) : Packed bf (k.take (bf.tokenSize * o)) := by
  by_cases hle : k.length ≤ bf.tokenSize * o
  · rwa [take, if_pos hle]
  · have hlt : bf.tokenSize * o < k.length := Nat.not_le.mp hle
    have hlength : (k.take (bf.tokenSize * o)).length = bf.tokenSize * o := by
      rw [length_take, min_eq_left hlt.le]
    refine ⟨by rw [hlength]; exact Nat.dvd_mul_right _ _, ?_, fun i hi ↦ ?_⟩
    · have hsize := hk.size
      have hneeded : bytesNeeded (bf.tokenSize * o) ≤ k.value.length := by
        rw [hsize, bytesNeeded, bytesNeeded]
        split <;> split <;> omega
      rw [hlength, take, if_neg hle]
      by_cases hr : bf.tokenSize * o % 8 = 0
      · simp only [hr, if_true, List.length_take]
        rw [bytesNeeded, if_pos hr] at hneeded ⊢
        exact min_eq_left hneeded
      · simp only [hr, if_false, List.length_set, List.length_take]
        exact min_eq_left hneeded
    · rw [bit_take hlt hk.size, decide_eq_false (by omega), Bool.false_and]

theorem tokens_take (hk : Packed bf k) (o : ℕ) :
    (k.take (bf.tokenSize * o)).tokens bf = (k.tokens bf).take o := by
  have hpos := bf.tokenSize_pos
  by_cases hle : k.length ≤ bf.tokenSize * o
  · rw [take, if_pos hle, List.take_of_length_le]
    rw [length_tokens]
    exact Nat.div_le_of_le_mul hle
  · have hlt : bf.tokenSize * o < k.length := Nat.not_le.mp hle
    have hpre : (k.take (bf.tokenSize * o)).tokens bf <+: k.tokens bf := by
      rw [← hasPrefix_iff_tokens hk (packed_take hk o), hasPrefix_iff hk (packed_take hk o),
        length_take, min_eq_left hlt.le]
      refine ⟨hlt.le, fun i hi ↦ ?_⟩
      rw [bit_take hlt hk.size, decide_eq_true hi, Bool.true_and]
    rw [List.prefix_iff_eq_take.mp hpre, length_tokens, length_take, min_eq_left hlt.le,
      Nat.mul_div_cancel_left _ hpos]

theorem tokens_skip (hk : bf.tokenSize ∣ k.length) (o : ℕ) :
    (k.skip (bf.tokenSize * o)).tokens bf = (k.tokens bf).drop o := by
  have hlength := length_skip (k := k) (bf.tokenSize * o)
  have haligned : bf.tokenSize ∣ (k.skip (bf.tokenSize * o)).length := by
    rw [hlength]
    exact Nat.dvd_sub hk (Nat.dvd_mul_right _ _)
  refine List.IsPrefix.eq_of_length ((tokens_prefix_drop_iff hk haligned o).mpr ⟨hlength.le, ?_⟩) ?_
  · rw [forall_token_iff (Nat.dvd_mul_right _ _), tokenSize_mul_div haligned, hlength]
    exact fun i hi ↦ (bit_skip hi).symm
  · rw [length_tokens, hlength, List.length_drop, length_tokens, Nat.sub_mul_div]

theorem iteratedHasPrefix_iff (hk : bf.tokenSize ∣ k.length) (hp : bf.tokenSize ∣ p.length) {o : ℕ}
    (ho : bf.tokenSize * o ≤ k.length) :
    k.iteratedHasPrefix p (bf.tokenSize * o) bf.tokenSize = true ↔
      p.tokens bf <+: (k.tokens bf).drop o := by
  have hpos := bf.tokenSize_pos
  have hrounds : (p.length + bf.tokenSize - 1) / bf.tokenSize = p.length / bf.tokenSize := by
    obtain ⟨b, hb⟩ := hp
    rw [hb, Nat.mul_div_cancel_left _ hpos, Nat.add_sub_assoc hpos, Nat.mul_add_div hpos,
      Nat.div_eq_of_lt (by omega), Nat.add_zero]
  rw [iteratedHasPrefix, hrounds, tokens_prefix_drop_iff hk hp]
  by_cases hlt : k.length - bf.tokenSize * o < p.length
  · rw [if_pos (.inr hlt)]
    exact iff_of_false Bool.false_ne_true fun h ↦ absurd h.1 (Nat.not_le.mpr hlt)
  · rw [if_neg (by omega), and_iff_right (Nat.not_lt.mp hlt)]
    simp [List.all_eq_true]

end Key

/-- Counting up while two lists agree. -/
theorem length_takeWhile_range {a b : List UInt8} {n : ℕ} (hn : a.length ≤ n) :
    ((List.range n).takeWhile fun j ↦ j < a.length ∧ j < b.length ∧ a[j]? = b[j]?).length
      = (Radix.common a b).length := by
  induction a generalizing b n with
  | nil => cases n <;> simp [Radix.common, List.range_succ_eq_map]
  | cons x a ih =>
    obtain ⟨n, rfl⟩ : ∃ m, n = m + 1 := ⟨n - 1, by simp at hn; omega⟩
    cases b with
    | nil => simp [Radix.common, List.range_succ_eq_map]
    | cons y b =>
      rw [Radix.common, List.range_succ_eq_map, List.takeWhile_cons]
      by_cases hxy : x = y
      · have hrest := ih (b := b) (n := n) (by simpa using hn)
        simp [hxy, List.takeWhile_map, Function.comp_def] at hrest ⊢
        exact hrest
      · simp [hxy]

/-- What is shared are the common tokens. -/
theorem longestCommonPrefix_eq {bf : BranchFactor} {first second : Key}
    (hfirst : bf.tokenSize ∣ first.length) (hsecond : bf.tokenSize ∣ second.length) (o : ℕ) :
    longestCommonPrefix first second (bf.tokenSize * o) bf.tokenSize
      = bf.tokenSize * (Radix.common (first.tokens bf) ((second.tokens bf).drop o)).length := by
  have hpos := bf.tokenSize_pos
  rw [longestCommonPrefix, ← length_takeWhile_range (n := first.length)]
  · congr 3
    funext j
    have hlt : bf.tokenSize * j < first.length ↔ j < (first.tokens bf).length := by
      rw [Key.length_tokens, ← Key.tokenSize_mul_div hfirst, Nat.mul_lt_mul_left hpos,
        Nat.mul_div_cancel_left _ hpos]
    have hlt' : bf.tokenSize * j + bf.tokenSize * o < second.length ↔
        j < ((second.tokens bf).drop o).length := by
      rw [List.length_drop, Key.length_tokens, ← Key.tokenSize_mul_div hsecond, ← Nat.mul_add,
        Nat.mul_lt_mul_left hpos, Nat.mul_div_cancel_left _ hpos, Nat.lt_sub_iff_add_lt]
    rw [decide_eq_decide, hlt, hlt']
    refine and_congr_right fun hj ↦ and_congr_right fun hj' ↦ ?_
    rw [Key.length_tokens] at hj
    rw [List.length_drop, Key.length_tokens] at hj'
    rw [Key.getElem?_tokens, if_pos hj, List.getElem?_drop, Key.getElem?_tokens,
      if_pos (by omega), Option.some_inj, Nat.mul_add, Nat.add_comm (bf.tokenSize * j)]
  · rw [Key.length_tokens]
    exact Nat.div_le_self _ _

end Avalanche.Merkle
