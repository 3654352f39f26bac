import Avalanche.Database.PlainMap
import Avalanche.Library.Loop
import Avalanche.Library.Wire

/-!
# Keys of the archive

A user key is stored once per height, under its length as a variable-length integer, the key and the
inverted height. The length makes the part before the height unambiguous: it is a prefix of no other
such key (`eq_of_isPrefix`). The height is inverted so that a later version comes first
(`compare_newDbKeyFromUser`).
-/

open Except (orError require)

namespace Avalanche.Archive

open Database (Bytes)

inductive Error
  | notFound
  | parsingKeyLength
  | incorrectKeyLength
  | database (e : Database.Error)
  /-- A packed number of the base that does not have eight bytes. -/
  | unexpectedSize
deriving DecidableEq

/-- The bytes of a slice: its length fits `isize`. -/
abbrev Slice := { bytes : Bytes // bytes.length < 2 ^ 63 }

/-! ### Variable-length integers -/

/-- Seven bits at a time, the lowest first; the high bit says that more follow. -/
def putUvarint (x : UInt64) : Bytes :=
  if 0x80 ≤ x then (x.toUInt8 ||| 0x80) :: putUvarint (x >>> 7) else [x.toUInt8]
termination_by x.toNat
decreasing_by
  rename_i h
  have hle : 128 ≤ x.toNat := UInt64.le_iff_toNat_le.mp h
  rw [UInt64.toNat_shiftRight, Nat.shiftRight_eq_div_pow]
  exact Nat.div_lt_self (by omega) (by decide)

def checkedShl (x : UInt64) (shift : ℕ) : Option UInt64 :=
  if shift < 64 then some (x <<< UInt64.ofNat shift) else none

/-- The loop of `readUvarint`, at byte `i`. -/
def readLoop : Bytes → ℕ → UInt64 → ℕ → Option (UInt64 × ℕ)
  | [], _, _, _ => none
  | b :: buf, i, x, shift =>
    if i = 10 then none
    else if b < 0x80 then
      if i = 9 ∧ 1 < b then none
      else do
        let add ← checkedShl b.toUInt64 shift
        some (x ||| add, i + 1)
    else do
      let add ← checkedShl (b &&& 0x7f).toUInt64 shift
      readLoop buf (i + 1) (x ||| add) (shift + 7)

/-- The number at the front of the buffer and the number of its bytes. -/
def readUvarint (buf : Bytes) : Option (UInt64 × ℕ) := readLoop buf 0 0 0

/-! ### Keys -/

/-- The key of a version, and the part of it that does not depend on the height. -/
def newDbKeyFromUser (key : Bytes) (height : UInt64) : Bytes × Bytes :=
  let pre := putUvarint (UInt64.ofNat key.length) ++ key
  (pre ++ Wire.u64.put (~~~height), pre)

def saturatingAdd (a b : ℕ) : ℕ := min (a + b) (2 ^ 64 - 1)

def parseDbKeyFromUser (dbKey : Bytes) : Except Error (Bytes × UInt64) := do
  let (keyLen, offset) ← orError (readUvarint dbKey) .parsingKeyLength
  let heightIndex := saturatingAdd offset keyLen.toNat
  require (dbKey.length = saturatingAdd heightIndex 8) .incorrectKeyLength
  require (offset ≤ heightIndex ∧ heightIndex ≤ dbKey.length) .incorrectKeyLength
  let key := (dbKey.take heightIndex).drop offset
  let (suffix, _) ← orError (Wire.u64.get (dbKey.drop heightIndex)) .incorrectKeyLength
  return (key, ~~~suffix)

def newDbKeyFromMetadata (key : Bytes) : Bytes :=
  putUvarint (UInt64.ofNat (saturatingAdd key.length 1)) ++ key

/-- The key of the last written height. -/
def heightKey : Bytes := newDbKeyFromMetadata []

/-! ### Reading a number back -/

theorem toUInt64_low (y : UInt64) : ((y.toUInt8 ||| 0x80) &&& 0x7f).toUInt64 = y &&& 0x7f := by
  have hmod (n : ℕ) : n &&& 127 = n % 2 ^ 7 := Nat.and_two_pow_sub_one_eq_mod n 7
  rw [← UInt64.toNat_inj, UInt8.toNat_toUInt64, UInt8.toNat_and, UInt8.toNat_or,
    UInt64.toNat_toUInt8, UInt64.toNat_and]
  change (y.toNat % 2 ^ 8 ||| 2 ^ 7) &&& 127 = y.toNat &&& 127
  rw [hmod, hmod, Nat.or_mod_two_pow, Nat.mod_self, Nat.or_zero,
    Nat.mod_mod_of_dvd _ (pow_dvd_pow 2 (by decide))]

theorem toBitVec_shiftLeft_ofNat (x : UInt64) {s : ℕ} (hs : s < 64) :
    (x <<< UInt64.ofNat s).toBitVec = x.toBitVec <<< s := by
  rw [UInt64.toBitVec_shiftLeft, BitVec.shiftLeft_eq']
  congr 1
  simp
  omega

/-- The bits of a number are its low seven and the others. -/
theorem low_or_high (y : UInt64) {s : ℕ} (hs : s + 7 < 64) :
    (y &&& 0x7f) <<< UInt64.ofNat s ||| (y >>> 7) <<< UInt64.ofNat (s + 7)
      = y <<< UInt64.ofNat s := by
  refine UInt64.toBitVec_inj.mp (BitVec.eq_of_getLsbD_eq fun i hi ↦ ?_)
  have hmask : (0x7f : UInt64).toBitVec.getLsbD (i - s) = decide (i - s < 7) :=
    Nat.testBit_two_pow_sub_one 7 (i - s)
  have hshift : (y >>> 7).toBitVec = y.toBitVec >>> 7 := rfl
  rw [UInt64.toBitVec_or, toBitVec_shiftLeft_ofNat _ hs, toBitVec_shiftLeft_ofNat _ (by omega),
    toBitVec_shiftLeft_ofNat _ (by omega)]
  simp only [BitVec.getLsbD_or, BitVec.getLsbD_shiftLeft, UInt64.toBitVec_and, BitVec.getLsbD_and,
    hmask, hshift, BitVec.getLsbD_ushiftRight, hi]
  by_cases hlow : i < s
  · have : i < s + 7 := by omega
    simp [hlow, this]
  · by_cases hmid : i - s < 7
    · have : i < s + 7 := by omega
      simp [hlow, hmid, this]
    · have hhigh : ¬ i < s + 7 := by omega
      have heq : 7 + (i - (s + 7)) = i - s := by omega
      simp [hlow, hmid, hhigh, heq]

theorem readLoop_putUvarint (y : UInt64) (rest : Bytes) {i : ℕ} (x : UInt64)
    (hy : y.toNat * 2 ^ (7 * i) < 2 ^ 64) (hi : i < 10) :
    readLoop (putUvarint y ++ rest) i x (7 * i)
      = some (x ||| y <<< UInt64.ofNat (7 * i), i + (putUvarint y).length) := by
  induction hn : y.toNat using Nat.strong_induction_on generalizing y i x with
  | _ n ih =>
    rw [putUvarint]
    have hi10 : i ≠ 10 := by omega
    by_cases hbig : 0x80 ≤ y
    · -- one more byte, then the rest of the number
      have hle : 128 ≤ y.toNat := UInt64.le_iff_toNat_le.mp hbig
      have hbyte : ¬ (y.toUInt8 ||| 0x80) < 0x80 := by
        exact Nat.not_lt.mpr Nat.right_le_or
      have hi8 : 7 * i + 7 < 64 := by
        have hpow : 2 ^ (7 * i + 7) ≤ y.toNat * 2 ^ (7 * i) := by
          rw [pow_add, mul_comm]
          exact Nat.mul_le_mul_right _ hle
        exact (Nat.pow_lt_pow_iff_right (by decide)).mp (hpow.trans_lt hy)
      have hnext : (y >>> 7).toNat = y.toNat / 2 ^ 7 := by
        rw [UInt64.toNat_shiftRight, Nat.shiftRight_eq_div_pow]
        rfl
      have hle' : (y >>> 7).toNat * 2 ^ (7 * (i + 1)) ≤ y.toNat * 2 ^ (7 * i) := by
        rw [hnext, mul_add, mul_one, add_comm, pow_add, ← mul_assoc]
        exact Nat.mul_le_mul_right _ (Nat.div_mul_le_self _ _)
      rw [if_pos hbig, List.cons_append, readLoop, if_neg hi10, if_neg hbyte, checkedShl,
        if_pos (by omega), toUInt64_low]
      have hrec := ih (y >>> 7).toNat (by omega) (y >>> 7)
        (x ||| (y &&& 0x7f) <<< UInt64.ofNat (7 * i)) (hle'.trans_lt hy) (by omega) rfl
      rw [mul_add, mul_one] at hrec
      simp only [Option.bind_eq_bind, Option.bind_some]
      rw [hrec, UInt64.or_assoc, low_or_high y hi8, List.length_cons]
      congr 2
      omega
    · have hlt : y.toNat < 128 := Nat.not_le.mp fun hle ↦ hbig (UInt64.le_iff_toNat_le.mpr hle)
      have hnat : y.toUInt8.toNat = y.toNat := by
        rw [UInt64.toNat_toUInt8]
        omega
      have hbyte : y.toUInt8 < 0x80 := UInt8.lt_iff_toNat_lt.mpr (hnat ▸ hlt)
      have hlast : ¬ (i = 9 ∧ 1 < y.toUInt8) := by
        rintro ⟨rfl, h1⟩
        have h1' : 1 < y.toUInt8.toNat := UInt8.lt_iff_toNat_lt.mp h1
        omega
      have hsame : y.toUInt8.toUInt64 = y := by
        rw [← UInt64.toNat_inj, UInt8.toNat_toUInt64, hnat]
      rw [if_neg hbig, List.singleton_append, readLoop, if_neg hi10, if_pos hbyte, if_neg hlast,
        checkedShl, if_pos (by omega), hsame]
      rfl

/-- A number is read back, whatever follows it. -/
theorem readUvarint_putUvarint (y : UInt64) (rest : Bytes) :
    readUvarint (putUvarint y ++ rest) = some (y, (putUvarint y).length) := by
  have h := readLoop_putUvarint y rest (i := 0) 0 (by simpa using y.toNat_lt) (by decide)
  rw [readUvarint, h, Nat.zero_add]
  simp

/-! ### Telling keys apart -/

/-- Two numbers with what follows them are the same, or the first differ. -/
theorem putUvarint_inj {y y' : UInt64} {rest rest' : Bytes}
    (h : putUvarint y ++ rest = putUvarint y' ++ rest') : y = y' ∧ rest = rest' := by
  have hread := readUvarint_putUvarint y rest
  rw [h, readUvarint_putUvarint] at hread
  obtain rfl : y' = y := congrArg Prod.fst (Option.some.inj hread)
  exact ⟨rfl, List.append_cancel_left h⟩

theorem toNat_length (key : Slice) : (UInt64.ofNat key.1.length).toNat = key.1.length :=
  UInt64.toNat_ofNat_of_lt' (key.2.trans (by decide))

/-- Only the versions of a key start with the part before the height. -/
theorem eq_of_isPrefix {key key' : Slice} {h height : UInt64}
    (hpre : (newDbKeyFromUser key.1 h).2 <+: (newDbKeyFromUser key'.1 height).1) : key = key' := by
  obtain ⟨rest, hrest⟩ := hpre
  simp only [newDbKeyFromUser, List.append_assoc] at hrest
  obtain ⟨hlen, hkeys⟩ := putUvarint_inj hrest
  have hlength : key.1.length = key'.1.length := by
    rw [← toNat_length key, ← toNat_length key', hlen]
  exact Subtype.ext (List.append_inj hkeys hlength).1

theorem isPrefix_newDbKeyFromUser (key : Bytes) (h height : UInt64) :
    (newDbKeyFromUser key h).2 <+: (newDbKeyFromUser key height).1 := List.prefix_append _ _

@[simp] theorem length_putU64 (n : UInt64) : (Wire.u64.put n).length = 8 := Wire.length_be 8 _

theorem newDbKeyFromUser_inj {key key' : Slice} {height height' : UInt64} :
    (newDbKeyFromUser key.1 height).1 = (newDbKeyFromUser key'.1 height').1 ↔
      key = key' ∧ height = height' := by
  constructor
  · intro h
    obtain rfl := eq_of_isPrefix (h ▸ isPrefix_newDbKeyFromUser key.1 height height)
    have hput : Wire.u64.put (~~~height) = Wire.u64.put (~~~height') := List.append_cancel_left h
    have hget := Wire.u64.get_put (~~~height) []
    rw [hput, Wire.u64.get_put] at hget
    have hnot : ~~~height' = ~~~height := congrArg Prod.fst (Option.some.inj hget)
    exact ⟨rfl, (UInt64.not_inj.mp hnot).symm⟩
  · rintro ⟨rfl, rfl⟩
    rfl

theorem heightKey_eq : heightKey = putUvarint 1 ++ [] := rfl

/-- The key of the last written height is no version of a key, and starts like none. -/
theorem not_isPrefix_heightKey (key : Slice) (h : UInt64) :
    ¬ (newDbKeyFromUser key.1 h).2 <+: heightKey := by
  rintro ⟨rest, hrest⟩
  simp only [newDbKeyFromUser, List.append_assoc, heightKey_eq] at hrest
  obtain ⟨hlen, hkey⟩ := putUvarint_inj hrest
  have hone := toNat_length key
  rw [hlen, (List.append_eq_nil_iff.mp hkey).1] at hone
  exact absurd hone (by decide)

theorem newDbKeyFromUser_ne_heightKey (key : Slice) (height : UInt64) :
    (newDbKeyFromUser key.1 height).1 ≠ heightKey := fun h ↦
  not_isPrefix_heightKey key height (h ▸ isPrefix_newDbKeyFromUser key.1 height height)

theorem length_putUvarint_le {n : ℕ} (y : UInt64) (hy : y.toNat < 2 ^ (7 * (n + 1))) :
    (putUvarint y).length ≤ n + 1 := by
  induction n generalizing y with
  | zero =>
    have hsmall : ¬ 0x80 ≤ y := fun hle ↦ Nat.not_le.mpr hy (UInt64.le_iff_toNat_le.mp hle)
    rw [putUvarint, if_neg hsmall]
    rfl
  | succ n ih =>
    rw [putUvarint]
    split
    · refine Nat.succ_le_succ (ih _ ?_)
      rw [UInt64.toNat_shiftRight, Nat.shiftRight_eq_div_pow]
      refine Nat.div_lt_of_lt_mul ?_
      rwa [mul_add, mul_one, add_comm, pow_add] at hy
    · exact Nat.succ_le_succ (Nat.zero_le _)

/-- A key is parsed into what it was made of. -/
theorem parseDbKeyFromUser_newDbKeyFromUser (key : Slice) (height : UInt64) :
    parseDbKeyFromUser (newDbKeyFromUser key.1 height).1 = .ok (key.1, height) := by
  set len := putUvarint (UInt64.ofNat key.1.length) with hlen
  have hshort : len.length ≤ 10 :=
    length_putUvarint_le (n := 9) _ ((UInt64.toNat_lt _).trans (by decide))
  have hread : readUvarint (len ++ key.1 ++ Wire.u64.put (~~~height))
      = some (UInt64.ofNat key.1.length, len.length) := by
    rw [List.append_assoc, hlen, readUvarint_putUvarint]
  have hindex : saturatingAdd len.length (UInt64.ofNat key.1.length).toNat
      = (len ++ key.1).length := by
    rw [toNat_length, saturatingAdd, List.length_append]
    omega
  have htotal : (len ++ key.1 ++ Wire.u64.put (~~~height)).length
      = saturatingAdd (len ++ key.1).length 8 := by
    rw [List.length_append, length_putU64, saturatingAdd, List.length_append]
    omega
  have hget := Wire.u64.get_put (~~~height) []
  rw [List.append_nil] at hget
  refine Except.bind_eq_ok_iff.mpr ⟨_, Except.orError_eq_ok_iff.mpr hread, ?_⟩
  dsimp only
  rw [hindex]
  refine Except.bind_unit_eq_ok_iff.mpr ⟨Except.require_eq_ok_iff.mpr htotal, ?_⟩
  refine Except.bind_unit_eq_ok_iff.mpr ⟨Except.require_eq_ok_iff.mpr ⟨?_, ?_⟩, ?_⟩
  · exact (List.prefix_append len key.1).length_le
  · exact (List.prefix_append (len ++ key.1) _).length_le
  · change (do
      let (suffix, _) ← orError
        (Wire.u64.get ((len ++ key.1 ++ Wire.u64.put (~~~height)).drop (len ++ key.1).length)) _
      return ((((len ++ key.1 ++ Wire.u64.put (~~~height)).take
        (len ++ key.1).length).drop len.length), ~~~suffix)) = _
    rw [List.take_left, List.drop_left, List.drop_left, hget]
    simp [orError]

/-! ### The order of the versions -/

theorem compare_append_left (pre k l : Bytes) : compare (pre ++ k) (pre ++ l) = compare k l := by
  induction pre with
  | nil => rfl
  | cons b pre ih =>
    rw [List.cons_append, List.cons_append, Database.compare_cons, ih, Std.ReflOrd.compare_self]
    rfl

theorem compare_append_singleton {k l : Bytes} (h : k.length = l.length) (b c : UInt8) :
    compare (k ++ [b]) (l ++ [c]) = (compare k l).then (compare b c) := by
  induction k generalizing l with
  | nil =>
    obtain rfl : l = [] := List.eq_nil_of_length_eq_zero h.symm
    rw [List.nil_append, List.nil_append, Database.compare_cons, Std.ReflOrd.compare_self]
    cases compare b c <;> rfl
  | cons b' k ih =>
    obtain - | ⟨c', l⟩ := l
    · cases h
    · rw [List.cons_append, List.cons_append, Database.compare_cons, Database.compare_cons,
        ih (Nat.succ_injective h)]
      cases compare b' c' <;> rfl

theorem compare_byte (b c : UInt8) : compare b c = compare b.toNat c.toNat := by
  change compareOfLessAndEq b c = compareOfLessAndEq b.toNat c.toNat
  unfold compareOfLessAndEq
  simp only [UInt8.lt_iff_toNat_lt, ← UInt8.toNat_inj]

/-- Big-endian numbers of one width are ordered like their values. -/
theorem compare_be (k : ℕ) {m n : ℕ} (hm : m < 256 ^ k) (hn : n < 256 ^ k) :
    compare (Wire.be k m) (Wire.be k n) = compare m n := by
  induction k generalizing m n with
  | zero =>
    obtain rfl : m = 0 := by omega
    obtain rfl : n = 0 := by omega
    rfl
  | succ k ih =>
    rw [Wire.be, Wire.be, compare_append_singleton (by simp),
      ih (Nat.div_lt_of_lt_mul (by omega)) (Nat.div_lt_of_lt_mul (by omega)), compare_byte,
      UInt8.toNat_ofNat', UInt8.toNat_ofNat']
    rcases Nat.lt_trichotomy (m / 256) (n / 256) with hlt | heq | hgt
    · rw [compare_lt_iff_lt.mpr hlt, compare_lt_iff_lt.mpr (by omega : m < n)]
      rfl
    · rw [compare_eq_iff_eq.mpr heq]
      rcases Nat.lt_trichotomy m n with hlt | rfl | hgt
      · rw [compare_lt_iff_lt.mpr hlt]
        exact compare_lt_iff_lt.mpr (by omega)
      · rw [compare_eq_iff_eq.mpr rfl, compare_eq_iff_eq.mpr rfl]
        rfl
      · rw [compare_gt_iff_gt.mpr hgt]
        exact compare_gt_iff_gt.mpr (by omega)
    · rw [compare_gt_iff_gt.mpr hgt, compare_gt_iff_gt.mpr (by omega : m > n)]
      rfl

/-- Later versions come first. -/
theorem compare_newDbKeyFromUser (key : Bytes) (height height' : UInt64) :
    compare (newDbKeyFromUser key height).1 (newDbKeyFromUser key height').1
      = compare height'.toNat height.toNat := by
  have hnot (h : UInt64) : (~~~h).toNat = 2 ^ 64 - 1 - h.toNat := UInt64.toNat_not h
  have hlt := height.toNat_lt
  have hlt' := height'.toNat_lt
  refine (compare_append_left _ _ _).trans ((compare_be 8 ?_ ?_).trans ?_)
  · exact (~~~height).toNat_lt
  · exact (~~~height').toNat_lt
  · change compare (~~~height).toNat (~~~height').toNat = _
    rw [hnot, hnot]
    rcases Nat.lt_trichotomy height'.toNat height.toNat with h | h | h
    · rw [compare_lt_iff_lt.mpr h]
      exact compare_lt_iff_lt.mpr (by omega)
    · rw [h]
      simp
    · rw [compare_gt_iff_gt.mpr h]
      exact compare_gt_iff_gt.mpr (by omega)

end Avalanche.Archive
