import Avalanche.Library.Wire

/-!
# Sets of indices as big numbers

A set of indices is the number with those bits. It is written big-endian, in as few bytes as it
needs, and the empty set as no bytes at all; bytes are read as the number they spell, whatever zeros
stand in front.
-/

namespace Avalanche

/-- Bit `i` is set when `i` is a member. -/
structure Bits where
  inner : ℕ
deriving DecidableEq

namespace Bits

def contains (bits : Bits) (i : ℕ) : Bool := bits.inner.testBit i

/-- The highest member plus one. -/
def bitLen (bits : Bits) : ℕ := bits.inner.size

def bytes (bits : Bits) : List UInt8 :=
  if bits.inner = 0 then [] else Wire.be ((bits.inner.size + 7) / 8) bits.inner

def fromBytes (b : List UInt8) : Bits := ⟨Wire.ofBe b⟩

theorem fromBytes_bytes (bits : Bits) : fromBytes bits.bytes = bits := by
  rw [bytes]
  split
  case isTrue hzero =>
    rw [fromBytes, Wire.ofBe, List.foldl_nil, ← hzero]
  case isFalse =>
    -- the highest bit falls into the bytes that are written
    have hlt : bits.inner < 256 ^ ((bits.inner.size + 7) / 8) := by
      rw [show 256 = 2 ^ 8 from rfl, ← pow_mul, ← Nat.size_le]
      omega
    rw [fromBytes, Wire.ofBe_be, Nat.mod_eq_of_lt hlt]

theorem contains_eq_false_of_bitLen_le {bits : Bits} {i : ℕ} (h : bits.bitLen ≤ i) :
    bits.contains i = false :=
  Nat.testBit_lt_two_pow (Nat.size_le.mp h)

/-- Two sets below a bound with the same members below it. -/
theorem ext_of_bitLen_le {a b : Bits} {n : ℕ} (ha : a.bitLen ≤ n) (hb : b.bitLen ≤ n)
    (h : ∀ i < n, a.contains i = b.contains i) : a = b := by
  refine congrArg Bits.mk (Nat.eq_of_testBit_eq fun i ↦ ?_)
  rcases lt_or_ge i n with hi | hi
  · exact h i hi
  · exact (contains_eq_false_of_bitLen_le (ha.trans hi)).trans
      (contains_eq_false_of_bitLen_le (hb.trans hi)).symm

/-- There is a set for every choice of members below a bound. -/
theorem exists_contains_eq (p : ℕ → Bool) (n : ℕ) :
    ∃ bits : Bits, bits.bitLen ≤ n ∧ ∀ i < n, bits.contains i = p i := by
  refine ⟨⟨(BitVec.ofFnLE fun i : Fin n ↦ p i).toNat⟩, ?_, fun i hi ↦ ?_⟩
  · exact Nat.size_le.mpr (BitVec.isLt _)
  · change (BitVec.ofFnLE fun i : Fin n ↦ p i).toNat.testBit i = p i
    simp [hi]

end Bits

end Avalanche
