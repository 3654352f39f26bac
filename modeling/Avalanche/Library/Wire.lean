import Mathlib

/-!
# Wire formats

A wire format writes a value as bytes and reads one off the front of a byte string. The two are kept
together with the fact that what was written is read back, whatever follows it; formats are then put
together from smaller ones, and the round trip with them.

Numbers are big-endian and of a fixed width. A list is its length in four bytes and its elements.
-/

/-- A format for the values of `α`. -/
structure Wire (α : Type) where
  put : α → List UInt8
  get : List UInt8 → Option (α × List UInt8)
  get_put : ∀ (a : α) (rest : List UInt8), get (put a ++ rest) = some (a, rest)

namespace Wire

variable {α β : Type}

/-! ### Numbers -/

/-- The last `k` bytes of a number, the highest first. -/
def be : ℕ → ℕ → List UInt8
  | 0, _ => []
  | k + 1, n => be k (n / 256) ++ [UInt8.ofNat n]

/-- The number that bytes spell. -/
def ofBe (bytes : List UInt8) : ℕ := bytes.foldl (fun n b ↦ 256 * n + b.toNat) 0

@[simp] theorem length_be (k n : ℕ) : (be k n).length = k := by
  induction k generalizing n with
  | zero => rfl
  | succ k ih => rw [be, List.length_append, ih, List.length_singleton]

theorem ofBe_be (k n : ℕ) : ofBe (be k n) = n % 256 ^ k := by
  induction k generalizing n with
  | zero => rw [pow_zero, Nat.mod_one, be, ofBe, List.foldl_nil]
  | succ k ih =>
    rw [be, ofBe, List.foldl_append, ← ofBe, ih, List.foldl_cons, List.foldl_nil, pow_succ',
      Nat.mod_mul, UInt8.toNat_ofNat']
    exact Nat.add_comm _ _

theorem ofBe_append_singleton (bytes : List UInt8) (b : UInt8) :
    ofBe (bytes ++ [b]) = 256 * ofBe bytes + b.toNat := by
  rw [ofBe, List.foldl_append, ← ofBe, List.foldl_cons, List.foldl_nil]

theorem ofBe_lt (bytes : List UInt8) : ofBe bytes < 256 ^ bytes.length := by
  induction bytes using List.reverseRecOn with
  | nil => exact Nat.one_pos
  | append_singleton bytes b ih =>
    have hb := b.toNat_lt
    rw [ofBe_append_singleton, List.length_append, List.length_singleton, pow_succ']
    omega

/-- Bytes are what the number they spell is written as. -/
theorem be_ofBe (bytes : List UInt8) : be bytes.length (ofBe bytes) = bytes := by
  induction bytes using List.reverseRecOn with
  | nil => rfl
  | append_singleton bytes b ih =>
    have hb : b.toNat < 256 := b.toNat_lt
    have hdiv : (256 * ofBe bytes + b.toNat) / 256 = ofBe bytes := by omega
    have hmod : UInt8.ofNat (256 * ofBe bytes + b.toNat) = b := by
      rw [← UInt8.toNat_inj, UInt8.toNat_ofNat']
      omega
    rw [ofBe_append_singleton, List.length_append, List.length_singleton, be, hdiv, ih, hmod]

/-- A word of `k` bytes. -/
def word (k : ℕ) : Wire (BitVec (8 * k)) where
  put v := be k v.toNat
  get bytes :=
    if k ≤ bytes.length then some (BitVec.ofNat _ (ofBe (bytes.take k)), bytes.drop k) else none
  get_put v rest := by
    have hlength : k ≤ (be k v.toNat ++ rest).length := by
      rw [List.length_append, length_be]
      exact Nat.le_add_right k _
    have htake : (be k v.toNat ++ rest).take k = be k v.toNat :=
      List.take_left' (length_be k v.toNat)
    have hdrop : (be k v.toNat ++ rest).drop k = rest := List.drop_left' (length_be k v.toNat)
    have hlt : v.toNat < 256 ^ k := by
      have h := v.isLt
      rwa [pow_mul] at h
    rw [if_pos hlength, htake, hdrop, ofBe_be, Nat.mod_eq_of_lt hlt, BitVec.ofNat_toNat,
      BitVec.setWidth_eq]

/-! ### Composition -/

/-- A format for the values that `f` makes of those of another, and `g` takes apart. -/
def map (w : Wire α) (f : α → β) (g : β → α) (hfg : ∀ b, f (g b) = b) : Wire β where
  put b := w.put (g b)
  get bytes := (w.get bytes).map fun r ↦ (f r.1, r.2)
  get_put b rest := by rw [w.get_put, Option.map_some, hfg]

/-- One value after the other. -/
def pair (w : Wire α) (w' : Wire β) : Wire (α × β) where
  put p := w.put p.1 ++ w'.put p.2
  get bytes := do
    let (a, bytes) ← w.get bytes
    let (b, bytes) ← w'.get bytes
    some ((a, b), bytes)
  get_put p rest := by
    rw [List.append_assoc, w.get_put]
    simp [w'.get_put]

def u8 : Wire UInt8 := (word 1).map UInt8.ofBitVec UInt8.toBitVec fun _ ↦ rfl

def u16 : Wire UInt16 := (word 2).map UInt16.ofBitVec UInt16.toBitVec fun _ ↦ rfl

def u32 : Wire UInt32 := (word 4).map UInt32.ofBitVec UInt32.toBitVec fun _ ↦ rfl

def u64 : Wire UInt64 := (word 8).map UInt64.ofBitVec UInt64.toBitVec fun _ ↦ rfl

/-! ### Lists -/

/-- The elements of a list, without its length. -/
def putAll (w : Wire α) (l : List α) : List UInt8 := l.flatMap w.put

/-- `n` elements. -/
def getAll (w : Wire α) : ℕ → List UInt8 → Option (List α × List UInt8)
  | 0, bytes => some ([], bytes)
  | n + 1, bytes => do
    let (a, bytes) ← w.get bytes
    let (l, bytes) ← w.getAll n bytes
    some (a :: l, bytes)

theorem getAll_putAll (w : Wire α) (l : List α) (rest : List UInt8) :
    w.getAll l.length (w.putAll l ++ rest) = some (l, rest) := by
  induction l with
  | nil => rfl
  | cons a l ih =>
    rw [putAll, List.flatMap_cons, List.append_assoc, List.length_cons, getAll, w.get_put]
    simp only [Option.bind_eq_bind, Option.bind_some]
    rw [← putAll, ih, Option.bind_some]

/-- A list short enough for its length. -/
def list (w : Wire α) : Wire { l : List α // l.length < 2 ^ 32 } where
  put l := u32.put (UInt32.ofNat l.1.length) ++ w.putAll l.1
  get bytes := do
    let (n, bytes) ← u32.get bytes
    let (l, bytes) ← w.getAll n.toNat bytes
    -- `n` elements were read, so that the length fits
    if h : l.length < 2 ^ 32 then some (⟨l, h⟩, bytes) else none
  get_put l rest := by
    have hlength : (UInt32.ofNat l.1.length).toNat = l.1.length := UInt32.toNat_ofNat_of_lt' l.2
    rw [List.append_assoc, u32.get_put]
    simp only [Option.bind_eq_bind, Option.bind_some, hlength, getAll_putAll, dif_pos l.2]

end Wire
