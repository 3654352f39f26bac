import Avalanche.Codec.Linear

/-!
# What the codecs write

The layout of a type is what its values look like on the wire, and which of them have a form there.
A codec follows a layout if it writes exactly the values that have a form, in that form, and if
reading is the inverse of that in both directions.

The reader of a vector does not look at the bound that the writer keeps. What keeps it is the number
of bytes that are left: one byte per element is the least.
-/

open Std

namespace Avalanche.Codec

open Serializable Deserializable

/-- One more than the bytes of the longest vector of bytes. -/
def decodeLimit : ℕ := maxSliceLen + 5

/-- The form of the values of a type, and that the codec follows it. -/
structure Layout (α : Type) [Serializable α] [Deserializable α] where
  raw : α → Bytes
  Encodable : α → Prop
  size_eq : ∀ a, size a = min (raw a).length u64Max
  writes : ∀ a, Writer.Writes (marshalInto a) (Encodable a) (raw a)
  reads : ∀ dst, Reader.Reads decodeLimit (unmarshalFrom dst) Encodable raw

namespace Layout

/-- No form is the beginning of another. -/
theorem eq_of_append_eq {α : Type} [Serializable α] [Deserializable α] (L : Layout α) {a b : α}
    {rest rest' : Bytes} (ha : L.Encodable a) (hb : L.Encodable b)
    (h : L.raw a ++ rest = L.raw b ++ rest') : a = b := by
  let p : Reader := { src := L.raw a ++ rest }
  have hp : p.At (L.raw a ++ rest) := ⟨rfl, Nat.zero_le _, rfl⟩
  have hreadA := (L.reads a).read_raw ha hp
  have hreadB := (L.reads a).read_raw hb (h ▸ hp)
  exact congrArg Prod.fst (hreadA.symm.trans hreadB)

theorem eq_of_raw_eq {α : Type} [Serializable α] [Deserializable α] (L : Layout α) {a b : α}
    (ha : L.Encodable a) (hb : L.Encodable b) (h : L.raw a = L.raw b) : a = b :=
  L.eq_of_append_eq ha hb (congrArg (fun bytes ↦ bytes ++ []) h)

/-! ### Primitive types -/

variable {n : ℕ}

private theorem eq_min_u64Max (h : n ≤ 8) : n = min n u64Max :=
  (min_eq_left (h.trans (by rw [u64Max_eq]; decide))).symm

private theorem eq_min_length_be (h : n ≤ 8) (v : ℕ) :
    n = min (Wire.be n v).length u64Max := by
  rw [Wire.length_be]
  exact eq_min_u64Max h

def u8 : Layout UInt8 where
  raw v := [v]
  Encodable _ := True
  size_eq _ := eq_min_u64Max (n := 1) (by decide)
  writes v := Writer.packFixedBytes_writes [v]
  reads _ := Reader.unpackByte_reads _

def u16 : Layout UInt16 where
  raw v := Wire.be 2 v.toNat
  Encodable _ := True
  size_eq _ := eq_min_length_be (n := 2) (by decide) _
  writes := Writer.packU16_writes
  reads _ := Reader.unpackU16_reads _

def u32 : Layout UInt32 where
  raw v := Wire.be 4 v.toNat
  Encodable _ := True
  size_eq _ := eq_min_length_be (n := 4) (by decide) _
  writes := Writer.packU32_writes
  reads _ := Reader.unpackU32_reads _

def u64 : Layout UInt64 where
  raw v := Wire.be 8 v.toNat
  Encodable _ := True
  size_eq _ := eq_min_length_be (n := 8) (by decide) _
  writes v := Writer.packFixedBytes_writes _
  reads _ := Reader.unpackU64_reads _

def bool : Layout Bool where
  raw v := [v.toUInt8]
  Encodable _ := True
  size_eq _ := eq_min_u64Max (n := 1) (by decide)
  writes v := Writer.packFixedBytes_writes _
  reads _ := Reader.unpackBool_reads _

def string : Layout String where
  raw := rawStr
  Encodable s := s.toByteArray.data.toList.length ≤ Writer.maxStringLen
  size_eq s := by rw [rawStr, List.length_append, Wire.length_be]; rfl
  writes := Writer.packStr_writes
  reads _ := Reader.unpackStr_reads _

theorem fillArray_toList (dst v : Vector UInt8 n) : fillArray dst v.toList = v := by
  rw [fillArray, dif_pos v.length_toList]
  rfl

theorem toList_fillArray (dst : Vector UInt8 n) {raw : Bytes} (h : raw.length = n) :
    (fillArray dst raw).toList = raw := by
  rw [fillArray, dif_pos h]
  rfl

def array (n : ℕ) (hn : n ≤ u64Max) : Layout (Vector UInt8 n) where
  raw v := v.toList
  Encodable _ := True
  size_eq v := by
    rw [Vector.length_toList, min_eq_left hn]
    rfl
  writes v := Writer.packFixedBytes_writes _
  reads dst :=
    have hraw (v : Vector UInt8 n) (_ : True) : v.toList.length = n ∧ fillArray dst v.toList = v :=
      ⟨v.length_toList, fillArray_toList dst v⟩
    (Reader.read_reads _ n).map hraw fun _ h ↦ ⟨trivial, toList_fillArray dst h⟩

end Layout

/-! ### Counts -/

/-- The number of elements on the wire. -/
def rawCount (len : ℕ) : Bytes := Wire.be 4 (UInt32.ofNat len).toNat

@[simp] theorem length_rawCount (len : ℕ) : (rawCount len).length = 4 := Wire.length_be _ _

theorem packCount_writes (len : ℕ) :
    Writer.Writes (packCount · len) (len ≤ maxSliceLen) (rawCount len) := by
  have hpack := (Writer.packU32_writes (UInt32.ofNat len)).guard (len > maxSliceLen) .oversized
  rwa [and_true, Nat.not_lt] at hpack

/-- A count, and then as many elements as it says. -/
def counted {α : Type} (loop : ℕ → Reader → Option α × Reader) (dst : α) (p : Reader) :
    α × Reader :=
  let (count, p) := p.unpackU32
  if p.err.isSome then (dst, p)
  else
    let (out, p) := loop count.toNat p
    (out.getD dst, p)

variable {α : Type}

/-- The reader takes every count that there is a place for. -/
theorem counted_raw (loop : ℕ → Reader → Option α × Reader) {a : α} {len : ℕ}
    {body rest : Bytes} {p : Reader} (hlen : len < 2 ^ 32)
    (hp : p.At (rawCount len ++ (body ++ rest)))
    (hloop : loop len (p.advance (rawCount len).length)
      = (some a, (p.advance (rawCount len).length).advance body.length)) (dst : α) :
    counted loop dst p = (a, p.advance (rawCount len ++ body).length) := by
  have hcount : (UInt32.ofNat len).toNat = len := UInt32.toNat_ofNat_of_lt' hlen
  rw [counted, (Reader.unpackU32_reads decodeLimit).read_raw trivial hp]
  dsimp only
  rw [← rawCount, hp.advance.if_err, hcount, hloop, Option.getD_some, Reader.advance_advance,
    ← List.length_append]

/-- That there are not too many elements follows from the bytes that are there for them. -/
theorem counted_reads (loop : ℕ → Reader → Option α × Reader) {ok : α → Prop}
    {len : α → ℕ} {body : α → Bytes} (hlen : ∀ a, ok a → len a ≤ max 1 (body a).length)
    (hread : ∀ {p : Reader} {a : α} {rest : Bytes}, ok a → p.At (body a ++ rest) →
      loop (len a) p = (some a, p.advance (body a).length))
    (hcanonical : ∀ {p : Reader} {count : ℕ} {bytes : Bytes}, p.At bytes →
      bytes.length < decodeLimit → (loop count p).2.err = none →
      ∃ a rest, len a = count ∧ ok a ∧ bytes = body a ++ rest) (dst : α) :
    Reader.Reads decodeLimit (counted loop dst) (fun a ↦ len a ≤ maxSliceLen ∧ ok a)
      (fun a ↦ rawCount (len a) ++ body a) where
  read_raw := by
    rintro p a rest ⟨hle, hok⟩ hp
    rw [List.append_assoc] at hp
    exact counted_raw loop (hle.trans_lt (by decide)) hp (hread hok hp.advance) dst
  canonical := by
    intro p bytes hp hlimit herr
    rcases hcount : p.unpackU32 with ⟨count, p₁⟩
    rw [counted, hcount] at herr
    dsimp only at herr
    obtain ⟨hp₁, herr⟩ := Reader.of_if_err herr
    obtain ⟨rest, -, rfl, hlimit', rfl⟩ :=
      (Reader.unpackU32_reads decodeLimit).result hp hlimit hcount hp₁
    obtain ⟨a, rest', hcount, hok, rfl⟩ := hcanonical hp.advance hlimit' herr
    have hbound : len a ≤ maxSliceLen := by
      have hle := hlen a hok
      rw [List.length_append, Wire.length_be, List.length_append, decodeLimit] at hlimit
      have : 1 ≤ maxSliceLen := by decide
      omega
    refine ⟨a, rest', ⟨hbound, hok⟩, ?_⟩
    rw [rawCount, hcount, UInt32.ofNat_toNat, List.append_assoc]

/-- The sum of the sizes, as far as the sum of the lengths goes. -/
theorem foldl_saturatingAdd {size len : α → ℕ}
    (h : ∀ a, size a = min (len a) u64Max) (l : List α) (n : ℕ) :
    l.foldl (fun total a ↦ saturatingAdd total (size a)) (min n u64Max)
      = min (n + (l.map len).sum) u64Max := by
  induction l generalizing n with
  | nil => rfl
  | cons a l ih =>
    have hadd : saturatingAdd (min n u64Max) (size a) = min (n + len a) u64Max := by
      rw [h, saturatingAdd]
      omega
    rw [List.foldl_cons, hadd, ih, List.map_cons, List.sum_cons, Nat.add_assoc]

/-! ### Vectors -/

namespace Layout

section Vec

variable {α : Type} [Serializable α] [Deserializable α] [Inhabited α] (L : Layout α)

/-- An element of a vector takes at least one byte. -/
def Element (a : α) : Prop := L.Encodable a ∧ L.raw a ≠ []

omit [Inhabited α] in
theorem marshalElems_writes (l : List α) :
    Writer.Writes (marshalElems l) (∀ a ∈ l, L.Element a) (l.flatMap L.raw) := by
  induction l with
  | nil => exact Writer.Writes.nothing.congr (by simp)
  | cons a l ih =>
    rw [List.forall_mem_cons]
    exact (L.writes a).nonempty ih .invalidInput

theorem unmarshalElems_raw {l out : List α} {p : Reader} {rest : Bytes}
    (hl : ∀ a ∈ l, L.Element a) (hp : p.At (l.flatMap L.raw ++ rest)) :
    unmarshalElems l.length out p = (some (out ++ l), p.advance (l.flatMap L.raw).length) := by
  induction l generalizing out p with
  | nil => rw [List.append_nil]; rfl
  | cons a l ih =>
    obtain ⟨⟨hok, hne⟩, hl⟩ := List.forall_mem_cons.mp hl
    rw [List.flatMap_cons, List.append_assoc] at hp
    have hmoved : (p.advance (L.raw a).length).offset ≠ p.offset := by
      have hpos := List.length_pos_iff.mpr hne
      exact (Nat.lt_add_of_pos_right hpos).ne'
    rw [List.length_cons, unmarshalElems, (L.reads default).read_raw hok hp]
    dsimp only
    rw [hp.advance.if_err, if_neg hmoved, ih hl hp.advance, Reader.advance_advance,
      ← List.length_append, ← List.flatMap_cons, List.append_assoc, List.singleton_append]

theorem unmarshalElems_canonical {count : ℕ} {out : List α} {p : Reader} {bytes : Bytes}
    (hp : p.At bytes) (hlimit : bytes.length < decodeLimit)
    (herr : (unmarshalElems count out p).2.err = none) :
    ∃ (l : List α) (rest : Bytes), l.length = count ∧ (∀ a ∈ l, L.Element a) ∧
      bytes = l.flatMap L.raw ++ rest := by
  induction count generalizing out p bytes with
  | zero => exact ⟨[], bytes, rfl, by simp, rfl⟩
  | succ count ih =>
    rcases helem : unmarshalFrom (default : α) p with ⟨a, p₁⟩
    rw [unmarshalElems, helem] at herr
    dsimp only at herr
    obtain ⟨hp₁, herr⟩ := Reader.of_if_err herr
    split_ifs at herr with hmoved
    · exact absurd herr (Reader.addError_err_ne_none _ _)
    · obtain ⟨rest, hok, rfl, hlimit', rfl⟩ := (L.reads default).result hp hlimit helem hp₁
      have hne : L.raw a ≠ [] := by
        intro hnil
        rw [hnil] at hmoved
        exact hmoved rfl
      obtain ⟨l, rest', rfl, hl, rfl⟩ := ih hp.advance hlimit' herr
      refine ⟨a :: l, rest', rfl, List.forall_mem_cons.mpr ⟨⟨hok, hne⟩, hl⟩, ?_⟩
      rw [List.flatMap_cons, List.append_assoc]

omit [Inhabited α] in
theorem length_le_flatMap {l : List α} (hl : ∀ a ∈ l, L.Element a) :
    l.length ≤ (l.flatMap L.raw).length := by
  rw [List.length_flatMap, ← List.length_map (fun a ↦ (L.raw a).length)]
  refine List.length_le_sum_of_one_le _ fun n hn ↦ ?_
  obtain ⟨a, ha, rfl⟩ := List.mem_map.mp hn
  exact List.length_pos_iff.mpr (hl a ha).2

def vec : Layout (List α) where
  raw l := rawCount l.length ++ l.flatMap L.raw
  Encodable l := l.length ≤ maxSliceLen ∧ ∀ a ∈ l, L.Element a
  size_eq l := by
    have hfour : 4 = min 4 u64Max := by rw [u64Max_eq]; rfl
    show l.foldl (fun total elem ↦ saturatingAdd total (size elem)) 4 = _
    rw [hfour, foldl_saturatingAdd L.size_eq, List.length_append, length_rawCount,
      List.length_flatMap]
  writes l := (packCount_writes l.length).comp (L.marshalElems_writes l)
  reads := counted_reads (unmarshalElems · [])
    (fun l hl ↦ (L.length_le_flatMap hl).trans (le_max_right _ _))
    L.unmarshalElems_raw L.unmarshalElems_canonical

end Vec

end Layout

end Avalanche.Codec
