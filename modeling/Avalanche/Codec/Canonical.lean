import Avalanche.Codec.MapLayout
import Avalanche.Library.Loop

/-!
# The linear codec is canonical up to a size

Every type has a layout, and the manager writes the version of the codec in front of it. What is
read back is what was written, and what was written is all that reads back as it.

The writer refuses a vector of more than `i32::MAX` elements and the reader does not. A manager that
accepts inputs long enough for such a vector accepts bytes that it does not write itself.
-/

open Std

namespace Avalanche.Codec

open Serializable Deserializable

def Ty.layout : (t : Ty) → Layout t.Value
  | u8 => Layout.u8
  | u16 => Layout.u16
  | u32 => Layout.u32
  | u64 => Layout.u64
  | bool => Layout.bool
  | string => Layout.string
  | array n => Layout.array n.toNat (UInt64.toNat_le_u64Max n)
  | vec t => t.layout.vec
  | map k v => k.layout.map v.layout

namespace Manager

variable {α : Type} [Serializable α] [Deserializable α]

/-- A value with its version. -/
def frame (L : Layout α) (version : UInt16) (v : α) : Bytes :=
  Wire.be 2 version.toNat ++ L.raw v

theorem length_frame (L : Layout α) (version : UInt16) (v : α) :
    (frame L version v).length = (L.raw v).length + 2 := by
  rw [frame, List.length_append, Wire.length_be, Nat.add_comm]

variable {m : Manager} {version : UInt16} {bytes : Bytes} {v dst : α}

omit [Serializable α] [Deserializable α] in
theorem codec_eq_ok_iff : m.codec version = .ok () ↔ version ∈ m.codecs := by
  by_cases h : version ∈ m.codecs <;> simp [codec, h]

omit [Serializable α] [Deserializable α] in
theorem packerResult_eq_ok_iff {a b : α} {err : Option PackerError} :
    packerResult a err = .ok b ↔ err = none ∧ a = b := by
  rcases err with - | e <;> simp [packerResult]

theorem size_eq_ok_iff (L : Layout α) {v : α} {n : ℕ} :
    m.size version v = .ok n ↔ version ∈ m.codecs ∧ (frame L version v).length ≤ u64Max ∧
      (frame L version v).length = n := by
  have hadd : (min (L.raw v).length u64Max + 2 ≤ u64Max ∧ min (L.raw v).length u64Max + 2 = n) ↔
      ((L.raw v).length + 2 ≤ u64Max ∧ (L.raw v).length + 2 = n) := by omega
  have helim : (checkedAdd (Serializable.size v) 2).elim (.error .maxSliceLenExceeded) .ok
      = (.ok n : Except CodecError ℕ) ↔ checkedAdd (Serializable.size v) 2 = some n := by
    rcases checkedAdd (Serializable.size v) 2 with - | k <;> simp
  rw [size, Except.bind_eq_ok_iff, length_frame, ← hadd, ← checkedAdd_eq_some_iff, ← L.size_eq,
    ← helim, ← codec_eq_ok_iff]
  exact ⟨fun ⟨_, h⟩ ↦ h, fun h ↦ ⟨(), h⟩⟩

theorem marshal_eq_ok_iff (L : Layout α) {v : α} :
    m.marshal version v = .ok bytes ↔ version ∈ m.codecs ∧ L.Encodable v ∧
      (frame L version v).length ≤ u64Max ∧ frame L version v = bytes := by
  have hwrites := (Writer.packU16_writes version).comp (L.writes v)
  rw [true_and] at hwrites
  rw [marshal, Except.bind_eq_ok_iff]
  constructor
  · rintro ⟨n, hsize, h⟩
    obtain ⟨hversion, hle, rfl⟩ := (size_eq_ok_iff L).mp hsize
    dsimp only at h
    split_ifs at h
    obtain ⟨herr, rfl⟩ := packerResult_eq_ok_iff.mp h
    obtain ⟨hok, hroom⟩ := hwrites.of_err_eq ⟨rfl, Nat.zero_le _⟩ herr
    exact ⟨hversion, hok, hle, (congrArg Writer.bytes (hwrites.eq_append hok hroom)).symm⟩
  · rintro ⟨hversion, hok, hle, rfl⟩
    refine ⟨(frame L version v).length, (size_eq_ok_iff L).mpr ⟨hversion, hle, rfl⟩, ?_⟩
    let p : Writer := { maxSize := max m.maxSize (frame L version v).length }
    have hroom : p.Room (frame L version v).length :=
      ⟨rfl, (Nat.zero_add _).trans_le (le_max_right _ _)⟩
    have hend : marshalInto v (p.packU16 version) = p.append (frame L version v) :=
      hwrites.eq_append hok hroom
    have hmid : (p.packU16 version).err = none := (L.writes v).sticky (congrArg Writer.err hend)
    dsimp only
    rw [hmid, Option.isSome_none, if_neg Bool.false_ne_true, hend]
    exact packerResult_eq_ok_iff.mpr ⟨rfl, rfl⟩

omit [Serializable α] in
/-- A value that takes up all the bytes behind the version. -/
theorem unmarshal_of_read {body : Bytes} (hversion : version ∈ m.codecs)
    (hle : (Wire.be 2 version.toNat ++ body).length ≤ m.maxSize)
    (hread : ∀ p : Reader, p.At (body ++ []) → unmarshalFrom dst p = (v, p.advance body.length)) :
    m.unmarshal (Wire.be 2 version.toNat ++ body) dst = .ok (version, v) := by
  let p : Reader := { src := Wire.be 2 version.toNat ++ body }
  have hp : p.At (Wire.be 2 version.toNat ++ (body ++ [])) :=
    ⟨rfl, Nat.zero_le _, by rw [List.append_nil]; rfl⟩
  have hp' := hp.advance
  have hend : ((p.advance (Wire.be 2 version.toNat).length).advance body.length).offset
      = (Wire.be 2 version.toNat ++ body).length := hp'.advance.length
  rw [unmarshal, if_neg (Nat.not_lt.mpr hle)]
  dsimp only
  rw [(Reader.unpackU16_reads decodeLimit).read_raw trivial hp]
  rw [hp'.if_err, hread _ hp']
  exact Except.bind_eq_ok_iff.mpr ⟨(), codec_eq_ok_iff.mpr hversion, Except.bind_eq_ok_iff.mpr
    ⟨_, packerResult_eq_ok_iff.mpr ⟨hp'.advance.err_eq, hend⟩, if_neg (not_not.mpr rfl)⟩⟩

omit [Serializable α] in
/-- What a manager does to accept an input. -/
theorem unmarshal_steps (h : m.unmarshal bytes dst = .ok (version, v)) :
    bytes.length ≤ m.maxSize ∧ version ∈ m.codecs ∧
      ∃ p₁ p₂ : Reader, ({ src := bytes } : Reader).unpackU16 = (version, p₁) ∧ p₁.err = none ∧
        unmarshalFrom dst p₁ = (v, p₂) ∧ p₂.err = none ∧ p₂.offset = bytes.length := by
  rcases hread : ({ src := bytes } : Reader).unpackU16 with ⟨version', p₁⟩
  rcases hvalue : unmarshalFrom dst p₁ with ⟨v', p₂⟩
  rw [unmarshal] at h
  split_ifs at h with hle
  dsimp only at h
  rw [hread] at h
  split_ifs at h with hp₁
  rw [hvalue, Except.bind_eq_ok_iff] at h
  obtain ⟨⟨⟩, hversion, h⟩ := h
  rw [Except.bind_eq_ok_iff] at h
  obtain ⟨offset, hoffset, h⟩ := h
  obtain ⟨hp₂, rfl⟩ := packerResult_eq_ok_iff.mp hoffset
  split_ifs at h with hend
  obtain ⟨rfl, rfl⟩ := Prod.mk.inj (Except.ok.inj h)
  exact ⟨Nat.le_of_not_lt hle, codec_eq_ok_iff.mp hversion, p₁, p₂, rfl,
    Option.not_isSome_iff_eq_none.mp hp₁, hvalue, hp₂, not_not.mp hend⟩

theorem eq_frame_of_unmarshal (L : Layout α)
    (hsize : m.maxSize < decodeLimit + 2) (h : m.unmarshal bytes dst = .ok (version, v)) :
    L.Encodable v ∧ bytes = frame L version v := by
  obtain ⟨hle, -, p₁, p₂, hread, hp₁, hvalue, hp₂, hend⟩ := unmarshal_steps h
  have hp : ({ src := bytes } : Reader).At bytes := ⟨rfl, Nat.zero_le _, rfl⟩
  obtain ⟨rest, -, rfl, -, rfl⟩ :=
    (Reader.unpackU16_reads (bytes.length + 1)).result hp (Nat.lt_succ_self _) hread hp₁
  have hlimit : rest.length < decodeLimit := by
    rw [List.length_append, Wire.length_be] at hle
    omega
  obtain ⟨rest', hok, rfl, -, rfl⟩ := (L.reads dst).result hp.advance hlimit hvalue hp₂
  -- nothing is left behind the value
  have hlength := hp.advance.advance.length
  rw [hend] at hlength
  obtain rfl := List.eq_nil_of_length_eq_zero (Nat.add_eq_left.mp hlength)
  exact ⟨hok, by rw [List.append_nil, frame]⟩

end Manager

/-- What a manager writes it reads back, with the size it says, and what it reads it writes back. -/
def Manager.Canonical (m : Manager) : Prop :=
  ∀ (t : Ty) (version : UInt16) (v dst : t.Value) (bytes : Bytes),
    (m.marshal version v = .ok bytes → bytes.length ≤ m.maxSize →
      m.unmarshal bytes dst = .ok (version, v) ∧ m.size version v = .ok bytes.length) ∧
    (m.unmarshal bytes dst = .ok (version, v) → m.marshal version v = .ok bytes)

section Long

variable {m : Manager} {version : UInt16} {l : List UInt8}

theorem Layout.length_raw_vec_u8 (l : List UInt8) :
    (Layout.u8.vec.raw l).length = l.length + 4 := by
  show (rawCount l.length ++ l.flatMap fun b ↦ [b]).length = _
  rw [List.length_append, length_rawCount, List.flatMap_singleton', Nat.add_comm]

/-- The reader takes a vector of bytes of any length that can be written down. -/
theorem Manager.unmarshal_bytes (hversion : version ∈ m.codecs) (hlen : l.length < 2 ^ 32)
    (hsize : l.length + 6 ≤ m.maxSize) :
    m.unmarshal (frame Layout.u8.vec version l) [] = .ok (version, l) := by
  have helement : ∀ b ∈ l, Layout.u8.Element b := fun b _ ↦ ⟨trivial, List.cons_ne_nil _ _⟩
  have hle : (frame Layout.u8.vec version l).length ≤ m.maxSize := by
    rwa [length_frame, Layout.length_raw_vec_u8]
  refine unmarshal_of_read hversion hle fun p hp ↦ ?_
  have hp : p.At (rawCount l.length ++ (l.flatMap Layout.u8.raw ++ [])) := by
    rwa [← List.append_assoc]
  exact counted_raw (unmarshalElems · []) hlen hp
    (Layout.u8.unmarshalElems_raw helement hp.advance) []

theorem Manager.marshal_ne_ok_of_lt (hlen : maxSliceLen < l.length) (bytes : Bytes) :
    m.marshal version l ≠ .ok bytes := by
  intro h
  obtain ⟨-, ⟨hle, -⟩, -⟩ := (marshal_eq_ok_iff Layout.u8.vec).mp h
  exact absurd hle (Nat.not_le_of_lt hlen)

/-- A manager that has room for one element too many reads what it does not write. -/
theorem Manager.not_canonical_of_le (hversion : version ∈ m.codecs)
    (hsize : 2 ^ 31 + 6 ≤ m.maxSize) : ¬m.Canonical := by
  intro h
  have hlength : (List.replicate (2 ^ 31) (0 : UInt8)).length = 2 ^ 31 := List.length_replicate
  have hread := unmarshal_bytes hversion (hlength.trans_lt (by decide)) (by rwa [hlength])
  exact marshal_ne_ok_of_lt (by rw [hlength]; decide) _ ((h (.vec .u8) version _ [] _).2 hread)

end Long

/-- A manager with the least limit under which a vector that is too long fits. -/
def wideManager : Manager where
  maxSize := 2 ^ 31 + 6
  maxSize_le := by rw [u64Max_eq]; decide
  codecs := [0]

theorem wideManager_not_canonical : ¬wideManager.Canonical :=
  Manager.not_canonical_of_le (List.mem_singleton.mpr rfl) (Nat.le_refl _)

/-- A manager with a codec is canonical if and only if no vector that is too long fits its inputs.
-/
theorem manager_canonical_iff (m : Manager) :
    m.Canonical ↔ m.codecs = [] ∨ m.maxSize < 2 ^ 31 + 6 := by
  constructor
  · intro h
    rcases hcodecs : m.codecs with - | ⟨version, codecs⟩
    · exact .inl rfl
    · refine .inr (Nat.lt_of_not_le fun hsize ↦ ?_)
      exact Manager.not_canonical_of_le (hcodecs ▸ List.mem_cons_self) hsize h
  · intro h t version v dst bytes
    constructor
    · intro hmarshal hle
      obtain ⟨hversion, hok, hmax, rfl⟩ := (Manager.marshal_eq_ok_iff t.layout).mp hmarshal
      refine ⟨Manager.unmarshal_of_read hversion hle fun p hp ↦ ?_,
        (Manager.size_eq_ok_iff t.layout).mpr ⟨hversion, hmax, rfl⟩⟩
      exact (t.layout.reads dst).read_raw hok hp
    · intro hunmarshal
      obtain ⟨hle, hversion, -⟩ := Manager.unmarshal_steps hunmarshal
      have hsize : m.maxSize < decodeLimit + 2 :=
        h.resolve_left (List.ne_nil_of_mem hversion)
      obtain ⟨hok, rfl⟩ := Manager.eq_frame_of_unmarshal t.layout hsize hunmarshal
      exact (Manager.marshal_eq_ok_iff t.layout).mpr
        ⟨hversion, hok, hle.trans m.maxSize_le, rfl⟩

end Avalanche.Codec
