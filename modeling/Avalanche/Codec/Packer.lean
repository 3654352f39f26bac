import Avalanche.Library.Wire
import Avalanche.Utils.Checked

/-!
# The packer

Bytes are appended to a buffer, or taken off the front of one. The first error sticks: every later
operation does nothing, and returns zeros when it is a read. A packer is used in one of its two
modes only, and each mode has a structure of its own here.
-/

namespace Avalanche.Codec

abbrev Bytes := List UInt8

inductive PackerError
  | insufficientLength
  | invalidInput
  | badBool
  | oversized
deriving DecidableEq

/-! ### Writing -/

/-- A packer in write mode. -/
structure Writer where
  bytes : Bytes := []
  maxSize : ℕ
  err : Option PackerError := none

namespace Writer

def addError (p : Writer) (e : PackerError) : Writer :=
  if p.err.isNone then { p with err := some e } else p

/-- Makes room for `n` more bytes. -/
def expandWrite (p : Writer) (n : ℕ) : Bool × Writer :=
  if p.err.isSome then (false, p)
  else if p.bytes.length + n ≤ p.maxSize then (true, p)
  else (false, p.addError .insufficientLength)

def packFixedBytes (p : Writer) (data : Bytes) : Writer :=
  let (room, p) := p.expandWrite data.length
  if room then { p with bytes := p.bytes ++ data } else p

def packByte (p : Writer) (b : UInt8) : Writer := p.packFixedBytes [b]

def packU16 (p : Writer) (v : UInt16) : Writer := p.packFixedBytes (Wire.be 2 v.toNat)

def packU32 (p : Writer) (v : UInt32) : Writer := p.packFixedBytes (Wire.be 4 v.toNat)

def packU64 (p : Writer) (v : UInt64) : Writer := p.packFixedBytes (Wire.be 8 v.toNat)

def packBool (p : Writer) (b : Bool) : Writer := p.packByte b.toUInt8

def maxStringLen : ℕ := 65535

def packStr (p : Writer) (s : String) : Writer :=
  let data := s.toByteArray.data.toList
  if data.length > maxStringLen then p.addError .invalidInput
  else (p.packU16 (UInt16.ofNat data.length)).packFixedBytes data

end Writer

/-! ### Reading -/

/-- A packer in read mode. -/
structure Reader where
  src : Bytes
  offset : ℕ := 0
  err : Option PackerError := none

namespace Reader

def addError (p : Reader) (e : PackerError) : Reader :=
  if p.err.isNone then { p with err := some e } else p

def checkSpace (p : Reader) (n : ℕ) : Bool × Reader :=
  if p.err.isSome then (false, p)
  else if p.offset + n ≤ p.src.length then (true, p)
  else (false, p.addError .insufficientLength)

def read (p : Reader) (n : ℕ) : Bytes × Reader :=
  let (space, p) := p.checkSpace n
  if space then ((p.src.drop p.offset).take n, { p with offset := p.offset + n }) else ([], p)

def unpackByte (p : Reader) : UInt8 × Reader :=
  let (b, p) := p.read 1
  (b.head?.getD 0, p)

/-- An unsigned number of `n` bytes, zero if they are not there. -/
def unpackUint (p : Reader) (n : ℕ) : ℕ × Reader :=
  let (b, p) := p.read n
  (if b.length = n then Wire.ofBe b else 0, p)

def unpackU16 (p : Reader) : UInt16 × Reader :=
  let (v, p) := p.unpackUint 2
  (UInt16.ofNat v, p)

def unpackU32 (p : Reader) : UInt32 × Reader :=
  let (v, p) := p.unpackUint 4
  (UInt32.ofNat v, p)

def unpackU64 (p : Reader) : UInt64 × Reader :=
  let (v, p) := p.unpackUint 8
  (UInt64.ofNat v, p)

def unpackBool (p : Reader) : Bool × Reader :=
  let (b, p) := p.unpackByte
  if b = 0 then (false, p)
  else if b = 1 then (true, p)
  else (false, p.addError .badBool)

def unpackFixedBytes (p : Reader) (n : ℕ) : Bytes × Reader := p.read n

def unpackBytes (p : Reader) : Bytes × Reader :=
  let (len, p) := p.unpackU32
  p.unpackFixedBytes len.toNat

def readStr (p : Reader) (len : ℕ) : String × Reader :=
  let (raw, p) := p.read len
  if p.err.isSome then ("", p)
  else
    match String.fromUTF8? ⟨raw.toArray⟩ with
    | some s => (s, p)
    | none => ("", p.addError .invalidInput)

def unpackStr (p : Reader) : String × Reader :=
  let (len, p) := p.unpackU16
  p.readStr len.toNat

end Reader

/-- A string on the wire. -/
def rawStr (s : String) : Bytes :=
  let data := s.toByteArray.data.toList
  Wire.be 2 (UInt16.ofNat data.length).toNat ++ data

/-! ### What is written

A step of a writer is described by the data it appends and by the condition for there being any: it
appends the data if the condition holds and there is room, and ends in an error otherwise. -/

namespace Writer

variable {data : Bytes} {f g : Writer → Writer} {ok ok' : Prop}

/-- No error so far, and `n` bytes fit. -/
structure Room (p : Writer) (n : ℕ) : Prop where
  err_eq : p.err = none
  fits : p.bytes.length + n ≤ p.maxSize

def append (p : Writer) (data : Bytes) : Writer := { p with bytes := p.bytes ++ data }

@[simp] theorem append_nil (p : Writer) : p.append [] = p := by
  rw [append, List.append_nil]

theorem append_append (p : Writer) (data data' : Bytes) :
    (p.append data).append data' = p.append (data ++ data') := by
  simp only [append, List.append_assoc]

theorem room_append_iff {p : Writer} {n : ℕ} :
    (p.append data).Room n ↔ p.Room (data.length + n) := by
  constructor
  · rintro ⟨herr, hfits⟩
    rw [append, List.length_append, Nat.add_assoc] at hfits
    exact ⟨herr, hfits⟩
  · rintro ⟨herr, hfits⟩
    refine ⟨herr, ?_⟩
    rwa [append, List.length_append, Nat.add_assoc]

theorem Room.mono {p : Writer} {m n : ℕ} (h : p.Room n) (hmn : m ≤ n) : p.Room m :=
  ⟨h.err_eq, (Nat.add_le_add_left hmn _).trans h.fits⟩

theorem addError_err_ne_none (p : Writer) (e : PackerError) : (p.addError e).err ≠ none := by
  rw [addError]
  split
  · exact nofun
  · exact fun h ↦ ‹¬_› (by rw [h]; rfl)

/-- The step appends `data` under the condition `ok`. -/
structure Writes (step : Writer → Writer) (ok : Prop) (data : Bytes) : Prop where
  sticky : ∀ {p : Writer}, (step p).err = none → p.err = none
  eq_append : ∀ {p : Writer}, ok → p.Room data.length → step p = p.append data
  of_err_eq : ∀ {p : Writer}, p.Room 0 → (step p).err = none → ok ∧ p.Room data.length

theorem Writes.nothing : Writes (fun p ↦ p) True [] where
  sticky h := h
  eq_append _ _ := (append_nil _).symm
  of_err_eq hroom _ := ⟨trivial, hroom⟩

theorem Writes.comp {data data' : Bytes}
    (hf : Writes f ok data) (hg : Writes g ok' data') :
    Writes (fun p ↦ g (f p)) (ok ∧ ok') (data ++ data') where
  sticky h := hf.sticky (hg.sticky h)
  eq_append := by
    rintro p ⟨hok, hok'⟩ hroom
    rw [List.length_append] at hroom
    rw [hf.eq_append hok (hroom.mono (Nat.le_add_right _ _)),
      hg.eq_append hok' (room_append_iff.mpr hroom), append_append]
  of_err_eq := by
    intro p hp h
    obtain ⟨hok, hroom⟩ := hf.of_err_eq hp (hg.sticky h)
    rw [hf.eq_append hok hroom] at h
    obtain ⟨hok', hroom'⟩ := hg.of_err_eq (room_append_iff.mpr hroom) h
    rw [room_append_iff] at hroom'
    exact ⟨⟨hok, hok'⟩, by rwa [List.length_append]⟩

theorem Writes.congr (hf : Writes f ok data)
    (h : ok ↔ ok') : Writes f ok' data := propext h ▸ hf

theorem Writes.of_eq (hf : Writes f ok data)
    (h : ∀ p, g p = f p) : Writes g ok data := funext h ▸ hf

theorem Writes.fail (hok : ¬ok) (e : PackerError) :
    Writes (·.addError e) ok data where
  sticky h := absurd h (addError_err_ne_none _ e)
  eq_append h := absurd h hok
  of_err_eq _ h := absurd h (addError_err_ne_none _ e)

/-- A step that fails unless a condition holds. -/
theorem Writes.guard (hf : Writes f ok data) (c : Prop) [Decidable c] (e : PackerError) :
    Writes (fun p ↦ if c then p.addError e else f p) (¬c ∧ ok) data := by
  by_cases hc : c
  · simp only [if_pos hc]
    exact Writes.fail (fun h ↦ h.1 hc) e
  · simp only [if_neg hc]
    exact hf.congr (and_iff_right hc).symm

/-- A step followed by another, which fails if the first one wrote nothing. -/
theorem Writes.nonempty {data data' : Bytes}
    (hf : Writes f ok data) (hg : Writes g ok' data') (e : PackerError) :
    Writes (fun p ↦ if (f p).err.isNone ∧ (f p).bytes.length = p.bytes.length
      then (f p).addError e else g (f p)) ((ok ∧ data ≠ []) ∧ ok') (data ++ data') := by
  have hcond {p : Writer} (hok : ok) (hroom : p.Room data.length) :
      ((f p).err.isNone ∧ (f p).bytes.length = p.bytes.length) ↔ data = [] := by
    rw [hf.eq_append hok hroom, append, hroom.err_eq, List.length_append]
    simp
  have hstep {p : Writer} (h : (if (f p).err.isNone ∧ (f p).bytes.length = p.bytes.length
      then (f p).addError e else g (f p)).err = none) :
      (g (f p)).err = none ∧ ¬((f p).err.isNone ∧ (f p).bytes.length = p.bytes.length) := by
    split_ifs at h with hc
    · exact absurd h (addError_err_ne_none _ _)
    · exact ⟨h, hc⟩
  constructor
  · intro p h
    exact (hf.comp hg).sticky (hstep h).1
  · rintro p ⟨⟨hok, hne⟩, hok'⟩ hroom
    have hroom₁ : p.Room data.length := hroom.mono (by simp)
    rw [if_neg (mt (hcond hok hroom₁).mp hne)]
    exact (hf.comp hg).eq_append ⟨hok, hok'⟩ hroom
  · intro p hp h
    obtain ⟨hg', hc⟩ := hstep h
    obtain ⟨⟨hok, hok'⟩, hroom⟩ := (hf.comp hg).of_err_eq hp hg'
    have hroom₁ : p.Room data.length := hroom.mono (by simp)
    exact ⟨⟨⟨hok, mt (hcond hok hroom₁).mpr hc⟩, hok'⟩, hroom⟩

/-- A step that is taken only if there was no error. -/
theorem Writes.unlessErr (hf : Writes f ok data) :
    Writes (fun p ↦ if p.err.isSome then p else f p) ok data where
  sticky {p} h := by
    split_ifs at h
    · exact h
    · exact hf.sticky h
  eq_append {p} hok hroom := by
    rw [hroom.err_eq, Option.isSome_none, if_neg Bool.false_ne_true, hf.eq_append hok hroom]
  of_err_eq {p} hp h := by
    rw [hp.err_eq, Option.isSome_none, if_neg Bool.false_ne_true] at h
    exact hf.of_err_eq hp h

theorem packFixedBytes_eq (p : Writer) (data : Bytes) :
    p.packFixedBytes data = if p.err.isNone ∧ p.bytes.length + data.length ≤ p.maxSize
      then p.append data else p.addError .insufficientLength := by
  rw [packFixedBytes, expandWrite, addError]
  rcases herr : p.err with - | e
  · by_cases hfits : p.bytes.length + data.length ≤ p.maxSize <;> simp [hfits, append]
  · simp

theorem packFixedBytes_writes (data : Bytes) : Writes (·.packFixedBytes data) True data := by
  have hroom {p : Writer} (h : (p.packFixedBytes data).err = none) : p.Room data.length := by
    rw [packFixedBytes_eq] at h
    split_ifs at h with hp
    · exact ⟨Option.isNone_iff_eq_none.mp hp.1, hp.2⟩
    · exact absurd h (addError_err_ne_none _ _)
  refine ⟨fun h ↦ (hroom h).err_eq, fun {p} _ h ↦ ?_, fun _ h ↦ ⟨trivial, hroom h⟩⟩
  exact (packFixedBytes_eq p data).trans
    (if_pos ⟨Option.isNone_iff_eq_none.mpr h.err_eq, h.fits⟩)

theorem packU16_writes (v : UInt16) : Writes (·.packU16 v) True (Wire.be 2 v.toNat) :=
  packFixedBytes_writes _

theorem packU32_writes (v : UInt32) : Writes (·.packU32 v) True (Wire.be 4 v.toNat) :=
  packFixedBytes_writes _

theorem packStr_writes (s : String) :
    Writes (·.packStr s) (s.toByteArray.data.toList.length ≤ maxStringLen) (rawStr s) := by
  have hpack := ((packU16_writes (UInt16.ofNat s.toByteArray.data.toList.length)).comp
    (packFixedBytes_writes s.toByteArray.data.toList)).guard
      (s.toByteArray.data.toList.length > maxStringLen) .invalidInput
  rwa [and_true, and_true, not_lt] at hpack

end Writer

/-! ### What is read

A step of a reader is described by the encoding of what it returns: it reads the value off its
encoding, whatever follows, and whatever it reads is found there encoded. -/

namespace Reader

variable {p : Reader} {bytes : Bytes}

/-- No error so far, and `bytes` are left. -/
structure At (p : Reader) (bytes : Bytes) : Prop where
  err_eq : p.err = none
  offset_le : p.offset ≤ p.src.length
  drop_eq : p.src.drop p.offset = bytes

def advance (p : Reader) (n : ℕ) : Reader := { p with offset := p.offset + n }

theorem advance_advance (p : Reader) (m n : ℕ) :
    (p.advance m).advance n = p.advance (m + n) := by
  simp only [advance, Nat.add_assoc]

theorem At.length (h : p.At bytes) :
    p.offset + bytes.length = p.src.length := by
  rw [← h.drop_eq, List.length_drop]
  have := h.offset_le
  omega

theorem At.advance {data bytes : Bytes} (h : p.At (data ++ bytes)) :
    (p.advance data.length).At bytes where
  err_eq := h.err_eq
  offset_le := by
    have := h.length
    rw [List.length_append] at this
    exact Nat.le_of_add_right_le (Nat.add_assoc _ _ _ ▸ this.le)
  drop_eq := by
    rw [Reader.advance, ← List.drop_drop, h.drop_eq, List.drop_left]

theorem addError_err_ne_none (p : Reader) (e : PackerError) : (p.addError e).err ≠ none := by
  rw [addError]
  split
  · exact nofun
  · exact fun h ↦ ‹¬_› (by rw [h]; rfl)

theorem At.if_err (h : p.At bytes) {β : Type} (b b' : β) :
    (if p.err.isSome then b else b') = b' := by
  rw [h.err_eq, Option.isSome_none, if_neg Bool.false_ne_true]

/-- What a step that stops at an error shows if it ends without one. -/
theorem of_if_err {β : Type} {b : β} {r : β × Reader}
    (h : (if p.err.isSome then (b, p) else r).2.err = none) : p.err = none ∧ r.2.err = none := by
  split_ifs at h with hp
  · exact absurd h (Option.isSome_iff_ne_none.mp hp)
  · exact ⟨Option.not_isSome_iff_eq_none.mp hp, h⟩

/-- The step reads values that `ok` holds of off their encoding, as long as fewer than `limit` bytes
are left. -/
structure Reads {α : Type} (limit : ℕ) (step : Reader → α × Reader) (ok : α → Prop)
    (raw : α → Bytes) : Prop where
  read_raw : ∀ {p : Reader} {a : α} {rest : Bytes}, ok a → p.At (raw a ++ rest) →
    step p = (a, p.advance (raw a).length)
  canonical : ∀ {p : Reader} {bytes : Bytes}, p.At bytes → bytes.length < limit →
    (step p).2.err = none → ∃ a rest, ok a ∧ bytes = raw a ++ rest

theorem Reads.result {α : Type} {limit : ℕ} {step : Reader → α × Reader} {ok : α → Prop}
    {raw : α → Bytes} (h : Reads limit step ok raw) (hp : p.At bytes)
    (hlimit : bytes.length < limit) {a : α} {p' : Reader} (hstep : step p = (a, p'))
    (herr : p'.err = none) :
    ∃ rest, ok a ∧ bytes = raw a ++ rest ∧ rest.length < limit ∧ p' = p.advance (raw a).length := by
  have herr' : (step p).2.err = none := by rwa [hstep]
  obtain ⟨a', rest, hok, rfl⟩ := h.canonical hp hlimit herr'
  obtain ⟨rfl, rfl⟩ := Prod.mk.inj (hstep.symm.trans (h.read_raw hok hp))
  have hrest : rest.length < limit :=
    Nat.lt_of_le_of_lt (List.length_append ▸ Nat.le_add_left _ _) hlimit
  exact ⟨rest, hok, rfl, hrest, rfl⟩

/-- What is read can be turned into something else and back. -/
theorem Reads.map {α β : Type} {limit : ℕ} {step : Reader → α × Reader} {ok : α → Prop}
    {raw : α → Bytes} (h : Reads limit step ok raw) {ok' : β → Prop} {f : α → β} {g : β → α}
    (hg : ∀ b, ok' b → ok (g b) ∧ f (g b) = b) (hf : ∀ a, ok a → ok' (f a) ∧ g (f a) = a) :
    Reads limit (fun p ↦ (f (step p).1, (step p).2)) ok' (fun b ↦ raw (g b)) where
  read_raw hok hp := by
    simp only [h.read_raw (hg _ hok).1 hp, (hg _ hok).2]
  canonical hp hlimit herr := by
    obtain ⟨a, rest, hok, hbytes⟩ := h.canonical hp hlimit herr
    refine ⟨f a, rest, (hf a hok).1, ?_⟩
    rwa [(hf a hok).2]

theorem read_eq (p : Reader) (n : ℕ) :
    p.read n = if p.err.isNone ∧ p.offset + n ≤ p.src.length
      then ((p.src.drop p.offset).take n, p.advance n)
      else ([], p.addError .insufficientLength) := by
  rw [read, checkSpace, addError]
  rcases herr : p.err with - | e
  · by_cases hle : p.offset + n ≤ p.src.length <;> simp [hle, advance]
  · simp

theorem read_sticky {n : ℕ} (h : (p.read n).2.err = none) : p.err = none := by
  rw [read_eq] at h
  split_ifs at h with hp
  · exact h
  · exact absurd h (addError_err_ne_none _ _)

theorem read_reads (limit n : ℕ) : Reads limit (·.read n) (·.length = n) (fun b ↦ b) where
  read_raw := by
    rintro p data rest rfl hp
    have hlength := hp.length
    rw [List.length_append] at hlength
    rw [read_eq, if_pos ⟨Option.isNone_iff_eq_none.mpr hp.err_eq, by omega⟩, hp.drop_eq,
      List.take_left]
  canonical := by
    intro p bytes hp _ herr
    have hlength := hp.length
    rw [read_eq] at herr
    split_ifs at herr with hle
    · have htake : (bytes.take n).length = n := List.length_take_of_le (by omega)
      exact ⟨bytes.take n, bytes.drop n, htake, (List.take_append_drop n bytes).symm⟩
    · exact absurd herr (addError_err_ne_none _ _)

theorem unpackByte_reads (limit : ℕ) :
    Reads limit unpackByte (fun _ ↦ True) (fun b ↦ [b]) := by
  refine (read_reads limit 1).map (f := fun b ↦ b.head?.getD 0) (fun b _ ↦ ⟨rfl, rfl⟩)
    fun bytes hbytes ↦ ⟨trivial, ?_⟩
  obtain ⟨b, rfl⟩ := List.length_eq_one_iff.mp hbytes
  rfl

theorem unpackUint_reads (limit n : ℕ) :
    Reads limit (·.unpackUint n) (· < 256 ^ n) (Wire.be n) := by
  refine (read_reads limit n).map (f := fun b ↦ if b.length = n then Wire.ofBe b else 0)
    (fun v hv ↦ ⟨Wire.length_be n v, ?_⟩) fun bytes hbytes ↦ ?_
  · rw [if_pos (Wire.length_be n v), Wire.ofBe_be, Nat.mod_eq_of_lt hv]
  · subst hbytes
    rw [if_pos rfl]
    exact ⟨Wire.ofBe_lt bytes, Wire.be_ofBe bytes⟩

theorem unpackU16_reads (limit : ℕ) :
    Reads limit unpackU16 (fun _ ↦ True) (fun v ↦ Wire.be 2 v.toNat) :=
  (unpackUint_reads limit 2).map (fun v _ ↦ ⟨v.toNat_lt, UInt16.ofNat_toNat⟩)
    fun _ hn ↦ ⟨trivial, UInt16.toNat_ofNat_of_lt' hn⟩

theorem unpackU32_reads (limit : ℕ) :
    Reads limit unpackU32 (fun _ ↦ True) (fun v ↦ Wire.be 4 v.toNat) :=
  (unpackUint_reads limit 4).map (fun v _ ↦ ⟨v.toNat_lt, UInt32.ofNat_toNat⟩)
    fun _ hn ↦ ⟨trivial, UInt32.toNat_ofNat_of_lt' hn⟩

theorem unpackU64_reads (limit : ℕ) :
    Reads limit unpackU64 (fun _ ↦ True) (fun v ↦ Wire.be 8 v.toNat) :=
  (unpackUint_reads limit 8).map (fun v _ ↦ ⟨v.toNat_lt, UInt64.ofNat_toNat⟩)
    fun _ hn ↦ ⟨trivial, UInt64.toNat_ofNat_of_lt' hn⟩

theorem unpackBool_reads (limit : ℕ) :
    Reads limit unpackBool (fun _ ↦ True) (fun b ↦ [b.toUInt8]) where
  read_raw := by
    rintro p (- | -) rest - hp <;>
      simp [unpackBool, (unpackByte_reads limit).read_raw trivial hp, Bool.toUInt8]
  canonical := by
    intro p bytes hp hlimit herr
    rcases hbyte : p.unpackByte with ⟨b, p'⟩
    rw [unpackBool, hbyte] at herr
    dsimp only at herr
    split_ifs at herr with h0 h1
    · obtain ⟨rest, -, hbytes, -⟩ := (unpackByte_reads limit).result hp hlimit hbyte herr
      exact ⟨false, rest, trivial, by rw [hbytes, h0]; rfl⟩
    · obtain ⟨rest, -, hbytes, -⟩ := (unpackByte_reads limit).result hp hlimit hbyte herr
      exact ⟨true, rest, trivial, by rw [hbytes, h1]; rfl⟩
    · exact absurd herr (addError_err_ne_none _ _)

theorem fromUTF8?_eq_some_iff {s : String} :
    String.fromUTF8? ⟨bytes.toArray⟩ = some s ↔ s.toByteArray.data.toList = bytes := by
  have hdata : s.toByteArray.data.toList = bytes ↔
      (⟨bytes.toArray⟩ : ByteArray) = s.toByteArray := by
    rw [ByteArray.ext_iff, ← Array.toList_inj, List.toList_toArray]
    exact eq_comm
  rw [hdata, String.fromUTF8?, Option.dite_none_right_eq_some]
  constructor
  · rintro ⟨_, hs⟩
    exact congrArg String.toByteArray (Option.some_inj.mp hs)
  · intro hs
    refine ⟨hs ▸ s.isValidUTF8, ?_⟩
    rw [Option.some_inj, ← String.toByteArray_inj]
    exact hs

theorem unpackStr_reads (limit : ℕ) :
    Reads limit unpackStr (·.toByteArray.data.toList.length ≤ Writer.maxStringLen) rawStr where
  read_raw := by
    intro p s rest hs hp
    have hlength : (UInt16.ofNat s.toByteArray.data.toList.length).toNat
        = s.toByteArray.data.toList.length := UInt16.toNat_ofNat_of_lt' (Nat.lt_succ_of_le hs)
    rw [rawStr, List.append_assoc] at hp
    have hread := (read_reads limit _).read_raw hlength.symm hp.advance
    rw [unpackStr, (unpackU16_reads limit).read_raw trivial hp]
    dsimp only
    rw [readStr, hread]
    dsimp only
    rw [hp.advance.advance.if_err, fromUTF8?_eq_some_iff.mpr rfl, advance_advance,
      ← List.length_append, rawStr]
  canonical := by
    intro p bytes hp hlimit herr
    rcases hlen : p.unpackU16 with ⟨len, p₁⟩
    rcases hraw : p₁.read len.toNat with ⟨raw, p₂⟩
    rw [unpackStr, hlen] at herr
    dsimp only at herr
    rw [readStr, hraw] at herr
    dsimp only at herr
    obtain ⟨hp₂, herr⟩ := of_if_err herr
    have hp₁ : p₁.err = none := read_sticky (by rwa [hraw])
    obtain ⟨rest, -, rfl, hlimit', rfl⟩ := (unpackU16_reads limit).result hp hlimit hlen hp₁
    obtain ⟨rest', hlength, rfl, -, rfl⟩ :=
      (read_reads limit len.toNat).result hp.advance hlimit' hraw hp₂
    rcases hs : String.fromUTF8? ⟨raw.toArray⟩ with - | s
    · rw [hs] at herr
      exact absurd herr (addError_err_ne_none _ _)
    · have hdata := fromUTF8?_eq_some_iff.mp hs
      refine ⟨s, rest', ?_, ?_⟩
      · rw [hdata, hlength]
        exact Nat.le_of_lt_succ len.toNat_lt
      · rw [rawStr, hdata, hlength, UInt16.ofNat_toNat, List.append_assoc]

end Reader

end Avalanche.Codec
