import Avalanche.Utils.Bits
import Avalanche.Warp.ValidatorSet

/-!
# Signatures by a quorum

A signature names its signers by a set of positions in the flattened set of validators. It is
checked that the set is written without padding and points to no position past the end, that the
signers have their part of the total weight, and that the aggregate of their keys verifies the
message. The BLS library is a parameter.
-/

open Std
open Except (orError require)

namespace Avalanche.Warp

open Platform (Bytes PublicKey)

variable {validators : List GetValidatorOutput}

inductive Error
  | wrongNetworkId
  | invalidBitSet
  | unknownValidator
  | insufficientWeight
  | parseSignature
  | invalidSignature
  | overflow
  | codec
deriving DecidableEq

/-- What is asked of the BLS library. -/
structure Bls (Signature : Type) where
  aggregate : List PublicKey → Option PublicKey
  signatureFromBytes : Bytes → Option Signature
  verify : PublicKey → Signature → Bytes → Bool

structure UnsignedMessage where
  networkId : UInt32
  sourceChainId : Id
  payload : Bytes
deriving DecidableEq

namespace UnsignedMessage

/-- The fields after the version. -/
def wire : Wire (UInt32 × Id × { l : Bytes // l.length < 2 ^ 32 }) :=
  Wire.u32.pair ((Wire.word 32).pair (Wire.list Wire.u8))

/-- A payload of `2 ^ 31` bytes or more cannot be written. -/
def marshal (msg : UnsignedMessage) : Except Error Bytes :=
  if h : msg.payload.length < 2 ^ 31 then
    .ok (Wire.u16.put 0 ++
      wire.put (msg.networkId, msg.sourceChainId, ⟨msg.payload, h.trans (by decide)⟩))
  else .error .codec

end UnsignedMessage

structure BitSetSignature where
  signers : Bytes
  signature : Bytes
deriving DecidableEq

variable {Signature : Type} {pk : PublicKey} {indices : Bits}

/-- Without keys there is nothing to aggregate. -/
def Bls.aggregatePublicKeys (bls : Bls Signature) (pks : List PublicKey) : Option PublicKey :=
  if pks = [] then none else bls.aggregate pks

/-- The members of a list at the positions of a set, in order. -/
def atBits (indices : Bits) (validators : List GetValidatorOutput) : List GetValidatorOutput :=
  (validators.zipIdx.filter fun p ↦ indices.contains p.2).map Prod.fst

def filterValidators (indices : Bits) (validators : List GetValidatorOutput) :
    Except Error (List GetValidatorOutput) :=
  if validators.length < indices.bitLen then .error .unknownValidator
  else .ok (atBits indices validators)

def sumWeight (validators : List GetValidatorOutput) : Except Error ℕ :=
  validators.foldlM (fun weight vdr ↦ orError (checkedAdd weight vdr.weight) .overflow) 0

def aggregatePublicKeys (bls : Bls Signature) (validators : List GetValidatorOutput) :
    Except Error PublicKey := do
  let pks ← validators.mapM fun vdr ↦ orError vdr.publicKey .invalidSignature
  orError (bls.aggregatePublicKeys pks) .invalidSignature

/-- A product as a `u128`. -/
def checkedMulU128 (a b : ℕ) : Option ℕ := if a * b < 2 ^ 128 then some (a * b) else none

def verifyWeight (sigWeight totalWeight quorumNum quorumDen : ℕ) : Except Error Unit := do
  let scaledTotal ← orError (checkedMulU128 totalWeight quorumNum) .overflow
  let scaledSig ← orError (checkedMulU128 sigWeight quorumDen) .overflow
  require (scaledTotal ≤ scaledSig) .insufficientWeight

def verifyBitSetSignature (bls : Bls Signature) (sig : BitSetSignature) (msg : UnsignedMessage)
    (networkId : UInt32) (validators : WarpSet) (quorumNum quorumDen : ℕ) : Except Error Unit := do
  require (msg.networkId = networkId) .wrongNetworkId
  let indices := Bits.fromBytes sig.signers
  -- the bytes have to be those that the set is written as
  require (indices.bytes = sig.signers) .invalidBitSet
  let signers ← filterValidators indices validators.validators
  let sigWeight ← sumWeight signers
  verifyWeight sigWeight validators.totalWeight quorumNum quorumDen
  let aggPk ← aggregatePublicKeys bls signers
  let aggSig ← orError (bls.signatureFromBytes sig.signature) .parseSignature
  let unsignedBytes ← msg.marshal
  require (bls.verify aggPk aggSig unsignedBytes = true) .invalidSignature

/-! ### The checks -/

theorem sumWeight_eq_ok {weight : ℕ}
    (h : sumWeight validators = .ok weight) : weight = weightOf validators := by
  have hfold : ∀ {start : ℕ}, validators.foldlM
      (fun weight vdr ↦ (orError (checkedAdd weight vdr.weight) Error.overflow)) start
        = .ok weight → weight = start + weightOf validators := by
    clear h
    induction validators with
    | nil =>
      intro start h
      cases h
      rfl
    | cons vdr validators ih =>
      intro start h
      rw [List.foldlM_cons, Except.bind_eq_ok_iff] at h
      obtain ⟨mid, hmid, h⟩ := h
      rw [Except.orError_eq_ok_iff, checkedAdd_eq_some_iff] at hmid
      rw [ih h, weightOf_cons, ← hmid.2, Nat.add_assoc]
  rw [hfold h, Nat.zero_add]

theorem verifyWeight_eq_ok {sigWeight totalWeight quorumNum quorumDen : ℕ}
    (h : verifyWeight sigWeight totalWeight quorumNum quorumDen = .ok ()) :
    quorumNum * totalWeight ≤ quorumDen * sigWeight := by
  obtain ⟨scaledTotal, htotal, h⟩ := Except.bind_eq_ok_iff.mp h
  obtain ⟨scaledSig, hsig, h⟩ := Except.bind_eq_ok_iff.mp h
  rw [Except.orError_eq_ok_iff, checkedMulU128, Option.ite_none_right_eq_some] at htotal hsig
  rw [Except.require_eq_ok_iff, ← Option.some_inj.mp htotal.2, ← Option.some_inj.mp hsig.2] at h
  rwa [Nat.mul_comm quorumNum, Nat.mul_comm quorumDen]

/-- The keys of validators that have one. -/
def keysOf (validators : List GetValidatorOutput) : List PublicKey :=
  validators.filterMap GetValidatorOutput.publicKey

theorem mapM_publicKey {pks : List PublicKey}
    (h : validators.mapM (fun vdr ↦ orError vdr.publicKey Error.invalidSignature) = .ok pks) :
    pks = keysOf validators := by
  induction validators generalizing pks with
  | nil =>
    cases h
    rfl
  | cons vdr validators ih =>
    rw [List.mapM_cons, Except.bind_eq_ok_iff] at h
    obtain ⟨pk, hpk, h⟩ := h
    rw [Except.bind_eq_ok_iff] at h
    obtain ⟨rest, hrest, h⟩ := h
    cases h
    rw [Except.orError_eq_ok_iff] at hpk
    rw [ih hrest, keysOf, keysOf, List.filterMap_cons, hpk]

theorem aggregatePublicKeys_eq_ok {bls : Bls Signature}
    (h : aggregatePublicKeys bls validators = .ok pk) :
    bls.aggregate (keysOf validators) = some pk := by
  obtain ⟨pks, hpks, h⟩ := Except.bind_eq_ok_iff.mp h
  rw [Except.orError_eq_ok_iff, mapM_publicKey hpks, Bls.aggregatePublicKeys,
    Option.ite_none_left_eq_some] at h
  exact h.2

/-! ### Positions and keys -/

theorem filterValidators_eq_ok_iff {validators signers : List GetValidatorOutput} :
    filterValidators indices validators = .ok signers ↔
      indices.bitLen ≤ validators.length ∧ atBits indices validators = signers := by
  rw [filterValidators]
  split
  case isTrue h =>
    refine iff_of_false nofun fun hle ↦ ?_
    exact absurd hle.1 (Nat.not_le.mpr h)
  case isFalse h =>
    rw [Except.ok.injEq]
    exact ⟨fun heq ↦ ⟨Nat.not_lt.mp h, heq⟩, fun heq ↦ heq.2⟩

theorem mem_atBits {vdr : GetValidatorOutput} :
    vdr ∈ atBits indices validators ↔ ∃ i, validators[i]? = some vdr ∧ indices.contains i := by
  simp [atBits, List.mem_zipIdx_iff_getElem?]

theorem atBits_sublist (indices : Bits) (validators : List GetValidatorOutput) :
    List.Sublist (atBits indices validators) validators := by
  have hsub : List.Sublist (atBits indices validators) (validators.zipIdx.map Prod.fst) :=
    List.filter_sublist.map Prod.fst
  rwa [List.zipIdx_map_fst] at hsub

theorem mem_keysOf :
    pk ∈ keysOf validators ↔ some pk ∈ validators.map GetValidatorOutput.publicKey := by
  rw [keysOf, List.mem_filterMap, List.mem_map]

theorem nodup_keysOf
    (h : (validators.map GetValidatorOutput.publicKey).Nodup) : (keysOf validators).Nodup := by
  have hkeys : keysOf validators
      = (validators.map GetValidatorOutput.publicKey).filterMap id := by
    rw [List.filterMap_map]
    rfl
  rw [hkeys]
  exact h.filterMap fun a a' pk ha ha' ↦ ha.trans ha'.symm

/-- A part of a list in which nothing shares a key is found by its keys. -/
theorem withKey_keysOf {part validators : List GetValidatorOutput}
    (hpart : List.Sublist part validators)
    (hnodup : (validators.map GetValidatorOutput.publicKey).Nodup)
    (hkeyed : ∀ vdr ∈ validators, vdr.publicKey.isSome) :
    withKey (keysOf part) validators = part := by
  induction hpart with
  | slnil => rfl
  | @cons part validators vdr hpart ih =>
    rw [List.map_cons, List.nodup_cons] at hnodup
    rw [List.forall_mem_cons] at hkeyed
    -- the key of `vdr` is none of the others
    have hnot : ¬∃ pk ∈ vdr.publicKey, pk ∈ keysOf part := by
      rintro ⟨pk, hpk, hmem⟩
      rw [mem_keysOf, ← Option.mem_def.mp hpk] at hmem
      exact hnodup.1 ((hpart.map _).subset hmem)
    rw [withKey, List.filter_cons, if_neg (by simpa using hnot)]
    exact ih hnodup.2 hkeyed.2
  | @cons_cons part validators vdr hpart ih =>
    rw [List.map_cons, List.nodup_cons] at hnodup
    rw [List.forall_mem_cons] at hkeyed
    obtain ⟨pk, hpk⟩ := Option.isSome_iff_exists.mp hkeyed.1
    have hkeys : keysOf (vdr :: part) = pk :: keysOf part := by
      rw [keysOf, List.filterMap_cons, hpk, ← keysOf]
    have hrest : withKey (pk :: keysOf part) validators = withKey (keysOf part) validators := by
      refine List.filter_congr fun v hv ↦ decide_eq_decide.mpr (exists_congr fun pk' ↦ ?_)
      refine and_congr_right fun hpk' ↦ ?_
      rw [List.mem_cons, or_iff_right]
      rintro rfl
      exact hnodup.1 (hpk.trans (Option.mem_def.mp hpk').symm ▸ List.mem_map_of_mem hv)
    rw [hkeys, withKey, List.filter_cons, if_pos (by simp [hpk]), ← withKey, hrest,
      ih hnodup.2 hkeyed.2]

/-! ### Encodings -/

/-- Bytes that are taken for a set of signers: written without padding and pointing to entries
only, those of the keys in the set. -/
def Encodes (validators : WarpSet) (signers : Bytes) (keys : List PublicKey) : Prop :=
  (Bits.fromBytes signers).bytes = signers ∧
    ∃ vdrs, filterValidators (Bits.fromBytes signers) validators.validators = .ok vdrs ∧
      ∀ pk, pk ∈ keysOf vdrs ↔ pk ∈ keys

/-- Positions are read off the keys of the signers. -/
theorem contains_iff_of_mem_keys
    (hnodup : (validators.map GetValidatorOutput.publicKey).Nodup) {i : ℕ}
    {vdr : GetValidatorOutput} (hvdr : validators[i]? = some vdr)
    (hpk : vdr.publicKey = some pk) :
    indices.contains i ↔ pk ∈ keysOf (atBits indices validators) := by
  rw [mem_keysOf, List.mem_map]
  constructor
  · exact fun hi ↦ ⟨vdr, mem_atBits.mpr ⟨i, hvdr, hi⟩, hpk⟩
  · rintro ⟨vdr', hvdr', hpk'⟩
    obtain ⟨j, hj, hcontains⟩ := mem_atBits.mp hvdr'
    have hi : (validators.map GetValidatorOutput.publicKey)[i]? = some (some pk) := by
      rw [List.getElem?_map, hvdr, Option.map_some, hpk]
    have hj : (validators.map GetValidatorOutput.publicKey)[j]? = some (some pk) := by
      rw [List.getElem?_map, hj, Option.map_some, hpk']
    obtain ⟨hlt, -⟩ := List.getElem?_eq_some_iff.mp hi
    rwa [(List.getElem?_inj hlt hnodup).mp (hi.trans hj.symm)]

namespace IsFlat

variable {nodes : List GetValidatorOutput} {warpSet : WarpSet}

/-- A set of signers has one encoding at most. -/
theorem encoding_unique (h : IsFlat nodes warpSet) {signers signers' : Bytes}
    {keys : List PublicKey} (henc : Encodes warpSet signers keys)
    (henc' : Encodes warpSet signers' keys) : signers = signers' := by
  obtain ⟨hbytes, vdrs, hfilter, hkeys⟩ := henc
  obtain ⟨hbytes', vdrs', hfilter', hkeys'⟩ := henc'
  obtain ⟨hle, rfl⟩ := filterValidators_eq_ok_iff.mp hfilter
  obtain ⟨hle', rfl⟩ := filterValidators_eq_ok_iff.mp hfilter'
  have hbits : Bits.fromBytes signers = Bits.fromBytes signers' := by
    refine Bits.ext_of_bitLen_le hle hle' fun i hi ↦ Bool.eq_iff_iff.mpr ?_
    have hget := List.getElem?_eq_getElem hi
    obtain ⟨pk, hpk⟩ := Option.isSome_iff_exists.mp (h.keyed _ (List.getElem_mem hi))
    rw [contains_iff_of_mem_keys h.nodup hget hpk, contains_iff_of_mem_keys h.nodup hget hpk,
      hkeys, hkeys']
  rw [← hbytes, ← hbytes', hbits]

/-- Every set of keys of nodes has an encoding. -/
theorem exists_encoding (h : IsFlat nodes warpSet) {keys : List PublicKey}
    (hkeys : ∀ pk ∈ keys, ∃ node ∈ nodes, node.publicKey = some pk) :
    ∃ signers, Encodes warpSet signers keys := by
  obtain ⟨bits, hle, hbits⟩ := Bits.exists_contains_eq
    (fun i ↦ decide (∃ vdr ∈ warpSet.validators[i]?, ∃ pk ∈ vdr.publicKey, pk ∈ keys))
    warpSet.validators.length
  refine ⟨bits.bytes, by rw [Bits.fromBytes_bytes], atBits bits warpSet.validators, ?_, ?_⟩
  · rw [Bits.fromBytes_bytes, filterValidators_eq_ok_iff]
    exact ⟨hle, rfl⟩
  · intro pk
    constructor
    · intro hpk
      rw [mem_keysOf, List.mem_map] at hpk
      obtain ⟨vdr, hvdr, hpk⟩ := hpk
      obtain ⟨i, hget, hi⟩ := mem_atBits.mp hvdr
      obtain ⟨hlt, -⟩ := List.getElem?_eq_some_iff.mp hget
      rw [hbits i hlt, decide_eq_true_iff] at hi
      obtain ⟨vdr', hget', pk', hpk', hmem⟩ := hi
      cases hget.symm.trans hget'
      cases hpk.symm.trans hpk'
      exact hmem
    · intro hmem
      obtain ⟨node, hnode, hpk⟩ := hkeys pk hmem
      obtain ⟨vdr, hvdr, hvpk⟩ := List.mem_map.mp (h.complete node hnode pk hpk)
      obtain ⟨i, hlt, hget⟩ := List.getElem_of_mem hvdr
      have hget : warpSet.validators[i]? = some vdr := List.getElem?_eq_some_iff.mpr ⟨hlt, hget⟩
      rw [← contains_iff_of_mem_keys h.nodup hget hvpk, hbits i hlt, decide_eq_true_iff]
      exact ⟨vdr, hget, pk, hvpk, hmem⟩

end IsFlat

/-! ### Soundness -/

/-- An aggregate verifies a message only if every key in it has signed the message. -/
def Bls.Unforgeable (bls : Bls Signature) (Signed : PublicKey → Bytes → Prop) : Prop :=
  ∀ pks agg sig msg, bls.aggregate pks = some agg → bls.verify agg sig msg = true →
    ∀ pk ∈ pks, Signed pk msg

/-- **A signature that is accepted is one by a quorum.** The nodes whose keys are among those of the
signers have their part of the weight of all nodes, with or without keys; the weight that was
compared is theirs, each node counted once; they have signed, if signatures cannot be forged. Every
set of signers has exactly one encoding that passes, and the one of the signature is that of its
signers. -/
theorem verifyBitSetSignature_sound (bls : Bls Signature)
    {set : ExtTreeMap NodeId GetValidatorOutput} {warpSet : WarpSet}
    (hset : flattenValidatorSet set = .ok warpSet) {sig : BitSetSignature} {msg : UnsignedMessage}
    {networkId : UInt32} {quorumNum quorumDen : ℕ}
    (h : verifyBitSetSignature bls sig msg networkId warpSet quorumNum quorumDen = .ok ()) :
    ∃ keys : List PublicKey, Encodes warpSet sig.signers keys ∧
      quorumNum * weightOf set.values ≤ quorumDen * weightOf (withKey keys set.values) ∧
      (∃ signers, filterValidators (.fromBytes sig.signers) warpSet.validators = .ok signers ∧
        keysOf signers = keys ∧ keys.Nodup ∧
        sumWeight signers = .ok (weightOf (withKey keys set.values))) ∧
      (∀ Signed, bls.Unforgeable Signed → ∃ bytes, msg.marshal = .ok bytes ∧
        ∀ node ∈ withKey keys set.values, ∃ pk ∈ node.publicKey, Signed pk bytes) ∧
      ∀ keys' : List PublicKey,
        (∀ pk ∈ keys', ∃ node ∈ set.values, node.publicKey = some pk) →
          ∃! signers, Encodes warpSet signers keys' := by
  have hflat := isFlat_of_flattenValidatorSet hset
  obtain ⟨-, h⟩ := Except.bind_unit_eq_ok_iff.mp h
  obtain ⟨hbytes, h⟩ := Except.bind_unit_eq_ok_iff.mp h
  rw [Except.require_eq_ok_iff] at hbytes
  obtain ⟨signers, hsigners, h⟩ := Except.bind_eq_ok_iff.mp h
  obtain ⟨sigWeight, hweight, h⟩ := Except.bind_eq_ok_iff.mp h
  obtain ⟨hquorum, h⟩ := Except.bind_unit_eq_ok_iff.mp h
  obtain ⟨aggPk, hagg, h⟩ := Except.bind_eq_ok_iff.mp h
  obtain ⟨aggSig, -, h⟩ := Except.bind_eq_ok_iff.mp h
  obtain ⟨bytes, hmarshal, h⟩ := Except.bind_eq_ok_iff.mp h
  rw [Except.require_eq_ok_iff] at h
  have hpart : List.Sublist signers warpSet.validators := by
    obtain ⟨-, rfl⟩ := filterValidators_eq_ok_iff.mp hsigners
    exact atBits_sublist _ _
  have hsum : weightOf signers = weightOf (withKey (keysOf signers) set.values) := by
    rw [← hflat.sum, withKey_keysOf hpart hflat.nodup hflat.keyed]
  refine ⟨keysOf signers, ⟨hbytes, signers, hsigners, fun _ ↦ Iff.rfl⟩, ?_,
    ⟨signers, hsigners, rfl, ?_, ?_⟩, fun Signed hunf ↦ ⟨bytes, hmarshal, ?_⟩,
    fun keys' hkeys' ↦ ?_⟩
  · have hle := verifyWeight_eq_ok hquorum
    rwa [sumWeight_eq_ok hweight, hsum, hflat.total] at hle
  · exact nodup_keysOf (hflat.nodup.sublist (hpart.map GetValidatorOutput.publicKey))
  · rw [hweight, sumWeight_eq_ok hweight, hsum]
  · intro node hnode
    obtain ⟨-, hnode⟩ := List.mem_filter.mp hnode
    obtain ⟨pk, hpk, hmem⟩ := of_decide_eq_true hnode
    exact ⟨pk, hpk, hunf _ _ _ _ (aggregatePublicKeys_eq_ok hagg) h pk hmem⟩
  · obtain ⟨encoding, henc⟩ := hflat.exists_encoding hkeys'
    exact ⟨encoding, henc, fun _ henc' ↦ hflat.encoding_unique henc' henc⟩

/-- Two nodes share the key that signs, and a third one has none. A signature is of 96 bytes and
starts with the key. -/
theorem verifyBitSetSignature_sound_example :
    let key : PublicKey := ⟨[1]⟩
    let set : ExtTreeMap NodeId GetValidatorOutput :=
      ((ExtTreeMap.empty.insert 1#160 ⟨1#160, some key, 40⟩).insert 2#160 ⟨2#160, some key, 30⟩)
        |>.insert 3#160 ⟨3#160, none, 30⟩
    let bls : Bls Bytes := ⟨List.head?, fun bytes ↦ if bytes.length = 96 then some bytes else none,
      fun key signature _ ↦ key.serialize.isPrefixOf signature⟩
    let sig : BitSetSignature := ⟨[1], List.replicate 96 1⟩
    ∃ warpSet, flattenValidatorSet set = .ok warpSet ∧
      verifyBitSetSignature bls sig ⟨1, 0#256, []⟩ 1 warpSet 67 100 = .ok () ∧
      ∃ keys, Encodes warpSet [1] keys ∧
        67 * weightOf set.values ≤ 100 * weightOf (withKey keys set.values) := by
  intro key set bls sig
  have hset : flattenValidatorSet set = .ok ⟨[⟨0#160, some key, 70⟩], 100⟩ := by decide +kernel
  have hverify : verifyBitSetSignature bls sig ⟨1, 0#256, []⟩ 1
      ⟨[⟨0#160, some key, 70⟩], 100⟩ 67 100 = .ok () := by decide +kernel
  obtain ⟨keys, henc, hquorum, -⟩ := verifyBitSetSignature_sound bls hset hverify
  exact ⟨_, hset, hverify, keys, henc, hquorum⟩

end Avalanche.Warp
