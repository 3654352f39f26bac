import Avalanche.Evm.AtomicTx
import Avalanche.Library.Handler

/-!
# Shared memory and the atomic trie

Two chains share a memory with two halves, one for each direction. A chain takes elements out of the
half it receives in and puts elements into the half it sends in. Taking an element that is not there
leaves a mark, with which a later put of the element cancels.

All requests of a block are checked against the memory as it was before the block and then written
in one batch. The atomic trie, a database of its own, remembers the requests of every block under
its height and the chain they were for.
-/

namespace Avalanche.Evm

open Std
open Except (require orError)

variable {txs : List Tx} {output : ExtTreeMap Id Requests}

/-- An element, or the mark of one that was removed before it came. -/
structure DbElement where
  present : Bool
  value : Bytes
  traits : List Address
deriving DecidableEq

instance transOrdElementKey : TransOrd (BitVec 512) := inferInstance

/-- A half of the memory shared with each chain: the chain, then the key. -/
abbrev Half := ExtTreeMap (BitVec 512) DbElement

def elementKey (peer key : Id) : BitVec 512 := peer ++ key

structure SharedMemory where
  inbound : Half
  outbound : Half
deriving DecidableEq

namespace SharedMemory

/-- The value of an element another chain has sent. -/
def value (m : SharedMemory) (peer key : Id) : Option Bytes :=
  (m.inbound[elementKey peer key]?).bind fun e ↦ if e.present then some e.value else none

def get (m : SharedMemory) (peer : Id) (keys : List Id) : Except Error (List Bytes) :=
  orError (keys.mapM (m.value peer)) .missingUtxos

/-- `remove_value`: `m` is the memory before the batch, `half` what the batch has made of it. -/
def removeValue (m : SharedMemory) (peer : Id) (half : Half) (key : Id) : Option Half :=
  match m.inbound[elementKey peer key]? with
  | none => some (half.insert (elementKey peer key) ⟨false, [], []⟩)
  | some existing => if existing.present then some (half.erase (elementKey peer key)) else none

/-- `set_value`, likewise. -/
def setValue (m : SharedMemory) (peer : Id) (half : Half) (e : Element) : Option Half :=
  match m.outbound[elementKey peer e.key]? with
  | none => some (half.insert (elementKey peer e.key) ⟨true, e.value, e.traits⟩)
  | some existing => if existing.present then none else some (half.erase (elementKey peer e.key))

/-- The requests to one chain. -/
def applyPeer (m acc : SharedMemory) (p : Id × Requests) : Option SharedMemory := do
  let inbound ← p.2.remove.foldlM (m.removeValue p.1) acc.inbound
  let outbound ← p.2.put.foldlM (m.setValue p.1) acc.outbound
  some ⟨inbound, outbound⟩

def apply (m : SharedMemory) (requests : ExtTreeMap Id Requests) : Option SharedMemory :=
  requests.toList.foldlM m.applyPeer m

end SharedMemory

/-- The number of bytes `serialize_requests` writes. -/
def Requests.size (r : Requests) : ℕ :=
  2 + 4 + (4 + 32) * r.remove.length + 4 +
    (r.put.map fun e ↦ 4 + 32 + (4 + e.value.length) + 4 + (4 + 20) * e.traits.length).sum

/-- `trie_key`. -/
def trieKey (height : ℕ) (blockchainId : Id) : BitVec 320 := BitVec.ofNat 64 height ++ blockchainId

abbrev AtomicTrie := ExtTreeMap (BitVec 320) Requests

/-- The encoding of requests is told apart from that of others, so they stand for it; one that is
too large is refused. -/
def AtomicTrie.opsForBlock (height : ℕ) (atomicOps : ExtTreeMap Id Requests) :
    Option (List (BitVec 320 × Requests)) :=
  atomicOps.toList.mapM fun p ↦
    if p.2.size > Platform.Codec.maxSize then none else some (trieKey height p.1, p.2)

def AtomicTrie.commit (t : AtomicTrie) (ops : List (BitVec 320 × Requests)) : AtomicTrie :=
  ops.foldl TreeMap.put t

structure AtomicBackend where
  trie : AtomicTrie
  sharedMemory : SharedMemory
deriving DecidableEq

variable (sha256 : Bytes → Id)

/-- A round of `merge_atomic_ops`. -/
def mergeTx (output : ExtTreeMap Id Requests) (tx : Tx) :
    Except Error (ExtTreeMap Id Requests) := do
  let (chain, requests) ← orError (tx.unsigned.atomicOps sha256 tx.id) .conflictingAtomicInputs
  let entry := output.getD chain {}
  .ok (output.insert chain ⟨entry.remove ++ requests.remove, entry.put ++ requests.put⟩)

def mergeAtomicOps (txs : List Tx) : Except Error (ExtTreeMap Id Requests) :=
  txs.foldlM (mergeTx sha256) ∅

/-- The trie is committed before shared memory is written. -/
def AtomicBackend.accept (height : ℕ) (txs : List Tx) : Handler Error AtomicBackend Unit := do
  let atomicOps ← liftM (mergeAtomicOps sha256 txs)
  let ops ← liftM (orError (AtomicTrie.opsForBlock height atomicOps) Error.conflictingAtomicInputs)
  modify fun b ↦ { b with trie := b.trie.commit ops }
  if atomicOps ≠ ∅ then
    let b ← get
    let memory ← liftM (orError (b.sharedMemory.apply atomicOps) Error.conflictingAtomicInputs)
    modify fun b ↦ { b with sharedMemory := memory }

/-- A block without atomic txs leaves the backend as it is. -/
theorem AtomicBackend.accept_nil (height : ℕ) (b : AtomicBackend) :
    (accept sha256 height []).outcome b = .ok () ∧ (accept sha256 height []).exec b = b := by
  have hempty : (∅ : ExtTreeMap Id Requests).toList = [] := ExtTreeMap.toList_eq_nil_iff.mpr rfl
  simp [accept, Handler.outcome_bind, Handler.exec_bind, mergeAtomicOps, AtomicTrie.opsForBlock,
    AtomicTrie.commit, orError, hempty]

/-- `MAINNET_BONUS_BLOCKS`: heights and block ids of a repair of the main network. -/
def mainnetBonusBlocks : List (ℕ × Id) :=
  [
    (102972, 0x315b6b928db7cf1c10b9b47c23cdbf2de6c2145504b374a0a414cbf78d20bb1e),
    (103105, 0x17f3d403fbf2ef90535caf2616a34e4df964033fb021a561044813822f683284),
    (103143, 0x15f185977ce8cf7360e9328270b4c6423f4378dd13b22fed26a90f9351c82128),
    (103183, 0xad72bfbeeb9af7e04400056f52be0c69711e26305bf8ebf78cd7b3e9fcdb40cb),
    (103197, 0x6b3bcdef31beb66fb3dce73dea6dde744030a50ed1221af00e4421317d20cb44),
    (103203, 0xd56dfdafe753786e356d005cb7c69233d08fcb01f88419aa63c333a656af8a5e),
    (103208, 0x5601f43df502887b06455cbcebe32a1b905485a878550accf9b6d9dd3a1e1cf2),
    (103209, 0x1bf5323be5dff32977f6e647f587b24eb00adf1fc0c363f85131cefa66144bb9),
    (103259, 0x5d1b5b0f34e7bdd598e58d0f73962de47bdd8ab577280066983432d9a48d1a8c),
    (103261, 0xa0caa524d2eb6e1d99e2973f72a7d103c1302ceb07c7c328b968b8130e9b2ebc),
    (103266, 0xd9f15811cc2e2648e48805d1b8667b163ff8db7371db6185443598ebdaebfb03),
    (103287, 0xb85388d99242fbb726901783ccd7edd09cb9837a86a57896c1e46ce155836fe9),
    (103339, 0xef6c40af257dea853fa3a4be375ed6be726012be0ca06b6edcb0a7d64072ac25),
    (103346, 0xbe159457d00a29be9752658d6f7d6923d578171f1003561879bad3e04d2d81e8),
    (103350, 0xa3ad1656d0f8d21ed19c8e2c9a1e99ebeb19f30d379186a3cc964b7befbd2e79),
    (103358, 0xf7f41a5488db129af60e4b6cc5074c7570249174e7333756a5a139b69ade7e64),
    (103437, 0x857f80a3b35887366966090abbaf308bac1e690cde4f50b8a86f63a5abed29c6),
    (103472, 0xea76bb64b8015aa89603e05c1fcf3b37a18b14d4b5953a6c10c4ad94624ac70c),
    (103478, 0x0b73db15ad151cf6eb4356f53150c00869548695e81d52c62307de878a927893),
    (103493, 0x7358f1dc72f7a46294ac9fa3370e6361532d2ba064a7ab29eec902f12c833c6d),
    (103514, 0x03b1d524ce3e12ec61225ce432d85b0d66f85ffef751b6dcd1c0fc1000515616),
    (103536, 0x32a32458d8d40f922a25fa683cfeb7fb5271deb6f9f973a8230d64832f6b8b2e),
    (103545, 0x875dafbe1caf05496bc02389f13605895e4814ada530bff642bbb09a05bc130a),
    (103547, 0x6bc34998b56b47fd12f18bb5ccb8b923ab985999d3ba68949dee72301c4aa633),
    (103554, 0x13fce5dfc44e6acf34d5aa52241d83d44451b0e4a536cc2eb5712259fc79ac3f),
    (103555, 0x2f10ed04ef2ab06283494ca0ab1186761fbf43d8fc2a2018e1d37fa7af7de28e),
    (103559, 0x51990fed393ce90c5c44c3627b596f849b58f4549c3875a129f37eaef7d30664),
    (103561, 0xcba644c900aa9f575a88d46a2330aee530431ae2cc5c107b96c30f9cce8d8f98),
    (103563, 0x9957f50cf6a6dc652107c32aef990516fa2870265984d81b476314b74737338d),
    (103564, 0x38b0433730c0ab0eccc20948b8c5fd688ccc34b669c2b34157c9bac8b6f37533),
    (103569, 0x846666b4289b3947c5b1469d33cb5aa3919f04300425a4dbfb5b542b635d8d3c),
    (103570, 0x730fd9f8b9d6ab96459336a05b0b07d83266045bcfa5cbae5a5e014916be8150),
    (103575, 0x8182cfadfb063ee773294514acb792a8b297e919910fd0114015bd14ece6dc69),
    (103577, 0x76c7a807fb6bd7cb13632e8c8b83f6050ecfffbbb917718eb013dc58a462046b),
    (103578, 0x364d7150357d5398f678de6cb7a7a344de47133af2696fadf8928877086c2a10),
    (103582, 0x0e5611e761efba2f78c3096a49f1408bcf6a6ef3443121403269fa4625985a9b),
    (103587, 0x99a31d18f42ed68814056bf249f044f324e70280311f755a20098331cc502dd0),
    (103590, 0xdd4e7627b243f66703e26d6d6b40d7a34f7eeaa19602f9b42994d6130a29d216),
    (103591, 0xd43d709f772ae746e6067c0a4c3c73fa7af0a5f4b882a2ef7cfc56bc4b7007ce),
    (103594, 0x09e5d53ee7dc1e6e2653daec932254c908935e8069a688e26c4ec0e77967d4b8),
    (103597, 0xaa9bf89ee1705328c25fccc492e4fcfd2943928ac0bc5236d3fd6543f1299b9b),
    (103598, 0xe0d728cfea4f37b810ff8fc6f7a77260525f324106f8cc9dace6a629c4157dd8),
    (103603, 0xfc26d2246709cfa7b49286a0ceaeee118777cde644334e19e1b1f3ac0ae30c94),
    (103604, 0x4d74ed4219b0d5371edbeeb7adcbeca75cb3401dc7f0bcdff040f9305b577c6f),
    (103607, 0x3380c7f7d49b07bf40eb7b2c79c3eb63e9a7a96c38d2e09772c0242e2fbed62f),
    (103612, 0xee34a73dc6b0ba7827ecae047c66b5b39c33bdd1e83517fb89a35bfbe81f0883),
    (103614, 0xcabbbe16e419c7545a18c52bc5bc90b8524337aa13b31b6ad958b34ec4458617),
    (103617, 0x4cadf984e41223df21cb74c66af1454a953c3a94d58c4ec36a3fcc4dc416aa7d),
    (103618, 0x576291c0a67d480c228a20d3546219444f81f57b45b796b49012eaec7eb8a82d),
    (103621, 0x31f2c95eb9fbc0571d0408c9c2f40636934ef20d77a8731537a1ab14cac585f0),
    (103623, 0xf357c1d275f0275a48081546c30d58a6b261169843f1b555a8c666a24dabfc75),
    (103624, 0xaba9b9c19d5e50f0ea272d541bf319d66d8312e7c2de183a5c6c7cef25b7c6f9),
    (103627, 0x748f125a9a32c54159b042358ade94d3c2d82517a8ddb91054199a58a0ad87c7),
    (103628, 0x52e292bffa48c5a4456dc92374c25f50d95d9f0a188684b1dbaccc4b1828c344),
    (103629, 0x44eecf7e5365b28507c51b7689077cc40b9a7f106a58fb78f318a2b5c65b4e87),
    (103630, 0xd6c5572abfdd31ef5790c5bd2dde65c6bcd89aa749de4148e15b238b834fbd2e),
    (103633, 0xb9896451dd4ac6f10f08784e6295b2c680c1e806cbb9e8e412473bccc1ea5152)
  ]

def isBonusBlock (height : ℕ) (id : Id) : Bool :=
  (mainnetBonusBlocks.find? (·.1 = height)).any (·.2 = id)

/-- Every UTXO an import names is there, unless the block is of the repair. -/
def verifyUtxosPresent (m : SharedMemory) (txs : List Tx) (height : ℕ) (blockId : Id) :
    Except Error Unit :=
  if isBonusBlock height blockId then .ok ()
  else txs.forM fun tx ↦ do
    let (chainId, requests) ← orError (tx.unsigned.atomicOps sha256 tx.id) .conflictingAtomicInputs
    let _ ← m.get chainId requests.remove

/-! ### What a batch takes out -/

/-- Two words are told apart when they are written one after the other. -/
theorem append_inj {v w : ℕ} {a a' : BitVec v} {b b' : BitVec w} :
    a ++ b = a' ++ b' ↔ a = a' ∧ b = b' := by
  refine ⟨fun h ↦ ⟨?_, ?_⟩, fun h ↦ by rw [h.1, h.2]⟩
  · rw [← BitVec.extractLsb'_append_eq_left (a := a) (b := b), h,
      BitVec.extractLsb'_append_eq_left]
  · rw [← BitVec.extractLsb'_append_eq_right (a := a) (b := b), h,
      BitVec.extractLsb'_append_eq_right]

namespace Half

/-- The element is there, not only the mark of one. -/
def Present (half : Half) (key : BitVec 512) : Prop := (half[key]?).any (·.present) = true

theorem present_insert {half : Half} {key k : BitVec 512} {e : DbElement} :
    Present (half.insert key e) k ↔ if key = k then e.present = true else half.Present k := by
  rw [Present, TreeMap.getElem?_insert_eq]
  split <;> simp [Present]

theorem present_erase {half : Half} {key k : BitVec 512} :
    Present (half.erase key) k ↔ key ≠ k ∧ half.Present k := by
  rw [Present, TreeMap.getElem?_erase_eq]
  split <;> simp [Present, *]

end Half

namespace SharedMemory

variable {m : SharedMemory} {peer : Id}

theorem isSome_value_iff {peer key : Id} :
    (m.value peer key).isSome ↔ m.inbound.Present (elementKey peer key) := by
  rw [value, Half.Present]
  rcases m.inbound[elementKey peer key]? with - | e
  · simp
  · by_cases h : e.present <;> simp [h]

theorem present_of_get {keys : List Id} {values : List Bytes}
    (h : m.get peer keys = .ok values) {key : Id} (hkey : key ∈ keys) :
    m.inbound.Present (elementKey peer key) := by
  rw [get, Except.orError_eq_ok_iff, Option.mapM_eq_some_iff] at h
  have hmem : m.value peer key ∈ values.map some := h ▸ List.mem_map_of_mem hkey
  obtain ⟨v, -, hv⟩ := List.mem_map.mp hmem
  rw [← isSome_value_iff, ← hv]
  rfl

theorem present_removeValue {half half' : Half} {key : Id}
    (h : m.removeValue peer half key = some half') (k : BitVec 512) :
    half'.Present k ↔ elementKey peer key ≠ k ∧ half.Present k := by
  rw [removeValue] at h
  split at h
  · obtain rfl := Option.some.inj h
    rw [Half.present_insert]
    split <;> simp [*]
  · split at h
    · obtain rfl := Option.some.inj h
      exact Half.present_erase
    · cases h

theorem present_foldlM_removeValue {keys : List Id}
    {half half' : Half} (h : keys.foldlM (m.removeValue peer) half = some half') (k : BitVec 512) :
    half'.Present k ↔ (∀ key ∈ keys, elementKey peer key ≠ k) ∧ half.Present k := by
  induction keys generalizing half with
  | nil =>
    obtain rfl : half = half' := Option.some.inj h
    simp
  | cons key keys ih =>
    rw [List.foldlM_cons, Option.bind_eq_bind, Option.bind_eq_some_iff] at h
    obtain ⟨mid, hmid, h⟩ := h
    rw [ih h, present_removeValue hmid, List.forall_mem_cons]
    tauto

theorem present_foldlM_applyPeer {m acc m' : SharedMemory} {l : List (Id × Requests)}
    (h : l.foldlM m.applyPeer acc = some m') (k : BitVec 512) :
    m'.inbound.Present k ↔ (∀ p ∈ l, ∀ key ∈ p.2.remove, elementKey p.1 key ≠ k) ∧
      acc.inbound.Present k := by
  induction l generalizing acc with
  | nil =>
    obtain rfl : acc = m' := Option.some.inj h
    simp
  | cons p l ih =>
    rw [List.foldlM_cons, Option.bind_eq_bind, Option.bind_eq_some_iff] at h
    obtain ⟨mid, hmid, h⟩ := h
    simp only [applyPeer, Option.bind_eq_bind, Option.bind_eq_some_iff] at hmid
    obtain ⟨inbound, hin, outbound, -, hmid⟩ := hmid
    obtain rfl := Option.some.inj hmid
    rw [ih h, present_foldlM_removeValue hin, List.forall_mem_cons]
    tauto

/-- A batch takes out what it asks to remove, and puts nothing into the half it receives in. -/
theorem present_apply {m m' : SharedMemory} {requests : ExtTreeMap Id Requests}
    (h : m.apply requests = some m') (k : BitVec 512) :
    m'.inbound.Present k ↔
      (∀ p ∈ requests.toList, ∀ key ∈ p.2.remove, elementKey p.1 key ≠ k) ∧
        m.inbound.Present k :=
  present_foldlM_applyPeer h k

@[simp] theorem apply_empty (m : SharedMemory) : m.apply ∅ = some m := by
  have hempty : (∅ : ExtTreeMap Id Requests).toList = [] := ExtTreeMap.toList_eq_nil_iff.mpr rfl
  rfl

end SharedMemory

/-! ### What the txs of a block ask for -/

/-- The requests of all txs that deal with a chain. -/
def requestsTo (chain : Id) (txs : List Tx) : Requests :=
  let asked := txs.filterMap fun tx ↦ (tx.unsigned.atomicOps sha256 tx.id).filter (·.1 = chain)
  ⟨asked.flatMap (·.2.remove), asked.flatMap (·.2.put)⟩

variable {sha256}

theorem getD_of_foldlM_mergeTx {acc output : ExtTreeMap Id Requests}
    (h : txs.foldlM (mergeTx sha256) acc = .ok output) (chain : Id) :
    output.getD chain {} = ⟨(acc.getD chain {}).remove ++ (requestsTo sha256 chain txs).remove,
      (acc.getD chain {}).put ++ (requestsTo sha256 chain txs).put⟩ := by
  induction txs generalizing acc with
  | nil =>
    obtain rfl : acc = output := Except.ok.inj h
    simp [requestsTo]
  | cons tx txs ih =>
    rw [List.foldlM_cons, Except.bind_eq_ok_iff] at h
    obtain ⟨mid, hmid, h⟩ := h
    rw [mergeTx, Except.bind_eq_ok_iff] at hmid
    obtain ⟨⟨c, requests⟩, hops, hmid⟩ := hmid
    rw [Except.orError_eq_ok_iff] at hops
    obtain rfl := Except.ok.inj hmid
    rw [ih h, ExtTreeMap.getD_insert]
    by_cases hc : c = chain
    · subst hc
      simp [requestsTo, hops, Option.filter]
    · simp [requestsTo, hops, hc, Option.filter]

theorem getD_of_mergeAtomicOps (h : mergeAtomicOps sha256 txs = .ok output) (chain : Id) :
    output.getD chain {} = requestsTo sha256 chain txs := by
  rw [getD_of_foldlM_mergeTx h chain]
  simp

/-- What is asked of a chain is among the requests to it. -/
theorem exists_of_mem_remove (h : mergeAtomicOps sha256 txs = .ok output) {chain key : Id}
    (hkey : key ∈ (requestsTo sha256 chain txs).remove) :
    ∃ requests, (chain, requests) ∈ output.toList ∧ key ∈ requests.remove := by
  rw [← getD_of_mergeAtomicOps h, ExtTreeMap.getD_eq_getD_getElem?] at hkey
  rcases hget : output[chain]? with - | requests
  · simp [hget] at hkey
  · refine ⟨requests, ExtTreeMap.mem_toList_iff_getElem?_eq_some.mpr hget, ?_⟩
    simpa [hget] using hkey

/-- Every tx has an entry for its chain. -/
theorem mergeAtomicOps_eq_empty_iff
    (h : mergeAtomicOps sha256 txs = .ok output) : output = ∅ ↔ txs = [] := by
  constructor
  · intro hempty
    rcases List.eq_nil_or_concat txs with hnil | ⟨txs, tx, rfl⟩
    · exact hnil
    rw [mergeAtomicOps, List.concat_eq_append, List.foldlM_append, Except.bind_eq_ok_iff] at h
    obtain ⟨mid, -, h⟩ := h
    rw [List.foldlM_cons, Except.bind_eq_ok_iff] at h
    obtain ⟨last, hlast, h⟩ := h
    obtain rfl : last = output := Except.ok.inj h
    rw [mergeTx, Except.bind_eq_ok_iff] at hlast
    obtain ⟨⟨chain, requests⟩, -, hlast⟩ := hlast
    obtain rfl := Except.ok.inj hlast
    exact absurd hempty ExtTreeMap.insert_ne_empty
  · rintro rfl
    exact (Except.ok.inj h).symm

/-! ### The trie -/

theorem trieKey_inj {height height' : ℕ} {chain chain' : Id} (h : height ≤ u64Max)
    (h' : height' ≤ u64Max) :
    trieKey height chain = trieKey height' chain' ↔ height = height' ∧ chain = chain' := by
  rw [trieKey, trieKey, append_inj]
  rw [u64Max_eq] at h h'
  refine and_congr_left fun _ ↦ ⟨fun heq ↦ ?_, fun heq ↦ by rw [heq]⟩
  have hnat := congrArg BitVec.toNat heq
  rwa [BitVec.toNat_ofNat, BitVec.toNat_ofNat, Nat.mod_eq_of_lt (by omega),
    Nat.mod_eq_of_lt (by omega)] at hnat

namespace AtomicTrie

variable {atomicOps : ExtTreeMap Id Requests} {ops : List (BitVec 320 × Requests)} {height : ℕ}

theorem key_of_mem_opsForBlock (h : opsForBlock height atomicOps = some ops)
    {op : BitVec 320 × Requests} (hop : op ∈ ops) : ∃ chain, op.1 = trieKey height chain := by
  rw [opsForBlock, Option.mapM_eq_some_iff] at h
  have hmem : some op ∈ ops.map some := List.mem_map_of_mem hop
  rw [← h, List.mem_map] at hmem
  obtain ⟨p, -, hp⟩ := hmem
  split at hp
  · cases hp
  · obtain rfl := Option.some.inj hp
    exact ⟨p.1, rfl⟩

theorem opsForBlock_eq_nil_iff (h : opsForBlock height atomicOps = some ops) :
    ops = [] ↔ atomicOps = ∅ := by
  rw [opsForBlock, Option.mapM_eq_some_iff] at h
  have hlength := congrArg List.length h
  rw [List.length_map, List.length_map] at hlength
  rw [← ExtTreeMap.toList_eq_nil_iff, ← List.length_eq_zero_iff, ← hlength, List.length_eq_zero_iff]

/-- The requests of a block are kept under its height. -/
theorem getElem?_commit_of_ne {height height' : ℕ} (h : opsForBlock height atomicOps = some ops)
    (hle : height ≤ u64Max) (hle' : height' ≤ u64Max) (hne : height ≠ height') (t : AtomicTrie)
    (chain : Id) : (t.commit ops)[trieKey height' chain]? = t[trieKey height' chain]? := by
  refine TreeMap.foldl_of_forall_ne (fun (t : AtomicTrie) k ↦ t[k]?) ?_ (fun op hop heq ↦ ?_) t
  · intro t p k hpk
    rw [TreeMap.getElem?_put, if_neg hpk]
  · obtain ⟨chain', hkey⟩ := key_of_mem_opsForBlock h hop
    rw [hkey, trieKey_inj hle hle'] at heq
    exact hne heq.1

/-- Writing the requests of a block shows, if the trie has nothing under its height. -/
theorem commit_eq_iff (h : opsForBlock height atomicOps = some ops) {t : AtomicTrie}
    (hnone : ∀ chain, t[trieKey height chain]? = none) : t.commit ops = t ↔ ops = [] := by
  refine ⟨fun heq ↦ ?_, fun hnil ↦ by rw [hnil]; rfl⟩
  rcases ops with - | ⟨op, ops⟩
  · rfl
  obtain ⟨chain, hkey⟩ := key_of_mem_opsForBlock h List.mem_cons_self
  have hsome : ((commit t (op :: ops))[op.1]?).isSome = true :=
    TreeMap.isSome_foldl_put List.mem_cons_self t
  rw [heq, hkey, hnone] at hsome
  cases hsome

end AtomicTrie

namespace AtomicBackend

variable (sha256) in
/-- The backend accepts a block by writing the trie and the memory, or it fails and leaves the
memory as it is. -/
theorem accept_cases (height : ℕ) (txs : List Tx) (b : AtomicBackend) :
    let m := accept sha256 height txs
    (∃ e, m.outcome b = .error e ∧ (m.exec b).sharedMemory = b.sharedMemory) ∨
    ∃ atomicOps ops memory, mergeAtomicOps sha256 txs = .ok atomicOps ∧
      AtomicTrie.opsForBlock height atomicOps = some ops ∧
      b.sharedMemory.apply atomicOps = some memory ∧
      m.outcome b = .ok () ∧ m.exec b = ⟨b.trie.commit ops, memory⟩ := by
  intro m
  rcases hmerge : mergeAtomicOps sha256 txs with e | atomicOps
  · left
    simp [m, accept, Handler.outcome_bind, Handler.exec_bind, hmerge]
  rcases hops : AtomicTrie.opsForBlock height atomicOps with - | ops
  · left
    simp [m, accept, Handler.outcome_bind, Handler.exec_bind, hmerge, hops, orError]
  by_cases hempty : atomicOps = ∅
  · right
    subst hempty
    refine ⟨∅, ops, b.sharedMemory, rfl, hops, SharedMemory.apply_empty _, ?_, ?_⟩ <;>
      simp [m, accept, Handler.outcome_bind, Handler.exec_bind, hmerge, hops, orError]
  rcases hmemory : b.sharedMemory.apply atomicOps with - | memory
  · left
    simp [m, accept, Handler.outcome_bind, Handler.exec_bind, hmerge, hops, orError, hempty,
      hmemory]
  · right
    refine ⟨atomicOps, ops, memory, rfl, hops, hmemory, ?_, ?_⟩ <;>
      simp [m, accept, Handler.outcome_bind, Handler.exec_bind, hmerge, hops, orError, hempty,
        hmemory]

end AtomicBackend

end Avalanche.Evm
