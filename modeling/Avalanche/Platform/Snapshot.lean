import Avalanche.Platform.Stack

/-!
# Snapshots of the state

A snapshot has a copy of what the state holds in memory and reads its byte spaces from the same
database, each through an LRU cache of its own that starts out empty. What the state writes to the
database afterwards is seen through the snapshot unless the cache has the value of before.
-/

open Std

namespace Avalanche.Platform

/-! ### Byte spaces -/

/-- The entries of an LRU cache, the most recently used one first. -/
abbrev Cache : Type := List (Id × Bytes)

namespace Cache

def cacheSize : ℕ := 8192

def lookup (c : Cache) (key : Id) : Option Bytes := (c.find? (·.1 = key)).map Prod.snd

def pop (c : Cache) (key : Id) : Cache := c.filter (·.1 ≠ key)

def put (c : Cache) (key : Id) (value : Bytes) : Cache := ((key, value) :: c.pop key).take cacheSize

/-- A value that is there becomes the most recently used one. -/
def get (c : Cache) (key : Id) : Option Bytes × Cache :=
  match c.lookup key with
  | some v => (some v, c.put key v)
  | none => (none, c)

theorem mem_of_lookup {c : Cache} {key : Id} {v : Bytes} (h : c.lookup key = some v) :
    (key, v) ∈ c := by
  obtain ⟨⟨k, w⟩, hfind, rfl⟩ := Option.map_eq_some_iff.mp h
  have hk : k = key := by simpa using List.find?_some hfind
  exact hk ▸ List.mem_of_find?_eq_some hfind

theorem mem_put {c : Cache} {key : Id} {value : Bytes} {e : Id × Bytes}
    (h : e ∈ c.put key value) : e = (key, value) ∨ e ∈ c.pop key :=
  List.mem_cons.mp (List.mem_of_mem_take h)

end Cache

/-- A space of the database behind a cache. -/
structure ByteSpace where
  db : ExtTreeMap Id Bytes
  cache : Cache

namespace ByteSpace

def get (b : ByteSpace) (key : Id) : Except Error Bytes × ByteSpace :=
  match b.cache.get key with
  | (some v, cache) => (.ok v, { b with cache })
  | (none, cache) =>
    match b.db[key]? with
    | none => (.error .notFound, { b with cache })
    | some v => (.ok v, { b with cache := cache.put key v })

def put (b : ByteSpace) (key : Id) (value : Bytes) : ByteSpace :=
  ⟨b.db.insert key value, b.cache.put key value⟩

def delete (b : ByteSpace) (key : Id) : ByteSpace := ⟨b.db.erase key, b.cache.pop key⟩

/-- What is in the cache is what is in the database. -/
def Coherent (b : ByteSpace) : Prop := ∀ e ∈ b.cache, b.db[e.1]? = some e.2

theorem get_fst (b : ByteSpace) (key : Id) :
    (b.get key).1 = State.found ((b.cache.lookup key).or b.db[key]?) := by
  rw [get, Cache.get]
  rcases b.cache.lookup key with - | v
  · rcases b.db[key]? with - | v <;> rfl
  · rfl

@[simp] theorem get_db (b : ByteSpace) (key : Id) : (b.get key).2.db = b.db := by
  rw [get]
  rcases b.cache.get key with ⟨- | v, cache⟩
  · rcases b.db[key]? with - | v <;> rfl
  · rfl

variable {b : ByteSpace}

theorem Coherent.lookup (h : b.Coherent) {key : Id} {v : Bytes}
    (hv : b.cache.lookup key = some v) : b.db[key]? = some v :=
  h _ (Cache.mem_of_lookup hv)

/-- A state that alone uses its byte space reads what is in the database. -/
theorem Coherent.get_fst (h : b.Coherent) (key : Id) :
    (b.get key).1 = State.found b.db[key]? := by
  rw [ByteSpace.get_fst]
  rcases hv : b.cache.lookup key with - | v
  · rfl
  · rw [h.lookup hv, Option.some_or]

theorem Coherent.cached (h : b.Coherent) {key : Id} {v : Bytes} (hv : b.db[key]? = some v) :
    Coherent { b with cache := b.cache.put key v } := by
  intro e he
  obtain rfl | hpop := Cache.mem_put he
  · exact hv
  · exact h e (List.mem_of_mem_filter hpop)

theorem Coherent.get (h : b.Coherent) (key : Id) : (b.get key).2.Coherent := by
  rw [ByteSpace.get, Cache.get]
  rcases hv : b.cache.lookup key with - | v
  · rcases hdb : b.db[key]? with - | v
    · exact h
    · exact h.cached hdb
  · exact h.cached (h.lookup hv)

theorem Coherent.put (h : b.Coherent) (key : Id) (value : Bytes) : (b.put key value).Coherent := by
  intro e he
  rw [ByteSpace.put, TreeMap.getElem?_insert_eq]
  obtain rfl | hpop := Cache.mem_put he
  · rw [if_pos rfl]
  · obtain ⟨hmem, hne⟩ := List.mem_filter.mp hpop
    have hkey : key ≠ e.1 := fun hkey ↦ of_decide_eq_true hne hkey.symm
    rw [if_neg hkey, h e hmem]

theorem Coherent.delete (h : b.Coherent) (key : Id) : (b.delete key).Coherent := by
  intro e he
  obtain ⟨hmem, hne⟩ := List.mem_filter.mp he
  have hkey : key ≠ e.1 := fun hkey ↦ of_decide_eq_true hne hkey.symm
  rw [ByteSpace.delete, TreeMap.getElem?_erase_eq, if_neg hkey, h e hmem]

end ByteSpace

/-! ### The reads of a chain -/

/-- The byte spaces with a cache that a chain reads. -/
inductive Space
  | utxos
  | subnetOwners
  | subnetManagers
  | txs
  deriving DecidableEq

/-- The reads of the trait `Chain`; those of a byte space are one. -/
inductive Read
  | timestamp
  | currentSupply (subnet : Id)
  | feeState
  | l1ValidatorExcess
  | accruedFees
  | bytes (space : Space) (key : Id)
  | getCurrentValidator (subnet : Id) (node : NodeId)
  | currentStakers
  | getStakingInfo (subnet : Id) (node : NodeId)
  | pendingStakers
  | getL1Validator (validationId : Id)
  | weightOfL1Validators (subnet : Id)
  | activeL1Validators
  | subnets
  | chains (subnet : Id)
  | getRewardUtxos (txId : Id)

abbrev Read.Result : Read → Type
  | timestamp => ℤ
  | currentSupply _ | weightOfL1Validators _ => Except Error ℕ
  | feeState => GasState
  | l1ValidatorExcess | accruedFees => ℕ
  | bytes _ _ => Except Error Bytes
  | getCurrentValidator _ _ => Except Error Staker
  | currentStakers | pendingStakers => List Staker
  | getStakingInfo _ _ => Except Error StakingInfo
  | getL1Validator _ => Except Error L1Validator
  | activeL1Validators => List L1Validator
  | subnets | chains _ => List Id
  | getRewardUtxos _ => List Bytes

namespace State

/-- The contents of a space of the database. -/
def space (s : State) : Space → ExtTreeMap Id Bytes
  | .utxos => s.utxos
  | .subnetOwners => s.subnetOwners
  | .subnetManagers => s.subnetManagers
  | .txs => s.txs

def readBytes (s : State) : Space → Id → Except Error Bytes
  | .utxos => s.getUtxo
  | .subnetOwners => s.getSubnetOwner
  | .subnetManagers => s.getSubnetManager
  | .txs => s.getTx

theorem readBytes_eq (s : State) (space : Space) (key : Id) :
    s.readBytes space key = found (s.space space)[key]? := by
  cases space <;> rfl

def read (s : State) : (q : Read) → q.Result
  | .timestamp => s.timestamp
  | .currentSupply subnet => s.currentSupply subnet
  | .feeState => s.feeState
  | .l1ValidatorExcess => s.l1ValidatorExcess
  | .accruedFees => s.accruedFees
  | .bytes space key => s.readBytes space key
  | .getCurrentValidator subnet node => s.getCurrentValidator subnet node
  | .currentStakers => s.currentStakers
  | .getStakingInfo subnet node => s.getStakingInfo subnet node
  | .pendingStakers => s.pendingStakers
  | .getL1Validator validationId => s.getL1Validator validationId
  | .weightOfL1Validators subnet => s.weightOfL1Validators subnet
  | .activeL1Validators => s.activeL1Validators
  | .subnets => s.subnets
  | .chains subnet => s.chains subnet
  | .getRewardUtxos txId => s.getRewardUtxos txId

end State

/-! ### The snapshot -/

/-- A snapshot: the copy of the state, of which only what is in memory is read, and the caches over
the database. -/
structure Snapshot where
  copy : State
  cache : Space → Cache

/-- The caches of a new snapshot are its own. -/
def State.snapshot (s : State) : Snapshot := ⟨s, fun _ ↦ []⟩

namespace Snapshot

/-- A byte space of the snapshot over the database, which has the contents that `db`, the state
that writes to it, has put there. -/
def byteSpace (snap : Snapshot) (db : State) (space : Space) : ByteSpace :=
  ⟨db.space space, snap.cache space⟩

/-- A read through the snapshot. The reward UTXOs of a tx that is not in the copied index are read
from the database, without a cache; everything but these and the byte spaces is in memory. -/
def read (snap : Snapshot) (db : State) : (q : Read) → q.Result × Snapshot
  | .bytes space key =>
    let (value, b) := (snap.byteSpace db space).get key
    (value, { snap with cache := Function.update snap.cache space b.cache })
  | .getRewardUtxos txId =>
    (snap.copy.rewardUtxoIndex[txId]?.getD (db.readRewardUtxosFromDisk txId), snap)
  | q => (snap.copy.read q, snap)

/-- The snapshot after some reads. -/
def readAll (snap : Snapshot) (db : State) (reads : List Read) : Snapshot :=
  reads.foldl (fun snap q ↦ (snap.read db q).2) snap

/-- The read of a snapshot of `s` gives over the database of `live` what it gave over that of `s`:
the value is in the cache, or in memory, or the same in the database. -/
def Kept (snap : Snapshot) (s live : State) : Read → Prop
  | .bytes space key =>
    (snap.cache space).lookup key ≠ none ∨ (live.space space)[key]? = (s.space space)[key]?
  | .getRewardUtxos txId =>
    txId ∈ s.rewardUtxoIndex ∨ live.readRewardUtxosFromDisk txId = s.readRewardUtxosFromDisk txId
  | _ => True

/-- The copy is of the state whose database it is over, and the caches agree with it. -/
structure Fresh (snap : Snapshot) (s : State) : Prop where
  copy : snap.copy = s
  coherent : ∀ space, (snap.byteSpace s space).Coherent

variable {snap : Snapshot} {s : State}

theorem fresh_snapshot (s : State) : s.snapshot.Fresh s :=
  ⟨rfl, fun _ _ h ↦ absurd h List.not_mem_nil⟩

theorem Fresh.read (h : snap.Fresh s) (q : Read) : (snap.read s q).2.Fresh s := by
  rcases q with - | - | - | - | - | ⟨space, key⟩
  case bytes =>
    refine ⟨h.copy, fun space' ↦ ?_⟩
    have hget := (h.coherent space).get key
    by_cases hspace : space' = space
    · subst hspace
      intro e he
      have hmem : e ∈ ((snap.byteSpace s space').get key).2.cache := by
        simpa [Snapshot.read, byteSpace] using he
      have hdb := hget e hmem
      rwa [ByteSpace.get_db] at hdb
    · intro e he
      refine h.coherent space' e ?_
      simpa [Snapshot.read, byteSpace, hspace] using he
  all_goals exact h

theorem Fresh.readAll (h : snap.Fresh s) (reads : List Read) : (snap.readAll s reads).Fresh s := by
  induction reads generalizing snap with
  | nil => exact h
  | cons q reads ih => exact ih (h.read q)

theorem found_inj {α : Type} {x y : Option α} : State.found x = State.found y ↔ x = y := by
  refine ⟨fun h ↦ ?_, fun h ↦ h ▸ rfl⟩
  rcases x with - | x <;> rcases y with - | y
  · rfl
  · cases h
  · cases h
  · exact congrArg some (Except.ok.inj h)

/-- Before the database has changed, the snapshot reads as the state, and afterwards exactly what is
kept. -/
theorem Fresh.read_eq_iff (h : snap.Fresh s) (live : State) (q : Read) :
    (snap.read live q).1 = s.read q ↔ snap.Kept s live q := by
  rcases q with - | - | - | - | - | ⟨space, key⟩ | - | - | - | - | - | - | - | - | - | txId
  case bytes =>
    change ((snap.byteSpace live space).get key).1 = s.readBytes space key ↔ _
    rw [ByteSpace.get_fst, State.readBytes_eq, found_inj]
    change ((snap.cache space).lookup key).or (live.space space)[key]? = _ ↔
      (snap.cache space).lookup key ≠ none ∨ _
    rcases hv : (snap.cache space).lookup key with - | v
    · exact ⟨.inr, fun h ↦ h.resolve_left (absurd rfl)⟩
    · rw [Option.some_or]
      have hdb : (s.space space)[key]? = some v := (h.coherent space).lookup hv
      exact iff_of_true hdb.symm (.inl (Option.some_ne_none v))
  case getRewardUtxos =>
    change snap.copy.rewardUtxoIndex[txId]?.getD (live.readRewardUtxosFromDisk txId)
      = s.rewardUtxoIndex[txId]?.getD (s.readRewardUtxosFromDisk txId) ↔
      txId ∈ s.rewardUtxoIndex ∨ _
    rw [h.copy, ← ExtTreeMap.isSome_getElem?_iff_mem]
    rcases s.rewardUtxoIndex[txId]? with - | list
    · rw [Option.isSome_none, Bool.false_eq_true, false_or]
      rfl
    · exact iff_of_true rfl (.inl rfl)
  all_goals
    refine iff_of_true ?_ trivial
    rw [← h.copy]
    rfl

end Snapshot

namespace Chain

/-- A write to a state gives a state. -/
theorem exists_attempt_state (s : State) (m : Mutation) : ∃ s', (state s).attempt m = state s' := by
  rcases m
  case putCurrentValidator x =>
    rw [attempt, mutate, putCurrentValidator, updateM]
    rcases s.putCurrentValidator x <;> exact ⟨_, rfl⟩
  case putPendingValidator x =>
    rw [attempt, mutate, putPendingValidator, updateM]
    rcases s.putPendingValidator x <;> exact ⟨_, rfl⟩
  case setStakingInfo subnet node info =>
    rw [attempt, mutate, setStakingInfo, updateM]
    rcases s.setStakingInfo subnet node info <;> exact ⟨_, rfl⟩
  all_goals exact ⟨_, rfl⟩

theorem exists_attempts_state (s : State) (ms : List Mutation) :
    ∃ live, ms.foldl attempt (state s) = state live := by
  induction ms generalizing s with
  | nil => exact ⟨s, rfl⟩
  | cons m ms ih =>
    obtain ⟨s', hs'⟩ := exists_attempt_state s m
    rw [List.foldl_cons, hs']
    exact ih s'

/-- **What a snapshot keeps.** A snapshot is taken and some reads are made through it, then the
state is written to. A read through the snapshot gives the answer it had before the writes exactly
if it is one of memory, or its value is in the snapshot's cache or unchanged in the database. -/
theorem snapshot_read_eq_iff (s : State) (reads : List Read) (ms : List Mutation) (q : Read) :
    ((s.snapshot.readAll s reads).read s q).1 = s.read q ∧
      ∃ live, ms.foldl attempt (state s) = state live ∧
        (((s.snapshot.readAll s reads).read live q).1 = s.read q ↔
          (s.snapshot.readAll s reads).Kept s live q) := by
  have hfresh := (Snapshot.fresh_snapshot s).readAll reads
  obtain ⟨live, hlive⟩ := exists_attempts_state s ms
  refine ⟨(hfresh.read_eq_iff s q).mpr ?_, live, hlive, hfresh.read_eq_iff live q⟩
  cases q <;> first | trivial | exact .inr rfl

/-- A tx and a reward that the state gets are there in the snapshot that was taken before. -/
theorem snapshot_reads_ne :
    ∃ live, [.addTx 0 [1], .addRewardUtxo 0 [2]].foldl attempt (state .new) = state live ∧
      State.new.read (.bytes .txs 0) = .error .notFound ∧
      (State.new.snapshot.read live (.bytes .txs 0)).1 = .ok [1] ∧
      State.new.read (.getRewardUtxos 0) = [] ∧
      (State.new.snapshot.read live (.getRewardUtxos 0)).1 = [[2]] :=
  ⟨_, rfl, rfl, by decide +kernel, by decide +kernel, by decide +kernel⟩

end Chain

end Avalanche.Platform
