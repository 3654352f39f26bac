import Avalanche.Library.Steps
import Avalanche.Merkle.Proof

/-!
# A trie that is filled from proofs

`SyncableTrie` holds the live pairs and the snapshots of recent ones under their roots. A client
commits what proofs carry; a server answers with proofs from its snapshots.

To commit a range proof is to insert its pairs. Those of the target in the proven range are then
there, and nothing changes outside of it, but a local key of the range that the target does not have
stays. A change proof that carries all changes between two roots of the server brings a client from
the one to the other.
-/

open Std

namespace Avalanche.Merkle

inductive SyncError
  | insufficientHistory
  | noEndRoot
  | invalidChangeProof
  | merkle (e : Error)
deriving DecidableEq

structure SyncableTrie where
  branchFactor : BranchFactor
  historyLength : ℕ
  /-- The live pairs. -/
  kvs : KvSet
  /-- Recent snapshots, the newest at the back. -/
  history : List (Id × KvSet)

namespace SyncableTrie

variable (hasher : Hasher)

/-- The root of the live pairs. -/
def merkleRoot (t : SyncableTrie) : Id := Merkle.merkleRoot t.branchFactor hasher t.kvs.toList

/-- Keep the live pairs under their root, in the newest position, and drop the oldest snapshots. -/
def snapshot (t : SyncableTrie) : SyncableTrie :=
  let root := t.merkleRoot hasher
  let history := t.history.filter (fun s ↦ s.1 ≠ root) ++ [(root, t.kvs)]
  { t with history := history.drop (history.length - t.historyLength) }

def withHistory (bf : BranchFactor) (historyLength : ℕ) : SyncableTrie :=
  snapshot hasher ⟨bf, max historyLength 1, ∅, []⟩

/-- The pairs at a root. -/
def kvsAt (t : SyncableTrie) (root : Id) : Option KvSet :=
  if root = Id.empty then some ∅ else (t.history.find? fun s ↦ s.1 = root).map Prod.snd

def changeProof (t : SyncableTrie) (startRoot endRoot : Id) (start end' : Option Bytes)
    (maxLen : ℕ) : Except SyncError ChangeProof := do
  let before ← Except.orError (t.kvsAt startRoot) .insufficientHistory
  let after ← Except.orError (t.kvsAt endRoot) .noEndRoot
  (ChangeProof.prove t.branchFactor hasher before.toList after.toList start end' maxLen).mapError
    .merkle

def verifyChangeProof (t : SyncableTrie) (p : ChangeProof) (start end' : Option Bytes)
    (expectedEndRoot : Id) : Except SyncError Unit :=
  (p.verify t.kvs.toList start end' expectedEndRoot t.branchFactor hasher).mapError
    fun _ ↦ .invalidChangeProof

/-- Insert the pairs of a range proof. The bounds are not looked at. -/
def commitRangeProof (t : SyncableTrie) (_start _end : Option Bytes) (p : RangeProof) :
    SyncableTrie :=
  snapshot hasher { t with kvs := p.keyValues.foldl TreeMap.put t.kvs }

/-- Make the changes of a change proof. -/
def commitChangeProof (t : SyncableTrie) (p : ChangeProof) : SyncableTrie :=
  snapshot hasher { t with kvs := Overlay.edits t.kvs p.keyChanges }

def clear (t : SyncableTrie) : SyncableTrie := snapshot hasher { t with kvs := ∅ }

variable {hasher}

@[simp] theorem kvs_snapshot (t : SyncableTrie) : (t.snapshot hasher).kvs = t.kvs := rfl

section Range

variable {bf : BranchFactor} {kvs : List (Bytes × Bytes)} {start end' : Option Bytes}
  {maxLength : ℕ} {p : RangeProof} {k : Bytes}

/-- The pairs after a range proof: those of the target where the target has a key of the proven
range, those of before elsewhere. -/
theorem getElem?_commitRangeProof
    (hprove : RangeProof.prove bf hasher kvs start end' maxLength = .ok p) (t : SyncableTrie)
    (start' end'' : Option Bytes) :
    (t.commitRangeProof hasher start' end'' p).kvs[k]?
      = if InRange start (endProofKey p.keyValues end') k then (kvSet kvs)[k]?.or t.kvs[k]?
        else t.kvs[k]? := by
  obtain ⟨hmax, hkvs⟩ := RangeProof.keyValues_of_prove hprove
  have hmem : ∀ v, (k, v) ∈ p.keyValues ↔ (kvSet kvs)[k]? = some v ∧
      InRange start (endProofKey p.keyValues end') k := by
    intro v
    rw [hkvs]
    exact mem_rangeKeyValues hmax
  have hdistinct : Overlay.DistinctKeys (p.keyValues.map fun q ↦ (q.1, some q.2)) := by
    rw [hkvs]
    refine List.Pairwise.map _ (fun a b hne ↦ hne) ?_
    exact ((TreeMap.pairwise_fst_toList (kvSet kvs)).filter _).sublist
      ((List.takeWhile_sublist _).trans (List.take_sublist _ _))
  have hfold : (t.commitRangeProof hasher start' end'' p).kvs
      = Overlay.edits t.kvs (p.keyValues.map fun q ↦ (q.1, some q.2)) := by
    rw [commitRangeProof, kvs_snapshot, Overlay.edits, List.foldl_map]
    rfl
  rw [hfold]
  by_cases hk : ∃ v, (k, v) ∈ p.keyValues
  · obtain ⟨v, hv⟩ := hk
    obtain ⟨htarget, hrange⟩ := (hmem v).mp hv
    rw [if_pos hrange, htarget, Option.some_or]
    exact Overlay.getElem?_edits_of_mem hdistinct (List.mem_map.mpr ⟨_, hv, rfl⟩) _
  · have hnone : InRange start (endProofKey p.keyValues end') k → (kvSet kvs)[k]? = none := by
      intro hrange
      rw [Option.eq_none_iff_forall_ne_some]
      exact fun v hv ↦ hk ⟨v, (hmem v).mpr ⟨hv, hrange⟩⟩
    rw [Overlay.getElem?_edits_of_forall_ne]
    · split
      next hrange => rw [hnone hrange, Option.none_or]
      next => rfl
    · intro e he heq
      obtain ⟨q, hq, rfl⟩ := List.mem_map.mp he
      exact hk ⟨q.2, heq ▸ hq⟩

end Range

/-- **A committed range proof makes the range equal to the target exactly if no stale key was in
it.** Let `p` be proved on a set of pairs for some bounds, and let the proven range go up to the
last key of `p`, or to the upper bound if `p` has none. After the commit the pairs in the proven
range are those of the target, and those outside are as before, if and only if each key that was
there in the range is one of the target. -/
theorem commitRangeProof_exact_iff {bf : BranchFactor} {kvs : List (Bytes × Bytes)}
    {start end' : Option Bytes} {maxLength : ℕ} {p : RangeProof}
    (hprove : RangeProof.prove bf hasher kvs start end' maxLength = .ok p) (t : SyncableTrie) :
    ((∀ k, InRange start (endProofKey p.keyValues end') k →
        (t.commitRangeProof hasher start end' p).kvs[k]? = (kvSet kvs)[k]?) ∧
      ∀ k, ¬InRange start (endProofKey p.keyValues end') k →
        (t.commitRangeProof hasher start end' p).kvs[k]? = t.kvs[k]?) ↔
      ∀ k, InRange start (endProofKey p.keyValues end') k → k ∈ t.kvs → k ∈ kvSet kvs := by
  have hcommit := fun k ↦ getElem?_commitRangeProof (k := k) hprove t start end'
  constructor
  · rintro ⟨hinside, -⟩ k hrange hk
    rw [ExtTreeMap.mem_iff_isSome_getElem?] at hk ⊢
    rw [← hinside k hrange, hcommit, if_pos hrange, Option.isSome_or, hk, Bool.or_true]
  · intro hstale
    refine ⟨fun k hrange ↦ ?_, fun k hrange ↦ ?_⟩
    · rw [hcommit, if_pos hrange]
      rcases htarget : (kvSet kvs)[k]? with - | v
      · refine ExtTreeMap.getElem?_eq_none fun hk ↦ ?_
        have htarget' := ExtTreeMap.mem_iff_isSome_getElem?.mp (hstale k hrange hk)
        rw [htarget] at htarget'
        cases htarget'
      · rw [Option.some_or]
    · rw [hcommit, if_neg hrange]

open ChangeProof (lengthHasher)

/-- A trie that holds the key `[1]`. -/
def local₁ : SyncableTrie := ⟨.twoFiftySix, 1, kvSet [([1], [9])], []⟩

/-- The target has the local key and one above the range. -/
theorem commitRangeProof_exact_iff_example :
    ∃ p, RangeProof.prove .twoFiftySix lengthHasher [([1], [1]), ([2], [2])] none (some [1]) 10
        = .ok p ∧
      (∀ k, InRange none (endProofKey p.keyValues (some [1])) k →
        (local₁.commitRangeProof lengthHasher none (some [1]) p).kvs[k]?
          = (kvSet [([1], [1]), ([2], [2])])[k]?) ∧
      ∀ k, ¬InRange none (endProofKey p.keyValues (some [1])) k →
        (local₁.commitRangeProof lengthHasher none (some [1]) p).kvs[k]? = local₁.kvs[k]? := by
  obtain ⟨p, hp⟩ := RangeProof.exists_prove lengthHasher
    (show BoundsOrdered none (some [1]) by decide) (show 10 ≠ 0 by decide)
    (show (Trie.ofInserts .twoFiftySix [([1], [1]), ([2], [2])]).isEmpty = false by decide +kernel)
  refine ⟨p, hp, (commitRangeProof_exact_iff hp local₁).mpr fun k _ hk ↦ ?_⟩
  obtain rfl : k = [1] := by
    by_contra hne
    rw [ExtTreeMap.mem_iff_isSome_getElem?, local₁, getElem?_kvSet] at hk
    simp [Trie.lastInserted, Ne.symm hne] at hk
  decide +kernel

/-- The target does not have the local key, which lies below its last key. It stays. -/
theorem stale_key_stays :
    ∃ p, RangeProof.prove .twoFiftySix lengthHasher [([2], [2])] none none 10 = .ok p ∧
      InRange none (endProofKey p.keyValues none) [1] ∧
      (local₁.commitRangeProof lengthHasher none none p).kvs[([1] : Bytes)]? = some [9] ∧
      (kvSet [([2], [2])])[([1] : Bytes)]? = none := by
  obtain ⟨p, hp⟩ := RangeProof.exists_prove lengthHasher
    (show BoundsOrdered none none by decide) (show 10 ≠ 0 by decide)
    (show (Trie.ofInserts .twoFiftySix [([2], [2])]).isEmpty = false by decide +kernel)
  have hkvs := (RangeProof.keyValues_of_prove hp).2
  refine ⟨p, hp, ?_, ?_, by decide +kernel⟩
  · rw [hkvs]
    decide +kernel
  · rw [commitRangeProof, kvs_snapshot, hkvs]
    decide +kernel

/-! ### A server and a client -/

inductive Commit
  | range (start end' : Option Bytes) (p : RangeProof)
  | change (p : ChangeProof)
  | clear

def commit (hasher : Hasher) (t : SyncableTrie) : Commit → SyncableTrie
  | .range start end' p => t.commitRangeProof hasher start end' p
  | .change p => t.commitChangeProof hasher p
  | .clear => t.clear hasher

/-- Every snapshot is kept under its root. -/
def Rooted (hasher : Hasher) (t : SyncableTrie) : Prop :=
  ∀ s ∈ t.history, s.1 = Merkle.merkleRoot t.branchFactor hasher s.2.toList

theorem Rooted.snapshot {t : SyncableTrie} (h : t.Rooted hasher) (kvs : KvSet) :
    Rooted hasher (SyncableTrie.snapshot hasher { t with kvs := kvs }) := by
  intro s hs
  rcases List.mem_append.mp (List.mem_of_mem_drop hs) with hs | hs
  · exact h s (List.mem_of_mem_filter hs)
  · rw [List.mem_singleton.mp hs]
    rfl

theorem rooted_of_run (bf : BranchFactor) (n : ℕ) (commits : List Commit) :
    (Steps.exec (commit hasher) (withHistory hasher bf n) commits).Rooted hasher := by
  refine Steps.exec_of_step (fun t c h ↦ ?_) (Rooted.snapshot (t := ⟨bf, max n 1, ∅, []⟩) nofun ∅) _
  cases c <;> exact h.snapshot _

theorem Rooted.merkleRoot_eq {t : SyncableTrie} (h : t.Rooted hasher) {root : Id} {kvs : KvSet}
    (hkvs : t.kvsAt root = some kvs) :
    Merkle.merkleRoot t.branchFactor hasher kvs.toList = root := by
  rw [kvsAt] at hkvs
  split at hkvs
  next hempty =>
    rw [hempty, ← Option.some.inj hkvs]
    rfl
  next =>
    obtain ⟨s, hs, rfl⟩ := Option.map_eq_some_iff.mp hkvs
    rw [← h s (List.mem_of_find?_eq_some hs)]
    simpa using List.find?_some hs

/-- **A round of state sync.** Whatever a server has committed, it answers for any two roots it
still has. If the answer has room for every change, a client at the first root accepts it, and
stands at the second root with the pairs of the server once it has committed it. -/
theorem sync_round {bf : BranchFactor} {n : ℕ} {commits : List Commit} {server : SyncableTrie}
    (hserver : Steps.exec (commit hasher) (withHistory hasher bf n) commits = server)
    {startRoot endRoot : Id} {before after : KvSet}
    (hbefore : server.kvsAt startRoot = some before)
    (hafter : server.kvsAt endRoot = some after)
    {start end' : Option Bytes} {maxLen : ℕ} (hbounds : BoundsOrdered start end')
    (hmax : maxLen ≠ 0) :
    ∃ p, server.changeProof hasher startRoot endRoot start end' maxLen = .ok p ∧
      ∀ client : SyncableTrie, client.branchFactor = server.branchFactor → client.kvs = before →
        ChangeProof.Complete before.toList after.toList start end' maxLen →
          client.verifyChangeProof hasher p start end' endRoot = .ok () ∧
          (client.commitChangeProof hasher p).kvs = after ∧
          (client.commitChangeProof hasher p).merkleRoot hasher = endRoot := by
  obtain ⟨p, hprove, hp⟩ := ChangeProof.exists_prove server.branchFactor hasher before.toList
    after.toList hbounds hmax
  refine ⟨p, ?_, fun client hbf hkvs hcomplete ↦ ?_⟩
  · simp [changeProof, hbefore, hafter, Except.orError, hprove, bind, Except.bind, Except.mapError]
  subst hkvs
  have hmerge : p.merge client.kvs.toList = after := by
    rw [(ChangeProof.merge_eq_iff hp).mpr hcomplete, kvSet_toList]
  have hkvs : (client.commitChangeProof hasher p).kvs = after := by
    rwa [ChangeProof.merge, kvSet_toList] at hmerge
  have hroot : Merkle.merkleRoot client.branchFactor hasher after.toList = endRoot := by
    rw [hbf]
    exact (hserver ▸ rooted_of_run bf n commits).merkleRoot_eq hafter
  refine ⟨?_, hkvs, ?_⟩
  · rw [verifyChangeProof, Except.mapError_eq_ok_iff, ChangeProof.verify_iff hp hbounds, hmerge,
      hroot]
  · rw [merkleRoot, hkvs]
    exact hroot

/-- The server has committed two pairs and then removed one. The client has the two pairs. -/
theorem sync_round_example :
    let trie n := withHistory lengthHasher .twoFiftySix n
    let pairs : Commit := .change ⟨[], [], [([1], some [1]), ([2], some [2])]⟩
    let server := Steps.exec (commit lengthHasher) (trie 3)
      [pairs, .change ⟨[], [], [([1], none)]⟩]
    let client := commit lengthHasher (trie 1) pairs
    client.merkleRoot lengthHasher ≠ server.merkleRoot lengthHasher ∧
      ∃ p, server.changeProof lengthHasher (client.merkleRoot lengthHasher)
          (server.merkleRoot lengthHasher) (some [0]) (some [1]) 1 = .ok p ∧
        client.verifyChangeProof lengthHasher p (some [0]) (some [1])
          (server.merkleRoot lengthHasher) = .ok () ∧
        (client.commitChangeProof lengthHasher p).kvs = server.kvs := by
  intro trie pairs server client
  have hbefore : server.kvsAt (client.merkleRoot lengthHasher) = some client.kvs := by
    decide +kernel
  have hafter : server.kvsAt (server.merkleRoot lengthHasher) = some server.kvs := by
    decide +kernel
  obtain ⟨p, hp, hclient⟩ := sync_round (show Steps.exec (commit lengthHasher) (trie 3) _ = server
    from rfl) hbefore hafter (show BoundsOrdered (some [0]) (some [1]) by decide) Nat.one_ne_zero
  obtain ⟨hverified, hkvs, -⟩ := hclient client rfl rfl (by decide +kernel)
  exact ⟨by decide +kernel, p, hp, hverified, hkvs⟩

end SyncableTrie

end Avalanche.Merkle
