import Avalanche.Library.Loop
import Avalanche.Library.MapDiff
import Avalanche.Library.Overlay
import Avalanche.Merkle.Canonical

/-!
# Proofs of ranges and of changes

A range proof carries the pairs of a trie from a lower bound on, up to an upper bound and a number
of pairs, with the paths to both ends. A change proof carries the keys of a range at which two tries
differ, with the values of the second one. The verifier of a change proof applies the changes to the
first set of pairs and compares the root of the result with that of the second; it does not look at
the paths. The proof is thus accepted exactly if it carries all changes.
-/

open Std
open Except (require)
open TreeMap (allKeys changedKeys mem_changedKeys pairwise_changedKeys)

namespace Avalanche.Merkle

variable {bf : BranchFactor} {start end' : Option Bytes} {maxLength : ℕ}

inductive Error
  | startAfterEnd
  | invalidMaxLength
  | emptyProof
  | nonIncreasingValues
  | stateFromOutsideOfRange
  | invalidProof
deriving DecidableEq

/-- The root id of the trie that holds the pairs. -/
def merkleRoot (bf : BranchFactor) (hasher : Hasher) (kvs : List (Bytes × Bytes)) : Id :=
  (Trie.ofInserts bf kvs).rootId hasher

abbrev KvSet := ExtTreeMap Bytes Bytes

/-- The pairs as a map; a later pair replaces an earlier one. -/
def kvSet (kvs : List (Bytes × Bytes)) : KvSet := kvs.foldl TreeMap.put ∅

theorem getElem?_kvSet (kvs : List (Bytes × Bytes)) (key : Bytes) :
    (kvSet kvs)[key]? = Trie.lastInserted kvs key := by
  induction kvs using List.reverseRecOn with
  | nil => exact ExtTreeMap.getElem?_empty
  | append_singleton kvs p ih =>
    rw [Trie.lastInserted_append_singleton, kvSet, List.foldl_append, ← ih]
    exact TreeMap.getElem?_put _ p key

theorem kvSet_toList (m : KvSet) : kvSet m.toList = m := by
  refine ExtTreeMap.ext_getElem? fun key ↦ ?_
  rw [kvSet, TreeMap.getElem?_foldl_put, ExtTreeMap.getElem?_empty, Option.or_none]

/-- The root depends on the map only. -/
theorem merkleRoot_congr {hasher : Hasher} {kvs kvs' : List (Bytes × Bytes)}
    (h : kvSet kvs = kvSet kvs') : merkleRoot bf hasher kvs = merkleRoot bf hasher kvs' := by
  rw [merkleRoot, merkleRoot, Trie.ofInserts_eq fun key ↦ ?_]
  rw [← getElem?_kvSet, ← getElem?_kvSet, h]

/-! ### Paths -/

structure ProofNode where
  key : Key
  valueOrHash : Option Bytes
  children : UInt8 → Option Id

/-- The node as it stands in a proof. The source looks it up by its key in a table of all nodes. -/
def proofNodeFor (hasher : Hasher) (n : OwnedNode) : ProofNode :=
  ⟨n.key, valueDigest hasher n.value, fun i ↦ hashChild hasher (n.children i)⟩

/-- The nodes along a path. -/
def OwnedNode.along : List UInt8 → OwnedNode → List OwnedNode
  | [], n => [n]
  | i :: path, n => n :: (n.children i).elim [] (along path)

/-- The nodes on the way to `key`, then the child in its place if `key` is not there. -/
def Trie.getProof (t : Trie) (hasher : Hasher) (key : Key) :
    Option (List ProofNode × Option Bytes) :=
  t.root.map fun root ↦
    if key.hasPrefix root.key then
      let visited := root.along (root.visitPath key t.tokenSize)
      let path := visited.map (proofNodeFor hasher)
      let closest := visited.getLastD root
      if closest.key = key then (path, t.get key)
      else
        let child := closest.children (key.token closest.key.length t.tokenSize)
        (path ++ (child.map (proofNodeFor hasher)).toList, none)
    else ([proofNodeFor hasher root], none)

structure Proof where
  path : List ProofNode
  key : Key
  value : Option Bytes

def Proof.fromTrie (t : Trie) (hasher : Hasher) (key : Bytes) : Except Error Proof :=
  if t.isEmpty then .error .emptyProof
  else
    match t.getProof hasher (.fromBytes key) with
    | none => .error .emptyProof
    | some (path, value) => .ok ⟨path, .fromBytes key, value⟩

/-- The lower path without the nodes it shares with the upper one. -/
def stripCommon : List ProofNode → List ProofNode → List ProofNode
  | s :: startPath, e :: endPath =>
    if s.key = e.key then stripCommon startPath endPath else s :: startPath
  | startPath, _ => startPath

/-- The path to a key, if there is one to be proved. -/
def pathTo (t : Trie) (hasher : Hasher) : Option Bytes → Except Error (List ProofNode)
  | none => .ok []
  | some key => (Proof.fromTrie t hasher key).map Proof.path

theorem exists_pathTo {t : Trie} (ht : t.isEmpty = false) (hasher : Hasher) (key : Option Bytes) :
    ∃ path, pathTo t hasher key = .ok path := by
  obtain ⟨- | root, bf⟩ := t
  · cases ht
  · cases key <;> exact ⟨_, rfl⟩

/-! ### Ranges -/

/-- Not below the lower bound. -/
def FromStart (start : Option Bytes) (k : Bytes) : Prop := ∀ s ∈ start, compare k s ≠ .lt

/-- Not above the upper bound. -/
def UpToEnd (end' : Option Bytes) (k : Bytes) : Prop := ∀ e ∈ end', compare k e ≠ .gt

instance (start : Option Bytes) : DecidablePred (FromStart start) := fun k ↦
  inferInstanceAs (Decidable (∀ s ∈ start, compare k s ≠ .lt))

instance (end' : Option Bytes) : DecidablePred (UpToEnd end') := fun k ↦
  inferInstanceAs (Decidable (∀ e ∈ end', compare k e ≠ .gt))

/-- Between the bounds. -/
def InRange (start end' : Option Bytes) (k : Bytes) : Prop := FromStart start k ∧ UpToEnd end' k

instance (start end' : Option Bytes) : DecidablePred (InRange start end') := fun k ↦
  inferInstanceAs (Decidable (FromStart start k ∧ UpToEnd end' k))

/-- The lower bound is not above the upper one. -/
def BoundsOrdered (start end' : Option Bytes) : Prop := ∀ s ∈ start, UpToEnd end' s

instance (start end' : Option Bytes) : Decidable (BoundsOrdered start end') :=
  inferInstanceAs (Decidable (∀ s ∈ start, UpToEnd end' s))

structure RangeProof where
  startProof : List ProofNode
  endProof : List ProofNode
  keyValues : List (Bytes × Bytes)

/-- The last of some keys, or the upper bound if there is none. -/
def endProofKey {γ : Type} (entries : List (Bytes × γ)) (end' : Option Bytes) : Option Bytes :=
  (entries.getLast?.map Prod.fst).or end'

/-- The pairs that a range proof carries. Those below the lower bound are passed over; the loop ends
when it has enough, or at the first one above the upper bound. -/
def rangeKeyValues (sorted : KvSet) (start end' : Option Bytes) (maxLength : ℕ) :
    List (Bytes × Bytes) :=
  ((sorted.toList.filter fun p ↦ FromStart start p.1).take maxLength).takeWhile fun p ↦
    UpToEnd end' p.1

def RangeProof.prove (bf : BranchFactor) (hasher : Hasher) (kvs : List (Bytes × Bytes))
    (start end' : Option Bytes) (maxLength : ℕ) : Except Error RangeProof := do
  require (BoundsOrdered start end') .startAfterEnd
  require (maxLength ≠ 0) .invalidMaxLength
  let trie := Trie.ofInserts bf kvs
  require (trie.isEmpty = false) .emptyProof
  let keyValues := rangeKeyValues (kvSet kvs) start end' maxLength
  let endProof ← pathTo trie hasher (endProofKey keyValues end')
  let startPath ← pathTo trie hasher start
  return ⟨stripCommon startPath endProof, endProof, keyValues⟩

theorem UpToEnd.mono {end' : Option Bytes} {k k' : Bytes} (h : UpToEnd end' k')
    (hle : compare k k' = .lt) : UpToEnd end' k := by
  intro e he hgt
  exact h e he (TransCmp.gt_trans (OrientedCmp.gt_of_lt hle) hgt)

/-- The pairs of a range proof are all those from the lower bound up to the last one, or up to the
upper bound if there is none. -/
theorem mem_rangeKeyValues {sorted : KvSet} (hmax : maxLength ≠ 0) {p : Bytes × Bytes} :
    p ∈ rangeKeyValues sorted start end' maxLength ↔ sorted[p.1]? = some p.2 ∧
      InRange start (endProofKey (rangeKeyValues sorted start end' maxLength) end') p.1 := by
  have hascending : Overlay.Ascending (sorted.toList.filter fun p ↦ FromStart start p.1) :=
    (Overlay.ascending_toList sorted).filter _
  have hmem : ∀ p : Bytes × Bytes, (p ∈ sorted.toList.filter fun p ↦ FromStart start p.1) ↔
      sorted[p.1]? = some p.2 ∧ FromStart start p.1 := by
    intro p
    rw [List.mem_filter, decide_eq_true_eq, ExtTreeMap.mem_toList_iff_getElem?_eq_some]
  have hinitial : rangeKeyValues sorted start end' maxLength
      <+: sorted.toList.filter fun p ↦ FromStart start p.1 :=
    (List.takeWhile_prefix _).trans (List.take_prefix _ _)
  rw [InRange, ← and_assoc, ← hmem]
  rcases hlast : (rangeKeyValues sorted start end' maxLength).getLast? with - | q
  · -- nothing is carried: the first pair from the lower bound on is above the upper bound
    rw [List.getLast?_eq_none_iff] at hlast
    rw [hlast]
    refine iff_of_false List.not_mem_nil fun ⟨hp, hend⟩ ↦ ?_
    obtain ⟨n, rfl⟩ := Nat.exists_eq_succ_of_ne_zero hmax
    rw [rangeKeyValues] at hlast
    rcases hall : sorted.toList.filter fun p ↦ FromStart start p.1 with - | ⟨first, rest⟩
    · rw [hall] at hp
      exact List.not_mem_nil hp
    · rw [hall] at hp hascending hlast
      have hfirst : UpToEnd end' first.1 := by
        rcases List.mem_cons.mp hp with rfl | hp
        · exact hend
        · exact UpToEnd.mono hend ((List.pairwise_cons.mp hascending).1 p hp)
      simp [hfirst] at hlast
  · rw [hascending.mem_initial_iff hinitial hlast, endProofKey, hlast]
    simp [UpToEnd]

/-- The pairs that `prove` carries. -/
theorem RangeProof.keyValues_of_prove {hasher : Hasher}
    {kvs : List (Bytes × Bytes)} {p : RangeProof}
    (h : prove bf hasher kvs start end' maxLength = .ok p) :
    maxLength ≠ 0 ∧ p.keyValues = rangeKeyValues (kvSet kvs) start end' maxLength := by
  simp only [prove, Except.bind_eq_ok_iff, Except.require_eq_ok_iff] at h
  obtain ⟨-, -, -, hmax, -, -, endProof, -, startPath, -, hp⟩ := h
  cases hp
  exact ⟨hmax, rfl⟩

/-- `prove` fails only on its arguments. -/
theorem RangeProof.exists_prove {kvs : List (Bytes × Bytes)} (hasher : Hasher)
    (hbounds : BoundsOrdered start end') (hmax : maxLength ≠ 0)
    (hkvs : (Trie.ofInserts bf kvs).isEmpty = false) :
    ∃ p, prove bf hasher kvs start end' maxLength = .ok p := by
  obtain ⟨endProof, hend⟩ := exists_pathTo hkvs hasher
    (endProofKey (rangeKeyValues (kvSet kvs) start end' maxLength) end')
  obtain ⟨startPath, hstart⟩ := exists_pathTo hkvs hasher start
  simp only [prove, require, if_pos hbounds, if_pos hmax, if_pos hkvs, bind, Except.bind, hend,
    hstart]
  exact ⟨_, rfl⟩

/-! ### Changes -/

structure ChangeProof where
  startProof : List ProofNode
  endProof : List ProofNode
  /-- The keys with their values after the change. -/
  keyChanges : List (Bytes × Option Bytes)

namespace ChangeProof

def prove (bf : BranchFactor) (hasher : Hasher) (before after : List (Bytes × Bytes))
    (start end' : Option Bytes) (maxLength : ℕ) : Except Error ChangeProof := do
  require (BoundsOrdered start end') .startAfterEnd
  require (maxLength ≠ 0) .invalidMaxLength
  let beforeMap := kvSet before
  let afterMap := kvSet after
  let keyChanges :=
    ((((allKeys beforeMap afterMap).filter fun k ↦ InRange start end' k).filter fun k ↦
      beforeMap[k]? ≠ afterMap[k]?).take maxLength).map fun k ↦ (k, afterMap[k]?)
  let afterTrie := Trie.ofInserts bf afterMap.toList
  if afterTrie.isEmpty then return ⟨[], [], keyChanges⟩
  let endProof ← pathTo afterTrie hasher (endProofKey keyChanges end')
  let startPath ← pathTo afterTrie hasher start
  return ⟨stripCommon startPath endProof, endProof, keyChanges⟩

/-- The pairs with the changes made to them. -/
def merge (p : ChangeProof) (kvs : List (Bytes × Bytes)) : KvSet :=
  Overlay.edits (kvSet kvs) p.keyChanges

def verify (p : ChangeProof) (startKvs : List (Bytes × Bytes)) (start end' : Option Bytes)
    (expectedEndRoot : Id) (bf : BranchFactor) (hasher : Hasher) : Except Error Unit := do
  require (BoundsOrdered start end') .startAfterEnd
  require ((p.keyChanges.map Prod.fst).IsChain fun a b ↦ compare a b = .lt) .nonIncreasingValues
  require (∀ kc ∈ p.keyChanges, InRange start end' kc.1) .stateFromOutsideOfRange
  let got := (Trie.ofInserts bf (p.merge startKvs).toList).rootId hasher
  require (got = expectedEndRoot) .invalidProof

/-! ### The changes that a proof carries -/

section Carried

variable {bf : BranchFactor} {hasher : Hasher} {before after : List (Bytes × Bytes)}
  {start end' : Option Bytes} {maxLength : ℕ} {k : Bytes}
variable {p : ChangeProof}

/-- The keys that `prove` puts into a proof. -/
def carried (before after : List (Bytes × Bytes)) (start end' : Option Bytes) (maxLength : ℕ) :
    List Bytes :=
  ((changedKeys (kvSet before) (kvSet after)).filter fun k ↦ InRange start end' k).take maxLength

/-- Every change lies in the range, and there is room for all of them. -/
def Complete (before after : List (Bytes × Bytes)) (start end' : Option Bytes) (maxLength : ℕ) :
    Prop :=
  (∀ k ∈ changedKeys (kvSet before) (kvSet after), InRange start end' k) ∧
    (changedKeys (kvSet before) (kvSet after)).length ≤ maxLength

instance : Decidable (Complete before after start end' maxLength) :=
  inferInstanceAs (Decidable (_ ∧ _))

/-- No other map put together from the two has the root of the second one. -/
def NoCollision (bf : BranchFactor) (hasher : Hasher) (before after : List (Bytes × Bytes)) :
    Prop :=
  ∀ m : KvSet, (∀ k : Bytes, m[k]? = (kvSet before)[k]? ∨ m[k]? = (kvSet after)[k]?) →
    merkleRoot bf hasher m.toList = merkleRoot bf hasher after → m = kvSet after

/-- The hasher tells nodes and their values apart, and no node has the id of an empty trie. -/
structure Separates (hasher : Hasher) (nodes : Set OwnedNode) : Prop where
  child : ∀ n ∈ nodes, ∀ i, ∀ c ∈ n.children i, c ∈ nodes
  node : ∀ n ∈ nodes, ∀ n' ∈ nodes, hashOwned hasher n = hashOwned hasher n' → n.key = n'.key ∧
    valueDigest hasher n.value = valueDigest hasher n'.value ∧
    ∀ i, hashChild hasher (n.children i) = hashChild hasher (n'.children i)
  value : Set.InjOn (valueDigest hasher) (Set.image OwnedNode.value nodes)
  root : ∀ n ∈ nodes, hashOwned hasher n ≠ Id.empty

variable {nodes : Set OwnedNode}

theorem Separates.eq (h : Separates hasher nodes) {n n' : OwnedNode} (hpacked : n.Packed bf)
    (hn : n ∈ nodes) (hn' : n' ∈ nodes) (heq : hashOwned hasher n = hashOwned hasher n') :
    n = n' := by
  induction hpacked generalizing n' with
  | @intro k v cs _ _ ih =>
    obtain ⟨k', v', cs'⟩ := n'
    obtain ⟨rfl, hv, hcs⟩ := h.node _ hn _ hn' heq
    obtain rfl : v = v' := h.value ⟨_, hn, rfl⟩ ⟨_, hn', rfl⟩ hv
    refine congrArg (OwnedNode.mk k v) (funext fun i ↦ ?_)
    have hi : hashChild hasher (cs i) = hashChild hasher (cs' i) := hcs i
    rcases hc : cs i with - | c <;> rcases hc' : cs' i with - | c' <;>
      simp only [hc, hc', hashChild, reduceCtorEq, Option.some.injEq] at hi ⊢
    exact ih i c hc (h.child _ hn i c hc) (h.child _ hn' i c' hc') hi

/-- A hasher that separates the nodes of the maps in question has no collision among them. -/
theorem noCollision_of_separates (h : Separates hasher nodes)
    (hnodes : ∀ m : KvSet, (∀ k : Bytes, m[k]? = (kvSet before)[k]? ∨ m[k]? = (kvSet after)[k]?) →
      ∀ root ∈ (Trie.ofInserts bf m.toList).root, root ∈ nodes) :
    NoCollision bf hasher before after := by
  intro m hm hids
  rw [← merkleRoot_congr (kvSet_toList (kvSet after))] at hids
  have hroot : (Trie.ofInserts bf m.toList).root
      = (Trie.ofInserts bf (kvSet after).toList).root := by
    have hgood := (Trie.built bf m.toList).1
    rw [Trie.Good, Trie.branchFactor_ofInserts] at hgood
    have hn := hnodes m hm
    have hn' := hnodes (kvSet after) fun _ ↦ .inr rfl
    simp only [merkleRoot, Trie.rootId] at hids
    rcases hr : (Trie.ofInserts bf m.toList).root with - | r <;>
      rcases hr' : (Trie.ofInserts bf (kvSet after).toList).root with - | r' <;>
      rw [hr, hr'] at hids
    · exact absurd hids.symm (h.root r' (hn' r' hr'))
    · exact absurd hids (h.root r (hn r hr))
    · exact congrArg some (h.eq (hgood r hr).1 (hn r hr) (hn' r' hr') hids)
  refine ExtTreeMap.ext_getElem? fun k ↦ ?_
  rw [← kvSet_toList m, ← kvSet_toList (kvSet after), getElem?_kvSet, getElem?_kvSet]
  simp only [← Trie.get_ofInserts bf, Trie.get, hroot, Trie.tokenSize, Trie.branchFactor_ofInserts]

variable (bf hasher before after) in
theorem exists_prove (hbounds : BoundsOrdered start end') (hmax : maxLength ≠ 0) :
    ∃ p, prove bf hasher before after start end' maxLength = .ok p ∧
      p.keyChanges = (carried before after start end' maxLength).map
        fun k ↦ (k, (kvSet after)[k]?) := by
  have hkeys : ((((allKeys (kvSet before) (kvSet after)).filter fun k ↦
      InRange start end' k).filter fun k ↦ (kvSet before)[k]? ≠ (kvSet after)[k]?).take maxLength)
        = carried before after start end' maxLength := by
    rw [carried, changedKeys, List.filter_comm]
  simp only [prove, hkeys, require, if_pos hbounds, if_pos hmax, bind, Except.bind]
  rcases hempty : (Trie.ofInserts bf (kvSet after).toList).isEmpty with - | -
  · obtain ⟨endProof, hend⟩ := exists_pathTo hempty hasher
      (endProofKey ((carried before after start end' maxLength).map fun k ↦
        (k, (kvSet after)[k]?)) end')
    obtain ⟨startPath, hstart⟩ := exists_pathTo hempty hasher start
    simp only [hend, hstart]
    exact ⟨_, rfl, rfl⟩
  · exact ⟨_, rfl, rfl⟩

/-- `prove` does not fail, so an error comes from the verifier. -/
theorem rejected_of_run (hbounds : BoundsOrdered start end') (hmax : maxLength ≠ 0) {root : Id}
    {e : Error} (hrun : (prove bf hasher before after start end' maxLength >>= fun p ↦
      p.verify before start end' root bf hasher) = .error e) :
    ∃ p, prove bf hasher before after start end' maxLength = .ok p ∧
      p.verify before start end' root bf hasher = .error e := by
  obtain ⟨p, hprove, -⟩ := exists_prove bf hasher before after hbounds hmax
  rw [hprove] at hrun
  exact ⟨p, hprove, hrun⟩

theorem inRange_of_mem_carried (hk : k ∈ carried before after start end' maxLength) :
    InRange start end' k :=
  of_decide_eq_true (List.mem_filter.mp (List.mem_of_mem_take hk)).2

theorem pairwise_carried :
    (carried before after start end' maxLength).Pairwise fun a b ↦ compare a b = .lt :=
  ((pairwise_changedKeys _ _).filter _).sublist (List.take_sublist _ _)

/-- A proof carries every change exactly if all of them are in the range and there is room. -/
theorem subset_carried_iff :
    changedKeys (kvSet before) (kvSet after) ⊆ carried before after start end' maxLength ↔
      Complete before after start end' maxLength := by
  constructor
  · intro hsubset
    refine ⟨fun k hk ↦ inRange_of_mem_carried (hsubset hk), ?_⟩
    have hnodup := TreeMap.nodup_changedKeys (kvSet before) (kvSet after)
    exact (hnodup.subperm hsubset).length_le.trans (List.length_take_le _ _)
  · rintro ⟨hrange, hlength⟩ k hk
    rwa [carried, List.filter_eq_self.mpr fun k hk ↦ decide_eq_true (hrange k hk),
      List.take_of_length_le hlength]

section Merge

variable (hp : p.keyChanges = (carried before after start end' maxLength).map
  fun k ↦ (k, (kvSet after)[k]?))

include hp

/-- The map after the carried changes. -/
theorem getElem?_merge : (p.merge before)[k]? =
    if k ∈ carried before after start end' maxLength then (kvSet after)[k]?
    else (kvSet before)[k]? := by
  rw [merge, hp]
  split
  next hk =>
    refine Overlay.getElem?_edits_of_mem ?_ (List.mem_map.mpr ⟨k, hk, rfl⟩) _
    refine List.Pairwise.map _ (fun a b hlt heq ↦ ?_) pairwise_carried
    change a = b at heq
    rw [heq, ReflOrd.compare_self] at hlt
    cases hlt
  next hk =>
    refine Overlay.getElem?_edits_of_forall_ne (fun e he heq ↦ hk ?_) _
    obtain ⟨k', hk', rfl⟩ := List.mem_map.mp he
    exact heq ▸ hk'

theorem merge_eq_iff :
    p.merge before = kvSet after ↔ Complete before after start end' maxLength := by
  rw [← subset_carried_iff]
  constructor
  · intro heq k hk
    by_contra hnot
    refine mem_changedKeys.mp hk ?_
    rw [← heq, getElem?_merge hp, if_neg hnot]
  · intro hsubset
    refine ExtTreeMap.ext_getElem? fun k ↦ ?_
    rw [getElem?_merge hp]
    split
    · rfl
    next hk => exact not_not.mp fun hne ↦ hk (hsubset (mem_changedKeys.mpr hne))

/-- Order and range of the carried keys are right, so only the root is left to be compared. -/
theorem verify_iff (hbounds : BoundsOrdered start end') (root : Id) :
    p.verify before start end' root bf hasher = .ok () ↔
      merkleRoot bf hasher (p.merge before).toList = root := by
  have hkeys : p.keyChanges.map Prod.fst = carried before after start end' maxLength := by
    rw [hp, List.map_map]
    exact List.map_id _
  have hchain : (p.keyChanges.map Prod.fst).IsChain fun a b ↦ compare a b = .lt := by
    rw [hkeys]
    exact pairwise_carried.isChain
  have hrange : ∀ kc ∈ p.keyChanges, InRange start end' kc.1 := by
    intro kc hkc
    have hmem : kc.1 ∈ p.keyChanges.map Prod.fst := List.mem_map_of_mem hkc
    rw [hkeys] at hmem
    exact inRange_of_mem_carried hmem
  simp only [verify, Except.bind_unit_eq_ok_iff, Except.require_eq_ok_iff]
  exact ⟨fun h ↦ h.2.2.2, fun h ↦ ⟨hbounds, hchain, hrange, h⟩⟩

end Merge

end Carried

/-- **A change proof is accepted exactly if it carries every change.** `prove` returns a proof for
any two sets of pairs, any bounds in order and any positive number of changes. The verifier accepts
it for the root of the second set if every change lies between the bounds and there is room for all
of them; with no collision among the maps in question, in no other case. -/
theorem prove_accepted_iff_complete (bf : BranchFactor) (hasher : Hasher)
    (before after : List (Bytes × Bytes)) {start end' : Option Bytes} {maxLength : ℕ}
    (hbounds : BoundsOrdered start end') (hmax : 0 < maxLength) :
    ∃ p, prove bf hasher before after start end' maxLength = .ok p ∧
      (Complete before after start end' maxLength →
        p.verify before start end' (merkleRoot bf hasher after) bf hasher = .ok ()) ∧
      (NoCollision bf hasher before after →
        p.verify before start end' (merkleRoot bf hasher after) bf hasher = .ok () →
          Complete before after start end' maxLength) := by
  obtain ⟨p, hprove, hp⟩ := exists_prove bf hasher before after hbounds hmax.ne'
  refine ⟨p, hprove, fun hcomplete ↦ ?_, fun hnone haccepted ↦ ?_⟩
  · rw [verify_iff hp hbounds]
    refine merkleRoot_congr ?_
    rw [kvSet_toList]
    exact (merge_eq_iff hp).mpr hcomplete
  · rw [← merge_eq_iff hp]
    refine hnone _ (fun k ↦ ?_) ((verify_iff hp hbounds _).mp haccepted)
    rw [getElem?_merge hp]
    split
    · exact .inr rfl
    · exact .inl rfl

/-- A hasher that looks at the length of the key only. -/
def lengthHasher : Hasher where
  hashNode _ _ key := BitVec.ofNat 256 (key.length + 1)
  hashValue _ := 0

/-- Two sets that differ at one key only. -/
theorem noCollision_of_single {bf : BranchFactor} {hasher : Hasher}
    {before after : List (Bytes × Bytes)} (k₀ : Bytes)
    (hk : ∀ k, k ≠ k₀ → (kvSet before)[k]? = (kvSet after)[k]?)
    (hroot : merkleRoot bf hasher before ≠ merkleRoot bf hasher after) :
    NoCollision bf hasher before after := by
  intro m hm hm_root
  rcases hm k₀ with hk₀ | hk₀
  · refine absurd (hm_root.symm.trans (merkleRoot_congr ?_)) hroot.symm
    rw [kvSet_toList]
    refine ExtTreeMap.ext_getElem? fun k ↦ ?_
    by_cases hne : k = k₀
    · rw [hne, hk₀]
    · exact (hm k).elim id fun heq ↦ heq.trans (hk k hne).symm
  · refine ExtTreeMap.ext_getElem? fun k ↦ ?_
    by_cases hne : k = k₀
    · rw [hne, hk₀]
    · exact (hm k).elim (fun heq ↦ heq.trans (hk k hne)) id

/-- One of two pairs is removed and the proof for the keys from `[0]` to `[1]` carries it. -/
theorem prove_accepted_iff_complete_example :
    let before : List (Bytes × Bytes) := [([1], [1]), ([2], [2])]
    let after : List (Bytes × Bytes) := [([2], [2])]
    NoCollision .twoFiftySix lengthHasher before after ∧
      ∃ p, prove .twoFiftySix lengthHasher before after (some [0]) (some [1]) 1 = .ok p ∧
        (p.verify before (some [0]) (some [1]) (merkleRoot .twoFiftySix lengthHasher after)
          .twoFiftySix lengthHasher = .ok () ↔ Complete before after (some [0]) (some [1]) 1) ∧
        Complete before after (some [0]) (some [1]) 1 := by
  intro before after
  have hnone : NoCollision .twoFiftySix lengthHasher before after := by
    refine noCollision_of_single [1] (fun k hk ↦ ?_) (by decide +kernel)
    rw [getElem?_kvSet, getElem?_kvSet]
    simp [before, after, Trie.lastInserted, Ne.symm hk]
  obtain ⟨p, hprove, haccepted, hcomplete⟩ := prove_accepted_iff_complete .twoFiftySix lengthHasher
    before after (show BoundsOrdered (some [0]) (some [1]) by decide) Nat.one_pos
  exact ⟨hnone, p, hprove, ⟨hcomplete hnone, haccepted⟩, by decide +kernel⟩

/-- Two pairs are added. A proof for the range up to the first one is rejected, and so is one that
is cut after the first change. -/
theorem rejected_outside_range_and_cut :
    (∃ p, prove .twoFiftySix lengthHasher [] [([1], [1]), ([2], [2])] none (some [1]) 10 = .ok p ∧
      p.verify [] none (some [1])
        (merkleRoot .twoFiftySix lengthHasher [([1], [1]), ([2], [2])]) .twoFiftySix lengthHasher
          = .error .invalidProof) ∧
    ∃ p, prove .twoFiftySix lengthHasher [] [([1], [1]), ([2], [2])] none none 1 = .ok p ∧
      p.verify [] none none
        (merkleRoot .twoFiftySix lengthHasher [([1], [1]), ([2], [2])]) .twoFiftySix lengthHasher
          = .error .invalidProof := by
  exact ⟨rejected_of_run (by decide) (by decide) (by decide +kernel),
    rejected_of_run (by decide) (by decide) (by decide +kernel)⟩

end ChangeProof

end Avalanche.Merkle
