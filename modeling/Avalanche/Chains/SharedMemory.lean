import Avalanche.Library.Loop
import Avalanche.Library.Wire
import Avalanche.Types.Id

/-!
# Atomic memory

Pairs of chains share a memory in a base database. Each pair has two channels, one for each
direction; a chain removes elements from the channel it receives in and puts elements into the
channel it sends in. The element is a row under its key, and every trait of the element has a row in
an index. Removing an element that has not come yet leaves a tombstone, with which a later put
cancels.

All requests are looked up in the database as it is, staged in one batch and written together with
the batches that the caller hands in.

The database is a map. The source puts the rows of a channel under hashed prefixes; here the channel
is a part of the key, and what the chains keep beside their memory is under other keys.
-/

namespace Avalanche.Chains

open Std

abbrev Bytes := List UInt8

/-! ### The base database -/

inductive Side
  | inbound
  | outbound
deriving DecidableEq

/-- A direction of the memory shared with a chain. -/
structure Channel where
  peer : Id
  side : Side
deriving DecidableEq

inductive DbKey (κ : Type)
  | value (channel : Channel) (key : Bytes)
  | index (channel : Channel) (row : Bytes)
  | other (key : κ)
deriving DecidableEq

structure DbElement where
  present : Bool
  value : Bytes
  traits : List Bytes
deriving DecidableEq

inductive DbValue (ν : Type)
  | element (e : DbElement)
  | row
  | other (value : ν)
deriving DecidableEq

/-- A write of a batch, or a deletion. -/
structure BatchOp (κ ν : Type) where
  key : DbKey κ
  value : Option (DbValue ν)
deriving DecidableEq

abbrev Db (κ ν : Type) := DbKey κ → Option (DbValue ν)

variable {κ ν : Type} [DecidableEq κ]

/-- The writes of a batch, in order. -/
def Db.write (db : Db κ ν) (ops : List (BatchOp κ ν)) : Db κ ν :=
  ops.foldl (fun db op ↦ Function.update db op.key op.value) db

/-! ### Requests -/

structure Element where
  key : Bytes
  value : Bytes
  traits : List Bytes
deriving DecidableEq

structure Requests where
  remove : List Bytes := []
  put : List Element := []
deriving DecidableEq

inductive Error
  | duplicateAtomicOp
  | malformed
deriving DecidableEq

/-- A single request. -/
inductive Request
  | remove (peer : Id) (key : Bytes)
  | put (peer : Id) (elem : Element)
deriving DecidableEq

/-- `index_key`, within its channel. -/
def indexKey (t key : Bytes) : Bytes := Wire.be 4 t.length ++ t ++ key

/-- The index keys of traits of one key are not those of another. -/
theorem indexKey_inj {t t' key key' : Bytes} (ht : t.length < 2 ^ 32) (ht' : t'.length < 2 ^ 32)
    (h : indexKey t key = indexKey t' key') : t = t' ∧ key = key' := by
  rw [indexKey, indexKey, List.append_assoc, List.append_assoc] at h
  obtain ⟨hlength, h⟩ := List.append_inj h (by rw [Wire.length_be, Wire.length_be])
  have hnat := congrArg Wire.ofBe hlength
  rw [Wire.ofBe_be, Wire.ofBe_be, Nat.mod_eq_of_lt (by omega), Nat.mod_eq_of_lt (by omega)] at hnat
  exact List.append_inj h hnat

def setValue (db : Db κ ν) (channel : Channel) (elem : Element) :
    Except Error (List (BatchOp κ ν)) :=
  match db (.value channel elem.key) with
  | some (.element existing) =>
    if existing.present then .error .duplicateAtomicOp
    else .ok [⟨.value channel elem.key, none⟩]
  | some _ => .error .malformed
  | none =>
    .ok (elem.traits.map (fun t ↦ ⟨.index channel (indexKey t elem.key), some .row⟩) ++
      [⟨.value channel elem.key, some (.element ⟨true, elem.value, elem.traits⟩)⟩])

def removeValue (db : Db κ ν) (channel : Channel) (key : Bytes) :
    Except Error (List (BatchOp κ ν)) :=
  match db (.value channel key) with
  | none => .ok [⟨.value channel key, some (.element ⟨false, [], []⟩)⟩]
  | some (.element existing) =>
    if existing.present then
      .ok (existing.traits.map (fun t ↦ ⟨.index channel (indexKey t key), none⟩) ++
        [⟨.value channel key, none⟩])
    else .error .duplicateAtomicOp
  | some _ => .error .malformed

/-- What a request stages, over the database as it is. -/
def stage (db : Db κ ν) : Request → Except Error (List (BatchOp κ ν))
  | .remove peer key => removeValue db ⟨peer, .inbound⟩ key
  | .put peer elem => setValue db ⟨peer, .outbound⟩ elem

/-- The order in which the loops of `apply_inner` come to the requests. -/
def requestsInOrder (requests : ExtTreeMap Id Requests) : List Request :=
  requests.toList.flatMap fun p ↦ p.2.remove.map (.remove p.1) ++ p.2.put.map (.put p.1)

/-- Everything is staged before anything is written. -/
def applyInner (db : Db κ ν) (requests : ExtTreeMap Id Requests)
    (batches : List (List (BatchOp κ ν))) :
    Except Error (Db κ ν) := do
  let staged ← (requestsInOrder requests).mapM (stage db)
  .ok (db.write (staged.flatten ++ batches.flatten))

/-! ### Writes -/

namespace Db

@[simp] theorem write_nil (db : Db κ ν) : db.write [] = db := rfl

theorem write_append (db : Db κ ν) (ops ops' : List (BatchOp κ ν)) :
    db.write (ops ++ ops') = (db.write ops).write ops' := List.foldl_append

theorem write_cons (db : Db κ ν) (op : BatchOp κ ν) (ops : List (BatchOp κ ν)) :
    db.write (op :: ops) = write (Function.update db op.key op.value) ops := rfl

/-- What a batch leaves under a key depends on what was there. -/
theorem write_congr {db db' : Db κ ν} {key : DbKey κ} (h : db key = db' key)
    (ops : List (BatchOp κ ν)) : db.write ops key = db'.write ops key := by
  induction ops generalizing db db' with
  | nil => exact h
  | cons op ops ih =>
    rw [write_cons, write_cons]
    refine ih ?_
    by_cases hkey : key = op.key
    · rw [hkey, Function.update_self, Function.update_self]
    · rw [Function.update_of_ne hkey, Function.update_of_ne hkey, h]

/-- A batch leaves the keys it does not write. -/
theorem write_of_forall_ne {ops : List (BatchOp κ ν)} {key : DbKey κ} (h : ∀ op ∈ ops, op.key ≠ key)
    (db : Db κ ν) : db.write ops key = db key := by
  induction ops generalizing db with
  | nil => rfl
  | cons op ops ih =>
    rw [write_cons, ih fun op' hop' ↦ h op' (List.mem_cons_of_mem op hop'),
      Function.update_of_ne (h op List.mem_cons_self).symm]

/-- If all writes to a key agree, that is what it holds. -/
theorem write_of_forall_eq {ops : List (BatchOp κ ν)} {key : DbKey κ} {v : Option (DbValue ν)}
    (h : ∀ op ∈ ops, op.key = key → op.value = v) {op : BatchOp κ ν} (hop : op ∈ ops)
    (hkey : op.key = key) (db : Db κ ν) : db.write ops key = v := by
  induction ops using List.reverseRecOn generalizing op with
  | nil => cases hop
  | append_singleton ops last ih =>
    rw [write_append, write_cons, write_nil]
    by_cases hlast : last.key = key
    · rw [← hlast, Function.update_self]
      exact h last (by simp) hlast
    · rw [Function.update_of_ne (Ne.symm hlast)]
      rcases List.mem_append.mp hop with hop | hop
      · exact ih (fun op' hop' ↦ h op' (List.mem_append_left _ hop')) hop hkey
      · obtain rfl := List.mem_singleton.mp hop
        exact absurd hkey hlast

end Db

end Avalanche.Chains
