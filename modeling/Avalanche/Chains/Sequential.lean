import Avalanche.Chains.SharedMemory

/-!
# Applying requests one at a time

A key of a channel is absent, present with a value and traits, or a tombstone. Processing requests
one at a time is a walk on these slots. Applying a batch should have the same outcome: fail without
a trace if the walk gets stuck, and otherwise leave the rows of the slots the walk ends in, with an
index row for every trait of every present element, beside what the side batches write.

The batch looks every request up in the database as it was before, so it does not see what earlier
requests have staged. This shows exactly if a key comes up twice: `apply_agrees_iff`.
-/

namespace Avalanche.Chains

open Std

/-! ### Slots -/

inductive Slot
  | absent
  | present (value : Bytes) (traits : List Bytes)
  | tombstone
deriving DecidableEq

namespace Slot

def remove : Slot → Option Slot
  | absent => some tombstone
  | present _ _ => some absent
  | tombstone => none

def put (elem : Element) : Slot → Option Slot
  | absent => some (present elem.value elem.traits)
  | present _ _ => none
  | tombstone => some absent

def traits : Slot → List Bytes
  | present _ traits => traits
  | _ => []

theorem exists_of_mem_traits {slot : Slot} {t : Bytes} (h : t ∈ slot.traits) :
    ∃ value traits, slot = present value traits ∧ t ∈ traits := by
  rcases slot with - | ⟨value, traits⟩ | -
  · cases h
  · exact ⟨value, traits, rfl, h⟩
  · cases h

/-- The row of a slot. -/
def row {ν : Type} : Slot → Option (DbValue ν)
  | absent => none
  | present value traits => some (.element ⟨true, value, traits⟩)
  | tombstone => some (.element ⟨false, [], []⟩)

theorem eq_absent_of_row {ν : Type} {slot : Slot} (h : slot.row (ν := ν) = none) :
    slot = absent := by
  cases slot <;> simp_all [row]

end Slot

/-- A key of a channel. -/
abbrev Place := Channel × Bytes

namespace Request

/-- Removals are from the channel a chain receives in, puts into the one it sends in. -/
def place : Request → Place
  | .remove peer key => (⟨peer, .inbound⟩, key)
  | .put peer elem => (⟨peer, .outbound⟩, elem.key)

def act : Request → Slot → Option Slot
  | .remove _ _ => Slot.remove
  | .put _ elem => Slot.put elem

end Request

abbrev Content := Place → Slot

namespace Content

/-- One request. -/
def step (content : Content) (r : Request) : Option Content :=
  (r.act (content r.place)).map (Function.update content r.place)

/-- All requests, one at a time. -/
def run (content : Content) (requests : List Request) : Option Content :=
  requests.foldlM step content

/-- A walk over requests is, at each place, the walk over the requests for it. -/
theorem run_at {requests : List Request} {content content' : Content}
    (h : content.run requests = some content') (p : Place) :
    (requests.filter (·.place = p)).foldlM (fun slot r ↦ r.act slot) (content p)
      = some (content' p) := by
  induction requests generalizing content with
  | nil =>
    obtain rfl : content = content' := Option.some.inj h
    rfl
  | cons r requests ih =>
    rw [run, List.foldlM_cons, Option.bind_eq_bind, Option.bind_eq_some_iff] at h
    obtain ⟨mid, hmid, h⟩ := h
    obtain ⟨slot, hslot, rfl⟩ := Option.map_eq_some_iff.mp hmid
    by_cases hp : r.place = p
    · subst hp
      rw [List.filter_cons_of_pos (by simp), List.foldlM_cons, hslot, Option.bind_eq_bind,
        Option.bind_some, ← ih h, Function.update_self]
    · rw [List.filter_cons_of_neg (by simpa using hp), ← ih h, Function.update_of_ne (Ne.symm hp)]

end Content

/-! ### Rows -/

variable {κ ν : Type} [DecidableEq κ]

/-- The database has the rows of the slots, and an index row for every trait of a present element.
-/
structure Represents (db : Db κ ν) (content : Content) : Prop where
  value : ∀ channel key, db (.value channel key) = (content (channel, key)).row
  index : ∀ channel row, (db (.index channel row)).isSome ↔
    ∃ key value traits, content (channel, key) = .present value traits ∧
      ∃ t ∈ traits, row = indexKey t key

variable {db : Db κ ν} {content : Content} {requests : List Request} {r : Request} {p : Place}
  {staged : List (List (BatchOp κ ν))}

/-- No trait is too long for the length in its index key. -/
def Request.Sized : Request → Prop
  | .remove _ _ => True
  | .put _ elem => ∀ t ∈ elem.traits, t.length < 2 ^ 32

def Content.Sized (content : Content) : Prop :=
  ∀ p value traits, content p = .present value traits → ∀ t ∈ traits, t.length < 2 ^ 32

/-- The writes that turn the rows of one slot into those of another. -/
def changes (p : Place) (old new : Slot) : List (BatchOp κ ν) :=
  old.traits.map (fun t ↦ ⟨.index p.1 (indexKey t p.2), none⟩) ++
    (new.traits.map (fun t ↦ ⟨.index p.1 (indexKey t p.2), some .row⟩) ++
      [⟨.value p.1 p.2, new.row⟩])

omit [DecidableEq κ] in
/-- A request stages the change of its slot. -/
theorem stage_eq (h : Represents db content) (r : Request) :
    stage db r = match r.act (content r.place) with
      | none => .error .duplicateAtomicOp
      | some slot => .ok (changes r.place (content r.place) slot) := by
  cases r with
  | remove peer key =>
    have hrow := h.value ⟨peer, .inbound⟩ key
    rw [stage, removeValue, hrow, Request.act, Request.place]
    cases content (⟨peer, .inbound⟩, key) <;> rfl
  | put peer elem =>
    have hrow := h.value ⟨peer, .outbound⟩ elem.key
    rw [stage, setValue, hrow, Request.act, Request.place]
    cases content (⟨peer, .outbound⟩, elem.key) <;> rfl

omit [DecidableEq κ] in
theorem key_of_mem_changes {old new : Slot} {op : BatchOp κ ν}
    (h : op ∈ changes p old new) :
    op = ⟨.value p.1 p.2, new.row⟩ ∨ ∃ t, op.key = .index p.1 (indexKey t p.2) := by
  simp only [changes, List.mem_append, List.mem_map, List.mem_singleton] at h
  rcases h with ⟨t, -, rfl⟩ | ⟨t, -, rfl⟩ | rfl
  · exact .inr ⟨t, rfl⟩
  · exact .inr ⟨t, rfl⟩
  · exact .inl rfl

theorem write_changes_value (db : Db κ ν) (p : Place) (old new : Slot) (channel : Channel)
    (key : Bytes) :
    db.write (changes p old new) (.value channel key)
      = if p = (channel, key) then new.row else db (.value channel key) := by
  split
  · rename_i heq
    subst heq
    refine Db.write_of_forall_eq (fun op hop hkey ↦ ?_)
      (List.mem_append_right _ (List.mem_append_right _ (List.mem_singleton_self _))) rfl db
    rcases key_of_mem_changes hop with rfl | ⟨t, ht⟩
    · rfl
    · cases ht.symm.trans hkey
  · rename_i hne
    refine Db.write_of_forall_ne (fun op hop hkey ↦ ?_) db
    rcases key_of_mem_changes hop with rfl | ⟨t, ht⟩
    · cases hkey
      exact hne rfl
    · cases ht.symm.trans hkey

/-- Writing the index rows of the traits of a key. -/
theorem write_index (db : Db κ ν) (p : Place) (traits : List Bytes) (v : Option (DbValue ν))
    (channel : Channel) (row : Bytes) :
    db.write (traits.map fun t ↦ ⟨.index p.1 (indexKey t p.2), v⟩) (.index channel row)
      = if channel = p.1 ∧ ∃ t ∈ traits, row = indexKey t p.2 then v
        else db (.index channel row) := by
  split
  · rename_i hrow
    obtain ⟨rfl, t, ht, rfl⟩ := hrow
    refine Db.write_of_forall_eq (fun op hop _ ↦ ?_) (List.mem_map_of_mem ht) rfl db
    obtain ⟨_, -, rfl⟩ := List.mem_map.mp hop
    rfl
  · rename_i hrow
    refine Db.write_of_forall_ne (fun op hop hkey ↦ hrow ?_) db
    obtain ⟨t, ht, rfl⟩ := List.mem_map.mp hop
    cases hkey
    exact ⟨rfl, t, ht, rfl⟩

theorem write_changes_index (db : Db κ ν) (p : Place) (old new : Slot) (channel : Channel)
    (row : Bytes) :
    (db.write (changes p old new) (.index channel row)).isSome ↔
      (channel = p.1 ∧ ∃ t ∈ new.traits, row = indexKey t p.2) ∨
        (¬(channel = p.1 ∧ ∃ t ∈ old.traits, row = indexKey t p.2) ∧
          (db (.index channel row)).isSome) := by
  have hvalue : ∀ db' : Db κ ν, db'.write [⟨.value p.1 p.2, new.row⟩] (.index channel row)
      = db' (.index channel row) := fun db' ↦
    Db.write_of_forall_ne (by simp) db'
  rw [changes, Db.write_append, Db.write_append, hvalue, write_index, write_index]
  split
  · simp [*]
  · rename_i hnew
    split
    · rename_i hold
      refine iff_of_false Bool.false_ne_true ?_
      rintro (h | h)
      · exact hnew h
      · exact h.1 hold
    · rename_i hold
      exact ⟨fun hsome ↦ .inr ⟨hold, hsome⟩, fun h ↦ (h.resolve_left hnew).2⟩

/-- A change of a slot keeps the rows in step. -/
theorem Represents.write (h : Represents db content)
    (hsized : content.Sized) (p : Place) (new : Slot) :
    Represents (db.write (changes p (content p) new)) (Function.update content p new) where
  value channel key := by
    rw [write_changes_value]
    split
    · rename_i heq
      rw [← heq, Function.update_self]
    · rename_i hne
      rw [Function.update_of_ne (Ne.symm hne)]
      exact h.value channel key
  index channel row := by
    obtain ⟨c, k⟩ := p
    rw [write_changes_index, h.index]
    constructor
    · rintro (⟨rfl, t, ht, rfl⟩ | ⟨hold, key, value, traits, hslot, t, ht, rfl⟩)
      · obtain ⟨value, traits, rfl, ht⟩ := Slot.exists_of_mem_traits ht
        exact ⟨k, value, traits, by rw [Function.update_self], t, ht, rfl⟩
      · have hne : (channel, key) ≠ (c, k) := by
          intro heq
          cases heq
          exact hold ⟨rfl, t, by rw [hslot]; exact ht, rfl⟩
        exact ⟨key, value, traits, by rw [Function.update_of_ne hne]; exact hslot, t, ht, rfl⟩
    · rintro ⟨key, value, traits, hslot, t, ht, rfl⟩
      by_cases heq : (channel, key) = (c, k)
      · cases heq
        rw [Function.update_self] at hslot
        exact .inl ⟨rfl, t, by rw [hslot]; exact ht, rfl⟩
      · rw [Function.update_of_ne heq] at hslot
        refine .inr ⟨?_, key, value, traits, hslot, t, ht, rfl⟩
        -- another key does not share the row
        rintro ⟨rfl, t', ht', hrow⟩
        obtain ⟨value', traits', hold, ht'⟩ := Slot.exists_of_mem_traits ht'
        have hkey := (indexKey_inj (hsized _ _ _ hslot t ht) (hsized _ _ _ hold t' ht') hrow).2
        exact heq (by rw [hkey])

/-! ### Requests for one place -/

/-- The number of requests that a slot takes. -/
def Slot.room : Side → Slot → ℕ
  | .inbound, present _ _ | .outbound, tombstone => 2
  | _, absent => 1
  | .inbound, tombstone | .outbound, present _ _ => 0

theorem Slot.room_le_two (side : Side) (slot : Slot) : slot.room side ≤ 2 := by
  cases side <;> cases slot <;> simp [room]

theorem Slot.room_eq_one_iff (slot : Slot) (side : Side) : slot.room side = 1 ↔ slot = .absent := by
  cases side <;> cases slot <;> simp [room]

/-- A request is refused if there is no room, and otherwise takes some. -/
theorem Request.act_cases (r : Request) (slot : Slot) :
    (r.act slot = none ∧ slot.room r.place.1.side = 0) ∨
      ∃ slot', r.act slot = some slot' ∧
        slot.room r.place.1.side = slot'.room r.place.1.side + 1 := by
  cases r <;> cases slot <;> simp [act, place, Slot.remove, Slot.put, Slot.room]

/-- A walk takes the room of its requests at each place. -/
theorem Content.run_room {content content' : Content}
    (h : content.run requests = some content') (p : Place) :
    (content p).room p.1.side
      = (content' p).room p.1.side + (requests.filter (·.place = p)).length := by
  have hwalk := run_at h p
  have hplace : ∀ r ∈ requests.filter (·.place = p), r.place = p := fun r hr ↦ by
    simpa using (List.mem_filter.mp hr).2
  generalize requests.filter (·.place = p) = l at hwalk hplace
  generalize content p = slot at hwalk
  induction l generalizing slot with
  | nil =>
    rw [Option.some.inj hwalk]
    rfl
  | cons r l ih =>
    obtain ⟨rfl, hplace⟩ := List.forall_mem_cons.mp hplace
    rw [List.foldlM_cons, Option.bind_eq_bind, Option.bind_eq_some_iff] at hwalk
    obtain ⟨mid, hmid, hwalk⟩ := hwalk
    rcases r.act_cases slot with ⟨hnone, -⟩ | ⟨slot', hslot', hroom⟩
    · cases hnone.symm.trans hmid
    · cases hslot'.symm.trans hmid
      rw [hroom, ih hplace _ hwalk, List.length_cons]
      omega

/-- A request that the slot it finds refuses stops the walk. -/
theorem Content.run_eq_none_of_refused
    (hr : r ∈ requests) (h : r.act (content r.place) = none) : content.run requests = none := by
  rcases hrun : content.run requests with - | content'
  · rfl
  have hroom := run_room hrun r.place
  have hpos : 0 < (requests.filter (·.place = r.place)).length :=
    List.length_pos_of_mem (List.mem_filter.mpr ⟨hr, by simp⟩)
  rcases r.act_cases (content r.place) with ⟨-, hzero⟩ | ⟨slot, hslot, -⟩
  · omega
  · cases h.symm.trans hslot

/-- What a walk leaves at a place that two requests are for: each of them alone would leave nothing
there. -/
theorem Content.run_at_twice {content content' : Content}
    (h : content.run requests = some content')
    (hp : 2 ≤ (requests.filter (·.place = p)).length) :
    content' p ≠ .absent ∧ ∀ r : Request, r.place = p → r.act (content p) = some .absent := by
  have hroom := run_room h p
  have hle := (content p).room_le_two p.1.side
  refine ⟨fun habsent ↦ ?_, ?_⟩
  · rw [← Slot.room_eq_one_iff _ p.1.side] at habsent
    omega
  · rintro r rfl
    rcases r.act_cases (content r.place) with ⟨-, hzero⟩ | ⟨slot, hslot, htaken⟩
    · omega
    · rw [hslot, (slot.room_eq_one_iff _).mp (by omega : slot.room r.place.1.side = 1)]

/-! ### The batch -/

/-- Processing the requests one at a time and applying them as a batch have the same outcome. -/
def Agrees (db : Db κ ν) (content : Content) (requests : ExtTreeMap Id Requests)
    (batches : List (List (BatchOp κ ν))) : Prop :=
  match content.run (requestsInOrder requests) with
  | none => ∃ e, applyInner db requests batches = .error e
  | some content' => ∃ db', applyInner db requests batches = .ok db' ∧ Represents db' content' ∧
      ∀ key, db' (.other key) = db.write batches.flatten (.other key)

omit [DecidableEq κ] in
/-- A request looks at the row of its place only. -/
theorem stage_congr {db db' : Db κ ν}
    (h : db (.value r.place.1 r.place.2) = db' (.value r.place.1 r.place.2)) :
    stage db r = stage db' r := by
  cases r <;> simp only [Request.place] at h <;> simp only [stage, removeValue, setValue, h]

theorem Content.Sized.update (h : content.Sized) (hr : r.Sized)
    {slot : Slot} (hslot : r.act (content r.place) = some slot) :
    Content.Sized (Function.update content r.place slot) := by
  intro p value traits hp
  by_cases heq : p = r.place
  · subst heq
    rw [Function.update_self] at hp
    subst hp
    cases r with
    | remove peer key =>
      cases hold : content (Request.place (.remove peer key)) <;> rw [hold] at hslot <;> cases hslot
    | put peer elem =>
      cases hold : content (Request.place (.put peer elem)) <;> rw [hold] at hslot <;> cases hslot
      exact hr
  · rw [Function.update_of_ne heq] at hp
    exact h p value traits hp

/-- Requests for different places do not see each other's rows. -/
theorem mapM_stage {db₀ db : Db κ ν}
    (h : Represents db content) (hsized : content.Sized) (hrequests : ∀ r ∈ requests, r.Sized)
    (hsame : ∀ r ∈ requests, db₀ (.value r.place.1 r.place.2) = db (.value r.place.1 r.place.2))
    (hnodup : (requests.map Request.place).Nodup) :
    match content.run requests with
    | none => ∃ e, requests.mapM (stage db₀) = .error e
    | some content' => ∃ staged, requests.mapM (stage db₀) = .ok staged ∧
        Represents (db.write staged.flatten) content' := by
  induction requests generalizing db content with
  | nil => exact ⟨[], rfl, h⟩
  | cons r requests ih =>
    rw [List.map_cons, List.nodup_cons] at hnodup
    have hstage : stage db₀ r = stage db r := stage_congr (hsame r List.mem_cons_self)
    rw [stage_eq h] at hstage
    rcases hact : r.act (content r.place) with - | slot
    · rw [Content.run_eq_none_of_refused List.mem_cons_self hact]
      rw [hact] at hstage
      refine ⟨.duplicateAtomicOp, ?_⟩
      rw [List.mapM_cons, hstage, Except.error_bind]
    rw [hact] at hstage
    -- the rest of the requests finds the rows it would have found before
    have hrest := ih (h.write hsized r.place slot)
      (hsized.update (hrequests r List.mem_cons_self) hact)
      (fun r' hr' ↦ hrequests r' (List.mem_cons_of_mem r hr')) (fun r' hr' ↦ ?_) hnodup.2
    · have hrun : content.run (r :: requests)
          = Content.run (Function.update content r.place slot) requests := by
        rw [Content.run, List.foldlM_cons, Content.step, hact]
        rfl
      rw [hrun]
      rcases hresult : Content.run (Function.update content r.place slot) requests with - | content'
      · rw [hresult] at hrest
        obtain ⟨e, he⟩ := hrest
        refine ⟨e, ?_⟩
        rw [List.mapM_cons, hstage, Except.ok_bind, he, Except.error_bind]
      · rw [hresult] at hrest
        obtain ⟨staged, hstaged, hrep⟩ := hrest
        refine ⟨changes r.place (content r.place) slot :: staged, ?_, ?_⟩
        · rw [List.mapM_cons, hstage, Except.ok_bind, hstaged, Except.ok_bind]
          rfl
        · rw [List.flatten_cons, Db.write_append]
          exact hrep
    · rw [hsame r' (List.mem_cons_of_mem r hr'), write_changes_value, if_neg]
      intro heq
      exact hnodup.1 (heq ▸ List.mem_map_of_mem hr')

/-- Writes to other keys leave the rows of the memory. -/
theorem write_other {ops : List (BatchOp κ ν)} (hops : ∀ op ∈ ops, ∃ key, op.key = .other key)
    (db : Db κ ν) {key : DbKey κ} (hkey : ∀ k, key ≠ .other k) : db.write ops key = db key := by
  refine Db.write_of_forall_ne (fun op hop heq ↦ ?_) db
  obtain ⟨k, hk⟩ := hops op hop
  exact hkey k (heq.symm.trans hk)

theorem Represents.write_other (h : Represents db content)
    {ops : List (BatchOp κ ν)} (hops : ∀ op ∈ ops, ∃ key, op.key = .other key) :
    Represents (db.write ops) content where
  value channel key := by
    rw [Chains.write_other hops db (by simp)]
    exact h.value channel key
  index channel row := by
    rw [Chains.write_other hops db (by simp)]
    exact h.index channel row

omit [DecidableEq κ] in
/-- What is staged are the changes of the slots that the requests find. -/
theorem mem_staged_iff
    (h : Represents db content)
    (hstaged : requests.mapM (stage db) = .ok staged) {op : BatchOp κ ν} :
    op ∈ staged.flatten ↔ ∃ r ∈ requests, ∃ slot, r.act (content r.place) = some slot ∧
      op ∈ changes r.place (content r.place) slot := by
  rw [Except.mapM_eq_ok_iff] at hstaged
  have hmem : ∀ ops, ops ∈ staged ↔ ∃ r ∈ requests, stage db r = .ok ops := by
    intro ops
    rw [← List.mem_map_of_injective (f := Except.ok (ε := Error)) fun _ _ ↦ Except.ok.inj,
      ← hstaged, List.mem_map]
  rw [List.mem_flatten]
  constructor
  · rintro ⟨ops, hops, hop⟩
    obtain ⟨r, hr, hstage⟩ := (hmem ops).mp hops
    rw [stage_eq h] at hstage
    rcases hact : r.act (content r.place) with - | slot
    · rw [hact] at hstage
      cases hstage
    · rw [hact] at hstage
      obtain rfl := Except.ok.inj hstage
      exact ⟨r, hr, slot, hact, hop⟩
  · rintro ⟨r, hr, slot, hact, hop⟩
    refine ⟨_, (hmem _).mpr ⟨r, hr, ?_⟩, hop⟩
    rw [stage_eq h, hact]

theorem write_staged_other {db₀ : Db κ ν}
    (h : Represents db₀ content)
    (hstaged : requests.mapM (stage db₀) = .ok staged) (db : Db κ ν) (key : κ) :
    db.write staged.flatten (.other key) = db (.other key) := by
  refine Db.write_of_forall_ne (fun op hop hkey ↦ ?_) db
  obtain ⟨r, -, slot, -, hop⟩ := (mem_staged_iff h hstaged).mp hop
  rcases key_of_mem_changes hop with rfl | ⟨t, ht⟩
  · cases hkey
  · cases ht.symm.trans hkey

/-- Two requests for one place that the slot takes one by one are both taken by the batch, and leave
nothing there. -/
theorem write_staged_twice
    (h : Represents db content)
    (hstaged : requests.mapM (stage db) = .ok staged)
    (hp : ∀ r : Request, r.place = p → r.act (content p) = some .absent)
    (hr : r ∈ requests) (hrp : r.place = p) :
    db.write staged.flatten (.value p.1 p.2) = none := by
  subst hrp
  have hmem : (⟨.value r.place.1 r.place.2, none⟩ : BatchOp κ ν) ∈ staged.flatten := by
    refine (mem_staged_iff h hstaged).mpr ⟨r, hr, .absent, hp r rfl, ?_⟩
    exact List.mem_append_right _ (List.mem_append_right _ (List.mem_singleton_self _))
  refine Db.write_of_forall_eq (fun op hop hkey ↦ ?_) hmem rfl db
  obtain ⟨r', -, slot, hact, hop⟩ := (mem_staged_iff h hstaged).mp hop
  rcases key_of_mem_changes hop with rfl | ⟨t, ht⟩
  · have hplace : r'.place = r.place := by
      cases hkey' : r'.place
      cases hkey'' : r.place
      simp_all
    rw [hplace, hp r' hplace] at hact
    obtain rfl := Option.some.inj hact
    rfl
  · cases ht.symm.trans hkey

/-- For every content of the memory, every map of requests and every list of side batches (on other
keys): the batch has the outcome of the requests one at a time exactly if one of them is refused by
the memory as it is, or no key comes up twice. -/
theorem apply_agrees_iff (h : Represents db content)
    (hsized : content.Sized) {requests : ExtTreeMap Id Requests}
    (hrequests : ∀ r ∈ requestsInOrder requests, r.Sized) {batches : List (List (BatchOp κ ν))}
    (hbatches : ∀ op ∈ batches.flatten, ∃ key, op.key = .other key) :
    Agrees db content requests batches ↔
      (∃ r ∈ requestsInOrder requests, r.act (content r.place) = none) ∨
        ((requestsInOrder requests).map Request.place).Nodup := by
  constructor
  · intro hagrees
    by_contra hnot
    push Not at hnot
    obtain ⟨haccepted, hdup⟩ := hnot
    -- the batch goes through
    have hstages : ∀ r ∈ requestsInOrder requests, ∃ ops, stage db r = .ok ops := by
      intro r hr
      obtain ⟨slot, hslot⟩ := Option.ne_none_iff_exists'.mp (haccepted r hr)
      exact ⟨_, by rw [stage_eq h, hslot]⟩
    obtain ⟨staged, hstaged⟩ := Except.exists_mapM_eq_ok_iff.mpr hstages
    have happly : applyInner db requests batches
        = .ok (db.write (staged.flatten ++ batches.flatten)) := by
      rw [applyInner, hstaged, Except.ok_bind]
    obtain ⟨p, hp⟩ := List.exists_duplicate_iff_not_nodup.mpr hdup
    have htwice : 2 ≤ ((requestsInOrder requests).filter (·.place = p)).length := by
      obtain ⟨l, hl, hmap⟩ := List.sublist_map_iff.mp (List.duplicate_iff_sublist.mp hp)
      have hall : ∀ r ∈ l, r.place = p := fun r hr ↦ by
        have hmem : r.place ∈ [p, p] := hmap ▸ List.mem_map_of_mem hr
        simpa using hmem
      have hfilter := (hl.filter fun r ↦ decide (r.place = p)).length_le
      rw [List.filter_eq_self.mpr fun r hr ↦ decide_eq_true (hall r hr)] at hfilter
      have hlength := congrArg List.length hmap
      rw [List.length_map, List.length_cons, List.length_singleton] at hlength
      omega
    rw [Agrees] at hagrees
    rcases hrun : content.run (requestsInOrder requests) with - | content'
    · rw [hrun] at hagrees
      obtain ⟨e, he⟩ := hagrees
      rw [happly] at he
      cases he
    -- the walk leaves something at the place, the batch does not
    rw [hrun] at hagrees
    obtain ⟨db', hdb', hrep, -⟩ := hagrees
    obtain rfl := Except.ok.inj (happly.symm.trans hdb')
    obtain ⟨hne, habsent⟩ := Content.run_at_twice hrun htwice
    obtain ⟨r, hr, hrp⟩ := List.mem_map.mp hp.mem
    have hvalue := hrep.value p.1 p.2
    rw [Db.write_append, write_other hbatches _ (by simp),
      write_staged_twice h hstaged habsent hr hrp] at hvalue
    exact hne (Slot.eq_absent_of_row hvalue.symm)
  · rintro (⟨r, hr, hact⟩ | hnodup)
    · rw [Agrees, Content.run_eq_none_of_refused hr hact]
      rcases happly : applyInner db requests batches with e | db'
      · exact ⟨e, rfl⟩
      rw [applyInner, Except.bind_eq_ok_iff] at happly
      obtain ⟨staged, hstaged, -⟩ := happly
      obtain ⟨ops, hops⟩ := Except.exists_mapM_eq_ok_iff.mp ⟨staged, hstaged⟩ r hr
      rw [stage_eq h, hact] at hops
      cases hops
    · have hstage := mapM_stage h hsized hrequests (fun _ _ ↦ rfl) hnodup
      rw [Agrees]
      rcases hrun : content.run (requestsInOrder requests) with - | content'
      · rw [hrun] at hstage
        obtain ⟨e, he⟩ := hstage
        exact ⟨e, by rw [applyInner, he, Except.error_bind]⟩
      · rw [hrun] at hstage
        obtain ⟨staged, hstaged, hrep⟩ := hstage
        refine ⟨_, by rw [applyInner, hstaged, Except.ok_bind], ?_, fun key ↦ ?_⟩
        · rw [Db.write_append]
          exact hrep.write_other hbatches
        · rw [Db.write_append]
          exact Db.write_congr (write_staged_other h hstaged db key) _

/-! ### A memory with nothing in it -/

theorem represents_nothing : Represents (fun _ ↦ none : Db Unit Unit) fun _ ↦ .absent where
  value _ _ := rfl
  index _ _ := by simp

def putOnce : ExtTreeMap Id Requests :=
  (∅ : ExtTreeMap Id Requests).insert 1 { remove := [[7]], put := [⟨[5], [1], [[2]]⟩] }

/-- A removal and a put, and a side batch with a write of its own. -/
theorem putOnce_agrees : Agrees (fun _ ↦ none : Db Unit Unit) (fun _ ↦ .absent) putOnce
    [[⟨.other (), some (.other ())⟩]] := by
  refine (apply_agrees_iff represents_nothing (by simp [Content.Sized]) ?_ ?_).mpr
    (.inr (by decide +kernel))
  · have horder : requestsInOrder putOnce = [.remove 1 [7], .put 1 ⟨[5], [1], [[2]]⟩] := by
      decide +kernel
    simp [horder, Request.Sized]
  · simp

def putTwice : ExtTreeMap Id Requests :=
  (∅ : ExtTreeMap Id Requests).insert 1 { put := [⟨[5], [1], []⟩, ⟨[5], [2], []⟩] }

/-- One at a time the second put of a key fails; in a batch it goes through. -/
theorem putTwice_not_agrees : Represents (fun _ ↦ none : Db Unit Unit) (fun _ ↦ .absent) ∧
    ¬Agrees (fun _ ↦ none : Db Unit Unit) (fun _ ↦ .absent) putTwice [] := by
  refine ⟨represents_nothing, fun h ↦ ?_⟩
  have hrun : (Content.run (fun _ ↦ .absent) (requestsInOrder putTwice)).isNone = true := by
    decide +kernel
  obtain ⟨e, he⟩ := h
  have happly : (applyInner (fun _ ↦ none : Db Unit Unit) putTwice []).isOk = true := by
    decide +kernel
  rw [he] at happly
  cases happly

end Avalanche.Chains
