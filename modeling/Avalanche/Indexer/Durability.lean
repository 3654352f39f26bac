import Avalanche.Indexer.Index

/-!
# What the index keeps

As long as no commit fails, the rows of the index list the accepted containers in order: `Holds`
ties the state to that list, every event keeps it, and with it every read is a read of the list.
Nothing is pending between two events, so that a reopened index is the one that was closed.

A commit that fails leaves its rows in the overlay. They are read like committed ones, and the next
call for the same container takes them for a container that has been indexed.
-/

namespace Avalanche.Indexer

open Index

/-! ### Events -/

inductive Event
  | accept (works : Bool) (now : Int64) (containerId : Id) (containerBytes : Bytes)
  | reopen
deriving DecidableEq

def step : Event → Handler Error Index Unit
  | .accept works now containerId containerBytes =>
    Index.accept works now containerId containerBytes
  | .reopen => do
    let s ← get
    let s' ← liftM (Index.new s.base)
    set s'

/-- The index over an empty database. -/
def Index.empty : Index := ⟨0, fun _ ↦ none, fun _ ↦ none⟩

/-- The commit for a container that can be written and has not been indexed does not fail, and there
is a number left for it. -/
def Fine (s : Index) : Event → Prop
  | .accept works _ containerId containerBytes =>
    s.read (.index containerId) = .error .notFound → containerBytes.length < 2 ^ 31 →
      works = true ∧ s.nextAcceptedIndex ≠ 0xffffffffffffffff
  | .reopen => True

/-- The container a call indexes. -/
def Event.accepted (s : Index) : Event → List Container
  | .accept works now containerId containerBytes =>
    if s.read (.index containerId) = .error .notFound ∧
        (Index.accept works now containerId containerBytes).outcome s = .ok () then
      [⟨containerId, containerBytes, now⟩]
    else []
  | .reopen => []

/-- The containers indexed along a run, in order. -/
def accepted (s : Index) : List Event → List Container
  | [] => []
  | e :: events => e.accepted s ++ accepted ((step e).exec s) events

/-! ### One call -/

/-- The overlay with the three rows of a container. -/
def Index.staged (s : Index) (containerId : Id) (marshaled : Bytes) : Index :=
  let nextBytes := Wire.u64.put s.nextAcceptedIndex
  let next := saturatingAddOne s.nextAcceptedIndex
  { ((s.put (.container nextBytes) marshaled).put (.index containerId) nextBytes) with
    nextAcceptedIndex := next }.put .nextAcceptedIndex (Wire.u64.put next)

def Index.committed (s : Index) : Index :=
  { s with base := fun key ↦ (s.mem key).or (s.base key), mem := fun _ ↦ none }

/-- What a call does. -/
theorem accept_cases (s : Index) (works : Bool) (now : Int64) (containerId : Id)
    (containerBytes : Bytes) :
    let call := Index.accept works now containerId containerBytes
    (∃ bytes, s.read (.index containerId) = .ok bytes ∧ call.outcome s = .ok () ∧
        call.exec s = s) ∨
      s.read (.index containerId) = .error .notFound ∧
        ((¬ containerBytes.length < 2 ^ 31 ∧
            call.outcome s = .error (.serializeContainer containerId) ∧ call.exec s = s) ∨
          ∃ marshaled, containerBytes.length < 2 ^ 31 ∧
            Container.marshal ⟨containerId, containerBytes, now⟩ = .ok marshaled ∧
            ((works = true ∧ call.outcome s = .ok () ∧
                call.exec s = (s.staged containerId marshaled).committed) ∨
              works = false ∧ call.outcome s = .error (.database .io) ∧
                call.exec s = s.staged containerId marshaled)) := by
  intro call
  rcases hread : s.read (.index containerId) with e | bytes
  · obtain rfl : e = .notFound := by
      rw [Index.read] at hread
      cases hrow : (s.mem (.index containerId)).or (s.base (.index containerId)) with
      | none =>
        rw [hrow] at hread
        exact (Except.error.inj hread).symm
      | some bytes =>
        rw [hrow] at hread
        cases hread
    refine .inr ⟨rfl, ?_⟩
    by_cases hlength : containerBytes.length < 2 ^ 31
    · obtain ⟨marshaled, hm⟩ : ∃ marshaled,
          Container.marshal ⟨containerId, containerBytes, now⟩ = .ok marshaled :=
        ⟨_, dif_pos hlength⟩
      refine .inr ⟨marshaled, hlength, hm, ?_⟩
      cases works with
      | true =>
        refine .inl ⟨rfl, ?_, ?_⟩
        · simp [call, Index.accept, Handler.outcome_bind, hread, hm, commit]
        · simp [call, Index.accept, Handler.exec_bind, hread, hm, commit]
          rfl
      | false =>
        refine .inr ⟨rfl, ?_, ?_⟩
        · simp [call, Index.accept, Handler.outcome_bind, hread, hm, commit]
        · simp [call, Index.accept, Handler.exec_bind, hread, hm, commit]
          rfl
    · have hm : Container.marshal ⟨containerId, containerBytes, now⟩
          = .error (.serializeContainer containerId) := dif_neg hlength
      refine .inl ⟨hlength, ?_, ?_⟩
      · simp [call, Index.accept, Handler.outcome_bind, hread, hm]
      · simp [call, Index.accept, Handler.exec_bind, hread, hm]
  · refine .inl ⟨bytes, rfl, ?_, ?_⟩
    · simp [call, Index.accept, Handler.outcome_bind, hread]
    · simp [call, Index.accept, Handler.exec_bind, hread]

theorem base_committed_staged {s : Index} (hmem : s.mem = fun _ ↦ none) (containerId : Id)
    (marshaled : Bytes) : (s.staged containerId marshaled).committed.base
      = Function.update (Function.update (Function.update s.base
          (.container (Wire.u64.put s.nextAcceptedIndex)) (some marshaled))
          (.index containerId) (some (Wire.u64.put s.nextAcceptedIndex)))
          .nextAcceptedIndex (some (Wire.u64.put (saturatingAddOne s.nextAcceptedIndex))) := by
  funext key
  simp only [committed, staged, Index.put, hmem, Function.update_apply]
  split_ifs <;> rfl

theorem read_staged_index (s : Index) (containerId : Id) (marshaled : Bytes) :
    (s.staged containerId marshaled).read (.index containerId)
      = .ok (Wire.u64.put s.nextAcceptedIndex) := by
  simp [Index.read, staged, Index.put]

/-! ### The list of containers -/

theorem put_inj {n m : UInt64} : Wire.u64.put n = Wire.u64.put m ↔ n = m := by
  refine ⟨fun h ↦ ?_, congrArg _⟩
  have hn := parseU64_put n
  rw [h, parseU64_put] at hn
  exact (Except.ok.inj hn).symm

/-- The rows list the containers, and nothing is pending. -/
structure Holds (s : Index) (cs : List Container) : Prop where
  mem : s.mem = fun _ ↦ none
  next : s.nextAcceptedIndex.toNat = cs.length
  ids : (cs.map Container.id).Nodup
  short : ∀ c ∈ cs, c.bytes.length < 2 ^ 31
  container : ∀ i : UInt64, s.base (.container (Wire.u64.put i))
    = cs[i.toNat]?.bind fun c ↦ c.marshal.toOption
  index : ∀ id, s.base (.index id)
    = (cs.findIdx? fun c ↦ c.id = id).map fun i ↦ Wire.u64.put (UInt64.ofNat i)
  nextRow : s.base .nextAcceptedIndex
    = if cs = [] then none else some (Wire.u64.put s.nextAcceptedIndex)

theorem holds_empty : Holds Index.empty [] where
  mem := rfl
  next := rfl
  ids := List.nodup_nil
  short := nofun
  container _ := rfl
  index _ := rfl
  nextRow := rfl

namespace Holds

variable {s : Index} {cs : List Container} (h : Holds s cs)

include h

theorem read_eq (key : Key) : s.read key = (s.base key).elim (.error .notFound) .ok := by
  rw [Index.read, h.mem, Option.none_or]

theorem read_index_eq_notFound_iff {id : Id} :
    s.read (.index id) = .error .notFound ↔ ∀ c ∈ cs, c.id ≠ id := by
  rw [h.read_eq, h.index]
  cases hfind : cs.findIdx? fun c ↦ c.id = id with
  | none => simpa using List.findIdx?_eq_none_iff.mp hfind
  | some i =>
    obtain ⟨hi, hid, -⟩ := List.findIdx?_eq_some_iff_getElem.mp hfind
    refine iff_of_false (by simp) fun hall ↦ ?_
    exact hall _ (List.getElem_mem hi) (of_decide_eq_true hid)

/-- A reopened index is the one that was closed. -/
theorem new_eq : Index.new s.base = .ok s := by
  obtain ⟨next, base, mem⟩ := s
  obtain rfl : mem = fun _ ↦ none := h.mem
  have hrow := h.nextRow
  have hnext := h.next
  dsimp only at hrow hnext
  rw [Index.new]
  dsimp only
  rw [hrow]
  by_cases hcs : cs = []
  · rw [if_pos hcs]
    obtain rfl : next = 0 := UInt64.toNat_inj.mp (hnext.trans (by rw [hcs]; rfl))
    rfl
  · rw [if_neg hcs]
    change (parseU64 (Wire.u64.put next) >>= fun next ↦ _) = _
    rw [parseU64_put]
    rfl

/-- Committing a new container appends it. -/
theorem append (c : Container) {marshaled : Bytes} (hnew : ∀ c' ∈ cs, c'.id ≠ c.id)
    (hshort : c.bytes.length < 2 ^ 31) (hmarshal : c.marshal = .ok marshaled)
    (hroom : s.nextAcceptedIndex ≠ 0xffffffffffffffff) :
    Holds (s.staged c.id marshaled).committed (cs ++ [c]) := by
  have hsucc := toNat_saturatingAddOne hroom
  rw [h.next] at hsucc
  refine ⟨rfl, ?_, ?_, ?_, fun i ↦ ?_, fun id ↦ ?_, ?_⟩
  · rw [List.length_append]
    exact hsucc
  · rw [List.map_append, List.nodup_append]
    refine ⟨h.ids, List.nodup_singleton _, ?_⟩
    rintro _ hid _ hid' rfl
    obtain ⟨c', hc', hid''⟩ := List.mem_map.mp hid
    exact hnew c' hc' (hid''.trans (List.mem_singleton.mp hid'))
  · intro c' hc'
    rcases List.mem_append.mp hc' with hc' | hc'
    · exact h.short c' hc'
    · rwa [List.mem_singleton.mp hc']
  · rw [base_committed_staged h.mem]
    simp only [Function.update_apply, reduceCtorEq, if_false, Key.container.injEq, put_inj]
    by_cases hi : i = s.nextAcceptedIndex
    · rw [if_pos hi, hi, h.next, List.getElem?_append_right le_rfl, Nat.sub_self]
      simp [hmarshal, Except.toOption]
    · have hne : i.toNat ≠ cs.length := fun heq ↦ hi (UInt64.toNat_inj.mp (heq.trans h.next.symm))
      rw [if_neg hi, h.container]
      rcases Nat.lt_or_gt_of_ne hne with hlt | hgt
      · rw [List.getElem?_append_left hlt]
      · rw [List.getElem?_eq_none hgt.le, List.getElem?_eq_none (by simp; omega)]
  · rw [base_committed_staged h.mem]
    simp only [Function.update_apply, reduceCtorEq, if_false, Key.index.injEq]
    by_cases hid : id = c.id
    · subst hid
      have hnone : (cs.findIdx? fun c' ↦ c'.id = c.id) = none :=
        List.findIdx?_eq_none_iff.mpr fun c' hc' ↦ by simpa using hnew c' hc'
      rw [if_pos rfl, List.findIdx?_append, hnone]
      simp [List.findIdx?_cons, ← h.next]
    · rw [if_neg hid, h.index, List.findIdx?_append]
      have hne : ¬ c.id = id := fun heq ↦ hid heq.symm
      simp [List.findIdx?_cons, hne]
  · rw [base_committed_staged h.mem, Function.update_self, if_neg (by simp)]
    rfl

/-! ### Reads -/

theorem containerByIndexBytes_eq (i : UInt64) :
    s.containerByIndexBytes (Wire.u64.put i)
      = cs[i.toNat]?.elim (.error (.readFailed .notFound)) .ok := by
  rw [containerByIndexBytes, h.read_eq, h.container]
  cases hc : cs[i.toNat]? with
  | none => rfl
  | some c =>
    obtain ⟨marshaled, hm⟩ : ∃ marshaled, c.marshal = .ok marshaled :=
      ⟨_, dif_pos (h.short c (List.mem_of_getElem? hc))⟩
    simp only [Option.bind_some, hm, Except.toOption, Option.elim_some, Except.mapError]
    exact Container.unmarshal_of_marshal hm

theorem getContainerByIndex_eq (i : UInt64) :
    s.getContainerByIndex i = cs[i.toNat]?.elim (.error (.noContainerAtIndex i)) .ok := by
  have hnext := h.next
  rw [getContainerByIndex, containerAt, lastAcceptedIndex]
  by_cases hzero : s.nextAcceptedIndex = 0
  · have hnil : cs = [] := by
      rw [hzero] at hnext
      exact List.eq_nil_of_length_eq_zero hnext.symm
    rw [if_pos hzero, hnil]
    rfl
  · have hpos : s.nextAcceptedIndex.toNat ≠ 0 := fun heq ↦ hzero (UInt64.toNat_inj.mp heq)
    have hle : (1 : UInt64) ≤ s.nextAcceptedIndex := UInt64.le_iff_toNat_le.mpr (by
      change 1 ≤ _
      omega)
    have hlast : (s.nextAcceptedIndex - 1).toNat = cs.length - 1 := by
      rw [UInt64.toNat_sub_of_le _ _ hle, hnext]
      rfl
    rw [if_neg hzero]
    change (Except.require _ _ >>= fun _ ↦ s.containerByIndexBytes (Wire.u64.put i)) = _
    by_cases hi : i > s.nextAcceptedIndex - 1
    · have hi' := UInt64.lt_iff_toNat_lt.mp hi
      rw [Except.require, if_neg (not_not.mpr hi), List.getElem?_eq_none (by omega)]
      rfl
    · have hi' : i.toNat ≤ cs.length - 1 := by
        rw [← hlast]
        exact Nat.not_lt.mp fun hgt ↦ hi (UInt64.lt_iff_toNat_lt.mpr hgt)
      rw [Except.require, if_pos hi, Except.ok_bind, h.containerByIndexBytes_eq,
        List.getElem?_eq_getElem (by omega)]
      rfl

theorem getIndex_eq (id : Id) :
    s.getIndex id = (cs.findIdx? fun c ↦ c.id = id).elim (.error (.database .notFound))
      fun i ↦ .ok (UInt64.ofNat i) := by
  rw [getIndex, h.read_eq, h.index]
  cases cs.findIdx? fun c ↦ c.id = id with
  | none => rfl
  | some i => exact parseU64_put _

theorem getContainerById_eq (id : Id) :
    s.getContainerById id
      = (cs.find? fun c ↦ c.id = id).elim (.error (.database .notFound)) .ok := by
  rw [getContainerById, h.read_eq, h.index, List.find?_eq_bind_findIdx?_getElem?]
  cases hfind : cs.findIdx? fun c ↦ c.id = id with
  | none => rfl
  | some i =>
    obtain ⟨hi, -⟩ := List.findIdx?_eq_some_iff_getElem.mp hfind
    have hnext := h.next
    have hlt := s.nextAcceptedIndex.toNat_lt
    have hnat : (UInt64.ofNat i).toNat = i := UInt64.toNat_ofNat_of_lt' (by
      change i < 2 ^ 64
      omega)
    refine (h.containerByIndexBytes_eq (UInt64.ofNat i)).trans ?_
    rw [hnat, Option.bind_some, List.getElem?_eq_getElem hi]
    rfl

/-! ### Steps -/

/-- One event keeps the rows in step with the list, if its commit does not fail. -/
theorem step {e : Event} (hfine : Fine s e) :
    Holds ((Indexer.step e).exec s) (cs ++ e.accepted s) ∧
      (∀ err, (Indexer.step e).outcome s = .error err → (Indexer.step e).exec s = s) := by
  cases e with
  | reopen =>
    have hexec : (Indexer.step .reopen).exec s = s := by
      simp only [Indexer.step, Handler.exec_bind, Handler.outcome_get, Handler.exec_get, h.new_eq,
        Handler.outcome_liftM, Handler.exec_set]
    rw [hexec]
    exact ⟨by simpa [Event.accepted] using h, fun _ _ ↦ rfl⟩
  | accept works now containerId containerBytes =>
    simp only [Indexer.step, Event.accepted]
    obtain ⟨bytes, hread, hout, hexec⟩ | ⟨hread, ⟨-, hout, hexec⟩ |
      ⟨marshaled, hshort, hm, ⟨-, hout, hexec⟩ | ⟨hworks, -⟩⟩⟩ :=
      accept_cases s works now containerId containerBytes
    · rw [hexec, hread]
      exact ⟨by simpa using h, fun _ _ ↦ rfl⟩
    · rw [hexec, hread, hout]
      exact ⟨by simpa using h, fun _ _ ↦ rfl⟩
    · rw [hexec, hread, hout, if_pos ⟨rfl, rfl⟩]
      refine ⟨h.append ⟨containerId, containerBytes, now⟩ ?_ hshort hm (hfine hread hshort).2,
        fun err herr ↦ nomatch herr⟩
      exact h.read_index_eq_notFound_iff.mp hread
    · exact absurd ((hfine hread hshort).1.symm.trans hworks) Bool.true_eq_false_eq_False

/-- A call that returns has its container in the list. -/
theorem exists_of_ok {works : Bool} {now : Int64} {containerId : Id} {containerBytes : Bytes}
    (hout : (Index.accept works now containerId containerBytes).outcome s = .ok ()) :
    ∃ c ∈ cs ++ (Event.accept works now containerId containerBytes).accepted s,
      c.id = containerId := by
  by_cases hread : s.read (.index containerId) = .error .notFound
  · refine ⟨⟨containerId, containerBytes, now⟩, ?_, rfl⟩
    rw [Event.accepted, if_pos ⟨hread, hout⟩]
    exact List.mem_append_right _ List.mem_cons_self
  · rw [h.read_index_eq_notFound_iff] at hread
    push Not at hread
    obtain ⟨c, hc, hid⟩ := hread
    exact ⟨c, List.mem_append_left _ hc, hid⟩

end Holds

/-! ### Runs -/

theorem accepted_append (s : Index) (events events' : List Event) :
    accepted s (events ++ events')
      = accepted s events ++ accepted (Handler.execAll step s events) events' := by
  induction events generalizing s with
  | nil => rfl
  | cons e events ih =>
    rw [List.cons_append, accepted, ih, accepted, List.append_assoc]
    rfl

theorem Holds.run {s : Index} {cs : List Container} (h : Holds s cs) {events : List Event}
    (hfine : Handler.Along Indexer.step Fine s events) :
    Holds (Handler.execAll Indexer.step s events) (cs ++ accepted s events) := by
  induction events generalizing s cs with
  | nil =>
    rw [accepted, List.append_nil]
    exact h
  | cons e events ih =>
    have hrun := ih (h.step hfine.1).1 hfine.2
    rwa [List.append_assoc] at hrun

theorem along_split {s : Index} {before after : List Event} {e : Event}
    (h : Handler.Along step Fine s (before ++ e :: after)) :
    Handler.Along step Fine s before ∧ Fine (Handler.execAll step s before) e := by
  induction before generalizing s with
  | nil => exact ⟨trivial, h.1⟩
  | cons e' before ih =>
    obtain ⟨hbefore, he⟩ := ih h.2
    exact ⟨⟨h.1, hbefore⟩, he⟩

/-- **The index is durable as long as no commit of a new container fails.** In such a run from an
empty database, the index is the one that reopening gives, its rows number the containers that were
accepted from zero on, without repetition, and the two kinds of rows are inverse to each other; a
call that returned has its container in the list, and a call that failed changed nothing. In every
state reached, a commit that fails does change the reads. -/
theorem durable_of_fine {events : List Event}
    (hfine : Handler.Along step Fine Index.empty events) :
    let s := Handler.execAll step Index.empty events
    let cs := accepted Index.empty events
    Index.new s.base = .ok s ∧ (cs.map Container.id).Nodup ∧
      (∀ i, s.getContainerByIndex i = cs[i.toNat]?.elim (.error (.noContainerAtIndex i)) .ok) ∧
      (∀ id, s.getIndex id = (cs.findIdx? fun c ↦ c.id = id).elim (.error (.database .notFound))
        fun i ↦ .ok (UInt64.ofNat i)) ∧
      (∀ id, s.getContainerById id
        = (cs.find? fun c ↦ c.id = id).elim (.error (.database .notFound)) .ok) ∧
      (∀ before e after, events = before ++ e :: after →
        let t := Handler.execAll step Index.empty before
        (∀ works now id bytes, e = .accept works now id bytes → (step e).outcome t = .ok () →
          ∃ c ∈ cs, c.id = id) ∧
        ∀ err, (step e).outcome t = .error err → (step e).exec t = t) ∧
      ∀ now id bytes, (∀ c ∈ cs, c.id ≠ id) → bytes.length < 2 ^ 31 →
        (Index.accept false now id bytes).outcome s = .error (.database .io) ∧
          ((Index.accept false now id bytes).exec s).getIndex id = .ok s.nextAcceptedIndex := by
  intro s cs
  have h : Holds s cs := holds_empty.run hfine
  refine ⟨h.new_eq, h.ids, h.getContainerByIndex_eq, h.getIndex_eq, h.getContainerById_eq, ?_, ?_⟩
  · rintro before e after rfl t
    obtain ⟨hbefore, he⟩ := along_split hfine
    have ht : Holds t (accepted Index.empty before) := holds_empty.run hbefore
    refine ⟨?_, (ht.step he).2⟩
    rintro works now id bytes rfl hout
    obtain ⟨c, hc, hid⟩ := ht.exists_of_ok hout
    refine ⟨c, ?_, hid⟩
    rw [show cs = _ from accepted_append Index.empty before _, accepted, ← List.append_assoc]
    exact List.mem_append_left _ hc
  · intro now id bytes hnew hshort
    have hread := h.read_index_eq_notFound_iff.mpr hnew
    obtain ⟨_, hread', -⟩ | ⟨-, ⟨hlong, -⟩ | ⟨marshaled, -, -, ⟨hworks, -⟩ | ⟨-, hout, hexec⟩⟩⟩ :=
      accept_cases s false now id bytes
    · cases hread.symm.trans hread'
    · exact absurd hshort hlong
    · cases hworks
    · refine ⟨hout, ?_⟩
      rw [hexec, getIndex, read_staged_index]
      exact parseU64_put _

/-- A container is indexed, and found again after the index was reopened. -/
theorem durable_of_fine_example :
    let events : List Event := [.accept true 5 1#256 [7], .reopen, .accept true 6 1#256 [7]]
    Handler.Along step Fine Index.empty events ∧
      accepted Index.empty events = [⟨1#256, [7], 5⟩] ∧
      (Handler.execAll step Index.empty events).getContainerById 1#256 = .ok ⟨1#256, [7], 5⟩ := by
  intro events
  have hfine : Handler.Along step Fine Index.empty events :=
    ⟨fun _ _ ↦ ⟨rfl, by decide⟩, trivial, fun _ _ ↦ ⟨rfl, by decide +kernel⟩, trivial⟩
  have haccepted : accepted Index.empty events = [⟨1#256, [7], 5⟩] := by decide +kernel
  obtain ⟨-, -, -, -, hget, -⟩ := durable_of_fine hfine
  refine ⟨hfine, haccepted, ?_⟩
  rw [hget, haccepted]
  rfl

/-- **A retry after a failed commit returns and stores nothing.** The failed call has changed the
reads, the second one takes its pending rows for an indexed container, and after reopening the
container is gone. -/
theorem accept_lost_after_failed_commit :
    let failed := (Index.accept false 5 1#256 [7]).exec Index.empty
    let retried := (Index.accept true 6 1#256 [7]).exec failed
    (Index.accept false 5 1#256 [7]).outcome Index.empty = .error (.database .io) ∧
      Index.empty.getIndex 1#256 = .error (.database .notFound) ∧ failed.getIndex 1#256 = .ok 0 ∧
      (Index.accept true 6 1#256 [7]).outcome failed = .ok () ∧
      ∃ reopened, Index.new retried.base = .ok reopened ∧
        reopened.getContainerById 1#256 = .error (.database .notFound) := by
  intro failed retried
  exact ⟨rfl, rfl, by rfl, rfl, Index.empty, rfl, rfl⟩

end Avalanche.Indexer
