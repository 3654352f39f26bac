import Avalanche.Engine.Sampling

/-!
# The requests for blocks

An outstanding request stands in two tables, by node and request id and by block. They are inverse
to each other as long as the 32-bit request id has not come around.

`put` takes the request out if the answer is of no use, and if the block is new and its ancestry is
`Available`. It forgets to do so if the block is issued or decided already, and if an ancestor is
missing and has to be requested first.
-/

set_option mvcgen.warning false

namespace Avalanche.SnowmanEngine

open Std Std.Do

variable {W : Type} {cfg : EngineConfig W} {e : SnowmanEngine W} {node : NodeId} {req : UInt32}
  {blkId : Id}

/-- The two tables are inverse to each other. -/
def Inverse (e : SnowmanEngine W) : Prop :=
  ∀ (node : NodeId) (req : UInt32) (blkId : Id), e.blkReqs[toLex (node, req)]? = some blkId ↔
    e.blkReqsById[blkId]? = some (node, req)

/-- Outstanding requests carry ids that were drawn, and the tables are inverse before the ids come
around. -/
structure Tracked (e : SnowmanEngine W) : Prop where
  requestId : e.requestId = UInt32.ofNat e.drawn
  drawn : ∀ node req, toLex (node, req) ∈ e.blkReqs → ∃ i ≤ e.drawn, req = UInt32.ofNat i
  inverse : e.drawn < 2 ^ 32 → e.Inverse

theorem Inverse.erase (h : e.Inverse) (hreq : e.blkReqsById[blkId]? = some (node, req)) :
    Inverse { e with
      blkReqs := e.blkReqs.erase (toLex (node, req))
      blkReqsById := e.blkReqsById.erase blkId } := by
  intro node' req' blkId'
  have hkey := h node req blkId
  have hkey' := h node' req' blkId'
  simp only [TreeMap.getElem?_erase_eq, toLex_inj, Prod.mk.injEq]
  grind

theorem Tracked.erase (h : e.Tracked)
    (hreq : e.Inverse → e.blkReqsById[blkId]? = some (node, req)) :
    Tracked { e with
      blkReqs := e.blkReqs.erase (toLex (node, req))
      blkReqsById := e.blkReqsById.erase blkId } where
  requestId := h.requestId
  drawn node' req' hmem := h.drawn node' req' (ExtTreeMap.mem_of_mem_erase hmem)
  inverse hlt := (h.inverse hlt).erase (hreq (h.inverse hlt))

theorem Tracked.request (h : e.Tracked) (hnew : e.blkReqsById[blkId]? = none)
    (sent : List Outbound) :
    Tracked { e with
      requestId := e.requestId + 1
      drawn := e.drawn + 1
      blkReqs := e.blkReqs.insert (toLex (node, e.requestId + 1)) blkId
      blkReqsById := e.blkReqsById.insert blkId (node, e.requestId + 1)
      sent := sent } := by
  have hnext : e.requestId + 1 = UInt32.ofNat (e.drawn + 1) := by
    rw [h.requestId, UInt32.ofNat_add]
    rfl
  refine ⟨hnext, fun node' req' hmem ↦ ?_, fun hlt node' req' blkId' ↦ ?_⟩
  · simp only [ExtTreeMap.mem_insert, LawfulEqOrd.compare_eq_iff_eq, toLex_inj,
      Prod.mk.injEq] at hmem
    rcases hmem with ⟨-, rfl⟩ | hmem
    · exact ⟨_, le_rfl, hnext⟩
    · obtain ⟨i, hi, hreq⟩ := h.drawn node' req' hmem
      exact ⟨i, hi.trans (Nat.le_succ _), hreq⟩
  · change e.drawn + 1 < 2 ^ 32 at hlt
    have hkey : e.blkReqs[toLex (node, e.requestId + 1)]? = none := by
      refine ExtTreeMap.getElem?_eq_none fun hmem ↦ ?_
      obtain ⟨i, hi, hreq⟩ := h.drawn _ _ hmem
      have heq := congrArg UInt32.toNat (hnext.symm.trans hreq)
      rw [UInt32.toNat_ofNat', UInt32.toNat_ofNat', Nat.mod_eq_of_lt hlt,
        Nat.mod_eq_of_lt (by omega)] at heq
      omega
    have hinverse := h.inverse (by omega) node' req' blkId'
    simp only [TreeMap.getElem?_insert_eq, toLex_inj, Prod.mk.injEq]
    grind

/-- The handlers keep `Tracked`. -/
def tracked (W : Type) : Invariant W where
  holds _ := Tracked
  size _ := True
  world _ h := ⟨h.1, h.2, h.3⟩
  sent _ h := ⟨h.1, h.2, h.3⟩
  requestId h := by
    refine ⟨?_, fun node req hmem ↦ ?_, fun hlt ↦ h.inverse (Nat.lt_of_succ_lt hlt)⟩
    · rw [h.requestId, UInt32.ofNat_add]
      rfl
    · obtain ⟨i, hi, hreq⟩ := h.drawn node req hmem
      exact ⟨i, hi.trans (Nat.le_succ _), hreq⟩
  frontiers _ h := ⟨h.1, h.2, h.3⟩
  building _ h := ⟨h.1, h.2, h.3⟩
  clear blkId h := by
    rw [clearRequest, Handler.exec_modify]
    split
    · exact h
    · exact h.erase fun _ ↦ by assumption
  forget := id
  record h := ⟨h.1, h.2, h.3⟩
  answer _ _ h := ⟨h.1, h.2, h.3⟩
  opened _ _ _ h := ⟨h.1, h.2, h.3⟩

theorem tracked_run (fuel : ℕ) (world : W) (msgs : List Message) :
    (run cfg fuel world msgs).Tracked := by
  have hrequest (node : NodeId) (blkId : Id) :
      Handler.Keeps (Tracked (W := W)) (sendRequest node blkId) := by
    mvcgen [sendRequest, nextRequestId, send, -Invariant.nextRequestId, -Invariant.send]
    rename_i hnew _ _ _
    exact Tracked.request (by assumption) (by simpa using hnew) _
  have hfailed (node : NodeId) (req : UInt32) :
      Handler.Keeps (Tracked (W := W)) (getFailed node req) := by
    refine Handler.spec_of_exec fun e h ↦ ?_
    rw [getFailed, Handler.exec_modify]
    split
    · exact h
    · exact h.erase fun hinverse ↦ (hinverse _ _ _).mp (by assumption)
  refine Handler.Keeps.execAll (fun m _ ↦ ?_) ⟨rfl, by simp [new], fun _ ↦ by simp [Inverse, new]⟩
  exact Invariant.handle (I := tracked W) trivial hrequest hfailed fuel fun _ ↦ trivial

/-! ## Answers -/

/-- The block needs not be issued, or its ancestors are known locally up to one that needs not be
issued or can be built on. -/
inductive Available (cfg : EngineConfig W) : W → Block → Prop
  | issued {w : W} {blk : Block} : shouldIssueBlock cfg w blk = false → Available cfg w blk
  | child {w : W} {blk : Block} : canIssueChildOn cfg w blk.parent = true → Available cfg w blk
  | parent {w w' : W} {blk parent : Block} :
    cfg.vm.getBlock blk.parent w = (.ok parent, w') → Available cfg w' parent → Available cfg w blk

/-- An answer to the request for a block is of no use, or the block is new and its ancestry is
there. -/
def Closes (cfg : EngineConfig W) (w : W) (blkId : Id) (container : List UInt8) : Prop :=
  match cfg.vm.parseBlock container w with
  | (.error _, _) => True
  | (.ok blk, w) => blk.id ≠ blkId ∨ shouldIssueBlock cfg w blk = true ∧ Available cfg w blk

@[simp] theorem outcome_outside {α : Type} (f : W → α × W) :
    (outside f).outcome e = .ok (f e.world).1 := rfl

@[simp] theorem exec_outside {α : Type} (f : W → α × W) :
    (outside f).exec e = { e with world := (f e.world).2 } := rfl

/-- A request takes none out. -/
theorem sendRequest_spec (node : NodeId) (blkId : Id) (e : SnowmanEngine W) :
    (sendRequest node blkId).outcome e = .ok () ∧
      ∀ key ∈ e.blkReqs, key ∈ ((sendRequest node blkId).exec e).blkReqs := by
  rw [sendRequest, Handler.outcome_bind, Handler.exec_bind]
  simp only [Handler.outcome_get, Handler.exec_get]
  split
  · exact ⟨rfl, fun _ ↦ id⟩
  · exact ⟨rfl, fun key hkey ↦ ExtTreeMap.mem_insert.mpr (.inr hkey)⟩

/-- The walk requests a parent if the ancestry is not there. If it is, the tables stay, and a new
block is collected together with its ancestors. -/
theorem walkAncestry_cases (cfg : EngineConfig W) (node : NodeId) (fuel : ℕ) (current : Block)
    (chain : List Block) (e : SnowmanEngine W) :
    match (walkAncestry cfg node fuel current chain).outcome e with
    | .error _ => True
    | .ok none => ¬Available cfg e.world current ∧
      ∀ key ∈ e.blkReqs, key ∈ ((walkAncestry cfg node fuel current chain).exec e).blkReqs
    | .ok (some found) => Available cfg e.world current ∧
      ((walkAncestry cfg node fuel current chain).exec e).blkReqs = e.blkReqs ∧
      ((walkAncestry cfg node fuel current chain).exec e).blkReqsById = e.blkReqsById ∧
      if shouldIssueBlock cfg e.world current then ∃ l, found = l ++ current :: chain
      else found = chain := by
  induction fuel generalizing current chain e with
  | zero => trivial
  | succ fuel ih =>
    simp only [walkAncestry, Handler.outcome_bind, Handler.exec_bind, Handler.outcome_get,
      Handler.exec_get]
    rcases hissue : shouldIssueBlock cfg e.world current with - | -
    · exact ⟨.issued hissue, rfl, rfl, rfl⟩
    simp only [Bool.not_true, Bool.false_eq_true, if_false, if_true, Handler.outcome_bind,
      Handler.exec_bind, Handler.outcome_get, Handler.exec_get]
    rcases hchild : canIssueChildOn cfg e.world current.parent with - | -
    swap
    · exact ⟨.child hchild, rfl, rfl, [], rfl⟩
    simp only [Bool.false_eq_true, if_false, Handler.outcome_bind, Handler.exec_bind,
      outcome_outside, exec_outside]
    rcases hget : cfg.vm.getBlock current.parent e.world with ⟨_ | parent, w⟩
    · -- the parent has to be requested
      obtain ⟨hout, hkept⟩ := sendRequest_spec node current.parent { e with world := w }
      simp only [Handler.outcome_bind, Handler.exec_bind, hout]
      refine ⟨fun h ↦ ?_, hkept⟩
      cases h with
      | issued h => cases hissue.symm.trans h
      | child h => cases hchild.symm.trans h
      | parent h => cases hget.symm.trans h
    · have hparent : Available cfg w parent ↔ Available cfg e.world current := by
        refine ⟨.parent hget, fun h ↦ ?_⟩
        cases h with
        | issued h => cases hissue.symm.trans h
        | child h => cases hchild.symm.trans h
        | parent h hp =>
          cases hget.symm.trans h
          exact hp
      have hwalk := ih parent (current :: chain) { e with world := w }
      simp only [hparent] at hwalk ⊢
      rcases hout : (walkAncestry cfg node fuel parent (current :: chain)).outcome
        { e with world := w } with _ | _ | found <;> simp only [hout] at hwalk ⊢
      · exact hwalk
      · obtain ⟨havailable, hreqs, hreqs', hfound⟩ := hwalk
        refine ⟨havailable, hreqs, hreqs', ?_⟩
        split at hfound
        · obtain ⟨l, rfl⟩ := hfound
          exact ⟨l ++ [parent], by rw [List.append_assoc]; rfl⟩
        · exact ⟨[], hfound⟩

/-- Handlers that request nothing bring no request back. -/
def unasked (W : Type) (key : NodeId ×ₗ UInt32) (blkId : Id) : Invariant W where
  holds _ e := key ∉ e.blkReqs ∧ blkId ∉ e.blkReqsById
  size _ := True
  world _ h := h
  sent _ h := h
  requestId h := h
  frontiers _ h := h
  building _ h := h
  clear _ h := by
    rw [clearRequest, Handler.exec_modify]
    split
    · exact h
    · exact ⟨fun hmem ↦ h.1 (ExtTreeMap.mem_of_mem_erase hmem),
        fun hmem ↦ h.2 (ExtTreeMap.mem_of_mem_erase hmem)⟩
  forget h := h
  record h := h
  answer _ _ h := h
  opened _ _ _ h := h

/-- Issuing a block that was requested closes its request if the block is new and its ancestry is
there. -/
theorem issueFrom_closes_iff (h : e.Inverse) {blk : Block}
    (hreq : e.blkReqs[toLex (node, req)]? = some blk.id) {fuel : ℕ}
    (hok : (issueFrom cfg fuel node blk).outcome e = .ok ()) :
    (toLex (node, req) ∉ ((issueFrom cfg fuel node blk).exec e).blkReqs ∧
        blk.id ∉ ((issueFrom cfg fuel node blk).exec e).blkReqsById) ↔
      shouldIssueBlock cfg e.world blk = true ∧ Available cfg e.world blk := by
  have hmem : toLex (node, req) ∈ e.blkReqs :=
    ExtTreeMap.mem_iff_isSome_getElem?.mpr (by simp [hreq])
  have hwalk := walkAncestry_cases cfg node fuel blk [] e
  rw [issueFrom, Handler.outcome_bind] at hok
  rw [issueFrom, Handler.exec_bind]
  rcases hout : (walkAncestry cfg node fuel blk []).outcome e with err | _ | found
  · rw [hout] at hok
    cases hok
  · rw [hout] at hwalk
    exact iff_of_false (fun hnot ↦ hnot.1 (hwalk.2 _ hmem)) fun hclosed ↦ hwalk.1 hclosed.2
  · rw [hout] at hwalk
    obtain ⟨havailable, htable, htable', hfound⟩ := hwalk
    split at hfound
    next hissue =>
      obtain ⟨l, rfl⟩ := hfound
      have hclear : (unasked W (toLex (node, req)) blk.id).holds []
          ((clearRequest blk.id).exec ((walkAncestry cfg node fuel blk []).exec e)) := by
        rw [clearRequest, Handler.exec_modify, htable', (h node req blk.id).mp hreq]
        exact ⟨by simp, by simp⟩
      have hrest : Handler.Keeps ((unasked W (toLex (node, req)) blk.id).holds []) (do
          let anyAdded ← issueChain cfg (l ++ [blk])
          if anyAdded && cfg.consensus.numProcessing (← get).world > 0 then
            repoll cfg fuel) := by
        mvcgen
      refine iff_of_true ?_ ⟨hissue, havailable⟩
      simp only [List.getLast?_concat]
      exact hrest.exec hclear
    next hissue =>
      subst hfound
      exact iff_of_false (fun hnot ↦ hnot.1 (htable ▸ hmem)) fun hclosed ↦ hissue hclosed.1

/-- **Tracked requests.** The tables are inverse to each other until the request ids come around.
Then an answer to an outstanding request takes it out exactly if it `Closes`. -/
theorem closed_iff_of_run (fuel : ℕ) (world : W) (msgs : List Message)
    (hdrawn : (run cfg fuel world msgs).drawn < 2 ^ 32) :
    let e := run cfg fuel world msgs
    e.Inverse ∧ ∀ (node : NodeId) (req : UInt32) (blkId : Id) (container : List UInt8),
      e.blkReqs[toLex (node, req)]? = some blkId →
      (put cfg fuel node req container).outcome e = .ok () →
      let e' := (put cfg fuel node req container).exec e
      (toLex (node, req) ∉ e'.blkReqs ∧ blkId ∉ e'.blkReqsById) ↔
        Closes cfg e.world blkId container := by
  intro e
  have hinverse : e.Inverse := (tracked_run fuel world msgs).inverse hdrawn
  refine ⟨hinverse, fun node req blkId container hreq hok ↦ ?_⟩
  have hfailed (w : W) :
      toLex (node, req) ∉ ((getFailed node req).exec { e with world := w }).blkReqs ∧
        blkId ∉ ((getFailed node req).exec { e with world := w }).blkReqsById := by
    rw [getFailed, Handler.exec_modify, hreq]
    exact ⟨by simp, by simp⟩
  rw [put, Handler.outcome_bind] at hok
  rw [Closes, put, Handler.exec_bind]
  rcases hparse : cfg.vm.parseBlock container e.world with ⟨_ | blk, w⟩
  · simpa only [outcome_outside, exec_outside, hparse, iff_true] using hfailed w
  · simp only [outcome_outside, exec_outside, hparse, Handler.outcome_bind, Handler.exec_bind,
      Handler.outcome_get, Handler.exec_get, hreq] at hok ⊢
    by_cases hid : blk.id = blkId
    · subst hid
      simp only [ne_eq, not_true_eq_false, if_false, false_or] at hok ⊢
      exact issueFrom_closes_iff (e := { e with world := w }) hinverse hreq hok
    · simp only [ne_eq, hid, not_false_eq_true, if_true, true_or, iff_true]
      exact hfailed w

/-- A virtual machine that has no blocks, and reads the given one. -/
def lonelyConfig (blk : Block) : EngineConfig (Topological snowballFactory) :=
  { demoConfig with
    vm := { demoVm with
      parseBlock := fun _ w ↦ (.ok blk, w)
      getBlock := fun _ w ↦ (.error "not found", w) } }

/-- Validator `7` asks about the block, which is then requested from it. -/
def lonelyRun (blk : Block) : SnowmanEngine (Topological snowballFactory) :=
  run (lonelyConfig blk) 10 Topological.exampleInstance [.pullQuery 7 0 blk.id 0]

/-- Block `2` is on top of the last accepted one, so that the answer closes its request. -/
theorem put_child_closed :
    let blk := Topological.exampleBlock 2 1 1
    (lonelyRun blk).Inverse ∧
      (lonelyRun blk).blkReqs[(toLex (7, 1) : NodeId ×ₗ UInt32)]? = some 2 ∧
      toLex (7, 1) ∉ ((put (lonelyConfig blk) 10 7 1 []).exec (lonelyRun blk)).blkReqs := by
  intro blk
  have hreq : (lonelyRun blk).blkReqs[(toLex (7, 1) : NodeId ×ₗ UInt32)]? = some 2 := by
    decide +kernel
  have hdrawn : (lonelyRun blk).drawn < 2 ^ 32 := by decide +kernel
  obtain ⟨hinverse, hclosed⟩ := closed_iff_of_run 10 _ _ hdrawn
  refine ⟨hinverse, hreq, ((hclosed 7 1 2 [] hreq (by decide +kernel)).mpr (.inr ⟨?_, ?_⟩)).1⟩
  · decide +kernel
  · exact .child (by decide +kernel)

/-- Block `3` is on top of the unknown block `2`. The answer is accepted, its parent is requested,
and the request stays outstanding. -/
theorem put_orphan_outstanding :
    let blk := Topological.exampleBlock 3 2 2
    (lonelyRun blk).drawn < 2 ^ 32 ∧
      (lonelyRun blk).blkReqs[(toLex (7, 1) : NodeId ×ₗ UInt32)]? = some 3 ∧
      (put (lonelyConfig blk) 10 7 1 []).outcome (lonelyRun blk) = .ok () ∧
      ((put (lonelyConfig blk) 10 7 1 []).exec (lonelyRun blk)).blkReqs[
        (toLex (7, 1) : NodeId ×ₗ UInt32)]? = some 3 := by
  refine ⟨?_, ?_, ?_, ?_⟩ <;> decide +kernel

end Avalanche.SnowmanEngine
