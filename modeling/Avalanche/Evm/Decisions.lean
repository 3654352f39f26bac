import Avalanche.Evm.Session

/-!
# Deciding one block and the others

A block that has passed verification should stay acceptable until it is rejected, whatever happens
to other blocks, and its acceptance should commit the state its header declares.

What stands in the way is that operations are put aside under the root they lead to. Two blocks with
one root share an entry: accepting or rejecting the first takes away what the second needs, and so
does an *invalid* block whose execution leads to that root. Besides, a block whose parent is still
undecided is refused, or, if the parent's root happens to be that of a retained revision, its
operations are proposed against the wrong tip; and the number of a block is only looked at when it
is appended to the canonical store.

`Clear` excludes these cases at every verification, and along runs that keep to it no decision
disturbs another block.
-/

namespace Avalanche.Evm

open Std

namespace Session

variable {R : Type} [DecidableEq R] (cfg : AvaEvmConfig R)
variable {b : EvmBlock R}

/-- Every undecided block on top of the last accepted one can be accepted, and its acceptance
commits the root of its header. -/
def Undisturbed (s : Session R) : Prop :=
  ∀ (b : EvmBlock R) (root : R) (receipts : List EthReceipt), s.Undecided b root →
    b.header.parentHash = s.vm.lastAccepted.1 →
    (handle cfg (.accept b receipts)).outcome s = .ok () ∧
      ((handle cfg (.accept b receipts)).exec s).vm.ctx.state.root cfg.hashing = b.header.stateRoot

/-- The parent of a verified block is the last accepted block, or it led to a state that is not
committed. In the first case the block carries the next number, and what its execution over the
committed state leads to is the root of no other undecided block. -/
def Clear (s : Session R) : Event R → Prop
  | .verify b _ _ =>
    s.vm.Ahead cfg b ∨
    (b.header.parentHash = s.vm.lastAccepted.1 ∧
      s.vm.ctx.canonical.next = .ok b.header.number ∧
      (s.vm.ctx.atomicBackend = none ∨ b.atomicTxs = []) ∧
      ∀ ops gas, b.outcomeOn cfg s.vm.ctx.state.db.tip = .ok (ops, gas) →
        ∀ b' root', s.Undecided b' root' → b'.hash ≠ b.hash →
          cfg.hashing.root (s.vm.ctx.state.db.tip.propose ops) ≠ root')
  | .accept _ _ => True
  | .reject _ => True

/-- The operations of a block are put aside under the root of its header, they are those its
execution over the committed state asks for, and they lead there. -/
structure Ready (s : Session R) (b : EvmBlock R) : Prop where
  outcome : ∃ ops, b.outcomeOn cfg s.vm.ctx.state.db.tip = .ok (ops, b.header.gasUsed) ∧
    cfg.hashing.root (s.vm.ctx.state.db.tip.propose ops) = b.header.stateRoot ∧
    s.vm.ctx.state.stash b.header.stateRoot = some ops
  next : s.vm.ctx.canonical.next = .ok b.header.number
  atomic : s.vm.ctx.atomicBackend = none ∨ b.atomicTxs = []

/-- What holds between the events of a clear run. -/
structure Inv (s : Session R) : Prop where
  lastAccepted_mem : s.vm.lastAccepted.1 ∈ s.acceptedIds
  declared : ∀ b root, s.Undecided b root → root = b.header.stateRoot
  /-- Every undecided block was verified on top of an accepted one. -/
  parent_mem : ∀ b root, s.Undecided b root → b.header.parentHash ∈ s.acceptedIds
  ready : ∀ b root, s.Undecided b root → b.header.parentHash = s.vm.lastAccepted.1 → s.Ready cfg b
  roots_ne : ∀ b root b' root', s.Undecided b root → s.Undecided b' root' → b.hash ≠ b'.hash →
    root ≠ root'

variable {cfg} {s : Session R}

omit [DecidableEq R] in
theorem Opened.inv (h : s.Opened) : s.Inv cfg := by
  have hnone : ∀ b root, ¬s.Undecided b root := fun b root hb ↦
    hb.not_accepted (h.verified_accepted _ _ hb.verified)
  exact ⟨h.lastAccepted_mem, fun b root hb ↦ absurd hb (hnone b root),
    fun b root hb ↦ absurd hb (hnone b root), fun b root hb ↦ absurd hb (hnone b root),
    fun b root _ _ hb ↦ absurd hb (hnone b root)⟩

theorem Inv.undisturbed (h : s.Inv cfg) : s.Undisturbed cfg := by
  intro b root receipts hb hparent
  have hready := h.ready b root hb hparent
  obtain ⟨ops, -, hroot, hstash⟩ := hready.outcome
  obtain rfl := h.declared b root hb
  obtain ⟨hout, -, -, -, htip⟩ :=
    accept_of_stash cfg hb.verified hstash hready.next hready.atomic receipts
  refine ⟨hout, ?_⟩
  rw [FirewoodStateProvider.root, htip, hroot]

/-! ### Verifications -/

/-- A valid block is put aside and becomes undecided. -/
theorem Inv.verify_valid (h : s.Inv cfg) {ops : FirewoodOps}
    (hnot : b.hash ∉ s.acceptedIds) (hparent : b.header.parentHash = s.vm.lastAccepted.1)
    (hnext : s.vm.ctx.canonical.next = .ok b.header.number)
    (hatomic : s.vm.ctx.atomicBackend = none ∨ b.atomicTxs = [])
    (hout : b.outcomeOn cfg s.vm.ctx.state.db.tip = .ok (ops, b.header.gasUsed))
    (hroot : cfg.hashing.root (s.vm.ctx.state.db.tip.propose ops) = b.header.stateRoot)
    (hne : ∀ b' root', s.Undecided b' root' → b'.hash ≠ b.hash → b.header.stateRoot ≠ root') :
    Inv cfg { s with vm := { s.vm with
      ctx := { s.vm.ctx with state := s.vm.ctx.state.stashProposal b.header.stateRoot ops }
      verified := s.vm.verified.insert b.hash ⟨b, b.header.stateRoot⟩ } } := by
  set s' : Session R := { s with vm := { s.vm with
    ctx := { s.vm.ctx with state := s.vm.ctx.state.stashProposal b.header.stateRoot ops }
    verified := s.vm.verified.insert b.hash ⟨b, b.header.stateRoot⟩ } } with hs'
  -- an undecided block is the new one or was undecided before
  have hcases : ∀ b' root', s'.Undecided b' root' →
      (b' = b ∧ root' = b.header.stateRoot) ∨ (b'.hash ≠ b.hash ∧ s.Undecided b' root') := by
    intro b' root' hb'
    have hv := hb'.verified
    rw [hs', TreeMap.getElem?_insert_eq] at hv
    split at hv
    · obtain ⟨rfl, rfl⟩ : b = b' ∧ b.header.stateRoot = root' := by simpa using hv
      exact .inl ⟨rfl, rfl⟩
    · rename_i hne'
      exact .inr ⟨fun heq ↦ hne' heq.symm, hv, hb'.not_accepted⟩
  have hready : s'.Ready cfg b := by
    refine ⟨⟨ops, hout, hroot, ?_⟩, hnext, hatomic⟩
    simp [hs', FirewoodStateProvider.stashProposal]
  refine ⟨h.lastAccepted_mem, ?_, ?_, ?_, ?_⟩
  · intro b' root' hb'
    rcases hcases b' root' hb' with ⟨rfl, rfl⟩ | ⟨-, hold⟩
    · rfl
    · exact h.declared b' root' hold
  · intro b' root' hb'
    rcases hcases b' root' hb' with ⟨rfl, rfl⟩ | ⟨-, hold⟩
    · rw [hparent]
      exact h.lastAccepted_mem
    · exact h.parent_mem b' root' hold
  · intro b' root' hb' hp'
    rcases hcases b' root' hb' with ⟨rfl, rfl⟩ | ⟨hhash, hold⟩
    · exact hready
    · obtain ⟨⟨ops', hout', hroot', hstash'⟩, hnext', hatomic'⟩ := h.ready b' root' hold hp'
      refine ⟨⟨ops', hout', hroot', ?_⟩, hnext', hatomic'⟩
      have hdiff : b'.header.stateRoot ≠ b.header.stateRoot := by
        rw [← h.declared b' root' hold]
        exact (hne b' root' hold hhash).symm
      simpa [hs', FirewoodStateProvider.stashProposal, hdiff] using hstash'
  · intro b₁ root₁ b₂ root₂ hb₁ hb₂ hhash
    rcases hcases b₁ root₁ hb₁ with ⟨rfl, rfl⟩ | ⟨hne₁, hold₁⟩ <;>
      rcases hcases b₂ root₂ hb₂ with ⟨rfl, rfl⟩ | ⟨hne₂, hold₂⟩
    · exact absurd rfl hhash
    · exact hne b₂ root₂ hold₂ hne₂
    · exact (hne b₁ root₁ hold₁ hne₁).symm
    · exact h.roots_ne b₁ root₁ b₂ root₂ hold₁ hold₂ hhash

/-- Nothing that an undecided block needs is under a root that is not its own. -/
theorem Inv.discard (h : s.Inv cfg) {root : R}
    (hne : ∀ b root', s.Undecided b root' → root' ≠ root) :
    Inv cfg { s with vm := { s.vm with
      ctx := { s.vm.ctx with state := s.vm.ctx.state.discard root } } } := by
  refine ⟨h.lastAccepted_mem, fun b root' hb ↦ h.declared b root' ⟨hb.verified, hb.not_accepted⟩,
    fun b root' hb ↦ h.parent_mem b root' ⟨hb.verified, hb.not_accepted⟩, ?_,
    fun b r b' r' hb hb' ↦ h.roots_ne b r b' r' ⟨hb.verified, hb.not_accepted⟩
      ⟨hb'.verified, hb'.not_accepted⟩⟩
  intro b root' hb hparent
  have hold : s.Undecided b root' := ⟨hb.verified, hb.not_accepted⟩
  obtain ⟨⟨ops, hout, hroot, hstash⟩, hnext, hatomic⟩ := h.ready b root' hold hparent
  refine ⟨⟨ops, hout, hroot, ?_⟩, hnext, hatomic⟩
  have hdiff : b.header.stateRoot ≠ root := by
    rw [← h.declared b root' hold]
    exact hne b root' hold
  simpa [FirewoodStateProvider.discard, hdiff] using hstash

theorem Inv.verify (h : s.Inv cfg) {nowMs : ℕ} {bootstrapped : Bool}
    (hlegal : s.Legal (.verify b nowMs bootstrapped))
    (hclear : s.Clear cfg (.verify b nowMs bootstrapped)) :
    Inv cfg ((handle cfg (.verify b nowMs bootstrapped)).exec s) := by
  obtain ⟨hnot, hsame⟩ := hlegal
  have hexec : (handle cfg (.verify b nowMs bootstrapped)).exec s
      = { s with vm := (Vm.verify cfg b nowMs bootstrapped).exec s.vm } := rfl
  rw [hexec]
  rcases hclear with hahead | ⟨hparent, hnext, hatomic, hne⟩
  · rw [(Vm.verify_of_ahead hahead nowMs bootstrapped).2]
    exact h
  rcases Vm.verify_cases cfg b nowMs bootstrapped s.vm with
    ⟨e, -, hvm, -⟩ | ⟨root, header, txs, view, ops, gas, hroot, -, -, hview, hout, hcase⟩
  · rw [hvm]
    exact h
  -- the parent is the last accepted block, so the view is the committed state
  have hview' : view = s.vm.ctx.state.db.tip := by
    rw [Vm.parentStateRoot, if_pos hparent.symm, Except.ok.injEq] at hroot
    rw [← hroot, FirewoodStateProvider.historyByStateRoot_root, Except.ok.injEq] at hview
    exact hview.symm
  subst hview'
  rcases hcase with ⟨hdeclared, rfl, -, hvm⟩ | ⟨hbad, -, hvm⟩
  · rw [hvm]
    refine h.verify_valid hnot hparent hnext hatomic hout hdeclared fun b' root' hb' hhash ↦ ?_
    rw [← hdeclared]
    exact hne ops _ hout b' root' hb' hhash
  · rw [hvm]
    refine h.discard fun b' root' hb' heq ↦ ?_
    by_cases hhash : b'.hash = b.hash
    · -- the block itself, verified before over the same state
      have hb : b' = b := hsame ⟨b', root'⟩ (by rw [← hhash]; exact hb'.verified)
      subst hb
      obtain ⟨ops', hout', hroot', -⟩ := (h.ready b' root' hb' hparent).outcome
      rw [hout, Except.ok.injEq, Prod.mk.injEq] at hout'
      obtain ⟨rfl, rfl⟩ := hout'
      exact hbad ⟨hroot', rfl⟩
    · exact hne ops gas hout b' root' hb' hhash heq.symm

/-! ### Decisions -/

theorem Inv.accept (h : s.Inv cfg) {receipts : List EthReceipt}
    (hlegal : s.Legal (.accept b receipts)) :
    Inv cfg ((handle cfg (.accept b receipts)).exec s) := by
  obtain ⟨hnot, hparent, hany⟩ := hlegal
  obtain ⟨root, hb⟩ := undecided_of_any hnot hany
  have hready := h.ready b root hb hparent
  obtain ⟨ops, -, -, hstash⟩ := hready.outcome
  rw [← h.declared b root hb] at hstash
  obtain ⟨-, hacc, hlast, hver, -⟩ :=
    accept_of_stash cfg hb.verified hstash hready.next hready.atomic receipts
  set s' := (handle cfg (.accept b receipts)).exec s
  have hids : s'.acceptedIds = b.hash :: s.acceptedIds := by
    rw [acceptedIds, hacc, List.map_cons, acceptedIds]
  have hold : ∀ b' root', s'.Undecided b' root' → s.Undecided b' root' := by
    intro b' root' hb'
    refine ⟨hver ▸ hb'.verified, fun hmem ↦ hb'.not_accepted ?_⟩
    rw [hids]
    exact List.mem_cons_of_mem _ hmem
  refine ⟨?_, fun b' root' hb' ↦ h.declared b' root' (hold b' root' hb'), ?_, ?_,
    fun b₁ r₁ b₂ r₂ hb₁ hb₂ ↦ h.roots_ne b₁ r₁ b₂ r₂ (hold b₁ r₁ hb₁) (hold b₂ r₂ hb₂)⟩
  · rw [hlast, hids]
    exact List.mem_cons_self
  · intro b' root' hb'
    rw [hids]
    exact List.mem_cons_of_mem _ (h.parent_mem b' root' (hold b' root' hb'))
  · -- every other undecided block was verified on top of a block accepted before
    intro b' root' hb' hparent'
    have hmem := h.parent_mem b' root' (hold b' root' hb')
    rw [hparent', hlast] at hmem
    exact absurd hmem hnot

omit [DecidableEq R] in
theorem Inv.erase (h : s.Inv cfg) (id : Id) :
    Inv cfg { s with vm := { s.vm with verified := s.vm.verified.erase id } } := by
  have hold : ∀ b root, Undecided { s with vm := { s.vm with verified := s.vm.verified.erase id } }
      b root → s.Undecided b root := by
    intro b root hb
    have hv := hb.verified
    rw [TreeMap.getElem?_erase_eq] at hv
    split at hv
    · cases hv
    · exact ⟨hv, hb.not_accepted⟩
  exact ⟨h.lastAccepted_mem, fun b root hb ↦ h.declared b root (hold b root hb),
    fun b root hb ↦ h.parent_mem b root (hold b root hb),
    fun b root hb hp ↦ by
      obtain ⟨hout, hnext, hatomic⟩ := h.ready b root (hold b root hb) hp
      exact ⟨hout, hnext, hatomic⟩,
    fun b₁ r₁ b₂ r₂ hb₁ hb₂ ↦ h.roots_ne b₁ r₁ b₂ r₂ (hold b₁ r₁ hb₁) (hold b₂ r₂ hb₂)⟩

theorem Inv.reject (h : s.Inv cfg) (hlegal : s.Legal (.reject b)) :
    Inv cfg ((handle cfg (.reject b)).exec s) := by
  obtain ⟨hnot, hany⟩ := hlegal
  obtain ⟨root, hb⟩ := undecided_of_any hnot hany
  rw [exec_reject hb]
  refine (h.erase b.hash).discard fun b' root' hb' ↦ ?_
  have hv := hb'.verified
  rw [TreeMap.getElem?_erase_eq] at hv
  split at hv
  · cases hv
  · rename_i hne
    exact h.roots_ne b' root' b root ⟨hv, hb'.not_accepted⟩ hb fun heq ↦ hne heq.symm

/-- Along a run that keeps to the rules and is clear, every verified block stays acceptable until it
is rejected, and its acceptance commits the root of its header. -/
theorem undisturbed_of_clear {events : List (Event R)} (hs : s.Opened)
    (h : Handler.Along (handle cfg) (fun s e ↦ s.Legal e ∧ s.Clear cfg e) s events) :
    (s.run cfg events).Undisturbed cfg := by
  refine Inv.undisturbed (Handler.execAll_of_along ?_ h hs.inv)
  rintro s (⟨b, nowMs, bootstrapped⟩ | ⟨b, receipts⟩ | ⟨b⟩) hinv ⟨hlegal, hclear⟩
  · exact hinv.verify hlegal hclear
  · exact hinv.accept hlegal
  · exact hinv.reject hlegal

/-- A block with a tx and one without, both on top of genesis. -/
def siblings : EvmBlock World × EvmBlock World :=
  (Plain.block 1 101 100 Plain.paid [Plain.tx] [], Plain.block 1 103 100 Plain.rich [] [])

/-- Both are verified and the second is rejected: the first stays acceptable. -/
theorem siblings_undisturbed :
    let s := (Plain.start none).run Plain.config
      [.verify siblings.1 2000 true, .verify siblings.2 2000 true, .reject siblings.2]
    s.Undecided siblings.1 Plain.paid ∧ s.Undisturbed Plain.config := by
  have hnone : ∀ b root, ¬(Plain.start none).Undecided b root := fun b root hb ↦
    hb.not_accepted ((Plain.start_opened none).verified_accepted _ _ hb.verified)
  refine ⟨⟨by decide +kernel, by decide +kernel⟩, undisturbed_of_clear (Plain.start_opened none)
    ⟨⟨by decide +kernel, .inr ⟨by decide +kernel, by rfl, .inl rfl,
      fun ops gas _ b root hb ↦ absurd hb (hnone b root)⟩⟩,
    ⟨by decide +kernel, .inr ⟨by decide +kernel, by decide +kernel, .inl (by decide +kernel),
      fun ops gas hops b root hb _ ↦ ?_⟩⟩,
    ⟨by decide +kernel, trivial⟩, trivial⟩⟩
  -- the second block leads back to the state of genesis, and the first does not
  set s := (handle Plain.config (.verify siblings.1 2000 true)).exec (Plain.start none) with hs
  have hroot : root = Plain.paid := by
    have hall : ∀ p ∈ s.vm.verified.toList,
        p.1 ∈ s.acceptedIds ∨ p.2.precommitRoot = Plain.paid := by decide +kernel
    exact (hall (b.hash, ⟨b, root⟩)
      (ExtTreeMap.mem_toList_iff_getElem?_eq_some.mpr hb.verified)).resolve_left hb.not_accepted
  have hout : siblings.2.outcomeOn Plain.config s.vm.ctx.state.db.tip = .ok ([], 0) := by
    decide +kernel
  obtain ⟨rfl, rfl⟩ := Prod.mk.inj (Except.ok.inj (hout.symm.trans hops))
  rw [hroot]
  decide +kernel

/-- Two blocks that change nothing, one on top of the other. -/
def twins : List (Event World) :=
  let first := Plain.block 1 101 100 Plain.rich [] []
  let second := Plain.block 2 102 101 Plain.rich [] []
  [.verify first 2000 true, .verify second 2000 true, .accept first []]

/-- Both are verified; accepting the first takes away what the second needs. -/
theorem twins_disturbed : (Plain.start none).Opened ∧
    Handler.Along (handle Plain.config) Legal (Plain.start none) twins ∧
    ¬((Plain.start none).run Plain.config twins).Undisturbed Plain.config := by
  refine ⟨Plain.start_opened none, by decide +kernel, fun h ↦ ?_⟩
  have haccept := (h (Plain.block 2 102 101 Plain.rich [] []) Plain.rich []
    ⟨by decide +kernel, by decide +kernel⟩ (by decide +kernel)).1
  have hfail : ((handle Plain.config (.accept (Plain.block 2 102 101 Plain.rich [] []) [])).outcome
      ((Plain.start none).run Plain.config twins)).isOk = false := by decide +kernel
  rw [haccept] at hfail
  cases hfail

end Session

end Avalanche.Evm
