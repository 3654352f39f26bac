import Avalanche.Snowman.Run

/-!
# Safety of the snowman consensus

Along every run the accepted blocks form one chain, every block is decided at most once, what
conflicts with an accepted block is rejected, and the map of blocks holds the last accepted block
and the undecided ones. `Safe` states this about the calls logged so far. It follows from
`SafetyInvariant`, which every accept and every add keeps; a step that only polls or marks nodes
changes neither the shape of the tree nor the log.
-/

namespace Avalanche

open Std Ancestry

/-- The block a call accepts. -/
def Decision.acceptedBlock : Decision → Option Block
  | .accept block => some block
  | .acceptor _ _ | .reject _ => none

/-- The block a call rejects. -/
def Decision.rejectedBlock : Decision → Option Block
  | .reject block => some block
  | .acceptor _ _ | .accept _ => none

/-- The block a call accepts or rejects. -/
def Decision.decidedBlock : Decision → Option Block
  | .accept block | .reject block => some block
  | .acceptor _ _ => none

/-- The accepted blocks, in the order of the calls. -/
def accepted (log : List Decision) : List Block := log.filterMap Decision.acceptedBlock

/-- The rejected blocks, in the order of the calls. -/
def rejected (log : List Decision) : List Block := log.filterMap Decision.rejectedBlock

/-- The blocks `accept` or `reject` was called on, once for each call. -/
def decided (log : List Decision) : List Block := log.filterMap Decision.decidedBlock

section Log

variable {log : List Decision} {b : Block} {rej : List Block}

theorem mem_decided : b ∈ decided log ↔ b ∈ accepted log ∨ b ∈ rejected log := by
  simp only [decided, accepted, rejected, List.mem_filterMap, ← exists_or, ← and_or_left]
  refine exists_congr fun d ↦ and_congr_right fun _ ↦ ?_
  cases d <;> simp [Decision.decidedBlock, Decision.acceptedBlock, Decision.rejectedBlock]

/-- A block on which both `accept` and `reject` were called is decided twice. -/
theorem not_nodup_of_both (hacc : b ∈ accepted log) (hrej : b ∈ rejected log) :
    ¬ ((decided log).map Block.id).Nodup := by
  induction log with
  | nil => cases hacc
  | cons d log ih =>
    have hmem : ∀ {c : Block}, c ∈ decided log → c.id ∈ (decided log).map Block.id := fun hc ↦
      List.mem_map_of_mem hc
    cases d with
    | acceptor => exact ih hacc hrej
    | accept a =>
      intro hnodup
      obtain ⟨hnot, hnodup⟩ := List.nodup_cons.mp hnodup
      obtain rfl | hacc := List.mem_cons.mp hacc
      · exact hnot (hmem (mem_decided.mpr (Or.inr hrej)))
      · exact ih hacc hrej hnodup
    | reject a =>
      intro hnodup
      obtain ⟨hnot, hnodup⟩ := List.nodup_cons.mp hnodup
      obtain rfl | hrej := List.mem_cons.mp hrej
      · exact hnot (hmem (mem_decided.mpr (Or.inl hacc)))
      · exact ih hacc hrej hnodup

/-- What accepting one block adds to the log. -/
def acceptLog (b : Block) (rej : List Block) : List Decision :=
  [Decision.acceptor b.id b.bytes, Decision.accept b] ++ rej.map Decision.reject

theorem accepted_append_acceptLog (log : List Decision) (b : Block) (rej : List Block) :
    accepted (log ++ acceptLog b rej) = accepted log ++ [b] := by
  simp [accepted, acceptLog, List.filterMap_cons, Function.comp_def, Decision.acceptedBlock]

theorem rejected_append_acceptLog (log : List Decision) (b : Block) (rej : List Block) :
    rejected (log ++ acceptLog b rej) = rejected log ++ rej := by
  simp [rejected, acceptLog, List.filterMap_cons, Function.comp_def, Decision.rejectedBlock]

theorem decided_append_acceptLog (log : List Decision) (b : Block) (rej : List Block) :
    decided (log ++ acceptLog b rej) = decided log ++ b :: rej := by
  simp [decided, acceptLog, List.filterMap_cons, Function.comp_def, Decision.decidedBlock]

end Log

namespace Topological

variable {F : Factory} {t t' : Topological F} {la : Id} {added : List Block} {b : Block}

/-- `c` is a proper descendant of `b` among the added blocks. -/
def Descends (added : List Block) : Block → Block → Prop :=
  Relation.TransGen fun c p ↦ c ∈ added ∧ p ∈ added ∧ c.parent = p.id

/-- Safety of an instance that was started on `la` and to which the blocks `added` were added. -/
structure Safe (la : Id) (added : List Block) (t : Topological F) : Prop where
  /-- The parent of an accepted block is the block accepted before it. -/
  chain : (accepted t.log).IsChain fun a b ↦ b.parent = a.id
  /-- The parent of the first accepted block is the block the instance was started on. -/
  first : ∀ b ∈ (accepted t.log).head?, b.parent = la
  heights : (accepted t.log).Pairwise fun a b ↦ a.height ≠ b.height
  /-- No block is decided twice. -/
  once : ((decided t.log).map Block.id).Nodup
  known : ∀ b ∈ decided t.log, b ∈ added
  siblings : ∀ a ∈ accepted t.log, ∀ c ∈ added, c.parent = a.parent → c ≠ a → c ∈ rejected t.log
  descendants : ∀ b ∈ rejected t.log, ∀ c, Descends added c b → c ∈ rejected t.log
  /-- The last accepted block is the latest one in the log. -/
  last : t.lastAcceptedId = (((accepted t.log).getLast?).map Block.id).getD la
  blocks : ∀ id : Id, (∃ n, t.blocks[id]? = some n) ↔
    id = t.lastAcceptedId ∨ ∃ b ∈ added, b.id = id ∧ b ∉ decided t.log

/-- What every operation keeps. -/
structure SafetyInvariant (la : Id) (added : List Block) (t : Topological F) : Prop where
  wellFormed : t.WellFormed
  callbacks : t.CallbacksOk
  verified : t.params.Verified
  ids : (added.map Block.id).Nodup
  fresh : ∀ b ∈ added, b.id ≠ la
  /-- The pending blocks are the undecided ones. -/
  pending : ∀ b, t.Holds b ∧ b.id ≠ t.lastAcceptedId ↔ b ∈ added ∧ b ∉ decided t.log
  known : ∀ b ∈ decided t.log, b ∈ added
  once : ((decided t.log).map Block.id).Nodup
  chain : (accepted t.log).IsChain fun a b ↦ b.parent = a.id
  first : ∀ b ∈ (accepted t.log).head?, b.parent = la
  last : t.lastAcceptedId = (((accepted t.log).getLast?).map Block.id).getD la
  height_le : ∀ a ∈ accepted t.log, a.height ≤ t.lastAcceptedHeight
  height_lt : (accepted t.log).Pairwise fun a b ↦ a.height < b.height
  /-- The parent of an accepted block has left the tree. -/
  gone : ∀ a ∈ accepted t.log, t.blocks[a.parent]? = none
  siblings : ∀ a ∈ accepted t.log, ∀ c ∈ added, c.parent = a.parent → c ≠ a → c ∈ rejected t.log
  children : ∀ b ∈ rejected t.log, ∀ c ∈ added, c.parent = b.id → c ∈ rejected t.log

theorem SameShape.eq_none_iff (h : SameShape t t') {id : Id} :
    t'.blocks[id]? = none ↔ t.blocks[id]? = none := by
  have hid := h.blocks id
  cases hn : t.blocks[id]? with
  | none => simpa [hn] using hid
  | some n => cases hn' : t'.blocks[id]? <;> simp [hn, hn'] at hid ⊢

/-- A block in the tree that is not the last accepted one is listed under its id. -/
theorem WellFormed.exists_holds (hw : t.WellFormed) {id : Id} {n : SnowmanBlock F}
    (hn : t.blocks[id]? = some n) (hid : id ≠ t.lastAcceptedId) :
    ∃ b, t.Holds b ∧ b.id = id ∧ t.pendingParent id = some b.parent := by
  obtain ⟨b, hb, -, pn, hpn, hc⟩ := hw.pending hn hid
  obtain ⟨hbid, hholds, hparent⟩ := hw.holds_child hpn hc
  exact ⟨b, hholds, hbid, hbid ▸ hparent⟩

theorem Holds.pendingParent (hb : t.Holds b) (hw : t.WellFormed) (hid : b.id ≠ t.lastAcceptedId) :
    t.pendingParent b.id = some b.parent := by
  obtain ⟨n, hn, hblk⟩ := hb
  exact hw.pendingParent_iff.mpr ⟨hid, n, b, hn, hblk, rfl⟩

namespace SafetyInvariant

variable (h : SafetyInvariant la added t)

include h

theorem safe : Safe la added t where
  chain := h.chain
  first := h.first
  heights := h.height_lt.imp fun hlt ↦ hlt.ne
  once := h.once
  known := h.known
  siblings := h.siblings
  descendants := by
    intro b hb c hcb
    induction hcb using Relation.TransGen.head_induction_on with
    | single hstep => exact h.children b hb _ hstep.1 hstep.2.2
    | head hstep _ ih => exact h.children _ ih _ hstep.1 hstep.2.2
  last := h.last
  blocks := by
    intro id
    constructor
    · rintro ⟨n, hn⟩
      by_cases hid : id = t.lastAcceptedId
      · exact Or.inl hid
      · obtain ⟨b, hholds, rfl, -⟩ := h.wellFormed.exists_holds hn hid
        obtain ⟨hb, hundecided⟩ := (h.pending b).mp ⟨hholds, hid⟩
        exact Or.inr ⟨b, hb, rfl, hundecided⟩
    · rintro (rfl | ⟨b, hb, rfl, hundecided⟩)
      · obtain ⟨n, hn, -⟩ := h.wellFormed.root
        exact ⟨n, hn⟩
      · obtain ⟨⟨n, hn, -⟩, -⟩ := (h.pending b).mpr ⟨hb, hundecided⟩
        exact ⟨n, hn⟩

/-- Steps that change neither the shape nor the log keep the invariant. -/
theorem of_sameShape (hshape : SameShape t t') (hw : t'.WellFormed) (hlog : t'.log = t.log)
    (hacc : t'.blockAcceptor = t.blockAcceptor) : SafetyInvariant la added t' where
  wellFormed := hw
  callbacks :=
    { blockAcceptor := hacc ▸ h.callbacks.blockAcceptor
      accept := fun b hb ↦ h.callbacks.accept b (hshape.holds_iff.mp hb)
      reject := fun b hb ↦ h.callbacks.reject b (hshape.holds_iff.mp hb) }
  verified := hshape.params ▸ h.verified
  ids := h.ids
  fresh := h.fresh
  pending b := by rw [hshape.holds_iff, hshape.lastAcceptedId, hlog, h.pending b]
  known := hlog ▸ h.known
  once := hlog ▸ h.once
  chain := hlog ▸ h.chain
  first := hlog ▸ h.first
  last := by rw [hshape.lastAcceptedId, hlog, ← h.last]
  height_le := by rw [hshape.lastAcceptedHeight, hlog]; exact h.height_le
  height_lt := hlog ▸ h.height_lt
  gone a ha := hshape.eq_none_iff.mpr (h.gone a (hlog ▸ ha))
  siblings := hlog ▸ h.siblings
  children := hlog ▸ h.children

/-- A block whose parent is in the tree is not accepted yet. -/
theorem not_mem_accepted {n : SnowmanBlock F} (hn : t.blocks[b.parent]? = some n) :
    b ∉ accepted t.log := by
  intro hb
  rw [h.gone b hb] at hn
  cases hn

/-- Accepting a block keeps the invariant. -/
theorem accept (hacc : Accepted t t' b) : SafetyInvariant la added t' := by
  obtain ⟨rej, hlog, hnodup, hmem⟩ := hacc.log
  have hw := h.wellFormed
  rw [List.append_assoc] at hlog
  change t'.log = t.log ++ acceptLog b rej at hlog
  have hacclog : accepted t'.log = accepted t.log ++ [b] := by
    rw [hlog, accepted_append_acceptLog]
  have hrejlog : rejected t'.log = rejected t.log ++ rej := by
    rw [hlog, rejected_append_acceptLog]
  have hdeclog : decided t'.log = decided t.log ++ b :: rej := by
    rw [hlog, decided_append_acceptLog]
  have hne := hacc.ne_root hw
  have hbparent : b.parent = t.lastAcceptedId := Option.some_injective _
    ((hacc.holds.pendingParent hw hne).symm.trans hacc.parent)
  have hlt : t.lastAcceptedHeight < b.height := by
    obtain ⟨n, hn, hblk⟩ := hacc.holds
    obtain ⟨b', hb', hlt, -⟩ := hw.pending hn hne
    cases hblk.symm.trans hb'
    exact hlt
  -- the newly decided blocks were pending
  have hnew : ∀ c ∈ b :: rej, t.Holds c ∧ c.id ≠ t.lastAcceptedId := by
    intro c hc
    obtain rfl | hc := List.mem_cons.mp hc
    · exact ⟨hacc.holds, hne⟩
    · exact ⟨((hmem c).mp hc).1, ((hmem c).mp hc).2.1⟩
  have hholds : ∀ c, t'.Holds c ↔ t.Holds c ∧ AtOrBelow t.pendingParent c.id b.id := by
    intro c
    constructor
    · rintro ⟨n, hn, hc⟩
      obtain ⟨hle, hn⟩ := hacc.of_some hn
      exact ⟨⟨n, hn, hc⟩, hle⟩
    · rintro ⟨⟨n, hn, hc⟩, hle⟩
      exact ⟨n, (hacc.kept hle).trans hn, hc⟩
  -- a child of a block of the tree is rejected by now if it is not below the accepted block
  have hrejected : ∀ c ∈ added, ∀ n, t.blocks[c.parent]? = some n →
      (t.Holds c → t.pendingParent c.id = some c.parent → ¬ AtOrBelow t.pendingParent c.id b.id) →
      c ∈ rejected t.log ++ rej := by
    intro c hc n hn hnot
    by_cases hdec : c ∈ decided t.log
    · exact List.mem_append_left _ ((mem_decided.mp hdec).resolve_left (h.not_mem_accepted hn))
    · obtain ⟨hholdsc, hcne⟩ := (h.pending c).mpr ⟨hc, hdec⟩
      exact List.mem_append_right _
        ((hmem c).mpr ⟨hholdsc, hcne, hnot hholdsc (hholdsc.pendingParent hw hcne)⟩)
  constructor
  case wellFormed => exact hacc.wellFormed hw
  case callbacks =>
    refine ⟨?_, fun c hc ↦ h.callbacks.accept c ((hholds c).mp hc).1,
      fun c hc ↦ h.callbacks.reject c ((hholds c).mp hc).1⟩
    rw [hacc.rest]
    exact h.callbacks.blockAcceptor
  case verified => exact hacc.params ▸ h.verified
  case ids => exact h.ids
  case fresh => exact h.fresh
  case pending =>
    intro c
    rw [hholds, hacc.lastAcceptedId, hdeclog, List.mem_append, List.mem_cons]
    constructor
    · rintro ⟨⟨hc, hle⟩, hcb⟩
      obtain ⟨hadded, hundecided⟩ := (h.pending c).mp ⟨hc, hacc.ne_root_of_atOrBelow hw hle⟩
      refine ⟨hadded, ?_⟩
      rintro (hold | rfl | hrej)
      · exact hundecided hold
      · exact hcb rfl
      · exact ((hmem c).mp hrej).2.2 hle
    · rintro ⟨hadded, hundecided⟩
      obtain ⟨hold, hcb, hrej⟩ : c ∉ decided t.log ∧ c ≠ b ∧ c ∉ rej := by
        simpa only [not_or] using hundecided
      obtain ⟨hc, hcne⟩ := (h.pending c).mpr ⟨hadded, hold⟩
      refine ⟨⟨hc, ?_⟩, fun heq ↦ hcb (hc.eq hacc.holds heq)⟩
      by_contra hnot
      exact hrej ((hmem c).mpr ⟨hc, hcne, hnot⟩)
  case known =>
    rw [hdeclog]
    intro c hc
    obtain hc | hc := List.mem_append.mp hc
    · exact h.known c hc
    · exact ((h.pending c).mp (hnew c hc)).1
  case once =>
    rw [hdeclog, List.map_append]
    refine List.nodup_append.mpr ⟨h.once, ?_, ?_⟩
    · refine List.nodup_cons.mpr ⟨fun hb ↦ ?_, hnodup⟩
      obtain ⟨c, hc, hcb⟩ := List.mem_map.mp hb
      exact ((hmem c).mp hc).2.2 (hcb ▸ AtOrBelow.refl _)
    · rintro i hi j hj rfl
      obtain ⟨a, ha, rfl⟩ := List.mem_map.mp hi
      obtain ⟨c, hc, hca⟩ := List.mem_map.mp hj
      obtain ⟨hcadded, hundecided⟩ := (h.pending c).mp (hnew c hc)
      exact hundecided (List.inj_on_of_nodup_map h.ids hcadded (h.known a ha) hca ▸ ha)
  case chain =>
    rw [hacclog]
    refine List.isChain_append.mpr ⟨h.chain, List.isChain_singleton _, ?_⟩
    intro a ha c hc
    obtain rfl : b = c := by simpa using hc
    rw [hbparent, h.last, Option.mem_def.mp ha]
    rfl
  case first =>
    rw [hacclog]
    intro a ha
    cases hold : accepted t.log with
    | nil =>
      obtain rfl : b = a := by simpa [hold] using ha
      rw [hbparent, h.last, hold]
      rfl
    | cons c l =>
      refine h.first a ?_
      rw [hold] at ha ⊢
      exact ha
  case last => rw [hacclog, hacc.lastAcceptedId, List.getLast?_concat]; rfl
  case height_le =>
    rw [hacclog, hacc.lastAcceptedHeight]
    intro a ha
    obtain ha | ha := List.mem_append.mp ha
    · exact (h.height_le a ha).trans hlt.le
    · obtain rfl := List.mem_singleton.mp ha
      exact le_rfl
  case height_lt =>
    rw [hacclog]
    refine List.pairwise_append.mpr ⟨h.height_lt, List.pairwise_singleton _ _, ?_⟩
    intro a ha c hc
    obtain rfl := List.mem_singleton.mp hc
    exact (h.height_le a ha).trans_lt hlt
  case gone =>
    rw [hacclog]
    intro a ha
    obtain ha | ha := List.mem_append.mp ha
    · cases hn : t'.blocks[a.parent]? with
      | none => rfl
      | some n =>
        have hold := h.gone a ha
        rw [(hacc.of_some hn).2] at hold
        cases hold
    · obtain rfl := List.mem_singleton.mp ha
      rw [hbparent]
      exact hacc.removed (hacc.not_root_atOrBelow hw)
  case siblings =>
    rw [hacclog, hrejlog]
    intro a ha c hc hparent hca
    obtain ha | ha := List.mem_append.mp ha
    · exact List.mem_append_left _ (h.siblings a ha c hc hparent hca)
    · obtain rfl := List.mem_singleton.mp ha
      rw [hbparent] at hparent
      obtain ⟨n, hn, -⟩ := hw.root
      refine hrejected c hc n (hparent ▸ hn) fun hholdsc hcparent hle ↦ ?_
      rw [hparent] at hcparent
      have heq := hw.ranked.child_unique (AtOrBelow.refl _) hle hcparent hacc.parent
      exact hca (hholdsc.eq hacc.holds heq)
  case children =>
    rw [hrejlog]
    intro a ha c hc hparent
    obtain ha | ha := List.mem_append.mp ha
    · exact List.mem_append_left _ (h.children a ha c hc hparent)
    · obtain ⟨⟨n, hn, -⟩, hane, hanot⟩ := (hmem a).mp ha
      refine hrejected c hc n (hparent ▸ hn) fun _ hcparent hle ↦ ?_
      rw [hparent] at hcparent
      obtain heq | hbelow := atOrBelow_iff.mp hle
      · rw [heq, hacc.parent] at hcparent
        exact hane (Option.some.inj hcparent).symm
      · exact hanot ((below_iff_of_up hcparent).mp hbelow)

/-- The parents of accepted blocks were accepted too, or are the first block. -/
theorem parent_accepted {a : Block} (ha : a ∈ accepted t.log) :
    a.parent = la ∨ ∃ c ∈ accepted t.log, c.id = a.parent := by
  obtain ⟨l, r, hlr⟩ := List.append_of_mem ha
  have hchain := h.chain
  have hfirst := h.first
  rw [hlr] at hchain hfirst ⊢
  cases hl : l.getLast? with
  | none =>
    obtain rfl := List.getLast?_eq_none_iff.mp hl
    exact Or.inl (hfirst a rfl)
  | some c =>
    refine Or.inr ⟨c, List.mem_append_left _ (List.mem_of_getLast? hl), ?_⟩
    exact ((List.isChain_append.mp hchain).2.2 c hl a rfl).symm

theorem lastAccepted_cases :
    t.lastAcceptedId = la ∨ ∃ a ∈ accepted t.log, a.id = t.lastAcceptedId := by
  rw [h.last]
  cases hl : (accepted t.log).getLast? with
  | none => exact Or.inl rfl
  | some a => exact Or.inr ⟨a, List.mem_of_getLast? hl, rfl⟩

/-- A rejected block has left the tree. -/
theorem rejected_gone (hb : b ∈ rejected t.log) : t.blocks[b.id]? = none := by
  have hdec : b ∈ decided t.log := mem_decided.mpr (Or.inr hb)
  have hadded := h.known b hdec
  have hne : b.id ≠ t.lastAcceptedId := by
    intro heq
    obtain hla | ⟨a, ha, hid⟩ := h.lastAccepted_cases
    · exact h.fresh b hadded (heq.trans hla)
    · have hadec := mem_decided.mpr (Or.inl ha)
      obtain rfl := List.inj_on_of_nodup_map h.ids (h.known a hadec) hadded (hid.trans heq.symm)
      exact not_nodup_of_both ha hb h.once
  cases hn : t.blocks[b.id]? with
  | none => rfl
  | some n =>
    obtain ⟨c, hc, hid, -⟩ := h.wellFormed.exists_holds hn hne
    obtain ⟨hcadded, hundecided⟩ := (h.pending c).mp ⟨hc, hid ▸ hne⟩
    exact absurd (List.inj_on_of_nodup_map h.ids hcadded hadded hid ▸ hdec) hundecided

/-- A fresh id is not that of the last accepted block. -/
theorem ne_lastAcceptedId (hla : b.id ≠ la) (hfresh : ∀ a ∈ added, a.id ≠ b.id) :
    b.id ≠ t.lastAcceptedId := by
  obtain heq | ⟨a, ha, heq⟩ := h.lastAccepted_cases
  · exact heq ▸ hla
  · exact heq ▸ (hfresh a (h.known a (mem_decided.mpr (Or.inl ha)))).symm

/-- Adding a fresh block keeps the invariant. -/
theorem grown {pn : SnowmanBlock F} (hpn : t.blocks[b.parent]? = some pn)
    (hnew : t.blocks[b.id]? = none) (hheight : b.height = t.heightOf b.parent + 1) (hla : b.id ≠ la)
    (hfresh : ∀ a ∈ added, a.id ≠ b.id) (haccept : b.accept = .ok ())
    (hreject : b.reject = .ok ()) : SafetyInvariant la (b :: added) (t.grown pn b) := by
  have hundecided : b ∉ decided t.log := fun hb ↦ hfresh b (h.known b hb) rfl
  have hholds : ∀ c, (t.grown pn b).Holds c ↔ t.Holds c ∨ c = b := by
    intro c
    constructor
    · rintro ⟨n, hn, hc⟩
      obtain ⟨-, rfl⟩ | ⟨hp, -, rfl⟩ | ⟨-, -, hn⟩ := grown_cases hn
      · exact Or.inr (Option.some.inj hc).symm
      · exact Or.inl ⟨pn, hp ▸ hpn, hc⟩
      · exact Or.inl ⟨n, hn, hc⟩
    · rintro (⟨n, hn, hc⟩ | rfl)
      · obtain ⟨n', hn', hblk, -⟩ := grown_of_some hpn hnew hn
        exact ⟨n', hn', hblk.trans hc⟩
      · exact ⟨SnowmanBlock.processing c, by rw [blocks_grown, if_pos rfl], rfl⟩
  constructor
  case wellFormed => exact h.wellFormed.grown hpn hnew hheight
  case callbacks =>
    refine ⟨h.callbacks.blockAcceptor, fun c hc ↦ ?_, fun c hc ↦ ?_⟩
    · obtain hc | rfl := (hholds c).mp hc
      · exact h.callbacks.accept c hc
      · exact haccept
    · obtain hc | rfl := (hholds c).mp hc
      · exact h.callbacks.reject c hc
      · exact hreject
  case verified => exact h.verified
  case ids =>
    refine List.nodup_cons.mpr ⟨fun hmem ↦ ?_, h.ids⟩
    obtain ⟨a, ha, hid⟩ := List.mem_map.mp hmem
    exact hfresh a ha hid
  case fresh =>
    intro c hc
    obtain rfl | hc := List.mem_cons.mp hc
    · exact hla
    · exact h.fresh c hc
  case pending =>
    intro c
    rw [hholds, List.mem_cons]
    constructor
    · rintro ⟨hc | rfl, hcne⟩
      · obtain ⟨hadded, hdec⟩ := (h.pending c).mp ⟨hc, hcne⟩
        exact ⟨Or.inr hadded, hdec⟩
      · exact ⟨Or.inl rfl, hundecided⟩
    · rintro ⟨rfl | hadded, hdec⟩
      · exact ⟨Or.inr rfl, h.ne_lastAcceptedId hla hfresh⟩
      · obtain ⟨hc, hcne⟩ := (h.pending c).mpr ⟨hadded, hdec⟩
        exact ⟨Or.inl hc, hcne⟩
  case known => exact fun c hc ↦ List.mem_cons_of_mem _ (h.known c hc)
  case once => exact h.once
  case chain => exact h.chain
  case first => exact h.first
  case last => exact h.last
  case height_le => exact h.height_le
  case height_lt => exact h.height_lt
  case gone =>
    intro a ha
    have hgone := h.gone a ha
    have hid : b.id ≠ a.parent := by
      obtain heq | ⟨c, hc, heq⟩ := h.parent_accepted ha
      · exact heq ▸ hla
      · exact heq ▸ (hfresh c (h.known c (mem_decided.mpr (Or.inl hc)))).symm
    have hp : b.parent ≠ a.parent := fun heq ↦ h.not_mem_accepted (heq ▸ hpn) ha
    rw [blocks_grown, if_neg hid, if_neg hp, hgone]
  case siblings =>
    intro a ha c hc hparent hca
    obtain rfl | hc := List.mem_cons.mp hc
    · exact absurd ha (h.not_mem_accepted (hparent ▸ hpn))
    · exact h.siblings a ha c hc hparent hca
  case children =>
    intro a ha c hc hparent
    obtain rfl | hc := List.mem_cons.mp hc
    · have hgone := h.rejected_gone ha
      rw [← hparent, hpn] at hgone
      cases hgone
    · exact h.children a ha c hc hparent

theorem add (hheight : t.HeightOk b) (hla : b.id ≠ la)
    (hfresh : ∀ a ∈ added, a.id ≠ b.id) (haccept : b.accept = .ok ()) (hreject : b.reject = .ok ())
    (hadd : t.add b = .ok t') : SafetyInvariant la (b :: added) t' := by
  obtain ⟨hproc, pn, hpn, rfl⟩ := add_cases hadd
  have hne := h.ne_lastAcceptedId hla hfresh
  have hgrown := h.grown hpn (blocks_eq_none_of_processing hproc hne) (hheight ⟨pn, hpn⟩) hla
    hfresh haccept hreject
  split
  · exact hgrown.of_sameShape (sameShape_withPreferred _ _ _ _)
      (hgrown.wellFormed.withPreferred _ _ _) rfl rfl
  · exact hgrown

theorem voteStep {vote : Votes} {n : SnowmanBlock F} {nextId : Id}
    (hn : t.blocks[vote.parentId]? = some n) (hstep : t.voteStep vote n nextId = .ok t') :
    SafetyInvariant la added t' := by
  have hpolled : SafetyInvariant la added (t.polled vote.parentId n vote.votes) :=
    h.of_sameShape (sameShape_polled hn vote.votes) (h.wellFormed.polled hn vote.votes) rfl rfl
  obtain ⟨-, rfl⟩ | ⟨-, -, b, hacc, -⟩ := voteStep_cases h.wellFormed hn hstep
  · exact hpolled.of_sameShape (sameShape_falterChildren _ _ _ _)
      (hpolled.wellFormed.falterChildren _ _ _) rfl rfl
  · exact hpolled.accept hacc

theorem counted : SafetyInvariant la added t.counted :=
  h.of_sameShape (sameShape_counted t) h.wellFormed.counted rfl rfl

theorem faltered : SafetyInvariant la added t.faltered :=
  h.of_sameShape (sameShape_faltered t) h.wellFormed.faltered rfl rfl

theorem recordPoll {votes : Bag Id} (hpoll : t.recordPoll votes = .ok t') :
    SafetyInvariant la added t' :=
  recordPoll_inv (fun _ h ↦ h.counted) (fun _ _ _ _ _ h hn hstep ↦ h.voteStep hn hstep)
    (fun _ h ↦ h.faltered)
    (fun _ _ _ _ h ↦ h.of_sameShape (sameShape_withPreferred _ _ _ _)
      (h.wellFormed.withPreferred _ _ _) rfl rfl)
    (fun _ h ↦ h.wellFormed) h hpoll

/-- A poll never fails. -/
theorem exists_recordPoll (votes : Bag Id) : ∃ t', t.recordPoll votes = .ok t' := by
  refine Topological.exists_recordPoll (fun _ h ↦ h.counted) ?_ (fun _ h ↦ h.faltered)
    (fun _ h ↦ h.wellFormed) h.verified.alphaPreference_pos h votes
  intro t vote n nextId h hn
  obtain ⟨t', ht'⟩ := exists_voteStep h.wellFormed h.callbacks hn nextId
  exact ⟨t', ht', h.voteStep hn ht'⟩

end SafetyInvariant

section Runs

variable {blockAcceptor : Id → List UInt8 → Except SnowError Unit} {params : Parameters}
  {lastAcceptedHeight : ℕ} {t₀ : Topological F} {history : List (Event F)}

theorem safetyInvariant_new (h : new F blockAcceptor params la lastAcceptedHeight = .ok t)
    (hacceptor : ∀ id bytes, blockAcceptor id bytes = .ok ()) : SafetyInvariant la [] t := by
  have hw := wellFormed_new h
  obtain ⟨hverified, ht⟩ := new_cases h
  have hnone : ∀ b, ¬ t.Holds b := by
    rintro b ⟨n, hn, hb⟩
    rw [blocks_new h] at hn
    split at hn
    · rw [← Option.some.inj hn] at hb
      cases hb
    · cases hn
  have hacc : accepted t.log = [] := by rw [ht]; rfl
  have hrej : rejected t.log = [] := by rw [ht]; rfl
  have hdec : decided t.log = [] := by rw [ht]; rfl
  constructor
  case wellFormed => exact hw
  case callbacks =>
    refine ⟨?_, fun b hb ↦ absurd hb (hnone b), fun b hb ↦ absurd hb (hnone b)⟩
    rw [ht]
    exact hacceptor
  case verified => rwa [ht]
  case pending => exact fun b ↦ iff_of_false (fun hb ↦ hnone b hb.1) (by simp)
  case last => rw [hacc, ht]; rfl
  all_goals simp [hacc, hrej, hdec]

/-- What the caller promises: fresh ids, heights that grow by one, and callbacks that do not fail.
-/
def SafetyPromise (la : Id) (history : List (Event F)) (t : Topological F) : Call → Prop
  | .add b => b.id ≠ la ∧ (∀ a ∈ Avalanche.added history, a.id ≠ b.id) ∧ t.HeightOk b ∧
      b.accept = .ok () ∧ b.reject = .ok ()
  | .recordPoll _ => True

theorem Run.safetyInvariant (hnew : new F blockAcceptor params la lastAcceptedHeight = .ok t₀)
    (hacceptor : ∀ id bytes, blockAcceptor id bytes = .ok ())
    (hrun : Run (SafetyPromise la) t₀ history t) :
    SafetyInvariant la (Avalanche.added history) t := by
  induction hrun with
  | start => exact safetyInvariant_new hnew hacceptor
  | @next history t t' call _ hpromise hstep ih =>
    cases call with
    | add b =>
      obtain ⟨hla, hfresh, hheight, haccept, hreject⟩ := hpromise
      obtain ⟨hadd, heq⟩ | ⟨rfl, heq⟩ := step_add_cases hstep history
      · rw [heq]
        exact ih.add hheight hla hfresh haccept hreject hadd
      · rw [heq]
        exact ih
    | recordPoll votes => exact ih.recordPoll hstep

/-- **Snowman safety**: every instance reached by a run is safe, and no poll on it fails. -/
theorem safe_of_run (hnew : new F blockAcceptor params la lastAcceptedHeight = .ok t₀)
    (hacceptor : ∀ id bytes, blockAcceptor id bytes = .ok ())
    (hrun : Run (SafetyPromise la) t₀ history t) :
    Safe la (Avalanche.added history) t ∧ ∀ votes, ∃ t', t.recordPoll votes = .ok t' :=
  have h := Run.safetyInvariant hnew hacceptor hrun
  ⟨h.safe, h.exists_recordPoll⟩

/-- **No undecided block is stranded**: it stands above the last accepted block, with nothing but
undecided blocks in between. -/
theorem undecided_of_run (hnew : new F blockAcceptor params la lastAcceptedHeight = .ok t₀)
    (hacceptor : ∀ id bytes, blockAcceptor id bytes = .ok ())
    (hrun : Run (SafetyPromise la) t₀ history t) :
    ∀ b ∈ Avalanche.added history, b ∉ decided t.log →
      Below t.pendingParent b.id t.lastAcceptedId ∧ t.lastAcceptedHeight < b.height ∧
        (b.parent = t.lastAcceptedId ∨
          ∃ p ∈ Avalanche.added history, p.id = b.parent ∧ p ∉ decided t.log) := by
  intro b hb hundecided
  have h := Run.safetyInvariant hnew hacceptor hrun
  obtain ⟨⟨n, hn, hblk⟩, hid⟩ := (h.pending b).mpr ⟨hb, hundecided⟩
  obtain ⟨a, ha, hlt, pn, hpn, -⟩ := h.wellFormed.pending hn hid
  obtain rfl := Option.some.inj (ha.symm.trans hblk)
  refine ⟨h.wellFormed.below_root hn hid, hlt, or_iff_not_imp_left.mpr fun hp ↦ ?_⟩
  obtain ⟨p, hholds, hpid, -⟩ := h.wellFormed.exists_holds hpn hp
  obtain ⟨hadded, hopen⟩ := (h.pending p).mp ⟨hholds, hpid ▸ hp⟩
  exact ⟨p, hadded, hpid, hopen⟩

end Runs

/-- Two conflicting blocks are added and the first is polled until it is accepted. -/
theorem safe_of_run_example : ∃ (history : List (Event snowballFactory)) (t : Topological _),
    Run (SafetyPromise 1#256) exampleInstance history t ∧
      ((accepted t.log).map Block.id, (rejected t.log).map Block.id) = ([2#256], [3#256]) ∧
      Safe 1#256 (Avalanche.added history) t := by
  have hok : ∀ id bytes, (fun _ _ ↦ .ok () : Id → List UInt8 → Except SnowError Unit) id bytes
      = .ok () := fun _ _ ↦ rfl
  obtain ⟨t₁, ht₁, hheight₁, hadded₁⟩ : ∃ t₁,
      exampleInstance.step (.add (exampleBlock 2#256 1#256 1)) = .ok t₁ ∧
        t₁.HeightOk (exampleBlock 3#256 1#256 1) ∧
        ∀ a ∈ Avalanche.added [⟨exampleInstance, .add (exampleBlock 2#256 1#256 1)⟩],
          a.id ≠ 3#256 := ⟨_, rfl, fun _ ↦ rfl, by decide⟩
  have hrun₁ := Run.next (.add (exampleBlock 2#256 1#256 1))
    (.start : Run (SafetyPromise 1#256) _ _ _) ⟨by decide, by decide, fun _ ↦ rfl, rfl, rfl⟩ ht₁
  obtain ⟨t₂, ht₂⟩ : ∃ t₂, t₁.step (.add (exampleBlock 3#256 1#256 1)) = .ok t₂ := by
    rw [step]
    split <;> exact ⟨_, rfl⟩
  have hrun₂ := Run.next (.add (exampleBlock 3#256 1#256 1)) hrun₁
    ⟨by decide, hadded₁, hheight₁, rfl, rfl⟩ ht₂
  obtain ⟨t₃, ht₃⟩ := (safe_of_run new_exampleInstance hok hrun₂).2 ⟨[2#256]⟩
  have hrun₃ := Run.next (.recordPoll ⟨[2#256]⟩) hrun₂ trivial ht₃
  obtain ⟨t₄, ht₄⟩ := (safe_of_run new_exampleInstance hok hrun₃).2 ⟨[2#256]⟩
  have hrun₄ := Run.next (.recordPoll ⟨[2#256]⟩) hrun₃ trivial ht₄
  refine ⟨_, t₄, hrun₄, ?_, (safe_of_run new_exampleInstance hok hrun₄).1⟩
  have hval : (((exampleInstance.step (.add (exampleBlock 2#256 1#256 1))).bind fun t ↦
      (t.step (.add (exampleBlock 3#256 1#256 1))).bind fun t ↦
      (t.recordPoll ⟨[2#256]⟩).bind fun t ↦ (t.recordPoll ⟨[2#256]⟩).map fun t ↦
        ((accepted t.log).map Block.id, (rejected t.log).map Block.id)).toOption)
      = some ([2#256], [3#256]) := by
    decide +kernel
  rw [ht₁, Except.bind, ht₂, Except.bind, ht₃, Except.bind, ht₄] at hval
  exact Option.some.inj hval

/-- Block 3 is below block 2. Two polls accept block 2, and block 3 is left above it. -/
theorem undecided_of_run_example :
    ∃ (history : List (Event snowballFactory)) (t : Topological snowballFactory),
      Run (SafetyPromise 1#256) exampleInstance history t ∧
      (accepted t.log).map Block.id = [2#256] ∧ Below t.pendingParent 3#256 t.lastAcceptedId := by
  have hval : (do
      let t₁ ← exampleInstance.step (.add (exampleBlock 2#256 1#256 1))
      let t₂ ← t₁.step (.add (exampleBlock 3#256 2#256 2))
      let t₃ ← t₂.recordPoll ⟨[2#256]⟩
      let t₄ ← t₃.recordPoll ⟨[2#256]⟩
      pure ((accepted t₄.log).map Block.id, (decided t₄.log).map Block.id, t₁.heightOf 2#256,
        (t₁.add (exampleBlock 3#256 2#256 2)).isOk)).toOption
      = some ([2#256], [2#256], 1, true) := by
    decide +kernel
  obtain ⟨t₁, ht₁, hval⟩ := Except.bind_eq_ok_iff.mp (Except.toOption_eq_some_iff.mp hval)
  obtain ⟨t₂, ht₂, hval⟩ := Except.bind_eq_ok_iff.mp hval
  obtain ⟨t₃, ht₃, hval⟩ := Except.bind_eq_ok_iff.mp hval
  obtain ⟨t₄, ht₄, hval⟩ := Except.bind_eq_ok_iff.mp hval
  simp only [pure, Except.pure, Except.ok.injEq, Prod.mk.injEq] at hval
  obtain ⟨haccepted, hdecided, hheight, hok⟩ := hval
  obtain ⟨_, hadd⟩ := Except.isOk_iff.mp hok
  have hfresh : ∀ a ∈ Avalanche.added [⟨exampleInstance, .add (exampleBlock 2#256 1#256 1)⟩],
      a.id ≠ 3#256 := by decide
  have hrun₂ : Run (SafetyPromise 1#256) exampleInstance _ t₂ :=
    .next (.add (exampleBlock 3#256 2#256 2)) (.next (.add (exampleBlock 2#256 1#256 1)) .start
      ⟨by decide, by decide, fun _ ↦ rfl, rfl, rfl⟩ ht₁)
      ⟨by decide, hfresh, fun _ ↦ congrArg (· + 1) hheight.symm, rfl, rfl⟩ ht₂
  have hrun₄ := Run.next (.recordPoll ⟨[2#256]⟩)
    (.next (.recordPoll ⟨[2#256]⟩) hrun₂ trivial ht₃) trivial ht₄
  refine ⟨_, t₄, hrun₄, haccepted, (undecided_of_run new_exampleInstance (fun _ _ ↦ rfl) hrun₄
    (exampleBlock 3#256 2#256 2) (by simp [Avalanche.added, Event.added, hadd]) fun hmem ↦ ?_).1⟩
  have hid := List.mem_map_of_mem (f := Block.id) hmem
  rw [hdecided] at hid
  exact absurd hid (by decide)

end Topological

end Avalanche
