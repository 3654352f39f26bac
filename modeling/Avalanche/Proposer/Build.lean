import Avalanche.Library.Loop
import Avalanche.Types.Id

/-!
# Building a block in one's own slot

After the fork a node wraps an inner block and signs the block if it is its turn. The time since the
parent is divided into slots of five seconds, and for each height and slot one validator is drawn. A
node waits for its slot and then compares itself with the one that was drawn.

It does so for another height, since it passes the height of the new block as that of the parent. It
takes the time of the block from the clock once more after the decision. And before Durango it does
not compare at all. `signed_in_slot_iff` says for which draws and readings a signed block is in the
slot of the node all the same.

The validators and the samplers are parameters. A build reads the clock finitely often, and the
readings are a list; times are whole seconds, as the clock gives them.
-/

namespace Avalanche.Proposer

abbrev Bytes := List UInt8

inductive Error
  | anyoneCanPropose
  | notProposer
  | weightOverflow
  | unexpectedSamplerFailure
  | invalidComponent (msg : String)
  | inner (msg : String)
  /-- The call waits for another reading of the clock. -/
  | pending
deriving DecidableEq

def windowDuration : ℕ := 5
def maxBuildWindows : ℕ := 60
def maxLookAheadSlots : ℕ := 720

structure ValidatorData where
  id : NodeId
  weight : UInt64

/-- The validators at each height of the P-chain, by id, and what the samplers of the two regimes
draw for a seed and weights. -/
structure Windower where
  chainSource : UInt64
  validatorSet : ℕ → Except Error (List ValidatorData)
  minimumHeight : Option ℕ
  sample : UInt64 → List UInt64 → ℕ → Except Error (List ℕ)
  sample64 : UInt64 → List UInt64 → ℕ → Except Error (List ℕ)

def timeToSlot (start now : ℕ) : ℕ := (now - start) / windowDuration

/-- The time from the parent to a slot. -/
def slotDelay (slot : ℕ) : ℕ := windowDuration * min slot (2 ^ 32 - 1)

namespace Windower

variable (w : Windower)

def makeValidators (pChainHeight : ℕ) : Except Error (List ValidatorData) := do
  return (← w.validatorSet pChainHeight).filter (·.id ≠ 0)

def pick (validators : List ValidatorData) (index : ℕ) : Except Error NodeId :=
  validators[index]?.elim (.error .unexpectedSamplerFailure) (.ok ·.id)

def totalWeight (validators : List ValidatorData) : Except Error ℕ :=
  let total := (validators.map (·.weight.toNat)).sum
  if total < 2 ^ 64 then .ok total else .error .weightOverflow

def proposers (blockHeight pChainHeight maxWindows : ℕ) : Except Error (List NodeId) := do
  let validators ← w.makeValidators pChainHeight
  let total ← totalWeight validators
  let indices ← w.sample (w.chainSource ^^^ .ofNat blockHeight) (validators.map (·.weight))
    (min maxWindows total)
  indices.mapM (pick validators)

def delay (blockHeight pChainHeight : ℕ) (validatorId : NodeId) (maxWindows : ℕ) :
    Except Error ℕ := do
  if validatorId = 0 then return slotDelay maxWindows
  return windowDuration * (← w.proposers blockHeight pChainHeight maxWindows).idxOf validatorId

def expectedProposerFrom (validators : List ValidatorData) (blockHeight slot : ℕ) :
    Except Error NodeId := do
  let seed := w.chainSource ^^^ .ofNat blockHeight ^^^ ⟨(BitVec.ofNat 64 slot).reverse⟩
  let indices ← w.sample64 seed (validators.map (·.weight)) 1
  indices.head?.elim (.error .unexpectedSamplerFailure) (pick validators)

def expectedProposer (blockHeight pChainHeight slot : ℕ) : Except Error NodeId := do
  let validators ← w.makeValidators pChainHeight
  if validators.isEmpty then .error .anyoneCanPropose
  else w.expectedProposerFrom validators blockHeight slot

/-- The search for a slot of the node, through the given number of slots. -/
def minDelayLoop (validators : List ValidatorData) (blockHeight : ℕ) (nodeId : NodeId) :
    ℕ → ℕ → Except Error ℕ
  | 0, slot => .ok (slotDelay slot)
  | n + 1, slot => do
    if (← w.expectedProposerFrom validators blockHeight slot) = nodeId then return slotDelay slot
    minDelayLoop validators blockHeight nodeId n (slot + 1)

def minDelayForProposer (blockHeight pChainHeight : ℕ) (nodeId : NodeId) (startSlot : ℕ) :
    Except Error ℕ := do
  let validators ← w.makeValidators pChainHeight
  if validators.isEmpty then .error .anyoneCanPropose
  else w.minDelayLoop validators blockHeight nodeId maxLookAheadSlots startSlot

end Windower

/-- The readings that are left after a wait, which ends early if the clock does not advance. -/
def waitUntil (target : ℕ) : List ℕ → Option (List ℕ)
  | now :: later :: clock =>
    if target ≤ now then some (later :: clock)
    else if later ≤ now then some clock
    else waitUntil target clock
  | [now] => if target ≤ now then some [] else none
  | [] => none

structure InnerBlock where
  height : ℕ
  bytes : Bytes
deriving DecidableEq

structure StatelessUnsignedBlock where
  parentId : Id
  timestamp : ℕ
  pChainHeight : ℕ
  certificate : Bytes
  block : Bytes
deriving DecidableEq

inductive Built
  | inner (b : InnerBlock)
  | unsigned (b : StatelessUnsignedBlock) (height : ℕ)
  | signed (b : StatelessUnsignedBlock) (signature : Bytes) (height : ℕ)
deriving DecidableEq

structure Identity where
  certificate : Bytes
  sign : StatelessUnsignedBlock → Except Error Bytes

/-- The preferred block, after the fork or before it. -/
inductive Parent
  | postFork (timestamp pChainHeight : ℕ)
  | preFork (timestamp : ℕ)

def Parent.timestamp : Parent → ℕ
  | postFork timestamp _ | preFork timestamp => timestamp

structure Node where
  nodeId : NodeId
  apricotPhase4Time : ℕ
  durangoTime : ℕ
  windower : Windower
  identity : Option Identity
  buildInner : Except Error InnerBlock

/-- A step of a build, on the readings that are left. -/
abbrev BuildM := StateT (List ℕ) (Except Error)

def unixTime : BuildM ℕ := do
  match ← get with
  | now :: clock => set clock; return now
  | [] => throw .pending

/-- There is no waiting for a time that overflows. -/
def waitFor (target : ℕ) : BuildM Unit := do
  if target < 2 ^ 63 then
    match waitUntil target (← get) with
    | some clock => set clock
    | none => throw .pending

namespace Node

variable (n : Node)

def selectChildPChainHeight (minPChainHeight : ℕ) : ℕ :=
  n.windower.minimumHeight.elim minPChainHeight (max · minPChainHeight)

/-- The slot of a reading after the parent. -/
def slotAt (parentTimestamp now : ℕ) : ℕ := timeToSlot parentTimestamp (max now parentTimestamp)

def waitForSlotAndDecide (parentTimestamp parentPChainHeight parentInnerHeight : ℕ) :
    BuildM Bool := do
  let childHeight := min (parentInnerHeight + 1) (2 ^ 64 - 1)
  if n.durangoTime ≤ parentTimestamp then
    let slot := slotAt parentTimestamp (← unixTime)
    match n.windower.minDelayForProposer childHeight parentPChainHeight n.nodeId slot with
    | .error .anyoneCanPropose => return false
    | .error e => throw e
    | .ok delay =>
      waitFor (parentTimestamp + delay)
      let slotNow := slotAt parentTimestamp (← unixTime)
      match n.windower.expectedProposer childHeight parentPChainHeight slotNow with
      | .ok expected => if expected = n.nodeId then return true else throw .notProposer
      | .error .anyoneCanPropose => return false
      | .error e => throw e
  else
    waitFor (parentTimestamp +
      (← n.windower.delay childHeight parentPChainHeight n.nodeId maxBuildWindows))
    return true

def buildChild (preferred : Id) (parent : Parent) : BuildM Built := do
  if parent.timestamp < n.apricotPhase4Time then return .inner (← n.buildInner)
  let now ← unixTime
  let inner ← n.buildInner
  match parent with
  | .preFork timestamp =>
    let pChainHeight := n.selectChildPChainHeight 0
    return .unsigned ⟨preferred, max now timestamp, pChainHeight, [], inner.bytes⟩ inner.height
  | .postFork timestamp parentPChainHeight =>
    let pChainHeight := n.selectChildPChainHeight parentPChainHeight
    let shouldSign ← n.waitForSlotAndDecide timestamp parentPChainHeight inner.height
    let now ← unixTime
    let block := ⟨preferred, max now timestamp, pChainHeight, [], inner.bytes⟩
    if shouldSign then
      match n.identity with
      | none => throw (.invalidComponent
          "proposervm: node is the proposer but has no staking identity")
      | some identity =>
        let block := { block with certificate := identity.certificate }
        return .signed block (← identity.sign block) inner.height
    else return .unsigned block inner.height

/-! ### Signed blocks -/

variable {n} {clock rest : List ℕ}

theorem run_bind_eq_ok_iff {α β : Type} {x : BuildM α} {f : α → BuildM β} {b : β × List ℕ} :
    (x >>= f).run clock = .ok b ↔
      ∃ a rest, x.run clock = .ok (a, rest) ∧ (f a).run rest = .ok b := by
  rw [StateT.run_bind, Except.bind_eq_ok_iff, Prod.exists]

theorem run_liftM_eq_ok_iff {α : Type} {x : Except Error α} {a : α} :
    (liftM x : BuildM α).run clock = .ok (a, rest) ↔ x = .ok a ∧ clock = rest := by
  cases x with
  | ok b =>
    change Except.ok (b, clock) = .ok (a, rest) ↔ _
    simp
  | error e => exact iff_of_false nofun nofun

theorem unixTime_eq_ok_iff {now : ℕ} :
    unixTime.run clock = .ok (now, rest) ↔ clock = now :: rest := by
  cases clock with
  | nil => exact iff_of_false nofun nofun
  | cons now' clock =>
    change Except.ok (now', clock) = .ok (now, rest) ↔ _
    simp

theorem suffix_of_waitUntil {target : ℕ} (h : waitUntil target clock = some rest) :
    rest <:+ clock := by
  fun_induction waitUntil target clock with simp_all
  | case2 => exact (List.suffix_cons _ _).trans (List.suffix_cons _ _)
  | case3 now later clock _ _ ih =>
    exact ih.trans ((List.suffix_cons _ _).trans (List.suffix_cons _ _))

theorem suffix_of_waitFor {target : ℕ} (h : (waitFor target).run clock = .ok ((), rest)) :
    rest <:+ clock := by
  rw [waitFor] at h
  split at h
  · rw [run_bind_eq_ok_iff] at h
    obtain ⟨_, _, hget, h⟩ := h
    cases hget
    split at h
    · cases h
      exact suffix_of_waitUntil ‹_›
    · cases h
  · cases h
    exact List.suffix_rfl

/-- The decision reads the clock from the front. After Durango a node that signs is the proposer at
the last reading, for the next height. -/
theorem decide_spec {timestamp pChainHeight height : ℕ}
    (h : (n.waitForSlotAndDecide timestamp pChainHeight height).run clock = .ok (true, rest)) :
    rest <:+ clock ∧ (n.durangoTime ≤ timestamp → ∃ now, now :: rest <:+ clock ∧
      n.windower.expectedProposer (min (height + 1) (2 ^ 64 - 1)) pChainHeight
        (slotAt timestamp now) = .ok n.nodeId) := by
  rw [waitForSlotAndDecide] at h
  split at h
  · rw [run_bind_eq_ok_iff] at h
    obtain ⟨first, clock₁, hfirst, h⟩ := h
    rw [unixTime_eq_ok_iff] at hfirst
    dsimp only at h
    split at h
    · cases h
    · cases h
    simp only [run_bind_eq_ok_iff, unixTime_eq_ok_iff] at h
    obtain ⟨⟨⟩, _, hwait, now, clock₁, rfl, h⟩ := h
    have hsuffix : now :: clock₁ <:+ clock :=
      hfirst ▸ (suffix_of_waitFor hwait).trans (List.suffix_cons _ _)
    split at h
    · rename_i expected hexpected
      split at h
      · cases h
        exact ⟨(List.suffix_cons _ _).trans hsuffix, fun _ ↦ ⟨now, hsuffix, by simp_all⟩⟩
      · cases h
    · cases h
    · cases h
  next hdurango =>
    simp only [run_bind_eq_ok_iff, run_liftM_eq_ok_iff] at h
    obtain ⟨delay, _, ⟨-, rfl⟩, ⟨⟩, _, hwait, h⟩ := h
    cases h
    exact ⟨suffix_of_waitFor hwait, fun h ↦ absurd h hdurango⟩

/-- **When a block is signed in the slot of the node.** Only a block on top of one after the fork is
signed. Let the clock be read `now` and then `later` at last. From Durango on, the node is the one
drawn for the height and the slot of the block exactly if that draw at `later` is the one for the
next height at `now`; before, exactly if it is drawn at `later`. -/
theorem signed_in_slot_iff {preferred : Id} {parent : Parent} {block : StatelessUnsignedBlock}
    {signature : Bytes} {height : ℕ}
    (hbuild : (n.buildChild preferred parent).run clock
      = .ok (.signed block signature height, [])) :
    ∃ timestamp pChainHeight later, parent = .postFork timestamp pChainHeight ∧ [later] <:+ clock ∧
      let drawn h time := n.windower.expectedProposer h pChainHeight (timeToSlot timestamp time)
      (n.durangoTime ≤ timestamp → ∃ now, [now, later] <:+ clock ∧
        (drawn height block.timestamp = .ok n.nodeId ↔
          drawn height (max later timestamp)
            = drawn (min (height + 1) (2 ^ 64 - 1)) (max now timestamp))) ∧
      (timestamp < n.durangoTime → (drawn height block.timestamp = .ok n.nodeId ↔
        drawn height (max later timestamp) = .ok n.nodeId)) := by
  rw [buildChild] at hbuild
  split at hbuild
  · rw [run_bind_eq_ok_iff] at hbuild
    obtain ⟨inner, _, -, hbuild⟩ := hbuild
    cases hbuild
  simp only [run_bind_eq_ok_iff, unixTime_eq_ok_iff, run_liftM_eq_ok_iff] at hbuild
  obtain ⟨first, _, rfl, inner, _, ⟨-, rfl⟩, hbuild⟩ := hbuild
  cases parent with
  | preFork timestamp => cases hbuild
  | postFork timestamp pChainHeight =>
    simp only [run_bind_eq_ok_iff, unixTime_eq_ok_iff] at hbuild
    obtain ⟨sign, _, hdecide, later, _, rfl, hbuild⟩ := hbuild
    cases sign with
    | false => cases hbuild
    | true =>
      rw [if_pos rfl] at hbuild
      split at hbuild
      · cases hbuild
      simp only [run_bind_eq_ok_iff, run_liftM_eq_ok_iff] at hbuild
      obtain ⟨_, _, ⟨-, rfl⟩, hbuild⟩ := hbuild
      cases hbuild
      obtain ⟨hlater, hdurango⟩ := decide_spec hdecide
      refine ⟨timestamp, pChainHeight, later, rfl, hlater.trans (List.suffix_cons _ _),
        fun hactive ↦ ?_, fun _ ↦ Iff.rfl⟩
      obtain ⟨now, hnow, hexpected⟩ := hdurango hactive
      exact ⟨now, hnow.trans (List.suffix_cons _ _),
        (iff_of_eq (congrArg (_ = ·) hexpected)).symm⟩

/-- Node 1, after Durango and with the validators 1 and 2, of whom `draw` picks one by the seed. -/
def paired (draw : UInt64 → ℕ) : Node where
  nodeId := 1
  apricotPhase4Time := 0
  durangoTime := 0
  windower :=
    { chainSource := 0
      validatorSet := fun _ ↦ .ok [⟨1, 1⟩, ⟨2, 1⟩]
      minimumHeight := none
      sample := fun _ _ count ↦ .ok (.replicate count 0)
      sample64 := fun seed _ _ ↦ .ok [draw seed] }
  identity := some ⟨[7], fun _ ↦ .ok [8]⟩
  buildInner := .ok ⟨4, []⟩

/-- The two take turns with the slots. -/
def bySlot (seed : UInt64) : ℕ := seed.toNat / 2 ^ 63

/-- The two take turns with the heights. -/
def byHeight (seed : UInt64) : ℕ := (seed.toNat + 1) % 2

/-- The block is two slots later than the decision, and in a slot of the node again. -/
theorem signed_in_slot_iff_later :
    (paired bySlot).windower.expectedProposer 4 3 (timeToSlot 10 20) = .ok 1 := by
  have hbuild : ((paired bySlot).buildChild 5 (.postFork 10 3)).run [10, 10, 10, 14, 20]
      = .ok (.signed ⟨5, 20, 3, [7], []⟩ [8] 4, []) := by decide +kernel
  obtain ⟨_, _, later, ⟨⟩, hlast, hdurango, -⟩ := signed_in_slot_iff hbuild
  obtain ⟨now, hlast', hiff⟩ := hdurango (Nat.zero_le _)
  rw [List.suffix_iff_eq_drop] at hlast hlast'
  cases hlast
  cases hlast'
  exact hiff.mpr (by decide +kernel)

/-- Two builds of node 1 that are signed in the slot of node 2: it has compared itself with the
proposer of the next height, and the clock has passed into the next slot. -/
theorem signed_in_other_slot :
    (((paired byHeight).buildChild 5 (.postFork 10 3)).run [10, 10, 10, 10, 10]
        = .ok (.signed ⟨5, 10, 3, [7], []⟩ [8] 4, []) ∧
      (paired byHeight).windower.expectedProposer 4 3 (timeToSlot 10 10) = .ok 2) ∧
    ((paired bySlot).buildChild 5 (.postFork 10 3)).run [10, 10, 10, 14, 15]
        = .ok (.signed ⟨5, 15, 3, [7], []⟩ [8] 4, []) ∧
      (paired bySlot).windower.expectedProposer 4 3 (timeToSlot 10 15) = .ok 2 := by
  decide +kernel

end Node

end Avalanche.Proposer
