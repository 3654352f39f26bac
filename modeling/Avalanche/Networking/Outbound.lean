import Avalanche.Library.Steps
import Avalanche.Library.TreeMap
import Avalanche.Types.Id
import Avalanche.Utils.Checked

/-!
# The outbound byte throttler

A message is paid from the validator pool, up to the budget of its node, and the rest from the pool
at large, up to a cap for each node. A permit keeps the two amounts and repays them when it is
dropped, in whatever order.

What a node has at large is counted under its id. What it has from the validator pool is not: the
budget is compared with one message at a time. `isolated_of_run` asks that the permits a node holds
leave room for the next one.
-/

namespace Avalanche.Outbound

open Std (ExtTreeMap)

structure Config where
  vdrAllocSize : UInt64
  atLargeAllocSize : UInt64
  nodeMaxAtLargeBytes : UInt64

structure Inner where
  config : Config
  remainingVdrBytes : ℕ
  remainingAtLargeBytes : ℕ
  nodeToAtLargeBytesUsed : ExtTreeMap NodeId ℕ

/-- An `OutboundReleasePermit`. -/
structure Permit where
  node : NodeId
  vdrBytes : ℕ
  atLargeBytes : ℕ
deriving DecidableEq

namespace Inner

def new (config : Config) : Inner :=
  ⟨config, config.vdrAllocSize.toNat, config.atLargeAllocSize.toNat, ∅⟩

def used (s : Inner) (node : NodeId) : ℕ := s.nodeToAtLargeBytesUsed[node]?.getD 0

def acquire (s : Inner) (msgSize : ℕ) (node : NodeId) (vdrBytes : ℕ) : Option (ℕ × ℕ) × Inner :=
  if msgSize = 0 then (some (0, 0), s)
  else
    let vdrToUse := min (min msgSize vdrBytes) s.remainingVdrBytes
    let atLargeNeeded := msgSize - vdrToUse
    let nodeHeadroom := s.config.nodeMaxAtLargeBytes.toNat - s.used node
    if atLargeNeeded > min nodeHeadroom s.remainingAtLargeBytes then (none, s)
    else (some (vdrToUse, atLargeNeeded),
      { s with
        remainingVdrBytes := s.remainingVdrBytes - vdrToUse
        remainingAtLargeBytes := s.remainingAtLargeBytes - atLargeNeeded
        nodeToAtLargeBytesUsed :=
          if atLargeNeeded > 0 then
            s.nodeToAtLargeBytesUsed.insert node (saturatingAdd (s.used node) atLargeNeeded)
          else s.nodeToAtLargeBytesUsed })

def release (s : Inner) (p : Permit) : Inner :=
  { s with
    remainingVdrBytes := min (saturatingAdd s.remainingVdrBytes p.vdrBytes)
      s.config.vdrAllocSize.toNat
    remainingAtLargeBytes := min (saturatingAdd s.remainingAtLargeBytes p.atLargeBytes)
      s.config.atLargeAllocSize.toNat
    nodeToAtLargeBytesUsed :=
      match s.nodeToAtLargeBytesUsed[p.node]? with
      | some used =>
        if p.atLargeBytes > 0 then
          if used - p.atLargeBytes = 0 then s.nodeToAtLargeBytesUsed.erase p.node
          else s.nodeToAtLargeBytesUsed.insert p.node (used - p.atLargeBytes)
        else s.nodeToAtLargeBytesUsed
      | none => s.nodeToAtLargeBytesUsed }

end Inner

/-- The throttler with the permits that are alive. -/
structure Throttler where
  inner : Inner
  permits : List Permit

inductive Event
  | acquireFor (msgSize : ℕ) (node : NodeId)
  | drop (p : Permit)

/-- A step, where a node passes its budget with each message. -/
def step (budget : NodeId → ℕ) (s : Throttler) : Event → Throttler
  | .acquireFor msgSize node =>
    match s.inner.acquire msgSize node (budget node) with
    | (some (vdr, atLarge), inner) => ⟨inner, ⟨node, vdr, atLarge⟩ :: s.permits⟩
    | (none, inner) => ⟨inner, s.permits⟩
  | .drop p => if p ∈ s.permits then ⟨s.inner.release p, s.permits.erase p⟩ else s

/-- What the permits of a node hold. -/
def held (permits : List Permit) (node : NodeId) (bytes : Permit → ℕ) : ℕ :=
  (permits.map fun p ↦ if p.node = node then bytes p else 0).sum

/-- The pools and the map agree with the permits. -/
@[mk_iff]
structure Accounts (s : Inner) (permits : List Permit) : Prop where
  vdr : s.remainingVdrBytes + (permits.map Permit.vdrBytes).sum = s.config.vdrAllocSize.toNat
  atLarge : s.remainingAtLargeBytes + (permits.map Permit.atLargeBytes).sum
    = s.config.atLargeAllocSize.toNat
  used : ∀ node, s.used node = held permits node Permit.atLargeBytes

/-- No node holds more at large than it may, and a failed acquire changes nothing. -/
structure Kept (budget : NodeId → ℕ) (s : Throttler) : Prop
    extends Accounts s.inner s.permits where
  atLargeCap : ∀ node,
    held s.permits node Permit.atLargeBytes ≤ s.inner.config.nodeMaxAtLargeBytes.toNat
  failed : ∀ msgSize node, (s.inner.acquire msgSize node (budget node)).1 = none →
    step budget s (.acquireFor msgSize node) = s

/-- No node holds more than its share. -/
structure Isolated (budget : NodeId → ℕ) (s : Throttler) : Prop extends Kept budget s where
  vdrCap : ∀ node, held s.permits node Permit.vdrBytes ≤ budget node

/-- The permits of the node leave room in its budget. -/
def Fits (budget : NodeId → ℕ) (s : Throttler) : Event → Prop
  | .acquireFor msgSize node =>
    held s.permits node Permit.vdrBytes + min msgSize (budget node) ≤ budget node
  | .drop _ => True

/-- `p` takes `s` to `s'`. -/
structure Paid (p : Permit) (s s' : Inner) : Prop where
  config : s'.config = s.config
  vdr : s.remainingVdrBytes = s'.remainingVdrBytes + p.vdrBytes
  atLarge : s.remainingAtLargeBytes = s'.remainingAtLargeBytes + p.atLargeBytes
  used : ∀ node, s'.used node = s.used node + if p.node = node then p.atLargeBytes else 0

section Steps

variable {s s' : Inner} {p : Permit} {permits permits' : List Permit}

theorem held_perm (h : permits'.Perm (p :: permits)) (node : NodeId) (bytes : Permit → ℕ) :
    held permits' node bytes
      = (if p.node = node then bytes p else 0) + held permits node bytes := by
  rw [held, (h.map _).sum_eq, List.map_cons, List.sum_cons, held]

theorem held_cons_le {cap : NodeId → ℕ} {bytes : Permit → ℕ}
    (h : ∀ node, held permits node bytes ≤ cap node)
    (hp : held permits p.node bytes + bytes p ≤ cap p.node) (node : NodeId) :
    held (p :: permits) node bytes ≤ cap node := by
  rw [held_perm (.refl _)]
  split_ifs with hnode
  · rwa [← hnode, add_comm]
  · rw [zero_add]
    exact h node

theorem Paid.accounts_iff (h : Paid p s s') (hperm : permits'.Perm (p :: permits)) :
    Accounts s' permits' ↔ Accounts s permits := by
  have hvdr := (hperm.map Permit.vdrBytes).sum_eq
  have hlarge := (hperm.map Permit.atLargeBytes).sum_eq
  rw [List.map_cons, List.sum_cons] at hvdr hlarge
  rw [Outbound.accounts_iff, Outbound.accounts_iff, h.config, h.vdr, h.atLarge, hvdr, hlarge]
  refine and_congr (by omega) (and_congr (by omega) (forall_congr' fun node ↦ ?_))
  rw [h.used, held_perm hperm]
  omega

theorem acquire_cases (s : Inner) (msgSize : ℕ) (node : NodeId) (vdrBytes : ℕ) :
    s.acquire msgSize node vdrBytes = (none, s) ∨ ∃ vdr atLarge s',
      s.acquire msgSize node vdrBytes = (some (vdr, atLarge), s') ∧ Paid ⟨node, vdr, atLarge⟩ s s' ∧
        vdr ≤ min msgSize vdrBytes ∧
        atLarge ≤ s.config.nodeMaxAtLargeBytes.toNat - s.used node := by
  rw [Inner.acquire]
  split
  · exact Or.inr ⟨0, 0, s, rfl, ⟨rfl, rfl, rfl, by simp⟩, Nat.zero_le _, Nat.zero_le _⟩
  dsimp only
  split
  · exact Or.inl rfl
  next hroom =>
    obtain ⟨hroom, hleft⟩ := le_min_iff.mp (not_lt.mp hroom)
    refine Or.inr ⟨_, _, _, rfl, ⟨rfl, ?_, ?_, fun n ↦ ?_⟩, min_le_left _ _, hroom⟩
    · exact (Nat.sub_add_cancel (min_le_right _ _)).symm
    · exact (Nat.sub_add_cancel hleft).symm
    · have hmax := UInt64.toNat_le_u64Max s.config.nodeMaxAtLargeBytes
      split_ifs with hpos hn hn
      · rw [Inner.used, TreeMap.getElem?_insert_eq, if_pos hn, ← hn]
        exact saturatingAdd_of_le (by omega)
      · rw [Inner.used, TreeMap.getElem?_insert_eq, if_neg hn]
        rfl
      · exact (Nat.add_eq_left.mpr (Nat.eq_zero_of_not_pos hpos)).symm
      · rfl

theorem used_release (s : Inner) (p : Permit) (node : NodeId) : (s.release p).used node
    = if p.node = node then s.used node - p.atLargeBytes else s.used node := by
  simp only [Inner.used, Inner.release]
  grind [TreeMap.getElem?_insert_eq, TreeMap.getElem?_erase_eq]

/-- What a live permit holds can be repaid to the last byte. -/
theorem Accounts.release (h : Accounts s permits) (hp : p ∈ permits) : Paid p (s.release p) s := by
  have hperm := List.perm_cons_erase hp
  have hrepay {left : ℕ} {n : UInt64} {bytes : Permit → ℕ}
      (hpool : left + (permits.map bytes).sum = n.toNat) :
      min (saturatingAdd left (bytes p)) n.toNat = left + bytes p := by
    have hmax := UInt64.toNat_le_u64Max n
    rw [(hperm.map bytes).sum_eq, List.map_cons, List.sum_cons] at hpool
    rw [saturatingAdd]
    omega
  refine ⟨rfl, hrepay h.vdr, hrepay h.atLarge, fun node ↦ ?_⟩
  have hused := (h.used p.node).trans (held_perm hperm p.node _)
  rw [if_pos rfl] at hused
  rw [used_release]
  split_ifs with hn
  · rw [← hn]
    omega
  · rfl

theorem step_eq_of_failed {budget : NodeId → ℕ} {s : Throttler} {msgSize : ℕ} {node : NodeId}
    (h : (s.inner.acquire msgSize node (budget node)).1 = none) :
    step budget s (.acquireFor msgSize node) = s := by
  obtain hnone | ⟨vdr, atLarge, s', hsome, -⟩ := acquire_cases s.inner msgSize node (budget node)
  · rw [step, hnone]
  · rw [hsome] at h
    cases h

theorem held_erase_le (hp : p ∈ permits) (node : NodeId) (bytes : Permit → ℕ) :
    held (permits.erase p) node bytes ≤ held permits node bytes :=
  (Nat.le_add_left _ _).trans_eq (held_perm (List.perm_cons_erase hp) node bytes).symm

variable {budget : NodeId → ℕ} (s : Throttler) (e : Event)

theorem Kept.step (h : Kept budget s) : Kept budget (step budget s e) := by
  cases e with
  | acquireFor msgSize node =>
    rw [Outbound.step]
    obtain hnone | ⟨vdr, atLarge, s', hsome, hpaid, -, hlarge⟩ :=
      acquire_cases s.inner msgSize node (budget node)
    · rw [hnone]
      exact h
    rw [hsome]
    refine ⟨(hpaid.accounts_iff (.refl _)).mpr h.toAccounts,
      hpaid.config ▸ held_cons_le h.atLargeCap ?_, fun _ _ ↦ step_eq_of_failed⟩
    have hcap := h.atLargeCap node
    rw [← h.used] at hcap ⊢
    dsimp only
    omega
  | drop p =>
    rw [Outbound.step]
    split
    next hp =>
      exact ⟨((h.release hp).accounts_iff (List.perm_cons_erase hp)).mp h.toAccounts,
        fun n ↦ (held_erase_le hp n _).trans (h.atLargeCap n), fun _ _ ↦ step_eq_of_failed⟩
    · exact h

theorem Isolated.step (h : Isolated budget s) (hfits : Fits budget s e) :
    Isolated budget (step budget s e) := by
  refine ⟨h.toKept.step s e, ?_⟩
  cases e with
  | acquireFor msgSize node =>
    rw [Outbound.step]
    obtain hnone | ⟨vdr, atLarge, s', hsome, -, hvdr, -⟩ :=
      acquire_cases s.inner msgSize node (budget node)
    · rw [hnone]
      exact h.vdrCap
    · rw [hsome]
      exact held_cons_le h.vdrCap ((Nat.add_le_add_left hvdr _).trans hfits)
  | drop p =>
    rw [Outbound.step]
    split
    next hp => exact fun n ↦ (held_erase_le hp n _).trans (h.vdrCap n)
    · exact h.vdrCap

theorem isolated_new (config : Config) : Isolated budget ⟨.new config, []⟩ := by
  refine ⟨⟨⟨?_, ?_, fun _ ↦ ?_⟩, fun _ ↦ ?_, fun _ _ ↦ step_eq_of_failed⟩, fun _ ↦ ?_⟩
  all_goals simp [Inner.new, Inner.used, held]

end Steps

/-- **Isolation of the nodes**: no run takes more at large than a node may have, and the pools lose
nothing. As long as the permits of a node leave room in its budget, that is kept too. -/
theorem isolated_of_run (config : Config) (budget : NodeId → ℕ) (events : List Event) :
    Kept budget (Steps.exec (step budget) ⟨.new config, []⟩ events) ∧
      (Steps.Along (step budget) (Fits budget) ⟨.new config, []⟩ events →
        Isolated budget (Steps.exec (step budget) ⟨.new config, []⟩ events)) :=
  ⟨Steps.exec_of_step Kept.step (isolated_new config).toKept events,
    fun h ↦ Steps.exec_of_along Isolated.step h (isolated_new config)⟩

/-- Two messages of 40 bytes fit in a pool of 100, but not in a budget of 40. -/
theorem not_isolated : ∃ (config : Config) (budget : NodeId → ℕ) (events : List Event),
    ¬ Isolated budget (Steps.exec (step budget) ⟨.new config, []⟩ events) := by
  refine ⟨⟨100, 0, 0⟩, fun _ ↦ 40, [.acquireFor 40 1, .acquireFor 40 1], fun h ↦ ?_⟩
  exact absurd (h.vdrCap 1) (by decide)

theorem isolated_of_run_example : Isolated (fun _ ↦ 40) (Steps.exec (step fun _ ↦ 40)
    ⟨.new ⟨100, 10, 10⟩, []⟩ [.acquireFor 50 1, .acquireFor 30 2, .drop ⟨1, 40, 10⟩]) :=
  (isolated_of_run _ _ _).2
    ⟨show 0 + 40 ≤ 40 by decide, show 0 + 30 ≤ 40 by decide, trivial, trivial⟩

end Avalanche.Outbound
