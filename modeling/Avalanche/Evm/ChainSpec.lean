import Mathlib

/-!
# The phases of the C-Chain

A network upgrade is active from its activation time on, and the rules of a block are those of the
last phase active at the block's time. Every rule compares that phase with the one that introduced
it, so the phases are kept as a linear order.

Helicon is not a phase: it maps to no rule of a header or a block.
-/

namespace Avalanche.Evm

inductive AvaPhase
  | launch
  | apricotPhase1
  | apricotPhase2
  | apricotPhase3
  | apricotPhase4
  | apricotPhase5
  | apricotPhasePre6
  | apricotPhase6
  | apricotPhasePost6
  | banff
  | cortina
  | durango
  | etna
  | fortuna
  | granite
deriving DecidableEq

namespace AvaPhase

/-- The place of a phase in chronological order. -/
def rank : AvaPhase → ℕ
  | launch => 0
  | apricotPhase1 => 1
  | apricotPhase2 => 2
  | apricotPhase3 => 3
  | apricotPhase4 => 4
  | apricotPhase5 => 5
  | apricotPhasePre6 => 6
  | apricotPhase6 => 7
  | apricotPhasePost6 => 8
  | banff => 9
  | cortina => 10
  | durango => 11
  | etna => 12
  | fortuna => 13
  | granite => 14

theorem rank_injective : Function.Injective rank := by
  intro p q h
  cases p <;> cases q <;> first | rfl | simp [rank] at h

instance : LinearOrder AvaPhase := LinearOrder.lift' rank rank_injective

/-- `AvaPhase::ALL`. -/
def all : List AvaPhase :=
  [launch, apricotPhase1, apricotPhase2, apricotPhase3, apricotPhase4, apricotPhase5,
    apricotPhasePre6, apricotPhase6, apricotPhasePost6, banff, cortina, durango, etna, fortuna,
    granite]

end AvaPhase

/-- The activation times, in unix seconds. -/
structure NetworkUpgrades where
  apricotPhase1 : ℕ
  apricotPhase2 : ℕ
  apricotPhase3 : ℕ
  apricotPhase4 : ℕ
  apricotPhase5 : ℕ
  apricotPhasePre6 : ℕ
  apricotPhase6 : ℕ
  apricotPhasePost6 : ℕ
  banff : ℕ
  cortina : ℕ
  durango : ℕ
  etna : ℕ
  fortuna : ℕ
  granite : ℕ

def NetworkUpgrades.activation (u : NetworkUpgrades) : AvaPhase → ℕ
  | .launch => 0
  | .apricotPhase1 => u.apricotPhase1
  | .apricotPhase2 => u.apricotPhase2
  | .apricotPhase3 => u.apricotPhase3
  | .apricotPhase4 => u.apricotPhase4
  | .apricotPhase5 => u.apricotPhase5
  | .apricotPhasePre6 => u.apricotPhasePre6
  | .apricotPhase6 => u.apricotPhase6
  | .apricotPhasePost6 => u.apricotPhasePost6
  | .banff => u.banff
  | .cortina => u.cortina
  | .durango => u.durango
  | .etna => u.etna
  | .fortuna => u.fortuna
  | .granite => u.granite

structure AvaChainSpec where
  networkUpgrades : NetworkUpgrades

namespace AvaChainSpec

/-- The last phase of the list whose activation time has passed. The list is walked to its end, so a
schedule that is out of order is no error. -/
def forkAt (spec : AvaChainSpec) (timestamp : ℕ) : AvaPhase :=
  AvaPhase.all.foldl (fun current phase ↦
    if timestamp ≥ spec.networkUpgrades.activation phase then phase else current) .launch

def isApricotPhase3 (spec : AvaChainSpec) (t : ℕ) : Bool := spec.forkAt t ≥ .apricotPhase3

def isApricotPhase4 (spec : AvaChainSpec) (t : ℕ) : Bool := spec.forkAt t ≥ .apricotPhase4

def isApricotPhase5 (spec : AvaChainSpec) (t : ℕ) : Bool := spec.forkAt t ≥ .apricotPhase5

def isFortuna (spec : AvaChainSpec) (t : ℕ) : Bool := spec.forkAt t ≥ .fortuna

def isGranite (spec : AvaChainSpec) (t : ℕ) : Bool := spec.forkAt t ≥ .granite

end AvaChainSpec

end Avalanche.Evm
