import Mathlib

/-!
# Runs of total steps

A component that takes one event after another and never fails. `Along` is a condition on every
event with the state it is taken in; `exec_of_along` is the invariant rule for runs under such a
condition, and `along_iff` reads the condition off the points of the run.
-/

namespace Steps

variable {σ α : Type*} (step : σ → α → σ)

/-- The state after the events. -/
def exec (s : σ) (l : List α) : σ := l.foldl step s

/-- `P` holds of every event, in the state before it. -/
def Along (P : σ → α → Prop) : σ → List α → Prop
  | _, [] => True
  | s, a :: l => P s a ∧ Along P (step s a) l

instance decidableAlong {P : σ → α → Prop} [∀ s a, Decidable (P s a)] :
    ∀ s l, Decidable (Along step P s l)
  | _, [] => .isTrue trivial
  | s, a :: l =>
    have := decidableAlong (P := P) (step s a) l
    inferInstanceAs (Decidable (P s a ∧ Along step P (step s a) l))

variable {step}

@[simp] theorem exec_nil (s : σ) : exec step s [] = s := rfl

@[simp] theorem exec_cons (s : σ) (a : α) (l : List α) :
    exec step s (a :: l) = exec step (step s a) l := rfl

theorem exec_append (s : σ) (l m : List α) :
    exec step s (l ++ m) = exec step (exec step s l) m :=
  List.foldl_append

variable {P : σ → α → Prop} {s : σ} {l : List α}

theorem along_append {m : List α} :
    Along step P s (l ++ m) ↔ Along step P s l ∧ Along step P (exec step s l) m := by
  induction l generalizing s with
  | nil => simp [Along]
  | cons a l ih => simp [Along, ih, and_assoc]

/-- The condition holds along a run if it holds at each of its points. -/
theorem along_iff :
    Along step P s l ↔ ∀ p a, p ++ [a] <+: l → P (exec step s p) a := by
  constructor
  · rintro h p a ⟨m, rfl⟩
    exact (along_append.mp (along_append.mp h).1).2.1
  · induction l generalizing s with
    | nil => exact fun _ ↦ trivial
    | cons b l ih =>
      intro h
      refine ⟨h [] b ⟨l, rfl⟩, ih fun p a hp ↦ h (b :: p) a ?_⟩
      exact (List.prefix_cons_inj b).mpr hp

/-- The invariant rule. -/
theorem exec_of_along {I : σ → Prop} (h : ∀ s a, I s → P s a → I (step s a))
    (hl : Along step P s l) (hs : I s) : I (exec step s l) := by
  induction l generalizing s with
  | nil => exact hs
  | cons a l ih => exact ih hl.2 (h s a hs hl.1)

/-- What every event keeps holds after every run. -/
theorem exec_of_step {I : σ → Prop} (h : ∀ s a, I s → I (step s a)) (hs : I s) (l : List α) :
    I (exec step s l) := by
  induction l generalizing s with
  | nil => exact hs
  | cons a l ih => exact ih (h s a hs)

end Steps
