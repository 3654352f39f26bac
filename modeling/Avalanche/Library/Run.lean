import Avalanche.Library.Loop

/-!
# Runs

A run takes a fallible step for each entry of a list. `Along` is a condition on every step with the
state it is taken in, `sum` adds up a quantity over the steps, and `induction` is the rule for what
holds of all runs: the step that comes first, then the run that is left.
-/

namespace Run

variable {ε σ α : Type} (step : σ → α → Except ε σ)

/-- `P` holds of every step of the run from `s`, in the state before it. -/
def Along (P : σ → α → Prop) : σ → List α → Prop
  | _, [] => True
  | s, a :: l => P s a ∧ ∀ s', step s a = .ok s' → Along P s' l

/-- The run is taken, and the condition checked before each step. -/
instance decidableAlong {P : σ → α → Prop} [∀ s a, Decidable (P s a)] :
    ∀ s l, Decidable (Along step P s l)
  | _, [] => .isTrue trivial
  | s, a :: l =>
    match h : step s a with
    | .ok s' =>
      have := decidableAlong (P := P) s' l
      decidable_of_iff (P s a ∧ Along step P s' l) (by simp [Along, h])
    | .error e => decidable_of_iff (P s a) (by simp [Along, h])

/-- The total of `f` over the steps of the run from `s`. -/
def sum {M : Type} [AddCommMonoid M] (f : σ → α → M) : σ → List α → M
  | _, [] => 0
  | s, a :: l => f s a + (step s a).toOption.elim 0 fun s' ↦ sum f s' l

variable {step}

theorem foldlM_cons_eq_ok_iff {s s'' : σ} {a : α} {l : List α} :
    (a :: l).foldlM step s = .ok s'' ↔ ∃ s', step s a = .ok s' ∧ l.foldlM step s' = .ok s'' := by
  rw [List.foldlM_cons, Except.bind_eq_ok_iff]

theorem sum_cons {M : Type} [AddCommMonoid M] (f : σ → α → M) {s s' : σ} {a : α} (l : List α)
    (h : step s a = .ok s') : sum step f s (a :: l) = f s a + sum step f s' l := by
  rw [sum, h, Except.toOption, Option.elim_some]

/-- What holds before the empty run, and before a step if it holds after it, holds of every run. -/
theorem induction {motive : σ → List α → Prop} (nil : ∀ s, motive s [])
    (cons : ∀ s a s' l, step s a = .ok s' → motive s' l → motive s (a :: l)) {s s' : σ}
    {l : List α} (h : l.foldlM step s = .ok s') : motive s l := by
  induction l generalizing s with
  | nil => exact nil s
  | cons a l ih =>
    obtain ⟨mid, hmid, h⟩ := foldlM_cons_eq_ok_iff.mp h
    exact cons s a mid l hmid (ih h)

end Run
