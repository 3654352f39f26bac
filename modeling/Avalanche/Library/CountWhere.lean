import Mathlib

/-!
# Counting the members of a list that satisfy a proposition

`List.countP` for propositions that need no decision procedure.
-/

variable {α : Type} {l : List α} {P Q : α → Prop}

open Classical in
/-- The number of members of the list that satisfy `P`. -/
noncomputable def countWhere (l : List α) (P : α → Prop) : ℕ := l.countP fun a ↦ decide (P a)

theorem countWhere_eq_countP (l : List α) (P : α → Prop) [DecidablePred P] :
    countWhere l P = l.countP fun a ↦ decide (P a) := by
  unfold countWhere
  congr!

theorem countWhere_congr (h : ∀ a ∈ l, P a ↔ Q a) : countWhere l P = countWhere l Q :=
  List.countP_congr fun a ha ↦ by simpa using h a ha

theorem countWhere_mono (h : ∀ a ∈ l, P a → Q a) : countWhere l P ≤ countWhere l Q :=
  List.countP_mono_left fun a ha ↦ by simpa using h a ha

theorem countWhere_le_length (l : List α) (P : α → Prop) : countWhere l P ≤ l.length :=
  List.countP_le_length

@[simp] theorem countWhere_false (l : List α) : countWhere l (fun _ ↦ False) = 0 := by
  simp [countWhere]

theorem countWhere_pos : 0 < countWhere l P ↔ ∃ a ∈ l, P a := by
  simp [countWhere, List.countP_pos_iff]

theorem countWhere_eq_count [DecidableEq α] (l : List α) (a : α) :
    countWhere l (fun b ↦ b = a) = l.count a := by
  rw [countWhere_eq_countP, List.count]
  rfl

/-- Counts of exclusive properties add up. -/
theorem countWhere_or (h : ∀ a ∈ l, P a → ¬ Q a) :
    countWhere l (fun a ↦ P a ∨ Q a) = countWhere l P + countWhere l Q := by
  induction l with
  | nil => rfl
  | cons a l ih =>
    have ih' := ih fun b hb ↦ h b (List.mem_cons_of_mem _ hb)
    have ha := h a List.mem_cons_self
    simp only [countWhere, List.countP_cons] at ih' ⊢
    by_cases hP : P a
    · simp [hP, ha hP, ih']
      omega
    · by_cases hQ : Q a
      · simp [hP, hQ, ih']
        omega
      · simp [hP, hQ, ih']

theorem countWhere_add_le (h : ∀ a ∈ l, P a → ¬ Q a) :
    countWhere l P + countWhere l Q ≤ l.length := by
  rw [← countWhere_or h]
  exact countWhere_le_length _ _

theorem countWhere_append (l l' : List α) (P : α → Prop) :
    countWhere (l ++ l') P = countWhere l P + countWhere l' P :=
  List.countP_append

theorem countWhere_eq_length : countWhere l P = l.length ↔ ∀ a ∈ l, P a := by
  simp [countWhere, List.countP_eq_length]
