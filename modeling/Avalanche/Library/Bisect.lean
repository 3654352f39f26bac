import Avalanche.Library.Loop

/-!
# Bisection for the first number that reaches something

A bisection keeps a bracket `[lo, hi]`: nothing below `lo` reaches, and `hi` reaches unless it is
the top of the range. A round halves the bracket, so one whose width is below `2 ^ rounds` closes
within `rounds` rounds. What it closes on is the first number that reaches, or the top if none below
does.
-/

namespace Bisect

variable (reaches : ℕ → Prop) [DecidablePred reaches]

/-- One round. -/
def step (s : ℕ × ℕ) : Option (ℕ × ℕ) :=
  if s.1 < s.2 then
    let mid := s.1 + (s.2 - s.1) / 2
    if reaches mid then some (s.1, mid) else some (mid + 1, s.2)
  else none

structure Bracket (lo top rounds : ℕ) (s : ℕ × ℕ) : Prop where
  lo_le : lo ≤ s.1
  le : s.1 ≤ s.2
  hi_le : s.2 ≤ top
  width : s.2 - s.1 < 2 ^ rounds
  below : ∀ y, reaches y → s.1 ≤ y
  above : s.2 = top ∨ reaches s.2

variable {reaches}

theorem Bracket.step {lo top rounds : ℕ} {s : ℕ × ℕ} (hmono : ∀ x y, x ≤ y → reaches x → reaches y)
    (h : Bracket reaches lo top rounds s) :
    (step reaches s = none ∧ s.1 = s.2) ∨ ∃ rounds' s', Bisect.step reaches s = some s' ∧
      Bracket reaches lo top rounds' s' ∧ rounds' < rounds := by
  obtain ⟨l, r⟩ := s
  obtain ⟨hlo, hle, hhi, hwidth, hbelow, habove⟩ := h
  by_cases hlt : l < r
  · right
    obtain ⟨rounds, rfl⟩ : ∃ r, rounds = r + 1 := by
      refine Nat.exists_eq_succ_of_ne_zero ?_
      rintro rfl
      omega
    simp only [Bisect.step, if_pos hlt]
    by_cases hmid : reaches (l + (r - l) / 2)
    · rw [if_pos hmid]
      exact ⟨rounds, _, rfl, ⟨hlo, by omega, by omega, by omega, hbelow, .inr hmid⟩,
        Nat.lt_succ_self _⟩
    · rw [if_neg hmid]
      refine ⟨rounds, _, rfl, ⟨by omega, by omega, hhi, by omega, ?_, habove⟩, Nat.lt_succ_self _⟩
      intro y hy
      by_contra hlt
      exact hmid (hmono y _ (by omega) hy)
  · exact .inl ⟨if_neg hlt, hle.antisymm (Nat.le_of_not_lt hlt)⟩

/-- The bracket closes on a number at or below all that reach, which reaches itself or is the top.
-/
theorem exists_run_eq (lo top rounds : ℕ) (hmono : ∀ x y, x ≤ y → reaches x → reaches y)
    (hlo : ∀ y, reaches y → lo ≤ y) (hle : lo ≤ top) (hwidth : top - lo < 2 ^ rounds) :
    ∃ q, Loop.run (fun s ↦ .ok (step reaches s)) () (rounds + 1) (lo, top) = .ok (q, q) ∧
      lo ≤ q ∧ q ≤ top ∧ (∀ y, reaches y → q ≤ y) ∧ (q = top ∨ reaches q) := by
  have hinit : Bracket reaches lo top rounds (lo, top) :=
    ⟨le_rfl, hle, le_rfl, hwidth, hlo, .inl rfl⟩
  obtain ⟨left, ⟨q, hi⟩, hrun, hbracket, heq⟩ := Loop.run_bounded (e := ())
    (f := fun s ↦ .ok (step reaches s)) (I := Bracket reaches lo top) (Q := fun s ↦ s.1 = s.2)
    (fun m s hs ↦ by simpa using hs.step hmono) hinit (Nat.lt_succ_self rounds)
  obtain rfl : q = hi := heq
  exact ⟨q, hrun, hbracket.lo_le, hbracket.hi_le, hbracket.below, hbracket.above⟩

variable (reaches) in
/-- The bisection of `[0, top]`, for tops of up to 64 bits. -/
def first (top : ℕ) : ℕ :=
  match Loop.run (fun s ↦ .ok (step reaches s)) () 65 (0, top) with
  | .ok (lo, _) => lo
  | .error () => 0

theorem first_spec (top : ℕ) (hmono : ∀ x y, x ≤ y → reaches x → reaches y) (htop : top < 2 ^ 64) :
    ((∃ q ≤ top, reaches q) → IsLeast {q | q ≤ top ∧ reaches q} (first reaches top)) ∧
      ((∀ q ≤ top, ¬ reaches q) → first reaches top = top) := by
  obtain ⟨q, hrun, -, hle, hbelow, habove⟩ := exists_run_eq 0 top 64 hmono
    (fun y _ ↦ Nat.zero_le y) (Nat.zero_le top) (by omega)
  rw [first, hrun]
  constructor
  · rintro ⟨y, hy, hreach⟩
    have hq : reaches q := by
      refine habove.elim (fun htop ↦ ?_) id
      exact hmono y q (htop ▸ hy) hreach
    exact ⟨⟨hle, hq⟩, fun z hz ↦ hbelow z hz.2⟩
  · intro hnone
    exact habove.resolve_right (hnone q hle)

end Bisect
