import Mathlib

/-!
# Fallible computations and loops with fuel

A fallible computation that returns has returned at every step; `bind_eq_ok_iff`, `map_eq_ok_iff`
and `mapError_eq_ok_iff` take it apart, `foldlM_inv` does so for a loop over a list, and the lemmas
on `error` say where one that fails has failed;
`toOption_eq_some_iff` and `isOk_iff` pass to values that can be compared. `require` and `orError`
are the two ways a check stops a computation.

`run step exhausted fuel` repeats `step` until it has nothing left to do. A step may fail, and a
loop that uses up its fuel ends with `exhausted`. `run_inv` is partial correctness. For total
correctness an invariant and a measure below the fuel give a result, of which `Q` holds if it holds
where the loop stops; the measure is a function of the state in `run_total`, and a part of the
invariant in `run_bounded`.

`card_filter_lt` provides the measure for a walk over a finite set along which a rank falls or
rises: the members the walk can still reach.
-/

namespace Except

variable {ε α β : Type} {x : Except ε α}
variable {f : α → Except ε β} {e : ε} {l : List α} {b : β} {a : α}

@[simp] theorem ok_bind (a : α) (f : α → Except ε β) : Except.ok a >>= f = f a := rfl

@[simp] theorem error_bind (e : ε) (f : α → Except ε β) : Except.error e >>= f = .error e := rfl

/-- A computation that returned returned at each of its steps. -/
theorem bind_eq_ok_iff :
    x >>= f = .ok b ↔ ∃ a, x = .ok a ∧ f a = .ok b := by
  cases x with
  | error e => simp [Bind.bind, Except.bind]
  | ok a => simp [Bind.bind, Except.bind]

/-- A check comes before what depends on it. -/
theorem bind_unit_eq_ok_iff {x : Except ε Unit} {f : Unit → Except ε β} :
    x >>= f = .ok b ↔ x = .ok () ∧ f () = .ok b := by
  rw [bind_eq_ok_iff]
  exact ⟨fun ⟨⟨⟩, hx, hf⟩ ↦ ⟨hx, hf⟩, fun ⟨hx, hf⟩ ↦ ⟨(), hx, hf⟩⟩

theorem map_eq_ok_iff {f : α → β} : x.map f = .ok b ↔ ∃ a, x = .ok a ∧ f a = b := by
  cases x with
  | error e => simp [Except.map]
  | ok a => simp [Except.map]

theorem mapError_eq_ok_iff {ε' : Type} {f : ε → ε'} :
    x.mapError f = .ok a ↔ x = .ok a := by
  cases x with
  | error e => simp [Except.mapError]
  | ok a => simp [Except.mapError]

theorem bind_eq_error_iff :
    x >>= f = .error e ↔ x = .error e ∨ ∃ a, x = .ok a ∧ f a = .error e := by
  cases x with
  | error e => simp [Bind.bind, Except.bind]
  | ok a => simp [Bind.bind, Except.bind]

theorem map_eq_error_iff {f : α → β} : x.map f = .error e ↔ x = .error e := by
  cases x with
  | error e => simp [Except.map]
  | ok a => simp [Except.map]

theorem mapError_eq_error_iff {ε' : Type} {f : ε → ε'} {e : ε'} :
    x.mapError f = .error e ↔ ∃ e', x = .error e' ∧ f e' = e := by
  cases x with
  | error e => simp [Except.mapError]
  | ok a => simp [Except.mapError]

theorem toOption_eq_some_iff : x.toOption = some a ↔ x = .ok a := by
  cases x with
  | error e => simp [Except.toOption]
  | ok a => simp [Except.toOption]

theorem isOk_iff : x.isOk = true ↔ ∃ a, x = .ok a := by
  cases x with
  | error e => simp [Except.isOk, Except.toBool]
  | ok a => simp [Except.isOk, Except.toBool]

/-- Continue only if `p` holds. -/
def require (p : Prop) [Decidable p] (e : ε) : Except ε Unit := if p then .ok () else .error e

theorem require_eq_ok_iff {p : Prop} [Decidable p] {u : Unit} :
    require p e = .ok u ↔ p := by
  by_cases h : p <;> simp [require, h]

/-- Continue with the value of an option, if it has one. -/
def orError (x : Option α) (e : ε) : Except ε α := x.elim (.error e) .ok

theorem orError_eq_ok_iff {x : Option α} : orError x e = .ok a ↔ x = some a := by
  rcases x with - | b <;> simp [orError]

/-- What every round of a loop over a list keeps. -/
theorem foldlM_inv {σ : Type} {I : σ → Prop} {f : σ → α → Except ε σ}
    (hstep : ∀ s a s', a ∈ l → I s → f s a = .ok s' → I s') {s s' : σ} (hs : I s)
    (h : l.foldlM f s = .ok s') : I s' := by
  induction l generalizing s with
  | nil =>
    exact Except.ok.inj h ▸ hs
  | cons a l ih =>
    rw [List.foldlM_cons, bind_eq_ok_iff] at h
    obtain ⟨mid, hmid, h⟩ := h
    exact ih (fun s a s' ha ↦ hstep s a s' (List.mem_cons_of_mem _ ha))
      (hstep s a mid List.mem_cons_self hs hmid) h

/-- A loop fails in one of its rounds. -/
theorem exists_of_foldlM_eq_error {σ : Type} {f : σ → α → Except ε σ} {s : σ}
    (h : l.foldlM f s = .error e) : ∃ a ∈ l, ∃ s', f s' a = .error e := by
  induction l generalizing s with
  | nil => cases h
  | cons a l ih =>
    rw [List.foldlM_cons, bind_eq_error_iff] at h
    rcases h with h | ⟨mid, -, h⟩
    · exact ⟨a, List.mem_cons_self, s, h⟩
    · obtain ⟨b, hb, s', h⟩ := ih h
      exact ⟨b, List.mem_cons_of_mem a hb, s', h⟩

theorem forM_eq_ok_iff {f : α → Except ε Unit} {u : Unit} :
    l.forM f = .ok u ↔ ∀ a ∈ l, f a = .ok () := by
  induction l with
  | nil => simp [List.forM_nil, pure, Except.pure]
  | cons a l ih =>
    rw [List.forM_eq_forM, List.forM_cons, bind_unit_eq_ok_iff, List.forall_mem_cons, ← ih,
      List.forM_eq_forM]

theorem exists_of_forM_eq_error {f : α → Except ε Unit}
    (h : l.forM f = .error e) : ∃ a ∈ l, f a = .error e := by
  induction l with
  | nil => cases h
  | cons a l ih =>
    rw [List.forM_eq_forM, List.forM_cons, bind_eq_error_iff] at h
    rcases h with h | ⟨-, -, h⟩
    · exact ⟨a, List.mem_cons_self, h⟩
    · obtain ⟨b, hb, h⟩ := ih h
      exact ⟨b, List.mem_cons_of_mem a hb, h⟩

/-- A loop that collects results has one for every element. -/
theorem mapM_eq_ok_iff {bs : List β} :
    l.mapM f = .ok bs ↔ l.map f = bs.map .ok := by
  induction l generalizing bs with
  | nil => cases bs <;> simp [pure, Except.pure]
  | cons a l ih =>
    rw [List.mapM_cons, bind_eq_ok_iff, List.map_cons]
    constructor
    · rintro ⟨b, hb, h⟩
      rw [bind_eq_ok_iff] at h
      obtain ⟨bs', hbs', h⟩ := h
      obtain rfl := Except.ok.inj h
      rw [hb, ih.mp hbs', List.map_cons]
    · intro h
      rcases bs with - | ⟨b, bs⟩
      · cases h
      rw [List.map_cons, List.cons.injEq] at h
      refine ⟨b, h.1, ?_⟩
      rw [ih.mpr h.2]
      rfl

theorem exists_mapM_eq_ok_iff :
    (∃ bs, l.mapM f = .ok bs) ↔ ∀ a ∈ l, ∃ b, f a = .ok b := by
  simp only [mapM_eq_ok_iff]
  constructor
  · rintro ⟨bs, h⟩ a ha
    have hmem : f a ∈ bs.map .ok := h ▸ List.mem_map_of_mem ha
    obtain ⟨b, -, hb⟩ := List.mem_map.mp hmem
    exact ⟨b, hb.symm⟩
  · intro h
    induction l with
    | nil => exact ⟨[], rfl⟩
    | cons a l ih =>
      obtain ⟨b, hb⟩ := h a List.mem_cons_self
      obtain ⟨bs, hbs⟩ := ih fun a' ha' ↦ h a' (List.mem_cons_of_mem a ha')
      exact ⟨b :: bs, by rw [List.map_cons, List.map_cons, hb, hbs]⟩

end Except

/-- A loop that collects results has one for every element. -/
theorem Option.mapM_eq_some_iff {α β : Type} {f : α → Option β} {l : List α} {bs : List β} :
    l.mapM f = some bs ↔ l.map f = bs.map some := by
  induction l generalizing bs with
  | nil => cases bs <;> simp
  | cons a l ih =>
    rw [List.mapM_cons, Option.bind_eq_bind, Option.bind_eq_some_iff, List.map_cons]
    constructor
    · rintro ⟨b, hb, h⟩
      rw [Option.bind_eq_bind, Option.bind_eq_some_iff] at h
      obtain ⟨bs', hbs', h⟩ := h
      obtain rfl := Option.some.inj h
      rw [hb, ih.mp hbs', List.map_cons]
    · intro h
      rcases bs with - | ⟨b, bs⟩
      · cases h
      rw [List.map_cons, List.cons.injEq] at h
      refine ⟨b, h.1, ?_⟩
      rw [ih.mpr h.2]
      rfl

namespace Loop

variable {ε σ : Type}
variable {f : σ → Except ε (Option σ)} {e : ε} {s : σ}

/-- Repeats `step` until it has nothing left to do. -/
def run (step : σ → Except ε (Option σ)) (exhausted : ε) : ℕ → σ → Except ε σ
  | 0, _ => .error exhausted
  | fuel + 1, s =>
    match step s with
    | .error e => .error e
    | .ok none => .ok s
    | .ok (some s') => run step exhausted fuel s'

theorem run_done (h : f s = .ok none)
    (fuel : ℕ) : run f e (fuel + 1) s = .ok s := by
  rw [run, h]

/-- What every step keeps holds of the result, if there is one. -/
theorem run_inv {I : σ → Prop} (hstep : ∀ s s', I s → f s = .ok (some s') → I s')
    {fuel : ℕ} {s s' : σ} (hs : I s) (hrun : run f e fuel s = .ok s') :
    I s' ∧ f s' = .ok none := by
  induction fuel generalizing s with
  | zero => cases hrun
  | succ fuel ih =>
    rw [run] at hrun
    split at hrun
    next => cases hrun
    next hdone =>
      cases hrun
      exact ⟨hs, hdone⟩
    next s₁ hnext => exact ih (hstep s s₁ hs hnext) hrun

/-- Total correctness of a loop whose invariant also bounds the number of steps left. -/
theorem run_bounded {I : ℕ → σ → Prop} {Q : σ → Prop} (hstep : ∀ m s, I m s →
      (f s = .ok none ∧ Q s) ∨ ∃ m' s', f s = .ok (some s') ∧ I m' s' ∧ m' < m)
    {fuel m : ℕ} (hs : I m s) (hfuel : m < fuel) :
    ∃ m' s', run f e fuel s = .ok s' ∧ I m' s' ∧ Q s' := by
  induction fuel generalizing m s with
  | zero => exact absurd hfuel (Nat.not_lt_zero _)
  | succ fuel ih =>
    rw [run]
    obtain ⟨hdone, hq⟩ | ⟨m', s', hnext, hs', hlt⟩ := hstep m s hs
    · rw [hdone]
      exact ⟨m, s, rfl, hs, hq⟩
    · rw [hnext]
      exact ih hs' (by omega)

/-- Total correctness of a loop. -/
theorem run_total {I Q : σ → Prop} {μ : σ → ℕ} (hstep : ∀ s, I s →
      (f s = .ok none ∧ Q s) ∨ ∃ s', f s = .ok (some s') ∧ I s' ∧ μ s' < μ s)
    {fuel : ℕ} (hs : I s) (hfuel : μ s < fuel) :
    ∃ s', run f e fuel s = .ok s' ∧ I s' ∧ Q s' := by
  obtain ⟨-, s', hrun, ⟨hs', -⟩, hq⟩ := run_bounded (e := e)
    (I := fun m s ↦ I s ∧ μ s = m)
    (fun m s hs ↦ (hstep s hs.1).imp_right fun ⟨s', hnext, hs', hlt⟩ ↦
      ⟨μ s', s', hnext, ⟨hs', rfl⟩, hs.2 ▸ hlt⟩) ⟨hs, rfl⟩ hfuel
  exact ⟨s', hrun, hs', hq⟩

/-- A member that one set of a filter has and the other lacks makes it smaller. -/
theorem card_filter_lt {α : Type} {s : Finset α} {p q : α → Prop} [DecidablePred p]
    [DecidablePred q] (hpq : ∀ a, p a → q a) {a : α} (ha : a ∈ s) (hq : q a) (hp : ¬ p a) :
    (s.filter p).card < (s.filter q).card :=
  Finset.card_lt_card (Finset.ssubset_iff_subset_ne.mpr
    ⟨Finset.monotone_filter_right s (fun a _ ↦ hpq a), fun heq ↦
      hp (Finset.mem_filter.mp (heq ▸ Finset.mem_filter.mpr ⟨ha, hq⟩)).2⟩)

end Loop
