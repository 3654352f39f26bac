import Mathlib

/-!
# Handlers

A handler runs on a state. It returns a value or an error, and in both cases leaves a state behind:
what was written before an error stays written. A component that serves one message after another
and only reports errors goes on from that state, whatever the handlers return.

`outcome_bind` and `exec_bind` run a handler step by step, `zoom` runs one on a part of the state.
`Keeps` is the Hoare triple for an invariant that survives errors too, and `Keeps.execAll` is the
invariant rule for whole runs.
-/

open Std.Do

set_option mvcgen.warning false

/-- A program over a state that keeps its writes when it fails. -/
abbrev Handler (ε σ α : Type) := ExceptT ε (StateM σ) α

namespace Handler

variable {ε σ α β : Type}
variable {m : Handler ε σ α}

/-- The state a handler leaves. -/
def exec (m : Handler ε σ α) (s : σ) : σ := (m.run.run s).2

/-- The value or error a handler returns. -/
def outcome (m : Handler ε σ α) (s : σ) : Except ε α := (m.run.run s).1

/-- The state after handling messages one by one. -/
def execAll (handle : β → Handler ε σ α) (s : σ) (l : List β) : σ :=
  l.foldl (fun s b ↦ (handle b).exec s) s

/-- A handler of a part of the state. -/
def zoom {τ : Type} (part : σ → τ) (put : τ → σ → σ) (m : Handler ε τ α) : Handler ε σ α :=
  ExceptT.mk fun s ↦ (m.outcome (part s), put (m.exec (part s)) s)

@[simp] theorem outcome_zoom {τ : Type} (part : σ → τ) (put : τ → σ → σ) (m : Handler ε τ α)
    (s : σ) :
    (zoom part put m).outcome s = m.outcome (part s) := rfl

@[simp] theorem exec_zoom {τ : Type} (part : σ → τ) (put : τ → σ → σ) (m : Handler ε τ α) (s : σ) :
    (zoom part put m).exec s = put (m.exec (part s)) s := rfl

section Sequence

variable {f : α → Handler ε σ β} {m : Handler ε σ α} {s : σ}

theorem outcome_bind : (m >>= f).outcome s = match m.outcome s with
    | .ok a => (f a).outcome (m.exec s)
    | .error e => .error e := by
  simp only [outcome, exec, ExceptT.run_bind, StateT.run_bind]
  rcases m.run.run s with ⟨_ | _, _⟩ <;> rfl

theorem exec_bind : (m >>= f).exec s = match m.outcome s with
    | .ok a => (f a).exec (m.exec s)
    | .error _ => m.exec s := by
  simp only [outcome, exec, ExceptT.run_bind, StateT.run_bind]
  rcases m.run.run s with ⟨_ | _, _⟩ <;> rfl

@[simp] theorem outcome_liftM (x : Except ε α) : (liftM x : Handler ε σ α).outcome s = x := by
  cases x <;> rfl

@[simp] theorem exec_liftM (x : Except ε α) : (liftM x : Handler ε σ α).exec s = s := by
  cases x <;> rfl

@[simp] theorem outcome_get : (get : Handler ε σ σ).outcome s = .ok s := rfl

@[simp] theorem exec_get : (get : Handler ε σ σ).exec s = s := rfl

@[simp] theorem outcome_set (t : σ) : (set t : Handler ε σ PUnit).outcome s = .ok () := rfl

@[simp] theorem exec_set (t : σ) : (set t : Handler ε σ PUnit).exec s = t := rfl

@[simp] theorem outcome_modify (g : σ → σ) :
    (modify g : Handler ε σ PUnit).outcome s = .ok () := rfl

@[simp] theorem exec_modify (g : σ → σ) : (modify g : Handler ε σ PUnit).exec s = g s := rfl

@[simp] theorem outcome_pure (a : α) : (pure a : Handler ε σ α).outcome s = .ok a := rfl

@[simp] theorem exec_pure (a : α) : (pure a : Handler ε σ α).exec s = s := rfl

@[simp] theorem outcome_throw (e : ε) : (throw e : Handler ε σ α).outcome s = .error e := rfl

@[simp] theorem exec_throw (e : ε) : (throw e : Handler ε σ α).exec s = s := rfl

end Sequence

/-- From a state with `P` the handler returns with `Q` or fails with `E`. -/
abbrev Spec (P : σ → Prop) (m : Handler ε σ α) (Q : α → σ → Prop) (E : σ → Prop) : Prop :=
  ⦃fun s ↦ ⌜P s⌝⦄ m ⦃post⟨fun a s ↦ ⌜Q a s⌝, fun _ s ↦ ⌜E s⌝⟩⦄

/-- The handler keeps `I`, also when it fails. -/
abbrev Keeps (I : σ → Prop) (m : Handler ε σ α) : Prop := Spec I m (fun _ ↦ I) I

theorem spec_iff {P : σ → Prop} {Q : α → σ → Prop} {E : σ → Prop} :
    Spec P m Q E ↔ ∀ s, P s → match m.outcome s with
      | .ok a => Q a (m.exec s)
      | .error _ => E (m.exec s) := by
  refine forall_congr' fun s ↦ imp_congr Iff.rfl ?_
  simp only [WP.wp, PredTrans.apply_pushExcept, PredTrans.apply_pushArg, PredTrans.apply_Pure_pure]
  cases h : m.outcome s with
  | ok a =>
    have h' : (StateT.run (ExceptT.run m) s).run.1 = .ok a := h
    simp only [h', exec]
    exact Iff.rfl
  | error e =>
    have h' : (StateT.run (ExceptT.run m) s).run.1 = .error e := h
    simp only [h', exec]
    exact Iff.rfl

/-- What holds after a return and after a failure holds afterwards. -/
theorem Spec.exec {P I : σ → Prop} (h : Spec P m (fun _ ↦ I) I) {s : σ}
    (hs : P s) : I (m.exec s) := by
  have := spec_iff.mp h s hs
  cases hout : m.outcome s <;> rw [hout] at this <;> exact this

theorem spec_of_exec {P I : σ → Prop} (h : ∀ s, P s → I (m.exec s)) :
    Spec P m (fun _ ↦ I) I := by
  rw [spec_iff]
  intro s hs
  cases hout : m.outcome s <;> exact h s hs

/-- Two specifications of one handler hold together. -/
theorem Spec.and {P P' : σ → Prop} {Q Q' : α → σ → Prop} {E E' : σ → Prop}
    (h : Spec P m Q E) (h' : Spec P' m Q' E') :
    Spec (fun s ↦ P s ∧ P' s) m (fun a s ↦ Q a s ∧ Q' a s) fun s ↦ E s ∧ E' s := by
  rw [spec_iff] at h h' ⊢
  intro s hs
  have hm := h s hs.1
  have hm' := h' s hs.2
  cases hout : m.outcome s <;> rw [hout] at hm hm' <;> exact ⟨hm, hm'⟩

/-- A single update meets the specification its result meets. -/
theorem spec_modifyGet {P : σ → Prop} {Q : α → σ → Prop} {E : σ → Prop} {f : σ → α × σ}
    (h : ∀ s, P s → Q (f s).1 (f s).2) : Spec (ε := ε) P (modifyGet f) Q E := by
  mvcgen
  exact h _ (by assumption)

/-- The invariant rule: what every handler keeps holds after every list of messages. -/
theorem Keeps.execAll {I : σ → Prop} {handle : β → Handler ε σ α} {l : List β}
    (h : ∀ b ∈ l, Keeps I (handle b)) {s : σ} (hs : I s) : I (execAll handle s l) := by
  induction l generalizing s with
  | nil => exact hs
  | cons b l ih =>
    exact ih (fun b' hb' ↦ h b' (List.mem_cons_of_mem _ hb'))
      (Spec.exec (h b List.mem_cons_self) hs)

/-- `P` holds of every message, in the state it is handled in. -/
def Along (handle : β → Handler ε σ α) (P : σ → β → Prop) : σ → List β → Prop
  | _, [] => True
  | s, b :: l => P s b ∧ Along handle P ((handle b).exec s) l

/-- The run is taken, and the condition checked before each message. -/
instance decidableAlong {handle : β → Handler ε σ α} {P : σ → β → Prop}
    [∀ s b, Decidable (P s b)] : ∀ s l, Decidable (Along handle P s l)
  | _, [] => .isTrue trivial
  | s, b :: l =>
    have : Decidable (Along handle P ((handle b).exec s) l) := decidableAlong _ l
    decidable_of_iff (P s b ∧ Along handle P ((handle b).exec s) l) Iff.rfl

/-- The invariant rule for runs whose messages all meet a condition. -/
theorem execAll_of_along {I : σ → Prop} {handle : β → Handler ε σ α} {P : σ → β → Prop}
    (h : ∀ s b, I s → P s b → I ((handle b).exec s)) {l : List β} {s : σ}
    (hl : Along handle P s l) (hs : I s) : I (execAll handle s l) := by
  induction l generalizing s with
  | nil => exact hs
  | cons b l ih => exact ih hl.2 (h s b hs hl.1)

end Handler
