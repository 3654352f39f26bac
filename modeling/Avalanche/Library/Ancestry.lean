import Mathlib

/-!
# Forests given by a parent function

A forest is a partial parent function `up`. `Below up a b` says that `b` is met when going up from
`a`, `AtOrBelow` also allows `a = b`. Since `up` is a function, what is met on the way up from one
element is linearly ordered; a rank that falls along `up` rules out cycles.
-/

namespace Ancestry

variable {α : Type} {up up' : α → Option α} {a b c : α}

/-- `b` is directly above `a`. -/
def Step (up : α → Option α) (a b : α) : Prop := up a = some b

/-- `b` is met when going up from `a`. -/
def Below (up : α → Option α) : α → α → Prop := Relation.TransGen (Step up)

/-- `a` is `b` or below it. -/
def AtOrBelow (up : α → Option α) : α → α → Prop := Relation.ReflTransGen (Step up)

/-- The rank falls on the way up. -/
def Ranked (up : α → Option α) (rank : α → ℕ) : Prop :=
  ∀ a b, up a = some b → rank b < rank a

theorem step_rightUnique : Relator.RightUnique (Step up) := fun _ _ _ hb hc ↦
  Option.some.inj (hb.symm.trans hc)

theorem AtOrBelow.refl (a : α) : AtOrBelow up a a := Relation.ReflTransGen.refl

theorem Below.atOrBelow (h : Below up a b) : AtOrBelow up a b := h.to_reflTransGen

theorem atOrBelow_iff : AtOrBelow up a b ↔ a = b ∨ Below up a b := by
  rw [AtOrBelow, Relation.reflTransGen_iff_eq_or_transGen, eq_comm]
  rfl

theorem AtOrBelow.trans (hab : AtOrBelow up a b) (hbc : AtOrBelow up b c) :
    AtOrBelow up a c := Relation.ReflTransGen.trans hab hbc

/-- Below `p` is at or below one of its children. -/
theorem below_iff_child {a p : α} : Below up a p ↔ ∃ c, AtOrBelow up a c ∧ up c = some p :=
  Relation.TransGen.tail'_iff

/-- Going up one step first. -/
theorem below_iff_up {a p : α} : Below up a p ↔ ∃ b, up a = some b ∧ AtOrBelow up b p :=
  Relation.TransGen.head'_iff

theorem below_iff_of_up (h : up a = some b) : Below up a c ↔ AtOrBelow up b c := by
  rw [below_iff_up]
  constructor
  · rintro ⟨p, hp, hle⟩
    rwa [Option.some.inj (h.symm.trans hp)]
  · exact fun hle ↦ ⟨b, h, hle⟩

theorem not_below_of_top (h : up a = none) : ¬ Below up a b := by
  intro hbelow
  obtain ⟨p, hp, -⟩ := below_iff_up.mp hbelow
  cases h.symm.trans hp

theorem AtOrBelow.eq_of_top (hab : AtOrBelow up a b) (h : up a = none) : a = b :=
  (atOrBelow_iff.mp hab).resolve_right (not_below_of_top h)

theorem Below.trans_atOrBelow (hab : Below up a b) (hbc : AtOrBelow up b c) :
    Below up a c := Relation.TransGen.trans_left hab hbc

theorem AtOrBelow.trans_below (hab : AtOrBelow up a b) (hbc : Below up b c) :
    Below up a c := Relation.TransGen.trans_right hab hbc

theorem below_of_up (h : up a = some b) : Below up a b := Relation.TransGen.single h

/-- What is met on the way up from one element is linearly ordered. -/
theorem AtOrBelow.comparable (hab : AtOrBelow up a b) (hac : AtOrBelow up a c) :
    AtOrBelow up b c ∨ AtOrBelow up c b :=
  Relation.ReflTransGen.total_of_right_unique step_rightUnique hab hac

/-- With more parents there is more to be met. -/
theorem AtOrBelow.mono (h : ∀ a b, up a = some b → up' a = some b)
    (hab : AtOrBelow up a b) : AtOrBelow up' a b :=
  Relation.ReflTransGen.mono h _ _ hab

theorem Below.mono (h : ∀ a b, up a = some b → up' a = some b)
    (hab : Below up a b) : Below up' a b :=
  Relation.TransGen.mono h _ _ hab

/-- Two parent functions that agree on the way up from `a` lead to the same elements. -/
theorem atOrBelow_congr
    (h : ∀ c, AtOrBelow up a c → up' c = up c) : AtOrBelow up' a b ↔ AtOrBelow up a b := by
  constructor
  · intro hab
    induction hab with
    | refl => exact AtOrBelow.refl a
    | tail _ hstep ih => exact ih.tail ((h _ ih).symm.trans hstep)
  · intro hab
    induction hab with
    | refl => exact AtOrBelow.refl a
    | tail hac hstep ih => exact ih.tail ((h _ hac).trans hstep)

theorem below_congr (h : ∀ c, AtOrBelow up a c → up' c = up c) : Below up' a b ↔ Below up a b := by
  rw [below_iff_child, below_iff_child]
  refine exists_congr fun c ↦ ?_
  rw [atOrBelow_congr h]
  exact and_congr_right fun hac ↦ by rw [h c hac]

/-- A way up stays if the parent function keeps its values on it, before its end. -/
theorem AtOrBelow.of_agree (hab : AtOrBelow up a b)
    (h : ∀ c, AtOrBelow up c b → c ≠ b → up' c = up c) : AtOrBelow up' a b := by
  induction hab using Relation.ReflTransGen.head_induction_on with
  | refl => exact AtOrBelow.refl b
  | @head a c hstep hcb ih =>
    by_cases hne : a = b
    · rw [hne]
      exact AtOrBelow.refl b
    · exact Relation.ReflTransGen.head ((h a (hcb.head hstep) hne).trans hstep) ih

/-- A way up that is continued by one element leads to that element as well. -/
theorem below_extend (hab : AtOrBelow up a b) (htop : up b = none)
    (hagree : ∀ x, AtOrBelow up a x → x ≠ b → up' x = up x) (hnew : up' b = some c)
    (hend : up' c = none) {x : α} : Below up' a x ↔ x = c ∨ Below up a x := by
  induction hab using Relation.ReflTransGen.head_induction_on with
  | refl =>
    rw [below_iff_of_up hnew, or_iff_left (not_below_of_top htop)]
    exact ⟨fun hle ↦ (hle.eq_of_top hend).symm, fun heq ↦ heq ▸ AtOrBelow.refl x⟩
  | @head a d hstep hdb ih =>
    have had : up a = some d := hstep
    have hne : a ≠ b := by
      rintro rfl
      cases htop.symm.trans had
    have had' : up' a = some d := (hagree a (AtOrBelow.refl a) hne).trans had
    rw [below_iff_of_up had', below_iff_of_up had, atOrBelow_iff, atOrBelow_iff,
      ih fun y hy ↦ hagree y ((below_iff_of_up had).mpr hy).atOrBelow]
    exact or_left_comm

/-- The members of a branch are below its first one. -/
theorem below_of_isChain {a : α} {l : List α} (h : (a :: l).IsChain fun a b ↦ up b = some a) :
    ∀ b ∈ l, Below up b a := by
  induction l generalizing a with
  | nil => simp
  | cons c l ih =>
    obtain ⟨hc, hchain⟩ := List.isChain_cons_cons.mp h
    intro b hb
    rcases List.mem_cons.mp hb with rfl | hb
    · exact below_of_up hc
    · exact (ih hchain b hb).trans_atOrBelow (below_of_up hc).atOrBelow

section Ranked

variable {rank : α → ℕ}

theorem Ranked.lt_of_below (hr : Ranked up rank) {a b : α} (h : Below up a b) :
    rank b < rank a := by
  induction h with
  | single h => exact hr _ _ h
  | tail _ h ih => exact (hr _ _ h).trans ih

theorem Ranked.le_of_atOrBelow (hr : Ranked up rank) {a b : α} (h : AtOrBelow up a b) :
    rank b ≤ rank a := by
  obtain rfl | h := atOrBelow_iff.mp h
  · exact le_rfl
  · exact (hr.lt_of_below h).le

theorem Ranked.not_below_self (hr : Ranked up rank) (a : α) : ¬ Below up a a := fun h ↦
  lt_irrefl _ (hr.lt_of_below h)

/-- The way up from `a` to `p` enters `p` through one child only. -/
theorem Ranked.child_unique (hr : Ranked up rank) {a b c p : α} (hab : AtOrBelow up a b)
    (hac : AtOrBelow up a c) (hb : up b = some p) (hc : up c = some p) : b = c := by
  have key : ∀ {x y : α}, AtOrBelow up x y → up x = some p → up y = some p → x = y := by
    intro x y hxy hx hy
    obtain rfl | h := atOrBelow_iff.mp hxy
    · rfl
    · obtain ⟨z, hz, hzy⟩ := below_iff_up.mp h
      cases hx.symm.trans hz
      exact absurd (hzy.trans_below (below_of_up hy)) (hr.not_below_self p)
  obtain h | h := hab.comparable hac
  · exact key h hb hc
  · exact (key h hc hb).symm

/-- A list of pairwise comparable elements, none at or below a later one, that contains the parents
of its members down from `o` lists a branch: each is the parent of the next. -/
theorem Ranked.isChain (hr : Ranked up rank) {l : List α} {o : Option α}
    (horder : l.Pairwise fun a b ↦ ¬ AtOrBelow up a b)
    (hcomp : ∀ a ∈ l, ∀ b ∈ l, AtOrBelow up a b ∨ AtOrBelow up b a)
    (hclosed : ∀ a ∈ l, ∀ p, up a = some p → p ∈ l ∨ o = some p)
    (htop : ∀ a ∈ l, ∀ p, o = some p → Below up a p) :
    l.IsChain (fun a b ↦ up b = some a) ∧ ∀ a ∈ l.head?, up a = o := by
  induction l generalizing o with
  | nil => simp
  | cons a l ih =>
    obtain ⟨ha, horder⟩ := List.pairwise_cons.mp horder
    have hbelow : ∀ b ∈ l, Below up b a := fun b hb ↦ by
      have hcab := hcomp a List.mem_cons_self b (List.mem_cons_of_mem _ hb)
      obtain rfl | hba := atOrBelow_iff.mp (hcab.resolve_left (ha b hb))
      · exact absurd (AtOrBelow.refl b) (ha b hb)
      · exact hba
    have hup : up a = o := by
      cases hp : up a with
      | none =>
        cases htop' : o with
        | none => rfl
        | some p =>
          obtain ⟨q, hq, -⟩ := below_iff_up.mp (htop a List.mem_cons_self p htop')
          cases hp.symm.trans hq
      | some p =>
        obtain hmem | htop' := hclosed a List.mem_cons_self p hp
        · obtain rfl | hmem := List.mem_cons.mp hmem
          · exact absurd (below_of_up hp) (hr.not_below_self _)
          · exact absurd (below_of_up hp).atOrBelow (ha p hmem)
        · exact htop'.symm
    obtain ⟨hchain, hhead⟩ := ih (o := some a) horder
      (fun b hb c hc ↦ hcomp b (List.mem_cons_of_mem _ hb) c (List.mem_cons_of_mem _ hc))
      (fun b hb p hp ↦ by
        obtain hmem | htop' := hclosed b (List.mem_cons_of_mem _ hb) p hp
        · obtain rfl | hmem := List.mem_cons.mp hmem
          · exact Or.inr rfl
          · exact Or.inl hmem
        · -- a second child of `o` cannot be below the first
          obtain ⟨q, hq, hqa⟩ := below_iff_up.mp (hbelow b hb)
          cases hp.symm.trans hq
          exact absurd (hqa.trans_below (htop a List.mem_cons_self p htop')) (hr.not_below_self p))
      (fun b hb p hp ↦ Option.some.inj hp ▸ hbelow b hb)
    refine ⟨List.isChain_cons.mpr ⟨fun b hb ↦ hhead b hb, hchain⟩, ?_⟩
    intro b hb
    rw [List.head?_cons, Option.mem_some_iff] at hb
    rw [← hb, hup]

end Ranked

end Ancestry
