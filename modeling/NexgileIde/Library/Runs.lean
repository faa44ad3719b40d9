import Mathlib.Data.List.Basic
import Mathlib.Tactic

/-!
# Runs of a step function

A run takes a state through a list of inputs. Where a step keeps a property exactly when its
input meets a condition, the property holds all along a run exactly when all its steps meet the
condition.
-/
namespace NexgileIde.Library

variable {σ α : Type*} {step : σ → α → σ}

/-- Every step of a run meets a condition on the state it is made in. -/
def AtEachStep (step : σ → α → σ) (P : σ → α → Prop) (s : σ) (inputs : List α) : Prop :=
  ∀ done a, done ++ [a] <+: inputs → P (done.foldl step s) a

/-- A property holds in every state of a run. -/
def Throughout (step : σ → α → σ) (Good : σ → Prop) (s : σ) (inputs : List α) : Prop :=
  ∀ done, done <+: inputs → Good (done.foldl step s)

theorem atEachStep_nil (P : σ → α → Prop) (s : σ) : AtEachStep step P s [] := by
  intro done a hdone
  exact absurd (List.prefix_nil.1 hdone) (by simp)

theorem atEachStep_cons {P : σ → α → Prop} {s : σ} {a : α} {inputs : List α} :
    AtEachStep step P s (a :: inputs) ↔ P s a ∧ AtEachStep step P (step s a) inputs := by
  constructor
  · intro h
    refine ⟨h [] a (List.prefix_append [a] inputs), fun done b hdone => ?_⟩
    exact h (a :: done) b (List.cons_prefix_cons.2 ⟨rfl, hdone⟩)
  · rintro ⟨hfirst, hrest⟩ done b hdone
    cases done with
    | nil =>
      obtain ⟨rfl, -⟩ := List.cons_prefix_cons.1 hdone
      exact hfirst
    | cons c done =>
      obtain ⟨rfl, htail⟩ := List.cons_prefix_cons.1 hdone
      exact hrest done b htail

theorem throughout_nil {Good : σ → Prop} {s : σ} : Throughout step Good s [] ↔ Good s := by
  constructor
  · intro h
    exact h [] List.nil_prefix
  · intro h done hdone
    rw [List.prefix_nil.1 hdone]
    exact h

theorem throughout_cons {Good : σ → Prop} {s : σ} {a : α} {inputs : List α} :
    Throughout step Good s (a :: inputs) ↔ Good s ∧ Throughout step Good (step s a) inputs := by
  constructor
  · intro h
    refine ⟨h [] List.nil_prefix, fun done hdone => ?_⟩
    exact h (a :: done) (List.cons_prefix_cons.2 ⟨rfl, hdone⟩)
  · rintro ⟨hfirst, hrest⟩ done hdone
    cases done with
    | nil => exact hfirst
    | cons b done =>
      obtain ⟨rfl, htail⟩ := List.cons_prefix_cons.1 hdone
      exact hrest done htail

theorem Throughout.start {Good : σ → Prop} {s : σ} {inputs : List α}
    (h : Throughout step Good s inputs) : Good s :=
  h [] List.nil_prefix

/-- The invariant is what is known of a state besides the property. -/
theorem throughout_iff {Inv Good : σ → Prop} {Valid Ok : σ → α → Prop}
    (hstep : ∀ s a, Inv s → Good s → Valid s a → (Good (step s a) ↔ Ok s a))
    (hkeep : ∀ s a, Inv s → Good s → Valid s a → Ok s a → Inv (step s a))
    {s : σ} (hinv : Inv s) (hgood : Good s) {inputs : List α}
    (hvalid : AtEachStep step Valid s inputs) :
    Throughout step Good s inputs ↔ AtEachStep step Ok s inputs := by
  induction inputs generalizing s with
  | nil => exact iff_of_true (throughout_nil.2 hgood) (atEachStep_nil Ok s)
  | cons a inputs ih =>
    obtain ⟨hfirst, hrest⟩ := atEachStep_cons.1 hvalid
    have hiff := hstep s a hinv hgood hfirst
    rw [throughout_cons, atEachStep_cons]
    constructor
    · rintro ⟨-, h⟩
      have hok := hiff.1 h.start
      exact ⟨hok, (ih (hkeep s a hinv hgood hfirst hok) h.start hrest).1 h⟩
    · rintro ⟨hok, h⟩
      exact ⟨hgood, (ih (hkeep s a hinv hgood hfirst hok) (hiff.2 hok) hrest).2 h⟩

end NexgileIde.Library
