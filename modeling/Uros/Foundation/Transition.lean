import Mathlib.Data.List.Basic

/-!
Finite runs of a deterministic partial transition function.

A component is given by `step : σ → α → Option σ`.  Everything the component
does not decide itself (allocation results, scheduling, what the environment
sends) is part of the label `α`; `none` means that the step cannot be taken.
The rules below reduce a statement about every run to one about a single step.
-/

namespace Uros.Foundation

variable {σ α : Type*}

/-- The state after taking the steps of `labels` in order. -/
def runSteps (step : σ → α → Option σ) : σ → List α → Option σ
  | s, [] => some s
  | s, a :: labels => (step s a).bind fun s' => runSteps step s' labels

def StepsMeet (step : σ → α → Option σ) (guard : σ → α → Prop) :
    σ → List α → Prop
  | _, [] => True
  | s, a :: labels =>
    guard s a ∧ ∀ s', step s a = some s' → StepsMeet step guard s' labels

instance StepsMeet.decidable (step : σ → α → Option σ) (guard : σ → α → Prop)
    [∀ s a, Decidable (guard s a)] :
    (s : σ) → (labels : List α) → Decidable (StepsMeet step guard s labels)
  | _, [] => .isTrue trivial
  | s, a :: labels =>
    match h : step s a with
    | none => decidable_of_iff (guard s a) (by simp [StepsMeet, h])
    | some s' =>
      have := StepsMeet.decidable step guard s' labels
      decidable_of_iff (guard s a ∧ StepsMeet step guard s' labels) (by simp [StepsMeet, h])

variable {step : σ → α → Option σ} {guard : σ → α → Prop} {inv : σ → Prop}
  {s s' : σ} {a : α} {labels : List α}

@[simp] theorem runSteps_nil : runSteps step s [] = some s := rfl

theorem runSteps_cons :
    runSteps step s (a :: labels) = some s' ↔
      ∃ s₁, step s a = some s₁ ∧ runSteps step s₁ labels = some s' := by
  simp only [runSteps, Option.bind_eq_some_iff]

theorem runSteps_append {front back : List α} :
    runSteps step s (front ++ back) = some s' ↔
      ∃ s₁, runSteps step s front = some s₁ ∧ runSteps step s₁ back = some s' := by
  induction front generalizing s with
  | nil => simp
  | cons a front ih =>
    simp only [List.cons_append, runSteps_cons, ih]
    constructor
    · rintro ⟨s₁, ha, s₂, hf, hb⟩
      exact ⟨s₂, ⟨s₁, ha, hf⟩, hb⟩
    · rintro ⟨s₂, ⟨s₁, ha, hf⟩, hb⟩
      exact ⟨s₁, ha, s₂, hf, hb⟩

theorem runSteps_invariant_of_guard
    (hstep : ∀ s a s', inv s → guard s a → step s a = some s' → inv s')
    (hinit : inv s) (hmeet : StepsMeet step guard s labels)
    (hrun : runSteps step s labels = some s') : inv s' := by
  induction labels generalizing s with
  | nil =>
    simp only [runSteps_nil, Option.some.injEq] at hrun
    exact hrun ▸ hinit
  | cons a labels ih =>
    obtain ⟨s₁, ha, hrest⟩ := runSteps_cons.mp hrun
    exact ih (hstep s a s₁ hinit hmeet.1 ha) (hmeet.2 s₁ ha) hrest

theorem stepsMeet_of_forall {good : α → Prop} (h : ∀ a ∈ labels, good a) :
    StepsMeet step (fun _ a => good a) s labels := by
  induction labels generalizing s with
  | nil => trivial
  | cons a labels ih =>
    exact ⟨h a (by simp), fun _ _ => ih fun b hb => h b (by simp [hb])⟩

theorem StepsMeet.and {guard' : σ → α → Prop} (h : StepsMeet step guard s labels)
    (h' : StepsMeet step guard' s labels) :
    StepsMeet step (fun s a => guard s a ∧ guard' s a) s labels := by
  induction labels generalizing s with
  | nil => trivial
  | cons a labels ih => exact ⟨⟨h.1, h'.1⟩, fun s' hs => ih (h.2 s' hs) (h'.2 s' hs)⟩

theorem StepsMeet.of_invariant {good : σ → α → Prop} (inv : σ → Prop)
    (hstep : ∀ s a s', inv s → guard s a → step s a = some s' → inv s')
    (hgood : ∀ s a, inv s → guard s a → good s a) (hinit : inv s)
    (h : StepsMeet step guard s labels) : StepsMeet step good s labels := by
  induction labels generalizing s with
  | nil => trivial
  | cons a labels ih =>
    exact ⟨hgood s a hinit h.1, fun s' hs => ih (hstep s a s' hinit h.1 hs) (h.2 s' hs)⟩

theorem runSteps_invariant (hstep : ∀ s a s', inv s → step s a = some s' → inv s')
    (hinit : inv s) (hrun : runSteps step s labels = some s') : inv s' :=
  runSteps_invariant_of_guard (fun s a s' hi _ ha => hstep s a s' hi ha) hinit
    (stepsMeet_of_forall fun _ _ => trivial) hrun

theorem StepsMeet.append {front back : List α} :
    StepsMeet step guard s (front ++ back) ↔
      StepsMeet step guard s front ∧
        ∀ s₁, runSteps step s front = some s₁ → StepsMeet step guard s₁ back := by
  induction front generalizing s with
  | nil => simp [StepsMeet]
  | cons a front ih =>
    simp only [List.cons_append, StepsMeet, ih, runSteps_cons]
    constructor
    · rintro ⟨hg, hrest⟩
      refine ⟨⟨hg, fun s₁ h₁ => (hrest s₁ h₁).1⟩, ?_⟩
      rintro s₂ ⟨s₁, h₁, h₂⟩
      exact (hrest s₁ h₁).2 s₂ h₂
    · rintro ⟨⟨hg, hfront⟩, hback⟩
      exact ⟨hg, fun s₁ h₁ => ⟨hfront s₁ h₁, fun s₂ h₂ => hback s₂ ⟨s₁, h₁, h₂⟩⟩⟩

end Uros.Foundation
