import Mathlib.Logic.Basic

/-!
Programs over a state that may panic, and what holds when they return.

The rules push `Ensures` through a program one operation at a time, so that a
proof executes the program symbolically.  The last section takes a fallible function apart.
-/

namespace Uros.Foundation

abbrev Prog (σ α : Type) := StateT σ Option α

variable {σ α β : Type}

namespace Prog

def check (p : Prop) [Decidable p] : Prog σ Unit := fun s => if p then some ((), s) else none

def panic : Prog σ α := fun _ => none

def read (f : σ → α) : Prog σ α := fun s => some (f s, s)

def update (f : σ → σ) : Prog σ Unit := fun s => some ((), f s)

end Prog

def Ensures (m : Prog σ α) (s : σ) (Q : α → σ → Prop) : Prop :=
  ∀ a s', m s = some (a, s') → Q a s'

variable {m : Prog σ α} {f : α → Prog σ β} {s s' : σ} {a : α} {p : Prop} [Decidable p]

theorem Ensures.mono {Q Q' : α → σ → Prop} (h : Ensures m s Q)
    (himp : ∀ a s', Q a s' → Q' a s') : Ensures m s Q' := by
  intro a s' hm
  exact himp a s' (h a s' hm)

@[simp] theorem ensures_pure {Q : α → σ → Prop} : Ensures (pure a) s Q ↔ Q a s := by
  constructor
  · intro h
    exact h a s rfl
  · intro h a' s' hm
    cases hm
    exact h

theorem bind_eq_some {r : β × σ} :
    (m >>= f) s = some r ↔ ∃ a s', m s = some (a, s') ∧ f a s' = some r := by
  constructor
  · intro h
    obtain ⟨⟨a, s'⟩, hm, hf⟩ := Option.bind_eq_some_iff.mp h
    exact ⟨a, s', hm, hf⟩
  · rintro ⟨a, s', hm, hf⟩
    exact Option.bind_eq_some_iff.mpr ⟨(a, s'), hm, hf⟩

@[simp] theorem ensures_bind {Q : β → σ → Prop} :
    Ensures (m >>= f) s Q ↔ Ensures m s fun a s' => Ensures (f a) s' Q := by
  constructor
  · intro h a s' hm b s'' hf
    exact h b s'' (bind_eq_some.mpr ⟨a, s', hm, hf⟩)
  · intro h b s'' hb
    obtain ⟨a, s', hm, hf⟩ := bind_eq_some.mp hb
    exact h a s' hm b s'' hf

@[simp] theorem ensures_map {Q : β → σ → Prop} {g : α → β} :
    Ensures (g <$> m) s Q ↔ Ensures m s fun a => Q (g a) := by
  rw [← bind_pure_comp, ensures_bind]
  simp only [ensures_pure]

@[simp] theorem ensures_check {Q : Unit → σ → Prop} :
    Ensures (Prog.check p) s Q ↔ (p → Q () s) := by
  unfold Ensures Prog.check
  constructor
  · intro h hp
    exact h () s (if_pos hp)
  · intro h u s' hm
    split at hm
    · rename_i hp
      cases hm
      exact h hp
    · cases hm

@[simp] theorem ensures_panic {Q : α → σ → Prop} : Ensures Prog.panic s Q := by
  intro a s' hm
  cases hm

@[simp] theorem ensures_read {Q : α → σ → Prop} {g : σ → α} :
    Ensures (Prog.read g) s Q ↔ Q (g s) s := by
  simp [Ensures, Prog.read]

@[simp] theorem ensures_update {Q : Unit → σ → Prop} {g : σ → σ} :
    Ensures (Prog.update g) s Q ↔ Q () (g s) := by
  constructor
  · intro h
    exact h () (g s) rfl
  · intro h u s' hm
    cases hm
    exact h

@[simp] theorem ensures_ite {Q : α → σ → Prop} {m n : Prog σ α} :
    Ensures (if p then m else n) s Q ↔ (p → Ensures m s Q) ∧ (¬p → Ensures n s Q) := by
  by_cases hp : p <;> simp [hp]

theorem ite_error_eq_ok {ε : Type} {p : Prop} [Decidable p] {e : ε} {x : Except ε β} {b : β} :
    (if p then .error e else x) = .ok b ↔ ¬p ∧ x = .ok b := by
  by_cases hp : p
  · simp [hp]
  · simp [hp]

end Uros.Foundation
