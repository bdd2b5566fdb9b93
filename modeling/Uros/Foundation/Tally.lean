import Mathlib.Data.Finset.Card

/-!
How many indices satisfy a predicate, and how that number changes when the predicate
changes at finitely many indices.
-/

namespace Uros.Foundation

variable {ι : Type*} {P Q : ι → Prop} {T : Finset ι} {m n : ℕ}

def Tally (P : ι → Prop) (n : ℕ) : Prop := ∃ F : Finset ι, (∀ i, i ∈ F ↔ P i) ∧ F.card = n

open Classical in
noncomputable def among (P : ι → Prop) (T : Finset ι) : ℕ := (T.filter P).card

theorem among_le (h : Tally P n) : among P T ≤ n := by
  classical
  obtain ⟨F, hF, rfl⟩ := h
  apply Finset.card_le_card
  intro i hi
  exact (hF i).mpr (Finset.mem_filter.mp hi).2

theorem among_singleton_of {a : ι} (h : P a) : among P {a} = 1 := by
  simp [among, Finset.filter_singleton, h]

theorem among_singleton_of_not {a : ι} (h : ¬P a) : among P {a} = 0 := by
  simp [among, Finset.filter_singleton, h]

theorem Tally.none (h : ∀ i, ¬P i) : Tally P 0 :=
  ⟨∅, fun i => by simp [h i], rfl⟩

theorem Tally.update (h : Tally P m) (hsame : ∀ i, i ∉ T → (P i ↔ Q i))
    (hcount : n + among P T = m + among Q T) : Tally Q n := by
  classical
  obtain ⟨F, hF, rfl⟩ := h
  have hinter : F ∩ T = T.filter P := by
    ext i
    simp only [Finset.mem_inter, Finset.mem_filter, hF]
    exact And.comm
  have hsplit : (F \ T).card + among P T = F.card := by
    rw [among, ← hinter]
    exact Finset.card_sdiff_add_card_inter F T
  have hdisjoint : Disjoint (F \ T) (T.filter Q) :=
    Finset.disjoint_of_subset_right (Finset.filter_subset Q T) Finset.sdiff_disjoint
  refine ⟨F \ T ∪ T.filter Q, fun i => ?_, ?_⟩
  · simp only [Finset.mem_union, Finset.mem_sdiff, Finset.mem_filter, hF]
    by_cases hi : i ∈ T
    · simp [hi]
    · simp [hi, hsame i hi]
  · rw [Finset.card_union_of_disjoint hdisjoint]
    change (F \ T).card + among Q T = n
    omega

end Uros.Foundation
