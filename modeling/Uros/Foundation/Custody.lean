import Mathlib.Data.List.Nodup
import Mathlib.Data.List.Perm.Basic
import Mathlib.Logic.Function.Basic

/-!
Items that are in a pool or with one of many holders, each in one place and there once.
-/

namespace Uros.Foundation

/-- The items below `n` are divided between the list `free` and the lists of the holders; `owner`
says where an item is, `none` being the list `free`. -/
structure Custody (n : ℕ) (free : List ℕ) (items : ℕ → List ℕ) (owner : ℕ → Option ℕ) :
    Prop where
  nodup : free.Nodup
  mem_free : ∀ i, i ∈ free ↔ i < n ∧ owner i = none
  once : ∀ t, (items t).Nodup
  mem_items : ∀ t i, i ∈ items t ↔ i < n ∧ owner i = some t

namespace Custody

variable {n i t : ℕ} {free rest : List ℕ} {items items' : ℕ → List ℕ} {owner : ℕ → Option ℕ}

theorem perm (h : Custody n free items owner) (hperm : ∀ t, (items' t).Perm (items t)) :
    Custody n free items' owner :=
  ⟨h.nodup, h.mem_free, fun t => (hperm t).nodup_iff.mpr (h.once t),
    fun t i => (hperm t).mem_iff.trans (h.mem_items t i)⟩

theorem take (h : Custody n (i :: rest) items owner) (hsame : ∀ u, u ≠ t → items' u = items u)
    (hperm : (items' t).Perm (i :: items t)) :
    Custody n rest items' (Function.update owner i (some t)) := by
  obtain ⟨hlt, hfree⟩ := (h.mem_free i).mp List.mem_cons_self
  obtain ⟨hi, hnodup⟩ := List.nodup_cons.mp h.nodup
  have hout : ∀ u, i ∉ items u := fun u hmem => by
    rw [((h.mem_items u i).mp hmem).2] at hfree
    cases hfree
  refine ⟨hnodup, fun j => ?_, fun u => ?_, fun u j => ?_⟩
  · by_cases hj : j = i
    · subst hj
      simp [hi]
    · rw [Function.update_of_ne hj, ← h.mem_free]
      simp [hj]
  · by_cases hu : u = t
    · subst hu
      exact hperm.nodup_iff.mpr (List.nodup_cons.mpr ⟨hout u, h.once u⟩)
    · exact hsame u hu ▸ h.once u
  · by_cases hu : u = t
    · subst hu
      rw [hperm.mem_iff, List.mem_cons, h.mem_items]
      by_cases hj : j = i
      · simp [hj, hlt]
      · simp [hj]
    · rw [hsame u hu]
      by_cases hj : j = i
      · subst hj
        simp [hout u, Ne.symm hu]
      · rw [Function.update_of_ne hj]
        exact h.mem_items u j

theorem put (h : Custody n free items owner) (hsame : ∀ u, u ≠ t → items' u = items u)
    (hperm : (items t).Perm (i :: items' t)) :
    Custody n (i :: free) items' (Function.update owner i none) := by
  obtain ⟨hlt, hheld⟩ := (h.mem_items t i).mp (hperm.mem_iff.mpr List.mem_cons_self)
  obtain ⟨hi, hnodup⟩ := List.nodup_cons.mp (hperm.nodup_iff.mp (h.once t))
  have hout : i ∉ free := fun hmem => by
    rw [((h.mem_free i).mp hmem).2] at hheld
    cases hheld
  refine ⟨List.nodup_cons.mpr ⟨hout, h.nodup⟩, fun j => ?_, fun u => ?_, fun u j => ?_⟩
  · by_cases hj : j = i
    · simp [hj, hlt]
    · rw [Function.update_of_ne hj, ← h.mem_free]
      simp [hj]
  · by_cases hu : u = t
    · exact hu ▸ hnodup
    · exact hsame u hu ▸ h.once u
  · by_cases hj : j = i
    · subst hj
      by_cases hu : u = t
      · subst hu
        simp [hi]
      · rw [hsame u hu, h.mem_items, hheld]
        simp [Ne.symm hu]
    · rw [Function.update_of_ne hj, ← h.mem_items]
      by_cases hu : u = t
      · subst hu
        rw [hperm.mem_iff]
        simp [hj]
      · rw [hsame u hu]

end Custody

end Uros.Foundation
