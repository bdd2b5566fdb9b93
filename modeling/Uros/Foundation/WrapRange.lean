import Mathlib.Algebra.Ring.Nat
import Mathlib.Data.List.Basic
import Mathlib.Data.List.Range

/-!
Ranges of 32-bit numbers that wrap around.

`wrapRange base count` lists `base, base + 1, …` in machine arithmetic.  A range
that starts at `start + offset` stays inside the window `[start, start + len)` of
natural numbers exactly when nothing wraps and the offset and the count fit.
-/

namespace Uros.Foundation

def wrapRange (base : UInt32) (count : Nat) : List UInt32 :=
  (List.range count).map fun j => base + UInt32.ofNat j

def InWindow (start len x : UInt32) : Prop :=
  start.toNat ≤ x.toNat ∧ x.toNat < start.toNat + len.toNat

instance (start len x : UInt32) : Decidable (InWindow start len x) :=
  inferInstanceAs (Decidable (_ ∧ _))

/-- `count` numbers from `offset` on fit into a window of length `len` at `start`,
and the last of them is a 32-bit number. -/
def FitsWindow (start len : UInt32) (offset count : Nat) : Prop :=
  count = 0 ∨ (offset + count ≤ len.toNat ∧ start.toNat + offset + count ≤ 2 ^ 32)

instance (start len : UInt32) (offset count : Nat) :
    Decidable (FitsWindow start len offset count) :=
  inferInstanceAs (Decidable (_ ∨ _))

variable {start len base offset : UInt32} {count m n : Nat}

@[simp] theorem wrapRange_zero : wrapRange base 0 = [] := rfl

theorem wrapRange_add :
    wrapRange base (m + n) = wrapRange base m ++ wrapRange (base + UInt32.ofNat m) n := by
  simp only [wrapRange, List.range_add, List.map_append, List.map_map, List.append_cancel_left_eq]
  refine List.map_congr_left fun j _ => ?_
  simp only [Function.comp_apply, UInt32.ofNat_add]
  rw [UInt32.add_assoc]

theorem mem_wrapRange {x : UInt32} :
    x ∈ wrapRange base count ↔ ∃ j < count, base + UInt32.ofNat j = x := by
  simp [wrapRange]

theorem wrapRange_subset (h : m ≤ n) : wrapRange base m ⊆ wrapRange base n := by
  intro x hx
  obtain ⟨j, hj, rfl⟩ := mem_wrapRange.mp hx
  exact mem_wrapRange.mpr ⟨j, Nat.lt_of_lt_of_le hj h, rfl⟩

theorem forall_wrapRange_inWindow_iff :
    (∀ x ∈ wrapRange (start + offset) count, InWindow start len x) ↔
      FitsWindow start len offset.toNat count := by
  have hs := start.toNat_lt
  have hl := len.toNat_lt
  have ho := offset.toNat_lt
  have hval : ∀ j, (start + offset + UInt32.ofNat j).toNat =
      (start.toNat + offset.toNat + j) % 2 ^ 32 := by
    intro j
    simp only [UInt32.toNat_add, UInt32.toNat_ofNat']
    omega
  constructor
  · intro h
    have hin : ∀ j < count, start.toNat ≤ (start.toNat + offset.toNat + j) % 2 ^ 32 ∧
        (start.toNat + offset.toNat + j) % 2 ^ 32 < start.toNat + len.toNat := by
      intro j hj
      have := h _ (mem_wrapRange.mpr ⟨j, hj, rfl⟩)
      rwa [InWindow, hval] at this
    have hfits : ∀ j < count, start.toNat + offset.toNat + j < 2 ^ 32 ∧
        offset.toNat + j < len.toNat := by
      intro j
      induction j with
      | zero =>
        intro hj
        have := hin 0 hj
        omega
      | succ j ih =>
        intro hj
        have := ih (by omega)
        have := hin (j + 1) hj
        omega
    by_cases hzero : count = 0
    · exact .inl hzero
    · have := hfits (count - 1) (by omega)
      exact .inr (by omega)
  · rintro (rfl | ⟨hlen, hwrap⟩) x hx
    · simp at hx
    · obtain ⟨j, hj, rfl⟩ := mem_wrapRange.mp hx
      rw [InWindow, hval]
      omega

end Uros.Foundation
