import Mathlib.Algebra.Ring.Nat
import Mathlib.Data.List.Basic
import Mathlib.Logic.Function.Basic

/-!
Rings that are indexed by free-running 32-bit counters.

The two ends of a ring count without bound; only the counts modulo `2 ^ 32` are
stored.  As long as the ends are less than `2 ^ 32` apart, the machine difference of
the stored counters is the true distance, and the low bits of a counter are the slot.
-/

namespace Uros.Foundation

def ahead (a b : UInt32) : Nat := (b - a).toNat

theorem ahead_eq (a b : UInt32) : ahead a b = (2 ^ 32 - a.toNat + b.toNat) % 2 ^ 32 :=
  UInt32.toNat_sub b a

@[simp] theorem ahead_self (a : UInt32) : ahead a a = 0 := by simp [ahead]

theorem ahead_succ {a b : UInt32} (h : ahead a b + 1 < 2 ^ 32) :
    ahead a (b + 1) = ahead a b + 1 := by
  have ha := a.toNat_lt
  have hb := b.toNat_lt
  rw [ahead_eq] at h ⊢
  rw [ahead_eq, UInt32.toNat_add, UInt32.toNat_one]
  omega

theorem ahead_pred {a b : UInt32} (h : 0 < ahead a b) : ahead (a + 1) b = ahead a b - 1 := by
  have ha := a.toNat_lt
  have hb := b.toNat_lt
  rw [ahead_eq] at h ⊢
  rw [ahead_eq, UInt32.toNat_add, UInt32.toNat_one]
  omega

theorem ahead_ofNat {m n : Nat} (hle : m ≤ n) (hlt : n < m + 2 ^ 32) :
    ahead (UInt32.ofNat m) (UInt32.ofNat n) = n - m := by
  rw [ahead_eq, UInt32.toNat_ofNat', UInt32.toNat_ofNat']
  omega

theorem eq_ofNat_add_ahead (a b : UInt32) : b = UInt32.ofNat (a.toNat + ahead a b) := by
  have ha := a.toNat_lt
  have hb := b.toNat_lt
  rw [← UInt32.toNat_inj, UInt32.toNat_ofNat', ahead_eq]
  omega

theorem and_mask_ofNat {mask : UInt32} {k n : Nat} (hk : k ≤ 32)
    (hmask : mask.toNat = 2 ^ k - 1) : (UInt32.ofNat n &&& mask).toNat = n % 2 ^ k := by
  rw [UInt32.toNat_and, hmask, Nat.and_two_pow_sub_one_eq_mod, UInt32.toNat_ofNat']
  exact Nat.mod_mod_of_dvd n (Nat.pow_dvd_pow 2 hk)

theorem mod_ne_of_window {size i j : Nat} (hij : i < j) (hj : j < i + size) :
    i % size ≠ j % size := by
  intro heq
  have hdvd : size ∣ j - i := Nat.dvd_of_mod_eq_zero (Nat.sub_mod_eq_zero_of_mod_eq heq.symm)
  exact absurd (Nat.le_of_dvd (by omega) hdvd) (by omega)

variable {α : Type*} {size front : Nat} {slots : Nat → α} {items : List α}

def InSlots (size : Nat) (slots : Nat → α) (items : List α) (front : Nat) : Prop :=
  ∀ i item, front ≤ i → items[i]? = some item → slots (i % size) = item

theorem InSlots.pop (h : InSlots size slots items front) :
    InSlots size slots items (front + 1) :=
  fun i item hi hitem => h i item (Nat.le_of_succ_le hi) hitem

theorem InSlots.write (h : InSlots size slots items front)
    (hroom : items.length < front + size) (item : α) :
    InSlots size (Function.update slots (items.length % size) item) items front := by
  intro i item' hi hitem
  have hlt : i < items.length := (List.getElem?_eq_some_iff.mp hitem).1
  rw [Function.update_of_ne (mod_ne_of_window hlt (by omega))]
  exact h i item' hi hitem

theorem InSlots.push (h : InSlots size slots items front) :
    InSlots size slots (items ++ [slots (items.length % size)]) front := by
  intro i item hi hitem
  by_cases hlt : i < items.length
  · rw [List.getElem?_append_left hlt] at hitem
    exact h i item hi hitem
  · obtain ⟨hi', -⟩ := List.getElem?_eq_some_iff.mp hitem
    rw [List.length_append, List.length_singleton] at hi'
    obtain rfl : i = items.length := by omega
    rw [List.getElem?_concat_length] at hitem
    exact Option.some.inj hitem

theorem InSlots.take_succ (h : InSlots size slots items front) (hlt : front < items.length) :
    items.take (front + 1) = items.take front ++ [slots (front % size)] := by
  have hitem : items[front]? = some items[front] := List.getElem?_eq_getElem hlt
  rw [List.take_add_one, hitem, h front _ (Nat.le_refl front) hitem]
  rfl

end Uros.Foundation
