import Mathlib.Data.Fintype.Card
import Mathlib.Data.List.FinRange
import Mathlib.Logic.Function.Basic

/-!
Fixed arrays of slots that are either free or hold an entry.

A lookup scans the slots in order and answers with the first entry that passes a test;
an insertion takes the first free slot.
-/

namespace Uros.Foundation

theorem update_eq_some {ι α : Type*} [DecidableEq ι] {f : ι → Option α} {i j : ι}
    {a : Option α} {e : α} (h : Function.update f i a j = some e) :
    (j = i ∧ a = some e) ∨ (j ≠ i ∧ f j = some e) := by
  rw [Function.update_apply] at h
  split at h
  · exact .inl ⟨‹_›, h⟩
  · exact .inr ⟨‹_›, h⟩

abbrev SlotTable (n : Nat) (α : Type*) := Fin n → Option α

namespace SlotTable

variable {n : Nat} {α : Type*}

def find (t : SlotTable n α) (p : α → Bool) : Option (Fin n × α) :=
  (List.finRange n).findSome? fun i =>
    (t i).bind fun e => if p e then some (i, e) else none

def freeSlot (t : SlotTable n α) : Option (Fin n) :=
  (List.finRange n).find? fun i => (t i).isNone

def entries (t : SlotTable n α) : List α :=
  (List.finRange n).filterMap t

def modify (t : SlotTable n α) (i : Fin n) (f : α → α) : SlotTable n α :=
  Function.update t i ((t i).map f)

def Distinct {κ : Type*} (t : SlotTable n α) (key : α → κ) : Prop :=
  ∀ i j e f, t i = some e → t j = some f → key e = key f → i = j

variable {t : SlotTable n α} {p : α → Bool} {i j : Fin n} {e f : α}

theorem find_some (h : t.find p = some (i, e)) : t i = some e ∧ p e = true := by
  obtain ⟨k, -, hk⟩ := List.exists_of_findSome?_eq_some h
  obtain ⟨d, hd, hif⟩ := Option.bind_eq_some_iff.mp hk
  split at hif
  · next hp =>
    simp only [Option.some.injEq, Prod.mk.injEq] at hif
    obtain ⟨rfl, rfl⟩ := hif
    exact ⟨hd, hp⟩
  · cases hif

theorem find_eq_none : t.find p = none ↔ ∀ i e, t i = some e → p e = false := by
  unfold find
  rw [List.findSome?_eq_none_iff]
  constructor
  · intro h i e hi
    have := h i (List.mem_finRange i)
    simpa [hi] using this
  · intro h i _
    cases hi : t i with
    | none => rfl
    | some e => simp [h i e hi]

theorem freeSlot_some (h : t.freeSlot = some i) : t i = none := by
  simpa using List.find?_some h

theorem mem_entries : e ∈ t.entries ↔ ∃ i, t i = some e := by
  simp [entries, List.mem_filterMap]

@[simp] theorem modify_same (f : α → α) : t.modify i f i = (t i).map f := by
  simp [modify]

theorem modify_other (f : α → α) (h : j ≠ i) : t.modify i f j = t j := by
  simp [modify, h]

theorem modify_cases {g : α → α} (hi : t i = some e) (hj : t.modify i g j = some f) :
    (j = i ∧ f = g e) ∨ (j ≠ i ∧ t j = some f) := by
  by_cases hji : j = i
  · subst hji
    rw [modify_same, hi] at hj
    exact .inl ⟨rfl, (Option.some.inj hj).symm⟩
  · rw [modify_other g hji] at hj
    exact .inr ⟨hji, hj⟩

theorem of_remove (h : Function.update t i none j = some e) : t j = some e :=
  ((update_eq_some h).resolve_left (by simp)).2

theorem of_insert (h : Function.update t i (some f) j = some e) :
    (j = i ∧ e = f) ∨ t j = some e := by
  rcases update_eq_some h with ⟨rfl, ⟨⟩⟩ | ⟨-, h⟩
  · exact .inl ⟨rfl, rfl⟩
  · exact .inr h

def count (t : SlotTable n α) (p : α → Bool) : ℕ :=
  (Finset.univ.filter fun i => (t i).any p = true).card

theorem count_insert (hi : t i = none) :
    count (Function.update t i (some e)) p = count t p + if p e = true then 1 else 0 := by
  unfold count
  by_cases hp : p e = true
  · have hinsert : (Finset.univ.filter fun j => (Function.update t i (some e) j).any p = true) =
        insert i (Finset.univ.filter fun j => (t j).any p = true) := by
      ext j
      by_cases hj : j = i
      · subst hj
        simp [hp]
      · simp [hj]
    rw [hinsert, Finset.card_insert_of_notMem (by simp [hi]), if_pos hp]
  · rw [if_neg hp, Nat.add_zero]
    congr 1
    ext j
    by_cases hj : j = i
    · subst hj
      simp [hp, hi]
    · simp [hj]

theorem count_remove (hi : t i = some e) :
    count t p = count (Function.update t i none) p + if p e = true then 1 else 0 := by
  rw [← count_insert (Function.update_self i none t), Function.update_idem, ← hi,
    Function.update_eq_self]

theorem count_congr {t' : SlotTable n α} (h : ∀ i, (t' i).any p = (t i).any p) :
    count t' p = count t p := by
  unfold count
  simp only [h]

theorem count_free : count (fun _ => none : SlotTable n α) p = 0 := by
  simp [count]

end SlotTable

end Uros.Foundation
