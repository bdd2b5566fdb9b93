import Mathlib.Data.List.Nodup
import Mathlib.Tactic.Common

/-!
Chains along a partial function `next`: the route from one element to another, and chains that end.
-/

namespace Uros.Foundation

variable {α : Type*} {next next' : α → Option α} {a b c : α} {l : List α}

/-- From `a` on, `next` leads through the elements of `l` to `b`. -/
inductive Route (next : α → Option α) : α → List α → α → Prop
  | nil (a : α) : Route next a [] a
  | cons {a b c : α} {l : List α} : next a = some b → Route next b l c → Route next a (a :: l) c

/-- From `a` on, `next` comes to an end. -/
inductive Ends (next : α → Option α) : α → Prop
  | stop {a : α} : next a = none → Ends next a
  | go {a b : α} : next a = some b → Ends next b → Ends next a

theorem Route.concat (h : Route next a l b) (hb : next b = some c) :
    Route next a (l ++ [b]) c := by
  induction h with
  | nil => exact .cons hb (.nil c)
  | cons ha _ ih => exact .cons ha (ih hb)

theorem Route.isSome (h : Route next a l b) (hc : c ∈ l) : (next c).isSome := by
  induction h with
  | nil => cases hc
  | cons ha _ ih =>
    rcases List.mem_cons.mp hc with rfl | hc
    · rw [ha]
      rfl
    · exact ih hc

theorem Route.congr (h : Route next a l b) (heq : ∀ c ∈ l, next' c = next c) :
    Route next' a l b := by
  induction h with
  | nil => exact .nil _
  | cons ha _ ih =>
    refine .cons ((heq _ List.mem_cons_self).trans ha) (ih fun c hc => ?_)
    exact heq c (List.mem_cons_of_mem _ hc)

theorem Route.ends (h : Route next a l b) (hb : next b = none) : Ends next a := by
  induction h with
  | nil => exact .stop hb
  | cons ha _ ih => exact .go ha (ih hb)

theorem Ends.exists_route (h : Ends next a) : ∃ l b, Route next a l b ∧ next b = none := by
  induction h with
  | stop hb => exact ⟨_, _, .nil _, hb⟩
  | go ha _ ih =>
    obtain ⟨l, b, hroute, hb⟩ := ih
    exact ⟨_, b, .cons ha hroute, hb⟩

theorem Ends.not_circle (h : Ends next a) (hl : l ≠ []) : ¬ Route next a l a := by
  induction h generalizing l with
  | stop ha =>
    intro hroute
    cases hroute with
    | nil => exact hl rfl
    | cons hsome _ => rw [ha] at hsome; cases hsome
  | go ha _ ih =>
    intro hroute
    cases hroute with
    | nil => exact hl rfl
    | cons hsome hroute =>
      rw [ha] at hsome
      cases hsome
      exact ih (by simp) (hroute.concat ha)

theorem Ends.not_mem (h : ∀ c, Ends next c) (hroute : Route next a l b) : b ∉ l := by
  induction hroute with
  | nil => simp
  | @cons a c b l ha hroute ih =>
    rw [List.mem_cons]
    rintro (rfl | hb)
    · exact (h b).not_circle (by simp) (.cons ha hroute)
    · exact ih hb

/-- `next` changes at `c`, and the new chain from there ends. -/
theorem Ends.change (h : Ends next a) (heq : ∀ d, d ≠ c → next' d = next d)
    (hc : Ends next' c) : Ends next' a := by
  induction h with
  | @stop a ha =>
    by_cases hac : a = c
    · exact hac ▸ hc
    · exact .stop ((heq a hac).trans ha)
  | @go a b ha _ ih =>
    by_cases hac : a = c
    · exact hac ▸ hc
    · exact .go ((heq a hac).trans ha) ih

/-- `l` is the chain from `a` to its end `b`. -/
def Whole (next : α → Option α) (a b : α) (l : List α) : Prop :=
  ∃ r, l = b :: r ∧ Route next a r b ∧ next b = none

theorem Whole.congr (h : Whole next a b l) (heq : ∀ c ∈ l, next' c = next c) :
    Whole next' a b l := by
  obtain ⟨r, rfl, hroute, hb⟩ := h
  refine ⟨r, rfl, hroute.congr fun c hc => heq c (List.mem_cons_of_mem b hc), ?_⟩
  rw [heq b List.mem_cons_self, hb]

theorem Whole.eq_singleton (h : Whole next a b l) (ha : next a = none) : a = b ∧ l = [a] := by
  obtain ⟨r, rfl, hroute, -⟩ := h
  cases hroute with
  | nil => exact ⟨rfl, rfl⟩
  | cons hsome _ => rw [ha] at hsome; cases hsome

theorem Whole.tail (h : Whole next a b l) (hnodup : l.Nodup) (ha : next a = some c) :
    ∃ l', Whole next c b l' ∧ l'.Nodup ∧ ∀ d, d ∈ l' ↔ d ∈ l ∧ d ≠ a := by
  obtain ⟨r, rfl, hroute, hb⟩ := h
  cases hroute with
  | nil => rw [ha] at hb; cases hb
  | @cons _ c' _ r hsome hroute =>
    obtain rfl : c' = c := Option.some.inj (hsome.symm.trans ha)
    simp only [List.nodup_cons, List.mem_cons, not_or] at hnodup
    obtain ⟨⟨hba, hbr⟩, har, hr⟩ := hnodup
    refine ⟨b :: r, ⟨r, rfl, hroute, hb⟩, List.nodup_cons.mpr ⟨hbr, hr⟩, fun d => ?_⟩
    constructor
    · intro hd
      refine ⟨?_, ?_⟩
      · rcases List.mem_cons.mp hd with rfl | hd <;> simp [*]
      · rintro rfl
        rcases List.mem_cons.mp hd with rfl | hd
        · exact hba rfl
        · exact har hd
    · rintro ⟨hd, hne⟩
      simpa [hne] using hd

end Uros.Foundation
