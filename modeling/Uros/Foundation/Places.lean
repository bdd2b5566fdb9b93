import Mathlib.Data.List.Nodup
import Mathlib.Data.List.Perm.Basic
import Mathlib.Logic.Function.Basic

/-!
Lists kept at places: what is stored at all of them together, when one of them is rewritten.
-/

namespace Uros.Foundation

variable {ι β : Type*} [DecidableEq ι] {places : List ι} {p : ι}

theorem flatMap_update_perm (hnodup : places.Nodup) (hmem : p ∈ places) (f : ι → List β) :
    ∃ rest, ∀ part, (places.flatMap (Function.update f p part)).Perm (part ++ rest) := by
  induction places with
  | nil => cases hmem
  | cons r places ih =>
    obtain ⟨hr, hrest⟩ := List.nodup_cons.mp hnodup
    by_cases hrp : r = p
    · subst hrp
      refine ⟨places.flatMap f, fun part => ?_⟩
      have hothers : places.flatMap (Function.update f r part) = places.flatMap f := by
        refine List.flatMap_congr fun x hx => ?_
        have hxr : x ≠ r := fun heq => hr (heq ▸ hx)
        rw [Function.update_of_ne hxr]
      rw [List.flatMap_cons, Function.update_self, hothers]
    · obtain ⟨rest, hperm⟩ := ih hrest ((List.mem_cons.mp hmem).resolve_left (Ne.symm hrp))
      refine ⟨f r ++ rest, fun part => ?_⟩
      rw [List.flatMap_cons, Function.update_of_ne hrp]
      exact ((hperm part).append_left _).trans (List.perm_append_comm_assoc ..)

end Uros.Foundation
