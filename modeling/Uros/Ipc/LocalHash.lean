import Mathlib.Algebra.Ring.Nat
import Uros.Foundation.LinearProbe
import Uros.Foundation.Transition

/-!
The reverse hash of a space's table (`ipc_hash.c`), from a port to the index of its entry.

The hash shares the array with the entries: `ie_index` of position `h` is the index of the entry
hashed there, or 0.  Collisions are resolved by linear probing and `ipc_hash_local_delete` refills
the hole it makes.
-/

namespace Uros.Ipc

open Uros.Foundation

structure HashTable where
  size : ℕ
  size_pos : 0 < size
  ie_object : ℕ → ℕ
  ie_index : ℕ → ℕ

namespace HashTable

variable {t : HashTable} {obj index : ℕ}

def ihLocalHash (t : HashTable) (obj : ℕ) : ℕ := (obj >>> 6) % t.size

def home (t : HashTable) (index : ℕ) : ℕ := t.ihLocalHash (t.ie_object index)

/-- `ipc_hash_local_lookup`: the index found, or nothing.  The outer `none` is a probe loop that
has not ended after `size` steps. -/
def localLookup (t : HashTable) (obj : ℕ) : Option (Option ℕ) :=
  (probe t.size (fun h => t.ie_index h = 0 || t.ie_object (t.ie_index h) = obj) t.size
    (t.ihLocalHash obj)).map fun h =>
      if t.ie_index h = 0 then none else some (t.ie_index h)

def localInsert (t : HashTable) (obj index : ℕ) : Option HashTable :=
  if index ≠ 0 ∧ obj ≠ 0 ∧ t.ie_object index = obj then
    (probe t.size (fun h => t.ie_index h = 0) t.size (t.ihLocalHash obj)).map fun h =>
      { t with ie_index := Function.update t.ie_index h index }
  else none

/-- The test for a displaced object in `ipc_hash_local_delete`: the hole is at `hindex`, the
object found at `dindex` hashes to `tindex`. -/
def isDisplaced (hindex dindex tindex : ℕ) : Bool :=
  if dindex < hindex then dindex < tindex && tindex ≤ hindex
  else dindex < tindex || tindex ≤ hindex

def localDelete (t : HashTable) (obj index : ℕ) : Option HashTable :=
  if index ≠ 0 ∧ obj ≠ 0 ∧ t.ie_object index = obj then
    (probe t.size (fun h => t.ie_index h = index) t.size (t.ihLocalHash obj)).bind fun h =>
      (refill t.size t.home isDisplaced t.size t.ie_index h).map fun ie_index =>
        { t with ie_index := ie_index }
  else none

theorem ihLocalHash_lt (t : HashTable) (obj : ℕ) : t.ihLocalHash obj < t.size :=
  Nat.mod_lt _ t.size_pos

theorem home_lt (t : HashTable) (index : ℕ) : t.home index < t.size := t.ihLocalHash_lt _

theorem isDisplaced_picks (n : ℕ) : PicksDisplaced n isDisplaced := by
  intro hindex hh dindex hd tindex ht hne
  unfold isDisplaced gap
  split_ifs <;> simp only [Bool.and_eq_true, Bool.or_eq_true, decide_eq_true_eq] <;> omega

structure Represents (t : HashTable) (live : ℕ → Option ℕ) : Prop where
  probing : Probing t.size t.home t.ie_index
  mem_iff : ∀ i ≠ 0, (∃ q < t.size, t.ie_index q = i) ↔ live (t.ie_object i) = some i
  range : ∀ obj i, live obj = some i → i ≠ 0 ∧ i < t.size ∧ obj ≠ 0 ∧ t.ie_object i = obj

namespace Represents

variable {live : ℕ → Option ℕ}

theorem index_lt (h : Represents t live) : ∀ q < t.size, t.ie_index q < t.size := by
  intro q hq
  by_cases h0 : t.ie_index q = 0
  · exact h0 ▸ t.size_pos
  · exact (h.range _ _ ((h.mem_iff _ h0).mp ⟨q, hq, rfl⟩)).2.1

theorem exists_empty (h : Represents t live) : ∃ z < t.size, t.ie_index z = 0 :=
  Foundation.exists_empty t.size_pos h.index_lt h.probing.once

theorem lookup (h : Represents t live) : t.localLookup obj = some (live obj) := by
  obtain ⟨z, hz, hempty⟩ := h.exists_empty
  cases hobj : live obj with
  | none =>
    obtain ⟨q, hq, heq, hstop, -⟩ :=
      probe_of_stop (fun h => t.ie_index h = 0 || t.ie_object (t.ie_index h) = obj)
        (t.ihLocalHash_lt obj) hz (by simp [hempty])
    have h0 : t.ie_index q = 0 := by
      by_contra hne
      have hlive := (h.mem_iff _ hne).mp ⟨q, hq, rfl⟩
      have hsame : t.ie_object (t.ie_index q) = obj := by simpa [hne] using hstop
      rw [hsame, hobj] at hlive
      cases hlive
    simp [localLookup, heq, h0]
  | some i =>
    obtain ⟨hi, -, -, hio⟩ := h.range obj i hobj
    obtain ⟨q, hq, hqi⟩ := (h.mem_iff i hi).mpr (hio.symm ▸ hobj)
    have hhome : t.home (t.ie_index q) = t.ihLocalHash obj := by rw [home, hqi, hio]
    have heq : probe t.size (fun h => t.ie_index h = 0 || t.ie_object (t.ie_index h) = obj) t.size
        (t.ihLocalHash obj) = some q := by
      refine probe_eq_some (t.ihLocalHash_lt obj) hq (by simp [hqi, hio]) fun x hx hlt => ?_
      have hne := h.probing.chain q hq (hqi ▸ hi) x hx (hhome ▸ hlt)
      have hother : t.ie_object (t.ie_index x) ≠ obj := by
        intro hsame
        have hlive := (h.mem_iff _ hne).mp ⟨x, hx, rfl⟩
        rw [hsame, hobj, Option.some.injEq] at hlive
        have := h.probing.once q hq x hx (hqi ▸ hi) (hqi.trans hlive)
        subst this
        exact lt_irrefl _ hlt
      simp [hne, hother]
    simp [localLookup, heq, hqi, hi]

theorem write (h : Represents t live) (obj : ℕ) (hfree : ∀ o, live o ≠ some index) :
    Represents { t with ie_object := Function.update t.ie_object index obj } live := by
  have hother : ∀ i, live (t.ie_object i) = some i → i ≠ index := by
    rintro i hlive rfl
    exact hfree _ hlive
  refine ⟨h.probing.congr fun q hq hne => ?_, fun i hi => ?_, fun o i hlive => ?_⟩
  · have hqi := hother _ ((h.mem_iff _ hne).mp ⟨q, hq, rfl⟩)
    simp only [home, ihLocalHash, Function.update_of_ne hqi]
  · by_cases hidx : i = index
    · subst hidx
      rw [h.mem_iff i hi]
      exact ⟨fun hlive => absurd hlive (hfree _), fun hlive => absurd hlive (hfree _)⟩
    · simp only [Function.update_of_ne hidx]
      exact h.mem_iff i hi
  · obtain ⟨hi, hlt, ho, hio⟩ := h.range o i hlive
    have hidx : i ≠ index := fun heq => hfree o (heq ▸ hlive)
    exact ⟨hi, hlt, ho, by simp only [Function.update_of_ne hidx, hio]⟩

theorem insert (h : Represents t live) (hobj : obj ≠ 0) (hi : index ≠ 0) (hlt : index < t.size)
    (hio : t.ie_object index = obj) (hnew : live obj = none) :
    ∃ t', t.localInsert obj index = some t' ∧ t'.size = t.size ∧ t'.ie_object = t.ie_object ∧
      Represents t' (Function.update live obj (some index)) := by
  obtain ⟨z, hz, hempty⟩ := h.exists_empty
  obtain ⟨q, hq, heq, hstop, hbefore⟩ :=
    probe_of_stop (fun h => t.ie_index h = 0) (t.ihLocalHash_lt obj) hz
      (by simp [hempty])
  have hq0 : t.ie_index q = 0 := by simpa using hstop
  have hnot : ∀ x < t.size, t.ie_index x ≠ index := fun x hx hxi => by
    have hlive := (h.mem_iff index hi).mp ⟨x, hx, hxi⟩
    rw [hio, hnew] at hlive
    cases hlive
  refine ⟨{ t with ie_index := Function.update t.ie_index q index }, ?_, rfl, rfl, ?_⟩
  · rw [localInsert, if_pos ⟨hi, hobj, hio⟩, heq, Option.map_some]
  · refine ⟨h.probing.insert hq0 (fun x hx hgap => ?_) hnot hi, fun i hi' => ?_,
      fun o i hlive => ?_⟩
    · have hgap' : gap t.size (t.ihLocalHash obj) x < gap t.size (t.ihLocalHash obj) q := by
        rw [← hio]
        exact hgap
      simpa using hbefore x hx hgap'
    · by_cases hii : i = index
      · subst hii
        simp only [hio, Function.update_self, iff_true]
        exact ⟨q, hq, Function.update_self q i t.ie_index⟩
      · have hplaces : (∃ p < t.size, Function.update t.ie_index q index p = i) ↔
            ∃ p < t.size, t.ie_index p = i := by
          refine exists_congr fun p => and_congr_right fun _ => ?_
          by_cases hpq : p = q
          · subst hpq
            rw [Function.update_self, hq0]
            exact ⟨fun heq => absurd heq.symm hii, fun heq => absurd heq.symm hi'⟩
          · rw [Function.update_of_ne hpq]
        refine hplaces.trans ((h.mem_iff i hi').trans ?_)
        by_cases hoo : t.ie_object i = obj
        · rw [hoo, Function.update_self, hnew]
          simp [Ne.symm hii]
        · rw [Function.update_of_ne hoo]
    · by_cases hoo : o = obj
      · subst hoo
        rw [Function.update_self, Option.some.injEq] at hlive
        subst hlive
        exact ⟨hi, hlt, hobj, hio⟩
      · rw [Function.update_of_ne hoo] at hlive
        exact h.range o i hlive

theorem delete (h : Represents t live) (hlive : live obj = some index) :
    ∃ t', t.localDelete obj index = some t' ∧ t'.size = t.size ∧ t'.ie_object = t.ie_object ∧
      Represents t' (Function.update live obj none) := by
  obtain ⟨hi, hlt, hobj, hio⟩ := h.range obj index hlive
  obtain ⟨q, hq, hqi⟩ := (h.mem_iff index hi).mpr (hio.symm ▸ hlive)
  have hhome : t.home (t.ie_index q) = t.ihLocalHash obj := by rw [home, hqi, hio]
  have heq : probe t.size (fun h => t.ie_index h = index) t.size (t.ihLocalHash obj) = some q := by
    refine probe_eq_some (t.ihLocalHash_lt obj) hq (by simp [hqi]) fun x hx hgap => ?_
    refine decide_eq_false fun hxi => ?_
    have := h.probing.once q hq x hx (hqi ▸ hi) (hqi.trans hxi.symm)
    subst this
    exact lt_irrefl _ hgap
  obtain ⟨z, hz, hempty⟩ := h.exists_empty
  obtain ⟨slot', hs, hprob, hitems⟩ :=
    (h.probing.holed (hqi ▸ hi)).refill t.home_lt (isDisplaced_picks t.size) hq hz
      hempty (gap_lt hq hz)
  refine ⟨{ t with ie_index := slot' }, ?_, rfl, rfl, hprob, fun i hi' => ?_, fun o i ho => ?_⟩
  · rw [localDelete, if_pos ⟨hi, hobj, hio⟩, heq, Option.bind_some, hs, Option.map_some]
  · refine (hitems i hi').trans ?_
    by_cases hii : i = index
    · subst hii
      simp only [hio, Function.update_self, reduceCtorEq, iff_false]
      rintro ⟨p, hp, hpq, hpi⟩
      exact hpq (h.probing.once p hp q hq (hpi ▸ hi) (hpi.trans hqi.symm))
    · have hplaces : (∃ p < t.size, p ≠ q ∧ t.ie_index p = i) ↔
          ∃ p < t.size, t.ie_index p = i := by
        refine exists_congr fun p => and_congr_right fun _ => ?_
        refine and_iff_right_of_imp ?_
        rintro hpi rfl
        exact hii (hpi.symm.trans hqi)
      refine hplaces.trans ((h.mem_iff i hi').trans ?_)
      by_cases hoo : t.ie_object i = obj
      · rw [hoo, Function.update_self, hlive]
        simp [Ne.symm hii]
      · rw [Function.update_of_ne hoo]
  · by_cases hoo : o = obj
    · subst hoo
      rw [Function.update_self] at ho
      cases ho
    · rw [Function.update_of_ne hoo] at ho
      exact h.range o i ho

end Represents

inductive HashOp where
  | insert (obj index : ℕ)
  | delete (obj index : ℕ)
  | write (index obj : ℕ)
  deriving Repr, DecidableEq

/-- An operation as the code performs it; `none` is a failed assertion or a loop that does not
end.  The caller sets `ie_object` before it inserts. -/
def apply (t : HashTable) : HashOp → Option HashTable
  | .insert obj index =>
    { t with ie_object := Function.update t.ie_object index obj }.localInsert obj index
  | .delete obj index => t.localDelete obj index
  | .write index obj => some { t with ie_object := Function.update t.ie_object index obj }

def effect (live : ℕ → Option ℕ) : HashOp → ℕ → Option ℕ
  | .insert obj index => Function.update live obj (some index)
  | .delete obj _ => Function.update live obj none
  | .write _ _ => live

/-- The rules for callers: neither an object nor an index is hashed twice, index 0 is not used,
and only what is hashed is deleted. -/
def Allowed (size : ℕ) (live : ℕ → Option ℕ) : HashOp → Prop
  | .insert obj index =>
    obj ≠ 0 ∧ 1 ≤ index ∧ index < size ∧ live obj = none ∧ ∀ o, live o ≠ some index
  | .delete obj index => live obj = some index
  | .write index _ => ∀ o, live o ≠ some index

variable {live : ℕ → Option ℕ}

theorem Represents.empty (hempty : ∀ h < t.size, t.ie_index h = 0) :
    Represents t fun _ => none := by
  refine ⟨.empty hempty, fun i hi => ?_, fun _ _ hlive => by cases hlive⟩
  simp only [reduceCtorEq, iff_false]
  rintro ⟨q, hq, hqi⟩
  exact hi (hqi.symm.trans (hempty q hq))

theorem Represents.apply {op : HashOp} (h : Represents t live) (hop : Allowed t.size live op) :
    ∃ t', t.apply op = some t' ∧ t'.size = t.size ∧ Represents t' (effect live op) := by
  cases op with
  | insert obj index =>
    obtain ⟨hobj, hi, hlt, hnew, hfree⟩ := hop
    obtain ⟨t', heq, hsize, -, hrep⟩ :=
      (h.write obj hfree).insert hobj (Nat.one_le_iff_ne_zero.mp hi) hlt
        (Function.update_self index obj t.ie_object) hnew
    exact ⟨t', heq, hsize, hrep⟩
  | delete obj index =>
    obtain ⟨t', heq, hsize, -, hrep⟩ := h.delete hop
    exact ⟨t', heq, hsize, hrep⟩
  | write index obj => exact ⟨_, rfl, rfl, h.write obj hop⟩

theorem Represents.run {ops : List HashOp} (h : Represents t live)
    (hops : StepsMeet (fun live op => some (effect live op)) (Allowed t.size) live ops) :
    ∃ t', runSteps HashTable.apply t ops = some t' ∧ Represents t' (ops.foldl effect live) := by
  induction ops generalizing t live with
  | nil => exact ⟨t, rfl, h⟩
  | cons op ops ih =>
    obtain ⟨t₁, heq, hsize, hrep⟩ := h.apply hops.1
    obtain ⟨t', hrun, hrep'⟩ := ih hrep (hsize ▸ hops.2 _ rfl)
    exact ⟨t', runSteps_cons.mpr ⟨t₁, heq, hrun⟩, hrep'⟩

/-- From an empty hash every sequence of operations within the rules runs to its end, and a lookup
then ends with the index that was inserted for the object and not deleted, or with nothing. -/
theorem localLookup_eq_live (t : HashTable) (hempty : ∀ h < t.size, t.ie_index h = 0)
    (ops : List HashOp)
    (hops : StepsMeet (fun live op => some (effect live op)) (Allowed t.size) (fun _ => none) ops) :
    ∃ t', runSteps HashTable.apply t ops = some t' ∧
      ∀ obj, t'.localLookup obj = some (ops.foldl effect (fun _ => none) obj) := by
  obtain ⟨t', hrun, hrep⟩ := (Represents.empty hempty).run hops
  exact ⟨t', hrun, fun _ => hrep.lookup⟩

theorem four_pos : 0 < 4 := by decide

def emptyFour : HashTable := ⟨4, four_pos, fun _ => 0, fun _ => 0⟩

def collidingOps : List HashOp := [.insert 192 1, .insert 448 2, .insert 704 3, .delete 192 1]

theorem localLookup_colliding :
    StepsMeet (fun live op => some (effect live op)) (Allowed emptyFour.size) (fun _ => none)
        collidingOps ∧
      ∃ t', runSteps HashTable.apply emptyFour collidingOps = some t' ∧
        ∀ obj, t'.localLookup obj = some (collidingOps.foldl effect (fun _ => none) obj) := by
  have hops : StepsMeet (fun live op => some (effect live op)) (Allowed emptyFour.size)
      (fun _ => none) collidingOps := by
    simp [collidingOps, StepsMeet, Allowed, effect, emptyFour, Function.update_apply]
    grind
  exact ⟨hops, localLookup_eq_live emptyFour (fun _ _ => rfl) collidingOps hops⟩

example : (runSteps HashTable.apply emptyFour collidingOps).bind (·.localLookup 704) =
    some (some 3) := by decide

end HashTable

end Uros.Ipc
