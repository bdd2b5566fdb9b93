import Mathlib.Algebra.Ring.Nat
import Mathlib.Data.Finset.Card
import Mathlib.Data.Fintype.Basic
import Mathlib.Data.List.FinRange
import Mathlib.Data.List.Sort
import Mathlib.Logic.Function.Basic
import Uros.Foundation.Places
import Uros.Foundation.Transition

/-!
The radix tree of a space (`ipc_radix.c`): the entries whose index does not fit in the table.

Four levels of nodes with 64 slots each cover the indices of 24 bits.  A node is told from another
by its address, so that the nodes taken from the caller's supply and the nodes given back to the
zone can be named.
-/

namespace Uros.Ipc.Radix

open Uros.Foundation
open scoped List

structure Node (α : Type*) where
  addr : ℕ
  slots : Fin 64 → Option α
  count : ℕ

def Tree (E : Type) : ℕ → Type
  | 0 => E
  | l + 1 => Node (Tree E l)

structure RadixTree (E : Type) where
  irt_root : Option (Tree E 4)
  irt_count : ℕ

variable {E : Type} {l : ℕ}

theorem slot_lt (index lvl : ℕ) : index >>> (lvl * 6) &&& 63 < 64 :=
  Nat.and_lt_two_pow (n := 6) _ (by decide)

def irtSlot (index lvl : ℕ) : Fin 64 := ⟨index >>> (lvl * 6) &&& 63, slot_lt index lvl⟩

def fresh (addr : ℕ) : Tree E (l + 1) := ⟨addr, fun _ => none, 0⟩

def find (index : ℕ) : (l : ℕ) → Option (Tree E l) → Option E
  | 0, entry => entry
  | _ + 1, none => none
  | l + 1, some node => find index l (node.slots (irtSlot index l))

def Node.link {α : Type*} (node : Node α) (slot : Fin 64) (child : α) : Node α :=
  { node with
    slots := Function.update node.slots slot (some child)
    count := if (node.slots slot).isNone then node.count + 1 else node.count }

def Node.unlink {α : Type*} (node : Node α) (slot : Fin 64) : Node α :=
  { node with slots := Function.update node.slots slot none, count := node.count - 1 }

def setSlot (node : Tree E (l + 1)) (slot : Fin 64) (x : Option (Tree E l)) : Tree E (l + 1) :=
  { (node : Node (Tree E l)) with slots := Function.update (Node.slots node) slot x }

/-- The descent of `ipc_radix_insert`, with the supply that is left.  `none` is a failed assertion:
the supply is used up, or the index is present. -/
def insertAt (index : ℕ) (entry : E) :
    (l : ℕ) → Option (Tree E l) → List ℕ → Option (Tree E l × List ℕ)
  | 0, none, supply => some (entry, supply)
  | 0, some _, _ => none
  | _ + 1, none, [] => none
  | l + 1, none, addr :: supply =>
    (insertAt index entry l none supply).map fun (child, supply') =>
      ((fresh addr : Node (Tree E l)).link (irtSlot index l) child, supply')
  | l + 1, some node, supply =>
    (insertAt index entry l (node.slots (irtSlot index l)) supply).map fun (child, supply') =>
      (Node.link node (irtSlot index l) child, supply')

/-- `ipc_radix_delete` below a slot: the entry, what the slot holds afterwards and the nodes that
are freed on the way back, from the leaf on. -/
def deleteAt (index : ℕ) : (l : ℕ) → Tree E l → Option (E × Option (Tree E l) × List ℕ)
  | 0, entry => some (entry, none, [])
  | l + 1, node =>
    (Node.slots node (irtSlot index l)).bind fun child =>
      (deleteAt index l child).map fun
        | (entry, some child', freed) =>
          -- the node below is kept, and the pruning ends
          (entry, some (setSlot node (irtSlot index l) (some child')), freed)
        | (entry, none, freed) =>
          if (Node.unlink node (irtSlot index l)).count = 0 then
            (entry, none, freed ++ [Node.addr node])
          else (entry, some (Node.unlink node (irtSlot index l)), freed)

def iterateNode : (l : ℕ) → ℕ → Tree E l → List (ℕ × E)
  | 0, index, entry => [(index, entry)]
  | l + 1, top, node =>
    (List.finRange 64).flatMap fun s =>
      match Node.slots node s with
      | none => []
      | some child => iterateNode l (top ||| (s.val <<< (l * 6))) child

namespace RadixTree

def init : RadixTree E := ⟨none, 0⟩

def lookup (t : RadixTree E) (index : ℕ) : Option E := find index 4 t.irt_root

def insert (t : RadixTree E) (index : ℕ) (entry : E) (supply : List ℕ) :
    Option (RadixTree E × List ℕ) :=
  (insertAt index entry 4 t.irt_root supply).map fun (root, supply') =>
    (⟨some root, t.irt_count + 1⟩, supply')

def delete (t : RadixTree E) (index : ℕ) : Option E × RadixTree E × List ℕ :=
  match t.irt_root.bind (deleteAt index 4) with
  | none => (none, t, [])
  | some (entry, none, freed) => (some entry, ⟨none, t.irt_count - 1⟩, freed)
  | some (entry, some root, freed) =>
    if Node.count root = 0 then
      (some entry, ⟨none, t.irt_count - 1⟩, freed ++ [Node.addr root])
    else (some entry, ⟨some root, t.irt_count - 1⟩, freed)

def iterate (t : RadixTree E) : List (ℕ × E) :=
  match t.irt_root with
  | none => []
  | some root => iterateNode 4 0 root

end RadixTree

/-! ### Indices by their slots -/

theorem irtSlot_val (index lvl : ℕ) : (irtSlot index lvl).val = index / 2 ^ (lvl * 6) % 64 := by
  simp only [irtSlot, Nat.shiftRight_eq_div_pow]
  exact Nat.and_two_pow_sub_one_eq_mod _ 6

theorem two_pow_succ_mul (l : ℕ) : 2 ^ ((l + 1) * 6) = 2 ^ (l * 6) * 64 := by
  rw [Nat.add_mul, Nat.pow_add]

theorem low_succ {i j : ℕ} :
    i % 2 ^ ((l + 1) * 6) = j % 2 ^ ((l + 1) * 6) ↔
      irtSlot i l = irtSlot j l ∧ i % 2 ^ (l * 6) = j % 2 ^ (l * 6) := by
  have hpos : 0 < 2 ^ (l * 6) := Nat.two_pow_pos _
  rw [two_pow_succ_mul, Nat.mod_mul, Nat.mod_mul, Fin.ext_iff, irtSlot_val, irtSlot_val]
  constructor
  · intro heq
    have hlow : i % 2 ^ (l * 6) = j % 2 ^ (l * 6) := by
      have := congrArg (· % 2 ^ (l * 6)) heq
      simpa using this
    rw [hlow] at heq
    exact ⟨Nat.eq_of_mul_eq_mul_left hpos (Nat.add_left_cancel heq), hlow⟩
  · rintro ⟨hslot, hlow⟩
    rw [hslot, hlow]

theorem find_congr {i j : ℕ} (hlow : i % 2 ^ (l * 6) = j % 2 ^ (l * 6)) (x : Option (Tree E l)) :
    find i l x = find j l x := by
  induction l with
  | zero => rfl
  | succ l ih =>
    obtain ⟨hslot, hrest⟩ := low_succ.mp hlow
    cases x with
    | none => rfl
    | some node => simp only [find, hslot, ih hrest]

/-! ### The structure of a tree -/

def used {α : Type*} (slots : Fin 64 → Option α) : Finset (Fin 64) :=
  Finset.univ.filter fun s => (slots s).isSome

/-- Every node has as many slots in use as it counts, and at least one. -/
def WellFormed : (l : ℕ) → Tree E l → Prop
  | 0, _ => True
  | l + 1, node =>
    Node.count node = (used (Node.slots node)).card ∧ 0 < Node.count node ∧
      ∀ s child, Node.slots node s = some child → WellFormed l child

def collect {α β : Type*} (f : α → List β) (slots : Fin 64 → Option α) : List β :=
  (List.finRange 64).flatMap fun s => ((slots s).map f).getD []

def nodes : (l : ℕ) → Tree E l → List ℕ
  | 0, _ => []
  | l + 1, node => Node.addr node :: collect (nodes l) (Node.slots node)

def nodesBelow (l : ℕ) (x : Option (Tree E l)) : List ℕ := (x.map (nodes l)).getD []

@[simp] theorem nodesBelow_none : nodesBelow l (none : Option (Tree E l)) = [] := rfl

@[simp] theorem nodesBelow_some {t : Tree E l} : nodesBelow l (some t) = nodes l t := rfl

section Collect

variable {α β : Type*} {f : α → List β} {slots : Fin 64 → Option α} {s : Fin 64}

theorem mem_used : s ∈ used slots ↔ (slots s).isSome := by simp [used]

theorem used_update_some {child : α} :
    used (Function.update slots s (some child)) = insert s (used slots) := by
  ext r
  by_cases hr : r = s <;> simp [mem_used, hr]

theorem used_update_none :
    used (Function.update slots s none) = (used slots).erase s := by
  ext r
  by_cases hr : r = s <;> simp [mem_used, hr]

theorem mem_collect {b : β} :
    b ∈ collect f slots ↔ ∃ s child, slots s = some child ∧ b ∈ f child := by
  simp only [collect, List.mem_flatMap, List.mem_finRange, true_and]
  refine exists_congr fun s => ?_
  cases slots s <;> simp

theorem collect_update {x : Option α} {extra : List β}
    (hx : ((x.map f).getD []).Perm (extra ++ ((slots s).map f).getD [])) :
    (collect f (Function.update slots s x)).Perm (extra ++ collect f slots) := by
  obtain ⟨rest, hrest⟩ := flatMap_update_perm (List.nodup_finRange 64) (List.mem_finRange s)
    fun r => ((slots r).map f).getD []
  have hnew : collect f (Function.update slots s x) =
      (List.finRange 64).flatMap
        (Function.update (fun r => ((slots r).map f).getD []) s ((x.map f).getD [])) := by
    refine List.flatMap_congr fun r _ => ?_
    by_cases hr : r = s
    · rw [hr, Function.update_self, Function.update_self]
    · rw [Function.update_of_ne hr, Function.update_of_ne hr]
  have hold : (collect f slots).Perm (((slots s).map f).getD [] ++ rest) := by
    have := hrest (((slots s).map f).getD [])
    rwa [Function.update_eq_self] at this
  calc collect f (Function.update slots s x)
    _ ~ (x.map f).getD [] ++ rest := hnew ▸ hrest _
    _ ~ (extra ++ ((slots s).map f).getD []) ++ rest := hx.append_right _
    _ ~ extra ++ collect f slots := by
      rw [List.append_assoc]
      exact (hold.append_left _).symm

end Collect

theorem iterateNode_succ (top : ℕ) (node : Tree E (l + 1)) :
    iterateNode (l + 1) top node =
      (List.finRange 64).flatMap fun s =>
        ((Node.slots node s).map (iterateNode l (top ||| (s.val <<< (l * 6))))).getD [] := by
  refine List.flatMap_congr fun s _ => ?_
  cases Node.slots node s <;> rfl

/-! ### Insertion -/

structure Counted (node : Node (Tree E l)) : Prop where
  count_eq : node.count = (used node.slots).card
  children : ∀ s child, node.slots s = some child → WellFormed l child

theorem Counted.fresh (addr : ℕ) : Counted (fresh addr : Node (Tree E l)) :=
  ⟨by simp [Radix.fresh, used], fun s child h => by simp [Radix.fresh] at h⟩

theorem WellFormed.counted {node : Tree E (l + 1)} (h : WellFormed (l + 1) node) :
    Counted (node : Node (Tree E l)) := ⟨h.1, h.2.2⟩

theorem Counted.link {node : Node (Tree E l)} {s : Fin 64} {child : Tree E l}
    (h : Counted node) (hchild : WellFormed l child) :
    WellFormed (l + 1) (node.link s child) := by
  have hcount : (node.link s child).count = (used (node.link s child).slots).card := by
    simp only [Node.link, used_update_some]
    cases hs : node.slots s with
    | none =>
      rw [Finset.card_insert_of_notMem (by simp [mem_used, hs]), h.count_eq]
      rfl
    | some old =>
      rw [Finset.insert_eq_of_mem (by simp [mem_used, hs]), h.count_eq]
      rfl
  refine ⟨hcount, ?_, fun r c hr => ?_⟩
  · rw [hcount]
    exact Finset.card_pos.mpr ⟨s, by simp [mem_used, Node.link]⟩
  · by_cases hrs : r = s
    · simp only [Node.link, hrs, Function.update_self, Option.some.injEq] at hr
      exact hr ▸ hchild
    · simp only [Node.link, Function.update_of_ne hrs] at hr
      exact h.children r c hr

structure Inserted (index : ℕ) (entry : E) (l : ℕ) (x : Option (Tree E l)) (supply : List ℕ)
    (t : Tree E l) (supply' : List ℕ) : Prop where
  wellFormed : WellFormed l t
  find_eq : ∀ i, find i l (some t) =
    if i % 2 ^ (l * 6) = index % 2 ^ (l * 6) then some entry else find i l x
  taken : ∃ taken, supply = taken ++ supply' ∧ taken.length ≤ l ∧
    (nodes l t).Perm (taken ++ nodesBelow l x)

variable {index : ℕ} {entry : E} {supply supply' : List ℕ}

theorem Inserted.link {node : Node (Tree E l)} {child : Tree E l} (hnode : Counted node)
    (h : Inserted index entry l (node.slots (irtSlot index l)) supply child supply') :
    WellFormed (l + 1) (node.link (irtSlot index l) child) ∧
      (∀ i, find i (l + 1) (some (node.link (irtSlot index l) child)) =
        if i % 2 ^ ((l + 1) * 6) = index % 2 ^ ((l + 1) * 6) then some entry
        else find i l (node.slots (irtSlot i l))) ∧
      ∃ taken, supply = taken ++ supply' ∧ taken.length ≤ l ∧
        (nodes (l + 1) (node.link (irtSlot index l) child)).Perm
          (node.addr :: (taken ++ collect (nodes l) node.slots)) := by
  refine ⟨hnode.link h.wellFormed, fun i => ?_, ?_⟩
  · by_cases hslot : irtSlot i l = irtSlot index l
    · simp only [find, Node.link, hslot, Function.update_self, h.find_eq, low_succ, true_and]
    · have hnot : ¬ i % 2 ^ ((l + 1) * 6) = index % 2 ^ ((l + 1) * 6) := fun heq =>
        hslot (low_succ.mp heq).1
      simp only [find, Node.link, Function.update_of_ne hslot, if_neg hnot]
  · obtain ⟨taken, hsup, hlen, hperm⟩ := h.taken
    exact ⟨taken, hsup, hlen, (collect_update (x := some child) (f := nodes l) hperm).cons _⟩

theorem find_none (i : ℕ) : find i l (none : Option (Tree E l)) = none := by cases l <;> rfl

theorem insertAt_inserted {x : Option (Tree E l)} {t : Tree E l} (hx : ∀ t ∈ x, WellFormed l t)
    (h : insertAt index entry l x supply = some (t, supply')) :
    find index l x = none ∧ Inserted index entry l x supply t supply' := by
  induction l generalizing supply with
  | zero =>
    cases x with
    | some e => cases h
    | none =>
      obtain ⟨rfl, rfl⟩ := Prod.mk.inj (Option.some.inj h)
      refine ⟨rfl, trivial, fun i => ?_, [], rfl, le_rfl, .refl _⟩
      rw [Nat.zero_mul, Nat.pow_zero, Nat.mod_one, Nat.mod_one, if_pos rfl]
      rfl
  | succ l ih =>
    cases x with
    | none =>
      cases supply with
      | nil => cases h
      | cons addr supply =>
        obtain ⟨⟨child, rest⟩, heq, hres⟩ := Option.map_eq_some_iff.mp h
        obtain ⟨rfl, rfl⟩ := Prod.mk.inj hres
        have hins := (ih (fun _ hnone => absurd hnone (Option.not_mem_none _)) heq).2
        obtain ⟨hwf, hfind, taken, hsup, hlen, hperm⟩ := Inserted.link (.fresh addr) hins
        refine ⟨rfl, hwf, fun i => ?_, addr :: taken, by rw [hsup, List.cons_append],
          by simpa using hlen, ?_⟩
        · rw [hfind]
          exact congrArg _ (find_none i)
        · have hempty : collect (nodes l) (fresh addr : Node (Tree E l)).slots = [] := by
            simp [collect, Radix.fresh]
          rw [hempty, List.append_nil] at hperm
          rw [nodesBelow_none, List.append_nil]
          exact hperm
    | some node =>
      obtain ⟨⟨child, rest⟩, heq, hres⟩ := Option.map_eq_some_iff.mp h
      obtain ⟨rfl, rfl⟩ := Prod.mk.inj hres
      have hwf := hx node rfl
      obtain ⟨habsent, hins⟩ := ih (fun t ht => hwf.2.2 _ t ht) heq
      obtain ⟨hwf', hfind, taken, hsup, hlen, hperm⟩ := Inserted.link hwf.counted hins
      exact ⟨habsent, hwf', hfind, taken, hsup, by omega, hperm.trans List.perm_middle.symm⟩

theorem insertAt_isSome {x : Option (Tree E l)} (habsent : find index l x = none)
    (hsupply : l ≤ supply.length) : (insertAt index entry l x supply).isSome := by
  induction l generalizing supply with
  | zero =>
    cases x with
    | some e => cases habsent
    | none => rfl
  | succ l ih =>
    cases x with
    | none =>
      cases supply with
      | nil => simp at hsupply
      | cons addr supply =>
        simp only [insertAt, Option.isSome_map]
        exact ih (find_none index) (by simpa using hsupply)
    | some node =>
      simp only [insertAt, Option.isSome_map]
      exact ih habsent (by omega)

/-! ### Deletion -/

def clearAt (index : ℕ) : (l : ℕ) → Tree E l → Option (Tree E l)
  | 0, _ => none
  | l + 1, node =>
    some (setSlot node (irtSlot index l)
      ((Node.slots node (irtSlot index l)).bind (clearAt index l)))

def vacant : (l : ℕ) → Tree E l → Bool
  | 0, _ => false
  | l + 1, node => (List.finRange 64).all fun s => ((Node.slots node s).map (vacant l)).getD true

def emptied : (l : ℕ) → Tree E l → List ℕ
  | 0, _ => []
  | l + 1, node =>
    collect (emptied l) (Node.slots node) ++ if vacant (l + 1) node then [Node.addr node] else []

theorem vacant_succ {node : Tree E (l + 1)} :
    vacant (l + 1) node = true ↔ ∀ s child, Node.slots node s = some child → vacant l child := by
  simp only [vacant, List.all_eq_true, List.mem_finRange, true_implies]
  refine forall_congr' fun s => ?_
  cases Node.slots node s <;> simp

theorem WellFormed.exists_child {node : Tree E (l + 1)} (h : WellFormed (l + 1) node) :
    ∃ s child, Node.slots node s = some child := by
  have hpos := h.2.1
  rw [h.1] at hpos
  obtain ⟨s, hs⟩ := Finset.card_pos.mp hpos
  exact ⟨s, Option.isSome_iff_exists.mp (mem_used.mp hs)⟩

theorem WellFormed.not_vacant {t : Tree E l} (h : WellFormed l t) : vacant l t = false := by
  induction l with
  | zero => rfl
  | succ l ih =>
    obtain ⟨s, child, hs⟩ := h.exists_child
    refine Bool.eq_false_iff.mpr fun hv => ?_
    have := vacant_succ.mp hv s child hs
    rw [ih (h.2.2 s child hs)] at this
    cases this

theorem WellFormed.emptied {t : Tree E l} (h : WellFormed l t) : emptied l t = [] := by
  induction l with
  | zero => rfl
  | succ l ih =>
    have hnone : collect (Radix.emptied l) (Node.slots t) = [] := by
      refine List.eq_nil_iff_forall_not_mem.mpr fun addr haddr => ?_
      obtain ⟨s, child, hs, hmem⟩ := mem_collect.mp haddr
      rw [ih (h.2.2 s child hs)] at hmem
      cases hmem
    rw [Radix.emptied, hnone, h.not_vacant]
    rfl

structure Deleted (index l : ℕ) (t : Tree E l) (x : Option (Tree E l)) (freed : List ℕ) : Prop where
  wellFormed : ∀ t' ∈ x, WellFormed l t'
  find_eq : ∀ i, find i l x =
    if i % 2 ^ (l * 6) = index % 2 ^ (l * 6) then none else find i l (some t)
  perm : (nodes l t).Perm (freed ++ nodesBelow l x)
  freed_perm : freed.Perm (((clearAt index l t).map (emptied l)).getD [])
  gone_iff : x = none ↔ ∀ c ∈ clearAt index l t, vacant l c = true

section Step

variable {node : Tree E (l + 1)} {child : Tree E l} {x : Option (Tree E l)} {freed : List ℕ}

theorem slots_setSlot {s : Fin 64} :
    Node.slots (setSlot node s x) = Function.update (Node.slots node) s x := rfl

theorem clearAt_succ (hs : Node.slots node (irtSlot index l) = some child) :
    clearAt index (l + 1) node =
      some (setSlot node (irtSlot index l) (clearAt index l child)) := by
  rw [clearAt, hs, Option.bind_some]

theorem Deleted.find_slot (h : Deleted index l child x freed)
    (hs : Node.slots node (irtSlot index l) = some child) (i : ℕ) :
    find i l (Function.update (Node.slots node) (irtSlot index l) x (irtSlot i l)) =
      if i % 2 ^ ((l + 1) * 6) = index % 2 ^ ((l + 1) * 6) then none
      else find i (l + 1) (some node) := by
  by_cases hslot : irtSlot i l = irtSlot index l
  · simp only [hslot, Function.update_self, h.find_eq, low_succ, true_and, find, hs]
  · have hnot : ¬ i % 2 ^ ((l + 1) * 6) = index % 2 ^ ((l + 1) * 6) := fun heq =>
      hslot (low_succ.mp heq).1
    simp only [Function.update_of_ne hslot, if_neg hnot, find]

theorem Deleted.collect_nodes (h : Deleted index l child x freed)
    (hs : Node.slots node (irtSlot index l) = some child) :
    (collect (nodes l) (Node.slots node)).Perm
      (freed ++ collect (nodes l) (Function.update (Node.slots node) (irtSlot index l) x)) := by
  have hback : Node.slots node =
      Function.update (Function.update (Node.slots node) (irtSlot index l) x) (irtSlot index l)
        (some child) := by
    rw [Function.update_idem, ← hs, Function.update_eq_self]
  conv_lhs => rw [hback]
  refine collect_update ?_
  rw [Function.update_self]
  exact h.perm

theorem Deleted.collect_emptied (h : Deleted index l child x freed)
    (hwf : WellFormed (l + 1) node) (hs : Node.slots node (irtSlot index l) = some child) :
    (collect (emptied l) (Function.update (Node.slots node) (irtSlot index l)
      (clearAt index l child))).Perm freed := by
  have hnone : collect (emptied l) (Node.slots node) = [] := by
    have := hwf.emptied
    rw [emptied, List.append_eq_nil_iff] at this
    exact this.1
  have hperm : (((clearAt index l child).map (emptied l)).getD []).Perm
      (freed ++ ((Node.slots node (irtSlot index l)).map (emptied l)).getD []) := by
    rw [hs, Option.map_some, Option.getD_some, (hwf.2.2 _ _ hs).emptied, List.append_nil]
    exact h.freed_perm.symm
  simpa [hnone] using collect_update hperm

theorem Deleted.vacant_iff (h : Deleted index l child x freed) (hwf : WellFormed (l + 1) node)
    (hs : Node.slots node (irtSlot index l) = some child) :
    (∀ c ∈ clearAt index (l + 1) node, vacant (l + 1) c = true) ↔
      x = none ∧ Node.count node - 1 = 0 := by
  have hmem : irtSlot index l ∈ used (Node.slots node) := by simp [mem_used, hs]
  have hone : Node.count node - 1 = 0 ↔ used (Node.slots node) = {irtSlot index l} := by
    rw [hwf.1]
    constructor
    · intro hcard
      have hpos := Finset.card_pos.mpr ⟨_, hmem⟩
      obtain ⟨s, hs'⟩ := Finset.card_eq_one.mp (by omega : (used (Node.slots node)).card = 1)
      rw [hs', Finset.mem_singleton] at hmem
      rw [hs', hmem]
    · intro heq
      rw [heq, Finset.card_singleton]
  rw [hone, h.gone_iff]
  simp only [clearAt_succ hs, Option.mem_def, Option.some.injEq, forall_eq', vacant_succ,
    slots_setSlot]
  constructor
  · intro hall
    refine ⟨fun c hc => hall _ c (by rw [Function.update_self, hc]), ?_⟩
    refine Finset.eq_singleton_iff_unique_mem.mpr ⟨hmem, fun r hr => ?_⟩
    by_contra hne
    obtain ⟨c, hc⟩ := Option.isSome_iff_exists.mp (mem_used.mp hr)
    have hv := hall r c (by rw [Function.update_of_ne hne, hc])
    rw [(hwf.2.2 r c hc).not_vacant] at hv
    cases hv
  · rintro ⟨hc, hsingle⟩ r c hr
    by_cases hrs : r = irtSlot index l
    · rw [hrs, Function.update_self] at hr
      exact hc c hr
    · rw [Function.update_of_ne hrs] at hr
      have hin : r ∈ used (Node.slots node) := by simp [mem_used, hr]
      rw [hsingle, Finset.mem_singleton] at hin
      exact absurd hin hrs

theorem Deleted.emptied_clear (h : Deleted index l child x freed) (hwf : WellFormed (l + 1) node)
    (hs : Node.slots node (irtSlot index l) = some child) :
    (((clearAt index (l + 1) node).map (emptied (l + 1))).getD []).Perm
      (freed ++ if x = none ∧ Node.count node - 1 = 0 then [Node.addr node] else []) := by
  have hvac := h.vacant_iff hwf hs
  simp only [clearAt_succ hs, Option.mem_def, Option.some.injEq, forall_eq'] at hvac
  simp only [clearAt_succ hs, Option.map_some, Option.getD_some, emptied, hvac]
  exact (h.collect_emptied hwf hs).append_right _

theorem Deleted.keep {child' : Tree E l} (h : Deleted index l child (some child') freed)
    (hwf : WellFormed (l + 1) node) (hs : Node.slots node (irtSlot index l) = some child) :
    Deleted index (l + 1) node (some (setSlot node (irtSlot index l) (some child'))) freed := by
  have hnot : ¬ ∀ c ∈ clearAt index (l + 1) node, vacant (l + 1) c = true := fun hall => by
    have := ((h.vacant_iff hwf hs).mp hall).1
    cases this
  refine ⟨?_, h.find_slot hs, (h.collect_nodes hs).cons _ |>.trans List.perm_middle.symm, ?_, ?_⟩
  · rintro t' ht'
    obtain rfl := Option.some.inj ht'
    refine ⟨?_, hwf.2.1, fun r c hr => ?_⟩
    · rw [slots_setSlot, used_update_some, Finset.insert_eq_of_mem (by simp [mem_used, hs])]
      exact hwf.1
    · rw [slots_setSlot] at hr
      by_cases hrs : r = irtSlot index l
      · rw [hrs, Function.update_self, Option.some.injEq] at hr
        exact hr ▸ h.wellFormed child' rfl
      · rw [Function.update_of_ne hrs] at hr
        exact hwf.2.2 r c hr
  · simpa using (h.emptied_clear hwf hs).symm
  · exact ⟨fun hnone => absurd hnone (Option.some_ne_none _), fun hall => absurd hall hnot⟩

theorem Deleted.prune (h : Deleted index l child none freed) (hwf : WellFormed (l + 1) node)
    (hs : Node.slots node (irtSlot index l) = some child) :
    if (Node.unlink node (irtSlot index l)).count = 0 then
      Deleted index (l + 1) node none (freed ++ [Node.addr node])
    else Deleted index (l + 1) node (some (Node.unlink node (irtSlot index l))) freed := by
  have hclear := (h.emptied_clear hwf hs).symm
  have hvac := h.vacant_iff hwf hs
  have hmem : irtSlot index l ∈ used (Node.slots node) := by simp [mem_used, hs]
  have hcount : (Node.unlink node (irtSlot index l)).count =
      (used (Function.update (Node.slots node) (irtSlot index l) none)).card := by
    rw [used_update_none, Finset.card_erase_of_mem hmem, ← hwf.1]
    rfl
  split_ifs with h0
  · have hall := hvac.mpr ⟨rfl, h0⟩
    have hunused : ∀ r, Function.update (Node.slots node) (irtSlot index l) none r = none := by
      intro r
      rw [hcount, Finset.card_eq_zero] at h0
      by_contra hne
      have hr : r ∈ used (Function.update (Node.slots node) (irtSlot index l) none) :=
        mem_used.mpr (Option.isSome_iff_ne_none.mpr hne)
      rw [h0] at hr
      exact Finset.notMem_empty r hr
    refine ⟨fun _ hnone => absurd hnone (Option.not_mem_none _), fun i => ?_, ?_, ?_, ?_⟩
    · have := h.find_slot hs i
      rw [hunused] at this
      rw [← this, find_none, find_none]
    · have hnone : collect (nodes l)
          (Function.update (Node.slots node) (irtSlot index l) none) = [] := by
        simp [collect, hunused]
      have hperm := (h.collect_nodes hs).cons (Node.addr node)
      rw [hnone, List.append_nil] at hperm
      rw [nodesBelow_none, List.append_nil]
      exact hperm.trans (List.perm_append_singleton _ _).symm
    · rwa [if_pos ⟨rfl, h0⟩] at hclear
    · exact ⟨fun _ => hall, fun _ => rfl⟩
  · have hnot : ¬ ∀ c ∈ clearAt index (l + 1) node, vacant (l + 1) c = true := fun hall =>
      h0 (hvac.mp hall).2
    refine ⟨?_, h.find_slot hs, (h.collect_nodes hs).cons _ |>.trans List.perm_middle.symm, ?_, ?_⟩
    · rintro t' ht'
      obtain rfl := Option.some.inj ht'
      refine ⟨hcount, Nat.pos_of_ne_zero h0, fun r c hr => ?_⟩
      by_cases hrs : r = irtSlot index l
      · simp only [Node.unlink, hrs, Function.update_self, reduceCtorEq] at hr
      · simp only [Node.unlink, Function.update_of_ne hrs] at hr
        exact hwf.2.2 r c hr
    · rwa [if_neg fun hboth => h0 hboth.2, List.append_nil] at hclear
    · exact ⟨fun hnone => absurd hnone (Option.some_ne_none _), fun hall => absurd hall hnot⟩

end Step

theorem deleteAt_deleted {t : Tree E l} (hwf : WellFormed l t)
    (hfound : find index l (some t) = some entry) :
    ∃ x freed, deleteAt index l t = some (entry, x, freed) ∧ Deleted index l t x freed := by
  induction l with
  | zero =>
    obtain rfl := Option.some.inj hfound
    refine ⟨none, [], rfl, fun _ hnone => absurd hnone (Option.not_mem_none _), fun i => ?_,
      .refl _, .refl _, ?_⟩
    · rw [Nat.zero_mul, Nat.pow_zero, Nat.mod_one, Nat.mod_one, if_pos rfl]
      rfl
    · simp [clearAt]
  | succ l ih =>
    cases hs : Node.slots t (irtSlot index l) with
    | none =>
      rw [find, hs, find_none] at hfound
      cases hfound
    | some child =>
      rw [find, hs] at hfound
      obtain ⟨x, freed, heq, hdel⟩ := ih (hwf.2.2 _ _ hs) hfound
      cases x with
      | some child' =>
        exact ⟨_, freed, by simp only [deleteAt, hs, Option.bind_some, heq, Option.map_some],
          hdel.keep hwf hs⟩
      | none =>
        have hprune := hdel.prune hwf hs
        split_ifs at hprune with h0
        · exact ⟨none, _, by simp only [deleteAt, hs, Option.bind_some, heq, Option.map_some,
            if_pos h0], hprune⟩
        · exact ⟨_, freed, by simp only [deleteAt, hs, Option.bind_some, heq, Option.map_some,
            if_neg h0], hprune⟩

theorem deleteAt_absent {t : Tree E l} (habsent : find index l (some t) = none) :
    deleteAt index l t = none := by
  induction l with
  | zero => cases habsent
  | succ l ih =>
    cases hs : Node.slots t (irtSlot index l) with
    | none => simp only [deleteAt, hs, Option.bind_none]
    | some child =>
      rw [find, hs] at habsent
      simp only [deleteAt, hs, Option.bind_some, ih habsent, Option.map_none]

/-! ### Iteration -/

theorem or_slot {top : ℕ} (htop : 2 ^ ((l + 1) * 6) ∣ top) (s : Fin 64) :
    top ||| (s.val <<< (l * 6)) = top + s.val * 2 ^ (l * 6) := by
  obtain ⟨a, rfl⟩ := htop
  rw [Nat.shiftLeft_eq]
  refine (Nat.two_pow_add_eq_or_of_lt ?_ a).symm
  rw [two_pow_succ_mul, Nat.mul_comm]
  exact Nat.mul_lt_mul_of_pos_left s.isLt (Nat.two_pow_pos _)

theorem dvd_slot {top : ℕ} (htop : 2 ^ ((l + 1) * 6) ∣ top) (s : Fin 64) :
    2 ^ (l * 6) ∣ top + s.val * 2 ^ (l * 6) :=
  Nat.dvd_add (Nat.dvd_trans (two_pow_succ_mul l ▸ Nat.dvd_mul_right _ _) htop)
    (Nat.dvd_mul_left _ _)

theorem mem_iterateNode {top i : ℕ} {t : Tree E l} (htop : 2 ^ (l * 6) ∣ top) :
    (i, entry) ∈ iterateNode l top t ↔
      ∃ j < 2 ^ (l * 6), i = top + j ∧ find j l (some t) = some entry := by
  induction l generalizing top with
  | zero =>
    constructor
    · intro h
      obtain ⟨rfl, rfl⟩ := Prod.mk.inj (List.mem_singleton.mp h)
      exact ⟨0, Nat.one_pos, rfl, rfl⟩
    · rintro ⟨j, hj, rfl, hfind⟩
      obtain rfl := Option.some.inj hfind
      obtain rfl : j = 0 := Nat.lt_one_iff.mp hj
      exact List.mem_singleton.mpr rfl
  | succ l ih =>
    have hpos : 0 < 2 ^ (l * 6) := Nat.two_pow_pos _
    rw [iterateNode_succ, List.mem_flatMap]
    constructor
    · rintro ⟨s, -, hmem⟩
      cases hs : Node.slots t s with
      | none => simp [hs] at hmem
      | some child =>
        rw [hs, Option.map_some, Option.getD_some, or_slot htop s, ih (dvd_slot htop s)] at hmem
        obtain ⟨j, hj, rfl, hfind⟩ := hmem
        have hslot : irtSlot (s.val * 2 ^ (l * 6) + j) l = s := by
          rw [Fin.ext_iff, irtSlot_val, Nat.mul_comm, Nat.mul_add_div hpos, Nat.div_eq_of_lt hj,
            Nat.add_zero, Nat.mod_eq_of_lt s.isLt]
        refine ⟨s.val * 2 ^ (l * 6) + j, ?_, by omega, ?_⟩
        · rw [two_pow_succ_mul]
          have := Nat.mul_le_mul_right (2 ^ (l * 6)) (Nat.le_sub_one_of_lt s.isLt)
          omega
        · rw [find, hslot, hs, ← hfind]
          exact find_congr (by rw [Nat.mul_add_mod_self_right]) _
    · rintro ⟨j, hj, rfl, hfind⟩
      rw [find] at hfind
      cases hs : Node.slots t (irtSlot j l) with
      | none =>
        rw [hs, find_none] at hfind
        cases hfind
      | some child =>
        rw [hs] at hfind
        refine ⟨irtSlot j l, List.mem_finRange _, ?_⟩
        rw [hs, Option.map_some, Option.getD_some, or_slot htop, ih (dvd_slot htop _)]
        refine ⟨j % 2 ^ (l * 6), Nat.mod_lt _ hpos, ?_, ?_⟩
        · have hdiv : j / 2 ^ (l * 6) < 64 := by
            rw [two_pow_succ_mul] at hj
            exact Nat.div_lt_of_lt_mul hj
          have := Nat.div_add_mod' j (2 ^ (l * 6))
          rw [irtSlot_val, Nat.mod_eq_of_lt hdiv]
          omega
        · rw [← hfind]
          exact find_congr (Nat.mod_mod _ _) _

theorem sorted_iterateNode {top : ℕ} {t : Tree E l} (htop : 2 ^ (l * 6) ∣ top) :
    (iterateNode l top t).Pairwise fun a b => a.1 < b.1 := by
  induction l generalizing top with
  | zero => exact List.pairwise_singleton _ _
  | succ l ih =>
    rw [iterateNode_succ, List.pairwise_flatMap]
    constructor
    · intro s _
      cases Node.slots t s with
      | none => exact List.Pairwise.nil
      | some child =>
        rw [or_slot htop s]
        exact ih (dvd_slot htop s)
    · refine (List.pairwise_lt_finRange 64).imp fun {s r} hsr a ha b hb => ?_
      cases hs : Node.slots t s with
      | none => simp [hs] at ha
      | some child =>
        cases hr : Node.slots t r with
        | none => simp [hr] at hb
        | some child' =>
          rw [hs, Option.map_some, Option.getD_some, or_slot htop s] at ha
          rw [hr, Option.map_some, Option.getD_some, or_slot htop r] at hb
          obtain ⟨j, hj, hai, -⟩ := (mem_iterateNode (dvd_slot htop s)).mp ha
          obtain ⟨k, -, hbi, -⟩ := (mem_iterateNode (dvd_slot htop r)).mp hb
          have := Nat.mul_le_mul_right (2 ^ (l * 6)) (Nat.succ_le_of_lt (Fin.lt_def.mp hsr))
          rw [Nat.succ_mul] at this
          omega

/-! ### The tree as a finite map -/

def maxIndex : ℕ := 1 <<< (6 * 4)

theorem maxIndex_eq : maxIndex = 2 ^ (4 * 6) := by rw [maxIndex, Nat.one_shiftLeft]

def domain (m : ℕ → Option E) : Finset ℕ := (Finset.range maxIndex).filter fun i => (m i).isSome

theorem mem_domain {m : ℕ → Option E} {i : ℕ} : i ∈ domain m ↔ i < maxIndex ∧ (m i).isSome := by
  rw [domain, Finset.mem_filter, Finset.mem_range]

theorem card_domain_insert {m : ℕ → Option E} (hlt : index < maxIndex) (hm : m index = none) :
    (domain (Function.update m index (some entry))).card = (domain m).card + 1 := by
  have hset : domain (Function.update m index (some entry)) = insert index (domain m) := by
    ext i
    by_cases hi : i = index
    · subst hi
      simp [mem_domain, hlt]
    · simp [mem_domain, hi]
  rw [hset, Finset.card_insert_of_notMem (by simp [mem_domain, hm])]

theorem card_domain_erase {m : ℕ → Option E} (hlt : index < maxIndex) (hm : m index = some entry) :
    (domain (Function.update m index none)).card = (domain m).card - 1 := by
  have hset : domain (Function.update m index none) = (domain m).erase index := by
    ext i
    by_cases hi : i = index <;> simp [mem_domain, hi]
  rw [hset, Finset.card_erase_of_mem (mem_domain.mpr ⟨hlt, by simp [hm]⟩)]

inductive RadixOp (E : Type) where
  | insert (index : ℕ) (entry : E) (supply : List ℕ)
  | delete (index : ℕ)

def RadixOp.target : RadixOp E → ℕ
  | .insert index _ _ => index
  | .delete index => index

def RadixOp.effect (m : ℕ → Option E) : RadixOp E → ℕ → Option E
  | .insert index entry _ => Function.update m index (some entry)
  | .delete index => Function.update m index none

namespace RadixTree

def apply (t : RadixTree E) : RadixOp E → Option (RadixTree E)
  | .insert index entry supply => (t.insert index entry supply).map (·.1)
  | .delete index => some (t.delete index).2.1

def allNodes (t : RadixTree E) : List ℕ := nodesBelow 4 t.irt_root

def becomesEmpty (t : RadixTree E) (index : ℕ) : List ℕ :=
  ((t.irt_root.bind (clearAt index 4)).map (emptied 4)).getD []

structure Represents (t : RadixTree E) (m : ℕ → Option E) : Prop where
  wellFormed : ∀ root ∈ t.irt_root, WellFormed 4 root
  lookup : ∀ i < maxIndex, t.lookup i = m i
  count : t.irt_count = (domain m).card

variable {t : RadixTree E} {m : ℕ → Option E}

theorem Represents.init : Represents (init : RadixTree E) fun _ => none :=
  ⟨fun _ hnone => absurd hnone (Option.not_mem_none _), fun _ _ => rfl,
    by simp [RadixTree.init, domain]⟩

theorem low_eq_iff {i j : ℕ} (hi : i < maxIndex) (hj : j < maxIndex) :
    i % 2 ^ (4 * 6) = j % 2 ^ (4 * 6) ↔ i = j := by
  rw [← maxIndex_eq, Nat.mod_eq_of_lt hi, Nat.mod_eq_of_lt hj]

theorem Represents.insert {t' : RadixTree E} (h : Represents t m) (hlt : index < maxIndex)
    (heq : t.insert index entry supply = some (t', supply')) :
    m index = none ∧ Represents t' (Function.update m index (some entry)) ∧
      ∃ taken, supply = taken ++ supply' ∧ taken.length ≤ 4 ∧
        t'.allNodes.Perm (taken ++ t.allNodes) := by
  obtain ⟨⟨root, rest⟩, hins, hres⟩ := Option.map_eq_some_iff.mp heq
  obtain ⟨rfl, rfl⟩ := Prod.mk.inj hres
  obtain ⟨habsent, hI⟩ := insertAt_inserted h.wellFormed hins
  have hm : m index = none := (h.lookup index hlt).symm.trans habsent
  refine ⟨hm, ⟨?_, fun i hi => ?_, ?_⟩, hI.taken⟩
  · rintro t' ht'
    exact Option.some.inj ht' ▸ hI.wellFormed
  · refine (hI.find_eq i).trans ?_
    by_cases hii : i = index
    · rw [hii, if_pos rfl, Function.update_self]
    · rw [if_neg fun hlow => hii ((low_eq_iff hi hlt).mp hlow), Function.update_of_ne hii]
      exact h.lookup i hi
  · rw [card_domain_insert hlt hm, ← h.count]

theorem Represents.delete_absent (h : Represents t m) (hlt : index < maxIndex)
    (hm : m index = none) : t.delete index = (none, t, []) := by
  have hfind : find index 4 t.irt_root = none := (h.lookup index hlt).trans hm
  have hnone : t.irt_root.bind (deleteAt index 4) = none := by
    cases hroot : t.irt_root with
    | none => rfl
    | some root =>
      rw [hroot] at hfind
      exact deleteAt_absent hfind
  simp only [RadixTree.delete, hnone]

theorem Represents.delete (h : Represents t m) (hlt : index < maxIndex)
    (hm : m index = some entry) :
    ∃ t' freed, t.delete index = (some entry, t', freed) ∧
      Represents t' (Function.update m index none) ∧
      t.allNodes.Perm (freed ++ t'.allNodes) ∧ freed.Perm (t.becomesEmpty index) := by
  have hfind : find index 4 t.irt_root = some entry := (h.lookup index hlt).trans hm
  cases hroot : t.irt_root with
  | none =>
    rw [hroot, find_none] at hfind
    cases hfind
  | some root =>
    rw [hroot] at hfind
    obtain ⟨x, freed, heq, hdel⟩ := deleteAt_deleted (h.wellFormed root hroot) hfind
    refine ⟨⟨x, t.irt_count - 1⟩, freed, ?_, ⟨hdel.wellFormed, fun i hi => ?_, ?_⟩, ?_, ?_⟩
    · cases x with
      | none => simp only [RadixTree.delete, hroot, Option.bind_some, heq]
      | some root' =>
        have hpos := (hdel.wellFormed root' rfl).2.1
        simp only [RadixTree.delete, hroot, Option.bind_some, heq, if_neg hpos.ne']
    · refine (hdel.find_eq i).trans ?_
      by_cases hii : i = index
      · rw [hii, if_pos rfl, Function.update_self]
      · rw [if_neg fun hlow => hii ((low_eq_iff hi hlt).mp hlow), Function.update_of_ne hii,
          ← h.lookup i hi, RadixTree.lookup, hroot]
    · rw [card_domain_erase hlt hm, ← h.count]
    · rw [allNodes, hroot]
      exact hdel.perm
    · rw [becomesEmpty, hroot, Option.bind_some]
      exact hdel.freed_perm

theorem Represents.iterate (h : Represents t m) :
    (t.iterate.Pairwise fun a b => a.1 < b.1) ∧
      ∀ i e, (i, e) ∈ t.iterate ↔ i < maxIndex ∧ m i = some e := by
  cases hroot : t.irt_root with
  | none =>
    have hnil : t.iterate = [] := by rw [RadixTree.iterate, hroot]
    refine ⟨hnil ▸ List.Pairwise.nil, fun i e => ?_⟩
    rw [hnil]
    refine ⟨fun hmem => absurd hmem (List.not_mem_nil), ?_⟩
    rintro ⟨hi, hm⟩
    rw [← h.lookup i hi, RadixTree.lookup, hroot, find_none] at hm
    cases hm
  | some root =>
    have heq : t.iterate = iterateNode 4 0 root := by rw [RadixTree.iterate, hroot]
    rw [heq]
    refine ⟨sorted_iterateNode (Nat.dvd_zero _), fun i e => ?_⟩
    rw [mem_iterateNode (Nat.dvd_zero _), ← maxIndex_eq]
    constructor
    · rintro ⟨j, hj, rfl, hfind⟩
      rw [Nat.zero_add, ← h.lookup j hj, RadixTree.lookup, hroot]
      exact ⟨hj, hfind⟩
    · rintro ⟨hi, hm⟩
      refine ⟨i, hi, (Nat.zero_add i).symm, ?_⟩
      rw [← hm, ← h.lookup i hi, RadixTree.lookup, hroot]

theorem Represents.apply {op : RadixOp E} {t' : RadixTree E} (h : Represents t m)
    (hlt : op.target < maxIndex) (heq : t.apply op = some t') :
    Represents t' (op.effect m) := by
  cases op with
  | insert index entry supply =>
    obtain ⟨⟨t₁, rest⟩, hins, rfl⟩ := Option.map_eq_some_iff.mp heq
    exact (h.insert hlt hins).2.1
  | delete index =>
    obtain rfl := Option.some.inj heq
    have hlt : index < maxIndex := hlt
    cases hm : m index with
    | none =>
      have hsame : Function.update m index none = m := by rw [← hm, Function.update_eq_self]
      rw [h.delete_absent hlt hm, RadixOp.effect, hsame]
      exact h
    | some entry =>
      obtain ⟨t₁, freed, hdel, hrep, -⟩ := h.delete hlt hm
      rw [hdel]
      exact hrep

theorem Represents.run {ops : List (RadixOp E)} {t' : RadixTree E} (h : Represents t m)
    (hlt : ∀ op ∈ ops, op.target < maxIndex) (hrun : runSteps RadixTree.apply t ops = some t') :
    Represents t' (ops.foldl RadixOp.effect m) := by
  induction ops generalizing t m with
  | nil =>
    obtain rfl := Option.some.inj hrun
    exact h
  | cons op ops ih =>
    obtain ⟨t₁, heq, hrest⟩ := runSteps_cons.mp hrun
    exact ih (h.apply (hlt op List.mem_cons_self) heq)
      (fun o ho => hlt o (List.mem_cons_of_mem _ ho)) hrest

/-- After every sequence of insertions and deletions the tree is the finite map they make, in
lookup, count and iteration; every node counts its slots in use and has one; and a further
insertion takes at most four nodes, a further deletion frees exactly the nodes it empties. -/
theorem radix_refines_map (ops : List (RadixOp E)) (t : RadixTree E)
    (hlt : ∀ op ∈ ops, op.target < maxIndex) (hrun : runSteps RadixTree.apply init ops = some t) :
    (∀ i < maxIndex, t.lookup i = ops.foldl RadixOp.effect (fun _ => none) i) ∧
    t.irt_count = (domain (ops.foldl RadixOp.effect fun _ => none)).card ∧
    (∀ root ∈ t.irt_root, WellFormed 4 root) ∧
    (t.iterate.Pairwise fun a b => a.1 < b.1) ∧
    (∀ i e, (i, e) ∈ t.iterate ↔ i < maxIndex ∧ t.lookup i = some e) ∧
    (∀ index < maxIndex, t.lookup index = none → ∀ entry supply, 4 ≤ supply.length →
      (t.insert index entry supply).isSome) ∧
    (∀ index < maxIndex, ∀ entry supply t' supply',
      t.insert index entry supply = some (t', supply') →
      ∃ taken, supply = taken ++ supply' ∧ taken.length ≤ 4 ∧
        t'.allNodes.Perm (taken ++ t.allNodes)) ∧
    (∀ index < maxIndex, t.lookup index = none → t.delete index = (none, t, [])) ∧
    (∀ index < maxIndex, ∀ entry, t.lookup index = some entry →
      ∃ t' freed, t.delete index = (some entry, t', freed) ∧
        t.allNodes.Perm (freed ++ t'.allNodes) ∧ freed.Perm (t.becomesEmpty index)) := by
  have h := Represents.init.run hlt hrun
  refine ⟨h.lookup, h.count, h.wellFormed, h.iterate.1, fun i e => ?_, ?_, ?_, ?_, ?_⟩
  · rw [h.iterate.2]
    exact and_congr_right fun hi => by rw [h.lookup i hi]
  · intro index _ habsent entry supply hsupply
    rw [RadixTree.insert, Option.isSome_map]
    exact insertAt_isSome habsent hsupply
  · intro index hi entry supply t' supply' heq
    exact (h.insert hi heq).2.2
  · intro index hi habsent
    exact h.delete_absent hi ((h.lookup index hi).symm.trans habsent)
  · intro index hi entry hfound
    obtain ⟨t', freed, heq, -, hperm, hfreed⟩ :=
      h.delete hi ((h.lookup index hi).symm.trans hfound)
    exact ⟨t', freed, heq, hperm, hfreed⟩

/-- Two of the indices share a leaf, one is far off, and one is taken out again. -/
def sampleOps : List (RadixOp ℕ) :=
  [.insert 4161 7 [1, 2, 3, 4], .insert 4163 8 [5], .insert 70000 9 [6, 7, 8, 9], .delete 4161]

def sampleTree : RadixTree ℕ := ((runSteps RadixTree.apply init sampleOps).getD init)

theorem radix_refines_sample :
    (∀ op ∈ sampleOps, op.target < maxIndex) ∧
      runSteps RadixTree.apply init sampleOps = some sampleTree ∧
      sampleTree.iterate = [(4163, 8), (70000, 9)] ∧
      sampleTree.irt_count = (domain (sampleOps.foldl RadixOp.effect fun _ => none)).card ∧
      (∀ i < maxIndex, sampleTree.lookup i = sampleOps.foldl RadixOp.effect (fun _ => none) i) := by
  have hlt : ∀ op ∈ sampleOps, op.target < maxIndex := by decide
  have hrun : runSteps RadixTree.apply init sampleOps = some sampleTree := rfl
  have h := radix_refines_map sampleOps sampleTree hlt hrun
  exact ⟨hlt, hrun, rfl, h.2.1, h.1⟩

end RadixTree

end Uros.Ipc.Radix
