import Mathlib.Data.List.Nodup
import Mathlib.Logic.Function.Basic

/-!
A hash table with separate chaining, as an array of singly linked chains.

Insertion is at the front of a chain and lookup returns the first entry with the
key, so the whole meaning of a table is its lookup function: `find_insert` and
`find_modify` say what the two updates do to it.  `WellFormed` is the stronger
statement that no key is held twice anywhere in the table.
-/

namespace Uros.Foundation

variable {κ β : Type*}

def modifyFirst (p : β → Bool) (f : β → β) : List β → List β
  | [] => []
  | e :: chain => if p e then f e :: chain else e :: modifyFirst p f chain

theorem find?_modifyFirst_self {p : β → Bool} {f : β → β}
    (hf : ∀ e, p (f e) = p e) (chain : List β) :
    (modifyFirst p f chain).find? p = (chain.find? p).map f := by
  induction chain with
  | nil => rfl
  | cons e chain ih =>
    by_cases he : p e
    · simp [modifyFirst, he, hf]
    · simp [modifyFirst, he, ih]

theorem find?_modifyFirst_of_disjoint {p q : β → Bool} {f : β → β}
    (hq : ∀ e, p e = true → q e = false ∧ q (f e) = false) (chain : List β) :
    (modifyFirst p f chain).find? q = chain.find? q := by
  induction chain with
  | nil => rfl
  | cons e chain ih =>
    by_cases he : p e
    · simp [modifyFirst, he, hq e he]
    · simp [modifyFirst, he, List.find?_cons, ih]

theorem map_modifyFirst {γ : Type*} {p : β → Bool} {f : β → β} {g : β → γ}
    (hg : ∀ e, g (f e) = g e) (chain : List β) :
    (modifyFirst p f chain).map g = chain.map g := by
  induction chain with
  | nil => rfl
  | cons e chain ih =>
    by_cases he : p e <;> simp [modifyFirst, he, hg, ih]

theorem mem_modifyFirst {p : β → Bool} {f : β → β} {chain : List β} {e : β}
    (he : e ∈ modifyFirst p f chain) : e ∈ chain ∨ ∃ e₀ ∈ chain, p e₀ ∧ e = f e₀ := by
  induction chain with
  | nil => simp [modifyFirst] at he
  | cons d chain ih =>
    by_cases hd : p d
    · simp only [modifyFirst, hd, if_true, List.mem_cons] at he
      obtain rfl | he := he
      · exact .inr ⟨d, by simp, hd, rfl⟩
      · exact .inl (by simp [he])
    · simp only [modifyFirst, hd, List.mem_cons, Bool.false_eq_true, if_false] at he
      obtain rfl | he := he
      · exact .inl (by simp)
      · obtain he | ⟨e₀, h₀, hp, rfl⟩ := ih he
        · exact .inl (by simp [he])
        · exact .inr ⟨e₀, by simp [h₀], hp, rfl⟩

structure ChainTable (β : Type*) (n : Nat) where
  chain : Fin n → List β

namespace ChainTable

variable {n : Nat} [DecidableEq κ] (key : β → κ) (hash : κ → Fin n)

def empty : ChainTable β n := ⟨fun _ => []⟩

def find (t : ChainTable β n) (k : κ) : Option β :=
  (t.chain (hash k)).find? fun e => key e = k

def insert (t : ChainTable β n) (e : β) : ChainTable β n :=
  ⟨Function.update t.chain (hash (key e)) (e :: t.chain (hash (key e)))⟩

def modify (t : ChainTable β n) (k : κ) (f : β → β) : ChainTable β n :=
  ⟨Function.update t.chain (hash k)
    (modifyFirst (fun e => key e = k) f (t.chain (hash k)))⟩

variable {key hash} {t : ChainTable β n} {e : β} {k k' : κ} {f : β → β}

@[simp] theorem find_empty : (empty : ChainTable β n).find key hash k = none := rfl

theorem find_insert :
    (t.insert key hash e).find key hash k =
      if key e = k then some e else t.find key hash k := by
  unfold find insert
  by_cases hb : hash k = hash (key e)
  · simp only [hb, Function.update_self, List.find?_cons]
    by_cases hk : key e = k <;> simp [hk]
  · have hk : key e ≠ k := fun h => hb (by rw [h])
    simp [Function.update_of_ne hb, hk]

theorem find_modify (hf : ∀ e, key (f e) = key e) :
    (t.modify key hash k f).find key hash k' =
      if k' = k then (t.find key hash k).map f else t.find key hash k' := by
  unfold find modify
  by_cases hk : k' = k
  · subst hk
    simp only [Function.update_self, if_true]
    exact find?_modifyFirst_self (by simp [hf]) _
  · simp only [hk, if_false]
    by_cases hb : hash k' = hash k
    · simp only [hb, Function.update_self]
      refine find?_modifyFirst_of_disjoint (fun e he => ?_) _
      have he : key e = k := by simpa using he
      simp [hf, he, Ne.symm hk]
    · rw [Function.update_of_ne hb]

def WellFormed (key : β → κ) (hash : κ → Fin n) (t : ChainTable β n) : Prop :=
  ∀ b, (∀ e ∈ t.chain b, hash (key e) = b) ∧ ((t.chain b).map key).Nodup

omit [DecidableEq κ] in
theorem wellFormed_empty : (empty : ChainTable β n).WellFormed key hash := by
  intro b
  simp [empty]

theorem WellFormed.insert (ht : t.WellFormed key hash)
    (hnew : t.find key hash (key e) = none) :
    (t.insert key hash e).WellFormed key hash := by
  intro b
  by_cases hb : b = hash (key e)
  · subst hb
    have hfresh : key e ∉ (t.chain (hash (key e))).map key := by
      simpa [find] using hnew
    simpa [ChainTable.insert, hfresh] using ht (hash (key e))
  · simpa [ChainTable.insert, Function.update_of_ne hb] using ht b

theorem WellFormed.modify (hf : ∀ e, key (f e) = key e)
    (ht : t.WellFormed key hash) : (t.modify key hash k f).WellFormed key hash := by
  intro b
  by_cases hb : b = hash k
  · subst hb
    simp only [ChainTable.modify, Function.update_self, map_modifyFirst hf]
    refine ⟨fun e he => ?_, (ht _).2⟩
    obtain he | ⟨e₀, he₀, -, rfl⟩ := mem_modifyFirst he
    · exact (ht _).1 e he
    · rw [hf]
      exact (ht _).1 e₀ he₀
  · simpa [ChainTable.modify, Function.update_of_ne hb] using ht b

def entries (t : ChainTable β n) : List β := (List.finRange n).flatMap t.chain

omit [DecidableEq κ] in
theorem WellFormed.nodup_entries (ht : t.WellFormed key hash) :
    (t.entries.map key).Nodup := by
  unfold entries
  rw [List.map_flatMap, List.nodup_flatMap]
  refine ⟨fun b _ => (ht b).2, ?_⟩
  refine (List.nodup_finRange n).imp fun {b c} hbc => ?_
  apply List.disjoint_left.mpr
  intro k hk hk'
  obtain ⟨e, he, rfl⟩ := List.mem_map.mp hk
  obtain ⟨e', he', hkey⟩ := List.mem_map.mp hk'
  exact hbc (by rw [← (ht b).1 e he, ← (ht c).1 e' he', hkey])

end ChainTable

end Uros.Foundation
