import Mathlib.Algebra.Ring.Nat
import Mathlib.Data.List.Range
import Mathlib.Tactic.Common
import Uros.Foundation.Transition
import Uros.Ipc.LocalHash

/-!
What `ipc_entry_grow_table` (`ipc_entry.c`) does to the entries of a space.

The entries with small indices are in the table, the others in the radix tree, which is taken as
the map it implements, as is the global hash of its entries; the local hash is the array of
`ipc_hash.c`.  The growth copies and rehashes the table, moves entries out of the tree and links the
other new indices into the free list.
-/

namespace Uros.Ipc.GrowTable

open Uros.Foundation

structure Bits where
  type : ℕ
  urefs : ℕ
  gen : ℕ
  deriving DecidableEq, Repr

abbrev send : ℕ := 1

structure View where
  bits : Bits
  object : ℕ
  request : ℕ
  deriving DecidableEq, Repr

structure TreeEntry extends View where
  gen : ℕ
  deriving DecidableEq, Repr

/-- What `ipc_right_reverse` reads of a port; `receiver` is `ip_receiver_name` when `ip_receiver`
is the space. -/
structure Port where
  object : ℕ
  active : Bool
  receiver : Option (ℕ × ℕ)

structure Space where
  hash : HashTable
  bits : ℕ → Bits
  request : ℕ → ℕ
  free : List ℕ
  tree : ℕ → Option TreeEntry
  global : ℕ → Option (ℕ × ℕ)

namespace Space

abbrev size (s : Space) : ℕ := s.hash.size

def lookup (s : Space) (index gen : ℕ) : Option View :=
  if index < s.size then
    if (s.bits index).gen = gen ∧ (s.bits index).type ≠ 0 then
      some ⟨s.bits index, s.hash.ie_object index, s.request index⟩
    else none
  else (s.tree index).bind fun t => if t.gen = gen then some t.toView else none

def foundName (s : Space) (obj : ℕ) : Option ℕ → Option (ℕ × ℕ)
  | some i => some (i, (s.bits i).gen)
  | none => s.global obj

def hashLookup (s : Space) (obj : ℕ) : Option (Option (ℕ × ℕ)) :=
  (s.hash.localLookup obj).map (s.foundName obj)

/-- The assertion that the receive right is there fails for a name with index 0. -/
def rightReverse (s : Space) (port : Port) : Option (Option (ℕ × ℕ)) :=
  if port.active then
    match port.receiver with
    | some name => (s.lookup name.1 name.2).map fun _ => some name
    | none => s.hashLookup port.object
  else some none

/-! ## Growth -/

def rehash (s : Space) (h : HashTable) : ℕ → Option HashTable
  | 0 => some h
  | i + 1 => (s.rehash h i).bind fun h' =>
    if (s.bits i).type = send then h'.localInsert (h'.ie_object i) i else some h'

def drain (s : Space) (h : HashTable) : ℕ → Option HashTable
  | 0 => some h
  | n + 1 => (s.drain h n).bind fun h' => match s.tree (s.size + n) with
    | none => some h'
    | some t =>
      let h' := { h' with ie_object := Function.update h'.ie_object (s.size + n) t.object }
      if t.bits.type = send then h'.localInsert t.object (s.size + n) else some h'

/-- `ie_bits` of a new index once the tree is drained: those of the entry moved there, with the
generation of its name, or 0. -/
def movedBits (s : Space) (index : ℕ) : Bits :=
  match s.tree index with
  | some t => { t.bits with gen := t.bits.gen ||| t.gen }
  | none => ⟨0, 0, 0⟩

def newBits (s : Space) (index : ℕ) : Bits :=
  if s.movedBits index = ⟨0, 0, 0⟩ then ⟨0, 0, 255⟩ else s.movedBits index

theorem pos_of_lt {n size : ℕ} (h : n < size) : 0 < size := Nat.lt_of_le_of_lt (Nat.zero_le _) h

def grown (s : Space) (size : ℕ) (h : HashTable) : Space where
  hash := h
  bits i := if i < s.size then s.bits i else s.newBits i
  request i := if i < s.size then s.request i else ((s.tree i).map fun t => t.request).getD 0
  free := (List.range' s.size (size - s.size)).filter (fun i => s.movedBits i = ⟨0, 0, 0⟩) ++ s.free
  tree i := if s.size ≤ i ∧ i < size then none else s.tree i
  global obj := (s.global obj).filter fun name => decide (¬(s.size ≤ name.1 ∧ name.1 < size))

/-- The copied table: the old part keeps `ie_object`, the new part and every `ie_index` are
cleared. -/
def copied (s : Space) (size : ℕ) (hsize : s.size < size) : HashTable where
  size := size
  size_pos := pos_of_lt hsize
  ie_object i := if i < s.size then s.hash.ie_object i else 0
  ie_index _ := 0

/-- `ipc_entry_grow_table` from where the space is locked again, with a new table of `size`
entries. -/
def growTable (s : Space) (size : ℕ) (hsize : s.size < size) : Option Space :=
  ((s.rehash (s.copied size hsize) s.size).bind fun h => s.drain h (size - s.size)).map
    (s.grown size)

/-! ## The other operations on entries -/

def filled (s : Space) (index gen : ℕ) (v : View) (h : HashTable) : Space :=
  { s with
    hash := h
    bits := Function.update s.bits index { v.bits with gen := gen }
    request := Function.update s.request index v.request
    free :=
      if (s.bits index).type = 0 then
        if v.bits.type = 0 then s.free else s.free.erase index
      else if v.bits.type = 0 then index :: s.free else s.free }

/-- Contents are given to an entry of the table, or it is freed (type 0), by `ipc_entry_get` or
`ipc_entry_alloc_name`, the hash operations and stores of the caller, and `ipc_entry_dealloc`. -/
def putTable (s : Space) (index gen : ℕ) (v : View) : Option Space :=
  (if (s.bits index).type = send then s.hash.localDelete (s.hash.ie_object index) index
    else some s.hash).bind fun h =>
  (if v.bits.type = send then
      ({ h with ie_object := Function.update h.ie_object index v.object }).localInsert
        v.object index
    else some { h with ie_object := Function.update h.ie_object index v.object }).map
      (s.filled index gen v)

def putTree (s : Space) (index gen : ℕ) (v : View) : Space :=
  let cleared : ℕ → Option (ℕ × ℕ) := fun obj =>
    (s.global obj).filter fun name => decide (name.1 ≠ index)
  { s with
    tree := Function.update s.tree index
      (if v.bits.type = 0 then none else some ⟨{ v with bits.gen := 0 }, gen⟩)
    global := if v.bits.type = send then Function.update cleared v.object (some (index, gen))
      else cleared }

def create (size : ℕ) (hsize : 0 < size) : Space where
  hash := ⟨size, hsize, fun _ => 0, fun _ => 0⟩
  bits _ := ⟨0, 0, 255⟩
  request _ := 0
  free := List.range' 1 (size - 1)
  tree _ := none
  global _ := none

inductive Op where
  | put (index gen : ℕ) (v : View)
  | grow (size : ℕ)

def step (s : Space) : Op → Option Space
  | .put index gen v =>
    if 0 < index ∧ index < s.size then s.putTable index gen v else some (s.putTree index gen v)
  | .grow size => if hsize : s.size < size then s.growTable size hsize else some s

/-- Callers keep the generation of an entry in use, and enter a send right under one name only,
the one `ipc_right_reverse` finds. -/
def Allowed (s : Space) : Op → Prop
  | .put index gen v =>
    (0 < index → index < s.size → (s.bits index).type ≠ 0 → gen = (s.bits index).gen) ∧
      (∀ t ∈ s.tree index, gen = t.gen) ∧
      (v.bits.type = send → v.object ≠ 0 ∧
        ∀ name, s.hashLookup v.object = some (some name) → name.1 = index)
  | .grow _ => True

/-! ## The invariant -/

structure Inv (s : Space) (live : ℕ → Option ℕ) : Prop where
  rep : s.hash.Represents live
  live_iff : ∀ obj i, live obj = some i ↔
    i < s.size ∧ (s.bits i).type = send ∧ s.hash.ie_object i = obj
  tree_out : ∀ i t, s.tree i = some t → (s.size ≤ i ∨ i = 0) ∧ t.bits.type ≠ 0 ∧ t.bits.gen = 0
  tree_object : ∀ i t, s.tree i = some t → t.bits.type = send → t.object ≠ 0
  global_iff : ∀ obj i g, s.global obj = some (i, g) ↔
    ∃ t, s.tree i = some t ∧ t.bits.type = send ∧ t.object = obj ∧ t.gen = g
  apart : ∀ obj i, live obj = some i → s.global obj = none
  free_iff : ∀ i, i ∈ s.free ↔ 0 < i ∧ i < s.size ∧ (s.bits i).type = 0
  free_nodup : s.free.Nodup

variable {s : Space} {live : ℕ → Option ℕ} {index gen : ℕ} {v : View}

theorem Inv.hashLookup (h : Inv s live) (obj : ℕ) :
    s.hashLookup obj = some (s.foundName obj (live obj)) := by
  rw [Space.hashLookup, h.rep.lookup]
  rfl

theorem Inv.global_of_tree (h : Inv s live) {i : ℕ} {e : TreeEntry} (he : s.tree i = some e)
    (hs : e.bits.type = send) : s.global e.object = some (i, e.gen) :=
  (h.global_iff _ _ _).mpr ⟨e, he, hs, rfl, rfl⟩

/-- A name with index 0, which `ipc_entry_alloc_name` enters into the tree, is found by the reverse
lookup only. -/
theorem Inv.hashLookup_iff (h : Inv s live) (obj : ℕ) :
    s.hashLookup obj = some (some (index, gen)) ∧ index ≠ 0 ↔
      ∃ v, s.lookup index gen = some v ∧ v.bits.type = send ∧ v.object = obj := by
  have hsend : send ≠ 0 := by decide
  rw [h.hashLookup, Option.some_inj]
  constructor
  · rintro ⟨hfound, hi0⟩
    cases hl : live obj with
    | none =>
      rw [hl] at hfound
      obtain ⟨t, ht, hs, rfl, rfl⟩ := (h.global_iff _ _ _).mp hfound
      refine ⟨t.toView, ?_, hs, rfl⟩
      have hle : s.size ≤ index := (h.tree_out _ _ ht).1.resolve_right hi0
      simp [Space.lookup, Nat.not_lt.mpr hle, ht]
    | some i =>
      rw [hl] at hfound
      obtain ⟨rfl, rfl⟩ := Prod.mk.inj (Option.some.inj hfound)
      obtain ⟨hlt, hs, ho⟩ := (h.live_iff _ _).mp hl
      exact ⟨_, by rw [Space.lookup, if_pos hlt, if_pos ⟨rfl, hs ▸ hsend⟩], hs, ho⟩
  · rintro ⟨v, hv, hs, rfl⟩
    rw [Space.lookup] at hv
    split_ifs at hv with hlt hgen
    · obtain rfl := Option.some.inj hv
      have hl := (h.live_iff _ _).mpr ⟨hlt, hs, rfl⟩
      refine ⟨?_, (h.rep.range _ _ hl).1⟩
      rw [hl, ← hgen.1]
      rfl
    · obtain ⟨t, ht, hgen⟩ := Option.bind_eq_some_iff.mp hv
      split_ifs at hgen with hg
      obtain rfl := Option.some.inj hgen
      have hglobal := h.global_of_tree ht hs
      have hnone : live t.object = none := Option.eq_none_iff_forall_ne_some.mpr fun i hi => by
        rw [h.apart _ _ hi] at hglobal
        cases hglobal
      rw [hnone, ← hg]
      exact ⟨hglobal, Nat.pos_iff_ne_zero.mp (s.hash.size_pos.trans_le (Nat.not_lt.mp hlt))⟩

theorem create_inv (size : ℕ) (hsize : 0 < size) : Inv (create size hsize) fun _ => none where
  rep := .empty fun _ _ => rfl
  live_iff := by simp [create]
  tree_out := by simp [create]
  tree_object := by simp [create]
  global_iff := by simp [create]
  apart := by simp
  free_iff i := by
    simp only [create, Space.size, List.mem_range'_1, and_true]
    omega
  free_nodup := List.nodup_range'

theorem place {t : HashTable} (hrep : t.Represents live) (hi : index ≠ 0) (hlt : index < t.size)
    {isSend : Prop} [Decidable isSend] (hobj : isSend → t.ie_object index ≠ 0 ∧
      live (t.ie_object index) = none) :
    ∃ t' live', (if isSend then t.localInsert (t.ie_object index) index else some t) = some t' ∧
      t'.size = t.size ∧ t'.ie_object = t.ie_object ∧ t'.Represents live' ∧
      ∀ o i, live' o = some i ↔
        live o = some i ∨ isSend ∧ o = t.ie_object index ∧ i = index := by
  by_cases hs : isSend
  · obtain ⟨hne, hnone⟩ := hobj hs
    obtain ⟨t', heq, hsize, hio, hrep'⟩ := hrep.insert hne hi hlt rfl hnone
    refine ⟨t', _, by rw [if_pos hs, heq], hsize, hio, hrep', fun o i => ?_⟩
    by_cases ho : o = t.ie_object index
    · subst ho
      simp [hnone, hs, eq_comm]
    · simp [ho]
  · exact ⟨t, live, by rw [if_neg hs], rfl, rfl, hrep, by simp [hs]⟩

/-! ## Growth keeps what lookups show -/

section Growth

variable {size : ℕ} {hsize : s.size < size}

theorem Inv.rehash (h : Inv s live) {k : ℕ} (hk : k ≤ s.size) :
    ∃ t live', s.rehash (s.copied size hsize) k = some t ∧ t.size = size ∧
      t.ie_object = (s.copied size hsize).ie_object ∧ t.Represents live' ∧
      ∀ o i, live' o = some i ↔ live o = some i ∧ i < k := by
  induction k with
  | zero => exact ⟨_, fun _ => none, rfl, rfl, rfl, .empty fun _ _ => rfl, by simp⟩
  | succ k ih =>
    obtain ⟨t, live₁, heq, hts, hio, hrep, hlive⟩ := ih (Nat.le_of_succ_le hk)
    have hobj : t.ie_object k = s.hash.ie_object k := by
      rw [hio, copied]
      exact if_pos hk
    by_cases hs : (s.bits k).type = send
    · have hkl : live (s.hash.ie_object k) = some k := (h.live_iff _ _).mpr ⟨hk, hs, rfl⟩
      obtain ⟨hk0, -, hne, -⟩ := h.rep.range _ _ hkl
      have hnone : live₁ (t.ie_object k) = none := by
        rw [Option.eq_none_iff_forall_ne_some, hobj]
        intro i hi
        obtain ⟨hi, hik⟩ := (hlive _ _).mp hi
        rw [hkl, Option.some.injEq] at hi
        omega
      obtain ⟨t', live', hput, hs', hio', hrep', hlive'⟩ :=
        place hrep hk0 (by omega) (fun (_ : (s.bits k).type = send) => ⟨hobj ▸ hne, hnone⟩)
      refine ⟨t', live', by rw [Space.rehash, heq, Option.bind_some, hput], hs'.trans hts,
        hio'.trans hio, hrep', fun o i => ?_⟩
      rw [hlive', hlive, hobj]
      constructor
      · rintro (⟨hl, hlt⟩ | ⟨-, rfl, rfl⟩)
        · exact ⟨hl, Nat.lt_succ_of_lt hlt⟩
        · exact ⟨hkl, Nat.lt_succ_self _⟩
      · rintro ⟨hl, hlt⟩
        rcases Nat.lt_succ_iff_lt_or_eq.mp hlt with hlt | rfl
        · exact .inl ⟨hl, hlt⟩
        · exact .inr ⟨hs, ((h.live_iff _ _).mp hl).2.2.symm, rfl⟩
    · refine ⟨t, live₁, by rw [Space.rehash, heq, Option.bind_some, if_neg hs], hts, hio, hrep,
        fun o i => (hlive o i).trans (and_congr_right fun hl => ?_)⟩
      have hne : i ≠ k := by
        rintro rfl
        exact hs ((h.live_iff _ _).mp hl).2.1
      omega

def objectAt (s : Space) (m i : ℕ) : ℕ :=
  if i < s.size then s.hash.ie_object i
  else if i < m then ((s.tree i).map fun t => t.object).getD 0 else 0

theorem objectAt_succ {m : ℕ} (hm : s.size ≤ m) : s.objectAt (m + 1) =
    Function.update (s.objectAt m) m (((s.tree m).map fun t => t.object).getD 0) := by
  funext i
  by_cases hi : i = m
  · subst hi
    simp [objectAt, Nat.not_lt.mpr hm]
  · have : i < m + 1 ↔ i < m := by omega
    simp [objectAt, Function.update_of_ne hi, this]

structure Drained (s : Space) (live : ℕ → Option ℕ) (size m : ℕ) (t : HashTable)
    (live' : ℕ → Option ℕ) : Prop where
  size_eq : t.size = size
  object_eq : t.ie_object = s.objectAt m
  rep : t.Represents live'
  live_iff : ∀ o i, live' o = some i ↔ live o = some i ∨
    (s.size ≤ i ∧ i < m) ∧ ∃ e, s.tree i = some e ∧ e.bits.type = send ∧ e.object = o

theorem Drained.move {m : ℕ} {t : HashTable} {live₁ : ℕ → Option ℕ} (h : Inv s live)
    (hd : Drained s live size m t live₁) (hm : s.size ≤ m) (hlt : m < size) {e : TreeEntry}
    (he : s.tree m = some e) :
    ∃ t' live', (if e.bits.type = send then
          ({ t with ie_object := Function.update t.ie_object m e.object }).localInsert e.object m
        else some { t with ie_object := Function.update t.ie_object m e.object }) = some t' ∧
      Drained s live size (m + 1) t' live' := by
  have hfree : ∀ o, live₁ o ≠ some m := fun o ho => by
    rcases (hd.live_iff _ _).mp ho with hl | ⟨⟨-, hlt⟩, -⟩
    · exact absurd ((h.live_iff _ _).mp hl).1 (Nat.not_lt.mpr hm)
    · exact lt_irrefl _ hlt
  have hm0 : m ≠ 0 := Nat.pos_iff_ne_zero.mp (Nat.lt_of_lt_of_le s.hash.size_pos hm)
  have hself := Function.update_self m e.object t.ie_object
  -- The object has one name in the global hash, so no entry moved before has it.
  have hnone : e.bits.type = send → live₁ e.object = none := fun hs => by
    have hg := h.global_of_tree he hs
    rw [Option.eq_none_iff_forall_ne_some]
    intro i hi
    rcases (hd.live_iff _ _).mp hi with hl | ⟨hlt, e', he', hs', ho⟩
    · rw [h.apart _ _ hl] at hg
      cases hg
    · rw [← ho, h.global_of_tree he' hs', Option.some.injEq, Prod.mk.injEq] at hg
      omega
  obtain ⟨t', live', hput, hs', hio', hrep', hlive'⟩ :=
    place (hd.rep.write e.object hfree) hm0 (hd.size_eq.symm ▸ hlt)
      (fun (hs : e.bits.type = send) => by
        simp only [hself]
        exact ⟨h.tree_object m e he hs, hnone hs⟩)
  simp only [hself] at hput hlive'
  refine ⟨t', live', hput, hs'.trans hd.size_eq, ?_, hrep', fun o i => ?_⟩
  · rw [hio', objectAt_succ hm, he, hd.object_eq]
    rfl
  · rw [hlive', hd.live_iff, or_assoc]
    refine or_congr_right ⟨?_, ?_⟩
    · rintro (⟨⟨hle, hlt⟩, hex⟩ | ⟨hs, rfl, rfl⟩)
      · exact ⟨⟨hle, Nat.lt_succ_of_lt hlt⟩, hex⟩
      · exact ⟨⟨hm, Nat.lt_succ_self _⟩, e, he, hs, rfl⟩
    · rintro ⟨⟨hle, hlt⟩, e', he', hs, ho⟩
      rcases Nat.lt_succ_iff_lt_or_eq.mp hlt with hlt | rfl
      · exact .inl ⟨⟨hle, hlt⟩, e', he', hs, ho⟩
      · rw [he, Option.some.injEq] at he'
        subst he'
        exact .inr ⟨hs, ho.symm, rfl⟩

theorem Drained.skip {m : ℕ} {t : HashTable} {live₁ : ℕ → Option ℕ}
    (hd : Drained s live size m t live₁) (hm : s.size ≤ m) (he : s.tree m = none) :
    Drained s live size (m + 1) t live₁ where
  size_eq := hd.size_eq
  object_eq := by
    rw [hd.object_eq, objectAt_succ hm, he]
    exact (Function.update_eq_self_iff.mpr (by simp [objectAt, Nat.not_lt.mpr hm])).symm
  rep := hd.rep
  live_iff o i := by
    rw [hd.live_iff]
    refine or_congr_right ⟨fun hex => ⟨⟨hex.1.1, Nat.lt_succ_of_lt hex.1.2⟩, hex.2⟩, ?_⟩
    rintro ⟨⟨hle, hlt⟩, e, hex, hrest⟩
    have hne : i ≠ m := by
      rintro rfl
      rw [he] at hex
      cases hex
    exact ⟨⟨hle, by omega⟩, e, hex, hrest⟩

theorem Drained.drain {t : HashTable} {live₁ : ℕ → Option ℕ} (h : Inv s live)
    (hd : Drained s live size s.size t live₁) {n : ℕ} (hn : s.size + n ≤ size) :
    ∃ t' live', s.drain t n = some t' ∧ Drained s live size (s.size + n) t' live' := by
  induction n with
  | zero => exact ⟨t, live₁, rfl, hd⟩
  | succ n ih =>
    obtain ⟨t₁, live₂, heq, hd₁⟩ := ih (by omega)
    cases he : s.tree (s.size + n) with
    | none =>
      refine ⟨t₁, live₂, ?_, hd₁.skip (Nat.le_add_right _ _) he⟩
      simp only [Space.drain, heq, Option.bind_some, he]
    | some e =>
      obtain ⟨t', live', hput, hd'⟩ := hd₁.move h (Nat.le_add_right _ _) (by omega) he
      refine ⟨t', live', ?_, hd'⟩
      simp only [Space.drain, heq, Option.bind_some, he]
      exact hput

theorem Inv.growTable (h : Inv s live) :
    ∃ t live', s.growTable size hsize = some (s.grown size t) ∧
      Drained s live size size t live' := by
  obtain ⟨t₁, live₁, hre, hs₁, hio₁, hrep₁, hlive₁⟩ := @Inv.rehash _ _ size hsize h s.size le_rfl
  have hd : Drained s live size s.size t₁ live₁ := by
    refine ⟨hs₁, ?_, hrep₁, fun o i => ?_⟩
    · rw [hio₁]
      funext i
      by_cases hi : i < s.size <;> simp [copied, objectAt, hi]
    · rw [hlive₁]
      constructor
      · exact fun hl => .inl hl.1
      · rintro (hl | ⟨⟨hle, hlt⟩, -⟩)
        · exact ⟨hl, ((h.live_iff _ _).mp hl).1⟩
        · exact absurd hlt (Nat.not_lt.mpr hle)
  obtain ⟨t, live', hdr, hd'⟩ :=
    hd.drain h (Nat.add_sub_cancel' (Nat.le_of_lt hsize)).le
  rw [Nat.add_sub_cancel' (Nat.le_of_lt hsize)] at hd'
  exact ⟨t, live', by simp only [Space.growTable, hre, Option.bind_some, hdr, Option.map_some], hd'⟩

theorem Inv.not_live_of_le (h : Inv s live) {o i : ℕ} (hi : s.size ≤ i) : live o ≠ some i :=
  fun hl => absurd ((h.live_iff _ _).mp hl).1 (Nat.not_lt.mpr hi)

theorem Inv.newBits_some (h : Inv s live) {i : ℕ} {e : TreeEntry} (he : s.tree i = some e) :
    s.newBits i = { e.bits with gen := e.gen } := by
  obtain ⟨-, htype, hgen⟩ := h.tree_out i e he
  simp [newBits, movedBits, he, htype, hgen]

theorem newBits_none {i : ℕ} (he : s.tree i = none) : s.newBits i = ⟨0, 0, 255⟩ := by
  simp [newBits, movedBits, he]

theorem Inv.movedBits_eq (h : Inv s live) (i : ℕ) :
    s.movedBits i = ⟨0, 0, 0⟩ ↔ s.tree i = none := by
  cases he : s.tree i with
  | none => simp [movedBits, he]
  | some e => simp [movedBits, he, (h.tree_out i e he).2.1]

variable {t : HashTable} {live' : ℕ → Option ℕ}

theorem grown_global {obj i g : ℕ} :
    (s.grown size t).global obj = some (i, g) ↔
      s.global obj = some (i, g) ∧ ¬(s.size ≤ i ∧ i < size) := by
  simp only [grown, Option.filter_eq_some_iff, decide_eq_true_eq]

theorem grown_tree {i : ℕ} {e : TreeEntry} :
    (s.grown size t).tree i = some e ↔ ¬(s.size ≤ i ∧ i < size) ∧ s.tree i = some e := by
  simp only [grown, Option.ite_none_left_eq_some]

theorem Inv.grown_free (h : Inv s live) {i : ℕ} (hlt : s.size < size) :
    i ∈ (s.grown size t).free ↔ (s.size ≤ i ∧ i < size ∧ s.tree i = none) ∨ i ∈ s.free := by
  have : s.size + (size - s.size) = size := Nat.add_sub_cancel' hlt.le
  simp [Space.grown, List.mem_range'_1, this, and_assoc, h.movedBits_eq]

theorem Drained.grown_size (hd : Drained s live size size t live') :
    (s.grown size t).size = size := hd.size_eq

theorem Drained.grown_object (hd : Drained s live size size t live') (i : ℕ) :
    (s.grown size t).hash.ie_object i = s.objectAt size i := congrFun hd.object_eq i

theorem Inv.grown (h : Inv s live) (hd : Drained s live size size t live') (hlt : s.size < size) :
    Inv (s.grown size t) live' where
  rep := hd.rep
  live_iff o i := by
    rw [hd.live_iff, hd.grown_object, hd.grown_size]
    by_cases hi : i < s.size
    · simp only [Nat.not_le.mpr hi, false_and, or_false, h.live_iff, Space.grown, objectAt, hi,
        if_true, hi.trans hlt]
    · simp only [h.not_live_of_le (Nat.not_lt.mp hi), false_or, Nat.not_lt.mp hi, true_and]
      refine and_congr_right fun hi' => ?_
      cases he : s.tree i with
      | none => simp [Space.grown, hi, newBits_none he]
      | some e => simp [Space.grown, hi, h.newBits_some he, he, objectAt, hi']
  tree_out i e he := by
    obtain ⟨hi, he⟩ := grown_tree.mp he
    obtain ⟨hout, hrest⟩ := h.tree_out i e he
    rw [hd.grown_size]
    exact ⟨by omega, hrest⟩
  tree_object i e he := h.tree_object i e (grown_tree.mp he).2
  global_iff obj i g := by
    simp only [grown_global, grown_tree, h.global_iff]
    grind
  apart obj i hl := by
    rw [Option.eq_none_iff_forall_ne_some]
    rintro ⟨j, g⟩ hg
    obtain ⟨hg, hj⟩ := grown_global.mp hg
    rcases (hd.live_iff _ _).mp hl with hl | ⟨hi, e, he, hs, ho⟩
    · rw [h.apart _ _ hl] at hg
      cases hg
    · rw [← ho, h.global_of_tree he hs, Option.some.injEq, Prod.mk.injEq] at hg
      exact hj (hg.1 ▸ hi)
  free_iff i := by
    rw [h.grown_free hlt, h.free_iff, hd.grown_size]
    have hpos := s.hash.size_pos
    by_cases hi : i < s.size
    · simp [Space.grown, hi, hi.trans hlt, Nat.not_le.mpr hi]
    · have hpos : 0 < i := Nat.lt_of_lt_of_le hpos (Nat.not_lt.mp hi)
      cases he : s.tree i with
      | none => simp [Space.grown, hi, newBits_none he, hpos, Nat.not_lt.mp hi]
      | some e => simp [Space.grown, hi, h.newBits_some he, (h.tree_out i e he).2.1]
  free_nodup := by
    refine List.Nodup.append (List.Nodup.filter _ List.nodup_range') h.free_nodup ?_
    intro i hi hold
    have := (h.free_iff i).mp hold
    have := List.mem_range'_1.mp (List.mem_filter.mp hi).1
    omega

theorem Inv.grown_lookup (h : Inv s live) (hd : Drained s live size size t live')
    (hlt : s.size < size) (index gen : ℕ) :
    (s.grown size t).lookup index gen = (s.lookup index gen).map fun v =>
      if s.size ≤ index ∧ index < size then { v with bits.gen := gen } else v := by
  rw [Space.lookup, Space.lookup, hd.grown_object, hd.grown_size]
  by_cases hi : index < s.size
  · simp [Space.grown, objectAt, hi, hi.trans hlt, Nat.not_le.mpr hi]
  · by_cases hi' : index < size
    · cases he : s.tree index with
      | none => simp [Space.grown, hi, hi', newBits_none he]
      | some e =>
        by_cases hg : e.gen = gen <;>
          simp [Space.grown, hi, hi', h.newBits_some he, he, objectAt, hg,
            (h.tree_out index e he).2.1, Nat.not_lt.mp hi]
    · simp [Space.grown, hi, hi']

theorem Drained.eq_none (hd : Drained s live size size t live') (h : Inv s live) {obj : ℕ}
    (hl : live obj = none)
    (hg : ∀ i g, s.global obj = some (i, g) → ¬(s.size ≤ i ∧ i < size)) :
    live' obj = none := by
  rw [Option.eq_none_iff_forall_ne_some]
  intro i hi
  rcases (hd.live_iff _ _).mp hi with hl' | ⟨hlt, e, he, hs, ho⟩
  · rw [hl] at hl'
    cases hl'
  · exact absurd hlt (hg i e.gen (ho ▸ h.global_of_tree he hs))

theorem Inv.grown_hashLookup (h : Inv s live) (hd : Drained s live size size t live')
    (hlt : s.size < size) (obj : ℕ) : (s.grown size t).hashLookup obj = s.hashLookup obj := by
  rw [(h.grown hd hlt).hashLookup, h.hashLookup]
  congr 1
  cases hl : live obj with
  | some i =>
    have hi := ((h.live_iff _ _).mp hl).1
    rw [(hd.live_iff obj i).mpr (.inl hl)]
    simp [foundName, Space.grown, hi]
  | none =>
    cases hg : s.global obj with
    | none =>
      rw [hd.eq_none h hl (by simp [hg])]
      simp [foundName, Space.grown, hg]
    | some name =>
      obtain ⟨i, g⟩ := name
      obtain ⟨e, he, hs, ho, rfl⟩ := (h.global_iff _ _ _).mp hg
      by_cases hi : s.size ≤ i ∧ i < size
      · rw [(hd.live_iff obj i).mpr (.inr ⟨hi, e, he, hs, ho⟩)]
        simp [foundName, hg, Space.grown, Nat.not_lt.mpr hi.1, h.newBits_some he]
      · rw [hd.eq_none h hl fun j g' hj => by
          rw [hg, Option.some.injEq, Prod.mk.injEq] at hj
          exact hj.1 ▸ hi]
        exact (grown_global.mpr ⟨hg, hi⟩).trans hg.symm

end Growth

/-! ## The other operations keep the invariant -/

theorem Inv.vacate (h : Inv s live) (hlt : index < s.size) :
    ∃ t live', (if (s.bits index).type = send then
        s.hash.localDelete (s.hash.ie_object index) index else some s.hash) = some t ∧
      t.size = s.size ∧ t.ie_object = s.hash.ie_object ∧ t.Represents live' ∧
      ∀ o i, live' o = some i ↔ live o = some i ∧ i ≠ index := by
  by_cases hs : (s.bits index).type = send
  · have hl := (h.live_iff _ _).mpr ⟨hlt, hs, rfl⟩
    obtain ⟨t, heq, hsize, hio, hrep⟩ := h.rep.delete hl
    refine ⟨t, _, by rw [if_pos hs, heq], hsize, hio, hrep, fun o i => ?_⟩
    by_cases ho : o = s.hash.ie_object index
    · subst ho
      simp [hl, eq_comm]
    · rw [Function.update_of_ne ho]
      refine ⟨fun hoi => ⟨hoi, ?_⟩, And.left⟩
      rintro rfl
      exact ho ((h.live_iff _ _).mp hoi).2.2.symm
  · refine ⟨_, live, if_neg hs, rfl, rfl, h.rep, fun o i => ⟨fun hoi => ⟨hoi, ?_⟩, And.left⟩⟩
    rintro rfl
    exact hs ((h.live_iff _ _).mp hoi).2.1

section Put

variable (hobj : v.bits.type = send → v.object ≠ 0 ∧
  ∀ name, s.hashLookup v.object = some (some name) → name.1 = index)
include hobj

theorem Inv.live_of_send (h : Inv s live) (hs : v.bits.type = send) {i : ℕ}
    (hl : live v.object = some i) : i = index :=
  (hobj hs).2 (i, (s.bits i).gen) (by rw [h.hashLookup, hl, foundName])

theorem Inv.global_of_send (h : Inv s live) (hs : v.bits.type = send) {i g : ℕ}
    (hg : s.global v.object = some (i, g)) : i = index := by
  cases hl : live v.object with
  | some j =>
    rw [h.apart _ _ hl] at hg
    cases hg
  | none => exact (hobj hs).2 (i, g) (by rw [h.hashLookup, hl, foundName, hg])

theorem Inv.putTable (h : Inv s live) (hi0 : index ≠ 0) (hlt : index < s.size) :
    ∃ s' live', s.putTable index gen v = some s' ∧ Inv s' live' := by
  obtain ⟨t, live₁, hdel, hsize₁, hio₁, hrep₁, hlive₁⟩ := h.vacate hlt
  have hfree : ∀ o, live₁ o ≠ some index := fun o ho => ((hlive₁ _ _).mp ho).2 rfl
  have hself := Function.update_self index v.object t.ie_object
  obtain ⟨t', live', hput, hsize', hio', hrep', hlive'⟩ :=
    place (hrep₁.write v.object hfree) hi0 (hsize₁.symm ▸ hlt)
      (fun (hs : v.bits.type = send) => by
        simp only [hself]
        refine ⟨(hobj hs).1, Option.eq_none_iff_forall_ne_some.mpr fun i hi => ?_⟩
        obtain ⟨hl, hne⟩ := (hlive₁ _ _).mp hi
        exact hne (h.live_of_send hobj hs hl))
  simp only [hself] at hput hlive'
  have hsz : t'.size = s.size := hsize'.trans hsize₁
  refine ⟨s.filled index gen v t', live',
    by rw [Space.putTable, hdel, Option.bind_some, hput, Option.map_some], ?_⟩
  refine ⟨hrep', fun o i => ?_, fun i e he => ?_, h.tree_object, h.global_iff, fun o i hl => ?_,
    fun i => ?_, ?_⟩
  · simp only [hlive', hlive₁, filled, hio', hio₁, hsz, Space.size]
    by_cases hi : i = index
    · subst hi
      simp [hlt, eq_comm]
    · simp [hi, h.live_iff]
  · exact ⟨(h.tree_out i e he).1.imp_left hsz.trans_le, (h.tree_out i e he).2⟩
  · rcases (hlive' _ _).mp hl with hl | ⟨hs, rfl, -⟩
    · exact h.apart _ _ ((hlive₁ _ _).mp hl).1
    · refine Option.eq_none_iff_forall_ne_some.mpr fun name hg => ?_
      have hidx := h.global_of_send hobj hs (i := name.1) (g := name.2) hg
      obtain ⟨e, he, -⟩ := (h.global_iff _ _ _).mp hg
      have hout := (h.tree_out _ e he).1
      omega
  · simp only [filled, hsz, Space.size]
    have hmem := h.free_iff i
    have hnodup := h.free_nodup.mem_erase_iff (a := i) (b := index)
    by_cases hi : i = index
    · subst hi
      have hpos := Nat.pos_of_ne_zero hi0
      split_ifs <;> simp_all
    · split_ifs <;> simp_all
  · have hnot : (s.bits index).type ≠ 0 → index ∉ s.free := fun hne hmem =>
      hne ((h.free_iff index).mp hmem).2.2
    simp only [filled]
    split_ifs with hold
    · exact h.free_nodup
    · exact h.free_nodup.erase _
    · exact List.nodup_cons.mpr ⟨hnot hold, h.free_nodup⟩
    · exact h.free_nodup

theorem Inv.putTree (h : Inv s live) (hle : s.size ≤ index ∨ index = 0) :
    Inv (s.putTree index gen v) live := by
  have htree : ∀ i e, (s.putTree index gen v).tree i = some e →
      (i = index ∧ v.bits.type ≠ 0 ∧ e = ⟨{ v with bits.gen := 0 }, gen⟩) ∨ s.tree i = some e := by
    intro i e he
    by_cases hi : i = index
    · subst hi
      simp only [Space.putTree, Function.update_self] at he
      split_ifs at he with h0
      exact .inl ⟨rfl, h0, (Option.some.inj he).symm⟩
    · exact .inr (by simpa [Space.putTree, hi] using he)
  refine ⟨h.rep, h.live_iff, fun i e he => ?_, fun i e he hs => ?_, fun obj i g => ?_,
    fun obj i hl => ?_, h.free_iff, h.free_nodup⟩
  · rcases htree i e he with ⟨rfl, h0, rfl⟩ | he
    · exact ⟨hle, h0, rfl⟩
    · exact h.tree_out i e he
  · rcases htree i e he with ⟨rfl, -, rfl⟩ | he
    · exact (hobj hs).1
    · exact h.tree_object i e he hs
  · by_cases hi : i = index
    · subst hi
      by_cases hs : v.bits.type = send
      · by_cases ho : obj = v.object
        · subst ho
          simp [Space.putTree, hs]
        · simp [Space.putTree, hs, ho, Option.filter_eq_some_iff, Ne.symm ho]
      · by_cases h0 : v.bits.type = 0 <;>
          simp [Space.putTree, hs, h0, Option.filter_eq_some_iff]
    · have hrest := h.global_iff obj i g
      by_cases hs : v.bits.type = send
      · by_cases ho : obj = v.object
        · subst ho
          have hnone : s.global v.object ≠ some (i, g) := fun hg => hi (h.global_of_send hobj hs hg)
          simp [Space.putTree, hs, hi, ← hrest, hnone, Ne.symm hi]
        · simp [Space.putTree, hs, ho, hi, ← hrest]
      · simp [Space.putTree, hs, hi, ← hrest]
  · have hg := h.apart obj i hl
    by_cases hs : v.bits.type = send
    · have ho : obj ≠ v.object := by
        rintro rfl
        have := h.live_of_send hobj hs hl
        have := ((h.live_iff _ _).mp hl).1
        have := (h.rep.range _ _ hl).1
        omega
      simp [Space.putTree, hs, ho, hg]
    · simp [Space.putTree, hs, hg]

end Put

theorem Inv.step (h : Inv s live) {op : Op} (hop : Allowed s op) :
    ∃ s' live', s.step op = some s' ∧ Inv s' live' := by
  cases op with
  | put index gen v =>
    obtain ⟨-, -, hobj⟩ := hop
    by_cases hi : 0 < index ∧ index < s.size
    · simpa [Space.step, hi] using h.putTable hobj (Nat.pos_iff_ne_zero.mp hi.1) hi.2
    · exact ⟨_, live, by rw [Space.step, if_neg hi], h.putTree hobj (by omega)⟩
  | grow size =>
    by_cases hsize : s.size < size
    · obtain ⟨t, live', heq, hd⟩ := @Inv.growTable s live size hsize h
      exact ⟨_, live', by rw [Space.step, dif_pos hsize, heq], h.grown hd hsize⟩
    · exact ⟨s, live, by rw [Space.step, dif_neg hsize], h⟩

theorem Inv.run (h : Inv s live) {ops : List Op} (hops : StepsMeet Space.step Allowed s ops) :
    ∃ s' live', runSteps Space.step s ops = some s' ∧ Inv s' live' := by
  induction ops generalizing s live with
  | nil => exact ⟨s, live, rfl, h⟩
  | cons op ops ih =>
    obtain ⟨s₁, live₁, heq, h₁⟩ := h.step hops.1
    obtain ⟨s', live', hrun, h'⟩ := ih h₁ (hops.2 s₁ heq)
    exact ⟨s', live', runSteps_cons.mpr ⟨s₁, heq, hrun⟩, h'⟩

theorem Inv.grown_free_count (h : Inv s live) {size : ℕ} {t : HashTable} {live' : ℕ → Option ℕ}
    (hd : Drained s live size size t live') (hlt : s.size < size) {i : ℕ} (hi : s.size ≤ i)
    (hi' : i < size) : (s.grown size t).free.count i = if s.tree i = none then 1 else 0 := by
  have hold : i ∉ s.free := fun hmem => by
    have := (h.free_iff i).mp hmem
    omega
  split_ifs with he
  · exact List.count_eq_one_of_mem (h.grown hd hlt).free_nodup
      ((h.grown_free hlt).mpr (.inl ⟨hi, hi', he⟩))
  · refine List.count_eq_zero_of_not_mem fun hmem => ?_
    rcases (h.grown_free hlt).mp hmem with ⟨-, -, hnone⟩ | hmem
    · exact he hnone
    · exact hold hmem

/-- What a growth from `s` to a table of `size` entries in `s'` keeps: a name denotes the same
entry, where one moved out of the tree has the generation of its name in the bits; every port has
the same name; what was free is free; and a new index is on the free list once, or holds the entry
the tree had there. -/
structure Transparent (s : Space) (size : ℕ) (s' : Space) : Prop where
  lookup : ∀ index gen, s'.lookup index gen = (s.lookup index gen).map fun v =>
    if s.size ≤ index ∧ index < size then { v with bits.gen := gen } else v
  reverse : ∀ port, s'.rightReverse port = s.rightReverse port
  free : ∀ i ∈ s.free, i ∈ s'.free
  added : ∀ i, s.size ≤ i → i < size → s'.free.count i = 1 ∨
    s'.free.count i = 0 ∧ ∃ e, s.tree i = some e ∧
      s'.lookup i e.gen = some { e.toView with bits.gen := e.gen }

/-- In every space that can be reached, growth to any larger size succeeds and is transparent. -/
theorem growTable_transparent (size₀ : ℕ) (hpos : 0 < size₀) (ops : List Op)
    (hops : StepsMeet step Allowed (create size₀ hpos) ops) (s : Space)
    (hrun : runSteps step (create size₀ hpos) ops = some s) (size : ℕ) (hsize : s.size < size) :
    ∃ s', s.growTable size hsize = some s' ∧ Transparent s size s' := by
  obtain ⟨s₁, live, hrun₁, h⟩ := (create_inv size₀ hpos).run hops
  obtain rfl : s₁ = s := Option.some.inj (hrun₁.symm.trans hrun)
  obtain ⟨t, live', heq, hd⟩ := @Inv.growTable s₁ live size hsize h
  refine ⟨_, heq, h.grown_lookup hd hsize, fun port => ?_,
    fun i hi => (h.grown_free hsize).mpr (.inr hi), fun i hi hi' => ?_⟩
  · simp only [rightReverse, h.grown_hashLookup hd hsize, h.grown_lookup hd hsize, Option.map_map]
    rfl
  · have hcount := h.grown_free_count hd hsize hi hi'
    cases he : s₁.tree i with
    | none => exact .inl (by rw [hcount, if_pos he])
    | some e =>
      refine .inr ⟨by simp [hcount, he], e, rfl, ?_⟩
      rw [h.grown_lookup hd hsize]
      simp [Space.lookup, Nat.not_lt.mpr hi, he, hi, hi']

def sparseOps : List Op := [.put 5 4 ⟨⟨send, 1, 0⟩, 64, 0⟩, .put 0 4 ⟨⟨send, 1, 0⟩, 80, 0⟩]

def sparse : Space :=
  ((create 4 HashTable.four_pos).putTree 5 4 ⟨⟨send, 1, 0⟩, 64, 0⟩).putTree 0 4
    ⟨⟨send, 1, 0⟩, 80, 0⟩

theorem sparse_lt_eight : sparse.size < 8 := by decide

theorem sparseOps_meet : StepsMeet step Allowed (create 4 HashTable.four_pos) sparseOps := by
  refine ⟨⟨fun _ hlt => absurd hlt (by decide), fun t ht => ?_, fun _ => ⟨by decide, ?_⟩⟩, ?_⟩
  · cases ht
  · intro name hname
    have hnone : (create 4 HashTable.four_pos).hashLookup 64 = some none := by decide
    rw [hnone] at hname
    cases hname
  rintro _ ⟨⟩
  refine ⟨⟨fun hlt => absurd hlt (by decide), fun t ht => ?_, fun _ => ⟨by decide, ?_⟩⟩,
    fun _ _ => trivial⟩
  · cases ht
  · intro name hname
    have hnone : ((create 4 HashTable.four_pos).putTree 5 4 ⟨⟨send, 1, 0⟩, 64, 0⟩).hashLookup 80 =
        some none := by decide
    rw [hnone] at hname
    cases hname

theorem growTable_sparse :
    StepsMeet step Allowed (create 4 HashTable.four_pos) sparseOps ∧
      ∃ s', sparse.growTable 8 sparse_lt_eight = some s' ∧ Transparent sparse 8 s' :=
  ⟨sparseOps_meet, growTable_transparent 4 HashTable.four_pos sparseOps sparseOps_meet sparse rfl 8
    sparse_lt_eight⟩

/-- The bits a lookup shows are not kept: `ite_bits` has no generation, the bits of the moved
entry do. -/
theorem growTable_changes_bits :
    StepsMeet step Allowed (create 4 HashTable.four_pos) sparseOps ∧
      runSteps step (create 4 HashTable.four_pos) sparseOps = some sparse ∧
      sparse.lookup 5 4 = some ⟨⟨send, 1, 0⟩, 64, 0⟩ ∧
      ∃ s', sparse.growTable 8 sparse_lt_eight = some s' ∧
        s'.lookup 5 4 = some ⟨⟨send, 1, 4⟩, 64, 0⟩ := by
  have hgrow : (sparse.growTable 8 sparse_lt_eight).map (fun s' => s'.lookup 5 4) =
      some (some ⟨⟨send, 1, 4⟩, 64, 0⟩) := by decide
  obtain ⟨s', heq, hlookup⟩ := Option.map_eq_some_iff.mp hgrow
  exact ⟨sparseOps_meet, rfl, by decide, s', heq, hlookup⟩

/-- In every space that can be reached, the name `ipc_hash_lookup` finds for an object is the one
under which `ipc_entry_lookup` finds a send right for it, unless its index is 0. -/
theorem hashLookup_iff_lookup (size₀ : ℕ) (hpos : 0 < size₀) (ops : List Op)
    (hops : StepsMeet step Allowed (create size₀ hpos) ops) (s : Space)
    (hrun : runSteps step (create size₀ hpos) ops = some s) (obj index gen : ℕ) :
    s.hashLookup obj = some (some (index, gen)) ∧ index ≠ 0 ↔
      ∃ v, s.lookup index gen = some v ∧ v.bits.type = send ∧ v.object = obj := by
  obtain ⟨s₁, live, hrun₁, h⟩ := (create_inv size₀ hpos).run hops
  obtain rfl : s₁ = s := Option.some.inj (hrun₁.symm.trans hrun)
  exact h.hashLookup_iff obj

theorem hashLookup_sparse : sparse.lookup 5 4 = some ⟨⟨send, 1, 0⟩, 64, 0⟩ ∧
    sparse.hashLookup 64 = some (some (5, 4)) ∧
    sparse.hashLookup 80 = some (some (0, 4)) ∧ sparse.lookup 0 4 = none := by
  refine ⟨by decide, ?_, by decide, by decide⟩
  exact ((hashLookup_iff_lookup 4 HashTable.four_pos sparseOps sparseOps_meet sparse rfl
    64 5 4).mpr ⟨⟨⟨send, 1, 0⟩, 64, 0⟩, by decide, rfl, rfl⟩).1

end Space

end Uros.Ipc.GrowTable
