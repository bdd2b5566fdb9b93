import Mathlib.Algebra.Ring.Nat
import Mathlib.Logic.Function.Basic
import Mathlib.Tactic.Common

/-!
Name spaces (`ipc/ipc_space.h`, `ipc/ipc_entry.c`).

A space translates names into entries.  Entries of small index are in a table,
the others in a radix tree that is keyed by the index; both are maps from indices
here, and the chain of free table entries is a list.
-/

namespace Uros.Ipc

abbrev MachPort := UInt32

abbrev PortAddr := Nat

def machPortNull : MachPort := 0

def machPortDead : MachPort := 0xFFFFFFFF

def machPortValid (name : MachPort) : Bool := name ≠ machPortNull && name ≠ machPortDead

def machPortIndex (name : MachPort) : Nat := name.toNat / 256

def machPortGen (name : MachPort) : Nat := name.toNat % 256

def machPortMake (index gen : Nat) : MachPort := UInt32.ofNat (index * 256 + gen)

inductive EntryType where
  | none
  | send
  | receive
  | sendReceive
  | sendOnce
  | portSet
  | deadName
  deriving DecidableEq, Repr

inductive PortRight where
  | send
  | receive
  | sendOnce
  | portSet
  | deadName
  deriving DecidableEq, Repr

namespace EntryType

def has : EntryType → PortRight → Bool
  | send, .send | sendReceive, .send => true
  | receive, .receive | sendReceive, .receive => true
  | sendOnce, .sendOnce => true
  | portSet, .portSet => true
  | deadName, .deadName => true
  | _, _ => false

end EntryType

structure IpcEntry where
  gen : Nat
  type : EntryType
  urefs : Nat
  object : Option PortAddr
  request : Nat
  deriving DecidableEq, Repr

def IpcEntry.unused (gen : Nat) : IpcEntry := ⟨gen, .none, 0, none, 0⟩

def newGen (gen : Nat) : Nat := (gen + 4) % 256

structure TreeEntry where
  name : MachPort
  entry : IpcEntry
  deriving DecidableEq, Repr

inductive EntryRef where
  | table (index : Nat)
  | tree (index : Nat)
  deriving DecidableEq, Repr

structure IpcSpace where
  id : Nat
  active : Bool
  generation : UInt32
  tableSize : Nat
  table : Nat → IpcEntry
  free : List Nat
  tree : Nat → Option TreeEntry
  hash : PortAddr → Option (MachPort × EntryRef)

namespace IpcSpace

def read (s : IpcSpace) : EntryRef → IpcEntry
  | .table i => s.table i
  | .tree i => match s.tree i with
      | some t => t.entry
      | none => .unused 0

def write (s : IpcSpace) (e : IpcEntry) : EntryRef → IpcSpace
  | .table i => { s with table := Function.update s.table i e }
  | .tree i => { s with
      tree := Function.update s.tree i ((s.tree i).map fun t => { t with entry := e }) }

/-- `ipc_entry_lookup`; the radix tree is keyed by index alone, so the full name is
compared there. -/
def lookup (s : IpcSpace) (name : MachPort) : Option EntryRef :=
  let index := machPortIndex name
  if index < s.tableSize then
    if (s.table index).gen ≠ machPortGen name ∨ (s.table index).type = .none then none
    else some (.table index)
  else
    match s.tree index with
    | some t => if t.name = name then some (.tree index) else none
    | none => none

/-- Remove the entry of a name: its table slot goes back to the free chain, its tree
entry is deleted. -/
def release (s : IpcSpace) : EntryRef → IpcSpace
  | .table i => { s with
      table := Function.update s.table i (.unused (s.table i).gen), free := i :: s.free }
  | .tree i => { s with tree := Function.update s.tree i none }

variable {s : IpcSpace} {e : IpcEntry} {r r' : EntryRef} {name : MachPort} {i : Nat}

theorem lookup_table : s.lookup name = some (.table i) ↔
    machPortIndex name = i ∧ i < s.tableSize ∧ (s.table i).gen = machPortGen name ∧
      (s.table i).type ≠ .none := by
  simp only [lookup]
  split
  · rename_i hsize
    split
    · rename_i hbad
      simp only [reduceCtorEq, false_iff]
      rintro ⟨rfl, -, hgen, htype⟩
      exact hbad.elim (fun h => h hgen) htype
    · rename_i hok
      simp only [not_or, not_not] at hok
      constructor
      · intro h
        cases h
        exact ⟨rfl, hsize, hok⟩
      · rintro ⟨rfl, -⟩
        rfl
  · rename_i hsize
    have hno : ¬(machPortIndex name = i ∧ i < s.tableSize ∧
        (s.table i).gen = machPortGen name ∧ (s.table i).type ≠ .none) := by
      rintro ⟨rfl, hlt, -⟩
      exact hsize hlt
    simp only [hno, iff_false]
    split
    · split <;> simp
    · simp

theorem lookup_tree : s.lookup name = some (.tree i) ↔
    machPortIndex name = i ∧ ¬i < s.tableSize ∧ ∃ t, s.tree i = some t ∧ t.name = name := by
  simp only [lookup]
  split
  · rename_i hsize
    have hno : ¬(machPortIndex name = i ∧ ¬i < s.tableSize ∧
        ∃ t, s.tree i = some t ∧ t.name = name) := by
      rintro ⟨rfl, hlt, -⟩
      exact hlt hsize
    simp only [hno, iff_false]
    split <;> simp
  · rename_i hsize
    split
    · rename_i t ht
      split
      · rename_i hname
        constructor
        · intro h
          cases h
          exact ⟨rfl, hsize, t, ht, hname⟩
        · rintro ⟨rfl, -⟩
          rfl
      · rename_i hname
        simp only [reduceCtorEq, false_iff]
        rintro ⟨rfl, -, t', ht', hname'⟩
        cases ht.symm.trans ht'
        exact hname hname'
    · rename_i ht
      simp only [reduceCtorEq, false_iff]
      rintro ⟨rfl, -, t', ht', -⟩
      rw [ht] at ht'
      cases ht'

theorem lookup_write (hr : s.lookup name = some r')
    (hentry : r' = r → e.gen = (s.read r).gen ∧ e.type ≠ .none) :
    (s.write e r).lookup name = some r' := by
  cases r' with
  | table j =>
    obtain ⟨hindex, hsize, hgen', htype'⟩ := lookup_table.mp hr
    cases r with
    | table i =>
      by_cases hij : j = i
      · subst hij
        have hself : (s.write e (.table j)).table j = e := by simp [write]
        obtain ⟨hgen, htype⟩ := hentry rfl
        refine lookup_table.mpr ⟨hindex, hsize, ?_, ?_⟩
        · rw [hself, hgen]
          exact hgen'
        · rw [hself]
          exact htype
      · have hother : (s.write e (.table i)).table j = s.table j := by simp [write, hij]
        refine lookup_table.mpr ⟨hindex, hsize, ?_, ?_⟩
        · rw [hother, hgen']
        · rw [hother]
          exact htype'
    | tree i => exact lookup_table.mpr ⟨hindex, hsize, hgen', htype'⟩
  | tree j =>
    obtain ⟨hindex, hsize, t, ht, hname⟩ := lookup_tree.mp hr
    cases r with
    | table i => exact lookup_tree.mpr ⟨hindex, hsize, t, ht, hname⟩
    | tree i =>
      by_cases hij : j = i
      · subst hij
        refine lookup_tree.mpr ⟨hindex, hsize, { t with entry := e }, ?_, hname⟩
        simp [write, ht]
      · refine lookup_tree.mpr ⟨hindex, hsize, t, ?_, hname⟩
        simpa [write, hij] using ht

theorem read_release_of_ne (hne : r' ≠ r) : (s.release r).read r' = s.read r' := by
  cases r with
  | table i =>
    cases r' with
    | table j =>
      have hij : j ≠ i := fun h => hne (h ▸ rfl)
      exact Function.update_of_ne hij _ _
    | tree j => rfl
  | tree i =>
    cases r' with
    | table j => rfl
    | tree j =>
      have hij : j ≠ i := fun h => hne (h ▸ rfl)
      simp only [read, release, Function.update_of_ne hij]

theorem lookup_release_of_ne (hr : s.lookup name = some r') (hne : r' ≠ r) :
    (s.release r).lookup name = some r' := by
  cases r' with
  | table j =>
    obtain ⟨hindex, hsize, hentry⟩ := lookup_table.mp hr
    refine lookup_table.mpr ⟨hindex, ?_, ?_⟩
    · cases r <;> exact hsize
    · have hread : (s.release r).table j = s.table j := read_release_of_ne hne
      rwa [hread]
  | tree j =>
    obtain ⟨hindex, hsize, t, ht, hname⟩ := lookup_tree.mp hr
    cases r with
    | table i => exact lookup_tree.mpr ⟨hindex, hsize, t, ht, hname⟩
    | tree i =>
      have hij : j ≠ i := fun h => hne (h ▸ rfl)
      refine lookup_tree.mpr ⟨hindex, hsize, t, ?_, hname⟩
      simpa [release, hij] using ht

end IpcSpace

end Uros.Ipc
