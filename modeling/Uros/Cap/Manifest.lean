import Uros.Cap.Types

/-!
Capability manifests (`uapi/mach/cap_manifest.h`, `cap_server/cap_manifest_table.c`).

A manifest is a byte blob with a fixed header; the table keeps at most one
validated blob for each per-task receive port.
-/

namespace Uros.Cap

open Uros.Foundation

abbrev MachPort := UInt32

def machPortNull : MachPort := 0

def u16At (blob : Bytes) (offset : Nat) : Nat := leNat ((blob.drop offset).take 2)

def u32At (blob : Bytes) (offset : Nat) : UInt32 :=
  UInt32.ofNat (leNat ((blob.drop offset).take 4))

def u64At (blob : Bytes) (offset : Nat) : UInt64 :=
  UInt64.ofNat (leNat ((blob.drop offset).take 8))

def capManifestMagic : UInt32 := 0x464D4355

def capManifestVersion : Nat := 1

def capManifestMaxBytes : Nat := 16 * 1024

def capManifestMaxName : Nat := 64

def capManifestMaxEntries : Nat := 64

def capManifestTableSize : Nat := 64

def manifestHeaderSize : Nat := 48

def manifestEntrySize : Nat := 16

structure ManifestHeader where
  magic : UInt32
  version : Nat
  headerSize : Nat
  totalSize : Nat
  flags : UInt32
  nameOffset : Nat
  nameLength : Nat
  requiredOffset : Nat
  requiredCount : Nat
  delegatableOffset : Nat
  delegatableCount : Nat

def manifestHeader (blob : Bytes) : ManifestHeader where
  magic := u32At blob 0
  version := u16At blob 4
  headerSize := u16At blob 6
  totalSize := (u32At blob 8).toNat
  flags := u32At blob 12
  nameOffset := (u32At blob 16).toNat
  nameLength := (u32At blob 20).toNat
  requiredOffset := (u32At blob 24).toNat
  requiredCount := (u32At blob 28).toNat
  delegatableOffset := (u32At blob 32).toNat
  delegatableCount := (u32At blob 36).toNat

def rangeOk (off len total : Nat) : Bool := off ≤ total && len ≤ total - off

def capManifestValidate (blob : Bytes) : CapReturn :=
  let h := manifestHeader blob
  if blob.length < manifestHeaderSize then .manifestInvalid
  else if capManifestMaxBytes < blob.length then .manifestInvalid
  else if h.magic ≠ capManifestMagic then .manifestInvalid
  else if h.version ≠ capManifestVersion then .manifestInvalid
  else if h.headerSize < manifestHeaderSize then .manifestInvalid
  else if h.totalSize ≠ blob.length then .manifestInvalid
  else if h.flags ≠ 0 then .manifestInvalid
  else if capManifestMaxEntries < h.requiredCount then .manifestInvalid
  else if capManifestMaxEntries < h.delegatableCount then .manifestInvalid
  else if !rangeOk h.requiredOffset (h.requiredCount * manifestEntrySize) blob.length then
    .manifestInvalid
  else if !rangeOk h.delegatableOffset (h.delegatableCount * manifestEntrySize)
      blob.length then
    .manifestInvalid
  else if h.nameLength = 0 || capManifestMaxName < h.nameLength then .manifestInvalid
  else if !rangeOk h.nameOffset h.nameLength blob.length then .manifestInvalid
  else if blob.getD (h.nameOffset + h.nameLength - 1) 0 ≠ 0 then .manifestInvalid
  else .success

structure ManifestEntry where
  type : UInt32
  ops : UInt64
  deriving DecidableEq, Repr

def requiredEntries (blob : Bytes) : List ManifestEntry :=
  let h := manifestHeader blob
  (List.range h.requiredCount).map fun i =>
    let start := h.requiredOffset + i * manifestEntrySize
    ⟨u32At blob start, u64At blob (start + 8)⟩

def capManifestAllows (manifest : Option Bytes) (type : UInt32) (ops : UInt64) : Bool :=
  match manifest with
  | none => true
  | some blob =>
    (requiredEntries blob).any fun req => req.type == type && ops &&& ~~~req.ops == 0

structure ManifestSlot where
  port : MachPort
  blob : Bytes
  deriving DecidableEq

abbrev ManifestTable := Vector (Option ManifestSlot) capManifestTableSize

def capManifestTableInit : ManifestTable := Vector.replicate capManifestTableSize none

/-- Install a blob; `mem` is the answer of `malloc`.  A slot that already serves
the port is emptied before the copy is allocated. -/
def capManifestTableInstall (table : ManifestTable) (port : MachPort) (blob : Bytes)
    (mem : Bool) : CapReturn × ManifestTable :=
  let same := (List.finRange capManifestTableSize).find? fun i =>
    table[i].any fun slot => slot.port = port
  let free := (List.finRange capManifestTableSize).find? fun i => table[i].isNone
  match same.orElse fun _ => free with
  | none => (.noManifestSlot, table)
  | some i =>
    if mem then (.success, table.set i (some ⟨port, blob⟩))
    else (.noMemory, table.set i none)

def capManifestTableGet (table : ManifestTable) (port : MachPort) : Option Bytes :=
  (table.toList.findSome? fun slot =>
    slot.bind fun slot => if slot.port = port then some slot.blob else none)

variable {table table' : ManifestTable} {port port' : MachPort} {blob : Bytes} {mem : Bool}

def blobFor (port : MachPort) (slot : Option ManifestSlot) : Option Bytes :=
  slot.bind fun slot => if slot.port = port then some slot.blob else none

theorem capManifestTableGet_eq :
    capManifestTableGet table port =
      (List.finRange capManifestTableSize).findSome? fun i => blobFor port table[i] := by
  have hlist : table.toList = (List.finRange capManifestTableSize).map fun i => table[i] := by
    apply List.ext_getElem
    · simp
    · intro i h₁ h₂
      simp
  rw [capManifestTableGet, hlist, List.findSome?_map]
  rfl

theorem eq_some_of_orElse {α : Type} {a b : Option α} {x : α}
    (h : (a.orElse fun _ => b) = some x) : a = some x ∨ a = none ∧ b = some x := by
  cases a with
  | none => exact .inr ⟨rfl, h⟩
  | some y => exact .inl h

theorem capManifestTableInstall_slot {kr : CapReturn}
    (h : capManifestTableInstall table port blob mem = (kr, table')) :
    table' = table ∨ ∃ i : Fin capManifestTableSize, ∃ slot : Option ManifestSlot,
      table' = table.set i slot ∧ (∀ p, p ≠ port → blobFor p table[i] = none) ∧
      (∀ p, p ≠ port → blobFor p slot = none) := by
  unfold capManifestTableInstall at h
  dsimp only at h
  split at h
  · exact .inl (congrArg Prod.snd h).symm
  · rename_i i hi
    have hslot : ∀ p, p ≠ port → blobFor p table[i] = none := by
      intro p hp
      rcases eq_some_of_orElse hi with hsame | ⟨-, hfree⟩
      · have hsame := List.find?_some hsame
        cases hslot : table[i] with
        | none => rfl
        | some slot =>
          have hport : slot.port = port := by simpa [hslot] using hsame
          simp [blobFor, hport, Ne.symm hp]
      · have := List.find?_some hfree
        simp [blobFor, Option.isNone_iff_eq_none.mp this]
    split at h
    · refine .inr ⟨i, some ⟨port, blob⟩, (congrArg Prod.snd h).symm, hslot, fun p hp => ?_⟩
      simp [blobFor, Ne.symm hp]
    · exact .inr ⟨i, none, (congrArg Prod.snd h).symm, hslot, fun _ _ => rfl⟩

theorem capManifestTableGet_install_of_ne {kr : CapReturn}
    (h : capManifestTableInstall table port blob mem = (kr, table')) (hne : port' ≠ port) :
    capManifestTableGet table' port' = capManifestTableGet table port' := by
  rcases capManifestTableInstall_slot h with rfl | ⟨i, slot, rfl, hold, hnew⟩
  · rfl
  · rw [capManifestTableGet_eq, capManifestTableGet_eq]
    congr 1
    funext j
    by_cases hij : i = j
    · subst hij
      have hold := hold port' hne
      simp_all
    · have hval : (i : Nat) ≠ j := fun heq => hij (Fin.ext heq)
      simp [Vector.getElem_set_ne _ _ hval]

theorem capManifestTableGet_install
    (h : capManifestTableInstall table port blob mem = (.success, table')) :
    capManifestTableGet table' port = some blob := by
  unfold capManifestTableInstall at h
  dsimp only at h
  split at h
  · simp at h
  · rename_i i hi
    split at h
    · have htable : table.set i (some ⟨port, blob⟩) = table' := congrArg Prod.snd h
      -- no slot before the chosen one serves the port
      have hfirst : ∃ before after, List.finRange capManifestTableSize = before ++ i :: after ∧
          ∀ j ∈ before, blobFor port table[j] = none := by
        rcases eq_some_of_orElse hi with hsame | ⟨hnone, hfree⟩
        · obtain ⟨-, before, after, hsplit, hno⟩ := List.find?_eq_some_iff_append.mp hsame
          refine ⟨before, after, hsplit, fun j hj => ?_⟩
          have := hno j hj
          cases hslot : table[j] with
          | none => rfl
          | some slot => simp_all [blobFor]
        · obtain ⟨-, before, after, hsplit, -⟩ := List.find?_eq_some_iff_append.mp hfree
          refine ⟨before, after, hsplit, fun j _ => ?_⟩
          have := List.find?_eq_none.mp hnone j (List.mem_finRange j)
          cases hslot : table[j] with
          | none => rfl
          | some slot => simp_all [blobFor]
      obtain ⟨before, after, hsplit, hno⟩ := hfirst
      have hnodup := List.nodup_finRange capManifestTableSize
      rw [hsplit] at hnodup
      rw [capManifestTableGet_eq, List.findSome?_eq_some_iff]
      refine ⟨before, i, after, hsplit, ?_, fun j hj => ?_⟩
      · rw [← htable]
        simp [blobFor]
      · have hij : (i : Nat) ≠ j := by
          intro heq
          have hmem : i ∈ before := (Fin.ext heq : i = j) ▸ hj
          exact (List.nodup_append.mp hnodup).2.2 i hmem i (List.mem_cons_self ..) rfl
        rw [← htable]
        simpa [Vector.getElem_set_ne _ _ hij] using hno j hj
    · simp at h

variable {kr : CapReturn}

theorem blobFor_eq_none {slot : Option ManifestSlot} :
    blobFor port slot = none ↔ ∀ a, slot = some a → a.port ≠ port := by
  cases slot <;> simp [blobFor]

theorem capManifestTableGet_eq_none :
    capManifestTableGet table port = none ↔
      ∀ (i : Fin capManifestTableSize) (a : ManifestSlot), table.get i = some a → a.port ≠ port := by
  rw [capManifestTableGet_eq, List.findSome?_eq_none_iff]
  simp only [List.mem_finRange, true_implies, blobFor_eq_none]
  exact Iff.rfl

theorem capManifestTableInstall_cases
    (h : capManifestTableInstall table port blob mem = (kr, table')) :
    (kr = .noManifestSlot ∧ table' = table) ∨
      ∃ i : Fin capManifestTableSize,
        ((∃ a, table.get i = some a ∧ a.port = port) ∨
          table.get i = none ∧ capManifestTableGet table port = none) ∧
        (mem = true ∧ kr = .success ∧ table' = table.set i (some ⟨port, blob⟩) ∨
          mem = false ∧ kr = .noMemory ∧ table' = table.set i none) := by
  unfold capManifestTableInstall at h
  dsimp only at h
  split at h
  · exact .inl ⟨(congrArg Prod.fst h).symm, (congrArg Prod.snd h).symm⟩
  · rename_i i hi
    refine .inr ⟨i, ?_, ?_⟩
    · rcases eq_some_of_orElse hi with hsame | ⟨hnone, hfree⟩
      · have hsame := List.find?_some hsame
        obtain ⟨a, ha, hport⟩ := (Option.any_eq_true _ _).mp hsame
        exact .inl ⟨a, ha, by simpa using hport⟩
      · have hfree := List.find?_some hfree
        refine .inr ⟨Option.isNone_iff_eq_none.mp hfree, ?_⟩
        rw [capManifestTableGet_eq_none]
        intro j a ha
        have ha : table[j] = some a := ha
        have := List.find?_eq_none.mp hnone j (List.mem_finRange j)
        simpa [ha] using this
    · cases mem with
      | true => exact .inl ⟨rfl, (congrArg Prod.fst h).symm, (congrArg Prod.snd h).symm⟩
      | false => exact .inr ⟨rfl, (congrArg Prod.fst h).symm, (congrArg Prod.snd h).symm⟩

theorem getElem_set_fin (table : ManifestTable) (i j : Fin capManifestTableSize)
    (slot : Option ManifestSlot) :
    (table.set i slot).get j = if i = j then slot else table.get j := by
  show (table.set i slot)[j] = if i = j then slot else table[j]
  by_cases hij : i = j
  · subst hij
    simp
  · have hval : (i : Nat) ≠ j := fun heq => hij (Fin.ext heq)
    simp [Vector.getElem_set_ne _ _ hval, hij]

end Uros.Cap
