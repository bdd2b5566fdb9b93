import Mathlib.Data.Int.Notation
import Mathlib.Tactic.Common

/-!
The write lock of a space around `ipc_entry_grow_table` (`ipc_entry.c`).

`ipc_entry_grow_table` is called with the space locked, gives the lock up while it allocates, and
has exits of its own for a table that grows already, is large enough, cannot be allocated or
belongs to a space that died.  The model keeps the tests that choose the exit and every lock
operation; what other threads and the allocator do meanwhile is an argument.
-/

namespace Uros.Ipc.GrowLock

inductive KernReturn where
  | success
  | noSpace
  | resourceShortage
  | invalidTask
  | nameExists
  | failure
  deriving DecidableEq, Repr

def isWriteLock : Bool → Option Bool
  | false => some true
  | true => none

def isWriteUnlock : Bool → Option Bool
  | true => some false
  | false => none

structure TableSizes where
  itsSize : ℕ → ℕ
  last : ℕ
  ends : itsSize (last + 1) = itsSize last

structure SpaceTable where
  sizes : TableSizes
  isGrowing : Bool
  next : ℕ
  next_pos : 0 < next
  next_le : next ≤ sizes.last + 1

structure GrowAnswers where
  allocated : Bool
  activeAfter : Bool
  activeAtEnd : Bool
  nextUnchanged : Bool
  deriving DecidableEq, Repr

def itsSizeNone : ℤ := -1

def toNatural (target : ℤ) : ℕ := (target % 4294967296).toNat

def SpaceTable.osize (s : SpaceTable) : ℕ := s.sizes.itsSize (s.next - 1)

def seekSize (t : TableSizes) (target : ℕ) : ℕ → ℕ → ℕ → Option (ℕ × ℕ)
  | 0, _, _ => none
  | fuel + 1, psize, its =>
    if psize ≠ t.itsSize its ∧ t.itsSize its < target then
      seekSize t target fuel (t.itsSize its) (its + 1)
    else some (psize, its)

def growTo (a : GrowAnswers) (held : Bool) : Option (KernReturn × Bool) := do
  let held ← isWriteUnlock held
  let held ← isWriteLock held
  if !a.allocated then
    let held ← isWriteUnlock held
    return (.resourceShortage, held)
  if !a.activeAfter then
    let held ← isWriteUnlock held
    let held ← isWriteLock held
    return (.success, held)
  -- the table is replaced and filled; then the old one is freed unlocked
  let held ← isWriteUnlock held
  let held ← isWriteLock held
  if !a.activeAtEnd || !a.nextUnchanged then return (.success, held)
  return (.success, held)

def growIfLarger (s : SpaceTable) (its : ℕ) (a : GrowAnswers) (held : Bool) :
    Option (KernReturn × Bool) := do
  if s.osize = s.sizes.itsSize its then
    let held ← isWriteUnlock held
    return (.noSpace, held)
  growTo a held

def ipcEntryGrowTable (s : SpaceTable) (target : ℤ) (a : GrowAnswers) (held : Bool) :
    Option (KernReturn × Bool) := do
  if s.isGrowing then
    let held ← isWriteUnlock held
    let held ← isWriteLock held
    return (.success, held)
  if target ≠ itsSizeNone then
    if toNatural target ≤ s.osize then
      let held ← isWriteUnlock held
      return (.success, held)
    let (psize, its) ← seekSize s.sizes (toNatural target) (s.sizes.last + 2) s.osize s.next
    if psize = s.sizes.itsSize its then
      let held ← isWriteUnlock held
      return (.noSpace, held)
    growIfLarger s its a held
  else growIfLarger s s.next a held

def taskSetPortSpace (s : SpaceTable) (entries : ℤ) (a : GrowAnswers) (held : Bool) :
    Option (KernReturn × Bool) := do
  let held ← isWriteLock held
  let (kr, held) ← ipcEntryGrowTable s entries a held
  if kr = .success then
    let held ← isWriteUnlock held
    return (kr, held)
  return (kr, held)

structure AllocTurn where
  isActive : Bool
  found : Bool
  space : SpaceTable
  answers : GrowAnswers

/-- The loop of `ipc_entry_alloc`; the inner `none` is a loop that has not ended after these
turns. -/
def allocLoop : List AllocTurn → Bool → Option (Option (KernReturn × Bool))
  | [], _ => some none
  | turn :: turns, held => do
    if !turn.isActive then
      let held ← isWriteUnlock held
      return some (.invalidTask, held)
    if turn.found then return some (.success, held)
    let (kr, held) ← ipcEntryGrowTable turn.space itsSizeNone turn.answers held
    if kr ≠ .success then return some (kr, held)
    allocLoop turns held

def ipcEntryAlloc (turns : List AllocTurn) (held : Bool) : Option (Option (KernReturn × Bool)) := do
  let held ← isWriteLock held
  allocLoop turns held

inductive NameFound where
  | tableSame
  | tableOther
  | tableFree
  | treeSame
  | treeOther
  | absent
  deriving DecidableEq, Repr

/-- What one turn of the loop of `ipc_entry_alloc_name` finds; `allocated` is whether the tree
entry and the nodes could be allocated. -/
structure NameTurn where
  isActive : Bool
  found : NameFound
  isFast : Bool
  allocated : Bool
  deriving DecidableEq, Repr

def allocNameLoop : List NameTurn → Bool → Bool → Option (Option (KernReturn × Bool))
  | [], _, _ => some none
  | turn :: turns, prepared, held => do
    if !turn.isActive then
      let held ← isWriteUnlock held
      return some (.invalidTask, held)
    match turn.found with
    | .tableSame | .tableFree => return some (.success, held)
    | .tableOther =>
      let held ← isWriteUnlock held
      return some (.nameExists, held)
    | .treeSame | .treeOther | .absent =>
      if turn.isFast then
        let held ← isWriteUnlock held
        return some (.failure, held)
      if turn.found = .treeSame then return some (.success, held)
      if turn.found = .treeOther then
        let held ← isWriteUnlock held
        return some (.nameExists, held)
      if prepared then return some (.success, held)
      let held ← isWriteUnlock held
      if !turn.allocated then return some (.resourceShortage, held)
      let held ← isWriteLock held
      allocNameLoop turns true held

def ipcEntryAllocName (turns : List NameTurn) (held : Bool) :
    Option (Option (KernReturn × Bool)) := do
  let held ← isWriteLock held
  allocNameLoop turns false held

def Disciplined (r : Option (KernReturn × Bool)) : Prop :=
  ∃ kr held, r = some (kr, held) ∧ (held = true ↔ kr = .success)

variable {s : SpaceTable} {target : ℤ} {a : GrowAnswers}

theorem disciplined_pure {kr : KernReturn} {held : Bool} (h : held = true ↔ kr = .success) :
    Disciplined (some (kr, held)) := ⟨kr, held, rfl, h⟩

theorem seekSize_isSome {t : TableSizes} {n fuel psize its : ℕ} (hle : its ≤ t.last + 1)
    (hlast : its = t.last + 1 → psize = t.itsSize t.last) (hfuel : t.last + 1 < its + fuel) :
    (seekSize t n fuel psize its).isSome := by
  induction fuel generalizing psize its with
  | zero => omega
  | succ fuel ih =>
    unfold seekSize
    split
    · rename_i hgo
      have hne : its ≠ t.last + 1 := by
        rintro rfl
        exact hgo.1 ((hlast rfl).trans t.ends.symm)
      refine ih (by omega) (fun hnext => ?_) (by omega)
      rw [show its = t.last by omega]
    · rfl

theorem SpaceTable.seek_isSome (s : SpaceTable) (n : ℕ) :
    (seekSize s.sizes n (s.sizes.last + 2) s.osize s.next).isSome := by
  refine seekSize_isSome s.next_le (fun hnext => ?_) (by have := s.next_pos; omega)
  rw [SpaceTable.osize, hnext, Nat.add_sub_cancel]

theorem growTo_disciplined : Disciplined (growTo a true) := by
  obtain ⟨allocated, active, activeAtEnd, unchanged⟩ := a
  cases allocated <;> cases active <;> cases activeAtEnd <;> cases unchanged <;>
    exact disciplined_pure (by simp)

theorem growIfLarger_disciplined (its : ℕ) : Disciplined (growIfLarger s its a true) := by
  unfold growIfLarger
  split
  · exact disciplined_pure (by simp)
  · exact growTo_disciplined

theorem growTable_disciplined
    (h : s.isGrowing = true ∨ target = itsSizeNone ∨ s.osize < toNatural target) :
    Disciplined (ipcEntryGrowTable s target a true) := by
  unfold ipcEntryGrowTable
  split
  · exact disciplined_pure (by simp)
  · rename_i hgrow
    split
    · rename_i htarget
      have hlt : s.osize < toNatural target := (h.resolve_left hgrow).resolve_left htarget
      rw [if_neg (by omega)]
      obtain ⟨⟨psize, its⟩, hseek⟩ := Option.isSome_iff_exists.mp (s.seek_isSome (toNatural target))
      simp only [hseek, Option.bind_eq_bind, Option.bind_some]
      split
      · exact disciplined_pure (by simp)
      · exact growIfLarger_disciplined its
    · exact growIfLarger_disciplined s.next

theorem growTable_large (hgrow : s.isGrowing = false) (htarget : target ≠ itsSizeNone)
    (hle : toNatural target ≤ s.osize) :
    ipcEntryGrowTable s target a true = some (.success, false) := by
  simp [ipcEntryGrowTable, hgrow, htarget, hle, isWriteUnlock]

def LoopDisciplined (r : Option (Option (KernReturn × Bool))) : Prop :=
  r = some none ∨ ∃ kr held, r = some (some (kr, held)) ∧ (held = true ↔ kr = .success)

theorem allocLoop_disciplined (turns : List AllocTurn) :
    LoopDisciplined (allocLoop turns true) := by
  induction turns with
  | nil => exact .inl rfl
  | cons turn turns ih =>
    unfold allocLoop
    split
    · exact .inr ⟨.invalidTask, false, rfl, by simp⟩
    split
    · exact .inr ⟨.success, true, rfl, by simp⟩
    obtain ⟨kr, held, heq, hiff⟩ :=
      growTable_disciplined (s := turn.space) (a := turn.answers) (.inr (.inl rfl))
    simp only [heq, Option.bind_eq_bind, Option.bind_some]
    split
    · exact .inr ⟨kr, held, rfl, hiff⟩
    · rename_i hkr
      rw [hiff.mpr (not_not.mp hkr)]
      exact ih

theorem allocNameLoop_disciplined (turns : List NameTurn) (prepared : Bool) :
    LoopDisciplined (allocNameLoop turns prepared true) := by
  induction turns generalizing prepared with
  | nil => exact .inl rfl
  | cons turn turns ih =>
    obtain ⟨active, found, fast, allocated⟩ := turn
    cases active
    · exact .inr ⟨.invalidTask, false, rfl, by simp⟩
    -- only an absent name with the memory allocated leads to another turn
    cases found <;> cases fast <;> cases prepared <;> cases allocated <;>
      first
        | exact .inr ⟨_, _, rfl, by simp⟩
        | exact ih true

theorem taskSetPortSpace_released (h : Disciplined (ipcEntryGrowTable s target a true)) :
    ∃ kr, taskSetPortSpace s target a false = some (kr, false) := by
  obtain ⟨kr, held, heq, hiff⟩ := h
  refine ⟨kr, ?_⟩
  simp only [taskSetPortSpace, isWriteLock, heq, Option.bind_eq_bind, Option.bind_some]
  split
  · rename_i hkr
    rw [hiff.mpr hkr]
    rfl
  · rename_i hkr
    rw [Bool.eq_false_iff.mpr (mt hiff.mp hkr)]
    rfl

/-- Exactly when the table is growing already, no size is asked for, or the size asked for is
larger than the table, `ipc_entry_grow_table` leaves the lock as its code says and
`task_set_port_space` releases what it took.  `ipc_entry_alloc` and `ipc_entry_alloc_name` never
release a lock they do not hold, and end with it exactly on success. -/
theorem growTable_lock_discipline (s : SpaceTable) (target : ℤ) (a : GrowAnswers) :
    (Disciplined (ipcEntryGrowTable s target a true) ↔
      s.isGrowing = true ∨ target = itsSizeNone ∨ s.osize < toNatural target) ∧
    ((∃ kr, taskSetPortSpace s target a false = some (kr, false)) ↔
      s.isGrowing = true ∨ target = itsSizeNone ∨ s.osize < toNatural target) ∧
    (∀ turns, LoopDisciplined (ipcEntryAlloc turns false)) ∧
    ∀ turns, LoopDisciplined (ipcEntryAllocName turns false) := by
  have hlarge : ¬ (s.isGrowing = true ∨ target = itsSizeNone ∨ s.osize < toNatural target) →
      ipcEntryGrowTable s target a true = some (.success, false) := fun hnot => by
    simp only [not_or, Nat.not_lt, Bool.not_eq_true] at hnot
    exact growTable_large hnot.1 hnot.2.1 hnot.2.2
  refine ⟨⟨fun hdis => ?_, growTable_disciplined⟩,
    ⟨fun hret => ?_, fun h => taskSetPortSpace_released (growTable_disciplined h)⟩,
    allocLoop_disciplined, fun turns => allocNameLoop_disciplined turns false⟩
  · by_contra hnot
    obtain ⟨kr, held, heq, hiff⟩ := hdis
    obtain ⟨rfl, rfl⟩ := Prod.mk.inj (Option.some.inj ((hlarge hnot).symm.trans heq))
    exact Bool.noConfusion (hiff.mpr rfl)
  · by_contra hnot
    obtain ⟨kr, hret⟩ := hret
    simp [taskSetPortSpace, isWriteLock, hlarge hnot, isWriteUnlock] at hret

theorem smallSizes_ends : (fun i => if i ≤ 1 then 4 * (i + 1) else 8) (1 + 1) = (8 : ℕ) := rfl

def smallSizes : TableSizes := ⟨fun i => if i ≤ 1 then 4 * (i + 1) else 8, 1, smallSizes_ends⟩

theorem smallSpace_next_pos : 0 < 1 := Nat.one_pos

theorem smallSpace_next_le : 1 ≤ smallSizes.last + 1 := by decide

def smallSpace : SpaceTable := ⟨smallSizes, false, 1, smallSpace_next_pos, smallSpace_next_le⟩

/-- The size the table has is asked for: success is returned without the lock, and
`task_set_port_space` then releases a lock it does not hold. -/
theorem growTable_unlocked_success :
    smallSpace.osize = 4 ∧
      ipcEntryGrowTable smallSpace 4 ⟨true, true, true, true⟩ true = some (.success, false) ∧
      taskSetPortSpace smallSpace 4 ⟨true, true, true, true⟩ false = none := by
  refine ⟨rfl, ?_, ?_⟩ <;> decide

end Uros.Ipc.GrowLock
