import Mathlib.Algebra.Ring.Nat
import Uros.Foundation.Bytes
import Uros.Foundation.SlotTable
import Uros.Foundation.Transition

/-!
The lifetime of mappings: `vfs_mmap` of `ext_server.c` and the table of `libfspager.c`.

A mapping owns a clone of the open file, which holds a reference to the vnode, an entry of the
pager table and the receive right of the memory object.  The `file_id` of an entry is the address
of the clone; the clone stands in the entry here.
-/

namespace Uros.Ext2.Mapping

open Uros.Foundation

structure Clone where
  addr : ℕ
  vnode : ℕ

structure Entry where
  memObj : Option ℕ
  control : Option ℕ
  file : Clone
  initialised : Bool

def maxEntries : ℕ := 64

structure State where
  portSet : Bool
  table : SlotTable maxEntries Entry
  refs : ℕ → ℕ
  ports : ℕ → Bool

structure CreateLuck where
  port : Option ℕ
  inserted : Bool
  moved : Bool

structure RequestLuck where
  allocated : Bool
  page : Option Bytes
  supplied : Bool

section

variable (s : State)

def holdPort (p : ℕ) : State := { s with ports := Function.update s.ports p true }

def destroyPort (p : ℕ) : State := { s with ports := Function.update s.ports p false }

def setEntry (i : Fin maxEntries) (e : Option Entry) : State :=
  { s with table := Function.update s.table i e }

def fsPagerCreate (file : Clone) (luck : CreateLuck) : State × Option ℕ :=
  if s.portSet = false then (s, none)
  else
    match s.table.freeSlot with
    | none => (s, none)
    | some i =>
      let s := setEntry s i (some ⟨none, none, ⟨0, 0⟩, false⟩)
      match luck.port with
      | none => (setEntry s i none, none)
      | some p =>
        let s := holdPort s p
        if luck.inserted = false then (setEntry (destroyPort s p) i none, none)
        else if luck.moved = false then (setEntry (destroyPort s p) i none, none)
        else (setEntry s i (some ⟨some p, none, file, false⟩), some p)

def vfsMmap (vnode clone : Option ℕ) (luck : CreateLuck) : State × Option ℕ :=
  match vnode with
  | none => (s, none)
  | some v =>
    match clone with
    | none => (s, none)
    | some addr =>
      -- ext2fs_clone_file; if no pager can be made, only the memory of the clone is given back
      let s := { s with refs := Function.update s.refs v (s.refs v + 1) }
      fsPagerCreate s ⟨addr, v⟩ luck

def lookup (memObj : ℕ) : Option (Fin maxEntries × Entry) :=
  s.table.find fun e => e.memObj = some memObj

def memoryObjectInit (memObj control : ℕ) : State :=
  let s := holdPort s control
  match lookup s memObj with
  | none => destroyPort s control
  | some (i, e) =>
    if e.initialised then destroyPort s control
    else setEntry s i (some { e with control := some control, initialised := true })

def closeFile (file : Clone) : State :=
  { s with refs := Function.update s.refs file.vnode (s.refs file.vnode - 1) }

def memoryObjectTerminate (memObj : ℕ) (control : Option ℕ) : State :=
  let s :=
    match lookup s memObj with
    | none => s
    | some (i, e) => closeFile (setEntry s i none) e.file
  let s :=
    match control with
    | none => s
    | some c => destroyPort s c
  destroyPort s memObj

def fsPagerDestroy (fileId : ℕ) : State :=
  match s.table.find fun e => e.file.addr = fileId with
  | none => s
  | some (i, e) =>
    let s := setEntry s i none
    match e.memObj with
    | none => s
    | some p => destroyPort s p

def dataRequest (memObj length : ℕ) (luck : RequestLuck) : Option Bytes :=
  match lookup s memObj with
  | none => none
  | some _ =>
    if luck.allocated = false then none
    else
      let data := luck.page.getD (List.replicate length 0)
      if luck.supplied then some data else none

end

inductive Event where
  | mmap (vnode clone : Option ℕ) (luck : CreateLuck)
  | init (memObj control : ℕ)
  | terminate (memObj : ℕ) (control : Option ℕ)
  | destroy (fileId : ℕ)
  | dataRequest (memObj length : ℕ) (luck : RequestLuck)

def step (s : State) : Event → Option State
  | .mmap vnode clone luck => some (vfsMmap s vnode clone luck).1
  | .init memObj control => some (memoryObjectInit s memObj control)
  | .terminate memObj control => some (memoryObjectTerminate s memObj control)
  | .destroy fileId => some (fsPagerDestroy s fileId)
  | .dataRequest _ _ _ => some s

def initial (portSet : Bool) (ports : ℕ → Bool) :
    State := ⟨portSet, fun _ => none, fun _ => 0, ports⟩

def Room (s : State) (luck : CreateLuck) : Prop :=
  s.portSet = true ∧ s.table.freeSlot.isSome = true ∧ luck.port.isSome = true ∧
    luck.inserted = true ∧ luck.moved = true

def Proper (s : State) : Event → Prop
  | .mmap vnode clone luck => vnode = none ∨ clone = none ∨ Room s luck
  | .destroy fileId => (s.table.find fun e => e.file.addr = fileId).isNone = true
  | _ => True

instance decidableProper (s : State) : (e : Event) → Decidable (Proper s e)
  | .mmap vnode clone luck => by
    unfold Proper Room
    infer_instance
  | .init _ _ => .isTrue trivial
  | .terminate _ _ => .isTrue trivial
  | .destroy fileId => by
    unfold Proper
    infer_instance
  | .dataRequest _ _ _ => .isTrue trivial

def entriesOf (t : SlotTable maxEntries Entry) (v : ℕ) : ℕ := t.count fun e => e.file.vnode = v

def Balanced (s : State) : Prop := ∀ v, s.refs v = entriesOf s.table v

variable {s : State} {t : SlotTable maxEntries Entry} {i : Fin maxEntries} {e : Entry} {v : ℕ}

theorem entriesOf_insert (hi : t i = none) :
    entriesOf (Function.update t i (some e)) v =
      entriesOf t v + if e.file.vnode = v then 1 else 0 := by
  simp only [entriesOf, SlotTable.count_insert hi, decide_eq_true_eq]

theorem entriesOf_remove (hi : t i = some e) :
    entriesOf t v = entriesOf (Function.update t i none) v + if e.file.vnode = v then 1 else 0 := by
  simp only [entriesOf, SlotTable.count_remove hi, decide_eq_true_eq]

theorem entriesOf_replace {e' : Entry} (hi : t i = some e) (hfile : e'.file = e.file) :
    entriesOf (Function.update t i (some e')) v = entriesOf t v := by
  refine SlotTable.count_congr fun j => ?_
  by_cases hj : j = i
  · subst hj
    simp [hi, hfile]
  · rw [Function.update_of_ne hj]

theorem fsPagerCreate_room (file : Clone) {luck : CreateLuck} (h : Room s luck) :
    ∃ i p, s.table i = none ∧ luck.port = some p ∧ fsPagerCreate s file luck =
      ({ s with
        table := Function.update s.table i (some ⟨some p, none, file, false⟩)
        ports := Function.update s.ports p true }, some p) := by
  obtain ⟨hset, hfree, hport, hinserted, hmoved⟩ := h
  obtain ⟨i, hi⟩ := Option.isSome_iff_exists.mp hfree
  obtain ⟨p, hp⟩ := Option.isSome_iff_exists.mp hport
  refine ⟨i, p, SlotTable.freeSlot_some hi, hp, ?_⟩
  simp [fsPagerCreate, hset, hi, hp, hinserted, hmoved, setEntry, holdPort]

theorem fsPagerCreate_no_room (file : Clone) {luck : CreateLuck} (h : ¬Room s luck)
    (hfresh : ∀ p, luck.port = some p → s.ports p = false) :
    fsPagerCreate s file luck = (s, none) := by
  unfold fsPagerCreate
  split
  · rfl
  · next hset =>
    cases hfree : s.table.freeSlot with
    | none => rfl
    | some i =>
      have hnone := SlotTable.freeSlot_some hfree
      have hback : Function.update s.table i none = s.table := by
        rw [← hnone, Function.update_eq_self]
      cases hport : luck.port with
      | none => simp [setEntry, Function.update_idem, hback]
      | some p =>
        have hports : Function.update s.ports p false = s.ports := by
          rw [← hfresh p hport, Function.update_eq_self]
        have hundo : setEntry
          (destroyPort (holdPort (setEntry s i (some ⟨none, none, ⟨0, 0⟩, false⟩))
            p) p) i none = s := by
          simp [setEntry, destroyPort, holdPort, Function.update_idem, hback, hports]
        dsimp only
        split
        · rw [hundo]
        · split
          · rw [hundo]
          · next hinserted hmoved =>
            exact absurd ⟨by simpa using hset, by simp [hfree], by simp [hport],
              by simpa using hinserted, by simpa using hmoved⟩ h

theorem Balanced.mmap {vnode clone : Option ℕ} {luck : CreateLuck} (hs : Balanced s)
    (h : Proper s (.mmap vnode clone luck)) : Balanced (vfsMmap s vnode clone luck).1 := by
  cases vnode with
  | none => exact hs
  | some w =>
    cases clone with
    | none => exact hs
    | some addr =>
      have hroom : Room { s with refs := Function.update s.refs w (s.refs w + 1) } luck := by
        rcases h with h | h | h
        · cases h
        · cases h
        · exact h
      obtain ⟨i, p, hi, -, hcreate⟩ := fsPagerCreate_room ⟨addr, w⟩ hroom
      intro v
      dsimp only [vfsMmap]
      rw [hcreate, entriesOf_insert hi]
      dsimp only
      rw [← hs v]
      by_cases hv : w = v
      · subst hv
        simp
      · simp [hv, Ne.symm hv]

theorem Balanced.terminate (hs : Balanced s) (memObj : ℕ) (control : Option ℕ) :
    Balanced (memoryObjectTerminate s memObj control) := by
  have hentry : Balanced (match lookup s memObj with
      | none => s
      | some (i, e) => closeFile (setEntry s i none) e.file) := by
    cases hfound : lookup s memObj with
    | none => exact hs
    | some found =>
      obtain ⟨i, e⟩ := found
      intro v
      have hcount := hs v
      rw [entriesOf_remove (SlotTable.find_some hfound).1] at hcount
      by_cases hv : e.file.vnode = v
      · subst hv
        rw [if_pos rfl] at hcount
        simp [closeFile, setEntry, hcount]
      · rw [if_neg hv] at hcount
        simpa [closeFile, setEntry, Ne.symm hv] using hcount
  cases control with
  | none => exact hentry
  | some c => exact hentry

theorem Balanced.init (hs : Balanced s) (memObj control : ℕ) :
    Balanced (memoryObjectInit s memObj control) := by
  unfold memoryObjectInit
  dsimp only
  cases hfound : lookup (holdPort s control) memObj with
  | none => exact hs
  | some found =>
    obtain ⟨i, e⟩ := found
    dsimp only
    split
    · exact hs
    · intro v
      have hi : s.table i = some e := (SlotTable.find_some hfound).1
      have hfile : ({ e with control := some control, initialised := true } : Entry).file =
        e.file :=
        rfl
      exact (hs v).trans (entriesOf_replace hi hfile).symm

theorem Balanced.step {a : Event} {s' : State} (hs : Balanced s) (h : Proper s a)
    (ha : step s a = some s') : Balanced s' := by
  cases a with
  | mmap vnode clone luck =>
    cases ha
    exact hs.mmap h
  | init memObj control =>
    cases ha
    exact hs.init memObj control
  | terminate memObj control =>
    cases ha
    exact hs.terminate memObj control
  | destroy fileId =>
    cases ha
    have hnone : (s.table.find fun e => e.file.addr = fileId) =
      none := Option.isNone_iff_eq_none.mp h
    unfold fsPagerDestroy
    rw [hnone]
    exact hs
  | dataRequest memObj length luck =>
    cases ha
    exact hs

theorem vfsMmap_failed {vnode clone : Option ℕ} {luck : CreateLuck}
    (hfresh : ∀ p, luck.port = some p → s.ports p = false)
    (hfail : (vfsMmap s vnode clone luck).2 = none) :
    (vfsMmap s vnode clone luck).1.table = s.table ∧
      (vfsMmap s vnode clone luck).1.ports = s.ports ∧
      ((vfsMmap s vnode clone luck).1.refs = s.refs ↔ Proper s (.mmap vnode clone luck)) := by
  cases vnode with
  | none => exact ⟨rfl, rfl, iff_of_true rfl (Or.inl rfl)⟩
  | some w =>
    cases clone with
    | none => exact ⟨rfl, rfl, iff_of_true rfl (Or.inr (Or.inl rfl))⟩
    | some addr =>
      let s₁ : State := { s with refs := Function.update s.refs w (s.refs w + 1) }
      have hroom : ¬Room s₁ luck := by
        intro hroom
        obtain ⟨i, p, -, -, hcreate⟩ := fsPagerCreate_room ⟨addr, w⟩ hroom
        change (fsPagerCreate s₁ ⟨addr, w⟩ luck).2 = none at hfail
        rw [hcreate] at hfail
        cases hfail
      have hsame : vfsMmap s (some w) (some addr) luck = (s₁, none) :=
        fsPagerCreate_no_room _ hroom hfresh
      rw [hsame]
      refine ⟨rfl, rfl, iff_of_false ?_ ?_⟩
      · intro hrefs
        have hw := congrFun hrefs w
        simp [s₁] at hw
      · rintro (h | h | h)
        · cases h
        · cases h
        · exact hroom h

theorem dataRequest_answered {memObj length : ℕ} {luck : RequestLuck}
    (hlive : (lookup s memObj).isSome = true) :
    (dataRequest s memObj length luck).isSome = true ↔
      luck.allocated = true ∧ luck.supplied = true := by
  obtain ⟨found, hfound⟩ := Option.isSome_iff_exists.mp hlive
  unfold dataRequest
  rw [hfound]
  dsimp only
  cases luck.allocated <;> cases luck.supplied <;> simp

/-- Along every run in which pagers are made once the file is cloned and none is destroyed from
outside, every vnode has as many references as entries; a failed `vfs_mmap` leaves no trace exactly
if it failed before the clone, and a page request is answered exactly if there is memory for it and
the message to the kernel is sent. -/
theorem mappings_balanced (portSet : Bool) (ports : ℕ → Bool) (events : List Event) (s : State)
    (hproper : StepsMeet step Proper (initial portSet ports) events)
    (hrun : runSteps step (initial portSet ports) events = some s) :
    (∀ v, s.refs v = entriesOf s.table v) ∧
    (∀ vnode clone luck, (∀ p, luck.port = some p → s.ports p = false) →
      (vfsMmap s vnode clone luck).2 = none →
      (vfsMmap s vnode clone luck).1.table = s.table ∧
      (vfsMmap s vnode clone luck).1.ports = s.ports ∧
      ((vfsMmap s vnode clone luck).1.refs = s.refs ↔ Proper s (.mmap vnode clone luck))) ∧
    ∀ memObj length luck, (lookup s memObj).isSome = true →
      ((dataRequest s memObj length luck).isSome = true ↔
        luck.allocated = true ∧ luck.supplied = true) := by
  refine ⟨?_, fun _ _ _ hfresh hfail => vfsMmap_failed hfresh hfail,
    fun _ _ _ hlive => dataRequest_answered hlive⟩
  refine runSteps_invariant_of_guard (fun s a s' hs hg ha => Balanced.step hs hg ha) ?_ hproper hrun
  exact fun v => SlotTable.count_free.symm

def mapAndUnmap : List Event :=
  [.mmap (some 7) (some 100) ⟨some 20, true, true⟩, .init 20 30, .terminate 20 (some 30)]

theorem mappings_balanced_unmapped :
    StepsMeet step Proper (initial true fun _ => false) mapAndUnmap ∧
      ∃ s, runSteps step (initial true fun _ => false) mapAndUnmap = some s ∧
        ∀ v, s.refs v = entriesOf s.table v :=
  ⟨by decide, _, rfl, (mappings_balanced true (fun _ => false) mapAndUnmap _ (by decide) rfl).1⟩

/-- The kernel has no port left for the memory object: the mapping fails, and the reference of the
clone stays. -/
theorem clone_reference_lost : ∃ s, runSteps step (initial true fun _ => false)
    [.mmap (some 7) (some 100) ⟨none, true, true⟩] = some s ∧
      s.refs 7 = 1 ∧ ∀ v, entriesOf s.table v = 0 := by
  refine ⟨_, rfl, by decide, fun v => ?_⟩
  have hroom : ¬Room { initial true fun _ => false with
      refs := Function.update (fun _ => 0) 7 1 } ⟨none, true, true⟩ := by
    rintro ⟨-, -, h, -⟩
    cases h
  have hsame := fsPagerCreate_no_room ⟨100, 7⟩ hroom (by rintro p ⟨⟩)
  change entriesOf (fsPagerCreate _ _ _).1.table v = 0
  rw [show (initial true fun _ => false).refs = fun _ => 0 from rfl, hsame]
  exact SlotTable.count_free

end Uros.Ext2.Mapping
