import Uros.Foundation.Transition
import Uros.Ipc.Port

/-!
Allocation of names against their lookup (`ipc/ipc_entry.c`).

Whatever the kernel does with rights, it reaches entries through the functions of
`ipc_entry.c` and then changes the entry it got.  A run is a sequence of such
operations on a space that starts as `ipc_space_create` makes it.
-/

namespace Uros.Ipc

open Uros.Foundation

inductive KernReturn where
  | success
  | invalidTask
  | invalidName
  | invalidRight
  | invalidCapability
  | noSpace
  | nameExists
  | urefsOverflow
  | resourceShortage
  deriving DecidableEq, Repr

/-- Find or allocate the entry of a given name; `mem` is whether the tree entry and
its nodes could be allocated. -/
def ipcEntryAllocName (name : MachPort) (mem : Bool) :
    Kernel (KernReturn × Option EntryRef) := do
  Prog.check (machPortValid name)
  let space ← Prog.read fun s => s.space
  let index := machPortIndex name
  if !space.active then pure (.invalidTask, none)
  else if 0 < index ∧ index < space.tableSize then do
    let e ← readEntry (.table index)
    if e.type ≠ .none then
      if e.gen = machPortGen name then pure (.success, some (.table index))
      else pure (.nameExists, none)
    else do
      Prog.update fun s => s.setFree (s.space.free.erase index)
      Prog.check (e.object = none)
      modifyEntry (.table index) fun e => { e with
        gen := machPortGen name, urefs := 0, request := 0 }
      pure (.success, some (.table index))
  else
    match space.tree index with
    | some t =>
      if t.name = name then do
        Prog.check (t.entry.type ≠ .none)
        pure (.success, some (.tree index))
      else pure (.nameExists, none)
    | none =>
      if !mem then pure (.resourceShortage, none)
      else do
        Prog.update fun s => { s with space := { s.space with
          tree := Function.update s.space.tree index (some ⟨name, .unused 0⟩) } }
        pure (.success, some (.tree index))

def IpcSpace.InGrowth (s : IpcSpace) (size i : Nat) : Prop := s.tableSize ≤ i ∧ i < size

instance (s : IpcSpace) (size i : Nat) : Decidable (s.InGrowth size i) :=
  inferInstanceAs (Decidable (_ ∧ _))

/-- Entries of the tree that fit into the new part move there, the other new entries
become free with the generation that is all ones. -/
def IpcSpace.grow (s : IpcSpace) (size : Nat) : IpcSpace :=
  { s with
    tableSize := size
    table := fun i =>
      if s.InGrowth size i then
        match s.tree i with
        | some t => { t.entry with gen := machPortGen t.name }
        | none => .unused 255
      else s.table i
    tree := fun i => if s.InGrowth size i then none else s.tree i
    free := ((List.range' s.tableSize (size - s.tableSize)).filter fun i =>
      (s.tree i).isNone) ++ s.free
    hash := fun port => (s.hash port).map fun (name, r) =>
      match r with
      | .tree i => (name, if s.InGrowth size i then .table i else .tree i)
      | .table i => (name, .table i) }

def ipcEntryGrowTable (size : Nat) : Kernel Unit := do
  checkActive
  let space ← Prog.read fun s => s.space
  Prog.check (space.tableSize < size)
  Prog.check (∀ i < size, space.tableSize ≤ i → ∀ t ∈ space.tree i,
    machPortIndex t.name = i ∧ t.entry.type ≠ .none)
  Prog.update fun s => { s with space := s.space.grow size }

variable {s t : IpcState} {r r' : EntryRef} {name name' : MachPort} {mem : Bool}

def IpcSpace.create (id size : Nat) : IpcSpace where
  id
  active := true
  generation := 0
  tableSize := size
  table := fun _ => .unused 255
  free := List.range' 1 (size - 1)
  tree := fun _ => none
  hash := fun _ => none

structure EntryRight where
  type : EntryType
  urefs : Nat
  object : Option PortAddr
  request : Nat
  deriving DecidableEq, Repr

def giveRight (r : EntryRef) (x : EntryRight) : Kernel Unit := do
  Prog.check (x.type ≠ .none)
  modifyEntry r fun e => { e with
    type := x.type, urefs := x.urefs, object := x.object, request := x.request }

def IpcSpace.nameOf (s : IpcSpace) : EntryRef → Option MachPort
  | .table i => if i < s.tableSize ∧ (s.table i).type ≠ .none then
      some (machPortMake i (s.table i).gen) else none
  | .tree i => (s.tree i).map TreeEntry.name

inductive EntryEvent where
  | allocName (name : MachPort) (mem : Bool) (right : EntryRight)
  | abandon (name : MachPort) (mem : Bool)
  | get (right : EntryRight)
  | change (r : EntryRef) (right : EntryRight)
  | dealloc (r : EntryRef)
  | grow (size : Nat)

def EntryEvent.run : EntryEvent → Kernel Unit
  | .allocName name mem right => do
      let (_, found) ← ipcEntryAllocName name mem
      match found with
      | none => pure ()
      | some r => giveRight r right
  | .abandon name mem => do
      let (_, found) ← ipcEntryAllocName name mem
      match found with
      | none => pure ()
      | some r => do
          let e ← readEntry r
          if e.type = .none then ipcEntryDealloc name r else pure ()
  | .get right => do
      let found ← ipcEntryGet
      match found with
      | none => pure ()
      | some (_, r) => giveRight r right
  | .change r right => do
      let name ← Prog.read fun s => s.space.nameOf r
      match name with
      | none => pure ()
      | some _ => giveRight r right
  | .dealloc r => do
      let name ← Prog.read fun s => s.space.nameOf r
      match name with
      | none => pure ()
      | some name => do
          modifyEntry r fun e => { e with object := none, request := 0 }
          ipcEntryDealloc name r
  | .grow size => ipcEntryGrowTable size

def EntryEvent.follow (s : IpcSpace) (ev : EntryEvent) (r : EntryRef) : Option EntryRef :=
  match ev with
  | .dealloc r' => if r' = r then none else some r
  | .grow size => match r with
      | .table i => some (.table i)
      | .tree i => some (if s.InGrowth size i then .table i else .tree i)
  | _ => some r

structure Watched where
  kernel : IpcState
  entry : Option EntryRef

def Watched.step (w : Watched) (ev : EntryEvent) : Option Watched :=
  (ev.run w.kernel).map fun (_, kernel) =>
    ⟨kernel, w.entry.bind (ev.follow w.kernel.space)⟩

theorem machPort_ext (hindex : machPortIndex name = machPortIndex name')
    (hgen : machPortGen name = machPortGen name') : name = name' := by
  rw [← UInt32.toNat_inj]
  unfold machPortIndex at hindex
  unfold machPortGen at hgen
  omega

theorem IpcSpace.lookup_inj {s : IpcSpace} (h : s.lookup name = some r)
    (h' : s.lookup name' = some r) : name = name' := by
  cases r with
  | table i =>
    obtain ⟨hindex, -, hgen, -⟩ := lookup_table.mp h
    obtain ⟨hindex', -, hgen', -⟩ := lookup_table.mp h'
    exact machPort_ext (hindex.trans hindex'.symm) (hgen.symm.trans hgen')
  | tree i =>
    obtain ⟨-, -, e, he, hname⟩ := lookup_tree.mp h
    obtain ⟨-, -, e', he', hname'⟩ := lookup_tree.mp h'
    cases he.symm.trans he'
    exact hname.symm.trans hname'

def Finds (s t : IpcState) : Prop :=
  ∀ name r, s.space.lookup name = some r → t.space.lookup name = some r

theorem Finds.refl (s : IpcState) : Finds s s := fun _ _ h => h

theorem Finds.trans {u : IpcState} (h : Finds s t) (h' : Finds t u) : Finds s u :=
  fun name r hr => h' name r (h name r hr)

theorem finds_setFree (free : List Nat) : Finds s (s.setFree free) := fun _ _ h => h

theorem finds_setEntry_of_none {f : IpcEntry → IpcEntry} {i : Nat}
    (hnone : (s.space.table i).type = .none) : Finds s (s.setEntry (.table i) f) := by
  intro name r hr
  refine IpcSpace.lookup_write hr ?_
  rintro rfl
  exact absurd hnone (IpcSpace.lookup_table.mp hr).2.2.2

theorem finds_giveRight {x : EntryRight} : Ensures (giveRight r x) s fun _ t => Finds s t := by
  simp only [giveRight, ensures_bind, ensures_check, ensures_modifyEntry]
  intro htype name r' hr
  exact IpcSpace.lookup_write hr fun _ => ⟨rfl, htype⟩

structure AllocatedAt (s : IpcState) (name : MachPort) (r : EntryRef) : Prop where
  table : 0 < machPortIndex name → machPortIndex name < s.space.tableSize →
    r = .table (machPortIndex name) ∧
      (s.space.table (machPortIndex name)).gen = machPortGen name
  tree : ¬(0 < machPortIndex name ∧ machPortIndex name < s.space.tableSize) →
    r = .tree (machPortIndex name) ∧
      ∃ e, s.space.tree (machPortIndex name) = some e ∧ e.name = name

theorem ipcEntryAllocName_finds : Ensures (ipcEntryAllocName name mem) s fun res t =>
    Finds s t ∧ ∀ r, res.2 = some r → AllocatedAt t name r ∧
      ((t.space.read r).type = .none → ∀ name', s.space.lookup name' ≠ some r) := by
  simp only [ipcEntryAllocName, ensures_bind, ensures_check, ensures_read, ensures_ite,
    ensures_pure, ensures_readEntry, ensures_update, ensures_modifyEntry]
  intro _
  refine ⟨fun _ => ⟨.refl s, (by rintro _ ⟨⟩)⟩, fun _ => ⟨fun hindex => ⟨fun hused => ⟨fun hgen => ?_,
    fun _ => ⟨.refl s, (by rintro _ ⟨⟩)⟩⟩, fun hfree _ => ?_⟩, fun hindex => ?_⟩⟩
  · refine ⟨.refl s, ?_⟩
    rintro r ⟨⟩
    exact ⟨⟨fun _ _ => ⟨rfl, hgen⟩, fun h => absurd hindex h⟩, fun hnone => absurd hnone hused⟩
  · have hnone : (s.space.table (machPortIndex name)).type = .none := not_not.mp hfree
    refine ⟨(finds_setFree _).trans (finds_setEntry_of_none hnone), ?_⟩
    rintro r ⟨⟩
    refine ⟨⟨fun _ _ => ⟨rfl, ?_⟩, fun h => absurd hindex h⟩, fun _ name' hr => ?_⟩
    · simp [IpcState.setEntry, IpcState.setFree, IpcSpace.write]
    · exact (IpcSpace.lookup_table.mp hr).2.2.2 hnone
  · cases htree : s.space.tree (machPortIndex name) with
    | some e =>
      simp only [ensures_ite, ensures_bind, ensures_check, ensures_pure]
      refine ⟨fun hname hused => ⟨.refl s, ?_⟩, fun _ => ⟨.refl s, (by rintro _ ⟨⟩)⟩⟩
      rintro r ⟨⟩
      refine ⟨⟨fun h₁ h₂ => absurd ⟨h₁, h₂⟩ hindex, fun _ => ⟨rfl, e, htree, hname⟩⟩,
        fun hnone => absurd hnone ?_⟩
      simpa only [IpcSpace.read, htree] using hused
    | none =>
      -- no name can lead to the tree entry that is new
      have hnew : ∀ name', s.space.lookup name' ≠ some (.tree (machPortIndex name)) := by
        intro name' hr
        obtain ⟨-, -, e, he, -⟩ := IpcSpace.lookup_tree.mp hr
        rw [htree] at he
        cases he
      simp only [ensures_ite, ensures_bind, ensures_update, ensures_pure]
      refine ⟨fun _ => ⟨.refl s, (by rintro _ ⟨⟩)⟩, fun _ => ⟨?_, ?_⟩⟩
      · intro name' r hr
        cases r with
        | table j =>
          obtain ⟨hj, hsize, hentry⟩ := IpcSpace.lookup_table.mp hr
          exact IpcSpace.lookup_table.mpr ⟨hj, hsize, hentry⟩
        | tree j =>
          obtain ⟨hj, hsize, e, he, hname⟩ := IpcSpace.lookup_tree.mp hr
          refine IpcSpace.lookup_tree.mpr ⟨hj, hsize, e, ?_, hname⟩
          have hne : j ≠ machPortIndex name := by
            rintro rfl
            exact hnew name' hr
          exact (Function.update_of_ne hne _ _).trans he
      · rintro r ⟨⟩
        refine ⟨⟨fun h₁ h₂ => absurd ⟨h₁, h₂⟩ hindex,
          fun _ => ⟨rfl, ⟨name, .unused 0⟩, ?_, rfl⟩⟩, fun _ => hnew⟩
        exact Function.update_self _ _ _

theorem ipcEntryGet_finds : Ensures ipcEntryGet s fun _ t => Finds s t := by
  simp only [ipcEntryGet, ensures_bind, ensures_checkActive, ensures_read]
  intro _
  cases s.space.free with
  | nil => exact ensures_pure.mpr (.refl s)
  | cons index rest =>
    simp only [ensures_bind, ensures_readEntry, ensures_check, ensures_update,
      ensures_modifyEntry, ensures_pure]
    rintro ⟨hnone, -⟩ _ _
    exact (finds_setFree rest).trans (finds_setEntry_of_none hnone)

theorem ipcEntryDealloc_lookup : Ensures (ipcEntryDealloc name r) s fun _ t =>
    ∀ name' r', s.space.lookup name' = some r' → r' ≠ r → t.space.lookup name' = some r' := by
  simp only [ipcEntryDealloc, ensures_bind, ensures_checkActive, ensures_readEntry,
    ensures_check, ensures_read, ensures_ite, ensures_update]
  intro _ _ _
  exact ⟨fun _ _ _ _ hr hne => IpcSpace.lookup_release_of_ne hr hne,
    fun _ _ _ _ hr hne => IpcSpace.lookup_release_of_ne hr hne⟩

theorem ipcEntryGrowTable_lookup {size : Nat} : Ensures (ipcEntryGrowTable size) s fun _ t =>
    ∀ name r, s.space.lookup name = some r →
      t.space.lookup name = (EntryEvent.grow size).follow s.space r := by
  simp only [ipcEntryGrowTable, ensures_bind, ensures_checkActive, ensures_read, ensures_check,
    ensures_update]
  intro _ hsize htree name r hr
  cases r with
  | table i =>
    obtain ⟨hindex, hlt, hentry⟩ := IpcSpace.lookup_table.mp hr
    have hold : ¬s.space.InGrowth size i := fun h => absurd h.1 (Nat.not_le.mpr hlt)
    refine IpcSpace.lookup_table.mpr ⟨hindex, Nat.lt_trans hlt hsize, ?_⟩
    simpa only [IpcSpace.grow, if_neg hold] using hentry
  | tree i =>
    obtain ⟨hindex, hge, e, he, hname⟩ := IpcSpace.lookup_tree.mp hr
    by_cases hgrowth : s.space.InGrowth size i
    · simp only [EntryEvent.follow, if_pos hgrowth]
      refine IpcSpace.lookup_table.mpr ⟨hindex, hgrowth.2, ?_⟩
      simp only [IpcSpace.grow, if_pos hgrowth, he, hname, true_and]
      exact (htree i hgrowth.2 hgrowth.1 e he).2
    · simp only [EntryEvent.follow, if_neg hgrowth]
      have hout : ¬i < size := fun h => hgrowth ⟨Nat.le_of_not_lt hge, h⟩
      refine IpcSpace.lookup_tree.mpr ⟨hindex, hout, e, ?_, hname⟩
      simpa only [IpcSpace.grow, if_neg hgrowth] using he

theorem EntryEvent.run_lookup {ev : EntryEvent} (hr : s.space.lookup name = some r)
    (hfollow : ev.follow s.space r = some r') :
    Ensures ev.run s fun _ t => t.space.lookup name = some r' := by
  have hgive : ∀ {u : IpcState} {r₁ x}, Finds s u →
      Ensures (giveRight r₁ x) u fun _ t => t.space.lookup name = some r := by
    intro u r₁ x hu
    exact finds_giveRight.mono fun _ t ht => ht name r (hu name r hr)
  cases ev with
  | allocName name' mem right =>
    cases hfollow
    simp only [EntryEvent.run, ensures_bind]
    refine ipcEntryAllocName_finds.mono ?_
    rintro ⟨kr, found⟩ u ⟨hu, -⟩
    cases found with
    | none => exact ensures_pure.mpr (hu name r hr)
    | some r₁ => exact hgive hu
  | abandon name' mem =>
    cases hfollow
    simp only [EntryEvent.run, ensures_bind]
    refine ipcEntryAllocName_finds.mono ?_
    rintro ⟨kr, found⟩ u ⟨hu, halloc⟩
    cases found with
    | none => exact ensures_pure.mpr (hu name r hr)
    | some r₁ =>
      simp only [ensures_bind, ensures_readEntry, ensures_ite, ensures_pure]
      refine ⟨fun hnone => ?_, fun _ => hu name r hr⟩
      refine ipcEntryDealloc_lookup.mono fun _ t ht => ht name r (hu name r hr) ?_
      rintro rfl
      exact (halloc r rfl).2 hnone name hr
  | get right =>
    cases hfollow
    simp only [EntryEvent.run, ensures_bind]
    refine ipcEntryGet_finds.mono ?_
    intro found u hu
    cases found with
    | none => exact ensures_pure.mpr (hu name r hr)
    | some found => exact hgive hu
  | change r₁ right =>
    cases hfollow
    simp only [EntryEvent.run, ensures_bind, ensures_read]
    split
    · exact ensures_pure.mpr hr
    · exact hgive (.refl s)
  | dealloc r₁ =>
    simp only [EntryEvent.follow] at hfollow
    obtain ⟨hne, heq⟩ := Option.ite_none_left_eq_some.mp hfollow
    cases heq
    simp only [EntryEvent.run, ensures_bind, ensures_read]
    split
    · exact ensures_pure.mpr hr
    · simp only [ensures_bind, ensures_modifyEntry]
      refine ipcEntryDealloc_lookup.mono fun _ t ht => ht name r ?_ (Ne.symm hne)
      exact IpcSpace.lookup_write hr fun h => absurd h.symm hne
  | grow size =>
    exact ipcEntryGrowTable_lookup.mono fun _ t ht => (ht name r hr).trans hfollow

structure HeadFree (s : IpcState) : Prop where
  size : 0 < s.space.tableSize
  type : (s.space.table 0).type = .none
  free : 0 ∉ s.space.free

theorem headFree_create {id size : Nat} {ports : PortAddr → IpcPort} (hsize : 0 < size) :
    HeadFree ⟨.create id size, ports, []⟩ := by
  refine ⟨hsize, rfl, ?_⟩
  simp only [IpcSpace.create, List.mem_range']
  rintro ⟨i, -, hi⟩
  omega

theorem HeadFree.setEntry {f : IpcEntry → IpcEntry} (h : HeadFree s) (hr : r ≠ .table 0) :
    HeadFree (s.setEntry r f) := by
  cases r with
  | table i =>
    have hi : 0 ≠ i := fun h => hr (h ▸ rfl)
    refine ⟨h.size, ?_, h.free⟩
    simpa only [IpcState.setEntry, IpcSpace.write, Function.update_of_ne hi] using h.type
  | tree i => exact ⟨h.size, h.type, h.free⟩

theorem HeadFree.release (h : HeadFree s) (hr : r ≠ .table 0) : HeadFree (s.release r) := by
  cases r with
  | table i =>
    have hi : 0 ≠ i := fun h => hr (h ▸ rfl)
    refine ⟨h.size, ?_, ?_⟩
    · simpa only [IpcState.release, IpcSpace.release, Function.update_of_ne hi] using h.type
    · exact List.not_mem_cons_of_ne_of_not_mem hi h.free
  | tree i => exact ⟨h.size, h.type, h.free⟩

theorem HeadFree.giveRight {x : EntryRight} (h : HeadFree s) (hr : r ≠ .table 0) :
    Ensures (giveRight r x) s fun _ t => HeadFree t := by
  simp only [Uros.Ipc.giveRight, ensures_bind, ensures_check, ensures_modifyEntry]
  exact fun _ => h.setEntry hr

theorem HeadFree.dealloc (h : HeadFree s) (hr : r ≠ .table 0) :
    Ensures (ipcEntryDealloc name r) s fun _ t => HeadFree t := by
  simp only [ipcEntryDealloc, ensures_bind, ensures_checkActive, ensures_readEntry,
    ensures_check, ensures_read, ensures_ite, ensures_update]
  exact fun _ _ _ => ⟨fun _ _ => h.release hr, fun _ _ => h.release hr⟩

theorem HeadFree.allocName (h : HeadFree s) :
    Ensures (ipcEntryAllocName name mem) s fun res t => HeadFree t ∧
      ∀ r, res.2 = some r → r ≠ .table 0 := by
  simp only [ipcEntryAllocName, ensures_bind, ensures_check, ensures_read, ensures_ite,
    ensures_pure, ensures_readEntry, ensures_update, ensures_modifyEntry]
  intro _
  refine ⟨fun _ => ⟨h, (by rintro _ ⟨⟩)⟩, fun _ => ⟨fun hindex => ?_, fun _ => ?_⟩⟩
  · have hne : EntryRef.table (machPortIndex name) ≠ .table 0 := by
      intro heq
      injection heq with heq
      omega
    refine ⟨fun _ => ⟨fun _ => ⟨h, ?_⟩, fun _ => ⟨h, (by rintro _ ⟨⟩)⟩⟩, fun _ _ => ⟨?_, ?_⟩⟩
    · rintro r ⟨⟩
      exact hne
    · have hfree : HeadFree (s.setFree (s.space.free.erase (machPortIndex name))) :=
        ⟨h.size, h.type, fun hmem => h.free (List.mem_of_mem_erase hmem)⟩
      exact hfree.setEntry hne
    · rintro r ⟨⟩
      exact hne
  · cases s.space.tree (machPortIndex name) with
    | some e =>
      simp only [ensures_ite, ensures_bind, ensures_check, ensures_pure]
      refine ⟨fun _ _ => ⟨h, ?_⟩, fun _ => ⟨h, (by rintro _ ⟨⟩)⟩⟩
      rintro r ⟨⟩
      rintro ⟨⟩
    | none =>
      simp only [ensures_ite, ensures_bind, ensures_update, ensures_pure]
      refine ⟨fun _ => ⟨h, (by rintro _ ⟨⟩)⟩, fun _ => ⟨⟨h.size, h.type, h.free⟩, ?_⟩⟩
      rintro r ⟨⟩
      rintro ⟨⟩

theorem HeadFree.get (h : HeadFree s) : Ensures ipcEntryGet s fun found t => HeadFree t ∧
    ∀ x, found = some x → x.2 ≠ .table 0 := by
  have hfree := h.free
  simp only [ipcEntryGet, ensures_bind, ensures_checkActive, ensures_read]
  intro _
  cases hlist : s.space.free with
  | nil => exact ensures_pure.mpr ⟨h, (by rintro _ ⟨⟩)⟩
  | cons index rest =>
    rw [hlist, List.mem_cons, not_or] at hfree
    have hne : EntryRef.table index ≠ .table 0 := by
      intro heq
      injection heq with heq
      exact hfree.1 heq.symm
    simp only [ensures_bind, ensures_readEntry, ensures_check, ensures_update,
      ensures_modifyEntry, ensures_pure]
    intro _ _ _
    have hrest : HeadFree (s.setFree rest) := ⟨h.size, h.type, hfree.2⟩
    refine ⟨hrest.setEntry hne, ?_⟩
    rintro x ⟨⟩
    exact hne

theorem HeadFree.nameOf (h : HeadFree s) (hr : s.space.nameOf r = some name) :
    r ≠ .table 0 := by
  rintro rfl
  exact (Option.ite_none_right_eq_some.mp hr).1.2 h.type

theorem HeadFree.grow {size : Nat} (h : HeadFree s) :
    Ensures (ipcEntryGrowTable size) s fun _ t => HeadFree t := by
  simp only [ipcEntryGrowTable, ensures_bind, ensures_checkActive, ensures_read, ensures_check,
    ensures_update]
  intro _ hsize _
  have hzero : ¬s.space.InGrowth size 0 := fun hin => absurd hin.1 (Nat.not_le.mpr h.size)
  refine ⟨Nat.lt_trans h.size hsize, ?_, ?_⟩
  · simpa only [IpcSpace.grow, if_neg hzero] using h.type
  · simp only [IpcSpace.grow, List.mem_append, not_or]
    refine ⟨fun hmem => ?_, h.free⟩
    obtain ⟨i, -, hi⟩ := List.mem_range'.mp (List.mem_of_mem_filter hmem)
    have hpos := h.size
    omega

theorem HeadFree.run {ev : EntryEvent} (h : HeadFree s) :
    Ensures ev.run s fun _ t => HeadFree t := by
  cases ev with
  | allocName name mem right =>
    simp only [EntryEvent.run, ensures_bind]
    refine h.allocName.mono ?_
    rintro ⟨kr, found⟩ u ⟨hu, hne⟩
    cases found with
    | none => exact ensures_pure.mpr hu
    | some r => exact hu.giveRight (hne r rfl)
  | abandon name mem =>
    simp only [EntryEvent.run, ensures_bind]
    refine h.allocName.mono ?_
    rintro ⟨kr, found⟩ u ⟨hu, hne⟩
    cases found with
    | none => exact ensures_pure.mpr hu
    | some r =>
      simp only [ensures_bind, ensures_readEntry, ensures_ite, ensures_pure]
      exact ⟨fun _ => hu.dealloc (hne r rfl), fun _ => hu⟩
  | get right =>
    simp only [EntryEvent.run, ensures_bind]
    refine h.get.mono ?_
    rintro found u ⟨hu, hne⟩
    cases found with
    | none => exact ensures_pure.mpr hu
    | some x => exact hu.giveRight (hne x rfl)
  | change r right =>
    simp only [EntryEvent.run, ensures_bind, ensures_read]
    split
    · exact ensures_pure.mpr h
    · rename_i hname
      exact h.giveRight (h.nameOf hname)
  | dealloc r =>
    simp only [EntryEvent.run, ensures_bind, ensures_read]
    split
    · exact ensures_pure.mpr h
    · rename_i hname
      simp only [ensures_bind, ensures_modifyEntry]
      exact (h.setEntry (h.nameOf hname)).dealloc (h.nameOf hname)
  | grow size => exact h.grow

theorem Watched.headFree {w w' : Watched} {events : List EntryEvent} (h : HeadFree w.kernel)
    (hrun : runSteps Watched.step w events = some w') : HeadFree w'.kernel := by
  have hstep : ∀ (w : Watched) ev w', HeadFree w.kernel → w.step ev = some w' →
      HeadFree w'.kernel := by
    intro w ev w' h hstep
    obtain ⟨⟨_, kernel⟩, hev, rfl⟩ := Option.map_eq_some_iff.mp hstep
    exact h.run _ _ hev
  exact @runSteps_invariant _ _ _ (fun w => HeadFree w.kernel) _ _ _ hstep h hrun

def Watched.At (name : MachPort) (w : Watched) : Prop :=
  ∀ r, w.entry = some r → w.kernel.space.lookup name = some r

theorem Watched.At.run {w w' : Watched} {events : List EntryEvent} (h : w.At name)
    (hrun : runSteps Watched.step w events = some w') : w'.At name := by
  have hstep : ∀ (w : Watched) ev w', w.At name → w.step ev = some w' → w'.At name := by
    intro w ev w' h hstep r' hr'
    obtain ⟨⟨_, kernel⟩, hev, rfl⟩ := Option.map_eq_some_iff.mp hstep
    obtain ⟨r, hr, hfollow⟩ := Option.bind_eq_some_iff.mp hr'
    exact EntryEvent.run_lookup (h r hr) hfollow _ _ hev
  exact runSteps_invariant hstep h hrun

structure NameAgrees (s : IpcState) (name : MachPort) (r : EntryRef) : Prop where
  found : ∀ events w, runSteps Watched.step ⟨s, some r⟩ events = some w → w.At name
  unique : ∀ events w, runSteps Watched.step ⟨s, some r⟩ events = some w →
    ∀ name₁ name₂ r', w.kernel.space.lookup name₁ = some r' →
      w.kernel.space.lookup name₂ = some r' → name₁ = name₂

theorem AllocatedAt.lookup {x : EntryRight} (h : AllocatedAt s name r)
    (hindex : 0 < machPortIndex name) :
    Ensures (giveRight r x) s fun _ t => t.space.lookup name = some r := by
  simp only [giveRight, ensures_bind, ensures_check, ensures_modifyEntry]
  intro htype
  by_cases hsize : machPortIndex name < s.space.tableSize
  · obtain ⟨rfl, hgen⟩ := h.table hindex hsize
    refine IpcSpace.lookup_table.mpr ⟨rfl, hsize, ?_⟩
    simpa only [IpcState.setEntry, IpcSpace.write, Function.update_self, IpcSpace.read]
      using ⟨hgen, htype⟩
  · obtain ⟨rfl, e, he, hname⟩ := h.tree fun h => hsize h.2
    refine IpcSpace.lookup_tree.mpr ⟨rfl, hsize, ?_⟩
    simp [IpcState.setEntry, IpcSpace.write, he, hname]

def newKernel : IpcState :=
  ⟨.create 7 4, fun _ => ⟨false, 0, .transit none, 0, 0, 0, 0, none, none, [], 0⟩, []⟩

/-- The task asks for the name 5: it gets an entry that no lookup finds, since index 0 is
below the size of the table. -/
theorem low_name_lost :
    ∃ s t, ipcEntryAllocName 5 true newKernel = some ((.success, some (.tree 0)), s) ∧
      giveRight (.tree 0) ⟨.receive, 0, some 100, 0⟩ s = some ((), t) ∧
      t.space.lookup 5 = none :=
  ⟨_, _, rfl, rfl, rfl⟩

/-- In every reachable space a valid name and its new entry agree just when the name has
an index. -/
theorem nameAgrees_iff {id size : Nat} {ports : PortAddr → IpcPort} (hsize : 0 < size)
    {before : List EntryEvent} {w : Watched}
    (hreach : runSteps Watched.step ⟨⟨.create id size, ports, []⟩, none⟩ before = some w)
    {x : EntryRight} {kr : KernReturn}
    (halloc : ipcEntryAllocName name mem w.kernel = some ((kr, some r), s))
    (hgive : giveRight r x s = some ((), t)) :
    NameAgrees t name r ↔ machPortIndex name ≠ 0 := by
  have hhead : HeadFree w.kernel := Watched.headFree (headFree_create hsize) hreach
  have halloc' := (ipcEntryAllocName_finds _ _ halloc).2 r rfl
  constructor
  · intro hagrees hzero
    have hfound := hagrees.found [] _ rfl r rfl
    obtain ⟨hs, hne⟩ := hhead.allocName _ _ halloc
    have ht : HeadFree t := hs.giveRight (hne r rfl) _ _ hgive
    have hlost : t.space.lookup name = none := by
      simp [IpcSpace.lookup, hzero, ht.size, ht.type]
    rw [hlost] at hfound
    cases hfound
  · intro hindex
    have hlookup := halloc'.1.lookup (Nat.pos_of_ne_zero hindex) _ _ hgive
    refine ⟨fun events w' hrun => ?_, fun _ _ _ _ _ _ => IpcSpace.lookup_inj⟩
    have hat : Watched.At name ⟨t, some r⟩ := by
      rintro r' ⟨⟩
      exact hlookup
    exact hat.run hrun

theorem nameAgrees_iff_second :
    ∃ s t, ipcEntryAllocName 517 true newKernel = some ((.success, some (.table 2)), s) ∧
      giveRight (.table 2) ⟨.receive, 0, some 100, 0⟩ s = some ((), t) ∧
      NameAgrees t 517 (.table 2) := by
  have hreach : runSteps Watched.step ⟨newKernel, none⟩ [] = some ⟨newKernel, none⟩ := rfl
  obtain ⟨s, halloc⟩ : ∃ s, ipcEntryAllocName 517 true newKernel =
      some ((.success, some (.table 2)), s) := ⟨_, rfl⟩
  obtain ⟨t, hgive⟩ : ∃ t, giveRight (.table 2) ⟨.receive, 0, some 100, 0⟩ s =
      some ((), t) := ⟨_, rfl⟩
  exact ⟨s, t, halloc, hgive, (nameAgrees_iff (by decide) hreach halloc hgive).mpr (by decide)⟩

end Uros.Ipc
