import Mathlib.Data.Fin.Basic
import Mathlib.Logic.Function.Basic
import Uros.Foundation.Transition
import Uros.Vfs.Descriptor

/-!
Descriptors that are handed on, and the open files behind them.

A descriptor of libvfs records the number of a slot in the table of the file server.  A
forked child and the image that `execve` starts record the same number, while the server
knows one owner for the slot and frees it at the first close, or when the owner is dead
and the table is full.  Every open has a serial number; a descriptor is bound as long as
its slot holds the open it was obtained for.
-/

namespace Uros.Vfs.Inheritance

open Uros.Foundation

abbrev Path := List Char

def maxOpenFiles : ℕ := 16

instance : NeZero maxOpenFiles := ⟨by decide⟩

structure Slot where
  serial : ℕ
  path : Path
  owner : Option ℕ

structure Server where
  slots : Fin maxOpenFiles → Option (Slot)
  serial : ℕ

namespace Server

variable (s : Server)

def free : Option (Fin maxOpenFiles) :=
  (List.finRange maxOpenFiles).find? fun fid => (s.slots fid).isNone

def orphaned (alive : ℕ → Bool) (slot : Slot) : Bool := slot.owner.any fun o => !alive o

def reclaim (alive : ℕ → Bool) : Server :=
  { s with slots := fun fid => (s.slots fid).filter fun slot => !orphaned alive slot }

def room (alive : ℕ → Bool) : Server :=
  match s.free with
  | some _ => s
  | none => s.reclaim alive

def donor (path : Path) : Bool :=
  (List.finRange maxOpenFiles).any fun fid => (s.slots fid).any fun slot => slot.path = path

def fill (fid : Fin maxOpenFiles) (path : Path) : Server :=
  ⟨Function.update s.slots fid (some ⟨s.serial, path, none⟩), s.serial + 1⟩

def dsExt2Open (alive : ℕ → Bool) (path : Path) (walk : Bool) :
    Server × Option (Fin maxOpenFiles) :=
  let s := s.room alive
  match s.free with
  | none => (s, none)
  | some fid => if s.donor path || walk then (s.fill fid path, some fid) else (s, none)

def dsExt2Close (fid : Fin maxOpenFiles) : Server :=
  { s with slots := Function.update s.slots fid none }

def own (fid : Fin maxOpenFiles) (client : ℕ) : Server :=
  let slot := (s.slots fid).map fun slot => { slot with owner := some client }
  { s with slots := Function.update s.slots fid slot }

end Server

structure OpenArgs where
  path : Path
  creat : Bool
  excl : Bool
  walk : Bool
  created : Bool
  walkAgain : Bool

def vfsOpen (s : Server) (alive : ℕ → Bool) (client : ℕ) (a : OpenArgs) :
    Server × Option (Fin maxOpenFiles) :=
  match s.dsExt2Open alive a.path a.walk with
  | (s, some fid) =>
    if a.creat && a.excl then (s.dsExt2Close fid, none) else (s.own fid client, some fid)
  | (s, none) =>
    if a.creat && a.created then
      match s.dsExt2Open alive a.path a.walkAgain with
      | (s, some fid) => (s.own fid client, some fid)
      | (s, none) => (s, none)
    else (s, none)

structure Fd where
  handle : Fin maxOpenFiles
  serial : ℕ
deriving DecidableEq

abbrev Table := Fin vfsMaxFds → Option Fd

structure System where
  server : Server
  tasks : ℕ → Option Table
  nextTask : ℕ

namespace System

variable (s : System)

def alive (t : ℕ) : Bool := (s.tasks t).isSome

def descriptor (t : ℕ) (fd : Fin vfsMaxFds) : Option Fd := (s.tasks t).bind fun table => table fd

def setTable (t : ℕ) (table : Option Table) : System :=
  { s with tasks := Function.update s.tasks t table }

def openFile (t : ℕ) (table : Table) (a : OpenArgs) : System :=
  match vfsOpen s.server s.alive t a with
  | (server, none) => { s with server := server }
  | (server, some fid) =>
    match vfsFdAlloc table, server.slots fid with
    | some fd, some slot =>
      { s with server := server }.setTable t
        (some (Function.update table fd (some ⟨fid, slot.serial⟩)))
    | _, _ => { s with server := server.dsExt2Close fid }

def closeFile (t : ℕ) (table : Table) (fd : Fin vfsMaxFds) (d : Fd) : System :=
  { s with server := s.server.dsExt2Close d.handle }.setTable t
    (some (Function.update table fd none))

def inherited (table : Table) (fds : List (Fin vfsMaxFds)) : Table :=
  fun fd => ((fds.filterMap table).take 61)[fd.val]?

end System

inductive Event where
  | openFile (t : ℕ) (a : OpenArgs)
  | transfer (t : ℕ) (fd : Fin vfsMaxFds)
  | close (t : ℕ) (fd : Fin vfsMaxFds)
  | fork (t : ℕ)
  | execve (t : ℕ) (fds : List (Fin vfsMaxFds))
  | exit (t : ℕ)

def step (s : System) : Event → Option (System)
  | .openFile t a => (s.tasks t).map fun table => s.openFile t table a
  | .transfer t fd => (s.descriptor t fd).map fun _ => s
  | .close t fd =>
    (s.tasks t).bind fun table => (table fd).map fun d => s.closeFile t table fd d
  | .fork t =>
    (s.tasks t).map fun table =>
      { s.setTable s.nextTask (some table) with nextTask := s.nextTask + 1 }
  | .execve t fds =>
    (s.tasks t).map fun table =>
      { (s.setTable s.nextTask (some (System.inherited table fds))).setTable t none with
        nextTask := s.nextTask + 1 }
  | .exit t => (s.tasks t).map fun _ => s.setTable t none

def init : System :=
  ⟨⟨fun _ => none, 0⟩, Function.update (fun _ => none) 0 (some fun _ => none), 1⟩

def Server.Denotes (s : Server) (d : Fd) : Prop :=
  ∃ slot, s.slots d.handle = some slot ∧ slot.serial = d.serial

def Bound (s : System) : Prop := ∀ t fd, ∀ d ∈ s.descriptor t fd, s.server.Denotes d

/-- A descriptor is closed by the last task that has it, and no file of a dead owner is in
use when the table of the server is full. -/
def Sole (s : System) : Event → Prop
  | .close t fd =>
    ∀ t' < s.nextTask, ∀ fd', (t', fd') ≠ (t, fd) →
      ∀ d' ∈ s.descriptor t' fd', ∀ d ∈ s.descriptor t fd, d'.handle ≠ d.handle
  | .openFile _ _ =>
    s.server.free = none → ∀ t < s.nextTask, ∀ fd, ∀ d ∈ s.descriptor t fd,
      ∀ slot ∈ s.server.slots d.handle, Server.orphaned s.alive slot = false
  | _ => True

instance (s : System) : (e : Event) → Decidable (Sole s e)
  | .close t fd =>
    inferInstanceAs (Decidable (∀ t' < s.nextTask, ∀ fd', (t', fd') ≠ (t, fd) →
      ∀ d' ∈ s.descriptor t' fd', ∀ d ∈ s.descriptor t fd, d'.handle ≠ d.handle))
  | .openFile _ _ =>
    inferInstanceAs (Decidable (s.server.free = none → ∀ t < s.nextTask, ∀ fd,
      ∀ d ∈ s.descriptor t fd, ∀ slot ∈ s.server.slots d.handle,
        Server.orphaned s.alive slot = false))
  | .transfer _ _ => .isTrue trivial
  | .fork _ => .isTrue trivial
  | .execve _ _ => .isTrue trivial
  | .exit _ => .isTrue trivial

namespace Server

variable {s s' : Server} {alive : ℕ → Bool} {path : Path} {walk : Bool} {fid : Fin maxOpenFiles}
  {d : Fd} {client : ℕ}

theorem free_slot (h : s.free = some fid) : s.slots fid = none := by
  simpa using List.find?_some h

structure Keeps (s : Server) (alive : ℕ → Bool) (d : Fd) : Prop where
  denotes : s.Denotes d
  owned : s.free = none → ∀ slot ∈ s.slots d.handle, orphaned alive slot = false

theorem Denotes.update (h : s.Denotes d) (hne : d.handle ≠ fid) (slot : Option (Slot)) (n : ℕ) :
    (⟨Function.update s.slots fid slot, n⟩ : Server).Denotes d := by
  obtain ⟨old, hold, hserial⟩ := h
  exact ⟨old, (Function.update_of_ne hne _ _).trans hold, hserial⟩

theorem Denotes.ne_of_free (h : s.Denotes d) (hfree : s.slots fid = none) : d.handle ≠ fid := by
  rintro rfl
  obtain ⟨slot, hslot, _⟩ := h
  rw [hfree] at hslot
  exact nomatch hslot

theorem Keeps.room (h : s.Keeps alive d) : (s.room alive).Keeps alive d := by
  unfold Server.room
  split
  · exact h
  · next hfull =>
    obtain ⟨slot, hslot, hserial⟩ := h.denotes
    have howned := h.owned hfull slot hslot
    have hkept : (s.reclaim alive).slots d.handle = some slot := by
      simp [reclaim, hslot, howned]
    refine ⟨⟨slot, hkept, hserial⟩, fun _ slot' hslot' => ?_⟩
    rw [Option.mem_def, hkept] at hslot'
    exact Option.some.inj hslot' ▸ howned

theorem dsExt2Open_cases (s : Server) (alive : ℕ → Bool) (path : Path) (walk : Bool) :
    s.dsExt2Open alive path walk = (s.room alive, none) ∨
      ∃ fid, (s.room alive).free = some fid ∧
        s.dsExt2Open alive path walk = ((s.room alive).fill fid path, some fid) := by
  unfold dsExt2Open
  dsimp only
  split
  · exact .inl rfl
  · next fid hfree =>
    split
    · exact .inr ⟨fid, hfree, rfl⟩
    · exact .inl rfl

theorem Denotes.own (h : s.Denotes d) (fid : Fin maxOpenFiles) (client : ℕ) :
    (s.own fid client).Denotes d := by
  obtain ⟨slot, hslot, hserial⟩ := h
  by_cases hfid : d.handle = fid
  · subst hfid
    exact ⟨{ slot with owner := some client }, by simp [Server.own, hslot], hserial⟩
  · exact ⟨slot, by simp [Server.own, Function.update_of_ne hfid, hslot], hserial⟩

theorem Keeps.fill (h : s.Keeps alive d) (hfree : s.free = some fid) (path : Path) :
    d.handle ≠ fid ∧ (s.fill fid path).Denotes d := by
  have hne := h.denotes.ne_of_free (free_slot hfree)
  exact ⟨hne, h.denotes.update hne _ _⟩

end Server

theorem vfsOpen_keeps {s : Server} {alive : ℕ → Bool} {d : Fd} (h : s.Keeps alive d)
    (client : ℕ) (a : OpenArgs) :
    (vfsOpen s alive client a).1.Denotes d ∧
      ∀ fid, (vfsOpen s alive client a).2 = some fid → d.handle ≠ fid := by
  have hroom := h.room
  unfold vfsOpen
  obtain heq | ⟨fid, hfree, heq⟩ := s.dsExt2Open_cases alive a.path a.walk
  · rw [heq]
    dsimp only
    split
    · have hagain := hroom.room
      obtain heq' | ⟨fid', hfree', heq'⟩ :=
        (s.room alive).dsExt2Open_cases alive a.path a.walkAgain
      · rw [heq']
        exact ⟨hagain.denotes, nofun⟩
      · rw [heq']
        obtain ⟨hne, hdenotes⟩ := hagain.fill hfree' a.path
        refine ⟨hdenotes.own _ _, fun fid hfid => ?_⟩
        cases hfid
        exact hne
    · exact ⟨hroom.denotes, nofun⟩
  · rw [heq]
    obtain ⟨hne, hdenotes⟩ := hroom.fill hfree a.path
    dsimp only
    split
    · exact ⟨hdenotes.update hne _ _, nofun⟩
    · refine ⟨hdenotes.own _ _, fun fid' hfid' => ?_⟩
      cases hfid'
      exact hne

structure Inv (s : System) : Prop where
  bound : Bound s
  fresh : ∀ t, s.nextTask ≤ t → s.tasks t = none

theorem inv_init : Inv init where
  bound := by
    intro t fd d hd
    unfold System.descriptor init at hd
    by_cases ht : t = 0
    · subst ht
      simp at hd
    · simp [Function.update_of_ne ht] at hd
  fresh := by
    intro t ht
    have hne : t ≠ 0 := by
      rintro rfl
      exact absurd ht (by decide)
    simp [init, Function.update_of_ne hne]

variable {s s' : System} {t : ℕ} {table : Table} {fd : Fin vfsMaxFds} {d : Fd}

theorem System.mem_descriptor :
    d ∈ s.descriptor t fd ↔ ∃ table, s.tasks t = some table ∧ table fd = some d :=
  Option.bind_eq_some_iff

theorem Inv.lt_nextTask (h : Inv s) (hd : d ∈ s.descriptor t fd) : t < s.nextTask := by
  by_contra hle
  obtain ⟨table, htable, _⟩ := System.mem_descriptor.mp hd
  rw [h.fresh t (by omega)] at htable
  exact nomatch htable

theorem Inv.setTable (h : Inv s) {server : Server} {n : ℕ} (table : Option Table)
    (hserver : ∀ t' fd', (t' ≠ t) → ∀ d ∈ s.descriptor t' fd', server.Denotes d)
    (htable : ∀ table', table = some table' → ∀ fd', ∀ d ∈ table' fd', server.Denotes d)
    (hn : s.nextTask ≤ n) (ht : t < n) :
    Inv (⟨server, Function.update s.tasks t table, n⟩ : System) where
  bound := by
    intro t' fd' d hd
    obtain ⟨table', htable', hfd⟩ := System.mem_descriptor.mp hd
    dsimp only at htable'
    by_cases hsame : t' = t
    · subst hsame
      rw [Function.update_self] at htable'
      exact htable table' htable' fd' d hfd
    · rw [Function.update_of_ne hsame] at htable'
      exact hserver t' fd' hsame d (System.mem_descriptor.mpr ⟨table', htable', hfd⟩)
  fresh := by
    intro t' ht'
    dsimp only at ht' ⊢
    rw [Function.update_of_ne (by omega)]
    exact h.fresh t' (by omega)

theorem Inv.openFile (h : Inv s) (htable : s.tasks t = some table) (a : OpenArgs)
    (hguard : s.server.free = none → ∀ t < s.nextTask, ∀ fd, ∀ d ∈ s.descriptor t fd,
      ∀ slot ∈ s.server.slots d.handle, Server.orphaned s.alive slot = false) :
    Inv (s.openFile t table a) := by
  have hkeeps (t' : ℕ) (fd' : Fin vfsMaxFds) (d' : Fd) (hd : d' ∈ s.descriptor t' fd') :
      s.server.Keeps s.alive d' :=
    ⟨h.bound t' fd' d' hd, fun hfull => hguard hfull t' (h.lt_nextTask hd) fd' d' hd⟩
  have hopened (t' : ℕ) (fd' : Fin vfsMaxFds) (d' : Fd) (hd : d' ∈ s.descriptor t' fd') :=
    vfsOpen_keeps (hkeeps t' fd' d' hd) t a
  have hlive : t < s.nextTask := by
    by_contra hle
    rw [h.fresh t (by omega)] at htable
    exact nomatch htable
  unfold System.openFile
  generalize vfsOpen s.server s.alive t a = opened at hopened
  obtain ⟨server, result⟩ := opened
  cases result with
  | none => exact ⟨fun t' fd' d' hd => (hopened t' fd' d' hd).1, h.fresh⟩
  | some fid =>
    dsimp only
    split
    · next fd₁ slot hfd hslot =>
      apply h.setTable
      · exact fun t' fd' _ d' hd => (hopened t' fd' d' hd).1
      · intro table' htable' fd' d' hd
        cases htable'
        by_cases hnew : fd' = fd₁
        · subst hnew
          rw [Function.update_self, Option.mem_some_iff] at hd
          rw [← hd]
          exact ⟨slot, hslot, rfl⟩
        · rw [Function.update_of_ne hnew] at hd
          exact (hopened t fd' d' (System.mem_descriptor.mpr ⟨table, htable, hd⟩)).1
      · exact le_refl _
      · exact hlive
    · refine ⟨fun t' fd' d' hd => ?_, h.fresh⟩
      obtain ⟨hdenotes, hne⟩ := hopened t' fd' d' hd
      exact hdenotes.update (hne fid rfl) _ _

theorem Inv.closeFile (h : Inv s) (htable : s.tasks t = some table) (hfd : table fd = some d)
    (hguard : ∀ t' < s.nextTask, ∀ fd', (t', fd') ≠ (t, fd) →
      ∀ d' ∈ s.descriptor t' fd', ∀ d ∈ s.descriptor t fd, d'.handle ≠ d.handle) :
    Inv (s.closeFile t table fd d) := by
  have hd : d ∈ s.descriptor t fd := System.mem_descriptor.mpr ⟨table, htable, hfd⟩
  have hother (t' : ℕ) (fd' : Fin vfsMaxFds) (hne : (t', fd') ≠ (t, fd)) (d' : Fd)
      (hd' : d' ∈ s.descriptor t' fd') : (s.server.dsExt2Close d.handle).Denotes d' :=
    (h.bound t' fd' d' hd').update
      (hguard t' (h.lt_nextTask hd') fd' hne d' hd' d hd) _ _
  apply h.setTable
  · exact fun t' fd' hne => hother t' fd' fun heq => hne (congrArg Prod.fst heq)
  · intro table' htable' fd' d' hd'
    cases htable'
    by_cases hsame : fd' = fd
    · subst hsame
      rw [Function.update_self] at hd'
      exact nomatch hd'
    · rw [Function.update_of_ne hsame] at hd'
      exact hother t fd' (fun heq => hsame (congrArg Prod.snd heq)) d'
        (System.mem_descriptor.mpr ⟨table, htable, hd'⟩)
  · exact le_refl _
  · exact h.lt_nextTask hd

theorem Inv.newTask (h : Inv s) (htable : s.tasks t = some table) (table' : Table)
    (hsub : ∀ fd', ∀ d ∈ table' fd', ∃ fd, table fd = some d) :
    Inv { s.setTable s.nextTask (some table') with nextTask := s.nextTask + 1 } := by
  apply h.setTable
  · exact fun t' fd' _ d' hd => h.bound t' fd' d' hd
  · intro table'' heq fd' d' hd
    cases heq
    obtain ⟨fd, hfd⟩ := hsub fd' d' hd
    exact h.bound t fd d' (System.mem_descriptor.mpr ⟨table, htable, hfd⟩)
  · exact Nat.le_succ _
  · exact Nat.lt_succ_self _

theorem Inv.exit (h : Inv s) (htable : s.tasks t = some table) : Inv (s.setTable t none) := by
  apply h.setTable
  · exact fun t' fd' _ d' hd => h.bound t' fd' d' hd
  · exact nofun
  · exact le_refl _
  · by_contra hle
    rw [h.fresh t (by omega)] at htable
    exact nomatch htable

theorem System.inherited_mem {fds : List (Fin vfsMaxFds)}
    (hd : d ∈ System.inherited table fds fd) : ∃ fd', table fd' = some d := by
  have hmem := List.mem_of_mem_take (List.mem_of_getElem? (Option.mem_def.mp hd))
  obtain ⟨fd', _, hfd'⟩ := List.mem_filterMap.mp hmem
  exact ⟨fd', hfd'⟩

theorem Inv.step {e : Event} (h : Inv s) (hguard : Sole s e) (hstep : step s e = some s') :
    Inv s' := by
  cases e with
  | openFile t a =>
    obtain ⟨table, htable, rfl⟩ := Option.map_eq_some_iff.mp hstep
    exact h.openFile htable a hguard
  | transfer t fd =>
    obtain ⟨_, _, rfl⟩ := Option.map_eq_some_iff.mp hstep
    exact h
  | close t fd =>
    obtain ⟨table, htable, hclose⟩ := Option.bind_eq_some_iff.mp hstep
    obtain ⟨d, hfd, rfl⟩ := Option.map_eq_some_iff.mp hclose
    exact h.closeFile htable hfd hguard
  | fork t =>
    obtain ⟨table, htable, rfl⟩ := Option.map_eq_some_iff.mp hstep
    exact h.newTask htable table fun fd d hd => ⟨fd, hd⟩
  | execve t fds =>
    obtain ⟨table, htable, rfl⟩ := Option.map_eq_some_iff.mp hstep
    have hne : t ≠ s.nextTask := by
      rintro rfl
      rw [h.fresh _ (le_refl _)] at htable
      exact nomatch htable
    have hnew := h.newTask htable (System.inherited table fds) fun _ _ => System.inherited_mem
    apply hnew.exit
    exact (Function.update_of_ne hne _ _).trans htable
  | exit t =>
    obtain ⟨table, htable, rfl⟩ := Option.map_eq_some_iff.mp hstep
    exact h.exit htable

/-- In every run whose closes and opens keep to `Sole`, the descriptors stay bound. -/
theorem descriptors_bound (events : List Event) (hmeet : StepsMeet step Sole init events)
    (hrun : runSteps step init events = some s) : Bound s :=
  (runSteps_invariant_of_guard (fun _ _ _ hi hg hs => hi.step hg hs) inv_init hmeet hrun).bound

def plain (path : Path) : OpenArgs := ⟨path, false, false, true, false, false⟩

/-- A forked child exits with its copy, the parent goes on with its own and hands it to a
new image, which closes it. -/
def handedOn : List Event :=
  [.openFile 0 (plain ['a']), .fork 0, .transfer 1 0, .exit 1, .transfer 0 0,
   .execve 0 [0], .openFile 2 (plain ['b']), .close 2 0, .transfer 2 1]

theorem descriptors_bound_handedOn :
    ∃ s, runSteps step init handedOn = some s ∧ s.descriptor 2 1 = some ⟨1, 1⟩ ∧ Bound s :=
  ⟨_, rfl, rfl, descriptors_bound handedOn (by decide +kernel) rfl⟩

/-- The child closes its copy and opens another file: the parent's descriptor records the
slot of that file. -/
theorem forked_descriptor_reused :
    ∃ s, runSteps step init [.openFile 0 (plain ['a']), .fork 0, .close 1 0,
        .openFile 1 (plain ['b'])] = some s ∧
      s.descriptor 0 0 = some ⟨0, 0⟩ ∧
      (s.server.slots 0).map (fun slot => (slot.serial, slot.path)) = some (1, ['b']) ∧
      ¬Bound s := by
  refine ⟨_, rfl, rfl, by decide +kernel, fun hbound => ?_⟩
  obtain ⟨slot, hslot, hserial⟩ := hbound 0 0 ⟨0, 0⟩ rfl
  cases hslot
  exact absurd hserial (by decide)

end Uros.Vfs.Inheritance
