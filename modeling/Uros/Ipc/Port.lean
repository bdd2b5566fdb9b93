import Uros.Foundation.StateProg
import Uros.Ipc.Space

/-!
Ports and the state that one space and all ports form (`ipc/ipc_port.c`).

Kernel functions are programs over this state; a failed assertion is a panic.
Ports live in type-stable memory, so every address has a port structure.
-/

namespace Uros.Ipc

open Uros.Foundation

inductive PortHolder where
  | space (id : Nat)
  | transit (destination : Option PortAddr)
  deriving DecidableEq, Repr

structure DnRequest where
  index : Nat
  name : MachPort
  soright : PortAddr
  deriving DecidableEq, Repr

structure IpcPort where
  active : Bool
  references : Nat
  receiver : PortHolder
  receiverName : MachPort
  mscount : Nat
  srights : Nat
  sorights : Nat
  nsrequest : Option PortAddr
  pdrequest : Option PortAddr
  dnrequests : List DnRequest
  timestamp : UInt32
  deriving DecidableEq, Repr

inductive Notice where
  | portDeleted (soright : PortAddr) (name : MachPort)
  | deadName (soright : PortAddr) (name : MachPort)
  | sendOnce (port : PortAddr)
  | noSenders (nsrequest : PortAddr) (mscount : Nat)
  | portDestroyed (pdrequest port : PortAddr)
  deriving DecidableEq, Repr

structure IpcState where
  space : IpcSpace
  ports : PortAddr → IpcPort
  notices : List Notice

namespace IpcState

def setEntry (s : IpcState) (r : EntryRef) (f : IpcEntry → IpcEntry) : IpcState :=
  { s with space := s.space.write (f (s.space.read r)) r }

def setPort (s : IpcState) (port : PortAddr) (f : IpcPort → IpcPort) : IpcState :=
  { s with ports := Function.update s.ports port (f (s.ports port)) }

def setFree (s : IpcState) (free : List Nat) : IpcState :=
  { s with space := { s.space with free } }

def release (s : IpcState) (r : EntryRef) : IpcState := { s with space := s.space.release r }

end IpcState

abbrev Kernel := Prog IpcState

def readEntry (r : EntryRef) : Kernel IpcEntry := Prog.read fun s => s.space.read r

def modifyEntry (r : EntryRef) (f : IpcEntry → IpcEntry) : Kernel Unit :=
  Prog.update fun s => s.setEntry r f

def readPort (port : PortAddr) : Kernel IpcPort := Prog.read fun s => s.ports port

def modifyPort (port : PortAddr) (f : IpcPort → IpcPort) : Kernel Unit :=
  Prog.update fun s => s.setPort port f

def checkActive : Kernel Unit := do
  let active ← Prog.read fun s => s.space.active
  Prog.check active

def entryPort (e : IpcEntry) : Kernel PortAddr :=
  match e.object with
  | some port => pure port
  | none => Prog.panic

section Rules

variable {s : IpcState} {r : EntryRef} {port : PortAddr}

@[simp] theorem ensures_checkActive {Q : Unit → IpcState → Prop} :
    Ensures checkActive s Q ↔ (s.space.active = true → Q () s) := by
  simp [checkActive]

@[simp] theorem ensures_readEntry {r : EntryRef} {Q : IpcEntry → IpcState → Prop} :
    Ensures (readEntry r) s Q ↔ Q (s.space.read r) s := ensures_read

@[simp] theorem ensures_readPort {port : PortAddr} {Q : IpcPort → IpcState → Prop} :
    Ensures (readPort port) s Q ↔ Q (s.ports port) s := ensures_read

@[simp] theorem ensures_modifyEntry {r : EntryRef} {f : IpcEntry → IpcEntry}
    {Q : Unit → IpcState → Prop} : Ensures (modifyEntry r f) s Q ↔ Q () (s.setEntry r f) :=
  ensures_update

@[simp] theorem ensures_modifyPort {port : PortAddr} {f : IpcPort → IpcPort}
    {Q : Unit → IpcState → Prop} : Ensures (modifyPort port f) s Q ↔ Q () (s.setPort port f) :=
  ensures_update

@[simp] theorem ensures_entryPort {e : IpcEntry} {Q : PortAddr → IpcState → Prop} :
    Ensures (entryPort e) s Q ↔ ∀ port, e.object = some port → Q port s := by
  unfold entryPort
  cases e.object <;> simp

end Rules

def ipcEntryLookup (name : MachPort) : Kernel (Option EntryRef) := do
  checkActive
  let found ← Prog.read fun s => s.space.lookup name
  match found with
  | none => pure none
  | some r => do
      let e ← readEntry r
      Prog.check (e.type ≠ .none)
      pure (some r)

theorem ipcEntryLookup_ensures {s : IpcState} {name : MachPort} :
    Ensures (ipcEntryLookup name) s fun found s' => s' = s ∧ found = s.space.lookup name := by
  simp only [ipcEntryLookup, ensures_bind, ensures_checkActive, ensures_read]
  intro _
  cases s.space.lookup name <;> simp

def ipcEntryGet : Kernel (Option (MachPort × EntryRef)) := do
  checkActive
  let free ← Prog.read fun s => s.space.free
  match free with
  | [] => pure none
  | index :: rest => do
      let e ← readEntry (.table index)
      Prog.check (e.type = .none ∧ e.urefs = 0)
      Prog.update fun s => s.setFree rest
      modifyEntry (.table index) fun e => { e with gen := newGen e.gen, request := 0 }
      let name := machPortMake index (newGen e.gen)
      Prog.check (machPortValid name)
      Prog.check (e.object = none)
      pure (some (name, .table index))

def ipcEntryDealloc (name : MachPort) (r : EntryRef) : Kernel Unit := do
  checkActive
  let e ← readEntry r
  Prog.check (e.object = none)
  Prog.check (e.request = 0)
  let size ← Prog.read fun s => s.space.tableSize
  if machPortIndex name < size ∧ r = .table (machPortIndex name) then do
    Prog.check (e.gen = machPortGen name)
    Prog.update fun s => s.release r
  else do
    let deleted ← Prog.read fun s => s.space.tree (machPortIndex name)
    Prog.check (r = .tree (machPortIndex name) ∧ deleted.isSome)
    Prog.update fun s => s.release r

end Uros.Ipc
