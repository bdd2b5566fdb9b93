import Uros.Ipc.Port

/-!
The fast copyin of `mach_msg_overwrite_trap` for an RPC request
(`ipc/mach_msg.c`, `ith_port_cache` of `kern/thread.h`).

A thread remembers the ports of its last request, the reply port in slot 0 and the
destination in slot 1.  A slot says under which name, in which space and at which
generation of the space a port was found, but not which right was checked.
-/

namespace Uros.Ipc

open Uros.Foundation

structure CacheSlot where
  name : MachPort
  port : Option PortAddr
  space : Option Nat
  gen : UInt32
  deriving DecidableEq, Repr

def CacheSlot.empty : CacheSlot := ⟨machPortNull, none, none, 0⟩

structure PortCache where
  reply : CacheSlot
  dest : CacheSlot
  spare : CacheSlot × CacheSlot
  deriving DecidableEq, Repr

namespace PortCache

def empty : PortCache := ⟨.empty, .empty, .empty, .empty⟩

def slots (c : PortCache) : List CacheSlot := [c.reply, c.dest, c.spare.1, c.spare.2]

def scan (space : IpcSpace) (replyName destName : MachPort)
    (found : Option PortAddr × Option PortAddr) (slot : CacheSlot) :
    Option PortAddr × Option PortAddr :=
  if slot.gen = space.generation ∧ slot.space = some space.id then
    if slot.name = replyName then (slot.port, found.2)
    else if slot.name = destName then (found.1, slot.port)
    else found
  else found

def lookup (c : PortCache) (space : IpcSpace) (replyName destName : MachPort) :
    Option PortAddr × Option PortAddr :=
  c.slots.foldl (scan space replyName destName) (none, none)

def invalidate (c : PortCache) : PortCache where
  reply := { c.reply with name := machPortNull }
  dest := { c.dest with name := machPortNull }
  spare := ({ c.spare.1 with name := machPortNull }, { c.spare.2 with name := machPortNull })

def fill (c : PortCache) (space : IpcSpace) (replyName destName : MachPort)
    (reply dest : PortAddr) : PortCache :=
  { c with
    reply := ⟨replyName, some reply, some space.id, space.generation⟩
    dest := ⟨destName, some dest, some space.id, space.generation⟩ }

end PortCache

abbrev TryLock := PortAddr → PortAddr → Bool

def IpcState.objectOf (s : IpcState) (name : MachPort) (right : PortRight) : Option PortAddr :=
  (s.space.lookup name).bind fun r =>
    if (s.space.read r).type.has right then (s.space.read r).object else none

theorem objectOf_eq_some {s : IpcState} {name : MachPort} {right : PortRight} {port : PortAddr} :
    s.objectOf name right = some port ↔
    ∃ r, s.space.lookup name = some r ∧ (s.space.read r).type.has right = true ∧
      (s.space.read r).object = some port := by
  simp [IpcState.objectOf, Option.bind_eq_some_iff]

theorem EntryType.ne_none_of_has {t : EntryType} {right : PortRight}
    (h : t.has right = true) : t ≠ .none := by
  rintro rfl
  cases h

/-- `urmach_msg_lockfree_resolve`; nothing else runs, so generation and table are the
same after the ports have been locked. -/
def IpcState.lockfreeResolve (s : IpcState) (replyName destName : MachPort) (tryLock : TryLock) :
    Option (PortAddr × PortAddr) :=
  match s.objectOf replyName .receive, s.objectOf destName .send with
  | some reply, some dest =>
    if (s.ports dest).active && tryLock dest reply then some (reply, dest) else none
  | _, _ => none

def lookupLocked (name : MachPort) : Kernel (Option EntryRef) := do
  let space ← Prog.read fun s => s.space
  let index := machPortIndex name
  if index < space.tableSize ∧ (space.table index).gen = machPortGen name then
    pure (some (.table index))
  else ipcEntryLookup name

def objectLocked (name : MachPort) (right : PortRight) : Kernel (Option PortAddr) := do
  let found ← lookupLocked name
  match found with
  | none => pure none
  | some r => do
      let e ← readEntry r
      if e.type.has right = false then pure none
      else do
        Prog.check (right = .send → 0 < e.urefs)
        let port ← entryPort e
        pure (some port)

def resolveLocked (replyName destName : MachPort) (tryLock : TryLock) :
    Kernel (Option (PortAddr × PortAddr)) := do
  checkActive
  let reply ← objectLocked replyName .receive
  match reply with
  | none => pure none
  | some reply => do
      let dest ← objectLocked destName .send
      match dest with
      | none => pure none
      | some dest => do
          let p ← readPort dest
          pure (if p.active && tryLock dest reply then some (reply, dest) else none)

def resolveUncached (replyName destName : MachPort) (tryLock : TryLock) :
    Kernel (Option (PortAddr × PortAddr)) := do
  let found ← Prog.read fun s => s.lockfreeResolve replyName destName tryLock
  match found with
  | some ports => pure (some ports)
  | none => resolveLocked replyName destName tryLock

def resolve (c : PortCache) (replyName destName : MachPort) (tryLock : TryLock) :
    Kernel (Option (PortAddr × PortAddr) × PortCache) := do
  let space ← Prog.read fun s => s.space
  match c.lookup space replyName destName with
  | (some reply, some dest) => do
      let p ← readPort dest
      pure (if p.active && tryLock dest reply then (some (reply, dest), c)
        else (none, c.invalidate))
  | _ => do
      let found ← resolveUncached replyName destName tryLock
      match found with
      | some (reply, dest) =>
        pure (some (reply, dest), c.fill space replyName destName reply dest)
      | none => pure (none, c)

def takeRights (replyName : MachPort) (reply dest : PortAddr) : Kernel Unit := do
  let d ← readPort dest
  Prog.check (0 < d.srights)
  modifyPort dest fun p => { p with srights := p.srights + 1, references := p.references + 1 }
  let p ← readPort reply
  let id ← Prog.read fun s => s.space.id
  Prog.check p.active
  Prog.check (p.receiverName = replyName)
  Prog.check (p.receiver = .space id)
  modifyPort reply fun p => { p with
    sorights := p.sorights + 1, references := p.references + 1 }

def fastCopyin (c : PortCache) (replyName destName rcvName : MachPort) (tryLock : TryLock) :
    Kernel (Option (PortAddr × PortAddr) × PortCache) := do
  if replyName ≠ rcvName then pure (none, c)
  else do
    let (found, c) ← resolve c replyName destName tryLock
    match found with
    | some (reply, dest) => do
        takeRights replyName reply dest
        pure (some (reply, dest), c)
    | none => pure (none, c)

end Uros.Ipc
