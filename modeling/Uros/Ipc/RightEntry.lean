import Mathlib.Algebra.Ring.Nat
import Mathlib.Data.Int.Notation
import Mathlib.Logic.Function.Basic
import Mathlib.Tactic.Common

/-!
The entries of one space under the operations on rights (`ipc/ipc_right.c`).

An entry keeps its user references in the low half of `ie_bits`, below the type bits, and the
operations change them by adding to the whole word.  The state has the entries, the reverse hash
(as the map it implements) and, of each port, whether it is alive and its name when this space
receives from it.  What other tasks do is part of the step.
-/

namespace Uros.Ipc.RightEntry

abbrev RightType := BitVec 5

namespace RightType

@[simp] abbrev none : RightType := 0#5
@[simp] abbrev send : RightType := 1#5
@[simp] abbrev receive : RightType := 2#5
@[simp] abbrev sendReceive : RightType := 3#5
@[simp] abbrev sendOnce : RightType := 4#5
@[simp] abbrev sendRights : RightType := 5#5
@[simp] abbrev portRights : RightType := 7#5
@[simp] abbrev portSet : RightType := 8#5
@[simp] abbrev deadName : RightType := 16#5

end RightType

@[simp] abbrev urefsMax : ℕ := 65535

/-- `ie_bits`: 16 bits of references, 5 bits of type, and 11 bits above them (two unused ones, the
collision bit and the generation). -/
structure EntryBits where
  urefs : ℕ
  type : RightType
  high : ℕ
  deriving DecidableEq, Repr

namespace EntryBits

def word (b : EntryBits) : ℕ := b.urefs + 65536 * b.type.toNat + 2097152 * b.high

def ofWord (w : ℕ) : EntryBits := ⟨w % 65536, BitVec.ofNat 5 (w / 65536), w / 2097152 % 2048⟩

def add (b : EntryBits) (delta : ℤ) : EntryBits :=
  ofWord ((b.word + delta) % 4294967296).toNat

/-- `bits & type` -/
@[simp] def has (b : EntryBits) (type : RightType) : Bool := b.type &&& type != 0#5

@[simp] def clearSend (b : EntryBits) : EntryBits :=
  { b with urefs := 0, type := b.type &&& ~~~.send }

@[simp] def asDead (b : EntryBits) (urefs : ℕ) : EntryBits := ⟨urefs, .deadName, b.high / 4 * 4⟩

def Consistent (b : EntryBits) : Prop :=
  (b.type = .send ∨ b.type = .sendReceive) ∧ 1 ≤ b.urefs ∧ b.urefs ≤ urefsMax - 1 ∨
  b.type = .sendOnce ∧ b.urefs = 1 ∨
  b.type = .deadName ∧ 1 ≤ b.urefs ∧ b.urefs ≤ urefsMax ∨
  (b.type = .receive ∨ b.type = .portSet) ∧ b.urefs = 0

theorem add_eq {b : EntryBits} {delta : ℤ} (hhigh : b.high < 2048) (hlow : 0 ≤ b.urefs + delta)
    (hmax : b.urefs + delta ≤ urefsMax) (hurefs : b.urefs ≤ urefsMax) :
    b.add delta = { b with urefs := (b.urefs + delta).toNat } := by
  have htype : b.type.toNat < 32 := b.type.isLt
  have hword : ((b.word + delta) % 4294967296).toNat =
      (b.urefs + delta).toNat + 65536 * b.type.toNat + 2097152 * b.high := by
    simp only [word, urefsMax] at *
    omega
  rw [add, hword, ofWord]
  obtain ⟨urefs, type, high⟩ := b
  simp only [urefsMax] at *
  congr 1
  · omega
  · refine BitVec.eq_of_toNat_eq ?_
    rw [BitVec.toNat_ofNat]
    omega
  · omega

theorem add_neg_one {b : EntryBits} (hhigh : b.high < 2048) (hlow : 1 ≤ b.urefs)
    (hmax : b.urefs ≤ urefsMax) : b.add (-1) = { b with urefs := b.urefs - 1 } := by
  rw [add_eq hhigh (by omega) (by omega) hmax]
  congr 1
  omega

theorem add_one {b : EntryBits} (hhigh : b.high < 2048) (hmax : b.urefs < urefsMax) :
    b.add 1 = { b with urefs := b.urefs + 1 } := by
  rw [add_eq hhigh (by omega) (by omega) (Nat.le_of_lt hmax)]
  congr 1

theorem has_portRights {b : EntryBits} {mask : RightType} (hmask : mask &&& .portRights = mask)
    (h : b.has mask = true) : b.has .portRights = true := by
  simp only [has, bne_iff_ne] at h ⊢
  intro hnone
  rw [← hmask, BitVec.and_comm mask, ← BitVec.and_assoc, hnone, BitVec.zero_and] at h
  exact h rfl

end EntryBits

def urefsOverflow (urefs : ℕ) (delta : ℤ) : Bool :=
  decide (0 < delta) && (decide ((urefs + delta) % 4294967296 ≤ urefs) ||
    decide ((urefsMax : ℤ) < (urefs + delta) % 4294967296))

def urefsUnderflow (urefs : ℕ) (delta : ℤ) : Bool :=
  decide (delta < 0) && decide ((urefs : ℤ) < -delta % 4294967296)

theorem urefsOverflow_eq_false {urefs : ℕ} {delta : ℤ} (hurefs : urefs ≤ urefsMax)
    (hdelta : delta < 2147483648) (h : urefsOverflow urefs delta = false) :
    delta ≤ 0 ∨ urefs + delta ≤ urefsMax := by
  simp only [urefsOverflow, Bool.and_eq_false_iff, Bool.or_eq_false_iff, decide_eq_false_iff_not]
    at h
  simp only [urefsMax] at *
  omega

theorem urefsUnderflow_eq_false {urefs : ℕ} {delta : ℤ} (hdelta : -2147483648 ≤ delta)
    (h : urefsUnderflow urefs delta = false) : 0 ≤ urefs + delta := by
  simp only [urefsUnderflow, Bool.and_eq_false_iff, decide_eq_false_iff_not] at h
  omega

structure Entry (P : Type*) where
  bits : EntryBits
  object : Option P
  request : ℕ
  deriving DecidableEq, Repr

structure PortState (N : Type*) where
  active : Bool
  receiver : Option N
  deriving DecidableEq, Repr

structure Space (N P : Type*) where
  active : Bool
  entries : N → Entry P
  hash : P → Option N
  ports : P → PortState N
  /-- an addition to the references of an entry has changed its type bits -/
  carried : Bool

inductive KernReturn where
  | success
  | invalidName
  | invalidRight
  | invalidValue
  | invalidArgument
  | invalidCapability
  | urefsOverflow
  | noSpace
  | nameExists
  | rightExists
  | asserted
  deriving DecidableEq, Repr

variable {N P : Type*} [DecidableEq N] [DecidableEq P]

namespace Space

@[simp] def setEntry (s : Space N P) (n : N) (e : Entry P) : Space N P :=
  { s with entries := Function.update s.entries n e }

@[simp] def adjust (s : Space N P) (n : N) (e : Entry P) (delta : ℤ) : Space N P :=
  { s with
    entries := Function.update s.entries n { e with bits := e.bits.add delta }
    carried := s.carried || ((e.bits.add delta).type != e.bits.type) }

@[simp] def dealloc (s : Space N P) (n : N) : Space N P :=
  s.setEntry n ⟨⟨0, .none, (s.entries n).bits.high / 8 * 8⟩, none, 0⟩

@[simp] def hashInsert (s : Space N P) (port : P) (n : N) : Space N P :=
  { s with hash := Function.update s.hash port (some n) }

@[simp] def hashDelete (s : Space N P) (port : P) (n : N) : Space N P :=
  { s with
    hash := Function.update s.hash port (if s.hash port = some n then none else s.hash port) }

@[simp] def setPort (s : Space N P) (port : P) (state : PortState N) : Space N P :=
  { s with ports := Function.update s.ports port state }

def isFree (s : Space N P) (n : N) : Bool := (s.entries n).bits.type == .none

def settle (s : Space N P) (n : N) : Space N P := if s.isFree n then s.dealloc n else s

@[simp] def withPort {α : Type*} (s : Space N P) (n : N) (failed : α)
    (f : P → α × Space N P) : α × Space N P :=
  match (s.entries n).object with
  | none => (failed, s)
  | some port => f port

def rightReverse (s : Space N P) (port : P) : Option N :=
  if (s.ports port).active = false then none
  else (s.ports port).receiver <|> s.hash port

def rightCheck (s : Space N P) (port : P) (n : N) : Bool × Space N P :=
  let e := s.entries n
  if (s.ports port).active then (false, s)
  else
    let t := if e.bits.has .send then s.hashDelete port n else s
    (true, t.adjust n ⟨{ e.bits with type := .deadName }, none, 0⟩ (if e.request = 0 then 0 else 1))

def withCheck {α : Type*} (s : Space N P) (port : P) (n : N)
    (dead live : Space N P → α × Space N P) : α × Space N P :=
  if (rightCheck s port n).1 then dead (rightCheck s port n).2 else live (rightCheck s port n).2

def dncancel (s : Space N P) (n : N) : Space N P :=
  s.setEntry n { s.entries n with request := 0 }

def dnrequestDead (s : Space N P) (n : N) (immediate notify : Bool) : KernReturn × Space N P :=
  let e := s.entries n
  if e.bits.has .deadName && immediate && notify then
    if urefsOverflow e.bits.urefs 1 then (.urefsOverflow, s)
    else (.success, s.adjust n e 1)
  else if e.bits.has (.portRights ||| .deadName) then (.invalidArgument, s)
  else (.invalidRight, s)

/-- One round of `ipc_right_dnrequest`; `request` is what `ipc_port_dnrequest` answers, 0 when the
table of the port is full and has to grow before the next round. -/
def rightDnrequest (s : Space N P) (n : N) (immediate notify : Bool) (request : ℕ) :
    KernReturn × Space N P :=
  if (s.entries n).bits.has .portRights then
    s.withPort n .asserted fun port =>
      s.withCheck port n (fun t => dnrequestDead t n immediate notify) fun t =>
        if notify = false then (.success, t.dncancel n)
        else if request = 0 then (.noSpace, t.dncancel n)
        else (.success, t.setEntry n { s.entries n with request := request })
  else dnrequestDead s n immediate notify

def rightClean (s : Space N P) (n : N) (backup : Bool) : Space N P :=
  let e := s.entries n
  match e.object with
  | none => s
  | some port =>
    if e.bits.has .portRights = false ∨ (s.ports port).active = false then s
    else if e.bits.has .receive then (s.dncancel n).setPort port ⟨backup, none⟩
    else s.dncancel n

/-- `ipc_port_clear_receiver` and `ipc_port_destroy`; a port with a backup port stays alive, on its
way there. -/
@[simp] def destroyPort (s : Space N P) (port : P) (backup : Bool) : Space N P :=
  s.setPort port ⟨backup, none⟩

def rightDestroy (s : Space N P) (n : N) (backup : Bool) : KernReturn × Space N P :=
  let e := s.entries n
  if e.bits.type = .deadName ∨ e.bits.type = .portSet then (.success, s.dealloc n)
  else if e.bits.has .portRights then
    s.withPort n .asserted fun port =>
      let t := if e.bits.type = .send then s.hashDelete port n else s
      if (s.ports port).active = false then (.success, t.dealloc n)
      else if e.bits.has .receive then (.success, (t.dealloc n).destroyPort port backup)
      else (.success, t.dealloc n)
  else (.asserted, s)

def deallocDead (s : Space N P) (n : N) : Space N P :=
  if (s.entries n).bits.urefs = 1 then s.dealloc n else s.adjust n (s.entries n) (-1)

def dropSend (s : Space N P) (port : P) (n : N) : Space N P :=
  let e := s.entries n
  if e.bits.has .receive then s.setEntry n { e with bits := e.bits.clearSend }
  else (s.hashDelete port n).dealloc n

def rightDealloc (s : Space N P) (n : N) : KernReturn × Space N P :=
  let e := s.entries n
  if e.bits.type = .deadName then (.success, s.deallocDead n)
  else if e.bits.type = .sendOnce then
    s.withPort n .asserted fun port =>
      s.withCheck port n (fun t => (.success, t.deallocDead n)) fun t => (.success, t.dealloc n)
  else if e.bits.type = .send then
    s.withPort n .asserted fun port =>
      s.withCheck port n (fun t => (.success, t.deallocDead n)) fun t =>
        (.success, if e.bits.urefs = 1 then t.dropSend port n else t.adjust n e (-1))
  else if e.bits.type = .sendReceive then
    s.withPort n .asserted fun port =>
      (.success, if e.bits.urefs = 1 then s.dropSend port n else s.adjust n e (-1))
  else (.invalidRight, s)

def deltaDead (s : Space N P) (n : N) (delta : ℤ) : KernReturn × Space N P :=
  let e := s.entries n
  if urefsUnderflow e.bits.urefs delta then (.invalidValue, s)
  else if urefsOverflow e.bits.urefs delta then (.urefsOverflow, s)
  else if (e.bits.urefs + delta) % 4294967296 = 0 then (.success, s.dealloc n)
  else (.success, s.adjust n e delta)

end Space

inductive Right where
  | send
  | receive
  | sendOnce
  | portSet
  | deadName
  deriving DecidableEq, Repr

inductive CopyinType where
  | makeSend
  | makeSendOnce
  | moveReceive
  | copySend
  | moveSend
  | moveSendOnce
  deriving DecidableEq, Repr

inductive CopyoutType where
  | sendOnce
  | send
  | receive
  deriving DecidableEq, Repr

/-- What `ipc_right_copyin` hands out: the port (or `IO_DEAD`), and whether there is a `soright`. -/
structure CopiedIn (P : Type*) where
  object : Option P
  soright : Bool
  deriving DecidableEq, Repr

namespace Space

def rightDelta (s : Space N P) (n : N) (right : Right) (delta : ℤ) (backup : Bool) :
    KernReturn × Space N P :=
  let e := s.entries n
  match right with
  | .portSet =>
    if e.bits.has .portSet = false then (.invalidRight, s)
    else if delta = 0 then (.success, s)
    else if delta ≠ -1 then (.invalidValue, s)
    else (.success, s.dealloc n)
  | .receive =>
    if e.bits.has .receive = false then (.invalidRight, s)
    else if delta = 0 then (.success, s)
    else if delta ≠ -1 then (.invalidValue, s)
    else s.withPort n .asserted fun port =>
      if e.bits.has .send then
        (.success, (s.adjust n ⟨{ e.bits with type := .deadName }, none, 0⟩
          (if e.request = 0 then 0 else 1)).destroyPort port backup)
      else (.success, (s.dealloc n).destroyPort port backup)
  | .sendOnce =>
    if e.bits.has .sendOnce = false then (.invalidRight, s)
    else s.withPort n .asserted fun port =>
      s.withCheck port n (fun t => (.invalidRight, t)) fun t =>
        if 0 < delta ∨ delta < -1 then (.invalidValue, t)
        else if delta = 0 then (.success, t)
        else (.success, t.dealloc n)
  | .deadName =>
    if e.bits.has .sendRights then
      s.withPort n .asserted fun port =>
        s.withCheck port n (fun t => t.deltaDead n delta) fun t => (.invalidRight, t)
    else if e.bits.has .deadName = false then (.invalidRight, s)
    else s.deltaDead n delta
  | .send =>
    if e.bits.has .send = false then (.invalidRight, s)
    else s.withPort n .asserted fun port =>
      s.withCheck port n (fun t => (.invalidRight, t)) fun t =>
        if urefsUnderflow e.bits.urefs delta then (.invalidValue, t)
        -- one reference is kept for the dead-name notification
        else if urefsOverflow (e.bits.urefs + 1) delta then (.urefsOverflow, t)
        else if (e.bits.urefs + delta) % 4294967296 = 0 then (.success, t.dropSend port n)
        else (.success, t.adjust n e delta)

def rightInfo (s : Space N P) (n : N) : (RightType × Bool × ℕ) × Space N P :=
  let answer (t : Space N P) : RightType × Bool × ℕ :=
    ((t.entries n).bits.type, (t.entries n).request != 0, (t.entries n).bits.urefs)
  if (s.entries n).bits.has .sendRights then
    s.withPort n (answer s) fun port => (answer (rightCheck s port n).2, (rightCheck s port n).2)
  else (answer s, s)

def rightCopyinCheck (s : Space N P) (n : N) (msgtName : CopyinType) : Bool :=
  let e := s.entries n
  match msgtName with
  | .makeSend | .makeSendOnce | .moveReceive => e.bits.has .receive
  | .copySend | .moveSend | .moveSendOnce =>
    if e.bits.has .deadName then true
    else if e.bits.has .sendRights = false then false
    else match e.object with
      | none => false
      | some port =>
        if (s.ports port).active = false then true
        else if msgtName = .moveSendOnce then e.bits.has .sendOnce
        else e.bits.has .send

def copyinDead (s : Space N P) (n : N) (move deadok : Bool) : Option (CopiedIn P) × Space N P :=
  let e := s.entries n
  if deadok = false then (none, s)
  else if move = false then (some ⟨none, false⟩, s)
  else if e.bits.urefs = 1 then
    (some ⟨none, false⟩, s.setEntry n { e with bits.type := e.bits.type &&& ~~~.deadName })
  else (some ⟨none, false⟩, s.adjust n e (-1))

def takeSend (s : Space N P) (port : P) (n : N) : Space N P :=
  let e := s.entries n
  if e.bits.has .receive then s.setEntry n { e with bits := e.bits.clearSend }
  else (s.hashDelete port n).setEntry n ⟨e.bits.clearSend, none, 0⟩

def copyinLive (n : N) (msgtName : CopyinType) (port : P) (s : Space N P) :
    Option (CopiedIn P) × Space N P :=
  let e := s.entries n
  if msgtName = .moveSendOnce then
    if e.bits.has .sendOnce = false then (none, s)
    else (some ⟨some port, e.request != 0⟩,
      s.setEntry n ⟨{ e.bits with type := e.bits.type &&& ~~~.sendOnce }, none, 0⟩)
  else if e.bits.has .send = false then (none, s)
  else if msgtName = .copySend then (some ⟨some port, false⟩, s)
  else if e.bits.urefs = 1 then
    (some ⟨some port, !e.bits.has .receive && e.request != 0⟩, s.takeSend port n)
  else (some ⟨some port, false⟩, s.adjust n e (-1))

def copyinMake (s : Space N P) (n : N) : Option (CopiedIn P) × Space N P :=
  let e := s.entries n
  if e.bits.has .receive = false then (none, s) else (some ⟨e.object, false⟩, s)

def copyinReceive (s : Space N P) (n : N) : Option (CopiedIn P) × Space N P :=
  let e := s.entries n
  if e.bits.has .receive = false then (none, s)
  else s.withPort n none fun port =>
    let bits := { e.bits with type := e.bits.type &&& ~~~.receive }
    if e.bits.has .send then
      (some ⟨some port, false⟩, ((s.hashInsert port n).setEntry n { e with bits := bits }).setPort
        port { s.ports port with receiver := none })
    else
      (some ⟨some port, e.request != 0⟩, (s.setEntry n ⟨bits, none, 0⟩).setPort
        port { s.ports port with receiver := none })

def copyinSend (s : Space N P) (n : N) (msgtName : CopyinType) (deadok : Bool) :
    Option (CopiedIn P) × Space N P :=
  let e := s.entries n
  if e.bits.has .deadName then s.copyinDead n (msgtName != .copySend) deadok
  else if e.bits.has .sendRights = false then (none, s)
  else s.withPort n none fun port =>
    s.withCheck port n (fun t => t.copyinDead n (msgtName != .copySend) deadok)
      (copyinLive n msgtName port)

def rightCopyin (s : Space N P) (n : N) (msgtName : CopyinType) (deadok : Bool) :
    Option (CopiedIn P) × Space N P :=
  match msgtName with
  | .makeSend | .makeSendOnce => s.copyinMake n
  | .moveReceive => s.copyinReceive n
  | .copySend | .moveSend | .moveSendOnce => s.copyinSend n msgtName deadok

def rightCopyinUndo (s : Space N P) (n : N) (msgtName : CopyinType) (copied : CopiedIn P) :
    Space N P :=
  let e := s.entries n
  if copied.soright then s.setEntry n { e with bits := e.bits.asDead 2 }
  else if e.bits.type = .none then s.setEntry n { e with bits := e.bits.asDead 1 }
  else
    let t := if msgtName = .copySend then s else s.adjust n e 1
    match copied.object with
    | none => t
    | some port => if e.bits.type = .deadName then t else (rightCheck t port n).2

def rightCopyinTwo (s : Space N P) (n : N) : Option (CopiedIn P) × Space N P :=
  let e := s.entries n
  if e.bits.has .send = false ∨ e.bits.urefs < 2 then (none, s)
  else s.withPort n none fun port =>
    s.withCheck port n (fun t => (none, t)) fun t =>
      if e.bits.urefs = 2 then
        (some ⟨some port, !e.bits.has .receive && e.request != 0⟩, t.takeSend port n)
      else (some ⟨some port, false⟩, t.adjust n e (-2))

def rightCopyout (s : Space N P) (n : N) (msgtName : CopyoutType) (overflow : Bool) (port : P) :
    KernReturn × Space N P :=
  let e := s.entries n
  match msgtName with
  | .sendOnce =>
    (.success, s.setEntry n { e with
      bits.type := e.bits.type ||| .sendOnce, bits.urefs := e.bits.urefs ||| 1 })
  | .send =>
    if e.bits.has .send then
      if e.bits.urefs + 1 = urefsMax then
        (if overflow then .success else .urefsOverflow, s)
      else (.success, s.adjust n { e with bits.type := e.bits.type ||| .send } 1)
    else if e.bits.has .receive then
      (.success, s.adjust n { e with bits.type := e.bits.type ||| .send } 1)
    else (.success,
      (s.hashInsert port n).adjust n { e with bits.type := e.bits.type ||| .send } 1)
  | .receive =>
    let t := if e.bits.has .send then s.hashDelete port n else s
    (.success, (t.setEntry n { e with bits.type := e.bits.type ||| .receive }).setPort port
      { s.ports port with receiver := some n })

def checkRequest (s : Space N P) (n : N) : Space N P :=
  match (s.entries n).object with
  | none => s
  | some port => if (s.entries n).request = 0 then s else (rightCheck s port n).2

def rightRename (s : Space N P) (oname nname : N) : Space N P :=
  let s₁ := s.checkRequest oname
  let o := s₁.entries oname
  let e := s₁.entries nname
  let t := s₁.setEntry nname ⟨⟨e.bits.urefs ||| o.bits.urefs, e.bits.type ||| o.bits.type,
    e.bits.high ||| o.bits.high % 4⟩, o.object, o.request⟩
  match o.object with
  | none => t.dealloc oname
  | some port =>
    if o.bits.type = .send then
      (((t.hashDelete port oname).hashInsert port nname)).dealloc oname
    else if o.bits.has .receive then
      (t.setPort port { t.ports port with receiver := some nname }).dealloc oname
    else t.dealloc oname

def portDies (s : Space N P) (port : P) : Space N P :=
  if (s.ports port).receiver = none then s.setPort port ⟨false, none⟩ else s

def destDies (s : Space N P) (d : CopiedIn P) : Space N P :=
  match d.object with
  | none => s
  | some port => s.portDies port

/-- `ipc_object_alloc` and `ipc_object_alloc_dead` with the entry that `ipc_entry_alloc` found; a
new port is one that nobody has a right to. -/
def objectAlloc (s : Space N P) (n : N) (high : ℕ) (right : Right) (object : P) : Space N P :=
  if s.isFree n = false then s
  else match right with
    | .receive =>
      if (s.ports object).active = true ∨ s.hash object ≠ none then s
      else (s.setEntry n ⟨⟨0, .receive, high % 2048⟩, some object, 0⟩).setPort object ⟨true, some n⟩
    | .portSet => s.setEntry n ⟨⟨0, .portSet, high % 2048⟩, some object, 0⟩
    | .deadName => s.setEntry n ⟨⟨1, .deadName, high % 2048⟩, none, 0⟩
    | .send | .sendOnce => s

def objectCopyin (s : Space N P) (n : N) (msgtName : CopyinType) (deadok : Bool) : Space N P :=
  (s.rightCopyin n msgtName deadok).2.settle n

/-- `ipc_kmsg_copyin_header` for two names.  The port of `dest` may die between the two copyins;
`before` is the order of the deaths of the two ports. -/
def headerCopyin (s : Space N P) (dest reply : N) (destType replyType : CopyinType)
    (dies before : Bool) : Space N P :=
  if s.rightCopyinCheck reply replyType = false then s
  else match s.rightCopyin dest destType false with
    | (none, t) => t
    | (some d, t) =>
      let t₁ := if dies then t.destDies d else t
      match t₁.rightCopyin reply replyType true with
      | (none, u) => u
      | (some r, u) =>
        let destDead := d.object.all fun port => !(u.ports port).active
        if (t₁.entries reply).object ≠ none ∧ r.object = none ∧ destDead ∧ before then
          (u.rightCopyinUndo dest destType d).rightCopyinUndo reply replyType r
        else (u.settle reply).settle dest

/-- The rest of `ipc_object_copyout` and `ipc_object_copyout_name` when the space has no right to
the port yet. -/
def copyoutFresh (s : Space N P) (n : N) (high : ℕ) (msgtName : CopyoutType) (overflow : Bool)
    (port : P) : KernReturn × Space N P :=
  if s.isFree n = false then (.nameExists, s)
  else if (s.ports port).active = false then (.invalidCapability, s.dealloc n)
  else (s.setEntry n ⟨⟨0, .none, high % 2048⟩, some port, 0⟩).rightCopyout n msgtName overflow port

/-- `ipc_object_copyout`, and `ipc_object_copyout_name` when `asked`; a receive right that arrives
has no receiver. -/
def objectCopyout (s : Space N P) (asked : Bool) (n : N) (high : ℕ) (msgtName : CopyoutType)
    (overflow : Bool) (port : P) : KernReturn × Space N P :=
  if msgtName = .receive ∧ (s.ports port).receiver ≠ none then (.asserted, s)
  else if msgtName = .sendOnce then s.copyoutFresh n high msgtName overflow port
  else match s.rightReverse port with
    | none => s.copyoutFresh n high msgtName overflow port
    | some m =>
      if asked ∧ n ≠ m then (.rightExists, s) else s.rightCopyout m msgtName overflow port

def objectRename (s : Space N P) (oname nname : N) (high : ℕ) : KernReturn × Space N P :=
  if s.isFree nname = false then (.nameExists, s)
  else if oname = nname ∨ s.isFree oname then (.invalidName, s.dealloc nname)
  else (.success,
    (s.setEntry nname ⟨⟨0, .none, high % 2048⟩, none, 0⟩).rightRename oname nname)

end Space

end Uros.Ipc.RightEntry
