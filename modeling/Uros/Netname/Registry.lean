import Mathlib.Data.List.Basic

/-!
The name server: names and mounts of running servers, and the send rights it holds.

Three lists refer to ports.  `names` and `mounts` are what clients ask for; `ports` holds
one record for each port with the references kept for it, and a record's existence is
what `sub_reference` relies on.  A handler that follows a missing record has no result.
-/

namespace Uros.Netname

inductive Port where
  | null
  | dead
  | name (n : Nat)
  deriving DecidableEq

def Port.valid : Port → Bool
  | .name _ => true
  | _ => false

abbrev Text := List Char

abbrev NetName := { t : Text // t.length < 80 }

structure NameRecord where
  key : NetName
  name : Port
  sig : Port
  deriving DecidableEq

structure MountRecord where
  mountPrefix : NetName
  port : Port
  sig : Port
  deriving DecidableEq

structure PortRecord where
  port : Port
  urefs : Nat
  deriving DecidableEq

structure WatcherRecord where
  key : NetName
  notify : Port
  deriving DecidableEq

/-- The lists of the server, the notifications it has sent, and the ports behind the
names of its space that have died. -/
structure Registry where
  names : List NameRecord
  mounts : List MountRecord
  ports : List PortRecord
  watchers : List WatcherRecord
  sent : List (Port × Port)
  dead : List Port
  deriving DecidableEq

def init : Registry := ⟨[], [], [], [], [], []⟩

def maxUrefs : Nat := 1000

def moreUrefs : Nat := 1000

namespace Registry

def addReference (s : Registry) (port : Port) : Registry :=
  if !port.valid then s
  else
    match s.ports.find? (·.port = port) with
    | some this =>
      -- giving references back fails for a dead name, and the count stays
      let urefs :=
        if maxUrefs < this.urefs + 1 ∧ port ∉ s.dead then 1 else this.urefs + 1
      { s with ports := ⟨port, urefs⟩ :: s.ports.eraseP (·.port = port) }
    | none => { s with ports := ⟨port, 1⟩ :: s.ports }

def subReference (s : Registry) (port : Port) : Option Registry :=
  if !port.valid then some s
  else
    match s.ports.find? (·.port = port) with
    | some this =>
      let urefs := if this.urefs = 1 then this.urefs + moreUrefs else this.urefs
      some { s with ports := ⟨port, urefs - 1⟩ :: s.ports.eraseP (·.port = port) }
    | none => none

def removePort (s : Registry) (port : Port) : Option Registry :=
  match s.ports.find? (·.port = port) with
  | some _ =>
    some { s with
      ports := s.ports.eraseP (·.port = port)
      dead := s.dead.filter (· ≠ port) }
  | none => none

def netnameRemove (s : Registry) (port : Port) : Registry :=
  { s with names := s.names.filter fun this => ¬(this.name = port ∨ this.sig = port) }

def notifyWatchersFor (s : Registry) (key : NetName) (servicePort : Port) : Registry :=
  { s with
    watchers := s.watchers.filter (·.key ≠ key)
    sent := s.sent ++ (s.watchers.filter (·.key = key)).map fun w => (w.notify, servicePort) }

end Registry

inductive Result where
  | success | notYours | notCheckedIn | mountExists | noMount | resourceShortage
  deriving DecidableEq

structure Reply where
  code : Result
  port : Option Port := none
  text : Text := []
  count : Nat := 0
  deriving DecidableEq

namespace Registry

def insertName (s : Registry) (this : NameRecord) (rest : List NameRecord) : Registry :=
  let s := { s with names := this :: rest }
  ((s.addReference this.sig).addReference this.name).notifyWatchersFor this.key this.name

def checkIn (s : Registry) (key : NetName) (sig name : Port) (room : Bool) : Reply × Registry :=
  match s.names.find? (·.key = key) with
  | some this =>
    if this.sig = sig then
      ({ code := .success },
        s.insertName { this with name := name } (s.names.eraseP (·.key = key)))
    else ({ code := .notYours }, s)
  | none =>
    if room then ({ code := .success }, s.insertName ⟨key, name, sig⟩ s.names)
    else ({ code := .resourceShortage }, s)

def toFront (s : Registry) (this : NameRecord) : Registry :=
  { s with names := this :: s.names.eraseP (·.key = this.key) }

def lookUp (s : Registry) (key : NetName) : Option (Reply × Registry) :=
  match s.names.find? (·.key = key) with
  | some this =>
    ((s.toFront this).subReference this.name).map fun s =>
      ({ code := .success, port := some this.name }, s)
  | none => some ({ code := .notCheckedIn }, s)

def checkOut (s : Registry) (key : NetName) (sig : Port) : Reply × Registry :=
  match s.names.find? (·.key = key) with
  | some this =>
    if this.sig = sig then
      ({ code := .success },
        { s with names := s.names.eraseP (·.key = key) }.addReference sig)
    else ({ code := .notYours }, s)
  | none => ({ code := .notCheckedIn }, s)

def notify (s : Registry) (key : NetName) (port : Port) (room : Bool) : Reply × Registry :=
  match s.names.find? (·.key = key) with
  | some this =>
    let s := s.toFront this
    ({ code := .success }, { s with sent := s.sent ++ [(port, this.name)] })
  | none =>
    if room then ({ code := .success }, { s with watchers := ⟨key, port⟩ :: s.watchers })
    else ({ code := .resourceShortage }, s)

def mountPrefixMatch (path pre : Text) : Nat :=
  if path.length < pre.length then 0
  else if path.take pre.length ≠ pre then 0
  else if pre = ['/'] then 1
  else
    match path[pre.length]? with
    | none => pre.length
    | some c => if c = '/' then pre.length else 0

def checkInMount (s : Registry) (pre : NetName) (sig port : Port) (room : Bool) :
    Reply × Registry :=
  if pre.1.head? ≠ some '/' then ({ code := .notYours }, s)
  else if s.mounts.any (·.mountPrefix = pre) then ({ code := .mountExists }, s)
  else if room then
    let s := { s with mounts := ⟨pre, port, sig⟩ :: s.mounts }
    ({ code := .success }, (s.addReference sig).addReference port)
  else ({ code := .resourceShortage }, s)

def checkOutMount (s : Registry) (pre : NetName) (sig : Port) : Reply × Registry :=
  match s.mounts.find? (·.mountPrefix = pre) with
  | some this =>
    if this.sig = sig then
      ({ code := .success },
        { s with mounts := s.mounts.eraseP (·.mountPrefix = pre) }.addReference sig)
    else ({ code := .notYours }, s)
  | none => ({ code := .notCheckedIn }, s)

def bestMount (path : Text) : List MountRecord → Option MountRecord → Nat → Option MountRecord
  | [], best, _ => best
  | this :: mounts, best, bestLen =>
    let mlen := mountPrefixMatch path this.mountPrefix.1
    if bestLen < mlen then bestMount path mounts (some this) mlen
    else bestMount path mounts best bestLen

def lookUpMount (s : Registry) (path : Text) : Option (Reply × Registry) :=
  match bestMount path s.mounts none 0 with
  | some best =>
    (s.subReference best.port).map fun s =>
      ({ code := .success, port := some best.port, text := best.mountPrefix.1 }, s)
  | none => some ({ code := .noMount }, s)

def pathSize : Nat := 1024

def listFrom : List MountRecord → Text → Nat → Text × Nat
  | [], out, n => (out, n)
  | this :: mounts, out, n =>
    if pathSize < out.length + this.mountPrefix.1.length + 2 then (out, n)
    else listFrom mounts (out ++ this.mountPrefix.1 ++ ['\n']) (n + 1)

def listMounts (s : Registry) : Reply × Registry :=
  let (text, count) := listFrom s.mounts [] 0
  ({ code := .success, text, count }, s)

def deadName (s : Registry) (port : Port) : Option (Reply × Registry) :=
  ((s.netnameRemove port).removePort port).map fun s => ({ code := .success }, s)

end Registry

inductive Request where
  | checkIn (key : NetName) (sig name : Port) (room : Bool)
  | lookUp (key : NetName)
  | checkOut (key : NetName) (sig : Port)
  | notify (key : NetName) (port : Port) (room : Bool)
  | checkInMount (pre : NetName) (sig port : Port) (room : Bool)
  | checkOutMount (pre : NetName) (sig : Port)
  | lookUpMount (path : Text)
  | listMounts
  | deadName (port : Port)
  deriving DecidableEq

/-- The handler of a request; without a result it has followed a missing record. -/
def handle (s : Registry) : Request → Option (Reply × Registry)
  | .checkIn key sig name room => some (s.checkIn key sig name room)
  | .lookUp key => s.lookUp key
  | .checkOut key sig => some (s.checkOut key sig)
  | .notify key port room => some (s.notify key port room)
  | .checkInMount pre sig port room => some (s.checkInMount pre sig port room)
  | .checkOutMount pre sig => some (s.checkOutMount pre sig)
  | .lookUpMount path => s.lookUpMount path
  | .listMounts => some s.listMounts
  | .deadName port => s.deadName port

inductive Event where
  | request (r : Request)
  | die (port : Port)
  deriving DecidableEq

/-- The kernel sends a dead-name notification only for a dead port that was asked for. -/
def step (s : Registry) : Event → Option Registry
  | .die port => some { s with dead := port :: s.dead }
  | .request (.deadName port) =>
    if port.valid ∧ port ∈ s.dead then (handle s (.deadName port)).map Prod.snd else none
  | .request r => (handle s r).map Prod.snd

end Uros.Netname
