import Uros.Foundation.Transition
import Mathlib.Data.UInt
import Mathlib.Logic.Function.Basic

/-!
The character server: its device table, the terminal modules behind it, and the handlers of
its message loop.

The server handles one message at a time.  What other servers and the hardware answer while
it does (token checks, `proc_server`, the receive FIFO) comes with the message, as an `Env`.
Every port of the server is in one port set, so a message is told apart by its identifier and,
for interrupts, by the port it arrived on.
-/

namespace Uros.Char

open Uros.Foundation

inductive DevClass where
  | keyboard
  | tty
  | mouse
  deriving DecidableEq, Repr

inductive Module where
  | ps2
  | ps2Mouse
  | console (surface : UInt32)
  | uart
  deriving DecidableEq, Repr

def Module.deviceClass : Module → DevClass
  | .ps2 => .keyboard
  | .ps2Mouse => .mouse
  | .console _ => .tty
  | .uart => .tty

def Module.ringRoom : Module → ℕ
  | .console _ => 1023
  | .uart => 4095
  | _ => 0

/-- `char_device_entry` with the module's own state: the bytes in its ring and the ports of its
subscribers. -/
structure Device where
  module : Module
  cttySid : UInt32 := 0
  ttyTostop : Bool := false
  ring : List UInt8 := []
  subscribers : List ℕ := []
  deriving DecidableEq, Repr

def Device.isTty (dev : Device) : Bool := dev.module.deviceClass == .tty

/-- `console_ring_push`, and the same lines of `uart_irq_handler`: a byte that finds the ring
full is lost. -/
def Device.ringPush (dev : Device) (b : UInt8) : Device :=
  if dev.ring.length < dev.module.ringRoom then { dev with ring := dev.ring ++ [b] } else dev

def charMaxDevices : ℕ := 8

def charMaxSubscribers : ℕ := 8

structure CharState where
  devices : ℕ → Option Device
  activeSurface : UInt32
  shownUsh : Bool
  kbdSink : Bool

namespace CharState

def devLookup (s : CharState) (id : ℕ) : Option Device :=
  if id = 0 ∨ charMaxDevices ≤ id then none else s.devices id

def setDev (s : CharState) (id : ℕ) (dev : Device) : CharState :=
  { s with devices := Function.update s.devices id (some dev) }

def ids : List ℕ := List.range' 1 (charMaxDevices - 1)

def devByModule (s : CharState) (m : Module) : Option ℕ :=
  ids.find? fun id => (s.devices id).any fun dev => dev.module == m

def devCount (s : CharState) : ℕ := (ids.filter fun id => (s.devices id).isSome).length

def releaseCtty (s : CharState) (sid : UInt32) : CharState :=
  if sid = 0 then s
  else
    { s with devices := fun id => (s.devices id).map fun dev =>
        if id ∈ ids ∧ dev.cttySid = sid then { dev with cttySid := 0 } else dev }

end CharState

structure Env where
  capVerify : ℕ → UInt64 → ℕ → Bool
  procUp : Bool
  procGetsid : UInt32 → Option UInt32
  procGetpgid : UInt32 → Option UInt32
  procTcgetpgrp : UInt32 → Option UInt32
  procSetCtty : UInt32 → Option ℤ
  ddbBreak : Bool
  fifo : List UInt8

def capKbdRead : UInt64 := 1

def capTtyRw : UInt64 := 2

def capTtyConfig : UInt64 := 4

def capMouseRead : UInt64 := 16

def capCheck (env : Env) (cap : Option ℕ) (op : UInt64) (devId : ℕ) : Bool :=
  cap.any fun token => env.capVerify token op devId

def isPositive (n : UInt32) : Bool := n != 0 && n < 0x80000000

def procOk : ℤ := 0

def sigInt : ℕ := 2

def sigTstp : ℕ := 20

def sigTtin : ℕ := 21

def sigTtou : ℕ := 22

def ttySessionOwnerCheck (env : Env) (dev : Device) (callerPid : UInt32) : Bool :=
  isPositive callerPid && dev.cttySid != 0 && env.procUp &&
    env.procGetsid callerPid == some dev.cttySid

def ttyInputIsig (env : Env) (dev : Device) (byte : UInt8) : Option (UInt32 × ℕ) :=
  let signo := if byte = 0x03 then some sigInt else if byte = 0x1a then some sigTstp else none
  signo.bind fun signo =>
    if dev.cttySid != 0 && env.procUp then
      (env.procTcgetpgrp dev.cttySid).bind fun pgrp =>
        if isPositive pgrp then some (pgrp, signo) else none
    else none

def ttyJobctlCheck (env : Env) (dev : Device) (callerPid : UInt32) (signo : ℕ) :
    Option (UInt32 × ℕ) :=
  if callerPid = 0 ∨ dev.cttySid = 0 ∨ env.procUp = false then none
  else if env.procGetsid callerPid ≠ some dev.cttySid then none
  else
    (env.procTcgetpgrp dev.cttySid).bind fun fgPgrp =>
      (env.procGetpgid callerPid).bind fun pgrp =>
        if pgrp = fgPgrp then none else some (pgrp, signo)

structure KbdEvent where
  keysym : UInt32
  modifiers : UInt32
  pressed : Bool
  deriving DecidableEq, Repr

def KbdEvent.shift (ev : KbdEvent) : Bool := ev.modifiers &&& 1 != 0

def KbdEvent.ctrl (ev : KbdEvent) : Bool := ev.modifiers &&& 2 != 0

def KbdEvent.alt (ev : KbdEvent) : Bool := ev.modifiers &&& 4 != 0

def ksymF1 : UInt32 := 0xFFBE

def ksymPgup : UInt32 := 0xFF55

def ksymPgdn : UInt32 := 0xFF56

def consoleVtMax : UInt32 := 4

def KbdEvent.byte (ev : KbdEvent) : Option UInt8 :=
  if ev.keysym < 0x80 then
    let b := ev.keysym.toUInt8
    if ev.ctrl then
      if 0x61 ≤ b ∧ b ≤ 0x7a then some (b - 0x61 + 1)
      else if 0x40 ≤ b ∧ b ≤ 0x5f then some (b &&& 0x1f)
      else some b
    else some b
  else if ev.keysym = 0xFF0D then some 0x0d
  else if ev.keysym = 0xFF08 then some 0x08
  else if ev.keysym = 0xFF09 then some 0x09
  else if ev.keysym = 0xFF1B then some 0x1b
  else none

inductive KernReturn where
  | success
  | invalidArgument
  | protectionFailure
  | failure
  | transport
  | noReply
  | badId
  deriving DecidableEq, Repr

structure Reply where
  kr : KernReturn
  result : ℤ := 0
  buf : List UInt8 := []
  devId : ℕ := 0
  signals : List (UInt32 × ℕ) := []
  deriving DecidableEq, Repr

def inputByte (env : Env) (dev : Device) (b : UInt8) : Device × List (UInt32 × ℕ) :=
  match ttyInputIsig env dev b with
  | some signal => (dev, [signal])
  | none => (dev.ringPush b, [])

def consoleKbdSink (env : Env) (s : CharState) (ev : KbdEvent) :
    CharState × List (UInt32 × ℕ) :=
  if !ev.pressed || ev.keysym == 0 then (s, [])
  else if ev.ctrl && ev.alt && ksymF1 ≤ ev.keysym && ev.keysym < ksymF1 + consoleVtMax then
    ({ s with activeSurface := ev.keysym - ksymF1 }, [])
  else if ev.shift && (ev.keysym == ksymPgup || ev.keysym == ksymPgdn) then (s, [])
  else
    match ev.byte, s.devByModule (.console s.activeSurface) with
    | some b, some id =>
      match s.devices id with
      | some dev => let r := inputByte env dev b; (s.setDev id r.1, r.2)
      | none => (s, [])
    | _, _ => (s, [])

def uartIrqHandler (env : Env) (dev : Device) : Device × List (UInt32 × ℕ) :=
  (env.fifo.take 64).foldl (fun r b =>
    if b = 0x04 ∧ env.ddbBreak then r
    else let r' := inputByte env r.1 b; (r'.1, r.2 ++ r'.2)) (dev, [])

def moduleTtyRead (env : Env) (dev : Device) (max : ℕ) :
    Device × List UInt8 × List (UInt32 × ℕ) :=
  let r :=
    if dev.module = .uart ∧ dev.ring = [] ∧ env.fifo ≠ [] then uartIrqHandler env dev
    else (dev, [])
  ({ r.1 with ring := r.1.ring.drop max }, r.1.ring.take max, r.2)

inductive Request where
  | queryDevices
  | deviceOpen (cap : Option ℕ) (devId : ℕ)
  | kbdSubscribe (cap : Option ℕ) (devId port : ℕ)
  | ttyRead (cap : Option ℕ) (devId : ℕ) (callerPid : UInt32) (max : ℕ)
  | ttyWrite (cap : Option ℕ) (devId : ℕ) (callerPid : UInt32) (buf : List UInt8)
  | ttySetTostop (cap : Option ℕ) (devId : ℕ) (enable : Bool)
  | ttySetAttr (cap : Option ℕ) (devId baud : ℕ)
  | ttySubscribe (cap : Option ℕ) (devId port : ℕ)
  | ttyGetCtty (sid : UInt32)
  | ttyAcquireCtty (cap : Option ℕ) (devId : ℕ) (sid : UInt32)
  | mouseSubscribe (cap : Option ℕ) (devId port : ℕ)
  deriving DecidableEq, Repr

def chrOk : ℤ := 0

def chrTtyBackground : ℤ := -1

def chrErrInval : ℤ := -2

def chrBufMax : ℕ := 4096

def classToOpenOp : DevClass → UInt64
  | .keyboard => capKbdRead
  | .tty => capTtyRw
  | .mouse => capMouseRead

def deviceOpen (env : Env) (s : CharState) (cap : Option ℕ) (devId : ℕ) : CharState × Reply :=
  match s.devLookup devId with
  | none => (s, { kr := .invalidArgument })
  | some dev =>
    if capCheck env cap (classToOpenOp dev.module.deviceClass) devId then
      (s, { kr := .success })
    else (s, { kr := .protectionFailure })

def withDevice (s : CharState) (cls : DevClass) (devId : ℕ)
    (body : Device → CharState × Reply) (result : ℤ) : CharState × Reply :=
  match s.devLookup devId with
  | none => (s, { kr := .invalidArgument, result })
  | some dev =>
    if dev.module.deviceClass ≠ cls then (s, { kr := .invalidArgument, result }) else body dev

def subscribe (env : Env) (s : CharState) (cls : DevClass) (op : UInt64) (cap : Option ℕ)
    (devId port : ℕ) : CharState × Reply :=
  withDevice s cls devId (fun dev =>
    if !capCheck env cap op devId then (s, { kr := .protectionFailure })
    else if charMaxSubscribers ≤ dev.subscribers.length then (s, { kr := .failure })
    else
      (s.setDev devId { dev with subscribers := dev.subscribers ++ [port] },
        { kr := .success })) 0

def ttyRead (env : Env) (s : CharState) (cap : Option ℕ) (devId : ℕ) (callerPid : UInt32)
    (max : ℕ) : CharState × Reply :=
  withDevice s .tty devId (fun dev =>
    if !ttySessionOwnerCheck env dev callerPid && !capCheck env cap capTtyRw devId then
      (s, { kr := .protectionFailure, result := chrErrInval })
    else
      match ttyJobctlCheck env dev callerPid sigTtin with
      | some signal =>
        (s, { kr := .success, result := chrTtyBackground, signals := [signal] })
      | none =>
        let r := moduleTtyRead env dev (min max chrBufMax)
        (s.setDev devId r.1,
          { kr := .success, result := chrOk, buf := r.2.1, signals := r.2.2 })) chrErrInval

def moduleTtyWrite (s : CharState) (m : Module) : CharState :=
  match m with
  | .console surface =>
    if s.shownUsh then s else { s with shownUsh := true, activeSurface := surface }
  | _ => s

def ttyWrite (env : Env) (s : CharState) (cap : Option ℕ) (devId : ℕ) (callerPid : UInt32) :
    CharState × Reply :=
  withDevice s .tty devId (fun dev =>
    if !ttySessionOwnerCheck env dev callerPid && !capCheck env cap capTtyRw devId then
      (s, { kr := .protectionFailure, result := chrErrInval })
    else
      match if dev.ttyTostop then ttyJobctlCheck env dev callerPid sigTtou else none with
      | some signal =>
        (s, { kr := .success, result := chrTtyBackground, signals := [signal] })
      | none => (moduleTtyWrite s dev.module, { kr := .success, result := chrOk })) chrErrInval

def ttySetTostop (env : Env) (s : CharState) (cap : Option ℕ) (devId : ℕ) (enable : Bool) :
    CharState × Reply :=
  withDevice s .tty devId (fun dev =>
    if !capCheck env cap capTtyConfig devId then
      (s, { kr := .protectionFailure, result := chrErrInval })
    else
      (s.setDev devId { dev with ttyTostop := enable }, { kr := .success, result := chrOk }))
    chrErrInval

def ttySetAttr (env : Env) (s : CharState) (cap : Option ℕ) (devId baud : ℕ) :
    CharState × Reply :=
  withDevice s .tty devId (fun dev =>
    if !capCheck env cap capTtyConfig devId then (s, { kr := .protectionFailure })
    else if dev.module = .uart ∧ (baud = 0 ∨ 115200 < baud ∨ 0xFFFF < 115200 / baud) then
      (s, { kr := .failure })
    else (s, { kr := .success })) 0

def ttyGetCtty (s : CharState) (sid : UInt32) : Reply :=
  if !isPositive sid then { kr := .success, result := chrErrInval }
  else
    match (List.range' 1 s.devCount).find? fun id =>
      (s.devLookup id).any fun dev => dev.isTty && dev.cttySid == sid with
    | some id => { kr := .success, result := chrOk, devId := id }
    | none => { kr := .success, result := chrErrInval }

def acquireCheck (env : Env) (s : CharState) (cap : Option ℕ) (devId : ℕ) : KernReturn :=
  match s.devLookup devId with
  | none => .invalidArgument
  | some dev =>
    if !dev.isTty then .invalidArgument
    else if dev.cttySid ≠ 0 ∧ capCheck env cap capTtyRw devId = false then .protectionFailure
    else if env.procUp then .success
    else .failure

def bindCtty (s : CharState) (devId : ℕ) (sid : UInt32) : CharState :=
  match s.devices devId with
  | some dev => s.setDev devId { dev with cttySid := sid }
  | none => s

def ttyAcquireCtty (env : Env) (s : CharState) (cap : Option ℕ) (devId : ℕ) (sid : UInt32) :
    CharState × Reply :=
  match acquireCheck env s cap devId with
  | .success =>
    match env.procSetCtty sid with
    | none => (s, { kr := .transport })
    | some rc =>
      (if rc = procOk then bindCtty s devId sid else s, { kr := .success, result := rc })
  | kr => (s, { kr })

def charServer (env : Env) (s : CharState) : Request → CharState × Reply
  | .queryDevices => (s, { kr := .success, devId := s.devCount })
  | .deviceOpen cap devId => deviceOpen env s cap devId
  | .kbdSubscribe cap devId port => subscribe env s .keyboard capKbdRead cap devId port
  | .ttyRead cap devId callerPid max => ttyRead env s cap devId callerPid max
  | .ttyWrite cap devId callerPid _ => ttyWrite env s cap devId callerPid
  | .ttySetTostop cap devId enable => ttySetTostop env s cap devId enable
  | .ttySetAttr cap devId baud => ttySetAttr env s cap devId baud
  | .ttySubscribe cap devId port => subscribe env s .tty capTtyRw cap devId port
  | .ttyGetCtty sid => (s, ttyGetCtty s sid)
  | .ttyAcquireCtty cap devId sid => ttyAcquireCtty env s cap devId sid
  | .mouseSubscribe cap devId port => subscribe env s .mouse capMouseRead cap devId port

inductive Content where
  | irq (irq : ℕ)
  | kbdEvent (ev : KbdEvent)
  | cttyRelease (sid : UInt32)
  | request (r : Request)
  | capRevoke
  | unknown
  deriving DecidableEq, Repr

/-- Who sent a message.  Tasks and `proc_server` send to the service port; a task is known by
its pid, if it has one. -/
inductive Source where
  | task (pid : Option UInt32)
  | procServer
  | irqPort (irq : ℕ)
  | loopback
  deriving DecidableEq, Repr

structure Message where
  source : Source
  content : Content
  deriving DecidableEq, Repr

def uartIrq : ℕ := 4

/-- `char_core_dispatch_irq`: the handler of the port that the message came in on.  The
keyboard's and the mouse's handlers only send messages. -/
def dispatchIrq (env : Env) (s : CharState) (source : Source) :
    CharState × List (UInt32 × ℕ) :=
  if source = .irqPort uartIrq then
    match s.devByModule .uart with
    | some id =>
      match s.devices id with
      | some dev => let r := uartIrqHandler env dev; (s.setDev id r.1, r.2)
      | none => (s, [])
    | none => (s, [])
  else (s, [])

def charDemux (env : Env) (s : CharState) (m : Message) : CharState × Reply :=
  match m.content with
  | .irq _ => let r := dispatchIrq env s m.source; (r.1, { kr := .noReply, signals := r.2 })
  | .kbdEvent ev =>
    if s.kbdSink then
      let r := consoleKbdSink env s ev
      (r.1, { kr := .noReply, signals := r.2 })
    else (s, { kr := .noReply })
  | .cttyRelease sid => (s.releaseCtty sid, { kr := .noReply })
  | .request r => charServer env s r
  | .capRevoke => (s, { kr := .noReply })
  | .unknown => (s, { kr := .badId })

def step (s : CharState) (e : Env × Message) : Option CharState :=
  some (charDemux e.1 s e.2).1

end Uros.Char
