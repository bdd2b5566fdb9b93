import Uros.Foundation.SlotTable
import Uros.Foundation.Transition
import Mathlib.Data.UInt

/-!
The process server: its pid table, the handlers of its message loop, and the kernel
calls that they make.

The server handles one message at a time.  Next to its own variables the state records
what the kernel keeps for it: which ports and tasks are dead, how many of its
`task_suspend` calls on a task are still in force, and the messages that left the server.
A free slot of the table is all zeros, so a free slot holds nothing here.
-/

namespace Uros.Proc

open Uros.Foundation

abbrev Pid := UInt32

abbrev PortName := Nat

def portNull : PortName := 0

def pidNone : Pid := 0

def pidInit : Pid := 1

def maxTasks : Nat := 256

def sigKill : Int := 9

def sigChld : Int := 17

def sigCont : Int := 18

def sigStop : Int := 19

def sigTstp : Int := 20

def sigTtin : Int := 21

def sigTtou : Int := 22

def nsig : Int := 32

inductive ProcState where
  | running
  | zombie
  deriving DecidableEq, Repr

structure PidEntry where
  pid : Pid
  ppid : Pid
  pgrpId : Pid
  sid : Pid
  cttyPort : PortName := portNull
  fgPgrpId : Pid := 0
  stopped : Bool := false
  taskPort : PortName
  state : ProcState := .running
  exitCode : Int := 0
  exitNotify : PortName := portNull
  signalPort : PortName := portNull
  deriving DecidableEq, Repr

abbrev PidTable := SlotTable maxTasks PidEntry

inductive OutMsg where
  | exit (notify : PortName) (pid : Pid) (code : Int)
  | signal (port : PortName) (signo : Int) (sender : Pid)
  | cttyRelease (tty : PortName) (sid : Pid)
  | reaped (pid : Pid) (code : Int)
  deriving DecidableEq, Repr

structure ProcSystem where
  pidTable : PidTable
  nextPid : Pid
  dead : PortName → Bool
  suspends : PortName → Nat
  outbox : List OutMsg

def ProcSystem.init : ProcSystem where
  pidTable := fun _ => none
  nextPid := pidInit + 1
  dead := fun _ => false
  suspends := fun _ => 0
  outbox := []

def findByPid (t : PidTable) (pid : Pid) : Option (Fin maxTasks × PidEntry) :=
  t.find fun e => e.pid == pid

def findByTask (t : PidTable) (task : PortName) : Option (Fin maxTasks × PidEntry) :=
  t.find fun e => e.taskPort == task

def findSessionLeader (t : PidTable) (sid : Pid) : Option (Fin maxTasks × PidEntry) :=
  if sid = 0 then none
  else
    match findByPid t sid with
    | some (i, e) => if e.sid = sid then some (i, e) else none
    | none => none

def ProcSystem.modify (s : ProcSystem) (i : Fin maxTasks) (f : PidEntry → PidEntry) :
    ProcSystem :=
  { s with pidTable := s.pidTable.modify i f }

def ProcSystem.clear (s : ProcSystem) (i : Fin maxTasks) : ProcSystem :=
  { s with pidTable := Function.update s.pidTable i none }

def ProcSystem.alive (s : ProcSystem) (port : PortName) : Bool :=
  port != portNull && !s.dead port

def ProcSystem.kill (s : ProcSystem) (port : PortName) : ProcSystem :=
  { s with dead := Function.update s.dead port true }

def ProcSystem.setSuspends (s : ProcSystem) (task : PortName) (n : Nat) : ProcSystem :=
  { s with suspends := Function.update s.suspends task n }

def ProcSystem.post (s : ProcSystem) (m : OutMsg) : ProcSystem :=
  { s with outbox := s.outbox ++ [m] }

def taskTerminate (s : ProcSystem) (task : PortName) : ProcSystem × Bool :=
  if s.alive task then (s.kill task, true) else (s, false)

def taskSuspend (s : ProcSystem) (task : PortName) : ProcSystem × Bool :=
  if s.alive task then (s.setSuspends task (s.suspends task + 1), true) else (s, false)

def taskResume (s : ProcSystem) (task : PortName) : ProcSystem × Bool :=
  if s.alive task && s.suspends task != 0 then
    (s.setSuspends task (s.suspends task - 1), true)
  else (s, false)

def send (s : ProcSystem) (port : PortName) (m : OutMsg) : ProcSystem × Bool :=
  if s.alive port then (s.post m, true) else (s, false)

def fireExitNotify (s : ProcSystem) (notify : PortName) (pid : Pid) (code : Int) : ProcSystem :=
  if notify = portNull then s else (send s notify (.exit notify pid code)).1

def sendSignalMsg (s : ProcSystem) (sigport : PortName) (signo : Int) (sender : Pid) :
    ProcSystem × Bool :=
  send s sigport (.signal sigport signo sender)

def notifyCttyRelease (s : ProcSystem) (ctty : PortName) (sid : Pid) : ProcSystem :=
  if ctty = portNull then s else (send s ctty (.cttyRelease ctty sid)).1

inductive ProcResult where
  | ok
  | noSlot
  | notFound
  | kernel
  | badSigno
  | perm
  | diffSess
  | noCtty
  | noChild
  deriving DecidableEq, Repr

structure ProcReply where
  result : ProcResult
  pid : Pid := 0
  exitCode : Int := 0
  nSent : Nat := 0
  deriving DecidableEq, Repr

def freshEntry (s : ProcSystem) (parentPid : Pid) (taskPort : PortName) : PidEntry :=
  { pid := s.nextPid, ppid := parentPid, pgrpId := 0, sid := 0, taskPort }

def registerParent (s : ProcSystem) (i : Fin maxTasks) (parentPid : Pid) (taskPort : PortName) :
    Option PidEntry :=
  if parentPid ≠ pidNone then
    (findByPid (Function.update s.pidTable i (some (freshEntry s parentPid taskPort)))
      parentPid).map Prod.snd
  else none

def newEntry (s : ProcSystem) (i : Fin maxTasks) (parentPid : Pid) (taskPort : PortName) :
    PidEntry :=
  match registerParent s i parentPid taskPort with
  | some p => { freshEntry s parentPid taskPort with pgrpId := p.pgrpId, sid := p.sid }
  | none => { freshEntry s parentPid taskPort with pgrpId := s.nextPid, sid := s.nextPid }

def register (s : ProcSystem) (parentPid : Pid) (taskPort : PortName) : ProcSystem × ProcReply :=
  match findByTask s.pidTable taskPort with
  | some (_, e) => (s, { result := .ok, pid := e.pid })
  | none =>
    match s.pidTable.freeSlot with
    | none => (s, { result := .noSlot })
    | some i =>
      ({ s with
          pidTable := Function.update s.pidTable i (some (newEntry s i parentPid taskPort))
          nextPid := s.nextPid + 1 },
        { result := .ok, pid := s.nextPid })

def execHandoff (s : ProcSystem) (oldPid : Pid) (newTask : PortName) : ProcSystem × ProcReply :=
  match findByPid s.pidTable oldPid with
  | none => (s, { result := .notFound })
  | some (i, _) =>
    (s.modify i fun e =>
        { e with taskPort := newTask, state := .running, signalPort := portNull },
      { result := .ok })

def setExitCode (s : ProcSystem) (pid : Pid) (code : Int) : ProcSystem × ProcReply :=
  match findByPid s.pidTable pid with
  | none => (s, { result := .notFound })
  | some (i, _) => (s.modify i fun e => { e with exitCode := code }, { result := .ok })

def subscribeExit (s : ProcSystem) (pid : Pid) (notify : PortName) : ProcSystem × ProcReply :=
  match findByPid s.pidTable pid with
  | none => (s, { result := .notFound })
  | some (i, e) =>
    match e.state with
    | .zombie => (fireExitNotify (s.clear i) notify pid e.exitCode, { result := .ok })
    | .running => (s.modify i fun e => { e with exitNotify := notify }, { result := .ok })

def reapZombie (s : ProcSystem) (parentPid : Pid) : ProcSystem × ProcReply :=
  match s.pidTable.find fun e => e.ppid == parentPid && e.state == .zombie with
  | some (i, e) =>
    ((s.clear i).post (.reaped e.pid e.exitCode),
      { result := .ok, pid := e.pid, exitCode := e.exitCode })
  | none =>
    match s.pidTable.find fun e => e.ppid == parentPid with
    | some _ => (s, { result := .notFound })
    | none => (s, { result := .noChild })

def PidEntry.zombify (e : PidEntry) : PidEntry :=
  { e with
    state := .zombie
    exitNotify := portNull
    cttyPort := portNull
    fgPgrpId := if e.cttyPort ≠ portNull then 0 else e.fgPgrpId }

def parentSigport (t : PidTable) (ppid : Pid) : PortName :=
  if ppid ≠ pidNone then
    match findByPid t ppid with
    | some (_, p) => p.signalPort
    | none => portNull
  else portNull

def notifyParent (s : ProcSystem) (sigport : PortName) (pid : Pid) : ProcSystem :=
  if sigport ≠ portNull then (sendSignalMsg s sigport sigChld pid).1 else s

def doMachNotifyDeadName (s : ProcSystem) (name : PortName) : ProcSystem :=
  match findByTask s.pidTable name with
  | none => s
  | some (i, e) =>
    let s₁ := s.modify i PidEntry.zombify
    let sigport := parentSigport s₁.pidTable e.ppid
    let s₂ := if e.exitNotify ≠ portNull then s₁.clear i else s₁
    let s₃ := notifyCttyRelease s₂ e.cttyPort e.pid
    notifyParent (fireExitNotify s₃ e.exitNotify e.pid e.exitCode) sigport e.pid

def signoValid (signo : Int) : Bool :=
  0 < signo && signo < nsig

inductive SigDfl where
  | term
  | stop
  | ign
  deriving DecidableEq, Repr

def sigDefaultAction (signo : Int) : SigDfl :=
  if signo = sigChld then .ign
  else if signo = sigTstp ∨ signo = sigTtin ∨ signo = sigTtou then .stop
  else .term

def markStopped (s : ProcSystem) (pid : Pid) : ProcSystem :=
  match findByPid s.pidTable pid with
  | some (i, _) => s.modify i fun e => { e with stopped := true }
  | none => s

def stopTask (s : ProcSystem) (pid : Pid) (task : PortName) : ProcSystem × ProcResult :=
  let r := taskSuspend s task
  if r.2 then (markStopped r.1 pid, .ok) else (r.1, .kernel)

def terminateTask (s : ProcSystem) (task : PortName) : ProcSystem × ProcResult :=
  let r := taskTerminate s task
  (r.1, if r.2 then .ok else .kernel)

def applyDefaultDisposition (s : ProcSystem) (pid : Pid) (signo : Int) (task : PortName) :
    ProcSystem × ProcResult :=
  if task = portNull then (s, .kernel)
  else
    match sigDefaultAction signo with
    | .term => terminateTask s task
    | .stop => stopTask s pid task
    | .ign => (s, .ok)

def clearSignalPort (s : ProcSystem) (pid : Pid) (sigport : PortName) : ProcSystem :=
  match findByPid s.pidTable pid with
  | some (i, e) =>
    if e.signalPort = sigport then s.modify i fun e => { e with signalPort := portNull } else s
  | none => s

/-- Deliver a catchable signal: to the signal port, or by the default disposition where
there is none or it is dead. -/
def deliver (s : ProcSystem) (pid : Pid) (sigport task : PortName) (signo : Int) :
    ProcSystem × ProcResult :=
  if sigport = portNull then applyDefaultDisposition s pid signo task
  else
    let r := sendSignalMsg s sigport signo pidNone
    if r.2 then (r.1, .ok)
    else applyDefaultDisposition (clearSignalPort r.1 pid sigport) pid signo task

def setSignalPort (s : ProcSystem) (pid : Pid) (port : PortName) : ProcSystem × ProcReply :=
  match findByPid s.pidTable pid with
  | none => (s, { result := .notFound })
  | some (i, _) => (s.modify i fun e => { e with signalPort := port }, { result := .ok })

def PidEntry.continues (e : PidEntry) (grp : Pid) : Bool :=
  e.state != .zombie && e.pgrpId == grp && e.stopped

def contTasks (t : PidTable) (grp : Pid) : List PortName :=
  (t.entries.filter (·.continues grp)).map (·.taskPort)

def clearStopped (grp : Pid) (e : PidEntry) : PidEntry :=
  if e.continues grp then { e with stopped := false } else e

def resumeAll (s : ProcSystem) (tasks : List PortName) : ProcSystem :=
  tasks.foldl (fun s task => (taskResume s task).1) s

def continueGroup (s : ProcSystem) (grp : Pid) : ProcSystem :=
  resumeAll { s with pidTable := fun i => (s.pidTable i).map (clearStopped grp) }
    (contTasks s.pidTable grp)

def kill (s : ProcSystem) (pid : Pid) (signo : Int) : ProcSystem × ProcReply :=
  if !signoValid signo then (s, { result := .badSigno })
  else
    match findByPid s.pidTable pid with
    | none => (s, { result := .notFound })
    | some (_, e) =>
      if e.state = .zombie then (s, { result := .notFound })
      else if signo = sigCont then (continueGroup s e.pgrpId, { result := .ok })
      else
        let r :=
          if signo = sigKill then terminateTask s e.taskPort
          else if signo = sigStop then stopTask s pid e.taskPort
          else deliver s pid e.signalPort e.taskPort signo
        (r.1, { result := r.2 })

def killpgTargets (t : PidTable) (pgrp : Pid) : List PidEntry :=
  t.entries.filter fun e => e.state != .zombie && e.pgrpId == pgrp

def uncatchable (signo : Int) : Bool :=
  signo == sigKill || signo == sigStop || signo == sigCont

def killpgUncatch (signo : Int) (s : ProcSystem) (task : PortName) : ProcSystem × Bool :=
  if signo = sigKill then taskTerminate s task
  else if signo = sigStop then taskSuspend s task
  else taskResume s task

def sendEach {α : Type} (act : ProcSystem → α → ProcSystem × Bool) (targets : List α)
    (s : ProcSystem) : ProcSystem × Nat :=
  targets.foldl (fun acc x =>
    let r := act acc.1 x
    (r.1, if r.2 then acc.2 + 1 else acc.2)) (s, 0)

def killpgCatch (signo : Int) (s : ProcSystem) (e : PidEntry) : ProcSystem × Bool :=
  let r := deliver s e.pid e.signalPort e.taskPort signo
  (r.1, r.2 == .ok)

def killpg (s : ProcSystem) (pgrp : Pid) (signo : Int) : ProcSystem × ProcReply :=
  if !signoValid signo then (s, { result := .badSigno })
  else
    let targets := killpgTargets s.pidTable pgrp
    let r :=
      if uncatchable signo then
        sendEach (killpgUncatch signo) (targets.map (·.taskPort)) s
      else
        -- members with a signal port first, then those without
        sendEach (killpgCatch signo)
          (targets.filter (·.signalPort != portNull) ++
            targets.filter (·.signalPort == portNull)) s
    (r.1, { result := if 0 < r.2 then .ok else .notFound, nSent := r.2 })

def setsid (s : ProcSystem) (pid : Pid) : ProcSystem × ProcReply :=
  match findByPid s.pidTable pid with
  | none => (s, { result := .notFound })
  | some (i, _) =>
    match s.pidTable.find fun e => e.pgrpId == pid with
    | some _ => (s, { result := .perm })
    | none =>
      (s.modify i fun e =>
          { e with sid := pid, pgrpId := pid, cttyPort := portNull, fgPgrpId := 0 },
        { result := .ok, pid := pid })

def targetPgrp (pid pgrp : Pid) : Pid :=
  if pgrp = 0 then pid else pgrp

def setpgid (s : ProcSystem) (pid pgrp : Pid) : ProcSystem × ProcReply :=
  match findByPid s.pidTable pid with
  | none => (s, { result := .notFound })
  | some (i, e) =>
    let target := targetPgrp pid pgrp
    let moved := (s.modify i fun e => { e with pgrpId := target }, { result := .ok })
    match s.pidTable.find fun e => e.pgrpId == target with
    | some (_, member) =>
      if member.sid ≠ e.sid then (s, { result := .diffSess }) else moved
    | none => moved

def setCtty (s : ProcSystem) (sid : Pid) (tty : PortName) : ProcSystem × ProcReply :=
  match findSessionLeader s.pidTable sid with
  | none => (s, { result := .notFound })
  | some (i, e) =>
    if e.cttyPort ≠ portNull then (s, { result := .perm })
    else
      (s.modify i fun e => { e with cttyPort := tty, fgPgrpId := e.pgrpId }, { result := .ok })

def clearCtty (s : ProcSystem) (sid : Pid) : ProcSystem × ProcReply :=
  match findSessionLeader s.pidTable sid with
  | none => (s, { result := .notFound })
  | some (i, e) =>
    (notifyCttyRelease (s.modify i fun e => { e with cttyPort := portNull, fgPgrpId := 0 })
      e.cttyPort sid, { result := .ok })

def tcsetpgrp (s : ProcSystem) (sid pgrp : Pid) : ProcSystem × ProcReply :=
  match findSessionLeader s.pidTable sid with
  | none => (s, { result := .notFound })
  | some (i, e) =>
    if e.cttyPort = portNull then (s, { result := .noCtty })
    else (s.modify i fun e => { e with fgPgrpId := pgrp }, { result := .ok })

inductive ProcMsg where
  | register (parentPid : Pid) (taskPort : PortName)
  | execHandoff (oldPid : Pid) (newTask : PortName)
  | setExitCode (pid : Pid) (code : Int)
  | subscribeExit (pid : Pid) (notify : PortName)
  | reapZombie (parentPid : Pid)
  | setSignalPort (pid : Pid) (port : PortName)
  | kill (pid : Pid) (signo : Int)
  | killpg (pgrp : Pid) (signo : Int)
  | setsid (pid : Pid)
  | setpgid (pid pgrp : Pid)
  | setCtty (sid : Pid) (tty : PortName)
  | clearCtty (sid : Pid)
  | tcsetpgrp (sid pgrp : Pid)
  | deadName (name : PortName)
  | dies (port : PortName)
  deriving DecidableEq, Repr

/-- One message.  A dead-name notification only comes for a dead name. -/
def step (s : ProcSystem) : ProcMsg → Option ProcSystem
  | .register parentPid taskPort => some (register s parentPid taskPort).1
  | .execHandoff oldPid newTask => some (execHandoff s oldPid newTask).1
  | .setExitCode pid code => some (setExitCode s pid code).1
  | .subscribeExit pid notify => some (subscribeExit s pid notify).1
  | .reapZombie parentPid => some (reapZombie s parentPid).1
  | .setSignalPort pid port => some (setSignalPort s pid port).1
  | .kill pid signo => some (kill s pid signo).1
  | .killpg pgrp signo => some (killpg s pgrp signo).1
  | .setsid pid => some (setsid s pid).1
  | .setpgid pid pgrp => some (setpgid s pid pgrp).1
  | .setCtty sid tty => some (setCtty s sid tty).1
  | .clearCtty sid => some (clearCtty s sid).1
  | .tcsetpgrp sid pgrp => some (tcsetpgrp s sid pgrp).1
  | .deadName name => if s.dead name then some (doMachNotifyDeadName s name) else none
  | .dies port => some (s.kill port)

end Uros.Proc
