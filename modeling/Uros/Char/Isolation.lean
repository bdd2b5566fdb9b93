import Uros.Char.Server

/-!
Terminals of the character server are closed to outsiders.

A task is an outsider to a bound terminal if it belongs to another session and presents no
token for the terminal.  The server takes the caller's pid from the request and knows its
internal messages by their identifier alone, so that outsiders are kept out only where no task
gives a foreign pid or sends an internal message.
-/

namespace Uros.Char

open Uros.Foundation

def Source.memberOf (env : Env) (sid : UInt32) : Source → Bool
  | .task (some pid) => env.procGetsid pid == some sid
  | _ => false

def Source.isTask : Source → Bool
  | .task _ => true
  | _ => false

def Request.cap : Request → Option ℕ
  | .deviceOpen cap _ | .kbdSubscribe cap _ _ | .ttyRead cap _ _ _ | .ttyWrite cap _ _ _
  | .ttySetTostop cap _ _ | .ttySetAttr cap _ _ | .ttySubscribe cap _ _
  | .ttyAcquireCtty cap _ _ | .mouseSubscribe cap _ _ => cap
  | .queryDevices | .ttyGetCtty _ => none

def Message.presents (env : Env) (d : ℕ) (m : Message) : Bool :=
  match m.content with
  | .request r => capCheck env r.cap capTtyRw d
  | _ => false

def Message.reads (d : ℕ) (m : Message) : Prop :=
  ∃ cap pid max, m.content = .request (.ttyRead cap d pid max)

def Untouched (s s' : CharState) (d : ℕ) : Prop :=
  ∀ dev, s.devLookup d = some dev →
    ∃ dev', s'.devLookup d = some dev' ∧ dev'.cttySid = dev.cttySid ∧ dev'.ring = dev.ring

/-- A message from a task that is no member of the session of a bound terminal, and presents no
token for it, obtains no input byte of the terminal, injects none and leaves the binding. -/
def Isolated (s : CharState) (e : Env × Message) : Prop :=
  ∀ d dev, s.devLookup d = some dev → dev.isTty → dev.cttySid ≠ 0 →
    e.2.source.isTask → e.2.source.memberOf e.1 dev.cttySid = false →
    e.2.presents e.1 d = false →
    Untouched s (charDemux e.1 s e.2).1 d ∧ (e.2.reads d → (charDemux e.1 s e.2).2.buf = [])

/-- A task reads under its own pid, leaves key events to the keyboard, and announces the end of
its own session only. -/
def Honest (_ : CharState) (e : Env × Message) : Prop :=
  e.2.source.isTask →
    match e.2.content with
    | .request (.ttyRead _ _ callerPid _) =>
      isPositive callerPid = false ∨ e.2.source = .task (some callerPid)
    | .kbdEvent _ => False
    | .cttyRelease sid => e.2.source.memberOf e.1 sid
    | _ => True

section

variable {env : Env} {s : CharState} {d : ℕ}

theorem Untouched.refl (s : CharState) (d : ℕ) : Untouched s s d :=
  fun dev h => ⟨dev, h, rfl, rfl⟩

theorem Untouched.of_devices {s' : CharState} (h : s'.devices = s.devices) :
    Untouched s s' d := by
  intro dev hdev
  refine ⟨dev, ?_, rfl, rfl⟩
  rwa [CharState.devLookup, h]

theorem devLookup_eq_some {id : ℕ} {dev : Device} :
    s.devLookup id = some dev ↔ (id ≠ 0 ∧ id < charMaxDevices) ∧ s.devices id = some dev := by
  unfold CharState.devLookup
  split
  · next h =>
    simp only [reduceCtorEq, false_iff, not_and]
    omega
  · next h =>
    rw [and_iff_right]
    omega

theorem Untouched.setDev {id : ℕ} {dev dev' : Device} (hdev : s.devices id = some dev)
    (hsame : id = d → dev'.cttySid = dev.cttySid ∧ dev'.ring = dev.ring) :
    Untouched s (s.setDev id dev') d := by
  intro old hold
  obtain ⟨hid, hold⟩ := devLookup_eq_some.mp hold
  by_cases h : d = id
  · subst h
    cases hdev.symm.trans hold
    exact ⟨dev', devLookup_eq_some.mpr ⟨hid, by simp [CharState.setDev]⟩, hsame rfl⟩
  · refine ⟨old, devLookup_eq_some.mpr ⟨hid, ?_⟩, rfl, rfl⟩
    simpa [CharState.setDev, Function.update_of_ne h] using hold

theorem withDevice_rule {cls : DevClass} {devId : ℕ} {body : Device → CharState × Reply}
    {result : ℤ} {P : CharState × Reply → Prop} (hrefuse : P (s, { kr := .invalidArgument, result }))
    (hbody : ∀ dev, s.devLookup devId = some dev → dev.module.deviceClass = cls → P (body dev)) :
    P (withDevice s cls devId body result) := by
  unfold withDevice
  split
  · exact hrefuse
  · next dev hdev =>
    split
    · exact hrefuse
    · next hcls => exact hbody dev hdev (not_not.mp hcls)

theorem subscribe_untouched {cls : DevClass} {op : UInt64} {cap : Option ℕ} {devId port : ℕ} :
    Untouched s (subscribe env s cls op cap devId port).1 d := by
  unfold subscribe
  apply withDevice_rule (P := fun r => Untouched s r.1 d)
  · exact .refl s d
  · intro dev hdev _
    split
    · exact .refl s d
    · split
      · exact .refl s d
      · exact .setDev (devLookup_eq_some.mp hdev).2 fun _ => ⟨rfl, rfl⟩

theorem ttySetTostop_untouched {cap : Option ℕ} {devId : ℕ} {enable : Bool} :
    Untouched s (ttySetTostop env s cap devId enable).1 d := by
  unfold ttySetTostop
  apply withDevice_rule (P := fun r => Untouched s r.1 d)
  · exact .refl s d
  · intro dev hdev _
    split
    · exact .refl s d
    · exact .setDev (devLookup_eq_some.mp hdev).2 fun _ => ⟨rfl, rfl⟩

theorem ttySetAttr_untouched {cap : Option ℕ} {devId baud : ℕ} :
    Untouched s (ttySetAttr env s cap devId baud).1 d := by
  unfold ttySetAttr
  apply withDevice_rule (P := fun r => Untouched s r.1 d)
  · exact .refl s d
  · intro dev _ _
    split
    · exact .refl s d
    · split
      · exact .refl s d
      · exact .refl s d

theorem ttyWrite_untouched {cap : Option ℕ} {devId : ℕ} {callerPid : UInt32} :
    Untouched s (ttyWrite env s cap devId callerPid).1 d := by
  unfold ttyWrite
  apply withDevice_rule (P := fun r => Untouched s r.1 d)
  · exact .refl s d
  · intro dev _ _
    split
    · exact .refl s d
    · split
      · exact .refl s d
      · apply Untouched.of_devices
        unfold moduleTtyWrite
        split
        · split
          · rfl
          · rfl
        · rfl

theorem deviceOpen_untouched {cap : Option ℕ} {devId : ℕ} :
    Untouched s (deviceOpen env s cap devId).1 d := by
  unfold deviceOpen
  split
  · exact .refl s d
  · split
    · exact .refl s d
    · exact .refl s d

theorem ttyRead_refused {cap : Option ℕ} {callerPid : UInt32} {max : ℕ} {dev : Device}
    (hdev : s.devLookup d = some dev) (htty : dev.isTty)
    (howner : ttySessionOwnerCheck env dev callerPid = false)
    (hcap : capCheck env cap capTtyRw d = false) :
    ttyRead env s cap d callerPid max =
      (s, { kr := .protectionFailure, result := chrErrInval }) := by
  have hcls : dev.module.deviceClass = .tty := by simpa [Device.isTty] using htty
  simp [ttyRead, withDevice, hdev, hcls, howner, hcap]

theorem ttyRead_untouched {cap : Option ℕ} {devId : ℕ} {callerPid : UInt32} {max : ℕ}
    (hne : devId ≠ d) : Untouched s (ttyRead env s cap devId callerPid max).1 d := by
  unfold ttyRead
  apply withDevice_rule (P := fun r => Untouched s r.1 d)
  · exact .refl s d
  · intro dev hdev _
    split
    · exact .refl s d
    · split
      · exact .refl s d
      · exact .setDev (devLookup_eq_some.mp hdev).2 fun h => absurd h hne

theorem ttyAcquireCtty_untouched {cap : Option ℕ} {devId : ℕ} {sid : UInt32} {dev : Device}
    (hdev : s.devLookup d = some dev) (hbound : dev.cttySid ≠ 0)
    (hcap : capCheck env cap capTtyRw d = false) :
    Untouched s (ttyAcquireCtty env s cap devId sid).1 d := by
  unfold ttyAcquireCtty
  split
  · next hcheck =>
    split
    · exact .refl s d
    · split
      · have hne : devId ≠ d := by
          rintro rfl
          have hrefused : acquireCheck env s cap devId ≠ .success := by
            simp only [acquireCheck, hdev, hcap, and_true, if_pos hbound]
            split <;> simp
          exact hrefused hcheck
        unfold bindCtty
        split
        · next old hold => exact .setDev hold fun h => absurd h hne
        · exact .refl s d
      · exact .refl s d
  · exact .refl s d

theorem releaseCtty_untouched {sid : UInt32} {dev : Device} (hdev : s.devLookup d = some dev)
    (hne : dev.cttySid ≠ sid) : Untouched s (s.releaseCtty sid) d := by
  unfold CharState.releaseCtty
  split
  · exact .refl s d
  · intro old hold
    cases hdev.symm.trans hold
    obtain ⟨hid, hdev⟩ := devLookup_eq_some.mp hdev
    refine ⟨dev, devLookup_eq_some.mpr ⟨hid, ?_⟩, rfl, rfl⟩
    simp [hdev, hne]

end

theorem ttySessionOwnerCheck_of_honest {env : Env} {dev : Device} {callerPid : UInt32}
    {source : Source} (hpid : isPositive callerPid = false ∨ source = .task (some callerPid))
    (hmember : source.memberOf env dev.cttySid = false) :
    ttySessionOwnerCheck env dev callerPid = false := by
  unfold ttySessionOwnerCheck
  rcases hpid with hpid | rfl
  · simp [hpid]
  · have hsid : (env.procGetsid callerPid == some dev.cttySid) = false := hmember
    simp [hsid]

section

variable {s : CharState} {env : Env} {m : Message} {d : ℕ} {dev : Device}

theorem read_refused_of_honest (hhonest : Honest s (env, m)) (hdev : s.devLookup d = some dev)
    (htty : dev.isTty) (htask : m.source.isTask)
    (hmember : m.source.memberOf env dev.cttySid = false) (hpresents : m.presents env d = false)
    (hreads : m.reads d) :
    charDemux env s m = (s, { kr := .protectionFailure, result := chrErrInval }) := by
  obtain ⟨source, content⟩ := m
  obtain ⟨cap, callerPid, max, rfl⟩ := hreads
  exact ttyRead_refused hdev htty
    (ttySessionOwnerCheck_of_honest (hhonest htask) hmember) hpresents

theorem untouched_of_honest (hhonest : Honest s (env, m)) (hdev : s.devLookup d = some dev)
    (htty : dev.isTty) (hbound : dev.cttySid ≠ 0) (htask : m.source.isTask)
    (hmember : m.source.memberOf env dev.cttySid = false)
    (hpresents : m.presents env d = false) : Untouched s (charDemux env s m).1 d := by
  by_cases hreads : m.reads d
  · rw [read_refused_of_honest hhonest hdev htty htask hmember hpresents hreads]
    exact .refl s d
  obtain ⟨source, content⟩ := m
  have hhonest := hhonest htask
  cases content with
  | irq irq =>
    -- the message came in on the service port, which has no interrupt handler
    have hport : source ≠ .irqPort uartIrq := by
      rintro rfl
      cases htask
    simp only [charDemux, dispatchIrq, if_neg hport]
    exact .refl s d
  | kbdEvent ev => exact hhonest.elim
  | cttyRelease sid =>
    apply releaseCtty_untouched hdev
    rintro rfl
    exact absurd hhonest (by simpa using hmember)
  | capRevoke => exact .refl s d
  | unknown => exact .refl s d
  | request r =>
    cases r with
    | ttyRead cap devId callerPid max =>
      apply ttyRead_untouched
      rintro rfl
      exact hreads ⟨cap, callerPid, max, rfl⟩
    | ttyAcquireCtty cap devId sid => exact ttyAcquireCtty_untouched hdev hbound hpresents
    | queryDevices => exact .refl s d
    | ttyGetCtty sid => exact .refl s d
    | deviceOpen cap devId => exact deviceOpen_untouched
    | ttyWrite cap devId pid buf => exact ttyWrite_untouched
    | ttySetTostop cap devId enable => exact ttySetTostop_untouched
    | ttySetAttr cap devId baud => exact ttySetAttr_untouched
    | kbdSubscribe cap devId port => exact subscribe_untouched
    | ttySubscribe cap devId port => exact subscribe_untouched
    | mouseSubscribe cap devId port => exact subscribe_untouched

end

theorem isolated_of_honest {s : CharState} {e : Env × Message} (hhonest : Honest s e) :
    Isolated s e := by
  obtain ⟨env, m⟩ := e
  intro d dev hdev htty hbound htask hmember hpresents
  refine ⟨untouched_of_honest hhonest hdev htty hbound htask hmember hpresents, fun hreads => ?_⟩
  rw [read_refused_of_honest hhonest hdev htty htask hmember hpresents hreads]

/-- In every run in which tasks read under their own pids and send no internal message, from
any device table, every message leaves the terminals it is an outsider to alone. -/
theorem terminals_isolated {s : CharState} {run : List (Env × Message)}
    (hmeet : StepsMeet step Honest s run) : StepsMeet step Isolated s run :=
  hmeet.of_invariant (fun _ => True) (fun _ _ _ _ _ _ => trivial)
    (fun _ _ _ => isolated_of_honest) trivial

def oneTerminal : CharState where
  devices id := if id = 1 then some { module := .console 1, cttySid := 5, ring := [0x61] } else none
  activeSurface := 1
  shownUsh := true
  kbdSink := true

def twoSessions : Env where
  capVerify _ _ _ := false
  procUp := true
  procGetsid pid := if pid = 5 then some 5 else if pid = 9 then some 7 else none
  procGetpgid pid := if pid = 5 then some 5 else if pid = 9 then some 7 else none
  procTcgetpgrp sid := if sid = 5 then some 5 else none
  procSetCtty _ := some procOk
  ddbBreak := false
  fifo := []

def honestRun : List (Env × Message) :=
  [(twoSessions, ⟨.task (some 9), .request (.ttyRead none 1 9 16)⟩),
    (twoSessions, ⟨.task (some 9), .request (.ttyAcquireCtty none 1 7)⟩),
    (twoSessions, ⟨.task (some 9), .irq 4⟩),
    (twoSessions, ⟨.loopback, .kbdEvent ⟨0x62, 0, true⟩⟩),
    (twoSessions, ⟨.task (some 5), .request (.ttyRead none 1 5 16)⟩)]

theorem terminals_isolated_two_sessions : StepsMeet step Isolated oneTerminal honestRun :=
  terminals_isolated ⟨fun _ => .inr rfl, fun s₁ h₁ => ⟨fun _ => trivial, fun s₂ h₂ =>
    ⟨fun _ => trivial, fun s₃ h₃ => ⟨fun h => absurd h (by decide), fun s₄ h₄ =>
      ⟨fun _ => .inr rfl, fun _ _ => trivial⟩⟩⟩⟩⟩

/-- A process of session 7 reads the terminal of session 5 under the pid of its leader, types
into it with a message of its own, and takes the terminal away. -/
theorem foreign_session_takes_terminal :
    (charDemux twoSessions oneTerminal
        ⟨.task (some 9), .request (.ttyRead none 1 5 16)⟩).2.buf = [0x61] ∧
      ((charDemux twoSessions oneTerminal
        ⟨.task (some 9), .kbdEvent ⟨0x78, 0, true⟩⟩).1.devLookup 1).map (·.ring) =
          some [0x61, 0x78] ∧
      ((charDemux twoSessions oneTerminal
        ⟨.task (some 9), .cttyRelease 5⟩).1.devLookup 1).map (·.cttySid) = some 0 ∧
      ¬ Isolated oneTerminal
        (twoSessions, ⟨.task (some 9), .request (.ttyRead none 1 5 16)⟩) := by
  refine ⟨by decide, by decide, by decide, fun h => ?_⟩
  have hbuf := (h 1 _ rfl rfl (by decide) rfl rfl rfl).2 ⟨none, 5, 16, rfl⟩
  revert hbuf
  decide

end Uros.Char
