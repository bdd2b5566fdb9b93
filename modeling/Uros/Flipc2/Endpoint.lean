import Mathlib.Data.UInt
import Uros.Foundation.SlotTable
import Uros.Foundation.Tally
import Uros.Foundation.Transition
import Uros.Flipc2.Channel

/-!
Endpoints of FLIPC v2 (`libflipc2/flipc2_endpoint.c`).

A server waits at a contact port for clients.  A client that connects sends its task port; the
server makes a pair of channels, maps them into the client, asks the kernel to be notified when
the task port dies and keeps the connection in a table.  The connection ends with a disconnect
message or with the notification.  The server runs either `flipc2_endpoint_accept` or, as a
reactor, `flipc2_endpoint_pump`.

The port space of the server is modelled as far as it concerns the task ports of clients
(`kern`'s `ipc_right_copyout`, `ipc_right_dealloc`, `ipc_right_dnrequest`, `ipc_right_check`).
-/

namespace Uros.Flipc2

open Uros.Foundation

/-! ## The port space of the server -/

structure TaskEntry where
  port : ℕ
  urefs : ℕ
  request : Bool
  dead : Bool
  deriving DecidableEq, Repr

structure TaskSpace where
  entry : ℕ → Option TaskEntry
  nameOf : ℕ → Option ℕ
  alive : ℕ → Bool
  notes : List ℕ

def urefsMax : ℕ := 65535

def addUref (urefs : ℕ) : ℕ := if urefs + 1 = urefsMax then urefs else urefs + 1

namespace TaskSpace

/-- A message brings a right to a port; `fresh` is the name that the kernel chooses for a port
the server does not know.  There is no name for a null or dead port. -/
def receive (sp : TaskSpace) (right : Option ℕ) (fresh : ℕ) : Option (TaskSpace × Option ℕ) :=
  match right with
  | none => some (sp, none)
  | some port =>
    if sp.alive port = false then some (sp, none)
    else match sp.nameOf port with
    | some name =>
      let entry := (sp.entry name).map fun e => { e with urefs := addUref e.urefs }
      some ({ sp with entry := Function.update sp.entry name entry }, some name)
    | none =>
      if sp.entry fresh = none then
        some ({ sp with
          entry := Function.update sp.entry fresh (some ⟨port, 1, false, false⟩)
          nameOf := Function.update sp.nameOf port (some fresh) }, some fresh)
      else none

def deallocate (sp : TaskSpace) (name : ℕ) : TaskSpace :=
  match sp.entry name with
  | none => sp
  | some e =>
    if e.urefs = 1 then
      { sp with
        entry := Function.update sp.entry name none
        nameOf := if e.dead then sp.nameOf else Function.update sp.nameOf e.port none }
    else
      { sp with entry := Function.update sp.entry name (some { e with urefs := e.urefs - 1 }) }

def destroyMessage (sp : TaskSpace) : Option ℕ → TaskSpace
  | none => sp
  | some name => sp.deallocate name

/-- `mach_port_request_notification` for `MACH_NOTIFY_DEAD_NAME`; a request that was registered
for the name is replaced. -/
def requestNotification (sp : TaskSpace) (name : ℕ) : Option TaskSpace :=
  match sp.entry name with
  | none => none
  | some e =>
    if e.dead then none
    else some { sp with entry := Function.update sp.entry name (some { e with request := true }) }

def dies (sp : TaskSpace) (port : ℕ) : TaskSpace :=
  let sp := { sp with alive := Function.update sp.alive port false }
  match sp.nameOf port with
  | none => sp
  | some name =>
    match sp.entry name with
    | none => sp
    | some e =>
      let urefs := if e.request then e.urefs + 1 else e.urefs
      { sp with
        entry := Function.update sp.entry name (some ⟨e.port, urefs, false, true⟩)
        nameOf := Function.update sp.nameOf port none
        notes := if e.request then name :: sp.notes else sp.notes }

end TaskSpace

/-! ## The endpoint -/

def epMaxClientsMax : ℕ := 64

structure EpConfig where
  maxClients : ℕ
  channelSize : UInt32
  ringEntries : UInt32
  flags : UInt32
  reactor : Bool
  bounded : 0 < maxClients ∧ maxClients ≤ epMaxClientsMax

structure EpConn where
  fwdCh : ℕ
  revCh : ℕ
  clientTask : ℕ
  deriving DecidableEq, Repr

inductive EpEvent where
  | new (fwdCh revCh : ℕ)
  | dead (fwdCh revCh : ℕ)
  deriving DecidableEq, Repr

inductive EpReturn where
  | resourceShortage
  | failure
  | invalidArgument
  deriving DecidableEq, Repr

structure ConnectAnswers where
  fwd : CreateAnswers
  rev : CreateAnswers
  fwdAddr : Option UInt32
  revAddr : Option UInt32
  request : Bool

structure ConnectReply where
  fwdAddr : UInt32
  revAddr : UInt32
  size : UInt32
  entries : UInt32
  deriving DecidableEq, Repr

structure Endpoint (cfg : EpConfig) where
  space : TaskSpace
  nClients : ℕ
  conns : SlotTable cfg.maxClients EpConn
  nextCh : ℕ
  destroyed : List ℕ
  events : List EpEvent
  reported : List (ℕ × ℕ)

namespace Endpoint

variable {cfg : EpConfig}

def clamp (lo hi value : UInt32) : UInt32 :=
  let value := if value < lo then lo else value
  if value > hi then hi else value

def destroy (ep : Endpoint cfg) (chs : List ℕ) : Endpoint cfg :=
  { ep with destroyed := ep.destroyed ++ chs }

def connectRpc (ep : Endpoint cfg) (clientTask : Option ℕ) (channelSize ringEntries : UInt32)
    (ans : ConnectAnswers) : Endpoint cfg × Except EpReturn (Fin cfg.maxClients × ConnectReply) :=
  if cfg.maxClients ≤ ep.nClients then (ep, .error .resourceShortage)
  else
    let size := clamp channelSizeMin channelSizeMax
      (if channelSize ≠ 0 then channelSize else cfg.channelSize)
    let entries := clamp ringEntriesMin ringEntriesMax
      (if ringEntries ≠ 0 then ringEntries else cfg.ringEntries)
    match ep.conns.freeSlot with
    | none => (ep, .error .resourceShortage)
    | some slot =>
      match channelCreateEx size entries cfg.flags ans.fwd with
      | .error _ => (ep, .error .resourceShortage)
      | .ok _ =>
        let fwdCh := ep.nextCh
        match channelCreateEx size entries cfg.flags ans.rev with
        | .error _ =>
          ({ ep with nextCh := ep.nextCh + 1 }.destroy [fwdCh], .error .resourceShortage)
        | .ok _ =>
          let revCh := ep.nextCh + 1
          let ep := { ep with nextCh := ep.nextCh + 2 }
          -- nothing can be mapped into a task, and no notification be requested, without
          -- a live task port
          match clientTask, ans.fwdAddr, ans.revAddr with
          | some task, some fwdAddr, some revAddr =>
            match ans.request, ep.space.requestNotification task with
            | true, some space =>
              ({ ep with
                  space
                  conns := Function.update ep.conns slot (some ⟨fwdCh, revCh, task⟩)
                  nClients := ep.nClients + 1 },
                .ok (slot, ⟨fwdAddr, revAddr, size, entries⟩))
            | _, _ => (ep.destroy [revCh, fwdCh], .error .failure)
          | _, _, _ => (ep.destroy [revCh, fwdCh], .error .failure)

def closeSlot (ep : Endpoint cfg) (i : Fin cfg.maxClients) (name : ℕ) : Endpoint cfg :=
  { ep with
    space := ep.space.deallocate name
    conns := Function.update ep.conns i none
    nClients := ep.nClients - 1 }

def disconnectRpc (ep : Endpoint cfg) (clientTask : Option ℕ) :
    Endpoint cfg × Except EpReturn Unit :=
  match clientTask with
  | none => (ep, .error .invalidArgument)
  | some task =>
    match ep.conns.find (·.clientTask = task) with
    | some (i, conn) => ((ep.destroy [conn.fwdCh, conn.revCh]).closeSlot i task, .ok ())
    | none => (ep, .error .invalidArgument)

/-- `flipc2_ep_cleanup_dead` and, in a reactor, `flipc2_ep_cleanup_dead_reactor` with the event
that `flipc2_endpoint_pump` makes of it. -/
def cleanupDead (ep : Endpoint cfg) (deadPort : ℕ) : Endpoint cfg :=
  match ep.conns.find (·.clientTask = deadPort) with
  | some (i, conn) =>
    let ep := if cfg.reactor then { ep with events := ep.events ++ [.dead conn.fwdCh conn.revCh] }
      else ep.destroy [conn.fwdCh, conn.revCh]
    ep.closeSlot i deadPort
  | none => { ep with space := ep.space.deallocate deadPort }

inductive Content where
  | connect (task : Option ℕ) (channelSize ringEntries : UInt32) (ans : ConnectAnswers)
  | disconnect (task : Option ℕ)
  | deadName (notPort : ℕ)
  | other

inductive EpStep where
  /-- The server processes a message that a client has sent; `fresh` is the name for a port the
  server does not know yet. -/
  | message (sender : ℕ) (content : Content) (fresh : ℕ)
  | notification (name : ℕ)
  | dies (port : ℕ)

def afterFailure (cfg : EpConfig) (sp : TaskSpace) (task : Option ℕ) : TaskSpace :=
  if cfg.reactor then sp else sp.destroyMessage task

/-- One round of `flipc2_endpoint_accept` (with `mach_msg_server_once`) or a call of
`flipc2_endpoint_pump` for a message of a client. -/
def process (ep : Endpoint cfg) (content : Content) (fresh : ℕ) : Option (Endpoint cfg) :=
  match content with
  | .connect task channelSize ringEntries ans =>
    (ep.space.receive task fresh).map fun (space, name) =>
      match { ep with space }.connectRpc name channelSize ringEntries ans with
      | (ep, .ok (slot, _)) =>
        match ep.conns slot with
        | some conn => { ep with events := ep.events ++ [.new conn.fwdCh conn.revCh] }
        | none => ep
      | (ep, .error _) => { ep with space := afterFailure cfg ep.space name }
  | .disconnect task =>
    (ep.space.receive task fresh).map fun (space, name) =>
      match { ep with space }.disconnectRpc name with
      | (ep, .ok _) => ep
      | (ep, .error _) => { ep with space := afterFailure cfg ep.space name }
  | .deadName notPort => some (ep.cleanupDead notPort)
  | .other => some ep

def step (ep : Endpoint cfg) : EpStep → Option (Endpoint cfg)
  | .message _ content fresh => ep.process content fresh
  | .notification name =>
    match ep.space.entry name with
    | some e =>
      if name ∈ ep.space.notes then
        let ep := { ep with space := { ep.space with notes := ep.space.notes.erase name } }
        let ep := ep.cleanupDead name
        some { ep with reported := ep.reported ++ [(e.port, name)] }
      else none
    | none => none
  | .dies port =>
    if ep.space.alive port then some { ep with space := ep.space.dies port } else none

def start (cfg : EpConfig) (alive : ℕ → Bool) : Endpoint cfg where
  space := ⟨fun _ => none, fun _ => none, alive, []⟩
  nClients := 0
  conns := fun _ => none
  nextCh := 0
  destroyed := []
  events := []
  reported := []

end Endpoint

/-! ## What the operations on the port space keep -/

namespace TaskSpace

variable {sp sp' sp'' : TaskSpace} {name fresh port : ℕ} {right task : Option ℕ}

structure Ok (sp : TaskSpace) : Prop where
  named : ∀ port name, sp.nameOf port = some name → sp.alive port = true ∧
    ∃ e, sp.entry name = some e ∧ e.port = port ∧ e.dead = false
  held : ∀ name e, sp.entry name = some e → 1 ≤ e.urefs
  due : ∀ name ∈ sp.notes, ∃ e, sp.entry name = some e ∧ e.dead = true ∧ 2 ≤ e.urefs
  nodup : sp.notes.Nodup
  gone : ∀ name e, sp.entry name = some e → e.dead = true → sp.alive e.port = false

def Keeps (sp sp' : TaskSpace) : Prop :=
  ∀ name e, sp.entry name = some e →
    ∃ e', sp'.entry name = some e' ∧ e'.port = e.port ∧ (e.dead = true → e'.dead = true)

theorem Keeps.refl (sp : TaskSpace) : Keeps sp sp :=
  fun _ e he => ⟨e, he, rfl, id⟩

theorem Keeps.trans (h : Keeps sp sp') (h' : Keeps sp' sp'') : Keeps sp sp'' := by
  intro name e he
  obtain ⟨e₁, he₁, hport₁, hdead₁⟩ := h name e he
  obtain ⟨e₂, he₂, hport₂, hdead₂⟩ := h' name e₁ he₁
  exact ⟨e₂, he₂, hport₂.trans hport₁, hdead₂ ∘ hdead₁⟩

theorem two_le_addUref {urefs : ℕ} (h : 1 ≤ urefs) : 2 ≤ addUref urefs := by
  unfold addUref urefsMax
  split <;> omega

theorem Ok.rewrite {e e' : TaskEntry} (hok : sp.Ok) (he : sp.entry name = some e)
    (hport : e'.port = e.port) (hdead : e'.dead = e.dead) (hheld : 1 ≤ e'.urefs)
    (hdue : name ∈ sp.notes → 2 ≤ e'.urefs) :
    Ok { sp with entry := Function.update sp.entry name (some e') } ∧
      Keeps sp { sp with entry := Function.update sp.entry name (some e') } := by
  refine ⟨⟨?_, ?_, ?_, hok.nodup, ?_⟩, ?_⟩
  · intro p n hn
    obtain ⟨halive, d, hd, hp, hlive⟩ := hok.named p n hn
    refine ⟨halive, ?_⟩
    by_cases hname : n = name
    · subst hname
      rw [he] at hd
      cases hd
      exact ⟨e', by simp, hport.trans hp, hdead.trans hlive⟩
    · exact ⟨d, by simpa [hname] using hd, hp, hlive⟩
  · intro n d hd
    rcases update_eq_some hd with ⟨rfl, ⟨⟩⟩ | ⟨-, hd⟩
    · exact hheld
    · exact hok.held n d hd
  · intro n hn
    obtain ⟨d, hd, hdd, htwo⟩ := hok.due n hn
    by_cases hname : n = name
    · subst hname
      rw [he] at hd
      cases hd
      exact ⟨e', by simp, hdead.trans hdd, hdue hn⟩
    · exact ⟨d, by simpa [hname] using hd, hdd, htwo⟩
  · intro n d hd hdd
    rcases update_eq_some hd with ⟨rfl, ⟨⟩⟩ | ⟨-, hd⟩
    · rw [hport]
      exact hok.gone n e he (hdead.symm.trans hdd)
    · exact hok.gone n d hd hdd
  · intro n d hd
    by_cases hname : n = name
    · subst hname
      rw [he] at hd
      cases hd
      exact ⟨e', by simp, hport, fun h => hdead.trans h⟩
    · exact ⟨d, by simpa [hname] using hd, rfl, id⟩

theorem receive_cases (hok : sp.Ok) (h : sp.receive right fresh = some (sp', task)) :
    (task = none ∧ sp' = sp) ∨
    (∃ name e, task = some name ∧ sp.entry name = some e ∧ e.dead = false ∧
      right = some e.port ∧
      sp' = { sp with entry :=
        Function.update sp.entry name (some { e with urefs := addUref e.urefs }) }) ∨
    ∃ port, task = some fresh ∧ sp.alive port = true ∧ sp.entry fresh = none ∧
      sp.nameOf port = none ∧ right = some port ∧
      sp' = { sp with
        entry := Function.update sp.entry fresh (some ⟨port, 1, false, false⟩)
        nameOf := Function.update sp.nameOf port (some fresh) } := by
  cases right with
  | none =>
    simp only [receive, Option.some.injEq, Prod.mk.injEq] at h
    exact .inl ⟨h.2.symm, h.1.symm⟩
  | some port =>
    simp only [receive] at h
    split at h
    · simp only [Option.some.injEq, Prod.mk.injEq] at h
      exact .inl ⟨h.2.symm, h.1.symm⟩
    · next halive =>
      split at h
      · next name hname =>
        simp only [Option.some.injEq, Prod.mk.injEq] at h
        obtain ⟨-, e, he, hport, hlive⟩ := hok.named port name hname
        refine .inr (.inl ⟨name, e, h.2.symm, he, hlive, by rw [hport], ?_⟩)
        rw [← h.1, he]
        rfl
      · next hname =>
        simp only [Option.ite_none_right_eq_some, Option.some.injEq, Prod.mk.injEq] at h
        exact .inr (.inr ⟨port, h.2.2.symm, by simpa using halive, h.1, hname, rfl,
          h.2.1.symm⟩)

theorem Ok.receive (hok : sp.Ok) (h : sp.receive right fresh = some (sp', task)) :
    sp'.Ok ∧ Keeps sp sp' := by
  obtain ⟨-, rfl⟩ | ⟨name, e, -, he, -, -, rfl⟩ | ⟨port, -, halive, hfresh, hport, -, rfl⟩ :=
    receive_cases hok h
  · exact ⟨hok, .refl sp'⟩
  · have htwo := two_le_addUref (hok.held name e he)
    exact hok.rewrite he rfl rfl (by simp only; omega) fun _ => htwo
  · have hother : ∀ n e, sp.entry n = some e → n ≠ fresh := by
      rintro n e he rfl
      simp [hfresh] at he
    refine ⟨⟨?_, ?_, ?_, hok.nodup, ?_⟩, ?_⟩
    · intro p n hn
      rcases update_eq_some hn with ⟨rfl, ⟨⟩⟩ | ⟨-, hn⟩
      · exact ⟨halive, _, Function.update_self .., rfl, rfl⟩
      · obtain ⟨hlive, e, he, hrest⟩ := hok.named p n hn
        exact ⟨hlive, e, by simpa [hother n e he] using he, hrest⟩
    · intro n e he
      rcases update_eq_some he with ⟨rfl, ⟨⟩⟩ | ⟨-, he⟩
      · simp
      · exact hok.held n e he
    · intro n hn
      obtain ⟨e, he, hrest⟩ := hok.due n hn
      exact ⟨e, by simpa [hother n e he] using he, hrest⟩
    · intro n e he hdead
      rcases update_eq_some he with ⟨rfl, ⟨⟩⟩ | ⟨-, he⟩
      · simp at hdead
      · exact hok.gone n e he hdead
    · intro n e he
      exact ⟨e, by simpa [hother n e he] using he, rfl, id⟩

theorem deallocate_eq {e : TaskEntry} (he : sp.entry name = some e) (htwo : 2 ≤ e.urefs) :
    sp.deallocate name =
      { sp with entry := Function.update sp.entry name (some { e with urefs := e.urefs - 1 }) } := by
  simp [deallocate, he, show e.urefs ≠ 1 by omega]

theorem Ok.deallocate {e : TaskEntry} (hok : sp.Ok) (he : sp.entry name = some e)
    (htwo : 2 ≤ e.urefs) (hnote : name ∉ sp.notes) :
    (sp.deallocate name).Ok ∧ Keeps sp (sp.deallocate name) := by
  rw [deallocate_eq he htwo]
  exact hok.rewrite he rfl rfl (by simp only; omega) fun h => absurd h hnote

theorem Ok.received (hok : sp.Ok) (h : sp.receive right fresh = some (sp', some name)) :
    name ∉ sp'.notes ∧ ∃ e, sp'.entry name = some e ∧ e.dead = false ∧
      (sp.entry name ≠ none → 2 ≤ e.urefs) := by
  have hnote : ∀ sp : TaskSpace, sp.Ok → ∀ e, sp.entry name = some e → e.dead = false →
      name ∉ sp.notes := by
    intro sp hok e he hlive hmem
    obtain ⟨d, hd, hdead, -⟩ := hok.due name hmem
    rw [he] at hd
    cases hd
    simp [hlive] at hdead
  obtain ⟨e, he, hlive, htwo⟩ : ∃ e, sp'.entry name = some e ∧ e.dead = false ∧
      (sp.entry name ≠ none → 2 ≤ e.urefs) := by
    obtain ⟨hno, -⟩ | ⟨n, e, hn, he, hlive, -, rfl⟩ | ⟨port, hn, -, hfresh, -, -, rfl⟩ :=
      receive_cases hok h
    · simp at hno
    · cases hn
      exact ⟨_, Function.update_self .., hlive, fun _ => two_le_addUref (hok.held name e he)⟩
    · cases hn
      exact ⟨_, Function.update_self .., rfl, fun h => absurd hfresh h⟩
  exact ⟨hnote sp' (hok.receive h).1 e he hlive, e, he, hlive, htwo⟩

theorem Ok.receive_destroy (hok : sp.Ok) (h : sp.receive right fresh = some (sp', task)) :
    (sp'.destroyMessage task).Ok ∧ Keeps sp (sp'.destroyMessage task) := by
  obtain ⟨rfl, rfl⟩ | ⟨name, e, rfl, he, -, -, -⟩ | ⟨port, rfl, -, hfresh, hport, -, rfl⟩ :=
    receive_cases hok h
  · exact ⟨hok, .refl sp'⟩
  · obtain ⟨hnote, e', he', -, htwo⟩ := hok.received h
    obtain ⟨hok', hkeeps⟩ := (hok.receive h).1.deallocate he' (htwo (by simp [he])) hnote
    exact ⟨hok', (hok.receive h).2.trans hkeeps⟩
  · have hsame : destroyMessage { sp with
        entry := Function.update sp.entry fresh (some ⟨port, 1, false, false⟩)
        nameOf := Function.update sp.nameOf port (some fresh) } (some fresh) = sp := by
      simp [destroyMessage, TaskSpace.deallocate, Function.update_idem, ← hfresh, ← hport]
    rw [hsame]
    exact ⟨hok, .refl sp⟩

theorem Ok.requestNotification (hok : sp.Ok) (h : sp.requestNotification name = some sp') :
    sp'.Ok ∧ Keeps sp sp' := by
  simp only [TaskSpace.requestNotification] at h
  split at h
  · cases h
  · next e he =>
    simp only [Option.ite_none_left_eq_some, Option.some.injEq] at h
    obtain ⟨-, rfl⟩ := h
    exact hok.rewrite he rfl rfl (hok.held name e he) fun hmem => by
      obtain ⟨d, hd, -, htwo⟩ := hok.due name hmem
      rw [he] at hd
      cases hd
      exact htwo

theorem dies_cases (hok : sp.Ok) (port : ℕ) :
    (sp.nameOf port = none ∧
      sp.dies port = { sp with alive := Function.update sp.alive port false }) ∨
    ∃ name e, sp.nameOf port = some name ∧ sp.entry name = some e ∧ e.port = port ∧
      e.dead = false ∧ sp.dies port =
        { alive := Function.update sp.alive port false
          entry := Function.update sp.entry name
            (some ⟨port, if e.request then e.urefs + 1 else e.urefs, false, true⟩)
          nameOf := Function.update sp.nameOf port none
          notes := if e.request then name :: sp.notes else sp.notes } := by
  cases hname : sp.nameOf port with
  | none => exact .inl ⟨rfl, by simp [dies, hname]⟩
  | some name =>
    obtain ⟨-, e, he, hport, hlive⟩ := hok.named port name hname
    exact .inr ⟨name, e, rfl, he, hport, hlive, by simp [dies, hname, he, hport]⟩

theorem Ok.dies (hok : sp.Ok) (port : ℕ) : (sp.dies port).Ok ∧ Keeps sp (sp.dies port) := by
  have hgone : ∀ p, sp.alive p = false → Function.update sp.alive port false p = false := by
    intro p hp
    by_cases hpp : p = port <;> simp [hpp, hp]
  obtain ⟨hno, heq⟩ | ⟨name, e, hname, he, hport, hlive, heq⟩ := dies_cases hok port
  · rw [heq]
    refine ⟨⟨?_, hok.held, hok.due, hok.nodup, fun n d hd hdd => hgone _ (hok.gone n d hd hdd)⟩,
      .refl sp⟩
    intro p n hn
    have hp : p ≠ port := by
      rintro rfl
      simp [hno] at hn
    simpa [hp] using hok.named p n hn
  · have hnote : name ∉ sp.notes := by
      intro hmem
      obtain ⟨d, hd, hdead, -⟩ := hok.due name hmem
      rw [he] at hd
      cases hd
      simp [hlive] at hdead
    have hheld := hok.held name e he
    rw [heq]
    refine ⟨⟨?_, ?_, ?_, ?_, ?_⟩, ?_⟩
    · intro p n hn
      by_cases hp : p = port
      · subst hp
        simp at hn
      · simp only [hp, ne_eq, not_false_eq_true, Function.update_of_ne] at hn ⊢
        obtain ⟨halive, d, hd, hdport, hdlive⟩ := hok.named p n hn
        have hne : n ≠ name := by
          rintro rfl
          rw [he] at hd
          cases hd
          exact hp (hdport.symm.trans hport)
        exact ⟨halive, d, by simpa [hne] using hd, hdport, hdlive⟩
    · intro n d hd
      rcases update_eq_some hd with ⟨rfl, ⟨⟩⟩ | ⟨-, hd⟩
      · simp only
        split <;> omega
      · exact hok.held n d hd
    · intro n hn
      by_cases hname' : n = name
      · subst hname'
        refine ⟨_, Function.update_self .., rfl, ?_⟩
        split at hn
        · next hreq =>
          simp only [hreq, if_true]
          omega
        · exact absurd hn hnote
      · have hn' : n ∈ sp.notes := by
          split at hn
          · exact (List.mem_cons.mp hn).resolve_left hname'
          · exact hn
        obtain ⟨d, hd, hrest⟩ := hok.due n hn'
        exact ⟨d, by simpa [hname'] using hd, hrest⟩
    · dsimp only
      split
      · exact List.nodup_cons.mpr ⟨hnote, hok.nodup⟩
      · exact hok.nodup
    · intro n d hd hdd
      rcases update_eq_some hd with ⟨rfl, ⟨⟩⟩ | ⟨-, hd⟩
      · simp
      · exact hgone _ (hok.gone n d hd hdd)
    · intro n d hd
      by_cases hn : n = name
      · subst hn
        rw [he] at hd
        cases hd
        exact ⟨_, Function.update_self .., hport.symm, fun _ => rfl⟩
      · exact ⟨d, by simpa [hn] using hd, rfl, id⟩

end TaskSpace

/-! ## What the server does with a message -/

namespace Endpoint

variable {cfg : EpConfig} {ep ep' : Endpoint cfg}

theorem connectRpc_cases (ep : Endpoint cfg) (task : Option ℕ) (channelSize ringEntries : UInt32)
    (ans : ConnectAnswers) :
    (∃ err made chs, (∀ ch ∈ chs, ep.nextCh ≤ ch ∧ ch < ep.nextCh + made) ∧
      ep.connectRpc task channelSize ringEntries ans =
        (({ ep with nextCh := ep.nextCh + made } : Endpoint cfg).destroy chs, .error err)) ∨
    ∃ slot name space reply, task = some name ∧ ep.conns slot = none ∧
      ep.space.requestNotification name = some space ∧
      ep.connectRpc task channelSize ringEntries ans =
        ({ ep with
            space
            nextCh := ep.nextCh + 2
            conns := Function.update ep.conns slot (some ⟨ep.nextCh, ep.nextCh + 1, name⟩)
            nClients := ep.nClients + 1 }, .ok (slot, reply)) := by
  have hsame : ∀ err, (ep, Except.error err) =
      ((({ ep with nextCh := ep.nextCh + 0 } : Endpoint cfg).destroy [],
        Except.error err) : Endpoint cfg × Except EpReturn (Fin cfg.maxClients × ConnectReply)) := by
    intro err
    simp [destroy]
  unfold connectRpc
  dsimp only
  split
  · exact .inl ⟨_, 0, [], by simp, hsame _⟩
  · split
    · exact .inl ⟨_, 0, [], by simp, hsame _⟩
    · next slot hslot =>
      split
      · exact .inl ⟨_, 0, [], by simp, hsame _⟩
      · split
        · exact .inl ⟨_, 1, [ep.nextCh], by simp, rfl⟩
        · have hboth : ∀ ch ∈ [ep.nextCh + 1, ep.nextCh],
              ep.nextCh ≤ ch ∧ ch < ep.nextCh + 2 := by
            simp
          split
          · next name fwdAddr revAddr _ _ =>
            split
            · next space _ hspace =>
              exact .inr ⟨slot, name, space, _, rfl, SlotTable.freeSlot_some hslot, hspace,
                rfl⟩
            · exact .inl ⟨_, 2, [ep.nextCh + 1, ep.nextCh], hboth, rfl⟩
          · exact .inl ⟨_, 2, [ep.nextCh + 1, ep.nextCh], hboth, rfl⟩

theorem process_connect {right : Option ℕ} {channelSize ringEntries : UInt32}
    {ans : ConnectAnswers} {fresh : ℕ}
    (h : ep.process (.connect right channelSize ringEntries ans) fresh = some ep') :
    ∃ sp task, ep.space.receive right fresh = some (sp, task) ∧
      ((∃ made chs, (∀ ch ∈ chs, ep.nextCh ≤ ch ∧ ch < ep.nextCh + made) ∧
        ep' = { ep with
          space := afterFailure cfg sp task
          nextCh := ep.nextCh + made
          destroyed := ep.destroyed ++ chs }) ∨
      ∃ slot name space, task = some name ∧ ep.conns slot = none ∧
        sp.requestNotification name = some space ∧
        ep' = { ep with
          space
          nextCh := ep.nextCh + 2
          conns := Function.update ep.conns slot (some ⟨ep.nextCh, ep.nextCh + 1, name⟩)
          nClients := ep.nClients + 1
          events := ep.events ++ [.new ep.nextCh (ep.nextCh + 1)] }) := by
  simp only [process, Option.map_eq_some_iff, Prod.exists] at h
  obtain ⟨sp, task, hrec, heq⟩ := h
  refine ⟨sp, task, hrec, ?_⟩
  obtain ⟨err, made, chs, hchs, hrpc⟩ | ⟨slot, name, space, reply, rfl, hfree, hreq, hrpc⟩ :=
    connectRpc_cases { ep with space := sp } task channelSize ringEntries ans
  · rw [hrpc] at heq
    refine .inl ⟨made, chs, hchs, ?_⟩
    exact heq.symm
  · rw [hrpc] at heq
    refine .inr ⟨slot, name, space, rfl, hfree, hreq, ?_⟩
    simpa using heq.symm

theorem process_disconnect {right : Option ℕ} {fresh : ℕ}
    (h : ep.process (.disconnect right) fresh = some ep') :
    ∃ sp task, ep.space.receive right fresh = some (sp, task) ∧
      ((∃ name i conn, task = some name ∧
        ep.conns.find (·.clientTask = name) = some (i, conn) ∧
        ep' = (({ ep with space := sp } : Endpoint cfg).destroy
          [conn.fwdCh, conn.revCh]).closeSlot i name) ∨
      ((∀ name, task = some name → ep.conns.find (·.clientTask = name) = none) ∧
        ep' = { ep with space := afterFailure cfg sp task })) := by
  simp only [process, Option.map_eq_some_iff, Prod.exists] at h
  obtain ⟨sp, task, hrec, heq⟩ := h
  refine ⟨sp, task, hrec, ?_⟩
  cases task with
  | none => exact .inr ⟨by simp, heq.symm⟩
  | some name =>
    simp only [disconnectRpc] at heq
    cases hfind : ep.conns.find (·.clientTask = name) with
    | none =>
      simp only [hfind] at heq
      refine .inr ⟨?_, heq.symm⟩
      intro name' hname
      cases hname
      exact hfind
    | some r =>
      obtain ⟨i, conn⟩ := r
      simp only [hfind] at heq
      exact .inl ⟨name, i, conn, rfl, hfind, heq.symm⟩

/-! ## The table and the references -/

theorem tally_fill {n m : ℕ} {t : SlotTable n EpConn} {i : Fin n} {conn : EpConn}
    (ht : Tally (fun i => (t i).isSome = true) m) (hfree : t i = none) :
    Tally (fun j => (Function.update t i (some conn) j).isSome = true) (m + 1) := by
  refine ht.update (T := {i}) ?_ ?_
  · intro j hj
    rw [Function.update_of_ne (by simpa using hj)]
  · rw [among_singleton_of_not (by simp [hfree]), among_singleton_of (by simp)]

theorem tally_free {n m : ℕ} {t : SlotTable n EpConn} {i : Fin n} {conn : EpConn}
    (ht : Tally (fun i => (t i).isSome = true) m) (hconn : t i = some conn) :
    Tally (fun j => (Function.update t i none j).isSome = true) (m - 1) := by
  have hpos : among (fun i => (t i).isSome = true) {i} ≤ m := among_le ht
  rw [among_singleton_of (by simp [hconn])] at hpos
  refine ht.update (T := {i}) ?_ ?_
  · intro j hj
    rw [Function.update_of_ne (by simpa using hj)]
  · rw [among_singleton_of (by simp [hconn]), among_singleton_of_not (by simp)]
    omega

structure Inv (ep : Endpoint cfg) : Prop where
  space : ep.space.Ok
  count : Tally (fun i => (ep.conns i).isSome = true) ep.nClients
  slot : ∀ i conn, ep.conns i = some conn → ∃ e, ep.space.entry conn.clientTask = some e
  reported : ∀ r ∈ ep.reported, ∃ e, ep.space.entry r.2 = some e ∧ e.port = r.1 ∧ e.dead = true

theorem inv_start (alive : ℕ → Bool) : Inv (start cfg alive) where
  space := ⟨by simp [start], by simp [start], by simp [start], List.nodup_nil, by simp [start]⟩
  count := .none (by simp [start])
  slot := by simp [start]
  reported := by simp [start]

theorem Inv.keeps {sp : TaskSpace} (hi : Inv ep) (hok : sp.Ok) (hkeeps : ep.space.Keeps sp)
    (hspace : ep'.space = sp) (hconns : ep'.conns = ep.conns) (hn : ep'.nClients = ep.nClients)
    (hrep : ep'.reported = ep.reported) : Inv ep' where
  space := hspace ▸ hok
  count := by
    rw [hconns, hn]
    exact hi.count
  slot i conn hconn := by
    rw [hconns] at hconn
    obtain ⟨e, he⟩ := hi.slot i conn hconn
    obtain ⟨e', he', -⟩ := hkeeps _ e he
    exact ⟨e', hspace ▸ he'⟩
  reported r hr := by
    rw [hrep] at hr
    obtain ⟨e, he, hport, hdead⟩ := hi.reported r hr
    obtain ⟨e', he', hport', hdead'⟩ := hkeeps _ e he
    exact ⟨e', hspace ▸ he', hport'.trans hport, hdead' hdead⟩

theorem ok_afterFailure {sp sp' : TaskSpace} {right task : Option ℕ} {fresh : ℕ} (hok : sp.Ok)
    (hrec : sp.receive right fresh = some (sp', task)) :
    (afterFailure cfg sp' task).Ok ∧ sp.Keeps (afterFailure cfg sp' task) := by
  unfold afterFailure
  split
  · exact hok.receive hrec
  · exact hok.receive_destroy hrec

theorem Inv.closeSlot {i : Fin cfg.maxClients} {conn : EpConn} {name : ℕ} {e : TaskEntry}
    (hi : Inv ep) (hconn : ep.conns i = some conn) (he : ep.space.entry name = some e)
    (htwo : 2 ≤ e.urefs) (hnote : name ∉ ep.space.notes) : Inv (ep.closeSlot i name) := by
  obtain ⟨hok, hkeeps⟩ := hi.space.deallocate he htwo hnote
  have hi' : Inv ({ ep with space := ep.space.deallocate name } : Endpoint cfg) :=
    hi.keeps hok hkeeps rfl rfl rfl rfl
  refine ⟨hok, tally_free hi.count hconn, ?_, hi'.reported⟩
  intro j c hc
  exact hi'.slot j c (SlotTable.of_remove hc)

theorem Inv.connect {right : Option ℕ} {channelSize ringEntries : UInt32}
    {ans : ConnectAnswers} {fresh : ℕ} (hi : Inv ep)
    (h : ep.process (.connect right channelSize ringEntries ans) fresh = some ep') : Inv ep' := by
  obtain ⟨sp, task, hrec, ⟨made, chs, -, rfl⟩ | ⟨slot, name, space, rfl, hfree, hreq, rfl⟩⟩ :=
    process_connect h
  · obtain ⟨hok, hkeeps⟩ := ok_afterFailure hi.space hrec
    exact hi.keeps hok hkeeps rfl rfl rfl rfl
  · obtain ⟨hok, hkeeps⟩ := hi.space.receive hrec
    obtain ⟨hok', hkeeps'⟩ := hok.requestNotification hreq
    have hi' : Inv ({ ep with space } : Endpoint cfg) :=
      hi.keeps hok' (hkeeps.trans hkeeps') rfl rfl rfl rfl
    refine ⟨hok', tally_fill hi.count hfree, ?_, hi'.reported⟩
    intro j c hc
    obtain ⟨rfl, rfl⟩ | hc := SlotTable.of_insert hc
    · obtain ⟨-, e, he, -⟩ := hi.space.received hrec
      obtain ⟨e', he', -⟩ := hkeeps' name e he
      exact ⟨e', he'⟩
    · exact hi'.slot j c hc

theorem Inv.disconnect {right : Option ℕ} {fresh : ℕ} (hi : Inv ep)
    (h : ep.process (.disconnect right) fresh = some ep') : Inv ep' := by
  obtain ⟨sp, task, hrec, ⟨name, i, conn, rfl, hfind, rfl⟩ | ⟨-, rfl⟩⟩ := process_disconnect h
  · obtain ⟨hconn, hname⟩ := SlotTable.find_some hfind
    obtain ⟨hok, hkeeps⟩ := hi.space.receive hrec
    obtain ⟨hnote, e, he, -, htwo⟩ := hi.space.received hrec
    have hi' : Inv (({ ep with space := sp } : Endpoint cfg).destroy [conn.fwdCh, conn.revCh]) :=
      hi.keeps hok hkeeps rfl rfl rfl rfl
    refine hi'.closeSlot hconn he (htwo ?_) hnote
    -- the name is that of a slot, so that the message has not made it
    obtain ⟨d, hd⟩ := hi.slot i conn hconn
    simp only [decide_eq_true_eq] at hname
    rw [← hname, hd]
    simp
  · obtain ⟨hok, hkeeps⟩ := ok_afterFailure hi.space hrec
    exact hi.keeps hok hkeeps rfl rfl rfl rfl

theorem cleanupDead_space (ep : Endpoint cfg) (name : ℕ) :
    (ep.cleanupDead name).space = ep.space.deallocate name := by
  unfold cleanupDead
  split
  · cases cfg.reactor <;> rfl
  · rfl

theorem cleanupDead_reported (ep : Endpoint cfg) (name : ℕ) :
    (ep.cleanupDead name).reported = ep.reported := by
  unfold cleanupDead
  split
  · cases cfg.reactor <;> rfl
  · rfl

theorem Inv.cleanupDead {name : ℕ} {e : TaskEntry} (hi : Inv ep)
    (he : ep.space.entry name = some e) (htwo : 2 ≤ e.urefs) (hnote : name ∉ ep.space.notes) :
    Inv (ep.cleanupDead name) := by
  unfold Endpoint.cleanupDead
  split
  · next i conn hfind =>
    have hconn := (SlotTable.find_some hfind).1
    cases cfg.reactor
    · have hi' : Inv (ep.destroy [conn.fwdCh, conn.revCh]) :=
        hi.keeps hi.space (.refl _) rfl rfl rfl rfl
      exact hi'.closeSlot hconn he htwo hnote
    · have hi' : Inv ({ ep with events := ep.events ++ [.dead conn.fwdCh conn.revCh] } :
          Endpoint cfg) := hi.keeps hi.space (.refl _) rfl rfl rfl rfl
      exact hi'.closeSlot hconn he htwo hnote
  · obtain ⟨hok, hkeeps⟩ := hi.space.deallocate he htwo hnote
    exact hi.keeps hok hkeeps rfl rfl rfl rfl

def dequeue (ep : Endpoint cfg) (name : ℕ) : Endpoint cfg :=
  { ep with space := { ep.space with notes := ep.space.notes.erase name } }

theorem Inv.dequeue (hi : Inv ep) (name : ℕ) : Inv (ep.dequeue name) := by
  have hok : (ep.dequeue name).space.Ok :=
    ⟨hi.space.named, hi.space.held, fun n hn => hi.space.due n (List.mem_of_mem_erase hn),
      hi.space.nodup.erase name, hi.space.gone⟩
  exact hi.keeps hok (.refl _) rfl rfl rfl rfl

theorem step_notification {name : ℕ} (h : ep.step (.notification name) = some ep') :
    ∃ e, ep.space.entry name = some e ∧ name ∈ ep.space.notes ∧
      ep' = { (ep.dequeue name).cleanupDead name with
        reported := ep.reported ++ [(e.port, name)] } := by
  simp only [step] at h
  split at h
  · next e he =>
    simp only [Option.ite_none_right_eq_some, Option.some.injEq] at h
    refine ⟨e, he, h.1, ?_⟩
    rw [← h.2, cleanupDead_reported]
    rfl
  · cases h

theorem Inv.notification {name : ℕ} (hi : Inv ep)
    (h : ep.step (.notification name) = some ep') : Inv ep' := by
  obtain ⟨e, he, hmem, rfl⟩ := step_notification h
  obtain ⟨d, hd, hdead, htwo⟩ := hi.space.due name hmem
  rw [he] at hd
  cases hd
  have hnote : name ∉ (ep.dequeue name).space.notes := hi.space.nodup.not_mem_erase
  have hi₁ : Inv ((ep.dequeue name).cleanupDead name) :=
    (hi.dequeue name).cleanupDead he htwo hnote
  refine ⟨hi₁.space, hi₁.count, hi₁.slot, ?_⟩
  intro r hr
  obtain hr | hr := List.mem_append.mp hr
  · exact hi₁.reported r (by rwa [cleanupDead_reported])
  · rw [List.mem_singleton.mp hr]
    obtain ⟨e', he', hport, hdead'⟩ := ((hi.dequeue name).space.deallocate he htwo hnote).2 name e he
    refine ⟨e', ?_, hport, hdead' hdead⟩
    change ((ep.dequeue name).cleanupDead name).space.entry name = some e'
    rw [cleanupDead_space]
    exact he'

def EpStep.forged : EpStep → Bool
  | .message _ (.deadName _) _ => true
  | _ => false

theorem Inv.step {e : EpStep} (hi : Inv ep) (hreal : e.forged = false)
    (h : ep.step e = some ep') : Inv ep' := by
  cases e with
  | message sender content fresh =>
    cases content with
    | connect task channelSize ringEntries ans => exact hi.connect h
    | disconnect task => exact hi.disconnect h
    | deadName notPort => simp [EpStep.forged] at hreal
    | other =>
      obtain rfl := Option.some.inj h
      exact hi
  | notification name => exact hi.notification h
  | dies port =>
    simp only [Endpoint.step, Option.ite_none_right_eq_some, Option.some.injEq] at h
    obtain ⟨-, rfl⟩ := h
    obtain ⟨hok, hkeeps⟩ := hi.space.dies port
    exact hi.keeps hok hkeeps rfl rfl rfl rfl

/-! ## Connections and references together -/

def Holds (ep : Endpoint cfg) (r : ℕ × ℕ) : Prop :=
  ∃ e, ep.space.entry r.2 = some e ∧ e.port = r.1

def HasSlot (ep : Endpoint cfg) (r : ℕ × ℕ) : Prop :=
  ep.Holds r ∧ ∃ i conn, ep.conns i = some conn ∧ conn.clientTask = r.2

/-- `n_clients` counts the active slots, and a client whose death has been reported has neither
slots nor references. -/
def Exact (ep : Endpoint cfg) : Prop :=
  Tally (fun i => (ep.conns i).isSome = true) ep.nClients ∧
    ∀ r ∈ ep.reported, ¬ ep.HasSlot r ∧ ¬ ep.Holds r

/-- The client whose notification is processed has at most one connection. -/
def Single (ep : Endpoint cfg) : EpStep → Prop
  | .notification name => ∀ i, ∀ c ∈ ep.conns i, ∀ j, ∀ d ∈ ep.conns j,
      c.clientTask = name → d.clientTask = name → i = j
  | _ => True

instance decidableSingle (ep : Endpoint cfg) : DecidablePred (Single ep)
  | .notification _ => inferInstanceAs (Decidable (∀ i, ∀ c ∈ ep.conns i, _))
  | .message _ _ _ | .dies _ => .isTrue trivial

theorem process_reported {content : Content} {fresh : ℕ}
    (h : ep.process content fresh = some ep') : ep'.reported = ep.reported := by
  cases content with
  | connect right channelSize ringEntries ans =>
    obtain ⟨sp, task, -, ⟨made, chs, -, rfl⟩ | ⟨slot, name, space, -, -, -, rfl⟩⟩ :=
      process_connect h <;> rfl
  | disconnect right =>
    obtain ⟨sp, task, -, ⟨name, i, conn, -, -, rfl⟩ | ⟨-, rfl⟩⟩ := process_disconnect h <;> rfl
  | deadName notPort =>
    obtain rfl := Option.some.inj h
    exact cleanupDead_reported ep notPort
  | other =>
    obtain rfl := Option.some.inj h
    rfl

theorem cleanupDead_conns {name : ℕ} {j : Fin cfg.maxClients} {conn : EpConn}
    (hc : (ep.cleanupDead name).conns j = some conn) : ep.conns j = some conn ∧
      ∀ i c, ep.conns.find (·.clientTask = name) = some (i, c) → j ≠ i := by
  unfold cleanupDead at hc
  split at hc
  · next i c hfind =>
    have hconns : Function.update ep.conns i none j = some conn := by
      revert hc
      cases cfg.reactor <;> exact id
    refine ⟨SlotTable.of_remove hconns, ?_⟩
    rintro i' c' hfind' rfl
    rw [hfind] at hfind'
    cases hfind'
    simp at hconns
  · next hfind =>
    refine ⟨hc, fun i' c' hfind' => ?_⟩
    rw [hfind] at hfind'
    cases hfind'

theorem reported_eq_nil {events : List EpStep}
    (hrun : runSteps step ep events = some ep') :
    ep'.reported = [] ↔ ep.reported = [] ∧ ∀ name, .notification name ∉ events := by
  induction events generalizing ep with
  | nil =>
    obtain rfl := Option.some.inj hrun
    simp
  | cons e events ih =>
    obtain ⟨ep₁, hstep, hrest⟩ := runSteps_cons.mp hrun
    rw [ih hrest]
    cases e with
    | message sender content fresh => simp [process_reported hstep]
    | notification name =>
      obtain ⟨d, -, -, rfl⟩ := step_notification hstep
      constructor
      · rintro ⟨hnil, -⟩
        exact absurd hnil (by simp)
      · rintro ⟨-, hnone⟩
        exact absurd List.mem_cons_self (hnone name)
    | dies port =>
      simp only [step, Option.ite_none_right_eq_some, Option.some.injEq] at hstep
      obtain ⟨-, rfl⟩ := hstep
      simp

def NoSlots (ep : Endpoint cfg) : Prop :=
  ∀ r ∈ ep.reported, ∀ i conn, ep.conns i = some conn → conn.clientTask ≠ r.2

theorem NoSlots.step {e : EpStep} (hno : NoSlots ep) (hi : Inv ep) (hreal : e.forged = false)
    (hsingle : Single ep e) (h : ep.step e = some ep') : NoSlots ep' := by
  cases e with
  | message sender content fresh =>
    cases content with
    | deadName notPort => simp [EpStep.forged] at hreal
    | other =>
      obtain rfl := Option.some.inj h
      exact hno
    | disconnect right =>
      obtain ⟨sp, task, -, ⟨name, i, conn, -, -, rfl⟩ | ⟨-, rfl⟩⟩ := process_disconnect h
      · intro r hr j c hc
        exact hno r hr j c (SlotTable.of_remove hc)
      · exact hno
    | connect right channelSize ringEntries ans =>
      obtain ⟨sp, task, hrec, ⟨made, chs, -, rfl⟩ | ⟨slot, name, space, rfl, -, -, rfl⟩⟩ :=
        process_connect h
      · exact hno
      · intro r hr j c hc
        obtain ⟨rfl, rfl⟩ | hc := SlotTable.of_insert hc
        · -- the name that came in is that of a live port
          rintro rfl
          obtain ⟨-, e, he, hlive, -⟩ := hi.space.received hrec
          obtain ⟨d, hd, -, hdead⟩ := hi.reported r hr
          obtain ⟨e', he', -, hdead'⟩ := (hi.space.receive hrec).2 _ d hd
          rw [he] at he'
          cases he'
          exact absurd (hdead' hdead) (by simp [hlive])
        · exact hno r hr j c hc
  | notification name =>
    obtain ⟨e, -, -, rfl⟩ := step_notification h
    intro r hr j c hc
    obtain ⟨hconn, hother⟩ := cleanupDead_conns hc
    obtain hr | hr := List.mem_append.mp hr
    · exact hno r hr j c hconn
    · -- the slot that was found was the only one
      rw [List.mem_singleton.mp hr]
      rintro rfl
      cases hfind : ep.conns.find (·.clientTask = c.clientTask) with
      | none => simpa using SlotTable.find_eq_none.mp hfind j c hconn
      | some found =>
        obtain ⟨i, d⟩ := found
        obtain ⟨hd, hname⟩ := SlotTable.find_some hfind
        exact hother i d hfind (hsingle j c hconn i d hd rfl (by simpa using hname))
  | dies port =>
    simp only [Endpoint.step, Option.ite_none_right_eq_some, Option.some.injEq] at h
    obtain ⟨-, rfl⟩ := h
    exact hno

/-- In every run of connects, disconnects and deaths, `n_clients` counts the active slots; a
client with at most one connection has no slot once its death is reported; and the references are
given back exactly as long as no death is reported. -/
theorem endpoint_exact_iff {alive : ℕ → Bool} {events : List EpStep}
    (hreal : ∀ e ∈ events, e.forged = false)
    (hrun : runSteps step (start cfg alive) events = some ep) :
    Tally (fun i => (ep.conns i).isSome = true) ep.nClients ∧
      (ep.Exact ↔ ∀ name, .notification name ∉ events) ∧
      (StepsMeet step Single (start cfg alive) events → ∀ r ∈ ep.reported, ¬ ep.HasSlot r) := by
  have hmeet : StepsMeet step (fun _ e => e.forged = false) (start cfg alive) events :=
    stepsMeet_of_forall hreal
  have hi : Inv ep := runSteps_invariant_of_guard (fun _ _ _ hi hg hs => hi.step hg hs)
    (inv_start alive) hmeet hrun
  refine ⟨hi.count, ?_, ?_⟩
  · have hnil : ep.reported = [] ↔ ∀ name, .notification name ∉ events := by
      rw [reported_eq_nil hrun]
      simp [start]
    rw [← hnil]
    constructor
    · intro hexact
      apply List.eq_nil_iff_forall_not_mem.mpr
      intro r hr
      obtain ⟨e, he, hport, -⟩ := hi.reported r hr
      exact (hexact.2 r hr).2 ⟨e, he, hport⟩
    · intro hnone
      exact ⟨hi.count, by simp [hnone]⟩
  · intro hsingle r hr hslot
    have hstep : ∀ (ep : Endpoint cfg) e ep', Inv ep ∧ NoSlots ep →
        e.forged = false ∧ Single ep e → ep.step e = some ep' → Inv ep' ∧ NoSlots ep' :=
      fun _ _ _ hi hg hs => ⟨hi.1.step hg.1 hs, hi.2.step hi.1 hg.1 hg.2 hs⟩
    have hno := runSteps_invariant_of_guard hstep ⟨inv_start alive, by simp [NoSlots, start]⟩
      (hmeet.and hsingle) hrun
    obtain ⟨-, i, conn, hconn, hname⟩ := hslot
    exact hno.2 r hr i conn hconn hname

def smallEndpoint (reactor : Bool) : EpConfig :=
  ⟨2, 16384, 16, 0, reactor, by decide⟩

def granted : ConnectAnswers := ⟨⟨true, true⟩, ⟨true, true⟩, some 4096, some 8192, true⟩

def exactRun : List EpStep :=
  [.message 1 (.connect (some 1) 0 0 granted) 10, .message 2 (.connect (some 2) 0 0 granted) 11,
    .message 3 (.connect (some 3) 0 0 granted) 12, .message 1 (.disconnect (some 1)) 13, .dies 2]

theorem exact_run_is_exact :
    ∃ ep, runSteps step (start (smallEndpoint true) fun _ => true) exactRun = some ep ∧
      ep.nClients = 1 ∧ ep.Exact := by
  have hend : ((runSteps step (start (smallEndpoint true) fun _ => true) exactRun).map
      fun ep => ep.nClients) = some 1 := by decide +kernel
  obtain ⟨ep, hrun, hn⟩ := Option.map_eq_some_iff.mp hend
  refine ⟨ep, hrun, hn, (endpoint_exact_iff ?_ hrun).2.1.mpr ?_⟩
  · decide
  · simp [exactRun]

def deadRun (connections : ℕ) : List EpStep :=
  List.replicate connections (.message 1 (.connect (some 1) 0 0 granted) 10) ++
    [.dies 1, .notification 10]

/-- A client that dies with one connection leaves a reference behind, and one that dies with two
leaves also a slot. -/
theorem dead_client_stays :
    (∃ ep, runSteps step (start (smallEndpoint false) fun _ => true) (deadRun 1) = some ep ∧
      ep.reported = [(1, 10)] ∧ ep.Holds (1, 10)) ∧
    ∃ ep, runSteps step (start (smallEndpoint false) fun _ => true) (deadRun 2) = some ep ∧
      ep.reported = [(1, 10)] ∧ ep.HasSlot (1, 10) := by
  constructor
  · have hend : ((runSteps step (start (smallEndpoint false) fun _ => true) (deadRun 1)).map
        fun ep => (ep.reported, ep.space.entry 10)) =
          some ([(1, 10)], some ⟨1, 1, false, true⟩) := by decide +kernel
    obtain ⟨ep, hrun, heq⟩ := Option.map_eq_some_iff.mp hend
    simp only [Prod.mk.injEq] at heq
    exact ⟨ep, hrun, heq.1, _, heq.2, rfl⟩
  · have hend : ((runSteps step (start (smallEndpoint false) fun _ => true) (deadRun 2)).map
        fun ep => (ep.reported, ep.space.entry 10, ep.conns.entries)) =
          some ([(1, 10)], some ⟨1, 2, false, true⟩, [⟨2, 3, 10⟩]) := by decide +kernel
    obtain ⟨ep, hrun, heq⟩ := Option.map_eq_some_iff.mp hend
    simp only [Prod.mk.injEq] at heq
    obtain ⟨i, hconn⟩ : ∃ i, ep.conns i = some ⟨2, 3, 10⟩ :=
      SlotTable.mem_entries.mp (by simp [heq.2.2])
    exact ⟨ep, hrun, heq.1, ⟨_, heq.2.1, rfl⟩, i, _, hconn, rfl⟩

end Endpoint

end Uros.Flipc2
