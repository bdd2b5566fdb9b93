import Uros.Foundation.StackWalk
import Uros.Foundation.Transition
import Uros.Cap.Manifest
import Uros.Cap.Table

/-!
The capability server (`cap_server/cap_server.c`): issue, derive, revoke, verify,
subscription to revocations, and provisioning of per-task ports.

Handlers run one at a time, so a handler is a function of the server state and
the request.  What the server does not decide is an argument: `mem` is the answer
of `malloc`, `deliver` says which notifications the kernel accepts for sending.
-/

namespace Uros.Cap

open Uros.Foundation

structure CapServer where
  key : Digest
  table : CapTable
  nextCapId : UInt64
  heapUsed : Nat
  subscribers : List MachPort
  manifests : ManifestTable
  capPort : MachPort
  taskPorts : List MachPort

def capEntrySize : Nat := 204

def capTokenMax : Nat := 256

def capMaxRevokeSubscribers : Nat := 8

namespace CapServer

def init (key : Digest) (capPort : MachPort) : CapServer where
  key
  table := ChainTable.empty
  nextCapId := 1
  heapUsed := 0
  subscribers := []
  manifests := capManifestTableInit
  capPort
  taskPorts := []

def find (s : CapServer) (id : UInt64) : Option UrosCap := capTableFindById s.table id

def IsParent (s : CapServer) (p d : UInt64) : Prop :=
  ∃ t, s.find d = some t ∧ t.parentCapId = p

def Descends (s : CapServer) : UInt64 → UInt64 → Prop :=
  Relation.ReflTransGen s.IsParent

def Revoked (s : CapServer) (id : UInt64) : Prop :=
  ∃ t, s.find id = some t ∧ t.revoked ≠ 0

def allocEntry (s : CapServer) (mem : Bool) : Option CapServer :=
  if mem && s.heapUsed + capEntrySize ≤ 2 ^ 32 then
    some { s with heapUsed := s.heapUsed + capEntrySize }
  else none

end CapServer

def policyAllowsV1 (_sender : MachPort) (_resourceType : UInt32) (_ops : UInt64) : Bool :=
  true

def deniedByManifest (s : CapServer) (localPort : MachPort) (type : UInt32)
    (ops : UInt64) : Bool :=
  localPort ≠ machPortNull && localPort ≠ s.capPort &&
    !capManifestAllows (capManifestTableGet s.manifests localPort) type ops

section Handlers

variable (mac : Mac)

def rootToken (id : UInt64) (type : UInt32) (resourceId ops : UInt64) : UrosCap :=
  { UrosCap.zero with
    capId := id
    resourceType := type
    resourceId
    allowedOps := ops
    delegable := 1 }

def capAcquire (s : CapServer) (localPort : MachPort) (type : UInt32)
    (resourceId ops : UInt64) (tokenLen : Nat) (mem : Bool) :
    Except CapReturn (CapServer × UrosCap) :=
  if tokenLen < capTokenSize then .error .noMemory
  else if !policyAllowsV1 machPortNull type ops then .error .policyDenied
  else if deniedByManifest s localPort type ops then .error .notInManifest
  else
    match s.allocEntry mem with
    | none => .error .noMemory
    | some s =>
      let t := capSign mac s.key (rootToken s.nextCapId type resourceId ops)
      .ok ({ s with
        nextCapId := s.nextCapId + 1
        table := capTableInsert s.table t }, t)

def childToken (parent : UrosCap) (id ops sibling : UInt64) : UrosCap :=
  { parent with
    capId := id
    allowedOps := ops
    parentCapId := parent.capId
    depth := parent.depth + 1
    firstChildCapId := 0
    nextSiblingCapId := sibling }

theorem childToken_revoked {parent : UrosCap} {id ops sibling : UInt64} :
    (childToken parent id ops sibling).revoked = parent.revoked := rfl

def capDerive (s : CapServer) (parentBuf : Bytes) (reducedOps : UInt64)
    (childLen : Nat) (mem : Bool) : Except CapReturn (CapServer × UrosCap) :=
  if parentBuf.length ≠ capTokenSize then .error .invalidToken
  else if childLen < capTokenSize then .error .noMemory
  else
    let parent := UrosCap.decode parentBuf
    if !capVerifyHmac mac s.key parent then .error .invalidToken
    else if parent.revoked ≠ 0 then .error .revoked
    else if parent.delegable = 0 then .error .notDelegable
    else if capMaxDepth < parent.depth.toNat + 1 then .error .depthExceeded
    else if reducedOps &&& ~~~parent.allowedOps ≠ 0 then .error .opNotAllowed
    else
      match s.find parent.capId with
      | none => .error .revoked
      | some parentEntry =>
        if parentEntry.revoked ≠ 0 then .error .revoked
        else
          match s.allocEntry mem with
          | none => .error .noMemory
          | some s =>
            let id := s.nextCapId
            let t := capSign mac s.key
              (childToken parent id reducedOps parentEntry.firstChildCapId)
            let table := capTableUpdate (capTableInsert s.table t) parent.capId
              (setFirstChild mac s.key id)
            .ok ({ s with nextCapId := id + 1, table }, t)

def capVerify (s : CapServer) (tokenBuf : Bytes) (op resourceId : UInt64) : CapReturn :=
  if tokenBuf.length ≠ capTokenSize then .invalidToken
  else
    let token := UrosCap.decode tokenBuf
    if !capVerifyHmac mac s.key token then .invalidToken
    else if token.revoked ≠ 0 then .revoked
    else if token.resourceId ≠ resourceId then .resourceMismatch
    else if op &&& ~~~token.allowedOps ≠ 0 then .opNotAllowed
    else if (s.find token.capId).any fun live => live.revoked ≠ 0 then .revoked
    else .success

end Handlers

def revokeSubscribersRemoveAt (subscribers : List MachPort) (i : Nat) : List MachPort :=
  (subscribers.set i (subscribers.getLastD machPortNull)).dropLast

structure Notice where
  port : MachPort
  capId : UInt64
  deriving DecidableEq, Repr

structure Fanout where
  subscribers : List MachPort
  sent : List Notice

/-- The loop of `fanout_revoke_notify` from index `i`; every iteration either
advances `i` or shortens the array, so the initial distance bounds them. -/
def fanoutLoop (deliver : Notice → Bool) (capId : UInt64) : Nat → Nat → Fanout → Fanout
  | 0, _, f => f
  | fuel + 1, i, f =>
    match f.subscribers[i]? with
    | none => f
    | some port =>
      if deliver ⟨port, capId⟩ then
        fanoutLoop deliver capId fuel (i + 1)
          { f with sent := f.sent ++ [⟨port, capId⟩] }
      else
        fanoutLoop deliver capId fuel i
          { f with subscribers := revokeSubscribersRemoveAt f.subscribers i }

def fanoutRevokeNotify (deliver : Notice → Bool) (capId : UInt64) (f : Fanout) : Fanout :=
  fanoutLoop deliver capId f.subscribers.length 0 f

def markWalker (mac : Mac) (key : Digest) : Walker (CapTable × Nat) UrosCap UInt64 where
  find := fun s id => capTableFindById s.1 id
  first := UrosCap.firstChildCapId
  next := UrosCap.nextSiblingCapId
  null := 0
  cap := capMaxDepth + 1
  skip := fun t => t.revoked ≠ 0
  act := fun s id => (capTableMarkRevoked mac key s.1 id, s.2 + 1)

def notifyWalker (deliver : Notice → Bool) :
    Walker (CapTable × Fanout) UrosCap UInt64 where
  find := fun s id => capTableFindById s.1 id
  first := UrosCap.firstChildCapId
  next := UrosCap.nextSiblingCapId
  null := 0
  cap := capMaxDepth + 1
  skip := fun _ => false
  act := fun s id => (s.1, fanoutRevokeNotify deliver id s.2)

def capRevoke (mac : Mac) (deliver : Notice → Bool) (s : CapServer) (id : UInt64) :
    Option (CapReturn × CapServer × List Notice) :=
  match s.find id with
  | none => some (.invalidToken, s, [])
  | some _ =>
    let fuel := s.nextCapId.toNat
    ((markWalker mac s.key).run fuel (s.table, 0) [id]).bind fun (table, revoked) =>
      let s := { s with table }
      if 0 < s.subscribers.length ∧ 0 < revoked then
        ((notifyWalker deliver).run fuel (table, ⟨s.subscribers, []⟩) [id]).bind
          fun (_, f) => some (.success, { s with subscribers := f.subscribers }, f.sent)
      else some (.success, s, [])

def capSubscribeRevoke (s : CapServer) (notifyPort : MachPort) : CapReturn × CapServer :=
  if notifyPort = machPortNull then (.invalidToken, s)
  else if notifyPort ∈ s.subscribers then (.success, s)
  else if capMaxRevokeSubscribers ≤ s.subscribers.length then (.noMemory, s)
  else (.success, { s with subscribers := s.subscribers ++ [notifyPort] })

structure ProvisionAnswers where
  newPort : Option MachPort
  moveMember : Bool
  mem : Bool
  insertRight : Bool

/-- Returns the port handed to the new task.  When the last step fails the port
is destroyed but its manifest stays installed. -/
def capProvisionTask (s : CapServer) (manifest : Bytes) (ans : ProvisionAnswers) :
    CapReturn × CapServer × Option MachPort :=
  match capManifestValidate manifest with
  | .success =>
    match ans.newPort with
    | none => (.noMemory, s, none)
    | some newPort =>
      if !ans.moveMember then (.internal, s, none)
      else
        match capManifestTableInstall s.manifests newPort manifest ans.mem with
        | (.success, manifests) =>
          if !ans.insertRight then (.internal, { s with manifests }, none)
          else
            (.success,
              { s with manifests, taskPorts := newPort :: s.taskPorts },
              some newPort)
        | (err, manifests) => (err, { s with manifests }, none)
  | err => (err, s, none)

inductive CapRequest where
  | acquire (localPort : MachPort) (type : UInt32) (resourceId ops : UInt64) (mem : Bool)
  | derive (parent : Bytes) (reducedOps : UInt64) (mem : Bool)
  | revoke (capId : UInt64) (deliver : Notice → Bool)
  | verify (token : Bytes) (op resourceId : UInt64)
  | subscribeRevoke (notifyPort : MachPort)
  | provisionTask (manifest : Bytes) (ans : ProvisionAnswers)

structure CapReply where
  status : CapReturn
  token : Option UrosCap
  port : Option MachPort
  sent : List Notice

def CapReply.ofStatus (status : CapReturn) : CapReply := ⟨status, none, none, []⟩

def issueReply (s : CapServer) : Except CapReturn (CapServer × UrosCap) →
    CapServer × CapReply
  | .ok (s', t) => (s', ⟨.success, some t, none, []⟩)
  | .error err => (s, .ofStatus err)

def handle (mac : Mac) (s : CapServer) : CapRequest → Option (CapServer × CapReply)
  | .acquire localPort type resourceId ops mem =>
    some (issueReply s (capAcquire mac s localPort type resourceId ops capTokenMax mem))
  | .derive parent reducedOps mem =>
    some (issueReply s (capDerive mac s parent reducedOps capTokenMax mem))
  | .revoke capId deliver =>
    (capRevoke mac deliver s capId).map fun (status, s', sent) =>
      (s', ⟨status, none, none, sent⟩)
  | .verify token op resourceId =>
    some (s, .ofStatus (capVerify mac s token op resourceId))
  | .subscribeRevoke notifyPort =>
    let (status, s') := capSubscribeRevoke s notifyPort
    some (s', .ofStatus status)
  | .provisionTask manifest ans =>
    let (status, s', port) := capProvisionTask s manifest ans
    some (s', ⟨status, none, port, []⟩)

def serve (mac : Mac) (s : CapServer) (req : CapRequest) : Option CapServer :=
  (handle mac s req).map Prod.fst

section Success

variable {mac : Mac} {s s' : CapServer} {t : UrosCap}

def CapServer.issue (s : CapServer) (t : UrosCap) : CapServer :=
  { s with
    heapUsed := s.heapUsed + capEntrySize
    nextCapId := s.nextCapId + 1
    table := capTableInsert s.table t }

theorem allocEntry_of_room (h : s.heapUsed + capEntrySize ≤ 2 ^ 32) :
    s.allocEntry true = some { s with heapUsed := s.heapUsed + capEntrySize } := by
  rw [CapServer.allocEntry, Bool.true_and, if_pos (decide_eq_true h)]

theorem allocEntry_some {mem : Bool} (h : s.allocEntry mem = some s') :
    s.heapUsed + capEntrySize ≤ 2 ^ 32 ∧
      s' = { s with heapUsed := s.heapUsed + capEntrySize } := by
  unfold CapServer.allocEntry at h
  split at h
  · rename_i hmem
    simp only [Bool.and_eq_true, decide_eq_true_eq] at hmem
    exact ⟨hmem.2, (Option.some.inj h).symm⟩
  · cases h

structure Acquired (mac : Mac) (s : CapServer) (localPort : MachPort) (type : UInt32)
    (resourceId ops : UInt64) (s' : CapServer) (t : UrosCap) : Prop where
  allowed : deniedByManifest s localPort type ops = false
  room : s.heapUsed + capEntrySize ≤ 2 ^ 32
  token : t = capSign mac s.key (rootToken s.nextCapId type resourceId ops)
  state : s' = s.issue t

theorem acquired_of_ok {localPort : MachPort} {type : UInt32} {resourceId ops : UInt64}
    {tokenLen : Nat} {mem : Bool}
    (h : capAcquire mac s localPort type resourceId ops tokenLen mem = .ok (s', t)) :
    Acquired mac s localPort type resourceId ops s' t := by
  unfold capAcquire at h
  split_ifs at h with hlen hpolicy hdenied
  cases halloc : s.allocEntry mem with
  | none => simp [halloc] at h
  | some s₁ =>
    obtain ⟨hroom, rfl⟩ := allocEntry_some halloc
    simp only [halloc, Except.ok.injEq, Prod.mk.injEq] at h
    obtain ⟨rfl, rfl⟩ := h
    exact ⟨by simpa using hdenied, hroom, rfl, rfl⟩

theorem Acquired.find {localPort : MachPort} {type : UInt32} {resourceId ops : UInt64}
    (h : Acquired mac s localPort type resourceId ops s' t) (id : UInt64) :
    s'.find id = if s.nextCapId = id then some t else s.find id := by
  have hid : t.capId = s.nextCapId := by rw [h.token]; rfl
  rw [h.state, ← hid]
  exact find_capTableInsert

theorem capAcquire_ok {localPort : MachPort} {type : UInt32} {resourceId ops : UInt64}
    (hallowed : deniedByManifest s localPort type ops = false)
    (hroom : s.heapUsed + capEntrySize ≤ 2 ^ 32) :
    ∃ s' t, capAcquire mac s localPort type resourceId ops capTokenMax true = .ok (s', t) ∧
      Acquired mac s localPort type resourceId ops s' t := by
  have halloc := allocEntry_of_room hroom
  have hok : ∃ r, capAcquire mac s localPort type resourceId ops capTokenMax true = .ok r := by
    simp only [capAcquire, hallowed, halloc, show ¬capTokenMax < capTokenSize by decide]
    exact ⟨_, rfl⟩
  obtain ⟨⟨s', t⟩, hok⟩ := hok
  exact ⟨s', t, hok, acquired_of_ok hok⟩

structure Derived (mac : Mac) (s : CapServer) (parent : UrosCap) (reducedOps : UInt64)
    (s' : CapServer) (t : UrosCap) : Prop where
  hmac : capVerifyHmac mac s.key parent = true
  revoked : parent.revoked = 0
  delegable : parent.delegable ≠ 0
  depth : parent.depth.toNat + 1 ≤ capMaxDepth
  ops : reducedOps &&& ~~~parent.allowedOps = 0
  room : s.heapUsed + capEntrySize ≤ 2 ^ 32
  entry : ∃ e, s.find parent.capId = some e ∧ e.revoked = 0 ∧
    t = capSign mac s.key (childToken parent s.nextCapId reducedOps e.firstChildCapId)
  state : s' = { s.issue t with
    table := capTableUpdate (capTableInsert s.table t) parent.capId
      (setFirstChild mac s.key s.nextCapId) }

theorem derived_of_ok {parentBuf : Bytes} {reducedOps : UInt64} {childLen : Nat} {mem : Bool}
    (h : capDerive mac s parentBuf reducedOps childLen mem = .ok (s', t)) :
    parentBuf.length = capTokenSize ∧
      Derived mac s (UrosCap.decode parentBuf) reducedOps s' t := by
  unfold capDerive at h
  by_cases hlen : parentBuf.length = capTokenSize
  case neg =>
    rw [if_pos hlen] at h
    cases h
  rw [if_neg (not_not.mpr hlen)] at h
  dsimp only at h
  generalize UrosCap.decode parentBuf = parent at h ⊢
  split_ifs at h with hchild hhmac hrev hdel hdepth hops
  cases hfind : s.find parent.capId with
  | none => simp [hfind] at h
  | some e =>
    simp only [hfind] at h
    split_ifs at h with herev
    cases halloc : s.allocEntry mem with
    | none => simp [halloc] at h
    | some s₁ =>
      obtain ⟨hroom, rfl⟩ := allocEntry_some halloc
      simp only [halloc, Except.ok.injEq, Prod.mk.injEq] at h
      obtain ⟨rfl, rfl⟩ := h
      exact ⟨hlen, by simpa using hhmac, by simpa using hrev,
        by simpa using hdel, by omega, by simpa using hops, hroom,
        ⟨e, hfind, by simpa using herev, rfl⟩, rfl⟩

theorem capDerive_ok {parent e : UrosCap} {reducedOps : UInt64}
    (hhmac : capVerifyHmac mac s.key parent = true) (hrev : parent.revoked = 0)
    (hdel : parent.delegable ≠ 0) (hdepth : parent.depth.toNat + 1 ≤ capMaxDepth)
    (hops : reducedOps &&& ~~~parent.allowedOps = 0)
    (he : s.find parent.capId = some e) (herev : e.revoked = 0)
    (hroom : s.heapUsed + capEntrySize ≤ 2 ^ 32) :
    ∃ s' t, capDerive mac s parent.encode reducedOps capTokenMax true = .ok (s', t) ∧
      Derived mac s parent reducedOps s' t := by
  have halloc := allocEntry_of_room hroom
  have hok : ∃ r, capDerive mac s parent.encode reducedOps capTokenMax true = .ok r := by
    simp [capDerive, hhmac, hrev, hdel, hops, he, herev, halloc, Nat.not_lt.mpr hdepth,
      show ¬capTokenMax < capTokenSize by decide]
  obtain ⟨⟨s', t⟩, hok⟩ := hok
  have hd := (derived_of_ok hok).2
  rw [UrosCap.decode_encode] at hd
  exact ⟨s', t, hok, hd⟩

inductive Served (mac : Mac) (s : CapServer) : CapRequest → CapServer → Prop where
  | unchanged {req} : Served mac s req s
  | acquired {localPort type resourceId ops mem s' t}
      (h : Acquired mac s localPort type resourceId ops s' t) :
      Served mac s (.acquire localPort type resourceId ops mem) s'
  | derived {parent reducedOps mem s' t}
      (h : Derived mac s (UrosCap.decode parent) reducedOps s' t) :
      Served mac s (.derive parent reducedOps mem) s'
  | revoked {capId deliver s' sent}
      (h : capRevoke mac deliver s capId = some (.success, s', sent)) :
      Served mac s (.revoke capId deliver) s'
  | subscribed {notifyPort} (hnew : notifyPort ∉ s.subscribers) :
      Served mac s (.subscribeRevoke notifyPort)
        { s with subscribers := s.subscribers ++ [notifyPort] }
  | provisioned {manifest ans manifests taskPorts} :
      Served mac s (.provisionTask manifest ans) { s with manifests, taskPorts }

theorem capRevoke_status {deliver : Notice → Bool} {id : UInt64} {status : CapReturn}
    {sent : List Notice} (h : capRevoke mac deliver s id = some (status, s', sent)) :
    s' = s ∨ status = .success := by
  unfold capRevoke at h
  cases hfind : s.find id with
  | none =>
    simp only [hfind, Option.some.injEq, Prod.mk.injEq] at h
    exact .inl h.2.1.symm
  | some t =>
    refine .inr ?_
    simp only [hfind, Option.bind_eq_some_iff] at h
    obtain ⟨⟨table, revoked⟩, -, h⟩ := h
    split at h
    · obtain ⟨⟨table', f⟩, -, h⟩ := Option.bind_eq_some_iff.mp h
      simp only [Option.some.injEq, Prod.mk.injEq] at h
      exact h.1.symm
    · simp only [Option.some.injEq, Prod.mk.injEq] at h
      exact h.1.symm

theorem capProvisionTask_state (s : CapServer) (manifest : Bytes) (ans : ProvisionAnswers) :
    ∃ manifests taskPorts,
      (capProvisionTask s manifest ans).2.1 = { s with manifests, taskPorts } := by
  unfold capProvisionTask
  split
  · split
    · exact ⟨_, _, rfl⟩
    · split
      · exact ⟨_, _, rfl⟩
      · split
        · split
          · exact ⟨_, _, rfl⟩
          · exact ⟨_, _, rfl⟩
        · exact ⟨_, _, rfl⟩
  · exact ⟨_, _, rfl⟩

theorem served_of_serve {req : CapRequest} (h : serve mac s req = some s') :
    Served mac s req s' := by
  obtain ⟨⟨s₁, reply⟩, hreq, rfl⟩ := Option.map_eq_some_iff.mp h
  cases req with
  | acquire localPort type resourceId ops mem =>
    simp only [handle, Option.some.injEq] at hreq
    cases hok : capAcquire mac s localPort type resourceId ops capTokenMax mem with
    | error err =>
      simp only [hok, issueReply, Prod.mk.injEq] at hreq
      exact hreq.1 ▸ .unchanged
    | ok r =>
      simp only [hok, issueReply, Prod.mk.injEq] at hreq
      exact hreq.1 ▸ .acquired (acquired_of_ok hok)
  | derive parent reducedOps mem =>
    simp only [handle, Option.some.injEq] at hreq
    cases hok : capDerive mac s parent reducedOps capTokenMax mem with
    | error err =>
      simp only [hok, issueReply, Prod.mk.injEq] at hreq
      exact hreq.1 ▸ .unchanged
    | ok r =>
      simp only [hok, issueReply, Prod.mk.injEq] at hreq
      exact hreq.1 ▸ .derived (derived_of_ok hok).2
  | revoke capId deliver =>
    obtain ⟨⟨status, s₂, sent⟩, hrev, heq⟩ := Option.map_eq_some_iff.mp hreq
    simp only [Prod.mk.injEq] at heq
    rw [← heq.1]
    rcases capRevoke_status hrev with rfl | rfl
    · exact .unchanged
    · exact .revoked hrev
  | verify token op resourceId =>
    simp only [handle, Option.some.injEq, Prod.mk.injEq] at hreq
    exact hreq.1 ▸ .unchanged
  | subscribeRevoke notifyPort =>
    simp only [handle, capSubscribeRevoke, Option.some.injEq, Prod.mk.injEq] at hreq
    rw [← hreq.1]
    split_ifs with hnull hmem hfull
    · exact .unchanged
    · exact .unchanged
    · exact .unchanged
    · exact .subscribed hmem
  | provisionTask manifest ans =>
    simp only [handle, Option.some.injEq, Prod.mk.injEq] at hreq
    obtain ⟨manifests, taskPorts, hs⟩ := capProvisionTask_state s manifest ans
    rw [← hreq.1, hs]
    exact .provisioned

end Success

end Uros.Cap
