import Uros.Block.Revocation

/-!
Handles of one client under the messages of another.

A task `T` sends whatever it likes to `cap_server` and to those ports of the block
server it has send rights for; it has none for the handle `v` of another task.
Events of all other tasks and of the kernel are interleaved with those of `T`.
-/

namespace Uros.Block

open Uros.Foundation Uros.Cap

structure TaskEvent where
  byT : Bool
  event : SysEvent

def System.taskStep (mac : Mac) (sys : System) (e : TaskEvent) : Option System :=
  sys.step mac e.event

section Victim

variable (v : BlkHandle)

def WithinRights : SysEvent → Prop
  | .cap _ => True
  | .msg port _ _ => port ≠ v.recvPort
  | .noSenders _ _ _ => False
  | .notice _ => False

def Spares (sys : System) : SysEvent → Prop
  | .cap (.revoke id _) => ¬sys.caps.Descends id v.capId
  | .msg _ m _ => m.id = 3501 → m.body ≠ .capRevokeNotify v.capId
  | _ => True

def KeepsOpen : SysEvent → Prop
  | .msg port m _ => port = v.recvPort → m.id ≠ 2801
  | .noSenders port _ _ => port ≠ v.recvPort
  | _ => True

def LeavesAlone (sys : System) (e : TaskEvent) : Prop :=
  Spares v sys e.event ∧ if e.byT then WithinRights v e.event else KeepsOpen v e.event

structure Standing (sys : System) : Prop where
  valid : Valid sys.caps
  issued : (sys.caps.find v.capId).isSome
  open_ : v ∈ sys.blk.handles
  quiet : v.capId ∉ sys.pending

end Victim

variable {mac : Mac} {sys sys' : System} {v : BlkHandle} {s s' : CapServer} {req : CapRequest}
  {deliver : Notice → Bool} {status : CapReturn} {sent : List Notice} {id : UInt64} {n : Notice}

theorem descends_of_mem_sent (hvalid : Valid s)
    (h : capRevoke mac deliver s id = some (status, s', sent)) (hn : n ∈ sent) :
    s.Descends id n.capId := by
  obtain ⟨F, hF⟩ := hvalid.forest
  cases hfind : s.find id with
  | none =>
    simp only [capRevoke, hfind, Option.some.injEq, Prod.mk.injEq] at h
    simp [← h.2.2] at hn
  | some t =>
    obtain ⟨K, hK⟩ := Forest.exists_kidsOf ((hF.mem_iff id).mpr (by rw [hfind]; rfl))
    have heq := h.symm.trans (hF.capRevoke_eq hK)
    simp only [Option.some.injEq, Prod.mk.injEq] at heq
    exact hF.descends_of_mem_sent hK (heq.2.2 ▸ hn)

theorem sent_eq_nil {caps : CapServer} {reply : CapReply} (hno : ¬req.IsRevoke)
    (h : handle mac s req = some (caps, reply)) : reply.sent = [] := by
  have hissue : ∀ r, (issueReply s r).2.sent = [] := by
    rintro (err | ⟨s', t⟩) <;> rfl
  cases req with
  | revoke id deliver => exact absurd trivial hno
  | acquire localPort type resourceId ops mem =>
    have hreply : _ = reply := congrArg Prod.snd (Option.some.inj h)
    exact hreply ▸ hissue _
  | derive parent reducedOps mem =>
    have hreply : _ = reply := congrArg Prod.snd (Option.some.inj h)
    exact hreply ▸ hissue _
  | verify token op resourceId =>
    have hreply : _ = reply := congrArg Prod.snd (Option.some.inj h)
    exact hreply ▸ rfl
  | subscribeRevoke notifyPort =>
    have hreply : _ = reply := congrArg Prod.snd (Option.some.inj h)
    exact hreply ▸ rfl
  | provisionTask manifest ans =>
    have hreply : _ = reply := congrArg Prod.snd (Option.some.inj h)
    exact hreply ▸ rfl

theorem revoke_of_mem_sent {caps : CapServer} {reply : CapReply} (hvalid : Valid s)
    (h : handle mac s req = some (caps, reply)) (hn : n ∈ reply.sent) :
    ∃ id deliver, req = .revoke id deliver ∧ s.Descends id n.capId := by
  by_cases hrevoke : req.IsRevoke
  · cases req with
    | revoke id deliver =>
      obtain ⟨⟨status, s', sent⟩, hrev, heq⟩ := Option.map_eq_some_iff.mp h
      simp only [Prod.mk.injEq] at heq
      rw [← heq.2] at hn
      exact ⟨id, deliver, rfl, descends_of_mem_sent hvalid hrev hn⟩
    | _ => exact hrevoke.elim
  · rw [sent_eq_nil hrevoke h] at hn
    simp at hn

theorem device_of_payload {blk : BlkServer} {port p : MachPort}
    (h : blk.payload port = some (.handle p)) : p = port := by
  unfold BlkServer.payload at h
  split at h
  · simpa [eq_comm] using h
  · obtain ⟨q, -, hq⟩ := Option.map_eq_some_iff.mp h
    cases hq

theorem mem_of_msg {blk : BlkServer} {port : MachPort} {m : ClientMsg} {ans : DemuxAnswers}
    {device : Device} (hv : v ∈ sys.blk.handles) (hdev : sys.blk.payload port = some device)
    (hclose : port = v.recvPort → m.id ≠ 2801)
    (hrevoke : m.id = 3501 → m.body ≠ .capRevokeNotify v.capId)
    (hm : Demuxed mac sys.kernel sys.blk (m.received port device) ans blk) :
    v ∈ blk.handles := by
  cases hm with
  | kept hkept => exact hkept ▸ hv
  | released hright _ => cases hright
  | closed p hid hp hs =>
    have hport : p = port := device_of_payload (hdev.trans (congrArg some hp))
    subst hport
    exact hs ▸ mem_removeHandle_of_ne hv fun heq => hclose heq.symm hid
  | opened token hport _ _ _ hopened =>
    obtain ⟨p, -, -, rfl⟩ := hopened.part
    exact List.mem_cons_of_mem _ hv
  | revoked capId hid hbody hs =>
    refine hs ▸ mem_revokeByCapId_of_ne hv fun heq => hrevoke hid ?_
    rw [heq]
    exact hbody

theorem Standing.step {e : TaskEvent} (h : Standing v sys) (hok : LeavesAlone v sys e)
    (hstep : sys.taskStep mac e = some sys') : Standing v sys' := by
  obtain ⟨hspares, hrole⟩ := hok
  -- a message of `T` goes to another port, one of the owner is not a close
  have hclose : ∀ port m ans, e.event = .msg port m ans → port = v.recvPort → m.id ≠ 2801 := by
    intro port m ans hev hport
    rw [hev] at hrole
    cases hbyT : e.byT with
    | true =>
      rw [hbyT] at hrole
      exact absurd hport hrole
    | false =>
      rw [hbyT] at hrole
      exact hrole hport
  have hstepped := stepped_of_step hstep
  generalize e.event = ev at hspares hrole hclose hstepped
  cases hstepped with
  | @cap req caps reply hreq =>
    have hserved : Served mac sys.caps req caps := served_of_serve (by rw [serve, hreq]; rfl)
    obtain ⟨t, ht⟩ := Option.isSome_iff_exists.mp h.issued
    obtain ⟨t', ht', -⟩ := hserved.find_some h.valid ht
    refine ⟨h.valid.served hserved, by rw [ht']; rfl, h.open_, fun hmem => ?_⟩
    rcases List.mem_append.mp hmem with hold | hnew
    · exact h.quiet hold
    · obtain ⟨n, hn, hcap⟩ := List.mem_map.mp hnew
      obtain ⟨id, deliver, rfl, hdesc⟩ :=
        revoke_of_mem_sent h.valid hreq (List.mem_filter.mp hn).1
      exact hspares (hcap ▸ hdesc)
  | @msg port m ans device blk hdev _ hm =>
    exact ⟨h.valid, h.issued, mem_of_msg h.open_ hdev (hclose port m ans rfl) hspares hm,
      h.quiet⟩
  | @noSenders port pp ans blk device _ hm =>
    have hport : port ≠ v.recvPort := by
      cases hbyT : e.byT with
      | true =>
        rw [hbyT] at hrole
        exact hrole.elim
      | false =>
        rw [hbyT] at hrole
        exact hrole
    refine ⟨h.valid, h.issued, ?_, h.quiet⟩
    cases hm with
    | kept hkept => exact hkept ▸ h.open_
    | released _ hs => exact hs ▸ mem_removeHandle_of_ne h.open_ (Ne.symm hport)
    | closed p hid _ _ => exact absurd hid (by simp [noSendersMsg])
    | opened token hport hid _ _ _ => exact absurd hid (by simp [noSendersMsg])
    | revoked capId hid _ _ => exact absurd hid (by simp [noSendersMsg])
  | @notice capId pending ans hpending =>
    have hquiet := h.quiet
    rw [hpending, List.mem_cons, not_or] at hquiet
    exact ⟨h.valid, h.issued, mem_revokeByCapId_of_ne h.open_ hquiet.1, hquiet.2⟩

def openEvents (mac : Mac) (key : Digest) : List TaskEvent :=
  [⟨false, .cap (.acquire 0 resourceBlkDevice (capNameHash smallPartition.name) 3 true)⟩,
    ⟨false, .msg 10 (openMsg (smallToken mac key).encode) smallAnswers⟩]

def smallHandle : BlkHandle := ⟨smallPartition, 11, 1, false⟩

theorem openEvents_run (mac : Mac) (key : Digest) :
    ∃ sys, runSteps (System.taskStep mac) (smallSystem key) (openEvents mac key) = some sys ∧
      sys.blk = { BlkServer.init 1 [smallPartition] with handles := [smallHandle] } ∧
      Delegates sys.caps (.cons 1 .nil .nil) ∧ sys.pending = [] := by
  obtain ⟨s₁, hacquire, hF, -, -⟩ := acquire_first mac key 1 resourceBlkDevice
    (capNameHash smallPartition.name) 3
  have hstep₁ : (smallSystem key).taskStep mac ⟨false, .cap (.acquire 0 resourceBlkDevice
      (capNameHash smallPartition.name) 3 true)⟩ = some { smallSystem key with caps := s₁ } := by
    simp only [System.taskStep, System.step, System.capStep, smallSystem, System.init, hacquire]
    rfl
  have hopen := @open_small mac key { smallSystem key with caps := s₁ } rfl rfl
  exact ⟨_, runSteps_cons.mpr ⟨_, hstep₁, runSteps_cons.mpr ⟨_, hopen, runSteps_nil⟩⟩, rfl, hF,
    rfl⟩

/-- A message that looks like a notification, on a port that is no notification port. -/
def forgedNotice (id : UInt64) : SysEvent :=
  .msg 10 ⟨.none, false, 3501, .capRevokeNotify id⟩
    ⟨⟨true, none⟩, ⟨true, true, fun _ => true⟩, none⟩

theorem forgedNotice_step
    (hblk : sys.blk = { BlkServer.init 1 [smallPartition] with handles := [smallHandle] }) :
    sys.taskStep mac ⟨true, forgedNotice id⟩ =
      some { sys with blk := sys.blk.blkHandlesRevokeByCapId id } := by
  have hpayload : sys.blk.payload 10 = some (.part smallPartition) := by
    rw [hblk]
    rfl
  have hfresh : ∀ port ∈ (none : Option MachPort), sys.blk.FreshPort port := by
    rintro _ ⟨⟩
  have hdemux : (sys.blk.blkDemux mac sys.kernel
      ((⟨.none, false, 3501, .capRevokeNotify id⟩ : ClientMsg).received 10 (.part smallPartition))
      ⟨⟨true, none⟩, ⟨true, true, fun _ => true⟩, none⟩).1 =
        sys.blk.blkHandlesRevokeByCapId id := rfl
  simp only [System.taskStep, forgedNotice, System.step, hpayload, Option.bind_some,
    System.blkStep, if_pos hfresh, hdemux]

/-- The handle of the other task stops working. -/
theorem forged_notice_revokes :
    ∃ sys sys', runSteps (System.taskStep portableHmac) (smallSystem (Vector.replicate 32 0))
        (openEvents portableHmac (Vector.replicate 32 0)) = some sys ∧
      smallHandle ∈ sys.blk.handles ∧ WithinRights smallHandle (forgedNotice 1) ∧
      sys.taskStep portableHmac ⟨true, forgedNotice 1⟩ = some sys' ∧
      smallHandle ∉ sys'.blk.handles ∧
      sys'.blk.blkPartFromAuthedHandle (.handle smallHandle.recvPort) = none := by
  obtain ⟨sys, hrun, hblk, -, -⟩ := openEvents_run portableHmac (Vector.replicate 32 0)
  refine ⟨sys, _, hrun, ?_, ?_, forgedNotice_step hblk, ?_, ?_⟩
  · rw [hblk]
    exact List.mem_singleton.mpr rfl
  · show (10 : MachPort) ≠ 11
    decide
  · rw [hblk]
    rintro hmem
    rcases mem_blkHandlesRevokeByCapId.mp hmem with ⟨-, hnot⟩ | ⟨g, -, -, -, hg⟩
    · exact hnot ⟨rfl, rfl⟩
    · have hrevoked : true = smallHandle.revoked := congrArg BlkHandle.revoked hg
      exact absurd hrevoked (by decide)
  · rw [hblk]
    rfl

/-- As long as `T` acts within its rights and never names the capability of `v`,
and nobody else closes or revokes `v`, it stays open and authorises its
partition. -/
theorem handle_survives (mac : Mac) (key : Digest) (capPort : MachPort) (capTask : TaskId)
    (nControllers : Nat) (partitions : List BlkPartition) (notifyPort : MachPort)
    (events₀ : List TaskEvent) (sys₀ : System)
    (hrun₀ : runSteps (System.taskStep mac)
      (.init key capPort capTask (.init nControllers partitions) notifyPort) events₀ = some sys₀)
    (v : BlkHandle) (hopen : v ∈ sys₀.blk.handles) (hlive : v.revoked = false)
    (hissued : (sys₀.caps.find v.capId).isSome) (hquiet : v.capId ∉ sys₀.pending)
    (events : List TaskEvent) (sys : System)
    (hok : StepsMeet (System.taskStep mac) (LeavesAlone v) sys₀ events)
    (hrun : runSteps (System.taskStep mac) sys₀ events = some sys) :
    v ∈ sys.blk.handles ∧
      sys.blk.blkPartFromAuthedHandle (.handle v.recvPort) = some v.part := by
  have hsound₀ : sys₀.Sound := runSteps_invariant
    (fun _ _ _ h hstep => h.stepped (stepped_of_step hstep))
    (.init key capPort capTask nControllers partitions notifyPort) hrun₀
  have hsound : sys.Sound := runSteps_invariant
    (fun _ _ _ h hstep => h.stepped (stepped_of_step hstep)) hsound₀ hrun
  have hstanding : Standing v sys := runSteps_invariant_of_guard
    (fun _ _ _ h hev hstep => h.step hev hstep) ⟨hsound₀.valid, hissued, hopen, hquiet⟩ hok hrun
  refine ⟨hstanding.open_, ?_⟩
  rw [blkPartFromAuthedHandle_iff]
  exact ⟨v, handleOf_of_mem hsound.ports hstanding.open_, hlive, rfl⟩

/-- What `T` does with a capability of its own: it acquires it, forges a notification of its
revocation, and revokes it. -/
def ownEvents : List TaskEvent :=
  [⟨true, .cap (.acquire 0 resourceBlkDevice 7 3 true)⟩, ⟨true, forgedNotice 2⟩,
    ⟨true, .cap (.revoke 2 fun _ => true)⟩]

theorem ownEvents_run
    (hblk : sys.blk = { BlkServer.init 1 [smallPartition] with handles := [smallHandle] })
    (hF : Delegates sys.caps (.cons 1 .nil .nil)) :
    StepsMeet (System.taskStep mac) (LeavesAlone smallHandle) sys ownEvents ∧
      ∃ sys', runSteps (System.taskStep mac) sys ownEvents = some sys' ∧ 2 ∈ sys'.revokedIds := by
  have hnext : sys.caps.nextCapId = 2 := by
    have hissued : sys.caps.nextCapId.toNat = 2 := by simpa [Forest.nodes] using hF.issued
    exact UInt64.toNat_inj.mp hissued
  have hroom : sys.caps.heapUsed + capEntrySize ≤ 2 ^ 32 := by
    rw [hF.heap]
    decide
  obtain ⟨s₁, t, hok, ha⟩ := @capAcquire_ok mac sys.caps 0 resourceBlkDevice 7 3 rfl hroom
  have hF₁ : Delegates s₁ (.cons 2 .nil (.cons 1 .nil .nil)) := hnext ▸ hF.acquire ha
  have hK : (Forest.cons (2 : UInt64) .nil (.cons 1 .nil .nil)).kidsOf 2 = some .nil := rfl
  have hacquire : sys.taskStep mac ⟨true, .cap (.acquire 0 resourceBlkDevice 7 3 true)⟩ =
      some { sys with caps := s₁, pending := sys.pending ++ [] } := by
    simp only [System.taskStep, System.step, System.capStep, handle, hok]
    rfl
  have hnotice := @forgedNotice_step mac
    { sys with caps := s₁, pending := sys.pending ++ [] } 2 hblk
  have hrevoke : ∃ sys', System.taskStep mac { sys with
      caps := s₁, pending := sys.pending ++ [], blk := sys.blk.blkHandlesRevokeByCapId 2 }
      ⟨true, .cap (.revoke 2 fun _ => true)⟩ = some sys' ∧ 2 ∈ sys'.revokedIds := by
    simp only [System.taskStep, System.step, System.capStep, handle, hF₁.capRevoke_eq hK]
    exact ⟨_, rfl, List.mem_cons_self⟩
  obtain ⟨sys', hrevoke, hmem⟩ := hrevoke
  refine ⟨⟨⟨trivial, trivial⟩, fun sys₁ h₁ => ?_⟩, sys', runSteps_cons.mpr ⟨_, hacquire,
    runSteps_cons.mpr ⟨_, hnotice, runSteps_cons.mpr ⟨_, hrevoke, runSteps_nil⟩⟩⟩, hmem⟩
  cases hacquire.symm.trans h₁
  refine ⟨⟨fun _ hbody => ?_, (by decide : (10 : MachPort) ≠ 11)⟩, fun sys₂ h₂ => ?_⟩
  · cases hbody
  · cases hnotice.symm.trans h₂
    refine ⟨⟨fun hdesc => ?_, trivial⟩, fun _ _ => trivial⟩
    simpa [Forest.nodes, smallHandle] using (hF₁.descends_iff hK).mp hdesc

theorem handle_survives_small :
    ∃ sys₀ sys, runSteps (System.taskStep portableHmac) (smallSystem (Vector.replicate 32 0))
        (openEvents portableHmac (Vector.replicate 32 0)) = some sys₀ ∧
      runSteps (System.taskStep portableHmac) sys₀ ownEvents = some sys ∧
      2 ∈ sys.revokedIds ∧ smallHandle ∈ sys.blk.handles ∧
      sys.blk.blkPartFromAuthedHandle (.handle smallHandle.recvPort) =
        some smallHandle.part := by
  obtain ⟨sys₀, hrun₀, hblk, hF, hpending⟩ := openEvents_run portableHmac (Vector.replicate 32 0)
  obtain ⟨hok, sys, hrun, hrevoked⟩ := @ownEvents_run portableHmac sys₀ hblk hF
  refine ⟨sys₀, sys, hrun₀, hrun, hrevoked, ?_⟩
  exact handle_survives portableHmac (Vector.replicate 32 0) 1 0 1 [smallPartition] 9 _ sys₀ hrun₀
    smallHandle (by rw [hblk]; exact List.mem_singleton.mpr rfl) rfl
    ((hF.mem_iff 1).mp (by simp [Forest.nodes])) (by rw [hpending]; simp) _ _ hok hrun

end Uros.Block
