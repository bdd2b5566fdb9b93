import Uros.Block.Transfer

/-!
The dispatcher of the block device server (`blk_demux` in `block_server.c`).

All ports of the server are in one port set and all messages go through the same
chain of recognisers.  Apart from the first one they look at `msgh_id` only, not
at the port a message came in on.  Stubs reject a body that does not have the
layout their routine expects; here such a body is any other constructor.
-/

namespace Uros.Block

open Uros.Foundation Uros.Cap

inductive RightType where
  | none
  | send
  | sendOnce
  deriving DecidableEq, Repr

inductive MsgBody where
  | close
  | write (recnum dataCount : UInt32)
  | read (recnum : UInt32) (bytesWanted : Int32)
  | getStatus (flavor : UInt32)
  | openDevice
  | openCap (token : Bytes)
  | writeBatch (args : BatchArgs)
  | readPhys (recnum : UInt32) (bytesWanted : Int32) (physAddrsCnt : Nat)
  | writePhys (recnum : UInt32) (bytesToWrite : Int32) (physAddrsCnt : Nat)
  | halDeviceAdded
  | capRevokeNotify (capId : UInt64)
  | other

/-- A message as received.  The kernel fills in the type of the right it was sent
through, and the payload of the port if it has one. -/
structure MachMsg where
  remoteRight : RightType
  localRight : RightType
  complex : Bool
  protectedPayload : Bool
  localPort : MachPort
  device : Device
  id : Int
  body : MsgBody

structure DemuxAnswers where
  openCap : BlkServer.OpenAnswers
  io : IoAnswers
  probe : Option (List BlkPartition)

structure BlkReply where
  kr : IoReturn
  port : Option MachPort
  status : List UInt32
  calls : List DriverCall

def BlkReply.ofStatus (kr : IoReturn) : BlkReply := ⟨kr, none, [], []⟩

def maxControllers : Nat := 8

def maxPartitions : Nat := 32

namespace BlkServer

variable (s : BlkServer)

def blkHandleNoSenders (m : MachMsg) : Option (BlkServer × BlkReply) :=
  if m.remoteRight = .none ∧ m.localRight = .sendOnce ∧ !m.complex ∧ !m.protectedPayload ∧
      m.id = 70 then
    some (s.removeHandle m.localPort, .ofStatus .success)
  else none

def dsDeviceOpen (device : Device) : BlkReply :=
  match device with
  | .part p => { BlkReply.ofStatus .success with port := some p.recvPort }
  | _ => .ofStatus .success

def dsDeviceGetStatus (device : Device) (flavor : UInt32) : BlkReply :=
  let part : Option BlkPartition :=
    match device with
    | .null => none
    | .part p => some p
    | .handle _ => (s.handleOf device).map BlkHandle.part
  match part with
  | none => .ofStatus .noSuchDevice
  | some p =>
    if flavor = 0 then
      { BlkReply.ofStatus .success with status := [p.numSectors * sectorSize, sectorSize] }
    else .ofStatus .invalidOperation

def io (device : Device) (req : BlkIo) (ans : IoAnswers) : BlkServer × BlkReply :=
  let r := s.dsDeviceIo device req ans
  ({ s with ra := r.ra }, { BlkReply.ofStatus r.kr with calls := r.calls })

def halDeviceAdded (probe : Option (List BlkPartition)) : BlkServer :=
  match probe with
  | none => s
  | some found =>
    if maxControllers ≤ s.nControllers then s
    else
      { s with
        nControllers := s.nControllers + 1
        partitions := (s.partitions ++ found).take maxPartitions }

def unimplemented : List Int := [2803, 2805, 2809, 2810, 2812, 2815, 2816]

variable (mac : Mac) (k : KernelCaps)

def deviceServer (m : MachMsg) (ans : DemuxAnswers) : Option (BlkServer × BlkReply) :=
  if m.id = 2801 then
    match m.body with
    | .close => some (s.dsDeviceClose m.device, .ofStatus .success)
    | _ => some (s, .ofStatus .badArguments)
  else if m.id = 2802 then
    match m.body with
    | .write recnum dataCount => some (s.io m.device (.write recnum dataCount) ans.io)
    | _ => some (s, .ofStatus .badArguments)
  else if m.id = 2804 then
    match m.body with
    | .read recnum bytesWanted => some (s.io m.device (.read recnum bytesWanted) ans.io)
    | _ => some (s, .ofStatus .badArguments)
  else if m.id = 2811 then
    match m.body with
    | .getStatus flavor => some (s, s.dsDeviceGetStatus m.device flavor)
    | _ => some (s, .ofStatus .badArguments)
  else if m.id = 2814 then
    match m.body with
    | .openDevice => some (s, dsDeviceOpen m.device)
    | _ => some (s, .ofStatus .badArguments)
  else if m.id = 2817 then
    match m.body with
    | .openCap token =>
      let (kr, s', port) := s.dsDeviceOpenCap mac k m.device token ans.openCap
      some (s', { BlkReply.ofStatus kr with port })
    | _ => some (s, .ofStatus .badArguments)
  else if m.id ∈ unimplemented then some (s, .ofStatus .invalidOperation)
  else none

def ahciBatchServer (m : MachMsg) (ans : DemuxAnswers) : Option (BlkServer × BlkReply) :=
  if m.id = 2950 then
    match m.body with
    | .writeBatch args => some (s.io m.device (.writeBatch args) ans.io)
    | _ => some (s, .ofStatus .badArguments)
  else if m.id = 2951 then
    match m.body with
    | .readPhys recnum bytesWanted cnt =>
      some (s.io m.device (.readPhys recnum bytesWanted cnt) ans.io)
    | _ => some (s, .ofStatus .badArguments)
  else if m.id = 2952 then
    match m.body with
    | .writePhys recnum bytesToWrite cnt =>
      some (s.io m.device (.writePhys recnum bytesToWrite cnt) ans.io)
    | _ => some (s, .ofStatus .badArguments)
  else none

def halNotifyServer (m : MachMsg) (ans : DemuxAnswers) : Option (BlkServer × BlkReply) :=
  if m.id = 2975 then
    match m.body with
    | .halDeviceAdded => some (s.halDeviceAdded ans.probe, .ofStatus .success)
    | _ => some (s, .ofStatus .badArguments)
  else none

def capRevokeServer (m : MachMsg) : Option (BlkServer × BlkReply) :=
  if m.id = 3501 then
    match m.body with
    | .capRevokeNotify capId => some (s.blkHandlesRevokeByCapId capId, .ofStatus .success)
    | _ => some (s, .ofStatus .badArguments)
  else none

/-- Interrupts acknowledge the controller and change nothing here; what nobody
recognises is answered with `MIG_BAD_ID` by the message loop. -/
def blkDemux (m : MachMsg) (ans : DemuxAnswers) : BlkServer × BlkReply :=
  ((s.blkHandleNoSenders m).orElse fun _ =>
    (s.deviceServer mac k m ans).orElse fun _ =>
    (s.ahciBatchServer m ans).orElse fun _ =>
    (s.halNotifyServer m ans).orElse fun _ =>
    s.capRevokeServer m).getD
      (s, .ofStatus (if 3000 ≤ m.id then .success else .badId))

end BlkServer

inductive Demuxed (mac : Mac) (k : KernelCaps) (s : BlkServer) (m : MachMsg)
    (ans : DemuxAnswers) (s' : BlkServer) : Prop where
  | kept (h : s'.handles = s.handles)
  | released (hright : m.localRight = .sendOnce) (h : s' = s.removeHandle m.localPort)
  | closed (port : MachPort) (hid : m.id = 2801) (hdev : m.device = .handle port)
      (h : s' = s.removeHandle port)
  | opened (token : Bytes) (hport : MachPort) (hid : m.id = 2817)
      (hbody : m.body = .openCap token) (hans : ans.openCap.port = some hport)
      (h : Opened mac k s m.device token s' hport)
  | revoked (capId : UInt64) (hid : m.id = 3501) (hbody : m.body = .capRevokeNotify capId)
      (h : s' = s.blkHandlesRevokeByCapId capId)

variable {mac : Mac} {k : KernelCaps} {s s' : BlkServer} {m : MachMsg} {ans : DemuxAnswers}
  {reply : BlkReply}

theorem demuxed_of_noSenders (h : s.blkHandleNoSenders m = some (s', reply)) :
    Demuxed mac k s m ans s' := by
  unfold BlkServer.blkHandleNoSenders at h
  split at h
  · rename_i hbits
    simp only [Option.some.injEq, Prod.mk.injEq] at h
    exact .released hbits.2.1 h.1.symm
  · cases h

theorem demuxed_of_device (h : s.deviceServer mac k m ans = some (s', reply)) :
    Demuxed mac k s m ans s' := by
  unfold BlkServer.deviceServer at h
  split_ifs at h with hclose hwrite hread hstatus hopen hcap hstub
  · split at h
    · simp only [Option.some.injEq, Prod.mk.injEq] at h
      cases hdev : m.device with
      | handle port => exact .closed port hclose hdev (by rw [← h.1, hdev]; rfl)
      | null => exact .kept (by rw [← h.1, hdev]; rfl)
      | part p => exact .kept (by rw [← h.1, hdev]; rfl)
    · cases h
      exact .kept rfl
  · split at h <;> cases h <;> exact .kept rfl
  · split at h <;> cases h <;> exact .kept rfl
  · split at h <;> cases h <;> exact .kept rfl
  · split at h <;> cases h <;> exact .kept rfl
  · split at h
    · rename_i token hbody
      simp only [Option.some.injEq, Prod.mk.injEq] at h
      rcases @dsDeviceOpenCap_state s mac k m.device token ans.openCap with hok | hsame
      · obtain ⟨hport, hans, -, hopened⟩ := opened_of_success (Prod.ext hok rfl)
        exact .opened token hport hcap hbody hans (h.1 ▸ hopened)
      · exact .kept (by rw [← h.1, hsame])
    · cases h
      exact .kept rfl
  · cases h
    exact .kept rfl

theorem demuxed_of_batch (h : s.ahciBatchServer m ans = some (s', reply)) :
    Demuxed mac k s m ans s' := by
  unfold BlkServer.ahciBatchServer at h
  split_ifs at h
  · split at h <;> cases h <;> exact .kept rfl
  · split at h <;> cases h <;> exact .kept rfl
  · split at h <;> cases h <;> exact .kept rfl

theorem demuxed_of_hal (h : s.halNotifyServer m ans = some (s', reply)) :
    Demuxed mac k s m ans s' := by
  unfold BlkServer.halNotifyServer at h
  split_ifs at h
  split at h
  · simp only [Option.some.injEq, Prod.mk.injEq] at h
    refine .kept ?_
    rw [← h.1]
    unfold BlkServer.halDeviceAdded
    split
    · rfl
    · split <;> rfl
  · cases h
    exact .kept rfl

theorem demuxed_of_revoke (h : s.capRevokeServer m = some (s', reply)) :
    Demuxed mac k s m ans s' := by
  unfold BlkServer.capRevokeServer at h
  split_ifs at h with hid
  split at h
  · rename_i capId hbody
    simp only [Option.some.injEq, Prod.mk.injEq] at h
    exact .revoked capId hid hbody h.1.symm
  · cases h
    exact .kept rfl

theorem demuxed_of_blkDemux (h : s.blkDemux mac k m ans = (s', reply)) :
    Demuxed mac k s m ans s' := by
  unfold BlkServer.blkDemux at h
  cases h₁ : s.blkHandleNoSenders m with
  | some r =>
    rw [h₁] at h
    exact demuxed_of_noSenders (h₁.trans (congrArg some h))
  | none =>
  cases h₂ : s.deviceServer mac k m ans with
  | some r =>
    rw [h₁, h₂] at h
    exact demuxed_of_device (h₂.trans (congrArg some h))
  | none =>
  cases h₃ : s.ahciBatchServer m ans with
  | some r =>
    rw [h₁, h₂, h₃] at h
    exact demuxed_of_batch (h₃.trans (congrArg some h))
  | none =>
  cases h₄ : s.halNotifyServer m ans with
  | some r =>
    rw [h₁, h₂, h₃, h₄] at h
    exact demuxed_of_hal (h₄.trans (congrArg some h))
  | none =>
  cases h₅ : s.capRevokeServer m with
  | some r =>
    rw [h₁, h₂, h₃, h₄, h₅] at h
    exact demuxed_of_revoke (h₅.trans (congrArg some h))
  | none =>
    rw [h₁, h₂, h₃, h₄, h₅] at h
    have hs : s = s' := congrArg Prod.fst h
    exact .kept (by rw [hs])

theorem blkDemux_openCap {token : Bytes} (hright : m.localRight = .send) (hid : m.id = 2817)
    (hbody : m.body = .openCap token) :
    (s.blkDemux mac k m ans).1 =
      (s.dsDeviceOpenCap mac k m.device token ans.openCap).2.1 := by
  have hno : s.blkHandleNoSenders m = none := by
    simp [BlkServer.blkHandleNoSenders, hright]
  have hdevice : s.deviceServer mac k m ans =
      some ((s.dsDeviceOpenCap mac k m.device token ans.openCap).2.1,
        { BlkReply.ofStatus (s.dsDeviceOpenCap mac k m.device token ans.openCap).1 with
          port := (s.dsDeviceOpenCap mac k m.device token ans.openCap).2.2 }) := by
    simp [BlkServer.deviceServer, hid, hbody]
  rw [BlkServer.blkDemux, hno, hdevice]
  rfl

end Uros.Block
