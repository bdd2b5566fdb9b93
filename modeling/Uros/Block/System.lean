import Uros.Cap.Agreement
import Uros.Block.Demux

/-!
`cap_server`, the kernel's capability checks and the block device server together.

Notifications from `cap_server` to the block server wait in a queue until the
block server receives them; messages from clients and from the kernel are handled
in between, in any order.
-/

namespace Uros.Block

open Uros.Foundation Uros.Cap

structure System where
  caps : CapServer
  kernel : KernelCaps
  blk : BlkServer
  notifyPort : MachPort
  pending : List UInt64
  revokedIds : List UInt64

structure ClientMsg where
  remoteRight : RightType
  complex : Bool
  id : Int
  body : MsgBody

inductive SysEvent where
  | cap (req : CapRequest)
  | msg (port : MachPort) (m : ClientMsg) (ans : DemuxAnswers)
  /-- The kernel's notification that `port` has no senders; some receive paths put
  the payload in place of the port name. -/
  | noSenders (port : MachPort) (protectedPayload : Bool) (ans : DemuxAnswers)
  | notice (ans : DemuxAnswers)

def ClientMsg.received (m : ClientMsg) (port : MachPort) (device : Device) : MachMsg where
  remoteRight := m.remoteRight
  localRight := .send
  complex := m.complex
  protectedPayload := true
  localPort := port
  device
  id := m.id
  body := m.body

def noSendersMsg (port : MachPort) (protectedPayload : Bool) (device : Device) : MachMsg where
  remoteRight := .none
  localRight := .sendOnce
  complex := false
  protectedPayload
  localPort := port
  device
  id := 70
  body := .other

def noticeMsg (capId : UInt64) : MachMsg where
  remoteRight := .none
  localRight := .send
  complex := false
  protectedPayload := false
  localPort := machPortNull
  device := .null
  id := 3501
  body := .capRevokeNotify capId

def BlkServer.FreshPort (s : BlkServer) (port : MachPort) : Prop :=
  port ∉ s.handles.map BlkHandle.recvPort ∧ port ∉ s.partitions.map BlkPartition.recvPort

instance (s : BlkServer) (port : MachPort) : Decidable (s.FreshPort port) :=
  inferInstanceAs (Decidable (_ ∧ _))

instance (s : BlkServer) : (port : Option MachPort) → Decidable (∀ p ∈ port, s.FreshPort p)
  | none => .isTrue nofun
  | some port => decidable_of_iff (s.FreshPort port) (by simp)

namespace System

def init (key : Digest) (capPort : MachPort) (capTask : TaskId) (blk : BlkServer)
    (notifyPort : MachPort) : System where
  caps := CapServer.init key capPort
  kernel := exportedKernel capTask key
  blk
  notifyPort
  pending := []
  revokedIds := []

def revokedBy : CapRequest → CapReply → Option UInt64
  | .revoke id _, reply => if reply.status = .success then some id else none
  | _, _ => none

def capStep (mac : Mac) (sys : System) (req : CapRequest) : Option System :=
  (handle mac sys.caps req).map fun r =>
    { sys with
      caps := r.1
      pending := sys.pending ++
        (r.2.sent.filter fun n => n.port = sys.notifyPort).map Notice.capId
      revokedIds := (revokedBy req r.2).toList ++ sys.revokedIds }

def blkStep (mac : Mac) (sys : System) (m : MachMsg) (ans : DemuxAnswers) : Option System :=
  if ∀ port ∈ ans.openCap.port, sys.blk.FreshPort port then
    some { sys with blk := (sys.blk.blkDemux mac sys.kernel m ans).1 }
  else none

def step (mac : Mac) (sys : System) : SysEvent → Option System
  | .cap req => sys.capStep mac req
  | .msg port m ans =>
    (sys.blk.payload port).bind fun device => sys.blkStep mac (m.received port device) ans
  | .noSenders port pp ans =>
    (sys.blk.payload port).bind fun device => sys.blkStep mac (noSendersMsg port pp device) ans
  | .notice ans =>
    match sys.pending with
    | [] => none
    | capId :: pending => ({ sys with pending }).blkStep mac (noticeMsg capId) ans

end System

variable {mac : Mac} {sys sys' : System} {req : CapRequest} {m : MachMsg} {ans : DemuxAnswers}

theorem blkDemux_notice {capId : UInt64} {s : BlkServer} {k : KernelCaps} :
    (s.blkDemux mac k (noticeMsg capId) ans).1 = s.blkHandlesRevokeByCapId capId := rfl

theorem System.step_notice {capId : UInt64} {pending : List UInt64}
    (hpending : sys.pending = capId :: pending)
    (hfresh : ∀ p ∈ ans.openCap.port, sys.blk.FreshPort p) :
    sys.step mac (.notice ans) =
      some { sys with pending, blk := sys.blk.blkHandlesRevokeByCapId capId } := by
  simp only [System.step, hpending, System.blkStep, if_pos hfresh, blkDemux_notice]

inductive Stepped (mac : Mac) (sys : System) : SysEvent → System → Prop where
  | cap {req caps reply} (h : handle mac sys.caps req = some (caps, reply)) :
      Stepped mac sys (.cap req)
        { sys with
          caps
          pending := sys.pending ++
            (reply.sent.filter fun n => n.port = sys.notifyPort).map Notice.capId
          revokedIds := (System.revokedBy req reply).toList ++ sys.revokedIds }
  | msg {port m ans device blk} (hdev : sys.blk.payload port = some device)
      (hfresh : ∀ p ∈ ans.openCap.port, sys.blk.FreshPort p)
      (h : Demuxed mac sys.kernel sys.blk (m.received port device) ans blk) :
      Stepped mac sys (.msg port m ans) { sys with blk }
  | noSenders {port pp ans blk device}
      (hfresh : ∀ p ∈ ans.openCap.port, sys.blk.FreshPort p)
      (h : Demuxed mac sys.kernel sys.blk (noSendersMsg port pp device) ans blk) :
      Stepped mac sys (.noSenders port pp ans) { sys with blk }
  | notice {capId pending ans} (hpending : sys.pending = capId :: pending) :
      Stepped mac sys (.notice ans)
        { sys with pending, blk := sys.blk.blkHandlesRevokeByCapId capId }

theorem System.blkStep_some (h : sys.blkStep mac m ans = some sys') :
    (∀ p ∈ ans.openCap.port, sys.blk.FreshPort p) ∧
      sys' = { sys with blk := (sys.blk.blkDemux mac sys.kernel m ans).1 } := by
  unfold System.blkStep at h
  split at h
  · rename_i hfresh
    exact ⟨hfresh, (Option.some.inj h).symm⟩
  · cases h

theorem stepped_of_step {ev : SysEvent} (h : sys.step mac ev = some sys') :
    Stepped mac sys ev sys' := by
  cases ev with
  | cap req =>
    obtain ⟨⟨caps, reply⟩, hreq, rfl⟩ := Option.map_eq_some_iff.mp h
    exact .cap hreq
  | msg port m ans =>
    obtain ⟨device, hdev, hblk⟩ := Option.bind_eq_some_iff.mp h
    obtain ⟨hfresh, rfl⟩ := System.blkStep_some hblk
    exact .msg hdev hfresh (demuxed_of_blkDemux rfl)
  | noSenders port pp ans =>
    obtain ⟨device, -, hblk⟩ := Option.bind_eq_some_iff.mp h
    obtain ⟨hfresh, rfl⟩ := System.blkStep_some hblk
    exact .noSenders hfresh (demuxed_of_blkDemux rfl)
  | notice ans =>
    unfold System.step at h
    cases hpending : sys.pending with
    | nil => simp [hpending] at h
    | cons capId pending =>
      simp only [hpending] at h
      obtain ⟨-, rfl⟩ := System.blkStep_some h
      exact .notice hpending

def BlkServer.PortsDistinct (s : BlkServer) : Prop := (s.handles.map BlkHandle.recvPort).Nodup

theorem BlkServer.PortsDistinct.revoke {s : BlkServer} {capId : UInt64} (h : s.PortsDistinct) :
    (s.blkHandlesRevokeByCapId capId).PortsDistinct := by
  have hports : (s.blkHandlesRevokeByCapId capId).handles.map BlkHandle.recvPort =
      s.handles.map BlkHandle.recvPort := by
    simp only [BlkServer.blkHandlesRevokeByCapId, List.map_map]
    refine List.map_congr_left fun g _ => ?_
    simp only [Function.comp_apply]
    split <;> rfl
  rw [BlkServer.PortsDistinct, hports]
  exact h

theorem BlkServer.PortsDistinct.demuxed {s s' : BlkServer} {k : KernelCaps}
    (h : s.PortsDistinct) (hfresh : ∀ p ∈ ans.openCap.port, s.FreshPort p)
    (hm : Demuxed mac k s m ans s') : s'.PortsDistinct := by
  have hremove : ∀ port, (s.removeHandle port).PortsDistinct := fun port =>
    h.sublist (List.eraseP_sublist.map _)
  cases hm with
  | kept hkept => rw [BlkServer.PortsDistinct, hkept]; exact h
  | released _ hs => exact hs ▸ hremove _
  | closed port _ _ hs => exact hs ▸ hremove _
  | opened token hport _ _ hans hopen =>
    obtain ⟨p, -, -, hs⟩ := hopen.part
    rw [BlkServer.PortsDistinct, hs]
    exact List.nodup_cons.mpr ⟨(hfresh hport hans).1, h⟩
  | revoked capId _ _ hs => exact hs ▸ h.revoke

theorem PortsDistinct.stepped {ev : SysEvent} (h : sys.blk.PortsDistinct)
    (hstep : Stepped mac sys ev sys') : sys'.blk.PortsDistinct := by
  cases hstep with
  | cap _ => exact h
  | msg _ hfresh hm => exact h.demuxed hfresh hm
  | noSenders hfresh hm => exact h.demuxed hfresh hm
  | notice _ => exact h.revoke

structure System.Sound (sys : System) : Prop where
  valid : Valid sys.caps
  ports : sys.blk.PortsDistinct

theorem System.Sound.init (key : Digest) (capPort : MachPort) (capTask : TaskId)
    (nControllers : Nat) (partitions : List BlkPartition) (notifyPort : MachPort) :
    (System.init key capPort capTask (.init nControllers partitions) notifyPort).Sound where
  valid := Valid.init key capPort
  ports := List.nodup_nil

theorem System.Sound.stepped {ev : SysEvent} (h : sys.Sound)
    (hstep : Stepped mac sys ev sys') : sys'.Sound := by
  refine ⟨?_, PortsDistinct.stepped h.ports hstep⟩
  cases hstep with
  | cap hreq => exact h.valid.served (served_of_serve (by rw [serve, hreq]; rfl))
  | msg _ _ _ => exact h.valid
  | noSenders _ _ => exact h.valid
  | notice _ => exact h.valid

theorem handleOf_of_mem {s : BlkServer} {h : BlkHandle} (hports : s.PortsDistinct)
    (hmem : h ∈ s.handles) : s.handleOf (.handle h.recvPort) = some h := by
  cases hfind : s.handles.find? (fun g => g.recvPort = h.recvPort) with
  | none =>
    have := List.find?_eq_none.mp hfind h hmem
    simp at this
  | some g =>
    have hport : g.recvPort = h.recvPort := by simpa using List.find?_some hfind
    have hgh : g = h :=
      List.inj_on_of_nodup_map hports (List.mem_of_find?_eq_some hfind) hmem hport
    exact hfind.trans (congrArg some hgh)

end Uros.Block
