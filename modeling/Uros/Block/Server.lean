import Uros.Cap.Kernel
import Uros.Cap.Manifest

/-!
The block device server (`block_device_server/block_device.c`): partitions, the
list of open handles, and the routines that open, close and revoke handles.

A message arrives with the protected payload of the port it was sent to, a
pointer to a partition or to a handle; `Device` is that pointer.  A handle owns
its receive port, so the port name stands for the handle's address.
-/

namespace Uros.Block

open Uros.Foundation Uros.Cap

inductive IoReturn where
  | success
  | noAccess
  | resourceShortage
  | portAllocation
  | noSuchDevice
  | invalidOperation
  | invalidSize
  | noMemory
  | ioError
  | badId
  | badArguments
  deriving DecidableEq, Repr

def sectorSize : UInt32 := 512

structure BlkDiskInfo where
  maxTransferBytes : UInt32
  aligned : 512 ∣ maxTransferBytes.toNat

instance controllerDisks_neZero : NeZero 4 := ⟨by decide⟩

structure BlkController where
  disks : Fin 4 → BlkDiskInfo
  readSectorsPhys : Bool
  writeSectorsPhys : Bool
  writeBatch : Bool

/-- An entry of `partitions[]`; `index` is its position there, which is what a
comparison of two pointers compares. -/
structure BlkPartition where
  index : Nat
  ctrl : BlkController
  diskIndex : Fin 4
  startLba : UInt32
  numSectors : UInt32
  recvPort : MachPort
  name : Bytes
  stableName : Bytes

structure BlkHandle where
  part : BlkPartition
  recvPort : MachPort
  capId : UInt64
  revoked : Bool

structure RaCache where
  lbaStart : UInt32
  lbaCount : UInt32
  buf : Bool
  part : Option Nat
  deriving DecidableEq

structure BlkServer where
  nControllers : Nat
  partitions : List BlkPartition
  handles : List BlkHandle
  ra : RaCache

def BlkServer.init (nControllers : Nat) (partitions : List BlkPartition) : BlkServer where
  nControllers
  partitions
  handles := []
  ra := ⟨0, 0, false, none⟩

inductive Device where
  | null
  | part (p : BlkPartition)
  | handle (port : MachPort)

def capAdmits (mac : Mac) (k : KernelCaps) (part : BlkPartition) (token : Bytes) : Bool :=
  let op : UInt32 := (capOpBlkRead ||| capOpBlkWrite).toUInt32
  urmachCapVerify mac k token op (capNameHash part.name) = .success ||
    (part.stableName ≠ [] &&
      urmachCapVerify mac k token op (capNameHash part.stableName) = .success)

namespace BlkServer

variable (s : BlkServer)

def payload (port : MachPort) : Option Device :=
  if s.handles.any (·.recvPort = port) then some (.handle port)
  else (s.partitions.find? (·.recvPort = port)).map .part

def handleOf : Device → Option BlkHandle
  | .handle port => s.handles.find? (·.recvPort = port)
  | _ => none

def blkPartFromAuthedHandle (device : Device) : Option BlkPartition :=
  match s.handleOf device with
  | none => none
  | some h => if h.revoked then none else some h.part

def blkHandlesRevokeByCapId (capId : UInt64) : BlkServer :=
  { s with handles := s.handles.map fun h =>
      if h.capId = capId ∧ !h.revoked then { h with revoked := true } else h }

def removeHandle (port : MachPort) : BlkServer :=
  { s with handles := s.handles.eraseP (·.recvPort = port) }

def dsDeviceClose : Device → BlkServer
  | .handle port => s.removeHandle port
  | _ => s

structure OpenAnswers where
  mem : Bool
  port : Option MachPort

def dsDeviceOpenCap (mac : Mac) (k : KernelCaps) (device : Device) (token : Bytes)
    (ans : OpenAnswers) : IoReturn × BlkServer × Option MachPort :=
  match device with
  | .part part =>
    if token.length ≠ capTokenSize then (.noAccess, s, none)
    else if !capAdmits mac k part token then (.noAccess, s, none)
    else if !ans.mem then (.resourceShortage, s, none)
    else
      match ans.port with
      | none => (.portAllocation, s, none)
      | some hport =>
        let h : BlkHandle :=
          { part
            recvPort := hport
            capId := (UrosCap.decode token).capId
            revoked := false }
        (.success, { s with handles := h :: s.handles }, some hport)
  | _ => (.noSuchDevice, s, none)

end BlkServer

variable {s : BlkServer} {mac : Mac} {k : KernelCaps} {device : Device} {token : Bytes}
  {ans : BlkServer.OpenAnswers} {h : BlkHandle} {port hport : MachPort} {id : UInt64}

theorem blkPartFromAuthedHandle_iff {part : BlkPartition} :
    s.blkPartFromAuthedHandle device = some part ↔
      ∃ h, s.handleOf device = some h ∧ h.revoked = false ∧ h.part = part := by
  unfold BlkServer.blkPartFromAuthedHandle
  cases s.handleOf device with
  | none => simp
  | some h => cases hr : h.revoked <;> simp [hr]

theorem mem_blkHandlesRevokeByCapId :
    h ∈ (s.blkHandlesRevokeByCapId id).handles ↔
      (h ∈ s.handles ∧ ¬(h.capId = id ∧ h.revoked = false)) ∨
        ∃ g ∈ s.handles, g.capId = id ∧ g.revoked = false ∧ { g with revoked := true } = h := by
  simp only [BlkServer.blkHandlesRevokeByCapId, List.mem_map]
  constructor
  · rintro ⟨g, hg, rfl⟩
    by_cases hc : g.capId = id ∧ g.revoked = false
    · refine .inr ⟨g, hg, hc.1, hc.2, ?_⟩
      simp [hc.1, hc.2]
    · refine .inl ?_
      rw [if_neg (by simpa using hc)]
      exact ⟨hg, hc⟩
  · rintro (⟨hh, hc⟩ | ⟨g, hg, hid, hrev, rfl⟩)
    · exact ⟨h, hh, if_neg (by simpa using hc)⟩
    · exact ⟨g, hg, if_pos (by simp [hid, hrev])⟩

theorem mem_revokeByCapId_of_ne (hmem : h ∈ s.handles) (hid : h.capId ≠ id) :
    h ∈ (s.blkHandlesRevokeByCapId id).handles :=
  mem_blkHandlesRevokeByCapId.mpr (.inl ⟨hmem, fun hc => hid hc.1⟩)

theorem mem_removeHandle_of_ne (hmem : h ∈ s.handles) (hport : h.recvPort ≠ port) :
    h ∈ (s.removeHandle port).handles :=
  (List.mem_eraseP_of_neg (by simpa using hport)).mpr hmem

theorem mem_of_removeHandle (hmem : h ∈ (s.removeHandle port).handles) : h ∈ s.handles :=
  List.mem_of_mem_eraseP hmem

structure Opened (mac : Mac) (k : KernelCaps) (s : BlkServer) (device : Device)
    (token : Bytes) (s' : BlkServer) (hport : MachPort) : Prop where
  part : ∃ p, device = .part p ∧ capAdmits mac k p token = true ∧
    s' = { s with handles := ⟨p, hport, (UrosCap.decode token).capId, false⟩ :: s.handles }
  length : token.length = capTokenSize

theorem opened_of_success {s' : BlkServer} {out : Option MachPort}
    (h : s.dsDeviceOpenCap mac k device token ans = (.success, s', out)) :
    ∃ hport, ans.port = some hport ∧ out = some hport ∧ Opened mac k s device token s' hport := by
  unfold BlkServer.dsDeviceOpenCap at h
  cases device with
  | null => simp at h
  | handle port => simp at h
  | part p =>
    dsimp only at h
    split_ifs at h with hlen hadmits hmem
    · simp at h
    · simp at h
    · simp at h
    · cases hp : ans.port with
      | none => simp [hp] at h
      | some hport =>
        simp only [hp, Prod.mk.injEq, true_and] at h
        obtain ⟨rfl, rfl⟩ := h
        exact ⟨hport, rfl, rfl, ⟨p, rfl, by simpa using hadmits, rfl⟩, by simpa using hlen⟩

theorem dsDeviceOpenCap_state :
    (s.dsDeviceOpenCap mac k device token ans).1 = .success ∨
      (s.dsDeviceOpenCap mac k device token ans).2.1 = s := by
  unfold BlkServer.dsDeviceOpenCap
  cases device with
  | null => exact .inr rfl
  | handle port => exact .inr rfl
  | part p =>
    dsimp only
    split_ifs
    · exact .inr rfl
    · exact .inr rfl
    · exact .inr rfl
    · cases ans.port with
      | none => exact .inr rfl
      | some hport => exact .inl rfl

def smallDisk : BlkDiskInfo := ⟨65536, by decide⟩

def smallPartition : BlkPartition where
  index := 0
  ctrl := ⟨fun _ => smallDisk, false, false, false⟩
  diskIndex := 0
  startLba := 2048
  numSectors := 1000
  recvPort := 10
  name := [97]
  stableName := []

def smallServer : BlkServer :=
  { BlkServer.init 1 [smallPartition] with handles := [⟨smallPartition, 11, 1, false⟩] }

end Uros.Block
