import Uros.Cap.Sha256

/-!
Capability tokens (`uapi/mach/cap_types.h`).

`UrosCap` is `struct uros_cap` with every field, padding included, because all
bytes before `hmac` are signed.  `encode` is its i386 layout of 188 bytes.
-/

namespace Uros.Cap

open Uros.Foundation

inductive CapReturn where
  | success
  | unauthorized
  | policyDenied
  | invalidToken
  | revoked
  | exhausted
  | notDelegable
  | depthExceeded
  | opNotAllowed
  | resourceMismatch
  | noMemory
  | internal
  | notInManifest
  | manifestInvalid
  | noManifestSlot
  deriving DecidableEq, Repr

structure UrosCap where
  capId : UInt64
  resourceType : UInt32
  pad0 : UInt32
  resourceId : UInt64
  allowedOps : UInt64
  owner : UInt32
  ownerName : Vector UInt8 64
  parentCapId : UInt64
  depth : UInt8
  delegable : UInt8
  pad1 : Vector UInt8 6
  expires : UInt64
  maxUses : UInt32
  currentUses : UInt32
  revoked : UInt8
  isGeneric : UInt8
  pad2 : Vector UInt8 6
  firstChildCapId : UInt64
  nextSiblingCapId : UInt64
  hmac : Digest
  deriving DecidableEq

def capMaxDepth : Nat := 16

def capTokenSize : Nat := 188

def resourceBlkDevice : UInt32 := 4

def capOpBlkRead : UInt64 := 1

def capOpBlkWrite : UInt64 := 2

def capNameHash (name : Bytes) : UInt64 :=
  name.foldl (fun h c => (h ^^^ c.toUInt64) * 0x100000001b3) 0xcbf29ce484222325

namespace UrosCap

def zero : UrosCap where
  capId := 0
  resourceType := 0
  pad0 := 0
  resourceId := 0
  allowedOps := 0
  owner := 0
  ownerName := Vector.replicate 64 0
  parentCapId := 0
  depth := 0
  delegable := 0
  pad1 := Vector.replicate 6 0
  expires := 0
  maxUses := 0
  currentUses := 0
  revoked := 0
  isGeneric := 0
  pad2 := Vector.replicate 6 0
  firstChildCapId := 0
  nextSiblingCapId := 0
  hmac := Vector.replicate 32 0

def signedBytes (t : UrosCap) : Bytes :=
  u64Bytes t.capId ++ (u32Bytes t.resourceType ++ (u32Bytes t.pad0 ++
  (u64Bytes t.resourceId ++ (u64Bytes t.allowedOps ++ (u32Bytes t.owner ++
  (t.ownerName.toList ++ (u64Bytes t.parentCapId ++ (t.depth :: t.delegable ::
  (t.pad1.toList ++ (u64Bytes t.expires ++ (u32Bytes t.maxUses ++
  (u32Bytes t.currentUses ++ (t.revoked :: t.isGeneric :: (t.pad2.toList ++
  (u64Bytes t.firstChildCapId ++ u64Bytes t.nextSiblingCapId)))))))))))))))

def encode (t : UrosCap) : Bytes := t.signedBytes ++ t.hmac.toList

def decode (bytes : Bytes) : UrosCap :=
  let ⟨capId, bytes⟩ := takeU64 bytes
  let ⟨resourceType, bytes⟩ := takeU32 bytes
  let ⟨pad0, bytes⟩ := takeU32 bytes
  let ⟨resourceId, bytes⟩ := takeU64 bytes
  let ⟨allowedOps, bytes⟩ := takeU64 bytes
  let ⟨owner, bytes⟩ := takeU32 bytes
  let ⟨ownerName, bytes⟩ := takeArray 64 bytes
  let ⟨parentCapId, bytes⟩ := takeU64 bytes
  let ⟨depth, bytes⟩ := takeU8 bytes
  let ⟨delegable, bytes⟩ := takeU8 bytes
  let ⟨pad1, bytes⟩ := takeArray 6 bytes
  let ⟨expires, bytes⟩ := takeU64 bytes
  let ⟨maxUses, bytes⟩ := takeU32 bytes
  let ⟨currentUses, bytes⟩ := takeU32 bytes
  let ⟨revoked, bytes⟩ := takeU8 bytes
  let ⟨isGeneric, bytes⟩ := takeU8 bytes
  let ⟨pad2, bytes⟩ := takeArray 6 bytes
  let ⟨firstChildCapId, bytes⟩ := takeU64 bytes
  let ⟨nextSiblingCapId, bytes⟩ := takeU64 bytes
  let ⟨hmac, _⟩ := takeArray 32 bytes
  { capId, resourceType, pad0, resourceId, allowedOps, owner, ownerName, parentCapId,
    depth, delegable, pad1, expires, maxUses, currentUses, revoked, isGeneric, pad2,
    firstChildCapId, nextSiblingCapId, hmac }

@[simp] theorem length_encode (t : UrosCap) : t.encode.length = capTokenSize := by
  simp [encode, signedBytes, capTokenSize]

theorem decode_encode_append (t : UrosCap) (rest : Bytes) :
    decode (t.encode ++ rest) = t := by
  have hhmac : takeArray 32 (t.hmac.toList ++ rest) = (t.hmac, rest) :=
    takeArray_append t.hmac rest
  simp [decode, encode, signedBytes, List.append_assoc, hhmac]

@[simp] theorem decode_encode (t : UrosCap) : decode t.encode = t := by
  simpa using t.decode_encode_append []

theorem eq_of_signedBytes {t u : UrosCap} (h : t.signedBytes = u.signedBytes) :
    t = { u with hmac := t.hmac } := by
  have hu : ({ u with hmac := t.hmac } : UrosCap).encode = t.encode := by
    simp only [encode, h]
    rfl
  rw [← decode_encode t, ← hu, decode_encode]

end UrosCap

end Uros.Cap
