import Uros.Foundation.ChainTable
import Uros.Cap.Table

/-!
The kernel side of capabilities (`mach_kernel/kern/cap.c`).

All state is guarded by `cap_lock`.  `cap_state_get_or_create` drops the lock for
`kalloc`, so the traps that create entries are given as the two sections between
the lock operations: `…Enter` up to the allocation, `…Resume` after it.
-/

namespace Uros.Cap

open Uros.Foundation

structure CapStateEntry where
  capId : UInt64
  revoked : Bool
  consumed : Bool
  usesLeft : UInt32
  deriving DecidableEq, Repr

abbrev TaskId := Nat

structure KernelCaps where
  table : ChainTable CapStateEntry 256
  hmacKey : Digest
  keySet : Bool
  capServerTask : Option TaskId

def capInit : KernelCaps where
  table := ChainTable.empty
  hmacKey := Vector.replicate 32 0
  keySet := false
  capServerTask := none

def capBucket (capId : UInt64) : Fin 256 :=
  let x := capId ^^^ (capId >>> 33)
  let x := x * 0xff51afd7ed558ccd
  let x := x ^^^ (x >>> 33)
  Fin.ofNat 256 x.toNat

def capStateLookup (k : KernelCaps) (capId : UInt64) : Option CapStateEntry :=
  k.table.find CapStateEntry.capId capBucket capId

def capStateInsert (k : KernelCaps) (capId : UInt64) : KernelCaps :=
  { k with
    table := k.table.insert CapStateEntry.capId capBucket ⟨capId, false, false, 0⟩ }

def capStateUpdate (k : KernelCaps) (capId : UInt64)
    (f : CapStateEntry → CapStateEntry) : KernelCaps :=
  { k with table := k.table.modify CapStateEntry.capId capBucket capId f }

def capCopyinToken (userToken : Bytes) : Option UrosCap :=
  if userToken.length < capTokenSize then none else some (UrosCap.decode userToken)

section Traps

variable (mac : Mac)

def capHmacCheck (k : KernelCaps) (t : UrosCap) : Bool :=
  hmacSha256Equal (mac k.hmacKey.toList t.signedBytes) t.hmac

def capCheckLocked (k : KernelCaps) (t : UrosCap) (op : UInt32) (resourceId : UInt64) :
    CapReturn :=
  if !k.keySet then .internal
  else if !capHmacCheck mac k t then .invalidToken
  else if t.resourceId ≠ resourceId then .resourceMismatch
  else if t.allowedOps &&& op.toUInt64 ≠ op.toUInt64 then .opNotAllowed
  else if t.revoked ≠ 0 then .revoked
  else if (capStateLookup k t.capId).any CapStateEntry.revoked then .revoked
  else .success

def urmachCapVerify (k : KernelCaps) (userToken : Bytes) (op : UInt32)
    (resourceId : UInt64) : CapReturn :=
  match capCopyinToken userToken with
  | none => .invalidToken
  | some t => capCheckLocked mac k t op resourceId

def urmachCapRegister (k : KernelCaps) (caller : TaskId) (userToken : Bytes) :
    CapReturn × KernelCaps :=
  match capCopyinToken userToken with
  | none => (.invalidToken, k)
  | some t =>
    if t.capId = 0 then
      if k.keySet ∧ k.capServerTask ≠ some caller then (.unauthorized, k)
      else
        (.success,
          { k with hmacKey := t.hmac, keySet := true, capServerTask := some caller })
    else if !k.keySet ∨ k.capServerTask ≠ some caller then (.unauthorized, k)
    else (.success, k)

inductive Section where
  | returned (kr : CapReturn) (k : KernelCaps)
  | allocating

def capConsume (k : KernelCaps) (t : UrosCap) (e : CapStateEntry) :
    CapReturn × KernelCaps :=
  if e.revoked then (.revoked, k)
  else
    let left := if e.consumed then e.usesLeft else t.maxUses
    if left = 0 then
      (.exhausted, capStateUpdate k t.capId fun e =>
        { e with consumed := true, usesLeft := left })
    else
      (.success, capStateUpdate k t.capId fun e =>
        { e with consumed := true, usesLeft := left - 1 })

def capUseEnter (k : KernelCaps) (t : UrosCap) (op : UInt32) (resourceId : UInt64) :
    Section :=
  match capCheckLocked mac k t op resourceId with
  | .success =>
    if t.maxUses = 0 then .returned .success k
    else
      match capStateLookup k t.capId with
      | some e =>
        let r := capConsume k t e
        .returned r.1 r.2
      | none => .allocating
  | kr => .returned kr k

def capGetOrCreateResume (k : KernelCaps) (capId : UInt64) (mem : Bool) :
    Option (KernelCaps × CapStateEntry) :=
  if !mem then none
  else
    match capStateLookup k capId with
    | some race => some (k, race)
    | none => some (capStateInsert k capId, ⟨capId, false, false, 0⟩)

def capUseResume (k : KernelCaps) (t : UrosCap) (mem : Bool) : CapReturn × KernelCaps :=
  match capGetOrCreateResume k t.capId mem with
  | none => (.noMemory, k)
  | some (k, e) => capConsume k t e

def setRevoked (e : CapStateEntry) : CapStateEntry := { e with revoked := true }

def capRevokeEnter (k : KernelCaps) (caller : TaskId) (capId : UInt64) : Section :=
  if !k.keySet ∨ k.capServerTask ≠ some caller then .returned .unauthorized k
  else
    match capStateLookup k capId with
    | some _ => .returned .success (capStateUpdate k capId setRevoked)
    | none => .allocating

def capRevokeResume (k : KernelCaps) (capId : UInt64) (mem : Bool) :
    CapReturn × KernelCaps :=
  match capGetOrCreateResume k capId mem with
  | none => (.noMemory, k)
  | some (k, _) => (.success, capStateUpdate k capId setRevoked)

end Traps

variable {k : KernelCaps} {id id' : UInt64}

theorem lookup_capStateInsert :
    capStateLookup (capStateInsert k id) id' =
      if id = id' then some ⟨id, false, false, 0⟩ else capStateLookup k id' :=
  ChainTable.find_insert

theorem lookup_capStateUpdate {f : CapStateEntry → CapStateEntry}
    (hf : ∀ e, (f e).capId = e.capId) :
    capStateLookup (capStateUpdate k id f) id' =
      if id' = id then (capStateLookup k id).map f else capStateLookup k id' :=
  ChainTable.find_modify hf

def RevokedIn (k : KernelCaps) (id : UInt64) : Prop :=
  (capStateLookup k id).any CapStateEntry.revoked = true

structure CheckPasses (mac : Mac) (k : KernelCaps) (t : UrosCap) (op : UInt32)
    (resourceId : UInt64) : Prop where
  keySet : k.keySet = true
  hmac : capHmacCheck mac k t = true
  resourceId : t.resourceId = resourceId
  allowedOps : t.allowedOps &&& op.toUInt64 = op.toUInt64
  revoked : t.revoked = 0
  not_revoked : ¬RevokedIn k t.capId

theorem capCheckLocked_iff {mac : Mac} {t : UrosCap} {op : UInt32} {resourceId : UInt64} :
    capCheckLocked mac k t op resourceId = .success ↔
      CheckPasses mac k t op resourceId := by
  unfold capCheckLocked
  constructor
  · intro h
    split_ifs at h with h₁ h₂ h₃ h₄ h₅ h₆
    exact ⟨by simpa using h₁, by simpa using h₂, by simpa using h₃, by simpa using h₄,
      by simpa using h₅, h₆⟩
  · rintro ⟨h₁, h₂, h₃, h₄, h₅, h₆⟩
    simp [h₁, h₂, h₃, h₄, h₅, show ¬(capStateLookup k t.capId).any _ = true from h₆]

end Uros.Cap
