import Uros.Cap.Attenuation
import Uros.Cap.Kernel

/-!
The two verifiers: `cap_verify` of the server and `urmach_cap_verify` of the
kernel, which holds the key that the server exported at start-up.

Both make the same checks on the token itself (`Grants`).  The server also
consults its own table; the kernel consults its list of revoked ids, to which the
server never writes.
-/

namespace Uros.Cap

open Uros.Foundation

variable {mac : Mac} {key : Digest} {s s' : CapServer} {k : KernelCaps} {t : UrosCap}
  {req : CapRequest} {capPort : MachPort} {caller : TaskId}

def setupToken (key : Digest) : UrosCap := { UrosCap.zero with hmac := key }

def capKeyExportToKernel (k : KernelCaps) (caller : TaskId) (key : Digest) :
    CapReturn × KernelCaps :=
  urmachCapRegister k caller (setupToken key).encode

def exportedKernel (caller : TaskId) (key : Digest) : KernelCaps :=
  (capKeyExportToKernel capInit caller key).2

theorem exportedKernel_eq (caller : TaskId) (key : Digest) :
    exportedKernel caller key =
      { capInit with hmacKey := key, keySet := true, capServerTask := some caller } := by
  have hlen : ¬(setupToken key).encode.length < capTokenSize := by simp
  simp only [exportedKernel, capKeyExportToKernel, urmachCapRegister, capCopyinToken, if_neg hlen,
    UrosCap.decode_encode]
  rfl

theorem not_revokedIn_exportedKernel {id : UInt64} :
    ¬RevokedIn (exportedKernel caller key) id := by
  rw [exportedKernel_eq]
  simp [RevokedIn, capStateLookup, capInit]

theorem Served.key_eq (hreq : Served mac s req s') (hvalid : Valid s) : s'.key = s.key := by
  obtain ⟨F, hF⟩ := hvalid.forest
  cases hreq with
  | acquired ha => rw [ha.state]; rfl
  | derived hd => rw [hd.state]; rfl
  | revoked hrev =>
    obtain ⟨K, -, rfl, -⟩ := hF.of_capRevoke hrev
    rfl
  | _ => rfl

theorem key_of_run {reqs : List CapRequest}
    (hrun : runSteps (serve mac) (CapServer.init key capPort) reqs = some s) : s.key = key := by
  have hstep : ∀ s req s', (Valid s ∧ s.key = key) → serve mac s req = some s' →
      Valid s' ∧ s'.key = key := by
    rintro s req s' ⟨hvalid, hkey⟩ hreq
    have hserved := served_of_serve hreq
    exact ⟨hvalid.served hserved, (hserved.key_eq hvalid).trans hkey⟩
  exact (runSteps_invariant hstep ⟨Valid.init key capPort, rfl⟩ hrun).2

structure UrosCap.Grants (mac : Mac) (key : Digest) (t : UrosCap) (op resourceId : UInt64) :
    Prop where
  hmac : capVerifyHmac mac key t = true
  revoked : t.revoked = 0
  resource : t.resourceId = resourceId
  ops : op &&& ~~~t.allowedOps = 0

theorem capVerify_iff {tokenBuf : Bytes} {op resourceId : UInt64} :
    capVerify mac s tokenBuf op resourceId = .success ↔
      tokenBuf.length = capTokenSize ∧
        (UrosCap.decode tokenBuf).Grants mac s.key op resourceId ∧
        ¬s.Revoked (UrosCap.decode tokenBuf).capId := by
  rw [CapServer.revoked_iff, CapServer.isRevoked]
  unfold capVerify
  generalize UrosCap.decode tokenBuf = t
  constructor
  · intro h
    dsimp only at h
    split_ifs at h with hlen hhmac hrev hres hops hlive
    exact ⟨by simpa using hlen, ⟨by simpa using hhmac, by simpa using hrev, by simpa using hres,
      by simpa using hops⟩, hlive⟩
  · rintro ⟨hlen, ⟨hhmac, hrev, hres, hops⟩, hlive⟩
    have hlive : (s.find t.capId).any (fun live => live.revoked ≠ 0) = false := by
      simpa using hlive
    simp only [hlen, hhmac, hrev, hres, hops, hlive, ne_eq, not_true_eq_false, Bool.not_true,
      Bool.false_eq_true, if_false]

theorem and_eq_self_iff {ops op : UInt64} : ops &&& op = op ↔ op &&& ~~~ops = 0 := by
  rw [and_not_eq_zero_iff, ← UInt64.toBitVec_inj]
  constructor
  · intro h i hi hop
    rw [← h] at hop
    simp only [UInt64.toBitVec_and, BitVec.getLsbD_and, Bool.and_eq_true] at hop
    exact hop.1
  · intro h
    apply BitVec.eq_of_getLsbD_eq
    intro i hi
    have := h i hi
    cases hop : op.toBitVec.getLsbD i <;> simp_all

theorem urmachCapVerify_iff {tokenBuf : Bytes} {op : UInt32} {resourceId : UInt64}
    (hkey : k.keySet = true) :
    urmachCapVerify mac k tokenBuf op resourceId = .success ↔
      capTokenSize ≤ tokenBuf.length ∧
        (UrosCap.decode tokenBuf).Grants mac k.hmacKey op.toUInt64 resourceId ∧
        ¬RevokedIn k (UrosCap.decode tokenBuf).capId := by
  unfold urmachCapVerify capCopyinToken
  by_cases hlen : tokenBuf.length < capTokenSize
  · simp only [if_pos hlen]
    exact iff_of_false nofun fun h => absurd h.1 (Nat.not_le.mpr hlen)
  · simp only [if_neg hlen, capCheckLocked_iff]
    generalize UrosCap.decode tokenBuf = t
    constructor
    · rintro ⟨-, hhmac, hres, hops, hrev, hnot⟩
      exact ⟨Nat.le_of_not_lt hlen, ⟨hhmac, hrev, hres, and_eq_self_iff.mp hops⟩, hnot⟩
    · rintro ⟨-, ⟨hhmac, hrev, hres, hops⟩, hnot⟩
      exact ⟨hkey, hhmac, hres, and_eq_self_iff.mpr hops, hrev, hnot⟩

theorem verifiers_agree_iff {tokenBuf : Bytes} {op : UInt32} {resourceId : UInt64}
    (hset : k.keySet = true) (hkey : k.hmacKey = s.key) (hclean : ∀ id, ¬RevokedIn k id) :
    (capVerify mac s tokenBuf op.toUInt64 resourceId = .success ↔
        urmachCapVerify mac k tokenBuf op resourceId = .success) ↔
      (capTokenSize ≤ tokenBuf.length →
        (UrosCap.decode tokenBuf).Grants mac s.key op.toUInt64 resourceId →
        tokenBuf.length = capTokenSize ∧ ¬s.Revoked (UrosCap.decode tokenBuf).capId) := by
  rw [capVerify_iff, urmachCapVerify_iff hset, hkey]
  constructor
  · intro h hlen hgrants
    obtain ⟨hexact, -, hlive⟩ := h.mpr ⟨hlen, hgrants, hclean _⟩
    exact ⟨hexact, hlive⟩
  · intro h
    constructor
    · rintro ⟨hlen, hgrants, -⟩
      exact ⟨Nat.le_of_eq hlen.symm, hgrants, hclean _⟩
    · rintro ⟨hlen, hgrants, -⟩
      obtain ⟨hexact, hlive⟩ := h hlen hgrants
      exact ⟨hexact, hgrants, hlive⟩

theorem revoke_only_token (mac : Mac) (hF : Delegates s (.cons 1 .nil .nil))
    (hfresh : ¬s.Revoked 1) :
    ∃ s' sent, capRevoke mac (fun _ => true) s 1 = some (.success, s', sent) ∧ s'.Revoked 1 ∧
      ∀ p, s.subscribers = [p] → sent = [⟨p, 1⟩] := by
  have hK : (Forest.cons (1 : UInt64) .nil .nil).kidsOf 1 = some .nil := rfl
  have hmarked : s.cascadeMarked 1 .nil = [1] := by
    rw [CapServer.revoked_iff] at hfresh
    simp [CapServer.cascadeMarked, Forest.visit, hfresh]
  refine ⟨_, _, hF.capRevoke_eq hK, ?_, ?_⟩
  · rw [hF.revoked_cascadeResult_iff hK, hmarked]
    simp
  · intro p hp
    rw [CapServer.cascadeFanout, hmarked, hp]
    rfl

theorem acquire_first (mac : Mac) (key : Digest) (capPort : MachPort) (type : UInt32)
    (resourceId ops : UInt64) :
    ∃ s, handle mac (CapServer.init key capPort) (.acquire 0 type resourceId ops true) =
        some (s, ⟨.success, some (capSign mac key (rootToken 1 type resourceId ops)),
          none, []⟩) ∧
      Delegates s (.cons 1 .nil .nil) ∧ ¬s.Revoked 1 ∧ s.subscribers = [] := by
  obtain ⟨s, t, hok, ha⟩ := @capAcquire_ok mac (CapServer.init key capPort) 0 type resourceId
    ops rfl (show 0 + capEntrySize ≤ 2 ^ 32 by decide)
  have htoken : t = capSign mac key (rootToken 1 type resourceId ops) := ha.token
  refine ⟨s, by simp [handle, hok, issueReply, htoken],
    (Delegates.init key capPort).acquire ha, ?_, by rw [ha.state]; rfl⟩
  rintro ⟨e, he, hrev⟩
  have hfind : s.find 1 = some t := (ha.find 1).trans (if_pos rfl)
  rw [← Option.some.inj (hfind.symm.trans he), htoken] at hrev
  exact hrev rfl

theorem grants_rootToken {id op resourceId ops : UInt64} {type : UInt32}
    (hops : op &&& ~~~ops = 0) :
    (capSign mac key (rootToken id type resourceId ops)).Grants mac key op resourceId where
  hmac := capVerifyHmac_capSign
  revoked := rfl
  resource := rfl
  ops := hops

theorem verifiers_differ (mac : Mac) (key : Digest) (capPort : MachPort) (caller : TaskId)
    (type op : UInt32) (resourceId : UInt64) :
    ∃ s, runSteps (serve mac) (CapServer.init key capPort)
        [.acquire 0 type resourceId op.toUInt64 true, .revoke 1 fun _ => true] = some s ∧
      capVerify mac s (capSign mac key (rootToken 1 type resourceId op.toUInt64)).encode
        op.toUInt64 resourceId ≠ .success ∧
      urmachCapVerify mac (exportedKernel caller key)
        (capSign mac key (rootToken 1 type resourceId op.toUInt64)).encode op resourceId =
          .success := by
  obtain ⟨s₁, hacquire, hF, hfresh, -⟩ := acquire_first mac key capPort type resourceId
    op.toUInt64
  obtain ⟨s, sent, hrevoke, hrevoked, -⟩ := revoke_only_token mac hF hfresh
  have hstep₁ : serve mac (CapServer.init key capPort)
      (.acquire 0 type resourceId op.toUInt64 true) = some s₁ := by
    rw [serve, hacquire]
    rfl
  have hstep₂ : serve mac s₁ (.revoke 1 fun _ => true) = some s := by
    rw [serve, handle, hrevoke]
    rfl
  refine ⟨s, runSteps_cons.mpr ⟨s₁, hstep₁, runSteps_cons.mpr ⟨s, hstep₂, rfl⟩⟩, ?_, ?_⟩
  · rw [Ne, capVerify_iff, UrosCap.decode_encode]
    exact fun h => h.2.2 hrevoked
  · rw [urmachCapVerify_iff (by rw [exportedKernel_eq]), UrosCap.decode_encode, exportedKernel_eq]
    refine ⟨by simp, grants_rootToken (and_not_self _), ?_⟩
    rw [← exportedKernel_eq caller key]
    exact not_revokedIn_exportedKernel

/-- The server revokes the token it issued and rejects it; the kernel does not. -/
theorem urmachCapVerify_accepts_revoked :
    ∃ s, runSteps (serve portableHmac) (CapServer.init (Vector.replicate 32 0) 1)
        [.acquire 0 resourceBlkDevice 7 1 true, .revoke 1 fun _ => true] = some s ∧
      capVerify portableHmac s
        (capSign portableHmac (Vector.replicate 32 0) (rootToken 1 resourceBlkDevice 7 1)).encode
        1 7 ≠ .success ∧
      urmachCapVerify portableHmac (exportedKernel 0 (Vector.replicate 32 0))
        (capSign portableHmac (Vector.replicate 32 0) (rootToken 1 resourceBlkDevice 7 1)).encode
        1 7 = .success :=
  verifiers_differ portableHmac (Vector.replicate 32 0) 1 0 resourceBlkDevice 1 7

/-- In every reachable state, for every buffer, operation mask and resource. -/
theorem capVerify_agrees_iff (compress : Compress)
    (hcompress : ∀ state block, compress state block = sha256CompressC state block)
    (key : Digest) (capPort : MachPort) (caller : TaskId) (reqs : List CapRequest) (s : CapServer)
    (hrun : runSteps (serve (hmacSha256 compress)) (CapServer.init key capPort) reqs = some s)
    (tokenBuf : Bytes) (op : UInt32) (resourceId : UInt64) :
    (capVerify (hmacSha256 compress) s tokenBuf op.toUInt64 resourceId = .success ↔
        urmachCapVerify portableHmac (exportedKernel caller key) tokenBuf op resourceId =
          .success) ↔
      (capTokenSize ≤ tokenBuf.length →
        (UrosCap.decode tokenBuf).Grants portableHmac key op.toUInt64 resourceId →
        tokenBuf.length = capTokenSize ∧ ¬s.Revoked (UrosCap.decode tokenBuf).capId) := by
  have hmac : hmacSha256 compress = portableHmac := by
    have : compress = sha256CompressC := funext₂ hcompress
    rw [this, portableHmac]
  have hkey : s.key = key := key_of_run hrun
  rw [hmac, ← hkey]
  exact verifiers_agree_iff (by rw [exportedKernel_eq]) (by rw [exportedKernel_eq])
    fun _ => not_revokedIn_exportedKernel

def firstToken (mac : Mac) (key : Digest) : UrosCap :=
  capSign mac key (rootToken 1 resourceBlkDevice 7 3)

def derivedToken (mac : Mac) (key : Digest) : UrosCap :=
  capSign mac key (childToken (firstToken mac key) 2 1 0)

def deriveRequests (mac : Mac) (key : Digest) : List CapRequest :=
  [.acquire 0 resourceBlkDevice 7 3 true, .derive (firstToken mac key).encode 1 true]

theorem deriveRequests_run (mac : Mac) (key : Digest) (capPort : MachPort) :
    ∃ s, runSteps (serve mac) (CapServer.init key capPort) (deriveRequests mac key) = some s ∧
      ¬s.Revoked 1 ∧ ¬s.Revoked 2 := by
  obtain ⟨s₁, t₁, hok₁, ha⟩ := @capAcquire_ok mac (CapServer.init key capPort) 0
    resourceBlkDevice 7 3 rfl (show 0 + capEntrySize ≤ 2 ^ 32 by decide)
  have hF := (Delegates.init key capPort).acquire ha
  have hfind : s₁.find 1 = some (firstToken mac key) := by
    rw [ha.find, ha.token]
    rfl
  have hstate : s₁ = (CapServer.init key capPort).issue t₁ := ha.state
  obtain ⟨s, t, hok, hd⟩ := @capDerive_ok mac s₁ (firstToken mac key) (firstToken mac key) 1
    (by rw [hstate]; exact capVerifyHmac_capSign) rfl (by decide : (1 : UInt8) ≠ 0)
    (by decide : (0 : UInt8).toNat + 1 ≤ capMaxDepth) (by decide : (1 : UInt64) &&& ~~~3 = 0)
    hfind rfl (by rw [hstate]; exact (by decide : 0 + capEntrySize + capEntrySize ≤ 2 ^ 32))
  have hstep₁ : serve mac (CapServer.init key capPort) (.acquire 0 resourceBlkDevice 7 3 true) =
      some s₁ := by
    simp [serve, handle, hok₁, issueReply]
  have hstep : serve mac s₁ (.derive (firstToken mac key).encode 1 true) = some s := by
    simp [serve, handle, hok, issueReply]
  have hnext : s₁.nextCapId = 2 := by
    rw [hstate]
    rfl
  refine ⟨s, runSteps_cons.mpr ⟨s₁, hstep₁, runSteps_cons.mpr ⟨s, hstep, rfl⟩⟩, ?_, ?_⟩
  · rintro ⟨e, he, hrev⟩
    rw [hF.find_derived hd hfind, if_pos (by rfl)] at he
    exact hrev (Option.some.inj he ▸ rfl)
  · rintro ⟨e, he, hrev⟩
    obtain ⟨e', -, -, ht⟩ := hd.entry
    have hchild : (2 : UInt64) ≠ (firstToken mac key).capId := (by decide : (2 : UInt64) ≠ 1)
    rw [hF.find_derived hd hfind, if_neg hchild, hnext, if_pos rfl, ht] at he
    exact hrev (Option.some.inj he ▸ rfl)

/-- Both verifiers accept an acquired token and one that is derived from it. -/
theorem capVerify_agrees_iff_derived :
    ∃ s, runSteps (serve portableHmac) (CapServer.init (Vector.replicate 32 0) 1)
        (deriveRequests portableHmac (Vector.replicate 32 0)) = some s ∧
      capVerify portableHmac s (firstToken portableHmac (Vector.replicate 32 0)).encode 3 7 =
        .success ∧
      capVerify portableHmac s (derivedToken portableHmac (Vector.replicate 32 0)).encode 1 7 =
        .success := by
  obtain ⟨s, hrun, hfirst, hderived⟩ := deriveRequests_run portableHmac (Vector.replicate 32 0) 1
  have hagree := capVerify_agrees_iff sha256CompressC (fun _ _ => rfl) _ 1 0 _ _ hrun
  have haccepts : ∀ (t : UrosCap) (op : UInt32), ¬s.Revoked t.capId →
      t.Grants portableHmac (Vector.replicate 32 0) op.toUInt64 7 →
      capVerify portableHmac s t.encode op.toUInt64 7 = .success := by
    intro t op hrev hgrants
    refine ((hagree t.encode op 7).mpr fun _ _ => ⟨by simp, by rwa [UrosCap.decode_encode]⟩).mpr ?_
    rw [urmachCapVerify_iff (by rw [exportedKernel_eq]), UrosCap.decode_encode]
    refine ⟨by simp, ?_, not_revokedIn_exportedKernel⟩
    rw [exportedKernel_eq]
    exact hgrants
  exact ⟨s, hrun, haccepts _ 3 hfirst (grants_rootToken (by decide)),
    haccepts _ 1 hderived ⟨capVerifyHmac_capSign, rfl, rfl, by decide⟩⟩

end Uros.Cap
