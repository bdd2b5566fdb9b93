import Uros.Block.System

/-!
Revocation, from `cap_revoke` to the handles of the block device server.

A revocation takes effect in three places: the table of `cap_server`, the kernel,
and the handles already open.  `Effective` is what runs keep as long as every
cascade fits and reaches the block server and no signed token of a revoked
capability opens a partition again.  Nothing in the system hinders such an open,
which `Shut.opens` states.
-/

namespace Uros.Block

open Uros.Foundation Uros.Cap

variable {mac : Mac} {sys sys' : System} {ev : SysEvent} {token : Bytes} {part : BlkPartition}
  {id c : UInt64} {s s' : CapServer} {req : CapRequest}

def GrantsPartition (mac : Mac) (key : Digest) (part : BlkPartition) (token : Bytes) : Prop :=
  (UrosCap.decode token).Grants mac key (capOpBlkRead ||| capOpBlkWrite)
      (capNameHash part.name) ∨
    part.stableName ≠ [] ∧
      (UrosCap.decode token).Grants mac key (capOpBlkRead ||| capOpBlkWrite)
        (capNameHash part.stableName)

theorem grantsPartition_of_admits {k : KernelCaps} (hkey : k.keySet = true)
    (h : capAdmits mac k part token = true) : GrantsPartition mac k.hmacKey part token := by
  simp only [capAdmits, Bool.or_eq_true, Bool.and_eq_true, decide_eq_true_eq,
    urmachCapVerify_iff hkey] at h
  rcases h with ⟨-, hgrants, -⟩ | ⟨hname, -, hgrants, -⟩
  · exact .inl hgrants
  · exact .inr ⟨hname, hgrants⟩

theorem admits_of_grantsPartition {k : KernelCaps} (hkey : k.keySet = true)
    (hlisted : ∀ c, ¬RevokedIn k c) (hlen : token.length = capTokenSize)
    (h : GrantsPartition mac k.hmacKey part token) : capAdmits mac k part token = true := by
  simp only [capAdmits, Bool.or_eq_true, Bool.and_eq_true, decide_eq_true_eq,
    urmachCapVerify_iff hkey]
  rcases h with hgrants | ⟨hname, hgrants⟩
  · exact .inl ⟨hlen.ge, hgrants, hlisted _⟩
  · exact .inr ⟨hname, hlen.ge, hgrants, hlisted _⟩

/-- The condition on an event: a revocation reaches all descendants and the block
server, and an open does not present a token of a revoked capability that would
be good without the revocation. -/
def Respects (mac : Mac) (sys : System) : SysEvent → Prop
  | .cap (.revoke id deliver) =>
    (sys.caps.find id).isSome →
      sys.caps.CascadeFits id ∧ sys.notifyPort ∈ sys.caps.subscribers ∧
        ∀ c, deliver ⟨sys.notifyPort, c⟩ = true
  | .msg port m _ =>
    ∀ part token, sys.blk.payload port = some (.part part) → m.id = 2817 →
      m.body = .openCap token → sys.caps.Revoked (UrosCap.decode token).capId →
      ¬GrantsPartition mac sys.kernel.hmacKey part token
  | _ => True

structure Effective (sys : System) : Prop where
  valid : Valid sys.caps
  keySet : sys.kernel.keySet = true
  listed : ∀ c, ¬RevokedIn sys.kernel c
  ports : sys.blk.PortsDistinct
  closed : sys.caps.RevokedClosed
  roots : ∀ id ∈ sys.revokedIds, sys.caps.Revoked id
  handles : ∀ h ∈ sys.blk.handles, sys.caps.Revoked h.capId →
    h.revoked = true ∨ h.capId ∈ sys.pending

theorem not_revoked_zero (hvalid : Valid s) : ¬s.Revoked 0 := by
  obtain ⟨F, hF⟩ := hvalid.forest
  rintro ⟨t, ht, -⟩
  exact hF.null ((hF.mem_iff 0).mpr (by rw [ht]; rfl))

theorem Revoked.served (h : s.Revoked c) (hreq : Served mac s req s') (hvalid : Valid s) :
    s'.Revoked c := by
  obtain ⟨e, he, hrev⟩ := h
  obtain ⟨e', he', -, hkeep⟩ := hreq.find_some hvalid he
  exact ⟨e', he', hkeep hrev⟩

theorem RevokedClosed.served (h : s.RevokedClosed) (hreq : Served mac s req s')
    (hno : ¬req.IsRevoke) (hvalid : Valid s) : s'.RevokedClosed := by
  rintro p d ⟨t, ht, hp⟩ hrev
  have hprev : s.Revoked p := revoked_of_served hreq hno hvalid hrev
  rcases hreq.find_new hvalid ht with ⟨e, he, hgrant⟩ | hzero | ⟨e, he, herev⟩
  · have hparent : e.parentCapId = p := by
      have hfield : e.grant.parentCapId = t.grant.parentCapId := by rw [hgrant]
      exact hfield.trans hp
    exact Revoked.served (h p d ⟨e, he, hparent⟩ hprev) hreq hvalid
  · rw [← hp, hzero] at hprev
    exact absurd hprev (not_revoked_zero hvalid)
  · obtain ⟨e', he', hrev'⟩ := hprev
    rw [hp, he'] at he
    exact absurd (Option.some.inj he ▸ herev) hrev'

theorem Descends.revoked (hclosed : s.RevokedClosed) (h : s.Descends id c)
    (hrev : s.Revoked id) : s.Revoked c := by
  induction h with
  | refl => exact hrev
  | tail _ hstep ih => exact hclosed _ _ hstep ih

theorem revoke_fits {deliver : Notice → Bool} {sent : List Notice} (hvalid : Valid s)
    (hclosed : s.RevokedClosed) (hfits : s.CascadeFits id)
    (hrev : capRevoke mac deliver s id = some (.success, s', sent)) :
    CascadeComplete deliver s s' sent id ∧ s'.RevokedClosed ∧ s'.Revoked id := by
  obtain ⟨F, hF⟩ := hvalid.forest
  obtain ⟨K, hK, rfl, rfl⟩ := hF.of_capRevoke hrev
  rw [CapServer.CascadeFits, hF.cascadeTree_eq hK] at hfits
  have hcomplete := @cascadeComplete_of_fits mac deliver s F K id hF hK hclosed
    hvalid.subscribers hfits
  refine ⟨hcomplete, ?_, hcomplete.revoked id .refl⟩
  rintro p d ⟨t, ht, hp⟩ hprev
  have hparent : s.IsParent p d := by
    have hmap : (s.cascadeResult mac deliver id K).parentOf d = s.parentOf d :=
      find_links_markAll _ d _ (fun _ => rfl) _
    have : s.parentOf d = some p := by
      rw [← hmap, CapServer.parentOf, ht]
      exact congrArg some hp
    obtain ⟨e, he, hpe⟩ := Option.map_eq_some_iff.mp this
    exact ⟨e, he, hpe⟩
  rw [hF.revoked_cascadeResult_iff hK] at hprev
  rcases hprev with hmarked | hold
  · have hdesc : s.Descends id p :=
      (hF.descends_iff hK).mpr (Forest.mem_nodes_of_mem_visit hmarked)
    exact hcomplete.revoked d (hdesc.tail hparent)
  · exact (hF.revoked_cascadeResult_iff hK).mpr (.inr (hclosed p d hparent hold))

namespace Effective

theorem cap_other {caps : CapServer} {pending : List UInt64} (h : Effective sys)
    (hserved : Served mac sys.caps req caps) (hno : ¬req.IsRevoke)
    (hpending : sys.pending ⊆ pending) : Effective { sys with caps, pending } where
  valid := h.valid.served hserved
  keySet := h.keySet
  listed := h.listed
  ports := h.ports
  closed := RevokedClosed.served h.closed hserved hno h.valid
  roots id hid := Revoked.served (h.roots id hid) hserved h.valid
  handles g hg hrev :=
    (h.handles g hg (revoked_of_served hserved hno h.valid hrev)).imp_right fun hp => hpending hp

theorem cap_revoke {deliver : Notice → Bool} {caps : CapServer} {sent : List Notice}
    (h : Effective sys) (hok : Respects mac sys (.cap (.revoke id deliver)))
    (hrev : capRevoke mac deliver sys.caps id = some (.success, caps, sent)) :
    Effective
      { sys with
        caps
        pending := sys.pending ++
          (sent.filter fun n => n.port = sys.notifyPort).map Notice.capId
        revokedIds := id :: sys.revokedIds } := by
  have hserved : Served mac sys.caps (.revoke id deliver) caps := .revoked hrev
  have hfind : (sys.caps.find id).isSome := by
    obtain ⟨F, hF⟩ := h.valid.forest
    obtain ⟨K, hK, -, -⟩ := hF.of_capRevoke hrev
    exact (hF.mem_iff id).mp ((Forest.sublist_of_kidsOf hK).subset (by simp))
  obtain ⟨hfits, hsub, hdeliver⟩ := hok hfind
  obtain ⟨hcomplete, hclosed, hid⟩ := revoke_fits h.valid h.closed hfits hrev
  refine ⟨h.valid.served hserved, h.keySet, h.listed, h.ports, hclosed, ?_, ?_⟩
  · intro c hc
    rcases List.mem_cons.mp hc with rfl | hc
    · exact hid
    · exact Revoked.served (h.roots c hc) hserved h.valid
  · intro g hg hgrev
    by_cases hold : sys.caps.Revoked g.capId
    · exact (h.handles g hg hold).imp_right fun hp => List.mem_append_left _ hp
    · -- newly revoked: the cascade has just notified the block server of it
      have hcount := hcomplete.notified _ hsub hdeliver g.capId hold hgrev
      have hsent : (⟨sys.notifyPort, g.capId⟩ : Notice) ∈ sent :=
        List.count_pos_iff.mp (by omega)
      refine .inr (List.mem_append_right _ (List.mem_map.mpr
        ⟨⟨sys.notifyPort, g.capId⟩, ?_, rfl⟩))
      exact List.mem_filter.mpr ⟨hsent, by simp⟩

theorem cap {caps : CapServer} {reply : CapReply} (h : Effective sys)
    (hok : Respects mac sys (.cap req)) (hreq : handle mac sys.caps req = some (caps, reply)) :
    Effective
      { sys with
        caps
        pending := sys.pending ++
          (reply.sent.filter fun n => n.port = sys.notifyPort).map Notice.capId
        revokedIds := (System.revokedBy req reply).toList ++ sys.revokedIds } := by
  have hserved : Served mac sys.caps req caps := served_of_serve (by rw [serve, hreq]; rfl)
  have hgrow : ∀ more, sys.pending ⊆ sys.pending ++ more := fun _ _ hp =>
    List.mem_append_left _ hp
  cases req with
  | revoke id deliver =>
    obtain ⟨⟨status, caps₁, sent⟩, hrev, heq⟩ := Option.map_eq_some_iff.mp hreq
    simp only [Prod.mk.injEq] at heq
    obtain ⟨rfl, rfl⟩ := heq
    by_cases hstatus : status = .success
    · subst hstatus
      exact h.cap_revoke hok hrev
    · have hsame : caps₁ = sys.caps := (capRevoke_status hrev).resolve_right hstatus
      simp only [System.revokedBy, hstatus, if_false, Option.toList_none, List.nil_append, hsame]
      exact ⟨h.valid, h.keySet, h.listed, h.ports, h.closed, h.roots,
        fun g hg hr => (h.handles g hg hr).imp_right fun hp => hgrow _ hp⟩
  | acquire _ _ _ _ _ => exact h.cap_other hserved id (hgrow _)
  | derive _ _ _ => exact h.cap_other hserved id (hgrow _)
  | verify _ _ _ => exact h.cap_other hserved id (hgrow _)
  | subscribeRevoke _ => exact h.cap_other hserved id (hgrow _)
  | provisionTask _ _ => exact h.cap_other hserved id (hgrow _)

theorem demuxed {m : MachMsg} {ans : DemuxAnswers} {blk : BlkServer} (h : Effective sys)
    (hfresh : ∀ p ∈ ans.openCap.port, sys.blk.FreshPort p)
    (hopen : ∀ part token, m.device = .part part → m.id = 2817 → m.body = .openCap token →
      sys.caps.Revoked (UrosCap.decode token).capId →
      ¬GrantsPartition mac sys.kernel.hmacKey part token)
    (hm : Demuxed mac sys.kernel sys.blk m ans blk) : Effective { sys with blk } := by
  refine ⟨h.valid, h.keySet, h.listed, h.ports.demuxed hfresh hm, h.closed, h.roots, ?_⟩
  intro g hg hrev
  cases hm with
  | kept hkept => exact h.handles g (hkept ▸ hg) hrev
  | released _ hs => exact h.handles g (mem_of_removeHandle (hs ▸ hg)) hrev
  | closed port _ _ hs => exact h.handles g (mem_of_removeHandle (hs ▸ hg)) hrev
  | opened token hport hid hbody _ hopened =>
    obtain ⟨p, hdev, hadmits, rfl⟩ := hopened.part
    rcases List.mem_cons.mp hg with rfl | hg
    · exact absurd (grantsPartition_of_admits h.keySet hadmits)
        (hopen p token hdev hid hbody hrev)
    · exact h.handles g hg hrev
  | revoked capId _ _ hs =>
    rw [hs] at hg
    rcases mem_blkHandlesRevokeByCapId.mp hg with ⟨hg, -⟩ | ⟨g₀, -, -, -, rfl⟩
    · exact h.handles g hg hrev
    · exact .inl rfl

theorem notice {pending : List UInt64} (h : Effective sys)
    (hpending : sys.pending = c :: pending) :
    Effective { sys with pending, blk := sys.blk.blkHandlesRevokeByCapId c } := by
  refine ⟨h.valid, h.keySet, h.listed, h.ports.revoke, h.closed, h.roots, ?_⟩
  intro g hg hrev
  rcases mem_blkHandlesRevokeByCapId.mp hg with ⟨hg, hnot⟩ | ⟨g₀, -, -, -, rfl⟩
  · rcases h.handles g hg hrev with hdone | hwait
    · exact .inl hdone
    · rw [hpending] at hwait
      rcases List.mem_cons.mp hwait with hc | hwait
      · refine .inl (by_contra fun hlive => hnot ⟨hc, ?_⟩)
        simpa using hlive
      · exact .inr hwait
  · exact .inl rfl

theorem step (h : Effective sys) (hok : Respects mac sys ev)
    (hstep : sys.step mac ev = some sys') : Effective sys' := by
  cases stepped_of_step hstep with
  | cap hreq => exact h.cap hok hreq
  | @msg port m ans device blk hdev hfresh hm =>
    refine h.demuxed hfresh (fun part token hpart hid hbody => ?_) hm
    have hpart : device = .part part := hpart
    exact hok part token (hpart ▸ hdev) hid hbody
  | noSenders hfresh hm =>
    exact h.demuxed hfresh (fun _ _ _ hid => absurd hid (by simp [noSendersMsg])) hm
  | notice hpending => exact h.notice hpending

end Effective

/-- An open with a token of `c` fails exactly if it would fail without any revocation:
the token itself is not good for the partition, or the server is out of memory or ports.
No handle opened with `c` authorises anything once its notification was received. -/
structure Shut (mac : Mac) (sys : System) (c : UInt64) : Prop where
  opens : ∀ part token (ans : DemuxAnswers), (UrosCap.decode token).capId = c →
    ((sys.blk.dsDeviceOpenCap mac sys.kernel (.part part) token ans.openCap).1 ≠ .success ↔
      token.length ≠ capTokenSize ∨ ¬GrantsPartition mac sys.kernel.hmacKey part token ∨
        ans.openCap.mem = false ∨ ans.openCap.port = none)
  handles : ∀ h ∈ sys.blk.handles, h.capId = c → c ∉ sys.pending →
    sys.blk.blkPartFromAuthedHandle (.handle h.recvPort) = none

theorem Effective.shut (h : Effective sys) (hrev : sys.caps.Revoked c) : Shut mac sys c where
  opens part token ans _ := by
    have hadmits : token.length = capTokenSize →
        (capAdmits mac sys.kernel part token = true ↔
          GrantsPartition mac sys.kernel.hmacKey part token) := fun hlen =>
      ⟨grantsPartition_of_admits h.keySet, admits_of_grantsPartition h.keySet h.listed hlen⟩
    unfold BlkServer.dsDeviceOpenCap
    by_cases hlen : token.length = capTokenSize
    · by_cases hgrants : GrantsPartition mac sys.kernel.hmacKey part token
      · cases hmem : ans.openCap.mem <;> cases hport : ans.openCap.port <;>
          simp [hlen, (hadmits hlen).mpr hgrants, hgrants]
      · have hrefused := mt (hadmits hlen).mp hgrants
        simp [hlen, hrefused, hgrants]
    · simp [hlen]
  handles g hg hc hwait := by
    have hdone : g.revoked = true :=
      (h.handles g hg (hc ▸ hrev)).resolve_right (hc ▸ hwait)
    simp only [BlkServer.blkPartFromAuthedHandle, handleOf_of_mem h.ports hg, hdone, if_true]

theorem Effective.init (key : Digest) (capPort : MachPort) (capTask : TaskId)
    (nControllers : Nat) (partitions : List BlkPartition) (notifyPort : MachPort) :
    Effective (.init key capPort capTask (.init nControllers partitions) notifyPort) where
  valid := Valid.init key capPort
  keySet := by
    simp only [System.init]
    rw [exportedKernel_eq]
  listed _ := not_revokedIn_exportedKernel
  ports := List.nodup_nil
  closed p d _ hp := by
    obtain ⟨t, ht, -⟩ := hp
    simp [System.init, CapServer.find, CapServer.init, capTableFindById] at ht
  roots id hid := by simp [System.init] at hid
  handles h hh := by simp [System.init, BlkServer.init] at hh

def grantEvents : List SysEvent :=
  [.cap (.acquire 0 resourceBlkDevice (capNameHash smallPartition.name) 3 true),
    .cap (.subscribeRevoke 9)]

def smallSystem (key : Digest) : System := .init key 1 0 (.init 1 [smallPartition]) 9

def smallToken (mac : Mac) (key : Digest) : UrosCap :=
  capSign mac key (rootToken 1 resourceBlkDevice (capNameHash smallPartition.name) 3)

theorem grantEvents_run (mac : Mac) (key : Digest) :
    ∃ caps, runSteps (System.step mac) (smallSystem key) grantEvents =
        some { smallSystem key with caps } ∧
      Delegates caps (.cons 1 .nil .nil) ∧ ¬caps.Revoked 1 ∧ caps.subscribers = [9] := by
  obtain ⟨s₁, hacquire, hF, hfresh, hsub⟩ := acquire_first mac key 1 resourceBlkDevice
    (capNameHash smallPartition.name) 3
  have hstep₁ : (smallSystem key).step mac (.cap (.acquire 0 resourceBlkDevice
      (capNameHash smallPartition.name) 3 true)) = some { smallSystem key with caps := s₁ } := by
    simp only [System.step, System.capStep, smallSystem, System.init, hacquire]
    rfl
  have hstep₂ : System.step mac { smallSystem key with caps := s₁ } (.cap (.subscribeRevoke 9)) =
      some { smallSystem key with caps := { s₁ with subscribers := [9] } } := by
    simp [System.step, System.capStep, handle, capSubscribeRevoke, hsub, machPortNull,
      capMaxRevokeSubscribers, CapReply.ofStatus, System.revokedBy, smallSystem, System.init]
  refine ⟨{ s₁ with subscribers := [9] }, ?_, hF.congr_table rfl rfl rfl, hfresh, rfl⟩
  simp only [grantEvents, runSteps, hstep₁, hstep₂, Option.bind_some]

theorem revoke_small (hF : Delegates sys.caps (.cons 1 .nil .nil)) (hfresh : ¬sys.caps.Revoked 1)
    (hsub : sys.caps.subscribers = [9]) (hport : sys.notifyPort = 9) :
    Respects mac sys (.cap (.revoke 1 fun _ => true)) ∧
      ∃ caps, sys.step mac (.cap (.revoke 1 fun _ => true)) = some { sys with
        caps, pending := sys.pending ++ [1], revokedIds := 1 :: sys.revokedIds } := by
  constructor
  · have hK : (Forest.cons (1 : UInt64) .nil .nil).kidsOf 1 = some .nil := rfl
    have hfits : sys.caps.CascadeFits 1 := by
      rw [CapServer.CascadeFits, hF.cascadeTree_eq hK]
      decide
    exact fun _ => ⟨hfits, by simp [hsub, hport], fun _ => rfl⟩
  · obtain ⟨caps, sent, hrevoke, -, hsent⟩ := revoke_only_token mac hF hfresh
    refine ⟨caps, ?_⟩
    simp only [System.step, System.capStep, handle, hrevoke, hsent 9 hsub, hport]
    rfl

theorem capAdmits_rootToken (mac : Mac) (key : Digest) (capTask : TaskId) (type : UInt32) :
    capAdmits mac (exportedKernel capTask key) smallPartition
      (capSign mac key (rootToken 1 type (capNameHash smallPartition.name) 3)).encode = true := by
  have hverify : urmachCapVerify mac (exportedKernel capTask key)
      (capSign mac key (rootToken 1 type (capNameHash smallPartition.name) 3)).encode 3
      (capNameHash smallPartition.name) = .success := by
    rw [urmachCapVerify_iff (by rw [exportedKernel_eq]), UrosCap.decode_encode]
    refine ⟨by simp, ?_, not_revokedIn_exportedKernel⟩
    rw [exportedKernel_eq]
    exact grants_rootToken (by decide)
  simp only [capAdmits, Bool.or_eq_true, decide_eq_true_eq]
  exact .inl hverify

def smallAnswers : DemuxAnswers := ⟨⟨true, some 11⟩, ⟨true, true, fun _ => true⟩, none⟩

theorem freshPort_small :
    ∀ port ∈ smallAnswers.openCap.port, (BlkServer.init 1 [smallPartition]).FreshPort port := by
  intro port hport
  cases hport
  decide

theorem openCap_rootToken (mac : Mac) (key : Digest) (capTask : TaskId) (type : UInt32) :
    (BlkServer.init 1 [smallPartition]).dsDeviceOpenCap mac (exportedKernel capTask key)
      (.part smallPartition)
      (capSign mac key (rootToken 1 type (capNameHash smallPartition.name) 3)).encode
      smallAnswers.openCap =
    (.success, { BlkServer.init 1 [smallPartition] with
      handles := [⟨smallPartition, 11, 1, false⟩] }, some 11) := by
  have hid : (capSign mac key (rootToken 1 type (capNameHash smallPartition.name) 3)).capId =
    1 := rfl
  simp only [BlkServer.dsDeviceOpenCap, UrosCap.length_encode,
    capAdmits_rootToken mac key capTask type, UrosCap.decode_encode, hid]
  rfl

def openMsg (token : Bytes) : ClientMsg := ⟨.sendOnce, false, 2817, .openCap token⟩

theorem open_small {mac : Mac} {key : Digest} {sys : System}
    (hblk : sys.blk = .init 1 [smallPartition]) (hkernel : sys.kernel = exportedKernel 0 key) :
    sys.step mac (.msg 10 (openMsg (smallToken mac key).encode) smallAnswers) =
      some { sys with
        blk := { sys.blk with handles := [⟨smallPartition, 11, 1, false⟩] } } := by
  have hpayload : sys.blk.payload 10 = some (.part smallPartition) := by
    rw [hblk]
    rfl
  have hfresh : ∀ port ∈ smallAnswers.openCap.port, sys.blk.FreshPort port :=
    hblk ▸ freshPort_small
  have hopen : sys.blk.dsDeviceOpenCap mac sys.kernel (.part smallPartition)
      (smallToken mac key).encode smallAnswers.openCap =
      (.success, { sys.blk with handles := [⟨smallPartition, 11, 1, false⟩] }, some 11) := by
    rw [hblk, hkernel]
    exact openCap_rootToken mac key 0 resourceBlkDevice
  simp only [System.step, hpayload, Option.bind_some, System.blkStep, if_pos hfresh]
  rw [blkDemux_openCap rfl rfl rfl]
  exact congrArg (fun r : IoReturn × BlkServer × Option MachPort =>
    some { sys with blk := r.2.1 }) hopen

def revokeEvents : List SysEvent := grantEvents ++ [.cap (.revoke 1 fun _ => true)]

theorem open_after_revoke (mac : Mac) (key : Digest) :
    ∃ sys, runSteps (System.step mac) (smallSystem key)
        (revokeEvents ++ [.notice smallAnswers,
          .msg 10 (openMsg (smallToken mac key).encode) smallAnswers]) = some sys ∧
      sys.revokedIds = [1] ∧ sys.pending = [] ∧
      sys.blk.blkPartFromAuthedHandle (.handle 11) = some smallPartition := by
  obtain ⟨caps, hgrant, hF, hfresh, hsub⟩ := grantEvents_run mac key
  obtain ⟨-, caps', hrevoke⟩ := @revoke_small mac { smallSystem key with caps } hF hfresh hsub rfl
  have hnotice : System.step mac
      { smallSystem key with caps := caps', pending := [1], revokedIds := [1] }
      (.notice smallAnswers) = some { smallSystem key with caps := caps', revokedIds := [1] } :=
    System.step_notice rfl freshPort_small
  have hopen := @open_small mac key { smallSystem key with caps := caps', revokedIds := [1] }
    rfl rfl
  have hrun := runSteps_append.mpr ⟨_, hgrant, runSteps_cons.mpr ⟨_, hrevoke, runSteps_nil⟩⟩
  have htail := runSteps_cons.mpr ⟨_, hnotice, runSteps_cons.mpr ⟨_, hopen, runSteps_nil⟩⟩
  exact ⟨_, runSteps_append.mpr ⟨_, hrun, htail⟩, rfl, rfl, rfl⟩

/-- The token is revoked and the block server knows, yet it opens the partition
and the new handle authorises requests. -/
theorem deviceOpenCap_accepts_revoked :
    ∃ sys, runSteps (System.step portableHmac) (smallSystem (Vector.replicate 32 0))
        (revokeEvents ++ [.notice smallAnswers,
          .msg 10 (openMsg (smallToken portableHmac (Vector.replicate 32 0)).encode)
            smallAnswers]) = some sys ∧
      sys.revokedIds = [1] ∧ sys.pending = [] ∧
      sys.blk.blkPartFromAuthedHandle (.handle 11) = some smallPartition :=
  open_after_revoke portableHmac (Vector.replicate 32 0)

/-- In every run that respects revocations, whatever was revoked, and everything
below it, is shut. -/
theorem revocation_effective (mac : Mac) (key : Digest) (capPort : MachPort) (capTask : TaskId)
    (nControllers : Nat) (partitions : List BlkPartition) (notifyPort : MachPort)
    (events : List SysEvent) (sys : System)
    (hok : StepsMeet (System.step mac) (Respects mac)
      (.init key capPort capTask (.init nControllers partitions) notifyPort) events)
    (hrun : runSteps (System.step mac)
      (.init key capPort capTask (.init nControllers partitions) notifyPort) events = some sys)
    (id : UInt64) (hid : id ∈ sys.revokedIds) (c : UInt64) (hc : sys.caps.Descends id c) :
    Shut mac sys c := by
  have h : Effective sys := runSteps_invariant_of_guard
    (fun _ _ _ h hev hstep => h.step hev hstep)
    (.init key capPort capTask nControllers partitions notifyPort) hok hrun
  exact h.shut (Descends.revoked h.closed hc (h.roots id hid))

def openedEvents (mac : Mac) (key : Digest) : List SysEvent :=
  grantEvents ++ [.msg 10 (openMsg (smallToken mac key).encode) smallAnswers,
    .cap (.revoke 1 fun _ => true), .notice { smallAnswers with openCap := ⟨true, none⟩ }]

theorem openedEvents_run (mac : Mac) (key : Digest) :
    ∃ caps, runSteps (System.step mac) (smallSystem key) (openedEvents mac key) =
        some { smallSystem key with
          caps, revokedIds := [1], blk := { BlkServer.init 1 [smallPartition] with
            handles := [⟨smallPartition, 11, 1, true⟩] } } ∧
      StepsMeet (System.step mac) (Respects mac) (smallSystem key) (openedEvents mac key) := by
  obtain ⟨caps, hgrant, hF, hfresh, hsub⟩ := grantEvents_run mac key
  have hopen := @open_small mac key { smallSystem key with caps } rfl rfl
  obtain ⟨hok, caps', hrevoke⟩ := @revoke_small mac { smallSystem key with
    caps, blk := { BlkServer.init 1 [smallPartition] with
      handles := [⟨smallPartition, 11, 1, false⟩] } } hF hfresh hsub rfl
  have hnotice : System.step mac { smallSystem key with
      caps := caps'
      pending := [1]
      revokedIds := [1]
      blk := { BlkServer.init 1 [smallPartition] with
        handles := [⟨smallPartition, 11, 1, false⟩] } }
      (.notice { smallAnswers with openCap := ⟨true, none⟩ }) = some _ :=
    System.step_notice rfl (by simp)
  have hopenOk : Respects mac { smallSystem key with caps }
      (.msg 10 (openMsg (smallToken mac key).encode) smallAnswers) := by
    intro part token _ _ hbody hrev
    cases hbody
    rw [UrosCap.decode_encode] at hrev
    exact absurd hrev hfresh
  refine ⟨caps', runSteps_append.mpr ⟨_, hgrant, runSteps_cons.mpr ⟨_, hopen,
    runSteps_cons.mpr ⟨_, hrevoke, runSteps_cons.mpr ⟨_, hnotice, rfl⟩⟩⟩⟩, ?_⟩
  refine StepsMeet.append.mpr ⟨⟨trivial, fun _ _ => ⟨trivial, fun _ _ => trivial⟩⟩, fun s₁ h₁ => ?_⟩
  cases hgrant.symm.trans h₁
  refine ⟨hopenOk, fun s₂ h₂ => ?_⟩
  cases hopen.symm.trans h₂
  exact ⟨hok, fun _ _ => ⟨trivial, fun _ _ => trivial⟩⟩

/-- The handle that was open when the capability was revoked authorises nothing. -/
theorem revocation_effective_small :
    ∃ sys, runSteps (System.step portableHmac) (smallSystem (Vector.replicate 32 0))
        (openedEvents portableHmac (Vector.replicate 32 0)) = some sys ∧
      1 ∈ sys.revokedIds ∧ Shut portableHmac sys 1 ∧
      sys.blk.blkPartFromAuthedHandle (.handle 11) = none := by
  obtain ⟨caps, hrun, hmeet⟩ := openedEvents_run portableHmac (Vector.replicate 32 0)
  have hshut := revocation_effective portableHmac (Vector.replicate 32 0) 1 0 1 [smallPartition] 9
    _ _ hmeet hrun 1 (List.mem_singleton.mpr rfl) 1 .refl
  exact ⟨_, hrun, List.mem_singleton.mpr rfl, hshut,
    hshut.handles _ (List.mem_singleton.mpr rfl) rfl List.not_mem_nil⟩

end Uros.Block
