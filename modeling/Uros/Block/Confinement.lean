import Uros.Block.Revocation

/-!
Confinement of a task by its manifest.

The task `T` was provisioned with a manifest and reaches `cap_server` through the
port it got then.  `cap_acquire` checks type and operations against the manifest,
`ds_device_open_cap` checks resource id and operations of the token; the type of
the token is looked at by the first and by nobody afterwards.
-/

namespace Uros.Block

open Uros.Foundation Uros.Cap

structure TaskRequest where
  byT : Bool
  req : CapRequest

structure TaskHistory where
  server : CapServer
  tokens : List UrosCap

namespace TaskHistory

def step (mac : Mac) (h : TaskHistory) (e : TaskRequest) : Option TaskHistory :=
  (handle mac h.server e.req).map fun r =>
    ⟨r.1, if e.byT then r.2.token.toList ++ h.tokens else h.tokens⟩

def TaskMay (mac : Mac) (taskPort : MachPort) (h : TaskHistory) : CapRequest → Prop
  | .acquire localPort _ _ _ _ => localPort = taskPort
  | .derive parent _ _ =>
    capVerifyHmac mac h.server.key (UrosCap.decode parent) = true →
      ∃ t ∈ h.tokens, t.signedBytes = (UrosCap.decode parent).signedBytes
  | _ => False

def OthersMay (taskPort : MachPort) : CapRequest → Prop
  | .provisionTask _ ans => ans.newPort ≠ some taskPort
  | _ => True

def ThroughPort (mac : Mac) (taskPort : MachPort) (h : TaskHistory) (e : TaskRequest) : Prop :=
  if e.byT then h.TaskMay mac taskPort e.req else OthersMay taskPort e.req

end TaskHistory

/-- In no run does `T`, provisioned with the manifest, get a token that opens a
partition under a kernel with the key of the server. -/
def Confined (mac : Mac) (manifest : Bytes) : Prop :=
  ∀ key capPort taskPort reqs s₀ ans s₁,
    runSteps (serve mac) (CapServer.init key capPort) reqs = some s₀ →
    taskPort ≠ machPortNull → taskPort ≠ capPort →
    capProvisionTask s₀ manifest ans = (.success, s₁, some taskPort) →
    ∀ events h,
      StepsMeet (TaskHistory.step mac) (TaskHistory.ThroughPort mac taskPort) ⟨s₁, []⟩ events →
      runSteps (TaskHistory.step mac) ⟨s₁, []⟩ events = some h →
      ∀ t ∈ h.tokens, ∀ (k : KernelCaps) (blk : BlkServer) (part : BlkPartition)
          (openAns : BlkServer.OpenAnswers),
        k.keySet = true → k.hmacKey = key →
        (blk.dsDeviceOpenCap mac k (.part part) t.encode openAns).1 ≠ .success

variable {mac : Mac} {s s' s₁ : CapServer} {req : CapRequest} {manifest : Bytes}
  {ans : ProvisionAnswers} {port taskPort : MachPort} {t : UrosCap} {h h' : TaskHistory}

theorem capProvisionTask_get (hne : ans.newPort ≠ some port) :
    capManifestTableGet (capProvisionTask s manifest ans).2.1.manifests port =
      capManifestTableGet s.manifests port := by
  unfold capProvisionTask
  split
  · split
    · rfl
    · rename_i newPort hnew
      have hport : port ≠ newPort := fun heq => hne (heq ▸ hnew)
      split
      · rfl
      · split
        · rename_i manifests hinstall
          split
          · exact capManifestTableGet_install_of_ne hinstall hport
          · exact capManifestTableGet_install_of_ne hinstall hport
        · rename_i err manifests _ hinstall
          exact capManifestTableGet_install_of_ne hinstall hport
  · rfl

theorem capProvisionTask_success
    (hok : capProvisionTask s manifest ans = (.success, s', some port)) :
    capManifestTableGet s'.manifests port = some manifest ∧ s'.capPort = s.capPort := by
  unfold capProvisionTask at hok
  split at hok
  · split at hok
    · simp at hok
    · split at hok
      · simp at hok
      · split at hok
        · rename_i manifests hinstall
          split at hok
          · simp at hok
          · simp only [Prod.mk.injEq, true_and, Option.some.injEq] at hok
            obtain ⟨rfl, rfl⟩ := hok
            exact ⟨capManifestTableGet_install hinstall, rfl⟩
        · simp at hok
  · simp at hok

theorem Served.capPort_eq (hreq : Served mac s req s') (hvalid : Valid s) :
    s'.capPort = s.capPort := by
  obtain ⟨F, hF⟩ := hvalid.forest
  cases hreq with
  | acquired ha => rw [ha.state]; rfl
  | derived hd => rw [hd.state]; rfl
  | revoked hrev =>
    obtain ⟨K, -, rfl, -⟩ := hF.of_capRevoke hrev
    rfl
  | _ => rfl

theorem manifest_of_handle {reply : CapReply} (hvalid : Valid s)
    (hnew : TaskHistory.OthersMay port req) (hreq : handle mac s req = some (s', reply)) :
    capManifestTableGet s'.manifests port = capManifestTableGet s.manifests port := by
  have hserved : Served mac s req s' := served_of_serve (by rw [serve, hreq]; rfl)
  obtain ⟨F, hF⟩ := hvalid.forest
  cases hserved with
  | unchanged => rfl
  | acquired ha => rw [ha.state]; rfl
  | derived hd => rw [hd.state]; rfl
  | revoked hrev =>
    obtain ⟨K, -, rfl, -⟩ := hF.of_capRevoke hrev
    rfl
  | subscribed _ => rfl
  | @provisioned manifest ans manifests taskPorts =>
    have hs : (capProvisionTask s manifest ans).2.1 = { s with manifests, taskPorts } :=
      congrArg Prod.fst (Option.some.inj hreq)
    have hget := @capProvisionTask_get s manifest ans port hnew
    rwa [hs] at hget

structure Held (manifest : Bytes) (taskPort : MachPort) (h : TaskHistory) : Prop where
  valid : Valid h.server
  port : taskPort ≠ machPortNull ∧ taskPort ≠ h.server.capPort
  inForce : capManifestTableGet h.server.manifests taskPort = some manifest
  tokens : ∀ t ∈ h.tokens, ∃ e ∈ requiredEntries manifest, t.allowedOps &&& ~~~e.ops = 0

theorem entry_of_allowed {type : UInt32} {ops : UInt64} (hheld : Held manifest taskPort h)
    (hallowed : deniedByManifest h.server taskPort type ops = false) :
    ∃ e ∈ requiredEntries manifest, e.type = type ∧ ops &&& ~~~e.ops = 0 := by
  simp only [deniedByManifest, hheld.port.1, hheld.port.2, hheld.inForce, ne_eq,
    not_false_eq_true, decide_true, Bool.and_true, Bool.true_and, Bool.not_eq_false',
    capManifestAllows, List.any_eq_true, Bool.and_eq_true, beq_iff_eq] at hallowed
  obtain ⟨e, he, htype, hops⟩ := hallowed
  exact ⟨e, he, htype, hops⟩

theorem Held.token {reply : CapReply} (hheld : Held manifest taskPort h)
    (hmay : h.TaskMay mac taskPort req) (hreq : handle mac h.server req = some (s', reply))
    (ht : reply.token = some t) :
    ∃ e ∈ requiredEntries manifest, t.allowedOps &&& ~~~e.ops = 0 := by
  rcases issued_of_handle hreq ht with
    ⟨localPort, type, resourceId, ops, mem, rfl, ha⟩ | ⟨parent, reducedOps, mem, rfl, hd⟩
  · have hport : localPort = taskPort := hmay
    obtain ⟨e, he, -, hops⟩ := entry_of_allowed hheld (hport ▸ ha.allowed)
    refine ⟨e, he, ?_⟩
    rw [ha.token]
    exact hops
  · obtain ⟨p, hp, hbytes⟩ := hmay hd.hmac
    obtain ⟨e, he, hops⟩ := hheld.tokens p hp
    obtain ⟨_, -, -, rfl⟩ := hd.entry
    have hparent : p.allowedOps = (UrosCap.decode parent).allowedOps := by
      rw [UrosCap.eq_of_signedBytes hbytes]
    exact ⟨e, he, and_not_trans hd.ops (hparent ▸ hops)⟩

theorem Held.step {e : TaskRequest} (hheld : Held manifest taskPort h)
    (hok : h.ThroughPort mac taskPort e) (hstep : h.step mac e = some h') :
    Held manifest taskPort h' := by
  obtain ⟨⟨s', reply⟩, hreq, rfl⟩ := Option.map_eq_some_iff.mp hstep
  have hserved : Served mac h.server e.req s' := served_of_serve (by rw [serve, hreq]; rfl)
  have hnew : TaskHistory.OthersMay taskPort e.req := by
    unfold TaskHistory.ThroughPort at hok
    split at hok
    · -- requests of `T` provision nobody
      revert hok
      cases e.req with
      | provisionTask _ _ => exact False.elim
      | _ => exact fun _ => trivial
    · exact hok
  refine ⟨hheld.valid.served hserved, ?_, ?_, ?_⟩
  · rw [Served.capPort_eq hserved hheld.valid]
    exact hheld.port
  · rw [manifest_of_handle hheld.valid hnew hreq]
    exact hheld.inForce
  · cases hbyT : e.byT with
    | false => simpa [hbyT] using hheld.tokens
    | true =>
      simp only [TaskHistory.ThroughPort, hbyT, if_true] at hok
      intro t ht
      simp only [if_true, List.mem_append, Option.mem_toList] at ht
      rcases ht with ht | ht
      · exact hheld.token hok hreq ht
      · exact hheld.tokens t ht

theorem capPort_of_run {key : Digest} {capPort : MachPort} {reqs : List CapRequest}
    (hrun : runSteps (serve mac) (CapServer.init key capPort) reqs = some s) :
    s.capPort = capPort := by
  have hstep : ∀ s req s', (Valid s ∧ s.capPort = capPort) → serve mac s req = some s' →
      Valid s' ∧ s'.capPort = capPort := by
    rintro s req s' ⟨hvalid, hport⟩ hreq
    have hserved := served_of_serve hreq
    exact ⟨hvalid.served hserved, (Served.capPort_eq hserved hvalid).trans hport⟩
  exact (runSteps_invariant hstep ⟨Valid.init key capPort, rfl⟩ hrun).2

theorem ops_of_open {k : KernelCaps} {blk : BlkServer} {part : BlkPartition}
    {openAns : BlkServer.OpenAnswers} (hset : k.keySet = true)
    (hopen : (blk.dsDeviceOpenCap mac k (.part part) t.encode openAns).1 = .success) :
    (capOpBlkRead ||| capOpBlkWrite) &&& ~~~t.allowedOps = 0 := by
  obtain ⟨_, -, -, hopened⟩ := opened_of_success (Prod.ext hopen rfl)
  obtain ⟨p, -, hadmits, -⟩ := hopened.part
  rcases grantsPartition_of_admits hset hadmits with hgrants | ⟨-, hgrants⟩
  · simpa using hgrants.ops
  · simpa using hgrants.ops

theorem confined_of_entries
    (hentries : ∀ e ∈ requiredEntries manifest,
      (capOpBlkRead ||| capOpBlkWrite) &&& ~~~e.ops ≠ 0) : Confined mac manifest := by
  intro key capPort taskPort reqs s₀ ans s₁ hrun₀ hnull hcap hprovision events h hok hrun t ht
    k blk part openAns hset _ hopen
  obtain ⟨hmanifest, hport⟩ := capProvisionTask_success hprovision
  have hvalid₁ : Valid s₁ := by
    obtain ⟨manifests, taskPorts, hs⟩ := capProvisionTask_state s₀ manifest ans
    have hs₁ : s₁ = { s₀ with manifests, taskPorts } := by
      rw [← hs, hprovision]
    exact hs₁ ▸ (valid_of_run hrun₀).served (@Served.provisioned mac s₀ manifest ans manifests taskPorts)
  have hinit : Held manifest taskPort ⟨s₁, []⟩ :=
    ⟨hvalid₁, ⟨hnull, by rw [hport, capPort_of_run hrun₀]; exact hcap⟩, hmanifest, by simp⟩
  have hheld : Held manifest taskPort h := runSteps_invariant_of_guard
    (fun _ _ _ hheld hev hstep => hheld.step hev hstep) hinit hok hrun
  obtain ⟨e, he, hops⟩ := hheld.tokens t ht
  exact hentries e he (and_not_trans (ops_of_open hset hopen) hops)

def smallProvision : ProvisionAnswers := ⟨some 2, true, true, true⟩

theorem provision_first (key : Digest) (hm : capManifestValidate manifest = .success) :
    ∃ s, capProvisionTask (CapServer.init key 1) manifest smallProvision =
        (.success, s, some 2) ∧
      s.nextCapId = 1 ∧ s.heapUsed = 0 ∧ s.key = key := by
  refine ⟨{ CapServer.init key 1 with
    manifests := capManifestTableInit.set 0 (some ⟨2, manifest⟩), taskPorts := [2] }, ?_,
    rfl, rfl, rfl⟩
  simp only [capProvisionTask, hm, smallProvision]
  rfl

theorem acquire_entry (mac : Mac) (key : Digest) {entry : ManifestEntry}
    (hs : capManifestTableGet s.manifests 2 = some manifest)
    (hinit : s.nextCapId = 1 ∧ s.heapUsed = 0 ∧ s.key = key)
    (hentry : entry ∈ requiredEntries manifest) (hops : 3 &&& ~~~entry.ops = 0)
    (resourceId : UInt64) :
    ∃ s', handle mac s (.acquire 2 entry.type resourceId 3 true) =
      some (s', ⟨.success, some (capSign mac key (rootToken 1 entry.type resourceId 3)),
        none, []⟩) := by
  have hallows : capManifestAllows (some manifest) entry.type 3 = true :=
    List.any_eq_true.mpr ⟨entry, hentry, by simp [hops]⟩
  have hallowed : deniedByManifest s 2 entry.type 3 = false := by
    simp [deniedByManifest, hs, hallows]
  obtain ⟨hid, hheap, hkey⟩ := hinit
  obtain ⟨s', t, hok, ha⟩ := @capAcquire_ok mac s 2 entry.type resourceId 3 hallowed
    (by rw [hheap]; decide)
  have htoken : t = capSign mac key (rootToken 1 entry.type resourceId 3) := by
    rw [ha.token, hid, hkey]
  exact ⟨s', by simp [handle, hok, issueReply, htoken]⟩

theorem not_confined_of_entry {entry : ManifestEntry}
    (hm : capManifestValidate manifest = .success) (hentry : entry ∈ requiredEntries manifest)
    (hops : (capOpBlkRead ||| capOpBlkWrite) &&& ~~~entry.ops = 0) :
    ¬Confined mac manifest := by
  intro hconfined
  obtain ⟨s₁, hprovision, hinit⟩ := provision_first (Vector.replicate 32 0) hm
  obtain ⟨s', hacquire⟩ := acquire_entry mac (Vector.replicate 32 0)
    (capProvisionTask_success hprovision).1 hinit hentry hops (capNameHash smallPartition.name)
  let event : TaskRequest :=
    ⟨true, .acquire 2 entry.type (capNameHash smallPartition.name) 3 true⟩
  let token := capSign mac (Vector.replicate 32 0)
    (rootToken 1 entry.type (capNameHash smallPartition.name) 3)
  have hstep : TaskHistory.step mac ⟨s₁, []⟩ event = some ⟨s', [token]⟩ := by
    rw [TaskHistory.step, hacquire]
    rfl
  have hmeets : StepsMeet (TaskHistory.step mac) (TaskHistory.ThroughPort mac 2) ⟨s₁, []⟩
      [event] := ⟨rfl, fun _ _ => trivial⟩
  apply hconfined (Vector.replicate 32 0) 1 2 [] _ smallProvision s₁ rfl (by decide)
    (by decide) hprovision [event] ⟨s', [token]⟩ hmeets (runSteps_cons.mpr ⟨_, hstep, rfl⟩)
    token (List.mem_singleton_self token) (exportedKernel 0 (Vector.replicate 32 0))
    (.init 1 [smallPartition]) smallPartition smallAnswers.openCap
    (by rw [exportedKernel_eq]) (by rw [exportedKernel_eq])
  rw [openCap_rootToken mac _ 0 entry.type]

/-- A manifest of the name "a" with one required entry, of type 5 and with the given
operations. -/
def smallManifest (ops : UInt8) : Bytes :=
  [0x55, 0x43, 0x4D, 0x46, 1, 0, 48, 0, 66, 0, 0, 0, 0, 0, 0, 0,
    64, 0, 0, 0, 2, 0, 0, 0, 48, 0, 0, 0, 1, 0, 0, 0,
    0, 0, 0, 0, 0, 0, 0, 0, 0, 0, 0, 0, 0, 0, 0, 0,
    5, 0, 0, 0, 0, 0, 0, 0, ops, 0, 0, 0, 0, 0, 0, 0, 97, 0]

/-- The manifest has no entry for block devices, and the task opens a partition. -/
theorem task_opens_unlisted_partition :
    ∃ s₁ s₂ t,
      (∀ e ∈ requiredEntries (smallManifest 3), e.type ≠ resourceBlkDevice) ∧
      capProvisionTask (CapServer.init (Vector.replicate 32 0) 1) (smallManifest 3)
        smallProvision = (.success, s₁, some 2) ∧
      handle portableHmac s₁ (.acquire 2 5 (capNameHash smallPartition.name) 3 true) =
        some (s₂, ⟨.success, some t, none, []⟩) ∧
      ((BlkServer.init 1 [smallPartition]).dsDeviceOpenCap portableHmac
        (exportedKernel 0 (Vector.replicate 32 0)) (.part smallPartition) t.encode
        smallAnswers.openCap).1 = .success := by
  obtain ⟨s₁, hprovision, hinit⟩ :=
    @provision_first (smallManifest 3) (Vector.replicate 32 0) (by decide +kernel)
  obtain ⟨s₂, hacquire⟩ := @acquire_entry s₁ (smallManifest 3) portableHmac
    (Vector.replicate 32 0) ⟨5, 3⟩ (capProvisionTask_success hprovision).1 hinit
    (by decide +kernel) (by decide) (capNameHash smallPartition.name)
  refine ⟨s₁, s₂, _, by decide +kernel, hprovision, hacquire, ?_⟩
  rw [openCap_rootToken portableHmac _ 0 5]

/-- A task is confined exactly when no entry of its manifest, whatever the type, has
the bits of reading and writing. -/
theorem confined_iff (manifest : Bytes) (hm : capManifestValidate manifest = .success) :
    Confined portableHmac manifest ↔
      ∀ e ∈ requiredEntries manifest, (capOpBlkRead ||| capOpBlkWrite) &&& ~~~e.ops ≠ 0 := by
  constructor
  · intro hconfined e he hops
    exact not_confined_of_entry hm he hops hconfined
  · exact confined_of_entries

theorem confined_iff_read_only :
    capManifestValidate (smallManifest 1) = .success ∧
      (Confined portableHmac (smallManifest 1) ↔
        ∀ e ∈ requiredEntries (smallManifest 1),
          (capOpBlkRead ||| capOpBlkWrite) &&& ~~~e.ops ≠ 0) :=
  ⟨by decide +kernel, confined_iff (smallManifest 1) (by decide +kernel)⟩

end Uros.Block
