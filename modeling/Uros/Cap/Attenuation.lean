import Uros.Cap.Cascade

/-!
Attenuation along delegation.

A history records, next to the server, every token it handed out together with
the server state the token was issued from.  Ancestry is read from the tokens
themselves (`parent_cap_id`), not from the table.
-/

namespace Uros.Cap

open Uros.Foundation

variable {mac : Mac} {s s' : CapServer} {req : CapRequest} {id : UInt64} {e t : UrosCap}

/-- The fields of an entry that are never written again; the others are the
revocation flag, the head of the list of children and the signature over them. -/
def UrosCap.grant (t : UrosCap) : UrosCap :=
  { t with revoked := 0, firstChildCapId := 0, hmac := UrosCap.zero.hmac }

@[simp] theorem grant_capSign {key : Digest} : (capSign mac key t).grant = t.grant := rfl

@[simp] theorem grant_markRevoked {key : Digest} : (markRevoked mac key t).grant = t.grant :=
  rfl

@[simp] theorem grant_setFirstChild {key : Digest} {child : UInt64} :
    (setFirstChild mac key child t).grant = t.grant := rfl

theorem delegable_of_grant {t u : UrosCap} (h : t.grant = u.grant) :
    t.delegable = u.delegable := by
  have hfield : t.grant.delegable = u.grant.delegable := by rw [h]
  exact hfield

theorem Served.find_some (hreq : Served mac s req s') (hvalid : Valid s)
    (he : s.find id = some e) :
    ∃ e', s'.find id = some e' ∧ e'.grant = e.grant ∧ (e.revoked ≠ 0 → e'.revoked ≠ 0) := by
  obtain ⟨F, hF⟩ := hvalid.forest
  have hold : s.nextCapId ≠ id := by
    rintro rfl
    exact hF.next_not_mem ((hF.mem_iff _).mpr (by rw [he]; rfl))
  cases hreq with
  | unchanged => exact ⟨e, he, rfl, fun h => h⟩
  | acquired ha => exact ⟨e, by rw [ha.find, if_neg hold, he], rfl, fun h => h⟩
  | @derived parent _ _ _ _ hd =>
    obtain ⟨p, hp, -, -⟩ := hd.entry
    rw [hF.find_derived hd hp]
    by_cases hid : id = (UrosCap.decode parent).capId
    · have hpe : p = e := Option.some.inj (hp.symm.trans (hid ▸ he))
      refine ⟨_, if_pos hid, ?_, ?_⟩
      · rw [grant_setFirstChild, hpe]
      · rw [setFirstChild_revoked, hpe]
        exact fun h => h
    · rw [if_neg hid, if_neg (Ne.symm hold)]
      exact ⟨e, he, rfl, fun h => h⟩
  | revoked hrev =>
    obtain ⟨K, -, rfl, -⟩ := hF.of_capRevoke hrev
    rw [find_cascadeResult, he]
    split
    · exact ⟨_, rfl, grant_markRevoked, by simp⟩
    · exact ⟨e, rfl, rfl, fun h => h⟩
  | subscribed _ => exact ⟨e, he, rfl, fun h => h⟩
  | provisioned => exact ⟨e, he, rfl, fun h => h⟩

theorem Served.find_new (hreq : Served mac s req s') (hvalid : Valid s)
    (ht : s'.find id = some t) :
    (∃ e, s.find id = some e ∧ e.grant = t.grant) ∨ t.parentCapId = 0 ∨
      ∃ e, s.find t.parentCapId = some e ∧ e.revoked = 0 := by
  obtain ⟨F, hF⟩ := hvalid.forest
  cases hreq with
  | unchanged => exact .inl ⟨t, ht, rfl⟩
  | acquired ha =>
    rw [ha.find] at ht
    split at ht
    · cases ht
      refine .inr (.inl ?_)
      rw [ha.token]
      rfl
    · exact .inl ⟨t, ht, rfl⟩
  | derived hd =>
    obtain ⟨e, he, herev, htoken⟩ := hd.entry
    rw [hF.find_derived hd he] at ht
    split_ifs at ht with hparent hnew
    · cases ht
      exact .inl ⟨e, hparent ▸ he, grant_setFirstChild.symm⟩
    · cases ht
      refine .inr (.inr ⟨e, ?_, herev⟩)
      rw [htoken]
      exact he
    · exact .inl ⟨t, ht, rfl⟩
  | revoked hrev =>
    obtain ⟨K, -, rfl, -⟩ := hF.of_capRevoke hrev
    rw [find_cascadeResult] at ht
    split at ht
    · obtain ⟨e, he, rfl⟩ := Option.map_eq_some_iff.mp ht
      exact .inl ⟨e, he, grant_markRevoked.symm⟩
    · exact .inl ⟨t, ht, rfl⟩
  | subscribed _ => exact .inl ⟨t, ht, rfl⟩
  | provisioned => exact .inl ⟨t, ht, rfl⟩

theorem Served.nextCapId_le (hreq : Served mac s req s') (hvalid : Valid s) :
    s.nextCapId.toNat ≤ s'.nextCapId.toNat := by
  obtain ⟨F, hF⟩ := hvalid.forest
  cases hreq with
  | acquired ha =>
    rw [ha.state, CapServer.issue, hF.next_succ]
    exact Nat.le_succ _
  | derived hd =>
    rw [hd.state]
    simp only [CapServer.issue, hF.next_succ]
    exact Nat.le_succ _
  | revoked hrev =>
    obtain ⟨K, -, rfl, -⟩ := hF.of_capRevoke hrev
    exact Nat.le_refl _
  | _ => exact Nat.le_refl _

theorem issued_of_handle {reply : CapReply} (h : handle mac s req = some (s', reply))
    (ht : reply.token = some t) :
    (∃ localPort type resourceId ops mem, req = .acquire localPort type resourceId ops mem ∧
      Acquired mac s localPort type resourceId ops s' t) ∨
    ∃ parent reducedOps mem, req = .derive parent reducedOps mem ∧
      Derived mac s (UrosCap.decode parent) reducedOps s' t := by
  cases req with
  | acquire localPort type resourceId ops mem =>
    simp only [handle, Option.some.injEq] at h
    cases hok : capAcquire mac s localPort type resourceId ops capTokenMax mem with
    | error err =>
      simp only [hok, issueReply, Prod.mk.injEq] at h
      simp [← h.2, CapReply.ofStatus] at ht
    | ok r =>
      simp only [hok, issueReply, Prod.mk.injEq] at h
      simp only [← h.2, Option.some.injEq] at ht
      rw [← h.1, ← ht]
      exact .inl ⟨_, _, _, _, _, rfl, acquired_of_ok hok⟩
  | derive parent reducedOps mem =>
    simp only [handle, Option.some.injEq] at h
    cases hok : capDerive mac s parent reducedOps capTokenMax mem with
    | error err =>
      simp only [hok, issueReply, Prod.mk.injEq] at h
      simp [← h.2, CapReply.ofStatus] at ht
    | ok r =>
      simp only [hok, issueReply, Prod.mk.injEq] at h
      simp only [← h.2, Option.some.injEq] at ht
      rw [← h.1, ← ht]
      exact .inr ⟨_, _, _, rfl, (derived_of_ok hok).2⟩
  | revoke capId deliver =>
    obtain ⟨⟨status, s₂, sent⟩, -, heq⟩ := Option.map_eq_some_iff.mp h
    simp only [Prod.mk.injEq] at heq
    simp [← heq.2] at ht
  | verify token op resourceId =>
    simp only [handle, Option.some.injEq, Prod.mk.injEq] at h
    simp [← h.2, CapReply.ofStatus] at ht
  | subscribeRevoke notifyPort =>
    simp only [handle, Option.some.injEq, Prod.mk.injEq] at h
    simp [← h.2, CapReply.ofStatus] at ht
  | provisionTask manifest ans =>
    simp only [handle, Option.some.injEq, Prod.mk.injEq] at h
    simp [← h.2] at ht

structure CapIssue where
  token : UrosCap
  before : CapServer

structure CapHistory where
  server : CapServer
  issues : List CapIssue

namespace CapHistory

def init (key : Digest) (capPort : MachPort) : CapHistory := ⟨CapServer.init key capPort, []⟩

def record (mac : Mac) (h : CapHistory) (req : CapRequest) : Option CapHistory :=
  (handle mac h.server req).map fun (s', reply) =>
    ⟨s', (reply.token.map fun t => ⟨t, h.server⟩).toList ++ h.issues⟩

/-- Nobody but the server signs: a token presented to `cap_derive` that passes the
signature check has the signed bytes of a token handed out before. -/
def Unforged (mac : Mac) (h : CapHistory) : CapRequest → Prop
  | .derive parent _ _ =>
    capVerifyHmac mac h.server.key (UrosCap.decode parent) = true →
      ∃ i ∈ h.issues, i.token.signedBytes = (UrosCap.decode parent).signedBytes
  | _ => True

def ChildOf (h : CapHistory) (a b : CapIssue) : Prop :=
  a ∈ h.issues ∧ b ∈ h.issues ∧ b.token.parentCapId = a.token.capId

inductive Lineage (h : CapHistory) (a : CapIssue) : CapIssue → Nat → Prop where
  | refl (ha : a ∈ h.issues) : Lineage h a a 0
  | child {b c n} (hab : Lineage h a b n) (hbc : h.ChildOf b c) : Lineage h a c (n + 1)

end CapHistory

def CapIssue.IsRoot (i : CapIssue) : Prop := i.token.parentCapId = 0

def CapServer.Derivable (s : CapServer) (id : UInt64) : Prop :=
  ∃ e, s.find id = some e ∧ e.delegable ≠ 0 ∧ e.revoked = 0

structure CapHistory.Attenuated (h : CapHistory) (i : CapIssue) : Prop where
  ops : ∀ a n, h.Lineage a i n → i.token.allowedOps &&& ~~~a.token.allowedOps = 0
  rooted : ∃ r, r.IsRoot ∧ h.Lineage r i i.token.depth.toNat
  root : ∀ r n, r.IsRoot → h.Lineage r i n →
    i.token.resourceType = r.token.resourceType ∧
      i.token.resourceId = r.token.resourceId ∧ i.token.depth.toNat = n
  depth_le : i.token.depth.toNat ≤ capMaxDepth
  derivable : ∀ a b n, h.ChildOf a b → h.Lineage b i n → b.before.Derivable a.token.capId

structure CapIssue.DerivedFrom (i p : CapIssue) : Prop where
  parent : i.token.parentCapId = p.token.capId
  ops : i.token.allowedOps &&& ~~~p.token.allowedOps = 0
  type : i.token.resourceType = p.token.resourceType
  resource : i.token.resourceId = p.token.resourceId
  depth : i.token.depth.toNat = p.token.depth.toNat + 1
  depth_le : i.token.depth.toNat ≤ capMaxDepth
  derivable : i.before.Derivable p.token.capId

structure CapHistory.Recorded (h : CapHistory) : Prop where
  valid : Valid h.server
  nodup : (h.issues.map fun i => i.token.capId).Nodup
  below : ∀ i ∈ h.issues, i.token.capId.toNat < h.server.nextCapId.toNat
  ne_zero : ∀ i ∈ h.issues, i.token.capId ≠ 0
  entry : ∀ i ∈ h.issues, ∃ e, h.server.find i.token.capId = some e ∧
    e.grant = i.token.grant
  origin : ∀ i ∈ h.issues,
    (i.IsRoot ∧ i.token.depth = 0) ∨ ∃ p ∈ h.issues, i.DerivedFrom p

namespace CapHistory

variable {h h' : CapHistory} {a b i j p : CapIssue} {n : Nat}

theorem Recorded.init (key : Digest) (capPort : MachPort) :
    (CapHistory.init key capPort).Recorded where
  valid := Valid.init key capPort
  nodup := by simp [CapHistory.init]
  below := by simp [CapHistory.init]
  ne_zero := by simp [CapHistory.init]
  entry := by simp [CapHistory.init]
  origin := by simp [CapHistory.init]

theorem Recorded.served (hr : h.Recorded) (hreq : Served mac h.server req s') :
    (⟨s', h.issues⟩ : CapHistory).Recorded where
  valid := hr.valid.served hreq
  nodup := hr.nodup
  below i hi := Nat.lt_of_lt_of_le (hr.below i hi) (hreq.nextCapId_le hr.valid)
  ne_zero := hr.ne_zero
  entry i hi := by
    obtain ⟨e, he, hgrant⟩ := hr.entry i hi
    obtain ⟨e', he', hgrant', -⟩ := hreq.find_some hr.valid he
    exact ⟨e', he', hgrant'.trans hgrant⟩
  origin := hr.origin

theorem Recorded.push (hr : h.Recorded) (hreq : Served mac h.server req s')
    (hid : i.token.capId = h.server.nextCapId) (hsucc : s'.nextCapId = h.server.nextCapId + 1)
    (hfind : s'.find h.server.nextCapId = some i.token)
    (horigin : (i.IsRoot ∧ i.token.depth = 0) ∨ ∃ p ∈ h.issues, i.DerivedFrom p) :
    (⟨s', i :: h.issues⟩ : CapHistory).Recorded := by
  obtain ⟨F, hF⟩ := hr.valid.forest
  have hold := hr.served hreq
  refine ⟨hold.valid, ?_, ?_, ?_, ?_, ?_⟩
  · rw [List.map_cons, List.nodup_cons]
    refine ⟨fun hmem => ?_, hr.nodup⟩
    obtain ⟨j, hj, hji⟩ := List.mem_map.mp hmem
    have hlt := hr.below j hj
    rw [hji, hid] at hlt
    exact Nat.lt_irrefl _ hlt
  · rw [List.forall_mem_cons]
    refine ⟨?_, hold.below⟩
    rw [hid, hsucc, hF.next_succ]
    exact Nat.lt_succ_self _
  · rw [List.forall_mem_cons]
    exact ⟨hid ▸ hF.next_ne_zero, hold.ne_zero⟩
  · rw [List.forall_mem_cons]
    exact ⟨⟨i.token, hid ▸ hfind, rfl⟩, hold.entry⟩
  · have hmono : ∀ j : CapIssue, (∃ p ∈ h.issues, j.DerivedFrom p) →
        ∃ p ∈ i :: h.issues, j.DerivedFrom p := by
      rintro j ⟨p, hp, hjp⟩
      exact ⟨p, List.mem_cons_of_mem _ hp, hjp⟩
    rw [List.forall_mem_cons]
    exact ⟨horigin.imp_right (hmono i), fun j hj => (hold.origin j hj).imp_right (hmono j)⟩

theorem Recorded.derivedFrom (hr : h.Recorded) {parent : UrosCap} {reducedOps : UInt64}
    (hd : Derived mac h.server parent reducedOps s' t) (hp : p ∈ h.issues)
    (hbytes : p.token.signedBytes = parent.signedBytes) :
    CapIssue.DerivedFrom ⟨t, h.server⟩ p := by
  obtain ⟨e, he, herev, rfl⟩ := hd.entry
  have hparent := UrosCap.eq_of_signedBytes hbytes
  have hid : p.token.capId = parent.capId := by rw [hparent]
  have hdelegable : p.token.delegable = parent.delegable := by rw [hparent]
  have hdepth : (parent.depth + 1).toNat = parent.depth.toNat + 1 := by
    have hle := hd.depth
    rw [UInt8.toNat_add]
    simp only [capMaxDepth, UInt8.toNat_one] at hle ⊢
    omega
  refine ⟨hid.symm, ?_, ?_, ?_, ?_, ?_, e, ?_, ?_, herev⟩
  · rw [hparent]
    exact hd.ops
  · rw [hparent]
    rfl
  · rw [hparent]
    rfl
  · rw [hparent]
    exact hdepth
  · exact Nat.le_trans (Nat.le_of_eq hdepth) hd.depth
  · rw [hid]
    exact he
  · obtain ⟨e', he', hgrant⟩ := hr.entry p hp
    have hee : e' = e := Option.some.inj ((hid ▸ he').symm.trans he)
    have hsame : e.delegable = p.token.delegable := hee ▸ delegable_of_grant hgrant
    rw [hsame, hdelegable]
    exact hd.delegable

theorem Recorded.record (hr : h.Recorded) (hreq : h.Unforged mac req)
    (hstep : h.record mac req = some h') : h'.Recorded := by
  obtain ⟨⟨s', reply⟩, hhandle, rfl⟩ := Option.map_eq_some_iff.mp hstep
  obtain ⟨F, hF⟩ := hr.valid.forest
  have hserved : Served mac h.server req s' :=
    served_of_serve (by rw [serve, hhandle]; rfl)
  dsimp only
  cases htoken : reply.token with
  | none => exact hr.served hserved
  | some t =>
    simp only [Option.map_some, Option.toList_some, List.singleton_append]
    rcases issued_of_handle hhandle htoken with
      ⟨localPort, type, resourceId, ops, mem, -, ha⟩ | ⟨parent, reducedOps, mem, rfl, hd⟩
    · have htok := ha.token
      refine hr.push hserved ?_ (by rw [ha.state]; rfl) ?_ (.inl ⟨?_, ?_⟩)
      · rw [htok]
        rfl
      · rw [ha.find, if_pos rfl]
      · show t.parentCapId = 0
        rw [htok]
        rfl
      · show t.depth = 0
        rw [htok]
        rfl
    · obtain ⟨p, hp, hbytes⟩ := hreq hd.hmac
      obtain ⟨e, he, -, ht⟩ := hd.entry
      have hne : h.server.nextCapId ≠ (UrosCap.decode parent).capId := by
        intro heq
        exact hF.next_not_mem ((hF.mem_iff _).mpr (by rw [heq, he]; rfl))
      refine hr.push hserved (by rw [ht]; rfl) (by rw [hd.state]; rfl) ?_
        (.inr ⟨p, hp, hr.derivedFrom hd hp hbytes⟩)
      rw [hF.find_derived hd he, if_neg hne, if_pos rfl]

theorem Recorded.eq_of_capId (hr : h.Recorded) (hi : i ∈ h.issues) (hj : j ∈ h.issues)
    (hid : i.token.capId = j.token.capId) : i = j :=
  List.inj_on_of_nodup_map hr.nodup hi hj hid

theorem Recorded.not_childOf_root (hr : h.Recorded) (hb : b.IsRoot) : ¬h.ChildOf a b := by
  rintro ⟨ha, -, hab⟩
  exact hr.ne_zero a ha (hab.symm.trans hb)

theorem Recorded.childOf (hr : h.Recorded) (hab : h.ChildOf a b) : b.DerivedFrom a := by
  rcases hr.origin b hab.2.1 with ⟨hroot, -⟩ | ⟨p, hp, hbp⟩
  · exact absurd hab (hr.not_childOf_root hroot)
  · have hpa : p = a := hr.eq_of_capId hp hab.1 (hbp.parent.symm.trans hab.2.2)
    exact hpa ▸ hbp

theorem Recorded.depth_le (hr : h.Recorded) (hi : i ∈ h.issues) :
    i.token.depth.toNat ≤ capMaxDepth := by
  rcases hr.origin i hi with ⟨-, hzero⟩ | ⟨p, -, hip⟩
  · rw [hzero]
    exact Nat.zero_le _
  · exact hip.depth_le

theorem Recorded.depth_of_root (hr : h.Recorded) (hi : i ∈ h.issues) (hroot : i.IsRoot) :
    i.token.depth.toNat = 0 := by
  rcases hr.origin i hi with ⟨-, hzero⟩ | ⟨p, hp, hip⟩
  · rw [hzero]
    rfl
  · exact absurd ⟨hp, hi, hip.parent⟩ (hr.not_childOf_root hroot)

theorem Recorded.lineage_ops (hr : h.Recorded) (hab : h.Lineage a b n) :
    b.token.allowedOps &&& ~~~a.token.allowedOps = 0 := by
  induction hab with
  | refl _ => exact and_not_self _
  | child _ hbc ih => exact and_not_trans (hr.childOf hbc).ops ih

theorem Recorded.lineage_root (hr : h.Recorded) (ha : a.IsRoot) (hab : h.Lineage a b n) :
    b.token.resourceType = a.token.resourceType ∧
      b.token.resourceId = a.token.resourceId ∧ b.token.depth.toNat = n := by
  induction hab with
  | refl hmem => exact ⟨rfl, rfl, hr.depth_of_root hmem ha⟩
  | child _ hbc ih =>
    obtain ⟨htype, hresource, hdepth⟩ := ih
    have hc := hr.childOf hbc
    exact ⟨hc.type.trans htype, hc.resource.trans hresource, hc.depth.trans (by rw [hdepth])⟩

theorem Recorded.exists_root (hr : h.Recorded) (hi : i ∈ h.issues) :
    ∃ r, r.IsRoot ∧ h.Lineage r i i.token.depth.toNat := by
  generalize hn : i.token.depth.toNat = n
  induction n generalizing i with
  | zero =>
    rcases hr.origin i hi with ⟨hroot, -⟩ | ⟨p, -, hip⟩
    · exact ⟨i, hroot, .refl hi⟩
    · have := hip.depth
      omega
  | succ n ih =>
    rcases hr.origin i hi with ⟨-, hzero⟩ | ⟨p, hp, hip⟩
    · simp [hzero] at hn
    · have hdepth := hip.depth
      obtain ⟨r, hroot, hrp⟩ := ih hp (by omega)
      exact ⟨r, hroot, hrp.child ⟨hp, hi, hip.parent⟩⟩

theorem Recorded.attenuated (hr : h.Recorded) (hi : i ∈ h.issues) : h.Attenuated i where
  ops _ _ hai := hr.lineage_ops hai
  rooted := hr.exists_root hi
  root _ _ hroot hri := hr.lineage_root hroot hri
  depth_le := hr.depth_le hi
  derivable _ _ _ hab _ := (hr.childOf hab).derivable

end CapHistory

theorem star_record (mac : Mac) (key : Digest) (capPort : MachPort) :
    ∃ h, runSteps (CapHistory.record mac) (CapHistory.init key capPort)
        (starRequests mac key 1) = some h ∧ h.issues.length = 2 ∧
      StepsMeet (CapHistory.record mac) (CapHistory.Unforged mac)
        (CapHistory.init key capPort) (starRequests mac key 1) := by
  obtain ⟨s₁, t₁, hok, ha⟩ := @capAcquire_ok mac (CapServer.init key capPort) 0 4 0 0 rfl
    (show 0 + capEntrySize ≤ 2 ^ 32 by decide)
  have ht₁ : t₁ = starRoot mac key := ha.token
  have hkey : s₁.key = key := by rw [ha.state]; rfl
  obtain ⟨s₂, t₂, hok₂, -⟩ := @capDerive_ok mac s₁ (starRoot mac key) t₁ 0
    (by rw [hkey]; exact capVerifyHmac_capSign) rfl (by decide : (1 : UInt8) ≠ 0)
    (by decide : (0 : UInt8).toNat + 1 ≤ capMaxDepth) (by simp)
    (by rw [ha.find]; rfl) (by rw [ht₁]; rfl)
    (by rw [ha.state]; exact (by decide : 0 + capEntrySize + capEntrySize ≤ 2 ^ 32))
  have hfirst : (CapHistory.init key capPort).record mac (.acquire 0 4 0 0 true) =
      some ⟨s₁, [⟨t₁, CapServer.init key capPort⟩]⟩ := by
    simp [CapHistory.record, CapHistory.init, handle, hok, issueReply]
  have hsecond : CapHistory.record mac ⟨s₁, [⟨t₁, CapServer.init key capPort⟩]⟩
      (.derive (starRoot mac key).encode 0 true) =
      some ⟨s₂, [⟨t₂, s₁⟩, ⟨t₁, CapServer.init key capPort⟩]⟩ := by
    simp [CapHistory.record, handle, hok₂, issueReply]
  refine ⟨_, runSteps_cons.mpr ⟨_, hfirst, runSteps_cons.mpr ⟨_, hsecond, rfl⟩⟩, rfl,
    trivial, ?_⟩
  intro h' hh'
  cases hfirst.symm.trans hh'
  refine ⟨fun _ => ⟨_, List.mem_singleton.mpr rfl, ?_⟩, fun _ _ => trivial⟩
  rw [ht₁, UrosCap.decode_encode]

/-- Whatever clients request, in whatever order: as long as they cannot sign, the
issued tokens have pairwise distinct ids and each is attenuated. -/
theorem capTokens_attenuate (mac : Mac) (key : Digest) (capPort : MachPort)
    (reqs : List CapRequest) (h : CapHistory)
    (hforge : StepsMeet (CapHistory.record mac) (CapHistory.Unforged mac)
      (CapHistory.init key capPort) reqs)
    (hrun : runSteps (CapHistory.record mac) (CapHistory.init key capPort) reqs = some h) :
    (h.issues.map fun i => i.token.capId).Nodup ∧ ∀ i ∈ h.issues, h.Attenuated i := by
  have hr : h.Recorded := runSteps_invariant_of_guard
    (fun _ _ _ hr hreq hstep => hr.record hreq hstep) (.init key capPort) hforge hrun
  exact ⟨hr.nodup, fun i hi => hr.attenuated hi⟩

theorem capTokens_attenuate_child :
    ∃ h, runSteps (CapHistory.record portableHmac) (CapHistory.init (Vector.replicate 32 0) 1)
        (starRequests portableHmac (Vector.replicate 32 0) 1) = some h ∧
      h.issues.length = 2 ∧
      (h.issues.map fun i => i.token.capId).Nodup ∧ ∀ i ∈ h.issues, h.Attenuated i := by
  obtain ⟨h, hrun, hlen, hmeet⟩ := star_record portableHmac (Vector.replicate 32 0) 1
  exact ⟨h, hrun, hlen, capTokens_attenuate portableHmac _ 1 _ h hmeet hrun⟩

end Uros.Cap
