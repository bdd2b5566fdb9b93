import Mathlib.Data.List.Count
import Mathlib.Data.List.Nodup
import Uros.Cap.Delegation

/-!
Cascade revocation.

`capRevoke_eq` evaluates `cap_revoke` on every state that holds a delegation
forest: the two loops run along `Forest.visit`, which drops what does not fit on
the stack of 17 slots, so the cascade is complete exactly when the tree below the
revoked id fits.
-/

namespace Uros.Cap

open Uros.Foundation

variable {mac : Mac} {key : Digest} {deliver : Notice → Bool} {s s' : CapServer}
  {F K : Forest UInt64} {id c : UInt64} {p : MachPort}

theorem find_actMark (w : CapTable × Nat) (v u : UInt64) :
    (markWalker mac key).find ((markWalker mac key).act w v) u =
      if u = v then (capTableFindById w.1 v).map (markRevoked mac key)
      else capTableFindById w.1 u :=
  find_capTableMarkRevoked

theorem markWalker_framed : (markWalker mac key).Framed where
  first w v u := by
    simp only [Walker.firstOf, find_actMark]
    by_cases huv : u = v
    · subst huv
      simp only [if_true, Option.map_map]
      rfl
    · simp only [huv, if_false]
      rfl
  next w v u := by
    simp only [Walker.nextOf, find_actMark]
    by_cases huv : u = v
    · subst huv
      simp only [if_true, Option.map_map]
      rfl
    · simp only [huv, if_false]
      rfl
  skipped w v u huv := by
    simp only [Walker.skipped, find_actMark, huv, if_false]
    rfl

def markAll (mac : Mac) (key : Digest) (table : CapTable) (ids : List UInt64) : CapTable :=
  ids.foldl (capTableMarkRevoked mac key) table

theorem foldl_actMark (ids : List UInt64) (table : CapTable) (n : Nat) :
    ids.foldl (markWalker mac key).act (table, n) =
      (markAll mac key table ids, n + ids.length) := by
  induction ids generalizing table n with
  | nil => rfl
  | cons v ids ih =>
    simp only [List.foldl_cons, List.length_cons]
    rw [show (markWalker mac key).act (table, n) v =
      (capTableMarkRevoked mac key table v, n + 1) from rfl, ih]
    simp only [markAll, List.foldl_cons, Prod.mk.injEq, true_and]
    omega

theorem find_markAll (ids : List UInt64) (table : CapTable) (c : UInt64) :
    capTableFindById (markAll mac key table ids) c =
      if c ∈ ids then (capTableFindById table c).map (markRevoked mac key)
      else capTableFindById table c := by
  induction ids generalizing table with
  | nil => simp [markAll]
  | cons v ids ih =>
    have hstep : markAll mac key table (v :: ids) =
        markAll mac key (capTableMarkRevoked mac key table v) ids := rfl
    rw [hstep, ih, find_capTableMarkRevoked]
    by_cases hcv : c = v
    · subst hcv
      by_cases hmem : c ∈ ids
      · simp only [hmem, if_true, List.mem_cons, true_or, Option.map_map]
        cases capTableFindById table c <;> rfl
      · simp [hmem]
    · simp [hcv]

theorem revokeSubscribersRemoveAt_append (front back : List MachPort) (port : MachPort) :
    ∃ rest, rest.Perm back ∧
      revokeSubscribersRemoveAt (front ++ port :: back) front.length = front ++ rest := by
  have hset : ∀ x, (front ++ port :: back).set front.length x = front ++ x :: back := by
    intro x
    simp
  unfold revokeSubscribersRemoveAt
  rw [hset]
  cases hback : back.reverse with
  | nil =>
    obtain rfl : back = [] := by simpa using hback
    exact ⟨[], .refl _, by simp⟩
  | cons last rev =>
    obtain rfl : back = rev.reverse ++ [last] := by
      rw [← List.reverse_reverse back, hback, List.reverse_cons]
    have hlast : (front ++ port :: (rev.reverse ++ [last])).getLastD machPortNull = last := by
      rw [show front ++ port :: (rev.reverse ++ [last]) =
        (front ++ port :: rev.reverse) ++ [last] by simp, List.getLastD_concat]
    refine ⟨last :: rev.reverse, (List.perm_append_singleton last _).symm, ?_⟩
    rw [hlast, show front ++ last :: (rev.reverse ++ [last]) =
      (front ++ last :: rev.reverse) ++ [last] by simp, List.dropLast_concat]

theorem fanoutLoop_append (capId : UInt64) (fuel : Nat) (front back : List MachPort)
    (sent : List Notice) (hfuel : back.length ≤ fuel) :
    ∃ kept, kept.Perm (back.filter fun port => deliver ⟨port, capId⟩) ∧
      fanoutLoop deliver capId fuel front.length ⟨front ++ back, sent⟩ =
        ⟨front ++ kept, sent ++ kept.map fun port => ⟨port, capId⟩⟩ := by
  induction fuel generalizing front back sent with
  | zero =>
    obtain rfl : back = [] := List.length_eq_zero_iff.mp (Nat.le_zero.mp hfuel)
    exact ⟨[], .refl _, by simp [fanoutLoop]⟩
  | succ fuel ih =>
    cases back with
    | nil => exact ⟨[], .refl _, by simp [fanoutLoop]⟩
    | cons port back =>
      simp only [List.length_cons, Nat.add_le_add_iff_right] at hfuel
      have hget : (front ++ port :: back)[front.length]? = some port := by simp
      by_cases hdel : deliver ⟨port, capId⟩ = true
      · obtain ⟨kept, hperm, hrun⟩ := ih (front ++ [port]) back
          (sent ++ [⟨port, capId⟩]) hfuel
        refine ⟨port :: kept, ?_, ?_⟩
        · simpa [List.filter_cons, hdel] using hperm
        · simp only [List.length_append, List.length_cons, List.length_nil,
            List.append_assoc, List.singleton_append] at hrun
          simp only [fanoutLoop, hget, hdel, if_true, hrun, List.map_cons]
      · obtain ⟨rest, hrest, hremove⟩ :=
          revokeSubscribersRemoveAt_append front back port
        obtain ⟨kept, hperm, hrun⟩ := ih front rest sent
          (by rw [hrest.length_eq]; exact hfuel)
        refine ⟨kept, ?_, ?_⟩
        · simpa [List.filter_cons, hdel] using hperm.trans (hrest.filter _)
        · simp only [fanoutLoop, hget, hdel, hremove]
          exact hrun

theorem fanoutRevokeNotify_spec (capId : UInt64) (f : Fanout) :
    ∃ kept, kept.Perm (f.subscribers.filter fun port => deliver ⟨port, capId⟩) ∧
      fanoutRevokeNotify deliver capId f =
        ⟨kept, f.sent ++ kept.map fun port => ⟨port, capId⟩⟩ := by
  obtain ⟨kept, hperm, hrun⟩ := fanoutLoop_append capId f.subscribers.length []
    f.subscribers f.sent (Nat.le_refl _)
  exact ⟨kept, hperm, hrun⟩

def notifyAll (deliver : Notice → Bool) (f : Fanout) (ids : List UInt64) : Fanout :=
  ids.foldl (fun f id => fanoutRevokeNotify deliver id f) f

theorem count_notifyAll (ids : List UInt64) (f : Fanout)
    (hlive : ∀ c, deliver ⟨p, c⟩ = true) (c : UInt64) :
    (notifyAll deliver f ids).subscribers.count p = f.subscribers.count p ∧
      (notifyAll deliver f ids).sent.count ⟨p, c⟩ =
        f.sent.count ⟨p, c⟩ + ids.count c * f.subscribers.count p := by
  induction ids generalizing f with
  | nil => simp [notifyAll]
  | cons v ids ih =>
    obtain ⟨kept, hperm, hf⟩ := @fanoutRevokeNotify_spec deliver v f
    have hkept : kept.count p = f.subscribers.count p := by
      rw [hperm.count_eq]
      exact List.count_filter (hlive v)
    have hstep : notifyAll deliver f (v :: ids) =
        notifyAll deliver (fanoutRevokeNotify deliver v f) ids := rfl
    obtain ⟨hsub, hsent⟩ := ih (fanoutRevokeNotify deliver v f)
    rw [hstep, hsub, hsent, hf]
    refine ⟨hkept, ?_⟩
    have hmap : (kept.map fun port => (⟨port, v⟩ : Notice)).count ⟨p, c⟩ =
        if v = c then kept.count p else 0 := by
      by_cases hvc : v = c
      · subst hvc
        rw [if_pos rfl]
        exact List.count_map_of_injective kept (fun port => (⟨port, v⟩ : Notice))
          (fun a b hab => by simpa using hab) p
      · rw [if_neg hvc, List.count_eq_zero]
        simp [hvc]
    simp only [List.count_append, hmap, hkept, List.count_cons, beq_iff_eq]
    by_cases hvc : v = c <;> simp [hvc, Nat.add_mul]
    omega

namespace CapServer

def isRevoked (s : CapServer) (id : UInt64) : Bool := (s.find id).any fun t => t.revoked ≠ 0

theorem revoked_iff : s.Revoked id ↔ s.isRevoked id = true := by
  simp only [Revoked, isRevoked, Option.any_eq_true, decide_eq_true_eq]

theorem isRevoked_eq_false (h : ∀ c, ¬s.Revoked c) : s.isRevoked = fun _ => false := by
  funext c
  have := h c
  rw [revoked_iff] at this
  simpa using this

def cascadeMarked (s : CapServer) (id : UInt64) (K : Forest UInt64) : List UInt64 :=
  (Forest.cons id K .nil).visit (capMaxDepth + 1) s.isRevoked 0

def cascadeNotified (id : UInt64) (K : Forest UInt64) : List UInt64 :=
  (Forest.cons id K .nil).visit (capMaxDepth + 1) (fun _ => false) 0

def cascadeFanout (deliver : Notice → Bool) (s : CapServer) (id : UInt64)
    (K : Forest UInt64) : Fanout :=
  if 0 < s.subscribers.length ∧ 0 < (s.cascadeMarked id K).length then
    notifyAll deliver ⟨s.subscribers, []⟩ (cascadeNotified id K)
  else ⟨s.subscribers, []⟩

def cascadeResult (mac : Mac) (deliver : Notice → Bool) (s : CapServer) (id : UInt64)
    (K : Forest UInt64) : CapServer :=
  { s with
    table := markAll mac s.key s.table (s.cascadeMarked id K)
    subscribers := (s.cascadeFanout deliver id K).subscribers }

end CapServer

open CapServer

theorem notifyWalker_framed : (notifyWalker deliver).Framed where
  first _ _ _ := rfl
  next _ _ _ := rfl
  skipped _ _ _ _ := rfl

theorem foldl_actNotify (ids : List UInt64) (table : CapTable) (f : Fanout) :
    ids.foldl (notifyWalker deliver).act (table, f) = (table, notifyAll deliver f ids) := by
  induction ids generalizing f with
  | nil => rfl
  | cons v ids ih => exact ih (fanoutRevokeNotify deliver v f)

theorem find_links_markAll (ids : List UInt64) (v : UInt64) (f : UrosCap → UInt64)
    (hf : ∀ t, f (markRevoked mac key t) = f t) (table : CapTable) :
    (capTableFindById (markAll mac key table ids) v).map f =
      (capTableFindById table v).map f := by
  rw [find_markAll]
  split
  · rw [Option.map_map]
    exact congrArg (Option.map · _) (funext hf)
  · rfl

theorem find_cascadeResult (c : UInt64) :
    (s.cascadeResult mac deliver id K).find c =
      if c ∈ s.cascadeMarked id K then (s.find c).map (markRevoked mac s.key)
      else s.find c :=
  find_markAll _ _ c

namespace Delegates

variable (h : Delegates s F) (hK : F.kidsOf id = some K)
include h hK

theorem cascade_nodup : (Forest.cons id K .nil).nodes.Nodup := by
  simpa [Forest.nodes] using h.nodup.sublist (Forest.sublist_of_kidsOf hK)

theorem cascade_null : 0 ∉ (Forest.cons id K .nil).nodes := by
  intro hmem
  refine h.null ((Forest.sublist_of_kidsOf hK).subset ?_)
  simpa [Forest.nodes] using hmem

theorem cascade_length_le : (Forest.cons id K .nil).nodes.length ≤ s.nextCapId.toNat := by
  have hle := (Forest.sublist_of_kidsOf hK).length_le
  rw [h.issued]
  simp only [Forest.nodes, List.append_nil, List.length_cons] at hle ⊢
  omega

theorem cascade_linked :
    (Forest.cons id K .nil).Linked 0 s.firstChild s.nextSibling := by
  obtain ⟨hfirst, hchain, hlinked⟩ := h.linked.kidsOf hK
  exact ⟨hfirst, hchain, hlinked, trivial⟩

theorem walk_cascade {σ : Type} (w : Walker σ UrosCap UInt64) (w₀ : σ)
    (skip : UInt64 → Bool) (hw : w.Framed) (hnull : w.null = 0) (hcap : w.cap = capMaxDepth + 1)
    (hfirst : ∀ v, w.firstOf w₀ v = s.firstChild v)
    (hnext : ∀ v, w.nextOf w₀ v = s.nextSibling v)
    (hskip : ∀ v, w.skipped w₀ v = skip v) :
    w.run s.nextCapId.toNat w₀ [id] =
      some (((Forest.cons id K .nil).visit (capMaxDepth + 1) skip 0).foldl w.act w₀) := by
  have hlinked : (Forest.cons id K .nil).Linked w.null (w.firstOf w₀) (w.nextOf w₀) := by
    rw [hnull]
    exact (h.cascade_linked hK).congr (fun v _ => hfirst v) fun v _ => hnext v
  obtain ⟨steps, hle, hrun⟩ := Walker.run_forest hw hlinked
    (by rw [hnull]; exact h.cascade_null hK) (h.cascade_nodup hK) (fun v _ => hskip v) []
  have hfuel : s.nextCapId.toNat - steps + steps = s.nextCapId.toNat :=
    Nat.sub_add_cancel (Nat.le_trans hle (h.cascade_length_le hK))
  have hstack : ((Forest.cons id K .nil).roots.take (w.cap - ([] : List UInt64).length)).reverse
      ++ [] = [id] := by
    simp [hcap, Forest.roots]
  have hrun := hrun (s.nextCapId.toNat - steps)
  rw [hfuel, hstack, hcap] at hrun
  rw [hrun]
  cases s.nextCapId.toNat - steps <;> rfl

theorem capRevoke_eq :
    capRevoke mac deliver s id =
      some (.success, s.cascadeResult mac deliver id K, (s.cascadeFanout deliver id K).sent) := by
  have hmem : id ∈ F.nodes := (Forest.sublist_of_kidsOf hK).subset (by simp)
  obtain ⟨t, ht⟩ := Option.isSome_iff_exists.mp ((h.mem_iff id).mp hmem)
  have hmark : (markWalker mac s.key).run s.nextCapId.toNat (s.table, 0) [id] =
      some (markAll mac s.key s.table (s.cascadeMarked id K),
        0 + (s.cascadeMarked id K).length) := by
    rw [← foldl_actMark]
    exact h.walk_cascade hK (markWalker mac s.key) (s.table, 0) s.isRevoked
      markWalker_framed rfl rfl (fun _ => rfl) (fun _ => rfl) fun _ => rfl
  have hnotify : (notifyWalker deliver).run s.nextCapId.toNat
      (markAll mac s.key s.table (s.cascadeMarked id K), ⟨s.subscribers, []⟩) [id] =
      some (markAll mac s.key s.table (s.cascadeMarked id K),
        notifyAll deliver ⟨s.subscribers, []⟩ (cascadeNotified id K)) := by
    rw [← foldl_actNotify]
    refine h.walk_cascade hK (notifyWalker deliver) _ (fun _ => false) notifyWalker_framed
      rfl rfl (fun v => ?_) (fun v => ?_) fun v => ?_
    · exact find_links_markAll _ v _ (fun _ => rfl) _
    · exact find_links_markAll _ v _ (fun _ => rfl) _
    · simp [Walker.skipped, notifyWalker]
  unfold capRevoke
  simp only [ht, hmark, Option.bind_some, Nat.zero_add]
  unfold cascadeResult cascadeFanout
  split
  · simp only [hnotify, Option.bind_some]
  · rfl

theorem revoked_cascadeResult_iff {c : UInt64} :
    (s.cascadeResult mac deliver id K).Revoked c ↔
      c ∈ s.cascadeMarked id K ∨ s.Revoked c := by
  unfold CapServer.Revoked
  rw [find_cascadeResult]
  by_cases hmem : c ∈ s.cascadeMarked id K
  · have hnode : c ∈ F.nodes := by
      refine (Forest.sublist_of_kidsOf hK).subset ?_
      simpa [Forest.nodes] using Forest.mem_nodes_of_mem_visit hmem
    obtain ⟨t, ht⟩ := Option.isSome_iff_exists.mp ((h.mem_iff c).mp hnode)
    simp [hmem, ht, markRevoked]
  · simp [hmem]

omit hK in
theorem cascade : Delegates (s.cascadeResult mac deliver id K) F := by
  refine h.congr (fun c => ?_) (fun c => ?_) (fun c => ?_) (fun c => ?_) rfl rfl
  · rw [find_cascadeResult]
    split <;> simp
  · exact find_links_markAll _ c _ (fun _ => rfl) _
  · exact find_links_markAll _ c _ (fun _ => rfl) _
  · exact find_links_markAll _ c _ (fun _ => rfl) _

theorem descends_iff {d : UInt64} : s.Descends id d ↔ d ∈ (Forest.cons id K .nil).nodes := by
  have hparent : s.IsParent = fun p d => s.parentOf d = some p := by
    funext p d
    simp [CapServer.IsParent, CapServer.parentOf]
  unfold CapServer.Descends
  rw [hparent, Forest.reachable_iff h.parented h.nodup h.null _ hK]
  · simp [Forest.nodes]
  · intro d p hp
    refine (h.mem_iff d).mpr ?_
    cases hfind : s.find d with
    | none => simp [CapServer.parentOf, hfind] at hp
    | some t => rfl

end Delegates

structure Valid (s : CapServer) : Prop where
  forest : ∃ F, Delegates s F
  subscribers : s.subscribers.Nodup

theorem Valid.init (key : Digest) (capPort : MachPort) : Valid (CapServer.init key capPort) :=
  ⟨⟨.nil, .init key capPort⟩, by simp [CapServer.init]⟩

theorem nodup_notifyAll (ids : List UInt64) (f : Fanout) (hf : f.subscribers.Nodup) :
    (notifyAll deliver f ids).subscribers.Nodup := by
  induction ids generalizing f with
  | nil => exact hf
  | cons v ids ih =>
    obtain ⟨kept, hperm, hkept⟩ := @fanoutRevokeNotify_spec deliver v f
    refine ih (fanoutRevokeNotify deliver v f) ?_
    rw [hkept]
    exact hperm.nodup_iff.mpr (hf.filter _)

theorem Delegates.of_capRevoke {sent : List Notice} (h : Delegates s F)
    (hrev : capRevoke mac deliver s id = some (.success, s', sent)) :
    ∃ K, F.kidsOf id = some K ∧ s' = s.cascadeResult mac deliver id K ∧
      sent = (s.cascadeFanout deliver id K).sent := by
  have hmem : id ∈ F.nodes := by
    rw [h.mem_iff]
    cases hfind : s.find id with
    | none => simp [capRevoke, hfind] at hrev
    | some t => rfl
  obtain ⟨K, hK⟩ := Forest.exists_kidsOf hmem
  rw [h.capRevoke_eq hK] at hrev
  simp only [Option.some.injEq, Prod.mk.injEq, true_and] at hrev
  exact ⟨K, hK, hrev.1.symm, hrev.2.symm⟩

theorem Valid.served {req : CapRequest} (h : Valid s) (hreq : Served mac s req s') :
    Valid s' := by
  obtain ⟨F, hF⟩ := h.forest
  cases hreq with
  | unchanged => exact h
  | acquired ha => exact ⟨⟨_, hF.acquire ha⟩, by rw [ha.state]; exact h.subscribers⟩
  | derived hd => exact ⟨⟨_, hF.derive hd⟩, by rw [hd.state]; exact h.subscribers⟩
  | revoked hrev =>
    obtain ⟨K, hK, rfl, -⟩ := hF.of_capRevoke hrev
    refine ⟨⟨F, hF.cascade⟩, ?_⟩
    unfold cascadeResult cascadeFanout
    dsimp only
    split
    · exact nodup_notifyAll _ _ h.subscribers
    · exact h.subscribers
  | subscribed hnew =>
    refine ⟨⟨F, hF.congr_table rfl rfl rfl⟩, ?_⟩
    rw [List.nodup_append]
    refine ⟨h.subscribers, by simp, ?_⟩
    rintro p hp q hq rfl
    exact hnew (List.mem_singleton.mp hq ▸ hp)
  | provisioned => exact ⟨⟨F, hF.congr_table rfl rfl rfl⟩, h.subscribers⟩

theorem valid_of_run {key : Digest} {capPort : MachPort} {reqs : List CapRequest}
    (hrun : runSteps (serve mac) (CapServer.init key capPort) reqs = some s) : Valid s :=
  runSteps_invariant (fun _ _ _ h hreq => h.served (served_of_serve hreq))
    (Valid.init key capPort) hrun

/-- What a cascade owes: everything below `id` is revoked, and whoever can be
reached hears of every newly revoked id exactly once. -/
structure CascadeComplete (deliver : Notice → Bool) (s s' : CapServer)
    (sent : List Notice) (id : UInt64) : Prop where
  revoked : ∀ d, s.Descends id d → s'.Revoked d
  notified : ∀ p ∈ s.subscribers, (∀ c, deliver ⟨p, c⟩ = true) →
    ∀ c, ¬s.Revoked c → s'.Revoked c → sent.count ⟨p, c⟩ = 1

def CapServer.RevokedClosed (s : CapServer) : Prop :=
  ∀ p d, s.IsParent p d → s.Revoked p → s.Revoked d

theorem cascadeComplete_of_fits (h : Delegates s F) (hK : F.kidsOf id = some K)
    (hclosed : s.RevokedClosed) (hsub : s.subscribers.Nodup)
    (hfits : (Forest.cons id K .nil).Fits (capMaxDepth + 1) 0) :
    CascadeComplete deliver s (s.cascadeResult mac deliver id K)
        (s.cascadeFanout deliver id K).sent id := by
  have hinherit : ∀ p d, s.parentOf d = some p → s.isRevoked p = true →
      s.isRevoked d = true := by
    intro p d hpd hp
    rw [← revoked_iff] at hp ⊢
    obtain ⟨t, ht, hpt⟩ := Option.map_eq_some_iff.mp hpd
    exact hclosed p d ⟨t, ht, hpt⟩ hp
  have hkids := h.parented.kidsOf hK
  have hskip : (Forest.cons id K .nil).SkipClosed s.isRevoked :=
    ⟨hkids.inherited hinherit, hkids.skipClosed hinherit, trivial⟩
  refine ⟨fun d hd => ?_, fun p hp hlive c hfresh hrev => ?_⟩
  · rw [h.revoked_cascadeResult_iff hK, revoked_iff]
    exact Forest.mem_visit_or_skip hfits hskip ((h.descends_iff hK).mp hd)
  · rw [h.revoked_cascadeResult_iff hK] at hrev
    have hmarked : c ∈ s.cascadeMarked id K := hrev.resolve_right hfresh
    have hc : c ∈ cascadeNotified id K :=
      (Forest.forall_mem_visit_iff (h.cascade_nodup hK)).mpr hfits c
        (Forest.mem_nodes_of_mem_visit hmarked)
    have hsend : 0 < s.subscribers.length ∧ 0 < (s.cascadeMarked id K).length :=
      ⟨List.length_pos_of_mem hp, List.length_pos_of_mem hmarked⟩
    have hcount := (count_notifyAll (cascadeNotified id K) ⟨s.subscribers, []⟩ hlive c).2
    have hone : (cascadeNotified id K).count c = 1 :=
      List.count_eq_one_of_mem (Forest.nodup_visit (h.cascade_nodup hK)) hc
    unfold cascadeFanout
    rw [if_pos hsend, hcount, hone, List.count_eq_one_of_mem hsub hp]
    rfl

theorem cascadeComplete_iff (h : Delegates s F) (hK : F.kidsOf id = some K)
    (hfresh : ∀ c, ¬s.Revoked c) (hsub : s.subscribers.Nodup) :
    CascadeComplete deliver s (s.cascadeResult mac deliver id K)
        (s.cascadeFanout deliver id K).sent id ↔
      (Forest.cons id K .nil).Fits (capMaxDepth + 1) 0 := by
  constructor
  · intro hcomplete
    have hskip : s.isRevoked = fun _ => false := isRevoked_eq_false hfresh
    rw [← Forest.forall_mem_visit_iff (h.cascade_nodup hK)]
    intro d hd
    have hrev := hcomplete.revoked d ((h.descends_iff hK).mpr hd)
    rw [h.revoked_cascadeResult_iff hK, cascadeMarked, hskip] at hrev
    exact hrev.resolve_right (hfresh d)
  · exact cascadeComplete_of_fits h hK (fun p _ _ hp => absurd hp (hfresh p)) hsub

theorem mem_sent_notifyAll {n : Notice} (ids : List UInt64) (f : Fanout)
    (hn : n ∈ (notifyAll deliver f ids).sent) : n ∈ f.sent ∨ n.capId ∈ ids := by
  induction ids generalizing f with
  | nil => exact .inl hn
  | cons v ids ih =>
    obtain ⟨kept, -, hf⟩ := @fanoutRevokeNotify_spec deliver v f
    rcases ih (fanoutRevokeNotify deliver v f) hn with hsent | hids
    · rw [hf] at hsent
      rcases List.mem_append.mp hsent with hold | hnew
      · exact .inl hold
      · obtain ⟨port, -, rfl⟩ := List.mem_map.mp hnew
        exact .inr (by simp)
    · exact .inr (List.mem_cons_of_mem _ hids)

theorem Delegates.descends_of_mem_sent {n : Notice} (h : Delegates s F)
    (hK : F.kidsOf id = some K) (hn : n ∈ (s.cascadeFanout deliver id K).sent) :
    s.Descends id n.capId := by
  unfold cascadeFanout at hn
  split at hn
  · rcases mem_sent_notifyAll _ _ hn with hnil | hids
    · simp at hnil
    · exact (h.descends_iff hK).mpr (Forest.mem_nodes_of_mem_visit hids)
  · simp at hn

namespace CapServer

def forestFrom (s : CapServer) : Nat → UInt64 → Forest UInt64
  | 0, _ => .nil
  | fuel + 1, id =>
    if id = 0 then .nil
    else
      .cons id (s.forestFrom fuel ((s.firstChild id).getD 0))
        (s.forestFrom fuel ((s.nextSibling id).getD 0))

def cascadeTree (s : CapServer) (id : UInt64) : Forest UInt64 :=
  .cons id (s.forestFrom s.nextCapId.toNat ((s.firstChild id).getD 0)) .nil

/-- Every node of the tree finds room for all its children on the stack, above
the siblings that still wait there. -/
def CascadeFits (s : CapServer) (id : UInt64) : Prop :=
  (s.cascadeTree id).Fits (capMaxDepth + 1) 0

end CapServer

theorem forestFrom_head {fuel : Nat} (hchain : K.Chain 0 s.nextSibling)
    (hlinked : K.Linked 0 s.firstChild s.nextSibling) (hnull : 0 ∉ K.nodes)
    (hfuel : K.nodes.length ≤ fuel) : s.forestFrom fuel (K.head 0) = K := by
  induction K generalizing fuel with
  | nil => cases fuel <;> simp [forestFrom]
  | cons v kids siblings ihk ihs =>
    simp only [Forest.nodes, List.mem_cons, List.mem_append, not_or] at hnull
    simp only [Forest.nodes, List.length_cons, List.length_append] at hfuel
    obtain ⟨hfirst, hkchain, hk, hs⟩ := hlinked
    obtain ⟨hnext, hschain⟩ := hchain
    cases fuel with
    | zero => omega
    | succ fuel =>
      simp only [forestFrom, Forest.head_cons, Ne.symm hnull.1, if_false, hfirst, hnext,
        Option.getD_some]
      rw [ihk hkchain hk hnull.2.1 (by omega), ihs hschain hs hnull.2.2 (by omega)]

theorem Delegates.cascadeTree_eq (h : Delegates s F) (hK : F.kidsOf id = some K) :
    s.cascadeTree id = .cons id K .nil := by
  obtain ⟨hfirst, hchain, hlinked⟩ := h.linked.kidsOf hK
  have hle := h.cascade_length_le hK
  have hnull := h.cascade_null hK
  simp only [Forest.nodes, List.append_nil, List.length_cons, List.mem_cons, not_or]
    at hle hnull
  unfold cascadeTree
  rw [hfirst, Option.getD_some, forestFrom_head hchain hlinked hnull.2 (by omega)]

def CapRequest.IsRevoke : CapRequest → Prop
  | .revoke .. => True
  | _ => False

theorem revoked_of_served {req : CapRequest} {c : UInt64} (hreq : Served mac s req s')
    (hno : ¬req.IsRevoke) (hvalid : Valid s) (hc : s'.Revoked c) : s.Revoked c := by
  obtain ⟨F, hF⟩ := hvalid.forest
  obtain ⟨t', ht', hrev⟩ := hc
  cases hreq with
  | unchanged => exact ⟨t', ht', hrev⟩
  | acquired ha =>
    rw [ha.find] at ht'
    split at ht'
    · cases ht'
      rw [ha.token] at hrev
      exact absurd rfl hrev
    · exact ⟨t', ht', hrev⟩
  | derived hd =>
    obtain ⟨e, he, herev, ht⟩ := hd.entry
    rw [hF.find_derived hd he] at ht'
    split_ifs at ht'
    · cases ht'
      rw [setFirstChild_revoked] at hrev
      exact absurd herev hrev
    · cases ht'
      rw [ht, capSign_revoked, childToken_revoked] at hrev
      exact absurd hd.revoked hrev
    · exact ⟨t', ht', hrev⟩
  | revoked _ => exact absurd trivial hno
  | subscribed _ => exact ⟨t', ht', hrev⟩
  | provisioned => exact ⟨t', ht', hrev⟩

theorem fresh_of_run {key : Digest} {capPort : MachPort} {reqs : List CapRequest}
    (hno : ∀ req ∈ reqs, ¬req.IsRevoke)
    (hrun : runSteps (serve mac) (CapServer.init key capPort) reqs = some s) :
    ∀ c, ¬s.Revoked c := by
  have hinit : Valid (CapServer.init key capPort) ∧
      ∀ c, ¬(CapServer.init key capPort).Revoked c := by
    refine ⟨Valid.init key capPort, ?_⟩
    rintro c ⟨t, ht, -⟩
    simp [CapServer.find, CapServer.init, capTableFindById] at ht
  have hstep : ∀ s req s', (Valid s ∧ ∀ c, ¬s.Revoked c) → ¬req.IsRevoke →
      serve mac s req = some s' → Valid s' ∧ ∀ c, ¬s'.Revoked c := by
    intro s req s' h hno hreq
    have hserved := served_of_serve hreq
    exact ⟨h.1.served hserved, fun c hc => h.2 c (revoked_of_served hserved hno h.1 hc)⟩
  exact (runSteps_invariant_of_guard hstep hinit (stepsMeet_of_forall hno) hrun).2

def starRoot (mac : Mac) (key : Digest) : UrosCap := capSign mac key (rootToken 1 4 0 0)

def starRequests (mac : Mac) (key : Digest) (n : Nat) : List CapRequest :=
  .acquire 0 4 0 0 true :: List.replicate n (.derive (starRoot mac key).encode 0 true)

def starKids : Nat → Forest UInt64
  | 0 => .nil
  | n + 1 => .cons (UInt64.ofNat (n + 2)) .nil (starKids n)

theorem length_starKids (n : Nat) : (starKids n).nodes.length = n := by
  induction n with
  | zero => rfl
  | succ n ih => simp [starKids, Forest.nodes, ih]

structure StarState (mac : Mac) (key : Digest) (n : Nat) (s : CapServer) : Prop where
  delegates : Delegates s (.cons 1 (starKids n) .nil)
  key_eq : s.key = key
  root : ∃ e, s.find 1 = some e ∧ e.revoked = 0

theorem StarState.next {n : Nat} (h : StarState mac key n s) :
    s.nextCapId = UInt64.ofNat (n + 2) := by
  have hissued := h.delegates.issued
  simp only [Forest.nodes, List.append_nil, List.length_cons, length_starKids] at hissued
  rw [← @UInt64.ofNat_toNat s.nextCapId, hissued]

theorem star_acquire (mac : Mac) (key : Digest) (capPort : MachPort) :
    ∃ s, serve mac (CapServer.init key capPort) (.acquire 0 4 0 0 true) = some s ∧
      StarState mac key 0 s := by
  obtain ⟨s, t, hok, ha⟩ := @capAcquire_ok mac (CapServer.init key capPort) 0 4 0 0 rfl
    (show 0 + capEntrySize ≤ 2 ^ 32 by decide)
  refine ⟨s, by simp [serve, handle, hok, issueReply], (Delegates.init key capPort).acquire ha,
    by rw [ha.state]; rfl, t, ?_, ?_⟩
  · rw [ha.find]
    rfl
  · rw [ha.token]
    rfl

theorem StarState.derive {n : Nat} (h : StarState mac key n s) (hn : n < 100) :
    ∃ s', serve mac s (.derive (starRoot mac key).encode 0 true) = some s' ∧
      StarState mac key (n + 1) s' := by
  obtain ⟨e, he, herev⟩ := h.root
  have hroom : s.heapUsed + capEntrySize ≤ 2 ^ 32 := by
    rw [h.delegates.heap]
    simp only [Forest.nodes, List.append_nil, List.length_cons, length_starKids, capEntrySize]
    omega
  have hhmac : capVerifyHmac mac s.key (starRoot mac key) = true := by
    rw [h.key_eq]
    exact capVerifyHmac_capSign
  obtain ⟨s', t, hok, hd⟩ := @capDerive_ok mac s (starRoot mac key) e 0
    hhmac rfl (by decide : (1 : UInt8) ≠ 0) (by decide : (0 : UInt8).toNat + 1 ≤ capMaxDepth)
    (by simp) he herev hroom
  have hone : (1 : UInt64) ∉ (starKids n).nodes := by
    have := h.delegates.nodup
    simp only [Forest.nodes, List.append_nil, List.nodup_cons] at this
    exact this.1
  have hforest : (Forest.cons 1 (starKids n) .nil).addChild 1 s.nextCapId =
      .cons 1 (starKids (n + 1)) .nil := by
    simp only [Forest.addChild, if_true, Forest.addChild_of_not_mem hone, h.next, starKids]
  have hroot : s'.find 1 = some (setFirstChild mac s.key s.nextCapId e) := by
    rw [h.delegates.find_derived hd he]
    exact if_pos rfl
  refine ⟨s', by simp [serve, handle, hok, issueReply], ?_, by rw [hd.state]; exact h.key_eq,
    _, hroot, herev⟩
  rw [← hforest]
  exact h.delegates.derive hd

theorem star_run (mac : Mac) (key : Digest) (capPort : MachPort) {n : Nat} (hn : n ≤ 100) :
    ∃ s, runSteps (serve mac) (CapServer.init key capPort) (starRequests mac key n) = some s ∧
      StarState mac key n s := by
  induction n with
  | zero =>
    obtain ⟨s, hs, hstar⟩ := star_acquire mac key capPort
    exact ⟨s, runSteps_cons.mpr ⟨s, hs, rfl⟩, hstar⟩
  | succ n ih =>
    obtain ⟨s, hrun, hstar⟩ := ih (by omega)
    obtain ⟨s', hs', hstar'⟩ := hstar.derive (by omega)
    refine ⟨s', ?_, hstar'⟩
    have hsplit : starRequests mac key (n + 1) = starRequests mac key n ++
        [.derive (starRoot mac key).encode 0 true] := by
      simp [starRequests, List.replicate_succ']
    rw [hsplit]
    exact runSteps_append.mpr ⟨s, hrun, runSteps_cons.mpr ⟨s', hs', rfl⟩⟩

theorem not_isRevoke_starRequests {n : Nat} :
    ∀ req ∈ starRequests mac key n, ¬req.IsRevoke := by
  intro req hreq
  simp only [starRequests, List.mem_cons, List.mem_replicate] at hreq
  rcases hreq with rfl | ⟨-, rfl⟩ <;> exact id

/-- Of 18 children the oldest one finds the stack full and stays usable. -/
theorem capRevoke_drops_oldest_child :
    ∃ s s' sent,
      runSteps (serve portableHmac) (CapServer.init (Vector.replicate 32 0) 1)
        (starRequests portableHmac (Vector.replicate 32 0) 18) = some s ∧
      capRevoke portableHmac (fun _ => true) s 1 = some (.success, s', sent) ∧
      s.Descends 1 2 ∧ ¬s'.Revoked 2 := by
  obtain ⟨s, hrun, hstar⟩ := star_run portableHmac (Vector.replicate 32 0) 1
    (show 18 ≤ 100 by decide)
  have hK : (Forest.cons 1 (starKids 18) .nil).kidsOf 1 = some (starKids 18) := rfl
  have hfresh := fresh_of_run not_isRevoke_starRequests hrun
  refine ⟨s, _, _, hrun, hstar.delegates.capRevoke_eq hK, ?_, ?_⟩
  · rw [hstar.delegates.descends_iff hK]
    decide
  · rw [hstar.delegates.revoked_cascadeResult_iff hK]
    rintro (hmem | hrev)
    · have hskip : s.isRevoked = fun _ => false := isRevoked_eq_false hfresh
      rw [cascadeMarked, hskip] at hmem
      exact absurd hmem (by decide)
    · exact hfresh 2 hrev

/-- For every forest built by issuing and deriving, and every issued id, the
revocation succeeds, and it is complete exactly when the tree fits. -/
theorem capRevoke_complete_iff_fits (mac : Mac) (deliver : Notice → Bool) (key : Digest)
    (capPort : MachPort) (reqs : List CapRequest) (hno : ∀ req ∈ reqs, ¬req.IsRevoke)
    (s : CapServer)
    (hrun : runSteps (serve mac) (CapServer.init key capPort) reqs = some s)
    (id : UInt64) (hid : (s.find id).isSome) :
    ∃ s' sent, capRevoke mac deliver s id = some (.success, s', sent) ∧
      (CascadeComplete deliver s s' sent id ↔ s.CascadeFits id) := by
  have hvalid := valid_of_run hrun
  obtain ⟨F, hF⟩ := hvalid.forest
  obtain ⟨K, hK⟩ := Forest.exists_kidsOf ((hF.mem_iff id).mpr hid)
  refine ⟨_, _, hF.capRevoke_eq hK, ?_⟩
  rw [cascadeComplete_iff hF hK (fresh_of_run hno hrun) hvalid.subscribers,
    CascadeFits, hF.cascadeTree_eq hK]

theorem capRevoke_complete_iff_fits_star :
    ∃ s s' sent,
      runSteps (serve portableHmac) (CapServer.init (Vector.replicate 32 0) 1)
        (starRequests portableHmac (Vector.replicate 32 0) 17) = some s ∧
      capRevoke portableHmac (fun _ => true) s 1 = some (.success, s', sent) ∧
      (CascadeComplete (fun _ => true) s s' sent 1 ↔ s.CascadeFits 1) := by
  obtain ⟨s, hrun, hstar⟩ := star_run portableHmac (Vector.replicate 32 0) 1
    (show 17 ≤ 100 by decide)
  obtain ⟨e, he, -⟩ := hstar.root
  obtain ⟨s', sent, h⟩ := capRevoke_complete_iff_fits portableHmac (fun _ => true) _ 1 _
    not_isRevoke_starRequests s hrun 1 (by rw [he]; rfl)
  exact ⟨s, s', sent, hrun, h⟩

end Uros.Cap
