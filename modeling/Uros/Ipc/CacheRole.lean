import Uros.Ipc.MachMsg

/-!
Which right a cached port stands for.

After a request, the next request of the thread may be answered from the cache.  It is
compared with what the lookup in the table would say.
-/

namespace Uros.Ipc

open Uros.Foundation

variable {s s' s₁ s₂ : IpcState} {c c' c₁ c₂ : PortCache} {name replyName destName : MachPort}
  {right : PortRight} {tryLock : TryLock} {reply dest : PortAddr} {r : EntryRef}

theorem lookupLocked_ensures :
    Ensures (lookupLocked name) s fun found s' => s' = s ∧
      ∀ r, found = some r → (s.space.read r).type ≠ .none → s.space.lookup name = some r := by
  simp only [lookupLocked, ensures_bind, ensures_read, ensures_ite, ensures_pure]
  constructor
  · rintro ⟨hsize, hgen⟩
    refine ⟨trivial, ?_⟩
    intro r hr htype
    cases hr
    exact IpcSpace.lookup_table.mpr ⟨rfl, hsize, hgen, htype⟩
  · intro _
    refine ipcEntryLookup_ensures.mono ?_
    rintro found s' ⟨rfl, rfl⟩
    exact ⟨rfl, fun r hr _ => hr⟩

theorem objectLocked_ensures :
    Ensures (objectLocked name right) s fun found s' => s' = s ∧
      ∀ port, found = some port → s.objectOf name right = some port := by
  simp only [objectLocked, ensures_bind]
  refine lookupLocked_ensures.mono ?_
  rintro found s' ⟨rfl, hfound⟩
  cases found with
  | none => simp
  | some r =>
    simp only [ensures_bind, ensures_readEntry, ensures_ite, ensures_pure, ensures_check,
      ensures_entryPort]
    constructor
    · simp
    · intro hright hurefs port hport
      refine ⟨trivial, ?_⟩
      intro port' heq
      cases heq
      have hhas : (s'.space.read r).type.has right = true := by simpa using hright
      have hlookup := hfound r rfl (EntryType.ne_none_of_has hhas)
      exact objectOf_eq_some.mpr ⟨r, hlookup, hhas, hport⟩

theorem lockfreeResolve_eq_some {ports : PortAddr × PortAddr} :
    s.lockfreeResolve replyName destName tryLock = some ports ↔
      s.objectOf replyName .receive = some ports.1 ∧ s.objectOf destName .send = some ports.2 ∧
        (s.ports ports.2).active = true ∧ tryLock ports.2 ports.1 = true := by
  obtain ⟨reply, dest⟩ := ports
  unfold IpcState.lockfreeResolve
  cases hreply : s.objectOf replyName .receive with
  | none => simp
  | some p =>
    cases hdest : s.objectOf destName .send with
    | none => simp
    | some d =>
      simp only [Option.ite_none_right_eq_some, Bool.and_eq_true, Option.some.injEq,
        Prod.mk.injEq]
      constructor
      · rintro ⟨hok, rfl, rfl⟩
        exact ⟨rfl, rfl, hok⟩
      · rintro ⟨rfl, rfl, hok⟩
        exact ⟨hok, rfl, rfl⟩

theorem resolveLocked_ensures :
    Ensures (resolveLocked replyName destName tryLock) s fun found s' => s' = s ∧
      ∀ ports, found = some ports →
        s.lockfreeResolve replyName destName tryLock = some ports := by
  simp only [resolveLocked, ensures_bind, ensures_checkActive]
  intro _
  refine objectLocked_ensures.mono ?_
  rintro found s' ⟨rfl, hreply⟩
  cases found with
  | none => simp
  | some reply =>
    simp only [ensures_bind]
    refine objectLocked_ensures.mono ?_
    rintro found s ⟨rfl, hdest⟩
    cases found with
    | none => simp
    | some dest =>
      simp only [ensures_bind, ensures_readPort, ensures_pure, true_and]
      intro ports hports
      obtain ⟨hok, hports⟩ := Option.ite_none_right_eq_some.mp hports
      cases hports
      rw [Bool.and_eq_true] at hok
      exact lockfreeResolve_eq_some.mpr ⟨hreply reply rfl, hdest dest rfl, hok⟩

theorem resolveUncached_ensures :
    Ensures (resolveUncached replyName destName tryLock) s fun found s' => s' = s ∧
      found = s.lockfreeResolve replyName destName tryLock := by
  simp only [resolveUncached, ensures_bind, ensures_read]
  cases hfree : s.lockfreeResolve replyName destName tryLock with
  | some ports => simp
  | none =>
    refine resolveLocked_ensures.mono ?_
    rintro found s' ⟨rfl, hfound⟩
    refine ⟨rfl, ?_⟩
    cases found with
    | none => rfl
    | some ports =>
      rw [hfree] at hfound
      cases hfound ports rfl

inductive ThreadCache : PortCache → Prop where
  | init : ThreadCache .empty
  | send {c c' : PortCache} {s s' : IpcState} {replyName destName rcvName : MachPort}
      {tryLock : TryLock} {found : Option (PortAddr × PortAddr)} (hc : ThreadCache c)
      (hsend : fastCopyin c replyName destName rcvName tryLock s = some ((found, c'), s')) :
      ThreadCache c'

inductive CacheStep (c : PortCache) (s : IpcState) : PortCache → Prop where
  | same : CacheStep c s c
  | invalidate : CacheStep c s c.invalidate
  | fill {replyName destName : MachPort} {reply dest : PortAddr}
      (hreply : s.objectOf replyName .receive = some reply)
      (hdest : s.objectOf destName .send = some dest) :
      CacheStep c s (c.fill s.space replyName destName reply dest)

theorem resolve_cacheStep :
    Ensures (resolve c replyName destName tryLock) s fun res s' =>
      s' = s ∧ CacheStep c s res.2 := by
  simp only [resolve, ensures_bind, ensures_read]
  split
  · simp only [ensures_bind, ensures_readPort, ensures_pure, true_and]
    split
    · exact .same
    · exact .invalidate
  · simp only [ensures_bind]
    refine resolveUncached_ensures.mono ?_
    rintro found s' ⟨rfl, hfound⟩
    split
    · obtain ⟨hreply, hdest, -⟩ := lockfreeResolve_eq_some.mp hfound.symm
      exact ensures_pure.mpr ⟨rfl, .fill hreply hdest⟩
    · exact ensures_pure.mpr ⟨rfl, .same⟩

theorem fastCopyin_cacheStep {rcvName : MachPort} :
    Ensures (fastCopyin c replyName destName rcvName tryLock) s fun res _ =>
      CacheStep c s res.2 := by
  simp only [fastCopyin, ensures_ite, ensures_pure, ensures_bind]
  refine ⟨fun _ => .same, fun _ => ?_⟩
  refine resolve_cacheStep.mono ?_
  rintro ⟨found, c'⟩ s' ⟨rfl, hc⟩
  cases found with
  | none => exact ensures_pure.mpr hc
  | some ports =>
    rw [ensures_bind]
    intro _ _ _
    exact ensures_pure.mpr hc

theorem ThreadCache.spare (h : ThreadCache c) :
    c.spare.1.space = none ∧ c.spare.2.space = none := by
  induction h with
  | init => exact ⟨rfl, rfl⟩
  | send _ hsend ih =>
    cases fastCopyin_cacheStep _ _ hsend with
    | same => exact ih
    | invalidate => exact ih
    | fill => exact ih

def PortCache.Hit (c : PortCache) (space : IpcSpace) (replyName destName : MachPort) : Prop :=
  (c.lookup space replyName destName).1.isSome ∧ (c.lookup space replyName destName).2.isSome

structure FirstSend (c₁ : PortCache) (s₁ : IpcState) (replyName destName : MachPort)
    (c₂ : PortCache) (s₂ : IpcState) : Prop where
  thread : ThreadCache c₁
  miss : ¬c₁.Hit s₁.space replyName destName
  sent : ∃ tryLock ports,
    fastCopyin c₁ replyName destName replyName tryLock s₁ = some ((some ports, c₂), s₂)

@[simp] theorem takeRights_space :
    Ensures (takeRights name reply dest) s fun _ s' => s'.space = s.space := by
  simp only [takeRights, ensures_bind, ensures_readPort, ensures_check, ensures_modifyPort,
    ensures_read]
  intros
  rfl

def Accepts (c : PortCache) (s : IpcState) (replyName destName : MachPort) (tryLock : TryLock)
    (ports : PortAddr × PortAddr) : Prop :=
  ∃ c', resolve c replyName destName tryLock s = some ((some ports, c'), s)

variable {ports : PortAddr × PortAddr}

theorem resolve_miss_ensures (hmiss : ¬c.Hit s.space replyName destName) :
    Ensures (resolve c replyName destName tryLock) s fun res s' => s' = s ∧
      res.1 = s.lockfreeResolve replyName destName tryLock ∧
      ∀ ports, res.1 = some ports →
        res.2 = c.fill s.space replyName destName ports.1 ports.2 := by
  simp only [resolve, ensures_bind, ensures_read]
  split
  · rename_i hlookup
    exact absurd (by simp [PortCache.Hit, hlookup]) hmiss
  · simp only [ensures_bind]
    refine resolveUncached_ensures.mono ?_
    rintro found s' ⟨rfl, hfound⟩
    cases found with
    | none => exact ensures_pure.mpr ⟨rfl, hfound, by simp⟩
    | some ports =>
      refine ensures_pure.mpr ⟨rfl, hfound, ?_⟩
      intro ports' heq
      cases heq
      rfl

theorem accepts_of_miss (hmiss : ¬c.Hit s.space replyName destName) :
    Accepts c s replyName destName tryLock ports ↔
      s.lockfreeResolve replyName destName tryLock = some ports := by
  constructor
  · rintro ⟨c', hres⟩
    exact (resolve_miss_ensures hmiss _ _ hres).2.1.symm
  · intro hfree
    refine ⟨c.fill s.space replyName destName ports.1 ports.2, ?_⟩
    have huncached : resolveUncached replyName destName tryLock s = some (some ports, s) := by
      refine bind_eq_some.mpr ⟨some ports, s, congrArg (fun o => some (o, s)) hfree, rfl⟩
    refine bind_eq_some.mpr ⟨s.space, s, rfl, ?_⟩
    rcases hlookup : c.lookup s.space replyName destName with ⟨_ | reply, _ | dest⟩
    · exact bind_eq_some.mpr ⟨some ports, s, huncached, rfl⟩
    · exact bind_eq_some.mpr ⟨some ports, s, huncached, rfl⟩
    · exact bind_eq_some.mpr ⟨some ports, s, huncached, rfl⟩
    · exact absurd (by simp [PortCache.Hit, hlookup]) hmiss

theorem accepts_of_hit (hhit : c.lookup s.space replyName destName = (some reply, some dest)) :
    Accepts c s replyName destName tryLock ports ↔
      ports = (reply, dest) ∧ (s.ports dest).active = true ∧ tryLock dest reply = true := by
  have hres : resolve c replyName destName tryLock s =
      some (if (s.ports dest).active && tryLock dest reply then (some (reply, dest), c)
        else (none, c.invalidate), s) := by
    refine bind_eq_some.mpr ⟨s.space, s, rfl, ?_⟩
    rw [hhit]
    rfl
  unfold Accepts
  rw [hres]
  by_cases hok : (s.ports dest).active && tryLock dest reply
  · rw [if_pos hok]
    rw [Bool.and_eq_true] at hok
    simp [hok, eq_comm]
  · rw [if_neg hok]
    rw [Bool.and_eq_true] at hok
    simp only [Option.some.injEq, Prod.mk.injEq, reduceCtorEq, false_and, exists_false,
      false_iff, not_and]
    intro _ hactive hlock
    exact hok ⟨hactive, hlock⟩

def RoleFaithful (c : PortCache) (s : IpcState) (replyName destName : MachPort) : Prop :=
  ∀ tryLock ports, Accepts c s replyName destName tryLock ports ↔
    Accepts .empty s replyName destName tryLock ports

theorem not_hit_empty (space : IpcSpace) (replyName destName : MachPort) :
    ¬PortCache.empty.Hit space replyName destName := by
  simp [PortCache.Hit, PortCache.lookup, PortCache.slots, PortCache.scan, PortCache.empty,
    CacheSlot.empty]

theorem roleFaithful_of_miss (hmiss : ¬c.Hit s.space replyName destName) :
    RoleFaithful c s replyName destName := by
  intro tryLock ports
  rw [accepts_of_miss hmiss, accepts_of_miss (not_hit_empty _ _ _)]

variable {replyName₁ destName₁ replyName₂ destName₂ : MachPort}

theorem FirstSend.filled (h : FirstSend c₁ s₁ replyName destName c₂ s₂) :
    s₂.space = s₁.space ∧ ∃ reply dest, s₁.objectOf replyName .receive = some reply ∧
      s₁.objectOf destName .send = some dest ∧
      c₂ = c₁.fill s₁.space replyName destName reply dest := by
  obtain ⟨tryLock, ports, hsent⟩ := h.sent
  have hfast : Ensures (fastCopyin c₁ replyName destName replyName tryLock) s₁
      fun res s' => ∀ ports, res.1 = some ports →
        s'.space = s₁.space ∧ s₁.lockfreeResolve replyName destName tryLock = some ports ∧
          res.2 = c₁.fill s₁.space replyName destName ports.1 ports.2 := by
    simp only [fastCopyin, ne_eq, not_true_eq_false, if_false, ensures_bind]
    refine (resolve_miss_ensures h.miss).mono ?_
    rintro ⟨found, c'⟩ s' ⟨rfl, hfound, hfill⟩
    cases found with
    | none => simp
    | some ports =>
      rw [ensures_bind]
      refine takeRights_space.mono ?_
      intro _ s'' hspace
      refine ensures_pure.mpr ?_
      intro ports' heq
      cases heq
      exact ⟨hspace, hfound.symm, hfill ports rfl⟩
  obtain ⟨hspace, hfree, hfill⟩ := hfast _ _ hsent ports rfl
  obtain ⟨hreply, hdest, -⟩ := lockfreeResolve_eq_some.mp hfree
  exact ⟨hspace, ports.1, ports.2, hreply, hdest, hfill⟩

theorem lookup_fill (hc : ThreadCache c) (space : IpcSpace) :
    (c.fill space replyName₁ destName₁ reply dest).lookup space replyName₂ destName₂ =
      (if destName₁ = replyName₂ then some dest
        else if replyName₁ = replyName₂ then some reply else none,
      if destName₁ ≠ replyName₂ ∧ destName₁ = destName₂ then some dest
        else if replyName₁ ≠ replyName₂ ∧ replyName₁ = destName₂ then some reply else none) := by
  obtain ⟨h₁, h₂⟩ := hc.spare
  simp only [PortCache.lookup, PortCache.slots, PortCache.fill, PortCache.scan, h₁, h₂,
    List.foldl_cons, List.foldl_nil, and_self, if_true, reduceCtorEq, and_false, if_false]
  split_ifs <;> simp_all

theorem objectOf_right {right' : PortRight} {p q : PortAddr}
    (hp : s.objectOf name right = some p) (hq : s.objectOf name right' = some q) : q = p := by
  obtain ⟨r, hr, -, hobj⟩ := objectOf_eq_some.mp hp
  obtain ⟨r', hr', -, hobj'⟩ := objectOf_eq_some.mp hq
  cases hr.symm.trans hr'
  exact Option.some.inj (hobj'.symm.trans hobj)

theorem objectOf_congr (hspace : s.space = s'.space) :
    s.objectOf name right = s'.objectOf name right := by
  simp only [IpcState.objectOf, hspace]

theorem roleFaithful_same (hreply : s.objectOf replyName .receive = some reply)
    (hdest : s.objectOf destName .send = some dest)
    (hhit : c.lookup s.space replyName destName = (some reply, some dest)) :
    RoleFaithful c s replyName destName := by
  intro tryLock ports
  rw [accepts_of_hit hhit, accepts_of_miss (not_hit_empty _ _ _), lockfreeResolve_eq_some,
    hreply, hdest]
  constructor
  · rintro ⟨rfl, hok⟩
    exact ⟨rfl, rfl, hok⟩
  · rintro ⟨h₁, h₂, hok⟩
    have hports : ports = (reply, dest) :=
      Prod.ext (Option.some.inj h₁).symm (Option.some.inj h₂).symm
    subst hports
    exact ⟨rfl, hok⟩

theorem roleFaithful_swapped (hreply : s.objectOf replyName .receive = some reply)
    (hdest : s.objectOf destName .send = some dest)
    (hhit : c.lookup s.space destName replyName = (some dest, some reply)) :
    RoleFaithful c s destName replyName ↔ ((s.ports reply).active = true →
      (s.objectOf destName .receive).isSome ∧ (s.objectOf replyName .send).isSome) := by
  constructor
  · intro hfaithful hactive
    have haccept : Accepts c s destName replyName (fun _ _ => true) (dest, reply) :=
      (accepts_of_hit hhit).mpr ⟨rfl, hactive, rfl⟩
    have htable := (accepts_of_miss (not_hit_empty _ _ _)).mp ((hfaithful _ _).mp haccept)
    obtain ⟨h₁, h₂, -⟩ := lockfreeResolve_eq_some.mp htable
    rw [h₁, h₂]
    exact ⟨rfl, rfl⟩
  · intro hboth tryLock ports
    rw [accepts_of_hit hhit, accepts_of_miss (not_hit_empty _ _ _), lockfreeResolve_eq_some]
    constructor
    · rintro ⟨rfl, hactive, hlock⟩
      obtain ⟨h₁, h₂⟩ := hboth hactive
      obtain ⟨p, hp⟩ := Option.isSome_iff_exists.mp h₁
      obtain ⟨q, hq⟩ := Option.isSome_iff_exists.mp h₂
      rw [hp, hq, objectOf_right hdest hp, objectOf_right hreply hq]
      exact ⟨rfl, rfl, hactive, hlock⟩
    · rintro ⟨h₁, h₂, hok⟩
      have hports : ports = (dest, reply) :=
        Prod.ext (objectOf_right hdest h₁) (objectOf_right hreply h₂)
      subst hports
      exact ⟨rfl, hok⟩

def smallPort (name : MachPort) : IpcPort :=
  ⟨true, 2, .space 7, name, 0, 1, 0, none, none, [], 0⟩

def smallState : IpcState where
  space :=
    { id := 7, active := true, generation := 0, tableSize := 4
      table := fun i =>
        if i = 1 then ⟨0, .receive, 0, some 100, 0⟩
        else if i = 2 then ⟨0, .sendReceive, 1, some 200, 0⟩
        else .unused 0
      free := [3], tree := fun _ => none, hash := fun _ => none }
  ports := fun port => if port = 100 then smallPort 256 else smallPort 512
  notices := []

/-- After a request from 256 to 512, one from 512 to 256 is accepted from the cache,
although 256 holds no send right and the table lookup falls back to `slow_copyin`. -/
theorem swapped_request_accepted :
    ∃ c₂ s₂, fastCopyin .empty 256 512 256 (fun _ _ => true) smallState =
        some ((some (100, 200), c₂), s₂) ∧
      (∃ c₃ s₃, fastCopyin c₂ 512 256 512 (fun _ _ => true) s₂ =
        some ((some (200, 100), c₃), s₃)) ∧
      fastCopyin .empty 512 256 512 (fun _ _ => true) s₂ = some ((none, .empty), s₂) ∧
      s₂.objectOf 256 .send = none :=
  ⟨_, _, rfl, ⟨_, _, rfl⟩, rfl, rfl⟩

/-- A request that is answered from the cache is treated as the table demands, unless it
exchanges the names of the request before and these do not hold the other right too. -/
theorem roleFaithful_iff (hfirst : FirstSend c₁ s₁ replyName₁ destName₁ c₂ s₂)
    (hspace : s.space = s₂.space) :
    RoleFaithful c₂ s replyName₂ destName₂ ↔
      (replyName₂ = destName₁ → destName₂ = replyName₁ → replyName₁ ≠ destName₁ →
        ∀ p, s.objectOf replyName₁ .receive = some p → (s.ports p).active = true →
          (s.objectOf destName₁ .receive).isSome ∧ (s.objectOf replyName₁ .send).isSome) := by
  obtain ⟨hspace₂, reply, dest, hreply, hdest, rfl⟩ := hfirst.filled
  have hspace₁ : s₁.space = s.space := (hspace.trans hspace₂).symm
  rw [objectOf_congr hspace₁] at hreply hdest
  rw [hspace₁]
  have hlookup := @lookup_fill c₁ reply dest replyName₁ destName₁ replyName₂ destName₂
    hfirst.thread s.space
  by_cases hswap : replyName₂ = destName₁ ∧ destName₂ = replyName₁ ∧ replyName₁ ≠ destName₁
  · obtain ⟨rfl, rfl, hne⟩ := hswap
    rw [if_pos rfl, if_neg (by simp), if_pos ⟨hne, rfl⟩] at hlookup
    rw [roleFaithful_swapped hreply hdest hlookup]
    constructor
    · intro h _ _ _ p hp hactive
      rw [hreply] at hp
      cases hp
      exact h hactive
    · intro h
      exact h rfl rfl hne reply hreply
  · have hright : replyName₂ = destName₁ → destName₂ = replyName₁ → replyName₁ ≠ destName₁ →
        ∀ p, s.objectOf replyName₁ .receive = some p → (s.ports p).active = true →
          (s.objectOf destName₁ .receive).isSome ∧ (s.objectOf replyName₁ .send).isSome :=
      fun h₁ h₂ h₃ => absurd ⟨h₁, h₂, h₃⟩ hswap
    refine ⟨fun _ => hright, fun _ => ?_⟩
    by_cases hsame : replyName₂ = replyName₁ ∧ destName₂ = destName₁ ∧ replyName₁ ≠ destName₁
    · obtain ⟨rfl, rfl, hne⟩ := hsame
      rw [if_neg hne.symm, if_pos rfl, if_pos ⟨hne.symm, rfl⟩] at hlookup
      exact roleFaithful_same hreply hdest hlookup
    · apply roleFaithful_of_miss
      rw [PortCache.Hit, hlookup]
      -- a hit needs one slot in each role
      grind

theorem roleFaithful_iff_small :
    ∃ c₂ s₂, FirstSend .empty smallState 256 512 c₂ s₂ ∧ RoleFaithful c₂ s₂ 256 512 := by
  have hfirst : ∃ c₂ s₂, FirstSend .empty smallState 256 512 c₂ s₂ :=
    ⟨_, _, .init, not_hit_empty _ _ _, fun _ _ => true, (100, 200), rfl⟩
  obtain ⟨c₂, s₂, hfirst⟩ := hfirst
  refine ⟨c₂, s₂, hfirst, (roleFaithful_iff hfirst rfl).mpr ?_⟩
  intro hswap
  exact absurd hswap (by decide)

end Uros.Ipc
