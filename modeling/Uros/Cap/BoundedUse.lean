import Uros.Foundation.Transition
import Uros.Cap.Kernel

/-!
Concurrent use, verification and revocation in the kernel.

Threads interleave at the granularity of the sections that hold `cap_lock`.  A
thread inside `urmach_cap_use` or `urmach_cap_revoke` that has dropped the lock
to allocate is recorded in `phase`.  The log keeps, newest first, every return
with the time of the section it happened in; for a use or a verification it also
has the time of the section that ran the check.
-/

namespace Uros.Cap

open Uros.Foundation

variable {θ : Type} [DecidableEq θ]

inductive Phase where
  | idle
  | consuming (t : UrosCap) (checked : Nat)
  | revoking (capId : UInt64)

inductive Event where
  | used (capId : UInt64) (checked : Nat) (kr : CapReturn)
  | verified (capId : UInt64) (checked : Nat) (kr : CapReturn)
  | revoked (capId : UInt64) (completed : Nat) (kr : CapReturn)
  deriving DecidableEq

def Event.isUseOf (capId : UInt64) : Event → Bool
  | .used id _ kr => id = capId && kr = .success
  | _ => false

structure CapThreads (θ : Type) where
  kernel : KernelCaps
  phase : θ → Phase
  now : Nat
  log : List Event

inductive CapAction (θ : Type) where
  | useEnter (thread : θ) (userToken : Bytes) (op : UInt32) (resourceId : UInt64)
  | useResume (thread : θ) (mem : Bool)
  | verify (thread : θ) (userToken : Bytes) (op : UInt32) (resourceId : UInt64)
  | revokeEnter (thread : θ) (caller : TaskId) (capId : UInt64)
  | revokeResume (thread : θ) (mem : Bool)

namespace CapThreads

def start (k : KernelCaps) : CapThreads θ := ⟨k, fun _ => .idle, 0, []⟩

def finish (s : CapThreads θ) (thread : θ) (k : KernelCaps) (event : Event) :
    CapThreads θ :=
  { kernel := k
    phase := Function.update s.phase thread .idle
    now := s.now + 1
    log := event :: s.log }

def block (s : CapThreads θ) (thread : θ) (phase : Phase) : CapThreads θ :=
  { s with phase := Function.update s.phase thread phase, now := s.now + 1 }

def step (mac : Mac) (s : CapThreads θ) : CapAction θ → Option (CapThreads θ)
  | .useEnter thread userToken op resourceId =>
    match s.phase thread, capCopyinToken userToken with
    | .idle, some t =>
      match capUseEnter mac s.kernel t op resourceId with
      | .returned kr k => some (s.finish thread k (.used t.capId s.now kr))
      | .allocating => some (s.block thread (.consuming t s.now))
    | .idle, none => some { s with now := s.now + 1 }
    | _, _ => none
  | .useResume thread mem =>
    match s.phase thread with
    | .consuming t checked =>
      let r := capUseResume s.kernel t mem
      some (s.finish thread r.2 (.used t.capId checked r.1))
    | _ => none
  | .verify thread userToken op resourceId =>
    match s.phase thread, capCopyinToken userToken with
    | .idle, some t =>
      some (s.finish thread s.kernel
        (.verified t.capId s.now (capCheckLocked mac s.kernel t op resourceId)))
    | .idle, none => some { s with now := s.now + 1 }
    | _, _ => none
  | .revokeEnter thread caller capId =>
    match s.phase thread with
    | .idle =>
      match capRevokeEnter s.kernel caller capId with
      | .returned kr k => some (s.finish thread k (.revoked capId s.now kr))
      | .allocating => some (s.block thread (.revoking capId))
    | _ => none
  | .revokeResume thread mem =>
    match s.phase thread with
    | .revoking capId =>
      let r := capRevokeResume s.kernel capId mem
      some (s.finish thread r.2 (.revoked capId s.now r.1))
    | _ => none

def uses (s : CapThreads θ) (capId : UInt64) : Nat := s.log.countP (Event.isUseOf capId)

end CapThreads

/-! ## What a section does to one entry -/

section Sections

variable {mac : Mac} {k : KernelCaps} {t : UrosCap} {e : CapStateEntry} {c id : UInt64}
  {m : UInt32} {n : Nat}

def Accounts (m : UInt32) (n : Nat) : Option CapStateEntry → Prop
  | none => n = 0
  | some e => if e.consumed then n + e.usesLeft.toNat = m.toNat else n = 0

def Budget (c : UInt64) (m : UInt32) (k : KernelCaps) (n : Nat) : Prop :=
  Accounts m n (capStateLookup k c)

structure Sound (k₀ k : KernelCaps) : Prop where
  wellFormed : k.table.WellFormed CapStateEntry.capId capBucket
  hmacKey : k.hmacKey = k₀.hmacKey

def usesLeftOf (t : UrosCap) (e : CapStateEntry) : UInt32 :=
  if e.consumed then e.usesLeft else t.maxUses

def consumeEntry (left : UInt32) (e : CapStateEntry) : CapStateEntry :=
  { e with consumed := true, usesLeft := left }

theorem lookup_consumeEntry {left : UInt32} :
    capStateLookup (capStateUpdate k id (consumeEntry left)) c =
      if c = id then (capStateLookup k id).map (consumeEntry left)
      else capStateLookup k c :=
  lookup_capStateUpdate fun _ => rfl

theorem lookup_setRevoked :
    capStateLookup (capStateUpdate k id setRevoked) c =
      if c = id then (capStateLookup k id).map setRevoked else capStateLookup k c :=
  lookup_capStateUpdate fun _ => rfl

theorem capConsume_cases (k : KernelCaps) (t : UrosCap) (e : CapStateEntry) :
    (e.revoked = true ∧ capConsume k t e = (.revoked, k)) ∨
    (e.revoked = false ∧ usesLeftOf t e = 0 ∧
      capConsume k t e = (.exhausted, capStateUpdate k t.capId (consumeEntry 0))) ∨
    (e.revoked = false ∧ usesLeftOf t e ≠ 0 ∧
      capConsume k t e =
        (.success, capStateUpdate k t.capId (consumeEntry (usesLeftOf t e - 1)))) := by
  cases hrev : e.revoked with
  | true => simp [capConsume, hrev]
  | false =>
    by_cases hleft : usesLeftOf t e = 0
    · refine .inr (.inl ⟨rfl, hleft, ?_⟩)
      simp only [usesLeftOf] at hleft
      simp only [capConsume, hrev, hleft, Bool.false_eq_true, if_false, if_true]
      rfl
    · refine .inr (.inr ⟨rfl, hleft, ?_⟩)
      simp only [usesLeftOf] at hleft ⊢
      simp only [capConsume, hrev, hleft, Bool.false_eq_true, if_false]
      rfl

theorem capUseEnter_cases (mac : Mac) (k : KernelCaps) (t : UrosCap) (op : UInt32)
    (resourceId : UInt64) :
    (∃ kr, kr ≠ .success ∧ capUseEnter mac k t op resourceId = .returned kr k) ∨
    (capCheckLocked mac k t op resourceId = .success ∧
      ((t.maxUses = 0 ∧ capUseEnter mac k t op resourceId = .returned .success k) ∨
       (∃ e, capStateLookup k t.capId = some e ∧
          capUseEnter mac k t op resourceId =
            .returned (capConsume k t e).1 (capConsume k t e).2) ∨
       (capStateLookup k t.capId = none ∧
          capUseEnter mac k t op resourceId = .allocating))) := by
  unfold capUseEnter
  cases hcheck : capCheckLocked mac k t op resourceId with
  | success =>
    refine .inr ⟨rfl, ?_⟩
    by_cases hmax : t.maxUses = 0
    · exact .inl ⟨hmax, by simp [hmax]⟩
    · cases hlook : capStateLookup k t.capId with
      | some e => exact .inr (.inl ⟨e, rfl, by simp [hmax]⟩)
      | none => exact .inr (.inr ⟨rfl, by simp [hmax]⟩)
  | _ => exact .inl ⟨_, by simp, rfl⟩

inductive Ensured (k : KernelCaps) (id : UInt64) : KernelCaps → Prop where
  | found {e : CapStateEntry} (h : capStateLookup k id = some e) : Ensured k id k
  | created (h : capStateLookup k id = none) : Ensured k id (capStateInsert k id)

theorem capGetOrCreateResume_cases (k : KernelCaps) (id : UInt64) (mem : Bool) :
    capGetOrCreateResume k id mem = none ∨
    ∃ k₁ e, Ensured k id k₁ ∧ capStateLookup k₁ id = some e ∧
      capGetOrCreateResume k id mem = some (k₁, e) := by
  cases mem with
  | false => exact .inl rfl
  | true =>
    refine .inr ?_
    cases hlook : capStateLookup k id with
    | some race =>
      exact ⟨k, race, .found hlook, hlook, by simp [capGetOrCreateResume, hlook]⟩
    | none =>
      refine ⟨_, ⟨id, false, false, 0⟩, .created hlook, ?_,
        by simp [capGetOrCreateResume, hlook]⟩
      simp [lookup_capStateInsert]

theorem capUseResume_cases (k : KernelCaps) (t : UrosCap) (mem : Bool) :
    capUseResume k t mem = (.noMemory, k) ∨
    ∃ k₁ e, Ensured k t.capId k₁ ∧ capStateLookup k₁ t.capId = some e ∧
      capUseResume k t mem = capConsume k₁ t e := by
  unfold capUseResume
  obtain h | ⟨k₁, e, hk, he, h⟩ := capGetOrCreateResume_cases k t.capId mem
  · exact .inl (by rw [h])
  · exact .inr ⟨k₁, e, hk, he, by rw [h]⟩

theorem capRevokeResume_cases (k : KernelCaps) (id : UInt64) (mem : Bool) :
    capRevokeResume k id mem = (.noMemory, k) ∨
    ∃ k₁ e, Ensured k id k₁ ∧ capStateLookup k₁ id = some e ∧
      capRevokeResume k id mem = (.success, capStateUpdate k₁ id setRevoked) := by
  unfold capRevokeResume
  obtain h | ⟨k₁, e, hk, he, h⟩ := capGetOrCreateResume_cases k id mem
  · exact .inl (by rw [h])
  · exact .inr ⟨k₁, e, hk, he, by rw [h]⟩

theorem capRevokeEnter_cases (k : KernelCaps) (caller : TaskId) (id : UInt64) :
    capRevokeEnter k caller id = .returned .unauthorized k ∨
    capRevokeEnter k caller id = .allocating ∨
    ∃ e, capStateLookup k id = some e ∧
      capRevokeEnter k caller id = .returned .success (capStateUpdate k id setRevoked) := by
  unfold capRevokeEnter
  split
  · exact .inl rfl
  · cases hlook : capStateLookup k id with
    | none => exact .inr (.inl rfl)
    | some e => exact .inr (.inr ⟨e, rfl, rfl⟩)

/-! ## Preservation -/

theorem Sound.insert {k₀ : KernelCaps} (hk : Sound k₀ k)
    (hnew : capStateLookup k id = none) : Sound k₀ (capStateInsert k id) :=
  ⟨hk.wellFormed.insert hnew, hk.hmacKey⟩

theorem Sound.update {k₀ : KernelCaps} {f : CapStateEntry → CapStateEntry}
    (hk : Sound k₀ k) (hf : ∀ e, (f e).capId = e.capId) :
    Sound k₀ (capStateUpdate k id f) :=
  ⟨hk.wellFormed.modify hf, hk.hmacKey⟩

theorem Sound.ensured {k₀ k₁ : KernelCaps} (hk : Sound k₀ k) (h : Ensured k id k₁) :
    Sound k₀ k₁ := by
  cases h with
  | found _ => exact hk
  | created hnew => exact hk.insert hnew

theorem Sound.consume {k₀ : KernelCaps} (hk : Sound k₀ k) :
    Sound k₀ (capConsume k t e).2 := by
  rcases capConsume_cases k t e with ⟨-, h⟩ | ⟨-, -, h⟩ | ⟨-, -, h⟩ <;> rw [h]
  · exact hk
  · exact hk.update fun _ => rfl
  · exact hk.update fun _ => rfl

theorem RevokedIn.update {f : CapStateEntry → CapStateEntry} (h : RevokedIn k c)
    (hid : ∀ e, (f e).capId = e.capId) (hf : ∀ e, e.revoked = true → (f e).revoked = true) :
    RevokedIn (capStateUpdate k id f) c := by
  simp only [RevokedIn, lookup_capStateUpdate hid, Option.any_eq_true] at h ⊢
  obtain ⟨e, he, hrev⟩ := h
  by_cases hc : c = id
  · subst hc
    exact ⟨f e, by simp [he], hf e hrev⟩
  · exact ⟨e, by simp [hc, he], hrev⟩

theorem RevokedIn.ensured {k₁ : KernelCaps} (h : RevokedIn k c) (hk : Ensured k id k₁) :
    RevokedIn k₁ c := by
  cases hk with
  | found _ => exact h
  | created hnew =>
    have hne : id ≠ c := by
      rintro rfl
      simp [RevokedIn, hnew] at h
    simpa [RevokedIn, lookup_capStateInsert, hne] using h

theorem RevokedIn.consume (h : RevokedIn k c) : RevokedIn (capConsume k t e).2 c := by
  rcases capConsume_cases k t e with ⟨-, h'⟩ | ⟨-, -, h'⟩ | ⟨-, -, h'⟩ <;> rw [h']
  · exact h
  · exact h.update (fun _ => rfl) (fun _ he => he)
  · exact h.update (fun _ => rfl) (fun _ he => he)

theorem revokedIn_setRevoked (he : capStateLookup k id = some e) :
    RevokedIn (capStateUpdate k id setRevoked) id := by
  simp [RevokedIn, lookup_setRevoked, he, setRevoked]

theorem Budget.ensured {k₁ : KernelCaps} (h : Budget c m k n) (hk : Ensured k id k₁) :
    Budget c m k₁ n := by
  cases hk with
  | found _ => exact h
  | created hnew =>
    unfold Budget at h ⊢
    rw [lookup_capStateInsert]
    by_cases hc : id = c
    · subst hc
      rw [hnew] at h
      simpa [Accounts] using h
    · simpa only [hc, if_false] using h

theorem Budget.setRevoked (h : Budget c m k n) :
    Budget c m (capStateUpdate k id setRevoked) n := by
  unfold Budget at h ⊢
  rw [lookup_setRevoked]
  by_cases hc : c = id
  · subst hc
    cases hlook : capStateLookup k c with
    | none => simpa [hlook] using h
    | some e => simpa [hlook, Accounts, Uros.Cap.setRevoked] using h
  · simpa only [hc, if_false] using h

theorem Budget.consume (h : Budget c m k n) (he : capStateLookup k t.capId = some e)
    (hm : t.capId = c → t.maxUses = m) :
    Budget c m (capConsume k t e).2
      (n + if t.capId = c ∧ (capConsume k t e).1 = .success then 1 else 0) := by
  by_cases hc : t.capId = c
  · subst hc
    have hm := hm rfl
    have hn : n + (usesLeftOf t e).toNat = m.toNat := by
      unfold Budget at h
      rw [he] at h
      unfold usesLeftOf
      cases hcons : e.consumed <;> simp [Accounts, hcons] at h <;> simp [h, hm]
    rcases capConsume_cases k t e with ⟨-, hr⟩ | ⟨-, hleft, hr⟩ | ⟨-, hleft, hr⟩ <;>
      rw [hr]
    · simpa using h
    · unfold Budget
      dsimp only
      rw [lookup_consumeEntry, he]
      simpa [Accounts, consumeEntry, hleft] using hn
    · have hpos : 1 ≤ (usesLeftOf t e).toNat := by
        have := mt UInt32.toNat_inj.mp hleft
        simp only [UInt32.toNat_zero] at this
        omega
      have hsub : (usesLeftOf t e - 1).toNat = (usesLeftOf t e).toNat - 1 :=
        UInt32.toNat_sub_of_le _ _ hpos
      unfold Budget
      dsimp only
      rw [lookup_consumeEntry, he]
      simp only [Accounts, consumeEntry, if_true, Option.map_some, true_and, hsub]
      omega
  · have hsame : capStateLookup (capConsume k t e).2 c = capStateLookup k c := by
      rcases capConsume_cases k t e with ⟨-, hr⟩ | ⟨-, -, hr⟩ | ⟨-, -, hr⟩ <;> rw [hr]
      · exact lookup_consumeEntry.trans (if_neg (Ne.symm hc))
      · exact lookup_consumeEntry.trans (if_neg (Ne.symm hc))
    unfold Budget
    rw [hsame]
    simpa only [hc, false_and, if_false, Nat.add_zero, Budget] using h

end Sections

/-! ## Steps -/

namespace CapThreads

inductive Move (mac : Mac) (s : CapThreads θ) : CapAction θ → CapThreads θ → Prop where
  | tick {a} : Move mac s a { s with now := s.now + 1 }
  | blockUse {thread userToken op resourceId t}
      (htok : capCopyinToken userToken = some t)
      (hok : capCheckLocked mac s.kernel t op resourceId = .success) :
      Move mac s (.useEnter thread userToken op resourceId)
        (s.block thread (.consuming t s.now))
  | blockRevoke {a thread id} : Move mac s a (s.block thread (.revoking id))
  | useFailed {a thread id checked kr} (hkr : kr ≠ .success) :
      Move mac s a (s.finish thread s.kernel (.used id checked kr))
  | useUnlimited {thread userToken op resourceId t}
      (htok : capCopyinToken userToken = some t)
      (hok : capCheckLocked mac s.kernel t op resourceId = .success)
      (hmax : t.maxUses = 0) :
      Move mac s (.useEnter thread userToken op resourceId)
        (s.finish thread s.kernel (.used t.capId s.now .success))
  | useNow {thread userToken op resourceId t e}
      (htok : capCopyinToken userToken = some t)
      (hok : capCheckLocked mac s.kernel t op resourceId = .success)
      (he : capStateLookup s.kernel t.capId = some e) :
      Move mac s (.useEnter thread userToken op resourceId)
        (s.finish thread (capConsume s.kernel t e).2
          (.used t.capId s.now (capConsume s.kernel t e).1))
  | useLater {a thread t checked k₁ e}
      (hphase : s.phase thread = .consuming t checked)
      (hk : Ensured s.kernel t.capId k₁) (he : capStateLookup k₁ t.capId = some e) :
      Move mac s a
        (s.finish thread (capConsume k₁ t e).2
          (.used t.capId checked (capConsume k₁ t e).1))
  | verified {a thread id kr} (hkr : kr = .success → ¬RevokedIn s.kernel id) :
      Move mac s a (s.finish thread s.kernel (.verified id s.now kr))
  | revokeFailed {a thread id kr} (hkr : kr ≠ .success) :
      Move mac s a (s.finish thread s.kernel (.revoked id s.now kr))
  | revoked {a thread id k₁ e} (hk : Ensured s.kernel id k₁)
      (he : capStateLookup k₁ id = some e) :
      Move mac s a
        (s.finish thread (capStateUpdate k₁ id setRevoked) (.revoked id s.now .success))

variable {mac : Mac} {s s' : CapThreads θ} {a : CapAction θ}

theorem move_of_useEnter {thread : θ} {userToken : Bytes} {op : UInt32}
    {resourceId : UInt64} (h : step mac s (.useEnter thread userToken op resourceId) = some s') :
    Move mac s (.useEnter thread userToken op resourceId) s' := by
  simp only [step] at h
  split at h
  · rename_i t _ htok
    rcases capUseEnter_cases mac s.kernel t op resourceId with
      ⟨kr, hkr, hr⟩ | ⟨hok, ⟨hmax, hr⟩ | ⟨e, he, hr⟩ | ⟨hnone, hr⟩⟩ <;>
      (rw [hr] at h; cases h)
    · exact .useFailed hkr
    · exact .useUnlimited htok hok hmax
    · exact .useNow htok hok he
    · exact .blockUse htok hok
  · cases h
    exact .tick
  · cases h

theorem move_of_useResume {thread : θ} {mem : Bool}
    (h : step mac s (.useResume thread mem) = some s') :
    Move mac s (.useResume thread mem) s' := by
  simp only [step] at h
  split at h
  · rename_i t checked hphase
    cases h
    rcases capUseResume_cases s.kernel t mem with hr | ⟨k₁, e, hk, he, hr⟩ <;> rw [hr]
    · exact .useFailed (by simp)
    · exact .useLater hphase hk he
  · cases h

theorem move_of_verify {thread : θ} {userToken : Bytes} {op : UInt32}
    {resourceId : UInt64} (h : step mac s (.verify thread userToken op resourceId) = some s') :
    Move mac s (.verify thread userToken op resourceId) s' := by
  simp only [step] at h
  split at h
  · cases h
    exact .verified fun hok => (capCheckLocked_iff.mp hok).not_revoked
  · cases h
    exact .tick
  · cases h

theorem move_of_revokeEnter {thread : θ} {caller : TaskId} {id : UInt64}
    (h : step mac s (.revokeEnter thread caller id) = some s') :
    Move mac s (.revokeEnter thread caller id) s' := by
  simp only [step] at h
  split at h
  · rcases capRevokeEnter_cases s.kernel caller id with hr | hr | ⟨e, he, hr⟩ <;>
      (rw [hr] at h; cases h)
    · exact .revokeFailed (by simp)
    · exact .blockRevoke
    · exact .revoked (.found he) he
  · cases h

theorem move_of_revokeResume {thread : θ} {mem : Bool}
    (h : step mac s (.revokeResume thread mem) = some s') :
    Move mac s (.revokeResume thread mem) s' := by
  simp only [step] at h
  split at h
  · rename_i id hphase
    cases h
    rcases capRevokeResume_cases s.kernel id mem with hr | ⟨k₁, e, hk, he, hr⟩ <;> rw [hr]
    · exact .revokeFailed (by simp)
    · exact .revoked hk he
  · cases h

theorem move_of_step (h : step mac s a = some s') : Move mac s a s' := by
  cases a with
  | useEnter thread userToken op resourceId => exact move_of_useEnter h
  | useResume thread mem => exact move_of_useResume h
  | verify thread userToken op resourceId => exact move_of_verify h
  | revokeEnter thread caller id => exact move_of_revokeEnter h
  | revokeResume thread mem => exact move_of_revokeResume h

/-! ## Revocation is final -/

def Granted (id : UInt64) (checked : Nat) (event : Event) : Prop :=
  event = .used id checked .success ∨ event = .verified id checked .success

theorem granted_used {id id' : UInt64} {checked checked' : Nat} {kr : CapReturn} :
    Granted id checked (.used id' checked' kr) ↔
      id' = id ∧ checked' = checked ∧ kr = .success := by
  simp [Granted]

theorem granted_verified {id id' : UInt64} {checked checked' : Nat} {kr : CapReturn} :
    Granted id checked (.verified id' checked' kr) ↔
      id' = id ∧ checked' = checked ∧ kr = .success := by
  simp [Granted]

theorem not_granted_revoked {id id' : UInt64} {checked time : Nat} {kr : CapReturn} :
    ¬Granted id checked (.revoked id' time kr) := by
  simp [Granted]

def Early (s : CapThreads θ) (id : UInt64) (checked : Nat) : Prop :=
  checked < s.now ∧ ∀ time, .revoked id time .success ∈ s.log → checked < time

/-- Completed revocations show in the table, and whatever was granted, or still
may be, was checked before them. -/
structure Ordered (k₀ : KernelCaps) (s : CapThreads θ) : Prop where
  sound : Sound k₀ s.kernel
  revokedIn : ∀ id time, .revoked id time .success ∈ s.log →
    time < s.now ∧ RevokedIn s.kernel id
  pending : ∀ thread t checked, s.phase thread = .consuming t checked →
    s.Early t.capId checked
  granted : ∀ id checked event, event ∈ s.log → Granted id checked event →
    s.Early id checked

omit [DecidableEq θ] in
theorem Ordered.start {k₀ : KernelCaps}
    (hk : k₀.table.WellFormed CapStateEntry.capId capBucket) :
    Ordered k₀ (start k₀ : CapThreads θ) where
  sound := ⟨hk, rfl⟩
  revokedIn := by simp [CapThreads.start]
  pending := by simp [CapThreads.start]
  granted := by simp [CapThreads.start]

omit [DecidableEq θ] in
theorem Early.tick {id : UInt64} {checked : Nat} (h : s.Early id checked)
    {k : KernelCaps} {phase : θ → Phase} :
    Early ⟨k, phase, s.now + 1, s.log⟩ id checked :=
  ⟨Nat.lt_succ_of_lt h.1, h.2⟩

omit [DecidableEq θ] in
theorem Ordered.early_now {k₀ k : KernelCaps} {phase : θ → Phase} {id : UInt64}
    (h : Ordered k₀ s) (hnot : ¬RevokedIn s.kernel id) :
    Early ⟨k, phase, s.now + 1, s.log⟩ id s.now :=
  ⟨Nat.lt_succ_self _, fun time hmem => absurd (h.revokedIn id time hmem).2 hnot⟩

theorem Ordered.block {k₀ : KernelCaps} {thread : θ} {phase : Phase} (h : Ordered k₀ s)
    (hphase : ∀ t checked, phase = .consuming t checked →
      checked = s.now ∧ ¬RevokedIn s.kernel t.capId) :
    Ordered k₀ (s.block thread phase) where
  sound := h.sound
  revokedIn id time hmem :=
    ⟨Nat.lt_succ_of_lt (h.revokedIn id time hmem).1, (h.revokedIn id time hmem).2⟩
  pending th t checked heq := by
    simp only [CapThreads.block] at heq
    by_cases hth : th = thread
    · subst hth
      rw [Function.update_self] at heq
      obtain ⟨rfl, hnot⟩ := hphase t checked heq
      exact h.early_now hnot
    · rw [Function.update_of_ne hth] at heq
      exact (h.pending th t checked heq).tick
  granted id checked event hev hg := (h.granted id checked event hev hg).tick

theorem Early.finish {id : UInt64} {checked : Nat} {thread : θ} {k : KernelCaps}
    {event : Event} (h : s.Early id checked)
    (hrev : ∀ id time, event = .revoked id time .success → time = s.now) :
    (s.finish thread k event).Early id checked := by
  refine ⟨Nat.lt_succ_of_lt h.1, fun time hmem => ?_⟩
  rcases List.mem_cons.mp hmem with heq | hmem
  · rw [hrev id time heq.symm]
    exact h.1
  · exact h.2 time hmem

theorem Ordered.finish {k₀ k' : KernelCaps} {thread : θ} {event : Event}
    (h : Ordered k₀ s) (hsound : Sound k₀ k')
    (hkeep : ∀ id, RevokedIn s.kernel id → RevokedIn k' id)
    (hgrant : ∀ id checked, Granted id checked event →
      (s.finish thread k' event).Early id checked)
    (hrev : ∀ id time, event = .revoked id time .success →
      time = s.now ∧ RevokedIn k' id) :
    Ordered k₀ (s.finish thread k' event) where
  sound := hsound
  revokedIn id time hmem := by
    rcases List.mem_cons.mp hmem with heq | hmem
    · obtain ⟨rfl, hin⟩ := hrev id time heq.symm
      exact ⟨Nat.lt_succ_self _, hin⟩
    · exact ⟨Nat.lt_succ_of_lt (h.revokedIn id time hmem).1,
        hkeep id (h.revokedIn id time hmem).2⟩
  pending th t checked heq := by
    simp only [CapThreads.finish] at heq
    by_cases hth : th = thread
    · subst hth
      rw [Function.update_self] at heq
      cases heq
    · rw [Function.update_of_ne hth] at heq
      exact (h.pending th t checked heq).finish fun id time he => (hrev id time he).1
  granted id checked ev hev hg := by
    rcases List.mem_cons.mp hev with rfl | hev
    · exact hgrant id checked hg
    · exact (h.granted id checked ev hev hg).finish fun id time he => (hrev id time he).1

theorem Ordered.finish_grant {k₀ k' : KernelCaps} {thread : θ} {event : Event}
    (h : Ordered k₀ s) (hsound : Sound k₀ k')
    (hkeep : ∀ id, RevokedIn s.kernel id → RevokedIn k' id)
    (hevent : ∀ id time, event ≠ .revoked id time .success)
    (hgrant : ∀ id checked, Granted id checked event →
      (s.finish thread k' event).Early id checked) :
    Ordered k₀ (s.finish thread k' event) :=
  h.finish hsound hkeep hgrant fun id time he => absurd he (hevent id time)

theorem Ordered.move {k₀ : KernelCaps} (h : Ordered k₀ s) (hmove : Move mac s a s') :
    Ordered k₀ s' := by
  -- A check that passes now and whose event is no revocation is early.
  have hnow : ∀ {thread : θ} {k' : KernelCaps} {event : Event} {id : UInt64},
      ¬RevokedIn s.kernel id → (∀ id time, event ≠ .revoked id time .success) →
      (s.finish thread k' event).Early id s.now := by
    intro thread k' event id hnot hevent
    refine ⟨Nat.lt_succ_self _, fun time hmem => ?_⟩
    rcases List.mem_cons.mp hmem with heq | hmem
    · exact absurd heq.symm (hevent id time)
    · exact absurd (h.revokedIn id time hmem).2 hnot
  cases hmove with
  | tick =>
    exact ⟨h.sound, fun id time hmem => ⟨Nat.lt_succ_of_lt (h.revokedIn id time hmem).1,
        (h.revokedIn id time hmem).2⟩,
      fun th t checked heq => (h.pending th t checked heq).tick,
      fun id checked ev hev hg => (h.granted id checked ev hev hg).tick⟩
  | blockUse htok hok =>
    refine h.block fun t checked heq => ?_
    cases heq
    exact ⟨rfl, (capCheckLocked_iff.mp hok).not_revoked⟩
  | blockRevoke => exact h.block fun t checked heq => by cases heq
  | useFailed hkr =>
    refine h.finish_grant h.sound (fun _ => id) (by simp) fun id checked hg => ?_
    exact absurd (granted_used.mp hg).2.2 hkr
  | useUnlimited htok hok hmax =>
    refine h.finish_grant h.sound (fun _ => id) (by simp) fun id checked hg => ?_
    obtain ⟨rfl, rfl, -⟩ := granted_used.mp hg
    exact hnow (capCheckLocked_iff.mp hok).not_revoked (by simp)
  | useNow htok hok he =>
    refine h.finish_grant h.sound.consume (fun _ => RevokedIn.consume) (by simp)
      fun id checked hg => ?_
    obtain ⟨rfl, rfl, -⟩ := granted_used.mp hg
    exact hnow (capCheckLocked_iff.mp hok).not_revoked (by simp)
  | useLater hphase hk he =>
    refine h.finish_grant (h.sound.ensured hk).consume
      (fun id hin => (hin.ensured hk).consume) (by simp) fun id checked hg => ?_
    obtain ⟨rfl, rfl, -⟩ := granted_used.mp hg
    exact (h.pending _ _ _ hphase).finish (by simp)
  | verified hkr =>
    refine h.finish_grant h.sound (fun _ => id) (by simp) fun id checked hg => ?_
    obtain ⟨rfl, rfl, hsuccess⟩ := granted_verified.mp hg
    exact hnow (hkr hsuccess) (by simp)
  | revokeFailed hkr =>
    refine h.finish h.sound (fun _ => id) (fun id checked hg => ?_) fun id time heq => ?_
    · exact absurd hg not_granted_revoked
    · cases heq
      exact absurd rfl hkr
  | revoked hk he =>
    refine h.finish ((h.sound.ensured hk).update fun _ => rfl)
      (fun id hin => (hin.ensured hk).update (fun _ => rfl) fun _ _ => rfl)
      (fun id checked hg => ?_) fun id time heq => ?_
    · exact absurd hg not_granted_revoked
    · cases heq
      exact ⟨rfl, revokedIn_setRevoked he⟩

/-! ## Counting uses -/

theorem uses_finish {thread : θ} {k : KernelCaps} {event : Event} {c : UInt64} :
    (s.finish thread k event).uses c =
      s.uses c + if event.isUseOf c then 1 else 0 :=
  List.countP_cons

/-- A token for `c` that the action presents to `urmach_cap_use` and that carries
a valid signature allows `m` uses. -/
def PresentsLimit (mac : Mac) (k₀ : KernelCaps) (c : UInt64) (m : UInt32) :
    CapAction θ → Prop
  | .useEnter _ userToken _ _ => ∀ t, capCopyinToken userToken = some t →
      capHmacCheck mac k₀ t = true → t.capId = c → t.maxUses = m
  | _ => True

structure Counted (k₀ : KernelCaps) (c : UInt64) (m : UInt32) (s : CapThreads θ) :
    Prop where
  ordered : Ordered k₀ s
  budget : Budget c m s.kernel (s.uses c)
  pending : ∀ thread t checked, s.phase thread = .consuming t checked →
    t.capId = c → t.maxUses = m

theorem Counted.finish {k₀ k' : KernelCaps} {c : UInt64} {m : UInt32} {thread : θ}
    {event : Event} (h : Counted k₀ c m s) (hord : Ordered k₀ (s.finish thread k' event))
    (hbudget : Budget c m k' ((s.finish thread k' event).uses c)) :
    Counted k₀ c m (s.finish thread k' event) where
  ordered := hord
  budget := hbudget
  pending th t checked heq hc := by
    simp only [CapThreads.finish] at heq
    by_cases hth : th = thread
    · subst hth
      rw [Function.update_self] at heq
      cases heq
    · rw [Function.update_of_ne hth] at heq
      exact h.pending th t checked heq hc

theorem Counted.block {k₀ : KernelCaps} {c : UInt64} {m : UInt32} {thread : θ}
    {phase : Phase} (h : Counted k₀ c m s) (hord : Ordered k₀ (s.block thread phase))
    (hphase : ∀ t checked, phase = .consuming t checked → t.capId = c → t.maxUses = m) :
    Counted k₀ c m (s.block thread phase) where
  ordered := hord
  budget := h.budget
  pending th t checked heq hc := by
    simp only [CapThreads.block] at heq
    by_cases hth : th = thread
    · subst hth
      rw [Function.update_self] at heq
      exact hphase t checked heq hc
    · rw [Function.update_of_ne hth] at heq
      exact h.pending th t checked heq hc

theorem Counted.step {k₀ : KernelCaps} {c : UInt64} {m : UInt32} (hm : 0 < m)
    (h : Counted k₀ c m s) (hlimit : PresentsLimit mac k₀ c m a)
    (hstep : CapThreads.step mac s a = some s') : Counted k₀ c m s' := by
  have hmove := move_of_step hstep
  have hord := h.ordered.move hmove
  have hmax : ∀ {userToken op resourceId t},
      (∀ t, capCopyinToken userToken = some t → capHmacCheck mac k₀ t = true →
        t.capId = c → t.maxUses = m) →
      capCopyinToken userToken = some t →
      capCheckLocked mac s.kernel t op resourceId = .success →
      t.capId = c → t.maxUses = m := by
    intro userToken op resourceId t hlimit htok hok
    refine hlimit t htok ?_
    have hauth := (capCheckLocked_iff.mp hok).hmac
    rwa [capHmacCheck, h.ordered.sound.hmacKey] at hauth
  cases hmove with
  | tick => exact ⟨hord, h.budget, h.pending⟩
  | blockUse htok hok =>
    refine h.block hord fun t checked heq => ?_
    cases heq
    exact hmax hlimit htok hok
  | blockRevoke => exact h.block hord fun t checked heq => by cases heq
  | useFailed hkr =>
    refine h.finish hord ?_
    rw [uses_finish, if_neg (by simp [Event.isUseOf, hkr])]
    exact h.budget
  | useUnlimited htok hok hzero =>
    refine h.finish hord ?_
    rw [uses_finish, if_neg]
    · exact h.budget
    · intro huse
      simp only [Event.isUseOf, decide_true, Bool.and_true, decide_eq_true_eq] at huse
      rw [hmax hlimit htok hok huse] at hzero
      exact absurd hm (by rw [hzero]; exact UInt32.lt_irrefl 0)
  | useNow htok hok he =>
    refine h.finish hord ?_
    rw [uses_finish]
    simpa [Event.isUseOf] using h.budget.consume he (hmax hlimit htok hok)
  | useLater hphase hk he =>
    refine h.finish hord ?_
    rw [uses_finish]
    simpa [Event.isUseOf] using
      (h.budget.ensured hk).consume he (h.pending _ _ _ hphase)
  | verified hkr =>
    refine h.finish hord ?_
    rw [uses_finish, if_neg (by simp [Event.isUseOf])]
    exact h.budget
  | revokeFailed hkr =>
    refine h.finish hord ?_
    rw [uses_finish, if_neg (by simp [Event.isUseOf])]
    exact h.budget
  | revoked hk he =>
    refine h.finish hord ?_
    rw [uses_finish, if_neg (by simp [Event.isUseOf])]
    exact (h.budget.ensured hk).setRevoked

theorem Budget.le {c : UInt64} {m : UInt32} {k : KernelCaps} {n : Nat}
    (h : Budget c m k n) : n ≤ m.toNat := by
  unfold Budget at h
  cases hlook : capStateLookup k c with
  | none =>
    rw [hlook] at h
    simp only [Accounts] at h
    omega
  | some e =>
    rw [hlook] at h
    simp only [Accounts] at h
    split at h <;> omega

/-- Over every interleaving: no id has two entries, nothing is granted on a check
that started after a completed revocation, and a token with `m` uses is used
successfully at most `m` times. -/
theorem capUse_bounded (mac : Mac) (k₀ : KernelCaps) (hempty : k₀.table = ChainTable.empty)
    (actions : List (CapAction θ)) (s : CapThreads θ)
    (hrun : runSteps (step mac) (start k₀) actions = some s) :
    (s.kernel.table.entries.map CapStateEntry.capId).Nodup ∧
    (∀ id checked event time, event ∈ s.log → Granted id checked event →
      .revoked id time .success ∈ s.log → checked < time) ∧
    (∀ c m, 0 < m → (∀ a ∈ actions, PresentsLimit mac k₀ c m a) → s.uses c ≤ m.toNat) := by
  have hstart : Ordered k₀ (start k₀ : CapThreads θ) :=
    .start (hempty ▸ ChainTable.wellFormed_empty)
  have hord : Ordered k₀ s :=
    runSteps_invariant (fun s a s' h hstep => h.move (move_of_step hstep)) hstart hrun
  refine ⟨hord.sound.wellFormed.nodup_entries, ?_, ?_⟩
  · intro id checked event time hev hgranted hrev
    exact (hord.granted id checked event hev hgranted).2 time hrev
  · intro c m hm hlimits
    have hcounted : Counted k₀ c m (start k₀ : CapThreads θ) := by
      refine ⟨hstart, ?_, by simp [start]⟩
      have hnone : capStateLookup (start k₀ : CapThreads θ).kernel c = none := by
        simp only [start, capStateLookup, hempty]
        rfl
      unfold Budget
      rw [hnone]
      rfl
    have hmeet : StepsMeet (step mac) (fun _ a => PresentsLimit mac k₀ c m a)
        (start k₀ : CapThreads θ) actions := stepsMeet_of_forall hlimits
    have hfinal := runSteps_invariant_of_guard
      (fun s a s' h hg hstep => Counted.step hm h hg hstep) hcounted hmeet hrun
    exact Budget.le hfinal.budget

def bootKernel : KernelCaps := { capInit with keySet := true, capServerTask := some 0 }

def onceCap (mac : Mac) : UrosCap :=
  capSign mac capInit.hmacKey { UrosCap.zero with capId := 7, maxUses := 1 }

theorem copyin_onceCap : capCopyinToken (onceCap mac).encode = some (onceCap mac) := by
  simp [capCopyinToken]

theorem step_onceCap {s : CapThreads Bool} (hkernel : s.kernel = bootKernel) {thread : Bool}
    (hidle : s.phase thread = .idle) :
    step mac s (.useEnter thread (onceCap mac).encode 0 0) =
      some (s.block thread (.consuming (onceCap mac) s.now)) := by
  have hnone : capStateLookup bootKernel (onceCap mac).capId = none := rfl
  have hauth : capHmacCheck mac bootKernel (onceCap mac) = true := capVerifyHmac_capSign
  have hcheck : capCheckLocked mac bootKernel (onceCap mac) 0 0 = .success := by
    refine capCheckLocked_iff.mpr ⟨rfl, hauth, rfl, by simp, rfl, ?_⟩
    simp [RevokedIn, hnone]
  have hmax : (onceCap mac).maxUses ≠ 0 := (by decide : (1 : UInt32) ≠ 0)
  simp only [step, hidle, hkernel, copyin_onceCap, capUseEnter, hcheck, hmax, if_false, hnone]

/-- Both threads pass the check before either of them has the entry. -/
def raceOnce (mac : Mac) : List (CapAction Bool) :=
  [.useEnter true (onceCap mac).encode 0 0, .useEnter false (onceCap mac).encode 0 0,
    .useResume true true, .useResume false true]

theorem run_raceOnce :
    ∃ s, runSteps (step mac) (start bootKernel) (raceOnce mac) = some s := by
  have hresume : ∃ s, runSteps (step mac)
      (((start bootKernel).block true (.consuming (onceCap mac) 0)).block false
        (.consuming (onceCap mac) 1)) [.useResume true true, .useResume false true] = some s :=
    ⟨_, rfl⟩
  obtain ⟨s, hs⟩ := hresume
  exact ⟨s, runSteps_cons.mpr ⟨_, step_onceCap rfl rfl, runSteps_cons.mpr
    ⟨_, step_onceCap rfl rfl, hs⟩⟩⟩

theorem capUse_bounded_race :
    ∃ s, runSteps (step portableHmac) (start bootKernel) (raceOnce portableHmac) = some s ∧
      (s.kernel.table.entries.map CapStateEntry.capId).Nodup ∧ s.uses 7 ≤ 1 := by
  obtain ⟨s, hs⟩ := @run_raceOnce portableHmac
  have h := capUse_bounded portableHmac bootKernel rfl _ s hs
  refine ⟨s, hs, h.1, h.2.2 7 1 (by decide) ?_⟩
  simp only [raceOnce, List.mem_cons, List.not_mem_nil, or_false, forall_eq_or_imp, forall_eq,
    PresentsLimit, copyin_onceCap, Option.some.injEq, and_true]
  refine ⟨?_, ?_⟩ <;>
  · rintro t rfl - -
    rfl

end CapThreads

end Uros.Cap
