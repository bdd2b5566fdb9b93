import Uros.Flipc2.Fifo

/-!
Handles that are attached to a channel in use.

A new handle starts with zero as the cached counter of the other side, whatever the
counters are by then.  The peer of the new handle is any task that keeps to the ring:
it commits only while there is room and releases only what was committed.
-/

namespace Uros.Flipc2

open Uros.Foundation

variable {c : Counters} {ch : Channel} {k : Nat}

def Counters.Pending (c : Counters) (ptr : UInt32) : Prop :=
  ahead c.consHead ptr < ahead c.consHead c.prodTail

def PeekSafe (c : Counters) (ch : Channel) : Prop :=
  ∀ slot, (consumePeek c ch).1 = some slot → c.Pending c.consHead ∧ slot = ch.slot c.consHead

def ReserveSafe (c : Counters) (ch : Channel) : Prop :=
  ∀ slot, (produceReserve c ch).1 = some slot → ∀ ptr, c.Pending ptr → ch.slot ptr ≠ slot

structure Attached where
  counters : Counters
  handle : Channel
  held : Option Nat

inductive ConsumerStep where
  | peek
  | release
  | produced

def Attached.consumerStep (s : Attached) : ConsumerStep → Option Attached
  | .peek =>
    let (held, handle) := consumePeek s.counters s.handle
    some { s with held, handle }
  | .release => s.held.map fun _ =>
    { s with counters := consumeRelease s.counters, held := none }
  | .produced =>
    if ahead s.counters.consHead s.counters.prodTail < s.handle.ringEntries.toNat then
      some { s with counters := produceCommit s.counters }
    else none

inductive ProducerStep where
  | reserve
  | commit
  | consumed

def Attached.producerStep (s : Attached) : ProducerStep → Option Attached
  | .reserve =>
    let (held, handle) := produceReserve s.counters s.handle
    some { s with held, handle }
  | .commit => s.held.map fun _ =>
    { s with counters := produceCommit s.counters, held := none }
  | .consumed =>
    if 0 < ahead s.counters.consHead s.counters.prodTail then
      some { s with counters := consumeRelease s.counters }
    else none

def ConsumerSafe (c : Counters) (ch : Channel) : Prop :=
  ∀ events s, runSteps Attached.consumerStep ⟨c, ch, none⟩ events = some s →
    PeekSafe s.counters s.handle

/-- The new handle is the only producer and never reserves a slot in use. -/
def ProducerSafe (c : Counters) (ch : Channel) : Prop :=
  ∀ events s, runSteps Attached.producerStep ⟨c, ch, none⟩ events = some s →
    ReserveSafe s.counters s.handle

theorem Channel.RingOk.slot_ahead (hch : ch.RingOk k) (a b : UInt32) :
    ch.slot b = (a.toNat + ahead a b) % 2 ^ k := by
  nth_rewrite 1 [eq_ofNat_add_ahead a b]
  exact hch.slot_ofNat _

theorem reserveSafe_iff (hch : ch.RingOk k) (hroom : ahead c.consHead c.prodTail ≤ 2 ^ k) :
    ReserveSafe c ch ↔
      ((produceReserve c ch).1 ≠ none → ahead c.consHead c.prodTail < 2 ^ k) := by
  have hslot : ∀ slot, (produceReserve c ch).1 = some slot → slot = ch.slot c.prodTail := by
    intro slot
    rw [produceReserve_eq]
    split
    · intro h
      exact (Option.some.inj (Option.ite_none_left_eq_some.mp h).2).symm
    · intro h
      exact (Option.some.inj h).symm
  constructor
  · intro hsafe hsome
    obtain ⟨slot, hreserve⟩ := Option.ne_none_iff_exists'.mp hsome
    by_contra hfull
    have heq : ahead c.consHead c.prodTail = 2 ^ k := by omega
    have hpos := Nat.two_pow_pos k
    have hpending : c.Pending c.consHead := by
      rw [Counters.Pending, ahead_self]
      omega
    refine hsafe slot hreserve c.consHead hpending ?_
    rw [hslot slot hreserve, hch.slot_ahead c.consHead c.prodTail,
      hch.slot_ahead c.consHead c.consHead, heq, ahead_self, Nat.add_zero, Nat.add_mod_right]
  · intro hfree slot hreserve ptr hpending
    have hlt := hfree (by rw [hreserve]; exact Option.some_ne_none slot)
    rw [Counters.Pending] at hpending
    rw [hslot slot hreserve, hch.slot_ahead c.consHead c.prodTail,
      hch.slot_ahead c.consHead ptr]
    exact mod_ne_of_window (by omega) (by omega)

theorem peekSafe_iff :
    PeekSafe c ch ↔ ((consumePeek c ch).1 ≠ none → 0 < ahead c.consHead c.prodTail) := by
  have hslot : ∀ slot, (consumePeek c ch).1 = some slot → slot = ch.slot c.consHead := by
    intro slot
    rw [consumePeek_eq]
    split
    · intro h
      exact (Option.some.inj (Option.ite_none_left_eq_some.mp h).2).symm
    · intro h
      exact (Option.some.inj h).symm
  have hpending : c.Pending c.consHead ↔ 0 < ahead c.consHead c.prodTail := by
    rw [Counters.Pending, ahead_self]
  constructor
  · intro hsafe hsome
    obtain ⟨slot, hpeek⟩ := Option.ne_none_iff_exists'.mp hsome
    exact hpending.mp (hsafe slot hpeek).1
  · intro h slot hpeek
    refine ⟨hpending.mpr (h ?_), hslot slot hpeek⟩
    rw [hpeek]
    exact Option.some_ne_none slot

structure ConsumerOk (k : Nat) (s : Attached) : Prop where
  ring : s.handle.RingOk k
  room : ahead s.counters.consHead s.counters.prodTail ≤ 2 ^ k
  cached : 2 ^ k < ahead s.counters.consHead s.handle.cachedProdTail ∨
    ahead s.counters.consHead s.handle.cachedProdTail ≤
      ahead s.counters.consHead s.counters.prodTail
  held : s.held ≠ none → 0 < ahead s.counters.consHead s.handle.cachedProdTail ∧
    ahead s.counters.consHead s.handle.cachedProdTail ≤
      ahead s.counters.consHead s.counters.prodTail

variable {s s' : Attached}

theorem ConsumerOk.peekSafe (hs : ConsumerOk k s) : PeekSafe s.counters s.handle := by
  rw [peekSafe_iff, consumePeek_eq, hs.ring.entries]
  intro hsome
  by_contra hempty
  have hcached := hs.cached
  have hzero : ahead s.counters.consHead s.counters.prodTail = 0 := by omega
  rw [if_pos (by omega), if_pos (Or.inl hzero)] at hsome
  exact hsome rfl

theorem ConsumerOk.step {ev : ConsumerStep} (hs : ConsumerOk k s)
    (hstep : s.consumerStep ev = some s') : ConsumerOk k s' := by
  have hroom := hs.room
  have hcached := hs.cached
  have hpow := hs.ring.pow_le
  cases ev with
  | peek =>
    simp only [Attached.consumerStep, consumePeek_eq, hs.ring.entries,
      Option.some.injEq] at hstep
    by_cases hread : ahead s.counters.consHead s.handle.cachedProdTail = 0 ∨
        2 ^ k < ahead s.counters.consHead s.handle.cachedProdTail
    · rw [if_pos hread] at hstep
      subst hstep
      refine ⟨⟨hs.ring.le, hs.ring.entries, hs.ring.mask⟩, hroom, .inr (Nat.le_refl _), ?_⟩
      intro hsome
      refine ⟨?_, Nat.le_refl _⟩
      by_contra hzero
      exact hsome (if_pos (Or.inl (Nat.eq_zero_of_not_pos hzero)))
    · rw [if_neg hread] at hstep
      subst hstep
      have hpos : 0 < ahead s.counters.consHead s.handle.cachedProdTail := by omega
      have hle := hcached.resolve_left fun h => hread (.inr h)
      exact ⟨hs.ring, hroom, hcached, fun _ => ⟨hpos, hle⟩⟩
  | release =>
    obtain ⟨slot, hslot, rfl⟩ := Option.map_eq_some_iff.mp hstep
    obtain ⟨hpos, hle⟩ := hs.held (by rw [hslot]; exact Option.some_ne_none slot)
    have hhead := ahead_pred hpos
    have htail := ahead_pred (Nat.lt_of_lt_of_le hpos hle)
    refine ⟨hs.ring, ?_, .inr ?_, fun h => absurd rfl h⟩
    · simp only [consumeRelease, htail]
      omega
    · simp only [consumeRelease, htail, hhead]
      omega
  | produced =>
    simp only [Attached.consumerStep, hs.ring.entries] at hstep
    obtain ⟨hlt, heq⟩ := Option.ite_none_right_eq_some.mp hstep
    cases heq
    have htail := ahead_succ (a := s.counters.consHead) (b := s.counters.prodTail) (by omega)
    refine ⟨hs.ring, ?_, ?_, fun h => ?_⟩
    · simp only [produceCommit, htail]
      exact hlt
    · simp only [produceCommit, htail]
      omega
    · obtain ⟨hpos, hle⟩ := hs.held h
      simp only [produceCommit, htail]
      exact ⟨hpos, Nat.le_succ_of_le hle⟩

theorem exists_unsafe_peek (hch : ch.RingOk k) (n : Nat) :
    ∀ c : Counters, ahead c.consHead c.prodTail = n → n < ahead c.consHead ch.cachedProdTail →
      ahead c.consHead ch.cachedProdTail ≤ 2 ^ k → ¬ConsumerSafe c ch := by
  induction n with
  | zero =>
    intro c hn hlt hle hsafe
    have hnow : PeekSafe c ch := hsafe [] ⟨c, ch, none⟩ rfl
    have hpeek := peekSafe_iff.mp hnow
    simp only [consumePeek_eq, hch.entries] at hpeek
    rw [if_neg (by omega)] at hpeek
    have := hpeek (Option.some_ne_none _)
    omega
  | succ n ih =>
    intro c hn hlt hle hsafe
    have hhead := ahead_pred (a := c.consHead) (b := ch.cachedProdTail) (by omega)
    have htail := ahead_pred (a := c.consHead) (b := c.prodTail) (by omega)
    refine ih (consumeRelease c) ?_ ?_ ?_ ?_
    · simp only [consumeRelease, htail]
      omega
    · simp only [consumeRelease, hhead]
      omega
    · simp only [consumeRelease, hhead]
      omega
    · -- peek and release, and go on as before
      intro events s hrun
      refine hsafe (.peek :: .release :: events) s ?_
      refine runSteps_cons.mpr ⟨⟨c, ch, some (ch.slot c.consHead)⟩, ?_, ?_⟩
      · simp only [Attached.consumerStep, consumePeek_eq, hch.entries]
        rw [if_neg (by omega)]
      · exact runSteps_cons.mpr ⟨_, rfl, hrun⟩

theorem consumerSafe_iff (hch : ch.RingOk k) (hzero : ch.cachedProdTail = 0)
    (hroom : ahead c.consHead c.prodTail ≤ 2 ^ k) : ConsumerSafe c ch ↔
      (c.consHead = 0 ∨ c.consHead.toNat + 2 ^ k < 2 ^ 32 ∨ c.prodTail < c.consHead) := by
  have hpow := hch.pow_le
  have hhead := c.consHead.toNat_lt
  have htail := c.prodTail.toNat_lt
  have hcached : ahead c.consHead 0 = (2 ^ 32 - c.consHead.toNat + 0) % 2 ^ 32 := ahead_eq _ 0
  have hahead := ahead_eq c.consHead c.prodTail
  rw [← UInt32.toNat_inj, UInt32.lt_iff_toNat_lt, UInt32.toNat_zero]
  constructor
  · intro hsafe
    by_contra hbad
    refine exists_unsafe_peek hch _ c rfl ?_ ?_ hsafe
    · rw [hzero, hcached, hahead]
      omega
    · rw [hzero, hcached]
      omega
  · intro hok events s hrun
    have hstart : ConsumerOk k ⟨c, ch, none⟩ := by
      refine ⟨hch, hroom, ?_, fun h => absurd rfl h⟩
      simp only [hzero, hcached, hahead]
      omega
    have hs : ConsumerOk k s :=
      runSteps_invariant (fun _ _ _ hs hstep => hs.step hstep) hstart hrun
    exact hs.peekSafe

structure ProducerOk (k : Nat) (s : Attached) : Prop where
  ring : s.handle.RingOk k
  room : ahead s.counters.consHead s.counters.prodTail ≤ 2 ^ k
  cached : 2 ^ k ≤ ahead s.handle.cachedConsHead s.counters.prodTail ∨
    ahead s.counters.consHead s.counters.prodTail ≤
      ahead s.handle.cachedConsHead s.counters.prodTail
  held : s.held ≠ none → ahead s.handle.cachedConsHead s.counters.prodTail < 2 ^ k ∧
    ahead s.counters.consHead s.counters.prodTail ≤
      ahead s.handle.cachedConsHead s.counters.prodTail

theorem ProducerOk.reserveSafe (hs : ProducerOk k s) : ReserveSafe s.counters s.handle := by
  rw [reserveSafe_iff hs.ring hs.room, produceReserve_eq, hs.ring.entries]
  intro hsome
  by_contra hfull
  have hcached := hs.cached
  rw [if_pos (by omega), if_pos (by omega)] at hsome
  exact hsome rfl

theorem ProducerOk.step {ev : ProducerStep} (hs : ProducerOk k s)
    (hstep : s.producerStep ev = some s') : ProducerOk k s' := by
  have hroom := hs.room
  have hcached := hs.cached
  have hpow := hs.ring.pow_le
  cases ev with
  | reserve =>
    simp only [Attached.producerStep, produceReserve_eq, hs.ring.entries,
      Option.some.injEq] at hstep
    by_cases hread : 2 ^ k ≤ ahead s.handle.cachedConsHead s.counters.prodTail
    · rw [if_pos hread] at hstep
      subst hstep
      refine ⟨⟨hs.ring.le, hs.ring.entries, hs.ring.mask⟩, hroom, .inr (Nat.le_refl _), ?_⟩
      intro hsome
      refine ⟨?_, Nat.le_refl _⟩
      by_contra hfull
      exact hsome (if_pos (Nat.le_of_not_lt hfull))
    · rw [if_neg hread] at hstep
      subst hstep
      have hle := hcached.resolve_left hread
      exact ⟨hs.ring, hroom, hcached, fun _ => ⟨Nat.lt_of_not_le hread, hle⟩⟩
  | commit =>
    obtain ⟨slot, hslot, rfl⟩ := Option.map_eq_some_iff.mp hstep
    obtain ⟨hlt, hle⟩ := hs.held (by rw [hslot]; exact Option.some_ne_none slot)
    have hhead := ahead_succ (a := s.counters.consHead) (b := s.counters.prodTail) (by omega)
    have hseen :=
      ahead_succ (a := s.handle.cachedConsHead) (b := s.counters.prodTail) (by omega)
    refine ⟨hs.ring, ?_, .inr ?_, fun h => absurd rfl h⟩
    · simp only [produceCommit, hhead]
      omega
    · simp only [produceCommit, hhead, hseen]
      omega
  | consumed =>
    obtain ⟨hpos, heq⟩ := Option.ite_none_right_eq_some.mp hstep
    cases heq
    have hhead := ahead_pred hpos
    refine ⟨hs.ring, ?_, ?_, fun h => ?_⟩
    · simp only [consumeRelease, hhead]
      omega
    · simp only [consumeRelease, hhead]
      omega
    · obtain ⟨hlt, hle⟩ := hs.held h
      simp only [consumeRelease, hhead]
      exact ⟨hlt, Nat.le_trans (Nat.sub_le _ _) hle⟩

theorem exists_unsafe_reserve (hch : ch.RingOk k) (n : Nat) :
    ∀ c : Counters, ahead c.consHead c.prodTail + n = 2 ^ k →
      ahead ch.cachedConsHead c.prodTail < ahead c.consHead c.prodTail → ¬ProducerSafe c ch := by
  have hpow := hch.pow_le
  induction n with
  | zero =>
    intro c hn hlt hsafe
    have hnow : ReserveSafe c ch := hsafe [] ⟨c, ch, none⟩ rfl
    have hreserve := (reserveSafe_iff hch (by omega)).mp hnow
    simp only [produceReserve_eq, hch.entries] at hreserve
    rw [if_neg (by omega)] at hreserve
    have := hreserve (Option.some_ne_none _)
    omega
  | succ n ih =>
    intro c hn hlt hsafe
    have hhead := ahead_succ (a := c.consHead) (b := c.prodTail) (by omega)
    have hseen := ahead_succ (a := ch.cachedConsHead) (b := c.prodTail) (by omega)
    refine ih (produceCommit c) ?_ ?_ ?_
    · simp only [produceCommit, hhead]
      omega
    · simp only [produceCommit, hhead, hseen]
      omega
    · -- reserve and commit, and go on as before
      intro events s hrun
      refine hsafe (.reserve :: .commit :: events) s ?_
      refine runSteps_cons.mpr ⟨⟨c, ch, some (ch.slot c.prodTail)⟩, ?_, ?_⟩
      · simp only [Attached.producerStep, produceReserve_eq, hch.entries]
        rw [if_neg (by omega)]
      · exact runSteps_cons.mpr ⟨_, rfl, hrun⟩

theorem producerSafe_iff (hch : ch.RingOk k) (hzero : ch.cachedConsHead = 0)
    (hroom : ahead c.consHead c.prodTail ≤ 2 ^ k) : ProducerSafe c ch ↔
      (2 ^ k ≤ c.prodTail.toNat ∨ c.consHead ≤ c.prodTail) := by
  have hpow := hch.pow_le
  have hhead := c.consHead.toNat_lt
  have htail := c.prodTail.toNat_lt
  have hcached : ahead 0 c.prodTail = (2 ^ 32 - 0 + c.prodTail.toNat) % 2 ^ 32 := ahead_eq 0 _
  have hahead := ahead_eq c.consHead c.prodTail
  rw [UInt32.le_iff_toNat_le]
  constructor
  · intro hsafe
    by_contra hbad
    refine exists_unsafe_reserve hch (2 ^ k - ahead c.consHead c.prodTail) c ?_ ?_ hsafe
    · omega
    · rw [hzero, hcached, hahead]
      omega
  · intro hok events s hrun
    have hstart : ProducerOk k ⟨c, ch, none⟩ := by
      refine ⟨hch, hroom, ?_, fun h => absurd rfl h⟩
      simp only [hzero, hcached, hahead]
      omega
    have hs : ProducerOk k s :=
      runSteps_invariant (fun _ _ _ hs hstep => hs.step hstep) hstart hrun
    exact hs.reserveSafe

def AttachedTo (hdr : ChannelHeader) (ch : Channel) : Prop :=
  ∃ base handle, channelAttach base hdr handle = .ok ch ∨
    ∃ mappedSize, channelAttachRemote base mappedSize hdr handle = .ok ch

theorem AttachedTo.eq_initHandle {hdr : ChannelHeader} (h : AttachedTo hdr ch) :
    (∃ base, channelAttach base hdr true = .ok (initHandle hdr)) ∧
      ∃ mappedSize, ch = { initHandle hdr with mappedSize } := by
  obtain ⟨base, handle, hattach | ⟨mappedSize, hattach⟩⟩ := h
  · obtain ⟨-, -, -, -, -, -, rfl, rfl⟩ := channelAttach_eq_ok.mp hattach
    exact ⟨⟨base, hattach⟩, 0, rfl⟩
  · cases hch' : channelAttach base hdr handle with
    | error e =>
      rw [channelAttachRemote, hch'] at hattach
      cases hattach
    | ok ch' =>
      rw [channelAttachRemote, hch'] at hattach
      cases hattach
      obtain ⟨-, -, -, -, -, -, rfl, rfl⟩ := channelAttach_eq_ok.mp hch'
      exact ⟨⟨base, hch'⟩, mappedSize, rfl⟩

variable {hdr : ChannelHeader}

theorem AttachedTo.ringOk (h : AttachedTo hdr ch) :
    ∃ k, ch.RingOk k ∧ hdr.ringEntries.toNat = 2 ^ k := by
  obtain ⟨⟨base, hattach⟩, mappedSize, rfl⟩ := h.eq_initHandle
  obtain ⟨-, -, hentries, hmask, -⟩ := channelAttach_eq_ok.mp hattach
  obtain ⟨k, hring⟩ := ringOk_initHandle hentries hmask
  exact ⟨k, ⟨hring.le, hring.entries, hring.mask⟩, hring.entries⟩

/-- An empty ring at the last counters before the wrap, and a full one after it. -/
theorem stale_zero_accepted :
    AttachedTo (initHeader 16384 16 1) (initHandle (initHeader 16384 16 1)) ∧
    ((consumePeek ⟨4294967291, 4294967291⟩ (initHandle (initHeader 16384 16 1))).1 = some 11 ∧
      ∀ ptr, ¬Counters.Pending ⟨4294967291, 4294967291⟩ ptr) ∧
    (produceReserve ⟨3, 4294967283⟩ (initHandle (initHeader 16384 16 1))).1 = some 3 ∧
      Counters.Pending ⟨3, 4294967283⟩ 4294967283 ∧
      (initHandle (initHeader 16384 16 1)).slot 4294967283 = 3 := by
  refine ⟨⟨1, true, .inl rfl⟩, ⟨rfl, ?_⟩, rfl, ?_, rfl⟩
  · intro ptr hpending
    exact Nat.not_lt_zero _ (Nat.lt_of_lt_of_eq hpending (ahead_self _))
  · show ahead 4294967283 4294967283 < ahead 4294967283 3
    decide

/-- A new handle is safe just when zero is not taken for a counter value ahead of the
true one: as consumer it must not be within a ring size before the wrap of `cons_head`
unless `prod_tail` has wrapped, as producer not within a ring size after the wrap of
`prod_tail` unless `cons_head` has wrapped. -/
theorem attach_safe_iff (hattach : AttachedTo hdr ch) (c : Counters)
    (hc : ahead c.consHead c.prodTail ≤ hdr.ringEntries.toNat) :
    (ConsumerSafe c ch ↔ (c.consHead = 0 ∨
      c.consHead.toNat + hdr.ringEntries.toNat < 2 ^ 32 ∨ c.prodTail < c.consHead)) ∧
    (ProducerSafe c ch ↔
      (hdr.ringEntries.toNat ≤ c.prodTail.toNat ∨ c.consHead ≤ c.prodTail)) := by
  obtain ⟨k, hring, hentries⟩ := hattach.ringOk
  obtain ⟨-, mappedSize, rfl⟩ := hattach.eq_initHandle
  rw [hentries] at hc ⊢
  exact ⟨consumerSafe_iff hring rfl hc, producerSafe_iff hring rfl hc⟩

theorem attach_safe_iff_live :
    (ConsumerSafe ⟨1009, 1000⟩ (initHandle (initHeader 16384 16 1)) ∧
      ProducerSafe ⟨1009, 1000⟩ (initHandle (initHeader 16384 16 1))) ∧
    ¬ConsumerSafe ⟨4294967294, 4294967291⟩ (initHandle (initHeader 16384 16 1)) ∧
      ¬ProducerSafe ⟨3, 4294967291⟩ (initHandle (initHeader 16384 16 1)) := by
  have hattach : AttachedTo (initHeader 16384 16 1) (initHandle (initHeader 16384 16 1)) :=
    ⟨1, true, .inl rfl⟩
  obtain ⟨hconsumer, hproducer⟩ := attach_safe_iff hattach ⟨1009, 1000⟩ (by decide)
  obtain ⟨hbefore, -⟩ := attach_safe_iff hattach ⟨4294967294, 4294967291⟩ (by decide)
  obtain ⟨-, hafter⟩ := attach_safe_iff hattach ⟨3, 4294967291⟩ (by decide)
  refine ⟨⟨hconsumer.mpr (by decide), hproducer.mpr (by decide)⟩, ?_, ?_⟩
  · rw [hbefore]
    decide
  · rw [hafter]
    decide

end Uros.Flipc2
