import Uros.Foundation.Transition
import Uros.Flipc2.Channel

/-!
One producer and one consumer on a channel.

The steps are the calls of the two sides and the stores of the producer into a slot
that it has reserved.  Next to the shared memory the state holds the handle of each
side and the descriptors that were committed and released so far, each with its slot.
-/

namespace Uros.Flipc2

open Uros.Foundation

variable {α : Type} {k : Nat}

structure Channel.RingOk (ch : Channel) (k : Nat) : Prop where
  le : k ≤ 14
  entries : ch.ringEntries.toNat = 2 ^ k
  mask : ch.ringMask.toNat = 2 ^ k - 1

theorem ringEntriesOk_iff {n : UInt32} : ringEntriesOk n = true ↔
    isPowerOf2 n = true ∧ 16 ≤ n.toNat ∧ n.toNat ≤ 16384 := by
  simp only [ringEntriesOk, ringEntriesMin, ringEntriesMax, decide_eq_true_eq,
    UInt32.not_lt, gt_iff_lt, UInt32.le_iff_toNat_le]
  rfl

theorem exists_two_pow {n : UInt32} (hn : ringEntriesOk n = true) :
    ∃ k ≤ 14, n.toNat = 2 ^ k := by
  obtain ⟨hpow, hmin, hmax⟩ := ringEntriesOk_iff.mp hn
  obtain ⟨hne, hand⟩ := of_decide_eq_true hpow
  have hle : (1 : UInt32) ≤ n := by
    rw [UInt32.le_iff_toNat_le, UInt32.toNat_one]
    omega
  have hand' : n.toNat &&& (n.toNat - 1) = 0 := by
    have h := congrArg UInt32.toNat hand
    rwa [UInt32.toNat_and, UInt32.toNat_sub_of_le n 1 hle] at h
  obtain ⟨k, hk⟩ := (Nat.and_sub_one_eq_zero_iff_isPowerOfTwo (by omega)).mp hand'
  refine ⟨k, ?_, hk⟩
  by_contra hlt
  have hpow : 2 ^ 15 ≤ 2 ^ k := Nat.pow_le_pow_right (by decide) (by omega)
  omega

theorem ringOk_initHandle {hdr : ChannelHeader} (hn : ringEntriesOk hdr.ringEntries = true)
    (hmask : hdr.ringMask = hdr.ringEntries - 1) : ∃ k, (initHandle hdr).RingOk k := by
  obtain ⟨k, hk, hentries⟩ := exists_two_pow hn
  refine ⟨k, hk, hentries, ?_⟩
  have hpos := Nat.two_pow_pos k
  have hle : (1 : UInt32) ≤ hdr.ringEntries := by
    rw [UInt32.le_iff_toNat_le, UInt32.toNat_one, hentries]
    exact hpos
  rw [initHandle, hmask, UInt32.toNat_sub_of_le _ _ hle, hentries]
  rfl

theorem channelCreate_ok {size entries : UInt32} {ans : CreateAnswers} {hdr : ChannelHeader}
    {ch : Channel} (h : channelCreate size entries ans = .ok (hdr, ch)) :
    ch = initHandle hdr ∧ hdr.ringMask = hdr.ringEntries - 1 ∧
      ringEntriesOk hdr.ringEntries = true := by
  obtain ⟨hentries, rfl, rfl⟩ := channelCreateEx_eq_ok h
  exact ⟨rfl, rfl, hentries⟩

variable {c : Counters} {ch : Channel}

theorem reserve_full {re d : UInt32} : (re - d = 0 ∨ re - d > re) ↔ re.toNat ≤ d.toNat := by
  have hre := re.toNat_lt
  have hd := d.toNat_lt
  rw [← UInt32.toNat_inj, gt_iff_lt, UInt32.lt_iff_toNat_lt, UInt32.toNat_sub, UInt32.toNat_zero]
  omega

theorem produceReserve_eq : produceReserve c ch =
    if ch.ringEntries.toNat ≤ ahead ch.cachedConsHead c.prodTail then
      (if ch.ringEntries.toNat ≤ ahead c.consHead c.prodTail then none
        else some (ch.slot c.prodTail), { ch with cachedConsHead := c.consHead })
    else (some (ch.slot c.prodTail), ch) := by
  unfold produceReserve ahead
  refine if_congr reserve_full ?_ rfl
  by_cases hfull : ch.ringEntries.toNat ≤ (c.prodTail - c.consHead).toNat
  · rw [if_pos hfull]
    rcases reserve_full.mpr hfull with h | h <;> simp [h]
  · rw [if_neg hfull]
    obtain ⟨h₁, h₂⟩ := not_or.mp (mt reserve_full.mp hfull)
    simp only [if_neg h₁, if_neg h₂]
    rfl

theorem consumePeek_eq : consumePeek c ch =
    if ahead c.consHead ch.cachedProdTail = 0 ∨
        ch.ringEntries.toNat < ahead c.consHead ch.cachedProdTail then
      (if ahead c.consHead c.prodTail = 0 ∨ ch.ringEntries.toNat < ahead c.consHead c.prodTail
        then none else some (ch.slot c.consHead), { ch with cachedProdTail := c.prodTail })
    else (some (ch.slot c.consHead), ch) := by
  have havail : ∀ {re d : UInt32}, (d = 0 ∨ d > re) ↔ (d.toNat = 0 ∨ re.toNat < d.toNat) := by
    intro re d
    rw [← UInt32.toNat_inj, gt_iff_lt, UInt32.lt_iff_toNat_lt, UInt32.toNat_zero]
  unfold consumePeek ahead
  refine if_congr havail ?_ rfl
  simp only [← havail]
  by_cases hempty : c.prodTail - c.consHead = 0
  · simp [hempty]
  · by_cases hmany : c.prodTail - c.consHead > ch.ringEntries
    · simp [hmany]
    · simp only [if_neg hempty, if_neg hmany, if_neg (not_or.mpr ⟨hempty, hmany⟩)]
      rfl

structure SpscState (α : Type) where
  counters : Counters
  slots : Nat → α
  producer : Channel
  consumer : Channel
  reserved : Option Nat
  peeked : Option Nat
  committed : List (Nat × α)
  released : List (Nat × α)

inductive SpscStep (α : Type) where
  | reserve
  | write (desc : α)
  | commit
  | peek
  | release

def SpscState.step (s : SpscState α) : SpscStep α → Option (SpscState α)
  | .reserve =>
    let (reserved, producer) := produceReserve s.counters s.producer
    some { s with reserved, producer }
  | .write desc => s.reserved.map fun slot =>
    { s with slots := Function.update s.slots slot desc }
  | .commit => s.reserved.map fun slot =>
    { s with counters := produceCommit s.counters, reserved := none
             committed := s.committed ++ [(slot, s.slots slot)] }
  | .peek =>
    let (peeked, consumer) := consumePeek s.counters s.consumer
    some { s with peeked, consumer }
  | .release => s.peeked.map fun slot =>
    { s with counters := consumeRelease s.counters, peeked := none
             released := s.released ++ [(slot, s.slots slot)] }

def SpscState.start (hdr : ChannelHeader) (slots : Nat → α) : SpscState α where
  counters := ⟨0, 0⟩
  slots
  producer := initHandle hdr
  consumer := initHandle hdr
  reserved := none
  peeked := none
  committed := []
  released := []

/-- What was released is what was committed first, and a reservation hands out no slot
of the rest. -/
structure SpscState.Fifo (s : SpscState α) : Prop where
  order : s.released <+: s.committed
  fresh : ∀ slot, (produceReserve s.counters s.producer).1 = some slot →
    ∀ desc ∈ s.committed.drop s.released.length, desc.1 ≠ slot

structure SpscState.Inv (s : SpscState α) (k h t : Nat) : Prop where
  producer : s.producer.RingOk k
  consumer : s.consumer.RingOk k
  prodTail : s.counters.prodTail = UInt32.ofNat s.committed.length
  consHead : s.counters.consHead = UInt32.ofNat s.released.length
  cachedHead : s.producer.cachedConsHead = UInt32.ofNat h
  cachedTail : s.consumer.cachedProdTail = UInt32.ofNat t
  head_le : h ≤ s.released.length
  full : s.committed.length ≤ h + 2 ^ k
  le_tail : s.released.length ≤ t
  tail_le : t ≤ s.committed.length
  reserved : ∀ slot, s.reserved = some slot →
    slot = s.committed.length % 2 ^ k ∧ s.committed.length < h + 2 ^ k
  peeked : ∀ slot, s.peeked = some slot →
    slot = s.released.length % 2 ^ k ∧ s.released.length < t
  slots : InSlots (2 ^ k) (fun i => (i, s.slots i)) s.committed s.released.length
  order : s.released = s.committed.take s.released.length

def Consistent (k : Nat) (s : SpscState α) : Prop := ∃ h t, s.Inv k h t

variable {s s' : SpscState α} {h t : Nat}

theorem Channel.RingOk.pow_le (hch : ch.RingOk k) : 2 ^ k ≤ 16384 :=
  Nat.pow_le_pow_right (by decide) hch.le

theorem Channel.RingOk.slot_ofNat (hch : ch.RingOk k) (n : Nat) :
    ch.slot (UInt32.ofNat n) = n % 2 ^ k :=
  and_mask_ofNat (Nat.le_trans hch.le (by decide)) hch.mask

theorem SpscState.Inv.reserve_eq (hs : s.Inv k h t) : produceReserve s.counters s.producer =
    if 2 ^ k ≤ s.committed.length - h then
      (if 2 ^ k ≤ s.committed.length - s.released.length then none
        else some (s.committed.length % 2 ^ k),
      { s.producer with cachedConsHead := s.counters.consHead })
    else (some (s.committed.length % 2 ^ k), s.producer) := by
  have hpow := hs.producer.pow_le
  have hfull := hs.full
  have hhead := hs.head_le
  have htail := Nat.le_trans hs.le_tail hs.tail_le
  rw [produceReserve_eq, hs.producer.entries, hs.cachedHead, hs.prodTail, hs.consHead,
    ahead_ofNat (by omega) (by omega), ahead_ofNat htail (by omega), hs.producer.slot_ofNat]

theorem SpscState.Inv.peek_eq (hs : s.Inv k h t) : consumePeek s.counters s.consumer =
    if t - s.released.length = 0 then
      (if s.committed.length - s.released.length = 0 then none
        else some (s.released.length % 2 ^ k),
      { s.consumer with cachedProdTail := s.counters.prodTail })
    else (some (s.released.length % 2 ^ k), s.consumer) := by
  have hpow := hs.consumer.pow_le
  have hfull := hs.full
  have hhead := hs.head_le
  have htail := Nat.le_trans hs.le_tail hs.tail_le
  have ht := hs.tail_le
  have hcached : ¬2 ^ k < t - s.released.length := by omega
  have htrue : ¬2 ^ k < s.committed.length - s.released.length := by omega
  rw [consumePeek_eq, hs.consumer.entries, hs.cachedTail, hs.prodTail, hs.consHead,
    ahead_ofNat hs.le_tail (by omega), ahead_ofNat htail (by omega), hs.consumer.slot_ofNat]
  simp only [hcached, htrue, or_false]

theorem SpscState.Inv.start {hdr : ChannelHeader} (hring : (initHandle hdr).RingOk k)
    (slots : Nat → α) : (SpscState.start hdr slots).Inv k 0 0 where
  producer := hring
  consumer := hring
  prodTail := rfl
  consHead := rfl
  cachedHead := rfl
  cachedTail := rfl
  head_le := Nat.le_refl 0
  full := Nat.zero_le _
  le_tail := Nat.le_refl 0
  tail_le := Nat.le_refl 0
  reserved := nofun
  peeked := nofun
  slots := nofun
  order := rfl

theorem SpscState.Inv.reserve (hs : s.Inv k h t) (hstep : s.step .reserve = some s') :
    ∃ h', s'.Inv k h' t := by
  simp only [SpscState.step, hs.reserve_eq, Option.some.injEq] at hstep
  by_cases hseen : 2 ^ k ≤ s.committed.length - h
  · rw [if_pos hseen] at hstep
    subst hstep
    have hle := Nat.le_trans hs.le_tail hs.tail_le
    have hfull := hs.full
    have hhead := hs.head_le
    refine ⟨s.released.length, { hs with
      producer := ⟨hs.producer.le, hs.producer.entries, hs.producer.mask⟩
      cachedHead := hs.consHead, head_le := Nat.le_refl _, full := ?_, reserved := ?_ }⟩
    · exact Nat.le_trans hfull (Nat.add_le_add_right hhead _)
    · intro slot hslot
      obtain ⟨hroom, hslot⟩ := Option.ite_none_left_eq_some.mp hslot
      refine ⟨(Option.some.inj hslot).symm, ?_⟩
      show s.committed.length < s.released.length + 2 ^ k
      omega
  · rw [if_neg hseen] at hstep
    subst hstep
    refine ⟨h, { hs with reserved := ?_ }⟩
    intro slot hslot
    refine ⟨(Option.some.inj hslot).symm, ?_⟩
    show s.committed.length < h + 2 ^ k
    omega

theorem SpscState.Inv.write {desc : α} (hs : s.Inv k h t)
    (hstep : s.step (.write desc) = some s') : s'.Inv k h t := by
  obtain ⟨slot, hslot, rfl⟩ := Option.map_eq_some_iff.mp hstep
  obtain ⟨rfl, hroom⟩ := hs.reserved slot hslot
  have hupdate : (fun i => (i, Function.update s.slots (s.committed.length % 2 ^ k) desc i)) =
      Function.update (fun i => (i, s.slots i)) (s.committed.length % 2 ^ k)
        (s.committed.length % 2 ^ k, desc) := by
    funext i
    by_cases hi : i = s.committed.length % 2 ^ k
    · subst hi
      simp
    · simp [hi]
  refine { hs with slots := ?_ }
  rw [hupdate]
  exact hs.slots.write (Nat.lt_of_lt_of_le hroom (Nat.add_le_add_right hs.head_le _)) _

theorem SpscState.Inv.commit (hs : s.Inv k h t) (hstep : s.step .commit = some s') :
    s'.Inv k h t := by
  obtain ⟨slot, hslot, rfl⟩ := Option.map_eq_some_iff.mp hstep
  obtain ⟨rfl, hroom⟩ := hs.reserved slot hslot
  have hle := Nat.le_trans hs.le_tail hs.tail_le
  refine { hs with prodTail := ?_, full := ?_, tail_le := ?_, reserved := nofun
                   slots := hs.slots.push, order := ?_ }
  · simp only [produceCommit, hs.prodTail, List.length_append, List.length_singleton,
      UInt32.ofNat_add]
    rfl
  · rw [List.length_append]
    exact hroom
  · rw [List.length_append]
    exact Nat.le_succ_of_le hs.tail_le
  · rw [List.take_append_of_le_length hle]
    exact hs.order

theorem SpscState.Inv.peek (hs : s.Inv k h t) (hstep : s.step .peek = some s') :
    ∃ t', s'.Inv k h t' := by
  simp only [SpscState.step, hs.peek_eq, Option.some.injEq] at hstep
  by_cases hseen : t - s.released.length = 0
  · rw [if_pos hseen] at hstep
    subst hstep
    refine ⟨s.committed.length, { hs with
      consumer := ⟨hs.consumer.le, hs.consumer.entries, hs.consumer.mask⟩
      cachedTail := hs.prodTail, le_tail := Nat.le_trans hs.le_tail hs.tail_le
      tail_le := Nat.le_refl _, peeked := ?_ }⟩
    intro slot hslot
    obtain ⟨hsome, hslot⟩ := Option.ite_none_left_eq_some.mp hslot
    exact ⟨(Option.some.inj hslot).symm, Nat.lt_of_sub_ne_zero hsome⟩
  · rw [if_neg hseen] at hstep
    subst hstep
    refine ⟨t, { hs with peeked := ?_ }⟩
    intro slot hslot
    exact ⟨(Option.some.inj hslot).symm, Nat.lt_of_sub_ne_zero hseen⟩

theorem SpscState.Inv.release (hs : s.Inv k h t) (hstep : s.step .release = some s') :
    s'.Inv k h t := by
  obtain ⟨slot, hslot, rfl⟩ := Option.map_eq_some_iff.mp hstep
  obtain ⟨rfl, hsome⟩ := hs.peeked slot hslot
  have hlt : s.released.length < s.committed.length := Nat.lt_of_lt_of_le hsome hs.tail_le
  refine { hs with consHead := ?_, head_le := ?_, le_tail := ?_, peeked := nofun
                   slots := ?_, order := ?_ }
  · simp only [consumeRelease, hs.consHead, List.length_append, List.length_singleton,
      UInt32.ofNat_add]
    rfl
  · rw [List.length_append]
    exact Nat.le_succ_of_le hs.head_le
  · rw [List.length_append]
    exact hsome
  · rw [List.length_append]
    exact hs.slots.pop
  · rw [List.length_append, List.length_singleton, hs.slots.take_succ hlt, ← hs.order]

theorem SpscState.Inv.step {ev : SpscStep α} (hs : s.Inv k h t)
    (hstep : s.step ev = some s') : Consistent k s' := by
  cases ev with
  | reserve =>
    obtain ⟨h', hs'⟩ := hs.reserve hstep
    exact ⟨h', t, hs'⟩
  | write desc => exact ⟨h, t, hs.write hstep⟩
  | commit => exact ⟨h, t, hs.commit hstep⟩
  | peek =>
    obtain ⟨t', hs'⟩ := hs.peek hstep
    exact ⟨h, t', hs'⟩
  | release => exact ⟨h, t, hs.release hstep⟩

theorem SpscState.Inv.fifo (hs : s.Inv k h t) : s.Fifo where
  order := by
    rw [hs.order]
    exact List.take_prefix _ _
  fresh := by
    intro slot hslot desc hdesc
    have hroom : s.committed.length < s.released.length + 2 ^ k ∧
        slot = s.committed.length % 2 ^ k := by
      rw [hs.reserve_eq] at hslot
      have hhead := hs.head_le
      split at hslot
      · obtain ⟨hroom, hslot⟩ := Option.ite_none_left_eq_some.mp hslot
        exact ⟨by omega, (Option.some.inj hslot).symm⟩
      · exact ⟨by omega, (Option.some.inj hslot).symm⟩
    obtain ⟨i, hi⟩ := List.mem_iff_getElem?.mp hdesc
    rw [List.getElem?_drop] at hi
    have hlt := (List.getElem?_eq_some_iff.mp hi).1
    rw [← hs.slots _ desc (Nat.le_add_right _ _) hi, hroom.2]
    exact mod_ne_of_window hlt (by omega)

theorem SpscState.Inv.run {events : List (SpscStep α)} (hs : s.Inv k h t)
    (hrun : runSteps SpscState.step s events = some s') : Consistent k s' := by
  have hstart : Consistent k s := ⟨h, t, hs⟩
  apply runSteps_invariant ?_ hstart hrun
  rintro s ev s' ⟨h, t, hs⟩ hstep
  exact hs.step hstep

theorem SpscState.Inv.exists_round (hs : s.Inv k h t)
    (hempty : s.released.length = s.committed.length) :
    ∃ s', runSteps SpscState.step s [.reserve, .commit, .peek, .release] = some s' ∧
      s'.committed.length = s.committed.length + 1 ∧
      s'.released.length = s.released.length + 1 := by
  have hpos := Nat.two_pow_pos k
  obtain ⟨slot, producer, hreserve⟩ :
      ∃ slot producer, produceReserve s.counters s.producer = (some slot, producer) := by
    rw [hs.reserve_eq, if_neg (c := 2 ^ k ≤ s.committed.length - s.released.length) (by omega)]
    split
    · exact ⟨_, _, rfl⟩
    · exact ⟨_, _, rfl⟩
  let s₁ : SpscState α := { s with reserved := some slot, producer }
  have h₁ : s.step .reserve = some s₁ := by simp only [SpscState.step, hreserve, s₁]
  obtain ⟨h', hs₁⟩ := hs.reserve h₁
  let s₂ : SpscState α :=
    { s₁ with counters := produceCommit s.counters, reserved := none
              committed := s.committed ++ [(slot, s.slots slot)] }
  have h₂ : s₁.step .commit = some s₂ := rfl
  have hs₂ : s₂.Inv k h' t := hs₁.commit h₂
  obtain ⟨slot', consumer, hpeek⟩ :
      ∃ slot' consumer, consumePeek s₂.counters s₂.consumer = (some slot', consumer) := by
    have hone : s₂.committed.length - s₂.released.length ≠ 0 := by
      simp only [s₂, s₁, List.length_append, List.length_singleton]
      omega
    rw [hs₂.peek_eq, if_neg hone]
    split
    · exact ⟨_, _, rfl⟩
    · exact ⟨_, _, rfl⟩
  let s₃ : SpscState α := { s₂ with peeked := some slot', consumer }
  have h₃ : s₂.step .peek = some s₃ := by simp only [SpscState.step, hpeek, s₃]
  refine ⟨_, runSteps_cons.mpr ⟨s₁, h₁, runSteps_cons.mpr ⟨s₂, h₂, runSteps_cons.mpr
    ⟨s₃, h₃, runSteps_cons.mpr ⟨_, rfl, rfl⟩⟩⟩⟩, ?_, ?_⟩
  · exact List.length_append
  · exact List.length_append

theorem SpscState.Inv.exists_run {s : SpscState α} (hs : s.Inv k h t)
    (hcommitted : s.committed = []) (n : Nat) :
    ∃ events s', runSteps SpscState.step s events = some s' ∧
      s'.committed.length = n ∧ s'.released.length = n := by
  induction n with
  | zero =>
    have hreleased : s.released.length = 0 := by
      rw [hs.order, hcommitted, List.take_nil, List.length_nil]
    exact ⟨[], s, rfl, by rw [hcommitted, List.length_nil], hreleased⟩
  | succ n ih =>
    obtain ⟨events, s₁, hrun, hcommitted, hreleased⟩ := ih
    obtain ⟨h₁, t₁, hs₁⟩ := hs.run hrun
    obtain ⟨s₂, hround, hcommitted₂, hreleased₂⟩ :=
      hs₁.exists_round (hreleased.trans hcommitted.symm)
    refine ⟨_, s₂, runSteps_append.mpr ⟨s₁, hrun, hround⟩, ?_, ?_⟩
    · rw [hcommitted₂, hcommitted]
    · rw [hreleased₂, hreleased]

/-- Whatever the size of the ring, its counters pass through every 32-bit value, and at
every point of every interleaving descriptors come out as they went in. -/
theorem spsc_fifo {channelSize ringEntries : UInt32} {ans : CreateAnswers}
    {hdr : ChannelHeader} {ch : Channel}
    (hcreate : channelCreate channelSize ringEntries ans = .ok (hdr, ch)) (slots : Nat → α) :
    (∀ c : UInt32, ∃ events s, runSteps SpscState.step (.start hdr slots) events = some s ∧
      s.counters = ⟨c, c⟩) ∧
    ∀ events s, runSteps SpscState.step (.start hdr slots) events = some s → s.Fifo := by
  obtain ⟨-, hmask, hentries⟩ := channelCreate_ok hcreate
  obtain ⟨k, hring⟩ := ringOk_initHandle hentries hmask
  have hstart := SpscState.Inv.start hring slots
  constructor
  · intro c
    obtain ⟨events, s, hrun, hcommitted, hreleased⟩ := hstart.exists_run rfl c.toNat
    obtain ⟨h, t, hs⟩ := hstart.run hrun
    refine ⟨events, s, hrun, ?_⟩
    have htail := hs.prodTail
    have hhead := hs.consHead
    rw [hcommitted, UInt32.ofNat_toNat] at htail
    rw [hreleased, UInt32.ofNat_toNat] at hhead
    cases hc : s.counters with
    | mk prodTail consHead =>
      rw [hc] at htail hhead
      rw [Counters.mk.injEq]
      exact ⟨htail, hhead⟩
  · intro events s hrun
    obtain ⟨h, t, hs⟩ := hstart.run hrun
    exact hs.fifo

theorem spsc_fifo_sixteen :
    channelCreate 0 16 ⟨true, true⟩ =
      .ok (initHeader 16384 16 1, initHandle (initHeader 16384 16 1)) ∧
    ∀ events s, runSteps SpscState.step
      (.start (initHeader 16384 16 1) fun _ => (0 : Nat)) events = some s → s.Fifo :=
  ⟨rfl, (spsc_fifo (rfl : channelCreate 0 16 ⟨true, true⟩ = _) _).2⟩

end Uros.Flipc2
