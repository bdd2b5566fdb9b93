import Mathlib.Data.Finset.Card
import Mathlib.Order.Interval.Finset.Nat
import Uros.Foundation.SlotTable
import Uros.Flipc2.Fifo

/-!
Several producers and one consumer on a channel.

Every access of a producer to a shared counter is a step of its own: the atomic claim of an
index, the two loads of `cons_head` in an iteration of the spin loop, a test of the slow
path, the load and the store of `prod_tail` in the commit.  Sleeping and waking only delay
a producer between two tests and are left out.  `seq` is the true number of a claim, of
which `my_idx` holds the low 32 bits.
-/

namespace Uros.Flipc2

open Uros.Foundation

variable {α : Type} {k : Nat}

inductive MpscStage where
  | spinning
  | spun (consHead : UInt32)
  | waiting
  | granted
  | publishing
  deriving DecidableEq

structure MpscClaim where
  myIdx : UInt32
  stage : MpscStage
  seq : Nat

structure MpscState (α : Type) where
  counters : Counters
  prodReserved : UInt32
  slots : Nat → α
  ring : Channel
  producers : Nat → Option MpscClaim
  consumer : Channel
  peeked : Option Nat
  /-- How often an index was claimed, what was committed (with the number of the claim) and
  what was released, in order. -/
  claims : Nat
  committed : List (Nat × α)
  released : List α

def inWindow (myIdx consHead re : UInt32) : Bool := (myIdx - consHead).toInt32 < re.toInt32

inductive MpscStep (α : Type) where
  | claim (i : Nat)
  | spinRead (i : Nat)
  | spinTest (i : Nat)
  | spinEnd (i : Nat)
  | slowTest (i : Nat)
  | write (i : Nat) (desc : α)
  | tailTest (i : Nat)
  | publish (i : Nat)
  | peek
  | release

namespace MpscState

def restage (s : MpscState α) (i : Nat) (claim : MpscClaim) (stage : MpscStage) :
    MpscState α :=
  { s with producers := Function.update s.producers i (some { claim with stage }) }

def slotOf (s : MpscState α) (claim : MpscClaim) : Nat := s.ring.slot claim.myIdx

def withClaim (s : MpscState α) (i : Nat) (f : MpscClaim → Option (MpscState α)) :
    Option (MpscState α) :=
  (s.producers i).bind f

def step (n : Nat) (s : MpscState α) : MpscStep α → Option (MpscState α)
  | .claim i =>
    if i < n ∧ (s.producers i).isNone then
      some { s with
        prodReserved := s.prodReserved + 1
        producers := Function.update s.producers i (some ⟨s.prodReserved, .spinning, s.claims⟩)
        claims := s.claims + 1 }
    else none
  | .spinRead i => s.withClaim i fun p =>
    if p.stage = .spinning then some (s.restage i p (.spun s.counters.consHead)) else none
  | .spinTest i => s.withClaim i fun p =>
    match p.stage with
    | .spun consHead =>
      let space := s.ring.ringEntries - (p.myIdx - consHead)
      if inWindow p.myIdx s.counters.consHead s.ring.ringEntries ∧
          space ≤ s.ring.ringEntries then some (s.restage i p .granted)
      else some (s.restage i p .spinning)
    | _ => none
  | .spinEnd i => s.withClaim i fun p =>
    if p.stage = .spinning then some (s.restage i p .waiting) else none
  | .slowTest i => s.withClaim i fun p =>
    if p.stage = .waiting then
      if inWindow p.myIdx s.counters.consHead s.ring.ringEntries then
        some (s.restage i p .granted)
      else some s
    else none
  | .write i desc => s.withClaim i fun p =>
    if p.stage = .granted then
      some { s with slots := Function.update s.slots (s.slotOf p) desc }
    else none
  | .tailTest i => s.withClaim i fun p =>
    if p.stage = .granted then
      if s.counters.prodTail = p.myIdx then some (s.restage i p .publishing) else some s
    else none
  | .publish i => s.withClaim i fun p =>
    if p.stage = .publishing then
      some { s with
        counters := { s.counters with prodTail := p.myIdx + 1 }
        producers := Function.update s.producers i none
        committed := s.committed ++ [(p.seq, s.slots (s.slotOf p))] }
    else none
  | .peek =>
    let r := consumePeek s.counters s.consumer
    some { s with peeked := r.1, consumer := r.2 }
  | .release => s.peeked.map fun slot =>
    { s with
      counters := consumeRelease s.counters
      peeked := none
      released := s.released ++ [s.slots slot] }

def start (hdr : ChannelHeader) (slots : Nat → α) : MpscState α where
  counters := ⟨0, 0⟩
  prodReserved := 0
  slots
  ring := initHandle hdr
  producers := fun _ => none
  consumer := initHandle hdr
  peeked := none
  claims := 0
  committed := []
  released := []

end MpscState

def MpscClaim.Reserved (p : MpscClaim) : Prop := p.stage = .granted ∨ p.stage = .publishing

namespace MpscState

/-- Reservations of different producers have different slots, none of them the slot of a
committed descriptor that is not released; descriptors are committed in the order of their
claims without a gap and released in the order of the commits. -/
structure Ordered (s : MpscState α) : Prop where
  slots : ∀ i j p q, s.producers i = some p → s.producers j = some q → p.Reserved → q.Reserved →
    s.slotOf p = s.slotOf q → i = j
  unwritten : ∀ i p, s.producers i = some p → p.Reserved →
    ∀ m, s.released.length ≤ m → m < s.committed.length →
      s.slotOf p ≠ s.ring.slot (UInt32.ofNat m)
  seqs : s.committed.map Prod.fst = List.range s.committed.length
  fifo : s.released = (s.committed.map Prod.snd).take s.released.length

structure Inv (n k : Nat) (s : MpscState α) : Prop where
  ring : s.ring.RingOk k
  consumer : s.consumer.RingOk k
  reserved : s.prodReserved = UInt32.ofNat s.claims
  tail : s.counters.prodTail = UInt32.ofNat s.committed.length
  head : s.counters.consHead = UInt32.ofNat s.released.length
  cached : ∃ t, s.consumer.cachedProdTail = UInt32.ofNat t ∧ s.released.length ≤ t ∧
    t ≤ s.committed.length ∧
    ∀ slot, s.peeked = some slot → slot = s.released.length % 2 ^ k ∧ s.released.length < t
  le_claims : s.committed.length ≤ s.claims
  full : s.committed.length ≤ s.released.length + 2 ^ k
  held : ∀ i p, s.producers i = some p → i < n ∧ p.myIdx = UInt32.ofNat p.seq ∧
    s.committed.length ≤ p.seq ∧ p.seq < s.claims
  distinct : ∀ i j p q, s.producers i = some p → s.producers j = some q → p.seq = q.seq → i = j
  covered : ∀ m, s.committed.length ≤ m → m < s.claims → ∃ i p, s.producers i = some p ∧ p.seq = m
  window : ∀ i p, s.producers i = some p → p.Reserved → p.seq < s.released.length + 2 ^ k
  turn : ∀ i p, s.producers i = some p → p.stage = .publishing → p.seq = s.committed.length
  stored : InSlots (2 ^ k) s.slots (s.committed.map Prod.snd) s.released.length
  seqs : s.committed.map Prod.fst = List.range s.committed.length
  fifo : s.released = (s.committed.map Prod.snd).take s.released.length

variable {n : Nat} {s s' : MpscState α} {i : Nat} {p : MpscClaim}

theorem Inv.claims_le (hs : s.Inv n k) : s.claims ≤ s.committed.length + n := by
  choose! owner claim hclaim using hs.covered
  have hmap : ∀ m ∈ Finset.Ico s.committed.length s.claims, owner m ∈ Finset.range n := by
    intro m hm
    obtain ⟨hlo, hhi⟩ := Finset.mem_Ico.mp hm
    exact Finset.mem_range.mpr (hs.held _ _ (hclaim m hlo hhi).1).1
  have hinj : Set.InjOn owner (Finset.Ico s.committed.length s.claims) := by
    intro m hm m' hm' heq
    obtain ⟨hlo, hhi⟩ := Finset.mem_Ico.mp hm
    obtain ⟨hlo', hhi'⟩ := Finset.mem_Ico.mp hm'
    have h := hclaim m hlo hhi
    have h' := hclaim m' hlo' hhi'
    rw [← heq, h.1, Option.some.injEq] at h'
    rw [← h.2, h'.1, h'.2]
  have hcard := Finset.card_le_card_of_injOn owner hmap hinj
  rw [Nat.card_Ico, Finset.card_range] at hcard
  omega

theorem Inv.slotOf_eq (hs : s.Inv n k) (hp : s.producers i = some p) :
    s.slotOf p = p.seq % 2 ^ k := by
  rw [slotOf, (hs.held i p hp).2.1, hs.ring.slot_ofNat]

theorem Inv.ordered (hs : s.Inv n k) : s.Ordered where
  slots := by
    intro i j p q hp hq hpr hqr hslot
    rw [hs.slotOf_eq hp, hs.slotOf_eq hq] at hslot
    have hpw := hs.window i p hp hpr
    have hqw := hs.window j q hq hqr
    have hpl := (hs.held i p hp).2.2.1
    have hql := (hs.held j q hq).2.2.1
    have hle : s.released.length ≤ s.committed.length := by
      obtain ⟨t, -, h1, h2, -⟩ := hs.cached
      omega
    refine hs.distinct i j p q hp hq ?_
    rcases Nat.lt_trichotomy p.seq q.seq with hlt | heq | hgt
    · exact absurd hslot (mod_ne_of_window hlt (by omega))
    · exact heq
    · exact absurd hslot.symm (mod_ne_of_window hgt (by omega))
  unwritten := by
    intro i p hp hpr m hlo hhi
    rw [hs.slotOf_eq hp, hs.ring.slot_ofNat]
    have hpw := hs.window i p hp hpr
    have hpl := (hs.held i p hp).2.2.1
    exact (mod_ne_of_window (by omega) (by omega)).symm
  seqs := hs.seqs
  fifo := hs.fifo

theorem toInt_toInt32 (x : UInt32) :
    x.toInt32.toInt = if x.toNat < 2 ^ 31 then (x.toNat : Int) else x.toNat - 2 ^ 32 := by
  show x.toBitVec.toInt = _
  rw [BitVec.toInt_eq_toNat_cond, UInt32.toNat_toBitVec]
  split <;> split <;> omega

theorem inWindow_iff {myIdx consHead re : UInt32} (hre : re.toNat < 2 ^ 31) :
    inWindow myIdx consHead re = true ↔
      ahead consHead myIdx < re.toNat ∨ 2 ^ 31 ≤ ahead consHead myIdx := by
  rw [inWindow, decide_eq_true_eq, Int32.lt_iff_toInt_lt, toInt_toInt32, toInt_toInt32,
    if_pos hre, ahead]
  have hd := (myIdx - consHead).toNat_lt
  split <;> omega

theorem Inv.window_of_test (hs : s.Inv n k) (hn : n + 2 ^ k ≤ 2 ^ 31)
    (hp : s.producers i = some p)
    (htest : inWindow p.myIdx s.counters.consHead s.ring.ringEntries = true) :
    p.seq < s.released.length + 2 ^ k := by
  obtain ⟨-, hidx, hlo, hhi⟩ := hs.held i p hp
  have hclaims := hs.claims_le
  have hfull := hs.full
  have hpow := hs.ring.pow_le
  have hle : s.released.length ≤ s.committed.length := by
    obtain ⟨t, -, h1, h2, -⟩ := hs.cached
    omega
  have hre : s.ring.ringEntries.toNat < 2 ^ 31 := by
    rw [hs.ring.entries]
    omega
  rw [inWindow_iff hre, hidx, hs.head, ahead_ofNat (by omega) (by omega), hs.ring.entries] at htest
  omega

theorem restage_producers {stage : MpscStage} {j : Nat} {q : MpscClaim}
    (hp : s.producers i = some p) (hq : (s.restage i p stage).producers j = some q) :
    ∃ q₀, s.producers j = some q₀ ∧ q.seq = q₀.seq ∧ q.myIdx = q₀.myIdx ∧
      (q.stage = q₀.stage ∨ j = i ∧ q₀ = p ∧ q.stage = stage) := by
  rcases update_eq_some hq with ⟨rfl, h⟩ | ⟨-, hq⟩
  · obtain rfl := Option.some.inj h
    exact ⟨p, hp, rfl, rfl, .inr ⟨rfl, rfl, rfl⟩⟩
  · exact ⟨q, hq, rfl, rfl, .inl rfl⟩

theorem Inv.restage (hs : s.Inv n k) {stage : MpscStage} (hp : s.producers i = some p)
    (hwindow : stage = .granted ∨ stage = .publishing → p.seq < s.released.length + 2 ^ k)
    (hturn : stage = .publishing → p.seq = s.committed.length) :
    (s.restage i p stage).Inv n k := by
  refine { hs with held := ?_, distinct := ?_, covered := ?_, window := ?_, turn := ?_ }
  · intro j q hq
    obtain ⟨q₀, hq₀, hseq, hidx, -⟩ := restage_producers hp hq
    rw [hseq, hidx]
    exact hs.held j q₀ hq₀
  · intro j l q r hq hr hsame
    obtain ⟨q₀, hq₀, hseq, -⟩ := restage_producers hp hq
    obtain ⟨r₀, hr₀, hseq', -⟩ := restage_producers hp hr
    exact hs.distinct j l q₀ r₀ hq₀ hr₀ (hseq.symm.trans (hsame.trans hseq'))
  · intro m hlo hhi
    obtain ⟨j, q, hq, hseq⟩ := hs.covered m hlo hhi
    by_cases hj : j = i
    · subst hj
      rw [hp, Option.some.injEq] at hq
      subst hq
      exact ⟨j, { p with stage }, Function.update_self .., hseq⟩
    · exact ⟨j, q, (Function.update_of_ne hj _ _).trans hq, hseq⟩
  · intro j q hq hres
    obtain ⟨q₀, hq₀, hseq, -, hstage⟩ := restage_producers hp hq
    rw [hseq]
    rcases hstage with hstage | ⟨-, rfl, hstage⟩
    · exact hs.window j q₀ hq₀ (by rwa [MpscClaim.Reserved, ← hstage])
    · exact hwindow (hstage ▸ hres)
  · intro j q hq hpub
    obtain ⟨q₀, hq₀, hseq, -, hstage⟩ := restage_producers hp hq
    rw [hseq]
    rcases hstage with hstage | ⟨-, rfl, hstage⟩
    · exact hs.turn j q₀ hq₀ (hstage ▸ hpub)
    · exact hturn (hstage ▸ hpub)

theorem Inv.claim (hs : s.Inv n k) (hi : i < n) (hfree : s.producers i = none) :
    Inv n k { s with
      prodReserved := s.prodReserved + 1
      producers := Function.update s.producers i (some ⟨s.prodReserved, .spinning, s.claims⟩)
      claims := s.claims + 1 } := by
  refine { hs with reserved := ?_, le_claims := Nat.le_succ_of_le hs.le_claims, held := ?_
                   distinct := ?_, covered := ?_, window := ?_, turn := ?_ }
  · show s.prodReserved + 1 = UInt32.ofNat (s.claims + 1)
    rw [hs.reserved, UInt32.ofNat_add]
    rfl
  · intro j q hq
    rcases update_eq_some hq with ⟨rfl, ⟨⟩⟩ | ⟨-, hq⟩
    · exact ⟨hi, hs.reserved, hs.le_claims, Nat.lt_succ_self _⟩
    · obtain ⟨h1, h2, h3, h4⟩ := hs.held j q hq
      exact ⟨h1, h2, h3, Nat.lt_succ_of_lt h4⟩
  · intro j l q r hq hr hsame
    rcases update_eq_some hq with ⟨rfl, ⟨⟩⟩ | ⟨-, hq'⟩ <;>
      rcases update_eq_some hr with ⟨rfl, ⟨⟩⟩ | ⟨-, hr'⟩
    · rfl
    · exact absurd hsame.symm (Nat.ne_of_lt (hs.held l r hr').2.2.2)
    · exact absurd hsame (Nat.ne_of_lt (hs.held j q hq').2.2.2)
    · exact hs.distinct j l q r hq' hr' hsame
  · intro m hlo hhi
    by_cases hm : m < s.claims
    · obtain ⟨j, q, hq, hseq⟩ := hs.covered m hlo hm
      refine ⟨j, q, ?_, hseq⟩
      refine (Function.update_of_ne ?_ _ _).trans hq
      rintro rfl
      rw [hfree] at hq
      cases hq
    · refine ⟨i, _, Function.update_self .., ?_⟩
      have hhi : m < s.claims + 1 := hhi
      show s.claims = m
      omega
  · intro j q hq hres
    rcases update_eq_some hq with ⟨rfl, ⟨⟩⟩ | ⟨-, hq⟩
    · rcases hres with hres | hres <;> cases hres
    · exact hs.window j q hq hres
  · intro j q hq hpub
    rcases update_eq_some hq with ⟨rfl, ⟨⟩⟩ | ⟨-, hq⟩
    · cases hpub
    · exact hs.turn j q hq hpub

theorem Inv.write (hs : s.Inv n k) (hp : s.producers i = some p) (hres : p.Reserved) (desc : α) :
    Inv n k { s with slots := Function.update s.slots (s.slotOf p) desc } := by
  refine { hs with stored := ?_ }
  intro m item hm hitem
  have hlt : m < s.committed.length := by
    simpa using (List.getElem?_eq_some_iff.mp hitem).1
  have hne := hs.ordered.unwritten i p hp hres m hm hlt
  rw [hs.ring.slot_ofNat] at hne
  exact (Function.update_of_ne hne.symm _ _).trans (hs.stored m item hm hitem)

theorem Inv.publish (hs : s.Inv n k) (hp : s.producers i = some p) (hpub : p.stage = .publishing) :
    Inv n k { s with
      counters := { s.counters with prodTail := p.myIdx + 1 }
      producers := Function.update s.producers i none
      committed := s.committed ++ [(p.seq, s.slots (s.slotOf p))] } := by
  have hturn := hs.turn i p hp hpub
  have hwindow := hs.window i p hp (.inr hpub)
  obtain ⟨hi, hidx, hlo, hhi⟩ := hs.held i p hp
  have hlen : (s.committed ++ [(p.seq, s.slots (s.slotOf p))]).length =
      s.committed.length + 1 := by simp
  have hother {j : Nat} {q : MpscClaim} (hq : Function.update s.producers i none j = some q) :
      j ≠ i ∧ s.producers j = some q :=
    (update_eq_some hq).resolve_left (by simp)
  -- The claim that is published was the first one, so the others come after it.
  have hafter {j : Nat} {q : MpscClaim} (hj : j ≠ i) (hq : s.producers j = some q) :
      s.committed.length + 1 ≤ q.seq := by
    have := (hs.held j q hq).2.2.1
    have hne : q.seq ≠ p.seq := fun heq => hj (hs.distinct j i q p hq hp heq)
    omega
  have hle : s.released.length ≤ s.committed.length := by
    obtain ⟨t, -, h1, h2, -⟩ := hs.cached
    omega
  refine { hs with tail := ?_, cached := ?_, le_claims := ?_, full := ?_, held := ?_
                   distinct := ?_, covered := ?_, window := ?_, turn := ?_, stored := ?_
                   seqs := ?_, fifo := ?_ }
  · show p.myIdx + 1 = _
    rw [hlen, hidx, hturn, UInt32.ofNat_add]
    rfl
  · obtain ⟨t, ht, h1, h2, h3⟩ := hs.cached
    exact ⟨t, ht, h1, by rw [hlen]; omega, h3⟩
  · rw [hlen]
    show s.committed.length + 1 ≤ s.claims
    omega
  · rw [hlen]
    show s.committed.length + 1 ≤ s.released.length + 2 ^ k
    omega
  · intro j q hq
    obtain ⟨hj, hq⟩ := hother hq
    obtain ⟨h1, h2, -, h4⟩ := hs.held j q hq
    exact ⟨h1, h2, by rw [hlen]; exact hafter hj hq, h4⟩
  · intro j l q r hq hr hsame
    exact hs.distinct j l q r (hother hq).2 (hother hr).2 hsame
  · intro m hlo' hhi'
    rw [hlen] at hlo'
    obtain ⟨j, q, hq, hseq⟩ := hs.covered m (by omega) hhi'
    refine ⟨j, q, (Function.update_of_ne ?_ _ _).trans hq, hseq⟩
    rintro rfl
    rw [hp, Option.some.injEq] at hq
    subst hq
    omega
  · intro j q hq hres
    exact hs.window j q (hother hq).2 hres
  · intro j q hq hpub'
    obtain ⟨hj, hq⟩ := hother hq
    have := hafter hj hq
    have := hs.turn j q hq hpub'
    omega
  · have hpush := hs.stored.push
    rw [List.length_map, ← hturn, ← hs.slotOf_eq hp] at hpush
    rw [List.map_append]
    exact hpush
  · rw [hlen, List.map_append, hs.seqs, List.range_succ, hturn]
    rfl
  · rw [List.map_append, List.take_append_of_le_length (by simpa using hle)]
    exact hs.fifo

theorem Inv.peek (hs : s.Inv n k) :
    Inv n k { s with
      peeked := (consumePeek s.counters s.consumer).1
      consumer := (consumePeek s.counters s.consumer).2 } := by
  obtain ⟨t, ht, hrt, htc, -⟩ := hs.cached
  have hpow := hs.consumer.pow_le
  have hfull := hs.full
  have hcached : ¬2 ^ k < t - s.released.length := by omega
  have htrue : ¬2 ^ k < s.committed.length - s.released.length := by omega
  have hpeek : consumePeek s.counters s.consumer =
      if t - s.released.length = 0 then
        (if s.committed.length - s.released.length = 0 then none
          else some (s.released.length % 2 ^ k),
        { s.consumer with cachedProdTail := s.counters.prodTail })
      else (some (s.released.length % 2 ^ k), s.consumer) := by
    rw [consumePeek_eq, hs.consumer.entries, ht, hs.tail, hs.head, ahead_ofNat hrt (by omega),
      ahead_ofNat (by omega) (by omega), hs.consumer.slot_ofNat]
    simp only [hcached, htrue, or_false]
  rw [hpeek]
  by_cases hseen : t - s.released.length = 0
  · simp only [if_pos hseen]
    refine { hs with
      consumer := ⟨hs.consumer.le, hs.consumer.entries, hs.consumer.mask⟩
      cached := ⟨s.committed.length, hs.tail, Nat.le_trans hrt htc, Nat.le_refl _, ?_⟩ }
    intro slot hslot
    obtain ⟨hsome, hslot⟩ := Option.ite_none_left_eq_some.mp hslot
    exact ⟨(Option.some.inj hslot).symm, Nat.lt_of_sub_ne_zero hsome⟩
  · simp only [if_neg hseen]
    refine { hs with cached := ⟨t, ht, hrt, htc, ?_⟩ }
    intro slot hslot
    exact ⟨(Option.some.inj hslot).symm, Nat.lt_of_sub_ne_zero hseen⟩

theorem Inv.release (hs : s.Inv n k) {slot : Nat} (hslot : s.peeked = some slot) :
    Inv n k { s with
      counters := consumeRelease s.counters
      peeked := none
      released := s.released ++ [s.slots slot] } := by
  obtain ⟨t, ht, hrt, htc, hpeeked⟩ := hs.cached
  obtain ⟨rfl, hsome⟩ := hpeeked slot hslot
  have hfull := hs.full
  have hlen : (s.released ++ [s.slots (s.released.length % 2 ^ k)]).length =
      s.released.length + 1 := by simp
  refine { hs with head := ?_, cached := ?_, full := ?_, window := ?_, stored := ?_, fifo := ?_ }
  · show s.counters.consHead + 1 = _
    rw [hlen, hs.head, UInt32.ofNat_add]
    rfl
  · exact ⟨t, ht, by rw [hlen]; omega, htc, nofun⟩
  · rw [hlen]
    show s.committed.length ≤ s.released.length + 1 + 2 ^ k
    omega
  · intro j q hq hres
    have := hs.window j q hq hres
    rw [hlen]
    omega
  · rw [hlen]
    exact hs.stored.pop
  · rw [hlen, hs.stored.take_succ (by simp; omega), ← hs.fifo]

theorem Inv.step (hs : s.Inv n k) (hn : n + 2 ^ k ≤ 2 ^ 31) {e : MpscStep α}
    (hstep : s.step n e = some s') : s'.Inv n k := by
  have hstay {stage : MpscStage} {i : Nat} {p : MpscClaim} (hp : s.producers i = some p)
      (hne : ¬(stage = .granted ∨ stage = .publishing)) : (s.restage i p stage).Inv n k :=
    hs.restage hp (fun h => absurd h hne) fun h => absurd (.inr h) hne
  have hgrant {i : Nat} {p : MpscClaim} (hp : s.producers i = some p)
      (htest : inWindow p.myIdx s.counters.consHead s.ring.ringEntries = true) :
      (s.restage i p .granted).Inv n k :=
    hs.restage hp (fun _ => hs.window_of_test hn hp htest) (by simp)
  cases e with
  | claim i =>
    obtain ⟨⟨hi, hfree⟩, hstep⟩ := Option.ite_none_right_eq_some.mp hstep
    obtain rfl := Option.some.inj hstep
    exact hs.claim hi (Option.isNone_iff_eq_none.mp hfree)
  | spinRead i =>
    obtain ⟨p, hp, hstep⟩ := Option.bind_eq_some_iff.mp hstep
    obtain ⟨-, hstep⟩ := Option.ite_none_right_eq_some.mp hstep
    obtain rfl := Option.some.inj hstep
    exact hstay hp (by simp)
  | spinTest i =>
    obtain ⟨p, hp, hstep⟩ := Option.bind_eq_some_iff.mp hstep
    dsimp only at hstep
    split at hstep
    · split at hstep
      · obtain rfl := Option.some.inj hstep
        exact hgrant hp (by simp_all)
      · obtain rfl := Option.some.inj hstep
        exact hstay hp (by simp)
    · cases hstep
  | spinEnd i =>
    obtain ⟨p, hp, hstep⟩ := Option.bind_eq_some_iff.mp hstep
    obtain ⟨-, hstep⟩ := Option.ite_none_right_eq_some.mp hstep
    obtain rfl := Option.some.inj hstep
    exact hstay hp (by simp)
  | slowTest i =>
    obtain ⟨p, hp, hstep⟩ := Option.bind_eq_some_iff.mp hstep
    obtain ⟨-, hstep⟩ := Option.ite_none_right_eq_some.mp hstep
    split at hstep
    · obtain rfl := Option.some.inj hstep
      exact hgrant hp ‹_›
    · obtain rfl := Option.some.inj hstep
      exact hs
  | write i desc =>
    obtain ⟨p, hp, hstep⟩ := Option.bind_eq_some_iff.mp hstep
    obtain ⟨hgranted, hstep⟩ := Option.ite_none_right_eq_some.mp hstep
    obtain rfl := Option.some.inj hstep
    exact hs.write hp (.inl hgranted) desc
  | tailTest i =>
    obtain ⟨p, hp, hstep⟩ := Option.bind_eq_some_iff.mp hstep
    obtain ⟨hgranted, hstep⟩ := Option.ite_none_right_eq_some.mp hstep
    split at hstep
    · next htail =>
      obtain rfl := Option.some.inj hstep
      refine hs.restage hp (fun _ => hs.window i p hp (.inl hgranted)) fun _ => ?_
      obtain ⟨-, hidx, hlo, -⟩ := hs.held i p hp
      have hwindow := hs.window i p hp (.inl hgranted)
      have hpow := hs.ring.pow_le
      have hle : s.released.length ≤ s.committed.length := by
        obtain ⟨t, -, h1, h2, -⟩ := hs.cached
        omega
      have hahead := ahead_ofNat hlo (by omega)
      rw [← hidx, ← hs.tail, htail, ahead_self] at hahead
      omega
    · obtain rfl := Option.some.inj hstep
      exact hs
  | publish i =>
    obtain ⟨p, hp, hstep⟩ := Option.bind_eq_some_iff.mp hstep
    obtain ⟨hpub, hstep⟩ := Option.ite_none_right_eq_some.mp hstep
    obtain rfl := Option.some.inj hstep
    exact hs.publish hp hpub
  | peek =>
    obtain rfl := Option.some.inj hstep
    exact hs.peek
  | release =>
    obtain ⟨slot, hslot, rfl⟩ := Option.map_eq_some_iff.mp hstep
    exact hs.release hslot

theorem Inv.start {hdr : ChannelHeader} (hring : (initHandle hdr).RingOk k)
    (slots : Nat → α) : (start hdr slots).Inv n k where
  ring := hring
  consumer := hring
  reserved := rfl
  tail := rfl
  head := rfl
  cached := ⟨0, rfl, Nat.le_refl 0, Nat.le_refl 0, nofun⟩
  le_claims := Nat.le_refl 0
  full := Nat.zero_le _
  held := nofun
  distinct := nofun
  covered := fun m _ hm => absurd hm (Nat.not_lt_zero m)
  window := nofun
  turn := nofun
  stored := nofun
  seqs := rfl
  fifo := rfl

section TooMany

variable {hdr : ChannelHeader}

structure Filled (hdr : ChannelHeader) (m : Nat) (s : MpscState α) : Prop where
  counters : s.counters = ⟨UInt32.ofNat m, 0⟩
  reserved : s.prodReserved = UInt32.ofNat m
  ring : s.ring = initHandle hdr
  producers : s.producers = fun _ => none
  committed : s.committed.length = m
  released : s.released = []

def oneCycle : List (MpscStep α) :=
  [.claim 0, .spinEnd 0, .slowTest 0, .tailTest 0, .publish 0]

theorem Filled.cycle {m : Nat} (hs : s.Filled hdr m) (hring : (initHandle hdr).RingOk k)
    (hn : 0 < n) (hm : m < 2 ^ k) :
    ∃ s', runSteps (step n) s oneCycle = some s' ∧ s'.Filled hdr (m + 1) := by
  have hpow := hring.pow_le
  have htest : inWindow (UInt32.ofNat m) 0 s.ring.ringEntries = true := by
    have hahead : ahead 0 (UInt32.ofNat m) = m := ahead_ofNat (Nat.zero_le m) (by omega)
    have hentries := hring.entries
    rw [inWindow_iff (by rw [hs.ring]; omega), hahead, hs.ring]
    omega
  refine ⟨{ s with
    counters := ⟨UInt32.ofNat m + 1, 0⟩
    prodReserved := UInt32.ofNat m + 1
    claims := s.claims + 1
    committed := s.committed ++ [(s.claims, s.slots (s.ring.slot (UInt32.ofNat m)))] },
    ?_, ?_, ?_, hs.ring, hs.producers, ?_, hs.released⟩
  · simp [oneCycle, runSteps, step, withClaim, restage, slotOf, hs.producers, hs.reserved,
      hs.counters, htest, hn]
  · rw [UInt32.ofNat_add]
    rfl
  · rw [UInt32.ofNat_add]
    rfl
  · rw [List.length_append, hs.committed]
    rfl

theorem exists_filled (hring : (initHandle hdr).RingOk k) (hn : 0 < n) (slots : Nat → α)
    {m : Nat} (hm : m ≤ 2 ^ k) :
    ∃ steps s, runSteps (step n) (start hdr slots) steps = some s ∧ s.Filled hdr m := by
  induction m with
  | zero => exact ⟨[], _, rfl, rfl, rfl, rfl, rfl, rfl, rfl⟩
  | succ m ih =>
    obtain ⟨steps, s, hrun, hs⟩ := ih (by omega)
    obtain ⟨s', hrun', hs'⟩ := hs.cycle hring hn (by omega)
    exact ⟨steps ++ oneCycle, s', runSteps_append.mpr ⟨s, hrun, hrun'⟩, hs'⟩

structure Claimed (hdr : ChannelHeader) (m j : Nat) (s : MpscState α) : Prop where
  counters : s.counters = ⟨UInt32.ofNat m, 0⟩
  reserved : s.prodReserved = UInt32.ofNat (m + j)
  ring : s.ring = initHandle hdr
  mine : ∀ i < j, ∃ seq, s.producers i = some ⟨UInt32.ofNat (m + i), .spinning, seq⟩
  others : ∀ i, j ≤ i → s.producers i = none
  committed : s.committed.length = m
  released : s.released = []

theorem Filled.claims {m : Nat} (hs : s.Filled hdr m) {j : Nat} (hj : j ≤ n) :
    ∃ steps s', runSteps (step n) s steps = some s' ∧ s'.Claimed hdr m j := by
  induction j with
  | zero =>
    exact ⟨[], s, rfl, hs.counters, hs.reserved, hs.ring, fun i hi => absurd hi (Nat.not_lt_zero i),
      fun i _ => by rw [hs.producers], hs.committed, hs.released⟩
  | succ j ih =>
    obtain ⟨steps, s₁, hrun, h₁⟩ := ih (by omega)
    have hfree := h₁.others j (Nat.le_refl j)
    obtain ⟨s₂, hs₂⟩ : ∃ s₂ : MpscState α, s₂ = { s₁ with
        prodReserved := s₁.prodReserved + 1
        producers := Function.update s₁.producers j
          (some ⟨s₁.prodReserved, .spinning, s₁.claims⟩)
        claims := s₁.claims + 1 } := ⟨_, rfl⟩
    have hclaim : s₁.step n (.claim j) = some s₂ := by
      rw [hs₂]
      simp only [step, hfree, Option.isNone_none, and_true]
      exact if_pos (by omega)
    refine ⟨steps ++ [.claim j], s₂,
      runSteps_append.mpr ⟨s₁, hrun, runSteps_cons.mpr ⟨s₂, hclaim, runSteps_nil⟩⟩, ?_⟩
    subst hs₂
    refine ⟨h₁.counters, ?_, h₁.ring, fun i hi => ?_, fun i hi => ?_, h₁.committed, h₁.released⟩
    · show s₁.prodReserved + 1 = UInt32.ofNat (m + (j + 1))
      rw [h₁.reserved, ← Nat.add_assoc, UInt32.ofNat_add (m + j)]
      rfl
    · by_cases hij : i = j
      · subst hij
        refine ⟨s₁.claims, ?_⟩
        rw [← h₁.reserved]
        exact Function.update_self ..
      · obtain ⟨seq, hseq⟩ := h₁.mine i (by omega)
        exact ⟨seq, (Function.update_of_ne hij _ _).trans hseq⟩
    · exact (Function.update_of_ne (by omega) _ _).trans (h₁.others i (by omega))

theorem exists_not_ordered (hring : (initHandle hdr).RingOk k) (hn : 2 ^ 31 < n + 2 ^ k)
    (slots : Nat → α) :
    ∃ steps s, runSteps (step n) (start hdr slots) steps = some s ∧ ¬s.Ordered := by
  have hpow := hring.pow_le
  have hpos := Nat.two_pow_pos k
  obtain ⟨first, s₁, hrun₁, h₁⟩ := exists_filled (n := n) hring (by omega) slots (Nat.le_refl _)
  obtain ⟨claims, s₂, hrun₂, h₂⟩ := h₁.claims (Nat.le_refl n)
  obtain ⟨j, hj⟩ : ∃ j, j = 2 ^ 31 - 2 ^ k := ⟨_, rfl⟩
  obtain ⟨seq, hseq⟩ := h₂.mine j (by omega)
  rw [show 2 ^ k + j = 2 ^ 31 by omega] at hseq
  obtain ⟨idx, hidx⟩ : ∃ idx, idx = UInt32.ofNat (2 ^ 31) := ⟨_, rfl⟩
  rw [← hidx] at hseq
  have htest : inWindow idx s₂.counters.consHead s₂.ring.ringEntries = true := by
    have hentries := hring.entries
    rw [hidx, h₂.counters, h₂.ring, inWindow_iff (by omega)]
    right
    show 2 ^ 31 ≤ ahead 0 (UInt32.ofNat (2 ^ 31))
    decide
  obtain ⟨s₃, hs₃⟩ : ∃ s₃, s₃ = (s₂.restage j ⟨idx, .spinning, seq⟩ .waiting).restage j
      ⟨idx, .waiting, seq⟩ .granted := ⟨_, rfl⟩
  have hend : runSteps (step n) s₂ [.spinEnd j, .slowTest j] = some s₃ := by
    rw [hs₃]
    simp [runSteps, step, withClaim, restage, hseq, htest]
  refine ⟨first ++ (claims ++ [.spinEnd j, .slowTest j]), s₃,
    runSteps_append.mpr ⟨s₁, hrun₁, runSteps_append.mpr ⟨s₂, hrun₂, hend⟩⟩, fun hordered => ?_⟩
  have hgranted : s₃.producers j = some ⟨idx, .granted, seq⟩ := by
    rw [hs₃]
    exact Function.update_self ..
  have hring₃ : s₃.ring = initHandle hdr := by rw [hs₃]; exact h₂.ring
  have hcommitted : s₃.committed.length = 2 ^ k := by rw [hs₃]; exact h₂.committed
  have hreleased : s₃.released = [] := by rw [hs₃]; exact h₂.released
  refine hordered.unwritten j _ hgranted (.inl rfl) 0 (by simp [hreleased]) (by omega) ?_
  rw [slotOf, hidx, hring₃, hring.slot_ofNat, hring.slot_ofNat, Nat.zero_mod]
  exact Nat.mod_eq_zero_of_dvd (Nat.pow_dvd_pow 2 (by have := hring.le; omega))

end TooMany

/-- Over every run of `n` producers and a consumer on a created channel, with counters that
wrap as often as they like, the order is kept exactly when there are at most
`2 ^ 31 - ring_entries` producers. -/
theorem mpsc_ordered_iff (n : Nat) (size entries : UInt32) (ans : CreateAnswers)
    (hdr : ChannelHeader) (ch : Channel) (hcreate : channelCreate size entries ans = .ok (hdr, ch))
    (slots : Nat → α) :
    (∀ steps s, runSteps (step n) (start hdr slots) steps = some s → s.Ordered) ↔
      n + hdr.ringEntries.toNat ≤ 2 ^ 31 := by
  obtain ⟨-, hmask, hentries⟩ := channelCreate_ok hcreate
  obtain ⟨k, hring⟩ := ringOk_initHandle hentries hmask
  have hpow : hdr.ringEntries.toNat = 2 ^ k := hring.entries
  rw [hpow]
  constructor
  · intro hall
    by_contra hmany
    obtain ⟨steps, s, hrun, hnot⟩ := exists_not_ordered (n := n) hring (by omega) slots
    exact hnot (hall steps s hrun)
  · intro hn steps s hrun
    have hinv : s.Inv n k := runSteps_invariant (fun s e s' hs hstep => hs.step hn hstep)
      (Inv.start hring slots) hrun
    exact hinv.ordered

def ringOf16 : ChannelHeader := initHeader 16384 16 createIsolated

theorem channelCreate_16 :
    channelCreate 16384 16 ⟨true, true⟩ = .ok (ringOf16, initHandle ringOf16) := by
  decide

/-- Eight producers keep the order on this ring. -/
theorem mpsc_ordered_eight :
    channelCreate 16384 16 ⟨true, true⟩ = .ok (ringOf16, initHandle ringOf16) ∧
      ∀ steps (s : MpscState Nat),
        runSteps (step 8) (start ringOf16 fun _ => 0) steps = some s → s.Ordered :=
  ⟨channelCreate_16,
    (mpsc_ordered_iff 8 16384 16 ⟨true, true⟩ ringOf16 (initHandle ringOf16) channelCreate_16
      fun _ => 0).mpr (by decide)⟩

/-- With `2 ^ 31` producers a reservation gets the slot of a committed descriptor. -/
theorem mpsc_too_many_producers :
    ∃ steps, ∃ s : MpscState Nat,
      runSteps (step (2 ^ 31)) (start ringOf16 fun _ => 0) steps = some s ∧ ¬s.Ordered := by
  obtain ⟨-, hmask, hentries⟩ := channelCreate_ok channelCreate_16
  obtain ⟨k, hring⟩ := ringOk_initHandle hentries hmask
  exact exists_not_ordered hring (Nat.lt_add_of_pos_right (Nat.two_pow_pos k)) _

end MpscState

end Uros.Flipc2
