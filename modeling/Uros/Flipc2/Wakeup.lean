import Mathlib.Data.UInt
import Mathlib.Logic.Function.Basic
import Uros.Foundation.Transition
import Uros.Flipc2.Channel

/-!
Sleeping and waking on channels (`flipc2_produce_commit` and `flipc2_consume_wait` of
`include/flipc2.h`, `libflipc2/flipc2_pollset.c`, `futex_waitv` of `kern/sync_sema.c`).

Any number of producers run `flipc2_produce_commit` while one consumer waits on a channel or polls
a set of them.  A step is one access to a shared word, the kernel's comparison of the words with
the queueing of the thread, or one wake.  `cons_head` and `cons_sleeping` are written by the
consumer alone, so that its own reads of them are no steps.
-/

namespace Uros.Flipc2

open Uros.Foundation

structure WakeWords where
  prodTail : UInt32
  consHead : UInt32
  consSleeping : UInt32
  wakeupThresh : UInt32
  ringEntries : UInt32
  deriving DecidableEq, Repr

def maxSpuriousWakeups : ℕ := 64

def pollsetMaxChannels : ℕ := 16

def futexvMaxKeys : ℕ := 16

structure PollSet (C : Type) where
  channels : List C
  nodup : channels.Nodup
  bounded : channels.length ≤ pollsetMaxChannels

inductive ProducerPc (C : Type) where
  | idle
  | store (c : C) (tail : UInt32)
  | sleeping (c : C)
  | thresh (c : C)
  | pendingTail (c : C) (thresh : UInt32)
  | pendingHead (c : C) (thresh tail : UInt32)
  | wake (c : C)
  deriving DecidableEq, Repr

inductive ScanPhase where
  | fast
  | armed
  | final
  deriving DecidableEq, Repr

inductive ConsumerPc (C : Type) where
  | idle
  | spin (c : C) (head : UInt32) (count : ℕ)
  | sleep (c : C) (head : UInt32)
  | recheck (c : C) (head : UInt32)
  | awake (c : C) (head tail : UInt32)
  | futexWait (c : C) (head : UInt32)
  | futexParked (c : C) (head : UInt32)
  | futexWoken (c : C) (head : UInt32)
  | verify (c : C) (head : UInt32)
  | scan (ps : PollSet C) (maxEvents : ℕ) (phase : ScanPhase) (todo : List C) (n : ℕ)
  | arm (ps : PollSet C) (maxEvents : ℕ) (todo : List C)
  | disarm (ps : PollSet C) (maxEvents : ℕ) (ready : Bool) (todo : List C)
  | fill (ps : PollSet C) (maxEvents : ℕ) (todo : List C) (waiters : List (C × UInt32))
  | futexWaitv (ps : PollSet C) (maxEvents : ℕ) (waiters : List (C × UInt32))
  | futexvParked (ps : PollSet C) (maxEvents : ℕ)

namespace ConsumerPc

variable {C : Type}

def parkedOn : ConsumerPc C → List C
  | futexParked c _ => [c]
  | futexvParked ps _ => ps.channels
  | _ => []

def polling : ConsumerPc C → Bool
  | scan _ _ _ _ _ | arm _ _ _ | disarm _ _ _ _ | fill _ _ _ _ | futexWaitv _ _ _
  | futexvParked _ _ => true
  | _ => false

def woken : ConsumerPc C → ConsumerPc C
  | futexParked c head => futexWoken c head
  | futexvParked ps maxEvents => disarm ps maxEvents false ps.channels
  | pc => pc

def scanned (ps : PollSet C) (maxEvents : ℕ) : ScanPhase → ℕ → ConsumerPc C
  | .fast, n => if 0 < n ∨ ps.channels = [] then idle else arm ps maxEvents ps.channels
  | .armed, n =>
    if 0 < n then disarm ps maxEvents true ps.channels else fill ps maxEvents ps.channels []
  | .final, _ => idle

end ConsumerPc

structure Handshake (P C : Type) where
  words : C → WakeWords
  producer : P → ProducerPc C
  consumer : ConsumerPc C
  spurious : C → ℕ

inductive HandshakeEvent (P C : Type) where
  | commit (p : P) (c : C)
  | producer (p : P)
  | consumeWait (c : C) (spinCount : ℕ)
  | poll (ps : PollSet C) (maxEvents : ℕ)
  | release (c : C)
  | consumer (slot : Bool)
  | interrupt

def rings (thresh pending : UInt32) : Prop := thresh ≤ 1 ∨ thresh ≤ pending

instance decidableRings (thresh pending : UInt32) : Decidable (rings thresh pending) :=
  inferInstanceAs (Decidable (_ ∨ _))

namespace Handshake

variable {P C : Type} [DecidableEq P] [DecidableEq C]

def setProducer (s : Handshake P C) (p : P) (pc : ProducerPc C) : Handshake P C :=
  { s with producer := Function.update s.producer p pc }

def setSleeping (s : Handshake P C) (c : C) (value : UInt32) : Handshake P C :=
  { s with words := Function.update s.words c { s.words c with consSleeping := value } }

def storeTail (s : Handshake P C) (c : C) (value : UInt32) : Handshake P C :=
  { s with words := Function.update s.words c { s.words c with prodTail := value } }

def goto (s : Handshake P C) (pc : ConsumerPc C) : Handshake P C := { s with consumer := pc }

def futexWake (s : Handshake P C) (c : C) : Handshake P C :=
  if c ∈ s.consumer.parkedOn then s.goto s.consumer.woken else s

def producerStep (s : Handshake P C) (p : P) : Option (Handshake P C) :=
  match s.producer p with
  | .idle => none
  | .store c tail =>
    some ((s.storeTail c (tail + 1)).setProducer p (.sleeping c))
  | .sleeping c =>
    some (s.setProducer p (if (s.words c).consSleeping ≠ 0 then .thresh c else .idle))
  | .thresh c => some (s.setProducer p (.pendingTail c (s.words c).wakeupThresh))
  | .pendingTail c thresh => some (s.setProducer p (.pendingHead c thresh (s.words c).prodTail))
  | .pendingHead c thresh tail =>
    some (s.setProducer p (if rings thresh (tail - (s.words c).consHead) then .wake c else .idle))
  | .wake c => some ((s.futexWake c).setProducer p .idle)

/-- `flipc2_consume_wait` returns after it has seen `tail`: a descriptor, or `NULL` when the ring
is corrupt. -/
def consumed (s : Handshake P C) (c : C) (head tail : UInt32) : Handshake P C :=
  let s := s.goto .idle
  if (s.words c).ringEntries < tail - head then s
  else { s with spurious := Function.update s.spurious c 0 }

def consumerStep (s : Handshake P C) (slot : Bool) : Option (Handshake P C) :=
  match s.consumer with
  | .idle | .futexParked _ _ | .futexvParked _ _ => none
  | .spin c head 0 => some (s.goto (.sleep c head))
  | .spin c head (count + 1) =>
    if (s.words c).prodTail ≠ head then some (s.consumed c head (s.words c).prodTail)
    else some (s.goto (.spin c head count))
  | .sleep c head => some ((s.setSleeping c 1).goto (.recheck c head))
  | .recheck c head =>
    if (s.words c).prodTail ≠ head then some (s.goto (.awake c head (s.words c).prodTail))
    else some (s.goto (.futexWait c head))
  | .awake c head tail => some ((s.setSleeping c 0).consumed c head tail)
  | .futexWait c head =>
    if slot ∧ (s.words c).prodTail = head then some (s.goto (.futexParked c head))
    else some (s.goto (.futexWoken c head))
  | .futexWoken c head => some ((s.setSleeping c 0).goto (.verify c head))
  | .verify c head =>
    if (s.words c).prodTail = head then
      let s := { s with spurious := Function.update s.spurious c (s.spurious c + 1) }
      if maxSpuriousWakeups ≤ s.spurious c then some (s.goto .idle)
      else some (s.goto (.spin c (s.words c).consHead 0))
    else some (s.consumed c head (s.words c).prodTail)
  | .scan ps maxEvents phase [] n => some (s.goto (.scanned ps maxEvents phase n))
  | .scan ps maxEvents phase (c :: todo) n =>
    if n < maxEvents then
      some (s.goto (.scan ps maxEvents phase todo
        (if (s.words c).prodTail ≠ (s.words c).consHead then n + 1 else n)))
    else some (s.goto (.scanned ps maxEvents phase n))
  | .arm ps maxEvents [] => some (s.goto (.scan ps maxEvents .armed ps.channels 0))
  | .arm ps maxEvents (c :: todo) => some ((s.setSleeping c 1).goto (.arm ps maxEvents todo))
  | .disarm ps maxEvents ready [] =>
    some (s.goto (if ready then .idle else .scan ps maxEvents .final ps.channels 0))
  | .disarm ps maxEvents ready (c :: todo) =>
    some ((s.setSleeping c 0).goto (.disarm ps maxEvents ready todo))
  | .fill ps maxEvents [] waiters => some (s.goto (.futexWaitv ps maxEvents waiters))
  | .fill ps maxEvents (c :: todo) waiters =>
    some (s.goto (.fill ps maxEvents todo (waiters ++ [(c, (s.words c).prodTail)])))
  | .futexWaitv ps maxEvents waiters =>
    if waiters ≠ [] ∧ waiters.length ≤ futexvMaxKeys ∧ slot ∧
        ∀ w ∈ waiters, (s.words w.1).prodTail = w.2 then
      some (s.goto (.futexvParked ps maxEvents))
    else some (s.goto (.disarm ps maxEvents false ps.channels))

def step (s : Handshake P C) : HandshakeEvent P C → Option (Handshake P C)
  | .commit p c =>
    if s.producer p matches .idle then some (s.setProducer p (.store c (s.words c).prodTail))
    else none
  | .producer p => s.producerStep p
  | .consumeWait c spinCount =>
    if s.consumer matches .idle then some (s.goto (.spin c (s.words c).consHead spinCount))
    else none
  | .poll ps maxEvents =>
    if (s.consumer matches .idle) ∧ 0 < maxEvents then
      some (s.goto (.scan ps maxEvents .fast ps.channels 0))
    else none
  | .release c =>
    if s.consumer matches .idle then
      some { s with words :=
        Function.update s.words c { s.words c with consHead := (s.words c).consHead + 1 } }
    else none
  | .consumer slot => s.consumerStep slot
  | .interrupt => if s.consumer.parkedOn = [] then none else some (s.goto s.consumer.woken)

end Handshake

def ProducerPc.goingToWake {C : Type} (words : C → WakeWords) : ProducerPc C → Option C
  | idle | store _ _ => none
  | sleeping c =>
    let w := words c
    if w.consSleeping ≠ 0 ∧ rings w.wakeupThresh (w.prodTail - w.consHead) then some c else none
  | thresh c =>
    if rings (words c).wakeupThresh ((words c).prodTail - (words c).consHead) then some c else none
  | pendingTail c limit =>
    if rings limit ((words c).prodTail - (words c).consHead) then some c else none
  | pendingHead c limit tail => if rings limit (tail - (words c).consHead) then some c else none
  | wake c => some c

namespace Handshake

/-- The consumer is parked, a channel it waits on has an unread descriptor, and nobody is going to
wake it. -/
def Stranded {P C : Type} (s : Handshake P C) : Prop :=
  ∃ c ∈ s.consumer.parkedOn, (s.words c).prodTail ≠ (s.words c).consHead ∧
    ∀ p, (s.producer p).goingToWake s.words ≠ some c

def start {P C : Type} (thresh ringEntries : C → UInt32) : Handshake P C where
  words c := ⟨0, 0, 0, thresh c, ringEntries c⟩
  producer _ := .idle
  consumer := .idle
  spurious _ := 0

/-- A poll takes the value to wait for from a channel that is still as empty as its scan found
it. -/
def Unmoved {P C : Type} (s : Handshake P C) : HandshakeEvent P C → Prop
  | .consumer _ =>
    match s.consumer with
    | .fill _ _ (c :: _) _ => (s.words c).prodTail = (s.words c).consHead
    | _ => True
  | _ => True

instance decidableUnmoved {P C : Type} (s : Handshake P C) : DecidablePred (Unmoved s)
  | .consumer _ =>
    match h : s.consumer with
    | .fill _ _ (c :: _) _ =>
      decidable_of_iff ((s.words c).prodTail = (s.words c).consHead) (by simp [Unmoved, h])
    | .fill _ _ [] _ | .idle | .spin _ _ _ | .sleep _ _ | .recheck _ _ | .awake _ _ _
    | .futexWait _ _ | .futexParked _ _ | .futexWoken _ _ | .verify _ _ | .scan _ _ _ _ _
    | .arm _ _ _ | .disarm _ _ _ _ | .futexWaitv _ _ _ | .futexvParked _ _ =>
      .isTrue (by simp [Unmoved, h])
  | .commit _ _ | .producer _ | .consumeWait _ _ | .poll _ _ | .release _ | .interrupt =>
    .isTrue trivial

/-! ## The producers -/

section Producer

variable {P C : Type} {words words' : C → WakeWords} {pc : ProducerPc C} {c : C}

theorem goingToWake_congr (hc : words' c = words c) (hw : pc.goingToWake words = some c) :
    pc.goingToWake words' = some c := by
  cases pc <;> simp only [ProducerPc.goingToWake, Option.ite_none_right_eq_some,
    Option.some.injEq, reduceCtorEq] at hw ⊢
  case wake => exact hw
  all_goals
    obtain ⟨hrings, rfl⟩ := hw
    rw [hc]
    exact ⟨hrings, rfl⟩

@[simp] theorem parkedOn_woken (pc : ConsumerPc C) : pc.woken.parkedOn = [] := by
  cases pc <;> rfl

variable [DecidableEq C] {s s' : Handshake P C} {p : P}

theorem not_parkedOn_futexWake : c ∉ (s.futexWake c).consumer.parkedOn := by
  unfold futexWake
  split
  · simp [goto]
  · assumption

variable [DecidableEq P]

theorem producerStep_cases (hstep : s.producerStep p = some s') :
    (∃ c tail, s.producer p = .store c tail ∧
      s' = (s.storeTail c (tail + 1)).setProducer p (.sleeping c)) ∨
    (∃ c, s.producer p = .wake c ∧ s' = (s.futexWake c).setProducer p .idle) ∨
    ∃ pc, pc.goingToWake s.words = (s.producer p).goingToWake s.words ∧
      s' = s.setProducer p pc := by
  unfold producerStep at hstep
  split at hstep
  case h_1 => simp at hstep
  case h_2 c tail hpc =>
    exact .inl ⟨c, tail, hpc, (Option.some.inj hstep).symm⟩
  case h_7 c hpc =>
    exact .inr (.inl ⟨c, hpc, (Option.some.inj hstep).symm⟩)
  case h_3 c hpc =>
    refine .inr (.inr ⟨_, ?_, (Option.some.inj hstep).symm⟩)
    by_cases hsleep : (s.words c).consSleeping = 0 <;> simp [hpc, hsleep, ProducerPc.goingToWake]
  case h_6 c thresh tail hpc =>
    refine .inr (.inr ⟨_, ?_, (Option.some.inj hstep).symm⟩)
    by_cases hrings : rings thresh (tail - (s.words c).consHead) <;>
      simp [hpc, hrings, ProducerPc.goingToWake]
  all_goals
    next hpc =>
      exact .inr (.inr ⟨_, by simp [hpc, ProducerPc.goingToWake], (Option.some.inj hstep).symm⟩)

end Producer

/-! ## The handshake -/

section Inv

variable {P C : Type}

/-- What the consumer has done so far in its call: where it may still park, `cons_sleeping` is
set, and the values it is going to hand to the kernel are those of `cons_head`. -/
def Armed (words : C → WakeWords) : ConsumerPc C → Prop
  | .spin c head _ | .sleep c head => (words c).consHead = head
  | .recheck c head | .futexWait c head => (words c).consHead = head ∧ (words c).consSleeping ≠ 0
  | .futexParked c _ => (words c).consSleeping ≠ 0
  | .scan ps _ .armed _ _ | .futexvParked ps _ => ∀ c ∈ ps.channels, (words c).consSleeping ≠ 0
  | .arm ps _ todo => ∀ c ∈ ps.channels, c ∈ todo ∨ (words c).consSleeping ≠ 0
  | .fill ps _ todo waiters => ∀ c ∈ ps.channels, (words c).consSleeping ≠ 0 ∧
      (c ∈ todo ∨ (c, (words c).consHead) ∈ waiters)
  | .futexWaitv ps _ waiters => ∀ c ∈ ps.channels, (words c).consSleeping ≠ 0 ∧
      (c, (words c).consHead) ∈ waiters
  | _ => True

def Owed (s : Handshake P C) (c : C) : Prop :=
  (s.words c).prodTail = (s.words c).consHead ∨
    ∃ p, (s.producer p).goingToWake s.words = some c

structure Inv (s : Handshake P C) : Prop where
  thresh : ∀ c, (s.words c).wakeupThresh ≤ 1
  armed : Armed s.words s.consumer
  owed : ∀ c ∈ s.consumer.parkedOn, Owed s c

theorem Inv.not_stranded {s : Handshake P C} (hi : Inv s) : ¬ Stranded s := by
  rintro ⟨c, hc, hunread, hnone⟩
  obtain hread | ⟨p, hp⟩ := hi.owed c hc
  · exact hunread hread
  · exact hnone p hp

theorem inv_start {thresh ringEntries : C → UInt32} (hthresh : ∀ c, thresh c ≤ 1) :
    Inv (start (P := P) thresh ringEntries) where
  thresh := hthresh
  armed := trivial
  owed := by simp [start, ConsumerPc.parkedOn]

theorem armed_woken (words : C → WakeWords) (pc : ConsumerPc C) (harmed : Armed words pc) :
    Armed words pc.woken := by
  cases pc <;> first | exact harmed | trivial

theorem armed_sleeping {words : C → WakeWords} {pc : ConsumerPc C} {c : C}
    (harmed : Armed words pc) (hc : c ∈ pc.parkedOn) : (words c).consSleeping ≠ 0 := by
  cases pc with
  | futexParked d _ =>
    rw [List.mem_singleton.mp hc]
    exact harmed
  | futexvParked ps _ => exact harmed c hc
  | _ => simp [ConsumerPc.parkedOn] at hc

theorem Armed.congr {words words' : C → WakeWords} {pc : ConsumerPc C}
    (hhead : ∀ c, (words' c).consHead = (words c).consHead)
    (hsleep : ∀ c, (words' c).consSleeping = (words c).consSleeping) (harmed : Armed words pc) :
    Armed words' pc := by
  unfold Armed at harmed ⊢
  split <;> simp_all

variable {s s' : Handshake P C}

section

variable [DecidableEq P]

@[simp] theorem setProducer_words (p : P) (pc : ProducerPc C) :
    (s.setProducer p pc).words = s.words := rfl

@[simp] theorem setProducer_consumer (p : P) (pc : ProducerPc C) :
    (s.setProducer p pc).consumer = s.consumer := rfl

theorem Owed.setProducer {p : P} {pc : ProducerPc C} {c : C}
    (hsame : (s.producer p).goingToWake s.words = some c → pc.goingToWake s.words = some c)
    (ho : Owed s c) : Owed (s.setProducer p pc) c := by
  obtain hread | ⟨q, hq⟩ := ho
  · exact .inl hread
  · refine .inr ⟨q, ?_⟩
    by_cases hqp : q = p
    · subst hqp
      simpa [Handshake.setProducer] using hsame hq
    · simpa [Handshake.setProducer, hqp] using hq

theorem Inv.setProducer {p : P} {pc : ProducerPc C} (hi : Inv s)
    (hsame : ∀ c ∈ s.consumer.parkedOn,
      (s.producer p).goingToWake s.words = some c → pc.goingToWake s.words = some c) :
    Inv (s.setProducer p pc) where
  thresh := hi.thresh
  armed := hi.armed
  owed c hc := (hi.owed c hc).setProducer (hsame c hc)

end

theorem Inv.futexWake [DecidableEq C] {c : C} (hi : Inv s) : Inv (s.futexWake c) := by
  unfold Handshake.futexWake
  split
  · exact ⟨hi.thresh, armed_woken _ _ hi.armed, by simp [goto]⟩
  · exact hi

variable [DecidableEq P] [DecidableEq C]

theorem Inv.storeTail {p : P} {c : C} {tail value : UInt32} (hi : Inv s)
    (hpc : s.producer p = .store c tail) :
    Inv ((s.storeTail c value).setProducer p (.sleeping c)) := by
  have hwords : ∀ d, ((s.storeTail c value).words d).consHead = (s.words d).consHead ∧
      ((s.storeTail c value).words d).consSleeping = (s.words d).consSleeping ∧
      ((s.storeTail c value).words d).wakeupThresh = (s.words d).wakeupThresh := by
    intro d
    by_cases hd : d = c <;> simp [Handshake.storeTail, hd]
  constructor
  case thresh =>
    intro d
    exact (hwords d).2.2.symm ▸ hi.thresh d
  case armed =>
    exact hi.armed.congr (fun d => (hwords d).1) fun d => (hwords d).2.1
  case owed =>
    intro d hd
    by_cases hdc : d = c
    · -- the flag is set as long as the consumer is parked, and one descriptor is enough
      subst hdc
      refine .inr ⟨p, ?_⟩
      have hsleep := armed_sleeping hi.armed hd
      simp [Handshake.setProducer, ProducerPc.goingToWake, (hwords d).2.1, hsleep,
        (hwords d).2.2, rings, hi.thresh d]
    · have hd' : (s.storeTail c value).words d = s.words d := by
        simp [Handshake.storeTail, hdc]
      obtain hread | ⟨q, hq⟩ := hi.owed d hd
      · exact .inl (by rw [setProducer_words, hd']; exact hread)
      · refine .inr ⟨q, ?_⟩
        by_cases hqp : q = p
        · subst hqp
          simp [hpc, ProducerPc.goingToWake] at hq
        · simpa [Handshake.setProducer, Handshake.storeTail, hqp] using goingToWake_congr hd' hq

theorem Inv.producerStep {p : P} (hi : Inv s) (hstep : s.producerStep p = some s') : Inv s' := by
  obtain ⟨c, tail, hpc, rfl⟩ | ⟨c, hpc, rfl⟩ | ⟨pc, hsame, rfl⟩ := producerStep_cases hstep
  · exact hi.storeTail hpc
  · apply hi.futexWake.setProducer
    intro d hd hwake
    have hprod : (s.futexWake c).producer = s.producer := by
      unfold Handshake.futexWake
      split <;> rfl
    rw [hprod, hpc, ProducerPc.goingToWake, Option.some.injEq] at hwake
    exact absurd (hwake ▸ hd) not_parkedOn_futexWake
  · exact hi.setProducer fun c _ hwake => hsame.trans hwake

theorem Inv.commit {p : P} {c : C} (hi : Inv s) (hstep : s.step (.commit p c) = some s') :
    Inv s' := by
  simp only [step, Option.ite_none_right_eq_some, Option.some.injEq] at hstep
  obtain ⟨hidle, rfl⟩ := hstep
  apply hi.setProducer
  intro d _ hwake
  cases hpc : s.producer p <;> simp_all [ProducerPc.goingToWake]

end Inv

/-! ## The consumer -/

section Consumer

variable {P C : Type} {s s' : Handshake P C}

theorem Inv.goto {pc : ConsumerPc C} (hthresh : ∀ c, (s.words c).wakeupThresh ≤ 1)
    (harmed : Armed s.words pc)
    (hempty : ∀ c ∈ pc.parkedOn, (s.words c).prodTail = (s.words c).consHead) :
    Inv (s.goto pc) :=
  ⟨hthresh, harmed, fun c hc => .inl (hempty c hc)⟩

theorem not_mem_parkedOn_nil {pc : ConsumerPc C} {Q : C → Prop} (hpc : pc.parkedOn = []) :
    ∀ c ∈ pc.parkedOn, Q c := by
  simp [hpc]

theorem armed_scanned {words : C → WakeWords} {ps : PollSet C} {maxEvents n : ℕ}
    {phase : ScanPhase} {todo : List C}
    (harmed : Armed words (.scan ps maxEvents phase todo n)) (m : ℕ) :
    Armed words (.scanned ps maxEvents phase m) := by
  cases phase with
  | fast =>
    simp only [ConsumerPc.scanned]
    split
    · trivial
    · exact fun c hc => .inl hc
  | armed =>
    simp only [ConsumerPc.scanned]
    split
    · trivial
    · exact fun c hc => ⟨harmed c hc, .inl hc⟩
  | final => trivial

theorem parkedOn_scanned {ps : PollSet C} {maxEvents n : ℕ} {phase : ScanPhase} :
    (ConsumerPc.scanned ps maxEvents phase n).parkedOn = [] := by
  cases phase <;> simp only [ConsumerPc.scanned] <;> try split
  all_goals rfl

variable [DecidableEq C]

theorem thresh_setSleeping (hthresh : ∀ c, (s.words c).wakeupThresh ≤ 1) (c : C)
    (value : UInt32) (d : C) : ((s.setSleeping c value).words d).wakeupThresh ≤ 1 := by
  by_cases hd : d = c
  · subst hd
    simpa [setSleeping] using hthresh d
  · simpa [setSleeping, hd] using hthresh d

theorem inv_consumed (hthresh : ∀ c, (s.words c).wakeupThresh ≤ 1) (c : C) (head tail : UInt32) :
    Inv (s.consumed c head tail) := by
  have hi : Inv (s.goto .idle) := Inv.goto hthresh trivial (not_mem_parkedOn_nil rfl)
  unfold consumed
  dsimp only
  split
  · exact hi
  · exact ⟨hi.thresh, hi.armed, hi.owed⟩

theorem setSleeping_words (c : C) (value : UInt32) (d : C) :
    ((s.setSleeping c value).words d).consHead = (s.words d).consHead ∧
      ((s.setSleeping c value).words d).consSleeping =
        if d = c then value else (s.words d).consSleeping := by
  by_cases hd : d = c <;> simp [setSleeping, hd]

theorem Inv.consumerStep_wait {slot : Bool} (hi : Inv s) (hpoll : s.consumer.polling = false)
    (hstep : s.consumerStep slot = some s') : Inv s' := by
  obtain ⟨hthresh, harmed, -⟩ := hi
  cases hpc : s.consumer with
  | idle => simp [Handshake.consumerStep, hpc] at hstep
  | futexParked c head => simp [Handshake.consumerStep, hpc] at hstep
  | spin c head count =>
    rw [hpc] at harmed
    cases count with
    | zero =>
      simp only [Handshake.consumerStep, hpc, Option.some.injEq] at hstep
      subst hstep
      exact Inv.goto hthresh harmed (not_mem_parkedOn_nil rfl)
    | succ count =>
      simp only [Handshake.consumerStep, hpc] at hstep
      split at hstep <;> cases hstep
      · exact inv_consumed hthresh c head _
      · exact Inv.goto hthresh harmed (not_mem_parkedOn_nil rfl)
  | sleep c head =>
    rw [hpc] at harmed
    simp only [Handshake.consumerStep, hpc, Option.some.injEq] at hstep
    subst hstep
    refine Inv.goto (thresh_setSleeping hthresh c 1) ⟨?_, ?_⟩ (not_mem_parkedOn_nil rfl)
    · exact (setSleeping_words c 1 c).1.trans harmed
    · simp [(setSleeping_words c 1 c).2]
  | recheck c head =>
    rw [hpc] at harmed
    simp only [Handshake.consumerStep, hpc] at hstep
    split at hstep <;> cases hstep
    · exact Inv.goto hthresh trivial (not_mem_parkedOn_nil rfl)
    · exact Inv.goto hthresh harmed (not_mem_parkedOn_nil rfl)
  | awake c head tail =>
    simp only [Handshake.consumerStep, hpc, Option.some.injEq] at hstep
    subst hstep
    exact inv_consumed (thresh_setSleeping hthresh c 0) c head tail
  | futexWait c head =>
    rw [hpc] at harmed
    simp only [Handshake.consumerStep, hpc] at hstep
    split at hstep
    · next hword =>
      cases hstep
      refine Inv.goto hthresh harmed.2 ?_
      intro d hd
      rw [List.mem_singleton.mp hd, hword.2, harmed.1]
    · cases hstep
      exact Inv.goto hthresh trivial (not_mem_parkedOn_nil rfl)
  | futexWoken c head =>
    simp only [Handshake.consumerStep, hpc, Option.some.injEq] at hstep
    subst hstep
    exact Inv.goto (thresh_setSleeping hthresh c 0) trivial (not_mem_parkedOn_nil rfl)
  | verify c head =>
    simp only [Handshake.consumerStep, hpc] at hstep
    split at hstep
    · split at hstep <;> cases hstep
      · exact Inv.goto hthresh trivial (not_mem_parkedOn_nil rfl)
      · exact Inv.goto hthresh rfl (not_mem_parkedOn_nil rfl)
    · cases hstep
      exact inv_consumed hthresh c head _
  | _ => simp [hpc, ConsumerPc.polling] at hpoll

theorem Inv.consumerStep_poll {slot : Bool} (hi : Inv s) (hmeet : Unmoved s (.consumer slot))
    (hpoll : s.consumer.polling = true) (hstep : s.consumerStep slot = some s') : Inv s' := by
  obtain ⟨hthresh, harmed, -⟩ := hi
  cases hpc : s.consumer with
  | scan ps maxEvents phase todo n =>
    rw [hpc] at harmed
    cases todo with
    | nil =>
      simp only [Handshake.consumerStep, hpc, Option.some.injEq] at hstep
      subst hstep
      exact Inv.goto hthresh (armed_scanned harmed n) (not_mem_parkedOn_nil parkedOn_scanned)
    | cons c todo =>
      simp only [Handshake.consumerStep, hpc] at hstep
      split at hstep <;> cases hstep
      · refine Inv.goto hthresh ?_ (not_mem_parkedOn_nil rfl)
        cases phase <;> exact harmed
      · exact Inv.goto hthresh (armed_scanned harmed n) (not_mem_parkedOn_nil parkedOn_scanned)
  | arm ps maxEvents todo =>
    rw [hpc] at harmed
    cases todo with
    | nil =>
      simp only [Handshake.consumerStep, hpc, Option.some.injEq] at hstep
      subst hstep
      refine Inv.goto hthresh ?_ (not_mem_parkedOn_nil rfl)
      intro c hc
      exact (harmed c hc).resolve_left List.not_mem_nil
    | cons c todo =>
      simp only [Handshake.consumerStep, hpc, Option.some.injEq] at hstep
      subst hstep
      refine Inv.goto (thresh_setSleeping hthresh c 1) ?_ (not_mem_parkedOn_nil rfl)
      intro d hd
      rw [(setSleeping_words c 1 d).2]
      by_cases hdc : d = c
      · simp [hdc]
      · simpa [hdc] using harmed d hd
  | disarm ps maxEvents ready todo =>
    cases todo with
    | nil =>
      simp only [Handshake.consumerStep, hpc, Option.some.injEq] at hstep
      subst hstep
      cases ready <;> exact Inv.goto hthresh trivial (not_mem_parkedOn_nil rfl)
    | cons c todo =>
      simp only [Handshake.consumerStep, hpc, Option.some.injEq] at hstep
      subst hstep
      exact Inv.goto (thresh_setSleeping hthresh c 0) trivial (not_mem_parkedOn_nil rfl)
  | fill ps maxEvents todo waiters =>
    rw [hpc] at harmed
    cases todo with
    | nil =>
      simp only [Handshake.consumerStep, hpc, Option.some.injEq] at hstep
      subst hstep
      refine Inv.goto hthresh ?_ (not_mem_parkedOn_nil rfl)
      intro c hc
      exact ⟨(harmed c hc).1, (harmed c hc).2.resolve_left List.not_mem_nil⟩
    | cons c todo =>
      simp only [Handshake.consumerStep, hpc, Option.some.injEq] at hstep
      subst hstep
      simp only [Unmoved, hpc] at hmeet
      refine Inv.goto hthresh ?_ (not_mem_parkedOn_nil rfl)
      intro d hd
      refine ⟨(harmed d hd).1, ?_⟩
      rw [hmeet, List.mem_append, List.mem_singleton]
      obtain htodo | hw := (harmed d hd).2
      · obtain rfl | htodo := List.mem_cons.mp htodo
        · exact .inr (.inr rfl)
        · exact .inl htodo
      · exact .inr (.inl hw)
  | futexWaitv ps maxEvents waiters =>
    rw [hpc] at harmed
    simp only [Handshake.consumerStep, hpc] at hstep
    split at hstep
    · next hwords =>
      cases hstep
      refine Inv.goto hthresh (fun c hc => (harmed c hc).1) ?_
      intro c hc
      exact hwords.2.2.2 _ (harmed c hc).2
    · cases hstep
      exact Inv.goto hthresh trivial (not_mem_parkedOn_nil rfl)
  | futexvParked ps maxEvents => simp [Handshake.consumerStep, hpc] at hstep
  | _ => simp [hpc, ConsumerPc.polling] at hpoll

theorem Inv.step [DecidableEq P] {e : HandshakeEvent P C} (hi : Inv s) (hmeet : Unmoved s e)
    (hstep : s.step e = some s') : Inv s' := by
  cases e with
  | commit p c => exact hi.commit hstep
  | producer p => exact hi.producerStep hstep
  | consumer slot =>
    cases hpoll : s.consumer.polling with
    | false => exact hi.consumerStep_wait hpoll hstep
    | true => exact hi.consumerStep_poll hmeet hpoll hstep
  | consumeWait c spinCount =>
    simp only [Handshake.step, Option.ite_none_right_eq_some, Option.some.injEq] at hstep
    obtain ⟨-, rfl⟩ := hstep
    exact Inv.goto hi.thresh rfl (not_mem_parkedOn_nil rfl)
  | poll ps maxEvents =>
    simp only [Handshake.step, Option.ite_none_right_eq_some, Option.some.injEq] at hstep
    obtain ⟨-, rfl⟩ := hstep
    exact Inv.goto hi.thresh trivial (not_mem_parkedOn_nil rfl)
  | release c =>
    simp only [Handshake.step, Option.ite_none_right_eq_some, Option.some.injEq] at hstep
    obtain ⟨hidle, rfl⟩ := hstep
    cases hpc : s.consumer <;> simp only [hpc, Bool.false_eq_true] at hidle
    refine ⟨fun d => ?_, ?_, ?_⟩
    · by_cases hd : d = c
      · subst hd
        simpa using hi.thresh d
      · simpa [hd] using hi.thresh d
    · trivial
    · simp [ConsumerPc.parkedOn]
  | interrupt =>
    simp only [Handshake.step, Option.ite_none_left_eq_some, Option.some.injEq] at hstep
    obtain ⟨-, rfl⟩ := hstep
    exact Inv.goto hi.thresh (armed_woken _ _ hi.armed) (not_mem_parkedOn_nil (parkedOn_woken _))

end Consumer

/-- In every interleaving in which no poll takes the value to wait for from a channel that has
become non-empty since its scan, the consumer is never stranded. -/
theorem no_stranded_descriptor {P C : Type} [DecidableEq P] [DecidableEq C]
    {thresh ringEntries : C → UInt32} {events : List (HandshakeEvent P C)} {s : Handshake P C}
    (hthresh : ∀ c, thresh c ≤ 1) (hmeet : StepsMeet step Unmoved (start thresh ringEntries) events)
    (hrun : runSteps step (start thresh ringEntries) events = some s) : ¬ Stranded s := by
  have hi : Inv s := runSteps_invariant_of_guard (fun _ _ _ hi hg hs => hi.step hg hs)
    (inv_start hthresh) hmeet hrun
  exact hi.not_stranded

def bothChannels : PollSet Bool := ⟨[false, true], by decide, by decide⟩

def pollToFill : List (HandshakeEvent Unit Bool) :=
  .poll bothChannels 1 :: List.replicate 9 (.consumer true)

def commitAll (c : Bool) : List (HandshakeEvent Unit Bool) :=
  .commit () c :: List.replicate 6 (.producer ())

theorem no_stranded_descriptor_two_channels :
    ∃ s, runSteps step (start (fun _ => 1) fun _ => 16)
        (pollToFill ++ List.replicate 4 (.consumer true) ++ [.commit () true, .producer ()]) =
          some s ∧
      s.consumer.parkedOn = [false, true] ∧ (s.words true).prodTail ≠ (s.words true).consHead ∧
      ¬ Stranded s := by
  have hend : (runSteps step (start (fun _ => 1) fun _ => 16)
      (pollToFill ++ List.replicate 4 (.consumer true) ++ [.commit () true, .producer ()])).map
        (fun s => (s.consumer.parkedOn, (s.words true).prodTail, (s.words true).consHead)) =
      some ([false, true], 1, 0) := by decide +kernel
  obtain ⟨s, hs, heq⟩ := Option.map_eq_some_iff.mp hend
  simp only [Prod.mk.injEq] at heq
  refine ⟨s, hs, heq.1, ?_, no_stranded_descriptor (fun _ => ?_) ?_ hs⟩
  · rw [heq.2.1, heq.2.2]
    decide
  · decide
  · decide +kernel

/-- A producer that commits and wakes between the scan and the filling of `waiters` leaves the
poll parked with its descriptor unread. -/
theorem poll_strands_descriptor :
    ∃ s, runSteps step (start (fun _ => 1) fun _ => 16)
        (pollToFill ++ commitAll true ++ List.replicate 4 (.consumer true)) = some s ∧
      Stranded s := by
  have hend : (runSteps step (start (fun _ => 1) fun _ => 16)
      (pollToFill ++ commitAll true ++ List.replicate 4 (.consumer true))).map
        (fun s => (s.consumer.parkedOn, (s.words true).prodTail, (s.words true).consHead,
          s.producer ())) =
      some ([false, true], 1, 0, .idle) := by decide +kernel
  obtain ⟨s, hs, heq⟩ := Option.map_eq_some_iff.mp hend
  simp only [Prod.mk.injEq] at heq
  refine ⟨s, hs, true, by simp [heq.1], ?_, ?_⟩
  · rw [heq.2.1, heq.2.2.1]
    decide
  · rintro ⟨⟩
    simp [heq.2.2.2, ProducerPc.goingToWake]

end Handshake

end Uros.Flipc2
